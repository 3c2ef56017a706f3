import Mathlib.Data.List.Sort
import Mathlib.Data.Finset.Card

/-!
# Order statistics of a list

The element at position `k` of a list sorted in increasing order is at least `x` exactly when at
most `k` elements of the list are below `x`. So bounds on an order statistic are bounds on a count.
-/

namespace Commons

variable {α : Type*} [LinearOrder α]

/-- The element at position `k` of the list in increasing order. -/
def orderStat (k : Nat) (l : List α) : Option α := (l.insertionSort (· ≤ ·))[k]?

variable {l : List α} {k : Nat} {y : α} {β : Type*}

theorem le_getElem_iff_of_pairwise (hl : l.Pairwise (· ≤ ·)) {x : α} (hy : l[k]? = some y) :
    x ≤ y ↔ l.countP (· < x) ≤ k := by
  induction l generalizing k with
  | nil => simp at hy
  | cons a l ih =>
    obtain ⟨ha, hl'⟩ := List.pairwise_cons.mp hl
    cases k with
    | zero =>
      obtain rfl : a = y := by simpa using hy
      rw [List.countP_cons]
      constructor
      · intro hx
        have htail : l.countP (· < x) = 0 := by
          rw [List.countP_eq_zero]
          intro b hb
          simpa using hx.trans (ha b hb)
        simp [htail, hx]
      · intro hcount
        by_contra hx
        simp [not_le.mp hx] at hcount
    | succ k =>
      have hy' : l[k]? = some y := by simpa using hy
      have hay : a ≤ y := ha y (List.mem_of_getElem? hy')
      rw [List.countP_cons, ih hl' hy']
      by_cases hax : a < x
      · simp [hax]
      · have hxy : x ≤ y := (not_lt.mp hax).trans hay
        have hk := (ih hl' hy').mp hxy
        simp only [hax, decide_false, Bool.false_eq_true, if_false, Nat.add_zero]
        exact ⟨fun h => h.trans (Nat.le_succ k), fun _ => hk⟩

/-- **Order statistics by counting**: the element at position `k` is at least `x` exactly when at
most `k` elements are below `x`. -/
theorem le_orderStat_iff {x : α} (hy : orderStat k l = some y) : x ≤ y ↔ l.countP (· < x) ≤ k := by
  have hsorted : (l.insertionSort (· ≤ ·)).Pairwise (· ≤ ·) := List.pairwise_insertionSort _ l
  rw [le_getElem_iff_of_pairwise hsorted hy, (List.perm_insertionSort (· ≤ ·) l).countP_eq]

theorem orderStat_isSome (h : k < l.length) : ∃ y, orderStat k l = some y := by
  have hlen : k < (l.insertionSort (· ≤ ·)).length := by rwa [List.length_insertionSort]
  exact ⟨_, List.getElem?_eq_getElem hlen⟩

theorem mem_of_orderStat (h : orderStat k l = some y) : y ∈ l :=
  (List.mem_insertionSort _).mp (List.mem_of_getElem? h)

theorem card_le_card_inter_add [DecidableEq β] {s t u : Finset β} {f : Nat} (hs : s ⊆ u)
    (ht : t ⊆ u) (hsf : u.card ≤ s.card + f) (htf : u.card ≤ t.card + f) :
    u.card ≤ (s ∩ t).card + 2 * f := by
  have hsum : (s ∪ t).card + (s ∩ t).card = s.card + t.card := Finset.card_union_add_card_inter s t
  have hunion : (s ∪ t).card ≤ u.card := Finset.card_le_card (Finset.union_subset hs ht)
  omega

theorem insertIdx_eq_append {l : List β} {i : Nat} (h : i ≤ l.length) (x : β) :
    l.insertIdx i x = l.take i ++ x :: l.drop i := by
  induction l generalizing i with
  | nil =>
    obtain rfl : i = 0 := by simpa using h
    rfl
  | cons y l ih =>
    cases i with
    | zero => rfl
    | succ => simp [ih (Nat.le_of_succ_le_succ h)]

theorem orderedInsert_eq_append {r : β → β → Prop} [DecidableRel r] {x : β} {l : List β}
    (h : ∀ y ∈ l, ¬ r x y) : l.orderedInsert r x = l ++ [x] := by
  induction l with
  | nil => rfl
  | cons y l ih =>
    rw [List.forall_mem_cons] at h
    rw [List.orderedInsert_cons, if_neg h.1, ih h.2, List.cons_append]

theorem take_orderedInsert (r : β → β → Prop) [DecidableRel r] (x : β) (n : Nat) (l : List β) :
    ((l.take n).orderedInsert r x).take n = (l.orderedInsert r x).take n := by
  induction l generalizing n with
  | nil => simp
  | cons y l ih =>
    cases n with
    | zero => simp
    | succ n =>
      rw [List.take_succ_cons, List.orderedInsert_cons, List.orderedInsert_cons]
      split_ifs
      · cases n <;> simp [List.take_take]
      · rw [List.take_succ_cons, List.take_succ_cons, ih]

end Commons
