import Mathlib.Data.List.Chain
import Mathlib.Data.List.Nodup
import Mathlib.Data.List.Perm.Subperm

/-!
# Paths up the parents of a node

In a forest every node has at most one parent. A path goes from a node up to one of its ancestors,
as the list of the nodes that it leaves behind, the lowest first.
-/

namespace Commons

variable {α : Type*} {next : α → Option α} {a b p r r' x : α} {l m : List α}

/-- The path from a node to an ancestor, without the ancestor. -/
inductive Path (next : α → Option α) : α → List α → α → Prop
  | nil (a : α) : Path next a [] a
  | cons {a p r : α} {l : List α} (h : next a = some p) (hp : Path next p l r) :
    Path next a (a :: l) r

/-- The second node is the first, or one of its ancestors. -/
def Reaches (next : α → Option α) (a r : α) : Prop := ∃ l, Path next a l r

namespace Path

@[simp] theorem nil_iff : Path next a [] r ↔ a = r := by
  constructor
  · rintro ⟨⟩
    rfl
  · rintro rfl
    exact nil a

@[simp] theorem cons_iff : Path next a (b :: l) r ↔
    b = a ∧ ∃ p, next a = some p ∧ Path next p l r := by
  constructor
  · rintro ⟨⟩
    exact ⟨rfl, _, ‹_›, ‹_›⟩
  · rintro ⟨rfl, p, h, hp⟩
    exact cons h hp

theorem append_iff : Path next a (l ++ m) r ↔ ∃ p, Path next a l p ∧ Path next p m r := by
  induction l generalizing a with
  | nil => simp
  | cons b l ih =>
    simp only [List.cons_append, cons_iff, ih]
    constructor
    · rintro ⟨rfl, q, hq, p, hl, hm⟩
      exact ⟨p, ⟨rfl, q, hq, hl⟩, hm⟩
    · rintro ⟨p, ⟨rfl, q, hq, hl⟩, hm⟩
      exact ⟨rfl, q, hq, p, hl, hm⟩

theorem unique (h : Path next a l r) (h' : Path next a m r') (hlen : l.length = m.length) :
    l = m ∧ r = r' := by
  induction h generalizing m with
  | nil =>
    obtain rfl : m = [] := List.length_eq_zero_iff.mp hlen.symm
    exact ⟨rfl, nil_iff.mp h'⟩
  | @cons a p r l hp hl ih =>
    cases h' with
    | nil => cases hlen
    | @cons _ p' _ m hp' hm =>
      obtain rfl := Option.some.inj (hp.symm.trans hp')
      obtain ⟨rfl, hr⟩ := ih hm (Nat.succ.inj hlen)
      exact ⟨rfl, hr⟩

theorem start_unique (h : Path next a l r) (h' : Path next b l r) : a = b := by
  cases h with
  | nil => exact (nil_iff.mp h').symm
  | cons => exact (cons_iff.mp h').1

theorem reaches_iff (h : Path next a l r) : Reaches next a x ↔ x ∈ l ∨ Reaches next r x := by
  induction h with
  | nil => simp
  | @cons a p r l hp hl ih =>
    rw [List.mem_cons, or_assoc, ← ih]
    constructor
    · rintro ⟨m, hm⟩
      cases hm with
      | nil => exact .inl rfl
      | @cons _ p' _ m hp' hm =>
        obtain rfl := Option.some.inj (hp.symm.trans hp')
        exact .inr ⟨m, hm⟩
    · rintro (rfl | ⟨m, hm⟩)
      · exact ⟨[], nil x⟩
      · exact ⟨a :: m, cons hp hm⟩

theorem of_closed {next' : α → Option α} {S : Set α}
    (hS : ∀ x ∈ S, ∀ p, next x = some p → p ∈ S ∧ next' x = some p) (ha : a ∈ S)
    (h : Path next a l r) : Path next' a l r := by
  induction h with
  | nil a => exact nil a
  | @cons a p r l hp _ ih =>
    obtain ⟨hmem, hp'⟩ := hS a ha p hp
    exact cons hp' (ih hmem)

theorem compare (h : Path next a l r) (h' : Path next a m r') :
    (∃ k, m = l ++ k ∧ Path next r k r') ∨ ∃ k, l = m ++ k ∧ Path next r' k r := by
  induction h generalizing m with
  | nil => exact .inl ⟨m, rfl, h'⟩
  | @cons a p r l hp hl ih =>
    cases h' with
    | nil => exact .inr ⟨_, rfl, cons hp hl⟩
    | @cons _ p' _ m hp' hm =>
      obtain rfl := Option.some.inj (hp.symm.trans hp')
      rcases ih hm with ⟨k, rfl, hk⟩ | ⟨k, rfl, hk⟩
      · exact .inl ⟨k, rfl, hk⟩
      · exact .inr ⟨k, rfl, hk⟩

theorem next_of_mem (h : Path next a l r) (hx : x ∈ l) : ∃ p, next x = some p := by
  induction h with
  | nil => cases hx
  | @cons a p r l hp _ ih =>
    rcases List.mem_cons.mp hx with rfl | hx
    · exact ⟨p, hp⟩
    · exact ih hx

theorem isChain (h : Path next a l r) :
    (l ++ [r]).IsChain (fun x y => next x = some y) ∧ (l ++ [r]).head? = some a := by
  induction h with
  | nil a => exact ⟨.singleton a, rfl⟩
  | @cons a p r l hp _ ih => exact ⟨.cons ih.1 (by simp [ih.2, hp]), rfl⟩

end Path

theorem Reaches.refl (a : α) : Reaches next a a := ⟨[], .nil a⟩

theorem reaches_of_none (h : next a = none) : Reaches next a x ↔ x = a := by
  constructor
  · rintro ⟨l, hl⟩
    cases hl with
    | nil => rfl
    | cons hp =>
      rw [h] at hp
      cases hp
  · rintro rfl
    exact Reaches.refl x

/-! ## Numbers along a path -/

/-- A node of the set has a parent in the set, with the number before, or none. -/
def Ranked (next : α → Option α) (num : α → ℕ) (S : Set α) : Prop :=
  ∀ a ∈ S, ∀ p, next a = some p → p ∈ S ∧ num a = num p + 1

namespace Ranked

variable {num : α → ℕ} {S : Set α}

theorem path (h : Ranked next num S) (ha : a ∈ S) (hl : Path next a l r) :
    r ∈ S ∧ num a = num r + l.length := by
  induction hl with
  | nil => exact ⟨ha, rfl⟩
  | @cons a p r l hp _ ih =>
    obtain ⟨hmem, hnum⟩ := h a ha p hp
    obtain ⟨hr, hlen⟩ := ih hmem
    refine ⟨hr, ?_⟩
    rw [List.length_cons]
    omega

theorem le_of_reaches (h : Ranked next num S) (ha : a ∈ S) (hr : Reaches next a r) :
    num r ≤ num a := by
  obtain ⟨l, hl⟩ := hr
  have := (h.path ha hl).2
  omega

theorem of_mem (h : Ranked next num S) (ha : a ∈ S) (hl : Path next a l r) (hx : x ∈ l) :
    x ∈ S ∧ num r < num x := by
  obtain ⟨l₁, l₂, rfl⟩ := List.append_of_mem hx
  obtain ⟨p, hp₁, hp₂⟩ := Path.append_iff.mp hl
  have hp := (h.path ha hp₁).1
  obtain ⟨rfl, -⟩ := Path.cons_iff.mp hp₂
  have := (h.path hp hp₂).2
  rw [List.length_cons] at this
  exact ⟨hp, by omega⟩

theorem lt_of_reaches (h : Ranked next num S) (ha : a ∈ S) (hr : Reaches next a r) (hne : a ≠ r) :
    num r < num a := by
  obtain ⟨l, hl⟩ := hr
  cases hl with
  | nil => exact absurd rfl hne
  | cons hp hl => exact (h.of_mem ha (.cons hp hl) List.mem_cons_self).2

theorem eq_of_reaches (h : Ranked next num S) (ha : a ∈ S) (hr : Reaches next a r)
    (hr' : Reaches next a r') (hnum : num r = num r') : r = r' := by
  obtain ⟨l, hl⟩ := hr
  obtain ⟨m, hm⟩ := hr'
  have h₁ := (h.path ha hl).2
  have h₂ := (h.path ha hm).2
  exact (hl.unique hm (by omega)).2

theorem exists_root (h : Ranked next num S) (ha : a ∈ S) :
    ∃ r ∈ S, next r = none ∧ Reaches next a r := by
  induction hn : num a using Nat.strong_induction_on generalizing a with
  | _ n ih =>
    cases hp : next a with
    | none => exact ⟨a, ha, hp, .refl a⟩
    | some p =>
      obtain ⟨hmem, hnum⟩ := h a ha p hp
      obtain ⟨r, hr, hnone, l, hl⟩ := ih (num p) (by omega) hmem rfl
      exact ⟨r, hr, hnone, _, .cons hp hl⟩

theorem path_unique (h : Ranked next num S) (ha : a ∈ S) (hl : Path next a l r)
    (hm : Path next a m r) : l = m := by
  have h₁ := (h.path ha hl).2
  have h₂ := (h.path ha hm).2
  exact (hl.unique hm (by omega)).1

theorem not_reaches (h : Ranked next num S) (ha : a ∈ S) (hl : Path next a l r) (hx : x ∈ l) :
    ¬ Reaches next r x := by
  intro hr
  have h₁ := (h.of_mem ha hl hx).2
  have h₂ := h.le_of_reaches (h.path ha hl).1 hr
  omega

theorem nodup (h : Ranked next num S) (ha : a ∈ S) (hl : Path next a l r) : l.Nodup := by
  induction hl with
  | nil => exact List.nodup_nil
  | @cons a p r l hp hl ih =>
    obtain ⟨hmem, hnum⟩ := h a ha p hp
    refine List.nodup_cons.mpr ⟨fun hal => ?_, ih hmem⟩
    have hle := h.le_of_reaches hmem (hl.reaches_iff.mpr (.inl hal))
    omega

theorem length_le (h : Ranked next num S) (ha : a ∈ S) (hl : Path next a l r) {nodes : List α}
    (hS : ∀ b ∈ S, b ∈ nodes) : l.length ≤ nodes.length :=
  ((h.nodup ha hl).subperm fun _ hb => hS _ (h.of_mem ha hl hb).1).length_le

end Ranked

end Commons
