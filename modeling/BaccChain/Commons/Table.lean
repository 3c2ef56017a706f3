import Mathlib.Algebra.Order.BigOperators.Group.List
import Mathlib.Tactic.Abel

/-!
# Finite tables in key order

A table maps finitely many keys to values and is kept as the list of its entries in strictly
increasing key order, so equal contents are equal tables.
-/

namespace Commons

variable {κ ι α β M : Type*}

/-- A finite map, kept as its entries in strictly increasing key order. -/
structure Table (κ α : Type*) [LinearOrder κ] where
  entries : List (κ × α)
  sorted : entries.Pairwise fun e e' => e.1 < e'.1

namespace Table

section Entries

variable [LinearOrder κ]

/-- The value an entry list holds at `k`. -/
def findEntry (k : κ) : List (κ × α) → Option α
  | [] => none
  | e :: l => if e.1 = k then some e.2 else findEntry k l

/-- The entry list with the value at `k` set to `a`. -/
def insertEntry (k : κ) (a : α) : List (κ × α) → List (κ × α)
  | [] => [(k, a)]
  | e :: l =>
    if k < e.1 then (k, a) :: e :: l
    else if e.1 = k then (k, a) :: l
    else e :: insertEntry k a l

/-- The entry list without an entry at `k`. -/
def eraseEntry (k : κ) (l : List (κ × α)) : List (κ × α) :=
  l.filter fun e => ¬ e.1 = k

variable {k : κ} {a : α} {l : List (κ × α)}

theorem mem_insertEntry {e : κ × α} (h : e ∈ insertEntry k a l) : e = (k, a) ∨ e ∈ l := by
  induction l with
  | nil => simpa [insertEntry] using h
  | cons x l ih =>
    unfold insertEntry at h
    split_ifs at h with h₁ h₂
    · simpa using h
    · rcases List.mem_cons.mp h with h | h
      · exact Or.inl h
      · exact Or.inr (List.mem_cons_of_mem _ h)
    · rcases List.mem_cons.mp h with h | h
      · exact Or.inr (h ▸ List.mem_cons_self)
      · exact (ih h).imp id (List.mem_cons_of_mem _)

theorem pairwise_insertEntry (k : κ) (a : α) (h : l.Pairwise fun e e' => e.1 < e'.1) :
    (insertEntry k a l).Pairwise fun e e' => e.1 < e'.1 := by
  induction l with
  | nil => simp [insertEntry]
  | cons x l ih =>
    obtain ⟨hx, hl⟩ := List.pairwise_cons.mp h
    unfold insertEntry
    split_ifs with h₁ h₂
    · refine List.pairwise_cons.mpr ⟨fun e he => ?_, h⟩
      rcases List.mem_cons.mp he with rfl | he
      · exact h₁
      · exact h₁.trans (hx e he)
    · exact List.pairwise_cons.mpr ⟨fun e he => h₂ ▸ hx e he, hl⟩
    · refine List.pairwise_cons.mpr ⟨fun e he => ?_, ih hl⟩
      rcases mem_insertEntry he with rfl | he
      · exact lt_of_le_of_ne (not_lt.mp h₁) h₂
      · exact hx e he

theorem findEntry_eq_none (h : ∀ e ∈ l, e.1 ≠ k) : findEntry k l = none := by
  induction l with
  | nil => rfl
  | cons x l ih =>
    rw [findEntry, if_neg (h x List.mem_cons_self)]
    exact ih fun e he => h e (List.mem_cons_of_mem _ he)

theorem mem_of_findEntry (h : findEntry k l = some a) : (k, a) ∈ l := by
  induction l with
  | nil => simp [findEntry] at h
  | cons x l ih =>
    unfold findEntry at h
    split_ifs at h with hx
    · obtain rfl := Option.some.inj h
      exact hx ▸ List.mem_cons_self
    · exact List.mem_cons_of_mem _ (ih h)

theorem findEntry_of_mem (hl : l.Pairwise fun e e' => e.1 < e'.1) (h : (k, a) ∈ l) :
    findEntry k l = some a := by
  induction l with
  | nil => cases h
  | cons x l ih =>
    obtain ⟨hx, hl'⟩ := List.pairwise_cons.mp hl
    rcases List.mem_cons.mp h with rfl | h
    · simp [findEntry]
    · rw [findEntry, if_neg (hx _ h).ne]
      exact ih hl' h

theorem findEntry_insertEntry (k k' : κ) (a : α) (l : List (κ × α)) :
    findEntry k' (insertEntry k a l) = if k = k' then some a else findEntry k' l := by
  induction l with
  | nil => simp [insertEntry, findEntry]
  | cons x l ih =>
    unfold insertEntry
    by_cases h₁ : k < x.1
    · rw [if_pos h₁, findEntry]
    · by_cases h₂ : x.1 = k
      · rw [if_neg h₁, if_pos h₂, findEntry, findEntry]
        by_cases h₃ : k = k'
        · rw [if_pos h₃, if_pos h₃]
        · rw [if_neg h₃, if_neg h₃, if_neg (h₂ ▸ h₃)]
      · rw [if_neg h₁, if_neg h₂, findEntry, findEntry, ih]
        by_cases h₃ : k = k'
        · rw [if_neg (h₃ ▸ h₂), if_pos h₃, if_pos h₃]
        · rw [if_neg h₃, if_neg h₃]

theorem findEntry_eraseEntry (k k' : κ) (l : List (κ × α)) :
    findEntry k' (eraseEntry k l) = if k = k' then none else findEntry k' l := by
  induction l with
  | nil => simp [eraseEntry, findEntry]
  | cons x l ih =>
    simp only [eraseEntry] at ih
    by_cases hx : x.1 = k
    · simp only [eraseEntry, List.filter_cons, hx, findEntry]
      simp only [not_true_eq_false, decide_false, Bool.false_eq_true, if_false, ih]
      split_ifs <;> rfl
    · simp only [eraseEntry, List.filter_cons, hx, not_false_eq_true, decide_true, if_true,
        findEntry, ih]
      split_ifs with h₁ h₂
      · exact absurd (h₁.trans h₂.symm) hx
      all_goals rfl

end Entries

variable [LinearOrder κ]

def empty : Table κ α := ⟨[], List.Pairwise.nil⟩

/-- The value at `k`, if any. -/
def find (t : Table κ α) (k : κ) : Option α := findEntry k t.entries

/-- The table with the value at `k` set to `a`. -/
def insert (t : Table κ α) (k : κ) (a : α) : Table κ α :=
  ⟨insertEntry k a t.entries, pairwise_insertEntry k a t.sorted⟩

/-- The table without a value at `k`. -/
def erase (t : Table κ α) (k : κ) : Table κ α :=
  ⟨eraseEntry k t.entries, t.sorted.filter _⟩

theorem find_insert (t : Table κ α) (k k' : κ) (a : α) :
    (t.insert k a).find k' = if k = k' then some a else t.find k' :=
  findEntry_insertEntry k k' a t.entries

@[simp] theorem find_insert_self (t : Table κ α) (k : κ) (a : α) :
    (t.insert k a).find k = some a := by
  rw [find_insert, if_pos rfl]

theorem find_insert_ne (t : Table κ α) {k k' : κ} (a : α) (h : k ≠ k') :
    (t.insert k a).find k' = t.find k' := by
  rw [find_insert, if_neg h]

theorem find_erase (t : Table κ α) (k k' : κ) :
    (t.erase k).find k' = if k = k' then none else t.find k' :=
  findEntry_eraseEntry k k' t.entries

variable {t : Table κ α}

theorem mem_entries_iff {k : κ} {a : α} : (k, a) ∈ t.entries ↔ t.find k = some a :=
  ⟨findEntry_of_mem t.sorted, mem_of_findEntry⟩

theorem forall_find {P : κ → α → Prop} :
    (∀ k a, t.find k = some a → P k a) ↔ ∀ e ∈ t.entries, P e.1 e.2 := by
  simp only [← mem_entries_iff, Prod.forall]

theorem ext_find {u : Table κ α} (h : ∀ k, t.find k = u.find k) : t = u := by
  have nodup (t : Table κ α) : t.entries.Nodup :=
    t.sorted.imp fun hlt heq => hlt.ne (congrArg Prod.fst heq)
  have hperm : t.entries.Perm u.entries := by
    rw [List.perm_ext_iff_of_nodup (nodup t) (nodup u)]
    rintro ⟨k, a⟩
    rw [mem_entries_iff, mem_entries_iff, h]
  have heq : t.entries = u.entries :=
    hperm.eq_of_pairwise (fun _ _ _ _ h₁ h₂ => absurd h₁ h₂.asymm) t.sorted u.sorted
  cases u
  cases heq
  rfl

/-- The entries of `t` laid over those of `u`. -/
def overlay (t u : Table κ α) : Table κ α := t.entries.foldr (fun e v => v.insert e.1 e.2) u

theorem find_overlay (t u : Table κ α) (k : κ) :
    (t.overlay u).find k = (t.find k).or (u.find k) := by
  unfold overlay find
  induction t.entries with
  | nil => rfl
  | cons e l ih =>
    rw [List.foldr_cons, insert, findEntry_insertEntry, ih, findEntry]
    split_ifs <;> rfl

/-! ## Counting entries -/

section Count

theorem length_le_length_insertEntry (k : κ) (a : α) (l : List (κ × α)) :
    l.length ≤ (insertEntry k a l).length := by
  induction l with
  | nil => exact Nat.zero_le _
  | cons x l ih =>
    unfold insertEntry
    split_ifs
    · exact Nat.le_succ _
    · exact le_rfl
    · exact Nat.succ_le_succ ih

theorem countP_insertEntry_le {p : κ × α → Bool} {k : κ} {a : α} (h : p (k, a) = false)
    (l : List (κ × α)) : (insertEntry k a l).countP p ≤ l.countP p := by
  induction l with
  | nil => simp [insertEntry, h]
  | cons x l ih =>
    unfold insertEntry
    split_ifs
    · simp [List.countP_cons, h]
    · simp [List.countP_cons, h]
    · simpa [List.countP_cons] using ih

theorem nodup_keys (t : Table κ α) : (t.entries.map Prod.fst).Nodup := by
  rw [List.Nodup, List.pairwise_map]
  exact t.sorted.imp fun h => h.ne

theorem mem_keys_iff (t : Table κ α) (k : κ) :
    k ∈ t.entries.map Prod.fst ↔ ∃ a, t.find k = some a := by
  simp [← mem_entries_iff]

end Count

/-! ## Sums over the entries -/

variable {f g : κ → α → M}

section Sum

variable [AddCommMonoid M]

/-- The sum of the weight `f` over the entries. -/
def sum (t : Table κ α) (f : κ → α → M) : M := (t.entries.map fun e => f e.1 e.2).sum

/-- The weight of the entry at `k`; zero when there is none. -/
def weightAt (t : Table κ α) (f : κ → α → M) (k : κ) : M := (t.find k).elim 0 (f k)

theorem weightAt_of_find {k : κ} {a : α} (h : t.find k = some a) (f : κ → α → M) :
    t.weightAt f k = f k a := by
  rw [weightAt, h]; rfl

theorem weightAt_of_find_none {k : κ} (h : t.find k = none) (f : κ → α → M) :
    t.weightAt f k = 0 := by
  rw [weightAt, h]; rfl

@[simp] theorem sum_empty (f : κ → α → M) : (empty : Table κ α).sum f = 0 := rfl

theorem sum_congr (h : ∀ k a, t.find k = some a → f k a = g k a) : t.sum f = t.sum g := by
  refine congrArg List.sum (List.map_congr_left fun e he => ?_)
  exact h e.1 e.2 (mem_entries_iff.mp he)

theorem sum_zero (t : Table κ α) : t.sum (fun _ _ => (0 : M)) = 0 := by
  simp [sum]

theorem sum_add (t : Table κ α) (f g : κ → α → M) :
    t.sum (fun k a => f k a + g k a) = t.sum f + t.sum g := by
  unfold sum
  induction t.entries with
  | nil => simp
  | cons x l ih =>
    simp only [List.map_cons, List.sum_cons, ih]
    abel


variable {l : List (κ × α)}

theorem insertEntry_perm (k : κ) (a : α) (hl : l.Pairwise fun e e' => e.1 < e'.1) :
    (insertEntry k a l).Perm ((k, a) :: eraseEntry k l) := by
  induction l with
  | nil => rfl
  | cons x l ih =>
    obtain ⟨hx, hl'⟩ := List.pairwise_cons.mp hl
    unfold insertEntry
    split_ifs with h₁ h₂
    · have hall : ∀ e ∈ x :: l, ¬ e.1 = k :=
        List.forall_mem_cons.mpr ⟨h₁.ne', fun e he => (h₁.trans (hx e he)).ne'⟩
      rw [eraseEntry, List.filter_eq_self.mpr (by simpa using hall)]
    · have hall : ∀ e ∈ l, ¬ e.1 = k := fun e he => h₂ ▸ (hx e he).ne'
      rw [eraseEntry, List.filter_cons_of_neg (by simpa using h₂),
        List.filter_eq_self.mpr (by simpa using hall)]
    · rw [eraseEntry, List.filter_cons_of_pos (by simpa using h₂)]
      exact ((ih hl').cons x).trans (.swap ..)

theorem sum_eraseEntry (f : κ → α → M) (k : κ) (hl : l.Pairwise fun e e' => e.1 < e'.1) :
    ((eraseEntry k l).map fun e => f e.1 e.2).sum + (findEntry k l).elim 0 (f k) =
      (l.map fun e => f e.1 e.2).sum := by
  induction l with
  | nil => simp [eraseEntry, findEntry]
  | cons x l ih =>
    obtain ⟨hx, hl'⟩ := List.pairwise_cons.mp hl
    have ih' := ih hl'
    simp only [eraseEntry] at ih'
    by_cases h : x.1 = k
    · have hnone : findEntry k l = none := findEntry_eq_none fun e he => h ▸ (hx e he).ne'
      rw [hnone] at ih'
      simp only [eraseEntry, List.filter_cons, h, not_true_eq_false, decide_false,
        Bool.false_eq_true, if_false, findEntry, if_true, Option.elim_some, List.map_cons,
        List.sum_cons]
      rw [← ih', Option.elim_none, add_zero, add_comm]
    · simp only [eraseEntry, List.filter_cons, h, not_false_eq_true, decide_true, if_true,
        findEntry, if_false, List.map_cons, List.sum_cons]
      rw [add_assoc, ih']

theorem sum_erase (t : Table κ α) (f : κ → α → M) (k : κ) :
    (t.erase k).sum f + t.weightAt f k = t.sum f :=
  sum_eraseEntry f k t.sorted

theorem sum_insert (t : Table κ α) (f : κ → α → M) (k : κ) (a : α) :
    (t.insert k a).sum f + t.weightAt f k = t.sum f + f k a := by
  have hsum : (t.insert k a).sum f = f k a + (t.erase k).sum f :=
    ((insertEntry_perm k a t.sorted).map _).sum_eq
  rw [hsum, add_assoc, sum_erase, add_comm]

theorem sum_eq_of_agree_off (t : Table κ α) (k : κ)
    (h : ∀ k' a, k' ≠ k → t.find k' = some a → f k' a = g k' a) :
    t.sum f + t.weightAt g k = t.sum g + t.weightAt f k := by
  have hoff : (t.erase k).sum f = (t.erase k).sum g := by
    refine sum_congr fun k' a hk' => ?_
    rw [find_erase] at hk'
    split_ifs at hk' with hkk
    exact h k' a (fun e => hkk e.symm) hk'
  rw [← t.sum_erase f k, ← t.sum_erase g k, hoff]
  abel

theorem weightAt_erase (t : Table κ α) (f : κ → α → M) (k k' : κ) :
    (t.erase k).weightAt f k' = if k = k' then 0 else t.weightAt f k' := by
  unfold weightAt
  rw [find_erase]
  split_ifs <;> rfl

theorem sum_eq_of_weightAt {u : Table κ β} {g : κ → β → M}
    (h : ∀ k, t.weightAt f k = u.weightAt g k) : t.sum f = u.sum g := by
  obtain ⟨n, hn⟩ : ∃ n, t.entries.length = n := ⟨_, rfl⟩
  induction n generalizing t u with
  | zero =>
    have hnil : t.entries = [] := List.length_eq_zero_iff.mp hn
    have hfind : ∀ k, t.find k = none := fun k => by rw [find, hnil]; rfl
    have hu : ∀ k b, u.find k = some b → g k b = 0 := by
      intro k b hb
      rw [← weightAt_of_find hb g, ← h k, weightAt_of_find_none (hfind k)]
    rw [sum_congr hu, sum_zero, sum, hnil]
    rfl
  | succ n ih =>
    obtain ⟨⟨k, a⟩, l, hl⟩ := List.exists_cons_of_length_eq_add_one hn
    have hlen : (t.erase k).entries.length = n := by
      have hnot : ∀ e ∈ l, ¬ e.1 = k := by
        intro e he
        have hs := t.sorted
        rw [hl] at hs
        exact ((List.pairwise_cons.mp hs).1 e he).ne'
      have herase : (t.erase k).entries = l := by
        show eraseEntry k t.entries = l
        rw [hl, eraseEntry, List.filter_cons]
        simpa using hnot
      rw [hl] at hn
      rw [herase]
      simpa using hn
    have hoff : (t.erase k).sum f = (u.erase k).sum g :=
      ih (fun k' => by rw [weightAt_erase, weightAt_erase, h k']) hlen
    rw [← t.sum_erase f k, ← u.sum_erase g k, hoff, h k]

end Sum

section Order

variable [AddCommMonoid M] [PartialOrder M] [IsOrderedAddMonoid M]

theorem sum_le_sum (h : ∀ k a, t.find k = some a → f k a ≤ g k a) : t.sum f ≤ t.sum g :=
  List.sum_le_sum fun e he => h e.1 e.2 (mem_entries_iff.mp he)

theorem sum_nonneg (h : ∀ k a, t.find k = some a → 0 ≤ f k a) : 0 ≤ t.sum f := by
  rw [← sum_zero t]
  exact sum_le_sum h

theorem weightAt_le_sum (h : ∀ k a, t.find k = some a → 0 ≤ f k a) (k : κ) :
    t.weightAt f k ≤ t.sum f := by
  rw [← t.sum_erase f k]
  refine le_add_of_nonneg_left (sum_nonneg fun k' a hk' => ?_)
  rw [find_erase] at hk'
  split_ifs at hk'
  exact h k' a hk'

end Order

end Table

end Commons
