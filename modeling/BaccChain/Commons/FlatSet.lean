import BaccChain.Commons.Table

/-!
# Finite sets in order

A set that is kept as the list of its elements in increasing order. Two such sets with the same
elements are the same list, so a set can be stored as a sequence and read back.
-/

namespace Commons

/-- A finite set, kept in increasing order. -/
structure FlatSet (κ : Type*) [LinearOrder κ] where
  table : Table κ Unit

namespace FlatSet

variable {κ : Type*} [LinearOrder κ] {s t : FlatSet κ} {a b : κ} {l : List κ}

def empty : FlatSet κ := ⟨Table.empty⟩

instance : Membership κ (FlatSet κ) := ⟨fun s a => s.table.find a = some ()⟩

instance (a : κ) (s : FlatSet κ) : Decidable (a ∈ s) :=
  inferInstanceAs (Decidable (s.table.find a = some ()))

def insert (s : FlatSet κ) (a : κ) : FlatSet κ := ⟨s.table.insert a ()⟩

def erase (s : FlatSet κ) (a : κ) : FlatSet κ := ⟨s.table.erase a⟩

def insertAll (s : FlatSet κ) (l : List κ) : FlatSet κ := l.foldl insert s

def difference (s : FlatSet κ) (l : List κ) : FlatSet κ := l.foldl erase s

def toList (s : FlatSet κ) : List κ := s.table.entries.map Prod.fst

theorem mem_def : a ∈ s ↔ s.table.find a = some () := Iff.rfl

@[simp] theorem notMem_empty : a ∉ (empty : FlatSet κ) := fun h => by cases h

@[simp] theorem mem_insert : a ∈ s.insert b ↔ a = b ∨ a ∈ s := by
  rw [mem_def, insert, Table.find_insert, mem_def]
  by_cases h : b = a
  · simp [h]
  · simp [h, Ne.symm h]

@[simp] theorem mem_erase : a ∈ s.erase b ↔ a ≠ b ∧ a ∈ s := by
  rw [mem_def, erase, Table.find_erase, mem_def]
  by_cases h : b = a
  · simp [h]
  · simp [h, Ne.symm h]

@[simp] theorem mem_insertAll : a ∈ s.insertAll l ↔ a ∈ l ∨ a ∈ s := by
  induction l generalizing s with
  | nil => simp [insertAll]
  | cons b l ih =>
    rw [insertAll, List.foldl_cons, ← insertAll, ih, mem_insert, List.mem_cons]
    tauto

@[simp] theorem mem_difference : a ∈ s.difference l ↔ a ∉ l ∧ a ∈ s := by
  induction l generalizing s with
  | nil => simp [difference]
  | cons b l ih =>
    rw [difference, List.foldl_cons, ← difference, ih, mem_erase, List.mem_cons]
    tauto

@[simp] theorem mem_toList : a ∈ s.toList ↔ a ∈ s := by
  rw [toList, Table.mem_keys_iff, mem_def]
  exact ⟨fun ⟨_, h⟩ => h, fun h => ⟨(), h⟩⟩

@[ext] theorem ext (h : ∀ a, a ∈ s ↔ a ∈ t) : s = t := by
  have htable : s.table = t.table := by
    apply Table.ext_find
    intro a
    rcases hs : s.table.find a with - | ⟨⟩
    · rcases ht : t.table.find a with - | ⟨⟩
      · rfl
      · rw [← mem_def, ← h, mem_def, hs] at ht
        cases ht
    · exact ((h a).mp hs).symm
  cases s
  cases t
  cases htable
  rfl

theorem pairwise_toList : s.toList.Pairwise (· < ·) := List.pairwise_map.mpr s.table.sorted

theorem toList_injective : Function.Injective (toList : FlatSet κ → List κ) := by
  intro s t h
  ext a
  rw [← mem_toList, h, mem_toList]

@[simp] theorem toList_eq_nil : s.toList = [] ↔ s = empty := toList_injective.eq_iff' rfl

/-! ### Searching in increasing lists -/

/-- What a search for `a` leaves over. -/
theorem mem_dropWhile_lt (hl : l.Pairwise (· < ·)) :
    b ∈ l.dropWhile (· < a) ↔ b ∈ l ∧ a ≤ b := by
  induction l with
  | nil => simp
  | cons x l ih =>
    obtain ⟨hx, hl⟩ := List.pairwise_cons.mp hl
    by_cases hxa : x < a
    · rw [List.dropWhile_cons_of_pos (by simpa using hxa), ih hl, List.mem_cons]
      refine and_congr_left fun hab => ⟨Or.inr, ?_⟩
      rintro (rfl | hb)
      · exact absurd hxa hab.not_gt
      · exact hb
    · rw [List.dropWhile_cons_of_neg (by simpa using hxa), iff_self_and, List.mem_cons]
      rintro (rfl | hb)
      · exact not_lt.mp hxa
      · exact (not_lt.mp hxa).trans (hx b hb).le

/-- The search finds what is in the list. -/
theorem mem_iff_dropWhile_lt (hl : l.Pairwise (· < ·)) :
    a ∈ l ↔ (l.dropWhile (· < a)).head? = some a := by
  refine ⟨fun ha => ?_, fun h => (mem_dropWhile_lt hl).mp (List.mem_of_head? h) |>.1⟩
  have hmem := (mem_dropWhile_lt hl).mpr ⟨ha, le_rfl⟩
  have hsorted := hl.sublist (List.dropWhile_sublist (· < a))
  cases hd : l.dropWhile (· < a) with
  | nil => simp [hd] at hmem
  | cons x rest =>
    have hx := ((mem_dropWhile_lt hl).mp (hd ▸ List.mem_cons_self)).2
    rw [hd] at hmem hsorted
    rcases List.mem_cons.mp hmem with rfl | hrest
    · rfl
    · exact absurd ((List.pairwise_cons.mp hsorted).1 a hrest) hx.not_gt

theorem headD_le (hl : l.Pairwise (· < ·)) (ha : a ∈ l) : l.headD b ≤ a := by
  cases l with
  | nil => simp at ha
  | cons x l =>
    rcases List.mem_cons.mp ha with rfl | ha
    · exact le_rfl
    · exact ((List.pairwise_cons.mp hl).1 a ha).le

theorem le_getLastD (hl : l.Pairwise (· < ·)) (ha : a ∈ l) : a ≤ l.getLastD b := by
  obtain rfl | ⟨l, x, rfl⟩ := List.eq_nil_or_concat' l
  · simp at ha
  · rw [List.getLastD_concat]
    rcases List.mem_append.mp ha with ha | ha
    · exact ((List.pairwise_append.mp hl).2.2 a ha x (by simp)).le
    · exact (List.mem_singleton.mp ha).le

end FlatSet

end Commons
