import BaccChain.Commons.Table
import Mathlib.Data.List.Nodup

/-!
# Tables whose keys are numbers in the order of entry

Values that enter a table one after the other get the numbers from zero on. When the entries of a
table are put into another one in some order, each gets its place in that order as its new number.
-/

namespace Commons

variable {α β : Type*}

namespace Table

/-- The values, numbered from zero. -/
def numbered (l : List α) : Table ℕ α where
  entries := l.zipIdx.map Prod.swap
  sorted := by
    rw [List.pairwise_map]
    refine List.pairwise_iff_getElem.mpr fun i j hi hj hij => ?_
    simpa using hij

theorem mem_entries_numbered {l : List α} {i : ℕ} {a : α} :
    (i, a) ∈ (numbered l).entries ↔ l[i]? = some a := by
  show (i, a) ∈ l.zipIdx.map Prod.swap ↔ _
  rw [List.mem_map]
  constructor
  · rintro ⟨⟨b, j⟩, hmem, heq⟩
    obtain ⟨rfl, rfl⟩ := Prod.mk.inj heq
    exact List.mem_zipIdx_iff_getElem?.mp hmem
  · exact fun h => ⟨(a, i), List.mem_zipIdx_iff_getElem?.mpr h, rfl⟩

theorem find_numbered (l : List α) (i : ℕ) : (numbered l).find i = l[i]? := by
  ext a
  rw [← mem_entries_iff, mem_entries_numbered]

theorem numbered_insert (l : List α) (a : α) :
    (numbered l).insert l.length a = numbered (l ++ [a]) := by
  refine ext_find fun i => ?_
  rw [find_insert, find_numbered, find_numbered]
  by_cases h : l.length = i
  · subst h
    simp
  · rw [if_neg h]
    rcases Nat.lt_or_gt_of_ne h with hlt | hgt
    · rw [List.getElem?_eq_none (by omega), List.getElem?_eq_none (by simp; omega)]
    · rw [List.getElem?_append_left hgt]

end Table

def newNumber (σ : List (ℕ × α)) (i : ℕ) : ℕ := (σ.map Prod.fst).idxOf i

/-- The entries of one table are those of the other with new keys. -/
structure Renumbers (f : ℕ → ℕ) (g : ℕ → α → β) (t : Table ℕ α) (t' : Table ℕ β) : Prop where
  inj : ∀ i j a b, t.find i = some a → t.find j = some b → f i = f j → i = j
  find : ∀ i a, t.find i = some a → t'.find (f i) = some (g i a)
  exists_of_find : ∀ j b, t'.find j = some b → ∃ i a, t.find i = some a ∧ f i = j

variable {σ : List (ℕ × α)} {e : ℕ × α}

theorem newNumber_of_getElem? {n : ℕ} (hσ : (σ.map Prod.fst).Nodup) (he : σ[n]? = some e) :
    newNumber σ e.1 = n := by
  obtain ⟨hn, rfl⟩ := List.getElem?_eq_some_iff.mp he
  have := hσ.idxOf_getElem n (by simpa using hn)
  rwa [List.getElem_map] at this

theorem getElem?_newNumber (hσ : (σ.map Prod.fst).Nodup) (he : e ∈ σ) :
    σ[newNumber σ e.1]? = some e := by
  obtain ⟨n, hn⟩ := List.getElem?_of_mem he
  rw [newNumber_of_getElem? hσ hn, hn]

variable {before after : List (ℕ × α)}

theorem newNumber_split (h : ((before ++ e :: after).map Prod.fst).Nodup) :
    newNumber (before ++ e :: after) e.1 = before.length := by
  rw [List.map_append, List.map_cons] at h
  have hnot : e.1 ∉ before.map Prod.fst := fun hmem =>
    (List.nodup_append.mp h).2.2 _ hmem _ List.mem_cons_self rfl
  rw [newNumber, List.map_append, List.map_cons, List.idxOf_append_of_notMem hnot,
    List.idxOf_cons_self, add_zero, List.length_map]

theorem getElem?_newNumber_append (h : ((before ++ after).map Prod.fst).Nodup) (he : e ∈ before) :
    before[newNumber (before ++ after) e.1]? = some e := by
  have hmem : e.1 ∈ before.map Prod.fst := List.mem_map_of_mem he
  rw [List.map_append] at h
  rw [newNumber, List.map_append, List.idxOf_append_of_mem hmem]
  exact getElem?_newNumber (List.nodup_append.mp h).1 he

theorem renumbers_numbered {t : Table ℕ α} (hσ : σ.Perm t.entries) (g : ℕ → α → β) :
    Renumbers (newNumber σ) g t (Table.numbered (σ.map fun e => g e.1 e.2)) := by
  have hnodup : (σ.map Prod.fst).Nodup := (hσ.map _).nodup_iff.mpr t.nodup_keys
  have hmem : ∀ i a, t.find i = some a ↔ (i, a) ∈ σ := fun i a =>
    Table.mem_entries_iff.symm.trans hσ.mem_iff.symm
  refine ⟨fun i j a b hi hj heq => ?_, fun i a hi => ?_, fun j b hj => ?_⟩
  · have h₁ := getElem?_newNumber hnodup ((hmem i a).mp hi)
    have h₂ := getElem?_newNumber hnodup ((hmem j b).mp hj)
    rw [show newNumber σ (i, a).1 = newNumber σ (j, b).1 from heq, h₂] at h₁
    exact (congrArg Prod.fst (Option.some.inj h₁)).symm
  · rw [Table.find_numbered, List.getElem?_map, getElem?_newNumber hnodup ((hmem i a).mp hi)]
    rfl
  · rw [Table.find_numbered, List.getElem?_map] at hj
    obtain ⟨⟨i, a⟩, he, -⟩ := Option.map_eq_some_iff.mp hj
    have hin : (i, a) ∈ σ := List.mem_of_getElem? he
    refine ⟨i, a, (hmem i a).mpr hin, ?_⟩
    obtain ⟨hlt, hget⟩ := List.getElem?_eq_some_iff.mp he
    have := hnodup.idxOf_getElem j (by simpa using hlt)
    rwa [List.getElem_map, hget] at this

end Commons
