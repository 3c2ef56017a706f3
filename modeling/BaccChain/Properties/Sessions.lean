import BaccChain.Properties.Undo

/-!
# Nested sessions

The open sessions of an index form a stack, and a session can be undone, merged into the one before,
or given up together with all older ones.

## Main definitions

* `Nested`: a stack of sessions

## Main results

* `nested_sessions`: undo goes back to where a session was started
-/

namespace BaccChain

open Commons

variable {α : Type}

/-! ## Merged records

Each pass of a merge runs over the entries of a table. What it leaves at an id depends on the entry
at that id only. -/

namespace UndoState

theorem foldl_mergeOld (l : List (Nat × α)) (u : UndoState α) :
    ∃ oldValues, l.foldl mergeOld u = { u with oldValues } ∧ ∀ i, oldValues.find i =
      (u.oldValues.find i).or (if i ∈ u.newIds then none else Table.findEntry i l) := by
  induction l generalizing u with
  | nil => exact ⟨u.oldValues, rfl, fun i => by simp [Table.findEntry]⟩
  | cons e l ih =>
    rw [List.foldl_cons]
    by_cases hnew : e.1 ∈ u.newIds
    · obtain ⟨old, hfold, hfind⟩ := ih u
      rw [show u.mergeOld e = u from if_pos hnew]
      refine ⟨old, hfold, fun i => ?_⟩
      rw [hfind, Table.findEntry]
      by_cases hi : e.1 = i
      · rw [if_pos (hi ▸ hnew), if_pos (hi ▸ hnew)]
      · rw [if_neg hi]
    · by_cases hold : (u.oldValues.find e.1).isSome
      · obtain ⟨old, hfold, hfind⟩ := ih u
        rw [show u.mergeOld e = u by rw [mergeOld, if_neg hnew, if_pos hold]]
        refine ⟨old, hfold, fun i => ?_⟩
        rw [hfind, Table.findEntry]
        by_cases hi : e.1 = i
        · obtain ⟨w, hw⟩ := Option.isSome_iff_exists.mp hold
          rw [← hi, hw, Option.some_or, Option.some_or]
        · rw [if_neg hi]
      · have hnone := Option.not_isSome_iff_eq_none.mp hold
        rw [show u.mergeOld e = { u with oldValues := emplaceEntry u.oldValues e.1 e.2 } by
          rw [mergeOld, if_neg hnew, if_neg hold]]
        obtain ⟨old, hfold, hfind⟩ := ih { u with oldValues := emplaceEntry u.oldValues e.1 e.2 }
        refine ⟨old, hfold, fun i => ?_⟩
        rw [hfind, find_emplaceEntry _ hnone, Table.findEntry]
        by_cases hi : e.1 = i
        · subst hi
          rw [if_pos rfl, if_pos rfl, hnone, Option.some_or, Option.none_or, if_neg hnew]
        · rw [if_neg hi, if_neg hi]

theorem mergeRemoved_spec (u : UndoState α) (e : Nat × α) :
    ∃ newIds oldValues removedValues,
      u.mergeRemoved e = { u with newIds, oldValues, removedValues } ∧
      (∀ i, i ∈ newIds ↔ i ∈ u.newIds ∧ e.1 ≠ i) ∧
      (∀ i, oldValues.find i =
        if e.1 = i ∧ i ∉ u.newIds then none else u.oldValues.find i) ∧
      ∀ i, removedValues.find i = (u.removedValues.find i).or
        (if e.1 = i ∧ i ∉ u.newIds then some ((u.oldValues.find i).getD e.2) else none) := by
  have hemplace (w : α) (i : Nat) : (emplaceEntry u.removedValues e.1 w).find i =
      (u.removedValues.find i).or (if e.1 = i then some w else none) := by
    unfold emplaceEntry
    split_ifs with hsome hi hi
    · obtain ⟨v, hv⟩ := Option.isSome_iff_exists.mp hsome
      rw [← hi, hv, Option.some_or]
    · rw [Option.or_none]
    · rw [Table.find_insert, if_pos hi, ← hi, Option.not_isSome_iff_eq_none.mp hsome,
        Option.none_or]
    · rw [Table.find_insert, if_neg hi, Option.or_none]
  by_cases hnew : e.1 ∈ u.newIds
  · refine ⟨u.newIds.erase e.1, u.oldValues, u.removedValues, if_pos hnew, fun i => ?_, fun i => ?_,
      fun i => ?_⟩
    · rw [FlatSet.mem_erase, and_comm, ne_comm]
    · rw [if_neg]
      rintro ⟨rfl, hi⟩
      exact hi hnew
    · rw [if_neg, Option.or_none]
      rintro ⟨rfl, hi⟩
      exact hi hnew
  · have hmem (i : Nat) : i ∈ u.newIds ↔ i ∈ u.newIds ∧ e.1 ≠ i := by
      refine ⟨fun hi => ⟨hi, ?_⟩, fun hi => hi.1⟩
      rintro rfl
      exact hnew hi
    have hcond (i : Nat) : e.1 = i ∧ i ∉ u.newIds ↔ e.1 = i := by
      refine ⟨fun h => h.1, fun h => ⟨h, ?_⟩⟩
      rw [← h]
      exact hnew
    unfold mergeRemoved
    rw [if_neg hnew]
    simp only [hcond]
    cases hold : u.oldValues.find e.1 with
    | some =>
      refine ⟨_, _, _, rfl, hmem, Table.find_erase _ _, fun i => ?_⟩
      rw [hemplace]
      by_cases hi : e.1 = i
      · rw [if_pos hi, if_pos hi, ← hi, hold, Option.getD_some]
      · rw [if_neg hi, if_neg hi]
    | none =>
      refine ⟨_, _, _, rfl, hmem, fun i => ?_, fun i => ?_⟩
      · split_ifs with hi
        · rw [← hi, hold]
        · rfl
      · rw [hemplace]
        by_cases hi : e.1 = i
        · rw [if_pos hi, if_pos hi, ← hi, hold, Option.getD_none]
        · rw [if_neg hi, if_neg hi]

theorem foldl_mergeRemoved {l : List (Nat × α)} (hl : l.Pairwise fun e e' => e.1 < e'.1)
    (u : UndoState α) :
    ∃ newIds oldValues removedValues,
      l.foldl mergeRemoved u = { u with newIds, oldValues, removedValues } ∧
      (∀ i, i ∈ newIds ↔ i ∈ u.newIds ∧ Table.findEntry i l = none) ∧
      (∀ i, oldValues.find i = if i ∉ u.newIds ∧ Table.findEntry i l ≠ none then none
        else u.oldValues.find i) ∧
      ∀ i, removedValues.find i = (u.removedValues.find i).or (if i ∈ u.newIds then none
        else (Table.findEntry i l).map fun v => (u.oldValues.find i).getD v) := by
  induction l generalizing u with
  | nil => exact ⟨u.newIds, u.oldValues, u.removedValues, rfl, by simp [Table.findEntry]⟩
  | cons e l ih =>
    obtain ⟨he, hl⟩ := List.pairwise_cons.mp hl
    have hlater : Table.findEntry e.1 l = none :=
      Table.findEntry_eq_none fun e' he' => (he e' he').ne'
    obtain ⟨new₁, old₁, rem₁, hstep, hnew₁, hold₁, hrem₁⟩ := mergeRemoved_spec u e
    obtain ⟨new, old, rem, hfold, hnew, hold, hrem⟩ :=
      ih hl { u with newIds := new₁, oldValues := old₁, removedValues := rem₁ }
    dsimp only at hnew hold hrem
    rw [List.foldl_cons, hstep]
    refine ⟨new, old, rem, hfold, fun i => ?_, fun i => ?_, fun i => ?_⟩
    · rw [hnew, hnew₁, Table.findEntry]
      by_cases hi : e.1 = i
      · simp [hi]
      · simp [hi]
    · simp only [hold, hold₁, hnew₁, Table.findEntry]
      by_cases hi : e.1 = i
      · rw [hi] at hlater
        by_cases hin : i ∈ u.newIds
        · simp [hi, hin, hlater]
        · simp [hi, hin]
      · simp [hi]
    · simp only [hrem, hrem₁, hnew₁, hold₁, Table.findEntry]
      by_cases hi : e.1 = i
      · rw [hi] at hlater
        by_cases hin : i ∈ u.newIds
        · simp [hi, hin, hlater]
        · simp [hi, hin, hlater]
      · simp [hi]

theorem merge_spec (u v : UndoState α) :
    (u.merge v).oldNextId = u.oldNextId ∧ (u.merge v).revision = u.revision ∧
    (∀ i, i ∈ (u.merge v).newIds ↔
      (i ∈ v.newIds ∨ i ∈ u.newIds) ∧ v.removedValues.find i = none) ∧
    (∀ i, (u.merge v).oldValues.find i =
      if ¬ (i ∈ v.newIds ∨ i ∈ u.newIds) ∧ v.removedValues.find i ≠ none then none
      else (u.oldValues.find i).or (if i ∈ u.newIds then none else v.oldValues.find i)) ∧
    ∀ i, (u.merge v).removedValues.find i = (u.removedValues.find i).or
      (if i ∈ v.newIds ∨ i ∈ u.newIds then none else (v.removedValues.find i).map fun a =>
        ((u.oldValues.find i).or (if i ∈ u.newIds then none else v.oldValues.find i)).getD a) := by
  obtain ⟨old₁, hfirst, hold₁⟩ := foldl_mergeOld v.oldValues.entries u
  obtain ⟨new, old, rem, hlast, hnew, hold, hrem⟩ := foldl_mergeRemoved v.removedValues.sorted
    { u with oldValues := old₁, newIds := u.newIds.insertAll v.newIds.toList }
  dsimp only at hnew hold hrem
  simp only [FlatSet.mem_insertAll, FlatSet.mem_toList, hold₁] at hnew hold hrem
  have hmerge : u.merge v = { u with newIds := new, oldValues := old, removedValues := rem } := by
    unfold merge
    rw [hfirst]
    exact hlast
  rw [hmerge]
  exact ⟨rfl, rfl, hnew, hold, hrem⟩

end UndoState

namespace GenericIndex

variable {κ : Type} {keys : List (α → κ)} {idx idx₀ idx₁ : GenericIndex α} {u v : UndoState α}

/-! ## Two sessions

The session with the record `v` was started in the session with the record `u`.
-/

namespace Recorded

variable {i : Nat} {a : α}

theorem not_new_of_before (h₀ : Recorded keys idx₀ idx₁ u) (h₁ : Recorded keys idx₁ idx v)
    (ha : idx₀.objects.find i = some a) : ¬ (i ∈ v.newIds ∨ i ∈ u.newIds) := by
  have hlt := h₀.valid₀.lt i a ha
  rintro (hi | hi)
  · exact absurd ((h₁.new i).mp hi).1 (Nat.not_le_of_lt (hlt.trans_le h₀.le))
  · exact absurd ((h₀.new i).mp hi).1 (Nat.not_le_of_lt hlt)

theorem old_eq_none_of_removed (h₁ : Recorded keys idx₁ idx v)
    (hi : v.removedValues.find i ≠ none) : v.oldValues.find i = none := by
  obtain ⟨a, ha⟩ := Option.ne_none_iff_exists'.mp hi
  by_contra hne
  obtain ⟨w, hw⟩ := Option.ne_none_iff_exists'.mp hne
  have hsome := (h₁.old i w hw).2
  rw [(h₁.removed i a ha).2] at hsome
  cases hsome

theorem isSome_of_not_removed (h₁ : Recorded keys idx₁ idx v) (hi : (idx₁.objects.find i).isSome)
    (hr : v.removedValues.find i = none) : (idx.objects.find i).isSome := by
  obtain ⟨a, ha⟩ := Option.isSome_iff_exists.mp hi
  cases hv : v.oldValues.find i with
  | some w => exact (h₁.old i w hv).2
  | none =>
    rw [h₁.kept i a ha hv hr]
    rfl

theorem find_before (h₀ : Recorded keys idx₀ idx₁ u) (ha : idx₁.objects.find i = some a)
    (hi : i ∉ u.newIds) (hnone : u.oldValues.find i = none) : idx₀.objects.find i = some a := by
  rcases h₀.of_find ha with ⟨hin, -⟩ | ⟨-, -, ⟨w, hw, -⟩ | ⟨-, hfind⟩⟩
  · exact absurd hin hi
  · rw [hnone] at hw
    cases hw
  · exact hfind

theorem merge_new (h₀ : Recorded keys idx₀ idx₁ u) (h₁ : Recorded keys idx₁ idx v) (i : Nat) :
    i ∈ (u.merge v).newIds ↔ idx₀.nextId ≤ i ∧ (idx.objects.find i).isSome := by
  obtain ⟨-, -, hnew, -, -⟩ := UndoState.merge_spec u v
  rw [hnew]
  constructor
  · rintro ⟨hi | hi, hr⟩
    · exact ⟨h₀.le.trans ((h₁.new i).mp hi).1, ((h₁.new i).mp hi).2⟩
    · exact ⟨((h₀.new i).mp hi).1, h₁.isSome_of_not_removed ((h₀.new i).mp hi).2 hr⟩
  · rintro ⟨hle, hi⟩
    refine ⟨?_, ?_⟩
    · rcases Nat.lt_or_ge i idx₁.nextId with hlt | hge
      · exact .inr ((h₀.new i).mpr ⟨hle, h₁.origin i hi hlt⟩)
      · exact .inl ((h₁.new i).mpr ⟨hge, hi⟩)
    · by_contra hne
      obtain ⟨a, ha⟩ := Option.ne_none_iff_exists'.mp hne
      rw [(h₁.removed i a ha).2] at hi
      cases hi

theorem merge_old (h₀ : Recorded keys idx₀ idx₁ u) (h₁ : Recorded keys idx₁ idx v)
    (ha : (u.merge v).oldValues.find i = some a) :
    idx₀.objects.find i = some a ∧ (idx.objects.find i).isSome := by
  obtain ⟨-, -, -, hold, -⟩ := UndoState.merge_spec u v
  rw [hold] at ha
  split_ifs at ha with hgone hin
  · rw [Option.or_none] at ha
    exact absurd (Or.inr hin) (h₀.not_new_of_before h₁ (h₀.old i a ha).1)
  · cases hu : u.oldValues.find i with
    | some w =>
      rw [hu, Option.some_or] at ha
      obtain ⟨hfind, hsome⟩ := h₀.old i w hu
      refine ⟨ha ▸ hfind, h₁.isSome_of_not_removed hsome ?_⟩
      by_contra hne
      exact hgone ⟨h₀.not_new_of_before h₁ hfind, hne⟩
    | none =>
      rw [hu, Option.none_or] at ha
      exact ⟨h₀.find_before (h₁.old i a ha).1 hin hu, (h₁.old i a ha).2⟩

theorem merge_removed (h₀ : Recorded keys idx₀ idx₁ u) (h₁ : Recorded keys idx₁ idx v)
    (ha : (u.merge v).removedValues.find i = some a) :
    idx₀.objects.find i = some a ∧ idx.objects.find i = none := by
  obtain ⟨-, -, -, -, hrem⟩ := UndoState.merge_spec u v
  rw [hrem] at ha
  cases hu : u.removedValues.find i with
  | some w =>
    rw [hu, Option.some_or] at ha
    obtain ⟨hfind, hnone⟩ := h₀.removed i w hu
    refine ⟨ha ▸ hfind, ?_⟩
    by_contra hne
    have hlt := (h₀.valid₀.lt i w hfind).trans_le h₀.le
    have hsome := h₁.origin i (Option.isSome_iff_ne_none.mpr hne) hlt
    rw [hnone] at hsome
    cases hsome
  | none =>
    rw [hu, Option.none_or] at ha
    have hin : ¬ (i ∈ v.newIds ∨ i ∈ u.newIds) := by
      intro hin
      rw [if_pos hin] at ha
      cases ha
    rw [if_neg hin] at ha
    obtain ⟨b, hb, hval⟩ := Option.map_eq_some_iff.mp ha
    have hnoOld := h₁.old_eq_none_of_removed (by rw [hb]; exact Option.some_ne_none b)
    obtain ⟨hfind, hnone⟩ := h₁.removed i b hb
    refine ⟨?_, hnone⟩
    rw [if_neg fun hi => hin (.inr hi), hnoOld, Option.or_none] at hval
    cases hold' : u.oldValues.find i with
    | some w =>
      rw [hold', Option.getD_some] at hval
      exact hval ▸ (h₀.old i w hold').1
    | none =>
      rw [hold', Option.getD_none] at hval
      exact hval ▸ h₀.find_before hfind (fun hi => hin (.inr hi)) hold'

theorem merge_kept (h₀ : Recorded keys idx₀ idx₁ u) (h₁ : Recorded keys idx₁ idx v)
    (ha : idx₀.objects.find i = some a) (hnoOld : (u.merge v).oldValues.find i = none)
    (hnoRem : (u.merge v).removedValues.find i = none) : idx.objects.find i = some a := by
  obtain ⟨-, -, -, hold, hrem⟩ := UndoState.merge_spec u v
  have hin := h₀.not_new_of_before h₁ ha
  rw [hrem, if_neg hin, Option.or_eq_none_iff, Option.map_eq_none_iff] at hnoRem
  rw [hold, if_neg fun h => h.2 hnoRem.2, if_neg fun hi => hin (.inr hi),
    Option.or_eq_none_iff] at hnoOld
  exact h₁.kept i a (h₀.kept i a ha hnoOld.1 hnoRem.1) hnoOld.2 hnoRem.2

theorem merge (h₀ : Recorded keys idx₀ idx₁ u) (h₁ : Recorded keys idx₁ idx v) :
    Recorded keys idx₀
      { idx with stack := u.merge v :: idx₀.stack, revision := idx.revision - 1 }
      (u.merge v) where
  stack := rfl
  revision := by
    show idx.revision - 1 = idx₀.revision + 1
    rw [h₁.revision, h₀.revision, Int.add_sub_cancel]
  oldNextId := (UndoState.merge_spec u v).1.trans h₀.oldNextId
  le := h₀.le.trans h₁.le
  valid₀ := h₀.valid₀
  valid := ⟨h₁.valid.lt, h₁.valid.unique⟩
  new i := (h₀.merge_new h₁ i :)
  old _ _ ha := (h₀.merge_old h₁ ha :)
  removed _ _ ha := (h₀.merge_removed h₁ ha :)
  kept _ _ ha hold hrem := (h₀.merge_kept h₁ ha hold hrem :)
  origin i hi hlt := h₀.origin i (h₁.origin i hi (hlt.trans_le h₀.le)) hlt

end Recorded

/-! ## Runs -/

/-- What can be done to an index and its sessions. -/
inductive SessionOperation (α : Type)
  | startUndoSession
  | operation (op : Operation α)
  | squash
  | undo
  | undoAll
  | commit (revision : Int)

def SessionOperation.exec [DecidableEq κ] (keys : List (α → κ)) :
    SessionOperation α → Attempt (GenericIndex α) Unit
  | startUndoSession => Attempt.update GenericIndex.startUndoSession
  | operation op => op.exec keys
  | squash => Attempt.update GenericIndex.squash
  | undo => GenericIndex.undo keys
  | undoAll => GenericIndex.undoAll keys
  | commit revision => Attempt.update (GenericIndex.commit revision)

/-- An index, and what it was when its sessions were started. -/
structure History (α : Type) where
  index : GenericIndex α
  /-- For a revision, the objects and the next id when a session with that revision was started
  last. -/
  started : Int → Option (Table Nat α × Nat) := fun _ => none

namespace History

variable [DecidableEq κ]

def step (keys : List (α → κ)) (h : History α) (op : SessionOperation α) : History α where
  index := (op.exec keys h.index).2
  started := match op with
    | .startUndoSession =>
      Function.update h.started (h.index.revision + 1) (some (h.index.objects, h.index.nextId))
    | _ => h.started

def run (keys : List (α → κ)) (h : History α) (ops : List (SessionOperation α)) : History α :=
  ops.foldl (step keys) h

end History

def undoTimes [DecidableEq κ] (keys : List (α → κ)) : Nat → Attempt (GenericIndex α) Unit
  | 0 => pure ()
  | n + 1 => do
    undo keys
    undoTimes keys n

/-! ## The invariant -/

/-- Each open session was started on an index, which in turn has the sessions that were open
then. -/
inductive Nested (keys : List (α → κ)) (started : Int → Option (Table Nat α × Nat)) :
    GenericIndex α → Prop
  | base {idx : GenericIndex α} (valid : Valid keys idx) (stack : idx.stack = []) :
    Nested keys started idx
  | session {idx₀ idx : GenericIndex α} {u : UndoState α} (recorded : Recorded keys idx₀ idx u)
    (revision : u.revision = idx.revision)
    (atStart : started idx.revision = some (idx₀.objects, idx₀.nextId))
    (below : Nested keys started idx₀) : Nested keys started idx

namespace Nested

variable {started started' : Int → Option (Table Nat α × Nat)}

theorem valid (h : Nested keys started idx) : Valid keys idx := by
  cases h with
  | base valid => exact valid
  | session recorded => exact recorded.valid

theorem congr (h : Nested keys started idx)
    (hstarted : ∀ r ≤ idx.revision, started' r = started r) : Nested keys started' idx := by
  induction h with
  | base valid stack => exact base valid stack
  | session recorded revision atStart _ ih =>
    refine session recorded revision ((hstarted _ le_rfl).trans atStart) (ih fun r hr => ?_)
    refine hstarted r (hr.trans ?_)
    rw [recorded.revision]
    exact Int.le_add_one le_rfl

theorem truncate (h : Nested keys started idx) {l l' : List (UndoState α)}
    (hstack : idx.stack = l ++ l') : Nested keys started { idx with stack := l } := by
  induction h generalizing l with
  | base valid stack =>
    rw [stack] at hstack
    obtain ⟨rfl, -⟩ := List.append_eq_nil_iff.mp hstack.symm
    exact base ⟨valid.lt, valid.unique⟩ rfl
  | @session idx₀ idx u recorded revision atStart below ih =>
    cases l with
    | nil => exact base ⟨recorded.valid.lt, recorded.valid.unique⟩ rfl
    | cons u' l =>
      rw [recorded.stack, List.cons_append, List.cons.injEq] at hstack
      obtain ⟨rfl, hstack⟩ := hstack
      have hrecorded : Recorded keys { idx₀ with stack := l } { idx with stack := u :: l } u :=
        { recorded with
          stack := rfl
          valid₀ := ⟨recorded.valid₀.lt, recorded.valid₀.unique⟩
          valid := ⟨recorded.valid.lt, recorded.valid.unique⟩ }
      exact session hrecorded revision atStart (ih hstack)

theorem startUndoSession (h : Nested keys started idx) :
    Nested keys
      (Function.update started (idx.revision + 1) (some (idx.objects, idx.nextId)))
      idx.startUndoSession := by
  refine session (Recorded.start h.valid) rfl (Function.update_self _ _ _) (h.congr fun r hr => ?_)
  exact Function.update_of_ne (Int.lt_add_one_of_le hr).ne _ _

theorem commit (h : Nested keys started idx) (r : Int) : Nested keys started (idx.commit r) := by
  obtain ⟨l', hl'⟩ := List.rdropWhile_prefix (fun u : UndoState α => decide (u.revision ≤ r))
    idx.stack
  exact h.truncate hl'.symm

theorem squash (h : Nested keys started idx) : Nested keys started idx.squash := by
  cases h with
  | base valid stack =>
    rw [show idx.squash = idx by rw [GenericIndex.squash, stack]]
    exact base valid stack
  | @session idx₀ _ u recorded revision atStart below =>
    cases below with
    | base valid stack =>
      have hstack : idx.stack = [u] := by rw [recorded.stack, stack]
      rw [show idx.squash = { idx with stack := [], revision := idx.revision - 1 } by
        rw [GenericIndex.squash, hstack]]
      exact base ⟨recorded.valid.lt, recorded.valid.unique⟩ rfl
    | @session idx₁ _ v recorded₁ revision₁ atStart₁ below₁ =>
      have hstack : idx.stack = u :: v :: idx₁.stack := by rw [recorded.stack, recorded₁.stack]
      rw [show idx.squash = { idx with
          stack := v.merge u :: idx₁.stack, revision := idx.revision - 1 } by
        rw [GenericIndex.squash, hstack]]
      have hrevision : idx.revision - 1 = idx₀.revision := by
        rw [recorded.revision, Int.add_sub_cancel]
      refine session (recorded₁.merge recorded) ?_ ?_ below₁
      · exact (UndoState.merge_spec v u).2.1.trans (revision₁.trans hrevision.symm)
      · show started (idx.revision - 1) = _
        rw [hrevision]
        exact atStart₁

end Nested

/-! ## An index whose only key is the id -/

def onlyId : List (α → Empty) := []

theorem not_clash_onlyId (a b : α) : ¬ Clash onlyId a b := fun ⟨_, hkey, _⟩ => by cases hkey

theorem fits_onlyId (objects : Table Nat α) (id : Nat) (a : α) : Fits onlyId objects id a :=
  fun _ _ _ => not_clash_onlyId _ _

theorem Recorded.undo_onlyId (h : Recorded onlyId idx₀ idx u) : undo onlyId idx = (.ok (), idx₀) :=
  h.undo_eq_ok.mpr ⟨fun _ _ _ _ _ _ _ _ => not_clash_onlyId _ _, rfl⟩

theorem exec_onlyId (op : Operation α) (idx : GenericIndex α) :
    (∃ idx', op.exec onlyId idx = (.ok (), idx')) ∨ ∃ e, op.exec onlyId idx = (.error e, idx) := by
  cases op with
  | emplace a =>
    by_cases hfree : idx.objects.find idx.nextId = none
    · exact .inl ⟨_, emplace_eq_ok.mpr ⟨hfree, fits_onlyId _ _ _, rfl⟩⟩
    · refine .inr ⟨uniquenessViolated, ?_⟩
      have hplace : place onlyId idx.nextId a uniquenessViolated idx =
          (.error uniquenessViolated, idx) := by
        rw [place, Attempt.read_bind, Attempt.ite_run, if_neg fun h => hfree h.1]
        rfl
      rw [Operation.exec, emplace, Attempt.read_bind]
      exact Attempt.bind_of_error hplace
  | modify id =>
    cases hfind : idx.objects.find id with
    | some v => exact .inl ⟨_, modify_eq_ok.mpr ⟨v, hfind, fits_onlyId _ _ _, rfl⟩⟩
    | none =>
      refine .inr ⟨"key not found", ?_⟩
      rw [Operation.exec, modify, Attempt.read_bind, hfind]
      rfl
  | remove id =>
    cases hfind : idx.objects.find id with
    | some v => exact .inl ⟨_, remove_eq_ok.mpr ⟨v, hfind, rfl⟩⟩
    | none =>
      refine .inr ⟨"key not found", ?_⟩
      rw [Operation.exec, remove, Attempt.read_bind, hfind]
      rfl

variable {idx' : GenericIndex α} {op : Operation α}

theorem Valid.exec (h : Valid onlyId idx) (hstack : idx.stack = [])
    (hop : op.exec onlyId idx = (.ok (), idx')) : Valid onlyId idx' ∧ idx'.stack = [] := by
  cases op with
  | emplace =>
    obtain ⟨-, hfits, rfl⟩ := emplace_eq_ok.mp hop
    exact ⟨h.insert hfits (Nat.lt_succ_self _) (Nat.le_succ _) _ _, by rw [hstack]; rfl⟩
  | modify id =>
    obtain ⟨v, hv, hfits, rfl⟩ := modify_eq_ok.mp hop
    exact ⟨h.insert hfits (h.lt id v hv) le_rfl _ _, by rw [hstack]; rfl⟩
  | remove id =>
    obtain ⟨v, hv, rfl⟩ := remove_eq_ok.mp hop
    exact ⟨h.erase id _ _, by rw [hstack]; rfl⟩

theorem map_revision_note {f : UndoState α → UndoState α} (hf : ∀ u, (f u).revision = u.revision)
    (stack : List (UndoState α)) : (note f stack).map (·.revision) = stack.map (·.revision) := by
  cases stack with
  | nil => rfl
  | cons => rw [note, List.map_cons, List.map_cons, hf]

theorem exec_revision [DecidableEq κ] (hop : op.exec keys idx = (.ok (), idx')) :
    idx'.revision = idx.revision ∧
      idx'.stack.map (·.revision) = idx.stack.map (·.revision) := by
  cases op with
  | emplace =>
    obtain ⟨-, -, rfl⟩ := emplace_eq_ok.mp hop
    refine ⟨rfl, map_revision_note (fun u => ?_) _⟩
    rfl
  | modify =>
    obtain ⟨v, -, -, rfl⟩ := modify_eq_ok.mp hop
    refine ⟨rfl, map_revision_note (fun u => ?_) _⟩
    unfold UndoState.onModify
    split_ifs <;> rfl
  | remove id =>
    obtain ⟨v, -, rfl⟩ := remove_eq_ok.mp hop
    refine ⟨rfl, map_revision_note (fun u => ?_) _⟩
    unfold UndoState.onRemove
    split_ifs
    · rfl
    all_goals
      cases u.oldValues.find id with
      | some => rfl
      | none => rfl

namespace Nested

variable {started : Int → Option (Table Nat α × Nat)}

theorem operation (h : Nested onlyId started idx) (op : Operation α) :
    Nested onlyId started (op.exec onlyId idx).2 := by
  rcases exec_onlyId op idx with ⟨idx', hok⟩ | ⟨e, herror⟩
  · rw [hok]
    cases h with
    | base valid stack =>
      obtain ⟨hvalid, hstack⟩ := valid.exec stack hok
      exact base hvalid hstack
    | session recorded revision atStart below =>
      obtain ⟨u', hrecorded⟩ := recorded.step op hok
      obtain ⟨hrevision, hrevisions⟩ := exec_revision hok
      rw [hrecorded.stack, recorded.stack, List.map_cons, List.map_cons, List.cons.injEq]
        at hrevisions
      refine session hrecorded ?_ ?_ below
      · rw [hrevisions.1, revision, hrevision]
      · rw [hrevision]
        exact atStart
  · rw [herror]
    exact h

theorem undo (h : Nested onlyId started idx) :
    ∃ idx', GenericIndex.undo onlyId idx = (.ok (), idx') ∧ Nested onlyId started idx' := by
  cases h with
  | base valid stack =>
    refine ⟨idx, ?_, base valid stack⟩
    rw [GenericIndex.undo, Attempt.read_bind, stack]
    rfl
  | session recorded revision atStart below => exact ⟨_, recorded.undo_onlyId, below⟩

theorem undoAll (h : Nested onlyId started idx) :
    Nested onlyId started (GenericIndex.undoAll onlyId idx).2 := by
  show Nested onlyId started (Attempt.each (fun _ => GenericIndex.undo onlyId) idx.stack idx).2
  generalize idx.stack = l
  induction l generalizing idx with
  | nil => exact h
  | cons u l ih =>
    obtain ⟨idx', hundo, h'⟩ := h.undo
    rw [Attempt.each, Attempt.bind_of_ok hundo]
    exact ih h'

variable {h : History α}

theorem step (hnested : Nested onlyId h.started h.index) (op : SessionOperation α) :
    Nested onlyId (h.step onlyId op).started (h.step onlyId op).index := by
  cases op with
  | startUndoSession => exact hnested.startUndoSession
  | operation op => exact hnested.operation op
  | squash => exact hnested.squash
  | undo =>
    obtain ⟨idx', hundo, hnested'⟩ := hnested.undo
    show Nested onlyId h.started (GenericIndex.undo onlyId h.index).2
    rw [hundo]
    exact hnested'
  | undoAll => exact hnested.undoAll
  | commit revision => exact hnested.commit revision

theorem run (hnested : Nested onlyId h.started h.index) (ops : List (SessionOperation α)) :
    Nested onlyId (h.run onlyId ops).started (h.run onlyId ops).index := by
  induction ops generalizing h with
  | nil => exact hnested
  | cons op ops ih => exact ih (hnested.step op)

theorem undo_squash (h : Nested onlyId started idx) (hlength : 2 ≤ idx.stack.length) :
    ∃ idx', GenericIndex.undo onlyId idx.squash = (.ok (), idx') ∧
      undoTimes onlyId 2 idx = (.ok (), idx') := by
  cases h with
  | base valid stack =>
    rw [stack] at hlength
    cases hlength
  | @session idx₀ _ u recorded revision atStart below =>
    cases below with
    | base valid stack =>
      rw [recorded.stack, stack] at hlength
      exact absurd hlength (Nat.not_succ_le_self 1)
    | @session idx₁ _ v recorded₁ _ _ _ =>
      refine ⟨idx₁, ?_, ?_⟩
      · have hstack : idx.stack = u :: v :: idx₁.stack := by rw [recorded.stack, recorded₁.stack]
        rw [GenericIndex.squash, hstack]
        exact (recorded₁.merge recorded).undo_onlyId
      · rw [undoTimes, Attempt.bind_of_ok recorded.undo_onlyId, undoTimes,
          Attempt.bind_of_ok recorded₁.undo_onlyId]
        rfl

theorem undoTimes_restores (h : Nested onlyId started idx) {k : Nat} (hk : idx.stack[k]? = some u) :
    ∃ objects nextId idx', started u.revision = some (objects, nextId) ∧
      undoTimes onlyId (k + 1) idx = (.ok (), idx') ∧ idx'.objects = objects ∧
      idx'.nextId = nextId ∧ idx'.revision = u.revision - 1 := by
  induction k generalizing idx with
  | zero =>
    cases h with
    | base valid stack =>
      rw [stack] at hk
      cases hk
    | @session idx₀ _ u' recorded revision atStart _ =>
      rw [recorded.stack] at hk
      obtain rfl : u' = u := Option.some.inj hk
      refine ⟨idx₀.objects, idx₀.nextId, idx₀, revision ▸ atStart, ?_, rfl, rfl, ?_⟩
      · rw [undoTimes, Attempt.bind_of_ok recorded.undo_onlyId]
        rfl
      · rw [revision, recorded.revision, Int.add_sub_cancel]
  | succ k ih =>
    cases h with
    | base valid stack =>
      rw [stack] at hk
      cases hk
    | session recorded _ _ below =>
      rw [recorded.stack] at hk
      obtain ⟨objects, nextId, idx', hstarted, hundo, hrest⟩ := ih below hk
      refine ⟨objects, nextId, idx', hstarted, ?_, hrest⟩
      rw [undoTimes, Attempt.bind_of_ok recorded.undo_onlyId]
      exact hundo

end Nested

theorem valid_empty : Valid onlyId ({} : GenericIndex α) where
  lt i a ha := by cases ha
  unique i j a b ha := by cases ha

def threeSessions : List (SessionOperation Nat) :=
  [.startUndoSession, .operation (.emplace 7), .startUndoSession,
    .operation (.modify 0 fun _ => 8), .operation (.emplace 9), .squash, .startUndoSession,
    .operation (.remove 0)]

/-- **Nested sessions.** Whatever is done on an index whose only key is the id: merging sessions and
giving up old ones does not change the objects; merging two sessions and undoing the result gives
what two undos give; and undoing up to and including any open session gives back the objects and the
next id that the index had when the session was started. -/
theorem nested_sessions (idx₀ : GenericIndex α) (hvalid : Valid onlyId idx₀)
    (hstack : idx₀.stack = []) (ops : List (SessionOperation α)) (h : History α)
    (hrun : h = History.run onlyId { index := idx₀ } ops) :
    (h.index.squash.objects = h.index.objects ∧
      ∀ revision, (h.index.commit revision).objects = h.index.objects) ∧
    (2 ≤ h.index.stack.length → ∃ idx, undo onlyId h.index.squash = (.ok (), idx) ∧
      undoTimes onlyId 2 h.index = (.ok (), idx)) ∧
    ∀ k u, h.index.stack[k]? = some u →
      ∃ objects nextId idx, h.started u.revision = some (objects, nextId) ∧
        undoTimes onlyId (k + 1) h.index = (.ok (), idx) ∧ idx.objects = objects ∧
        idx.nextId = nextId ∧ idx.revision = u.revision - 1 := by
  have hnested : Nested onlyId h.started h.index := by
    rw [hrun]
    exact Nested.run (Nested.base hvalid hstack) ops
  refine ⟨⟨?_, fun _ => rfl⟩, hnested.undo_squash, fun k u hk => hnested.undoTimes_restores hk⟩
  unfold squash
  split <;> rfl

theorem nested_sessions_threeSessions :
    ∃ objects nextId idx,
      (History.run onlyId { index := {} } threeSessions).started 1 = some (objects, nextId) ∧
      undoTimes onlyId 2 (History.run onlyId { index := {} } threeSessions).index =
        (.ok (), idx) ∧
      idx.objects = objects ∧ idx.nextId = nextId ∧ idx.revision = 0 :=
  (nested_sessions {} valid_empty rfl threeSessions _ rfl).2.2 1 _ rfl

end GenericIndex

end BaccChain
