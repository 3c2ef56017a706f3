import BaccChain.Chainbase.GenericIndex

/-!
# Undo of an index

The old values come first, while the objects that the session has created, and modified objects with
greater ids, still have the values of the session.

## Main definitions

* `Recorded`: what a session has recorded
* `NoneTaken`: no old key is taken

## Main results

* `undo_restores_iff`: when an undo restores the index
* `undo_loses_object`: when it loses an object
-/

namespace BaccChain

open Commons

variable {α κ : Type} {keys : List (α → κ)}

theorem fits_iff {objects : Table Nat α} {id : Nat} {a : α} :
    Fits keys objects id a ↔ ∀ j b, objects.find j = some b → j ≠ id → ¬ Clash keys a b :=
  (Table.forall_find (P := fun j b => j ≠ id → ¬ Clash keys a b)).symm

theorem find_emplaceEntry (t : Table Nat α) {id : Nat} {a : α} (h : t.find id = none) (j : Nat) :
    (emplaceEntry t id a).find j = if id = j then some a else t.find j := by
  rw [emplaceEntry, h, if_neg (by simp), Table.find_insert]

theorem Clash.symm {a b : α} (h : Clash keys a b) : Clash keys b a := by
  obtain ⟨key, hkey, heq⟩ := h
  exact ⟨key, hkey, heq.symm⟩

namespace GenericIndex

variable [DecidableEq κ] {idx idx' idx₀ : GenericIndex α}

/-! ## Operations -/

theorem place_eq_ok {id : Nat} {a : α} {msg : String} :
    place keys id a msg idx = (.ok (), idx') ↔
      idx.objects.find id = none ∧ Fits keys idx.objects id a ∧
        idx' = { idx with objects := idx.objects.insert id a } := by
  rw [place, Attempt.read_bind, Attempt.ite_run]
  split_ifs with h
  · rw [Attempt.update_eq_ok]
    simp [h]
  · simp only [Attempt.throws_ne_ok, false_iff]
    exact fun h' => h ⟨h'.1, h'.2.1⟩

theorem replace_eq_ok {id : Nat} {a : α} :
    replace keys id a idx = (.ok (), idx') ↔
      Fits keys idx.objects id a ∧ idx' = { idx with objects := idx.objects.insert id a } := by
  rw [replace, Attempt.read_bind, Attempt.ite_run]
  split_ifs with h
  · rw [Attempt.update_eq_ok]
    simp [h]
  · simp [h]

theorem emplace_eq_ok {a : α} :
    emplace keys a idx = (.ok (), idx') ↔
      idx.objects.find idx.nextId = none ∧ Fits keys idx.objects idx.nextId a ∧
        idx' = { idx with
          objects := idx.objects.insert idx.nextId a
          nextId := idx.nextId + 1
          stack := note (·.onCreate idx.nextId) idx.stack } := by
  rw [emplace, Attempt.read_bind, Attempt.bind_eq_ok]
  constructor
  · rintro ⟨⟨⟩, idx₁, hplace, hupdate⟩
    obtain ⟨hfree, hfits, rfl⟩ := place_eq_ok.mp hplace
    exact ⟨hfree, hfits, Attempt.update_eq_ok.mp hupdate⟩
  · rintro ⟨hfree, hfits, rfl⟩
    exact ⟨(), _, place_eq_ok.mpr ⟨hfree, hfits, rfl⟩, rfl⟩

theorem modify_eq_ok {id : Nat} {m : α → α} :
    modify keys id m idx = (.ok (), idx') ↔
      ∃ v, idx.objects.find id = some v ∧ Fits keys idx.objects id (m v) ∧
        idx' = { idx with
          objects := idx.objects.insert id (m v)
          stack := note (·.onModify id v) idx.stack } := by
  rw [modify, Attempt.read_bind]
  cases idx.objects.find id with
  | none => simp
  | some =>
    dsimp only
    rw [Attempt.update_bind, replace_eq_ok]
    simp

theorem remove_eq_ok {id : Nat} :
    remove id idx = (.ok (), idx') ↔
      ∃ v, idx.objects.find id = some v ∧
        idx' = { idx with
          stack := note (·.onRemove id v) idx.stack
          objects := idx.objects.erase id } := by
  rw [remove, Attempt.read_bind]
  cases idx.objects.find id with
  | none => simp
  | some => simp

omit [DecidableEq κ] in
theorem Valid.insert (h : Valid keys idx) {id n : Nat} {a : α} (hfits : Fits keys idx.objects id a)
    (hid : id < n) (hn : idx.nextId ≤ n) (stack : List (UndoState α)) (revision : Int) :
    Valid keys ⟨idx.objects.insert id a, n, stack, revision⟩ := by
  rw [fits_iff] at hfits
  refine ⟨fun i b hb => ?_, fun i j b b' hb hb' hne => ?_⟩
  · rw [Table.find_insert] at hb
    split_ifs at hb with hi
    · exact hi ▸ hid
    · exact (h.lt i b hb).trans_le hn
  · rw [Table.find_insert] at hb hb'
    split_ifs at hb hb' with hi hj hj
    · exact absurd (hi.symm.trans hj) hne
    · rw [← Option.some.inj hb]
      exact hfits j b' hb' (Ne.symm hj)
    · rw [← Option.some.inj hb']
      exact fun hclash => hfits i b hb (Ne.symm hi) hclash.symm
    · exact h.unique i j b b' hb hb' hne

omit [DecidableEq κ] in
theorem Valid.erase (h : Valid keys idx) (id : Nat) (stack : List (UndoState α)) (revision : Int) :
    Valid keys ⟨idx.objects.erase id, idx.nextId, stack, revision⟩ := by
  have hfind {i : Nat} {b : α} (hb : (idx.objects.erase id).find i = some b) :
      idx.objects.find i = some b := by
    rw [Table.find_erase] at hb
    split_ifs at hb
    exact hb
  exact ⟨fun i b hb => h.lt i b (hfind hb), fun i j b b' hb hb' =>
    h.unique i j b b' (hfind hb) (hfind hb')⟩

/-! ## The record of a session -/

/-- The index `idx` in a session that was started on `idx₀`, with the record `u`. -/
structure Recorded (keys : List (α → κ)) (idx₀ idx : GenericIndex α) (u : UndoState α) : Prop where
  stack : idx.stack = u :: idx₀.stack
  revision : idx.revision = idx₀.revision + 1
  oldNextId : u.oldNextId = idx₀.nextId
  le : idx₀.nextId ≤ idx.nextId
  valid₀ : Valid keys idx₀
  valid : Valid keys idx
  new : ∀ i, i ∈ u.newIds ↔ idx₀.nextId ≤ i ∧ (idx.objects.find i).isSome
  old : ∀ i a, u.oldValues.find i = some a →
    idx₀.objects.find i = some a ∧ (idx.objects.find i).isSome
  removed : ∀ i a, u.removedValues.find i = some a →
    idx₀.objects.find i = some a ∧ idx.objects.find i = none
  kept : ∀ i a, idx₀.objects.find i = some a → u.oldValues.find i = none →
    u.removedValues.find i = none → idx.objects.find i = some a
  origin : ∀ i, (idx.objects.find i).isSome → i < idx₀.nextId → (idx₀.objects.find i).isSome

namespace Recorded

variable {u : UndoState α} {id : Nat} {v a : α}

omit [DecidableEq κ] in
theorem start (h : Valid keys idx₀) :
    Recorded keys idx₀ idx₀.startUndoSession
      { oldNextId := idx₀.nextId, revision := idx₀.revision + 1 } where
  stack := rfl
  revision := rfl
  oldNextId := rfl
  le := le_rfl
  valid₀ := h
  valid := ⟨h.lt, h.unique⟩
  new i := by
    refine ⟨fun hi => absurd hi FlatSet.notMem_empty, fun ⟨hle, hi⟩ => ?_⟩
    obtain ⟨a, ha⟩ := Option.isSome_iff_exists.mp hi
    exact absurd (h.lt i a ha) (Nat.not_lt_of_le hle)
  old i a ha := by cases ha
  removed i a ha := by cases ha
  kept i a ha _ _ := ha
  origin i hi _ := hi

theorem onRemove_old (hnew : id ∉ u.newIds)
    (hrem : u.removedValues.find id = none)
    (hold : (∃ w, u.oldValues.find id = some w ∧ idx₀.objects.find id = some w) ∨
      (u.oldValues.find id = none ∧ idx₀.objects.find id = some v)) :
    ∃ w, idx₀.objects.find id = some w ∧
      (u.onRemove id v).newIds = u.newIds ∧ (u.onRemove id v).oldNextId = u.oldNextId ∧
      (∀ i, (u.onRemove id v).oldValues.find i = if id = i then none else u.oldValues.find i) ∧
      ∀ i, (u.onRemove id v).removedValues.find i =
        if id = i then some w else u.removedValues.find i := by
  unfold UndoState.onRemove
  rw [if_neg hnew]
  rcases hold with ⟨w, hold, hw⟩ | ⟨hold, hw⟩
  · rw [hold]
    exact ⟨w, hw, rfl, rfl, fun i => Table.find_erase _ _ _, find_emplaceEntry _ hrem⟩
  · rw [hold, hrem]
    refine ⟨v, hw, rfl, rfl, fun i => ?_, find_emplaceEntry _ hrem⟩
    show u.oldValues.find i = _
    split_ifs with hi
    · exact hi ▸ hold
    · rfl

variable (h : Recorded keys idx₀ idx u)
include h

theorem emplace (hop : emplace keys a idx = (.ok (), idx')) :
    Recorded keys idx₀ idx' (u.onCreate idx.nextId) := by
  obtain ⟨hfree, hfits, rfl⟩ := emplace_eq_ok.mp hop
  have hfind (i : Nat) := idx.objects.find_insert idx.nextId i a
  have hne {i : Nat} {b : α} (hb : idx₀.objects.find i = some b) : idx.nextId ≠ i :=
    ((h.valid₀.lt i b hb).trans_le h.le).ne'
  refine ⟨?_, h.revision, h.oldNextId, h.le.trans (Nat.le_succ _), h.valid₀,
    h.valid.insert hfits (Nat.lt_succ_self _) (Nat.le_succ _) _ _, fun i => ?_, fun i b hb => ?_,
    fun i b hb => ?_, fun i b hb hold hrem => ?_, fun i hi hlt => ?_⟩
  · rw [h.stack]
    rfl
  · rw [UndoState.onCreate, FlatSet.mem_insert, h.new, hfind]
    by_cases hi : idx.nextId = i
    · simp [hi, hi ▸ h.le]
    · simp [hi, Ne.symm hi]
  · rw [hfind, if_neg (hne (h.old i b hb).1)]
    exact h.old i b hb
  · rw [hfind, if_neg (hne (h.removed i b hb).1)]
    exact h.removed i b hb
  · rw [hfind, if_neg (hne hb)]
    exact h.kept i b hb hold hrem
  · have hi' : idx.nextId ≠ i := (hlt.trans_le h.le).ne'
    rw [hfind, if_neg hi'] at hi
    exact h.origin i hi hlt

omit [DecidableEq κ] in
theorem of_find (hv : idx.objects.find id = some v) :
    (id ∈ u.newIds ∧ idx₀.nextId ≤ id) ∨ (id ∉ u.newIds ∧ u.removedValues.find id = none ∧
      ((∃ w, u.oldValues.find id = some w ∧ idx₀.objects.find id = some w) ∨
        (u.oldValues.find id = none ∧ idx₀.objects.find id = some v))) := by
  have hsome : (idx.objects.find id).isSome := by rw [hv]; rfl
  rcases Nat.lt_or_ge id idx₀.nextId with hlt | hge
  · right
    have hrem : u.removedValues.find id = none := by
      refine Option.eq_none_iff_forall_ne_some.mpr fun w hw => ?_
      simp [(h.removed id w hw).2] at hv
    refine ⟨fun hnew => absurd ((h.new id).mp hnew).1 (Nat.not_le_of_lt hlt), hrem, ?_⟩
    cases hold : u.oldValues.find id with
    | some w => exact Or.inl ⟨w, rfl, (h.old id w hold).1⟩
    | none =>
      obtain ⟨w, hw⟩ := Option.isSome_iff_exists.mp (h.origin id hsome hlt)
      have hkept := h.kept id w hw hold hrem
      exact Or.inr ⟨rfl, hw.trans (hkept.symm.trans hv)⟩
  · exact Or.inl ⟨(h.new id).mpr ⟨hge, hsome⟩, hge⟩

omit [DecidableEq κ] in
theorem write (hv : idx.objects.find id = some v) (hfits : Fits keys idx.objects id a)
    (hrecorded : idx₀.nextId ≤ id ∨ u.oldValues.find id ≠ none) :
    Recorded keys idx₀ { idx with objects := idx.objects.insert id a } u := by
  have hfind (i : Nat) := idx.objects.find_insert id i a
  have hsome (i : Nat) : (({ idx with objects := idx.objects.insert id a } :
      GenericIndex α).objects.find i).isSome ↔ (idx.objects.find i).isSome := by
    rw [hfind]
    split_ifs with hi
    · rw [← hi, hv]
      rfl
    · rfl
  refine ⟨h.stack, h.revision, h.oldNextId, h.le, h.valid₀,
    h.valid.insert hfits (h.valid.lt id v hv) le_rfl _ _, fun i => ?_, fun i b hb => ?_,
    fun i b hb => ?_, fun i b hb hold hrem => ?_, fun i hi => ?_⟩
  · rw [h.new, hsome]
  · rw [hsome]
    exact h.old i b hb
  · have hne : id ≠ i := by
      rintro rfl
      rw [(h.removed id b hb).2] at hv
      cases hv
    rw [hfind, if_neg hne]
    exact h.removed i b hb
  · have hne : id ≠ i := by
      rintro rfl
      rcases hrecorded with hge | hsome
      · exact absurd (h.valid₀.lt id b hb) (Nat.not_lt_of_le hge)
      · exact hsome hold
    rw [hfind, if_neg hne]
    exact h.kept i b hb hold hrem
  · rw [hsome] at hi
    exact h.origin i hi

omit [DecidableEq κ] in
theorem record (hv : idx.objects.find id = some v) :
    Recorded keys idx₀ { idx with stack := note (·.onModify id v) idx.stack } (u.onModify id v) ∧
      (idx₀.nextId ≤ id ∨ (u.onModify id v).oldValues.find id ≠ none) := by
  have hstack : note (·.onModify id v) idx.stack = u.onModify id v :: idx₀.stack := by
    rw [h.stack]
    rfl
  have hvalid : Valid keys { idx with stack := note (·.onModify id v) idx.stack } :=
    ⟨h.valid.lt, h.valid.unique⟩
  rcases h.of_find hv with ⟨hnew, hge⟩ | ⟨hnew, hrem, ⟨w, hold, hw⟩ | ⟨hold, hw⟩⟩
  · have hu : u.onModify id v = u := if_pos hnew
    rw [hu] at hstack ⊢
    exact ⟨{ h with stack := hstack, valid := hvalid }, Or.inl hge⟩
  · have hu : u.onModify id v = u := by
      rw [UndoState.onModify, if_neg hnew, hold]
      rfl
    rw [hu] at hstack ⊢
    refine ⟨{ h with stack := hstack, valid := hvalid }, Or.inr ?_⟩
    rw [hold]
    exact Option.some_ne_none w
  · have hu : u.onModify id v = { u with oldValues := emplaceEntry u.oldValues id v } := by
      rw [UndoState.onModify, if_neg hnew, hold]
      rfl
    rw [hu] at hstack ⊢
    have hfind (i : Nat) := find_emplaceEntry u.oldValues (a := v) hold i
    refine ⟨{ h with
      stack := hstack
      valid := hvalid
      old := fun i b hb => ?_
      kept := fun i b hb hold' hrem' => ?_ }, Or.inr ?_⟩
    · rw [hfind] at hb
      split_ifs at hb with hi
      · rw [← hi, ← Option.some.inj hb, hv]
        exact ⟨hw, rfl⟩
      · exact h.old i b hb
    · rw [hfind] at hold'
      split_ifs at hold'
      exact h.kept i b hb hold' hrem'
    · rw [hfind, if_pos rfl]
      exact Option.some_ne_none v

theorem modify {m : α → α} (hop : modify keys id m idx = (.ok (), idx')) :
    ∃ u', Recorded keys idx₀ idx' u' := by
  obtain ⟨v, hv, hfits, rfl⟩ := modify_eq_ok.mp hop
  obtain ⟨hrecord, hrecorded⟩ := h.record hv
  exact ⟨_, hrecord.write hv hfits hrecorded⟩

omit [DecidableEq κ] in
theorem removeNew (hnew : id ∈ u.newIds) (hge : idx₀.nextId ≤ id) :
    Recorded keys idx₀
      { idx with objects := idx.objects.erase id, stack := u.onRemove id v :: idx₀.stack }
      (u.onRemove id v) := by
  have hu : u.onRemove id v = { u with newIds := u.newIds.erase id } := if_pos hnew
  have hfind (i : Nat) := idx.objects.find_erase id i
  have hne {i : Nat} {b : α} (hb : idx₀.objects.find i = some b) : id ≠ i :=
    ((h.valid₀.lt i b hb).trans_le hge).ne'
  rw [hu]
  refine ⟨rfl, h.revision, h.oldNextId, h.le, h.valid₀, h.valid.erase id _ idx.revision,
    fun i => ?_, fun i b hb => ?_, fun i b hb => ?_, fun i b hb hold hrem => ?_, fun i hi => ?_⟩
  · rw [FlatSet.mem_erase, h.new, hfind]
    by_cases hi : id = i
    · simp [hi]
    · simp [hi, Ne.symm hi]
  · rw [hfind, if_neg (hne (h.old i b hb).1)]
    exact h.old i b hb
  · rw [hfind, if_neg (hne (h.removed i b hb).1)]
    exact h.removed i b hb
  · rw [hfind, if_neg (hne hb)]
    exact h.kept i b hb hold hrem
  · rw [hfind] at hi
    split_ifs at hi
    · cases hi
    · exact h.origin i hi

omit [DecidableEq κ] in
theorem remove (hop : remove id idx = (.ok (), idx')) : ∃ u', Recorded keys idx₀ idx' u' := by
  obtain ⟨v, hv, rfl⟩ := remove_eq_ok.mp hop
  have hstack : note (·.onRemove id v) idx.stack = u.onRemove id v :: idx₀.stack := by
    rw [h.stack]
    rfl
  rw [hstack]
  rcases h.of_find hv with ⟨hnew, hge⟩ | ⟨hnew, hrem, hold⟩
  · exact ⟨_, h.removeNew hnew hge⟩
  · obtain ⟨w, hw, hnewIds, hnext, hold, hrem⟩ := onRemove_old hnew hrem hold
    have hfind (i : Nat) := idx.objects.find_erase id i
    refine ⟨_, rfl, h.revision, hnext.trans h.oldNextId, h.le, h.valid₀,
      h.valid.erase id _ idx.revision, fun i => ?_,
      fun i b hb => ?_, fun i b hb => ?_, fun i b hb hold' hrem' => ?_, fun i hi => ?_⟩
    · rw [hnewIds, h.new, hfind]
      by_cases hi : id = i
      · have hlt := h.valid₀.lt id w hw
        simp [← hi, Nat.not_le_of_lt hlt]
      · simp [hi]
    · rw [hold] at hb
      rw [hfind]
      split_ifs at hb ⊢
      exact h.old i b hb
    · rw [hrem] at hb
      rw [hfind]
      split_ifs at hb ⊢ with hi
      · exact ⟨by rw [← hi, hw, hb], rfl⟩
      · exact h.removed i b hb
    · rw [hrem] at hrem'
      rw [hold] at hold'
      rw [hfind]
      split_ifs at hold' hrem' ⊢
      exact h.kept i b hb hold' hrem'
    · rw [hfind] at hi
      split_ifs at hi
      · cases hi
      · exact h.origin i hi

theorem step (op : Operation α) (hop : op.exec keys idx = (.ok (), idx')) :
    ∃ u', Recorded keys idx₀ idx' u' := by
  cases op with
  | emplace => exact ⟨_, h.emplace hop⟩
  | modify => exact h.modify hop
  | remove => exact h.remove hop

theorem run {ops : List (Operation α)}
    (hops : Attempt.each (Operation.exec keys) ops idx = (.ok (), idx')) :
    ∃ u', Recorded keys idx₀ idx' u' := by
  induction ops generalizing idx u with
  | nil =>
    obtain ⟨-, rfl⟩ := Attempt.pure_eq_ok.mp hops
    exact ⟨u, h⟩
  | cons op ops ih =>
    obtain ⟨⟨⟩, idx₁, hop, hrest⟩ := Attempt.bind_eq_ok.mp hops
    obtain ⟨u₁, h₁⟩ := h.step op hop
    exact ih h₁ hrest

omit [DecidableEq κ] in
theorem of_overlay {j : Nat} {b : α} (hj : j < idx₀.nextId)
    (hb : (u.oldValues.find j).or (idx.objects.find j) = some b) :
    idx₀.objects.find j = some b := by
  cases hold : u.oldValues.find j with
  | some w =>
    rw [hold, Option.some_or] at hb
    exact hb ▸ (h.old j w hold).1
  | none =>
    rw [hold, Option.none_or] at hb
    rcases h.of_find hb with ⟨-, hge⟩ | ⟨-, -, ⟨w, hw, -⟩ | ⟨-, hfind⟩⟩
    · exact absurd hj (Nat.not_lt_of_le hge)
    · rw [hold] at hw
      cases hw
    · exact hfind

end Recorded

/-! ## The three passes of undo -/

theorem restoreOld_eq_ok {e : Nat × α} (he : (idx.objects.find e.1).isSome) :
    restoreOld keys e idx = (.ok (), idx') ↔
      Fits keys idx.objects e.1 e.2 ∧
        idx' = { idx with objects := idx.objects.insert e.1 e.2 } := by
  obtain ⟨v, hv⟩ := Option.isSome_iff_exists.mp he
  rw [restoreOld, Attempt.read_bind, hv]
  exact replace_eq_ok

/-- The first pass has restored the old values of the ids below `n`, and those of `l` are left. -/
structure Restoring (idx : GenericIndex α) (u : UndoState α) (n : Nat) (l : List (Nat × α))
    (objects : Table Nat α) : Prop where
  sorted : l.Pairwise fun e e' => e.1 < e'.1
  mem : ∀ e, e ∈ l ↔ e ∈ u.oldValues.entries ∧ n ≤ e.1
  find : ∀ j, objects.find j =
    if j < n then (u.oldValues.find j).or (idx.objects.find j) else idx.objects.find j

namespace Restoring

variable {u : UndoState α} {n : Nat} {e : Nat × α} {l : List (Nat × α)} {objects : Table Nat α}

theorem find_of_forall (h : Restoring idx u n l objects) {j : Nat} (hj : ∀ w, (j, w) ∉ l) :
    objects.find j = (u.oldValues.find j).or (idx.objects.find j) := by
  rw [h.find]
  split_ifs with hn
  · rfl
  · cases hold : u.oldValues.find j with
    | none => rw [Option.none_or]
    | some w =>
      have hentry := Table.mem_entries_iff.mpr hold
      exact absurd ((h.mem (j, w)).mpr ⟨hentry, Nat.le_of_not_lt hn⟩) (hj w)

theorem find_before (h : Restoring idx u n (e :: l) objects) {j : Nat} (hj : j < e.1) :
    objects.find j = (u.oldValues.find j).or (idx.objects.find j) := by
  refine h.find_of_forall fun w hw => ?_
  rcases List.mem_cons.mp hw with heq | hlater
  · exact absurd (congrArg Prod.fst heq) hj.ne
  · exact absurd ((List.pairwise_cons.mp h.sorted).1 _ hlater) hj.asymm

theorem find_after (h : Restoring idx u n (e :: l) objects) {j : Nat} (hj : e.1 ≤ j) :
    objects.find j = idx.objects.find j := by
  have hle := ((h.mem e).mp List.mem_cons_self).2
  rw [h.find, if_neg (Nat.not_lt_of_le (hle.trans hj))]

theorem oldValue (h : Restoring idx u n (e :: l) objects) : u.oldValues.find e.1 = some e.2 :=
  Table.mem_entries_iff.mp ((h.mem e).mp List.mem_cons_self).1

theorem next (h : Restoring idx u n (e :: l) objects) :
    Restoring idx u (e.1 + 1) l (objects.insert e.1 e.2) := by
  obtain ⟨he, hl⟩ := List.pairwise_cons.mp h.sorted
  refine ⟨hl, fun x => ⟨fun hx => ?_, ?_⟩, fun j => ?_⟩
  · exact ⟨((h.mem x).mp (List.mem_cons_of_mem _ hx)).1, he x hx⟩
  · rintro ⟨hx, hlt⟩
    have hle := ((h.mem e).mp List.mem_cons_self).2
    rcases List.mem_cons.mp ((h.mem x).mpr ⟨hx, hle.trans (Nat.le_of_succ_le hlt)⟩) with rfl | hx
    · exact absurd hlt (Nat.lt_irrefl _)
    · exact hx
  · rw [Table.find_insert]
    rcases Nat.lt_trichotomy j e.1 with hj | rfl | hj
    · rw [if_neg hj.ne', if_pos (Nat.lt_succ_of_lt hj), h.find_before hj]
    · rw [if_pos rfl, if_pos (Nat.lt_succ_self _), h.oldValue, Option.some_or]
    · rw [if_neg hj.ne, if_neg (Nat.not_lt_of_le hj), h.find_after hj.le]

omit [DecidableEq κ] in
theorem fits_oldValue_iff (h : Restoring idx u n (e :: l) objects) (hu : Recorded keys idx₀ idx u) :
    Fits keys objects e.1 e.2 ↔
      ∀ j b, e.1 < j → idx.objects.find j = some b → ¬ Clash keys e.2 b := by
  obtain ⟨hfind₀, -⟩ := hu.old e.1 e.2 h.oldValue
  rw [fits_iff]
  constructor
  · intro hfits j b hj hb
    exact hfits j b ((h.find_after hj.le).trans hb) hj.ne'
  · intro hfits j b hb hne
    rcases Nat.lt_or_gt_of_ne hne with hj | hj
    · have hlt := hj.trans (hu.valid₀.lt e.1 e.2 hfind₀)
      have hb₀ := hu.of_overlay hlt ((h.find_before hj).symm.trans hb)
      exact hu.valid₀.unique e.1 j e.2 b hfind₀ hb₀ (Ne.symm hne)
    · exact hfits j b hj ((h.find_after hj.le).symm.trans hb)

end Restoring

theorem each_restoreOld {u : UndoState α} (h : Recorded keys idx₀ idx u) {n : Nat}
    {l : List (Nat × α)} {objects : Table Nat α} (hpass : Restoring idx u n l objects) :
    Attempt.each (restoreOld keys) l { idx with objects } = (.ok (), idx') ↔
      (∀ e ∈ l, ∀ j b, e.1 < j → idx.objects.find j = some b → ¬ Clash keys e.2 b) ∧
        ∃ objects', idx' = { idx with objects := objects' } ∧
          ∀ j, objects'.find j = (u.oldValues.find j).or (idx.objects.find j) := by
  induction l generalizing n objects with
  | nil =>
    have hdone (j : Nat) := hpass.find_of_forall (j := j) fun _ => List.not_mem_nil
    rw [Attempt.each, Attempt.pure_eq_ok, eq_self, true_and]
    constructor
    · rintro rfl
      exact ⟨List.forall_mem_nil _, objects, rfl, hdone⟩
    · rintro ⟨-, objects', rfl, hobjects'⟩
      have : objects' = objects := Table.ext_find fun j => by rw [hobjects', hdone]
      rw [this]
  | cons e l ih =>
    have hsome : (({ idx with objects } : GenericIndex α).objects.find e.1).isSome := by
      rw [hpass.find_after le_rfl]
      exact (h.old e.1 e.2 hpass.oldValue).2
    rw [Attempt.each, Attempt.bind_eq_ok, List.forall_mem_cons, ← hpass.fits_oldValue_iff h,
      and_assoc, ← ih hpass.next]
    constructor
    · rintro ⟨⟨⟩, c, hstep, hrest⟩
      obtain ⟨hf, rfl⟩ := (restoreOld_eq_ok hsome).mp hstep
      exact ⟨hf, hrest⟩
    · rintro ⟨hf, hrest⟩
      exact ⟨(), _, (restoreOld_eq_ok hsome).mpr ⟨hf, rfl⟩, hrest⟩

theorem each_eraseNew (l : List Nat) (idx : GenericIndex α) :
    ∃ objects, Attempt.each eraseNew l idx = (.ok (), { idx with objects }) ∧
      ∀ j, objects.find j = if j ∈ l then none else idx.objects.find j := by
  induction l generalizing idx with
  | nil => exact ⟨idx.objects, rfl, fun j => by simp⟩
  | cons i l ih =>
    obtain ⟨objects, heach, hobjects⟩ := ih { idx with objects := idx.objects.erase i }
    refine ⟨objects, heach, fun j => ?_⟩
    rw [hobjects, Table.find_erase]
    by_cases hj : j ∈ l
    · simp [hj]
    · by_cases hi : i = j
      · simp [hi]
      · simp [hj, hi, Ne.symm hi]

theorem each_restoreRemoved {t : Table Nat α} {l : List (Nat × α)}
    (hl : l.Pairwise fun e e' => e.1 < e'.1)
    (hunique : ∀ i j a b, t.find i = some a → t.find j = some b → i ≠ j → ¬ Clash keys a b)
    (hremoved : ∀ e ∈ l, idx.objects.find e.1 = none ∧ t.find e.1 = some e.2)
    (hothers : ∀ j, (∀ e ∈ l, e.1 ≠ j) → idx.objects.find j = t.find j) :
    Attempt.each (restoreRemoved keys) l idx = (.ok (), { idx with objects := t }) := by
  induction l generalizing idx with
  | nil =>
    have : idx.objects = t := Table.ext_find fun j => hothers j fun e he => by cases he
    rw [← this]
    rfl
  | cons e l ih =>
    obtain ⟨he, hl⟩ := List.pairwise_cons.mp hl
    obtain ⟨hnone, hsome⟩ := hremoved e List.mem_cons_self
    have hfits : Fits keys idx.objects e.1 e.2 := by
      rw [fits_iff]
      intro j b hb hne
      have hj : ∀ e' ∈ e :: l, e'.1 ≠ j := by
        rintro e' he' rfl
        rw [(hremoved e' he').1] at hb
        cases hb
      exact hunique e.1 j e.2 b hsome ((hothers j hj).symm.trans hb) (Ne.symm hne)
    have hplace : restoreRemoved keys e idx =
        (.ok (), { idx with objects := idx.objects.insert e.1 e.2 }) :=
      place_eq_ok.mpr ⟨hnone, hfits, rfl⟩
    rw [Attempt.each, Attempt.bind_of_ok hplace]
    refine ih hl (fun e' he' => ?_) fun j hj => ?_
    · rw [Table.find_insert, if_neg (he e' he').ne]
      exact hremoved e' (List.mem_cons_of_mem _ he')
    · rw [Table.find_insert]
      split_ifs with hi
      · rw [← hi, hsome]
      · exact hothers j (List.forall_mem_cons.mpr ⟨hi, hj⟩)

/-! ## Undo -/

variable {u : UndoState α} (h : Recorded keys idx₀ idx u)
include h

omit [DecidableEq κ] in
theorem Recorded.passes_eq {j : Nat} (hremoved : u.removedValues.find j = none) :
    (if j ∈ u.newIds then none else (u.oldValues.find j).or (idx.objects.find j)) =
      idx₀.objects.find j := by
  ext b
  constructor
  · intro hb
    split_ifs at hb with hnew
    refine h.of_overlay (Nat.lt_of_not_le fun hge => ?_) hb
    have hold : u.oldValues.find j = none :=
      Option.eq_none_iff_forall_ne_some.mpr fun w hw =>
        absurd (h.valid₀.lt j w (h.old j w hw).1) (Nat.not_lt_of_le hge)
    rw [hold, Option.none_or] at hb
    exact hnew ((h.new j).mpr ⟨hge, Option.isSome_iff_exists.mpr ⟨b, hb⟩⟩)
  · intro hb
    have hnew : j ∉ u.newIds := fun hnew =>
      absurd (h.valid₀.lt j b hb) (Nat.not_lt_of_le ((h.new j).mp hnew).1)
    rw [if_neg hnew]
    cases hold : u.oldValues.find j with
    | some w => rw [Option.some_or, ← (h.old j w hold).1, hb]
    | none => rw [Option.none_or, h.kept j b hb hold hremoved]

omit [DecidableEq κ] in
theorem Recorded.passes_removed {j : Nat} {a : α} (hremoved : u.removedValues.find j = some a) :
    (u.oldValues.find j).or (idx.objects.find j) = none := by
  have hnone := (h.removed j a hremoved).2
  rw [hnone, Option.or_none]
  refine Option.eq_none_iff_forall_ne_some.mpr fun w hw => ?_
  simpa [hnone] using (h.old j w hw).2

/-- No old object that is still there had a key of a later one. -/
def NoneTaken (keys : List (α → κ)) (idx₀ idx : GenericIndex α) : Prop :=
  ∀ i j a b, i < j → idx₀.objects.find i = some a → (idx.objects.find i).isSome →
    idx.objects.find j = some b → ¬ Clash keys a b

instance (idx₀ idx : GenericIndex α) : Decidable (NoneTaken keys idx₀ idx) :=
  decidable_of_iff (∀ e ∈ idx₀.objects.entries, (idx.objects.find e.1).isSome →
    ∀ e' ∈ idx.objects.entries, e.1 < e'.1 → ¬ Clash keys e.2 e'.2) <| by
    simp only [Prod.forall, Table.mem_entries_iff]
    exact ⟨fun h i j a b hj ha hi hb => h i a ha hi j b hb hj,
      fun h i a ha hi j b hb hj => h i j a b hj ha hi hb⟩

omit [DecidableEq κ] in
theorem Recorded.noneTaken_iff : NoneTaken keys idx₀ idx ↔
      ∀ e ∈ u.oldValues.entries, ∀ j b, e.1 < j → idx.objects.find j = some b →
        ¬ Clash keys e.2 b := by
  constructor
  · intro hnone e he j b hj hb
    obtain ⟨hfind₀, hsome⟩ := h.old e.1 e.2 (Table.mem_entries_iff.mp he)
    exact hnone e.1 j e.2 b hj hfind₀ hsome hb
  · intro hold i j a b hj ha hi hb
    obtain ⟨v, hv⟩ := Option.isSome_iff_exists.mp hi
    rcases h.of_find hv with ⟨-, hge⟩ | ⟨-, -, ⟨w, hw, hw₀⟩ | ⟨-, hv₀⟩⟩
    · exact absurd (h.valid₀.lt i a ha) (Nat.not_lt_of_le hge)
    · obtain rfl := Option.some.inj (ha.symm.trans hw₀)
      exact hold (i, a) (Table.mem_entries_iff.mpr hw) j b hj hb
    · obtain rfl := Option.some.inj (ha.symm.trans hv₀)
      exact h.valid.unique i j a b hv hb hj.ne

/-- **Undo of a recorded session** succeeds if no key was taken, and then it gives the index from
before the session. -/
theorem Recorded.undo_eq_ok :
    undo keys idx = (.ok (), idx') ↔ NoneTaken keys idx₀ idx ∧ idx' = idx₀ := by
  rw [undo, Attempt.read_bind, h.stack, h.noneTaken_iff]
  dsimp only
  have hfirst (c : GenericIndex α) :
      Attempt.each (restoreOld keys) u.oldValues.entries idx = (.ok (), c) ↔ _ :=
    each_restoreOld h (n := 0) ⟨u.oldValues.sorted, fun e => by simp, fun j => by simp⟩
  have hrest {objects : Table Nat α}
      (hobjects : ∀ j, objects.find j = (u.oldValues.find j).or (idx.objects.find j)) :
      (do
        Attempt.each eraseNew u.newIds.toList
        Attempt.update fun idx => { idx with nextId := u.oldNextId }
        Attempt.each (restoreRemoved keys) u.removedValues.entries
        Attempt.update fun idx => { idx with stack := idx₀.stack, revision := idx.revision - 1 } :
        Attempt (GenericIndex α) Unit) { idx with objects } = (.ok (), idx₀) := by
    obtain ⟨objects₂, herase, hobjects₂⟩ :=
      each_eraseNew u.newIds.toList { idx with objects }
    simp only [FlatSet.mem_toList, hobjects] at hobjects₂
    have hrestore : Attempt.each (restoreRemoved keys) u.removedValues.entries
        { idx with objects := objects₂, nextId := u.oldNextId } =
          (.ok (), { idx with objects := idx₀.objects, nextId := u.oldNextId }) := by
      refine each_restoreRemoved u.removedValues.sorted h.valid₀.unique (fun e he => ?_)
        fun j hj => ?_
      · have hfind := Table.mem_entries_iff.mp he
        refine ⟨(hobjects₂ e.1).trans ?_, (h.removed e.1 e.2 hfind).1⟩
        rw [h.passes_removed hfind, ite_self]
      · refine (hobjects₂ j).trans (h.passes_eq (Option.eq_none_iff_forall_ne_some.mpr ?_))
        exact fun a ha => hj (j, a) (Table.mem_entries_iff.mpr ha) rfl
    rw [Attempt.bind_of_ok herase, Attempt.update_bind, Attempt.bind_of_ok hrestore,
      Attempt.update, h.oldNextId, h.revision, Int.add_sub_cancel]
  constructor
  · intro hundo
    obtain ⟨⟨⟩, c, hold, hundo⟩ := Attempt.bind_eq_ok.mp hundo
    obtain ⟨hnone, objects, rfl, hobjects⟩ := (hfirst c).mp hold
    rw [hrest hobjects] at hundo
    exact ⟨hnone, (Prod.ext_iff.mp hundo).2.symm⟩
  · rintro ⟨hnone, rfl⟩
    have hobjects := u.oldValues.find_overlay idx.objects
    have hold := (hfirst _).mpr ⟨hnone, u.oldValues.overlay idx.objects, rfl, hobjects⟩
    exact (Attempt.bind_of_ok hold).trans (hrest hobjects)

omit h

/-- **Undo restores the index exactly when no key was taken.** After a session of successful
operations, undo succeeds with the objects and the next id from before the session if and only if
no object of the index agrees, on a unique key, with the former value of an object that has a
smaller id and is still there. -/
theorem undo_restores_iff (keys : List (α → κ)) (idx₀ idx : GenericIndex α)
    (ops : List (Operation α)) (hvalid : Valid keys idx₀)
    (hops : Attempt.each (Operation.exec keys) ops idx₀.startUndoSession = (.ok (), idx)) :
    (∃ idx', undo keys idx = (.ok (), idx') ∧ idx'.objects = idx₀.objects ∧
      idx'.nextId = idx₀.nextId) ↔ NoneTaken keys idx₀ idx := by
  obtain ⟨u, h⟩ := (Recorded.start hvalid).run hops
  constructor
  · rintro ⟨idx', hundo, -, -⟩
    exact (h.undo_eq_ok.mp hundo).1
  · intro hnone
    exact ⟨idx₀, h.undo_eq_ok.mpr ⟨hnone, rfl⟩, rfl, rfl⟩

def oneObject : GenericIndex Nat := { objects := Table.empty.insert 0 1, nextId := 1 }

theorem valid_oneObject : Valid [id] oneObject where
  lt i a ha := by
    rw [oneObject, Table.find_insert] at ha
    split_ifs at ha with hi
    · exact hi ▸ Nat.zero_lt_one
    · cases ha
  unique i j a b ha hb hne := by
    rw [oneObject, Table.find_insert] at ha hb
    split_ifs at ha hb with hi hj
    · exact absurd (hi.symm.trans hj) hne
    all_goals cases ha <;> cases hb

def twoFreshKeys : List (Operation Nat) := [.modify 0 (fun _ => 2), .emplace 3]

def keyHandedOver : List (Operation Nat) := [.modify 0 (fun _ => 2), .emplace 1]

def inSession (ops : List (Operation Nat)) : GenericIndex Nat :=
  (Attempt.each (Operation.exec [id]) ops oneObject.startUndoSession).2

theorem undo_restores_iff_twoFreshKeys :
    ∃ idx', undo [id] (inSession twoFreshKeys) = (.ok (), idx') ∧
      idx'.objects = oneObject.objects ∧ idx'.nextId = oneObject.nextId :=
  (undo_restores_iff [id] oneObject (inSession twoFreshKeys) twoFreshKeys valid_oneObject
    rfl).mpr (by decide)

/-- The operations succeed, but undo throws at the former key and the object is lost. -/
theorem undo_loses_object :
    Valid [id] oneObject ∧
    Attempt.each (Operation.exec [id]) keyHandedOver oneObject.startUndoSession =
      (.ok (), inSession keyHandedOver) ∧
    (undo [id] (inSession keyHandedOver)).1 = .error
      "Could not modify object, most likely a uniqueness constraint was violated" ∧
    oneObject.objects.find 0 = some 1 ∧
    (undo [id] (inSession keyHandedOver)).2.objects.find 0 = none :=
  ⟨valid_oneObject, rfl, rfl, rfl, rfl⟩

end GenericIndex

end BaccChain
