import BaccChain.Chain.ContractTables
import BaccChain.Properties.ProducerValidator

/-!
# The ledger of contract tables

The calls on contract tables bill differences. What an account is billed in all is the size of the
rows, entries and table objects that it pays for.

## Main definitions

* `Accounted`: usage is the size of what is paid for

## Main results

* `contract_ram_ledger`: after every run of calls
* `counter_overflows`: a table with `2 ^ 32` rows
-/

namespace BaccChain

open Commons

namespace TableState

/-! ## What is billed, and what is counted -/

def entrySize (account : Name) (k : IndexKind ×ₗ Nat ×ₗ Nat) (i : IndexObject) : Int :=
  if i.payer = account then (ofLex k).1.billableSize else 0

/-- The size of all that an account pays for. -/
def billed (s : TableState) (account : Name) : Int :=
  (s.tableIds.sum fun _ t => if t.payer = account then tableIdBytes else 0) +
    (s.keyValues.sum fun _ o => if o.payer = account then o.billableSize else 0) +
    s.secondaries.sum (entrySize account)

def slack (s : TableState) (account : Name) : Int := s.usage account - s.billed account

def rowOf (tid : Nat) (k : Nat ×ₗ Nat) : Nat := if (ofLex k).1 = tid then 1 else 0

def entryOf (tid : Nat) (k : IndexKind ×ₗ Nat ×ₗ Nat) : Nat :=
  if (ofLex (ofLex k).2).1 = tid then 1 else 0

/-- The rows and entries of a table. -/
def rows (s : TableState) (tid : Nat) : Nat :=
  (s.keyValues.sum fun k _ => rowOf tid k) + s.secondaries.sum fun k _ => entryOf tid k

theorem entrySize_entryKey (account : Name) (kind : IndexKind) (tid id : Nat) (i : IndexObject) :
    entrySize account (entryKey kind tid id) i =
      if i.payer = account then kind.billableSize else 0 := rfl

theorem rowOf_rowKey (tid id k : Nat) : rowOf k (rowKey tid id) = if tid = k then 1 else 0 := rfl

theorem entryOf_entryKey (kind : IndexKind) (tid id k : Nat) :
    entryOf k (entryKey kind tid id) = if tid = k then 1 else 0 := rfl

def count (s : TableState) (tid : Nat) : Nat := (s.tableIds.find tid).elim 0 fun t => t.count.toNat

/-- The counter of every table is the number of its rows, and no table is empty. -/
structure Counted (s : TableState) : Prop where
  count : ∀ tid, s.count tid = s.rows tid
  nonempty : ∀ tid t, s.tableIds.find tid = some t → 0 < t.count.toNat

/-! ## Changes of the objects -/

section Changes

variable {s : TableState} {tid id : Nat} {kind : IndexKind} {t : TableIdObject}
  {o : KeyValueObject} {o₀ : Option KeyValueObject} {i : IndexObject} {i₀ : Option IndexObject}

/-- What an account pays for an object with a payer and a size, if there is one. -/
def share (object : Option (Name × Int)) (a : Name) : Int :=
  object.elim 0 fun o => if o.1 = a then o.2 else 0

/-- **A change of one object** of a table, which is not billed. -/
structure Changed (s s' : TableState) (tid : Nat) (old new : Option (Name × Int)) : Prop where
  tables : s'.tableIds = s.tableIds
  slack : ∀ a, s'.slack a = s.slack a + share old a - share new a
  rows : ∀ k, s'.rows k + (if tid = k then old.elim 0 fun _ => 1 else 0) =
    s.rows k + if tid = k then new.elim 0 fun _ => 1 else 0

theorem changed_setRow (h : s.keyValues.find (rowKey tid id) = o₀) :
    Changed s (s.setRow tid id o) tid (o₀.map fun o => (o.payer, o.billableSize))
      (some (o.payer, o.billableSize)) := by
  refine ⟨rfl, fun a => ?_, fun k => ?_⟩
  · have hsum := s.keyValues.sum_insert (fun _ o => if o.payer = a then o.billableSize else 0)
      (rowKey tid id) o
    rw [Table.weightAt, h] at hsum
    cases o₀ <;> simp [slack, billed, setRow, share] at hsum ⊢ <;> omega
  · have hsum := s.keyValues.sum_insert (fun j _ => rowOf k j) (rowKey tid id) o
    rw [Table.weightAt, h] at hsum
    cases o₀ <;> simp [rows, setRow, rowOf_rowKey] at hsum ⊢ <;> omega

theorem changed_eraseRow (h : s.keyValues.find (rowKey tid id) = some o) :
    Changed s (s.eraseRow tid id) tid (some (o.payer, o.billableSize)) none := by
  refine ⟨rfl, fun a => ?_, fun k => ?_⟩
  · have hsum := s.keyValues.sum_erase (fun _ o => if o.payer = a then o.billableSize else 0)
      (rowKey tid id)
    rw [Table.weightAt_of_find h] at hsum
    simp only [slack, billed, eraseRow, share, Option.elim]
    omega
  · have hsum := s.keyValues.sum_erase (fun j _ => rowOf k j) (rowKey tid id)
    rw [Table.weightAt_of_find h, rowOf_rowKey] at hsum
    simp only [rows, eraseRow, Option.elim, ite_self]
    omega

theorem changed_setEntry (h : s.secondaries.find (entryKey kind tid id) = i₀) :
    Changed s (s.setEntry kind tid id i) tid (i₀.map fun i => (i.payer, kind.billableSize))
      (some (i.payer, kind.billableSize)) := by
  refine ⟨rfl, fun a => ?_, fun k => ?_⟩
  · have hsum := s.secondaries.sum_insert (entrySize a) (entryKey kind tid id) i
    rw [Table.weightAt, h] at hsum
    cases i₀ <;> simp [slack, billed, setEntry, share, entrySize_entryKey] at hsum ⊢ <;> omega
  · have hsum := s.secondaries.sum_insert (fun j _ => entryOf k j) (entryKey kind tid id) i
    rw [Table.weightAt, h] at hsum
    cases i₀ <;> simp [rows, setEntry, entryOf_entryKey] at hsum ⊢ <;> omega

theorem changed_eraseEntry (h : s.secondaries.find (entryKey kind tid id) = some i) :
    Changed s (s.eraseEntry kind tid id) tid (some (i.payer, kind.billableSize)) none := by
  refine ⟨rfl, fun a => ?_, fun k => ?_⟩
  · have hsum := s.secondaries.sum_erase (entrySize a) (entryKey kind tid id)
    rw [Table.weightAt_of_find h, entrySize_entryKey] at hsum
    simp only [slack, billed, eraseEntry, share, Option.elim]
    omega
  · have hsum := s.secondaries.sum_erase (fun j _ => entryOf k j) (entryKey kind tid id)
    rw [Table.weightAt_of_find h, entryOf_entryKey] at hsum
    simp only [rows, eraseEntry, Option.elim, ite_self]
    omega

theorem slack_setTable {t₀ : Option TableIdObject} (h : s.tableIds.find tid = t₀) (a : Name) :
    (s.setTable tid t).slack a = s.slack a + share (t₀.map fun t => (t.payer, tableIdBytes)) a -
      share (some (t.payer, tableIdBytes)) a := by
  have hsum := s.tableIds.sum_insert (fun _ t => if t.payer = a then tableIdBytes else 0) tid t
  rw [Table.weightAt, h] at hsum
  cases t₀ <;> simp [slack, billed, setTable, share] at hsum ⊢ <;> omega

theorem slack_eraseTable (h : s.tableIds.find tid = some t) (a : Name) :
    (s.eraseTable tid).slack a = s.slack a + share (some (t.payer, tableIdBytes)) a := by
  have hsum := s.tableIds.sum_erase (fun _ t => if t.payer = a then tableIdBytes else 0) tid
  rw [Table.weightAt_of_find h] at hsum
  simp only [slack, billed, eraseTable, share, Option.elim]
  omega

end Changes

end TableState

open TableState

/-! ## The effects of the calls -/

namespace CallEnv

variable {e : CallEnv} {s s' : TableState} {tid : Nat}

theorem updateDbUsage_eq_ok {payer : Name} {delta : Int}
    (h : e.updateDbUsage payer delta s = .ok s') :
    ∃ call, s' = s.setCall call ∧ ∀ a, s'.slack a = s.slack a + share (some (payer, delta)) a := by
  simp only [updateDbUsage, ok_iff] at h
  obtain ⟨-, call, hcall, rfl⟩ := h
  refine ⟨call, rfl, fun a => ?_⟩
  have hbilled := (addRamUsage_eq_ok hcall).2 a
  simp only [slack, billed, setCall, share, Option.elim]
  omega

theorem share_neg {payer a : Name} {size : Int} :
    share (some (payer, -size)) a = -share (some (payer, size)) a := by
  simp only [share, Option.elim]
  split_ifs <;> omega

theorem movePayer_eq_ok {old payer : Name} {oldSize newSize : Int}
    (h : e.movePayer old payer oldSize newSize s = .ok s') :
    ∃ call, s' = s.setCall call ∧ ∀ a, s'.slack a =
      s.slack a - share (some (old, oldSize)) a + share (some (payer, newSize)) a := by
  simp only [movePayer, ok_iff] at h
  obtain ⟨s₁, h₁, h₂⟩ := h
  obtain ⟨call₁, rfl, hslack₁⟩ := updateDbUsage_eq_ok h₁
  obtain ⟨call₂, rfl, hslack₂⟩ := updateDbUsage_eq_ok h₂
  refine ⟨call₂, rfl, fun a => ?_⟩
  rw [hslack₂, hslack₁, share_neg, sub_eq_add_neg]

theorem getTable_eq_ok {t : TableIdObject} (h : s.getTable tid = .ok t) :
    s.tableIds.find tid = some t := by
  unfold getTable at h
  split at h
  · rename_i hfind
    rw [hfind, pure_eq_ok.mp h]
  · cases h

theorem getObject_eq_ok {κ α : Type} [LinearOrder κ] {objects : Table κ α} {key : κ} {o : α}
    (h : getObject objects key = .ok o) : objects.find key = some o := by
  unfold getObject at h
  split at h
  · rename_i hfind
    rw [hfind, pure_eq_ok.mp h]
  · cases h

theorem findOrCreateTable_eq_ok {code scope table payer : Name}
    (h : e.findOrCreateTable code scope table payer s = .ok (tid, s')) :
    (∀ a, s'.slack a = s.slack a) ∧ (∀ k, s'.rows k = s.rows k) ∧
      ∃ t, (s.findTable code scope table = some tid ∧ s.tableIds.find tid = some t ∧
            s'.tableIds = s.tableIds ∨
          s.tableIds.find tid = none ∧ t.count = 0 ∧ s'.tableIds = s.tableIds.insert tid t) := by
  unfold findOrCreateTable at h
  cases hfind : s.findTable code scope table with
  | some =>
    rw [hfind] at h
    obtain ⟨rfl, rfl⟩ := Prod.mk.inj (pure_eq_ok.mp h)
    obtain ⟨entry, hentry, rfl⟩ := Option.map_eq_some_iff.mp hfind
    have hmem := List.mem_of_find?_eq_some hentry
    exact ⟨fun _ => rfl, fun _ => rfl, entry.2,
      .inl ⟨rfl, Table.mem_entries_iff.mp hmem, rfl⟩⟩
  | none =>
    simp only [hfind, createTable, ok_iff, Prod.mk.injEq] at h
    obtain ⟨s₁, hbill, hnone, rfl, rfl⟩ := h
    obtain ⟨call, rfl, hslack⟩ := updateDbUsage_eq_ok hbill
    refine ⟨fun a => (slack_setTable hnone a).trans ?_, fun _ => rfl, _, .inr ⟨hnone, rfl, rfl⟩⟩
    rw [hslack]
    exact (add_sub_assoc _ _ _).trans (by simp [share])

theorem releaseRow_eq_ok {t : TableIdObject} (ht : s.tableIds.find tid = some t)
    (h : e.releaseRow tid t s = .ok s') :
    (∀ a, s'.slack a = s.slack a) ∧ (∀ k, s'.rows k = s.rows k) ∧
      ∀ k, s'.tableIds.find k = if tid = k then
        (if t.decremented.count = 0 then none else some t.decremented) else s.tableIds.find k := by
  have hset (a : Name) : (s.setTable tid t.decremented).slack a = s.slack a :=
    (slack_setTable ht a).trans (add_sub_cancel_right _ _)
  unfold releaseRow at h
  split_ifs at h with hlast
  · simp only [removeTable, ok_iff] at h
    obtain ⟨s₁, hbill, rfl⟩ := h
    obtain ⟨call, rfl, hslack⟩ := updateDbUsage_eq_ok hbill
    refine ⟨fun a => ?_, fun _ => rfl, fun k => ?_⟩
    · rw [slack_eraseTable (Table.find_insert_self s.tableIds tid t.decremented), hslack, hset,
        share_neg, neg_add_cancel_right]
    · rw [if_pos hlast]
      refine (Table.find_erase _ _ _).trans ?_
      split_ifs with hk
      · rfl
      · exact Table.find_insert_ne _ _ hk
  · obtain rfl := pure_eq_ok.mp h
    refine ⟨hset, fun _ => rfl, fun k => ?_⟩
    rw [if_neg hlast]
    exact s.tableIds.find_insert tid k _

end CallEnv

namespace TableOperation

def target (s : TableState) : TableOperation → Option Nat
  | .dbStore _ code scope table _ _ _ => s.findTable code scope table
  | .indexStore e _ scope table _ _ _ => s.findTable e.receiver scope table
  | _ => none

/-- The counter does not overflow. -/
def HasRoom (s : TableState) (op : TableOperation) : Prop :=
  ∀ tid ∈ op.target s, s.count tid + 1 < 2 ^ 32

/-- **The effects of the calls** on table objects and on the number of rows. -/
inductive Effect (op : TableOperation) (s s' : TableState) : Prop
  | stored {tid : Nat} {t : TableIdObject}
    (found : op.target s = some tid ∧ s.tableIds.find tid = some t ∨
      s.tableIds.find tid = none ∧ t.count = 0)
    (tables : ∀ k, s'.tableIds.find k =
      if tid = k then some t.incremented else s.tableIds.find k)
    (rows : ∀ k, s'.rows k = s.rows k + if tid = k then 1 else 0)
  | updated (tables : s'.tableIds = s.tableIds) (rows : ∀ k, s'.rows k = s.rows k)
  | removed {tid : Nat} {t : TableIdObject} (found : s.tableIds.find tid = some t)
    (tables : ∀ k, s'.tableIds.find k = if tid = k then
      (if t.decremented.count = 0 then none else some t.decremented) else s.tableIds.find k)
    (rows : ∀ k, s'.rows k + (if tid = k then 1 else 0) = s.rows k)

/-- A call bills what it changes. -/
structure Accounted (op : TableOperation) (s s' : TableState) : Prop where
  slack : ∀ a, s'.slack a = s.slack a
  effect : Effect op s s'

variable {op : TableOperation} {e : CallEnv} {s s' s₁ s₂ : TableState} {tid : Nat}
  {t : TableIdObject} {payer : Name} {size : Int}

theorem Accounted.of_store {code scope table : Name}
    (hopen : e.findOrCreateTable code scope table payer s = .ok (tid, s₁))
    (htarget : op.target s = s.findTable code scope table) (ht : s₁.getTable tid = .ok t)
    (hchanged : Changed (s₁.setTable tid t.incremented) s₂ tid none (some (payer, size)))
    (hbill : e.updateDbUsage payer size s₂ = .ok s') :
    Accounted op s s' := by
  obtain ⟨hslack₁, hrows₁, t₀, hfound⟩ := CallEnv.findOrCreateTable_eq_ok hopen
  obtain ⟨call, rfl, hslack⟩ := CallEnv.updateDbUsage_eq_ok hbill
  have ht := CallEnv.getTable_eq_ok ht
  have hfound' : (op.target s = some tid ∧ s.tableIds.find tid = some t ∨
      s.tableIds.find tid = none ∧ t.count = 0) ∧
      ∀ k, tid ≠ k → s₁.tableIds.find k = s.tableIds.find k := by
    rcases hfound with ⟨hfind, ht₀, hsame⟩ | ⟨hnone, hcount, hinsert⟩
    · rw [hsame] at ht ⊢
      exact ⟨.inl ⟨htarget.trans hfind, ht⟩, fun _ _ => rfl⟩
    · rw [hinsert, Table.find_insert_self] at ht
      obtain rfl := Option.some.inj ht
      rw [hinsert]
      exact ⟨.inr ⟨hnone, hcount⟩, fun k hk => Table.find_insert_ne _ _ hk⟩
  refine ⟨fun a => ?_, .stored hfound'.1 (fun k => ?_) fun k => ?_⟩
  · rw [hslack, hchanged.slack, slack_setTable ht, ← hslack₁]
    simp [share, TableIdObject.incremented]
  · refine (congrArg (Table.find · k) hchanged.tables).trans ((Table.find_insert _ _ _ _).trans ?_)
    split_ifs with hk
    · rfl
    · exact hfound'.2 k hk
  · rw [← hrows₁]
    exact Eq.trans (congrArg (s₂.rows k + ·) (ite_self 0).symm) (hchanged.rows k)

theorem Accounted.of_update {call : CallState} {old new : Name × Int}
    (hslack : ∀ a, (s.setCall call).slack a = s.slack a - share (some old) a + share (some new) a)
    (hchanged : Changed (s.setCall call) s' tid (some old) (some new)) :
    Accounted op s s' := by
  refine ⟨fun a => ?_, .updated hchanged.tables fun k => Nat.add_right_cancel (hchanged.rows k)⟩
  rw [hchanged.slack, hslack]
  omega

theorem Accounted.of_remove (hbill : e.updateDbUsage payer (-size) s = .ok s₁)
    (ht : s.getTable tid = .ok t) (hchanged : Changed s₁ s₂ tid (some (payer, size)) none)
    (h : e.releaseRow tid t s₂ = .ok s') : Accounted op s s' := by
  obtain ⟨call, rfl, hslack⟩ := CallEnv.updateDbUsage_eq_ok hbill
  have ht := CallEnv.getTable_eq_ok ht
  have htables : s₂.tableIds = s.tableIds := hchanged.tables
  obtain ⟨hslack', hrows, hfind⟩ := CallEnv.releaseRow_eq_ok (htables ▸ ht) h
  refine ⟨fun a => ?_, .removed ht (fun k => ?_) fun k => ?_⟩
  · rw [hslack', hchanged.slack, hslack, CallEnv.share_neg]
    simp [share]
  · rw [hfind, htables]
  · rw [hrows]
    exact (hchanged.rows k).trans (congrArg _ (ite_self _))

end TableOperation

open TableOperation

/-! ### Rows -/

namespace CallEnv

variable {e : CallEnv} {s s' : TableState} {tid id : Nat} {code scope table payer : Name}
  {value : List UInt8}

theorem dbStoreI64_spec (h : e.dbStoreI64 code scope table payer id value s = .ok s') :
    Accounted (.dbStore e code scope table payer id value) s s' := by
  simp only [dbStoreI64, ok_iff, Prod.exists] at h
  obtain ⟨tid, s₁, hopen, -, hnew, t, ht, hbill⟩ := h
  exact .of_store hopen rfl ht (changed_setRow (s := s₁.setTable tid _) hnew) hbill

theorem rebill_eq_ok {old new : KeyValueObject} (h : e.rebill old new s = .ok s') :
    ∃ call, s' = s.setCall call ∧ ∀ a, s'.slack a = s.slack a -
      share (some (old.payer, old.billableSize)) a +
        share (some (new.payer, new.billableSize)) a := by
  unfold rebill at h
  split_ifs at h with hpayer hsize
  · exact movePayer_eq_ok h
  · obtain ⟨call, rfl, hslack⟩ := updateDbUsage_eq_ok h
    refine ⟨call, rfl, fun a => ?_⟩
    rw [hslack, ← not_not.mp hpayer]
    simp only [share, Option.elim]
    split_ifs <;> omega
  · have hs := pure_eq_ok.mp h
    refine ⟨s.toCallState, by rw [← hs]; rfl, fun a => ?_⟩
    rw [← hs, ← not_not.mp hpayer, ← not_not.mp hsize, sub_add_cancel]

theorem dbUpdateI64_spec (h : e.dbUpdateI64 tid id payer value s = .ok s') :
    Accounted (.dbUpdate e tid id payer value) s s' := by
  simp only [dbUpdateI64, ok_iff] at h
  obtain ⟨obj, hobj, -, -, -, s₁, hbill, rfl⟩ := h
  obtain ⟨call, rfl, hslack⟩ := rebill_eq_ok hbill
  exact .of_update hslack (changed_setRow (s := s.setCall call) (getObject_eq_ok hobj))

theorem dbRemoveI64_spec (h : e.dbRemoveI64 tid id s = .ok s') :
    Accounted (.dbRemove e tid id) s s' := by
  simp only [dbRemoveI64, ok_iff] at h
  obtain ⟨obj, hobj, t, ht, -, s₁, hbill, h⟩ := h
  obtain ⟨call, rfl, -⟩ := updateDbUsage_eq_ok hbill
  exact .of_remove hbill ht (changed_eraseRow (s := s.setCall call) (getObject_eq_ok hobj)) h

/-! ### Entries of secondary indices -/

variable {kind : IndexKind} {secondary : Nat}

theorem indexStore_spec (h : e.indexStore kind scope table payer id secondary s = .ok s') :
    Accounted (.indexStore e kind scope table payer id secondary) s s' := by
  simp only [indexStore, ok_iff, Prod.exists] at h
  obtain ⟨-, tid, s₁, hopen, hnew, t, ht, hbill⟩ := h
  exact .of_store hopen rfl ht (changed_setEntry (s := s₁.setTable tid _) hnew) hbill

theorem rebillEntry_eq_ok {old new : IndexObject} (h : e.rebillEntry kind old new s = .ok s') :
    ∃ call, s' = s.setCall call ∧ ∀ a, s'.slack a = s.slack a -
      share (some (old.payer, kind.billableSize)) a +
        share (some (new.payer, kind.billableSize)) a := by
  unfold rebillEntry at h
  split_ifs at h with hpayer
  · exact movePayer_eq_ok h
  · have hs := pure_eq_ok.mp h
    refine ⟨s.toCallState, by rw [← hs]; rfl, fun a => ?_⟩
    rw [← hs, ← not_not.mp hpayer, sub_add_cancel]

theorem indexUpdate_spec (h : e.indexUpdate kind tid id payer secondary s = .ok s') :
    Accounted (.indexUpdate e kind tid id payer secondary) s s' := by
  simp only [indexUpdate, ok_iff] at h
  obtain ⟨obj, hobj, -, -, -, s₁, hbill, rfl⟩ := h
  obtain ⟨call, rfl, hslack⟩ := rebillEntry_eq_ok hbill
  exact .of_update hslack (changed_setEntry (s := s.setCall call) (getObject_eq_ok hobj))

theorem indexRemove_spec (h : e.indexRemove kind tid id s = .ok s') :
    Accounted (.indexRemove e kind tid id) s s' := by
  simp only [indexRemove, ok_iff] at h
  obtain ⟨obj, hobj, s₁, hbill, t, ht, -, h⟩ := h
  obtain ⟨call, rfl, -⟩ := updateDbUsage_eq_ok hbill
  exact .of_remove hbill ht (changed_eraseEntry (s := s.setCall call) (getObject_eq_ok hobj)) h

end CallEnv

namespace TableOperation

variable {op : TableOperation} {s s' : TableState}

theorem exec_spec (h : op.exec s = .ok s') : Accounted op s s' := by
  cases op with
  | dbStore => exact CallEnv.dbStoreI64_spec h
  | dbUpdate => exact CallEnv.dbUpdateI64_spec h
  | dbRemove => exact CallEnv.dbRemoveI64_spec h
  | indexStore => exact CallEnv.indexStore_spec h
  | indexUpdate => exact CallEnv.indexUpdate_spec h
  | indexRemove => exact CallEnv.indexRemove_spec h

/-! ## Counters -/

theorem counted_of_find {tid : Nat} {t' : Option TableIdObject} (hs : s.Counted)
    (htables : ∀ k, s'.tableIds.find k = if tid = k then t' else s.tableIds.find k)
    (hrows : ∀ k, tid ≠ k → s'.rows k = s.rows k)
    (hcount : t'.elim 0 (fun t => t.count.toNat) = s'.rows tid)
    (hpos : ∀ t ∈ t', 0 < t.count.toNat) : s'.Counted := by
  refine ⟨fun k => ?_, fun k t ht => ?_⟩
  · unfold TableState.count
    rw [htables]
    split_ifs with hk
    · rw [← hk]
      exact hcount
    · rw [hrows k hk]
      exact hs.count k
  · rw [htables] at ht
    split_ifs at ht with hk
    · exact hpos t ht
    · exact hs.nonempty k t ht

theorem Effect.counted (h : Effect op s s') (hs : s.Counted) (hroom : op.HasRoom s) :
    s'.Counted := by
  cases h with
  | @stored tid t found tables rows =>
    have hcount : s.count tid = t.count.toNat ∧ t.count.toNat + 1 < 2 ^ 32 := by
      rcases found with ⟨htarget, ht⟩ | ⟨hnone, hzero⟩
      · have hcount : s.count tid = t.count.toNat := by rw [TableState.count, ht]; rfl
        exact ⟨hcount, hcount ▸ hroom tid htarget⟩
      · rw [TableState.count, hnone, hzero]
        exact ⟨rfl, by decide⟩
    have hone : t.incremented.count.toNat = t.count.toNat + 1 := by
      rw [TableIdObject.incremented, UInt32.toNat_add]
      exact Nat.mod_eq_of_lt hcount.2
    refine counted_of_find hs tables (fun k hk => ?_) ?_ fun t' ht' => ?_
    · rw [rows, if_neg hk, add_zero]
    · rw [rows, if_pos rfl, ← hs.count, hcount.1]
      exact hone
    · cases ht'
      omega
  | updated tables rows =>
    refine ⟨fun k => ?_, fun k t' ht' => hs.nonempty k t' (tables ▸ ht')⟩
    rw [rows, ← hs.count, TableState.count, tables, TableState.count]
  | @removed tid t found tables rows =>
    have hpos : (1 : UInt32).toNat ≤ t.count.toNat := hs.nonempty tid t found
    have hone : t.decremented.count.toNat = t.count.toNat - 1 :=
      UInt32.toNat_sub_of_le _ _ (UInt32.le_iff_toNat_le.mpr hpos)
    have hcount : s.rows tid = t.count.toNat := by
      rw [← hs.count, TableState.count, found]
      rfl
    have hrows := rows tid
    rw [if_pos rfl, hcount] at hrows
    refine counted_of_find hs tables (fun k hk => ?_) ?_ fun t' ht' => ?_
    · rw [← rows, if_neg hk, add_zero]
    · split_ifs with hlast
      · rw [hlast] at hone
        change 0 = _ at hone
        change 0 = _
        omega
      · change t.decremented.count.toNat = _
        omega
    · split_ifs at ht' with hlast
      · cases ht'
      · cases ht'
        exact Nat.pos_of_ne_zero fun h => hlast (UInt32.toNat_inj.mp h)

end TableOperation

theorem TableState.Counted.isSome_iff {s : TableState} (hs : s.Counted) (tid : Nat) :
    (s.tableIds.find tid).isSome ↔ 0 < s.count tid := by
  unfold TableState.count
  cases hfind : s.tableIds.find tid with
  | none => exact ⟨fun h => absurd h Bool.false_ne_true, fun h => absurd h (lt_irrefl 0)⟩
  | some t => exact ⟨fun _ => hs.nonempty tid t hfind, fun _ => rfl⟩

/-- **The ledger of contract tables**. Along every sequence of calls, the usage of every account
changes as the sizes of what it pays for do. Counters stay equal to the number of rows, and a table
is there exactly if its counter is positive, if that was so at the start and no row is stored into a
table that has `2^32 - 1` already. -/
theorem contract_ram_ledger (s : TableState) (ops : List TableOperation) :
    let s' := run TableOperation.exec s ops
    (∀ account, s'.usage account - s.usage account = s'.billed account - s.billed account) ∧
      (s.Counted → Along TableOperation.exec TableOperation.HasRoom s ops →
        ∀ tid, s'.count tid = s'.rows tid ∧
          ((s'.tableIds.find tid).isSome ↔ 0 < s'.count tid)) := by
  intro s'
  constructor
  · intro account
    have hslack : s'.slack account = s.slack account :=
      run_induction (fun u => u.slack account = s.slack account)
        (fun _ _ _ hu _ hexec => ((exec_spec hexec).slack account).trans hu) rfl along_true
    unfold TableState.slack at hslack
    omega
  · intro hs hroom tid
    have hcounted : s'.Counted :=
      run_induction TableState.Counted
        (fun _ _ _ hu hroom hexec => (exec_spec hexec).effect.counted hu hroom) hs hroom
    exact ⟨hcounted.count tid, hcounted.isSome_iff tid⟩

def noTables : TableState where
  db := userAndContract
  ramUsage := (Table.empty.insert 5 0).insert 6 0

/-- The user pays for the first row, and the contract for an entry. -/
def storeAndRemove : List TableOperation :=
  [.dbStore userCall 5 1 1 6 0 [7, 7], .indexStore userCall .index64 1 1 5 0 3,
    .dbUpdate userCall 0 0 5 [7], .dbRemove userCall 0 0]

theorem counted_noTables : noTables.Counted :=
  ⟨fun _ => rfl, fun _ _ h => nomatch h⟩

/-- The user still pays for the table, and the contract for the entry. -/
theorem contract_ram_ledger_storeAndRemove :
    let s' := run TableOperation.exec noTables storeAndRemove
    s'.count 0 = 1 ∧ s'.rows 0 = 1 ∧ s'.usage 5 = 128 ∧ s'.usage 6 = 112 ∧
      s'.usage 6 - noTables.usage 6 = s'.billed 6 - noTables.billed 6 := by
  intro s'
  have hledger := contract_ram_ledger noTables storeAndRemove
  have hcount : s'.count 0 = 1 := by decide +kernel
  have hroom : Along TableOperation.exec TableOperation.HasRoom noTables storeAndRemove := by
    refine ⟨fun _ _ => ?_, fun _ _ => ?_, fun _ _ => ?_, fun _ _ => ?_, trivial⟩
    · exact fun _ h => nomatch h
    · intro tid htid
      have htarget : (TableOperation.indexStore userCall .index64 1 1 5 0 3).target
        (advance TableOperation.exec (.dbStore userCall 5 1 1 6 0 [7, 7]) noTables) = some 0 := by
        decide +kernel
      rw [htarget] at htid
      cases htid
      decide +kernel
    · exact fun _ h => nomatch h
    · exact fun _ h => nomatch h
  have hrows := ((hledger.2 counted_noTables hroom) 0).1
  refine ⟨hcount, hrows ▸ hcount, ?_, ?_, hledger.1 6⟩ <;> decide +kernel

/-! ## Overflow

A contract stores empty rows into one table. With `2^32` of them, its counter is `0`.
-/

def storeRow (id : Nat) : TableOperation := .dbStore userCall 5 1 1 5 id []

def contractTable (n : Nat) : TableIdObject :=
  { code := 5, scope := 1, table := 1, payer := 5, count := UInt32.ofNat n }

/-- A table with the rows `0` to `n - 1`. -/
structure Filled (s : TableState) (n : Nat) : Prop where
  table : s.tableIds.entries = [(0, contractTable n)]
  fresh : ∀ id, n ≤ id → s.keyValues.find (rowKey 0 id) = none
  rows : s.rows 0 = n
  usage : s.ramUsage.find 5 = some (112 * (n + 1))

theorem rowKey_ne {id id' : Nat} (h : id ≠ id') : rowKey 0 id ≠ rowKey 0 id' := fun hkey =>
  h (congrArg (fun k : Nat ×ₗ Nat => (ofLex k).2) hkey)

theorem filled_one : Filled (advance TableOperation.exec (storeRow 0) noTables) 1 where
  table := by decide +kernel
  fresh id hid :=
    Table.find_insert_ne Table.empty (⟨5, []⟩ : KeyValueObject) (rowKey_ne (by omega))
  rows := by decide +kernel
  usage := by decide +kernel

variable {s : TableState} {n : Nat}

theorem Filled.bill (h : Filled s n) (hn : n ≤ 2 ^ 32) :
    ∃ call : CallState, call.ramUsage.find 5 = some (112 * (n + 1 + 1)) ∧
      ∀ u : TableState, u.toCallState = s.toCallState →
        userCall.updateDbUsage 5 112 u = .ok (u.setCall call) := by
  have hroom : check ((112 : Int) ≤ 0 ∨ ((112 * (n + 1) : Nat) : Int) + 112 ≤ 2 ^ 64 - 1)
      "Ram usage delta would overflow UINT64_MAX" = .ok () := check_eq_ok.mpr (by omega)
  have hbill : CallEnv.addPendingRamUsage 5 112 s.ramUsage =
      .ok (s.ramUsage.insert 5 (112 * (n + 1 + 1))) := by
    rw [CallEnv.addPendingRamUsage, if_neg (by decide), h.usage]
    dsimp only
    rw [hroom]
    refine congrArg (fun bytes => Except.ok (s.ramUsage.insert 5 bytes)) ?_
    omega
  obtain ⟨call, hcall, hramUsage⟩ : ∃ call, CallEnv.addRamUsage 5 112 s.toCallState = .ok call ∧
      call.ramUsage = s.ramUsage.insert 5 (112 * (n + 1 + 1)) := by
    unfold CallEnv.addRamUsage
    rw [hbill]
    exact ⟨_, rfl, rfl⟩
  refine ⟨call, ?_, fun u hu => ?_⟩
  · rw [hramUsage, Table.find_insert_self]
  · unfold CallEnv.updateDbUsage
    rw [hu, hcall]
    rfl

theorem Filled.exec_storeRow (h : Filled s n) (hn : n ≤ 2 ^ 32) :
    ∃ s', (storeRow n).exec s = .ok s' ∧ Filled s' (n + 1) := by
  have hfind : s.findTable 5 1 1 = some 0 := by rw [TableState.findTable, h.table]; rfl
  have hopen : userCall.findOrCreateTable 5 1 1 5 s = .ok (0, s) := by
    rw [CallEnv.findOrCreateTable, hfind]
    rfl
  have htable : s.getTable 0 = .ok (contractTable n) := by
    rw [TableState.getTable, Table.find, h.table]
    rfl
  have hnew : check (s.keyValues.find (rowKey 0 n) = none) uniquenessViolated = .ok () :=
    check_eq_ok.mpr (h.fresh n le_rfl)
  have hcount : (contractTable n).incremented = contractTable (n + 1) := by
    unfold contractTable TableIdObject.incremented
    rw [UInt32.ofNat_add]
    rfl
  obtain ⟨call, husage, hbill⟩ := h.bill hn
  refine ⟨((s.setTable 0 (contractTable (n + 1))).setRow 0 n ⟨5, []⟩).setCall call, ?_, ?_⟩
  · change userCall.dbStoreI64 5 1 1 5 n [] s = _
    rw [CallEnv.dbStoreI64, hopen]
    simp only [ok_bind]
    rw [hnew, htable]
    simp only [ok_bind]
    rw [hcount]
    exact hbill _ rfl
  · refine ⟨?_, fun id hid => ?_, ?_, husage⟩
    · change Table.insertEntry 0 (contractTable (n + 1)) s.tableIds.entries = _
      rw [h.table]
      rfl
    · exact (Table.find_insert_ne _ _ (rowKey_ne (by omega))).trans (h.fresh id (by omega))
    · have hrows := (changed_setRow (s := s.setTable 0 (contractTable (n + 1)))
        (o := ⟨5, []⟩) (h.fresh n le_rfl)).rows 0
      exact hrows.trans (congrArg (· + 1) h.rows)

/-- **Counters overflow**: a run of `2^32` calls that store rows leaves a table whose counter is
`0`. -/
theorem counter_overflows : ∃ ops : List TableOperation,
    let s' := run TableOperation.exec noTables ops
    noTables.Counted ∧ s'.count 0 = 0 ∧ s'.rows 0 = 2 ^ 32 ∧ (s'.tableIds.find 0).isSome := by
  have hfilled (n : Nat) (hn : n < 2 ^ 32) : Filled
      (run TableOperation.exec noTables ((List.range (n + 1)).map storeRow)) (n + 1) := by
    induction n with
    | zero => exact filled_one
    | succ n ih =>
      obtain ⟨s', hexec, hs'⟩ := (ih (by omega)).exec_storeRow (by omega)
      rw [List.range_succ, List.map_append, run_append]
      rw [List.map_singleton, run_cons, run_nil, advance_of_ok hexec]
      exact hs'
  have hfull := hfilled (2 ^ 32 - 1) (by decide)
  refine ⟨_, counted_noTables, ?_, hfull.rows, ?_⟩
  · rw [TableState.count, Table.find, hfull.table]
    rfl
  · rw [Table.find, hfull.table]
    rfl

end BaccChain
