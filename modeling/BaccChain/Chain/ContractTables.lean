import BaccChain.Chain.ApplyContext
import BaccChain.Chain.Requests

/-!
# The tables of contracts

Rows and entries of secondary indices belong to a table object, which is made with the first of them
and removed with the last, and counts them in 32 bits.
-/

namespace BaccChain

open Commons

/-! ## Objects -/

/-- The secondary indices. -/
inductive IndexKind
  | index64
  | index128
  | index256
  | indexDouble
  | indexLongDouble
  deriving DecidableEq

namespace IndexKind

def keyBytes : IndexKind → Nat
  | index64 | indexDouble => 8
  | index128 | indexLongDouble => 16
  | index256 => 32

/-- What an entry is billed with: its fixed fields, its key and three indices of 32 bytes, rounded
up to a multiple of 16. -/
def billableSize (kind : IndexKind) : Int := ((24 + kind.keyBytes + 3 * 32 + 15) / 16 * 16 : Nat)

def toNat : IndexKind → Nat
  | index64 => 0
  | index128 => 1
  | index256 => 2
  | indexDouble => 3
  | indexLongDouble => 4

theorem toNat_injective : Function.Injective toNat := by
  intro a b h
  cases a <;> cases b <;> first | rfl | cases h

instance : LinearOrder IndexKind := LinearOrder.lift' toNat toNat_injective

end IndexKind

/-- A table of a contract, with the number of its rows. -/
structure TableIdObject where
  code : Name
  scope : Name
  table : Name
  payer : Name
  count : UInt32 := 0
  deriving DecidableEq

/-- A row of a table. -/
structure KeyValueObject where
  payer : Name
  value : List UInt8
  deriving DecidableEq

def KeyValueObject.billableSize (o : KeyValueObject) : Int := o.value.length + keyValueBytes

/-- An entry of a secondary index, with the bits of its key. -/
structure IndexObject where
  payer : Name
  secondaryKey : Nat
  deriving DecidableEq

/-- The tables of contracts, with what calls change otherwise. -/
structure TableState extends CallState where
  tableIds : Table Nat TableIdObject := .empty
  nextTableId : Nat := 0
  keyValues : Table (Nat ×ₗ Nat) KeyValueObject := .empty
  secondaries : Table (IndexKind ×ₗ Nat ×ₗ Nat) IndexObject := .empty

def rowKey (tid primaryKey : Nat) : Nat ×ₗ Nat := toLex (tid, primaryKey)

def entryKey (kind : IndexKind) (tid primaryKey : Nat) : IndexKind ×ₗ Nat ×ₗ Nat :=
  toLex (kind, toLex (tid, primaryKey))

namespace TableState

/-- `find_table`. -/
def findTable (s : TableState) (code scope table : Name) : Option Nat :=
  (s.tableIds.entries.find? fun t =>
    t.2.code = code ∧ t.2.scope = scope ∧ t.2.table = table).map Prod.fst

def getTable (s : TableState) (tid : Nat) : Except String TableIdObject :=
  match s.tableIds.find tid with
  | some t => pure t
  | none => .error "an invariant was broken, table should be in cache"

def getObject {κ α : Type} [LinearOrder κ] (objects : Table κ α) (key : κ) : Except String α :=
  match objects.find key with
  | some o => pure o
  | none => .error "dereference of deleted object"

def setTable (tid : Nat) (t : TableIdObject) (s : TableState) : TableState :=
  { s with tableIds := s.tableIds.insert tid t }

def eraseTable (tid : Nat) (s : TableState) : TableState :=
  { s with tableIds := s.tableIds.erase tid }

def setRow (tid id : Nat) (o : KeyValueObject) (s : TableState) : TableState :=
  { s with keyValues := s.keyValues.insert (rowKey tid id) o }

def eraseRow (tid id : Nat) (s : TableState) : TableState :=
  { s with keyValues := s.keyValues.erase (rowKey tid id) }

def setEntry (kind : IndexKind) (tid id : Nat) (o : IndexObject) (s : TableState) : TableState :=
  { s with secondaries := s.secondaries.insert (entryKey kind tid id) o }

def eraseEntry (kind : IndexKind) (tid id : Nat) (s : TableState) : TableState :=
  { s with secondaries := s.secondaries.erase (entryKey kind tid id) }

def setCall (call : CallState) (s : TableState) : TableState := { s with toCallState := call }

/-- A table with the next id. -/
def createTable (t : TableIdObject) (s : TableState) : Except String (Nat × TableState) := do
  check (s.tableIds.find s.nextTableId = none) uniquenessViolated
  pure (s.nextTableId, { s.setTable s.nextTableId t with nextTableId := s.nextTableId + 1 })

end TableState

namespace TableIdObject

def incremented (t : TableIdObject) : TableIdObject := { t with count := t.count + 1 }

def decremented (t : TableIdObject) : TableIdObject := { t with count := t.count - 1 }

end TableIdObject

/-! ## Calls -/

namespace CallEnv

variable (e : CallEnv)

/-- More RAM of another account is used with its authority, and not during a notification if the
node does not allow that. -/
def checkDbUsage (payer : Name) (delta : Int) : Except String Unit :=
  if 0 < delta ∧ ¬ (e.privileged = true ∨ payer = e.receiver) then do
    check (e.control.isRamBillingInNotifyAllowed = true ∨ e.receiver = e.act.account)
      "Cannot charge RAM to other accounts during notify."
    e.requireAuthorization payer
  else pure ()

def updateDbUsage (payer : Name) (delta : Int) (s : TableState) : Except String TableState := do
  e.checkDbUsage payer delta
  let call ← addRamUsage payer delta s.toCallState
  pure (s.setCall call)

/-- `find_or_create_table`. -/
def findOrCreateTable (code scope table payer : Name) (s : TableState) :
    Except String (Nat × TableState) :=
  match s.findTable code scope table with
  | some tid => pure (tid, s)
  | none => do
    let s ← e.updateDbUsage payer tableIdBytes s
    s.createTable { code, scope, table, payer }

/-- `remove_table`. -/
def removeTable (tid : Nat) (t : TableIdObject) (s : TableState) : Except String TableState := do
  let s ← e.updateDbUsage t.payer (-tableIdBytes) s
  pure (s.eraseTable tid)

def releaseRow (tid : Nat) (t : TableIdObject) (s : TableState) : Except String TableState :=
  if t.decremented.count = 0 then e.removeTable tid t.decremented (s.setTable tid t.decremented)
  else pure (s.setTable tid t.decremented)

def rowPayer (payer old : Name) : Name := if payer = 0 then old else payer

/-- Another account pays for the row. -/
def movePayer (old payer : Name) (oldSize newSize : Int) (s : TableState) :
    Except String TableState := do
  let s ← e.updateDbUsage old (-oldSize) s
  e.updateDbUsage payer newSize s

/-! ### Rows -/

/-- `db_store_i64`. -/
def dbStoreI64 (code scope table payer : Name) (id : Nat) (value : List UInt8) (s : TableState) :
    Except String TableState := do
  let (tid, s) ← e.findOrCreateTable code scope table payer s
  check (payer ≠ 0) "must specify a valid account to pay for new record"
  check (s.keyValues.find (rowKey tid id) = none) uniquenessViolated
  let t ← s.getTable tid
  let o : KeyValueObject := { payer, value }
  e.updateDbUsage payer o.billableSize ((s.setTable tid t.incremented).setRow tid id o)

/-- What a modified row costs: the old payer is refunded and the new one billed, or the one payer is
billed for the difference. -/
def rebill (old new : KeyValueObject) (s : TableState) : Except String TableState :=
  if old.payer ≠ new.payer then
    e.movePayer old.payer new.payer old.billableSize new.billableSize s
  else if old.billableSize ≠ new.billableSize then
    e.updateDbUsage old.payer (new.billableSize - old.billableSize) s
  else pure s

/-- `db_update_i64`. -/
def dbUpdateI64 (tid id : Nat) (payer : Name) (value : List UInt8) (s : TableState) :
    Except String TableState := do
  let obj ← TableState.getObject s.keyValues (rowKey tid id)
  let t ← s.getTable tid
  check (t.code = e.receiver) "db access violation"
  let o : KeyValueObject := { payer := rowPayer payer obj.payer, value }
  let s ← e.rebill obj o s
  pure (s.setRow tid id o)

/-- `db_remove_i64`. -/
def dbRemoveI64 (tid id : Nat) (s : TableState) : Except String TableState := do
  let obj ← TableState.getObject s.keyValues (rowKey tid id)
  let t ← s.getTable tid
  check (t.code = e.receiver) "db access violation"
  let s ← e.updateDbUsage obj.payer (-obj.billableSize) s
  e.releaseRow tid t (s.eraseRow tid id)

/-! ### Entries of secondary indices -/

/-- `generic_index::store`. -/
def indexStore (kind : IndexKind) (scope table payer : Name) (id secondary : Nat)
    (s : TableState) : Except String TableState := do
  check (payer ≠ 0) "must specify a valid account to pay for new record"
  let (tid, s) ← e.findOrCreateTable e.receiver scope table payer s
  check (s.secondaries.find (entryKey kind tid id) = none) uniquenessViolated
  let t ← s.getTable tid
  e.updateDbUsage payer kind.billableSize
    ((s.setTable tid t.incremented).setEntry kind tid id ⟨payer, secondary⟩)

def rebillEntry (kind : IndexKind) (old new : IndexObject) (s : TableState) :
    Except String TableState :=
  if old.payer ≠ new.payer then
    e.movePayer old.payer new.payer kind.billableSize kind.billableSize s
  else pure s

/-- `generic_index::update`. -/
def indexUpdate (kind : IndexKind) (tid id : Nat) (payer : Name) (secondary : Nat)
    (s : TableState) : Except String TableState := do
  let obj ← TableState.getObject s.secondaries (entryKey kind tid id)
  let t ← s.getTable tid
  check (t.code = e.receiver) "db access violation"
  let o : IndexObject := ⟨rowPayer payer obj.payer, secondary⟩
  let s ← e.rebillEntry kind obj o s
  pure (s.setEntry kind tid id o)

/-- `generic_index::remove`. -/
def indexRemove (kind : IndexKind) (tid id : Nat) (s : TableState) : Except String TableState := do
  let obj ← TableState.getObject s.secondaries (entryKey kind tid id)
  let s ← e.updateDbUsage obj.payer (-kind.billableSize) s
  let t ← s.getTable tid
  check (t.code = e.receiver) "db access violation"
  e.releaseRow tid t (s.eraseEntry kind tid id)

end CallEnv

/-- The calls that change tables, by any receiver. -/
inductive TableOperation
  | dbStore (e : CallEnv) (code scope table payer : Name) (id : Nat) (value : List UInt8)
  | dbUpdate (e : CallEnv) (tid id : Nat) (payer : Name) (value : List UInt8)
  | dbRemove (e : CallEnv) (tid id : Nat)
  | indexStore (e : CallEnv) (kind : IndexKind) (scope table payer : Name) (id secondary : Nat)
  | indexUpdate (e : CallEnv) (kind : IndexKind) (tid id : Nat) (payer : Name) (secondary : Nat)
  | indexRemove (e : CallEnv) (kind : IndexKind) (tid id : Nat)

def TableOperation.exec : TableOperation → TableState → Except String TableState
  | .dbStore e code scope table payer id value, s => e.dbStoreI64 code scope table payer id value s
  | .dbUpdate e tid id payer value, s => e.dbUpdateI64 tid id payer value s
  | .dbRemove e tid id, s => e.dbRemoveI64 tid id s
  | .indexStore e kind scope table payer id secondary, s =>
    e.indexStore kind scope table payer id secondary s
  | .indexUpdate e kind tid id payer secondary, s => e.indexUpdate kind tid id payer secondary s
  | .indexRemove e kind tid id, s => e.indexRemove kind tid id s

end BaccChain
