import BaccChain.Chain.ContractTables
import BaccChain.Chainbase.GenericIndex

/-!
# Snapshots: contract tables and permissions

For each contract table a snapshot holds the table object and then, for each of the six kinds of
rows, how many the table has and the rows, without ids.
-/

namespace BaccChain

open Commons

/-! ## Objects -/

/-- The tables in which rows are stored. -/
inductive RowKind
  | keyValue
  | index (kind : IndexKind)
  deriving DecidableEq

def RowKind.all : List RowKind :=
  [.keyValue, .index .index64, .index .index128, .index .index256, .index .indexDouble,
    .index .indexLongDouble]

/-- A row of a contract table. -/
structure ContractRow where
  tId : Nat
  primaryKey : Nat
  payer : Name
  data : List UInt8

/-- A permission as the database stores it, with the ids of its usage object and its parent. -/
structure StoredPermission where
  usageId : Nat := 0
  parent : Nat := 0
  owner : Name := 0
  name : Name := 0
  lastUpdated : Nat := 0
  auth : Authority := {}

/-- A permission as it is written. -/
structure SnapshotPermissionObject where
  parent : Name
  owner : Name
  name : Name
  lastUpdated : Nat
  lastUsed : Nat
  auth : Authority

/-- A row of the section of contract tables. -/
inductive SnapshotRow
  | table (t : TableIdObject)
  | size (n : UInt32)
  | row (kind : RowKind) (primaryKey : Nat) (payer : Name) (data : List UInt8)

/-- The part of the database that is written row by row. -/
structure StoredDb where
  tables : GenericIndex TableIdObject := {}
  rows : RowKind → GenericIndex ContractRow := fun _ => {}
  permissions : GenericIndex StoredPermission := {}
  /-- The time at which a permission was last used. -/
  usages : GenericIndex Nat := {}

def tableKeys : List (TableIdObject → Name × Name × Name) := [fun t => (t.code, t.scope, t.table)]

/-- The unique keys of rows. The key of a secondary index has these parts and one more. -/
def contractRowKeys : List (ContractRow → Nat × Nat) := [fun r => (r.tId, r.primaryKey)]

/-- The unique keys of permissions. The other keys have the id as a part. -/
def permissionKeys : List (StoredPermission → Name × Name) := [fun p => (p.owner, p.name)]

def usageKeys : List (Nat → Unit) := []

def GenericIndex.create {α κ : Type} [DecidableEq κ] (keys : List (α → κ)) (a : α)
    (idx : GenericIndex α) : Except String (GenericIndex α) :=
  (idx.emplace keys a).1.map fun _ => (idx.emplace keys a).2

namespace StoredDb

/-! ## Contract tables -/

/-- The rows of a table, in the order of their keys. -/
def walkRange (idx : GenericIndex ContractRow) (tid : Nat) : List (Nat × ContractRow) :=
  (idx.objects.entries.filter (·.2.tId = tid)).insertionSort
    fun a b => a.2.primaryKey ≤ b.2.primaryKey

/-- Their number, and then the rows. -/
def kindRows (db : StoredDb) (tid : Nat) (kind : RowKind) : List SnapshotRow :=
  .size (UInt32.ofNat (walkRange (db.rows kind) tid).length) ::
    (walkRange (db.rows kind) tid).map fun e => .row kind e.2.primaryKey e.2.payer e.2.data

def tableRows (db : StoredDb) (e : Nat × TableIdObject) : List SnapshotRow :=
  .table e.2 :: RowKind.all.flatMap (db.kindRows e.1)

/-- `add_contract_tables_to_snapshot`. -/
def addContractTablesToSnapshot (db : StoredDb) : List SnapshotRow :=
  db.tables.objects.entries.flatMap db.tableRows

/-- As many rows as announced. -/
def readRows (tid : Nat) (kind : RowKind) :
    Nat → StoredDb × List SnapshotRow → Except String (StoredDb × List SnapshotRow)
  | 0, s => pure s
  | n + 1, (db, .row kind' primaryKey payer data :: rest) =>
    if kind' = kind then do
      let idx ← (db.rows kind).create contractRowKeys { tId := tid, primaryKey, payer, data }
      readRows tid kind n ({ db with rows := Function.update db.rows kind idx }, rest)
    else .error "unexpected row"
  | _ + 1, _ => .error "unexpected row"

def readKind (tid : Nat) :
    StoredDb × List SnapshotRow → RowKind → Except String (StoredDb × List SnapshotRow)
  | (db, .size n :: rest), kind => readRows tid kind n.toNat (db, rest)
  | _, _ => .error "unexpected row"

/-- A table and its rows. -/
def readTable : StoredDb × List SnapshotRow → Except String (StoredDb × List SnapshotRow)
  | (db, .table t :: rest) => do
    let tables ← db.tables.create tableKeys t
    RowKind.all.foldlM (readKind db.tables.nextId) ({ db with tables }, rest)
  | _ => .error "unexpected row"

/-- Tables are read as long as there are rows. A table has rows of its own. -/
def readTables : Nat → StoredDb × List SnapshotRow → Except String StoredDb
  | 0, _ => .error "unexpected row"
  | n + 1, s => do
    let (db, rest) ← readTable s
    if rest.isEmpty then pure db else readTables n (db, rest)

/-- `read_contract_tables_from_snapshot`. -/
def readContractTablesFromSnapshot (db : StoredDb) (rows : List SnapshotRow) :
    Except String StoredDb :=
  if rows.isEmpty then pure db else readTables rows.length (db, rows)

/-! ## Permissions -/

def get {α : Type} (idx : GenericIndex α) (id : Nat) : Except String α :=
  match idx.objects.find id with
  | some a => pure a
  | none => .error "unknown key"

/-- The parent is written by name. -/
def toSnapshotRow (db : StoredDb) (value : StoredPermission) :
    Except String SnapshotPermissionObject := do
  let parent ← get db.permissions value.parent
  let lastUsed ← get db.usages value.usageId
  pure {
    parent := parent.name
    owner := value.owner
    name := value.name
    lastUpdated := value.lastUpdated
    lastUsed
    auth := value.auth }

def addPermissionsToSnapshot (db : StoredDb) : Except String (List SnapshotPermissionObject) :=
  db.permissions.objects.entries.mapM fun e => db.toSnapshotRow e.2

def findPermission (db : StoredDb) (owner name : Name) : Except String Nat :=
  match db.permissions.objects.entries.find? fun e => e.2.owner = owner ∧ e.2.name = name with
  | some e => pure e.1
  | none => .error "unknown key"

/-- The parent is looked up by name. -/
def readParent (db : StoredDb) (id : Nat) (row : SnapshotPermissionObject) : Except String Nat :=
  if id = 0 then do
    check (row.parent = 0) "Unexpected parent name on reserved permission 0"
    check (row.name = 0) "Unexpected permission name on reserved permission 0"
    check (row.owner = 0) "Unexpected owner name on reserved permission 0"
    check (row.auth.accounts.length = 0) "Unexpected auth accounts on reserved permission 0"
    check (row.auth.keys.length = 0) "Unexpected auth keys on reserved permission 0"
    check (row.auth.waits.length = 0) "Unexpected auth waits on reserved permission 0"
    check (row.auth.threshold = 0) "Unexpected auth threshold on reserved permission 0"
    check (row.lastUpdated = 0) "Unexpected auth last updated on reserved permission 0"
    pure 0
  else if row.parent ≠ 0 then do
    let parent ← db.findPermission row.owner row.parent
    check (parent ≠ 0) "Unexpected mapping to reserved permission 0"
    pure parent
  else pure 0

/-- A permission is created from a row, with a usage object of its own unless it is the reserved
one. -/
def fromSnapshotRow (db : StoredDb) (row : SnapshotPermissionObject) : Except String StoredDb := do
  let id := db.permissions.nextId
  let parent ← db.readParent id row
  let usages ← if id ≠ 0 then db.usages.create usageKeys row.lastUsed else pure db.usages
  let permissions ← db.permissions.create permissionKeys {
    usageId := if id ≠ 0 then db.usages.nextId else 0
    parent
    owner := row.owner
    name := row.name
    lastUpdated := row.lastUpdated
    auth := row.auth }
  pure { db with permissions, usages }

def readPermissionsFromSnapshot (db : StoredDb) (rows : List SnapshotPermissionObject) :
    Except String StoredDb :=
  rows.foldlM fromSnapshotRow db

/-! ## Both -/

/-- The two sections. -/
structure RowSections where
  contractTables : List SnapshotRow
  permissions : List SnapshotPermissionObject

def addToSnapshot (db : StoredDb) : Except String RowSections := do
  let permissions ← db.addPermissionsToSnapshot
  pure { contractTables := db.addContractTablesToSnapshot, permissions }

def readFromSnapshot (sections : RowSections) : Except String StoredDb := do
  let db ← readContractTablesFromSnapshot {} sections.contractTables
  db.readPermissionsFromSnapshot sections.permissions

end StoredDb

end BaccChain
