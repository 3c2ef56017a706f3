import BaccChain.Chain.Action

/-!
# Native actions

The actions on accounts that the chain handles itself, `eosio_contract.cpp`: accounts are created,
and their code, interface, permissions and permission links change.

## Main definitions

* `NativeDb`, `handle`: the database and the actions on it
-/

namespace BaccChain

open Commons (Table Program check)
open Commons.Program (fail whenever bind_eq_ok exists_unit pure_eq_ok lift_eq_ok fail_ne_ok ite_run
  whenever_eq_ok)

/-! ## Authorities -/

/-- A key that counts for an authority. -/
structure KeyWeight where
  key : PublicKey
  weight : Nat

/-- A permission that counts for an authority. -/
structure PermissionLevelWeight where
  permission : PermissionLevel
  weight : Nat

/-- A delay that counts for an authority. -/
structure WaitWeight where
  waitSec : Nat
  weight : Nat

/-- What satisfies a permission: keys, permissions of accounts and delays whose weights reach the
threshold. -/
structure Authority where
  threshold : Nat := 0
  keys : List KeyWeight := []
  accounts : List PermissionLevelWeight := []
  waits : List WaitWeight := []

/-- The order of permission levels: by actor, then by permission. -/
def PermissionLevel.lt (p q : PermissionLevel) : Prop :=
  p.actor < q.actor ∨ (p.actor = q.actor ∧ p.permission < q.permission)

instance (p q : PermissionLevel) : Decidable (p.lt q) :=
  inferInstanceAs (Decidable (_ ∨ _))

/-- Keys, accounts and delays are sorted without repetition, delays are positive, and all weights
together reach a positive threshold. -/
def Authority.validate (auth : Authority) : Bool :=
  decide (auth.keys.length + auth.accounts.length + auth.waits.length ≤ 2 ^ 16) &&
  decide (auth.threshold ≠ 0) &&
  decide (auth.keys.IsChain (fun a b => a.key < b.key)) &&
  decide (auth.accounts.IsChain (fun a b => a.permission.lt b.permission)) &&
  decide (∀ w ∈ auth.waits.head?, w.waitSec ≠ 0) &&
  decide (auth.waits.IsChain (fun a b => a.waitSec < b.waitSec)) &&
  decide (auth.threshold ≤ (auth.keys.map (·.weight)).sum + (auth.accounts.map (·.weight)).sum +
    (auth.waits.map (·.weight)).sum)

/-- The billed size of the variable part of an authority; a serialised key has 34 bytes. -/
def Authority.billableSize (auth : Authority) : Int :=
  32 * auth.accounts.length + 16 * auth.waits.length + (16 + 34) * auth.keys.length

/-! ## The tables of the chain -/

/-- An account: its code with the code's hash, and its interface. -/
structure AccountObject where
  privileged : Bool := false
  lastCodeUpdate : Nat := 0
  codeVersion : Nat := 0
  creationDate : Nat := 0
  code : List UInt8 := []
  abi : List UInt8 := []

/-- `account_sequence_object`. -/
structure AccountSequence where
  codeSequence : Nat := 0
  abiSequence : Nat := 0

/-- A permission of an account; the parent is given by its id. -/
structure PermissionObject where
  id : Nat
  parent : Nat
  lastUpdated : Nat
  auth : Authority

/-- Accounts by name, permissions by owner and name, links by account, contract and action, and the
numbers of the on-chain configuration. -/
structure NativeDb where
  accounts : Table Name AccountObject := .empty
  sequences : Table Name AccountSequence := .empty
  permissions : Table (Name ×ₗ Name) PermissionObject := .empty
  nextPermissionId : Nat := 1
  links : Table (Name ×ₗ Name ×ₗ Name) Name := .empty
  configNum : Table Name Int := .empty

/-- What the handlers read: the authorizations of the action, the chain around it, and the RAM
usage of the accounts that have one on record. -/
structure NativeEnv where
  authorization : List PermissionLevel
  pendingBlockTime : Nat
  headBlockNum : Nat
  maxTransactionDelay : Nat
  enforceWhiteblacklist : Bool
  isProducingBlock : Bool
  keyBlacklisted : PublicKey → Bool
  sha256 : List UInt8 → Nat
  validateWasm : List UInt8 → Bool
  ramUsage : Name → Option Nat

def NativeEnv.HasAuth (e : NativeEnv) (n : Name) : Prop := ∃ p ∈ e.authorization, p.actor = n

instance (e : NativeEnv) (n : Name) : Decidable (e.HasAuth n) :=
  inferInstanceAs (Decidable (∃ p ∈ e.authorization, p.actor = n))

/-- What a native action changes. -/
structure NativeCtx where
  db : NativeDb
  ramDeltas : List (Name × Int) := []

/-- The native actions. -/
inductive NativeAction
  | newaccount (creator name : Name) (owner active : Authority)
  | setcode (account : Name) (vmtype vmversion : Nat) (code : List UInt8)
  | setabi (account : Name) (abi : List UInt8)
  | updateauth (account permission parent : Name) (auth : Authority)
  | deleteauth (account permission : Name)
  | linkauth (account code type requirement : Name)
  | unlinkauth (account code type : Name)

namespace Native

/-- The code of native actions. -/
abbrev NativeM (α : Type) : Type := Program NativeEnv NativeCtx α

/-! ## Shared parts -/

def eosAssert (p : Prop) [Decidable p] (msg : String) : NativeM Unit := liftM (check p msg)

/-- `require_authorization`. -/
def requireAuthorization (account : Name) : NativeM Unit := fun e c =>
  if e.HasAuth account then .ok ((), c) else .error "missing authority"

def readDb : NativeM NativeDb := fun _ c => .ok (c.db, c)
def readEnv : NativeM NativeEnv := fun e c => .ok (e, c)
def writeDb (db : NativeDb) : NativeM Unit := fun _ c => .ok ((), { c with db })

def getObject {α : Type} (o : Option α) (msg : String) : NativeM α :=
  match o with
  | some a => pure a
  | none => fail msg

/-- A usage can change by a number of bytes: it stays an unsigned number of 64 bits. No change needs
no record. -/
def Fits (usage : Option Nat) (delta : Int) : Prop :=
  delta ≠ 0 → ∃ u ∈ usage, (delta ≤ 0 ∨ (u : Int) + delta ≤ 2 ^ 64 - 1) ∧
    (0 ≤ delta ∨ 0 ≤ (u : Int) + delta)

def recordDelta (account : Name) (delta : Int) : NativeM Unit := fun _ c =>
  .ok ((), { c with ramDeltas := c.ramDeltas ++ [(account, delta)] })

/-- The bill for an account, whose usage is given as it is on record. -/
def addPendingRamUsage (usage : Option Nat) (account : Name) (delta : Int) : NativeM Unit := do
  whenever (delta ≠ 0) do
    let u ← getObject usage "unknown key"
    eosAssert (delta ≤ 0 ∨ (u : Int) + delta ≤ 2 ^ 64 - 1)
      "Ram usage delta would overflow UINT64_MAX"
    eosAssert (0 ≤ delta ∨ 0 ≤ (u : Int) + delta) "Ram usage delta would underflow UINT64_MAX"
  recordDelta account delta

/-- `add_ram_usage`. -/
def addRamUsage (account : Name) (delta : Int) : NativeM Unit := fun e c =>
  addPendingRamUsage (e.ramUsage account) account delta e c

def nameText (n : Name) : List Char :=
  ((nameChars 12 (n >>> 4) [(charmap[n &&& 0x0f]?).getD '.']).reverse.dropWhile (· = '.')).reverse

def startsWith (n : Name) (word : String) : Bool := word.toList.isPrefixOf (nameText n)

def overheadPerAccountRamBytes : Int := 2 * 1024
def setcodeRamBytesMultiplier : Int := 10

def permissionBytes : Int := 288
def permissionLinkBytes : Int := 144

def isOpenSetCode : Name := 6354768888308170752

/-- A gate is open from the block that the configuration gives for it on. -/
def isFuncHasOpen (e : NativeEnv) (db : NativeDb) (funcTyp : Name) : Bool :=
  match db.configNum.find funcTyp with
  | none => false
  | some openNum => 0 ≤ openNum ∧ openNum ≤ e.headBlockNum

/-- The account that pays for code: the system account while the gate is closed. -/
def payAccount (e : NativeEnv) (db : NativeDb) (account : Name) : Name :=
  if isFuncHasOpen e db isOpenSetCode then account else systemAccountName

/-- `find_permission`. -/
def findPermission (db : NativeDb) (level : PermissionLevel) :
    Except String (Option PermissionObject) := do
  check (level.actor ≠ 0 ∧ level.permission ≠ 0) "Failed to retrieve permission"
  return db.permissions.find (toLex (level.actor, level.permission))

def getPermission (db : NativeDb) (level : PermissionLevel) : Except String PermissionObject := do
  match ← findPermission db level with
  | some p => return p
  | none => .error "Failed to retrieve permission"

/-- The accounts and permissions that an authority names exist, and its keys are not
blacklisted. -/
def validateAuthorityPrecondition (auth : Authority) : NativeM Unit := do
  let db ← readDb
  let e ← readEnv
  liftM (auth.accounts.forM fun a => do
    check ((db.accounts.find a.permission.actor).isSome) "account does not exist"
    if a.permission.permission = ownerName ∨ a.permission.permission = activeName ∨
        a.permission.permission = eosioCodeName then return ()
    else match getPermission db a.permission with
      | .ok _ => return ()
      | .error _ => .error "permission does not exist")
  whenever (e.enforceWhiteblacklist ∧ e.isProducingBlock)
    (eosAssert (∀ k ∈ auth.keys, ¬ e.keyBlacklisted k.key) "public key is on the key blacklist")

/-- `create_permission`. -/
def createPermission (account name : Name) (parent : Nat) (auth : Authority) :
    NativeM PermissionObject := do
  let db ← readDb
  let e ← readEnv
  eosAssert (db.permissions.find (toLex (account, name))).isNone uniquenessViolated
  let p : PermissionObject :=
    { id := db.nextPermissionId, parent, lastUpdated := e.pendingBlockTime, auth }
  writeDb { db with
    permissions := db.permissions.insert (toLex (account, name)) p
    nextPermissionId := db.nextPermissionId + 1 }
  return p

/-! ## The handlers -/

/-- `apply_eosio_newaccount`. -/
def newaccount (creator name : Name) (owner active : Authority) : NativeM Unit := do
  requireAuthorization creator
  eosAssert owner.validate "Invalid owner authority"
  eosAssert active.validate "Invalid active authority"
  eosAssert (name ≠ 0) "account name cannot be empty"
  eosAssert ((nameText name).length ≤ 12) "account names can only be 12 chars long"
  let db ← readDb
  let e ← readEnv
  let c ← getObject (db.accounts.find creator) "unknown key"
  eosAssert (¬ c.privileged) "not support privileged accounts"
  whenever (creator ≠ systemAccountName ∧ creator ≠ producersAccountName ∧
      creator ≠ chainConfigName)
    (eosAssert (¬ startsWith name "noc." ∧ ¬ startsWith name "rank." ∧ ¬ startsWith name "bacc." ∧
      ¬ startsWith name "sys.") "only privileged accounts can have names that start with keep word")
  eosAssert (db.accounts.find name).isNone "Cannot create account, as that name is already taken"
  eosAssert (db.sequences.find name).isNone uniquenessViolated
  writeDb { db with
    accounts := db.accounts.insert name { creationDate := e.pendingBlockTime }
    sequences := db.sequences.insert name {} }
  validateAuthorityPrecondition owner
  validateAuthorityPrecondition active
  let ownerPermission ← createPermission name ownerName 0 owner
  let activePermission ← createPermission name activeName ownerPermission.id active
  -- the new account has a record from here on
  eosAssert (e.ramUsage name).isNone uniquenessViolated
  addPendingRamUsage (some 0) name (overheadPerAccountRamBytes + 2 * permissionBytes +
    ownerPermission.auth.billableSize + activePermission.auth.billableSize)

def codeId (e : NativeEnv) (code : List UInt8) : Nat := if code = [] then 0 else e.sha256 code

def billSize (account : Name) (oldSize newSize : Int) : NativeM Unit :=
  whenever (newSize ≠ oldSize) (addRamUsage account (newSize - oldSize))

/-- The handler computes the account that pays for the code, but does not ask for its
authorization. -/
def setcode (account : Name) (vmtype vmversion : Nat) (code : List UInt8) : NativeM Unit := do
  let db ← readDb
  let e ← readEnv
  eosAssert (vmtype = 0) "code should be 0"
  eosAssert (vmversion = 0) "version should be 0"
  eosAssert (code = [] ∨ e.validateWasm code) "the code is not valid"
  let a ← getObject (db.accounts.find account) "unknown key"
  eosAssert (a.codeVersion ≠ codeId e code) "contract is already running this version of code"
  let s ← getObject (db.sequences.find account) "unknown key"
  writeDb { db with
    accounts := db.accounts.insert account { a with
      lastCodeUpdate := e.pendingBlockTime, codeVersion := codeId e code, code }
    sequences := db.sequences.insert account
      { s with codeSequence := (s.codeSequence + 1) % 2 ^ 64 } }
  billSize (payAccount e db account) (a.code.length * setcodeRamBytesMultiplier)
    (code.length * setcodeRamBytesMultiplier)

/-- `apply_eosio_setabi`. -/
def setabi (account : Name) (abi : List UInt8) : NativeM Unit := do
  let db ← readDb
  let e ← readEnv
  requireAuthorization (payAccount e db account)
  let a ← getObject (db.accounts.find account) "unknown key"
  let s ← getObject (db.sequences.find account) "unknown key"
  writeDb { db with
    accounts := db.accounts.insert account { a with abi }
    sequences := db.sequences.insert account
      { s with abiSequence := (s.abiSequence + 1) % 2 ^ 64 } }
  billSize (payAccount e db account) a.abi.length abi.length

def checkUpdateauth (account permission parent : Name) (auth : Authority) : NativeM Unit := do
  let db ← readDb
  let e ← readEnv
  eosAssert (permission ≠ 0) "Cannot create authority with empty name"
  eosAssert (¬ startsWith permission "eosio.")
    "Permission names that start with 'eosio.' are reserved"
  eosAssert (¬ startsWith permission "noc.") "Permission names that start with 'noc.' are reserved"
  eosAssert (¬ startsWith permission "bacc.")
    "Permission names that start with 'bacc.' are reserved"
  eosAssert (permission ≠ parent) "Cannot set an authority as its own parent"
  let _ ← getObject (db.accounts.find account) "unknown key"
  eosAssert auth.validate "Invalid authority"
  whenever (permission = activeName)
    (eosAssert (parent = ownerName) "Cannot change active authority's parent from owner")
  (if permission = ownerName then eosAssert (parent = 0) "Cannot change owner authority's parent"
    else eosAssert (parent ≠ 0) "Only owner permission can have empty parent")
  eosAssert (∀ w ∈ auth.waits.getLast?, w.waitSec ≤ e.maxTransactionDelay)
    "Cannot set delay longer than max_transacton_delay"
  validateAuthorityPrecondition auth

/-- The id of the parent permission; the owner permission has none. -/
def parentId (db : NativeDb) (account permission parent : Name) : Except String Nat :=
  if permission = ownerName then return 0
  else do
    let p ← getPermission db ⟨account, parent⟩
    return p.id

/-- `apply_eosio_updateauth`. -/
def updateauth (account permission parent : Name) (auth : Authority) : NativeM Unit := do
  requireAuthorization account
  checkUpdateauth account permission parent auth
  let db ← readDb
  let e ← readEnv
  let found ← findPermission db ⟨account, permission⟩
  let parentId ← parentId db account permission parent
  match found with
  | some p => do
    eosAssert (parentId = p.parent) "Changing parent authority is not currently supported"
    writeDb { db with
      permissions := db.permissions.insert (toLex (account, permission))
        { p with auth, lastUpdated := e.pendingBlockTime } }
    addRamUsage account (auth.billableSize - p.auth.billableSize)
  | none => do
    let p ← createPermission account permission parentId auth
    addRamUsage account (permissionBytes + p.auth.billableSize)

/-- `apply_eosio_deleteauth`. -/
def deleteauth (account permission : Name) : NativeM Unit := do
  requireAuthorization account
  eosAssert (permission ≠ activeName) "Cannot delete active authority"
  eosAssert (permission ≠ ownerName) "Cannot delete owner authority"
  let db ← readDb
  eosAssert (∀ l ∈ db.links.entries, ¬ ((ofLex l.1).1 = account ∧ l.2 = permission))
    "Cannot delete a linked authority. Unlink the authority first."
  let p ← getPermission db ⟨account, permission⟩
  eosAssert (∀ q ∈ db.permissions.entries, q.2.parent ≠ p.id)
    "Cannot remove a permission which has children. Remove the children first."
  writeDb { db with permissions := db.permissions.erase (toLex (account, permission)) }
  addRamUsage account (-(permissionBytes + p.auth.billableSize))

/-- The required permission exists if some account has a permission of that name. -/
def linkauth (account code type requirement : Name) : NativeM Unit := do
  eosAssert (requirement ≠ 0) "Required permission cannot be empty"
  requireAuthorization account
  let db ← readDb
  eosAssert (db.accounts.find account).isSome "Failed to retrieve account"
  eosAssert (db.accounts.find code).isSome "Failed to retrieve code for account"
  whenever (requirement ≠ eosioAnyName)
    (eosAssert (∃ p ∈ db.permissions.entries, (ofLex p.1).2 = requirement)
      "Failed to retrieve permission")
  match db.links.find (toLex (account, toLex (code, type))) with
  | some required => do
    eosAssert (required ≠ requirement)
      "Attempting to update required authority, but new requirement is same as old"
    writeDb { db with links := db.links.insert (toLex (account, toLex (code, type))) requirement }
  | none => do
    writeDb { db with links := db.links.insert (toLex (account, toLex (code, type))) requirement }
    addRamUsage account permissionLinkBytes

/-- `apply_eosio_unlinkauth`. -/
def unlinkauth (account code type : Name) : NativeM Unit := do
  requireAuthorization account
  let db ← readDb
  eosAssert (db.links.find (toLex (account, toLex (code, type)))).isSome
    "Attempting to unlink authority, but no link found"
  addRamUsage account (-permissionLinkBytes)
  writeDb { db with links := db.links.erase (toLex (account, toLex (code, type))) }

/-- The handler of an action. -/
def handle : NativeAction → NativeM Unit
  | .newaccount creator name owner active => newaccount creator name owner active
  | .setcode account vmtype vmversion code => setcode account vmtype vmversion code
  | .setabi account abi => setabi account abi
  | .updateauth account permission parent auth => updateauth account permission parent auth
  | .deleteauth account permission => deleteauth account permission
  | .linkauth account code type requirement => linkauth account code type requirement
  | .unlinkauth account code type => unlinkauth account code type

/-- Execute an action: the tables it leaves, or the error that undoes it. -/
def exec (e : NativeEnv) (db : NativeDb) (act : NativeAction) : Except String NativeDb := do
  let r ← handle act e { db }
  return r.2.db

end Native

/-! ## What belongs to an account -/

/-- The code, interface, permissions and permission links of an account. -/
structure AccountView where
  code : Option (List UInt8 × Nat)
  abi : Option (List UInt8)
  permissions : Name → Option PermissionObject
  links : Name → Name → Option Name

def NativeDb.view (db : NativeDb) (account : Name) : AccountView where
  code := (db.accounts.find account).map fun a => (a.code, a.codeVersion)
  abi := (db.accounts.find account).map (·.abi)
  permissions := fun name => db.permissions.find (toLex (account, name))
  links := fun code type => db.links.find (toLex (account, toLex (code, type)))

def NativeAction.account : NativeAction → Name
  | .newaccount _ name _ _ => name
  | .setcode account _ _ _ | .setabi account _ | .updateauth account _ _ _ | .deleteauth account _
  | .linkauth account _ _ _ | .unlinkauth account _ _ => account

/-- The other accounts look as before. -/
def OnlyChanges (account : Name) (db db' : NativeDb) : Prop :=
  ∀ other, other ≠ account → db'.view other = db.view other

namespace OnlyChanges

variable {account : Name} {db db' db'' : NativeDb}

theorem trans (h : OnlyChanges account db db') (h' : OnlyChanges account db' db'') :
    OnlyChanges account db db'' := by
  intro other ho
  rw [h' other ho, h other ho]

theorem of_agree (haccounts : ∀ k, k ≠ account → db'.accounts.find k = db.accounts.find k)
    (hpermissions : ∀ k, (ofLex k).1 ≠ account → db'.permissions.find k = db.permissions.find k)
    (hlinks : ∀ k, (ofLex k).1 ≠ account → db'.links.find k = db.links.find k) :
    OnlyChanges account db db' := by
  intro other ho
  unfold NativeDb.view
  rw [haccounts other ho]
  congr 1
  · funext name
    exact hpermissions _ ho
  · funext code type
    exact hlinks _ ho

theorem insert_account (db : NativeDb) (account : Name) (a : AccountObject)
    (sequences : Table Name AccountSequence) :
    OnlyChanges account db { db with accounts := db.accounts.insert account a, sequences } := by
  apply of_agree
  · intro k hk
    exact (db.accounts.find_insert account k a).trans (if_neg (Ne.symm hk))
  · intro k _
    rfl
  · intro k _
    rfl

theorem insert_permission (db : NativeDb) (account name : Name) (p : PermissionObject) (id : Nat) :
    OnlyChanges account db { db with
      permissions := db.permissions.insert (toLex (account, name)) p, nextPermissionId := id } := by
  apply of_agree
  · intro k _
    rfl
  · intro k hk
    refine (db.permissions.find_insert _ k p).trans (if_neg ?_)
    rintro rfl
    exact hk rfl
  · intro k _
    rfl

theorem erase_permission (db : NativeDb) (account name : Name) :
    OnlyChanges account db
      { db with permissions := db.permissions.erase (toLex (account, name)) } := by
  apply of_agree
  · intro k _
    rfl
  · intro k hk
    refine (db.permissions.find_erase _ k).trans (if_neg ?_)
    rintro rfl
    exact hk rfl
  · intro k _
    rfl

theorem insert_link (db : NativeDb) (account code type required : Name) :
    OnlyChanges account db
      { db with links := db.links.insert (toLex (account, toLex (code, type))) required } := by
  apply of_agree
  · intro k _
    rfl
  · intro k _
    rfl
  · intro k hk
    refine (db.links.find_insert _ k required).trans (if_neg ?_)
    rintro rfl
    exact hk rfl

theorem erase_link (db : NativeDb) (account code type : Name) :
    OnlyChanges account db
      { db with links := db.links.erase (toLex (account, toLex (code, type))) } := by
  apply of_agree
  · intro k _
    rfl
  · intro k _
    rfl
  · intro k hk
    refine (db.links.find_erase _ k).trans (if_neg ?_)
    rintro rfl
    exact hk rfl

end OnlyChanges

/-! ## What a successful handler has done -/

namespace Native

variable {e : NativeEnv} {c c' : NativeCtx} {u : Unit}

variable {msg : String}

theorem eosAssert_eq_ok {p : Prop} [Decidable p] :
    eosAssert p msg e c = .ok (u, c') ↔ p ∧ c' = c := by
  rw [eosAssert, lift_eq_ok, Commons.check_eq_ok]

variable {account : Name}

theorem requireAuthorization_eq_ok :
    requireAuthorization account e c = .ok (u, c') ↔ e.HasAuth account ∧ c' = c := by
  unfold requireAuthorization
  split_ifs with h
  · simp [h, eq_comm]
  · simp [h]

variable {db : NativeDb}

theorem readDb_eq_ok : readDb e c = .ok (db, c') ↔ db = c.db ∧ c' = c := by
  simp [readDb, eq_comm]

theorem readEnv_eq_ok {e' : NativeEnv} : readEnv e c = .ok (e', c') ↔ e' = e ∧ c' = c := by
  simp [readEnv, eq_comm]

theorem writeDb_eq_ok : writeDb db e c = .ok (u, c') ↔ c' = { c with db } := by
  simp [writeDb, eq_comm]

theorem getObject_eq_ok {α : Type} {o : Option α} {a : α} :
    getObject o msg e c = .ok (a, c') ↔ o = some a ∧ c' = c := by
  cases o with
  | none => simp [getObject]
  | some =>
    unfold getObject
    rw [pure_eq_ok, Option.some_inj, eq_comm (a := a)]

theorem addPendingRamUsage_eq_ok {usage : Option Nat} {delta : Int} :
    addPendingRamUsage usage account delta e c = .ok (u, c') ↔ Fits usage delta ∧
      c' = { c with ramDeltas := c.ramDeltas ++ [(account, delta)] } := by
  have hrecord {c₁ : NativeCtx} : recordDelta account delta e c₁ = .ok (u, c') ↔
      c' = { c₁ with ramDeltas := c₁.ramDeltas ++ [(account, delta)] } := by
    simp [recordDelta, eq_comm]
  simp only [addPendingRamUsage, bind_eq_ok, exists_unit, whenever_eq_ok, getObject_eq_ok,
    eosAssert_eq_ok, hrecord, Fits]
  constructor
  · rintro ⟨_, ⟨hne, u, _, ⟨rfl, rfl⟩, _, ⟨hover, rfl⟩, hunder, rfl⟩ | ⟨hzero, rfl⟩, hc⟩
    · exact ⟨fun _ => ⟨u, rfl, hover, hunder⟩, hc⟩
    · exact ⟨fun hne => absurd hne hzero, hc⟩
  · rintro ⟨hfits, hc⟩
    refine ⟨c, ?_, hc⟩
    by_cases hne : delta ≠ 0
    · obtain ⟨u, hu, hover, hunder⟩ := hfits hne
      exact .inl ⟨hne, u, c, ⟨hu, rfl⟩, c, ⟨hover, rfl⟩, hunder, rfl⟩
    · exact .inr ⟨hne, rfl⟩

theorem addRamUsage_eq_ok {delta : Int} :
    addRamUsage account delta e c = .ok (u, c') ↔ Fits (e.ramUsage account) delta ∧
      c' = { c with ramDeltas := c.ramDeltas ++ [(account, delta)] } :=
  addPendingRamUsage_eq_ok

theorem validateAuthorityPrecondition_eq_ok {auth : Authority}
    (h : validateAuthorityPrecondition auth e c = .ok (u, c')) : c' = c := by
  simp only [validateAuthorityPrecondition, bind_eq_ok, readDb_eq_ok, readEnv_eq_ok, exists_unit,
    lift_eq_ok, whenever_eq_ok, eosAssert_eq_ok] at h
  obtain ⟨_, _, ⟨-, rfl⟩, _, _, ⟨-, rfl⟩, _, ⟨-, rfl⟩, ⟨-, -, h⟩ | ⟨-, h⟩⟩ := h
  · exact h
  · exact h

/-- The conditions under which the handler of `setcode` accepts code: none is about the
authorizations of the action. The account that pays can be billed for the change of the size. -/
structure AcceptsCode (e : NativeEnv) (db : NativeDb) (account : Name) (vmtype vmversion : Nat)
    (code : List UInt8) : Prop where
  vmtype_eq : vmtype = 0
  vmversion_eq : vmversion = 0
  valid : code = [] ∨ e.validateWasm code
  account_exists : ∃ a, db.accounts.find account = some a ∧ a.codeVersion ≠ codeId e code ∧
    Fits (e.ramUsage (payAccount e db account))
      (code.length * setcodeRamBytesMultiplier - a.code.length * setcodeRamBytesMultiplier)
  sequence_exists : ∃ s, db.sequences.find account = some s

theorem billSize_of_fits {oldSize newSize : Int}
    (h : Fits (e.ramUsage account) (newSize - oldSize)) (c : NativeCtx) :
    ∃ c', billSize account oldSize newSize e c = .ok ((), c') := by
  simp only [billSize, whenever_eq_ok, addRamUsage_eq_ok]
  by_cases hne : newSize ≠ oldSize
  · exact ⟨_, Or.inl ⟨hne, h, rfl⟩⟩
  · exact ⟨_, Or.inr ⟨hne, rfl⟩⟩

theorem setcode_total {vmtype vmversion : Nat} {code : List UInt8}
    (h : AcceptsCode e c.db account vmtype vmversion code) :
    ∃ c', setcode account vmtype vmversion code e c = .ok ((), c') := by
  obtain ⟨hvm, hversion, hvalid, ⟨a, ha, hne, hfits⟩, s, hs⟩ := h
  simp only [setcode, bind_eq_ok, exists_unit, eosAssert_eq_ok, readDb_eq_ok, readEnv_eq_ok,
    getObject_eq_ok, writeDb_eq_ok]
  obtain ⟨c', hc'⟩ := billSize_of_fits hfits _
  exact ⟨c', _, _, ⟨rfl, rfl⟩, _, _, ⟨rfl, rfl⟩, _, ⟨hvm, rfl⟩, _, ⟨hversion, rfl⟩, _,
    ⟨hvalid, rfl⟩, _, _, ⟨ha, rfl⟩, _, ⟨hne, rfl⟩, _, _, ⟨hs, rfl⟩, _, rfl, hc'⟩

theorem exec_eq_ok {db' : NativeDb} {act : NativeAction} :
    exec e db act = .ok db' ↔ ∃ c', handle act e { db } = .ok ((), c') ∧
    c'.db = db' := by
  unfold exec
  rw [Commons.bind_eq_ok]
  constructor
  · rintro ⟨⟨u, c'⟩, h, h'⟩
    exact ⟨c', h, (Commons.pure_eq_ok.mp h').symm⟩
  · rintro ⟨c', h, h'⟩
    exact ⟨((), c'), h, Commons.pure_eq_ok.mpr h'.symm⟩

end Native

end BaccChain
