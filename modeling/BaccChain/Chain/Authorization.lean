import BaccChain.Chain.AuthorityChecker
import BaccChain.Chain.NodeControl

/-!
# The authorization manager

A permission is relevant for an action if it is the minimum permission that the actor has linked to
the action, or one above it.
-/

namespace BaccChain

open Commons

/-! ## Actions and transactions -/

/-- An action of any contract, with its packed arguments. -/
structure RawAction where
  account : Name
  name : Name
  authorization : List PermissionLevel := []
  data : List UInt8 := []
  deriving DecidableEq

/-- A `transaction` with its header. -/
structure FullTransaction where
  expiration : UInt32 := 0
  refBlockNum : UInt16 := 0
  refBlockPrefix : UInt32 := 0
  maxNetUsageWords : UInt32 := 0
  maxCpuUsageMs : UInt8 := 0
  delaySec : UInt32 := 0
  contextFreeActions : List RawAction := []
  actions : List RawAction := []
  transactionExtensions : List (UInt16 × List UInt8) := []
  deriving DecidableEq

/-- A transaction that waits in the database, packed. -/
structure GeneratedTransaction where
  trxId : Digest
  sender : Name
  senderId : Nat
  payer : Name
  delayUntil : Nat
  expiration : Nat
  published : Nat
  packedTrx : List UInt8
  deriving DecidableEq

/-- How actions and transactions are packed, as far as their fields are read, and the hash function
on packed transactions. -/
structure Codec where
  /-- The account, the permission and its parent. -/
  updateauth : List UInt8 → Except String (Name × Name × Name)
  /-- The account and the permission. -/
  deleteauth : List UInt8 → Except String (Name × Name)
  /-- The account, the contract and the type of action. -/
  linkauth : List UInt8 → Except String (Name × Name × Name)
  /-- The account, the contract and the type of action. -/
  unlinkauth : List UInt8 → Except String (Name × Name × Name)
  /-- The permission that cancels, and the transaction. -/
  canceldelay : List UInt8 → Except String (PermissionLevel × Digest)
  packTransaction : FullTransaction → List UInt8
  unpackTransaction : List UInt8 → Except String FullTransaction
  sha256 : List UInt8 → Digest

def FullTransaction.id (codec : Codec) (trx : FullTransaction) : Digest :=
  codec.sha256 (codec.packTransaction trx)

def updateauthName : Name := 15371467950649982976
def deleteauthName : Name := 5378050746259030016
def linkauthName : Name := 10063015651234021376
def unlinkauthName : Name := 15340080295291076608
def canceldelayName : Name := 4730614990712192000

namespace Authorization

open Native (findPermission getPermission)

/-! ## Permissions -/

/-- What the permissions of the database answer. -/
def permissionTable (db : NativeDb) : PermissionTable where
  authority p :=
    if p.actor ≠ 0 ∧ p.permission ≠ 0 then
      (db.permissions.find (toLex (p.actor, p.permission))).map (·.auth)
    else none
  named h := by
    split_ifs at h with hp
    exact hp

/-- The parent of the permission with an id. The permission with the id 0 is reserved, and is its
own parent. -/
def parentOf (db : NativeDb) (id : Nat) : Nat :=
  ((db.permissions.entries.find? (·.2.id = id)).map (·.2.parent)).getD 0

/-- Up the parents of a permission, to the permission with an id. -/
def climbsTo (db : NativeDb) (id : Nat) : Nat → Nat → Bool
  | 0, _ => false
  | n + 1, parent =>
    if id = parentOf db parent then true
    else if parentOf db parent = 0 then false
    else climbsTo db id n (parentOf db parent)

/-- A permission of an account is another one of the account, or is above it. -/
def satisfies (db : NativeDb) (owner : Name) (p : PermissionObject) (otherOwner : Name)
    (other : PermissionObject) : Bool :=
  if owner ≠ otherOwner then false
  else if p.id = other.id ∨ p.id = other.parent then true
  else climbsTo db p.id (db.permissions.entries.length + 1) other.parent

/-! The check again, with the objects that it looks up: the pointer that an unsuccessful lookup
gives is followed all the same, and the loop need not end. -/

/-- Why the walk to the root of a permission fails. -/
inductive WalkFailure
  | missingObject
  | unfinished
  deriving DecidableEq

def reservedPermission : PermissionObject :=
  { id := 0, parent := 0, lastUpdated := 0, auth := { threshold := 0 } }

def permissionById (db : NativeDb) (id : Nat) : Except WalkFailure PermissionObject :=
  if id = 0 then .ok reservedPermission
  else match db.permissions.entries.find? (·.2.id = id) with
    | some p => .ok p.2
    | none => .error .missingObject

def climb (db : NativeDb) (id : Nat) : Nat → PermissionObject → Except WalkFailure Bool
  | 0, _ => .error .unfinished
  | n + 1, parent =>
    if id = parent.parent then .ok true
    else if parent.parent = 0 then .ok false
    else do climb db id n (← permissionById db parent.parent)

def satisfiesSteps (db : NativeDb) (rounds : Nat) (owner : Name) (p : PermissionObject)
    (otherOwner : Name) (other : PermissionObject) : Except WalkFailure Bool :=
  if owner ≠ otherOwner then .ok false
  else if p.id = other.id ∨ p.id = other.parent then .ok true
  else do climb db p.id rounds (← permissionById db other.parent)

/-- The declared permission is the minimum permission, or is above it. -/
def requireSatisfies (db : NativeDb) (auth min : PermissionLevel) (msg : String) :
    Except String Unit := do
  let minPermission ← getPermission db min
  let permission ← getPermission db auth
  check (satisfies db auth.actor permission min.actor minPermission = true) msg

/-- The permission that the actor has linked to the action, or to the whole contract. -/
def lookupLinkedPermission (db : NativeDb) (authorizerAccount scope actName : Name) : Option Name :=
  match db.links.find (toLex (authorizerAccount, toLex (scope, actName))) with
  | some linked => some linked
  | none => db.links.find (toLex (authorizerAccount, toLex (scope, 0)))

/-- The permission that an actor needs at least for an action, if it needs any. -/
def lookupMinimumPermission (db : NativeDb) (authorizerAccount scope actName : Name) :
    Except String (Option Name) := do
  check (scope = systemAccountName → actName ≠ updateauthName ∧ actName ≠ deleteauthName ∧
      actName ≠ linkauthName ∧ actName ≠ unlinkauthName ∧ actName ≠ canceldelayName)
    "cannot call lookup_minimum_permission on native actions that are not allowed to be linked to minimum permissions"
  match lookupLinkedPermission db authorizerAccount scope actName with
  | none => pure (some activeName)
  | some linked => pure (if linked = eosioAnyName then none else some linked)

/-! ## The actions on permissions -/

def onlyAuth (auths : List PermissionLevel) (msg : String) : Except String PermissionLevel :=
  match auths with
  | [auth] => .ok auth
  | _ => .error msg

def checkUpdateauthAuthorization (db : NativeDb) (account permission parent : Name)
    (auths : List PermissionLevel) : Except String Unit := do
  let auth ← onlyAuth auths "updateauth action should only have one declared authorization"
  check (auth.actor = account)
    "the owner of the affected permission needs to be the actor of the declared authorization"
  -- a new permission needs its parent
  let min : PermissionLevel := match ← findPermission db ⟨account, permission⟩ with
    | some _ => ⟨account, permission⟩
    | none => ⟨account, parent⟩
  requireSatisfies db auth min "updateauth action declares irrelevant authority"

def checkDeleteauthAuthorization (db : NativeDb) (account permission : Name)
    (auths : List PermissionLevel) : Except String Unit := do
  let auth ← onlyAuth auths "deleteauth action should only have one declared authorization"
  check (auth.actor = account)
    "the owner of the permission to delete needs to be the actor of the declared authorization"
  requireSatisfies db auth ⟨account, permission⟩ "updateauth action declares irrelevant authority"

def checkLinkauthAuthorization (db : NativeDb) (account code type : Name)
    (auths : List PermissionLevel) : Except String Unit := do
  let auth ← onlyAuth auths "link action should only have one declared authorization"
  check (auth.actor = account)
    "the owner of the linked permission needs to be the actor of the declared authorization"
  check (type ≠ updateauthName) "Cannot link eosio::updateauth to a minimum permission"
  check (type ≠ deleteauthName) "Cannot link eosio::deleteauth to a minimum permission"
  check (type ≠ linkauthName) "Cannot link eosio::linkauth to a minimum permission"
  check (type ≠ unlinkauthName) "Cannot link eosio::unlinkauth to a minimum permission"
  check (type ≠ canceldelayName) "Cannot link eosio::canceldelay to a minimum permission"
  match ← lookupMinimumPermission db account code type with
  | none => pure ()
  | some linked =>
    requireSatisfies db auth ⟨account, linked⟩ "link action declares irrelevant authority"

def checkUnlinkauthAuthorization (db : NativeDb) (account code type : Name)
    (auths : List PermissionLevel) : Except String Unit := do
  let auth ← onlyAuth auths "unlink action should only have one declared authorization"
  check (auth.actor = account)
    "the owner of the linked permission needs to be the actor of the declared authorization"
  match lookupLinkedPermission db account code type with
  | none => .error "cannot unlink non-existent permission link of account"
  | some unlinked =>
    if unlinked = eosioAnyName then pure ()
    else requireSatisfies db auth ⟨account, unlinked⟩ "unlink action declares irrelevant authority"

/-- The delay of the transaction that is canceled, which has no sender and declares the permission
that cancels. -/
def checkCanceldelayAuthorization (codec : Codec) (db : NativeDb)
    (generated : List GeneratedTransaction) (cancelingAuth : PermissionLevel) (trxId : Digest)
    (auths : List PermissionLevel) : Except String Int := do
  let auth ← onlyAuth auths "canceldelay action should only have one declared authorization"
  requireSatisfies db auth cancelingAuth "canceldelay action declares irrelevant authority"
  match generated.find? (·.trxId = trxId) with
  | none => .error "cannot cancel trx_id, there is no deferred transaction with that transaction id"
  | some gto => do
    check (gto.sender = 0)
      "cannot cancel trx_id, there is no deferred transaction with that transaction id"
    let trx ← codec.unpackTransaction gto.packedTrx
    check (∃ act ∈ trx.actions, cancelingAuth ∈ act.authorization)
      "canceling_auth in canceldelay action was not found as authorization in the original delayed transaction"
    pure ((gto.delayUntil : Int) - gto.published)

/-! ## Actions -/

/-- The declared permissions of an action of a contract are relevant. -/
def checkRelevant (db : NativeDb) (act : RawAction) : Except String Unit :=
  act.authorization.forM fun declared => do
    match ← lookupMinimumPermission db declared.actor act.account act.name with
    | none => pure ()
    | some min =>
      requireSatisfies db declared ⟨declared.actor, min⟩ "action declares irrelevant authority"

/-- The declared permissions of an action are relevant: what is left is to satisfy them. -/
def checkDeclared (codec : Codec) (db : NativeDb) (generated : List GeneratedTransaction)
    (act : RawAction) : Except String DeclaredAction := do
  if act.account ≠ systemAccountName then
    checkRelevant db act
    pure { authorization := act.authorization }
  else if act.name = updateauthName then
    let (account, permission, parent) ← codec.updateauth act.data
    checkUpdateauthAuthorization db account permission parent act.authorization
    pure { authorization := act.authorization }
  else if act.name = deleteauthName then
    let (account, permission) ← codec.deleteauth act.data
    checkDeleteauthAuthorization db account permission act.authorization
    pure { authorization := act.authorization }
  else if act.name = linkauthName then
    let (account, code, type) ← codec.linkauth act.data
    checkLinkauthAuthorization db account code type act.authorization
    pure { authorization := act.authorization }
  else if act.name = unlinkauthName then
    let (account, code, type) ← codec.unlinkauth act.data
    checkUnlinkauthAuthorization db account code type act.authorization
    pure { authorization := act.authorization }
  else if act.name = canceldelayName then
    let (cancelingAuth, trxId) ← codec.canceldelay act.data
    let delay ← checkCanceldelayAuthorization codec db generated cancelingAuth trxId
      act.authorization
    pure { authorization := act.authorization, canceledDelay := some delay }
  else
    checkRelevant db act
    pure { authorization := act.authorization }

/-- The permissions that actions declare are relevant and satisfied. -/
def checkAuthorization (codec : Codec) (ctl : Control) (db : NativeDb)
    (generated : List GeneratedTransaction) (actions : List RawAction)
    (providedKeys : List PublicKey) (providedPermissions : List PermissionLevel)
    (providedDelay : Int) (allowUnusedKeys : Bool)
    (satisfiedAuthorizations : List PermissionLevel) : Except String Unit := do
  let declared ← actions.mapM (checkDeclared codec db generated)
  let usedKeys ← checkAuthorities (permissionTable db) ctl.maxAuthorityDepth
    (ctl.maxTransactionDelay * 1000000) declared providedKeys providedPermissions providedDelay
    satisfiedAuthorizations
  check (allowUnusedKeys = true ∨ ∀ k ∈ providedKeys, usedKeys k = true)
    "transaction bears irrelevant signatures from these keys"

end Authorization

end BaccChain
