import BaccChain.Chain.Authorization

/-!
# Inline actions and deferred transactions

The permissions that an inline action or a deferred transaction declares have to be satisfied by the
contract's own permission.
-/

namespace BaccChain

open Commons

/-- What a call reads: the controller, the receiver and the action that it handles, and parts of the
transaction. -/
structure CallEnv where
  control : Control
  receiver : Name
  act : RawAction
  privileged : Bool := false
  enforceWhiteblacklist : Bool := true
  published : Nat
  eagerNetLimit : Nat
  netLimitDueToBlock : Bool := false
  netLimitDueToGreylist : Bool := false

/-- What a contract changes with its requests. -/
structure CallState where
  db : NativeDb
  generated : List GeneratedTransaction := []
  ramUsage : Table Name Nat := .empty
  validateRamUsage : FlatSet Name := .empty
  accountRamDeltas : Table Name Int := .empty
  netUsage : Nat := 0
  inlineActions : List RawAction := []

namespace CallEnv

variable (e : CallEnv)

/-! ## Usage -/

def checkNetUsage (netUsage : Nat) : Except String Unit :=
  if e.control.skipTrxChecks = true ∨ netUsage ≤ e.eagerNetLimit then pure ()
  else if e.netLimitDueToBlock then .error "not enough space left in block"
  else if e.netLimitDueToGreylist then .error "greylisted transaction net usage is too high"
  else .error "transaction net usage is too high"

def addNetUsage (u : Nat) (s : CallState) : Except String CallState := do
  let netUsage := (s.netUsage + u) % 2 ^ 64
  checkNetUsage e netUsage
  pure { s with netUsage }

/-- `add_pending_ram_usage`. -/
def addPendingRamUsage (account : Name) (delta : Int) (ramUsage : Table Name Nat) :
    Except String (Table Name Nat) :=
  if delta = 0 then pure ramUsage
  else
    match ramUsage.find account with
    | none => .error "unknown key"
    | some usage => do
      check (delta ≤ 0 ∨ (usage : Int) + delta ≤ 2 ^ 64 - 1)
        "Ram usage delta would overflow UINT64_MAX"
      check (0 ≤ delta ∨ 0 ≤ (usage : Int) + delta) "Ram usage delta would underflow UINT64_MAX"
      pure (ramUsage.insert account ((usage : Int) + delta).toNat)

def addRamUsage (account : Name) (delta : Int) (s : CallState) : Except String CallState := do
  let ramUsage ← addPendingRamUsage account delta s.ramUsage
  pure { s with
    ramUsage
    validateRamUsage := if 0 < delta then s.validateRamUsage.insert account else s.validateRamUsage
    accountRamDeltas := s.accountRamDeltas.insert account
      (((s.accountRamDeltas.find account).getD 0) + delta) }

def requireAuthorization (account : Name) : Except String Unit :=
  check (∃ p ∈ e.act.authorization, p.actor = account) "missing authority"

/-! ### What is billed -/

end CallEnv

def CallState.usage (s : CallState) (account : Name) : Int :=
  s.ramUsage.weightAt (fun _ bytes => (bytes : Int)) account

def CallState.Billed (s s' : CallState) (payer : Name) (size : Int) : Prop :=
  ∀ account, s'.usage account = s.usage account + if payer = account then size else 0

namespace CallEnv

theorem addPendingRamUsage_eq_ok {account : Name} {delta : Int} {t t' : Table Name Nat}
    (h : addPendingRamUsage account delta t = .ok t') (p : Name) :
    t'.weightAt (fun _ bytes => (bytes : Int)) p =
      t.weightAt (fun _ bytes => (bytes : Int)) p + if account = p then delta else 0 := by
  unfold addPendingRamUsage at h
  split_ifs at h with hzero
  · obtain rfl := pure_eq_ok.mp h
    rw [hzero, ite_self, add_zero]
  cases hfind : t.find account with
  | none =>
    rw [hfind] at h
    cases h
  | some usage =>
    rw [hfind] at h
    obtain ⟨-, -, h⟩ := bind_eq_ok.mp h
    obtain ⟨_, hunder, h⟩ := bind_eq_ok.mp h
    obtain rfl := pure_eq_ok.mp h
    have hnonneg : 0 ≤ (usage : Int) + delta := by
      rcases check_eq_ok.mp hunder with hdelta | hsum
      · omega
      · exact hsum
    unfold Table.weightAt
    rw [Table.find_insert]
    split_ifs with hp
    · rw [← hp, hfind]
      exact Int.toNat_of_nonneg hnonneg
    · exact (add_zero _).symm

theorem addRamUsage_eq_ok {account : Name} {delta : Int} {s s' : CallState}
    (h : addRamUsage account delta s = .ok s') :
    s'.generated = s.generated ∧ s.Billed s' account delta := by
  obtain ⟨ramUsage, hram, hret⟩ := bind_eq_ok.mp h
  obtain rfl := pure_eq_ok.mp hret
  exact ⟨rfl, fun p => addPendingRamUsage_eq_ok hram p⟩

open Authorization
open Native (findPermission)

variable (codec : Codec) (e : CallEnv)

/-! ## Inline actions -/

/-- The actors of the declared permissions exist, and so do the permissions. -/
def checkAuthorizers (db : NativeDb) (auths : List PermissionLevel)
    (noActor noPermission : String) :
    Except String Unit :=
  auths.forM fun auth => do
    check ((db.accounts.find auth.actor).isSome) noActor
    check ((← findPermission db auth).isSome) noPermission

def actorsOf (auths : List PermissionLevel) : FlatSet Name :=
  FlatSet.empty.insertAll (auths.map (·.actor))

/-- The declared permissions that the parent action has too, where they count. -/
def inheritedAuthorizations (a : RawAction) : List PermissionLevel :=
  if a.account = e.receiver ∧ e.receiver = e.act.account ∧ e.control.isProducingBlock = true then
    a.authorization.filter (· ∈ e.act.authorization)
  else []

/-- What is thrown when an authority check fails: nothing if the contract sends to itself and the
node does not produce the block. -/
def onAuthorizationFailure (toSelf : Bool) (subjective : String) (x : Except String Unit) :
    Except String Unit :=
  match x with
  | .ok _ => pure ()
  | .error msg =>
    if toSelf = false then .error msg
    else if e.control.isProducingBlock then .error subjective
    else pure ()

def enforceActorList (a : RawAction) : Except String Unit :=
  if e.enforceWhiteblacklist = true ∧ e.control.isProducingBlock = true then
    e.control.conf.checkActorList (actorsOf a.authorization)
  else pure ()

/-- The permission of the contract satisfies those that the action declares. -/
def checkInline (a : RawAction) (s : CallState) : Except String Unit :=
  if e.control.skipAuthCheck = false ∧ e.privileged = false then
    e.onAuthorizationFailure (a.account = e.receiver)
      "Authorization failure with inline action sent to self"
      (checkAuthorization codec e.control s.db s.generated [a] [] [⟨e.receiver, eosioCodeName⟩]
        ((e.control.pendingBlockTime : Int) - e.published) false (e.inheritedAuthorizations a))
  else pure ()

/-- `execute_inline`. -/
def executeInline (a : RawAction) (s : CallState) : Except String CallState := do
  check ((s.db.accounts.find a.account).isSome) "inline action's code account does not exist"
  checkAuthorizers s.db a.authorization
    "inline action's authorizing actor does not exist"
    "inline action's authorizations include a non-existent permission"
  e.enforceActorList a
  e.checkInline codec a s
  pure { s with inlineActions := s.inlineActions ++ [a] }

/-! ## Deferred transactions -/

/-- `validate_referenced_accounts`. -/
def validateReferencedAccounts (trx : FullTransaction) (enforceActorWhitelistBlacklist : Bool)
    (s : CallState) : Except String Unit := do
  trx.contextFreeActions.forM fun a => do
    check ((s.db.accounts.find a.account).isSome) "action's code account does not exist"
    check (a.authorization = []) "context-free actions cannot have authorizations"
  trx.actions.forM fun a => do
    check ((s.db.accounts.find a.account).isSome) "action's code account does not exist"
    checkAuthorizers s.db a.authorization
      "action's authorizing actor does not exist"
      "action's authorizations include a non-existent permission"
  check (∃ a ∈ trx.actions, a.authorization ≠ [])
    "transaction must have at least one authorization"
  if enforceActorWhitelistBlacklist = true then
    e.control.conf.checkActorList (actorsOf (trx.actions.flatMap (·.authorization)))
  else pure ()

def transactionIdNetUsage : Nat := 32

/-- The billed size of a deferred transaction without the packed transaction: 100 bytes and 32 for
each of its five indices, aligned. -/
def generatedTransactionBytes : Nat := 272

/-- The transaction as it is deferred: it does not expire before its block, which it refers to. -/
def deferred (trx : FullTransaction) : FullTransaction :=
  { trx with
    expiration := .ofNat ((e.control.pendingBlockTime + 999999) / 1000000)
    refBlockNum := .ofNat (numFromId e.control.headBlockId)
    refBlockPrefix := .ofNat (idPrefix e.control.headBlockId) }

def generatedTransaction (trxId : Digest) (senderId : Nat) (payer : Name) (trx : FullTransaction) :
    GeneratedTransaction :=
  let delayUntil := e.control.pendingBlockTime + trx.delaySec.toNat * 1000000
  { trxId
    sender := e.receiver
    senderId
    payer
    published := e.control.pendingBlockTime
    delayUntil
    expiration := delayUntil + e.control.deferredTrxExpirationWindow * 1000000
    packedTrx := codec.packTransaction trx }

/-- The deferred transaction with the same sender and id of the sender is replaced, and keeps its
transaction id, or a new one is created. -/
def storeGenerated (senderId : Nat) (payer : Name) (trx : FullTransaction) (replaceExisting : Bool)
    (generated : List GeneratedTransaction) : Except String (List GeneratedTransaction) :=
  match generated.find? fun g => g.sender = e.receiver ∧ g.senderId = senderId with
  | some old => do
    check (replaceExisting = true)
      "deferred transaction with the same sender_id and payer already exists"
    check (¬ e.control.isProducingBlock = true)
      "Replacing a deferred transaction is temporarily disabled."
    pure (generated.map fun g =>
      if g = old then e.generatedTransaction codec old.trxId senderId payer trx else g)
  | none => do
    check (∀ g ∈ generated, g.trxId ≠ trx.id codec) uniquenessViolated
    pure (generated ++ [e.generatedTransaction codec (trx.id codec) senderId payer trx])

def requirePayer (payer : Name) : Except String Unit :=
  if payer ≠ e.receiver then e.requireAuthorization payer else pure ()

/-- The sender may bill the payer, and its permission satisfies those that the actions declare. -/
def checkDeferred (payer : Name) (trx : FullTransaction) (s : CallState) : Except String Unit :=
  if e.control.skipAuthCheck = false ∧ e.privileged = false then do
    e.requirePayer payer
    e.onAuthorizationFailure (trx.actions.all (·.account = e.receiver))
      "Authorization failure with sent deferred transaction consisting only of actions to self"
      (checkAuthorization codec e.control s.db s.generated trx.actions []
        [⟨e.receiver, eosioCodeName⟩] (trx.delaySec.toNat * 1000000) false [])
  else pure ()

/-- `schedule_deferred_transaction`. -/
def scheduleDeferredTransaction (senderId : Nat) (payer : Name) (trx : FullTransaction)
    (replaceExisting : Bool) (s : CallState) : Except String CallState := do
  check (trx.contextFreeActions = [])
    "context free actions are not currently allowed in generated transactions"
  let trx := e.deferred trx
  e.validateReferencedAccounts trx
    (e.enforceWhiteblacklist && e.control.isProducingBlock &&
      !e.control.senderAvoidsWhitelistBlacklistEnforcement e.receiver) s
  let s ← e.addNetUsage (e.control.basePerTransactionNetUsage + transactionIdNetUsage) s
  e.checkDeferred codec payer trx s
  let generated ← e.storeGenerated codec senderId payer trx replaceExisting s.generated
  check (e.control.isRamBillingInNotifyAllowed = true ∨ e.receiver = e.act.account ∨
    e.receiver = payer ∨ e.privileged = true) "Cannot charge RAM to other accounts during notify."
  addRamUsage payer (generatedTransactionBytes + (codec.packTransaction trx).length)
    { s with generated }

/-- The same call while the node works on a block of another status. -/
def withStatus (status : BlockStatus) : CallEnv :=
  { e with control := e.control.withStatus status }

end CallEnv

/-- What a contract can ask for. -/
inductive Request
  | inlineAction (a : RawAction)
  | deferredTransaction (senderId : Nat) (payer : Name) (trx : FullTransaction)
      (replaceExisting : Bool)

def Request.call (codec : Codec) (e : CallEnv) : Request → CallState → Except String CallState
  | inlineAction a => e.executeInline codec a
  | deferredTransaction senderId payer trx replaceExisting =>
    e.scheduleDeferredTransaction codec senderId payer trx replaceExisting

end BaccChain
