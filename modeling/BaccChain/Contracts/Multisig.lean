import BaccChain.Chain.Action

/-!
# The contract `noc.msig`

An account proposes a transaction together with the permissions that are to approve it. These
approve it one by one, and may take that back.

## Main definitions

* `propose`, `approve`, `exec`, `cancel`: the actions
-/

namespace BaccChain

open Commons (Program check check_eq_ok)

namespace Multisig

/-- A row of `proposal`. -/
structure Proposal where
  proposalName : Name
  packedTransaction : List UInt8
  deriving DecidableEq

/-- A row of `approvals`. -/
structure ApprovalsInfo where
  proposalName : Name
  requestedApprovals : List PermissionLevel
  providedApprovals : List PermissionLevel := []
  deriving DecidableEq

end Multisig

/-- The two tables, by proposer. -/
structure MsigDb where
  proposals : MultiIndex Name Multisig.Proposal := .empty
  approvals : MultiIndex Name Multisig.ApprovalsInfo := .empty

/-- What the contract reads of the chain: the permissions of the action, the time, the expiration in
a packed transaction, and the answers of the intrinsics. -/
structure MsigEnv where
  authorization : List PermissionLevel
  now : Nat
  unpackExpiration : List UInt8 → Except String Nat
  checkTransactionAuthorization : List UInt8 → List PermissionLevel → Except String Bool
  sendDeferred : Nat → Name → List UInt8 → Except String Unit

/-- The code of the contract. -/
abbrev MsigM (α : Type) : Type := Program MsigEnv MsigDb α

namespace Multisig

open Commons.Program (fail whenever)

/-! ## Intrinsics -/

def getEnv : MsigM MsigEnv := fun e d => .ok (e, d)

def eosioAssert (p : Prop) [Decidable p] (msg : String) : MsigM Unit := liftM (check p msg)

def requireAuth (account : Name) : MsigM Unit := do
  let e ← getEnv
  eosioAssert (∃ p ∈ e.authorization, p.actor = account) "missing authority"

def requireAuth2 (level : PermissionLevel) : MsigM Unit := do
  let e ← getEnv
  eosioAssert (level ∈ e.authorization) "missing authority"

/-- One of its two tables. -/
structure TableRef (α : Type) where
  get : MsigDb → MultiIndex Name α
  set : MsigDb → MultiIndex Name α → MsigDb

def proptable : TableRef Proposal := ⟨(·.proposals), fun d t => { d with proposals := t }⟩
def apptable : TableRef ApprovalsInfo := ⟨(·.approvals), fun d t => { d with approvals := t }⟩

section Tables

variable {α : Type} (T : TableRef α)

def findRow (scope pk : Name) : MsigM (Option α) := fun _ d => .ok ((T.get d).find scope pk, d)

def getRow (scope pk : Name) (msg : String) : MsigM α := do
  match ← findRow T scope pk with
  | some a => pure a
  | none => fail msg

def storeRow (scope payer pk : Name) (a : α) : MsigM Unit := fun _ d =>
  .ok ((), T.set d ((T.get d).store scope payer pk a))

def emplace (scope payer pk : Name) (a : α) : MsigM Unit := do
  eosioAssert (payer ≠ 0) "must specify a valid account to pay for new record"
  let row ← findRow T scope pk
  eosioAssert (row.isNone) uniquenessViolated
  storeRow T scope payer pk a

/-- A row that was found before is rewritten, and billed to `payer`. -/
def modifyRow (scope pk payer : Name) (a : α) : MsigM Unit := fun _ d =>
  .ok ((), T.set d ((T.get d).update scope pk payer a))

def eraseRow (scope pk : Name) : MsigM Unit := fun _ d =>
  .ok ((), T.set d ((T.get d).remove scope pk))

end Tables

/-! ## Actions -/

/-- `propose`. -/
def propose (proposer proposalName : Name) (requested : List PermissionLevel)
    (trx : List UInt8) : MsigM Unit := do
  let e ← getEnv
  let expiration ← e.unpackExpiration trx
  requireAuth proposer
  eosioAssert (e.now ≤ expiration) "transaction expired"
  let row ← findRow proptable proposer proposalName
  eosioAssert (row.isNone) "proposal with the same name exists"
  let res ← e.checkTransactionAuthorization trx requested
  eosioAssert (res = true) "transaction authorization failed"
  emplace proptable proposer proposer proposalName
    { proposalName, packedTransaction := trx }
  emplace apptable proposer proposer proposalName
    { proposalName, requestedApprovals := requested }

/-- The first occurrence of the level moves from one list to the end of the other. -/
def approve (proposer proposalName : Name) (level : PermissionLevel) : MsigM Unit := do
  requireAuth2 level
  let apps ← getRow apptable proposer proposalName "proposal not found"
  eosioAssert (level ∈ apps.requestedApprovals)
    "approval is not on the list of requested approvals"
  modifyRow apptable proposer proposalName proposer { apps with
    providedApprovals := apps.providedApprovals ++ [level]
    requestedApprovals := apps.requestedApprovals.erase level }

/-- `unapprove`. -/
def unapprove (proposer proposalName : Name) (level : PermissionLevel) : MsigM Unit := do
  requireAuth2 level
  let apps ← getRow apptable proposer proposalName "proposal not found"
  eosioAssert (level ∈ apps.providedApprovals) "no approval previously granted"
  modifyRow apptable proposer proposalName proposer { apps with
    requestedApprovals := apps.requestedApprovals ++ [level]
    providedApprovals := apps.providedApprovals.erase level }

def assertExpired (prop : Proposal) : MsigM Unit := do
  let e ← getEnv
  let expiration ← e.unpackExpiration prop.packedTransaction
  eosioAssert (expiration < e.now) "cannot cancel until expiration"

/-- `cancel`. -/
def cancel (proposer proposalName canceler : Name) : MsigM Unit := do
  requireAuth canceler
  let prop ← getRow proptable proposer proposalName "proposal not found"
  whenever (canceler ≠ proposer) (assertExpired prop)
  let _ ← getRow apptable proposer proposalName "proposal not found"
  eraseRow proptable proposer proposalName
  eraseRow apptable proposer proposalName

/-- `exec`. -/
def exec (proposer proposalName executer : Name) : MsigM Unit := do
  requireAuth executer
  let prop ← getRow proptable proposer proposalName "proposal not found"
  let apps ← getRow apptable proposer proposalName "proposal not found"
  let e ← getEnv
  let expiration ← e.unpackExpiration prop.packedTransaction
  eosioAssert (e.now ≤ expiration) "transaction expired"
  let res ← e.checkTransactionAuthorization prop.packedTransaction apps.providedApprovals
  eosioAssert (res = true) "transaction authorization failed"
  e.sendDeferred (proposer <<< 64 ||| proposalName) executer prop.packedTransaction
  eraseRow proptable proposer proposalName
  eraseRow apptable proposer proposalName

end Multisig

/-- Its actions. -/
inductive MsigAction
  | propose (proposer proposalName : Name) (requested : List PermissionLevel) (trx : List UInt8)
  | approve (proposer proposalName : Name) (level : PermissionLevel)
  | unapprove (proposer proposalName : Name) (level : PermissionLevel)
  | cancel (proposer proposalName canceler : Name)
  | exec (proposer proposalName executer : Name)

def MsigAction.apply : MsigAction → MsigM Unit
  | .propose proposer proposalName requested trx =>
    Multisig.propose proposer proposalName requested trx
  | .approve proposer proposalName level => Multisig.approve proposer proposalName level
  | .unapprove proposer proposalName level => Multisig.unapprove proposer proposalName level
  | .cancel proposer proposalName canceler => Multisig.cancel proposer proposalName canceler
  | .exec proposer proposalName executer => Multisig.exec proposer proposalName executer

/-- An action, and where it is called. -/
structure MsigCall where
  env : MsigEnv
  action : MsigAction

def MsigCall.exec (c : MsigCall) (d : MsigDb) : Except String MsigDb := do
  let (_, d) ← c.action.apply c.env d
  pure d

/-! ## What an accepted action has done -/

namespace Multisig

open Commons.Program

variable {level : PermissionLevel}

section Intrinsics

variable {e : MsigEnv} {d d' : MsigDb} {u : Unit}

variable {msg : String}

@[simp] theorem getEnv_eq_ok {a : MsigEnv} : getEnv e d = .ok (a, d') ↔ a = e ∧ d' = d := by
  simp [getEnv, eq_comm]

@[simp] theorem eosioAssert_eq_ok {p : Prop} [Decidable p] :
    eosioAssert p msg e d = .ok (u, d') ↔ p ∧ d' = d := by
  rw [eosioAssert, lift_eq_ok, check_eq_ok]

@[simp] theorem requireAuth_eq_ok {account : Name} :
    requireAuth account e d = .ok (u, d') ↔
      (∃ p ∈ e.authorization, p.actor = account) ∧ d' = d := by
  simp only [requireAuth, ran_iff, getEnv_eq_ok, eosioAssert_eq_ok]

@[simp] theorem requireAuth2_eq_ok :
    requireAuth2 level e d = .ok (u, d') ↔ level ∈ e.authorization ∧ d' = d := by
  simp only [requireAuth2, ran_iff, getEnv_eq_ok, eosioAssert_eq_ok]

variable {α : Type} {T : TableRef α} {scope pk payer : Name} {a : α}

@[simp] theorem findRow_eq_ok {r : Option α} :
    findRow T scope pk e d = .ok (r, d') ↔ r = (T.get d).find scope pk ∧ d' = d := by
  simp [findRow, eq_comm]

@[simp] theorem getRow_eq_ok :
    getRow T scope pk msg e d = .ok (a, d') ↔ (T.get d).find scope pk = some a ∧ d' = d := by
  simp only [getRow, ran_iff, findRow_eq_ok]
  cases (T.get d).find scope pk with
  | none => simp
  | some =>
    rw [pure_eq_ok, Option.some.injEq]
    exact and_congr_left fun _ => eq_comm

@[simp] theorem storeRow_eq_ok :
    storeRow T scope payer pk a e d = .ok (u, d') ↔
      d' = T.set d ((T.get d).store scope payer pk a) := by
  simp [storeRow, eq_comm]

@[simp] theorem emplace_eq_ok :
    emplace T scope payer pk a e d = .ok (u, d') ↔
      payer ≠ 0 ∧ (T.get d).find scope pk = none ∧
        d' = T.set d ((T.get d).store scope payer pk a) := by
  simp only [emplace, ran_iff, eosioAssert_eq_ok, findRow_eq_ok, storeRow_eq_ok,
    Option.isNone_iff_eq_none]

@[simp] theorem modifyRow_eq_ok :
    modifyRow T scope pk payer a e d = .ok (u, d') ↔
      d' = T.set d ((T.get d).update scope pk payer a) := by
  simp [modifyRow, eq_comm]

@[simp] theorem eraseRow_eq_ok :
    eraseRow T scope pk e d = .ok (u, d') ↔ d' = T.set d ((T.get d).remove scope pk) := by
  simp [eraseRow, eq_comm]

end Intrinsics

section Actions

variable {e : MsigEnv} {d d' : MsigDb} {u : Unit} {proposer proposalName : Name}

theorem propose_eq_ok {requested : List PermissionLevel} {trx : List UInt8}
    (h : propose proposer proposalName requested trx e d = .ok (u, d')) :
    d.proposals.Writes proposer proposalName (some ⟨proposalName, trx⟩) d'.proposals ∧
      d.approvals.Writes proposer proposalName (some ⟨proposalName, requested, []⟩)
        d'.approvals := by
  simp only [propose, ran_iff, getEnv_eq_ok, requireAuth_eq_ok, eosioAssert_eq_ok, findRow_eq_ok,
    emplace_eq_ok] at h
  obtain ⟨-, -, -, -, -, -, -, -, -, -, -, -, rfl⟩ := h
  exact ⟨.of_store _ _ _ _ _, .of_store _ _ _ _ _⟩

theorem approve_eq_ok (h : approve proposer proposalName level e d = .ok (u, d')) :
    level ∈ e.authorization ∧ d'.proposals = d.proposals ∧
      ∃ apps, d.approvals.find proposer proposalName = some apps ∧
        level ∈ apps.requestedApprovals ∧
        d.approvals.Writes proposer proposalName (some { apps with
          providedApprovals := apps.providedApprovals ++ [level]
          requestedApprovals := apps.requestedApprovals.erase level }) d'.approvals := by
  simp only [approve, ran_iff, requireAuth2_eq_ok, getRow_eq_ok, eosioAssert_eq_ok,
    modifyRow_eq_ok] at h
  obtain ⟨hauth, apps, hfind, hmem, rfl⟩ := h
  exact ⟨hauth, rfl, apps, hfind, hmem, .of_update _ _ _ _ _⟩

theorem unapprove_eq_ok (h : unapprove proposer proposalName level e d = .ok (u, d')) :
    level ∈ e.authorization ∧ d'.proposals = d.proposals ∧
      ∃ apps, d.approvals.find proposer proposalName = some apps ∧
        level ∈ apps.providedApprovals ∧
        d.approvals.Writes proposer proposalName (some { apps with
          requestedApprovals := apps.requestedApprovals ++ [level]
          providedApprovals := apps.providedApprovals.erase level }) d'.approvals := by
  simp only [unapprove, ran_iff, requireAuth2_eq_ok, getRow_eq_ok, eosioAssert_eq_ok,
    modifyRow_eq_ok] at h
  obtain ⟨hauth, apps, hfind, hmem, rfl⟩ := h
  exact ⟨hauth, rfl, apps, hfind, hmem, .of_update _ _ _ _ _⟩

theorem assertExpired_eq_ok {prop : Proposal} (h : assertExpired prop e d = .ok (u, d')) :
    d' = d := by
  simp only [assertExpired, ran_iff, getEnv_eq_ok, eosioAssert_eq_ok] at h
  obtain ⟨-, -, -, rfl⟩ := h
  rfl

theorem cancel_eq_ok {canceler : Name}
    (h : cancel proposer proposalName canceler e d = .ok (u, d')) :
    d.proposals.Writes proposer proposalName none d'.proposals ∧
      d.approvals.Writes proposer proposalName none d'.approvals := by
  simp only [cancel, ran_iff, requireAuth_eq_ok, getRow_eq_ok, whenever_eq_ok, eraseRow_eq_ok] at h
  obtain ⟨-, prop, -, d₁, hexpired, -, -, rfl⟩ := h
  obtain rfl : d₁ = d := by
    rcases hexpired with ⟨-, hexpired⟩ | ⟨-, rfl⟩
    · exact assertExpired_eq_ok hexpired
    · rfl
  exact ⟨.of_remove _ _ _, .of_remove _ _ _⟩

theorem exec_eq_ok {executer : Name} (h : exec proposer proposalName executer e d = .ok (u, d')) :
    (∃ prop apps, d.proposals.find proposer proposalName = some prop ∧
      d.approvals.find proposer proposalName = some apps ∧
      e.checkTransactionAuthorization prop.packedTransaction apps.providedApprovals = .ok true) ∧
    d.proposals.Writes proposer proposalName none d'.proposals ∧
      d.approvals.Writes proposer proposalName none d'.approvals := by
  simp only [exec, ran_iff, requireAuth_eq_ok, getRow_eq_ok, getEnv_eq_ok, eosioAssert_eq_ok,
    eraseRow_eq_ok] at h
  obtain ⟨-, prop, hprop, apps, happs, -, -, -, res, hres, rfl, -, rfl⟩ := h
  exact ⟨⟨prop, apps, hprop, happs, hres⟩, .of_remove _ _ _, .of_remove _ _ _⟩

end Actions

end Multisig

end BaccChain
