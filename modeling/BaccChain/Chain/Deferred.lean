import BaccChain.Chain.Requests

/-!
# The generated transactions

Transactions that contracts have deferred, and input transactions with a delay, wait in the database
until they are retired or canceled. What their actions do then is no part of this module.
-/

namespace BaccChain

open Commons

def transactionIdToSenderId (tid : Digest) : Nat := tid / 2 ^ 128 % 2 ^ 128

/-- The actor of the first permission that the actions declare. -/
def FullTransaction.firstAuthorizor (trx : FullTransaction) : Name :=
  match trx.actions.flatMap (·.authorization) with
  | [] => 0
  | auth :: _ => auth.actor

def GeneratedTransaction.billableSize (gto : GeneratedTransaction) : Int :=
  CallEnv.generatedTransactionBytes + gto.packedTrx.length

namespace CallEnv

variable (codec : Codec) (e : CallEnv)

def addTransactionRamUsage (account : Name) (delta : Int) (s : CallState) :
    Except String CallState := do
  let ramUsage ← addPendingRamUsage account delta s.ramUsage
  pure { s with
    ramUsage
    validateRamUsage :=
      if 0 < delta then s.validateRamUsage.insert account else s.validateRamUsage }

def delayedTransaction (trx : FullTransaction) (delay : Nat) : GeneratedTransaction :=
  let delayUntil := e.control.pendingBlockTime + delay
  { trxId := trx.id codec
    payer := trx.firstAuthorizor
    sender := 0
    senderId := transactionIdToSenderId (trx.id codec)
    published := e.control.pendingBlockTime
    delayUntil
    expiration := delayUntil + e.control.deferredTrxExpirationWindow * 1000000
    packedTrx := codec.packTransaction trx }

/-- The net usage of the retirement; for a delay that the transaction itself asks for it has been
charged before. -/
def chargeRetirement (trx : FullTransaction) (s : CallState) : Except String CallState :=
  if trx.delaySec = 0 then
    e.addNetUsage (e.control.basePerTransactionNetUsage + transactionIdNetUsage) s
  else pure s

/-- `schedule_transaction`. -/
def scheduleTransaction (trx : FullTransaction) (delay : Nat) (s : CallState) :
    Except String CallState := do
  let s ← e.chargeRetirement trx s
  let gto := e.delayedTransaction codec trx delay
  check (∀ g ∈ s.generated, g.trxId ≠ gto.trxId ∧ ¬ (g.sender = gto.sender ∧
      g.senderId = gto.senderId)) uniquenessViolated
  addTransactionRamUsage gto.payer gto.billableSize { s with generated := s.generated ++ [gto] }

/-- Whether there was something to cancel, and the state after it. -/
def cancelDeferredTransaction (senderId : Nat) (sender : Name) (s : CallState) :
    Except String (Bool × CallState) :=
  match s.generated.find? fun g => g.sender = sender ∧ g.senderId = senderId with
  | some gto => do
    let s ← addRamUsage gto.payer (-gto.billableSize) s
    pure (true, { s with generated := s.generated.erase gto })
  | none => pure (false, s)

/-- `remove_scheduled_transaction`. -/
def removeScheduledTransaction (gto : GeneratedTransaction) (s : CallState) :
    Except String CallState := do
  let ramUsage ← addPendingRamUsage gto.payer (-gto.billableSize) s.ramUsage
  pure { s with ramUsage, generated := s.generated.erase gto }

/-- The transaction with an id is retired, if it does not fail for a subjective reason. -/
def pushScheduledTransaction (trxId : Digest) (s : CallState) : Except String CallState :=
  match s.generated.find? (·.trxId = trxId) with
  | none => .error "unknown transaction"
  | some gto => do
    let s ← removeScheduledTransaction gto s
    check (gto.delayUntil ≤ e.control.pendingBlockTime) "this transaction isn't ready"
    pure s

end CallEnv

/-- What happens to generated transactions. -/
inductive DeferredOperation
  | schedule (e : CallEnv) (senderId : Nat) (payer : Name) (trx : FullTransaction)
      (replaceExisting : Bool)
  | delay (e : CallEnv) (trx : FullTransaction) (duration : Nat)
  | cancel (senderId : Nat) (sender : Name)
  | retire (e : CallEnv) (trxId : Digest)

def DeferredOperation.exec (codec : Codec) :
    DeferredOperation → CallState → Except String CallState
  | .schedule e senderId payer trx replaceExisting, s =>
    e.scheduleDeferredTransaction codec senderId payer trx replaceExisting s
  | .delay e trx duration, s => e.scheduleTransaction codec trx duration s
  | .cancel senderId sender, s => do
    return (← CallEnv.cancelDeferredTransaction senderId sender s).2
  | .retire e trxId, s => e.pushScheduledTransaction trxId s

end BaccChain
