import BaccChain.Contracts.Token

/-!
# `noc.system`: bandwidth and RAM

The actions of `delegate_bandwidth.cpp` and `vote4ram.cpp`.
-/

namespace BaccChain

open Commons.Program (fail whenever)
open Asset (core)

namespace SystemContract

def refundDelay : Nat := 3 * 24 * 3600

/-! ## Staked bandwidth -/

def addDelband (fromAccount receiver : Name) (netDelta cpuDelta : Asset) : ContractM Unit := do
  match ← findRow delBandwidthTable fromAccount receiver with
  | none =>
    emplace delBandwidthTable fromAccount fromAccount receiver
      { fromAccount, toAccount := receiver, netWeight := netDelta, cpuWeight := cpuDelta }
  | some _ =>
    modifyRow delBandwidthTable fromAccount receiver 0 fun dbo => do
      let netWeight ← dbo.netWeight.add netDelta
      let cpuWeight ← dbo.cpuWeight.add cpuDelta
      return { dbo with netWeight, cpuWeight }

/-- Update the stake delegated from one account to another; an empty stake is removed. -/
def updateDelband (fromAccount receiver : Name) (netDelta cpuDelta : Asset) :
    ContractM Unit := do
  addDelband fromAccount receiver netDelta cpuDelta
  let itr ← getRow delBandwidthTable fromAccount receiver "unable to find key"
  eosioAssert (← (core 0).le itr.netWeight) "insufficient staked net bandwidth"
  eosioAssert (← (core 0).le itr.cpuWeight) "insufficient staked cpu bandwidth"
  let noNet ← itr.netWeight.eq (core 0)
  let noCpu ← itr.cpuWeight.eq (core 0)
  whenever (noNet ∧ noCpu) (eraseRow delBandwidthTable fromAccount receiver)

/-- Add to the totals of the receiver. A row that is changed on behalf of its owner is billed to
the owner. -/
def addTotals (fromAccount receiver : Name) (netDelta cpuDelta : Asset) : ContractM Unit := do
  match ← findRow userResourcesTable receiver receiver with
  | none =>
    emplace userResourcesTable receiver fromAccount receiver
      { owner := receiver, netWeight := netDelta, cpuWeight := cpuDelta }
  | some _ =>
    modifyRow userResourcesTable receiver receiver
        (if fromAccount = receiver then fromAccount else 0) fun tot => do
      let netWeight ← tot.netWeight.add netDelta
      let cpuWeight ← tot.cpuWeight.add cpuDelta
      return { tot with netWeight, cpuWeight }

/-- Update the totals of the receiver; empty totals are removed. -/
def updateTotals (fromAccount receiver : Name) (netDelta cpuDelta : Asset) : ContractM Unit := do
  addTotals fromAccount receiver netDelta cpuDelta
  let tot ← getRow userResourcesTable receiver receiver "unable to find key"
  eosioAssert (← (core 0).le tot.netWeight) "insufficient staked total net bandwidth"
  eosioAssert (← (core 0).le tot.cpuWeight) "insufficient staked total cpu bandwidth"
  setResourceLimits receiver tot.ramBytes tot.netWeight.amount tot.cpuWeight.amount
  let noNet ← tot.netWeight.eq (core 0)
  let noCpu ← tot.cpuWeight.eq (core 0)
  whenever (noNet ∧ noCpu ∧ tot.ramBytes = 0) (eraseRow userResourcesTable receiver receiver)

/-! ## Refunds -/

/-- Set off a change of stake against a pending refund: the refund left and the stake left. -/
def setOff (amount balance : Asset) : Except String (Asset × Asset) := do
  let left ← amount.sub balance
  if ← left.lt (core 0) then return (core 0, left.neg) else return (left, core 0)

/-- A pending refund against which a change of stake is set off. -/
def settleRefund (r : RefundRequest) (netBalance cpuBalance : Asset) (now : Nat) :
    Except String RefundRequest := do
  let netShrinks ← netBalance.lt (core 0)
  let cpuShrinks ← cpuBalance.lt (core 0)
  let net ← setOff r.netAmount netBalance
  let cpu ← setOff r.cpuAmount cpuBalance
  return { r with
    requestTime := if netShrinks ∨ cpuShrinks then now else r.requestTime
    netAmount := net.1
    cpuAmount := cpu.1 }

/-- Set off a change of stake against the pending refund `req` of an account; the result is the
stake left to be paid for. -/
def updateRefund (owner : Name) (req : RefundRequest) (netBalance cpuBalance : Asset) :
    ContractM (Asset × Asset) := do
  let now ← currentTime
  let net ← setOff req.netAmount netBalance
  let cpu ← setOff req.cpuAmount cpuBalance
  modifyRow refundsTable owner owner 0 fun r =>
    liftM (settleRefund r netBalance cpuBalance now)
  eosioAssert (← (core 0).le net.1) "negative net refund amount"
  eosioAssert (← (core 0).le cpu.1) "negative cpu refund amount"
  let noNet ← net.1.eq (core 0)
  let noCpu ← cpu.1.eq (core 0)
  whenever (noNet ∧ noCpu) (eraseRow refundsTable owner owner)
  return (net.2, cpu.2)

/-- A change of stake split into what is refunded and what is left to be paid for. -/
def splitRefund (balance : Asset) : Except String (Asset × Asset) := do
  if ← balance.lt (core 0) then return (balance.neg, core 0) else return (core 0, balance)

/-- A new pending refund for a stake that shrinks; a stake that grows needs none. -/
def createRefund (owner : Name) (netBalance cpuBalance : Asset) :
    ContractM (Asset × Asset) := do
  let now ← currentTime
  let netShrinks ← netBalance.lt (core 0)
  let cpuShrinks ← cpuBalance.lt (core 0)
  let net ← splitRefund netBalance
  let cpu ← splitRefund cpuBalance
  whenever (netShrinks ∨ cpuShrinks) (emplace refundsTable owner owner owner
    { owner, requestTime := now, netAmount := net.1, cpuAmount := cpu.1 })
  return (net.2, cpu.2)

/-- A refund takes up what it can of a change. -/
def changeRefund (owner : Name) (netBalance cpuBalance : Asset) : ContractM (Asset × Asset) := do
  match ← findRow refundsTable owner owner with
  | some req => updateRefund owner req netBalance cpuBalance
  | none => createRefund owner netBalance cpuBalance

/-- What of a change of stake is left to be paid for. -/
def stakeToPay (fromAccount receiver : Name) (netDelta cpuDelta : Asset) (transfer : Bool) :
    ContractM (Asset × Asset) :=
  if (¬ transfer ∧ fromAccount = receiver) ∨ netDelta.amount + cpuDelta.amount < 0 then
    changeRefund fromAccount netDelta cpuDelta
  else pure (netDelta, cpuDelta)

/-- Settle a change of stake with refunds first and a transfer to the system account then. -/
def payStake (sourceStakeFrom fromAccount receiver : Name) (netDelta cpuDelta : Asset)
    (transfer : Bool) : ContractM Unit := do
  let left ← stakeToPay fromAccount receiver netDelta cpuDelta transfer
  let transferAmount ← left.1.add left.2
  whenever (← (core 0).lt transferAmount) (executeInline
    (Token.transferAction sourceStakeFrom systemAccountName transferAmount "stake bandwidth"))

/-! ## The actions -/

/-- `changebw`. -/
def changebw (fromAccount receiver : Name) (stakeNetDelta stakeCpuDelta : Asset)
    (transfer : Bool) : ContractM Unit := do
  requireAuth fromAccount
  let someNet ← stakeNetDelta.ne (core 0)
  let someCpu ← stakeCpuDelta.ne (core 0)
  eosioAssert (someNet ∨ someCpu) "should stake non-zero amount"
  let both ← stakeNetDelta.add stakeCpuDelta
  eosioAssert (max stakeNetDelta.amount.natAbs stakeCpuDelta.amount.natAbs ≤ both.amount.natAbs)
    "net and cpu deltas cannot be opposite signs"
  -- with the transfer flag the stake belongs to the receiver, but the sender pays for it
  let owner := if transfer then receiver else fromAccount
  updateDelband owner receiver stakeNetDelta stakeCpuDelta
  updateTotals owner receiver stakeNetDelta stakeCpuDelta
  whenever (fromAccount ≠ systemAccountName)
    (payStake fromAccount owner receiver stakeNetDelta stakeCpuDelta transfer)

/-- `delegatebw`. -/
def delegatebw (fromAccount receiver : Name) (stakeNetQuantity stakeCpuQuantity : Asset)
    (transfer : Bool) : ContractM Unit := do
  eosioAssert (← stakeCpuQuantity.ge (core 0)) "must stake a positive amount"
  eosioAssert (← stakeNetQuantity.ge (core 0)) "must stake a positive amount"
  let both ← stakeNetQuantity.add stakeCpuQuantity
  eosioAssert (← both.gt (core 0)) "must stake a positive amount"
  eosioAssert (¬ transfer ∨ fromAccount ≠ receiver)
    "cannot use transfer flag if delegating to self"
  changebw fromAccount receiver stakeNetQuantity stakeCpuQuantity transfer

/-- `undelegatebw`. -/
def undelegatebw (fromAccount receiver : Name) (unstakeNetQuantity unstakeCpuQuantity : Asset) :
    ContractM Unit := do
  eosioAssert (← (core 0).le unstakeCpuQuantity) "must unstake a positive amount"
  eosioAssert (← (core 0).le unstakeNetQuantity) "must unstake a positive amount"
  let both ← unstakeCpuQuantity.add unstakeNetQuantity
  eosioAssert (← (core 0).lt both) "must unstake a positive amount"
  changebw fromAccount receiver unstakeNetQuantity.neg unstakeCpuQuantity.neg false

/-- `refund`. -/
def refund (owner : Name) : ContractM Unit := do
  requireAuth owner
  let req ← getRow refundsTable owner owner "refund request not found"
  let now ← currentTime
  eosioAssert (add32 req.requestTime refundDelay ≤ now) "refund is not available yet"
  let amount ← req.netAmount.add req.cpuAmount
  executeInline (Token.transferAction systemAccountName req.owner amount "unstake")
  eraseRow refundsTable owner owner

def vote4ram (voter : Name) : ContractM Unit := requireAuth voter

def setram (account : Name) (stake : Asset) : ContractM Unit := do
  requireAuth systemAccountName
  match ← findRow vote4ramsumTable () account with
  | none => emplace vote4ramsumTable () account account { voter := account, staked := stake }
  | some _ => modifyRow vote4ramsumTable () account 0 fun v => pure { v with staked := stake }

end SystemContract

end BaccChain
