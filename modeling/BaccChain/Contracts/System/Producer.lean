import BaccChain.Contracts.System.Voting
import Mathlib.Data.List.Sort

/-!
# `noc.system`: block producers

The actions of `producer.cpp` and `noc.system.cpp`: registration and pawns of block producers, the
reward that each block brings, the election, and the bookkeeping of new accounts.

## Main definitions

* `onblock`, `updateElectedBps`, `bppawn`: the actions
-/

namespace BaccChain

open Commons.Program (fail whenever)
open Asset (core)

namespace SystemContract

def numOfTopBps : Nat := 17
def updateCycle : Nat := 100
def rewardAttenuationCycle : Nat := 34560000
def rewardForProduceP : Int := 10
def rewardForBpsP : Int := 10

/-- The reward of a block: half a token, halved with every attenuation cycle, and nothing once
the coefficient is below `0.0001`. -/
def calcRewardByBlock (blockNum : Nat) : Nat :=
  let attenuationCycle := blockNum / rewardAttenuationCycle
  if 100 < attenuationCycle then 0
  else if 10000 < 2 ^ attenuationCycle then 0
  else 5000 / 2 ^ attenuationCycle

/-! ## Schedules -/

/-- The producers of the current schedule as `onblock` reads them: exactly `numOfTopBps` names. -/
def blockProducers (activeProducers : List Name) : List Name :=
  (activeProducers ++ List.replicate numOfTopBps 0).take numOfTopBps

def countProducer (bpname : Name) : List ProducerCount → List ProducerCount
  | [] => []
  | p :: ps =>
    if p.bpname = bpname then { p with amount := add32 p.amount 1 } :: ps
    else p :: countProducer bpname ps

/-- Count a block of `bpname` in the row of the schedule; a new schedule's row is billed to
`bpname`. -/
def countBlock (bpname : Name) (scheduleVersion : Nat) (producers : List Name)
    (currentBlock : Nat) : ContractM Unit := do
  match ← findRow schedulesTable () scheduleVersion with
  | none =>
    emplace schedulesTable () bpname scheduleVersion {
      version := scheduleVersion
      blockHeight := currentBlock
      producers := producers.map fun p => ⟨p, if p = bpname then 1 else 0⟩ }
  | some _ =>
    modifyRow schedulesTable () scheduleVersion 0 fun s =>
      pure { s with producers := countProducer bpname s.producers }

/-! ## Rewards of a block -/

/-- The part for new accounts. -/
def rewardToVid (currentBlock : Nat) : ContractM Asset := do
  match ← findRow vidParamsTable () vidParamsName with
  | none => pure (core 0)
  | some itr =>
    if 1 < currentBlock then do
      match ← findRow vidStatsTable () (currentBlock - 1) with
      | none => pure (core 0)
      | some vs => do
        let perBlock ← itr.rewardPerVid.mul (wrap64 itr.vidRewardCoefficient)
        liftM (perBlock.mul vs.vidCount)
    else pure (core 0)

/-- Issue the reward for new accounts; the result is what is left of the block's reward. -/
def payVid (rewardCurrentBlock toVid : Asset) : ContractM Asset := do
  if ← toVid.gt (core 0) then do
    if ← rewardCurrentBlock.lt toVid then do
      Token.issueTokenInline vidPoolAccountName (core 0) "issue tokens for vid pool"
      return core 0
    else do
      let left ← rewardCurrentBlock.sub toVid
      Token.issueTokenInline vidPoolAccountName toVid "issue tokens for vid pool"
      return left
  else return rewardCurrentBlock

/-- The share of `amount` that `staked` has in `stakedAll`, rounded down. -/
def shareOf (amount staked stakedAll : Int) : Int := (amount * staked).fdiv stakedAll

/-- What a producer is about to receive: for its voters, and for itself. -/
structure BpReward where
  pool : Int
  block : Int

/-- The two stakes the reward of a block is divided by. -/
structure StakeTotals where
  all : Int := 0
  blockProducers : Int := 0

/-- The stake of all producers, and of those in the current schedule. -/
def stakeTotals (producers : List Name) (bps : List (Name × BpInfo)) : StakeTotals :=
  bps.foldl (fun s b => {
    all := wrap64 (s.all + b.2.totalStaked)
    blockProducers :=
      if b.1 ∈ producers then wrap64 (s.blockProducers + b.2.totalStaked)
      else s.blockProducers }) {}

/-- What a producer gets of a block. -/
def bpReward (producers : List Name) (producer : Name) (forProduce forBp forUser : Int)
    (totals : StakeTotals) (b : Name × BpInfo) : BpReward where
  pool := shareOf forUser b.2.totalStaked totals.all
  block :=
    (if b.1 ∈ producers then shareOf forBp b.2.totalStaked totals.blockProducers else 0) +
      (if producer = b.1 then forProduce else 0)

def bpDivisors (producers : List Name) (totals : StakeTotals) (b : Name × BpInfo) : List Int :=
  totals.all :: if b.1 ∈ producers then [totals.blockProducers] else []

/-- The reward goes to the producer and its pool. -/
def addReward (b : BpInfo) (reward : BpReward) : Except String BpInfo := do
  let pool ← Asset.ofAmount reward.pool
  let rewardsPool ← b.rewardsPool.add pool
  let block ← Asset.ofAmount reward.block
  let rewardsBlock ← b.rewardsBlock.add block
  return { b with rewardsPool, rewardsBlock }

/-- The rows of the producers' table, in the order of an iteration. -/
def bpRows (bps : MultiIndex Unit BpInfo) : List (Name × BpInfo) :=
  bps.rows.entries.map fun r => ((ofLex r.1).2, r.2.value)

def rewardBps (reward : Name × BpInfo → Except String BpReward) :
    List (Name × BpInfo) → ContractM Unit
  | [] => pure ()
  | b :: bs => do
    whenever b.2.isactive (do
      let r ← reward b
      modifyRow bpsTable () b.1 0 fun row => liftM (addReward row r))
    rewardBps reward bs

/-- `reward_bps_and_user`. -/
def rewardBpsAndUser (producers : List Name) (producer : Name) (forProduce forBp forUser : Asset) :
    ContractM Unit := do
  let bps ← readTable bpsTable
  let totals := stakeTotals producers (bpRows bps)
  whenever (¬ (forBp.amount = 0 ∧ forUser.amount = 0) ∧ 0 < totals.all)
    (rewardBps (fun b => do
      -- the shares are converted from doubles, and no integer stands for `0 / 0`
      Commons.check (0 ∉ bpDivisors producers totals b) "Error, f64.convert_s/i64 unrepresentable"
      return bpReward producers producer forProduce.amount forBp.amount forUser.amount totals b)
      (bpRows bps))

/-! ## The election -/

/-- A producer in the ranking. -/
structure Candidate where
  producerName : Name
  blockSigningKey : PublicKey
  staked : Int

/-- Put a candidate before the first slot whose stake is not larger. -/
def placeCandidate (spare : Nat → Int) (x : Candidate) (l : List Candidate) :
    Nat → Nat → Except String (List Candidate)
  | 0, _ => .ok l
  | slots + 1, i =>
    if (l[i]?).elim (spare i) (·.staked) ≤ x.staked then
      if i ≤ l.length then .ok ((l.insertIdx i x).take numOfTopBps)
      else .error "access violation"
    else placeCandidate spare x l slots (i + 1)

/-- A candidate joins the ranking, unless it is full with larger stakes. -/
def rankCandidate (spare : Nat → Int) (l : List Candidate) (x : Candidate) :
    Except String (List Candidate) :=
  if numOfTopBps ≤ l.length ∧ x.staked < (l.getLast?).elim 0 (·.staked) then .ok l
  else placeCandidate spare x l numOfTopBps 0

/-- The elected producers: in the boot phase those of genesis and at most three others, ordered by
stake; afterwards those with the largest stakes. -/
def electedBps (spare : Nat → Int) (currBlockNum : Nat) (bps : List Candidate) :
    Except String (List Candidate) := do
  if currBlockNum ≤ 360 * blockNumPerDay then do
    let genesis := bps.filter fun b => isGenesisInitBp b.producerName
    let ranked ← (bps.filter fun b => ¬ isGenesisInitBp b.producerName).foldlM
      (rankCandidate spare) []
    let all := (genesis ++ ranked.take (numOfTopBps - 14)).insertionSort
      fun x y => y.staked ≤ x.staked
    return (all ++ List.replicate numOfTopBps (Candidate.mk 0 0 0)).take numOfTopBps
  else
    bps.foldlM (rankCandidate spare) []

/-- `set_proposed_producers`. -/
def setProposedProducers (producers : List Candidate) : ContractM Unit := fun e c => do
  Commons.check (producers.length ≤ numOfTopBps)
    "Producer schedule exceeds the maximum producer count for this chain"
  producers.forM fun p => do
    Commons.check (e.world.isAccount p.producerName)
      "producer schedule includes a nonexisting account"
    Commons.check (p.blockSigningKey ≠ 0) "producer schedule includes an invalid key"
  Commons.check ((producers.map (·.producerName)).Nodup)
    "duplicate producer name in producer schedule"
  return ((), c)

/-- `update_elected_bps`. -/
def updateElectedBps (currBlockNum : Nat) : ContractM Unit := do
  let bps ← readTable bpsTable
  let spare ← spareStake
  let elected ← electedBps spare currBlockNum
    ((bpRows bps).map fun b => ⟨b.1, b.2.blockSigningKey, b.2.totalStaked⟩)
  setProposedProducers (elected.insertionSort fun x y => x.producerName ≤ y.producerName)

/-! ## `onblock` -/

/-- The parts of a block's reward: for producing it, for the producers and for the voters. -/
def splitReward (reward : Asset) : Except String (Asset × Asset × Asset) := do
  let produce ← reward.mul rewardForProduceP
  let forProduce ← produce.div 100
  let bps ← reward.mul rewardForBpsP
  let forBps ← bps.div 100
  let both ← forBps.add forProduce
  let forUser ← reward.sub both
  return (forProduce, forBps, forUser)

/-- The part of a block's reward that goes to the miners' pool: none, as configured. -/
def payPow (rewardCurrentBlock : Asset) : ContractM Asset := do
  let negative ← (core 0).gt rewardCurrentBlock
  let rewardForPow := if negative then rewardCurrentBlock else core 0
  whenever (← rewardForPow.gt (core 0))
    (Token.issueTokenInline powPoolAccountName rewardForPow "issue tokens for pow pool")
  liftM (rewardCurrentBlock.sub rewardForPow)

/-- The action at the start of a block. -/
def onblock (bpname : Name) (scheduleVersion : Nat) : ContractM Unit := do
  let currentBlock ← currentBlockNum
  let producers := blockProducers (← activeProducers)
  countBlock bpname scheduleVersion producers currentBlock
  let reward ← Asset.ofAmount (← rewardSchedule currentBlock)
  let toVid ← rewardToVid currentBlock
  let reward ← payVid reward toVid
  whenever (← reward.gt (core 0))
    (Token.issueTokenInline systemAccountName reward "issue tokens for block reward")
  let reward ← payPow reward
  let parts ← splitReward reward
  rewardBpsAndUser producers bpname parts.1 parts.2.1 parts.2.2
  whenever (currentBlock % updateCycle = 0) (updateElectedBps currentBlock)

/-! ## Producers -/

/-- A producer registers or updates its data. -/
def updatebp (bpname invite : Name) (blockSigningKey : PublicKey) (url : List UInt8) :
    ContractM Unit := do
  requireAuth bpname
  eosioAssert (url.length < 64) "url too long"
  let opened ← findRow bpopenedTable () bpname
  eosioAssert opened.isSome "bp account not allow"
  let currBlockNum ← currentBlockNum
  match ← findRow bpsTable () bpname with
  | none =>
    emplace bpsTable () bpname bpname
      { name := bpname, invite, blockSigningKey, url, voteageUpdateHeight := currBlockNum }
  | some _ => modifyRow bpsTable () bpname 0 fun b => pure { b with blockSigningKey, url }

/-- A producer becomes inactive. -/
def removebp (bpname : Name) : ContractM Unit := do
  requireAuth systemAccountName
  let _ ← getRow bpsTable () bpname "bpname is not registered"
  modifyRow bpsTable () bpname 0 fun b => pure { b with isactive := false }

def openbp (producer : Name) : ContractM Unit := do
  requireAuth systemAccountName
  let opened ← findRow bpopenedTable () producer
  eosioAssert opened.isNone "producer has into opened list"
  emplace bpopenedTable () systemAccountName producer ⟨producer⟩

def banbp (producer : Name) : ContractM Unit := do
  requireAuth systemAccountName
  eosioAssert (¬ isGenesisInitBp producer) "cannot ban genesis bp"
  let opened ← findRow bpopenedTable () producer
  eosioAssert opened.isSome "producer not in opened list"
  eraseRow bpopenedTable () producer

/-- A producer deposits a pawn. -/
def bppawn (bpname : Name) (pawn : Asset) : ContractM Unit := do
  requireAuth bpname
  eosioAssert (¬ isGenesisInitBp bpname) "genesis bp cannot bppawn"
  eosioAssert (← pawn.gt (core 0)) "pawn should > 0"
  let _ ← getRow bpsTable () bpname "block producer not reg"
  modifyRow bpsTable () bpname 0 fun b => do
    let total ← b.pawn.add pawn
    return { b with pawn := total }
  executeInline (Token.transferAction bpname bpPawnAccountName pawn "pawn for bp")

/-- A producer takes its pawn back. -/
def bpredeem (bpname : Name) : ContractM Unit := do
  requireAuth bpname
  eosioAssert (¬ isGenesisInitBp bpname) "genesis bp cannot bpredeem"
  let bp ← getRow bpsTable () bpname "block producer not reg"
  eosioAssert (bp.totalStaked ≤ 0) "bp total staked should be zero"
  executeInline (Token.transferAction bpPawnAccountName bpname bp.pawn "redeem pawn for bp")
  modifyRow bpsTable () bpname 0 fun b => pure { b with pawn := core 0 }

/-- A producer takes its rewards. -/
def bpclaim (bpname : Name) : ContractM Unit := do
  requireAuth bpname
  let bp ← getRow bpsTable () bpname "block producer not reg"
  eosioAssert (← bp.rewardsBlock.ge (core (500 * 10000))) "bp reward max >= 500.0000 BACC"
  let rounded ← bp.rewardsBlock.add (core 50)
  let fee ← rounded.div 100
  let reward ← bp.rewardsBlock.sub fee
  Token.sendTokenInline systemAccountName bpname reward "bp claim block reward"
  Token.sendTokenInline systemAccountName ecosystemAccountName fee "bp claim block reward fee"
  modifyRow bpsTable () bpname 0 fun b => pure { b with rewardsBlock := core 0 }

/-! ## Accounts and parameters -/

def setvidparam (coefficient : Nat) (rewardPerVid : Asset) : ContractM Unit := do
  requireAuth systemAccountName
  match ← findRow vidParamsTable () vidParamsName with
  | none =>
    emplace vidParamsTable () systemAccountName vidParamsName
      { id := vidParamsName, vidRewardCoefficient := coefficient, rewardPerVid }
  | some _ =>
    modifyRow vidParamsTable () vidParamsName systemAccountName fun vs =>
      pure { vs with vidRewardCoefficient := coefficient, rewardPerVid }

def setparams (maxAuthorityDepth : Nat) : ContractM Unit := do
  requireAuth systemAccountName
  eosioAssert (3 ≤ maxAuthorityDepth) "max_authority_depth should be at least 3"

/-- Record a new account among those created in the current block. -/
def countVid (info : VidInfo) : ContractM Unit := do
  let currBlock ← currentBlockNum
  match ← findRow vidStatsTable () currBlock with
  | none =>
    emplace vidStatsTable () systemAccountName currBlock
      { blockNum := currBlock, vidCount := 1, vids := [info] }
  | some _ =>
    modifyRow vidStatsTable () currBlock systemAccountName fun vs =>
      pure { vs with vidCount := add32 vs.vidCount 1, vids := vs.vids ++ [info] }

def newaccount (newName vid : Name) : ContractM Unit := do
  emplace userResourcesTable newName newName newName { owner := newName }
  setResourceLimits newName 0 0 0
  let used ← findRow vidsTable () vid
  eosioAssert used.isNone "vid has been used"
  emplace vidsTable () newName vid ⟨vid, newName⟩
  countVid ⟨vid, newName⟩

end SystemContract

end BaccChain
