import BaccChain.Contracts.Token

/-!
# `noc.system`: freezing and voting

The actions of `voting.cpp`. A voter freezes core tokens, moves frozen tokens onto votes for a block
producer and back, and claims a share of the producer's reward pool by the age of the votes.

## Main definitions

* `freeze`, `vote`, `votestatic`, `quitsvote`, `claim`: the actions
-/

namespace BaccChain

open Commons.Program (fail whenever)
open Asset (core)

/-! ## Ages -/

/-- The age of all votes for a producer. -/
def BpInfo.newestTotalVoteage (bp : BpInfo) (currBlockNum : Nat) : Int :=
  wrap64 (bp.totalVoteage + wrap64 (bp.totalStaked * sub32 currBlockNum bp.voteageUpdateHeight))

def voteageAddon (votepower : Asset) (blocks : Nat) : Except String Int := do
  let age ← votepower.mul blocks
  return age.amount.tdiv 10000

/-- The age of a static vote at a height; a vote that was quit has stopped growing. -/
def VoteInfoItem.newestVoteage (sv : VoteInfoItem) (currBlockNum : Nat) : Except String Int :=
  if sv.isHasQuited then
    return sv.votepowerAge
  else do
    let addon ← voteageAddon sv.votepower (sub32 currBlockNum sv.votepowerAgeUpdateHeight)
    return sv.votepowerAge + addon

/-- The age of the votes of a row. -/
def VoteInfo.newestVoteage (vts : VoteInfo) (currBlockNum : Nat) : Except String Int := do
  let addon ← voteageAddon vts.votepower (sub32 currBlockNum vts.voteageUpdateHeight)
  vts.staticVotes.foldlM (fun age sv => do
    let svAge ← sv.newestVoteage currBlockNum
    return age + svAge) (vts.voteage + addon)

namespace SystemContract

/-- The number of blocks that frozen tokens wait before they can be paid out. -/
def frozenDelay : Nat := 7 * 24 * 60 * 20

def blockNumPerDay : Nat := 24 * 3600 * 2

/-! ## Shared parts -/

/-- A producer whose stake changes: its vote age is brought up to date first. -/
def changeStake (b : BpInfo) (stake : Int) (currBlockNum : Nat) : BpInfo :=
  { b with
    totalVoteage := b.newestTotalVoteage currBlockNum
    voteageUpdateHeight := currBlockNum
    totalStaked := wrap64 (b.totalStaked + stake) }

/-- The stake for a producer changes. -/
def modifyBpVote (bpname : Name) (stake : Int) (currBlockNum : Nat) : ContractM Unit :=
  modifyRow bpsTable () bpname 0 fun b => pure (changeStake b stake currBlockNum)

/-- The amount on votes changes. -/
def updateVoterInfo (voter : Name) (stakeChange : Asset) : ContractM Unit := do
  match ← findRow voterTable () voter with
  | none => emplace voterTable () voter voter { voter, voteall := stakeChange }
  | some vt => do
    let voteall ← vt.voteall.add stakeChange
    eosioAssert (← voteall.ge (core 0)) "cant to voteall < 0"
    modifyRow voterTable () voter voter fun v => do
      let voteall ← v.voteall.add stakeChange
      return { v with voteall }

def addToFreezes (voter : Name) (amount : Asset) (currBlockNum : Nat) : ContractM Unit := do
  match ← findRow freezedTable () voter with
  | none =>
    emplace freezedTable () voter voter
      { staked := amount, voter, unstakeHeight := currBlockNum }
  | some _ =>
    modifyRow freezedTable () voter 0 fun f => do
      let staked ← f.staked.add amount
      return { f with staked, unstakeHeight := currBlockNum }

def takeFromFreezes (voter : Name) (amount : Asset) : ContractM Unit := do
  match ← findRow freezedTable () voter with
  | none => fail "voter freeze token < vote token"
  | some fts => do
    eosioAssert (← fts.staked.ge amount) "voter freeze token < vote token"
    modifyRow freezedTable () voter 0 fun f => do
      let staked ← f.staked.sub amount
      return { f with staked }

/-- Assert that a producer's pawn covers the stake it is about to have: `limits` are the pawns and
the stakes they cover, and `unlimited` is the pawn that covers every stake. -/
def checkPawn (bp : BpInfo) (newTotalStaked : Int) (low middle : Int × Int) (unlimited : Int) :
    ContractM Unit := do
  let hasLow ← bp.pawn.ge (core low.1)
  let hasMiddle ← bp.pawn.ge (core middle.1)
  let hasUnlimited ← bp.pawn.ge (core unlimited)
  eosioAssert ((hasLow ∧ newTotalStaked ≤ low.2) ∨ (hasMiddle ∧ newTotalStaked ≤ middle.2) ∨
    hasUnlimited) "bp pawn no enough"

/-! ## `freeze` -/

def addVoteall (voter : Name) (stake : Asset) : ContractM Asset := do
  match ← findRow voterTable () voter with
  | none => pure stake
  | some vts => liftM (stake.add vts.voteall)

/-- The frozen row with its stake replaced; a stake taken back starts its way out. -/
def restake (v : FreezeInfo) (stake change : Asset) (currBlockNum : Nat) :
    Except String FreezeInfo := do
  if ← change.lt (core 0) then do
    let unstaking ← v.unstaking.add change.neg
    return { v with staked := stake, unstaking, unstakeHeight := currBlockNum }
  else return { v with staked := stake }

/-- Set the frozen stake; the result is `tobeStaked` and what is on its way out afterwards. -/
def setStake (voter : Name) (stake tobeStaked : Asset) (currBlockNum : Nat) :
    ContractM Asset := do
  match ← findRow freezedTable () voter with
  | none => do
    emplace freezedTable () voter voter { staked := stake, voter, unstakeHeight := currBlockNum }
    return tobeStaked
  | some fts => do
    let change ← stake.sub fts.staked
    modifyRow freezedTable () voter 0 fun v => liftM (restake v stake change currBlockNum)
    let fts ← getRow freezedTable () voter "unable to find key"
    liftM (tobeStaked.add fts.unstaking)

/-- The stake of a voter is set. -/
def freeze (voter : Name) (stake : Asset) : ContractM Unit := do
  requireAuth voter
  eosioAssert (stake.symbol = coreSymbol) "only support CORE SYMBOL token"
  eosioAssert (0 ≤ stake.amount ∧ stake.amount.tmod 10000 = 0)
    "need stake quantity >= 0 and quantity is integer"
  let tobeStaked ← addVoteall voter stake
  let currBlockNum ← currentBlockNum
  let tobeStaked ← setStake voter stake tobeStaked currBlockNum
  let ac ← getRow accountsTable voter (symbolName stake.symbol) "no find voter account!"
  eosioAssert (← ac.balance.ge tobeStaked) "not have so much tokens!"

/-! ## `vote` -/

/-- Set the vote of a row. The age gained so far is computed from the vote, not from the power. -/
def revote (v : VoteInfo) (stake votepower : Asset) (currBlockNum : Nat) : VoteInfo :=
  { v with
    voteage := wrap64 (v.voteage +
      wrap64 (v.vote.amount.tdiv 10000 * sub32 currBlockNum v.voteageUpdateHeight))
    voteageUpdateHeight := currBlockNum
    vote := stake
    votepower }

/-- Set the vote for a producer; the result is the change. A vote taken back returns to the frozen
stake. -/
def setVote (voter bpname : Name) (stake : Asset) (currBlockNum : Nat) : ContractM Asset := do
  match ← findRow votesTable voter bpname with
  | none => do
    let votepower ← stake.div 10
    emplace votesTable voter voter bpname
      { bpname, vote := stake, votepower, voteageUpdateHeight := currBlockNum }
    return stake
  | some vts => do
    let change ← stake.sub vts.vote
    modifyRow votesTable voter bpname 0 fun v => do
      let votepower ← stake.div 10
      whenever (← change.lt (core 0)) (addToFreezes voter change.neg currBlockNum)
      return revote v stake votepower currBlockNum
    return change

/-- A growing vote needs pawn of the producer and frozen stake of the voter. -/
def payVote (voter : Name) (bp : BpInfo) (change : Asset) : ContractM Unit := do
  checkPawn bp (wrap64 (bp.totalStaked + change.amount.tdiv (10 * 10000)))
    (5000 * 10000, 800 * 10000) (10000 * 10000, 2000 * 10000) (30000 * 10000)
  takeFromFreezes voter change

/-- A voter changes a vote to an amount. -/
def vote (voter bpname : Name) (stake : Asset) : ContractM Unit := do
  requireAuth voter
  let bp ← getRow bpsTable () bpname "bpname is not registered"
  eosioAssert (¬ isGenesisInitBp bpname) "genesis bp cannot vote"
  eosioAssert (stake.symbol = coreSymbol) "only support CORE SYMBOL token"
  eosioAssert ((100000 ≤ stake.amount ∧ stake.amount.tmod 100000 = 0) ∨ stake.amount = 0)
    "need stake quantity >= 10.0000 BACC and vote stake by power is integer"
  let currBlockNum ← currentBlockNum
  let change ← setVote voter bpname stake currBlockNum
  let shrinks ← change.lt (core 0)
  eosioAssert (bp.isactive ∨ shrinks) "bp is not active"
  whenever (← change.gt (core 0)) (payVote voter bp change)
  updateVoterInfo voter change
  modifyBpVote bpname (change.amount.tdiv (10 * 10000)) currBlockNum

/-! ## `votestatic` -/

/-- The static votes on offer: the days they are locked and the power they have. -/
def staticVoteData : List (Nat × Nat) := [(30, 1), (90, 3), (180, 6), (270, 9), (360, 12)]

def appendStaticVote (v : VoteInfo) (stake : Asset) (power lockBlockNum currBlockNum : Nat) :
    Except String VoteInfo := do
  let votepower ← stake.mul power
  return { v with staticVotes := v.staticVotes ++ [{
    vote := stake
    votepower
    votepowerAge := 0
    votepowerAgeUpdateHeight := currBlockNum
    unfreezeBlockNum := add32 currBlockNum lockBlockNum
    freezeBlockNum := lockBlockNum }] }

def addStaticVote (voter bpname : Name) (stake : Asset) (power lockBlockNum currBlockNum : Nat) :
    ContractM Unit := do
  match ← findRow votesTable voter bpname with
  | none => do
    let v ← appendStaticVote { bpname } stake power lockBlockNum currBlockNum
    emplace votesTable voter voter bpname v
  | some _ =>
    modifyRow votesTable voter bpname 0 fun v =>
      liftM (appendStaticVote v stake power lockBlockNum currBlockNum)

/-- A vote for a fixed term. -/
def votestatic (voter bpname : Name) (stake : Asset) (typ : Nat) : ContractM Unit := do
  requireAuth voter
  eosioAssert (¬ isGenesisInitBp bpname) "genesis bp cannot votestatic"
  eosioAssert (typ < staticVoteData.length) "typ param error"
  let currBlockNum ← currentBlockNum
  let lockBlockNum := (staticVoteData.getD typ (0, 0)).1 * blockNumPerDay
  let votePower := (staticVoteData.getD typ (0, 0)).2
  eosioAssert (stake.symbol = coreSymbol) "only support CORE SYMBOL token"
  eosioAssert (0 ≤ stake.amount ∧ stake.amount.tmod 10000 = 0)
    "need stake quantity >= 0 and quantity is integer"
  let bp ← getRow bpsTable () bpname "bpname is not registered"
  eosioAssert bp.isactive "bp is not active"
  checkPawn bp (wrap64 (bp.totalStaked + stake.amount.tdiv 10000))
    (5000 * 10000, 200 * 10000) (30000 * 10000, 1000 * 10000) (50000 * 10000)
  takeFromFreezes voter stake
  addStaticVote voter bpname stake votePower lockBlockNum currBlockNum
  updateVoterInfo voter stake
  let power ← stake.mul votePower
  modifyBpVote bpname (power.amount.tdiv 10000) currBlockNum

/-! ## `quitsvote` -/

def staticVoteAt (vts : Option VoteInfo) (idx : Nat) : Option VoteInfoItem :=
  vts.bind fun v => v.staticVotes[idx]?

/-- A static vote that is quit: its age stops growing, its vote and power are gone. -/
def quitItem (sv : VoteInfoItem) (currBlockNum : Nat) : Except String VoteInfoItem := do
  let addon ← voteageAddon sv.votepower (sub32 currBlockNum sv.votepowerAgeUpdateHeight)
  return { sv with
    isHasQuited := true
    votepowerAge := wrap64 (sv.votepowerAge + addon)
    votepowerAgeUpdateHeight := currBlockNum
    votepower := core 0
    vote := core 0 }

def quitStaticVote (v : VoteInfo) (idx currBlockNum : Nat) : Except String VoteInfo := do
  match v.staticVotes[idx]? with
  | none => return v
  | some sv => do
    let sv' ← quitItem sv currBlockNum
    return { v with staticVotes := v.staticVotes.set idx sv' }

/-- The stake of a static vote returns. -/
def quitsvote (voter bpname : Name) (idx : Nat) : ContractM Unit := do
  requireAuth voter
  let currBlockNum ← currentBlockNum
  let _ ← getRow bpsTable () bpname "bpname is not registered"
  let vts ← findRow votesTable voter bpname
  match staticVoteAt vts idx with
  | none => fail "no static vote data found"
  | some staticVoteData => do
    eosioAssert (¬ staticVoteData.isHasQuited) "no static vote data found"
    eosioAssert (staticVoteData.unfreezeBlockNum ≤ currBlockNum)
      "static vote not unfreeze block num"
    addToFreezes voter staticVoteData.vote currBlockNum
    modifyBpVote bpname (-(staticVoteData.votepower.amount.tdiv 10000)) currBlockNum
    modifyRow votesTable voter bpname 0 fun v => liftM (quitStaticVote v idx currBlockNum)
    -- `vote_token` is a reference into the row, which `modify` has just changed in place
    let vts ← findRow votesTable voter bpname
    let voteToken := (staticVoteAt vts idx).elim (core 0) (·.vote)
    updateVoterInfo voter voteToken.neg

/-! ## `claim` and `votebyreward` -/

/-- What a voter can claim from a producer: the two ages and the reward. -/
structure ClaimInfo where
  newestTotalVoteage : Int
  newestVoteage : Int
  reward : Asset

/-- The reward of a claim: the voter's share, by age, of the producer's reward pool. -/
def claimInfo (bp : BpInfo) (vts : VoteInfo) (currBlockNum : Nat) : Except String ClaimInfo := do
  let newestTotalVoteage := bp.newestTotalVoteage currBlockNum
  Commons.check (0 < newestTotalVoteage) "claim is not available yet"
  let newestVoteage ← vts.newestVoteage currBlockNum
  let amountVoteage := bp.rewardsPool.amount * newestVoteage
  let reward ← Asset.ofAmount (wrap64 (amountVoteage.tdiv newestTotalVoteage))
  let positive ← (core 0).lt reward
  let inPool ← reward.le bp.rewardsPool
  Commons.check (positive ∧ inPool) "need 0 <= claim reward quantity <= rewards_pool"
  return { newestTotalVoteage, newestVoteage, reward }

/-- The static votes of a row after a claim: no age, and those that were quit are dropped. -/
def settleStaticVotes (svs : List VoteInfoItem) (currBlockNum : Nat) : List VoteInfoItem :=
  let settled := svs.map fun sv =>
    { sv with votepowerAge := 0, votepowerAgeUpdateHeight := currBlockNum }
  if settled.any (·.isHasQuited) then settled.filter (¬ ·.isHasQuited) else settled

/-- Ages start again from here. -/
def settleVotes (v : VoteInfo) (currBlockNum : Nat) : VoteInfo :=
  { v with
    voteage := 0
    voteageUpdateHeight := currBlockNum
    staticVotes := settleStaticVotes v.staticVotes currBlockNum }

/-- The reward leaves the pool. -/
def payFromPool (b : BpInfo) (info : ClaimInfo) (currBlockNum : Nat) : Except String BpInfo := do
  let rewardsPool ← b.rewardsPool.sub info.reward
  return { b with
    rewardsPool
    totalVoteage := wrap64 (info.newestTotalVoteage - info.newestVoteage)
    voteageUpdateHeight := currBlockNum }

/-- A voter takes a reward. -/
def claim (voter bpname : Name) : ContractM Unit := do
  requireAuth voter
  let bp ← getRow bpsTable () bpname "bpname is not registered"
  let vts ← getRow votesTable voter bpname "voter have not add votes to the the producer yet"
  let currBlockNum ← currentBlockNum
  let info ← claimInfo bp vts currBlockNum
  executeInline (Token.transferAction systemAccountName voter info.reward "claim")
  modifyRow votesTable voter bpname 0 fun v => pure (settleVotes v currBlockNum)
  modifyRow bpsTable () bpname 0 fun b => liftM (payFromPool b info currBlockNum)

def revoteReward (v : VoteInfo) (rewardAll votePower : Asset) (currBlockNum : Nat) :
    Except String VoteInfo := do
  let vote ← v.vote.add rewardAll
  let votepower ← v.votepower.add votePower
  return { settleVotes v currBlockNum with vote, votepower }

/-- A voter puts a reward on the vote. -/
def votebyreward (voter bpname : Name) : ContractM Unit := do
  requireAuth voter
  let bp ← getRow bpsTable () bpname "bpname is not registered"
  eosioAssert (¬ isGenesisInitBp bpname) "genesis bp cannot votebyreward"
  eosioAssert bp.isactive "bp is not active"
  let vts ← getRow votesTable voter bpname "voter have not add votes to the the producer yet"
  let currBlockNum ← currentBlockNum
  let info ← claimInfo bp vts currBlockNum
  let rewardAll ← Asset.ofAmount (info.reward.amount - info.reward.amount.tmod 100000)
  let votePower ← rewardAll.div 10
  modifyRow votesTable voter bpname 0 fun v =>
    liftM (revoteReward v rewardAll votePower currBlockNum)
  modifyRow bpsTable () bpname 0 fun b => liftM (payFromPool b info currBlockNum)
  updateVoterInfo voter rewardAll
  modifyBpVote bpname (votePower.amount.tdiv 10000) currBlockNum

/-! ## `unfreeze` -/

/-- Unstaked tokens are paid out. -/
def unfreeze (voter : Name) : ContractM Unit := do
  requireAuth voter
  let itr ← getRow freezedTable () voter "voter have not freeze token yet"
  let currBlockNum ← currentBlockNum
  eosioAssert (add32 itr.unstakeHeight frozenDelay < currBlockNum) "unfreeze is not available yet"
  eosioAssert (0 < itr.unstaking.amount) "need unstaking quantity > 0"
  executeInline (Token.transferAction systemAccountName voter itr.unstaking "unfreeze")

end SystemContract

end BaccChain
