import BaccChain.Chain.MultiIndex
import BaccChain.Eosiolib.Asset

/-!
# The rows of the two contracts

The row types of `noc.system` and `noc.token`, with the defaults of their declarations and the
size of their serialised form, and the database that holds both contracts' tables.
-/

namespace BaccChain

open Asset (core)

/-- A key, as a number. -/
abbrev PublicKey := Nat

/-! ## Rows of `noc.system` -/

/-- A vote for a fixed term. -/
structure VoteInfoItem where
  vote : Asset := core 0
  votepower : Asset := core 0
  votepowerAge : Int := 0
  votepowerAgeUpdateHeight : Nat := 0
  unfreezeBlockNum : Nat := 0
  freezeBlockNum : Nat := 0
  isHasQuited : Bool := false

/-- The votes of a voter for a producer. -/
structure VoteInfo where
  bpname : Name
  vote : Asset := core 0
  votepower : Asset := core 0
  voteage : Int := 0
  voteageUpdateHeight : Nat := 0
  staticVotes : List VoteInfoItem := []

/-- What a voter has on votes. -/
structure VoterInfo where
  voter : Name
  voteall : Asset := core 0
  bpnames : List Name := []

/-- A producer that has opened its account. -/
structure BpOpened where
  bpname : Name

/-- The amounts a voter has frozen: available for votes, and on their way out. -/
structure FreezeInfo where
  staked : Asset := core 0
  unstaking : Asset := core 0
  voter : Name
  unstakeHeight : Nat := 0

/-- What a voter has staked for RAM. -/
structure Vote4ramInfo where
  voter : Name
  staked : Asset := core 0

/-- A producer. -/
structure BpInfo where
  name : Name
  invite : Name
  blockSigningKey : PublicKey
  totalStaked : Int := 0
  rewardsPool : Asset := core 0
  rewardsBlock : Asset := core 0
  totalVoteage : Int := 0
  voteageUpdateHeight : Nat
  url : List UInt8
  pawn : Asset := core 0
  emergency : Bool := false
  isactive : Bool := true

/-- A producer of a schedule and the number of blocks it made. -/
structure ProducerCount where
  bpname : Name
  amount : Nat

/-- A schedule, and what its producers have produced. -/
structure ScheduleInfo where
  version : Nat
  blockHeight : Nat
  producers : List ProducerCount

/-- A video and its account. -/
structure VidInfo where
  vid : Name
  account : Name

/-- The videos of a day. -/
structure VidState where
  blockNum : Nat
  vidCount : Nat
  vids : List VidInfo

/-- The reward for videos. -/
structure VidParams where
  id : Name
  vidRewardCoefficient : Nat
  rewardPerVid : Asset

/-- The resources of an account. -/
structure UserResources where
  owner : Name
  netWeight : Asset := core 0
  cpuWeight : Asset := core 0
  ramBytes : Int := 0

/-- What one account has delegated to another. -/
structure DelegatedBandwidth where
  fromAccount : Name
  toAccount : Name
  netWeight : Asset
  cpuWeight : Asset

def UserResources.weights (u : UserResources) : Int × Int :=
  (u.netWeight.amount, u.cpuWeight.amount)

def DelegatedBandwidth.weights (b : DelegatedBandwidth) : Int × Int :=
  (b.netWeight.amount, b.cpuWeight.amount)

def DelegatedBandwidth.amount (b : DelegatedBandwidth) : Int :=
  b.netWeight.amount + b.cpuWeight.amount

/-- A refund that is due later. -/
structure RefundRequest where
  owner : Name
  requestTime : Nat
  netAmount : Asset := core 0
  cpuAmount : Asset := core 0

def RefundRequest.amount (r : RefundRequest) : Int := r.netAmount.amount + r.cpuAmount.amount

/-- Both parts of a pending refund are amounts to be paid, in the core token. -/
structure RefundRequest.Regular (r : RefundRequest) : Prop where
  net_nonneg : 0 ≤ r.netAmount.amount
  cpu_nonneg : 0 ≤ r.cpuAmount.amount
  symbol : r.netAmount.symbol = coreSymbol

/-! ## Rows of `noc.token` -/

/-- A balance. -/
structure Account where
  balance : Asset

/-- A token. -/
structure CurrencyStats where
  supply : Asset
  maxSupply : Asset
  issuer : Name

/-! ## Serialised sizes -/

/-- Rows with the size of their serialised form. -/
class PackSize (α : Type) where
  packSize : α → Nat

export PackSize (packSize)

def varintSize (n : Nat) : Nat :=
  if n < 2 ^ 7 then 1 else if n < 2 ^ 14 then 2 else if n < 2 ^ 21 then 3
  else if n < 2 ^ 28 then 4 else 5

theorem varintSize_mono {m n : Nat} (h : m ≤ n) : varintSize m ≤ varintSize n := by
  unfold varintSize
  split_ifs <;> omega

instance : PackSize VoteInfo := ⟨fun v =>
  52 + varintSize v.staticVotes.length + 53 * v.staticVotes.length⟩
instance : PackSize VoterInfo := ⟨fun v => 24 + varintSize v.bpnames.length + 8 * v.bpnames.length⟩
instance : PackSize BpOpened := ⟨fun _ => 8⟩
instance : PackSize FreezeInfo := ⟨fun _ => 44⟩
instance : PackSize Vote4ramInfo := ⟨fun _ => 24⟩
instance : PackSize BpInfo := ⟨fun b => 120 + varintSize b.url.length + b.url.length⟩
instance : PackSize ScheduleInfo := ⟨fun s => 13 + 12 * s.producers.length⟩
instance : PackSize VidInfo := ⟨fun _ => 16⟩
instance : PackSize VidState := ⟨fun s => 8 + varintSize s.vids.length + 16 * s.vids.length⟩
instance : PackSize VidParams := ⟨fun _ => 32⟩
instance : PackSize UserResources := ⟨fun _ => 48⟩
instance : PackSize DelegatedBandwidth := ⟨fun _ => 48⟩
instance : PackSize RefundRequest := ⟨fun _ => 44⟩
instance : PackSize Account := ⟨fun _ => 16⟩
instance : PackSize CurrencyStats := ⟨fun _ => 40⟩

/-! ## The database -/

/-- The limits of an account. -/
structure ResourceLimits where
  ramBytes : Int
  netWeight : Int
  cpuWeight : Int

/-- The tables of both contracts, and the limits that `noc.system` has set for accounts. -/
structure Db where
  freezed : MultiIndex Unit FreezeInfo := .empty
  votes : MultiIndex Name VoteInfo := .empty
  voterinfo : MultiIndex Unit VoterInfo := .empty
  vote4ramsum : MultiIndex Unit Vote4ramInfo := .empty
  bps : MultiIndex Unit BpInfo := .empty
  bpopened : MultiIndex Unit BpOpened := .empty
  schedules : MultiIndex Unit ScheduleInfo := .empty
  vids : MultiIndex Unit VidInfo := .empty
  vidstates : MultiIndex Unit VidState := .empty
  vidparam : MultiIndex Unit VidParams := .empty
  userres : MultiIndex Name UserResources := .empty
  delband : MultiIndex Name DelegatedBandwidth := .empty
  refunds : MultiIndex Name RefundRequest := .empty
  accounts : MultiIndex Name Account := .empty
  stat : MultiIndex Name CurrencyStats := .empty
  resourceLimits : Commons.Table Name ResourceLimits := .empty

namespace Db

def balance (d : Db) (owner : Name) (sym : Name) : Int :=
  d.accounts.weightAt (fun _ _ a => a.balance.amount) owner sym

theorem balance_of_find {d : Db} {owner sym : Name} {a : Account}
    (h : d.accounts.find owner sym = some a) : d.balance owner sym = a.balance.amount :=
  MultiIndex.weightAt_of_find h

def coreBalance (d : Db) (owner : Name) : Int := d.balance owner (symbolName coreSymbol)

def sumBalances (d : Db) (sym : Name) : Int :=
  d.accounts.sum fun _ k a => if k = sym then a.balance.amount else 0

def staked (d : Db) (voter : Name) : Int :=
  d.freezed.weightAt (fun _ _ f => f.staked.amount) () voter

def unstaking (d : Db) (voter : Name) : Int :=
  d.freezed.weightAt (fun _ _ f => f.unstaking.amount) () voter

def voteall (d : Db) (voter : Name) : Int :=
  d.voterinfo.weightAt (fun _ _ v => v.voteall.amount) () voter

/-- The votes of a voter for a producer; without a row, no votes. -/
def voteRow (d : Db) (voter bpname : Name) : VoteInfo :=
  (d.votes.find voter bpname).getD { bpname }

/-- The amount that an account cannot spend; nothing is locked without a row of frozen tokens. -/
def locked (d : Db) (owner : Name) : Int :=
  if d.freezed.find () owner = none then 0
  else d.staked owner + d.unstaking owner + d.voteall owner

end Db

end BaccChain
