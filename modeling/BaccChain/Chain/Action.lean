import BaccChain.Contracts.Rows

/-!
# Actions

The actions of `noc.system` and `noc.token` with the arguments their handlers read, and the view
of the chain in which an action is executed.
-/

namespace BaccChain

/-- An account and one of its permissions. -/
structure PermissionLevel where
  actor : Name
  permission : Name
  deriving DecidableEq

/-- The actions of `noc.system`. -/
inductive SystemAction
  | updatebp (bpname invite : Name) (blockSigningKey : PublicKey) (url : List UInt8)
  | freeze (voter : Name) (stake : Asset)
  | unfreeze (voter : Name)
  | vote (voter bpname : Name) (stake : Asset)
  | votebyreward (voter bpname : Name)
  | votestatic (voter bpname : Name) (stake : Asset) (typ : Nat)
  | quitsvote (voter bpname : Name) (idx : Nat)
  | vote4ram (voter bpname : Name) (stake : Asset)
  | claim (voter bpname : Name)
  | onblock (bpname : Name) (scheduleVersion : Nat)
  | setparams (maxAuthorityDepth : Nat)
  | removebp (bpname : Name)
  | openbp (producer : Name)
  | banbp (producer : Name)
  | bppawn (bpname : Name) (pawn : Asset)
  | bpredeem (bpname : Name)
  | bpclaim (bpname : Name)
  | setvidparam (coefficient : Nat) (rewardPerVid : Asset)
  | newaccount (newName vid : Name)
  | setram (account : Name) (stake : Asset)
  | delegatebw (fromAccount receiver : Name) (stakeNetQuantity stakeCpuQuantity : Asset)
      (transfer : Bool)
  | undelegatebw (fromAccount receiver : Name) (unstakeNetQuantity unstakeCpuQuantity : Asset)
  | refund (owner : Name)
  | updateauth | deleteauth | linkauth | unlinkauth | canceldelay | onerror | setconfig | setcode
  | setfee | setabi

/-- The actions of `noc.token`. -/
inductive TokenAction
  | create (issuer : Name) (maximumSupply : Asset)
  | issue (toAccount : Name) (quantity : Asset) (memo : String)
  | transfer (fromAccount toAccount : Name) (quantity : Asset) (memo : String)
  | fee (payer : Name) (quantity : Asset)

/-- An action of one of the two contracts, by name and arguments. -/
inductive ActionData
  | system (a : SystemAction)
  | token (a : TokenAction)

/-- An action as a transaction has it: who authorized it, and what is called. -/
structure Action where
  authorization : List PermissionLevel
  data : ActionData

def Action.account (act : Action) : Name :=
  match act.data with
  | .system _ => systemAccountName
  | .token _ => tokenAccountName

def Action.AuthorizedBy (act : Action) (n : Name) : Prop := ∃ p ∈ act.authorization, p.actor = n

instance (act : Action) (n : Name) : Decidable (act.AuthorizedBy n) :=
  inferInstanceAs (Decidable (∃ p ∈ act.authorization, p.actor = n))

/-- What an action can ask of the chain: the block it runs in, the accounts and permissions, and the
checks of the chain's authorization manager. -/
structure World where
  blockNum : Nat
  blockNum_lt : blockNum < 2 ^ 32
  now : Nat
  activeProducers : List Name
  isAccount : Name → Bool
  findPermission : PermissionLevel → Bool
  checkAuthorization : Name → Action → Bool
  isProducingBlock : Bool
  maxInlineActionDepth : Nat
  calcRewardByBlock : Nat → Nat
  spareStake : Nat → Int

end BaccChain
