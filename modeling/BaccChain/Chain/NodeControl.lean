import BaccChain.Chain.BlockBuilding

/-!
# The controller in front of a call

What a call of a contract reads from the controller: the status of the block, the node's own
configuration, the time, and parameters of the chain.
-/

namespace BaccChain

open Commons

/-- The status of the block that a node works on: the node produces a block as long as it is
incomplete. -/
inductive BlockStatus
  | irreversible | validated | complete | incomplete
  deriving DecidableEq

/-- The configuration of a node, which is its own. -/
structure NodeConfig where
  actorWhitelist : FlatSet Name := .empty
  actorBlacklist : FlatSet Name := .empty
  senderBypassWhiteblacklist : FlatSet Name := .empty
  allowRamBillingInNotify : Bool := false
  forceAllChecks : Bool := false
  disableReplayOpts : Bool := false
  /-- The validation mode of the node is the light one. -/
  lightValidation : Bool := false

namespace NodeConfig

/-- Every actor is on the whitelist: both are in order, and the search for an actor starts where the
one before was found. -/
def allListed : List Name → List Name → Bool
  | [], _ => true
  | actor :: actors, whitelist =>
    match whitelist.dropWhile (· < actor) with
    | [] => false
    | found :: rest => if found = actor then allListed actors rest else false

def anyListed : List Name → List Name → Bool
  | [], _ => false
  | actor :: actors, blacklist =>
    match blacklist.dropWhile (· < actor) with
    | [] => false
    | found :: rest => if found = actor then true else anyListed actors (found :: rest)

/-- The actors are within the extents of the whitelist, and each is on it. -/
def isSubset (actors whitelist : List Name) : Bool :=
  if whitelist.headD 0 ≤ actors.headD 0 ∧ actors.getLastD 0 ≤ whitelist.getLastD 0 then
    allListed actors whitelist
  else false

/-- The extents of the actors and the blacklist overlap, and some actor is on it. -/
def intersects (actors blacklist : List Name) : Bool :=
  if actors.headD 0 ≤ blacklist.getLastD 0 ∧ blacklist.headD 0 ≤ actors.getLastD 0 then
    anyListed actors blacklist
  else false

/-- The whitelist decides if there is one, and the blacklist if not. -/
def checkActorList (conf : NodeConfig) (actors : FlatSet Name) : Except String Unit :=
  if actors.toList = [] then pure ()
  else if conf.actorWhitelist.toList ≠ [] then
    check (isSubset actors.toList conf.actorWhitelist.toList = true)
      "authorizing actor(s) in transaction are not on the actor whitelist"
  else if conf.actorBlacklist.toList ≠ [] then
    check (¬ intersects actors.toList conf.actorBlacklist.toList = true)
      "authorizing actor(s) in transaction are on the actor blacklist"
  else pure ()

end NodeConfig

/-- The controller, with a pending block. -/
structure Control where
  conf : NodeConfig := {}
  status : BlockStatus
  /-- Checks that are otherwise left out have to be made. -/
  inTrxRequiringChecks : Bool := false
  trustedProducerLightValidation : Bool := false
  pendingBlockTime : Nat
  headBlockId : BlockId
  maxAuthorityDepth : Nat
  maxTransactionDelay : Nat
  basePerTransactionNetUsage : Nat
  deferredTrxExpirationWindow : Nat

namespace Control

variable (ctl : Control)

def isProducingBlock : Bool := decide (ctl.status = .incomplete)

def lightValidationAllowed (replayOptsDisabledByPolicy : Bool) : Bool :=
  if ctl.inTrxRequiringChecks then false
  else
    -- a block that is irreversible or was validated before
    (decide (ctl.status = .irreversible ∨ ctl.status = .validated) &&
      !replayOptsDisabledByPolicy) ||
    -- or a signed block, in the light mode
    (decide (ctl.status = .complete) &&
      (ctl.conf.lightValidation || ctl.trustedProducerLightValidation))

def skipAuthCheck : Bool := ctl.lightValidationAllowed ctl.conf.forceAllChecks

def skipTrxChecks : Bool := ctl.lightValidationAllowed ctl.conf.disableReplayOpts

def isRamBillingInNotifyAllowed : Bool :=
  !ctl.isProducingBlock || ctl.conf.allowRamBillingInNotify

def senderAvoidsWhitelistBlacklistEnforcement (sender : Name) : Bool :=
  decide (sender ∈ ctl.conf.senderBypassWhiteblacklist)

def withStatus (status : BlockStatus) : Control := { ctl with status }

end Control

end BaccChain
