import BaccChain.Chain.Requests
import BaccChain.Commons.Accepts

/-!
# What a producer accepts, validators accept

Each step of a call is the same for a producing and a validating node, or a check that only the
producer makes.

## Main results

* `Request.validators_accept`: a request that a producer accepts
-/

namespace BaccChain

open Commons

variable {status : BlockStatus}

namespace Control

variable (ctl : Control)

@[simp] theorem isProducingBlock_incomplete :
    (ctl.withStatus .incomplete).isProducingBlock = true :=
  rfl

theorem isProducingBlock_of_ne (h : status ≠ .incomplete) :
    (ctl.withStatus status).isProducingBlock = false :=
  decide_eq_false h

theorem lightValidationAllowed_incomplete (b : Bool) :
    (ctl.withStatus .incomplete).lightValidationAllowed b = false := by
  unfold lightValidationAllowed
  split_ifs <;> rfl

end Control

namespace CallEnv

variable {codec : Codec} (e : CallEnv) {s : CallState}

/-- **A failed authority check** stops a validator only if it stops the producer: what a contract
sends to itself is let pass, and everything else is checked in the same way. -/
theorem onAuthorizationFailure_accepts (h : status ≠ .incomplete) {toSelf : Bool} (msg : String)
    {x y : Except String Unit} (hxy : toSelf = false → y = x) :
    Accepts ((e.withStatus .incomplete).onAuthorizationFailure toSelf msg x)
      ((e.withStatus status).onAuthorizationFailure toSelf msg y) := by
  cases toSelf with
  | false =>
    rw [hxy rfl]
    exact Accepts.refl _
  | true =>
    have hvalidating : (e.withStatus status).control.isProducingBlock = false :=
      e.control.isProducingBlock_of_ne h
    have hpass : (e.withStatus status).onAuthorizationFailure true msg y = pure () := by
      cases y with
      | ok => rfl
      | error => simp [onAuthorizationFailure, hvalidating]
    rw [hpass]
    exact Accepts.skip _

theorem enforceActorList_accepts (h : status ≠ .incomplete) (a : RawAction) :
    Accepts ((e.withStatus .incomplete).enforceActorList a)
      ((e.withStatus status).enforceActorList a) := by
  have hvalidating : (e.withStatus status).control.isProducingBlock = false :=
    e.control.isProducingBlock_of_ne h
  have hskip : (e.withStatus status).enforceActorList a = pure () := by
    rw [enforceActorList, hvalidating, if_neg (fun hc => Bool.false_ne_true hc.2)]
  rw [hskip]
  exact Accepts.skip _

theorem inheritedAuthorizations_of_ne {a : RawAction} (h : a.account ≠ e.receiver) :
    e.inheritedAuthorizations a = [] := if_neg fun hc => h hc.1

theorem checkInline_accepts (h : status ≠ .incomplete) (a : RawAction) :
    Accepts ((e.withStatus .incomplete).checkInline codec a s)
      ((e.withStatus status).checkInline codec a s) := by
  unfold checkInline
  refine Accepts.whenever (fun hq => ⟨e.control.lightValidationAllowed_incomplete _, hq.2⟩) ?_
  refine e.onAuthorizationFailure_accepts h _ fun hself => ?_
  have hne : a.account ≠ e.receiver := of_decide_eq_false hself
  rw [(e.withStatus status).inheritedAuthorizations_of_ne hne,
    (e.withStatus .incomplete).inheritedAuthorizations_of_ne hne]
  rfl

theorem executeInline_accepts (h : status ≠ .incomplete) (a : RawAction) :
    Accepts ((e.withStatus .incomplete).executeInline codec a s)
      ((e.withStatus status).executeInline codec a s) :=
  (Accepts.refl _).seq <| (Accepts.refl _).seq <| (e.enforceActorList_accepts h a).seq <|
    (e.checkInline_accepts h a).seq (Accepts.refl _)

theorem validateReferencedAccounts_accepts (h : status ≠ .incomplete) (trx : FullTransaction) :
    Accepts
      ((e.withStatus .incomplete).validateReferencedAccounts trx
        ((e.withStatus .incomplete).enforceWhiteblacklist &&
          (e.withStatus .incomplete).control.isProducingBlock &&
          !(e.withStatus .incomplete).control.senderAvoidsWhitelistBlacklistEnforcement
            (e.withStatus .incomplete).receiver) s)
      ((e.withStatus status).validateReferencedAccounts trx
        ((e.withStatus status).enforceWhiteblacklist &&
          (e.withStatus status).control.isProducingBlock &&
          !(e.withStatus status).control.senderAvoidsWhitelistBlacklistEnforcement
            (e.withStatus status).receiver) s) := by
  have hvalidating : (e.withStatus status).control.isProducingBlock = false :=
    e.control.isProducingBlock_of_ne h
  rw [hvalidating, Bool.and_false, Bool.false_and]
  exact (Accepts.refl _).seq <| (Accepts.refl _).seq <| (Accepts.refl _).seq (Accepts.skip _)

theorem addNetUsage_accepts (u : Nat) :
    Accepts ((e.withStatus .incomplete).addNetUsage u s)
      ((e.withStatus status).addNetUsage u s) := by
  refine Accepts.seq ?_ (Accepts.refl _)
  by_cases hle : (s.netUsage + u) % 2 ^ 64 ≤ e.eagerNetLimit
  · have hpass : (e.withStatus status).checkNetUsage ((s.netUsage + u) % 2 ^ 64) = pure () :=
      if_pos (.inr hle)
    rw [hpass]
    exact Accepts.skip _
  · have hskip : (e.withStatus .incomplete).control.skipTrxChecks = false :=
      e.control.lightValidationAllowed_incomplete _
    have hnot : ¬ ((e.withStatus .incomplete).control.skipTrxChecks = true ∨
        (s.netUsage + u) % 2 ^ 64 ≤ (e.withStatus .incomplete).eagerNetLimit) := by
      rw [hskip]
      exact not_or.mpr ⟨Bool.false_ne_true, hle⟩
    unfold checkNetUsage
    rw [if_neg hnot]
    split_ifs <;> exact Accepts.of_error _

theorem checkDeferred_accepts (h : status ≠ .incomplete) (payer : Name) (trx : FullTransaction) :
    Accepts ((e.withStatus .incomplete).checkDeferred codec payer trx s)
      ((e.withStatus status).checkDeferred codec payer trx s) := by
  unfold checkDeferred
  refine Accepts.whenever (fun hq => ⟨e.control.lightValidationAllowed_incomplete _, hq.2⟩) ?_
  exact (Accepts.refl _).seq (e.onAuthorizationFailure_accepts h _ fun _ => rfl)

theorem storeGenerated_accepts (senderId : Nat) (payer : Name) (trx : FullTransaction)
    (replaceExisting : Bool) (generated : List GeneratedTransaction) :
    Accepts
      ((e.withStatus .incomplete).storeGenerated codec senderId payer trx replaceExisting generated)
      ((e.withStatus status).storeGenerated codec senderId payer trx replaceExisting
        generated) := by
  have hreceiver (st : BlockStatus) : (e.withStatus st).receiver = e.receiver := rfl
  unfold storeGenerated
  simp only [hreceiver]
  cases generated.find? fun g => decide (g.sender = e.receiver ∧ g.senderId = senderId) with
  | none => exact Accepts.refl _
  | some old =>
    intro generated' hstored
    obtain ⟨_, _, hrest⟩ := bind_eq_ok.mp hstored
    obtain ⟨_, hreplaced, _⟩ := bind_eq_ok.mp hrest
    exact absurd e.control.isProducingBlock_incomplete (check_eq_ok.mp hreplaced)

theorem scheduleDeferredTransaction_accepts (h : status ≠ .incomplete) (senderId : Nat)
    (payer : Name) (trx : FullTransaction) (replaceExisting : Bool) :
    Accepts
      ((e.withStatus .incomplete).scheduleDeferredTransaction codec senderId payer trx
        replaceExisting s)
      ((e.withStatus status).scheduleDeferredTransaction codec senderId payer trx
        replaceExisting s) := by
  have hallowed : (e.withStatus status).control.isRamBillingInNotifyAllowed = true := by
    unfold Control.isRamBillingInNotifyAllowed
    rw [show (e.withStatus status).control.isProducingBlock = false from
      e.control.isProducingBlock_of_ne h]
    rfl
  refine (Accepts.refl _).seq ?_
  refine (e.validateReferencedAccounts_accepts h (e.deferred trx)).seq ?_
  refine (e.addNetUsage_accepts _).bind fun s' _ => ?_
  refine (e.checkDeferred_accepts h payer (e.deferred trx)).seq ?_
  refine (e.storeGenerated_accepts senderId payer (e.deferred trx) replaceExisting _).bind
    fun generated _ => ?_
  exact (Accepts.check _ _ fun _ => .inl hallowed).seq (Accepts.refl _)

end CallEnv

def userAndContract : NativeDb where
  accounts := (Table.empty.insert 5 {}).insert 6 {}
  permissions := Table.empty.insert (toLex (6, activeName))
    { id := 1, parent := 0, lastUpdated := 0, auth := { threshold := 1, keys := [⟨1, 1⟩] } }

def Codec.empty : Codec where
  updateauth _ := .error "no action"
  deleteauth _ := .error "no action"
  linkauth _ := .error "no action"
  unlinkauth _ := .error "no action"
  canceldelay _ := .error "no action"
  packTransaction _ := []
  unpackTransaction _ := .ok {}
  sha256 _ := 0

def userCall : CallEnv where
  control :=
    { status := .incomplete, pendingBlockTime := 0, headBlockId := 0
      maxAuthorityDepth := 6, maxTransactionDelay := 0, basePerTransactionNetUsage := 0
      deferredTrxExpirationWindow := 0 }
  receiver := 5
  act := { account := 5, name := 1, authorization := [⟨6, activeName⟩] }
  published := 0
  eagerNetLimit := 0

/-- **What a producer accepts, validators accept.** A request that succeeds while a node produces
the block succeeds with the same result while a node works on a block of any other status, whether
it makes the checks again or trusts the block. -/
theorem Request.validators_accept (codec : Codec) (e : CallEnv) (req : Request) (s s' : CallState)
    (status : BlockStatus) (hstatus : status ≠ .incomplete)
    (hproducer : req.call codec (e.withStatus .incomplete) s = .ok s') :
    req.call codec (e.withStatus status) s = .ok s' := by
  cases req with
  | inlineAction a => exact e.executeInline_accepts hstatus a s' hproducer
  | deferredTransaction senderId payer trx replaceExisting =>
    exact e.scheduleDeferredTransaction_accepts hstatus senderId payer trx replaceExisting s'
      hproducer

/-- The contract sends an action to itself in the name of the user, whose permission it does not
have: the producer accepts it since the user has authorised the parent action. -/
theorem Request.validators_accept_toSelf :
    ∃ s', (Request.inlineAction
        { account := 5, name := 2, authorization := [⟨6, activeName⟩] }).call .empty
          (userCall.withStatus .complete) { db := userAndContract } = .ok s' ∧
      s'.inlineActions.length = 1 :=
  ⟨_, Request.validators_accept .empty userCall _ _ _ .complete (by decide) rfl, rfl⟩

end BaccChain
