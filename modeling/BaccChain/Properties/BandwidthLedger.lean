import BaccChain.Properties.NegativeRefund
import BaccChain.Properties.VoteInv

/-!
# The ledger of staked bandwidth

Stake for bandwidth is recorded in the row of the account that staked it, in the totals of the
account that may use it, and in the limits of that account.

## Main definitions

* `BandwidthLedger`: the three records agree

## Main results

* `bandwidth_ledger`: they do after every run
-/

namespace BaccChain

open Commons (run run_induction Along along_of_forall tally tally_sub run_eq_add_tally Avoids)
open Asset (core core_amount core_symbol)
open Token (transferAction)

variable {w : World} {depth : Nat} {d d' : Db}

/-! ## The three records -/

def Db.totalWeights (d : Db) (receiver : Name) : Int × Int :=
  d.userres.weightAt (fun _ _ tot => tot.weights) receiver receiver

/-- All that is delegated to an account. -/
def Db.delegatedTo (d : Db) (receiver : Name) : Int × Int :=
  d.delband.sum fun _ toAccount b => if toAccount = receiver then b.weights else 0

def Db.limitWeights (d : Db) (receiver : Name) : Int × Int :=
  (d.resourceLimits.find receiver).elim 0 fun limits => (limits.netWeight, limits.cpuWeight)

/-- **The ledger**: the three records of every receiver agree. -/
structure BandwidthLedger (d : Db) : Prop where
  totals : ∀ receiver, d.totalWeights receiver = d.delegatedTo receiver
  limits : ∀ receiver, d.limitWeights receiver = d.totalWeights receiver
  regular : ∀ scope owner r, d.refunds.find scope owner = some r → r.Regular

def SystemAction.stakesBandwidth : SystemAction → Bool
  | .newaccount _ _ | .refund _ => true
  | .delegatebw fromAccount _ _ _ _ | .undelegatebw fromAccount _ _ _ =>
    fromAccount ≠ systemAccountName
  | _ => false

def Step.stakesBandwidth (s : Step) : Bool :=
  match s.act.data with
  | .system a => a.stakesBandwidth
  | .token _ => false

/-- What a step takes from a balance for stake. -/
def Step.stakePaid (d : Db) (s : Step) (d' : Db) : Int :=
  match s.act.data with
  | .system (.delegatebw ..) =>
    d'.coreBalance systemAccountName - d.coreBalance systemAccountName
  | _ => 0

/-- What a step pays out. -/
def Step.refundPaid (d : Db) (s : Step) (d' : Db) : Int :=
  match s.act.data with
  | .system (.refund _) => d.coreBalance systemAccountName - d'.coreBalance systemAccountName
  | _ => 0

/-- The stake for bandwidth, with the part of it that is being refunded. -/
def Db.bandwidth (d : Db) : Int :=
  (d.delband.sum fun _ _ b => b.amount) + d.refunds.sum fun _ _ r => r.amount

namespace SystemContract

theorem handle_bandwidth {a : SystemAction} {e : Env} {c c' : Ctx}
    (h : handle a e c = .ok ((), c')) (ha : isBandwidth a = false) :
    c'.db.bandwidth = c.db.bandwidth := by
  obtain ⟨hdelband, hrefunds⟩ := (handle_frame h).1.bandwidth ha
  unfold Db.bandwidth
  rw [hdelband, hrefunds]

theorem BandwidthChange.bandwidth {sent : List Action} {delta : Int × Int}
    {owner receiver payer : Name} {left : Int}
    (h : BandwidthChange d d' payer owner receiver delta left sent)
    (hpayer : payer ≠ systemAccountName) : d'.bandwidth = d.bandwidth + left := by
  obtain ⟨o, hw, hamount⟩ := h.delband_amount
  obtain ⟨o', hw', hamount', -⟩ := h.refunds
  have hdelband := hw.sum fun _ _ b => b.amount
  have hrefunds := hw'.sum fun _ _ r => r.amount
  have hrefund := hamount' hpayer
  unfold Db.bandwidth
  omega

end SystemContract

/-! ## Payments to and from the system account -/

variable {memo : String} {amount : Int}

theorem coreBalance_transfer_to {payer : Name}
    (h : exec w depth (transferAction payer systemAccountName (core amount) memo) d = .ok d') :
    d'.coreBalance systemAccountName = d.coreBalance systemAccountName + amount := by
  obtain ⟨hne, hmoves⟩ := exec_transferAction h
  unfold Db.coreBalance
  rw [hmoves.balance, if_neg fun e => hne e.1.symm, if_pos ⟨rfl, rfl⟩, sub_zero]
  rfl

theorem coreBalance_transfer_from {payee : Name}
    (h : exec w depth (transferAction systemAccountName payee (core amount) memo) d = .ok d') :
    d'.coreBalance systemAccountName = d.coreBalance systemAccountName - amount := by
  obtain ⟨hne, hmoves⟩ := exec_transferAction h
  unfold Db.coreBalance
  rw [hmoves.balance, if_pos ⟨rfl, rfl⟩, if_neg fun e => hne e.1, add_zero]
  rfl

/-! ## What the actions do to the ledger -/

namespace SystemContract

variable {payer owner receiver : Name} {delta : Int × Int} {left : Int} {sent : List Action}

namespace BandwidthChange

theorem delegatedTo (h : BandwidthChange d d' payer owner receiver delta left sent) (r : Name) :
    d'.delegatedTo r = d.delegatedTo r + if receiver = r then delta else 0 := by
  obtain ⟨o, hw, hweights⟩ := h.delband
  refine hw.sum_eq_add ?_
  rw [MultiIndex.weightAt_ite]
  split_ifs with hr
  · exact hweights
  · rw [add_zero]
    cases o <;> rfl

theorem totalWeights (h : BandwidthChange d d' payer owner receiver delta left sent) (r : Name) :
    d'.totalWeights r = d.totalWeights r + if receiver = r then delta else 0 := by
  obtain ⟨o, w, ramBytes, hw, -, hweights, hsum⟩ := h.userres
  unfold Db.totalWeights
  rw [hw.weightAt]
  split_ifs with hr hne hne
  · obtain ⟨rfl, -⟩ := hr
    rw [hweights, hsum]
  · exact absurd hr.1.symm hne
  · exact absurd ⟨hne.symm, hne.symm⟩ hr
  · exact (add_zero _).symm

theorem limitWeights (h : BandwidthChange d d' payer owner receiver delta left sent) (r : Name) :
    d'.limitWeights r = if receiver = r then d'.totalWeights r else d.limitWeights r := by
  obtain ⟨o, w, ramBytes, hw, hlimits, hweights, -⟩ := h.userres
  unfold Db.limitWeights Db.totalWeights
  rw [hlimits, Commons.Table.find_insert]
  split_ifs with hr
  · subst hr
    rw [hw.weightAt_self, hweights]
    rfl
  · rfl

theorem ledger (h : BandwidthChange d d' payer owner receiver delta left sent)
    (hpayer : payer ≠ systemAccountName) (hd : BandwidthLedger d) : BandwidthLedger d' where
  totals r := by rw [h.totalWeights, h.delegatedTo, hd.totals]
  limits r := by
    rw [h.limitWeights]
    split_ifs with hr
    · rfl
    · rw [h.totalWeights, if_neg hr, add_zero, hd.limits]
  regular scope k r hr := by
    obtain ⟨o, hw, -, hsettled⟩ := h.refunds
    rw [hw.find] at hr
    split_ifs at hr
    · exact (hsettled hpayer (hd.regular owner owner)).regular r hr
    · exact hd.regular scope k r hr

theorem coreBalance (h : BandwidthChange d d' payer owner receiver delta left sent)
    (hpayer : payer ≠ systemAccountName) (hleft : 0 ≤ left) {d'' : Db}
    (hfold : sent.foldlM (fun d a => exec w depth a d) d' = .ok d'') :
    d''.coreBalance systemAccountName = d.coreBalance systemAccountName + left := by
  have hsame : d'.coreBalance systemAccountName = d.coreBalance systemAccountName := by
    rw [h.frame]
    rfl
  rw [h.sent_eq] at hfold
  split_ifs at hfold with hpos
  · rw [List.foldlM_cons, Commons.bind_eq_ok] at hfold
    obtain ⟨d₁, hd₁, hnil⟩ := hfold
    rw [← Except.ok.inj hnil, coreBalance_transfer_to hd₁, hsame]
  · have hzero : left = 0 := by
      rcases hleft.lt_or_eq with hlt | heq
      · exact absurd ⟨hpayer, hlt⟩ hpos
      · exact heq.symm
    rw [← Except.ok.inj hfold, hsame, hzero, add_zero]

end BandwidthChange

variable {c' c : Ctx} {e : Env}

theorem newaccount_ledger {newName vid : Name} (h : newaccount newName vid e c = .ok ((), c'))
    (hd : BandwidthLedger c.db) : BandwidthLedger c'.db := by
  obtain ⟨tu, tv, ts, hnone, hw, hdb, -⟩ := newaccount_eq_ok h
  have hzero : c.db.totalWeights newName = 0 := MultiIndex.weightAt_of_find_none hnone
  have htotals (r : Name) : c'.db.totalWeights r = c.db.totalWeights r := by
    have hr := hw.weightAt (fun _ _ tot => tot.weights) r r
    rw [hdb]
    refine hr.trans ?_
    split_ifs with heq
    · rw [heq.1, hzero]
      rfl
    · rfl
  have hlimits (r : Name) :
      c'.db.limitWeights r = if newName = r then 0 else c.db.limitWeights r := by
    unfold Db.limitWeights
    rw [hdb]
    simp only [Commons.Table.find_insert]
    split_ifs <;> rfl
  refine ⟨fun r => ?_, fun r => ?_, fun scope k r hr => ?_⟩
  · rw [htotals, hd.totals, hdb]
    rfl
  · rw [htotals, hlimits]
    split_ifs with heq
    · rw [← heq, hzero]
    · exact hd.limits r
  · rw [hdb] at hr
    exact hd.regular scope k r hr

theorem refund_ledger (h : refund owner e c = .ok ((), c')) (hd : BandwidthLedger c.db) :
    BandwidthLedger c'.db ∧ ∃ r : RefundRequest,
      c'.db.bandwidth = c.db.bandwidth - r.amount ∧ c'.db.accounts = c.db.accounts ∧
      c'.inlineActions = c.inlineActions ++
        [transferAction systemAccountName r.owner (core r.amount) "unstake"] := by
  obtain ⟨-, r, t, hr, hw, hdb, hinline⟩ := refund_eq_ok h
  refine ⟨⟨?_, ?_, fun scope k x hx => ?_⟩, r, ?_, ?_, ?_⟩
  · rw [hdb]
    exact hd.totals
  · rw [hdb]
    exact hd.limits
  · rw [hdb, hw.find] at hx
    split_ifs at hx
    exact hd.regular scope k x hx
  · have hsum := hw.sum fun _ _ r => r.amount
    rw [MultiIndex.weightAt_of_find hr, Option.elim_none, add_zero] at hsum
    rw [hdb]
    unfold Db.bandwidth
    simp only
    omega
  · rw [hdb]
  · rw [hinline, (hd.regular owner owner r hr).symbol]
    rfl

end SystemContract

/-! ## Steps -/

open SystemContract

theorem ledger_payments {l : List Action} (hl : ∀ a ∈ l, IsPayment a)
    (h : l.foldlM (fun d a => exec w depth a d) d = .ok d') :
    (BandwidthLedger d → BandwidthLedger d') ∧ d'.bandwidth = d.bandwidth := by
  rw [payments_frame hl h]
  exact ⟨fun hd => ⟨hd.totals, hd.limits, hd.regular⟩, rfl⟩

theorem BandwidthLedger.push {s : Step} (hd : BandwidthLedger d) (hs : s.stakesBandwidth = true)
    (h : push s d = .ok d') :
    BandwidthLedger d' ∧
      d'.bandwidth = d.bandwidth + (Step.stakePaid d s d' - Step.refundPaid d s d') := by
  obtain ⟨w, ⟨auths, data⟩⟩ := s
  cases data with
  | token => cases hs
  | system a =>
    obtain ⟨c, depth', hc, hframe, hpay, hfold⟩ := exec_system h
    obtain ⟨hledger, hbandwidth⟩ := ledger_payments hpay hfold
    cases a with
    | newaccount newName vid =>
      refine ⟨hledger (newaccount_ledger hc hd), ?_⟩
      rw [hbandwidth]
      exact (handle_bandwidth (a := .newaccount newName vid) hc rfl).trans (add_zero _).symm
    | delegatebw fromAccount =>
      have hpayer : fromAccount ≠ systemAccountName := of_decide_eq_true hs
      obtain ⟨-, ⟨hnet, hcpu⟩, left, sent, hchange, hinline⟩ := delegatebw_eq_ok hc
      obtain rfl : c.inlineActions = sent := hinline
      obtain ⟨o, -, -, hsettled⟩ := hchange.refunds
      have hleft : 0 ≤ left := (hsettled hpayer (hd.regular _ _)).left_nonneg hnet hcpu
      refine ⟨hledger (hchange.ledger hpayer hd), ?_⟩
      have hbalance := hchange.coreBalance hpayer hleft hfold
      simp only [Step.stakePaid, Step.refundPaid]
      rw [hbandwidth, hchange.bandwidth hpayer, hbalance]
      simp only
      omega
    | undelegatebw fromAccount =>
      have hpayer : fromAccount ≠ systemAccountName := of_decide_eq_true hs
      obtain ⟨-, ⟨hnet, hcpu, hpos⟩, left, sent, hchange, hinline⟩ := undelegatebw_eq_ok hc
      obtain ⟨o, -, -, hsettled⟩ := hchange.refunds
      have hleft : left = 0 := (hsettled hpayer (hd.regular _ _)).unstake
        (by simp only; omega) (by simp only; omega) (by simp only; omega)
      refine ⟨hledger (hchange.ledger hpayer hd), ?_⟩
      rw [hbandwidth, hchange.bandwidth hpayer, hleft]
      rfl
    | refund =>
      obtain ⟨hkeep, r, hless, haccounts, hinline⟩ := refund_ledger hc hd
      refine ⟨hledger hkeep, ?_⟩
      rw [hinline, List.nil_append, List.foldlM_cons, Commons.bind_eq_ok] at hfold
      obtain ⟨d₁, hd₁, hnil⟩ := hfold
      obtain rfl : d₁ = d' := Except.ok.inj hnil
      have hpaid := coreBalance_transfer_from hd₁
      have hsame : c.db.coreBalance systemAccountName = d.coreBalance systemAccountName := by
        unfold Db.coreBalance Db.balance
        rw [haccounts]
      simp only [Step.stakePaid, Step.refundPaid]
      rw [hbandwidth, hless, hpaid, hsame]
      simp only
      omega
    | _ => cases hs

theorem BandwidthLedger.initial {g : Genesis} (hg : g.Initial d) :
    BandwidthLedger d ∧ d.bandwidth = 0 := by
  rw [hg.frame]
  exact ⟨⟨fun _ => rfl, fun _ => rfl, fun _ _ _ hr => by cases hr⟩, rfl⟩

theorem SystemAction.onBandwidth_of_stakesBandwidth {a : SystemAction}
    (h : a.stakesBandwidth = true) : onBandwidth a = true := by
  cases a <;> first | rfl | cases h

/-! ## Runs -/

/-- **The ledger of staked bandwidth.** In every state reached from genesis by `newaccount`,
`delegatebw`, `undelegatebw` and `refund` with sources other than the system account, the totals of
every receiver are the sum of what was staked for it, and are the weights last set as its limits;
what is staked or pending as a refund is what `delegatebw` has paid in less what `refund` has paid
out; and no further step fails because a refund is negative. -/
theorem bandwidth_ledger {g : Genesis} {d₀ : Db} (hg : g.initializeDatabase = .ok d₀)
    (steps : List Step) (hsteps : ∀ s ∈ steps, s.stakesBandwidth = true) :
    (∀ receiver,
      (run push d₀ steps).userres.weightAt (fun _ _ tot => (tot.netWeight.amount,
          tot.cpuWeight.amount)) receiver receiver =
        ((run push d₀ steps).delband.sum fun _ toAccount b =>
          if toAccount = receiver then (b.netWeight.amount, b.cpuWeight.amount) else 0) ∧
      ((run push d₀ steps).resourceLimits.find receiver).elim 0
          (fun limits => (limits.netWeight, limits.cpuWeight)) =
        (run push d₀ steps).userres.weightAt (fun _ _ tot => (tot.netWeight.amount,
          tot.cpuWeight.amount)) receiver receiver) ∧
    ((run push d₀ steps).delband.sum fun _ _ b => b.netWeight.amount + b.cpuWeight.amount) +
        ((run push d₀ steps).refunds.sum fun _ _ r => r.netAmount.amount + r.cpuAmount.amount) =
      tally push Step.stakePaid d₀ steps - tally push Step.refundPaid d₀ steps ∧
    ∀ s : Step, s.stakesBandwidth = true →
      push s (run push d₀ steps) ≠ .error "negative net refund amount" ∧
      push s (run push d₀ steps) ≠ .error "negative cpu refund amount" := by
  obtain ⟨hinit, hzero⟩ := BandwidthLedger.initial (Genesis.initializeDatabase_eq_ok hg)
  have halong : Along push (fun _ s => s.stakesBandwidth = true) d₀ steps :=
    along_of_forall hsteps
  have hledger : BandwidthLedger (run push d₀ steps) :=
    run_induction BandwidthLedger (fun _ _ _ hd hs h => (hd.push hs h).1) hinit halong
  have hbandwidth := run_eq_add_tally Db.bandwidth (fun _ _ _ hd hs h => (hd.push hs h).1)
    (fun _ _ _ hd hs h => (hd.push hs h).2) hinit halong
  rw [hzero, zero_add, tally_sub] at hbandwidth
  refine ⟨fun r => ⟨hledger.totals r, hledger.limits r⟩, hbandwidth, ?_⟩
  rintro ⟨w, ⟨auths, data⟩⟩ hs
  cases data with
  | token => cases hs
  | system a =>
    have havoids : Avoids negativeRefund (push ⟨w, ⟨auths, .system a⟩⟩ (run push d₀ steps)) :=
      exec_avoids_negativeRefund (SystemAction.onBandwidth_of_stakesBandwidth hs)
    exact ⟨fun h => havoids _ h (by decide), fun h => havoids _ h (by decide)⟩

open Genesis (alice bob) in
def stakeAndRefund : List Step := [
  .byActor 10 alice (.system (.delegatebw alice bob (core 10000) (core 20000) false)),
  .byActor 11 alice (.system (.undelegatebw alice bob (core 4000) (core 6000))),
  .byActor 600000 alice (.system (.refund alice))]

open Genesis (bob twoAccounts twoAccounts_database) in
/-- The ledger after a refund: the limits of bob are what is left of the stake. -/
theorem bandwidth_ledger_stakeAndRefund :
    (run push twoAccounts.database stakeAndRefund).limitWeights bob = (6000, 14000) ∧
      tally push Step.stakePaid twoAccounts.database stakeAndRefund = 30000 ∧
      tally push Step.refundPaid twoAccounts.database stakeAndRefund = 10000 ∧
      (run push twoAccounts.database stakeAndRefund).bandwidth =
        tally push Step.stakePaid twoAccounts.database stakeAndRefund -
          tally push Step.refundPaid twoAccounts.database stakeAndRefund :=
  ⟨by decide +kernel, by decide +kernel, by decide +kernel,
    (bandwidth_ledger twoAccounts_database stakeAndRefund (by decide)).2.1⟩

end BaccChain
