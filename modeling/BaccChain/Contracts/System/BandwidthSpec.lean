import BaccChain.Contracts.System.Bandwidth
import Mathlib.Algebra.Group.Prod

/-!
# `noc.system`: what the actions on bandwidth do

One theorem for each action of `delegate_bandwidth.cpp` and `vote4ram.cpp`.
-/

namespace BaccChain

open Commons.Program
open Asset (core core_amount)

namespace SystemContract

variable {e : Env} {c c' : Ctx} {u : Unit} {fromAccount receiver owner : Name} {net cpu : Asset}

/-! ## Staked bandwidth -/

theorem addDelband_eq_ok (h : addDelband fromAccount receiver net cpu e c = .ok (u, c')) :
    ∃ b t ram, c.db.delband.Writes fromAccount receiver (some b) t ∧
      c' = { c with db := { c.db with delband := t }, ramDeltas := ram } ∧
      b.weights = c.db.delband.weightAt (fun _ _ b => b.weights) fromAccount receiver +
        (net.amount, cpu.amount) := by
  simp only [addDelband, ran_iff, calls_iff, delBandwidthTable_get] at h
  cases hrow : c.db.delband.find fromAccount receiver with
  | none =>
    simp only [hrow] at h
    obtain ⟨-, t, ram, hw, rfl⟩ := emplace_eq_ok h
    rw [MultiIndex.weightAt_of_find_none hrow]
    exact ⟨_, t, ram, hw, rfl, (zero_add _).symm⟩
  | some dbo =>
    simp only [hrow] at h
    obtain ⟨b', c₁, hu, t, ram, hw, rfl⟩ := modifyRow_of_find h hrow
    simp only [ran_iff, Asset.add_eq_ok] at hu
    obtain ⟨-, -, -, -, -, -, rfl, rfl⟩ := hu
    rw [MultiIndex.weightAt_of_find hrow]
    exact ⟨_, t, ram, hw, rfl, rfl⟩

theorem updateDelband_eq_ok (h : updateDelband fromAccount receiver net cpu e c = .ok (u, c')) :
    ∃ o t ram, c.db.delband.Writes fromAccount receiver o t ∧
      c' = { c with db := { c.db with delband := t }, ramDeltas := ram } ∧
      o.elim 0 (·.weights) =
        c.db.delband.weightAt (fun _ _ b => b.weights) fromAccount receiver +
          (net.amount, cpu.amount) := by
  simp only [updateDelband, ran_iff, calls_iff, Asset.eq_eq_ok, whenever_eq_ok, core_amount] at h
  obtain ⟨c₁, hadd, itr, hitr, -, -, -, -, -, -, -, x, hx, -, y, hy, herase⟩ := h
  obtain ⟨b, t, ram, hw, rfl, hweights⟩ := addDelband_eq_ok hadd
  obtain rfl : b = itr := Option.some.inj (hw.find_self.symm.trans hitr)
  rcases herase with ⟨hnet, hcpu, herase⟩ | ⟨-, rfl⟩
  · obtain ⟨-, t', ram', hw', rfl⟩ := eraseRow_eq_ok herase
    refine ⟨none, t', ram', hw.trans hw', rfl, ?_⟩
    rw [← hweights, DelegatedBandwidth.weights, hx.mp hnet, hy.mp hcpu]
    rfl
  · exact ⟨some b, t, ram, hw, rfl, hweights⟩

theorem addTotals_eq_ok (h : addTotals fromAccount receiver net cpu e c = .ok (u, c')) :
    ∃ tot t ram, c.db.userres.Writes receiver receiver (some tot) t ∧
      c' = { c with db := { c.db with userres := t }, ramDeltas := ram } ∧
      tot.weights = c.db.userres.weightAt (fun _ _ tot => tot.weights) receiver receiver +
        (net.amount, cpu.amount) := by
  simp only [addTotals, ran_iff, calls_iff, userResourcesTable_get] at h
  cases hrow : c.db.userres.find receiver receiver with
  | none =>
    simp only [hrow] at h
    obtain ⟨-, t, ram, hw, rfl⟩ := emplace_eq_ok h
    rw [MultiIndex.weightAt_of_find_none hrow]
    exact ⟨_, t, ram, hw, rfl, (zero_add _).symm⟩
  | some tot =>
    simp only [hrow] at h
    obtain ⟨b', c₁, hu, t, ram, hw, rfl⟩ := modifyRow_of_find h hrow
    simp only [ran_iff, Asset.add_eq_ok] at hu
    obtain ⟨-, -, -, -, -, -, rfl, rfl⟩ := hu
    rw [MultiIndex.weightAt_of_find hrow]
    exact ⟨_, t, ram, hw, rfl, rfl⟩

theorem updateTotals_eq_ok (h : updateTotals fromAccount receiver net cpu e c = .ok (u, c')) :
    ∃ o t w ram ramBytes, c.db.userres.Writes receiver receiver o t ∧
      c' = { c with
        db := { c.db with
          userres := t
          resourceLimits := c.db.resourceLimits.insert receiver ⟨ramBytes, w.1, w.2⟩ }
        ramDeltas := ram } ∧
      o.elim 0 (·.weights) = w ∧
      w = c.db.userres.weightAt (fun _ _ tot => tot.weights) receiver receiver +
        (net.amount, cpu.amount) := by
  simp only [updateTotals, ran_iff, calls_iff, Asset.eq_eq_ok, whenever_eq_ok, core_amount] at h
  obtain ⟨c₁, hadd, tot, htot, -, -, -, -, -, -, c₂, hlimits, -, x, hx, -, y, hy, herase⟩ := h
  obtain ⟨tot', t, ram, hw, rfl, hweights⟩ := addTotals_eq_ok hadd
  obtain rfl : tot' = tot := Option.some.inj (hw.find_self.symm.trans htot)
  obtain rfl := setResourceLimits_eq_ok hlimits
  rcases herase with ⟨hnet, hcpu, -, herase⟩ | ⟨-, rfl⟩
  · obtain ⟨-, t', ram', hw', rfl⟩ := eraseRow_eq_ok herase
    refine ⟨none, t', tot'.weights, ram', tot'.ramBytes, hw.trans hw', rfl, ?_, hweights⟩
    rw [UserResources.weights, hx.mp hnet, hy.mp hcpu]
    rfl
  · exact ⟨some tot', t, tot'.weights, ram, tot'.ramBytes, hw, rfl, rfl, hweights⟩

/-! ## Refunds -/

variable {left : Asset × Asset} {transfer : Bool}

theorem setOff_eq_ok {amount balance : Asset} (h : setOff amount balance = .ok left) :
    left.1.amount - left.2.amount = amount.amount - balance.amount ∧
      (0 ≤ left.1.amount ∧ left.1.symbol = coreSymbol) ∧ 0 ≤ left.2.amount ∧
      (balance.amount ≤ amount.amount → left.2.amount = 0) := by
  simp only [setOff, Commons.ok_iff, Asset.sub_eq_ok, Asset.lt_eq_ok, ran_iff, core_amount] at h
  obtain ⟨-, -, -, hsymbol, x, hx, h⟩ := h
  split_ifs at h with hneg
  · rw [Commons.pure_eq_ok] at h
    rw [h]
    rw [hx] at hneg
    simp only [core_amount, Asset.neg_amount] at hneg ⊢
    exact ⟨by omega, ⟨le_rfl, rfl⟩, by omega, fun _ => by omega⟩
  · rw [Commons.pure_eq_ok] at h
    rw [h]
    rw [hx] at hneg
    simp only [core_amount] at hneg ⊢
    exact ⟨by omega, ⟨by omega, hsymbol⟩, le_rfl, fun _ => trivial⟩

theorem splitRefund_eq_ok {balance : Asset} (h : splitRefund balance = .ok left) :
    left.1.amount - left.2.amount = -balance.amount ∧ (0 ≤ balance.amount → left.1.amount = 0) ∧
      (0 ≤ left.1.amount ∧ left.1.symbol = coreSymbol) ∧ 0 ≤ left.2.amount ∧
      (balance.amount ≤ 0 → left.2.amount = 0) := by
  simp only [splitRefund, Commons.ok_iff, Asset.lt_eq_ok, ran_iff, core_amount] at h
  obtain ⟨hsymbol, x, hx, h⟩ := h
  split_ifs at h with hneg
  · rw [Commons.pure_eq_ok] at h
    rw [h]
    rw [hx] at hneg
    simp only [core_amount, Asset.neg_amount]
    exact ⟨by omega, fun _ => by omega, ⟨by omega, hsymbol⟩, le_rfl, fun _ => trivial⟩
  · rw [Commons.pure_eq_ok] at h
    rw [h]
    rw [hx] at hneg
    simp only [core_amount]
    exact ⟨zero_sub _, fun _ => trivial, ⟨le_rfl, rfl⟩, by omega, fun _ => by omega⟩

/-- What is left of a pending refund, and of a change of stake by `net` and `cpu` to be paid for. -/
structure Settled (o : Option RefundRequest) (net cpu left : Int) : Prop where
  regular : ∀ r, o = some r → r.Regular
  left_nonneg : 0 ≤ net → 0 ≤ cpu → 0 ≤ left
  unstake : net ≤ 0 → cpu ≤ 0 → net + cpu < 0 → left = 0

theorem settleRefund_eq_ok {r r' : RefundRequest} {now : Nat} {n m : Asset × Asset}
    (hn : setOff r.netAmount net = .ok n) (hm : setOff r.cpuAmount cpu = .ok m)
    (h : settleRefund r net cpu now = .ok r') :
    r'.netAmount = n.1 ∧ r'.cpuAmount = m.1 := by
  simp only [settleRefund, hn, hm, Commons.bind_eq_ok, Commons.pure_eq_ok, Except.ok.injEq,
    exists_eq_left'] at h
  obtain ⟨-, -, -, -, rfl⟩ := h
  exact ⟨rfl, rfl⟩

theorem updateRefund_eq_ok {req : RefundRequest} (hreq : c.db.refunds.find owner owner = some req)
    (h : updateRefund owner req net cpu e c = .ok (left, c')) :
    ∃ o t ram, c.db.refunds.Writes owner owner o t ∧
      c' = { c with db := { c.db with refunds := t }, ramDeltas := ram } ∧
      o.elim 0 (·.amount) = req.amount + (left.1.amount + left.2.amount) -
        (net.amount + cpu.amount) ∧
      (req.Regular → Settled o net.amount cpu.amount (left.1.amount + left.2.amount)) := by
  simp only [updateRefund, ran_iff, calls_iff, Asset.eq_eq_ok, whenever_eq_ok, core_amount] at h
  obtain ⟨n, hn, m, hm, c₁, hmod, -, -, -, -, -, -, -, x, hx, -, y, hy, c₂, herase, rfl, rfl⟩ := h
  obtain ⟨r', hsettle, t, ram, hw, rfl⟩ := modifyRow_lift hmod hreq
  obtain ⟨hnet, hcpu⟩ := settleRefund_eq_ok hn hm hsettle
  obtain ⟨h₁, ⟨hn₁, hnsym⟩, hn₂, hn₃⟩ := setOff_eq_ok hn
  obtain ⟨h₂, ⟨hm₁, -⟩, hm₂, hm₃⟩ := setOff_eq_ok hm
  have hsettled {o : Option RefundRequest} (ho : ∀ r, o = some r → r.Regular) (hreq : req.Regular) :
      Settled o net.amount cpu.amount (n.2.amount + m.2.amount) := by
    refine ⟨ho, fun _ _ => add_nonneg hn₂ hm₂, fun hnetNeg hcpuNeg _ => ?_⟩
    rw [hn₃ (hnetNeg.trans hreq.net_nonneg), hm₃ (hcpuNeg.trans hreq.cpu_nonneg), add_zero]
  have hamount : r'.amount = req.amount + (n.2.amount + m.2.amount) -
      (net.amount + cpu.amount) := by
    rw [RefundRequest.amount, RefundRequest.amount, hnet, hcpu]
    omega
  rcases herase with ⟨hnoNet, hnoCpu, herase⟩ | ⟨-, rfl⟩
  · obtain ⟨-, t', ram', hw', rfl⟩ := eraseRow_eq_ok herase
    refine ⟨none, t', ram', hw.trans hw', rfl, ?_, hsettled (by simp)⟩
    rw [← hamount, RefundRequest.amount, hnet, hcpu, hx.mp hnoNet, hy.mp hnoCpu]
    rfl
  · refine ⟨some r', t, ram, hw, rfl, hamount, hsettled fun r hr => ?_⟩
    obtain rfl := Option.some.inj hr
    exact ⟨hnet ▸ hn₁, hcpu ▸ hm₁, hnet ▸ hnsym⟩

theorem createRefund_eq_ok (hnone : c.db.refunds.find owner owner = none)
    (h : createRefund owner net cpu e c = .ok (left, c')) :
    ∃ o t ram, c.db.refunds.Writes owner owner o t ∧
      c' = { c with db := { c.db with refunds := t }, ramDeltas := ram } ∧
      o.elim 0 (·.amount) = left.1.amount + left.2.amount - (net.amount + cpu.amount) ∧
      Settled o net.amount cpu.amount (left.1.amount + left.2.amount) := by
  simp only [createRefund, ran_iff, calls_iff, Asset.lt_eq_ok, whenever_eq_ok, core_amount] at h
  obtain ⟨-, x, hx, -, y, hy, n, hn, m, hm, c₁, hemplace, rfl, rfl⟩ := h
  obtain ⟨h₁, h₁', ⟨hn₁, hnsym⟩, hn₂, hn₃⟩ := splitRefund_eq_ok hn
  obtain ⟨h₂, h₂', ⟨hm₁, -⟩, hm₂, hm₃⟩ := splitRefund_eq_ok hm
  have hsettled {o : Option RefundRequest} (ho : ∀ r, o = some r → r.Regular) :
      Settled o net.amount cpu.amount (n.2.amount + m.2.amount) := by
    refine ⟨ho, fun _ _ => add_nonneg hn₂ hm₂, fun hnet hcpu _ => ?_⟩
    rw [hn₃ hnet, hm₃ hcpu, add_zero]
  rw [hx, hy] at hemplace
  rcases hemplace with ⟨-, hemplace⟩ | ⟨hpos, rfl⟩
  · obtain ⟨-, t, ram, hw, rfl⟩ := emplace_eq_ok hemplace
    refine ⟨_, t, ram, hw, rfl, ?_, hsettled fun r hr => ?_⟩
    · simp only [Option.elim_some, RefundRequest.amount]
      omega
    · obtain rfl := Option.some.inj hr
      exact ⟨hn₁, hm₁, hnsym⟩
  · refine ⟨_, _, _, .refl _ _ _, rfl, ?_, hsettled ?_⟩
    · rw [hnone]
      simp only [Option.elim_none]
      omega
    · rw [hnone]
      simp

theorem stakeToPay_eq_ok (h : stakeToPay owner receiver net cpu transfer e c = .ok (left, c')) :
    ∃ o t ram, c.db.refunds.Writes owner owner o t ∧
      c' = { c with db := { c.db with refunds := t }, ramDeltas := ram } ∧
      o.elim 0 (·.amount) = c.db.refunds.weightAt (fun _ _ r => r.amount) owner owner +
        (left.1.amount + left.2.amount) - (net.amount + cpu.amount) ∧
      ((∀ r, c.db.refunds.find owner owner = some r → r.Regular) →
        Settled o net.amount cpu.amount (left.1.amount + left.2.amount)) := by
  simp only [stakeToPay, ite_run] at h
  split_ifs at h with hcond
  · simp only [changeRefund, ran_iff, calls_iff, refundsTable_get] at h
    cases hrow : c.db.refunds.find owner owner with
    | none =>
      simp only [hrow] at h
      obtain ⟨o, t, ram, hw, hc, hamount, hsettled⟩ := createRefund_eq_ok hrow h
      rw [MultiIndex.weightAt_of_find_none hrow, zero_add]
      exact ⟨o, t, ram, hw, hc, hamount, fun _ => hsettled⟩
    | some req =>
      simp only [hrow] at h
      obtain ⟨o, t, ram, hw, hc, hamount, hsettled⟩ := updateRefund_eq_ok hrow h
      rw [MultiIndex.weightAt_of_find hrow]
      exact ⟨o, t, ram, hw, hc, hamount, fun hreq => hsettled (hreq req rfl)⟩
  · obtain ⟨rfl, rfl⟩ := pure_eq_ok.mp h
    refine ⟨_, _, _, .refl _ _ _, rfl, ?_, fun hreq => ⟨hreq, add_nonneg, fun _ _ hneg => ?_⟩⟩
    · simp only [add_sub_cancel_right]
      rfl
    · exact absurd (.inr hneg) hcond

theorem payStake_eq_ok {source : Name}
    (h : payStake source owner receiver net cpu transfer e c = .ok (u, c')) :
    ∃ (o : Option RefundRequest) (t : MultiIndex Name RefundRequest) (left : Int)
      (ram : List (Name × Int)), c.db.refunds.Writes owner owner o t ∧
      c' = { c with
        db := { c.db with refunds := t }
        ramDeltas := ram
        inlineActions := c.inlineActions ++ (if 0 < left then
          [Token.transferAction source systemAccountName (core left) "stake bandwidth"] else []) } ∧
      o.elim 0 (·.amount) = c.db.refunds.weightAt (fun _ _ r => r.amount) owner owner + left -
        (net.amount + cpu.amount) ∧
      ((∀ r, c.db.refunds.find owner owner = some r → r.Regular) →
        Settled o net.amount cpu.amount left) := by
  simp only [payStake, ran_iff, Asset.add_eq_ok, Asset.lt_eq_ok, core_amount, whenever_eq_ok] at h
  obtain ⟨left, c₁, hleft, -, -, -, hsym, x, hx, hinline⟩ := h
  obtain ⟨o, t, ram, hw, rfl, hamount, hnonneg⟩ := stakeToPay_eq_ok hleft
  refine ⟨o, t, left.1.amount + left.2.amount, ram, hw, ?_, hamount, hnonneg⟩
  have hsym : left.1.symbol = coreSymbol := hsym.symm
  rw [hx, hsym] at hinline
  rcases hinline with ⟨hpos, hinline⟩ | ⟨hpos, rfl⟩
  · rw [executeInline_eq_ok hinline, if_pos hpos]
    rfl
  · rw [if_neg hpos, List.append_nil]

/-! ## The actions -/

/-- **A change of staked bandwidth** by a net and a cpu weight, paid for by `payer` with a transfer
of `left` where refunds do not cover it; the system account pays nothing. -/
structure BandwidthChange (d d' : Db) (payer owner receiver : Name) (delta : Int × Int) (left : Int)
    (sent : List Action) : Prop where
  delband : ∃ o, d.delband.Writes owner receiver o d'.delband ∧
    o.elim 0 (·.weights) = d.delband.weightAt (fun _ _ b => b.weights) owner receiver + delta
  userres : ∃ o w ramBytes, d.userres.Writes receiver receiver o d'.userres ∧
    d'.resourceLimits = d.resourceLimits.insert receiver ⟨ramBytes, w.1, w.2⟩ ∧
    o.elim 0 (·.weights) = w ∧
    w = d.userres.weightAt (fun _ _ tot => tot.weights) receiver receiver + delta
  refunds : ∃ o, d.refunds.Writes owner owner o d'.refunds ∧
    (payer ≠ systemAccountName → o.elim 0 (·.amount) =
      d.refunds.weightAt (fun _ _ r => r.amount) owner owner + left - (delta.1 + delta.2)) ∧
    (payer ≠ systemAccountName → (∀ r, d.refunds.find owner owner = some r → r.Regular) →
      Settled o delta.1 delta.2 left)
  frame : d' = { d with
    delband := d'.delband
    userres := d'.userres
    refunds := d'.refunds
    resourceLimits := d'.resourceLimits }
  sent_eq : sent = if payer ≠ systemAccountName ∧ 0 < left then
    [Token.transferAction payer systemAccountName (core left) "stake bandwidth"] else []

theorem BandwidthChange.delband_amount {d d' : Db} {payer owner receiver : Name} {delta : Int × Int}
    {left : Int} {sent : List Action}
    (h : BandwidthChange d d' payer owner receiver delta left sent) :
    ∃ o, d.delband.Writes owner receiver o d'.delband ∧ o.elim 0 (·.amount) =
      d.delband.weightAt (fun _ _ b => b.amount) owner receiver + (delta.1 + delta.2) := by
  obtain ⟨o, hw, hweights⟩ := h.delband
  have hamount (x : Option DelegatedBandwidth) :
      x.elim 0 (·.amount) = (x.elim 0 (·.weights)).1 + (x.elim 0 (·.weights)).2 := by
    cases x <;> rfl
  refine ⟨o, hw, ?_⟩
  unfold MultiIndex.weightAt at hweights ⊢
  rw [hamount, hamount (d.delband.find owner receiver), hweights, Prod.fst_add, Prod.snd_add]
  exact add_add_add_comm _ _ _ _

theorem changebw_eq_ok (h : changebw fromAccount receiver net cpu transfer e c = .ok (u, c')) :
    e.HasAuth fromAccount ∧ ∃ left sent,
      BandwidthChange c.db c'.db fromAccount (if transfer then receiver else fromAccount) receiver
        (net.amount, cpu.amount) left sent ∧
      c'.inlineActions = c.inlineActions ++ sent := by
  simp only [changebw, ran_iff, calls_iff, whenever_eq_ok] at h
  obtain ⟨hauth, -, -, -, -, -, -, -, -, c₁, hdel, c₂, htot, hpay⟩ := h
  obtain ⟨od, td, ram, hwd, rfl, hweights⟩ := updateDelband_eq_ok hdel
  obtain ⟨ou, tu, w, ram', ramBytes, hwu, rfl, htotals, hw⟩ := updateTotals_eq_ok htot
  rcases hpay with ⟨hne, hpay⟩ | ⟨heq, rfl⟩
  · obtain ⟨o, t, left, ram'', hwr, rfl, hleft, hsettled⟩ := payStake_eq_ok hpay
    refine ⟨hauth, left, _, ⟨⟨od, hwd, hweights⟩, ⟨ou, w, ramBytes, hwu, rfl, htotals, hw⟩,
      ⟨o, hwr, fun _ => hleft, fun _ => hsettled⟩, rfl, rfl⟩, ?_⟩
    simp only [hne, ne_eq, not_false_eq_true, true_and]
  · refine ⟨hauth, 0, [], ⟨⟨od, hwd, hweights⟩, ⟨ou, w, ramBytes, hwu, rfl, htotals, hw⟩,
      ⟨_, .refl _ _ _, fun hne => absurd hne heq, fun hne => absurd hne heq⟩, rfl, ?_⟩,
      (List.append_nil _).symm⟩
    rw [if_neg (by simp)]

theorem delegatebw_eq_ok (h : delegatebw fromAccount receiver net cpu transfer e c = .ok (u, c')) :
    e.HasAuth fromAccount ∧ (0 ≤ net.amount ∧ 0 ≤ cpu.amount) ∧ ∃ left sent,
      BandwidthChange c.db c'.db fromAccount (if transfer then receiver else fromAccount) receiver
        (net.amount, cpu.amount) left sent ∧
      c'.inlineActions = c.inlineActions ++ sent := by
  simp only [delegatebw, ran_iff, calls_iff, Asset.ge_eq_ok, core_amount] at h
  obtain ⟨-, x, hx, hcpu, -, y, hy, hnet, -, -, -, -, -, -, h⟩ := h
  obtain ⟨hauth, hchange⟩ := changebw_eq_ok h
  exact ⟨hauth, ⟨hy.mp hnet, hx.mp hcpu⟩, hchange⟩

theorem undelegatebw_eq_ok (h : undelegatebw fromAccount receiver net cpu e c = .ok (u, c')) :
    e.HasAuth fromAccount ∧
      (0 ≤ net.amount ∧ 0 ≤ cpu.amount ∧ 0 < net.amount + cpu.amount) ∧ ∃ left sent,
      BandwidthChange c.db c'.db fromAccount fromAccount receiver
        (-net.amount, -cpu.amount) left sent ∧
      c'.inlineActions = c.inlineActions ++ sent := by
  simp only [undelegatebw, ran_iff, calls_iff, Asset.le_eq_ok, Asset.lt_eq_ok, Asset.add_eq_ok,
    core_amount] at h
  obtain ⟨-, x, hx, hcpu, -, y, hy, hnet, -, -, -, -, z, hz, hboth, h⟩ := h
  obtain ⟨hauth, hchange⟩ := changebw_eq_ok h
  have hsum := hz.mp hboth
  exact ⟨hauth, ⟨hy.mp hnet, hx.mp hcpu, by omega⟩, hchange⟩

theorem refund_eq_ok (h : refund owner e c = .ok (u, c')) :
    e.HasAuth owner ∧ ∃ r t, c.db.refunds.find owner owner = some r ∧
      c.db.refunds.Writes owner owner none t ∧ c'.db = { c.db with refunds := t } ∧
      c'.inlineActions = c.inlineActions ++
        [Token.transferAction systemAccountName r.owner ⟨r.amount, r.netAmount.symbol⟩
          "unstake"] := by
  simp only [refund, ran_iff, calls_iff, Asset.add_eq_ok] at h
  obtain ⟨hauth, r, hr, -, -, -, -, c₁, hinline, herase⟩ := h
  obtain rfl := executeInline_eq_ok hinline
  obtain ⟨-, t, ram, hw, rfl⟩ := eraseRow_eq_ok herase
  exact ⟨hauth, r, t, hr, hw, rfl, rfl⟩

theorem vote4ram_eq_ok {voter : Name} (h : vote4ram voter e c = .ok (u, c')) : c' = c :=
  (requireAuth_eq_ok.mp h).2

theorem setram_eq_ok {account : Name} {stake : Asset} (h : setram account stake e c = .ok (u, c')) :
    ∃ t, c'.db = { c.db with vote4ramsum := t } ∧ c'.inlineActions = c.inlineActions ∧
      ∃ v, c.db.vote4ramsum.Writes () account (some v) t ∧ v.staked = stake := by
  simp only [setram, ran_iff, calls_iff, vote4ramsumTable_get] at h
  obtain ⟨-, h⟩ := h
  cases hrow : c.db.vote4ramsum.find () account with
  | none =>
    simp only [hrow] at h
    obtain ⟨-, t, ram, hw, rfl⟩ := emplace_eq_ok h
    exact ⟨t, rfl, rfl, _, hw, rfl⟩
  | some =>
    simp only [hrow] at h
    obtain ⟨b, -, t, ram, hw, rfl⟩ := modifyRow_pure h
    exact ⟨t, rfl, rfl, _, hw, rfl⟩

end SystemContract

end BaccChain
