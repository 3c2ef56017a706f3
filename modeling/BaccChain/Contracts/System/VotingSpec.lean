import BaccChain.Contracts.System.Voting

/-!
# `noc.system`: what freezing and voting do

One theorem for each action of `voting.cpp`: what a successful call has checked, which rows it has
changed and which inline actions it has sent.
-/

namespace BaccChain

open Commons.Program
open Asset (core core_amount)

namespace SystemContract

variable {e : Env} {c c' : Ctx} {u : Unit} {voter bpname : Name} {stake : Asset}

/-! ## Shared parts -/

variable {n : Int} {currBlockNum idx : Nat} {change : Asset} {bp : BpInfo} {v r : VoteInfo}
  {sv : VoteInfoItem}

theorem modifyBpVote_eq_ok (h : modifyBpVote bpname n currBlockNum e c = .ok (u, c')) :
    ∃ b t ram, c.db.bps.find () bpname = some b ∧
      c.db.bps.Writes () bpname (some (changeStake b n currBlockNum)) t ∧
      c' = { c with db := { c.db with bps := t }, ramDeltas := ram } := by
  obtain ⟨b, hb, t, ram, hw, rfl⟩ := modifyRow_pure h
  exact ⟨b, t, ram, hb, hw, rfl⟩

theorem updateVoterInfo_eq_ok (h : updateVoterInfo voter change e c = .ok (u, c')) :
    ∃ w t ram, c.db.voterinfo.Writes () voter (some w) t ∧
      c' = { c with db := { c.db with voterinfo := t }, ramDeltas := ram } ∧
      w.voteall.amount = c.db.voteall voter + change.amount := by
  simp only [updateVoterInfo, ran_iff, calls_iff, voterTable_get] at h
  unfold Db.voteall
  cases hrow : c.db.voterinfo.find () voter with
  | none =>
    simp only [hrow] at h
    obtain ⟨-, t, ram, hw, rfl⟩ := emplace_eq_ok h
    rw [MultiIndex.weightAt_of_find_none hrow]
    exact ⟨_, t, ram, hw, rfl, (zero_add _).symm⟩
  | some vt =>
    simp only [hrow, ran_iff, calls_iff] at h
    obtain ⟨-, -, -, -, -, h⟩ := h
    obtain ⟨b', c₁, hu, t, ram, hw, rfl⟩ := modifyRow_of_find h hrow
    simp only [ran_iff, Asset.add_eq_ok] at hu
    obtain ⟨-, -, -, rfl, rfl⟩ := hu
    rw [MultiIndex.weightAt_of_find hrow]
    exact ⟨_, t, ram, hw, rfl, rfl⟩

variable {amount : Asset}

theorem addToFreezes_eq_ok (h : addToFreezes voter amount currBlockNum e c = .ok (u, c')) :
    ∃ f t ram, c.db.freezed.Writes () voter (some f) t ∧
      c' = { c with db := { c.db with freezed := t }, ramDeltas := ram } ∧
      f.staked.amount = c.db.staked voter + amount.amount ∧
      f.unstaking.amount = c.db.unstaking voter := by
  simp only [addToFreezes, ran_iff, calls_iff, freezedTable_get] at h
  unfold Db.staked Db.unstaking
  cases hrow : c.db.freezed.find () voter with
  | none =>
    simp only [hrow] at h
    obtain ⟨-, t, ram, hw, rfl⟩ := emplace_eq_ok h
    rw [MultiIndex.weightAt_of_find_none hrow, MultiIndex.weightAt_of_find_none hrow]
    exact ⟨_, t, ram, hw, rfl, (zero_add _).symm, rfl⟩
  | some fts =>
    simp only [hrow] at h
    obtain ⟨b', c₁, hu, t, ram, hw, rfl⟩ := modifyRow_of_find h hrow
    simp only [ran_iff, Asset.add_eq_ok] at hu
    obtain ⟨-, -, -, rfl, rfl⟩ := hu
    rw [MultiIndex.weightAt_of_find hrow, MultiIndex.weightAt_of_find hrow]
    exact ⟨_, t, ram, hw, rfl, rfl, rfl⟩

theorem takeFromFreezes_eq_ok (h : takeFromFreezes voter amount e c = .ok (u, c')) :
    c.db.freezed.find () voter ≠ none ∧ amount.amount ≤ c.db.staked voter ∧
    ∃ f t ram, c.db.freezed.Writes () voter (some f) t ∧
      c' = { c with db := { c.db with freezed := t }, ramDeltas := ram } ∧
      f.staked.amount = c.db.staked voter - amount.amount ∧
      f.unstaking.amount = c.db.unstaking voter := by
  simp only [takeFromFreezes, ran_iff, calls_iff, freezedTable_get] at h
  unfold Db.staked Db.unstaking
  cases hrow : c.db.freezed.find () voter with
  | none =>
    simp only [hrow] at h
    exact absurd h fail_ne_ok
  | some fts =>
    simp only [hrow, ran_iff, calls_iff, Asset.ge_eq_ok] at h
    obtain ⟨-, x, hx, hle, h⟩ := h
    obtain ⟨b', c₁, hu, t, ram, hw, rfl⟩ := modifyRow_of_find h hrow
    simp only [ran_iff, Asset.sub_eq_ok] at hu
    obtain ⟨-, -, -, rfl, rfl⟩ := hu
    rw [MultiIndex.weightAt_of_find hrow, MultiIndex.weightAt_of_find hrow]
    exact ⟨by simp, hx.mp hle, _, t, ram, hw, rfl, rfl, rfl⟩

variable {middle low : Int × Int} {unlimited : Int}

theorem checkPawn_eq_ok (h : checkPawn bp n low middle unlimited e c = .ok (u, c')) : c' = c := by
  simp only [checkPawn, ran_iff, calls_iff] at h
  obtain ⟨-, -, -, -, -, -, -, h⟩ := h
  exact h

theorem covered_of_checkPawn (h : checkPawn bp n low middle unlimited e c = .ok (u, c')) :
    low.1 ≤ bp.pawn.amount ∧ n ≤ low.2 ∨ middle.1 ≤ bp.pawn.amount ∧ n ≤ middle.2 ∨
      unlimited ≤ bp.pawn.amount := by
  simp only [checkPawn, ran_iff, calls_iff, Asset.ge_eq_ok, core_amount] at h
  obtain ⟨-, x, hx, -, y, hy, -, z, hz, h, -⟩ := h
  rwa [hx, hy, hz] at h

/-! ## `freeze` -/

variable {tobe : Asset}

theorem addVoteall_eq_ok (h : addVoteall voter stake e c = .ok (tobe, c')) :
    c' = c ∧ tobe.amount = stake.amount + c.db.voteall voter := by
  simp only [addVoteall, ran_iff, calls_iff, voterTable_get] at h
  unfold Db.voteall
  cases hrow : c.db.voterinfo.find () voter with
  | none =>
    simp only [hrow, pure_eq_ok] at h
    rw [MultiIndex.weightAt_of_find_none hrow, h.1, add_zero]
    exact ⟨h.2, rfl⟩
  | some =>
    simp only [hrow, lift_eq_ok, Asset.add_eq_ok] at h
    rw [MultiIndex.weightAt_of_find hrow, h.1.2.2.2]
    exact ⟨h.2, rfl⟩

theorem restake_eq_ok {v v' : FreezeInfo} (h : restake v stake change currBlockNum = .ok v') :
    v'.staked = stake ∧ v'.unstaking.amount = v.unstaking.amount + max 0 (-change.amount) := by
  simp only [restake, Commons.ok_iff, Asset.lt_eq_ok, core_amount, ran_iff] at h
  obtain ⟨-, x, hx, h⟩ := h
  split_ifs at h with hif
  · simp only [Commons.ok_iff, Asset.add_eq_ok, ran_iff, Asset.neg_amount] at h
    obtain ⟨-, -, -, rfl⟩ := h
    have hneg := hx.mp hif
    exact ⟨rfl, by rw [max_eq_right (by omega)]⟩
  · rw [Commons.pure_eq_ok] at h
    rw [hx] at hif
    rw [h, max_eq_left (by omega), add_zero]
    exact ⟨rfl, rfl⟩

theorem setStake_eq_ok {tobe' : Asset}
    (h : setStake voter stake tobe currBlockNum e c = .ok (tobe', c')) :
    ∃ f t ram, c.db.freezed.Writes () voter (some f) t ∧
      c' = { c with db := { c.db with freezed := t }, ramDeltas := ram } ∧
      f.staked = stake ∧
      f.unstaking.amount = c.db.unstaking voter +
        (if c.db.freezed.find () voter = none then 0
          else max 0 (c.db.staked voter - stake.amount)) ∧
      tobe'.amount = tobe.amount + f.unstaking.amount := by
  simp only [setStake, ran_iff, calls_iff, freezedTable_get] at h
  unfold Db.staked Db.unstaking
  cases hrow : c.db.freezed.find () voter with
  | none =>
    simp only [hrow, bind_eq_ok, exists_unit, pure_eq_ok] at h
    obtain ⟨c₁, h, rfl, rfl⟩ := h
    obtain ⟨-, t, ram, hw, rfl⟩ := emplace_eq_ok h
    rw [MultiIndex.weightAt_of_find_none hrow, if_pos rfl]
    exact ⟨_, t, ram, hw, rfl, rfl, rfl, (add_zero _).symm⟩
  | some fts =>
    simp only [hrow, ran_iff, calls_iff, Asset.sub_eq_ok] at h
    obtain ⟨-, -, -, c₁, hmod, f, hf, htobe, rfl⟩ := h
    obtain ⟨b', hre, t, ram, hw, rfl⟩ := modifyRow_lift hmod hrow
    obtain rfl : b' = f := Option.some.inj (hw.find_self.symm.trans hf)
    obtain ⟨hstaked, hunstaking⟩ := restake_eq_ok hre
    rw [MultiIndex.weightAt_of_find hrow, MultiIndex.weightAt_of_find hrow, if_neg (by simp)]
    refine ⟨b', t, ram, hw, rfl, hstaked, ?_, by rw [(Asset.add_eq_ok.mp htobe).2.2.2]⟩
    rw [hunstaking, neg_sub]

theorem freeze_eq_ok (h : freeze voter stake e c = .ok (u, c')) :
    e.HasAuth voter ∧ 0 ≤ stake.amount ∧
    ∃ f t, c.db.freezed.Writes () voter (some f) t ∧ c'.db = { c.db with freezed := t } ∧
      f.staked = stake ∧
      f.unstaking.amount = c.db.unstaking voter +
        (if c.db.freezed.find () voter = none then 0
          else max 0 (c.db.staked voter - stake.amount)) ∧
      stake.amount + c.db.voteall voter + f.unstaking.amount ≤ c.db.coreBalance voter ∧
      c'.inlineActions = c.inlineActions := by
  simp only [freeze, ran_iff, calls_iff, Asset.ge_eq_ok] at h
  obtain ⟨hauth, hsym, hpos, -, tobe, c₁, htobe, tobe', c₂, hset, ac, hac, -, x, hx, hge, rfl⟩ := h
  obtain ⟨rfl, htobe⟩ := addVoteall_eq_ok htobe
  obtain ⟨f, t, ram, hw, rfl, hstaked, hunstaking, htobe'⟩ := setStake_eq_ok hset
  have hbal : c₁.db.coreBalance voter = ac.balance.amount := by
    rw [hsym] at hac
    exact Db.balance_of_find hac
  refine ⟨hauth, hpos, f, t, hw, rfl, hstaked, hunstaking, ?_, rfl⟩
  have hle := hx.mp hge
  omega

/-! ## `vote` -/

/-- **A change of votes** of `voter` for `bpname`: only the voter's rows and the producer's row
change; `r` and `b` are the new rows of the votes and of the producer. -/
structure VoteChange (d d' : Db) (voter bpname : Name) (r : VoteInfo) (b : BpInfo) : Prop where
  freezed : ∃ f, d.freezed.Writes () voter f d'.freezed
  voterinfo : ∃ w, d.voterinfo.Writes () voter w d'.voterinfo
  votes : d.votes.Writes voter bpname (some r) d'.votes
  bps : d.bps.Writes () bpname (some b) d'.bps
  frame : d' = { d with
    freezed := d'.freezed, voterinfo := d'.voterinfo, votes := d'.votes, bps := d'.bps }
  /-- A row of frozen tokens stays. -/
  freezed_isSome : (d.freezed.find () voter).isSome → (d'.freezed.find () voter).isSome

namespace VoteChange

variable {d d' : Db} {r : VoteInfo} {b : BpInfo} {v k : Name}

theorem freezed_of_ne (h : VoteChange d d' voter bpname r b) (hv : v ≠ voter) :
    d'.freezed.find () v = d.freezed.find () v := by
  obtain ⟨f, hw⟩ := h.freezed
  exact hw.find_of_ne fun e => hv e.2

theorem staked_of_ne (h : VoteChange d d' voter bpname r b) (hv : v ≠ voter) :
    d'.staked v = d.staked v := by
  unfold Db.staked MultiIndex.weightAt
  rw [h.freezed_of_ne hv]

theorem unstaking_of_ne (h : VoteChange d d' voter bpname r b) (hv : v ≠ voter) :
    d'.unstaking v = d.unstaking v := by
  unfold Db.unstaking MultiIndex.weightAt
  rw [h.freezed_of_ne hv]

theorem voteall_of_ne (h : VoteChange d d' voter bpname r b) (hv : v ≠ voter) :
    d'.voteall v = d.voteall v := by
  obtain ⟨w, hw⟩ := h.voterinfo
  unfold Db.voteall MultiIndex.weightAt
  rw [hw.find_of_ne fun e => hv e.2]

theorem votes_of_ne (h : VoteChange d d' voter bpname r b) (hv : ¬ (v = voter ∧ k = bpname)) :
    d'.votes.find v k = d.votes.find v k :=
  h.votes.find_of_ne hv

theorem bps_of_ne (h : VoteChange d d' voter bpname r b) (hk : k ≠ bpname) :
    d'.bps.find () k = d.bps.find () k :=
  h.bps.find_of_ne fun e => hk e.2

end VoteChange

theorem setVote_eq_ok (hstake : 0 ≤ stake.amount)
    (h : setVote voter bpname stake currBlockNum e c = .ok (change, c')) :
    change.amount = stake.amount - (c.db.voteRow voter bpname).vote.amount ∧
    ∃ f tf tv ram, c.db.freezed.Writes () voter f tf ∧
      c.db.votes.Writes voter bpname (some (revote (c.db.voteRow voter bpname) stake
        ⟨stake.amount.tdiv 10, stake.symbol⟩ currBlockNum)) tv ∧
      c' = { c with db := { c.db with freezed := tf, votes := tv }, ramDeltas := ram } ∧
      f.elim 0 (·.staked.amount) = c.db.staked voter + max 0 (-change.amount) ∧
      f.elim 0 (·.unstaking.amount) = c.db.unstaking voter ∧
      ((c.db.freezed.find () voter).isSome → f.isSome) ∧
      (0 ≤ change.amount → f = c.db.freezed.find () voter) := by
  simp only [setVote, ran_iff, calls_iff, votesTable_get] at h
  unfold Db.voteRow
  cases hrow : c.db.votes.find voter bpname with
  | none =>
    simp only [hrow, ran_iff, Asset.div_eq_ok] at h
    obtain ⟨-, -, c₁, h, hchange, rfl⟩ := h
    obtain ⟨-, tv, ram, hw, rfl⟩ := emplace_eq_ok h
    have hnew : revote { bpname } stake ⟨stake.amount.tdiv 10, stake.symbol⟩ currBlockNum =
        { bpname, vote := stake, votepower := ⟨stake.amount.tdiv 10, stake.symbol⟩,
          voteageUpdateHeight := currBlockNum } := by
      simp only [revote, core_amount, Int.zero_tdiv, zero_mul, wrap64_zero, add_zero]
    rw [Option.getD_none, hnew, hchange]
    refine ⟨(sub_zero _).symm, _, _, tv, ram, .refl _ _ _, hw, rfl, ?_, rfl, fun h => h,
      fun _ => rfl⟩
    rw [max_eq_left (by omega), add_zero]
    rfl
  | some vts =>
    simp only [hrow, ran_iff, Asset.sub_eq_ok] at h
    obtain ⟨-, -, -, c₁, hmod, rfl, rfl⟩ := h
    obtain ⟨b', c₂, hu, tv, ram, hw, rfl⟩ := modifyRow_of_find hmod hrow
    simp only [ran_iff, whenever_eq_ok, Asset.div_eq_ok, Asset.lt_eq_ok, core_amount] at hu
    obtain ⟨-, -, -, x, hx, c₃, hfreeze, rfl, rfl⟩ := hu
    refine ⟨rfl, ?_⟩
    rw [hx] at hfreeze
    rcases hfreeze with ⟨hneg, hfreeze⟩ | ⟨hpos, rfl⟩
    · obtain ⟨f, tf, ram', hwf, rfl, hstaked, hunstaking⟩ := addToFreezes_eq_ok hfreeze
      refine ⟨some f, tf, tv, ram, hwf, hw, rfl, ?_, hunstaking, fun _ => rfl,
        fun h => absurd h (by simp only; omega)⟩
      rw [max_eq_right (by simp only; omega)]
      exact hstaked
    · refine ⟨_, _, tv, ram, .refl _ _ _, hw, rfl, ?_, rfl, fun h => h, fun _ => rfl⟩
      rw [max_eq_left (by simp only; omega), add_zero]
      rfl

theorem vote_eq_ok (h : vote voter bpname stake e c = .ok (u, c')) :
    e.HasAuth voter ∧ ¬ isGenesisInitBp bpname ∧
    ((100000 ≤ stake.amount ∧ stake.amount.tmod 100000 = 0) ∨ stake.amount = 0) ∧
    ∃ b, c.db.bps.find () bpname = some b ∧
      VoteChange c.db c'.db voter bpname
        (revote (c.db.voteRow voter bpname) stake ⟨stake.amount.tdiv 10, stake.symbol⟩
          e.world.blockNum)
        (changeStake b ((stake.amount - (c.db.voteRow voter bpname).vote.amount).tdiv (10 * 10000))
          e.world.blockNum) ∧
      c'.db.staked voter =
        c.db.staked voter - (stake.amount - (c.db.voteRow voter bpname).vote.amount) ∧
      c'.db.unstaking voter = c.db.unstaking voter ∧
      c'.db.voteall voter =
        c.db.voteall voter + (stake.amount - (c.db.voteRow voter bpname).vote.amount) ∧
      (0 < stake.amount - (c.db.voteRow voter bpname).vote.amount →
        (c.db.freezed.find () voter).isSome ∧
          stake.amount - (c.db.voteRow voter bpname).vote.amount ≤ c.db.staked voter) ∧
      (0 ≤ stake.amount - (c.db.voteRow voter bpname).vote.amount →
        c.db.freezed.find () voter = none → c'.db.freezed.find () voter = none) ∧
      c'.inlineActions = c.inlineActions := by
  simp only [vote, ran_iff, calls_iff, Asset.gt_eq_ok, whenever_eq_ok, core_amount] at h
  obtain ⟨hauth, bp, hbp, hgen, -, hamount, change, c₁, hset, -, -, -, -, x, hx, c₂, hpay, c₃,
    hinfo, hmod⟩ := h
  obtain ⟨hchange, f, tf, tv, ram, hwf, hwv, rfl, hstaked, hunstaking, hsome, hsame⟩ :=
    setVote_eq_ok (by omega) hset
  rw [hx] at hpay
  obtain ⟨f', tf', ram', hwf', rfl, hstaked', hunstaking', hsome', hrow, hnone⟩ :
      ∃ f' tf' ram', c.db.freezed.Writes () voter f' tf' ∧
        c₂ = { c with db := { c.db with freezed := tf', votes := tv }, ramDeltas := ram' } ∧
        f'.elim 0 (·.staked.amount) = c.db.staked voter - change.amount ∧
        f'.elim 0 (·.unstaking.amount) = c.db.unstaking voter ∧
        ((c.db.freezed.find () voter).isSome → f'.isSome) ∧
        (0 < change.amount →
          (c.db.freezed.find () voter).isSome ∧ change.amount ≤ c.db.staked voter) ∧
        (0 ≤ change.amount → c.db.freezed.find () voter = none → f' = none) := by
    rcases hpay with ⟨hgrow, hpay⟩ | ⟨hgrow, rfl⟩
    · simp only [payVote, bind_eq_ok, exists_unit] at hpay
      obtain ⟨c₄, hpawn, htake⟩ := hpay
      obtain rfl := checkPawn_eq_ok hpawn
      obtain ⟨hne, hle, f', tf', ram', hw', rfl, hst, hun⟩ := takeFromFreezes_eq_ok htake
      obtain rfl := hsame hgrow.le
      have hle : change.amount ≤ c.db.staked voter := hle.trans_eq (hwf.weightAt_self _)
      have hrow : (c.db.freezed.find () voter).isSome := by
        rw [← hwf.find_self]
        exact Option.isSome_iff_ne_none.mpr hne
      exact ⟨some f', tf', ram', hwf.trans hw', rfl,
        hst.trans (congrArg (· - change.amount) (hwf.weightAt_self _)),
        hun.trans (hwf.weightAt_self _), fun _ => rfl, fun _ => ⟨hrow, hle⟩,
        fun _ hn => by rw [hn] at hrow; cases hrow⟩
    · refine ⟨f, tf, ram, hwf, rfl, ?_, hunstaking, hsome, fun h => absurd h hgrow,
        fun h hn => (hsame h).trans hn⟩
      rw [hstaked, max_eq_right (by omega), ← sub_eq_add_neg]
  obtain ⟨w, tw, ram₂, hww, rfl, hvoteall⟩ := updateVoterInfo_eq_ok hinfo
  obtain ⟨b, tb, ram₃, hb, hwb, rfl⟩ := modifyBpVote_eq_ok hmod
  rw [hchange] at *
  refine ⟨hauth, hgen, hamount, b, hb, ⟨⟨f', hwf'⟩, ⟨some w, hww⟩, hwv, hwb, rfl, ?_⟩, ?_, ?_, ?_,
    hrow, fun h hn => hwf'.find_self.trans (hnone h hn), rfl⟩
  · intro h
    exact Eq.subst (motive := fun o => Option.isSome o) hwf'.find_self.symm (hsome' h)
  · exact (hwf'.weightAt_self _).trans hstaked'
  · exact (hwf'.weightAt_self _).trans hunstaking'
  · exact (hww.weightAt_self _).trans hvoteall

theorem covered_of_vote {b : BpInfo} (h : vote voter bpname stake e c = .ok (u, c'))
    (hb : c.db.bps.find () bpname = some b)
    (hgrow : 0 < stake.amount - (c.db.voteRow voter bpname).vote.amount) :
    5000 * 10000 ≤ b.pawn.amount ∧ wrap64 (b.totalStaked +
        (stake.amount - (c.db.voteRow voter bpname).vote.amount).tdiv (10 * 10000)) ≤
          800 * 10000 ∨
      10000 * 10000 ≤ b.pawn.amount ∧ wrap64 (b.totalStaked +
        (stake.amount - (c.db.voteRow voter bpname).vote.amount).tdiv (10 * 10000)) ≤
          2000 * 10000 ∨
      30000 * 10000 ≤ b.pawn.amount := by
  simp only [vote, ran_iff, calls_iff, Asset.gt_eq_ok, whenever_eq_ok, core_amount, bpsTable_get]
    at h
  obtain ⟨-, bp, hbp, -, -, hamount, change, c₁, hset, -, -, -, -, x, hx, c₂, hpay, -⟩ := h
  obtain rfl : b = bp := Option.some.inj (hb.symm.trans hbp)
  obtain ⟨hchange, -⟩ := setVote_eq_ok (by omega) hset
  rw [← hchange] at hgrow ⊢
  rw [hx] at hpay
  rcases hpay with ⟨-, hpay⟩ | ⟨hnot, -⟩
  · simp only [payVote, bind_eq_ok, exists_unit] at hpay
    obtain ⟨c₃, hpawn, -⟩ := hpay
    exact covered_of_checkPawn hpawn
  · exact absurd hgrow hnot

/-! ## `votestatic` -/

variable {lockBlockNum power : Nat}

theorem appendStaticVote_eq_ok
    (h : appendStaticVote v stake power lockBlockNum currBlockNum = .ok r) :
    r = { v with staticVotes := v.staticVotes ++ [{
      vote := stake
      votepower := ⟨stake.amount * power, stake.symbol⟩
      votepowerAge := 0
      votepowerAgeUpdateHeight := currBlockNum
      unfreezeBlockNum := add32 currBlockNum lockBlockNum
      freezeBlockNum := lockBlockNum }] } := by
  simp only [appendStaticVote, Commons.ok_iff, Asset.mul_eq_ok, ran_iff] at h
  exact h.2.2

theorem addStaticVote_eq_ok
    (h : addStaticVote voter bpname stake power lockBlockNum currBlockNum e c = .ok (u, c')) :
    ∃ r t ram, appendStaticVote (c.db.voteRow voter bpname) stake power lockBlockNum
        currBlockNum = .ok r ∧
      c.db.votes.Writes voter bpname (some r) t ∧
      c' = { c with db := { c.db with votes := t }, ramDeltas := ram } := by
  simp only [addStaticVote, ran_iff, calls_iff, votesTable_get] at h
  unfold Db.voteRow
  cases hrow : c.db.votes.find voter bpname with
  | none =>
    simp only [hrow, ran_iff] at h
    obtain ⟨r, hr, h⟩ := h
    obtain ⟨-, t, ram, hw, rfl⟩ := emplace_eq_ok h
    exact ⟨r, t, ram, hr, hw, rfl⟩
  | some vts =>
    simp only [hrow] at h
    obtain ⟨r, hr, t, ram, hw, rfl⟩ := modifyRow_lift h hrow
    exact ⟨r, t, ram, hr, hw, rfl⟩

def staticVotePower (typ : Nat) : Nat := (staticVoteData.getD typ (0, 0)).2

theorem votestatic_eq_ok {typ : Nat} (h : votestatic voter bpname stake typ e c = .ok (u, c')) :
    e.HasAuth voter ∧ ¬ isGenesisInitBp bpname ∧ typ < staticVoteData.length ∧
    0 ≤ stake.amount ∧ stake.amount.tmod 10000 = 0 ∧
    ∃ b r lockBlockNum, c.db.bps.find () bpname = some b ∧
      appendStaticVote (c.db.voteRow voter bpname) stake (staticVotePower typ) lockBlockNum
        e.world.blockNum = .ok r ∧
      VoteChange c.db c'.db voter bpname r
        (changeStake b ((stake.amount * staticVotePower typ).tdiv 10000) e.world.blockNum) ∧
      c'.db.staked voter = c.db.staked voter - stake.amount ∧
      c'.db.unstaking voter = c.db.unstaking voter ∧
      c'.db.voteall voter = c.db.voteall voter + stake.amount ∧
      ((c.db.freezed.find () voter).isSome ∧ stake.amount ≤ c.db.staked voter) ∧
      c'.inlineActions = c.inlineActions := by
  simp only [votestatic, ran_iff, calls_iff, Asset.mul_eq_ok] at h
  obtain ⟨hauth, hgen, htyp, -, hpos, hmod, bp, hbp, -, c₁, hpawn, c₂, htake, c₃, hadd, c₄, hinfo,
    -, -, hbpvote⟩ := h
  obtain rfl := checkPawn_eq_ok hpawn
  obtain ⟨hne, hle, f, tf, ram, hwf, rfl, hstaked, hunstaking⟩ := takeFromFreezes_eq_ok htake
  obtain ⟨r, tv, ram₁, hr, hwv, rfl⟩ := addStaticVote_eq_ok hadd
  obtain ⟨w, tw, ram₂, hww, rfl, hvoteall⟩ := updateVoterInfo_eq_ok hinfo
  obtain ⟨b, tb, ram₃, hb, hwb, rfl⟩ := modifyBpVote_eq_ok hbpvote
  refine ⟨hauth, hgen, htyp, hpos, hmod, b, r, _, hb, hr,
    ⟨⟨some f, hwf⟩, ⟨some w, hww⟩, hwv, hwb, rfl, fun _ => ?_⟩, ?_, ?_, ?_,
    ⟨Option.isSome_iff_ne_none.mpr hne, hle⟩, rfl⟩
  · exact Eq.subst (motive := fun o => Option.isSome o) hwf.find_self.symm rfl
  · exact (hwf.weightAt_self _).trans hstaked
  · exact (hwf.weightAt_self _).trans hunstaking
  · exact (hww.weightAt_self _).trans hvoteall

/-! ## `quitsvote` -/

theorem quitStaticVote_eq_ok (hsv : v.staticVotes[idx]? = some sv)
    (h : quitStaticVote v idx currBlockNum = .ok r) :
    ∃ sv', quitItem sv currBlockNum = .ok sv' ∧
      r = { v with staticVotes := v.staticVotes.set idx sv' } := by
  simp only [quitStaticVote, hsv, Commons.bind_eq_ok, Commons.pure_eq_ok] at h
  exact h

theorem quitItem_eq_ok {sv' : VoteInfoItem} (h : quitItem sv currBlockNum = .ok sv') :
    ∃ addon, voteageAddon sv.votepower (sub32 currBlockNum sv.votepowerAgeUpdateHeight) =
        .ok addon ∧
      sv' = { sv with
        isHasQuited := true
        votepowerAge := wrap64 (sv.votepowerAge + addon)
        votepowerAgeUpdateHeight := currBlockNum
        votepower := core 0
        vote := core 0 } := by
  simp only [quitItem, Commons.bind_eq_ok, Commons.pure_eq_ok] at h
  exact h

theorem vote_of_quitStaticVote (hsv : v.staticVotes[idx]? = some sv)
    (h : quitStaticVote v idx currBlockNum = .ok r) :
    (staticVoteAt (some r) idx).elim (core 0) (·.vote) = core 0 := by
  obtain ⟨sv', hsv', rfl⟩ := quitStaticVote_eq_ok hsv h
  obtain ⟨addon, -, rfl⟩ := quitItem_eq_ok hsv'
  have hlt : idx < v.staticVotes.length := (List.getElem?_eq_some_iff.mp hsv).1
  rw [staticVoteAt, Option.bind_some, List.getElem?_set_self hlt]
  rfl

theorem quitsvote_eq_ok (h : quitsvote voter bpname idx e c = .ok (u, c')) :
    e.HasAuth voter ∧
    ∃ b vts sv sv', c.db.bps.find () bpname = some b ∧
      c.db.votes.find voter bpname = some vts ∧ vts.staticVotes[idx]? = some sv ∧
      ¬ sv.isHasQuited ∧ quitItem sv e.world.blockNum = .ok sv' ∧
      VoteChange c.db c'.db voter bpname
        { vts with staticVotes := vts.staticVotes.set idx sv' }
        (changeStake b (-(sv.votepower.amount.tdiv 10000)) e.world.blockNum) ∧
      c'.db.staked voter = c.db.staked voter + sv.vote.amount ∧
      c'.db.unstaking voter = c.db.unstaking voter ∧
      c'.db.voteall voter = c.db.voteall voter ∧
      c'.inlineActions = c.inlineActions := by
  simp only [quitsvote, ran_iff, calls_iff, votesTable_get] at h
  obtain ⟨hauth, bp, hbp, h⟩ := h
  cases hsv : staticVoteAt (c.db.votes.find voter bpname) idx with
  | none =>
    simp only [hsv] at h
    exact absurd h fail_ne_ok
  | some sv =>
    simp only [hsv, ran_iff, calls_iff, votesTable_get] at h
    obtain ⟨hquit, -, c₁, hfreeze, c₂, hbpvote, c₃, hmod, hinfo⟩ := h
    obtain ⟨vts, hvts, hidx⟩ := Option.bind_eq_some_iff.mp hsv
    obtain ⟨f, tf, ram, hwf, rfl, hstaked, hunstaking⟩ := addToFreezes_eq_ok hfreeze
    obtain ⟨b, tb, ram₁, hb, hwb, rfl⟩ := modifyBpVote_eq_ok hbpvote
    obtain ⟨r, hr, tv, ram₂, hwv, rfl⟩ := modifyRow_lift hmod hvts
    have hgone : (staticVoteAt (tv.find voter bpname) idx).elim (core 0) (·.vote) = core 0 := by
      rw [hwv.find_self]
      exact vote_of_quitStaticVote hidx hr
    obtain ⟨sv', hsv', rfl⟩ := quitStaticVote_eq_ok hidx hr
    obtain ⟨w, tw, ram₃, hww, rfl, hvoteall⟩ := updateVoterInfo_eq_ok hinfo
    have hzero : w.voteall.amount = c.db.voteall voter := by
      have hsum : w.voteall.amount = c.db.voteall voter +
          ((staticVoteAt (tv.find voter bpname) idx).elim (core 0) (·.vote)).neg.amount := hvoteall
      rw [hsum, hgone]
      exact add_zero _
    refine ⟨hauth, b, vts, sv, sv', hb, hvts, hidx, hquit, hsv',
      ⟨⟨some f, hwf⟩, ⟨some w, hww⟩, hwv, hwb, rfl, fun _ => ?_⟩, ?_, ?_, ?_, rfl⟩
    · exact Eq.subst (motive := fun o => Option.isSome o) hwf.find_self.symm rfl
    · exact (hwf.weightAt_self _).trans hstaked
    · exact (hwf.weightAt_self _).trans hunstaking
    · exact (hww.weightAt_self _).trans hzero

/-! ## `claim`, `votebyreward` and `unfreeze` -/

variable {info : ClaimInfo}

theorem claimInfo_eq_ok {vts : VoteInfo} (h : claimInfo bp vts currBlockNum = .ok info) :
    info.newestTotalVoteage = bp.newestTotalVoteage currBlockNum ∧
      0 < info.newestTotalVoteage ∧
      vts.newestVoteage currBlockNum = .ok info.newestVoteage ∧
      info.reward = core (wrap64 ((bp.rewardsPool.amount * info.newestVoteage).tdiv
        info.newestTotalVoteage)) ∧
      0 < info.reward.amount ∧ info.reward.amount ≤ bp.rewardsPool.amount := by
  simp only [claimInfo, Commons.ok_iff, Asset.ofAmount_eq_ok, Asset.lt_eq_ok, Asset.le_eq_ok,
    ran_iff, core_amount] at h
  obtain ⟨htotal, age, hage, -, -, -, x, hx, -, y, hy, hpos, hle, rfl⟩ := h
  exact ⟨rfl, htotal, hage, rfl, hx.mp hpos, hy.mp hle⟩

theorem payFromPool_eq_ok {b b' : BpInfo} (h : payFromPool b info currBlockNum = .ok b') :
    b' = { b with
      rewardsPool := ⟨b.rewardsPool.amount - info.reward.amount, b.rewardsPool.symbol⟩
      totalVoteage := wrap64 (info.newestTotalVoteage - info.newestVoteage)
      voteageUpdateHeight := currBlockNum } := by
  simp only [payFromPool, Commons.ok_iff, Asset.sub_eq_ok, ran_iff] at h
  exact h.2.2.2

theorem claim_eq_ok (h : claim voter bpname e c = .ok (u, c')) :
    e.HasAuth voter ∧
    ∃ b vts info b', c.db.bps.find () bpname = some b ∧
      c.db.votes.find voter bpname = some vts ∧
      claimInfo b vts e.world.blockNum = .ok info ∧
      payFromPool b info e.world.blockNum = .ok b' ∧
      VoteChange c.db c'.db voter bpname (settleVotes vts e.world.blockNum) b' ∧
      c'.db.freezed = c.db.freezed ∧ c'.db.voterinfo = c.db.voterinfo ∧
      c'.inlineActions = c.inlineActions ++
        [Token.transferAction systemAccountName voter info.reward "claim"] := by
  simp only [claim, ran_iff, calls_iff] at h
  obtain ⟨hauth, bp, hbp, vts, hvts, info, hinfo, c₁, hinline, c₂, hvotes, hbps⟩ := h
  obtain rfl := executeInline_eq_ok hinline
  obtain ⟨v, hv, tv, ram, hwv, rfl⟩ := modifyRow_pure hvotes
  obtain ⟨b', hpay, tb, ram₁, hwb, rfl⟩ := modifyRow_lift hbps hbp
  obtain rfl : vts = v := Option.some.inj (hvts.symm.trans hv)
  exact ⟨hauth, bp, vts, info, b', hbp, hvts, hinfo, hpay,
    ⟨⟨_, .refl _ _ _⟩, ⟨_, .refl _ _ _⟩, hwv, hwb, rfl, fun h => h⟩, rfl, rfl, rfl⟩

/-- The amount of a reward that `votebyreward` turns into a vote. -/
def rewardAllOf (info : ClaimInfo) : Int := info.reward.amount - info.reward.amount.tmod 100000

theorem revoteReward_eq_ok {rewardAll votePower : Asset}
    (h : revoteReward v rewardAll votePower currBlockNum = .ok r) :
    r = { settleVotes v currBlockNum with
      vote := ⟨v.vote.amount + rewardAll.amount, v.vote.symbol⟩
      votepower := ⟨v.votepower.amount + votePower.amount, v.votepower.symbol⟩ } := by
  simp only [revoteReward, Commons.ok_iff, Asset.add_eq_ok, ran_iff] at h
  exact h.2.2.2.2.2.2

theorem votebyreward_eq_ok (h : votebyreward voter bpname e c = .ok (u, c')) :
    e.HasAuth voter ∧ ¬ isGenesisInitBp bpname ∧
    ∃ b vts info b' r, c.db.bps.find () bpname = some b ∧
      c.db.votes.find voter bpname = some vts ∧
      claimInfo b vts e.world.blockNum = .ok info ∧
      payFromPool b info e.world.blockNum = .ok b' ∧
      revoteReward vts (core (rewardAllOf info)) (core ((rewardAllOf info).tdiv 10))
        e.world.blockNum = .ok r ∧
      VoteChange c.db c'.db voter bpname r
        (changeStake b' (((rewardAllOf info).tdiv 10).tdiv 10000) e.world.blockNum) ∧
      c'.db.freezed = c.db.freezed ∧
      c'.db.voteall voter = c.db.voteall voter + rewardAllOf info ∧
      c'.inlineActions = c.inlineActions := by
  simp only [votebyreward, ran_iff, calls_iff, Asset.ofAmount_eq_ok, Asset.div_eq_ok] at h
  obtain ⟨hauth, bp, hbp, hgen, -, vts, hvts, info, hinfo, -, -, -, -, c₁, hvotes, c₂, hbps, c₃,
    hvoter, hbpvote⟩ := h
  obtain ⟨r, hr, tv, ram, hwv, rfl⟩ := modifyRow_lift hvotes hvts
  obtain ⟨b', hpay, tb, ram₁, hwb, rfl⟩ := modifyRow_lift hbps hbp
  obtain ⟨w, tw, ram₂, hww, rfl, hvoteall⟩ := updateVoterInfo_eq_ok hvoter
  obtain ⟨b'', tb', ram₃, hb'', hwb', rfl⟩ := modifyBpVote_eq_ok hbpvote
  obtain rfl : b' = b'' := Option.some.inj (hwb.find_self.symm.trans hb'')
  exact ⟨hauth, hgen, bp, vts, info, b', r, hbp, hvts, hinfo, hpay, hr,
    ⟨⟨_, .refl _ _ _⟩, ⟨some w, hww⟩, hwv, hwb.trans hwb', rfl, fun h => h⟩, rfl,
    (hww.weightAt_self _).trans hvoteall, rfl⟩

theorem unfreeze_eq_ok (h : unfreeze voter e c = .ok (u, c')) :
    e.HasAuth voter ∧ ∃ f, c.db.freezed.find () voter = some f ∧ 0 < f.unstaking.amount ∧
      c'.db = c.db ∧
      c'.inlineActions = c.inlineActions ++
        [Token.transferAction systemAccountName voter f.unstaking "unfreeze"] := by
  simp only [unfreeze, ran_iff, calls_iff] at h
  obtain ⟨hauth, f, hf, -, hpos, hinline⟩ := h
  obtain rfl := executeInline_eq_ok hinline
  exact ⟨hauth, f, hf, hpos, rfl, rfl⟩

end SystemContract

end BaccChain
