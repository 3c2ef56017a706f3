import BaccChain.Contracts.System.VoteSums

/-!
# What the actions on votes have in common

Votes come in units: ten tokens of an ordinary vote give one unit of stake, and one token of a
static vote gives as many as its power. So every division in the actions is exact.
-/

namespace BaccChain

open SystemContract
open Asset (core core_amount)

/-! ## Tokens and stake of a row -/

/-- The tokens on a row: the vote, and the static votes that have not been quit. -/
def VoteInfo.tokens (r : VoteInfo) : Int := r.vote.amount + r.sumStatic (·.vote.amount)

def VoteInfo.stake (r : VoteInfo) : Int :=
  r.votepower.amount.tdiv 10000 + r.sumStatic fun sv => sv.votepower.amount.tdiv 10000

/-- A static vote in whole tokens, with a power of at most twelve. -/
def VoteInfoItem.Regular (sv : VoteInfoItem) : Prop :=
  ∃ n p : Nat, p ≤ 12 ∧ sv.vote.amount = 10000 * n ∧ sv.votepower.amount = 10000 * (n * p)

/-- A row whose vote is in units of ten tokens and whose static votes are in whole tokens. -/
structure VoteInfo.Regular (r : VoteInfo) : Prop where
  vote : ∃ n : Nat, r.vote.amount = 100000 * n ∧ r.votepower.amount = 10000 * n
  static : ∀ sv ∈ r.staticVotes, sv.Regular

theorem VoteInfo.tokens_default (bpname : Name) : ({ bpname } : VoteInfo).tokens = 0 := rfl

theorem VoteInfo.stake_default (bpname : Name) : ({ bpname } : VoteInfo).stake = 0 := rfl

theorem VoteInfo.regular_default (bpname : Name) : ({ bpname } : VoteInfo).Regular :=
  ⟨⟨0, rfl, rfl⟩, fun _ h => by cases h⟩

theorem tdiv_unit (n : Int) : (10000 * n).tdiv 10000 = n :=
  Int.mul_tdiv_cancel_left n (by decide)

namespace VoteInfoItem.Regular

variable {sv : VoteInfoItem}

theorem weight_nonneg (h : sv.Regular) : 0 ≤ weight (·.vote.amount) sv := by
  obtain ⟨n, p, -, hvote, -⟩ := h
  unfold weight
  split_ifs
  · exact le_rfl
  · show 0 ≤ sv.vote.amount
    omega

theorem stake_bounds (h : sv.Regular) :
    0 ≤ weight (fun sv => sv.votepower.amount.tdiv 10000) sv ∧
      10000 * weight (fun sv => sv.votepower.amount.tdiv 10000) sv ≤
        12 * weight (·.vote.amount) sv := by
  obtain ⟨n, p, hp, hvote, hpower⟩ := h
  unfold weight
  split_ifs
  · exact ⟨le_rfl, le_rfl⟩
  · have hle : n * p ≤ n * 12 := Nat.mul_le_mul_left n hp
    show 0 ≤ sv.votepower.amount.tdiv 10000 ∧
      10000 * sv.votepower.amount.tdiv 10000 ≤ 12 * sv.vote.amount
    rw [hvote, hpower, tdiv_unit]
    constructor
    · exact_mod_cast Nat.zero_le (n * p)
    · exact_mod_cast (by omega : 10000 * (n * p) ≤ 12 * (10000 * n))

theorem quit {sv' : VoteInfoItem} {n : Nat} (h : quitItem sv n = .ok sv') : sv'.Regular := by
  obtain ⟨addon, -, rfl⟩ := quitItem_eq_ok h
  exact ⟨0, 0, by decide, rfl, rfl⟩

end VoteInfoItem.Regular

namespace VoteInfo

variable {r : VoteInfo}

theorem sumStatic_bounds {l : List VoteInfoItem} (h : ∀ sv ∈ l, sv.Regular) :
    0 ≤ (l.map (VoteInfoItem.weight (·.vote.amount))).sum ∧
      0 ≤ (l.map (VoteInfoItem.weight fun sv => sv.votepower.amount.tdiv 10000)).sum ∧
      10000 * (l.map (VoteInfoItem.weight fun sv => sv.votepower.amount.tdiv 10000)).sum ≤
        12 * (l.map (VoteInfoItem.weight (·.vote.amount))).sum := by
  induction l with
  | nil => exact ⟨le_rfl, le_rfl, le_rfl⟩
  | cons sv l ih =>
    obtain ⟨h₁, h₂, h₃⟩ := ih fun x hx => h x (List.mem_cons_of_mem _ hx)
    have hsv := h sv List.mem_cons_self
    have h₄ := hsv.weight_nonneg
    obtain ⟨h₅, h₆⟩ := hsv.stake_bounds
    simp only [List.map_cons, List.sum_cons]
    exact ⟨by omega, by omega, by omega⟩

namespace Regular

theorem stake_nonneg (h : r.Regular) : 0 ≤ r.stake := by
  obtain ⟨n, -, hpower⟩ := h.vote
  have hstatic := (sumStatic_bounds h.static).2.1
  unfold stake sumStatic
  rw [hpower, tdiv_unit]
  omega

theorem settle (h : r.Regular) (n : Nat) : (settleVotes r n).Regular := by
  refine ⟨h.vote, fun sv hsv => ?_⟩
  have hmem : sv ∈ r.staticVotes.map fun sv => ({ sv with
      votepowerAge := 0, votepowerAgeUpdateHeight := n } : VoteInfoItem) := by
    simp only [settleVotes, settleStaticVotes] at hsv
    split_ifs at hsv
    · exact List.mem_of_mem_filter hsv
    · exact hsv
  obtain ⟨sv₀, hsv₀, rfl⟩ := List.mem_map.mp hmem
  exact h.static sv₀ hsv₀

end Regular

theorem tokens_settle (r : VoteInfo) (n : Nat) : (settleVotes r n).tokens = r.tokens := by
  unfold tokens
  rw [sumStatic_settle fun _ => rfl]
  rfl

theorem stake_settle (r : VoteInfo) (n : Nat) : (settleVotes r n).stake = r.stake := by
  unfold stake
  rw [sumStatic_settle fun _ => rfl]
  rfl

end VoteInfo

theorem Db.voteRow_regular {d : Db} (h : ∀ v k r, d.votes.find v k = some r → r.Regular)
    (voter bpname : Name) : (d.voteRow voter bpname).Regular := by
  unfold Db.voteRow
  cases hr : d.votes.find voter bpname with
  | none => exact VoteInfo.regular_default bpname
  | some r => exact h voter bpname r hr

/-! ## The common effect -/

/-- **What an action on votes does**: `tokens` are moved onto the row of `voter` for `bpname`, which
then is `r`; the stake of the producer changes by `stake`; and `paid` is taken from its pool. -/
structure VoteEffect (d d' : Db) (voter bpname : Name) (r : VoteInfo) (b b' : BpInfo)
    (tokens stake paid : Int) : Prop where
  find : d.bps.find () bpname = some b
  change : VoteChange d d' voter bpname r b'
  regular : r.Regular
  tokens_eq : r.tokens = (d.voteRow voter bpname).tokens + tokens
  stake_eq : r.stake = (d.voteRow voter bpname).stake + stake
  totalStaked : b'.totalStaked = wrap64 (b.totalStaked + stake) ∨
    stake = 0 ∧ b'.totalStaked = b.totalStaked
  pool : b'.rewardsPool.amount = b.rewardsPool.amount - paid
  pool_nonneg : 0 ≤ b.rewardsPool.amount → 0 ≤ b'.rewardsPool.amount
  paid_nonneg : 0 ≤ paid
  block : b'.rewardsBlock = b.rewardsBlock
  frozen : d'.staked voter + d'.unstaking voter + tokens ≤
    d.staked voter + d.unstaking voter + paid
  staked_nonneg : 0 ≤ d.staked voter → 0 ≤ d'.staked voter
  unstaking : d'.unstaking voter = d.unstaking voter
  voteall : d.voteall voter + tokens ≤ d'.voteall voter

namespace SystemContract

variable {e : Env} {c c' : Ctx} {u : Unit} {voter bpname : Name}

variable {stake : Asset}

theorem vote_stakeEffect (hrow : (c.db.voteRow voter bpname).Regular)
    (h : vote voter bpname stake e c = .ok (u, c')) :
    ∃ r b b' tokens, VoteEffect c.db c'.db voter bpname r b b' tokens
      ((stake.amount - (c.db.voteRow voter bpname).vote.amount).tdiv (10 * 10000)) 0 ∧
      b'.pawn = b.pawn := by
  obtain ⟨-, -, hamount, b, hb, hchange, hstaked, hunstaking, hvoteall, hgrow, -, -⟩ :=
    vote_eq_ok h
  obtain ⟨m, hm, hmpower⟩ := hrow.vote
  obtain ⟨n, hn⟩ : ∃ n : Nat, stake.amount = 100000 * n := by
    rcases hamount with ⟨hpos, hmod⟩ | hzero
    · obtain ⟨q, hq⟩ := Int.dvd_of_tmod_eq_zero hmod
      exact ⟨q.toNat, by omega⟩
    · exact ⟨0, by omega⟩
  have hpower : stake.amount.tdiv 10 = 10000 * n := by
    rw [hn, show (100000 : Int) * n = 10 * (10000 * n) by ring]
    exact Int.mul_tdiv_cancel_left _ (by decide)
  have hδ : (stake.amount - (c.db.voteRow voter bpname).vote.amount).tdiv (10 * 10000) =
      n - m := by
    rw [hn, hm, show (100000 : Int) * n - 100000 * m = (10 * 10000) * (n - m) by ring]
    exact Int.mul_tdiv_cancel_left _ (by decide)
  rw [hδ] at hchange ⊢
  refine ⟨_, b, _, stake.amount - (c.db.voteRow voter bpname).vote.amount,
    ⟨hb, hchange, ⟨⟨n, hn, hpower⟩, hrow.static⟩, ?_, ?_, .inl rfl, (sub_zero _).symm, id, le_rfl,
      rfl, by omega, ?_, hunstaking, hvoteall.ge⟩, rfl⟩
  · show stake.amount + _ = _ + _ + _
    unfold VoteInfo.sumStatic
    simp only [revote]
    omega
  · show (stake.amount.tdiv 10).tdiv 10000 + _ = _ + _ + _
    unfold VoteInfo.sumStatic
    rw [hpower, tdiv_unit, hmpower, tdiv_unit]
    simp only [revote]
    omega
  · intro hnonneg
    by_cases hpos : 0 < stake.amount - (c.db.voteRow voter bpname).vote.amount
    · have := (hgrow hpos).2
      omega
    · omega

theorem vote_effect (hrow : (c.db.voteRow voter bpname).Regular)
    (h : vote voter bpname stake e c = .ok (u, c')) :
    ∃ r b b' tokens δ, VoteEffect c.db c'.db voter bpname r b b' tokens δ 0 := by
  obtain ⟨r, b, b', tokens, heffect, -⟩ := vote_stakeEffect hrow h
  exact ⟨r, b, b', tokens, _, heffect⟩

variable {typ : Nat}

theorem votestatic_stakeEffect (hrow : (c.db.voteRow voter bpname).Regular)
    (h : votestatic voter bpname stake typ e c = .ok (u, c')) :
    ∃ r b b' tokens, VoteEffect c.db c'.db voter bpname r b b' tokens
      ((stake.amount * staticVotePower typ).tdiv 10000) 0 ∧ b'.pawn = b.pawn := by
  obtain ⟨-, -, htyp, hpos, hmod, b, r, lock, hb, hr, hchange, hstaked, hunstaking, hvoteall,
    ⟨-, hle⟩, -⟩ := votestatic_eq_ok h
  obtain ⟨n, hn⟩ : ∃ n : Nat, stake.amount = 10000 * n := by
    obtain ⟨q, hq⟩ := Int.dvd_of_tmod_eq_zero hmod
    exact ⟨q.toNat, by omega⟩
  have hp : staticVotePower typ ≤ 12 :=
    (by decide : ∀ t < staticVoteData.length, staticVotePower t ≤ 12) typ htyp
  have hpower : stake.amount * staticVotePower typ = 10000 * (n * staticVotePower typ) := by
    rw [hn, mul_assoc]
  refine ⟨r, b, _, stake.amount,
    ⟨hb, hchange, ?_, ?_, ?_, .inl rfl, (sub_zero _).symm, id, le_rfl, rfl, by omega,
      fun _ => by omega, hunstaking, hvoteall.ge⟩, rfl⟩
  · rw [appendStaticVote_eq_ok hr]
    refine ⟨hrow.vote, fun sv hsv => ?_⟩
    rcases List.mem_append.mp hsv with hsv | hsv
    · exact hrow.static sv hsv
    · rw [List.mem_singleton.mp hsv]
      exact ⟨n, staticVotePower typ, hp, hn, hpower⟩
  · unfold VoteInfo.tokens
    rw [VoteInfo.sumStatic_append hr, appendStaticVote_eq_ok hr]
    ring
  · unfold VoteInfo.stake
    rw [VoteInfo.sumStatic_append hr, appendStaticVote_eq_ok hr]
    ring

theorem votestatic_effect (hrow : (c.db.voteRow voter bpname).Regular)
    (h : votestatic voter bpname stake typ e c = .ok (u, c')) :
    ∃ r b b' tokens δ, VoteEffect c.db c'.db voter bpname r b b' tokens δ 0 := by
  obtain ⟨r, b, b', tokens, heffect, -⟩ := votestatic_stakeEffect hrow h
  exact ⟨r, b, b', tokens, _, heffect⟩

variable {idx : Nat}

theorem quitsvote_stakeEffect (hrow : (c.db.voteRow voter bpname).Regular)
    (h : quitsvote voter bpname idx e c = .ok (u, c')) :
    ∃ r b b' tokens sv, (c.db.voteRow voter bpname).staticVotes[idx]? = some sv ∧
      VoteEffect c.db c'.db voter bpname r b b' tokens (-(sv.votepower.amount.tdiv 10000)) 0 ∧
      b'.pawn = b.pawn ∧ 0 ≤ sv.votepower.amount.tdiv 10000 := by
  obtain ⟨-, b, vts, sv, sv', hb, hvts, hidx, hquit, hsv', hchange, hstaked, hunstaking, hvoteall,
    -⟩ := quitsvote_eq_ok h
  rw [Db.voteRow_of_find hvts] at hrow ⊢
  have hmem : sv ∈ vts.staticVotes := List.mem_of_getElem? hidx
  obtain ⟨hnonneg, hpower⟩ : 0 ≤ sv.vote.amount ∧ 0 ≤ sv.votepower.amount.tdiv 10000 := by
    obtain ⟨n, p, -, hvote, hpower⟩ := hrow.static sv hmem
    rw [hpower, tdiv_unit]
    exact ⟨by omega, Int.natCast_nonneg (n * p)⟩
  refine ⟨_, b, _, -sv.vote.amount, sv, hidx,
    ⟨hb, hchange, ?_, ?_, ?_, .inl rfl, (sub_zero _).symm, id, le_rfl, rfl, by omega,
      fun _ => by omega, hunstaking, by omega⟩, rfl, hpower⟩
  · refine ⟨hrow.vote, fun x hx => ?_⟩
    rcases List.mem_or_eq_of_mem_set hx with hx | rfl
    · exact hrow.static x hx
    · exact .quit hsv'
  · rw [Db.voteRow_of_find hvts]
    unfold VoteInfo.tokens
    rw [VoteInfo.sumStatic_quit hidx hquit hsv']
    ring
  · rw [Db.voteRow_of_find hvts]
    unfold VoteInfo.stake
    rw [VoteInfo.sumStatic_quit hidx hquit hsv']
    ring

theorem quitsvote_effect (hrow : (c.db.voteRow voter bpname).Regular)
    (h : quitsvote voter bpname idx e c = .ok (u, c')) :
    ∃ r b b' tokens δ, VoteEffect c.db c'.db voter bpname r b b' tokens δ 0 := by
  obtain ⟨r, b, b', tokens, sv, -, heffect, -⟩ := quitsvote_stakeEffect hrow h
  exact ⟨r, b, b', tokens, _, heffect⟩

theorem claim_effect (hrow : (c.db.voteRow voter bpname).Regular)
    (h : claim voter bpname e c = .ok (u, c')) :
    ∃ r b b' paid, VoteEffect c.db c'.db voter bpname r b b' 0 0 paid ∧
      c'.inlineActions = c.inlineActions ++
        [Token.transferAction systemAccountName voter (core paid) "claim"] := by
  obtain ⟨-, b, vts, info, b', hb, hvts, hinfo, hpay, hchange, hfreezed, hvoterinfo, hinline⟩ :=
    claim_eq_ok h
  obtain ⟨-, -, -, hreward, hpos, hle⟩ := claimInfo_eq_ok hinfo
  rw [Db.voteRow_of_find hvts] at hrow
  have hstaked : c'.db.staked voter = c.db.staked voter := by rw [Db.staked, hfreezed, Db.staked]
  have hunstaking : c'.db.unstaking voter = c.db.unstaking voter := by
    rw [Db.unstaking, hfreezed, Db.unstaking]
  have hvoteall : c'.db.voteall voter = c.db.voteall voter := by
    rw [Db.voteall, hvoterinfo, Db.voteall]
  have hb' := payFromPool_eq_ok hpay
  refine ⟨_, b, b', info.reward.amount, ⟨hb, hchange, hrow.settle _, ?_, ?_, .inr ⟨rfl, ?_⟩, ?_,
    fun _ => ?_, hpos.le, ?_, by omega, fun _ => by omega, hunstaking, by omega⟩, ?_⟩
  · rw [Db.voteRow_of_find hvts, VoteInfo.tokens_settle, add_zero]
  · rw [Db.voteRow_of_find hvts, VoteInfo.stake_settle, add_zero]
  · rw [hb']
  · rw [hb']
  · rw [hb']
    simp only
    omega
  · rw [hb']
  · rw [hinline, hreward]
    rfl

theorem rewardAllOf_units {info : ClaimInfo} (hpos : 0 < info.reward.amount) :
    ∃ n : Nat, rewardAllOf info = 100000 * n ∧ rewardAllOf info ≤ info.reward.amount := by
  have hmod := Int.tmod_add_mul_tdiv info.reward.amount 100000
  have hnonneg := Int.tmod_nonneg 100000 hpos.le
  have hq := Int.tdiv_nonneg hpos.le (by decide : (0 : Int) ≤ 100000)
  refine ⟨(info.reward.amount.tdiv 100000).toNat, ?_, ?_⟩
  · unfold rewardAllOf
    omega
  · unfold rewardAllOf
    omega

theorem votebyreward_stakeEffect (hrow : (c.db.voteRow voter bpname).Regular)
    (h : votebyreward voter bpname e c = .ok (u, c')) :
    ∃ r b b' tokens vts info paid, c.db.votes.find voter bpname = some vts ∧
      claimInfo b vts e.world.blockNum = .ok info ∧ b'.pawn = b.pawn ∧
      VoteEffect c.db c'.db voter bpname r b b' tokens
        (((rewardAllOf info).tdiv 10).tdiv 10000) paid := by
  obtain ⟨-, -, b, vts, info, b', r, hb, hvts, hinfo, hpay, hr, hchange, hfreezed, hvoteall, -⟩ :=
    votebyreward_eq_ok h
  obtain ⟨-, -, -, -, hpos, hle⟩ := claimInfo_eq_ok hinfo
  rw [Db.voteRow_of_find hvts] at hrow
  obtain ⟨n, hn, hnle⟩ := rewardAllOf_units hpos
  have hpower : (rewardAllOf info).tdiv 10 = 10000 * n := by
    rw [hn, show (100000 : Int) * n = 10 * (10000 * n) by ring]
    exact Int.mul_tdiv_cancel_left _ (by decide)
  have hr' := revoteReward_eq_ok hr
  have hb' := payFromPool_eq_ok hpay
  obtain ⟨m, hm, hmpower⟩ := hrow.vote
  have hstaked : c'.db.staked voter = c.db.staked voter := by rw [Db.staked, hfreezed, Db.staked]
  have hunstaking : c'.db.unstaking voter = c.db.unstaking voter := by
    rw [Db.unstaking, hfreezed, Db.unstaking]
  rw [hpower, tdiv_unit] at hchange
  refine ⟨r, b, changeStake b' n e.world.blockNum, rewardAllOf info, vts, info,
    info.reward.amount, hvts, hinfo, ?_, ?_⟩
  · rw [hb']
    rfl
  rw [hpower, tdiv_unit]
  refine ⟨hb, hchange, ?_, ?_, ?_, .inl ?_, ?_, ?_, hpos.le, ?_, by omega, fun _ => by omega,
    hunstaking, hvoteall.ge⟩
  · rw [hr']
    refine ⟨⟨m + n, ?_, ?_⟩, (hrow.settle _).static⟩
    · simp only [core_amount]
      push_cast
      omega
    · simp only [core_amount]
      push_cast
      omega
  · rw [Db.voteRow_of_find hvts, ← VoteInfo.tokens_settle vts e.world.blockNum, hr']
    simp only [VoteInfo.tokens, VoteInfo.sumStatic, settleVotes, core_amount]
    ring
  · rw [Db.voteRow_of_find hvts, ← VoteInfo.stake_settle vts e.world.blockNum, hr']
    simp only [VoteInfo.stake, VoteInfo.sumStatic, settleVotes, core_amount]
    rw [hpower, hmpower, ← mul_add, tdiv_unit, tdiv_unit]
    ring
  · rw [hb']
    rfl
  · rw [hb']
    rfl
  · intro _
    rw [hb']
    simp only [changeStake]
    omega
  · rw [hb']
    rfl

theorem votebyreward_effect (hrow : (c.db.voteRow voter bpname).Regular)
    (h : votebyreward voter bpname e c = .ok (u, c')) :
    ∃ r b b' tokens δ paid, VoteEffect c.db c'.db voter bpname r b b' tokens δ paid := by
  obtain ⟨r, b, b', tokens, vts, info, paid, -, -, -, heffect⟩ := votebyreward_stakeEffect hrow h
  exact ⟨r, b, b', tokens, _, paid, heffect⟩

end SystemContract

end BaccChain
