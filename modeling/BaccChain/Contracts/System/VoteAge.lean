import BaccChain.Contracts.System.VoteEffect
import Mathlib.Tactic.LinearCombination

/-!
# `noc.system`: ages of votes

The age of a vote grows with every block by the stake that the vote gives to its producer.
-/

namespace BaccChain

open SystemContract
open Asset (core core_amount)

/-- The age of a static vote at a height; a vote that was quit has stopped growing. -/
def VoteInfoItem.ageAt (sv : VoteInfoItem) (h : Nat) : Int :=
  sv.votepowerAge + weight (fun sv => sv.votepower.amount.tdiv 10000) sv *
    (h - sv.votepowerAgeUpdateHeight)

def VoteInfo.ageAt (r : VoteInfo) (h : Nat) : Int :=
  r.voteage + r.votepower.amount.tdiv 10000 * (h - r.voteageUpdateHeight) +
    (r.staticVotes.map (·.ageAt h)).sum

def BpInfo.ageAt (b : BpInfo) (h : Nat) : Int :=
  b.totalVoteage + b.totalStaked * (h - b.voteageUpdateHeight)

/-- No part of the row was brought up to date after a height. -/
structure VoteInfo.UpdatedBy (r : VoteInfo) (n : Nat) : Prop where
  vote : r.voteageUpdateHeight ≤ n
  static : ∀ sv ∈ r.staticVotes, sv.votepowerAgeUpdateHeight ≤ n

/-! ## Ages are linear -/

theorem VoteInfoItem.sum_ageAt (l : List VoteInfoItem) (h m : Nat) :
    (l.map (·.ageAt h)).sum = (l.map (·.ageAt m)).sum +
      (l.map (weight fun sv => sv.votepower.amount.tdiv 10000)).sum * (h - m) := by
  induction l with
  | nil => simp
  | cons sv l ih =>
    simp only [List.map_cons, List.sum_cons]
    rw [ih]
    unfold ageAt
    ring

theorem VoteInfo.ageAt_eq_add (r : VoteInfo) (h m : Nat) :
    r.ageAt h = r.ageAt m + r.stake * (h - m) := by
  unfold ageAt stake sumStatic
  rw [VoteInfoItem.sum_ageAt _ h m]
  ring

theorem BpInfo.ageAt_eq_add (b : BpInfo) (h m : Nat) :
    b.ageAt h = b.ageAt m + b.totalStaked * (h - m) := by
  unfold ageAt
  ring

theorem VoteInfo.ageAt_default (bpname : Name) (h : Nat) :
    ({ bpname } : VoteInfo).ageAt h = 0 := by
  simp [ageAt]

theorem VoteInfo.updatedBy_default (bpname : Name) (n : Nat) :
    ({ bpname } : VoteInfo).UpdatedBy n :=
  ⟨Nat.zero_le n, fun _ h => by cases h⟩

variable {n m : Nat} {r : VoteInfo}

theorem VoteInfo.UpdatedBy.mono (h : r.UpdatedBy n) (hnm : n ≤ m) : r.UpdatedBy m :=
  ⟨h.vote.trans hnm, fun sv hsv => (h.static sv hsv).trans hnm⟩

/-! ## The ages that `claim` computes -/

theorem sub32_cast (hle : m ≤ n) (hlt : n < 2 ^ 32) : (sub32 n m : Int) = n - m := by
  rw [sub32_of_le hle hlt]
  omega

theorem voteageAddon_eq_ok {votepower : Asset} {blocks : Nat} {addon : Int}
    (hpower : votepower.amount = 10000 * n) (h : voteageAddon votepower blocks = .ok addon) :
    addon = votepower.amount.tdiv 10000 * blocks := by
  simp only [voteageAddon, Commons.bind_eq_ok, Commons.pure_eq_ok, Asset.mul_eq_ok, and_assoc,
    exists_and_left, exists_eq_left] at h
  rw [h.2.2, hpower, tdiv_unit, mul_assoc, tdiv_unit]

variable {sv : VoteInfoItem} {age : Int}

theorem VoteInfoItem.newestVoteage_eq_ok (hregular : sv.Regular)
    (hle : sv.votepowerAgeUpdateHeight ≤ n) (hlt : n < 2 ^ 32) (h : sv.newestVoteage n = .ok age) :
    age = sv.ageAt n := by
  obtain ⟨m, p, -, -, hpower⟩ := hregular
  unfold newestVoteage at h
  unfold ageAt weight
  split_ifs at h ⊢
  · rw [Commons.pure_eq_ok] at h
    rw [h, zero_mul, add_zero]
  · simp only [Commons.bind_eq_ok, Commons.pure_eq_ok] at h
    obtain ⟨addon, haddon, rfl⟩ := h
    have hpower' : sv.votepower.amount = 10000 * ((m * p : Nat) : Int) := by
      rw [hpower]
      push_cast
      rfl
    rw [voteageAddon_eq_ok hpower' haddon, sub32_cast hle hlt]

theorem foldlM_add_eq_ok {α : Type} {f : α → Except String Int} {g : α → Int} {l : List α}
    (hf : ∀ x ∈ l, ∀ y, f x = .ok y → y = g x) {init sum : Int}
    (h : l.foldlM (fun acc x => do let y ← f x; return acc + y) init = .ok sum) :
    sum = init + (l.map g).sum := by
  induction l generalizing init with
  | nil =>
    rw [← Except.ok.inj h]
    simp
  | cons x l ih =>
    rw [List.forall_mem_cons] at hf
    simp only [List.foldlM_cons, Commons.bind_eq_ok, Commons.pure_eq_ok] at h
    obtain ⟨acc, ⟨y, hy, rfl⟩, hrest⟩ := h
    rw [ih hf.2 hrest, hf.1 y hy, List.map_cons, List.sum_cons, add_assoc]

theorem VoteInfo.newestVoteage_eq_ok (hregular : r.Regular) (hupdated : r.UpdatedBy n)
    (hlt : n < 2 ^ 32) (h : r.newestVoteage n = .ok age) : age = r.ageAt n := by
  obtain ⟨m, -, hpower⟩ := hregular.vote
  rw [newestVoteage, Commons.bind_eq_ok] at h
  obtain ⟨addon, haddon, hstatic⟩ := h
  rw [foldlM_add_eq_ok (g := (·.ageAt n)) (fun sv hsv age hage =>
      VoteInfoItem.newestVoteage_eq_ok (hregular.static sv hsv) (hupdated.static sv hsv) hlt hage)
    hstatic, voteageAddon_eq_ok hpower haddon, sub32_cast hupdated.vote hlt]
  rfl

variable {b : BpInfo}

theorem BpInfo.newestTotalVoteage_eq (hle : b.voteageUpdateHeight ≤ n) (hlt : n < 2 ^ 32) :
    ∃ k : Int, b.newestTotalVoteage n = b.ageAt n + 2 ^ 64 * k := by
  unfold newestTotalVoteage
  rw [sub32_cast hle hlt]
  obtain ⟨k, hk⟩ := wrap64_eq_add (b.totalStaked * (n - b.voteageUpdateHeight))
  obtain ⟨m, hm⟩ := wrap64_eq_add
    (b.totalVoteage + wrap64 (b.totalStaked * (n - b.voteageUpdateHeight)))
  refine ⟨k + m, ?_⟩
  rw [hm, hk]
  unfold ageAt
  ring

/-! ## Ages that change alike -/

/-- **What an action on votes does to ages**: at the height of the action, the row and the producer
are up to date, and both lose the same age, modulo `2^64`. -/
structure AgeEffect (d d' : Db) (voter bpname : Name) (r : VoteInfo) (b b' : BpInfo) (n : Nat) :
    Prop where
  find : d.bps.find () bpname = some b
  change : VoteChange d d' voter bpname r b'
  row : r.UpdatedBy n
  height : b'.voteageUpdateHeight = n
  ages : ∃ k : Int, r.ageAt n - (d.voteRow voter bpname).ageAt n =
    b'.totalVoteage - b.ageAt n + 2 ^ 64 * k

variable {b' : BpInfo}

theorem AgeEffect.ageAt {d d' : Db} {voter bpname : Name} {r₁ : VoteInfo} {b₁ b₁' : BpInfo}
    {tokens stake paid : Int} (h : AgeEffect d d' voter bpname r b b' n)
    (he : VoteEffect d d' voter bpname r₁ b₁ b₁' tokens stake paid) (height : Nat) :
    ∃ k : Int, r.ageAt height - (d.voteRow voter bpname).ageAt height =
      b'.ageAt height - b.ageAt height + 2 ^ 64 * k := by
  obtain rfl : r = r₁ :=
    Option.some.inj (h.change.votes.find_self.symm.trans he.change.votes.find_self)
  obtain rfl : b' = b₁' :=
    Option.some.inj (h.change.bps.find_self.symm.trans he.change.bps.find_self)
  obtain rfl : b = b₁ := Option.some.inj (h.find.symm.trans he.find)
  obtain ⟨j, hj⟩ : ∃ j : Int, b'.totalStaked = b.totalStaked + stake + 2 ^ 64 * j := by
    rcases he.totalStaked with htotal | ⟨hzero, htotal⟩
    · rw [htotal]
      exact wrap64_eq_add _
    · exact ⟨0, by rw [htotal, hzero]; ring⟩
  obtain ⟨k, hk⟩ := h.ages
  have hb' : b'.ageAt n = b'.totalVoteage := by
    unfold BpInfo.ageAt
    rw [h.height]
    ring
  refine ⟨k - j * (height - n), ?_⟩
  rw [r.ageAt_eq_add height n, (d.voteRow voter bpname).ageAt_eq_add height n,
    b'.ageAt_eq_add height n, b.ageAt_eq_add height n, he.stake_eq, hj, hb']
  linear_combination hk

namespace SystemContract

variable {e : Env} {c c' : Ctx} {u : Unit} {voter bpname : Name}

theorem changeStake_totalVoteage {b : BpInfo} {n : Nat} (hle : b.voteageUpdateHeight ≤ n)
    (hlt : n < 2 ^ 32) (stake : Int) :
    ∃ k : Int, (changeStake b stake n).totalVoteage = b.ageAt n + 2 ^ 64 * k :=
  BpInfo.newestTotalVoteage_eq hle hlt

variable {stake : Asset}

theorem vote_age {stake : Asset} (hrow : (c.db.voteRow voter bpname).Regular)
    (hupdated : (c.db.voteRow voter bpname).UpdatedBy e.world.blockNum)
    (hbp : ∀ b, c.db.bps.find () bpname = some b → b.voteageUpdateHeight ≤ e.world.blockNum)
    (hvote : (c.db.voteRow voter bpname).vote.amount = 0 ∨
      (c.db.voteRow voter bpname).voteageUpdateHeight = e.world.blockNum)
    (h : vote voter bpname stake e c = .ok (u, c')) :
    ∃ r b b', AgeEffect c.db c'.db voter bpname r b b' e.world.blockNum := by
  obtain ⟨-, -, -, b, hb, hchange, -⟩ := vote_eq_ok h
  have hlt := e.world.blockNum_lt
  obtain ⟨j, hj⟩ := changeStake_totalVoteage (hbp b hb) hlt
    ((stake.amount - (c.db.voteRow voter bpname).vote.amount).tdiv (10 * 10000))
  refine ⟨_, b, _, ⟨hb, hchange, ⟨le_rfl, hupdated.static⟩, rfl, ?_⟩⟩
  generalize c.db.voteRow voter bpname = r at *
  obtain ⟨m, hm, hpower⟩ := hrow.vote
  have hzero : r.vote.amount.tdiv 10000 * (sub32 e.world.blockNum r.voteageUpdateHeight : Int) = 0 ∧
      r.votepower.amount.tdiv 10000 * ((e.world.blockNum : Int) - r.voteageUpdateHeight) = 0 := by
    rcases hvote with hzero | heq
    · have hm₀ : m = 0 := by omega
      rw [hzero, hpower, hm₀]
      simp
    · rw [heq, sub32_self]
      simp
  obtain ⟨k, hk⟩ := wrap64_eq_add r.voteage
  refine ⟨k - j, ?_⟩
  rw [hj]
  simp only [VoteInfo.ageAt, revote, hzero.1, hzero.2, wrap64_zero, add_zero, hk, sub_self,
    mul_zero]
  ring

theorem votestatic_age {typ : Nat}
    (hupdated : (c.db.voteRow voter bpname).UpdatedBy e.world.blockNum)
    (hbp : ∀ b, c.db.bps.find () bpname = some b → b.voteageUpdateHeight ≤ e.world.blockNum)
    (h : votestatic voter bpname stake typ e c = .ok (u, c')) :
    ∃ r b b', AgeEffect c.db c'.db voter bpname r b b' e.world.blockNum := by
  obtain ⟨-, -, -, -, -, b, r, lock, hb, hr, hchange, -⟩ := votestatic_eq_ok h
  obtain ⟨j, hj⟩ := changeStake_totalVoteage (hbp b hb) e.world.blockNum_lt
    ((stake.amount * staticVotePower typ).tdiv 10000)
  refine ⟨r, b, _, ⟨hb, hchange, ?_, rfl, -j, ?_⟩⟩
  · rw [appendStaticVote_eq_ok hr]
    refine ⟨hupdated.vote, fun sv hsv => ?_⟩
    rcases List.mem_append.mp hsv with hsv | hsv
    · exact hupdated.static sv hsv
    · rw [List.mem_singleton.mp hsv]
  · rw [hj, appendStaticVote_eq_ok hr]
    simp only [VoteInfo.ageAt, List.map_append, List.sum_append, List.map_singleton,
      List.sum_singleton, VoteInfoItem.ageAt, sub_self, mul_zero]
    ring

theorem quitItem_ageAt {sv' : VoteInfoItem} (hregular : sv.Regular) (hquit : ¬ sv.isHasQuited)
    (hle : sv.votepowerAgeUpdateHeight ≤ n) (hlt : n < 2 ^ 32) (h : quitItem sv n = .ok sv') :
    sv'.votepowerAgeUpdateHeight = n ∧ ∃ k : Int, sv'.ageAt n = sv.ageAt n + 2 ^ 64 * k := by
  obtain ⟨m, p, -, -, hpower⟩ := hregular
  obtain ⟨addon, haddon, rfl⟩ := quitItem_eq_ok h
  have hpower' : sv.votepower.amount = 10000 * ((m * p : Nat) : Int) := by
    rw [hpower]
    push_cast
    rfl
  refine ⟨rfl, ?_⟩
  obtain ⟨k, hk⟩ := wrap64_eq_add (sv.votepowerAge + addon)
  refine ⟨k, ?_⟩
  simp only [VoteInfoItem.ageAt, VoteInfoItem.weight, hquit, hk, sub_self, mul_zero, add_zero]
  rw [voteageAddon_eq_ok hpower' haddon, sub32_cast hle hlt]
  rfl

theorem quitsvote_age {idx : Nat} (hrow : (c.db.voteRow voter bpname).Regular)
    (hupdated : (c.db.voteRow voter bpname).UpdatedBy e.world.blockNum)
    (hbp : ∀ b, c.db.bps.find () bpname = some b → b.voteageUpdateHeight ≤ e.world.blockNum)
    (h : quitsvote voter bpname idx e c = .ok (u, c')) :
    ∃ r b b', AgeEffect c.db c'.db voter bpname r b b' e.world.blockNum := by
  obtain ⟨-, b, vts, sv, sv', hb, hvts, hidx, hquit, hsv', hchange, -⟩ := quitsvote_eq_ok h
  have hlt := e.world.blockNum_lt
  rw [Db.voteRow_of_find hvts] at hrow hupdated
  have hmem : sv ∈ vts.staticVotes := List.mem_of_getElem? hidx
  obtain ⟨hheight, k, hk⟩ :=
    quitItem_ageAt (hrow.static sv hmem) hquit (hupdated.static sv hmem) hlt hsv'
  obtain ⟨j, hj⟩ := changeStake_totalVoteage (hbp b hb) hlt (-(sv.votepower.amount.tdiv 10000))
  refine ⟨_, b, _, ⟨hb, hchange, ⟨hupdated.vote, fun x hx => ?_⟩, rfl, k - j, ?_⟩⟩
  · rcases List.mem_or_eq_of_mem_set hx with hx | rfl
    · exact hupdated.static x hx
    · exact hheight.le
  · rw [Db.voteRow_of_find hvts, hj]
    simp only [VoteInfo.ageAt]
    rw [VoteInfo.sum_map_set (fun sv => sv.ageAt e.world.blockNum) sv' hidx, hk]
    ring

theorem settleStaticVotes_mem {svs : List VoteInfoItem} (h : sv ∈ settleStaticVotes svs n) :
    sv.votepowerAge = 0 ∧ sv.votepowerAgeUpdateHeight = n := by
  have hmem : sv ∈ svs.map fun sv => ({ sv with
      votepowerAge := 0, votepowerAgeUpdateHeight := n } : VoteInfoItem) := by
    simp only [settleStaticVotes] at h
    split_ifs at h
    · exact List.mem_of_mem_filter h
    · exact h
  obtain ⟨sv₀, -, rfl⟩ := List.mem_map.mp hmem
  exact ⟨rfl, rfl⟩

theorem settleStaticVotes_sum_ageAt (svs : List VoteInfoItem) (n : Nat) :
    ((settleStaticVotes svs n).map (·.ageAt n)).sum = 0 := by
  refine List.sum_eq_zero fun x hx => ?_
  obtain ⟨sv, hsv, rfl⟩ := List.mem_map.mp hx
  obtain ⟨hage, hheight⟩ := settleStaticVotes_mem hsv
  rw [VoteInfoItem.ageAt, hage, hheight, sub_self, mul_zero, add_zero]

theorem payFromPool_totalVoteage {vts : VoteInfo} {info : ClaimInfo} (hrow : vts.Regular)
    (hupdated : vts.UpdatedBy n) (hle : b.voteageUpdateHeight ≤ n) (hlt : n < 2 ^ 32)
    (hinfo : claimInfo b vts n = .ok info) (hpay : payFromPool b info n = .ok b') :
    b'.voteageUpdateHeight = n ∧
      ∃ k : Int, b'.totalVoteage = b.ageAt n - vts.ageAt n + 2 ^ 64 * k := by
  obtain ⟨htotal, -, hage, -⟩ := claimInfo_eq_ok hinfo
  rw [payFromPool_eq_ok hpay]
  refine ⟨rfl, ?_⟩
  obtain ⟨i, hi⟩ := BpInfo.newestTotalVoteage_eq hle hlt
  obtain ⟨j, hj⟩ := wrap64_eq_add (info.newestTotalVoteage - info.newestVoteage)
  refine ⟨i + j, ?_⟩
  simp only
  rw [hj, htotal, hi, VoteInfo.newestVoteage_eq_ok hrow hupdated hlt hage]
  ring

theorem claim_age (hrow : (c.db.voteRow voter bpname).Regular)
    (hupdated : (c.db.voteRow voter bpname).UpdatedBy e.world.blockNum)
    (hbp : ∀ b, c.db.bps.find () bpname = some b → b.voteageUpdateHeight ≤ e.world.blockNum)
    (h : claim voter bpname e c = .ok (u, c')) :
    ∃ r b b', AgeEffect c.db c'.db voter bpname r b b' e.world.blockNum := by
  obtain ⟨-, b, vts, info, b', hb, hvts, hinfo, hpay, hchange, -⟩ := claim_eq_ok h
  rw [Db.voteRow_of_find hvts] at hrow hupdated
  obtain ⟨hheight, k, hk⟩ := payFromPool_totalVoteage hrow hupdated (hbp b hb)
    e.world.blockNum_lt hinfo hpay
  refine ⟨_, b, b', ⟨hb, hchange, ⟨le_rfl, fun sv hsv => (settleStaticVotes_mem hsv).2.le⟩,
    hheight, -k, ?_⟩⟩
  rw [Db.voteRow_of_find hvts, hk]
  simp only [VoteInfo.ageAt, settleVotes, settleStaticVotes_sum_ageAt, sub_self, mul_zero]
  ring

theorem votebyreward_age (hrow : (c.db.voteRow voter bpname).Regular)
    (hupdated : (c.db.voteRow voter bpname).UpdatedBy e.world.blockNum)
    (hbp : ∀ b, c.db.bps.find () bpname = some b → b.voteageUpdateHeight ≤ e.world.blockNum)
    (h : votebyreward voter bpname e c = .ok (u, c')) :
    ∃ r b b', AgeEffect c.db c'.db voter bpname r b b' e.world.blockNum := by
  obtain ⟨-, -, b, vts, info, b', r, hb, hvts, hinfo, hpay, hr, hchange, -⟩ :=
    votebyreward_eq_ok h
  rw [Db.voteRow_of_find hvts] at hrow hupdated
  obtain ⟨hheight, k, hk⟩ := payFromPool_totalVoteage hrow hupdated (hbp b hb)
    e.world.blockNum_lt hinfo hpay
  obtain ⟨j, hj⟩ := changeStake_totalVoteage hheight.le e.world.blockNum_lt
    (((rewardAllOf info).tdiv 10).tdiv 10000)
  have hb' : b'.ageAt e.world.blockNum = b'.totalVoteage := by
    rw [BpInfo.ageAt, hheight, sub_self, mul_zero, add_zero]
  rw [revoteReward_eq_ok hr] at hchange
  refine ⟨_, b, _, ⟨hb, hchange, ⟨le_rfl, fun sv hsv => (settleStaticVotes_mem hsv).2.le⟩, rfl,
    -k - j, ?_⟩⟩
  rw [Db.voteRow_of_find hvts, hj, hb', hk]
  simp only [VoteInfo.ageAt, settleVotes, settleStaticVotes_sum_ageAt, sub_self, mul_zero]
  ring

end SystemContract

end BaccChain
