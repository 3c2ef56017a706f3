import BaccChain.Commons.Share
import BaccChain.Contracts.System.ProducerSpec

/-!
# `noc.system`: the distribution of a block's reward

Two of the three parts of a block's reward are divided over the producers by their stake, every
share rounded down.
-/

namespace BaccChain

open Asset (core)

def BpInfo.rewards (b : BpInfo) : Int := b.rewardsPool.amount + b.rewardsBlock.amount

namespace SystemContract

variable {t t' : MultiIndex Unit BpInfo} {producers : List Name} {producer : Name} {R : Int}

theorem rewarded_rewards_le {b : BpInfo} {reward : BpReward} (hpool : 0 ≤ reward.pool)
    (hblock : 0 ≤ reward.block) :
    (rewarded b reward).rewards ≤ b.rewards + (reward.pool + reward.block) := by
  unfold rewarded BpInfo.rewards
  split_ifs
  · simp only
    omega
  · omega

/-- The conditions under which the stakes add up. -/
structure StakesAddUp (t : MultiIndex Unit BpInfo) : Prop where
  nonneg : ∀ k b, t.find () k = some b → 0 ≤ b.totalStaked
  bound : (t.sum fun _ _ b => b.totalStaked) < 2 ^ 63

namespace StakesAddUp

theorem sum_nonneg (h : StakesAddUp t) : 0 ≤ t.sum fun _ _ b => b.totalStaked :=
  MultiIndex.sum_nonneg fun _ k b hb => h.nonneg k b hb

theorem all_eq (h : StakesAddUp t) (producers : List Name) :
    (stakeTotals producers (bpRows t)).all = t.sum fun _ _ b => b.totalStaked := by
  have hnonneg := h.sum_nonneg
  have hbound := h.bound
  rw [stakeTotals_all, wrap64_eq (by omega) hbound]

theorem blockProducers_eq (h : StakesAddUp t) (producers : List Name) :
    (stakeTotals producers (bpRows t)).blockProducers =
      t.sum fun _ k b => if k ∈ producers then b.totalStaked else 0 := by
  have hbound := h.bound
  have hnonneg : 0 ≤ t.sum fun _ k b => if k ∈ producers then b.totalStaked else 0 :=
    MultiIndex.sum_nonneg fun _ k b hb => by
      split_ifs
      · exact h.nonneg k b hb
      · exact le_rfl
  have hle : (t.sum fun _ k b => if k ∈ producers then b.totalStaked else 0) ≤
      t.sum fun _ _ b => b.totalStaked :=
    MultiIndex.sum_le_sum fun _ k b hb => by
      split_ifs
      · exact le_rfl
      · exact h.nonneg k b hb
  rw [stakeTotals_blockProducers, wrap64_eq (by omega) (by omega)]

variable (producers producer) (forProduce forBp forUser : Int)

theorem pool_bounds (h : StakesAddUp t) (huser : 0 ≤ forUser) :
    (∀ k b, t.find () k = some b →
      0 ≤ (partReward producers producer forProduce forBp forUser t (k, b)).pool) ∧
      (t.sum fun _ k b => (partReward producers producer forProduce forBp forUser t (k, b)).pool) ≤
        forUser := by
  have hsum := h.sum_nonneg
  unfold partReward bpReward shareOf
  simp only [h.all_eq]
  constructor
  · intro k b hb
    exact Int.fdiv_nonneg (mul_nonneg huser (h.nonneg k b hb)) hsum
  · exact t.rows.sum_share_le huser fun k r hr => h.nonneg _ _ (MultiIndex.find_of_rows hr)

theorem block_bounds (h : StakesAddUp t) (hproduce : 0 ≤ forProduce) (hbp : 0 ≤ forBp) :
    (∀ k b, t.find () k = some b →
      0 ≤ (partReward producers producer forProduce forBp forUser t (k, b)).block) ∧
      (t.sum fun _ k b => (partReward producers producer forProduce forBp forUser t (k, b)).block) ≤
        forBp + forProduce := by
  have hweight : ∀ k b, t.find () k = some b →
      0 ≤ if k ∈ producers then b.totalStaked else 0 := by
    intro k b hb
    split_ifs
    · exact h.nonneg k b hb
    · exact le_rfl
  have hshare : ∀ k (b : BpInfo),
      (partReward producers producer forProduce forBp forUser t (k, b)).block =
      (forBp * (if k ∈ producers then b.totalStaked else 0)).fdiv
          (t.sum fun _ k b => if k ∈ producers then b.totalStaked else 0) +
        if producer = k then forProduce else 0 := by
    intro k b
    unfold partReward bpReward shareOf
    simp only [h.blockProducers_eq]
    split_ifs <;> simp
  have hsum : 0 ≤ t.sum fun _ k b => if k ∈ producers then b.totalStaked else 0 :=
    MultiIndex.sum_nonneg fun _ k b hb => hweight k b hb
  simp only [hshare]
  constructor
  · intro k b hb
    have hfdiv := Int.fdiv_nonneg (mul_nonneg hbp (hweight k b hb)) hsum
    refine add_nonneg hfdiv ?_
    by_cases hk : producer = k
    · rw [if_pos hk]
      exact hproduce
    · rw [if_neg hk]
  · rw [MultiIndex.sum_add]
    refine add_le_add ?_ ?_
    · exact t.rows.sum_share_le hbp fun k r hr => hweight _ _ (MultiIndex.find_of_rows hr)
    · refine t.rows.sum_single_le hproduce (toLex ((), producer)) fun k hk => ?_
      rw [hk]
      rfl

end StakesAddUp

theorem DistributesParts.sum_le {forProduce forBp forUser : Int}
    (h : DistributesParts t t' producers producer forProduce forBp forUser)
    (hstakes : StakesAddUp t) (hproduce : 0 ≤ forProduce) (hbp : 0 ≤ forBp) (huser : 0 ≤ forUser) :
    (t'.sum fun _ _ b => b.rewards) ≤
      (t.sum fun _ _ b => b.rewards) + (forProduce + forBp + forUser) := by
  rcases h with rfl | ⟨-, hfind⟩
  · omega
  · obtain ⟨hpool, hpools⟩ := hstakes.pool_bounds producers producer forProduce forBp forUser huser
    obtain ⟨hblock, hblocks⟩ :=
      hstakes.block_bounds producers producer forProduce forBp forUser hproduce hbp
    have hsum : (t'.sum fun _ _ b => b.rewards) = t.sum fun _ k b => (rewarded b
        (partReward producers producer forProduce forBp forUser t (k, b))).rewards := by
      refine MultiIndex.sum_eq_of_weightAt fun _ k => ?_
      unfold MultiIndex.weightAt
      rw [hfind]
      cases t.find () k <;> rfl
    calc (t'.sum fun _ _ b => b.rewards)
        ≤ t.sum fun _ k b => b.rewards +
            ((partReward producers producer forProduce forBp forUser t (k, b)).pool +
              (partReward producers producer forProduce forBp forUser t (k, b)).block) := by
          rw [hsum]
          exact MultiIndex.sum_le_sum fun _ k b hb =>
            rewarded_rewards_le (hpool k b hb) (hblock k b hb)
      _ ≤ _ := by
          rw [MultiIndex.sum_add t (fun _ _ b => b.rewards), MultiIndex.sum_add]
          omega

namespace Distributes

theorem find_map {α : Type} (h : Distributes t t' producers producer R) (f : BpInfo → α)
    (hf : ∀ b reward, f (rewarded b reward) = f b) (k : Name) :
    (t'.find () k).map f = (t.find () k).map f := by
  rcases h with rfl | ⟨-, hfind⟩
  · rfl
  · rw [hfind, Option.map_map]
    congr 1
    funext b
    exact hf b _

end Distributes

/-! ## Divisors -/

section Divisors

variable (t) (producers) (producer) (forProduce forBp forUser : Asset)

/-- The stakes that the shares of a reward are divided by, as far as they are computed. -/
def rewardDivisors : List Int :=
  let totals := stakeTotals producers (bpRows t)
  if ¬ (forBp.amount = 0 ∧ forUser.amount = 0) ∧ 0 < totals.all then
    ((bpRows t).filter (·.2.isactive)).flatMap (bpDivisors producers totals)
  else []

/-- **A well defined distribution**: the sums of the stakes do not overflow, nothing is divided by
zero, and what is added to the producers' rows is at most the three parts. -/
structure WellDistributed : Prop where
  sums : forBp.amount = 0 ∧ forUser.amount = 0 ∨
    (stakeTotals producers (bpRows t)).all = (t.sum fun _ _ b => b.totalStaked) ∧
    (stakeTotals producers (bpRows t)).blockProducers =
      t.sum fun _ k b => if k ∈ producers then b.totalStaked else 0
  divisors : 0 ∉ rewardDivisors t producers forBp forUser
  bounded : ∀ e c c', c.db.bps = t →
    rewardBpsAndUser producers producer forProduce forBp forUser e c = .ok ((), c') →
      (c'.db.bps.sum fun _ _ b => b.rewards) ≤ (t.sum fun _ _ b => b.rewards) +
        (forProduce.amount + forBp.amount + forUser.amount)

variable {t}

theorem rewardBpsAndUser_nothing {forProduce forBp forUser : Asset} {e : Env} {c c' : Ctx}
    {u : Unit}
    (hnothing : forBp.amount = 0 ∧ forUser.amount = 0)
    (h : rewardBpsAndUser producers producer forProduce forBp forUser e c = .ok (u, c')) :
    c' = c := by
  simp only [rewardBpsAndUser, Commons.Program.bind_eq_ok, readTable_eq_ok,
    Commons.Program.whenever_eq_ok, and_assoc, exists_and_left, exists_eq_left] at h
  rcases h with ⟨hne, -⟩ | ⟨-, rfl⟩
  · exact absurd hnothing hne
  · rfl

theorem zero_notMem_rewardDivisors_iff :
    0 ∉ rewardDivisors t producers forBp forUser ↔
      forBp.amount = 0 ∧ forUser.amount = 0 ∨ (stakeTotals producers (bpRows t)).all ≤ 0 ∨
        (stakeTotals producers (bpRows t)).blockProducers ≠ 0 ∨
        ∀ k b, t.find () k = some b → b.isactive = true → k ∉ producers := by
  simp only [rewardDivisors]
  split_ifs with hguard
  · obtain ⟨hparts, hpos⟩ := hguard
    simp only [hparts, not_le.mpr hpos, false_or, List.mem_flatMap, List.mem_filter, bpDivisors,
      List.mem_cons, hpos.ne, Prod.exists, mem_bpRows, not_exists, not_and]
    constructor
    · intro h
      rw [or_iff_not_imp_left, not_not]
      intro hzero k b hb hactive hk
      exact h k b ⟨hb, hactive⟩ (by simp [hk, hzero])
    · rintro h k b ⟨hb, hactive⟩ hmem
      split_ifs at hmem with hk
      · rcases h with hne | hnone
        · exact hne (List.mem_singleton.mp hmem).symm
        · exact hnone k b hb hactive hk
      · cases hmem
  · grind

/-- **The guard does not cover the second divisor**: with stakes that are not negative, the
distribution is well defined exactly if there is nothing to distribute by stake, or the sum of the
stakes is in range and all of them are zero, or a producer of the schedule has a stake, or no active
one is in the schedule. -/
theorem wellDistributed_iff (hstaked : ∀ k b, t.find () k = some b → 0 ≤ b.totalStaked)
    (hproduce : 0 ≤ forProduce.amount) (hbp : 0 ≤ forBp.amount) (huser : 0 ≤ forUser.amount) :
    WellDistributed t producers producer forProduce forBp forUser ↔
      forBp.amount = 0 ∧ forUser.amount = 0 ∨
      (t.sum fun _ _ b => b.totalStaked) < 2 ^ 63 ∧ ((t.sum fun _ _ b => b.totalStaked) = 0 ∨
        0 < (t.sum fun _ k b => if k ∈ producers then b.totalStaked else 0) ∨
        ∀ k b, t.find () k = some b → b.isactive = true → k ∉ producers) := by
  have hsum : 0 ≤ t.sum fun _ _ b => b.totalStaked :=
    MultiIndex.sum_nonneg fun _ k b hb => hstaked k b hb
  have hblock : 0 ≤ t.sum fun _ k b => if k ∈ producers then b.totalStaked else 0 :=
    MultiIndex.sum_nonneg fun _ k b hb => by
      split_ifs
      · exact hstaked k b hb
      · exact le_rfl
  constructor
  · rintro ⟨hearly | ⟨hall, hblocks⟩, hdivisors, -⟩
    · exact .inl hearly
    · rw [zero_notMem_rewardDivisors_iff, hall, hblocks] at hdivisors
      have hrange := (wrap64_range (t.sum fun _ _ b => b.totalStaked)).2
      rw [← stakeTotals_all producers, hall] at hrange
      rcases hdivisors with hearly | hzero | hne | hnone
      · exact .inl hearly
      · exact .inr ⟨hrange, .inl (le_antisymm hzero hsum)⟩
      · exact .inr ⟨hrange, .inr (.inl (hblock.lt_of_ne hne.symm))⟩
      · exact .inr ⟨hrange, .inr (.inr hnone)⟩
  · rintro (hearly | ⟨hbound, h⟩)
    · refine ⟨.inl hearly, (zero_notMem_rewardDivisors_iff ..).mpr (.inl hearly), ?_⟩
      rintro e c c' rfl hrun
      rw [rewardBpsAndUser_nothing _ _ hearly hrun]
      omega
    · have hstakes : StakesAddUp t := ⟨hstaked, hbound⟩
      refine ⟨.inr ⟨hstakes.all_eq producers, hstakes.blockProducers_eq producers⟩, ?_, ?_⟩
      · rw [zero_notMem_rewardDivisors_iff, hstakes.all_eq, hstakes.blockProducers_eq]
        exact .inr (h.imp le_of_eq (Or.imp_left fun hpos => hpos.ne'))
      · rintro e c c' rfl hrun
        obtain ⟨t', ram, rfl, hdist⟩ := rewardBpsAndUser_parts hrun
        exact hdist.sum_le hstakes hproduce hbp huser

def bpOf (name : Name) (totalStaked : Int) : BpInfo where
  name
  invite := 0
  blockSigningKey := name
  totalStaked
  voteageUpdateHeight := 0
  url := []

def twoBps (staked : Int) : MultiIndex Unit BpInfo :=
  (MultiIndex.empty.store () 1 1 (bpOf 1 staked)).store () 2 2 (bpOf 2 5)

/-- The first producer is in the schedule and has a stake of three. -/
theorem wellDistributed_twoBps :
    WellDistributed (twoBps 3) [1, 0] 1 (core 1) (core 10) (core 20) := by
  have hrows : ∀ b ∈ bpRows (twoBps 3), 0 ≤ b.2.totalStaked := by decide
  exact (wellDistributed_iff [1, 0] 1 (core 1) (core 10) (core 20)
    (fun k b hb => hrows (k, b) (mem_bpRows.mpr hb)) (by decide) (by decide) (by decide)).mpr
    (.inr ⟨by decide, .inr (.inl (by decide))⟩)

/-- The first producer is in the schedule without a stake: its share is `0 / 0`, and the
distribution is refused. -/
theorem rewardBpsAndUser_zero_divisor :
    (∀ k b, (twoBps 0).find () k = some b → 0 ≤ b.totalStaked) ∧
      0 ∈ rewardDivisors (twoBps 0) [1, 0] (core 10) (core 20) ∧
      ∀ e, (rewardBpsAndUser [1, 0] 1 (core 1) (core 10) (core 20) e
        { db := { bps := twoBps 0 } }).map
        (fun _ => ()) = .error "Error, f64.convert_s/i64 unrepresentable" := by
  have hrows : ∀ b ∈ bpRows (twoBps 0), 0 ≤ b.2.totalStaked := by decide
  exact ⟨fun k b hb => hrows (k, b) (mem_bpRows.mpr hb), by decide, fun e => rfl⟩

end Divisors

end SystemContract

end BaccChain
