import BaccChain.Contracts.System.VoteAge
import BaccChain.Properties.StakeTotals

/-!
# The age of votes is conserved

The age of all votes for a producer is the sum of the ages of the rows of votes for it, with one
exception.

## Main definitions

* `AgesFit`: no age overflows
* `RevotesUpToDate`: votes are changed in rows that are up to date

## Main results

* `voteage_conserved`: the ages of rows add up
* `voteage_not_conserved`: an age that is counted ten times
-/

namespace BaccChain

open Commons (run Along run_induction_clock)
open Asset (core core_amount)
open SystemContract

/-! ## Definitions -/

/-- The age that `claim` computes. -/
def VoteInfo.claimedAge (r : VoteInfo) (h : Nat) : Int :=
  match r.newestVoteage h with
  | .ok age => age
  | .error _ => 0

def VoteInfo.AgeFits (r : VoteInfo) (h : Nat) : Prop :=
  match r.newestVoteage h with
  | .ok age => 0 ≤ age
  | .error _ => False

instance (r : VoteInfo) (h : Nat) : Decidable (r.AgeFits h) :=
  match hage : r.newestVoteage h with
  | .ok age => decidable_of_iff (0 ≤ age) (by rw [VoteInfo.AgeFits, hage])
  | .error _ => isFalse (by rw [VoteInfo.AgeFits, hage]; exact id)

variable {r : VoteInfo} {age : Int} {h : Nat}

theorem VoteInfo.claimedAge_of_ok (hage : r.newestVoteage h = .ok age) : r.claimedAge h = age := by
  rw [claimedAge, hage]

theorem VoteInfo.AgeFits.exists_age (hfits : r.AgeFits h) :
    ∃ age, r.newestVoteage h = .ok age ∧ 0 ≤ age := by
  unfold VoteInfo.AgeFits at hfits
  cases hage : r.newestVoteage h with
  | ok age =>
    rw [hage] at hfits
    exact ⟨age, rfl, hfits⟩
  | error =>
    rw [hage] at hfits
    exact hfits.elim

/-- The ages of all rows for a producer. -/
def Db.newestVoteageFor (d : Db) (bpname : Name) (h : Nat) : Int :=
  d.sumFor (·.claimedAge h) bpname

/-- No overflow in the ages of the votes for a producer at a height: neither of a voter's age, nor
of their sum, nor of the age of the producer. -/
structure AgesFit (d : Db) (bpname : Name) (b : BpInfo) (h : Nat) : Prop where
  row : ∀ voter r, d.votes.find voter bpname = some r → r.AgeFits h
  sum : d.newestVoteageFor bpname h < 2 ^ 63
  total : -2 ^ 63 ≤ b.totalVoteage + b.totalStaked * ((h : Int) - b.voteageUpdateHeight) ∧
    b.totalVoteage + b.totalStaked * ((h : Int) - b.voteageUpdateHeight) < 2 ^ 63

/-- The condition on a step under which the ages agree: a vote for the producer is changed only
where there is none yet, or where the row is up to date. -/
def RevotesUpToDate (bpname : Name) (d : Db) (s : Step) : Prop :=
  match s.act.data with
  | .system (.vote voter k _) => k = bpname →
    (d.voteRow voter k).vote.amount = 0 ∨
      (d.voteRow voter k).voteageUpdateHeight = s.world.blockNum
  | _ => True

/-- **The invariant of ages**: nothing was brought up to date after the height `n`, and the ages
agree at every height, modulo `2^64`. -/
structure AgeInv (bpname : Name) (n : Nat) (d : Db) : Prop where
  votes : VoteInv d
  row : ∀ voter r, d.votes.find voter bpname = some r → r.UpdatedBy n
  height : ∀ b, d.bps.find () bpname = some b → b.voteageUpdateHeight ≤ n
  ages : ∀ b, d.bps.find () bpname = some b → ∀ h : Nat,
    ∃ k : Int, d.sumFor (·.ageAt h) bpname = b.ageAt h + 2 ^ 64 * k

namespace AgeInv

variable {d d' : Db} {bpname : Name} {n : Nat}

/-! ## The invariant is kept -/

theorem mono {m : Nat} (h : AgeInv bpname n d) (hnm : n ≤ m) : AgeInv bpname m d :=
  ⟨h.votes, fun voter r hr => (h.row voter r hr).mono hnm, fun b hb => (h.height b hb).trans hnm,
    h.ages⟩

theorem voteRow_updatedBy (h : AgeInv bpname n d) (voter : Name) :
    (d.voteRow voter bpname).UpdatedBy n := by
  unfold Db.voteRow
  cases hr : d.votes.find voter bpname with
  | none => exact VoteInfo.updatedBy_default bpname n
  | some r => exact h.row voter r hr

theorem congr (h : AgeInv bpname n d) (hinv : VoteInv d') (hv : d'.votes = d.votes)
    (hb : (d'.bps.find () bpname).map (fun b => (b.totalStaked, b.totalVoteage,
        b.voteageUpdateHeight)) =
      (d.bps.find () bpname).map fun b => (b.totalStaked, b.totalVoteage, b.voteageUpdateHeight)) :
    AgeInv bpname n d' := by
  have hrow : ∀ b, d'.bps.find () bpname = some b → ∃ b₀, d.bps.find () bpname = some b₀ ∧
      b.voteageUpdateHeight = b₀.voteageUpdateHeight ∧ ∀ m, b.ageAt m = b₀.ageAt m := by
    intro b hfind
    rw [hfind] at hb
    obtain ⟨b₀, hb₀, heq⟩ := Option.map_eq_some_iff.mp hb.symm
    simp only [Prod.mk.injEq] at heq
    obtain ⟨h₁, h₂, h₃⟩ := heq
    refine ⟨b₀, hb₀, h₃.symm, fun m => ?_⟩
    rw [BpInfo.ageAt, BpInfo.ageAt, h₁, h₂, h₃]
  refine ⟨hinv, ?_, fun b hfind => ?_, fun b hfind m => ?_⟩
  · rw [hv]
    exact h.row
  · obtain ⟨b₀, hb₀, hheight, -⟩ := hrow b hfind
    rw [hheight]
    exact h.height b₀ hb₀
  · obtain ⟨b₀, hb₀, -, hage⟩ := hrow b hfind
    rw [hage, Db.sumFor, hv]
    exact h.ages b₀ hb₀ m

variable {voter k : Name} {b' : BpInfo}

theorem effect (h : AgeInv bpname n d) (hinv : VoteInv d') {b : BpInfo} {tokens stake paid : Int}
    (he : VoteEffect d d' voter k r b b' tokens stake paid)
    (hage : k = bpname → ∃ r b b', AgeEffect d d' voter bpname r b b' n) : AgeInv bpname n d' := by
  by_cases hk : k = bpname
  · subst hk
    obtain ⟨r, b, b', ha⟩ := hage rfl
    refine ⟨hinv, fun v r₁ hr₁ => ?_, fun b₁ hb₁ => ?_, fun b₁ hb₁ m => ?_⟩
    · rw [ha.change.votes.find] at hr₁
      split_ifs at hr₁
      · rw [← Option.some.inj hr₁]
        exact ha.row
      · exact h.row v r₁ hr₁
    · obtain rfl : b' = b₁ := Option.some.inj (ha.change.bps.find_self.symm.trans hb₁)
      exact ha.height.le
    · obtain rfl : b' = b₁ := Option.some.inj (ha.change.bps.find_self.symm.trans hb₁)
      obtain ⟨i, hi⟩ := h.ages b ha.find m
      obtain ⟨j, hj⟩ := ha.ageAt he m
      have hsum := ha.change.sumFor (f := (·.ageAt m)) (VoteInfo.ageAt_default k m) k
      rw [if_pos rfl] at hsum
      refine ⟨i + j, ?_⟩
      rw [hsum]
      omega
  · refine ⟨hinv, fun v r₁ hr₁ => ?_, fun b₁ hb₁ => ?_, fun b₁ hb₁ m => ?_⟩
    · rw [he.change.votes_of_ne fun e => hk e.2.symm] at hr₁
      exact h.row v r₁ hr₁
    · rw [he.change.bps_of_ne (Ne.symm hk)] at hb₁
      exact h.height b₁ hb₁
    · rw [he.change.bps_of_ne (Ne.symm hk)] at hb₁
      rw [he.change.sumFor (f := (·.ageAt m)) (VoteInfo.ageAt_default k m) bpname,
        if_neg hk, add_zero]
      exact h.ages b₁ hb₁ m

theorem bpUpdate (h : AgeInv bpname n d) (hinv : VoteInv d') (hv : d'.votes = d.votes)
    (hw : d.bps.Writes () k (some b') d'.bps) (hb : BpUpdate n (d.bps.find () k) b') :
    AgeInv bpname n d' := by
  by_cases hk : bpname = k
  · subst hk
    cases hfind : d.bps.find () bpname with
    | none =>
      rw [hfind] at hb
      have hnone : ∀ m : Nat, d'.sumFor (·.ageAt m) bpname = 0 := by
        intro m
        unfold Db.sumFor
        rw [hv]
        refine Eq.trans (MultiIndex.sum_congr fun v i r hr => if_neg ?_) d.votes.sum_zero
        rintro rfl
        exact h.votes.producer v i r hr hfind
      refine ⟨hinv, by rw [hv]; exact h.row, fun b₁ hb₁ => ?_, fun b₁ hb₁ m => ?_⟩
      · obtain rfl : b' = b₁ := Option.some.inj (hw.find_self.symm.trans hb₁)
        exact hb.height.le
      · obtain rfl : b' = b₁ := Option.some.inj (hw.find_self.symm.trans hb₁)
        refine ⟨0, ?_⟩
        rw [hnone, BpInfo.ageAt, hb.totalVoteage, hb.totalStaked]
        simp
    | some =>
      rw [hfind] at hb
      refine h.congr hinv hv ?_
      rw [hw.find_self, hfind, Option.map_some, Option.map_some, hb.totalStaked, hb.totalVoteage,
        hb.height]
      rfl
  · exact h.congr hinv hv (by rw [hw.find_of_ne fun e => hk e.2])

variable {a : SystemAction} {e : Env} {c' c : Ctx}

theorem ageEffect {a : SystemAction} {e : Env} {c c' : Ctx}
    (h : AgeInv bpname e.world.blockNum c.db) (ha : isVoting a = true)
    (hvote : ∀ voter stake, a = .vote voter bpname stake →
      (c.db.voteRow voter bpname).vote.amount = 0 ∨
        (c.db.voteRow voter bpname).voteageUpdateHeight = e.world.blockNum)
    (hc : handle a e c = .ok ((), c')) :
    (∃ voter stake, a = .freeze voter stake) ∨
      ∃ voter k r b b' tokens stake paid,
        VoteEffect c.db c'.db voter k r b b' tokens stake paid ∧
          (k = bpname → ∃ r b b', AgeEffect c.db c'.db voter bpname r b b' e.world.blockNum) := by
  have hrow := fun voter bpname => Db.voteRow_regular h.votes.regular voter bpname
  cases a with
  | freeze voter stake => exact .inl ⟨voter, stake, rfl⟩
  | vote voter k stake =>
    obtain ⟨r, b, b', tokens, δ, heffect⟩ := vote_effect (hrow _ _) hc
    refine .inr ⟨voter, k, r, b, b', tokens, δ, 0, heffect, ?_⟩
    rintro rfl
    exact vote_age (hrow _ _) (h.voteRow_updatedBy voter) h.height (hvote voter stake rfl) hc
  | votestatic voter k =>
    obtain ⟨r, b, b', tokens, δ, heffect⟩ := votestatic_effect (hrow _ _) hc
    refine .inr ⟨voter, k, r, b, b', tokens, δ, 0, heffect, ?_⟩
    rintro rfl
    exact votestatic_age (h.voteRow_updatedBy voter) h.height hc
  | quitsvote voter k =>
    obtain ⟨r, b, b', tokens, δ, heffect⟩ := quitsvote_effect (hrow _ _) hc
    refine .inr ⟨voter, k, r, b, b', tokens, δ, 0, heffect, ?_⟩
    rintro rfl
    exact quitsvote_age (hrow _ _) (h.voteRow_updatedBy voter) h.height hc
  | claim voter k =>
    obtain ⟨r, b, b', paid, heffect, -⟩ := claim_effect (hrow _ _) hc
    refine .inr ⟨voter, k, r, b, b', 0, 0, paid, heffect, ?_⟩
    rintro rfl
    exact claim_age (hrow _ _) (h.voteRow_updatedBy voter) h.height hc
  | votebyreward voter k =>
    obtain ⟨r, b, b', tokens, δ, paid, heffect⟩ := votebyreward_effect (hrow _ _) hc
    refine .inr ⟨voter, k, r, b, b', tokens, δ, paid, heffect, ?_⟩
    rintro rfl
    exact votebyreward_age (hrow _ _) (h.voteRow_updatedBy voter) h.height hc
  | _ => cases ha

theorem handle {a : SystemAction} {e : Env} {c c' : Ctx}
    (hc : handle a e c = .ok ((), c'))
    (hvote : ∀ voter stake, a = .vote voter bpname stake →
      (c.db.voteRow voter bpname).vote.amount = 0 ∨
        (c.db.voteRow voter bpname).voteageUpdateHeight = e.world.blockNum)
    (h : AgeInv bpname e.world.blockNum c.db) : AgeInv bpname e.world.blockNum c'.db := by
  have hinv := h.votes.handle hc
  cases hvoting : isVoting a with
  | true =>
    rcases h.ageEffect hvoting hvote hc with ⟨voter, stake, rfl⟩ |
      ⟨voter, k, r, b, b', tokens, stake, paid, heffect, hage⟩
    · obtain ⟨-, -, f, t, -, hdb, -⟩ := freeze_eq_ok hc
      rw [hdb] at hinv ⊢
      exact h.congr hinv rfl rfl
    · exact h.effect hinv heffect hage
  | false =>
    have hvotes := ((handle_frame hc).1.voting hvoting).2.1
    cases honblock : isOnblock a with
    | true =>
      cases a with
      | onblock =>
        obtain ⟨R, vid, ts, tb, -, -, -, -, hdb, hdist⟩ := onblock_eq_ok hc
        rw [hdb] at hinv ⊢
        refine h.congr hinv rfl (hdist.find_map _ (fun b reward => ?_) bpname)
        unfold rewarded
        split_ifs <;> rfl
      | _ => cases honblock
    | false =>
      rcases handle_bpUpdate hvoting honblock hc with hbps | ⟨k, b', hw, hb⟩
      · exact h.congr hinv hvotes (by rw [hbps])
      · exact h.bpUpdate hinv hvotes hw hb

theorem token (he : Token.Effect e d d') (h : AgeInv bpname n d) : AgeInv bpname n d' := by
  have hinv := h.votes.token he
  rw [he.frame] at hinv ⊢
  exact h.congr hinv rfl rfl

theorem push {s : Step} (h : AgeInv bpname s.world.blockNum d) (hstep : RevotesUpToDate bpname d s)
    (hs : push s d = .ok d') : AgeInv bpname s.world.blockNum d' := by
  refine push_induction (AgeInv bpname s.world.blockNum) (fun e x x' he hx => hx.token he)
    (fun a c hdata hc hd => hd.handle hc ?_) hs h
  rintro voter stake rfl
  unfold RevotesUpToDate at hstep
  rw [hdata] at hstep
  exact hstep rfl

theorem initial {g : Genesis} (hg : g.Initial d) (hnew : d.bps.find () bpname = none) :
    AgeInv bpname 0 d := by
  refine ⟨.initial hg, ?_, fun b hb => ?_, fun b hb => ?_⟩
  · rw [hg.frame]
    intro voter r hr
    cases hr
  · rw [hnew] at hb
    cases hb
  · rw [hnew] at hb
    cases hb

/-! ## Ages without overflow -/

theorem newestVoteageFor_eq (h : AgeInv bpname n d) (hlt : n < 2 ^ 32)
    (hfits : ∀ voter r, d.votes.find voter bpname = some r → r.AgeFits n) :
    d.newestVoteageFor bpname n = d.sumFor (·.ageAt n) bpname := by
  unfold Db.newestVoteageFor Db.sumFor
  refine MultiIndex.sum_congr fun v k r hr => ?_
  by_cases hk : k = bpname
  · subst hk
    rw [if_pos rfl, if_pos rfl]
    obtain ⟨age, hage, -⟩ := (hfits v r hr).exists_age
    show r.claimedAge n = r.ageAt n
    rw [VoteInfo.claimedAge_of_ok hage]
    exact VoteInfo.newestVoteage_eq_ok (h.votes.regular v k r hr) (h.row v r hr) hlt hage
  · rw [if_neg hk, if_neg hk]

theorem claimedAge_le (hfits : ∀ voter r, d.votes.find voter bpname = some r → r.AgeFits n)
    (hr : d.votes.find voter bpname = some r) :
    0 ≤ r.claimedAge n ∧ r.claimedAge n ≤ d.newestVoteageFor bpname n := by
  have hnonneg : ∀ v r, d.votes.find v bpname = some r → 0 ≤ r.claimedAge n := by
    intro v r hr
    obtain ⟨age, hage, hage₀⟩ := (hfits v r hr).exists_age
    rw [VoteInfo.claimedAge_of_ok hage]
    exact hage₀
  refine ⟨hnonneg voter r hr, ?_⟩
  have hle := MultiIndex.weightAt_le_sum (t := d.votes)
    (f := fun _ k r => if k = bpname then r.claimedAge n else 0) (fun v k r₁ hr₁ => by
      split_ifs with hk
      · rw [hk] at hr₁
        exact hnonneg v r₁ hr₁
      · exact le_rfl) voter bpname
  rw [MultiIndex.weightAt_of_find hr, if_pos rfl] at hle
  exact hle

end AgeInv

theorem tdiv_le_pool {pool total : Int} (hpool : 0 ≤ pool) (hage : 0 ≤ age) (hle : age ≤ total) :
    (pool * age).tdiv total ≤ pool := by
  have hmul : pool * age ≤ pool * total := mul_le_mul_of_nonneg_left hle hpool
  rcases (hage.trans hle).eq_or_lt with hzero | hpos
  · rw [← hzero, Int.tdiv_zero]
    exact hpool
  · rw [Int.tdiv_eq_ediv_of_nonneg (mul_nonneg hpool hage)]
    exact Int.ediv_le_of_le_mul hpos hmul

/-- **The age of votes is conserved.** Take a run from genesis at heights that do not decrease, in
which a vote for the producer is changed only where there is none yet or the row is up to date. If
the producer was made by `updatebp`, then at every later height, without overflow, the ages that
`claim` computes for all voters add up to the age of the producer; and no voter's share of the
rewards exceeds them. -/
theorem voteage_conserved {g : Genesis} {d₀ : Db} (hg : g.initializeDatabase = .ok d₀)
    {bpname : Name} (hnew : d₀.bps.find () bpname = none) (steps : List Step)
    (hheights : (steps.map (·.world.blockNum)).Pairwise (· ≤ ·))
    (hsteps : Along push (RevotesUpToDate bpname) d₀ steps) {b : BpInfo}
    (hb : (run push d₀ steps).bps.find () bpname = some b) {h : Nat} (hlt : h < 2 ^ 32)
    (hge : ∀ s ∈ steps, s.world.blockNum ≤ h) (hfit : AgesFit (run push d₀ steps) bpname b h) :
    (run push d₀ steps).newestVoteageFor bpname h =
        b.totalVoteage + b.totalStaked * ((h : Int) - b.voteageUpdateHeight) ∧
      ∀ voter r, (run push d₀ steps).votes.find voter bpname = some r →
        0 ≤ b.rewardsPool.amount →
          (b.rewardsPool.amount * r.claimedAge h).tdiv (b.newestTotalVoteage h) ≤
            b.rewardsPool.amount := by
  have hinit := Genesis.initializeDatabase_eq_ok hg
  have hinv : AgeInv bpname h (run push d₀ steps) :=
    run_induction_clock (fun s => s.world.blockNum) (AgeInv bpname)
      (fun n m d hnm hd => hd.mono hnm)
      (fun d s d' hd hstep hs => hd.push hstep hs) (.initial hinit hnew) hsteps
      (List.pairwise_cons.mpr ⟨fun _ _ => Nat.zero_le _, hheights⟩) (Nat.zero_le h) hge
  obtain ⟨k, hk⟩ := hinv.ages b hb h
  have hsum := hinv.newestVoteageFor_eq hlt hfit.row
  have hfits := hfit.sum
  have htotal := hfit.total
  have hnonneg : 0 ≤ (run push d₀ steps).newestVoteageFor bpname h := by
    unfold Db.newestVoteageFor Db.sumFor
    refine MultiIndex.sum_nonneg fun v i r hr => ?_
    split_ifs with hi
    · subst hi
      exact (AgeInv.claimedAge_le hfit.row hr).1
    · exact le_rfl
  have hage : (run push d₀ steps).newestVoteageFor bpname h = b.ageAt h := by
    rw [← hsum] at hk
    unfold BpInfo.ageAt at hk ⊢
    omega
  refine ⟨hage, fun voter r hr hpool => ?_⟩
  obtain ⟨hr₀, hr₁⟩ := AgeInv.claimedAge_le hfit.row hr
  have hnewest : b.newestTotalVoteage h = b.ageAt h := by
    obtain ⟨j, hj⟩ := BpInfo.newestTotalVoteage_eq (hinv.height b hb) hlt
    have hrange := wrap64_range (b.totalVoteage +
      wrap64 (b.totalStaked * sub32 h b.voteageUpdateHeight))
    have hwrap : b.newestTotalVoteage h = wrap64 (b.totalVoteage +
      wrap64 (b.totalStaked * sub32 h b.voteageUpdateHeight)) := rfl
    rw [← hwrap] at hrange
    unfold BpInfo.ageAt at hj ⊢
    omega
  rw [hnewest, ← hage]
  exact tdiv_le_pool hpool hr₀ hr₁

open Genesis (alice bob twoAccounts twoAccounts_database) in
/-- Ten blocks after bob's vote, its age is the age of all votes for alice. -/
theorem voteage_conserved_alice :
    ∃ b, (run push twoAccounts.database voteForAlice).bps.find () alice = some b ∧
      (run push twoAccounts.database voteForAlice).newestVoteageFor alice 24 =
        b.totalVoteage + b.totalStaked * ((24 : Nat) - b.voteageUpdateHeight) ∧
      (run push twoAccounts.database voteForAlice).newestVoteageFor alice 24 = 10000 := by
  obtain ⟨b, hb⟩ := Option.isSome_iff_exists.mp
    (by decide +kernel : ((run push twoAccounts.database voteForAlice).bps.find () alice).isSome)
  have htotal : ((run push twoAccounts.database voteForAlice).bps.find () alice).elim 0
      (fun b => b.totalVoteage + b.totalStaked * ((24 : Nat) - b.voteageUpdateHeight)) =
        10000 := by
    decide +kernel
  rw [hb, Option.elim_some] at htotal
  have hage : (run push twoAccounts.database voteForAlice).newestVoteageFor alice 24 = 10000 := by
    decide +kernel
  have hfit : AgesFit (run push twoAccounts.database voteForAlice) alice b 24 := by
    refine ⟨fun voter r hr => ?_, by rw [hage]; decide, by rw [htotal]; decide⟩
    exact MultiIndex.forall_find (P := fun _ _ r => r.AgeFits 24) (by decide +kernel)
      voter alice r hr
  have hsteps : Along push (RevotesUpToDate alice) twoAccounts.database voteForAlice :=
    ⟨fun _ _ => trivial, fun _ _ => trivial, fun _ _ => trivial, fun _ _ => trivial,
      fun _ _ _ => .inl (by decide +kernel), trivial⟩
  exact ⟨b, hb, (voteage_conserved twoAccounts_database (by decide) voteForAlice (by decide) hsteps
    hb (by decide) (by decide) hfit).1, hage⟩

open Genesis (alice bob twoAccounts twoAccounts_database) in
/-- Bob votes again, ten blocks later and with the same amount: its age is ten times the age of all
votes for alice, so that its share of alice's rewards is ten times the rewards. -/
theorem voteage_not_conserved :
    twoAccounts.initializeDatabase = .ok twoAccounts.database ∧
      ∃ d b, d = run push twoAccounts.database (voteForAlice ++
          [.byActor 24 bob (.system (.vote bob alice (core 100000000)))]) ∧
        twoAccounts.database.bps.find () alice = none ∧ d.bps.find () alice = some b ∧
        d.newestVoteageFor alice 24 = 100000 ∧
        b.totalVoteage + b.totalStaked * ((24 : Nat) - b.voteageUpdateHeight) = 10000 := by
  refine ⟨twoAccounts_database, _, _, rfl, by decide,
    Option.eq_some_of_isSome (by decide +kernel), by decide +kernel, by decide +kernel⟩

end BaccChain
