import BaccChain.Properties.StakeTotals

/-!
# The pawn behind the stake of a producer

A producer deposits 5000 tokens for a stake of up to eight million, 10000 for up to twenty million,
30000 for any stake. `vote` checks this for the stake that it leaves.

## Main definitions

* `PawnBacked`: stakes are behind a pawn
* `Guarded`: what an action has to check

## Main results

* `pawnBacked_iff`: when stakes are backed
* `stake_exceeds_pawn`: a static vote
-/

namespace BaccChain

open Commons (run Always Along always_iff_along)
open Asset (core core_amount)
open SystemContract

variable {d₀ d d' : Db}

/-! ## Pawn and stake -/

/-- The steps of the deposit. -/
def PawnCovers (pawn staked : Int) : Prop :=
  0 < staked →
    5000 * 10000 ≤ pawn ∧ staked ≤ 8000000 ∨ 10000 * 10000 ≤ pawn ∧ staked ≤ 20000000 ∨
      30000 * 10000 ≤ pawn

instance (pawn staked : Int) : Decidable (PawnCovers pawn staked) :=
  inferInstanceAs (Decidable (_ → _))

theorem PawnCovers.mono {pawn pawn' staked staked' : Int} (h : PawnCovers pawn staked)
    (hpawn : pawn ≤ pawn') (hstaked : staked' ≤ staked) : PawnCovers pawn' staked' := by
  intro hpos
  have := h (by omega)
  omega

/-- New producers have enough of a pawn. -/
def PawnBacked (d₀ d : Db) : Prop :=
  ∀ k b, d₀.bps.find () k = none → d.bps.find () k = some b →
    PawnCovers b.pawn.amount b.totalStaked

/-- The pawn of a producer made by `updatebp` covers its stake after a change by `δ`, in 64 bits. -/
def PawnCoversAfter (d₀ d : Db) (bpname : Name) (δ : Int) : Prop :=
  d₀.bps.find () bpname = none → ∀ b ∈ d.bps.find () bpname,
    PawnCovers b.pawn.amount (wrap64 (b.totalStaked + δ))

/-- The same, but only for a stake that falls below the range of 64 bits. -/
def PawnCoversUnderflow (d₀ d : Db) (bpname : Name) (δ : Int) : Prop :=
  d₀.bps.find () bpname = none → ∀ b ∈ d.bps.find () bpname, b.totalStaked + δ < -2 ^ 63 →
    PawnCovers b.pawn.amount (wrap64 (b.totalStaked + δ))

/-- What a step does not check: the pawn of the producer covers the stake that `votestatic` and
`votebyreward` leave, and the stake that `vote` and `quitsvote` leave when they underflow. -/
def Step.stakeBacked (d₀ d : Db) (s : Step) : Prop :=
  match s.act.data with
  | .system (.vote voter bpname stake) =>
    PawnCoversUnderflow d₀ d bpname
      ((stake.amount - (d.voteRow voter bpname).vote.amount).tdiv (10 * 10000))
  | .system (.votestatic _ bpname stake typ) =>
    PawnCoversAfter d₀ d bpname ((stake.amount * staticVotePower typ).tdiv 10000)
  | .system (.quitsvote voter bpname idx) =>
    ∀ sv ∈ (d.voteRow voter bpname).staticVotes[idx]?,
      PawnCoversUnderflow d₀ d bpname (-(sv.votepower.amount.tdiv 10000))
  | .system (.votebyreward voter bpname) =>
    ∀ b ∈ d.bps.find () bpname, ∀ vts ∈ d.votes.find voter bpname,
      ∀ info, claimInfo b vts s.world.blockNum = .ok info →
        PawnCoversAfter d₀ d bpname (((rewardAllOf info).tdiv 10).tdiv 10000)
  | _ => True

/-! ## Actions that keep the stake covered -/

def Guarded (d d' : Db) : Prop :=
  ∀ k b', d'.bps.find () k = some b' → PawnCovers b'.pawn.amount b'.totalStaked ∨
    ∃ b, d.bps.find () k = some b ∧ b.pawn.amount ≤ b'.pawn.amount ∧
      b'.totalStaked ≤ b.totalStaked

theorem PawnBacked.of_guarded (h : PawnBacked d₀ d) (hd : Guarded d d') : PawnBacked d₀ d' := by
  intro k b' hk hb'
  rcases hd k b' hb' with hcovers | ⟨b, hb, hpawn, hstaked⟩
  · exact hcovers
  · exact (h k b hk hb).mono hpawn hstaked

namespace Guarded

theorem of_eq (h : d'.bps = d.bps) : Guarded d d' := by
  intro k b' hb'
  rw [h] at hb'
  exact .inr ⟨b', hb', le_rfl, le_rfl⟩

theorem of_writes {bpname : Name} {b' : BpInfo} (hw : d.bps.Writes () bpname (some b') d'.bps)
    (h : PawnCovers b'.pawn.amount b'.totalStaked ∨ ∃ b, d.bps.find () bpname = some b ∧
      b.pawn.amount ≤ b'.pawn.amount ∧ b'.totalStaked ≤ b.totalStaked) : Guarded d d' := by
  intro k b₁ hb₁
  rw [hw.find] at hb₁
  split_ifs at hb₁ with hk
  · obtain ⟨-, rfl⟩ := hk
    rw [← Option.some.inj hb₁]
    exact h
  · exact .inr ⟨b₁, hb₁, le_rfl, le_rfl⟩

theorem of_map (h : ∀ k, (d'.bps.find () k).map (fun b => (b.pawn.amount, b.totalStaked)) =
    (d.bps.find () k).map fun b => (b.pawn.amount, b.totalStaked)) : Guarded d d' := by
  intro k b' hb'
  have hk := h k
  rw [hb', Option.map_some] at hk
  obtain ⟨b, hb, heq⟩ := Option.map_eq_some_iff.mp hk.symm
  obtain ⟨hpawn, hstaked⟩ := Prod.mk.inj heq
  exact .inr ⟨b, hb, hpawn.le, hstaked.ge⟩

end Guarded

variable {voter bpname : Name} {e : Env} {c c' : Ctx}

def movesStake : SystemAction → Bool
  | .vote .. | .votestatic .. | .quitsvote .. | .votebyreward .. => true
  | _ => false

theorem handle_guarded {a : SystemAction} (ha : movesStake a = false)
    (hc : handle a e c = .ok ((), c')) : Guarded c.db c'.db := by
  cases a with
  | updatebp =>
    obtain ⟨-, b, t, hw, hdb, hb, -⟩ := updatebp_eq_ok hc
    rw [hdb]
    refine .of_writes hw ?_
    rcases hb with ⟨-, rfl⟩ | ⟨b₀, hb₀, rfl⟩
    · exact .inl fun hpos => absurd hpos (lt_irrefl 0)
    · exact .inr ⟨b₀, hb₀, le_rfl, le_rfl⟩
  | removebp =>
    obtain ⟨b, t, hb, hw, hdb, -⟩ := removebp_eq_ok hc
    rw [hdb]
    exact .of_writes hw (.inr ⟨b, hb, le_rfl, le_rfl⟩)
  | bppawn =>
    obtain ⟨-, b, t, hb, hw, hdb, -⟩ := bppawn_eq_ok hc
    rw [hdb]
    refine .of_writes hw (.inr ⟨b, hb, ?_, le_rfl⟩)
    have hpos := pos_of_bppawn hc
    simp only
    omega
  | bpredeem =>
    obtain ⟨-, b, t, hb, hw, hdb, -⟩ := bpredeem_eq_ok hc
    rw [hdb]
    have hnone := totalStaked_of_bpredeem hc hb
    exact .of_writes hw (.inl fun hpos => absurd hpos hnone.not_gt)
  | bpclaim =>
    obtain ⟨-, b, t, hb, -, -, hw, hdb, -⟩ := bpclaim_eq_ok hc
    rw [hdb]
    exact .of_writes hw (.inr ⟨b, hb, le_rfl, le_rfl⟩)
  | onblock =>
    obtain ⟨R, vid, ts, tb, -, -, -, -, hdb, hdist⟩ := onblock_eq_ok hc
    rw [hdb]
    exact .of_map (hdist.find_map _ fun b reward => by unfold rewarded; split <;> rfl)
  | claim =>
    obtain ⟨-, b, vts, info, b', hb, -, -, hpay, hchange, -⟩ := claim_eq_ok hc
    refine .of_writes hchange.bps (.inr ⟨b, hb, ?_⟩)
    rw [payFromPool_eq_ok hpay]
    exact ⟨le_rfl, le_rfl⟩
  | vote | votestatic | quitsvote | votebyreward => cases ha
  | _ => exact .of_eq (handle_bps rfl hc)

/-! ## Actions that move a stake -/

variable {base : Name → Int} {r : VoteInfo} {b b' : BpInfo} {tokens δ paid : Int}

theorem PawnBacked.effect_iff (h : PawnBacked d₀ d) (hstakes : StakeInv base d)
    (heffect : VoteEffect d d' voter bpname r b b' tokens δ paid) (hpawn : b'.pawn = b.pawn) :
    PawnBacked d₀ d' ↔ PawnCoversAfter d₀ d bpname δ := by
  simp only [PawnCoversAfter, heffect.find, Option.mem_some_iff, forall_eq']
  rw [← hstakes.totalStaked_effect heffect, ← hpawn]
  constructor
  · intro h' hnew
    exact h' bpname b' hnew heffect.change.bps.find_self
  · intro hcovers k b₁ hnew hb₁
    by_cases hk : k = bpname
    · subst hk
      obtain rfl : b' = b₁ := Option.some.inj (heffect.change.bps.find_self.symm.trans hb₁)
      exact hcovers hnew
    · rw [heffect.change.bps_of_ne hk] at hb₁
      exact h k b₁ hnew hb₁

theorem PawnBacked.underflow_iff (h : PawnBacked d₀ d) (hstakes : StakeInv base d)
    (heffect : VoteEffect d d' voter bpname r b b' tokens δ paid) (hpawn : b'.pawn = b.pawn)
    (hδ : δ ≤ 0 ∨ PawnCovers b.pawn.amount (wrap64 (b.totalStaked + δ))) :
    PawnBacked d₀ d' ↔ PawnCoversUnderflow d₀ d bpname δ := by
  rw [h.effect_iff hstakes heffect hpawn]
  simp only [PawnCoversAfter, PawnCoversUnderflow, heffect.find, Option.mem_some_iff, forall_eq']
  refine ⟨fun hcovers hnew _ => hcovers hnew, fun hcovers hnew => ?_⟩
  rcases hδ with hle | hcovered
  · by_cases hlow : b.totalStaked + δ < -2 ^ 63
    · exact hcovers hnew hlow
    · have hlt := hstakes.totalStaked_lt heffect.find
      rw [wrap64_eq (not_lt.mp hlow) (by omega)]
      exact (h bpname b hnew heffect.find).mono le_rfl (by omega)
  · exact hcovered

theorem vote_covered {stake : Asset}
    (hc : vote voter bpname stake e c = .ok ((), c')) (hb : c.db.bps.find () bpname = some b) :
    (stake.amount - (c.db.voteRow voter bpname).vote.amount).tdiv (10 * 10000) ≤ 0 ∨
      PawnCovers b.pawn.amount (wrap64 (b.totalStaked +
        (stake.amount - (c.db.voteRow voter bpname).vote.amount).tdiv (10 * 10000))) := by
  rcases lt_or_ge 0 (stake.amount - (c.db.voteRow voter bpname).vote.amount) with hgrow | hshrink
  · right
    intro _
    have hcovered := covered_of_vote hc hb hgrow
    omega
  · left
    have hδ := Int.tdiv_nonneg (neg_nonneg.mpr hshrink) (by decide : (0 : Int) ≤ 10 * 10000)
    rw [Int.neg_tdiv] at hδ
    omega

/-! ## Steps and runs -/

theorem PawnBacked.congr (h : d'.bps = d.bps) : PawnBacked d₀ d' ↔ PawnBacked d₀ d := by
  unfold PawnBacked
  rw [h]

theorem PawnBacked.push_iff {s : Step} (h : PawnBacked d₀ d) (hvotes : VoteInv d)
    (hstakes : StakeInv base d) (hs : push s d = .ok d') :
    PawnBacked d₀ d' ↔ s.stakeBacked d₀ d := by
  obtain ⟨w, ⟨auths, data⟩⟩ := s
  cases data with
  | token =>
    have hbps : d'.bps = d.bps := exec_induction_token (fun x => x.bps = d.bps)
      (fun e x x' heffect hx => by rw [heffect.frame]; exact hx) hs rfl
    exact iff_of_true ((PawnBacked.congr hbps).mpr h) trivial
  | system a =>
    obtain ⟨c, depth', hc, -, hpay, hfold⟩ := exec_system hs
    have hbps : d'.bps = c.db.bps := by rw [payments_frame hpay hfold]
    rw [PawnBacked.congr hbps]
    have hregular := fun voter bpname => Db.voteRow_regular hvotes.regular voter bpname
    cases a with
    | vote voter bpname stake =>
      obtain ⟨r, b, b', tokens, heffect, hpawn⟩ := vote_stakeEffect (hregular _ _) hc
      have hcovered := vote_covered hc heffect.find
      exact h.underflow_iff hstakes heffect hpawn hcovered
    | votestatic voter bpname stake typ =>
      obtain ⟨r, b, b', tokens, heffect, hpawn⟩ := votestatic_stakeEffect (hregular _ _) hc
      exact h.effect_iff hstakes heffect hpawn
    | quitsvote voter bpname idx =>
      obtain ⟨r, b, b', tokens, sv, hsv, heffect, hpawn, hpower⟩ :=
        quitsvote_stakeEffect (hregular _ _) hc
      have hidx : (d.voteRow voter bpname).staticVotes[idx]? = some sv := hsv
      simp only [Step.stakeBacked, hidx, Option.mem_some_iff, forall_eq']
      exact h.underflow_iff hstakes heffect hpawn (.inl (by omega))
    | votebyreward voter bpname =>
      obtain ⟨r, b, b', tokens, vts, info, paid, hvts, hinfo, hpawn, heffect⟩ :=
        votebyreward_stakeEffect (hregular _ _) hc
      have hfind : d.bps.find () bpname = some b := heffect.find
      have hrow : d.votes.find voter bpname = some vts := hvts
      have hclaim : claimInfo b vts w.blockNum = .ok info := hinfo
      simp only [Step.stakeBacked, hfind, hrow, hclaim, Option.mem_some_iff, forall_eq',
        Except.ok.injEq]
      exact h.effect_iff hstakes heffect hpawn
    | _ => exact iff_of_true (h.of_guarded (handle_guarded rfl hc)) trivial

/-- **When the pawn backs the votes.** In every run from genesis, the pawn of every producer made by
`updatebp` covers its stake in every state of the run if and only if every accepted `votestatic` and
`votebyreward`, and every `vote` and `quitsvote` that underflows the stake, leaves a stake that the
pawn covers. -/
theorem pawnBacked_iff {g : Genesis} {d₀ : Db} (hg : g.initializeDatabase = .ok d₀)
    (steps : List Step) :
    Always push (fun d => ∀ k b, d₀.bps.find () k = none → d.bps.find () k = some b →
        0 < b.totalStaked →
          5000 * 10000 ≤ b.pawn.amount ∧ b.totalStaked ≤ 8000000 ∨
          10000 * 10000 ≤ b.pawn.amount ∧ b.totalStaked ≤ 20000000 ∨
          30000 * 10000 ≤ b.pawn.amount) d₀ steps ↔
      Along push (Step.stakeBacked d₀) d₀ steps := by
  have hinit := Genesis.initializeDatabase_eq_ok hg
  have hbacked : PawnBacked d₀ d₀ := fun k b hnew hb => by
    rw [hnew] at hb
    cases hb
  exact always_iff_along (J := fun d => VoteInv d ∧ StakeInv d₀.baseStake d)
    (I := PawnBacked d₀) (fun d s d' hd _ hs => ⟨hd.1.push hs, hd.2.push hd.1 hs⟩)
    (fun d s d' hd h hs => h.push_iff hd.1 hd.2 hs) ⟨.initial hinit, .initial hinit⟩ hbacked

open Genesis (alice) in
def pawnAndVotestatic (stake : Int) : List Step := [
  .byActor 10 systemAccountName (.system (.openbp alice)),
  .byActor 11 alice (.system (.updatebp alice 0 1 [])),
  .byActor 12 alice (.system (.bppawn alice (core 50000000))),
  .byActor 13 alice (.system (.freeze alice (core stake))),
  .byActor 14 alice (.system (.votestatic alice alice (core stake) 4))]

open Genesis (alice twoAccounts twoAccounts_database) in
/-- A vote of 600000 tokens makes a stake of 7.2 million, which 5000 tokens cover. -/
theorem pawnBacked_iff_votestatic :
    ((run push twoAccounts.database (pawnAndVotestatic 6000000000)).bps.find () alice).map
        BpInfo.totalStaked = some 7200000 ∧
      Always push (fun d => ∀ k b, twoAccounts.database.bps.find () k = none →
        d.bps.find () k = some b → 0 < b.totalStaked →
          5000 * 10000 ≤ b.pawn.amount ∧ b.totalStaked ≤ 8000000 ∨
          10000 * 10000 ≤ b.pawn.amount ∧ b.totalStaked ≤ 20000000 ∨
          30000 * 10000 ≤ b.pawn.amount) twoAccounts.database (pawnAndVotestatic 6000000000) :=
  ⟨by decide +kernel,
    (pawnBacked_iff twoAccounts_database (pawnAndVotestatic 6000000000)).mpr
      ⟨fun _ _ => trivial, fun _ _ => trivial, fun _ _ => trivial, fun _ _ => trivial,
        fun _ _ _ => by decide +kernel, trivial⟩⟩

open Genesis (alice twoAccounts) in
/-- A vote of 700000 tokens is accepted with the same pawn, because the check compares the vote
without its power: it makes a stake of 8.4 million. -/
theorem stake_exceeds_pawn :
    twoAccounts.database.bps.find () alice = none ∧
      ∃ b, (run push twoAccounts.database (pawnAndVotestatic 7000000000)).bps.find () alice =
          some b ∧ b.pawn.amount = 5000 * 10000 ∧ b.totalStaked = 8400000 ∧
        ¬ (0 < b.totalStaked →
          5000 * 10000 ≤ b.pawn.amount ∧ b.totalStaked ≤ 8000000 ∨
          10000 * 10000 ≤ b.pawn.amount ∧ b.totalStaked ≤ 20000000 ∨
          30000 * 10000 ≤ b.pawn.amount) := by
  refine ⟨by decide, ?_⟩
  have hrow : ((run push twoAccounts.database (pawnAndVotestatic 7000000000)).bps.find () alice).map
      (fun b => (b.pawn.amount, b.totalStaked)) = some (5000 * 10000, 8400000) := by
    decide +kernel
  obtain ⟨b, hb, heq⟩ := Option.map_eq_some_iff.mp hrow
  obtain ⟨hpawn, hstaked⟩ := Prod.mk.inj heq
  refine ⟨b, hb, hpawn, hstaked, ?_⟩
  rw [hpawn, hstaked]
  decide

end BaccChain
