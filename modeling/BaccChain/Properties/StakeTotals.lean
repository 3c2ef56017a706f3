import BaccChain.Properties.VoteInv
import BaccChain.Contracts.System.Distribution

/-!
# Total stakes are sums of votes

Every action on votes adds to the total stake of a producer what it adds to the stake of the row of
votes, in 64 bits.

## Main definitions

* `StakeInv`: totals of producers

## Main results

* `totalStaked_eq_stakeFor`: totals are sums
-/

namespace BaccChain

open Commons (run run_induction along_true)
open Asset (core)

/-- The stake of all rows of votes for a producer. -/
def Db.stakeFor (d : Db) (bpname : Name) : Int := d.sumFor VoteInfo.stake bpname

/-- **The invariant of total stakes**, where `base` gives the stakes at genesis. -/
structure StakeInv (base : Name → Int) (d : Db) : Prop where
  total : ∀ k b, d.bps.find () k = some b → b.totalStaked = wrap64 (base k + d.stakeFor k)
  fresh : ∀ k, d.bps.find () k = none → base k = 0

/-- The stake that a producer has at the start. -/
def Db.baseStake (d : Db) (bpname : Name) : Int :=
  d.bps.weightAt (fun _ _ b => b.totalStaked) () bpname

variable {k : Name}

theorem VoteInv.stakeFor_eq_zero {d : Db} (h : VoteInv d) (hk : d.bps.find () k = none) :
    d.stakeFor k = 0 := by
  unfold Db.stakeFor Db.sumFor
  refine Eq.trans (MultiIndex.sum_congr fun v i r hr => if_neg ?_) d.votes.sum_zero
  rintro rfl
  exact h.producer v i r hr hk

theorem VoteInv.stakeFor_nonneg {d : Db} (h : VoteInv d) (k : Name) : 0 ≤ d.stakeFor k := by
  unfold Db.stakeFor Db.sumFor
  refine MultiIndex.sum_nonneg fun v i r hr => ?_
  split_ifs
  · exact (h.regular v i r hr).stake_nonneg
  · exact le_rfl

variable {b' b : BpInfo} {bpname voter : Name} {r : VoteInfo} {tokens stake paid : Int}

theorem VoteEffect.stakeFor {d d' : Db} (he : VoteEffect d d' voter bpname r b b' tokens stake paid)
    (k : Name) : d'.stakeFor k = d.stakeFor k + if bpname = k then stake else 0 := by
  have hsum := he.change.sumFor (VoteInfo.stake_default bpname) k
  have hstake : r.stake - (d.voteRow voter bpname).stake = stake := by
    rw [he.stake_eq]
    omega
  rw [hstake] at hsum
  exact hsum

namespace StakeInv

open SystemContract

variable {d d' : Db} {base : Name → Int}

theorem congr (h : StakeInv base d) (hv : d'.votes = d.votes)
    (hb : ∀ k, (d'.bps.find () k).map BpInfo.totalStaked =
      (d.bps.find () k).map BpInfo.totalStaked) : StakeInv base d' := by
  have hfor : ∀ k, d'.stakeFor k = d.stakeFor k := fun k => by
    rw [Db.stakeFor, Db.sumFor, hv]
    rfl
  constructor
  · intro k b hk
    have hmap := hb k
    rw [hk] at hmap
    obtain ⟨b₀, hb₀, hstake⟩ := Option.map_eq_some_iff.mp hmap.symm
    rw [hfor, ← h.total k b₀ hb₀, hstake]
  · intro k hk
    have hmap := hb k
    rw [hk] at hmap
    exact h.fresh k (Option.map_eq_none_iff.mp hmap.symm)

theorem effect (h : StakeInv base d) (he : VoteEffect d d' voter bpname r b b' tokens stake paid) :
    StakeInv base d' := by
  constructor
  · intro k b₁ hk
    rw [he.stakeFor]
    by_cases hne : k = bpname
    · subst hne
      obtain rfl : b' = b₁ := Option.some.inj (he.change.bps.find_self.symm.trans hk)
      have hb := h.total k b he.find
      rw [if_pos rfl]
      rcases he.totalStaked with htotal | ⟨hzero, htotal⟩
      · rw [htotal, hb, wrap64_add_left, add_assoc]
      · rw [htotal, hb, hzero, add_zero]
    · rw [he.change.bps_of_ne hne] at hk
      rw [if_neg (Ne.symm hne), add_zero]
      exact h.total k b₁ hk
  · intro k hk
    refine h.fresh k ?_
    by_contra hsome
    exact he.change.bps.find_ne_none hsome hk

theorem totalStaked_lt (h : StakeInv base d) (hb : d.bps.find () k = some b) :
    b.totalStaked < 2 ^ 63 := by
  rw [h.total k b hb]
  exact (wrap64_range _).2

theorem totalStaked_effect (h : StakeInv base d)
    (he : VoteEffect d d' voter bpname r b b' tokens stake paid) :
    b'.totalStaked = wrap64 (b.totalStaked + stake) := by
  rcases he.totalStaked with htotal | ⟨hzero, htotal⟩
  · exact htotal
  · rw [htotal, hzero, add_zero, h.total bpname b he.find, wrap64_wrap64]

theorem bpUpdate (h : StakeInv base d) (hinv : VoteInv d) (hv : d'.votes = d.votes) {n : Nat}
    (hw : d.bps.Writes () k (some b') d'.bps) (hb : BpUpdate n (d.bps.find () k) b') :
    StakeInv base d' := by
  have hfor : ∀ k, d'.stakeFor k = d.stakeFor k := fun k => by
    rw [Db.stakeFor, Db.sumFor, hv]
    rfl
  constructor
  · intro k₁ b₁ hk₁
    rw [hfor]
    rw [hw.find] at hk₁
    split_ifs at hk₁ with hk
    · obtain ⟨-, rfl⟩ := hk
      rw [← Option.some.inj hk₁, hb.totalStaked]
      cases hfind : d.bps.find () k₁ with
      | none =>
        rw [h.fresh k₁ hfind, hinv.stakeFor_eq_zero hfind]
        rfl
      | some b => exact h.total k₁ b hfind
    · exact h.total k₁ b₁ hk₁
  · intro k₁ hk₁
    refine h.fresh k₁ ?_
    by_contra hsome
    exact hw.find_ne_none hsome hk₁

variable {e : Env}

theorem handle {a : SystemAction} {c c' : Ctx} (hc : handle a e c = .ok ((), c'))
    (hinv : VoteInv c.db) (h : StakeInv base c.db) : StakeInv base c'.db := by
  cases hvoting : isVoting a with
  | true =>
    rcases handle_voteEffect hinv.regular hvoting hc with ⟨voter, stake, rfl⟩ |
      ⟨voter, bpname, r, b, b', tokens, stake, paid, heffect⟩
    · obtain ⟨-, -, f, t, -, hdb, -⟩ := freeze_eq_ok hc
      rw [hdb]
      exact h.congr rfl fun _ => rfl
    · exact h.effect heffect
  | false =>
    have hvotes := ((handle_frame hc).1.voting hvoting).2.1
    cases honblock : isOnblock a with
    | true =>
      cases a with
      | onblock =>
        obtain ⟨R, vid, ts, tb, -, -, -, -, hdb, hdist⟩ := onblock_eq_ok hc
        rw [hdb]
        exact h.congr rfl <| hdist.find_map BpInfo.totalStaked fun b reward => by
          unfold rewarded
          split_ifs <;> rfl
      | _ => cases honblock
    | false =>
      rcases handle_bpUpdate hvoting honblock hc with hbps | ⟨k, b', hw, hb⟩
      · exact h.congr hvotes fun k => by rw [hbps]
      · exact h.bpUpdate hinv hvotes hw hb

theorem token (he : Token.Effect e d d') (h : StakeInv base d) : StakeInv base d' := by
  rw [he.frame]
  exact h.congr rfl fun _ => rfl

theorem push {s : Step} (hinv : VoteInv d) (h : StakeInv base d) (hs : push s d = .ok d') :
    StakeInv base d' :=
  push_induction (StakeInv base) (fun _ _ _ he h => h.token he)
    (fun _ _ _ hc h => h.handle hc hinv) hs h

theorem initial {g : Genesis} (hg : g.Initial d) : StakeInv d.baseStake d := by
  have hfor : ∀ k, d.stakeFor k = 0 := fun k => by
    rw [hg.frame]
    rfl
  constructor
  · intro k b hb
    obtain ⟨p, hp⟩ := MultiIndex.find_eq_some_iff.mp hb
    obtain ⟨q, -, -, hrow⟩ := hg.bps k _ hp
    cases hrow
    rw [hfor, Db.baseStake, MultiIndex.weightAt_of_find hb]
    rfl
  · intro k hk
    exact MultiIndex.weightAt_of_find_none hk

end StakeInv

/-! ## Total stakes after a run -/

/-- The vote powers of a row are whole tokens. -/
structure VoteInfo.ExactStake (r : VoteInfo) : Prop where
  votepower : 10000 ∣ r.votepower.amount
  static : ∀ sv ∈ r.staticVotes, 10000 ∣ sv.votepower.amount

theorem VoteInfo.Regular.exactStake {r : VoteInfo} (h : r.Regular) : r.ExactStake := by
  constructor
  · obtain ⟨n, -, hpower⟩ := h.vote
    exact ⟨n, hpower⟩
  · intro sv hsv
    obtain ⟨n, p, -, -, hpower⟩ := h.static sv hsv
    exact ⟨_, hpower⟩

/-- Votes and total stakes keep their invariants along every run from genesis. -/
theorem stakeInv_run {g : Genesis} {d₀ : Db} (hg : g.initializeDatabase = .ok d₀)
    (steps : List Step) :
    VoteInv (run push d₀ steps) ∧ StakeInv d₀.baseStake (run push d₀ steps) := by
  have hinit := Genesis.initializeDatabase_eq_ok hg
  exact run_induction (P := fun _ _ => True) (fun d => VoteInv d ∧ StakeInv d₀.baseStake d)
    (fun d s d' h _ hs => ⟨h.1.push hs, h.2.push h.1 hs⟩) ⟨.initial hinit, .initial hinit⟩
    along_true

/-- **Total stakes are sums of votes.** After any run from genesis, a producer that is not from
genesis, so that `updatebp` made it, has as its total stake the sum of the stakes of the rows of
votes for it, if the sum fits into 64 bits. The divisions in this sum are exact, and it is not
negative. -/
theorem totalStaked_eq_stakeFor {g : Genesis} {d₀ : Db} (hg : g.initializeDatabase = .ok d₀)
    (steps : List Step) {bpname : Name} (hnew : d₀.bps.find () bpname = none) {b : BpInfo}
    (hb : (run push d₀ steps).bps.find () bpname = some b) :
    (∀ voter r, (run push d₀ steps).votes.find voter bpname = some r → r.ExactStake) ∧
      0 ≤ (run push d₀ steps).stakeFor bpname ∧
      ((run push d₀ steps).stakeFor bpname < 2 ^ 63 →
        b.totalStaked = (run push d₀ steps).stakeFor bpname) := by
  obtain ⟨hvotes, hstakes⟩ := stakeInv_run hg steps
  have hbase : d₀.baseStake bpname = 0 := MultiIndex.weightAt_of_find_none hnew
  have htotal := hstakes.total bpname b hb
  have hnonneg := hvotes.stakeFor_nonneg bpname
  rw [hbase, zero_add] at htotal
  refine ⟨fun voter r hr => (hvotes.regular voter bpname r hr).exactStake, hnonneg, fun hlt => ?_⟩
  rw [htotal, wrap64_eq (by omega) hlt]

open Genesis (alice bob) in
/-- Alice becomes a producer, and bob votes for alice with ten thousand tokens. -/
def voteForAlice : List Step := [
  .byActor 10 systemAccountName (.system (.openbp alice)),
  .byActor 11 alice (.system (.updatebp alice 0 1 [])),
  .byActor 12 alice (.system (.bppawn alice (core 500000000))),
  .byActor 13 bob (.system (.freeze bob (core 100000000))),
  .byActor 14 bob (.system (.vote bob alice (core 100000000)))]

open Genesis (alice twoAccounts twoAccounts_database) in
theorem totalStaked_eq_stakeFor_alice :
    ∃ b, (run push twoAccounts.database voteForAlice).bps.find () alice = some b ∧
      b.totalStaked = (run push twoAccounts.database voteForAlice).stakeFor alice ∧
      (run push twoAccounts.database voteForAlice).stakeFor alice = 1000 := by
  obtain ⟨b, hb⟩ := Option.isSome_iff_exists.mp
    (by decide +kernel : ((run push twoAccounts.database voteForAlice).bps.find () alice).isSome)
  have htotal := totalStaked_eq_stakeFor twoAccounts_database voteForAlice (by decide) hb
  have hstake : (run push twoAccounts.database voteForAlice).stakeFor alice = 1000 := by
    decide +kernel
  exact ⟨b, hb, htotal.2.2 (by rw [hstake]; decide), hstake⟩

end BaccChain
