import BaccChain.Chain.Effects
import BaccChain.Chain.Genesis

/-!
# The amount on votes is the sum of the votes

`voterinfo` records for every voter the amount on votes, next to the rows that hold these votes.

## Main definitions

* `VoteallIsSum`: the recorded amount is the sum

## Main results

* `voteall_sum_iff`: when it is
* `voteall_ne_sum_after_quitsvote`: when it is not
-/

namespace BaccChain

open Commons (run Along Always always_iff_along)
open Asset (core)

def VoteInfo.total (r : VoteInfo) : Int := r.vote.amount + r.sumStatic (·.vote.amount)

/-- The total of each voter is the sum of its votes. -/
def VoteallIsSum (d : Db) : Prop := ∀ v, d.voteall v = d.sumOf VoteInfo.total v

def movingVoter : ActionData → Option Name
  | .system (.vote voter _ _) => some voter
  | .system (.votestatic voter _ _ _) => some voter
  | .system (.quitsvote voter _ _) => some voter
  | _ => none

/-- If the step is a `vote`, `votestatic` or `quitsvote`, it leaves the sum of the voter's frozen
stake and amount on votes unchanged. -/
def KeepsStake (d : Db) (s : Step) : Prop :=
  ∀ d' voter, push s d = .ok d' → movingVoter s.act.data = some voter →
    d'.staked voter + d'.voteall voter = d.staked voter + d.voteall voter

def QuitsNothing (d : Db) (s : Step) : Prop :=
  ∀ voter bpname idx, s.act.data = .system (.quitsvote voter bpname idx) →
    d.quitAmount voter bpname idx = 0

namespace VoteallIsSum

open SystemContract

variable {d d' : Db} {voter bpname : Name} {r : VoteInfo} {b : BpInfo}

theorem congr_iff (hv : d'.votes = d.votes) (hw : d'.voterinfo = d.voterinfo) :
    VoteallIsSum d' ↔ VoteallIsSum d := by
  unfold VoteallIsSum Db.voteall Db.sumOf
  rw [hv, hw]

theorem change_iff (h : VoteallIsSum d) (hc : VoteChange d d' voter bpname r b) :
    VoteallIsSum d' ↔
      d'.voteall voter = d.voteall voter + (r.total - (d.voteRow voter bpname).total) := by
  have hzero : VoteInfo.total { bpname } = 0 := rfl
  constructor
  · intro h'
    rw [h' voter, hc.sumOf hzero, if_pos rfl, h voter]
  · intro hall v
    rw [hc.sumOf hzero]
    by_cases hv : voter = v
    · subst hv
      rw [if_pos rfl, hall, h voter]
    · rw [if_neg hv, hc.voteall_of_ne (Ne.symm hv), add_zero, h v]

theorem handle_iff {a : SystemAction} {e : Env} {c c' : Ctx} (hc : handle a e c = .ok ((), c'))
    (h : VoteallIsSum c.db) :
    VoteallIsSum c'.db ↔
      ∀ voter bpname idx, a = .quitsvote voter bpname idx →
        c.db.quitAmount voter bpname idx = 0 := by
  cases a with
  | vote =>
    refine iff_of_true ?_ (by simp)
    obtain ⟨-, -, -, b, -, hchange, -, -, hvoteall, -⟩ := vote_eq_ok hc
    rw [h.change_iff hchange, hvoteall]
    simp only [VoteInfo.total, revote, VoteInfo.sumStatic]
    omega
  | votebyreward =>
    refine iff_of_true ?_ (by simp)
    obtain ⟨-, -, b, vts, info, b', r, -, hvts, -, -, hr, hchange, -, hvoteall, -⟩ :=
      votebyreward_eq_ok hc
    have hrow := revoteReward_eq_ok hr
    have hstatic : r.sumStatic (·.vote.amount) = vts.sumStatic (·.vote.amount) := by
      rw [hrow]
      exact VoteInfo.sumStatic_settle fun _ => rfl
    rw [h.change_iff hchange, hvoteall, Db.voteRow_of_find hvts, VoteInfo.total, hstatic, hrow,
      VoteInfo.total]
    simp only [Asset.core_amount]
    omega
  | votestatic =>
    refine iff_of_true ?_ (by simp)
    obtain ⟨-, -, -, -, -, b, r, n, -, hr, hchange, -, -, hvoteall, -⟩ := votestatic_eq_ok hc
    rw [h.change_iff hchange, hvoteall, VoteInfo.total, VoteInfo.total,
      VoteInfo.sumStatic_append hr, appendStaticVote_eq_ok hr]
    simp only
    omega
  | quitsvote voter bpname idx =>
    obtain ⟨-, b, vts, sv, sv', -, hvts, hidx, hquit, hsv', hchange, -, -, hvoteall, -⟩ :=
      quitsvote_eq_ok hc
    rw [h.change_iff hchange, hvoteall, Db.voteRow_of_find hvts, VoteInfo.total, VoteInfo.total,
      VoteInfo.sumStatic_quit hidx hquit hsv']
    simp only
    have hamount := Db.quitAmount_eq hvts hidx
    constructor
    · rintro hsum _ _ _ ⟨⟩
      omega
    · intro hzero
      have := hzero voter bpname idx rfl
      omega
  | claim voter =>
    refine iff_of_true ?_ (by simp)
    obtain ⟨-, b, vts, info, b', -, hvts, -, -, hchange, -, hvoterinfo, -⟩ := claim_eq_ok hc
    have hvoteall : c'.db.voteall voter = c.db.voteall voter := by
      rw [Db.voteall, hvoterinfo]
      rfl
    rw [h.change_iff hchange, hvoteall, Db.voteRow_of_find hvts, VoteInfo.total,
      VoteInfo.sumStatic_settle fun _ => rfl, VoteInfo.total]
    simp [settleVotes]
  | freeze =>
    refine iff_of_true ?_ (by simp)
    obtain ⟨-, -, f, t, -, hdb, -⟩ := freeze_eq_ok hc
    rw [hdb]
    exact h
  | _ =>
    refine iff_of_true ?_ (by simp)
    obtain ⟨-, hv, hw⟩ := (handle_frame hc).1.voting rfl
    exact (congr_iff hv hw).mpr h

end VoteallIsSum

theorem voteallIsSum_push_iff {d d' : Db} {s : Step} (h : VoteallIsSum d)
    (hs : push s d = .ok d') : VoteallIsSum d' ↔ QuitsNothing d s := by
  obtain ⟨w, ⟨auths, data⟩⟩ := s
  cases data with
  | token =>
    refine iff_of_true (exec_induction_token VoteallIsSum (fun e d d' he h => ?_) hs h) nofun
    rw [he.frame]
    exact h
  | system =>
    obtain ⟨c, depth, hc, -, hpay, hfold⟩ := exec_system hs
    have hframe : VoteallIsSum d' ↔ VoteallIsSum c.db := by
      rw [payments_frame hpay hfold]
      exact VoteallIsSum.congr_iff rfl rfl
    rw [hframe, VoteallIsSum.handle_iff hc h]
    unfold QuitsNothing
    simp only [ActionData.system.injEq]

open SystemContract in
theorem keepsStake_iff {d d' : Db} {s : Step} (hs : push s d = .ok d') :
    KeepsStake d s ↔ QuitsNothing d s := by
  have hiff : KeepsStake d s ↔ ∀ voter, movingVoter s.act.data = some voter →
      d'.staked voter + d'.voteall voter = d.staked voter + d.voteall voter := by
    constructor
    · intro h voter hvoter
      exact h d' voter hs hvoter
    · intro h d'' voter hs' hvoter
      rw [hs] at hs'
      cases hs'
      exact h voter hvoter
  rw [hiff]
  obtain ⟨w, ⟨auths, data⟩⟩ := s
  cases data with
  | token => exact iff_of_true nofun nofun
  | system a =>
    obtain ⟨c, depth, hc, -, hpay, hfold⟩ := exec_system hs
    rw [payments_frame hpay hfold]
    cases a with
    | vote voter =>
      refine iff_of_true ?_ (by simp [QuitsNothing])
      rintro _ ⟨⟩
      obtain ⟨-, -, -, b, -, -, hstaked, -, hvoteall, -⟩ := vote_eq_ok hc
      have hstaked' : c.db.staked voter = _ := hstaked
      have hvoteall' : c.db.voteall voter = _ := hvoteall
      show c.db.staked voter + c.db.voteall voter = _
      rw [hstaked', hvoteall']
      ring
    | votestatic voter =>
      refine iff_of_true ?_ (by simp [QuitsNothing])
      rintro _ ⟨⟩
      obtain ⟨-, -, -, -, -, b, r, n, -, -, -, hstaked, -, hvoteall, -⟩ := votestatic_eq_ok hc
      have hstaked' : c.db.staked voter = _ := hstaked
      have hvoteall' : c.db.voteall voter = _ := hvoteall
      show c.db.staked voter + c.db.voteall voter = _
      rw [hstaked', hvoteall']
      ring
    | quitsvote voter bpname idx =>
      obtain ⟨-, b, vts, sv, sv', -, hvts, hidx, -, -, -, hstaked, -, hvoteall, -⟩ :=
        quitsvote_eq_ok hc
      have hstaked' : c.db.staked voter = d.staked voter + sv.vote.amount := hstaked
      have hvoteall' : c.db.voteall voter = d.voteall voter := hvoteall
      have hamount : d.quitAmount voter bpname idx = sv.vote.amount := Db.quitAmount_eq hvts hidx
      constructor
      · rintro hkeep _ _ _ ⟨⟩
        have hsum : c.db.staked voter + c.db.voteall voter = _ := hkeep voter rfl
        omega
      · rintro hquits _ ⟨⟩
        have hzero := hquits voter bpname idx rfl
        show c.db.staked voter + c.db.voteall voter = _
        omega
    | _ => exact iff_of_true nofun nofun

/-- **The amount on votes is the sum of the votes.** From genesis, along every run of actions of
both contracts, the amount on votes is the sum of the votes in every state, and every accepted
`vote`, `votestatic` and `quitsvote` only moves amounts between stake and votes, exactly if no
accepted `quitsvote` quits a static vote of an amount other than zero. -/
theorem voteall_sum_iff {g : Genesis} {d₀ : Db} (hg : g.initializeDatabase = .ok d₀)
    (steps : List Step) :
    (Always push VoteallIsSum d₀ steps ∧ Along push KeepsStake d₀ steps) ↔
      Along push QuitsNothing d₀ steps := by
  have hinit : VoteallIsSum d₀ := by
    rw [(Genesis.initializeDatabase_eq_ok hg).frame]
    exact fun v => rfl
  have hsum : Always push VoteallIsSum d₀ steps ↔ Along push QuitsNothing d₀ steps :=
    always_iff_along (J := fun _ => True) (fun _ _ _ _ _ _ => trivial)
      (fun d s d' _ h hs => voteallIsSum_push_iff h hs) trivial hinit
  refine ⟨fun h => hsum.mp h.1, fun h => ⟨hsum.mpr h, ?_⟩⟩
  exact h.mono fun d s d' hs hq => (keepsStake_iff hs).mpr hq

open Genesis (alice bob twoAccounts twoAccounts_database) in
/-- The sums agree while a voter freezes tokens and puts them on a static vote. -/
theorem voteall_sum_votestatic :
    Always push VoteallIsSum twoAccounts.database [
      .byActor 10 alice (.system (.freeze alice (core 10000000000))),
      .byActor 11 bob (.system (.bppawn bob (core 500000000))),
      .byActor 12 alice (.system (.votestatic alice bob (core 10000000000) 0))] := by
  refine ((voteall_sum_iff twoAccounts_database _).mpr ?_).1
  exact ⟨fun _ _ => nofun, fun _ _ => nofun, fun _ _ => nofun, trivial⟩

open Genesis (alice bob twoAccounts twoAccounts_database) in
/-- A voter puts tokens on a static vote and quits it: the votes are gone, but not the amount on
votes. -/
theorem voteall_ne_sum_after_quitsvote :
    twoAccounts.initializeDatabase = .ok twoAccounts.database ∧
      ¬ VoteallIsSum (run push twoAccounts.database [
        .byActor 10 alice (.system (.freeze alice (core 10000000000))),
        .byActor 11 bob (.system (.bppawn bob (core 500000000))),
        .byActor 12 alice (.system (.votestatic alice bob (core 10000000000) 0)),
        .byActor 9000000 alice (.system (.quitsvote alice bob 0))]) := by
  refine ⟨twoAccounts_database, fun h => ?_⟩
  have hsum := h alice
  revert hsum
  decide +kernel

end BaccChain
