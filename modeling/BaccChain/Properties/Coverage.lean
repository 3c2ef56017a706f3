import BaccChain.Chain.Effects
import BaccChain.Chain.Genesis

/-!
# Locked tokens are covered by the balance

What a voter has frozen, unstaking or on votes is locked in the voter's balance.

## Main definitions

* `Covered`: locked tokens are in the balance
* `CoversStep`: what an action has to leave

## Main results

* `always_covered_iff`: when this is always so
* `not_covered_after_quitsvote`: when it is not
-/

namespace BaccChain

open Commons (run Along Always always_iff_along)
open Asset (core core_amount)

/-- **Coverage**: every voter with a row of frozen tokens has a core balance of at least what is
staked, unstaking and on votes. -/
def Covered (d : Db) : Prop :=
  ∀ v f, d.freezed.find () v = some f →
    f.staked.amount + f.unstaking.amount + d.voteall v ≤ d.coreBalance v

/-- A row that counts for nothing. -/
structure VoteInfo.Idle (r : VoteInfo) : Prop where
  vote : r.vote.amount = 0
  votepower : r.votepower.amount = 0
  voteage : r.voteage = 0
  staticVotes : r.staticVotes = []

/-- Who has no row of frozen tokens has no votes. -/
def LockInv (d : Db) : Prop :=
  ∀ v, d.freezed.find () v = none →
    d.voteall v = 0 ∧ ∀ k r, d.votes.find v k = some r → r.Idle

/-- The reward that is due. -/
def Db.pendingReward (d : Db) (voter bpname : Name) (height : Nat) : Int :=
  match d.bps.find () bpname, (d.voteRow voter bpname).newestVoteage height with
  | some b, .ok age => wrap64 ((b.rewardsPool.amount * age).tdiv (b.newestTotalVoteage height))
  | _, _ => 0

def Db.revotable (d : Db) (voter bpname : Name) (height : Nat) : Int :=
  d.pendingReward voter bpname height - (d.pendingReward voter bpname height).tmod 100000

/-- The condition on an action under which locks stay covered: the balance also covers the vote
that `quitsvote` quits and the reward that `votebyreward` turns into a vote. -/
def CoversAction (height : Nat) (d : Db) : SystemAction → Prop
  | .quitsvote voter bpname idx =>
    d.locked voter + d.quitAmount voter bpname idx ≤ d.coreBalance voter
  | .votebyreward voter bpname =>
    d.locked voter + d.revotable voter bpname height ≤ d.coreBalance voter
  | _ => True

/-- The condition for a step. -/
def CoversStep (d : Db) (s : Step) : Prop :=
  match s.act.data with
  | .system a => CoversAction s.world.blockNum d a
  | .token _ => True

/-! ## Voters without frozen tokens -/

theorem VoteInfo.Idle.newestVoteage {r : VoteInfo} (h : r.Idle) {height : Nat} {age : Int}
    (hage : r.newestVoteage height = .ok age) : age = 0 := by
  simp only [VoteInfo.newestVoteage, voteageAddon, h.staticVotes, List.foldlM_nil,
    Commons.bind_eq_ok, Commons.pure_eq_ok, Asset.mul_eq_ok, and_assoc, exists_and_left,
    exists_eq_left] at hage
  obtain ⟨-, -, rfl⟩ := hage
  rw [h.votepower, h.voteage]
  simp

namespace LockInv

open SystemContract

variable {d d' : Db} {voter bpname : Name} {r : VoteInfo} {b : BpInfo}

theorem congr (h : LockInv d) (hf : d'.freezed = d.freezed) (hv : d'.votes = d.votes)
    (hw : d'.voterinfo = d.voterinfo) : LockInv d' := by
  unfold LockInv Db.voteall
  rw [hf, hv, hw]
  exact h

theorem change (h : LockInv d) (hc : VoteChange d d' voter bpname r b)
    (hvoter : d.freezed.find () voter = none → d'.freezed.find () voter = none →
      d'.voteall voter = 0 ∧ r.Idle) : LockInv d' := by
  intro v hv
  by_cases hne : v = voter
  · subst hne
    have hd : d.freezed.find () v = none := by
      by_contra hsome
      have := hc.freezed_isSome (Option.isSome_iff_ne_none.mpr hsome)
      rw [hv] at this
      cases this
    obtain ⟨hall, hr⟩ := hvoter hd hv
    refine ⟨hall, fun k r' hr' => ?_⟩
    by_cases hk : k = bpname
    · subst hk
      obtain rfl : r = r' := Option.some.inj (hc.votes.find_self.symm.trans hr')
      exact hr
    · rw [hc.votes_of_ne fun e => hk e.2] at hr'
      exact (h v hd).2 k r' hr'
  · rw [hc.freezed_of_ne hne] at hv
    rw [hc.voteall_of_ne hne]
    refine ⟨(h v hv).1, fun k r' hr' => ?_⟩
    rw [hc.votes_of_ne fun e => hne e.1] at hr'
    exact (h v hv).2 k r' hr'

theorem voteRow_idle (h : LockInv d) (bpname : Name) (hv : d.freezed.find () voter = none) :
    (d.voteRow voter bpname).Idle := by
  unfold Db.voteRow
  cases hr : d.votes.find voter bpname with
  | none => exact ⟨rfl, rfl, rfl, rfl⟩
  | some r => exact (h voter hv).2 bpname r hr

theorem handle {a : SystemAction} {e : Env} {c c' : Ctx} (hc : handle a e c = .ok ((), c'))
    (h : LockInv c.db) : LockInv c'.db := by
  cases a with
  | freeze voter =>
    obtain ⟨-, -, f, t, hw, hdb, -⟩ := freeze_eq_ok hc
    rw [hdb]
    intro v hv
    have hne : ¬ (() = () ∧ v = voter) := by
      rintro ⟨-, rfl⟩
      rw [show ({ c.db with freezed := t } : Db).freezed = t from rfl, hw.find_self] at hv
      cases hv
    exact h v ((hw.find_of_ne hne).symm.trans hv)
  | vote voter bpname stake =>
    obtain ⟨-, -, hamount, b, -, hchange, -, -, hvoteall, hgrow, -, -⟩ := vote_eq_ok hc
    refine h.change hchange fun hnone _ => ?_
    have hidle := h.voteRow_idle bpname hnone
    rw [hidle.vote, sub_zero] at hgrow hvoteall
    have hzero : stake.amount = 0 := by
      by_contra hpos
      have := (hgrow (by omega)).1
      rw [hnone] at this
      cases this
    refine ⟨by rw [hvoteall, (h voter hnone).1, hzero, add_zero], ?_⟩
    refine ⟨hzero, by simp [revote, hzero], ?_, hidle.staticVotes⟩
    simp [revote, hidle.vote, hidle.voteage]
  | votebyreward voter bpname =>
    obtain ⟨-, -, b, vts, info, b', r, -, hvts, hinfo, -, -, hchange, -⟩ := votebyreward_eq_ok hc
    refine h.change hchange fun hnone _ => ?_
    obtain ⟨-, -, hage, hreward, hpos, -⟩ := claimInfo_eq_ok hinfo
    rw [hreward, ((h voter hnone).2 bpname vts hvts).newestVoteage hage] at hpos
    simp at hpos
  | votestatic =>
    obtain ⟨-, -, -, -, -, b, r, n, -, -, hchange, -, -, -, hsome, -⟩ := votestatic_eq_ok hc
    refine h.change hchange fun hnone _ => ?_
    rw [hnone] at hsome
    cases hsome.1
  | quitsvote voter bpname =>
    obtain ⟨-, b, vts, sv, sv', -, hvts, hidx, -, -, hchange, -⟩ := quitsvote_eq_ok hc
    refine h.change hchange fun hnone _ => ?_
    rw [((h voter hnone).2 bpname vts hvts).staticVotes] at hidx
    cases hidx
  | claim voter bpname =>
    obtain ⟨-, b, vts, info, b', -, hvts, -, -, hchange, -, hvoterinfo, -⟩ := claim_eq_ok hc
    refine h.change hchange fun hnone _ => ?_
    obtain ⟨hall, hrows⟩ := h voter hnone
    have hidle := hrows bpname vts hvts
    refine ⟨by rw [Db.voteall, hvoterinfo]; exact hall, hidle.vote, hidle.votepower, rfl, ?_⟩
    simp [settleVotes, settleStaticVotes, hidle.staticVotes]
  | _ =>
    obtain ⟨hf, hv, hw⟩ := (handle_frame hc).1.voting rfl
    exact h.congr hf hv hw

theorem push {s : Step} (h : LockInv d) (hs : push s d = .ok d') : LockInv d' := by
  refine push_induction LockInv (fun e d d' heffect h => ?_) (fun a c _ hc h => h.handle hc) hs h
  rw [heffect.frame]
  exact h

theorem initial {g : Genesis} (hg : g.Initial d) : LockInv d := by
  rw [hg.frame]
  exact fun v _ => ⟨rfl, fun k r hr => by cases hr⟩

end LockInv

/-! ## Coverage -/

namespace Covered

open SystemContract

variable {d d' : Db}

theorem locked_le (h : Covered d) {v : Name} (hv : d.freezed.find () v ≠ none) :
    d.locked v ≤ d.coreBalance v := by
  obtain ⟨f, hf⟩ := Option.ne_none_iff_exists'.mp hv
  unfold Db.locked Db.staked Db.unstaking
  rw [if_neg hv, MultiIndex.weightAt_of_find hf, MultiIndex.weightAt_of_find hf]
  exact h v f hf

theorem of_locked_le (h : ∀ v, d.freezed.find () v ≠ none → d.locked v ≤ d.coreBalance v) :
    Covered d := by
  intro v f hf
  have hv : d.freezed.find () v ≠ none := by simp [hf]
  have hle := h v hv
  unfold Db.locked Db.staked Db.unstaking at hle
  rw [if_neg hv, MultiIndex.weightAt_of_find hf, MultiIndex.weightAt_of_find hf] at hle
  exact hle

variable {e : Env} {voter bpname : Name} {b : BpInfo} {c c' : Ctx}

theorem effect (he : Token.Effect e d d') (h : Covered d) : Covered d' := by
  refine of_locked_le fun v hv => ?_
  have hlocked : d'.locked v = d.locked v := by rw [he.frame]; rfl
  have hle := h.locked_le (v := v) (by rw [he.frame] at hv; exact hv)
  rw [hlocked]
  rcases he.le_coreBalance v with hge | hge
  · exact hle.trans hge
  · exact hge

theorem change_iff {r : VoteInfo} (h : Covered d) (hc : VoteChange d d' voter bpname r b) :
    Covered d' ↔ (d'.freezed.find () voter ≠ none → d'.locked voter ≤ d'.coreBalance voter) := by
  refine ⟨fun h' hv => h'.locked_le hv, fun hvoter => of_locked_le fun v hv => ?_⟩
  by_cases hne : v = voter
  · subst hne
    exact hvoter hv
  · rw [hc.freezed_of_ne hne] at hv
    have hbalance : d'.coreBalance v = d.coreBalance v := by rw [hc.frame]; rfl
    have hlocked : d'.locked v = d.locked v := by
      unfold Db.locked
      rw [hc.freezed_of_ne hne, hc.staked_of_ne hne, hc.unstaking_of_ne hne, hc.voteall_of_ne hne]
    rw [hbalance, hlocked]
    exact h.locked_le hv

theorem change_iff_of_some {r : VoteInfo} (h : Covered d) (hc : VoteChange d d' voter bpname r b)
    (hsome : d.freezed.find () voter ≠ none) :
    Covered d' ↔
      d'.staked voter + d'.unstaking voter + d'.voteall voter ≤ d.coreBalance voter := by
  have hsome' : d'.freezed.find () voter ≠ none :=
    Option.isSome_iff_ne_none.mp (hc.freezed_isSome (Option.isSome_iff_ne_none.mpr hsome))
  have hbalance : d'.coreBalance voter = d.coreBalance voter := by rw [hc.frame]; rfl
  rw [h.change_iff hc, Db.locked, if_neg hsome', hbalance]
  exact ⟨fun h => h hsome', fun h _ => h⟩

theorem quitsvote_iff {idx : Nat} (hc : quitsvote voter bpname idx e c = .ok ((), c'))
    (hlock : LockInv c.db) (h : Covered c.db) :
    Covered c'.db ↔
      c.db.locked voter + c.db.quitAmount voter bpname idx ≤ c.db.coreBalance voter := by
  obtain ⟨-, b, vts, sv, sv', -, hvts, hidx, -, -, hchange, hstaked, hunstaking, hvoteall, -⟩ :=
    quitsvote_eq_ok hc
  have hsome : c.db.freezed.find () voter ≠ none := by
    intro hnone
    rw [((hlock voter hnone).2 bpname vts hvts).staticVotes] at hidx
    cases hidx
  rw [h.change_iff_of_some hchange hsome, hstaked, hunstaking, hvoteall, Db.locked, if_neg hsome,
    Db.quitAmount_eq hvts hidx]
  constructor <;> intro <;> omega

theorem pendingReward_eq {vts : VoteInfo} {height : Nat} {info : ClaimInfo}
    (hb : d.bps.find () bpname = some b) (hvts : d.votes.find voter bpname = some vts)
    (hinfo : claimInfo b vts height = .ok info) :
    d.pendingReward voter bpname height = info.reward.amount := by
  obtain ⟨htotal, -, hage, hreward, -, -⟩ := claimInfo_eq_ok hinfo
  rw [Db.pendingReward, Db.voteRow, hb, hvts, Option.getD_some, hage, hreward, htotal]
  rfl

theorem votebyreward_iff (hc : votebyreward voter bpname e c = .ok ((), c'))
    (hlock : LockInv c.db) (h : Covered c.db) :
    Covered c'.db ↔
      c.db.locked voter + c.db.revotable voter bpname e.world.blockNum ≤
        c.db.coreBalance voter := by
  obtain ⟨-, -, b, vts, info, b', r, hb, hvts, hinfo, -, -, hchange, hfreezed, hvoteall, -⟩ :=
    votebyreward_eq_ok hc
  have hsome : c.db.freezed.find () voter ≠ none := by
    intro hnone
    obtain ⟨-, -, hage, hreward, hpos, -⟩ := claimInfo_eq_ok hinfo
    rw [hreward, ((hlock voter hnone).2 bpname vts hvts).newestVoteage hage] at hpos
    simp at hpos
  have hrevotable : c.db.revotable voter bpname e.world.blockNum = rewardAllOf info := by
    rw [Db.revotable, pendingReward_eq hb hvts hinfo, rewardAllOf]
  have hstaked : c'.db.staked voter = c.db.staked voter := by rw [Db.staked, hfreezed]; rfl
  have hunstaking : c'.db.unstaking voter = c.db.unstaking voter := by
    rw [Db.unstaking, hfreezed]; rfl
  rw [h.change_iff_of_some hchange hsome, hstaked, hunstaking, hvoteall, hrevotable, Db.locked,
    if_neg hsome]
  constructor <;> intro <;> omega

theorem handle_iff {a : SystemAction} (hc : handle a e c = .ok ((), c')) (hlock : LockInv c.db)
    (h : Covered c.db) : Covered c'.db ↔ CoversAction e.world.blockNum c.db a := by
  cases a with
  | quitsvote => exact quitsvote_iff hc hlock h
  | votebyreward => exact votebyreward_iff hc hlock h
  | freeze =>
    refine iff_of_true ?_ trivial
    obtain ⟨-, -, f, t, hw, hdb, hstaked, -, hle, -⟩ := freeze_eq_ok hc
    rw [hdb]
    intro v f' hf'
    rw [show ({ c.db with freezed := t } : Db).freezed = t from rfl, hw.find] at hf'
    split_ifs at hf' with hv
    · obtain ⟨-, rfl⟩ := hv
      cases hf'
      rw [hstaked]
      show _ + _ + c.db.voteall v ≤ c.db.coreBalance v
      omega
    · exact h v f' hf'
  | vote voter bpname =>
    refine iff_of_true ?_ trivial
    obtain ⟨-, -, hamount, b, -, hchange, hstaked, hunstaking, hvoteall, -, hstays, -⟩ :=
      vote_eq_ok hc
    by_cases hnone : c.db.freezed.find () voter = none
    · have hidle := hlock.voteRow_idle bpname hnone
      rw [hidle.vote, sub_zero] at hstays
      rw [h.change_iff hchange]
      exact fun hsome => absurd (hstays (by omega) hnone) hsome
    · have hle := h.locked_le hnone
      rw [Db.locked, if_neg hnone] at hle
      rw [h.change_iff_of_some hchange hnone, hstaked, hunstaking, hvoteall]
      omega
  | votestatic =>
    refine iff_of_true ?_ trivial
    obtain ⟨-, -, -, -, -, b, r, n, -, -, hchange, hstaked, hunstaking, hvoteall, hsome, -⟩ :=
      votestatic_eq_ok hc
    have hne := Option.isSome_iff_ne_none.mp hsome.1
    have hle := h.locked_le hne
    rw [Db.locked, if_neg hne] at hle
    rw [h.change_iff_of_some hchange hne, hstaked, hunstaking, hvoteall]
    omega
  | claim voter =>
    refine iff_of_true ?_ trivial
    obtain ⟨-, b, vts, info, b', -, -, -, -, hchange, hfreezed, hvoterinfo, -⟩ := claim_eq_ok hc
    rw [h.change_iff hchange]
    intro hsome
    rw [hfreezed] at hsome
    have hlocked : c'.db.locked voter = c.db.locked voter := by
      unfold Db.locked Db.staked Db.unstaking Db.voteall
      rw [hfreezed, hvoterinfo]
    have hbalance : c'.db.coreBalance voter = c.db.coreBalance voter := by
      rw [hchange.frame]
      rfl
    rw [hlocked, hbalance]
    exact h.locked_le hsome
  | _ =>
    refine iff_of_true ?_ trivial
    have hframe := (handle_frame hc).1
    obtain ⟨hf, hv, hw⟩ := hframe.voting rfl
    unfold Covered Db.voteall Db.coreBalance Db.balance
    rw [hf, hw, hframe.accounts]
    exact h

end Covered

open SystemContract in
theorem covered_push_iff {d d' : Db} {s : Step} (hlock : LockInv d) (h : Covered d)
    (hs : push s d = .ok d') : Covered d' ↔ CoversStep d s := by
  obtain ⟨w, ⟨auths, data⟩⟩ := s
  cases data with
  | token =>
    exact iff_of_true (exec_induction_token Covered (fun _ _ _ => Covered.effect) hs h) trivial
  | system a =>
    obtain ⟨c, depth, hc, -, hpay, hfold⟩ := exec_system hs
    have hiff : Covered c.db ↔ CoversAction w.blockNum d a := Covered.handle_iff hc hlock h
    have hfwd : Covered c.db → Covered d' :=
      payments_induction Covered (fun _ _ _ => Covered.effect) hpay hfold
    refine ⟨fun h' => ?_, fun hP => hfwd (hiff.mpr hP)⟩
    have hback : c.inlineActions = [] → CoversAction w.blockNum d a := by
      intro hnil
      rw [hnil] at hfold
      rw [← Except.ok.inj hfold] at h'
      exact hiff.mp h'
    cases a with
    | quitsvote => exact hback (handle_silent hc rfl)
    | votebyreward => exact hback (handle_silent hc rfl)
    | _ => trivial

/-- **Lock coverage.** From genesis, along every run of actions of both contracts, the balances
cover the locks in every state exactly if every accepted `quitsvote` and `votebyreward` of the run
finds a balance that also covers the vote it quits or the reward it turns into a vote. -/
theorem always_covered_iff {g : Genesis} {d₀ : Db} (hg : g.initializeDatabase = .ok d₀)
    (steps : List Step) : Always push Covered d₀ steps ↔ Along push CoversStep d₀ steps := by
  have hinit := Genesis.initializeDatabase_eq_ok hg
  refine always_iff_along (J := LockInv) (fun d s d' h _ hs => h.push hs)
    (fun d s d' hlock h hs => covered_push_iff hlock h hs) (.initial hinit) ?_
  rw [hinit.frame]
  exact fun v f hf => by cases hf

open Genesis (alice bob twoAccounts twoAccounts_database) in
/-- Locks stay covered while a voter freezes all its tokens and puts them on a static vote. -/
theorem always_covered_votestatic :
    Always push Covered twoAccounts.database [
      .byActor 10 alice (.system (.freeze alice (core 10000000000))),
      .byActor 11 bob (.system (.bppawn bob (core 500000000))),
      .byActor 12 alice (.system (.votestatic alice bob (core 10000000000) 0))] :=
  (always_covered_iff twoAccounts_database _).mpr
    ⟨fun _ _ => trivial, fun _ _ => trivial, fun _ _ => trivial, trivial⟩

open Genesis (alice bob twoAccounts twoAccounts_database) in
/-- A voter freezes all its tokens, puts them on a static vote and quits it: the frozen stake is
back, and the amount on votes has not changed. -/
theorem not_covered_after_quitsvote :
    twoAccounts.initializeDatabase = .ok twoAccounts.database ∧
      ¬ Covered (run push twoAccounts.database [
        .byActor 10 alice (.system (.freeze alice (core 10000000000))),
        .byActor 11 bob (.system (.bppawn bob (core 500000000))),
        .byActor 12 alice (.system (.votestatic alice bob (core 10000000000) 0)),
        .byActor 9000000 alice (.system (.quitsvote alice bob 0))]) := by
  refine ⟨twoAccounts_database, fun h => ?_⟩
  have hle := h.locked_le (v := alice) (by decide +kernel)
  revert hle
  decide +kernel

end BaccChain
