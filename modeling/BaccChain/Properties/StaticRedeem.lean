import BaccChain.Chain.Effects
import BaccChain.Chain.Genesis

/-!
# Redeeming static votes

`quitsvote` brings the age of a static vote up to date before it returns the stake: it multiplies
the power of the vote by the blocks since the age was last settled, and the product must stay below
`2^62`.

## Main definitions

* `Placement`: a static vote and its lock
* `Redeemable`: what its history leaves of it

## Main results

* `quitsvote_avoids_iff`: when its redemption does not overflow
* `quitsvote_overflow_unfrozen`: when it does
-/

namespace BaccChain

open Commons (Avoids avoids_ok advance advance_of_ok run withGhost withGhost_eq_ok
  run_withGhost_fst run_induction along_of_forall)
open Commons.Program
open Asset (core core_amount)

/-! ## Definitions -/

def Asset.arithmeticErrors : List String := [
  "magnitude of asset amount must be less than 2^62",
  "attempt to add asset with different symbol", "addition underflow", "addition overflow",
  "attempt to subtract asset with different symbol", "subtraction underflow",
  "subtraction overflow", "multiplication overflow", "multiplication underflow",
  "divide by zero", "signed division overflow",
  "comparison of assets with different symbols is not allowed"]

/-- The voter takes its rewards. -/
def Step.Collects (voter : Name) (t : Step) : Prop :=
  ∃ bpname, t.act.data = .system (.claim voter bpname) ∨
    t.act.data = .system (.votebyreward voter bpname)

def Step.settles (voter bpname : Name) (t : Step) (height : Nat) : Nat :=
  match t.act.data with
  | .system (.claim v k) | .system (.votebyreward v k) =>
    if v = voter ∧ k = bpname then t.world.blockNum else height
  | _ => height

/-- The height at which the votes for a producer were last settled in a history, if they were
settled at `height` before it. -/
def settledAt (voter bpname : Name) (d : Db) (height : Nat) (history : List Step) : Nat :=
  (run (withGhost push (Step.settles voter bpname)) (d, height) history).2

/-- The recorded total is an amount of the core token. -/
structure VoterInfo.InRange (w : VoterInfo) : Prop where
  symbol : w.voteall.symbol = coreSymbol
  nonneg : 0 ≤ w.voteall.amount
  le : w.voteall.amount ≤ Asset.maxAmount

namespace SystemContract

def staticVoteLock (typ : Nat) : Nat := (staticVoteData.getD typ (0, 0)).1 * blockNumPerDay

end SystemContract

open SystemContract

/-- A vote for a fixed term that was placed. -/
structure Placement where
  voter : Name
  bpname : Name
  stake : Asset
  typ : Nat
  height : Nat

def Placement.item (p : Placement) (settled : Nat) : VoteInfoItem where
  vote := p.stake
  votepower := ⟨p.stake.amount * staticVotePower p.typ, p.stake.symbol⟩
  votepowerAgeUpdateHeight := settled
  unfreezeBlockNum := add32 p.height (staticVoteLock p.typ)
  freezeBlockNum := staticVoteLock p.typ

/-- **A static vote that waits to be quit**: it is the last one of its row and was settled at
`settled`. -/
structure Redeemable (p : Placement) (staked : Int) (d : Db) (settled : Nat) : Prop where
  symbol : p.stake.symbol = coreSymbol
  nonneg : 0 ≤ p.stake.amount
  staked_low : -Asset.maxAmount ≤ staked - p.stake.amount
  producer : d.bps.find () p.bpname ≠ none
  vote : ∃ vts rest, d.votes.find p.voter p.bpname = some vts ∧
    vts.staticVotes = rest ++ [p.item settled]
  frozen : ∃ f, d.freezed.find () p.voter = some f ∧ f.staked = core (staked - p.stake.amount)
  voteall : ∃ w, d.voterinfo.find () p.voter = some w ∧ w.InRange

/-! ## Placing a static vote -/

namespace SystemContract

variable {e : Env} {c c' : Ctx} {u : Unit} {voter bpname : Name} {stake : Asset}

theorem updateVoterInfo_inRange {change : Asset} (hsym : change.symbol = coreSymbol)
    (hpos : 0 ≤ change.amount) (hmax : change.amount ≤ Asset.maxAmount)
    (h : updateVoterInfo voter change e c = .ok (u, c')) :
    ∃ w, c'.db.voterinfo.find () voter = some w ∧ w.InRange := by
  simp only [updateVoterInfo, ran_iff, calls_iff, voterTable_get] at h
  cases hrow : c.db.voterinfo.find () voter with
  | none =>
    simp only [hrow] at h
    obtain ⟨-, t, ram, hw, rfl⟩ := emplace_eq_ok h
    exact ⟨_, hw.find_self, hsym, hpos, hmax⟩
  | some vt =>
    simp only [hrow, ran_iff, calls_iff, Asset.add_eq_ok, Asset.ge_eq_ok, core_amount] at h
    obtain ⟨hsame, -, hle, hcore, x, hx, hge, h⟩ := h
    obtain ⟨b', c₁, hu, t, ram, hw, rfl⟩ := modifyRow_of_find h hrow
    simp only [ran_iff, Asset.add_eq_ok] at hu
    obtain ⟨-, -, -, rfl, rfl⟩ := hu
    exact ⟨_, hw.find_self, hcore, hx.mp hge, hle⟩

theorem takeFromFreezes_core (hsym : stake.symbol = coreSymbol)
    (h : takeFromFreezes voter stake e c = .ok (u, c')) :
    -Asset.maxAmount ≤ c.db.staked voter - stake.amount ∧
      ∃ f, c'.db.freezed.find () voter = some f ∧
        f.staked = core (c.db.staked voter - stake.amount) := by
  simp only [takeFromFreezes, ran_iff, calls_iff, freezedTable_get] at h
  unfold Db.staked
  cases hrow : c.db.freezed.find () voter with
  | none =>
    simp only [hrow] at h
    exact absurd h Commons.Program.fail_ne_ok
  | some fts =>
    simp only [hrow, ran_iff, calls_iff, Asset.ge_eq_ok] at h
    obtain ⟨hsame, x, hx, hle, h⟩ := h
    obtain ⟨b', c₁, hu, t, ram, hw, rfl⟩ := modifyRow_of_find h hrow
    simp only [ran_iff, Asset.sub_eq_ok] at hu
    obtain ⟨-, hlow, -, rfl, rfl⟩ := hu
    rw [MultiIndex.weightAt_of_find hrow]
    refine ⟨hlow, _, hw.find_self, ?_⟩
    show (⟨fts.staked.amount - stake.amount, fts.staked.symbol⟩ : Asset) = _
    rw [hsame, hsym]
    rfl

theorem redeemable_of_votestatic {typ : Nat}
    (h : votestatic voter bpname stake typ e c = .ok (u, c')) :
    Redeemable ⟨voter, bpname, stake, typ, e.world.blockNum⟩ (c.db.staked voter) c'.db
      e.world.blockNum := by
  simp only [votestatic, ran_iff, calls_iff, Asset.mul_eq_ok] at h
  obtain ⟨-, -, htyp, hsym, hpos, -, bp, hbp, -, c₁, hpawn, c₂, htake, c₃, hadd, c₄, hinfo,
    hfits, -, hbpvote⟩ := h
  obtain rfl := checkPawn_eq_ok hpawn
  obtain ⟨hlow, f, hf, hstaked⟩ := takeFromFreezes_core hsym htake
  obtain ⟨-, -, -, tf, ram, -, rfl, -, -⟩ := takeFromFreezes_eq_ok htake
  obtain ⟨r, tv, ram₁, hr, hwv, rfl⟩ := addStaticVote_eq_ok hadd
  have hmax : stake.amount ≤ Asset.maxAmount := by
    have hpower : ∀ n < staticVoteData.length, 1 ≤ (staticVoteData.getD n (0, 0)).2 := by decide
    have hle : (1 : Int) ≤ ((staticVoteData.getD typ (0, 0)).2 : Nat) := by
      exact_mod_cast hpower typ htyp
    exact (le_mul_of_one_le_right hpos hle).trans hfits
  obtain ⟨w, hw, hrange⟩ := updateVoterInfo_inRange hsym hpos hmax hinfo
  obtain ⟨-, tw, ram₂, -, rfl, -⟩ := updateVoterInfo_eq_ok hinfo
  obtain ⟨b, tb, ram₃, hb, hwb, rfl⟩ := modifyBpVote_eq_ok hbpvote
  refine ⟨hsym, hpos, hlow, ?_, ⟨r, (c₁.db.voteRow voter bpname).staticVotes, hwv.find_self, ?_⟩,
    ⟨f, hf, hstaked⟩, ⟨w, hw, hrange⟩⟩
  · rw [hwb.find_self]
    exact Option.some_ne_none _
  · rw [appendStaticVote_eq_ok hr]
    rfl

end SystemContract

/-! ## Collecting rewards -/

variable {sv : VoteInfoItem}

namespace SystemContract

theorem settleStaticVotes_snoc (rest : List VoteInfoItem) (hsv : sv.isHasQuited = false) (n : Nat) :
    ∃ rest', settleStaticVotes (rest ++ [sv]) n =
      rest' ++ [{ sv with votepowerAge := 0, votepowerAgeUpdateHeight := n }] := by
  simp only [settleStaticVotes, List.map_append, List.map_cons, List.map_nil]
  split_ifs
  · rw [List.filter_append]
    exact ⟨_, congrArg _ (by simp [hsv])⟩
  · exact ⟨_, rfl⟩

variable {e : Env} {c c' : Ctx} {u : Unit} {voter bpname : Name}

theorem votebyreward_inRange (h : votebyreward voter bpname e c = .ok (u, c')) :
    ∃ w, c'.db.voterinfo.find () voter = some w ∧ w.InRange := by
  simp only [votebyreward, ran_iff, calls_iff, Asset.ofAmount_eq_ok, Asset.div_eq_ok] at h
  obtain ⟨-, bp, -, -, -, vts, -, info, hinfo, -, hmax, -, -, c₁, -, c₂, -, c₃, hvoter,
    hbpvote⟩ := h
  obtain ⟨-, -, -, -, hpos, -⟩ := claimInfo_eq_ok hinfo
  have hnonneg : 0 ≤ info.reward.amount - info.reward.amount.tmod 100000 := by
    rw [Int.tmod_eq_emod_of_nonneg hpos.le]
    omega
  obtain ⟨w, hw, hrange⟩ := updateVoterInfo_inRange rfl hnonneg hmax hvoter
  obtain ⟨-, -, -, -, -, rfl⟩ := modifyBpVote_eq_ok hbpvote
  exact ⟨w, hw, hrange⟩

end SystemContract

variable {n : Nat} {vts : VoteInfo} {b : BpInfo}

namespace Redeemable

variable {p : Placement} {staked : Int} {d d' : Db} {settled : Nat}

variable {e : Env}

theorem effect (he : Token.Effect e d d') (h : Redeemable p staked d settled) :
    Redeemable p staked d' settled := by
  rw [he.frame]
  exact ⟨h.symbol, h.nonneg, h.staked_low, h.producer, h.vote, h.frozen, h.voteall⟩

variable {k : Name}

theorem change {r : VoteInfo} (h : Redeemable p staked d settled)
    (hvts : d.votes.find p.voter k = some vts)
    (hr : r.staticVotes = settleStaticVotes vts.staticVotes n)
    (hchange : VoteChange d d' p.voter k r b) (hfreezed : d'.freezed = d.freezed)
    (hvoteall : ∃ w, d'.voterinfo.find () p.voter = some w ∧ w.InRange) :
    Redeemable p staked d' (if k = p.bpname then n else settled) := by
  refine ⟨h.symbol, h.nonneg, h.staked_low, hchange.bps.find_ne_none h.producer, ?_, ?_, hvoteall⟩
  · obtain ⟨v, rest, hv, hrest⟩ := h.vote
    by_cases hk : k = p.bpname
    · subst hk
      obtain rfl : vts = v := Option.some.inj (hvts.symm.trans hv)
      have hopen : (p.item settled).isHasQuited = false := rfl
      obtain ⟨rest', hrest'⟩ := settleStaticVotes_snoc rest hopen n
      rw [if_pos rfl]
      exact ⟨r, rest', hchange.votes.find_self, by rw [hr, hrest, hrest']; rfl⟩
    · rw [if_neg hk]
      exact ⟨v, rest, (hchange.votes_of_ne fun hkey => hk hkey.2.symm).trans hv, hrest⟩
  · rw [hfreezed]
    exact h.frozen

variable {c' c : Ctx} {u : Unit}

theorem claim (h : Redeemable p staked c.db settled)
    (hc : SystemContract.claim p.voter k e c = .ok (u, c')) :
    Redeemable p staked c'.db (if k = p.bpname then e.world.blockNum else settled) := by
  obtain ⟨-, b, vts, info, b', -, hvts, -, -, hchange, hfreezed, hvoter, -⟩ := claim_eq_ok hc
  refine h.change hvts rfl hchange hfreezed ?_
  rw [hvoter]
  exact h.voteall

theorem votebyreward (h : Redeemable p staked c.db settled)
    (hc : SystemContract.votebyreward p.voter k e c = .ok (u, c')) :
    Redeemable p staked c'.db (if k = p.bpname then e.world.blockNum else settled) := by
  obtain ⟨-, -, b, vts, info, b', r, -, hvts, hinfo, -, hr, hchange, hfreezed, -⟩ :=
    votebyreward_eq_ok hc
  refine h.change hvts (by rw [revoteReward_eq_ok hr]; rfl) hchange hfreezed
    (votebyreward_inRange hc)

theorem push {t : Step} (h : Redeemable p staked d settled) (ht : t.Collects p.voter)
    (hs : BaccChain.push t d = .ok d') :
    Redeemable p staked d' (t.settles p.voter p.bpname settled) := by
  obtain ⟨w, ⟨auths, data⟩⟩ := t
  obtain ⟨k, rfl | rfl⟩ := ht
  · obtain ⟨c, depth, hc, -, hpay, hfold⟩ := exec_system hs
    have hnew := h.claim (c := { db := d, notified := [systemAccountName] }) hc
    simpa only [Step.settles, true_and] using
      payments_induction (fun x => Redeemable p staked x _) (fun _ _ _ => effect) hpay hfold hnew
  · obtain ⟨c, depth, hc, -, hpay, hfold⟩ := exec_system hs
    have hnew := h.votebyreward (c := { db := d, notified := [systemAccountName] }) hc
    simpa only [Step.settles, true_and] using
      payments_induction (fun x => Redeemable p staked x _) (fun _ _ _ => effect) hpay hfold hnew

theorem run {history : List Step} (h : Redeemable p staked d settled)
    (hhistory : ∀ t ∈ history, t.Collects p.voter) :
    Redeemable p staked (Commons.run BaccChain.push d history)
      (settledAt p.voter p.bpname d settled history) := by
  have hstep : ∀ x t x', Redeemable p staked x.1 x.2 → t.Collects p.voter →
      withGhost BaccChain.push (Step.settles p.voter p.bpname) t x = .ok x' →
      Redeemable p staked x'.1 x'.2 := by
    intro x t x' hx ht hs
    obtain ⟨hs, hsettled⟩ := withGhost_eq_ok.mp hs
    rw [hsettled]
    exact hx.push ht hs
  have hrun := run_induction (fun x => Redeemable p staked x.1 x.2) hstep (s := (d, settled)) h
    (along_of_forall hhistory)
  rw [run_withGhost_fst] at hrun
  exact hrun

end Redeemable

/-! ## Quitting a static vote -/

namespace SystemContract

variable {e : Env} {c c' : Ctx} {voter bpname : Name} {idx : Nat}

theorem quitsvote_run (hauth : e.HasAuth voter) (hb : c.db.bps.find () bpname = some b)
    (hvts : c.db.votes.find voter bpname = some vts) (hsv : vts.staticVotes[idx]? = some sv)
    (hquit : sv.isHasQuited = false) (hheight : sv.unfreezeBlockNum ≤ e.world.blockNum) :
    quitsvote voter bpname idx e c = (do
      addToFreezes voter sv.vote e.world.blockNum
      modifyBpVote bpname (-(sv.votepower.amount.tdiv 10000)) e.world.blockNum
      modifyRow votesTable voter bpname 0 fun v => liftM (quitStaticVote v idx e.world.blockNum)
      let vts ← findRow votesTable voter bpname
      updateVoterInfo voter ((staticVoteAt vts idx).elim (core 0) (·.vote)).neg :
        ContractM Unit) e c := by
  have hat : staticVoteAt (votesTable.get c.db |>.find voter bpname) idx = some sv := by
    rw [votesTable_get, hvts]
    exact hsv
  rw [quitsvote, bind_of_ok (requireAuth_eq_ok (u := ()) |>.mpr ⟨hauth, rfl⟩),
    bind_of_ok (currentBlockNum_eq_ok.mpr ⟨rfl, rfl⟩), bind_of_ok (getRow_eq_ok.mpr ⟨hb, rfl⟩),
    bind_of_ok (findRow_eq_ok.mpr ⟨rfl, rfl⟩)]
  simp only [hat]
  rw [bind_of_ok (eosioAssert_eq_ok (u := ()) |>.mpr ⟨by simp [hquit], rfl⟩),
    bind_of_ok (eosioAssert_eq_ok (u := ()) |>.mpr ⟨hheight, rfl⟩)]

variable {v : VoteInfo}

theorem exists_quitStaticVote (hsv : v.staticVotes[idx]? = some sv)
    (hmul : ∃ a, sv.votepower.mul (sub32 n sv.votepowerAgeUpdateHeight) = .ok a) :
    ∃ r, quitStaticVote v idx n = .ok r := by
  obtain ⟨a, ha⟩ := hmul
  simp only [quitStaticVote, hsv, quitItem, voteageAddon, ha, Commons.ok_bind]
  exact ⟨_, rfl⟩

variable {m : String}

theorem quitStaticVote_of_error (hsv : v.staticVotes[idx]? = some sv)
    (hmul : sv.votepower.mul (sub32 n sv.votepowerAgeUpdateHeight) = .error m) :
    quitStaticVote v idx n = .error m := by
  simp only [quitStaticVote, hsv, quitItem, voteageAddon, hmul]
  rfl

variable {f : FreezeInfo} {amount : Asset}

theorem exists_addToFreezes (he : isPrivileged e.receiver = true)
    (hf : c.db.freezed.find () voter = some f) (hadd : ∃ a, f.staked.add amount = .ok a) :
    ∃ c', addToFreezes voter amount n e c = .ok ((), c') := by
  obtain ⟨a, ha⟩ := hadd
  rw [addToFreezes, bind_of_ok (findRow_eq_ok.mpr ⟨rfl, rfl⟩)]
  simp only [freezedTable_get, hf]
  refine exists_modifyRow (.inl he) hf (bind_of_ok (lift_eq_ok.mpr ⟨ha, rfl⟩)) ?_
  rw [freezedTable_get, hf]
  exact Option.some_ne_none f

theorem addToFreezes_of_error (hf : c.db.freezed.find () voter = some f)
    (hadd : f.staked.add amount = .error m) : addToFreezes voter amount n e c = .error m := by
  rw [addToFreezes, bind_of_ok (findRow_eq_ok.mpr ⟨rfl, rfl⟩)]
  simp only [freezedTable_get, hf]
  exact modifyRow_of_error hf (bind_of_error (lift_of_error hadd))

theorem exists_modifyBpVote {stake : Int} (he : isPrivileged e.receiver = true)
    (hb : c.db.bps.find () bpname ≠ none) :
    ∃ c', modifyBpVote bpname stake n e c = .ok ((), c') := by
  obtain ⟨b, hb'⟩ := Option.ne_none_iff_exists'.mp hb
  exact exists_modifyRow (.inl he) hb' rfl hb

theorem exists_updateVoterInfo {w : VoterInfo} (he : isPrivileged e.receiver = true)
    (hw : c.db.voterinfo.find () voter = some w) (hrange : w.InRange) :
    ∃ c', updateVoterInfo voter (core 0).neg e c = .ok ((), c') := by
  have hadd : w.voteall.add (core 0).neg = .ok w.voteall := by
    have hle := hrange.le
    have hnonneg := hrange.nonneg
    refine Asset.add_eq_ok.mpr ⟨hrange.symbol.symm, ?_, ?_, ?_⟩
    · show -Asset.maxAmount ≤ w.voteall.amount + 0
      omega
    · show w.voteall.amount + 0 ≤ _
      omega
    · show w.voteall = ⟨w.voteall.amount + 0, _⟩
      rw [add_zero]
  have hge : w.voteall.ge (core 0) = .ok true :=
    Asset.ge_eq_ok.mpr ⟨hrange.symbol, iff_of_true rfl hrange.nonneg⟩
  rw [updateVoterInfo, bind_of_ok (findRow_eq_ok.mpr ⟨rfl, rfl⟩)]
  simp only [voterTable_get, hw]
  rw [bind_of_ok (lift_eq_ok.mpr ⟨hadd, rfl⟩), bind_of_ok (lift_eq_ok.mpr ⟨hge, rfl⟩),
    bind_of_ok (eosioAssert_eq_ok (u := ()) |>.mpr ⟨rfl, rfl⟩)]
  refine exists_modifyRow (.inl he) hw (bind_of_ok (lift_eq_ok.mpr ⟨hadd, rfl⟩)) ?_
  rw [voterTable_get, hw]
  exact Option.some_ne_none w

end SystemContract

namespace Redeemable

variable {p : Placement} {staked : Int} {e : Env} {c : Ctx} {settled idx : Nat}

variable {d : Db}

theorem staked_add (h : Redeemable p staked d settled) (hle : staked ≤ Asset.maxAmount) :
    (core (staked - p.stake.amount)).add p.stake = .ok (core staked) := by
  have hsum : (core (staked - p.stake.amount)).amount + p.stake.amount = staked :=
    sub_add_cancel _ _
  have hlow := h.staked_low
  have hnonneg := h.nonneg
  refine Asset.add_eq_ok.mpr ⟨h.symbol, ?_, ?_, ?_⟩
  · omega
  · omega
  · rw [hsum]
    rfl

theorem exists_row (h : Redeemable p staked d settled)
    (hidx : idx + 1 = (d.voteRow p.voter p.bpname).staticVotes.length) :
    ∃ vts, d.votes.find p.voter p.bpname = some vts ∧
      vts.staticVotes[idx]? = some (p.item settled) := by
  obtain ⟨vts, rest, hvts, hrest⟩ := h.vote
  refine ⟨vts, hvts, ?_⟩
  rw [Db.voteRow, hvts, Option.getD_some, hrest, List.length_append, List.length_singleton] at hidx
  obtain rfl : idx = rest.length := by omega
  rw [hrest, List.getElem?_concat_length]

variable (h : Redeemable p staked c.db settled) (he : isPrivileged e.receiver = true)
  (hauth : e.HasAuth p.voter)
  (hidx : idx + 1 = (c.db.voteRow p.voter p.bpname).staticVotes.length)
  (hheight : add32 p.height (staticVoteLock p.typ) ≤ e.world.blockNum)

include h he hauth hidx hheight

theorem quitsvote_reaches (hstaked : staked ≤ Asset.maxAmount) :
    ∃ c₁, c₁.db.votes = c.db.votes ∧ c₁.db.voterinfo = c.db.voterinfo ∧
      quitsvote p.voter p.bpname idx e c = (do
        modifyRow votesTable p.voter p.bpname 0 fun v =>
          liftM (quitStaticVote v idx e.world.blockNum)
        let vts ← findRow votesTable p.voter p.bpname
        updateVoterInfo p.voter ((staticVoteAt vts idx).elim (core 0) (·.vote)).neg :
          ContractM Unit) e c₁ := by
  obtain ⟨b, hb⟩ := Option.ne_none_iff_exists'.mp h.producer
  obtain ⟨vts, hvts, hsv⟩ := h.exists_row hidx
  obtain ⟨f, hf, hfstaked⟩ := h.frozen
  rw [quitsvote_run hauth hb hvts hsv rfl hheight]
  obtain ⟨c₁, hc₁⟩ : ∃ c₁, addToFreezes p.voter (p.item settled).vote e.world.blockNum e c =
      .ok ((), c₁) := exists_addToFreezes he hf ⟨_, hfstaked ▸ h.staked_add hstaked⟩
  obtain ⟨-, tf, ram, -, rfl, -, -⟩ := addToFreezes_eq_ok hc₁
  rw [bind_of_ok hc₁]
  obtain ⟨c₂, hc₂⟩ := exists_modifyBpVote (c := { c with
    db := { c.db with freezed := tf }, ramDeltas := ram }) he h.producer
  obtain ⟨-, tb, ram₁, -, -, rfl⟩ := modifyBpVote_eq_ok hc₂
  refine ⟨_, ?_, ?_, bind_of_ok hc₂⟩
  · rfl
  · rfl

theorem quitsvote_ok (hstaked : staked ≤ Asset.maxAmount)
    (hage : p.stake.amount * staticVotePower p.typ * sub32 e.world.blockNum settled ≤
      Asset.maxAmount) :
    ∃ c', quitsvote p.voter p.bpname idx e c = .ok ((), c') := by
  obtain ⟨vts, hvts, hsv⟩ := h.exists_row hidx
  obtain ⟨w, hw, hrange⟩ := h.voteall
  obtain ⟨c₁, hvotes, hvoters, hrest⟩ := h.quitsvote_reaches he hauth hidx hheight hstaked
  rw [hrest]
  have hmul : ∃ a, (p.item settled).votepower.mul (sub32 e.world.blockNum settled) = .ok a := by
    refine ⟨_, Asset.mul_eq_ok.mpr ⟨hage, ?_, rfl⟩⟩
    have hpos : 0 ≤ p.stake.amount * staticVotePower p.typ * sub32 e.world.blockNum settled :=
      mul_nonneg (mul_nonneg h.nonneg (Int.natCast_nonneg _)) (Int.natCast_nonneg _)
    have hmax : 0 ≤ Asset.maxAmount := by decide
    exact (neg_nonpos.mpr hmax).trans hpos
  obtain ⟨r, hr⟩ := exists_quitStaticVote hsv hmul
  have hrow : (votesTable.get c₁.db).find p.voter p.bpname = some vts := by
    rw [votesTable_get, hvotes]
    exact hvts
  have hkeep : (votesTable.get c₁.db).find p.voter p.bpname ≠ none := by
    rw [hrow]
    exact Option.some_ne_none vts
  obtain ⟨c₂, hc₂⟩ : ∃ c₂, modifyRow votesTable p.voter p.bpname 0
      (fun v => liftM (quitStaticVote v idx e.world.blockNum)) e c₁ = .ok ((), c₂) :=
    exists_modifyRow (.inl he) hrow (lift_eq_ok.mpr ⟨hr, rfl⟩) hkeep
  rw [bind_of_ok hc₂, bind_of_ok (findRow_eq_ok.mpr ⟨rfl, rfl⟩)]
  obtain ⟨r', hr', tv, ram, hwv, rfl⟩ := modifyRow_lift hc₂ hrow
  have hgone : (staticVoteAt (tv.find p.voter p.bpname) idx).elim (core 0) (·.vote) = core 0 := by
    rw [hwv.find_self]
    exact vote_of_quitStaticVote hsv hr'
  rw [← hvoters] at hw
  obtain ⟨c', hc'⟩ := exists_updateVoterInfo (c := { c₁ with
    db := { c₁.db with votes := tv }, ramDeltas := ram }) he hw hrange
  refine ⟨c', ?_⟩
  show updateVoterInfo p.voter
    ((staticVoteAt (tv.find p.voter p.bpname) idx).elim (core 0) (·.vote)).neg e _ = _
  rw [hgone]
  exact hc'

theorem quitsvote_overflow
    (hlarge : Asset.maxAmount < staked ∨ Asset.maxAmount <
      p.stake.amount * staticVotePower p.typ * sub32 e.world.blockNum settled) :
    ∃ m ∈ Asset.arithmeticErrors, quitsvote p.voter p.bpname idx e c = .error m := by
  obtain ⟨b, hb⟩ := Option.ne_none_iff_exists'.mp h.producer
  obtain ⟨vts, hvts, hsv⟩ := h.exists_row hidx
  obtain ⟨f, hf, hfstaked⟩ := h.frozen
  by_cases hstaked : staked ≤ Asset.maxAmount
  · have hage := hlarge.resolve_left (not_lt.mpr hstaked)
    obtain ⟨c₁, hvotes, -, hrest⟩ := h.quitsvote_reaches he hauth hidx hheight hstaked
    have hrow : (votesTable.get c₁.db).find p.voter p.bpname = some vts := by
      rw [votesTable_get, hvotes]
      exact hvts
    refine ⟨"multiplication overflow", by decide, ?_⟩
    rw [hrest]
    refine bind_of_error (modifyRow_of_error hrow (lift_of_error ?_))
    exact quitStaticVote_of_error hsv (Asset.mul_of_overflow hage)
  · refine ⟨"addition overflow", by decide, ?_⟩
    rw [quitsvote_run hauth hb hvts hsv rfl hheight]
    refine bind_of_error (addToFreezes_of_error hf ?_)
    rw [hfstaked]
    refine Asset.add_of_overflow h.symbol ?_
    show Asset.maxAmount < staked - p.stake.amount + p.stake.amount
    omega

end Redeemable

/-- **Redeeming a static vote.** A static vote that `votestatic` accepted is quit, at any height
from its unfreeze height on and after any history of collecting rewards, without an error of asset
arithmetic exactly if its power times the blocks since it was last settled is in the range of
assets, and the voter's frozen stake was in range before the vote. -/
theorem quitsvote_avoids_iff {d d₁ : Db} {s q : Step} {voter bpname : Name} {stake : Asset}
    {typ idx : Nat} {history : List Step} (hs : push s d = .ok d₁)
    (hvote : s.act.data = .system (.votestatic voter bpname stake typ))
    (hhistory : ∀ t ∈ history, t.Collects voter)
    (hquit : q.act.data = .system (.quitsvote voter bpname idx))
    (hauth : ∃ a ∈ q.act.authorization, a.actor = voter)
    (hidx : idx + 1 = ((run push d₁ history).voteRow voter bpname).staticVotes.length)
    (hheight : add32 s.world.blockNum (staticVoteLock typ) ≤ q.world.blockNum) :
    Avoids Asset.arithmeticErrors (push q (run push d₁ history)) ↔
      d.staked voter ≤ Asset.maxAmount ∧
        stake.amount * staticVotePower typ *
          sub32 q.world.blockNum (settledAt voter bpname d₁ s.world.blockNum history) ≤
            Asset.maxAmount := by
  obtain ⟨w, ⟨auths, data⟩⟩ := s
  obtain ⟨wq, ⟨qauths, qdata⟩⟩ := q
  obtain rfl : data = _ := hvote
  obtain rfl : qdata = _ := hquit
  have hplaced : Redeemable ⟨voter, bpname, stake, typ, w.blockNum⟩ (d.staked voter) d₁
      w.blockNum := by
    obtain ⟨c, depth, hc, -, hpay, hfold⟩ := exec_system hs
    exact payments_induction (fun x => Redeemable _ _ x _) (fun _ _ _ => Redeemable.effect) hpay
      hfold (redeemable_of_votestatic hc)
  have hafter := hplaced.run hhistory
  constructor
  · intro havoids
    by_contra hlarge
    rw [not_and_or, not_le, not_le] at hlarge
    obtain ⟨m, hm, herror⟩ := hafter.quitsvote_overflow (e := ⟨wq, systemAccountName, qauths⟩)
      (c := { db := run push d₁ history, notified := [systemAccountName] }) rfl hauth hidx hheight
      hlarge
    exact havoids m (exec_of_error herror) hm
  · rintro ⟨hstaked, hage⟩
    obtain ⟨c', hc'⟩ := hafter.quitsvote_ok (e := ⟨wq, systemAccountName, qauths⟩)
      (c := { db := run push d₁ history, notified := [systemAccountName] }) rfl hauth hidx hheight
      hstaked hage
    obtain ⟨-, b, vts, sv, sv', -, -, -, -, -, -, -, -, -, hinline⟩ := quitsvote_eq_ok hc'
    have hok : push ⟨wq, ⟨qauths, .system (.quitsvote voter bpname idx)⟩⟩
        (run push d₁ history) = .ok c'.db := exec_of_silent hc' hinline
    rw [hok]
    exact avoids_ok _

open Genesis (alice bob twoAccounts)

def beforeStaticVote : Db := run push twoAccounts.database [
  .byActor 9 systemAccountName (.system (.onblock bob 1)),
  .byActor 10 alice (.system (.freeze alice (core 10000000000))),
  .byActor 11 bob (.system (.bppawn bob (core 500000000)))]

def staticVoteForBob (typ : Nat) : Step :=
  .byActor 12 alice (.system (.votestatic alice bob (core 10000000000) typ))

/-- Alice claims once while a vote of the shortest type is locked, and quits it at its unfreeze
height. -/
theorem quitsvote_avoids_iff_claimed :
    Avoids Asset.arithmeticErrors (push (.byActor 5184012 alice (.system (.quitsvote alice bob 0)))
      (run push (advance push (staticVoteForBob 0) beforeStaticVote)
        [.byActor 2000000 alice (.system (.claim alice bob))])) := by
  have hs : push (staticVoteForBob 0) beforeStaticVote =
      .ok (advance push (staticVoteForBob 0) beforeStaticVote) := by
    obtain ⟨d₁, hd₁⟩ : ∃ d₁, push (staticVoteForBob 0) beforeStaticVote = .ok d₁ := by
      decide +kernel
    rw [advance_of_ok hd₁]
    exact hd₁
  refine (quitsvote_avoids_iff hs rfl ?_ rfl ⟨_, List.mem_singleton_self _, rfl⟩ ?_ ?_).mpr ?_
  · intro t ht
    rw [List.mem_singleton.mp ht]
    exact ⟨bob, .inl rfl⟩
  · decide +kernel
  · decide
  · decide +kernel

/-- A vote of the longest type, with a stake below the maximum supply, cannot be quit at its
unfreeze height. -/
theorem quitsvote_overflow_unfrozen :
    (∃ d₁, push (staticVoteForBob 4) beforeStaticVote = .ok d₁) ∧
      (core 10000000000).amount ≤ Genesis.systemTokenMaximumSupply ∧
      add32 12 (staticVoteLock 4) = 62208012 ∧
      ¬ Avoids Asset.arithmeticErrors
        (push (.byActor 62208012 alice (.system (.quitsvote alice bob 0)))
          (advance push (staticVoteForBob 4) beforeStaticVote)) := by
  refine ⟨?_, by decide, by decide, ?_⟩
  · decide +kernel
  · decide +kernel

end BaccChain
