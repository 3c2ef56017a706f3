import BaccChain.Properties.Issuance

/-!
# The reward of a block

`onblock` issues what the accounts created in the last block bring to the pool for them, and the
rest of the reward to the system account.

## Main definitions

* `SplitsReward`: the two issues add up to the reward
* `ValidIssue`: the amounts are valid

## Main results

* `onblock_splitsReward_iff`: when the reward is split
* `onblock_validIssue_iff`: when the amounts are valid
-/

namespace BaccChain

open SystemContract
open Asset (core core_amount)

/-! ## Definitions -/

/-- The amount of an issue. -/
def Action.issued (a : Action) : Int :=
  match a.data with
  | .token (.issue _ quantity _) => quantity.amount
  | _ => 0

def Action.issuedTo (account : Name) (a : Action) : Int :=
  match a.data with
  | .token (.issue toAccount quantity _) => if toAccount = account then quantity.amount else 0
  | _ => 0

/-- **The split of a reward** `R`, of which new accounts bring `V`: the issues add up to the reward,
the pool of new accounts gets what they bring, as far as the reward goes, the system account gets
the rest, and nothing is issued for a share of zero. -/
structure SplitsReward (R V : Int) (sent : List Action) : Prop where
  issues : ∀ a ∈ sent, ∃ account q memo, a = Token.issueAction account (core q) memo ∧ 0 < q
  total : (sent.map Action.issued).sum = R
  vid : (sent.map (Action.issuedTo vidPoolAccountName)).sum = min R V
  system : (sent.map (Action.issuedTo systemAccountName)).sum = R - min R V

/-! ## Issues -/

variable {R V : Int}

theorem issued_issueAction (account : Name) (q : Int) (memo : String) :
    (Token.issueAction account (core q) memo).issued = q := rfl

theorem issuedTo_issueAction (account toAccount : Name) (q : Int) (memo : String) :
    (Token.issueAction toAccount (core q) memo).issuedTo account =
      if toAccount = account then q else 0 := rfl

def systemIssue (left : Int) : List Action :=
  if 0 < left then
    [Token.issueAction systemAccountName (core left) "issue tokens for block reward"]
  else []

theorem sum_issued_systemIssue {left : Int} (h : 0 ≤ left) :
    ((systemIssue left).map Action.issued).sum = left := by
  unfold systemIssue
  split_ifs with hpos
  · exact List.sum_singleton
  · exact le_antisymm h (not_lt.mp hpos)

theorem sum_issuedTo_systemIssue {left : Int} (h : 0 ≤ left) (account : Name) :
    ((systemIssue left).map (Action.issuedTo account)).sum =
      if systemAccountName = account then left else 0 := by
  unfold systemIssue
  split_ifs with hpos hacc hacc
  · simp [issuedTo_issueAction, hacc]
  · simp [issuedTo_issueAction, hacc]
  · exact le_antisymm h (not_lt.mp hpos)
  · rfl

theorem systemIssue_issues {left : Int} :
    ∀ a ∈ systemIssue left,
      ∃ account q memo, a = Token.issueAction account (core q) memo ∧ 0 < q := by
  unfold systemIssue
  split_ifs with hpos
  · exact fun a ha => ⟨_, _, _, List.mem_singleton.mp ha, hpos⟩
  · simp

theorem splitsReward_of_le (hV : 0 ≤ V) (hle : V ≤ R) :
    SplitsReward R V ((vidPayment R V).2 ++ systemIssue (vidPayment R V).1) := by
  have hne : systemAccountName ≠ vidPoolAccountName := by decide
  rcases hV.eq_or_lt with rfl | hpos
  · rw [vidPayment, if_pos le_rfl]
    refine ⟨systemIssue_issues, sum_issued_systemIssue hle, ?_, ?_⟩
    · rw [List.nil_append, sum_issuedTo_systemIssue hle, if_neg hne, min_eq_right hle]
    · rw [List.nil_append, sum_issuedTo_systemIssue hle, if_pos rfl, min_eq_right hle, sub_zero]
  · have hleft : 0 ≤ R - V := sub_nonneg.mpr hle
    rw [vidPayment, if_neg (not_le.mpr hpos), if_neg (not_lt.mpr hle)]
    refine ⟨?_, ?_, ?_, ?_⟩
    · rw [List.singleton_append, List.forall_mem_cons]
      exact ⟨⟨_, _, _, rfl, hpos⟩, systemIssue_issues⟩
    · rw [List.singleton_append, List.map_cons, List.sum_cons, sum_issued_systemIssue hleft,
        issued_issueAction, add_sub_cancel]
    · rw [List.singleton_append, List.map_cons, List.sum_cons, sum_issuedTo_systemIssue hleft,
        issuedTo_issueAction, if_pos rfl, if_neg hne, add_zero, min_eq_right hle]
    · rw [List.singleton_append, List.map_cons, List.sum_cons, sum_issuedTo_systemIssue hleft,
        issuedTo_issueAction, if_neg hne.symm, if_pos rfl, zero_add, min_eq_right hle]

theorem vidPayment_of_lt (hR : 0 ≤ R) (hlt : R < V) :
    vidPayment R V =
      (0, [Token.issueAction vidPoolAccountName (core 0) "issue tokens for vid pool"]) := by
  rw [vidPayment, if_neg (by omega), if_pos hlt]

/-! ## `onblock` -/

theorem onblock_inlineActions {w : World} {act : Action} {d : Db} {c : Ctx} {bpname : Name}
    {scheduleVersion : Nat} (hdata : act.data = .system (.onblock bpname scheduleVersion))
    (h : applyAction w act d = .ok c) :
    c.inlineActions =
      (vidPayment (w.calcRewardByBlock w.blockNum) (vidReward d w.blockNum)).2 ++
        systemIssue (vidPayment (w.calcRewardByBlock w.blockNum) (vidReward d w.blockNum)).1 := by
  obtain ⟨auths, data⟩ := act
  obtain rfl : data = _ := hdata
  obtain ⟨left, vid, ts, tb, hpayment, hinline, -, -⟩ := onblock_payments (applyAction_eq_ok.mp h)
  have hpayment : (left, vid) =
      vidPayment (w.calcRewardByBlock w.blockNum) (vidReward d w.blockNum) := hpayment
  rw [hinline, ← hpayment]
  rfl

/-- **The split of a block's reward.** Whenever new accounts bring no negative reward, the issues
that `onblock` sends add up to the reward of the block, with the pool of new accounts served first,
the rest for the system account and no issue for a share of zero, exactly if the reward covers what
the new accounts bring. -/
theorem onblock_splitsReward_iff {w : World} {act : Action} {d : Db} {c : Ctx} {bpname : Name}
    {scheduleVersion : Nat} (hdata : act.data = .system (.onblock bpname scheduleVersion))
    (h : applyAction w act d = .ok c) (hvid : 0 ≤ vidReward d w.blockNum) :
    SplitsReward (w.calcRewardByBlock w.blockNum) (vidReward d w.blockNum) c.inlineActions ↔
      vidReward d w.blockNum ≤ w.calcRewardByBlock w.blockNum := by
  rw [onblock_inlineActions hdata h]
  refine ⟨fun hsplit => ?_, splitsReward_of_le hvid⟩
  by_contra hlt
  rw [vidPayment_of_lt (Int.natCast_nonneg _) (not_le.mp hlt)] at hsplit
  obtain ⟨account, q, memo, heq, hq⟩ := hsplit.issues _ List.mem_cons_self
  have hzero : (0 : Int) = q := congrArg Action.issued heq
  omega

open Genesis (bob twoAccounts)

def createAccount (rewardPerVid : Int) : Db := Commons.run push twoAccounts.database [
  .byActor 10 systemAccountName (.system (.setvidparam 1 (core rewardPerVid))),
  .byActor 49 systemAccountName (.system (.newaccount 99 7))]

def onblockOfBob : Action := ⟨[⟨systemAccountName, activeName⟩], .system (.onblock bob 1)⟩

/-- A reward of `0.5000` covers the `0.0100` that one new account brings. -/
theorem onblock_splitsReward_covered :
    ∃ c, applyAction (.atHeight 50) onblockOfBob (createAccount 100) = .ok c ∧
      SplitsReward 5000 100 c.inlineActions := by
  obtain ⟨c, hc⟩ : ∃ c, applyAction (.atHeight 50) onblockOfBob (createAccount 100) = .ok c := by
    decide +kernel
  have hvid : vidReward (createAccount 100) 50 = 100 := by decide +kernel
  have hsplit := (onblock_splitsReward_iff rfl hc (by decide +kernel)).mpr (by decide +kernel)
  exact ⟨c, hc, hvid ▸ hsplit⟩

/-- A reward of `0.5000` that does not cover the `0.6000` of one new account is not split: an issue
of zero is sent, and nothing else. -/
theorem onblock_issues_zero :
    vidReward (createAccount 6000) 50 = 6000 ∧ (World.atHeight 50).calcRewardByBlock 50 = 5000 ∧
      ∃ c, applyAction (.atHeight 50) onblockOfBob (createAccount 6000) = .ok c ∧
        (c.inlineActions.map Action.issued).sum = 0 ∧
        ¬ SplitsReward 5000 6000 c.inlineActions := by
  refine ⟨by decide +kernel, by decide, ?_⟩
  obtain ⟨c, hc, hsum⟩ := Commons.exists_ok_of_any
    (x := applyAction (.atHeight 50) onblockOfBob (createAccount 6000))
    (p := fun c => (c.inlineActions.map Action.issued).sum = 0) (by decide +kernel)
  have hsum : (c.inlineActions.map Action.issued).sum = 0 := of_decide_eq_true hsum
  refine ⟨c, hc, hsum, fun h => ?_⟩
  have htotal := h.total
  omega

/-! ## What `issue` asks for -/

/-- An issue has the authorization of the issuer of the core token, the system account, and is of a
positive amount of core tokens. -/
def ValidIssue (d : Db) (a : Action) : Prop :=
  match a.data with
  | .token (.issue _ quantity _) =>
    (∃ st, d.stat.find (symbolName coreSymbol) (symbolName coreSymbol) = some st ∧
      st.issuer = systemAccountName ∧ a.AuthorizedBy st.issuer) ∧
      0 < quantity.amount ∧ quantity.symbol = coreSymbol
  | _ => True

theorem validIssue_issueAction {d : Db} (hd : CoreStat d) {account : Name} {q : Int}
    {memo : String} :
    ValidIssue d (Token.issueAction account (core q) memo) ↔
      account = systemAccountName ∧ 0 < q := by
  obtain ⟨st, hst, hissuer, -⟩ := hd
  simp [ValidIssue, Token.issueAction, Action.AuthorizedBy, hst, hissuer]

/-- **Only the system account can be issued to**: whatever happened since genesis, the issues that
`onblock` sends are ones that `issue` accepts exactly if the accounts of the last block bring
nothing. -/
theorem onblock_validIssue_iff {g : Genesis} {d₀ : Db} (hg : g.initializeDatabase = .ok d₀)
    (steps : List Step) {w : World} {act : Action} {c : Ctx} {bpname : Name} {scheduleVersion : Nat}
    (hdata : act.data = .system (.onblock bpname scheduleVersion))
    (h : applyAction w act (Commons.run push d₀ steps) = .ok c) :
    (∀ a ∈ c.inlineActions, ValidIssue (Commons.run push d₀ steps) a) ↔
      vidReward (Commons.run push d₀ steps) w.blockNum ≤ 0 := by
  have hstat := CoreStat.run hg steps
  rw [onblock_inlineActions hdata h, vidPayment]
  constructor
  · intro hvalid
    by_contra hpos
    rw [if_neg hpos] at hvalid
    split_ifs at hvalid
    all_goals
      have hpool := (validIssue_issueAction hstat).mp (hvalid _ List.mem_cons_self)
      exact absurd hpool.1 (by decide)
  · intro hle
    rw [if_pos hle, List.nil_append, systemIssue]
    split_ifs with hpos
    · simpa [validIssue_issueAction hstat] using hpos
    · simp

/-- The block after one without new accounts issues its reward to the system account. -/
theorem onblock_validIssue_createAccount :
    ∃ c, applyAction (.atHeight 52) onblockOfBob (createAccount 100) = .ok c ∧
      c.inlineActions.length = 1 ∧ ∀ a ∈ c.inlineActions, ValidIssue (createAccount 100) a := by
  obtain ⟨c, hc, hlen⟩ := Commons.exists_ok_of_any
    (x := applyAction (.atHeight 52) onblockOfBob (createAccount 100))
    (p := fun c => c.inlineActions.length = 1) (by decide +kernel)
  exact ⟨c, hc, of_decide_eq_true hlen, (onblock_validIssue_iff Genesis.twoAccounts_database _ rfl
    hc).mpr (by decide +kernel)⟩

/-- After a new account that brings `0.0100`, the issue to the pool has the authorization of the
pool, and the whole `onblock` is refused. -/
theorem onblock_invalid_issue :
    (∃ c, applyAction (.atHeight 50) onblockOfBob (createAccount 100) = .ok c ∧
      ∃ a ∈ c.inlineActions, a.issuedTo vidPoolAccountName = 100 ∧
        ¬ a.AuthorizedBy systemAccountName) ∧
    (push ⟨.atHeight 50, onblockOfBob⟩ (createAccount 100)).map (fun _ => ()) =
      .error "missing authority" := by
  obtain ⟨c, hc, hissue⟩ := Commons.exists_ok_of_any
    (x := applyAction (.atHeight 50) onblockOfBob (createAccount 100))
    (p := fun c => ∃ a ∈ c.inlineActions, a.issuedTo vidPoolAccountName = 100 ∧
        ¬ a.AuthorizedBy systemAccountName) (by decide +kernel)
  exact ⟨⟨c, hc, of_decide_eq_true hissue⟩, by decide +kernel⟩

end BaccChain
