import BaccChain.Chain.Genesis
import BaccChain.Contracts.Multisig
import Mathlib.Data.Multiset.AddSub

/-!
# Approvals of multi-signature proposals

Names of proposals are used again, so what has been approved is a matter of the history since the
proposal was made.

## Main definitions

* `historyAfter`: what has been approved
* `Agreement`: the tables say the same

## Main results

* `approvals_stand`: they always do, and `exec` checks it
-/

namespace BaccChain

open Commons

namespace Multisig

/-! ## Histories -/

/-- A proposal as its history tells it. -/
structure Pending where
  requested : List PermissionLevel
  packedTransaction : List UInt8
  calls : List MsigCall := []

def History : Type := Name → Name → Option Pending

def History.write (h : History) (proposer proposalName : Name) (o : Option Pending) : History :=
  fun p n => if p = proposer ∧ n = proposalName then o else h p n

end Multisig

def MsigAction.approves (level : PermissionLevel) : MsigAction → Bool
  | .approve _ _ l => l = level
  | _ => false

def MsigAction.unapproves (level : PermissionLevel) : MsigAction → Bool
  | .unapprove _ _ l => l = level
  | _ => false

open Multisig

/-- A proposal starts with an empty history, an approval adds to it, and it ends when the proposal
is cancelled or executed. -/
def MsigCall.record (c : MsigCall) (h : History) : History :=
  match c.action with
  | .propose proposer proposalName requested trx =>
    h.write proposer proposalName (some ⟨requested, trx, []⟩)
  | .approve proposer proposalName _ | .unapprove proposer proposalName _ =>
    h.write proposer proposalName
      ((h proposer proposalName).map fun p => { p with calls := p.calls ++ [c] })
  | .cancel proposer proposalName _ | .exec proposer proposalName _ =>
    h.write proposer proposalName none

variable {d d' : MsigDb} {h : History}

namespace Multisig

def Pending.approvals (p : Pending) (level : PermissionLevel) : Nat :=
  p.calls.countP (·.action.approves level)

def Pending.unapprovals (p : Pending) (level : PermissionLevel) : Nat :=
  p.calls.countP (·.action.unapproves level)

/-- The rows of a proposal agree with its history. -/
structure Pending.Stands (p : Pending) (prop : Proposal) (apps : ApprovalsInfo) : Prop where
  transaction : prop.packedTransaction = p.packedTransaction
  union : (apps.providedApprovals : Multiset PermissionLevel) + apps.requestedApprovals =
    (p.requested : Multiset PermissionLevel)
  count : ∀ level, (apps.providedApprovals.count level : Int) =
    p.approvals level - p.unapprovals level
  authorised : ∀ c ∈ p.calls, ∀ level,
    c.action.approves level ∨ c.action.unapproves level → level ∈ c.env.authorization

theorem Pending.Stands.mem_iff {p : Pending} {prop : Proposal} {apps : ApprovalsInfo}
    (h : p.Stands prop apps) (level : PermissionLevel) :
    level ∈ apps.providedApprovals ↔ p.unapprovals level < p.approvals level := by
  have hcount := h.count level
  rw [← List.count_pos_iff]
  omega

/-! ## One call -/

/-- Rows are there exactly for a pending proposal. -/
inductive Agree : Option Pending → Option Proposal → Option ApprovalsInfo → Prop
  | absent : Agree none none none
  | pending {p : Pending} {prop : Proposal} {apps : ApprovalsInfo} (h : p.Stands prop apps) :
    Agree (some p) (some prop) (some apps)

variable {o : Option Pending}

theorem Agree.none_iff {prop : Option Proposal} {apps : Option ApprovalsInfo}
    (h : Agree o prop apps) : prop = none ↔ apps = none := by
  cases h with
  | absent => exact iff_of_true rfl rfl
  | pending => exact iff_of_false (Option.some_ne_none _) (Option.some_ne_none _)

/-- All proposals agree with their rows. -/
def Agreement (d : MsigDb) (h : History) : Prop :=
  ∀ proposer proposalName, Agree (h proposer proposalName)
    (d.proposals.find proposer proposalName) (d.approvals.find proposer proposalName)

theorem Agreement.write {proposer proposalName : Name} {prop : Option Proposal}
    {apps : Option ApprovalsInfo} (hagree : Agreement d h)
    (hprop : d.proposals.Writes proposer proposalName prop d'.proposals)
    (happs : d.approvals.Writes proposer proposalName apps d'.approvals)
    (hself : Agree o prop apps) : Agreement d' (h.write proposer proposalName o) := by
  intro p n
  rw [hprop.find, happs.find, History.write]
  split_ifs
  · exact hself
  · exact hagree p n

theorem writes_of_eq (h : d'.proposals = d.proposals) (proposer proposalName : Name) :
    d.proposals.Writes proposer proposalName (d.proposals.find proposer proposalName)
      d'.proposals := by
  rw [h]
  exact .refl _ _ _

section Approvals

variable {p : Pending} {prop : Proposal} {apps : ApprovalsInfo} {c : MsigCall}
  {proposer proposalName : Name} {level : PermissionLevel}

theorem mem_authorization_of_call (h : p.Stands prop apps)
    (hc : ∀ l, c.action.approves l ∨ c.action.unapproves l → l ∈ c.env.authorization) :
    ∀ c' ∈ p.calls ++ [c], ∀ l,
      c'.action.approves l ∨ c'.action.unapproves l → l ∈ c'.env.authorization := by
  intro c' hc'
  rcases List.mem_append.mp hc' with hold | hnew
  · exact h.authorised c' hold
  · obtain rfl := List.mem_singleton.mp hnew
    exact hc

theorem Pending.Stands.approve (h : p.Stands prop apps)
    (hc : c.action = .approve proposer proposalName level) (hauth : level ∈ c.env.authorization)
    (hmem : level ∈ apps.requestedApprovals) :
    Pending.Stands { p with calls := p.calls ++ [c] } prop { apps with
      providedApprovals := apps.providedApprovals ++ [level]
      requestedApprovals := apps.requestedApprovals.erase level } where
  transaction := h.transaction
  union := by
    rw [← h.union, Multiset.coe_add, Multiset.coe_add, Multiset.coe_eq_coe, List.append_assoc]
    exact (List.perm_cons_erase hmem).symm.append_left _
  count := fun l => by
    have hcount := h.count l
    simp only [Pending.approvals, Pending.unapprovals, List.countP_append, List.countP_singleton,
      List.count_append, List.count_singleton, hc, MsigAction.approves, MsigAction.unapproves]
      at hcount ⊢
    by_cases hl : level = l
    · simp [hl]
      omega
    · simp [hl]
      omega
  authorised := mem_authorization_of_call h fun l hl => by
    simp only [hc, MsigAction.approves, MsigAction.unapproves, Bool.false_eq_true, or_false,
      decide_eq_true_eq] at hl
    exact hl ▸ hauth

theorem Pending.Stands.unapprove (h : p.Stands prop apps)
    (hc : c.action = .unapprove proposer proposalName level) (hauth : level ∈ c.env.authorization)
    (hmem : level ∈ apps.providedApprovals) :
    Pending.Stands { p with calls := p.calls ++ [c] } prop { apps with
      requestedApprovals := apps.requestedApprovals ++ [level]
      providedApprovals := apps.providedApprovals.erase level } where
  transaction := h.transaction
  union := by
    rw [← h.union, Multiset.coe_add, Multiset.coe_add, Multiset.coe_eq_coe, ← List.append_assoc]
    exact (List.perm_append_singleton _ _).trans
      ((List.perm_cons_erase hmem).symm.append_right _)
  count := fun l => by
    have hcount := h.count l
    have hpos := List.count_pos_iff.mpr hmem
    simp only [Pending.approvals, Pending.unapprovals, List.countP_append, List.countP_singleton,
      List.count_erase, hc, MsigAction.approves, MsigAction.unapproves] at hcount ⊢
    by_cases hl : level = l
    · subst hl
      simp
      omega
    · simp [hl]
      omega
  authorised := mem_authorization_of_call h fun l hl => by
    simp only [hc, MsigAction.approves, MsigAction.unapproves, Bool.false_eq_true, false_or,
      decide_eq_true_eq] at hl
    exact hl ▸ hauth

end Approvals

theorem Agreement.of_approvals {proposer proposalName : Name} {apps : ApprovalsInfo}
    (hagree : Agreement d h) (hfind : d.approvals.find proposer proposalName = some apps) :
    ∃ p prop, h proposer proposalName = some p ∧
      d.proposals.find proposer proposalName = some prop ∧ p.Stands prop apps := by
  have hself := hagree proposer proposalName
  rw [hfind] at hself
  generalize hp : h proposer proposalName = o at hself
  generalize hprop : d.proposals.find proposer proposalName = q at hself
  cases hself with
  | pending hstands => exact ⟨_, _, rfl, rfl, hstands⟩

end Multisig

theorem MsigCall.agree_exec {c : MsigCall} (hagree : Agreement d h) (hexec : c.exec d = .ok d') :
    Agreement d' (c.record h) := by
  obtain ⟨⟨u, _⟩, happly, hd⟩ := bind_eq_ok.mp hexec
  obtain rfl := pure_eq_ok.mp hd
  obtain ⟨env, action⟩ := c
  cases action with
  | propose =>
    obtain ⟨hprop, happs⟩ := propose_eq_ok happly
    refine hagree.write hprop happs (.pending ⟨rfl, ?_, fun _ => rfl, fun _ h => by cases h⟩)
    exact Multiset.zero_add _
  | approve proposer proposalName =>
    obtain ⟨hauth, hprops, apps, hfind, hmem, happs⟩ := approve_eq_ok happly
    obtain ⟨p, prop, hp, hprop, hstands⟩ := hagree.of_approvals hfind
    have hsame := writes_of_eq hprops proposer proposalName
    rw [hprop] at hsame
    refine hagree.write hsame happs ?_
    rw [hp]
    exact .pending (hstands.approve rfl hauth hmem)
  | unapprove proposer proposalName =>
    obtain ⟨hauth, hprops, apps, hfind, hmem, happs⟩ := unapprove_eq_ok happly
    obtain ⟨p, prop, hp, hprop, hstands⟩ := hagree.of_approvals hfind
    have hsame := writes_of_eq hprops proposer proposalName
    rw [hprop] at hsame
    refine hagree.write hsame happs ?_
    rw [hp]
    exact .pending (hstands.unapprove rfl hauth hmem)
  | cancel =>
    obtain ⟨hprop, happs⟩ := cancel_eq_ok happly
    exact hagree.write hprop happs .absent
  | exec =>
    obtain ⟨-, hprop, happs⟩ := Multisig.exec_eq_ok happly
    exact hagree.write hprop happs .absent

namespace Multisig

/-! ## All calls -/

def tablesAfter (l : List MsigCall) : MsigDb := run MsigCall.exec {} l

/-- What the calls have been. -/
def historyAfter (l : List MsigCall) : History :=
  (run (withGhost MsigCall.exec MsigCall.record) ({}, fun _ _ => none) l).2

theorem agreement_after (l : List MsigCall) : Agreement (tablesAfter l) (historyAfter l) := by
  have hrun : Agreement (run (withGhost MsigCall.exec MsigCall.record) ({}, fun _ _ => none) l).1
      (run (withGhost MsigCall.exec MsigCall.record) ({}, fun _ _ => none) l).2 := by
    refine run_induction (fun s : MsigDb × History => Agreement s.1 s.2) ?_ ?_ along_true
    · intro s c s' hs _ hstep
      obtain ⟨hexec, hrecord⟩ := withGhost_eq_ok.mp hstep
      rw [hrecord]
      exact c.agree_exec hs hexec
    · intro _ _
      exact .absent
  rwa [run_withGhost_fst] at hrun

/-- An accepted execution has checked the transaction that was proposed against the approvals in the
table, and these are of exactly the levels whose approval stands. -/
def ExecChecks (d : MsigDb) (h : History) : Prop :=
  ∀ env proposer proposalName executer d',
    MsigCall.exec ⟨env, .exec proposer proposalName executer⟩ d = .ok d' →
    ∃ p apps, h proposer proposalName = some p ∧
      d.approvals.find proposer proposalName = some apps ∧
      env.checkTransactionAuthorization p.packedTransaction apps.providedApprovals = .ok true ∧
      ∀ level, level ∈ apps.providedApprovals ↔ p.unapprovals level < p.approvals level

theorem Agreement.execChecks (hagree : Agreement d h) : ExecChecks d h := by
  intro env proposer proposalName executer d' hexec
  obtain ⟨⟨u, _⟩, happly, hd⟩ := bind_eq_ok.mp hexec
  obtain ⟨⟨prop, apps, hprop, happs, hcheck⟩, -⟩ := exec_eq_ok happly
  obtain ⟨p, prop', hp, hprop', hstands⟩ := hagree.of_approvals happs
  obtain rfl : prop = prop' := Option.some.inj (hprop.symm.trans hprop')
  exact ⟨p, apps, hp, happs, hstands.transaction ▸ hcheck, hstands.mem_iff⟩

end Multisig

/-- **The approvals that are stored are those that stand.** After any calls, the tables of each
proposer have the same keys. Each pending proposal has the transaction and the levels it was made
with, and each level is provided as often as it has approved and not taken that back, always with
its own authority. An execution checks the transaction against exactly the levels whose approval
stands. -/
theorem approvals_stand (l : List MsigCall) :
    (∀ proposer proposalName, (tablesAfter l).proposals.find proposer proposalName = none ↔
      (tablesAfter l).approvals.find proposer proposalName = none) ∧
    (∀ proposer proposalName prop apps,
      (tablesAfter l).proposals.find proposer proposalName = some prop →
      (tablesAfter l).approvals.find proposer proposalName = some apps →
      ∃ p, historyAfter l proposer proposalName = some p ∧ p.Stands prop apps) ∧
    ExecChecks (tablesAfter l) (historyAfter l) := by
  have hagree := agreement_after l
  refine ⟨fun proposer proposalName => (hagree proposer proposalName).none_iff,
    fun proposer proposalName prop apps hprop happs => ?_, hagree.execChecks⟩
  obtain ⟨p, prop', hp, hprop', hstands⟩ := hagree.of_approvals happs
  obtain rfl : prop = prop' := Option.some.inj (hprop.symm.trans hprop')
  exact ⟨p, hp, hstands⟩

section Example

open Genesis (bob)

def bobActs : MsigEnv where
  authorization := [⟨bob, activeName⟩]
  now := 10
  unpackExpiration := fun _ => .ok 20
  checkTransactionAuthorization := fun _ levels => .ok (levels ≠ [])
  sendDeferred := fun _ _ _ => .ok ()

def bobApproves : List MsigCall :=
  [⟨bobActs, .propose bob 1 [⟨bob, activeName⟩, ⟨bob, activeName⟩] [7]⟩,
    ⟨bobActs, .approve bob 1 ⟨bob, activeName⟩⟩]

/-- One of the two approvals stands, and the transaction can be executed. -/
theorem approvals_stand_bob :
    (∃ p, historyAfter bobApproves bob 1 = some p ∧ p.Stands ⟨1, [7]⟩
      ⟨1, [⟨bob, activeName⟩], [⟨bob, activeName⟩]⟩) ∧
    (∃ d, MsigCall.exec ⟨bobActs, .exec bob 1 bob⟩ (tablesAfter bobApproves) = .ok d) ∧
    ∃ p apps, historyAfter bobApproves bob 1 = some p ∧
      (tablesAfter bobApproves).approvals.find bob 1 = some apps ∧
      bobActs.checkTransactionAuthorization p.packedTransaction apps.providedApprovals = .ok true ∧
      ∀ level, level ∈ apps.providedApprovals ↔ p.unapprovals level < p.approvals level := by
  obtain ⟨d, hd⟩ : ∃ d,
      MsigCall.exec ⟨bobActs, .exec bob 1 bob⟩ (tablesAfter bobApproves) = .ok d := by
    decide +kernel
  refine ⟨(approvals_stand bobApproves).2.1 _ _ _ _ (by decide +kernel) (by decide +kernel),
    ⟨d, hd⟩, (approvals_stand bobApproves).2.2 _ _ _ _ _ hd⟩

end Example

end BaccChain
