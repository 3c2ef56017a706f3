import BaccChain.Chain.BlockBuildingSpec
import BaccChain.Chain.BlockHeaderSpec
import Mathlib.Data.List.Chain

/-!
# The versions of producer schedules

A schedule is proposed by a contract, becomes pending when the block of the proposal is
irreversible, and becomes active when the block that made it pending is.

## Main definitions

* `Versioned`: proposed, pending and active versions

## Main results

* `schedule_versions`: versions grow by one
-/

namespace BaccChain

open Commons

/-- The pending schedule has the version after the active one, and a proposed schedule the version
after the last of the two. -/
structure Versioned (b : BlockHeaderState) (proposed : Option (Nat × ProducerSchedule)) : Prop where
  pending : b.pendingSchedule.producers ≠ [] →
    b.pendingSchedule.version = add32 b.activeSchedule.version 1
  proposed : ∀ pr, proposed = some pr → pr.2.version = add32 b.latestSchedule.version 1

/-- The first schedule is active and pending, and nothing has been proposed. -/
structure Unpromoted (b : BlockHeaderState) (proposed : Option (Nat × ProducerSchedule)) :
    Prop where
  pending : b.pendingSchedule = b.activeSchedule
  libNum : b.pendingScheduleLibNum = 0
  proposed : proposed = none

def Grows (next : Nat → Nat) (new old : ProducerSchedule) : Prop :=
  new = old ∨ new.version = next old.version

namespace Versioned

variable {b : BlockHeaderState} {proposed : Option (Nat × ProducerSchedule)}

theorem congr {b' : BlockHeaderState} (h : Versioned b proposed)
    (hp : b'.pendingSchedule = b.pendingSchedule) (ha : b'.activeSchedule = b.activeSchedule) :
    Versioned b' proposed := by
  have hlatest : b'.latestSchedule = b.latestSchedule := by
    unfold BlockHeaderState.latestSchedule
    rw [hp, ha]
  refine ⟨?_, ?_⟩
  · rw [hp, ha]
    exact h.pending
  · rw [hlatest]
    exact h.proposed

theorem setProposedProducers (h : Versioned b proposed) (headBlockNum : Nat)
    (producers : List ProducerKey) :
    Versioned b (setProposedProducers headBlockNum b producers proposed).2 := by
  unfold BaccChain.setProposedProducers
  dsimp only
  split_ifs
  · exact h
  · exact h
  · refine ⟨h.pending, fun pr hpr => ?_⟩
    obtain rfl := Option.some.inj hpr
    rfl

end Versioned

theorem Call.exec_versioned {p : BlockHeaderState} {headBlockNum : Nat} (call : Call) :
    Attempt.Keeps (fun s => Versioned p s.db.proposedSchedule) (Call.exec headBlockNum p call) := by
  cases call with
  | setProposedProducers producers =>
    exact .update fun _ h => h.setProposedProducers headBlockNum producers
  | setMaxTransactionLifetime => exact .update fun _ h => h
  | setconfig => exact fun _ h => h

namespace BlockHeaderState

variable {c : Crypto} {head g : BlockHeaderState} {when confirmed : Nat}
  {proposed : Option (Nat × ProducerSchedule)}

theorem generateNext_schedules (h : head.generateNext c when = .ok g) :
    g.activeSchedule = head.activeSchedule ∧ g.pendingSchedule = head.pendingSchedule ∧
      g.pendingScheduleLibNum = head.pendingScheduleLibNum ∧ g.header.newProducers = none := by
  obtain ⟨t, prokey, merkle, -, -, -, rfl⟩ := generateNext_eq_ok.mp h
  exact ⟨rfl, rfl, rfl, rfl⟩

theorem startBlock_of_promotes (hg : head.generateNext c when = .ok g)
    (h : (g.setConfirmed confirmed).Promotes) (pr : Option (Nat × ProducerSchedule)) :
    head.startBlock c when confirmed pr = .ok (g.setConfirmed confirmed).promote := by
  have hq : (g.setConfirmed confirmed).maybePromotePending =
      ((g.setConfirmed confirmed).promote, true) := if_pos h
  refine bind_eq_ok.mpr ⟨g, hg, ?_⟩
  rw [hq]
  cases pr with
  | none => rfl
  | some => exact if_neg fun hroom => Bool.noConfusion hroom.2.2

theorem startBlock_of_not_promotes (hg : head.generateNext c when = .ok g)
    (h : ¬ (g.setConfirmed confirmed).Promotes) (pr : Option (Nat × ProducerSchedule)) :
    head.startBlock c when confirmed pr = .ok (g.setConfirmed confirmed) ∨
      ∃ num sch, pr = some (num, sch) ∧ g.pendingSchedule.producers = [] ∧
        head.startBlock c when confirmed pr = (g.setConfirmed confirmed).setNewProducers c sch := by
  have hq : (g.setConfirmed confirmed).maybePromotePending = (g.setConfirmed confirmed, false) :=
    if_neg h
  cases pr with
  | none =>
    refine Or.inl (bind_eq_ok.mpr ⟨g, hg, ?_⟩)
    rw [hq]
    rfl
  | some pr =>
    obtain ⟨num, sch⟩ := pr
    by_cases hroom : num ≤ (g.setConfirmed confirmed).dposIrreversibleBlocknum ∧
        (g.setConfirmed confirmed).pendingSchedule.producers = []
    · refine Or.inr ⟨num, sch, rfl, ?_, ?_⟩
      · rw [← g.setConfirmed_pendingSchedule confirmed]
        exact hroom.2
      · rw [startBlock, hg, ok_bind, hq]
        exact if_pos ⟨hroom.1, hroom.2, rfl⟩
    · refine Or.inl (bind_eq_ok.mpr ⟨g, hg, ?_⟩)
      rw [hq]
      exact if_neg fun h => hroom ⟨h.1, h.2.1⟩

/-- **Starting a block does not fail on the schedules**: if there is a template then there is a
pending block, in which the versions are consecutive. -/
theorem startBlock_versioned (confirmed : Nat)
    (h : Versioned head proposed ∨ Unpromoted head proposed)
    (hg : head.generateNext c when = .ok g) {pr : Option (Nat × ProducerSchedule)}
    (hpr : pr = proposed ∨ pr = none) :
    ∃ p, head.startBlock c when confirmed pr = .ok p ∧
      Versioned p (if p.header.newProducers.isSome then none else proposed) ∧
      Grows (add32 · 1) p.activeSchedule head.activeSchedule ∧
      (pr = none → p.header.newProducers = none) := by
  obtain ⟨ha, hp, hlib, hnew⟩ := generateNext_schedules hg
  set q := g.setConfirmed confirmed with hq
  have hqa : q.activeSchedule = head.activeSchedule := by rw [hq, setConfirmed_activeSchedule, ha]
  have hqp : q.pendingSchedule = head.pendingSchedule := by
    rw [hq, setConfirmed_pendingSchedule, hp]
  have hqnew : q.header.newProducers = none := by rw [hq, setConfirmed_header]; exact hnew
  by_cases hpromotes : q.Promotes
  · have hne : head.pendingSchedule.producers ≠ [] := hqp ▸ hpromotes.1
    have hlatest : head.latestSchedule = head.pendingSchedule := if_neg hne
    have hnone : q.promote.header.newProducers = none := hqnew
    have hpa : q.promote.activeSchedule = head.pendingSchedule := hqp
    refine ⟨q.promote, startBlock_of_promotes hg hpromotes pr, ?_, ?_, fun _ => hnone⟩
    · rw [hnone]
      refine ⟨fun h => absurd rfl h, fun pr hpr => ?_⟩
      show _ = add32 q.promote.activeSchedule.version 1
      rcases h with h | h
      · rw [hpa, ← hlatest]
        exact h.proposed pr hpr
      · rw [h.proposed] at hpr
        cases hpr
    · rcases h with h | h
      · exact Or.inr (by rw [hpa]; exact h.pending hne)
      · exact Or.inl (by rw [hpa, h.pending])
  · have h : Versioned head proposed := by
      rcases h with h | h
      · exact h
      · have hempty : head.pendingSchedule.producers = [] := by
          by_contra hne
          refine hpromotes ⟨hqp ▸ hne, ?_⟩
          rw [hq, setConfirmed_pendingScheduleLibNum, hlib, h.libNum]
          exact Nat.zero_le _
        exact ⟨fun hne => absurd hempty hne, fun pr hpr => by rw [h.proposed] at hpr; cases hpr⟩
    rcases startBlock_of_not_promotes hg hpromotes pr with hstart | ⟨num, sch, rfl, hroom, hstart⟩
    · refine ⟨q, hstart, ?_, Or.inl hqa, fun _ => hqnew⟩
      rw [hqnew]
      exact h.congr hqp hqa
    · have hempty : head.pendingSchedule.producers = [] := hp ▸ hroom
      have hlatest : head.latestSchedule = head.activeSchedule := if_pos hempty
      have hversion : sch.version = add32 q.activeSchedule.version 1 := by
        rw [hqa, ← hlatest]
        exact h.proposed (num, sch) ((hpr.resolve_right fun h => by cases h).symm)
      refine ⟨_, hstart.trans (setNewProducers_eq_ok.mpr ⟨hversion, hqp ▸ hempty, rfl⟩), ?_,
        Or.inl hqa, fun h => by cases h⟩
      exact ⟨fun _ => hversion, fun pr hpr => by cases hpr⟩

end BlockHeaderState

/-! ## Runs -/

def Tip.schedules (t : Tip) : List ProducerSchedule := t.blocks.map (·.state.activeSchedule)

/-- The versions at the tip. -/
structure Scheduled (t : Tip) : Prop where
  versions : Versioned t.head t.db.proposedSchedule ∨ Unpromoted t.head t.db.proposedSchedule
  head : t.schedules.head? = some t.head.activeSchedule
  bound : t.head.activeSchedule.version < t.blocks.length
  grows : t.schedules.IsChain (Grows (add32 · 1))
  grows_exactly : t.blocks.length ≤ 2 ^ 32 → t.schedules.IsChain (Grows (· + 1))

/-- The versions in a pending block. -/
structure ScheduledPending (t : Tip) (p : PendingBlock) : Prop where
  versions : Versioned p.blockState p.db.proposedSchedule
  grows : Grows (add32 · 1) p.blockState.activeSchedule t.head.activeSchedule

theorem add32_one_le (v : Nat) : add32 v 1 ≤ v + 1 := Nat.mod_le _ _

theorem add32_one_eq {v : Nat} (h : v + 1 < 2 ^ 32) : add32 v 1 = v + 1 := Nat.mod_eq_of_lt h

theorem isChain_schedules {t : Tip} {next : Nat → Nat} {new : ProducerSchedule}
    (hhead : t.schedules.head? = some t.head.activeSchedule)
    (hchain : t.schedules.IsChain (Grows next)) (hnew : Grows next new t.head.activeSchedule) :
    (new :: t.schedules).IsChain (Grows next) := by
  cases hs : t.schedules with
  | nil => exact List.isChain_singleton _
  | cons =>
    rw [hs] at hhead hchain
    obtain rfl := Option.some.inj hhead
    exact List.isChain_cons_cons.mpr ⟨hnew, hchain⟩

theorem Scheduled.commit {c : Crypto} {t : Tip} {p : PendingBlock} (ht : Scheduled t)
    (hp : ScheduledPending t p) (actionMroot transactionMroot : Digest) (signature : Signature) :
    Scheduled (t.commit c p actionMroot transactionMroot signature) where
  versions := Or.inl (hp.versions.congr rfl rfl)
  head := rfl
  bound := by
    show p.blockState.activeSchedule.version < t.blocks.length + 1
    rcases hp.grows with heq | heq
    · rw [heq]
      exact ht.bound.trans (Nat.lt_succ_self _)
    · rw [heq]
      exact (add32_one_le _).trans_lt (Nat.succ_lt_succ ht.bound)
  grows := isChain_schedules ht.head ht.grows hp.grows
  grows_exactly := by
    intro hlen
    have hlen : t.blocks.length < 2 ^ 32 := hlen
    refine isChain_schedules ht.head (ht.grows_exactly hlen.le) ?_
    refine hp.grows.imp id fun heq => heq.trans (add32_one_eq ?_)
    exact (Nat.succ_le_of_lt ht.bound).trans_lt hlen

namespace BlockBuilder

theorem proposal_eq (n : BlockBuilder) (incomplete : Bool) :
    n.proposal incomplete = n.tip.db.proposedSchedule ∨ n.proposal incomplete = none := by
  unfold proposal
  split_ifs
  exacts [Or.inl rfl, Or.inr rfl]

theorem opened_versioned {n : BlockBuilder} {incomplete : Bool} {p : BlockHeaderState}
    {onblock : Execution} (hnone : n.keeps incomplete = false → p.header.newProducers = none)
    (h : Versioned p (if p.header.newProducers.isSome then none else n.tip.db.proposedSchedule)) :
    Versioned p (n.opened incomplete p onblock).db.proposedSchedule := by
  unfold opened
  split_ifs with hkeeps
  · exact transact_keeps (J := fun db => Versioned p db.proposedSchedule)
      (Execution.exec_keeps Call.exec_versioned) _ h
  · rw [hnone (Bool.eq_false_of_not_eq_true hkeeps)] at h
    exact h

theorem building_scheduled (c : Crypto) (trxId : Transaction → Digest) :
    Building c trxId (fun _ _ => True) Scheduled ScheduledPending where
  start := by
    intro n when confirmed incomplete onblock p _ ht hp
    obtain ⟨g, hg, -⟩ := bind_eq_ok.mp hp
    obtain ⟨p', hp', hversions, hgrows, hnone⟩ :=
      BlockHeaderState.startBlock_versioned confirmed ht.versions hg (n.proposal_eq incomplete)
    obtain rfl : p = p' := Except.ok.inj (hp.symm.trans hp')
    refine ⟨opened_versioned (fun hkeeps => hnone ?_) hversions, hgrows⟩
    unfold proposal
    rw [hkeeps]
    rfl
  input := by
    intro n p trx x s _ _ hp hx
    obtain ⟨transactions, -, hx⟩ := inputTransaction_eq_ok hx
    exact ⟨Execution.of_exec hx Call.exec_versioned hp.versions, hp.grows⟩
  scheduled := by
    intro n p x s _ _ hp hx
    exact ⟨Execution.of_exec hx Call.exec_versioned hp.versions, hp.grows⟩
  commit := fun ht hp => ht.commit hp _ _ _

theorem scheduled_genesis (c : Crypto) (producers : List ProducerKey) (initialTimestamp : Nat)
    (chainId : Digest) (speculative : Bool) (conf : Lists (FlatSet Name)) (configDb : ConfigDb)
    (maxTransactionLifetime : Nat) :
    Scheduled (genesis c producers initialTimestamp chainId speculative conf configDb
      maxTransactionLifetime).tip where
  versions := Or.inr ⟨rfl, rfl, rfl⟩
  head := rfl
  bound := Nat.one_pos
  grows := List.isChain_singleton _
  grows_exactly := fun _ => List.isChain_singleton _

/-- **The versions of the schedules.** In every state that a run from genesis reaches, whatever the
contracts have proposed in its blocks: a block that has a header template can be started, so that
neither assertion about a proposed schedule fails, and along the chain of the state each active
schedule is that of the block before, or it has the next version. Versions are 32-bit values; in a
chain of at most `2^32` blocks they do not wrap. -/
theorem schedule_versions (c : Crypto) (trxId : Transaction → Digest) (producers : List ProducerKey)
    (initialTimestamp : Nat) (chainId : Digest) (speculative : Bool)
    (conf : Lists (FlatSet Name)) (configDb : ConfigDb) (maxTransactionLifetime : Nat)
    (l : List BuilderEvent) :
    let n := run (step c trxId) (genesis c producers initialTimestamp chainId speculative conf
      configDb maxTransactionLifetime) l
    (∀ when confirmed incomplete g, n.tip.head.generateNext c when = .ok g →
      ∃ p, n.tip.head.startBlock c when confirmed (n.proposal incomplete) = .ok p) ∧
    n.tip.schedules.IsChain (fun new old => new = old ∨ new.version = add32 old.version 1) ∧
    (n.tip.blocks.length ≤ 2 ^ 32 →
      n.tip.schedules.IsChain (fun new old => new = old ∨ new.version = old.version + 1)) := by
  intro n
  have h : Holds Scheduled ScheduledPending n :=
    (building_scheduled c trxId).run (holds_genesis (scheduled_genesis _ _ _ _ _ _ _ _)) along_true
  refine ⟨fun when confirmed incomplete g hg => ?_, h.tip.grows, h.tip.grows_exactly⟩
  obtain ⟨p, hp, -⟩ := BlockHeaderState.startBlock_versioned confirmed h.tip.versions hg
    (n.proposal_eq incomplete)
  exact ⟨p, hp⟩

/-- A schedule that is proposed in one block is pending in the next and active in the one after. -/
example :
    let block (calls : List Call) : List BuilderEvent :=
      [.startBlock 0 0 false ⟨calls, false⟩, .commitBlock 0 0 0]
    let n := run (step toyCrypto fun _ => 0) toyGenesis
      (block [.setProposedProducers [⟨2, 8⟩]] ++ block [] ++ block [])
    n.tip.schedules.map (·.version) = [1, 0, 0, 0] := by
  decide +kernel

end BlockBuilder

end BaccChain
