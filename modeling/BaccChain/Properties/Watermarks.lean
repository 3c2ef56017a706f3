import BaccChain.Plugins.ProducerPlugin
import BaccChain.Properties.HeaderPath
import BaccChain.Commons.Run
import Mathlib.Order.Interval.Finset.Nat

/-!
# A node confirms no number twice

The watermarks keep a node from confirming a number twice as long as they do not fall.

## Main definitions

* `Cautious`: watermarks are not lowered

## Main results

* `signed_pairwise_disjoint`: confirmed ranges are disjoint
* `number_confirmed_twice`: two forks between which they fall
-/

namespace BaccChain

open Commons (Table Along run bind_eq_ok pure_eq_ok check_eq_ok)
open Commons.Program (exists_unit)

def BlockHeaderState.confirmedRange (b : BlockHeaderState) : Finset Nat :=
  Finset.Icc (b.blockNum - b.header.confirmed) b.blockNum

namespace ProducerPlugin

variable {c : Crypto} {plugin : ProducerPlugin} {node node' : ProducerNode} {e : NodeEvent}
  {bsp pbs : BlockHeaderState}

variable (c plugin) in
def KeepsWatermarks (node : ProducerNode) (bsp : BlockHeaderState) : Prop :=
  ¬ plugin.Ignores node bsp → ∀ p ∈ plugin.newProducers c bsp,
    ∀ watermark ∈ node.producerWatermarks.find p, watermark ≤ bsp.blockNum

instance (node : ProducerNode) (bsp : BlockHeaderState) :
    Decidable (plugin.KeepsWatermarks c node bsp) :=
  inferInstanceAs (Decidable (_ → _))

variable (c plugin) in
def Cautious (node : ProducerNode) : NodeEvent → Prop
  | .acceptBlock bsp => plugin.KeepsWatermarks c node bsp
  | .produceBlock i => ∀ bsp, plugin.signBlock c node i = .ok bsp →
      i.commits = true ∧ plugin.KeepsWatermarks c node bsp
  | _ => True

instance (node : ProducerNode) : (e : NodeEvent) → Decidable (plugin.Cautious c node e)
  | .acceptBlock bsp => inferInstanceAs (Decidable (plugin.KeepsWatermarks c node bsp))
  | .switchHead _ => .isTrue trivial
  | .startBlock _ => .isTrue trivial
  | .produceBlock i => inferInstanceAs (Decidable (∀ bsp, plugin.signBlock c node i = .ok bsp → _))

/-! ## Watermarks -/

theorem find_foldl_insert (l : List Name) (n : Nat) (t : Table Name Nat) (q : Name) :
    (l.foldl (fun t p => t.insert p n) t).find q = if q ∈ l then some n else t.find q := by
  induction l generalizing t with
  | nil => simp
  | cons p l ih =>
    rw [List.foldl_cons, ih, Table.find_insert]
    by_cases hl : q ∈ l
    · simp [hl]
    · by_cases hp : q = p
      · simp [hp]
      · simp [hl, hp, Ne.symm hp]

def Rises (t t' : Table Name Nat) : Prop :=
  ∀ p w, t.find p = some w → ∃ w', t'.find p = some w' ∧ w ≤ w'

theorem Rises.refl (t : Table Name Nat) : Rises t t := fun _ w h => ⟨w, h, le_rfl⟩

variable (c plugin node bsp)

theorem onBlock_frame :
    (plugin.onBlock c node bsp).signed = node.signed ∧
      (plugin.onBlock c node bsp).pending = node.pending ∧
      (plugin.onBlock c node bsp).head = node.head := by
  unfold onBlock
  split_ifs <;> exact ⟨rfl, rfl, rfl⟩

theorem find_onBlock (p : Name) : (plugin.onBlock c node bsp).producerWatermarks.find p =
    if ¬ plugin.Ignores node bsp ∧ p ∈ plugin.newProducers c bsp then some bsp.blockNum
    else node.producerWatermarks.find p := by
  by_cases hign : plugin.Ignores node bsp
  · simp [onBlock, hign]
  · rw [onBlock, if_neg hign]
    simp only [find_foldl_insert, hign, not_false_eq_true, true_and]
    split_ifs <;> rfl

variable {bsp}

theorem rises_onBlock (h : plugin.KeepsWatermarks c node bsp) :
    Rises node.producerWatermarks (plugin.onBlock c node bsp).producerWatermarks := by
  intro p w hw
  rw [find_onBlock]
  split_ifs with hp
  · exact ⟨bsp.blockNum, rfl, h hp.1 p hp.2 w hw⟩
  · exact ⟨w, hw, le_rfl⟩

variable (bsp)

theorem commitBlock_frame :
    (plugin.commitBlock c node bsp).signed = node.signed ∧
      (plugin.commitBlock c node bsp).pending = none ∧
      (plugin.commitBlock c node bsp).head = bsp :=
  onBlock_frame c plugin { node with head := bsp, pending := none } bsp

variable {c plugin node bsp}

theorem find_commitBlock_self :
    (plugin.commitBlock c node bsp).producerWatermarks.find bsp.header.producer =
      some bsp.blockNum :=
  Table.find_insert_self _ _ _

theorem rises_commitBlock (h : plugin.KeepsWatermarks c node bsp)
    (hnum : ∀ w, node.producerWatermarks.find bsp.header.producer = some w → w ≤ bsp.blockNum) :
    Rises node.producerWatermarks (plugin.commitBlock c node bsp).producerWatermarks := by
  intro p w hw
  by_cases hp : bsp.header.producer = p
  · subst hp
    exact ⟨_, find_commitBlock_self, hnum w hw⟩
  · obtain ⟨w', hw', hle⟩ :=
      rises_onBlock c plugin { node with head := bsp, pending := none } h p w hw
    refine ⟨w', ?_, hle⟩
    rw [commitBlock, Table.find_insert_ne _ _ hp, hw']

/-! ## Pending blocks -/

variable {scheduled : ProducerKey}

theorem startBlock_pending {head : BlockHeaderState} {when confirm : Nat}
    {proposed : Option (Nat × ProducerSchedule)} (hwhen : when ≠ 0)
    (hsched : head.getScheduledProducer when = .ok scheduled)
    (h : head.startBlock c when confirm proposed = .ok pbs) :
    pbs.header.producer = scheduled.producerName ∧ pbs.header.confirmed = confirm ∧
      pbs.blockNum = add32 head.blockNum 1 := by
  obtain ⟨g, newProducers, hg, hadopt, hheader⟩ := BlockHeaderState.startBlock_eq_ok h
  obtain ⟨t, prokey, merkle, htime, hprokey, -, rfl⟩ :=
    BlockHeaderState.generateNext_eq_ok.mp hg
  obtain rfl : t = when := by
    rcases BlockHeaderState.nextTime_eq_ok.mp htime with ⟨-, -, rfl⟩ | ⟨rfl, -⟩
    · rfl
    · exact absurd rfl hwhen
  obtain rfl : prokey = scheduled := Except.ok.inj (hprokey.symm.trans hsched)
  refine ⟨by rw [hheader]; rfl, by rw [hheader], ?_⟩
  rw [BlockHeaderState.adoptNewProducers_blockNum hadopt,
    BlockHeaderState.maybePromotePending_blockNum, BlockHeaderState.setConfirmed_blockNum]
  rfl

theorem startBlock_eq_ok {i : StartInputs} (h : plugin.startBlock c node i = .ok node') :
    (node'.signed = node.signed ∧ node'.producerWatermarks = node.producerWatermarks ∧
      node'.head = node.head) ∧
    (node' = node ∨ node'.pendingBlockMode = .speculating ∨ node'.pending = none ∨
      ∃ pbs scheduled, node'.pending = some pbs ∧ plugin.Produces node i scheduled ∧
        pbs.header.producer = scheduled.producerName ∧
        pbs.header.confirmed = node.blocksToConfirm scheduled.producerName ∧
        pbs.blockNum = add32 node.head.blockNum 1) := by
  unfold startBlock at h
  split_ifs at h with hread
  · cases h
    exact ⟨⟨rfl, rfl, rfl⟩, .inl rfl⟩
  obtain ⟨scheduled, hsched, h⟩ := bind_eq_ok.mp h
  dsimp only at h
  split_ifs at h with hwait hproduces
  · cases h
    exact ⟨⟨rfl, rfl, rfl⟩, .inr (.inl rfl)⟩
  all_goals
    split at h
    next => cases h; exact ⟨⟨rfl, rfl, rfl⟩, .inr (.inr (.inl rfl))⟩
    next pbs hpbs =>
      cases h
      refine ⟨⟨rfl, rfl, rfl⟩, ?_⟩
      have hpending := startBlock_pending i.blockTime_ne hsched hpbs
      first
        | exact .inr (.inr (.inr ⟨pbs, scheduled, rfl, of_decide_eq_true hproduces, hpending⟩))
        | exact .inr (.inl (by simp [hproduces]))

variable {i : ProduceInputs}

theorem signBlock_eq_ok (h : plugin.signBlock c node i = .ok bsp) :
    node.pendingBlockMode = .producing ∧ ∃ pbs, node.pending = some pbs ∧
      bsp.header.producer = pbs.header.producer ∧
      bsp.header.confirmed = pbs.header.confirmed ∧ bsp.blockNum = pbs.blockNum := by
  simp only [signBlock, bind_eq_ok, check_eq_ok, exists_unit] at h
  obtain ⟨hmode, h⟩ := h
  refine ⟨hmode, ?_⟩
  split at h
  next => cases h
  next pbs hpending =>
    simp only [bind_eq_ok, check_eq_ok, exists_unit] at h
    obtain ⟨-, hsign⟩ := h
    obtain ⟨sig, rfl, -⟩ := BlockHeaderState.sign_eq_ok hsign
    exact ⟨pbs, hpending, rfl, rfl, rfl⟩

/-! ## What the watermarks guarantee -/

def BeginsAbove (a b : BlockHeaderState) : Prop :=
  a.header.producer = b.header.producer → a.blockNum < b.blockNum - b.header.confirmed

/-- The watermarks cover the signed blocks, a pending block that is to be produced begins above the
watermark of its producer, and each signed block begins above the earlier ones. -/
structure Guarded (node : ProducerNode) : Prop where
  covered : ∀ b ∈ node.signed, ∃ w, node.producerWatermarks.find b.header.producer = some w ∧
    b.blockNum ≤ w
  fresh : ∀ pbs, node.pending = some pbs → node.pendingBlockMode = .producing →
    pbs.blockNum < 2 ^ 32 ∧ ∀ w, node.producerWatermarks.find pbs.header.producer = some w →
      w < pbs.blockNum - pbs.header.confirmed
  apart : node.signed.Pairwise BeginsAbove
  sized : node.head.blockNum < 2 ^ 32

theorem Guarded.of_rises (h : Guarded node) (hsigned : node'.signed = node.signed)
    (hrises : Rises node.producerWatermarks node'.producerWatermarks)
    (hpending : node'.pending = none) (hsized : node'.head.blockNum < 2 ^ 32) : Guarded node' where
  covered b hb := by
    obtain ⟨w, hw, hle⟩ := h.covered b (hsigned ▸ hb)
    obtain ⟨w', hw', hle'⟩ := hrises _ w hw
    exact ⟨w', hw', hle.trans hle'⟩
  fresh pbs hpbs := by
    rw [hpending] at hpbs
    cases hpbs
  apart := hsigned ▸ h.apart
  sized := hsized

theorem watermark_lt {i : StartInputs} (hsized : node.head.blockNum < 2 ^ 32)
    (h : plugin.Produces node i scheduled) {w : Nat}
    (hw : node.producerWatermarks.find scheduled.producerName = some w) :
    w < add32 node.head.blockNum 1 - node.blocksToConfirm scheduled.producerName := by
  obtain ⟨-, -, -, -, -, hlt⟩ := h
  have hlt := hlt w hw
  unfold add32 at hlt ⊢
  simp only [ProducerNode.blocksToConfirm, hw]
  have hnowrap : node.head.blockNum + 1 < 2 ^ 32 := by
    by_contra hwrap
    rw [show node.head.blockNum + 1 = 2 ^ 32 by omega, Nat.mod_self] at hlt
    omega
  rw [Nat.mod_eq_of_lt hnowrap] at hlt ⊢
  have hmod := Nat.mod_le (node.head.blockNum - w) (2 ^ 16)
  split_ifs <;> omega

theorem guarded_startBlock {i : StartInputs} (h : Guarded node)
    (hs : plugin.startBlock c node i = .ok node') : Guarded node' := by
  obtain ⟨⟨hsigned, hmarks, hhead⟩, hcases⟩ := startBlock_eq_ok hs
  refine ⟨by rw [hsigned, hmarks]; exact h.covered, fun pbs hpbs hmode => ?_,
    hsigned ▸ h.apart, hhead ▸ h.sized⟩
  rcases hcases with rfl | hspec | hnone | ⟨pbs', scheduled, hpbs', hprod, hname, hconf, hnum⟩
  · exact h.fresh pbs hpbs hmode
  · rw [hspec] at hmode
    cases hmode
  · rw [hnone] at hpbs
    cases hpbs
  · obtain rfl : pbs' = pbs := Option.some.inj (hpbs'.symm.trans hpbs)
    rw [hmarks, hname, hconf, hnum]
    exact ⟨Nat.mod_lt _ (by decide), fun w hw => watermark_lt h.sized hprod hw⟩

theorem beginsAbove_of_signBlock (h : Guarded node) (hs : plugin.signBlock c node i = .ok bsp) :
    ∀ a ∈ node.signed, BeginsAbove a bsp := by
  obtain ⟨hmode, pbs, hpbs, hname, hconf, hnum⟩ := signBlock_eq_ok hs
  intro a ha heq
  obtain ⟨w, hw, hle⟩ := h.covered a ha
  rw [heq, hname] at hw
  rw [hconf, hnum]
  exact hle.trans_lt ((h.fresh pbs hpbs hmode).2 w hw)

theorem guarded_produceBlock (h : Guarded node) (hc : plugin.Cautious c node (.produceBlock i)) :
    Guarded (plugin.produceBlock c node i) := by
  unfold produceBlock
  split
  next => exact h.of_rises rfl (Rises.refl _) rfl h.sized
  next bsp hs =>
    obtain ⟨hcommits, hkeeps⟩ := hc bsp hs
    obtain ⟨hmode, pbs, hpbs, hname, hconf, hnum⟩ := signBlock_eq_ok hs
    have hfresh := h.fresh pbs hpbs hmode
    rw [← hname, ← hconf, ← hnum] at hfresh
    simp only [hcommits, if_true]
    obtain ⟨hsigned, hpending, hhead⟩ := commitBlock_frame c plugin node bsp
    have hrises : Rises node.producerWatermarks
        (plugin.commitBlock c node bsp).producerWatermarks :=
      rises_commitBlock hkeeps fun w hw => ((hfresh.2 w hw).trans_le (Nat.sub_le _ _)).le
    have hcommit := h.of_rises hsigned hrises hpending (by rw [hhead]; exact hfresh.1)
    refine ⟨?_, hcommit.fresh, ?_, hcommit.sized⟩
    · intro b hb
      rcases List.mem_append.mp hb with hb | hb
      · exact hcommit.covered b hb
      · obtain rfl := List.mem_singleton.mp hb
        exact ⟨_, find_commitBlock_self, le_rfl⟩
    · refine List.pairwise_append.mpr ⟨hcommit.apart, List.pairwise_singleton _ _, ?_⟩
      intro a ha b hb
      obtain rfl := List.mem_singleton.mp hb
      exact beginsAbove_of_signBlock h hs a (hsigned ▸ ha)

theorem guarded_of_step (h : Guarded node) (hc : plugin.Cautious c node e)
    (hs : plugin.step c e node = .ok node') : Guarded node' := by
  cases e with
  | acceptBlock bsp =>
    obtain rfl := Except.ok.inj hs
    obtain ⟨hsigned, hpending, -⟩ := onBlock_frame c plugin { node with pending := none } bsp
    exact h.of_rises hsigned (rises_onBlock c plugin { node with pending := none } hc) hpending
      bsp.property
  | switchHead head =>
    obtain rfl := Except.ok.inj hs
    exact h.of_rises rfl (Rises.refl _) rfl head.property
  | startBlock => exact guarded_startBlock h hs
  | produceBlock =>
    obtain rfl := Except.ok.inj hs
    exact guarded_produceBlock h hc

theorem BeginsAbove.disjoint {a b : BlockHeaderState} (h : BeginsAbove a b)
    (hp : a.header.producer = b.header.producer) :
    a.blockNum < b.blockNum ∧ Disjoint a.confirmedRange b.confirmedRange := by
  have hlt := h hp
  refine ⟨by omega, ?_⟩
  rw [Finset.disjoint_left]
  intro n hna hnb
  have ha := (Finset.mem_Icc.mp hna).2
  have hb := (Finset.mem_Icc.mp hnb).1
  omega

/-- **No producer confirms a number twice**: along cautious events, of two blocks that the node has
signed for a producer the later has the higher number, and they confirm no number in common. -/
theorem signed_pairwise_disjoint (c : Crypto) (plugin : ProducerPlugin) (head : HeadState)
    (events : List NodeEvent)
    (h : Along (plugin.step c) (plugin.Cautious c) { head := head.val } events) :
    (run (plugin.step c) { head := head.val } events).signed.Pairwise fun a b =>
      a.header.producer = b.header.producer →
        a.blockNum < b.blockNum ∧ Disjoint a.confirmedRange b.confirmedRange := by
  have hstart : Guarded { head := head.val } :=
    ⟨by simp, by simp, List.Pairwise.nil, head.property⟩
  have hend := Commons.run_induction Guarded
    (fun _ _ _ hnode hcautious hstep => guarded_of_step hnode hcautious hstep) hstart h
  exact hend.apart.imp fun hab hp => hab.disjoint hp

/-! ## Two forks -/

def headState (s : BlockHeaderState) : HeadState :=
  if h : s.blockNum < 2 ^ 32 then ⟨s, h⟩ else ⟨{}, by decide⟩

def blocksOn (s : BlockHeaderState)
    (turns : List (Nat × Nat × Option (Nat × ProducerSchedule))) : List HeadState :=
  ((s.turns turns).toOption.getD []).tail.map headState

def firstSlot : Nat := 649251072

def threeProducers : ProducerSchedule := { version := 1, producers := [⟨1, 7⟩, ⟨2, 7⟩, ⟨3, 7⟩] }

/-- Block 5 of a chain of the producers 2 and 3. -/
def forkPoint : HeadState :=
  ((blocksOn (.genesis toyCrypto { producers := [⟨2, 7⟩, ⟨3, 7⟩] } firstSlot 0)
    [(firstSlot + 1, 0, none), (firstSlot + 6, 1, some (0, threeProducers)),
      (firstSlot + 12, 1, none), (firstSlot + 18, 1, none)]).getLast?).getD (headState {})

def produceIn (slot : Nat) : List NodeEvent :=
  [.startBlock { blockTime := slot + 1, blockTime_ne := Nat.succ_ne_zero slot },
    .produceBlock { signatureProvider := (· + 7) }]

/-- A block of producer 2 makes block 3 irreversible and producer 1 active, which signs the blocks 7
and 8. -/
def firstFork : List NodeEvent :=
  (blocksOn forkPoint.val [(firstSlot + 24, 1, none)]).map .acceptBlock ++
    produceIn (firstSlot + 35) ++ produceIn (firstSlot + 36)

/-- Producer 3 goes on alone for two blocks, so that producer 1 becomes active only with block 8 of
producer 2. -/
def secondFork : List NodeEvent :=
  .switchHead forkPoint ::
    (blocksOn forkPoint.val [(firstSlot + 30, 0, none), (firstSlot + 35, 0, none),
      (firstSlot + 38, 1, none)]).map .acceptBlock ++ produceIn (firstSlot + 53)

def localProducer : ProducerPlugin := ⟨[1], [7], 0⟩

theorem signed_pairwise_disjoint_firstFork :
    (run (localProducer.step toyCrypto) { head := forkPoint.val } firstFork).signed.Pairwise
      fun a b => a.header.producer = b.header.producer →
        a.blockNum < b.blockNum ∧ Disjoint a.confirmedRange b.confirmedRange :=
  signed_pairwise_disjoint toyCrypto localProducer forkPoint firstFork (by decide +kernel)

/-- On the second fork the watermark of producer 1 falls from 8 to 7, and its block 9 confirms
number 8 again. -/
theorem number_confirmed_twice :
    (run (localProducer.step toyCrypto) { head := forkPoint.val }
      (firstFork ++ secondFork)).signed.map
        (fun b => (b.header.producer, b.blockNum, b.confirmedRange)) =
      [(1, 7, {7}), (1, 8, {8}), (1, 9, {8, 9})] := by
  decide +kernel

end ProducerPlugin

end BaccChain
