import BaccChain.Properties.Confirmations

/-!
# The window of confirmation counts

The window of a header state has at most 1024 counts, the count of a block is behind those of the
blocks before it, and it lies between one and the number of confirmations that the block needed.

## Main definitions

* `Tracks`: the window of a chain of blocks

## Main results

* `confirmation_window`: its length, entries and bounds
* `proposed_moves_back`: a chain with wrapping numbers
-/

namespace BaccChain

open Commons

namespace BlockHeaderState

variable {c : Crypto} {s s' g : BlockHeaderState}

/-! ## Blocks -/

/-- A block of a chain: its number, and the size of the schedule it was produced under. -/
structure Produced where
  num : Nat
  scheduleSize : Nat

/-- A block on top of `s`: its template, any number of confirmations, and a promotion if there is
one; the completion of the header does not touch the bookkeeping of confirmations. -/
def Produces (c : Crypto) (s : BlockHeaderState) (b : Produced) (s' : BlockHeaderState) : Prop :=
  ∃ when n g, s.generateNext c when = .ok g ∧ SameDpos (g.setConfirmed n).maybePromotePending.1 s' ∧
    b = ⟨s'.blockNum, s.activeSchedule.producers.length⟩

variable {b : Produced}

theorem Produces.parts (h : Produces c s b s') :
    ∃ t prokey merkle n,
      SameDpos ((s.template t prokey merkle).setConfirmed n).maybePromotePending.1
      s' ∧ b = ⟨add32 s.blockNum 1, s.activeSchedule.producers.length⟩ := by
  obtain ⟨when, n, g, hg, hsame, rfl⟩ := h
  obtain ⟨t, prokey, merkle, -, -, -, rfl⟩ := generateNext_eq_ok.mp hg
  refine ⟨t, prokey, merkle, n, hsame, ?_⟩
  rw [hsame.blockNum, maybePromotePending_blockNum, setConfirmed_blockNum]
  rfl

theorem Produces.blockNum (h : Produces c s b s') : s'.blockNum = add32 s.blockNum 1 := by
  obtain ⟨t, prokey, merkle, n, hsame, -⟩ := h.parts
  rw [hsame.blockNum, maybePromotePending_blockNum, setConfirmed_blockNum]
  rfl

/-! ## Entries of the window -/

variable {k : Nat}

theorem setConfirmed_entry (n : Nat) {v : UInt8}
    (hv : (g.setConfirmed n).confirmCount.reverse[k]? = some v) :
    ∃ v', g.confirmCount.reverse[k]? = some v' ∧ (v' ≠ 0 → v ≠ 0 ∧ v.toNat ≤ v'.toNat) := by
  obtain ⟨lo, hr⟩ := confirmLoop_counted g.confirmCount.length (n + 1) g.confirmCount
  obtain ⟨counted, hit, hloop⟩ : ∃ counted hit,
      confirmLoop g.confirmCount.length (n + 1) g.confirmCount = (counted, hit) := ⟨_, _, rfl⟩
  rw [hloop] at hr
  have hlen : counted.length = g.confirmCount.length := hr.length_eq
  obtain ⟨d, hdrop, hbehind⟩ : ∃ d, (g.setConfirmed n).confirmCount = counted.drop d ∧
      ∀ j, d ≤ j → hit ≠ some j := by
    cases hit with
    | none => exact ⟨0, (setConfirmed_of_no_hit n hloop).1, fun j _ => by simp⟩
    | some i =>
      refine ⟨i + 1, (setConfirmed_of_hit n hloop).1, fun j hj heq => ?_⟩
      have : i = j := Option.some.inj heq
      omega
  have hk : k < counted.length - d := by
    have := (List.getElem?_eq_some_iff.mp hv).1
    rwa [List.length_reverse, hdrop, List.length_drop] at this
  rw [hdrop, List.getElem?_reverse (by rwa [List.length_drop]), List.length_drop,
    List.getElem?_drop, hr.getElem] at hv
  rw [List.getElem?_reverse (by omega)]
  have hj : d + (counted.length - d - 1 - k) = g.confirmCount.length - 1 - k := by omega
  rw [hj] at hv
  split_ifs at hv with hin
  · obtain ⟨v', hv', rfl⟩ := Option.map_eq_some_iff.mp hv
    refine ⟨v', hv', fun hne => ⟨fun hzero => ?_, ?_⟩⟩
    · refine hr.ne_zero _ hin.1 hin.2 (hbehind _ (by omega)) ?_
      rw [hr.getElem, if_pos hin, hv, hzero]
    · have := Ledger.toNat_sub_one hne
      omega
  · exact ⟨v, hv, fun hne => ⟨hne, le_rfl⟩⟩

theorem setConfirmed_length_le (n : Nat) :
    (g.setConfirmed n).confirmCount.length ≤ g.confirmCount.length := by
  by_contra hlt
  obtain ⟨v, hv⟩ : ∃ v, (g.setConfirmed n).confirmCount.reverse[g.confirmCount.length]? = some v :=
    ⟨_, List.getElem?_eq_getElem (by rw [List.length_reverse]; omega)⟩
  obtain ⟨v', hv', -⟩ := setConfirmed_entry n hv
  simp at hv'

theorem growConfirmCount_length_le_max
    (h : s.confirmCount.length ≤ maximumTrackedDposConfirmations) :
    s.growConfirmCount.length ≤ maximumTrackedDposConfirmations := by
  unfold growConfirmCount
  split_ifs with hroom
  · rw [List.length_append, List.length_singleton]
    omega
  · have hpos : 0 < maximumTrackedDposConfirmations := by decide
    rw [List.length_append, List.length_singleton, List.length_tail]
    omega

theorem toNat_ofNat_requiredConfs {n : Nat} (hn : n ≤ maxProducers) :
    (UInt8.ofNat (requiredConfs n)).toNat = requiredConfs n ∧ 0 < requiredConfs n := by
  have hmax : maxProducers = 17 := rfl
  have hreq : requiredConfs n = n * 2 / 3 + 1 := Nat.mod_eq_of_lt (by omega)
  rw [UInt8.toNat_ofNat', hreq]
  omega

/-- The counters are those of the last blocks. -/
structure Tracks (l : List Produced) (s : BlockHeaderState) : Prop where
  length_le : s.confirmCount.length ≤ maximumTrackedDposConfirmations
  entry : ∀ k v, s.confirmCount.reverse[k]? = some v →
    ∃ b, l.reverse[k]? = some b ∧ b.num = sub32 s.blockNum k ∧
      v ≠ 0 ∧ v.toNat ≤ requiredConfs b.scheduleSize

variable {l : List Produced}

theorem Tracks.produces (h : Tracks l s) (hb : Produces c s b s')
    (hsize : b.scheduleSize ≤ maxProducers) : Tracks (l ++ [b]) s' := by
  have hnum := hb.blockNum
  obtain ⟨t, prokey, merkle, n, hsame, rfl⟩ := hb.parts
  have hcounts : s'.confirmCount = ((s.template t prokey merkle).setConfirmed n).confirmCount := by
    rw [hsame.confirmCount, maybePromotePending_confirmCount]
  refine ⟨?_, fun k v hv => ?_⟩
  · rw [hcounts]
    exact (setConfirmed_length_le n).trans (growConfirmCount_length_le_max h.length_le)
  · rw [hcounts] at hv
    obtain ⟨v', hv', hle⟩ := setConfirmed_entry n hv
    rw [List.reverse_append, List.reverse_singleton, List.singleton_append, hnum]
    cases k with
    | zero =>
      obtain rfl := Option.some.inj (growConfirmCount_reverse_zero.symm.trans hv')
      obtain ⟨hreq, hpos⟩ := toNat_ofNat_requiredConfs hsize
      have hne : UInt8.ofNat (requiredConfs s.activeSchedule.producers.length) ≠ 0 := by
        intro hzero
        rw [← hreq, hzero] at hpos
        exact absurd hpos (by decide)
      refine ⟨_, rfl, ?_, (hle hne).1, hreq ▸ (hle hne).2⟩
      unfold sub32 add32
      dsimp only
      omega
    | succ k =>
      obtain ⟨b, hb, hbnum, hne, hreq⟩ := h.entry k v' (growConfirmCount_reverse_succ hv')
      have hk : k < s.confirmCount.length := by
        have := (List.getElem?_eq_some_iff.mp (growConfirmCount_reverse_succ hv')).1
        rwa [List.length_reverse] at this
      refine ⟨b, hb, ?_, (hle hne).1, (hle hne).2.trans hreq⟩
      have hmax : maximumTrackedDposConfirmations = 1024 := rfl
      have := h.length_le
      rw [hbnum]
      unfold sub32 add32
      omega

variable {initialSchedule : ProducerSchedule} {initialTimestamp : Nat} {chainId : Digest}

theorem tracks_of_trace
    (ht : Trace (Produces c) (genesis c initialSchedule initialTimestamp chainId) l s)
    (hsize : ∀ b ∈ l, b.scheduleSize ≤ maxProducers) : Tracks l s := by
  induction ht with
  | nil => exact ⟨Nat.zero_le _, fun k v hv => by cases hv⟩
  | snoc _ hb ih =>
    rw [List.forall_mem_append] at hsize
    exact (ih hsize.1).produces hb (hsize.2 _ List.mem_cons_self)

/-! ## Numbers that do not wrap around -/

theorem Consistent.produces (hs : s.Consistent) (hb : Produces c s b s')
    (hnum : s.blockNum + 1 < 2 ^ 32) : s'.Consistent ∧
      s.dposProposedIrreversibleBlocknum ≤ s'.dposProposedIrreversibleBlocknum := by
  obtain ⟨t, prokey, merkle, n, hsame, -⟩ := hb.parts
  have hblock : (s.template t prokey merkle).blockNum < 2 ^ 32 := Nat.mod_lt _ (by decide)
  obtain ⟨hset, hle⟩ := (hs.template hnum t prokey merkle).setConfirmed hblock n
  refine ⟨hsame.consistent hset.maybePromotePending, ?_⟩
  rw [hsame.proposed, maybePromotePending_proposed]
  exact hle

theorem consistent_of_trace
    (ht : Trace (Produces c) (genesis c initialSchedule initialTimestamp chainId) l s)
    (hnum : l.length + 1 < 2 ^ 32) : s.Consistent ∧ s.blockNum = l.length + 1 := by
  induction ht with
  | nil => exact ⟨genesis_consistent _ _ _, genesis_blockNum _ _ _⟩
  | snoc _ hb ih =>
    rw [List.length_append, List.length_singleton] at hnum
    obtain ⟨hs, hblock⟩ := ih (by omega)
    refine ⟨(hs.produces hb (by omega)).1, ?_⟩
    rw [hb.blockNum, hblock, List.length_append, List.length_singleton]
    exact Nat.mod_eq_of_lt hnum

/-- **The window of confirmations** of a chain from genesis whose schedules have 1 to 17 producers:
it has at most 1024 counts, count `i` is that of the block with the number `block_num` minus the
counts behind it, and lies between one and what this block needed when it was produced. As long as
block numbers do not wrap around, the proposed irreversible block is at most the last block, before
all tracked ones, and never moves back. -/
theorem confirmation_window (c : Crypto) (initialSchedule : ProducerSchedule)
    (initialTimestamp : Nat) (chainId : Digest) (l : List Produced) (s : BlockHeaderState)
    (ht : Trace (Produces c) (genesis c initialSchedule initialTimestamp chainId) l s)
    (hsize : ∀ b ∈ l, 1 ≤ b.scheduleSize ∧ b.scheduleSize ≤ maxProducers) :
    s.confirmCount.length ≤ maximumTrackedDposConfirmations ∧
      (∀ i v, s.confirmCount[i]? = some v →
        ∃ b, l[l.length - (s.confirmCount.length - i)]? = some b ∧
          b.num = sub32 s.blockNum (s.confirmCount.length - 1 - i) ∧
          1 ≤ v.toNat ∧ v.toNat ≤ requiredConfs b.scheduleSize) ∧
      (l.length + 1 < 2 ^ 32 →
        s.blockNum = l.length + 1 ∧ s.dposProposedIrreversibleBlocknum ≤ s.blockNum ∧
        (∀ i < s.confirmCount.length, s.dposProposedIrreversibleBlocknum <
          sub32 s.blockNum (s.confirmCount.length - 1 - i)) ∧
        ∀ b s', Produces c s b s' → l.length + 2 < 2 ^ 32 →
          s.dposProposedIrreversibleBlocknum ≤ s'.dposProposedIrreversibleBlocknum) := by
  obtain ⟨hlen, hentry⟩ := tracks_of_trace ht fun b hb => (hsize b hb).2
  refine ⟨hlen, fun i v hv => ?_, fun hnum => ?_⟩
  · obtain ⟨hi, -⟩ := List.getElem?_eq_some_iff.mp hv
    have hrev : s.confirmCount.reverse[s.confirmCount.length - 1 - i]? = some v := by
      rw [List.getElem?_reverse (by omega), ← hv]
      congr 1
      omega
    obtain ⟨b, hb, hbnum, hne, hreq⟩ := hentry _ v hrev
    refine ⟨b, ?_, hbnum, ?_, hreq⟩
    · have hlt := (List.getElem?_eq_some_iff.mp hb).1
      rw [List.length_reverse] at hlt
      rw [← hb, List.getElem?_reverse hlt]
      congr 1
      omega
    · exact Nat.pos_of_ne_zero fun hzero => hne (UInt8.toNat.inj hzero)
  · obtain ⟨hs, hblock⟩ := consistent_of_trace ht hnum
    have hwindow := hs.window_le
    refine ⟨hblock, by omega, fun i hi => ?_, fun b s' hb hnum' => ?_⟩
    · unfold sub32
      omega
    · exact (hs.produces hb (by omega)).2

/-- The first block of four producers waits for two more confirmations. -/
theorem confirmation_window_fourProducers : ∃ l s, Trace (Produces toyCrypto) fourProducers l s ∧
    s.confirmCount = [2] ∧ ∃ b, l[l.length - 1]? = some b ∧ b.num = 2 ∧
      2 ≤ requiredConfs b.scheduleSize := by
  obtain ⟨g, hg, htest⟩ := exists_ok_of_any (x := fourProducers.generateNext toyCrypto 24)
    (p := fun g => (g.setConfirmed 0).maybePromotePending.1.confirmCount = [2] ∧
      (g.setConfirmed 0).maybePromotePending.1.blockNum = 2) (by decide +kernel)
  obtain ⟨hcounts, hnum⟩ := of_decide_eq_true htest
  have ht : Trace (Produces toyCrypto) fourProducers ([] ++ [⟨2, 4⟩])
      (g.setConfirmed 0).maybePromotePending.1 :=
    .snoc .nil ⟨24, 0, g, hg, .refl _, by rw [hnum]; rfl⟩
  have hentry := (confirmation_window toyCrypto _ _ _ _ _ ht (by simp [maxProducers])).2.1 0 2
    (by rw [hcounts]; rfl)
  rw [hcounts, hnum] at hentry
  obtain ⟨b, hb, hbnum, -, hreq⟩ := hentry
  exact ⟨_, _, ht, hcounts, b, hb, hbnum, hreq⟩

/-! ## Numbers that wrap around -/

/-- The state after `k` blocks of a single producer, each of which is final at once. -/
structure Solo (k : Nat) (s : BlockHeaderState) : Prop where
  blockNum : s.blockNum = (k + 1) % 2 ^ 32
  active : s.activeSchedule.producers = [⟨1, 7⟩]
  pending : s.pendingSchedule.producers = [⟨1, 7⟩] ∨ s.pendingSchedule.producers = []
  counts : s.confirmCount = []
  holds : ∃ ids : List Digest, ids.length = k ∧ s.blockrootMerkle.Holds toyCrypto.hashPair ids
  proposed : 0 < k → s.dposProposedIrreversibleBlocknum = s.blockNum

theorem Solo.produces (h : Solo k s) (hk : k < 2 ^ 63) :
    ∃ b s', Produces toyCrypto s b s' ∧ b.scheduleSize = 1 ∧ Solo (k + 1) s' := by
  obtain ⟨ids, rfl, hids⟩ := h.holds
  obtain ⟨merkle, hmerkle, hholds, -⟩ := hids.append hk s.id
  have hturn : s.getScheduledProducer (add32 s.header.timestamp 1) = .ok ⟨1, 7⟩ := by
    have hindex :
        add32 s.header.timestamp 1 % (1 * producerRepetitions) / producerRepetitions = 0 :=
      Nat.div_eq_of_lt (Nat.mod_lt _ (by decide))
    unfold getScheduledProducer
    rw [h.active, List.length_singleton, hindex]
    rfl
  let g := s.template (add32 s.header.timestamp 1) ⟨1, 7⟩ merkle
  have hg : s.generateNext toyCrypto 0 = .ok g :=
    generateNext_eq_ok.mpr ⟨_, _, merkle, rfl, hturn, hmerkle, rfl⟩
  have hgrow : g.confirmCount = [1] := by
    show s.growConfirmCount = [1]
    rw [growConfirmCount, h.counts, h.active]
    rfl
  have hloop : confirmLoop g.confirmCount.length (0 + 1) g.confirmCount = ([0], some 0) := by
    rw [hgrow]
    rfl
  obtain ⟨hcounts, hproposed⟩ := setConfirmed_of_hit 0 hloop
  have hnum : g.blockNum = (ids.length + 1 + 1) % 2 ^ 32 := by
    show add32 s.blockNum 1 = _
    rw [h.blockNum, add32, Nat.mod_add_mod]
  refine ⟨_, (g.setConfirmed 0).maybePromotePending.1, ⟨0, 0, g, hg, .refl _, rfl⟩, ?_, ?_⟩
  · rw [h.active]
    rfl
  · have hactive : (g.setConfirmed 0).activeSchedule.producers = [⟨1, 7⟩] := by
      rw [setConfirmed_activeSchedule]
      exact h.active
    have hpending : (g.setConfirmed 0).pendingSchedule.producers = [⟨1, 7⟩] ∨
        (g.setConfirmed 0).pendingSchedule.producers = [] := by
      rw [setConfirmed_pendingSchedule]
      exact h.pending
    have htree : (g.setConfirmed 0).blockrootMerkle = merkle := by
      obtain ⟨_, _, hset⟩ := g.setConfirmed_eq 0
      rw [hset]
      rfl
    have hkeep : (g.setConfirmed 0).maybePromotePending.1.blockrootMerkle = merkle := by
      rw [← htree]
      unfold maybePromotePending
      split_ifs <;> rfl
    refine ⟨?_, ?_, ?_, ?_, ?_, fun _ => ?_⟩
    · rw [maybePromotePending_blockNum, setConfirmed_blockNum, hnum]
    · unfold maybePromotePending
      split_ifs with hpromotes
      · exact hpending.resolve_right hpromotes.1
      · exact hactive
    · unfold maybePromotePending
      split_ifs with hpromotes
      · exact .inr rfl
      · exact hpending
    · rw [maybePromotePending_confirmCount, hcounts]
      rfl
    · rw [hkeep]
      exact ⟨ids ++ [s.id], by simp, hholds⟩
    · rw [maybePromotePending_proposed, maybePromotePending_blockNum, setConfirmed_blockNum,
        hproposed]
      show sub32 g.blockNum 0 = g.blockNum
      rw [hnum]
      unfold sub32
      omega

theorem exists_solo (k : Nat) (hk : k < 2 ^ 63) : ∃ l s, Trace (Produces toyCrypto)
    (genesis toyCrypto ⟨0, [⟨1, 7⟩]⟩ 0 5) l s ∧ (∀ b ∈ l, b.scheduleSize = 1) ∧ Solo k s := by
  induction k with
  | zero =>
    exact ⟨[], _, .nil, by simp, ⟨genesis_blockNum _ _ _, rfl, .inl rfl, rfl,
      ⟨[], rfl, rfl, [], rfl⟩, fun h => absurd h (lt_irrefl 0)⟩⟩
  | succ k ih =>
    obtain ⟨l, s, ht, hsize, hsolo⟩ := ih (by omega)
    obtain ⟨b, s', hb, hbsize, hsolo'⟩ := hsolo.produces (by omega)
    refine ⟨l ++ [b], s', ht.snoc hb, ?_, hsolo'⟩
    rw [List.forall_mem_append]
    exact ⟨hsize, by simpa using hbsize⟩

/-- **The proposed irreversible block moves back** when block numbers wrap around: after 2 ^ 32 - 2
blocks of a single producer it is number 2 ^ 32 - 1, and the next block has the number zero. -/
theorem proposed_moves_back : ∃ l s b s', Trace (Produces toyCrypto)
    (genesis toyCrypto ⟨0, [⟨1, 7⟩]⟩ 0 5) l s ∧ (∀ b ∈ l, b.scheduleSize = 1) ∧
      Produces toyCrypto s b s' ∧ s.dposProposedIrreversibleBlocknum = 2 ^ 32 - 1 ∧
      s'.dposProposedIrreversibleBlocknum = 0 := by
  obtain ⟨l, s, ht, hsize, hsolo⟩ := exists_solo (2 ^ 32 - 2) (by decide)
  obtain ⟨b, s', hb, -, hsolo'⟩ := hsolo.produces (by decide)
  refine ⟨l, s, b, s', ht, hsize, hb, ?_, ?_⟩
  · rw [hsolo.proposed (by decide), hsolo.blockNum]
    decide
  · rw [hsolo'.proposed (by decide), hsolo'.blockNum]
    decide

end BlockHeaderState

end BaccChain
