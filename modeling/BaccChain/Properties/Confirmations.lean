import BaccChain.Commons.Run
import BaccChain.Properties.Irreversibility

/-!
# One confirmation per producer and block

Each entry of `confirmCount` says how many confirmations a block still lacks. `checkDoubleConfirm`
keeps the ranges that a producer confirms apart.

## Main definitions

* `Ledger`: who has confirmed which block

## Main results

* `confirmations_of_trace`: every producer confirms a block once
* `producer_confirms_twice`: a header that wraps around
-/

namespace BaccChain

open Commons

/-- A block in the record of a chain: its number and producer, how many blocks before it the header
confirms, the size of the schedule that signed it, and the blocks whose counts it has
decremented. -/
structure Minted where
  num : Nat
  producer : Name
  confirmed : Nat
  scheduleSize : Nat
  decremented : List Nat
  deriving DecidableEq

/-- The producers that have confirmed a number. -/
def confirmers (l : List Minted) (x : Nat) : Finset Name :=
  ((l.filter fun b => x ∈ b.decremented).map (·.producer)).toFinset

theorem mem_confirmers {l : List Minted} {x : Nat} {p : Name} :
    p ∈ confirmers l x ↔ ∃ b ∈ l, x ∈ b.decremented ∧ b.producer = p := by
  simp [confirmers, and_assoc]

theorem confirmers_append (l : List Minted) (b : Minted) (x : Nat) :
    confirmers (l ++ [b]) x =
      if x ∈ b.decremented then insert b.producer (confirmers l x) else confirmers l x := by
  rw [confirmers, List.filter_append, List.map_append, List.toFinset_append]
  split_ifs with hx
  · simp [hx, confirmers, Finset.union_comm]
  · simp [hx, confirmers]

theorem card_confirmers_le (l : List Minted) (b : Minted) (x : Nat) :
    (confirmers l x).card ≤ (confirmers (l ++ [b]) x).card := by
  rw [confirmers_append]
  split_ifs
  · exact Finset.card_le_card (Finset.subset_insert _ _)
  · exact le_rfl

namespace BlockHeaderState

variable {c : Crypto} {s s' : BlockHeaderState} {h : SignedBlockHeader}

def decremented (s : BlockHeaderState) (numPrevBlocks : Nat) : List Nat :=
  let counts := s.growConfirmCount
  let counted := (confirmLoop counts.length (numPrevBlocks + 1) counts).1
  ((List.range counts.length).filter fun i => counted[i]? ≠ counts[i]?).map fun i =>
    sub32 (add32 s.blockNum 1) (counts.length - 1 - i)

def mint (s : BlockHeaderState) (h : SignedBlockHeader) : Minted where
  num := add32 s.blockNum 1
  producer := h.producer
  confirmed := h.confirmed
  scheduleSize := s.activeSchedule.producers.length
  decremented := s.decremented h.confirmed

/-- A step that adds a block. -/
def Mints (c : Crypto) (s : BlockHeaderState) (b : Minted) (s' : BlockHeaderState) : Prop :=
  ∃ h skip, s.next c h skip = .ok s' ∧ b = s.mint h

/-! ## The counts by age -/

/-- The counts of the latest `m` blocks have gone down by one, and the last of these is the only one
that may have reached zero. -/
structure CountedLatest (m : Nat) (counts counted : List UInt8) : Prop where
  length_eq : counted.length = counts.length
  le_length : m ≤ counts.length
  getElem : ∀ k, counted.reverse[k]? =
    if k < m then (counts.reverse[k]?).map (· - 1) else counts.reverse[k]?
  ne_zero : ∀ k, k + 1 < m → counted.reverse[k]? ≠ some 0

theorem Counted.latest {n lo : Nat} {counts : List UInt8} {r : List UInt8 × Option Nat}
    (hr : Counted counts.length n lo counts r) :
    CountedLatest (counts.length - lo) counts r.1 where
  length_eq := hr.length_eq
  le_length := Nat.sub_le _ _
  getElem k := by
    by_cases hk : k < counts.length
    · rw [List.getElem?_reverse (hr.length_eq ▸ hk), List.getElem?_reverse hk, hr.length_eq,
        hr.getElem]
      exact if_congr (by omega) rfl rfl
    · have hk' : ¬ k < counts.length - lo := by omega
      rw [if_neg hk', List.getElem?_eq_none, List.getElem?_eq_none]
      · simpa using hk
      · simpa [hr.length_eq] using hk
  ne_zero k hk := by
    rw [List.getElem?_reverse (by rw [hr.length_eq]; omega), hr.length_eq]
    refine hr.ne_zero _ (by omega) (by omega) fun hhit => ?_
    have := (hr.hit _ hhit).1
    omega

theorem growConfirmCount_ne_nil : s.growConfirmCount ≠ [] := by
  unfold growConfirmCount
  simp

theorem map_sub_one_ne {o : Option UInt8} (ho : o ≠ none) : o.map (· - 1) ≠ o := by
  cases o with
  | none => exact absurd rfl ho
  | some v =>
    intro heq
    have hv : v - 1 = v := Option.some.inj heq
    grind

/-- What the confirmations of a block on top of `s` do: the counts of the latest `m` blocks go down,
and these are the blocks of the record. -/
structure StepCounts (s : BlockHeaderState) (n m : Nat) (counted : List UInt8)
    (f : BlockHeaderState) : Prop extends CountedLatest m s.growConfirmCount counted where
  one_le : 1 ≤ m
  le_succ : m ≤ n + 1
  decremented : ∀ x, x ∈ s.decremented n ↔ ∃ k < m, x + k = s.blockNum + 1
  result : (counted.reverse[m - 1]? ≠ some 0 ∧ f.confirmCount.reverse = counted.reverse ∧
      f.dposProposedIrreversibleBlocknum = s.dposProposedIrreversibleBlocknum) ∨
    (counted.reverse[m - 1]? = some 0 ∧ f.confirmCount.reverse = counted.reverse.take (m - 1) ∧
      f.dposProposedIrreversibleBlocknum + (m - 1) = s.blockNum + 1)

theorem mem_decremented {n lo : Nat} (hnum : s.blockNum + 1 < 2 ^ 32)
    (hlen : s.confirmCount.length ≤ s.blockNum)
    (hr : Counted s.growConfirmCount.length (n + 1) lo s.growConfirmCount
      (confirmLoop s.growConfirmCount.length (n + 1) s.growConfirmCount)) (x : Nat) :
    x ∈ s.decremented n ↔
      ∃ k < s.growConfirmCount.length - lo, x + k = s.blockNum + 1 := by
  have hgrow := s.growConfirmCount_length_le
  have hblock : add32 s.blockNum 1 = s.blockNum + 1 := Nat.mod_eq_of_lt hnum
  have hsub : ∀ k < s.growConfirmCount.length,
      sub32 (s.blockNum + 1) k = s.blockNum + 1 - k := by
    intro k hk
    unfold sub32
    omega
  simp only [BlockHeaderState.decremented, List.mem_map, List.mem_filter, List.mem_range, hblock,
    decide_eq_true_eq]
  constructor
  · rintro ⟨i, ⟨hi, hne⟩, rfl⟩
    have hin : lo ≤ i ∧ i < s.growConfirmCount.length := by
      by_contra hout
      exact hne (by rw [hr.getElem, if_neg hout])
    refine ⟨s.growConfirmCount.length - 1 - i, by omega, ?_⟩
    rw [hsub _ (by omega)]
    omega
  · rintro ⟨k, hk, hx⟩
    have hi : s.growConfirmCount.length - 1 - k < s.growConfirmCount.length := by omega
    refine ⟨s.growConfirmCount.length - 1 - k, ⟨hi, ?_⟩, ?_⟩
    · rw [hr.getElem, if_pos ⟨by omega, hi⟩]
      exact map_sub_one_ne (by simpa using hi)
    · have hback : s.growConfirmCount.length - 1 - (s.growConfirmCount.length - 1 - k) = k := by
        omega
      rw [hback, hsub k (by omega)]
      omega

theorem stepCounts (n : Nat) (hnum : s.blockNum + 1 < 2 ^ 32)
    (hlen : s.confirmCount.length ≤ s.blockNum) (t : Nat) (prokey : ProducerKey)
    (merkle : IncrementalMerkle) :
    ∃ m counted, StepCounts s n m counted ((s.template t prokey merkle).setConfirmed n) := by
  obtain ⟨lo, hr⟩ := confirmLoop_counted s.growConfirmCount.length (n + 1) s.growConfirmCount
  have hpos : 0 < s.growConfirmCount.length := List.length_pos_iff.mpr growConfirmCount_ne_nil
  have hgrow := s.growConfirmCount_length_le
  have hle := hr.le_lo
  obtain ⟨counted, hit, hloop⟩ : ∃ counted hit,
      confirmLoop s.growConfirmCount.length (n + 1) s.growConfirmCount = (counted, hit) :=
    ⟨_, _, rfl⟩
  have hdecremented := mem_decremented hnum hlen hr
  rw [hloop] at hr
  have hlo : lo < s.growConfirmCount.length := by
    cases hit with
    | none =>
      have := hr.no_hit rfl
      omega
    | some k => exact (hr.hit k rfl).2.1
  have hlast : counted.reverse[s.growConfirmCount.length - lo - 1]? = counted[lo]? := by
    rw [List.getElem?_reverse (by rw [hr.length_eq]; omega), hr.length_eq]
    congr 1
    omega
  refine ⟨s.growConfirmCount.length - lo, counted, hr.latest, by omega, by omega, hdecremented, ?_⟩
  rw [hlast]
  cases hit with
  | none =>
    obtain ⟨hcounts, hproposed⟩ := setConfirmed_of_no_hit (s := s.template t prokey merkle) n hloop
    exact Or.inl ⟨hr.ne_zero lo le_rfl hlo (by simp), congrArg List.reverse hcounts, hproposed⟩
  | some i =>
    obtain ⟨hcounts, hproposed⟩ := setConfirmed_of_hit (s := s.template t prokey merkle) n hloop
    obtain ⟨rfl, -, hzero⟩ := hr.hit i rfl
    have hblock : (s.template t prokey merkle).blockNum = s.blockNum + 1 := Nat.mod_eq_of_lt hnum
    have hcl : counted.length = s.growConfirmCount.length := hr.length_eq
    refine Or.inr ⟨hzero, ?_, ?_⟩
    · rw [hcounts, List.reverse_drop, hcl, Nat.sub_sub]
    · rw [hproposed, hblock]
      unfold sub32
      omega

theorem growConfirmCount_reverse_zero : s.growConfirmCount.reverse[0]? =
    some (UInt8.ofNat (requiredConfs s.activeSchedule.producers.length)) := by
  unfold growConfirmCount
  simp

theorem growConfirmCount_reverse_succ {k : Nat} {v : UInt8}
    (h : s.growConfirmCount.reverse[k + 1]? = some v) : s.confirmCount.reverse[k]? = some v := by
  unfold growConfirmCount at h
  rw [List.reverse_append] at h
  split_ifs at h
  · simpa using h
  · simp only [List.reverse_singleton, List.singleton_append, List.getElem?_cons_succ,
      ← List.drop_one, List.reverse_drop, List.getElem?_take] at h
    split_ifs at h
    exact h

/-! ## The record of a chain -/

def Lacks (l : List Minted) (b : Minted) (v : Nat) : Prop :=
  b.scheduleSize * 2 / 3 + 1 ≤ v + (confirmers l b.num).card

theorem Lacks.append {l : List Minted} {b : Minted} {v : Nat} (h : Lacks l b v) (b' : Minted) :
    Lacks (l ++ [b']) b v :=
  h.trans (Nat.add_le_add_left (card_confirmers_le l b' b.num) v)

theorem Lacks.append_of_mem {l : List Minted} {b b' : Minted} {v : Nat} (h : Lacks l b (v + 1))
    (hmem : b.num ∈ b'.decremented) (hnew : b'.producer ∉ confirmers l b.num) :
    Lacks (l ++ [b']) b v := by
  unfold Lacks at h ⊢
  rw [confirmers_append, if_pos hmem, Finset.card_insert_of_notMem hnew]
  omega

/-- The record of a chain from genesis agrees with its last state: who produced last, whose entry
was dropped, and how many confirmations each block lacks. -/
structure Ledger (l : List Minted) (s : BlockHeaderState) : Prop where
  num : ∀ b ∈ l, b.num ≤ s.blockNum
  last : ∀ p v, s.producerToLastProduced.find p = some v → ∀ b ∈ l, b.producer = p → b.num ≤ v
  dropped : ∀ b ∈ l, s.producerToLastProduced.find b.producer = none →
    s.pendingSchedule.producers ≠ [] → b.num ≤ s.pendingScheduleLibNum
  active : l ≠ [] → ∀ p ∈ s.activeSchedule.names, ∃ v, s.producerToLastProduced.find p = some v
  fresh : l = [] → s.pendingSchedule = s.activeSchedule ∧ s.pendingScheduleLibNum = 0
  range : ∀ b ∈ l, ∀ x ∈ b.decremented, b.num ≤ x + b.confirmed ∧ x ≤ b.num
  disjoint : l.Pairwise fun b b' => b.producer = b'.producer → b.decremented.Disjoint b'.decremented
  window : ∀ k v, s.confirmCount.reverse[k]? = some v →
    ∃ b ∈ l, b.num + k = s.blockNum ∧ v ≠ 0 ∧ Lacks l b v.toNat
  proposed : s.dposProposedIrreversibleBlocknum ≠ 0 →
    ∃ b ∈ l, b.num = s.dposProposedIrreversibleBlocknum ∧ Lacks l b 0

theorem Ledger.genesis (initialSchedule : ProducerSchedule) (initialTimestamp : Nat)
    (chainId : Digest) : Ledger [] (genesis c initialSchedule initialTimestamp chainId) where
  num b hb := by cases hb
  last p v hv := by cases hv
  dropped b hb := by cases hb
  active hne := absurd rfl hne
  fresh _ := ⟨rfl, rfl⟩
  range b hb := by cases hb
  disjoint := List.Pairwise.nil
  window k v hv := by cases hv
  proposed hne := absurd rfl hne

namespace Ledger

variable {l : List Minted} {skip : Bool}

theorem lt_of_checkDoubleConfirm (hl : Ledger l s) (hnum : s.blockNum + 1 < 2 ^ 32)
    (hconf : h.confirmed ≤ s.blockNum + 1) (hmem : h.producer ∈ s.activeSchedule.names)
    (hcheck : s.checkDoubleConfirm (add32 s.blockNum 1) h = .ok ()) {b : Minted} (hb : b ∈ l)
    (hproducer : b.producer = h.producer) : b.num + h.confirmed < s.blockNum + 1 := by
  obtain ⟨v, hv⟩ := hl.active (List.ne_nil_of_mem hb) _ hmem
  unfold checkDoubleConfirm at hcheck
  rw [hv] at hcheck
  have hlt := check_eq_ok.mp hcheck
  have hle := hl.last _ v hv b hb hproducer
  have hblock : add32 s.blockNum 1 = s.blockNum + 1 := Nat.mod_eq_of_lt hnum
  rw [hblock] at hlt
  unfold sub32 at hlt
  omega

theorem toNat_ofNat_requiredConfs_sub_one {n : Nat} (hn : n * 2 / 3 ≤ 255) :
    (UInt8.ofNat (requiredConfs n) - 1).toNat = n * 2 / 3 := by
  have hreq : requiredConfs n = n * 2 / 3 + 1 := Nat.mod_eq_of_lt (by omega)
  rw [hreq, UInt8.toNat_sub, UInt8.toNat_ofNat']
  have hone : (1 : UInt8).toNat = 1 := rfl
  rw [hone]
  omega

theorem toNat_sub_one {v : UInt8} (hv : v ≠ 0) : (v - 1).toNat + 1 = v.toNat := by
  have hpos : v.toNat ≠ 0 := fun h => hv (UInt8.toNat.inj h)
  have hlt : v.toNat < 256 := v.toNat_lt
  rw [UInt8.toNat_sub]
  have hone : (1 : UInt8).toNat = 1 := rfl
  rw [hone]
  omega

section Counts

variable {m k : Nat} {v : UInt8} {counted : List UInt8} {f : BlockHeaderState} (hl : Ledger l s)
  (hnum : s.blockNum + 1 < 2 ^ 32) (hsize : s.activeSchedule.producers.length * 2 / 3 ≤ 255)
  (hlater : ∀ b ∈ l, b.producer = h.producer → b.num + h.confirmed < s.blockNum + 1)
  (hstep : StepCounts s h.confirmed m counted f)
include hl hnum hsize hlater hstep

theorem lacks_counted (hv : counted.reverse[k]? = some v) :
    ∃ b ∈ l ++ [s.mint h], b.num + k = s.blockNum + 1 ∧ Lacks (l ++ [s.mint h]) b v.toNat ∧
      (m ≤ k → v ≠ 0) := by
  have hblock : (s.mint h).num = s.blockNum + 1 := Nat.mod_eq_of_lt hnum
  rw [hstep.getElem] at hv
  cases k with
  | zero =>
    have hm : 0 < m := hstep.one_le
    rw [if_pos hm, growConfirmCount_reverse_zero] at hv
    obtain rfl := Option.some.inj hv
    refine ⟨s.mint h, List.mem_append_right _ List.mem_cons_self, hblock, ?_,
      fun hle => absurd hm (Nat.not_lt.mpr hle)⟩
    unfold Lacks
    have hself : (s.mint h).num ∈ (s.mint h).decremented :=
      (hstep.decremented _).mpr ⟨0, hm, hblock⟩
    rw [toNat_ofNat_requiredConfs_sub_one hsize, confirmers_append, if_pos hself]
    have hcard : 1 ≤ (insert (s.mint h).producer (confirmers l (s.mint h).num)).card :=
      Finset.card_pos.mpr (Finset.insert_nonempty _ _)
    exact Nat.add_le_add_left hcard _
  | succ k =>
    obtain ⟨v₀, hv₀⟩ : ∃ v₀, s.growConfirmCount.reverse[k + 1]? = some v₀ := by
      cases hold : s.growConfirmCount.reverse[k + 1]? with
      | none => simp [hold] at hv
      | some v₀ => exact ⟨v₀, rfl⟩
    obtain ⟨b, hb, hbk, hne, hlacks⟩ := hl.window k v₀ (growConfirmCount_reverse_succ hv₀)
    refine ⟨b, List.mem_append_left _ hb, by omega, ?_⟩
    rw [hv₀] at hv
    split_ifs at hv with hk
    · obtain rfl := Option.some.inj hv
      refine ⟨?_, fun hle => absurd hk (Nat.not_lt.mpr hle)⟩
      rw [← toNat_sub_one hne] at hlacks
      refine hlacks.append_of_mem ((hstep.decremented _).mpr ⟨k + 1, hk, by omega⟩) ?_
      intro hconfirmer
      obtain ⟨b', hb', hx, hproducer⟩ := mem_confirmers.mp hconfirmer
      have hrange := (hl.range b' hb' _ hx).2
      have hafter := hlater b' hb' hproducer
      have hle := hstep.le_succ
      omega
    · obtain rfl := Option.some.inj hv
      exact ⟨hlacks.append _, fun _ => hne⟩

theorem window_step (hv : f.confirmCount.reverse[k]? = some v) :
    ∃ b ∈ l ++ [s.mint h], b.num + k = s.blockNum + 1 ∧ v ≠ 0 ∧
      Lacks (l ++ [s.mint h]) b v.toNat := by
  have hcounted : counted.reverse[k]? = some v ∧ (k < m → v ≠ 0) := by
    rcases hstep.result with ⟨hne, hf, -⟩ | ⟨hzero, hf, -⟩
    · rw [hf] at hv
      refine ⟨hv, fun hk => ?_⟩
      rintro rfl
      rcases Nat.lt_or_ge (k + 1) m with hlt | hge
      · exact hstep.ne_zero k hlt hv
      · obtain rfl : k = m - 1 := by omega
        exact hne hv
    · rw [hf, List.getElem?_take] at hv
      split_ifs at hv with hk
      refine ⟨hv, fun _ => ?_⟩
      rintro rfl
      exact hstep.ne_zero k (by omega) hv
  obtain ⟨b, hb, hbk, hlacks, hne⟩ := hl.lacks_counted hnum hsize hlater hstep hcounted.1
  refine ⟨b, hb, hbk, ?_, hlacks⟩
  rcases Nat.lt_or_ge k m with hlt | hge
  · exact hcounted.2 hlt
  · exact hne hge

theorem proposed_step (hne : f.dposProposedIrreversibleBlocknum ≠ 0) :
    ∃ b ∈ l ++ [s.mint h], b.num = f.dposProposedIrreversibleBlocknum ∧
      Lacks (l ++ [s.mint h]) b 0 := by
  rcases hstep.result with ⟨-, -, hsame⟩ | ⟨hzero, -, hhit⟩
  · rw [hsame] at hne ⊢
    obtain ⟨b, hb, hbnum, hlacks⟩ := hl.proposed hne
    exact ⟨b, List.mem_append_left _ hb, hbnum, hlacks.append _⟩
  · obtain ⟨b, hb, hbk, hlacks, -⟩ := hl.lacks_counted hnum hsize hlater hstep hzero
    exact ⟨b, hb, by omega, hlacks⟩

end Counts

section Entries

variable {g : BlockHeaderState}

/-- What the recorded numbers say about the blocks of each producer. -/
structure Entries (l : List Minted) (s : BlockHeaderState) : Prop where
  last : ∀ p v, s.producerToLastProduced.find p = some v → ∀ b ∈ l, b.producer = p → b.num ≤ v
  dropped : ∀ b ∈ l, s.producerToLastProduced.find b.producer = none →
    s.pendingSchedule.producers ≠ [] → b.num ≤ s.pendingScheduleLibNum
  active : ∀ p ∈ s.activeSchedule.names, ∃ v, s.producerToLastProduced.find p = some v

/-- The state after a block is begun, before its confirmations. -/
structure Entered (s : BlockHeaderState) (producer : Name) (g : BlockHeaderState) : Prop where
  header : g.header.producer = producer
  blockNum : g.blockNum = s.blockNum + 1
  active : g.activeSchedule = s.activeSchedule
  pending : g.pendingSchedule = s.pendingSchedule
  pendingLib : g.pendingScheduleLibNum = s.pendingScheduleLibNum
  find : ∀ p, g.producerToLastProduced.find p =
    if producer = p then some (s.blockNum + 1) else s.producerToLastProduced.find p

theorem entered (hnum : s.blockNum + 1 < 2 ^ 32) (t : Nat) (prokey : ProducerKey)
    (merkle : IncrementalMerkle) (n : Nat) :
    Entered s prokey.producerName ((s.template t prokey merkle).setConfirmed n) := by
  have hblock : add32 s.blockNum 1 = s.blockNum + 1 := Nat.mod_eq_of_lt hnum
  refine ⟨?_, ?_, ?_, ?_, ?_, fun p => ?_⟩
  · rw [setConfirmed_header]; rfl
  · rw [setConfirmed_blockNum]; exact hblock
  · rw [setConfirmed_activeSchedule]; rfl
  · rw [setConfirmed_pendingSchedule]; rfl
  · rw [setConfirmed_pendingScheduleLibNum]; rfl
  · rw [setConfirmed_producerToLastProduced, ← hblock]
    exact Table.find_insert _ _ _ _

section Promotion

variable {producer : Name} {b : Minted} (hl : Ledger l s) (hg : Entered s producer g)
  (hb : b.producer = producer) (hbnum : b.num = s.blockNum + 1)
include hl hg hb hbnum

theorem entries_of_not_promotes (hmem : producer ∈ s.activeSchedule.names) (hnot : ¬ g.Promotes) :
    Entries (l ++ [b]) g := by
  have hne : l ≠ [] := by
    rintro rfl
    obtain ⟨hpending, hlib⟩ := hl.fresh rfl
    refine hnot ⟨?_, ?_⟩
    · rw [hg.pending, hpending]
      exact fun hnil => by simp [ProducerSchedule.names, hnil] at hmem
    · rw [hg.pendingLib, hlib]
      exact Nat.zero_le _
  constructor
  · intro p v hv
    rw [hg.find] at hv
    rw [List.forall_mem_append, List.forall_mem_singleton]
    split_ifs at hv with hpro
    · obtain rfl := Option.some.inj hv
      exact ⟨fun b' hb' _ => (hl.num b' hb').trans (Nat.le_succ _), fun _ => hbnum.le⟩
    · exact ⟨hl.last p v hv, fun hp => absurd (hb.symm.trans hp) hpro⟩
  · rw [List.forall_mem_append, List.forall_mem_singleton, hg.pending, hg.pendingLib]
    refine ⟨fun b' hb' hnone => ?_, fun hnone => ?_⟩
    · rw [hg.find] at hnone
      split_ifs at hnone
      exact hl.dropped b' hb' hnone
    · rw [hg.find, if_pos hb.symm] at hnone
      cases hnone
  · intro p hp
    rw [hg.active] at hp
    rw [hg.find]
    split_ifs
    · exact ⟨_, rfl⟩
    · exact hl.active hne p hp

theorem entries_promote (hpromotes : g.Promotes) : Entries (l ++ [b]) g.promote := by
  obtain ⟨hpending, hlib⟩ := hpromotes
  have hfind : ∀ p, g.promote.producerToLastProduced.find p =
      if producer = p then some (s.blockNum + 1)
      else if p ∈ g.pendingSchedule.names then
        some ((s.producerToLastProduced.find p).getD g.dposIrreversibleBlocknum)
      else none := by
    intro p
    show ((restrict _ _ _).insert _ _).find p = _
    rw [Table.find_insert, find_restrict, hg.header, hg.blockNum, hg.find, ProducerSchedule.names]
    split_ifs <;> rfl
  refine ⟨fun p v hv => ?_, fun b' _ _ hne => absurd rfl hne, fun p hp => ?_⟩
  · rw [hfind] at hv
    rw [List.forall_mem_append, List.forall_mem_singleton]
    split_ifs at hv with hpro hin
    · obtain rfl := Option.some.inj hv
      exact ⟨fun b' hb' _ => (hl.num b' hb').trans (Nat.le_succ _), fun _ => hbnum.le⟩
    · obtain rfl := Option.some.inj hv
      refine ⟨fun b' hb' hp => ?_, fun hp => absurd (hb.symm.trans hp) hpro⟩
      cases hlast : s.producerToLastProduced.find p with
      | some v => exact hl.last p v hlast b' hb' hp
      | none =>
        have hdropped := hl.dropped b' hb' (hp ▸ hlast) (hg.pending ▸ hpending)
        rw [hg.pendingLib] at hlib
        exact hdropped.trans hlib
  · rw [hfind]
    split_ifs with hpro hin
    · exact ⟨_, rfl⟩
    · exact ⟨_, rfl⟩
    · exact absurd hp hin

theorem entries_maybePromotePending (hmem : producer ∈ s.activeSchedule.names) :
    Entries (l ++ [b]) g.maybePromotePending.1 := by
  unfold maybePromotePending
  split_ifs with hpromotes
  · exact entries_promote hl hg hb hbnum hpromotes
  · exact entries_of_not_promotes hl hg hb hbnum hmem hpromotes

end Promotion

theorem Entries.of_pendingFrom {g : BlockHeaderState} (he : Entries l g) (hsame : SameDpos g s')
    (hpending : PendingFrom g s') (hnum : ∀ b ∈ l, b.num ≤ g.blockNum) : Entries l s' where
  last := by rw [hsame.lastProduced]; exact he.last
  dropped b hb hnone hne := by
    rw [hsame.lastProduced] at hnone
    rcases hpending with ⟨hsched, hlib⟩ | ⟨-, hlib⟩
    · rw [hlib]
      exact he.dropped b hb hnone (hsched ▸ hne)
    · rw [hlib]
      exact hnum b hb
  active := by rw [hsame.active, hsame.lastProduced]; exact he.active

end Entries

/-- **The record and the state stay in agreement** at every accepted header that confirms no more
blocks than there are, as long as the quorum of the schedule fits a byte and block numbers do not
wrap. -/
theorem mints {b : Minted} (hl : Ledger l s) (hs : s.Consistent) (hmints : Mints c s b s')
    (hnum : s.blockNum + 1 < 2 ^ 32) (hconf : b.confirmed ≤ b.num)
    (hsize : b.scheduleSize * 2 / 3 ≤ 255) : Ledger (l ++ [b]) s' := by
  obtain ⟨h, skip, hn, rfl⟩ := hmints
  obtain ⟨t, prokey, merkle, hprokey, hname, hcheck, -, hsame, hpending⟩ := next_dpos hn
  have hblock : (s.mint h).num = s.blockNum + 1 := Nat.mod_eq_of_lt hnum
  have hmem : h.producer ∈ s.activeSchedule.names := hname ▸ List.mem_map_of_mem hprokey
  have hlater : ∀ b ∈ l, b.producer = h.producer → b.num + h.confirmed < s.blockNum + 1 :=
    fun b hb hp => hl.lt_of_checkDoubleConfirm hnum (hblock ▸ hconf) hmem hcheck hb hp
  have hlen : s.confirmCount.length ≤ s.blockNum := (Nat.le_add_left _ _).trans hs.window_le
  obtain ⟨m, counted, hstep⟩ := stepCounts h.confirmed hnum hlen t prokey merkle
  have hentered := entered hnum t prokey merkle h.confirmed
  rw [hname] at hentered
  have hnum' : s'.blockNum = s.blockNum + 1 := by
    rw [hsame.blockNum, maybePromotePending_blockNum, hentered.blockNum]
  have hle : ∀ b ∈ l ++ [s.mint h], b.num ≤ s.blockNum + 1 := by
    rw [List.forall_mem_append, List.forall_mem_singleton]
    exact ⟨fun b hb => (hl.num b hb).trans (Nat.le_succ _), hblock.le⟩
  have hentries : Entries (l ++ [s.mint h]) s' := by
    refine (entries_maybePromotePending hl hentered rfl hblock hmem).of_pendingFrom
      hsame hpending ?_
    rw [maybePromotePending_blockNum, hentered.blockNum]
    exact hle
  have hcount : s'.confirmCount =
      ((s.template t prokey merkle).setConfirmed h.confirmed).confirmCount := by
    rw [hsame.confirmCount, maybePromotePending_confirmCount]
  have hproposed : s'.dposProposedIrreversibleBlocknum =
      ((s.template t prokey merkle).setConfirmed h.confirmed).dposProposedIrreversibleBlocknum := by
    rw [hsame.proposed, maybePromotePending_proposed]
  have hrange : ∀ x ∈ (s.mint h).decremented, (s.mint h).num ≤ x + h.confirmed ∧
      x ≤ (s.mint h).num := by
    intro x hx
    obtain ⟨k, hk, hxk⟩ := (hstep.decremented x).mp hx
    have := hstep.le_succ
    omega
  refine ⟨hnum' ▸ hle, hentries.last, hentries.dropped, fun _ => hentries.active,
    fun hnil => absurd hnil (by simp), ?_, ?_, ?_, ?_⟩
  · rw [List.forall_mem_append, List.forall_mem_singleton]
    exact ⟨hl.range, hrange⟩
  · rw [List.pairwise_append]
    refine ⟨hl.disjoint, List.pairwise_singleton _ _, ?_⟩
    intro b hb b' hb' hp x hx hx'
    rw [List.mem_singleton.mp hb'] at hp hx'
    have h₁ := (hl.range b hb x hx).2
    have h₂ := (hrange x hx').1
    have h₃ := hlater b hb hp
    omega
  · intro k v hv
    rw [hcount] at hv
    obtain ⟨b, hb, hbk, hne, hlacks⟩ := hl.window_step hnum hsize hlater hstep hv
    exact ⟨b, hb, hnum' ▸ hbk, hne, hlacks⟩
  · intro hne
    rw [hproposed] at hne ⊢
    exact hl.proposed_step hnum hsize hlater hstep hne

end Ledger

theorem blockNum_of_mints {b : Minted} (hmints : Mints c s b s') (hnum : s.blockNum + 1 < 2 ^ 32) :
    s'.blockNum = s.blockNum + 1 := by
  obtain ⟨h, skip, hn, rfl⟩ := hmints
  obtain ⟨t, prokey, merkle, -, -, -, -, hsame, -⟩ := next_dpos hn
  rw [hsame.blockNum, maybePromotePending_blockNum, setConfirmed_blockNum]
  exact Nat.mod_eq_of_lt hnum

theorem genesis_blockNum (initialSchedule : ProducerSchedule) (initialTimestamp : Nat)
    (chainId : Digest) : (genesis c initialSchedule initialTimestamp chainId).blockNum = 1 := by
  show add32 (numFromId 0) 1 = 1
  decide

theorem ledger_of_trace {initialSchedule : ProducerSchedule} {initialTimestamp : Nat}
    {chainId : Digest} {l : List Minted}
    (ht : Trace (Mints c) (genesis c initialSchedule initialTimestamp chainId) l s)
    (hnum : l.length + 1 < 2 ^ 32) (hconf : ∀ b ∈ l, b.confirmed ≤ b.num)
    (hsize : ∀ b ∈ l, b.scheduleSize * 2 / 3 ≤ 255) :
    Ledger l s ∧ s.Consistent ∧ s.blockNum = l.length + 1 := by
  induction ht with
  | nil => exact ⟨Ledger.genesis _ _ _, genesis_consistent _ _ _, genesis_blockNum _ _ _⟩
  | @snoc l b s s' _ hR ih =>
    rw [List.length_append, List.length_singleton] at hnum
    rw [List.forall_mem_append] at hconf hsize
    obtain ⟨hl, hs, hblock⟩ := ih (by omega) hconf.1 hsize.1
    have hwrap : s.blockNum + 1 < 2 ^ 32 := by omega
    have hnext : Next c s s' := by
      obtain ⟨h, skip, hn, -⟩ := hR
      exact ⟨h, skip, hn⟩
    refine ⟨hl.mints hs hR hwrap (hconf.2 b List.mem_cons_self) (hsize.2 b List.mem_cons_self),
      hnext.consistent hs hwrap, ?_⟩
    rw [blockNum_of_mints hR hwrap, hblock, List.length_append, List.length_singleton]

/-- **One confirmation per producer and block**: along a chain from genesis whose headers confirm no
more blocks than there are, no producer decrements the count of a block twice; a block that has
become the proposed irreversible one has been confirmed by a quorum of different producers of the
schedule that signed it; and a header decrements counts in the range that it confirms only. -/
theorem confirmations_of_trace (c : Crypto) (initialSchedule : ProducerSchedule)
    (initialTimestamp : Nat) (chainId : Digest) (l : List Minted) (s : BlockHeaderState)
    (ht : Trace (Mints c) (genesis c initialSchedule initialTimestamp chainId) l s)
    (hnum : l.length + 1 < 2 ^ 32) (hconf : ∀ b ∈ l, b.confirmed ≤ b.num)
    (hsize : ∀ b ∈ l, b.scheduleSize ≤ 383) :
    (l.Pairwise fun b b' => b.producer = b'.producer → b.decremented.Disjoint b'.decremented) ∧
      (s.dposProposedIrreversibleBlocknum ≠ 0 →
        ∃ b ∈ l, b.num = s.dposProposedIrreversibleBlocknum ∧
          2 * b.scheduleSize / 3 + 1 ≤ (confirmers l b.num).card) ∧
      ∀ b ∈ l, ∀ x ∈ b.decremented, b.num ≤ x + b.confirmed ∧ x ≤ b.num := by
  have hbyte : ∀ b ∈ l, b.scheduleSize * 2 / 3 ≤ 255 := by
    intro b hb
    have := hsize b hb
    omega
  obtain ⟨hl, -, -⟩ := ledger_of_trace ht hnum hconf hbyte
  refine ⟨hl.disjoint, fun hne => ?_, hl.range⟩
  obtain ⟨b, hb, hbnum, hlacks⟩ := hl.proposed hne
  refine ⟨b, hb, hbnum, ?_⟩
  unfold Lacks at hlacks
  omega

/-! ## Turns with their record -/

def mintTurns (s : BlockHeaderState) :
    List (Nat × Nat × Option (Nat × ProducerSchedule)) →
      Except String (List Minted × BlockHeaderState)
  | [] => pure ([], s)
  | (when, confirmed, proposed) :: l => do
    let p ← s.produce toyCrypto when confirmed proposed 0 0 (· + 7)
    let s' ← s.next toyCrypto p.header false
    let (bs, last) ← s'.mintTurns l
    pure (s.mint p.header :: bs, last)

theorem mintTurns_trace {l : List (Nat × Nat × Option (Nat × ProducerSchedule))} {bs : List Minted}
    (h : s.mintTurns l = .ok (bs, s')) : Trace (Mints toyCrypto) s bs s' := by
  induction l generalizing s bs with
  | nil =>
    obtain ⟨rfl, rfl⟩ := Prod.mk.inj (pure_eq_ok.mp h)
    exact Trace.nil
  | cons turn l ih =>
    obtain ⟨when, confirmed, proposed⟩ := turn
    simp only [mintTurns, bind_eq_ok, pure_eq_ok] at h
    obtain ⟨p, -, t, hn, ⟨bs', last⟩, hrest, heq⟩ := h
    obtain ⟨rfl, rfl⟩ := Prod.mk.inj heq
    exact Trace.cons ⟨p.header, false, hn, rfl⟩ (ih hrest)

theorem confirmations_of_trace_fourProducers :
    ∃ l s, Trace (Mints toyCrypto) fourProducers l s ∧ s.dposProposedIrreversibleBlocknum = 6 ∧
      ∃ b ∈ l, b.num = 6 ∧ 2 * b.scheduleSize / 3 + 1 ≤ (confirmers l b.num).card := by
  obtain ⟨⟨l, s⟩, hrun, htest⟩ := exists_ok_of_any (x := fourProducers.mintTurns laggingPromotion)
    (p := fun r => decide (r.1.length = 8 ∧
      (∀ b ∈ r.1, b.confirmed ≤ b.num ∧ b.scheduleSize ≤ 383) ∧
      r.2.dposProposedIrreversibleBlocknum = 6))
    (by decide +kernel)
  obtain ⟨hlen, hall, hproposed⟩ := of_decide_eq_true htest
  have ht := mintTurns_trace hrun
  have hmain := confirmations_of_trace toyCrypto _ _ _ l s ht
    (by rw [show l.length = 8 from hlen]; decide)
    (fun b hb => (hall b hb).1) fun b hb => (hall b hb).2
  refine ⟨l, s, ht, hproposed, ?_⟩
  obtain ⟨b, hb, hbnum, hquorum⟩ := hmain.2.1 (by rw [hproposed]; decide)
  exact ⟨b, hb, hbnum.trans hproposed, hquorum⟩

/-- **A producer alone**: the first producer has three turns, and in the later two it confirms more
blocks than there are. -/
theorem producer_confirms_twice :
    ∃ l s, Trace (Mints toyCrypto) fourProducers l s ∧
      ¬ (l.Pairwise fun b b' => b.producer = b'.producer →
        b.decremented.Disjoint b'.decremented) ∧
      s.dposProposedIrreversibleBlocknum = 2 ∧ (∃ b ∈ l, b.num = 2 ∧ b.scheduleSize = 4) ∧
      (confirmers l 2).card < 2 * 4 / 3 + 1 := by
  obtain ⟨⟨l, s⟩, hrun, htest⟩ := exists_ok_of_any
    (x := fourProducers.mintTurns [(24, 0, none), (25, 10, none), (26, 10, none)])
    (p := fun r => decide (r.1 = [⟨2, 1, 0, 4, [2]⟩, ⟨3, 1, 10, 4, [2, 3]⟩,
      ⟨4, 1, 10, 4, [2, 3, 4]⟩] ∧
      r.2.dposProposedIrreversibleBlocknum = 2))
    (by decide +kernel)
  obtain ⟨hl, hproposed⟩ := of_decide_eq_true htest
  obtain rfl : l = _ := hl
  refine ⟨_, s, mintTurns_trace hrun, ?_, hproposed, ⟨_, List.mem_cons_self, rfl, rfl⟩, ?_⟩
  · intro hpairwise
    have hdisjoint := (List.pairwise_cons.mp hpairwise).1 _ List.mem_cons_self rfl
    exact hdisjoint (a := 2) (by decide) (by decide)
  · decide

end BlockHeaderState

end BaccChain
