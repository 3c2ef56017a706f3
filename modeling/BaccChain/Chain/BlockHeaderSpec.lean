import BaccChain.Chain.BlockHeaderState

/-!
# What a header transition does

Which parts have run when `next` succeeds, and which fields each part writes.
-/

namespace BaccChain

open Commons

namespace BlockHeaderState

variable {c : Crypto} {s s' : BlockHeaderState} {h : SignedBlockHeader} {skip : Bool}

/-! ## The template -/

theorem nextTime_eq_ok {when t : Nat} : s.nextTime when = .ok t ↔
    (when ≠ 0 ∧ s.header.timestamp < when ∧ t = when) ∨
      (when = 0 ∧ t = add32 s.header.timestamp 1) := by
  unfold nextTime
  split_ifs with hw
  · simp only [ok_iff]
    simp [hw]
  · rw [pure_eq_ok]
    simp [not_not.mp hw]

theorem generateNext_eq_ok {when : Nat} {g : BlockHeaderState} :
    s.generateNext c when = .ok g ↔ ∃ t prokey merkle, s.nextTime when = .ok t ∧
      s.getScheduledProducer t = .ok prokey ∧
      s.blockrootMerkle.append c.hashPair s.id = some merkle ∧ g = s.template t prokey merkle := by
  have helim : ∀ {o : Option IncrementalMerkle} {m : IncrementalMerkle},
      o.elim (.error "no active node") .ok = (.ok m : Except String IncrementalMerkle) ↔
        o = some m := by
    intro o m
    cases o with
    | none => exact ⟨fun h => (by cases h), fun h => (by cases h)⟩
    | some => exact ⟨fun h => (by cases h; rfl), fun h => (by cases h; rfl)⟩
  simp only [generateNext, bind_eq_ok, pure_eq_ok, helim]
  constructor
  · rintro ⟨t, ht, prokey, hp, merkle, hm, rfl⟩
    exact ⟨t, prokey, merkle, ht, hp, hm, rfl⟩
  · rintro ⟨t, prokey, merkle, ht, hp, hm, rfl⟩
    exact ⟨t, ht, prokey, hp, merkle, hm, rfl⟩

theorem getScheduledProducer_mem {t : Nat} {prokey : ProducerKey}
    (h : s.getScheduledProducer t = .ok prokey) : prokey ∈ s.activeSchedule.producers := by
  unfold getScheduledProducer at h
  dsimp only at h
  split at h
  next k hk =>
    obtain rfl : k = prokey := Except.ok.inj h
    exact List.mem_of_getElem? hk
  next => cases h

/-! ## The last irreversible block -/

/-- **The last irreversible block by counting**: it is at least `x` exactly when at most a third of
the producers imply a block below `x`. -/
theorem le_calcDposLastIrreversible_iff {t : Table Name Nat} {x : Nat} (ht : t.entries ≠ []) :
    x ≤ calcDposLastIrreversible t ↔
      t.entries.countP (fun e => e.2 < x) ≤ (t.entries.length - 1) / 3 := by
  have hlen : 0 < t.entries.length := List.length_pos_iff.mpr ht
  have hk : (t.entries.length - 1) / 3 < (t.entries.map (·.2)).length := by
    rw [List.length_map]
    omega
  obtain ⟨y, hy⟩ := orderStat_isSome hk
  have hcalc : calcDposLastIrreversible t = y := by
    unfold calcDposLastIrreversible
    dsimp only
    rw [List.length_map, hy]
    rfl
  rw [hcalc, le_orderStat_iff hy, List.countP_map]
  rfl

theorem calcDposLastIrreversible_le {t : Table Name Nat} {b : Nat}
    (h : ∀ k v, t.find k = some v → v ≤ b) : calcDposLastIrreversible t ≤ b := by
  unfold calcDposLastIrreversible
  dsimp only
  cases hy : orderStat (((t.entries.map (·.2)).length - 1) / 3) (t.entries.map (·.2)) with
  | none => exact Nat.zero_le b
  | some =>
    obtain ⟨e, he, rfl⟩ := List.mem_map.mp (mem_of_orderStat hy)
    exact h e.1 e.2 (Table.mem_entries_iff.mp he)

/-! ## Confirmations and promotion -/

section Frame

variable (n : Nat)

theorem setConfirmed_eq : ∃ confirmCount proposed, s.setConfirmed n = { s with
    header.confirmed := n
    confirmCount
    dposProposedIrreversibleBlocknum := proposed } := by
  unfold setConfirmed
  split
  · exact ⟨_, _, rfl⟩
  · exact ⟨_, _, rfl⟩

@[simp] theorem setConfirmed_header :
    (s.setConfirmed n).header = { s.header with confirmed := n } := by
  obtain ⟨_, _, h⟩ := s.setConfirmed_eq n
  rw [h]

@[simp] theorem setConfirmed_blockNum : (s.setConfirmed n).blockNum = s.blockNum := by
  obtain ⟨_, _, h⟩ := s.setConfirmed_eq n
  rw [h]

@[simp] theorem setConfirmed_dposIrreversibleBlocknum :
    (s.setConfirmed n).dposIrreversibleBlocknum = s.dposIrreversibleBlocknum := by
  obtain ⟨_, _, h⟩ := s.setConfirmed_eq n
  rw [h]

@[simp] theorem setConfirmed_pendingScheduleLibNum :
    (s.setConfirmed n).pendingScheduleLibNum = s.pendingScheduleLibNum := by
  obtain ⟨_, _, h⟩ := s.setConfirmed_eq n
  rw [h]

@[simp] theorem setConfirmed_pendingSchedule :
    (s.setConfirmed n).pendingSchedule = s.pendingSchedule := by
  obtain ⟨_, _, h⟩ := s.setConfirmed_eq n
  rw [h]

@[simp] theorem setConfirmed_activeSchedule :
    (s.setConfirmed n).activeSchedule = s.activeSchedule := by
  obtain ⟨_, _, h⟩ := s.setConfirmed_eq n
  rw [h]

@[simp] theorem setConfirmed_producerToLastProduced :
    (s.setConfirmed n).producerToLastProduced = s.producerToLastProduced := by
  obtain ⟨_, _, h⟩ := s.setConfirmed_eq n
  rw [h]

@[simp] theorem setConfirmed_producerToLastImpliedIrb :
    (s.setConfirmed n).producerToLastImpliedIrb = s.producerToLastImpliedIrb := by
  obtain ⟨_, _, h⟩ := s.setConfirmed_eq n
  rw [h]

theorem setConfirmed_of_no_hit {counts : List UInt8}
    (h : confirmLoop s.confirmCount.length (n + 1) s.confirmCount = (counts, none)) :
    (s.setConfirmed n).confirmCount = counts ∧
      (s.setConfirmed n).dposProposedIrreversibleBlocknum =
        s.dposProposedIrreversibleBlocknum := by
  unfold setConfirmed
  rw [h]
  exact ⟨rfl, rfl⟩

theorem setConfirmed_of_hit {counts : List UInt8} {i : Nat}
    (h : confirmLoop s.confirmCount.length (n + 1) s.confirmCount = (counts, some i)) :
    (s.setConfirmed n).confirmCount = counts.drop (i + 1) ∧
      (s.setConfirmed n).dposProposedIrreversibleBlocknum =
        sub32 s.blockNum (counts.length - 1 - i) := by
  unfold setConfirmed
  rw [h]
  exact ⟨rfl, rfl⟩

@[simp] theorem setConfirmed_promotes : (s.setConfirmed n).Promotes ↔ s.Promotes := by
  unfold Promotes
  simp

end Frame

theorem find_restrict (producers : List ProducerKey) (dflt : Nat) (t : Table Name Nat) (k : Name) :
    (restrict producers dflt t).find k =
      if k ∈ producers.map (·.producerName) then some ((t.find k).getD dflt) else none := by
  have hfold : ∀ new : Table Name Nat, (producers.foldl (fun new pro =>
      new.insert pro.producerName ((t.find pro.producerName).getD dflt)) new).find k =
      if k ∈ producers.map (·.producerName) then some ((t.find k).getD dflt) else new.find k := by
    induction producers with
    | nil => simp
    | cons pro producers ih =>
      intro new
      rw [List.foldl_cons, ih, Table.find_insert]
      by_cases hk : pro.producerName = k
      · simp [hk]
      · simp [hk, Ne.symm hk]
  exact hfold Table.empty

/-- What the loop over the counts has done between the positions `lo` and `i`: it has counted each
of them down by one, and it has stopped early exactly when the count at `lo` has reached zero. -/
structure Counted (i n lo : Nat) (counts : List UInt8) (r : List UInt8 × Option Nat) : Prop where
  lo_le : lo ≤ i
  le_lo : i ≤ lo + n
  length_eq : r.1.length = counts.length
  getElem : ∀ j, r.1[j]? = if lo ≤ j ∧ j < i then (counts[j]?).map (· - 1) else counts[j]?
  ne_zero : ∀ j, lo ≤ j → j < i → r.2 ≠ some j → r.1[j]? ≠ some 0
  hit : ∀ k, r.2 = some k → k = lo ∧ lo < i ∧ r.1[lo]? = some 0
  no_hit : r.2 = none → lo = i - n

theorem Counted.refl {i n : Nat} (counts : List UInt8) (h : i = 0 ∨ n = 0) :
    Counted i n i counts (counts, none) where
  lo_le := le_rfl
  le_lo := Nat.le_add_right i n
  length_eq := rfl
  getElem j := by rw [if_neg (by omega)]
  ne_zero j hj hj' := absurd hj (Nat.not_le.mpr hj')
  hit k hk := by cases hk
  no_hit _ := by omega

theorem confirmLoop_counted (i n : Nat) (counts : List UInt8) :
    ∃ lo, Counted i n lo counts (confirmLoop i n counts) := by
  induction i generalizing n counts with
  | zero => exact ⟨0, Counted.refl counts (Or.inl rfl)⟩
  | succ i ih =>
    cases n with
    | zero => exact ⟨i + 1, Counted.refl counts (Or.inr rfl)⟩
    | succ n =>
      rw [confirmLoop]
      split_ifs with hzero
      · refine ⟨i, i.le_succ, by omega, List.length_modify .., fun j => ?_, fun j hj hj' hne => ?_,
          fun k hk => ?_, fun hk => (by cases hk)⟩
        · rw [List.getElem?_modify]
          by_cases hij : i = j
          · subst hij
            simp
          · have hout : ¬ (i ≤ j ∧ j < i + 1) := by omega
            rw [if_neg hout]
            simp [hij]
        · obtain rfl : i = j := by omega
          exact absurd rfl hne
        · obtain rfl := Option.some.inj hk
          exact ⟨rfl, i.lt_succ_self, hzero⟩
      · obtain ⟨lo, h⟩ := ih n (counts.modify i (· - 1))
        have hmod : ∀ j, (counts.modify i (· - 1))[j]? =
            if i = j then (counts[j]?).map (· - 1) else counts[j]? := by
          intro j
          rw [List.getElem?_modify]
          split_ifs <;> simp
        refine ⟨lo, h.lo_le.trans i.le_succ, by have := h.le_lo; omega,
          h.length_eq.trans (List.length_modify ..), fun j => ?_, fun j hj hj' hne => ?_,
          fun k hk => ?_, fun hk => by have := h.no_hit hk; omega⟩
        · rw [h.getElem, hmod]
          have := h.lo_le
          by_cases hij : i = j
          · subst hij
            rw [if_neg (by omega), if_pos rfl, if_pos ⟨h.lo_le, i.lt_succ_self⟩]
          · rw [if_neg hij]
            exact if_congr (by omega) rfl rfl
        · rcases Nat.lt_succ_iff_lt_or_eq.mp hj' with hlt | rfl
          · exact h.ne_zero j hj hlt hne
          · rw [h.getElem, if_neg (by omega)]
            exact hzero
        · obtain ⟨rfl, hlt, h0⟩ := h.hit k hk
          exact ⟨rfl, hlt.trans i.lt_succ_self, h0⟩

@[simp] theorem maybePromotePending_header : s.maybePromotePending.1.header = s.header := by
  unfold maybePromotePending
  split_ifs <;> rfl

@[simp] theorem maybePromotePending_blockNum : s.maybePromotePending.1.blockNum = s.blockNum := by
  unfold maybePromotePending
  split_ifs <;> rfl

@[simp] theorem maybePromotePending_confirmCount :
    s.maybePromotePending.1.confirmCount = s.confirmCount := by
  unfold maybePromotePending
  split_ifs <;> rfl

@[simp] theorem maybePromotePending_proposed :
    s.maybePromotePending.1.dposProposedIrreversibleBlocknum =
      s.dposProposedIrreversibleBlocknum := by
  unfold maybePromotePending
  split_ifs <;> rfl

theorem setNewProducers_eq_ok {pending : ProducerSchedule} :
    s.setNewProducers c pending = .ok s' ↔
      pending.version = add32 s.activeSchedule.version 1 ∧ s.pendingSchedule.producers = [] ∧
      s' = { s with
        header.newProducers := some pending
        pendingScheduleHash := c.hashSchedule pending
        pendingSchedule := pending
        pendingScheduleLibNum := s.blockNum } := by
  simp only [setNewProducers, ok_iff]

theorem setNewProducers_header {pending : ProducerSchedule}
    (h : s.setNewProducers c pending = .ok s') :
    s'.header = { s.header with newProducers := some pending } := by
  obtain ⟨-, -, rfl⟩ := setNewProducers_eq_ok.mp h
  rfl

theorem adoptNewProducers_eq_ok {promoted : Bool} {newProducers : Option ProducerSchedule} :
    s.adoptNewProducers c promoted newProducers = .ok s' ↔
      (newProducers = none ∧ s' = s) ∨
        ∃ pending, newProducers = some pending ∧ promoted = false ∧
          s.setNewProducers c pending = .ok s' := by
  unfold adoptNewProducers
  cases newProducers with
  | none => simp [pure_eq_ok]
  | some =>
    simp only [ok_iff]
    simp

theorem adoptNewProducers_blockNum {promoted : Bool} {newProducers : Option ProducerSchedule}
    (h : s.adoptNewProducers c promoted newProducers = .ok s') : s'.blockNum = s.blockNum := by
  rcases adoptNewProducers_eq_ok.mp h with ⟨-, rfl⟩ | ⟨pending, -, -, hset⟩
  · rfl
  · obtain ⟨-, -, rfl⟩ := setNewProducers_eq_ok.mp hset
    rfl

/-! ## The transition -/

theorem next_eq_ok : s.next c h skip = .ok s' ↔
    h.timestamp ≠ 0 ∧ h.headerExtensions = [] ∧ s.header.timestamp < h.timestamp ∧
    h.previous = s.id ∧ ∃ g, s.generateNext c h.timestamp = .ok g ∧
    g.header.producer = h.producer ∧ g.header.scheduleVersion = h.scheduleVersion ∧
    s.checkDoubleConfirm g.blockNum h = .ok () ∧
    ∃ r, (g.setConfirmed h.confirmed).maybePromotePending.1.adoptNewProducers c
        (g.setConfirmed h.confirmed).maybePromotePending.2 h.newProducers = .ok r ∧
      s' = r.complete c h.actionMroot h.transactionMroot h.producerSignature ∧
      (skip = false → s'.signee c = .ok s'.blockSigningKey) := by
  simp only [next, ok_iff]
  refine and_congr_right fun _ => and_congr_right fun _ => and_congr_right fun _ =>
    and_congr_right fun _ => exists_congr fun g => and_congr_right fun _ =>
    and_congr_right fun _ => and_congr_right fun _ => and_congr_right fun _ =>
    exists_congr fun r => and_congr_right fun _ => ?_
  cases skip with
  | true => simp [pure_eq_ok]
  | false =>
    simp only [Bool.false_eq_true, if_false, ok_iff, verifySignee, forall_const]
    constructor
    · rintro ⟨key, hkey, hsig, rfl⟩
      exact ⟨rfl, hsig ▸ hkey⟩
    · rintro ⟨rfl, hkey⟩
      exact ⟨_, hkey, rfl, rfl⟩

/-- The fields that the rules of DPOS read are the same. -/
structure SameDpos (s s' : BlockHeaderState) : Prop where
  blockNum : s'.blockNum = s.blockNum
  proposed : s'.dposProposedIrreversibleBlocknum = s.dposProposedIrreversibleBlocknum
  irreversible : s'.dposIrreversibleBlocknum = s.dposIrreversibleBlocknum
  active : s'.activeSchedule = s.activeSchedule
  lastProduced : s'.producerToLastProduced = s.producerToLastProduced
  impliedIrb : s'.producerToLastImpliedIrb = s.producerToLastImpliedIrb
  confirmCount : s'.confirmCount = s.confirmCount

theorem SameDpos.refl (s : BlockHeaderState) : SameDpos s s := ⟨rfl, rfl, rfl, rfl, rfl, rfl, rfl⟩

/-- The schedule that waits for its block to become irreversible: the one that waited before, or one
that the block has brought when none waited. -/
def PendingFrom (s s' : BlockHeaderState) : Prop :=
  (s'.pendingSchedule = s.pendingSchedule ∧ s'.pendingScheduleLibNum = s.pendingScheduleLibNum) ∨
    (s.pendingSchedule.producers = [] ∧ s'.pendingScheduleLibNum = s.blockNum)

/-- **A step of the chain**: the scheduled producer's template with the confirmations of the header
and perhaps a promotion; a new schedule and the completion of the header touch neither schedule in
force nor the bookkeeping of confirmations. -/
theorem next_dpos (hn : s.next c h skip = .ok s') :
    ∃ t prokey merkle, prokey ∈ s.activeSchedule.producers ∧ prokey.producerName = h.producer ∧
      s.checkDoubleConfirm (add32 s.blockNum 1) h = .ok () ∧
      s.generateNext c h.timestamp = .ok (s.template t prokey merkle) ∧
      SameDpos ((s.template t prokey merkle).setConfirmed h.confirmed).maybePromotePending.1 s' ∧
      PendingFrom ((s.template t prokey merkle).setConfirmed h.confirmed).maybePromotePending.1
        s' := by
  obtain ⟨-, -, -, -, g, hg, hproducer, -, hcheck, r, hadopt, rfl, -⟩ := next_eq_ok.mp hn
  obtain ⟨t, prokey, merkle, -, hprokey, -, rfl⟩ := generateNext_eq_ok.mp hg
  refine ⟨t, prokey, merkle, getScheduledProducer_mem hprokey, hproducer, hcheck, hg, ?_⟩
  rcases adoptNewProducers_eq_ok.mp hadopt with ⟨-, rfl⟩ | ⟨pending, -, -, hset⟩
  · exact ⟨⟨rfl, rfl, rfl, rfl, rfl, rfl, rfl⟩, Or.inl ⟨rfl, rfl⟩⟩
  · obtain ⟨-, hroom, rfl⟩ := setNewProducers_eq_ok.mp hset
    exact ⟨⟨rfl, rfl, rfl, rfl, rfl, rfl, rfl⟩, Or.inr ⟨hroom, rfl⟩⟩

theorem next_links (hn : s.next c h skip = .ok s') :
    h.previous = s.id ∧ s'.header.previous = s.id ∧ s'.blockNum = add32 s.blockNum 1 ∧
      s'.id = s'.header.toBlockHeader.id c := by
  obtain ⟨-, -, -, hprev, g, hg, -, -, -, r, hadopt, rfl, -⟩ := next_eq_ok.mp hn
  obtain ⟨t, prokey, merkle, -, -, -, rfl⟩ := generateNext_eq_ok.mp hg
  have hnum : r.blockNum = add32 s.blockNum 1 := by
    rw [adoptNewProducers_blockNum hadopt, maybePromotePending_blockNum, setConfirmed_blockNum]
    rfl
  have hprevious : r.header.previous = s.id := by
    rcases adoptNewProducers_eq_ok.mp hadopt with ⟨-, rfl⟩ | ⟨pending, -, -, hset⟩
    · rw [maybePromotePending_header, setConfirmed_header]
      rfl
    · rw [setNewProducers_header hset, maybePromotePending_header, setConfirmed_header]
      rfl
  exact ⟨hprev, hprevious, hnum, rfl⟩

theorem next_bftIrreversibleBlocknum (hn : s.next c h skip = .ok s') :
    s'.bftIrreversibleBlocknum = s.bftIrreversibleBlocknum := by
  obtain ⟨-, -, -, -, g, hg, -, -, -, r, hadopt, rfl, -⟩ := next_eq_ok.mp hn
  obtain ⟨t, prokey, merkle, -, -, -, rfl⟩ := generateNext_eq_ok.mp hg
  have hpromote : ((s.template t prokey merkle).setConfirmed
      h.confirmed).maybePromotePending.1.bftIrreversibleBlocknum = s.bftIrreversibleBlocknum := by
    obtain ⟨_, _, hset⟩ := (s.template t prokey merkle).setConfirmed_eq h.confirmed
    rw [hset]
    unfold maybePromotePending
    split_ifs <;> rfl
  rw [← hpromote]
  rcases adoptNewProducers_eq_ok.mp hadopt with ⟨-, rfl⟩ | ⟨pending, -, -, hset⟩
  · rfl
  · obtain ⟨-, -, rfl⟩ := setNewProducers_eq_ok.mp hset
    rfl

end BlockHeaderState

/-! ## Numbers in ids -/

theorem endianReverse32_lt (x : Nat) : endianReverse32 x < 2 ^ 32 := by
  unfold endianReverse32
  omega

theorem endianReverse32_bytes {a b c d : Nat} (ha : a < 2 ^ 8) (hb : b < 2 ^ 8) (hc : c < 2 ^ 8)
    (hd : d < 2 ^ 8) : endianReverse32 (a * 2 ^ 24 + b * 2 ^ 16 + c * 2 ^ 8 + d) =
      d * 2 ^ 24 + c * 2 ^ 16 + b * 2 ^ 8 + a := by
  unfold endianReverse32
  omega

theorem endianReverse32_endianReverse32 {x : Nat} (hx : x < 2 ^ 32) :
    endianReverse32 (endianReverse32 x) = x := by
  have hbyte (y : Nat) : y % 2 ^ 8 < 2 ^ 8 := Nat.mod_lt _ (by decide)
  have hbytes := endianReverse32_bytes (hbyte x) (hbyte (x / 2 ^ 8)) (hbyte (x / 2 ^ 16))
    (hbyte (x / 2 ^ 24))
  refine hbytes.trans ?_
  omega

theorem numFromId_id (c : Crypto) (h : BlockHeader) : numFromId (h.id c) = h.blockNum := by
  have hnum : h.blockNum < 2 ^ 32 := Nat.mod_lt _ (by decide)
  have hlow : h.id c % 2 ^ 32 = endianReverse32 h.blockNum := by
    have := endianReverse32_lt h.blockNum
    unfold BlockHeader.id
    omega
  rw [numFromId, hlow, endianReverse32_endianReverse32 hnum]

end BaccChain
