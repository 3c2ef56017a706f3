import BaccChain.Chain.BlockHeaderSpec

/-!
# The last irreversible block along a chain of headers

Each producer's entry in `producerToLastImpliedIrb` is the proposed irreversible block at its last
turn, and the last irreversible block is an order statistic of the entries.

## Main definitions

* `Consistent`: what holds along every chain
* `CaughtUp`: few producers imply less

## Main results

* `pairwise_irreversible_le`: the last irreversible block does not move back
* `irreversible_moves_back`: a promotion
-/

namespace BaccChain

open Commons

namespace BlockHeaderState

variable {c : Crypto} {s s' : BlockHeaderState} {h : SignedBlockHeader} {skip : Bool}

/-- A header that is accepted after another. -/
def Next (c : Crypto) (s s' : BlockHeaderState) : Prop := ∃ h skip, s.next c h skip = .ok s'

/-- The proposed irreversible block is at or above every implied one and the irreversible one, and
below the blocks that wait for confirmations. -/
structure Consistent (s : BlockHeaderState) : Prop where
  implied_le : ∀ p v, s.producerToLastImpliedIrb.find p = some v →
    v ≤ s.dposProposedIrreversibleBlocknum
  irreversible_le : s.dposIrreversibleBlocknum ≤ s.dposProposedIrreversibleBlocknum
  window_le : s.dposProposedIrreversibleBlocknum + s.confirmCount.length ≤ s.blockNum

/-- At most a third imply a smaller number. -/
def CaughtUp (s : BlockHeaderState) : Prop :=
  s.producerToLastImpliedIrb.entries.countP (fun e => e.2 < s.dposIrreversibleBlocknum) ≤
    (s.producerToLastImpliedIrb.entries.length - 1) / 3

instance (s : BlockHeaderState) : Decidable s.CaughtUp := inferInstanceAs (Decidable (_ ≤ _))

theorem genesis_consistent (initialSchedule : ProducerSchedule) (initialTimestamp : Nat)
    (chainId : Digest) : (genesis c initialSchedule initialTimestamp chainId).Consistent where
  implied_le p v hv := by cases hv
  irreversible_le := le_rfl
  window_le := Nat.zero_le _

theorem SameDpos.consistent (hs : SameDpos s s') (h : s.Consistent) : s'.Consistent where
  implied_le := by rw [hs.impliedIrb, hs.proposed]; exact h.implied_le
  irreversible_le := by rw [hs.irreversible, hs.proposed]; exact h.irreversible_le
  window_le := by rw [hs.proposed, hs.confirmCount, hs.blockNum]; exact h.window_le

theorem growConfirmCount_length_le : s.growConfirmCount.length ≤ s.confirmCount.length + 1 := by
  unfold growConfirmCount
  split_ifs <;> simp

namespace Consistent

theorem template (hs : s.Consistent) (hnum : s.blockNum + 1 < 2 ^ 32) (t : Nat)
    (prokey : ProducerKey) (merkle : IncrementalMerkle) :
    (s.template t prokey merkle).Consistent := by
  have himplied : ∀ p v, (s.producerToLastImpliedIrb.insert prokey.producerName
      s.dposProposedIrreversibleBlocknum).find p = some v →
      v ≤ s.dposProposedIrreversibleBlocknum := by
    intro p v hv
    rw [Table.find_insert] at hv
    split_ifs at hv with hp
    · exact (Option.some.inj hv).ge
    · exact hs.implied_le p v hv
  refine ⟨himplied, calcDposLastIrreversible_le himplied, ?_⟩
  have hblock : add32 s.blockNum 1 = s.blockNum + 1 := Nat.mod_eq_of_lt hnum
  show s.dposProposedIrreversibleBlocknum + s.growConfirmCount.length ≤ add32 s.blockNum 1
  have := s.growConfirmCount_length_le
  have := hs.window_le
  omega

theorem setConfirmed (hs : s.Consistent) (hnum : s.blockNum < 2 ^ 32) (n : Nat) :
    (s.setConfirmed n).Consistent ∧
      s.dposProposedIrreversibleBlocknum ≤ (s.setConfirmed n).dposProposedIrreversibleBlocknum := by
  obtain ⟨lo, hcount⟩ := confirmLoop_counted s.confirmCount.length (n + 1) s.confirmCount
  have hwindow := hs.window_le
  unfold BlockHeaderState.setConfirmed
  split
  next counts heq =>
    rw [heq] at hcount
    refine ⟨⟨hs.implied_le, hs.irreversible_le, ?_⟩, le_rfl⟩
    show s.dposProposedIrreversibleBlocknum + counts.length ≤ s.blockNum
    rw [hcount.length_eq]
    exact hwindow
  next counts i heq =>
    rw [heq] at hcount
    obtain ⟨rfl, hlt, -⟩ := hcount.hit i rfl
    have hlen : counts.length = s.confirmCount.length := hcount.length_eq
    have hsub : sub32 s.blockNum (counts.length - 1 - i) =
        s.blockNum - (counts.length - 1 - i) := by
      unfold sub32
      omega
    have hle : s.dposProposedIrreversibleBlocknum ≤ sub32 s.blockNum (counts.length - 1 - i) := by
      omega
    refine ⟨⟨fun p v hv => (hs.implied_le p v hv).trans hle, hs.irreversible_le.trans hle, ?_⟩, hle⟩
    show sub32 s.blockNum (counts.length - 1 - i) + (counts.drop (i + 1)).length ≤ s.blockNum
    rw [List.length_drop]
    omega

theorem maybePromotePending (hs : s.Consistent) : s.maybePromotePending.1.Consistent := by
  unfold BlockHeaderState.maybePromotePending
  split_ifs
  · refine ⟨fun p v hv => ?_, hs.irreversible_le, hs.window_le⟩
    change (restrict _ _ _).find p = some v at hv
    rw [find_restrict] at hv
    split_ifs at hv with hp
    obtain rfl := Option.some.inj hv
    cases hold : s.producerToLastImpliedIrb.find p with
    | none => exact hs.irreversible_le
    | some v => exact hs.implied_le p v hold
  · exact hs

theorem next (hs : s.Consistent) (hnum : s.blockNum + 1 < 2 ^ 32)
    (hn : s.next c h skip = .ok s') : s'.Consistent := by
  obtain ⟨t, prokey, merkle, -, -, -, -, hsame, -⟩ := next_dpos hn
  have hblock : (s.template t prokey merkle).blockNum < 2 ^ 32 := Nat.mod_lt _ (by decide)
  have htemp := hs.template hnum t prokey merkle
  exact hsame.consistent (htemp.setConfirmed hblock h.confirmed).1.maybePromotePending

end Consistent

theorem Next.consistent (hn : Next c s s') (hs : s.Consistent) (hnum : s.blockNum + 1 < 2 ^ 32) :
    s'.Consistent := by
  obtain ⟨h, skip, hn⟩ := hn
  exact hs.next hnum hn

theorem impliedIrb_of_not_promotes (hn : s.next c h skip = .ok s')
    (hp : ∀ g, s.generateNext c h.timestamp = .ok g → ¬ g.Promotes) :
    s'.activeSchedule = s.activeSchedule ∧
      s'.producerToLastImpliedIrb =
        s.producerToLastImpliedIrb.insert h.producer s.dposProposedIrreversibleBlocknum ∧
      s'.dposIrreversibleBlocknum = calcDposLastIrreversible s'.producerToLastImpliedIrb ∧
      h.producer ∈ s.activeSchedule.names := by
  obtain ⟨t, prokey, merkle, hmem, hname, -, hg, hsame, -⟩ := next_dpos hn
  have hnot : ¬ ((s.template t prokey merkle).setConfirmed h.confirmed).Promotes := by
    rw [setConfirmed_promotes]
    exact hp _ hg
  rw [BlockHeaderState.maybePromotePending, if_neg hnot] at hsame
  have himplied := hsame.impliedIrb
  rw [setConfirmed_producerToLastImpliedIrb] at himplied
  refine ⟨?_, ?_, ?_, ?_⟩
  · rw [hsame.active, setConfirmed_activeSchedule]
    rfl
  · rw [himplied, ← hname]
    rfl
  · rw [hsame.irreversible, setConfirmed_dposIrreversibleBlocknum, himplied]
    rfl
  · exact hname ▸ List.mem_map_of_mem hmem

theorem irreversible_le_next (hs : s.Consistent) (hcaught : s.CaughtUp)
    (hn : s.next c h skip = .ok s') :
    s.dposIrreversibleBlocknum ≤ s'.dposIrreversibleBlocknum := by
  obtain ⟨t, prokey, merkle, -, -, -, -, hsame, -⟩ := next_dpos hn
  have hlib : s'.dposIrreversibleBlocknum = calcDposLastIrreversible
      (s.producerToLastImpliedIrb.insert prokey.producerName
        s.dposProposedIrreversibleBlocknum) := by
    rw [hsame.irreversible]
    unfold BlockHeaderState.maybePromotePending
    split_ifs
    · show ((s.template t prokey merkle).setConfirmed h.confirmed).dposIrreversibleBlocknum = _
      rw [setConfirmed_dposIrreversibleBlocknum]
      rfl
    · rw [setConfirmed_dposIrreversibleBlocknum]
      rfl
  rw [hlib]
  have hlen := Table.length_le_length_insertEntry prokey.producerName
    s.dposProposedIrreversibleBlocknum s.producerToLastImpliedIrb.entries
  have hcount : (s.producerToLastImpliedIrb.insert prokey.producerName
      s.dposProposedIrreversibleBlocknum).entries.countP
        (fun e => e.2 < s.dposIrreversibleBlocknum) ≤
      s.producerToLastImpliedIrb.entries.countP (fun e => e.2 < s.dposIrreversibleBlocknum) :=
    Table.countP_insertEntry_le (by simpa using hs.irreversible_le) _
  rw [le_calcDposLastIrreversible_iff]
  · refine (hcount.trans hcaught).trans (Nat.div_le_div_right ?_)
    exact Nat.sub_le_sub_right hlen 1
  · intro hnil
    have hself := Table.find_insert_self s.producerToLastImpliedIrb prokey.producerName
      s.dposProposedIrreversibleBlocknum
    rw [Table.find, hnil] at hself
    cases hself

/-! ## Turns -/

theorem turns_isChain {l : List (Nat × Nat × Option (Nat × ProducerSchedule))}
    {states : List BlockHeaderState} (h : s.turns l = .ok states) :
    ∃ l', states = s :: l' ∧ states.IsChain (Next toyCrypto) := by
  induction l generalizing s states with
  | nil =>
    obtain rfl := pure_eq_ok.mp h
    exact ⟨[], rfl, List.IsChain.singleton s⟩
  | cons turn l ih =>
    obtain ⟨when, confirmed, proposed⟩ := turn
    simp only [turns, bind_eq_ok, pure_eq_ok] at h
    obtain ⟨s', hturn, rest, hrest, rfl⟩ := h
    obtain ⟨l', rfl, hchain⟩ := ih hrest
    obtain ⟨p, -, hn⟩ := bind_eq_ok.mp hturn
    exact ⟨s' :: l', rfl, List.isChain_cons_cons.mpr ⟨⟨p.header, false, hn⟩, hchain⟩⟩

/-- **The last irreversible block along a chain of headers**: from a consistent state on, it never
moves back if block numbers do not wrap and, in each state that has a successor, at most a third of
the producers imply a block below it. Only a promotion can break the second condition. -/
theorem pairwise_irreversible_le (c : Crypto) (s : BlockHeaderState) (l : List BlockHeaderState)
    (hs : s.Consistent) (hchain : (s :: l).IsChain (Next c))
    (hnum : ∀ s' ∈ (s :: l).dropLast, s'.blockNum + 1 < 2 ^ 32)
    (hcaught : ∀ s' ∈ (s :: l).dropLast, s'.CaughtUp) :
    ((s :: l).map (·.dposIrreversibleBlocknum)).Pairwise (· ≤ ·) := by
  rw [← List.isChain_iff_pairwise]
  induction l generalizing s with
  | nil => exact List.IsChain.singleton _
  | cons s' l ih =>
    rw [List.isChain_cons_cons] at hchain
    rw [List.dropLast_cons_cons, List.forall_mem_cons] at hnum hcaught
    obtain ⟨⟨h, skip, hn⟩, htail⟩ := hchain
    rw [List.map_cons, List.map_cons, List.isChain_cons_cons]
    refine ⟨irreversible_le_next hs hcaught.1 hn, ?_⟩
    exact ih s' (hs.next hnum.1 hn) htail hnum.2 hcaught.2

/-- Four producers, three of which take turns; the second block proposes a schedule of the fourth
and of a fifth. -/
def laggingPromotion : List (Nat × Nat × Option (Nat × ProducerSchedule)) :=
  [(24, 0, none), (30, 1, some (0, ⟨1, [⟨4, 7⟩, ⟨5, 7⟩]⟩)), (36, 2, none), (48, 2, none),
    (54, 2, none), (60, 2, none), (72, 2, none), (78, 0, none)]

def fourProducers : BlockHeaderState :=
  genesis toyCrypto ⟨0, [⟨1, 7⟩, ⟨2, 7⟩, ⟨3, 7⟩, ⟨4, 7⟩]⟩ 0 5

/-- The first six turns move the last irreversible block forward. -/
theorem pairwise_irreversible_le_fourProducers :
    ∃ l, (fourProducers :: l).IsChain (Next toyCrypto) ∧ l.length = 6 ∧
      ((fourProducers :: l).map (·.dposIrreversibleBlocknum)).Pairwise (· ≤ ·) := by
  obtain ⟨states, hrun, hall⟩ := exists_ok_of_any
    (x := fourProducers.turns (laggingPromotion.take 6))
    (p := fun l => l.length = 7 ∧ ∀ s ∈ l, s.blockNum + 1 < 2 ^ 32 ∧ s.CaughtUp)
    (by decide +kernel)
  obtain ⟨hlen, hall⟩ := of_decide_eq_true hall
  obtain ⟨l, rfl, hchain⟩ := turns_isChain hrun
  refine ⟨l, hchain, by simpa using hlen, ?_⟩
  exact pairwise_irreversible_le toyCrypto fourProducers l (genesis_consistent _ _ _) hchain
    (fun s hs => (hall s (List.mem_of_mem_dropLast hs)).1)
    fun s hs => (hall s (List.mem_of_mem_dropLast hs)).2

/-- **A promotion moves the last irreversible block back**: the eighth block promotes a schedule
whose one old producer has never had a turn, and the last irreversible block falls from 3 to 0. -/
theorem irreversible_moves_back :
    ∃ l, (fourProducers :: l).IsChain (Next toyCrypto) ∧
      ¬ ((fourProducers :: l).map (·.dposIrreversibleBlocknum)).Pairwise (· ≤ ·) := by
  obtain ⟨states, hrun, hlibs⟩ := exists_ok_of_any (x := fourProducers.turns laggingPromotion)
    (p := fun l => l.map (·.dposIrreversibleBlocknum) = [0, 0, 0, 0, 0, 0, 2, 3, 0])
    (by decide +kernel)
  obtain ⟨l, rfl, hchain⟩ := turns_isChain hrun
  refine ⟨l, hchain, ?_⟩
  rw [of_decide_eq_true hlibs]
  decide

end BlockHeaderState

end BaccChain
