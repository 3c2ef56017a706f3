import BaccChain.Commons.Run
import BaccChain.Properties.Irreversibility

/-!
# Conflicting finality needs a common third

Two chains that fork at a block and both make a later block irreversible have each been confirmed by
all but a third of the producers, so all but two thirds of the producers have produced on both.

## Main definitions

* `ImpliedAfter`: whose blocks imply what is irreversible

## Main results

* `le_card_common_producers`: the producers of both chains
-/

namespace BaccChain

open Commons

/-- The producers of some blocks. -/
def producersOf (l : List SignedBlockHeader) : Finset Name :=
  (l.map fun h => h.producer).toFinset

theorem mem_producersOf {l : List SignedBlockHeader} {p : Name} :
    p ∈ producersOf l ↔ ∃ h ∈ l, h.producer = p := by
  simp [producersOf]

namespace BlockHeaderState

variable {c : Crypto} {s₀ s s' : BlockHeaderState} {h : SignedBlockHeader}
  {l : List SignedBlockHeader}

/-- A block that promotes no schedule. -/
def NextWithoutPromotion (c : Crypto) (s : BlockHeaderState) (h : SignedBlockHeader)
    (s' : BlockHeaderState) : Prop :=
  (∃ skip, s.next c h skip = .ok s') ∧
    ∀ g, s.generateNext c h.timestamp = .ok g → ¬ g.Promotes

/-- The scheduled producers are those with an implied number. -/
structure Tracked (s : BlockHeaderState) : Prop where
  nodup : s.activeSchedule.names.Nodup
  keys : ∀ p, (∃ v, s.producerToLastImpliedIrb.find p = some v) ↔ p ∈ s.activeSchedule.names

theorem Tracked.length_entries (hs : s.Tracked) :
    s.producerToLastImpliedIrb.entries.length = s.activeSchedule.producers.length := by
  have hperm : (s.producerToLastImpliedIrb.entries.map Prod.fst).Perm s.activeSchedule.names := by
    rw [List.perm_ext_iff_of_nodup (Table.nodup_keys _) hs.nodup]
    intro p
    rw [Table.mem_keys_iff, hs.keys]
  have hlen := hperm.length_eq
  rwa [List.length_map, ProducerSchedule.names, List.length_map] at hlen

/-- What holds after the blocks `l` on top of `s₀`: the schedule is the same, its producers are the
ones with entries, and an entry above `s₀` belongs to the producer of a block of `l`. -/
structure ImpliedAfter (s₀ : BlockHeaderState) (l : List SignedBlockHeader)
    (s : BlockHeaderState) : Prop where
  active : s.activeSchedule = s₀.activeSchedule
  tracked : s.Tracked
  produced : ∀ p v, s.producerToLastImpliedIrb.find p = some v → s₀.blockNum < v →
    p ∈ producersOf l
  irreversible : l ≠ [] →
    s.dposIrreversibleBlocknum = calcDposLastIrreversible s.producerToLastImpliedIrb

theorem ImpliedAfter.next (hs : ImpliedAfter s₀ l s) (hn : NextWithoutPromotion c s h s') :
    ImpliedAfter s₀ (l ++ [h]) s' := by
  obtain ⟨⟨skip, hn⟩, hp⟩ := hn
  obtain ⟨hactive, himplied, hlib, hscheduled⟩ := impliedIrb_of_not_promotes hn hp
  refine ⟨hactive.trans hs.active, ⟨?_, fun p => ?_⟩, fun p v hv hlt => ?_, fun _ => hlib⟩
  · rw [hactive]
    exact hs.tracked.nodup
  · rw [himplied, hactive, ← hs.tracked.keys, Table.find_insert]
    split_ifs with hpro
    · subst hpro
      exact iff_of_true ⟨_, rfl⟩ ((hs.tracked.keys _).mpr hscheduled)
    · exact Iff.rfl
  · rw [himplied, Table.find_insert] at hv
    rw [mem_producersOf]
    split_ifs at hv with hpro
    · exact ⟨h, List.mem_append_right _ List.mem_cons_self, hpro⟩
    · obtain ⟨h', hmem, hh'⟩ := mem_producersOf.mp (hs.produced p v hv hlt)
      exact ⟨h', List.mem_append_left _ hmem, hh'⟩

theorem ImpliedAfter.trace (htracked : s₀.Tracked)
    (hle : ∀ p v, s₀.producerToLastImpliedIrb.find p = some v → v ≤ s₀.blockNum)
    (ht : Trace (NextWithoutPromotion c) s₀ l s) : ImpliedAfter s₀ l s := by
  induction ht with
  | nil =>
    refine ⟨rfl, htracked, fun p v hv hlt => ?_, fun hne => absurd rfl hne⟩
    exact absurd (hle p v hv) (Nat.not_le.mpr hlt)
  | snoc _ hR ih => exact ih.next hR

theorem le_card_producersOf (hs : ImpliedAfter s₀ l s) (hne : l ≠ [])
    (hlib : s₀.blockNum < s.dposIrreversibleBlocknum) :
    s₀.activeSchedule.producers.length ≤
      (producersOf l ∩ s₀.activeSchedule.names.toFinset).card +
        (s₀.activeSchedule.producers.length - 1) / 3 := by
  have hlen := hs.tracked.length_entries
  rw [hs.active] at hlen
  set entries := s.producerToLastImpliedIrb.entries with hentries
  rcases Nat.eq_zero_or_pos entries.length with hzero | hpos
  · omega
  have hlow : entries.countP (fun e => e.2 < s₀.blockNum + 1) ≤ (entries.length - 1) / 3 := by
    rw [hentries, ← le_calcDposLastIrreversible_iff (List.length_pos_iff.mp hpos),
      ← hs.irreversible hne]
    exact hlib
  have hsub : ((entries.filter fun e => ¬ e.2 < s₀.blockNum + 1).map Prod.fst).toFinset ⊆
      producersOf l ∩ s₀.activeSchedule.names.toFinset := by
    intro p hp
    obtain ⟨e, he, rfl⟩ := List.mem_map.mp (List.mem_toFinset.mp hp)
    obtain ⟨hmem, habove⟩ := List.mem_filter.mp he
    have hfind := Table.mem_entries_iff.mp hmem
    refine Finset.mem_inter.mpr ⟨hs.produced e.1 e.2 hfind ?_, ?_⟩
    · exact Nat.lt_of_succ_le (by simpa using habove)
    · rw [List.mem_toFinset, ← hs.active, ← hs.tracked.keys]
      exact ⟨e.2, hfind⟩
  have hnodup : ((entries.filter fun e => ¬ e.2 < s₀.blockNum + 1).map Prod.fst).Nodup :=
    (Table.nodup_keys s.producerToLastImpliedIrb).sublist (List.filter_sublist.map Prod.fst)
  have hcard := Finset.card_le_card hsub
  rw [List.toFinset_card_of_nodup hnodup, List.length_map, ← List.countP_eq_length_filter] at hcard
  have hsplit := List.length_eq_countP_add_countP (fun e : Name × Nat => e.2 < s₀.blockNum + 1)
    (l := entries)
  simp only [decide_eq_true_eq] at hsplit
  rw [hlen] at hsplit hlow
  omega

/-- **Conflicting finality needs a common third**: let each of the `n` distinct producers of the
schedule in force at `s₀` have one entry, at or below `s₀`. If two chains on top of `s₀`, without
promotions, both make a block above `s₀` irreversible, then at least `n - 2 * ((n - 1) / 3)`
producers have produced blocks on both. -/
theorem le_card_common_producers (c : Crypto) (s₀ s₁ s₂ : BlockHeaderState)
    (l₁ l₂ : List SignedBlockHeader) (hnodup : s₀.activeSchedule.names.Nodup)
    (hkeys : ∀ p, (∃ v, s₀.producerToLastImpliedIrb.find p = some v) ↔
      p ∈ s₀.activeSchedule.names)
    (hle : ∀ p v, s₀.producerToLastImpliedIrb.find p = some v → v ≤ s₀.blockNum)
    (_hproposed : s₀.dposProposedIrreversibleBlocknum ≤ s₀.blockNum)
    (h₁ : Trace (NextWithoutPromotion c) s₀ l₁ s₁) (hne₁ : l₁ ≠ [])
    (h₂ : Trace (NextWithoutPromotion c) s₀ l₂ s₂) (hne₂ : l₂ ≠ [])
    (hlib₁ : s₀.blockNum < s₁.dposIrreversibleBlocknum)
    (hlib₂ : s₀.blockNum < s₂.dposIrreversibleBlocknum) :
    s₀.activeSchedule.producers.length - 2 * ((s₀.activeSchedule.producers.length - 1) / 3) ≤
      (producersOf l₁ ∩ producersOf l₂).card := by
  have hs₁ := le_card_producersOf (ImpliedAfter.trace ⟨hnodup, hkeys⟩ hle h₁) hne₁ hlib₁
  have hs₂ := le_card_producersOf (ImpliedAfter.trace ⟨hnodup, hkeys⟩ hle h₂) hne₂ hlib₂
  have hall : s₀.activeSchedule.names.toFinset.card = s₀.activeSchedule.producers.length := by
    rw [List.toFinset_card_of_nodup hnodup, ProducerSchedule.names, List.length_map]
  rw [← hall] at hs₁ hs₂ ⊢
  have hcommon := card_le_card_inter_add Finset.inter_subset_right Finset.inter_subset_right hs₁ hs₂
  have hsub : producersOf l₁ ∩ s₀.activeSchedule.names.toFinset ∩
      (producersOf l₂ ∩ s₀.activeSchedule.names.toFinset) ⊆ producersOf l₁ ∩ producersOf l₂ :=
    Finset.inter_subset_inter Finset.inter_subset_left Finset.inter_subset_left
  have hcard := Finset.card_le_card hsub
  omega

theorem turns_trace {l : List (Nat × Nat × Option (Nat × ProducerSchedule))}
    {states : List BlockHeaderState} (h : s.turns l = .ok states)
    (hpending : ∀ s' ∈ states, s'.pendingSchedule.producers = []) :
    ∃ hs s', states.getLast? = some s' ∧ hs.length = l.length ∧
      Trace (NextWithoutPromotion toyCrypto) s hs s' := by
  induction l generalizing s states with
  | nil =>
    obtain rfl := pure_eq_ok.mp h
    exact ⟨[], s, rfl, rfl, Trace.nil⟩
  | cons turn l ih =>
    obtain ⟨when, confirmed, proposed⟩ := turn
    simp only [turns, bind_eq_ok, pure_eq_ok] at h
    obtain ⟨t, hturn, rest, hrest, rfl⟩ := h
    rw [List.forall_mem_cons] at hpending
    obtain ⟨hs, s', hlast, hlen, htrace⟩ := ih hrest hpending.2
    obtain ⟨p, -, hn⟩ := bind_eq_ok.mp hturn
    have hnot : ∀ g, s.generateNext toyCrypto p.header.timestamp = .ok g → ¬ g.Promotes := by
      intro g hg hpromotes
      obtain ⟨_, _, _, -, -, -, rfl⟩ := generateNext_eq_ok.mp hg
      exact hpromotes.1 hpending.1
    refine ⟨p.header :: hs, s', ?_, congrArg (· + 1) hlen, Trace.cons ⟨⟨false, hn⟩, hnot⟩ htrace⟩
    rw [List.getLast?_cons, hlast]
    rfl

/-- Four producers, after each of them has had a turn. -/
def firstRound : Except String BlockHeaderState := do
  let states ← fourProducers.turns [(24, 0, none), (30, 1, none), (36, 2, none), (42, 3, none)]
  return states.getLastD fourProducers

/-- Two rounds without the fourth producer, and two without the first. -/
def forkSlots : List (List Nat) := [[48, 54, 60, 72, 78, 84], [54, 60, 66, 78, 84, 90]]

/-- Two chains of four producers that fork after the first round. -/
theorem le_card_common_producers_fork :
    ∃ s₀ s₁ s₂ l₁ l₂, firstRound = .ok s₀ ∧ Trace (NextWithoutPromotion toyCrypto) s₀ l₁ s₁ ∧
      Trace (NextWithoutPromotion toyCrypto) s₀ l₂ s₂ ∧
      2 ≤ (producersOf l₁ ∩ producersOf l₂).card := by
  obtain ⟨s₀, h₀, htest⟩ := exists_ok_of_any (x := firstRound) (p := fun s => decide (
    s.activeSchedule.producers = [⟨1, 7⟩, ⟨2, 7⟩, ⟨3, 7⟩, ⟨4, 7⟩] ∧
    s.producerToLastImpliedIrb.entries = [(1, 0), (2, 0), (3, 0), (4, 2)] ∧
    s.blockNum = 5 ∧ s.dposProposedIrreversibleBlocknum = 3 ∧
    ∀ slots ∈ forkSlots,
      (s.turns (slots.map fun when => (when, 2, none))).toOption.any
        (fun l => decide ((∀ s' ∈ l, s'.pendingSchedule.producers = []) ∧
          l.getLast?.map (·.dposIrreversibleBlocknum) = some 6)) = true))
    (by decide +kernel)
  obtain ⟨hactive, hentries, hnum, hproposed, hturns⟩ := of_decide_eq_true htest
  have hfork : ∀ slots ∈ forkSlots, ∃ l s', l ≠ [] ∧
      Trace (NextWithoutPromotion toyCrypto) s₀ l s' ∧ s'.dposIrreversibleBlocknum = 6 := by
    intro slots hslots
    obtain ⟨states, hrun, hstates⟩ := exists_ok_of_any (hturns slots hslots)
    obtain ⟨hpending, hlib⟩ := of_decide_eq_true hstates
    obtain ⟨l, s', hlast, hlen, htrace⟩ := turns_trace hrun hpending
    rw [hlast] at hlib
    refine ⟨l, s', ?_, htrace, Option.some.inj hlib⟩
    rintro rfl
    have hlong : ∀ slots ∈ forkSlots, slots.length ≠ 0 := by decide
    rw [List.length_map] at hlen
    exact hlong slots hslots hlen.symm
  obtain ⟨l₁, s₁, hne₁, ht₁, hlib₁⟩ := hfork _ List.mem_cons_self
  obtain ⟨l₂, s₂, hne₂, ht₂, hlib₂⟩ := hfork _ (List.mem_cons_of_mem _ List.mem_cons_self)
  refine ⟨s₀, s₁, s₂, l₁, l₂, h₀, ht₁, ht₂, ?_⟩
  have hnames : s₀.activeSchedule.names = [1, 2, 3, 4] := by
    rw [ProducerSchedule.names, hactive]
    rfl
  have hkeys (p : Name) : (∃ v, s₀.producerToLastImpliedIrb.find p = some v) ↔
      p ∈ s₀.activeSchedule.names := by
    rw [← Table.mem_keys_iff, hentries, hnames]
    rfl
  have hle (p : Name) (v : Nat) (hv : s₀.producerToLastImpliedIrb.find p = some v) :
      v ≤ s₀.blockNum := by
    have hmem := Table.mem_entries_iff.mpr hv
    have hall : ∀ e ∈ s₀.producerToLastImpliedIrb.entries, e.2 ≤ 5 := by
      rw [hentries]
      decide
    rw [hnum]
    exact hall _ hmem
  have hcommon := le_card_common_producers toyCrypto s₀ s₁ s₂ l₁ l₂ (by rw [hnames]; decide) hkeys
    hle (by rw [hproposed, hnum]; decide) ht₁ hne₁ ht₂ hne₂ (by rw [hlib₁, hnum]; decide)
    (by rw [hlib₂, hnum]; decide)
  rwa [hactive] at hcommon

end BlockHeaderState

end BaccChain
