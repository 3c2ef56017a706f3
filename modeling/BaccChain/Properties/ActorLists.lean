import BaccChain.Chain.NodeControl

/-!
# Actor lists

The walks of `check_actor_list` along its sorted ranges decide set membership.

## Main results

* `NodeConfig.checkActorList_fails_iff`: when the check of the actors fails
-/

namespace BaccChain

open Commons

namespace NodeConfig

variable {actors listed : List Name}

/-- The search for an actor in the whitelist may start behind the actor before it, as what it skips
is too small for the actors to come. -/
theorem allListed_iff (ha : actors.Pairwise (· < ·)) (hl : listed.Pairwise (· < ·)) :
    allListed actors listed = true ↔ ∀ a ∈ actors, a ∈ listed := by
  induction actors generalizing listed with
  | nil => simp [allListed]
  | cons a actors ih =>
    obtain ⟨hlater, ha⟩ := List.pairwise_cons.mp ha
    have hmem := fun b => FlatSet.mem_dropWhile_lt (a := a) (b := b) hl
    have hfound := FlatSet.mem_iff_dropWhile_lt (a := a) hl
    have hsorted := hl.sublist (List.dropWhile_sublist (· < a))
    rw [allListed]
    cases hd : listed.dropWhile (· < a) with
    | nil => simp [hfound, hd]
    | cons found rest =>
      rw [hd] at hfound hmem hsorted
      by_cases hf : found = a
      · simp only [if_pos hf]
        rw [ih ha (List.pairwise_cons.mp hsorted).2, List.forall_mem_cons,
          and_iff_right (hfound.mpr (by simp [hf]))]
        apply forall₂_congr
        intro b hb
        have hab := hlater b hb
        simpa [hf, hab.ne', hab.le] using hmem b
      · simp [hfound, hf]

theorem anyListed_iff (ha : actors.Pairwise (· < ·)) (hl : listed.Pairwise (· < ·)) :
    anyListed actors listed = true ↔ ∃ a ∈ actors, a ∈ listed := by
  induction actors generalizing listed with
  | nil => simp [anyListed]
  | cons a actors ih =>
    obtain ⟨hlater, ha⟩ := List.pairwise_cons.mp ha
    have hmem := fun b => FlatSet.mem_dropWhile_lt (a := a) (b := b) hl
    have hfound := FlatSet.mem_iff_dropWhile_lt (a := a) hl
    have hsorted := hl.sublist (List.dropWhile_sublist (· < a))
    have hrest : (∃ b ∈ actors, b ∈ listed.dropWhile (· < a)) ↔ ∃ b ∈ actors, b ∈ listed := by
      simp only [hmem]
      exact exists_congr fun b => and_congr_right fun hb => and_iff_left (hlater b hb).le
    rw [anyListed, List.exists_mem_cons_iff, ← hrest]
    cases hd : listed.dropWhile (· < a) with
    | nil => simp [hfound, hd]
    | cons found rest =>
      rw [hd] at hfound hsorted
      by_cases hf : found = a
      · simp [hfound, hf]
      · simp only [if_neg hf]
        rw [ih ha hsorted, hfound, List.head?_cons, Option.some.injEq, or_iff_right hf]

theorem isSubset_iff (ha : actors.Pairwise (· < ·)) (hl : listed.Pairwise (· < ·))
    (hne : actors ≠ []) : isSubset actors listed = true ↔ ∀ a ∈ actors, a ∈ listed := by
  rw [isSubset, ← allListed_iff ha hl]
  refine ⟨fun h => by split_ifs at h; exact h, fun h => ?_⟩
  have hall := (allListed_iff ha hl).mp h
  refine (if_pos ⟨?_, ?_⟩).trans h
  · obtain ⟨a, l, rfl⟩ := List.exists_cons_of_ne_nil hne
    exact FlatSet.headD_le hl (hall a (by simp))
  · obtain ⟨l, a, rfl⟩ := (List.eq_nil_or_concat' actors).resolve_left hne
    rw [List.getLastD_concat]
    exact FlatSet.le_getLastD hl (hall a (by simp))

theorem intersects_iff (ha : actors.Pairwise (· < ·)) (hl : listed.Pairwise (· < ·)) :
    intersects actors listed = true ↔ ∃ a ∈ actors, a ∈ listed := by
  rw [intersects, ← anyListed_iff ha hl]
  refine ⟨fun h => by split_ifs at h; exact h, fun h => ?_⟩
  obtain ⟨a, haa, hal⟩ := (anyListed_iff ha hl).mp h
  refine (if_pos ⟨?_, ?_⟩).trans h
  · exact (FlatSet.headD_le ha haa).trans (FlatSet.le_getLastD hl hal)
  · exact (FlatSet.headD_le hl hal).trans (FlatSet.le_getLastD ha haa)

/-- **Actor lists are set tests**: a non-empty whitelist has to contain every actor, and a blacklist
without a whitelist none. -/
theorem checkActorList_fails_iff (conf : NodeConfig) (actors : FlatSet Name) :
    (∃ e, conf.checkActorList actors = .error e) ↔
      (conf.actorWhitelist ≠ .empty ∧ ∃ a ∈ actors, a ∉ conf.actorWhitelist) ∨
      (conf.actorWhitelist = .empty ∧ conf.actorBlacklist ≠ .empty ∧
        ∃ a ∈ actors, a ∈ conf.actorBlacklist) := by
  have hactors := actors.pairwise_toList
  unfold checkActorList
  by_cases hne : actors.toList = []
  · have hnone : ∀ a, a ∉ actors := fun a ha => by simpa [hne] using FlatSet.mem_toList.mpr ha
    simp [hne, hnone, pure, Except.pure]
  rw [if_neg hne]
  simp only [ne_eq, FlatSet.toList_eq_nil]
  by_cases hw : conf.actorWhitelist = .empty
  · by_cases hb : conf.actorBlacklist = .empty
    · simp [hw, hb, pure, Except.pure]
    · simp [hw, hb, intersects_iff hactors conf.actorBlacklist.pairwise_toList]
  · simp [hw, isSubset_iff hactors conf.actorWhitelist.pairwise_toList hne]

end NodeConfig

end BaccChain
