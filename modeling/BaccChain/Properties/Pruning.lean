import BaccChain.Properties.ForkBranches

/-!
# Pruning the fork database

Each level first loses its block of the irreversible chain, then the siblings of that block with all
that builds on them. The loop over a level moves its iterator on before it removes a sibling.

## Main definitions

* `ForkDatabase.FirstStays`: the first block above a level outlives the last sibling

## Main results

* `ForkDatabase.prune_keeps_descendants_iff`: when pruning leaves exactly what builds on a block
* `ForkDatabase.prune_lostDb`: an index in which the iterator gets lost
-/

namespace BaccChain

open Commons

namespace ForkDatabase

variable {db t : ForkDatabase} {a b h s : BlockState} {oldest : BlockId} {l : List BlockState}

/-! ## Levels of a tree -/

def up (db : ForkDatabase) (b : BlockState) : Option BlockState := db.getBlock b.header.previous

def siblings (db : ForkDatabase) (a : BlockState) : List BlockState :=
  db.index.filter fun s => s.header.previous = a.header.previous ∧ s.id ≠ a.id

def OnTop (t : ForkDatabase) (p : Option BlockState) (b : BlockState) : Prop :=
  ∃ s ∈ t.index, t.up s = p ∧ Reaches t.up b s

namespace IsTree

variable (ht : t.IsTree oldest)
include ht

theorem up_eq_some : t.up b = some a ↔ a ∈ t.index ∧ a.id = b.header.previous := by
  refine ⟨getBlock_eq_some, ?_⟩
  rintro ⟨ha, hid⟩
  rw [up, ← hid]
  exact getBlock_of_mem (distinct_iff.mpr ht.nodup) ha

theorem ranked : Ranked t.up (·.blockNum) { b | b ∈ t.index } := by
  intro b hb p hp
  obtain ⟨hmem, hid⟩ := ht.up_eq_some.mp hp
  obtain ⟨q, hq, hqid, hnum⟩ := ht.parent b hb fun h => ht.root b hb h p hmem hid
  rw [eq_of_key_eq ht.nodup hmem hq (hid.trans hqid.symm)]
  exact ⟨hq, hnum⟩

theorem blockNum_up (hb : b ∈ t.index) (h : t.up b = some a) : b.blockNum = a.blockNum + 1 :=
  (ht.ranked b hb a h).2

theorem eq_of_up_eq_none (ha : a ∈ t.index) (hb : b ∈ t.index) (hna : t.up a = none)
    (hnb : t.up b = none) : a = b := by
  have hid {x : BlockState} (hx : x ∈ t.index) (hnone : t.up x = none) : x.id = oldest := by
    by_contra hne
    obtain ⟨p, hp, hpid, -⟩ := ht.parent x hx hne
    rw [ht.up_eq_some.mpr ⟨hp, hpid⟩] at hnone
    cases hnone
  exact eq_of_key_eq ht.nodup ha hb ((hid ha hna).trans (hid hb hnb).symm)

theorem blockNum_eq (ha : a ∈ t.index) (hs : s ∈ t.index) (h : t.up s = t.up a) :
    s.blockNum = a.blockNum := by
  cases hp : t.up a with
  | none => rw [ht.eq_of_up_eq_none hs ha (h.trans hp) hp]
  | some =>
    rw [ht.blockNum_up ha hp, ht.blockNum_up hs (h.trans hp)]

theorem id_ne (ha : a ∈ t.index) (hs : s ∈ t.index) : s.id ≠ a.id ↔ s ≠ a :=
  not_congr ⟨eq_of_key_eq ht.nodup hs ha, fun h => by rw [h]⟩

theorem mem_siblings (ha : a ∈ t.index) :
    s ∈ t.siblings a ↔ s ∈ t.index ∧ t.up s = t.up a ∧ s ≠ a := by
  rw [siblings, List.mem_filter, decide_eq_true_iff]
  constructor
  · rintro ⟨hs, hprev, hid⟩
    exact ⟨hs, congrArg t.getBlock hprev, (ht.id_ne ha hs).mp hid⟩
  · rintro ⟨hs, hup, hsa⟩
    refine ⟨hs, ?_, (ht.id_ne ha hs).mpr hsa⟩
    cases hp : t.up a with
    | none => exact absurd (ht.eq_of_up_eq_none hs ha (hup.trans hp) hp) hsa
    | some =>
      exact (ht.up_eq_some.mp (hup.trans hp)).2.symm.trans (ht.up_eq_some.mp hp).2

theorem eq_of_reaches (ha : a ∈ t.index) (hs : s ∈ t.index) (h : t.up s = t.up a)
    (hb : b ∈ t.index) (hba : Reaches t.up b a) (hbs : Reaches t.up b s) : s = a :=
  ht.ranked.eq_of_reaches hb hbs hba (ht.blockNum_eq ha hs h)

theorem onTop_some (ha : a ∈ t.index) (hb : b ∈ t.index) :
    t.OnTop (some a) b ↔ Reaches t.up b a ∧ b ≠ a := by
  constructor
  · rintro ⟨s, hs, hup, l, hl⟩
    have hpath : Path t.up b (l ++ [s]) a := Path.append_iff.mpr ⟨s, hl, .cons hup (.nil a)⟩
    refine ⟨⟨_, hpath⟩, ?_⟩
    rintro rfl
    exact absurd (ht.ranked.of_mem hb hpath (by simp)).2
      (not_lt.mpr (ht.ranked.le_of_reaches hb ⟨l, hl⟩))
  · rintro ⟨⟨l, hl⟩, hne⟩
    rcases List.eq_nil_or_concat l with rfl | ⟨m, s, rfl⟩
    · exact absurd (Path.nil_iff.mp hl) hne
    · rw [List.concat_eq_append, Path.append_iff] at hl
      obtain ⟨q, hm, hq⟩ := hl
      obtain ⟨rfl, p, hp, hpa⟩ := Path.cons_iff.mp hq
      rw [Path.nil_iff.mp hpa] at hp
      exact ⟨s, (ht.ranked.path hb hm).1, hp, m, hm⟩

theorem below_iff (hl : l ⊆ t.index) (hs : s ∈ t.index)
    (hclosed : ∀ x ∈ t.index, Reaches t.up x s → x ∈ l) (hb : b ∈ l) :
    Below (·.id) (·.header.previous) l s.id b ↔ Reaches t.up b s := by
  constructor
  · intro h
    exact (Commons.below_iff_reaches ht.nodup (fun _ _ => ht.up_eq_some) hs (hl hb)).mp (h.mono hl)
  · rintro ⟨m, hm⟩
    induction hm with
    | nil => exact .self hb rfl
    | @cons a p s m hp hm ih =>
      obtain ⟨hmem, hid⟩ := ht.up_eq_some.mp hp
      exact .child hb (ih hs hclosed (hclosed p hmem ⟨m, hm⟩)) hid.symm

end IsTree

/-! ## What comes first -/

theorem filter_level {num : Nat} (hl : l.Pairwise fun a b => ¬ b.Before a)
    (hnum : ∀ b ∈ l, num ≤ b.blockNum) :
    l = l.filter (·.blockNum = num) ++ l.filter (num < ·.blockNum) := by
  induction l with
  | nil => rfl
  | cons a l ih =>
    obtain ⟨ha, hl⟩ := List.pairwise_cons.mp hl
    obtain ⟨hna, hnl⟩ := List.forall_mem_cons.mp hnum
    rcases hna.eq_or_lt with rfl | hlt
    · simpa using ih hl hnl
    · have habove : ∀ b ∈ a :: l, num < b.blockNum := List.forall_mem_cons.mpr
        ⟨hlt, fun b hb => hlt.trans_le (not_lt.mp fun h => ha b hb (.inl h))⟩
      rw [List.filter_eq_nil_iff.mpr fun b hb => by simpa using (habove b hb).ne', List.nil_append,
        List.filter_eq_self.mpr fun b hb => decide_eq_true (habove b hb)]

/-! ## The loop over a level -/

section Prune

open scoped Classical

noncomputable def above (t : ForkDatabase) (a : BlockState) : List BlockState :=
  t.index.filter fun b => a.blockNum < b.blockNum ∧ t.OnTop (t.up a) b

noncomputable def aboveWithout (t : ForkDatabase) (a : BlockState) (gone : List BlockState) :
    List BlockState :=
  (t.above a).filter fun b => ∀ r ∈ gone, ¬ Reaches t.up b r

/-- When the last sibling of a block is removed, there is a first block above their level, and it
does not build on the sibling. -/
def FirstStays (t : ForkDatabase) (a : BlockState) : Prop :=
  ∀ s ∈ (t.siblings a).getLast?, ∃ u ∈ (t.aboveWithout a (t.siblings a).dropLast).head?,
    ¬ Reaches t.up u s

variable {gone todo : List BlockState} {n : Nat}

theorem mem_above : b ∈ t.above a ↔
    b ∈ t.index ∧ a.blockNum < b.blockNum ∧ t.OnTop (t.up a) b := by
  simp [above]

theorem mem_aboveWithout : b ∈ t.aboveWithout a gone ↔
    b ∈ t.above a ∧ ∀ r ∈ gone, ¬ Reaches t.up b r := by
  simp [aboveWithout]

@[simp] theorem aboveWithout_nil : t.aboveWithout a [] = t.above a := by
  simp [aboveWithout]

theorem aboveWithout_append : t.aboveWithout a (gone ++ [s]) =
    (t.aboveWithout a gone).filter (¬ Reaches t.up · s) := by
  rw [aboveWithout, aboveWithout, List.filter_filter]
  refine List.filter_congr fun x _ => ?_
  simp [or_imp, forall_and, Bool.and_comm]

variable (ht : t.IsTree oldest)
include ht

theorem blockNum_of_sibling (ha : a ∈ t.index) (hs : s ∈ t.siblings a) :
    s.blockNum = a.blockNum := by
  obtain ⟨hs, hup, -⟩ := (ht.mem_siblings ha).mp hs
  exact ht.blockNum_eq ha hs hup

theorem eq_of_reaches_sibling {r x : BlockState} (ha : a ∈ t.index) (hs : s ∈ t.siblings a)
    (hr : r ∈ t.siblings a) (hx : x ∈ t.index) (hxr : Reaches t.up x r) (hxs : Reaches t.up x s) :
    r = s := by
  obtain ⟨hs, hups, -⟩ := (ht.mem_siblings ha).mp hs
  obtain ⟨hr, hupr, -⟩ := (ht.mem_siblings ha).mp hr
  exact ht.eq_of_reaches hs hr (hupr.trans hups.symm) hx hxs hxr

theorem below_sibling (ha : a ∈ t.index) (hsib : t.siblings a = gone ++ s :: todo)
    (hindex : db.index = s :: (todo ++ t.aboveWithout a gone)) (hb : b ∈ db.index) :
    b ∈ t.index ∧ (Below (·.id) (·.header.previous) db.index s.id b ↔ Reaches t.up b s) := by
  have hmem {x : BlockState} (hx : x ∈ gone ++ s :: todo) :
      x ∈ t.index ∧ t.up x = t.up a ∧ x ≠ a := (ht.mem_siblings ha).mp (hsib ▸ hx)
  obtain ⟨hs, hup, -⟩ := hmem (x := s) (by simp)
  have hsub : db.index ⊆ t.index := by
    rw [hindex]
    intro x hx
    rw [← List.cons_append, List.mem_append] at hx
    rcases hx with hx | hx
    · exact (hmem (List.mem_append_right gone hx)).1
    · exact (mem_above.mp (mem_aboveWithout.mp hx).1).1
  refine ⟨hsub hb, ht.below_iff hsub hs (fun y hy hys => ?_) hb⟩
  rw [hindex]
  by_cases hne : y = s
  · simp [hne]
  · have hlt := ht.ranked.lt_of_reaches hy hys hne
    rw [ht.blockNum_eq ha hs hup] at hlt
    refine List.mem_cons_of_mem s (List.mem_append_right _ <| mem_aboveWithout.mpr
      ⟨mem_above.mpr ⟨hy, hlt, s, hs, hup, hys⟩, fun r hr hyr => ?_⟩)
    have hnodup : (gone ++ s :: todo).Nodup := hsib ▸ (ht.nodup.of_map _).filter _
    rw [eq_of_reaches_sibling ht ha (by simp [hsib]) (by simp [hsib, hr]) hy hyr hys] at hr
    exact (List.nodup_cons.mp (List.nodup_middle.mp hnodup)).1 (List.mem_append_left _ hr)

theorem index_removed (ha : a ∈ t.index) (hsib : t.siblings a = gone ++ s :: todo)
    (hindex : db.index = s :: (todo ++ t.aboveWithout a gone))
    (hids : (db.index.map (·.id)).Nodup) :
    (db.removed s.id).index = todo ++ t.aboveWithout a (gone ++ [s]) := by
  have hbelow : (db.removed s.id).index = db.index.filter (¬ Reaches t.up · s) := by
    refine (sweepFrom_eq_filter hids).trans (List.filter_congr fun x hx => ?_)
    simp only [(below_sibling ht ha hsib hindex hx).2]
  have hnodup : (gone ++ s :: todo).Nodup := hsib ▸ (ht.nodup.of_map _).filter _
  have hnot : s ∉ gone ++ todo := (List.nodup_cons.mp (List.nodup_middle.mp hnodup)).1
  rw [hbelow, hindex, List.filter_cons_of_neg (by simpa using .refl s),
    List.filter_append, aboveWithout_append, List.filter_eq_self.mpr]
  intro x hx
  have hxs : x ∈ t.siblings a := by simp [hsib, hx]
  refine decide_eq_true fun hreach => hnot (List.mem_append_right _ ?_)
  rwa [eq_of_reaches_sibling ht ha (by simp [hsib]) hxs ((ht.mem_siblings ha).mp hxs).1
    (.refl x) hreach] at hx

theorem index_cleared (ha : a ∈ t.index) (hsib : t.siblings a = gone ++ todo)
    (hindex : db.index = todo ++ t.aboveWithout a gone) (hids : (db.index.map (·.id)).Nodup) :
    (db.cleared a.blockNum).index = t.aboveWithout a (t.siblings a) := by
  induction todo generalizing gone db with
  | nil =>
    rw [List.append_nil] at hsib
    have hnone : db.index.filter (·.blockNum = a.blockNum) = [] := by
      rw [hindex, List.nil_append, List.filter_eq_nil_iff]
      intro u hu
      simpa using (mem_above.mp (mem_aboveWithout.mp hu).1).2.1.ne'
    rw [cleared, hnone, hsib]
    exact hindex
  | cons s todo ih =>
    have hs : s ∈ db.index := by simp [hindex]
    have hnum := blockNum_of_sibling ht ha (s := s) (by simp [hsib])
    rw [← cleared_removed (distinct_iff.mpr hids) hs hnum]
    exact ih (by simp [hsib]) (index_removed ht ha hsib (by simpa using hindex) hids)
      (hids.sublist (sweepFrom_sublist.map _))

/-- **The iterator** gets lost in a level at its last block or not at all. -/
theorem passes_iff_firstStays (ha : a ∈ t.index) (hsib : t.siblings a = gone ++ s :: todo)
    (hindex : db.index = s :: (todo ++ t.aboveWithout a gone))
    (hids : (db.index.map (·.id)).Nodup) : Passes a.blockNum db.index ↔ t.FirstStays a := by
  induction todo generalizing gone s db with
  | nil =>
    have hremoved : sweepFrom (·.id) (·.header.previous) s.id db.index =
        t.aboveWithout a (gone ++ [s]) := index_removed ht ha hsib hindex hids
    have habove : Passes a.blockNum (t.aboveWithout a (gone ++ [s])) := by
      cases hl : t.aboveWithout a (gone ++ [s]) with
      | nil => exact .nil
      | cons u =>
        have hu : u ∈ t.aboveWithout a (gone ++ [s]) := by simp [hl]
        exact .above (mem_above.mp (mem_aboveWithout.mp hu).1).2.1.ne'
    have hbelow {u : BlockState} (hu : u ∈ (t.aboveWithout a gone).head?) :
        Below (·.id) (·.header.previous) db.index s.id u ↔ Reaches t.up u s :=
      (below_sibling ht ha hsib hindex (by simp [hindex, List.mem_of_mem_head? hu])).2
    rw [hindex, List.nil_append] at hremoved hbelow
    rw [hindex, List.nil_append, passes_cons_iff (blockNum_of_sibling ht ha (by simp [hsib])),
      hremoved, FirstStays, hsib]
    simp only [List.getLast?_concat, Option.mem_some_iff, List.dropLast_concat, forall_eq']
    refine exists_congr fun u => and_congr_right fun hu => ?_
    rw [hbelow hu, and_iff_left habove]
  | cons r todo ih =>
    have hr : r ∈ t.siblings a := by simp [hsib]
    have hne : s ≠ r := by
      rintro rfl
      have hnodup : (gone ++ s :: s :: todo).Nodup := hsib ▸ (ht.nodup.of_map _).filter _
      exact (List.nodup_cons.mp hnodup.of_append_right).1 List.mem_cons_self
    have hnot : ¬ Below (·.id) (·.header.previous) db.index s.id r := by
      obtain ⟨hrt, hbelow⟩ := below_sibling ht ha hsib hindex (b := r) (by simp [hindex])
      rw [hbelow]
      exact fun hreach =>
        hne (eq_of_reaches_sibling ht ha (by simp [hsib]) hr hrt (.refl r) hreach).symm
    have hremoved := index_removed ht ha hsib hindex hids
    rw [← ih (by simp [hsib]) hremoved (hids.sublist (sweepFrom_sublist.map _))]
    rw [hindex] at hnot ⊢
    rw [passes_cons_iff (blockNum_of_sibling ht ha (by simp [hsib])), ← hindex]
    rw [← hindex] at hnot
    simp [hnot, ForkDatabase.removed, withHead, swept]

/-! ## One level after the other -/

variable (hsorted : t.index.Pairwise fun a b => ¬ b.Before a)

theorem aboveWithout_siblings (ha : a ∈ t.index) :
    t.aboveWithout a (t.siblings a) = t.index.filter (t.OnTop (some a)) := by
  rw [aboveWithout, above, List.filter_filter]
  refine List.filter_congr fun b hb => ?_
  rw [Bool.eq_iff_iff]
  simp only [Bool.and_eq_true, decide_eq_true_eq, ht.onTop_some ha hb]
  constructor
  · rintro ⟨hnot, hlt, s, hs, hup, hbs⟩
    have hsa : s = a := by
      by_contra hne
      exact hnot s ((ht.mem_siblings ha).mpr ⟨hs, hup, hne⟩) hbs
    subst hsa
    exact ⟨hbs, fun h => lt_irrefl _ (h ▸ hlt)⟩
  · rintro ⟨hba, hne⟩
    refine ⟨fun r hr hbr => ?_, ht.ranked.lt_of_reaches hb hba hne, a, ha, rfl, hba⟩
    obtain ⟨hr, hup, hra⟩ := (ht.mem_siblings ha).mp hr
    exact hra (ht.eq_of_reaches ha hr hup hb hba hbr)

include hsorted

theorem index_erase (ha : a ∈ t.index) (hindex : db.index = t.index.filter (t.OnTop (t.up a))) :
    (db.erase a.id).index = t.siblings a ++ t.above a := by
  have hrest : (db.erase a.id).index = t.index.filter fun b => b ≠ a ∧ t.OnTop (t.up a) b := by
    show List.filter _ db.index = _
    rw [hindex, List.filter_filter]
    refine List.filter_congr fun b hb => ?_
    simp [ht.id_ne ha hb]
  have hmem : ∀ b ∈ (db.erase a.id).index, a.blockNum ≤ b.blockNum := by
    intro b hb
    rw [hrest, List.mem_filter, decide_eq_true_iff] at hb
    obtain ⟨hb, -, s, hs, hup, hbs⟩ := hb
    exact ht.blockNum_eq ha hs hup ▸ ht.ranked.le_of_reaches hb hbs
  rw [filter_level (hrest ▸ hsorted.sublist List.filter_sublist) hmem, hrest, List.filter_filter,
    List.filter_filter]
  congr 1
  · refine List.filter_congr fun b hb => ?_
    have hsib := ht.mem_siblings (s := b) ha
    rw [siblings, List.mem_filter, and_congr_right_iff] at hsib
    rw [Bool.eq_iff_iff, hsib hb]
    simp only [Bool.and_eq_true, decide_eq_true_eq]
    constructor
    · rintro ⟨hnum, hne, s, hs, hup, hbs⟩
      obtain rfl : b = s :=
        ht.ranked.eq_of_reaches hb (.refl b) hbs (hnum.trans (ht.blockNum_eq ha hs hup).symm)
      exact ⟨hup, hne⟩
    · rintro ⟨hup, hne⟩
      exact ⟨ht.blockNum_eq ha hb hup, hne, b, hb, hup, .refl b⟩
  · refine List.filter_congr fun b hb => ?_
    rw [Bool.eq_iff_iff]
    simp only [Bool.and_eq_true, decide_eq_true_eq]
    exact ⟨fun h => ⟨h.1, h.2.2⟩, fun h => ⟨h.1, fun hba => lt_irrefl _ (hba ▸ h.1), h.2⟩⟩

theorem pruneLevel_spec (ha : a ∈ t.index)
    (hindex : db.index = t.index.filter (t.OnTop (t.up a))) :
    ∃ db', db'.index = t.index.filter (t.OnTop (some a)) ∧
      ∀ r, db.pruneLevel a = .ok r ↔ t.FirstStays a ∧ r = ([a], db') := by
  have herase := index_erase ht hsorted ha hindex
  have hids : (db.index.map (·.id)).Nodup := hindex ▸ ht.nodup.sublist (List.filter_sublist.map _)
  have hget : db.getBlock a.id = some a := by
    refine getBlock_of_mem (distinct_iff.mpr hids) ?_
    rw [hindex, List.mem_filter, decide_eq_true_iff]
    exact ⟨ha, a, ha, rfl, .refl a⟩
  have hids' : ((db.erase a.id).index.map (·.id)).Nodup := nodup_without hids
  have hsorted' : (db.erase a.id).Sorted := by
    have hsub : (db.erase a.id).index.Sublist t.index := by
      refine without_sublist.trans ?_
      rw [hindex]
      exact List.filter_sublist
    exact hsorted.sublist hsub
  have hnum : ∀ b ∈ (db.erase a.id).index, a.blockNum ≤ b.blockNum := by
    intro b hb
    rw [herase] at hb
    rcases List.mem_append.mp hb with h | h
    · exact (blockNum_of_sibling ht ha h).ge
    · exact (mem_above.mp h).2.1.le
  have hleft : ((db.erase a.id).cleared a.blockNum).index = t.aboveWithout a (t.siblings a) :=
    index_cleared ht ha (List.nil_append _).symm (by simpa using herase) hids'
  have hpasses : Passes a.blockNum (db.erase a.id).index ↔ t.FirstStays a := by
    cases hsib : t.siblings a with
    | nil =>
      refine iff_of_true ?_ (by simp [FirstStays, hsib])
      rw [herase, hsib, List.nil_append]
      cases habove : t.above a with
      | nil => exact .nil
      | cons u => exact .above (mem_above.mp (habove ▸ List.mem_cons_self : u ∈ t.above a)).2.1.ne'
    | cons s todo =>
      rw [hsib] at herase
      exact passes_iff_firstStays ht ha (hsib.trans (List.nil_append _).symm)
        (by simpa using herase) hids'
  refine ⟨(db.erase a.id).cleared a.blockNum, aboveWithout_siblings ht ha ▸ hleft, fun r => ?_⟩
  rw [pruneLevel, hget, bind_eq_ok]
  simp only [clearLevel_eq_ok (distinct_iff.mpr hids') hsorted' hnum, hpasses, pure_eq_ok]
  constructor
  · rintro ⟨_, ⟨hfs, rfl⟩, rfl⟩
    exact ⟨hfs, rfl⟩
  · rintro ⟨hfs, rfl⟩
    exact ⟨_, ⟨hfs, rfl⟩, rfl⟩

theorem firstStays_of_marked (ha : a ∈ t.index) (hb : b ∈ t.index) (hba : t.up b = some a)
    (hmark : b.inCurrentChain = true)
    (hone : ∀ x ∈ t.index, x.blockNum = b.blockNum → x.inCurrentChain = true → x = b) :
    t.FirstStays a := by
  intro s hs
  have hnum := ht.blockNum_up hb hba
  have hreach : Reaches t.up b a := ⟨[b], .cons hba (.nil a)⟩
  have hnot : ∀ r ∈ t.siblings a, ¬ Reaches t.up b r := by
    intro r hr hbr
    obtain ⟨hr, hup, hne⟩ := (ht.mem_siblings ha).mp hr
    exact hne (ht.eq_of_reaches ha hr hup hb hreach hbr)
  have hhead : (t.aboveWithout a (t.siblings a).dropLast).head? = some b := by
    refine head_of_marked (hsorted.sublist (List.filter_sublist.trans List.filter_sublist))
      (mem_aboveWithout.mpr ⟨mem_above.mpr ⟨hb, by omega, a, ha, rfl, hreach⟩, fun r hr =>
        hnot r (List.mem_of_mem_dropLast hr)⟩) (fun x hx => ?_) hmark fun x hx => ?_
    · have := (mem_above.mp (mem_aboveWithout.mp hx).1).2.1
      omega
    · exact hone x (mem_above.mp (mem_aboveWithout.mp hx).1).1
  exact ⟨b, hhead, hnot s (List.mem_of_mem_getLast? hs)⟩

omit ht hsorted in
theorem pruneLoop_of_first (hfirst : db.index.head? = some a) (hlt : ¬ a.blockNum < h.blockNum) :
    pruneLoop (n + 1) db h = db.pruneLevel h := by
  rw [pruneLoop, hfirst, Option.filter_some, if_neg (by simpa using hlt)]

theorem pruneLoop_spec {chain : List BlockState}
    (hmem : ∀ x ∈ a :: chain, x ∈ t.index ∧ x.blockNum ≤ h.blockNum)
    (hchain : (a :: chain).IsChain fun x y => t.up y = some x)
    (hlast : (a :: chain).getLast? = some h)
    (hmark : ∀ x ∈ chain, x.inCurrentChain = true ∧
      ∀ y ∈ t.index, y.blockNum = x.blockNum → y.inCurrentChain = true → y = x)
    (hfirst : db.index.head? = some a) (hindex : db.index = t.index.filter (t.OnTop (t.up a)))
    (hn : chain.length < n) :
    ∃ db', db'.index = t.index.filter (t.OnTop (some h)) ∧
      ∀ r, pruneLoop n db h = .ok r ↔ t.FirstStays h ∧ r = (a :: chain, db') := by
  induction chain generalizing a db n with
  | nil =>
    obtain ⟨n, rfl⟩ : ∃ m, n = m + 1 := ⟨n - 1, by omega⟩
    obtain rfl : a = h := by simpa using hlast
    rw [pruneLoop_of_first hfirst (lt_irrefl _)]
    exact pruneLevel_spec ht hsorted (hmem a List.mem_cons_self).1 hindex
  | cons c chain ih =>
    obtain ⟨n, rfl⟩ : ∃ m, n = m + 2 := ⟨n - 2, by rw [List.length_cons] at hn; omega⟩
    rw [List.length_cons] at hn
    obtain ⟨hca, hchain⟩ := List.isChain_cons_cons.mp hchain
    obtain ⟨⟨hcmark, hcone⟩, hmark⟩ := List.forall_mem_cons.mp hmark
    obtain ⟨⟨ha, -⟩, hmem⟩ := List.forall_mem_cons.mp hmem
    obtain ⟨hc, hle⟩ := hmem c List.mem_cons_self
    have hnum := ht.blockNum_up hc hca
    have hlt : a.blockNum < h.blockNum := by omega
    obtain ⟨db₁, hindex₁, hprune⟩ := pruneLevel_spec ht hsorted ha hindex
    have hprune : db.pruneLevel a = .ok ([a], db₁) :=
      (hprune _).mpr ⟨firstStays_of_marked ht hsorted ha hc hca hcmark hcone, rfl⟩
    have hhead : db₁.index.head? = some c := by
      rw [hindex₁]
      refine head_of_marked (hsorted.sublist List.filter_sublist) ?_ (fun x hx => ?_) hcmark
        fun x hx => hcone x (List.mem_filter.mp hx).1
      · exact List.mem_filter.mpr ⟨hc, decide_eq_true ⟨c, hc, hca, .refl c⟩⟩
      · obtain ⟨hx, htop⟩ := List.mem_filter.mp hx
        obtain ⟨s, hs, hsa, hxs⟩ := of_decide_eq_true htop
        exact ht.blockNum_eq hc hs (hsa.trans hca.symm) ▸ ht.ranked.le_of_reaches hx hxs
    obtain ⟨db', hindex', hloop⟩ := ih hmem hchain (by simpa using hlast) hmark hhead
      (hca ▸ hindex₁) (n := n + 1) (by omega)
    refine ⟨db', hindex', fun r => ?_⟩
    rw [pruneLoop, hfirst, Option.filter_some, if_pos (decide_eq_true hlt)]
    dsimp only
    rw [pruneLoop_of_first hfirst (lt_irrefl _), hprune, ok_bind, bind_eq_ok]
    simp only [hloop, pure_eq_ok]
    constructor
    · rintro ⟨_, ⟨hfs, rfl⟩, rfl⟩
      exact ⟨hfs, rfl⟩
    · rintro ⟨hfs, rfl⟩
      exact ⟨_, ⟨hfs, rfl⟩, rfl⟩

end Prune

/-- **Pruning** tells that the ancestors of a block and then the block are irreversible, and leaves
what builds on it, exactly if the iterator does not get lost in the level of the block and a block
is left. -/
theorem prune_keeps_descendants_iff (t : ForkDatabase) (oldest : BlockId) (h : BlockState)
    (ht : t.IsTree oldest) (hsorted : t.index.Pairwise fun a b => ¬ b.Before a) (hh : h ∈ t.index)
    (hmarked : ∀ x ∈ t.index, Reaches t.up h x → x.inCurrentChain = true)
    (hothers : ∀ x ∈ t.index, x.blockNum ≤ h.blockNum → x.inCurrentChain = true →
      Reaches t.up h x) :
    (∃ l o t', Path t.up h l o ∧ t.up o = none ∧ t.prune h = .ok ((l ++ [o]).reverse, t') ∧
      ∀ b, b ∈ t'.index ↔ b ∈ t.index ∧ b ≠ h ∧ Reaches t.up b h) ↔ t.FirstStays h := by
  classical
  obtain ⟨o, ho, hnone, l, hl⟩ := ht.ranked.exists_root hh
  have hreach {x : BlockState} (hx : x ∈ o :: l.reverse) : Reaches t.up h x := by
    rcases List.mem_cons.mp hx with rfl | hx
    · exact ⟨l, hl⟩
    · exact hl.reaches_iff.mpr (.inl (List.mem_reverse.mp hx))
  have hmem {x : BlockState} (hx : x ∈ o :: l.reverse) :
      x ∈ t.index ∧ x.blockNum ≤ h.blockNum := by
    obtain ⟨m, hm⟩ := hreach hx
    exact ⟨(ht.ranked.path hh hm).1, ht.ranked.le_of_reaches hh ⟨m, hm⟩⟩
  have hone {x : BlockState} (hx : x ∈ o :: l.reverse) : x.inCurrentChain = true ∧
      ∀ y ∈ t.index, y.blockNum = x.blockNum → y.inCurrentChain = true → y = x := by
    refine ⟨hmarked x (hmem hx).1 (hreach hx), fun y hy hnum hmark => ?_⟩
    exact ht.ranked.eq_of_reaches hh (hothers y hy (hnum.trans_le (hmem hx).2) hmark) (hreach hx)
      hnum
  have hroot : ∀ x ∈ t.index, t.OnTop none x := fun x hx => ht.ranked.exists_root hx
  have hfirst : t.index.head? = some o := by
    refine head_of_marked hsorted ho (fun x hx => ?_) (hone List.mem_cons_self).1
      (hone List.mem_cons_self).2
    obtain ⟨r, hr, hrnone, hxr⟩ := hroot x hx
    exact ht.eq_of_up_eq_none ho hr hnone hrnone ▸ ht.ranked.le_of_reaches hx hxr
  have hindex : t.index = t.index.filter (t.OnTop (t.up o)) := by
    rw [hnone, eq_comm, List.filter_eq_self]
    exact fun x hx => decide_eq_true (hroot x hx)
  have hrev : o :: l.reverse = (l ++ [o]).reverse := by simp
  have hchain : (o :: l.reverse).IsChain fun x y => t.up y = some x := by
    rw [hrev, List.isChain_reverse]
    exact hl.isChain.1
  have hlast : (o :: l.reverse).getLast? = some h := by
    rw [hrev, List.getLast?_reverse]
    exact hl.isChain.2
  have hn : l.reverse.length < t.index.length + 1 := by
    have := ht.ranked.length_le hh hl fun _ hb => hb
    rw [List.length_reverse]
    omega
  obtain ⟨t', hleft, hprune⟩ := pruneLoop_spec ht hsorted (fun x => hmem) hchain hlast
    (fun x hx => hone (List.mem_cons_of_mem o hx)) hfirst hindex hn
  constructor
  · rintro ⟨_, _, _, -, -, hok, -⟩
    exact ((hprune _).mp hok).1
  · intro hfs
    refine ⟨l, o, t', hl, hnone, hrev ▸ (hprune _).mpr ⟨hfs, rfl⟩, fun b => ?_⟩
    rw [hleft, List.mem_filter, decide_eq_true_iff]
    exact and_congr_right fun hb => (ht.onTop_some hh hb).trans and_comm

def forkBlock (id previous num : Nat) (marked : Bool) : BlockState :=
  let genesis := ForkOperation.oneProducerNode.head
  { toBlockHeaderState := { genesis with
      id, blockNum := num + 1, header := { genesis.header with previous } }
    inCurrentChain := marked }

/-- The block of the current chain has a sibling, and its own child is of the current chain. -/
def siblingDb : ForkDatabase :=
  { index := [forkBlock 1 0 0 true, forkBlock 2 1 1 true, forkBlock 3 1 1 false,
      forkBlock 5 2 2 true, forkBlock 4 3 2 false] }

theorem prune_keeps_descendants_siblingDb :
    ∃ l o t', Path siblingDb.up (forkBlock 2 1 1 true) l o ∧ siblingDb.up o = none ∧
      siblingDb.prune (forkBlock 2 1 1 true) = .ok ((l ++ [o]).reverse, t') ∧
      ∀ b, b ∈ t'.index ↔ b ∈ siblingDb.index ∧ b ≠ forkBlock 2 1 1 true ∧
        Reaches siblingDb.up b (forkBlock 2 1 1 true) := by
  have ht : siblingDb.IsTree 1 := ⟨by decide, by decide, by decide⟩
  have hsorted : siblingDb.index.Pairwise fun a b => ¬ b.Before a := by decide
  have hh : forkBlock 2 1 1 true ∈ siblingDb.index := by simp [siblingDb]
  have hup : siblingDb.up (forkBlock 2 1 1 true) = some (forkBlock 1 0 0 true) := rfl
  have hlow : ∀ x ∈ siblingDb.index, x.blockNum ≤ 2 → x.inCurrentChain = true →
      x = forkBlock 1 0 0 true ∨ x = forkBlock 2 1 1 true := by
    simp [siblingDb, forkBlock]
  refine (prune_keeps_descendants_iff siblingDb 1 _ ht hsorted hh (fun x hx ⟨l, hl⟩ => ?_)
    fun x hx hle hmark => ?_).mpr ?_
  · obtain rfl | ⟨l, hl⟩ : x = forkBlock 2 1 1 true ∨
        Reaches siblingDb.up (forkBlock 1 0 0 true) x := by
      cases hl with
      | nil => exact .inl rfl
      | cons hp hl =>
        rw [← Option.some.inj (hup.symm.trans hp)] at hl
        exact .inr ⟨_, hl⟩
    · rfl
    · rw [(reaches_of_none rfl).mp ⟨l, hl⟩]
      rfl
  · rcases hlow x hx hle hmark with rfl | rfl
    · exact ⟨_, .cons hup (.nil _)⟩
    · exact .refl _
  · exact firstStays_of_marked (b := forkBlock 5 2 2 true) ht hsorted hh (by simp [siblingDb]) rfl
      rfl (by simp [siblingDb, forkBlock])

/-- The block of the current chain has a sibling, and the child of the sibling came before its own
child. -/
def lostDb : ForkDatabase :=
  { index := [forkBlock 1 0 0 true, forkBlock 2 1 1 true, forkBlock 3 1 1 false,
      forkBlock 4 3 2 false, forkBlock 5 2 2 false] }

/-- **The iterator gets lost**: the last sibling takes its child with it, where the iterator
stands. -/
theorem prune_lostDb : lostDb.IsTree 1 ∧ (lostDb.index.Pairwise fun a b => ¬ b.Before a) ∧
    lostDb.prune (forkBlock 2 1 1 true) = .error "iterator to an erased block" :=
  ⟨⟨by decide, by decide, by decide⟩, by decide, rfl⟩

end ForkDatabase

end BaccChain
