import BaccChain.Chain.ForkDatabase

/-!
# The loop over a level

The loop over the blocks with a number moves its iterator on before it removes a block with all that
builds on it, and gets lost if that takes the block at which the iterator stands.

## Main definitions

* `ForkDatabase.Passes`: the iterator does not get lost
* `ForkDatabase.cleared`: the fork database without the blocks with a number

## Main results

* `ForkDatabase.clearLevel_eq_ok`: the loop returns exactly if the iterator does not get lost
* `ForkDatabase.passes_of_first`: a first block above the level that stays is enough
-/

namespace BaccChain

open Commons

namespace ForkDatabase

variable {db db' : ForkDatabase} {num n : Nat} {l : List BlockState} {s : BlockState}

/-- In an index that begins with the level: after each block with the number there is one, and it is
not removed with it. -/
inductive Passes (num : Nat) : List BlockState → Prop
  | nil : Passes num []
  | above {b : BlockState} {l : List BlockState} (h : b.blockNum ≠ num) : Passes num (b :: l)
  | next {s y : BlockState} {l : List BlockState} (hs : s.blockNum = num)
    (hy : ¬ Below (·.id) (·.header.previous) (s :: y :: l) s.id y)
    (h : Passes num (sweepFrom (·.id) (·.header.previous) s.id (s :: y :: l))) :
    Passes num (s :: y :: l)

theorem passes_cons_iff (hs : s.blockNum = num) :
    Passes num (s :: l) ↔ ∃ y ∈ l.head?, ¬ Below (·.id) (·.header.previous) (s :: l) s.id y ∧
      Passes num (sweepFrom (·.id) (·.header.previous) s.id (s :: l)) := by
  constructor
  · intro h
    cases h with
    | above h => exact absurd hs h
    | @next _ y l _ hy h => exact ⟨y, rfl, hy, h⟩
  · rintro ⟨y, hhead, hy, h⟩
    obtain ⟨l, rfl⟩ := List.head?_eq_some_iff.mp hhead
    exact .next hs hy h

/-- The fork database without the blocks with a number and what builds on them. -/
def cleared (db : ForkDatabase) (num : Nat) : ForkDatabase :=
  (db.index.filter (·.blockNum = num)).foldl (fun db b => db.removed b.id) db

/-! ## What is left -/

section Left

open scoped Classical

noncomputable def left (num : Nat) (l : List BlockState) : List BlockState :=
  l.filter fun a => ∀ s ∈ l, s.blockNum = num → ¬ Below (·.id) (·.header.previous) l s.id a

theorem left_sweepFrom (hl : (l.map (·.id)).Nodup) (hs : s ∈ l) (hnum : s.blockNum = num) :
    left num (sweepFrom (·.id) (·.header.previous) s.id l) = left num l := by
  have hsame : ∀ a ∈ sweepFrom (·.id) (·.header.previous) s.id l,
      ((∀ r ∈ sweepFrom (·.id) (·.header.previous) s.id l, r.blockNum = num →
        ¬ Below (·.id) (·.header.previous)
          (sweepFrom (·.id) (·.header.previous) s.id l) r.id a) ↔
        ∀ r ∈ l, r.blockNum = num → ¬ Below (·.id) (·.header.previous) l r.id a) := by
    intro a ha
    obtain ⟨-, hnot⟩ := (mem_sweepFrom hl).mp ha
    constructor
    · intro h r hr hrnum hbelow
      by_cases hrs : Below (·.id) (·.header.previous) l s.id r
      · exact hnot (hrs.trans hbelow hl)
      · exact h r ((mem_sweepFrom hl).mpr ⟨hr, hrs⟩) hrnum ((below_sweepFrom hl ha).mpr hbelow)
    · intro h r hr hrnum hbelow
      exact h r (sweepFrom_sublist.subset hr) hrnum ((below_sweepFrom hl ha).mp hbelow)
  have hsub : (left num (sweepFrom (·.id) (·.header.previous) s.id l)).Sublist l :=
    List.filter_sublist.trans sweepFrom_sublist
  refine eq_filter_of_sublist (hl.of_map _) hsub fun a => ?_
  rw [left, List.mem_filter, decide_eq_true_iff]
  constructor
  · rintro ⟨ha, h⟩
    exact ⟨sweepFrom_sublist.subset ha, (hsame a ha).mp h⟩
  · rintro ⟨ha, h⟩
    have ha' := (mem_sweepFrom hl).mpr ⟨ha, h s hs hnum⟩
    exact ⟨ha', (hsame a ha').mpr h⟩

theorem foldl_removed (hl : l ≠ []) : l.foldl (fun db b => db.removed b.id) db =
    withHead { db with
      index := (l.map (·.id)).foldl (fun l id => sweepFrom (·.id) (·.header.previous) id l)
        db.index } := by
  induction l generalizing db with
  | nil => exact absurd rfl hl
  | cons b l ih =>
    by_cases hnil : l = []
    · rw [hnil]
      rfl
    · rw [List.foldl_cons, ih hnil]
      rfl

theorem cleared_eq (hdb : db.Distinct) (hs : s ∈ db.index) (hnum : s.blockNum = num) :
    db.cleared num = withHead { db with index := left num db.index } := by
  have hmem : s ∈ db.index.filter (·.blockNum = num) :=
    List.mem_filter.mpr ⟨hs, decide_eq_true hnum⟩
  rw [cleared, foldl_removed (List.ne_nil_of_mem hmem),
    foldl_sweepFrom_eq_filter _ (nodup_index hdb)]
  simp only [List.forall_mem_map, List.mem_filter, decide_eq_true_eq, and_imp, left]

theorem left_eq_self (h : db.index.filter (·.blockNum = num) = []) :
    left num db.index = db.index := by
  refine List.filter_eq_self.mpr fun a _ => decide_eq_true fun s hs hnum => ?_
  have : s ∈ db.index.filter (·.blockNum = num) := List.mem_filter.mpr ⟨hs, decide_eq_true hnum⟩
  rw [h] at this
  cases this

theorem cleared_removed (hdb : db.Distinct) (hs : s ∈ db.index) (hnum : s.blockNum = num) :
    (db.removed s.id).cleared num = db.cleared num := by
  have hleft : left num (db.removed s.id).index = left num db.index :=
    left_sweepFrom (nodup_index hdb) hs hnum
  rw [cleared_eq hdb hs hnum]
  by_cases hlevel : (db.removed s.id).index.filter (·.blockNum = num) = []
  · rw [cleared, hlevel, ← hleft, left_eq_self hlevel]
    rfl
  · obtain ⟨r, hr⟩ := List.exists_mem_of_ne_nil _ hlevel
    obtain ⟨hr, hrnum⟩ := List.mem_filter.mp hr
    rw [cleared_eq (nodup_removed hdb) hr (of_decide_eq_true hrnum), hleft]
    rfl

end Left

/-! ## The loop -/

theorem head_sweepFrom {y : BlockState} (hl : ((s :: y :: l).map (·.id)).Nodup)
    (hy : ¬ Below (·.id) (·.header.previous) (s :: y :: l) s.id y) :
    ∃ m, sweepFrom (·.id) (·.header.previous) s.id (s :: y :: l) = y :: m := by
  classical
  rw [sweepFrom_eq_filter hl, List.filter_cons_of_neg (by simpa using .self List.mem_cons_self rfl),
    List.filter_cons_of_pos (by simpa using hy)]
  exact ⟨_, rfl⟩

theorem length_removed_lt (hs : s ∈ db.index) (hdb : db.Distinct) :
    (db.removed s.id).index.length < db.index.length := by
  have hsub : (db.removed s.id).index.Sublist db.index := sweepFrom_sublist
  refine lt_of_le_of_ne hsub.length_le fun heq => ?_
  have hmem : s ∈ (db.removed s.id).index := by
    rw [hsub.eq_of_length heq]
    exact hs
  exact ((mem_sweepFrom (nodup_index hdb)).mp hmem).2 (.self hs rfl)

theorem getBlock_removed_of_below {y : BlockState} (hdb : db.Distinct) (hy : y ∈ db.index)
    (h : Below (·.id) (·.header.previous) db.index s.id y) :
    (db.removed s.id).getBlock y.id = none := by
  refine List.find?_eq_none.mpr fun x hx hid => ?_
  obtain ⟨hmem, hnot⟩ := (mem_sweepFrom (nodup_index hdb)).mp hx
  obtain rfl := eq_of_key_eq (nodup_index hdb) hmem hy (of_decide_eq_true hid)
  exact hnot h

theorem removeLevel_of_gone {id : BlockId} (h : db.getBlock id = none) :
    removeLevel num n (some id) db ≠ .ok db' := by
  cases n with
  | zero => simp [removeLevel]
  | succ => simp [removeLevel, theBlock, h, bind, Except.bind]

theorem cleared_of_above (hsorted : db.Sorted) (hnum : ∀ b ∈ db.index, num ≤ b.blockNum)
    (hs : db.index.head? = some s) (hlevel : s.blockNum ≠ num) : db.cleared num = db := by
  have hnone : db.index.filter (·.blockNum = num) = [] := by
    refine List.filter_eq_nil_iff.mpr fun b hb => ?_
    have hle := hsorted.first_le hs _ (mem_headers hb)
    have hlt := hnum s (List.mem_of_mem_head? hs)
    simp only [decide_eq_true_eq]
    omega
  rw [cleared, hnone, List.foldl_nil]

/-- **The loop over a level** returns exactly if its iterator does not get lost, and leaves what
does not build on a block of the level. -/
theorem removeLevel_eq_ok (hdb : db.Distinct) (hsorted : db.Sorted)
    (hnum : ∀ b ∈ db.index, num ≤ b.blockNum) (hn : db.index.length < n) :
    removeLevel num n (db.index.head?.map (·.id)) db = .ok db' ↔
      Passes num db.index ∧ db' = db.cleared num := by
  induction n generalizing db with
  | zero => omega
  | succ n ih =>
    cases hindex : db.index with
    | nil => simp [removeLevel, cleared, hindex, Passes.nil, eq_comm]
    | cons s l =>
      have hs : s ∈ db.index := by simp [hindex]
      have hfind : db.theBlock s.id "iterator to an erased block" = .ok s :=
        theBlock_eq_ok.mpr (getBlock_of_mem hdb hs)
      have hafter : db.after s.id = l.head?.map (·.id) := by simp [after, hindex]
      rw [List.head?_cons, Option.map_some, removeLevel, hfind, ok_bind, hafter]
      by_cases hlevel : s.blockNum = num
      · rw [if_pos hlevel]
        cases l with
        | nil =>
          have hnot : ¬ Passes num [s] := by simp [passes_cons_iff hlevel]
          have hempty : (db.removed s.id).index = [] := by
            have := length_removed_lt hs hdb
            rw [hindex, List.length_singleton, Nat.lt_one_iff] at this
            exact List.length_eq_zero_iff.mp this
          simp [bind_eq_ok, remove_eq_ok, hempty, hnot]
        | cons y l =>
          have hids : ((s :: y :: l).map (·.id)).Nodup := hindex ▸ nodup_index hdb
          have hremoved : (db.removed s.id).index =
              sweepFrom (·.id) (·.header.previous) s.id (s :: y :: l) := by
            rw [← hindex]
            rfl
          by_cases hy : Below (·.id) (·.header.previous) (s :: y :: l) s.id y
          · have hnot : ¬ Passes num (s :: y :: l) := by simp [passes_cons_iff hlevel, hy]
            have hlost : removeLevel num n (some y.id) (db.removed s.id) ≠ .ok db' :=
              removeLevel_of_gone (getBlock_removed_of_below hdb (by simp [hindex]) (hindex ▸ hy))
            simp [bind_eq_ok, remove_eq_ok, hnot, hlost]
          · obtain ⟨m, hm⟩ := head_sweepFrom hids hy
            have hmem : ∀ b ∈ (db.removed s.id).index, num ≤ b.blockNum := fun b hb =>
              hnum b (sweepFrom_sublist.subset hb)
            have hshort := length_removed_lt hs hdb
            have hpasses : Passes num (s :: y :: l) ↔ Passes num (db.removed s.id).index := by
              simp [passes_cons_iff hlevel, hy, hremoved]
            have hih := ih (nodup_removed hdb) hsorted.removed hmem (by omega)
            rw [hremoved, hm, List.head?_cons, Option.map_some, ← hm, ← hremoved, ← hpasses,
              cleared_removed hdb hs hlevel] at hih
            rw [List.head?_cons, Option.map_some, bind_eq_ok, ← hih]
            simp [remove_eq_ok, hremoved, hm]
      · rw [if_neg hlevel, cleared_of_above hsorted hnum (by simp [hindex]) hlevel,
          and_iff_right (Passes.above hlevel)]
        exact pure_eq_ok

theorem clearLevel_eq_ok (hdb : db.Distinct) (hsorted : db.Sorted)
    (hnum : ∀ b ∈ db.index, num ≤ b.blockNum) :
    db.clearLevel num = .ok db' ↔ Passes num db.index ∧ db' = db.cleared num := by
  have hfirst : db.index.find? (num ≤ ·.blockNum) = db.index.head? := by
    cases hindex : db.index with
    | nil => rfl
    | cons b => exact List.find?_cons_of_pos (decide_eq_true (hnum b (by simp [hindex])))
  rw [clearLevel, hfirst]
  exact removeLevel_eq_ok hdb hsorted hnum (Nat.lt_succ_self _)

/-! ## Indexes in which the iterator does not get lost -/

theorem find_sweepFrom {m : BlockState} {p : BlockState → Bool} (hl : (l.map (·.id)).Nodup)
    (hm : l.find? p = some m) (hstays : ¬ Below (·.id) (·.header.previous) l s.id m) :
    (sweepFrom (·.id) (·.header.previous) s.id l).find? p = some m := by
  classical
  rw [sweepFrom_eq_filter hl, List.find?_filter]
  obtain ⟨hp, before, rest, heq, hbefore⟩ := List.find?_eq_some_iff_append.mp hm
  refine List.find?_eq_some_iff_append.mpr ⟨?_, before, rest, heq, fun a ha => ?_⟩
  · simp [hp, hstays]
  · have hnot := hbefore a ha
    simp_all

/-- The blocks of the level do not build on each other, and the first block above them does not
build on one of them. -/
theorem passes_of_first {m : BlockState} (hl : (l.map (·.id)).Nodup)
    (hnum : ∀ b ∈ l, num ≤ b.blockNum)
    (hlevel : ∀ s ∈ l, s.blockNum = num → ∀ y ∈ l, y.blockNum = num → y.id ≠ s.id →
      ¬ Below (·.id) (·.header.previous) l s.id y)
    (hm : l.find? (num < ·.blockNum) = some m)
    (hstays : ∀ s ∈ l, s.blockNum = num → ¬ Below (·.id) (·.header.previous) l s.id m) :
    Passes num l := by
  induction hk : l.length using Nat.strong_induction_on generalizing l with
  | _ k ih =>
    subst hk
    cases l with
    | nil => exact .nil
    | cons s l =>
      by_cases hs : s.blockNum = num
      · have hm' := hm
        rw [List.find?_cons_of_neg (by simp [hs])] at hm'
        cases l with
        | nil => cases hm'
        | cons y l =>
          have hy : ¬ Below (·.id) (·.header.previous) (s :: y :: l) s.id y := by
            by_cases hynum : y.blockNum = num
            · refine hlevel s (by simp) hs y (by simp) hynum fun hid => ?_
              rw [List.map_cons, List.nodup_cons, ← hid] at hl
              exact hl.1 (by simp)
            · have hlt : num < y.blockNum := lt_of_le_of_ne (hnum y (by simp)) (Ne.symm hynum)
              rw [List.find?_cons_of_pos (by simpa using hlt)] at hm'
              obtain rfl := Option.some.inj hm'
              exact hstays s (by simp) hs
          have hsub : (sweepFrom (·.id) (·.header.previous) s.id (s :: y :: l)).Sublist
            (s :: y :: l) := sweepFrom_sublist
          refine .next hs hy (ih _ ?_ (hl.sublist (hsub.map _))
            (fun b hb => hnum b (hsub.subset hb)) ?_
            (find_sweepFrom hl hm (hstays s (by simp) hs)) ?_ rfl)
          · have hdb : ({ index := s :: y :: l } : ForkDatabase).Distinct := distinct_iff.mpr hl
            exact length_removed_lt (s := s) (by simp) hdb
          · intro r hr hrnum x hx hxnum hne hbelow
            exact hlevel r (hsub.subset hr) hrnum x (hsub.subset hx) hxnum hne
              ((below_sweepFrom hl hx).mp hbelow)
          · intro r hr hrnum hbelow
            exact hstays r (hsub.subset hr) hrnum (hbelow.mono hsub.subset)
      · exact .above hs

/-! ## The first block -/

theorem not_before_first {a b : BlockState} (hl : l.Pairwise fun a b => ¬ b.Before a)
    (ha : l.head? = some a) (hb : b ∈ l) : b = a ∨ ¬ b.Before a := by
  cases l with
  | nil => cases ha
  | cons =>
    obtain rfl := Option.some.inj ha
    exact (List.mem_cons.mp hb).imp_right ((List.pairwise_cons.mp hl).1 b)

/-- A block of the current chain is first, if no other one has its number and none a smaller one. -/
theorem head_of_marked {b : BlockState} (hl : l.Pairwise fun a b => ¬ b.Before a) (hb : b ∈ l)
    (hle : ∀ x ∈ l, b.blockNum ≤ x.blockNum) (hmark : b.inCurrentChain = true)
    (hone : ∀ x ∈ l, x.blockNum = b.blockNum → x.inCurrentChain = true → x = b) :
    l.head? = some b := by
  obtain ⟨a, ha⟩ : ∃ a, l.head? = some a :=
    Option.isSome_iff_exists.mp (List.isSome_head?.mpr (List.ne_nil_of_mem hb))
  have hmem := List.mem_of_mem_head? ha
  have hle := hle a hmem
  rcases not_before_first hl ha hb with rfl | hnot
  · exact ha
  · simp only [BlockState.Before, not_or, not_and] at hnot
    have heq : b.blockNum = a.blockNum := by omega
    rw [ha, hone a hmem heq.symm (by simpa using hnot.2 heq hmark)]

end ForkDatabase

end BaccChain
