import BaccChain.Properties.IrreversibleChain

/-!
# The choice of the head

The head should be a block of the index that no other is greater than, in the lexicographic order of
the irreversible block numbers and the block number.

## Main definitions

* `HeadCurrent`: the head is a greatest block
* `KeepsHead`: an operation that leaves it so

## Main results

* `head_current_iff`: it is current exactly after such operations
* `head_not_current`: operations that are not
-/

namespace BaccChain

open Commons BlockState

variable {l : List BlockState} {β : Type}

namespace ForkDatabase

/-! ## The spread of a BFT number -/

/-- The block itself, and the blocks that build on it through blocks with a smaller BFT number. -/
inductive Reached (db : ForkDatabase) (num : Nat) (id : BlockId) : BlockState → Prop
  | self {b : BlockState} (hb : b ∈ db.index) (h : b.id = id) : Reached db num id b
  | next {a b : BlockState} (ha : Reached db num id a) (hb : b ∈ db.index)
    (h : b.header.previous = a.id) (hlt : b.bftIrreversibleBlocknum < num) : Reached db num id b

/-- The blocks with the ids in `R` have got the BFT number `num`, and the others are as they
were. -/
structure Raised (db : ForkDatabase) (num : Nat) (R : List BlockId)
    (db' : ForkDatabase) : Prop where
  head : db'.head = db.head
  index : ∃ g : BlockState → BlockState, db'.index = db.index.map g ∧ ∀ b,
    (b.id ∈ R → ∃ k, g b = b.raised num k) ∧
      (b.id ∉ R → g b = b)

variable {db db' : ForkDatabase} {num : Nat} {id i : BlockId} {R queue updated : List BlockId}
  {b : BlockState}

theorem Reached.mem (h : Reached db num id b) : b ∈ db.index := by
  cases h with
  | self hb | next _ hb => exact hb

theorem Raised.refl (db : ForkDatabase) (num : Nat) : Raised db num [] db :=
  ⟨rfl, fun b => b, (List.map_id' _).symm,
    fun _ => ⟨fun h => absurd h List.not_mem_nil, fun _ => rfl⟩⟩

theorem Raised.raise (h : Raised db num R db') (id : BlockId) :
    Raised db num (id :: R) (db'.raise num id) := by
  obtain ⟨g, hindex, hg⟩ := h.index
  have hid (b : BlockState) : (g b).id = b.id := by
    by_cases hb : b.id ∈ R
    · obtain ⟨k, hk⟩ := (hg b).1 hb
      rw [hk]
      rfl
    · rw [(hg b).2 hb]
  refine ⟨h.head, fun b => if b.id = id then (g b).raised num db'.arrivals else g b, ?_,
    fun b => ?_⟩
  · simp only [ForkDatabase.raise, hindex, List.map_map]
    exact List.map_congr_left fun b _ => by rw [Function.comp_apply, hid]
  · rw [List.mem_cons, not_or]
    dsimp only
    refine ⟨fun hb => ?_, fun hb => ?_⟩
    · split_ifs with heq
      · refine ⟨db'.arrivals, ?_⟩
        by_cases hR : b.id ∈ R
        · obtain ⟨k, hk⟩ := (hg b).1 hR
          rw [hk]
          rfl
        · rw [(hg b).2 hR]
      · exact (hg b).1 (hb.resolve_left heq)
    · rw [if_neg hb.1]
      exact (hg b).2 hb.2

theorem Raised.exists_of_mem (h : Raised db num R db') (hb : b ∈ db'.index) :
    ∃ a ∈ db.index, (a.id ∈ R ∧ ∃ k, b = a.raised num k) ∨
      (a.id ∉ R ∧ b = a) := by
  obtain ⟨g, hindex, hg⟩ := h.index
  rw [hindex] at hb
  obtain ⟨a, ha, rfl⟩ := List.mem_map.mp hb
  refine ⟨a, ha, ?_⟩
  by_cases hR : a.id ∈ R
  · exact Or.inl ⟨hR, (hg a).1 hR⟩
  · exact Or.inr ⟨hR, (hg a).2 hR⟩

theorem Raised.mem (h : Raised db num R db') (hb : b ∈ db.index) :
    (b.id ∈ R → ∃ k, b.raised num k ∈ db'.index) ∧
      (b.id ∉ R → b ∈ db'.index) := by
  obtain ⟨g, hindex, hg⟩ := h.index
  have hmem : g b ∈ db'.index := hindex ▸ List.mem_map_of_mem hb
  refine ⟨fun hR => ?_, fun hR => ?_⟩
  · obtain ⟨k, hk⟩ := (hg b).1 hR
    exact ⟨k, hk ▸ hmem⟩
  · rw [(hg b).2 hR] at hmem
    exact hmem

theorem Raised.map_eq (h : Raised db num R db') (f : BlockState → β)
    (hf : ∀ b k, f (b.raised num k) = f b) : db'.index.map f = db.index.map f := by
  obtain ⟨g, hindex, hg⟩ := h.index
  rw [hindex, List.map_map]
  refine List.map_congr_left fun b _ => ?_
  rw [Function.comp_apply]
  by_cases hR : b.id ∈ R
  · obtain ⟨k, hk⟩ := (hg b).1 hR
    rw [hk, hf]
  · rw [(hg b).2 hR]

/-- A point in the spread of a BFT number: the blocks in `R` have it, and those of them that are not
in `queue` have passed it on. -/
structure Spreading (db : ForkDatabase) (num : Nat) (id : BlockId) (R queue : List BlockId)
    (db' : ForkDatabase) : Prop extends Raised db num R db' where
  nodup : R.Nodup
  sound : ∀ i ∈ R, ∃ b, Reached db num id b ∧ b.id = i
  start : id ∈ R
  waiting : queue ⊆ R
  passed : ∀ i ∈ R, i ∉ queue → ∀ b ∈ db.index, b.header.previous = i →
    b.bftIrreversibleBlocknum < num → b.id ∈ R

namespace Spreading

theorem block (h : Spreading db num id R queue db') (hi : i ∈ R) (hb : b ∈ db.index)
    (hprev : b.header.previous = i) (hlt : b.bftIrreversibleBlocknum < num) (hnew : b.id ∉ R) :
    Spreading db num id (b.id :: R) (queue ++ [b.id]) (db'.raise num b.id) where
  toRaised := h.toRaised.raise b.id
  nodup := List.nodup_cons.mpr ⟨hnew, h.nodup⟩
  sound := by
    refine List.forall_mem_cons.mpr ⟨?_, h.sound⟩
    obtain ⟨a, ha, rfl⟩ := h.sound i hi
    exact ⟨b, .next ha hb hprev hlt, rfl⟩
  start := List.mem_cons_of_mem _ h.start
  waiting := by
    intro j hj
    rcases List.mem_append.mp hj with hj | hj
    · exact List.mem_cons_of_mem _ (h.waiting hj)
    · exact List.mem_cons.mpr (Or.inl (List.mem_singleton.mp hj))
  passed := by
    intro j hj hjq b' hb' hprev' hlt'
    rw [List.mem_append, not_or, List.mem_singleton] at hjq
    rcases List.mem_cons.mp hj with rfl | hj
    · exact absurd rfl hjq.2
    · exact List.mem_cons_of_mem _ (h.passed j hj hjq.1 b' hb' hprev' hlt')

theorem dequeue (h : Spreading db num id R (i :: queue) db')
    (hi : ∀ b ∈ db.index, b.header.previous = i → b.bftIrreversibleBlocknum < num → b.id ∈ R) :
    Spreading db num id R queue db' :=
  { h with
    waiting := List.Subset.trans (List.subset_cons_self i queue) h.waiting
    passed := by
      intro j hj hjq
      by_cases heq : j = i
      · exact heq ▸ hi
      · exact h.passed j hj (List.not_mem_cons_of_ne_of_not_mem heq hjq) }

theorem foldl_updateBlock {l : List BlockState} (h : Spreading db num id R (queue ++ updated) db')
    (hi : i ∈ R) (hnodup : (l.map (·.id)).Nodup)
    (hl : ∀ c ∈ l, c.bftIrreversibleBlocknum < num →
      c ∈ db.index ∧ c.header.previous = i ∧ c.id ∉ R) :
    ∃ R', R ⊆ R' ∧
      Spreading db num id R' (queue ++ (l.foldl (updateBlock num) (updated, db')).1)
        (l.foldl (updateBlock num) (updated, db')).2 ∧
      R'.length + updated.length =
        R.length + (l.foldl (updateBlock num) (updated, db')).1.length ∧
      ∀ c ∈ l, c.bftIrreversibleBlocknum < num → c.id ∈ R' := by
  induction l generalizing R updated db' with
  | nil => exact ⟨R, List.Subset.refl R, h, rfl, List.forall_mem_nil _⟩
  | cons c l ih =>
    obtain ⟨hc, hnodup⟩ := List.nodup_cons.mp hnodup
    obtain ⟨hlc, hl⟩ := List.forall_mem_cons.mp hl
    rw [List.foldl_cons, updateBlock]
    dsimp only
    split_ifs with hlt
    · obtain ⟨hmem, hprev, hnew⟩ := hlc hlt
      have hblock := h.block hi hmem hprev hlt hnew
      rw [List.append_assoc] at hblock
      obtain ⟨R', hsub, hspread, hlen, hall⟩ := ih hblock (List.mem_cons_of_mem _ hi) hnodup
        fun c' hc' hlt' => by
          obtain ⟨hmem', hprev', hnew'⟩ := hl c' hc' hlt'
          have hne : c'.id ≠ c.id := fun heq => hc (List.mem_map.mpr ⟨c', hc', heq⟩)
          exact ⟨hmem', hprev', List.not_mem_cons_of_ne_of_not_mem hne hnew'⟩
      rw [List.length_cons, List.length_append, List.length_singleton] at hlen
      refine ⟨R', List.Subset.trans (List.subset_cons_self _ R) hsub, hspread, by omega,
        List.forall_mem_cons.mpr ⟨fun _ => hsub List.mem_cons_self, hall⟩⟩
    · obtain ⟨R', hsub, hspread, hlen, hall⟩ := ih h hi hnodup hl
      exact ⟨R', hsub, hspread, hlen,
        List.forall_mem_cons.mpr ⟨fun hlt' => absurd hlt' hlt, hall⟩⟩

theorem updateNext (hdb : (db.index.map (·.id)).Nodup)
    (h : Spreading db num id R (i :: queue ++ updated) db') :
    ∃ R', Spreading db num id R' (queue ++ (updateNext num (updated, db') i).1)
        (updateNext num (updated, db') i).2 ∧
      R'.length + updated.length =
        R.length + (ForkDatabase.updateNext num (updated, db') i).1.length := by
  have hmem (c : BlockState) : c ∈ db'.byPrev i ↔ c ∈ db'.index ∧ c.header.previous = i := by
    rw [byPrev, List.mem_insertionSort, List.mem_filter, decide_eq_true_iff]
  have hnodup : ((db'.byPrev i).map (·.id)).Nodup := by
    have hperm : ((db'.byPrev i).map (·.id)).Perm
        ((db'.index.filter (·.header.previous = i)).map (·.id)) :=
      (List.perm_insertionSort _ _).map _
    rw [hperm.nodup_iff]
    rw [← h.map_eq (·.id) fun _ _ => rfl] at hdb
    exact hdb.sublist (List.filter_sublist.map _)
  obtain ⟨R', hsub, hspread, hlen, hall⟩ := h.foldl_updateBlock (h.waiting List.mem_cons_self)
    hnodup fun c hc hlt => by
      obtain ⟨hc, hprev⟩ := (hmem c).mp hc
      obtain ⟨a, ha, ⟨-, k, rfl⟩ | ⟨hnew, rfl⟩⟩ := h.exists_of_mem hc
      · exact absurd hlt (Nat.lt_irrefl num)
      · exact ⟨ha, hprev, hnew⟩
  refine ⟨R', hspread.dequeue fun b hb hprev hlt => ?_, hlen⟩
  by_cases hR : b.id ∈ R
  · exact hsub hR
  · exact hall b ((hmem b).mpr ⟨(h.toRaised.mem hb).2 hR, hprev⟩) hlt

theorem layer (hdb : (db.index.map (·.id)).Nodup)
    (h : Spreading db num id R (queue ++ updated) db') :
    ∃ R', Spreading db num id R' (queue.foldl (ForkDatabase.updateNext num) (updated, db')).1
        (queue.foldl (ForkDatabase.updateNext num) (updated, db')).2 ∧
      R'.length + updated.length =
        R.length + (queue.foldl (ForkDatabase.updateNext num) (updated, db')).1.length := by
  induction queue generalizing R updated db' with
  | nil => exact ⟨R, h, rfl⟩
  | cons i queue ih =>
    obtain ⟨R₁, h₁, hlen₁⟩ := h.updateNext hdb
    obtain ⟨R₂, h₂, hlen₂⟩ := ih h₁
    rw [Prod.mk.eta] at hlen₂
    exact ⟨R₂, h₂, by rw [List.foldl_cons]; omega⟩

theorem mem_iff (hdb : (db.index.map (·.id)).Nodup) (h : Spreading db num id R queue db')
    (hend : queue = [] ∨ db.index.length ≤ R.length) (hb : b ∈ db.index) :
    b.id ∈ R ↔ Reached db num id b := by
  constructor
  · intro hR
    obtain ⟨a, ha, hid⟩ := h.sound b.id hR
    exact eq_of_key_eq hdb (ha.mem) hb hid ▸ ha
  · intro hreach
    rcases hend with rfl | hlen
    · clear hb
      induction hreach with
      | self hb hid => exact hid ▸ h.start
      | next _ hb hprev hlt ih => exact h.passed _ ih List.not_mem_nil _ hb hprev hlt
    · have hsub : R ⊆ db.index.map (·.id) := by
        intro i hi
        obtain ⟨a, ha, rfl⟩ := h.sound i hi
        exact List.mem_map_of_mem (ha.mem)
      have hperm := (List.subperm_of_subset h.nodup hsub).perm_of_length_le
        (by rwa [List.length_map])
      exact hperm.mem_iff.mpr (List.mem_map_of_mem hb)

theorem updateLayers (hdb : (db.index.map (·.id)).Nodup) (n : Nat)
    (h : Spreading db num id R queue db') (hn : queue = [] ∨ db.index.length ≤ n + R.length) :
    ∃ R', Raised db num R' (updateLayers num n queue db') ∧
      ∀ b ∈ db.index, b.id ∈ R' ↔ Reached db num id b := by
  induction n generalizing R queue db' with
  | zero =>
    rw [Nat.zero_add] at hn
    exact ⟨R, h.toRaised, fun b => h.mem_iff hdb hn⟩
  | succ n ih =>
    cases queue with
    | nil => exact ⟨R, h.toRaised, fun b => h.mem_iff hdb (Or.inl rfl)⟩
    | cons i queue =>
      rw [← List.append_nil (i :: queue)] at h
      obtain ⟨R₁, h₁, hlen₁⟩ := h.layer hdb
      refine ih h₁ ?_
      rcases List.eq_nil_or_concat
        ((i :: queue).foldl (ForkDatabase.updateNext num) ([], db')).1 with hnil | ⟨l, j, hcons⟩
      · exact Or.inl hnil
      · right
        rw [hcons, List.length_nil, List.length_concat] at hlen₁
        have := hn.resolve_left (List.cons_ne_nil _ _)
        omega

end Spreading

theorem setBftIrreversible_raised (hdb : (db.index.map (·.id)).Nodup)
    (hb : db.getBlock id = some b) :
    ∃ R, Raised db b.blockNum R (db.setBftIrreversible id) ∧
      ∀ a ∈ db.index, a.id ∈ R ↔ Reached db b.blockNum id a := by
  obtain ⟨hmem, hid⟩ := getBlock_eq_some hb
  have hstart : Spreading db b.blockNum id [id] [id] (db.raise b.blockNum id) :=
    { toRaised := (Raised.refl db b.blockNum).raise id
      nodup := List.nodup_singleton id
      sound := by simpa using ⟨b, .self hmem hid, hid⟩
      start := List.mem_singleton_self id
      waiting := List.Subset.refl _
      passed := fun i hi hnot => absurd hi hnot }
  have hlayers := hstart.updateLayers hdb db.index.length (Or.inr (Nat.le_add_right _ _))
  rw [setBftIrreversible, hb]
  exact hlayers

end ForkDatabase

/-! ## The order of the head -/

/-- The key of the order. -/
def BlockHeaderState.libKey (s : BlockHeaderState) : Nat ×ₗ Nat ×ₗ Nat :=
  toLex (s.dposIrreversibleBlocknum, toLex (s.bftIrreversibleBlocknum, s.blockNum))

theorem BlockHeaderState.libKey_le {s t : BlockHeaderState} : s.libKey ≤ t.libKey ↔
    s.dposIrreversibleBlocknum < t.dposIrreversibleBlocknum ∨
      s.dposIrreversibleBlocknum = t.dposIrreversibleBlocknum ∧
        (s.bftIrreversibleBlocknum < t.bftIrreversibleBlocknum ∨
          s.bftIrreversibleBlocknum = t.bftIrreversibleBlocknum ∧ s.blockNum ≤ t.blockNum) := by
  simp only [libKey, Prod.Lex.toLex_le_toLex]

variable {a : BlockState}

theorem BlockState.Better.le {b : BlockState} (h : a.Better b) : b.libKey ≤ a.libKey := by
  rw [BlockHeaderState.libKey_le]
  unfold Better at h
  omega

theorem BlockState.le_of_not_better {b : BlockState} (h : ¬ a.Better b) : a.libKey ≤ b.libKey := by
  rw [BlockHeaderState.libKey_le]
  unfold Better at h
  omega

variable {h : BlockState}

theorem BlockState.best_eq_some (hbest : best l = some h) :
    h ∈ l ∧ ∀ b ∈ l, b.libKey ≤ h.libKey := by
  induction l generalizing h with
  | nil => cases hbest
  | cons b l ih =>
    rw [best] at hbest
    cases ha : best l with
    | none =>
      rw [ha] at hbest
      obtain rfl := Option.some.inj hbest
      cases l with
      | nil => simp
      | cons =>
        rw [best] at ha
        split at ha
        · split_ifs at ha
        · cases ha
    | some =>
      rw [ha] at hbest
      obtain ⟨hmem, hle⟩ := ih ha
      dsimp only at hbest
      split_ifs at hbest with hbetter
      · obtain rfl := Option.some.inj hbest
        exact ⟨List.mem_cons_of_mem _ hmem, List.forall_mem_cons.mpr ⟨hbetter.le, hle⟩⟩
      · obtain rfl := Option.some.inj hbest
        have hab := le_of_not_better hbetter
        exact ⟨List.mem_cons_self,
          List.forall_mem_cons.mpr ⟨le_rfl, fun c hc => (hle c hc).trans hab⟩⟩

theorem BlockState.exists_best (hl : l ≠ []) : ∃ h, best l = some h := by
  obtain ⟨b, l, rfl⟩ := List.exists_cons_of_ne_nil hl
  rw [best]
  cases best l with
  | none => exact ⟨b, rfl⟩
  | some a =>
    dsimp only
    split_ifs
    · exact ⟨a, rfl⟩
    · exact ⟨b, rfl⟩

namespace ForkDatabase

variable {db db' : ForkDatabase} {id : BlockId} {b o n : BlockState}

/-- What the container keeps: ids are unique, and blocks are in the order of their numbers. -/
structure WellFormed (db : ForkDatabase) : Prop where
  nodup : (db.headers.map (·.id)).Nodup
  sorted : db.Sorted

theorem WellFormed.eq_of_id_eq (hdb : db.WellFormed) (ha : a ∈ db.index) (hb : b ∈ db.index)
    (h : a.id = b.id) : a = b := by
  have ha' := getBlock_of_mem hdb.nodup ha
  rw [h, getBlock_of_mem hdb.nodup hb] at ha'
  exact (Option.some.inj ha').symm

/-- No block has a greater key than the head. -/
def HeadCurrent (db : ForkDatabase) : Prop :=
  ∃ h, db.headBlock = some h ∧ ∀ b ∈ db.index, b.libKey ≤ h.libKey

instance (db : ForkDatabase) : Decidable db.HeadCurrent :=
  decidable_of_iff
    (db.headBlock.any (fun h => decide (∀ b ∈ db.index, b.libKey ≤ h.libKey)) = true) <| by
    rw [Option.any_eq_true]
    simp only [decide_eq_true_iff]
    rfl

theorem headCurrent_iff (hdb : db.Distinct) :
    db.HeadCurrent ↔ ∃ h ∈ db.headers, db.head = some h.id ∧
      ∀ b ∈ db.headers, b.libKey ≤ h.libKey := by
  constructor
  · rintro ⟨h, hhead, hle⟩
    obtain ⟨id, hid, hget⟩ := Option.bind_eq_some_iff.mp hhead
    obtain ⟨hmem, rfl⟩ := getBlock_eq_some hget
    exact ⟨h.toBlockHeaderState, mem_headers hmem, hid, List.forall_mem_map.mpr hle⟩
  · rintro ⟨h, hmem, hhead, hle⟩
    obtain ⟨a, ha, rfl⟩ := List.mem_map.mp hmem
    refine ⟨a, ?_, List.forall_mem_map.mp hle⟩
    rw [headBlock, hhead]
    exact getBlock_of_mem hdb ha

theorem headCurrent_withHead (hdb : db.Distinct) :
    db.withHead.HeadCurrent ↔ ∃ b, b ∈ db.headers := by
  have hchoose : db.withHead.Distinct := hdb
  rw [headCurrent_iff hchoose]
  constructor
  · rintro ⟨h, hmem, -⟩
    exact ⟨h, hmem⟩
  · rintro ⟨b, hb⟩
    obtain ⟨h, hbest⟩ := exists_best (List.map_eq_nil_iff.not.mp (List.ne_nil_of_mem hb))
    obtain ⟨hmem, hle⟩ := best_eq_some hbest
    refine ⟨h.toBlockHeaderState, mem_headers hmem, ?_, List.forall_mem_map.mpr hle⟩
    rw [withHead, hbest]
    rfl

theorem headCurrent_foldl_removed (hdb : db.Distinct) (hl : l ≠ []) :
    (l.foldl (fun db b => db.removed b.id) db).HeadCurrent ↔
      ∃ b ∈ db.headers, ∀ s ∈ l, ¬ Below (·.id) (·.header.previous) db.headers s.id b := by
  have hheaders := Controller.headers_foldl_removed l db
  have hchoose : (l.foldl (fun db b => db.removed b.id) db).HeadCurrent ↔
      ∃ b, b ∈ (l.foldl (fun db b => db.removed b.id) db).headers := by
    obtain ⟨l, s, rfl⟩ := (List.eq_nil_or_concat l).resolve_left hl
    have hnodup : ((l.concat s).foldl (fun db b => db.removed b.id) db).Distinct := by
      rw [Distinct, hheaders]
      exact hdb.sublist ((foldl_sweepFrom_sublist _ _).map _)
    rw [List.concat_eq_append, List.foldl_append] at hnodup ⊢
    exact headCurrent_withHead hnodup
  rw [hchoose, hheaders]
  simp only [mem_foldl_sweepFrom _ hdb, List.forall_mem_map]

theorem WellFormed.remove (hdb : db.WellFormed) (id : BlockId) : (db.removed id).WellFormed :=
  ⟨nodup_removed hdb.nodup, hdb.sorted.removed⟩

theorem headCurrent_removed (hdb : db.WellFormed) : (db.removed id).HeadCurrent ↔
    ∃ b ∈ db.headers, ¬ Below (·.id) (·.header.previous) db.headers id b := by
  have hchoose : (db.removed id).HeadCurrent ↔ ∃ b, b ∈ (db.removed id).headers :=
    headCurrent_withHead (hdb.remove id).nodup
  rw [hchoose, headers_removed]
  simp only [mem_sweepFrom hdb.nodup]

/-! ## Pruning -/

/-- The same blocks, up to their flags, and the same head. -/
structure SameChoice (db db' : ForkDatabase) : Prop extends SameHeaders db db' where
  head : db'.head = db.head

theorem SameChoice.refl (db : ForkDatabase) : SameChoice db db := ⟨.refl db, rfl⟩

theorem SameChoice.trans {db'' : ForkDatabase} (h : SameChoice db db') (h' : SameChoice db' db'') :
    SameChoice db db'' :=
  ⟨h.toSameHeaders.trans h'.toSameHeaders, h'.head.trans h.head⟩

theorem markInCurrentChain_sameChoice {flag : Bool} (h : db.markInCurrentChain id flag = .ok db') :
    SameChoice db db' := by
  refine ⟨markInCurrentChain_sameHeaders h, ?_⟩
  unfold markInCurrentChain at h
  split at h
  · cases h
  · split_ifs at h <;> cases h <;> rfl

theorem validate_sameChoice (id : BlockId) : SameChoice db (db.validate id) :=
  ⟨validate_sameHeaders id, rfl⟩

theorem SameChoice.wellFormed (h : SameChoice db db') (hdb : db.WellFormed) : db'.WellFormed :=
  ⟨h.distinct hdb.nodup, h.sorted hdb.sorted⟩

theorem SameChoice.headCurrent (h : SameChoice db db') (hdb : db.WellFormed)
    (hcur : db.HeadCurrent) : db'.HeadCurrent := by
  rw [headCurrent_iff hdb.nodup] at hcur
  rw [headCurrent_iff (h.wellFormed hdb).nodup, h.head]
  obtain ⟨a, ha, hhead, hle⟩ := hcur
  exact ⟨a, h.perm.mem_iff.mpr ha, hhead, fun b hb => hle b (h.perm.mem_iff.mp hb)⟩

/-- Some block is neither the oldest nor on another block of its level. -/
def LeavesHead (l : List BlockHeaderState) (o : BlockHeaderState) : Prop :=
  ∃ b ∈ l, b.id ≠ o.id ∧
    (∀ s ∈ l, s.id ≠ o.id → s.blockNum = o.blockNum →
      ¬ Below (·.id) (·.header.previous) (without (·.id) o.id l) s.id b) ∧
    ((∀ s ∈ l, s.blockNum = o.blockNum → s.id = o.id) → o.libKey < b.libKey)

theorem headCurrent_withoutLevel (hdb : db.WellFormed) (hcur : db.HeadCurrent)
    (ho : o.toBlockHeaderState ∈ db.headers) :
    (db.withoutLevel o).HeadCurrent ↔ LeavesHead db.headers o.toBlockHeaderState := by
  have hnodup : (db.erase o.id).Distinct := nodup_erase hdb.nodup
  have hmem (s : BlockHeaderState) : s ∈ (db.erase o.id).headers ↔
      s ∈ db.headers ∧ s.id ≠ o.id := by
    rw [headers_erase, mem_without]
  have hsibling (s : BlockState) :
      s ∈ (db.erase o.id).index.filter (·.blockNum = o.blockNum) ↔
        s ∈ db.index ∧ s.id ≠ o.id ∧ s.blockNum = o.blockNum := by
    rw [List.mem_filter, erase, mem_without, decide_eq_true_iff, and_assoc]
  by_cases hlevel : (db.erase o.id).index.filter (·.blockNum = o.blockNum) = []
  · have halone : ∀ s ∈ db.headers, s.blockNum = o.blockNum → s.id = o.id := by
      refine List.forall_mem_map.mpr fun s hs hnum => ?_
      by_contra hne
      have := (hsibling s).mpr ⟨hs, hne, hnum⟩
      rw [hlevel] at this
      cases this
    obtain ⟨h, hh, hhead, hle⟩ := (headCurrent_iff hdb.nodup).mp hcur
    rw [withoutLevel, cleared, hlevel, List.foldl_nil, headCurrent_iff hnodup]
    constructor
    · rintro ⟨a, ha, hhead', hle'⟩
      obtain ⟨ha, hne⟩ := (hmem a).mp ha
      refine ⟨a, ha, hne, fun s hs hsne hnum => absurd (halone s hs hnum) hsne, fun _ => ?_⟩
      obtain rfl : a = h := eq_of_key_eq hdb.nodup ha hh
        (Option.some.inj (hhead'.symm.trans hhead))
      refine lt_of_le_of_ne (hle _ ho) fun heq => hne (halone a ha ?_)
      exact (congrArg (fun k => (ofLex (ofLex k).2).2) heq).symm
    · rintro ⟨b, hb, -, -, hlt⟩
      have hlt := (hlt halone).trans_le (hle b hb)
      have hne : h.id ≠ o.id := by
        intro heq
        rw [eq_of_key_eq hdb.nodup hh ho heq] at hlt
        exact absurd hlt (lt_irrefl _)
      exact ⟨h, (hmem h).mpr ⟨hh, hne⟩, hhead, fun b hb => hle b ((hmem b).mp hb).1⟩
  · rw [withoutLevel, cleared, headCurrent_foldl_removed hnodup hlevel, headers_erase]
    obtain ⟨s, hs⟩ := List.exists_mem_of_ne_nil _ hlevel
    obtain ⟨hs, hsne, hsnum⟩ := (hsibling s).mp hs
    constructor
    · rintro ⟨b, hb, hbelow⟩
      obtain ⟨hb, hne⟩ := mem_without.mp hb
      refine ⟨b, hb, hne, List.forall_mem_map.mpr fun t ht htne htnum => ?_, fun halone => ?_⟩
      · exact hbelow t ((hsibling t).mpr ⟨ht, htne, htnum⟩)
      · exact absurd (halone _ (mem_headers hs) hsnum) hsne
    · rintro ⟨b, hb, hne, hbelow, -⟩
      refine ⟨b, mem_without.mpr ⟨hb, hne⟩, fun t ht => ?_⟩
      obtain ⟨ht, htne, htnum⟩ := (hsibling t).mp ht
      exact hbelow _ (mem_headers ht) htne htnum

theorem WellFormed.withoutLevel (hdb : db.WellFormed) (o : BlockState) :
    (db.withoutLevel o).WellFormed := by
  refine ⟨?_, Controller.Sorted.foldl_removed hdb.sorted.erase _⟩
  rw [ForkDatabase.withoutLevel, cleared, Controller.headers_foldl_removed, headers_erase]
  exact hdb.nodup.sublist (((foldl_sweepFrom_sublist _ _).trans without_sublist).map _)

theorem LeavesHead.perm {l l' : List BlockHeaderState} {o : BlockHeaderState} (hl : l'.Perm l)
    (h : LeavesHead l o) : LeavesHead l' o := by
  obtain ⟨b, hb, hne, hbelow, halone⟩ := h
  refine ⟨b, hl.mem_iff.mpr hb, hne, fun s hs hsne hnum h => ?_, fun h => halone fun s hs => ?_⟩
  · refine hbelow s (hl.mem_iff.mp hs) hsne hnum (h.mono fun a ha => ?_)
    rw [mem_without] at ha ⊢
    exact ⟨hl.mem_iff.mp ha.1, ha.2⟩
  · exact h s (hl.mem_iff.mpr hs)

/-! ## A block that enters -/

theorem insertBlock_headCurrent {skip : Bool} (hdb : db.WellFormed)
    (h : db.insertBlock n skip = .ok db') :
    db'.WellFormed ∧ db'.HeadCurrent ∧ db'.index = db.withBlock n := by
  simp only [insertBlock, ok_iff, chooseHead_eq_ok] at h
  obtain ⟨-, -, hnew, -, rfl⟩ := h
  have hperm : ((db.withBlock n).map (·.toBlockHeaderState)).Perm
      (n.toBlockHeaderState :: db.headers) := (List.perm_orderedInsert _ _ _).map _
  have hnodup : (((db.withBlock n).map (·.toBlockHeaderState)).map (·.id)).Nodup := by
    rw [(hperm.map _).nodup_iff, List.map_cons, List.nodup_cons]
    refine ⟨fun hmem => ?_, hdb.nodup⟩
    obtain ⟨s, hs, hid⟩ := List.mem_map.mp hmem
    exact getBlock_isNone hnew s hs hid
  refine ⟨⟨hnodup, pairwise_place hdb.sorted⟩, ?_, rfl⟩
  refine (headCurrent_withHead ?_).mpr ⟨_, hperm.mem_iff.mpr List.mem_cons_self⟩
  exact hnodup

theorem HeadCurrent.toPrune_eq_some (hcur : db.HeadCurrent) :
    db.toPrune = some o ↔ db.index.head? = some o ∧
      ∃ b ∈ db.index, o.blockNum < b.dposIrreversibleBlocknum := by
  obtain ⟨h, hhead, hle⟩ := hcur
  have hlib : (∃ b ∈ db.index, o.blockNum < b.dposIrreversibleBlocknum) ↔
      o.blockNum < h.dposIrreversibleBlocknum := by
    constructor
    · rintro ⟨b, hb, hlt⟩
      have := BlockHeaderState.libKey_le.mp (hle b hb)
      omega
    · exact fun hlt => ⟨h, headBlock_mem hhead, hlt⟩
  rw [hlib, toPrune, hhead, Option.bind_eq_bind, Option.bind_some, Option.bind_eq_some_iff]
  constructor
  · rintro ⟨a, ha, h⟩
    split_ifs at h with hlt
    obtain rfl := Option.some.inj h
    exact ⟨ha, hlt⟩
  · rintro ⟨ha, hlt⟩
    exact ⟨o, ha, if_pos hlt⟩

/-! ## A confirmation -/

def unconfirmed (b : BlockState) : BlockState := { b with confirmations := [] }

/-- The same blocks, up to confirmations, and the same head. -/
structure Confirmed (db db' : ForkDatabase) : Prop where
  head : db'.head = db.head
  index : db'.index.map unconfirmed = db.index.map unconfirmed

namespace Confirmed

variable {num : Nat} {x y : BlockState}

theorem symm (h : Confirmed db db') : Confirmed db' db := ⟨h.head.symm, h.index.symm⟩

theorem exists_mem (h : Confirmed db db') (hx : x ∈ db.index) :
    ∃ y ∈ db'.index, unconfirmed y = unconfirmed x :=
  List.mem_map.mp (h.index ▸ List.mem_map_of_mem hx)

theorem field_eq (f : BlockState → β) (hf : ∀ b, f (unconfirmed b) = f b)
    (h : unconfirmed y = unconfirmed x) : f y = f x := by
  rw [← hf y, h, hf]

theorem reached (h : Confirmed db db') (hx : Reached db num id x) (hy : y ∈ db'.index)
    (hxy : unconfirmed y = unconfirmed x) : Reached db' num id y := by
  induction hx generalizing y with
  | self _ hid => exact .self hy ((field_eq (·.id) (fun _ => rfl) hxy).trans hid)
  | next ha hb hprev hlt ih =>
    obtain ⟨a', ha', haa'⟩ := h.exists_mem ha.mem
    refine .next (ih ha' haa') hy ?_ ?_
    · rw [field_eq (·.header.previous) (fun _ => rfl) hxy, hprev,
        field_eq (·.id) (fun _ => rfl) haa']
    · rw [field_eq (·.bftIrreversibleBlocknum) (fun _ => rfl) hxy]
      exact hlt

theorem wellFormed (h : Confirmed db db') (hdb : db.WellFormed) : db'.WellFormed := by
  have hids : db'.headers.map (·.id) = db.headers.map (·.id) := by
    have hindex := congrArg (List.map fun b : BlockState => b.id) h.index
    rw [List.map_map, List.map_map] at hindex
    rw [map_id_headers, map_id_headers]
    exact hindex
  refine ⟨hids ▸ hdb.nodup, ?_⟩
  have hsorted : (db.index.map unconfirmed).Pairwise fun a b => ¬ b.Before a :=
    List.pairwise_map.mpr hdb.sorted
  rw [← h.index, List.pairwise_map] at hsorted
  exact hsorted

theorem headCurrent (h : Confirmed db db') (hdb : db.WellFormed) (hcur : db.HeadCurrent) :
    db'.HeadCurrent := by
  obtain ⟨a, ha, hle⟩ := hcur
  obtain ⟨id, hhead, hget⟩ := Option.bind_eq_some_iff.mp ha
  obtain ⟨hmem, rfl⟩ := getBlock_eq_some hget
  obtain ⟨a', ha', haa'⟩ := h.exists_mem hmem
  refine ⟨a', ?_, fun b hb => ?_⟩
  · rw [headBlock, h.head, hhead, ← field_eq (·.id) (fun _ => rfl) haa']
    exact getBlock_of_mem (h.wellFormed hdb).nodup ha'
  · obtain ⟨b', hb', hbb'⟩ := h.symm.exists_mem hb
    rw [← field_eq (·.libKey) (fun _ => rfl) hbb', field_eq (·.libKey) (fun _ => rfl) haa']
    exact hle b' hb'

end Confirmed

def confirmedBy (b : BlockHeaderState) (conf : HeaderConfirmation) : BlockHeaderState :=
  { b with confirmations := b.confirmations ++ [conf] }

theorem addConfirmation_eq_ok {c : Crypto} {conf : HeaderConfirmation} (hdb : db.WellFormed)
    (h : db.addConfirmation c conf = .ok db') :
    ∃ b db₁, db.getBlock conf.blockId = some b ∧ Confirmed db db₁ ∧
      db' = if BftQuorum (confirmedBy b.toBlockHeaderState conf) then
        db₁.setBftIrreversible conf.blockId else db₁ := by
  simp only [addConfirmation, bind_eq_ok, theBlock_eq_ok, pure_eq_ok] at h
  obtain ⟨b, hb, s, hs, rfl⟩ := h
  simp only [BlockHeaderState.addConfirmation, ok_iff] at hs
  obtain ⟨-, -, signer, -, -, rfl⟩ := hs
  obtain ⟨hmem, hid⟩ := getBlock_eq_some hb
  refine ⟨b, db.setHeaderState conf.blockId (confirmedBy b.toBlockHeaderState conf), hb,
    ⟨rfl, ?_⟩, rfl⟩
  rw [setHeaderState, List.map_map]
  refine List.map_congr_left fun x hx => ?_
  rw [Function.comp_apply]
  split_ifs with hx'
  · rw [hdb.eq_of_id_eq hx hmem (hx'.trans hid.symm)]
    rfl
  · rfl

/-- The block `y` is what the spread of a BFT number has made of the block `x`. -/
structure Moved (db : ForkDatabase) (num : Nat) (id : BlockId) (x y : BlockState) : Prop where
  id_eq : y.id = x.id
  raised : Reached db num id x → y.libKey = (x.raised num 0).libKey
  kept : ¬ Reached db num id x → y.libKey = x.libKey

theorem Raised.wellFormed {num : Nat} {R : List BlockId} (h : Raised db num R db')
    (hdb : db.WellFormed) : db'.WellFormed := by
  have hids : db'.headers.map (·.id) = db.headers.map (·.id) := by
    rw [map_id_headers, map_id_headers]
    exact h.map_eq (·.id) fun _ _ => rfl
  refine ⟨hids ▸ hdb.nodup, ?_⟩
  have hsorted : (db.index.map fun b => (b.blockNum, b.inCurrentChain)).Pairwise fun x y =>
      ¬ (y.1 < x.1 ∨ y.1 = x.1 ∧ y.2 = true ∧ x.2 = false) := List.pairwise_map.mpr hdb.sorted
  rw [← h.map_eq (fun b => (b.blockNum, b.inCurrentChain)) fun _ _ => rfl] at hsorted
  exact List.pairwise_map.mp hsorted

variable {db₁ : ForkDatabase}

theorem Confirmed.moved {db₁ : ForkDatabase} (h : Confirmed db db₁) (hdb : db.WellFormed)
    (hb : db.getBlock id = some b) :
    (db₁.setBftIrreversible id).WellFormed ∧ (db₁.setBftIrreversible id).head = db.head ∧
    (∀ x ∈ db.index, ∃ y ∈ (db₁.setBftIrreversible id).index, Moved db b.blockNum id x y) ∧
    ∀ y ∈ (db₁.setBftIrreversible id).index, ∃ x ∈ db.index, Moved db b.blockNum id x y := by
  have hdb₁ := h.wellFormed hdb
  have hnodup := nodup_index hdb₁.nodup
  obtain ⟨hmem, rfl⟩ := getBlock_eq_some hb
  obtain ⟨b₁, hb₁, hbb₁⟩ := h.exists_mem hmem
  have hget₁ : db₁.getBlock b.id = some b₁ := by
    rw [← field_eq (·.id) (fun _ => rfl) hbb₁]
    exact getBlock_of_mem hdb₁.nodup hb₁
  obtain ⟨R, hraised, hR⟩ := setBftIrreversible_raised hnodup hget₁
  rw [field_eq (·.blockNum) (fun _ => rfl) hbb₁] at hraised hR
  have hmoved {x x₁ : BlockState} (hx : x ∈ db.index) (hx₁ : x₁ ∈ db₁.index)
      (hxx₁ : unconfirmed x₁ = unconfirmed x) : Reached db b.blockNum b.id x ↔ x₁.id ∈ R :=
    ⟨fun hreach => (hR x₁ hx₁).mpr (h.reached hreach hx₁ hxx₁),
      fun hmem => h.symm.reached ((hR x₁ hx₁).mp hmem) hx hxx₁.symm⟩
  have hof {x x₁ y : BlockState} (hx : x ∈ db.index) (hx₁ : x₁ ∈ db₁.index)
      (hxx₁ : unconfirmed x₁ = unconfirmed x)
      (hy : (x₁.id ∈ R ∧ ∃ k, y = x₁.raised b.blockNum k) ∨ (x₁.id ∉ R ∧ y = x₁)) :
      Moved db b.blockNum b.id x y := by
    have hid : x₁.id = x.id := field_eq (·.id) (fun _ => rfl) hxx₁
    rcases hy with ⟨hin, k, rfl⟩ | ⟨hout, rfl⟩
    · exact ⟨hid,
        fun _ => field_eq (fun x => (x.raised b.blockNum 0).libKey) (fun _ => rfl) hxx₁,
        fun hnot => absurd ((hmoved hx hx₁ hxx₁).mpr hin) hnot⟩
    · exact ⟨hid,
        fun hreach => absurd ((hmoved hx hx₁ hxx₁).mp hreach) hout,
        fun _ => field_eq (·.libKey) (fun _ => rfl) hxx₁⟩
  refine ⟨hraised.wellFormed hdb₁, hraised.head.trans h.head, fun x hx => ?_, fun y hy => ?_⟩
  · obtain ⟨x₁, hx₁, hxx₁⟩ := h.exists_mem hx
    by_cases hin : x₁.id ∈ R
    · obtain ⟨k, hk⟩ := (hraised.mem hx₁).1 hin
      exact ⟨_, hk, hof hx hx₁ hxx₁ (Or.inl ⟨hin, k, rfl⟩)⟩
    · exact ⟨x₁, (hraised.mem hx₁).2 hin, hof hx hx₁ hxx₁ (Or.inr ⟨hin, rfl⟩)⟩
  · obtain ⟨x₁, hx₁, hy⟩ := hraised.exists_of_mem hy
    obtain ⟨x, hx, hxx₁⟩ := h.symm.exists_mem hx₁
    exact ⟨x, hx, hof hx hx₁ hxx₁.symm hy⟩

theorem Reached.libKey_le {num : Nat} {x : BlockState} (h : Reached db num b.id x)
    (hdb : db.WellFormed) (hb : b ∈ db.index) (hlt : b.bftIrreversibleBlocknum < num) :
    x.libKey ≤ (x.raised num 0).libKey := by
  have hx : x.bftIrreversibleBlocknum < num := by
    cases h with
    | self hx hid => exact hdb.eq_of_id_eq hx hb hid ▸ hlt
    | next _ _ _ hlt => exact hlt
  exact BlockHeaderState.libKey_le.mpr (Or.inr ⟨rfl, Or.inl hx⟩)

/-- **A confirmation with a quorum** leaves the head current if no block that the BFT number reaches
becomes greater. -/
theorem Confirmed.headCurrent_setBftIrreversible (hconf : Confirmed db db₁) (hdb : db.WellFormed)
    (hb : db.getBlock id = some b) (hlt : b.bftIrreversibleBlocknum < b.blockNum)
    (hhead : db.headBlock = some h) (hle : ∀ x ∈ db.index, x.libKey ≤ h.libKey) :
    (db₁.setBftIrreversible id).HeadCurrent ↔
      ∀ x, Reached db b.blockNum id x → (x.raised b.blockNum 0).libKey ≤ h.libKey ∨
        Reached db b.blockNum id h ∧
          (x.raised b.blockNum 0).libKey ≤ (h.raised b.blockNum 0).libKey := by
  obtain ⟨hdb', hhead', hto, hfrom⟩ := hconf.moved hdb hb
  obtain ⟨hmem, rfl⟩ := getBlock_eq_some hb
  obtain ⟨id, hid, hget⟩ := Option.bind_eq_some_iff.mp hhead
  obtain ⟨hh, rfl⟩ := getBlock_eq_some hget
  obtain ⟨h', hh', hmoved⟩ := hto h hh
  have hblock : (db₁.setBftIrreversible b.id).headBlock = some h' := by
    rw [headBlock, hhead', hid, ← hmoved.id_eq]
    exact getBlock_of_mem hdb'.nodup hh'
  have hgrows : h.libKey ≤ h'.libKey := by
    by_cases hreach : Reached db b.blockNum b.id h
    · rw [hmoved.raised hreach]
      exact hreach.libKey_le hdb hmem hlt
    · rw [hmoved.kept hreach]
  constructor
  · rintro ⟨a, ha, hcur⟩ x hx
    obtain rfl := Option.some.inj (hblock.symm.trans ha)
    obtain ⟨y, hy, hxy⟩ := hto x hx.mem
    have hley := hcur y hy
    rw [hxy.raised hx] at hley
    by_cases hreach : Reached db b.blockNum b.id h
    · rw [hmoved.raised hreach] at hley
      exact Or.inr ⟨hreach, hley⟩
    · rw [hmoved.kept hreach] at hley
      exact Or.inl hley
  · intro hcond
    refine ⟨h', hblock, fun y hy => ?_⟩
    obtain ⟨x, hx, hxy⟩ := hfrom y hy
    by_cases hreach : Reached db b.blockNum b.id x
    · rw [hxy.raised hreach]
      rcases hcond x hreach with hlex | ⟨hreach', hlex⟩
      · exact hlex.trans hgrows
      · rw [hmoved.raised hreach']
        exact hlex
    · rw [hxy.kept hreach]
      exact (hle x hx).trans hgrows

end ForkDatabase

namespace Controller

open Attempt ForkDatabase

variable {σ : Type} {c : Crypto} {e : Push σ} {ctl ctl' : Controller σ} {o s : BlockState}

/-! ## The handler of the signal does not change the choice -/

def ChoosesAs (db : ForkDatabase) (ctl : Controller σ) : Prop := SameChoice db ctl.forkDb

section Keeps

variable (db : ForkDatabase)

theorem keeps_choosesAs_mark (id : BlockId) (flag : Bool) :
    Keeps (ChoosesAs (σ := σ) db) (markInCurrentChain id flag) := by
  refine Keeps.read_bind fun ctl h => ?_
  cases hm : ctl.forkDb.markInCurrentChain id flag with
  | error =>
    exact h
  | ok =>
    exact SameChoice.trans h (markInCurrentChain_sameChoice hm)

theorem keeps_choosesAs_applyBlock (s : BlockState) :
    Keeps (ChoosesAs (σ := σ) db) (applyBlock e s) := by
  refine Keeps.read_bind fun ctl h => ?_
  refine (Keeps.bind (Keeps.lift _) fun _ => ?_) ctl h
  exact Keeps.update fun _ h => h

theorem keeps_choosesAs_onIrreversible (e : Push σ) (s : BlockState) :
    Keeps (ChoosesAs (σ := σ) db) (onIrreversible e s) := by
  have hadvance : Keeps (ChoosesAs (σ := σ) db) (advanceHead e s) := by
    refine Keeps.read_bind fun ctl h => ?_
    refine (Keeps.ite (fun _ => ?_) fun _ => Keeps.lift _) ctl h
    exact (keeps_choosesAs_applyBlock db s).bind fun _ => Keeps.update fun _ h => h
  have hexec : Keeps (ChoosesAs (σ := σ) db)
      (executeIrreversible e s) := by
    refine hadvance.bind fun _ => Keeps.read_bind fun ctl h => ?_
    refine ((keeps_choosesAs_mark db _ _).bind fun _ => ?_) ctl h
    exact fun _ h => SameChoice.trans h (validate_sameChoice _)
  refine Keeps.read_bind fun ctl h => ?_
  refine (Keeps.bind (Keeps.lift _) fun append => Keeps.bind (Keeps.update ?_) fun _ =>
    Keeps.bind (Keeps.lift _) fun _ => Keeps.bind (Keeps.update ?_) fun _ => ?_) ctl h
  · exact fun _ h => h
  · exact fun _ h => h
  · exact Keeps.ite (fun _ => hexec) fun _ => Keeps.pure ()

end Keeps

theorem emitIrreversible_sameChoice (e : Push σ) (o : BlockState) (ctl : Controller σ) :
    SameChoice ctl.forkDb (emitIrreversible e o ctl).2.forkDb :=
  keeps_choosesAs_onIrreversible ctl.forkDb e o
    { ctl with irreversible := ctl.irreversible ++ [o] } (SameChoice.refl _)

/-- **Pruning a level**: the handler of the signal throws, or the level goes, or the loop over it
gets lost. -/
theorem pruneLevel_cases (e : Push σ) (ctl : Controller σ) (hdb : ctl.forkDb.WellFormed)
    (ho : ctl.forkDb.index.head? = some o) :
    (∃ msg, (emitIrreversible e o ctl).1 = .error msg ∧
      pruneLevel e o ctl = (.error msg, (emitIrreversible e o ctl).2)) ∨
    ∃ ctl₁, emitIrreversible e o ctl = (.ok (), ctl₁) ∧
      ((Passes o.blockNum (ctl₁.forkDb.erase o.id).index ∧
        pruneLevel e o ctl = (.ok (), { ctl₁ with forkDb := ctl₁.forkDb.withoutLevel o })) ∨
      (¬ Passes o.blockNum (ctl₁.forkDb.erase o.id).index ∧ ∃ msg, pruneLevel e o ctl =
        (.error msg, { ctl₁ with forkDb := (ctl₁.forkDb.erase o.id).lost }))) := by
  have hget := getBlock_of_mem hdb.nodup (List.mem_of_mem_head? ho)
  have hsame := emitIrreversible_sameChoice e o ctl
  rcases hemit : emitIrreversible e o ctl with ⟨(msg | ⟨⟩), ctl₁⟩
  · refine .inl ⟨msg, rfl, bind_of_error ?_⟩
    unfold signalIrreversible
    rw [read_bind, hget]
    exact bind_of_error hemit
  · rw [hemit] at hsame
    have hdb₁ := hsame.wellFormed hdb
    have hclear (db' : ForkDatabase) : (ctl₁.forkDb.erase o.id).clearLevel o.blockNum = .ok db' ↔
        Passes o.blockNum (ctl₁.forkDb.erase o.id).index ∧ db' = ctl₁.forkDb.withoutLevel o :=
      clearLevel_eq_ok (nodup_erase hdb₁.nodup) hdb₁.sorted.erase fun b hb =>
        hdb.sorted.first_le ho _ (hsame.perm.mem_iff.mp (mem_headers (mem_without.mp hb).1))
    refine .inr ⟨ctl₁, rfl, ?_⟩
    rw [pruneLevel_eq hget hemit]
    by_cases hpasses : Passes o.blockNum (ctl₁.forkDb.erase o.id).index
    · exact .inl ⟨hpasses, changeForkDb_of_ok ((hclear _).mpr ⟨hpasses, rfl⟩)⟩
    · refine .inr ⟨hpasses, ?_⟩
      cases hlost : (ctl₁.forkDb.erase o.id).clearLevel o.blockNum with
      | error msg => exact ⟨msg, changeForkDb_of_error hlost⟩
      | ok db' => exact absurd ((hclear db').mp hlost).1 hpasses

end Controller

/-! ## The operations -/

/-- The operations after which the head is chosen. -/
inductive ForkOperation (σ : Type)
  | add (e : Push σ) (n : BlockState) (skipValidatePrevious : Bool)
  | remove (id : BlockId)
  | setValidity (id : BlockId) (valid : Bool)
  | addConfirmation (conf : HeaderConfirmation)

namespace ForkOperation

open ForkDatabase Attempt

variable {σ : Type}

/-- The operations of the controller. -/
def exec (c : Crypto) : ForkOperation σ → Attempt (Controller σ) Unit
  | add e n skip => Controller.add e n skip
  | remove id => Controller.changeForkDb (·.remove id)
  | setValidity id valid => Controller.setValidity id valid
  | addConfirmation conf => do
    let ctl ← read
    let db ← ctl.forkDb.addConfirmation c conf
    Controller.updateForkDb fun _ => db

/-- Some block does not build on a block. -/
def LeavesBlock (db : ForkDatabase) (id : BlockId) : Prop :=
  ∃ b ∈ db.headers, ¬ Below (·.id) (·.header.previous) db.headers id b

/-- The operation leaves the head current. When a block is added and the oldest level has to go,
this is asked only if the handler of the signal does not throw. -/
def KeepsHead (c : Crypto) (ctl : Controller σ) : ForkOperation σ → Prop
  | add e n skip => ∀ db o ctl₁, ctl.forkDb.insertBlock n skip = .ok db →
    (ctl.forkDb.withBlock n).head? = some o →
    (∃ b ∈ ctl.forkDb.withBlock n, o.blockNum < b.dposIrreversibleBlocknum) →
    Controller.emitIrreversible e o { ctl with forkDb := db } = (.ok (), ctl₁) →
      LeavesHead ((ctl.forkDb.withBlock n).map (·.toBlockHeaderState)) o.toBlockHeaderState ∧
      Passes o.blockNum (ctl₁.forkDb.erase o.id).index
  | remove id => LeavesBlock ctl.forkDb id
  | setValidity id valid => valid = false → LeavesBlock ctl.forkDb id
  | addConfirmation conf => ∀ db b h, ctl.forkDb.addConfirmation c conf = .ok db →
    ctl.forkDb.getBlock conf.blockId = some b → ctl.forkDb.headBlock = some h →
    BftQuorum (confirmedBy b.toBlockHeaderState conf) →
      ∀ x, Reached ctl.forkDb b.blockNum b.id x →
        (x.raised b.blockNum 0).libKey ≤ h.libKey ∨
          Reached ctl.forkDb b.blockNum b.id h ∧
            (x.raised b.blockNum 0).libKey ≤ (h.raised b.blockNum 0).libKey

variable {c : Crypto} {ctl : Controller σ}

/-- An operation leaves a well-formed database, and a head that is current exactly when the
operation keeps the head. -/
def Spec (c : Crypto) (ctl : Controller σ) (op : ForkOperation σ) : Prop :=
  (op.exec c ctl).2.forkDb.WellFormed ∧
    ((op.exec c ctl).2.forkDb.HeadCurrent ↔ op.KeepsHead c ctl)

variable {op : ForkOperation σ} {ctl' : Controller σ} {r : Except String Unit}

theorem spec_of_eq (h : op.exec c ctl = (r, ctl')) (hdb : ctl'.forkDb.WellFormed)
    (hcur : ctl'.forkDb.HeadCurrent ↔ op.KeepsHead c ctl) : op.Spec c ctl := by
  rw [Spec, h]
  exact ⟨hdb, hcur⟩

theorem wellFormed_lost (db : ForkDatabase) : db.lost.WellFormed :=
  ⟨List.nodup_nil, List.Pairwise.nil⟩

theorem not_headCurrent_lost (db : ForkDatabase) : ¬ db.lost.HeadCurrent := by
  rintro ⟨h, hhead, -⟩
  cases hhead

/-- **A block is added**: it is refused, the handler of the signal throws, or it is in the index and
the oldest level is pruned if it has to be. -/
theorem add_spec (e : Push σ) (n : BlockState) (skip : Bool) (hdb : ctl.forkDb.WellFormed)
    (hcur : ctl.forkDb.HeadCurrent) : (add e n skip).Spec c ctl := by
  have hexec : (add e n skip).exec c ctl = Controller.add e n skip ctl := rfl
  rw [Controller.add, read_bind] at hexec
  cases hins : ctl.forkDb.insertBlock n skip with
  | error =>
    rw [lift_bind_of_error hins] at hexec
    refine spec_of_eq hexec hdb (iff_of_true hcur fun db _ _ hdb' => ?_)
    rw [hins] at hdb'
    cases hdb'
  | ok db =>
    obtain ⟨hdb₁, hcur₁, hindex⟩ := insertBlock_headCurrent hdb hins
    rw [lift_bind_of_ok hins, Controller.updateForkDb, update_bind] at hexec
    cases hprune : db.toPrune with
    | none =>
      rw [hprune] at hexec
      refine spec_of_eq hexec hdb₁ (iff_of_true hcur₁ fun _ o _ _ ho hlt => ?_)
      rw [← hindex] at ho hlt
      rw [hcur₁.toPrune_eq_some.mpr ⟨ho, hlt⟩] at hprune
      cases hprune
    | some o =>
      obtain ⟨hfirst, hlt⟩ := hcur₁.toPrune_eq_some.mp hprune
      rw [hprune] at hexec
      dsimp only at hexec
      rw [Controller.prune_of_oldest hfirst] at hexec
      have hsame := Controller.emitIrreversible_sameChoice e o { ctl with forkDb := db }
      have hkeeps : (add e n skip).KeepsHead c ctl ↔ ∀ ctl₁,
          Controller.emitIrreversible e o { ctl with forkDb := db } = (.ok (), ctl₁) →
            LeavesHead ((ctl.forkDb.withBlock n).map (·.toBlockHeaderState))
              o.toBlockHeaderState ∧ Passes o.blockNum (ctl₁.forkDb.erase o.id).index := by
        rw [hindex] at hfirst hlt
        constructor
        · exact fun h ctl₁ => h db o ctl₁ hins hfirst hlt
        · intro h db' o' ctl₁ hdb' ho' _
          obtain rfl := Except.ok.inj (hins.symm.trans hdb')
          obtain rfl := Option.some.inj (hfirst.symm.trans ho')
          exact h ctl₁
      rcases Controller.pruneLevel_cases e { ctl with forkDb := db } hdb₁ hfirst with
        ⟨msg, hmsg, herr⟩ | ⟨ctl₁, hemit, ⟨hpasses, hok⟩ | ⟨hlost, msg, herr⟩⟩
      · refine spec_of_eq (hexec.trans herr) (hsame.wellFormed hdb₁)
          (iff_of_true (hsame.headCurrent hdb₁ hcur₁) (hkeeps.mpr fun ctl₁ hemit => ?_))
        rw [hemit] at hmsg
        cases hmsg
      · rw [hemit] at hsame
        have hdb₂ := hsame.wellFormed hdb₁
        have hperm : ctl₁.forkDb.headers.Perm
            ((ctl.forkDb.withBlock n).map (·.toBlockHeaderState)) := by
          rw [← hindex]
          exact hsame.perm
        refine spec_of_eq (hexec.trans hok) (hdb₂.withoutLevel o) ?_
        show (ctl₁.forkDb.withoutLevel o).HeadCurrent ↔ _
        rw [headCurrent_withoutLevel hdb₂ (hsame.headCurrent hdb₁ hcur₁)
          (hsame.perm.mem_iff.mpr (mem_headers (List.mem_of_mem_head? hfirst))), hkeeps]
        constructor
        · intro hleaves ctl₂ hemit'
          obtain rfl := congrArg Prod.snd (hemit.symm.trans hemit')
          exact ⟨hleaves.perm hperm.symm, hpasses⟩
        · exact fun h => (h ctl₁ hemit).1.perm hperm
      · refine spec_of_eq (hexec.trans herr) (wellFormed_lost _)
          (iff_of_false (not_headCurrent_lost _) fun h => ?_)
        exact hlost (hkeeps.mp h ctl₁ hemit).2

theorem removed_spec (id : BlockId) (h : op.exec c ctl = Controller.changeForkDb (·.remove id) ctl)
    (hkeeps : op.KeepsHead c ctl ↔ LeavesBlock ctl.forkDb id) (hdb : ctl.forkDb.WellFormed) :
    op.Spec c ctl := by
  cases hr : ctl.forkDb.remove id with
  | ok db =>
    obtain ⟨-, rfl⟩ := remove_eq_ok.mp hr
    exact spec_of_eq (h.trans (Controller.changeForkDb_of_ok hr)) (hdb.remove id)
      ((headCurrent_removed hdb).trans hkeeps.symm)
  | error =>
    refine spec_of_eq (h.trans (Controller.changeForkDb_of_error hr)) (wellFormed_lost _)
      (iff_of_false (not_headCurrent_lost _) fun hk => ?_)
    obtain ⟨b, hb, hbelow⟩ := hkeeps.mp hk
    have hleft : b ∈ (ctl.forkDb.removed id).headers := by
      rw [headers_removed]
      exact (mem_sweepFrom hdb.nodup).mpr ⟨hb, hbelow⟩
    rw [remove_eq_ok.mpr ⟨List.map_eq_nil_iff.not.mp (List.ne_nil_of_mem hleft), rfl⟩] at hr
    cases hr

theorem remove_spec (id : BlockId) (hdb : ctl.forkDb.WellFormed) : (remove id).Spec c ctl :=
  removed_spec id rfl Iff.rfl hdb

theorem setValidity_spec (id : BlockId) (valid : Bool) (hdb : ctl.forkDb.WellFormed)
    (hcur : ctl.forkDb.HeadCurrent) : (setValidity id valid).Spec c ctl := by
  cases valid with
  | true =>
    have hsame : SameChoice ctl.forkDb (ctl.forkDb.validate id) := validate_sameChoice id
    have hexec : (setValidity id true).exec c ctl =
      (.ok (), { ctl with forkDb := ctl.forkDb.validate id }) := rfl
    exact spec_of_eq hexec (hsame.wellFormed hdb)
      (iff_of_true (hsame.headCurrent hdb hcur) fun h => by cases h)
  | false => exact removed_spec id rfl ⟨fun h => h rfl, fun h _ => h⟩ hdb

theorem addConfirmation_spec (conf : HeaderConfirmation) (hdb : ctl.forkDb.WellFormed)
    (hcur : ctl.forkDb.HeadCurrent) : (addConfirmation conf).Spec c ctl := by
  have hexec : (addConfirmation conf).exec c ctl =
    (do
      let db ← ctl.forkDb.addConfirmation c conf
      Controller.updateForkDb fun _ => db : Attempt (Controller σ) Unit) ctl := rfl
  cases hconf : ctl.forkDb.addConfirmation c conf with
  | error =>
    rw [lift_bind_of_error hconf] at hexec
    refine spec_of_eq hexec hdb (iff_of_true hcur fun _ _ _ hok => ?_)
    rw [hconf] at hok
    cases hok
  | ok =>
    rw [lift_bind_of_ok hconf] at hexec
    obtain ⟨b, db₁, hb, hconfirmed, rfl⟩ := addConfirmation_eq_ok hdb hconf
    by_cases hquorum : BftQuorum (confirmedBy b.toBlockHeaderState conf)
    · rw [if_pos hquorum] at hexec
      obtain ⟨h, hhead, hle⟩ := hcur
      refine spec_of_eq hexec (hconfirmed.moved hdb hb).1 ?_
      refine (hconfirmed.headCurrent_setBftIrreversible hdb hb hquorum.1 hhead hle).trans ?_
      obtain ⟨-, hid⟩ := getBlock_eq_some hb
      constructor
      · intro hcond _ b' h' _ hb' hhead' _
        obtain rfl := Option.some.inj (hb.symm.trans hb')
        obtain rfl := Option.some.inj (hhead.symm.trans hhead')
        rw [hid]
        exact hcond
      · intro hkeeps
        rw [← hid]
        exact hkeeps _ b h hconf hb hhead hquorum
    · rw [if_neg hquorum] at hexec
      refine spec_of_eq hexec (hconfirmed.wellFormed hdb)
        (iff_of_true (hconfirmed.headCurrent hdb hcur) fun _ b' h' _ hb' _ hquorum' => ?_)
      obtain rfl := Option.some.inj (hb.symm.trans hb')
      exact absurd hquorum' hquorum

theorem exec_spec (op : ForkOperation σ) (hdb : ctl.forkDb.WellFormed)
    (hcur : ctl.forkDb.HeadCurrent) : op.Spec c ctl := by
  cases op with
  | add e n skip => exact add_spec e n skip hdb hcur
  | remove id => exact remove_spec id hdb
  | setValidity id valid => exact setValidity_spec id valid hdb hcur
  | addConfirmation conf => exact addConfirmation_spec conf hdb hcur

def step (c : Crypto) (op : ForkOperation σ) (ctl : Controller σ) : Except String (Controller σ) :=
  .ok (op.exec c ctl).2

/-- **The choice of the head.** In a run of operations on a fork database whose head is current, the
head is current in every state exactly when every operation of the run keeps it. -/
theorem head_current_iff (c : Crypto) (ctl : Controller σ) (ops : List (ForkOperation σ))
    (hdb : ctl.forkDb.WellFormed) (hcur : ctl.forkDb.HeadCurrent) :
    Always (step c) (fun ctl => ctl.forkDb.HeadCurrent) ctl ops ↔
      Along (step c) (fun ctl op => op.KeepsHead c ctl) ctl ops := by
  refine always_iff_along (J := fun ctl => ctl.forkDb.WellFormed) ?_ ?_ hdb hcur
  · intro ctl op ctl' hdb hcur hstep
    cases hstep
    exact (exec_spec op hdb hcur).1
  · intro ctl op ctl' hdb hcur hstep
    cases hstep
    exact (exec_spec op hdb hcur).2

def prunesNothing (ctl : Controller σ) : ForkOperation σ → Bool
  | add _ n _ => (ctl.forkDb.withBlock n).all (·.dposIrreversibleBlocknum = 0)
  | _ => false

theorem keepsHead_of_prunesNothing (h : op.prunesNothing ctl = true) : op.KeepsHead c ctl := by
  cases op with
  | add =>
    rintro _ o _ - - ⟨b, hb, hlt⟩
    have := List.all_eq_true.mp h b hb
    rw [decide_eq_true_iff] at this
    omega
  | remove | setValidity | addConfirmation => cases h

def oneProducerNode : Controller Unit :=
  Controller.initializeForkDb toyCrypto .speculative { producers := [⟨1, 7⟩] } 11 0 ()

def twoBlocks : List BlockHeaderState :=
  (oneProducerNode.head.turn 12 0).toOption.toList ++
    (oneProducerNode.head.turn 13 0).toOption.toList

def addBlocks : List (ForkOperation Unit) :=
  twoBlocks.map fun b =>
    add ⟨b.header, fun _ _ => .ok (), true⟩ { toBlockHeaderState := b } false

theorem head_current_iff_addBlocks : addBlocks.length = 2 ∧
    Always (step toyCrypto) (fun ctl => ctl.forkDb.HeadCurrent) oneProducerNode addBlocks := by
  have hdb : oneProducerNode.forkDb.WellFormed :=
    ⟨List.nodup_singleton _, List.pairwise_singleton _ _⟩
  refine ⟨by decide +kernel,
    (head_current_iff toyCrypto oneProducerNode addBlocks hdb (by decide +kernel)).mpr ?_⟩
  have hnothing : Along (step toyCrypto) (fun ctl op => op.prunesNothing ctl = true)
      oneProducerNode addBlocks := by
    decide +kernel
  exact hnothing.mono fun _ _ _ _ h => keepsHead_of_prunesNothing h

/-- **The head is not current.** The producer confirms the second of two blocks, which is then
greater than the first, the head. -/
theorem head_not_current :
    let ctl := run (step toyCrypto) oneProducerNode addBlocks
    let confirm (b : BlockHeaderState) : ForkOperation Unit :=
      addConfirmation ⟨b.id, 1, b.sigDigest toyCrypto + 7⟩
    (ctl.forkDb.HeadCurrent ∧ ∃ b ∈ twoBlocks,
      ((confirm b).exec toyCrypto ctl).1 = .ok () ∧
        ¬ ((confirm b).exec toyCrypto ctl).2.forkDb.HeadCurrent) ∧
    oneProducerNode.forkDb.HeadCurrent ∧
      ¬ ((remove oneProducerNode.head.id).exec toyCrypto oneProducerNode).2.forkDb.HeadCurrent := by
  decide +kernel

end ForkOperation

end BaccChain
