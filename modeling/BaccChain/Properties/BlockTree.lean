import BaccChain.Properties.Irreversibility
import BaccChain.Properties.LevelLoop

/-!
# Trees of blocks

The index of the fork database is a tree of blocks that hangs on the last block that was
irreversible.

## Main definitions

* `Tree`: the index hangs on an anchor
* `pruned`: the tree without a level

## Main results

* `Tree.prune`: what is left is a tree on the block that was passed on
-/

namespace BaccChain

open Commons

/-- The blocks below a block, or the block with an id, in a list of header states. -/
abbrev Descends (l : List BlockHeaderState) (id : BlockId) (b : BlockHeaderState) : Prop :=
  Below (·.id) (·.header.previous) l id b

/-- The blocks have ids of their own that hold their numbers, and each hangs on another or on the
block `anchor`, which is no longer there. -/
structure Tree (anchor : BlockId) (l : List BlockHeaderState) : Prop where
  nodup : (l.map (·.id)).Nodup
  consistent : ∀ b ∈ l, b.Consistent
  numbered : ∀ b ∈ l, numFromId b.id = b.blockNum
  numbered_previous : ∀ b ∈ l, b.blockNum = numFromId b.header.previous + 1
  linked : ∀ b ∈ l, (∃ p ∈ l, b.header.previous = p.id) ∨ b.header.previous = anchor

namespace Tree

variable {anchor : BlockId} {l l' : List BlockHeaderState} {a b o h : BlockHeaderState}

theorem perm (ht : Tree anchor l) (hl : l'.Perm l) : Tree anchor l' where
  nodup := (hl.map _).nodup_iff.mpr ht.nodup
  consistent b hb := ht.consistent b (hl.mem_iff.mp hb)
  numbered b hb := ht.numbered b (hl.mem_iff.mp hb)
  numbered_previous b hb := ht.numbered_previous b (hl.mem_iff.mp hb)
  linked b hb := by
    rcases ht.linked b (hl.mem_iff.mp hb) with ⟨p, hp, hbp⟩ | hb
    · exact .inl ⟨p, hl.mem_iff.mpr hp, hbp⟩
    · exact .inr hb

theorem cons (ht : Tree anchor l) (hnew : ∀ b ∈ l, b.id ≠ a.id) (hcons : a.Consistent)
    (hnum : numFromId a.id = a.blockNum) (hprev : a.blockNum = numFromId a.header.previous + 1)
    (hparent : ∃ p ∈ l, a.header.previous = p.id) : Tree anchor (a :: l) where
  nodup := by
    refine List.nodup_cons.mpr ⟨fun ha => ?_, ht.nodup⟩
    obtain ⟨b, hb, hid⟩ := List.mem_map.mp ha
    exact hnew b hb hid
  consistent := List.forall_mem_cons.mpr ⟨hcons, ht.consistent⟩
  numbered := List.forall_mem_cons.mpr ⟨hnum, ht.numbered⟩
  numbered_previous := List.forall_mem_cons.mpr ⟨hprev, ht.numbered_previous⟩
  linked := by
    obtain ⟨p, hp, hap⟩ := hparent
    refine List.forall_mem_cons.mpr ⟨.inl ⟨p, List.mem_cons_of_mem _ hp, hap⟩, fun b hb => ?_⟩
    rcases ht.linked b hb with ⟨p, hp, hbp⟩ | hb
    · exact .inl ⟨p, List.mem_cons_of_mem _ hp, hbp⟩
    · exact .inr hb

theorem of_sublist {anchor' : BlockId} (ht : Tree anchor l) (hl : l'.Sublist l)
    (hlinked : ∀ b ∈ l', (∃ p ∈ l', b.header.previous = p.id) ∨ b.header.previous = anchor') :
    Tree anchor' l' where
  nodup := ht.nodup.sublist (hl.map _)
  consistent b hb := ht.consistent b (hl.subset hb)
  numbered b hb := ht.numbered b (hl.subset hb)
  numbered_previous b hb := ht.numbered_previous b (hl.subset hb)
  linked := hlinked

theorem sweepFrom (ht : Tree anchor l) (id : BlockId) :
    Tree anchor (Commons.sweepFrom (·.id) (·.header.previous) id l) := by
  refine ht.of_sublist sweepFrom_sublist fun b hb => ?_
  obtain ⟨hbl, hbid⟩ := (mem_sweepFrom ht.nodup).mp hb
  rcases ht.linked b hbl with ⟨p, hp, hbp⟩ | hanchor
  · exact .inl ⟨p, (mem_sweepFrom ht.nodup).mpr ⟨hp, fun h => hbid (.child hbl h hbp)⟩, hbp⟩
  · exact .inr hanchor

theorem previous_of_oldest (ht : Tree anchor l) (ho : o ∈ l)
    (hold : ∀ b ∈ l, o.blockNum ≤ b.blockNum) : o.header.previous = anchor := by
  rcases ht.linked o ho with ⟨p, hp, hop⟩ | h
  · have h₁ := hold p hp
    have h₂ := ht.numbered_previous o ho
    rw [hop, ht.numbered p hp] at h₂
    omega
  · exact h

theorem anchor_lt (ht : Tree anchor l) (n : Nat) :
    ∀ b ∈ l, b.blockNum = n → numFromId anchor < n := by
  induction n using Nat.strong_induction_on with
  | _ n ih =>
    rintro b hb rfl
    have hnum := ht.numbered_previous b hb
    rcases ht.linked b hb with ⟨p, hp, hbp⟩ | h
    · rw [hbp, ht.numbered p hp] at hnum
      have := ih p.blockNum (by omega) p hp rfl
      omega
    · rw [h] at hnum
      omega

theorem num_lt (ht : Tree anchor l) {id : BlockId} (h : Descends l id b) :
    b.id = id ∨ numFromId id < b.blockNum := by
  induction h with
  | self _ h => exact .inl h
  | link hb h =>
    have := ht.numbered_previous _ hb
    rw [h] at this
    exact .inr (by omega)
  | @child p b hb hp h ih =>
    have hnum := ht.numbered_previous b hb
    rw [h, ht.numbered p hp.mem] at hnum
    rcases ih with rfl | ih
    · exact .inr (by rw [ht.numbered p hp.mem]; omega)
    · exact .inr (by omega)

theorem ancestor_unique (ht : Tree anchor l) {i j : BlockId} (hij : numFromId i = numFromId j)
    (hi : Descends l i b) (hj : Descends l j b) : i = j := by
  induction hi with
  | @self b hb h =>
    rcases ht.num_lt hj with hj | hj
    · exact h.symm.trans hj
    · have := ht.numbered b hb
      rw [h] at this
      omega
  | @link b hb h =>
    have hnum := ht.numbered_previous b hb
    rw [h] at hnum
    cases hj with
    | self _ hj =>
      have := ht.numbered b hb
      rw [hj] at this
      omega
    | link _ hj => exact h.symm.trans hj
    | @child p _ _ hp hbp =>
      rcases ht.num_lt hp with hpj | hpj
      · exact (h.symm.trans hbp).trans hpj
      · rw [← h, hbp, ht.numbered p hp.mem] at hij
        omega
  | @child p b hb hp hbp ih =>
    have hnum := ht.numbered_previous b hb
    rw [hbp, ht.numbered p hp.mem] at hnum
    cases hj with
    | self _ hj =>
      have hb' := ht.numbered b hb
      rw [hj] at hb'
      rcases ht.num_lt hp with hpi | hpi
      · have := ht.numbered p hp.mem
        rw [hpi] at this
        omega
      · omega
    | link _ hj =>
      rcases ht.num_lt hp with hpi | hpi
      · exact (hpi.symm.trans hbp.symm).trans hj
      · rw [← hj, hbp, ht.numbered p hp.mem] at hij
        omega
    | @child p' _ _ hp' hbp' =>
      obtain rfl := eq_of_key_eq ht.nodup hp.mem hp'.mem (hbp.symm.trans hbp')
      exact ih hp'

def pruned (o : BlockHeaderState) (l : List BlockHeaderState) : List BlockHeaderState :=
  let rest := without (·.id) o.id l
  ((rest.filter (·.blockNum = o.blockNum)).map (·.id)).foldl
    (fun l id => Commons.sweepFrom (·.id) (·.header.previous) id l) rest

theorem mem_pruned (hl : (l.map (·.id)).Nodup) :
    b ∈ pruned o l ↔ (b ∈ l ∧ b.id ≠ o.id) ∧ ∀ x ∈ l, x.id ≠ o.id → x.blockNum = o.blockNum →
      ¬ Descends (without (·.id) o.id l) x.id b := by
  rw [pruned, mem_foldl_sweepFrom _ (nodup_without hl), mem_without]
  refine and_congr_right fun _ => ?_
  simp only [List.mem_map, List.mem_filter, mem_without, decide_eq_true_eq]
  constructor
  · intro h x hx hxo hnum
    exact h x.id ⟨x, ⟨⟨hx, hxo⟩, hnum⟩, rfl⟩
  · rintro h id ⟨x, ⟨⟨hx, hxo⟩, hnum⟩, rfl⟩
    exact h x hx hxo hnum

theorem prune (ht : Tree anchor l) (ho : o ∈ l) (hold : ∀ b ∈ l, o.blockNum ≤ b.blockNum) :
    Tree o.id (pruned o l) := by
  have hanchor := ht.previous_of_oldest ho hold
  refine ht.of_sublist ((foldl_sweepFrom_sublist _ _).trans without_sublist) fun b hb => ?_
  obtain ⟨⟨hbl, hbo⟩, hb⟩ := (mem_pruned ht.nodup).mp hb
  rcases ht.linked b hbl with ⟨p, hp, hbp⟩ | hroot
  · by_cases hpo : p.id = o.id
    · exact .inr (hbp.trans hpo)
    · refine .inl ⟨p, (mem_pruned ht.nodup).mpr ⟨⟨hp, hpo⟩, fun x hx hxo hnum hdesc => ?_⟩, hbp⟩
      exact hb x hx hxo hnum (.child (mem_without.mpr ⟨hbl, hbo⟩) hdesc hbp)
  · have hnum : b.blockNum = o.blockNum := by
      rw [ht.numbered_previous b hbl, ht.numbered_previous o ho, hroot, hanchor]
    exact absurd (.self (mem_without.mpr ⟨hbl, hbo⟩) rfl) (hb b hbl hbo hnum)

theorem mem_pruned_of_descends (ht : Tree anchor l) (ho : o ∈ l) (hh : h ∈ l)
    (hlt : o.blockNum < h.blockNum) (hdesc : Descends l o.id h) : h ∈ pruned o l := by
  refine (mem_pruned ht.nodup).mpr ⟨⟨hh, fun hid => ?_⟩, fun x hx hxo hnum hx' => ?_⟩
  · obtain rfl := eq_of_key_eq ht.nodup hh ho hid
    exact absurd hlt (lt_irrefl _)
  · have hlevel : numFromId x.id = numFromId o.id := by
      rw [ht.numbered x hx, ht.numbered o ho, hnum]
    exact hxo (ht.ancestor_unique hlevel (hx'.mono without_sublist.subset) hdesc)

theorem mem_pruned_child (ht : Tree anchor l) (ho : o ∈ l) (ha : a ∈ pruned o l) (hb : b ∈ l)
    (hprev : b.header.previous = a.id) (hold : ∀ x ∈ l, o.blockNum ≤ x.blockNum) :
    b ∈ pruned o l := by
  obtain ⟨⟨hal, hao⟩, hkept⟩ := (mem_pruned ht.nodup).mp ha
  have hnum := ht.numbered_previous b hb
  rw [hprev, ht.numbered a hal] at hnum
  have hle := hold a hal
  refine (mem_pruned ht.nodup).mpr ⟨⟨hb, fun hid => ?_⟩, fun x hx hxo hxnum hdesc => ?_⟩
  · obtain rfl := eq_of_key_eq ht.nodup hb ho hid
    omega
  · cases hdesc with
    | self _ hid =>
      obtain rfl := eq_of_key_eq ht.nodup hb hx hid
      omega
    | link _ hlink =>
      exact hkept x hx hxo hxnum (.self (mem_without.mpr ⟨hal, hao⟩) (hprev.symm.trans hlink))
    | @child p _ _ hp hbp =>
      have hpl := (mem_without.mp hp.mem).1
      obtain rfl := eq_of_key_eq ht.nodup hal hpl (hprev.symm.trans hbp)
      exact hkept x hx hxo hxnum hp

theorem lt_of_mem_pruned (hl : (l.map (·.id)).Nodup)
    (hold : ∀ x ∈ l, o.blockNum ≤ x.blockNum) (hb : b ∈ pruned o l) : o.blockNum < b.blockNum := by
  obtain ⟨⟨hbl, hbo⟩, hkept⟩ := (mem_pruned hl).mp hb
  refine lt_of_le_of_ne (hold b hbl) fun hnum => ?_
  exact hkept b hbl hbo hnum.symm (.self (mem_without.mpr ⟨hbl, hbo⟩) rfl)

end Tree

namespace ForkDatabase

/-- A block is created and inserted. -/
def linked (c : Crypto) (db : ForkDatabase) (b : SignedBlockHeader) :
    Except String ForkDatabase := do
  let n ← db.createBlockState c b false
  db.insertBlock n false

/-- What is left when a block is erased and the others of its level are removed. -/
def withoutLevel (db : ForkDatabase) (o : BlockState) : ForkDatabase :=
  (db.erase o.id).cleared o.blockNum

variable {c : Crypto} {db db' : ForkDatabase} {anchor : BlockId} {b : SignedBlockHeader}

theorem index_of_first {o : BlockState} (h : db.index.head? = some o) (hdb : db.Distinct) :
    db.index = o :: (db.erase o.id).index := by
  obtain ⟨l, hl⟩ := List.head?_eq_some_iff.mp h
  have hids := nodup_index hdb
  rw [hl, List.map_cons, List.nodup_cons] at hids
  show db.index = o :: without (·.id) o.id db.index
  rw [hl, without, List.filter_cons_of_neg (by simp), List.filter_eq_self.mpr]
  intro x hx
  refine decide_eq_true fun hid => hids.1 ?_
  rw [← hid]
  exact List.mem_map_of_mem hx

/-- **The iterator does not get lost** in the level of the oldest block if the first block above the
level builds on it. -/
theorem passes_of_child {o m : BlockState} (ht : Tree anchor db.headers) (hsorted : db.Sorted)
    (ho : db.index.head? = some o) (hm : db.index.find? (o.blockNum < ·.blockNum) = some m)
    (hchild : m.header.previous = o.id) : Passes o.blockNum (db.erase o.id).index := by
  have hindex := index_of_first ho ht.nodup
  have hmem {x : BlockState} (hx : x ∈ (db.erase o.id).index) :
      x ∈ db.index ∧ x.id ≠ o.id := mem_without.mp hx
  have hom := mem_headers (List.mem_of_mem_head? ho)
  have hdesc {s y : BlockState}
      (h : Below (·.id) (·.header.previous) (db.erase o.id).index s.id y) :
      Descends db.headers s.id y.toBlockHeaderState :=
    Below.map BlockHeaderState.id (·.header.previous) BlockState.toBlockHeaderState
      (h.mono without_sublist.subset)
  have hlevel {s : BlockState} (hs : s ∈ (db.erase o.id).index) (hnum : s.blockNum = o.blockNum) :
      numFromId s.id = o.blockNum := (ht.numbered _ (mem_headers (hmem hs).1)).trans hnum
  rw [hindex, List.find?_cons_of_neg (by simp)] at hm
  refine passes_of_first (nodup_without (nodup_index ht.nodup))
    (fun b hb => hsorted.first_le ho _ (mem_headers (hmem hb).1))
    (fun s hs hnum y _ hynum hne h => ?_) hm fun s hs hnum h => ?_
  · rcases ht.num_lt (hdesc h) with hid | hlt
    · exact hne hid
    · rw [hlevel hs hnum] at hlt
      exact absurd hynum hlt.ne'
  · have hmi := (hmem (List.mem_of_find?_eq_some hm)).1
    refine (hmem hs).2 (ht.ancestor_unique ?_ (hdesc h) (.link (mem_headers hmi) hchild))
    rw [hlevel hs hnum, ht.numbered _ hom]

theorem createBlockState_numbered {n p : BlockState} {skip : Bool}
    (hn : db.createBlockState c b skip = .ok n)
    (hp : db.getBlock b.previous = some p) (hpnum : numFromId p.id = p.blockNum)
    (hwrap : numFromId b.previous + 1 < 2 ^ 32) :
    p.blockNum + 1 < 2 ^ 32 ∧ n.header.previous = p.id ∧ n.blockNum = p.blockNum + 1 ∧
      numFromId n.id = n.blockNum := by
  obtain ⟨q, hq, hnext⟩ := createBlockState_eq_ok hn
  obtain rfl := Option.some.inj (hp.symm.trans hq)
  obtain ⟨-, hpid⟩ := getBlock_eq_some hp
  obtain ⟨-, hprevious, hnum, hid⟩ := BlockHeaderState.next_links hnext
  rw [← hpid, hpnum] at hwrap
  have hadd : add32 p.blockNum 1 = p.blockNum + 1 := Nat.mod_eq_of_lt hwrap
  have hheader : n.header.toBlockHeader.blockNum = p.blockNum + 1 := by
    rw [BlockHeader.blockNum, hprevious, hpnum, hadd]
  exact ⟨hwrap, hprevious, hnum.trans hadd, by rw [hid, numFromId_id, hheader, hnum, hadd]⟩

theorem linked_eq_ok (h : db.linked c b = .ok db') (ht : Tree anchor db.headers)
    (hwrap : numFromId b.previous + 1 < 2 ^ 32) :
    Tree anchor db'.headers ∧ (db.Sorted → db'.Sorted) ∧ ∃ n : BlockHeaderState,
      (∃ p ∈ db.headers, n.header.previous = p.id) ∧ db'.headers.Perm (n :: db.headers) := by
  obtain ⟨n, hn, hinsert⟩ := bind_eq_ok.mp h
  obtain ⟨p, hp, hnext⟩ := createBlockState_eq_ok hn
  obtain ⟨hpi, hpid⟩ := getBlock_eq_some hp
  have hpm := mem_headers hpi
  obtain ⟨-, hnew, hperm, hsorted⟩ := insertBlock_eq_ok hinsert
  obtain ⟨hpnum, hprevious, hnum, hid⟩ :=
    createBlockState_numbered hn hp (ht.numbered _ hpm) hwrap
  have hparent : ∃ q ∈ db.headers, n.header.previous = q.id := ⟨_, hpm, hprevious⟩
  refine ⟨?_, hsorted, n.toBlockHeaderState, hparent, hperm⟩
  refine (ht.cons hnew ((ht.consistent _ hpm).next hpnum hnext) hid ?_ hparent).perm hperm
  rw [hprevious, ht.numbered _ hpm, hnum]

theorem linked_first (h : db.linked c b = .ok db') (ht : Tree anchor db.headers)
    (hsorted : db.Sorted) (hwrap : numFromId b.previous + 1 < 2 ^ 32) :
    db'.index.head? = db.index.head? := by
  obtain ⟨n, hn, hinsert⟩ := bind_eq_ok.mp h
  obtain ⟨p, hp, -⟩ := createBlockState_eq_ok hn
  have hpi := (getBlock_eq_some hp).1
  obtain ⟨-, -, hnum, -⟩ :=
    createBlockState_numbered hn hp (ht.numbered _ (mem_headers hpi)) hwrap
  rw [insertBlock_index hinsert]
  cases hindex : db.index with
  | nil =>
    rw [hindex] at hpi
    cases hpi
  | cons o l =>
    have hle := hsorted.first_le (b := o) (by simp [hindex]) _ (mem_headers hpi)
    have hnot : ¬ (db.entering n).Before o := by
      have henter : (db.entering n).blockNum = n.blockNum := rfl
      unfold BlockState.Before
      omega
    rw [withBlock, BlockState.place, hindex, List.orderedInsert, if_neg hnot]
    rfl

end ForkDatabase

end BaccChain
