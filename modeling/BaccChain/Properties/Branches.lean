import BaccChain.Chain.ForkDatabase
import Mathlib.Data.List.TakeWhile

/-!
# Branches of the fork database

What a fork switch sees of the fork database: for each id, the header state of the block and its
mark. The branches from two blocks with a common ancestor lead to blocks with the same parent.

## Main definitions

* `Numbered`: numbers grow from parent to child
* `Marked`: a change of marks

## Main results

* `fetchBranchFrom_spec`: the two branches
-/

namespace BaccChain

open Commons

namespace ForkDatabase

open BlockState

/-- What is known of an id. -/
def look (db : ForkDatabase) (id : BlockId) : Option (BlockHeaderState × Bool) :=
  (db.getBlock id).map fun b => (b.toBlockHeaderState, b.inCurrentChain)

/-- The block before, if it is there. -/
def parent (db : ForkDatabase) (b : BlockHeaderState) : Option BlockHeaderState :=
  (db.look b.header.previous).map Prod.fst

/-- A fork database as it is built from block states: ids are unique, and block numbers go up by one
from a block to the next. -/
structure Numbered (db : ForkDatabase) : Prop where
  nodup : (db.headers.map (·.id)).Nodup
  next : ∀ b ∈ db.headers, ∀ p, db.parent b = some p → b.blockNum = p.blockNum + 1

variable {db db' db'' : ForkDatabase} {id : BlockId} {b : BlockState} {h p r : BlockHeaderState}
  {m flag : Bool} {ids ids' : List BlockId}

/-! ## The entry of an id -/

theorem look_eq_some (hdb : db.Distinct) : db.look id = some (h, m) ↔
    ∃ b ∈ db.index, b.id = id ∧ b.toBlockHeaderState = h ∧ b.inCurrentChain = m := by
  unfold look
  rw [Option.map_eq_some_iff]
  constructor
  · rintro ⟨b, hb, heq⟩
    obtain ⟨hmem, hid⟩ := getBlock_eq_some hb
    obtain ⟨rfl, rfl⟩ := Prod.mk.inj heq
    exact ⟨b, hmem, hid, rfl, rfl⟩
  · rintro ⟨b, hmem, rfl, rfl, rfl⟩
    exact ⟨b, getBlock_of_mem hdb hmem, rfl⟩

theorem look_of_mem (hdb : db.Distinct) (hb : b ∈ db.index) :
    db.look b.id = some (b.toBlockHeaderState, b.inCurrentChain) :=
  (look_eq_some hdb).mpr ⟨b, hb, rfl, rfl, rfl⟩

theorem mem_of_look (h' : db.look id = some (h, m)) : h ∈ db.headers ∧ h.id = id := by
  obtain ⟨b, hb, heq⟩ := Option.map_eq_some_iff.mp h'
  obtain ⟨hmem, hid⟩ := getBlock_eq_some hb
  obtain ⟨rfl, -⟩ := Prod.mk.inj heq
  exact ⟨mem_headers hmem, hid⟩

theorem exists_look (hdb : db.Distinct) (hh : h ∈ db.headers) :
    ∃ m, db.look h.id = some (h, m) := by
  obtain ⟨b, hb, rfl⟩ := List.mem_map.mp hh
  exact ⟨_, look_of_mem hdb hb⟩

theorem parent_eq_some (hdb : db.Distinct) :
    db.parent h = some p ↔ p ∈ db.headers ∧ p.id = h.header.previous := by
  unfold parent
  rw [Option.map_eq_some_iff]
  constructor
  · rintro ⟨⟨p', m⟩, hlook, rfl⟩
    exact mem_of_look hlook
  · rintro ⟨hp, hid⟩
    obtain ⟨m, hm⟩ := exists_look hdb hp
    exact ⟨(p, m), hid ▸ hm, rfl⟩

theorem mem_of_path {l : List BlockHeaderState} (hdb : db.Distinct)
    (hh : h ∈ db.headers) (hl : Path db.parent h l r) :
    r ∈ db.headers ∧ ∀ b ∈ l, b ∈ db.headers := by
  induction hl with
  | nil => exact ⟨hh, fun b hb => absurd hb List.not_mem_nil⟩
  | @cons a p r l hp _ ih =>
    obtain ⟨hr, hl⟩ := ih ((parent_eq_some hdb).mp hp).1
    exact ⟨hr, List.forall_mem_cons.mpr ⟨hh, hl⟩⟩

theorem parent_eq_none : db.parent h = none ↔ db.getBlock h.header.previous = none := by
  simp [parent, look]

theorem exists_getBlock_of_parent (hp : db.parent h = some p) :
    ∃ b, db.getBlock h.header.previous = some b ∧ b.toBlockHeaderState = p := by
  obtain ⟨⟨p', m⟩, hlook, rfl⟩ := Option.map_eq_some_iff.mp hp
  obtain ⟨b, hb, heq⟩ := Option.map_eq_some_iff.mp hlook
  exact ⟨b, hb, (Prod.mk.inj heq).1⟩

theorem Numbered.ranked (hdb : db.Numbered) :
    Ranked db.parent (·.blockNum) { b | b ∈ db.headers } := by
  intro b hb p hp
  exact ⟨((parent_eq_some hdb.nodup).mp hp).1, hdb.next b hb p hp⟩

/-! ## Marks -/

/-- The blocks with these ids have the flag, and nothing else is different. -/
structure Marked (ids : List BlockId) (flag : Bool) (db db' : ForkDatabase) : Prop where
  nodup : (db'.headers.map (·.id)).Nodup
  look : ∀ id, db'.look id = (db.look id).map fun e => (e.1, if id ∈ ids then flag else e.2)

theorem Marked.refl (hdb : db.Distinct) : Marked [] flag db db := by
  refine ⟨hdb, fun id => ?_⟩
  simp

theorem Marked.trans (h₁ : Marked ids flag db db') (h₂ : Marked ids' flag db' db'') :
    Marked (ids ++ ids') flag db db'' := by
  refine ⟨h₂.nodup, fun id => ?_⟩
  rw [h₂.look, h₁.look, Option.map_map]
  congr 1
  funext e
  by_cases hid' : id ∈ ids'
  · simp [hid']
  · simp [hid']

theorem Marked.congr (h : Marked ids flag db db') (hids : ∀ id, id ∈ ids ↔ id ∈ ids') :
    Marked ids' flag db db' := by
  refine ⟨h.nodup, fun id => ?_⟩
  rw [h.look]
  simp only [hids]

theorem Marked.parent_eq (h : Marked ids flag db db') : db'.parent = db.parent := by
  funext b
  rw [parent, h.look, Option.map_map]
  rfl

theorem Marked.mem_headers_iff (hdb : db.Distinct) (hm : Marked ids flag db db') :
    h ∈ db'.headers ↔ h ∈ db.headers := by
  constructor
  · intro hh
    obtain ⟨m, hlook⟩ := exists_look hm.nodup hh
    rw [hm.look] at hlook
    obtain ⟨⟨h', m'⟩, hlook', heq⟩ := Option.map_eq_some_iff.mp hlook
    obtain ⟨rfl, -⟩ := Prod.mk.inj heq
    exact (mem_of_look hlook').1
  · intro hh
    obtain ⟨m, hlook⟩ := exists_look hdb hh
    have hlook' := hm.look h.id
    rw [hlook] at hlook'
    exact (mem_of_look hlook').1

theorem mem_replace {l r : List BlockState} {b x : BlockState} :
    x ∈ replace l b r ↔ x ∈ l ∨ x = b ∨ x ∈ r := by
  unfold replace
  split_ifs
  · rw [List.mem_append, List.mem_cons]
  · rw [BlockState.place, List.mem_orderedInsert, List.mem_append]
    tauto

theorem mem_remark {l : List BlockState} {x : BlockState} (hl : (l.map (·.id)).Nodup) :
    x ∈ remark id flag l ↔
      ∃ y ∈ l, x = if y.id = id then { y with inCurrentChain := flag } else y := by
  unfold remark
  have hsplit := List.takeWhile_append_dropWhile (p := fun b : BlockState => decide (b.id ≠ id))
    (l := l)
  have hbefore : ∀ y ∈ l.takeWhile (·.id ≠ id), y.id ≠ id := by
    intro y hy
    simpa using List.mem_takeWhile_imp hy
  cases hdrop : l.dropWhile (·.id ≠ id) with
  | nil =>
    rw [hdrop, List.append_nil] at hsplit
    rw [hsplit] at hbefore
    dsimp only
    constructor
    · intro hx
      exact ⟨x, hx, (if_neg (hbefore x hx)).symm⟩
    · rintro ⟨y, hy, rfl⟩
      rw [if_neg (hbefore y hy)]
      exact hy
  | cons b r =>
    rw [hdrop] at hsplit
    have hb : b.id = id := by
      have := List.head?_dropWhile_not (fun b : BlockState => decide (b.id ≠ id)) l
      rw [hdrop] at this
      simpa using this
    have hafter : ∀ y ∈ r, y.id ≠ id := by
      intro y hy hid
      rw [← hsplit, List.map_append, List.map_cons] at hl
      have := (List.nodup_cons.mp hl.of_append_right).1
      rw [hb, ← hid] at this
      exact this (List.mem_map_of_mem hy)
    dsimp only
    rw [mem_replace]
    constructor
    · rintro (hx | rfl | hx)
      · exact ⟨x, hsplit ▸ List.mem_append_left _ hx, (if_neg (hbefore x hx)).symm⟩
      · exact ⟨b, hsplit ▸ List.mem_append_right _ List.mem_cons_self, (if_pos hb).symm⟩
      · exact ⟨x, hsplit ▸ List.mem_append_right _ (List.mem_cons_of_mem b hx),
          (if_neg (hafter x hx)).symm⟩
    · rintro ⟨y, hy, rfl⟩
      rw [← hsplit, List.mem_append, List.mem_cons] at hy
      rcases hy with hy | rfl | hy
      · rw [if_neg (hbefore y hy)]
        exact .inl hy
      · rw [if_pos hb]
        exact .inr (.inl rfl)
      · rw [if_neg (hafter y hy)]
        exact .inr (.inr hy)

theorem look_markInCurrentChain (hdb : db.Distinct)
    (hmark : db.markInCurrentChain id flag = .ok db') : Marked [id] flag db db' := by
  have hnodup : db'.Distinct := (markInCurrentChain_sameHeaders hmark).distinct hdb
  have hindex := nodup_index hdb
  refine ⟨hnodup, fun i => ?_⟩
  unfold markInCurrentChain at hmark
  cases hb : db.getBlock id with
  | none =>
    rw [hb] at hmark
    cases hmark
  | some =>
    rw [hb] at hmark
    dsimp only at hmark
    split_ifs at hmark with hflag
    · obtain rfl := Except.ok.inj hmark
      by_cases hi : i = id
      · obtain rfl := hi
        simp [look, hb, hflag]
      · simp [hi]
    · obtain rfl := Except.ok.inj hmark
      ext ⟨h, m⟩
      rw [look_eq_some hnodup, Option.map_eq_some_iff]
      constructor
      · rintro ⟨x, hx, rfl, rfl, rfl⟩
        obtain ⟨y, hy, rfl⟩ := (mem_remark hindex).mp hx
        have hlook := look_of_mem hdb hy
        by_cases hid : y.id = id
        · rw [if_pos hid]
          exact ⟨_, hlook, by simp [hid]⟩
        · rw [if_neg hid]
          exact ⟨_, hlook, by simp [hid]⟩
      · rintro ⟨⟨h', m'⟩, hlook, heq⟩
        obtain ⟨y, hy, rfl, rfl, rfl⟩ := (look_eq_some hdb).mp hlook
        obtain ⟨rfl, rfl⟩ := Prod.mk.inj heq
        refine ⟨_, (mem_remark hindex).mpr ⟨y, hy, rfl⟩, ?_⟩
        by_cases hid : y.id = id
        · simp [hid]
        · simp [hid]

theorem exists_marked (hdb : db.Distinct) (hh : h ∈ db.headers) (flag : Bool) :
    ∃ db', db.markInCurrentChain h.id flag = .ok db' ∧ Marked [h.id] flag db db' := by
  obtain ⟨b, hb, rfl⟩ := List.mem_map.mp hh
  obtain ⟨db', hmark⟩ := exists_markInCurrentChain hb flag
  exact ⟨db', hmark, look_markInCurrentChain hdb hmark⟩

theorem look_validate (hdb : db.Distinct) (id : BlockId) (flag : Bool) :
    Marked [] flag db (db.validate id) := by
  have hnodup : (db.validate id).Distinct := (validate_sameHeaders id).distinct hdb
  refine ⟨hnodup, fun i => ?_⟩
  ext ⟨h, m⟩
  rw [look_eq_some hnodup]
  simp only [List.not_mem_nil, if_false, Option.map_id', look_eq_some hdb]
  show (∃ b ∈ db.index.map _, _) ↔ _
  constructor
  · rintro ⟨x, hx, rfl, rfl, rfl⟩
    obtain ⟨y, hy, rfl⟩ := List.mem_map.mp hx
    refine ⟨y, hy, ?_⟩
    split_ifs <;> exact ⟨rfl, rfl, rfl⟩
  · rintro ⟨y, hy, rfl, rfl, rfl⟩
    refine ⟨_, List.mem_map_of_mem hy, ?_⟩
    split_ifs <;> exact ⟨rfl, rfl, rfl⟩

/-! ## Blocks that are removed -/

theorem below_iff_reaches (hdb : db.Distinct) (hr : r ∈ db.headers)
    (hh : h ∈ db.headers) :
    Below (·.id) (·.header.previous) db.headers r.id h ↔ Reaches db.parent h r :=
  Commons.below_iff_reaches hdb (fun _ _ => parent_eq_some hdb) hr hh

theorem look_removed (hdb : db.Distinct) (hr : r ∈ db.headers) :
    (db.removed r.id).look id = some (h, m) ↔
      db.look id = some (h, m) ∧ ¬ Reaches db.parent h r := by
  have hindex := nodup_index hdb
  have hbelow : ∀ b ∈ db.index, (b ∈ (db.removed r.id).index ↔
      ¬ Reaches db.parent b.toBlockHeaderState r) := by
    intro b hb
    rw [← below_iff_reaches hdb hr (mem_headers hb), ← not_iff_not, not_not]
    have hheaders : b.toBlockHeaderState ∈ (db.removed r.id).headers ↔
        ¬ Below (·.id) (·.header.previous) db.headers r.id b.toBlockHeaderState := by
      rw [headers_removed, mem_sweepFrom hdb, and_iff_right (mem_headers hb)]
    rw [← not_iff_comm.mp hheaders.symm]
    refine not_congr ⟨fun h => mem_headers h, fun h => ?_⟩
    obtain ⟨b', hb', heq⟩ := List.mem_map.mp h
    have hmem : b' ∈ db.index := sweepFrom_sublist.subset hb'
    rwa [← eq_of_key_eq hindex hmem hb (congrArg (·.id) heq)]
  rw [look_eq_some (nodup_removed hdb), look_eq_some hdb]
  constructor
  · rintro ⟨b, hb, rfl, rfl, rfl⟩
    have hmem : b ∈ db.index := sweepFrom_sublist.subset hb
    exact ⟨⟨b, hmem, rfl, rfl, rfl⟩, (hbelow b hmem).mp hb⟩
  · rintro ⟨⟨b, hb, rfl, rfl, rfl⟩, hnot⟩
    exact ⟨b, (hbelow b hb).mpr hnot, rfl, rfl, rfl⟩

theorem mem_headers_removed (hdb : db.Distinct) (hr : r ∈ db.headers)
    (hh : h ∈ db.headers) (hnot : ¬ Reaches db.parent h r) : h ∈ (db.removed r.id).headers := by
  obtain ⟨m, hm⟩ := exists_look hdb hh
  exact (mem_of_look ((look_removed hdb hr).mpr ⟨hm, hnot⟩)).1

theorem path_removed {l : List BlockHeaderState} (hdb : db.Distinct)
    (hr : r ∈ db.headers) (hl : Path db.parent h l p) (hnot : ¬ Reaches db.parent h r) :
    Path (db.removed r.id).parent h l p := by
  induction hl with
  | nil a => exact .nil a
  | @cons a p q l hp _ ih =>
    have hnot' : ¬ Reaches db.parent p r := by
      rintro ⟨m, hm⟩
      exact hnot ⟨_, .cons hp hm⟩
    obtain ⟨hmem, hid⟩ := (parent_eq_some hdb).mp hp
    exact .cons ((parent_eq_some (nodup_removed hdb)).mpr
      ⟨mem_headers_removed hdb hr hmem hnot', hid⟩) (ih hnot')

/-! ## The branches from two blocks

The search first goes up from the block with the greater number until the numbers are equal, and
then from both blocks until they have the same parent. If there is a common ancestor, the search
does not pass it on both sides: it ends below it, or at it if one of the blocks is that ancestor. -/

def path (l : List BlockState) : List BlockHeaderState := l.map (·.toBlockHeaderState)

variable {a : BlockState} {l first second : List BlockHeaderState} {n : Nat}

theorem exists_theBlock (hp : db.parent h = some p) (msg : String) :
    ∃ b ∈ db.index, db.theBlock h.header.previous msg = .ok b ∧ b.toBlockHeaderState = p := by
  obtain ⟨b, hb, heq⟩ := exists_getBlock_of_parent hp
  exact ⟨b, (getBlock_eq_some hb).1, theBlock_eq_ok.mpr hb, heq⟩

theorem climb_spec (hdb : db.Numbered) (num : Nat) (hb : b ∈ db.index)
    (hl : Path db.parent b.toBlockHeaderState l r) (hr : r.blockNum ≤ num) (hn : l.length < n) :
    ∃ passed top m, db.climb num n b = .ok (passed, top) ∧ l = path passed ++ m ∧
      top ∈ db.index ∧ Path db.parent b.toBlockHeaderState (path passed) top.toBlockHeaderState ∧
      Path db.parent top.toBlockHeaderState m r ∧ top.blockNum = min b.blockNum num := by
  induction n generalizing b l with
  | zero => omega
  | succ n ih =>
    rw [climb]
    split_ifs with hlt
    · cases hl with
      | nil => omega
      | @cons _ p _ l hp hl =>
        obtain ⟨b', hb', hfind, rfl⟩ := exists_theBlock hp "block does not exist"
        have hnum := hdb.next b.toBlockHeaderState (mem_headers hb) b'.toBlockHeaderState hp
        rw [List.length_cons] at hn
        obtain ⟨passed, top, m, hclimb, rfl, htop, hpassed, hm, hmin⟩ := ih hb' hl (by omega)
        refine ⟨b :: passed, top, m, ?_, rfl, htop, .cons hp hpassed, hm, ?_⟩
        · rw [hfind, ok_bind, hclimb, ok_bind]
          rfl
        · rw [hmin]
          omega
    · exact ⟨[], b, l, rfl, rfl, hb, .nil _, hl, by omega⟩

theorem climbBoth_spec (hdb : db.Numbered) (ha : a ∈ db.index) (hb : b ∈ db.index)
    (hfirst : Path db.parent a.toBlockHeaderState first r)
    (hsecond : Path db.parent b.toBlockHeaderState second r) (hnum : a.blockNum = b.blockNum)
    (hn : first.length < n) :
    ∃ f s, db.climbBoth n a b = .ok (f, s) ∧ f ≠ [] ∧ s ≠ [] ∧
      ((first = [] ∧ second = [] ∧ path f = [r] ∧ path s = [r]) ∨
        ∃ m q, first = path f ++ m ∧ second = path s ++ m ∧
          Path db.parent a.toBlockHeaderState (path f) q ∧
          Path db.parent b.toBlockHeaderState (path s) q ∧ Path db.parent q m r) := by
  induction n generalizing a b first second with
  | zero => omega
  | succ n ih =>
    rw [climbBoth]
    have hlen₁ := (hdb.ranked.path (mem_headers ha) hfirst).2
    have hlen₂ := (hdb.ranked.path (mem_headers hb) hsecond).2
    cases hfirst with
    | nil =>
      rw [List.length_nil] at hlen₁
      obtain rfl : second = [] := List.length_eq_zero_iff.mp (by omega)
      have heq := Path.nil_iff.mp hsecond
      rw [if_neg (not_not.mpr (by rw [heq]))]
      exact ⟨[a], [b], rfl, by simp, by simp, .inl ⟨rfl, rfl, rfl, congrArg (fun x => [x]) heq⟩⟩
    | @cons _ p _ first hp hfirst =>
      rw [List.length_cons] at hlen₁ hn
      cases hsecond with
      | nil =>
        rw [List.length_nil] at hlen₂
        omega
      | @cons _ q _ second hq hsecond =>
        rw [List.length_cons] at hlen₂
        have hlen : first.length = second.length := by omega
        split_ifs with hprev
        · obtain ⟨a', ha', hfind, rfl⟩ := exists_theBlock hp "either block does not exist"
          obtain ⟨b', hb', hfind', rfl⟩ := exists_theBlock hq "either block does not exist"
          have hnum₁ := hdb.next a.toBlockHeaderState (mem_headers ha) _ hp
          have hnum₂ := hdb.next b.toBlockHeaderState (mem_headers hb) _ hq
          obtain ⟨f, s, hclimb, -, -, hcase⟩ := ih ha' hb' hfirst hsecond (by omega) (by omega)
          refine ⟨a :: f, b :: s, ?_, by simp, by simp, ?_⟩
          · rw [hfind, ok_bind, hfind', ok_bind, hclimb, ok_bind]
            rfl
          · rcases hcase with ⟨rfl, rfl, -, -⟩ | ⟨m, q, rfl, rfl, hf, hs, hm⟩
            · refine absurd ?_ hprev
              rw [← ((parent_eq_some hdb.nodup).mp hp).2, ← ((parent_eq_some hdb.nodup).mp hq).2,
                Path.nil_iff.mp hfirst, Path.nil_iff.mp hsecond]
            · exact .inr ⟨m, q, rfl, rfl, .cons hp hf, .cons hq hs, hm⟩
        · rw [not_not] at hprev
          have hparent : db.parent a.toBlockHeaderState = db.parent b.toBlockHeaderState := by
            rw [parent, parent, hprev]
          obtain rfl := Option.some.inj (hp.symm.trans (hparent.trans hq))
          obtain rfl := (hfirst.unique hsecond hlen).1
          exact ⟨[a], [b], rfl, by simp, by simp,
            .inr ⟨first, p, rfl, rfl, .cons hp (.nil p), .cons hq (.nil p), hfirst⟩⟩

/-- **The branches from two blocks** with a common ancestor `r`. -/
theorem fetchBranchFrom_spec (hdb : db.Numbered) (ha : a ∈ db.index) (hb : b ∈ db.index)
    (hfirst : Path db.parent a.toBlockHeaderState first r)
    (hsecond : Path db.parent b.toBlockHeaderState second r) :
    ∃ f s, db.fetchBranchFrom a.id b.id = .ok (f, s) ∧ f ≠ [] ∧ s ≠ [] ∧
      (((first = [] ∨ second = []) ∧ path f = first ++ [r] ∧ path s = second ++ [r]) ∨
        ∃ m q, first = path f ++ m ∧ second = path s ++ m ∧
          Path db.parent a.toBlockHeaderState (path f) q ∧
          Path db.parent b.toBlockHeaderState (path s) q ∧ Path db.parent q m r) := by
  have hranked := hdb.ranked
  have hr₁ := (hranked.path (mem_headers ha) hfirst).2
  have hr₂ := (hranked.path (mem_headers hb) hsecond).2
  have hheaders : db.headers.length = db.index.length := List.length_map _
  have hlen₁ := hranked.length_le (mem_headers ha) hfirst fun _ h => h
  have hlen₂ := hranked.length_le (mem_headers hb) hsecond fun _ h => h
  obtain ⟨passed₁, a', m₁, hclimb₁, rfl, ha', hpassed₁, hm₁, hnum₁⟩ :=
    climb_spec hdb b.blockNum ha hfirst (n := db.index.length + 1) (by omega) (by omega)
  have hr₃ := (hranked.path (mem_headers ha') hm₁).2
  obtain ⟨passed₂, b', m₂, hclimb₂, rfl, hb', hpassed₂, hm₂, hnum₂⟩ :=
    climb_spec hdb a'.blockNum hb hsecond (n := db.index.length + 1) (by omega) (by omega)
  rw [List.length_append] at hlen₁
  obtain ⟨f, s, hclimb, hf, hs, hcase⟩ :=
    climbBoth_spec hdb ha' hb' hm₁ hm₂ (by omega) (n := db.index.length + 1) (by omega)
  refine ⟨passed₁ ++ f, passed₂ ++ s, ?_, by simp [hf], by simp [hs], ?_⟩
  · have hfind₁ : db.theBlock a.id "null block" = .ok a :=
      theBlock_eq_ok.mpr (getBlock_of_mem hdb.nodup ha)
    have hfind₂ : db.theBlock b.id "null block" = .ok b :=
      theBlock_eq_ok.mpr (getBlock_of_mem hdb.nodup hb)
    rw [fetchBranchFrom, hfind₁, ok_bind, hfind₂, ok_bind, hclimb₁, ok_bind]
    dsimp only
    rw [hclimb₂, ok_bind]
    dsimp only
    rw [hclimb, ok_bind]
    rfl
  · have hsplit : ∀ x y : List BlockState, path (x ++ y) = path x ++ path y :=
      fun _ _ => List.map_append
    rw [hsplit, hsplit]
    rcases hcase with ⟨rfl, rfl, hf', hs'⟩ | ⟨m, q, rfl, rfl, hf', hs', hm⟩
    · refine .inl ⟨?_, ?_, ?_⟩
      · have h₁ := (hranked.path (mem_headers ha) hpassed₁).2
        have h₂ := (hranked.path (mem_headers hb) hpassed₂).2
        rw [List.append_nil, List.append_nil, ← List.length_eq_zero_iff, ← List.length_eq_zero_iff]
        omega
      · rw [hf', List.append_nil]
      · rw [hs', List.append_nil]
    · refine .inr ⟨m, q, (List.append_assoc _ _ _).symm, (List.append_assoc _ _ _).symm, ?_, ?_, hm⟩
      · exact Path.append_iff.mpr ⟨_, hpassed₁, hf'⟩
      · exact Path.append_iff.mpr ⟨_, hpassed₂, hs'⟩

end ForkDatabase

end BaccChain
