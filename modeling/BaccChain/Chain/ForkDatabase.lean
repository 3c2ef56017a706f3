import BaccChain.Chain.BlockHeaderSpec
import BaccChain.Commons.Subtree

/-!
# The fork database

The blocks that are not yet irreversible, as a tree of block states.

## Main definitions

* `insertBlock`, `remove`, `setValidity`, `prune`, `addConfirmation`: the operations
-/

namespace BaccChain

open Commons

/-- A block in the index. -/
structure BlockState extends BlockHeaderState where
  validated : Bool := false
  inCurrentChain : Bool := false
  /-- The place among equals in the order by irreversible block numbers. -/
  arrival : Nat := 0
  /-- The place among the blocks with the same parent. -/
  entry : Nat := 0

namespace BlockState

/-- The order by block number, blocks of the current chain first. -/
def Before (a b : BlockState) : Prop :=
  a.blockNum < b.blockNum ∨
    a.blockNum = b.blockNum ∧ a.inCurrentChain = true ∧ b.inCurrentChain = false

instance (a b : BlockState) : Decidable (a.Before b) := inferInstanceAs (Decidable (_ ∨ _))

/-- The order by irreversible block numbers: DPOS, BFT, and then the longer chain. -/
def Better (a b : BlockState) : Prop :=
  b.dposIrreversibleBlocknum < a.dposIrreversibleBlocknum ∨
    a.dposIrreversibleBlocknum = b.dposIrreversibleBlocknum ∧
    (b.bftIrreversibleBlocknum < a.bftIrreversibleBlocknum ∨
      a.bftIrreversibleBlocknum = b.bftIrreversibleBlocknum ∧
      (b.blockNum < a.blockNum ∨ a.blockNum = b.blockNum ∧ a.arrival < b.arrival))

instance (a b : BlockState) : Decidable (a.Better b) := inferInstanceAs (Decidable (_ ∨ _))

/-- The first block in the order by irreversible block numbers. -/
def best : List BlockState → Option BlockState
  | [] => none
  | b :: l =>
    match best l with
    | some a => if a.Better b then some a else some b
    | none => some b

/-- A block enters the order by block number, after its equals. -/
def place (b : BlockState) (l : List BlockState) : List BlockState := l.orderedInsert Before b

/-- A block that was changed where it stood: it stays if the order allows that, and moves if not. -/
def replace (l : List BlockState) (b : BlockState) (r : List BlockState) : List BlockState :=
  if (∀ x ∈ l.getLast?, ¬ b.Before x) ∧ ∀ y ∈ r.head?, ¬ y.Before b then l ++ b :: r
  else place b (l ++ r)

def remark (id : BlockId) (flag : Bool) (l : List BlockState) : List BlockState :=
  match l.dropWhile (·.id ≠ id) with
  | [] => l
  | b :: r => replace (l.takeWhile (·.id ≠ id)) { b with inCurrentChain := flag } r

/-- The block with a BFT irreversible number, at a new place among equals. -/
def raised (b : BlockState) (num arrival : Nat) : BlockState :=
  { b with bftIrreversibleBlocknum := num, arrival }

end BlockState

/-- The blocks in the order by block number, the head, and the number of blocks that ever
entered. -/
structure ForkDatabase where
  index : List BlockState := []
  head : Option BlockId := none
  arrivals : Nat := 0

namespace ForkDatabase

open BlockState

/-- `get_block`. -/
def getBlock (db : ForkDatabase) (id : BlockId) : Option BlockState := db.index.find? (·.id = id)

/-- `head`. -/
def headBlock (db : ForkDatabase) : Option BlockState := db.head.bind db.getBlock

/-- The head is the best block of the index. -/
def withHead (db : ForkDatabase) : ForkDatabase :=
  { db with head := (best db.index).map (·.id) }

/-- The head is the first block in the order by irreversible block numbers. The source reads the
first block of that order even if there is none. -/
def chooseHead (db : ForkDatabase) : Except String ForkDatabase := do
  check (db.index ≠ []) "first block of an empty index"
  pure db.withHead

def entering (db : ForkDatabase) (n : BlockState) : BlockState :=
  { n with arrival := db.arrivals, entry := db.arrivals }

/-- The index with a block that enters. -/
def withBlock (db : ForkDatabase) (n : BlockState) : List BlockState :=
  place (db.entering n) db.index

/-- `set`. -/
def set (c : Crypto) (db : ForkDatabase) (s : BlockState) : Except String ForkDatabase := do
  check (s.id = s.header.toBlockHeader.id c)
    "block state id is different from block state header id"
  check (db.getBlock s.id).isNone "unable to insert block state, duplicate state detected"
  let db' : ForkDatabase :=
    { db with index := db.withBlock s, arrivals := db.arrivals + 1 }
  match db.headBlock with
  | none => pure { db' with head := some s.id }
  | some h => pure (if h.blockNum < s.blockNum then { db' with head := some s.id } else db')

/-- The first part of `add`: the block enters the index, and the head is chosen again. -/
def insertBlock (db : ForkDatabase) (n : BlockState) (skipValidatePrevious : Bool) :
    Except String ForkDatabase := do
  check (db.head.isSome) "no head block set"
  check (skipValidatePrevious = true ∨ (db.getBlock n.header.previous).isSome) "unlinkable block"
  check (db.getBlock n.id).isNone "duplicate block added?"
  chooseHead { db with index := db.withBlock n, arrivals := db.arrivals + 1 }

/-- The second part of `add`: the oldest block, if it is below the last irreversible block of the
head. -/
def toPrune (db : ForkDatabase) : Option BlockState := do
  let head ← db.headBlock
  let oldest ← db.index.head?
  if oldest.blockNum < head.dposIrreversibleBlocknum then some oldest else none

/-- The index without a block and its descendants. -/
def swept (db : ForkDatabase) (id : BlockId) : ForkDatabase :=
  { db with index := sweepFrom (·.id) (·.header.previous) id db.index }

/-- A block is removed with all that builds on it, and the head is chosen again. -/
def remove (db : ForkDatabase) (id : BlockId) : Except String ForkDatabase :=
  (db.swept id).chooseHead

/-- What `remove` leaves, if it leaves a block. -/
def removed (db : ForkDatabase) (id : BlockId) : ForkDatabase := (db.swept id).withHead

/-- The index without a block. -/
def erase (db : ForkDatabase) (id : BlockId) : ForkDatabase :=
  { db with index := without (·.id) id db.index }

/-- A database of which nothing is known. -/
def lost (db : ForkDatabase) : ForkDatabase := { arrivals := db.arrivals }

/-- A block is marked as valid. -/
def validate (db : ForkDatabase) (id : BlockId) : ForkDatabase :=
  { db with index := db.index.map fun b => if b.id = id then { b with validated := true } else b }

/-- A block is marked as valid, or removed with all that builds on it. -/
def setValidity (db : ForkDatabase) (id : BlockId) (valid : Bool) : Except String ForkDatabase :=
  if valid then .ok (db.validate id) else db.remove id

/-- `mark_in_current_chain`. -/
def markInCurrentChain (db : ForkDatabase) (id : BlockId) (flag : Bool) :
    Except String ForkDatabase :=
  match db.getBlock id with
  | none => .error "could not find block in fork database"
  | some b =>
    if b.inCurrentChain = flag then .ok db else .ok { db with index := remark id flag db.index }

def theBlock (db : ForkDatabase) (id : BlockId) (msg : String) : Except String BlockState :=
  (db.getBlock id).elim (.error msg) .ok

/-! ## Pruning -/

/-- The block after a block in the index. -/
def after (db : ForkDatabase) (id : BlockId) : Option BlockId :=
  (db.index.dropWhile (·.id ≠ id)).tail.head?.map (·.id)

/-- The loop over the blocks with a number, at most `n` rounds. The iterator is the id of the block
that it stands at. -/
def removeLevel (num : Nat) : Nat → Option BlockId → ForkDatabase → Except String ForkDatabase
  | 0, _, _ => .error "more rounds than blocks"
  | _ + 1, none, db => .ok db
  | n + 1, some id, db => do
    let b ← db.theBlock id "iterator to an erased block"
    if b.blockNum = num then do
      let left ← db.remove id
      removeLevel num n (db.after id) left
    else pure db

/-- The blocks with a number are removed, each with all that builds on it. -/
def clearLevel (db : ForkDatabase) (num : Nat) : Except String ForkDatabase :=
  db.removeLevel num (db.index.length + 1) ((db.index.find? (num ≤ ·.blockNum)).map (·.id))

/-- The block is irreversible, and leaves the index; then the other blocks with its number go. -/
def pruneLevel (db : ForkDatabase) (h : BlockState) :
    Except String (List BlockState × ForkDatabase) := do
  let left ← (db.erase h.id).clearLevel h.blockNum
  pure ((db.getBlock h.id).toList, left)

/-- Lower blocks are pruned first, the first of the index each time: the blocks that were told to be
irreversible, and what is left. -/
def pruneLoop : Nat → ForkDatabase → BlockState → Except String (List BlockState × ForkDatabase)
  | 0, _, _ => .error "more rounds than blocks"
  | n + 1, db, h => do
    match db.index.head?.filter (·.blockNum < h.blockNum) with
    | some b =>
      let (lower, db) ← pruneLoop n db b
      let (rest, db) ← pruneLoop n db h
      pure (lower ++ rest, db)
    | none => db.pruneLevel h

/-- `prune`, with the blocks that it passes on. -/
def prune (db : ForkDatabase) (h : BlockState) : Except String (List BlockState × ForkDatabase) :=
  pruneLoop (db.index.length + 1) db h

/-! ## Branches -/

/-- Up the parents while the number is above `num`: the blocks on the way, and where it stops. -/
def climb (db : ForkDatabase) (num : Nat) :
    Nat → BlockState → Except String (List BlockState × BlockState)
  | 0, _ => .error "parents in a circle"
  | n + 1, b =>
    if num < b.blockNum then do
      let parent ← db.theBlock b.header.previous "block does not exist"
      let (passed, top) ← db.climb num n parent
      pure (b :: passed, top)
    else pure ([], b)

/-- Up the parents of two blocks until they have the same parent. -/
def climbBoth (db : ForkDatabase) :
    Nat → BlockState → BlockState → Except String (List BlockState × List BlockState)
  | 0, _, _ => .error "parents in a circle"
  | n + 1, a, b =>
    if a.header.previous ≠ b.header.previous then do
      let a' ← db.theBlock a.header.previous "either block does not exist"
      let b' ← db.theBlock b.header.previous "either block does not exist"
      let (first, second) ← db.climbBoth n a' b'
      pure (a :: first, b :: second)
    else pure ([a], [b])

/-- The branches from two blocks down to blocks with the same parent. The source reads the two
blocks without a check. -/
def fetchBranchFrom (db : ForkDatabase) (first second : BlockId) :
    Except String (List BlockState × List BlockState) := do
  let a ← db.theBlock first "null block"
  let b ← db.theBlock second "null block"
  let (passedA, a) ← db.climb b.blockNum (db.index.length + 1) a
  let (passedB, b) ← db.climb a.blockNum (db.index.length + 1) b
  let (restA, restB) ← db.climbBoth (db.index.length + 1) a b
  pure (passedA ++ restA, passedB ++ restB)

/-! ## Blocks that are received -/

/-- The state of a received block, on top of the state of its parent. -/
def createBlockState (c : Crypto) (db : ForkDatabase) (b : SignedBlockHeader)
    (skipValidateSignee : Bool) : Except String BlockState := do
  check (db.getBlock (b.toBlockHeader.id c)).isNone "we already know about this block"
  let prev ← db.theBlock b.previous "unlinkable block"
  let s ← prev.next c b skipValidateSignee
  pure { toBlockHeaderState := s }

/-! ## Confirmations that are sent apart from blocks -/

/-- A block gets a greater BFT irreversible number, and comes after its new equals in the order by
irreversible block numbers. -/
def raise (db : ForkDatabase) (num : Nat) (id : BlockId) : ForkDatabase :=
  { db with
    index := db.index.map fun b => if b.id = id then b.raised num db.arrivals else b
    arrivals := db.arrivals + 1 }

/-- The blocks on top of a block, in the order in which they entered. -/
def byPrev (db : ForkDatabase) (id : BlockId) : List BlockState :=
  (db.index.filter (·.header.previous = id)).insertionSort fun a b => a.entry ≤ b.entry

/-- A block with a smaller BFT irreversible number gets the number, and is noted. -/
def updateBlock (num : Nat) (acc : List BlockId × ForkDatabase) (b : BlockState) :
    List BlockId × ForkDatabase :=
  if b.bftIrreversibleBlocknum < num then (acc.1 ++ [b.id], acc.2.raise num b.id) else acc

/-- The children of a block get the number. -/
def updateNext (num : Nat) (acc : List BlockId × ForkDatabase) (id : BlockId) :
    List BlockId × ForkDatabase :=
  (acc.2.byPrev id).foldl (updateBlock num) acc

/-- One layer after the other, each of the blocks noted in the one before. -/
def updateLayers (num : Nat) : Nat → List BlockId → ForkDatabase → ForkDatabase
  | 0, _, db => db
  | _ + 1, [], db => db
  | n + 1, queue, db =>
    let (updated, db) := queue.foldl (updateNext num) ([], db)
    updateLayers num n updated db

/-- The block is BFT irreversible, and the blocks that build on it know. There are not more layers
than blocks. -/
def setBftIrreversible (db : ForkDatabase) (id : BlockId) : ForkDatabase :=
  match db.getBlock id with
  | none => db
  | some b => updateLayers b.blockNum db.index.length [id] (db.raise b.blockNum id)

/-- Two thirds of the producers have confirmed the block, and it is not yet BFT irreversible. -/
def BftQuorum (s : BlockHeaderState) : Prop :=
  s.bftIrreversibleBlocknum < s.blockNum ∧
    s.activeSchedule.producers.length * 2 / 3 + 1 ≤ s.confirmations.length

instance (s : BlockHeaderState) : Decidable (BftQuorum s) := inferInstanceAs (Decidable (_ ∧ _))

def setHeaderState (db : ForkDatabase) (id : BlockId) (s : BlockHeaderState) : ForkDatabase :=
  { db with index := db.index.map fun b =>
    if b.id = id then { b with toBlockHeaderState := s } else b }

/-- `add(header_confirmation)`. -/
def addConfirmation (c : Crypto) (db : ForkDatabase) (conf : HeaderConfirmation) :
    Except String ForkDatabase := do
  let b ← db.theBlock conf.blockId "unable to find block id"
  let s ← b.toBlockHeaderState.addConfirmation c conf
  let db := db.setHeaderState conf.blockId s
  pure (if BftQuorum s then db.setBftIrreversible conf.blockId else db)

/-! ## Marks and moves change no header state -/

/-- The header states of the index. -/
def headers (db : ForkDatabase) : List BlockHeaderState := db.index.map (·.toBlockHeaderState)

/-- No two blocks of the index have the same id. -/
abbrev Distinct (db : ForkDatabase) : Prop := (db.headers.map (·.id)).Nodup

/-- The index is in the order by block number. -/
def Sorted (db : ForkDatabase) : Prop := db.index.Pairwise fun a b => ¬ b.Before a

variable {db db' : ForkDatabase} {id : BlockId} {b n : BlockState} {l r : List BlockState}

theorem not_before_trans {a b d : BlockState} (hab : ¬ b.Before a) (hbd : ¬ d.Before b) :
    ¬ d.Before a := by
  unfold BlockState.Before at *
  grind

theorem before_asymm {a b : BlockState} (h : a.Before b) : ¬ b.Before a := by
  unfold BlockState.Before at *
  grind

theorem blockNum_le {a : BlockState} (h : ¬ b.Before a) : a.blockNum ≤ b.blockNum :=
  not_lt.mp fun hlt => h (.inl hlt)

theorem pairwise_place (h : l.Pairwise fun a b => ¬ b.Before a) :
    (place b l).Pairwise fun a b => ¬ b.Before a := by
  induction l with
  | nil => exact List.pairwise_singleton _ _
  | cons a l ih =>
    obtain ⟨ha, hl⟩ := List.pairwise_cons.mp h
    unfold BlockState.place
    rw [List.orderedInsert]
    split_ifs with hb
    · refine List.pairwise_cons.mpr ⟨fun x hx => ?_, h⟩
      rcases List.mem_cons.mp hx with rfl | hx
      · exact before_asymm hb
      · exact not_before_trans (before_asymm hb) (ha x hx)
    · refine List.pairwise_cons.mpr ⟨fun x hx => ?_, ih hl⟩
      rcases (List.mem_orderedInsert _).mp hx with rfl | hx
      · exact hb
      · exact ha x hx

theorem map_replace_perm :
    ((replace l b r).map (·.toBlockHeaderState)).Perm
      ((l ++ b :: r).map (·.toBlockHeaderState)) := by
  unfold replace
  split_ifs
  · exact List.Perm.refl _
  · exact ((List.perm_orderedInsert _ _ _).trans List.perm_middle.symm).map _

theorem pairwise_replace (h : (l ++ r).Pairwise fun a b => ¬ b.Before a) :
    (replace l b r).Pairwise fun a b => ¬ b.Before a := by
  unfold replace
  split_ifs with hstays
  · obtain ⟨hl, hr, hlr⟩ := List.pairwise_append.mp h
    have hbefore : ∀ x ∈ l, ¬ b.Before x := by
      rcases List.eq_nil_or_concat l with rfl | ⟨init, z, rfl⟩
      · simp
      · rw [List.concat_eq_append] at hl hstays ⊢
        have hz : ¬ b.Before z := hstays.1 z (by simp)
        intro x hx
        rcases List.mem_append.mp hx with hx | hx
        · exact not_before_trans ((List.pairwise_append.mp hl).2.2 x hx z (by simp)) hz
        · rwa [List.mem_singleton.mp hx]
    have hafter : ∀ y ∈ r, ¬ y.Before b := by
      cases r with
      | nil => simp
      | cons z =>
        have hz : ¬ z.Before b := hstays.2 z rfl
        refine List.forall_mem_cons.mpr ⟨hz, fun y hy => ?_⟩
        exact not_before_trans hz ((List.pairwise_cons.mp hr).1 y hy)
    exact List.pairwise_append.mpr ⟨hl, List.pairwise_cons.mpr ⟨hafter, hr⟩, fun x hx =>
      List.forall_mem_cons.mpr ⟨hbefore x hx, hlr x hx⟩⟩
  · exact pairwise_place h

theorem remark_eq (id : BlockId) (flag : Bool) (l : List BlockState) :
    remark id flag l = l ∨ ∃ l₁ b l₂, l = l₁ ++ b :: l₂ ∧ b.id = id ∧
      remark id flag l = replace l₁ { b with inCurrentChain := flag } l₂ := by
  have hsplit := List.takeWhile_append_dropWhile (p := fun b : BlockState => decide (b.id ≠ id))
    (l := l)
  have hfirst := List.head?_dropWhile_not (fun b : BlockState => decide (b.id ≠ id)) l
  unfold remark
  cases hdrop : l.dropWhile (·.id ≠ id) with
  | nil => exact .inl rfl
  | cons b r =>
    rw [hdrop] at hsplit hfirst
    exact .inr ⟨_, b, r, hsplit.symm, by simpa using hfirst, rfl⟩

theorem map_remark_perm (flag : Bool) :
    ((remark id flag l).map (·.toBlockHeaderState)).Perm (l.map (·.toBlockHeaderState)) := by
  rcases remark_eq id flag l with h | ⟨l₁, b, l₂, rfl, -, h⟩
  · rw [h]
  · rw [h]
    refine map_replace_perm.trans ?_
    simp

theorem pairwise_remark (flag : Bool) (h : l.Pairwise fun a b => ¬ b.Before a) :
    (remark id flag l).Pairwise fun a b => ¬ b.Before a := by
  rcases remark_eq id flag l with hr | ⟨l₁, b, l₂, rfl, -, hr⟩
  · rwa [hr]
  · rw [hr]
    exact pairwise_replace (h.sublist ((List.sublist_cons_self b l₂).append_left l₁))

theorem without_replace (hb : b.id = id) :
    without (·.id) id (replace l b r) = without (·.id) id (l ++ r) := by
  unfold replace
  split_ifs
  · simp [without, hb]
  · generalize l ++ r = m
    induction m with
    | nil => simp [place, without, hb]
    | cons a m ih =>
      unfold place at ih ⊢
      rw [List.orderedInsert]
      split_ifs
      · simp [without, hb]
      · simp only [without, List.filter_cons] at ih ⊢
        rw [ih]

theorem without_remark (flag : Bool) :
    without (·.id) id (remark id flag l) = without (·.id) id l := by
  rcases remark_eq id flag l with hr | ⟨l₁, b, l₂, rfl, hid, hr⟩
  · rw [hr]
  · rw [hr, without_replace (b := { b with inCurrentChain := flag }) hid]
    simp [without, hid]

/-- The same header states in an index that is still in order. -/
structure SameHeaders (db db' : ForkDatabase) : Prop where
  perm : db'.headers.Perm db.headers
  sorted : db.Sorted → db'.Sorted

theorem SameHeaders.refl (db : ForkDatabase) : SameHeaders db db := ⟨List.Perm.refl _, fun h => h⟩

theorem SameHeaders.trans {db'' : ForkDatabase} (h : SameHeaders db db')
    (h' : SameHeaders db' db'') : SameHeaders db db'' :=
  ⟨h'.perm.trans h.perm, fun hs => h'.sorted (h.sorted hs)⟩

theorem SameHeaders.distinct (h : SameHeaders db db') (hdb : db.Distinct) : db'.Distinct :=
  (h.perm.map _).nodup_iff.mpr hdb

theorem markInCurrentChain_sameHeaders {flag : Bool}
    (h : db.markInCurrentChain id flag = .ok db') : SameHeaders db db' := by
  unfold markInCurrentChain at h
  split at h
  next => cases h
  next b hb =>
    split_ifs at h
    · cases h
      exact SameHeaders.refl db
    · cases h
      exact ⟨map_remark_perm flag, pairwise_remark flag⟩

theorem exists_markInCurrentChain (hb : b ∈ db.index) (flag : Bool) :
    ∃ db', db.markInCurrentChain b.id flag = .ok db' := by
  unfold markInCurrentChain
  cases hfind : db.getBlock b.id with
  | none =>
    have := List.find?_eq_none.mp hfind b hb
    simp at this
  | some =>
    dsimp only
    split_ifs
    · exact ⟨_, rfl⟩
    · exact ⟨_, rfl⟩

theorem validate_sameHeaders (id : BlockId) : SameHeaders db (db.validate id) := by
  refine ⟨List.Perm.of_eq ?_, fun h => ?_⟩
  · show (db.index.map _).map _ = db.index.map _
    rw [List.map_map]
    refine List.map_congr_left fun b _ => ?_
    rw [Function.comp_apply]
    split_ifs <;> rfl
  · show (db.index.map _).Pairwise _
    rw [List.pairwise_map]
    refine h.imp fun {a b} hab => ?_
    split_ifs <;> exact hab

theorem erase_markInCurrentChain {flag : Bool} (h : db.markInCurrentChain id flag = .ok db') :
    (db'.erase id).index = (db.erase id).index := by
  unfold markInCurrentChain at h
  split at h
  next => cases h
  next b hb =>
    split_ifs at h
    · cases h
      rfl
    · cases h
      exact without_remark flag

theorem erase_validate : ((db.validate id).erase id).index = (db.erase id).index := by
  show without (·.id) id (db.index.map _) = without (·.id) id db.index
  induction db.index with
  | nil => rfl
  | cons b l ih =>
    rw [without, without] at ih ⊢
    by_cases hb : b.id = id
    · rw [List.map_cons, if_pos hb, List.filter_cons_of_neg (by simpa using hb),
        List.filter_cons_of_neg (by simpa using hb), ih]
    · rw [List.map_cons, if_neg hb, List.filter_cons_of_pos (by simpa using hb),
        List.filter_cons_of_pos (by simpa using hb), ih]

/-! ## What the operations do to the header states -/

theorem chooseHead_eq_ok : db.chooseHead = .ok db' ↔ db.index ≠ [] ∧ db' = db.withHead := by
  simp only [chooseHead, ok_iff]

theorem remove_eq_ok :
    db.remove id = .ok db' ↔ (db.removed id).index ≠ [] ∧ db' = db.removed id := chooseHead_eq_ok

theorem headers_removed : (db.removed id).headers =
    sweepFrom (·.id) (·.header.previous) id db.headers :=
  map_sweepFrom BlockHeaderState.id (·.header.previous) BlockState.toBlockHeaderState id db.index

theorem headers_erase : (db.erase id).headers = without (·.id) id db.headers := by
  unfold headers erase without
  rw [List.filter_map]
  rfl

theorem nodup_removed (hdb : db.Distinct) : (db.removed id).Distinct := by
  rw [Distinct, headers_removed]
  exact hdb.sublist (sweepFrom_sublist.map _)

theorem nodup_erase (hdb : db.Distinct) : (db.erase id).Distinct := by
  rw [Distinct, headers_erase]
  exact nodup_without hdb

theorem Sorted.removed (h : db.Sorted) : (db.removed id).Sorted := h.sublist sweepFrom_sublist

theorem Sorted.erase (h : db.Sorted) : (db.erase id).Sorted := h.sublist without_sublist

theorem Sorted.first_le (h : db.Sorted) (hfirst : db.index.head? = some b) :
    ∀ s ∈ db.headers, b.blockNum ≤ s.blockNum := by
  intro s hs
  obtain ⟨a, ha, rfl⟩ := List.mem_map.mp hs
  unfold Sorted at h
  cases hi : db.index with
  | nil =>
    rw [hi] at hfirst
    cases hfirst
  | cons =>
    rw [hi] at hfirst h ha
    cases hfirst
    rcases List.mem_cons.mp ha with rfl | ha
    · exact le_rfl
    · exact blockNum_le ((List.pairwise_cons.mp h).1 a ha)

theorem getBlock_eq_some (h : db.getBlock id = some b) : b ∈ db.index ∧ b.id = id :=
  ⟨List.mem_of_find?_eq_some h, by simpa using List.find?_some h⟩

theorem getBlock_isNone (h : (db.getBlock id).isNone = true) : ∀ s ∈ db.headers, s.id ≠ id := by
  intro s hs
  obtain ⟨b, hb, rfl⟩ := List.mem_map.mp hs
  have := List.find?_eq_none.mp (Option.isNone_iff_eq_none.mp h) b hb
  simpa using this

theorem mem_headers (h : b ∈ db.index) : b.toBlockHeaderState ∈ db.headers := List.mem_map_of_mem h

theorem map_id_headers (db : ForkDatabase) :
    db.headers.map (·.id) = db.index.map (·.id) := List.map_map

theorem distinct_iff : db.Distinct ↔ (db.index.map (·.id)).Nodup := by
  rw [Distinct, map_id_headers]

theorem nodup_index (hdb : db.Distinct) : (db.index.map (·.id)).Nodup := distinct_iff.mp hdb

theorem getBlock_of_mem (hdb : db.Distinct) (hb : b ∈ db.index) :
    db.getBlock b.id = some b := by
  cases hfind : db.getBlock b.id with
  | none =>
    have := List.find?_eq_none.mp hfind b hb
    simp at this
  | some =>
    obtain ⟨ha, hid⟩ := getBlock_eq_some hfind
    rw [eq_of_key_eq (nodup_index hdb) ha hb hid]

theorem theBlock_eq_ok {msg : String} : db.theBlock id msg = .ok b ↔ db.getBlock id = some b := by
  unfold theBlock
  cases db.getBlock id <;> simp

theorem headBlock_mem (h : db.headBlock = some b) : b ∈ db.index := by
  obtain ⟨id, -, hid⟩ := Option.bind_eq_some_iff.mp h
  exact (getBlock_eq_some hid).1

theorem insertBlock_eq_ok (h : db.insertBlock n false = .ok db') :
    (∃ p, db.getBlock n.header.previous = some p) ∧ (∀ s ∈ db.headers, s.id ≠ n.id) ∧
      db'.headers.Perm (n.toBlockHeaderState :: db.headers) ∧ (db.Sorted → db'.Sorted) := by
  simp only [insertBlock, ok_iff, chooseHead_eq_ok] at h
  obtain ⟨-, hprev, hnew, -, rfl⟩ := h
  refine ⟨?_, getBlock_isNone hnew, (List.perm_orderedInsert _ _ _).map _, pairwise_place⟩
  exact Option.isSome_iff_exists.mp (hprev.resolve_left (by decide))

theorem insertBlock_index {skip : Bool} (h : db.insertBlock n skip = .ok db') :
    db'.index = db.withBlock n := by
  simp only [insertBlock, ok_iff, chooseHead_eq_ok] at h
  obtain ⟨-, -, -, -, rfl⟩ := h
  rfl

theorem exists_headBlock_of_toPrune (h : db.toPrune = some b) :
    ∃ a, db.headBlock = some a ∧ b.blockNum < a.dposIrreversibleBlocknum := by
  obtain ⟨a, ha, h⟩ := Option.bind_eq_some_iff.mp h
  obtain ⟨o, -, h⟩ := Option.bind_eq_some_iff.mp h
  split_ifs at h with hlt
  cases h
  exact ⟨a, ha, hlt⟩

theorem toPrune_eq_some (h : db.toPrune = some b) : db.index.head? = some b ∧
    ∀ a, db.headBlock = some a → b.blockNum < a.dposIrreversibleBlocknum := by
  obtain ⟨a, ha, h⟩ := Option.bind_eq_some_iff.mp h
  obtain ⟨o, ho, h⟩ := Option.bind_eq_some_iff.mp h
  split_ifs at h with hlt
  cases h
  refine ⟨ho, fun a' ha' => ?_⟩
  obtain rfl : a = a' := Option.some.inj (ha.symm.trans ha')
  exact hlt

theorem createBlockState_eq_ok {c : Crypto} {h : SignedBlockHeader} {skip : Bool}
    (hn : db.createBlockState c h skip = .ok n) :
    ∃ p, db.getBlock h.previous = some p ∧
      p.toBlockHeaderState.next c h skip = .ok n.toBlockHeaderState := by
  simp only [createBlockState, ok_iff, theBlock_eq_ok] at hn
  obtain ⟨-, p, hp, s, hs, rfl⟩ := hn
  exact ⟨p, hp, hs⟩

end ForkDatabase

end BaccChain
