import BaccChain.Chain.Controller
import BaccChain.Commons.Run
import BaccChain.Properties.BlockTree

/-!
# The chain of irreversible blocks

The fork database prunes the oldest level of its index when the head's last irreversible block is
above it, and passes on the first block of the level: the one of the current chain, and if none is
marked, the one that came first.

## Main definitions

* `Orderly`: a push that leaves a tree
* `SwitchInvariant`: what a fork switch keeps

## Main results

* `irreversible_isChain`: each irreversible block is the parent of the next
* `head_removed_twoBranches`: the head is pruned
-/

namespace BaccChain

open Commons

namespace Controller

open Attempt ForkDatabase

variable {σ : Type} {c : Crypto} {e : Push σ} {ctl ctl' : Controller σ} {anchor : BlockId}
  {o : BlockState}

/-! ## The handler of the signal -/

/-- The fork database hangs on the last block of the block log, which in the read mode for
irreversible blocks is the head. -/
structure Rooted (anchor : BlockId) (ctl : Controller σ) : Prop where
  tree : Tree anchor ctl.forkDb.headers
  sorted : ctl.forkDb.Sorted
  logHead_numbered : numFromId ctl.logHead.id = ctl.logHead.blockNum
  logHead_eq : ctl.logHead.id = anchor ∨ ctl.logHead.blockNum = 1 ∧
    ∀ b ∈ ctl.forkDb.headers, b.header.previous = anchor → b.id = ctl.logHead.id
  head_eq : ctl.readMode = .irreversible →
    ctl.head.id = ctl.logHead.id ∧ ctl.head.blockNum = ctl.logHead.blockNum

def Executes (ctl : Controller σ) (e : Push σ) (o : BlockState) : Prop :=
  ctl.readMode = .irreversible → o.blockNum = add32 ctl.head.blockNum 1 →
    ∃ s, e.applyBlock o.toBlockHeaderState ctl.state = .ok s

/-- What the handler leaves: the same header states, and the block as the last of the log. -/
structure Handled (o : BlockState) (ctl ctl' : Controller σ) : Prop where
  readMode : ctl'.readMode = ctl.readMode
  forkDb : SameHeaders ctl.forkDb ctl'.forkDb
  erased : (ctl'.forkDb.erase o.id).index = (ctl.forkDb.erase o.id).index
  irreversible : ctl'.irreversible = ctl.irreversible
  logHead_id : ctl'.logHead.id = o.id
  logHead_numbered : numFromId ctl'.logHead.id = ctl'.logHead.blockNum
  head_eq : ctl'.readMode = .irreversible →
    ctl'.head.id = ctl'.logHead.id ∧ ctl'.head.blockNum = ctl'.logHead.blockNum

theorem appendsToLog_ok (hr : Rooted anchor ctl) (ho : o ∈ ctl.forkDb.index)
    (hprev : o.header.previous = anchor) :
    (appendsToLog ctl.logHead o = .ok true ∧ o.blockNum = ctl.logHead.blockNum + 1) ∨
      (appendsToLog ctl.logHead o = .ok false ∧ o.blockNum = 1 ∧ ctl.logHead.blockNum = 1 ∧
        ctl.logHead.id = o.id) := by
  have hom := mem_headers ho
  have hnum := hr.tree.numbered_previous _ hom
  unfold appendsToLog
  rcases hr.logHead_eq with hlog | ⟨hlog, hfirst⟩
  · left
    rw [hprev, ← hlog, hr.logHead_numbered] at hnum
    have hlt : ctl.logHead.blockNum < o.blockNum := by omega
    refine ⟨?_, hnum⟩
    rw [if_pos hlt, check, if_pos (by omega), check, if_pos (hprev.trans hlog.symm)]
    rfl
  · right
    have hid : o.id = ctl.logHead.id := hfirst _ hom hprev
    have ho1 : o.blockNum = ctl.logHead.blockNum := by
      rw [← hr.logHead_numbered, ← hid]
      exact (hr.tree.numbered _ hom).symm
    refine ⟨if_neg (by omega), by omega, hlog, hid.symm⟩

theorem executeIrreversible_of_advanceHead {ctl₁ : Controller σ}
    (h : advanceHead e o ctl = (.ok (), ctl₁)) (ho : o ∈ ctl₁.forkDb.index)
    (hid : ctl₁.head.id = o.id) :
    ∃ db, executeIrreversible e o ctl = (.ok (), { ctl₁ with forkDb := db }) ∧
      SameHeaders ctl₁.forkDb db ∧ (db.erase o.id).index = (ctl₁.forkDb.erase o.id).index := by
  obtain ⟨db, hdb⟩ := exists_markInCurrentChain ho true
  refine ⟨db.validate ctl₁.head.id, ?_,
    (markInCurrentChain_sameHeaders hdb).trans (validate_sameHeaders _), ?_⟩
  swap
  · rw [hid, erase_validate]
    exact erase_markInCurrentChain hdb
  rw [← hid] at hdb
  unfold executeIrreversible
  rw [bind_of_ok h, read_bind]
  have hmark : markInCurrentChain ctl₁.head.id true ctl₁ =
      (.ok (), { ctl₁ with forkDb := db }) := by
    unfold markInCurrentChain
    rw [read_bind, lift_bind_of_ok hdb]
    rfl
  rw [bind_of_ok hmark]
  rfl

theorem advanceHead_of_due (ctl : Controller σ)
    (hdue : o.blockNum = add32 ctl.head.blockNum 1) {s : σ}
    (hs : e.applyBlock o.toBlockHeaderState ctl.state = .ok s) :
    advanceHead e o ctl = (.ok (), { ctl.session s with head := o.toBlockHeaderState }) := by
  unfold advanceHead
  rw [read_bind, if_pos hdue]
  have happly : applyBlock e o ctl = (.ok (), ctl.session s) := by
    unfold applyBlock
    rw [read_bind, lift_bind_of_ok hs]
    rfl
  rw [bind_of_ok happly]
  rfl

theorem advanceHead_of_genesis (ctl : Controller σ)
    (hdue : o.blockNum ≠ add32 ctl.head.blockNum 1) (hhead : ctl.head.blockNum = 1) :
    advanceHead e o ctl = (.ok (), ctl) := by
  unfold advanceHead
  rw [read_bind, if_neg hdue, check, if_pos hhead]
  rfl

/-- **The handler returns** when it is given the next block, what is written is taken, and the block
executes if it is due: the assertions on the block log hold. -/
theorem onIrreversible_ok (hr : Rooted anchor ctl) (ho : o ∈ ctl.forkDb.index)
    (hprev : o.header.previous = anchor) (hwrites : e.writes = true) (hexec : Executes ctl e o) :
    ∃ ctl', onIrreversible e o ctl = (.ok (), ctl') ∧ Handled o ctl ctl' := by
  have hom := mem_headers ho
  have honum : numFromId o.id = o.blockNum := hr.tree.numbered _ hom
  have hlt : o.blockNum < 2 ^ 32 := by
    rw [← honum]
    exact endianReverse32_lt _
  have hcheck : check (e.writes = true) "write failed" = .ok () := if_pos hwrites
  unfold onIrreversible
  rw [read_bind]
  rcases appendsToLog_ok hr ho hprev with ⟨happend, hnum⟩ | ⟨happend, hone, hlog, hid⟩
  · rw [lift_bind_of_ok happend, update_bind, lift_bind_of_ok hcheck, update_bind]
    by_cases hmode : ctl.readMode = .irreversible
    · rw [if_pos hmode]
      obtain ⟨-, hhead⟩ := hr.head_eq hmode
      have hdue : o.blockNum = add32 ctl.head.blockNum 1 := by
        rw [hhead]
        exact hnum.trans (Nat.mod_eq_of_lt (by omega)).symm
      obtain ⟨s, hs⟩ := hexec hmode hdue
      have hadvance := advanceHead_of_due ((ctl.commitSessions o.blockNum).writeLog o true) hdue hs
      obtain ⟨db, hdb, hsame, herased⟩ := executeIrreversible_of_advanceHead hadvance ho rfl
      exact ⟨_, hdb, rfl, hsame, herased, rfl, rfl, honum, fun _ => ⟨rfl, rfl⟩⟩
    · rw [if_neg hmode]
      exact ⟨_, rfl, rfl, SameHeaders.refl _, rfl, rfl, rfl, honum, fun h => absurd h hmode⟩
  · rw [lift_bind_of_ok happend, update_bind, lift_bind_of_ok hcheck, update_bind]
    by_cases hmode : ctl.readMode = .irreversible
    · rw [if_pos hmode]
      obtain ⟨hheadid, hhead⟩ := hr.head_eq hmode
      have hdue : o.blockNum ≠ add32 ctl.head.blockNum 1 := by
        rw [hhead, hlog, hone]
        decide
      have hadvance := advanceHead_of_genesis (e := e)
        ((ctl.commitSessions o.blockNum).writeLog o false) hdue
        (hhead.trans hlog)
      obtain ⟨db, hdb, hsame, herased⟩ :=
        executeIrreversible_of_advanceHead hadvance ho (hheadid.trans hid)
      exact ⟨_, hdb, rfl, hsame, herased, rfl, hid, hr.logHead_numbered, hr.head_eq⟩
    · rw [if_neg hmode]
      exact ⟨_, rfl, rfl, SameHeaders.refl _, rfl, rfl, hid, hr.logHead_numbered, hr.head_eq⟩

/-! ## Pruning -/

/-- The node's blocks that were passed on form a chain on which its fork database hangs. -/
structure Sound (anchor : BlockId) (ctl : Controller σ) : Prop extends Rooted anchor ctl where
  isChain : ctl.irreversible.IsChain fun s t => t.header.previous = s.id
  last : ∀ s ∈ ctl.irreversible.getLast?, s.id = anchor

theorem headers_foldl_removed (l : List BlockState) (db : ForkDatabase) :
    (l.foldl (fun db b => db.removed b.id) db).headers = (l.map (·.id)).foldl
      (fun l id => sweepFrom (·.id) (·.header.previous) id l) db.headers := by
  induction l generalizing db with
  | nil => rfl
  | cons b l ih =>
    rw [List.foldl_cons, ih, headers_removed]
    rfl

variable {db : ForkDatabase}

theorem Sorted.foldl_removed (h : db.Sorted) (l : List BlockState) :
    (l.foldl (fun db b => db.removed b.id) db).Sorted := by
  induction l generalizing db with
  | nil => exact h
  | cons b l ih => exact ih h.removed

theorem headers_withoutLevel (db : ForkDatabase) (o : BlockState) :
    (db.withoutLevel o).headers = Tree.pruned o.toBlockHeaderState db.headers := by
  rw [withoutLevel, cleared, headers_foldl_removed, headers_erase, Tree.pruned, ← headers_erase]
  unfold headers
  rw [List.filter_map, List.map_map]
  rfl

theorem pruneLevel_eq (ho : ctl.forkDb.getBlock o.id = some o)
    (h : emitIrreversible e o ctl = (.ok (), ctl')) :
    pruneLevel e o ctl = changeForkDb (·.clearLevel o.blockNum)
      { ctl' with forkDb := ctl'.forkDb.erase o.id } := by
  have hsignal : signalIrreversible e o ctl =
      (.ok (), { ctl' with forkDb := ctl'.forkDb.erase o.id }) := by
    unfold signalIrreversible
    rw [read_bind, ho]
    exact bind_of_ok h
  exact bind_of_ok hsignal

theorem pruneLevel_of_ok (ho : ctl.forkDb.getBlock o.id = some o)
    (h : emitIrreversible e o ctl = (.ok (), ctl'))
    (hdb : ctl'.forkDb.Distinct) (hsorted : ctl'.forkDb.Sorted)
    (hold : ∀ b ∈ ctl'.forkDb.headers, o.blockNum ≤ b.blockNum)
    (hpasses : Passes o.blockNum (ctl'.forkDb.erase o.id).index) :
    pruneLevel e o ctl = (.ok (), { ctl' with forkDb := ctl'.forkDb.withoutLevel o }) := by
  rw [pruneLevel_eq ho h]
  refine changeForkDb_of_ok ((clearLevel_eq_ok (nodup_erase hdb) hsorted.erase fun b hb => ?_).mpr
    ⟨hpasses, rfl⟩)
  exact hold _ (mem_headers (mem_without.mp hb).1)

theorem pruneLevel_ok (hs : Sound anchor ctl) (ho : o ∈ ctl.forkDb.index)
    (hold : ∀ b ∈ ctl.forkDb.headers, o.blockNum ≤ b.blockNum) (hwrites : e.writes = true)
    (hexec : Executes ctl e o) (hpasses : Passes o.blockNum (ctl.forkDb.erase o.id).index) :
    ∃ ctl' l, pruneLevel e o ctl = (.ok (), ctl') ∧
      Sound o.id ctl' ∧ ctl'.readMode = ctl.readMode ∧
      ctl'.irreversible = ctl.irreversible ++ [o] ∧ l.Perm ctl.forkDb.headers ∧
      ctl'.forkDb.headers = Tree.pruned o.toBlockHeaderState l := by
  have hom := mem_headers ho
  have hprev := hs.tree.previous_of_oldest hom hold
  have hrooted : Rooted anchor { ctl with irreversible := ctl.irreversible ++ [o] } :=
    ⟨hs.tree, hs.sorted, hs.logHead_numbered, hs.logHead_eq, hs.head_eq⟩
  obtain ⟨ctl₁, hhandler, hh⟩ := onIrreversible_ok hrooted ho hprev hwrites hexec
  have ht₁ : Tree anchor ctl₁.forkDb.headers := hs.tree.perm hh.forkDb.perm
  have hom₁ := hh.forkDb.perm.mem_iff.mpr hom
  have hold₁ : ∀ b ∈ ctl₁.forkDb.headers, o.blockNum ≤ b.blockNum := fun b hb =>
    hold b (hh.forkDb.perm.mem_iff.mp hb)
  refine ⟨_, ctl₁.forkDb.headers, pruneLevel_of_ok (getBlock_of_mem hs.tree.nodup ho) hhandler
    ht₁.nodup (hh.forkDb.sorted hs.sorted) hold₁ (hh.erased ▸ hpasses), ?_, hh.readMode,
    hh.irreversible, hh.forkDb.perm, headers_withoutLevel _ o⟩
  refine ⟨⟨?_, ?_, hh.logHead_numbered, .inl hh.logHead_id, hh.head_eq⟩, ?_, ?_⟩
  · show Tree o.id (ctl₁.forkDb.withoutLevel o).headers
    rw [headers_withoutLevel]
    exact ht₁.prune hom₁ hold₁
  · exact Sorted.foldl_removed (hh.forkDb.sorted hs.sorted).erase _
  · show ctl₁.irreversible.IsChain _
    rw [hh.irreversible]
    refine List.isChain_append.mpr ⟨hs.isChain, List.isChain_singleton o, fun s hlast t ht => ?_⟩
    obtain rfl : o = t := by simpa using ht
    rw [hs.last s hlast]
    exact hprev
  · show ∀ s ∈ ctl₁.irreversible.getLast?, s.id = o.id
    rw [hh.irreversible]
    simp

theorem prune_of_oldest (ho : ctl.forkDb.index.head? = some o) :
    prune e o ctl = pruneLevel e o ctl := by
  unfold prune
  rw [read_bind]
  have hbelow : ∀ n, pruneBelow e o.blockNum n ctl = (.ok (), ctl) := by
    intro n
    cases n with
    | zero => rfl
    | succ =>
      rw [pruneBelow, read_bind, ho]
      exact congrFun (if_neg (lt_irrefl _)) ctl
  rw [bind_of_ok (hbelow _)]

/-! ## Received blocks -/

/-- A push that does not make block numbers wrap. If the DPOS irreversible number of the new block
or of one in the index is above the first block of the index, then that block is an ancestor of it,
the first block above its level builds on it, and the handler of the signal has nothing to throw
about. -/
def Orderly (c : Crypto) (ctl : Controller σ) (e : Push σ) : Prop :=
  numFromId e.block.previous + 1 < 2 ^ 32 ∧
    ∀ n, ctl.forkDb.createBlockState c e.block false = .ok n → ∀ o ∈ ctl.forkDb.index.head?,
      ∀ h ∈ n.toBlockHeaderState :: ctl.forkDb.headers, o.blockNum < h.dposIrreversibleBlocknum →
        e.writes = true ∧ Executes ctl e o ∧
        Descends (n.toBlockHeaderState :: ctl.forkDb.headers) o.id h ∧
        ∀ m ∈ (ctl.forkDb.withBlock n).find? (o.blockNum < ·.blockNum), m.header.previous = o.id

/-- What a push passes to the signal is the head that was chosen in it or an ancestor of it, and the
head is still in the index after the fork database has pruned. -/
def HeadKept (c : Crypto) (ctl : Controller σ) (e : Push σ) : Prop :=
  ∀ db, ctl.forkDb.linked c e.block = .ok db → ∀ h ∈ db.headBlock,
    (∀ s ∈ (addReceived c e ctl).2.irreversible.drop ctl.irreversible.length,
      Descends db.headers s.id h.toBlockHeaderState) ∧
    ∃ b ∈ (addReceived c e ctl).2.forkDb.index, b.id = h.id

theorem addReceived_of_error {msg : String} (h : ctl.forkDb.linked c e.block = .error msg) :
    addReceived c e ctl = (.error msg, ctl) := by
  unfold addReceived
  rw [read_bind]
  unfold linked at h
  cases hn : ctl.forkDb.createBlockState c e.block false with
  | error =>
    rw [hn] at h
    cases h
    exact lift_bind_of_error rfl
  | ok =>
    rw [hn] at h
    rw [lift_bind_of_ok rfl]
    unfold add
    rw [read_bind]
    exact lift_bind_of_error h

theorem addReceived_of_linked (h : ctl.forkDb.linked c e.block = .ok db) :
    addReceived c e ctl = (match db.toPrune with
      | some oldest => prune e oldest
      | none => pure ()) { ctl with forkDb := db } := by
  obtain ⟨n, hn, hinsert⟩ := bind_eq_ok.mp h
  unfold addReceived
  rw [read_bind, lift_bind_of_ok hn]
  unfold add
  rw [read_bind, lift_bind_of_ok hinsert]
  rfl

theorem Sound.linked (hs : Sound anchor ctl) (h : ctl.forkDb.linked c e.block = .ok db)
    (hwrap : numFromId e.block.previous + 1 < 2 ^ 32) : Sound anchor { ctl with forkDb := db } := by
  obtain ⟨ht, hsorted, n, ⟨p, hp, hnp⟩, hperm⟩ := linked_eq_ok h hs.tree hwrap
  refine ⟨⟨ht, hsorted hs.sorted, hs.logHead_numbered, ?_, hs.head_eq⟩, hs.isChain, hs.last⟩
  rcases hs.logHead_eq with hlog | ⟨hlog, hfirst⟩
  · exact .inl hlog
  · refine .inr ⟨hlog, fun b hb hprev => ?_⟩
    rcases List.mem_cons.mp (hperm.mem_iff.mp hb) with rfl | hb
    · have hlt := hs.tree.anchor_lt _ p hp rfl
      rw [← hprev, hnp, hs.tree.numbered p hp] at hlt
      exact absurd hlt (lt_irrefl _)
    · exact hfirst b hb hprev

theorem addReceived_pruned {o : BlockState} (hs : Sound anchor ctl) (ho : Orderly c ctl e)
    (hlinked : ctl.forkDb.linked c e.block = .ok db) (hprune : db.toPrune = some o) :
    Sound o.id (addReceived c e ctl).2 ∧ (addReceived c e ctl).2.readMode = ctl.readMode ∧
      HeadKept c ctl e := by
  have hs' := hs.linked hlinked ho.1
  obtain ⟨hfirst, hlib⟩ := toPrune_eq_some hprune
  have hoi : o ∈ db.index := List.mem_of_mem_head? hfirst
  obtain ⟨n, hn, hinsert⟩ := bind_eq_ok.mp hlinked
  obtain ⟨-, -, hnew, -⟩ := insertBlock_eq_ok hinsert
  obtain ⟨b, hb, hlt⟩ := exists_headBlock_of_toPrune hprune
  have hfirst' : ctl.forkDb.index.head? = some o :=
    (linked_first hlinked hs.tree hs.sorted ho.1).symm.trans hfirst
  obtain ⟨hwrites, hexec, hbelow, hchild⟩ := ho.2 n hn o hfirst' _
    (hnew.mem_iff.mp (mem_headers (headBlock_mem hb))) hlt
  have hdesc : ∀ h ∈ db.headBlock, Descends db.headers o.id h.toBlockHeaderState := by
    intro h hh
    obtain rfl := Option.some.inj (hb.symm.trans hh)
    exact hbelow.mono hnew.symm.subset
  have habove : ∀ h ∈ db.headBlock, o.blockNum < h.blockNum := by
    intro h hh
    have hcons := hs'.tree.consistent _ (mem_headers (headBlock_mem hh))
    have h₁ := hlib h hh
    have h₂ := hcons.irreversible_le
    have h₃ := hcons.window_le
    omega
  obtain ⟨m, hm⟩ : ∃ m, db.index.find? (o.blockNum < ·.blockNum) = some m := by
    rw [← Option.isSome_iff_exists, List.find?_isSome]
    exact ⟨b, headBlock_mem hb, decide_eq_true (habove b hb)⟩
  have hpasses := passes_of_child hs'.tree hs'.sorted hfirst hm
    (hchild m (insertBlock_index hinsert ▸ hm))
  obtain ⟨ctl', l, hlevel, hsound, hmode, hlog, hperm, hheaders⟩ :=
    pruneLevel_ok hs' hoi (hs'.sorted.first_le hfirst) hwrites hexec hpasses
  have hadd : addReceived c e ctl = (.ok (), ctl') := by
    rw [addReceived_of_linked hlinked, hprune]
    exact (prune_of_oldest hfirst).trans hlevel
  refine ⟨by rw [hadd]; exact hsound, by rw [hadd]; exact hmode, fun db' hdb h hh => ?_⟩
  obtain rfl : db = db' := Except.ok.inj (hlinked.symm.trans hdb)
  rw [hadd]
  refine ⟨fun s hmem => ?_, ?_⟩
  · obtain rfl : s = o := by
      rw [hlog] at hmem
      simpa using hmem
    exact hdesc h hh
  · have hhm := mem_headers (headBlock_mem hh)
    have hkept := (hs'.tree.perm hperm).mem_pruned_of_descends
      (hperm.mem_iff.mpr (mem_headers hoi)) (hperm.mem_iff.mpr hhm) (habove h hh)
      ((hdesc h hh).mono hperm.symm.subset)
    rw [← hheaders] at hkept
    obtain ⟨b, hb, hbh⟩ := List.mem_map.mp hkept
    exact ⟨b, hb, by rw [hbh]⟩

theorem addReceived_sound (hs : Sound anchor ctl) (ho : Orderly c ctl e) :
    (∃ anchor', Sound anchor' (addReceived c e ctl).2) ∧
      (addReceived c e ctl).2.readMode = ctl.readMode ∧ HeadKept c ctl e := by
  cases hlinked : ctl.forkDb.linked c e.block with
  | error =>
    rw [addReceived_of_error hlinked]
    refine ⟨⟨anchor, hs⟩, rfl, fun db hdb => ?_⟩
    rw [hlinked] at hdb
    cases hdb
  | ok db =>
    cases hprune : db.toPrune with
    | none =>
      have hadd := addReceived_of_linked hlinked
      rw [hprune] at hadd
      refine ⟨⟨anchor, ?_⟩, ?_, fun db' hdb h hh => ?_⟩
      · rw [hadd]
        exact hs.linked hlinked ho.1
      · rw [hadd]
        rfl
      · obtain rfl : db = db' := Except.ok.inj (hlinked.symm.trans hdb)
        rw [hadd]
        refine ⟨fun s hmem => ?_, h, headBlock_mem hh, rfl⟩
        have : s ∈ ctl.irreversible.drop ctl.irreversible.length := hmem
        rw [List.drop_length] at this
        cases this
    | some o =>
      obtain ⟨hsound, hmode, hkept⟩ := addReceived_pruned hs ho hlinked hprune
      exact ⟨⟨o.id, hsound⟩, hmode, hkept⟩

/-! ## Fork switches -/

/-- Each single change that a fork switch makes to a node keeps the property. -/
structure SwitchInvariant (I : Controller σ → Prop) : Prop where
  setHead : ∀ ctl b, I ctl → I { ctl with head := b }
  mark : ∀ ctl id flag db, ctl.forkDb.markInCurrentChain id flag = .ok db → I ctl →
    I { ctl with forkDb := db }
  validate : ∀ ctl id, I ctl → I { ctl with forkDb := ctl.forkDb.validate id }
  remove : ∀ ctl id, I ctl → I { ctl with forkDb := ctl.forkDb.removed id }
  lost : ∀ ctl, I ctl → I { ctl with forkDb := ctl.forkDb.lost }
  session : ∀ ctl state, I ctl → I (ctl.session state)
  undoSession : ∀ ctl, I ctl → I ctl.undoSession

namespace SwitchInvariant

variable {I : Controller σ → Prop} (hI : SwitchInvariant I)
include hI

theorem keeps_setHead (b : BlockHeaderState) : Keeps I (Controller.setHead b) :=
  Keeps.update fun ctl h => hI.setHead ctl b h

theorem keeps_setValidity (id : BlockId) (valid : Bool) :
    Keeps I (Controller.setValidity id valid) := by
  intro ctl h
  cases valid with
  | true => exact hI.validate ctl id h
  | false =>
    unfold Controller.setValidity
    cases hr : ctl.forkDb.setValidity id false with
    | error =>
      rw [changeForkDb_of_error hr]
      exact hI.lost ctl h
    | ok db =>
      rw [changeForkDb_of_ok hr, (remove_eq_ok.mp hr).2]
      exact hI.remove ctl id h

theorem keeps_markInCurrentChain (id : BlockId) (flag : Bool) :
    Keeps I (markInCurrentChain id flag) := by
  refine Keeps.read_bind fun ctl h => ?_
  cases hm : ctl.forkDb.markInCurrentChain id flag with
  | error =>
    rw [lift_bind_of_error rfl]
    exact h
  | ok db =>
    rw [lift_bind_of_ok rfl]
    exact hI.mark ctl id flag db hm h

theorem keeps_applyBlock (b : BlockState) : Keeps I (applyBlock e b) := by
  refine Keeps.read_bind fun ctl h => ?_
  cases hb : e.applyBlock b.toBlockHeaderState ctl.state with
  | error =>
    rw [lift_bind_of_error rfl]
    exact h
  | ok state =>
    rw [lift_bind_of_ok rfl]
    exact hI.session ctl state h

theorem keeps_popBlock : Keeps I popBlock := by
  refine Keeps.read_bind fun ctl h => ?_
  refine (Keeps.bind (Keeps.lift _) fun prev => ?_) ctl h
  exact (hI.keeps_setHead _).bind fun _ => Keeps.update hI.undoSession

theorem keeps_popBlocks (l : List BlockState) : Keeps I (popBlocks l) :=
  Keeps.each (fun _ => (hI.keeps_markInCurrentChain _ _).bind fun _ => hI.keeps_popBlock) l

omit hI in
theorem keeps_checkSync (branch : List BlockState) (msg : String) :
    Keeps I (checkSync branch msg) :=
  Keeps.read_bind fun _ h => h

theorem keeps_extendHead (b : BlockState) : Keeps I (extendHead e b) := by
  refine Keeps.catching ?_ fun _ => (hI.keeps_setValidity _ _).bind fun _ => Keeps.throws _
  exact (hI.keeps_applyBlock b).bind fun _ => (hI.keeps_markInCurrentChain _ _).bind fun _ =>
    (hI.keeps_setValidity _ _).bind fun _ => hI.keeps_setHead _

theorem keeps_revertSwitch (second applied : List BlockState) (b : BlockState) (err : String) :
    Keeps I (revertSwitch e second applied b err) := by
  refine (hI.keeps_setValidity _ _).bind fun _ => (hI.keeps_popBlocks applied).bind fun _ =>
    (keeps_checkSync _ _).bind fun _ => Keeps.bind (Keeps.each (fun b => ?_) _) fun _ =>
    Keeps.throws err
  exact (hI.keeps_applyBlock b).bind fun _ => (hI.keeps_setHead _).bind fun _ =>
    hI.keeps_markInCurrentChain _ _

theorem keeps_applyBranch (second applied pending : List BlockState) :
    Keeps I (applyBranch e second applied pending) := by
  induction pending generalizing applied with
  | nil => exact Keeps.pure ()
  | cons b pending ih =>
    refine Keeps.bind (Keeps.catching ?_ fun err => hI.keeps_revertSwitch second applied b err)
      fun _ => ih (b :: applied)
    exact (hI.keeps_applyBlock b).bind fun _ => (hI.keeps_setHead _).bind fun _ =>
      (hI.keeps_markInCurrentChain _ _).bind fun _ => hI.keeps_setValidity _ _

theorem keeps_switchForks (b : BlockState) : Keeps I (switchForks e b) := by
  refine Keeps.read_bind fun ctl h => ?_
  refine (Keeps.bind (Keeps.lift _) fun branches => ?_) ctl h
  exact (hI.keeps_popBlocks _).bind fun _ => (keeps_checkSync _ _).bind fun _ =>
    hI.keeps_applyBranch _ _ _

theorem keeps_maybeSwitchForks : Keeps I (maybeSwitchForks e) := by
  refine Keeps.read_bind fun ctl h => ?_
  cases ctl.forkDb.headBlock with
  | none => exact h
  | some newHead =>
    refine (Keeps.ite (fun _ => hI.keeps_extendHead newHead) fun _ => ?_) ctl h
    exact Keeps.ite (fun _ => hI.keeps_switchForks newHead) fun _ => Keeps.pure ()

end SwitchInvariant

def Following (anchor : BlockId) (ctl : Controller σ) : Prop :=
  Sound anchor ctl ∧ ctl.readMode ≠ .irreversible

theorem Following.of_eq (h : Following anchor ctl) (hdb : ctl'.forkDb = ctl.forkDb)
    (hmode : ctl'.readMode = ctl.readMode) (hlog : ctl'.logHead = ctl.logHead)
    (hirr : ctl'.irreversible = ctl.irreversible) : Following anchor ctl' := by
  obtain ⟨hs, hne⟩ := h
  rw [← hmode] at hne
  refine ⟨⟨⟨?_, ?_, ?_, ?_, fun h => absurd h hne⟩, ?_, ?_⟩, hne⟩
  · rw [hdb]; exact hs.tree
  · rw [hdb]; exact hs.sorted
  · rw [hlog]; exact hs.logHead_numbered
  · rw [hlog, hdb]; exact hs.logHead_eq
  · rw [hirr]; exact hs.isChain
  · rw [hirr]; exact hs.last

theorem Following.sameHeaders (h : Following anchor ctl) (hdb : SameHeaders ctl.forkDb db) :
    Following anchor { ctl with forkDb := db } := by
  obtain ⟨hs, hne⟩ := h
  refine ⟨⟨⟨hs.tree.perm hdb.perm, hdb.sorted hs.sorted, hs.logHead_numbered, ?_, hs.head_eq⟩,
    hs.isChain, hs.last⟩, hne⟩
  exact hs.logHead_eq.imp_right fun h => ⟨h.1, fun b hb => h.2 b (hdb.perm.mem_iff.mp hb)⟩

theorem Following.remove (h : Following anchor ctl) (id : BlockId) :
    Following anchor { ctl with forkDb := ctl.forkDb.removed id } := by
  obtain ⟨hs, hne⟩ := h
  refine ⟨⟨⟨?_, hs.sorted.removed, hs.logHead_numbered, ?_, hs.head_eq⟩, hs.isChain, hs.last⟩, hne⟩
  · show Tree anchor (ForkDatabase.headers _)
    rw [headers_removed]
    exact hs.tree.sweepFrom id
  · refine hs.logHead_eq.imp_right fun h => ⟨h.1, fun b hb => h.2 b ?_⟩
    have hb' : b ∈ (ctl.forkDb.removed id).headers := hb
    rw [headers_removed] at hb'
    exact sweepFrom_sublist.subset hb'

theorem Following.lost (h : Following anchor ctl) :
    Following anchor { ctl with forkDb := ctl.forkDb.lost } := by
  obtain ⟨hs, hne⟩ := h
  refine ⟨⟨⟨⟨List.nodup_nil, ?_, ?_, ?_, ?_⟩, List.Pairwise.nil, hs.logHead_numbered, ?_,
    hs.head_eq⟩, hs.isChain, hs.last⟩, hne⟩
  · exact List.forall_mem_nil _
  · exact List.forall_mem_nil _
  · exact List.forall_mem_nil _
  · exact List.forall_mem_nil _
  · exact hs.logHead_eq.imp_right fun h => ⟨h.1, List.forall_mem_nil _⟩

theorem Following.switchInvariant : SwitchInvariant (Following (σ := σ) anchor) where
  setHead _ _ h := h.of_eq rfl rfl rfl rfl
  mark _ _ _ _ hm h := h.sameHeaders (markInCurrentChain_sameHeaders hm)
  validate _ id h := h.sameHeaders (validate_sameHeaders id)
  remove _ id h := h.remove id
  lost _ h := h.lost
  session _ _ h := h.of_eq rfl rfl rfl rfl
  undoSession ctl h := by
    unfold Controller.undoSession
    cases ctl.undo with
    | nil => exact h
    | cons => exact h.of_eq rfl rfl rfl rfl

/-! ## Runs -/

theorem sound_of_push (hs : Sound anchor ctl) (ho : Orderly c ctl e) :
    ∃ anchor', Sound anchor' (pushBlock c e ctl).2 := by
  obtain ⟨⟨anchor', hsound⟩, hmode, -⟩ := addReceived_sound hs ho
  unfold pushBlock
  rcases hadd : addReceived c e ctl with ⟨r, ctl₁⟩
  rw [hadd] at hsound
  cases r with
  | error =>
    rw [bind_of_error hadd]
    exact ⟨anchor', hsound⟩
  | ok =>
    rw [bind_of_ok hadd, read_bind]
    split_ifs with hirr
    · exact ⟨anchor', (Following.switchInvariant.keeps_maybeSwitchForks ctl₁ ⟨hsound, hirr⟩).1⟩
    · exact ⟨anchor', hsound⟩

theorem sound_initializeForkDb (readMode : DbReadMode) (initialSchedule : ProducerSchedule)
    (initialTimestamp : Nat) (chainId : Digest) (state : σ) :
    Sound 0 (initializeForkDb c readMode initialSchedule initialTimestamp chainId state) := by
  have hnum : ∀ h : BlockHeader, h.previous = 0 → h.blockNum = 1 := by
    intro h hprev
    rw [BlockHeader.blockNum, hprev]
    decide
  have hzero : 1 = numFromId 0 + 1 := by decide
  have hcons := BlockHeaderState.genesis_consistent (c := c)
    initialSchedule initialTimestamp chainId
  have hid : ∀ h : BlockHeader, numFromId (h.id c) = h.blockNum := numFromId_id c
  refine ⟨⟨⟨List.nodup_singleton _, ?_, ?_, ?_, ?_⟩, List.pairwise_singleton _ _, hid _, ?_,
    fun _ => ⟨rfl, rfl⟩⟩, List.isChain_nil, fun s hs => by cases hs⟩
  · exact List.forall_mem_singleton.mpr hcons
  · exact List.forall_mem_singleton.mpr (hid _)
  · exact List.forall_mem_singleton.mpr ((hnum _ rfl).trans hzero)
  · exact List.forall_mem_singleton.mpr (.inr rfl)
  · exact .inr ⟨hnum _ rfl, List.forall_mem_singleton.mpr fun _ => rfl⟩

/-- **Irreversible blocks form one chain**: if every push is orderly, then each block passed to the
signal is the child of the one before, and is the head that was chosen or an ancestor of it, and
that head is kept. -/
theorem irreversible_isChain (c : Crypto) (readMode : DbReadMode)
    (initialSchedule : ProducerSchedule) (initialTimestamp : Nat) (chainId : Digest) (state : σ)
    (pushes : List (Push σ)) (h : Along (step c) (Orderly c)
      (initializeForkDb c readMode initialSchedule initialTimestamp chainId state) pushes) :
    (run (step c) (initializeForkDb c readMode initialSchedule initialTimestamp chainId state)
        pushes).irreversible.IsChain (fun s t => t.header.previous = s.id) ∧
      Along (step c) (HeadKept c)
        (initializeForkDb c readMode initialSchedule initialTimestamp chainId state) pushes := by
  have hstart := sound_initializeForkDb (c := c) readMode initialSchedule initialTimestamp chainId
    state
  have hstep : ∀ (ctl : Controller σ) (e : Push σ) (ctl' : Controller σ),
      (∃ anchor, Sound anchor ctl) → Orderly c ctl e → step c e ctl = .ok ctl' →
        ∃ anchor, Sound anchor ctl' := by
    rintro ctl e ctl' ⟨anchor, hs⟩ ho heq
    cases heq
    exact sound_of_push hs ho
  refine ⟨?_, h.of_invariant (fun ctl => ∃ anchor, Sound anchor ctl) hstep ?_ ⟨0, hstart⟩⟩
  · obtain ⟨anchor, hs⟩ := run_induction (fun ctl => ∃ anchor, Sound anchor ctl) hstep ⟨0, hstart⟩ h
    exact hs.isChain
  · rintro ctl e ⟨anchor, hs⟩ ho
    exact (addReceived_sound hs ho).2.2

theorem orderly_of_climbs (k : Nat) (h : numFromId e.block.previous + 1 < 2 ^ 32 ∧
    ∀ n, ctl.forkDb.createBlockState c e.block false = .ok n → ∀ o ∈ ctl.forkDb.index.head?,
      ∀ h ∈ n.toBlockHeaderState :: ctl.forkDb.headers, o.blockNum < h.dposIrreversibleBlocknum →
        e.writes = true ∧ Executes ctl e o ∧
        climbs (·.id) (·.header.previous) (n.toBlockHeaderState :: ctl.forkDb.headers) o.id k
          h = true ∧
        ∀ m ∈ (ctl.forkDb.withBlock n).find? (o.blockNum < ·.blockNum), m.header.previous = o.id) :
    Orderly c ctl e := by
  refine ⟨h.1, fun n hn o ho b hb hlt => ?_⟩
  obtain ⟨hwrites, hexec, hclimbs, hchild⟩ := h.2 n hn o ho b hb hlt
  exact ⟨hwrites, hexec, Below.of_climbs k hb hclimbs, hchild⟩

instance (ctl : Controller σ) (e : Push σ) (o : BlockState) : Decidable (Executes ctl e o) :=
  inferInstanceAs (Decidable (_ → _ → _))

/-- The received blocks of two branches from genesis: producer 2 makes two blocks on one, producer 3
makes three on the other, and then both go on with the longer one until its blocks are final. -/
def twoBranches : List (Push Unit) :=
  let genesis := BlockHeaderState.genesis toyCrypto { producers := [⟨2, 7⟩, ⟨3, 7⟩] } 11 0
  let blocks : Except String (List BlockHeaderState) := do
    let a2 ← genesis.turn 12 0
    let a3 ← a2.turn 13 0
    let b2 ← genesis.turn 18 0
    let b3 ← b2.turn 19 0
    let b4 ← b3.turn 20 0
    let b5 ← b4.turn 24 1
    let b6 ← b5.turn 30 1
    let b7 ← b6.turn 36 1
    let b8 ← b7.turn 42 1
    pure [a2, a3, b2, b3, b4, b5, b6, b7, b8]
  (blocks.toOption.getD []).map fun b => { block := b.header, applyBlock := fun _ _ => .ok () }

def twoProducerNode (readMode : DbReadMode) : Controller Unit :=
  initializeForkDb toyCrypto readMode { producers := [⟨2, 7⟩, ⟨3, 7⟩] } 11 0 ()

theorem orderly_twoBranches :
    Along (step toyCrypto) (Orderly toyCrypto) (twoProducerNode .speculative) twoBranches := by
  refine Along.mono (fun ctl e _ _ h => orderly_of_climbs 8 h) ?_
  decide +kernel

/-- A node that follows the head switches to the longer branch, and passes on its first blocks. -/
theorem irreversible_isChain_twoBranches :
    Along (step toyCrypto) (Orderly toyCrypto) (twoProducerNode .speculative) twoBranches ∧
      (run (step toyCrypto) (twoProducerNode .speculative) twoBranches).irreversible.IsChain
        (fun s t => t.header.previous = s.id) ∧
      Along (step toyCrypto) (HeadKept toyCrypto) (twoProducerNode .speculative) twoBranches :=
  ⟨orderly_twoBranches,
    irreversible_isChain toyCrypto .speculative _ 11 0 () twoBranches orderly_twoBranches⟩

/-- **The wrong branch becomes irreversible.** A node in the read mode for irreversible blocks
passes on the block of the branch that it received first, and removes the longer branch, whose
blocks are final, with the head that it has just chosen. -/
theorem head_removed_twoBranches :
    ¬ Along (step toyCrypto) (HeadKept toyCrypto) (twoProducerNode .irreversible) twoBranches ∧
      (run (step toyCrypto) (twoProducerNode .irreversible) twoBranches).irreversible.map
        (fun s => (s.blockNum, s.header.producer)) = [(1, 0), (2, 2)] := by
  refine ⟨fun h => ?_, by decide +kernel⟩
  have hstays : Along (step toyCrypto) (fun ctl e => ∀ db,
      ctl.forkDb.linked toyCrypto e.block = .ok db → ∀ h ∈ db.headBlock,
        ∃ b ∈ (addReceived toyCrypto e ctl).2.forkDb.index, b.id = h.id)
      (twoProducerNode .irreversible) twoBranches :=
    Along.mono (fun _ _ _ _ hkept db hdb b hb => (hkept db hdb b hb).2) h
  exact absurd hstays (by decide +kernel)

end Controller

end BaccChain
