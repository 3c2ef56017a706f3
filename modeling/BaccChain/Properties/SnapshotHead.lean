import BaccChain.Chain.Snapshot
import BaccChain.Properties.ForkSwitch
import BaccChain.Properties.Foremost

/-!
# The head of a snapshot

A snapshot holds the header state of the head of the fork database. In the read mode that follows
irreversible blocks that head is ahead of the chain database.

## Main definitions

* `KeepsFork`: what keeps the marks a branch
* `SnapshotMatches`: head and database belong together

## Main results

* `snapshot_matches`: when they do
* `snapshot_ahead`: a head ahead of the database
* `branch_replayed`: the marked branch has the state of the database
* `forkDb_joins_log`: the fork database begins after the log
-/

namespace BaccChain

open Commons

namespace Controller

open Attempt ForkDatabase

variable {σ : Type} {apply : BlockHeaderState → σ → Except String σ}

/-! ## States that know their block -/

def posting (apply : BlockHeaderState → σ → Except String σ) (b : BlockHeaderState)
    (s : BlockHeaderState × σ) : Except String (BlockHeaderState × σ) :=
  (apply b s.2).map fun s' => (b, s')

variable {b : BlockHeaderState}

theorem fst_of_posting {s s' : BlockHeaderState × σ} (h : posting apply b s = .ok s') :
    s'.1 = b := by
  unfold posting at h
  cases hb : apply b s.2 with
  | error =>
    rw [hb] at h
    cases h
  | ok =>
    rw [hb] at h
    cases h
    rfl

variable {l : List BlockHeaderState}

theorem Executed.fst_eq {s s₀ : (BlockHeaderState × σ) × List (BlockHeaderState × σ)}
    (h : Executed (posting apply) (b :: l) s s₀) : s.1.1 = b := by
  cases h with
  | cons hb => exact fst_of_posting hb

/-- A received block, and whether what is written to the databases is taken. -/
structure Delivery where
  block : SignedBlockHeader
  writes : Bool := true

def Delivery.push (apply : BlockHeaderState → σ → Except String σ) (d : Delivery) :
    Push (BlockHeaderState × σ) :=
  { block := d.block, applyBlock := posting apply, writes := d.writes }

def deliver (c : Crypto) (apply : BlockHeaderState → σ → Except String σ) (d : Delivery)
    (ctl : Controller (BlockHeaderState × σ)) :
    Except String (Controller (BlockHeaderState × σ)) :=
  step c (d.push apply) ctl

variable {c : Crypto} {anchor : BlockId} {ctl ctl' : Controller (BlockHeaderState × σ)}
  {e : Push (BlockHeaderState × σ)} {h q : BlockHeaderState} {o : BlockState} {d : Delivery}

/-! ## Following a head -/

/-- The fork database chooses with the same places, and the sessions are counted. -/
structure Choosing (db : ForkDatabase) (k : Nat) (ctl : Controller σ) : Prop where
  nodup : (ctl.forkDb.headers.map (·.id)).Nodup
  places : Places db ctl.forkDb
  arrivals : ctl.forkDb.arrivals = db.arrivals
  chosen : Chosen ctl.forkDb
  revision : ctl.revision = k + ctl.undo.length

theorem Choosing.switchInvariant (db : ForkDatabase) (k : Nat) :
    SwitchInvariant (Choosing (σ := σ) db k) where
  setHead _ _ h := ⟨h.nodup, h.places, h.arrivals, h.chosen, h.revision⟩
  mark ctl _ _ db' hm h := by
    obtain ⟨hto, hfrom, hhead, harr⟩ := markInCurrentChain_places h.nodup hm
    have hnodup : db'.Distinct := (markInCurrentChain_sameHeaders hm).distinct h.nodup
    exact ⟨hnodup, h.places.trans hto, harr.trans h.arrivals,
      h.chosen.of_places hnodup hto hfrom hhead, h.revision⟩
  validate ctl id h := by
    obtain ⟨hto, hfrom⟩ := validate_places ctl.forkDb id
    have hnodup : (ctl.forkDb.validate id).Distinct :=
      (validate_sameHeaders id).distinct h.nodup
    exact ⟨hnodup, h.places.trans hto, h.arrivals, h.chosen.of_places hnodup hto hfrom rfl,
      h.revision⟩
  remove _ id h := ⟨nodup_removed h.nodup, h.places.trans (removed_places id), h.arrivals,
    chosen_removed h.nodup, h.revision⟩
  lost _ h := by
    refine ⟨List.nodup_nil, List.forall_mem_nil _, h.arrivals, ?_, h.revision⟩
    rintro x ⟨a, ha, -⟩
    cases ha
  session ctl _ h := by
    refine ⟨h.nodup, h.places, h.arrivals, h.chosen, ?_⟩
    show ctl.revision + 1 = k + (ctl.undo.length + 1)
    rw [h.revision, add_assoc]
  undoSession ctl h := by
    unfold Controller.undoSession
    cases hundo : ctl.undo with
    | nil => exact h
    | cons state undo =>
      refine ⟨h.nodup, h.places, h.arrivals, h.chosen, ?_⟩
      have := h.revision
      rw [hundo, List.length_cons] at this
      show ctl.revision - 1 = k + undo.length
      omega

theorem Sound.numbered {τ : Type} {ctl : Controller τ} (hs : Sound anchor ctl) :
    ctl.forkDb.Numbered where
  nodup := hs.tree.nodup
  next b hb p hp := by
    obtain ⟨hpm, hid⟩ := (parent_eq_some hs.tree.nodup).mp hp
    rw [hs.tree.numbered_previous b hb, ← hid, hs.tree.numbered p hpm]

/-- A node whose fork database has the head `h`. -/
structure Heading (c : Crypto) (apply : BlockHeaderState → σ → Except String σ)
    (h : BlockHeaderState) (ctl : Controller (BlockHeaderState × σ)) : Prop where
  following : ∃ anchor, Following anchor ctl
  ids : ∀ b ∈ ctl.forkDb.headers, b.id = b.header.toBlockHeader.id c
  fresh : ∀ b ∈ ctl.forkDb.index, b.arrival < ctl.forkDb.arrivals
  foremost : Foremost ctl.forkDb h h.id
  chosen : ctl.forkDb.head = some h.id
  next : Foremost ctl.forkDb ctl.head h.id
  marks : MarksOn (·.blockNum ≠ 1) ctl.forkDb ctl.head
  undoable : ∀ l q, Path ctl.forkDb.parent ctl.head l q →
    ∃ s₀, Executed (posting apply) l ctl.sessions s₀
  revision_eq : ctl.revision = ctl.head.blockNum
  undo_le : ctl.undo.length ≤ ctl.revision
  state_eq : ctl.state.1 = ctl.head

def InStep (c : Crypto) (apply : BlockHeaderState → σ → Except String σ)
    (ctl : Controller (BlockHeaderState × σ)) : Prop :=
  Heading c apply ctl.head ctl

namespace Heading

variable (hctl : Heading c apply h ctl)
include hctl

theorem numbered : ctl.forkDb.Numbered := by
  obtain ⟨anchor, hs, -⟩ := hctl.following
  exact hs.numbered

theorem nodup : ctl.forkDb.Distinct := hctl.numbered.nodup

theorem choosing : Choosing ctl.forkDb (ctl.revision - ctl.undo.length) ctl := by
  refine ⟨hctl.nodup, .refl _, rfl, .of_head hctl.nodup hctl.foremost hctl.chosen, ?_⟩
  have := hctl.undo_le
  omega

theorem ne_one : ∀ x ∈ ctl.forkDb.headers, ∀ p, ctl.forkDb.parent x = some p →
    x.blockNum ≠ 1 := by
  intro x hx p hp
  obtain ⟨anchor, hs, -⟩ := hctl.following
  have hnum := hctl.numbered.next x hx p hp
  have hp₁ := hs.tree.numbered_previous p ((parent_eq_some hctl.nodup).mp hp).1
  omega

end Heading

variable {second first : List BlockHeaderState}

theorem Heading.of_switched {first second : List BlockHeaderState} (hctl : Heading c apply h ctl)
    (he : e.applyBlock = posting apply) (hfirst : Path ctl.forkDb.parent h first q)
    (hsecond : Path ctl.forkDb.parent ctl.head second q)
    (hends : q.id = ctl.head.id ∨ q.id = h.id →
      h.id = ctl.head.id ∨ h.header.previous = ctl.head.id)
    (hswitched : SwitchedOn (·.blockNum ≠ 1) e ctl h first second ctl')
    (hfollowing : ∃ anchor, Following anchor ctl')
    (hchoosing : Choosing ctl.forkDb (ctl.revision - ctl.undo.length) ctl') :
    InStep c apply ctl' := by
  obtain ⟨hhead, ⟨s₀, hold, hnew⟩, ⟨hparent, hmem⟩, hmarks⟩ := hswitched
  rw [he] at hold hnew
  have hnumbered := hctl.numbered
  have hranked := hnumbered.ranked
  have hforemost : Foremost ctl'.forkDb h h.id :=
    hctl.foremost.of_places hctl.nodup hchoosing.places ((hmem h).mpr hctl.foremost.mem)
  have hnum : h.blockNum = q.blockNum + first.length :=
    (hranked.path hctl.foremost.mem hfirst).2
  have hnum' : ctl.head.blockNum = q.blockNum + second.length :=
    (hranked.path hctl.next.mem hsecond).2
  have hlen : ctl'.undo.length = s₀.2.length + first.length := hnew.length_eq
  have hlen' : ctl.undo.length = s₀.2.length + second.length := hold.length_eq
  have hrevision := hchoosing.revision
  have hrevision' := hctl.revision_eq
  have hle := hctl.undo_le
  unfold InStep
  rw [hhead]
  refine ⟨hfollowing, fun b hb => hctl.ids b ((hmem b).mp hb), fun b hb => ?_, hforemost,
    hchoosing.chosen h hforemost, hhead ▸ hforemost, hhead ▸ hmarks, fun l p hl => ?_, ?_, ?_, ?_⟩
  · obtain ⟨b₀, hb₀, -, harr⟩ := hchoosing.places b hb
    rw [← harr, hchoosing.arrivals]
    exact hctl.fresh b₀ hb₀
  · rw [hhead, hparent] at hl
    rcases hl.compare hfirst with ⟨m, rfl, -⟩ | ⟨m, rfl, hm⟩
    · obtain ⟨s₁, hs₁, -⟩ := Executed.append_iff.mp hnew
      exact ⟨s₁, hs₁⟩
    · obtain ⟨s₁, hs₁⟩ := hctl.undoable _ _ (Path.append_iff.mpr ⟨q, hsecond, hm⟩)
      obtain ⟨s₂, hs₂, hs₁⟩ := Executed.append_iff.mp hs₁
      obtain rfl := hold.before_unique hs₂
      exact ⟨s₁, Executed.append_iff.mpr ⟨s₀, hnew, hs₁⟩⟩
  · rw [hhead]
    omega
  · omega
  · rw [hhead]
    cases hfirst with
    | cons => exact hnew.fst_eq
    | nil =>
      have hid : h.id = ctl.head.id := by
        refine (hends (.inr rfl)).resolve_right fun hprev => ?_
        have := hnumbered.next h hctl.foremost.mem ctl.head
          ((parent_eq_some hctl.nodup).mpr ⟨hctl.next.mem, hprev.symm⟩)
        omega
      obtain rfl := eq_of_key_eq hctl.nodup hctl.foremost.mem hctl.next.mem hid
      obtain rfl : second = [] := List.length_eq_zero_iff.mp (by omega)
      exact (congrArg (·.1.1) (hnew.unique hold)).trans hctl.state_eq

theorem Heading.of_restored {msg : String} (hctl : Heading c apply h ctl)
    (hfirst : Path ctl.forkDb.parent h first q) (hfails : Fails e ctl first second b msg)
    (hrestored : Restored ctl b ctl') (hnot : ¬ Reaches ctl.forkDb.parent ctl.head b)
    (hfollowing : ∃ anchor, Following anchor ctl')
    (hchoosing : Choosing ctl.forkDb (ctl.revision - ctl.undo.length) ctl') :
    InStep c apply ctl' := by
  obtain ⟨hhead, hsessions, hlook⟩ := hrestored
  have hmem : ∀ x, x ∈ ctl'.forkDb.headers ↔
      x ∈ ctl.forkDb.headers ∧ ¬ Reaches ctl.forkDb.parent x b := by
    intro x
    constructor
    · intro hx
      obtain ⟨m, hm⟩ := exists_look hchoosing.nodup hx
      obtain ⟨hm, hnot⟩ := (hlook _ _ _).mp hm
      exact ⟨(mem_of_look hm).1, hnot⟩
    · rintro ⟨hx, hnot⟩
      obtain ⟨m, hm⟩ := exists_look hctl.nodup hx
      exact (mem_of_look ((hlook _ _ _).mpr ⟨hm, hnot⟩)).1
  have hparent : ∀ x p, ctl'.forkDb.parent x = some p ↔
      ctl.forkDb.parent x = some p ∧ ¬ Reaches ctl.forkDb.parent p b := by
    intro x p
    rw [parent_eq_some hchoosing.nodup, parent_eq_some hctl.nodup, hmem, and_right_comm]
  have hgone : ∀ y ∈ ctl'.forkDb.headers, y.id ≠ h.id := by
    intro y hy hid
    obtain ⟨hy, hnoty⟩ := (hmem y).mp hy
    obtain rfl := eq_of_key_eq hctl.nodup hy hctl.foremost.mem hid
    obtain ⟨newer, older, -, -, rfl, -⟩ := hfails
    exact hnoty (hfirst.reaches_iff.mpr (.inl (List.mem_append_right _ List.mem_cons_self)))
  have hforemost : Foremost ctl'.forkDb ctl.head ctl.head.id :=
    (hctl.next.of_places hctl.nodup hchoosing.places
      ((hmem _).mpr ⟨hctl.next.mem, hnot⟩)).of_absent hgone
  have hpath : ∀ l x, Path ctl'.forkDb.parent ctl.head l x ↔
      Path ctl.forkDb.parent ctl.head l x := by
    intro l x
    constructor
    · refine Path.of_closed (S := Set.univ) (fun y _ p hp => ?_) (Set.mem_univ _)
      exact ⟨Set.mem_univ _, ((hparent y p).mp hp).1⟩
    · refine Path.of_closed (S := { y | ¬ Reaches ctl.forkDb.parent y b })
        (fun y hy p hp => ?_) hnot
      have hnotp : ¬ Reaches ctl.forkDb.parent p b := by
        rintro ⟨m, hm⟩
        exact hy ⟨_, .cons hp hm⟩
      exact ⟨hnotp, (hparent y p).mpr ⟨hp, hnotp⟩⟩
  have hrevision := hchoosing.revision
  have hundo : ctl'.undo = ctl.undo := congrArg Prod.snd hsessions
  have hrevision' := hctl.revision_eq
  have hle := hctl.undo_le
  rw [hundo] at hrevision
  unfold InStep
  rw [hhead]
  refine ⟨hfollowing, fun x hx => hctl.ids x ((hmem x).mp hx).1, fun x hx => ?_, hforemost,
    hchoosing.chosen _ hforemost, hhead ▸ hforemost, fun x hx hone => ?_, fun l p hl => ?_, ?_, ?_,
    ?_⟩
  · obtain ⟨x₀, hx₀, -, harr⟩ := hchoosing.places x hx
    rw [← harr, hchoosing.arrivals]
    exact hctl.fresh x₀ hx₀
  · obtain ⟨hx', -⟩ := (hlook _ _ _).mp (look_of_mem hchoosing.nodup hx)
    rw [hctl.marks.look hone hx', hhead]
    exact exists_congr fun l => (hpath l _).symm
  · rw [hhead, hpath] at hl
    rw [hsessions]
    exact hctl.undoable l p hl
  · rw [hhead]
    omega
  · rw [hundo]
    omega
  · rw [hhead]
    exact (congrArg (·.1.1) hsessions).trans hctl.state_eq

theorem Heading.follow (hctl : Heading c apply h ctl) (he : e.applyBlock = posting apply)
    (hfirst : Reaches ctl.forkDb.parent h q) (hsecond : Reaches ctl.forkDb.parent ctl.head q)
    (hends : q.id = ctl.head.id ∨ q.id = h.id →
      h.id = ctl.head.id ∨ h.header.previous = ctl.head.id) :
    InStep c apply (maybeSwitchForks e ctl).2 := by
  obtain ⟨first, hfirst⟩ := hfirst
  obtain ⟨second, hsecond⟩ := hsecond
  obtain ⟨anchor, hfollowing⟩ := hctl.following
  obtain ⟨newHead, hnew, rfl⟩ := headBlock_of_head hctl.nodup hctl.foremost.mem hctl.chosen
  have hfollowing' := Following.switchInvariant.keeps_maybeSwitchForks (e := e) ctl hfollowing
  have hchoosing := (Choosing.switchInvariant ctl.forkDb
    (ctl.revision - ctl.undo.length)).keeps_maybeSwitchForks (e := e) ctl hctl.choosing
  have houtcome := maybeSwitchForks_outcome hctl.numbered hctl.next.mem hfirst hsecond
    hctl.ne_one hctl.marks (he ▸ hctl.undoable) hnew
  rcases houtcome with houtcome | ⟨⟨hprev, hid⟩, hnil, -⟩
  · generalize maybeSwitchForks e ctl = r at houtcome hfollowing' hchoosing ⊢
    rcases r with ⟨(msg | ⟨⟩), ctl'⟩
    · obtain ⟨b, hfails, hrestored, hnot⟩ := houtcome
      exact hctl.of_restored hfirst hfails hrestored hnot ⟨anchor, hfollowing'⟩ hchoosing
    · exact hctl.of_switched he hfirst hsecond hends houtcome ⟨anchor, hfollowing'⟩ hchoosing
  · have hq : q.id = ctl.head.id ∨ q.id = newHead.id := by
      rcases hnil with rfl | rfl
      · exact .inr (congrArg (·.id) (Path.nil_iff.mp hfirst)).symm
      · exact .inl (congrArg (·.id) (Path.nil_iff.mp hsecond)).symm
    exact absurd (hends hq) (not_or.mpr ⟨hid, hprev⟩)

/-! ## Pruning -/

variable {db : ForkDatabase}

theorem foldl_removed_head (l : List BlockState) (hdb : db.Distinct)
    (hhead : Foremost db h h.id → db.head = some h.id) :
    (l.foldl (fun db b => db.removed b.id) db).index ⊆ db.index ∧
      (l.foldl (fun db b => db.removed b.id) db).arrivals = db.arrivals ∧
      (Foremost (l.foldl (fun db b => db.removed b.id) db) h h.id →
        (l.foldl (fun db b => db.removed b.id) db).head = some h.id) := by
  induction l generalizing db with
  | nil => exact ⟨fun _ hb => hb, rfl, hhead⟩
  | cons b l ih =>
    obtain ⟨hindex, harr, hhead'⟩ := ih (nodup_removed hdb) (chosen_removed hdb h)
    exact ⟨fun x hx => sweepFrom_sublist.subset (hindex hx), harr, hhead'⟩

theorem pruneLevel_following (hs : Sound anchor ctl) (hmode : ctl.readMode ≠ .irreversible)
    (ho : o ∈ ctl.forkDb.index) (hold : ∀ b ∈ ctl.forkDb.headers, o.blockNum ≤ b.blockNum)
    (hpasses : Passes o.blockNum (ctl.forkDb.erase o.id).index) (hwrites : e.writes = true) :
    ∃ logHead irreversible,
      pruneLevel e o ctl = (.ok (), { ctl with
        forkDb := ctl.forkDb.withoutLevel o
        undo := ctl.undo.take (ctl.revision - o.blockNum)
        logHead
        irreversible }) := by
  have hprev := hs.tree.previous_of_oldest (mem_headers ho) hold
  obtain ⟨append, happend⟩ : ∃ append, appendsToLog ctl.logHead o = .ok append := by
    rcases appendsToLog_ok hs.toRooted ho hprev with ⟨happend, -⟩ | ⟨happend, -⟩
    · exact ⟨_, happend⟩
    · exact ⟨_, happend⟩
  have hcheck : check (e.writes = true) "write failed" = .ok () := if_pos hwrites
  have hhandler : emitIrreversible e o ctl =
      (.ok (), ({ ctl with irreversible := ctl.irreversible ++ [o] }.commitSessions
        o.blockNum).writeLog o append) := by
    show onIrreversible e o { ctl with irreversible := ctl.irreversible ++ [o] } = _
    unfold onIrreversible
    rw [read_bind, lift_bind_of_ok happend, update_bind, lift_bind_of_ok hcheck, update_bind]
    exact congrFun (if_neg hmode) _
  exact ⟨_, _, pruneLevel_of_ok (getBlock_of_mem hs.tree.nodup ho) hhandler hs.tree.nodup hs.sorted
    hold hpasses⟩

theorem path_pruned {db' : ForkDatabase} {a : BlockHeaderState} {o : BlockHeaderState}
    (ht : Tree anchor db.headers) (ho : o ∈ db.headers)
    (hold : ∀ b ∈ db.headers, o.blockNum ≤ b.blockNum) (hdb : db'.Distinct)
    (hmem : ∀ b, b ∈ db'.headers ↔ b ∈ Tree.pruned o db.headers) (hl : Path db.parent a l q)
    (ha : a ∈ db.headers) (hq : q ∈ db'.headers) : a ∈ db'.headers ∧ Path db'.parent a l q := by
  induction hl with
  | nil a => exact ⟨hq, .nil a⟩
  | @cons a p q l hp _ ih =>
    obtain ⟨hpm, hid⟩ := (parent_eq_some ht.nodup).mp hp
    obtain ⟨hp', hl'⟩ := ih hpm hq
    refine ⟨(hmem a).mpr ?_, .cons ((parent_eq_some hdb).mpr ⟨hp', hid⟩) hl'⟩
    exact ht.mem_pruned_child ho ((hmem p).mp hp') ha hid.symm hold

/-- The block above the pruned one on the way to the node's head is marked, and comes first. -/
theorem Heading.passes (hctl : Heading c apply h ctl) (hfirst : ctl.forkDb.index.head? = some o)
    (hqo : q.id ≠ o.id) (hdesc : Descends ctl.forkDb.headers o.id q)
    (hhead : Reaches ctl.forkDb.parent ctl.head q) :
    Passes o.blockNum (ctl.forkDb.erase o.id).index := by
  obtain ⟨anchor, hs, -⟩ := hctl.following
  have hranked := hctl.numbered.ranked
  have hom := mem_headers (List.mem_of_mem_head? hfirst)
  obtain ⟨lq, hlq⟩ := (below_iff_reaches hctl.nodup hom hdesc.mem).mp hdesc
  obtain ⟨l, hl⟩ := hhead
  rcases List.eq_nil_or_concat lq with rfl | ⟨lm, m, rfl⟩
  · exact absurd (congrArg (·.id) (Path.nil_iff.mp hlq)) hqo
  rw [List.concat_eq_append, Path.append_iff] at hlq
  obtain ⟨_, hlm, hmo⟩ := hlq
  obtain ⟨rfl, p, hmp, hpo⟩ := Path.cons_iff.mp hmo
  rw [Path.nil_iff.mp hpo] at hmp
  have hreach : Reaches ctl.forkDb.parent ctl.head m := ⟨_, Path.append_iff.mpr ⟨q, hl, hlm⟩⟩
  obtain ⟨hm, -⟩ := mem_of_path hctl.nodup hdesc.mem hlm
  have hnum := hctl.numbered.next m hm _ hmp
  have hone := hctl.ne_one m hm _ hmp
  obtain ⟨m, hmi, rfl⟩ := List.mem_map.mp hm
  have hfind : ctl.forkDb.index.find? (o.blockNum < ·.blockNum) = some m := by
    rw [← List.head?_filter]
    refine head_of_marked (hs.sorted.sublist List.filter_sublist)
      (List.mem_filter.mpr ⟨hmi, decide_eq_true (by omega)⟩) (fun x hx => ?_)
      ((hctl.marks m hmi hone).mpr hreach) fun x hx hxnum hmark => ?_
    · have := of_decide_eq_true (List.mem_filter.mp hx).2
      omega
    · have hxi := (List.mem_filter.mp hx).1
      have hxone : x.blockNum ≠ 1 := by rwa [hxnum]
      have hxm := hranked.eq_of_reaches hctl.next.mem ((hctl.marks x hxi hxone).mp hmark) hreach
        hxnum
      exact eq_of_key_eq (nodup_index hctl.nodup) hxi hmi (congrArg (·.id) hxm)
  exact passes_of_child hs.tree hs.sorted hfirst hfind ((parent_eq_some hctl.nodup).mp hmp).2.symm

theorem Heading.prune (hctl : Heading c apply h ctl) (hwrites : e.writes = true)
    (hfirst : ctl.forkDb.index.head? = some o) (hqo : q.id ≠ o.id)
    (hdesc : Descends ctl.forkDb.headers o.id q)
    (hnew : Reaches ctl.forkDb.parent h q) (hhead : Reaches ctl.forkDb.parent ctl.head q) :
    ∃ ctl', pruneLevel e o ctl = (.ok (), ctl') ∧ ctl'.head = ctl.head ∧ Heading c apply h ctl' ∧
      Reaches ctl'.forkDb.parent h q ∧ Reaches ctl'.forkDb.parent ctl.head q := by
  obtain ⟨anchor, hs, hmode⟩ := hctl.following
  have hoi : o ∈ ctl.forkDb.index := List.mem_of_mem_head? hfirst
  have hom := mem_headers hoi
  have hold := hs.sorted.first_le hfirst
  have hpasses := hctl.passes hfirst hqo hdesc hhead
  obtain ⟨logHead, irreversible, hprune⟩ := pruneLevel_following hs hmode hoi hold hpasses hwrites
  obtain ⟨ctl', l, hprune', hsound, hmode', -, hperm, hheaders⟩ :=
    pruneLevel_ok hs hoi hold hwrites (fun h => absurd h hmode) hpasses
  obtain rfl : ctl' = _ := congrArg Prod.snd (hprune'.symm.trans hprune)
  have hmem : ∀ b, b ∈ (ctl.forkDb.withoutLevel o).headers ↔
      b ∈ Tree.pruned o.toBlockHeaderState ctl.forkDb.headers := by
    rw [headers_withoutLevel]
    exact fun b => Iff.rfl
  have hnodup : (ctl.forkDb.withoutLevel o).Distinct := hsound.tree.nodup
  have hlt : o.blockNum < q.blockNum := by
    have := (hs.tree.num_lt hdesc).resolve_left hqo
    rwa [hs.tree.numbered _ hom] at this
  have hq := (hmem q).mpr (hs.tree.mem_pruned_of_descends hom hdesc.mem hlt hdesc)
  obtain ⟨lnew, hlnew⟩ := hnew
  obtain ⟨lhead, hlhead⟩ := hhead
  obtain ⟨hnew', hlnew'⟩ := path_pruned hs.tree hom hold hnodup hmem hlnew hctl.foremost.mem hq
  obtain ⟨hhead', hlhead'⟩ := path_pruned hs.tree hom hold hnodup hmem hlhead hctl.next.mem hq
  obtain ⟨hindex, harr, hchosen⟩ := foldl_removed_head (h := h)
    ((ctl.forkDb.erase o.id).index.filter (·.blockNum = o.blockNum)) (nodup_erase hctl.nodup)
    fun _ => hctl.chosen
  have hsubset : (ctl.forkDb.withoutLevel o).index ⊆ ctl.forkDb.index := fun x hx =>
    without_sublist.subset (hindex hx)
  have hplaces : Places ctl.forkDb (ctl.forkDb.withoutLevel o) := .of_subset hsubset
  have hforemost := hctl.foremost.of_places hctl.nodup hplaces hnew'
  have hpath : ∀ {l x}, Path (ctl.forkDb.withoutLevel o).parent ctl.head l x →
      Path ctl.forkDb.parent ctl.head l x := by
    intro l x
    refine Path.of_closed (S := Set.univ) (fun y _ p hp => ⟨Set.mem_univ _, ?_⟩) (Set.mem_univ _)
    obtain ⟨hpm, hid⟩ := (parent_eq_some hnodup).mp hp
    exact (parent_eq_some hctl.nodup).mpr ⟨hplaces.mem_headers hpm, hid⟩
  refine ⟨_, hprune, rfl, ⟨⟨o.id, hsound, hmode⟩, fun b hb => hctl.ids b (hplaces.mem_headers hb),
    fun b hb => ?_, hforemost, hchosen hforemost, hctl.next.of_places hctl.nodup hplaces hhead',
    fun b hb hone => ?_, fun l p hl => ?_, hctl.revision_eq, ?_, hctl.state_eq⟩, ⟨lnew, hlnew'⟩,
    ⟨lhead, hlhead'⟩⟩
  · exact (hctl.fresh b (hsubset hb)).trans_eq harr.symm
  · rw [hctl.marks b (hsubset hb) hone]
    constructor
    · rintro ⟨l, hl⟩
      exact ⟨l, (path_pruned hs.tree hom hold hnodup hmem hl hctl.next.mem (mem_headers hb)).2⟩
    · rintro ⟨l, hl⟩
      exact ⟨l, hpath hl⟩
  · obtain ⟨s₀, hs₀⟩ := hctl.undoable l p (hpath hl)
    refine hs₀.take ?_
    have hp := Tree.lt_of_mem_pruned hs.tree.nodup hold
      ((hmem p).mp (mem_of_path hnodup hhead' hl).1)
    have hlen : ctl.head.blockNum = p.blockNum + l.length :=
      (hctl.numbered.ranked.path hctl.next.mem (hpath hl)).2
    have hrevision := hctl.revision_eq
    omega
  · exact (List.length_take_le' _ _).trans hctl.undo_le

/-! ## Received blocks -/

theorem InStep.linked (hctl : InStep c apply ctl) (hlinked : ctl.forkDb.linked c e.block = .ok db)
    (hwrap : numFromId e.block.previous + 1 < 2 ^ 32) :
    ∃ h, Heading c apply h { ctl with forkDb := db } := by
  obtain ⟨anchor, hs, hmode⟩ := hctl.following
  have hs' := hs.linked hlinked hwrap
  have hnodup : db.Distinct := hs'.tree.nodup
  obtain ⟨n, hn, hinsert⟩ := bind_eq_ok.mp hlinked
  obtain ⟨_, -, hnext⟩ := createBlockState_eq_ok hn
  obtain ⟨-, -, -, hid⟩ := BlockHeaderState.next_links hnext
  obtain ⟨-, hnew, hperm, -⟩ := insertBlock_eq_ok hinsert
  obtain ⟨hindex, harr, hchosen⟩ := insertBlock_chosen hinsert hnodup
  have hmem : ∀ x, x ∈ db.headers ↔ x = n.toBlockHeaderState ∨ x ∈ ctl.forkDb.headers :=
    fun x => hperm.mem_iff.trans List.mem_cons
  have hnm := (hmem _).mpr (.inl rfl)
  have htop : ∀ x ∈ ctl.forkDb.headers, x.header.previous ≠ n.id := by
    intro x hx hprev
    rcases hs.tree.linked x hx with ⟨p, hp, hxp⟩ | hanchor
    · exact hnew p hp (hxp.symm.trans hprev)
    · have hlt := hs'.tree.anchor_lt _ _ hnm rfl
      rw [← hanchor, hprev, hs'.tree.numbered _ hnm] at hlt
      exact absurd hlt (lt_irrefl _)
  have hpath : ∀ l x, Path db.parent ctl.head l x ↔ Path ctl.forkDb.parent ctl.head l x := by
    intro l x
    constructor
    · refine Path.of_closed (S := { b | b ∈ ctl.forkDb.headers }) (fun y hy p hp => ?_)
        hctl.foremost.mem
      obtain ⟨hpm, hpid⟩ := (parent_eq_some hnodup).mp hp
      have hpm' : p ∈ ctl.forkDb.headers := ((hmem p).mp hpm).resolve_left fun heq =>
        htop y hy (hpid.symm.trans (congrArg (·.id) heq))
      exact ⟨hpm', (parent_eq_some hctl.nodup).mpr ⟨hpm', hpid⟩⟩
    · refine Path.of_closed (S := { b | b ∈ ctl.forkDb.headers }) (fun y _ p hp => ?_)
        hctl.foremost.mem
      obtain ⟨hpm, hpid⟩ := (parent_eq_some hctl.nodup).mp hp
      exact ⟨hpm, (parent_eq_some hnodup).mpr ⟨(hmem p).mpr (.inr hpm), hpid⟩⟩
  obtain ⟨hbehind, h, hh, hforemost⟩ :=
    exists_foremost_of_insert hctl.nodup hctl.foremost hctl.fresh hindex
  have hnext : Foremost db ctl.head h.id := by
    rcases hh with rfl | rfl
    · exact hforemost
    · exact hbehind
  refine ⟨h, ⟨anchor, hs', hmode⟩, fun b hb => ?_, fun b hb => ?_, hforemost,
    hchosen h hforemost, hnext, fun b hb hone => ?_, fun l q hl => ?_, hctl.revision_eq,
    hctl.undo_le, hctl.state_eq⟩
  · rcases (hmem b).mp hb with rfl | hb
    · exact hid
    · exact hctl.ids b hb
  · show b.arrival < db.arrivals
    rw [harr]
    rcases mem_withBlock.mp (hindex ▸ hb) with rfl | hb
    · exact Nat.lt_succ_self _
    · exact (hctl.fresh b hb).trans (Nat.lt_succ_self _)
  · show _ ↔ ∃ l, Path db.parent ctl.head l _
    simp only [hpath]
    rcases mem_withBlock.mp (hindex ▸ hb) with rfl | hb
    · refine iff_of_false ?_ ?_
      · show ¬ n.inCurrentChain = true
        rw [createBlockState_unmarked hn]
        exact Bool.false_ne_true
      · rintro ⟨l, hl⟩
        exact hnew _ (mem_of_path hctl.nodup hctl.foremost.mem hl).1 rfl
    · exact hctl.marks b hb hone
  · exact hctl.undoable l q ((hpath l q).mp hl)

/-- The push does not make block numbers wrap, what it writes is taken, and the node's head and the
new head of the fork database have a common ancestor that is above the block to be pruned. If that
ancestor is one of the two heads, then the new head is the node's head or builds on it. -/
def KeepsFork (c : Crypto) (ctl : Controller σ) (e : Push σ) : Prop :=
  numFromId e.block.previous + 1 < 2 ^ 32 ∧
    ∀ db, ctl.forkDb.linked c e.block = .ok db →
      (∀ o ∈ db.toPrune, e.writes = true) ∧
      ∀ a ∈ db.getBlock ctl.head.id, ∀ h ∈ db.headBlock, ∃ q ∈ db.headers,
        Descends db.headers q.id a.toBlockHeaderState ∧
        Descends db.headers q.id h.toBlockHeaderState ∧
        (∀ o ∈ db.toPrune, q.id ≠ o.id ∧ Descends db.headers o.id q) ∧
        (q.id = a.id ∨ q.id = h.id → h.id = a.id ∨ h.header.previous = a.id)

theorem InStep.push (hctl : InStep c apply ctl) (he : e.applyBlock = posting apply)
    (hkeeps : KeepsFork c ctl e) : InStep c apply (pushBlock c e ctl).2 := by
  obtain ⟨hwrap, hkeeps⟩ := hkeeps
  cases hlinked : ctl.forkDb.linked c e.block with
  | error =>
    rw [pushBlock, bind_of_error (addReceived_of_error hlinked)]
    exact hctl
  | ok db =>
    obtain ⟨h, hheading⟩ := InStep.linked hctl hlinked hwrap
    have hnodup : db.Distinct := hheading.nodup
    obtain ⟨a, ha, hah⟩ := List.mem_map.mp hheading.next.mem
    obtain ⟨b, hb, hbh⟩ := headBlock_of_head hnodup hheading.foremost.mem hheading.chosen
    have hid : a.id = ctl.head.id := congrArg (·.id) hah
    obtain ⟨hwrites, hfork⟩ := hkeeps db hlinked
    obtain ⟨q, hq, hqa, hqb, hqo, hends⟩ := hfork a (hid ▸ getBlock_of_mem hnodup ha) b hb
    rw [hah] at hqa
    rw [hbh] at hqb
    have hends' : q.id = ctl.head.id ∨ q.id = h.id →
        h.id = ctl.head.id ∨ h.header.previous = ctl.head.id := by
      rw [← hid, ← hbh]
      exact hends
    have hnew := (below_iff_reaches hnodup hq hheading.foremost.mem).mp hqb
    have hold := (below_iff_reaches hnodup hq hheading.next.mem).mp hqa
    have hfollow : ∀ ctl', addReceived c e ctl = (.ok (), ctl') → ctl'.readMode ≠ .irreversible →
        (pushBlock c e ctl) = maybeSwitchForks e ctl' := by
      intro ctl' hadd hmode
      rw [pushBlock, bind_of_ok hadd, read_bind]
      exact congrFun (if_pos hmode) ctl'
    have hadd := addReceived_of_linked hlinked
    cases hprune : db.toPrune with
    | none =>
      rw [hprune] at hadd
      obtain ⟨-, -, hmode⟩ := hheading.following
      rw [hfollow _ hadd hmode]
      exact hheading.follow he hnew hold hends'
    | some o =>
      obtain ⟨hne, hdesc⟩ := hqo o hprune
      obtain ⟨hfirst, -⟩ := toPrune_eq_some hprune
      obtain ⟨ctl', hlevel, hhead, hheading', hnew', hold'⟩ :=
        hheading.prune (hwrites o hprune) hfirst hne hdesc hnew hold
      rw [hprune] at hadd
      obtain ⟨-, -, hmode⟩ := hheading'.following
      rw [hfollow ctl' (hadd.trans ((prune_of_oldest hfirst).trans hlevel)) hmode]
      have hhead' : ctl'.head = ctl.head := hhead
      exact hheading'.follow he hnew' (hhead' ▸ hold') (hhead' ▸ hends')

/-! ## Snapshots -/

/-- A snapshot of the node can be written, and its header state is that of the block whose execution
led to the state of the chain database. -/
def SnapshotMatches (c : Crypto) (ctl : Controller (BlockHeaderState × σ)) : Prop :=
  ∃ snapshot, ctl.addToSnapshot = .ok snapshot ∧ snapshot.head = ctl.state.1 ∧
    ∀ readMode, ∃ node, readFromSnapshot c readMode snapshot = .ok node ∧
      node.state = ctl.state ∧ node.head = node.state.1

theorem InStep.snapshotMatches (hctl : InStep c apply ctl) : SnapshotMatches c ctl := by
  obtain ⟨b, hb, hhead⟩ := headBlock_of_head hctl.nodup hctl.foremost.mem hctl.chosen
  have hsnapshot : ctl.addToSnapshot = .ok { head := ctl.head, state := ctl.state } := by
    rw [addToSnapshot, hb, ← hhead]
  refine ⟨_, hsnapshot, hctl.state_eq.symm, fun readMode => ?_⟩
  obtain ⟨node, hread, hnode, hstate⟩ := exists_readFromSnapshot readMode
    { head := ctl.head, state := ctl.state } (hctl.ids _ hctl.foremost.mem)
  refine ⟨node, hread, hstate, ?_⟩
  rw [hnode, hstate]
  exact hctl.state_eq.symm

def genesisNode (c : Crypto) (readMode : DbReadMode) (initialSchedule : ProducerSchedule)
    (initialTimestamp : Nat) (chainId : Digest) (state : σ) : Controller (BlockHeaderState × σ) :=
  initializeForkDb c readMode initialSchedule initialTimestamp chainId
    (BlockHeaderState.genesis c initialSchedule initialTimestamp chainId, state)

theorem inStep_genesisNode {readMode : DbReadMode} (hmode : readMode ≠ .irreversible)
    (initialSchedule : ProducerSchedule) (initialTimestamp : Nat) (chainId : Digest) (state : σ) :
    InStep c apply (genesisNode c readMode initialSchedule initialTimestamp chainId state) := by
  set node := genesisNode c readMode initialSchedule initialTimestamp chainId state
  have hs : Sound 0 node :=
    sound_initializeForkDb readMode initialSchedule initialTimestamp chainId _
  have hmem : node.head ∈ node.forkDb.headers := List.mem_singleton.mpr rfl
  have hforemost : Foremost node.forkDb node.head node.head.id :=
    ⟨_, List.mem_singleton.mpr rfl, rfl, List.forall_mem_singleton.mpr fun hne => absurd rfl hne⟩
  have hone : node.head.blockNum = 1 := by
    rw [hs.tree.numbered_previous _ hmem]
    show numFromId 0 + 1 = 1
    decide
  refine ⟨⟨0, hs, hmode⟩, List.forall_mem_singleton.mpr rfl,
    List.forall_mem_singleton.mpr Nat.zero_lt_one, hforemost, rfl, hforemost,
    List.forall_mem_singleton.mpr fun hne => absurd hone hne, fun l q hl => ?_, rfl,
    Nat.zero_le _, rfl⟩
  cases hl with
  | nil => exact ⟨_, .nil _⟩
  | cons hp _ =>
    have hnum := hs.numbered.next _ hmem _ hp
    rw [List.mem_singleton.mp ((parent_eq_some hs.tree.nodup).mp hp).1] at hnum
    exact absurd hnum.symm (Nat.succ_ne_self _)

theorem always_inStep {readMode : DbReadMode} (hmode : readMode ≠ .irreversible)
    {initialSchedule : ProducerSchedule} {initialTimestamp : Nat} {chainId : Digest} {state : σ}
    {deliveries : List Delivery}
    (h : Along (deliver c apply) (fun ctl d => KeepsFork c ctl (d.push apply))
      (genesisNode c readMode initialSchedule initialTimestamp chainId state) deliveries) :
    Always (deliver c apply) (InStep c apply)
      (genesisNode c readMode initialSchedule initialTimestamp chainId state) deliveries := by
  refine always_induction (InStep c apply) ?_ (inStep_genesisNode hmode _ _ _ _) h
  rintro ctl d ctl' hctl hkeeps heq
  cases heq
  exact hctl.push rfl hkeeps

/-- **Snapshots of a node that follows its head.** In a read mode other than that for irreversible
blocks, if the two heads fork above what is pruned at every delivered block, then a snapshot taken
after any of the blocks holds the header state of the block whose execution led to the chain
database. -/
theorem snapshot_matches (c : Crypto) (apply : BlockHeaderState → σ → Except String σ)
    (readMode : DbReadMode) (hmode : readMode ≠ .irreversible)
    (initialSchedule : ProducerSchedule) (initialTimestamp : Nat) (chainId : Digest) (state : σ)
    (deliveries : List Delivery)
    (h : Along (deliver c apply) (fun ctl d => KeepsFork c ctl (d.push apply))
      (genesisNode c readMode initialSchedule initialTimestamp chainId state) deliveries) :
    Always (deliver c apply) (SnapshotMatches c)
      (genesisNode c readMode initialSchedule initialTimestamp chainId state) deliveries := by
  intro l hl
  exact (always_inStep hmode h l hl).snapshotMatches

def forksAbove (n : Nat) (db : ForkDatabase) (head : BlockId) : Bool :=
  (db.getBlock head).all fun a => db.headBlock.all fun h => db.headers.any fun q =>
    climbs (·.id) (·.header.previous) db.headers q.id n a.toBlockHeaderState &&
    climbs (·.id) (·.header.previous) db.headers q.id n h.toBlockHeaderState &&
    db.toPrune.all (fun o =>
      q.id ≠ o.id && climbs (·.id) (·.header.previous) db.headers o.id n q) &&
    decide (q.id = a.id ∨ q.id = h.id → h.id = a.id ∨ h.header.previous = a.id)

theorem keepsFork_of_forksAbove (n : Nat) (h : numFromId e.block.previous + 1 < 2 ^ 32 ∧
    ∀ db, ctl.forkDb.linked c e.block = .ok db →
      (∀ o ∈ db.toPrune, e.writes = true) ∧ forksAbove n db ctl.head.id = true) :
    KeepsFork c ctl e := by
  refine ⟨h.1, fun db hdb => ⟨(h.2 db hdb).1, fun a ha b hb => ?_⟩⟩
  have hfork := (h.2 db hdb).2
  rw [forksAbove, show db.getBlock ctl.head.id = some a from ha,
    show db.headBlock = some b from hb] at hfork
  simp only [Option.all_some, List.any_eq_true, Bool.and_eq_true, decide_eq_true_eq] at hfork
  obtain ⟨q, hq, ⟨⟨hqa, hqb⟩, hqo⟩, hends⟩ := hfork
  refine ⟨q, hq, .of_climbs n (mem_headers (getBlock_eq_some ha).1) hqa,
    .of_climbs n (mem_headers (headBlock_mem hb)) hqb, fun o ho => ?_, hends⟩
  rw [show db.toPrune = some o from ho, Option.all_some, Bool.and_eq_true,
    decide_eq_true_eq] at hqo
  exact ⟨hqo.1, .of_climbs n hq hqo.2⟩

def tracingNode (readMode : DbReadMode) : Controller (BlockHeaderState × Unit) :=
  genesisNode toyCrypto readMode { producers := [⟨2, 7⟩, ⟨3, 7⟩] } 11 0 ()

def executes (_ : BlockHeaderState) (_ : Unit) : Except String Unit := .ok ()

def deliveredBranches : List Delivery := twoBranches.map fun push => { block := push.block }

theorem keepsFork_deliveredBranches :
    Along (deliver toyCrypto executes) (fun ctl d => KeepsFork toyCrypto ctl (d.push executes))
      (tracingNode .speculative) deliveredBranches := by
  refine Along.mono (fun ctl e _ _ h => keepsFork_of_forksAbove 8 h) ?_
  decide +kernel

/-- A node that switches between the branches and prunes can be started again from any snapshot. -/
theorem snapshot_matches_twoBranches :
    Along (deliver toyCrypto executes) (fun ctl d => KeepsFork toyCrypto ctl (d.push executes))
        (tracingNode .speculative) deliveredBranches ∧
      Always (deliver toyCrypto executes) (SnapshotMatches toyCrypto) (tracingNode .speculative)
        deliveredBranches :=
  ⟨keepsFork_deliveredBranches, snapshot_matches toyCrypto executes .speculative (by decide) _ 11 0
    () deliveredBranches keepsFork_deliveredBranches⟩

/-- **A snapshot of two blocks.** In the read mode for irreversible blocks the first received block
is the head of the fork database and is not executed. -/
theorem snapshot_ahead :
    ¬ Always (deliver toyCrypto executes) (SnapshotMatches toyCrypto) (tracingNode .irreversible)
        (deliveredBranches.take 1) ∧
      ((run (deliver toyCrypto executes) (tracingNode .irreversible)
        (deliveredBranches.take 1)).addToSnapshot.map
          fun snapshot => (snapshot.head.blockNum, snapshot.state.1.blockNum)) = .ok (2, 1) := by
  have hnums : (run (deliver toyCrypto executes) (tracingNode .irreversible)
      (deliveredBranches.take 1)).addToSnapshot.map
        (fun snapshot => (snapshot.head.blockNum, snapshot.state.1.blockNum)) = .ok (2, 1) := by
    decide +kernel
  have hstate : (run (deliver toyCrypto executes) (tracingNode .irreversible)
      (deliveredBranches.take 1)).state.1.blockNum = 1 := by
    decide +kernel
  refine ⟨fun hall => ?_, hnums⟩
  obtain ⟨snapshot, hsnapshot, hhead, -⟩ := hall _ List.prefix_rfl
  rw [hsnapshot] at hnums
  have htwo : snapshot.head.blockNum = 2 := congrArg Prod.fst (Except.ok.inj hnums)
  rw [hhead, hstate] at htwo
  exact absurd htwo (by decide)

/-! ## Replaying a branch -/

theorem Executed.replays {s s₀ : σ × List σ} (h : Executed apply l s s₀) :
    (s.1 :: s.2)[l.length]? = some s₀.1 ∧
      l.reverse.foldlM (fun s b => apply b s) s₀.1 = .ok s.1 := by
  induction h with
  | nil => exact ⟨rfl, rfl⟩
  | cons hb _ ih =>
    refine ⟨ih.1, ?_⟩
    rw [List.reverse_cons, List.foldlM_append, ih.2, ok_bind, List.foldlM_cons, hb]
    rfl

/-- **A node replays its branch.** While every delivery keeps the fork, the head is the first block
in the order of the fork database, exactly its ancestors are marked (genesis apart), and the chain
database is what the blocks of the branch above any ancestor make of the state that was kept for
that ancestor: nothing of another branch is left in it. -/
theorem branch_replayed (c : Crypto) (apply : BlockHeaderState → σ → Except String σ)
    (readMode : DbReadMode) (hmode : readMode ≠ .irreversible)
    (initialSchedule : ProducerSchedule) (initialTimestamp : Nat) (chainId : Digest) (state : σ)
    (deliveries : List Delivery)
    (h : Along (deliver c apply) (fun ctl d => KeepsFork c ctl (d.push apply))
      (genesisNode c readMode initialSchedule initialTimestamp chainId state) deliveries) :
    Always (deliver c apply) (fun ctl => Foremost ctl.forkDb ctl.head ctl.head.id ∧
        MarksOn (·.blockNum ≠ 1) ctl.forkDb ctl.head ∧
        ∀ l q, Path ctl.forkDb.parent ctl.head l q → ∃ kept,
          (ctl.state :: ctl.undo)[l.length]? = some kept ∧
            l.reverse.foldlM (fun s b => posting apply b s) kept = .ok ctl.state)
      (genesisNode c readMode initialSchedule initialTimestamp chainId state) deliveries := by
  intro l hl
  have hrun := always_inStep hmode h l hl
  refine ⟨hrun.foremost, hrun.marks, fun l q hl => ?_⟩
  obtain ⟨s₀, hs₀⟩ := hrun.undoable l q hl
  exact ⟨s₀.1, hs₀.replays⟩

theorem branch_replayed_twoBranches :
    let ctl := run (deliver toyCrypto executes) (tracingNode .speculative) deliveredBranches
    ctl.head.blockNum = 8 ∧ MarksOn (·.blockNum ≠ 1) ctl.forkDb ctl.head :=
  ⟨by decide +kernel, (branch_replayed toyCrypto executes .speculative (by decide) _ 11 0 ()
    deliveredBranches keepsFork_deliveredBranches _ List.prefix_rfl).2.1⟩

/-! ## The block log and the fork database -/

/-- The ancestors of each block of the fork database lead to one that builds on the last block of
the log, or that is this block, the one of genesis. -/
def JoinsLog (ctl : Controller σ) : Prop :=
  ∀ b ∈ ctl.forkDb.headers, ∃ x ∈ ctl.forkDb.headers, Reaches ctl.forkDb.parent b x ∧
    (x.header.previous = ctl.logHead.id ∨ x.id = ctl.logHead.id ∧ ctl.logHead.blockNum = 1)

/-- **No gap between the block log and the fork database** after any push of an orderly run, in
each of the read modes. -/
theorem forkDb_joins_log (c : Crypto) (readMode : DbReadMode)
    (initialSchedule : ProducerSchedule) (initialTimestamp : Nat) (chainId : Digest) (state : σ)
    (pushes : List (Push σ)) (h : Along (step c) (Orderly c)
      (initializeForkDb c readMode initialSchedule initialTimestamp chainId state) pushes) :
    Always (step c) JoinsLog
      (initializeForkDb c readMode initialSchedule initialTimestamp chainId state) pushes := by
  intro l hl b hb
  obtain ⟨anchor, hs⟩ := always_induction (fun ctl => ∃ anchor, Sound anchor ctl)
    (fun ctl e ctl' ⟨anchor, hs⟩ ho heq => by
      cases heq
      exact sound_of_push hs ho) ⟨0, sound_initializeForkDb _ _ _ _ _⟩ h l hl
  obtain ⟨x, hx, hnone, hreach⟩ := hs.numbered.ranked.exists_root hb
  refine ⟨x, hx, hreach, ?_⟩
  have hprev : x.header.previous = anchor := by
    refine (hs.tree.linked x hx).resolve_left ?_
    rintro ⟨p, hp, hid⟩
    rw [(parent_eq_some hs.tree.nodup).mpr ⟨hp, hid.symm⟩] at hnone
    cases hnone
  rcases hs.logHead_eq with hlog | ⟨hone, hfirst⟩
  · exact .inl (hprev.trans hlog.symm)
  · exact .inr ⟨hfirst x hx hprev, hone⟩

theorem forkDb_joins_log_twoBranches :
    1 < (run (step toyCrypto) (twoProducerNode .speculative) twoBranches).logHead.blockNum ∧
      Always (step toyCrypto) JoinsLog (twoProducerNode .speculative) twoBranches :=
  ⟨by decide +kernel,
    forkDb_joins_log toyCrypto .speculative _ 11 0 () twoBranches orderly_twoBranches⟩

end Controller

end BaccChain
