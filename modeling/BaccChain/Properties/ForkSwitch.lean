import BaccChain.Chain.Controller
import BaccChain.Properties.Branches

/-!
# A fork switch is all or nothing

If the head of the fork database is not the next block after its own head, the controller undoes the
blocks of its branch and executes those of the other. When one of them fails, it goes back.

## Main definitions

* `Switched`: after a switch
* `Restored`: after a failed one

## Main results

* `switch_all_or_nothing`: it happens as a whole or not at all
-/

namespace BaccChain

open Commons

namespace Controller

open Attempt ForkDatabase

variable {σ : Type}

/-! ## Sessions -/

def sessions (ctl : Controller σ) : σ × List σ := (ctl.state, ctl.undo)

/-- The blocks of a path were executed, the last of the list first, each in a session of its own:
the sessions after them and before them. -/
inductive Executed (apply : BlockHeaderState → σ → Except String σ) :
    List BlockHeaderState → σ × List σ → σ × List σ → Prop
  | nil (s : σ × List σ) : Executed apply [] s s
  | cons {b : BlockHeaderState} {l : List BlockHeaderState} {state state' : σ} {undo : List σ}
    {s₀ : σ × List σ} (h : apply b state = .ok state') (hl : Executed apply l (state, undo) s₀) :
    Executed apply (b :: l) (state', state :: undo) s₀

variable {s₁ : σ × List σ}

namespace Executed

variable {apply : BlockHeaderState → σ → Except String σ} {l m : List BlockHeaderState}
  {b : BlockHeaderState} {s s' s₀ : σ × List σ}

theorem append_iff : Executed apply (l ++ m) s s₀ ↔
    ∃ s₁, Executed apply l s s₁ ∧ Executed apply m s₁ s₀ := by
  induction l generalizing s with
  | nil =>
    constructor
    · exact fun h => ⟨s, .nil s, h⟩
    · rintro ⟨s₁, ⟨⟩, h⟩
      exact h
  | cons b l ih =>
    constructor
    · rintro ⟨⟩
      rename_i hb hl
      obtain ⟨s₁, h₁, h₂⟩ := ih.mp hl
      exact ⟨s₁, .cons hb h₁, h₂⟩
    · rintro ⟨s₁, ⟨⟩, h₂⟩
      rename_i hb hl
      exact .cons hb (ih.mpr ⟨s₁, hl, h₂⟩)

theorem unique (h : Executed apply l s s₀) (h' : Executed apply l s' s₀) : s = s' := by
  induction h generalizing s' with
  | nil =>
    cases h'
    rfl
  | @cons b l state state' undo s₀ hb hl ih =>
    cases h' with
    | @cons _ _ state₁ state₁' undo₁ _ hb' hl' =>
      obtain ⟨rfl, rfl⟩ := Prod.mk.inj (ih hl')
      obtain rfl := Except.ok.inj (hb.symm.trans hb')
      rfl

theorem before_unique (h : Executed apply l s s₀) (h' : Executed apply l s s₁) : s₀ = s₁ := by
  induction h with
  | nil =>
    cases h'
    rfl
  | cons _ _ ih =>
    cases h' with
    | cons _ hl' => exact ih hl'

theorem length_eq (h : Executed apply l s s₀) : s.2.length = s₀.2.length + l.length := by
  induction h with
  | nil => rfl
  | @cons b l state state' undo s₀ _ _ ih =>
    show undo.length + 1 = s₀.2.length + (l.length + 1)
    rw [show undo.length = s₀.2.length + l.length from ih, add_assoc]

theorem take (h : Executed apply l s s₀) {n : Nat} (hn : l.length ≤ n) :
    ∃ s₁, Executed apply l (s.1, s.2.take n) s₁ := by
  induction h generalizing n with
  | nil => exact ⟨_, .nil _⟩
  | @cons b l state state' undo s₀ hb _ ih =>
    obtain ⟨m, rfl⟩ : ∃ m, n = m + 1 := ⟨n - 1, by rw [List.length_cons] at hn; omega⟩
    obtain ⟨s₁, h₁⟩ := ih (Nat.le_of_succ_le_succ hn)
    exact ⟨s₁, .cons hb h₁⟩

end Executed

/-! ## Parts of a switch -/

variable {e : Push σ} {ctl ctl' ctl'' : Controller σ} {b h p q : BlockHeaderState} {state : σ}
  {s s₀ : σ × List σ} {ids ids' : List BlockId} {flag : Bool} {bs : List BlockState}

/-- The controller has another head and other sessions, and the blocks are marked. -/
structure Leads (ctl : Controller σ) (h : BlockHeaderState) (s : σ × List σ) (ids : List BlockId)
    (flag : Bool) (ctl' : Controller σ) : Prop where
  head : ctl'.head = h
  sessions : ctl'.sessions = s
  marked : Marked ids flag ctl.forkDb ctl'.forkDb

theorem markInCurrentChain_spec (ctl : Controller σ) (hdb : ctl.forkDb.Distinct)
    (hh : h ∈ ctl.forkDb.headers) (flag : Bool) :
    ∃ db, markInCurrentChain h.id flag ctl = (.ok (), { ctl with forkDb := db }) ∧
      Marked [h.id] flag ctl.forkDb db := by
  obtain ⟨db, hmark, hmarked⟩ := exists_marked hdb hh flag
  refine ⟨db, ?_, hmarked⟩
  rw [markInCurrentChain, read_bind, lift_bind_of_ok hmark]
  rfl

theorem popBlock_spec {undo : List σ} (hp : ctl.forkDb.parent ctl.head = some p)
    (hundo : ctl.undo = state :: undo) :
    popBlock ctl = (.ok (), { ctl with head := p, state, undo, revision := ctl.revision - 1 }) := by
  obtain ⟨b, -, hfind, rfl⟩ := exists_theBlock hp "attempt to pop beyond last irreversible block"
  rw [popBlock, read_bind, lift_bind_of_ok hfind, setHead, update_bind]
  show (_, undoSession _) = _
  rw [undoSession]
  rw [hundo]

theorem popBlocks_spec {apply : BlockHeaderState → σ → Except String σ} (ctl : Controller σ)
    (hdb : ctl.forkDb.Distinct) (hhead : ctl.head ∈ ctl.forkDb.headers)
    (hpath : Path ctl.forkDb.parent ctl.head (path bs) q)
    (hex : Executed apply (path bs) ctl.sessions s₀) :
    ∃ ctl', popBlocks bs ctl = (.ok (), ctl') ∧ Leads ctl q s₀ (bs.map (·.id)) false ctl' := by
  induction bs generalizing ctl with
  | nil =>
    obtain rfl := Path.nil_iff.mp hpath
    cases hex
    exact ⟨ctl, rfl, rfl, rfl, .refl hdb⟩
  | cons b bs ih =>
    obtain ⟨hb, p, hp, hpath⟩ := Path.cons_iff.mp hpath
    rw [← hb] at hhead
    obtain ⟨db, hmark, hmarked⟩ := markInCurrentChain_spec ctl hdb hhead false
    rw [← hmarked.parent_eq] at hp hpath
    obtain ⟨state, undo, hundo, hex⟩ : ∃ state undo, ctl.undo = state :: undo ∧
        Executed apply (path bs) (state, undo) s₀ := by
      generalize hs : ctl.sessions = s at hex
      cases hex with
      | cons _ hl => exact ⟨_, _, congrArg Prod.snd hs, hl⟩
    have hpop : popBlock { ctl with forkDb := db } = _ := popBlock_spec hp hundo
    obtain ⟨ctl', hrest, hlast⟩ :=
      ih { ctl with forkDb := db, head := p, state, undo, revision := ctl.revision - 1 }
        hmarked.nodup ((parent_eq_some hmarked.nodup).mp hp).1 hpath hex
    have hstep : (do markInCurrentChain b.id false; popBlock : Attempt (Controller σ) Unit) ctl =
      _ := (bind_of_ok hmark).trans hpop
    exact ⟨ctl', (bind_of_ok hstep).trans hrest, hlast.head, hlast.sessions,
      hmarked.trans hlast.marked⟩

theorem applied_spec {b : BlockState} (hdb : ctl.forkDb.Distinct)
    (hb : b.toBlockHeaderState ∈ ctl.forkDb.headers)
    (happly : e.applyBlock b.toBlockHeaderState ctl.state = .ok state) :
    applyBlock e b ctl = (.ok (), ctl.session state) ∧ ∃ db,
      markInCurrentChain b.id true { ctl.session state with head := b.toBlockHeaderState } =
        (.ok (), { ctl.session state with head := b.toBlockHeaderState, forkDb := db }) ∧
      Marked [b.id] true ctl.forkDb db := by
  constructor
  · rw [applyBlock, read_bind, lift_bind_of_ok happly]
    rfl
  · exact markInCurrentChain_spec { ctl.session state with head := b.toBlockHeaderState } hdb hb
      true

theorem each_append {f : BlockState → Attempt (Controller σ) Unit} {l m : List BlockState}
    (h : each f l ctl = (.ok (), ctl')) : each f (l ++ m) ctl = each f m ctl' := by
  induction l generalizing ctl with
  | nil =>
    cases h
    rfl
  | cons b l ih =>
    obtain ⟨⟨⟩, ctl₁, hb, hl⟩ := bind_eq_ok.mp h
    exact (bind_of_ok hb).trans (ih hl)

theorem reapply_spec (hdb : ctl.forkDb.Distinct)
    (hmem : ∀ b ∈ path bs, b ∈ ctl.forkDb.headers)
    (hpath : Path ctl.forkDb.parent h (path bs) ctl.head)
    (hex : Executed e.applyBlock (path bs) s ctl.sessions) :
    ∃ ctl', each (fun b => do
        applyBlock e b
        setHead b.toBlockHeaderState
        markInCurrentChain b.id true) bs.reverse ctl = (.ok (), ctl') ∧
      Leads ctl h s (bs.map (·.id)) true ctl' := by
  induction bs generalizing h s with
  | nil =>
    obtain rfl := Path.nil_iff.mp hpath
    cases hex
    exact ⟨ctl, rfl, rfl, rfl, .refl hdb⟩
  | cons b bs ih =>
    obtain ⟨rfl, p, hp, hpath⟩ := Path.cons_iff.mp hpath
    cases hex with
    | @cons _ _ state state' undo _ hb hl =>
      obtain ⟨ctl₁, hrest, hhead₁, hsessions₁, hmarked₁⟩ :=
        ih (fun x hx => hmem x (List.mem_cons_of_mem _ hx)) hpath hl
      have hb₁ : b.toBlockHeaderState ∈ ctl₁.forkDb.headers :=
        (hmarked₁.mem_headers_iff hdb).mpr (hmem _ List.mem_cons_self)
      obtain ⟨rfl, rfl⟩ := Prod.mk.inj hsessions₁
      obtain ⟨happlied, db, hmark, hmarked₂⟩ := applied_spec hmarked₁.nodup hb₁ hb
      have hlast : (do
          applyBlock e b
          setHead b.toBlockHeaderState
          markInCurrentChain b.id true : Attempt (Controller σ) Unit) ctl₁ = _ :=
        (bind_of_ok happlied).trans hmark
      rw [List.reverse_cons, each_append hrest]
      refine ⟨_, bind_of_ok hlast, rfl, rfl, (hmarked₁.trans hmarked₂).congr fun id => ?_⟩
      simp [or_comm]

/-! ## The new branch -/

/-- The blocks of the new branch so far were executed, on the block at which the branches fork. -/
structure Applying (e : Push σ) (db₀ : ForkDatabase) (q : BlockHeaderState) (s₀ : σ × List σ)
    (applied : List BlockState) (ctl : Controller σ) : Prop where
  path : Path db₀.parent ctl.head (path applied) q
  executed : Executed e.applyBlock (ForkDatabase.path applied) ctl.sessions s₀
  marked : Marked (applied.map (·.id)) true db₀ ctl.forkDb

variable {db₀ : ForkDatabase} {applied pending second : List BlockState} {msg : String}

theorem revertSwitch_ne_ok {b : BlockState} :
    ¬ revertSwitch e second applied b msg ctl = (.ok (), ctl') := by
  simp only [revertSwitch, Attempt.bind_eq_ok]
  rintro ⟨_, _, _, _, _, _, _, _, _, _, _, h⟩
  exact throws_ne_ok h.2

theorem applyBranch_of_error {b : BlockState}
    (happly : e.applyBlock b.toBlockHeaderState ctl.state = .error msg) :
    applyBranch e second applied (b :: pending) ctl = revertSwitch e second applied b msg ctl := by
  have happlied : applyBlock e b ctl = (.error msg, ctl) := by
    rw [applyBlock, read_bind, lift_bind_of_error happly]
  have hcatch : catching
      (do
        applyBlock e b
        setHead b.toBlockHeaderState
        markInCurrentChain b.id true
        setValidity b.id true)
      (revertSwitch e second applied b) ctl = revertSwitch e second applied b msg ctl :=
    catching_of_error (bind_of_error happlied)
  cases hrevert : revertSwitch e second applied b msg ctl with
  | mk res =>
    cases res with
    | ok => exact absurd hrevert revertSwitch_ne_ok
    | error => exact bind_of_error (hcatch.trans hrevert)

theorem applyBranch_of_ok (second pending : List BlockState) {b : BlockState}
    (hctl : Applying e db₀ q s₀ applied ctl)
    (hb : b.toBlockHeaderState ∈ ctl.forkDb.headers)
    (hpath : Path db₀.parent b.toBlockHeaderState (path (b :: applied)) q)
    (happly : e.applyBlock b.toBlockHeaderState ctl.state = .ok state) :
    ∃ ctl', applyBranch e second applied (b :: pending) ctl =
        applyBranch e second (b :: applied) pending ctl' ∧
      Applying e db₀ q s₀ (b :: applied) ctl' := by
  obtain ⟨happlied, db, hmark, hmarked⟩ := applied_spec hctl.marked.nodup hb happly
  have hvalid := look_validate hmarked.nodup b.id true
  have hbody : catching
      (do
        applyBlock e b
        setHead b.toBlockHeaderState
        markInCurrentChain b.id true
        setValidity b.id true)
      (revertSwitch e second applied b) ctl = (.ok (), { ctl.session state with
        head := b.toBlockHeaderState, forkDb := db.validate b.id }) := by
    refine catching_of_ok ?_
    rw [bind_of_ok happlied, setHead, update_bind, bind_of_ok hmark]
    rfl
  rw [applyBranch, bind_of_ok hbody]
  refine ⟨_, rfl, hpath, .cons happly hctl.executed, ?_⟩
  refine ((hctl.marked.trans hmarked).trans hvalid).congr fun id => ?_
  simp [or_comm]

theorem applyBranch_spec (hdb : db₀.Distinct)
    (hmem : ∀ b ∈ path (pending.reverse ++ applied), b ∈ db₀.headers)
    (hpath : Path db₀.parent h (path (pending.reverse ++ applied)) q)
    (hctl : Applying e db₀ q s₀ applied ctl) :
    (∃ ctl', applyBranch e second applied pending ctl = (.ok (), ctl') ∧
      Applying e db₀ q s₀ (pending.reverse ++ applied) ctl') ∨
    ∃ newer b older ctl₁ msg, pending.reverse ++ applied = newer ++ b :: older ∧
      Applying e db₀ q s₀ older ctl₁ ∧
      e.applyBlock b.toBlockHeaderState ctl₁.state = .error msg ∧
      applyBranch e second applied pending ctl = revertSwitch e second older b msg ctl₁ := by
  induction pending generalizing applied ctl with
  | nil => exact .inl ⟨ctl, rfl, hctl⟩
  | cons b pending ih =>
    have hlist : (b :: pending).reverse ++ applied = pending.reverse ++ b :: applied := by simp
    rw [hlist] at hmem hpath ⊢
    cases happly : e.applyBlock b.toBlockHeaderState ctl.state with
    | error msg =>
      exact .inr ⟨pending.reverse, b, applied, ctl, msg, rfl, hctl, happly,
        applyBranch_of_error happly⟩
    | ok =>
      have hb : b.toBlockHeaderState ∈ db₀.headers :=
        hmem _ (List.mem_map_of_mem (List.mem_append_right _ List.mem_cons_self))
      have hfrom : Path db₀.parent b.toBlockHeaderState (path (b :: applied)) q := by
        rw [show path (pending.reverse ++ b :: applied) =
          path pending.reverse ++ path (b :: applied)
          from List.map_append, Path.append_iff] at hpath
        obtain ⟨p, -, hp⟩ := hpath
        obtain ⟨rfl, -⟩ := Path.cons_iff.mp hp
        exact hp
      obtain ⟨ctl₁, heq, hctl₁⟩ := applyBranch_of_ok second pending hctl
        ((hctl.marked.mem_headers_iff hdb).mpr hb) hfrom happly
      rw [heq]
      exact ih hmem hpath hctl₁

theorem checkSync_spec (hdb : ctl.forkDb.Distinct) (hbs : bs ≠ [])
    (hpath : Path ctl.forkDb.parent h (path bs) ctl.head) :
    checkSync bs msg ctl = (.ok (), ctl) := by
  obtain ⟨init, b, rfl⟩ : ∃ init b, bs = init ++ [b] :=
    ⟨_, _, (List.dropLast_append_getLast hbs).symm⟩
  rw [show path (init ++ [b]) = path init ++ path [b] from List.map_append,
    Path.append_iff] at hpath
  obtain ⟨p, -, hp⟩ := hpath
  obtain ⟨rfl, q, hq, hnil⟩ := Path.cons_iff.mp hp
  obtain rfl := Path.nil_iff.mp hnil
  have hid := ((parent_eq_some hdb).mp hq).2
  rw [checkSync, read_bind, lift_eq_ok]
  refine ⟨check_eq_ok.mpr ?_, rfl⟩
  rw [List.getLast?_concat, Option.map_some, hid]

theorem setValidity_false_spec {id : BlockId} (hh : h ∈ (ctl.forkDb.removed id).headers) :
    setValidity id false ctl = (.ok (), { ctl with forkDb := ctl.forkDb.removed id }) :=
  changeForkDb_of_ok (remove_eq_ok.mpr ⟨List.map_eq_nil_iff.not.mp (List.ne_nil_of_mem hh), rfl⟩)

/-- **A switch is reverted** from a block that fails. -/
theorem revertSwitch_spec {b : BlockState} (msg : String)
    (hdb : ctl.forkDb.Distinct)
    (hb : b.toBlockHeaderState ∈ ctl.forkDb.headers)
    (hhead : ctl.head ∈ ctl.forkDb.headers) (hh : h ∈ ctl.forkDb.headers)
    (happlied : Path ctl.forkDb.parent ctl.head (path applied) q)
    (hsecond : Path ctl.forkDb.parent h (path second) q) (hne : second ≠ [])
    (hexecuted : Executed e.applyBlock (path applied) ctl.sessions s₀)
    (hagain : Executed e.applyBlock (path second) s s₀)
    (hnot : ¬ Reaches ctl.forkDb.parent ctl.head b.toBlockHeaderState)
    (hnot' : ¬ Reaches ctl.forkDb.parent h b.toBlockHeaderState) :
    ∃ ctl', revertSwitch e second applied b msg ctl = (.error msg, ctl') ∧ ctl'.head = h ∧
      ctl'.sessions = s ∧ ctl'.forkDb.Distinct ∧
      ∀ id, ctl'.forkDb.look id = ((ctl.forkDb.removed b.id).look id).map fun x =>
        (x.1, if id ∈ second.map (·.id) then true
          else if id ∈ applied.map (·.id) then false else x.2) := by
  have hdb₁ : (ctl.forkDb.removed b.id).Distinct := nodup_removed hdb
  have hsecond₁ := path_removed hdb hb hsecond hnot'
  have hmem₁ := (mem_of_path hdb₁ (mem_headers_removed hdb hb hh hnot') hsecond₁).2
  obtain ⟨ctl₂, hpop, hhead₂, hsessions₂, hmarked₂⟩ :=
    popBlocks_spec { ctl with forkDb := ctl.forkDb.removed b.id } hdb₁
      (mem_headers_removed hdb hb hhead hnot) (path_removed hdb hb happlied hnot) hexecuted
  have hsecond₂ : Path ctl₂.forkDb.parent h (path second) ctl₂.head := by
    rw [hmarked₂.parent_eq, hhead₂]
    exact hsecond₁
  have hmem₂ : ∀ x ∈ path second, x ∈ ctl₂.forkDb.headers := fun x hx =>
    (hmarked₂.mem_headers_iff hdb₁).mpr (hmem₁ x hx)
  rw [← hsessions₂] at hagain
  obtain ⟨ctl₃, hagain, hhead₃, hsessions₃, hmarked₃⟩ :=
    reapply_spec hmarked₂.nodup hmem₂ hsecond₂ hagain
  refine ⟨ctl₃, ?_, hhead₃, hsessions₃, hmarked₃.nodup, fun id => ?_⟩
  · refine (bind_of_ok (setValidity_false_spec (mem_headers_removed hdb hb hh hnot'))).trans ?_
    refine (bind_of_ok hpop).trans ?_
    rw [bind_of_ok (checkSync_spec hmarked₂.nodup hne hsecond₂), bind_of_ok hagain]
    rfl
  · rw [hmarked₃.look, hmarked₂.look, Option.map_map]
    rfl

/-! ## The outcomes of a switch -/

/-- Marked are the ancestors of the head. -/
def MarksExact (db : ForkDatabase) (h : BlockHeaderState) : Prop :=
  ∀ b ∈ db.index, b.inCurrentChain = true ↔ Reaches db.parent h b.toBlockHeaderState

/-- The controller is on the branch `first` of the new head, which was executed on the block where
it forks from the branch `second` of the old head. -/
structure Switched (e : Push σ) (ctl : Controller σ) (newHead : BlockHeaderState)
    (first second : List BlockHeaderState) (ctl' : Controller σ) : Prop where
  head : ctl'.head = newHead
  state : ∃ s₀, Executed e.applyBlock second ctl.sessions s₀ ∧
    Executed e.applyBlock first ctl'.sessions s₀
  blocks : ctl'.forkDb.parent = ctl.forkDb.parent ∧
    ∀ b, b ∈ ctl'.forkDb.headers ↔ b ∈ ctl.forkDb.headers
  marks : MarksExact ctl'.forkDb newHead

/-- The block of the branch that fails. -/
def Fails (e : Push σ) (ctl : Controller σ) (first second : List BlockHeaderState)
    (b : BlockHeaderState) (msg : String) : Prop :=
  ∃ newer older s₀ s₁, first = newer ++ b :: older ∧ Executed e.applyBlock second ctl.sessions s₀ ∧
    Executed e.applyBlock older s₁ s₀ ∧ e.applyBlock b s₁.1 = .error msg

/-- The controller is as before, and exactly a block and its descendants are removed. -/
structure Restored (ctl : Controller σ) (b : BlockHeaderState) (ctl' : Controller σ) : Prop where
  head : ctl'.head = ctl.head
  state : ctl'.sessions = ctl.sessions
  blocks : ∀ id h m, ctl'.forkDb.look id = some (h, m) ↔
    ctl.forkDb.look id = some (h, m) ∧ ¬ Reaches ctl.forkDb.parent h b

/-- What a switch can lead to. -/
def Outcome (e : Push σ) (ctl : Controller σ) (newHead : BlockHeaderState)
    (first second : List BlockHeaderState) : Except String Unit × Controller σ → Prop
  | (.ok _, ctl') => Switched e ctl newHead first second ctl'
  | (.error msg, ctl') => ∃ b, Fails e ctl first second b msg ∧ Restored ctl b ctl'

/-- Of the blocks in `P`, exactly the ancestors of the head are marked. -/
def MarksOn (P : BlockHeaderState → Prop) (db : ForkDatabase) (h : BlockHeaderState) : Prop :=
  ∀ b ∈ db.index, P b.toBlockHeaderState →
    (b.inCurrentChain = true ↔ Reaches db.parent h b.toBlockHeaderState)

/-- `Switched`, for the blocks that are in question. -/
structure SwitchedOn (P : BlockHeaderState → Prop) (e : Push σ) (ctl : Controller σ)
    (newHead : BlockHeaderState) (first second : List BlockHeaderState) (ctl' : Controller σ) :
    Prop where
  head : ctl'.head = newHead
  state : ∃ s₀, Executed e.applyBlock second ctl.sessions s₀ ∧
    Executed e.applyBlock first ctl'.sessions s₀
  blocks : ctl'.forkDb.parent = ctl.forkDb.parent ∧
    ∀ b, b ∈ ctl'.forkDb.headers ↔ b ∈ ctl.forkDb.headers
  marks : MarksOn P ctl'.forkDb newHead

/-- The branches are exchanged, or a block fails and all is restored. -/
def OutcomeOn (P : BlockHeaderState → Prop) (e : Push σ) (ctl : Controller σ)
    (newHead : BlockHeaderState) (first second : List BlockHeaderState) :
    Except String Unit × Controller σ → Prop
  | (.ok _, ctl') => SwitchedOn P e ctl newHead first second ctl'
  | (.error msg, ctl') => ∃ b, Fails e ctl first second b msg ∧ Restored ctl b ctl' ∧
    ¬ Reaches ctl.forkDb.parent ctl.head b

variable {db : ForkDatabase}

theorem marksOn_true : MarksOn (fun _ => True) db h ↔ MarksExact db h := by
  simp [MarksOn, MarksExact]

variable {f : List BlockHeaderState}

theorem OutcomeOn.outcome {newHead : BlockHeaderState} {s : List BlockHeaderState}
    {r : Except String Unit × Controller σ} (h : OutcomeOn (fun _ => True) e ctl newHead f s r) :
    Outcome e ctl newHead f s r := by
  rcases r with ⟨(msg | ⟨⟩), ctl'⟩
  · obtain ⟨b, hfails, hrestored, -⟩ := h
    exact ⟨b, hfails, hrestored⟩
  · exact ⟨h.head, h.state, h.blocks, marksOn_true.mp h.marks⟩

def changeBranch (e : Push σ) (first second : List BlockState) : Attempt (Controller σ) Unit := do
  popBlocks second
  checkSync second "loss of sync between fork_db and chainbase during fork switch"
  applyBranch e second [] first.reverse

variable {P : BlockHeaderState → Prop}

variable {x : BlockHeaderState}

theorem MarksOn.look {m : Bool} (hexact : MarksOn P db h) (hx : P x)
    (hlook : db.look x.id = some (x, m)) : m = true ↔ Reaches db.parent h x := by
  obtain ⟨b, hb, heq⟩ := Option.map_eq_some_iff.mp hlook
  obtain ⟨rfl, rfl⟩ := Prod.mk.inj heq
  exact hexact b (getBlock_eq_some hb).1 hx

theorem mem_ids_iff (hdb : db.Distinct) (hx : x ∈ db.headers)
    (hbs : ∀ y ∈ path bs, y ∈ db.headers) : x.id ∈ bs.map (·.id) ↔ x ∈ path bs := by
  constructor
  · intro hid
    obtain ⟨b, hb, heq⟩ := List.mem_map.mp hid
    have hmem : b.toBlockHeaderState ∈ path bs := List.mem_map_of_mem hb
    rwa [← eq_of_key_eq hdb (hbs _ hmem) hx heq]
  · intro hmem
    obtain ⟨b, hb, rfl⟩ := List.mem_map.mp hmem
    exact List.mem_map_of_mem hb

variable {first : List BlockState} {newHead : BlockHeaderState}

/-- Two branches that meet. -/
structure Fork (ctl : Controller σ) (newHead : BlockHeaderState) (first second : List BlockState)
    (q : BlockHeaderState) : Prop where
  numbered : ctl.forkDb.Numbered
  head_mem : ctl.head ∈ ctl.forkDb.headers
  new_mem : newHead ∈ ctl.forkDb.headers
  new_path : Path ctl.forkDb.parent newHead (path first) q
  old_path : Path ctl.forkDb.parent ctl.head (path second) q

namespace Fork

variable (hfork : Fork ctl newHead first second q)
include hfork

theorem mem_new (hx : x ∈ path first) : x ∈ ctl.forkDb.headers :=
  (mem_of_path hfork.numbered.nodup hfork.new_mem hfork.new_path).2 x hx

theorem mem_old (hx : x ∈ path second) : x ∈ ctl.forkDb.headers :=
  (mem_of_path hfork.numbered.nodup hfork.head_mem hfork.old_path).2 x hx

theorem marksOn (hmarks : MarksOn P ctl.forkDb ctl.head)
    (hdb : Marked (first.map (·.id)) true db ctl'.forkDb)
    (hdb₀ : Marked (second.map (·.id)) false ctl.forkDb db) : MarksOn P ctl'.forkDb newHead := by
  intro b hb hPb
  have hnodup := hfork.numbered.nodup
  have hlook := look_of_mem hdb.nodup hb
  rw [hdb.look, hdb₀.look, Option.map_map] at hlook
  obtain ⟨⟨x, m⟩, hx, heq⟩ := Option.map_eq_some_iff.mp hlook
  obtain ⟨rfl, hm⟩ := Prod.mk.inj heq
  have hmem : b.toBlockHeaderState ∈ ctl.forkDb.headers := (mem_of_look hx).1
  have hnew := mem_ids_iff hnodup hmem fun y => hfork.mem_new
  have hold := mem_ids_iff hnodup hmem fun y => hfork.mem_old
  dsimp only at hm
  rw [← hm, hdb.parent_eq, hdb₀.parent_eq, hfork.new_path.reaches_iff, ← hnew]
  by_cases h₁ : b.id ∈ first.map (·.id)
  · exact iff_of_true (if_pos h₁) (.inl h₁)
  rw [if_neg h₁, or_iff_right h₁]
  by_cases h₂ : b.id ∈ second.map (·.id)
  · rw [if_pos h₂]
    exact iff_of_false Bool.false_ne_true
      (hfork.numbered.ranked.not_reaches hfork.head_mem hfork.old_path (hold.mp h₂))
  · rw [if_neg h₂, hmarks.look hPb hx, hfork.old_path.reaches_iff, ← hold, or_iff_right h₂]

variable {newer older : List BlockHeaderState}

theorem not_mem_old (hexec : Executed e.applyBlock (path second) ctl.sessions s₀)
    (hsplit : path first = newer ++ b :: older) (holder : Executed e.applyBlock older s₁ s₀)
    (hfail : e.applyBlock b s₁.1 = .error msg) : b ∉ path second := by
  intro hb
  have hranked := hfork.numbered.ranked
  obtain ⟨newer', older', hsplit'⟩ := List.append_of_mem hb
  have hnew := hfork.new_path
  have hold := hfork.old_path
  rw [hsplit, Path.append_iff] at hnew
  rw [hsplit', Path.append_iff] at hold
  obtain ⟨x, hx, hnew⟩ := hnew
  obtain ⟨y, -, hold⟩ := hold
  obtain ⟨rfl, -⟩ := Path.cons_iff.mp hnew
  obtain ⟨rfl, -⟩ := Path.cons_iff.mp hold
  have hlist := hranked.path_unique (hfork.mem_old hb) hnew hold
  obtain rfl : older = older' := List.tail_eq_of_cons_eq hlist
  rw [hsplit', Executed.append_iff] at hexec
  obtain ⟨s₂, -, hexec⟩ := hexec
  cases hexec with
  | cons hok hl =>
    obtain rfl := holder.unique hl
    rw [hfail] at hok
    cases hok

theorem not_reaches_old (hsplit : path first = newer ++ b :: older) (hb : b ∉ path second) :
    ¬ Reaches ctl.forkDb.parent ctl.head b := by
  rw [hfork.old_path.reaches_iff, not_or]
  refine ⟨hb, hfork.numbered.ranked.not_reaches hfork.new_mem hfork.new_path ?_⟩
  rw [hsplit]
  exact List.mem_append_right _ List.mem_cons_self

variable (hP : ∀ x ∈ ctl.forkDb.headers, ∀ p, ctl.forkDb.parent x = some p → P x)
  (hmarks : MarksOn P ctl.forkDb ctl.head)
include hP hmarks

theorem mark_restored {older : List BlockState} (holder : ∀ y ∈ path older, y ∈ path first)
    {m : Bool} (hlook : ctl.forkDb.look x.id = some (x, m)) :
    (if x.id ∈ second.map (·.id) then true else if x.id ∈ older.map (·.id) then false
      else if x.id ∈ older.map (·.id) then true
      else if x.id ∈ second.map (·.id) then false else m) = m := by
  have hnodup := hfork.numbered.nodup
  have hmem := (mem_of_look hlook).1
  have hexact (hx : P x) := hmarks.look hx hlook
  rw [hfork.old_path.reaches_iff] at hexact
  split_ifs with h₁ h₂
  · have hx : x ∈ path second := (mem_ids_iff hnodup hmem fun y => hfork.mem_old).mp h₁
    obtain ⟨p, hp⟩ := hfork.old_path.next_of_mem hx
    exact ((hexact (hP x hmem p hp)).mpr (.inl hx)).symm
  · have hx : x ∈ path older :=
      (mem_ids_iff hnodup hmem fun y hy => hfork.mem_new (holder y hy)).mp h₂
    have hnot : x ∉ path second := fun h =>
      h₁ ((mem_ids_iff hnodup hmem fun y => hfork.mem_old).mpr h)
    have hnot' := hfork.numbered.ranked.not_reaches hfork.new_mem hfork.new_path (holder x hx)
    obtain ⟨p, hp⟩ := hfork.new_path.next_of_mem (holder x hx)
    have hfalse : ¬ m = true := fun hm => ((hexact (hP x hmem p hp)).mp hm).elim hnot hnot'
    exact (Bool.eq_false_iff.mpr hfalse).symm
  · rfl

omit hP hmarks in
theorem parent_failed (hsplit : path first = newer ++ b :: older)
    (holder : Path ctl.forkDb.parent p older q) : ctl.forkDb.parent b = some p := by
  have hnew := hfork.new_path
  rw [hsplit, Path.append_iff] at hnew
  obtain ⟨x, -, hx⟩ := hnew
  obtain ⟨rfl, p', hp', hpath⟩ := Path.cons_iff.mp hx
  rw [hp', hpath.start_unique holder]

theorem look_restored (hmarked₀ : Marked (second.map (·.id)) false ctl.forkDb db₀)
    {older : List BlockState} (holder : ∀ y ∈ path older, y ∈ path first)
    {db' db'' : ForkDatabase}
    (hmarked : Marked (older.map (·.id)) true db₀ db') (hb : b ∈ db'.headers)
    (hlook : ∀ id, db''.look id = ((db'.removed b.id).look id).map fun x =>
      (x.1, if id ∈ second.map (·.id) then true
        else if id ∈ older.map (·.id) then false else x.2))
    (id : BlockId) (x : BlockHeaderState) (m : Bool) :
    db''.look id = some (x, m) ↔
      ctl.forkDb.look id = some (x, m) ∧ ¬ Reaches ctl.forkDb.parent x b := by
  have hparent : db'.parent = ctl.forkDb.parent := hmarked.parent_eq.trans hmarked₀.parent_eq
  have hentry : ∀ id, db'.look id = (ctl.forkDb.look id).map fun y =>
      (y.1, if id ∈ older.map (·.id) then true
        else if id ∈ second.map (·.id) then false else y.2) := by
    intro id
    rw [hmarked.look, hmarked₀.look, Option.map_map]
    rfl
  have hremoved : ∀ {y m}, (db'.removed b.id).look id = some (y, m) ↔
      db'.look id = some (y, m) ∧ ¬ Reaches ctl.forkDb.parent y b := by
    intro y m
    rw [← hparent]
    exact look_removed hmarked.nodup hb
  constructor
  · intro h
    rw [hlook] at h
    obtain ⟨⟨x', m₁⟩, h₁, heq⟩ := Option.map_eq_some_iff.mp h
    obtain ⟨rfl, hm⟩ := Prod.mk.inj heq
    obtain ⟨h₁, hnotb⟩ := hremoved.mp h₁
    rw [hentry] at h₁
    obtain ⟨⟨x'', m₀⟩, h₀, heq₀⟩ := Option.map_eq_some_iff.mp h₁
    obtain ⟨rfl, hm₁⟩ := Prod.mk.inj heq₀
    obtain rfl := (mem_of_look h₀).2
    refine ⟨?_, hnotb⟩
    rw [h₀, ← hm, ← hm₁]
    exact congrArg (fun m => some (x'', m)) (hfork.mark_restored hP hmarks holder h₀).symm
  · rintro ⟨h₀, hnotb⟩
    obtain rfl := (mem_of_look h₀).2
    rw [hlook, hremoved.mpr ⟨(hentry _).trans (congrArg _ h₀), hnotb⟩]
    exact congrArg (fun m => some (x, m)) (hfork.mark_restored hP hmarks holder h₀)

theorem revert_outcome (hne : second ≠ [])
    (hexec : Executed e.applyBlock (path second) ctl.sessions s₀)
    (hmarked₀ : Marked (second.map (·.id)) false ctl.forkDb db₀) {newer older : List BlockState}
    {b : BlockState} (hsplit : first = newer ++ b :: older) (hctl' : Applying e db₀ q s₀ older ctl')
    (hfail : e.applyBlock b.toBlockHeaderState ctl'.state = .error msg) :
    OutcomeOn P e ctl newHead (path first) (path second)
      (revertSwitch e second older b msg ctl') := by
  have hnodup := hfork.numbered.nodup
  have hranked := hfork.numbered.ranked
  have hparent : ctl'.forkDb.parent = ctl.forkDb.parent :=
    hctl'.marked.parent_eq.trans hmarked₀.parent_eq
  have hmem : ∀ x, x ∈ ctl'.forkDb.headers ↔ x ∈ ctl.forkDb.headers := fun x =>
    (hctl'.marked.mem_headers_iff hmarked₀.nodup).trans (hmarked₀.mem_headers_iff hnodup)
  have hpaths : path first = path newer ++ b.toBlockHeaderState :: path older := by
    rw [hsplit]
    exact List.map_append
  have hb : b.toBlockHeaderState ∈ ctl.forkDb.headers := by
    refine hfork.mem_new ?_
    rw [hpaths]
    exact List.mem_append_right _ List.mem_cons_self
  have holder : ∀ y ∈ path older, y ∈ path first := fun y hy => by
    rw [hpaths]
    exact List.mem_append_right _ (List.mem_cons_of_mem _ hy)
  have hnotmem := hfork.not_mem_old hexec hpaths hctl'.executed hfail
  have hnotold := hfork.not_reaches_old hpaths hnotmem
  have hold' : Path ctl.forkDb.parent ctl'.head (path older) q := by
    have := hctl'.path
    rwa [hmarked₀.parent_eq] at this
  have hbhead := hfork.parent_failed hpaths hold'
  have hhead' : ctl'.head ∈ ctl.forkDb.headers := ((parent_eq_some hnodup).mp hbhead).1
  have hnum := hfork.numbered.next _ hb _ hbhead
  have hnot : ¬ Reaches ctl.forkDb.parent ctl'.head b.toBlockHeaderState := by
    intro hreaches
    have : b.blockNum ≤ ctl'.head.blockNum := hranked.le_of_reaches hhead' hreaches
    omega
  have hnot' := hnotold
  rw [← hparent] at hold' hnot hnot'
  have hsecond : Path ctl'.forkDb.parent ctl.head (path second) q := by
    rw [hparent]
    exact hfork.old_path
  obtain ⟨ctl'', hrevert, hhead'', hsessions'', -, hlook⟩ :=
    revertSwitch_spec msg hctl'.marked.nodup ((hmem _).mpr hb) ((hmem _).mpr hhead')
      ((hmem _).mpr hfork.head_mem) hold' hsecond hne hctl'.executed hexec hnot hnot'
  rw [hrevert]
  exact ⟨b.toBlockHeaderState, ⟨path newer, path older, s₀, ctl'.sessions, hpaths, hexec,
    hctl'.executed, hfail⟩, ⟨hhead'', hsessions'',
    hfork.look_restored hP hmarks hmarked₀ holder hctl'.marked ((hmem _).mpr hb) hlook⟩, hnotold⟩

/-- **Between the branches.** The controller undoes one branch and executes the other, or restores
what was before if a block of the other fails. -/
theorem changeBranch_outcome (hne : second ≠ [])
    (hexec : Executed e.applyBlock (path second) ctl.sessions s₀) :
    OutcomeOn P e ctl newHead (path first) (path second) (changeBranch e first second ctl) := by
  have hnodup := hfork.numbered.nodup
  obtain ⟨ctl₁, hpop, hhead₁, hsessions₁, hmarked₁⟩ :=
    popBlocks_spec ctl hnodup hfork.head_mem hfork.old_path hexec
  have hparent := hmarked₁.parent_eq
  have hold₁ : Path ctl₁.forkDb.parent ctl.head (path second) ctl₁.head := by
    rw [hparent, hhead₁]
    exact hfork.old_path
  have hnew₁ : Path ctl₁.forkDb.parent newHead (path (first.reverse.reverse ++ [])) q := by
    rw [hparent, List.reverse_reverse, List.append_nil]
    exact hfork.new_path
  have hmem₁ : ∀ x ∈ path (first.reverse.reverse ++ []), x ∈ ctl₁.forkDb.headers := by
    rw [List.reverse_reverse, List.append_nil]
    exact fun x hx => (hmarked₁.mem_headers_iff hnodup).mpr (hfork.mem_new hx)
  have hstart : Applying e ctl₁.forkDb q s₀ [] ctl₁ := by
    refine ⟨?_, ?_, .refl hmarked₁.nodup⟩
    · rw [hhead₁]
      exact .nil q
    · rw [hsessions₁]
      exact .nil s₀
  rw [changeBranch, bind_of_ok hpop,
    bind_of_ok (checkSync_spec hmarked₁.nodup hne hold₁)]
  rcases applyBranch_spec hmarked₁.nodup hmem₁ hnew₁ hstart with
    ⟨ctl', happly, hctl'⟩ | ⟨newer, b, older, ctl₂, msg, hsplit, hctl₂, hfail, happly⟩
  · rw [List.reverse_reverse, List.append_nil] at hctl'
    rw [happly]
    refine ⟨?_, ⟨s₀, hexec, hctl'.executed⟩, ⟨hctl'.marked.parent_eq.trans hparent, fun x => ?_⟩,
      hfork.marksOn hmarks hctl'.marked hmarked₁⟩
    · have hpath := hctl'.path
      rw [hparent] at hpath
      exact hpath.start_unique hfork.new_path
    · exact (hctl'.marked.mem_headers_iff hmarked₁.nodup).trans (hmarked₁.mem_headers_iff hnodup)
  · rw [List.reverse_reverse, List.append_nil] at hsplit
    rw [happly]
    exact hfork.revert_outcome hP hmarks hne hexec hmarked₁ hsplit hctl₂ hfail

end Fork

/-! ## Any common ancestor

The branches that the controller finds end where they meet, or one block further. What the switch
does can be said of the branches from any common ancestor. -/

theorem OutcomeOn.append {s m : List BlockHeaderState} {r : Except String Unit × Controller σ}
    (h : OutcomeOn P e ctl newHead f s r) (hexec : Executed e.applyBlock (s ++ m) ctl.sessions s₀) :
    OutcomeOn P e ctl newHead (f ++ m) (s ++ m) r := by
  obtain ⟨s₁, hs, hm⟩ := Executed.append_iff.mp hexec
  rcases r with ⟨(msg | ⟨⟩), ctl'⟩
  · obtain ⟨b, ⟨newer, older, s₂, s₃, rfl, hs', holder, hfail⟩, hrestored⟩ := h
    obtain rfl := hs.before_unique hs'
    refine ⟨b, ⟨newer, older ++ m, s₀, s₃, ?_, hexec, ?_, hfail⟩, hrestored⟩
    · rw [List.append_assoc, List.cons_append]
    · exact Executed.append_iff.mpr ⟨s₁, holder, hm⟩
  · obtain ⟨hhead, ⟨s₂, hs', hf⟩, hblocks, hmarks⟩ := h
    obtain rfl := hs.before_unique hs'
    exact ⟨hhead, ⟨s₀, hexec, Executed.append_iff.mpr ⟨s₁, hf, hm⟩⟩, hblocks, hmarks⟩

theorem OutcomeOn.of_append {s : List BlockHeaderState} {r : Except String Unit × Controller σ}
    (h : OutcomeOn P e ctl newHead (f ++ [x]) (s ++ [x]) r) : OutcomeOn P e ctl newHead f s r := by
  rcases r with ⟨(msg | ⟨⟩), ctl'⟩
  · obtain ⟨b, ⟨newer, older, s₀, s₁, hsplit, hexec, holder, hfail⟩, hrestored⟩ := h
    obtain ⟨s₂, hs, hx⟩ := Executed.append_iff.mp hexec
    refine ⟨b, ?_, hrestored⟩
    rcases List.eq_nil_or_concat older with rfl | ⟨older, y, rfl⟩
    · obtain ⟨-, hxb⟩ := List.append_inj' hsplit rfl
      obtain rfl : x = b := List.singleton_inj.mp hxb
      cases holder
      cases hx with
      | cons hok hl =>
        cases hl
        rw [hfail] at hok
        cases hok
    · rw [List.concat_eq_append] at hsplit holder
      rw [← List.cons_append, ← List.append_assoc] at hsplit
      obtain ⟨rfl, hxy⟩ := List.append_inj' hsplit rfl
      obtain rfl : x = y := List.singleton_inj.mp hxy
      obtain ⟨s₃, holder, hx'⟩ := Executed.append_iff.mp holder
      obtain rfl := hx.unique hx'
      exact ⟨newer, older, s₂, s₁, rfl, hs, holder, hfail⟩
  · obtain ⟨hhead, ⟨s₀, hexec, hexec'⟩, hblocks, hmarks⟩ := h
    obtain ⟨s₁, hs, hx⟩ := Executed.append_iff.mp hexec
    obtain ⟨s₂, hf, hx'⟩ := Executed.append_iff.mp hexec'
    obtain rfl := hx.unique hx'
    exact ⟨hhead, ⟨s₁, hs, hf⟩, hblocks, hmarks⟩

/-! ## The head of the fork database is followed -/

theorem extendHead_outcome {b : BlockState} {l : List BlockHeaderState}
    (hdb : ctl.forkDb.Numbered) (hb : b ∈ ctl.forkDb.index)
    (hparent : ctl.forkDb.parent b.toBlockHeaderState = some ctl.head)
    (hmarks : MarksOn P ctl.forkDb ctl.head)
    (hexec : Executed e.applyBlock l ctl.sessions s₀) :
    OutcomeOn P e ctl b.toBlockHeaderState (b.toBlockHeaderState :: l) l (extendHead e b ctl) := by
  have hmem := mem_headers hb
  have hhead : ctl.head ∈ ctl.forkDb.headers := ((parent_eq_some hdb.nodup).mp hparent).1
  unfold extendHead
  cases happly : e.applyBlock b.toBlockHeaderState ctl.state with
  | error msg =>
    have happlied : applyBlock e b ctl = (.error msg, ctl) := by
      rw [applyBlock, read_bind, lift_bind_of_error happly]
    have hnot : ¬ Reaches ctl.forkDb.parent ctl.head b.toBlockHeaderState := fun hreaches => by
      have hnum := hdb.next _ hmem _ hparent
      have : b.blockNum ≤ ctl.head.blockNum := hdb.ranked.le_of_reaches hhead hreaches
      omega
    rw [catching_of_error (bind_of_error happlied), bind_of_ok (setValidity_false_spec
      (mem_headers_removed hdb.nodup hmem hhead hnot))]
    exact ⟨b.toBlockHeaderState, ⟨[], l, s₀, ctl.sessions, rfl, hexec, hexec, happly⟩, ⟨rfl, rfl,
      fun id h m => look_removed hdb.nodup hmem⟩, hnot⟩
  | ok state =>
    have happlied : applyBlock e b ctl = (.ok (), ctl.session state) := by
      rw [applyBlock, read_bind, lift_bind_of_ok happly]
      rfl
    obtain ⟨db, hmark, hmarked₁⟩ := markInCurrentChain_spec (ctl.session state) hdb.nodup hmem true
    have hmarked : Marked [b.id] true ctl.forkDb (db.validate b.id) :=
      hmarked₁.trans (look_validate hmarked₁.nodup b.id true)
    have hbody : (do
        applyBlock e b
        markInCurrentChain b.id true
        setValidity b.id true
        setHead b.toBlockHeaderState : Attempt (Controller σ) Unit) ctl =
          (.ok (), { ctl.session state with
            forkDb := db.validate b.id
            head := b.toBlockHeaderState }) := by
      rw [bind_of_ok happlied, bind_of_ok hmark]
      rfl
    rw [catching_of_ok hbody]
    have hfork : Fork ctl b.toBlockHeaderState [b] [] ctl.head :=
      ⟨hdb, hhead, hmem, .cons hparent (.nil _), .nil _⟩
    exact ⟨rfl, ⟨s₀, hexec, .cons happly hexec⟩, ⟨hmarked.parent_eq,
      fun x => hmarked.mem_headers_iff hdb.nodup⟩, hfork.marksOn hmarks hmarked (.refl hdb.nodup)⟩

theorem popBlocks_beyond {apply : BlockHeaderState → σ → Except String σ}
    {l : List BlockHeaderState} (hdb : ctl.forkDb.Distinct)
    (hhead : ctl.head ∈ ctl.forkDb.headers) (hpath : Path ctl.forkDb.parent ctl.head l q)
    (hbs : path bs = l ++ [q]) (hq : ctl.forkDb.parent q = none)
    (hex : Executed apply l ctl.sessions s₀) :
    ∃ ctl', popBlocks bs ctl =
      (.error "attempt to pop beyond last irreversible block", ctl') := by
  obtain ⟨init, last, rfl, rfl, hlast⟩ := List.map_eq_append_iff.mp hbs
  obtain ⟨b, rest, rfl, rfl, hrest⟩ := List.map_eq_cons_iff.mp hlast
  obtain ⟨ctl₁, hpop, hhead₁, -, hmarked₁⟩ := popBlocks_spec ctl hdb hhead hpath hex
  have hmem : b.toBlockHeaderState ∈ ctl₁.forkDb.headers :=
    (hmarked₁.mem_headers_iff hdb).mpr (mem_of_path hdb hhead hpath).1
  obtain ⟨db, hmark, hmarked₂⟩ := markInCurrentChain_spec ctl₁ hmarked₁.nodup hmem false
  have hnone : db.getBlock ctl₁.head.header.previous = none := by
    rw [← parent_eq_none, hmarked₂.parent_eq, hmarked₁.parent_eq, hhead₁, hq]
  have hbeyond : popBlock { ctl₁ with forkDb := db } =
      (.error "attempt to pop beyond last irreversible block", { ctl₁ with forkDb := db }) := by
    rw [popBlock, read_bind, theBlock, hnone]
    rfl
  exact ⟨_, (each_append hpop).trans (bind_of_error ((bind_of_ok hmark).trans hbeyond))⟩

section Followed

variable {newHead : BlockState} {first second : List BlockHeaderState} {r : BlockHeaderState}
  (hdb : ctl.forkDb.Numbered) (hhead : ctl.head ∈ ctl.forkDb.headers)
  (hfirst : Path ctl.forkDb.parent newHead.toBlockHeaderState first r)
  (hsecond : Path ctl.forkDb.parent ctl.head second r)
  (hP : ∀ x ∈ ctl.forkDb.headers, ∀ p, ctl.forkDb.parent x = some p → P x)
  (hmarks : MarksOn P ctl.forkDb ctl.head)
  (hexec : ∀ l p, Path ctl.forkDb.parent ctl.head l p →
    ∃ s₀, Executed e.applyBlock l ctl.sessions s₀)
include hdb hhead hfirst hsecond hP hmarks hexec

theorem switchForks_outcome (hmem : newHead ∈ ctl.forkDb.index) :
    OutcomeOn P e ctl newHead.toBlockHeaderState first second (switchForks e newHead ctl) ∨
      (first = [] ∨ second = []) ∧ ctl.forkDb.parent r = none ∧
        (switchForks e newHead ctl).1 =
          .error "attempt to pop beyond last irreversible block" := by
  obtain ⟨b, hb, hbhead⟩ := List.mem_map.mp hhead
  rw [← hbhead] at hsecond
  obtain ⟨f, s, hfetch, -, hs, hcase⟩ := fetchBranchFrom_spec hdb hmem hb hfirst hsecond
  have hswitch : switchForks e newHead ctl = changeBranch e f s ctl := by
    have hid : b.id = ctl.head.id := congrArg (·.id) hbhead
    rw [switchForks, read_bind, lift_bind_of_ok (hid ▸ hfetch)]
    rfl
  rw [hbhead] at hsecond hcase
  rw [hswitch]
  rcases hcase with ⟨hend, hf', hs'⟩ | ⟨m, q, rfl, rfl, hf', hs', hm⟩
  · cases hr : ctl.forkDb.parent r with
    | some q =>
      have hnew : Path ctl.forkDb.parent newHead.toBlockHeaderState (path f) q := by
        rw [hf']
        exact Path.append_iff.mpr ⟨r, hfirst, .cons hr (.nil q)⟩
      have hold : Path ctl.forkDb.parent ctl.head (path s) q := by
        rw [hs']
        exact Path.append_iff.mpr ⟨r, hsecond, .cons hr (.nil q)⟩
      obtain ⟨s₀, hs₀⟩ := hexec _ _ hold
      have hfork : Fork ctl newHead.toBlockHeaderState f s q :=
        ⟨hdb, hhead, mem_headers hmem, hnew, hold⟩
      have := hfork.changeBranch_outcome hP hmarks hs hs₀
      rw [hf', hs'] at this
      exact .inl this.of_append
    | none =>
      obtain ⟨s₀, hs₀⟩ := hexec _ _ hsecond
      obtain ⟨ctl', hpop⟩ := popBlocks_beyond hdb.nodup hhead hsecond hs' hr hs₀
      refine .inr ⟨hend, rfl, ?_⟩
      rw [changeBranch, bind_of_error hpop]
  · obtain ⟨s₀, hs₀⟩ := hexec _ _ hsecond
    obtain ⟨s₁, hs₁, -⟩ := Executed.append_iff.mp hs₀
    have hfork : Fork ctl newHead.toBlockHeaderState f s q :=
      ⟨hdb, hhead, mem_headers hmem, hf', hs'⟩
    exact .inl ((hfork.changeBranch_outcome hP hmarks hs hs₁).append hs₀)

/-- **The head of the fork database is followed.** The marks need only be exact for blocks with a
parent in the index: no other block is undone or executed. -/
theorem maybeSwitchForks_outcome (hnew : ctl.forkDb.headBlock = some newHead) :
    OutcomeOn P e ctl newHead.toBlockHeaderState first second (maybeSwitchForks e ctl) ∨
      (newHead.header.previous ≠ ctl.head.id ∧ newHead.id ≠ ctl.head.id) ∧
        (first = [] ∨ second = []) ∧ ctl.forkDb.parent r = none ∧
        (maybeSwitchForks e ctl).1 = .error "attempt to pop beyond last irreversible block" := by
  have hmem := headBlock_mem hnew
  obtain ⟨s₀, hs₀⟩ := hexec second r hsecond
  rw [maybeSwitchForks, read_bind, hnew]
  dsimp only
  split_ifs with hnext hsame
  · have hparent : ctl.forkDb.parent newHead.toBlockHeaderState = some ctl.head :=
      (parent_eq_some hdb.nodup).mpr ⟨hhead, hnext.symm⟩
    have hlist : first = newHead.toBlockHeaderState :: second :=
      hdb.ranked.path_unique (mem_headers hmem) hfirst (.cons hparent hsecond)
    rw [hlist]
    exact .inl (extendHead_outcome hdb hmem hparent hmarks hs₀)
  · exact (switchForks_outcome hdb hhead hfirst hsecond hP hmarks hexec hmem).imp_right fun h =>
      ⟨⟨hnext, hsame⟩, h⟩
  · have heq : newHead.toBlockHeaderState = ctl.head :=
      eq_of_key_eq hdb.nodup (mem_headers hmem) hhead (not_not.mp hsame)
    rw [heq] at hfirst ⊢
    obtain rfl := hdb.ranked.path_unique hhead hfirst hsecond
    exact .inl ⟨rfl, ⟨s₀, hs₀, hs₀⟩, ⟨rfl, fun _ => Iff.rfl⟩, hmarks⟩

end Followed

/-- **A fork switch is all or nothing.** The head and the head of the fork database have a common
ancestor `r`, exactly the head and its ancestors are marked, and what was executed since any of its
ancestors can be undone. Then the controller ends on the branch of the new head, or a block of that
branch fails and it ends on the old branch as before, without the block and its descendants. It
stops in between only if one of the two heads is the ancestor and has no parent in the index. -/
theorem switch_all_or_nothing {newHead : BlockState} {first second : List BlockHeaderState}
    {r : BlockHeaderState} (hdb : ctl.forkDb.Numbered) (hnew : ctl.forkDb.headBlock = some newHead)
    (hhead : ctl.head ∈ ctl.forkDb.headers)
    (hfirst : Path ctl.forkDb.parent newHead.toBlockHeaderState first r)
    (hsecond : Path ctl.forkDb.parent ctl.head second r)
    (hmarks : MarksExact ctl.forkDb ctl.head)
    (hexec : ∀ l p, Path ctl.forkDb.parent ctl.head l p →
      ∃ s₀, Executed e.applyBlock l ctl.sessions s₀) :
    Outcome e ctl newHead.toBlockHeaderState first second (maybeSwitchForks e ctl) ∨
      (first = [] ∨ second = []) ∧ ctl.forkDb.parent r = none ∧
        (maybeSwitchForks e ctl).1 = .error "attempt to pop beyond last irreversible block" :=
  (maybeSwitchForks_outcome hdb hhead hfirst hsecond (fun _ _ _ _ => trivial)
    (marksOn_true.mpr hmarks) hexec hnew).imp OutcomeOn.outcome And.right

def plainBlock (id num : Nat) (previous : BlockId) (flag : Bool) : BlockState :=
  { id, blockNum := num, header := { previous }, inCurrentChain := flag }

/-- A node on block 2, while the fork database has the longer branch of the blocks 3 and 4. -/
def twoBranchNode : Controller (List BlockId) where
  readMode := .speculative
  forkDb := {
    index := [plainBlock 1 1 0 true, plainBlock 2 2 1 true, plainBlock 3 2 1 false,
      plainBlock 4 3 3 false]
    head := some 4 }
  head := (plainBlock 2 2 1 true).toBlockHeaderState
  state := [2, 1]
  undo := [[1]]
  logHead := {}

def withoutBlock4 : Push (List BlockId) where
  block := {}
  applyBlock b state := if b.id = 4 then .error "block 4 is not valid" else .ok (b.id :: state)

theorem switch_all_or_nothing_twoBranchNode :
    (maybeSwitchForks withoutBlock4 twoBranchNode).1 = .error "block 4 is not valid" ∧
      Outcome withoutBlock4 twoBranchNode (plainBlock 4 3 3 false).toBlockHeaderState
        (path [plainBlock 4 3 3 false, plainBlock 3 2 1 false]) (path [plainBlock 2 2 1 true])
        (maybeSwitchForks withoutBlock4 twoBranchNode) := by
  have hroot : twoBranchNode.forkDb.parent (plainBlock 1 1 0 true).toBlockHeaderState = none := rfl
  have hfrom : Path twoBranchNode.forkDb.parent twoBranchNode.head
      (path [plainBlock 2 2 1 true]) (plainBlock 1 1 0 true).toBlockHeaderState :=
    .cons rfl (.nil _)
  have hdb : twoBranchNode.forkDb.Numbered := by
    have hnext : ∀ {b q : BlockHeaderState}, twoBranchNode.forkDb.parent b = some q →
        b.blockNum = q.blockNum + 1 → ∀ p, twoBranchNode.forkDb.parent b = some p →
          b.blockNum = p.blockNum + 1 := by
      intro b q hq hnum p hp
      rw [← Option.some.inj (hq.symm.trans hp), hnum]
    refine ⟨by decide, ?_⟩
    show ∀ b ∈ [_, _, _, _], _
    simp only [List.forall_mem_cons]
    refine ⟨fun p hp => ?_, hnext rfl rfl, hnext rfl rfl, hnext rfl rfl, List.forall_mem_nil _⟩
    cases hp
  have hhead : twoBranchNode.head ∈ twoBranchNode.forkDb.headers :=
    List.mem_cons_of_mem _ List.mem_cons_self
  have hmarks : MarksExact twoBranchNode.forkDb twoBranchNode.head := by
    have hreaches : ∀ x, Reaches twoBranchNode.forkDb.parent twoBranchNode.head x ↔
        x = (plainBlock 2 2 1 true).toBlockHeaderState ∨
          x = (plainBlock 1 1 0 true).toBlockHeaderState := by
      intro x
      rw [hfrom.reaches_iff, reaches_of_none hroot]
      exact or_congr_left List.mem_singleton
    show ∀ b ∈ [_, _, _, _], _
    simp only [List.forall_mem_cons, hreaches]
    refine ⟨iff_of_true rfl (.inr trivial), iff_of_true rfl (.inl trivial),
      iff_of_false Bool.false_ne_true ?_, iff_of_false Bool.false_ne_true ?_,
      List.forall_mem_nil _⟩
    all_goals
      rintro (h | h)
      · exact absurd (congrArg (·.id) h) (by decide)
      · exact absurd (congrArg (·.id) h) (by decide)
  have hexec : ∀ l p, Path twoBranchNode.forkDb.parent twoBranchNode.head l p →
      ∃ s₀, Executed withoutBlock4.applyBlock l twoBranchNode.sessions s₀ := by
    intro l p hl
    cases hl with
    | nil => exact ⟨_, .nil _⟩
    | cons hp hl =>
      obtain rfl := Option.some.inj hp
      cases hl with
      | nil => exact ⟨_, .cons rfl (.nil _)⟩
      | cons hp' => cases hroot.symm.trans hp'
  refine ⟨by decide, (switch_all_or_nothing hdb rfl hhead (.cons rfl (.cons rfl (.nil _))) hfrom
    hmarks hexec).resolve_right ?_⟩
  rintro ⟨(h | h), -⟩
  · cases h
  · cases h

end Controller

end BaccChain
