import BaccChain.Chain.BlockBuildingSpec

/-!
# The lists of names, in memory and on the chain

The set of a node begins with the names that the node was configured with, and every list action
writes the set to the database.

## Main definitions

* `afterStartUp`: a node at its start
* `Cancels`: nothing changes in the end

## Main results

* `onChain_lists_eq_iff`: when memory and chain are equal
* `lists_undone_iff`: when undone actions leave no trace
-/

namespace BaccChain

open Commons

/-! ## Two nodes -/

def setconfigTransaction (a : List Name × Setconfig) (s : ConfigState) : ConfigState :=
  match applySystemNativeSetconfig a.1 a.2 s with
  | (.ok _, s') => s'
  | (.error _, s') => { s' with db := s.db }

/-- A node that starts with the configured sets `conf` on the database `db` and then sees actions,
each with the accounts that authorise it. -/
def afterStartUp (conf : Lists (FlatSet Name)) (db : ConfigDb)
    (actions : List (List Name × Setconfig)) : ConfigState :=
  actions.foldl (fun s a => setconfigTransaction a s) (startUpLists ⟨conf, db⟩)

def setconfigChanges (actions : List (List Name × Setconfig)) : List Change :=
  actions.filterMap fun a => setconfigChange a.1 a.2

/-- Memory and chain are equal. -/
def ConfigState.Synced (s : ConfigState) : Prop :=
  ∀ list, s.db.forceProperty.clfg list = (s.conf list).toList

theorem startUpLists_conf (s : ConfigState) (list : ListType) :
    (startUpLists s).conf list = (s.conf list).insertAll (s.db.forceProperty.clfg list) := by
  cases list <;> simp [startUpLists, syncListAndDb]

theorem startUpLists_synced (s : ConfigState) : (startUpLists s).Synced := by
  intro list
  cases list <;> simp [startUpLists, syncListAndDb]

theorem setconfigTransaction_conf (a : List Name × Setconfig) (s : ConfigState) :
    (setconfigTransaction a s).conf = applyChanges (setconfigChange a.1 a.2).toList s.conf := by
  rw [← applySystemNativeSetconfig_conf]
  unfold setconfigTransaction
  split
  next u s' h => rw [h]
  next e s' h => rw [h]

theorem setconfigTransaction_synced (a : List Name × Setconfig) {s : ConfigState} (h : s.Synced) :
    (setconfigTransaction a s).Synced := by
  have hconf := setconfigTransaction_conf a s
  have hclfg := applySystemNativeSetconfig_clfg a.1 a.2 s
  intro list
  rw [hconf]
  unfold setconfigTransaction
  split
  next u s' hs =>
    rw [hs] at hclfg
    rw [hclfg]
    cases hch : setconfigChange a.1 a.2 with
    | none => exact h list
    | some ch =>
      by_cases hlist : list = ch.list
      · subst hlist
        exact Function.update_self _ _ _
      · have hother : applyChanges (some ch).toList s.conf list = s.conf list :=
          Function.update_of_ne hlist _ _
        rw [hother]
        exact (Function.update_of_ne hlist _ _).trans (h list)
  next e s' hs =>
    have hnone := setconfigChange_of_error (e := e) (congrArg Prod.fst hs)
    rw [hnone]
    exact h list

theorem afterStartUp_spec (conf : Lists (FlatSet Name)) (db : ConfigDb)
    (actions : List (List Name × Setconfig)) :
    (afterStartUp conf db actions).Synced ∧
      (afterStartUp conf db actions).conf =
        applyChanges (setconfigChanges actions) (startUpLists ⟨conf, db⟩).conf := by
  induction actions using List.reverseRecOn with
  | nil => exact ⟨startUpLists_synced _, rfl⟩
  | append_singleton actions a ih =>
    have hstep : afterStartUp conf db (actions ++ [a]) =
        setconfigTransaction a (afterStartUp conf db actions) := by
      simp [afterStartUp]
    rw [hstep]
    refine ⟨setconfigTransaction_synced a ih.1, ?_⟩
    rw [setconfigTransaction_conf, ih.2, ← applyChanges_append, setconfigChanges,
      setconfigChanges, List.filterMap_append]
    congr 2

/-- **The lists on the chain depend on the node.** Two nodes with one database and configured sets
`conf₁` and `conf₂` start up and see the same actions. Their databases have the same lists exactly
when the two nodes agree on every name that no action has put on a list or taken off it: it is in
the configured set or in the list of the database for both of them or for neither. -/
theorem onChain_lists_eq_iff (conf₁ conf₂ : Lists (FlatSet Name)) (db : ConfigDb)
    (actions : List (List Name × Setconfig)) :
    (afterStartUp conf₁ db actions).db.forceProperty.clfg =
        (afterStartUp conf₂ db actions).db.forceProperty.clfg ↔
      ∀ list a, (∀ ch ∈ setconfigChanges actions, ¬ (ch.list = list ∧ ch.name = a)) →
        ((a ∈ conf₁ list ∨ a ∈ db.forceProperty.clfg list) ↔
          (a ∈ conf₂ list ∨ a ∈ db.forceProperty.clfg list)) := by
  obtain ⟨hsynced₁, hconf₁⟩ := afterStartUp_spec conf₁ db actions
  obtain ⟨hsynced₂, hconf₂⟩ := afterStartUp_spec conf₂ db actions
  have hlists : (afterStartUp conf₁ db actions).db.forceProperty.clfg =
      (afterStartUp conf₂ db actions).db.forceProperty.clfg ↔
      ∀ list a, a ∈ (afterStartUp conf₁ db actions).conf list ↔
        a ∈ (afterStartUp conf₂ db actions).conf list := by
    constructor
    · intro h list a
      have hlist := congrFun h list
      rw [hsynced₁ list, hsynced₂ list] at hlist
      rw [FlatSet.toList_injective hlist]
    · intro h
      funext list
      rw [hsynced₁ list, hsynced₂ list, FlatSet.ext (h list)]
  have hstart (conf : Lists (FlatSet Name)) (list : ListType) (a : Name) :
      a ∈ (startUpLists ⟨conf, db⟩).conf list ↔
        (a ∈ conf list ∨ a ∈ db.forceProperty.clfg list) := by
    rw [startUpLists_conf, FlatSet.mem_insertAll, or_comm]
  rw [hlists]
  refine forall_congr' fun list => forall_congr' fun a => ?_
  rw [hconf₁, hconf₂, mem_applyChanges, mem_applyChanges, ← lastChange_eq_none]
  cases hlast : lastChange (setconfigChanges actions) list a with
  | none => simp [hstart]
  | some => simp

/-- One node has a name on its blacklist and the other has not. -/
theorem onChain_lists_differ :
    let db : ConfigDb := ⟨⟨fun _ => [], ⟨0, 1, 1⟩⟩, Table.empty, ⟨0, 1, 1⟩⟩
    (afterStartUp (fun _ => FlatSet.empty.insert 5) db []).db.forceProperty.clfg .actorBlacklist ≠
      (afterStartUp (fun _ => FlatSet.empty) db []).db.forceProperty.clfg .actorBlacklist := by
  decide

/-! ## Undo -/

def Call.change : Call → Option Change
  | .setconfig authorization cfg => setconfigChange authorization cfg
  | _ => none

def Execution.changes (x : Execution) : List Change := x.calls.filterMap Call.change

/-- The changes that the calls of an event make, on a node that is speculative or not. -/
def BuilderEvent.changes (speculative : Bool) : BuilderEvent → List Change
  | .startBlock _ _ incomplete onblock =>
    if speculative || !incomplete then onblock.changes else []
  | .pushTransaction _ x => x.changes
  | .pushScheduledTransaction x => x.changes
  | .commitBlock _ _ _ | .abortBlock | .popBlock => []

def BuilderEvent.IsTransaction : BuilderEvent → Prop
  | .pushTransaction _ _ | .pushScheduledTransaction _ => True
  | _ => False

def BuilderEvent.Fails : BuilderEvent → Prop
  | .pushTransaction _ x => x.fails
  | .pushScheduledTransaction x => x.fails
  | _ => False

/-- The last change of a name changes nothing. -/
def Cancels (conf : Lists (FlatSet Name)) (l : List Change) : Prop :=
  ∀ list a action, lastChange l list a = some action → (action = .insert ↔ a ∈ conf list)

section Calls

variable (headBlockNum : Nat) (p : BlockHeaderState)

theorem Call.exec_conf (call : Call) (s : Session) :
    (Call.exec headBlockNum p call s).2.conf = applyChanges call.change.toList s.conf := by
  cases call with
  | setProposedProducers => rfl
  | setMaxTransactionLifetime => rfl
  | setconfig authorization cfg =>
    exact applySystemNativeSetconfig_conf authorization cfg s.configState

theorem each_exec_conf {calls : List Call} {s : Session}
    (h : (Attempt.each (Call.exec headBlockNum p) calls s).1 = .ok ()) :
    (Attempt.each (Call.exec headBlockNum p) calls s).2.conf =
      applyChanges (calls.filterMap Call.change) s.conf := by
  induction calls generalizing s with
  | nil => rfl
  | cons call calls ih =>
    have hconf := call.exec_conf headBlockNum p s
    rw [Attempt.each] at h ⊢
    rcases hr : Call.exec headBlockNum p call s with ⟨r, s'⟩
    rw [hr] at hconf
    cases r with
    | error =>
      rw [Attempt.bind_of_error hr] at h
      cases h
    | ok =>
      rw [Attempt.bind_of_ok hr] at h ⊢
      rw [ih h, hconf, ← applyChanges_append]
      cases hch : call.change <;> simp [hch]

theorem Execution.exec_conf {x : Execution} {s : Session}
    (h : (Attempt.each (Call.exec headBlockNum p) x.calls s).1 = .ok ()) :
    (x.exec headBlockNum p s).2.conf = applyChanges x.changes s.conf := by
  have hconf := each_exec_conf headBlockNum p h
  rcases hr : Attempt.each (Call.exec headBlockNum p) x.calls s with ⟨r, s'⟩
  rw [hr] at h hconf
  obtain rfl : r = .ok () := h
  rw [Execution.exec, Attempt.bind_of_ok hr]
  split_ifs
  · exact hconf
  · exact hconf

theorem Execution.exec_of_fails {x : Execution} (h : x.fails = true) (s : Session) :
    ∃ e, (x.exec headBlockNum p s).1 = .error e := by
  rcases hr : Attempt.each (Call.exec headBlockNum p) x.calls s with ⟨r, s'⟩
  cases r with
  | error e => exact ⟨e, by rw [Execution.exec, Attempt.bind_of_error hr]⟩
  | ok =>
    rw [Execution.exec, Attempt.bind_of_ok hr, if_pos h]
    exact ⟨_, rfl⟩

end Calls

/-- The database that the transaction of a new block finds. -/
def ChainDb.started (db : ChainDb) (p : BlockHeaderState) : ChainDb :=
  { db with
    proposedSchedule := if p.header.newProducers.isSome then none else db.proposedSchedule }

namespace BlockBuilder

variable {c : Crypto} {trxId : Transaction → Digest} {n : BlockBuilder}

/-- All calls of the event are made. -/
def Made (c : Crypto) (trxId : Transaction → Digest) (n : BlockBuilder) : BuilderEvent → Prop
  | .startBlock when confirmed incomplete onblock => n.pending = none ∧
    ∃ p, n.tip.head.startBlock c when confirmed (n.proposal incomplete) = .ok p ∧
      (n.keeps incomplete → (Attempt.each (Call.exec n.tip.head.blockNum p) onblock.calls
        ⟨n.conf, n.tip.db.started p⟩).1 = .ok ())
  | .pushTransaction trx x => ∃ p transactions, n.pending = some p ∧
    initForInputTrx trxId (blockTime p.blockState.header.timestamp) trx p.db = .ok transactions ∧
    (Attempt.each (Call.exec n.tip.head.blockNum p.blockState) x.calls
      ⟨n.conf, { p.db with transactions := transactions }⟩).1 = .ok ()
  | .pushScheduledTransaction x => ∃ p, n.pending = some p ∧
    (Attempt.each (Call.exec n.tip.head.blockNum p.blockState) x.calls ⟨n.conf, p.db⟩).1 = .ok ()
  | .commitBlock _ _ _ | .abortBlock | .popBlock => True

/-- Every event is carried out. -/
def AllMade (c : Crypto) (trxId : Transaction → Digest) : BlockBuilder → List BuilderEvent → Prop
  | _, [] => True
  | n, e :: es => Made c trxId n e ∧ AllMade c trxId (advance (step c trxId) e n) es

/-- What a transaction does to the sets stays; it leaves the tips alone, and the pending block if it
fails. -/
structure Pushed (n n' : BlockBuilder) (s : Session) (failed : Prop) : Prop where
  conf : n'.conf = s.conf
  tip : n'.tip = n.tip
  speculative : n'.speculative = n.speculative
  failed : failed → n'.pending = n.pending

theorem pushed_finish (p : PendingBlock) (ids : List Digest)
    (r : Except String Unit) (s : Session) :
    Pushed n (n.finish p ids (r, s)) s (∃ e, r = .error e) := by
  cases r with
  | error => exact ⟨rfl, rfl, rfl, fun _ => rfl⟩
  | ok =>
    unfold finish
    dsimp only
    split_ifs
    · exact ⟨rfl, rfl, rfl, fun ⟨_, h⟩ => by cases h⟩
    · exact ⟨rfl, rfl, rfl, fun _ => rfl⟩

theorem pushed_exec {p : PendingBlock} (ids : List Digest) {x : Execution}
    {db : ChainDb} (hcalls : (Attempt.each (Call.exec n.tip.head.blockNum p.blockState) x.calls
      ⟨n.conf, db⟩).1 = .ok ()) :
    ∃ s, Pushed n (n.finish p ids (x.exec n.tip.head.blockNum p.blockState ⟨n.conf, db⟩))
      s x.fails ∧
      s.conf = applyChanges x.changes n.conf := by
  have hconf := Execution.exec_conf _ _ hcalls
  have hfails (hf : x.fails = true) := Execution.exec_of_fails n.tip.head.blockNum p.blockState hf
    ⟨n.conf, db⟩
  rcases hr : x.exec n.tip.head.blockNum p.blockState ⟨n.conf, db⟩ with ⟨r, s⟩
  rw [hr] at hconf hfails
  have h := pushed_finish (n := n) p ids r s
  exact ⟨s, { h with failed := fun hf => h.failed (hfails hf) }, hconf⟩

theorem step_of_made {e : BuilderEvent} (h : Made c trxId n e) (he : e.IsTransaction) :
    ∃ n' s, step c trxId e n = .ok n' ∧ Pushed n n' s e.Fails ∧
      s.conf = applyChanges (e.changes n.speculative) n.conf := by
  cases e with
  | pushTransaction trx =>
    obtain ⟨p, transactions, hp, hinit, hcalls⟩ := h
    obtain ⟨s, hpushed, hconf⟩ := pushed_exec (trxId trx :: p.transactions) hcalls
    refine ⟨_, s, ?_, hpushed, hconf⟩
    simp only [step, pushTransaction, hp]
    rw [inputTransaction_of_ok (s := ⟨n.conf, p.db⟩) hinit]
    rfl
  | pushScheduledTransaction =>
    obtain ⟨p, hp, hcalls⟩ := h
    obtain ⟨s, hpushed, hconf⟩ := pushed_exec p.transactions hcalls
    refine ⟨_, s, ?_, hpushed, hconf⟩
    simp only [step, pushScheduledTransaction, hp]
    rfl
  | startBlock | commitBlock | abortBlock | popBlock => exact he.elim

theorem opened_conf {incomplete : Bool} {p : BlockHeaderState} {onblock : Execution}
    (h : n.keeps incomplete → (Attempt.each (Call.exec n.tip.head.blockNum p) onblock.calls
      ⟨n.conf, n.tip.db.started p⟩).1 = .ok ()) : (n.opened incomplete p onblock).conf =
      applyChanges (if n.speculative || !incomplete then onblock.changes else []) n.conf := by
  unfold opened
  change Session.conf (if n.keeps incomplete then _ else _) =
    applyChanges (if n.keeps incomplete then _ else _) _
  split_ifs with hkeeps
  · have hconf (s : Session) : (transact (onblock.exec n.tip.head.blockNum p) s).2.conf =
        (onblock.exec n.tip.head.blockNum p s).2.conf := by
      unfold transact
      split <;> simp_all
    exact (hconf _).trans (Execution.exec_conf _ _ (h hkeeps))
  · rfl

/-- **The sets** after an event, whatever it does to the database. -/
theorem advance_of_made {e : BuilderEvent} (h : Made c trxId n e) :
    (advance (step c trxId) e n).conf = applyChanges (e.changes n.speculative) n.conf ∧
      (advance (step c trxId) e n).speculative = n.speculative := by
  cases e with
  | startBlock when confirmed incomplete onblock =>
    obtain ⟨hp, p, hstart, hcalls⟩ := h
    have hstep : step c trxId (.startBlock when confirmed incomplete onblock) n = .ok _ :=
      startBlock_eq_ok.mpr ⟨hp, p, hstart, rfl⟩
    rw [advance_of_ok hstep]
    exact ⟨opened_conf hcalls, rfl⟩
  | pushTransaction | pushScheduledTransaction =>
    obtain ⟨n', s, hstep, hpushed, hconf⟩ := step_of_made (c := c) h trivial
    rw [advance_of_ok hstep]
    exact ⟨hpushed.conf.trans hconf, hpushed.speculative⟩
  | commitBlock =>
    simp only [advance, step, commitBlock]
    cases n.pending <;> exact ⟨rfl, rfl⟩
  | abortBlock => exact ⟨rfl, rfl⟩
  | popBlock =>
    simp only [advance, step, popBlock]
    cases n.pending with
    | some => exact ⟨rfl, rfl⟩
    | none => cases n.undo <;> exact ⟨rfl, rfl⟩

theorem run_conf {es : List BuilderEvent} (h : AllMade c trxId n es) :
    (run (step c trxId) n es).conf =
      applyChanges (es.flatMap (BuilderEvent.changes n.speculative)) n.conf := by
  induction es generalizing n with
  | nil => rfl
  | cons e es ih =>
    obtain ⟨hconf, hspec⟩ := advance_of_made h.1
    rw [run_cons, ih h.2, hconf, hspec, List.flatMap_cons, applyChanges_append]

theorem run_of_transactions {es : List BuilderEvent} (h : AllMade c trxId n es)
    (hes : ∀ e ∈ es, e.IsTransaction) : (run (step c trxId) n es).tip = n.tip := by
  induction es generalizing n with
  | nil => rfl
  | cons e es ih =>
    obtain ⟨he, hes⟩ := List.forall_mem_cons.mp hes
    obtain ⟨n', s, hstep, hpushed, -⟩ := step_of_made (c := c) h.1 he
    have hrest := h.2
    rw [advance_of_ok hstep] at hrest
    rw [run_cons, advance_of_ok hstep, ih hrest hes, hpushed.tip]

theorem undone_iff {conf conf' : Lists (FlatSet Name)} {l : List Change}
    (h : conf' = applyChanges l conf) (db : ConfigDb) :
    (conf' = conf ↔ Cancels conf l) ∧
      (ConfigState.Synced ⟨conf, db⟩ → (ConfigState.Synced ⟨conf', db⟩ ↔ Cancels conf l)) := by
  have hiff : conf' = conf ↔ Cancels conf l := by
    rw [h]
    exact applyChanges_eq_self l conf
  refine ⟨hiff, fun hsynced => ?_⟩
  rw [← hiff]
  constructor
  · intro hsynced'
    funext list
    exact FlatSet.toList_injective ((hsynced' list).symm.trans (hsynced list))
  · rintro rfl
    exact hsynced

def toyPending : BlockBuilder :=
  run (step toyCrypto (·.expiration.toNat)) toyGenesis [.startBlock 0 0 false {}]

def blacklists (fails : Bool) : BuilderEvent :=
  .pushScheduledTransaction
    ⟨[.setconfig [producersAccountName] ⟨listActorBlack, 1, 5, ⟨0, 0⟩⟩], fails⟩

/-- **List changes are not undone.** Let there be a pending block, and events whose calls are made.
The sets of the controller are as they were before exactly when the last change that the events make
to each name leaves it as it was; and only then do they still agree with the lists in the database,
if they did so before. This is so for a transaction that fails, for transactions whose block is
aborted, and for all that happens until the blocks that were committed on the tip are popped. -/
theorem lists_undone_iff (c : Crypto) (trxId : Transaction → Digest) (n : BlockBuilder)
    (p : PendingBlock) (hp : n.pending = some p) :
    (∀ e, e.Fails → Made c trxId n e → ∃ n', step c trxId e n = .ok n' ∧ n'.pending = some p ∧
      (n'.conf = n.conf ↔ Cancels n.conf (e.changes n.speculative)) ∧
      (ConfigState.Synced ⟨n.conf, p.db.toConfigDb⟩ →
        (ConfigState.Synced ⟨n'.conf, p.db.toConfigDb⟩ ↔
          Cancels n.conf (e.changes n.speculative)))) ∧
    (∀ es, AllMade c trxId n es → (∀ e ∈ es, e.IsTransaction) →
      let n' := run (step c trxId) n (es ++ [.abortBlock])
      let changes := es.flatMap (BuilderEvent.changes n.speculative)
      n'.tip = n.tip ∧ n'.pending = none ∧ (n'.conf = n.conf ↔ Cancels n.conf changes) ∧
      (ConfigState.Synced ⟨n.conf, n.tip.db.toConfigDb⟩ →
        (ConfigState.Synced ⟨n'.conf, n'.tip.db.toConfigDb⟩ ↔ Cancels n.conf changes))) ∧
    (∀ es, AllMade c trxId n es → (run (step c trxId) n es).tip = n.tip →
      let n' := run (step c trxId) n es
      let changes := es.flatMap (BuilderEvent.changes n.speculative)
      (n'.conf = n.conf ↔ Cancels n.conf changes) ∧
      (ConfigState.Synced ⟨n.conf, n.tip.db.toConfigDb⟩ →
        (ConfigState.Synced ⟨n'.conf, n'.tip.db.toConfigDb⟩ ↔ Cancels n.conf changes))) := by
  refine ⟨fun e hfails hmade => ?_, fun es hmade hes => ?_, fun es hmade htip => ?_⟩
  · have he : e.IsTransaction := by
      cases e with
      | pushTransaction | pushScheduledTransaction => trivial
      | startBlock | commitBlock | abortBlock | popBlock => exact hfails
    obtain ⟨n', s, hstep, hpushed, hconf⟩ := step_of_made (c := c) hmade he
    exact ⟨n', hstep, (hpushed.failed hfails).trans hp,
      undone_iff (hpushed.conf.trans hconf) p.db.toConfigDb⟩
  · have hundo := undone_iff (run_conf hmade) n.tip.db.toConfigDb
    intro n' changes
    have hn' : n' = { run (step c trxId) n es with pending := none } := run_append n es _
    rw [hn']
    dsimp only
    rw [run_of_transactions hmade hes]
    exact ⟨rfl, rfl, hundo⟩
  · have hundo := undone_iff (run_conf hmade) n.tip.db.toConfigDb
    intro n' changes
    rw [show n'.tip = n.tip from htip]
    exact hundo

/-- The blacklist is changed in a block that is committed, another block is built on it, and both
are popped. -/
def poppedBlocks : List BuilderEvent :=
  [blacklists false, .commitBlock 0 0 0, .startBlock 0 0 false {}, .commitBlock 0 0 0, .popBlock,
    .popBlock]

theorem lists_undone_iff_poppedBlocks :
    let n' := run (step toyCrypto (·.expiration.toNat)) toyPending poppedBlocks
    n'.tip = toyPending.tip ∧ (n'.conf = toyPending.conf ↔ Cancels toyPending.conf
      (poppedBlocks.flatMap (BuilderEvent.changes toyPending.speculative))) := by
  have hsome : toyPending.pending.isSome = true := by decide +kernel
  obtain ⟨p, hp⟩ := Option.isSome_iff_exists.mp hsome
  have hmade : AllMade toyCrypto (·.expiration.toNat) toyPending poppedBlocks := by
    let n := run (step toyCrypto (·.expiration.toNat)) toyPending (poppedBlocks.take 2)
    have hstarts : (n.tip.head.startBlock toyCrypto 0 0 (n.proposal false)).toOption.any
        (fun _ => true) := by
      decide +kernel
    obtain ⟨q, hq, -⟩ := exists_ok_of_any hstarts
    exact ⟨⟨_, (Option.some_get hsome).symm, rfl⟩, trivial, ⟨rfl, q, hq, fun _ => rfl⟩, trivial,
      trivial, trivial, trivial⟩
  have htip : (run (step toyCrypto (·.expiration.toNat)) toyPending poppedBlocks).tip =
      toyPending.tip := rfl
  exact ⟨htip, ((lists_undone_iff toyCrypto (·.expiration.toNat) toyPending p hp).2.2
    poppedBlocks hmade htip).1⟩

/-- A name that a transaction has put on the blacklist of actors stays there, in memory, when the
transaction fails, when its block is aborted and when its block is popped, also with a block on it;
the list in the database is empty. -/
theorem blacklist_survives_undo :
    let after (es : List BuilderEvent) :=
      run (step toyCrypto (·.expiration.toNat)) toyPending es
    5 ∉ toyPending.conf .actorBlacklist ∧
    ∀ es ∈ [[blacklists true], [blacklists false, .abortBlock],
        [blacklists false, .commitBlock 0 0 0, .popBlock], poppedBlocks],
      5 ∈ (after es).conf .actorBlacklist ∧
        (after es).tip.db.forceProperty.clfg .actorBlacklist = [] := by
  decide +kernel

end BlockBuilder

end BaccChain
