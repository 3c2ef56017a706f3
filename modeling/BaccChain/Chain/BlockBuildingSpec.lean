import BaccChain.Chain.BlockBuilding

/-!
# What building blocks does

Each step of the controller, as far as it succeeds, and the rule for what holds in every state of a
run: a property of tips, and one of the pending block on a tip.
-/

namespace BaccChain

open Commons

/-! ## Transactions -/

section Transactions

variable {I : Session → Prop} {headBlockNum : Nat} {p : BlockHeaderState} {x : Execution}

theorem Execution.exec_keeps (h : ∀ call, Attempt.Keeps I (Call.exec headBlockNum p call)) :
    Attempt.Keeps I (x.exec headBlockNum p) := by
  refine .bind (.each h _) fun _ => ?_
  exact .ite (fun _ => .throws _) fun _ => .pure ()

theorem Execution.of_exec {s s' : Session} (hx : x.exec headBlockNum p s = (.ok (), s'))
    (h : ∀ call, Attempt.Keeps I (Call.exec headBlockNum p call)) (hs : I s) : I s' := by
  have hkept := exec_keeps (x := x) h s hs
  rw [hx] at hkept
  exact hkept

theorem Call.exec_frame (call : Call) (transactions : List TransactionObject)
    (blockSummaries : Nat → BlockId) :
    Attempt.Keeps (fun s => s.db.transactions = transactions ∧
      s.db.blockSummaries = blockSummaries) (Call.exec headBlockNum p call) := by
  cases call with
  | setProposedProducers => exact .update fun _ h => h
  | setMaxTransactionLifetime => exact .update fun _ h => h
  | setconfig => exact fun _ h => h

theorem transact_keeps {J : ChainDb → Prop} {y : Attempt Session Unit}
    (h : Attempt.Keeps (fun s => J s.db) y) : Attempt.Keeps (fun s => J s.db) (transact y) := by
  intro s hs
  have hy := h s hs
  unfold transact
  rcases hr : y s with ⟨r, s'⟩
  rw [hr] at hy
  cases r with
  | ok => exact hy
  | error => exact hs

theorem Execution.transact_frame (headBlockNum : Nat) (p : BlockHeaderState) (x : Execution)
    (s : Session) :
    (transact (x.exec headBlockNum p) s).2.db.transactions = s.db.transactions ∧
      (transact (x.exec headBlockNum p) s).2.db.blockSummaries = s.db.blockSummaries :=
  transact_keeps (J := fun db => db.transactions = s.db.transactions ∧
      db.blockSummaries = s.db.blockSummaries)
    (Execution.exec_keeps fun call => call.exec_frame _ _) s ⟨rfl, rfl⟩

end Transactions

namespace BlockBuilder

variable {c : Crypto} {trxId : Transaction → Digest} {n n' : BlockBuilder}

/-! ## Steps -/

theorem startBlock_eq_ok {when confirmed : Nat} {incomplete : Bool} {onblock : Execution} :
    n.startBlock c when confirmed incomplete onblock = .ok n' ↔
      n.pending = none ∧
        ∃ p, n.tip.head.startBlock c when confirmed (n.proposal incomplete) = .ok p ∧
        n' = { n with
          conf := (n.opened incomplete p onblock).conf
          pending := some ⟨incomplete, p, (n.opened incomplete p onblock).db, []⟩ } := by
  simp only [startBlock, ok_iff, Option.isNone_iff_eq_none]

theorem opened_frame (n : BlockBuilder) (incomplete : Bool) (p : BlockHeaderState)
    (onblock : Execution) :
    (n.opened incomplete p onblock).db.transactions =
        (if n.keeps incomplete then
          clearExpiredInputTransactions (blockTime p.header.timestamp) n.tip.db.transactions
        else n.tip.db.transactions) ∧
      (n.opened incomplete p onblock).db.blockSummaries = n.tip.db.blockSummaries := by
  unfold opened
  split_ifs
  · obtain ⟨htrx, hsummaries⟩ := Execution.transact_frame n.tip.head.blockNum p onblock
      ⟨n.conf, { n.tip.db with
        proposedSchedule :=
          if p.header.newProducers.isSome then none else n.tip.db.proposedSchedule }⟩
    exact ⟨congrArg _ htrx, hsummaries⟩
  · exact ⟨rfl, rfl⟩

section Input
variable {headBlockNum : Nat} {p : BlockHeaderState} {trx : Transaction}
    {x : Execution} {s s' : Session}

theorem inputTransaction_of_ok {transactions : List TransactionObject}
    (h : initForInputTrx trxId (blockTime p.header.timestamp) trx s.db = .ok transactions) :
    inputTransaction trxId headBlockNum p trx x s =
      x.exec headBlockNum p { s with db.transactions := transactions } := by
  rw [inputTransaction, Attempt.read_bind, Attempt.lift_bind_of_ok h, Attempt.update_bind]

theorem inputTransaction_of_error {e : String}
    (h : initForInputTrx trxId (blockTime p.header.timestamp) trx s.db = .error e) :
    inputTransaction trxId headBlockNum p trx x s = (.error e, s) := by
  rw [inputTransaction, Attempt.read_bind, Attempt.lift_bind_of_error h]

theorem inputTransaction_eq_ok
    (h : inputTransaction trxId headBlockNum p trx x s = (.ok (), s')) :
    ∃ transactions, initForInputTrx trxId (blockTime p.header.timestamp) trx s.db =
        .ok transactions ∧
      x.exec headBlockNum p { s with db.transactions := transactions } = (.ok (), s') := by
  rcases hr : initForInputTrx trxId (blockTime p.header.timestamp) trx s.db with e | transactions
  · rw [inputTransaction_of_error hr] at h
    cases h
  · rw [inputTransaction_of_ok hr] at h
    exact ⟨transactions, rfl, h⟩

theorem initForInputTrx_eq_ok {now : Nat} {db : ChainDb} {transactions : List TransactionObject} :
    initForInputTrx trxId now trx db = .ok transactions ↔
      validateExpiration now db.maxTransactionLifetime trx = .ok () ∧
        validateTapos db.blockSummaries trx = .ok () ∧
        recordTransaction (trxId trx) trx.expiration db.transactions = .ok transactions := by
  simp only [initForInputTrx, ok_iff]

end Input

/-! ## The rule -/

/-- A property of tips and one of the pending block on a tip that building a block keeps, where the
events may be restricted. -/
structure Building (c : Crypto) (trxId : Transaction → Digest)
    (E : BlockBuilder → BuilderEvent → Prop) (T : Tip → Prop) (P : Tip → PendingBlock → Prop) :
    Prop where
  start {n : BlockBuilder} {when confirmed : Nat} {incomplete : Bool} {onblock : Execution}
    {p : BlockHeaderState} : E n (.startBlock when confirmed incomplete onblock) → T n.tip →
      n.tip.head.startBlock c when confirmed (n.proposal incomplete) = .ok p →
      P n.tip ⟨incomplete, p, (n.opened incomplete p onblock).db, []⟩
  input {n : BlockBuilder} {p : PendingBlock} {trx : Transaction} {x : Execution} {s : Session} :
    E n (.pushTransaction trx x) → T n.tip → P n.tip p →
      inputTransaction trxId n.tip.head.blockNum p.blockState trx x ⟨n.conf, p.db⟩ = (.ok (), s) →
      P n.tip { p with db := s.db, transactions := trxId trx :: p.transactions }
  scheduled {n : BlockBuilder} {p : PendingBlock} {x : Execution} {s : Session} :
    E n (.pushScheduledTransaction x) → T n.tip → P n.tip p →
      x.exec n.tip.head.blockNum p.blockState ⟨n.conf, p.db⟩ = (.ok (), s) →
      P n.tip { p with db := s.db }
  commit {t : Tip} {p : PendingBlock} {actionMroot transactionMroot : Digest}
    {signature : Signature} :
    T t → P t p → T (t.commit c p actionMroot transactionMroot signature)

/-- The properties hold of all tips and of the pending block. -/
structure Holds (T : Tip → Prop) (P : Tip → PendingBlock → Prop) (n : BlockBuilder) : Prop where
  tip : T n.tip
  undo : ∀ t ∈ n.undo, T t
  pending : ∀ p, n.pending = some p → P n.tip p

theorem Holds.finish {T : Tip → Prop} {P : Tip → PendingBlock → Prop} (h : Holds T P n)
    {p : PendingBlock} {ids : List Digest} (r : Except String Unit) (s : Session)
    (hr : r = .ok () → P n.tip { p with db := s.db, transactions := ids }) :
    Holds T P (n.finish p ids (r, s)) := by
  cases r with
  | error => exact ⟨h.tip, h.undo, h.pending⟩
  | ok =>
    unfold BlockBuilder.finish
    dsimp only
    split_ifs
    · refine ⟨h.tip, h.undo, fun q hq => ?_⟩
      obtain rfl := Option.some.inj hq
      exact hr rfl
    · exact ⟨h.tip, h.undo, h.pending⟩

namespace Building

variable {E : BlockBuilder → BuilderEvent → Prop} {T : Tip → Prop} {P : Tip → PendingBlock → Prop}

theorem step (b : Building c trxId E T P) {e : BuilderEvent} (hs : step c trxId e n = .ok n')
    (he : E n e) (h : Holds T P n) : Holds T P n' := by
  cases e with
  | startBlock =>
    obtain ⟨-, p, hp, rfl⟩ := startBlock_eq_ok.mp hs
    refine ⟨h.tip, h.undo, fun q hq => ?_⟩
    obtain rfl := Option.some.inj hq
    exact b.start he h.tip hp
  | pushTransaction trx x =>
    simp only [BlockBuilder.step, pushTransaction] at hs
    split at hs
    · cases hs
    next p hp =>
      obtain rfl := pure_eq_ok.mp hs
      rcases hr : inputTransaction trxId n.tip.head.blockNum p.blockState trx x ⟨n.conf, p.db⟩ with
        ⟨r, s⟩
      refine h.finish r s fun hok => b.input he h.tip (h.pending p hp) ?_
      rw [hr, hok]
  | pushScheduledTransaction x =>
    simp only [BlockBuilder.step, pushScheduledTransaction] at hs
    split at hs
    · cases hs
    next p hp =>
      obtain rfl := pure_eq_ok.mp hs
      rcases hr : x.exec n.tip.head.blockNum p.blockState ⟨n.conf, p.db⟩ with ⟨r, s⟩
      refine h.finish r s fun hok => b.scheduled he h.tip (h.pending p hp) ?_
      rw [hr, hok]
  | commitBlock =>
    simp only [BlockBuilder.step, commitBlock] at hs
    split at hs
    · cases hs
    next p hp =>
      obtain rfl := pure_eq_ok.mp hs
      refine ⟨b.commit h.tip (h.pending p hp), ?_, fun q hq => by cases hq⟩
      exact List.forall_mem_cons.mpr ⟨h.tip, h.undo⟩
  | abortBlock =>
    obtain rfl := pure_eq_ok.mp hs
    exact ⟨h.tip, h.undo, fun q hq => by cases hq⟩
  | popBlock =>
    simp only [BlockBuilder.step, popBlock, ok_iff, Option.isNone_iff_eq_none] at hs
    obtain ⟨hnone, hs⟩ := hs
    split at hs
    · cases hs
    next t undo hundo =>
      obtain rfl := pure_eq_ok.mp hs
      have hall := h.undo
      rw [hundo, List.forall_mem_cons] at hall
      exact ⟨hall.1, hall.2, fun q hq => by rw [hnone] at hq; cases hq⟩

theorem run (b : Building c trxId E T P) (h : Holds T P n) {l : List BuilderEvent}
    (hE : Along (BlockBuilder.step c trxId) E n l) :
    Holds T P (run (BlockBuilder.step c trxId) n l) :=
  run_induction (Holds T P) (fun _ _ _ h he hs => b.step hs he h) h hE

end Building

theorem holds_genesis {T : Tip → Prop} {P : Tip → PendingBlock → Prop} {c : Crypto}
    {producers : List ProducerKey} {initialTimestamp : Nat} {chainId : Digest} {speculative : Bool}
    {conf : Lists (FlatSet Name)} {configDb : ConfigDb} {maxTransactionLifetime : Nat}
    (h : T (genesis c producers initialTimestamp chainId speculative conf configDb
      maxTransactionLifetime).tip) :
    Holds T P (genesis c producers initialTimestamp chainId speculative conf configDb
      maxTransactionLifetime) :=
  ⟨h, fun _ ht => (by cases ht), fun _ hp => (by cases hp)⟩

end BlockBuilder

end BaccChain
