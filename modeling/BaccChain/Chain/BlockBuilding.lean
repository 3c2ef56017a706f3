import BaccChain.Chain.BlockHeaderState
import BaccChain.Chain.ConfigOnChain
import BaccChain.Commons.Run

/-!
# Building blocks

The controller starts a block on its head, runs transactions in it, and commits it or aborts it. A
committed block can be popped again.

## Main definitions

* `BlockBuilder`, `startBlock`, `commitBlock`: a node that builds blocks
-/

namespace BaccChain

open Commons

/-! ## Transactions -/

/-- A transaction: the fields of the header that the controller checks, and the rest, packed. -/
structure Transaction where
  expiration : UInt32
  refBlockNum : UInt16
  refBlockPrefix : UInt32
  content : List UInt8 := []
  deriving DecidableEq

/-- The record of a transaction, kept until it expires. -/
structure TransactionObject where
  trxId : Digest
  expiration : UInt32
  deriving DecidableEq

/-- The database. -/
structure ChainDb extends ConfigDb where
  proposedSchedule : Option (Nat × ProducerSchedule) := none
  maxTransactionLifetime : Nat
  transactions : List TransactionObject := []
  blockSummaries : Nat → BlockId

/-- The time of a slot in milliseconds: slots of half a second, from the year 2000 on. -/
def blockTime (slot : Nat) : Nat := slot * 500 + 946684800000

def expirationTime (expiration : UInt32) : Nat := expiration.toNat * 1000

def validateExpiration (pendingBlockTime maxTransactionLifetime : Nat) (trx : Transaction) :
    Except String Unit := do
  check (pendingBlockTime ≤ expirationTime trx.expiration) "transaction has expired"
  check (expirationTime trx.expiration ≤ pendingBlockTime + maxTransactionLifetime * 1000)
    "Transaction expiration is too far in the future relative to the reference time"

/-- The lower half of the second of the four 64-bit words of an id. -/
def idPrefix (id : BlockId) : Nat := id / 2 ^ 64 % 2 ^ 32

def Transaction.verifyReferenceBlock (trx : Transaction) (referenceBlock : BlockId) : Prop :=
  trx.refBlockNum.toNat = numFromId referenceBlock % 2 ^ 16 ∧
    trx.refBlockPrefix.toNat = idPrefix referenceBlock

instance (trx : Transaction) (id : BlockId) : Decidable (trx.verifyReferenceBlock id) :=
  inferInstanceAs (Decidable (_ ∧ _))

/-- `validate_tapos`. -/
def validateTapos (blockSummaries : Nat → BlockId) (trx : Transaction) : Except String Unit :=
  check (trx.verifyReferenceBlock (blockSummaries trx.refBlockNum.toNat))
    "Transaction's reference block did not match. Is this transaction from a different fork?"

/-- A transaction with the id of a recorded one is a duplicate. -/
def recordTransaction (id : Digest) (expiration : UInt32) (transactions : List TransactionObject) :
    Except String (List TransactionObject) := do
  check (∀ t ∈ transactions, t.trxId ≠ id) "duplicate transaction"
  pure (transactions.orderedInsert (fun t t' => t.expiration < t'.expiration) ⟨id, expiration⟩)

/-- The entries at the front of the index go until one has not expired. -/
def clearExpiredInputTransactions (now : Nat) (transactions : List TransactionObject) :
    List TransactionObject :=
  transactions.dropWhile fun t => expirationTime t.expiration < now

def createBlockSummary (id : BlockId) (blockSummaries : Nat → BlockId) : Nat → BlockId :=
  Function.update blockSummaries (numFromId id % 2 ^ 16) id

/-! ## Calls of contracts -/

def BlockHeaderState.latestSchedule (p : BlockHeaderState) : ProducerSchedule :=
  if p.pendingSchedule.producers = [] then p.activeSchedule else p.pendingSchedule

/-- A proposed schedule from an earlier block stays until it becomes pending; one from this block
can be replaced. -/
def setProposedProducers (headBlockNum : Nat) (p : BlockHeaderState) (producers : List ProducerKey)
    (proposed : Option (Nat × ProducerSchedule)) : Int × Option (Nat × ProducerSchedule) :=
  let curBlockNum := add32 headBlockNum 1
  if proposed.any fun pr => pr.1 ≠ curBlockNum ∨ producers = pr.2.producers then (-1, proposed)
  else if producers = p.latestSchedule.producers then (-1, proposed)
  else
    let sch : ProducerSchedule := ⟨add32 p.latestSchedule.version 1, producers⟩
    (sch.version, some (curBlockNum, sch))

/-- A privileged call of a contract. -/
inductive Call
  | setProposedProducers (producers : List ProducerKey)
  | setMaxTransactionLifetime (seconds : Nat)
  | setconfig (authorization : List Name) (cfg : Setconfig)

/-- What a transaction reads and writes: the lists in memory and the database. -/
structure Session where
  conf : Lists (FlatSet Name)
  db : ChainDb

def Session.configState (s : Session) : ConfigState := ⟨s.conf, s.db.toConfigDb⟩

/-- A call made while `p` is built on the block numbered `headBlockNum`. -/
def Call.exec (headBlockNum : Nat) (p : BlockHeaderState) : Call → Attempt Session Unit
  | .setProposedProducers producers => Attempt.update fun s =>
    { s with db.proposedSchedule :=
      (BaccChain.setProposedProducers headBlockNum p producers s.db.proposedSchedule).2 }
  | .setMaxTransactionLifetime seconds => Attempt.update fun s =>
    { s with db.maxTransactionLifetime := seconds }
  | .setconfig authorization cfg => fun s =>
    let (r, s') := applySystemNativeSetconfig authorization cfg s.configState
    (r, ⟨s'.conf, { s.db with toConfigDb := s'.db }⟩)

/-- The run of a transaction: its calls, and whether it fails after them, for any of the reasons
that are not modelled. -/
structure Execution where
  calls : List Call := []
  fails : Bool := false

def Execution.exec (headBlockNum : Nat) (p : BlockHeaderState) (x : Execution) :
    Attempt Session Unit := do
  Attempt.each (Call.exec headBlockNum p) x.calls
  if x.fails then Attempt.throws "transaction failed" else pure ()

/-- An undo session: an error takes back what was done to the database. -/
def transact (x : Attempt Session Unit) : Attempt Session Unit := fun s =>
  match x s with
  | (.ok u, s') => (.ok u, s')
  | (.error e, s') => (.error e, { s' with db := s.db })

/-! ## The controller -/

/-- A block of the chain: its state and the ids of its input transactions. -/
structure ChainBlock where
  state : BlockHeaderState
  transactions : List Digest

/-- The head and the database after it, and the blocks up to the head, from the head back. -/
structure Tip where
  head : BlockHeaderState
  db : ChainDb
  blocks : List ChainBlock

/-- The block that is being built, with the ids of its input transactions from the last back. -/
structure PendingBlock where
  incomplete : Bool
  blockState : BlockHeaderState
  db : ChainDb
  transactions : List Digest := []

/-- The tip with the block on it: the header is finalized and signed, and the block has its slot in
the ring of summaries. -/
def Tip.commit (c : Crypto) (t : Tip) (p : PendingBlock) (actionMroot transactionMroot : Digest)
    (signature : Signature) : Tip :=
  let b := p.blockState.finalizeBlock c actionMroot transactionMroot
  let head := { b with header.producerSignature := signature }
  { head
    db := { p.db with blockSummaries := createBlockSummary b.id p.db.blockSummaries }
    blocks := ⟨head, p.transactions⟩ :: t.blocks }

/-- The controller. -/
structure BlockBuilder where
  speculative : Bool
  conf : Lists (FlatSet Name)
  tip : Tip
  undo : List Tip := []
  pending : Option PendingBlock := none

/-- What a node does with blocks. -/
inductive BuilderEvent
  | startBlock (when confirmBlockCount : Nat) (incomplete : Bool) (onblock : Execution)
  | pushTransaction (trx : Transaction) (x : Execution)
  | pushScheduledTransaction (x : Execution)
  | commitBlock (actionMroot transactionMroot : Digest) (signature : Signature)
  | abortBlock
  | popBlock

namespace BlockBuilder

/-- The node keeps what it does in a block that it produces only in speculative mode. -/
def keeps (n : BlockBuilder) (incomplete : Bool) : Bool := n.speculative || !incomplete

/-- The part of `start_block` that writes to the database: a proposed schedule that has become
pending is proposed no longer, the transaction of the block runs, and its failure is ignored, and
expired transactions are forgotten. -/
def openBlock (headBlockNum : Nat) (p : BlockHeaderState) (onblock : Execution) (s : Session) :
    Session :=
  let proposedSchedule := if p.header.newProducers.isSome then none else s.db.proposedSchedule
  let s := (transact (onblock.exec headBlockNum p)
    { s with db.proposedSchedule := proposedSchedule }).2
  { s with db.transactions :=
    clearExpiredInputTransactions (blockTime p.header.timestamp) s.db.transactions }

def proposal (n : BlockBuilder) (incomplete : Bool) : Option (Nat × ProducerSchedule) :=
  if n.keeps incomplete then n.tip.db.proposedSchedule else none

/-- What starting a block writes, which is nothing if the block will not be kept. -/
def opened (n : BlockBuilder) (incomplete : Bool) (p : BlockHeaderState) (onblock : Execution) :
    Session :=
  if n.keeps incomplete then openBlock n.tip.head.blockNum p onblock ⟨n.conf, n.tip.db⟩
  else ⟨n.conf, n.tip.db⟩

/-- `start_block`. -/
def startBlock (c : Crypto) (when confirmBlockCount : Nat) (incomplete : Bool)
    (onblock : Execution) (n : BlockBuilder) : Except String BlockBuilder := do
  check n.pending.isNone "pending block already exists"
  let p ← n.tip.head.startBlock c when confirmBlockCount (n.proposal incomplete)
  let s := n.opened incomplete p onblock
  pure { n with conf := s.conf, pending := some ⟨incomplete, p, s.db, []⟩ }

/-- The part of `init_for_input_trx` that is modelled: the checks of the header, and the index of
recent transactions with the transaction. -/
def initForInputTrx (trxId : Transaction → Digest) (pendingBlockTime : Nat) (trx : Transaction)
    (db : ChainDb) : Except String (List TransactionObject) := do
  validateExpiration pendingBlockTime db.maxTransactionLifetime trx
  validateTapos db.blockSummaries trx
  recordTransaction (trxId trx) trx.expiration db.transactions

/-- An input transaction is checked and recorded before it runs. -/
def inputTransaction (trxId : Transaction → Digest) (headBlockNum : Nat) (p : BlockHeaderState)
    (trx : Transaction) (x : Execution) : Attempt Session Unit := do
  let s ← Attempt.read
  let transactions ← liftM (initForInputTrx trxId (blockTime p.header.timestamp) trx s.db)
  Attempt.update fun s => { s with db.transactions := transactions }
  x.exec headBlockNum p

/-- The result of a transaction: the lists in memory are as it left them in any case; the database
and the ids of the block change if it has succeeded and is kept. -/
def finish (n : BlockBuilder) (p : PendingBlock) (ids : List Digest)
    (r : Except String Unit × Session) : BlockBuilder :=
  match r with
  | (.ok _, s) =>
    if n.keeps p.incomplete then
      { n with conf := s.conf, pending := some { p with db := s.db, transactions := ids } }
    else { n with conf := s.conf }
  | (.error _, s) => { n with conf := s.conf }

/-- `push_transaction`. -/
def pushTransaction (trxId : Transaction → Digest) (trx : Transaction) (x : Execution)
    (n : BlockBuilder) : Except String BlockBuilder :=
  match n.pending with
  | none => .error "no pending block"
  | some p =>
    pure (n.finish p (trxId trx :: p.transactions)
      (inputTransaction trxId n.tip.head.blockNum p.blockState trx x ⟨n.conf, p.db⟩))

def pushScheduledTransaction (x : Execution) (n : BlockBuilder) : Except String BlockBuilder :=
  match n.pending with
  | none => .error "no pending block"
  | some p =>
    pure (n.finish p p.transactions (x.exec n.tip.head.blockNum p.blockState ⟨n.conf, p.db⟩))

/-- `finalize_block`, `sign_block`, `commit_block`. -/
def commitBlock (c : Crypto) (actionMroot transactionMroot : Digest) (signature : Signature)
    (n : BlockBuilder) : Except String BlockBuilder :=
  match n.pending with
  | none => .error "it is not valid to finalize when there is no pending block"
  | some p =>
    pure { n with
      tip := n.tip.commit c p actionMroot transactionMroot signature
      undo := n.tip :: n.undo
      pending := none }

def abortBlock (n : BlockBuilder) : Except String BlockBuilder := pure { n with pending := none }

/-- `pop_block`. -/
def popBlock (n : BlockBuilder) : Except String BlockBuilder := do
  check n.pending.isNone "it is not valid to push a block when there is a pending block"
  match n.undo with
  | [] => .error "attempt to pop beyond last irreversible block"
  | t :: undo => pure { n with tip := t, undo }

def step (c : Crypto) (trxId : Transaction → Digest) :
    BuilderEvent → BlockBuilder → Except String BlockBuilder
  | .startBlock when confirmBlockCount incomplete onblock =>
    startBlock c when confirmBlockCount incomplete onblock
  | .pushTransaction trx x => pushTransaction trxId trx x
  | .pushScheduledTransaction x => pushScheduledTransaction x
  | .commitBlock actionMroot transactionMroot signature =>
    commitBlock c actionMroot transactionMroot signature
  | .abortBlock => abortBlock
  | .popBlock => popBlock

/-- The state before the first block. All slots of the ring are there from the beginning; the id of
the genesis block is in slot 1. -/
def genesis (c : Crypto) (producers : List ProducerKey) (initialTimestamp : Nat) (chainId : Digest)
    (speculative : Bool) (conf : Lists (FlatSet Name)) (configDb : ConfigDb)
    (maxTransactionLifetime : Nat) : BlockBuilder :=
  let head := BlockHeaderState.genesis c ⟨0, producers⟩ initialTimestamp chainId
  { speculative, conf
    tip := {
      head
      db := {
        toConfigDb := configDb
        maxTransactionLifetime
        blockSummaries := Function.update (fun _ => 0) 1 head.id }
      blocks := [⟨head, []⟩] } }

/-- The state before the first block of a chain with one producer, for runs on fixed inputs. -/
def toyGenesis : BlockBuilder :=
  genesis toyCrypto [⟨1, 7⟩] 10 5 true (fun _ => .empty)
    ⟨⟨fun _ => [], ⟨0, 1, 1⟩⟩, Table.empty, ⟨0, 1, 1⟩⟩ 3600

end BlockBuilder

end BaccChain
