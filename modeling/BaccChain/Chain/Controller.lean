import BaccChain.Chain.ForkDatabase
import BaccChain.Commons.Attempt

/-!
# The controller: received blocks and fork switches

The controller puts a received block into the fork database, which may prune the oldest level of the
index.

## Main definitions

* `pushBlock`, `add`, `maybeSwitchForks`, `onIrreversible`: what a node does with a block
-/

namespace BaccChain

open Commons

/-- `db_read_mode`. -/
inductive DbReadMode
  | speculative | head | readOnly | irreversible
  deriving DecidableEq

/-- A node: the fork database, the block that is executed last, the chain state with those to which
it can go back, from the last session back, and the revision of the last session, the last block of
the block log, and the blocks passed to the signal so far. -/
structure Controller (σ : Type) where
  readMode : DbReadMode
  forkDb : ForkDatabase
  head : BlockHeaderState
  state : σ
  undo : List σ := []
  revision : Nat := 0
  logHead : BlockHeaderState
  irreversible : List BlockState := []

/-- A received block, how blocks execute while it is handled, and whether what is written to the
databases is taken. -/
structure Push (σ : Type) where
  block : SignedBlockHeader
  applyBlock : BlockHeaderState → σ → Except String σ
  writes : Bool := true

namespace Controller

open Attempt

variable {σ : Type}

def updateForkDb (f : ForkDatabase → ForkDatabase) : Attempt (Controller σ) Unit :=
  update fun ctl => { ctl with forkDb := f ctl.forkDb }

/-- A change of the fork database. After a read where there is no block, which is undefined in the
source, nothing is known of the database. -/
def changeForkDb (f : ForkDatabase → Except String ForkDatabase) : Attempt (Controller σ) Unit :=
  fun ctl =>
    match f ctl.forkDb with
    | .ok db => (.ok (), { ctl with forkDb := db })
    | .error e => (.error e, { ctl with forkDb := ctl.forkDb.lost })

theorem changeForkDb_of_ok {f : ForkDatabase → Except String ForkDatabase} {ctl : Controller σ}
    {db : ForkDatabase} (h : f ctl.forkDb = .ok db) :
    changeForkDb f ctl = (.ok (), { ctl with forkDb := db }) := by
  rw [changeForkDb, h]

theorem changeForkDb_of_error {f : ForkDatabase → Except String ForkDatabase} {ctl : Controller σ}
    {msg : String} (h : f ctl.forkDb = .error msg) :
    changeForkDb f ctl = (.error msg, { ctl with forkDb := ctl.forkDb.lost }) := by
  rw [changeForkDb, h]

/-- `set_validity`. -/
def setValidity (id : BlockId) (valid : Bool) : Attempt (Controller σ) Unit :=
  changeForkDb (·.setValidity id valid)

def markInCurrentChain (id : BlockId) (flag : Bool) : Attempt (Controller σ) Unit := do
  let ctl ← read
  let db ← ctl.forkDb.markInCurrentChain id flag
  updateForkDb fun _ => db

def setHead (b : BlockHeaderState) : Attempt (Controller σ) Unit :=
  update fun ctl => { ctl with head := b }

/-- A block is executed in a session of its own. -/
def session (ctl : Controller σ) (state : σ) : Controller σ :=
  { ctl with state, undo := ctl.state :: ctl.undo, revision := ctl.revision + 1 }

/-- The last session is undone. -/
def undoSession (ctl : Controller σ) : Controller σ :=
  match ctl.undo with
  | [] => ctl
  | state :: undo => { ctl with state, undo, revision := ctl.revision - 1 }

/-- `db.commit`. -/
def commitSessions (ctl : Controller σ) (revision : Nat) : Controller σ :=
  { ctl with undo := ctl.undo.take (ctl.revision - revision) }

/-- The block is executed, and the chain state before it is kept for an undo. -/
def applyBlock (e : Push σ) (b : BlockState) : Attempt (Controller σ) Unit := do
  let ctl ← read
  let state ← e.applyBlock b.toBlockHeaderState ctl.state
  update (·.session state)

/-- `pop_block`. -/
def popBlock : Attempt (Controller σ) Unit := do
  let ctl ← read
  let prev ← ctl.forkDb.theBlock ctl.head.header.previous
    "attempt to pop beyond last irreversible block"
  setHead prev.toBlockHeaderState
  update undoSession

/-! ## Irreversible blocks -/

/-- Whether the block goes to the block log, where it has to continue the last block. -/
def appendsToLog (logHead : BlockHeaderState) (s : BlockState) : Except String Bool :=
  if logHead.blockNum < s.blockNum then do
    check (s.blockNum - 1 = logHead.blockNum) "unlinkable block"
    check (s.header.previous = logHead.id) "irreversible doesn't link to block log head"
    pure true
  else pure false

def writeLog (ctl : Controller σ) (s : BlockState) (append : Bool) : Controller σ :=
  { ctl with logHead := if append then s.toBlockHeaderState else ctl.logHead }

/-- The block after the head is executed. The block of genesis already is. -/
def advanceHead (e : Push σ) (s : BlockState) : Attempt (Controller σ) Unit := do
  let ctl ← read
  if s.blockNum = add32 ctl.head.blockNum 1 then do
    applyBlock e s
    setHead s.toBlockHeaderState
  else
    check (ctl.head.blockNum = 1)
      "Attempting to re-apply an irreversible block that was not the implied genesis block"

def executeIrreversible (e : Push σ) (s : BlockState) : Attempt (Controller σ) Unit := do
  advanceHead e s
  let ctl ← read
  markInCurrentChain ctl.head.id true
  setValidity ctl.head.id true

/-- `on_irreversible`. -/
def onIrreversible (e : Push σ) (s : BlockState) : Attempt (Controller σ) Unit := do
  let ctl ← read
  let append ← appendsToLog ctl.logHead s
  update (·.commitSessions s.blockNum)
  check (e.writes = true) "write failed"
  update (·.writeLog s append)
  if ctl.readMode = .irreversible then executeIrreversible e s else pure ()

/-- A block is passed to the signal, whose handler may throw. -/
def emitIrreversible (e : Push σ) (s : BlockState) : Attempt (Controller σ) Unit := do
  update fun ctl => { ctl with irreversible := ctl.irreversible ++ [s] }
  onIrreversible e s

/-- A block that is in the index is passed to the signal and erased. -/
def signalIrreversible (e : Push σ) (h : BlockState) : Attempt (Controller σ) Unit := do
  let ctl ← read
  match ctl.forkDb.getBlock h.id with
  | some s => do
    emitIrreversible e s
    updateForkDb (·.erase s.id)
  | none => pure ()

/-- A block is irreversible, and the others of its level are not. -/
def pruneLevel (e : Push σ) (h : BlockState) : Attempt (Controller σ) Unit := do
  signalIrreversible e h
  changeForkDb (·.clearLevel h.blockNum)

def pruneBelow (e : Push σ) (num : Nat) : Nat → Attempt (Controller σ) Unit
  | 0 => pure ()
  | n + 1 => do
    let ctl ← read
    match ctl.forkDb.index.head? with
    | some b =>
      if b.blockNum < num then do
        pruneLevel e b
        pruneBelow e num n
      else pure ()
    | none => pure ()

/-- The levels up to that of a block, which is the one that stays in its level. -/
def prune (e : Push σ) (h : BlockState) : Attempt (Controller σ) Unit := do
  let ctl ← read
  pruneBelow e h.blockNum ctl.forkDb.index.length
  pruneLevel e h

/-- `fork_database::add`, with the signal. -/
def add (e : Push σ) (n : BlockState) (skipValidatePrevious : Bool) :
    Attempt (Controller σ) Unit := do
  let ctl ← read
  let db ← ctl.forkDb.insertBlock n skipValidatePrevious
  updateForkDb fun _ => db
  match db.toPrune with
  | some oldest => prune e oldest
  | none => pure ()

/-! ## Fork switches -/

/-- The head of the fork database builds on the head: it is executed, or removed if that fails. -/
def extendHead (e : Push σ) (newHead : BlockState) : Attempt (Controller σ) Unit :=
  catching
    (do
      applyBlock e newHead
      markInCurrentChain newHead.id true
      setValidity newHead.id true
      setHead newHead.toBlockHeaderState)
    fun err => do
      setValidity newHead.id false
      throws err

def popBlocks (l : List BlockState) : Attempt (Controller σ) Unit :=
  each (fun b => do
    markInCurrentChain b.id false
    popBlock) l

def checkSync (branch : List BlockState) (msg : String) : Attempt (Controller σ) Unit := do
  let ctl ← read
  check (branch.getLast?.map (·.header.previous) = some ctl.head.id) msg

/-- A block of the new branch failed: it is removed, the blocks that were executed before it are
undone, and the old branch is executed again. -/
def revertSwitch (e : Push σ) (second applied : List BlockState) (b : BlockState) (err : String) :
    Attempt (Controller σ) Unit := do
  setValidity b.id false
  popBlocks applied
  checkSync second "loss of sync between fork_db and chainbase during fork switch reversal"
  each (fun b => do
    applyBlock e b
    setHead b.toBlockHeaderState
    markInCurrentChain b.id true) second.reverse
  throws err

/-- The blocks of the new branch are executed, the oldest first. -/
def applyBranch (e : Push σ) (second : List BlockState) :
    (applied pending : List BlockState) → Attempt (Controller σ) Unit
  | _, [] => pure ()
  | applied, b :: pending => do
    catching
      (do
        applyBlock e b
        setHead b.toBlockHeaderState
        markInCurrentChain b.id true
        setValidity b.id true)
      (revertSwitch e second applied b)
    applyBranch e second (b :: applied) pending

/-- The controller leaves its branch for that of the head of the fork database. -/
def switchForks (e : Push σ) (newHead : BlockState) : Attempt (Controller σ) Unit := do
  let ctl ← read
  let (first, second) ← ctl.forkDb.fetchBranchFrom newHead.id ctl.head.id
  popBlocks second
  checkSync second "loss of sync between fork_db and chainbase during fork switch"
  applyBranch e second [] first.reverse

/-- `maybe_switch_forks`. -/
def maybeSwitchForks (e : Push σ) : Attempt (Controller σ) Unit := do
  let ctl ← read
  match ctl.forkDb.headBlock with
  | none => throws "null block"
  | some newHead =>
    if newHead.header.previous = ctl.head.id then extendHead e newHead
    else if newHead.id ≠ ctl.head.id then switchForks e newHead
    else pure ()

/-! ## Received blocks -/

def addReceived (c : Crypto) (e : Push σ) : Attempt (Controller σ) Unit := do
  let ctl ← read
  let n ← ctl.forkDb.createBlockState c e.block false
  add e n false

/-- `push_block`. -/
def pushBlock (c : Crypto) (e : Push σ) : Attempt (Controller σ) Unit := do
  addReceived c e
  let ctl ← read
  if ctl.readMode ≠ .irreversible then maybeSwitchForks e else pure ()

def step (c : Crypto) (e : Push σ) (ctl : Controller σ) : Except String (Controller σ) :=
  .ok (pushBlock c e ctl).2

/-- `initialize_fork_db`. -/
def initializeForkDb (c : Crypto) (readMode : DbReadMode) (initialSchedule : ProducerSchedule)
    (initialTimestamp : Nat) (chainId : Digest) (state : σ) : Controller σ :=
  let head := BlockHeaderState.genesis c initialSchedule initialTimestamp chainId
  { readMode
    forkDb := {
      index := [{ toBlockHeaderState := head }]
      head := some head.id
      arrivals := 1 }
    head
    state
    revision := head.blockNum
    logHead := head }

end Controller

end BaccChain
