import BaccChain.Chain.BlockHeaderState

/-!
# The producer plugin

`producer_plugin.cpp`: for each of its local producers a node keeps a watermark, the number of the
last block it has signed or of the block with which it became active.
-/

namespace BaccChain

open Commons (Table check)

/-- The configuration: the local producers, the keys the node can sign with, and the slot in which
the process has started. -/
structure ProducerPlugin where
  producers : List Name
  signatureProviders : List PublicKey
  startTime : Nat

/-- `pending_block_mode`. -/
inductive PendingBlockMode
  | producing
  | speculating
  deriving DecidableEq

/-- The node: the plugin with the head of the chain and the pending block, and the blocks that have
been signed, oldest first. -/
structure ProducerNode where
  head : BlockHeaderState
  pending : Option BlockHeaderState := none
  pendingBlockMode : PendingBlockMode := .speculating
  producerWatermarks : Table Name Nat := Table.empty
  lastSignedBlockTime : Nat := 649251039
  lastSignedBlockNum : Nat := 0
  signed : List BlockHeaderState := []

/-- The number of blocks that a producer can confirm: those above its watermark, as a 16-bit number.
-/
def ProducerNode.blocksToConfirm (node : ProducerNode) (producer : Name) : Nat :=
  match node.producerWatermarks.find producer with
  | some watermark =>
    if watermark < node.head.blockNum then (node.head.blockNum - watermark) % 2 ^ 16 else 0
  | none => 0

/-- What the production loop finds when it starts a block: the slot of the next block, the switches,
the age of the last irreversible block and of the head, and the schedule proposed by a contract. -/
structure StartInputs where
  blockTime : Nat
  blockTime_ne : blockTime ≠ 0 := by decide
  readOnly : Bool := false
  productionEnabled : Bool := true
  pauseProduction : Bool := false
  irreversibleBlockTooOld : Bool := false
  headTooOld : Bool := false
  proposed : Option (Nat × ProducerSchedule) := none

/-- What completes a block: the merkle roots, the signature function of its key, and whether the
chain commits it or throws. -/
structure ProduceInputs where
  actionMroot : Digest := 0
  transactionMroot : Digest := 0
  signatureProvider : Digest → Signature
  commits : Bool := true

/-- A header state whose number is a 32-bit number. -/
abbrev HeadState := { s : BlockHeaderState // s.blockNum < 2 ^ 32 }

/-- What can happen: the chain accepts a block and makes it the head, or moves its head to another
block by taking blocks back; the production loop starts a block or completes it. -/
inductive NodeEvent
  | acceptBlock (bsp : HeadState)
  | switchHead (head : HeadState)
  | startBlock (inputs : StartInputs)
  | produceBlock (inputs : ProduceInputs)

namespace ProducerPlugin

variable (c : Crypto) (plugin : ProducerPlugin)

/-! ## Accepted blocks -/

/-- The handler returns at once for a block that is not newer than the last one it has signed for,
or than the process. -/
def Ignores (node : ProducerNode) (bsp : BlockHeaderState) : Prop :=
  bsp.header.timestamp ≤ node.lastSignedBlockTime ∨ bsp.header.timestamp ≤ plugin.startTime ∨
    bsp.blockNum ≤ node.lastSignedBlockNum

instance (node : ProducerNode) (bsp : BlockHeaderState) : Decidable (plugin.Ignores node bsp) :=
  inferInstanceAs (Decidable (_ ∨ _))

/-- The active local producers that confirm a block of another producer. -/
def confirming (bsp : BlockHeaderState) : List ProducerKey :=
  bsp.activeSchedule.producers.filter fun k =>
    k.producerName ∈ plugin.producers ∧ k.producerName ≠ bsp.header.producer ∧
      k.blockSigningKey ∈ plugin.signatureProviders

/-- The local producers that become active in the slot after the block. -/
def newProducers (bsp : BlockHeaderState) : List Name :=
  if bsp.header.timestamp + 1 < 2 ^ 32 then
    match bsp.generateNext c (bsp.header.timestamp + 1) with
    | .error _ => []
    | .ok newBs =>
      if newBs.maybePromotePending.2 = true ∧
          bsp.activeSchedule.version ≠ newBs.maybePromotePending.1.activeSchedule.version then
        newBs.maybePromotePending.1.activeSchedule.names.filter fun p =>
          p ∈ plugin.producers ∧ p ∉ bsp.activeSchedule.names
      else []
  else []

/-- The handler of an accepted block: it confirms the block for local producers, and sets the
watermarks of local producers that become active to its number. -/
def onBlock (node : ProducerNode) (bsp : BlockHeaderState) : ProducerNode :=
  if plugin.Ignores node bsp then node
  else
    let node := if plugin.confirming bsp = [] then node else
      { node with
        lastSignedBlockTime := bsp.header.timestamp
        lastSignedBlockNum := bsp.blockNum }
    { node with
      producerWatermarks := (plugin.newProducers c bsp).foldl
        (fun watermarks p => watermarks.insert p bsp.blockNum) node.producerWatermarks }

/-! ## The production loop -/

/-- The node produces in this slot: the producer and its key are local, nothing holds production
back, and the watermark is below the number of the block. -/
def Produces (node : ProducerNode) (i : StartInputs) (scheduled : ProducerKey) : Prop :=
  i.productionEnabled = true ∧ scheduled.producerName ∈ plugin.producers ∧
    scheduled.blockSigningKey ∈ plugin.signatureProviders ∧ i.pauseProduction = false ∧
    i.irreversibleBlockTooOld = false ∧
    ∀ watermark ∈ node.producerWatermarks.find scheduled.producerName,
      watermark < add32 node.head.blockNum 1

instance (node : ProducerNode) (i : StartInputs) (scheduled : ProducerKey) :
    Decidable (plugin.Produces node i scheduled) :=
  inferInstanceAs (Decidable (_ ∧ _))

/-- Starts a block on the head, to produce it or to speculate. An old head that is not produced on
leaves everything else as it is. -/
def startBlock (node : ProducerNode) (i : StartInputs) : Except String ProducerNode :=
  if i.readOnly then .ok node
  else do
    let scheduled ← node.head.getScheduledProducer i.blockTime
    let producing := decide (plugin.Produces node i scheduled)
    if producing = false ∧ i.headTooOld = true then
      return { node with pendingBlockMode := .speculating }
    let confirm := if producing then node.blocksToConfirm scheduled.producerName else 0
    match node.head.startBlock c i.blockTime confirm i.proposed with
    | .error _ =>
      return { node with
        pending := none
        pendingBlockMode := if producing then .producing else .speculating }
    | .ok pbs =>
      return { node with
        pending := some pbs
        pendingBlockMode :=
          if producing ∧ pbs.blockSigningKey = scheduled.blockSigningKey then .producing
          else .speculating }

def signBlock (node : ProducerNode) (i : ProduceInputs) : Except String BlockHeaderState := do
  check (node.pendingBlockMode = .producing) "called produce_block while not actually producing"
  match node.pending with
  | none =>
    .error "pending_block_state does not exist but it should, another plugin may have corrupted it"
  | some pbs =>
    check (pbs.blockSigningKey ∈ plugin.signatureProviders)
      "Attempting to produce a block for which we don't have the private key"
    (pbs.finalizeBlock c i.actionMroot i.transactionMroot).sign c i.signatureProvider

/-- The node after the chain has committed a signed block: the block is accepted like any other, and
the watermark of its producer is set to its number. -/
def commitBlock (node : ProducerNode) (bsp : BlockHeaderState) : ProducerNode :=
  let node := plugin.onBlock c { node with head := bsp, pending := none } bsp
  { node with
    producerWatermarks := node.producerWatermarks.insert bsp.header.producer bsp.blockNum }

/-- Completes the pending block. An exception aborts the block; when the chain throws, the block has
been signed. -/
def produceBlock (node : ProducerNode) (i : ProduceInputs) : ProducerNode :=
  match plugin.signBlock c node i with
  | .error _ => { node with pending := none }
  | .ok bsp =>
    let node := if i.commits then plugin.commitBlock c node bsp else { node with pending := none }
    { node with signed := node.signed ++ [bsp] }

/-- One event. A block that is accepted or taken back aborts the pending block first. -/
def step (e : NodeEvent) (node : ProducerNode) : Except String ProducerNode :=
  match e with
  | .acceptBlock bsp =>
    .ok { plugin.onBlock c { node with pending := none } bsp with head := bsp.val }
  | .switchHead head => .ok { node with head := head.val, pending := none }
  | .startBlock i => plugin.startBlock c node i
  | .produceBlock i => .ok (plugin.produceBlock c node i)

end ProducerPlugin

end BaccChain
