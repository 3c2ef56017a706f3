import BaccChain.Chain.Merkle
import BaccChain.Commons.OrderStat
import BaccChain.Contracts.Rows

/-!
# Block headers and header states

A header state is what a node must know of a chain to validate the next header: the schedules, who
produced last, which blocks still wait for confirmations, and the irreversible block numbers.

## Main definitions

* `next`, `generateNext`, `setConfirmed`, `addConfirmation`: the next state
-/

namespace BaccChain

open Commons

/-! ## Headers -/

/-- A signature, as a number. -/
abbrev Signature := Nat

/-- A producer and the key it signs blocks with. -/
structure ProducerKey where
  producerName : Name
  blockSigningKey : PublicKey
  deriving DecidableEq

/-- Producers in the order of their turns. -/
structure ProducerSchedule where
  version : Nat := 0
  producers : List ProducerKey := []
  deriving DecidableEq

def ProducerSchedule.names (s : ProducerSchedule) : List Name := s.producers.map (·.producerName)

/-- The key of a producer, and the invalid key for a name that is not on the schedule. -/
def ProducerSchedule.getProducerKey (s : ProducerSchedule) (p : Name) : PublicKey :=
  ((s.producers.find? (·.producerName = p)).map (·.blockSigningKey)).getD 0

/-- A block header; the time is a slot number. -/
structure BlockHeader where
  timestamp : Nat := 0
  producer : Name := 0
  confirmed : Nat := 1
  previous : BlockId := 0
  transactionMroot : Digest := 0
  actionMroot : Digest := 0
  scheduleVersion : Nat := 0
  newProducers : Option ProducerSchedule := none
  headerExtensions : List (Nat × List UInt8) := []
  deriving DecidableEq

/-- A header and the signature of its producer. -/
structure SignedBlockHeader extends BlockHeader where
  producerSignature : Signature := 0
  deriving DecidableEq

/-- The hash function on what a header state hashes, and the key that made a signature, which
fails on a signature that is not canonical. -/
structure Crypto where
  hashHeader : BlockHeader → Digest
  hashSchedule : ProducerSchedule → Digest
  hashPair : Digest → Digest → Digest
  recover : Signature → Digest → Except String PublicKey

def endianReverse32 (x : Nat) : Nat :=
  x % 2 ^ 8 * 2 ^ 24 + x / 2 ^ 8 % 2 ^ 8 * 2 ^ 16 + x / 2 ^ 16 % 2 ^ 8 * 2 ^ 8 + x / 2 ^ 24 % 2 ^ 8

/-- The number that an id begins with. -/
def numFromId (id : BlockId) : Nat := endianReverse32 (id % 2 ^ 32)

def BlockHeader.blockNum (h : BlockHeader) : Nat := add32 (numFromId h.previous) 1

/-- The id of the block: the digest of the header without its signature, with the block number in
its lowest bytes. -/
def BlockHeader.id (c : Crypto) (h : BlockHeader) : BlockId :=
  endianReverse32 h.blockNum + (c.hashHeader h - c.hashHeader h % 2 ^ 32)

/-! ## Header states -/

def producerRepetitions : Nat := 6

/-- The number of blocks that wait for confirmations is bounded. -/
def maximumTrackedDposConfirmations : Nat := 1024

def maxProducers : Nat := 17

/-- A confirmation of a block that was sent apart from blocks. -/
structure HeaderConfirmation where
  blockId : BlockId
  producer : Name
  producerSignature : Signature
  deriving DecidableEq

/-- `block_header_state`: a header and what has to be known to go on from it. -/
structure BlockHeaderState where
  id : BlockId := 0
  blockNum : Nat := 0
  header : SignedBlockHeader := {}
  dposProposedIrreversibleBlocknum : Nat := 0
  dposIrreversibleBlocknum : Nat := 0
  bftIrreversibleBlocknum : Nat := 0
  pendingScheduleLibNum : Nat := 0
  pendingScheduleHash : Digest := 0
  pendingSchedule : ProducerSchedule := {}
  activeSchedule : ProducerSchedule := {}
  blockrootMerkle : IncrementalMerkle := {}
  producerToLastProduced : Table Name Nat := Table.empty
  producerToLastImpliedIrb : Table Name Nat := Table.empty
  blockSigningKey : PublicKey := 0
  confirmCount : List UInt8 := []
  confirmations : List HeaderConfirmation := []

namespace BlockHeaderState

/-- The producer whose turn it is in a slot. An empty schedule divides by zero. -/
def getScheduledProducer (s : BlockHeaderState) (t : Nat) : Except String ProducerKey :=
  let index := t % (s.activeSchedule.producers.length * producerRepetitions) / producerRepetitions
  match s.activeSchedule.producers[index]? with
  | some prokey => .ok prokey
  | none => .error "division by zero"

/-- The last irreversible block: two thirds of the producers imply it or a later one. -/
def calcDposLastIrreversible (implied : Table Name Nat) : Nat :=
  let blocknums := implied.entries.map (·.2)
  (orderStat ((blocknums.length - 1) / 3) blocknums).getD 0

/-- The time of the next block: a given time has to be later than the last block, and no given
time is the next slot. -/
def nextTime (s : BlockHeaderState) (when : Nat) : Except String Nat :=
  if when ≠ 0 then do
    check (s.header.timestamp < when) "next block must be in the future"
    pure when
  else pure (add32 s.header.timestamp 1)

/-- The confirmations a block waits for when `n` producers are active. -/
def requiredConfs (n : Nat) : Nat := add32 (n * 2 / 3) 1

/-- The confirmation counts with one for a new block; the oldest goes if there are too many. -/
def growConfirmCount (s : BlockHeaderState) : List UInt8 :=
  (if s.confirmCount.length < maximumTrackedDposConfirmations then s.confirmCount
    else s.confirmCount.tail) ++ [UInt8.ofNat (requiredConfs s.activeSchedule.producers.length)]

/-- The template of the next header state: without merkle roots and new producers, which come from
the chain state. -/
def template (s : BlockHeaderState) (when : Nat) (prokey : ProducerKey)
    (merkle : IncrementalMerkle) : BlockHeaderState :=
  let blockNum := add32 s.blockNum 1
  let implied := s.producerToLastImpliedIrb.insert prokey.producerName
    s.dposProposedIrreversibleBlocknum
  { blockNum
    header := {
      timestamp := when
      previous := s.id
      scheduleVersion := s.activeSchedule.version
      producer := prokey.producerName }
    blockSigningKey := prokey.blockSigningKey
    pendingScheduleLibNum := s.pendingScheduleLibNum
    pendingScheduleHash := s.pendingScheduleHash
    producerToLastProduced := s.producerToLastProduced.insert prokey.producerName blockNum
    producerToLastImpliedIrb := implied
    blockrootMerkle := merkle
    activeSchedule := s.activeSchedule
    pendingSchedule := s.pendingSchedule
    dposProposedIrreversibleBlocknum := s.dposProposedIrreversibleBlocknum
    bftIrreversibleBlocknum := s.bftIrreversibleBlocknum
    dposIrreversibleBlocknum := calcDposLastIrreversible implied
    confirmCount := s.growConfirmCount }

/-- `generate_next`. -/
def generateNext (c : Crypto) (s : BlockHeaderState) (when : Nat) :
    Except String BlockHeaderState := do
  let when ← s.nextTime when
  let prokey ← s.getScheduledProducer when
  let merkle ← (s.blockrootMerkle.append c.hashPair s.id).elim (.error "no active node") .ok
  pure (s.template when prokey merkle)

/-- The loop of `setConfirmed` over the counts, from position `i - 1` down: the counts after it,
and the position of a count that reached zero, where it stops. -/
def confirmLoop : (i blocksToConfirm : Nat) → List UInt8 → List UInt8 × Option Nat
  | 0, _, confirmCount => (confirmCount, none)
  | _ + 1, 0, confirmCount => (confirmCount, none)
  | i + 1, n + 1, confirmCount =>
    let confirmCount := confirmCount.modify i (· - 1)
    if confirmCount[i]? = some 0 then (confirmCount, some i) else confirmLoop i n confirmCount

/-- The block confirms itself and a number of blocks before it. -/
def setConfirmed (s : BlockHeaderState) (numPrevBlocks : Nat) : BlockHeaderState :=
  match confirmLoop s.confirmCount.length (numPrevBlocks + 1) s.confirmCount with
  | (confirmCount, none) => { s with header.confirmed := numPrevBlocks, confirmCount }
  | (confirmCount, some i) =>
    { s with
      header.confirmed := numPrevBlocks
      confirmCount := confirmCount.drop (i + 1)
      dposProposedIrreversibleBlocknum := sub32 s.blockNum (confirmCount.length - 1 - i) }

/-- The entries of the producers on a schedule, and the default for those without one. -/
def restrict (producers : List ProducerKey) (dflt : Nat) (t : Table Name Nat) : Table Name Nat :=
  producers.foldl (fun new pro => new.insert pro.producerName ((t.find pro.producerName).getD dflt))
    Table.empty

/-- The pending schedule becomes active. -/
def Promotes (s : BlockHeaderState) : Prop :=
  s.pendingSchedule.producers ≠ [] ∧ s.pendingScheduleLibNum ≤ s.dposIrreversibleBlocknum

instance (s : BlockHeaderState) : Decidable s.Promotes :=
  inferInstanceAs (Decidable (_ ∧ _))

/-- The pending schedule becomes the active one. Its producers keep their entries; the new ones
start at the last irreversible block. -/
def promote (s : BlockHeaderState) : BlockHeaderState :=
  let producers := s.pendingSchedule.producers
  let lib := s.dposIrreversibleBlocknum
  { s with
    activeSchedule := s.pendingSchedule
    -- the move leaves the version behind
    pendingSchedule := { s.pendingSchedule with producers := [] }
    producerToLastProduced :=
      (restrict producers lib s.producerToLastProduced).insert s.header.producer s.blockNum
    producerToLastImpliedIrb := restrict producers lib s.producerToLastImpliedIrb }

/-- A pending schedule whose block is irreversible becomes the active one. -/
def maybePromotePending (s : BlockHeaderState) : BlockHeaderState × Bool :=
  if s.Promotes then (s.promote, true) else (s, false)

/-- `set_new_producers`. -/
def setNewProducers (c : Crypto) (s : BlockHeaderState) (pending : ProducerSchedule) :
    Except String BlockHeaderState := do
  check (pending.version = add32 s.activeSchedule.version 1)
    "wrong producer schedule version specified"
  check (s.pendingSchedule.producers = [])
    "cannot set new pending producers until last pending is confirmed"
  pure { s with
    header.newProducers := some pending
    pendingScheduleHash := c.hashSchedule pending
    pendingSchedule := pending
    pendingScheduleLibNum := s.blockNum }

def sigDigest (c : Crypto) (s : BlockHeaderState) : Digest :=
  c.hashPair (c.hashPair (c.hashHeader s.header.toBlockHeader) s.blockrootMerkle.getRoot)
    s.pendingScheduleHash

/-- The key that a block is signed with. -/
def signee (c : Crypto) (s : BlockHeaderState) : Except String PublicKey :=
  c.recover s.header.producerSignature (s.sigDigest c)

def verifySignee (s : BlockHeaderState) (signee : PublicKey) : Except String Unit :=
  check (s.blockSigningKey = signee) "block not signed by expected key"

/-- The range that a header confirms does not begin before the last block of its producer. -/
def checkDoubleConfirm (s : BlockHeaderState) (blockNum : Nat) (h : SignedBlockHeader) :
    Except String Unit :=
  match s.producerToLastProduced.find h.producer with
  | some last => check (last < sub32 blockNum h.confirmed) "producer double-confirming known range"
  | none => pure ()

/-- The new schedule of a header becomes pending, but not in the block of a promotion. -/
def adoptNewProducers (c : Crypto) (s : BlockHeaderState) (wasPendingPromoted : Bool)
    (newProducers : Option ProducerSchedule) : Except String BlockHeaderState :=
  match newProducers with
  | some newProducers => do
    check (wasPendingPromoted = false) ("cannot set pending producer schedule in the same " ++
      "block in which pending was promoted to active")
    s.setNewProducers c newProducers
  | none => pure s

/-- The parts of a header that are not in the template, and the id. -/
def complete (c : Crypto) (s : BlockHeaderState) (actionMroot transactionMroot : Digest)
    (producerSignature : Signature) : BlockHeaderState :=
  let header := { s.header with actionMroot, transactionMroot, producerSignature }
  { s with header, id := header.toBlockHeader.id c }

/-- The header state after a signed header: the template for its time, checked against it, with
what only the header knows. -/
def next (c : Crypto) (s : BlockHeaderState) (h : SignedBlockHeader) (skipValidateSignee : Bool) :
    Except String BlockHeaderState := do
  check (h.timestamp ≠ 0) ""
  check (h.headerExtensions = []) "no supported extensions"
  check (s.header.timestamp < h.timestamp) "block must be later in time"
  check (h.previous = s.id) "block must link to current state"
  let result ← s.generateNext c h.timestamp
  check (result.header.producer = h.producer) "wrong producer specified"
  check (result.header.scheduleVersion = h.scheduleVersion)
    "schedule_version in signed block is corrupted"
  s.checkDoubleConfirm result.blockNum h
  let (result, wasPendingPromoted) := (result.setConfirmed h.confirmed).maybePromotePending
  let result ← result.adoptNewProducers c wasPendingPromoted h.newProducers
  let result := result.complete c h.actionMroot h.transactionMroot h.producerSignature
  if skipValidateSignee then pure result
  else do
    result.verifySignee (← result.signee c)
    pure result

/-- `add_confirmation`. -/
def addConfirmation (c : Crypto) (s : BlockHeaderState) (conf : HeaderConfirmation) :
    Except String BlockHeaderState := do
  check (∀ x ∈ s.confirmations, x.producer ≠ conf.producer)
    "block already confirmed by this producer"
  let key := s.activeSchedule.getProducerKey conf.producer
  check (key ≠ 0) "producer not in current schedule"
  let signer ← c.recover conf.producerSignature (s.sigDigest c)
  check (signer = key) "confirmation not signed by expected key"
  pure { s with confirmations := s.confirmations ++ [conf] }

/-! ## The producer's way -/

/-- The pending block of the controller's `start_block`: a block state on top of the head, its
confirmations and a promotion. -/
def startBlock (c : Crypto) (head : BlockHeaderState) (when confirmBlockCount : Nat)
    (proposed : Option (Nat × ProducerSchedule)) : Except String BlockHeaderState := do
  let p ← head.generateNext c when
  let (p, wasPendingPromoted) := (p.setConfirmed confirmBlockCount).maybePromotePending
  match proposed with
  | some (proposedScheduleBlockNum, proposedSchedule) =>
    if proposedScheduleBlockNum ≤ p.dposIrreversibleBlocknum ∧
        p.pendingSchedule.producers = [] ∧ wasPendingPromoted = false then
      p.setNewProducers c proposedSchedule
    else pure p
  | none => pure p

/-- The header part of `finalize_block`: the merkle roots and the id. -/
def finalizeBlock (c : Crypto) (p : BlockHeaderState) (actionMroot transactionMroot : Digest) :
    BlockHeaderState :=
  let header := { p.header with actionMroot, transactionMroot }
  { p with header, id := header.toBlockHeader.id c }

/-- The signature of the producer, which has to be made with the scheduled key. -/
def sign (c : Crypto) (p : BlockHeaderState) (signer : Digest → Signature) :
    Except String BlockHeaderState := do
  let d := p.sigDigest c
  let p := { p with header.producerSignature := signer d }
  check (p.blockSigningKey = (← c.recover p.header.producerSignature d))
    "block is signed with unexpected key"
  pure p

/-- The header state that a producer builds. -/
def produce (c : Crypto) (head : BlockHeaderState) (when confirmBlockCount : Nat)
    (proposed : Option (Nat × ProducerSchedule)) (actionMroot transactionMroot : Digest)
    (signer : Digest → Signature) : Except String BlockHeaderState := do
  let p ← head.startBlock c when confirmBlockCount proposed
  (p.finalizeBlock c actionMroot transactionMroot).sign c signer

/-- The header state before the first block: its schedule is both active and pending. -/
def genesis (c : Crypto) (initialSchedule : ProducerSchedule) (initialTimestamp : Nat)
    (chainId : Digest) : BlockHeaderState :=
  let header : SignedBlockHeader := { timestamp := initialTimestamp, actionMroot := chainId }
  { activeSchedule := initialSchedule
    pendingSchedule := initialSchedule
    pendingScheduleHash := c.hashSchedule initialSchedule
    header
    id := header.toBlockHeader.id c
    blockNum := header.blockNum }

end BlockHeaderState

/-- Numbers in place of hashes, for runs on fixed inputs: a header is its slot and its producer, and
a signature is a digest plus a key. -/
def toyCrypto : Crypto where
  hashHeader h := (h.timestamp * 2 ^ 8 + h.producer) * 2 ^ 32
  hashSchedule s := s.version
  hashPair a b := a * 2 + b
  recover sig d := if d ≤ sig then .ok (sig - d) else .error "signature is not canonical"

/-- A block on top of `s`, in the given slot, that confirms the given number of blocks before it and
may propose a schedule, signed with the key 7 and handed to a validator. -/
def BlockHeaderState.turn (s : BlockHeaderState) (when confirmed : Nat)
    (proposed : Option (Nat × ProducerSchedule) := none) : Except String BlockHeaderState := do
  let p ← s.produce toyCrypto when confirmed proposed 0 0 (· + 7)
  s.next toyCrypto p.header false

def BlockHeaderState.turns (s : BlockHeaderState) :
    List (Nat × Nat × Option (Nat × ProducerSchedule)) → Except String (List BlockHeaderState)
  | [] => pure [s]
  | (when, confirmed, proposed) :: l => do
    let s' ← s.turn when confirmed proposed
    let states ← s'.turns l
    pure (s :: states)

end BaccChain
