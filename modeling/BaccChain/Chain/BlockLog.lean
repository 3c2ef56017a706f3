import BaccChain.Chain.BlockHeaderState
import BaccChain.Commons.Bytes

/-!
# The block log

The block file starts with the version, the number of the first block, the genesis state and a
marker, and goes on with the blocks, each followed by the position where it starts.
-/

namespace BaccChain

open Commons

/-- How genesis states and blocks are packed, the header of a block and the hash function. -/
structure LogCodec (γ β : Type) where
  crypto : Crypto
  genesis : Packing γ
  block : Packing β
  header : β → BlockHeader

def LogCodec.blockNum {γ β : Type} (codec : LogCodec γ β) (b : β) : Nat := (codec.header b).blockNum

def LogCodec.id {γ β : Type} (codec : LogCodec γ β) (b : β) : BlockId :=
  (codec.header b).id codec.crypto

/-- The files of a closed log. -/
structure LogFiles where
  blockFile : List UInt8
  indexFile : Option (List UInt8)

/-- The two files of a log, and the block appended last. -/
structure BlockLog (β : Type) where
  blockFile : List UInt8 := []
  indexFile : List UInt8 := []
  head : Option β := none
  headId : BlockId := 0
  genesisWrittenToBlockLog : Bool := false
  version : Nat := 0
  firstBlockNum : UInt32 := 0

namespace BlockLog

variable {γ β : Type}

def minSupportedVersion : Nat := 1
def maxSupportedVersion : Nat := 2

def npos : Nat := 2 ^ 64 - 1

def write (file bytes : List UInt8) : Except String (List UInt8) := do
  check ((file ++ bytes).length < 2 ^ 63) "basic_ios::clear"
  pure (file ++ bytes)

/-! ## Reading -/

def readBlock (codec : LogCodec γ β) (log : BlockLog β) (pos : Nat) :
    Except String (β × Nat) := do
  let (b, rest) ← codec.block.unpack (log.blockFile.drop pos)
  pure (b, log.blockFile.length - rest.length + 8)

def readHead (codec : LogCodec γ β) (log : BlockLog β) : Except String (Option β) := do
  if log.blockFile.length ≤ 8 then pure none
  else
    let pos ← readLastNumber 8 log.blockFile
    if pos ≠ npos then
      let (b, _) ← log.readBlock codec pos
      pure (some b)
    else pure none

def getBlockPos (log : BlockLog β) (blockNum : UInt32) : Except String Nat := do
  if log.head.isSome ∧ blockNum.toNat ≤ numFromId log.headId ∧ log.firstBlockNum ≤ blockNum then
    let (pos, _) ← readNumber 8 (log.indexFile.drop (8 * (blockNum - log.firstBlockNum).toNat))
    pure pos
  else pure npos

def readBlockByNum (codec : LogCodec γ β) (log : BlockLog β) (blockNum : UInt32) :
    Except String (Option β) := do
  let pos ← log.getBlockPos blockNum
  if pos ≠ npos then
    let (b, _) ← log.readBlock codec pos
    check (codec.blockNum b = blockNum.toNat) "Wrong block was read from block log."
    pure (some b)
  else pure none

/-! ## Opening -/

/-- The scan of the block file, from one block to the next. -/
def scan (codec : LogCodec γ β) (endPos : Nat) :
    Nat → Nat → List UInt8 → List UInt8 → Except String (List UInt8)
  | 0, _, _, _ => .error "end of file"
  | n + 1, pos, bytes, index =>
    if pos < endPos then do
      let (_, bytes) ← codec.block.unpack bytes
      let (pos, bytes) ← readNumber 8 bytes
      let index ← write index (littleEndian 8 pos)
      scan codec endPos n pos bytes index
    else pure index

/-- The marker before the blocks, which the first version does not have. -/
def skipTotem (version : Nat) (bytes : List UInt8) : Except String (List UInt8) :=
  if version > 1 then (readNumber 8 bytes).map Prod.snd else pure bytes

/-- `construct_index`. -/
def constructIndex (codec : LogCodec γ β) (log : BlockLog β) : Except String (BlockLog β) := do
  let endPos ← readLastNumber 8 log.blockFile
  let pos := if log.version = 1 then 4 else 8
  let (_, bytes) ← codec.genesis.unpack (log.blockFile.drop pos)
  let bytes ← skipTotem log.version bytes
  let indexFile ← scan codec endPos (log.blockFile.length + 1) pos bytes []
  pure { log with indexFile }

/-- A log that is not empty: its version and the number of its first block. -/
def readVersion (blockFile : List UInt8) : Except String (Nat × UInt32) := do
  let (version, bytes) ← readNumber 4 blockFile
  check (version > 0) "Block log was not setup properly"
  check (minSupportedVersion ≤ version ∧ version ≤ maxSupportedVersion)
    "Unsupported version of block log."
  if version > 1 then do
    let (firstBlockNum, _) ← readNumber 4 bytes
    check (firstBlockNum > 0)
      ("Block log is malformed, first recorded block number is 0 but must be greater than or " ++
        "equal to 1")
    pure (version, UInt32.ofNat firstBlockNum)
  else pure (version, 1)

/-- The index is kept if its last position is that of the head. -/
def checkIndex (codec : LogCodec γ β) (log : BlockLog β) : Except String (BlockLog β) :=
  if log.indexFile.length ≠ 0 then do
    let blockPos ← readLastNumber 8 log.blockFile
    let indexPos ← readLastNumber 8 log.indexFile
    if blockPos < indexPos ∨ blockPos > indexPos then log.constructIndex codec else pure log
  else log.constructIndex codec

/-- A log is opened. An index that is missing is created empty. -/
def openLog (codec : LogCodec γ β) (files : LogFiles) : Except String (BlockLog β) := do
  if files.blockFile.length ≠ 0 then
    let (version, firstBlockNum) ← readVersion files.blockFile
    let log : BlockLog β :=
      { blockFile := files.blockFile
        indexFile := files.indexFile.getD []
        version
        firstBlockNum
        genesisWrittenToBlockLog := true }
    match ← log.readHead codec with
    | none => .error "null block"
    | some head => checkIndex codec { log with head, headId := codec.id head }
  else pure { blockFile := files.blockFile }

def close (log : BlockLog β) : LogFiles :=
  { blockFile := log.blockFile, indexFile := some log.indexFile }

/-! ## Writing -/

/-- `append`. -/
def append (codec : LogCodec γ β) (log : BlockLog β) (b : β) :
    Except String (BlockLog β × Nat) := do
  check (log.genesisWrittenToBlockLog = true)
    "Cannot append to block log until the genesis is first written"
  let pos := log.blockFile.length
  check (log.indexFile.length = 8 * (UInt32.ofNat (codec.blockNum b) - log.firstBlockNum).toNat)
    "Append to index file occuring at wrong position."
  let blockFile ← write log.blockFile (codec.block.pack b)
  let blockFile ← write blockFile (littleEndian 8 pos)
  let indexFile ← write log.indexFile (littleEndian 8 pos)
  pure ({ log with
    blockFile
    indexFile
    head := some b
    headId := codec.id b }, pos)

def appendAll (codec : LogCodec γ β) (log : BlockLog β) (blocks : List β) :
    Except String (BlockLog β) :=
  blocks.foldlM (fun log b => (log.append codec b).map Prod.fst) log

/-- The log starts anew. The version is zero until the rest has been written. -/
def reset (codec : LogCodec γ β) (log : BlockLog β) (gs : γ) (firstBlock : Option β)
    (firstBlockNum : UInt32) : Except String (BlockLog β) := do
  let blockFile ← write [] (littleEndian 4 0)
  let blockFile ← write blockFile (littleEndian 4 firstBlockNum.toNat)
  let blockFile ← write blockFile (codec.genesis.pack gs)
  let blockFile ← write blockFile (littleEndian 8 npos)
  let log := { log with
    blockFile
    indexFile := []
    genesisWrittenToBlockLog := true
    version := 0
    firstBlockNum }
  let log ← match firstBlock with
    | some b => (log.append codec b).map Prod.fst
    | none => pure log
  -- the version at the start of the file is written over
  pure { log with
    blockFile := littleEndian 4 maxSupportedVersion ++ log.blockFile.drop 4
    version := maxSupportedVersion }

end BlockLog

end BaccChain
