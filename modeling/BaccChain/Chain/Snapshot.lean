import BaccChain.Chain.Controller

/-!
# Snapshots: the header state and the chain database

A snapshot holds the header state of a block and the rows of the chain database.
-/

namespace BaccChain

open Commons

/-- The header state of a block, and the rows of the chain database. -/
structure Snapshot (σ : Type) where
  head : BlockHeaderState
  state : σ

namespace Controller

variable {σ : Type}

def addToSnapshot (ctl : Controller σ) : Except String (Snapshot σ) :=
  match ctl.forkDb.headBlock with
  | none => .error "null block"
  | some b => .ok { head := b.toBlockHeaderState, state := ctl.state }

/-- The block of the header state is the head of the node and of its fork database. -/
def readFromSnapshot (c : Crypto) (readMode : DbReadMode) (snapshot : Snapshot σ) :
    Except String (Controller σ) := do
  let headState : BlockState := { toBlockHeaderState := snapshot.head }
  let db ← ({} : ForkDatabase).set c headState
  let db ← db.setValidity headState.id true
  let db ← db.markInCurrentChain headState.id true
  pure {
    readMode
    forkDb := db
    head := snapshot.head
    state := snapshot.state
    revision := snapshot.head.blockNum
    logHead := snapshot.head }

theorem exists_readFromSnapshot {c : Crypto} (readMode : DbReadMode) (snapshot : Snapshot σ)
    (hid : snapshot.head.id = snapshot.head.header.toBlockHeader.id c) :
    ∃ node, readFromSnapshot c readMode snapshot = .ok node ∧ node.head = snapshot.head ∧
      node.state = snapshot.state := by
  let headState : BlockState := { toBlockHeaderState := snapshot.head }
  have hset : ({} : ForkDatabase).set c headState =
      .ok { index := [headState], head := some headState.id, arrivals := 1 } := by
    rw [ForkDatabase.set, check, if_pos hid]
    rfl
  have hmem : { headState with validated := true } ∈ (ForkDatabase.validate
      { index := [headState], head := some headState.id, arrivals := 1 } headState.id).index := by
    simp [ForkDatabase.validate]
  obtain ⟨db, hmark⟩ := ForkDatabase.exists_markInCurrentChain hmem true
  have hread : readFromSnapshot c readMode snapshot = .ok {
      readMode
      forkDb := db
      head := snapshot.head
      state := snapshot.state
      revision := snapshot.head.blockNum
      logHead := snapshot.head } := by
    rw [readFromSnapshot, hset, ok_bind]
    exact bind_eq_ok.mpr ⟨_, rfl, bind_eq_ok.mpr ⟨db, hmark, rfl⟩⟩
  exact ⟨_, hread, rfl, rfl⟩

end Controller

end BaccChain
