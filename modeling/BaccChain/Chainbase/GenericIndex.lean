import BaccChain.Commons.Attempt
import BaccChain.Commons.FlatSet
import Mathlib.Data.List.DropRight

/-!
# An index with undo sessions

An object has an id, which the index hands out, and any number of further unique keys.

## Main definitions

* `GenericIndex`, `undo`, `squash`, `commit`: an index and its sessions
-/

namespace BaccChain

open Commons

variable {α κ : Type}

/-- What `create` fails with when a key is taken. -/
def uniquenessViolated : String :=
  "could not insert object, most likely a uniqueness constraint was violated"

/-- Two objects with a common key. -/
def Clash (keys : List (α → κ)) (a b : α) : Prop := ∃ key ∈ keys, key a = key b

instance [DecidableEq κ] (keys : List (α → κ)) (a b : α) : Decidable (Clash keys a b) :=
  inferInstanceAs (Decidable (∃ key ∈ keys, key a = key b))

/-- No other object has a key of the object. -/
def Fits (keys : List (α → κ)) (objects : Table Nat α) (id : Nat) (a : α) : Prop :=
  ∀ e ∈ objects.entries, e.1 ≠ id → ¬ Clash keys a e.2

instance [DecidableEq κ] (keys : List (α → κ)) (objects : Table Nat α) (id : Nat) (a : α) :
    Decidable (Fits keys objects id a) :=
  inferInstanceAs (Decidable (∀ e ∈ objects.entries, e.1 ≠ id → ¬ Clash keys a e.2))

/-- What is needed to undo a session. -/
structure UndoState (α : Type) where
  oldValues : Table Nat α := Table.empty
  removedValues : Table Nat α := Table.empty
  newIds : FlatSet Nat := FlatSet.empty
  oldNextId : Nat
  revision : Int

/-- An index of the database, with its sessions. -/
structure GenericIndex (α : Type) where
  objects : Table Nat α := Table.empty
  nextId : Nat := 0
  /-- The open sessions, from the last back. -/
  stack : List (UndoState α) := []
  revision : Int := 0

/-- The entry is added to a map unless there is one with its key. -/
def emplaceEntry (t : Table Nat α) (id : Nat) (a : α) : Table Nat α :=
  if (t.find id).isSome then t else t.insert id a

namespace UndoState

variable (u : UndoState α) (id : Nat) (v : α)

def onModify : UndoState α :=
  if id ∈ u.newIds then u
  else if (u.oldValues.find id).isSome then u
  else { u with oldValues := emplaceEntry u.oldValues id v }

/-- The value of an object before the session, if it was there. -/
def onRemove : UndoState α :=
  if id ∈ u.newIds then { u with newIds := u.newIds.erase id }
  else match u.oldValues.find id with
    | some old => { u with
      removedValues := emplaceEntry u.removedValues id old
      oldValues := u.oldValues.erase id }
    | none =>
      if (u.removedValues.find id).isSome then u
      else { u with removedValues := emplaceEntry u.removedValues id v }

def onCreate : UndoState α := { u with newIds := u.newIds.insert id }

/-- An object that the later of two sessions has modified: what the earlier one knows of it is
kept. -/
def mergeOld (e : Nat × α) : UndoState α :=
  if e.1 ∈ u.newIds then u
  else if (u.oldValues.find e.1).isSome then u
  else { u with oldValues := emplaceEntry u.oldValues e.1 e.2 }

def mergeRemoved (e : Nat × α) : UndoState α :=
  if e.1 ∈ u.newIds then { u with newIds := u.newIds.erase e.1 }
  else match u.oldValues.find e.1 with
    | some old => { u with
      removedValues := emplaceEntry u.removedValues e.1 old
      oldValues := u.oldValues.erase e.1 }
    | none => { u with removedValues := emplaceEntry u.removedValues e.1 e.2 }

/-- The record of a session together with that of the session after it. -/
def merge (state : UndoState α) : UndoState α :=
  let prev := state.oldValues.entries.foldl mergeOld u
  let prev := { prev with newIds := prev.newIds.insertAll state.newIds.toList }
  state.removedValues.entries.foldl mergeRemoved prev

end UndoState

namespace GenericIndex

variable [DecidableEq κ]

def note (f : UndoState α → UndoState α) : List (UndoState α) → List (UndoState α)
  | [] => []
  | u :: stack => f u :: stack

/-- The container's `emplace`, which fails on an object that does not fit. -/
def place (keys : List (α → κ)) (id : Nat) (a : α) (msg : String) :
    Attempt (GenericIndex α) Unit := do
  let idx ← Attempt.read
  if idx.objects.find id = none ∧ Fits keys idx.objects id a then
    Attempt.update fun idx => { idx with objects := idx.objects.insert id a }
  else Attempt.throws msg

/-- The container's `modify`, which erases an object that does not fit. -/
def replace (keys : List (α → κ)) (id : Nat) (a : α) : Attempt (GenericIndex α) Unit := do
  let idx ← Attempt.read
  if Fits keys idx.objects id a then
    Attempt.update fun idx => { idx with objects := idx.objects.insert id a }
  else do
    Attempt.update fun idx => { idx with objects := idx.objects.erase id }
    Attempt.throws "Could not modify object, most likely a uniqueness constraint was violated"

/-- `emplace`. -/
def emplace (keys : List (α → κ)) (a : α) : Attempt (GenericIndex α) Unit := do
  let idx ← Attempt.read
  place keys idx.nextId a uniquenessViolated
  Attempt.update fun idx => { idx with
    nextId := idx.nextId + 1
    stack := note (·.onCreate idx.nextId) idx.stack }

/-- `modify`. -/
def modify (keys : List (α → κ)) (id : Nat) (m : α → α) : Attempt (GenericIndex α) Unit := do
  let idx ← Attempt.read
  match idx.objects.find id with
  | none => Attempt.throws "key not found"
  | some v => do
    Attempt.update fun idx => { idx with stack := note (·.onModify id v) idx.stack }
    replace keys id (m v)

/-- `remove`. -/
def remove (id : Nat) : Attempt (GenericIndex α) Unit := do
  let idx ← Attempt.read
  match idx.objects.find id with
  | none => Attempt.throws "key not found"
  | some v => Attempt.update fun idx => { idx with
    stack := note (·.onRemove id v) idx.stack
    objects := idx.objects.erase id }

/-- `start_undo_session`. -/
def startUndoSession (idx : GenericIndex α) : GenericIndex α :=
  { idx with
    stack := { oldNextId := idx.nextId, revision := idx.revision + 1 } :: idx.stack
    revision := idx.revision + 1 }

def restoreOld (keys : List (α → κ)) (e : Nat × α) : Attempt (GenericIndex α) Unit := do
  let idx ← Attempt.read
  match idx.objects.find e.1 with
  | none => Attempt.throws "key not found"
  | some _ => replace keys e.1 e.2

def eraseNew (id : Nat) : Attempt (GenericIndex α) Unit :=
  Attempt.update fun idx => { idx with objects := idx.objects.erase id }

def restoreRemoved (keys : List (α → κ)) (e : Nat × α) : Attempt (GenericIndex α) Unit :=
  place keys e.1 e.2 "Could not restore object, most likely a uniqueness constraint was violated"

/-- The record of the last session is replayed: old values in the order of ids, then the objects
that were created go, and last those that were removed come back. -/
def undo (keys : List (α → κ)) : Attempt (GenericIndex α) Unit := do
  let idx ← Attempt.read
  match idx.stack with
  | [] => pure ()
  | u :: stack => do
    Attempt.each (restoreOld keys) u.oldValues.entries
    Attempt.each eraseNew u.newIds.toList
    Attempt.update fun idx => { idx with nextId := u.oldNextId }
    Attempt.each (restoreRemoved keys) u.removedValues.entries
    Attempt.update fun idx => { idx with stack, revision := idx.revision - 1 }

/-- The last session is merged into the one before, or given up if it is the only one. -/
def squash (idx : GenericIndex α) : GenericIndex α :=
  match idx.stack with
  | [] => idx
  | [_] => { idx with stack := [], revision := idx.revision - 1 }
  | state :: prev :: stack =>
    { idx with stack := prev.merge state :: stack, revision := idx.revision - 1 }

/-- `commit`. -/
def commit (revision : Int) (idx : GenericIndex α) : GenericIndex α :=
  { idx with stack := idx.stack.rdropWhile fun u => u.revision ≤ revision }

def undoAll (keys : List (α → κ)) : Attempt (GenericIndex α) Unit := do
  let idx ← Attempt.read
  Attempt.each (fun _ => undo keys) idx.stack

/-- A change of an index. -/
inductive Operation (α : Type)
  | emplace (a : α)
  | modify (id : Nat) (m : α → α)
  | remove (id : Nat)

def Operation.exec (keys : List (α → κ)) : Operation α → Attempt (GenericIndex α) Unit
  | .emplace a => GenericIndex.emplace keys a
  | .modify id m => GenericIndex.modify keys id m
  | .remove id => GenericIndex.remove id

/-- Ids are below the next one, and no two objects agree on a unique key. -/
structure Valid (keys : List (α → κ)) (idx : GenericIndex α) : Prop where
  lt : ∀ i a, idx.objects.find i = some a → i < idx.nextId
  unique : ∀ i j a b, idx.objects.find i = some a → idx.objects.find j = some b → i ≠ j →
    ¬ Clash keys a b

end GenericIndex

end BaccChain
