import PagedMemory.Machine

/-!
# Trees of page tables

A table is a frame whose words are entries. A tree is known by the frame of its root, a table of
level `pml4`; everything else about it is in memory.

* `Tables.entry`, `Tables.setEntry`: one entry of one table.
* `Tables.newTable`: a frame for a table, all zero.
* `Tables.child`: what an entry of an upper table leads to.
-/

namespace PagedMemory

/-- What an entry of an upper table leads to. -/
inductive Child where
  | none
  | table (frame : PageFrame)
  | malformed (entry : Entry)
  deriving DecidableEq

/-- What an entry of an upper table stands for: nothing only if it is all zero. -/
def Entry.child (e : Entry) : Child :=
  if e.isEmpty then .none
  else if e.isMalformed then .malformed e
  else .table e.frame

namespace Tables

open Machine

def entry (table : PageFrame) (i : TableIndex) : MachineM Entry := do
  return ⟨← Pool.word table i⟩

def setEntry (table : PageFrame) (i : TableIndex) (e : Entry) : MachineM Unit :=
  Pool.setWord table i e.bits

/-- Takes a frame for a table and clears it. -/
def newTable : MachineM (Except MapError PageFrame) := do
  match ← takeFrame .kernel with
  | none => return .error .noTable
  | some f =>
    Pool.zero f
    return .ok f

/-- What an entry leads to. Entries of the lowest tables lead to pages, and must not be asked. -/
def child (level : Level) (table : PageFrame) (i : TableIndex) : MachineM Child := do
  if level.isLeaf then throw .leafHasNoTable
  return (← entry table i).child

/-- Puts a new table behind an entry. -/
def linkNewTable (table : PageFrame) (i : TableIndex) : MachineM (Except MapError PageFrame) := do
  match ← newTable with
  | .error e => return .error e
  | .ok next =>
    setEntry table i (← Entry.table next)
    return .ok next

/-- The table behind an entry. If there is none, or the entry is malformed, a new one is put
there. -/
def childOrCreate (level : Level) (table : PageFrame) (i : TableIndex) :
    MachineM (Except MapError PageFrame) := do
  match ← child level table i with
  | .table next => return .ok next
  | .none => linkNewTable table i
  | .malformed e =>
    report (.malformedReplaced level e i)
    linkNewTable table i

end Tables

end PagedMemory
