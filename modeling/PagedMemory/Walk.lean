import PagedMemory.Tables

/-!
# Walks over ranges

The three things that are done to all pages of a range, table by table.

* `Walk.fill`: maps the pages of a range to the frames of a source, in order, and creates the
  tables that are missing on the way.
* `Walk.clear`: takes away all mappings of a range, and keeps the tables.
* `Walk.translate`: where the page of one address is mapped.

A fill can end early in two ways, `Halt`: by a fault, or for want of a frame. What was mapped up
to then stays mapped, and the number of frames taken from the source tells how much that is.
-/

namespace PagedMemory

open Machine

/-- Where the frames to be mapped come from: the frame of each number, while there are more. -/
abbrev FrameSource := Nat → MachineM (Option PageFrame)

namespace FrameSource

def ofList (frames : List PageFrame) : FrameSource := fun i => return frames[i]?

/-- Frames side by side: `count` of them, from `first` on. -/
def run (first : PageFrame) (count : Nat) : FrameSource := fun i =>
  if i < count then do return some (← first.following i) else return none

end FrameSource

/-- How a fill can end before all pages are mapped. -/
inductive Halt where
  | fault (cause : Fault)
  | failed (cause : MapError)

/-- A fill in progress: the machine, and how many frames the source has given. -/
structure Filling where
  machine : Machine
  taken : Nat

/-- A part of a fill. -/
abbrev FillM := EStateM Halt Filling

namespace FillM

/-- An operation on the machine, as a part of a fill. -/
def onMachine {α : Type} (x : MachineM α) : FillM α := fun ⟨m, taken⟩ =>
  match x m with
  | .ok a m => .ok a ⟨m, taken⟩
  | .error f m => .error (.fault f) ⟨m, taken⟩

instance : MonadLift MachineM FillM := ⟨onMachine⟩

/-- The answer of an operation, where a failure ends the fill. -/
def orFail {α : Type} : Except MapError α → FillM α
  | .ok a => pure a
  | .error e => throw (.failed e)

/-- The next frame of the source. -/
def nextFrame (source : FrameSource) : FillM PageFrame := do
  match ← onMachine (source (← get).taken) with
  | none => throw (.failed .tooFewFrames)
  | some f =>
    modify fun s => { s with taken := s.taken + 1 }
    return f

/-- Runs a fill from its start. Both its result and the number of frames it took are results of
the operation; a fault is a fault. -/
def exec {α : Type} (x : FillM α) (taken : Nat) : MachineM (Except MapError α × Nat) := fun m =>
  match x ⟨m, taken⟩ with
  | .ok a ⟨m, taken⟩ => .ok (.ok a, taken) m
  | .error (.failed e) ⟨m, taken⟩ => .ok (.error e, taken) m
  | .error (.fault f) ⟨m, _⟩ => .error f m

end FillM

namespace Walk

open Tables FillM

/-! ## Mapping -/

/-- Maps one page to the next frame of the source. The page has to be free. -/
def fillPage (source : FrameSource) (prot : Entry) (table : PageFrame) (page : Interval) :
    FillM Nat := do
  let i := Level.pt.index page.start
  let old ← onMachine (entry table i)
  if old.isEmpty then
    let f ← nextFrame source
    onMachine do
      setEntry table i (← Entry.leaf f prot)
      emit (.mapped page.start f)
    return 1
  else
    onMachine (report (.pageExists page.start old))
    throw (.fault (.livePage page.start))

/-- Maps the part of a range that a table of the given level stands for; counts the pages. -/
def fillTable (source : FrameSource) (prot : Entry) : Level → PageFrame → Interval → FillM Nat :=
  Level.descend
    (fun table r => r.foldPieces .pt (fillPage source prot table))
    (fun level below table r => r.foldPieces level fun part => do
      let next ← onMachine (childOrCreate level table (level.index part.start))
      below (← orFail next) part)

/-- Only whole pages can be mapped and unmapped. -/
def checkAligned (r : Interval) : MachineM Unit :=
  if r.isAligned then pure () else throw .misalignedRange

/-- Maps the pages of `r`, in address order, to the frames of `source` from number `taken` on,
under the protection `prot`. The answers are the number of pages mapped and the number of the
next frame of the source. -/
def fill (root : PageFrame) (r : Interval) (prot : Entry) (source : FrameSource) (taken : Nat) :
    MachineM (Except MapError Nat × Nat) := do
  checkAligned r
  (fillTable source prot .pml4 root r).exec taken

/-! ## Unmapping -/

/-- Clears the entry of one page; counts 1 if the page was mapped. -/
def clearPage (table : PageFrame) (page : Interval) : MachineM Nat := do
  let i := Level.pt.index page.start
  let old ← entry table i
  if old.isEmpty then return 0
  setEntry table i .empty
  if old.has .present then
    emit (.unmapped page.start)
    return 1
  report (.notPresent old page.start)
  return 0

/-- Clears the part of a range that a table of the given level stands for. A malformed entry is
cleared as a whole. -/
def clearTable : Level → PageFrame → Interval → MachineM Nat :=
  Level.descend
    (fun table r => r.foldPieces .pt (clearPage table))
    (fun level below table r => r.foldPieces level fun part => do
      let i := level.index part.start
      match ← child level table i with
      | .none => return 0
      | .table next => below next part
      | .malformed e =>
        report (.malformedCleared level e part.start)
        setEntry table i .empty
        return 0)

/-- Takes away the mappings of all pages of `r`; how many there were. -/
def clear (root : PageFrame) (r : Interval) : MachineM Nat := do
  checkAligned r
  clearTable .pml4 root r

/-! ## Translating -/

/-- Where `a` is mapped by the part of the tree below a table of the given level. -/
def translateBelow (a : VirtAddr) : Level → PageFrame → MachineM (Option PhysAddr) :=
  Level.descend
    (fun table => do
      let e ← entry table (Level.pt.index a)
      if e.has .present then return some (← e.frame.byteAt a.pageOffset) else return none)
    (fun level below table => do
      match ← child level table (level.index a) with
      | .table next => below next
      | .none => return none
      | .malformed _ => return none)

/-- The physical address at which `a` is mapped. -/
def translate (root : PageFrame) (a : VirtAddr) : MachineM (Option PhysAddr) :=
  translateBelow a .pml4 root

end Walk

end PagedMemory
