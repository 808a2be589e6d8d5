import PagedMemory.Address

/-!
# Faults

A fault ends an operation at once and leaves the state as it was at that moment. It means that a
caller broke a rule, that memory was found in a state that no correct history leads to, or that
an address left the 64-bit range; failures that a client has to expect are ordinary results and
live in `PagedMemory.Error`.

* `Fault`: the causes.
* `Fault.message`: their wording.
* `PhysAddr.add`, `VirtAddr.add`, `PageFrame.byteAt` and the like: the steps that check a rule.
-/

namespace PagedMemory

open Layout

/-- The operation whose result left the 64-bit range. -/
inductive Arithmetic where
  | add
  | subtract
  | multiply
  deriving DecidableEq

/-- Which way bytes were going between a buffer and memory. -/
inductive Direction where
  | load
  | store
  deriving DecidableEq

/-- The calls that give an area back by the address where its memory starts. -/
inductive ReleaseCall where
  | free
  | unmapFrames
  | unmapDevice
  deriving DecidableEq

/-- The names under which clients know these calls. -/
def ReleaseCall.name : ReleaseCall → String
  | free => "vfree"
  | unmapFrames => "vunmap"
  | unmapDevice => "iounmap"

inductive Fault where
  | overflow (op : Arithmetic)
  /-- a frame was named by an address inside it -/
  | misalignedFrame
  /-- a pool was to start inside a frame -/
  | misalignedPool
  /-- a table has no entry of this number -/
  | noSuchEntry
  /-- an offset lies beyond the frame it was taken into -/
  | offsetBeyondFrame
  /-- a range to be mapped or unmapped does not consist of pages -/
  | misalignedRange
  /-- bytes were to be moved across the end of a frame -/
  | crossesFrame (way : Direction)
  /-- a value does not fit in its field, whose largest value is `max` -/
  | fieldTooSmall (max : UInt64)
  /-- the entries of the lowest tables point to pages, not to tables -/
  | leafHasNoTable
  /-- a page that is already mapped was to be mapped -/
  | livePage (page : VirtAddr)
  /-- a frame given back never came from this pool -/
  | foreignFrame (frame : PageFrame)
  /-- a frame given back was not in use -/
  | doubleFree (frame : PageFrame)
  /-- there is no memory at this physical address -/
  | noMemory (address : PhysAddr)
  /-- an area was to be placed in a window without addresses -/
  | emptyWindow
  /-- an address given back is not one that an area can start at -/
  | misalignedRelease (call : ReleaseCall) (address : VirtAddr)
  /-- a list of `length` members has none of this number -/
  | outOfRange (length index : Nat)
  /-- a handle of number `index` was to be stored behind `length` others -/
  | storedOutOfOrder (index length : Nat)
  /-- an array of handles has no room for another one -/
  | arrayFull
  /-- an array of handles has none of this number -/
  | noSuchHandle
  deriving DecidableEq

namespace Fault

def message : Fault → String
  | overflow .add => "attempt to add with overflow"
  | overflow .subtract => "attempt to subtract with overflow"
  | overflow .multiply => "attempt to multiply with overflow"
  | misalignedFrame => "frame base not 4 KiB aligned"
  | misalignedPool => "assertion failed: base.is_multiple_of(PAGE_SIZE)"
  | noSuchEntry => "assertion failed: (v as usize) < ENTRIES_PER_TABLE"
  | offsetBeyondFrame => "assertion failed: offset < PAGE_SIZE"
  | misalignedRange => "assertion failed: start.is_page_aligned() && end.is_page_aligned()"
  | crossesFrame .load => "assertion failed: pa.page_offset() + dst.len() as u64 <= PAGE_SIZE"
  | crossesFrame .store => "assertion failed: pa.page_offset() + src.len() as u64 <= PAGE_SIZE"
  | fieldTooSmall max => "value out of bounds [0, " ++ toString max.toNat ++ "]"
  | leafHasNoTable => "leaf entries have no children"
  | livePage page => "attempt to map over live kernel page at " ++ page.text
  | foreignFrame frame => "freeing frame " ++ frame.taggedText ++ " outside simulated memory"
  | doubleFree frame => "double free of frame " ++ frame.taggedText
  | noMemory a => "physical address " ++ a.text ++ " outside simulated memory"
  | emptyWindow => "empty placement window"
  | misalignedRelease call a => call.name ++ "() of misaligned address " ++ a.text
  | outOfRange length index =>
    "index out of bounds: the len is " ++ toString length ++ " but the index is " ++ toString index
  | storedOutOfOrder index length =>
    "assertion `left == right` failed\n  left: " ++ toString index ++ "\n right: " ++ toString length
  | arrayFull => "assertion failed: pages.len() < pages.capacity()"
  | noSuchHandle => "assertion failed: index < *len"

end Fault

/-! ## Steps that check a rule -/

/-- A step without a state is a step that leaves the state alone. -/
instance {σ : Type} : MonadLift (Except Fault) (EStateM Fault σ) where
  monadLift
    | .ok a => pure a
    | .error f => throw f

/-- The value of a sum, difference or product, or the fault that it does not exist. -/
def ofArithmetic (op : Arithmetic) : Option UInt64 → Except Fault UInt64
  | some x => .ok x
  | none => .error (.overflow op)

def Word.add (x y : UInt64) : Except Fault UInt64 := ofArithmetic .add (Word.add? x y)

def Word.sub (x y : UInt64) : Except Fault UInt64 := ofArithmetic .subtract (Word.sub? x y)

def Word.mul (x y : UInt64) : Except Fault UInt64 := ofArithmetic .multiply (Word.mul? x y)

/-- Rounding down to multiples of `a`. There are none of 0, which shows in the mask `a - 1`. -/
def Word.roundDown (x a : UInt64) : Except Fault UInt64 := do
  let _ ← Word.sub a 1
  return Word.alignDown x a

/-- Rounding up to multiples of `a`; nothing if the multiple is out of range. -/
def Word.roundUp (x a : UInt64) : Except Fault (Option UInt64) := do
  let _ ← Word.sub a 1
  return Word.alignUp? x a

def VirtAddr.add (a : VirtAddr) (n : UInt64) : Except Fault VirtAddr :=
  return ⟨← Word.add a.val n⟩

def PhysAddr.add (a : PhysAddr) (n : UInt64) : Except Fault PhysAddr :=
  return ⟨← Word.add a.val n⟩

namespace PageFrame

/-- The frame that starts at `a`; it is a fault if `a` lies inside a frame. -/
def ofAddr (a : PhysAddr) : Except Fault PageFrame :=
  match ofAddr? a with
  | some f => .ok f
  | none => .error .misalignedFrame

/-- The frame `n` pages after `f`. -/
def following (f : PageFrame) (n : Nat) : Except Fault PageFrame := do
  ofAddr (← f.base.add (← Word.mul (.ofNat n) pageSize))

/-- The byte of `f` at `offset`. -/
def byteAt (f : PageFrame) (offset : UInt64) : Except Fault PhysAddr :=
  if offset < pageSize then f.base.add offset else .error .offsetBeyondFrame

end PageFrame

end PagedMemory
