import PagedMemory.Allocator

/-!
# Copying through the areas

Bytes go between a buffer and the memory that an allocator has mapped. Holes are no errors: between
areas, in guard pages and where no page is mapped one reads zeros and writes nothing. Behind the
last area nothing is read or written, which the number of bytes tells.

* `Copy.plan`: the pieces, each within a gap or within a page.
* `Allocator.read`, `Allocator.write`: hold the registry for reading from the first piece to the
  last, and look up each page on its own.
-/

namespace PagedMemory

open Layout Machine Routine

/-- A part of a buffer that is moved at once. -/
inductive Piece where
  /-- so many bytes lie in no area -/
  | gap (length : Nat)
  /-- these bytes lie in one page of an area -/
  | page (range : Interval)
  deriving DecidableEq

namespace Interval

/-- The number of addresses in the range. -/
def length (r : Interval) : Nat := r.stop.val.toNat - r.start.val.toNat

end Interval

def Piece.length : Piece → Nat
  | gap n => n
  | page r => r.length

namespace Copy

/-- The number of bytes from `address` on before the address space ends, at most `length`. -/
def clamp (address : VirtAddr) (length : UInt64) : Except Fault UInt64 :=
  match Word.add? address.val length with
  | some _ => return length
  | none => do
    -- no sum with address 0 is out of range, so that what is left is a word
    let behind ← Word.sub 0xffffffffffffffff address.val
    return min (← Word.add behind 1) length

/-- A plan in progress: the next address, and how many bytes are to follow from there on. -/
structure Cursor where
  address : UInt64
  left : UInt64

namespace Cursor

/-- Goes `length` bytes on. -/
def advance (c : Cursor) (length : UInt64) : Except Fault Cursor :=
  return ⟨← Word.add c.address length, ← Word.sub c.left length⟩

/-- How many of the bytes that are to follow lie in the page of the next one, before `stop`. -/
def inPage (c : Cursor) (stop : UInt64) : Except Fault UInt64 :=
  return min (min (← Word.sub pageSize (offsetInPage c.address)) (← Word.sub stop c.address)) c.left

end Cursor

/-- The bytes before `stop`, page by page, which are `n` pages at most. -/
def pages (stop : UInt64) : Nat → Cursor → Except Fault (List Piece × Cursor)
  | 0, c => return ([], c)
  | n + 1, c =>
    if c.address < stop ∧ 0 < c.left then do
      let next ← c.advance (← c.inPage stop)
      let (pieces, last) ← pages stop n next
      return (.page ⟨⟨c.address⟩, ⟨next.address⟩⟩ :: pieces, last)
    else return ([], c)

/-- The bytes before `start`, where the next area begins. -/
def gap (start : UInt64) (c : Cursor) : Except Fault (List Piece × Cursor) :=
  if c.address < start then do
    let length := min (← Word.sub start c.address) c.left
    return ([.gap length.toNat], ← c.advance length)
  else return ([], c)

/-- The pieces of the bytes that are to follow, given the pages of the areas in address order. -/
def plan : Cursor → List Interval → Except Fault (List Piece)
  | _, [] => return []
  | c, area :: rest =>
    if c.left = 0 then return []
    else if area.stop.val ≤ c.address then plan c rest
    else do
      let (before, c) ← gap area.start.val c
      let (body, c) ← pages area.stop.val (Interval.pieceCount ⟨⟨c.address⟩, area.stop⟩ .pt) c
      return before ++ body ++ (← plan c rest)

/-- How many bytes the pieces have together. -/
def total : List Piece → Nat
  | [] => 0
  | piece :: rest => piece.length + total rest

end Copy

namespace Allocator

/-- The pieces of the `length` bytes from `address` on, in the areas as they are now. -/
def planFrom (address : VirtAddr) (length : Nat) : SharedM (List Piece) := do
  let count ← Copy.clamp address (.ofNat length)
  let ranges ← Shared.mappedRanges
  Copy.plan ⟨address.val, count⟩ ranges

/-- The `count` bytes from `place` on, which lie in one page of an area. -/
def load (place : PhysAddr) (count : Nat) : MachineM (List UInt8) := do
  emit (.copied .load place)
  Pool.bytes place count

/-- Stores bytes from `place` on, which all go to one page of an area. -/
def store (place : PhysAddr) (data : List UInt8) : MachineM Unit := do
  emit (.copied .store place)
  Pool.setBytes place data

/-- The bytes of the pieces. -/
def readPieces (a : Allocator) : List Piece → Job (List UInt8)
  | [] => return []
  | .gap n :: rest => do return List.replicate n 0 ++ (← a.readPieces rest)
  | .page r :: rest => do
    let data ← match ← a.translate r.start with
      | some place => onMachine (load place r.length)
      | none => pure (List.replicate r.length 0)
    return data ++ (← a.readPieces rest)

/-- Reads from `address` on into a buffer. The answers are the number of bytes that were read and
the buffer, which keeps its old bytes behind them. -/
def read (a : Allocator) (address : VirtAddr) (buffer : List UInt8) : Job (Nat × List UInt8) := do
  let pieces ← atomically .enter (planFrom address buffer.length)
  let data ← a.readPieces pieces
  atomically .leave (pure ())
  return (Copy.total pieces, data ++ buffer.drop (Copy.total pieces))

/-- Writes the bytes of the pieces, which are the first ones of `data`. -/
def writePieces (a : Allocator) : List Piece → List UInt8 → Job Unit
  | [], _ => return ()
  | .gap n :: rest, data => a.writePieces rest (data.drop n)
  | .page r :: rest, data => do
    if let some place ← a.translate r.start then
      onMachine (store place (data.take r.length))
    a.writePieces rest (data.drop r.length)

/-- Writes `data` from `address` on; how many bytes were dealt with. -/
def write (a : Allocator) (address : VirtAddr) (data : List UInt8) : Job Nat := do
  let pieces ← atomically .enter (planFrom address data.length)
  a.writePieces pieces data
  atomically .leave (pure ())
  return Copy.total pieces

end Allocator

end PagedMemory
