import PagedMemory.Error

/-!
# Windows

The range of virtual addresses in which an allocator places its areas. It consists of whole pages
and has room for at least one page and its guard.
-/

namespace PagedMemory

open Layout

/-- Whether a range can serve as a window. -/
def Interval.isWindow (r : Interval) : Bool :=
  r.start.isAligned && r.stop.isAligned &&
    match Word.sub? r.stop.val r.start.val with
    | some length => 2 * pageSize ≤ length
    | none => false

structure Window where
  range : Interval
  valid : range.isWindow = true

namespace Window

def ofInterval (range : Interval) : Except AllocError Window :=
  if h : range.isWindow = true then .ok ⟨range, h⟩ else .error (.invalidWindow range)

/-- The part of the kernel's address space that is set aside for virtually contiguous memory. -/
def standard : Window := ⟨⟨⟨windowStart⟩, ⟨windowStop⟩⟩, by decide⟩

instance : Inhabited Window := ⟨standard⟩

def length (w : Window) : UInt64 := w.range.stop.val - w.range.start.val

end Window

end PagedMemory
