import PagedMemory.Word
import PagedMemory.Text
import PagedMemory.Layout

/-!
# Addresses

* `VirtAddr`: a byte address as the page tables translate it.
* `PhysAddr`: a byte address of physical memory.
* `PageFrame`: a page of physical memory, named by the address of its first byte. That this
  address is page-aligned is part of the type.
* `Interval`: the virtual addresses from `start` up to, but not including, `stop`.

Sums that may leave the 64-bit range are in `PagedMemory.Fault`.
-/

namespace PagedMemory

open Layout

/-- The place of an address within its page. -/
def offsetInPage (x : UInt64) : UInt64 := x &&& (pageSize - 1)

/-- Rounding down to a page leaves no offset. -/
theorem offsetInPage_alignDown (x : UInt64) : offsetInPage (Word.alignDown x pageSize) = 0 := by
  rw [offsetInPage, Word.alignDown, UInt64.and_assoc]
  exact UInt64.and_zero

structure VirtAddr where
  val : UInt64
  deriving DecidableEq, Inhabited

namespace VirtAddr

def pageOffset (a : VirtAddr) : UInt64 := offsetInPage a.val

def pageBase (a : VirtAddr) : VirtAddr := ⟨Word.alignDown a.val pageSize⟩

/-- Whether a page starts at `a`. -/
def isAligned (a : VirtAddr) : Bool := a.pageOffset == 0

def add? (a : VirtAddr) (n : UInt64) : Option VirtAddr := (Word.add? a.val n).map mk

def text (a : VirtAddr) : String := Text.address a.val

/-- The text that also says what kind of address it is. -/
def taggedText (a : VirtAddr) : String := "VA(" ++ a.text ++ ")"

end VirtAddr

structure PhysAddr where
  val : UInt64
  deriving DecidableEq, Inhabited

namespace PhysAddr

def pageOffset (a : PhysAddr) : UInt64 := offsetInPage a.val

def text (a : PhysAddr) : String := Text.address a.val

/-- The text that also says what kind of address it is. -/
def taggedText (a : PhysAddr) : String := "PA(" ++ a.text ++ ")"

end PhysAddr

/-- A page of physical memory. -/
structure PageFrame where
  /-- the address of its first byte -/
  base : PhysAddr
  /-- frames start on page boundaries -/
  aligned : base.pageOffset = 0
  deriving DecidableEq

namespace PageFrame

/-- The frame that starts at `a`, if one can. -/
def ofAddr? (a : PhysAddr) : Option PageFrame :=
  if h : a.pageOffset = 0 then some ⟨a, h⟩ else none

/-- The frame that `a` lies in. -/
def containing (a : PhysAddr) : PageFrame :=
  ⟨⟨Word.alignDown a.val pageSize⟩, offsetInPage_alignDown a.val⟩

instance : Inhabited PageFrame := ⟨containing ⟨0⟩⟩

/-- The text that also says what kind of address it is. -/
def taggedText (f : PageFrame) : String := "Frame(" ++ f.base.text ++ ")"

end PageFrame

/-- The virtual addresses from `start` up to, but not including, `stop`. -/
structure Interval where
  start : VirtAddr
  stop : VirtAddr
  deriving DecidableEq, Inhabited

end PagedMemory
