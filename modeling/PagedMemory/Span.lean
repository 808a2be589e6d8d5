import PagedMemory.Fault

/-!
# Spans

A span is the public face of an area: a stretch of virtual addresses whose last page is a guard
that is never mapped.

* `AreaKind`: who owns the frames behind an area, and how areas of the kind are aligned.
* `Span.stopAddr`: the first address after the guard page.
* `Span.mappedEnd`: the first address of the guard page.
* `Span.contains`: whether an address lies in the span.
* `Span.line`: one line of text about the area.
-/

namespace PagedMemory

open Layout

inductive AreaKind where
  /-- device memory, owned by no one -/
  | device
  /-- frames owned by the area -/
  | allocated
  /-- frames owned by the client -/
  | borrowed
  deriving DecidableEq, Inhabited

namespace AreaKind

/-- The name of the kind in messages. -/
def name : AreaKind → String
  | device => "ioremap"
  | allocated => "vmalloc"
  | borrowed => "vmap"

/-- Device areas start at multiples of the least power of two above their size, which is kept
between a page and `2 ^ deviceMaxOrder`; all others at pages. -/
def alignment (kind : AreaKind) (size : UInt64) : UInt64 :=
  match kind with
  | device => 1 <<< UInt64.ofNat (max pageShift.toNat (min (Word.fls size) deviceMaxOrder))
  | allocated => pageSize
  | borrowed => pageSize

end AreaKind

structure Span where
  address : VirtAddr
  /-- bytes up to the end of the guard page -/
  size : UInt64
  kind : AreaKind
  /-- the number of frames that the area owns -/
  pageCount : Nat
  /-- where the device memory lies that is mapped here -/
  physAddr : Option PhysAddr
  deriving DecidableEq, Inhabited

namespace Span

/-- The first address after the guard page. -/
def stopAddr (s : Span) : Except Fault VirtAddr := s.address.add s.size

/-- Whether `a` lies in the span, its guard page included. The end is worked out only where `a` does
not lie before the span. -/
def contains (s : Span) (a : VirtAddr) : Except Fault Bool :=
  if s.address.val ≤ a.val then do return a.val < (← s.stopAddr).val else return false

/-- The first address of the guard page. -/
def mappedEnd (s : Span) : Except Fault VirtAddr := do
  return ⟨← Word.sub (← s.stopAddr).val pageSize⟩

/-- Addresses, size in decimal and kind; the number of frames if there are any, and the place of
the device if there is one. The span has to end within the 64-bit range. -/
def line (s : Span) : String :=
  s.address.text ++ "-" ++ Text.address (s.address.val + s.size) ++ " " ++
    Text.column 10 s.size.toNat ++ " " ++ s.kind.name ++
    (if s.pageCount = 0 then "" else " pages=" ++ toString s.pageCount) ++
    (match s.physAddr with
      | none => ""
      | some pa => " phys=" ++ pa.text)

end Span

end PagedMemory
