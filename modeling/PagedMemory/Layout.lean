/-!
# Layout

The numbers that fix the shape of memory: the size of a page and the places of the standing
regions of the kernel's half of the address space.
-/

namespace PagedMemory.Layout

/-- A page has `2 ^ pageShift` bytes. -/
abbrev pageShift : UInt64 := 12

abbrev pageSize : UInt64 := 0x1000

/-- A table holds this many entries of eight bytes, which fill a page. -/
abbrev entriesPerTable : Nat := 512

abbrev lastUserspaceAddress : UInt64 := 0xffff000000000000

/-- Where all of physical memory appears once more. -/
abbrev directMapBase : UInt64 := 0xffff888000000000

/-- The default window for virtually contiguous memory starts here. -/
abbrev windowStart : UInt64 := 0xffffc90000000000

/-- The default window ends before here. -/
abbrev windowStop : UInt64 := 0xffffe90000000000

abbrev kernelBase : UInt64 := 0xffffffff80000000

/-- Device areas are aligned to at most `2 ^ deviceMaxOrder` bytes. -/
abbrev deviceMaxOrder : Nat := 19

/-- Frames for devices with 32 address lines lie below this address. -/
abbrev lowMemoryLimit : UInt64 := 0x100000000

/-- The first frame of a pool for which no other place is asked. -/
abbrev poolBase : UInt64 := 0x100000

/-- How deep arrays of frame handles may nest: the array of an allocation may be allocated
itself, and so may the array of that array, and no further. -/
abbrev maxNesting : Nat := 2

end PagedMemory.Layout
