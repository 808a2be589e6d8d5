import PagedMemory.Address

/-!
# Failures that clients have to expect

* `MapError`: why a range could not be filled with mappings.
* `AllocError`: why a request to an allocator was refused.
-/

namespace PagedMemory

inductive MapError where
  /-- there was no frame for a table -/
  | noTable
  /-- there were fewer frames than pages -/
  | tooFewFrames
  deriving DecidableEq

def MapError.message : MapError → String
  | noTable => "out of memory while allocating a page-table directory"
  | tooFewFrames => "page provider ran out before the range was filled"

inductive AllocError where
  /-- no free place for `size` bytes and their guard page -/
  | outOfSpace (size : UInt64)
  | outOfMemory
  /-- no area starts at this address -/
  | notFound (address : VirtAddr)
  /-- the window is not made of pages, or has fewer than two -/
  | invalidWindow (window : Interval)
  /-- no allocator has been installed yet -/
  | uninitialized
  /-- an allocator has been installed before -/
  | alreadyInitialized
  deriving DecidableEq

namespace AllocError

def message : AllocError → String
  | outOfSpace size => "no free virtual range for " ++ Text.hex size ++ " bytes"
  | outOfMemory => "out of memory"
  | notFound a => "no vm area starts at " ++ a.text
  | invalidWindow w => "invalid vmalloc window " ++ w.start.text ++ ".." ++ w.stop.text
  | uninitialized => "vmalloc is not initialized"
  | alreadyInitialized => "vmalloc is already initialized"

/-- To the client of an allocator both causes are a want of memory. -/
def ofMapError : MapError → AllocError
  | .noTable => outOfMemory
  | .tooFewFrames => outOfMemory

end AllocError

end PagedMemory
