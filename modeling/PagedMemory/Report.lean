import PagedMemory.Entry
import PagedMemory.Error
import PagedMemory.Level
import PagedMemory.Policy
import PagedMemory.Span

/-!
# Reports and events

What a machine and its allocators let an observer see, in the order in which it happens.

* `Report`: something worth a line in a log, with its `severity` and `text`.
* `Event`: a frame changing hands, a mapping that comes or goes, a demand on the translation
  caches, a copy, a request or a report.
-/

namespace PagedMemory

inductive Severity where
  | error
  | warning
  | debug
  | trace
  deriving DecidableEq

def Severity.name : Severity → String
  | error => "error"
  | warning => "warn"
  | debug => "debug"
  | trace => "trace"

/-- The requests whose partial work has to be undone when they fail. -/
inductive Undone where
  | allocation
  | borrowedMapping
  | deviceMapping
  deriving DecidableEq

def Undone.name : Undone → String
  | allocation => "allocation"
  | borrowedMapping => "vmap"
  | deviceMapping => "ioremap"

inductive Report where
  /-- a malformed entry gives way to a new table -/
  | malformedReplaced (level : Level) (entry : Entry) (index : TableIndex)
  /-- a malformed entry is cleared together with the range it stands for -/
  | malformedCleared (level : Level) (entry : Entry) (start : VirtAddr)
  /-- a page that should be free is not -/
  | pageExists (page : VirtAddr) (entry : Entry)
  /-- an entry for a page was neither empty nor present -/
  | notPresent (entry : Entry) (page : VirtAddr)
  | reserved (span : Span)
  | noVirtualSpace (size : UInt64)
  | unmapped (pages : Nat) (start : VirtAddr)
  | released (pages : Nat) (start : VirtAddr)
  | framesMissing (obtained wanted : Nat)
  | nestsTooDeep (handles : Nat)
  /-- a frame was to be kept where there is no room for one -/
  | handleDropped (frame : PageFrame)
  /-- an area was removed while its frames were being collected -/
  | areaVanished (start : VirtAddr)
  | allocated (size : UInt64) (start : VirtAddr)
  | deviceMapped (device : PhysAddr) (size : UInt64) (start : VirtAddr)
  | undoFailed (what : Undone) (start : VirtAddr) (cause : AllocError)
  | badRelease (call : ReleaseCall) (address : VirtAddr)
  | unknownRelease (call : ReleaseCall) (address : VirtAddr)
  deriving DecidableEq

namespace Report

def severity : Report → Severity
  | malformedReplaced .. => .error
  | malformedCleared .. => .error
  | pageExists .. => .error
  | notPresent .. => .error
  | reserved .. => .trace
  | noVirtualSpace .. => .warning
  | unmapped .. => .trace
  | released .. => .trace
  | framesMissing .. => .warning
  | nestsTooDeep .. => .warning
  | handleDropped .. => .error
  | areaVanished .. => .error
  | allocated .. => .debug
  | deviceMapped .. => .debug
  | undoFailed .. => .error
  | badRelease .. => .error
  | unknownRelease .. => .error

def text (r : Report) : String :=
  "vmalloc: " ++ match r with
  | malformedReplaced l e i =>
    "bad " ++ l.name ++ " entry " ++ Text.wideHex e.bits ++ " at index " ++ toString i.val ++
      ", replacing"
  | malformedCleared l e a =>
    "bad " ++ l.name ++ " entry " ++ Text.wideHex e.bits ++ " covering " ++ a.text ++ ", clearing"
  | pageExists a e =>
    "page already exists at " ++ a.text ++ " (entry " ++ Text.wideHex e.bits ++ ")"
  | notPresent e a => "non-present kernel pte " ++ Text.wideHex e.bits ++ " at " ++ a.text
  | reserved s => "reserved " ++ s.line
  | noVirtualSpace size => "allocation failed, no virtual space for " ++ Text.hex size ++ " bytes"
  | unmapped n a => "unmapped " ++ toString n ++ " pages at " ++ a.text
  | released n a => "released " ++ toString n ++ " pages of " ++ a.text
  | framesMissing n wanted =>
    "only " ++ toString n ++ " of " ++ toString wanted ++ " pages available"
  | nestsTooDeep n => "page array for " ++ toString n ++ " pages nests too deep"
  | handleDropped f => "dropping " ++ f.taggedText ++ " stored into an empty page array"
  | areaVanished a => "area at " ++ a.text ++ " vanished before its pages were attached"
  | allocated size a => Text.hex size ++ " bytes at " ++ a.text
  | deviceMapped pa size a =>
    "ioremap " ++ pa.text ++ " (" ++ Text.hex size ++ " bytes) at " ++ a.text
  | undoFailed what a cause =>
    "unwinding failed " ++ what.name ++ " at " ++ a.text ++ ": " ++ cause.message
  | badRelease call a => "trying to " ++ call.name ++ "() bad address (" ++ a.text ++ ")"
  | unknownRelease call a =>
    "trying to " ++ call.name ++ "() nonexistent vm area (" ++ a.text ++ ")"

/-- The report as a line of a log. -/
def line (r : Report) : String := r.severity.name ++ ": " ++ r.text

end Report

inductive Event where
  /-- a pool handed out a frame -/
  | taken (frame : PageFrame)
  /-- a pool got a frame back -/
  | returned (frame : PageFrame)
  /-- new mappings of a range are to be seen from now on -/
  | afterMap (range : Interval)
  /-- cached data of a range is to be written back, for its mappings will go -/
  | beforeUnmap (range : Interval)
  /-- cached translations of a range are to be dropped -/
  | flushed (range : Interval)
  /-- someone asked for a frame -/
  | requested (policy : FramePolicy)
  /-- a page was mapped to a frame -/
  | mapped (page : VirtAddr) (frame : PageFrame)
  /-- a page that was mapped is mapped no more -/
  | unmapped (page : VirtAddr)
  /-- bytes are copied between a buffer and memory through an area -/
  | copied (way : Direction) (place : PhysAddr)
  | reported (report : Report)
  deriving DecidableEq

end PagedMemory
