import PagedMemory.Fault

/-!
# Page-table entries

An entry is a word: ten flags, the address of a frame in bits 12 to 51, and two fields that the
hardware ignores.

* `Entry.has`, `Entry.set`: the flags.
* `Entry.get`, `Entry.put`: the fields. A value that does not fit is a fault.
* `Entry.leaf`, `Entry.table`: the entries that point to a page and to a table.
* `Entry.isMalformed`: an entry of an upper table that is neither empty nor points to a table.
* `Entry.pageKernel` and the like: protections that clients ask for.
-/

namespace PagedMemory

structure Entry where
  bits : UInt64
  deriving DecidableEq, Inhabited

/-- The flags of an entry. -/
inductive EntryFlag where
  | present
  | writable
  | userAccess
  | writeThrough
  | cacheDisabled
  | accessed
  | dirty
  | largePage
  | globalTranslation
  | noExecute
  deriving DecidableEq

/-- The bit at which a flag is kept. -/
def EntryFlag.mask : EntryFlag → UInt64
  | present => 0x1
  | writable => 0x2
  | userAccess => 0x4
  | writeThrough => 0x8
  | cacheDisabled => 0x10
  | accessed => 0x20
  | dirty => 0x40
  | largePage => 0x80
  | globalTranslation => 0x100
  | noExecute => 0x8000000000000000

/-- The numbers that an entry holds. -/
inductive EntryField where
  /-- bits 9 to 11, free for the system -/
  | availableLow
  /-- bits 12 to 51: the number of a frame -/
  | frameNumber
  /-- bits 52 to 62, free for the system -/
  | availableHigh
  deriving DecidableEq

namespace EntryField

/-- The lowest bit of the field. -/
def shift : EntryField → UInt64
  | availableLow => 9
  | frameNumber => 12
  | availableHigh => 52

/-- The largest value of the field. -/
def max : EntryField → UInt64
  | availableLow => 0x7
  | frameNumber => 0xffffffffff
  | availableHigh => 0x7ff

/-- The bits of the field. -/
def mask : EntryField → UInt64
  | availableLow => 0xe00
  | frameNumber => 0x000ffffffffff000
  | availableHigh => 0x7ff0000000000000

end EntryField

namespace Entry

def empty : Entry := ⟨0⟩

def isEmpty (e : Entry) : Bool := e.bits == 0

def has (e : Entry) (f : EntryFlag) : Bool := (e.bits &&& f.mask) != 0

def set (e : Entry) (f : EntryFlag) (on : Bool) : Entry :=
  ⟨if on then e.bits ||| f.mask else e.bits &&& ~~~f.mask⟩

def get (e : Entry) (f : EntryField) : UInt64 := (e.bits &&& f.mask) >>> f.shift

/-- Writes `v` into a field and leaves all other bits alone. -/
def put (e : Entry) (f : EntryField) (v : UInt64) : Except Fault Entry :=
  if v ≤ f.max then .ok ⟨(e.bits &&& ~~~f.mask) ||| (v <<< f.shift)⟩
  else .error (.fieldTooSmall f.max)

/-- The address that the entry points to. -/
def address (e : Entry) : PhysAddr := ⟨e.bits &&& EntryField.frameNumber.mask⟩

/-- Points the entry to the frame of `a`. Frames from 2^52 on have no number that fits. -/
def setAddress (e : Entry) (a : PhysAddr) : Except Fault Entry :=
  e.put .frameNumber (a.val >>> EntryField.frameNumber.shift)

/-- The frame that the entry points to. -/
def frame (e : Entry) : PageFrame where
  base := e.address
  aligned := by
    rw [PhysAddr.pageOffset, offsetInPage, address, UInt64.and_assoc]
    exact UInt64.and_zero

/-- An entry of an upper table is malformed if it is not empty and does not point to a table:
it is not present, stands for one large page, or lets user programs in. -/
def isMalformed (e : Entry) : Bool :=
  !e.isEmpty && (!e.has .present || e.has .largePage || e.has .userAccess)

/-- The protection of entries that point to tables. -/
def kernelTable : Entry :=
  (((empty.set .present true).set .writable true).set .accessed true).set .dirty true

/-- Kernel data: written freely, never executed. -/
def pageKernel : Entry := (kernelTable.set .globalTranslation true).set .noExecute true

def pageKernelExec : Entry := pageKernel.set .noExecute false

def pageKernelReadOnly : Entry := pageKernel.set .writable false

/-- Device memory: every access reaches the device. -/
def pageKernelUncached : Entry := (pageKernel.set .cacheDisabled true).set .writeThrough true

/-- The entry that maps one page to `frame` under the protection `prot`. What `prot` says of
presence, page size and address does not count. -/
def leaf (frame : PageFrame) (prot : Entry) : Except Fault Entry :=
  ((prot.set .present true).set .largePage false).setAddress frame.base

/-- The entry that points to the table in `frame`. -/
def table (frame : PageFrame) : Except Fault Entry := kernelTable.setAddress frame.base

end Entry

end PagedMemory
