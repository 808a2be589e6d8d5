import PagedMemory.Routine
import PagedMemory.Shared
import PagedMemory.Window

/-!
# The allocator

An allocator makes frames that may lie anywhere contiguous: it reserves an area in its window and
maps the area's pages to the frames.

* `Allocator.allocate`, `Allocator.free`: areas that own their frames.
* `Allocator.mapFrames`, `Allocator.unmapFrames`: areas over frames of the client.
* `Allocator.mapDevice`, `Allocator.unmapDevice`: areas over device memory.
* `Allocator.reserve`, `Allocator.mapArea`: the two halves by themselves.

All are routines. An allocation has many sections, and whatever fails on the way, one routine
undoes the work: `Allocator.unwind`, which is also how memory is freed.
-/

namespace PagedMemory

open Layout Machine Routine

/-- What of an allocator never changes: its window, and the root of its page tables. -/
structure Allocator where
  window : Window
  root : PageFrame
  deriving Inhabited

/-- A routine of a client of an allocator. -/
abbrev Job := Routine Fault Shared

namespace Allocator

/-- One section that leaves the registry alone. -/
def onMachine {α : Type} (x : MachineM α) : Job α := atomically .free (Shared.onMachine x)

/-- A step without a state is no section, unless it is a fault and ends the routine. -/
def orFault {α : Type} : Except Fault α → Job α
  | .ok a => return a
  | .error f => onMachine (throw f)

/-- An allocator with page tables of its own, which map nothing. -/
def create (window : Window) : MachineM (Except AllocError Allocator) := do
  match ← Tables.newTable with
  | .ok root => return .ok ⟨window, root⟩
  | .error e => return .error (.ofMapError e)

/-! ## Areas by themselves -/

/-- Reserves `size` bytes and a guard page in a window of the client's choice. -/
def reserveIn (size : UInt64) (kind : AreaKind) (window : Interval) :
    Job (Except AllocError Span) :=
  atomically .exclusive (Shared.reserveOrWarn size kind window)

/-- Reserves `size` bytes and a guard page in the window of the allocator. -/
def reserve (a : Allocator) (size : UInt64) (kind : AreaKind) : Job (Except AllocError Span) :=
  reserveIn size kind a.window.range

/-- Maps the pages of the area at `address`, in order, to the frames of `source`; also answers
how many frames were taken. What was mapped before a failure stays mapped until the area is
removed. -/
def mapArea (a : Allocator) (address : VirtAddr) (prot : Entry) (source : FrameSource) :
    Job (Except AllocError Unit × Nat) := do
  match ← atomically .shared (Shared.mappedRange? address) with
  | none => return (.error (.notFound address), 0)
  | some range =>
    match ← onMachine (Walk.fill a.root range prot source 0) with
    | (.error e, taken) => return (.error (.ofMapError e), taken)
    | (.ok _, taken) =>
      onMachine (emit (.afterMap range))
      return (.ok (), taken)

/-- Unmaps the area at `address` and takes it out of the registry. -/
def removeArea (a : Allocator) (address : VirtAddr) : Job (Except AllocError Shared.Removed) :=
  atomically .exclusive (Shared.remove a.root address)

/-! ## Giving frames back -/

/-- Gives back the frame of handle `i`; whether there was one. -/
def returnHandle (handles : HandleArray) (i : Nat) : MachineM Bool := do
  match ← handles.get? i with
  | none => return false
  | some f =>
    returnFrame f
    return true

/-- Gives back the frames of the next `n` handles from number `i` on, up to the first that is
missing. -/
def returnFrames (handles : HandleArray) : Nat → Nat → Job Unit
  | 0, _ => return ()
  | n + 1, i => do
    if ← onMachine (returnHandle handles i) then returnFrames handles n (i + 1)

/-- Gives back the frames of a removed area, and then those of the areas that hold its handles:
the area of the array itself, of that array's array, and so on. Each of them has to be removed
first, so that there are no more than there were areas. -/
def release (a : Allocator) : Nat → Area → Job Unit
  | 0, _ => return ()
  | n + 1, area => do
    returnFrames area.handles area.pageCount 0
    if let some base := area.handles.base? then
      match ← a.removeArea base with
      | .ok removed => a.release n removed.area
      | .error e => onMachine (report (.undoFailed .allocation base e))
    onMachine (report (.released area.pageCount area.address))

/-- Removes the area at `address` together with the frames it owns. -/
def tearDown (a : Allocator) (address : VirtAddr) : Job (Except AllocError Unit) := do
  match ← a.removeArea address with
  | .error e => return .error e
  | .ok removed =>
    a.release (removed.others + 1) removed.area
    return .ok ()

/-- Removes the area at `address`, whose frames are not its own. -/
def detach (a : Allocator) (address : VirtAddr) : Job (Except AllocError Unit) := do
  match ← a.removeArea address with
  | .error e => return .error e
  | .ok _ => return .ok ()

/-- Undoes a failed allocation. -/
def unwind (a : Allocator) (address : VirtAddr) : Job Unit := do
  if let .error e ← a.tearDown address then
    onMachine (report (.undoFailed .allocation address e))

/-- Undoes a failed mapping of frames that are not the allocator's. -/
def undo (a : Allocator) (what : Undone) (address : VirtAddr) : Job Unit := do
  if let .error e ← a.detach address then
    onMachine (report (.undoFailed what address e))

/-! ## Allocation -/

/-- Takes a frame and stores it as handle `i`. -/
def takeHandle (policy : FramePolicy) (handles : HandleArray) (i : Nat) :
    MachineM (Option HandleArray) := do
  match ← takeFrame policy with
  | none => return none
  | some f => return some (← handles.store i f)

/-- Takes up to `n` more frames, the next one being handle `i`, until none is left. The answers
are the array and the number of handles in it. -/
def takeFrames (policy : FramePolicy) : Nat → Nat → HandleArray → Job (HandleArray × Nat)
  | 0, i, handles => return (handles, i)
  | n + 1, i, handles => do
    match ← onMachine (takeHandle policy handles i) with
    | none => return (handles, i)
    | some handles => takeFrames policy n (i + 1) handles

/-- Maps the area at `address` to the `count` frames in `handles`, of which only `obtained` could
be had. -/
def mapHandles (a : Allocator) (address : VirtAddr) (prot : Entry) (handles : HandleArray)
    (count obtained : Nat) : Job (Except AllocError Unit) := do
  if obtained = count then
    return (← a.mapArea address prot (handles.source count)).1
  else
    onMachine (report (.framesMissing obtained count))
    return .error .outOfMemory

/-- The number of pages that `size` bytes take, if the machine could have so many. -/
def pageCount? (size total : UInt64) : Option (UInt64 × Nat) :=
  match Word.alignUp? size pageSize with
  | none => none
  | some size =>
    let pages := size / pageSize
    if pages = 0 ∨ total < pages then none else some (size, pages.toNat)

/-- Allocates `size` bytes, with `arrayFor` to make the array for the handles. The area comes
first, then the array, the frames, and the mapping. The area gets hold of its frames whether the
mapping succeeded or not, so that undoing a failure gives them back. -/
def allocateWith (a : Allocator)
    (arrayFor : Nat → FramePolicy → Job (Except AllocError HandleArray))
    (size : UInt64) (policy : FramePolicy) (prot : Entry) : Job (Except AllocError VirtAddr) := do
  match pageCount? size (← onMachine frameTotal) with
  | none => return .error .outOfMemory
  | some (size, count) =>
    match ← a.reserve size .allocated with
    | .error e => return .error e
    | .ok span =>
      match ← arrayFor count policy with
      | .error e =>
        a.unwind span.address
        return .error e
      | .ok handles =>
        let (handles, obtained) ← takeFrames policy count 0 handles
        let mapped ← a.mapHandles span.address prot handles count obtained
        atomically .exclusive (Shared.attach span.address handles obtained)
        match mapped with
        | .error e =>
          a.unwind span.address
          return .error e
        | .ok () =>
          onMachine (report (.allocated size span.address))
          return .ok span.address

/-- An array for `count` handles in the frames of the area at `base`, all of which are cleared. -/
def arrayIn (a : Allocator) (base : VirtAddr) (count : Nat) :
    Job (Except AllocError HandleArray) := do
  match ← atomically .shared (Shared.framesOf base) with
  | .error e =>
    a.unwind base
    return .error e
  | .ok backing =>
    backing.forM fun f => onMachine (Pool.zero f)
    return .ok (.mapped base count backing.toArray)

/-- An array for `count` handles. One that does not fit beside its area is allocated, unless it
would nest deeper than `levels`. -/
def arrayFor (a : Allocator) :
    (levels : Nat) → (count : Nat) → FramePolicy → Job (Except AllocError HandleArray)
  | 0, count, _ => do
    if HandleArray.fitsInline count then return .ok (.inline count #[])
    onMachine (report (.nestsTooDeep count))
    return .error .outOfMemory
  | levels + 1, count, policy => do
    if HandleArray.fitsInline count then return .ok (.inline count #[])
    let size ← orFault (HandleArray.bytesFor count)
    match ← a.allocateWith (a.arrayFor levels) size policy.forHandles .pageKernel with
    | .error e => return .error e
    | .ok base => a.arrayIn base count

/-- Allocates `size` bytes of contiguous virtual memory, in frames taken under `policy` and mapped
under `prot`. -/
def allocate (a : Allocator) (size : UInt64) (policy : FramePolicy) (prot : Entry) :
    Job (Except AllocError VirtAddr) :=
  a.allocateWith (a.arrayFor maxNesting) size policy prot

/-- Allocates memory for data of the kernel. -/
def allocateData (a : Allocator) (size : UInt64) : Job (Except AllocError VirtAddr) :=
  a.allocate size .kernelHigh .pageKernel

/-- Allocates memory for code of the kernel. -/
def allocateCode (a : Allocator) (size : UInt64) : Job (Except AllocError VirtAddr) :=
  a.allocate size .kernelHigh .pageKernelExec

/-- Allocates memory in frames that devices with 32 address lines can reach. -/
def allocateLow (a : Allocator) (size : UInt64) : Job (Except AllocError VirtAddr) :=
  a.allocate size .kernelLow .pageKernel

/-- An address that is given back has to lie on a page boundary, for areas start on no other. -/
def checkStart (call : ReleaseCall) (address : VirtAddr) : Job Unit :=
  if address.isAligned then return ()
  else onMachine do
    report (.badRelease call address)
    throw (.misalignedRelease call address)

/-- Reports an address that was given back although no area starts there. -/
def reportUnknown (call : ReleaseCall) (address : VirtAddr) : Except AllocError Unit → Job Unit
  | .ok () => return ()
  | .error _ => onMachine (report (.unknownRelease call address))

/-- Gives back what `allocate` returned. Address 0 stands for nothing and is ignored. -/
def free (a : Allocator) (address : VirtAddr) : Job Unit := do
  if address.val != 0 then
    checkStart .free address
    reportUnknown .free address (← a.tearDown address)

/-! ## Memory of others -/

/-- Maps frames of the client side by side. -/
def mapFrames (a : Allocator) (frames : List PageFrame) (prot : Entry) :
    Job (Except AllocError VirtAddr) := do
  let total ← onMachine frameTotal
  if frames.length = 0 ∨ total.toNat < frames.length then return .error .outOfMemory
  match ← a.reserve (← orFault (Word.mul (.ofNat frames.length) pageSize)) .borrowed with
  | .error e => return .error e
  | .ok span =>
    match (← a.mapArea span.address prot (.ofList frames)).1 with
    | .error e =>
      a.undo .borrowedMapping span.address
      return .error e
    | .ok () => return .ok span.address

/-- Gives back what `mapFrames` returned. The frames stay with the client. -/
def unmapFrames (a : Allocator) (address : VirtAddr) : Job Unit := do
  checkStart .unmapFrames address
  reportUnknown .unmapFrames address (← a.detach address)

/-- The frames that hold the `size` bytes from `device` on: the first one, and the address behind
the last one. There are none if the range is empty, or if it or its last frame leaves the 64-bit
range. -/
def deviceFrames? (device : PhysAddr) (size : UInt64) : Option (PageFrame × UInt64) := do
  let last ← Word.add? device.val size
  if size = 0 then none
  return (.containing device, ← Word.alignUp? last pageSize)

/-- Maps the `size` bytes of device memory at `device`. The answer has the in-page offset of
`device`. -/
def mapDevice (a : Allocator) (device : PhysAddr) (size : UInt64) (prot : Entry) :
    Job (Except AllocError VirtAddr) := do
  match deviceFrames? device size with
  | none => return .error .outOfMemory
  | some (first, stop) =>
    let size ← orFault (Word.sub stop first.base.val)
    match ← a.reserve size .device with
    | .error e => return .error e
    | .ok span =>
      atomically .exclusive (Shared.noteDevice span.address first.base)
      match (← a.mapArea span.address prot (.run first (size / pageSize).toNat)).1 with
      | .error e =>
        a.undo .deviceMapping span.address
        return .error e
      | .ok () =>
        onMachine (report (.deviceMapped device size span.address))
        return .ok (← orFault (span.address.add device.pageOffset))

/-- Gives back what `mapDevice` returned, or any other address in the first page of the area. -/
def unmapDevice (a : Allocator) (address : VirtAddr) : Job Unit := do
  reportUnknown .unmapDevice address (← a.detach address.pageBase)

/-! ## Looking -/

/-- The physical address at which the allocator's tables map an address. -/
def translate (a : Allocator) (address : VirtAddr) : Job (Option PhysAddr) :=
  onMachine (Walk.translate a.root address)

/-- The area that an address lies in, guard page included. -/
def findArea (address : VirtAddr) : Job (Option Span) :=
  atomically .shared do return (← (← get).registry.findContaining? address).map Area.toSpan

/-- All areas, the lowest address first. -/
def spans : Job (List Span) := atomically .shared do return (← get).registry.spans

end Allocator

end PagedMemory
