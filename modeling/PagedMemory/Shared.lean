import PagedMemory.Registry
import PagedMemory.Walk

/-!
# What the clients of an allocator share

* `Shared`: the machine and the registry of areas.
* `Shared.reserve`, `Shared.remove`, `Shared.attach` and the like: the sections in which clients
  look into the registry or change it. Each of them happens at one moment.
-/

namespace PagedMemory

open Machine

structure Shared where
  machine : Machine
  registry : Registry

/-- A section of a client's routine. -/
abbrev SharedM := EStateM Fault Shared

namespace Shared

/-- Runs an operation on the machine. -/
def onMachine {α : Type} (x : MachineM α) : SharedM α := fun ⟨machine, registry⟩ =>
  match x machine with
  | .ok a machine => .ok a ⟨machine, registry⟩
  | .error f machine => .error f ⟨machine, registry⟩

instance : MonadLift MachineM SharedM := ⟨onMachine⟩

/-- The state over a machine without memory. -/
def bare : Shared := ⟨Machine.bare, Registry.empty⟩

/-- Reserves room in `window`. -/
def reserve (size : UInt64) (kind : AreaKind) (window : Interval) :
    SharedM (Except AllocError Span) := do
  match ← (← get).registry.reserve size kind window with
  | .error e => return .error e
  | .ok (span, registry) =>
    modify ({ · with registry })
    onMachine (report (.reserved span))
    return .ok span

/-- Reserves room in `window`, and complains if there is none. -/
def reserveOrWarn (size : UInt64) (kind : AreaKind) (window : Interval) :
    SharedM (Except AllocError Span) := do
  match ← reserve size kind window with
  | .error e =>
    onMachine (report (.noVirtualSpace size))
    return .error e
  | .ok span => return .ok span

/-- The pages of the area at `address`, without the guard page. -/
def mappedRange? (address : VirtAddr) : SharedM (Option Interval) := do
  match (← get).registry.get? address with
  | none => return none
  | some area => return some ⟨area.address, ← area.mappedEnd⟩

/-- The pages of all areas, without the guard pages, the lowest first. -/
def mappedRanges : SharedM (List Interval) := do
  (← get).registry.areas.mapM fun area => do
    let stop ← area.mappedEnd
    return ⟨area.address, stop⟩

/-- An area that was taken out of the registry, and how many others were left in it. -/
structure Removed where
  area : Area
  others : Nat

/-- Unmaps the area at `address` and takes it out of the registry. Its frames are not given back:
that has to wait until no translation of them is left, which is so when this section is over. -/
def remove (root : PageFrame) (address : VirtAddr) : SharedM (Except AllocError Removed) := do
  match (← get).registry.remove address with
  | .error e => return .error e
  | .ok (area, others) =>
    let range : Interval := ⟨area.address, ← area.mappedEnd⟩
    onMachine do
      emit (.beforeUnmap range)
      let cleared ← Walk.clear root range
      emit (.flushed range)
      report (.unmapped cleared range.start)
    modify ({ · with registry := others })
    return .ok ⟨area, others.size⟩

/-- Hands the frames of `handles` to the area at `address`. -/
def attach (address : VirtAddr) (handles : HandleArray) (pageCount : Nat) : SharedM Unit := do
  match (← get).registry.get? address with
  | some _ =>
    modify fun s => { s with
      registry := s.registry.modify address ({ · with handles, pageCount }) }
  | none => onMachine (report (.areaVanished address))

/-- Notes where the device memory lies that the area at `address` will map. -/
def noteDevice (address : VirtAddr) (device : PhysAddr) : SharedM Unit :=
  modify fun s => { s with
    registry := s.registry.modify address ({ · with physAddr := some device }) }

/-- The frames of the area at `address`, in address order. -/
def framesOf (address : VirtAddr) : SharedM (Except AllocError (List PageFrame)) := do
  match (← get).registry.get? address with
  | none => return .error (.notFound address)
  | some area => return .ok (← onMachine (area.handles.toList area.pageCount))

end Shared

end PagedMemory
