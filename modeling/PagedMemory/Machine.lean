import PagedMemory.Pool
import PagedMemory.Report

/-!
# Machines

A machine is a pool of frames together with everything that an observer has seen happen to it.
All page tables and all allocators of a machine share it.

* `Front`: what stands between the pool and those who ask for frames.
* `Machine`: the pool, the front and the events so far.
* `Machine.takeFrame`, `Machine.returnFrame`: frames change hands, and the events say so.
-/

namespace PagedMemory

/-- What stands between the pool and those who ask for frames. It may state another number of
frames than the pool has, and it may forget that a frame was to be all zero. -/
structure Front where
  /-- less than `2 ^ 52`, so that the bytes of all frames together can be counted by a word -/
  statedTotal : Option (Fin 0x10000000000000)
  keepsZeroWish : Bool

/-- A front that changes nothing. -/
def Front.plain : Front := ⟨none, true⟩

structure Machine where
  pool : Pool
  front : Front
  /-- the events so far, the oldest first -/
  trace : Array Event

/-- An operation on a machine. -/
abbrev MachineM := EStateM Fault Machine

namespace Machine

def create (pool : Pool) (front : Front) : Machine := ⟨pool, front, #[]⟩

/-- A machine without memory. -/
def bare : Machine := create (Pool.create default 0) Front.plain

/-- Runs an operation on the pool. -/
def onPool {α : Type} (x : PoolM α) : MachineM α := fun ⟨pool, front, trace⟩ =>
  match x pool with
  | .ok a pool => .ok a ⟨pool, front, trace⟩
  | .error f pool => .error f ⟨pool, front, trace⟩

instance : MonadLift PoolM MachineM := ⟨onPool⟩

def emit (e : Event) : MachineM Unit :=
  modify fun m => { m with trace := m.trace.push e }

def report (r : Report) : MachineM Unit := emit (.reported r)

/-- Removes the events so far and hands them to the observer. -/
def drain : MachineM (Array Event) :=
  modifyGet fun m => (m.trace, { m with trace := #[] })

/-- How many frames there are, as far as clients are told. -/
def frameTotal : MachineM UInt64 := do
  let m ← get
  return .ofNat ((m.front.statedTotal.map Fin.val).getD m.pool.slots.size)

/-- Asks for a frame. -/
def takeFrame (policy : FramePolicy) : MachineM (Option PageFrame) := do
  emit (.requested policy)
  let keepsZeroWish := (← get).front.keepsZeroWish
  match ← Pool.take (if keepsZeroWish then policy else policy.set .zero false) with
  | none => return none
  | some f =>
    emit (.taken f)
    return some f

/-- Gives a frame back. -/
def returnFrame (f : PageFrame) : MachineM Unit := do
  Pool.giveBack f
  emit (.returned f)

end Machine

end PagedMemory
