import PagedMemory.Allocator.Copy

/-!
# Hosts

A machine with any number of page-table trees and allocators on it. What happens through one of
them may be seen through the others, for the memory is one.
-/

namespace PagedMemory

open Machine

/-- An allocator and the areas it keeps. -/
structure Tenant where
  allocator : Allocator
  registry : Registry

structure Host where
  machine : Machine
  /-- the roots of the trees, in the order in which they were made -/
  trees : Array PageFrame
  /-- the allocators, in the order in which they were made -/
  tenants : Array Tenant

/-- An operation on a host. -/
abbrev HostM := EStateM Fault Host

namespace Host

def create (machine : Machine) : Host := ⟨machine, #[], #[]⟩

/-- Runs an operation on the machine. -/
def onMachine {α : Type} (x : MachineM α) : HostM α := fun ⟨machine, trees, tenants⟩ =>
  match x machine with
  | .ok a machine => .ok a ⟨machine, trees, tenants⟩
  | .error f machine => .error f ⟨machine, trees, tenants⟩

instance : MonadLift MachineM HostM := ⟨onMachine⟩

/-- Adds a tree with a given root. -/
def addTree (root : PageFrame) : HostM Unit :=
  modify fun s => { s with trees := s.trees.push root }

/-- Adds an empty tree; its root. -/
def newTree : HostM (Except MapError PageFrame) := do
  match ← onMachine Tables.newTable with
  | .error e => return .error e
  | .ok root =>
    addTree root
    return .ok root

/-- The root of tree `k`. -/
def tree (k : Nat) : HostM PageFrame := do
  let trees := (← get).trees
  match trees[k]? with
  | some root => return root
  | none => throw (.outOfRange trees.size k)

/-- Adds an allocator without areas. -/
def addAllocator (a : Allocator) : HostM Unit :=
  modify fun s => { s with tenants := s.tenants.push ⟨a, Registry.empty⟩ }

/-- Adds an allocator with tables of its own; their root. -/
def newAllocator (window : Window) : HostM (Except AllocError PageFrame) := do
  match ← onMachine (Allocator.create window) with
  | .error e => return .error e
  | .ok a =>
    addAllocator a
    return .ok a.root

/-- Allocator `k` and its areas. -/
def tenant (k : Nat) : HostM Tenant := do
  let tenants := (← get).tenants
  match tenants[k]? with
  | some t => return t
  | none => throw (.outOfRange tenants.size k)

/-- Runs a job of allocator `k`, undisturbed. -/
def perform {α : Type} (k : Nat) (job : Allocator → Job α) : HostM α := do
  let t ← tenant k
  fun ⟨machine, trees, tenants⟩ =>
    match (job t.allocator).run ⟨machine, t.registry⟩ with
    | .ok a ⟨machine, registry⟩ =>
      .ok a ⟨machine, trees, tenants.setIfInBounds k ⟨t.allocator, registry⟩⟩
    | .error f ⟨machine, registry⟩ =>
      .error f ⟨machine, trees, tenants.setIfInBounds k ⟨t.allocator, registry⟩⟩

end Host

end PagedMemory
