import PagedMemory.Allocator.Copy
import PagedMemory.Sync.OnceCell

/-!
# The global allocator

A place for one allocator that is installed once and then serves everyone.

* `Global.install`: the first one to come stays.
* `Global.perform`: a job of the installed allocator, or the news that there is none.
-/

namespace PagedMemory

/-- An allocator together with the machine and the areas it works on. -/
structure Installed where
  allocator : Allocator
  shared : Shared

structure Global where
  cell : OnceCell Installed

namespace Global

def empty : Global := ⟨.new⟩

def isInitialized (g : Global) : Bool := g.cell.isInitialized

/-- An allocator with tables of its own on a machine where there is no other. -/
def prepare (machine : Machine) (window : Window) :
    Except Fault (Except AllocError Installed) :=
  match Allocator.create window machine with
  | .ok (.ok allocator) machine => .ok (.ok ⟨allocator, machine, Registry.empty⟩)
  | .ok (.error e) _ => .ok (.error e)
  | .error f _ => .error f

/-- Installs an allocator. Once one is installed it stays, and others are refused. -/
def install (g : Global) (i : Installed) : Except AllocError Unit × Global :=
  match g.cell.set i with
  | (.ok _, cell) => (.ok (), ⟨cell⟩)
  | (.error _, cell) => (.error .alreadyInitialized, ⟨cell⟩)

/-- The installed allocator. -/
def get (g : Global) : Except AllocError Installed :=
  match g.cell.get with
  | some i => .ok i
  | none => .error .uninitialized

/-- Runs a job of the installed allocator, undisturbed. -/
def perform {α : Type} (job : Allocator → Job α) :
    EStateM Fault Global (Except AllocError α) := fun g =>
  match g.get with
  | .error e => .ok (.error e) g
  | .ok i =>
    match (job i.allocator).run i.shared with
    | .ok a shared => .ok (.ok a) ⟨{ g.cell with value := some { i with shared } }⟩
    | .error f shared => .error f ⟨{ g.cell with value := some { i with shared } }⟩

/-- Removes what the installed allocator's machine has let an observer see, and hands it over. -/
def drain (g : Global) : Array Event × Global :=
  match g.cell.get with
  | none => (#[], g)
  | some i =>
    let machine := { i.shared.machine with trace := #[] }
    (i.shared.machine.trace,
      ⟨{ g.cell with value := some { i with shared := { i.shared with machine } } }⟩)

end Global

end PagedMemory
