import PagedMemory.Sync.Agent

/-!
# Spin locks

A flag that is set while someone holds the lock.

* `SpinLock.Phase`, `SpinLock.step`: what one agent does to the flag, access by access.
* `SpinLock.tryLock`, `SpinLock.lock`, `SpinLock.unlock`: the same for an agent that is alone.
* `SpinLock.Party`: one agent that takes and drops the lock, and others that wait for it.

An attempt is made in three accesses. It looks at the flag, and gives up if it is set. It tries to
set it. Then the guard for the attempt is made, and if the flag was not set by this attempt, the
guard is dropped at once, which clears the flag like any other drop of a guard.
-/

namespace PagedMemory

structure SpinLock (α : Type) where
  locked : Bool
  value : α
  deriving DecidableEq

namespace SpinLock

/-- Where an agent is; each phase but the resting ones is named for the access it makes next. -/
inductive Phase where
  /-- at rest: not concerned with the lock -/
  | outside
  /-- at rest: an attempt came to nothing -/
  | refused
  /-- at rest: a guard is held; it is dropped next -/
  | holding
  /-- an attempt looks at the flag -/
  | probing
  /-- an attempt tries to set the flag -/
  | claiming
  /-- an attempt that could not set the flag drops the guard that was made for it -/
  | discarding
  /-- an agent that will not give up tries to set the flag -/
  | acquiring
  /-- an agent that will not give up waits to see the flag clear -/
  | spinning
  deriving DecidableEq

/-- One access to the flag. An exchange may fail without cause, which `weak` says. -/
def step (weak : Bool) : Phase → Bool → Phase × Bool
  | .outside, locked => (.outside, locked)
  | .refused, locked => (.refused, locked)
  | .holding, _ => (.outside, false)
  | .probing, locked => (if locked then .refused else .claiming, locked)
  | .claiming, locked => if locked || weak then (.discarding, locked) else (.holding, true)
  | .discarding, _ => (.refused, false)
  | .acquiring, locked => if locked || weak then (.spinning, locked) else (.holding, true)
  | .spinning, locked => (if locked then .spinning else .acquiring, locked)

/-- Whether an agent has nothing left to do before it uses or leaves the lock. -/
def Phase.atRest : Phase → Bool
  | outside => true
  | refused => true
  | holding => true
  | _ => false

/-- Lets an agent that is alone go on until it is at rest or has to wait. -/
def advance (p : Phase) (locked : Bool) : Phase × Bool :=
  Agent.settle (step false) Phase.atRest 3 p locked

variable {α : Type}

def new (value : α) : SpinLock α := ⟨false, value⟩

/-- Makes one attempt; whether it got the lock. -/
def tryLock (l : SpinLock α) : Bool × SpinLock α :=
  let (p, locked) := advance .probing l.locked
  (p == .holding, { l with locked })

/-- Takes the lock; whether that was possible without waiting. -/
def lock (l : SpinLock α) : Bool × SpinLock α :=
  let (p, locked) := advance .acquiring l.locked
  (p == .holding, { l with locked })

/-- Drops the guard. -/
def unlock (l : SpinLock α) : SpinLock α := { l with locked := (step false .holding l.locked).2 }

/-- Takes the lock, changes the value and drops the guard; the new value. -/
def update (l : SpinLock α) (change : α → α) : Option (α × SpinLock α) :=
  match l.lock with
  | (true, l) => some (change l.value, unlock { l with value := change l.value })
  | (false, _) => none

/-- What can be seen of the lock without taking it. -/
def text (l : SpinLock α) : String :=
  "SpinLock \x7b locked: " ++ toString l.locked ++ ", .. \x7d"

/-- One agent that takes and drops the lock, and others that wait to change the value. -/
structure Party (α : Type) where
  lock : SpinLock α
  /-- whether the first agent holds the lock -/
  holds : Bool
  /-- what the others will do, in the order in which they came -/
  waiting : List (α → α)

namespace Party

def new (value : α) : Party α := ⟨.new value, false, []⟩

/-- The first agent makes an attempt; the value if it got the lock. -/
def tryLock (p : Party α) : Option α × Party α :=
  match p.lock.tryLock with
  | (true, l) => (some l.value, { p with lock := l, holds := true })
  | (false, l) => (none, { p with lock := l })

/-- The first agent takes the lock; the value. -/
def acquire (p : Party α) : Option α × Party α :=
  match p.lock.lock with
  | (true, l) => (some l.value, { p with lock := l, holds := true })
  | (false, l) => (none, { p with lock := l })

/-- The first agent changes the value it holds; the new value. -/
def change (p : Party α) (f : α → α) : Option α × Party α :=
  if p.holds then
    (some (f p.lock.value), { p with lock := { p.lock with value := f p.lock.value } })
  else (none, p)

/-- The first agent takes the lock for one change; the new value. -/
def update (p : Party α) (f : α → α) : Option α × Party α :=
  match p.lock.update f with
  | some (v, l) => (some v, { p with lock := l })
  | none => (none, p)

/-- Another agent comes to change the value, and waits if the lock is held. -/
def enqueue (p : Party α) (f : α → α) : Party α :=
  if p.holds then { p with waiting := p.waiting ++ [f] } else (p.update f).2

/-- Those who wait get the lock one after the other. -/
def serve (l : SpinLock α) : List (α → α) → Option α × SpinLock α
  | [] => (none, l)
  | f :: rest =>
    match l.update f with
    | none => (none, l)
    | some (v, l) =>
      match serve l rest with
      | (none, l) => (some v, l)
      | (some w, l) => (some w, l)

/-- The first agent drops the lock if it holds it, and waits for the others; the value they
left. -/
def release (p : Party α) : Option α × Party α :=
  let l := if p.holds then p.lock.unlock else p.lock
  let (v, l) := serve l p.waiting
  (v, ⟨l, false, []⟩)

end Party

end SpinLock

end PagedMemory
