import PagedMemory.Sync.Agent

/-!
# Locks for many readers or one writer

The state is one word: bit 0 says that a writer is in, bit 1 that one waits, and the rest counts
the readers. While a writer waits no reader comes in; the writer that comes in clears both.

* `RwLock.Phase`, `RwLock.step`: what one agent does to the word, access by access.
* `RwLock.tryRead`, `RwLock.tryWrite` and the like: the same for an agent that is alone.
* `RwLock.Party`: guards that are held at the same time, and writers that wait.
-/

namespace PagedMemory

structure RwLock (α : Type) where
  word : UInt64
  value : α
  deriving DecidableEq

namespace RwLock

/-- The bit that says that a writer is in. -/
abbrev writerBit : UInt64 := 1

/-- The bit that says that a writer waits. -/
abbrev waitingBit : UInt64 := 2

/-- What one reader adds to the word. -/
abbrev readerUnit : UInt64 := 4

/-- Where an agent is; each phase but the resting ones is named for the access it makes next. A
`patient` agent does not give up. -/
inductive Phase where
  /-- at rest: not concerned with the lock -/
  | outside
  /-- at rest: an attempt came to nothing -/
  | refused
  /-- at rest: a guard for reading is held; it is dropped next -/
  | reading
  /-- at rest: a guard for writing is held; it is dropped next -/
  | writing
  /-- looks whether a reader may come in -/
  | readProbing (patient : Bool)
  /-- tries to count itself in, provided that the word is still the one it saw -/
  | readClaiming (patient : Bool) (seen : UInt64)
  /-- looks whether a writer may come in -/
  | writeProbing (patient : Bool)
  /-- tries to go in, provided that the word is still the one it saw -/
  | writeClaiming (patient : Bool) (seen : UInt64)
  /-- looks whether it is known that a writer waits -/
  | checking
  /-- makes known that a writer waits -/
  | announcing
  deriving DecidableEq

/-- What an agent does when a reader cannot come in. -/
def readAgain (patient : Bool) : Phase := if patient then .readProbing true else .refused

/-- What an agent does when a writer cannot come in. -/
def writeAgain (patient : Bool) : Phase := if patient then .checking else .refused

/-- One access to the word. -/
def step : Phase → UInt64 → Phase × UInt64
  | .outside, w => (.outside, w)
  | .refused, w => (.refused, w)
  | .reading, w => (.outside, w - readerUnit)
  | .writing, w => (.outside, w &&& ~~~writerBit)
  | .readProbing patient, w =>
    (if w &&& (writerBit ||| waitingBit) != 0 then readAgain patient
      else .readClaiming patient w, w)
  | .readClaiming patient seen, w =>
    if w = seen then (.reading, w + readerUnit) else (readAgain patient, w)
  | .writeProbing patient, w =>
    (if w &&& writerBit != 0 || readerUnit ≤ w then writeAgain patient
      else .writeClaiming patient w, w)
  | .writeClaiming patient seen, w =>
    if w = seen then (.writing, writerBit) else (writeAgain patient, w)
  | .checking, w => (if w &&& waitingBit = 0 then .announcing else .writeProbing true, w)
  | .announcing, w => (.writeProbing true, w ||| waitingBit)

/-- Whether an agent has nothing left to do before it uses or leaves the lock. -/
def Phase.atRest : Phase → Bool
  | outside => true
  | refused => true
  | reading => true
  | writing => true
  | _ => false

/-- Lets an agent that is alone go on until it is at rest, or has made known that it waits. -/
def advance (p : Phase) (w : UInt64) : Phase × UInt64 := Agent.settle step Phase.atRest 4 p w

variable {α : Type}

def new (value : α) : RwLock α := ⟨0, value⟩

/-- Lets an agent go on; where it is then. -/
def enter (l : RwLock α) (p : Phase) : Phase × RwLock α :=
  let (p, word) := advance p l.word
  (p, { l with word })

/-- Drops the guard of an agent, if it has one. -/
def leave (l : RwLock α) (p : Phase) : RwLock α := { l with word := (step p l.word).2 }

/-- The number of readers that are in. -/
def readerCount (l : RwLock α) : UInt64 := l.word / readerUnit

/-- Whether it is known that a writer waits. -/
def writerWaiting (l : RwLock α) : Bool := l.word &&& waitingBit != 0

/-- What can be seen of the lock without taking it. -/
def text (l : RwLock α) : String :=
  "RwSpinLock \x7b writer: " ++ toString (l.word &&& writerBit != 0) ++
    ", writer_waiting: " ++ toString l.writerWaiting ++
    ", readers: " ++ toString l.readerCount.toNat ++ ", .. \x7d"

/-- Guards that are held at the same time, and writers that wait. -/
structure Party (α : Type) where
  lock : RwLock α
  /-- the guards in the order in which they were taken; a dropped one is `outside` -/
  guards : Array Phase
  /-- writers that wait, and what they will do to the value -/
  waiting : List (Phase × (α → α))

namespace Party

def new (value : α) : Party α := ⟨.new value, #[], []⟩

/-- An agent comes in, or tries to; the number of its guard and the value. -/
def enter (p : Party α) (start : Phase) : Option (Nat × α) × Party α :=
  let (phase, lock) := p.lock.enter start
  match phase with
  | .reading => (some (p.guards.size, lock.value), { p with lock, guards := p.guards.push phase })
  | .writing => (some (p.guards.size, lock.value), { p with lock, guards := p.guards.push phase })
  | _ => (none, { p with lock })

/-- One attempt to read. -/
def tryRead (p : Party α) : Option (Nat × α) × Party α := p.enter (.readProbing false)

/-- Comes in to read. -/
def read (p : Party α) : Option (Nat × α) × Party α := p.enter (.readProbing true)

/-- One attempt to write. -/
def tryWrite (p : Party α) : Option (Nat × α) × Party α := p.enter (.writeProbing false)

/-- Comes in to write. -/
def write (p : Party α) : Option (Nat × α) × Party α := p.enter (.writeProbing true)

/-- The phase of the agent with guard `k`. -/
def guardPhase (p : Party α) (k : Nat) : Phase := p.guards[k]?.getD .outside

/-- The value as guard `k` shows it. -/
def value? (p : Party α) (k : Nat) : Option α :=
  match p.guardPhase k with
  | .reading => some p.lock.value
  | .writing => some p.lock.value
  | _ => none

/-- Stores a value through guard `k`, if it is one for writing. -/
def store (p : Party α) (k : Nat) (v : α) : Option α × Party α :=
  match p.guardPhase k with
  | .writing => (some v, { p with lock := { p.lock with value := v } })
  | _ => (none, p)

/-- Whether any guard is still held. -/
def anyGuard (p : Party α) : Bool := p.guards.any (· != .outside)

/-- Reads the value without keeping a guard. -/
def peek (p : Party α) : Option α × Party α :=
  match p.lock.enter (.readProbing true) with
  | (.reading, l) => (some l.value, { p with lock := l.leave .reading })
  | (_, l) => (none, { p with lock := l })

/-- Changes the value without keeping a guard; the new value. -/
def update (p : Party α) (f : α → α) : Option α × Party α :=
  match p.lock.enter (.writeProbing true) with
  | (.writing, l) =>
    (some (f l.value), { p with lock := leave { l with value := f l.value } .writing })
  | (_, l) => (none, { p with lock := l })

/-- Another agent comes to change the value, and makes known that it waits. -/
def enqueue (p : Party α) (f : α → α) : Party α :=
  let (phase, lock) := p.lock.enter (.writeProbing true)
  { p with lock, waiting := p.waiting ++ [(phase, f)] }

/-- The writers that wait come in one after the other; the value that the last of them left. -/
def serve (l : RwLock α) : List (Phase × (α → α)) → Option α × RwLock α
  | [] => (none, l)
  | (phase, f) :: rest =>
    match l.enter phase with
    | (.writing, l) =>
      match serve (leave { l with value := f l.value } .writing) rest with
      | (none, after) => (some (f l.value), after)
      | (some v, after) => (some v, after)
    | (_, l) => (none, l)

/-- Drops guard `k`. If it was the last one, those who wait come in; the value they left. -/
def drop (p : Party α) (k : Nat) : Option α × Party α :=
  let q := { p with
    lock := p.lock.leave (p.guardPhase k)
    guards := p.guards.setIfInBounds k .outside }
  if q.anyGuard then (none, q)
  else
    let (v, lock) := serve q.lock q.waiting
    (v, { q with lock, waiting := [] })

/-- Drops all guards and lets in those who wait; the value in the end. -/
def finish (p : Party α) : α :=
  ((List.range p.guards.size).foldl (fun q k => (q.drop k).2) p).lock.value

end Party

end RwLock

end PagedMemory
