import PagedMemory.Sync.Agent

/-!
# Cells that are written once

* `OnceCell.Phase`, `OnceCell.step`: what one agent does to the cell, access by access.
* `OnceCell.get`, `OnceCell.set`, `OnceCell.getOrInit`: the same for an agent that is alone.

Whoever takes the cell from `empty` to `writing` is the one that writes the value and then makes
it known. An initialiser runs in between; if it fails, the cell stays in that stage for good.
-/

namespace PagedMemory

/-- How far the writing of a cell has come. -/
inductive CellStage where
  | empty
  | writing
  | ready
  deriving DecidableEq

structure OnceCell (α : Type) where
  stage : CellStage
  /-- the place for the value, which nobody looks at before the cell is ready -/
  value : Option α
  deriving DecidableEq

namespace OnceCell

/-- What an agent gets in the end. -/
inductive Answer (α : Type) where
  /-- there is no value yet -/
  | absent
  /-- the value of the cell; `mine` says that this agent wrote it -/
  | value (v : α) (mine : Bool)
  /-- the value came too late and is handed back -/
  | rejected (v : α)
  /-- the initialiser failed -/
  | failed
  deriving DecidableEq

/-- Where an agent is; each phase is named for the access it makes next. -/
inductive Phase (α : Type) where
  | done (answer : Answer α)
  /-- looks for the value and goes away -/
  | looking
  /-- tries to become the writer of `v` -/
  | offering (v : α)
  /-- looks for the value; if there is none, an initialiser may have to run, which returns
  `init` or fails -/
  | lookingFirst (init : Option α)
  /-- tries to become the one whose initialiser runs -/
  | claiming (init : Option α)
  /-- the initialiser runs -/
  | initializing (init : Option α)
  /-- writes the value -/
  | writing (v : α)
  /-- makes the value known -/
  | publishing (v : α)
  /-- looks for the value until another agent has written it -/
  | waiting
  deriving DecidableEq

variable {α : Type}

/-- What an agent sees that looks for the value. -/
def look (c : OnceCell α) : Option α :=
  match c.stage with
  | .ready => c.value
  | .writing => none
  | .empty => none

/-- Tries to take the cell from `empty` to `writing`. -/
def claim (c : OnceCell α) : Bool × OnceCell α :=
  match c.stage with
  | .empty => (true, { c with stage := .writing })
  | .writing => (false, c)
  | .ready => (false, c)

/-- One access to the cell. -/
def step (p : Phase α) (c : OnceCell α) : Phase α × OnceCell α :=
  match p with
  | .done a => (.done a, c)
  | .looking =>
    match c.look with
    | some v => (.done (.value v false), c)
    | none => (.done .absent, c)
  | .offering v =>
    match c.claim with
    | (true, c) => (.writing v, c)
    | (false, c) => (.done (.rejected v), c)
  | .lookingFirst init =>
    match c.look with
    | some v => (.done (.value v false), c)
    | none => (.claiming init, c)
  | .claiming init =>
    match c.claim with
    | (true, c) => (.initializing init, c)
    | (false, c) => (.waiting, c)
  | .initializing none => (.done .failed, c)
  | .initializing (some v) => (.writing v, c)
  | .writing v => (.publishing v, { c with value := some v })
  | .publishing v => (.done (.value v true), { c with stage := .ready })
  | .waiting =>
    match c.look with
    | some v => (.done (.value v false), c)
    | none => (.waiting, c)

/-- Whether an agent has its answer. -/
def Phase.atRest : Phase α → Bool
  | done _ => true
  | _ => false

/-- Whether an agent has its answer, or its initialiser is about to run. -/
def Phase.atInit : Phase α → Bool
  | done _ => true
  | initializing _ => true
  | _ => false

/-- Lets an agent that is alone go on until it has its answer or has to wait. -/
def finish (p : Phase α) (c : OnceCell α) : Phase α × OnceCell α :=
  Agent.settle step Phase.atRest 5 p c

/-- Lets an agent that is alone go on until its initialiser is about to run, if it comes to
that. -/
def begin (p : Phase α) (c : OnceCell α) : Phase α × OnceCell α :=
  Agent.settle step Phase.atInit 5 p c

/-- The answer of an agent, if it has one. -/
def Phase.answer? : Phase α → Option (Answer α)
  | done a => some a
  | _ => none

def new : OnceCell α := ⟨.empty, none⟩

/-- The value, if it has been made known. -/
def get (c : OnceCell α) : Option α := c.look

def isInitialized (c : OnceCell α) : Bool := c.stage == .ready

/-- Writes the value, if nobody else has begun to; otherwise hands it back. -/
def set (c : OnceCell α) (v : α) : Except α α × OnceCell α :=
  match finish (.offering v) c with
  | (.done (.value v _), c) => (.ok v, c)
  | (_, c) => (.error v, c)

/-- The value; if there is none, the one that `init` returns, unless it fails. -/
def getOrInit (c : OnceCell α) (init : Option α) : Option (Answer α) × OnceCell α :=
  let (p, c) := finish (.lookingFirst init) c
  (p.answer?, c)

end OnceCell

end PagedMemory
