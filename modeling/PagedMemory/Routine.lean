/-!
# Routines

A routine is a program of one client among many, written as a tree of atomic sections: between
two sections other clients may run theirs. What a section needs of the registry's lock is part of
it, so that one text serves both a client that is alone and many that take turns.

* `Access`: how a section stands to the lock.
* `Routine`: the tree.
* `Routine.run`: the routine of a client that is alone. By `run_bind` and `run_atomically` it is
  the plain sequence of the sections.
-/

namespace PagedMemory

/-- How a section stands to the lock of the registry. -/
inductive Access where
  /-- it does not touch the registry -/
  | free
  /-- it reads the registry -/
  | shared
  /-- it changes the registry -/
  | exclusive
  /-- it begins to hold the registry for reading -/
  | enter
  /-- it ceases to hold the registry for reading -/
  | leave
  deriving DecidableEq

/-- A tree of atomic sections over a state `σ`, each with the faults `ε`. -/
inductive Routine (ε σ : Type) (α : Type) : Type 1 where
  | done (a : α)
  | step {β : Type} (access : Access) (act : EStateM ε σ β) (next : β → Routine ε σ α)

namespace Routine

variable {ε σ α β : Type}

/-- Goes on with `f` where `x` is done. -/
def bind (x : Routine ε σ α) (f : α → Routine ε σ β) : Routine ε σ β :=
  match x with
  | done a => f a
  | step access act next => step access act fun b => (next b).bind f

instance : Monad (Routine ε σ) where
  pure := done
  bind := bind

/-- The routine of one section. -/
def atomically (access : Access) (act : EStateM ε σ α) : Routine ε σ α := step access act done

theorem bind_assoc {γ : Type} (x : Routine ε σ α) (f : α → Routine ε σ β)
    (g : β → Routine ε σ γ) : (x.bind f).bind g = x.bind fun a => (f a).bind g := by
  induction x with
  | done a => rfl
  | step access act next ih =>
    simp only [bind]
    congr 1
    funext b
    exact ih b

theorem bind_done (x : Routine ε σ α) : x.bind done = x := by
  induction x with
  | done a => rfl
  | step access act next ih =>
    simp only [bind]
    congr 1
    funext b
    exact ih b

instance : LawfulMonad (Routine ε σ) :=
  LawfulMonad.mk' (Routine ε σ) bind_done (fun _ _ => rfl) bind_assoc

/-- Runs all sections one after the other. A fault ends the routine. -/
def run (x : Routine ε σ α) (s : σ) : EStateM.Result ε σ α :=
  match x with
  | done a => .ok a s
  | step _ act next =>
    match act s with
    | .ok b s => (next b).run s
    | .error e s => .error e s

/-- A client that is alone does not notice where its routine was put together. -/
theorem run_bind (x : Routine ε σ α) (f : α → Routine ε σ β) (s : σ) :
    (x >>= f).run s = EStateM.bind x.run (fun a => (f a).run) s := by
  induction x generalizing s with
  | done a => rfl
  | step access act next ih =>
    change (step access act fun b => next b >>= f).run s = _
    simp only [run, EStateM.bind]
    cases act s with
    | ok b s => exact ih b s
    | error e s => rfl

theorem run_step (access : Access) (act : EStateM ε σ β) (next : β → Routine ε σ α) :
    (step access act next).run = EStateM.bind act fun b => (next b).run := by
  funext s
  simp only [run, EStateM.bind]
  cases act s <;> rfl

theorem run_atomically (access : Access) (act : EStateM ε σ α) (s : σ) :
    (atomically access act).run s = act s := by
  simp only [atomically, run]
  cases act s <;> rfl

end Routine

end PagedMemory
