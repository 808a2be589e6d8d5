import Mathlib.Tactic
import PagedMemory.Global

/-!
# Agreement on the value of a cell

Any number of agents around one cell that is written once. They look for the value, offer one, or
ask for it with an initialiser at hand, and their accesses happen in any order.

* `Crowd`, `Move`, `Crowd.next`: the cell, the place of each agent, and one access of one agent.
  `turn` tells the calls of one agent apart, and `writer` remembers the call that took the cell
  from `empty`.
* `Place.Right`: what is known of an agent at each place. `Crowd.Kept.next` is the step lemma, and
  `Crowd.Onward` is what no move undoes.
* `Place.left`: how many accesses an agent has before it. Each access makes it less, but for an agent
  that waits in vain.
* `run_agreed`: along every run one call writes, once, every reference is to what it wrote, and every
  other call that came to write is refused by its next access.
* `Global.visits_agree`: the same for the place of the one allocator, visit by visit.
-/

namespace PagedMemory.OnceCell

variable {ι α : Type}

/-! ## Calls -/

/-- What an agent can come for. -/
inductive Call (α : Type) where
  | get
  | set (v : α)
  /-- the value, or else the one that an initialiser returns -/
  | getOrInit (v : α)
  | isInitialized
  deriving DecidableEq

/-- Where an agent is. -/
inductive Place (α : Type) where
  /-- it has not come yet -/
  | outside
  /-- it is at a call that goes through phases, or has its answer -/
  | within (p : Phase α)
  /-- about to look whether there is a value -/
  | asking
  /-- has looked whether there is a value -/
  | told (ready : Bool)
  deriving DecidableEq

/-- Where a call begins. -/
def Call.start : Call α → Place α
  | get => .within .looking
  | set v => .within (.offering v)
  | getOrInit v => .within (.lookingFirst (some v))
  | isInitialized => .asking

/-- What a call can end with. -/
def Call.Allows : Call α → Answer α → Prop
  | get, a => a = .absent ∨ ∃ v, a = .value v false
  | set v, a => a = .value v true ∨ a = .rejected v
  | getOrInit v, a => a = .value v true ∨ ∃ w, a = .value w false
  | isInitialized, _ => False

/-- The value with which a call comes. -/
def Call.brings : Call α → Option α
  | get => none
  | set v => some v
  | getOrInit v => some v
  | isInitialized => none

namespace Place

/-- One access to the cell. -/
def step (c : OnceCell α) : Place α → Place α × OnceCell α
  | outside => (outside, c)
  | within p => (within (OnceCell.step p c).1, (OnceCell.step p c).2)
  | asking => (told c.isInitialized, c)
  | told ready => (told ready, c)

/-- The agent is at no call. -/
def idle : Place α → Bool
  | outside => true
  | within (.done _) => true
  | within _ => false
  | asking => false
  | told _ => true

/-- The agent is the one to write, or has written and got its answer. -/
def holds : Place α → Bool
  | within (.initializing _) => true
  | within (.writing _) => true
  | within (.publishing _) => true
  | within (.done (.value _ mine)) => mine
  | _ => false

/-- The initialiser of the agent, if it had to run, has run. -/
def writes : Place α → Bool
  | within (.writing _) => true
  | within (.publishing _) => true
  | within (.done (.value _ mine)) => mine
  | _ => false

/-- How many accesses the agent has before it at most, until it has its answer or has to wait. -/
def left : Place α → Nat
  | outside => 0
  | asking => 1
  | told _ => 0
  | within (.done _) => 0
  | within .looking => 1
  | within .waiting => 1
  | within (.publishing _) => 1
  | within (.writing _) => 2
  | within (.offering _) => 3
  | within (.initializing _) => 3
  | within (.claiming _) => 4
  | within (.lookingFirst _) => 5

/-- What is known of an agent that is at a place in a call, around a cell that some call has taken
from `empty` or not. -/
def Right (c : OnceCell α) (call : Option (Call α)) (taken : Prop) : Place α → Prop
  | outside => call = none
  | asking => call = some .isInitialized
  | told ready => (ready = true → ∃ v, c.look = some v) ∧ call = some .isInitialized
  | within .looking => call = some .get
  | within (.offering v) => call = some (.set v)
  | within (.lookingFirst init) => ∃ v, init = some v ∧ call = some (.getOrInit v)
  | within (.claiming init) => ∃ v, init = some v ∧ call = some (.getOrInit v)
  | within .waiting => ∃ v, call = some (.getOrInit v)
  | within (.initializing init) => c = ⟨.writing, none⟩ ∧
      ∃ v, init = some v ∧ call = some (.getOrInit v)
  | within (.writing v) => c = ⟨.writing, none⟩ ∧ call.bind Call.brings = some v
  | within (.publishing v) => c = ⟨.writing, some v⟩ ∧ call.bind Call.brings = some v
  | within (.done .absent) => call = some .get
  | within (.done (.value v false)) => c.look = some v ∧
      (call = some .get ∨ ∃ w, call = some (.getOrInit w))
  | within (.done (.value v true)) => c.look = some v ∧ call.bind Call.brings = some v
  | within (.done (.rejected v)) => taken ∧ call = some (.set v)
  | within (.done .failed) => False

end Place

/-! ## The crowd around a cell -/

/-- A cell, and where each agent is. An agent that goes on while its call waits counts as two. -/
structure Crowd (ι α : Type) where
  cell : OnceCell α
  place : ι → Place α
  /-- the call an agent is at, or was at last -/
  call : ι → Option (Call α)
  /-- how many calls an agent has begun -/
  turn : ι → Nat
  /-- the call that has taken the cell from `empty` -/
  writer : Option (ι × Nat)

/-- What happens at one moment. -/
inductive Move (ι α : Type) where
  /-- an agent that is at no call begins one -/
  | enter (i : ι) (call : Call α)
  /-- an agent makes its next access, writes the value, or runs its initialiser -/
  | access (i : ι)
  deriving DecidableEq

namespace Crowd

/-- Nobody has come to the cell yet. -/
def start : Crowd ι α := ⟨.new, fun _ => .outside, fun _ => none, fun _ => 0, none⟩

/-- The call that took the cell is the only one that can be about to write, and every agent is as
`Place.Right` says. -/
structure Kept (c : Crowd ι α) : Prop where
  unwritten : c.cell.stage = .empty → c.cell.value = none
  shown : c.cell.stage = .ready → ∃ v, c.cell.look = some v
  empty_iff : c.cell.stage = .empty ↔ c.writer = none
  begun : ∀ i t, c.writer = some (i, t) → t ≤ c.turn i
  holds_iff : ∀ i, (c.place i).holds = true ↔ c.writer = some (i, c.turn i)
  right : ∀ i, (c.place i).Right c.cell (c.call i) (c.writer ≠ none)

/-- What an access of agent `i` at a place does. -/
inductive Access (c : Crowd ι α) (i : ι) : Place α → Place α × OnceCell α → Prop
  /-- the agent goes on, and the cell is as it was -/
  | stay {p q : Place α} (holds : q.holds = p.holds)
      (right : q.Right c.cell (c.call i) (c.writer ≠ none)) : Access c i p (q, c.cell)
  /-- the agent takes the cell -/
  | claim {p q : Place α} (cell : c.cell = .new) (holds : q.holds = true)
      (right : ∀ taken, q.Right ⟨.writing, none⟩ (c.call i) taken) : Access c i p (q, ⟨.writing, none⟩)
  | write {v : α} (cell : c.cell = ⟨.writing, none⟩) (brings : (c.call i).bind Call.brings = some v) :
      Access c i (.within (.writing v)) (.within (.publishing v), ⟨.writing, some v⟩)
  | publish {v : α} (cell : c.cell = ⟨.writing, some v⟩)
      (brings : (c.call i).bind Call.brings = some v) :
      Access c i (.within (.publishing v)) (.within (.done (.value v true)), ⟨.ready, some v⟩)

/-- What no move undoes. -/
structure Onward (c d : Crowd ι α) : Prop where
  value : ∀ v, c.cell.value = some v → d.cell.value = some v
  look : ∀ v, c.cell.look = some v → d.cell.look = some v
  writer : ∀ w, c.writer = some w → d.writer = some w
  turn : ∀ i, c.turn i ≤ d.turn i

end Crowd

/-! ## What one access finds -/

section Accesses

variable {c d : OnceCell α} {v : α}

theorem stage_of_look (h : c.look = some v) : c.stage = .ready := by
  rw [look] at h
  split at h
  next hstage => exact hstage
  · cases h
  · cases h

theorem value_of_look (h : c.look = some v) : c.value = some v := by
  rwa [look, stage_of_look h] at h

theorem eq_new (hstage : c.stage = .empty) (hvalue : c.value = none) : c = .new := by
  cases c
  cases hstage
  cases hvalue
  rfl

theorem claim_of_empty (h : c.stage = .empty) : c.claim = (true, { c with stage := .writing }) := by
  rw [claim, h]

theorem claim_of_taken (h : c.stage ≠ .empty) : c.claim = (false, c) := by
  rw [claim]
  split
  next hstage => exact absurd hstage h
  · rfl
  · rfl

/-- Who tries to take the cell gets it while it is empty, and leaves it alone otherwise. -/
theorem claim_cases (hvalue : c.stage = .empty → c.value = none) :
    (c = .new ∧ c.claim = (true, ⟨.writing, none⟩)) ∨ c.stage ≠ .empty ∧ c.claim = (false, c) := by
  by_cases hstage : c.stage = .empty
  · have hnew := eq_new hstage (hvalue hstage)
    exact .inl ⟨hnew, by rw [hnew]; rfl⟩
  · exact .inr ⟨hstage, claim_of_taken hstage⟩

/-- An agent that is alone always gets to know whether its value was taken. -/
theorem finish_offering (c : OnceCell α) (v : α) :
    c.stage = .empty ∧ finish (.offering v) c = (.done (.value v true), ⟨.ready, some v⟩) ∨
      c.stage ≠ .empty ∧ finish (.offering v) c = (.done (.rejected v), c) := by
  by_cases h : c.stage = .empty
  · refine .inl ⟨h, ?_⟩
    simp only [finish, Agent.settle, step, claim_of_empty h]
    rfl
  · refine .inr ⟨h, ?_⟩
    simp only [finish, Agent.settle, step, claim_of_taken h]
    rfl

/-- Each access brings an agent nearer to its answer, unless it waits for a value in vain. -/
theorem Place.left_step {p : Place α} (h : p.idle = false) :
    (p.step c).1.left < p.left ∨ p = .within .waiting ∧ c.look = none := by
  cases p with
  | outside => cases h
  | told ready => cases h
  | asking => exact .inl (Nat.lt_succ_self 0)
  | within phase =>
    rw [Place.step]
    cases phase with
    | done answer => cases h
    | looking =>
      rw [OnceCell.step]
      cases c.look with
      | none => exact .inl (Nat.lt_succ_self 0)
      | some v => exact .inl (Nat.lt_succ_self 0)
    | offering v =>
      rw [OnceCell.step]
      by_cases hstage : c.stage = .empty
      · rw [claim_of_empty hstage]
        exact .inl (Nat.lt_succ_self 2)
      · rw [claim_of_taken hstage]
        exact .inl (Nat.succ_pos 2)
    | lookingFirst init =>
      rw [OnceCell.step]
      cases c.look with
      | none => exact .inl (Nat.lt_succ_self 4)
      | some v => exact .inl (Nat.succ_pos 4)
    | claiming init =>
      rw [OnceCell.step]
      by_cases hstage : c.stage = .empty
      · rw [claim_of_empty hstage]
        exact .inl (Nat.lt_succ_self 3)
      · rw [claim_of_taken hstage]
        exact .inl (by decide : 1 < 4)
    | initializing init =>
      cases init with
      | none => exact .inl (Nat.succ_pos 2)
      | some v => exact .inl (Nat.lt_succ_self 2)
    | writing v => exact .inl (Nat.lt_succ_self 1)
    | publishing v => exact .inl (Nat.lt_succ_self 0)
    | waiting =>
      rw [OnceCell.step]
      cases hlook : c.look with
      | none => exact .inr ⟨rfl, rfl⟩
      | some v => exact .inl (Nat.lt_succ_self 0)

/-- What is known of an agent that is not the one to write stays so while others act on the cell. -/
theorem Place.Right.of_not_holds {call : Option (Call α)} {p p' : Prop} {q : Place α}
    (h : q.Right c call p) (hq : q.holds = false) (hlook : ∀ v, c.look = some v → d.look = some v)
    (hp : p → p') : q.Right d call p' := by
  cases q with
  | outside => exact h
  | asking => exact h
  | told ready =>
    refine ⟨fun hready => ?_, h.2⟩
    obtain ⟨v, hv⟩ := h.1 hready
    exact ⟨v, hlook v hv⟩
  | within phase =>
    cases phase with
    | initializing init => cases hq
    | writing v => cases hq
    | publishing v => cases hq
    | done answer =>
      cases answer with
      | absent => exact h
      | rejected v => exact ⟨hp h.1, h.2⟩
      | failed => exact h
      | value v mine =>
        cases mine with
        | false => exact ⟨hlook v h.1, h.2⟩
        | true => cases hq
    | looking => exact h
    | offering v => exact h
    | lookingFirst init => exact h
    | claiming init => exact h
    | waiting => exact h

end Accesses

namespace Crowd

section Kept

variable {c : Crowd ι α}

/-- Nobody is about to write to a cell that no call has taken. -/
theorem Kept.of_new (hc : c.Kept) (hcell : c.cell = .new) :
    c.writer = none ∧ ∀ j, (c.place j).holds = false := by
  have hnone : c.writer = none := hc.empty_iff.1 (by rw [hcell]; rfl)
  refine ⟨hnone, fun j => ?_⟩
  rw [Bool.eq_false_iff, Ne, hc.holds_iff, hnone]
  nofun

/-- While one agent holds the cell, nobody else is about to write. -/
theorem Kept.alone (hc : c.Kept) {i j : ι} (hi : (c.place i).holds = true) (hji : j ≠ i) :
    (c.place j).holds = false := by
  rw [Bool.eq_false_iff, Ne, hc.holds_iff, (hc.holds_iff i).1 hi, Option.some.injEq, Prod.mk.injEq]
  exact fun h => hji h.1.symm

/-- One case for each place: only the one to write acts on the cell, once it has taken it. -/
theorem Kept.access (hc : c.Kept) (i : ι) : c.Access i (c.place i) ((c.place i).step c.cell) := by
  have hright := hc.right i
  cases hplace : c.place i with
  | outside =>
    rw [hplace] at hright
    exact .stay rfl hright
  | told ready =>
    rw [hplace] at hright
    exact .stay rfl hright
  | asking =>
    rw [hplace] at hright
    exact .stay rfl ⟨fun hready => hc.shown (beq_iff_eq.1 hready), hright⟩
  | within phase =>
    rw [hplace] at hright
    rw [Place.step]
    cases phase with
    | done answer => exact .stay rfl hright
    | looking =>
      rw [OnceCell.step]
      cases hlook : c.cell.look with
      | none => exact .stay rfl hright
      | some v => exact .stay rfl ⟨hlook, .inl hright⟩
    | offering v =>
      rw [OnceCell.step]
      rcases claim_cases hc.unwritten with ⟨hnew, hclaim⟩ | ⟨hstage, hclaim⟩ <;> rw [hclaim]
      · exact .claim hnew rfl fun _ => ⟨rfl, by rw [show c.call i = _ from hright]; rfl⟩
      · exact .stay rfl ⟨fun hn => hstage (hc.empty_iff.2 hn), hright⟩
    | lookingFirst init =>
      rw [OnceCell.step]
      obtain ⟨w, hinit, hcall⟩ := hright
      cases hlook : c.cell.look with
      | none => exact .stay rfl ⟨w, hinit, hcall⟩
      | some v => exact .stay rfl ⟨hlook, .inr ⟨w, hcall⟩⟩
    | claiming init =>
      rw [OnceCell.step]
      obtain ⟨w, hinit, hcall⟩ := hright
      rcases claim_cases hc.unwritten with ⟨hnew, hclaim⟩ | ⟨hstage, hclaim⟩ <;> rw [hclaim]
      · exact .claim hnew rfl fun _ => ⟨rfl, w, hinit, hcall⟩
      · exact .stay rfl ⟨w, hcall⟩
    | initializing init =>
      obtain ⟨hcell, w, rfl, hcall⟩ := hright
      exact .stay rfl ⟨hcell, by rw [hcall]; rfl⟩
    | writing v =>
      obtain ⟨hcell, hbrings⟩ := hright
      rw [OnceCell.step, hcell]
      exact .write hcell hbrings
    | publishing v =>
      obtain ⟨hcell, hbrings⟩ := hright
      rw [OnceCell.step, hcell]
      exact .publish hcell hbrings
    | waiting =>
      rw [OnceCell.step]
      obtain ⟨w, hcall⟩ := hright
      cases hlook : c.cell.look with
      | none => exact .stay rfl ⟨w, hcall⟩
      | some v => exact .stay rfl ⟨hlook, .inr ⟨w, hcall⟩⟩

end Kept

variable [DecidableEq ι]

/-- Agent `i` begins a call. -/
def enter (c : Crowd ι α) (i : ι) (call : Call α) : Crowd ι α :=
  { c with
    place := Function.update c.place i call.start
    call := Function.update c.call i (some call)
    turn := Function.update c.turn i (c.turn i + 1) }

/-- Agent `i` goes on, and leaves the cell as given. -/
def put (c : Crowd ι α) (i : ι) (q : Place α × OnceCell α) : Crowd ι α :=
  { c with
    cell := q.2
    place := Function.update c.place i q.1
    writer := if c.cell.stage = .empty ∧ q.2.stage ≠ .empty then some (i, c.turn i) else c.writer }

def next (c : Crowd ι α) : Move ι α → Crowd ι α
  | .enter i call => if (c.place i).idle then c.enter i call else c
  | .access i => c.put i ((c.place i).step c.cell)

/-- The state after some moves. -/
def run (moves : List (Move ι α)) : Crowd ι α := moves.foldl next start

variable {c : Crowd ι α} {i : ι} {q : Place α} {cell : OnceCell α}

theorem put_place_self : (c.put i (q, cell)).place i = q := Function.update_self ..

theorem put_place_of_ne {j : ι} (h : j ≠ i) : (c.put i (q, cell)).place j = c.place j :=
  Function.update_of_ne h ..

/-- The agent goes on without taking the cell. -/
theorem Kept.put (hc : c.Kept) (hholds : q.holds = (c.place i).holds)
    (hstage : cell.stage = .empty ↔ c.cell.stage = .empty)
    (hvalue : cell.stage = .empty → cell.value = none)
    (hshown : cell.stage = .ready → ∃ v, cell.look = some v)
    (hright : q.Right cell (c.call i) (c.writer ≠ none))
    (hothers : ∀ j, j ≠ i → (c.place j).Right cell (c.call j) (c.writer ≠ none)) :
    (c.put i (q, cell)).Kept := by
  have hwriter : (c.put i (q, cell)).writer = c.writer := if_neg fun h => h.2 (hstage.2 h.1)
  refine ⟨hvalue, hshown, ?_, ?_, ?_, ?_⟩
  · rw [hwriter, ← hc.empty_iff]
    exact hstage
  · rw [hwriter]
    exact hc.begun
  · intro j
    rw [hwriter]
    by_cases hji : j = i
    · subst hji
      rw [put_place_self, hholds]
      exact hc.holds_iff j
    · rw [put_place_of_ne hji]
      exact hc.holds_iff j
  · intro j
    rw [hwriter]
    by_cases hji : j = i
    · subst hji
      rw [put_place_self]
      exact hright
    · rw [put_place_of_ne hji]
      exact hothers j hji

/-- The agent takes the cell: nobody has got a reference, and nobody else is about to write. -/
theorem Kept.claim (hc : c.Kept) (hcell : c.cell = .new) (hholds : q.holds = true)
    (hright : ∀ taken, q.Right ⟨.writing, none⟩ (c.call i) taken) :
    (c.put i (q, ⟨.writing, none⟩)).Kept := by
  obtain ⟨hnone, hnobody⟩ := hc.of_new hcell
  have hwriter : (c.put i (q, ⟨.writing, none⟩)).writer = some (i, c.turn i) :=
    if_pos ⟨by rw [hcell]; rfl, nofun⟩
  refine ⟨nofun, nofun, ?_, ?_, ?_, ?_⟩
  · rw [hwriter]
    exact ⟨nofun, nofun⟩
  · rw [hwriter]
    rintro j t ⟨⟩
    exact le_refl _
  · intro j
    rw [hwriter]
    by_cases hji : j = i
    · subst hji
      rw [put_place_self]
      exact ⟨fun _ => rfl, fun _ => hholds⟩
    · rw [put_place_of_ne hji, hnobody j, Option.some.injEq, Prod.mk.injEq]
      exact ⟨nofun, fun h => absurd h.1.symm hji⟩
  · intro j
    rw [hwriter]
    by_cases hji : j = i
    · subst hji
      rw [put_place_self]
      exact hright _
    · rw [put_place_of_ne hji]
      exact (hc.right j).of_not_holds (hnobody j) (by rw [hcell]; nofun) (fun h => absurd hnone h)

/-- The agent that has taken the cell acts on it: what others know of the cell stays so. -/
theorem Kept.put_holder (hc : c.Kept) (hi : (c.place i).holds = true) (hholds : q.holds = true)
    (hbefore : c.cell.stage = .writing) (hstage : cell.stage ≠ .empty)
    (hshown : cell.stage = .ready → ∃ v, cell.look = some v)
    (hright : q.Right cell (c.call i) (c.writer ≠ none)) :
    (c.put i (q, cell)).Kept ∧ (c.put i (q, cell)).writer = c.writer ∧
      ∀ v, c.cell.look = some v → cell.look = some v := by
  have hnot : ¬ c.cell.stage = .empty := by rw [hbefore]; nofun
  have hlook : ∀ v, c.cell.look = some v → cell.look = some v := by
    intro v hv
    have hready := stage_of_look hv
    rw [hbefore] at hready
    cases hready
  have hothers : ∀ j, j ≠ i → (c.place j).Right cell (c.call j) (c.writer ≠ none) := fun j hji =>
    (hc.right j).of_not_holds (hc.alone hi hji) hlook id
  exact ⟨hc.put (hholds.trans hi.symm) (iff_of_false hstage hnot) (fun h => absurd h hstage) hshown
    hright hothers, if_neg fun h => hnot h.1, hlook⟩

/-- One case for each thing that an access can do. -/
theorem Kept.put_access (hc : c.Kept) (h : c.Access i (c.place i) (q, cell)) :
    (c.put i (q, cell)).Kept ∧ Onward c (c.put i (q, cell)) := by
  generalize hplace : c.place i = p at h
  cases h with
  | stay hholds hright =>
    rw [← hplace] at hholds
    have hwriter : (c.put i (q, c.cell)).writer = c.writer := if_neg fun h => h.2 h.1
    exact ⟨hc.put hholds Iff.rfl hc.unwritten hc.shown hright fun j _ => hc.right j,
      fun _ h => h, fun _ h => h, fun w h => hwriter.trans h, fun _ => le_refl _⟩
  | claim hcell hholds hright =>
    refine ⟨hc.claim hcell hholds hright, by rw [hcell]; nofun, by rw [hcell]; nofun, ?_,
      fun _ => le_refl _⟩
    rw [(hc.of_new hcell).1]
    nofun
  | @write v hcell hbrings =>
    have hright : (Place.within (.publishing v)).Right ⟨.writing, some v⟩ (c.call i)
        (c.writer ≠ none) := ⟨rfl, hbrings⟩
    obtain ⟨hkept, hwriter, hlook⟩ := hc.put_holder (by rw [hplace]; rfl) rfl (by rw [hcell])
      (by nofun) (by nofun) hright
    exact ⟨hkept, by rw [hcell]; nofun, hlook, fun w h => hwriter.trans h, fun _ => le_refl _⟩
  | @publish v hcell hbrings =>
    have hright : (Place.within (.done (.value v true))).Right ⟨.ready, some v⟩ (c.call i)
        (c.writer ≠ none) := ⟨rfl, hbrings⟩
    obtain ⟨hkept, hwriter, hlook⟩ := hc.put_holder (by rw [hplace]; rfl) rfl (by rw [hcell])
      (by nofun) (fun _ => ⟨v, rfl⟩) hright
    exact ⟨hkept, by rw [hcell]; exact fun _ h => h, hlook, fun w h => hwriter.trans h,
      fun _ => le_refl _⟩

/-- Who begins a call has not taken the cell in it. -/
theorem Kept.enter (hc : c.Kept) {call : Call α} : (c.enter i call).Kept where
  unwritten := hc.unwritten
  shown := hc.shown
  empty_iff := hc.empty_iff
  begun := by
    intro j t hw
    by_cases hji : j = i
    · subst hji
      exact (hc.begun j t hw).trans (by simp [Crowd.enter])
    · exact (hc.begun j t hw).trans (by simp [Crowd.enter, hji])
  holds_iff := by
    intro j
    by_cases hji : j = i
    · subst hji
      have hstart : call.start.holds = false := by cases call <;> rfl
      have hnot : c.writer ≠ some (j, c.turn j + 1) := fun h =>
        absurd (hc.begun j _ h) (Nat.not_succ_le_self _)
      simp only [Crowd.enter, Function.update_self, hstart, hnot]
      exact iff_of_false nofun id
    · simp only [Crowd.enter, Function.update_of_ne hji]
      exact hc.holds_iff j
  right := by
    intro j
    by_cases hji : j = i
    · subst hji
      simp only [Crowd.enter, Function.update_self]
      cases call with
      | get => rfl
      | set v => rfl
      | getOrInit v => exact ⟨v, rfl, rfl⟩
      | isInitialized => rfl
    · simp only [Crowd.enter, Function.update_of_ne hji]
      exact hc.right j

theorem onward_enter {call : Call α} : Onward c (c.enter i call) := by
  refine ⟨fun _ h => h, fun _ h => h, fun _ h => h, fun j => ?_⟩
  by_cases hji : j = i
  · subst hji
    simp [enter]
  · simp [enter, hji]

/-- **One move** keeps what is known and undoes nothing. -/
theorem Kept.next (hc : c.Kept) (m : Move ι α) : (c.next m).Kept ∧ Onward c (c.next m) := by
  cases m with
  | enter i call =>
    rw [Crowd.next]
    split
    · exact ⟨hc.enter, onward_enter⟩
    · exact ⟨hc, fun _ h => h, fun _ h => h, fun _ h => h, fun _ => le_refl _⟩
  | access i => exact hc.put_access (hc.access i)

/-- The value changes only when the one that took the cell writes. -/
theorem Kept.value_next (hc : c.Kept) (m : Move ι α) : (c.next m).cell.value = c.cell.value ∨
    ∃ i v, m = .access i ∧ c.place i = .within (.writing v) ∧ (c.next m).cell.value = some v := by
  cases m with
  | enter i call =>
    rw [Crowd.next]
    split
    all_goals exact .inl rfl
  | access i =>
    have h := hc.access i
    rw [Crowd.next]
    generalize hplace : c.place i = p at h
    generalize p.step c.cell = q at h
    cases h with
    | stay hholds hright => exact .inl rfl
    | claim hcell hholds hright =>
      rw [hcell]
      exact .inl rfl
    | @write v hcell hbrings => exact .inr ⟨i, v, rfl, hplace, rfl⟩
    | publish hcell hbrings =>
      rw [hcell]
      exact .inl rfl

/-- Whoever takes the cell does it in the call it is at. -/
theorem writer_next (m : Move ι α) : (c.next m).writer = c.writer ∨
    ∃ i, (c.next m).writer = some (i, (c.next m).turn i) := by
  cases m with
  | enter i call =>
    rw [Crowd.next]
    split
    all_goals exact .inl rfl
  | access i =>
    rw [Crowd.next, put]
    split
    · exact .inr ⟨i, rfl⟩
    · exact .inl rfl

/-- An agent that has come to write does not come back to its initialiser in the same call. -/
theorem writes_next {m : Move ι α} (hi : (c.place i).writes = true)
    (hturn : (c.next m).turn i = c.turn i) : ((c.next m).place i).writes = true := by
  cases m with
  | enter j call =>
    rw [Crowd.next] at hturn ⊢
    split at hturn
    next hidle =>
      rw [if_pos hidle]
      by_cases hij : i = j
      · subst hij
        simp [enter] at hturn
      · simpa [enter, hij] using hi
    next hbusy => rwa [if_neg hbusy]
  | access j =>
    rw [Crowd.next]
    by_cases hij : i = j
    · subst hij
      rw [← Prod.eta ((c.place i).step c.cell), put_place_self]
      cases hplace : c.place i with
      | within phase =>
        rw [hplace] at hi
        cases phase with
        | writing v => rfl
        | publishing v => rfl
        | done answer => exact hi
        | _ => cases hi
      | _ =>
        rw [hplace] at hi
        cases hi
    · rw [← Prod.eta ((c.place j).step c.cell), put_place_of_ne hij]
      exact hi

end Crowd

/-! ## Runs -/

open Crowd

variable [DecidableEq ι] {moves : List (Move ι α)}

theorem run_take_succ {k : Nat} {m : Move ι α} (h : moves[k]? = some m) :
    run (moves.take (k + 1)) = (run (moves.take k)).next m := by
  rw [List.take_add_one, h, Option.toList_some, run, List.foldl_append]
  rfl

theorem run_take_of_none {k : Nat} (h : moves[k]? = none) :
    run (moves.take (k + 1)) = run (moves.take k) := by
  rw [List.take_add_one, h, Option.toList_none, List.append_nil]

/-- Move `k` writes `v`. -/
def Writes (moves : List (Move ι α)) (k : Nat) (v : α) : Prop :=
  ∃ i, moves[k]? = some (.access i) ∧ (run (moves.take k)).place i = .within (.writing v)

/-- Move `k` runs the initialiser of an agent. -/
def Initializes (moves : List (Move ι α)) (k : Nat) : Prop :=
  ∃ i init, moves[k]? = some (.access i) ∧
    (run (moves.take k)).place i = .within (.initializing init)

omit [DecidableEq ι] in
theorem kept_start : (start : Crowd ι α).Kept :=
  ⟨fun _ => rfl, nofun, iff_of_true rfl rfl, nofun, fun _ => iff_of_false nofun nofun, fun _ => rfl⟩

omit [DecidableEq ι] in
theorem Crowd.Onward.refl (c : Crowd ι α) : Onward c c :=
  ⟨fun _ h => h, fun _ h => h, fun _ h => h, fun _ => le_refl _⟩

omit [DecidableEq ι] in
theorem Crowd.Onward.trans {c d e : Crowd ι α} (h : Onward c d) (h' : Onward d e) : Onward c e :=
  ⟨fun v hv => h'.value v (h.value v hv), fun v hv => h'.look v (h.look v hv),
    fun w hw => h'.writer w (h.writer w hw), fun i => (h.turn i).trans (h'.turn i)⟩

/-- What each move keeps is kept by a run of them. -/
theorem kept_take (moves : List (Move ι α)) (k : Nat) : (run (moves.take k)).Kept := by
  induction k with
  | zero => exact kept_start
  | succ k ih =>
    rcases hm : moves[k]? with _ | m
    · rw [run_take_of_none hm]
      exact ih
    · rw [run_take_succ hm]
      exact (ih.next m).1

/-- What no move undoes no run undoes. -/
theorem onward_take {j k : Nat} (hjk : j ≤ k) :
    Onward (run (moves.take j)) (run (moves.take k)) := by
  induction k, hjk using Nat.le_induction with
  | base => exact .refl _
  | succ k hjk ih =>
    rcases hm : moves[k]? with _ | m
    · rw [run_take_of_none hm]
      exact ih
    · rw [run_take_succ hm]
      exact ih.trans ((kept_take moves k).next m).2

theorem Writes.value_eq {k : Nat} {v : α} (h : Writes moves k v) :
    (run (moves.take k)).cell.value = none ∧ (run (moves.take (k + 1))).cell.value = some v := by
  obtain ⟨i, hm, hplace⟩ := h
  have hright := (kept_take moves k).right i
  rw [hplace] at hright
  refine ⟨by rw [hright.1], ?_⟩
  rw [run_take_succ hm, Crowd.next, hplace]
  rfl

/-- Nothing but a write changes the value. -/
theorem value_take_succ (k : Nat) (h : ∀ v, ¬ Writes moves k v) :
    (run (moves.take (k + 1))).cell.value = (run (moves.take k)).cell.value := by
  rcases hm : moves[k]? with _ | m
  · rw [run_take_of_none hm]
  · rcases (kept_take moves k).value_next m with heq | ⟨i, v, rfl, hplace, -⟩
    · rw [run_take_succ hm, heq]
    · exact absurd ⟨i, hm, hplace⟩ (h v)

/-- The value there is has been written. -/
theorem exists_writes {k : Nat} {v : α} (h : (run (moves.take k)).cell.value = some v) :
    ∃ j < k, Writes moves j v := by
  induction k with
  | zero => cases h
  | succ k ih =>
    by_cases hw : ∃ w, Writes moves k w
    · obtain ⟨w, hw⟩ := hw
      obtain rfl : w = v := Option.some.inj (hw.value_eq.2.symm.trans h)
      exact ⟨k, Nat.lt_succ_self k, hw⟩
    · rw [value_take_succ k (not_exists.1 hw)] at h
      obtain ⟨j, hjk, hj⟩ := ih h
      exact ⟨j, Nat.lt_succ_of_lt hjk, hj⟩

/-- The call that took the cell was about to write at some moment. -/
theorem exists_holds {k : Nat} {i : ι} {t : Nat}
    (h : (run (moves.take k)).writer = some (i, t)) :
    ∃ j ≤ k, ((run (moves.take j)).place i).holds = true ∧ (run (moves.take j)).turn i = t := by
  induction k with
  | zero => cases h
  | succ k ih =>
    have hstill : (run (moves.take k)).writer = some (i, t) → ∃ j ≤ k + 1,
        ((run (moves.take j)).place i).holds = true ∧ (run (moves.take j)).turn i = t := by
      intro hw
      obtain ⟨j, hjk, hj⟩ := ih hw
      exact ⟨j, Nat.le_succ_of_le hjk, hj⟩
    rcases hm : moves[k]? with _ | m
    · rw [run_take_of_none hm] at h
      exact hstill h
    · rcases writer_next (c := run (moves.take k)) m with heq | ⟨a, ha⟩
      · rw [run_take_succ hm, heq] at h
        exact hstill h
      · rw [← run_take_succ hm] at ha
        obtain ⟨rfl, rfl⟩ := Prod.mk.inj (Option.some.inj (ha.symm.trans h))
        exact ⟨k + 1, le_refl _, ((kept_take moves (k + 1)).holds_iff a).2 h, rfl⟩

/-- At any two moments it is one and the same call that is about to write, or has written. -/
theorem turn_eq_of_holds {j k : Nat} {a b : ι}
    (ha : ((run (moves.take j)).place a).holds = true)
    (hb : ((run (moves.take k)).place b).holds = true) :
    a = b ∧ (run (moves.take j)).turn a = (run (moves.take k)).turn b := by
  have hwa := ((kept_take moves j).holds_iff a).1 ha
  have hwb := ((kept_take moves k).holds_iff b).1 hb
  rcases le_total j k with hjk | hkj
  · exact Prod.mk.inj (Option.some.inj (((onward_take hjk).writer _ hwa).symm.trans hwb))
  · exact Prod.mk.inj (Option.some.inj (hwa.symm.trans ((onward_take hkj).writer _ hwb)))

/-- Once a call has come to write, the cell is empty no more. -/
theorem taken_of_holds {j k : Nat} {a : ι} (hjk : j ≤ k)
    (ha : ((run (moves.take j)).place a).holds = true) :
    (run (moves.take k)).cell.stage ≠ .empty := by
  have hwriter := (onward_take hjk).writer _ (((kept_take moves j).holds_iff a).1 ha)
  rw [Ne, (kept_take moves k).empty_iff, hwriter]
  nofun

/-- The cell is empty as long as no call has come to write. -/
theorem empty_of_nobody {k : Nat}
    (h : ∀ j ≤ k, ∀ a, ((run (moves.take j)).place a).holds = false) :
    (run (moves.take k)).cell.stage = .empty := by
  refine (kept_take moves k).empty_iff.2 (Option.eq_none_iff_forall_ne_some.2 fun w hw => ?_)
  obtain ⟨j, hjk, hholds, -⟩ := exists_holds hw
  rw [h j hjk] at hholds
  cases hholds

/-- What the next access of an agent makes of its place. -/
theorem place_take_succ {k : Nat} {i : ι} (hm : moves[k]? = some (.access i)) :
    (run (moves.take (k + 1))).place i =
      (((run (moves.take k)).place i).step (run (moves.take k)).cell).1 := by
  rw [run_take_succ hm, Crowd.next]
  exact put_place_self

/-- In the same call an agent that has come to write goes on to write. -/
theorem writes_take {j k : Nat} {i : ι} (hjk : j ≤ k)
    (hi : ((run (moves.take j)).place i).writes = true)
    (hturn : (run (moves.take k)).turn i = (run (moves.take j)).turn i) :
    ((run (moves.take k)).place i).writes = true := by
  induction k, hjk using Nat.le_induction with
  | base => exact hi
  | succ k hjk ih =>
    have hnext : Onward (run (moves.take k)) (run (moves.take (k + 1))) :=
      onward_take (Nat.le_add_right k 1)
    have hbefore : Onward (run (moves.take j)) (run (moves.take k)) := onward_take hjk
    have hup := hnext.turn i
    have hdown := hbefore.turn i
    have hk : (run (moves.take k)).turn i = (run (moves.take j)).turn i := by omega
    have hwrites := ih hk
    rcases hm : moves[k]? with _ | m
    · rw [run_take_of_none hm]
      exact hwrites
    · rw [run_take_succ hm] at hturn ⊢
      exact writes_next hwrites (hturn.trans hk.symm)

theorem not_writes_twice {j k : Nat} {v w : α} (hj : Writes moves j v) (hk : Writes moves k w) :
    ¬ j < k := by
  intro hjk
  have hvalue := (onward_take (Nat.succ_le_of_lt hjk)).value v hj.value_eq.2
  rw [hk.value_eq.1] at hvalue
  cases hvalue

theorem not_initializes_twice {j k : Nat} (hj : Initializes moves j) (hk : Initializes moves k) :
    ¬ j < k := by
  intro hjk
  obtain ⟨a, init, hm, ha⟩ := hj
  obtain ⟨b, init', -, hb⟩ := hk
  obtain ⟨rfl, hturn⟩ := turn_eq_of_holds (j := j) (k := k) (by rw [ha]; rfl) (by rw [hb]; rfl)
  have hright := (kept_take moves j).right a
  rw [ha] at hright
  obtain ⟨-, v, rfl, -⟩ := hright
  have hnext : run (moves.take (j + 1)) =
      (run (moves.take j)).put a (.within (.writing v), (run (moves.take j)).cell) := by
    rw [run_take_succ hm, Crowd.next, ha]
    rfl
  have hwrites := writes_take (i := a) (Nat.succ_le_of_lt hjk)
    (by rw [hnext, put_place_self]; rfl) (by rw [hnext]; exact hturn.symm)
  rw [hb] at hwrites
  cases hwrites

/-- The cell does what it is for along a run. -/
structure Agreed (moves : List (Move ι α)) : Prop where
  /-- the value is written at most once, and changes at no other moment -/
  once : ∀ j k v w, Writes moves j v → Writes moves k w → j = k
  unchanged : ∀ k, (∀ v, ¬ Writes moves k v) →
    (run (moves.take (k + 1))).cell.value = (run (moves.take k)).cell.value
  /-- it is one call that writes, or whose initialiser runs -/
  one_call : ∀ j k a b, ((run (moves.take j)).place a).holds = true →
    ((run (moves.take k)).place b).holds = true →
    a = b ∧ (run (moves.take j)).turn a = (run (moves.take k)).turn b
  one_init : ∀ j k, Initializes moves j → Initializes moves k → j = k
  /-- an initialiser runs in the call that came with it -/
  init_own : ∀ k i init, (run (moves.take k)).place i = .within (.initializing init) →
    ∃ v, init = some v ∧ (run (moves.take k)).call i = some (.getOrInit v)
  /-- what is written is what the call came with -/
  value_own : ∀ k i v, (run (moves.take k)).place i = .within (.writing v) →
    (run (moves.take k)).call i = some (.set v) ∨ (run (moves.take k)).call i = some (.getOrInit v)
  /-- every reference is to a value that was written before and is there from then on -/
  reference : ∀ k i v mine, (run (moves.take k)).place i = .within (.done (.value v mine)) →
    (∃ j < k, Writes moves j v) ∧ ∀ l, k ≤ l → (run (moves.take l)).cell.look = some v
  /-- once there has been a reference, everyone that looks gets it, whatever it comes for -/
  again : ∀ j k a b v mine, j ≤ k →
    (run (moves.take j)).place a = .within (.done (.value v mine)) → moves[k]? = some (.access b) →
    (run (moves.take k)).place b = .within .looking ∨
      (run (moves.take k)).place b = .within .waiting ∨
      (∃ init, (run (moves.take k)).place b = .within (.lookingFirst init)) →
    (run (moves.take (k + 1))).place b = .within (.done (.value v false))
  /-- and everyone that asks whether there is a value is told so -/
  asked : ∀ j k a b v mine, j ≤ k →
    (run (moves.take j)).place a = .within (.done (.value v mine)) →
    moves[k]? = some (.access b) → (run (moves.take k)).place b = .asking →
    (run (moves.take (k + 1))).place b = .told true
  /-- who is told that there is a value finds one from then on -/
  told : ∀ k i, (run (moves.take k)).place i = .told true →
    ∃ v, ∀ l, k ≤ l → (run (moves.take l)).cell.look = some v
  /-- a call that ends does so with an answer of its kind -/
  ends : ∀ k i a, (run (moves.take k)).place i = .within (.done a) →
    ∃ call, (run (moves.take k)).call i = some call ∧ call.Allows a
  /-- each access brings an agent nearer to its answer, unless it waits for a value in vain -/
  nearer : ∀ k i, moves[k]? = some (.access i) → ((run (moves.take k)).place i).idle = false →
    ((run (moves.take (k + 1))).place i).left < ((run (moves.take k)).place i).left ∨
      (run (moves.take k)).place i = .within .waiting ∧ (run (moves.take k)).cell.look = none
  /-- while no call has come to write, the first that tries does, with its value or its initialiser -/
  wins : ∀ k i, (∀ j ≤ k, ∀ a, ((run (moves.take j)).place a).holds = false) →
    moves[k]? = some (.access i) →
    (∀ v, (run (moves.take k)).place i = .within (.offering v) →
      (run (moves.take (k + 1))).place i = .within (.writing v)) ∧
    ∀ init, (run (moves.take k)).place i = .within (.claiming init) →
      (run (moves.take (k + 1))).place i = .within (.initializing init)
  /-- after that, who tries has its value back at once, or waits for that of the other call -/
  loses : ∀ j k a i, j ≤ k → ((run (moves.take j)).place a).holds = true →
    moves[k]? = some (.access i) →
    (∀ v, (run (moves.take k)).place i = .within (.offering v) →
      (run (moves.take (k + 1))).place i = .within (.done (.rejected v))) ∧
    ∀ init, (run (moves.take k)).place i = .within (.claiming init) →
      (run (moves.take (k + 1))).place i = .within .waiting
  /-- a value is handed back only when another call has taken the cell -/
  rejected : ∀ k i v, (run (moves.take k)).place i = .within (.done (.rejected v)) →
    ∃ j ≤ k, ∃ b, ((run (moves.take j)).place b).holds = true ∧
      ¬ (b = i ∧ (run (moves.take j)).turn b = (run (moves.take k)).turn i)

omit [DecidableEq ι] in
theorem Call.eq_of_brings {call : Option (Call α)} {v : α} (h : call.bind Call.brings = some v) :
    call = some (.set v) ∨ call = some (.getOrInit v) := by
  cases call with
  | none => cases h
  | some call =>
    cases call with
    | get => cases h
    | isInitialized => cases h
    | set w =>
      cases h
      exact .inl rfl
    | getOrInit w =>
      cases h
      exact .inr rfl

/-- A reference is to the value there is. -/
theorem look_of_reference {k : Nat} {i : ι} {v : α} {mine : Bool}
    (h : (run (moves.take k)).place i = .within (.done (.value v mine))) :
    (run (moves.take k)).cell.look = some v := by
  have hright := (kept_take moves k).right i
  rw [h] at hright
  cases mine
  all_goals exact hright.1

theorem look_take {j k : Nat} {i : ι} {v : α} {mine : Bool} (hjk : j ≤ k)
    (h : (run (moves.take j)).place i = .within (.done (.value v mine))) :
    (run (moves.take k)).cell.look = some v :=
  (onward_take hjk).look v (look_of_reference h)

theorem allows_of_done {k : Nat} {i : ι} {a : Answer α}
    (h : (run (moves.take k)).place i = .within (.done a)) :
    ∃ call, (run (moves.take k)).call i = some call ∧ call.Allows a := by
  have hright := (kept_take moves k).right i
  rw [h] at hright
  cases a with
  | absent => exact ⟨.get, hright, .inl rfl⟩
  | rejected v => exact ⟨.set v, hright.2, .inr rfl⟩
  | failed => exact hright.elim
  | value v mine =>
    cases mine with
    | false =>
      rcases hright.2 with hcall | ⟨w, hcall⟩
      · exact ⟨.get, hcall, .inr ⟨v, rfl⟩⟩
      · exact ⟨.getOrInit w, hcall, .inr ⟨v, rfl⟩⟩
    | true =>
      rcases Call.eq_of_brings hright.2 with hcall | hcall
      · exact ⟨.set v, hcall, .inl rfl⟩
      · exact ⟨.getOrInit v, hcall, .inl rfl⟩

/-- A set that has its value back is not the call that took the cell. -/
theorem exists_holds_of_rejected {k : Nat} {i : ι} {v : α}
    (h : (run (moves.take k)).place i = .within (.done (.rejected v))) :
    ∃ j ≤ k, ∃ b, ((run (moves.take j)).place b).holds = true ∧
      ¬ (b = i ∧ (run (moves.take j)).turn b = (run (moves.take k)).turn i) := by
  have hright := (kept_take moves k).right i
  have hnot := (kept_take moves k).holds_iff i
  rw [h] at hright hnot
  obtain ⟨⟨b, t⟩, hw⟩ := Option.ne_none_iff_exists'.1 hright.1
  obtain ⟨j, hjk, hholds, hturn⟩ := exists_holds hw
  refine ⟨j, hjk, b, hholds, fun hsame => ?_⟩
  rw [← hsame.2, hturn, ← hsame.1, hw] at hnot
  cases hnot.2 rfl

/-- Agents agree on the value of a cell, along every run. -/
theorem run_agreed (moves : List (Move ι α)) : Agreed moves where
  once := by
    intro j k v w hj hk
    have hjk := not_writes_twice hj hk
    have hkj := not_writes_twice hk hj
    omega
  unchanged := value_take_succ
  one_call := fun _ _ _ _ => turn_eq_of_holds
  one_init := by
    intro j k hj hk
    have hjk := not_initializes_twice hj hk
    have hkj := not_initializes_twice hk hj
    omega
  init_own := by
    intro k i init h
    have hright := (kept_take moves k).right i
    rw [h] at hright
    exact hright.2
  value_own := by
    intro k i v h
    have hright := (kept_take moves k).right i
    rw [h] at hright
    exact Call.eq_of_brings hright.2
  reference := fun k i v mine h =>
    ⟨exists_writes (value_of_look (look_of_reference h)), fun l hkl => look_take hkl h⟩
  again := by
    intro j k a b v mine hjk ha hm hb
    rw [place_take_succ hm]
    rcases hb with hb | hb | ⟨init, hb⟩
    all_goals rw [hb, Place.step, OnceCell.step, look_take hjk ha]
  asked := by
    intro j k a b v mine hjk ha hm hb
    have hready : (run (moves.take k)).cell.isInitialized = true :=
      beq_iff_eq.2 (stage_of_look (look_take hjk ha))
    rw [place_take_succ hm, hb, Place.step, hready]
  told := by
    intro k i h
    have hright := (kept_take moves k).right i
    rw [h] at hright
    obtain ⟨v, hv⟩ := hright.1 rfl
    exact ⟨v, fun l hkl => (onward_take hkl).look v hv⟩
  ends := fun _ _ _ => allows_of_done
  nearer := by
    intro k i hm hbusy
    rw [place_take_succ hm]
    exact Place.left_step hbusy
  wins := by
    intro k i hnobody hm
    have hempty := empty_of_nobody hnobody
    rw [place_take_succ hm]
    refine ⟨fun v hi => ?_, fun init hi => ?_⟩
    all_goals rw [hi, Place.step, OnceCell.step, claim_of_empty hempty]
  loses := by
    intro j k a i hjk ha hm
    have htaken := taken_of_holds hjk ha
    rw [place_take_succ hm]
    refine ⟨fun v hi => ?_, fun init hi => ?_⟩
    all_goals rw [hi, Place.step, OnceCell.step, claim_of_taken htaken]
  rejected := fun _ _ _ => exists_holds_of_rejected

/-- Agent 1 looks in vain, agent 0 takes the cell to set 3, and agent 1 has to wait for it. -/
example : (run [.enter 0 (.set 3), .enter 1 (.getOrInit 5), .access 1, .access 0, .access 1, .access 1,
    .access 0, .access 0, .access 1] : Crowd (Fin 2) Nat).place 1 = .within (.done (.value 3 false)) := by
  decide

end PagedMemory.OnceCell

/-! ## The one allocator -/

namespace PagedMemory.Global

/-- What somebody can come for to the place of the one allocator. -/
inductive Visit where
  | install (i : Installed)
  | get

/-- The allocator that somebody brings along. -/
def Visit.brings : Visit → Option Installed
  | install i => some i
  | get => none

def receive (g : Global) : Visit → Global
  | .install i => (g.install i).2
  | .get => g

/-- The place after some visits. -/
def after (visits : List Visit) : Global := visits.foldl receive empty

/-- The first allocator that somebody came with. -/
def first (visits : List Visit) : Option Installed := visits.findSome? Visit.brings

/-- The place once allocator `i` has been installed, or still empty. -/
def holding : Option Installed → Global
  | some i => ⟨⟨.ready, some i⟩⟩
  | none => empty

theorem install_holding_none (i : Installed) : (holding none).install i = (.ok (), holding (some i)) :=
  rfl

theorem install_holding_some (i j : Installed) :
    (holding (some i)).install j = (.error .alreadyInitialized, holding (some i)) :=
  rfl

/-- The place holds the first allocator that somebody came with, if anybody did. -/
theorem after_eq (visits : List Visit) : after visits = holding (first visits) := by
  induction visits using List.reverseRecOn with
  | nil => rfl
  | append_singleton visits visit ih =>
    have hfirst : first (visits ++ [visit]) = (first visits).or visit.brings := by
      rw [first, List.findSome?_append, List.findSome?_cons, List.findSome?_nil]
      cases visit
      all_goals rfl
    have hafter : after (visits ++ [visit]) = (after visits).receive visit := by
      rw [after, List.foldl_append]
      rfl
    rw [hafter, hfirst, ih]
    cases visit with
    | get => rw [receive, Visit.brings, Option.or_none]
    | install i =>
      rw [receive]
      cases first visits with
      | none => rw [install_holding_none, Option.none_or, Visit.brings]
      | some j => rw [install_holding_some, Option.some_or]

/-- What visitors learn after some visits: the allocator that was installed first is the one that
everyone gets, and nobody else can install one. -/
structure Agrees (visits : List Visit) : Prop where
  get : (after visits).get =
    match first visits with | some i => .ok i | none => .error .uninitialized
  isInitialized : (after visits).isInitialized = (first visits).isSome
  installs : first visits = none → ∀ i, ((after visits).install i).1 = .ok ()
  refuses : first visits ≠ none → ∀ i,
    (after visits).install i = (.error .alreadyInitialized, after visits)

theorem visits_agree (visits : List Visit) : Agrees visits := by
  rcases hfirst : first visits with _ | i
  · have hafter : after visits = holding none := by rw [after_eq, hfirst]
    refine ⟨?_, ?_, fun _ i => ?_, fun h => absurd hfirst h⟩
    · rw [hafter, hfirst]
      rfl
    · rw [hafter, hfirst]
      rfl
    · rw [hafter, install_holding_none]
  · have hafter : after visits = holding (some i) := by rw [after_eq, hfirst]
    refine ⟨?_, ?_, fun h => ?_, fun _ j => ?_⟩
    · rw [hafter, hfirst]
      rfl
    · rw [hafter, hfirst]
      rfl
    · rw [hfirst] at h
      cases h
    · rw [hafter, install_holding_some]

end PagedMemory.Global

namespace PagedMemory

/-- **Agreement**: whatever the order of their accesses, agents around a cell agree on one value,
which one call writes once; and so the place of the one allocator keeps the first that is
installed. -/
theorem cells_and_global_agree {ι α : Type} [DecidableEq ι] :
    (∀ moves : List (OnceCell.Move ι α), OnceCell.Agreed moves) ∧
      ∀ visits : List Global.Visit, Global.Agrees visits :=
  ⟨OnceCell.run_agreed, Global.visits_agree⟩

end PagedMemory
