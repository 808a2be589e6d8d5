import Mathlib.Tactic
import PagedMemory.Sync.SpinLock

/-!
# Exclusion by spin locks

Any number of agents around one spin lock, whose accesses to the flag happen in any order.

* `Crowd`, `Move`, `Crowd.next`: the flag, the phases of the agents, and one access of one agent.
* `Crowd.Exclusive`: no two agents hold the lock, and the flag is set while one does.
* `Crowd.Disturbs`: a refused attempt drops its guard at a moment when the flag is set.
* `orderly_iff_undisturbed`: the lock excludes, and refusals change nothing, along exactly those
  runs in which no refused attempt disturbs. `not_orderly_overtaken` is a run in which one does:
  an agent that took the lock between the two accesses of another one's attempt loses it.
-/

namespace PagedMemory.SpinLock

variable {ι : Type} [DecidableEq ι]

/-- The flag of a lock, and where each agent is. An agent that holds a guard and goes on to make
attempts counts as two. -/
structure Crowd (ι : Type) where
  locked : Bool
  phase : ι → Phase

/-- What happens at one moment. -/
inductive Move (ι : Type) where
  /-- an agent begins an attempt -/
  | attempt (i : ι)
  /-- an agent begins to wait for the lock -/
  | await (i : ι)
  /-- an agent makes its next access; an agent that holds the lock drops its guard -/
  | access (i : ι) (weak : Bool)
  deriving DecidableEq

namespace Crowd

/-- Nobody is concerned with the lock yet. -/
def start : Crowd ι := ⟨false, fun _ => .outside⟩

/-- Whether an agent is free to begin something new. -/
def idle (c : Crowd ι) (i : ι) : Bool := c.phase i == .outside || c.phase i == .refused

def enter (c : Crowd ι) (i : ι) (p : Phase) : Crowd ι := { c with phase := Function.update c.phase i p }

def next (c : Crowd ι) : Move ι → Crowd ι
  | .attempt i => if c.idle i then c.enter i .probing else c
  | .await i => if c.idle i then c.enter i .acquiring else c
  | .access i weak =>
    { locked := (step weak (c.phase i) c.locked).2
      phase := Function.update c.phase i (step weak (c.phase i) c.locked).1 }

/-- The state after some moves. -/
def run (moves : List (Move ι)) : Crowd ι := moves.foldl next start

/-- At most one agent holds the lock, and the flag says so. -/
structure Exclusive (c : Crowd ι) : Prop where
  unique : ∀ i j, c.phase i = .holding → c.phase j = .holding → i = j
  locked : ∀ i, c.phase i = .holding → c.locked = true

/-- The next access drops the guard of a refused attempt, while the flag is set. -/
def Disturbs (c : Crowd ι) : Move ι → Prop
  | .access i _ => c.phase i = .discarding ∧ c.locked = true
  | .attempt _ => False
  | .await _ => False

/-- The move is part of an attempt that comes to nothing. -/
def Refuses (c : Crowd ι) : Move ι → Prop
  | .access i weak => (c.phase i = .probing ∨ c.phase i = .claiming ∨ c.phase i = .discarding) ∧
      (c.next (.access i weak)).phase i ≠ .holding
  | .attempt _ => False
  | .await _ => False

/-! ## One move -/

variable {c : Crowd ι}

theorem enter_phase_self (i : ι) (p : Phase) : (c.enter i p).phase i = p := Function.update_self ..

theorem enter_phase_of_ne {i j : ι} (p : Phase) (h : j ≠ i) : (c.enter i p).phase j = c.phase j :=
  Function.update_of_ne h ..

theorem access_phase_of_ne {i j : ι} (weak : Bool) (h : j ≠ i) :
    (c.next (.access i weak)).phase j = c.phase j :=
  Function.update_of_ne h ..

theorem access_phase_self (i : ι) (weak : Bool) :
    (c.next (.access i weak)).phase i = (step weak (c.phase i) c.locked).1 :=
  Function.update_self ..

theorem access_locked (i : ι) (weak : Bool) :
    (c.next (.access i weak)).locked = (step weak (c.phase i) c.locked).2 := rfl

/-- To begin something takes no lock and leaves the flag alone. -/
theorem Exclusive.enter (hc : c.Exclusive) {i : ι} {p : Phase} (hp : p ≠ .holding) :
    (c.enter i p).Exclusive := by
  have hold : ∀ j, (c.enter i p).phase j = .holding → c.phase j = .holding := by
    intro j hj
    by_cases hji : j = i
    · subst hji
      rw [enter_phase_self] at hj
      exact absurd hj hp
    · rwa [enter_phase_of_ne p hji] at hj
  exact ⟨fun a b ha hb => hc.unique a b (hold a ha) (hold b hb), fun a ha => hc.locked a (hold a ha)⟩

/-- An access that ends in no guard of its own leaves the guards of others; it must not clear the
flag under them. -/
theorem Exclusive.access_of_not_holding (hc : c.Exclusive) {i : ι} {weak : Bool}
    (hown : (c.next (.access i weak)).phase i ≠ .holding)
    (hflag : ∀ j, j ≠ i → c.phase j = .holding → (c.next (.access i weak)).locked = true) :
    (c.next (.access i weak)).Exclusive := by
  have hold : ∀ j, (c.next (.access i weak)).phase j = .holding → j ≠ i ∧ c.phase j = .holding := by
    intro j hj
    have hji : j ≠ i := by
      rintro rfl
      exact hown hj
    rw [access_phase_of_ne weak hji] at hj
    exact ⟨hji, hj⟩
  exact ⟨fun a b ha hb => hc.unique a b (hold a ha).2 (hold b hb).2,
    fun a ha => hflag a (hold a ha).1 (hold a ha).2⟩

/-- An exchange that finds the flag clear finds nobody holding the lock. -/
theorem Exclusive.access_of_holding (hc : c.Exclusive) {i : ι} {weak : Bool}
    (hclear : c.locked = false) (hset : (c.next (.access i weak)).locked = true) :
    (c.next (.access i weak)).Exclusive := by
  have hold : ∀ j, (c.next (.access i weak)).phase j = .holding → j = i := by
    intro j hj
    by_contra hji
    rw [access_phase_of_ne weak hji] at hj
    have hlocked := hc.locked j hj
    rw [hclear] at hlocked
    cases hlocked
  exact ⟨fun a b ha hb => (hold a ha).trans (hold b hb).symm, fun _ _ => hset⟩

/-- An exchange either gets the lock or leaves the flag as it was. -/
theorem Exclusive.exchange (hc : c.Exclusive) {i : ι} {weak : Bool} {p : Phase} (hp : p ≠ .holding)
    (hstep : step weak (c.phase i) c.locked =
      if c.locked || weak then (p, c.locked) else (.holding, true)) :
    (c.next (.access i weak)).Exclusive := by
  have hself := access_phase_self (c := c) i weak
  have hlocked := access_locked (c := c) i weak
  rw [hstep] at hself hlocked
  rcases hfail : c.locked || weak with _ | _
  · rw [hfail, if_neg (by decide)] at hlocked
    exact hc.access_of_holding (Bool.or_eq_false_iff.1 hfail).1 hlocked
  · rw [hfail, if_pos rfl] at hself hlocked
    refine hc.access_of_not_holding (by rw [hself]; exact hp) fun j _ hj => ?_
    rw [hlocked]
    exact hc.locked j hj

/-- One case for each phase: only the drop of a guard clears the flag, and only an exchange that
finds it clear sets it. -/
theorem Exclusive.next (hc : c.Exclusive) {m : Move ι} (hm : ¬ c.Disturbs m) :
    (c.next m).Exclusive := by
  cases m with
  | attempt i =>
    rw [Crowd.next]
    split
    · exact hc.enter (by decide)
    · exact hc
  | await i =>
    rw [Crowd.next]
    split
    · exact hc.enter (by decide)
    · exact hc
  | access i weak =>
    have hself := access_phase_self (c := c) i weak
    have hlocked := access_locked (c := c) i weak
    have hkept : ∀ j, j ≠ i → c.phase j = .holding → c.locked = true := fun j _ hj => hc.locked j hj
    -- the phase of the agent says which access it is that the agent makes
    rcases hphase : c.phase i with _ | _ | _ | _ | _ | _ | _ | _ <;>
      rw [hphase] at hself hlocked <;> simp only [step] at hself hlocked
    case outside =>
      exact hc.access_of_not_holding (by rw [hself]; simp) (by rw [hlocked]; exact hkept)
    case refused =>
      exact hc.access_of_not_holding (by rw [hself]; simp) (by rw [hlocked]; exact hkept)
    case holding =>
      refine hc.access_of_not_holding (by rw [hself]; simp) fun j hji hj => ?_
      exact absurd (hc.unique j i hj hphase) hji
    case probing =>
      refine hc.access_of_not_holding ?_ (by rw [hlocked]; exact hkept)
      rw [hself]
      split <;> decide
    case claiming =>
      have hp : Phase.discarding ≠ .holding := by decide
      exact hc.exchange hp (by rw [hphase]; rfl)
    case discarding =>
      -- the drop of a guard that never was: it does no harm only while nobody holds the lock
      refine hc.access_of_not_holding (by rw [hself]; simp) fun j _ hj => ?_
      exact absurd ⟨hphase, hc.locked j hj⟩ hm
    case acquiring =>
      have hp : Phase.spinning ≠ .holding := by decide
      exact hc.exchange hp (by rw [hphase]; rfl)
    case spinning =>
      refine hc.access_of_not_holding ?_ (by rw [hlocked]; exact hkept)
      rw [hself]
      split <;> decide

/-- A refusal leaves the flag as it was, unless it disturbs. -/
theorem Refuses.locked_eq {m : Move ι} (hr : c.Refuses m) (hm : ¬ c.Disturbs m) :
    (c.next m).locked = c.locked := by
  cases m with
  | attempt i => exact hr.elim
  | await i => exact hr.elim
  | access i weak =>
    obtain ⟨hphase, hown⟩ := hr
    rw [access_phase_self] at hown
    rw [access_locked]
    rcases hphase with hphase | hphase | hphase
    · rw [hphase]
      rfl
    · rw [hphase] at hown ⊢
      simp only [step] at hown ⊢
      split at hown
      next hfail => rw [if_pos hfail]
      next => exact absurd rfl hown
    · have hclear : c.locked = false := Bool.eq_false_iff.2 fun hset => hm ⟨hphase, hset⟩
      rw [hphase, hclear]
      rfl

/-- A refusal that disturbs clears the flag. -/
theorem Disturbs.refuses {m : Move ι} (hd : c.Disturbs m) :
    c.Refuses m ∧ (c.next m).locked ≠ c.locked := by
  cases m with
  | attempt i => exact hd.elim
  | await i => exact hd.elim
  | access i weak =>
    obtain ⟨hphase, hset⟩ := hd
    refine ⟨⟨Or.inr (Or.inr hphase), ?_⟩, ?_⟩
    · rw [access_phase_self, hphase]
      simp [step]
    · rw [access_locked, hphase, hset]
      simp [step]

end Crowd

/-! ## Runs -/

/-- The lock does what it is for along a run: in every state it excludes, and no attempt that
comes to nothing changes the flag. -/
structure Orderly (moves : List (Move ι)) : Prop where
  exclusive : ∀ k, (Crowd.run (moves.take k)).Exclusive
  unchanged : ∀ k m, moves[k]? = some m → (Crowd.run (moves.take k)).Refuses m →
    (Crowd.run (moves.take (k + 1))).locked = (Crowd.run (moves.take k)).locked

theorem run_take_succ {moves : List (Move ι)} {k : Nat} {m : Move ι} (h : moves[k]? = some m) :
    Crowd.run (moves.take (k + 1)) = (Crowd.run (moves.take k)).next m := by
  rw [List.take_add_one, h, Option.toList_some, Crowd.run, List.foldl_append]
  rfl

omit [DecidableEq ι] in
theorem exclusive_start : (Crowd.start : Crowd ι).Exclusive :=
  ⟨fun _ _ hi _ => (nomatch hi), fun _ hi => (nomatch hi)⟩

/-- What each move keeps is kept by a run of them. -/
theorem exclusive_take {moves : List (Move ι)}
    (h : ∀ k m, moves[k]? = some m → ¬ (Crowd.run (moves.take k)).Disturbs m) (k : Nat) :
    (Crowd.run (moves.take k)).Exclusive := by
  induction k with
  | zero => exact exclusive_start
  | succ k ih =>
    rcases hm : moves[k]? with _ | m
    · rw [List.take_of_length_le (Nat.le_succ_of_le (List.getElem?_eq_none_iff.1 hm)),
        ← List.take_of_length_le (List.getElem?_eq_none_iff.1 hm)]
      exact ih
    · rw [run_take_succ hm]
      exact ih.next (h k m hm)

/-- **Exclusion, exactly**: along a run the lock excludes in every state and refusals change
nothing if and only if no refused attempt drops its guard while the flag is set. -/
theorem orderly_iff_undisturbed (moves : List (Move ι)) :
    Orderly moves ↔ ∀ k m, moves[k]? = some m → ¬ (Crowd.run (moves.take k)).Disturbs m := by
  constructor
  · intro h k m hm hd
    obtain ⟨hr, hne⟩ := hd.refuses
    rw [← run_take_succ hm] at hne
    exact hne (h.unchanged k m hm hr)
  · intro h
    refine ⟨exclusive_take h, fun k m hm hr => ?_⟩
    rw [run_take_succ hm]
    exact hr.locked_eq (h k m hm)

/-- Agent 0 sees the lock free; agent 1 takes it before agent 0 tries to; agent 0 fails, and its
drop of the guard frees the lock for agent 2. -/
def overtaken : List (Move (Fin 3)) :=
  [.attempt 0, .access 0 false, .await 1, .access 1 false, .access 0 false, .access 0 false,
    .await 2, .access 2 false]

/-- After these moves two agents hold the lock. -/
theorem not_orderly_overtaken :
    ¬ Orderly overtaken ∧ (Crowd.run overtaken).phase 1 = .holding ∧
      (Crowd.run overtaken).phase 2 = .holding ∧ (Crowd.run overtaken).phase 0 = .refused := by
  have h1 : (Crowd.run overtaken).phase 1 = .holding := by decide
  have h2 : (Crowd.run overtaken).phase 2 = .holding := by decide
  refine ⟨fun h => ?_, h1, h2, by decide⟩
  exact absurd ((h.exclusive 8).unique 1 2 h1 h2) (by decide)

end PagedMemory.SpinLock
