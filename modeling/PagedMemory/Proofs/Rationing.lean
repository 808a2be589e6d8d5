import PagedMemory.Proofs.Turnover

/-!
# Requests that are made to fail

A pool can be told to let only `n` more requests through. It counts a request before it looks for a
frame, so one for which there is no frame is counted as well, and less than `n` frames may be handed
out before requests begin to fail.

* `Pool.answer`: the answer to a request.
* `Pool.Tally`: how many requests got a frame, and how many came when there was none for them.
* `Pool.Tally.Rationed`: what a turn keeps of the count.
* `Pool.Tally.granted_iff`: which request gets a frame.
* `Pool.Tally.sole_denied`: a frame that is free and is not handed out, though no frame was yet.
-/

namespace PagedMemory.Pool

/-- The answer to a request. -/
def answer (p : Pool) (policy : FramePolicy) : Option PageFrame :=
  match take policy p with
  | .ok answer _ => answer
  | .error _ _ => none

/-- There is a frame that will do. -/
def Offers (p : Pool) (policy : FramePolicy) : Prop := ∃ f ∈ p.freeFrames, policy.accepts f = true

instance (p : Pool) (policy : FramePolicy) : Decidable (p.Offers policy) :=
  inferInstanceAs (Decidable (∃ f ∈ p.freeFrames, policy.accepts f = true))

/-- A turn that does not interfere with the count. -/
def Turn.Steady : Turn → Prop
  | .call (.failAfter _) => False
  | .call .clearFailure => False
  | .call (.take _) => True
  | .call (.giveBack _) => True
  | .store _ _ => True

/-- An account, and what became of the requests since the count began. -/
structure Tally extends Account where
  /-- requests that got a frame -/
  granted : Nat
  /-- requests for which there was no frame -/
  starved : Nat

namespace Tally

variable {t : Tally} {base : PageFrame} {count n : Nat} {policy : FramePolicy}

/-- The count begins: `n` more requests are let through. -/
def start (s : Account) (n : Nat) : Tally := ⟨s.after (.call (.failAfter n)), 0, 0⟩

def after (t : Tally) : Turn → Tally
  | .call (.take policy) =>
    { toAccount := t.toAccount.after (.call (.take policy))
      granted := t.granted + if (t.pool.answer policy).isSome then 1 else 0
      starved := t.starved + if t.pool.Offers policy then 0 else 1 }
  | turn => { t with toAccount := t.toAccount.after turn }

def run (t : Tally) (turns : List Turn) : Tally := turns.foldl after t

/-- What is left of the count. Requests that are refused at once do not change it: it is used up. -/
structure Rationed (t : Tally) (base : PageFrame) (count n : Nat) : Prop where
  kept : t.Kept base count
  budget : t.pool.budget = some (n - (t.granted + t.starved))

theorem answer_of_answered {p q : Pool} {answer : Option PageFrame}
    (hrun : take policy p = .ok answer q) : p.answer policy = answer := by
  rw [Pool.answer, hrun]

/-- A request gets a frame if there is one for it and the count is not used up. -/
theorem Rationed.isSome_answer (h : t.Rationed base count n) (policy : FramePolicy) :
    (t.pool.answer policy).isSome = true ↔ t.granted + t.starved < n ∧ t.pool.Offers policy := by
  obtain ⟨answer, q, hrun, hq⟩ := (take_answers h.kept.placed h.kept.listed policy).exists_ok
  have hbudget := h.budget
  rw [answer_of_answered hrun]
  cases hq with
  | refused hzero =>
    rw [hzero, Option.some.injEq] at hbudget
    simp only [Option.isSome_none, Bool.false_eq_true, false_iff]
    omega
  | starved _ hlacking =>
    simp only [Option.isSome_none, Bool.false_eq_true, false_iff]
    rintro ⟨-, f, hf, haccepts⟩
    rw [hlacking f hf] at haccepts
    cases haccepts
  | served hnonzero hserved =>
    rw [hbudget, ne_eq, Option.some.injEq] at hnonzero
    simp only [Option.isSome_some, true_iff]
    exact ⟨by omega, _, hserved.mem, hserved.accepts⟩

theorem Rationed.take (h : t.Rationed base count n) (policy : FramePolicy) :
    (t.after (.call (.take policy))).Rationed base count n := by
  refine ⟨h.kept.after (.call (.take policy)), ?_⟩
  obtain ⟨answer, q, hrun, hq⟩ := (take_answers h.kept.placed h.kept.listed policy).exists_ok
  have hbudget := h.budget
  have hanswer := answer_of_answered hrun
  cases hq with
  | refused hzero =>
    rw [hzero, Option.some.injEq] at hbudget
    simp only [after, Account.after, hrun, hanswer]
    rw [hzero, Option.some.injEq]
    omega
  | starved hnonzero hlacking =>
    have hnone : ¬ t.pool.Offers policy := by
      rintro ⟨f, hf, haccepts⟩
      rw [hlacking f hf] at haccepts
      cases haccepts
    simp only [after, Account.after, hrun, hanswer, if_neg hnone, spent, hbudget, Option.map_some,
      Option.isSome_none, Bool.false_eq_true, if_false, Option.some.injEq]
    omega
  | served hnonzero hserved =>
    have hoffers : t.pool.Offers policy := ⟨_, hserved.mem, hserved.accepts⟩
    simp only [after, Account.after, hrun, hanswer, if_pos hoffers, hserved.budget, hbudget,
      Option.map_some, Option.isSome_some, if_true, Option.some.injEq]
    omega

/-- Frames that come back and stores are not counted. -/
theorem Rationed.of_budget (h : t.Rationed base count n) {turn : Turn}
    (hafter : t.after turn = { t with toAccount := t.toAccount.after turn })
    (hbudget : (t.toAccount.after turn).pool.budget = t.pool.budget) :
    (t.after turn).Rationed base count n := by
  rw [hafter]
  exact ⟨h.kept.after turn, hbudget.trans h.budget⟩

theorem Rationed.after (h : t.Rationed base count n) {turn : Turn} (hsteady : turn.Steady) :
    (t.after turn).Rationed base count n := by
  cases turn with
  | call call =>
    cases call with
    | take policy => exact h.take policy
    | giveBack f =>
      refine h.of_budget rfl ?_
      cases htaken : t.pool.isTaken f with
      | true =>
        obtain ⟨q, hrun, hq⟩ := giveBack_restores h.kept.placed h.kept.listed htaken
        simp only [Account.after, hrun]
        exact hq.budget
      | false =>
        obtain ⟨e, hrun⟩ := giveBack_refuses htaken
        simp only [Account.after, hrun]
    | failAfter m => exact hsteady.elim
    | clearFailure => exact hsteady.elim
  | store a data =>
    refine h.of_budget rfl ?_
    have hends := setBytes_ends (p := t.pool) a data
    rw [Ends] at hends
    rw [Account.after]
    split at hends
    next hrun =>
      simp only [hrun]
      exact hends.budget
    next hrun =>
      simp only [hrun]
      exact hends.budget

theorem Rationed.run (h : t.Rationed base count n) {turns : List Turn}
    (hsteady : ∀ turn ∈ turns, turn.Steady) : (t.run turns).Rationed base count n := by
  induction turns generalizing t with
  | nil => exact h
  | cons turn turns ih =>
    rw [List.forall_mem_cons] at hsteady
    exact ih (h.after hsteady.1) hsteady.2

theorem Rationed.start {s : Account} (h : s.Kept base count) (n : Nat) :
    (start s n).Rationed base count n :=
  ⟨h.after (.call (.failAfter n)), rfl⟩

/-- After any history, `n` requests are let through, and those for which there is no frame are among
them. So a request gets a frame if there is one for it and less than `n` requests before it either
got a frame or came when there was none for them. -/
theorem granted_iff (h : base.base.val.toNat + count * 4096 ≤ 2 ^ 64) (history : List Turn)
    (n : Nat) {turns : List Turn} (hsteady : ∀ turn ∈ turns, turn.Steady)
    (policy : FramePolicy) :
    let t := (start ((Account.create base count).run history) n).run turns
    (t.pool.answer policy).isSome = true ↔ t.granted + t.starved < n ∧ t.pool.Offers policy :=
  ((Rationed.start ((Account.kept_create h).run history) n).run hsteady).isSome_answer policy

/-- The only frame comes back after a request found it in use. -/
theorem sole_granted_iff :
    let t := (start ((Account.create (.containing ⟨0x100000⟩) 1).run [.call (.take .kernel)]) 2).run
      [.call (.take .kernel), .call (.giveBack (.containing ⟨0x100000⟩))]
    (t.pool.answer .kernel).isSome = true ↔ t.granted + t.starved < 2 ∧ t.pool.Offers .kernel :=
  granted_iff (by decide) _ 2 (by simp [Turn.Steady]) .kernel

/-- One more request is to get a frame. None has got one since, and the only frame is free, but it
is not handed out. -/
theorem sole_denied :
    let t := (start ((Account.create (.containing ⟨0x100000⟩) 1).run [.call (.take .kernel)]) 1).run
      [.call (.take .kernel), .call (.giveBack (.containing ⟨0x100000⟩))]
    t.granted = 0 ∧ t.pool.freeFrames = [.containing ⟨0x100000⟩] ∧ t.pool.Offers .kernel ∧
      t.pool.answer .kernel = none := by
  decide

end Tally

end PagedMemory.Pool
