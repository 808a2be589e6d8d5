import Mathlib.Tactic
import PagedMemory.Proofs.Behaviour
import PagedMemory.Proofs.Emitting

/-!
# Routines that are listened to

What a routine does among others, told together with the events of its own sections. What a routine
says and what it does may depend on one another, where neither is known by itself.

* `Recounts`: like `Behaves`, and the postcondition may also speak of the events. The numbers of frames
  that may be stated are given.
* `Recounts.of_behaves`, `Recounts.behaves`: what is known of what a routine does and of what it says
  are known together; and the events can be left out again.
* `Recounts.bind`, `Recounts.frame`: routines one after the other, and estates that they do not touch.
* `Recounts.answers`: the routine of a client that is alone.
-/

namespace PagedMemory

open Traced (events)

/-- How many frames there are said to be, which is what `Machine.frameTotal` answers. -/
def Machine.stated (m : Machine) : UInt64 :=
  .ofNat ((m.front.statedTotal.map Fin.val).getD m.pool.slots.size)

/-- The bytes of so many frames can be counted by a word. -/
theorem Machine.stated_lt {m : Machine} (h : m.pool.slots.size < 2 ^ 52) : m.stated.toNat < 2 ^ 52 := by
  have hlt : (m.front.statedTotal.map Fin.val).getD m.pool.slots.size < 2 ^ 52 := by
    cases m.front.statedTotal with
    | none => exact h
    | some n => exact n.isLt
  rw [stated, UInt64.toNat_ofNat_of_lt' (hlt.trans (by decide))]
  exact hlt

/-- What a routine does that starts with the estate `own`, as it was in `p`, and ends as `Q` says: of
the answer, the estate and the pool, and of the events of its sections. No other numbers of frames are
stated than `G` allows. -/
def Recounts {α : Type} (a : Allocator) (T : Terms) (G : UInt64 → Prop) (w : Job α) (own : Estate)
    (p : Pool) (Q : α → Estate → Pool → List Event → Prop) : Prop :=
  match w with
  | .done v => Q v own p []
  | .step _ act next => ∀ s others, G s.machine.stated →
      Books a s.machine.pool s.registry (own ++ others) →
      T.Relies a s.machine.pool s.machine.notes others → Spares a own p s.machine.pool →
      Ends act s
        (fun b t => t.machine.front = s.machine.front ∧ ∃ mine es,
          Section a T s.machine.pool s.machine.notes s.registry others mine (Shared.noted.shown t) ∧
          events t = events s ++ es ∧
          Recounts a T G (next b) mine t.machine.pool fun v e q fs => Q v e q (es ++ fs))
        fun e t => t.machine.front = s.machine.front ∧
          Stranded a T s.machine.pool own others e (Shared.noted.shown t)

section

variable {a : Allocator} {T : Terms} {G : UInt64 → Prop} {p : Pool} {r : Registry}
  {own others extra : Estate} {α β : Type} {w : Job α} {Q Q' : α → Estate → Pool → List Event → Prop}

theorem Recounts.pure {v : α} (h : Q v own p []) : Recounts a T G (Pure.pure v) own p Q := h

theorem Recounts.imp (h : Recounts a T G w own p Q) (hq : ∀ v e q es, Q v e q es → Q' v e q es) :
    Recounts a T G w own p Q' := by
  induction w generalizing own p Q Q' with
  | done v => exact hq v own p [] h
  | step access act next ih =>
    intro s others hG hbooks hrelies hspares
    refine (h s others hG hbooks hrelies hspares).mono ?_ fun _ _ hf => hf
    rintro b t ⟨hfront, mine, es, hsection, hes, hnext⟩
    exact ⟨hfront, mine, es, hsection, hes, ih b hnext fun v e q fs => hq v e q (es ++ fs)⟩

theorem Recounts.bind {f : α → Job β} {R : β → Estate → Pool → List Event → Prop}
    (h : Recounts a T G w own p Q)
    (hf : ∀ v e q es, Q v e q es →
      Recounts a T G (f v) e q fun u e' q' fs => R u e' q' (es ++ fs)) :
    Recounts a T G (w >>= f) own p R := by
  induction w generalizing own p Q R with
  | done v => exact (hf v own p [] h).imp fun _ _ _ _ hu => hu
  | step access act next ih =>
    intro s others hG hbooks hrelies hspares
    refine (h s others hG hbooks hrelies hspares).mono ?_ fun _ _ hf => hf
    rintro b t ⟨hfront, mine, es, hsection, hes, hnext⟩
    refine ⟨hfront, mine, es, hsection, hes, ih b hnext fun v e q fs hv => ?_⟩
    exact (hf v e q (es ++ fs) hv).imp fun u e' q' gs hu => by rwa [← List.append_assoc]

/-- What is known of what a routine does, and of what it says. -/
theorem Recounts.of_behaves {P : α → Estate → Pool → Prop} {I : Estate → Pool → Prop}
    {R : α → List Event → Prop} (h : Behaves a T w own p P I) (hw : Says w R) :
    Recounts a T G w own p fun v e q es => P v e q ∧ R v es := by
  induction w generalizing own p R with
  | done v => exact ⟨h, hw⟩
  | step access act next ih =>
    intro s others _ hbooks hrelies hspares
    refine ((h s.machine.front _ _ _ others hbooks hrelies hspares s rfl rfl).and (hw s)).mono ?_ ?_
    · rintro b t ⟨⟨hfront, mine, hsection, -, hnext⟩, es, hes, hsays⟩
      exact ⟨hfront, mine, es, hsection, hes, ih b hnext hsays⟩
    · exact fun _ _ hf => hf.1

/-- What a routine does, whatever number of frames is stated. -/
theorem Recounts.behaves (h : Recounts a T (fun _ => True) w own p Q) :
    Behaves a T w own p fun v e q => ∃ es, Q v e q es := by
  induction w generalizing own p Q with
  | done v => exact ⟨[], h⟩
  | step access act next ih =>
    rintro front _ _ _ others hbooks hrelies hspares s hshown rfl
    obtain ⟨rfl, rfl, rfl⟩ := Shared.noted_eq hshown
    refine (h s others trivial hbooks hrelies hspares).mono ?_ fun _ _ hf => hf
    rintro b t ⟨hfront, mine, es, hsection, -, hnext⟩
    refine ⟨hfront, mine, hsection, trivial, (ih b hnext).imp ?_⟩
    exact fun _ _ _ ⟨fs, hq⟩ => ⟨es ++ fs, hq⟩

/-- Likewise next to an estate that the routine leaves alone. -/
theorem Recounts.frame (h : Recounts a T G w own p Q) (extra : Estate) (hframes : extra.frames = [])
    (hextra : ∀ c ∈ extra.chains, ∀ y ∈ c, T.Shows p a.root y) :
    Recounts a T G w (own ++ extra) p fun v e q es =>
      ∃ mine, e = mine ++ extra ∧ Q v mine q es ∧ Spares a extra p q := by
  induction w generalizing own p Q with
  | done v => exact ⟨own, rfl, h, .refl⟩
  | step access act next ih =>
    intro s others hG hbooks hrelies hspares
    -- for the time being the extra estate is one of the others
    have hspared : Spares a extra p s.machine.pool := hspares.spares_right
    have hshows : ∀ c ∈ extra.chains, ∀ y ∈ c, T.Shows s.machine.pool a.root y := fun c hc y hy =>
      (hextra c hc y hy).of_spares hspared hc hy
    refine (h s _ hG (Books.assoc.1 hbooks) (hrelies.widen hshows) hspares.spares_left).mono ?_
      fun _ _ hf => ⟨hf.1, hf.2.narrow hframes⟩
    rintro b t ⟨hfront, mine, es, hsection, hes, hnext⟩
    refine ⟨hfront, mine ++ extra, es, hsection.narrow, hes, ?_⟩
    refine (ih b hnext fun c hc y hy => (hshows c hc y hy).of_spares hsection.spares.spares_left
      hc hy).imp ?_
    rintro v _ u fs ⟨mine', rfl, hq, hspares'⟩
    exact ⟨mine', rfl, hq, (hspared.trans hsection.spares.spares_left).trans hspares'⟩

/-- A client is told a number of frames that may be stated. -/
theorem Recounts.bind_frameTotal {f : UInt64 → Job β} {R : β → Estate → Pool → List Event → Prop}
    (h : ∀ total q, G total → Spares a own p q → Recounts a T G (f total) own q R) :
    Recounts a T G (Allocator.onMachine Machine.frameTotal >>= f) own p R := by
  intro s others hG hbooks hrelies hspares
  exact ⟨rfl, own, [], .of_calm hrelies hbooks .refl fun _ _ => rfl, (List.append_nil _).symm,
    h s.machine.stated s.machine.pool hG hspares⟩

/-- An event that is not notable, and what comes after it. -/
theorem Recounts.bind_emit {ev : Event} {f : Unit → Job β}
    {R : β → Estate → Pool → List Event → Prop}
    (h : ∀ q, Spares a own p q → Recounts a T G (f ()) own q fun v e u es => R v e u (ev :: es))
    (hnote : ev.isNote = false := by rfl) :
    Recounts a T G (Allocator.onMachine (Machine.emit ev) >>= f) own p R := by
  have hlooks : Behaves a T (Allocator.onMachine (Machine.emit ev)) own p fun _ e q =>
      e = own ∧ Spares a own p q :=
    Behaves.looks fun _ _ _ _ _ hspares => Does.emit ⟨rfl, rfl, hspares⟩ hnote
  refine Recounts.bind (Recounts.of_behaves hlooks
    (Says.onMachine (Emits.emit (R := fun _ es => es = [ev]) rfl))) ?_
  rintro _ _ q _ ⟨⟨rfl, hspares⟩, rfl⟩
  exact h q hspares

theorem Recounts.bind_report {rep : Report} {f : Unit → Job β}
    {R : β → Estate → Pool → List Event → Prop}
    (h : ∀ q, Spares a own p q →
      Recounts a T G (f ()) own q fun v e u es => R v e u (.reported rep :: es))
    (hnote : rep.isNote = false := by rfl) :
    Recounts a T G (Allocator.onMachine (Machine.report rep) >>= f) own p R :=
  Recounts.bind_emit h hnote

/-- A routine that may not fault ends in an answer, and says what it says. To a client that is alone
one number of frames is stated all along. -/
theorem Recounts.answers {s : Shared}
    (h : Recounts a T (· = s.machine.stated) w own s.machine.pool Q) (hT : T ≠ .lenient)
    (hbooks : Books a s.machine.pool s.registry (own ++ others))
    (hrelies : T.Relies a s.machine.pool s.machine.notes others) :
    ∃ v t es, w.run s = .ok v t ∧ events t = events s ++ es ∧ ∃ mine,
      Passes a T s.machine.pool others mine (Shared.noted.shown t) ∧ Q v mine t.machine.pool es := by
  induction w generalizing own s Q with
  | done v =>
    exact ⟨v, s, [], rfl, (List.append_nil _).symm, own,
      ⟨hbooks, .refl, fun foreign hT => (hrelies foreign hT).tracked⟩, h⟩
  | step access act next ih =>
    have hact := h s others rfl hbooks hrelies .refl
    rw [Ends] at hact
    split at hact
    next b t hok =>
      obtain ⟨hfront, mine, es, hsection, hes, hnext⟩ := hact
      -- neither the front nor the size of the pool has changed
      have hstated : t.machine.stated = s.machine.stated := by
        have hsize : t.machine.pool.slots.size = s.machine.pool.slots.size := hsection.spares.size
        rw [Machine.stated, Machine.stated, hfront, hsize]
      rw [← hstated] at hnext
      obtain ⟨v, u, fs, hrun, hfs, mine', hpasses, hq⟩ :=
        ih b hnext hsection.books (hsection.relies hrelies)
      refine ⟨v, u, es ++ fs, ?_, by rw [hfs, hes, List.append_assoc], mine',
        hsection.toPasses.trans hpasses, hq⟩
      rw [Routine.run, hok]
      exact hrun
    next => exact absurd hact.2.lenient hT

end

end PagedMemory
