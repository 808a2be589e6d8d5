import PagedMemory.Allocator

/-!
# Outcomes

Total correctness of stateful operations: what holds of every way in which an operation can end.

* `Ends x s Q E`: started in `s`, the operation `x` ends in an answer and a state as `Q` says, or
  in an error and a state as `E` says.
* `Yields x s Q`: it ends in an answer, never in an error.
* `Ends.bind`, `Ends.mono`: operations one after the other, and weaker claims.
* `Runs`: the same, told of what counts of a state. What does not count may change; what is kept is
  the same at the end.
* `Event.isNote`: the events that count, which are the notes of a machine.
* `Does`: an operation on a machine that does nothing notable and cannot fault.
* `Runs.run_bind`, `Runs.run_atomically`: the routines of a client that is alone, section by section.
-/

namespace PagedMemory

variable {ε σ α β : Type}

/-- Whichever way `x` ends when started in `s`, it is one that is allowed. -/
def Ends (x : EStateM ε σ α) (s : σ) (Q : α → σ → Prop) (E : ε → σ → Prop) : Prop :=
  match x s with
  | .ok a t => Q a t
  | .error e t => E e t

/-- `x` ends in an answer as `Q` says. -/
abbrev Yields (x : EStateM ε σ α) (s : σ) (Q : α → σ → Prop) : Prop := Ends x s Q fun _ _ => False

section

variable {x : EStateM ε σ α} {s t : σ} {a : α} {Q Q' : α → σ → Prop} {E E' : ε → σ → Prop}

theorem Ends.of_ok (h : x s = .ok a t) (hq : Q a t) : Ends x s Q E := by
  rw [Ends, h]
  exact hq

theorem Ends.of_eq_ok (h : Ends x s Q E) (hx : x s = .ok a t) : Q a t := by
  rw [Ends, hx] at h
  exact h

theorem Ends.of_eq_error {e : ε} (h : Ends x s Q E) (hx : x s = .error e t) : E e t := by
  rw [Ends, hx] at h
  exact h

/-- The answer that an operation yields. -/
theorem Yields.exists_ok (h : Yields x s Q) : ∃ a t, x s = .ok a t ∧ Q a t := by
  rcases hx : x s with ⟨a, t⟩ | ⟨e, t⟩
  · rw [Yields, Ends, hx] at h
    exact ⟨a, t, rfl, h⟩
  · rw [Yields, Ends, hx] at h
    exact h.elim

theorem Ends.mono (h : Ends x s Q E) (hq : ∀ a t, Q a t → Q' a t) (he : ∀ e t, E e t → E' e t) :
    Ends x s Q' E' := by
  rw [Ends] at h ⊢
  split at h
  · exact hq _ _ h
  · exact he _ _ h

/-- Two things that are known of one operation. -/
theorem Ends.and (h : Ends x s Q E) (h' : Ends x s Q' E') :
    Ends x s (fun a t => Q a t ∧ Q' a t) fun e t => E e t ∧ E' e t := by
  rw [Ends] at h h' ⊢
  split at h
  next a t hx =>
    rw [hx] at h'
    exact ⟨h, h'⟩
  next e t hx =>
    rw [hx] at h'
    exact ⟨h, h'⟩

theorem Yields.and (h : Yields x s Q) (h' : Yields x s Q') :
    Yields x s fun a t => Q a t ∧ Q' a t :=
  (Ends.and h h').mono (fun _ _ h => h) fun _ _ h => h.1

theorem Ends.pure (h : Q a s) : Ends (Pure.pure a : EStateM ε σ α) s Q E := h

theorem Ends.throw {e : ε} (h : E e s) : Ends (throw e : EStateM ε σ α) s Q E := h

theorem Ends.bind {f : α → EStateM ε σ β} {R : β → σ → Prop} (h : Ends x s Q E)
    (hf : ∀ a t, Q a t → Ends (f a) t R E) : Ends (x >>= f) s R E := by
  change Ends (EStateM.bind x f) s R E
  rw [Ends] at h ⊢
  rw [EStateM.bind]
  split at h
  next a t hx =>
    rw [hx]
    exact hf a t h
  next e t hx =>
    rw [hx]
    exact h

/-- An operation with a known answer, and what comes after it. -/
theorem Ends.bind_ok {f : α → EStateM ε σ β} {R : β → σ → Prop} (h : x s = .ok a t)
    (hf : Ends (f a) t R E) : Ends (x >>= f) s R E :=
  Ends.bind (Q := fun b u => b = a ∧ u = t) (Ends.of_ok h ⟨rfl, rfl⟩) fun _ _ hab =>
    hab.1 ▸ hab.2 ▸ hf

/-- To look at the state neither fails nor changes it. -/
theorem get_apply (s : σ) : (get : EStateM ε σ σ) s = .ok s s := rfl

theorem Ends.bind_get {f : σ → EStateM ε σ β} {R : β → σ → Prop} (h : Ends (f s) s R E) :
    Ends (get >>= f) s R E := h

theorem Ends.bind_modify {g : σ → σ} {f : PUnit → EStateM ε σ β} {R : β → σ → Prop}
    (h : Ends (f ⟨⟩) (g s) R E) : Ends (modify g >>= f) s R E := h

end

/-- A step without a state that succeeds, and what comes after it. -/
theorem Ends.bind_lift {x : Except Fault α} {f : α → EStateM Fault σ β} {s : σ} {a : α}
    {R : β → σ → Prop} {E : Fault → σ → Prop} (hx : x = .ok a) (hf : Ends (f a) s R E) :
    Ends (liftM x >>= f) s R E := by
  subst hx
  exact hf

/-- A step without a state that fails ends the operation. -/
theorem Ends.bind_lift_error {x : Except Fault α} {f : α → EStateM Fault σ β} {s : σ} {e : Fault}
    {R : β → σ → Prop} {E : Fault → σ → Prop} (hx : x = .error e) (he : E e s) :
    Ends (liftM x >>= f) s R E := by
  subst hx
  exact he

/-! ## What counts of a state -/

/-- Reports that tell of addresses coming into use or going out of it, or of something that must
not happen. -/
def Report.isNote : Report → Bool
  | .reserved _ => true
  | .unmapped _ _ => true
  | r => decide (r.severity = .error)

/-- The events that the rules of memory are about: mappings that come and go, demands on the
translation caches, frames that are given back, copies, and reports of that kind. -/
def Event.isNote : Event → Bool
  | .taken _ => false
  | .returned _ => true
  | .afterMap _ => false
  | .beforeUnmap _ => true
  | .flushed _ => true
  | .requested _ => false
  | .mapped _ _ => true
  | .unmapped _ => true
  | .copied _ _ => true
  | .reported r => r.isNote

/-- The notable events so far, the oldest first. -/
def Machine.notes (m : Machine) : List Event := m.trace.toList.filter Event.isNote

/-- What most operations on a machine leave as it is. -/
structure Backdrop where
  front : Front
  notes : List Event

def Machine.backdrop (m : Machine) : Backdrop := ⟨m.front, m.notes⟩

/-- What of the states of a layer is told in its rules, and what stays as it is. -/
structure View (σ κ τ : Type) where
  shown : σ → τ
  kept : σ → κ

/-- A machine on which nothing notable happens. -/
def Machine.view : View Machine Backdrop Pool := ⟨Machine.pool, Machine.backdrop⟩

/-- A machine and what is noted of it. -/
def Machine.noted : View Machine Front (Pool × List Event) :=
  ⟨fun m => (m.pool, m.notes), Machine.front⟩

def Filling.noted : View Filling Front (Pool × List Event × Nat) :=
  ⟨fun s => (s.machine.pool, s.machine.notes, s.taken), fun s => s.machine.front⟩

def Shared.noted : View Shared Front (Pool × List Event × Registry) :=
  ⟨fun s => (s.machine.pool, s.machine.notes, s.registry), fun s => s.machine.front⟩

/-- From every state that shows `t` on this ground, `x` ends as `Q` or `E` says. -/
def Runs {κ τ : Type} (v : View σ κ τ) (ground : κ) (x : EStateM ε σ α) (t : τ) (Q : α → τ → Prop)
    (E : ε → τ → Prop) : Prop :=
  ∀ s, v.shown s = t → v.kept s = ground →
    Ends x s (fun a s' => v.kept s' = ground ∧ Q a (v.shown s')) fun e s' =>
      v.kept s' = ground ∧ E e (v.shown s')

section

variable {κ τ : Type} {v : View σ κ τ} {ground : κ} {x : EStateM ε σ α} {t : τ} {a : α}
  {Q Q' : α → τ → Prop} {E E' : ε → τ → Prop}

theorem Runs.pure (h : Q a t) : Runs v ground (Pure.pure a : EStateM ε σ α) t Q E :=
  fun _ hs hkept => ⟨hkept, hs.symm ▸ h⟩

theorem Runs.throw {e : ε} (h : E e t) : Runs v ground (throw e : EStateM ε σ α) t Q E :=
  fun _ hs hkept => ⟨hkept, hs.symm ▸ h⟩

theorem Runs.mono (h : Runs v ground x t Q E) (hq : ∀ a u, Q a u → Q' a u)
    (he : ∀ e u, E e u → E' e u) : Runs v ground x t Q' E' :=
  fun s hs hkept => (h s hs hkept).mono (fun _ _ h => ⟨h.1, hq _ _ h.2⟩) fun _ _ h =>
    ⟨h.1, he _ _ h.2⟩

theorem Runs.imp (h : Runs v ground x t Q E) (hq : ∀ a u, Q a u → Q' a u) :
    Runs v ground x t Q' E :=
  h.mono hq fun _ _ he => he

theorem Runs.bind {f : α → EStateM ε σ β} {R : β → τ → Prop} (h : Runs v ground x t Q E)
    (hf : ∀ a u, Q a u → Runs v ground (f a) u R E) : Runs v ground (x >>= f) t R E := by
  intro s hs hkept
  refine Ends.bind (h s hs hkept) ?_
  rintro a u ⟨hu, hq⟩
  exact hf a _ hq u rfl hu

theorem Runs.bind_get {f : σ → EStateM ε σ β} {R : β → τ → Prop}
    (h : ∀ s, v.shown s = t → v.kept s = ground → Runs v ground (f s) t R E) :
    Runs v ground (get >>= f) t R E :=
  fun s hs hkept => h s hs hkept s hs hkept

/-- A change of the state that shows, but not in what is kept. -/
theorem Runs.bind_modify {g : σ → σ} {f : PUnit → EStateM ε σ β} {R : β → τ → Prop} {u : τ}
    (hg : ∀ s, v.shown s = t → v.shown (g s) = u ∧ v.kept (g s) = v.kept s)
    (h : Runs v ground (f ⟨⟩) u R E) : Runs v ground (modify g >>= f) t R E := by
  intro s hs hkept
  obtain ⟨hu, hkeep⟩ := hg s hs
  exact h (g s) hu (hkeep.trans hkept)

theorem Runs.modify {g : σ → σ} {Q : PUnit → τ → Prop} {u : τ}
    (hg : ∀ s, v.shown s = t → v.shown (g s) = u ∧ v.kept (g s) = v.kept s) (h : Q ⟨⟩ u) :
    Runs v ground (modify g : EStateM ε σ PUnit) t Q E := by
  intro s hs hkept
  obtain ⟨hu, hkeep⟩ := hg s hs
  exact ⟨hkeep.trans hkept, hu.symm ▸ h⟩

/-- A step without a state that succeeds, and what comes after it. -/
theorem Runs.bind_lift {x : Except Fault α} {v : View σ κ τ} {f : α → EStateM Fault σ β}
    {R : β → τ → Prop} {E : Fault → τ → Prop} (hx : x = .ok a) (hf : Runs v ground (f a) t R E) :
    Runs v ground (liftM x >>= f) t R E :=
  fun s hs hkept => Ends.bind_lift hx (hf s hs hkept)

theorem Runs.bind_lift_error {x : Except Fault α} {v : View σ κ τ} {f : α → EStateM Fault σ β}
    {e : Fault} {R : β → τ → Prop} {E : Fault → τ → Prop} (hx : x = .error e) (he : E e t) :
    Runs v ground (liftM x >>= f) t R E :=
  fun _ hs hkept => Ends.bind_lift_error hx ⟨hkept, hs.symm ▸ he⟩

/-- The answer of an operation that cannot end in an error. -/
theorem Runs.exists_ok {s : σ} (h : Runs v ground x t Q fun _ _ => False) (hs : v.shown s = t)
    (hkept : v.kept s = ground) :
    ∃ a s', x s = .ok a s' ∧ v.kept s' = ground ∧ Q a (v.shown s') :=
  Yields.exists_ok ((h s hs hkept).mono (fun _ _ h => h) fun _ _ h => h.2)

end

/-! ## Operations on machines -/

/-- `x` cannot fault, does nothing notable, and ends in an answer and a pool as `Q` says. -/
abbrev Does (back : Backdrop) (x : MachineM α) (p : Pool) (Q : α → Pool → Prop) : Prop :=
  Runs Machine.view back x p Q fun _ _ => False

theorem Machine.notes_push (m : Machine) (e : Event) :
    { m with trace := m.trace.push e }.notes = m.notes ++ [e].filter Event.isNote := by
  simp [notes]

section

variable {back : Backdrop} {front : Front} {p : Pool} {es : List Event} {Q : α → Pool → Prop}
  {e : Event} {r : Report}

theorem Does.onPool {x : PoolM α} (h : Yields x p Q) : Does back (Machine.onPool x) p Q := by
  rintro ⟨pool, front, trace⟩ rfl rfl
  obtain ⟨a, q, hx, hq⟩ := h.exists_ok
  change x pool = _ at hx
  have hok : Machine.onPool x ⟨pool, front, trace⟩ = .ok a ⟨q, front, trace⟩ := by
    simp only [Machine.onPool, hx]
  exact Ends.of_ok hok ⟨rfl, hq⟩

theorem Machine.backdrop_push (m : Machine) (he : e.isNote = false) :
    { m with trace := m.trace.push e }.backdrop = m.backdrop := by
  rw [backdrop, notes_push, List.filter_cons_of_neg (by simp [he]), List.filter_nil,
    List.append_nil]
  rfl

theorem Does.bind_emit {f : Unit → MachineM α} (h : Does back (f ()) p Q)
    (he : e.isNote = false := by rfl) : Does back (Machine.emit e >>= f) p Q :=
  fun m hm hkept => h { m with trace := m.trace.push e } hm ((m.backdrop_push he).trans hkept)

theorem Does.emit {Q : Unit → Pool → Prop} (h : Q () p) (he : e.isNote = false := by rfl) :
    Does back (Machine.emit e) p Q :=
  fun m hm hkept => ⟨(m.backdrop_push he).trans hkept, hm.symm ▸ h⟩

theorem Does.report {Q : Unit → Pool → Prop} (h : Q () p) (hr : r.isNote = false := by rfl) :
    Does back (Machine.report r) p Q :=
  Does.emit h hr

/-! ### Notable operations -/

theorem Machine.noted_eq {m : Machine} (h : Machine.noted.shown m = (p, es)) :
    m.pool = p ∧ m.notes = es :=
  Prod.mk.inj h

theorem Shared.noted_eq {s : Shared} {registry : Registry}
    (h : Shared.noted.shown s = (p, es, registry)) :
    s.machine.pool = p ∧ s.machine.notes = es ∧ s.registry = registry :=
  ⟨(Prod.mk.inj h).1, Prod.mk.inj (Prod.mk.inj h).2⟩

/-- Of an operation that does nothing notable, nothing is noted. -/
theorem Does.noted {x : MachineM α} {Q : α → Pool × List Event → Prop}
    {E : Fault → Pool × List Event → Prop} (h : Does ⟨front, es⟩ x p fun a q => Q a (q, es)) :
    Runs Machine.noted front x (p, es) Q E := by
  intro m hm hfront
  obtain ⟨hpool, hnotes⟩ := Machine.noted_eq hm
  have hground : m.backdrop = ⟨front, es⟩ := by
    rw [Machine.backdrop, hnotes]
    exact congrArg (Backdrop.mk · es) hfront
  obtain ⟨a, m', hx, hback, hq⟩ := h.exists_ok hpool hground
  obtain ⟨hfront', hnotes'⟩ := Backdrop.mk.inj hback
  refine Ends.of_ok hx ⟨hfront', ?_⟩
  have hshown : Machine.noted.shown m' = (m'.pool, es) := congrArg (Prod.mk m'.pool) hnotes'
  rw [hshown]
  exact hq

theorem Does.bind_noted {x : MachineM α} {f : α → MachineM β} {R : β → Pool × List Event → Prop}
    {E : Fault → Pool × List Event → Prop} (h : Does ⟨front, es⟩ x p Q)
    (hf : ∀ a q, Q a q → Runs Machine.noted front (f a) (q, es) R E) :
    Runs Machine.noted front (x >>= f) (p, es) R E := by
  refine Runs.bind (Q := fun a t => Q a t.1 ∧ t.2 = es)
    (Does.noted (Runs.imp h fun a q hq => ⟨hq, rfl⟩)) ?_
  rintro a ⟨q, _⟩ ⟨hq, rfl⟩
  exact hf a q hq

theorem Machine.noted_push {m : Machine} (h : Machine.noted.shown m = (p, es)) (e : Event) :
    Machine.noted.shown { m with trace := m.trace.push e } =
      (p, es ++ [e].filter Event.isNote) := by
  obtain ⟨hpool, hnotes⟩ := Machine.noted_eq h
  exact Prod.ext hpool ((m.notes_push e).trans (by rw [hnotes]))

theorem Runs.bind_emit {f : Unit → MachineM α} {Q : α → Pool × List Event → Prop}
    {E : Fault → Pool × List Event → Prop}
    (h : Runs Machine.noted front (f ()) (p, es ++ [e].filter Event.isNote) Q E) :
    Runs Machine.noted front (Machine.emit e >>= f) (p, es) Q E :=
  fun m hm hfront => h { m with trace := m.trace.push e } (Machine.noted_push hm e) hfront

theorem Runs.emit {Q : Unit → Pool × List Event → Prop} {E : Fault → Pool × List Event → Prop}
    (h : Q () (p, es ++ [e].filter Event.isNote)) :
    Runs Machine.noted front (Machine.emit e) (p, es) Q E :=
  fun _ hm hfront => ⟨hfront, (Machine.noted_push hm e).symm ▸ h⟩

/-! ### Operations on the machine, as parts of something larger -/

/-- A part of a fill that only acts on the machine. -/
theorem Runs.onFilling {x : MachineM α} {k : Nat} {Q : α → Pool × List Event × Nat → Prop}
    {E : Halt → Pool × List Event × Nat → Prop}
    (h : Runs Machine.noted front x (p, es) (fun a t => Q a (t.1, t.2, k)) fun f t =>
      E (.fault f) (t.1, t.2, k)) :
    Runs Filling.noted front (FillM.onMachine x) (p, es, k) Q E := by
  rintro ⟨machine, taken⟩ hs hfront
  obtain ⟨hpool, hrest⟩ := Prod.mk.inj hs
  obtain ⟨hnotes, rfl⟩ := Prod.mk.inj hrest
  have hx := h machine (Prod.ext hpool hnotes) hfront
  rw [Ends] at hx ⊢
  simp only [FillM.onMachine]
  split at hx
  next hrun =>
    rw [hrun]
    exact hx
  next hrun =>
    rw [hrun]
    exact hx

theorem Runs.onShared {x : MachineM α} {r : Registry} {Q : α → Pool × List Event × Registry → Prop}
    {E : Fault → Pool × List Event × Registry → Prop}
    (h : Runs Machine.noted front x (p, es) (fun a t => Q a (t.1, t.2, r)) fun f t =>
      E f (t.1, t.2, r)) :
    Runs Shared.noted front (Shared.onMachine x) (p, es, r) Q E := by
  rintro ⟨machine, registry⟩ hs hfront
  obtain ⟨hpool, hrest⟩ := Prod.mk.inj hs
  obtain ⟨hnotes, rfl⟩ := Prod.mk.inj hrest
  have hx := h machine (Prod.ext hpool hnotes) hfront
  rw [Ends] at hx ⊢
  simp only [Shared.onMachine]
  split at hx
  next hrun =>
    rw [hrun]
    exact hx
  next hrun =>
    rw [hrun]
    exact hx

/-- An operation on the machine, as the first part of a section. -/
theorem Runs.bind_onShared {x : MachineM α} {f : α → SharedM β} {r : Registry}
    {P : α → Pool × List Event → Prop} {R : β → Pool × List Event × Registry → Prop}
    {E : Fault → Pool × List Event × Registry → Prop}
    (h : Runs Machine.noted front x (p, es) P fun f t => E f (t.1, t.2, r))
    (hf : ∀ a q es, P a (q, es) → Runs Shared.noted front (f a) (q, es, r) R E) :
    Runs Shared.noted front (Shared.onMachine x >>= f) (p, es, r) R E := by
  refine Runs.bind (Q := fun a t => P a (t.1, t.2.1) ∧ t.2.2 = r)
    (Runs.onShared (Runs.imp h fun a t hq => ⟨hq, rfl⟩)) ?_
  rintro a ⟨q, es, _⟩ ⟨hq, rfl⟩
  exact hf a q es hq

end

/-! ## Routines of a client that is alone -/

section

variable {κ τ : Type} {v : View σ κ τ} {ground : κ} {t : τ} {Q : α → τ → Prop} {R : β → τ → Prop}
  {E : ε → τ → Prop}

/-- Routines, one after the other. -/
theorem Runs.run_bind {x : Routine ε σ α} {f : α → Routine ε σ β} (h : Runs v ground x.run t Q E)
    (hf : ∀ a u, Q a u → Runs v ground (f a).run u R E) : Runs v ground (x >>= f).run t R E := by
  have hrun : (x >>= f).run = EStateM.bind x.run fun a => (f a).run :=
    funext (Routine.run_bind x f)
  rw [hrun]
  exact Runs.bind h hf

theorem Runs.run_atomically {access : Access} {x : EStateM ε σ α} (h : Runs v ground x t Q E) :
    Runs v ground (Routine.atomically access x).run t Q E := by
  have hrun : (Routine.atomically access x).run = x := funext (Routine.run_atomically access x)
  rwa [hrun]

end

theorem Allocator.run_onMachine (x : MachineM α) : (onMachine x).run = Shared.onMachine x :=
  funext (Routine.run_atomically .free _)

/-- A section that does nothing notable. -/
theorem Does.run_onMachine {front : Front} {p : Pool} {es : List Event} {r : Registry} {x : MachineM α}
    {Q : α → Pool → Prop} {E : Fault → Pool × List Event × Registry → Prop}
    (h : Does ⟨front, es⟩ x p Q) :
    Runs Shared.noted front (Allocator.onMachine x).run (p, es, r)
      (fun v t => ∃ q, Q v q ∧ t = (q, es, r)) E :=
  Runs.run_atomically (Runs.onShared (Does.noted (Runs.imp h fun _ q hq => ⟨q, hq, rfl⟩)))

end PagedMemory
