import Mathlib.Tactic
import PagedMemory.Proofs.Fading

/-!
# What operations tell

Which events an operation adds to those so far, in whatever state it begins. Nothing is asked of that
state, and so nothing is said of answers that it decides.

* `Emits x R E`: all that `x` does to the events so far is to add some, as `R` and `E` say of the answer
  and of the error.
* `Fair`: no more frames were handed out than were asked for. `Wanting`: something was asked for in
  vain.
* `Mute`: an operation that asks for no frame, such as all that only take something away.
* `Walk.fill_emits`, `Allocator.takeFrames_says`: what ends for want of a frame has asked for it.
* `Routine.Says`: the same for routines, section by section. Others may do what they like in between.
-/

namespace PagedMemory

/-! ## Frames asked for and handed out -/

/-- Frames were handed out only to those who asked. -/
def Fair (es : List Event) : Prop := given es ≤ asked es

/-- A frame was asked for in vain. -/
def Short (es : List Event) : Prop := given es < asked es

/-- A frame was asked for in vain, or room for an area. -/
def Wanting (es : List Event) : Prop := Short es ∨ ∃ size, .reported (.noVirtualSpace size) ∈ es

section

variable {es fs : List Event}

theorem Silent.fair (h : Silent es) : Fair es := by
  rw [Fair, h.1, h.2]

/-- Nothing was asked for, by anyone. -/
theorem Silent.not_mem (h : Silent es) (policy : FramePolicy) : .requested policy ∉ es := fun hmem =>
  List.countP_eq_zero.1 h.1 _ hmem rfl

theorem fair_nil : Fair [] := silent_nil.fair

theorem Fair.append (h : Fair es) (h' : Fair fs) : Fair (es ++ fs) := by
  rw [Fair, asked_append, given_append]
  exact Nat.add_le_add h h'

theorem Short.append_fair (h : Short es) (h' : Fair fs) : Short (es ++ fs) := by
  rw [Short, asked_append, given_append]
  exact Nat.add_lt_add_of_lt_of_le h h'

theorem Fair.append_short (h : Fair es) (h' : Short fs) : Short (es ++ fs) := by
  rw [Short, asked_append, given_append]
  exact Nat.add_lt_add_of_le_of_lt h h'

theorem Wanting.append_fair (h : Wanting es) (h' : Fair fs) : Wanting (es ++ fs) :=
  h.imp (fun hshort => hshort.append_fair h') fun ⟨size, hmem⟩ =>
    ⟨size, List.mem_append_left _ hmem⟩

theorem Fair.append_wanting (h : Fair es) (h' : Wanting fs) : Wanting (es ++ fs) :=
  h'.imp (fun hshort => h.append_short hshort) fun ⟨size, hmem⟩ =>
    ⟨size, List.mem_append_right _ hmem⟩

end

/-! ## Operations -/

open Traced (events)

/-- The operation only adds events. They are as `R` says when it answers, and as `E` says when it
fails. -/
def Emits {ε σ α : Type} [Traced σ] (x : EStateM ε σ α) (R : α → List Event → Prop)
    (E : ε → List Event → Prop := fun _ _ => True) : Prop :=
  ∀ s, Ends x s (fun v t => ∃ es, events t = events s ++ es ∧ R v es)
    fun e t => ∃ es, events t = events s ++ es ∧ E e es

namespace Emits

variable {ε σ α β : Type} [Traced σ] {x : EStateM ε σ α} {R R' : α → List Event → Prop}
  {E E' : ε → List Event → Prop} {v : α}

theorem pure (h : R v []) : Emits (Pure.pure v : EStateM ε σ α) R E := fun _ =>
  Ends.pure ⟨[], (List.append_nil _).symm, h⟩

theorem throw {e : ε} (h : E e []) : Emits (throw e : EStateM ε σ α) R E := fun _ =>
  Ends.throw ⟨[], (List.append_nil _).symm, h⟩

theorem mono (h : Emits x R E) (hr : ∀ v es, R v es → R' v es) (he : ∀ e es, E e es → E' e es) :
    Emits x R' E' := fun s =>
  (h s).mono (fun v _ ⟨es, hes, hv⟩ => ⟨es, hes, hr v es hv⟩) fun e _ ⟨es, hes, hv⟩ =>
    ⟨es, hes, he e es hv⟩

theorem imp (h : Emits x R E) (hr : ∀ v es, R v es → R' v es) : Emits x R' E :=
  h.mono hr fun _ _ he => he

theorem bind {f : α → EStateM ε σ β} {R' : β → List Event → Prop} (h : Emits x R E)
    (hf : ∀ v es, R v es → Emits (f v) (fun u fs => R' u (es ++ fs)) fun e fs => E e (es ++ fs)) :
    Emits (x >>= f) R' E := by
  intro s
  refine Ends.bind (h s) ?_
  rintro v t ⟨es, hes, hv⟩
  have hadd : ∀ {u : σ} {fs : List Event}, events u = events t ++ fs →
      events u = events s ++ (es ++ fs) := fun hu => by rw [hu, hes, List.append_assoc]
  exact (hf v es hv t).mono (fun _ _ ⟨fs, hfs, hu⟩ => ⟨es ++ fs, hadd hfs, hu⟩)
    fun _ _ ⟨fs, hfs, hu⟩ => ⟨es ++ fs, hadd hfs, hu⟩

theorem bind_get {f : σ → EStateM ε σ β} {R' : β → List Event → Prop} (h : ∀ s, Emits (f s) R' E) :
    Emits (get >>= f) R' E := fun s =>
  Ends.bind_get (h s s)

/-- A change that is none of the events. -/
theorem modify {g : σ → σ} {R : PUnit → List Event → Prop} (hg : ∀ s, events (g s) = events s)
    (h : R ⟨⟩ []) : Emits (modify g : EStateM ε σ PUnit) R E := fun s =>
  ⟨[], (hg s).trans (List.append_nil _).symm, h⟩

theorem lift {x : Except Fault α} {E : Fault → List Event → Prop} (h : ∀ v, R v [])
    (he : ∀ e, E e [] := by intros; trivial) :
    Emits (liftM x : EStateM Fault σ α) R E := by
  intro s
  cases x with
  | ok v => exact ⟨[], (List.append_nil _).symm, h v⟩
  | error e => exact ⟨[], (List.append_nil _).symm, he e⟩

end Emits

section

variable {α β : Type} {R : α → List Event → Prop} {E : Fault → List Event → Prop}

theorem Emits.emit {e : Event} {R : Unit → List Event → Prop} (h : R () [e]) :
    Emits (Machine.emit e) R E := fun _ =>
  ⟨[e], Array.toList_push, h⟩

theorem Emits.onPool {x : PoolM α} (h : ∀ v, R v []) : Emits (Machine.onPool x) R := by
  rintro ⟨pool, front, trace⟩
  simp only [Machine.onPool, Ends]
  cases x pool with
  | ok v q => exact ⟨[], (List.append_nil _).symm, h v⟩
  | error e q => exact ⟨[], (List.append_nil _).symm, trivial⟩

theorem Emits.onShared {x : MachineM α} (h : Emits x R E) : Emits (Shared.onMachine x) R E := by
  rintro ⟨machine, registry⟩
  have hx := h machine
  rw [Ends] at hx ⊢
  simp only [Shared.onMachine]
  split at hx
  next hrun =>
    rw [hrun]
    exact hx
  next hrun =>
    rw [hrun]
    exact hx

theorem Emits.onFilling {x : MachineM α} {E : Halt → List Event → Prop} (h : Emits x R)
    (he : ∀ f es, E (.fault f) es) : Emits (FillM.onMachine x) R E := by
  rintro ⟨machine, taken⟩
  have hx := h machine
  rw [Ends] at hx ⊢
  simp only [FillM.onMachine]
  split at hx
  next hrun =>
    rw [hrun]
    exact hx
  next f m hrun =>
    rw [hrun]
    obtain ⟨es, hes, -⟩ := hx
    exact ⟨es, hes, he f es⟩

end

/-! ## Operations that ask for nothing -/

/-- No frame is asked for. -/
abbrev Mute {ε σ α : Type} [Traced σ] (x : EStateM ε σ α) : Prop := Emits x fun _ es => Silent es

namespace Mute

variable {ε σ α β : Type} [Traced σ]

theorem pure (v : α) : Mute (Pure.pure v : EStateM ε σ α) := Emits.pure silent_nil

theorem throw (e : ε) : Mute (throw e : EStateM ε σ α) := Emits.throw trivial

theorem bind {x : EStateM ε σ α} {f : α → EStateM ε σ β} (h : Mute x) (hf : ∀ v, Mute (f v)) :
    Mute (x >>= f) :=
  Emits.bind h fun v _ hes => (hf v).imp fun _ _ hfs => hes.append hfs

theorem bind_get {f : σ → EStateM ε σ β} (hf : ∀ s, Mute (f s)) : Mute (get >>= f) :=
  Emits.bind_get hf

theorem lift (x : Except Fault α) : Mute (liftM x : EStateM Fault σ α) :=
  Emits.lift fun _ => silent_nil

theorem modify {g : σ → σ} (hg : ∀ s, events (g s) = events s) :
    Mute (modify g : EStateM ε σ PUnit) :=
  Emits.modify hg silent_nil

theorem onPool (x : PoolM α) : Mute (Machine.onPool x) := Emits.onPool fun _ => silent_nil

theorem onShared {x : MachineM α} (h : Mute x) : Mute (Shared.onMachine x) := Emits.onShared h

theorem report (r : Report) : Mute (Machine.report r) := Emits.emit ⟨rfl, rfl⟩

/-- What only takes away asks for nothing. -/
theorem of_fades [Pooled σ] {x : EStateM ε σ α} (h : Fades x) : Mute x := fun s =>
  (h s).mono (fun _ _ ⟨es, hes, hfaded⟩ => ⟨es, hes, hfaded.silent⟩) fun _ _ ⟨es, hes, _⟩ =>
    ⟨es, hes, trivial⟩

end Mute

namespace HandleArray

variable (handles : HandleArray)

theorem get?_mute (i : Nat) : Mute (handles.get? i) := Mute.of_fades (handles.get?_fades i)

theorem store_mute (i : Nat) (f : PageFrame) : Mute (handles.store i f) := by
  cases handles with
  | empty => exact Mute.bind (Mute.report _) fun _ => Mute.pure _
  | inline capacity frames => exact Mute.bind (Mute.lift _) fun _ => Mute.pure _
  | mapped base length backing =>
    rw [store]
    split
    · exact Mute.bind (Mute.lift _) fun b => Mute.bind (Mute.onPool _) fun _ => Mute.pure _
    · exact Mute.throw _

theorem source_mute (count i : Nat) : Mute (handles.source count i) := by
  rw [source]
  split
  · exact handles.get?_mute i
  · exact Mute.pure none

theorem toListFrom_mute (n i : Nat) : Mute (handles.toListFrom n i) := by
  induction n generalizing i with
  | zero => exact Mute.pure []
  | succ n ih =>
    refine Mute.bind (handles.get?_mute i) fun answer => ?_
    cases answer with
    | none => exact Mute.pure []
    | some f => exact Mute.bind (ih (i + 1)) fun _ => Mute.pure _

end HandleArray

/-! ## Operations that ask for frames -/

/-- Frames were handed out only to those who asked, and a poor answer is excused by a frame that was
asked for in vain. -/
def Excused {α : Type} (poor : α → Prop) (v : α) (es : List Event) : Prop :=
  Fair es ∧ (poor v → Short es)

section

variable {ε σ α β : Type} [Traced σ] {x : EStateM ε σ α} {f : α → EStateM ε σ β} {poor : α → Prop}
  {poor' : β → Prop} {v : α} {es fs : List Event}

theorem Fair.excused (h : Fair es) (hv : ¬ poor v) : Excused poor v es := ⟨h, fun hpoor => absurd hpoor hv⟩

theorem Fair.append_excused (h : Fair es) (h' : Excused poor v fs) : Excused poor v (es ++ fs) :=
  ⟨h.append h'.1, fun hpoor => h.append_short (h'.2 hpoor)⟩

theorem Emits.pure_excused (h : ¬ poor v) : Emits (Pure.pure v : EStateM ε σ α) (Excused poor) :=
  Emits.pure (fair_nil.excused h)

theorem Mute.bind_excused (h : Mute x) (hf : ∀ v, Emits (f v) (Excused poor')) :
    Emits (x >>= f) (Excused poor') :=
  Emits.bind h fun v _ hes => (hf v).imp fun _ _ hfs => hes.fair.append_excused hfs

/-- A poor answer excuses whatever comes of it. -/
theorem Emits.bind_excused (h : Emits x (Excused poor))
    (hgood : ∀ v, ¬ poor v → Emits (f v) (Excused poor'))
    (hpoor : ∀ v, poor v → Emits (f v) fun _ fs => Fair fs) : Emits (x >>= f) (Excused poor') := by
  refine Emits.bind h fun v es hes => ?_
  by_cases hv : poor v
  · exact (hpoor v hv).imp fun _ _ hfs => ⟨hes.1.append hfs, fun _ => (hes.2 hv).append_fair hfs⟩
  · exact (hgood v hv).imp fun _ _ hfs => hes.1.append_excused hfs

end

/-- What is answered is what was asked for. -/
theorem Machine.takeFrame_emits (policy : FramePolicy) :
    Emits (Machine.takeFrame policy) (Excused (· = none)) := by
  refine Emits.bind (Emits.emit (R := fun _ es => es = [.requested policy]) rfl) ?_
  rintro _ _ rfl
  refine Emits.bind_get fun m => Emits.bind (Emits.onPool (R := fun _ es => es = []) fun _ => rfl) ?_
  rintro answer _ rfl
  cases answer with
  | none => exact Emits.pure ⟨Nat.zero_le _, fun _ => Nat.zero_lt_one⟩
  | some f =>
    refine Emits.bind (Emits.emit (R := fun _ es => es = [.taken f]) rfl) ?_
    rintro _ _ rfl
    exact Emits.pure ⟨Nat.le_refl 1, nofun⟩

/-- There is no table where there was no frame for it. -/
abbrev NoTable {α : Type} (answer : Except MapError α) : Prop := ∃ e, answer = .error e

namespace Tables

theorem newTable_emits : Emits newTable (Excused NoTable) := by
  refine Emits.bind_excused (Machine.takeFrame_emits .kernel) ?_ ?_
  · rintro (_ | f) hf
    · exact absurd rfl hf
    · exact Mute.bind_excused (Mute.onPool _) fun _ => Emits.pure_excused nofun
  · rintro _ rfl
    exact Emits.pure fair_nil

theorem linkNewTable_emits (t : PageFrame) (i : TableIndex) :
    Emits (linkNewTable t i) (Excused NoTable) := by
  refine Emits.bind_excused newTable_emits ?_ ?_
  · rintro (e | next) hnext
    · exact absurd ⟨e, rfl⟩ hnext
    · exact Mute.bind_excused (Mute.lift _) fun _ => Mute.bind_excused (Mute.onPool _) fun _ =>
        Emits.pure_excused nofun
  · rintro _ ⟨e, rfl⟩
    exact Emits.pure fair_nil

theorem childOrCreate_emits (l : Level) (t : PageFrame) (i : TableIndex) :
    Emits (childOrCreate l t i) (Excused NoTable) := by
  refine Mute.bind_excused (Mute.of_fades (Walk.child_fades l t i)) fun next => ?_
  cases next with
  | none => exact linkNewTable_emits t i
  | table f => exact Emits.pure_excused nofun
  | malformed e => exact Mute.bind_excused (Mute.report _) fun _ => linkNewTable_emits t i

end Tables

/-! ### Fills -/

/-- A fill that ends for want of a table has asked for its frame. -/
def Halted (halt : Halt) (es : List Event) : Prop :=
  ∀ e, halt = .failed e → Excused (· = MapError.noTable) e es

/-- A part of a fill. -/
abbrev Fills {α : Type} (x : FillM α) : Prop := Emits x (fun _ es => Fair es) Halted

namespace Fills

variable {α β : Type}

theorem pure (v : α) : Fills (Pure.pure v : FillM α) := Emits.pure fair_nil

theorem bind {x : FillM α} {f : α → FillM β} (h : Fills x) (hf : ∀ v, Fills (f v)) :
    Fills (x >>= f) :=
  Emits.bind h fun v _ hes => (hf v).mono (fun _ _ hfs => hes.append hfs)
    fun _ _ hfs e he => hes.append_excused (hfs e he)

theorem onMachine {x : MachineM α} (h : Mute x) : Fills (FillM.onMachine x) :=
  Emits.onFilling (h.imp fun _ _ hes => hes.fair) nofun

/-- Parts, one after the other. -/
theorem foldUpTo {l : Level} {visit : Interval → FillM Nat} (h : ∀ part, Fills (visit part))
    {stop : VirtAddr} (n : Nat) (start : VirtAddr) (sum : Nat) :
    Fills (Interval.foldUpTo l stop visit n start sum) := by
  induction n generalizing start sum with
  | zero => exact Fills.pure sum
  | succ n ih => exact Fills.bind (h _) fun k => ih _ _

end Fills

namespace Walk

open Machine Tables

variable {source : FrameSource} {prot : Entry}

theorem nextFrame_fills (hsource : ∀ i, Mute (source i)) : Fills (FillM.nextFrame source) := by
  refine Emits.bind_get fun s => Fills.bind (Fills.onMachine (hsource _)) fun f => ?_
  cases f with
  | none => exact Emits.throw fun e he => fair_nil.excused (by rintro rfl; cases he)
  | some f => exact Fills.bind (Emits.modify (fun _ => rfl) fair_nil) fun _ => Fills.pure f

theorem fillPage_fills (hsource : ∀ i, Mute (source i)) (t : PageFrame) (page : Interval) :
    Fills (fillPage source prot t page) := by
  refine Fills.bind (Fills.onMachine (Mute.bind (Mute.onPool _) fun _ => Mute.pure _)) fun old => ?_
  split
  · refine Fills.bind (nextFrame_fills hsource) fun f => Fills.bind (Fills.onMachine ?_) fun _ =>
      Fills.pure 1
    exact Mute.bind (Mute.lift _) fun _ => Mute.bind (Mute.onPool _) fun _ => Emits.emit ⟨rfl, rfl⟩
  · exact Fills.bind (Fills.onMachine (Mute.report _)) fun _ => Emits.throw nofun

/-- Opening a table, which may be for want of a frame in vain. -/
theorem openTable_fills (l : Level) (t : PageFrame) (i : TableIndex) :
    Fills (do FillM.orFail (← FillM.onMachine (childOrCreate l t i))) := by
  refine Emits.bind (E := Halted) (Emits.onFilling (childOrCreate_emits l t i) nofun) ?_
  rintro (e | next) es hes
  · refine Emits.throw fun e' he' => ?_
    rw [List.append_nil]
    exact ⟨hes.1, fun _ => hes.2 ⟨e, rfl⟩⟩
  · refine Emits.pure ?_
    rw [List.append_nil]
    exact hes.1

theorem fillTable_fills (hsource : ∀ i, Mute (source i)) (l : Level) (t : PageFrame) (r : Interval) :
    Fills (fillTable source prot l t r) := by
  -- a table asks for the frames of the tables below it, and a table of pages for none
  induction l using Level.bottomUp generalizing t r with
  | bottom => exact Fills.foldUpTo (fillPage_fills hsource t) _ _ _
  | step l below hbelow ih =>
    unfold fillTable
    rw [Level.descend_next hbelow]
    refine Fills.foldUpTo (fun part => ?_) _ _ _
    have hopen := Fills.bind (openTable_fills l t (l.index part.start)) fun next => ih next part
    rw [bind_assoc] at hopen
    exact hopen

/-- A fill that ends for want of a table has asked for its frame. -/
theorem fill_emits (hsource : ∀ i, Mute (source i)) (root : PageFrame) (r : Interval) :
    Emits (fill root r prot source 0) (Excused (·.1 = .error .noTable)) := by
  refine Mute.bind_excused (Mute.of_fades (checkAligned_fades r)) fun _ m => ?_
  have hfills : Fills (fillTable source prot .pml4 root r) := fillTable_fills hsource .pml4 root r
  have hfill := hfills ⟨m, 0⟩
  rw [Ends] at hfill ⊢
  rw [FillM.exec]
  rcases hrun : fillTable source prot .pml4 root r ⟨m, 0⟩ with ⟨n, m', k⟩ | ⟨_ | e, m', k⟩
  · rw [hrun] at hfill
    obtain ⟨es, hes, hfair⟩ := hfill
    refine ⟨es, hes, hfair.excused fun he => ?_⟩
    cases he
  · rw [hrun] at hfill
    obtain ⟨es, hes, -⟩ := hfill
    exact ⟨es, hes, trivial⟩
  · rw [hrun] at hfill
    obtain ⟨es, hes, hhalted⟩ := hfill
    obtain ⟨hfair, hshort⟩ := hhalted e rfl
    exact ⟨es, hes, hfair, fun he => hshort (Except.error.inj he)⟩

end Walk

/-! ## Sections -/

namespace Shared

/-- A reservation that finds no place says so. -/
theorem reserveOrWarn_emits (size : UInt64) (kind : AreaKind) (window : Interval) :
    Emits (reserveOrWarn size kind window) fun answer es => Silent es ∧
      ∀ e, answer = .error e → .reported (.noVirtualSpace size) ∈ es := by
  have hreserve : Mute (reserve size kind window) := by
    refine Mute.bind_get fun s => Mute.bind (Mute.lift _) fun answer => ?_
    cases answer with
    | error e => exact Mute.pure _
    | ok found =>
      exact Mute.bind (Mute.modify fun _ => rfl) fun _ =>
        Mute.bind (Mute.onShared (Mute.report _)) fun _ => Mute.pure _
  refine Emits.bind hreserve fun answer es hes => ?_
  cases answer with
  | ok span =>
    refine Emits.pure ⟨?_, nofun⟩
    rwa [List.append_nil]
  | error e =>
    refine Emits.bind (Emits.onShared (Emits.emit (R := fun _ fs =>
      fs = [.reported (.noVirtualSpace size)]) rfl)) ?_
    rintro _ _ rfl
    exact Emits.pure ⟨hes.append ⟨rfl, rfl⟩, fun _ _ => by simp⟩

theorem mappedRange?_mute (x : VirtAddr) : Mute (mappedRange? x) := by
  refine Mute.bind_get fun s => ?_
  split
  · exact Mute.pure none
  · exact Mute.bind (Mute.lift _) fun _ => Mute.pure _

theorem attach_mute (x : VirtAddr) (handles : HandleArray) (pageCount : Nat) :
    Mute (attach x handles pageCount) := by
  refine Mute.bind_get fun s => ?_
  split
  · exact Mute.modify fun _ => rfl
  · exact Mute.onShared (Mute.report _)

theorem framesOf_mute (x : VirtAddr) : Mute (framesOf x) := by
  refine Mute.bind_get fun s => ?_
  split
  · exact Mute.pure _
  · exact Mute.bind (Mute.onShared (HandleArray.toListFrom_mute _ _ _)) fun _ => Mute.pure _

end Shared

/-! ## Routines -/

/-- All that the sections of a routine do to the events so far is to add some, and those that they add
are as `R` says of its answer, whatever others do between two sections. -/
def Says {α : Type} (w : Job α) (R : α → List Event → Prop) : Prop :=
  match w with
  | .done v => R v []
  | .step _ act next => Emits act fun b es => Says (next b) fun v fs => R v (es ++ fs)

/-- A routine that asks for no frame. -/
abbrev Hushed {α : Type} (w : Job α) : Prop := Says w fun _ es => Silent es

section

variable {α β : Type} {w : Job α} {R R' : α → List Event → Prop} {v : α}

theorem Says.pure (h : R v []) : Says (Pure.pure v) R := h

theorem Says.imp (h : Says w R) (hr : ∀ v es, R v es → R' v es) : Says w R' := by
  induction w generalizing R R' with
  | done v => exact hr v [] h
  | step access act next ih => exact Emits.imp h fun b es hb => ih b hb fun v fs => hr v (es ++ fs)

theorem Says.bind {f : α → Job β} {R' : β → List Event → Prop} (h : Says w R)
    (hf : ∀ v es, R v es → Says (f v) fun u fs => R' u (es ++ fs)) : Says (w >>= f) R' := by
  induction w generalizing R R' with
  | done v => exact (hf v [] h).imp fun _ _ hu => hu
  | step access act next ih =>
    refine Emits.imp h fun b es hb => ih b hb fun v fs hv => ?_
    exact (hf v (es ++ fs) hv).imp fun u gs hu => by rwa [← List.append_assoc]

theorem Says.atomically {access : Access} {act : SharedM α} (h : Emits act R) :
    Says (Routine.atomically access act) R :=
  h.imp fun b es hb => by
    change R b (es ++ [])
    rwa [List.append_nil]

theorem Says.onMachine {x : MachineM α} (h : Emits x R) : Says (Allocator.onMachine x) R :=
  Says.atomically (Emits.onShared h)

theorem Hushed.pure (v : α) : Hushed (Pure.pure v) := Says.pure silent_nil

theorem Hushed.bind {f : α → Job β} (h : Hushed w) (hf : ∀ v, Hushed (f v)) : Hushed (w >>= f) :=
  Says.bind h fun v _ hes => (hf v).imp fun _ _ hfs => hes.append hfs

/-- A routine that only takes away asks for nothing. -/
theorem Hushed.of_recedes (h : Recedes w) : Hushed w := by
  induction w with
  | done v => exact silent_nil
  | step access act next ih =>
    exact Emits.imp (Mute.of_fades h.1) fun b es hes => (ih b (h.2 b)).imp fun _ _ hfs =>
      hes.append hfs

end

namespace Allocator

variable {a : Allocator}

/-- Frames are taken until there are enough, or one is asked for in vain. -/
theorem takeFrames_says (policy : FramePolicy) (n i : Nat) (handles : HandleArray) :
    Says (takeFrames policy n i handles) (Excused (·.2 ≠ i + n)) := by
  induction n generalizing i handles with
  | zero => exact Says.pure (fair_nil.excused fun hne => hne rfl)
  | succ n ih =>
    have htake : Emits (takeHandle policy handles i) (Excused (· = none)) := by
      refine Emits.bind_excused (Machine.takeFrame_emits policy) ?_ ?_
      · rintro (_ | f) hf
        · exact absurd rfl hf
        · exact Mute.bind_excused (handles.store_mute i f) fun _ => Emits.pure_excused nofun
      · rintro _ rfl
        exact Emits.pure fair_nil
    refine Says.bind (Says.onMachine htake) ?_
    rintro (_ | handles') es hes
    · refine Says.pure ?_
      rw [List.append_nil]
      exact ⟨hes.1, fun _ => hes.2 rfl⟩
    · refine (ih (i + 1) handles').imp fun answer fs hfs => ?_
      rw [Nat.add_right_comm, Nat.add_assoc] at hfs
      exact hes.1.append_excused hfs

/-- To undo a failed allocation is to give back. -/
theorem unwind_hushed (x : VirtAddr) : Hushed (a.unwind x) := Hushed.of_recedes (unwind_givesBack x).recedes

theorem zeroAll_hushed (list : List PageFrame) :
    Hushed (list.forM fun f => onMachine (Machine.onPool (Pool.zero f))) := by
  induction list with
  | nil => exact Hushed.pure _
  | cons f list ih => exact Hushed.bind (Says.onMachine (Mute.onPool _)) fun _ => ih

theorem arrayIn_hushed (base : VirtAddr) (count : Nat) : Hushed (a.arrayIn base count) := by
  refine Hushed.bind (Says.atomically (Shared.framesOf_mute base)) fun answer => ?_
  cases answer with
  | error e => exact Hushed.bind (unwind_hushed base) fun _ => Hushed.pure _
  | ok backing => exact Hushed.bind (zeroAll_hushed backing) fun _ => Hushed.pure _

end Allocator

end PagedMemory
