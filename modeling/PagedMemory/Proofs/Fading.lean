import Mathlib.Tactic
import PagedMemory.Allocator
import PagedMemory.Proofs.Outcome
import PagedMemory.Proofs.Tree

/-!
# What only takes away

Operations that take something away ask for nothing and write nothing but empty entries. What they do
can therefore be told in whatever state they begin, and whether they end in an answer or in a fault: it
is less than before, and the events say by how many frames.

* `asked`, `given`: how many frames were asked for, and how many were handed out. `Silent`: none.
* `Faded`: what has become of a pool from which something was taken away.
* `Fades`: an operation that only takes away. `Recedes`: the same for routines, section by section.
* `Walk.clear_fades`, `Shared.remove_fades`: unmapping and removing are of this kind.
* `Allocator.GivesBack`: the routines that give back, told by their sections.
  `Allocator.GivesBack.recedes`: they only take away.
-/

namespace PagedMemory

/-! ## Events -/

def Event.isRequest : Event → Bool
  | .requested _ => true
  | _ => false

def Event.isTaking : Event → Bool
  | .taken _ => true
  | _ => false

/-- How many frames were asked for. -/
def asked (es : List Event) : Nat := es.countP Event.isRequest

/-- How many frames were handed out. -/
def given (es : List Event) : Nat := es.countP Event.isTaking

@[simp] theorem asked_append (es fs : List Event) : asked (es ++ fs) = asked es + asked fs :=
  List.countP_append

@[simp] theorem given_append (es fs : List Event) : given (es ++ fs) = given es + given fs :=
  List.countP_append

/-- No frame was asked for. -/
def Silent (es : List Event) : Prop := asked es = 0 ∧ given es = 0

section

variable {es fs : List Event}

theorem silent_nil : Silent [] := ⟨rfl, rfl⟩

theorem Silent.append (h : Silent es) (h' : Silent fs) : Silent (es ++ fs) := by
  rw [Silent, asked_append, given_append, h.1, h.2]
  exact ⟨(Nat.zero_add _).trans h'.1, (Nat.zero_add _).trans h'.2⟩

end

/-- A state that has a part in which the events so far are kept. -/
class Traced (σ : Type) where
  events : σ → List Event

open Traced (events)

instance : Traced Machine := ⟨fun m => m.trace.toList⟩

instance : Traced Filling := ⟨fun s => s.machine.trace.toList⟩

instance : Traced Shared := ⟨fun s => s.machine.trace.toList⟩

/-- A state that has a pool. -/
class Pooled (σ : Type) where
  pool : σ → Pool

open Pooled (pool)

instance : Pooled Machine := ⟨Machine.pool⟩

instance : Pooled Shared := ⟨fun s => s.machine.pool⟩

/-! ## Pools -/

/-- What has become of the pool `p` when some was taken away, as the events `es` tell. -/
structure Faded (p q : Pool) (es : List Event) : Prop where
  silent : Silent es
  /-- no entry of any frame says anything new -/
  entries : ∀ t i, q.entryAt t i = p.entryAt t i ∨ q.entryAt t i = .empty
  /-- the frames that are no longer in use were given back, each once, and no others -/
  frames : ∀ f, es.count (.returned f) + (q.isTaken f).toNat = (p.isTaken f).toNat

section

variable {p q u : Pool} {es fs : List Event} {e : Event} {f t root : PageFrame} {i n : Nat} {l : Level}

/-- Where only words were said, no frame was given back. -/
theorem Faded.refl (hsilent : Silent es) (hes : ∀ f, .returned f ∉ es) : Faded p p es where
  silent := hsilent
  entries _ _ := Or.inl rfl
  frames f := by rw [List.count_eq_zero_of_not_mem (hes f), Nat.zero_add]

theorem Faded.trans (h : Faded p q es) (h' : Faded q u fs) : Faded p u (es ++ fs) where
  silent := h.silent.append h'.silent
  entries t i := (h'.entries t i).elim (fun he => (h.entries t i).imp he.trans he.trans) Or.inr
  frames f := by rw [List.count_append, Nat.add_assoc, h'.frames, h.frames]

/-- An entry was cleared. -/
theorem Faded.withEntry (ht : p.Has t) (k : TableIndex) : Faded p (p.withEntry t k .empty) [] where
  silent := silent_nil
  entries t' j := by
    rw [Pool.entryAt_withEntry ht]
    split
    · exact Or.inr rfl
    · exact Or.inl rfl
  frames f := by rw [Pool.withEntry, Pool.isTaken_rewrite, List.count_nil, Nat.zero_add]

/-- A frame was given back, which was in use. -/
theorem Faded.marked (hf : p.number? f = some i) (htaken : p.isTaken f = true) (free : List Nat) :
    Faded p (p.marked i false free) [.returned f] where
  silent := ⟨rfl, rfl⟩
  entries t k := Or.inl (by rw [Pool.entryAt, Pool.page_marked hf, Pool.entryAt])
  frames g := by
    rw [Pool.isTaken_marked hf]
    by_cases hg : g = f
    · rw [hg, if_pos rfl, htaken, List.count_singleton_self]
      rfl
    · rw [if_neg hg, List.count_eq_zero_of_not_mem, Nat.zero_add]
      rw [List.mem_singleton]
      exact fun he => hg (Event.returned.inj he)

/-- No table has come. -/
theorem Faded.tableOn (h : Faded p q es) (ht : Tables.tableOn q root n l = some t) :
    Tables.tableOn p root n l = some t := by
  induction l using Level.topDown generalizing t with
  | top => exact ht
  | step l below hbelow ih =>
    rw [Tables.tableOn_next hbelow] at ht ⊢
    obtain ⟨above, habove, hbehind⟩ := Option.bind_eq_some_iff.1 ht
    refine Option.bind_eq_some_iff.2 ⟨above, ih habove, ?_⟩
    rcases h.entries above (l.slot n) with hentry | hentry
    · rwa [Tables.behind, ← hentry]
    · -- an entry that was cleared leads nowhere
      rw [Tables.behind, hentry] at hbehind
      cases hbehind

end

/-! ## Operations -/

section

variable {ε σ α β : Type} [Traced σ] [Pooled σ] {x : EStateM ε σ α}

/-- From one state to the other some was taken away, and the events tell what. -/
def Wanes (s s' : σ) : Prop := ∃ es, events s' = events s ++ es ∧ Faded (pool s) (pool s') es

theorem Wanes.refl (s : σ) : Wanes s s :=
  ⟨[], (List.append_nil _).symm, .refl silent_nil fun _ => List.not_mem_nil⟩

theorem Wanes.trans {s t u : σ} (h : Wanes s t) (h' : Wanes t u) : Wanes s u := by
  obtain ⟨es, hes, hfaded⟩ := h
  obtain ⟨fs, hfs, hfaded'⟩ := h'
  exact ⟨es ++ fs, by rw [hfs, hes, List.append_assoc], hfaded.trans hfaded'⟩

/-- The operation only takes away, whichever way it ends. -/
def Fades (x : EStateM ε σ α) : Prop := ∀ s, Ends x s (fun _ t => Wanes s t) fun _ t => Wanes s t

namespace Fades

theorem pure (v : α) : Fades (Pure.pure v : EStateM ε σ α) := fun s => Ends.pure (.refl s)

theorem throw (e : ε) : Fades (throw e : EStateM ε σ α) := fun s => Ends.throw (.refl s)

theorem bind {f : α → EStateM ε σ β} (h : Fades x) (hf : ∀ v, Fades (f v)) : Fades (x >>= f) := by
  intro s
  have hx := h s
  rw [Ends] at hx
  split at hx
  next v t hok =>
    exact Ends.bind_ok hok ((hf v t).mono (fun _ _ hu => hx.trans hu) fun _ _ hu => hx.trans hu)
  next e t herror =>
    have hbind : (x >>= f) s = .error e t := by simp only [Bind.bind, EStateM.bind, herror]
    rw [Ends, hbind]
    exact hx

theorem bind_get {f : σ → EStateM ε σ β} (hf : ∀ s, Fades (f s)) : Fades (get >>= f) := fun s =>
  Ends.bind_get (hf s s)

theorem lift (x : Except Fault α) : Fades (liftM x : EStateM Fault σ α) := by
  intro s
  cases x with
  | ok v => exact Wanes.refl s
  | error e => exact Wanes.refl s

/-- A change that is none of the pool. -/
theorem modify {g : σ → σ} (hevents : ∀ s, events (g s) = events s) (hpool : ∀ s, pool (g s) = pool s) :
    Fades (modify g : EStateM ε σ PUnit) := fun s =>
  ⟨[], (hevents s).trans (List.append_nil _).symm,
    hpool s ▸ .refl silent_nil fun _ => List.not_mem_nil⟩

end Fades

end

namespace Fades

variable {α : Type}

theorem emit {e : Event} (hsilent : Silent [e] := by exact ⟨rfl, rfl⟩)
    (he : ∀ f, e ≠ .returned f := by nofun) : Fades (Machine.emit e) := fun _ =>
  ⟨[e], Array.toList_push, .refl hsilent fun f hf => he f (List.mem_singleton.1 hf).symm⟩

theorem report (r : Report) : Fades (Machine.report r) := emit

/-- An operation of which the pool can tell what it does. -/
theorem onPool {x : PoolM α} (h : ∀ p, Ends x p (fun _ q => Faded p q []) fun _ q => q = p) :
    Fades (Machine.onPool x) := by
  rintro ⟨p, front, trace⟩
  have hx := h p
  simp only [Ends, Machine.onPool] at hx ⊢
  cases hrun : x p with
  | ok v q =>
    rw [hrun] at hx
    exact ⟨[], (List.append_nil _).symm, hx⟩
  | error e q =>
    rw [hrun] at hx
    obtain rfl : q = p := hx
    exact Wanes.refl _

/-- A look at memory. -/
theorem word (t : PageFrame) (i : TableIndex) : Fades (Machine.onPool (Pool.word t i)) := by
  refine onPool fun p => Ends.bind_get ?_
  split
  · exact Ends.pure (.refl silent_nil fun _ => List.not_mem_nil)
  · exact Ends.throw rfl

theorem onShared {x : MachineM α} (h : Fades x) : Fades (Shared.onMachine x) := by
  rintro ⟨machine, registry⟩
  have hx := h machine
  rw [Ends] at hx ⊢
  simp only [Shared.onMachine]
  split at hx
  next hrun =>
    rw [hrun]
    exact hx
  next hrun =>
    rw [hrun]
    exact hx

end Fades

theorem Tables.entry_fades (t : PageFrame) (i : TableIndex) : Fades (entry t i) :=
  Fades.bind (Fades.word t i) fun _ => Fades.pure _

theorem Tables.clearEntry_fades (t : PageFrame) (i : TableIndex) : Fades (setEntry t i .empty) := by
  refine Fades.onPool (x := Pool.setWord t i Entry.empty.bits) fun p => ?_
  refine Ends.bind (Q := fun k q => q = p ∧ p.number? t = some k) ?_ ?_
  · refine Ends.bind_get ?_
    cases hindex : p.indexOf? t.base with
    | none => exact Ends.throw rfl
    | some k =>
      refine Ends.pure ⟨rfl, ?_⟩
      rw [Pool.number?, hindex]
      rfl
  · rintro k _ ⟨rfl, hk⟩
    have hfaded := Faded.withEntry ⟨k, hk⟩ i
    rwa [Pool.withEntry, Pool.rewrite_eq hk] at hfaded

/-- A frame is marked as free, or nothing is done. -/
theorem Pool.giveBack_marks (f : PageFrame) (p : Pool) :
    Ends (giveBack f) p
      (fun _ q => ∃ i free, p.number? f = some i ∧ p.isTaken f = true ∧ q = p.marked i false free)
      fun _ q => q = p := by
  refine Ends.bind_get ?_
  cases hindex : p.indexOf? f.base with
  | none => exact Ends.throw rfl
  | some i =>
    dsimp only
    split
    next hused =>
      refine ⟨i, i.val :: p.free, ?_, ?_, rfl⟩
      · rw [Pool.number?, hindex]
        rfl
      · rw [Pool.isTaken, hindex]
        exact hused
    next => exact Ends.throw rfl

/-- A frame that is given back is one that was in use, and the events say so. -/
theorem Machine.returnFrame_fades (f : PageFrame) : Fades (returnFrame f) := by
  rintro ⟨p, front, trace⟩
  have hback := Pool.giveBack_marks f p
  rw [Ends] at hback
  simp only [returnFrame, bind, EStateM.bind, Ends, liftM, monadLift, MonadLift.monadLift, Machine.onPool]
  cases hrun : Pool.giveBack f p with
  | ok v q =>
    rw [hrun] at hback
    obtain ⟨i, free, hf, htaken, rfl⟩ := hback
    exact ⟨[.returned f], Array.toList_push, .marked hf htaken free⟩
  | error e q =>
    rw [hrun] at hback
    obtain rfl : q = p := hback
    exact Wanes.refl _

/-! ### Unmapping -/

/-- To read a handle takes nothing away at all. -/
theorem HandleArray.get?_fades (handles : HandleArray) (i : Nat) : Fades (handles.get? i) := by
  cases handles with
  | empty => exact Fades.pure none
  | inline frames => exact Fades.pure _
  | mapped base length backing =>
    rw [get?]
    split
    · exact Fades.bind (Fades.lift _) fun f => Fades.bind (Fades.word _ _) fun w => Fades.lift _
    · exact Fades.pure none

namespace Walk

open Tables

theorem foldUpTo_fades {l : Level} {visit : Interval → MachineM Nat} (h : ∀ part, Fades (visit part))
    {stop : VirtAddr} (n : Nat) (start : VirtAddr) (sum : Nat) :
    Fades (Interval.foldUpTo l stop visit n start sum) := by
  induction n generalizing start sum with
  | zero => exact Fades.pure sum
  | succ n ih => exact Fades.bind (h _) fun k => ih _ _

theorem child_fades (l : Level) (t : PageFrame) (i : TableIndex) : Fades (child l t i) := by
  have hread : Fades (do return (← entry t i).child : MachineM Child) :=
    Fades.bind (entry_fades t i) fun _ => Fades.pure _
  rw [child]
  split
  · exact Fades.bind (Fades.throw _) fun _ => hread
  · exact hread

theorem clearPage_fades (t : PageFrame) (page : Interval) : Fades (clearPage t page) := by
  rw [clearPage]
  refine Fades.bind (entry_fades t _) fun old => ?_
  split
  · exact Fades.pure 0
  refine Fades.bind (clearEntry_fades t _) fun _ => ?_
  split
  · exact Fades.bind Fades.emit fun _ => Fades.pure 1
  · exact Fades.bind (Fades.report _) fun _ => Fades.pure 0

theorem clearTable_fades (l : Level) (t : PageFrame) (r : Interval) : Fades (clearTable l t r) := by
  induction l using Level.bottomUp generalizing t r with
  | bottom => exact foldUpTo_fades (clearPage_fades t) _ _ _
  | step l below hbelow ih =>
    unfold clearTable
    rw [Level.descend_next hbelow]
    refine foldUpTo_fades (fun part => ?_) _ _ _
    refine Fades.bind (child_fades l t _) fun next => ?_
    cases next with
    | none => exact Fades.pure 0
    | table f => exact ih f part
    | malformed e =>
      exact Fades.bind (Fades.report _) fun _ => Fades.bind (clearEntry_fades t _) fun _ => Fades.pure 0

theorem checkAligned_fades (r : Interval) : Fades (checkAligned r) := by
  rw [checkAligned]
  split
  · exact Fades.pure ()
  · exact Fades.throw _

theorem clear_fades (root : PageFrame) (r : Interval) : Fades (clear root r) :=
  Fades.bind (checkAligned_fades r) fun _ => clearTable_fades .pml4 root r

end Walk

theorem Shared.remove_fades (root : PageFrame) (x : VirtAddr) : Fades (Shared.remove root x) := by
  refine Fades.bind_get fun s => ?_
  split
  · exact Fades.pure _
  next area others hfound =>
    refine Fades.bind (Fades.lift _) fun stop => Fades.bind (Fades.onShared ?_) fun _ =>
      Fades.bind (Fades.modify (fun _ => rfl) fun _ => rfl) fun _ => Fades.pure _
    exact Fades.bind Fades.emit fun _ => Fades.bind (Walk.clear_fades root _) fun _ =>
      Fades.bind Fades.emit fun _ => Fades.report _

/-! ## Routines -/

/-- A routine of which each section only takes away. -/
def Recedes {α : Type} (w : Job α) : Prop :=
  match w with
  | .done _ => True
  | .step _ act next => Fades act ∧ ∀ b, Recedes (next b)

/-- What a client that is alone finds taken away. -/
theorem Recedes.run {α : Type} {w : Job α} {s s' : Shared} {v : α} (h : Recedes w)
    (hrun : w.run s = .ok v s') : Wanes s s' := by
  induction w generalizing s with
  | done u =>
    obtain ⟨rfl, rfl⟩ := EStateM.Result.ok.inj hrun
    exact .refl _
  | step access act next ih =>
    have hact := h.1 s
    rw [Ends] at hact
    rw [Routine.run] at hrun
    split at hact
    next b t hok =>
      rw [hok] at hrun
      exact hact.trans (ih b (h.2 b) hrun)
    next e t herror =>
      rw [herror] at hrun
      cases hrun

/-! ### Giving back -/

namespace Allocator

variable {a : Allocator}

/-- The sections of which all routines consist that give back. -/
inductive Retires (a : Allocator) : {β : Type} → SharedM β → Prop
  | frame (handles : HandleArray) (i : Nat) : Retires a (Shared.onMachine (returnHandle handles i))
  | area (x : VirtAddr) : Retires a (Shared.remove a.root x)
  | report (r : Report) : Retires a (Shared.onMachine (Machine.report r))
  /-- an address at which no area can start -/
  | refusal (r : Report) (e : Fault) :
    Retires a (Shared.onMachine (do Machine.report r; throw e : MachineM Unit))

/-- The routine consists of such sections. -/
def GivesBack {α : Type} (a : Allocator) (w : Job α) : Prop :=
  match w with
  | .done _ => True
  | .step _ act next => a.Retires act ∧ ∀ b, a.GivesBack (next b)

namespace GivesBack

variable {α β : Type} {w : Job α}

theorem pure (v : α) : a.GivesBack (Pure.pure v) := trivial

theorem bind {f : α → Job β} (h : a.GivesBack w) (hf : ∀ v, a.GivesBack (f v)) :
    a.GivesBack (w >>= f) := by
  induction w with
  | done v => exact hf v
  | step access act next ih => exact ⟨h.1, fun b => ih b (h.2 b)⟩

theorem atomically {access : Access} {act : SharedM α} (h : a.Retires act) :
    a.GivesBack (Routine.atomically access act) := ⟨h, fun _ => trivial⟩

theorem report (r : Report) : a.GivesBack (onMachine (Machine.report r)) := atomically (.report r)

end GivesBack

theorem returnFrames_givesBack (handles : HandleArray) (n i : Nat) :
    a.GivesBack (returnFrames handles n i) := by
  induction n generalizing i with
  | zero => exact .pure ()
  | succ n ih =>
    refine .bind (.atomically (.frame handles i)) fun more => ?_
    split
    · exact ih (i + 1)
    · exact .pure ()

theorem removeArea_givesBack (x : VirtAddr) : a.GivesBack (a.removeArea x) := .atomically (.area x)

theorem release_givesBack (n : Nat) (area : Area) : a.GivesBack (a.release n area) := by
  induction n generalizing area with
  | zero => exact .pure ()
  | succ n ih =>
    rw [release]
    refine .bind (returnFrames_givesBack _ _ _) fun _ => ?_
    split
    next base hbase =>
      refine .bind (removeArea_givesBack base) fun answer => ?_
      cases answer with
      | ok removed => exact .bind (ih removed.area) fun _ => .report _
      | error e => exact .bind (.report _) fun _ => .report _
    · exact .report _

theorem tearDown_givesBack (x : VirtAddr) : a.GivesBack (a.tearDown x) := by
  refine .bind (removeArea_givesBack x) fun answer => ?_
  cases answer with
  | error e => exact .pure _
  | ok removed => exact .bind (release_givesBack _ _) fun _ => .pure _

theorem detach_givesBack (x : VirtAddr) : a.GivesBack (a.detach x) := by
  refine .bind (removeArea_givesBack x) fun answer => ?_
  cases answer <;> exact .pure _

/-- To undo a failed allocation is to give back. -/
theorem unwind_givesBack (x : VirtAddr) : a.GivesBack (a.unwind x) := by
  refine .bind (tearDown_givesBack x) fun answer => ?_
  cases answer with
  | error e => exact .report _
  | ok done => exact .pure _

theorem checkStart_givesBack (call : ReleaseCall) (x : VirtAddr) : a.GivesBack (checkStart call x) := by
  rw [checkStart]
  split
  · exact .pure ()
  · exact .atomically (.refusal _ _)

theorem reportUnknown_givesBack (call : ReleaseCall) (x : VirtAddr) (answer : Except AllocError Unit) :
    a.GivesBack (reportUnknown call x answer) := by
  cases answer with
  | ok done => exact .pure ()
  | error e => exact .report _

theorem free_givesBack (x : VirtAddr) : a.GivesBack (a.free x) := by
  rw [free]
  split
  · exact .bind (checkStart_givesBack _ x) fun _ =>
      .bind (tearDown_givesBack x) fun _ => reportUnknown_givesBack _ x _
  · exact .pure ()

theorem unmapFrames_givesBack (x : VirtAddr) : a.GivesBack (a.unmapFrames x) :=
  .bind (checkStart_givesBack _ x) fun _ =>
    .bind (detach_givesBack x) fun _ => reportUnknown_givesBack _ x _

theorem unmapDevice_givesBack (x : VirtAddr) : a.GivesBack (a.unmapDevice x) :=
  .bind (detach_givesBack x.pageBase) fun _ => reportUnknown_givesBack _ x _

/-! ### What giving back takes away -/

theorem returnHandle_fades (handles : HandleArray) (i : Nat) : Fades (returnHandle handles i) := by
  refine Fades.bind (handles.get?_fades i) fun answer => ?_
  cases answer with
  | none => exact Fades.pure false
  | some f => exact Fades.bind (Machine.returnFrame_fades f) fun _ => Fades.pure true

theorem Retires.fades {β : Type} {act : SharedM β} (h : a.Retires act) : Fades act := by
  cases h with
  | frame handles i => exact Fades.onShared (returnHandle_fades handles i)
  | area x => exact Shared.remove_fades a.root x
  | report r => exact Fades.onShared (Fades.report r)
  | refusal r e => exact Fades.onShared (Fades.bind (Fades.report r) fun _ => Fades.throw e)

/-- Whatever is given back, nothing is asked for and nothing is built. -/
theorem GivesBack.recedes {α : Type} {w : Job α} (h : a.GivesBack w) : Recedes w := by
  induction w with
  | done v => exact trivial
  | step access act next ih => exact ⟨h.1.fades, fun b => ih b (h.2 b)⟩

end Allocator

end PagedMemory
