import Mathlib.Tactic
import PagedMemory.Proofs.Building
import PagedMemory.Proofs.Demand

/-!
# What the parts of allocations ask for

Each part of an allocation is looked at by itself: what it asks for, and which frames it takes and
writes to. Then a client is looked at that is alone, so that its parts follow one another in one run.

* `Shared.wishes`: the requests so far.
* `Asks.done`: what is known of an operation on all states that show the same, in one of them.
* `Allocator.takeFrames_asks`: one request for each frame, up to the first that cannot be had.
* `Allocator.arrayIn_asks`: the frames of an array are cleared, and nothing is asked for.
* `Allocator.mapArea_asks`, `Allocator.mapHandles_asks`: the pages of an area ask for their tables.
* `Solo`: what a routine comes to for a client that is alone, told with its estate and its events.
* `Solo.of_recounts`, `Solo.and_done`: what is known of a routine among others, and of what it asks for.
-/

namespace PagedMemory

open Layout Tables
open Traced (events)

variable {α β : Type}

/-- The requests so far, the oldest first. -/
def Shared.wishes (s : Shared) : List FramePolicy := requests (events s)

/-- The state as the ledger shows it. -/
abbrev Shared.shown (s : Shared) : Pool × List FramePolicy := (s.machine.pool, s.wishes)

/-! ## Parts of allocations -/

section

variable {p : Pool} {rs : List FramePolicy} {t : Pool × List FramePolicy} {handles : HandleArray}

theorem Asks.run_onMachine {x : MachineM α} {Q : α → Pool × List FramePolicy → Prop}
    (h : Asks x t Q) : Asks (Allocator.onMachine x).run t Q :=
  Runs.run_atomically (Asks.onShared h)

/-- What is known of an operation in every state that shows the same, in one of them. -/
theorem Asks.done {x : SharedM α} {s : Shared} {Q : α → Pool × List FramePolicy → Prop}
    (h : Asks x s.shown Q) : IfDone x s fun v t => Q v t.shown :=
  (h s rfl rfl).mono (fun _ _ hq => hq.2) fun _ _ _ => trivial

/-- What a client that is alone hears. -/
theorem Says.run_done {w : Job α} {R : α → List Event → Prop} (h : Says w R) (s : Shared) :
    IfDone w.run s fun v t => ∃ es, events t = events s ++ es ∧ R v es := by
  induction w generalizing s R with
  | done v => exact ⟨[], (List.append_nil _).symm, h⟩
  | step access act next ih =>
    rw [Routine.run_step]
    refine Ends.bind ((h s).mono (fun _ _ hq => hq) fun _ _ _ => trivial) ?_
    rintro b t ⟨es, hes, hnext⟩
    refine (ih b hnext t).mono ?_ fun _ _ _ => trivial
    rintro v u ⟨fs, hfs, hv⟩
    exact ⟨es ++ fs, by rw [hfs, hes, List.append_assoc], hv⟩

/-- A routine that asks for no frame. -/
theorem Asks.of_hushed {w : Job α} (h : Hushed w) : Asks w.run t fun _ u => u.2 = t.2 := by
  intro s hs _
  refine (h.run_done s).mono ?_ fun _ _ _ => ⟨rfl, trivial⟩
  rintro v u ⟨es, hes, hsilent⟩
  refine ⟨rfl, ?_⟩
  rw [← hs]
  change requests (events u) = requests (events s)
  rw [hes, requests_append, hsilent.requests_eq, List.append_nil]

end

namespace Allocator

variable {a : Allocator} {p : Pool} {rs : List FramePolicy} {handles : HandleArray}

theorem takeHandle_asks (hp : p.Sound) (policy : FramePolicy) (handles : HandleArray) (i : Nat) :
    Asks (takeHandle policy handles i) (p, rs) fun answer t =>
      p.Draws handles.backing (policy.accepts · = true) t.1 ∧ t.2 = rs ++ [policy] ∧
        ∀ handles', answer = some handles' → handles'.backing = handles.backing := by
  refine Runs.bind (Machine.takeFrame_asks hp policy handles.backing) ?_
  rintro answer ⟨q, _⟩ ⟨hq, rfl⟩
  cases answer with
  | none => exact Runs.pure ⟨hq, rfl, nofun⟩
  | some f =>
    refine Runs.bind (HandleArray.store_asks hq.sound handles i f) ?_
    rintro handles' ⟨u, _⟩ ⟨⟨hu, hbacking⟩, rfl⟩
    refine Runs.pure ⟨hq.trans (hu.draws fun _ hf => hf), rfl, ?_⟩
    rintro _ ⟨⟩
    exact hbacking

/-- As many frames are asked for as are to be taken, or fewer if one cannot be had. -/
theorem takeFrames_asks (hp : p.Sound) (policy : FramePolicy) (n i : Nat) (handles : HandleArray) :
    Asks (takeFrames policy n i handles).run (p, rs) fun answer t =>
      p.Draws handles.backing (policy.accepts · = true) t.1 ∧
        ∃ k ≤ n, t.2 = rs ++ List.replicate k policy ∧ (answer.2 = i + n → k = n) := by
  induction n generalizing p rs i handles with
  | zero => exact Runs.pure ⟨.refl hp, 0, Nat.le_refl 0, (List.append_nil rs).symm, fun _ => rfl⟩
  | succ n ih =>
    refine Runs.run_bind (Asks.run_onMachine (takeHandle_asks hp policy handles i)) ?_
    rintro answer ⟨q, _⟩ ⟨hq, rfl, hbacking⟩
    cases answer with
    | none =>
      refine Runs.pure ⟨hq, 1, Nat.succ_le_succ (Nat.zero_le n), rfl, fun he => ?_⟩
      simp only at he
      omega
    | some handles' =>
      refine Runs.imp (ih hq.sound (i + 1) handles') ?_
      rintro answer ⟨u, _⟩ ⟨hu, k, hk, rfl, hall⟩
      rw [hbacking handles' rfl] at hu
      refine ⟨hq.trans hu, k + 1, Nat.succ_le_succ hk, ?_, fun he => ?_⟩
      · rw [List.append_assoc, List.replicate_succ]
        rfl
      · rw [hall (by omega)]

/-- Frames are cleared, and nothing is asked for. -/
theorem zeroAll_asks (list : List PageFrame) :
    Asks (list.forM fun f => onMachine (Machine.onPool (Pool.zero f))).run (p, rs) fun _ t =>
      t.2 = rs ∧ (p.Sound → p.Draws list (fun _ => False) t.1) ∧
        ∀ f, f ∈ list ∨ p.page f = Page.zero → t.1.page f = Page.zero := by
  induction list generalizing p with
  | nil =>
    refine Runs.pure ⟨rfl, fun hp => .refl hp, fun f hf => ?_⟩
    exact hf.resolve_left List.not_mem_nil
  | cons f list ih =>
    refine Runs.run_bind (Asks.run_onMachine (Asks.onPool (Pool.zero_done f p))) ?_
    rintro _ ⟨_, _⟩ ⟨⟨rfl, i, hi⟩, rfl⟩
    refine Runs.imp ih ?_
    rintro _ ⟨u, _⟩ ⟨rfl, hdraws, hzero⟩
    refine ⟨rfl, fun hp => ?_, fun g hg => hzero g ?_⟩
    · have hfirst : p.Draws (f :: list) (fun _ => False) (p.rewrite f fun _ => Page.zero) :=
        (Pool.Wrote.rewrite hp List.mem_cons_self).draws fun _ hmem => hmem
      exact hfirst.trans ((hdraws hp.rewrite).mono fun _ hmem => List.mem_cons_of_mem f hmem)
    · by_cases hgf : g = f
      · rw [hgf]
        exact Or.inr (Pool.page_rewrite_self hi)
      · rw [Pool.page_rewrite_of_ne hgf]
        exact hg.imp_left fun hmem => (List.mem_cons.1 hmem).resolve_left hgf

end Allocator

namespace Shared

variable {p : Pool} {rs : List FramePolicy}

theorem reserveOrWarn_asks (size : UInt64) (kind : AreaKind) (window : Interval) :
    Asks (reserveOrWarn size kind window) (p, rs) fun _ t => t = (p, rs) := by
  have hreserve : Asks (reserve size kind window) (p, rs) fun _ t => t = (p, rs) := by
    refine Runs.bind_get fun s _ _ => ?_
    rcases s.registry.reserve size kind window with fault | e | ⟨span, registry⟩
    · exact Runs.bind_lift_error rfl trivial
    · exact Runs.bind_lift rfl (Runs.pure rfl)
    · refine Runs.bind_lift rfl (Runs.bind_modify (fun _ hs => ⟨hs, rfl⟩) ?_)
      refine Runs.bind (Asks.onShared (Asks.report (Q := fun _ t => t = (p, rs)) rfl)) ?_
      rintro _ _ rfl
      exact Runs.pure rfl
  refine Runs.bind hreserve ?_
  rintro answer _ rfl
  cases answer with
  | ok span => exact Runs.pure rfl
  | error e =>
    refine Runs.bind (Asks.onShared (Asks.report (Q := fun _ t => t = (p, rs)) rfl)) ?_
    rintro _ _ rfl
    exact Runs.pure rfl

/-- What is reserved is told. -/
theorem reserveOrWarn_tells (size : UInt64) (kind : AreaKind) (window : Interval) :
    Emits (reserveOrWarn size kind window) fun answer es => Silent es ∧
      ∀ span, answer = .ok span → .reported (.reserved span) ∈ es := by
  have hreserve : Emits (reserve size kind window) fun answer es => Silent es ∧
      ∀ span, answer = .ok span → .reported (.reserved span) ∈ es := by
    refine Emits.bind_get fun s => Emits.bind (Mute.lift _) fun found es hes => ?_
    rcases found with e | ⟨span, registry⟩
    · refine Emits.pure ⟨?_, nofun⟩
      rwa [List.append_nil]
    · refine Emits.bind (Mute.modify fun _ => rfl) fun _ fs hfs => ?_
      refine Emits.bind (Emits.onShared (Emits.emit (R := fun _ gs =>
        gs = [.reported (.reserved span)]) rfl)) ?_
      rintro _ _ rfl
      refine Emits.pure ⟨hes.append (hfs.append ⟨rfl, rfl⟩), ?_⟩
      rintro _ ⟨⟩
      simp
  refine Emits.bind hreserve fun answer es hes => ?_
  cases answer with
  | ok span =>
    refine Emits.pure ?_
    rwa [List.append_nil]
  | error e =>
    refine Emits.bind (Emits.onShared (Mute.report _)) fun _ fs hfs => Emits.pure ⟨?_, nofun⟩
    exact hes.1.append (hfs.append silent_nil)

theorem attach_asks (x : VirtAddr) (handles : HandleArray) (pageCount : Nat) :
    Asks (attach x handles pageCount) (p, rs) fun _ t => t = (p, rs) := by
  refine Runs.bind_get fun s _ _ => ?_
  split
  · exact Runs.modify (fun _ hs => ⟨hs, rfl⟩) rfl
  · exact Asks.onShared (Asks.report rfl)

theorem framesOf_asks (x : VirtAddr) :
    Asks (framesOf x) (p, rs) fun _ t => t = (p, rs) := by
  refine Runs.bind_get fun s _ _ => ?_
  split
  · exact Runs.pure rfl
  · refine Runs.bind (Asks.onShared (HandleArray.toListFrom_asks _ _ _)) ?_
    rintro _ _ rfl
    exact Runs.pure rfl

end Shared

theorem HandleArray.source_passive (handles : HandleArray) (count : Nat) :
    Walk.Passive (handles.source count) := by
  intro i p rs
  rw [source]
  split
  · exact handles.get?_asks i
  · exact Runs.pure rfl

/-- The frames of an array are cleared, whatever was in them. -/
theorem Allocator.arrayIn_asks {a : Allocator} {p : Pool} {rs : List FramePolicy} (base : VirtAddr)
    (count : Nat) :
    Asks (a.arrayIn base count).run (p, rs) fun answer t => t.2 = rs ∧
      ∀ handles, answer = .ok handles →
        (p.Sound → p.Draws handles.backing (fun _ => False) t.1) ∧
        ∀ f ∈ handles.backing, t.1.page f = Page.zero := by
  refine Runs.run_bind (Runs.run_atomically (Shared.framesOf_asks base)) ?_
  rintro answer _ rfl
  cases answer with
  | error e =>
    refine Runs.run_bind (Asks.of_hushed (unwind_hushed base)) ?_
    rintro _ u hu
    exact Runs.pure ⟨hu, nofun⟩
  | ok backing =>
    refine Runs.run_bind (zeroAll_asks backing) ?_
    rintro _ u ⟨hu, hdraws, hzero⟩
    refine Runs.pure ⟨hu, ?_⟩
    rintro _ ⟨⟩
    exact ⟨hdraws, fun f hf => hzero f (Or.inl hf)⟩

/-! ## Mapping -/

/-- The pages of an area, its guard page left out. -/
def Span.pageSet (s : Span) : Finset Nat := .Ico s.firstPage (s.firstPage + s.pages)

theorem Span.mem_pageSet {s : Span} {n : Nat} : n ∈ s.pageSet ↔ s.Covers n := Finset.mem_Ico

theorem Span.Within.lt_of_mem_pageSet {span : Span} {b n : Nat} (h : span.Within b)
    (hn : n ∈ span.pageSet) : n < 512 ^ 4 :=
  h.covers_lt (Span.mem_pageSet.1 hn)

theorem Span.card_pageSet (s : Span) : s.pageSet.card = s.pages := by
  rw [pageSet, Nat.card_Ico, Nat.add_sub_cancel_left]

section

variable {a : Allocator} {s t : Shared} {own others : Estate} {area : Area} {prot : Entry}
  {handles : HandleArray} {count obtained : Nat}

/-- An operation of which nothing is known. -/
theorem IfDone.trivial {σ : Type} (x : EStateM Fault σ α) (s : σ) : IfDone x s fun _ _ => True := by
  rw [IfDone, Ends]
  split <;> exact True.intro

/-- What a client that is alone finds done, one routine after the other. -/
theorem IfDone.run_bind {w : Job α} {f : α → Job β} {Q : α → Shared → Prop} {R : β → Shared → Prop}
    (h : IfDone w.run s Q) (hf : ∀ v t, Q v t → IfDone (f v).run t R) : IfDone (w >>= f).run s R := by
  have hrun : (w >>= f).run = EStateM.bind w.run fun v => (f v).run := funext (Routine.run_bind w f)
  rw [hrun]
  exact Ends.bind h hf

/-- The pages of an area ask for the tables that they lack. -/
theorem Allocator.mapArea_asks (hbooks : Books a s.machine.pool s.registry own)
    (harea : area ∈ s.registry.areas) {source : FrameSource} (hsource : Walk.Passive source) :
    IfDone (a.mapArea area.address prot source).run s fun answer t =>
      Provided a.root area.pageSet s.shown t.shown (∃ u, answer.1 = .ok u) := by
  obtain ⟨range, hrange, hpages⟩ := Shared.mappedRange?_eq hbooks harea
  have hlook : IfDone (Routine.atomically .shared (Shared.mappedRange? area.address)).run s
      fun answer t => answer = some range ∧ t = s := by
    refine Ends.of_ok ?_ ⟨rfl, rfl⟩
    rw [Routine.run_atomically, hrange]
  refine IfDone.run_bind hlook ?_
  rintro _ _ ⟨rfl, rfl⟩
  refine IfDone.run_bind (Asks.done (Asks.run_onMachine
    (Walk.fill_asks hsource hbooks.pool hbooks.tables.held hpages))) ?_
  rintro ⟨answer, taken⟩ t ht
  cases answer with
  | error e => exact Ends.pure (ht.imp fun hdone => absurd hdone not_ok_of_error)
  | ok count =>
    refine IfDone.run_bind (Asks.done (Asks.run_onMachine
      (Asks.emit (Q := fun _ u => u = t.shown) rfl rfl))) ?_
    rintro _ u hu
    refine Ends.pure ?_
    rw [hu]
    exact ht.imp fun _ => ⟨count, rfl⟩

/-- The frames that could be had are mapped if there are enough. -/
theorem Allocator.mapHandles_asks (hbooks : Books a s.machine.pool s.registry own)
    (harea : area ∈ s.registry.areas) :
    IfDone (a.mapHandles area.address prot handles count obtained).run s fun answer t =>
      Provided a.root area.pageSet s.shown t.shown (∃ u, answer = .ok u) ∧
        (obtained ≠ count → t.wishes = s.wishes ∧ ∃ e, answer = .error e) := by
  rw [mapHandles]
  split
  next hcount =>
    refine IfDone.run_bind (mapArea_asks hbooks harea (handles.source_passive count)) ?_
    rintro answer t ht
    exact Ends.pure ⟨ht, fun hne => absurd hcount hne⟩
  next hcount =>
    refine IfDone.run_bind (Asks.done (Asks.run_onMachine
      (Asks.report (Q := fun _ u => u = s.shown) rfl))) ?_
    rintro _ t ht
    refine Ends.pure ⟨?_, fun _ => ⟨(Prod.mk.inj ht).2, _, rfl⟩⟩
    rw [ht]
    exact .of_falls .refl not_ok_of_error

end

/-! ## Routines of a client that is alone -/

/-- What a routine comes to for a client that is alone and owns `own`: an answer, an estate, a state and
the events as `Q` says. -/
def Solo (a : Allocator) (others : Estate) (w : Job α) (own : Estate) (s : Shared)
    (Q : α → Estate → Shared → List Event → Prop) : Prop :=
  Books a s.machine.pool s.registry (own ++ others) →
    ∃ v t es, w.run s = .ok v t ∧ events t = events s ++ es ∧ ∃ mine,
      Passes a .strict s.machine.pool others mine (Shared.noted.shown t) ∧ Q v mine t es

namespace Solo

variable {a : Allocator} {others own : Estate} {w : Job α} {s t : Shared}
  {Q Q' : α → Estate → Shared → List Event → Prop} {v : α}

theorem pure (h : Q v own s []) : Solo a others (Pure.pure v) own s Q := fun hbooks =>
  ⟨v, s, [], rfl, (List.append_nil _).symm, own, ⟨hbooks, .refl, nofun⟩, h⟩

theorem imp (h : Solo a others w own s Q)
    (hq : ∀ v e t es, Books a t.machine.pool t.registry (e ++ others) → Q v e t es → Q' v e t es) :
    Solo a others w own s Q' := by
  intro hbooks
  obtain ⟨v, t, es, hrun, hes, mine, hpasses, hv⟩ := h hbooks
  exact ⟨v, t, es, hrun, hes, mine, hpasses, hq v mine t es hpasses.books hv⟩

theorem bind {f : α → Job β} {R : β → Estate → Shared → List Event → Prop}
    (h : Solo a others w own s Q)
    (hf : ∀ v e t es, Books a t.machine.pool t.registry (e ++ others) → Q v e t es →
      Solo a others (f v) e t fun u e' t' fs => R u e' t' (es ++ fs)) :
    Solo a others (w >>= f) own s R := by
  intro hbooks
  obtain ⟨v, t, es, hrun, hes, mine, hpasses, hv⟩ := h hbooks
  obtain ⟨u, t', fs, hrun', hfs, mine', hpasses', hu⟩ :=
    hf v mine t es hpasses.books hv hpasses.books
  refine ⟨u, t', es ++ fs, ?_, by rw [hfs, hes, List.append_assoc], mine', hpasses.trans hpasses', hu⟩
  rw [Routine.run_bind]
  simp only [EStateM.bind, hrun]
  exact hrun'

/-- What a routine does among others, it does when it is alone. -/
theorem of_recounts {P : α → Estate → Pool → List Event → Prop}
    (h : Recounts a .strict (· = s.machine.stated) w own s.machine.pool P) :
    Solo a others w own s fun v e t es => P v e t.machine.pool es := fun hbooks =>
  h.answers nofun hbooks nofun

/-- What is done, and what is asked for. -/
theorem and_done {R : α → Shared → Prop} (h : Solo a others w own s Q)
    (hw : Books a s.machine.pool s.registry (own ++ others) → IfDone w.run s R) :
    Solo a others w own s fun v e t es =>
      Q v e t es ∧ R v t ∧ t.wishes = s.wishes ++ requests es := by
  intro hbooks
  obtain ⟨v, t, es, hrun, hes, mine, hpasses, hv⟩ := h hbooks
  refine ⟨v, t, es, hrun, hes, mine, hpasses, hv, (hw hbooks).of_eq_ok hrun, ?_⟩
  rw [Shared.wishes, hes, requests_append]
  rfl

/-- Likewise next to an estate that the routine leaves alone. -/
theorem frame (extra : Estate) (h : Solo a (extra ++ others) w own s Q) :
    Solo a others w (own ++ extra) s fun v e t es =>
      ∃ mine, e = mine ++ extra ∧ Q v mine t es ∧ Spares a extra s.machine.pool t.machine.pool := by
  intro hbooks
  obtain ⟨v, t, es, hrun, hes, mine, hpasses, hv⟩ := h (Books.assoc.1 hbooks)
  exact ⟨v, t, es, hrun, hes, mine ++ extra,
    ⟨Books.assoc.2 hpasses.books, hpasses.spares.spares_right, nofun⟩, mine, rfl, hv,
    hpasses.spares.spares_left⟩

/-- A client that is alone is told one number of frames all along. -/
theorem bind_frameTotal {f : UInt64 → Job α} (h : Solo a others (f s.machine.stated) own s Q) :
    Solo a others (Allocator.onMachine Machine.frameTotal >>= f) own s Q := fun hbooks => h hbooks

end Solo

end PagedMemory
