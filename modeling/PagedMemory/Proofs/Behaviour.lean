import Mathlib.Tactic
import PagedMemory.Proofs.Caches
import PagedMemory.Proofs.Ledger

/-!
# Routines among others

What a routine does when, between any two of its sections, others may do what they like with what
is theirs.

* `Estate`: what belongs to one client of the books, loose frames and chains of areas. The books hold
  the estates of all clients together.
* `Spares`: what others do to an estate. Its pages stay mapped as they are, and its frames keep their
  content.
* `Terms`: what is asked of routines. All have to keep the books; strict ones may not fault; watched
  ones may not give a frame back while a cache can hold a translation to it.
* `Behaves`: started with an estate, a routine does as it is asked in each of its sections, spares all
  that is not its own, and ends with an estate and an answer as a postcondition says.
* `Apart`: no section maps or unmaps pages of more than one area.
* `Behaves.bind`, `Behaves.runs`: routines one after the other, and the routine of a client that is
  alone.
* `Behaves.visits`, `Behaves.steps`: the states in between, and the sections one by one.
-/

namespace PagedMemory

open Layout Tables

/-! ## Estates -/

/-- What belongs to one of the clients whose frames and areas are on the books. -/
structure Estate where
  loose : List PageFrame
  chains : List (List Holding)

namespace Estate

instance : EmptyCollection Estate := ⟨[], []⟩

instance : Append Estate := ⟨fun x y => ⟨x.loose ++ y.loose, x.chains ++ y.chains⟩⟩

/-- All frames of the estate. -/
def frames (e : Estate) : List PageFrame := owned e.loose e.chains

@[simp] theorem loose_append (x y : Estate) : (x ++ y).loose = x.loose ++ y.loose := rfl

@[simp] theorem chains_append (x y : Estate) : (x ++ y).chains = x.chains ++ y.chains := rfl

theorem append_assoc (x y z : Estate) : x ++ y ++ z = x ++ (y ++ z) := by
  obtain ⟨l, c⟩ := x
  exact congrArg₂ Estate.mk (List.append_assoc l _ _) (List.append_assoc c _ _)

theorem mem_frames_append {x y : Estate} {f : PageFrame} :
    f ∈ (x ++ y).frames ↔ f ∈ x.frames ∨ f ∈ y.frames := by
  simp only [frames, owned, heldBy, loose_append, chains_append, List.flatten_append,
    List.flatMap_append, List.mem_append]
  tauto

theorem frames_append {x y : Estate} (hx : x.frames = []) (hy : y.frames = []) :
    (x ++ y).frames = [] := by
  refine List.eq_nil_iff_forall_not_mem.2 fun f hf => ?_
  rw [mem_frames_append, hx, hy] at hf
  exact hf.elim List.not_mem_nil List.not_mem_nil

/-- Loose frames by themselves. -/
def ofFrames (frames : List PageFrame) : Estate := ⟨frames, []⟩

/-- A chain of areas by itself. Without areas it is nothing. -/
def ofChain : List Holding → Estate
  | [] => ∅
  | h :: rest => ⟨[], [h :: rest]⟩

section

variable {frames : List PageFrame} {chain : List Holding} {h : Holding} {f : PageFrame} {n : Nat}

@[simp] theorem mem_frames_ofFrames : f ∈ (ofFrames frames).frames ↔ f ∈ frames := by
  simp [Estate.frames, ofFrames, owned, heldBy]

@[simp] theorem mem_frames_ofChain :
    f ∈ (ofChain chain).frames ↔ f ∈ chain.flatMap Holding.frames := by
  cases chain with
  | nil => exact Iff.rfl
  | cons h rest => simp [Estate.frames, ofChain, owned, heldBy]

theorem exists_ofChain {P : Holding → Prop} :
    (∃ c ∈ (ofChain chain).chains, ∃ h ∈ c, P h) ↔ ∃ h ∈ chain, P h := by
  cases chain with
  | nil => exact ⟨fun ⟨_, hc, _⟩ => (nomatch hc), fun ⟨_, hh, _⟩ => (nomatch hh)⟩
  | cons h rest => simp [ofChain]

theorem forall_ofChain {P : Holding → Prop} :
    (∀ c ∈ (ofChain chain).chains, ∀ h ∈ c, P h) ↔ ∀ h ∈ chain, P h := by
  cases chain with
  | nil => exact ⟨fun _ _ hh => (nomatch hh), fun _ _ hc => (nomatch hc)⟩
  | cons h rest => simp [ofChain]

theorem mem_chains_ofChain (hh : h ∈ chain) : chain ∈ (ofChain chain).chains := by
  cases chain with
  | nil => cases hh
  | cons x rest => exact List.mem_singleton_self _

theorem coveredBy_ofChain :
    CoveredBy (ofChain chain).chains n ↔ ∃ h ∈ chain, h.area.Covers n := by
  rw [← exists_ofChain, CoveredBy]
  constructor
  · rintro ⟨area, harea, hn⟩
    obtain ⟨c, hc, h, hh, rfl⟩ := mem_areasOf.1 harea
    exact ⟨c, hc, h, hh, hn⟩
  · rintro ⟨c, hc, h, hh, hn⟩
    exact ⟨h.area, mem_areasOf.2 ⟨c, hc, h, hh, rfl⟩, hn⟩

end

end Estate

/-- What is on the books of an allocator is this estate. -/
abbrev Books (a : Allocator) (p : Pool) (r : Registry) (e : Estate) : Prop :=
  World a p r e.loose e.chains

/-- The pages and the frames of an estate are left alone. -/
abbrev Spares (a : Allocator) (e : Estate) (p q : Pool) : Prop :=
  Keeps a.root (CoveredBy e.chains) (· ∈ e.frames) p q

section

variable {a : Allocator} {p q u : Pool} {r s : Registry} {x y z e own others mine extra : Estate}
  {n : Nat} {f : PageFrame} {es : List Event}

theorem coveredBy_append {c d : List (List Holding)} :
    CoveredBy (c ++ d) n ↔ CoveredBy c n ∨ CoveredBy d n := by
  simp only [CoveredBy, areasOf, List.flatten_append, List.map_append, List.mem_append, or_and_right,
    exists_or]

theorem coveredBy_cons {chain : List Holding} {chains : List (List Holding)} :
    CoveredBy (chain :: chains) n ↔ (∃ h ∈ chain, h.area.Covers n) ∨ CoveredBy chains n := by
  simp only [CoveredBy, areasOf_cons, List.mem_append, List.mem_map, or_and_right, exists_or]
  refine or_congr_left ⟨?_, ?_⟩
  · rintro ⟨_, ⟨h, hh, rfl⟩, hn⟩
    exact ⟨h, hh, hn⟩
  · rintro ⟨h, hh, hn⟩
    exact ⟨h.area, ⟨h, hh, rfl⟩, hn⟩

/-- Loose frames and a chain, next to what others have on the books. -/
theorem books_iff {frames : List PageFrame} {chain : List Holding} :
    Books a p r (.ofFrames frames ++ .ofChain chain ++ e) ↔
      World a p r (frames ++ e.loose) (chain :: e.chains) := by
  cases chain with
  | nil =>
    have hloose : (Estate.ofFrames frames ++ .ofChain [] ++ e).loose = frames ++ e.loose :=
      congrArg (· ++ e.loose) (List.append_nil frames)
    rw [Books, hloose]
    exact World.drop_nil.symm
  | cons h rest =>
    have hloose : (Estate.ofFrames frames ++ .ofChain (h :: rest) ++ e).loose = frames ++ e.loose :=
      congrArg (· ++ e.loose) (List.append_nil frames)
    rw [Books, hloose]
    exact Iff.rfl

theorem books_ofChain {chain : List Holding} :
    Books a p r (.ofChain chain ++ e) ↔ World a p r e.loose (chain :: e.chains) := by
  have hiff : Books a p r (.ofFrames [] ++ .ofChain chain ++ e) ↔ _ := books_iff
  exact hiff

theorem Books.assoc : Books a p r (x ++ y ++ z) ↔ Books a p r (x ++ (y ++ z)) := by
  rw [Estate.append_assoc]

theorem Keeps.spares_left (h : Spares a (x ++ y) p q) : Spares a x p q :=
  h.mono (fun _ hn => coveredBy_append.2 (Or.inl hn)) fun _ hf =>
    Estate.mem_frames_append.2 (Or.inl hf)

theorem Keeps.spares_right (h : Spares a (x ++ y) p q) : Spares a y p q :=
  h.mono (fun _ hn => coveredBy_append.2 (Or.inr hn)) fun _ hf =>
    Estate.mem_frames_append.2 (Or.inr hf)

theorem Keeps.spares_append (hx : Spares a x p q) (hy : Spares a y p q) : Spares a (x ++ y) p q where
  base := hx.base
  size := hx.size
  tables := hx.tables
  leaf n hn hcovered := (coveredBy_append.1 hcovered).elim (hx.leaf n hn) (hy.leaf n hn)
  page f hf := (Estate.mem_frames_append.1 hf).elim (hx.page f) (hy.page f)

/-! ## Terms -/

/-- The pages of an area that are mapped show frames that it owns, or such as are the affair of
others. -/
def Holding.Shows (p : Pool) (root : PageFrame) (foreign : PageFrame → Prop) (h : Holding) : Prop :=
  ∀ n < 512 ^ 4, h.area.Covers n → leafOn p root n ≠ .empty →
    (leafOn p root n).frame ∈ h.frames ∨ foreign (leafOn p root n).frame

/-- What is asked of a routine. -/
inductive Terms where
  /-- it keeps the books, even when it faults; and then it owns no frames -/
  | lenient
  /-- it does not fault -/
  | strict
  /-- besides, the caches are watched; areas may show frames that they do not own, if these are
  foreign -/
  | watched (foreign : PageFrame → Prop)

/-- What is known of the caches and of what others have mapped, when these are watched. -/
structure Watched (a : Allocator) (foreign : PageFrame → Prop) (p : Pool) (es : List Event)
    (others : Estate) : Prop where
  tracked : Tracked a.block (leafOn p a.root) es
  shows : ∀ c ∈ others.chains, ∀ h ∈ c, h.Shows p a.root foreign
  /-- a foreign frame is none that a routine could give back -/
  foreign : ∀ f, foreign f → f ∈ others.loose ∨ ¬ p.Has f

namespace Terms

variable {T : Terms}

/-- What a routine can rely on when a section begins. -/
def Relies (T : Terms) (a : Allocator) (p : Pool) (es : List Event) (others : Estate) : Prop :=
  ∀ foreign, T = .watched foreign → Watched a foreign p es others

/-- What a routine has to know of its own areas. -/
def Shows (T : Terms) (p : Pool) (root : PageFrame) (h : Holding) : Prop :=
  ∀ foreign, T = .watched foreign → h.Shows p root foreign

end Terms

/-- An event that no one has to worry about: no report of an error, and no copy from or to a frame
that is not in use. -/
def Event.Fine (p : Pool) : Event → Prop
  | .reported r => r.severity ≠ .error
  | .copied _ place => p.isTaken (.containing place) = true
  | _ => True

/-- What was done has made the client's estate `mine`, and spared that of others. -/
structure Passes (a : Allocator) (T : Terms) (p : Pool) (others mine : Estate)
    (t : Pool × List Event × Registry) : Prop where
  books : Books a t.1 t.2.2 (mine ++ others)
  spares : Spares a others p t.1
  tracked : ∀ foreign, T = .watched foreign → Tracked a.block (leafOn t.1 a.root) t.2.1

/-- No pages are mapped or unmapped but those of one area, the one at `y`. Of these, pages that were
mapped stay as they are unless the area goes. -/
def Apart (a : Allocator) (p : Pool) (r : Registry) (q : Pool) (s : Registry) : Prop :=
  ∃ y, ∀ n < 512 ^ 4, leafOn q a.root n = leafOn p a.root n ∨
    ∃ area ∈ r.areas, area.address = y ∧ area.Covers n ∧
      (leafOn p a.root n = .empty ∨ ∀ left ∈ s.areas, left.address ≠ y)

/-- Likewise for one section, in which no one had to worry. -/
structure Section (a : Allocator) (T : Terms) (p : Pool) (es : List Event) (r : Registry)
    (others mine : Estate) (t : Pool × List Event × Registry) : Prop
    extends Passes a T p others mine t where
  notes : ∃ fs, t.2.1 = es ++ fs ∧ ∀ e ∈ fs, e.Fine p
  apart : T ≠ .lenient → Apart a p r t.1 t.2.2

/-- A section that faults, where that is allowed, leaves on the books what was there. -/
structure Stranded (a : Allocator) (T : Terms) (p : Pool) (own others : Estate) (cause : Fault)
    (t : Pool × List Event × Registry) : Prop where
  lenient : T = .lenient
  /-- nothing was given back twice -/
  notFreed : ∀ f, cause ≠ .doubleFree f
  frames : own.frames = []
  books : Books a t.1 t.2.2 (own ++ others)
  spares : Spares a others p t.1

/-- What a routine does that starts with the estate `own`, as it was in `p`, and ends as `Q` says.
Before each section others may have done anything that spares the estate. After each section the
estate and the pool are as `I` says. -/
def Behaves {α : Type} (a : Allocator) (T : Terms) (w : Job α) (own : Estate) (p : Pool)
    (Q : α → Estate → Pool → Prop) (I : Estate → Pool → Prop := fun _ _ => True) : Prop :=
  match w with
  | .done v => Q v own p
  | .step _ act next => ∀ front q es r others, Books a q r (own ++ others) →
      T.Relies a q es others → Spares a own p q →
      Runs Shared.noted front act (q, es, r)
        (fun v t => ∃ mine, Section a T q es r others mine t ∧ I mine t.1 ∧
          Behaves a T (next v) mine t.1 Q I)
        fun e t => Stranded a T q own others e t

variable {α β : Type} {T : Terms} {w : Job α} {Q Q' : α → Estate → Pool → Prop}
  {I I' : Estate → Pool → Prop}

/-! ## Rules -/

theorem Behaves.pure {v : α} (h : Q v own p) : Behaves a T (Pure.pure v) own p Q I := h

theorem Behaves.mono (h : Behaves a T w own p Q I) (hq : ∀ v e q, Q v e q → Q' v e q)
    (hi : ∀ e q, I e q → I' e q) : Behaves a T w own p Q' I' := by
  induction w generalizing own p with
  | done v => exact hq v own p h
  | step access act next ih =>
    intro front q es r others hbooks hrelies hspares
    refine Runs.imp (h front q es r others hbooks hrelies hspares) ?_
    rintro v t ⟨mine, hsection, hmine, hnext⟩
    exact ⟨mine, hsection, hi mine _ hmine, ih v hnext⟩

theorem Behaves.imp (h : Behaves a T w own p Q I) (hq : ∀ v e q, Q v e q → Q' v e q) :
    Behaves a T w own p Q' I :=
  h.mono hq fun _ _ hi => hi

theorem Behaves.bind {f : α → Job β} {R : β → Estate → Pool → Prop} (h : Behaves a T w own p Q I)
    (hf : ∀ v e q, Q v e q → Behaves a T (f v) e q R I) : Behaves a T (w >>= f) own p R I := by
  induction w generalizing own p with
  | done v => exact hf v own p h
  | step access act next ih =>
    intro front q es r others hbooks hrelies hspares
    refine Runs.imp (h front q es r others hbooks hrelies hspares) ?_
    rintro v t ⟨mine, hsection, hmine, hnext⟩
    exact ⟨mine, hsection, hmine, ih v hnext⟩

/-- A routine of one section. -/
theorem Behaves.atomically {access : Access} {act : SharedM α}
    (h : ∀ front q es r others, Books a q r (own ++ others) → T.Relies a q es others →
      Spares a own p q →
      Runs Shared.noted front act (q, es, r)
        (fun v t => ∃ mine, Section a T q es r others mine t ∧ Q v mine t.1)
        fun e t => Stranded a T q own others e t) (hq : ∀ v e q, Q v e q → I e q := by simp) :
    Behaves a T (Routine.atomically access act) own p Q I := by
  intro front q es r others hbooks hrelies hspares
  refine Runs.imp (h front q es r others hbooks hrelies hspares) ?_
  rintro v t ⟨mine, hsection, hpost⟩
  exact ⟨mine, hsection, hq v mine _ hpost, hpost⟩

/-- Where no page is mapped or unmapped, it does not matter which area that would be. -/
theorem Apart.of_leaf (hleaf : ∀ n < 512 ^ 4, leafOn q a.root n = leafOn p a.root n) :
    Apart a p r q s :=
  ⟨⟨0⟩, fun n hn => Or.inl (hleaf n hn)⟩

/-- A section in which nothing notable happens and no page is mapped or unmapped. -/
theorem Section.of_calm (hrelies : T.Relies a p es others) (hbooks : Books a q s (mine ++ others))
    (hspares : Spares a others p q)
    (hleaf : ∀ n < 512 ^ 4, leafOn q a.root n = leafOn p a.root n) :
    Section a T p es r others mine (q, es, s) where
  books := hbooks
  spares := hspares
  tracked foreign hT := (hrelies foreign hT).tracked.congr hleaf
  notes := ⟨[], (List.append_nil es).symm, nofun⟩
  apart _ := .of_leaf hleaf

/-- A section that only acts on the pool. -/
theorem Behaves.onMachine {x : MachineM α}
    (h : ∀ back q r others, Books a q r (own ++ others) → Spares a own p q →
      Does back x q fun v u => ∃ mine, (Books a u r (mine ++ others) ∧ Spares a others q u ∧
        ∀ n < 512 ^ 4, leafOn u a.root n = leafOn q a.root n) ∧ Q v mine u)
    (hq : ∀ v e q, Q v e q → I e q := by simp) :
    Behaves a T (Allocator.onMachine x) own p Q I := by
  refine Behaves.atomically (fun front q es r others hbooks hrelies hspares => ?_) hq
  refine Runs.onShared (Does.noted (Runs.imp (h _ q r others hbooks hspares) ?_))
  rintro v u ⟨mine, ⟨hbooks', hspares', hleaf⟩, hq⟩
  exact ⟨mine, .of_calm hrelies hbooks' hspares' hleaf, hq⟩

/-- A section that only looks at the machine. -/
theorem Behaves.looks {x : MachineM α}
    (h : ∀ back q r others, Books a q r (own ++ others) → Spares a own p q →
      Does back x q fun v u => u = q ∧ Q v own u) (hq : ∀ v e q, Q v e q → I e q := by simp) :
    Behaves a T (Allocator.onMachine x) own p Q I := by
  refine Behaves.onMachine (fun back q r others hbooks hspares => ?_) hq
  refine Runs.imp (h back q r others hbooks hspares) ?_
  rintro v _ ⟨rfl, hq⟩
  exact ⟨own, ⟨hbooks, .refl, fun _ _ => rfl⟩, hq⟩

/-- A section that looks at the machine and the registry, and does nothing. -/
theorem Behaves.peeks {access : Access} {act : SharedM α}
    (h : ∀ front q es r others, Books a q r (own ++ others) → Spares a own p q →
      Runs Shared.noted front act (q, es, r) (fun v t => t = (q, es, r) ∧ Q v own q)
        fun _ _ => False) (hq : ∀ v e q, Q v e q → I e q := by simp) :
    Behaves a T (Routine.atomically access act) own p Q I := by
  refine Behaves.atomically (fun front q es r others hbooks hrelies hspares => ?_) hq
  refine Runs.mono (h front q es r others hbooks hspares) ?_ fun _ _ hf => hf.elim
  rintro v _ ⟨rfl, hq⟩
  exact ⟨own, .of_calm hrelies hbooks .refl fun _ _ => rfl, hq⟩

/-- An event that is not notable, and what comes after it. -/
theorem Behaves.bind_emit {e : Event} {f : Unit → Job β} {R : β → Estate → Pool → Prop}
    (h : ∀ q, Spares a own p q → Behaves a T (f ()) own q R) (he : e.isNote = false := by rfl) :
    Behaves a T (Allocator.onMachine (Machine.emit e) >>= f) own p R := by
  refine Behaves.bind (Q := fun _ e q => e = own ∧ Spares a own p q) (Behaves.looks ?_) ?_
  · intro back q r others _ hspares
    exact Does.emit ⟨rfl, rfl, hspares⟩ he
  · rintro _ _ q ⟨rfl, hq⟩
    exact h q hq

theorem Behaves.bind_report {rep : Report} {f : Unit → Job β} {R : β → Estate → Pool → Prop}
    (h : ∀ q, Spares a own p q → Behaves a T (f ()) own q R)
    (hrep : rep.isNote = false := by rfl) :
    Behaves a T (Allocator.onMachine (Machine.report rep) >>= f) own p R :=
  Behaves.bind_emit h hrep

theorem Behaves.report {rep : Report} {Q : Unit → Estate → Pool → Prop}
    (h : ∀ q, Spares a own p q → Q () own q) (hrep : rep.isNote = false := by rfl) :
    Behaves a T (Allocator.onMachine (Machine.report rep)) own p Q :=
  Behaves.looks fun _ q _ _ _ hspares => Does.report ⟨rfl, h q hspares⟩ hrep

/-! ## What is not touched -/

/-- What an area shows is no matter of others. -/
theorem Holding.Shows.of_spares {h : Holding} {c : List Holding} {foreign : PageFrame → Prop}
    (hshows : h.Shows p a.root foreign) (hspares : Spares a e p q) (hc : c ∈ e.chains)
    (hh : h ∈ c) : h.Shows q a.root foreign := by
  intro n hn hcovers hmapped
  have hleaf := hspares.leaf n hn ⟨h.area, mem_areasOf.2 ⟨c, hc, h, hh, rfl⟩, hcovers⟩
  rw [hleaf] at hmapped ⊢
  exact hshows n hn hcovers hmapped

theorem Terms.Shows.of_spares {h : Holding} {c : List Holding} (hshows : T.Shows p a.root h)
    (hspares : Spares a e p q) (hc : c ∈ e.chains) (hh : h ∈ c) : T.Shows q a.root h :=
  fun foreign hT => (hshows foreign hT).of_spares hspares hc hh

theorem Terms.Shows.of_chain {chain : List Holding} (hshows : ∀ x ∈ chain, T.Shows p a.root x)
    (hspares : Spares a (.ofChain chain) p q) : ∀ x ∈ chain, T.Shows q a.root x :=
  fun x hx => (hshows x hx).of_spares hspares (Estate.mem_chains_ofChain hx) hx

/-- Of more areas, or of fewer, as much can be relied on if what they show is known. -/
theorem Terms.Relies.of_chains {loose : List PageFrame} {chains chains' : List (List Holding)}
    (h : T.Relies a p es ⟨loose, chains⟩)
    (hchains : ∀ c ∈ chains', c ∈ chains ∨ ∀ y ∈ c, T.Shows p a.root y) :
    T.Relies a p es ⟨loose, chains'⟩ := by
  intro foreign hT
  have hwatched := h foreign hT
  refine ⟨hwatched.tracked, fun c hc y hy => ?_, hwatched.foreign⟩
  rcases hchains c hc with hc | hshows
  · exact hwatched.shows c hc y hy
  · exact hshows y hy foreign hT

/-- What can be relied on after a section is what could be before. -/
theorem Passes.relies {t : Pool × List Event × Registry} (h : Passes a T p others mine t)
    (hrelies : T.Relies a p es others) : T.Relies a t.1 t.2.1 others := by
  intro foreign hT
  have hbefore := hrelies foreign hT
  refine ⟨h.tracked foreign hT, fun c hc y hy => ?_, fun f hf => ?_⟩
  · exact (hbefore.shows c hc y hy).of_spares h.spares hc hy
  · exact (hbefore.foreign f hf).imp_right fun hno hhas =>
      hno (hhas.congr h.spares.base.symm h.spares.size.symm)

/-- To a routine that does not touch it, an estate is one of others. -/
theorem Terms.Relies.widen (h : T.Relies a p es others)
    (hextra : ∀ c ∈ extra.chains, ∀ y ∈ c, T.Shows p a.root y) :
    T.Relies a p es (extra ++ others) := by
  intro foreign hT
  have hbefore := h foreign hT
  refine ⟨hbefore.tracked, fun c hc y hy => ?_, fun f hf => ?_⟩
  · rcases List.mem_append.1 hc with hc | hc
    · exact hextra c hc y hy foreign hT
    · exact hbefore.shows c hc y hy
  · exact (hbefore.foreign f hf).imp_left (List.mem_append_right _)

theorem Section.narrow {t : Pool × List Event × Registry}
    (h : Section a T p es r (extra ++ others) mine t) :
    Section a T p es r others (mine ++ extra) t :=
  ⟨⟨Books.assoc.2 h.books, h.spares.spares_right, h.tracked⟩, h.notes, h.apart⟩

theorem Stranded.narrow {cause : Fault} {t : Pool × List Event × Registry}
    (h : Stranded a T p own (extra ++ others) cause t) (hframes : extra.frames = []) :
    Stranded a T p (own ++ extra) others cause t :=
  ⟨h.lenient, h.notFreed, Estate.frames_append h.frames hframes, Books.assoc.2 h.books,
    h.spares.spares_right⟩

/-! ## Clients that are alone -/

theorem Passes.trans {t t' : Pool × List Event × Registry} {mine' : Estate}
    (h : Passes a T p others mine t) (h' : Passes a T t.1 others mine' t') :
    Passes a T p others mine' t' :=
  ⟨h'.books, h.spares.trans h'.spares, h'.tracked⟩

/-- Undisturbed, a routine does what it does among others. If it faults, it leaves the estate of the
section at which it does. -/
theorem Behaves.runs {front : Front} (h : Behaves a T w own p Q I)
    (hbooks : Books a p r (own ++ others)) (hrelies : T.Relies a p es others) :
    Runs Shared.noted front w.run (p, es, r)
      (fun v t => ∃ mine, Passes a T p others mine t ∧ Q v mine t.1)
      fun e t => ∃ mine, Stranded a T p mine others e t := by
  induction w generalizing own p es r with
  | done v => exact Runs.pure ⟨own, ⟨hbooks, .refl, fun _ hT => (hrelies _ hT).tracked⟩, h⟩
  | step access act next ih =>
    rw [Routine.run_step]
    refine Runs.bind (Runs.mono (h front p es r others hbooks hrelies .refl) (fun _ _ hq => hq)
      fun _ _ hf => ⟨own, hf⟩) ?_
    rintro v ⟨q, fs, s⟩ ⟨mine, hsection, -, hnext⟩
    refine Runs.mono (ih v hnext hsection.books (hsection.relies hrelies)) ?_ ?_
    · rintro v' t ⟨mine', hpasses, hq⟩
      exact ⟨mine', hsection.toPasses.trans hpasses, hq⟩
    · rintro _ t ⟨mine', hf⟩
      exact ⟨mine', hf.lenient, hf.notFreed, hf.frames, hf.books, hsection.spares.trans hf.spares⟩

/-- A routine that may not fault ends in an answer. -/
theorem Behaves.answers {s : Shared} (h : Behaves a T w own s.machine.pool Q I) (hT : T ≠ .lenient)
    (hbooks : Books a s.machine.pool s.registry (own ++ others))
    (hrelies : T.Relies a s.machine.pool s.machine.notes others) :
    ∃ v s', w.run s = .ok v s' ∧ ∃ mine,
      Passes a T s.machine.pool others mine (Shared.noted.shown s') ∧ Q v mine s'.machine.pool := by
  obtain ⟨v, s', hrun, -, hq⟩ := Runs.exists_ok (Runs.mono (h.runs hbooks hrelies)
    (fun _ _ hq => hq) fun _ _ ⟨_, hf⟩ => hT hf.lenient) (s := s) rfl rfl
  exact ⟨v, s', hrun, hq⟩

/-- The states that a routine comes by: where it starts, and what each section leaves. -/
def Routine.Visits {ε σ α : Type} : Routine ε σ α → σ → σ → Prop
  | .done _, s, m => m = s
  | .step _ act next, s, m => m = s ∨ match act s with
    | .ok b s' => (next b).Visits s' m
    | .error _ s' => m = s'

/-- A routine passes whenever one looks. -/
theorem Behaves.visits {s m : Shared} (h : Behaves a T w own s.machine.pool Q I)
    (hbooks : Books a s.machine.pool s.registry (own ++ others))
    (hrelies : T.Relies a s.machine.pool s.machine.notes others) (hm : w.Visits s m) :
    ∃ mine, Passes a T s.machine.pool others mine (Shared.noted.shown m) := by
  have hnow : Passes a T s.machine.pool others own (Shared.noted.shown s) :=
    ⟨hbooks, .refl, fun foreign hT => (hrelies foreign hT).tracked⟩
  induction w generalizing own s with
  | done v =>
    obtain rfl := hm
    exact ⟨own, hnow⟩
  | step access act next ih =>
    rw [Routine.Visits] at hm
    rcases hm with rfl | hm
    · exact ⟨own, hnow⟩
    · have hact := h s.machine.front _ _ _ others hbooks hrelies .refl s rfl rfl
      rw [Ends] at hact
      split at hact
      next b s' hok =>
        rw [hok] at hm
        obtain ⟨-, mine, hsection, -, hnext⟩ := hact
        have hrelies' := hsection.relies hrelies
        obtain ⟨mine', hpasses⟩ := ih b hnext hsection.books hrelies' hm
          ⟨hsection.books, .refl, fun foreign hT => (hrelies' foreign hT).tracked⟩
        exact ⟨mine', hsection.toPasses.trans hpasses⟩
      next e s' herror =>
        rw [herror] at hm
        obtain rfl := hm
        obtain ⟨-, hf⟩ := hact
        exact ⟨own, hf.books, hf.spares, fun foreign hT => nomatch hT.symm.trans hf.lenient⟩

/-- The sections of a routine as it runs: one of them begins in `m` and ends in `m'`. -/
def Routine.Steps {ε σ α : Type} : Routine ε σ α → σ → σ → σ → Prop
  | .done _, _, _, _ => False
  | .step _ act next, s, m, m' => match act s with
    | .ok b s' => m = s ∧ m' = s' ∨ (next b).Steps s' m m'
    | .error _ s' => m = s ∧ m' = s'

/-- What all sections keep holds whenever one looks. -/
theorem Routine.Visits.keeps {ε σ α : Type} {w : Routine ε σ α} {s m : σ} {P : σ → Prop}
    (hm : w.Visits s m) (hstep : ∀ n n', w.Steps s n n' → P n → P n') (hs : P s) : P m := by
  induction w generalizing s with
  | done v =>
    obtain rfl := hm
    exact hs
  | step access act next ih =>
    rw [Visits] at hm
    rcases hm with rfl | hm
    · exact hs
    · simp only [Steps] at hstep
      cases hact : act s with
      | ok b s' =>
        simp only [hact] at hm hstep
        exact ih b hm (fun n n' h => hstep n n' (Or.inr h)) (hstep s s' (Or.inl ⟨rfl, rfl⟩) hs)
      | error e s' =>
        simp only [hact] at hm hstep
        obtain rfl := hm
        exact hstep s m ⟨rfl, rfl⟩ hs

/-- One can look at the end. -/
theorem Routine.visits_of_run {ε σ α : Type} {w : Routine ε σ α} {s s' : σ} {v : α}
    (h : w.run s = .ok v s') : w.Visits s s' := by
  induction w generalizing s with
  | done _ =>
    cases h
    rfl
  | step access act next ih =>
    rw [run] at h
    rw [Visits]
    cases hact : act s with
    | ok b t =>
      simp only [hact] at h ⊢
      exact Or.inr (ih b h)
    | error e t =>
      simp only [hact] at h
      cases h

/-- Each section of a routine, in the states in which it begins and ends. -/
theorem Behaves.steps {s m m' : Shared} (h : Behaves a T w own s.machine.pool Q I) (hT : T ≠ .lenient)
    (hbooks : Books a s.machine.pool s.registry (own ++ others))
    (hrelies : T.Relies a s.machine.pool s.machine.notes others) (hm : w.Steps s m m') :
    ∃ before mine, Books a m.machine.pool m.registry (before ++ others) ∧
      Section a T m.machine.pool m.machine.notes m.registry others mine (Shared.noted.shown m') := by
  induction w generalizing own s with
  | done v => exact hm.elim
  | step access act next ih =>
    have hact := h s.machine.front _ _ _ others hbooks hrelies .refl s rfl rfl
    rw [Routine.Steps] at hm
    rw [Ends] at hact
    split at hact
    next b s' hok =>
      rw [hok] at hm
      obtain ⟨-, mine, hsection, -, hnext⟩ := hact
      rcases hm with ⟨rfl, rfl⟩ | hm
      · exact ⟨own, mine, hbooks, hsection⟩
      · exact ih b hnext hsection.books (hsection.relies hrelies) hm
    next => exact absurd hact.2.lenient hT

end

end PagedMemory
