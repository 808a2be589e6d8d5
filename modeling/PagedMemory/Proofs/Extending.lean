import Mathlib.Tactic
import PagedMemory.Proofs.Unmapping

/-!
# Fills, wherever the pool lies

A pool may reach so high that some of its frames have no numbers for entries. A fill that is handed
such a frame ends in a fault, as it may for many other reasons; as long as it goes on, the tree grows
and nothing that is in use is lost.

* `Pool.Orderly`: the free list is right. Nothing is asked of where the pool lies.
* `Pool.Guards`: what was in use is in use, with what was in it.
* `Tables.Extended`: no table is lost, and those there are stay apart.
* `Walk.fillTable_brings`: a fill that goes on extends the tree, from any source that leaves memory
  alone.
-/

namespace PagedMemory

/-- If the operation yields an answer, it is as `Q` says. -/
abbrev IfDone {ε σ α : Type} (x : EStateM ε σ α) (s : σ) (Q : α → σ → Prop) : Prop :=
  Ends x s Q fun _ _ => True

/-- A frame whose number does not fit cannot be a table. -/
theorem Entry.table_of_not_numbered {f : PageFrame} (h : ¬ f.Numbered) :
    Entry.table f = .error (.fieldTooSmall EntryField.frameNumber.max) := by
  rw [table, setAddress, put, if_neg fun hle => h (PageFrame.number_le_iff.1 hle)]

namespace Pool

variable {p q u : Pool} {f g : PageFrame} {i : Nat} {free : List Nat}

/-! ## Frames that are handed out -/

/-- The free list holds just the frames that are not in use, each once. -/
structure Orderly (p : Pool) : Prop where
  /-- there are no more frames than there are words -/
  counted : p.slots.size < 2 ^ 64
  nodup : p.free.Nodup
  mem_free : ∀ i, i ∈ p.free ↔ ∃ s, p.slots[i]? = some s ∧ s.inUse = false

theorem Orderly.listed (hp : p.Orderly) : p.Listed := ⟨hp.nodup, hp.mem_free⟩

theorem Sound.orderly (hp : p.Sound) : p.Orderly := by
  have hbelow := hp.below
  exact ⟨by omega, hp.nodup, hp.mem_free⟩

/-- A frame of the pool that can be named at all is named by its number. -/
theorem Orderly.number?_frameAt (hp : p.Orderly) (hi : i < p.slots.size)
    (h : p.frameAt i = .ok f) : p.number? f = some i :=
  number?_eq_some_iff.2 ⟨hi, PageFrame.toNat_of_following_eq_ok (hi.trans hp.counted) h⟩

theorem pick_perm {ok : Nat → Except Fault Bool} {indices : List Nat}
    (h : pick ok indices = .ok (some (i, free))) : indices.Perm (i :: free) := by
  induction indices generalizing free with
  | nil => cases h
  | cons j rest ih =>
    rw [pick] at h
    rcases hj : ok j with fault | fits
    · rw [hj] at h
      cases h
    rw [hj] at h
    cases fits with
    | true =>
      obtain ⟨rfl, rfl⟩ := Prod.mk.inj (Option.some.inj (Except.ok.inj h))
      exact List.Perm.refl _
    | false =>
      rcases hrest : pick ok rest with fault | _ | ⟨k, others⟩
      · simp only [hrest] at h
        cases h
      · simp only [hrest] at h
        cases h
      · simp only [hrest] at h
        obtain ⟨rfl, rfl⟩ := Prod.mk.inj (Option.some.inj (Except.ok.inj h))
        exact ((ih hrest).cons j).trans (List.Perm.swap k j others)

/-- What is in use stays in use, with what is in it. -/
structure Guards (p q : Pool) : Prop where
  orderly : q.Orderly
  taken : ∀ g, p.isTaken g = true → q.isTaken g = true
  page : ∀ g, p.isTaken g = true → q.page g = p.page g

theorem Guards.trans (hpq : p.Guards q) (hqu : q.Guards u) : p.Guards u where
  orderly := hqu.orderly
  taken g hg := hqu.taken g (hpq.taken g hg)
  page g hg := (hqu.page g (hpq.taken g hg)).trans (hpq.page g hg)

theorem Orderly.rewritten (hp : p.Orderly) (h : p.Rewritten q) : q.Orderly where
  counted := h.size.symm ▸ hp.counted
  nodup := (h.listed hp.listed).nodup
  mem_free := (h.listed hp.listed).mem_free

/-- A frame off the free list can be written at will. -/
theorem Guards.rewrite (hpq : p.Guards q) (hf : p.isTaken f = false)
    (change : Page → Page) : p.Guards (q.rewrite f change) where
  orderly := hpq.orderly.rewritten (rewritten_rewrite q f change)
  taken g hg := by
    rw [isTaken_rewrite]
    exact hpq.taken g hg
  page g hg := by
    have hgf : g ≠ f := by
      rintro rfl
      rw [hf] at hg
      cases hg
    rw [page_rewrite_of_ne hgf, hpq.page g hg]

theorem Orderly.marked (hp : p.Orderly) (hperm : p.free.Perm (i :: free)) :
    (p.marked i true free).Orderly := by
  have hlisted := hp.listed.marked_true hperm
  refine ⟨?_, hlisted.nodup, hlisted.mem_free⟩
  rw [marked_size]
  exact hp.counted

/-- A frame that is handed out was free, and is not any more. -/
structure Issued (p : Pool) (f : PageFrame) (q : Pool) : Prop extends p.Guards q where
  fresh : p.isTaken f = false
  isTaken : q.isTaken f = true

theorem Orderly.issued (hp : p.Orderly) (hperm : p.free.Perm (i :: free))
    (hf : p.number? f = some i) : p.Issued f (p.marked i true free) := by
  obtain ⟨s, hs, hfree⟩ := (hp.mem_free i).1 (hperm.mem_iff.2 List.mem_cons_self)
  refine { orderly := hp.marked hperm, taken := ?_, page := ?_, fresh := ?_, isTaken := ?_ }
  · intro g hg
    rw [isTaken_marked hf]
    split
    · rfl
    · exact hg
  · intro g _
    exact page_marked hf
  · rw [isTaken_eq_any, slot?_eq hf, hs]
    exact hfree
  · rw [isTaken_marked hf, if_pos rfl]

theorem Issued.rewrite (h : p.Issued f q) (change : Page → Page) :
    p.Issued f (q.rewrite f change) where
  toGuards := h.toGuards.rewrite h.fresh change
  fresh := h.fresh
  isTaken := by
    rw [isTaken_rewrite]
    exact h.isTaken

/-- A budget is no matter of frames. -/
theorem spend_guards (hp : p.Orderly) :
    IfDone spend p fun _ q => p.Guards q ∧ ∀ g, q.isTaken g = p.isTaken g := by
  have hsame : ∀ budget g, isTaken { p with budget } g = p.isTaken g := fun budget g => by
    rw [isTaken_eq_any, isTaken_eq_any]
    rfl
  have hkeeps : ∀ budget, p.Guards { p with budget } := fun budget =>
    ⟨⟨hp.counted, hp.nodup, hp.mem_free⟩, fun g hg => (hsame budget g).trans hg, fun _ _ => rfl⟩
  obtain ⟨base, slots, free, budget⟩ := p
  rcases budget with _ | _ | n
  · exact ⟨hkeeps none, hsame none⟩
  · exact ⟨hkeeps (some 0), hsame (some 0)⟩
  · exact ⟨hkeeps (some n), hsame (some n)⟩

theorem take_guards (hp : p.Orderly) (policy : FramePolicy) :
    IfDone (take policy) p fun answer q => p.Guards q ∧ ∀ f, answer = some f → p.Issued f q := by
  refine Ends.bind (spend_guards hp) ?_
  rintro goOn q ⟨hpq, hsame⟩
  cases goOn with
  | false => exact Ends.pure ⟨hpq, nofun⟩
  | true =>
    refine Ends.bind_get ?_
    rcases hpick : pick (q.suits policy) q.free with fault | _ | ⟨i, rest⟩
    · exact Ends.bind_lift_error rfl trivial
    · exact Ends.bind_lift rfl (Ends.pure ⟨hpq, nofun⟩)
    · have hperm := pick_perm hpick
      obtain ⟨s, hs, -⟩ := (hpq.orderly.mem_free i).1 (hperm.mem_iff.2 List.mem_cons_self)
      obtain ⟨hi, -⟩ := Array.getElem?_eq_some_iff.1 hs
      refine Ends.bind_lift rfl (Ends.bind_modify ?_)
      rcases hat : q.frameAt i with fault | f
      · exact Ends.bind_lift_error rfl trivial
      have hf := hpq.orderly.number?_frameAt hi hat
      have hissued : p.Issued f (q.marked i true rest) := {
        toGuards := hpq.trans (hpq.orderly.issued hperm hf).toGuards
        fresh := (hsame f).symm.trans (hpq.orderly.issued hperm hf).fresh
        isTaken := (hpq.orderly.issued hperm hf).isTaken }
      have hanswer : ∀ {u : Pool}, p.Issued f u → p.Guards u ∧ ∀ g, some f = some g → p.Issued g u := by
        rintro u hu
        refine ⟨hu.toGuards, ?_⟩
        rintro _ ⟨⟩
        exact hu
      refine Ends.bind_lift rfl ?_
      by_cases hzero : policy.has .zero = true
      · simp only [hzero, if_true]
        exact Ends.bind_ok (zero_eq (number?_marked.trans hf)) (Ends.pure (hanswer (hissued.rewrite _)))
      · simp only [hzero]
        exact Ends.pure (hanswer hissued)

end Pool

/-! ## Trees that only gain tables -/

namespace Tables

open Machine

/-- All pages behind one entry are behind one table. -/
theorem tableOn_below {p : Pool} {root : PageFrame} {l below : Level} {n k c : Nat}
    (hbelow : l.next? = some below) (hcell : l.cell (c - 1) = l.cell k) (hk : k ≤ n) (hn : n < c) :
    tableOn p root n below = tableOn p root k below := by
  have hsame := Level.cell_between hcell hk hn
  rw [← Level.group_next hbelow, ← Level.group_next hbelow] at hsame
  exact tableOn_congr hsame

variable {p q u : Pool} {root t f : PageFrame} {l below : Level} {n : Nat} {e : Entry} {m : Machine}

theorem IfDone.onPool {α : Type} {x : PoolM α} {Q : α → Pool → Prop} (h : IfDone x m.pool Q) :
    IfDone (Machine.onPool x) m fun a m' => Q a m'.pool := by
  obtain ⟨pool, front, trace⟩ := m
  rw [IfDone, Ends] at h ⊢
  rw [Machine.onPool]
  cases hx : x pool with
  | ok a pool' =>
    rw [hx] at h
    exact h
  | error => trivial

/-- What an operation does wherever the pool is the same, it does here. -/
theorem IfDone.of_does {α : Type} {x : MachineM α} {Q : α → Pool → Prop}
    (h : Does m.backdrop x m.pool Q) : IfDone x m fun a m' => Q a m'.pool :=
  (h m rfl rfl).mono (fun _ _ hq => hq.2) fun _ _ hq => hq.2.elim

theorem takeFrame_guards (hp : m.pool.Orderly) (policy : FramePolicy) :
    IfDone (takeFrame policy) m fun answer m' =>
      m.pool.Guards m'.pool ∧ ∀ f, answer = some f → m.pool.Issued f m'.pool := by
  refine Ends.bind_modify (Ends.bind_get (Ends.bind (IfDone.onPool (Pool.take_guards hp _)) ?_))
  intro answer m' h
  cases answer with
  | none => exact Ends.pure h
  | some f => exact Ends.bind_modify (Ends.pure h)

/-- The tree of `q` is that of `p` with more tables, none of which is lost. -/
structure Extended (root : PageFrame) (p q : Pool) : Prop where
  orderly : q.Orderly
  tables : Held q root
  kept : ∀ n < 512 ^ 4, ∀ l t, tableOn p root n l = some t → tableOn q root n l = some t

theorem Extended.trans (hpq : Extended root p q) (hqu : Extended root q u) : Extended root p u where
  orderly := hqu.orderly
  tables := hqu.tables
  kept n hn l t ht := hqu.kept n hn l t (hpq.kept n hn l t ht)

theorem Extended.refl (hp : p.Orderly) (hs : Held p root) : Extended root p p :=
  ⟨hp, hs, fun _ _ _ _ ht => ht⟩

section

variable (hs : Held p root)

include hs

/-- Tables are in use, and what is in use is not touched. -/
theorem Extended.of_guards (h : p.Guards q) : Extended root p q where
  orderly := h.orderly
  tables := hs.of_page (fun f hf => h.page f (hs.taken f hf)) fun f hf => h.taken f (hs.taken f hf)
  kept n hn l t ht := by
    rw [← ht]
    exact tableOn_eq_of_page (fun f hf => h.page f (hs.taken f hf)) hn l

/-- A store to a lowest table. -/
theorem Extended.of_store (hp : p.Orderly) (hn : n < 512 ^ 4) (ht : tableOn p root n .pt = some t) :
    Extended root p (p.withEntry t (Level.pt.slot n) e) where
  orderly := hp.rewritten (Pool.rewritten_rewrite p t _)
  tables := hs.store hn ht nofun
  kept k hk l' t' ht' := by
    rw [hs.formed.tableOn_store hn ht nofun hk]
    exact ht'

/-- A new table behind an entry that led nowhere. -/
theorem Extended.of_link (hp : p.Orderly) (hn : n < 512 ^ 4) (hf : Free p root n l t f)
    (he : e.table? = some f) (hbelow : l.next? = some below) :
    Extended root p (p.withEntry t (l.slot n) e) where
  orderly := hp.rewritten (Pool.rewritten_rewrite p t _)
  tables := hs.link hn hf he hbelow
  kept k hk l' t' ht' := by
    rw [hs.formed.tableOn_link hn hf he hbelow hk]
    split
    next hnew =>
      obtain ⟨rfl, hgroup⟩ := hnew
      rw [hf.tableOn_eq_none hbelow hgroup] at ht'
      cases ht'
    next => exact ht'

end

section

variable (hs : Held m.pool root) (hp : m.pool.Orderly)

include hp

/-- The answer is a new table full of zeros. -/
theorem newTable_guards : IfDone newTable m fun answer m' => m.pool.Guards m'.pool ∧
    ∀ f, answer = .ok f → m.pool.Issued f m'.pool ∧ m'.pool.page f = Page.zero := by
  refine Ends.bind (takeFrame_guards hp _) ?_
  rintro answer m' ⟨hguards, hissued⟩
  cases answer with
  | none => exact Ends.pure ⟨hguards, nofun⟩
  | some f =>
    have hf := hissued f rfl
    obtain ⟨i, hi⟩ := Pool.has_of_isTaken hf.isTaken
    refine Ends.bind (IfDone.of_does (Machine.zero_does ⟨i, hi⟩)) ?_
    rintro _ u hu
    refine Ends.pure ⟨hu ▸ hguards.rewrite hf.fresh _, ?_⟩
    rintro _ ⟨⟩
    exact ⟨hu ▸ hf.rewrite _, hu ▸ Pool.page_rewrite_self hi⟩

include hs

/-- A new table behind an entry that led nowhere. -/
theorem linkNewTable_extends (hn : n < 512 ^ 4) (ht : tableOn m.pool root n l = some t)
    (hbelow : l.next? = some below) (hnowhere : behind m.pool n l t = none) :
    IfDone (linkNewTable t (l.slot n)) m fun answer m' => Extended root m.pool m'.pool ∧
      ∀ next, answer = .ok next → tableOn m'.pool root n below = some next := by
  refine Ends.bind (newTable_guards hp) ?_
  rintro answer m' ⟨hguards, hnew⟩
  have hgrown := Extended.of_guards hs hguards
  cases answer with
  | error e => exact Ends.pure ⟨hgrown, nofun⟩
  | ok f =>
    obtain ⟨hissued, hzero⟩ := hnew f rfl
    have hpage : ∀ g, IsTable m.pool root g → m'.pool.page g = m.pool.page g := fun g hg =>
      hguards.page g (hs.taken g hg)
    have hon : tableOn m'.pool root n l = some t := hgrown.kept n hn l t ht
    have hfree : Free m'.pool root n l t f := {
      on := hon
      nowhere := by
        rw [behind, Pool.entryAt, hpage t ⟨n, hn, l, ht⟩]
        exact hnowhere
      taken := hissued.isTaken
      notTable := fun hf => by
        have hwas := (isTable_congr fun k hk l' => tableOn_eq_of_page hpage hk l').1 hf
        have htaken := hs.taken f hwas
        rw [hissued.fresh] at htaken
        cases htaken
      zero := hzero }
    by_cases hnumbered : f.Numbered
    · have htable := Entry.table?_tableTo hnumbered
      refine Ends.bind_lift (Entry.table_eq hnumbered) ?_
      refine Ends.bind (IfDone.of_does (setEntry_does (hgrown.tables.formed.has hn hon) _ _)) ?_
      rintro _ u hu
      have hlink := Extended.of_link hgrown.tables hgrown.orderly hn hfree htable hbelow
      refine Ends.pure ⟨hgrown.trans (hu ▸ hlink), ?_⟩
      rintro _ ⟨⟩
      rw [hu, hgrown.tables.formed.tableOn_link hn hfree htable hbelow hn, if_pos ⟨rfl, rfl⟩]
    · exact Ends.bind_lift_error (Entry.table_of_not_numbered hnumbered) trivial

theorem childOrCreate_extends (hn : n < 512 ^ 4) (ht : tableOn m.pool root n l = some t)
    (hbelow : l.next? = some below) :
    IfDone (childOrCreate l t (l.slot n)) m fun answer m' => Extended root m.pool m'.pool ∧
      ∀ next, answer = .ok next → tableOn m'.pool root n below = some next := by
  have hidle := Walk.child_idles (hs.formed.has hn ht) (Level.isLeaf_of_next hbelow) (l.slot n)
  refine Ends.bind_ok hidle.eq_ok ?_
  cases hc : (m.pool.entryAt t (l.slot n)).child with
  | table next =>
    refine Ends.pure ⟨.refl hp hs, ?_⟩
    rintro _ ⟨⟩
    rw [tableOn_next hbelow, ht, Option.bind_some, behind, Entry.table?, hc]
  | none =>
    refine linkNewTable_extends hs hp hn ht hbelow ?_
    rw [behind, Entry.table?, hc]
  | malformed e =>
    refine Ends.bind_modify (linkNewTable_extends hs hp hn ht hbelow ?_)
    rw [behind, Entry.table?, hc]

end

/-- A table that is there is found, and nothing else happens. -/
theorem childOrCreate_idles (hs : Formed m.pool root) (hn : n < 512 ^ 4)
    (ht : tableOn m.pool root n l = some t) (hbelow : l.next? = some below) {next : PageFrame}
    (hnext : tableOn m.pool root n below = some next) :
    Walk.Idles (childOrCreate l t (l.slot n)) m (.ok next) := by
  refine (Walk.child_idles (hs.has hn ht) (Level.isLeaf_of_next hbelow) _).bind ?_
  rw [tableOn_next hbelow, ht, Option.bind_some, behind, Entry.table?] at hnext
  cases hc : (m.pool.entryAt t (l.slot n)).child with
  | table f =>
    rw [hc] at hnext
    obtain rfl := Option.some.inj hnext
    exact Runs.pure ⟨rfl, rfl⟩
  | none =>
    rw [hc] at hnext
    cases hnext
  | malformed e =>
    rw [hc] at hnext
    cases hnext

end Tables

/-! ## Fills -/

namespace Walk

open Tables

variable {p : Pool} {root t : PageFrame} {l below : Level} {b i j n : Nat} {prot : Entry}
  {source : FrameSource}

/-- To be asked for a frame changes nothing in memory. -/
def LeavesMemory (source : FrameSource) : Prop :=
  ∀ k m, IfDone (source k) m fun _ m' => m'.pool = m.pool

theorem leavesMemory_of (frames : Nat → Option PageFrame) : LeavesMemory (.of frames) :=
  fun _ _ => Ends.pure rfl

theorem leavesMemory_ofList (frames : List PageFrame) : LeavesMemory (.ofList frames) :=
  leavesMemory_of _

/-- Of a fill, only memory is looked at. -/
def memory : View Filling Unit Pool := ⟨fun s => s.machine.pool, fun _ => ()⟩

/-- From memory `p` the part of a fill, if it goes on, comes to an answer and memory as `Q` says. -/
abbrev Brings {α : Type} (x : FillM α) (p : Pool) (Q : α → Pool → Prop) : Prop :=
  Runs memory () x p Q fun _ _ => True

theorem Brings.onMachine {α : Type} {x : MachineM α} {Q : α → Pool → Prop}
    (h : ∀ m, m.pool = p → IfDone x m fun a m' => Q a m'.pool) :
    Brings (FillM.onMachine x) p Q := by
  rintro ⟨m, k⟩ hm -
  have hx := h m hm
  rw [IfDone, Ends] at hx
  rw [Ends, FillM.onMachine]
  cases hrun : x m with
  | ok a m' =>
    rw [hrun] at hx
    exact ⟨rfl, hx⟩
  | error => exact ⟨rfl, trivial⟩

theorem Brings.of_ok {α : Type} {x : FillM α} {s u : Filling} {a : α} {Q : α → Pool → Prop}
    (h : Brings x s.machine.pool Q) (hx : x s = .ok a u) : Q a u.machine.pool :=
  ((h s rfl rfl).of_eq_ok hx).2

theorem nextFrame_brings (hsource : LeavesMemory source) :
    Brings (FillM.nextFrame source) p fun _ q => q = p := by
  refine Runs.bind_get fun s hs _ => ?_
  refine Runs.bind (Q := fun _ q => q = p) (Brings.onMachine fun m hm => ?_) ?_
  · exact (hsource s.taken m).mono (fun _ _ hq => hq.trans hm) fun _ _ h => h
  rintro answer q rfl
  cases answer with
  | none => exact Runs.throw trivial
  | some f => exact Runs.bind_modify (fun _ hs => ⟨hs, rfl⟩) (Runs.pure rfl)

theorem fillPage_brings (hsource : LeavesMemory source) {page : Interval}
    (hpage : page.Pages b n (n + 1)) (hp : p.Orderly) (hs : Held p root)
    (ht : tableOn p root n .pt = some t) :
    Brings (fillPage source prot t page) p fun _ q => Extended root p q := by
  have hn : n < 512 ^ 4 := hpage.top
  have hindex : Level.pt.index page.start = Level.pt.slot n := by
    rw [Level.index_eq, hpage.pageNumber (Nat.lt_succ_self n)]
  have hthere := hs.formed.has hn ht
  rw [fillPage, hindex]
  refine Runs.bind (Q := fun _ q => q = p) (Brings.onMachine fun m hm => ?_) ?_
  · rw [← hm] at hthere
    exact Ends.of_ok (entry_idles hthere _).eq_ok hm
  rintro old p rfl
  by_cases hempty : old.isEmpty = true
  · simp only [hempty, if_true]
    refine Runs.bind (nextFrame_brings hsource) ?_
    rintro f p rfl
    refine Runs.bind (Q := fun _ q => Extended root p q) (Brings.onMachine fun m hm => ?_) fun _ _ h =>
      Runs.pure h
    rcases Entry.leaf f prot with fault | leaf
    · exact Ends.bind_lift_error rfl trivial
    rw [← hm] at hp hs ht hthere ⊢
    refine Ends.bind_lift rfl (Ends.bind (IfDone.of_does (setEntry_does hthere _ _)) ?_)
    rintro _ u hu
    exact Ends.bind_modify (Ends.pure (hu ▸ Extended.of_store hs hp hn ht))
  · simp only [hempty]
    exact Runs.bind (Q := fun _ _ => True) (Brings.onMachine fun m _ => Ends.bind_modify (Ends.pure trivial))
      fun _ _ _ => Runs.throw trivial

theorem childOrCreate_brings (hp : p.Orderly) (hs : Held p root) (hn : n < 512 ^ 4)
    (ht : tableOn p root n l = some t) (hbelow : l.next? = some below) :
    Brings (FillM.onMachine (childOrCreate l t (l.slot n))) p fun answer q => Extended root p q ∧
      ∀ next, answer = .ok next → tableOn q root n below = some next := by
  refine Brings.onMachine fun m hm => ?_
  subst hm
  exact childOrCreate_extends hs hp hn ht hbelow

/-- Filling what is behind one entry, if filling the table behind it extends the tree. -/
theorem fillPart_brings (hbelow : l.next? = some below)
    (ih : ∀ {p : Pool} {t : PageFrame} {r : Interval} {i j : Nat}, p.Orderly → Held p root →
      r.Pages b i j → (∀ n, i ≤ n → n < j → tableOn p root n below = some t) →
      Brings (fillTable source prot below t r) p fun _ q => Extended root p q)
    {part : Interval} (hpart : part.Pages b i j) (hij : i < j) (hcell : l.cell (j - 1) = l.cell i)
    (hp : p.Orderly) (hs : Held p root) (ht : tableOn p root i l = some t) :
    Brings (fillPart source prot l below t part) p fun _ q => Extended root p q := by
  have hi : i < 512 ^ 4 := Nat.lt_of_lt_of_le hij hpart.top
  rw [fillPart, Level.index_eq, hpart.pageNumber hij]
  refine Runs.bind (childOrCreate_brings hp hs hi ht hbelow) ?_
  rintro answer q ⟨hpq, hbehind⟩
  cases answer with
  | error e => exact Runs.throw trivial
  | ok next =>
    refine Runs.imp (ih hpq.orderly hpq.tables hpart fun n hin hnj => ?_) fun _ u hqu => hpq.trans hqu
    exact (tableOn_below hbelow hcell hin hnj).trans (hbehind next rfl)

theorem fillTable_brings (hsource : LeavesMemory source) (l : Level) {p : Pool} {t : PageFrame}
    {r : Interval} {i j : Nat} (hp : p.Orderly) (hs : Held p root) (hr : r.Pages b i j)
    (ht : ∀ n, i ≤ n → n < j → tableOn p root n l = some t) :
    Brings (fillTable source prot l t r) p fun _ q => Extended root p q := by
  induction l using Level.bottomUp generalizing p t r i j with
  | bottom =>
    refine hr.foldPieces (P := fun _ _ q => Extended root p q) ?_ (.refl hp hs)
    intro k c sum q page hik hkc hcj hcell hpage hq
    obtain rfl := Level.eq_succ_of_cell hkc hcell
    have hon := hq.kept k hpage.top .pt t (ht k hik hcj)
    exact Runs.imp (fillPage_brings hsource hpage hq.orderly hq.tables hon) fun _ _ h => hq.trans h
  | step l below hbelow ih =>
    rw [fillTable_next hbelow]
    refine hr.foldPieces (P := fun _ _ q => Extended root p q) ?_ (.refl hp hs)
    intro k c sum q part hik hkc hcj hcell hpart hq
    have hon := hq.kept k (Nat.lt_of_lt_of_le hkc hpart.top) l t (ht k hik (by omega))
    exact Runs.imp (fillPart_brings hbelow ih hpart hkc hcell hq.orderly hq.tables hon) fun _ _ h =>
      hq.trans h

end Walk

end PagedMemory
