import Mathlib.Tactic
import PagedMemory.Proofs.Sweeping

/-!
# What walks do

* `Walk.clear_runs`: clearing a range leaves its pages unmapped and all others as they were, and one
  event tells of each page that was mapped.
* `Walk.fill_runs`: filling a range maps its pages to the frames of the source, in order, and one
  event tells of each of them. For want of a frame it can end early; then the pages up to some page
  are mapped and no others have changed. It is a fault if a page is mapped already, or a frame has no
  number that fits in an entry.

Both only add tables to the tree, as `Tables.Grown` says. They are told of trees as they have to
be, and of ranges within a block; `Walk.Wiped` and `Walk.Reached` say more, of any tree.
-/

namespace PagedMemory

open Tables Machine

/-! ## Clearing -/

namespace Walk

variable {front : Front} {p : Pool} {root : PageFrame} {b i j : Nat} {es : List Event}
  {lo hi count : Nat}

/-- A cleared page has this leaf. -/
abbrev cleared : Nat → Entry := fun _ => .empty

/-- The pages from `lo` up to `hi` have been cleared, and the events say so. -/
structure Cleared (root : PageFrame) (p : Pool) (es : List Event) (b lo hi : Nat)
    (t : Pool × List Event) : Prop where
  remapped : Remapped root lo hi cleared p t.1
  notes : t.2 = es ++ clearings p root b lo hi

theorem Wiped.cleared {t : Pool × List Event} (h : Wiped root p es b lo hi count t) (hp : p.Sound)
    (hs : Tables.Sound p root) : Cleared root p es b lo hi t where
  remapped := {
    toGrown := .of_tables hs.held (h.swept.sound hp) (h.swept.tables_sound hs).held
      h.swept.tables_sound h.swept.base h.swept.size h.swept.isTaken h.swept.table h.swept.page
    leaf := fun n hn => by
      split
      next hin => exact h.swept.emptied n hn hin
      next hout => exact h.swept.others n hn hout }
  notes := h.notes hs

variable {E : Fault → Pool × List Event → Prop}

/-- Clearing a range takes away the mappings of its pages, whatever they were, and nothing else. -/
theorem clear_runs (hp : p.Sound) (hs : Tables.Sound p root) {r : Interval} (hr : r.Pages b i j) :
    Runs Machine.noted front (clear root r) (p, es) (fun _ u => Cleared root p es b i j u) E := by
  refine Does.bind_noted (checkAligned_does hr.aligned) ?_
  rintro _ _ rfl
  refine Runs.imp (clearTable_runs .pml4 hs.formed hr fun _ _ _ => rfl) ?_
  exact fun _ _ hu => hu.cleared hp hs

end Walk

/-! ## Filling -/

namespace Walk

variable {front : Front} {p : Pool} {root : PageFrame} {b n : Nat} {es : List Event}
  {frames : Nat → Option PageFrame} {prot : Entry} {lo hi : Nat}

/-- The leaves of the pages from `lo` on, when they are mapped to `frames` under `prot`. -/
def mappedTo (frames : Nat → Option PageFrame) (prot : Entry) (lo n : Nat) : Entry :=
  match frames (n - lo) with
  | some f => .leafTo f prot
  | none => .empty

/-- A fill that began at page `lo` of the tree of `p` is about to map page `n`. -/
structure Filled (root : PageFrame) (p : Pool) (es : List Event) (frames : Nat → Option PageFrame)
    (prot : Entry) (b lo n : Nat) (t : Pool × List Event × Nat) : Prop where
  remapped : Remapped root lo n (mappedTo frames prot lo) p t.1
  notes : t.2.1 = es ++ mappings b lo frames (n - lo)
  taken : t.2.2 = n - lo
  /-- there was a frame for each page -/
  frame : ∀ k < n - lo, ∃ f, frames k = some f ∧ f.Numbered

/-- A fill of the pages from `lo` up to `hi` of the tree of `p` has changed no other pages. -/
structure Confined (root : PageFrame) (p : Pool) (lo hi : Nat) (q : Pool) : Prop where
  grown : Grown root p q
  others : ∀ n < 512 ^ 4, n < lo ∨ hi ≤ n → leafOn q root n = leafOn p root n

/-- What makes a fill fault: a page that is mapped already, or a frame that no entry can point to. -/
def Obstructed (root : PageFrame) (p : Pool) (frames : Nat → Option PageFrame) (lo hi : Nat) :
    Prop :=
  (∃ n, lo ≤ n ∧ n < hi ∧ leafOn p root n ≠ .empty) ∨ ∃ k f, frames k = some f ∧ ¬ f.Numbered

theorem Filled.confined {u : Pool × List Event × Nat} (h : Filled root p es frames prot b lo n u)
    (hn : n ≤ hi) : Confined root p lo hi u.1 where
  grown := h.remapped.toGrown
  others k hk hout := by
    rw [h.remapped.leaf k hk, if_neg (by omega)]

section

variable {total k : Nat} {q : Pool}

/-- Within a block, pages come one after the other. -/
theorem pageAfter_ne (hk : lo + k ≤ 512 ^ 4) (hout : n < lo ∨ lo + k ≤ n) {c : Nat} (hc : c < k) :
    pageAfter lo c ≠ n := by
  rw [pageAfter_of_lt (by omega)]
  omega

theorem Laid.confined (h : Laid root p frames prot lo total k q) (hk : lo + k ≤ hi)
    (htop : hi ≤ 512 ^ 4) : Confined root p lo hi q where
  grown := h.toGrown
  others n hn hout := h.others n hn fun _ => pageAfter_ne (hk.trans htop) (by omega)

theorem Laid.remapped (h : Laid root p frames prot lo total k q) (hk : lo + k ≤ 512 ^ 4) :
    Remapped root lo (lo + k) (mappedTo frames prot lo) p q where
  toGrown := h.toGrown
  leaf n hn := by
    split
    next hin =>
      obtain ⟨c, rfl⟩ := Nat.exists_eq_add_of_le hin.1
      obtain ⟨f, hf, -, hshows⟩ := h.shows c (by omega)
      rw [pageAfter_of_lt hn] at hshows
      rw [hshows, mappedTo, Nat.add_sub_cancel_left, hf]
    next hout => exact h.others n hn fun _ => pageAfter_ne hk (by omega)

theorem Reached.filled {t : Pool × List Event × Nat}
    (h : Reached root p es frames prot b lo total k t) (hs : Tables.Sound p root)
    (hk : lo + k ≤ 512 ^ 4) : Filled root p es frames prot b lo (lo + k) t where
  remapped := h.laid.remapped hk
  notes := by
    rw [Nat.add_sub_cancel_left]
    exact h.notes hs
  taken := h.taken.trans (Nat.add_sub_cancel_left lo k).symm
  frame c hc := by
    obtain ⟨f, hf, hnumbered, -⟩ := h.laid.shows c (by omega)
    exact ⟨f, hf, hnumbered⟩

/-- Only a page that is mapped and a frame that is too high are faults. -/
theorem Stopped.obstructed {f : Fault} {taken : Nat}
    (h : Stopped root p frames b lo k q (.fault f) taken) (hk : lo + k < hi) (htop : hi ≤ 512 ^ 4) :
    Obstructed root p frames lo hi := by
  cases h with
  | livePage hmapped =>
    rw [pageAfter_of_lt (by omega)] at hmapped
    exact Or.inl ⟨lo + k, Nat.le_add_right lo k, hk, hmapped⟩
  | notNumbered hframe hhigh => exact Or.inr ⟨k, _, hframe, hhigh⟩

/-- Where no page is mapped, it is for a frame that is too high that a fill faults. -/
theorem Stopped.high {f : Fault} {taken : Nat}
    (h : Stopped root p frames b lo k q (.fault f) taken) (hk : lo + k < hi) (htop : hi ≤ 512 ^ 4)
    (hempty : ∀ n, lo ≤ n → n < hi → leafOn p root n = .empty) :
    f = .fieldTooSmall EntryField.frameNumber.max ∧ ∃ g, frames k = some g ∧ ¬ g.Numbered := by
  cases h with
  | livePage hmapped =>
    rw [pageAfter_of_lt (by omega)] at hmapped
    exact absurd (hempty _ (Nat.le_add_right lo k) hk) hmapped
  | notNumbered hframe hhigh => exact ⟨rfl, _, hframe, hhigh⟩

end

variable {source : FrameSource}

/-- Filling a range maps all its pages to the first frames of the source, or the first pages if it
fails. It faults only if it is obstructed, and complains of the source only if that has too few. -/
theorem fill_runs (hp : p.Sound) (hs : Tables.Sound p root) (hsource : Gives source root p frames)
    {r : Interval} (hr : r.Pages b lo hi) :
    Runs Machine.noted front (fill root r prot source 0) (p, es)
      (fun answer t => match answer.1 with
        | .ok _ => Filled root p es frames prot b lo hi (t.1, t.2, answer.2)
        | .error e => (∃ n, lo ≤ n ∧ n ≤ hi ∧
            Filled root p es frames prot b lo n (t.1, t.2, answer.2)) ∧
            (e = .tooFewFrames → ∃ k < hi - lo, frames k = none))
      fun e t => (Obstructed root p frames lo hi ∧ (∀ f, e ≠ .doubleFree f) ∧
        Confined root p lo hi t.1) ∧ ((∀ n, lo ≤ n → n < hi → leafOn p root n = .empty) →
          e = .fieldTooSmall EntryField.frameNumber.max ∧
            ∃ k < hi - lo, ∃ f, frames k = some f ∧ ¬ f.Numbered) := by
  have hle := hr.le
  have htop := hr.top
  refine Does.bind_noted (checkAligned_does hr.aligned) ?_
  rintro _ p rfl
  have hr' : r.Pages (b + 0) lo hi := hr
  have htotal : hi - lo ≤ 512 ^ 4 := by omega
  have hstart : Reached root p es frames prot b lo (hi - lo) 0 (p, es, 0) := .start hp hs.held
  refine Runs.mono (exec_runs (fillTable_runs hsource htotal .pml4 hr' (by omega) (by omega) hstart
    fun _ _ _ => rfl)) ?_ ?_
  · rintro ⟨answer, taken⟩ t ht
    cases answer with
    | ok count =>
      have hfilled := ht.2.1.filled hs (by omega)
      rwa [Nat.zero_add, Nat.add_sub_cancel' hle] at hfilled
    | error e =>
      obtain ⟨k, hk, -, hstopped, hreached⟩ := ht
      refine ⟨⟨lo + k, Nat.le_add_right lo k, by omega, (hreached e rfl).filled hs (by omega)⟩, ?_⟩
      rintro rfl
      cases hstopped with
      | tooFewFrames hnone => exact ⟨_, hk, hnone⟩
  · rintro f t ⟨taken, k, hk, hlaid, hstopped, -⟩
    refine ⟨⟨hstopped.obstructed (by omega) htop, ?_, hlaid.confined (by omega) htop⟩, fun hempty => ?_⟩
    · cases hstopped <;> nofun
    · obtain ⟨hcause, f, hf, hhigh⟩ := hstopped.high (by omega) htop hempty
      exact ⟨hcause, k, hk, f, hf, hhigh⟩

end Walk

end PagedMemory
