import Mathlib.Tactic
import PagedMemory.Proofs.Blocks

/-!
# Mapping a range

All ways in which the mapping of a range can end, below a root whose tables are frames in use, each
in one place. Entries may be malformed, and nothing is asked of what free frames hold.

* `Walk.fillRange_runs`: a fill of a range takes it from page to page, in one block or two.
* `Walk.Mapped`: the first pages of a range are mapped, and what has not changed.
* `Walk.CutShort`: why no more of them are.
* `Walk.fill_maps`: one or the other, and exactly when all pages are mapped.
-/

namespace PagedMemory

open Tables

namespace Walk

variable {front : Front} {p q : Pool} {root : PageFrame} {b i total k : Nat} {es : List Event}
  {frames : List PageFrame} {prot : Entry} {source : FrameSource} {r : Interval}

/-! ## One block or two -/

/-- Filling a range is filling what lies in one block, and then what lies in the next. -/
theorem fillTable_across {mid : VirtAddr} {rest : Nat}
    (hfirst : Interval.Pages ⟨r.start, mid⟩ b i (512 ^ 4))
    (hsecond : Interval.Pages ⟨mid, r.stop⟩ (b + 1) 0 rest) :
    fillTable source prot .pml4 root r = (do
      let first ← fillTable source prot .pml4 root ⟨r.start, mid⟩
      let second ← fillTable source prot .pml4 root ⟨mid, r.stop⟩
      return first + second) := by
  have hnext : Level.pml4.next? = some .pdpt := rfl
  rw [fillTable_next hnext, fillTable_next hnext, fillTable_next hnext]
  exact Interval.foldPieces_append (Interval.pieces_across hfirst hsecond .pml4) _

theorem fillRange_runs {given : Nat → Option PageFrame} (hsource : Gives source root p given)
    (hp : p.Sound) (hs : Held p root) (hr : r.Stretch b i total) (htotal : total ≤ 512 ^ 4) :
    Runs Filling.noted front (fillTable source prot .pml4 root r) (p, es, 0)
      (fun count u => count = total ∧ Reached root p es given prot b i total total u)
      (Stops root p es given prot b i total) := by
  have hstart : Reached root p es given prot b i total 0 (p, es, 0) := .start hp hs
  have hfill : FillsTable front root p es source given prot b i total .pml4 :=
    fillTable_runs hsource htotal .pml4
  cases hr with
  | within hpages =>
    have hpages' : r.Pages (b + 0) i (i + total) := hpages
    refine Runs.imp (hfill hpages' (by omega) (by omega) hstart fun _ _ _ => rfl) ?_
    rintro count u ⟨rfl, hu, -⟩
    rw [Nat.zero_add, Nat.add_sub_cancel_left] at hu
    exact ⟨Nat.add_sub_cancel_left i total, hu⟩
  | @across mid rest hfirst hsecond htotal_eq =>
    have hi := hfirst.le
    have hfirst' : Interval.Pages ⟨r.start, mid⟩ (b + 0) i (512 ^ 4) := hfirst
    rw [fillTable_across hfirst hsecond]
    refine Runs.bind (hfill hfirst' (by omega) (by omega) hstart fun _ _ _ => rfl) ?_
    rintro first ⟨u, gs, taken⟩ ⟨rfl, hu, -⟩
    obtain rfl : taken = 0 + (512 ^ 4 - i) := hu.taken
    refine Runs.bind (hfill hsecond (by omega) (by omega) hu fun _ _ _ => rfl) ?_
    rintro second v ⟨hcount, hv, -⟩
    have hsum : 0 + (512 ^ 4 - i) + (rest - 0) = total := by omega
    rw [hsum] at hv
    exact Runs.pure ⟨by omega, hv⟩

/-! ## How it can end -/

/-- The first `k` pages of `r` have been mapped to the first `k` frames, which are all that was taken
from the source, and no other page has changed. -/
structure Mapped (root : PageFrame) (r : Interval) (prot : Entry) (frames : List PageFrame)
    (m : Machine) (k : Nat) (s : Filling) : Prop where
  taken : s.taken = k
  leaf : ∀ c < k, ∃ f, frames[c]? = some f ∧
    Entry.leaf f prot = .ok (leafOn s.machine.pool root (r.page c).pageNumber)
  outside : ∀ a, ¬ (r.first k).Meets a → whereIs root s.machine a = whereIs root m a
  /-- no table is lost -/
  kept : ∀ n < 512 ^ 4, ∀ l t, tableOn m.pool root n l = some t →
    tableOn s.machine.pool root n l = some t
  /-- no frame is given back -/
  inUse : ∀ f, m.pool.isTaken f = true → s.machine.pool.isTaken f = true
  /-- what has come into use are tables, put where there was none -/
  fresh : ∀ f, m.pool.isTaken f = false → (s.machine.pool.isTaken f = true ↔
    ∃ n < 512 ^ 4, ∃ l, tableOn s.machine.pool root n l = some f ∧ tableOn m.pool root n l = none)
  /-- only tables and frames that were free were written -/
  page : ∀ f, m.pool.isTaken f = true → ¬ IsTable m.pool root f →
    s.machine.pool.page f = m.pool.page f
  /-- the tree is as it has to be for another walk -/
  tables : Held s.machine.pool root
  sound : s.machine.pool.Sound

/-- Why the page of number `k` could not be mapped. -/
inductive CutShort (root : PageFrame) (r : Interval) (frames : List PageFrame) (m : Machine) (k : Nat)
    (s : Filling) : Halt → Prop
  | noTable {l : Level} (supply : s.machine.pool.supply = 0)
      (lacks : tableOn s.machine.pool root (r.page k).pageNumber l = none) :
      CutShort root r frames m k s (.failed .noTable)
  | tooFewFrames (all : frames.length = k) : CutShort root r frames m k s (.failed .tooFewFrames)
  | livePage (mapped : leafOn m.pool root (r.page k).pageNumber ≠ .empty) :
      CutShort root r frames m k s (.fault (.livePage (r.page k)))

/-- What it takes to map all of a range: its pages are free, there is a frame for each, and there are
as many free frames as the pages lack tables. -/
structure Mappable (root : PageFrame) (r : Interval) (frames : List PageFrame) (p : Pool) : Prop where
  free : ∀ k < r.pageTotal, leafOn p root (r.page k).pageNumber = .empty
  enough : r.pageTotal ≤ frames.length
  supplied : lacking p root (pagesAfter r.start.pageNumber r.pageTotal) ≤ p.supply

section

variable {m : Machine} {s : Filling} (haligned : r.isAligned = true)

include haligned

theorem Laid.mapped (hs : Held m.pool root) (hk : k ≤ r.pageTotal) (htaken : s.taken = k)
    (h : Laid root m.pool (fun k => frames[k]?) prot r.start.pageNumber r.pageTotal k
      s.machine.pool) : Mapped root r prot frames m k s where
  taken := htaken
  leaf c hc := by
    obtain ⟨f, hf, hnumbered, hshows⟩ := h.shows c hc
    refine ⟨f, hf, ?_⟩
    rw [Interval.pageNumber_page haligned (hc.le.trans hk), hshows]
    exact Entry.leaf_eq hnumbered prot
  outside a ha := by
    have hout : ∀ c < k, pageAfter r.start.pageNumber c ≠ a.pageNumber := fun c hc hpage => by
      refine ha ((Interval.meets_iff (Interval.isAligned_first haligned hk)).2 ?_)
      rw [Interval.pageTotal_first hk, ← hpage]
      exact pageAfter_mem hc
    have hleaf := h.others _ a.pageNumber_lt hout
    rw [whereIs_eq h.tables.formed, whereIs_eq hs.formed, target, target, hleaf]
  kept := h.kept
  inUse f hf := (h.toGrown.taken f).2 (Or.inl hf)
  fresh f hf := by
    constructor
    · intro hnew
      rcases (h.toGrown.taken f).1 hnew with hold | ⟨n, hn, l, ht⟩
      · rw [hf] at hold
        cases hold
      · refine ⟨n, hn, l, ht, ?_⟩
        cases hwas : tableOn m.pool root n l with
        | none => rfl
        | some t =>
          obtain rfl := Option.some.inj ((h.kept n hn l t hwas).symm.trans ht)
          rw [hs.taken t ⟨n, hn, l, hwas⟩] at hf
          cases hf
    · rintro ⟨n, hn, l, ht, -⟩
      exact h.tables.taken f ⟨n, hn, l, ht⟩
  page := h.page
  tables := h.tables
  sound := h.sound

theorem Stopped.cutShort (hframes : ∀ f ∈ frames, f.Numbered) (hk : k < r.pageTotal)
    (hlaid : Laid root m.pool (fun k => frames[k]?) prot r.start.pageNumber r.pageTotal k
      s.machine.pool) {halt : Halt}
    (h : Stopped root m.pool (fun k => frames[k]?) (r.start.val.toNat / 2 ^ 48) r.start.pageNumber k
      s.machine.pool halt s.taken) : s.taken = k ∧ CutShort root r frames m k s halt := by
  have hpage := Interval.pageNumber_page haligned hk.le
  generalize htaken : s.taken = taken at h
  cases h with
  | noTable hsupply hlacks => exact ⟨rfl, .noTable hsupply (hpage ▸ hlacks)⟩
  | tooFewFrames hnone =>
    have hall : frames.length ≤ k := List.getElem?_eq_none_iff.1 hnone
    refine ⟨rfl, .tooFewFrames (Nat.le_antisymm hall (Nat.le_of_not_lt fun hlt => ?_))⟩
    obtain ⟨f, hf, -⟩ := hlaid.shows _ hlt
    rw [List.getElem?_eq_none_iff.2 (Nat.le_refl _)] at hf
    cases hf
  | livePage hmapped =>
    rw [← Interval.page_eq_ofPage haligned]
    exact ⟨rfl, .livePage (hpage ▸ hmapped)⟩
  | notNumbered hf hhigh => exact absurd (hframes _ (List.mem_of_getElem? hf)) hhigh

/-- A fill that has come to its end had all it takes. -/
theorem Laid.mappable
    (h : Laid root p (fun k => frames[k]?) prot r.start.pageNumber r.pageTotal r.pageTotal q) :
    Mappable root r frames p where
  free k hk := by
    rw [Interval.pageNumber_page haligned hk.le]
    exact h.free k hk
  enough := by
    by_contra hless
    obtain ⟨f, hf, -⟩ := h.shows _ (Nat.not_le.1 hless)
    rw [List.getElem?_eq_none_iff.2 (Nat.le_refl _)] at hf
    cases hf
  supplied := by
    -- all the tables that the pages lacked have been paid for
    have hnone : lacking q root (pagesAfter r.start.pageNumber r.pageTotal) = 0 := by
      refine lacking_eq_zero fun n hn hmissing => ?_
      obtain ⟨k, hk, rfl⟩ := Finset.mem_image.1 hn
      obtain ⟨f, -, hnumbered, hshows⟩ := h.shows k (Finset.mem_range.1 hk)
      rw [leafOn_eq_empty hmissing] at hshows
      have hpresent := Entry.leafTo_present hnumbered prot
      rw [← hshows] at hpresent
      exact absurd hpresent (by decide)
    have hspent := h.spent
    omega

/-- A fill that ends early lacked something. -/
theorem CutShort.not_mappable (hk : k < r.pageTotal)
    (hpaid : Paid root (pagesAfter r.start.pageNumber r.pageTotal) m.pool s.machine.pool)
    {halt : Halt} (h : CutShort root r frames m k s halt) : ¬ Mappable root r frames m.pool := by
  intro hall
  cases h with
  | noTable hsupply hlacks =>
    rw [Interval.pageNumber_page haligned hk.le] at hlacks
    have hpos := lacking_pos (pageAfter_mem hk) hlacks
    have hspent := hpaid.spent
    have hsupplied := hall.supplied
    omega
  | tooFewFrames hlength =>
    have henough := hall.enough
    omega
  | livePage hmapped => exact hmapped (hall.free k hk)

end

theorem fill_eq_exec {m : Machine} (haligned : r.isAligned = true) (taken : Nat) :
    fill root r prot source taken m = (fillTable source prot .pml4 root r).exec taken m := by
  rw [fill, checkAligned, if_pos haligned]
  rfl

/-- Mapping a range that is not longer than a block maps all its pages exactly if it can. Otherwise
it maps the first ones, up to the first that cannot be mapped, and it tells what that one lacked. -/
theorem fill_maps {m : Machine} (hp : m.pool.Sound) (hs : Held m.pool root)
    (haligned : r.isAligned = true) (hle : r.start.val ≤ r.stop.val)
    (hlength : r.stop.val.toNat - r.start.val.toNat ≤ 2 ^ 48) (hframes : ∀ f ∈ frames, f.Numbered) :
    fill root r prot (.ofList frames) 0 m =
        (fillTable (.ofList frames) prot .pml4 root r).exec 0 m ∧
      Ends (fillTable (.ofList frames) prot .pml4 root r) ⟨m, 0⟩
        (fun n s => n = r.pageTotal ∧ Mappable root r frames m.pool ∧
          Mapped root r prot frames m n s)
        (fun halt s => ¬ Mappable root r frames m.pool ∧
          ∃ k < r.pageTotal, Mapped root r prot frames m k s ∧ CutShort root r frames m k s halt) := by
  have hr := Interval.stretch haligned hle hlength
  have htotal : r.pageTotal ≤ 512 ^ 4 := by
    rw [Interval.pageTotal]
    omega
  have hruns : Runs Filling.noted m.front (fillTable (.ofList frames) prot .pml4 root r)
      (m.pool, m.notes, 0) _ _ := fillRange_runs gives_ofList hp hs hr htotal
  refine ⟨fill_eq_exec haligned 0, (hruns ⟨m, 0⟩ rfl rfl).mono ?_ ?_⟩
  · rintro n s ⟨-, rfl, hreached⟩
    exact ⟨rfl, hreached.laid.mappable haligned,
      hreached.laid.mapped haligned hs (Nat.le_refl _) hreached.taken⟩
  · rintro halt s ⟨-, k, hk, hlaid, hstopped, -⟩
    obtain ⟨htaken, hcut⟩ := hstopped.cutShort haligned hframes hk hlaid
    exact ⟨hcut.not_mappable haligned hk hlaid.toPaid, k, hk,
      hlaid.mapped haligned hs hk.le htaken, hcut⟩

/-- There are fewer free frames than the two pages lack tables. -/
theorem fill_maps_small :
    fill smallRoot smallRange .pageKernel (.ofList [smallRoot, smallRoot]) 0 small =
        (fillTable (.ofList [smallRoot, smallRoot]) .pageKernel .pml4 smallRoot smallRange).exec 0
          small ∧
      Ends (fillTable (.ofList [smallRoot, smallRoot]) .pageKernel .pml4 smallRoot smallRange)
        ⟨small, 0⟩
        (fun n s => n = 2 ∧ Mappable smallRoot smallRange [smallRoot, smallRoot] small.pool ∧
          Mapped smallRoot smallRange .pageKernel [smallRoot, smallRoot] small n s)
        (fun halt s => ¬ Mappable smallRoot smallRange [smallRoot, smallRoot] small.pool ∧
          ∃ k < 2, Mapped smallRoot smallRange .pageKernel [smallRoot, smallRoot] small k s ∧
            CutShort smallRoot smallRange [smallRoot, smallRoot] small k s halt) := by
  refine fill_maps small_sound small_held (by decide) (by decide) (by decide) ?_
  intro f hf
  obtain rfl : f = smallRoot := by simpa using hf
  exact (by decide : smallRoot.base.val.toNat < 2 ^ 52)

end Walk

end PagedMemory
