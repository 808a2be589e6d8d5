import Mathlib.Tactic
import PagedMemory.Proofs.Growth
import PagedMemory.Proofs.Pieces

/-!
# Filling, page by page

How far a fill has come is told by the number of pages that it has mapped, which is also the number
of frames that it has taken from its source. Nothing is asked of the entries of the tree; tables
are put where they are missing and where an entry is malformed.

* `Walk.pageAfter`: the pages of a range in order. After the last page of a block comes the first.
* `Walk.Laid`: what the first pages of a range show, and that nothing else has changed.
* `Walk.Reached`, `Walk.Stops`: a fill that goes on, and one that has ended early, with the cause.
* `Walk.fillTable_runs`: each part of a fill takes it from one page to another, or stops it.
-/

namespace PagedMemory

open Tables Machine

theorem Level.cell_between {l : Level} {k n c : Nat} (h : l.cell (c - 1) = l.cell k) (hk : k ≤ n)
    (hn : n < c) : l.cell n = l.cell k := by
  have hlow : l.cell k ≤ l.cell n := Nat.div_le_div_right hk
  have hhigh : l.cell n ≤ l.cell (c - 1) := Nat.div_le_div_right (by omega)
  omega

/-- At the lowest level a part is a page. -/
theorem Level.eq_succ_of_cell {k c : Nat} (hkc : k < c) (h : Level.pt.cell (c - 1) = Level.pt.cell k) :
    c = k + 1 := by
  rw [Level.cell_pt, Level.cell_pt] at h
  omega

/-- The block of an address goes on where the one before it ends. -/
theorem VirtAddr.ofPage_add (b w n : Nat) :
    VirtAddr.ofPage (b + w) n = .ofPage b (n + w * 512 ^ 4) := by
  have hsum : (b + w) * 2 ^ 48 + n * 4096 = b * 2 ^ 48 + (n + w * 512 ^ 4) * 4096 := by omega
  rw [VirtAddr.ofPage, VirtAddr.ofPage, hsum]

/-- The frames of a sequence, as a source. -/
def FrameSource.of (frames : Nat → Option PageFrame) : FrameSource := fun k => return frames k

namespace Walk

/-! ## The pages of a range -/

/-- The page that comes `k` pages after page `i`. -/
def pageAfter (i k : Nat) : Nat := (i + k) % 512 ^ 4

theorem pageAfter_lt (i k : Nat) : pageAfter i k < 512 ^ 4 := Nat.mod_lt _ (by decide)

theorem pageAfter_eq {i k n w : Nat} (h : i + k = n + w * 512 ^ 4) (hn : n < 512 ^ 4) :
    pageAfter i k = n := by
  rw [pageAfter, h, Nat.add_mul_mod_self_right, Nat.mod_eq_of_lt hn]

theorem pageAfter_of_lt {i k : Nat} (h : i + k < 512 ^ 4) : pageAfter i k = i + k :=
  Nat.mod_eq_of_lt h

/-- No page comes twice in a range that is not longer than a block. -/
theorem pageAfter_inj {i c k : Nat} (hc : c < 512 ^ 4) (hk : k < 512 ^ 4)
    (h : pageAfter i c = pageAfter i k) : c = k := by
  have hmod : c ≡ k [MOD 512 ^ 4] := Nat.ModEq.add_left_cancel' i h
  rwa [Nat.ModEq, Nat.mod_eq_of_lt hc, Nat.mod_eq_of_lt hk] at hmod

/-- The first `total` pages from page `i` on. -/
def pagesAfter (i total : Nat) : Finset Nat := (Finset.range total).image (pageAfter i)

theorem lt_of_mem_pagesAfter {i total n : Nat} (h : n ∈ pagesAfter i total) : n < 512 ^ 4 := by
  obtain ⟨k, -, rfl⟩ := Finset.mem_image.1 h
  exact pageAfter_lt i k

theorem pageAfter_mem {i total k : Nat} (h : k < total) : pageAfter i k ∈ pagesAfter i total :=
  Finset.mem_image_of_mem _ (Finset.mem_range.2 h)

/-! ## How far a fill has come -/

variable {front : Front} {p q : Pool} {root t : PageFrame} {l below : Level} {b w i total k n : Nat}
  {es fs : List Event} {frames : Nat → Option PageFrame} {prot : Entry}

/-- The events of mapping the first `count` pages from `lo` on. -/
def mappings (b lo : Nat) (frames : Nat → Option PageFrame) (count : Nat) : List Event :=
  (List.range count).filterMap fun k => (frames k).map fun f => .mapped (.ofPage b (lo + k)) f

theorem mappings_succ {lo : Nat} {f : PageFrame} (hf : frames k = some f) :
    mappings b lo frames (k + 1) = mappings b lo frames k ++ [.mapped (.ofPage b (lo + k)) f] := by
  rw [mappings, mappings, List.range_succ, List.filterMap_append]
  simp [hf]

/-- In all states that a walk can make of `p`, the source has these frames. -/
def Gives (source : FrameSource) (root : PageFrame) (p : Pool)
    (frames : Nat → Option PageFrame) : Prop :=
  ∀ back q k, Grown root p q → Does back (source k) q fun f u => f = frames k ∧ u = q

theorem gives_of : Gives (.of frames) root p frames := fun _ _ _ _ => Runs.pure ⟨rfl, rfl⟩

theorem gives_ofList {frames : List PageFrame} : Gives (.ofList frames) root p fun k => frames[k]? :=
  gives_of

/-- Of the `total` pages from page `i` on the first `k` have been mapped to the first frames. They
were free, and no other page has changed. -/
structure Laid (root : PageFrame) (p : Pool) (frames : Nat → Option PageFrame) (prot : Entry)
    (i total k : Nat) (q : Pool) : Prop extends Paid root (pagesAfter i total) p q where
  free : ∀ c < k, leafOn p root (pageAfter i c) = .empty
  shows : ∀ c < k, ∃ f, frames c = some f ∧ f.Numbered ∧
    leafOn q root (pageAfter i c) = .leafTo f prot
  others : ∀ n < 512 ^ 4, (∀ c < k, pageAfter i c ≠ n) → leafOn q root n = leafOn p root n

/-- A fill of the pages from page `i` of block `b` on is about to map the page of number `k` among
them. -/
structure Reached (root : PageFrame) (p : Pool) (es : List Event)
    (frames : Nat → Option PageFrame) (prot : Entry) (b i total k : Nat)
    (t : Pool × List Event × Nat) : Prop where
  laid : Laid root p frames prot i total k t.1
  taken : t.2.2 = k
  /-- on a tree as it has to be nothing else is noted -/
  notes : Tables.Sound p root → t.2.1 = es ++ mappings b i frames k

/-- Why a fill ends at the page of number `k`, and how many frames it has taken by then. -/
inductive Stopped (root : PageFrame) (p : Pool) (frames : Nat → Option PageFrame) (b i k : Nat)
    (q : Pool) : Halt → Nat → Prop
  | noTable {l : Level} (supply : q.supply = 0) (lacks : tableOn q root (pageAfter i k) l = none) :
      Stopped root p frames b i k q (.failed .noTable) k
  | tooFewFrames (none : frames k = none) :
      Stopped root p frames b i k q (.failed .tooFewFrames) k
  | livePage (mapped : leafOn p root (pageAfter i k) ≠ .empty) :
      Stopped root p frames b i k q (.fault (.livePage (.ofPage b (i + k)))) k
  | notNumbered {f : PageFrame} (frame : frames k = some f) (high : ¬ f.Numbered) :
      Stopped root p frames b i k q (.fault (.fieldTooSmall EntryField.frameNumber.max)) (k + 1)

/-- A fill that has ended before all pages were mapped. -/
def Stops (root : PageFrame) (p : Pool) (es : List Event) (frames : Nat → Option PageFrame)
    (prot : Entry) (b i total : Nat) (h : Halt) (t : Pool × List Event × Nat) : Prop :=
  ∃ k < total, Laid root p frames prot i total k t.1 ∧
    Stopped root p frames b i k t.1 h t.2.2 ∧
    ∀ e, h = .failed e → Reached root p es frames prot b i total k t

theorem Laid.refl (hp : p.Sound) (hs : Held p root) : Laid root p frames prot i total 0 p where
  toPaid := .refl hp hs
  free := nofun
  shows := nofun
  others _ _ _ := rfl

theorem Reached.start (hp : p.Sound) (hs : Held p root) :
    Reached root p es frames prot b i total 0 (p, es, 0) where
  laid := .refl hp hs
  taken := rfl
  notes _ := (List.append_nil es).symm

/-- The page that comes next is as it was. -/
theorem Laid.leaf_next (h : Laid root p frames prot i total k q) (hk : k < 512 ^ 4) :
    leafOn q root (pageAfter i k) = leafOn p root (pageAfter i k) := by
  refine h.others _ (pageAfter_lt i k) fun c hc heq => ?_
  have hck := pageAfter_inj (Nat.lt_trans hc hk) hk heq
  omega

/-- Tables that are opened do not disturb a fill. -/
theorem Laid.open (h : Laid root p frames prot i total k q) {u : Pool}
    (hu : Paid root (pagesAfter i total) q u)
    (hleaf : ∀ n < 512 ^ 4, leafOn u root n = leafOn q root n) :
    Laid root p frames prot i total k u where
  toPaid := h.toPaid.trans hu
  free := h.free
  shows c hc := by
    obtain ⟨f, hf, hnumbered, hshows⟩ := h.shows c hc
    exact ⟨f, hf, hnumbered, (hleaf _ (pageAfter_lt i c)).trans hshows⟩
  others n hn hout := (hleaf n hn).trans (h.others n hn hout)

/-- One more page is mapped. -/
theorem Laid.next (h : Laid root p frames prot i total k q) (hk : k < 512 ^ 4)
    (ht : tableOn q root (pageAfter i k) .pt = some t)
    (hempty : leafOn q root (pageAfter i k) = .empty) {f : PageFrame} (hf : frames k = some f)
    (hnumbered : f.Numbered) :
    Laid root p frames prot i total (k + 1)
      (q.withEntry t (Level.pt.slot (pageAfter i k)) (.leafTo f prot)) where
  toPaid := h.toPaid.trans (.of_store (fun _ => lt_of_mem_pagesAfter) h.sound h.tables
    (pageAfter_lt i k) ht (Or.inr (Entry.leafTo_present hnumbered prot)))
  free c hc := by
    rcases Nat.lt_succ_iff_lt_or_eq.1 hc with hc | rfl
    · exact h.free c hc
    · exact (h.leaf_next hk).symm.trans hempty
  shows c hc := by
    rw [h.tables.formed.leafOn_store (pageAfter_lt i k) ht (pageAfter_lt i c)]
    rcases Nat.lt_succ_iff_lt_or_eq.1 hc with hc | rfl
    · have hne : pageAfter i c ≠ pageAfter i k := fun heq => by
        have hck := pageAfter_inj (Nat.lt_trans hc hk) hk heq
        omega
      rw [if_neg hne]
      exact h.shows c hc
    · exact ⟨f, hf, hnumbered, if_pos rfl⟩
  others n hn hout := by
    rw [h.tables.formed.leafOn_store (pageAfter_lt i k) ht hn,
      if_neg (hout k (Nat.lt_succ_self k)).symm]
    exact h.others n hn fun c hc => hout c (Nat.lt_succ_of_lt hc)

/-! ## Steps of a fill -/

variable {source : FrameSource}

theorem nextFrame_runs {frame : Option PageFrame}
    (h : ∀ back, Does back (source k) q fun f u => f = frame ∧ u = q) :
    Runs Filling.noted front (FillM.nextFrame source) (q, fs, k)
      (fun f u => frame = some f ∧ u = (q, fs, k + 1))
      fun e u => frame = none ∧ e = .failed .tooFewFrames ∧ u = (q, fs, k) := by
  refine Runs.bind_get fun s hs _ => ?_
  obtain ⟨-, hrest⟩ := Prod.mk.inj hs
  obtain ⟨-, rfl⟩ := Prod.mk.inj hrest
  refine Runs.bind (Q := fun f u => f = frame ∧ u = (q, fs, s.taken))
    (Runs.onFilling (Does.noted ?_)) ?_
  · refine Runs.imp (h _) ?_
    rintro f _ ⟨rfl, rfl⟩
    exact ⟨rfl, rfl⟩
  · rintro f _ ⟨rfl, rfl⟩
    cases f with
    | none => exact Runs.throw ⟨rfl, rfl, rfl⟩
    | some f =>
      refine Runs.bind_modify (u := (q, fs, s.taken + 1)) ?_ (Runs.pure ⟨rfl, rfl⟩)
      rintro s' hs'
      obtain ⟨hpool, hrest'⟩ := Prod.mk.inj hs'
      obtain ⟨hnotes, htaken⟩ := Prod.mk.inj hrest'
      exact ⟨Prod.ext hpool (Prod.ext hnotes (congrArg (· + 1) htaken)), rfl⟩

/-- Mapping one page, which is that of number `k` in the range. -/
theorem fillPage_runs (hsource : Gives source root p frames) (htotal : total ≤ 512 ^ 4)
    {page : Interval} (hpage : page.Pages (b + w) n (n + 1)) (hk : k < total)
    (hplace : i + k = n + w * 512 ^ 4) (h : Reached root p es frames prot b i total k (q, fs, k))
    (ht : tableOn q root n .pt = some t) :
    Runs Filling.noted front (fillPage source prot t page) (q, fs, k)
      (fun count u => count = 1 ∧ Reached root p es frames prot b i total (k + 1) u ∧
        Grown root q u.1)
      (Stops root p es frames prot b i total) := by
  have hn : n < 512 ^ 4 := hpage.top
  have hlt : k < 512 ^ 4 := Nat.lt_of_lt_of_le hk htotal
  obtain rfl : pageAfter i k = n := pageAfter_eq hplace hn
  have hs := h.laid.tables
  have hindex : Level.pt.index page.start = Level.pt.slot (pageAfter i k) := by
    rw [Level.index_eq, hpage.pageNumber (Nat.lt_succ_self _)]
  have hstart : page.start = .ofPage b (i + k) := by
    rw [hpage.start_eq, VirtAddr.ofPage_add, ← hplace]
  rw [fillPage, hindex, hstart]
  refine Runs.bind (Q := fun e u => e = leafOn q root (pageAfter i k) ∧ u = (q, fs, k))
    (Runs.onFilling (Does.noted ?_)) ?_
  · refine Runs.imp (entry_does (hs.formed.has hn ht) _) ?_
    rintro e _ ⟨rfl, rfl⟩
    exact ⟨(leafOn_eq ht).symm, rfl⟩
  rintro e _ ⟨rfl, rfl⟩
  by_cases hempty : leafOn q root (pageAfter i k) = .empty
  · rw [if_pos (Entry.isEmpty_iff.2 hempty)]
    refine Runs.bind (Runs.mono (nextFrame_runs fun back => hsource back q k h.laid.toGrown)
      (fun _ _ hf => hf) ?_) ?_
    · rintro e _ ⟨hnone, rfl, rfl⟩
      exact ⟨k, hk, h.laid, .tooFewFrames hnone, fun _ _ => h⟩
    rintro f _ ⟨hf, rfl⟩
    by_cases hnumbered : f.Numbered
    · refine Runs.bind (Q := fun _ u => Reached root p es frames prot b i total (k + 1) u ∧
        Grown root q u.1) (Runs.onFilling ?_) ?_
      · refine Runs.bind_lift (Entry.leaf_eq hnumbered prot) ?_
        refine Does.bind_noted (setEntry_does (hs.formed.has hn ht) _ _) ?_
        rintro _ _ rfl
        refine Runs.emit ⟨⟨h.laid.next hlt ht hempty hf hnumbered, rfl, fun hsound => ?_⟩,
          .of_store h.laid.sound hs hn ht (Or.inr (Entry.leafTo_present hnumbered prot))⟩
        have hfs : fs = es ++ mappings b i frames k := h.notes hsound
        rw [hfs, mappings_succ hf, List.append_assoc]
        rfl
      · intro _ u hu
        exact Runs.pure ⟨rfl, hu⟩
    · refine Runs.bind (Q := fun _ _ => False) (Runs.onFilling ?_) fun _ _ hu => hu.elim
      refine Runs.bind_lift_error (Entry.leaf_of_not_numbered hnumbered prot) ?_
      exact ⟨k, hk, h.laid, .notNumbered hf hnumbered, nofun⟩
  · rw [if_neg (Entry.isEmpty_iff.not.2 hempty)]
    refine Runs.bind (Q := fun _ u => u.1 = q ∧ u.2.2 = k) (Runs.onFilling (Runs.emit ⟨rfl, rfl⟩)) ?_
    rintro _ ⟨u, gs, k'⟩ ⟨hu, hk'⟩
    obtain rfl : u = q := hu
    obtain rfl : k' = k := hk'
    rw [h.laid.leaf_next hlt] at hempty
    exact Runs.throw ⟨k', hk, h.laid, .livePage hempty, nofun⟩

/-- Filling the part of a range that one entry of an upper table stands for. -/
def fillPart (source : FrameSource) (prot : Entry) (l below : Level) (t : PageFrame)
    (part : Interval) : FillM Nat := do
  let next ← FillM.onMachine (childOrCreate l t (l.index part.start))
  fillTable source prot below (← FillM.orFail next) part

theorem fillTable_next (h : l.next? = some below) (t : PageFrame) (r : Interval) :
    fillTable source prot l t r = r.foldPieces l (fillPart source prot l below t) := by
  unfold fillTable
  rw [Level.descend_next h]
  rfl

/-- What is to be shown of the filling of one table: it takes a fill from page `m` to page `c` of
one block. -/
def FillsTable (front : Front) (root : PageFrame) (p : Pool) (es : List Event)
    (source : FrameSource) (frames : Nat → Option PageFrame) (prot : Entry) (b i total : Nat)
    (l : Level) : Prop :=
  ∀ {q : Pool} {fs : List Event} {t : PageFrame} {r : Interval} {w m c k : Nat},
    r.Pages (b + w) m c → i + k = m + w * 512 ^ 4 → k + (c - m) ≤ total →
    Reached root p es frames prot b i total k (q, fs, k) →
    (∀ n, m ≤ n → n < c → tableOn q root n l = some t) →
    Runs Filling.noted front (fillTable source prot l t r) (q, fs, k)
      (fun count u => count = c - m ∧ Reached root p es frames prot b i total (k + (c - m)) u ∧
        Grown root q u.1)
      (Stops root p es frames prot b i total)

theorem fillPart_runs (hbelow : l.next? = some below)
    (ih : FillsTable front root p es source frames prot b i total below) {part : Interval} {m c : Nat}
    (hpart : part.Pages (b + w) m c) (hmc : m < c) (hplace : i + k = m + w * 512 ^ 4)
    (htotal : k + (c - m) ≤ total) (hcell : l.cell (c - 1) = l.cell m)
    (h : Reached root p es frames prot b i total k (q, fs, k)) (ht : tableOn q root m l = some t) :
    Runs Filling.noted front (fillPart source prot l below t part) (q, fs, k)
      (fun count u => count = c - m ∧ Reached root p es frames prot b i total (k + (c - m)) u ∧
        Grown root q u.1)
      (Stops root p es frames prot b i total) := by
  have hm : m < 512 ^ 4 := Nat.lt_of_lt_of_le hmc hpart.top
  have hk : k < total := by omega
  obtain hpage : pageAfter i k = m := pageAfter_eq hplace hm
  have hmem : m ∈ pagesAfter i total := hpage ▸ pageAfter_mem hk
  rw [fillPart, Level.index_eq, hpart.pageNumber hmc]
  refine Runs.bind (Q := fun answer u => Opened root (pagesAfter i total) m below q answer u.1 ∧
    (Tables.Sound q root → u.2.1 = fs) ∧ u.2.2 = k) (Runs.onFilling ?_) ?_
  · refine Runs.imp (childOrCreate_runs h.laid.sound h.laid.tables (fun _ => lt_of_mem_pagesAfter)
      hmem ht hbelow) ?_
    exact fun _ _ hnext => ⟨hnext.1, hnext.2, rfl⟩
  rintro answer ⟨q₁, fs₁, k₁⟩ ⟨hopened, hnotes, hk₁⟩
  obtain rfl : k₁ = k := hk₁
  -- a new table maps nothing, so that the pages in front of the part are still all there is
  have h₁ : Reached root p es frames prot b i total k₁ (q₁, fs₁, k₁) := {
    laid := h.laid.open hopened.toPaid hopened.leaf
    taken := rfl
    notes := fun hsound => (hnotes (h.laid.intact hsound)).trans (h.notes hsound) }
  have hbehind := hopened.behind
  cases answer with
  | error e =>
    obtain ⟨rfl, hsupply, hlacks⟩ := hbehind
    rw [← hpage] at hlacks
    exact Runs.throw ⟨k₁, hk, h₁.laid, .noTable hsupply hlacks, fun _ _ => h₁⟩
  | ok next =>
    refine Runs.imp (ih hpart hplace htotal h₁ fun n hmn hnc => ?_) ?_
    · have hn := Level.cell_between hcell hmn hnc
      rw [← Level.group_next hbelow, ← Level.group_next hbelow] at hn
      exact (tableOn_congr hn).trans hbehind
    · rintro _ u ⟨hcount, hu, hqu⟩
      exact ⟨hcount, hu, hopened.toGrown.trans hqu⟩

/-- Visits that take a fill from part to part take it through the whole range. -/
theorem Reached.foldPieces {visit : Interval → FillM Nat} {r : Interval} {m c : Nat}
    (hr : r.Pages (b + w) m c)
    (hvisit : ∀ {u : Pool} {gs : List Event} {part : Interval} {j d : Nat},
      m ≤ j → j < d → d ≤ c → l.cell (d - 1) = l.cell j → part.Pages (b + w) j d →
      Reached root p es frames prot b i total (k + (j - m)) (u, gs, k + (j - m)) → Grown root q u →
      Runs Filling.noted front (visit part) (u, gs, k + (j - m))
        (fun count v => count = d - j ∧
          Reached root p es frames prot b i total (k + (j - m) + (d - j)) v ∧ Grown root u v.1)
        (Stops root p es frames prot b i total))
    (h : Reached root p es frames prot b i total k (q, fs, k)) :
    Runs Filling.noted front (r.foldPieces l visit) (q, fs, k)
      (fun count u => count = c - m ∧ Reached root p es frames prot b i total (k + (c - m)) u ∧
        Grown root q u.1)
      (Stops root p es frames prot b i total) := by
  refine hr.foldPieces (P := fun j count u => count = j - m ∧
    Reached root p es frames prot b i total (k + (j - m)) u ∧ Grown root q u.1) ?_
    ⟨(Nat.sub_self m).symm, by rwa [Nat.sub_self], .refl h.laid.sound h.laid.tables⟩
  rintro j d sum ⟨u, gs, k'⟩ part hmj hjd hdc hcell hpart ⟨hsum, hu, hqu⟩
  obtain rfl : k' = k + (j - m) := hu.taken
  refine Runs.imp (hvisit hmj hjd hdc hcell hpart hu hqu) ?_
  rintro count v ⟨rfl, hv, huv⟩
  have hcount : k + (j - m) + (d - j) = k + (d - m) := by omega
  exact ⟨by omega, hcount ▸ hv, hqu.trans huv⟩

theorem fillTable_runs (hsource : Gives source root p frames) (htop : total ≤ 512 ^ 4) (l : Level) :
    FillsTable front root p es source frames prot b i total l := by
  induction l using Level.bottomUp with
  | bottom =>
    intro q fs t r w m c k hr hplace htotal h ht
    refine Reached.foldPieces hr ?_ h
    intro u gs page j d hmj hjd hdc hcell hpage hu hqu
    obtain rfl := Level.eq_succ_of_cell hjd hcell
    have hon := hqu.kept j hpage.top .pt t (ht j hmj hdc)
    refine Runs.imp (fillPage_runs hsource htop hpage (by omega) (by omega) hu hon) ?_
    rintro count v ⟨rfl, hv, huv⟩
    exact ⟨(Nat.add_sub_cancel_left j 1).symm, by rwa [Nat.add_sub_cancel_left], huv⟩
  | step l below hbelow ih =>
    intro q fs t r w m c k hr hplace htotal h ht
    rw [fillTable_next hbelow]
    refine Reached.foldPieces hr ?_ h
    intro u gs part j d hmj hjd hdc hcell hpart hu hqu
    have hon := hqu.kept j (Nat.lt_of_lt_of_le hjd hpart.top) l t (ht j hmj (by omega))
    exact fillPart_runs hbelow ih hpart hjd (by omega) (by omega) hcell hu hon

/-- A fill run from its start, where only a fault is a fault. -/
theorem exec_runs {α : Type} {x : FillM α} {Q : α → Pool × List Event × Nat → Prop}
    {E : Halt → Pool × List Event × Nat → Prop} (h : Runs Filling.noted front x (p, es, k) Q E) :
    Runs Machine.noted front (x.exec k) (p, es)
      (fun answer t => match answer.1 with
        | .ok a => Q a (t.1, t.2, answer.2)
        | .error e => E (.failed e) (t.1, t.2, answer.2))
      fun f t => ∃ k, E (.fault f) (t.1, t.2, k) := by
  intro m hm hfront
  obtain ⟨hpool, hnotes⟩ := Machine.noted_eq hm
  have hx := h ⟨m, k⟩ (Prod.ext hpool (Prod.ext hnotes rfl)) hfront
  rw [Ends] at hx ⊢
  rw [FillM.exec]
  rcases hrun : x ⟨m, k⟩ with ⟨a, m', k'⟩ | ⟨_ | e, m', k'⟩
  · rw [hrun] at hx
    exact hx
  · rw [hrun] at hx
    exact ⟨hx.1, k', hx.2⟩
  · rw [hrun] at hx
    exact hx

theorem checkAligned_does {back : Backdrop} {r : Interval} (h : r.isAligned = true) :
    Does back (checkAligned r) p fun _ q => q = p := by
  rw [checkAligned, if_pos h]
  exact Runs.pure rfl

end Walk

end PagedMemory
