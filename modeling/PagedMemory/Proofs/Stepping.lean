import Mathlib.Tactic
import PagedMemory.Proofs.Mapping
import PagedMemory.Proofs.Extending

/-!
# Page after page

A walk goes down to each table once, for all pages behind it. It comes to the same as a walk from the
root for each page of the range: the same memory, the same events in the same order, and the same
end, also where it ends early.

* `Interval.pages`: the pages of a range. `Walk.each`: they are walked one by one.
* `Interval.foldPieces_peel`: the first page of a range can be visited before the others, if that is so
  of the first part.
* `Walk.Steps`: what a walk has to be like for that. A fill is, by `fill_steps`, as the tables that it
  has made for one page are there for the next; a clearing is, by `clear_steps`.
* `Walk.fill_eq_fillEach`, `Walk.clear_eq_each`: the whole range and page after page.
-/

namespace PagedMemory

open Tables

section

variable {ε σ α β : Type} {x x' : EStateM ε σ α} {f f' : α → EStateM ε σ β} {s : σ}

theorem bind_congr_first (h : x s = x' s) : (x >>= f) s = (x' >>= f) s := by
  change EStateM.bind x f s = EStateM.bind x' f s
  rw [EStateM.bind, EStateM.bind, h]

theorem bind_congr_rest (h : ∀ a u, x s = .ok a u → f a u = f' a u) :
    (x >>= f) s = (x >>= f') s := by
  change EStateM.bind x f s = EStateM.bind x f' s
  rw [EStateM.bind, EStateM.bind]
  cases hx : x s with
  | ok a u => exact h a u hx
  | error e u => rfl

theorem bind_eq_of_ok {a : α} {u : σ} (h : x s = .ok a u) : (x >>= f) s = f a u := by
  change EStateM.bind x f s = _
  rw [EStateM.bind, h]

theorem bind_eq_of_error {e : ε} {u : σ} (h : x s = .error e u) : (x >>= f) s = .error e u := by
  change EStateM.bind x f s = _
  rw [EStateM.bind, h]

end

namespace Interval

variable {r : Interval} {l : Level} {mid : VirtAddr} {b i c : Nat}

/-! ## The pages of a range -/

/-- The pages of the range, one by one. -/
def pages (r : Interval) : List Interval :=
  (List.range r.pageTotal).map fun k => ⟨r.page k, r.page (k + 1)⟩

theorem page_zero (r : Interval) : r.page 0 = r.start := by
  simp [page]

theorem page_first (r : Interval) (k n : Nat) : (r.first k).page n = r.page n := rfl

theorem page_add (r : Interval) (k n : Nat) (stop : VirtAddr) :
    (Interval.mk (r.page k) stop).page n = r.page (k + n) := by
  rw [page, page, page, Nat.add_mul, UInt64.ofNat_add, UInt64.add_assoc]

/-- A range can be cut behind any of its pages. -/
theorem pages_append {k : Nat} (hk : k ≤ r.pageTotal) :
    r.pages = (r.first k).pages ++ (Interval.mk (r.page k) r.stop).pages := by
  have hrest : (Interval.mk (r.page k) r.stop).pageTotal = r.pageTotal - k := by
    have hpage := toNat_page hk
    simp only [pageTotal] at hk ⊢
    omega
  rw [pages, pages, pages, pageTotal_first hk, hrest]
  conv_lhs => rw [← Nat.add_sub_cancel' hk, List.range_add, List.map_append, List.map_map]
  congr 1
  refine List.map_congr_left fun n _ => ?_
  rw [page_add, page_add]
  rfl

theorem eq_page {k : Nat} (hmid : mid.val.toNat = r.start.val.toNat + k * 4096)
    (hk : k ≤ r.pageTotal) : mid = r.page k :=
  congrArg VirtAddr.mk (UInt64.toNat_inj.1 (hmid.trans (toNat_page hk).symm))

theorem pages_of_total (h : r.pageTotal = 0) : r.pages = [] := by
  rw [pages, h]
  rfl

namespace Pages

theorem pageTotal_eq (h : r.Pages b i c) : r.pageTotal = c - i := by
  have hstart := h.start
  have hstop := h.stop
  rw [pageTotal]
  omega

/-- All pages behind one entry have its index. -/
theorem index_start (h : r.Pages b i c) (hic : i < c) {k : Nat} (hcell : l.cell i = l.cell k) :
    l.index r.start = l.slot k := by
  rw [Level.index_eq, h.pageNumber hic, (Level.cell_eq_iff.1 hcell).2]

/-- One page and those behind it. -/
theorem pages_cons (hfirst : Pages ⟨r.start, mid⟩ b i (i + 1)) (hrest : Pages ⟨mid, r.stop⟩ b (i + 1) c) :
    r.pages = ⟨r.start, mid⟩ :: (Interval.mk mid r.stop).pages := by
  have hstart := hfirst.start
  have hmid := hfirst.stop
  have hstop := hrest.stop
  have hle := hrest.le
  dsimp only at hstart hmid hstop
  have hone : 1 ≤ r.pageTotal := by
    rw [pageTotal]
    omega
  have hpage : mid = r.page 1 := eq_page (by omega) hone
  have hsingle : (r.first 1).pages = [⟨r.start, r.page 1⟩] := by
    rw [pages, pageTotal_first hone, List.range_one, List.map_singleton, page_first, page_first,
      page_zero, Nat.zero_add]
  rw [pages_append hone, hsingle, hpage, List.singleton_append]

end Pages

/-- The pages of a range that goes on in the next block. -/
theorem pages_across {rest : Nat} (hfirst : Pages ⟨r.start, mid⟩ b i (512 ^ 4))
    (hsecond : Pages ⟨mid, r.stop⟩ (b + 1) 0 rest) :
    r.pages = (Interval.mk r.start mid).pages ++ (Interval.mk mid r.stop).pages := by
  have hstart := hfirst.start
  have hmid := hfirst.stop
  have hstop := hsecond.stop
  have hi := hfirst.le
  dsimp only at hstart hmid hstop
  have hk : 512 ^ 4 - i ≤ r.pageTotal := by
    rw [pageTotal]
    omega
  obtain rfl : mid = r.page (512 ^ 4 - i) := eq_page (by omega) hk
  exact pages_append hk

/-! ## Parts -/

theorem pieces_cons (hlt : r.start.val.toNat < r.stop.val.toNat) :
    r.pieces l = ⟨r.start, r.firstStop l⟩ :: (Interval.mk (r.firstStop l) r.stop).pieces l := by
  rw [pieces, ← pieceCount_firstStop r l hlt]
  rfl

theorem pieces_of_le (h : r.stop.val.toNat ≤ r.start.val.toNat) : r.pieces l = [] := by
  rw [pieces, pieceCount_eq_div, if_neg (Nat.not_lt.2 h)]
  rfl

/-- A range that ends with its first part has no other. -/
theorem pieces_eq_singleton (hlt : r.start.val.toNat < r.stop.val.toNat)
    (hstop : r.firstStop l = r.stop) : r.pieces l = [r] := by
  rw [pieces_cons hlt, hstop, pieces_of_le (Nat.le_refl _)]

theorem Pages.firstStop_eq (h : r.Pages b i c) {n : Nat} {stop : VirtAddr}
    (hstop : stop.val.toNat = b * 2 ^ 48 + n * 4096) (hn : min ((l.cell i + 1) * 512 ^ l.height) c = n) :
    r.firstStop l = stop := by
  have hcut := h.toNat_firstStop l
  rw [hn, ← hstop] at hcut
  exact congrArg VirtAddr.mk (UInt64.toNat_inj.1 hcut)

variable {ε σ : Type} {visit : Interval → EStateM ε σ Nat} {s : σ}

theorem foldPieces_cons (hlt : r.start.val.toNat < r.stop.val.toNat) :
    r.foldPieces l visit = (do
      let x ← visit ⟨r.start, r.firstStop l⟩
      let y ← (Interval.mk (r.firstStop l) r.stop).foldPieces l visit
      return x + y) := by
  rw [foldPieces_eq_foldlM, pieces_cons hlt, List.foldlM_cons]
  simp only [bind_assoc, pure_bind, Nat.zero_add]
  congr 1
  funext x
  rw [foldPieces_eq_foldlM]
  exact foldlM_add visit _ 0 x

theorem foldPieces_singleton (h : r.pieces l = [r]) : r.foldPieces l visit = visit r := by
  rw [foldPieces_eq_foldlM, h, List.foldlM_cons]
  simp only [List.foldlM_nil, Nat.zero_add, bind_pure]

theorem foldPieces_nil (h : r.stop.val.toNat ≤ r.start.val.toNat) : r.foldPieces l visit = pure 0 := by
  rw [foldPieces_eq_foldlM, pieces_of_le h, List.foldlM_nil]

/-- A range of one page is visited as a whole. -/
theorem Pages.foldPieces_eq (h : r.Pages b i (i + 1)) : r.foldPieces l visit = visit r := by
  have hstart := h.start
  have hstop := h.stop
  have hlow : i < (l.cell i + 1) * 512 ^ l.height := by
    cases l <;> simp only [Level.cell, Level.height] <;> omega
  exact foldPieces_singleton (pieces_eq_singleton (by omega) (h.firstStop_eq hstop (by omega)))

/-- The first page of a range can be visited before the others, if it can in the first part. -/
theorem foldPieces_peel (hfirst : Pages ⟨r.start, mid⟩ b i (i + 1))
    (hrest : Pages ⟨mid, r.stop⟩ b (i + 1) c)
    (hpart : ∀ stop d, i + 1 < d → d ≤ c → l.cell (d - 1) = l.cell i → Pages ⟨mid, stop⟩ b (i + 1) d →
      visit ⟨r.start, stop⟩ s = (do
        let x ← visit ⟨r.start, mid⟩
        let y ← visit ⟨mid, stop⟩
        return x + y) s) :
    r.foldPieces l visit s = (do
      let x ← (Interval.mk r.start mid).foldPieces l visit
      let y ← (Interval.mk mid r.stop).foldPieces l visit
      return x + y) s := by
  have hr : r.Pages b i c := ⟨hfirst.start, hrest.stop, by have := hrest.le; omega, hrest.top⟩
  have hic : i < c := hrest.le
  have hstart := hr.start
  have hstop := hr.stop
  have hmid := hfirst.stop
  dsimp only at hmid
  have hlt : r.start.val.toNat < r.stop.val.toNat := by omega
  obtain ⟨d, hid, hcell, -, hcut, hbehind⟩ := hr.cut hic l
  have hcutStop : (r.firstStop l).val.toNat = b * 2 ^ 48 + d * 4096 := hcut.stop
  rw [hfirst.foldPieces_eq, foldPieces_cons hlt]
  rcases Nat.eq_or_lt_of_le hid with rfl | hmore
  · have hsame : r.firstStop l = mid :=
      congrArg VirtAddr.mk (UInt64.toNat_inj.1 (hcutStop.trans hmid.symm))
    rw [hsame]
  · have hcutRest : Pages ⟨mid, r.firstStop l⟩ b (i + 1) d := ⟨hmid, hcutStop, hmore.le, hcut.top⟩
    have hrestStop : (Interval.mk mid r.stop).firstStop l = r.firstStop l := by
      refine hrest.firstStop_eq hcutStop ?_
      have hd := hr.toNat_firstStop l
      rw [Level.cell_between hcell (Nat.le_succ i) hmore]
      omega
    have hmidlt : mid.val.toNat < r.stop.val.toNat := by
      have hdc := hbehind.le
      omega
    rw [foldPieces_cons (r := ⟨mid, r.stop⟩) hmidlt, hrestStop,
      bind_congr_first (hpart _ d hmore hbehind.le hcell hcutRest)]
    simp only [bind_assoc, pure_bind, Nat.add_assoc]

end Interval

namespace Walk

/-! ## Walks that can be taken page by page -/

/-- Walks each of these ranges by itself, and adds up the answers. -/
def each {m : Type → Type} [Monad m] (walk : Interval → m Nat) (ranges : List Interval) : m Nat :=
  ranges.foldlM (fun sum range => do return sum + (← walk range)) 0

section

variable {m : Type → Type} [Monad m] [LawfulMonad m] {walk : Interval → m Nat}

theorem each_append (ranges ranges' : List Interval) :
    each walk (ranges ++ ranges') = (do
      let x ← each walk ranges
      let y ← each walk ranges'
      return x + y) := by
  rw [each, each, List.foldlM_append]
  congr 1
  funext x
  exact Interval.foldlM_add walk ranges' 0 x

theorem each_cons (range : Interval) (ranges : List Interval) :
    each walk (range :: ranges) = (do
      let x ← walk range
      let y ← each walk ranges
      return x + y) := by
  rw [← List.singleton_append, each_append]
  congr 1
  simp only [each, List.foldlM_cons, List.foldlM_nil, Nat.zero_add, bind_pure]

theorem each_congr {walk' : Interval → m Nat} {ranges : List Interval}
    (h : ∀ range ∈ ranges, walk range = walk' range) : each walk ranges = each walk' ranges := by
  induction ranges with
  | nil => rfl
  | cons range ranges ih =>
    rw [each_cons, each_cons, h range List.mem_cons_self, ih fun r hr => h r (List.mem_cons_of_mem _ hr)]

end

/-- A walk that can be cut behind a first page and at the end of a block, from all states that
satisfy `P`. -/
structure Steps {ε σ : Type} (P : σ → Prop) (walk : Interval → EStateM ε σ Nat) : Prop where
  none : ∀ a, walk ⟨a, a⟩ = pure 0
  keeps : ∀ {r b i j s}, r.Pages b i j → P s → Ends (walk r) s (fun _ u => P u) fun _ _ => True
  peel : ∀ {r mid b i c s}, Interval.Pages ⟨r.start, mid⟩ b i (i + 1) → Interval.Pages ⟨mid, r.stop⟩ b (i + 1) c → P s →
    walk r s = (do
      let x ← walk ⟨r.start, mid⟩
      let y ← walk ⟨mid, r.stop⟩
      return x + y) s
  across : ∀ {r mid b i rest}, Interval.Pages ⟨r.start, mid⟩ b i (512 ^ 4) → Interval.Pages ⟨mid, r.stop⟩ (b + 1) 0 rest →
    walk r = (do
      let x ← walk ⟨r.start, mid⟩
      let y ← walk ⟨mid, r.stop⟩
      return x + y)

namespace Steps

variable {ε σ : Type} {P : σ → Prop} {walk : Interval → EStateM ε σ Nat} {r : Interval} {b i c : Nat}
  {s : σ}

theorem eq_each_pages (h : Steps P walk) (hr : r.Pages b i c) (hs : P s) :
    walk r s = each walk r.pages s := by
  obtain ⟨n, hn⟩ : ∃ n, c = i + n := ⟨c - i, by have := hr.le; omega⟩
  induction n generalizing r i s with
  | zero =>
    obtain ⟨start, stop⟩ := r
    have hval : start.val = stop.val := UInt64.toNat_inj.1 (hr.start.trans (hn ▸ hr.stop).symm)
    obtain rfl : start = stop := congrArg VirtAddr.mk hval
    rw [Interval.pages_of_total (by rw [hr.pageTotal_eq, hn]; exact Nat.sub_self i), h.none]
    rfl
  | succ n ih =>
    have hstart := hr.start
    have hstop := hr.stop
    have htop := hr.top
    have hlt := r.stop.val.toNat_lt
    obtain ⟨mid, hmid⟩ : ∃ mid : VirtAddr, mid.val.toNat = b * 2 ^ 48 + (i + 1) * 4096 :=
      ⟨⟨UInt64.ofNat _⟩, UInt64.toNat_ofNat_of_lt' (Nat.lt_of_le_of_lt (by omega) hlt)⟩
    have hfirst : Interval.Pages ⟨r.start, mid⟩ b i (i + 1) := ⟨hstart, hmid, Nat.le_succ i, by omega⟩
    have hrest : Interval.Pages ⟨mid, r.stop⟩ b (i + 1) c := ⟨hmid, hstop, by omega, htop⟩
    rw [h.peel hfirst hrest hs, hfirst.pages_cons hrest, each_cons]
    refine bind_congr_rest fun x u hx => bind_congr_first ?_
    exact ih hrest ((h.keeps hfirst hs).of_eq_ok hx) (by omega)

/-- The whole range, and page after page. -/
theorem eq_each (h : Steps P walk) {total : Nat} (hr : r.Stretch b i total) (hs : P s) :
    walk r s = each walk r.pages s := by
  cases hr with
  | within hpages => exact h.eq_each_pages hpages hs
  | across hfirst hsecond _ =>
    rw [h.across hfirst hsecond, Interval.pages_across hfirst hsecond, each_append,
      bind_congr_first (h.eq_each_pages hfirst hs)]
    refine bind_congr_rest fun x u hx => bind_congr_first ?_
    rw [← h.eq_each_pages hfirst hs] at hx
    exact h.eq_each_pages hsecond ((h.keeps hfirst hs).of_eq_ok hx)

end Steps

/-! ## Filling -/

variable {root t : PageFrame} {l below : Level} {b i c : Nat} {prot : Entry} {source : FrameSource}
  {r : Interval} {mid : VirtAddr}

/-- What a fill asks of memory. -/
def Fillable (root : PageFrame) (s : Filling) : Prop :=
  s.machine.pool.Orderly ∧ Held s.machine.pool root

/-- A table that is there already costs the walk of the next page nothing. -/
theorem onMachine_childOrCreate {s : Filling} {n : Nat} {next : PageFrame}
    (hs : Held s.machine.pool root) (hn : n < 512 ^ 4)
    (ht : tableOn s.machine.pool root n l = some t) (hbelow : l.next? = some below)
    (hnext : tableOn s.machine.pool root n below = some next) :
    FillM.onMachine (childOrCreate l t (l.slot n)) s = .ok (.ok next) s := by
  have hidle := (childOrCreate_idles hs.formed hn ht hbelow hnext).eq_ok
  rw [FillM.onMachine, hidle]

theorem fillTable_peel (hsource : LeavesMemory source) (l : Level) {t : PageFrame} {r : Interval}
    {s : Filling} {i c : Nat} (hs : Fillable root s)
    (hfirst : Interval.Pages ⟨r.start, mid⟩ b i (i + 1))
    (hrest : Interval.Pages ⟨mid, r.stop⟩ b (i + 1) c)
    (ht : ∀ n, i ≤ n → n < c → tableOn s.machine.pool root n l = some t) :
    fillTable source prot l t r s = (do
      let x ← fillTable source prot l t ⟨r.start, mid⟩
      let y ← fillTable source prot l t ⟨mid, r.stop⟩
      return x + y) s := by
  induction l using Level.bottomUp generalizing t r s c with
  | bottom =>
    refine Interval.foldPieces_peel hfirst hrest fun stop d hid _ hcell _ => ?_
    have hd := Level.eq_succ_of_cell (by omega) hcell
    omega
  | step l below hbelow ih =>
    rw [fillTable_next hbelow, fillTable_next hbelow, fillTable_next hbelow]
    refine Interval.foldPieces_peel hfirst hrest fun stop d hid hdc hcell hrest' => ?_
    have hi : i < 512 ^ 4 := hfirst.top
    have hic : i < c := hrest.le
    have hon := ht i (Nat.le_refl i) hic
    have hfirstIndex : l.index r.start = l.slot i := hfirst.index_start (Nat.lt_succ_self i) rfl
    have hrestIndex : l.index mid = l.slot i :=
      hrest'.index_start hid (Level.cell_between hcell (Nat.le_succ i) hid)
    simp only [fillPart, bind_assoc]
    rw [hfirstIndex, hrestIndex]
    refine bind_congr_rest fun answer u hu => ?_
    -- both walks come to the same table, an old one or a new one
    obtain ⟨hsu, hbehind⟩ := (childOrCreate_brings hs.1 hs.2 hi hon hbelow).of_ok hu
    cases answer with
    | error e => rfl
    | ok next =>
      have hnextOn : ∀ n, i ≤ n → n < d → tableOn u.machine.pool root n below = some next :=
        fun n hin hnd => (tableOn_below hbelow hcell hin hnd).trans (hbehind next rfl)
      have hwhole : FillM.orFail (Except.ok next) = pure next := rfl
      rw [hwhole, pure_bind, pure_bind,
        ih (r := ⟨r.start, stop⟩) ⟨hsu.orderly, hsu.tables⟩ hfirst hrest' hnextOn]
      refine bind_congr_rest fun x v hx => ?_
      have hfilled : Brings (fillTable source prot below next ⟨r.start, mid⟩) u.machine.pool _ :=
        fillTable_brings hsource below hsu.orderly hsu.tables hfirst fun n hin hn =>
          hnextOn n hin (by omega)
      have huv := hfilled.of_ok hx
      have hagain := onMachine_childOrCreate huv.tables hi
        (huv.kept i hi l t (hsu.kept i hi l t hon)) hbelow
        (huv.kept i hi below next (hnextOn i (Nat.le_refl i) (by omega)))
      rw [bind_eq_of_ok hagain, hwhole, pure_bind]

theorem fill_steps (hsource : LeavesMemory source) :
    Steps (Fillable root) (fillTable source prot .pml4 root) where
  none a := Interval.foldPieces_nil (Nat.le_refl _)
  keeps {r b i j s} hr hs := by
    have hbrings : Brings (fillTable source prot .pml4 root r) s.machine.pool _ :=
      fillTable_brings hsource .pml4 hs.1 hs.2 hr fun _ _ _ => rfl
    exact (hbrings s rfl rfl).mono (fun _ _ hu => ⟨hu.2.orderly, hu.2.tables⟩) fun _ _ _ => trivial
  peel hfirst hrest hs := fillTable_peel hsource .pml4 hs hfirst hrest fun _ _ _ => rfl
  across := fillTable_across

/-! ## Clearing -/

/-- What is cleared when it is known what is behind the entry. -/
def clearBehind (l below : Level) (t : PageFrame) (i : TableIndex) (part : Interval) :
    Child → MachineM Nat
  | .none => return 0
  | .table next => clearTable below next part
  | .malformed e => do
    Machine.report (.malformedCleared l e part.start)
    setEntry t i .empty
    return 0

theorem clearPart_eq (l below : Level) (t : PageFrame) (part : Interval) :
    clearPart l below t part =
      child l t (l.index part.start) >>= clearBehind l below t (l.index part.start) part := rfl

/-- An entry that was malformed is empty behind. -/
theorem clearBehind_malformed {m u : Machine} {e : Entry} {i : TableIndex} {part : Interval} {x : Nat}
    (ht : m.pool.Has t) (hx : clearBehind l below t i part (.malformed e) m = .ok x u) :
    u.pool = m.pool.withEntry t i .empty := by
  have hset : Ends (clearBehind l below t i part (.malformed e)) m
      (fun _ u => u.pool = m.pool.withEntry t i .empty) fun _ _ => True := by
    refine Ends.bind_modify (Ends.bind (IfDone.of_does (setEntry_does ht i _)) ?_)
    intro _ u hu
    exact Ends.pure hu
  exact hset.of_eq_ok hx

theorem clearTable_peel (l : Level) {t : PageFrame} {r : Interval} {m : Machine} {i c : Nat}
    (hs : Formed m.pool root) (hfirst : Interval.Pages ⟨r.start, mid⟩ b i (i + 1))
    (hrest : Interval.Pages ⟨mid, r.stop⟩ b (i + 1) c)
    (ht : ∀ n, i ≤ n → n < c → tableOn m.pool root n l = some t) :
    clearTable l t r m = (do
      let x ← clearTable l t ⟨r.start, mid⟩
      let y ← clearTable l t ⟨mid, r.stop⟩
      return x + y) m := by
  induction l using Level.bottomUp generalizing t r m c with
  | bottom =>
    refine Interval.foldPieces_peel hfirst hrest fun stop d hid _ hcell _ => ?_
    have hd := Level.eq_succ_of_cell (by omega) hcell
    omega
  | step l below hbelow ih =>
    rw [clearTable_next hbelow, clearTable_next hbelow, clearTable_next hbelow]
    refine Interval.foldPieces_peel hfirst hrest fun stop d hid hdc hcell hrest' => ?_
    have hi : i < 512 ^ 4 := hfirst.top
    have hic : i < c := hrest.le
    have hon := ht i (Nat.le_refl i) hic
    have hleaf := Level.isLeaf_of_next hbelow
    have hfirstIndex : l.index r.start = l.slot i := hfirst.index_start (Nat.lt_succ_self i) rfl
    have hrestIndex : l.index mid = l.slot i :=
      hrest'.index_start hid (Level.cell_between hcell (Nat.le_succ i) hid)
    have hchild := (child_idles (hs.has hi hon) hleaf (l.slot i)).eq_ok
    simp only [clearPart_eq, bind_assoc]
    rw [hfirstIndex, hrestIndex, bind_eq_of_ok hchild, bind_eq_of_ok hchild]
    cases hc : (m.pool.entryAt t (l.slot i)).child with
    | none =>
      simp only [clearBehind, pure_bind]
      rw [bind_eq_of_ok hchild, hc]
      rfl
    | table next =>
      have hnextOn : ∀ n, i ≤ n → n < d → tableOn m.pool root n below = some next := fun n hin hnd => by
        rw [(tableOn_part hbelow hcell hon hin hnd).2.1, behind, Entry.table?, hc]
      simp only [clearBehind]
      rw [ih (r := ⟨r.start, stop⟩) hs hfirst hrest' hnextOn]
      refine bind_congr_rest fun x u hx => ?_
      have hcleared : Runs Machine.noted m.front (clearTable below next ⟨r.start, mid⟩) (m.pool, m.notes)
          _ fun _ _ => False :=
        clearTable_runs below hs hfirst fun n hin hn => hnextOn n hin (by omega)
      have hswept := ((hcleared m rfl rfl).of_eq_ok hx).2.swept
      have hsame : (u.pool.entryAt t (l.slot i)).child = .table next := by
        rcases hswept.upper i hi l t hleaf hon with hsame | ⟨-, e, he⟩
        · exact (congrArg Entry.child hsame).trans hc
        · rw [hc] at he
          cases he
      have hthere := (hswept.formed hs).has hi ((hswept.table i hi l).trans hon)
      rw [bind_eq_of_ok (child_idles hthere hleaf (l.slot i)).eq_ok, hsame]
    | malformed e =>
      have hthere := hs.has hi hon
      have hwhole : clearBehind l below t (l.slot i) ⟨r.start, stop⟩ (.malformed e) =
          clearBehind l below t (l.slot i) ⟨r.start, mid⟩ (.malformed e) >>= pure := by
        rw [bind_pure]
        rfl
      rw [hwhole]
      refine bind_congr_rest fun x u hx => ?_
      -- the entry is empty by now, so that the walk of the next page finds nothing behind it
      have hpool := clearBehind_malformed hthere hx
      have hempty : (u.pool.entryAt t (l.slot i)).child = .none := by
        rw [hpool, Pool.entryAt_withEntry hthere, if_pos ⟨rfl, rfl⟩]
        rfl
      have hthere' : u.pool.Has t := hthere.congr (hpool ▸ Pool.rewrite_base) (hpool ▸ Pool.rewrite_size)
      rw [bind_eq_of_ok (child_idles hthere' hleaf (l.slot i)).eq_ok, hempty]
      rfl

theorem clear_steps : Steps (fun m => Formed m.pool root) (clearTable .pml4 root) where
  none a := Interval.foldPieces_nil (Nat.le_refl _)
  keeps {r b i j m} hr hs := by
    have hcleared : Runs Machine.noted m.front (clearTable .pml4 root r) (m.pool, m.notes)
        _ fun _ _ => True := clearTable_runs .pml4 hs hr fun _ _ _ => rfl
    exact (hcleared m rfl rfl).mono (fun _ _ hu => hu.2.swept.formed hs) fun _ _ _ => trivial
  peel hfirst hrest hs := clearTable_peel .pml4 hs hfirst hrest fun _ _ _ => rfl
  across := clearTable_across

/-! ## Whole ranges -/

theorem isAligned_of_mem_pages (haligned : r.isAligned = true) {page : Interval} (h : page ∈ r.pages) :
    page.isAligned = true := by
  obtain ⟨k, hk, rfl⟩ := List.mem_map.1 h
  have hk' : k < r.pageTotal := List.mem_range.1 hk
  rw [Interval.isAligned, Bool.and_eq_true, VirtAddr.isAligned_iff] at haligned
  rw [Interval.isAligned, Bool.and_eq_true, VirtAddr.isAligned_iff, VirtAddr.isAligned_iff,
    Interval.toNat_page hk'.le, Interval.toNat_page hk']
  omega

/-- Maps each of these ranges by a walk of its own, up to the first that fails. The source goes on
where the walk before has left it. The answers are those of one walk. -/
def fillEach (root : PageFrame) (prot : Entry) (source : FrameSource) :
    List Interval → Nat → Nat → MachineM (Except MapError Nat × Nat)
  | [], sum, taken => return (.ok sum, taken)
  | range :: ranges, sum, taken => do
    match ← fill root range prot source taken with
    | (.ok count, taken) => fillEach root prot source ranges (sum + count) taken
    | (.error e, taken) => return (.error e, taken)

theorem fillEach_eq_exec (ranges : List Interval) (h : ∀ range ∈ ranges, range.isAligned = true)
    (sum taken : Nat) (m : Machine) :
    fillEach root prot source ranges sum taken m =
      (ranges.foldlM (fun sum range => do
        return sum + (← fillTable source prot .pml4 root range)) sum).exec taken m := by
  induction ranges generalizing sum taken m with
  | nil => rfl
  | cons range ranges ih =>
    have haligned := h range List.mem_cons_self
    have hfill : fill root range prot source taken m = _ := fill_eq_exec haligned taken
    have hrest := ih fun r hr => h r (List.mem_cons_of_mem _ hr)
    rw [fillEach, List.foldlM_cons, bind_assoc, FillM.exec]
    rw [FillM.exec] at hfill
    rcases hx : fillTable source prot .pml4 root range ⟨m, taken⟩ with ⟨count, u⟩ | ⟨halt, u⟩
    · rw [hx] at hfill
      rw [bind_eq_of_ok hfill, bind_eq_of_ok hx, pure_bind]
      exact hrest (sum + count) u.taken u.machine
    · rw [hx] at hfill
      rw [bind_eq_of_error hx]
      cases halt with
      | fault f => rw [bind_eq_of_error hfill]
      | failed e =>
        rw [bind_eq_of_ok hfill]
        rfl

/-- Mapping a range that is not longer than a block, in one walk or in one walk for each page, comes
to the same: the machine with all its events, the answer, and what is left of the source, also where
it ends in a fault. So does unmapping it. -/
theorem page_after_page {m : Machine} (hp : m.pool.Orderly) (hs : Held m.pool root)
    (hsource : LeavesMemory source) (haligned : r.isAligned = true) (hle : r.start.val ≤ r.stop.val)
    (hlength : r.stop.val.toNat - r.start.val.toNat ≤ 2 ^ 48) :
    fillTable source prot .pml4 root r ⟨m, 0⟩ =
        each (fillTable source prot .pml4 root) r.pages ⟨m, 0⟩ ∧
      fill root r prot source 0 m = fillEach root prot source r.pages 0 0 m ∧
      clear root r m = each (clear root) r.pages m := by
  have hr := Interval.stretch haligned hle hlength
  have hpages : ∀ page ∈ r.pages, page.isAligned = true := fun _ => isAligned_of_mem_pages haligned
  have hfill : fillTable source prot .pml4 root r ⟨m, 0⟩ = _ := (fill_steps hsource).eq_each hr ⟨hp, hs⟩
  refine ⟨hfill, ?_, ?_⟩
  · rw [fill_eq_exec haligned, FillM.exec, hfill, fillEach_eq_exec r.pages hpages]
    rfl
  · rw [clear_eq_clearTable haligned, clear_steps.eq_each hr hs.formed]
    exact congrFun (each_congr fun page hpage => funext fun m =>
      (clear_eq_clearTable (hpages page hpage)).symm) m

/-- The second page is behind a malformed entry, and there are too few frames for its tables. -/
theorem page_after_page_small :
    fillTable (.ofList [smallRoot, smallRoot]) .pageKernel .pml4 smallRoot smallRange ⟨small, 0⟩ =
        each (fillTable (.ofList [smallRoot, smallRoot]) .pageKernel .pml4 smallRoot) smallRange.pages
          ⟨small, 0⟩ ∧
      fill smallRoot smallRange .pageKernel (.ofList [smallRoot, smallRoot]) 0 small =
        fillEach smallRoot .pageKernel (.ofList [smallRoot, smallRoot]) smallRange.pages 0 0 small ∧
      clear smallRoot smallRange small = each (clear smallRoot) smallRange.pages small :=
  page_after_page small_sound.orderly small_held (leavesMemory_ofList _) (by decide) (by decide)
    (by decide)

end Walk

end PagedMemory
