import Mathlib.Tactic
import PagedMemory.Proofs.Blocks
import PagedMemory.Proofs.Census

/-!
# Unmapping a range

What is left after a range is unmapped, whatever the entries of the tree said before: an entry may be
malformed, and a leaf may hold anything that does not map its page.

* `Walk.clearRange_runs`: the pages of the range are cleared, in one block or two.
* `Walk.clearTable_idle`: where all is clear and tidy, clearing does nothing at all.
* `Walk.Unmapped`: what translations answer afterwards, and what has not changed.
* `Walk.clear_unmaps`: it is so after every clearing of a range that is not longer than a block.
-/

namespace PagedMemory

open Tables

namespace Walk

variable {front : Front} {p q : Pool} {root t : PageFrame} {l below : Level} {b i j total : Nat}
  {es : List Event} {lo hi : Nat} {r : Interval}

/-! ## One block or two -/

/-- How many of the `total` pages from page `i` on are mapped. -/
def mappedAfter (p : Pool) (root : PageFrame) (i total : Nat) : Nat :=
  (List.range total).countP fun k => (leafOn p root (pageAfter i k)).has .present

/-- The mapped pages of a block, counted from somewhere else. -/
theorem mappedCount_eq {c w : Nat} (hplace : i + c = lo + w * 512 ^ 4) (htop : hi ≤ 512 ^ 4) :
    mappedCount p root lo hi =
      ((List.range (hi - lo)).map (c + ·)).countP fun k =>
        (leafOn p root (pageAfter i k)).has .present := by
  rw [mappedCount, List.range'_eq_map_range, List.countP_map, List.countP_map]
  refine List.countP_congr fun k hk => ?_
  have hk' := List.mem_range.1 hk
  have hpage : pageAfter i (c + k) = lo + k := pageAfter_eq (w := w) (by omega) (by omega)
  simp only [Function.comp_apply, hpage]

/-- Clearing a range is clearing what lies in one block, and then what lies in the next. -/
theorem clearTable_across {mid : VirtAddr} {rest : Nat}
    (hfirst : Interval.Pages ⟨r.start, mid⟩ b i (512 ^ 4))
    (hsecond : Interval.Pages ⟨mid, r.stop⟩ (b + 1) 0 rest) :
    clearTable .pml4 root r = (do
      let first ← clearTable .pml4 root ⟨r.start, mid⟩
      let second ← clearTable .pml4 root ⟨mid, r.stop⟩
      return first + second) := by
  have hnext : Level.pml4.next? = some .pdpt := rfl
  rw [clearTable_next hnext, clearTable_next hnext, clearTable_next hnext]
  exact Interval.foldPieces_append (Interval.pieces_across hfirst hsecond .pml4) _

variable {E : Fault → Pool × List Event → Prop}

/-- Clearing a range clears its pages, and counts those that were mapped. -/
theorem clearRange_runs (hp : Formed p root) (hr : r.Stretch b i total) (htotal : total ≤ 512 ^ 4) :
    Runs Machine.noted front (clearTable .pml4 root r) (p, es)
      (fun count u => Swept root (· ∈ pagesAfter i total) p u.1 ∧ count = mappedAfter p root i total)
      E := by
  cases hr with
  | within hpages =>
    refine Runs.imp (clearTable_runs .pml4 hp hpages fun _ _ _ => rfl) ?_
    intro count u hu
    refine ⟨hu.swept.congr fun n _ => mem_pagesAfter_within hpages.top, ?_⟩
    rw [hu.count_eq, mappedCount_eq (c := 0) (w := 0) (i := i) (by omega) hpages.top, mappedAfter]
    simp
  | @across mid rest hfirst hsecond htotal_eq =>
    have hi := hfirst.le
    rw [clearTable_across hfirst hsecond]
    refine Runs.bind (clearTable_runs .pml4 hp hfirst fun _ _ _ => rfl) ?_
    rintro first ⟨q, fs⟩ hq
    refine Runs.bind (clearTable_runs .pml4 (hq.swept.formed hp) hsecond fun _ _ _ => rfl) ?_
    rintro second ⟨u, gs⟩ hu
    refine Runs.pure ⟨(hq.swept.trans hu.swept).congr fun n hn => ?_, ?_⟩
    · rw [mem_pagesAfter_across htotal_eq hi hsecond.top hn]
      omega
    · have hsame : ∀ n, 0 ≤ n → n < rest → leafOn q root n = leafOn p root n := fun n _ hn =>
        hq.swept.others n (by omega) (by omega)
      have hsplit : total = 512 ^ 4 - i + rest := by omega
      rw [hq.count_eq, hu.count_eq, mappedCount_congr hsame,
        mappedCount_eq (c := 0) (w := 0) (i := i) (by omega) (Nat.le_refl _),
        mappedCount_eq (c := 512 ^ 4 - i) (w := 1) (i := i) (by omega) hsecond.top,
        ← List.countP_append, mappedAfter, hsplit, List.range_add]
      simp

/-! ## Clearing what is clear -/

variable {m : Machine} {n : Nat}

/-- The whole machine, events that do not count included. -/
def whole : View Machine Unit Machine := ⟨id, fun _ => ()⟩

/-- The operation answers without any effect. -/
abbrev Idles {α : Type} (x : MachineM α) (m : Machine) (answer : α) : Prop :=
  Runs whole () x m (fun a m' => a = answer ∧ m' = m) fun _ _ => False

theorem Idles.eq_ok {α : Type} {x : MachineM α} {answer : α} (h : Idles x m answer) :
    x m = .ok answer m := by
  obtain ⟨_, _, hx, -, rfl, rfl⟩ := h.exists_ok (s := m) rfl rfl
  exact hx

theorem Idles.bind {α β : Type} {x : MachineM α} {f : α → MachineM β} {answer : α} {answer' : β}
    (h : Idles x m answer) (hf : Idles (f answer) m answer') : Idles (x >>= f) m answer' := by
  refine Runs.bind h ?_
  rintro _ _ ⟨rfl, rfl⟩
  exact hf

theorem entry_idles (h : m.pool.Has t) (k : TableIndex) : Idles (entry t k) m (m.pool.entryAt t k) := by
  obtain ⟨c, hc⟩ := h
  obtain ⟨pool, front, trace⟩ := m
  rintro _ rfl -
  have hword : Machine.onPool (Pool.word t k) ⟨pool, front, trace⟩ =
      .ok ((pool.page t).get k) ⟨pool, front, trace⟩ := by
    simp only [Machine.onPool, Pool.word_eq hc]
  exact Ends.bind_ok hword ⟨rfl, rfl, rfl⟩

theorem child_idles (h : m.pool.Has t) (hl : l.isLeaf = false) (k : TableIndex) :
    Idles (child l t k) m (m.pool.entryAt t k).child := by
  rw [child, hl]
  exact (entry_idles h k).bind (Runs.pure ⟨rfl, rfl⟩)

/-- Visits without effect have none together. -/
theorem Idles.foldPieces {visit : Interval → MachineM Nat} (hr : r.Pages b i j)
    (hvisit : ∀ k c part, i ≤ k → k < c → c ≤ j → l.cell (c - 1) = l.cell k → part.Pages b k c →
      Idles (visit part) m 0) : Idles (r.foldPieces l visit) m 0 := by
  refine hr.foldPieces (P := fun _ sum m' => sum = 0 ∧ m' = m) ?_ ⟨rfl, rfl⟩
  rintro k c _ _ part hik hkc hcj hcell hpart ⟨rfl, rfl⟩
  refine Runs.imp (hvisit k c part hik hkc hcj hcell hpart) ?_
  rintro _ _ ⟨rfl, rfl⟩
  exact ⟨rfl, rfl⟩

/-- Clearing what is clear, where no entry on the way is malformed, does nothing. -/
theorem clearTable_idle (hs : Formed m.pool root) (l : Level) (hr : r.Pages b i j)
    (hclear : ∀ n, i ≤ n → n < j → leafOn m.pool root n = .empty ∧ TidyOn m.pool root n)
    (ht : ∀ n, i ≤ n → n < j → tableOn m.pool root n l = some t) : Idles (clearTable l t r) m 0 := by
  induction l using Level.bottomUp generalizing t r i j with
  | bottom =>
    refine Idles.foldPieces hr fun k c page hik hkc hcj hcell hpage => ?_
    obtain rfl := Level.eq_succ_of_cell hkc hcell
    have hon := ht k hik hcj
    rw [clearPage, Level.index_eq, hpage.pageNumber hkc]
    refine (entry_idles (hs.has hpage.top hon) _).bind ?_
    rw [← leafOn_eq hon, if_pos (Entry.isEmpty_iff.2 (hclear k hik hcj).1)]
    exact Runs.pure ⟨rfl, rfl⟩
  | step l below hbelow ih =>
    rw [clearTable_next hbelow]
    refine Idles.foldPieces hr fun k c part hik hkc hcj hcell hpart => ?_
    have hk : k < 512 ^ 4 := Nat.lt_of_lt_of_le hkc hpart.top
    have hkj : k < j := Nat.lt_of_lt_of_le hkc hcj
    have hon := ht k hik hkj
    rw [clearPart, Level.index_eq, hpart.pageNumber hkc]
    refine (child_idles (hs.has hk hon) (Level.isLeaf_of_next hbelow) _).bind ?_
    cases hc : (m.pool.entryAt t (l.slot k)).child with
    | none => exact Runs.pure ⟨rfl, rfl⟩
    | table next =>
      refine ih hpart (fun n hkn hnc => hclear n (by omega) (by omega)) fun n hkn hnc => ?_
      rw [(tableOn_part hbelow hcell hon hkn hnc).2.1, behind, Entry.table?, hc]
    | malformed e =>
      exact absurd hc ((hclear k hik hkj).2 l t e (Level.isLeaf_of_next hbelow) hon)

/-- The same for a range of one block or two. -/
theorem clearRange_idle (hs : Formed m.pool root) (hr : r.Stretch b i total)
    (hclear : ∀ n < 512 ^ 4, n ∈ pagesAfter i total →
      leafOn m.pool root n = .empty ∧ TidyOn m.pool root n) :
    Idles (clearTable .pml4 root r) m 0 := by
  cases hr with
  | within hpages =>
    refine clearTable_idle hs .pml4 hpages (fun n hlow hhigh => ?_) fun _ _ _ => rfl
    exact hclear n (by have := hpages.top; omega) ((mem_pagesAfter_within hpages.top).2 ⟨hlow, hhigh⟩)
  | @across mid rest hfirst hsecond htotal_eq =>
    rw [clearTable_across hfirst hsecond]
    have hin : ∀ n < 512 ^ 4, i ≤ n ∨ n < rest → leafOn m.pool root n = .empty ∧
        TidyOn m.pool root n := fun n hn hplace =>
      hclear n hn ((mem_pagesAfter_across htotal_eq hfirst.le hsecond.top hn).2 hplace)
    have hrest := hsecond.top
    refine (clearTable_idle hs .pml4 hfirst (fun n hlow hhigh => ?_) fun _ _ _ => rfl).bind
      ((clearTable_idle hs .pml4 hsecond (fun n _ hhigh => ?_) fun _ _ _ => rfl).bind
        (Runs.pure ⟨rfl, rfl⟩))
    · exact hin n hhigh (Or.inl hlow)
    · exact hin n (by omega) (Or.inr hhigh)

/-! ## What is left -/

/-- Whether an address is translated. -/
def isMapped (root : PageFrame) (m : Machine) (a : VirtAddr) : Bool :=
  match whereIs root m a with
  | .ok (some _) => true
  | .ok none => false
  | .error _ => false

theorem isMapped_eq (hs : Formed m.pool root) (a : VirtAddr) :
    isMapped root m a = (leafOn m.pool root a.pageNumber).has .present := by
  rw [isMapped, whereIs_eq hs, target]
  cases (leafOn m.pool root a.pageNumber).has .present <;> rfl

/-- What has become of the machine `m` when `r` was unmapped with the answer `count`. -/
structure Unmapped (root : PageFrame) (r : Interval) (m : Machine) (count : Nat) (m' : Machine) :
    Prop where
  inside : ∀ a, r.Meets a → whereIs root m' a = .ok none
  outside : ∀ a, ¬ r.Meets a → whereIs root m' a = whereIs root m a
  count_eq : count = (List.range r.pageTotal).countP fun k => isMapped root m (r.page k)
  /-- the same frames are in use, and the free ones will be handed out as before -/
  frames : m.pool.Rewritten m'.pool
  /-- only tables were written -/
  page : ∀ f, ¬ IsTable m.pool root f → m'.pool.page f = m.pool.page f
  /-- no table is lost -/
  table : ∀ n < 512 ^ 4, ∀ l, tableOn m'.pool root n l = tableOn m.pool root n l
  /-- an entry of an upper table changes only if it is malformed -/
  entry : ∀ n < 512 ^ 4, ∀ l t, l.isLeaf = false → tableOn m.pool root n l = some t → ∀ k,
    (∀ e, (m.pool.entryAt t k).child ≠ .malformed e) → m'.pool.entryAt t k = m.pool.entryAt t k
  front : m'.front = m.front
  /-- once more, nothing is left to be done -/
  again : clear root r m' = .ok 0 m'

/-- What a sweep leaves, told in addresses. -/
theorem Unmapped.of_swept {m m' : Machine} {count : Nat} (hs : Formed m.pool root)
    (haligned : r.isAligned = true)
    (hswept : Swept root (· ∈ pagesAfter r.start.pageNumber r.pageTotal) m.pool m'.pool)
    (hcount : count = mappedAfter m.pool root r.start.pageNumber r.pageTotal)
    (hfront : m'.front = m.front) (hagain : clear root r m' = .ok 0 m') :
    Unmapped root r m count m' where
  inside a ha := by
    have hpage := (Interval.meets_iff haligned).1 ha
    rw [whereIs_eq (hswept.formed hs), target_eq_none (hswept.emptied _ a.pageNumber_lt hpage)]
  outside a ha := by
    have hleaf := hswept.others _ a.pageNumber_lt (mt (Interval.meets_iff haligned).2 ha)
    rw [whereIs_eq (hswept.formed hs), whereIs_eq hs, target, target, hleaf]
  count_eq := by
    rw [hcount, mappedAfter]
    refine List.countP_congr fun k hk => ?_
    rw [isMapped_eq hs, Interval.pageNumber_page haligned (List.mem_range.1 hk).le]
  frames := hswept.toRewritten
  page := hswept.page
  table := hswept.table
  entry n hn l t hl ht k hchild := by
    have hon : tableOn m.pool root (l.pageBehind n k) l = some t :=
      (tableOn_congr (Level.group_pageBehind l n k)).trans ht
    rcases hswept.upper _ (Level.pageBehind_lt l hn k) l t hl hon with hsame | ⟨-, e, he⟩
    · rwa [Level.slot_pageBehind] at hsame
    · rw [Level.slot_pageBehind] at he
      exact absurd he (hchild e)
  front := hfront
  again := hagain

theorem clear_eq_clearTable {m : Machine} (haligned : r.isAligned = true) :
    clear root r m = clearTable .pml4 root r m := by
  rw [clear, checkAligned, if_pos haligned]
  rfl

/-- Unmapping a range that is not longer than a block takes away its mappings and those only, for any
tree whose tables are distinct frames of the pool. -/
theorem clear_unmaps {m : Machine} (hs : Formed m.pool root) (haligned : r.isAligned = true)
    (hle : r.start.val ≤ r.stop.val) (hlength : r.stop.val.toNat - r.start.val.toNat ≤ 2 ^ 48) :
    ∃ count m', clear root r m = .ok count m' ∧ Unmapped root r m count m' := by
  have hr := Interval.stretch haligned hle hlength
  have htotal : r.pageTotal ≤ 512 ^ 4 := by
    rw [Interval.pageTotal]
    omega
  have hruns : Runs Machine.noted m.front (clearTable .pml4 root r) (m.pool, m.notes) _
      fun _ _ => False := clearRange_runs hs hr htotal
  obtain ⟨count, m', hrun, hfront, hswept, hcount⟩ := hruns.exists_ok (s := m) rfl rfl
  have hs' : Formed m'.pool root := hswept.formed hs
  have hidle : Idles (clearTable .pml4 root r) m' 0 := clearRange_idle hs' hr fun n hn hin =>
    ⟨hswept.emptied n hn hin, hswept.tidied n hn hin⟩
  exact ⟨count, m', (clear_eq_clearTable haligned).trans hrun,
    .of_swept hs haligned hswept hcount hfront ((clear_eq_clearTable haligned).trans hidle.eq_ok)⟩

theorem clear_unmaps_small : ∃ count m', clear smallRoot smallRange small = .ok count m' ∧
    Unmapped smallRoot smallRange small count m' :=
  clear_unmaps small_held.formed (by decide) (by decide) (by decide)

end Walk

end PagedMemory
