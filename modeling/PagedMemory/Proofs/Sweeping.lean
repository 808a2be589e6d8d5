import Mathlib.Tactic
import PagedMemory.Proofs.Laying

/-!
# Clearing, page by page

Clearing goes over any tree whose tables have one place each, whatever else the entries say. It
only ever empties entries: those for the pages of the range, and malformed ones that it meets on
the way to them.

* `Tables.Swept`: some pages have been cleared, and the ways to them are tidy. Nothing that led to
  a table has changed.
* `Walk.Wiped`: the same together with the number of pages that were mapped and what was noted.
* `Walk.clearTable_runs`: each part of a clearing clears its pages.
-/

namespace PagedMemory

open Tables Machine

/-! ## Entries that are emptied -/

namespace Tables

variable {p q u : Pool} {root t : PageFrame} {l below : Level} {n : Nat} {P P' : Nat → Prop}

/-- Between `p` and `q` entries of the tree have been emptied: those for the pages of `P`, and
malformed ones, of which none is left on the ways to these pages. -/
structure Swept (root : PageFrame) (P : Nat → Prop) (p q : Pool) : Prop extends p.Rewritten q where
  page : ∀ f, ¬ IsTable p root f → q.page f = p.page f
  table : ∀ n < 512 ^ 4, ∀ l, tableOn q root n l = tableOn p root n l
  upper : ∀ n < 512 ^ 4, ∀ l t, l.isLeaf = false → tableOn p root n l = some t →
    q.entryAt t (l.slot n) = p.entryAt t (l.slot n) ∨
      q.entryAt t (l.slot n) = .empty ∧ ∃ e, (p.entryAt t (l.slot n)).child = .malformed e
  emptied : ∀ n < 512 ^ 4, P n → leafOn q root n = .empty
  others : ∀ n < 512 ^ 4, ¬ P n → leafOn q root n = leafOn p root n
  tidied : ∀ n < 512 ^ 4, P n → TidyOn q root n

/-- An entry that is emptied is not malformed any more. -/
theorem Swept.tidyOn (h : Swept root P p q) (hn : n < 512 ^ 4) (hp : TidyOn p root n) :
    TidyOn q root n := by
  intro l t e hl ht
  rw [h.table n hn] at ht
  rcases h.upper n hn l t hl ht with hsame | ⟨hempty, -⟩
  · rw [hsame]
    exact hp l t e hl ht
  · rw [hempty]
    exact nofun

theorem Swept.formed (h : Swept root P p q) (hp : Formed p root) : Formed q root where
  within f hf := (hp.within f ((isTable_congr h.table).1 hf)).congr h.base h.size
  apart := hp.apart_congr h.table

theorem Swept.tables_sound (h : Swept root P p q) (hp : Sound p root) : Sound q root where
  taken f hf := (h.isTaken f).trans (hp.taken f ((isTable_congr h.table).1 hf))
  apart := hp.formed.apart_congr h.table
  tidy n hn := h.tidyOn hn (hp.tidy n hn)
  present n hn hmapped := by
    by_cases hP : P n
    · exact absurd (h.emptied n hn hP) hmapped
    · rw [h.others n hn hP] at hmapped ⊢
      exact hp.present n hn hmapped

theorem Swept.trans (hpq : Swept root P p q) (hqu : Swept root P' q u) :
    Swept root (fun n => P n ∨ P' n) p u where
  toRewritten := hpq.toRewritten.trans hqu.toRewritten
  page f hf := by
    rw [hqu.page f fun hq => hf ((isTable_congr hpq.table).1 hq), hpq.page f hf]
  table n hn l := (hqu.table n hn l).trans (hpq.table n hn l)
  upper n hn l t hl ht := by
    rcases hqu.upper n hn l t hl ((hpq.table n hn l).trans ht) with hsame | ⟨hempty, e, he⟩
    · rw [hsame]
      exact hpq.upper n hn l t hl ht
    · rcases hpq.upper n hn l t hl ht with hsame | ⟨hgone, -⟩
      · exact Or.inr ⟨hempty, e, hsame ▸ he⟩
      · rw [hgone] at he
        cases he
  emptied n hn hP := by
    by_cases hP' : P' n
    · exact hqu.emptied n hn hP'
    · rw [hqu.others n hn hP']
      exact hpq.emptied n hn (hP.resolve_right hP')
  others n hn hP := by
    rw [not_or] at hP
    rw [hqu.others n hn hP.2, hpq.others n hn hP.1]
  tidied n hn hP := by
    by_cases hP' : P' n
    · exact hqu.tidied n hn hP'
    · exact hqu.tidyOn hn (hpq.tidied n hn (hP.resolve_right hP'))

theorem Swept.congr (h : Swept root P p q) (hP : ∀ n < 512 ^ 4, P' n ↔ P n) :
    Swept root P' p q where
  toRewritten := h.toRewritten
  page := h.page
  table := h.table
  upper := h.upper
  emptied n hn hn' := h.emptied n hn ((hP n hn).1 hn')
  others n hn hn' := h.others n hn (mt (hP n hn).2 hn')
  tidied n hn hn' := h.tidied n hn ((hP n hn).1 hn')

/-- Pages that are clear already. -/
theorem Swept.of_clear (h : ∀ n < 512 ^ 4, P n → leafOn p root n = .empty ∧ TidyOn p root n) :
    Swept root P p p where
  toRewritten := .refl p
  page _ _ := rfl
  table _ _ _ := rfl
  upper _ _ _ _ _ _ := Or.inl rfl
  emptied n hn hP := (h n hn hP).1
  others _ _ _ := rfl
  tidied n hn hP := (h n hn hP).2

/-- Emptying an entry that leads to no table. -/
theorem Swept.of_store (hp : Formed p root) (hn : n < 512 ^ 4) (ht : tableOn p root n l = some t)
    (hl : l.isLeaf = false → ∃ e, (p.entryAt t (l.slot n)).child = .malformed e)
    (hemptied : ∀ k < 512 ^ 4, P k → leafOn (p.withEntry t (l.slot n) .empty) root k = .empty)
    (hothers : ∀ k < 512 ^ 4, ¬ P k →
      leafOn (p.withEntry t (l.slot n) .empty) root k = leafOn p root k)
    (htidied : ∀ k < 512 ^ 4, P k → TidyOn (p.withEntry t (l.slot n) .empty) root k) :
    Swept root P p (p.withEntry t (l.slot n) .empty) where
  toRewritten := Pool.rewritten_rewrite p t _
  page f hf := by
    refine Pool.page_rewrite_of_ne ?_
    rintro rfl
    exact hf ⟨n, hn, l, ht⟩
  table k hk l' := by
    refine hp.tableOn_store hn ht (fun hleaf => ?_) hk l'
    obtain ⟨e, he⟩ := hl hleaf
    rw [behind, Entry.table?, Entry.table?, he]
    rfl
  upper k hk l' t' hl' ht' := by
    rw [hp.entryAt_store hn ht hk ht']
    split
    next hsame =>
      obtain ⟨rfl, hcell⟩ := hsame
      obtain ⟨hgroup, hslot⟩ := Level.cell_eq_iff.1 hcell
      obtain rfl := Option.some.inj (ht'.symm.trans ((tableOn_congr hgroup).trans ht))
      obtain ⟨e, he⟩ := hl hl'
      exact Or.inr ⟨rfl, e, hslot ▸ he⟩
    next => exact Or.inl rfl
  emptied := hemptied
  others := hothers
  tidied := htidied

/-- Emptying the entry for one page. -/
theorem Swept.of_page (hp : Formed p root) (hn : n < 512 ^ 4)
    (ht : tableOn p root n .pt = some t) :
    Swept root (· = n) p (p.withEntry t (Level.pt.slot n) .empty) := by
  refine .of_store hp hn ht nofun ?_ ?_ ?_
  · rintro k hk rfl
    rw [hp.leafOn_store hk ht hk, if_pos rfl]
  · intro k hk hkn
    rw [hp.leafOn_store hn ht hk, if_neg hkn]
  · rintro k hk rfl
    exact tidyOn_of_pt ((hp.tableOn_store hk ht nofun hk .pt).trans ht)

/-- Emptying a malformed entry. The pages behind it were not mapped. -/
theorem Swept.of_malformed (hp : Formed p root) (hn : n < 512 ^ 4)
    (ht : tableOn p root n l = some t) (hbelow : l.next? = some below) {e : Entry}
    (he : (p.entryAt t (l.slot n)).child = .malformed e) (hP : ∀ k, P k → l.cell k = l.cell n) :
    Swept root P p (p.withEntry t (l.slot n) .empty) := by
  have hleaf := Level.isLeaf_of_next hbelow
  have hnone : behind p n l t = none := by rw [behind, Entry.table?, he]
  have hstays : Entry.empty.table? = behind p n l t := hnone.symm
  have hstore : ∀ k < 512 ^ 4, leafOn (p.withEntry t (l.slot n) .empty) root k = leafOn p root k :=
    fun k hk => hp.leafOn_store_upper hn hleaf ht hstays hk
  refine .of_store hp hn ht (fun _ => ⟨e, he⟩) ?_ (fun k hk _ => hstore k hk) ?_
  · intro k hk hPk
    have hend : tableOn p root k below = none := by
      have hgroup := hP k hPk
      rw [← Level.group_next hbelow, ← Level.group_next hbelow] at hgroup
      rw [tableOn_congr hgroup, tableOn_next hbelow, ht, Option.bind_some, hnone]
    rw [hstore k hk, leafOn_eq_empty_of_none hend]
  · intro k hk hPk
    have hcell := hP k hPk
    have hon : tableOn p root k l = some t := (tableOn_congr (Level.cell_eq_iff.1 hcell).1).trans ht
    have hempty : (p.withEntry t (l.slot n) .empty).entryAt t (l.slot k) = .empty := by
      rw [hp.entryAt_store hn ht hk hon, if_pos ⟨rfl, hcell⟩]
    refine tidyOn_of_child ((hp.tableOn_store hn ht (fun _ => hstays) hk l).trans hon) hbelow ?_ ?_
    · rw [behind, hempty]
      rfl
    · rw [hempty]
      rintro _ ⟨⟩

end Tables

/-! ## Clearing -/

namespace Walk

variable {front : Front} {p q : Pool} {root t : PageFrame} {l below : Level} {b n i j : Nat}
  {es : List Event} {lo mid hi count count' : Nat}

theorem range'_split (hlo : lo ≤ mid) (hhi : mid ≤ hi) :
    List.range' lo (hi - lo) = List.range' lo (mid - lo) ++ List.range' mid (hi - mid) := by
  have hmid : List.range' lo (mid - lo) ++ List.range' (lo + (mid - lo)) (hi - mid) =
      List.range' lo (mid - lo + (hi - mid)) := List.range'_append_1
  rw [Nat.add_sub_cancel' hlo] at hmid
  rw [hmid]
  congr 1
  omega

/-- The events of clearing the pages from `lo` up to `hi`: one for each page that is mapped. -/
def clearings (p : Pool) (root : PageFrame) (b lo hi : Nat) : List Event :=
  ((List.range' lo (hi - lo)).filter fun n => !(leafOn p root n).isEmpty).map fun n =>
    .unmapped (.ofPage b n)

/-- How many of the pages from `lo` up to `hi` are mapped. -/
def mappedCount (p : Pool) (root : PageFrame) (lo hi : Nat) : Nat :=
  (List.range' lo (hi - lo)).countP fun n => (leafOn p root n).has .present

theorem clearings_append (hlo : lo ≤ mid) (hhi : mid ≤ hi) :
    clearings p root b lo mid ++ clearings p root b mid hi = clearings p root b lo hi := by
  rw [clearings, clearings, clearings, range'_split hlo hhi, List.filter_append, List.map_append]

theorem mappedCount_add (hlo : lo ≤ mid) (hhi : mid ≤ hi) :
    mappedCount p root lo mid + mappedCount p root mid hi = mappedCount p root lo hi := by
  rw [mappedCount, mappedCount, mappedCount, range'_split hlo hhi, List.countP_append]

section

variable (h : ∀ n, lo ≤ n → n < hi → leafOn q root n = leafOn p root n)

include h

theorem clearings_congr : clearings q root b lo hi = clearings p root b lo hi := by
  rw [clearings, clearings]
  congr 1
  refine List.filter_congr fun n hn => ?_
  obtain ⟨hlow, hhigh⟩ := List.mem_range'_1.1 hn
  rw [h n hlow (by omega)]

theorem mappedCount_congr : mappedCount q root lo hi = mappedCount p root lo hi := by
  rw [mappedCount, mappedCount]
  refine List.countP_congr fun n hn => ?_
  obtain ⟨hlow, hhigh⟩ := List.mem_range'_1.1 hn
  rw [h n hlow (by omega)]

end

section

variable (h : ∀ n, lo ≤ n → n < hi → leafOn p root n = .empty)

include h

theorem clearings_eq_nil : clearings p root b lo hi = [] := by
  rw [clearings, List.map_eq_nil_iff, List.filter_eq_nil_iff]
  intro n hn
  obtain ⟨hlow, hhigh⟩ := List.mem_range'_1.1 hn
  rw [h n hlow (by omega)]
  decide

theorem mappedCount_eq_zero : mappedCount p root lo hi = 0 := by
  rw [mappedCount, List.countP_eq_zero]
  intro n hn
  obtain ⟨hlow, hhigh⟩ := List.mem_range'_1.1 hn
  rw [h n hlow (by omega)]
  decide

end

theorem clearings_succ (h : leafOn p root n ≠ .empty) :
    clearings p root b n (n + 1) = [.unmapped (.ofPage b n)] := by
  have hmapped : (leafOn p root n).isEmpty = false :=
    Bool.eq_false_of_not_eq_true (Entry.isEmpty_iff.not.2 h)
  simp [clearings, hmapped]

theorem mappedCount_succ :
    mappedCount p root n (n + 1) = if (leafOn p root n).has .present then 1 else 0 := by
  simp [mappedCount, List.countP_cons]

/-- The pages from `lo` up to `hi` have been cleared, and `count` of them were mapped. -/
structure Wiped (root : PageFrame) (p : Pool) (es : List Event) (b lo hi count : Nat)
    (t : Pool × List Event) : Prop where
  swept : Swept root (fun n => lo ≤ n ∧ n < hi) p t.1
  count_eq : count = mappedCount p root lo hi
  /-- on a tree as it has to be nothing else is noted -/
  notes : Tables.Sound p root → t.2 = es ++ clearings p root b lo hi

/-- Pages that are clear already. -/
theorem Wiped.of_clear (h : ∀ n, lo ≤ n → n < hi → leafOn p root n = .empty ∧ TidyOn p root n) :
    Wiped root p es b lo hi 0 (p, es) where
  swept := .of_clear fun n _ hn => h n hn.1 hn.2
  count_eq := (mappedCount_eq_zero fun n hlow hhigh => (h n hlow hhigh).1).symm
  notes _ := by rw [clearings_eq_nil fun n hlow hhigh => (h n hlow hhigh).1, List.append_nil]

theorem Wiped.refl : Wiped root p es b lo lo 0 (p, es) :=
  .of_clear fun _ hlow hhigh => absurd hhigh (Nat.not_lt.2 hlow)

theorem Wiped.trans {u : Pool × List Event} {fs : List Event}
    (hpq : Wiped root p es b lo mid count (q, fs)) (hqu : Wiped root q fs b mid hi count' u)
    (hlo : lo ≤ mid) (hhi : mid ≤ hi) (htop : hi ≤ 512 ^ 4) :
    Wiped root p es b lo hi (count + count') u := by
  have hsame : ∀ n, mid ≤ n → n < hi → leafOn q root n = leafOn p root n := fun n hlow hhigh =>
    hpq.swept.others n (by omega) (by omega)
  refine ⟨(hpq.swept.trans hqu.swept).congr fun n _ => by omega, ?_, fun hsound => ?_⟩
  · rw [hpq.count_eq, hqu.count_eq, mappedCount_congr hsame, mappedCount_add hlo hhi]
  · have hfs : fs = es ++ clearings p root b lo mid := hpq.notes hsound
    rw [hqu.notes (hpq.swept.tables_sound hsound), clearings_congr hsame, hfs, List.append_assoc,
      clearings_append hlo hhi]

variable {E : Fault → Pool × List Event → Prop}

theorem clearPage_runs (hs : Formed p root) {page : Interval} (hpage : page.Pages b n (n + 1))
    (ht : tableOn p root n .pt = some t) :
    Runs Machine.noted front (clearPage t page) (p, es)
      (fun count u => Wiped root p es b n (n + 1) count u) E := by
  have hn : n < 512 ^ 4 := hpage.top
  have hindex : Level.pt.index page.start = Level.pt.slot n := by
    rw [Level.index_eq, hpage.pageNumber (Nat.lt_succ_self n)]
  rw [clearPage, hindex]
  refine Does.bind_noted (entry_does (hs.has hn ht) _) ?_
  rintro old p ⟨rfl, rfl⟩
  rw [← leafOn_eq ht]
  by_cases hempty : leafOn p root n = .empty
  · rw [if_pos (Entry.isEmpty_iff.2 hempty)]
    refine Runs.pure (.of_clear fun k hlow hhigh => ?_)
    obtain rfl : k = n := by omega
    exact ⟨hempty, tidyOn_of_pt ht⟩
  · rw [if_neg (Entry.isEmpty_iff.not.2 hempty)]
    refine Does.bind_noted (setEntry_does (hs.has hn ht) _ _) ?_
    rintro _ _ rfl
    have hswept : Swept root (fun k => n ≤ k ∧ k < n + 1) p
        (p.withEntry t (Level.pt.slot n) .empty) :=
      (Swept.of_page hs hn ht).congr fun k _ => by omega
    cases hpresent : (leafOn p root n).has .present with
    | true =>
      rw [if_pos rfl]
      refine Runs.bind_emit (Runs.pure ⟨hswept, ?_, fun _ => ?_⟩)
      · rw [mappedCount_succ, hpresent, if_pos rfl]
      · rw [clearings_succ hempty, hpage.start_eq]
        rfl
    | false =>
      rw [if_neg (by decide)]
      refine Runs.bind_emit (Runs.pure ⟨hswept, ?_, fun hsound => ?_⟩)
      · rw [mappedCount_succ, hpresent, if_neg (by decide)]
      · rw [hsound.present n hn hempty] at hpresent
        cases hpresent

/-- Clearing the part of a range that one entry of an upper table stands for. -/
def clearPart (l below : Level) (t : PageFrame) (part : Interval) : MachineM Nat := do
  let i := l.index part.start
  match ← child l t i with
  | .none => return 0
  | .table next => clearTable below next part
  | .malformed e =>
    report (.malformedCleared l e part.start)
    setEntry t i .empty
    return 0

theorem clearTable_next (h : l.next? = some below) (t : PageFrame) (r : Interval) :
    clearTable l t r = r.foldPieces l (clearPart l below t) := by
  unfold clearTable
  rw [Level.descend_next h]
  rfl

/-- One table is on the way to all pages behind one entry. -/
theorem tableOn_part (hbelow : l.next? = some below) (hcell : l.cell (j - 1) = l.cell i)
    (ht : tableOn p root i l = some t) (hin : i ≤ n) (hnj : n < j) :
    tableOn p root n l = some t ∧ tableOn p root n below = behind p i l t ∧
      l.slot n = l.slot i := by
  have hn := Level.cell_between hcell hin hnj
  obtain ⟨hgroup, hslot⟩ := Level.cell_eq_iff.1 hn
  refine ⟨(tableOn_congr hgroup).trans ht, ?_, hslot⟩
  rw [← Level.group_next hbelow, ← Level.group_next hbelow] at hn
  rw [tableOn_congr hn, tableOn_next hbelow, ht, Option.bind_some]

theorem clearPart_runs (hbelow : l.next? = some below)
    (ih : ∀ {p : Pool} {es : List Event} {t : PageFrame} {r : Interval} {i j : Nat},
      Formed p root → r.Pages b i j → (∀ n, i ≤ n → n < j → tableOn p root n below = some t) →
      Runs Machine.noted front (clearTable below t r) (p, es)
        (fun count u => Wiped root p es b i j count u) E)
    (hs : Formed p root) {part : Interval} (hpart : part.Pages b i j)
    (hij : i < j) (hcell : l.cell (j - 1) = l.cell i) (ht : tableOn p root i l = some t) :
    Runs Machine.noted front (clearPart l below t part) (p, es)
      (fun count u => Wiped root p es b i j count u) E := by
  have hi : i < 512 ^ 4 := Nat.lt_of_lt_of_le hij hpart.top
  rw [clearPart, Level.index_eq, hpart.pageNumber hij]
  refine Does.bind_noted (child_does (hs.has hi ht) (Level.isLeaf_of_next hbelow) _) ?_
  rintro c p ⟨rfl, rfl⟩
  cases hc : (p.entryAt t (l.slot i)).child with
  | none =>
    refine Runs.pure (.of_clear fun n hin hnj => ?_)
    obtain ⟨hon, hleads, hslot⟩ := tableOn_part hbelow hcell ht hin hnj
    have hnone : behind p i l t = none := by rw [behind, Entry.table?, hc]
    refine ⟨leafOn_eq_empty_of_none (hleads.trans hnone), tidyOn_of_child hon hbelow ?_ ?_⟩
    · rw [behind, hslot]
      exact hnone
    · rw [hslot, hc]
      rintro _ ⟨⟩
  | table next =>
    refine ih hs hpart fun n hin hnj => ?_
    rw [(tableOn_part hbelow hcell ht hin hnj).2.1, behind, Entry.table?, hc]
  | malformed e =>
    have hsame : ∀ n, i ≤ n ∧ n < j → l.cell n = l.cell i := fun n hn =>
      Level.cell_between hcell hn.1 hn.2
    have hswept := Swept.of_malformed hs hi ht hbelow hc hsame
    have hclear : ∀ n, i ≤ n → n < j → leafOn p root n = .empty := fun n hin hnj => by
      refine leafOn_eq_empty_of_none ((tableOn_part hbelow hcell ht hin hnj).2.1.trans ?_)
      rw [behind, Entry.table?, hc]
    refine Runs.bind_emit (Does.bind_noted (setEntry_does (hs.has hi ht) _ _) ?_)
    rintro _ _ rfl
    refine Runs.pure ⟨hswept, (mappedCount_eq_zero hclear).symm, fun hsound => ?_⟩
    exact absurd hc (hsound.tidy i hi l t e (Level.isLeaf_of_next hbelow) ht)

/-- Clearing the part of a range that one table stands for. -/
theorem clearTable_runs (l : Level) {p : Pool} {es : List Event} {t : PageFrame} {r : Interval}
    {i j : Nat} (hs : Formed p root) (hr : r.Pages b i j)
    (ht : ∀ n, i ≤ n → n < j → tableOn p root n l = some t) :
    Runs Machine.noted front (clearTable l t r) (p, es)
      (fun count u => Wiped root p es b i j count u) E := by
  induction l using Level.bottomUp generalizing p es t r i j with
  | bottom =>
    refine hr.foldPieces (P := fun k sum u => Wiped root p es b i k sum u) ?_ .refl
    rintro k c sum ⟨u, fs⟩ page hik hkc hcj hcell hpage hu
    -- at the lowest level a part is a page
    obtain rfl := Level.eq_succ_of_cell hkc hcell
    have hon := (hu.swept.table k hpage.top .pt).trans (ht k hik hcj)
    refine Runs.imp (clearPage_runs (hu.swept.formed hs) hpage hon) ?_
    intro _ v hv
    exact hu.trans hv hik (Nat.le_succ k) hpage.top
  | step l below hbelow ih =>
    rw [clearTable_next hbelow]
    refine hr.foldPieces (P := fun k sum u => Wiped root p es b i k sum u) ?_ .refl
    rintro k c sum ⟨u, fs⟩ part hik hkc hcj hcell hpart hu
    have hk : k < 512 ^ 4 := Nat.lt_of_lt_of_le hkc hpart.top
    have hon := (hu.swept.table k hk l).trans (ht k hik (Nat.lt_of_lt_of_le hkc hcj))
    refine Runs.imp (clearPart_runs hbelow ih (hu.swept.formed hs) hpart hkc hcell hon) ?_
    intro _ v hv
    exact hu.trans hv hik (Nat.le_of_lt hkc) hpart.top

end Walk

end PagedMemory
