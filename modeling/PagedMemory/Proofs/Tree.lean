import Mathlib.Tactic
import PagedMemory.Walk
import PagedMemory.Proofs.Memory

/-!
# Trees of tables

The words of a pool, read as a tree. A page is known by its number, which is its place among the
`512 ^ 4` pages that one root stands for.

* `Level.cell`: the number of the entry that stands for a page, among all entries of the level;
  its digits to the base 512 say which table it is in and where.
* `Tables.tableOn`: the table of each level on the way to a page, and `Tables.leafOn`: the entry that
  maps the page. An entry that does not lead to a table leads nowhere, whatever else it says.
* `Tables.Formed`, `Tables.Held`: the tables are there, or in use, and each is reached on one way
  only. `Tables.Sound` adds that entries say nothing but where to go on.
* `Tables.Formed.leafOn_store`, `Tables.Formed.tableOn_link`: a store to a lowest table changes one
  leaf, and a new table behind an entry that led nowhere changes no leaf.
* `translate_reads`: a translation is what the leaf says. `Walk.whereIs`: its answer.
-/

namespace PagedMemory

open Layout

/-! ## Pages by number -/

/-- The number of the page that `a` lies in. -/
def VirtAddr.pageNumber (a : VirtAddr) : Nat := a.val.toNat / 4096 % 512 ^ 4

theorem VirtAddr.pageNumber_lt (a : VirtAddr) : a.pageNumber < 512 ^ 4 :=
  Nat.mod_lt _ (by decide)

namespace Level

/-- How many levels there are below. -/
def height : Level → Nat
  | pt => 0
  | pd => 1
  | pdpt => 2
  | pml4 => 3

/-- The entry that stands for page `n`, among all entries of the level. -/
def cell (l : Level) (n : Nat) : Nat := n / 512 ^ l.height

/-- The place of that entry in its table. -/
def slot (l : Level) (n : Nat) : TableIndex := ⟨l.cell n % 512, Nat.mod_lt _ (by decide)⟩

/-- The table of that entry, among all tables of the level. -/
def group (l : Level) (n : Nat) : Nat := l.cell n / 512

variable {l below : Level} {n k : Nat}

theorem index_eq (l : Level) (a : VirtAddr) : l.index a = l.slot a.pageNumber := by
  have hindex : (l.index a).val = a.val.toNat / 2 ^ (12 + 9 * l.height) % 512 := by
    have hmask : ((a.val >>> l.shift) &&& 0x1ff).toNat = (a.val >>> l.shift).toNat % 512 := by
      rw [UInt64.toNat_and]
      exact Nat.and_two_pow_sub_one_eq_mod _ 9
    refine hmask.trans ?_
    rw [UInt64.toNat_shiftRight, Nat.shiftRight_eq_div_pow]
    cases l <;> rfl
  apply Fin.ext
  change _ = a.pageNumber / 512 ^ l.height % 512
  rw [hindex, VirtAddr.pageNumber]
  cases l <;> simp only [height] <;> omega

/-- The pages behind one entry are those behind one table of the level below. -/
theorem group_next (h : l.next? = some below) (n : Nat) : below.group n = l.cell n := by
  cases l <;> cases h <;> simp only [group, cell, height] <;> omega

theorem cell_eq_iff : l.cell n = l.cell k ↔ l.group n = l.group k ∧ l.slot n = l.slot k := by
  rw [group, group, slot, slot, Fin.mk.injEq]
  omega

theorem cell_pt (n : Nat) : pt.cell n = n := Nat.div_one n

/-- One root stands for all pages. -/
theorem group_pml4 (h : n < 512 ^ 4) : pml4.group n = 0 := by
  simp only [group, cell, height]
  omega

theorem isLeaf_of_next (h : l.next? = some below) : l.isLeaf = false := by
  rw [isLeaf, h]
  rfl

theorem descend_next {α : Sort*} {leaf : α} {inner : Level → α → α} (h : l.next? = some below) :
    descend leaf inner l = inner l (descend leaf inner below) := by
  rw [descend_eq, h]

theorem next?_inj (h : l.next? = some below) {l' : Level} (h' : l'.next? = some below) : l' = l := by
  cases l <;> cases h <;> cases l' <;> cases h' <;> rfl

theorem height_next (h : l.next? = some below) : l.height = below.height + 1 := by
  cases l <;> cases h <;> rfl

theorem height_inj {l' : Level} (h : l.height = l'.height) : l = l' := by
  cases l <;> cases l' <;> first | rfl | cases h

theorem height_lt {l' : Level} (h : l.next? = some below) (h' : l'.height < l.height) :
    l'.height ≤ below.height := by
  have hnext := height_next h
  omega

theorem next?_ne (h : l.next? = some below) : below ≠ l := by
  rintro rfl
  cases below <;> cases h

/-- Induction from the root down. -/
theorem topDown {motive : Level → Prop} (top : motive pml4)
    (step : ∀ l below, l.next? = some below → motive l → motive below) (l : Level) : motive l := by
  have hpdpt := step pml4 pdpt rfl top
  have hpd := step pdpt pd rfl hpdpt
  cases l with
  | pml4 => exact top
  | pdpt => exact hpdpt
  | pd => exact hpd
  | pt => exact step pd pt rfl hpd

/-- Induction from the lowest level up. -/
theorem bottomUp {motive : Level → Prop} (bottom : motive pt)
    (step : ∀ l below, l.next? = some below → motive below → motive l) (l : Level) : motive l := by
  have hpd := step pd pt rfl bottom
  have hpdpt := step pdpt pd rfl hpd
  cases l with
  | pml4 => exact step pml4 pdpt rfl hpdpt
  | pdpt => exact hpdpt
  | pd => exact hpd
  | pt => exact bottom

end Level

/-! ## The tree -/

/-- The table that an entry leads to. -/
def Entry.table? (e : Entry) : Option PageFrame :=
  match e.child with
  | .table f => some f
  | .none => none
  | .malformed _ => none

theorem Entry.child_ne_malformed {e m : Entry} {f : PageFrame} (h : e.table? = some f) :
    e.child ≠ .malformed m := by
  intro hm
  rw [table?, hm] at h
  cases h

theorem Entry.table?_tableTo {f : PageFrame} (h : f.Numbered) :
    (Entry.tableTo f).table? = some f := by
  rw [Entry.table?, Entry.child_tableTo h]

/-- An entry of a table, as it lies in memory. -/
def Pool.entryAt (p : Pool) (table : PageFrame) (i : TableIndex) : Entry := ⟨(p.page table).get i⟩

namespace Tables

variable {p q : Pool} {root f t t' : PageFrame} {l l' below : Level} {n k : Nat} {e : Entry}

/-- The table that the entry for page `n` leads to, in a table of level `l`. -/
def behind (p : Pool) (n : Nat) (l : Level) (t : PageFrame) : Option PageFrame :=
  (p.entryAt t (l.slot n)).table?

/-- The table of each level on the way from the root to page `n`. -/
def tableOn (p : Pool) (root : PageFrame) (n : Nat) : Level → Option PageFrame
  | .pml4 => some root
  | .pdpt => behind p n .pml4 root
  | .pd => (behind p n .pml4 root).bind (behind p n .pdpt)
  | .pt => ((behind p n .pml4 root).bind (behind p n .pdpt)).bind (behind p n .pd)

/-- The entry that maps page `n`; nothing if there is no table for it. -/
def leafOn (p : Pool) (root : PageFrame) (n : Nat) : Entry :=
  match tableOn p root n .pt with
  | some t => p.entryAt t (Level.pt.slot n)
  | none => .empty

theorem tableOn_next (h : l.next? = some below) :
    tableOn p root n below = (tableOn p root n l).bind (behind p n l) := by
  cases l <;> cases h <;> rfl

theorem leafOn_eq (h : tableOn p root n .pt = some t) :
    leafOn p root n = p.entryAt t (Level.pt.slot n) := by
  rw [leafOn, h]

theorem leafOn_eq_empty (h : tableOn p root n .pt = none) : leafOn p root n = .empty := by
  rw [leafOn, h]

/-- A way that ends early does not come to lower tables. -/
theorem tableOn_eq_none_of_le (h : tableOn p root n l = none) (hl : l'.height ≤ l.height) :
    tableOn p root n l' = none := by
  induction l using Level.bottomUp with
  | bottom =>
    obtain rfl : l' = .pt := Level.height_inj (Nat.le_zero.1 hl)
    exact h
  | step l below hnext ih =>
    rcases Nat.lt_or_eq_of_le hl with hlt | heq
    · refine ih ?_ (Level.height_lt hnext hlt)
      rw [tableOn_next hnext, h]
      rfl
    · rwa [Level.height_inj heq]

/-- A way that ends early maps nothing. -/
theorem leafOn_eq_empty_of_none (h : tableOn p root n l = none) : leafOn p root n = .empty :=
  leafOn_eq_empty (tableOn_eq_none_of_le h (Nat.zero_le _))

/-- On the way to a table no entry is malformed. -/
theorem child_ne_malformed_of_lt (h : tableOn p root n l = some t) (hl : l.height < l'.height)
    (ht' : tableOn p root n l' = some t') : (p.entryAt t' (l'.slot n)).child ≠ .malformed e := by
  induction l using Level.topDown generalizing t with
  | top => cases l' <;> exact absurd hl (by decide)
  | step l₁ below hnext ih =>
    obtain ⟨t₁, ht₁, hbehind⟩ := Option.bind_eq_some_iff.1 ((tableOn_next hnext).symm.trans h)
    rw [← Nat.succ_le_iff, ← Nat.add_one, ← Level.height_next hnext] at hl
    rcases Nat.lt_or_eq_of_le hl with hlt | heq
    · exact ih ht₁ hlt
    · obtain rfl := Level.height_inj heq
      obtain rfl := Option.some.inj (ht₁.symm.trans ht')
      exact Entry.child_ne_malformed hbehind

/-- The frame holds a table of the tree. -/
def IsTable (p : Pool) (root f : PageFrame) : Prop :=
  ∃ n < 512 ^ 4, ∃ l, tableOn p root n l = some f

theorem isTable_root : IsTable p root root := ⟨0, by decide, .pml4, rfl⟩

/-- The way to a page begins like the way to any page behind the same table. -/
theorem tableOn_congr (h : l.group n = l.group k) : tableOn p root n l = tableOn p root k l := by
  induction l using Level.topDown with
  | top => rfl
  | step l below hnext ih =>
    rw [Level.group_next hnext, Level.group_next hnext, Level.cell_eq_iff] at h
    obtain ⟨hgroup, hslot⟩ := h
    have hbehind : behind p n l = behind p k l := by
      funext t
      rw [behind, behind, hslot]
    rw [tableOn_next hnext, tableOn_next hnext, ih hgroup, hbehind]

/-- The way to a page depends on the entries it goes through. -/
theorem tableOn_eq_of_behind (h : ∀ l t, l.isLeaf = false → tableOn p root n l = some t →
    behind q n l t = behind p n l t) (l : Level) : tableOn q root n l = tableOn p root n l := by
  induction l using Level.topDown with
  | top => rfl
  | step l below hnext ih =>
    rw [tableOn_next hnext, tableOn_next hnext, ih]
    cases hl : tableOn p root n l with
    | none => rfl
    | some t => exact h l t (Level.isLeaf_of_next hnext) hl

/-- There is memory for all tables, and each has one place in the tree. Nothing is said of entries
that lead to no table. -/
structure Formed (p : Pool) (root : PageFrame) : Prop where
  within : ∀ f, IsTable p root f → p.Has f
  apart : ∀ n < 512 ^ 4, ∀ k < 512 ^ 4, ∀ l l' f, tableOn p root n l = some f →
    tableOn p root k l' = some f → l' = l ∧ l.group k = l.group n

/-- All tables are in use, and each has one place in the tree. -/
structure Held (p : Pool) (root : PageFrame) : Prop where
  taken : ∀ f, IsTable p root f → p.isTaken f = true
  apart : ∀ n < 512 ^ 4, ∀ k < 512 ^ 4, ∀ l l' f, tableOn p root n l = some f →
    tableOn p root k l' = some f → l' = l ∧ l.group k = l.group n

/-- No entry on the way to page `n` is malformed. -/
def TidyOn (p : Pool) (root : PageFrame) (n : Nat) : Prop :=
  ∀ l t e, l.isLeaf = false → tableOn p root n l = some t →
    (p.entryAt t (l.slot n)).child ≠ .malformed e

/-- A way that comes to the lowest table is tidy. -/
theorem tidyOn_of_pt (h : tableOn p root n .pt = some t) : TidyOn p root n := by
  intro l t' e hl ht'
  refine child_ne_malformed_of_lt h ?_ ht'
  cases l <;> first | decide | cases hl

/-- A way that ends at an entry that is not malformed is tidy. -/
theorem tidyOn_of_child (ht : tableOn p root n l = some t) (hbelow : l.next? = some below)
    (hnone : behind p n l t = none) (hchild : ∀ e, (p.entryAt t (l.slot n)).child ≠ .malformed e) :
    TidyOn p root n := by
  intro l' t' e _ ht'
  rcases Nat.lt_trichotomy l'.height l.height with hlt | heq | hgt
  · have hend : tableOn p root n below = none := by
      rw [tableOn_next hbelow, ht, Option.bind_some, hnone]
    rw [tableOn_eq_none_of_le hend (Level.height_lt hbelow hlt)] at ht'
    cases ht'
  · obtain rfl := Level.height_inj heq
    obtain rfl := Option.some.inj (ht.symm.trans ht')
    exact hchild e
  · exact child_ne_malformed_of_lt ht hgt ht'

/-- What a tree of tables has to be like. -/
structure Sound (p : Pool) (root : PageFrame) : Prop where
  taken : ∀ f, IsTable p root f → p.isTaken f = true
  /-- a table has one place in the tree -/
  apart : ∀ n < 512 ^ 4, ∀ k < 512 ^ 4, ∀ l l' f, tableOn p root n l = some f →
    tableOn p root k l' = some f → l' = l ∧ l.group k = l.group n
  /-- an entry of an upper table is empty or leads to a table -/
  tidy : ∀ n < 512 ^ 4, ∀ l t e, l.isLeaf = false → tableOn p root n l = some t →
    (p.entryAt t (l.slot n)).child ≠ .malformed e
  /-- an entry for a page is empty or maps it -/
  present : ∀ n < 512 ^ 4, leafOn p root n ≠ .empty → (leafOn p root n).has .present = true

theorem Sound.held (h : Sound p root) : Held p root := ⟨h.taken, h.apart⟩

theorem Held.formed (h : Held p root) : Formed p root :=
  ⟨fun f hf => Pool.has_of_isTaken (h.taken f hf), h.apart⟩

theorem Sound.formed (h : Sound p root) : Formed p root := h.held.formed

theorem Formed.has (h : Formed p root) (hn : n < 512 ^ 4) (ht : tableOn p root n l = some t) :
    p.Has t :=
  h.within t ⟨n, hn, l, ht⟩

/-! ## Stores outside the tree -/

section

variable (h : ∀ f, IsTable p root f → q.page f = p.page f)

include h

theorem tableOn_eq_of_page (hn : n < 512 ^ 4) (l : Level) :
    tableOn q root n l = tableOn p root n l := by
  refine tableOn_eq_of_behind (fun l t _ ht => ?_) l
  rw [behind, behind, Pool.entryAt, Pool.entryAt, h t ⟨n, hn, l, ht⟩]

theorem leafOn_eq_of_page (hn : n < 512 ^ 4) : leafOn q root n = leafOn p root n := by
  have hpt := tableOn_eq_of_page h hn .pt
  cases ht : tableOn p root n .pt with
  | none => rw [leafOn_eq_empty ht, leafOn_eq_empty (hpt.trans ht)]
  | some t =>
    rw [leafOn_eq ht, leafOn_eq (hpt.trans ht), Pool.entryAt, Pool.entryAt, h t ⟨n, hn, .pt, ht⟩]

end

theorem isTable_congr (h : ∀ n < 512 ^ 4, ∀ l, tableOn q root n l = tableOn p root n l) :
    IsTable q root f ↔ IsTable p root f := by
  constructor
  · rintro ⟨n, hn, l, hf⟩
    exact ⟨n, hn, l, (h n hn l).symm.trans hf⟩
  · rintro ⟨n, hn, l, hf⟩
    exact ⟨n, hn, l, (h n hn l).trans hf⟩

/-- Tables that stay where they are stay apart. -/
theorem Formed.apart_congr (hp : Formed p root)
    (h : ∀ n < 512 ^ 4, ∀ l, tableOn q root n l = tableOn p root n l) :
    ∀ n < 512 ^ 4, ∀ k < 512 ^ 4, ∀ l l' f, tableOn q root n l = some f →
      tableOn q root k l' = some f → l' = l ∧ l.group k = l.group n := by
  intro n hn k hk l l' f hl hl'
  rw [h n hn] at hl
  rw [h k hk] at hl'
  exact hp.apart n hn k hk l l' f hl hl'

/-- A tree that is left alone stays as it has to be. -/
theorem Held.of_page (hp : Held p root) (hpage : ∀ f, IsTable p root f → q.page f = p.page f)
    (htaken : ∀ f, IsTable p root f → q.isTaken f = true) : Held q root where
  taken f hf := htaken f ((isTable_congr fun _ hn l => tableOn_eq_of_page hpage hn l).1 hf)
  apart := hp.formed.apart_congr fun _ hn l => tableOn_eq_of_page hpage hn l

theorem Sound.of_page (hp : Sound p root) (hpage : ∀ f, IsTable p root f → q.page f = p.page f)
    (htaken : ∀ f, IsTable p root f → q.isTaken f = true) : Sound q root where
  taken := (hp.held.of_page hpage htaken).taken
  apart := (hp.held.of_page hpage htaken).apart
  tidy n hn l t e hl ht := by
    rw [tableOn_eq_of_page hpage hn] at ht
    rw [Pool.entryAt, hpage t ⟨n, hn, l, ht⟩]
    exact hp.tidy n hn l t e hl ht
  present n hn := by
    rw [leafOn_eq_of_page hpage hn]
    exact hp.present n hn

/-! ## A root alone -/

section

variable (h : ∀ i, (p.entryAt root i).table? = none)

include h

/-- A root whose entries lead nowhere is the only table. -/
theorem tableOn_of_nowhere (l : Level) :
    tableOn p root n l = if l = .pml4 then some root else none := by
  induction l using Level.topDown with
  | top => rfl
  | step l below hnext ih =>
    have hne : below ≠ .pml4 := by
      rintro rfl
      cases l <;> cases hnext
    rw [tableOn_next hnext, ih, if_neg hne]
    split
    · exact h _
    · rfl

theorem leafOn_of_nowhere (n : Nat) : leafOn p root n = .empty :=
  leafOn_eq_empty (by rw [tableOn_of_nowhere h, if_neg (by decide)])

theorem isTable_of_nowhere : IsTable p root f ↔ f = root := by
  constructor
  · rintro ⟨n, -, l, hf⟩
    rw [tableOn_of_nowhere h] at hf
    split at hf
    · exact (Option.some.inj hf).symm
    · cases hf
  · rintro rfl
    exact isTable_root

theorem Formed.of_nowhere (hroot : p.Has root) : Formed p root where
  within f hf := by
    rwa [(isTable_of_nowhere h).1 hf]
  apart n hn k hk l l' f hl hl' := by
    rw [tableOn_of_nowhere h] at hl hl'
    split at hl
    next hlevel =>
      split at hl'
      next hlevel' =>
        subst hlevel hlevel'
        exact ⟨rfl, (Level.group_pml4 hk).trans (Level.group_pml4 hn).symm⟩
      next => cases hl'
    next => cases hl

theorem Held.of_nowhere (htaken : p.isTaken root = true) : Held p root where
  taken f hf := by
    rwa [(isTable_of_nowhere h).1 hf]
  apart := (Formed.of_nowhere h (Pool.has_of_isTaken htaken)).apart

end

end Tables

/-! ## Stores to tables -/

/-- The pool with one entry of one table replaced. -/
def Pool.withEntry (p : Pool) (table : PageFrame) (i : TableIndex) (e : Entry) : Pool :=
  p.rewrite table fun page => page.set i e.bits i.isLt

theorem Pool.entryAt_withEntry {p : Pool} {t : PageFrame} (h : p.Has t) (t' : PageFrame)
    (i j : TableIndex) (e : Entry) :
    (p.withEntry t i e).entryAt t' j = if t' = t ∧ j = i then e else p.entryAt t' j := by
  rw [entryAt, withEntry, getElem_page_store h]
  split <;> rfl

namespace Tables

variable {p : Pool} {root t t' f : PageFrame} {l l' below : Level} {n k : Nat} {e : Entry}

/-- A store to the entry for page `n` shows on the way to the pages behind that entry only. -/
theorem Formed.entryAt_store (hp : Formed p root) (hn : n < 512 ^ 4)
    (ht : tableOn p root n l = some t) (hk : k < 512 ^ 4) (ht' : tableOn p root k l' = some t') :
    (p.withEntry t (l.slot n) e).entryAt t' (l'.slot k) =
      if l' = l ∧ l'.cell k = l'.cell n then e else p.entryAt t' (l'.slot k) := by
  have hplace : (t' = t ∧ l'.slot k = l.slot n) ↔ (l' = l ∧ l'.cell k = l'.cell n) := by
    constructor
    · rintro ⟨rfl, hslot⟩
      obtain ⟨rfl, hgroup⟩ := hp.apart n hn k hk l l' t' ht ht'
      exact ⟨rfl, Level.cell_eq_iff.2 ⟨hgroup, hslot⟩⟩
    · rintro ⟨rfl, hcell⟩
      obtain ⟨hgroup, hslot⟩ := Level.cell_eq_iff.1 hcell
      have hsame := (tableOn_congr hgroup).symm.trans ht'
      exact ⟨Option.some.inj (hsame.symm.trans ht), hslot⟩
  rw [Pool.entryAt_withEntry (hp.has hn ht)]
  simp only [hplace]

/-- A store to an upper entry that leads where it led leaves all tables where they are, and so does
any store to a lowest table. -/
theorem Formed.tableOn_store (hp : Formed p root) (hn : n < 512 ^ 4)
    (ht : tableOn p root n l = some t) (he : l.isLeaf = false → e.table? = behind p n l t)
    (hk : k < 512 ^ 4) (l' : Level) :
    tableOn (p.withEntry t (l.slot n) e) root k l' = tableOn p root k l' := by
  refine tableOn_eq_of_behind (fun l₁ t₁ hleaf ht₁ => ?_) l'
  rw [behind, hp.entryAt_store hn ht hk ht₁]
  split
  next hsame =>
    obtain ⟨rfl, hcell⟩ := hsame
    obtain ⟨hgroup, hslot⟩ := Level.cell_eq_iff.1 hcell
    obtain rfl := Option.some.inj (ht₁.symm.trans ((tableOn_congr hgroup).trans ht))
    rw [he hleaf, behind, behind, hslot]
  next => rw [behind]

/-- A store to the entry of a page in its lowest table changes what is said of that page. -/
theorem Formed.leafOn_store (hp : Formed p root) (hn : n < 512 ^ 4)
    (ht : tableOn p root n .pt = some t) (hk : k < 512 ^ 4) :
    leafOn (p.withEntry t (Level.pt.slot n) e) root k =
      if k = n then e else leafOn p root k := by
  have hpt := hp.tableOn_store (e := e) hn ht nofun hk .pt
  cases ht' : tableOn p root k .pt with
  | none =>
    have hkn : k ≠ n := by
      rintro rfl
      rw [ht'] at ht
      cases ht
    rw [leafOn_eq_empty ht', leafOn_eq_empty (hpt.trans ht'), if_neg hkn]
  | some t' =>
    rw [leafOn_eq ht', leafOn_eq (hpt.trans ht'), hp.entryAt_store hn ht hk ht']
    simp only [Level.cell_pt, true_and]

/-- A store to an upper entry changes the leaf of a page only if it changes its lowest table. -/
theorem Formed.leafOn_store_of_tableOn (hp : Formed p root) (hn : n < 512 ^ 4) (hl : l ≠ .pt)
    (ht : tableOn p root n l = some t) (hk : k < 512 ^ 4)
    (hpt : tableOn (p.withEntry t (l.slot n) e) root k .pt = tableOn p root k .pt) :
    leafOn (p.withEntry t (l.slot n) e) root k = leafOn p root k := by
  cases ht' : tableOn p root k .pt with
  | none => rw [leafOn_eq_empty ht', leafOn_eq_empty (hpt.trans ht')]
  | some t' =>
    rw [leafOn_eq ht', leafOn_eq (hpt.trans ht'), hp.entryAt_store hn ht hk ht',
      if_neg fun h => hl h.1.symm]

/-- A store to an upper entry that leads where it led changes no leaf. -/
theorem Formed.leafOn_store_upper (hp : Formed p root) (hn : n < 512 ^ 4) (hl : l.isLeaf = false)
    (ht : tableOn p root n l = some t) (he : e.table? = behind p n l t) (hk : k < 512 ^ 4) :
    leafOn (p.withEntry t (l.slot n) e) root k = leafOn p root k := by
  have hne : l ≠ .pt := by
    rintro rfl
    cases hl
  exact hp.leafOn_store_of_tableOn hn hne ht hk (hp.tableOn_store hn ht (fun _ => he) hk .pt)

/-- A store that leaves all tables where they are leaves them in use. -/
theorem Held.store (hp : Held p root) (hn : n < 512 ^ 4) (ht : tableOn p root n l = some t)
    (he : l.isLeaf = false → e.table? = behind p n l t) :
    Held (p.withEntry t (l.slot n) e) root where
  taken f hf := by
    rw [Pool.withEntry, Pool.isTaken_rewrite]
    exact hp.taken f ((isTable_congr fun _ hk l => hp.formed.tableOn_store hn ht he hk l).1 hf)
  apart := hp.formed.apart_congr fun _ hk l => hp.formed.tableOn_store hn ht he hk l

/-- An entry for a page can be replaced by any that maps the page or is empty. -/
theorem Sound.store (hp : Sound p root) (hn : n < 512 ^ 4) (ht : tableOn p root n .pt = some t)
    (he : e = .empty ∨ e.has .present = true) :
    Sound (p.withEntry t (Level.pt.slot n) e) root where
  taken := (hp.held.store hn ht nofun).taken
  apart := (hp.held.store hn ht nofun).apart
  tidy k hk l t' m hl ht' := by
    have hne : l ≠ .pt := by
      rintro rfl
      cases hl
    rw [hp.formed.tableOn_store hn ht nofun hk] at ht'
    rw [hp.formed.entryAt_store hn ht hk ht', if_neg fun h => hne h.1]
    exact hp.tidy k hk l t' m hl ht'
  present k hk := by
    rw [hp.formed.leafOn_store hn ht hk]
    split
    · exact he.resolve_left
    · exact hp.present k hk

/-! ## New tables -/

/-- What has to hold for a table to be put behind the entry for page `n` in the table `t` of
level `l`: the frame is in use, empty and not yet a table, and the entry leads nowhere. -/
structure Free (p : Pool) (root : PageFrame) (n : Nat) (l : Level) (t f : PageFrame) : Prop where
  on : tableOn p root n l = some t
  nowhere : behind p n l t = none
  taken : p.isTaken f = true
  notTable : ¬ IsTable p root f
  zero : p.page f = Page.zero

theorem Free.ne (hf : Free p root n l t f) (hn : n < 512 ^ 4) : f ≠ t := by
  rintro rfl
  exact hf.notTable ⟨n, hn, l, hf.on⟩

/-- Before, no way leads past the entry. -/
theorem Free.tableOn_eq_none (hf : Free p root n l t f) (hbelow : l.next? = some below)
    (hgroup : below.group k = below.group n) : tableOn p root k below = none := by
  rw [Level.group_next hbelow, Level.group_next hbelow, Level.cell_eq_iff] at hgroup
  obtain ⟨hgroup, hslot⟩ := hgroup
  rw [tableOn_next hbelow, tableOn_congr hgroup, hf.on, Option.bind_some, behind, hslot]
  exact hf.nowhere

section

variable (hp : Formed p root) (hn : n < 512 ^ 4) (hf : Free p root n l t f)

include hp hn hf

/-- The new table is empty. -/
theorem Free.entryAt_eq_empty (i : TableIndex) :
    (p.withEntry t (l.slot n) e).entryAt f i = .empty := by
  rw [Pool.entryAt_withEntry (hp.has hn hf.on), if_neg fun he => hf.ne hn he.1, Pool.entryAt,
    hf.zero, Page.get_zero]
  rfl

theorem Free.behind_eq_none : behind (p.withEntry t (l.slot n) e) k l' f = none := by
  rw [behind, hf.entryAt_eq_empty hp hn]
  rfl

/-- A table put behind an entry is on the way to the pages that the entry stands for. -/
theorem Formed.tableOn_link (he : e.table? = some f) (hbelow : l.next? = some below)
    (hk : k < 512 ^ 4) (l' : Level) :
    tableOn (p.withEntry t (l.slot n) e) root k l' =
      if l' = below ∧ below.group k = below.group n then some f else tableOn p root k l' := by
  induction l' using Level.topDown with
  | top =>
    have hne : Level.pml4 ≠ below := by
      rintro rfl
      cases l <;> cases hbelow
    rw [if_neg fun h => hne h.1]
    rfl
  | step l₁ below₁ hnext ih =>
    rw [tableOn_next hnext, ih]
    by_cases hnew : l₁ = below ∧ below.group k = below.group n
    · -- behind the new table
      obtain ⟨rfl, hgroup⟩ := hnew
      have hold := hf.tableOn_eq_none hbelow hgroup
      rw [if_pos ⟨rfl, hgroup⟩, Option.bind_some, hf.behind_eq_none hp hn,
        if_neg fun h => Level.next?_ne hnext h.1, tableOn_next hnext, hold]
      rfl
    · rw [if_neg hnew, tableOn_next hnext]
      have hplace : (below₁ = below ∧ below.group k = below.group n) ↔
          (l₁ = l ∧ l₁.cell k = l₁.cell n) := by
        constructor
        · rintro ⟨rfl, hgroup⟩
          obtain rfl := Level.next?_inj hnext hbelow
          rw [Level.group_next hbelow, Level.group_next hbelow] at hgroup
          exact ⟨rfl, hgroup⟩
        · rintro ⟨rfl, hcell⟩
          obtain rfl := Option.some.inj (hnext.symm.trans hbelow)
          rw [Level.group_next hbelow, Level.group_next hbelow]
          exact ⟨rfl, hcell⟩
      simp only [hplace]
      cases ht' : tableOn p root k l₁ with
      | none =>
        have hmiss : ¬ (l₁ = l ∧ l₁.cell k = l₁.cell n) := by
          rintro ⟨rfl, hcell⟩
          rw [tableOn_congr (Level.cell_eq_iff.1 hcell).1, hf.on] at ht'
          cases ht'
        rw [if_neg hmiss]
        rfl
      | some t' =>
        rw [Option.bind_some, Option.bind_some, behind, hp.entryAt_store hn hf.on hk ht']
        split
        · exact he
        · rfl

/-- A new table changes no leaf. -/
theorem Formed.leafOn_link (he : e.table? = some f) (hbelow : l.next? = some below)
    (hk : k < 512 ^ 4) :
    leafOn (p.withEntry t (l.slot n) e) root k = leafOn p root k := by
  have hpt := hp.tableOn_link hn hf he hbelow hk .pt
  by_cases hnew : Level.pt = below ∧ below.group k = below.group n
  · obtain ⟨rfl, hgroup⟩ := hnew
    rw [if_pos ⟨rfl, hgroup⟩] at hpt
    rw [leafOn_eq hpt, leafOn_eq_empty (hf.tableOn_eq_none hbelow hgroup),
      hf.entryAt_eq_empty hp hn]
  · rw [if_neg hnew] at hpt
    have hne : l ≠ .pt := by
      rintro rfl
      cases hbelow
    exact hp.leafOn_store_of_tableOn hn hne hf.on hk hpt

/-- The tables are those there were, and the new one. -/
theorem Formed.isTable_link (he : e.table? = some f) (hbelow : l.next? = some below)
    {g : PageFrame} :
    IsTable (p.withEntry t (l.slot n) e) root g ↔ g = f ∨ IsTable p root g := by
  constructor
  · rintro ⟨k, hk, l', hg⟩
    rw [hp.tableOn_link hn hf he hbelow hk] at hg
    split at hg
    · exact Or.inl (Option.some.inj hg).symm
    · exact Or.inr ⟨k, hk, l', hg⟩
  · rintro (rfl | ⟨k, hk, l', hg⟩)
    · refine ⟨n, hn, below, ?_⟩
      rw [hp.tableOn_link hn hf he hbelow hn, if_pos ⟨rfl, rfl⟩]
    · refine ⟨k, hk, l', ?_⟩
      rw [hp.tableOn_link hn hf he hbelow hk, if_neg ?_]
      · exact hg
      · rintro ⟨rfl, hgroup⟩
        rw [hf.tableOn_eq_none hbelow hgroup] at hg
        cases hg

end

section

variable (hn : n < 512 ^ 4) (hf : Free p root n l t f)

include hn hf

theorem Held.link (hp : Held p root) (he : e.table? = some f) (hbelow : l.next? = some below) :
    Held (p.withEntry t (l.slot n) e) root where
  taken g hg := by
    rw [Pool.withEntry, Pool.isTaken_rewrite]
    rcases (hp.formed.isTable_link hn hf he hbelow).1 hg with rfl | hg
    · exact hf.taken
    · exact hp.taken g hg
  apart n₁ hn₁ n₂ hn₂ l₁ l₂ g h₁ h₂ := by
    rw [hp.formed.tableOn_link hn hf he hbelow hn₁] at h₁
    rw [hp.formed.tableOn_link hn hf he hbelow hn₂] at h₂
    split at h₁
    next hnew₁ =>
      obtain ⟨rfl, hgroup₁⟩ := hnew₁
      split at h₂
      next hnew₂ =>
        obtain ⟨rfl, hgroup₂⟩ := hnew₂
        exact ⟨rfl, hgroup₂.trans hgroup₁.symm⟩
      next =>
        obtain rfl := Option.some.inj h₁
        exact absurd ⟨n₂, hn₂, l₂, h₂⟩ hf.notTable
    next =>
      split at h₂
      next =>
        obtain rfl := Option.some.inj h₂
        exact absurd ⟨n₁, hn₁, l₁, h₁⟩ hf.notTable
      next => exact hp.apart n₁ hn₁ n₂ hn₂ l₁ l₂ g h₁ h₂

theorem Sound.link (hp : Sound p root) (he : e.table? = some f) (hbelow : l.next? = some below) :
    Sound (p.withEntry t (l.slot n) e) root where
  taken := (hp.held.link hn hf he hbelow).taken
  apart := (hp.held.link hn hf he hbelow).apart
  tidy k hk l' t' m hl' ht' := by
    rw [hp.formed.tableOn_link hn hf he hbelow hk] at ht'
    split at ht'
    next =>
      obtain rfl := Option.some.inj ht'
      rw [hf.entryAt_eq_empty hp.formed hn]
      exact nofun
    next =>
      rw [hp.formed.entryAt_store hn hf.on hk ht']
      split
      · exact Entry.child_ne_malformed he
      · exact hp.tidy k hk l' t' m hl' ht'
  present k hk := by
    rw [hp.formed.leafOn_link hn hf he hbelow hk]
    exact hp.present k hk

end

end Tables

/-! ## Operations on entries -/

section

open Tables

variable {back : Backdrop} {p : Pool} {root t : PageFrame} {l : Level} {n : Nat}

theorem entry_does (h : p.Has t) (i : TableIndex) :
    Does back (entry t i) p fun e q => e = p.entryAt t i ∧ q = p := by
  refine Runs.bind (Machine.word_does h i) ?_
  rintro _ _ ⟨rfl, rfl⟩
  exact Runs.pure ⟨rfl, rfl⟩

theorem setEntry_does (h : p.Has t) (i : TableIndex) (e : Entry) :
    Does back (setEntry t i e) p fun _ q => q = p.withEntry t i e :=
  Machine.setWord_does h i e.bits

theorem child_does (h : p.Has t) (hl : l.isLeaf = false) (i : TableIndex) :
    Does back (child l t i) p fun c q => c = (p.entryAt t i).child ∧ q = p := by
  rw [child, hl]
  refine Runs.bind (entry_does h i) ?_
  rintro _ _ ⟨rfl, rfl⟩
  exact Runs.pure ⟨rfl, rfl⟩

/-- Where `a` is mapped, as far as the leaf of its page says so. -/
def Tables.target (p : Pool) (root : PageFrame) (a : VirtAddr) : Option PhysAddr :=
  let e := leafOn p root a.pageNumber
  if e.has .present then some (e.frame.byteFor a) else none

theorem Tables.target_eq_none {a : VirtAddr} (h : leafOn p root a.pageNumber = .empty) :
    target p root a = none := by
  rw [target, h]
  rfl

theorem translateBelow_next {below : Level} (h : l.next? = some below) (a : VirtAddr) :
    Walk.translateBelow a l t = (do
      match ← child l t (l.index a) with
      | .table next => Walk.translateBelow a below next
      | .none => return none
      | .malformed _ => return none) := by
  cases l <;> cases h <;> rfl

theorem translateBelow_does (hp : ∀ f, IsTable p root f → p.Has f) (a : VirtAddr)
    (ht : tableOn p root a.pageNumber l = some t) :
    Does back (Walk.translateBelow a l t) p fun r q => r = target p root a ∧ q = p := by
  have hn := a.pageNumber_lt
  induction l using Level.bottomUp generalizing t with
  | bottom =>
    refine Runs.bind (entry_does (hp t ⟨_, hn, _, ht⟩) _) ?_
    rintro _ p ⟨rfl, rfl⟩
    rw [target, leafOn_eq ht, ← Level.index_eq]
    split
    · exact Runs.bind_lift (PageFrame.byteAt_pageOffset _ a) (Runs.pure ⟨rfl, rfl⟩)
    · exact Runs.pure ⟨rfl, rfl⟩
  | step l below hnext ih =>
    have hbelow : tableOn p root a.pageNumber below =
        (tableOn p root a.pageNumber l).bind (behind p a.pageNumber l) := tableOn_next hnext
    rw [ht, Option.bind_some, behind, Entry.table?, ← Level.index_eq] at hbelow
    rw [translateBelow_next hnext]
    refine Runs.bind (child_does (hp t ⟨_, hn, _, ht⟩) (Level.isLeaf_of_next hnext) _) ?_
    rintro c p ⟨rfl, rfl⟩
    cases hc : (p.entryAt t (l.index a)).child with
    | table next =>
      rw [hc] at hbelow
      exact ih hbelow
    | none =>
      rw [hc] at hbelow
      exact Runs.pure ⟨(target_eq_none (leafOn_eq_empty_of_none hbelow)).symm, rfl⟩
    | malformed e =>
      rw [hc] at hbelow
      exact Runs.pure ⟨(target_eq_none (leafOn_eq_empty_of_none hbelow)).symm, rfl⟩

/-- Translating reads the leaf, wherever the tables lie in memory. -/
theorem translate_reads (hp : ∀ f, IsTable p root f → p.Has f) (a : VirtAddr) :
    Does back (Walk.translate root a) p fun r q => r = target p root a ∧ q = p :=
  translateBelow_does hp a rfl

theorem translate_does (hp : Tables.Formed p root) (a : VirtAddr) :
    Does back (Walk.translate root a) p fun r q => r = target p root a ∧ q = p :=
  translate_reads hp.within a

/-- What is answered when an address is translated. -/
def Walk.whereIs (root : PageFrame) (m : Machine) (a : VirtAddr) : Except Fault (Option PhysAddr) :=
  match Walk.translate root a m with
  | .ok answer _ => .ok answer
  | .error f _ => .error f

theorem Walk.whereIs_eq {m : Machine} (hp : Tables.Formed m.pool root) (a : VirtAddr) :
    Walk.whereIs root m a = .ok (target m.pool root a) := by
  have hdoes : Does m.backdrop (Walk.translate root a) m.pool _ := translate_does hp a
  obtain ⟨answer, m', hrun, -, rfl, -⟩ := hdoes.exists_ok (s := m) rfl rfl
  simp only [whereIs, hrun]

end

end PagedMemory
