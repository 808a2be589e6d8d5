import Mathlib.Tactic
import PagedMemory.Proofs.Tree

/-!
# A census of tables

All tables of a tree, found by following every entry of every table that leads to one.

* `Tables.below`: the tables from one table down. `Tables.all`: those from the root down. A table is
  listed once for every way to it.
* `Tables.mem_all_iff`: the census finds what `Tables.IsTable` speaks of.
* `Tables.Sound.nodup_all`: in a sound tree there is one way to each table, so that one entry leads
  to it, and none to the root.
-/

namespace PagedMemory

/-! ## Levels above each other -/

namespace Level

variable {l l' below : Level} {n k : Nat}

/-- Pages behind one table are behind one table of each level above. -/
theorem group_mono (hle : l'.height ≤ l.height) (h : l'.group n = l'.group k) :
    l.group n = l.group k := by
  cases l <;> cases l' <;> simp only [group, cell, height] at h hle ⊢ <;> omega

/-- The first page behind entry `i` of the table on the way to page `n`. -/
def pageBehind (l : Level) (n : Nat) (i : TableIndex) : Nat :=
  (l.group n * 512 + i.val) * 512 ^ l.height

theorem cell_pageBehind (l : Level) (n : Nat) (i : TableIndex) :
    l.cell (l.pageBehind n i) = l.group n * 512 + i.val := by
  rw [cell, pageBehind]
  exact Nat.mul_div_cancel _ (Nat.pow_pos (by decide))

@[simp] theorem group_pageBehind (l : Level) (n : Nat) (i : TableIndex) :
    l.group (l.pageBehind n i) = l.group n := by
  have hi : i.val < 512 := i.isLt
  rw [group, cell_pageBehind]
  omega

@[simp] theorem slot_pageBehind (l : Level) (n : Nat) (i : TableIndex) :
    l.slot (l.pageBehind n i) = i := by
  have hi : i.val < 512 := i.isLt
  apply Fin.ext
  change l.cell _ % 512 = i.val
  rw [cell_pageBehind]
  omega

theorem pageBehind_lt (l : Level) (hn : n < 512 ^ 4) (i : TableIndex) :
    l.pageBehind n i < 512 ^ 4 := by
  have hi : i.val < 512 := i.isLt
  cases l <;> simp only [pageBehind, group, cell, height] <;> omega

end Level

/-! ## The census -/

namespace Tables

variable {p : Pool} {root f t : PageFrame} {l l' next : Level} {n k : Nat}

/-- The tables from a table of the given level down, upper ones first. -/
def below (p : Pool) : Level → PageFrame → List PageFrame :=
  Level.descend (fun t => [t]) fun _ lower t =>
    t :: (List.finRange 512).flatMap fun i => (p.entryAt t i).table?.elim [] lower

/-- The tables of the tree. -/
def all (p : Pool) (root : PageFrame) : List PageFrame := below p .pml4 root

theorem below_next (h : l.next? = some next) (t : PageFrame) :
    below p l t =
      t :: (List.finRange 512).flatMap fun i => (p.entryAt t i).table?.elim [] (below p next) := by
  unfold below
  rw [Level.descend_next h]

/-- A table below a table is the table behind one of its entries, or lies below that one. -/
theorem mem_below_next (h : l.next? = some next) :
    f ∈ below p l t ↔
      f = t ∨ ∃ i s, (p.entryAt t i).table? = some s ∧ f ∈ below p next s := by
  rw [below_next h, List.mem_cons, List.mem_flatMap]
  refine or_congr Iff.rfl (exists_congr fun i => ?_)
  cases (p.entryAt t i).table? with
  | none => simp
  | some s => simp

/-- The table behind entry `i` of a table is on the way to the pages behind that entry. -/
theorem tableOn_pageBehind (ht : tableOn p root n l = some t) (h : l.next? = some next)
    (i : TableIndex) : tableOn p root (l.pageBehind n i) next = (p.entryAt t i).table? := by
  rw [tableOn_next h, tableOn_congr (l.group_pageBehind n i), ht, Option.bind_some, behind,
    Level.slot_pageBehind]

/-- A way that leads to a lower level goes through a table of each level above. -/
theorem exists_tableOn (hle : l'.height ≤ l.height) (hf : tableOn p root n l' = some f) :
    ∃ t, tableOn p root n l = some t := by
  induction l using Level.bottomUp with
  | bottom =>
    obtain rfl : l' = .pt := Level.height_inj (Nat.le_zero.1 hle)
    exact ⟨f, hf⟩
  | step l next hnext ih =>
    rcases Nat.lt_or_ge next.height l'.height with hlt | hge
    · obtain rfl : l' = l := Level.height_inj (by have := Level.height_next hnext; omega)
      exact ⟨f, hf⟩
    · obtain ⟨s, hs⟩ := ih hge
      rw [tableOn_next hnext] at hs
      obtain ⟨t, ht, -⟩ := Option.bind_eq_some_iff.1 hs
      exact ⟨t, ht⟩

/-- The tables below a table are those on the ways that go through it. -/
theorem mem_below_iff (hn : n < 512 ^ 4) (ht : tableOn p root n l = some t) :
    f ∈ below p l t ↔ ∃ k < 512 ^ 4, ∃ l', l'.height ≤ l.height ∧ l.group k = l.group n ∧
      tableOn p root k l' = some f := by
  induction l using Level.bottomUp generalizing n t with
  | bottom =>
    have hlist : below p .pt t = [t] := rfl
    rw [hlist, List.mem_singleton]
    constructor
    · rintro rfl
      exact ⟨n, hn, .pt, Nat.le_refl _, rfl, ht⟩
    · rintro ⟨k, hk, l', hle, hgroup, hf⟩
      obtain rfl : l' = .pt := Level.height_inj (Nat.le_zero.1 hle)
      rw [tableOn_congr hgroup, ht] at hf
      exact (Option.some.inj hf).symm
  | step l next hnext ih =>
    have hheight := Level.height_next hnext
    rw [mem_below_next hnext]
    constructor
    · rintro (rfl | ⟨i, s, hs, hf⟩)
      · exact ⟨n, hn, l, Nat.le_refl _, rfl, ht⟩
      · rw [← tableOn_pageBehind ht hnext] at hs
        obtain ⟨k, hk, l', hle, hgroup, hf⟩ := (ih (l.pageBehind_lt hn i) hs).1 hf
        have hgroup' := Level.group_mono (l := l) (by omega) hgroup
        exact ⟨k, hk, l', by omega, hgroup'.trans (l.group_pageBehind n i), hf⟩
    · rintro ⟨k, hk, l', hle, hgroup, hf⟩
      -- the way to page `k` either ends at `t` or goes on through its entry in `t`
      have htk : tableOn p root k l = some t := (tableOn_congr hgroup).trans ht
      rcases Nat.lt_or_ge next.height l'.height with hlt | hge
      · obtain rfl : l' = l := Level.height_inj (by omega)
        exact Or.inl (Option.some.inj (hf.symm.trans htk))
      · obtain ⟨s, hs⟩ := exists_tableOn hge hf
        have hentry : (p.entryAt t (l.slot k)).table? = some s := by
          rw [tableOn_next hnext, htk] at hs
          exact hs
        exact Or.inr ⟨l.slot k, s, hentry, (ih hk hs).2 ⟨k, hk, l', hge, rfl, hf⟩⟩

/-- The census lists the tables of the tree. -/
theorem mem_all_iff : f ∈ all p root ↔ IsTable p root f := by
  rw [all, mem_below_iff (n := 0) (by decide) rfl]
  constructor
  · rintro ⟨k, hk, l, -, -, hf⟩
    exact ⟨k, hk, l, hf⟩
  · rintro ⟨k, hk, l, hf⟩
    refine ⟨k, hk, l, by cases l <;> decide, ?_, hf⟩
    rw [Level.group_pml4 hk, Level.group_pml4 (by decide)]

/-- Different entries lead to different tables, and none leads back. -/
theorem Sound.nodup_below (hp : Sound p root) (hn : n < 512 ^ 4)
    (ht : tableOn p root n l = some t) : (below p l t).Nodup := by
  induction l using Level.bottomUp generalizing n t with
  | bottom => exact List.nodup_singleton t
  | step l next hnext ih =>
    have hheight := Level.height_next hnext
    -- where a table lies that some entry of `t` leads to
    have hplace : ∀ i f, f ∈ (p.entryAt t i).table?.elim [] (below p next) →
        ∃ k < 512 ^ 4, ∃ l', l'.height ≤ next.height ∧
          next.group k = next.group (l.pageBehind n i) ∧ tableOn p root k l' = some f := by
      intro i f hf
      have hs := tableOn_pageBehind ht hnext i
      cases he : (p.entryAt t i).table? with
      | none => simp [he] at hf
      | some s =>
        rw [he] at hs hf
        exact (mem_below_iff (l.pageBehind_lt hn i) hs).1 hf
    rw [below_next hnext, List.nodup_cons]
    refine ⟨fun hmem => ?_, List.nodup_flatMap.2 ⟨fun i _ => ?_, ?_⟩⟩
    · obtain ⟨i, -, hf⟩ := List.mem_flatMap.1 hmem
      obtain ⟨k, hk, l', hle, -, hf⟩ := hplace i t hf
      obtain ⟨rfl, -⟩ := hp.apart n hn k hk l l' t ht hf
      omega
    · have hs := tableOn_pageBehind ht hnext i
      cases he : (p.entryAt t i).table? with
      | none => exact List.nodup_nil
      | some s => exact ih (l.pageBehind_lt hn i) (hs.trans he)
    · -- a table that two entries lead to has one place, which is behind one of them
      refine (List.nodup_finRange 512).pairwise_of_forall_ne ?_
      rintro i - j - hij
      refine List.disjoint_left.2 fun f hf hf' => hij ?_
      obtain ⟨k, hk, l', hle, hgroup, hf⟩ := hplace i f hf
      obtain ⟨k', hk', l'', -, hgroup', hf'⟩ := hplace j f hf'
      obtain ⟨rfl, hsame⟩ := hp.apart k hk k' hk' l' l'' f hf hf'
      have hnext' : next.group (l.pageBehind n i) = next.group (l.pageBehind n j) := by
        rw [← hgroup, ← hgroup', Level.group_mono hle hsame]
      rw [Level.group_next hnext, Level.group_next hnext] at hnext'
      have hslot := (Level.cell_eq_iff.1 hnext').2
      rwa [Level.slot_pageBehind, Level.slot_pageBehind] at hslot

/-- No table is listed twice. -/
theorem Sound.nodup_all (hp : Sound p root) : (all p root).Nodup :=
  hp.nodup_below (n := 0) (by decide) rfl

end Tables

end PagedMemory
