import Mathlib.Tactic
import PagedMemory.Proofs.Tree

/-!
# Ranges, page by page

* `Interval.Pages`: the range consists of consecutive pages of one block of `2 ^ 48` addresses.
* `Interval.Pages.cut`: the boundaries of a level cut such a range into such ranges, each behind
  one entry of the level.
* `Interval.Pages.foldPieces`: the rule for visits of all parts. What a visit makes of a statement
  about the next page, the whole makes of it.
-/

namespace PagedMemory

open Layout

/-- The address at which page `n` of the block of number `b` begins. -/
def VirtAddr.ofPage (b n : Nat) : VirtAddr := ⟨UInt64.ofNat (b * 2 ^ 48 + n * 4096)⟩

/-- The range consists of the pages from number `i` up to, but not including, number `j` of the
block of number `b`. -/
structure Interval.Pages (r : Interval) (b i j : Nat) : Prop where
  start : r.start.val.toNat = b * 2 ^ 48 + i * 4096
  stop : r.stop.val.toNat = b * 2 ^ 48 + j * 4096
  le : i ≤ j
  top : j ≤ 512 ^ 4

namespace Level

variable {l : Level} {a : VirtAddr}

theorem toNat_span (l : Level) : l.span.toNat = 2 ^ (12 + 9 * l.height) := by
  cases l <;> rfl

theorem toNat_shift (l : Level) : l.shift.toNat = 12 + 9 * l.height := by
  cases l <;> rfl

theorem toNat_shiftRight (x : UInt64) (l : Level) :
    (x >>> l.shift).toNat = x.toNat / 2 ^ (12 + 9 * l.height) := by
  rw [UInt64.toNat_shiftRight, Nat.shiftRight_eq_div_pow, toNat_shift]
  cases l <;> rfl

/-- The next boundary, unless it lies beyond the address space. -/
theorem nextBoundary?_eq_some_iff {x : VirtAddr} :
    l.nextBoundary? a = some x ↔
      x.val.toNat = a.val.toNat / 2 ^ (12 + 9 * l.height) * 2 ^ (12 + 9 * l.height) +
        2 ^ (12 + 9 * l.height) := by
  have hdown := Word.toNat_alignDown (x := a.val) (toNat_span l)
  have hspan := toNat_span l
  rw [nextBoundary?, VirtAddr.add?, Option.map_eq_some_iff]
  constructor
  · rintro ⟨y, hy, rfl⟩
    rw [Word.toNat_of_add?_eq_some hy, hdown, hspan]
  · intro hx
    have hlt := x.val.toNat_lt
    have hsum : Word.add? (Word.alignDown a.val l.span) l.span =
        some (Word.alignDown a.val l.span + l.span) :=
      Word.add?_eq_some_iff.2 ⟨by rw [hdown, hspan]; omega, rfl⟩
    refine ⟨_, hsum, ?_⟩
    have hval : Word.alignDown a.val l.span + l.span = x.val := by
      apply UInt64.toNat_inj.1
      rw [Word.toNat_of_add?_eq_some hsum, hdown, hspan, hx]
    rw [hval]

end Level

namespace Interval

variable {r : Interval} {b i j : Nat}

/-- The first part ends at the boundary or with the range, whatever comes first. -/
theorem toNat_firstStop (r : Interval) (l : Level) :
    (r.firstStop l).val.toNat =
      min (r.start.val.toNat / 2 ^ (12 + 9 * l.height) * 2 ^ (12 + 9 * l.height) +
        2 ^ (12 + 9 * l.height)) r.stop.val.toNat := by
  rw [firstStop]
  cases hnext : l.nextBoundary? r.start with
  | some x =>
    have hx := Level.nextBoundary?_eq_some_iff.1 hnext
    simp only [UInt64.lt_iff_toNat_lt]
    split <;> omega
  | none =>
    -- a boundary within the address space would have been found
    have hbeyond : 2 ^ 64 ≤ r.start.val.toNat / 2 ^ (12 + 9 * l.height) *
        2 ^ (12 + 9 * l.height) + 2 ^ (12 + 9 * l.height) := by
      by_contra hlt
      have hx : (⟨UInt64.ofNat _⟩ : VirtAddr).val.toNat = _ :=
        UInt64.toNat_ofNat_of_lt' (Nat.not_le.1 hlt)
      rw [Level.nextBoundary?_eq_some_iff.2 hx] at hnext
      cases hnext
    have hstop := r.stop.val.toNat_lt
    rw [Nat.min_eq_right (by omega)]

/-- The number of parts, told in numbers without bound. -/
theorem pieceCount_eq_div (r : Interval) (l : Level) :
    r.pieceCount l = if r.start.val.toNat < r.stop.val.toNat then
      (r.stop.val.toNat - 1) / 2 ^ (12 + 9 * l.height) -
        r.start.val.toNat / 2 ^ (12 + 9 * l.height) + 1 else 0 := by
  rw [pieceCount]
  simp only [UInt64.lt_iff_toNat_lt]
  split
  next hlt =>
    have hlast : (r.stop.val - 1).toNat = r.stop.val.toNat - 1 :=
      UInt64.toNat_sub_of_le _ _ (UInt64.le_iff_toNat_le.2 (Nat.lt_of_le_of_lt (Nat.zero_le _) hlt))
    have hle : r.start.val >>> l.shift ≤ (r.stop.val - 1) >>> l.shift := by
      rw [UInt64.le_iff_toNat_le, Level.toNat_shiftRight, Level.toNat_shiftRight, hlast]
      exact Nat.div_le_div_right (by omega)
    rw [UInt64.toNat_sub_of_le _ _ hle, Level.toNat_shiftRight, Level.toNat_shiftRight, hlast]
  next => rfl

namespace Pages

theorem aligned (h : r.Pages b i j) : r.isAligned = true := by
  have hstart := h.start
  have hstop := h.stop
  rw [isAligned, Bool.and_eq_true, VirtAddr.isAligned_iff, VirtAddr.isAligned_iff]
  omega

theorem start_eq (h : r.Pages b i j) : r.start = .ofPage b i := by
  rw [VirtAddr.ofPage, ← h.start, UInt64.ofNat_toNat]

/-- The number of the first page. -/
theorem pageNumber (h : r.Pages b i j) (hij : i < j) : r.start.pageNumber = i := by
  have hstart := h.start
  have htop := h.top
  rw [VirtAddr.pageNumber]
  omega

/-- The first cut, counted in pages. -/
theorem toNat_firstStop (h : r.Pages b i j) (l : Level) :
    (r.firstStop l).val.toNat =
      b * 2 ^ 48 + min ((l.cell i + 1) * 512 ^ l.height) j * 4096 := by
  have hboundary : r.start.val.toNat / 2 ^ (12 + 9 * l.height) * 2 ^ (12 + 9 * l.height) +
      2 ^ (12 + 9 * l.height) = b * 2 ^ 48 + (l.cell i + 1) * 512 ^ l.height * 4096 := by
    rw [h.start]
    cases l <;> simp only [Level.cell, Level.height] <;> omega
  rw [Interval.toNat_firstStop, hboundary, h.stop]
  omega

/-- Cutting at the first boundary gives two ranges of pages, the first behind one entry. -/
theorem cut (h : r.Pages b i j) (hij : i < j) (l : Level) :
    ∃ c, i < c ∧ l.cell (c - 1) = l.cell i ∧ (c < j → l.cell c = l.cell i + 1) ∧
      Pages ⟨r.start, r.firstStop l⟩ b i c ∧ Pages ⟨r.firstStop l, r.stop⟩ b c j := by
  have htop := h.top
  have hcut := h.toNat_firstStop l
  have hlow : i < (l.cell i + 1) * 512 ^ l.height := by
    cases l <;> simp only [Level.cell, Level.height] <;> omega
  have hlast : l.cell (min ((l.cell i + 1) * 512 ^ l.height) j - 1) = l.cell i := by
    cases l <;> simp only [Level.cell, Level.height] at hlow ⊢ <;> omega
  have hnext : min ((l.cell i + 1) * 512 ^ l.height) j < j →
      l.cell (min ((l.cell i + 1) * 512 ^ l.height) j) = l.cell i + 1 := by
    cases l <;> simp only [Level.cell, Level.height] <;> omega
  have hic := lt_min hlow hij
  have hcj := min_le_right ((l.cell i + 1) * 512 ^ l.height) j
  exact ⟨_, hic, hlast, hnext, ⟨h.start, hcut, hic.le, hcj.trans htop⟩, ⟨hcut, h.stop, hcj, htop⟩⟩

/-- One part for each entry, from that of the first page to that of the last. -/
theorem pieceCount_eq (h : r.Pages b i j) (l : Level) :
    r.pieceCount l = if i < j then l.cell (j - 1) - l.cell i + 1 else 0 := by
  have hstart := h.start
  have hstop := h.stop
  have htop := h.top
  rw [pieceCount_eq_div]
  by_cases hij : i < j
  · rw [if_pos hij, if_pos (by omega), hstart, hstop]
    cases l <;> simp only [Level.cell, Level.height] <;> omega
  · rw [if_neg hij, if_neg (by omega)]

end Pages

section

variable {ε σ κ τ : Type} {v : View σ κ τ} {ground : κ} {l : Level}
  {visit : Interval → EStateM ε σ Nat} {P : Nat → Nat → τ → Prop} {E : ε → τ → Prop}

/-- The statement that a visit has to carry from the first page of a part to the page behind it:
`P k sum t` says that page `k` is next in state `t`, after answers that add up to `sum`. -/
def Carries (v : View σ κ τ) (ground : κ) (l : Level) (b i j : Nat)
    (visit : Interval → EStateM ε σ Nat) (P : Nat → Nat → τ → Prop) (E : ε → τ → Prop) : Prop :=
  ∀ k c sum t part, i ≤ k → k < c → c ≤ j → l.cell (c - 1) = l.cell k → part.Pages b k c →
    P k sum t → Runs v ground (visit part) t (fun n u => P c (sum + n) u) E

theorem Pages.foldUpTo (hvisit : Carries v ground l b i j visit P E) (n : Nat) :
    ∀ {k sum : Nat} {t : τ} {start stop : VirtAddr}, i ≤ k → Pages ⟨start, stop⟩ b k j →
      n = (if k < j then l.cell (j - 1) - l.cell k + 1 else 0) → P k sum t →
      Runs v ground (foldUpTo l stop visit n start sum) t (fun total u => P j total u) E := by
  induction n with
  | zero =>
    intro k sum t start stop _ hpages hn hP
    split at hn
    next => cases hn
    next hkj =>
      obtain rfl : k = j := Nat.le_antisymm hpages.le (Nat.not_lt.1 hkj)
      exact Runs.pure hP
  | succ n ih =>
    intro k sum t start stop hik hpages hn hP
    split at hn
    next hkj =>
      -- the first part ends before page `c`, and the count of parts is right for what is behind
      obtain ⟨c, hkc, hcell, hnext, hfirst, hrest⟩ := hpages.cut hkj l
      refine Runs.bind (hvisit k c sum t _ hik hkc hrest.le hcell hfirst hP) ?_
      intro m u hu
      refine ih (Nat.le_trans hik (Nat.le_of_lt hkc)) hrest ?_ hu
      split
      next hcj =>
        have hmono : l.cell c ≤ l.cell (j - 1) := Nat.div_le_div_right (by omega)
        rw [hnext hcj] at hmono ⊢
        omega
      next hcj =>
        obtain rfl : c = j := Nat.le_antisymm hrest.le (Nat.not_lt.1 hcj)
        rw [hcell] at hn
        omega
    next => cases hn

/-- Visits of all parts carry a statement from the first page to the page behind the last. -/
theorem Pages.foldPieces (h : r.Pages b i j) (hvisit : Carries v ground l b i j visit P E) {t : τ}
    (hP : P i 0 t) : Runs v ground (r.foldPieces l visit) t (fun total u => P j total u) E :=
  Pages.foldUpTo hvisit _ (Nat.le_refl i) h (h.pieceCount_eq l) hP

end

end Interval

end PagedMemory
