import PagedMemory.Proofs.Bytes

/-!
# Stores, byte by byte

* `Pool.byteAt`, `Pool.withByte`: one byte of physical memory.
* `Pool.storeEach`: bytes that are stored one after the other, each at a place of its own.
* `Pool.storeEach_of_page`: for places side by side in one frame that comes to one store.
* `Pool.byteAt_storeEach_of_last`, `Pool.byteAt_storeEach_of_ne`: where several bytes go to one
  place, the last of them stays, and where none goes the old one does.
-/

namespace PagedMemory

open Layout

/-! ## One byte of memory -/

theorem PhysAddr.toNat_pageOffset (x : PhysAddr) : x.pageOffset.toNat = x.val.toNat % 4096 :=
  toNat_offsetInPage x.val

theorem PageFrame.toNat_base_containing (x : PhysAddr) :
    (PageFrame.containing x).base.val.toNat = x.val.toNat / 4096 * 4096 :=
  Word.toNat_alignDown toNat_pageSize_eq

/-- A byte is known by its frame and its place in it. -/
theorem PhysAddr.eq_iff {x y : PhysAddr} :
    x = y ↔ PageFrame.containing x = .containing y ∧ x.pageOffset.toNat = y.pageOffset.toNat := by
  refine ⟨fun h => h ▸ ⟨rfl, rfl⟩, fun ⟨hframe, hoffset⟩ => ?_⟩
  have hbase := congrArg (fun f : PageFrame => f.base.val.toNat) hframe
  simp only [PageFrame.toNat_base_containing] at hbase
  rw [toNat_pageOffset, toNat_pageOffset] at hoffset
  have hval : x.val = y.val := UInt64.toNat_inj.1 (by omega)
  exact congrArg PhysAddr.mk hval

namespace Pool

variable {p : Pool} {f : PageFrame} {place other : PhysAddr} {b : UInt8} {data : List UInt8} {x k : Nat}

/-- The byte of physical memory at `place`. -/
def byteAt (p : Pool) (place : PhysAddr) : UInt8 :=
  (p.page (.containing place)).byte place.pageOffset.toNat

/-- The memory after the byte at `place` was replaced. -/
def withByte (p : Pool) (place : PhysAddr) (b : UInt8) : Pool :=
  p.rewrite (.containing place) (·.storeByte place.pageOffset.toNat b)

theorem rewritten_withByte (p : Pool) (place : PhysAddr) (b : UInt8) :
    p.Rewritten (p.withByte place b) :=
  rewritten_rewrite p _ _

theorem Has.withByte (h : p.Has f) (place : PhysAddr) (b : UInt8) : (p.withByte place b).Has f :=
  h.congr (rewritten_withByte p place b).base (rewritten_withByte p place b).size

theorem byteAt_withByte (h : p.Has (.containing place)) :
    (p.withByte place b).byteAt other = if other = place then b else p.byteAt other := by
  obtain ⟨i, hi⟩ := h
  have hlt : other.pageOffset.toNat < 4096 := by
    rw [PhysAddr.toNat_pageOffset]
    exact Nat.mod_lt _ (by decide)
  have hlt' : place.pageOffset.toNat < 4096 := by
    rw [PhysAddr.toNat_pageOffset]
    exact Nat.mod_lt _ (by decide)
  rw [byteAt, withByte]
  by_cases hframe : PageFrame.containing other = .containing place
  · rw [hframe, page_rewrite_self hi, Page.byte_storeByte hlt hlt', byteAt, hframe]
    simp only [PhysAddr.eq_iff, hframe, true_and]
  · rw [page_rewrite_of_ne hframe, if_neg fun he => hframe (congrArg _ he)]
    rfl

/-- One store after another to the same frame. -/
theorem rewrite_rewrite (p : Pool) (f : PageFrame) (g h : Page → Page) :
    (p.rewrite f g).rewrite f h = p.rewrite f fun page => h (g page) := by
  rcases hf : p.number? f with _ | i
  · rw [rewrite, number?_rewrite, hf, rewrite, hf, rewrite, hf]
  · rw [rewrite_eq (number?_rewrite.trans hf), rewrite_eq hf, rewrite_eq hf, modifyContent,
      modifyContent, modifyContent]
    congr 1
    refine Array.ext (by simp) fun j _ _ => ?_
    simp only [Array.getElem_modify]
    split <;> rfl

theorem rewrite_id (p : Pool) (f : PageFrame) : (p.rewrite f fun page => page) = p := by
  rcases hf : p.number? f with _ | i
  · rw [rewrite, hf]
  · rw [rewrite_eq hf, modifyContent]
    congr 1
    refine Array.ext (by simp) fun j _ _ => ?_
    simp only [Array.getElem_modify]
    split <;> rfl

/-- The memory after the bytes were stored one after the other, each where its number leads, and
those from `y` on. A byte whose number leads nowhere is dropped. -/
def storeEach (place? : Nat → Option PhysAddr) : List UInt8 → Nat → Pool → Pool
  | [], _, p => p
  | b :: data, y, p =>
    storeEach place? data (y + 1) (match place? y with
      | some place => p.withByte place b
      | none => p)

section

variable {place? : Nat → Option PhysAddr} {more : List UInt8} {y : Nat}

theorem storeEach_append : storeEach place? (data ++ more) y p =
    storeEach place? more (y + data.length) (storeEach place? data y p) := by
  induction data generalizing y p with
  | nil => rfl
  | cons b data ih =>
    rw [List.cons_append, storeEach, storeEach, ih, List.length_cons, Nat.add_right_comm,
      Nat.add_assoc]

theorem storeEach_of_none (h : ∀ z, y ≤ z → z < y + data.length → place? z = none) :
    storeEach place? data y p = p := by
  induction data generalizing y with
  | nil => rfl
  | cons b data ih =>
    rw [List.length_cons] at h
    rw [storeEach, h y (Nat.le_refl y) (by omega)]
    exact ih fun z hlow hhigh => h z (by omega) (by omega)

/-- Bytes of one page, which is mapped to one frame, are stored there as a whole. -/
theorem storeEach_of_page (hf : f.Numbered)
    (h : ∀ z, y ≤ z → z < y + data.length → place? z = some (f.byteFor ⟨.ofNat z⟩))
    (hpage : y % 4096 + data.length ≤ 4096) (hword : y + data.length ≤ 2 ^ 64) :
    storeEach place? data y p = p.rewrite f fun page => page.storeBytes (y % 4096) data := by
  induction data generalizing y p with
  | nil => exact (rewrite_id p f).symm
  | cons b data ih =>
    rw [List.length_cons] at h hpage hword
    have hy : (UInt64.ofNat y).toNat = y := UInt64.toNat_ofNat_of_lt' (by
      have hsize : UInt64.size = 2 ^ 64 := rfl
      omega)
    have hstore : p.withByte (f.byteFor ⟨.ofNat y⟩) b =
        p.rewrite f fun page => page.storeByte (y % 4096) b := by
      rw [withByte, PageFrame.containing_byteFor hf, PageFrame.toNat_pageOffset_byteFor hf, hy]
    rw [storeEach, h y (Nat.le_refl y) (by omega)]
    dsimp only
    rw [hstore]
    rcases data with _ | ⟨c, data⟩
    · rfl
    · rw [List.length_cons] at h hpage hword
      have hnext : (y + 1) % 4096 = y % 4096 + 1 := by omega
      rw [ih (fun z hlow hhigh => h z (by omega) (by rw [List.length_cons] at hhigh; omega))
        (by rw [List.length_cons]; omega) (by rw [List.length_cons]; omega), rewrite_rewrite, hnext]
      rfl

/-- Nothing else is stored to. -/
theorem byteAt_storeEach_of_ne
    (hhas : ∀ z place, place? z = some place → p.Has (.containing place))
    (h : ∀ i < data.length, place? (y + i) ≠ some other) :
    (storeEach place? data y p).byteAt other = p.byteAt other := by
  induction data generalizing y p with
  | nil => rfl
  | cons b data ih =>
    have hrest : ∀ i < data.length, place? (y + 1 + i) ≠ some other := fun i hi => by
      rw [Nat.add_right_comm]
      exact h (i + 1) (Nat.succ_lt_succ hi)
    rw [storeEach]
    split
    next place hplace =>
      have hne : other ≠ place := by
        rintro rfl
        exact h 0 (Nat.succ_pos _) hplace
      rw [ih (fun z q hq => (hhas z q hq).withByte place b) hrest,
        byteAt_withByte (hhas y place hplace), if_neg hne]
    next => exact ih hhas hrest

/-- The last store to a byte counts. -/
theorem byteAt_storeEach_of_last
    (hhas : ∀ z place, place? z = some place → p.Has (.containing place)) {i : Nat}
    (hi : i < data.length) (hplace : place? (y + i) = some other)
    (hlast : ∀ j, i < j → j < data.length → place? (y + j) ≠ some other) :
    (storeEach place? data y p).byteAt other = data[i] := by
  induction data generalizing y p i with
  | nil => exact absurd hi (Nat.not_lt_zero i)
  | cons b data ih =>
    rw [storeEach]
    rcases i with _ | i
    · rw [Nat.add_zero] at hplace
      simp only [hplace]
      rw [byteAt_storeEach_of_ne (fun z q hq => (hhas z q hq).withByte other b), byteAt_withByte (hhas y other hplace), if_pos rfl]
      · rfl
      · intro j hj
        rw [Nat.add_right_comm]
        exact hlast (j + 1) (Nat.succ_pos j) (Nat.succ_lt_succ hj)
    · refine ih ?_ (Nat.lt_of_succ_lt_succ hi) ?_ ?_
      · intro z q hq
        split
        next place _ => exact (hhas z q hq).withByte place b
        next => exact hhas z q hq
      · rw [Nat.add_right_comm]
        exact hplace
      · intro j hij hj
        rw [Nat.add_right_comm]
        exact hlast (j + 1) (Nat.succ_lt_succ hij) (Nat.succ_lt_succ hj)

end

end Pool

end PagedMemory
