import Mathlib.Tactic
import PagedMemory.Registry

/-!
# Rounding

Rounding by masks is rounding in the natural numbers, and the sizes that areas are given. A page
has 4096 bytes; numbers that linear arithmetic has to see are written out.

* `Word.add?_eq_some_iff`, `Word.sub?_eq_some_iff`: sums and differences in the range of words.
* `Word.toNat_alignDown`, `Word.alignUp?_eq_some_iff`: masks of powers of two give the
  neighbouring multiples, and rounding up fails exactly if its multiple is out of range.
* `Registry.roundUp_dvd`, `Registry.le_roundUp`, `Registry.roundUp_le`: the least multiple from a
  number on.
* `AreaKind.alignment_eq_two_pow`: every kind of area is aligned to a power of two that a page
  divides.
-/

namespace PagedMemory

open Layout

theorem toNat_pageSize : pageSize.toNat = 4096 := rfl

/-! ## Multiples in the natural numbers -/

namespace Registry

/-- The least multiple of `a` from `x` on. -/
def roundUp (x a : Nat) : Nat := (x + (a - 1)) / a * a

/-- The room that an area for `size` bytes takes, as an unbounded number: whole pages, and a guard
page. -/
def paddedSize (size : UInt64) : Nat := roundUp size.toNat pageSize.toNat + pageSize.toNat

theorem roundUp_dvd (x a : Nat) : a ∣ roundUp x a := Nat.dvd_mul_left _ _

theorem le_roundUp (x : Nat) {a : Nat} (ha : 0 < a) : x ≤ roundUp x a := by
  have hlt := Nat.lt_div_mul_add (a := x + (a - 1)) ha
  rw [roundUp]
  omega

theorem roundUp_lt (x : Nat) {a : Nat} (ha : 0 < a) : roundUp x a < x + a := by
  have hle := Nat.div_mul_le_self (x + (a - 1)) a
  rw [roundUp]
  omega

/-- No multiple from `x` on is smaller. -/
theorem roundUp_le {x a m : Nat} (hm : a ∣ m) (hx : x ≤ m) : roundUp x a ≤ m := by
  rcases Nat.eq_zero_or_pos a with rfl | ha
  · rw [roundUp, Nat.mul_zero]
    exact Nat.zero_le m
  · have hlt := roundUp_lt x ha
    exact Nat.le_of_not_lt fun hmr => by
      have hstep := Nat.le_of_dvd (Nat.sub_pos_of_lt hmr) (Nat.dvd_sub (roundUp_dvd x a) hm)
      omega

theorem roundUp_of_dvd {x a : Nat} (ha : 0 < a) (hx : a ∣ x) : roundUp x a = x :=
  Nat.le_antisymm (roundUp_le hx (Nat.le_refl x)) (le_roundUp x ha)

end Registry

/-! ## Sums, differences and multiples in words -/

namespace Word

/-- A sum wraps exactly if it is too large. -/
theorem add_lt_self_iff {x y : UInt64} : x + y < x ↔ 2 ^ 64 ≤ x.toNat + y.toNat := by
  have hx := x.toNat_lt
  have hy := y.toNat_lt
  rw [UInt64.lt_iff_toNat_lt, UInt64.toNat_add]
  omega

theorem add?_eq_some_iff {x y z : UInt64} :
    add? x y = some z ↔ x.toNat + y.toNat < 2 ^ 64 ∧ z = x + y := by
  rw [add?]
  by_cases h : x + y < x
  · have hbig := add_lt_self_iff.1 h
    rw [if_pos h]
    exact ⟨fun e => (nomatch e), fun e => absurd e.1 (Nat.not_lt.2 hbig)⟩
  · have hfit := Nat.not_le.1 fun hbig => h (add_lt_self_iff.2 hbig)
    rw [if_neg h]
    exact ⟨fun e => ⟨hfit, (Option.some.inj e).symm⟩, fun e => congrArg some e.2.symm⟩

theorem sub?_eq_some_iff {x y z : UInt64} :
    sub? x y = some z ↔ y.toNat ≤ x.toNat ∧ z = x - y := by
  rw [sub?]
  by_cases h : y ≤ x
  · rw [if_pos h]
    exact ⟨fun e => ⟨h, (Option.some.inj e).symm⟩, fun e => congrArg some e.2.symm⟩
  · rw [if_neg h]
    exact ⟨fun e => (nomatch e), fun e => absurd e.1 h⟩

variable {x a y : UInt64} {k : Nat}

/-- A power of two that is a word has its exponent below 64. -/
theorem exponent_lt (h : a.toNat = 2 ^ k) : k < 64 := by
  have ha := a.toNat_lt
  rw [h] at ha
  exact (Nat.pow_lt_pow_iff_right (by decide)).1 ha

theorem toNat_sub_one (h : a.toNat = 2 ^ k) : (a - 1).toNat = 2 ^ k - 1 := by
  rw [UInt64.toNat_sub_of_le _ _ (UInt64.le_iff_toNat_le.2 (h ▸ Nat.two_pow_pos k)), h]
  rfl

/-- Bit by bit: the mask keeps what lies at or above bit `k`. -/
theorem toNat_alignDown (h : a.toNat = 2 ^ k) :
    (alignDown x a).toNat = x.toNat / 2 ^ k * 2 ^ k := by
  have hpos : 0 < 2 ^ k := Nat.two_pow_pos k
  have hle : 2 ^ k ≤ 2 ^ 64 := h ▸ Nat.le_of_lt a.toNat_lt
  have hmask : UInt64.size - 1 - (2 ^ k - 1) = 2 ^ 64 - (2 ^ k - 1 + 1) := by
    have hsize : UInt64.size = 2 ^ 64 := rfl
    omega
  apply Nat.eq_of_testBit_eq
  intro i
  rw [alignDown, UInt64.toNat_and, UInt64.toNat_not, toNat_sub_one h, hmask, Nat.testBit_and,
    Nat.testBit_two_pow_sub_succ (by omega), Nat.testBit_two_pow_sub_one,
    Nat.testBit_mul_two_pow, Nat.testBit_div_two_pow]
  rcases Nat.lt_or_ge i k with hi | hi
  · simp [hi, Nat.not_le.2 hi]
  · rw [Nat.sub_add_cancel hi]
    rcases Nat.lt_or_ge i 64 with h64 | h64
    · simp [hi, h64]
    · have hbit : x.toNat.testBit i = false :=
        Nat.testBit_lt_two_pow (Nat.lt_of_lt_of_le x.toNat_lt (Nat.pow_le_pow_right (by decide) h64))
      simp [hbit]

theorem toNat_of_add?_eq_some (h : add? x y = some a) : a.toNat = x.toNat + y.toNat := by
  obtain ⟨hfit, rfl⟩ := add?_eq_some_iff.1 h
  rw [UInt64.toNat_add, Nat.mod_eq_of_lt hfit]

/-- A sum that is a word. -/
theorem add_eq_ok (h : x.toNat + y.toNat < 2 ^ 64) :
    ∃ z, add x y = .ok z ∧ z.toNat = x.toNat + y.toNat := by
  have hsum := add?_eq_some_iff.2 ⟨h, rfl⟩
  refine ⟨x + y, ?_, toNat_of_add?_eq_some hsum⟩
  rw [add, hsum]
  rfl

/-- A difference that is not negative. -/
theorem sub_eq_ok (h : y.toNat ≤ x.toNat) :
    ∃ z, sub x y = .ok z ∧ z.toNat = x.toNat - y.toNat := by
  have hdiff := sub?_eq_some_iff.2 ⟨h, rfl⟩
  refine ⟨x - y, ?_, UInt64.toNat_sub_of_le _ _ (UInt64.le_iff_toNat_le.2 h)⟩
  rw [sub, hdiff]
  rfl

/-- A product that is a word. -/
theorem mul_eq_ok (h : x.toNat * y.toNat < 2 ^ 64) :
    ∃ z, mul x y = .ok z ∧ z.toNat = x.toNat * y.toNat := by
  have hproduct : mul? x y = some (x * y) := if_pos h
  refine ⟨x * y, ?_, by rw [UInt64.toNat_mul, Nat.mod_eq_of_lt h]⟩
  rw [mul, hproduct]
  rfl

/-- A sum that passed the check. -/
theorem toNat_of_add_eq_ok {z : UInt64} (h : add x y = .ok z) : z.toNat = x.toNat + y.toNat := by
  rw [add] at h
  cases hsum : add? x y with
  | none =>
    rw [hsum] at h
    cases h
  | some w =>
    rw [hsum] at h
    obtain rfl := Except.ok.inj h
    exact toNat_of_add?_eq_some hsum

/-- A product that passed the check. -/
theorem toNat_of_mul_eq_ok {z : UInt64} (h : mul x y = .ok z) : z.toNat = x.toNat * y.toNat := by
  rw [mul, mul?] at h
  split at h
  next hfits =>
    obtain rfl := Except.ok.inj h
    rw [UInt64.toNat_mul]
    exact Nat.mod_eq_of_lt hfits
  next => cases h

/-- Rounding up finds the least multiple, and fails exactly if that is no word. -/
theorem alignUp?_eq_some_iff (h : a.toNat = 2 ^ k) :
    alignUp? x a = some y ↔ y.toNat = Registry.roundUp x.toNat (2 ^ k) := by
  have hpos : 0 < 2 ^ k := Nat.two_pow_pos k
  have hround : ∀ s : UInt64, s.toNat = x.toNat + (2 ^ k - 1) →
      (alignDown s a).toNat = Registry.roundUp x.toNat (2 ^ k) := by
    intro s hs
    rw [toNat_alignDown h, hs, Registry.roundUp]
  constructor
  · intro he
    obtain ⟨s, hs, rfl⟩ := Option.map_eq_some_iff.1 he
    refine hround s ?_
    rw [toNat_of_add?_eq_some hs, toNat_sub_one h]
  · intro hy
    -- the multiple is a word, so the sum that is rounded down to it is one as well
    have hfit : x.toNat + (a - 1).toNat < 2 ^ 64 := by
      have hy64 := y.toNat_lt
      have hdvd : 2 ^ k ∣ 2 ^ 64 := Nat.pow_dvd_pow 2 (Nat.le_of_lt (exponent_lt h))
      have hlt := Nat.lt_div_mul_add (a := x.toNat + (2 ^ k - 1)) hpos
      rw [hy, Registry.roundUp] at hy64
      have hnext : (x.toNat + (2 ^ k - 1)) / 2 ^ k * 2 ^ k + 2 ^ k ≤ 2 ^ 64 := by
        have hstep := Nat.le_of_dvd (Nat.sub_pos_of_lt hy64)
          (Nat.dvd_sub hdvd (Nat.dvd_mul_left (2 ^ k) _))
        omega
      rw [toNat_sub_one h]
      omega
    have hs : add? x (a - 1) = some (x + (a - 1)) := add?_eq_some_iff.2 ⟨hfit, rfl⟩
    rw [alignUp?, hs, Option.map_some]
    congr 1
    apply UInt64.toNat_inj.1
    rw [hy, hround _ (by rw [toNat_of_add?_eq_some hs, toNat_sub_one h])]

end Word

/-! ## Pages -/

theorem toNat_pageSize_eq : pageSize.toNat = 2 ^ 12 := rfl

theorem toNat_offsetInPage (x : UInt64) : (offsetInPage x).toNat = x.toNat % 4096 := by
  rw [offsetInPage, UInt64.toNat_and]
  exact Nat.and_two_pow_sub_one_eq_mod x.toNat 12

theorem offsetInPage_eq_zero_iff {x : UInt64} : offsetInPage x = 0 ↔ 4096 ∣ x.toNat := by
  rw [← UInt64.toNat_inj, toNat_offsetInPage]
  exact (Nat.dvd_iff_mod_eq_zero).symm

theorem VirtAddr.isAligned_iff {a : VirtAddr} : a.isAligned = true ↔ 4096 ∣ a.val.toNat := by
  rw [isAligned, beq_iff_eq]
  exact offsetInPage_eq_zero_iff

theorem VirtAddr.toNat_pageBase (a : VirtAddr) :
    a.pageBase.val.toNat = a.val.toNat / 4096 * 4096 :=
  Word.toNat_alignDown toNat_pageSize_eq

theorem PageFrame.dvd_base (f : PageFrame) : 4096 ∣ f.base.val.toNat :=
  offsetInPage_eq_zero_iff.1 f.aligned

/-! ## Areas -/

theorem Word.toNat_one_shiftLeft {e : Nat} (he : e < 64) :
    ((1 : UInt64) <<< UInt64.ofNat e).toNat = 2 ^ e := by
  have hword : e < UInt64.size := Nat.lt_trans he (by decide)
  have hpow : 2 ^ e < 2 ^ 64 := Nat.pow_lt_pow_right (by decide) he
  rw [UInt64.toNat_shiftLeft, UInt64.toNat_ofNat_of_lt' hword, Nat.mod_eq_of_lt he,
    UInt64.toNat_one, Nat.shiftLeft_eq, Nat.one_mul, Nat.mod_eq_of_lt hpow]

/-- Areas are aligned to a power of two from a page on. -/
theorem AreaKind.alignment_eq_two_pow (kind : AreaKind) (size : UInt64) :
    ∃ k, 12 ≤ k ∧ (kind.alignment size).toNat = 2 ^ k := by
  cases kind with
  | device =>
    have hle : max pageShift.toNat (min (Word.fls size) deviceMaxOrder) ≤ 19 :=
      Nat.max_le.2 ⟨by decide, Nat.min_le_right _ _⟩
    exact ⟨_, Nat.le_max_left _ _, Word.toNat_one_shiftLeft (Nat.lt_of_le_of_lt hle (by decide))⟩
  | allocated => exact ⟨12, Nat.le_refl 12, rfl⟩
  | borrowed => exact ⟨12, Nat.le_refl 12, rfl⟩

theorem AreaKind.page_dvd_alignment (kind : AreaKind) (size : UInt64) :
    4096 ∣ (kind.alignment size).toNat := by
  obtain ⟨k, hk, he⟩ := kind.alignment_eq_two_pow size
  rw [he]
  exact Nat.pow_dvd_pow 2 hk

theorem AreaKind.alignment_pos (kind : AreaKind) (size : UInt64) :
    0 < (kind.alignment size).toNat := by
  obtain ⟨k, -, he⟩ := kind.alignment_eq_two_pow size
  rw [he]
  exact Nat.two_pow_pos k

theorem Registry.paddedSize_dvd (size : UInt64) : 4096 ∣ paddedSize size :=
  Nat.dvd_add (roundUp_dvd _ _) (Nat.dvd_refl _)

/-- A room that is found is the padded size. -/
theorem Registry.toNat_of_room?_eq_some {size room : UInt64} (h : room? size = some room) :
    room.toNat = paddedSize size := by
  obtain ⟨pages, hpages, hsum⟩ := Option.bind_eq_some_iff.1 h
  rw [Word.toNat_of_add?_eq_some hsum, (Word.alignUp?_eq_some_iff toNat_pageSize_eq).1 hpages]
  rfl

/-- There is a room exactly if the padded size is a word. -/
theorem Registry.room?_eq_none_iff {size : UInt64} :
    room? size = none ↔ 2 ^ 64 ≤ paddedSize size := by
  constructor
  · intro h
    by_contra hlt
    rw [paddedSize, toNat_pageSize_eq] at hlt
    have hpages : (UInt64.ofNat (roundUp size.toNat (2 ^ 12))).toNat = roundUp size.toNat (2 ^ 12) :=
      UInt64.toNat_ofNat_of_lt' (by have : UInt64.size = 2 ^ 64 := rfl; omega)
    have hround := (Word.alignUp?_eq_some_iff toNat_pageSize_eq).2 hpages
    have hsum := (Word.add?_eq_some_iff (y := pageSize)).2 ⟨by rw [hpages, toNat_pageSize]; omega, rfl⟩
    rw [room?, hround, Option.bind_eq_bind, Option.bind_some, hsum] at h
    cases h
  · intro h
    rcases hroom : room? size with _ | room
    · rfl
    · have hlt := room.toNat_lt
      rw [toNat_of_room?_eq_some hroom] at hlt
      exact absurd hlt (Nat.not_lt.2 h)

/-- There is at least one page in front of the guard page. -/
theorem Registry.two_pages_le_paddedSize {size : UInt64} (h : size ≠ 0) :
    2 * 4096 ≤ paddedSize size := by
  have hpos : 0 < size.toNat := Nat.pos_of_ne_zero fun he => h (UInt64.toNat_inj.1 he)
  have hle := le_roundUp size.toNat (a := pageSize.toNat) (by decide)
  have hpage := Nat.le_of_dvd (Nat.lt_of_lt_of_le hpos hle) (roundUp_dvd size.toNat pageSize.toNat)
  rw [paddedSize]
  rw [toNat_pageSize] at hpage ⊢
  omega

end PagedMemory
