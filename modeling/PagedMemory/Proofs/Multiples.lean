import PagedMemory.Proofs.Rounding

/-!
# Neighbouring multiples

Rounding to a power of two is exact over all words. Rounding down finds the greatest multiple that is
not above a word. Rounding up goes by way of a sum that may be larger than the multiple it looks for,
and still it finds the least one that is not below a word, unless that one is no word itself.

* `Registry.isLeast_roundUp`, `Word.isGreatest_alignDown`: the multiples next to a number.
* `Word.alignUp?_eq_none_iff`: what it means that rounding up finds nothing.
* `Word.isLeast_two_pow_fls`, `AreaKind.toNat_alignment_device`: device memory is aligned to the next
  power of two above its size, kept within bounds.
* `rounds_exactly`: all of these together.
-/

namespace PagedMemory

open Layout

/-! ## Rounding -/

/-- Rounding up finds the least multiple from a number on. -/
theorem Registry.isLeast_roundUp (x : Nat) {a : Nat} (ha : 0 < a) :
    IsLeast {m | a ∣ m ∧ x ≤ m} (roundUp x a) := by
  constructor
  · exact ⟨roundUp_dvd x a, le_roundUp x ha⟩
  · intro m hm
    exact roundUp_le hm.1 hm.2

namespace Word

variable {x a : UInt64} {k : Nat}

theorem pos_of_two_pow (h : a.toNat = 2 ^ k) : 0 < a.toNat := by
  rw [h]
  exact Nat.two_pow_pos k

/-- Rounding down finds the greatest multiple up to a number. -/
theorem isGreatest_alignDown (h : a.toNat = 2 ^ k) :
    IsGreatest {m | a.toNat ∣ m ∧ m ≤ x.toNat} (alignDown x a).toNat := by
  rw [toNat_alignDown h, h]
  constructor
  · exact ⟨Nat.dvd_mul_left _ _, Nat.div_mul_le_self _ _⟩
  · rintro _ ⟨⟨c, rfl⟩, hc⟩
    rw [Nat.mul_comm]
    apply Nat.mul_le_mul_right
    rw [Nat.le_div_iff_mul_le (Nat.two_pow_pos k), Nat.mul_comm]
    exact hc

/-- Rounding up finds nothing exactly if the least multiple is no word. -/
theorem alignUp?_eq_none_iff (h : a.toNat = 2 ^ k) :
    alignUp? x a = none ↔ 2 ^ 64 ≤ Registry.roundUp x.toNat a.toNat := by
  rw [h]
  constructor
  · intro hnone
    by_contra hlt
    have hword : (UInt64.ofNat (Registry.roundUp x.toNat (2 ^ k))).toNat =
        Registry.roundUp x.toNat (2 ^ k) := UInt64.toNat_ofNat_of_lt' (Nat.not_le.1 hlt)
    rw [(alignUp?_eq_some_iff h).2 hword] at hnone
    cases hnone
  · intro hbeyond
    cases hup : alignUp? x a with
    | none => rfl
    | some y =>
      have hy := y.toNat_lt
      rw [(alignUp?_eq_some_iff h).1 hup] at hy
      exact absurd hy (Nat.not_lt.2 hbeyond)

/-! ## Powers of two -/

/-- A word is below a power of two exactly if it has no more digits than that power has zeros. -/
theorem fls_le_iff {j : Nat} : fls x ≤ j ↔ x.toNat < 2 ^ j := by
  rw [fls]
  split
  next hzero => simp [hzero]
  next hne =>
    have hpos : x.toNat ≠ 0 := fun hzero => hne (UInt64.toNat_inj.1 hzero)
    exact Nat.log2_lt hpos

/-- The number of digits of a word gives the next power of two above it. -/
theorem isLeast_two_pow_fls (x : UInt64) :
    IsLeast {p | (∃ j, p = 2 ^ j) ∧ x.toNat < p} (2 ^ fls x) := by
  constructor
  · exact ⟨⟨_, rfl⟩, fls_le_iff.1 (Nat.le_refl _)⟩
  · rintro _ ⟨⟨j, rfl⟩, hj⟩
    exact Nat.pow_le_pow_right (by decide) (fls_le_iff.2 hj)

end Word

/-- The exponent of the alignment of device memory. -/
def AreaKind.deviceOrder (size : UInt64) : Nat :=
  max pageShift.toNat (min (Word.fls size) deviceMaxOrder)

theorem AreaKind.deviceOrder_le (size : UInt64) : deviceOrder size ≤ deviceMaxOrder := by
  apply Nat.max_le.2
  exact ⟨by decide, Nat.min_le_right _ _⟩

theorem AreaKind.toNat_alignment_device (size : UInt64) :
    (device.alignment size).toNat = 2 ^ deviceOrder size :=
  Word.toNat_one_shiftLeft (Nat.lt_of_le_of_lt (deviceOrder_le size) (by decide))

/-- Bounds on the exponent are bounds on the power. -/
theorem AreaKind.two_pow_deviceOrder (size : UInt64) :
    2 ^ deviceOrder size = max pageSize.toNat (min (2 ^ Word.fls size) (2 ^ deviceMaxOrder)) := by
  have hmono : Monotone fun j : Nat => 2 ^ j := fun i j hij => Nat.pow_le_pow_right (by decide) hij
  calc 2 ^ deviceOrder size
      = max (2 ^ pageShift.toNat) (2 ^ min (Word.fls size) deviceMaxOrder) := hmono.map_max
    _ = max pageSize.toNat (min (2 ^ Word.fls size) (2 ^ deviceMaxOrder)) := by
      rw [hmono.map_min]
      rfl

/-! ## The main result -/

/-- **Rounding is exact at the limits**: for a power of two, rounding down gives the greatest multiple
that is not above a word; rounding up gives the least one that is not below it, and nothing exactly if
that one is no word. Device memory is aligned to the least power of two above its size, kept between
a page and `2 ^ deviceMaxOrder`; this is always a power of two to which words can be rounded. -/
theorem rounds_exactly {a : UInt64} {k : Nat} (ha : a.toNat = 2 ^ k) (x size : UInt64) :
    IsGreatest {m | a.toNat ∣ m ∧ m ≤ x.toNat} (Word.alignDown x a).toNat ∧
    (∃ m, IsLeast {m | a.toNat ∣ m ∧ x.toNat ≤ m} m ∧
      (∀ y, Word.alignUp? x a = some y ↔ y.toNat = m) ∧
      (Word.alignUp? x a = none ↔ 2 ^ 64 ≤ m)) ∧
    (∃ p, IsLeast {p | (∃ j, p = 2 ^ j) ∧ size.toNat < p} p ∧
      (AreaKind.device.alignment size).toNat =
        max pageSize.toNat (min p (2 ^ deviceMaxOrder))) ∧
    ∃ j, j ≤ deviceMaxOrder ∧ (AreaKind.device.alignment size).toNat = 2 ^ j ∧
      pageSize.toNat ≤ (AreaKind.device.alignment size).toNat := by
  refine ⟨Word.isGreatest_alignDown ha, ?_, ?_, ?_⟩
  · refine ⟨_, Registry.isLeast_roundUp x.toNat (Word.pos_of_two_pow ha), ?_, ?_⟩
    · intro y
      rw [Word.alignUp?_eq_some_iff ha, ha]
    · exact Word.alignUp?_eq_none_iff ha
  · refine ⟨_, Word.isLeast_two_pow_fls size, ?_⟩
    rw [AreaKind.toNat_alignment_device, AreaKind.two_pow_deviceOrder]
  · refine ⟨_, AreaKind.deviceOrder_le size, AreaKind.toNat_alignment_device size, ?_⟩
    rw [AreaKind.toNat_alignment_device, AreaKind.two_pow_deviceOrder]
    exact Nat.le_max_left _ _

/-- The last page of the address space: there is no multiple above its second byte, and that byte
plus a page is no word either. -/
theorem topmost_rounds_exactly :
    (0x1000 : UInt64).toNat = 2 ^ 12 ∧
    IsGreatest {m | (0x1000 : UInt64).toNat ∣ m ∧ m ≤ (0xfffffffffffff001 : UInt64).toNat}
      (Word.alignDown 0xfffffffffffff001 0x1000).toNat ∧
    (∃ m, IsLeast {m | (0x1000 : UInt64).toNat ∣ m ∧ (0xfffffffffffff001 : UInt64).toNat ≤ m} m ∧
      (∀ y, Word.alignUp? 0xfffffffffffff001 0x1000 = some y ↔ y.toNat = m) ∧
      (Word.alignUp? 0xfffffffffffff001 0x1000 = none ↔ 2 ^ 64 ≤ m)) ∧
    (∃ p, IsLeast {p | (∃ j, p = 2 ^ j) ∧ (0x3000 : UInt64).toNat < p} p ∧
      (AreaKind.device.alignment 0x3000).toNat =
        max pageSize.toNat (min p (2 ^ deviceMaxOrder))) ∧
    ∃ j, j ≤ deviceMaxOrder ∧ (AreaKind.device.alignment 0x3000).toNat = 2 ^ j ∧
      pageSize.toNat ≤ (AreaKind.device.alignment 0x3000).toNat :=
  ⟨rfl, rounds_exactly (k := 12) rfl 0xfffffffffffff001 0x3000⟩

end PagedMemory
