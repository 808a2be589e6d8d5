import Mathlib.Tactic
import PagedMemory.Tables
import PagedMemory.Proofs.Rounding

/-!
# What entries say

* `PageFrame.Numbered`: the frames whose number fits in an entry.
* `Entry.pointing`: an entry led to another frame; its flags stay.
* `Entry.leafTo`, `Entry.tableTo`: the entries that `Entry.leaf` and `Entry.table` make, which are
  read as what they were made for: `Entry.leafTo_frame`, `Entry.child_tableTo`.
-/

namespace PagedMemory

open Layout

theorem Word.or_and_distrib (x y z : UInt64) : (x ||| y) &&& z = (x &&& z) ||| (y &&& z) := by
  apply UInt64.toNat_inj.1
  simp only [UInt64.toNat_and, UInt64.toNat_or]
  exact Nat.and_or_distrib_right _ _ _

/-- The number of the frame fits in an entry. -/
def PageFrame.Numbered (f : PageFrame) : Prop := f.base.val.toNat < 2 ^ 52

namespace PageFrame

variable {f : PageFrame}

theorem number_le_iff :
    f.base.val >>> EntryField.frameNumber.shift ≤ EntryField.frameNumber.max ↔ f.Numbered := by
  rw [UInt64.le_iff_toNat_le, UInt64.toNat_shiftRight]
  change f.base.val.toNat >>> 12 ≤ 2 ^ 40 - 1 ↔ f.base.val.toNat < 2 ^ 52
  rw [Nat.shiftRight_eq_div_pow]
  omega

/-- The address of a frame is its number, moved to its place. -/
theorem number_shiftLeft (f : PageFrame) :
    (f.base.val >>> EntryField.frameNumber.shift) <<< EntryField.frameNumber.shift =
      f.base.val := by
  have hdvd := Nat.div_mul_cancel f.dvd_base
  have hlt := f.base.val.toNat_lt
  apply UInt64.toNat_inj.1
  rw [UInt64.toNat_shiftLeft, UInt64.toNat_shiftRight]
  change f.base.val.toNat >>> 12 <<< 12 % 2 ^ 64 = _
  rw [Nat.shiftRight_eq_div_pow, Nat.shiftLeft_eq]
  change f.base.val.toNat / 4096 * 4096 % 2 ^ 64 = _
  rw [hdvd, Nat.mod_eq_of_lt hlt]

/-- The address of a numbered frame lies within the field of an entry. -/
theorem and_mask (h : f.Numbered) :
    f.base.val &&& EntryField.frameNumber.mask = f.base.val := by
  have hmask : EntryField.frameNumber.mask.toNat = (2 ^ 40 - 1) <<< 12 := by decide
  have hbase : f.base.val.toNat = (f.base.val.toNat / 2 ^ 12) <<< 12 := by
    rw [Nat.shiftLeft_eq]
    exact (Nat.div_mul_cancel f.dvd_base).symm
  apply UInt64.toNat_inj.1
  rw [UInt64.toNat_and, hmask, hbase, ← Nat.shiftLeft_and_distrib, Nat.and_two_pow_sub_one_eq_mod,
    Nat.mod_eq_of_lt]
  rw [Numbered] at h
  omega

/-- Bits outside the field are clear in the address of a numbered frame. -/
theorem and_eq_zero (h : f.Numbered) {m : UInt64} (hm : EntryField.frameNumber.mask &&& m = 0) :
    f.base.val &&& m = 0 := by
  rw [← and_mask h, UInt64.and_assoc, hm]
  exact UInt64.and_zero

theorem ext_base {f g : PageFrame} (h : f.base.val = g.base.val) : f = g := by
  obtain ⟨⟨a⟩, ha⟩ := f
  obtain ⟨⟨b⟩, hb⟩ := g
  obtain rfl : a = b := h
  rfl

end PageFrame

namespace Entry

variable {e : Entry} {f : PageFrame}

/-! ## Flags -/

theorem mask_and_mask {p q : EntryFlag} (h : p ≠ q) : p.mask &&& q.mask = 0 := by
  cases p <;> cases q <;> first | exact absurd rfl h | decide

theorem not_mask_and_mask {p q : EntryFlag} (h : p ≠ q) : ~~~p.mask &&& q.mask = q.mask := by
  cases p <;> cases q <;> first | exact absurd rfl h | decide

theorem mask_ne_zero (p : EntryFlag) : p.mask ≠ 0 := by
  cases p <;> decide

theorem has_set_of_ne {p q : EntryFlag} (h : p ≠ q) (on : Bool) : (e.set p on).has q = e.has q := by
  cases on with
  | false =>
    rw [has, has, set, if_neg (by decide), UInt64.and_assoc, not_mask_and_mask h]
  | true =>
    rw [has, has, set, if_pos rfl, Word.or_and_distrib, mask_and_mask h, UInt64.or_zero]

theorem has_set_true (e : Entry) (p : EntryFlag) : (e.set p true).has p = true := by
  rw [has, set, if_pos rfl, Word.or_and_distrib, UInt64.and_self, bne_iff_ne, ne_eq,
    UInt64.or_eq_zero_iff]
  exact fun h => mask_ne_zero p h.2

theorem isEmpty_eq_false_of_has {p : EntryFlag} (h : e.has p = true) : e.isEmpty = false := by
  rw [isEmpty, beq_eq_false_iff_ne]
  intro hz
  rw [has, hz, UInt64.zero_and] at h
  exact absurd h (by decide)

theorem isEmpty_iff : e.isEmpty = true ↔ e = .empty := by
  rw [isEmpty, beq_iff_eq]
  exact ⟨fun h => congrArg Entry.mk h, fun h => congrArg Entry.bits h⟩

/-! ## Pointing to frames -/

/-- The entry with its address replaced. -/
def pointing (e : Entry) (f : PageFrame) : Entry :=
  ⟨(e.bits &&& ~~~EntryField.frameNumber.mask) ||| f.base.val⟩

theorem setAddress_eq (h : f.Numbered) : e.setAddress f.base = .ok (e.pointing f) := by
  rw [setAddress, put, if_pos (PageFrame.number_le_iff.2 h), PageFrame.number_shiftLeft, pointing]

theorem frame_pointing (h : f.Numbered) : (e.pointing f).frame = f := by
  apply PageFrame.ext_base
  change ((e.bits &&& ~~~EntryField.frameNumber.mask) ||| f.base.val) &&&
    EntryField.frameNumber.mask = _
  rw [Word.or_and_distrib, UInt64.and_assoc, UInt64.not_and_self, UInt64.and_zero, UInt64.zero_or,
    PageFrame.and_mask h]

theorem has_pointing (h : f.Numbered) (p : EntryFlag) : (e.pointing f).has p = e.has p := by
  have hfield : EntryField.frameNumber.mask &&& p.mask = 0 := by cases p <;> decide
  have hrest : ~~~EntryField.frameNumber.mask &&& p.mask = p.mask := by cases p <;> decide
  rw [has, has, pointing, Word.or_and_distrib, UInt64.and_assoc, hrest,
    PageFrame.and_eq_zero h hfield, UInt64.or_zero]

/-- What `Entry.leaf` makes. -/
def leafTo (f : PageFrame) (prot : Entry) : Entry :=
  ((prot.set .present true).set .largePage false).pointing f

theorem leaf_eq (h : f.Numbered) (prot : Entry) : leaf f prot = .ok (leafTo f prot) :=
  setAddress_eq h

/-- A frame whose number does not fit cannot be mapped. -/
theorem leaf_of_not_numbered (h : ¬ f.Numbered) (prot : Entry) :
    leaf f prot = .error (.fieldTooSmall EntryField.frameNumber.max) := by
  rw [leaf, setAddress, put, if_neg fun hle => h (PageFrame.number_le_iff.1 hle)]

theorem leafTo_frame (h : f.Numbered) (prot : Entry) : (leafTo f prot).frame = f :=
  frame_pointing h

theorem leafTo_present (h : f.Numbered) (prot : Entry) : (leafTo f prot).has .present = true := by
  rw [leafTo, has_pointing h, has_set_of_ne (by decide), has_set_true]

/-- What `Entry.table` makes. -/
def tableTo (f : PageFrame) : Entry := kernelTable.pointing f

theorem table_eq (h : f.Numbered) : table f = .ok (tableTo f) := setAddress_eq h

/-- An entry made for a table leads to that table. -/
theorem child_tableTo (h : f.Numbered) : (tableTo f).child = .table f := by
  have hpresent : (tableTo f).has .present = true := by
    rw [tableTo, has_pointing h]
    decide
  have hlarge : (tableTo f).has .largePage = false := by
    rw [tableTo, has_pointing h]
    decide
  have huser : (tableTo f).has .userAccess = false := by
    rw [tableTo, has_pointing h]
    decide
  have hfine : (tableTo f).isMalformed = false := by
    rw [isMalformed, hpresent, hlarge, huser]
    simp
  rw [child, isEmpty_eq_false_of_has hpresent, if_neg (by decide), hfine, if_neg (by decide),
    tableTo, frame_pointing h]

end Entry

end PagedMemory
