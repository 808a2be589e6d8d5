import Mathlib.Tactic
import PagedMemory.Allocator.Copy
import PagedMemory.Proofs.Memory
import PagedMemory.Proofs.Pieces

/-!
# Memory, byte by byte

A frame is stored as words, and copied as bytes.

* `overwrite`: bytes of which some are replaced.
* `Page.byte_storeByte`, `Page.byte_storeBytes`: a store replaces the bytes that it is told to, and no
  others.
* `Pool.bytes_eq`, `Pool.setBytes_eq`: a copy within a frame, told of the frame's content.
-/

namespace PagedMemory

open Layout

/-! ## Bytes that are replaced -/

/-- These bytes, with those from number `k` on replaced by `data`. -/
def overwrite (bytes : Nat → UInt8) (k : Nat) (data : List UInt8) (j : Nat) : UInt8 :=
  if k ≤ j then (data[j - k]?).getD (bytes j) else bytes j

section

variable {bytes : Nat → UInt8} {k j : Nat} {data more : List UInt8}

theorem overwrite_of_lt (h : j < k) : overwrite bytes k data j = bytes j := if_neg (Nat.not_le.2 h)

theorem overwrite_of_le (h : k + data.length ≤ j) : overwrite bytes k data j = bytes j := by
  rw [overwrite, if_pos (by omega), List.getElem?_eq_none (by omega), Option.getD_none]

theorem overwrite_of_mem (hk : k ≤ j) (hj : j - k < data.length) :
    overwrite bytes k data j = data[j - k] := by
  rw [overwrite, if_pos hk, List.getElem?_eq_getElem hj, Option.getD_some]

theorem overwrite_congr {bytes' : Nat → UInt8} (h : bytes' j = bytes j) :
    overwrite bytes' k data j = overwrite bytes k data j := by
  rw [overwrite, overwrite, h]

/-- The first byte, and then the others. -/
theorem overwrite_cons {b : UInt8} :
    overwrite bytes k (b :: data) j = overwrite (Function.update bytes k b) (k + 1) data j := by
  rcases Nat.lt_trichotomy j k with hlt | rfl | hgt
  · rw [overwrite_of_lt hlt, overwrite_of_lt (by omega), Function.update_of_ne hlt.ne]
  · rw [overwrite_of_lt (Nat.lt_succ_self j), Function.update_self]
    simp [overwrite]
  · have hindex : j - k = j - (k + 1) + 1 := by omega
    rw [overwrite, overwrite, if_pos hgt.le, if_pos (Nat.succ_le_of_lt hgt),
      Function.update_of_ne hgt.ne', hindex,
      List.getElem?_cons_succ]

theorem overwrite_append :
    overwrite bytes k (data ++ more) j = overwrite (overwrite bytes k data) (k + data.length) more j := by
  rcases Nat.lt_or_ge j (k + data.length) with hlt | hge
  · rw [overwrite_of_lt hlt, overwrite, overwrite]
    split
    · rw [List.getElem?_append_left (by omega)]
    · rfl
  · rw [overwrite, overwrite, if_pos (by omega), if_pos hge, overwrite_of_le hge,
      List.getElem?_append_right (by omega), Nat.sub_add_eq]

/-- Bytes that are numbered from `b` on. -/
theorem overwrite_sub {b : Nat} (hk : b ≤ k) (hj : b ≤ j) :
    overwrite bytes (k - b) data (j - b) = overwrite (fun y => bytes (y - b)) k data j := by
  have hle : k - b ≤ j - b ↔ k ≤ j := by omega
  have hindex : j - b - (k - b) = j - k := by omega
  simp only [overwrite, hle, hindex]

end

/-! ## Words -/

/-- The low byte of a word is masked out and another one put in its place. -/
theorem BitVec.byte_store (w : BitVec 64) (b : BitVec 8) {i j : Nat} (hi : i < 8) (hj : j < 8) :
    (((w &&& ~~~(255#64 <<< (8 * i))) ||| (b.setWidth 64 <<< (8 * i))) >>> (8 * j)).setWidth 8 =
      if j = i then b else (w >>> (8 * j)).setWidth 8 := by
  have hmask : ∀ k, (255#64).getLsbD k = decide (k < 8) := by
    intro k
    rw [BitVec.getLsbD_ofNat, show 255 = 2 ^ 8 - 1 from rfl, Nat.testBit_two_pow_sub_one]
    by_cases hk : k < 8
    · simp only [hk, decide_true, Bool.and_true, decide_eq_true_eq]
      omega
    · simp only [hk, decide_false, Bool.and_false]
  apply BitVec.eq_of_getLsbD_eq
  intro k hk
  simp only [BitVec.getLsbD_setWidth, BitVec.getLsbD_ushiftRight, BitVec.getLsbD_or,
    BitVec.getLsbD_and, BitVec.getLsbD_not, BitVec.getLsbD_shiftLeft, hmask, hk, decide_true,
    Bool.true_and]
  have hword : 8 * j + k < 64 := by omega
  split
  next h =>
    subst h
    have hge : ¬ 8 * j + k < 8 * j := by omega
    have hbit : 8 * j + k - 8 * j = k := by omega
    have hk' : k < 64 := by omega
    simp [hword, hge, hbit, hk, hk']
  next h =>
    rw [BitVec.getLsbD_setWidth, BitVec.getLsbD_ushiftRight]
    by_cases hlt : 8 * j + k < 8 * i
    · simp [hword, hlt, hk]
    · -- the bit lies above the byte that is put in
      have hout : ¬ 8 * j + k - 8 * i < 8 := by omega
      have hzero : b.getLsbD (8 * j + k - 8 * i) = false := BitVec.getLsbD_of_ge _ _ (by omega)
      simp [hword, hlt, hout, hzero, hk]

namespace Page

variable {p : Page} {j k : Nat} {b : UInt8}

theorem toNat_shiftOf (k : Nat) : ((shiftOf k).toBitVec % 64).toNat = 8 * (k % 8) := by
  have hword : UInt64.size = 2 ^ 64 := rfl
  have hshift : (UInt64.ofNat (8 * (k % 8))).toNat = 8 * (k % 8) :=
    UInt64.toNat_ofNat_of_lt' (by omega)
  rw [shiftOf, BitVec.toNat_umod, UInt64.toNat_toBitVec, hshift]
  change 8 * (k % 8) % 64 = 8 * (k % 8)
  omega

/-- A byte of a word into which a byte was stored. -/
theorem toUInt8_store (w : UInt64) (b : UInt8) (j k : Nat) :
    (((w &&& ~~~(0xff <<< shiftOf k)) ||| (b.toUInt64 <<< shiftOf k)) >>> shiftOf j).toUInt8 =
      if j % 8 = k % 8 then b else (w >>> shiftOf j).toUInt8 := by
  apply UInt8.toBitVec_inj.1
  rw [apply_ite UInt8.toBitVec]
  simp only [UInt64.toBitVec_toUInt8, UInt64.toBitVec_shiftRight, UInt64.toBitVec_or,
    UInt64.toBitVec_and, UInt64.toBitVec_not, UInt64.toBitVec_shiftLeft, UInt8.toBitVec_toUInt64,
    BitVec.shiftLeft_eq', BitVec.ushiftRight_eq', toNat_shiftOf]
  exact BitVec.byte_store w.toBitVec b.toBitVec (Nat.mod_lt _ (by decide)) (Nat.mod_lt _ (by decide))

/-- A store of a byte replaces it. -/
theorem byte_storeByte (hj : j < 4096) (hk : k < 4096) :
    (p.storeByte k b).byte j = if j = k then b else p.byte j := by
  have hword : (wordOf j).val = j / 8 := Nat.mod_eq_of_lt (by change j / 8 < 512; omega)
  have hword' : (wordOf k).val = k / 8 := Nat.mod_eq_of_lt (by change k / 8 < 512; omega)
  rw [byte, storeByte, Fin.getElem_fin, Vector.getElem_set]
  by_cases hindex : wordOf j = wordOf k
  · have hiff : j % 8 = k % 8 ↔ j = k := by
      have hval := congrArg Fin.val hindex
      omega
    rw [if_pos (congrArg Fin.val hindex.symm), toUInt8_store]
    simp only [hiff, byte, hindex]
  · have hval : (wordOf k).val ≠ (wordOf j).val := fun he => hindex (Fin.ext he.symm)
    have hne : j ≠ k := by
      rintro rfl
      exact hindex rfl
    rw [if_neg hval, if_neg hne]
    rfl

/-- Likewise for several bytes, as long as they end with the page. -/
theorem byte_storeBytes (data : List UInt8) {p : Page} {k : Nat} (hj : j < 4096)
    (hk : k + data.length ≤ 4096) : (p.storeBytes k data).byte j = overwrite p.byte k data j := by
  induction data generalizing p k with
  | nil =>
    rw [storeBytes]
    rcases Nat.lt_or_ge j k with hlt | hge
    · exact (overwrite_of_lt hlt).symm
    · exact (overwrite_of_le hge).symm
  | cons b data ih =>
    rw [List.length_cons] at hk
    have hbyte : ∀ i < 4096, (p.storeByte k b).byte i = Function.update p.byte k b i := by
      intro i hi
      rw [byte_storeByte hi (by omega), Function.update_apply]
    rw [storeBytes, ih (by omega), overwrite_cons, overwrite_congr (hbyte j hj)]

end Page

/-! ## Copies within a frame -/

section

variable {p : Pool} {f : PageFrame} {i count : Nat} {x : VirtAddr}

theorem PageFrame.toNat_byteFor (hf : f.Numbered) (x : VirtAddr) :
    (f.byteFor x).val.toNat = f.base.val.toNat + x.val.toNat % 4096 := by
  have hbase : f.base.val.toNat < 2 ^ 52 := hf
  have hoffset : x.pageOffset.toNat = x.val.toNat % 4096 := toNat_offsetInPage x.val
  rw [byteFor, UInt64.toNat_add, hoffset]
  omega

/-- A byte of a frame lies in it. -/
theorem PageFrame.containing_byteFor (hf : f.Numbered) (x : VirtAddr) :
    PageFrame.containing (f.byteFor x) = f := by
  have hdvd := f.dvd_base
  apply PageFrame.ext_base
  apply UInt64.toNat_inj.1
  change (Word.alignDown _ pageSize).toNat = _
  rw [Word.toNat_alignDown toNat_pageSize_eq, toNat_byteFor hf]
  omega

theorem PageFrame.toNat_pageOffset_byteFor (hf : f.Numbered) (x : VirtAddr) :
    (f.byteFor x).pageOffset.toNat = x.val.toNat % 4096 := by
  have hdvd := f.dvd_base
  have hoffset : (f.byteFor x).pageOffset.toNat = (f.byteFor x).val.toNat % 4096 :=
    toNat_offsetInPage _
  rw [hoffset, toNat_byteFor hf]
  omega

namespace Pool

theorem indexOf?_byteFor (hf : f.Numbered) (h : p.number? f = some i) (x : VirtAddr) :
    p.indexOf? (f.byteFor x) = some ⟨i, number?_lt h⟩ := by
  obtain ⟨hi, hbase⟩ := number?_eq_some_iff.1 h
  have hindex : (p.indexOf? (f.byteFor x)).map Fin.val = some i := by
    rw [indexOf?_eq_some_iff, PageFrame.toNat_byteFor hf, hbase]
    omega
  obtain ⟨j, hj, rfl⟩ := Option.map_eq_some_iff.1 hindex
  exact hj

theorem bytes_eq (hf : f.Numbered) (h : p.number? f = some i)
    (hcount : x.val.toNat % 4096 + count ≤ 4096) :
    bytes (f.byteFor x) count p =
      .ok ((List.range' (x.val.toNat % 4096) count).map (p.page f).byte) p := by
  have hlt := number?_lt h
  rw [page, slot?_eq h, Array.getElem?_eq_getElem hlt, bytes, PageFrame.toNat_pageOffset_byteFor hf,
    toNat_pageSize, if_pos hcount]
  simp only [bind, EStateM.bind, get_apply, indexOf?_byteFor hf h]
  rfl

theorem setBytes_eq (hf : f.Numbered) (h : p.number? f = some i) {data : List UInt8}
    (hcount : x.val.toNat % 4096 + data.length ≤ 4096) :
    setBytes (f.byteFor x) data p =
      .ok () (p.rewrite f fun page => page.storeBytes (x.val.toNat % 4096) data) := by
  rw [rewrite_eq h, setBytes, PageFrame.toNat_pageOffset_byteFor hf, toNat_pageSize, if_pos hcount]
  simp only [bind, EStateM.bind, locate, get_apply, indexOf?_byteFor hf h]
  rfl

end Pool

end

end PagedMemory
