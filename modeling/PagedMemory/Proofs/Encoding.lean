import PagedMemory.Proofs.Bytewise
import PagedMemory.Proofs.Extending

/-!
# Entries, bit by bit

An entry is packed from parts that lie side by side, and is read as what it was made for.

* `EntryPart`: the flags and numbers of an entry, in the order in which they are declared.
  `EntryPart.toNat_mask`: they are packed from bit 0 on.
* `Entry.put_eq_ok_iff`, `Entry.get_put`: a number is taken if it fits in its part, and is then read
  back. `Entry.bit_put`, `Entry.bit_set_of_ne`: no bit outside the part changes.
* `Entry.MapsTo`, `Entry.LeadsTo`: what the entries for pages and for tables have to say.
* `Entry.ReadsAs`: what is found behind an entry of a directory. `Entry.child_cases`: nothing, the
  entry itself, or a table.
* `Entry.encodings_read_back`: entries say what they were made for, and every word is one of the
  three.
-/

namespace PagedMemory

open Layout

/-! ## Bits of words -/

namespace Word

variable {x y s : UInt64} {i : Nat}

/-- Bit `i`, counted from the lowest. -/
def bit (x : UInt64) (i : Nat) : Bool := x.toNat.testBit i

theorem ext_bit (h : ∀ i, bit x i = bit y i) : x = y := by
  apply UInt64.toNat_inj.1
  apply Nat.eq_of_testBit_eq
  exact h

theorem bit_eq_false_of_lt {w : Nat} (hx : x.toNat < 2 ^ w) (hi : w ≤ i) : bit x i = false :=
  Nat.testBit_lt_two_pow (Nat.lt_of_lt_of_le hx (Nat.pow_le_pow_right (by decide) hi))

theorem bit_and (x y : UInt64) (i : Nat) : bit (x &&& y) i = (bit x i && bit y i) := by
  rw [bit, UInt64.toNat_and, Nat.testBit_and, bit, bit]

theorem bit_or (x y : UInt64) (i : Nat) : bit (x ||| y) i = (bit x i || bit y i) := by
  rw [bit, UInt64.toNat_or, Nat.testBit_or, bit, bit]

/-- What is left of a word where the bits of another are cleared. -/
theorem bit_and_not (x y : UInt64) (i : Nat) : bit (x &&& ~~~y) i = (bit x i && !bit y i) := by
  rcases Nat.lt_or_ge i 64 with hi | hi
  · have hnot : bit (~~~y) i = !bit y i := by
      have hbits := BitVec.getLsbD_not (x := y.toBitVec) (i := i)
      rw [decide_eq_true hi, Bool.true_and] at hbits
      exact hbits
    rw [bit_and, hnot]
  · rw [bit_eq_false_of_lt (UInt64.toNat_lt _) hi, bit_eq_false_of_lt x.toNat_lt hi, Bool.false_and]

/-- A word that is shorter than `w` bits, moved to another place in a word. -/
theorem bit_shiftLeft {w : Nat} (hx : x.toNat < 2 ^ w) (hw : 0 < w) (hs : s.toNat + w ≤ 64) (i : Nat) :
    bit (x <<< s) i = (decide (s.toNat ≤ i ∧ i < s.toNat + w) && bit x (i - s.toNat)) := by
  have hmove : bit (x <<< s) i = (decide (i < 64) && (decide (s.toNat ≤ i) && bit x (i - s.toNat))) := by
    rw [bit, UInt64.toNat_shiftLeft, Nat.mod_eq_of_lt (Nat.lt_of_lt_of_le (Nat.lt_add_of_pos_right hw) hs),
      Nat.testBit_mod_two_pow, Nat.testBit_shiftLeft, bit]
  rw [hmove]
  -- below the place there is nothing yet, and above it the word has come to its end
  by_cases hin : s.toNat ≤ i ∧ i < s.toNat + w
  · rw [decide_eq_true hin, decide_eq_true hin.1, decide_eq_true (Nat.lt_of_lt_of_le hin.2 hs)]
    rfl
  · rw [decide_eq_false hin]
    rcases Nat.lt_or_ge i s.toNat with hlow | hhigh
    · rw [decide_eq_false (Nat.not_le.2 hlow), Bool.false_and, Bool.and_false]
    · have hout : w ≤ i - s.toNat := by omega
      rw [bit_eq_false_of_lt hx hout, Bool.and_false, Bool.and_false, Bool.and_false]

theorem bit_shiftRight (hs : s.toNat < 64) : bit (x >>> s) i = bit x (s.toNat + i) := by
  rw [bit, UInt64.toNat_shiftRight, Nat.mod_eq_of_lt hs, Nat.testBit_shiftRight, bit]

end Word

/-! ## The parts of an entry -/

/-- A flag or a number. -/
inductive EntryPart where
  | flag (p : EntryFlag)
  | field (f : EntryField)
  deriving DecidableEq

namespace EntryPart

/-- The parts in the order in which they are declared. -/
def all : List EntryPart :=
  [flag .present, flag .writable, flag .userAccess, flag .writeThrough, flag .cacheDisabled,
    flag .accessed, flag .dirty, flag .largePage, flag .globalTranslation, field .availableLow,
    field .frameNumber, field .availableHigh, flag .noExecute]

/-- How many bits the part has. -/
def width : EntryPart → Nat
  | flag _ => 1
  | field .availableLow => 3
  | field .frameNumber => 40
  | field .availableHigh => 11

/-- The lowest bit of the part: it begins where the part before it ends. -/
def position (part : EntryPart) : Nat := ((all.takeWhile (· != part)).map width).sum

def mask : EntryPart → UInt64
  | flag p => p.mask
  | field f => f.mask

/-- Bit `i` belongs to the part. -/
def Holds (part : EntryPart) (i : Nat) : Prop :=
  part.position ≤ i ∧ i < part.position + part.width

instance (part : EntryPart) (i : Nat) : Decidable (part.Holds i) :=
  inferInstanceAs (Decidable (_ ∧ _))

/-- The parts are packed from bit 0 on. -/
theorem toNat_mask (part : EntryPart) :
    part.mask.toNat = (2 ^ part.width - 1) <<< part.position := by
  cases part with
  | flag p => cases p <;> decide
  | field f => cases f <;> decide

theorem width_pos (part : EntryPart) : 0 < part.width := by
  cases part with
  | flag p => exact Nat.one_pos
  | field f => cases f <;> decide

theorem position_add_width_le (part : EntryPart) : part.position + part.width ≤ 64 := by
  cases part with
  | flag p => cases p <;> decide
  | field f => cases f <;> decide

theorem toNat_shift (f : EntryField) : f.shift.toNat = (field f).position := by
  cases f <;> decide

theorem toNat_max (f : EntryField) : f.max.toNat = 2 ^ (field f).width - 1 := by
  cases f <;> decide

theorem bit_mask (part : EntryPart) (i : Nat) : Word.bit part.mask i = decide (part.Holds i) := by
  rw [Word.bit, toNat_mask, Nat.testBit_shiftLeft, Nat.testBit_two_pow_sub_one, ← Bool.decide_and]
  apply decide_eq_decide.2
  rw [Holds]
  omega

theorem holds_flag_iff {p : EntryFlag} {i : Nat} : (flag p).Holds i ↔ i = (flag p).position := by
  rw [Holds, width, Nat.lt_succ_iff, ← Nat.le_antisymm_iff, eq_comm]

end EntryPart

namespace Entry

variable {e x : Entry} {i : Nat}

/-- Bit `i`, counted from the lowest. -/
def bit (e : Entry) (i : Nat) : Bool := Word.bit e.bits i

/-! ## Flags and numbers -/

/-- To set a flag changes no other bit. -/
theorem bit_set_of_ne {p : EntryFlag} (hi : i ≠ (EntryPart.flag p).position) (on : Bool) :
    (e.set p on).bit i = e.bit i := by
  have hmask : Word.bit p.mask i = false := by
    rw [← EntryPart.mask, EntryPart.bit_mask, decide_eq_false (mt EntryPart.holds_flag_iff.1 hi)]
  cases on with
  | false =>
    rw [bit, set, if_neg (by decide), Word.bit_and_not, hmask, Bool.not_false, Bool.and_true, bit]
  | true => rw [bit, set, if_pos rfl, Word.bit_or, hmask, Bool.or_false, bit]

theorem has_set_false (e : Entry) (p : EntryFlag) : (e.set p false).has p = false := by
  rw [has, set, if_neg (by decide), UInt64.and_assoc, UInt64.not_and_self, UInt64.and_zero]
  rfl

section

variable {part : EntryField} {v : UInt64}

/-- A number is taken exactly if it fits. -/
theorem put_eq_ok_iff : (∃ x, e.put part v = .ok x) ↔ v.toNat < 2 ^ (EntryPart.field part).width := by
  have hpos := Nat.two_pow_pos (EntryPart.field part).width
  have hfits : v ≤ part.max ↔ v.toNat < 2 ^ (EntryPart.field part).width := by
    rw [UInt64.le_iff_toNat_le, EntryPart.toNat_max]
    exact Nat.le_sub_one_iff_lt hpos
  rw [put, ← hfits]
  split
  next h =>
    constructor
    · intro _
      exact h
    · intro _
      exact ⟨_, rfl⟩
  next h =>
    constructor
    · rintro ⟨x, hx⟩
      cases hx
    · intro hle
      exact absurd hle h

/-- A number is stored in the bits of its part, and no other bit changes. -/
theorem bit_put (h : e.put part v = .ok x) (i : Nat) :
    x.bit i = if (EntryPart.field part).Holds i then
      Word.bit v (i - (EntryPart.field part).position) else e.bit i := by
  have hfits := put_eq_ok_iff.1 ⟨x, h⟩
  have hend := EntryPart.position_add_width_le (.field part)
  rw [← EntryPart.toNat_shift] at hend
  rw [put] at h
  split at h
  next =>
    obtain rfl := Except.ok.inj h
    have hplace : Word.bit (v <<< part.shift) i = (decide ((EntryPart.field part).Holds i) &&
        Word.bit v (i - (EntryPart.field part).position)) := by
      rw [Word.bit_shiftLeft hfits (EntryPart.width_pos _) hend, EntryPart.toNat_shift]
      rfl
    rw [bit, Word.bit_or, Word.bit_and_not, hplace, ← EntryPart.mask, EntryPart.bit_mask, bit]
    by_cases hi : (EntryPart.field part).Holds i
    · simp [hi]
    · simp [hi]
  next => cases h

/-- A number that was stored is read back. -/
theorem get_put (h : e.put part v = .ok x) : x.get part = v := by
  have hfits := put_eq_ok_iff.1 ⟨x, h⟩
  have hend := EntryPart.position_add_width_le (.field part)
  have hpos := EntryPart.width_pos (.field part)
  have hshift : part.shift.toNat < 64 := by
    rw [EntryPart.toNat_shift]
    omega
  apply Word.ext_bit
  intro i
  rw [get, Word.bit_shiftRight hshift, Word.bit_and, ← EntryPart.mask, EntryPart.bit_mask, ← bit,
    bit_put h, EntryPart.toNat_shift, Nat.add_sub_cancel_left]
  -- the mask cuts off what `v` does not have either
  by_cases hi : (EntryPart.field part).Holds ((EntryPart.field part).position + i)
  · rw [if_pos hi, decide_eq_true hi, Bool.and_true]
  · have hout : (EntryPart.field part).width ≤ i := by
      rw [EntryPart.Holds] at hi
      omega
    rw [decide_eq_false hi, Bool.and_false, Word.bit_eq_false_of_lt hfits hout]

end

/-! ## Entries for pages -/

/-- The entry maps a page to `f`, and otherwise says what `prot` says. -/
structure MapsTo (e : Entry) (f : PageFrame) (prot : Entry) : Prop where
  present : e.has .present = true
  small : e.has .largePage = false
  frame : e.frame = f
  /-- bits that have nothing to do with presence, page size and address -/
  rest : ∀ i, i ≠ 0 → i ≠ 7 → ¬ (12 ≤ i ∧ i ≤ 51) → e.bit i = prot.bit i

variable {f : PageFrame}

theorem mapsTo_leafTo (h : f.Numbered) (prot : Entry) : (leafTo f prot).MapsTo f prot where
  present := leafTo_present h prot
  small := by rw [leafTo, has_pointing h, has_set_false]
  frame := leafTo_frame h prot
  rest := by
    intro i hpresent hlarge haddress
    have hput := leaf_eq h prot
    rw [leaf, setAddress] at hput
    have hout : ¬ (EntryPart.field .frameNumber).Holds i := fun hin =>
      haddress ⟨hin.1, Nat.le_of_lt_succ hin.2⟩
    rw [bit_put hput, if_neg hout, bit_set_of_ne hlarge, bit_set_of_ne hpresent]

end Entry

/-! ## Entries of directories -/

/-- An entry that is stored is there. -/
theorem Tables.exists_of_setEntry {m : Machine} {table : PageFrame} (h : m.pool.Has table)
    (i : TableIndex) (e : Entry) :
    ∃ m', setEntry table i e m = .ok () m' ∧ m'.pool.Has table ∧ m'.pool.entryAt table i = e := by
  obtain ⟨_, m', hset, -, hpool⟩ := (setEntry_does h i e).exists_ok (s := m) rfl rfl
  change m'.pool = m.pool.withEntry table i e at hpool
  obtain ⟨k, hk⟩ := id h
  refine ⟨m', hset, ?_, ?_⟩
  · rw [hpool]
    exact ⟨k, Pool.number?_rewrite.trans hk⟩
  · rw [hpool, Pool.entryAt_withEntry h, if_pos ⟨rfl, rfl⟩]

namespace Entry

variable {e : Entry} {f : PageFrame} {answer : Child}

/-- Whatever directory holds the entry, or has it stored, `answer` is what is found behind it. -/
structure ReadsAs (e : Entry) (answer : Child) : Prop where
  /-- a look at the entry leaves the machine as it is -/
  found : ∀ (m : Machine) (l : Level) (table : PageFrame) (i : TableIndex), l.isLeaf = false →
    m.pool.Has table → m.pool.entryAt table i = e → Tables.child l table i m = .ok answer m
  stored : ∀ (m : Machine) (l : Level) (table : PageFrame) (i : TableIndex), l.isLeaf = false →
    m.pool.Has table → ∃ m', Tables.setEntry table i e m = .ok () m' ∧
      Tables.child l table i m' = .ok answer m'

theorem readsAs_child (e : Entry) : e.ReadsAs e.child := by
  constructor
  · rintro m l table i hl htable rfl
    exact (Walk.child_idles htable hl i).eq_ok
  · intro m l table i hl htable
    obtain ⟨m', hset, htable', rfl⟩ := Tables.exists_of_setEntry htable i e
    exact ⟨m', hset, (Walk.child_idles htable' hl i).eq_ok⟩

/-- The entry cannot lead to a table: it is not present, or stands for a large page, or lets user
programs in. -/
def Unfit (e : Entry) : Prop :=
  e.has .present = false ∨ e.has .largePage = true ∨ e.has .userAccess = true

theorem isMalformed_iff : e.isMalformed = true ↔ e.bits ≠ 0 ∧ e.Unfit := by
  simp [isMalformed, isEmpty, Unfit, or_assoc]

/-- What is found behind an entry, by the word that it is. -/
theorem child_cases (e : Entry) :
    e.bits = 0 ∧ e.child = .none ∨
    e.bits ≠ 0 ∧ e.Unfit ∧ e.child = .malformed e ∨
    e.bits ≠ 0 ∧ ¬ e.Unfit ∧ e.child = .table e.frame := by
  by_cases hbits : e.bits = 0
  · left
    have hempty : e.isEmpty = true := beq_iff_eq.2 hbits
    exact ⟨hbits, if_pos hempty⟩
  · right
    have hempty : ¬ e.isEmpty = true := fun h => hbits (beq_iff_eq.1 h)
    rw [child, if_neg hempty]
    by_cases hunfit : e.Unfit
    · left
      exact ⟨hbits, hunfit, if_pos (isMalformed_iff.2 ⟨hbits, hunfit⟩)⟩
    · right
      exact ⟨hbits, hunfit, if_neg fun h => hunfit (isMalformed_iff.1 h).2⟩

/-- Of the three answers there are, this is the one for the entry. -/
structure Tells (e : Entry) (answer : Child) : Prop where
  none_iff : answer = .none ↔ e.bits = 0
  malformed_iff : ∀ x, answer = .malformed x ↔ x = e ∧ e.bits ≠ 0 ∧ e.Unfit
  table_iff : ∀ g, answer = .table g ↔ g = e.frame ∧ e.bits ≠ 0 ∧ ¬ e.Unfit

theorem tells_child (e : Entry) : e.Tells e.child := by
  rcases e.child_cases with ⟨hbits, hchild⟩ | ⟨hbits, hunfit, hchild⟩ | ⟨hbits, hfit, hchild⟩
  · constructor <;> simp [hchild, hbits]
  · constructor <;> simp [hchild, hbits, hunfit, eq_comm]
  · constructor <;> simp [hchild, hbits, hfit, eq_comm]

/-- The entry leads to the table in `f`. -/
structure LeadsTo (e : Entry) (f : PageFrame) : Prop where
  fine : e.isMalformed = false
  reads : e.ReadsAs (.table f)

theorem leadsTo_tableTo (h : f.Numbered) : (tableTo f).LeadsTo f := by
  have hchild := child_tableTo h
  constructor
  · obtain ⟨-, -, hfit⟩ := ((tells_child _).table_iff f).1 hchild
    rw [← Bool.not_eq_true, isMalformed_iff]
    exact fun hbad => hfit hbad.2
  · rw [← hchild]
    exact readsAs_child _

/-! ## The main result -/

/-- **Entries are read as what they were made for.** For a frame below 2^52, the entry for a page is
present, is no large page, points to that frame, and has all other bits of the protection; the entry
for a table is not malformed, and leads to that table from every directory. From 2^52 on there is
neither. And whatever word a directory holds, one of three things is found behind it: nothing behind
zero, the entry itself if it is not fit to lead anywhere, and else a table in a frame below 2^52. -/
theorem encodings_read_back (f : PageFrame) (prot e : Entry) :
    (f.base.val.toNat < 2 ^ 52 →
      (∃ x, leaf f prot = .ok x ∧ x.MapsTo f prot) ∧ ∃ x, table f = .ok x ∧ x.LeadsTo f) ∧
    (2 ^ 52 ≤ f.base.val.toNat →
      leaf f prot = .error (.fieldTooSmall EntryField.frameNumber.max) ∧
      table f = .error (.fieldTooSmall EntryField.frameNumber.max)) ∧
    ∃ answer, e.ReadsAs answer ∧ e.Tells answer ∧
      4096 ∣ e.frame.base.val.toNat ∧ e.frame.base.val.toNat < 2 ^ 52 := by
  refine ⟨?_, ?_, ?_⟩
  · intro hbelow
    exact ⟨⟨_, leaf_eq hbelow prot, mapsTo_leafTo hbelow prot⟩, _, table_eq hbelow,
      leadsTo_tableTo hbelow⟩
  · intro habove
    have hnone : ¬ f.Numbered := Nat.not_lt.2 habove
    exact ⟨leaf_of_not_numbered hnone prot, table_of_not_numbered hnone⟩
  · exact ⟨_, readsAs_child e, tells_child e, e.frame.dvd_base, numbered_frame e⟩

/-- The last frame that has a number, under a protection with all bits set, and the first frame that
has none. -/
theorem border_encodings_read_back :
    ((PageFrame.containing ⟨0xffffffffff000⟩).base.val.toNat < 2 ^ 52 ∧
      (∃ x, leaf (.containing ⟨0xffffffffff000⟩) ⟨0xffffffffffffffff⟩ = .ok x ∧
        x.MapsTo (.containing ⟨0xffffffffff000⟩) ⟨0xffffffffffffffff⟩) ∧
      ∃ x, table (.containing ⟨0xffffffffff000⟩) = .ok x ∧
        x.LeadsTo (.containing ⟨0xffffffffff000⟩)) ∧
    2 ^ 52 ≤ (PageFrame.containing ⟨0x10000000000000⟩).base.val.toNat ∧
      leaf (.containing ⟨0x10000000000000⟩) ⟨0xffffffffffffffff⟩ =
        .error (.fieldTooSmall EntryField.frameNumber.max) ∧
      table (.containing ⟨0x10000000000000⟩) =
        .error (.fieldTooSmall EntryField.frameNumber.max) :=
  ⟨⟨by decide, (encodings_read_back _ _ .empty).1 (by decide)⟩, by decide,
    (encodings_read_back _ _ .empty).2.1 (by decide)⟩

end Entry

end PagedMemory
