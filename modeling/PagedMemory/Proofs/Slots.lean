import PagedMemory.Proofs.Arrays
import PagedMemory.Proofs.Storing

/-!
# The two forms of an array of handles

An array that is kept beside its area and one that lies in frames give the same answers. The first
is a list; in the second every handle has a slot of eight bytes, which lies in one frame and belongs
to no other handle.

* `HandleArray.InSlot`: the bytes that are a handle's slot.
* `HandleArray.Marked`: what the words of the slots are after some frames were stored. A slot that
  was never written is zero, and no handle is.
* `HandleArray.Lists`: reading the array gives these frames and nothing after them.
* `HandleArray.Writes`: a store shows in the slot and nowhere else.
* `HandleArray.forms_agree`: both forms list what was stored in them.
-/

namespace PagedMemory

open Layout

/-! ## Words and their bytes -/

theorem Page.byte_set (page : Page) (i : TableIndex) (w : UInt64) (k : Nat) :
    Page.byte (page.set i w i.isLt) k =
      if wordOf k = i then (w >>> shiftOf k).toUInt8 else page.byte k := by
  have hword : (page.set i w i.isLt)[wordOf k] = if wordOf k = i then w else page[wordOf k] :=
    Page.get_set page i (wordOf k) w
  rw [byte, hword]
  split <;> rfl

/-- The machine with another pool. -/
def Machine.withPool (m : Machine) (p : Pool) : Machine := { m with pool := p }

@[simp] theorem Machine.withPool_pool (m : Machine) (p : Pool) : (m.withPool p).pool = p := rfl

@[simp] theorem Machine.withPool_front (m : Machine) (p : Pool) : (m.withPool p).front = m.front :=
  rfl

@[simp] theorem Machine.withPool_trace (m : Machine) (p : Pool) : (m.withPool p).trace = m.trace :=
  rfl

namespace HandleArray

variable {m u : Machine} {p : Pool} {base : VirtAddr} {length i j : Nat} {array : HandleArray}
  {backing frames : List PageFrame} {b f : PageFrame} {place : PhysAddr}

/-! ## Slots -/

/-- The byte at `place` is one of the eight that hold handle `i`. -/
def InSlot (backing : List PageFrame) (i : Nat) (place : PhysAddr) : Prop :=
  ∃ b, backing[i / handlesPerFrame]? = some b ∧
    b.base.val.toNat + 8 * (i % handlesPerFrame) ≤ place.val.toNat ∧
    place.val.toNat < b.base.val.toNat + 8 * (i % handlesPerFrame) + 8

/-- A slot is a word of a frame. -/
theorem inSlot_iff (hb : backing[i / handlesPerFrame]? = some b) :
    InSlot backing i place ↔
      PageFrame.containing place = b ∧ Page.wordOf place.pageOffset.toNat = slotOf i := by
  have hdvd := b.dvd_base
  have hframe : PageFrame.containing place = b ↔
      place.val.toNat / 4096 * 4096 = b.base.val.toNat := by
    rw [← PageFrame.toNat_base_containing]
    exact ⟨fun h => by rw [h], fun h => PageFrame.ext_base (UInt64.toNat_inj.1 h)⟩
  have hword : Page.wordOf place.pageOffset.toNat = slotOf i ↔
      place.val.toNat % 4096 / 8 % 512 = i % 512 := by
    rw [PhysAddr.toNat_pageOffset]
    exact Fin.ext_iff
  have hslot : InSlot backing i place ↔ b.base.val.toNat + 8 * (i % 512) ≤ place.val.toNat ∧
      place.val.toNat < b.base.val.toNat + 8 * (i % 512) + 8 := by
    constructor
    · rintro ⟨c, hc, hrange⟩
      obtain rfl := Option.some.inj (hb.symm.trans hc)
      exact hrange
    · exact fun hrange => ⟨b, hb, hrange⟩
  rw [hslot, hframe, hword]
  omega

/-- A byte belongs to one slot at most. -/
theorem InSlot.inj (hi : InSlot backing i place) (hj : InSlot backing j place)
    (hnodup : backing.Nodup) : i = j := by
  obtain ⟨b, hb, -⟩ := id hi
  obtain ⟨c, hc, -⟩ := id hj
  obtain ⟨rfl, hword⟩ := (inSlot_iff hb).1 hi
  obtain ⟨rfl, hword'⟩ := (inSlot_iff hc).1 hj
  exact place_inj hnodup hb hc (hword.symm.trans hword')

/-- Where there are enough frames, every handle has one of them. -/
theorem exists_frame (hsize : backing.length = (length + 511) / 512) (hi : i < length) :
    ∃ b ∈ backing, backing[i / handlesPerFrame]? = some b := by
  have hlt : i / handlesPerFrame < backing.length := by
    rw [hsize]
    change i / 512 < (length + 511) / 512
    omega
  exact ⟨backing[i / handlesPerFrame], List.getElem_mem hlt, List.getElem?_eq_getElem hlt⟩

/-! ## Single stores and reads -/

theorem frameOf_toArray (hb : backing[i / handlesPerFrame]? = some b) :
    frameOf backing.toArray i = .ok b := by
  rw [frameOf, List.getElem?_toArray, hb]

/-- The pool with `f` as handle `i` in the frame `b`. -/
def withHandle (p : Pool) (b : PageFrame) (i : Nat) (f : PageFrame) : Pool :=
  p.rewrite b fun page => page.set (slotOf i) (encode f) (slotOf i).isLt

/-- Storing a handle stores one word. -/
theorem store_mapped (base : VirtAddr) (hi : i < length)
    (hb : backing[i / handlesPerFrame]? = some b) (hhas : m.pool.Has b) (f : PageFrame) :
    (mapped base length backing.toArray).store i f m =
      .ok (mapped base length backing.toArray) (m.withPool (withHandle m.pool b i f)) := by
  obtain ⟨k, hk⟩ := hhas
  have hword : Machine.onPool (Pool.setWord b (slotOf i) (encode f)) m =
      .ok () (m.withPool (withHandle m.pool b i f)) := by
    simp only [Machine.onPool, Pool.setWord_eq hk]
    rfl
  rw [store, if_pos hi, frameOf_toArray hb]
  change (do
    Machine.onPool (Pool.setWord b (slotOf i) (encode f))
    return mapped base length backing.toArray : MachineM HandleArray) m = _
  simp only [bind, EStateM.bind, hword]
  rfl

/-- A handle is read from one word. -/
theorem get?_mapped (hi : i < length) (hb : backing[i / handlesPerFrame]? = some b)
    (hhas : m.pool.Has b) {answer : Option PageFrame}
    (hword : decode ((m.pool.page b).get (slotOf i)) = .ok answer) :
    (mapped base length backing.toArray).get? i m = .ok answer m := by
  obtain ⟨k, hk⟩ := hhas
  have hread : Machine.onPool (Pool.word b (slotOf i)) m =
      .ok ((m.pool.page b).get (slotOf i)) m := by
    simp only [Machine.onPool, Pool.word_eq hk]
  rw [get?, if_pos hi, frameOf_toArray hb]
  change (do
    let w ← Machine.onPool (Pool.word b (slotOf i))
    liftM (decode w) : MachineM (Option PageFrame)) m = _
  simp only [bind, EStateM.bind, hread, hword]
  rfl

/-- What storing handle `i` makes of the machine: its slot holds the word of the frame, and all
else is as before. -/
structure Writes (backing : List PageFrame) (i : Nat) (f : PageFrame) (m m' : Machine) : Prop where
  front : m'.front = m.front
  trace : m'.trace = m.trace
  rewritten : m.pool.Rewritten m'.pool
  inside : ∀ place, InSlot backing i place →
    m'.pool.byteAt place = (encode f >>> Page.shiftOf place.pageOffset.toNat).toUInt8
  outside : ∀ place, ¬ InSlot backing i place → m'.pool.byteAt place = m.pool.byteAt place

theorem store_writes (hi : i < length) (hb : backing[i / handlesPerFrame]? = some b)
    (hhas : m.pool.Has b) (f : PageFrame) :
    ∃ m', (mapped base length backing.toArray).store i f m =
      .ok (mapped base length backing.toArray) m' ∧ Writes backing i f m m' := by
  refine ⟨_, store_mapped base hi hb hhas f, rfl, rfl, Pool.rewritten_rewrite _ _ _,
    fun place hplace => ?_, fun place hplace => ?_⟩
  · obtain ⟨rfl, hword⟩ := (inSlot_iff hb).1 hplace
    obtain ⟨k, hk⟩ := hhas
    rw [Machine.withPool_pool, Pool.byteAt, withHandle, Pool.page_rewrite_self hk, Page.byte_set,
      if_pos hword]
  · rw [inSlot_iff hb, not_and_or] at hplace
    rw [Machine.withPool_pool, Pool.byteAt, withHandle]
    by_cases hframe : PageFrame.containing place = b
    · subst hframe
      obtain ⟨k, hk⟩ := hhas
      have hword := hplace.resolve_left (not_not_intro rfl)
      rw [Pool.page_rewrite_self hk, Page.byte_set, if_neg hword, Pool.byteAt]
    · rw [Pool.page_rewrite_of_ne hframe, Pool.byteAt]

/-! ## One store after another -/

/-- Stores the frames as the handles of number `i`, `i + 1` and so on. -/
def storeFrom (array : HandleArray) : List PageFrame → Nat → MachineM HandleArray
  | [], _ => return array
  | f :: frames, i => do
    let array ← array.store i f
    array.storeFrom frames (i + 1)

/-- Stores the frames as the first handles. -/
def storeAll (array : HandleArray) (frames : List PageFrame) : MachineM HandleArray :=
  array.storeFrom frames 0

/-- Beside an area, the next handle is that behind the ones that are there. -/
theorem storeFrom_inline {kept : Array PageFrame} {frames : List PageFrame}
    (hroom : kept.size + frames.length ≤ length) (m : Machine) :
    (inline length kept).storeFrom frames kept.size m =
      .ok (inline length (kept ++ frames.toArray)) m := by
  induction frames generalizing kept with
  | nil =>
    rw [show kept ++ [].toArray = kept from Array.append_empty]
    rfl
  | cons f frames ih =>
    rw [List.length_cons] at hroom
    have hlist : kept ++ (f :: frames).toArray = kept.push f ++ frames.toArray := by simp
    have hstore : (inline length kept).store kept.size f m = .ok (inline length (kept.push f)) m := by
      rw [store, pushAt_eq_ok (by omega)]
      rfl
    have hrest : (inline length (kept.push f)).storeFrom frames (kept.push f).size m = _ :=
      ih (by rw [Array.size_push]; omega)
    rw [Array.size_push] at hrest
    rw [hlist]
    simp only [storeFrom, bind, EStateM.bind, hstore]
    exact hrest

/-- The word in the slot of a handle, or of one that was never stored. -/
def wordFor : Option PageFrame → UInt64
  | none => 0
  | some f => encode f

theorem decode_wordFor (answer : Option PageFrame) : decode (wordFor answer) = .ok answer := by
  cases answer with
  | none => rfl
  | some f => exact decode_encode f

/-- The slots hold the words of these frames, and the slots after them are blank. -/
def Marked (p : Pool) (length : Nat) (backing frames : List PageFrame) : Prop :=
  ∀ i < length, ∀ b, backing[i / handlesPerFrame]? = some b →
    (p.page b).get (slotOf i) = wordFor frames[i]?

theorem Marked.nil (h : ∀ b ∈ backing, p.page b = Page.zero) : Marked p length backing [] := by
  intro i _ b hb
  rw [h b (List.mem_of_getElem? hb), Page.get_zero]
  rfl

/-- The next store fills the first blank slot. -/
theorem Marked.append (h : Marked p length backing frames) (hnodup : backing.Nodup)
    (hb : backing[frames.length / handlesPerFrame]? = some b) (hhas : p.Has b) (f : PageFrame) :
    Marked (withHandle p b frames.length f) length backing (frames ++ [f]) := by
  intro i hi c hc
  rw [withHandle, Pool.getElem_page_store hhas]
  rcases eq_or_ne i frames.length with rfl | hne
  · obtain rfl := Option.some.inj (hb.symm.trans hc)
    rw [if_pos ⟨rfl, rfl⟩, List.getElem?_concat_length]
    rfl
  · have hmiss : ¬ (c = b ∧ slotOf i = slotOf frames.length) := by
      rintro ⟨rfl, hslot⟩
      exact hne (place_inj hnodup hc hb hslot)
    have hsame : (frames ++ [f])[i]? = frames[i]? := by
      rcases Nat.lt_or_gt_of_ne hne with hlt | hgt
      · exact List.getElem?_append_left hlt
      · rw [List.getElem?_eq_none (Nat.le_of_lt hgt), List.getElem?_eq_none]
        rw [List.length_append]
        exact hgt
    rw [if_neg hmiss, hsame]
    exact h i hi c hc

section

variable (hsize : backing.length = (length + 511) / 512)
  (hhas : ∀ b ∈ backing, m.pool.Has b)

include hsize hhas

/-- The invariant of the stores is which slots are marked; the frames of the array stay where they
are. -/
theorem storeFrom_mapped (base : VirtAddr) (hnodup : backing.Nodup) {stored : List PageFrame}
    (more : List PageFrame)
    (hmarked : Marked m.pool length backing stored) (hroom : stored.length + more.length ≤ length) :
    ∃ m', (mapped base length backing.toArray).storeFrom more stored.length m =
        .ok (mapped base length backing.toArray) m' ∧
      (∀ b ∈ backing, m'.pool.Has b) ∧ Marked m'.pool length backing (stored ++ more) := by
  induction more generalizing m stored with
  | nil =>
    rw [List.append_nil]
    exact ⟨m, rfl, hhas, hmarked⟩
  | cons f more ih =>
    rw [List.length_cons] at hroom
    obtain ⟨b, hmem, hb⟩ := exists_frame hsize (i := stored.length) (by omega)
    have hstore : (mapped base length backing.toArray).store stored.length f m = _ :=
      store_mapped base (by omega) hb (hhas b hmem) f
    have hnext := hmarked.append hnodup hb (hhas b hmem) f
    obtain ⟨m', hrest, hhas', hmarked'⟩ := ih
      (m := m.withPool (withHandle m.pool b stored.length f))
      (fun c hc => (hhas c hc).congr Pool.rewrite_base Pool.rewrite_size) hnext
      (by rw [List.length_append, List.length_singleton]; omega)
    refine ⟨m', ?_, hhas', ?_⟩
    · rw [List.length_append, List.length_singleton] at hrest
      simp only [storeFrom, bind, EStateM.bind, hstore]
      exact hrest
    · rw [List.append_assoc] at hmarked'
      exact hmarked'

/-- Marked slots are read as they were written. -/
theorem get?_of_marked (hmarked : Marked m.pool length backing frames)
    (hroom : frames.length ≤ length) (i : Nat) :
    (mapped base length backing.toArray).get? i m = .ok frames[i]? m := by
  rcases Nat.lt_or_ge i length with hi | hi
  · obtain ⟨b, hmem, hb⟩ := exists_frame hsize hi
    refine get?_mapped hi hb (hhas b hmem) ?_
    rw [hmarked i hi b hb, decode_wordFor]
  · rw [List.getElem?_eq_none (hroom.trans hi), get?, if_neg (Nat.not_lt.2 hi)]
    rfl

end

/-! ## Reading -/

/-- Reading the array gives these frames and nothing after them, and changes nothing. -/
structure Lists (array : HandleArray) (m : Machine) (frames : List PageFrame) : Prop where
  get? : ∀ i, array.get? i m = .ok frames[i]? m
  toList : ∀ count, array.toList count m = .ok (frames.take count) m

theorem toListFrom_of_get? (h : ∀ i, array.get? i m = .ok frames[i]? m) (n i : Nat) :
    array.toListFrom n i m = .ok ((frames.drop i).take n) m := by
  induction n generalizing i with
  | zero => rfl
  | succ n ih =>
    simp only [toListFrom, bind, EStateM.bind, h i]
    rcases Nat.lt_or_ge i frames.length with hi | hi
    · rw [List.getElem?_eq_getElem hi]
      simp only [EStateM.bind, ih (i + 1), List.drop_eq_getElem_cons hi, List.take_succ_cons]
      rfl
    · rw [List.getElem?_eq_none hi, List.drop_eq_nil_of_le hi]
      rfl

/-- An array is known by its handles. -/
theorem Lists.of_get? (h : ∀ i, array.get? i m = .ok frames[i]? m) : array.Lists m frames where
  get? := h
  toList count := toListFrom_of_get? h count 0

/-- Storing the same frames, no more than there is room for, gives arrays of both forms that list
these frames. In frames, each store changes the eight bytes of one slot, which lie in one frame, and
no byte is in two slots. -/
theorem forms_agree (m : Machine) (base : VirtAddr) (length : Nat)
    {backing frames : List PageFrame} (hsize : backing.length = (length + 511) / 512)
    (hnodup : backing.Nodup) (hhas : ∀ b ∈ backing, m.pool.Has b)
    (hzero : ∀ b ∈ backing, m.pool.page b = Page.zero) (hroom : frames.length ≤ length) :
    ((inline length #[]).storeAll frames m = .ok (inline length frames.toArray) m ∧
      (inline length frames.toArray).Lists m frames) ∧
    (∃ m', (mapped base length backing.toArray).storeAll frames m =
        .ok (mapped base length backing.toArray) m' ∧
      (mapped base length backing.toArray).Lists m' frames) ∧
    (∀ u : Machine, (∀ b ∈ backing, u.pool.Has b) → ∀ i < length, ∀ f, ∃ u',
      (mapped base length backing.toArray).store i f u =
        .ok (mapped base length backing.toArray) u' ∧ Writes backing i f u u') ∧
    (∀ i < length, ∃ b ∈ backing, ∃ offset, offset + 8 ≤ 4096 ∧ ∀ place, InSlot backing i place ↔
      b.base.val.toNat + offset ≤ place.val.toNat ∧
        place.val.toNat < b.base.val.toNat + offset + 8) ∧
    ∀ i < length, ∀ j < length, ∀ place, InSlot backing i place → InSlot backing j place →
      i = j := by
  refine ⟨⟨?_, ?_⟩, ?_, ?_, ?_, ?_⟩
  · have hstore : (inline length #[]).storeFrom frames 0 m =
        .ok (inline length (#[] ++ frames.toArray)) m := storeFrom_inline (by simpa using hroom) m
    rw [Array.empty_append] at hstore
    exact hstore
  · exact Lists.of_get? fun i => by rw [get?, List.getElem?_toArray]; rfl
  · obtain ⟨m', hstore, hhas', hmarked⟩ :=
      storeFrom_mapped hsize hhas base hnodup frames (.nil hzero) (by
        rw [List.length_nil, Nat.zero_add]
        exact hroom)
    exact ⟨m', hstore, Lists.of_get? (get?_of_marked hsize hhas' hmarked hroom)⟩
  · intro u hu i hi f
    obtain ⟨b, hmem, hb⟩ := exists_frame hsize hi
    exact store_writes hi hb (hu b hmem) f
  · intro i hi
    obtain ⟨b, hmem, hb⟩ := exists_frame hsize hi
    have hmod : i % handlesPerFrame < 512 := Nat.mod_lt i (by decide)
    refine ⟨b, hmem, 8 * (i % handlesPerFrame), by omega, fun place => ⟨?_, fun h => ⟨b, hb, h⟩⟩⟩
    rintro ⟨c, hc, hrange⟩
    obtain rfl := Option.some.inj (hb.symm.trans hc)
    exact hrange
  · exact fun i _ j _ place hi hj => hi.inj hj hnodup

/-- Handles of frame zero and of a frame that is far away, in two frames that are not neighbours. -/
theorem scattered_agree :
    ∃ m', (mapped ⟨0⟩ 513 #[.containing ⟨0⟩, .containing ⟨0x2000⟩]).storeAll
        [.containing ⟨0⟩, .containing ⟨0xfffffffffffff000⟩]
        (.create (Pool.create (.containing ⟨0⟩) 3) .plain) =
          .ok (mapped ⟨0⟩ 513 #[.containing ⟨0⟩, .containing ⟨0x2000⟩]) m' ∧
      (mapped ⟨0⟩ 513 #[.containing ⟨0⟩, .containing ⟨0x2000⟩]).Lists m'
        [.containing ⟨0⟩, .containing ⟨0xfffffffffffff000⟩] := by
  have hhas : ∀ b ∈ [PageFrame.containing ⟨0⟩, .containing ⟨0x2000⟩],
      (Pool.create (.containing ⟨0⟩) 3).Has b := by
    intro b hb
    rcases List.mem_pair.1 hb with rfl | rfl
    · exact ⟨0, Pool.number?_eq_some_iff.2 ⟨by decide, rfl⟩⟩
    · exact ⟨2, Pool.number?_eq_some_iff.2 ⟨by decide, rfl⟩⟩
  exact (forms_agree (.create (Pool.create (.containing ⟨0⟩) 3) .plain) ⟨0⟩ 513 rfl (by decide)
    hhas (fun b _ => Pool.page_create b) (by decide)).2.1

end HandleArray

end PagedMemory
