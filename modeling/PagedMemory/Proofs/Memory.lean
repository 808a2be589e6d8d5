import Mathlib.Tactic
import PagedMemory.Proofs.Entries
import PagedMemory.Proofs.Outcome

/-!
# Pools, frame by frame

What the operations of a pool do, told in frames instead of slots.

* `Pool.number?`: the number of a frame, if it is one of the pool's.
* `Pool.page`, `Pool.isTaken`: what is in a frame, and whether it is in use.
* `Pool.Sound`: the pool lies where its frames have numbers for entries, and the free list holds
  just the frames that are not in use, each once. `Pool.Placed`: its frames have addresses at least.
* `Pool.rewrite`: the pool with one frame's content changed, to which all stores come down.
* `Pool.take_ends`, `Pool.giveBack_ends`: frames change hands, as `Pool.Handed` and `Pool.Returned`
  say. `Pool.take_supply`: how many more requests can be granted.
-/

namespace PagedMemory

open Layout

/-! ## Words of a page -/

namespace Page

theorem get_zero (i : TableIndex) : zero.get i = 0 := Vector.getElem_replicate i.isLt

theorem get_set (page : Page) (i j : TableIndex) (w : UInt64) :
    (page.set i w i.isLt).get j = if j = i then w else page.get j := by
  refine (Vector.getElem_set i.isLt j.isLt).trans ?_
  rcases eq_or_ne j i with rfl | hji
  · rw [if_pos rfl, if_pos rfl]
  · rw [if_neg fun he => hji (Fin.ext he.symm), if_neg hji]
    rfl

end Page

/-! ## Frames and their bytes, without a check -/

/-- Where two checks in a row are passed, each is passed. -/
theorem Fault.bind_eq_ok {α β : Type} {x : Except Fault α} {f : α → Except Fault β} {b : β}
    (h : x >>= f = .ok b) : ∃ a, x = .ok a ∧ f a = .ok b := by
  cases x with
  | error e => cases h
  | ok a => exact ⟨a, rfl, h⟩

namespace PageFrame

variable {f : PageFrame} {n : Nat}

/-- The frame `n` pages after `f`, in words that wrap. -/
def advance (f : PageFrame) (n : Nat) : PageFrame :=
  containing ⟨f.base.val + UInt64.ofNat n * pageSize⟩

/-- The byte of the frame that has the in-page offset of `a`. -/
def byteFor (f : PageFrame) (a : VirtAddr) : PhysAddr := ⟨f.base.val + a.pageOffset⟩

/-- Frames side by side start a page apart. -/
theorem toNat_advance (h : f.base.val.toNat + n * 4096 < 2 ^ 64) :
    (f.advance n).base.val.toNat = f.base.val.toNat + n * 4096 := by
  have hword : UInt64.size = 2 ^ 64 := rfl
  have haligned := f.dvd_base
  have hn : (UInt64.ofNat n).toNat = n := UInt64.toNat_ofNat_of_lt' (by omega)
  have hsum : (f.base.val + UInt64.ofNat n * pageSize).toNat = f.base.val.toNat + n * 4096 := by
    rw [UInt64.toNat_add, UInt64.toNat_mul, hn, toNat_pageSize]
    omega
  change (Word.alignDown (f.base.val + UInt64.ofNat n * pageSize) pageSize).toNat = _
  rw [Word.toNat_alignDown toNat_pageSize_eq, hsum]
  omega

/-- As long as the address space goes on, so do the frames. -/
theorem following_eq_ok (h : f.base.val.toNat + n * 4096 < 2 ^ 64) :
    f.following n = .ok (f.advance n) := by
  have hword : UInt64.size = 2 ^ 64 := rfl
  have hn : (UInt64.ofNat n).toNat = n := UInt64.toNat_ofNat_of_lt' (by omega)
  obtain ⟨offset, hmul, hoffset⟩ := Word.mul_eq_ok (x := .ofNat n) (y := pageSize) (by
    rw [hn, toNat_pageSize]
    omega)
  rw [hn, toNat_pageSize] at hoffset
  obtain ⟨base, hadd, hbase⟩ := Word.add_eq_ok (x := f.base.val) (y := offset) (hoffset ▸ h)
  rw [hoffset, ← toNat_advance h] at hbase
  obtain rfl := UInt64.toNat_inj.1 hbase
  have haddr : ofAddr? ⟨(f.advance n).base.val⟩ = some (f.advance n) := dif_pos (f.advance n).aligned
  rw [following, hmul]
  change (do ofAddr (← f.base.add offset)) = _
  rw [PhysAddr.add, hadd]
  change ofAddr ⟨(f.advance n).base.val⟩ = _
  rw [ofAddr, haddr]

/-- The address of a frame that could be named. -/
theorem base_of_ofAddr_eq_ok {a : PhysAddr} (h : ofAddr a = .ok f) : f.base = a := by
  rw [ofAddr, ofAddr?] at h
  split at h
  next g hframe =>
    split at hframe
    · obtain rfl := Option.some.inj hframe
      obtain rfl := Except.ok.inj h
      rfl
    · cases hframe
  next => cases h

/-- A frame that could be named is as far away as was asked for. -/
theorem toNat_of_following_eq_ok {g : PageFrame} (hn : n < 2 ^ 64) (h : f.following n = .ok g) :
    g.base.val.toNat = f.base.val.toNat + n * 4096 := by
  have hword : (UInt64.ofNat n).toNat = n := UInt64.toNat_ofNat_of_lt' hn
  obtain ⟨offset, hmul, h⟩ := Fault.bind_eq_ok h
  obtain ⟨place, hplace, hframe⟩ := Fault.bind_eq_ok h
  obtain ⟨base, hadd, hbase⟩ := Fault.bind_eq_ok hplace
  obtain rfl := Except.ok.inj hbase
  have hoffset := Word.toNat_of_mul_eq_ok hmul
  rw [hword, toNat_pageSize] at hoffset
  rw [base_of_ofAddr_eq_ok hframe]
  exact (Word.toNat_of_add_eq_ok hadd).trans (congrArg _ hoffset)

/-- No frame ends beyond the address space. -/
theorem byteAt_pageOffset (f : PageFrame) (a : VirtAddr) :
    f.byteAt a.pageOffset = .ok (f.byteFor a) := by
  have hdvd := f.dvd_base
  have hbase := f.base.val.toNat_lt
  have hoffset : a.pageOffset.toNat = a.val.toNat % 4096 := toNat_offsetInPage a.val
  have hadd : Word.add? f.base.val a.pageOffset = some (f.base.val + a.pageOffset) :=
    Word.add?_eq_some_iff.2 ⟨by omega, rfl⟩
  rw [byteAt, if_pos, PhysAddr.add, Word.add, hadd]
  · rfl
  · rw [UInt64.lt_iff_toNat_lt, hoffset, toNat_pageSize]
    omega

end PageFrame

namespace Pool

variable {p : Pool} {f g : PageFrame} {i : Nat}

/-! ## Frames by number -/

/-- The number of a frame of the pool. -/
def number? (p : Pool) (f : PageFrame) : Option Nat := (p.indexOf? f.base).map Fin.val

/-- What the pool keeps about a frame. -/
def slot? (p : Pool) (f : PageFrame) : Option Slot := (p.number? f).bind fun i => p.slots[i]?

/-- The content of a frame; zeros for a frame that is none of the pool's. -/
def page (p : Pool) (f : PageFrame) : Page := (p.slot? f).elim Page.zero Slot.content

theorem indexOf?_eq_some_iff {a : PhysAddr} :
    (p.indexOf? a).map Fin.val = some i ↔
      i < p.slots.size ∧ p.base.base.val.toNat + i * 4096 ≤ a.val.toNat ∧
        a.val.toNat < p.base.base.val.toNat + (i + 1) * 4096 := by
  rw [indexOf?]
  rcases hsub : Word.sub? a.val p.base.base.val with _ | offset
  · have hlt : a.val.toNat < p.base.base.val.toNat := by
      by_contra hle
      rw [Word.sub?_eq_some_iff.2 ⟨Nat.not_lt.1 hle, rfl⟩] at hsub
      cases hsub
    simp only [Option.map_none, reduceCtorEq, false_iff]
    omega
  · obtain ⟨hle, rfl⟩ := Word.sub?_eq_some_iff.1 hsub
    have hoffset : (a.val - p.base.base.val).toNat = a.val.toNat - p.base.base.val.toNat :=
      UInt64.toNat_sub_of_le _ _ (UInt64.le_iff_toNat_le.2 hle)
    have hquot : ((a.val - p.base.base.val) / pageSize).toNat =
        (a.val.toNat - p.base.base.val.toNat) / 4096 := by
      rw [UInt64.toNat_div, hoffset]
      rfl
    simp only
    split
    next h =>
      rw [hquot] at h
      simp only [Option.map_some, hquot, Option.some.injEq]
      constructor
      · rintro rfl
        omega
      · rintro ⟨-, h1, h2⟩
        omega
    next h =>
      rw [hquot] at h
      simp only [Option.map_none, reduceCtorEq, false_iff]
      omega

/-- Frames lie one after the other from the base of the pool on. -/
theorem number?_eq_some_iff :
    p.number? f = some i ↔
      i < p.slots.size ∧ f.base.val.toNat = p.base.base.val.toNat + i * 4096 := by
  have hf := f.dvd_base
  have hb := p.base.dvd_base
  rw [number?, indexOf?_eq_some_iff]
  omega

theorem number?_lt (h : p.number? f = some i) : i < p.slots.size := (number?_eq_some_iff.1 h).1

/-- Two frames of one number are the same. -/
theorem number?_inj (hf : p.number? f = some i) (hg : p.number? g = some i) : f = g := by
  apply PageFrame.ext_base
  apply UInt64.toNat_inj.1
  rw [(number?_eq_some_iff.1 hf).2, (number?_eq_some_iff.1 hg).2]

theorem number?_congr {q : Pool} (hbase : q.base = p.base) (hsize : q.slots.size = p.slots.size) :
    q.number? f = p.number? f := by
  apply Option.ext
  intro i
  rw [number?_eq_some_iff, number?_eq_some_iff, hbase, hsize]

theorem exists_slot (h : p.number? f = some i) : ∃ s, p.slots[i]? = some s :=
  ⟨_, Array.getElem?_eq_getElem (number?_lt h)⟩

theorem slot?_eq (h : p.number? f = some i) : p.slot? f = p.slots[i]? := by
  rw [slot?, h, Option.bind_some]

theorem indexOf?_of_number? (h : p.number? f = some i) :
    p.indexOf? f.base = some ⟨i, number?_lt h⟩ := by
  obtain ⟨j, hj, rfl⟩ := Option.map_eq_some_iff.1 h
  exact hj

/-- The flag of a frame, as its slot has it. -/
theorem isTaken_eq_any (p : Pool) (f : PageFrame) : p.isTaken f = (p.slot? f).any Slot.inUse := by
  rw [isTaken, slot?, number?]
  rcases p.indexOf? f.base with _ | i
  · rfl
  · rw [Option.map_some, Option.bind_some, Array.getElem?_eq_getElem i.isLt]
    rfl

/-- Only frames of the pool are in use. -/
theorem exists_number?_of_isTaken (h : p.isTaken f = true) : ∃ i, p.number? f = some i := by
  rw [isTaken] at h
  split at h
  next i hi => exact ⟨i.val, by rw [number?, hi, Option.map_some]⟩
  next => exact absurd h (by decide)

/-! ## Sound pools -/

/-- The shape that every pool keeps. -/
structure Sound (p : Pool) : Prop where
  /-- every frame has a number that fits in an entry -/
  below : p.base.base.val.toNat + p.slots.size * 4096 ≤ 2 ^ 52
  nodup : p.free.Nodup
  /-- the free list holds what is not in use -/
  mem_free : ∀ i, i ∈ p.free ↔ ∃ s, p.slots[i]? = some s ∧ s.inUse = false

/-- What the free list of a sound pool is, whatever the numbers of its frames. -/
structure Listed (p : Pool) : Prop where
  nodup : p.free.Nodup
  mem_free : ∀ i, i ∈ p.free ↔ ∃ s, p.slots[i]? = some s ∧ s.inUse = false

theorem Sound.listed (hp : p.Sound) : p.Listed := ⟨hp.nodup, hp.mem_free⟩

theorem Sound.numbered (hp : p.Sound) (h : p.number? f = some i) : f.Numbered := by
  obtain ⟨hi, hf⟩ := number?_eq_some_iff.1 h
  have hbelow := hp.below
  rw [PageFrame.Numbered, hf]
  have hmul : (i + 1) * 4096 ≤ p.slots.size * 4096 := Nat.mul_le_mul_right _ hi
  omega

theorem Sound.numbered_of_isTaken (hp : p.Sound) (h : p.isTaken f = true) : f.Numbered := by
  obtain ⟨i, hi⟩ := exists_number?_of_isTaken h
  exact hp.numbered hi

/-- All frames of the pool lie in the 64-bit range. -/
def Placed (p : Pool) : Prop := p.base.base.val.toNat + p.slots.size * 4096 ≤ 2 ^ 64

theorem Sound.placed (hp : p.Sound) : p.Placed := by
  have hbelow := hp.below
  rw [Placed]
  omega

theorem Placed.congr {q : Pool} (hp : p.Placed) (hbase : q.base = p.base)
    (hsize : q.slots.size = p.slots.size) : q.Placed := by
  rw [Placed, hbase, hsize]
  exact hp

/-- The frames of the pool start within the address space. -/
theorem Placed.lt (hp : p.Placed) (h : i < p.slots.size) :
    p.base.base.val.toNat + i * 4096 < 2 ^ 64 := by
  have hplaced : p.base.base.val.toNat + p.slots.size * 4096 ≤ 2 ^ 64 := hp
  omega

theorem Placed.number?_advance (hp : p.Placed) (h : i < p.slots.size) :
    p.number? (p.base.advance i) = some i :=
  number?_eq_some_iff.2 ⟨h, PageFrame.toNat_advance (hp.lt h)⟩

/-- A frame is known by its number. -/
theorem Placed.frameAt (hp : p.Placed) (h : i < p.slots.size) :
    p.frameAt i = .ok (p.base.advance i) :=
  PageFrame.following_eq_ok (hp.lt h)

/-- The frame of each number below the size of the pool. -/
theorem Sound.frameAt (hp : p.Sound) (h : i < p.slots.size) :
    ∃ f, p.frameAt i = .ok f ∧ p.number? f = some i :=
  ⟨_, hp.placed.frameAt h, hp.placed.number?_advance h⟩

/-! ## Stores -/

/-- The pool with the content of one frame changed. -/
def rewrite (p : Pool) (f : PageFrame) (change : Page → Page) : Pool :=
  match p.number? f with
  | some i => p.modifyContent i change
  | none => p

variable {change : Page → Page}

theorem rewrite_eq (h : p.number? f = some i) : p.rewrite f change = p.modifyContent i change := by
  rw [rewrite, h]

@[simp] theorem rewrite_base : (p.rewrite f change).base = p.base := by
  rw [rewrite]
  split <;> rfl

@[simp] theorem rewrite_free : (p.rewrite f change).free = p.free := by
  rw [rewrite]
  split <;> rfl

@[simp] theorem rewrite_budget : (p.rewrite f change).budget = p.budget := by
  rw [rewrite]
  split <;> rfl

@[simp] theorem rewrite_size : (p.rewrite f change).slots.size = p.slots.size := by
  rw [rewrite]
  split
  · exact Array.size_modify
  · rfl

@[simp] theorem number?_rewrite : (p.rewrite f change).number? g = p.number? g :=
  number?_congr rewrite_base rewrite_size

/-- Changing one slot's content leaves its flag and the other slots. -/
theorem getElem?_modifyContent (p : Pool) (i j : Nat) (change : Page → Page) :
    (p.modifyContent i change).slots[j]? =
      (p.slots[j]?).map fun s => if i = j then { s with content := change s.content } else s := by
  rw [modifyContent, Array.getElem?_modify]
  rcases eq_or_ne i j with rfl | hij
  · simp only [if_true]
  · simp only [if_neg hij, Option.map_id']

/-- The slot of a frame, after the content of some frame was changed. -/
theorem slot?_rewrite (p : Pool) (f g : PageFrame) (change : Page → Page) :
    (p.rewrite f change).slot? g =
      (p.slot? g).map fun s => if g = f then { s with content := change s.content } else s := by
  rcases hg : p.number? g with _ | j
  · rw [slot?, slot?, number?_rewrite, hg]
    rfl
  · rw [slot?_eq (number?_rewrite.trans hg), slot?_eq hg]
    rcases hf : p.number? f with _ | i
    · have hgf : g ≠ f := by
        rintro rfl
        rw [hg] at hf
        cases hf
      simp only [rewrite, hf, if_neg hgf, Option.map_id']
    · have hij : i = j ↔ g = f := by
        constructor
        · rintro rfl
          exact number?_inj hg hf
        · rintro rfl
          exact Option.some.inj (hf.symm.trans hg)
      simp only [rewrite_eq hf, getElem?_modifyContent, hij]

/-- The same frames, each in use or free as before, and the same supply: at most contents differ. -/
structure Rewritten (p q : Pool) : Prop where
  base : q.base = p.base
  free : q.free = p.free
  budget : q.budget = p.budget
  flags : ∀ j : Nat, (q.slots[j]?).map Slot.inUse = (p.slots[j]?).map Slot.inUse

namespace Rewritten

variable {q u : Pool}

theorem refl (p : Pool) : p.Rewritten p := ⟨rfl, rfl, rfl, fun _ => rfl⟩

theorem trans (hpq : p.Rewritten q) (hqu : q.Rewritten u) : p.Rewritten u where
  base := hqu.base.trans hpq.base
  free := hqu.free.trans hpq.free
  budget := hqu.budget.trans hpq.budget
  flags j := (hqu.flags j).trans (hpq.flags j)

theorem size (h : p.Rewritten q) : q.slots.size = p.slots.size := by
  have hnone : ∀ j : Nat, q.slots.size ≤ j ↔ p.slots.size ≤ j := fun j => by
    rw [← Array.getElem?_eq_none_iff, ← Array.getElem?_eq_none_iff, ← Option.map_eq_none_iff,
      h.flags j, Option.map_eq_none_iff]
  exact Nat.le_antisymm ((hnone _).2 (Nat.le_refl _)) ((hnone _).1 (Nat.le_refl _))

theorem isTaken (h : p.Rewritten q) (f : PageFrame) : q.isTaken f = p.isTaken f := by
  have hany : ∀ s : Option Slot, s.any Slot.inUse = (s.map Slot.inUse).any id := fun s => by
    cases s <;> rfl
  rw [isTaken_eq_any, isTaken_eq_any, slot?, slot?, number?_congr h.base h.size, hany, hany]
  cases p.number? f with
  | none => rfl
  | some i => exact congrArg (Option.any id) (h.flags i)

theorem listed (h : p.Rewritten q) (hp : p.Listed) : q.Listed where
  nodup := by
    rw [h.free]
    exact hp.nodup
  mem_free j := by
    have hflag : ∀ s : Option Slot, (∃ x, s = some x ∧ x.inUse = false) ↔
        s.map Slot.inUse = some false := fun s => Option.map_eq_some_iff.symm
    rw [h.free, hp.mem_free, hflag, hflag, h.flags]

theorem sound (h : p.Rewritten q) (hp : p.Sound) : q.Sound := by
  refine ⟨?_, (h.listed hp.listed).nodup, (h.listed hp.listed).mem_free⟩
  rw [h.base, h.size]
  exact hp.below

end Rewritten

theorem rewritten_modifyContent (p : Pool) (i : Nat) (change : Page → Page) :
    p.Rewritten (p.modifyContent i change) where
  base := rfl
  free := rfl
  budget := rfl
  flags j := by
    rw [getElem?_modifyContent, Option.map_map]
    congr 1
    funext s
    simp only [Function.comp]
    split <;> rfl

theorem rewritten_rewrite (p : Pool) (f : PageFrame) (change : Page → Page) :
    p.Rewritten (p.rewrite f change) := by
  rw [Pool.rewrite]
  split
  next i _ => exact rewritten_modifyContent p i change
  next => exact .refl p

@[simp] theorem isTaken_rewrite : (p.rewrite f change).isTaken g = p.isTaken g :=
  (rewritten_rewrite p f change).isTaken g

theorem Sound.rewrite (hp : p.Sound) : (p.rewrite f change).Sound :=
  (rewritten_rewrite p f change).sound hp

theorem page_rewrite_self (h : p.number? f = some i) :
    (p.rewrite f change).page f = change (p.page f) := by
  obtain ⟨s, hs⟩ := exists_slot h
  rw [page, page, slot?_rewrite, slot?_eq h, hs, Option.map_some, if_pos rfl]
  rfl

theorem page_rewrite_of_ne (h : g ≠ f) : (p.rewrite f change).page g = p.page g := by
  rw [page, page, slot?_rewrite]
  simp only [if_neg h, Option.map_id']

theorem locate_eq (h : p.number? f = some i) : locate f.base p = .ok i p := by
  simp only [locate, bind, EStateM.bind, get_apply, indexOf?_of_number? h]
  rfl

/-- Filling a frame with zeros. -/
theorem zero_eq (h : p.number? f = some i) :
    zero f p = .ok () (p.rewrite f fun _ => Page.zero) := by
  rw [rewrite_eq h]
  simp only [zero, bind, EStateM.bind, locate_eq h]
  rfl

theorem setWord_eq (h : p.number? f = some i) (k : TableIndex) (w : UInt64) :
    setWord f k w p = .ok () (p.rewrite f fun q => q.set k w k.isLt) := by
  rw [rewrite_eq h]
  simp only [setWord, bind, EStateM.bind, locate_eq h]
  rfl

theorem word_eq (h : p.number? f = some i) (k : TableIndex) :
    word f k p = .ok ((p.page f).get k) p := by
  have hlt := number?_lt h
  rw [page, slot?_eq h, Array.getElem?_eq_getElem hlt]
  simp only [word, bind, EStateM.bind, get_apply, indexOf?_of_number? h]
  rfl

/-! ## Frames that change hands -/

variable {inUse : Bool} {free : List Nat}

/-- The pool with one frame's flag set anew, and another free list. -/
def marked (p : Pool) (i : Nat) (inUse : Bool) (free : List Nat) : Pool :=
  { p.setInUse i inUse with free }

theorem getElem?_marked (p : Pool) (i j : Nat) (inUse : Bool) (free : List Nat) :
    (p.marked i inUse free).slots[j]? =
      (p.slots[j]?).map fun s => if i = j then { s with inUse } else s := by
  change (p.slots.modify i _)[j]? = _
  rw [Array.getElem?_modify]
  rcases eq_or_ne i j with rfl | hij
  · simp only [if_true]
  · simp only [if_neg hij, Option.map_id']

@[simp] theorem marked_size : (p.marked i inUse free).slots.size = p.slots.size :=
  Array.size_modify

@[simp] theorem number?_marked : (p.marked i inUse free).number? g = p.number? g :=
  number?_congr rfl marked_size

theorem slot?_marked (hf : p.number? f = some i) (g : PageFrame) :
    (p.marked i inUse free).slot? g =
      (p.slot? g).map fun s => if g = f then { s with inUse } else s := by
  rcases hg : p.number? g with _ | j
  · rw [slot?, slot?, number?_marked, hg]
    rfl
  · have hij : i = j ↔ g = f := by
      constructor
      · rintro rfl
        exact number?_inj hg hf
      · rintro rfl
        exact Option.some.inj (hf.symm.trans hg)
    rw [slot?_eq (number?_marked.trans hg), slot?_eq hg, getElem?_marked]
    simp only [hij]

theorem page_marked (hf : p.number? f = some i) : (p.marked i inUse free).page g = p.page g := by
  rw [page, page, slot?_marked hf]
  rcases p.slot? g with _ | s
  · rfl
  · rw [Option.map_some, Option.elim_some, Option.elim_some]
    split <;> rfl

theorem isTaken_marked (hf : p.number? f = some i) :
    (p.marked i inUse free).isTaken g = if g = f then inUse else p.isTaken g := by
  rw [isTaken_eq_any, isTaken_eq_any, slot?_marked hf]
  rcases eq_or_ne g f with rfl | hgf
  · obtain ⟨s, hs⟩ := exists_slot hf
    rw [slot?_eq hf, hs, if_pos rfl]
    simp
  · simp only [if_neg hgf, Option.map_id']

/-- The first frame that will do is found, unless none will. -/
theorem pick_cases {ok : Nat → Except Fault Bool} {indices : List Nat}
    (h : ∀ i ∈ indices, ∃ b, ok i = .ok b) :
    pick ok indices = .ok none ∨
      ∃ i rest, pick ok indices = .ok (some (i, rest)) ∧ indices.Perm (i :: rest) := by
  induction indices with
  | nil => exact Or.inl rfl
  | cons i rest ih =>
    obtain ⟨b, hb⟩ := h i List.mem_cons_self
    cases b with
    | true =>
      refine Or.inr ⟨i, rest, ?_, List.Perm.refl _⟩
      simp only [pick, hb]
      rfl
    | false =>
      -- a frame that is passed over stays on the list, in front of the others
      rcases ih fun j hj => h j (List.mem_cons_of_mem i hj) with hnone | ⟨j, others, hsome, hperm⟩
      · left
        simp only [pick, hb, hnone]
        rfl
      · right
        refine ⟨j, i :: others, ?_, (hperm.cons i).trans (List.Perm.swap j i others)⟩
        simp only [pick, hb, hsome]
        rfl

theorem Sound.suits (hp : p.Sound) (policy : FramePolicy) (h : i ∈ p.free) :
    ∃ b, p.suits policy i = .ok b := by
  obtain ⟨s, hs, -⟩ := (hp.mem_free i).1 h
  obtain ⟨hlt, -⟩ := Array.getElem?_eq_some_iff.1 hs
  obtain ⟨f, hf, -⟩ := hp.frameAt hlt
  rw [Pool.suits, hf]
  split
  · exact ⟨_, rfl⟩
  · exact ⟨true, rfl⟩

/-- A frame of the free list, taken off it. -/
theorem Listed.marked_true (hp : p.Listed) (hperm : p.free.Perm (i :: free)) :
    (p.marked i true free).Listed := by
  have hnodup := hperm.nodup_iff.1 hp.nodup
  rw [List.nodup_cons] at hnodup
  refine ⟨hnodup.2, fun j => ?_⟩
  change j ∈ free ↔ _
  have hmem := hp.mem_free j
  rw [hperm.mem_iff, List.mem_cons] at hmem
  rw [getElem?_marked]
  rcases eq_or_ne i j with rfl | hij
  · simp [hnodup.1]
  · have hmem' : j ∈ free ↔ ∃ s, p.slots[j]? = some s ∧ s.inUse = false := by
      rw [← hmem]
      simp [Ne.symm hij]
    rw [hmem']
    simp [hij]

theorem Sound.marked_true (hp : p.Sound) (hperm : p.free.Perm (i :: free)) :
    (p.marked i true free).Sound := by
  have hlisted := hp.listed.marked_true hperm
  refine ⟨?_, hlisted.nodup, hlisted.mem_free⟩
  rw [marked_size]
  exact hp.below

/-- A frame put back on the free list. -/
theorem Listed.marked_false (hp : p.Listed) (hf : p.number? f = some i) (h : p.isTaken f = true) :
    (p.marked i false (i :: p.free)).Listed := by
  obtain ⟨s, hs⟩ := exists_slot hf
  have hused : s.inUse = true := by
    rw [isTaken_eq_any, slot?_eq hf, hs] at h
    exact h
  refine ⟨List.nodup_cons.2 ⟨?_, hp.nodup⟩, fun j => ?_⟩
  · rw [hp.mem_free]
    rintro ⟨t, ht, hfree⟩
    rw [hs, Option.some.injEq] at ht
    rw [← ht, hused] at hfree
    cases hfree
  · change j ∈ i :: p.free ↔ _
    rw [List.mem_cons, hp.mem_free, getElem?_marked]
    rcases eq_or_ne i j with rfl | hij
    · simp [hs]
    · simp [hij, Ne.symm hij]

theorem Sound.marked_false (hp : p.Sound) (hf : p.number? f = some i) (h : p.isTaken f = true) :
    (p.marked i false (i :: p.free)).Sound := by
  have hlisted := hp.listed.marked_false hf h
  refine ⟨?_, hlisted.nodup, hlisted.mem_free⟩
  rw [marked_size]
  exact hp.below

/-- Nothing changed hands, and at most these frames were written. -/
structure Wrote (p : Pool) (frames : List PageFrame) (q : Pool) : Prop where
  sound : q.Sound
  base : q.base = p.base
  size : q.slots.size = p.slots.size
  taken : ∀ g, q.isTaken g = p.isTaken g
  page : ∀ g, g ∉ frames → q.page g = p.page g

theorem Wrote.refl (hp : p.Sound) {frames : List PageFrame} : p.Wrote frames p where
  sound := hp
  base := rfl
  size := rfl
  taken _ := rfl
  page _ _ := rfl

theorem Wrote.rewrite (hp : p.Sound) {frames : List PageFrame} (hf : f ∈ frames) :
    p.Wrote frames (p.rewrite f change) where
  sound := hp.rewrite
  base := rewrite_base
  size := rewrite_size
  taken _ := isTaken_rewrite
  page _ hg := page_rewrite_of_ne fun he => hg (he ▸ hf)

/-- The same frames are in use with the same contents. -/
abbrev Alike (p q : Pool) : Prop := p.Wrote [] q

theorem Wrote.page_eq {q : Pool} (h : p.Alike q) (g : PageFrame) : q.page g = p.page g :=
  h.page g List.not_mem_nil

/-- What handing out `f` makes of the pool `p`. -/
structure Handed (p : Pool) (f : PageFrame) (q : Pool) : Prop where
  sound : q.Sound
  base : q.base = p.base
  size : q.slots.size = p.slots.size
  fresh : p.isTaken f = false
  taken : ∀ g, q.isTaken g = if g = f then true else p.isTaken g
  page : ∀ g, g ≠ f → q.page g = p.page g

/-- What taking `f` back makes of the pool `p`. -/
structure Returned (p : Pool) (f : PageFrame) (q : Pool) : Prop where
  sound : q.Sound
  base : q.base = p.base
  size : q.slots.size = p.slots.size
  taken : ∀ g, q.isTaken g = if g = f then false else p.isTaken g
  page : ∀ g, q.page g = p.page g

/-- Handing out a frame leaves alone those that are in use. -/
theorem Handed.page_eq {q : Pool} (h : Handed p f q) (hg : p.isTaken g = true) :
    q.page g = p.page g := by
  apply h.page
  rintro rfl
  rw [h.fresh] at hg
  cases hg

/-- Frames that are in use, stay so and keep what is in them. -/
structure Leaves (p : Pool) (F : PageFrame → Prop) (q : Pool) : Prop where
  sound : q.Sound
  base : q.base = p.base
  size : q.slots.size = p.slots.size
  taken : ∀ g, F g → q.isTaken g = true
  page : ∀ g, F g → q.page g = p.page g

theorem Leaves.mono {q : Pool} {F F' : PageFrame → Prop} (h : p.Leaves F q)
    (hF : ∀ g, F' g → F g) : p.Leaves F' q where
  sound := h.sound
  base := h.base
  size := h.size
  taken g hg := h.taken g (hF g hg)
  page g hg := h.page g (hF g hg)

theorem Handed.leaves {q : Pool} (h : Handed p f q) : p.Leaves (p.isTaken · = true) q where
  sound := h.sound
  base := h.base
  size := h.size
  taken g hg := by
    rw [h.taken]
    split
    · rfl
    · exact hg
  page _ hg := h.page_eq hg

theorem Wrote.leaves {q : Pool} (h : p.Alike q) : p.Leaves (p.isTaken · = true) q where
  sound := h.sound
  base := h.base
  size := h.size
  taken g hg := (h.taken g).trans hg
  page g _ := h.page_eq g

theorem Returned.leaves {q : Pool} (h : Returned p f q) :
    p.Leaves (fun g => p.isTaken g = true ∧ g ≠ f) q where
  sound := h.sound
  base := h.base
  size := h.size
  taken g hg := by rw [h.taken, if_neg hg.2, hg.1]
  page g _ := h.page g

/-- A budget is no matter of frames. -/
theorem Sound.alike_withBudget (hp : p.Sound) (budget : Option Nat) :
    Alike p { p with budget := budget } where
  sound := ⟨hp.below, hp.nodup, hp.mem_free⟩
  base := rfl
  size := rfl
  taken g := by
    rw [isTaken_eq_any, isTaken_eq_any]
    rfl
  page _ _ := rfl

/-- The pool that has handed out frame `f`, the one of number `i`. -/
theorem Sound.handed (hp : p.Sound) (hperm : p.free.Perm (i :: free)) (hf : p.number? f = some i) :
    Handed p f (p.marked i true free) where
  sound := hp.marked_true hperm
  base := rfl
  size := marked_size
  fresh := by
    obtain ⟨s, hs, hfree⟩ := (hp.mem_free i).1 (hperm.mem_iff.2 List.mem_cons_self)
    rw [isTaken_eq_any, slot?_eq hf, hs]
    exact hfree
  taken _ := isTaken_marked hf
  page _ _ := page_marked hf

theorem Handed.rewrite {q : Pool} (h : Handed p f q) : Handed p f (q.rewrite f change) where
  sound := h.sound.rewrite
  base := rewrite_base.trans h.base
  size := rewrite_size.trans h.size
  fresh := h.fresh
  taken g := isTaken_rewrite.trans (h.taken g)
  page g hg := (page_rewrite_of_ne hg).trans (h.page g hg)

theorem Handed.of_alike {q u : Pool} (h : Handed q f u) (hpq : Alike p q) : Handed p f u where
  sound := h.sound
  base := h.base.trans hpq.base
  size := h.size.trans hpq.size
  fresh := (hpq.taken f).symm.trans h.fresh
  taken g := by rw [h.taken, hpq.taken]
  page g hg := (h.page g hg).trans (hpq.page_eq g)

theorem spend_ends (hp : p.Sound) : Yields spend p fun _ q => Alike p q := by
  obtain ⟨base, slots, free, budget⟩ := p
  rcases budget with _ | _ | n
  · exact hp.alike_withBudget none
  · exact hp.alike_withBudget (some 0)
  · exact hp.alike_withBudget (some n)

/-- The answer is a frame that was not in use and is now, or that there is none. -/
theorem take_ends (hp : p.Sound) (policy : FramePolicy) :
    Yields (take policy) p fun answer q =>
      match answer with
      | none => Alike p q
      | some f => Handed p f q := by
  refine Ends.bind (spend_ends hp) ?_
  intro goOn q hpq
  have hq := hpq.sound
  cases goOn with
  | false => exact Ends.pure hpq
  | true =>
    refine Ends.bind_get ?_
    rcases pick_cases fun i hi => hq.suits policy hi with hnone | ⟨i, rest, hsome, hperm⟩
    · refine Ends.bind_lift hnone ?_
      exact Ends.pure hpq
    · obtain ⟨s, hs, -⟩ := (hq.mem_free i).1 (hperm.mem_iff.2 List.mem_cons_self)
      obtain ⟨hlt, -⟩ := Array.getElem?_eq_some_iff.1 hs
      obtain ⟨f, hat, hf⟩ := hq.frameAt hlt
      have hhanded : Handed p f (q.marked i true rest) := (hq.handed hperm hf).of_alike hpq
      refine Ends.bind_lift hsome ?_
      refine Ends.bind_modify ?_
      refine Ends.bind_lift hat ?_
      by_cases hzero : policy.has .zero = true
      · simp only [hzero, if_true]
        exact Ends.bind_ok (zero_eq (number?_marked.trans hf)) (Ends.pure hhanded.rewrite)
      · simp only [hzero]
        exact Ends.pure hhanded

/-! ### How long frames last -/

/-- How many more requests will be granted, if any frame will do for them. -/
def supply (p : Pool) : Nat :=
  match p.budget with
  | none => p.free.length
  | some n => min n p.free.length

@[simp] theorem supply_rewrite : (p.rewrite f change).supply = p.supply := by
  rw [supply, supply, rewrite_budget, rewrite_free]

/-- Where any frame will do, the first one is picked. -/
theorem pick_of_all {ok : Nat → Except Fault Bool} (h : ∀ i, ok i = .ok true) (indices : List Nat) :
    pick ok indices = .ok (match indices with | [] => none | i :: rest => some (i, rest)) := by
  cases indices with
  | nil => rfl
  | cons i rest =>
    simp only [pick, h]
    rfl

theorem supply_eq_zero (h : p.free = []) : p.supply = 0 := by
  rw [supply, h]
  split
  · rfl
  · exact Nat.min_zero _

/-- A request that may go on has been counted, and there is one frame less when it is granted. -/
theorem spend_supply (p : Pool) : Yields spend p fun goOn q => q.free = p.free ∧
    if goOn then ∀ i rest, p.free = i :: rest → p.supply = (q.marked i true rest).supply + 1
    else p.supply = 0 ∧ q.supply = 0 := by
  obtain ⟨base, slots, free, budget⟩ := p
  rcases budget with _ | _ | n
  · refine ⟨rfl, ?_⟩
    rintro i rest rfl
    rfl
  · exact ⟨rfl, Nat.zero_min _, Nat.zero_min _⟩
  · refine ⟨rfl, ?_⟩
    rintro i rest rfl
    exact (Nat.succ_min_succ n rest.length)

/-- A request that any frame will do for is granted unless the supply is used up. -/
theorem take_supply (hp : p.Sound) {policy : FramePolicy} (hpolicy : policy.has .lowMemory = false) :
    Yields (take policy) p fun answer q =>
      match answer with
      | none => p.supply = 0 ∧ q.supply = 0
      | some _ => p.supply = q.supply + 1 := by
  refine Ends.bind ((spend_ends hp).and (spend_supply p)) ?_
  rintro goOn q ⟨hpq, hfree, hspent⟩
  cases goOn with
  | false => exact Ends.pure hspent
  | true =>
    refine Ends.bind_get ?_
    have hsuits : ∀ i, q.suits policy i = .ok true := fun i => by
      rw [suits, if_neg (by rw [hpolicy]; decide)]
    refine Ends.bind_lift (pick_of_all hsuits q.free) ?_
    cases hlist : q.free with
    | nil => exact Ends.pure ⟨supply_eq_zero (hfree.symm.trans hlist), supply_eq_zero hlist⟩
    | cons i rest =>
      have hi : i ∈ q.free := by
        rw [hlist]
        exact List.mem_cons_self
      obtain ⟨s, hs, -⟩ := (hpq.sound.mem_free i).1 hi
      obtain ⟨hlt, -⟩ := Array.getElem?_eq_some_iff.1 hs
      obtain ⟨f, hat, hf⟩ := hpq.sound.frameAt hlt
      have hsupply := hspent i rest (hfree.symm.trans hlist)
      refine Ends.bind_modify ?_
      refine Ends.bind_lift hat ?_
      by_cases hzero : policy.has .zero = true
      · simp only [hzero, if_true]
        exact Ends.bind_ok (zero_eq (number?_marked.trans hf))
          (Ends.pure (hsupply.trans (congrArg (· + 1) supply_rewrite.symm)))
      · simp only [hzero]
        exact Ends.pure hsupply

/-- The pool that has taken back frame `f`, the one of number `i`. -/
theorem Sound.returned (hp : p.Sound) (hf : p.number? f = some i) (h : p.isTaken f = true) :
    Returned p f (p.marked i false (i :: p.free)) where
  sound := hp.marked_false hf h
  base := rfl
  size := marked_size
  taken _ := isTaken_marked hf
  page _ := page_marked hf

/-- A frame that is in use is taken back. -/
theorem giveBack_ends (hp : p.Sound) (h : p.isTaken f = true) :
    Yields (giveBack f) p fun _ q => Returned p f q := by
  obtain ⟨i, hf⟩ := exists_number?_of_isTaken h
  have hindex := indexOf?_of_number? hf
  have hused : (p.slots[i]?).any Slot.inUse = true := by
    rw [← slot?_eq hf, ← isTaken_eq_any]
    exact h
  rw [Array.getElem?_eq_getElem (number?_lt hf), Option.any_some] at hused
  refine Ends.bind_get ?_
  simp only [hindex, Fin.getElem_fin, hused, if_true]
  exact hp.returned hf h

/-! ## Frames known to be there -/

/-- The pool has memory for the frame. -/
def Has (p : Pool) (f : PageFrame) : Prop := ∃ i, p.number? f = some i

theorem has_of_isTaken (h : p.isTaken f = true) : p.Has f := exists_number?_of_isTaken h

theorem Has.congr {q : Pool} (h : p.Has f) (hbase : q.base = p.base)
    (hsize : q.slots.size = p.slots.size) : q.Has f := by
  obtain ⟨i, hi⟩ := h
  exact ⟨i, (number?_congr hbase hsize).trans hi⟩

/-- A store shows in one word. -/
theorem getElem_page_store (h : p.Has f) (g : PageFrame) (i j : TableIndex) (w : UInt64) :
    ((p.rewrite f fun page => page.set i w i.isLt).page g).get j =
      if g = f ∧ j = i then w else (p.page g).get j := by
  obtain ⟨k, hk⟩ := h
  rcases eq_or_ne g f with rfl | hgf
  · rw [page_rewrite_self hk, Page.get_set]
    simp only [true_and]
  · rw [page_rewrite_of_ne hgf, if_neg fun he => hgf he.1]

theorem Handed.isTaken {q : Pool} (h : Handed p f q) : q.isTaken f = true := by
  rw [h.taken, if_pos rfl]

/-! ## New pools -/

section

variable {base : PageFrame} {count : Nat}

theorem getElem?_create {s : Slot} (h : (create base count).slots[i]? = some s) :
    i < count ∧ s.inUse = false := by
  obtain ⟨hi, rfl⟩ := Array.getElem?_eq_some_iff.1 h
  have hlt : i < count := by simpa [create] using hi
  exact ⟨hlt, by simp [create]⟩

/-- All frames of a new pool are free. -/
theorem listed_create : (create base count).Listed where
  nodup := List.nodup_range
  mem_free i := by
    constructor
    · intro hi
      have hlt : i < count := List.mem_range.1 hi
      exact ⟨⟨Page.zero, false⟩, by simp [create, hlt], rfl⟩
    · rintro ⟨s, hs, -⟩
      exact List.mem_range.2 (getElem?_create hs).1

/-- A new pool is sound as long as its frames have numbers that fit in entries. -/
theorem sound_create (h : base.base.val.toNat + count * 4096 ≤ 2 ^ 52) :
    (create base count).Sound where
  below := by simpa [create] using h
  nodup := listed_create.nodup
  mem_free := listed_create.mem_free

theorem isTaken_create (f : PageFrame) : (create base count).isTaken f = false := by
  rw [isTaken_eq_any, slot?]
  cases (create base count).number? f with
  | none => rfl
  | some i =>
    rw [Option.bind_some]
    cases hs : (create base count).slots[i]? with
    | none => rfl
    | some s => exact (getElem?_create hs).2

theorem page_create (f : PageFrame) : (create base count).page f = Page.zero := by
  rw [page, slot?]
  cases (create base count).number? f with
  | none => rfl
  | some i =>
    rw [Option.bind_some]
    cases hs : (create base count).slots[i]? with
    | none => rfl
    | some s =>
      obtain ⟨hi, rfl⟩ := Array.getElem?_eq_some_iff.1 hs
      simp [create]

end

end Pool

/-! ## Machines -/

namespace Machine

variable {back : Backdrop} {front : Front} {p : Pool} {f : PageFrame} {es : List Event}

/-- The front can spare a frame its clearing, and changes nothing else. -/
theorem takeFrame_of_take {policy : FramePolicy} {Q : Option PageFrame → Pool → Prop}
    (h : ∀ keeps : Bool,
      Yields (Pool.take (if keeps then policy else policy.set .zero false)) p Q) :
    Does back (takeFrame policy) p Q := by
  refine Does.bind_emit (Runs.bind_get fun m _ _ => ?_)
  refine Runs.bind (Does.onPool (h m.front.keepsZeroWish)) ?_
  intro answer q h
  cases answer with
  | none => exact Runs.pure h
  | some f => exact Does.bind_emit (Runs.pure h)

theorem takeFrame_does (hp : p.Sound) (policy : FramePolicy) :
    Does back (takeFrame policy) p fun answer q =>
      match answer with
      | none => Pool.Alike p q
      | some f => Pool.Handed p f q :=
  takeFrame_of_take fun _ => Pool.take_ends hp _

theorem returnFrame_runs (hp : p.Sound) (h : p.isTaken f = true)
    {E : Fault → Pool × List Event → Prop} :
    Runs Machine.noted front (returnFrame f) (p, es)
      (fun _ t => Pool.Returned p f t.1 ∧ t.2 = es ++ [.returned f]) E := by
  refine Does.bind_noted (Does.onPool (Pool.giveBack_ends hp h)) ?_
  intro _ q hq
  exact Runs.emit ⟨hq, rfl⟩

theorem zero_does (h : p.Has f) :
    Does back (onPool (Pool.zero f)) p fun _ q => q = p.rewrite f fun _ => Page.zero := by
  obtain ⟨i, hi⟩ := h
  exact Does.onPool (Ends.of_ok (Pool.zero_eq hi) rfl)

theorem setWord_does (h : p.Has f) (k : TableIndex) (w : UInt64) :
    Does back (onPool (Pool.setWord f k w)) p fun _ q =>
      q = p.rewrite f fun page => page.set k w k.isLt := by
  obtain ⟨i, hi⟩ := h
  exact Does.onPool (Ends.of_ok (Pool.setWord_eq hi k w) rfl)

theorem word_does (h : p.Has f) (k : TableIndex) :
    Does back (onPool (Pool.word f k)) p fun w q => w = (p.page f).get k ∧ q = p := by
  obtain ⟨i, hi⟩ := h
  exact Does.onPool (Ends.of_ok (Pool.word_eq hi k) ⟨rfl, rfl⟩)

end Machine

end PagedMemory
