import PagedMemory.Walk

/-!
# Arrays of frame handles

An area remembers the frames it owns in an array of handles. A short array is kept beside the
area; a long one lies in frames of its own, which some other area makes contiguous. There a
handle is a word: the address of the frame, whose lowest bits are all zero, with the lowest bit
set to tell it from a word that was never written.

* `HandleArray.get?`, `HandleArray.store`: one handle. Storing checks its place: a short array is
  filled front to back and never beyond its room, a long one has a place for each of its handles.
* `HandleArray.source`: the first handles, one by one, up to the first that is missing.
-/

namespace PagedMemory

open Layout Machine

inductive HandleArray where
  /-- the array of an area that owns no frames -/
  | empty
  /-- an array beside its area, with room for `capacity` handles -/
  | inline (capacity : Nat) (frames : Array PageFrame)
  /-- an array of `length` handles in the frames `backing`, which the area at `base` owns -/
  | mapped (base : VirtAddr) (length : Nat) (backing : Array PageFrame)
  deriving Inhabited

/-- A frame has room for this many handles. -/
abbrev handlesPerFrame : Nat := entriesPerTable

namespace HandleArray

/-- An array that fits in one frame's worth of room is kept beside its area. -/
def fitsInline (count : Nat) : Bool := count ≤ handlesPerFrame

/-- The room that `count` handles take. -/
def bytesFor (count : Nat) : Except Fault UInt64 := Word.mul (UInt64.ofNat count) 8

/-- The area that makes the array contiguous. -/
def base? : HandleArray → Option VirtAddr
  | empty => none
  | inline _ _ => none
  | mapped base _ _ => some base

/-- The word that stands for a frame. -/
def encode (f : PageFrame) : UInt64 := f.base.val ||| 1

/-- The frame that a word stands for. A word with its lowest bit clear stands for none; one whose
other low bits are not clear is none that was ever written. -/
def decode (w : UInt64) : Except Fault (Option PageFrame) :=
  if w &&& 1 = 0 then .ok none else return some (← PageFrame.ofAddr ⟨w &&& ~~~1⟩)

/-- The frame that holds handle `i`. -/
def frameOf (backing : Array PageFrame) (i : Nat) : Except Fault PageFrame :=
  match backing[i / handlesPerFrame]? with
  | some f => .ok f
  | none => .error (.outOfRange backing.size (i / handlesPerFrame))

/-- The place of handle `i` in its frame. -/
def slotOf (i : Nat) : TableIndex := ⟨i % handlesPerFrame, Nat.mod_lt _ (by decide)⟩

/-- The handle of number `i`, if it was ever stored. -/
def get? (array : HandleArray) (i : Nat) : MachineM (Option PageFrame) :=
  match array with
  | empty => return none
  | inline _ frames => return frames[i]?
  | mapped _ length backing => do
    if i < length then decode (← Pool.word (← frameOf backing i) (slotOf i)) else return none

/-- Puts `f` behind the frames that are there. It has to be the next one, number `i`, and there
has to be room for it. -/
def pushAt (frames : Array PageFrame) (capacity i : Nat) (f : PageFrame) :
    Except Fault (Array PageFrame) :=
  if i ≠ frames.size then .error (.storedOutOfOrder i frames.size)
  else if frames.size < capacity then .ok (frames.push f)
  else .error .arrayFull

/-- Stores the handle of number `i`. -/
def store (array : HandleArray) (i : Nat) (f : PageFrame) : MachineM HandleArray :=
  match array with
  | empty => do
    report (.handleDropped f)
    return array
  | inline capacity frames => return inline capacity (← pushAt frames capacity i f)
  | mapped _ length backing =>
    if i < length then do
      Pool.setWord (← frameOf backing i) (slotOf i) (encode f)
      return array
    else throw .noSuchHandle

/-- The first `count` handles as a source of frames. -/
def source (array : HandleArray) (count : Nat) : FrameSource := fun i =>
  if i < count then array.get? i else return none

/-- The next `count` handles from number `i` on, up to the first that is missing. -/
def toListFrom (array : HandleArray) : Nat → Nat → MachineM (List PageFrame)
  | 0, _ => return []
  | n + 1, i => do
    match ← array.get? i with
    | none => return []
    | some f => return f :: (← toListFrom array n (i + 1))

/-- The first `count` handles, up to the first that is missing. -/
def toList (array : HandleArray) (count : Nat) : MachineM (List PageFrame) :=
  array.toListFrom count 0

end HandleArray

end PagedMemory
