import PagedMemory.Level
import PagedMemory.Policy

/-!
# Pools of frames

A pool is a stretch of physical memory whose frames are handed out and given back one by one.

* `Page`: what is in a frame, as 512 words; `Page.byte` and `Page.storeBytes` see it as bytes,
  the lowest byte of a word first.
* `Pool`: the contents of the frames, which of them are in use, and the free ones in the order in
  which they will be handed out: the one that came back last goes first.
* `Pool.take`, `Pool.giveBack`: frames change hands.
* `Pool.word`, `Pool.setWord`, `Pool.bytes`, `Pool.setBytes`, `Pool.zero`: access to memory, which
  is a fault outside the pool.

A pool can be told to refuse: with `budget = some n` only `n` more requests are looked at.
-/

namespace PagedMemory

open Layout

/-! ## The content of a frame -/

/-- The words of a frame, the one at the lowest address first. -/
abbrev Page := Vector UInt64 entriesPerTable

namespace Page

def zero : Page := Vector.replicate entriesPerTable 0

/-- The number of words that are not zero. -/
def populated (p : Page) : Nat := p.toList.countP (· != 0)

/-- The word that holds byte `k`. -/
def wordOf (k : Nat) : TableIndex := ⟨k / 8 % entriesPerTable, Nat.mod_lt _ (by decide)⟩

/-- How far byte `k` is from the low end of its word. -/
def shiftOf (k : Nat) : UInt64 := UInt64.ofNat (8 * (k % 8))

/-- The byte at offset `k`. -/
def byte (p : Page) (k : Nat) : UInt8 := (p[wordOf k] >>> shiftOf k).toUInt8

/-- Replaces the byte at offset `k`. -/
def storeByte (p : Page) (k : Nat) (b : UInt8) : Page :=
  let i := wordOf k
  let w := p[i]
  p.set i ((w &&& ~~~(0xff <<< shiftOf k)) ||| (b.toUInt64 <<< shiftOf k))

/-- Replaces the bytes from offset `k` on. -/
def storeBytes (p : Page) (k : Nat) : List UInt8 → Page
  | [] => p
  | b :: bs => storeBytes (p.storeByte k b) (k + 1) bs

end Page

/-! ## Pools -/

/-- A frame as the pool sees it. -/
structure Slot where
  content : Page
  inUse : Bool

structure Pool where
  /-- the first frame -/
  base : PageFrame
  slots : Array Slot
  /-- the numbers of the free frames; the first one is handed out next -/
  free : List Nat
  /-- how many more requests are looked at, if not all -/
  budget : Option Nat

namespace Pool

/-- A pool of `count` zero frames from `base` on, all free; the lowest is handed out first. -/
def create (base : PageFrame) (count : Nat) : Pool where
  base := base
  slots := Array.replicate count ⟨Page.zero, false⟩
  free := List.range count
  budget := none

/-- A pool starts on a page boundary. -/
def createAt (base : PhysAddr) (count : Nat) : Except Fault Pool :=
  match PageFrame.ofAddr? base with
  | some f => .ok (create f count)
  | none => .error .misalignedPool

/-- The number of frames that are not free. -/
def inUseCount (p : Pool) : Nat := p.slots.size - p.free.length

/-- The frame of number `i`, whether the pool has so many or not. -/
def frameAt (p : Pool) (i : Nat) : Except Fault PageFrame := p.base.following i

/-- The number of the frame that holds `a`, if it is in the pool. -/
def indexOf? (p : Pool) (a : PhysAddr) : Option (Fin p.slots.size) :=
  match Word.sub? a.val p.base.base.val with
  | none => none
  | some offset =>
    let i := (offset / pageSize).toNat
    if h : i < p.slots.size then some ⟨i, h⟩ else none

/-- Whether the frame is handed out at present. -/
def isTaken (p : Pool) (f : PageFrame) : Bool :=
  match p.indexOf? f.base with
  | some i => p.slots[i].inUse
  | none => false

/-- Lets only `n` more requests succeed. -/
def failAfter (p : Pool) (n : Nat) : Pool := { p with budget := some n }

/-- Lets all requests succeed for which there is a frame. -/
def clearFailure (p : Pool) : Pool := { p with budget := none }

def modifyContent (p : Pool) (i : Nat) (change : Page → Page) : Pool :=
  { p with slots := p.slots.modify i fun s => { s with content := change s.content } }

def setInUse (p : Pool) (i : Nat) (inUse : Bool) : Pool :=
  { p with slots := p.slots.modify i fun s => { s with inUse } }

end Pool

/-- An operation on a pool. -/
abbrev PoolM := EStateM Fault Pool

namespace Pool

/-- The first frame of the list that `ok` accepts, and the list without it. -/
def pick (ok : Nat → Except Fault Bool) : List Nat → Except Fault (Option (Nat × List Nat))
  | [] => .ok none
  | i :: rest => do
    if ← ok i then return some (i, rest)
    match ← pick ok rest with
    | none => return none
    | some (j, others) => return some (j, i :: others)

/-- Whether frame `i` will do for a request under `policy`. -/
def suits (p : Pool) (policy : FramePolicy) (i : Nat) : Except Fault Bool :=
  if policy.has .lowMemory then do return (← p.frameAt i).base.val < lowMemoryLimit
  else .ok true

/-- The number of the frame that holds `a`; it is a fault if there is no memory there. -/
def locate (a : PhysAddr) : PoolM Nat := do
  match (← get).indexOf? a with
  | some i => return i
  | none => throw (.noMemory a)

/-- Fills a frame with zeros. -/
def zero (f : PageFrame) : PoolM Unit := do
  let i ← locate f.base
  modify (·.modifyContent i fun _ => Page.zero)

/-- Counts a request against the budget; whether it may go on. -/
def spend : PoolM Bool := do
  match (← get).budget with
  | none => return true
  | some 0 => return false
  | some (n + 1) =>
    modify ({ · with budget := some n })
    return true

/-- Hands out a frame that suits `policy`. A request that the budget lets pass is counted even
if no frame suits it. -/
def take (policy : FramePolicy) : PoolM (Option PageFrame) := do
  if ← spend then
    let p ← get
    match ← pick (p.suits policy) p.free with
    | none => return none
    | some (i, rest) =>
      modify fun (p : Pool) => { p.setInUse i true with free := rest }
      let f ← p.frameAt i
      if policy.has .zero then zero f
      return some f
  else return none

/-- Takes a frame back. It has to be one of the pool's that is in use. -/
def giveBack (f : PageFrame) : PoolM Unit := do
  let p ← get
  match p.indexOf? f.base with
  | none => throw (.foreignFrame f)
  | some i =>
    if p.slots[i].inUse then
      modify fun (p : Pool) => { p.setInUse i false with free := i.val :: p.free }
    else throw (.doubleFree f)

/-- The word of number `i` in a frame. -/
def word (f : PageFrame) (i : TableIndex) : PoolM UInt64 := do
  let p ← get
  match p.indexOf? f.base with
  | some k => return p.slots[k].content[i]
  | none => throw (.noMemory f.base)

def setWord (f : PageFrame) (i : TableIndex) (w : UInt64) : PoolM Unit := do
  let k ← locate f.base
  modify (·.modifyContent k (·.set i w))

/-- The `count` bytes from `a` on, all of which have to lie in one frame. -/
def bytes (a : PhysAddr) (count : Nat) : PoolM (List UInt8) := do
  let offset := a.pageOffset.toNat
  if offset + count ≤ pageSize.toNat then
    let p ← get
    match p.indexOf? a with
    | some i => return (List.range' offset count).map p.slots[i].content.byte
    | none => throw (.noMemory a)
  else throw (.crossesFrame .load)

/-- Stores bytes from `a` on, all in one frame. -/
def setBytes (a : PhysAddr) (data : List UInt8) : PoolM Unit := do
  let offset := a.pageOffset.toNat
  if offset + data.length ≤ pageSize.toNat then
    let i ← locate a
    modify (·.modifyContent i (·.storeBytes offset data))
  else throw (.crossesFrame .store)

end Pool

end PagedMemory
