import PagedMemory.Entry

/-!
# Levels of tables

A page table is a tree of four levels. A table of each level but the lowest points to tables of
the next one; those of the lowest point to pages.

* `Level.span`: how many addresses one entry stands for.
* `Level.index`: which entry stands for an address.
* `Level.nextBoundary?`: where the next entry begins.
* `Level.descend`: recursion from a level down to the lowest.
* `Interval.foldPieces`: visits a range entry by entry, and `Interval.pieces`: the parts it visits.
-/

namespace PagedMemory

open Layout

/-- The number of an entry in its table. -/
abbrev TableIndex := Fin entriesPerTable

/-- The entry of number `n`; a table does not go on after its last entry. -/
def TableIndex.ofNat (n : Nat) : Except Fault TableIndex :=
  if h : n < entriesPerTable then .ok ⟨n, h⟩ else .error .noSuchEntry

inductive Level where
  | pml4
  | pdpt
  | pd
  | pt
  deriving DecidableEq, Inhabited

namespace Level

def name : Level → String
  | pml4 => "pml4"
  | pdpt => "pdpt"
  | pd => "pd"
  | pt => "pt"

/-- One entry stands for `2 ^ shift` addresses. -/
def shift : Level → UInt64
  | pml4 => 39
  | pdpt => 30
  | pd => 21
  | pt => 12

def span (l : Level) : UInt64 := 1 <<< l.shift

/-- The level of the tables that a table of this level points to. -/
def next? : Level → Option Level
  | pml4 => some pdpt
  | pdpt => some pd
  | pd => some pt
  | pt => none

/-- Whether the entries of this level map pages. -/
def isLeaf (l : Level) : Bool := l.next?.isNone

/-- Which entry of a table stands for `a`. -/
def index (l : Level) (a : VirtAddr) : TableIndex :=
  ⟨((a.val >>> l.shift) &&& 0x1ff).toNat, by
    have h : ((a.val >>> l.shift) &&& 0x1ff).toNat ≤ 0x1ff := by
      rw [UInt64.toNat_and]
      exact Nat.and_le_right
    exact Nat.lt_succ_of_le h⟩

/-- The first address after `a` that another entry stands for; none at the top of the address
space. -/
def nextBoundary? (l : Level) (a : VirtAddr) : Option VirtAddr :=
  (VirtAddr.mk (Word.alignDown a.val l.span)).add? l.span

/-- Recursion over the levels: `leaf` for the lowest, `inner` for a level above what the next
lower one got. -/
def descend {α : Sort u} (leaf : α) (inner : Level → α → α) : Level → α
  | pt => leaf
  | pd => inner pd leaf
  | pdpt => inner pdpt (inner pd leaf)
  | pml4 => inner pml4 (inner pdpt (inner pd leaf))

/-- The equation that `descend` stands for. -/
theorem descend_eq {α : Sort u} (leaf : α) (inner : Level → α → α) (l : Level) :
    descend leaf inner l = match l.next? with
      | none => leaf
      | some below => inner l (descend leaf inner below) := by
  cases l <;> rfl

end Level

/-! ## Ranges, entry by entry -/

namespace Interval

/-- Whether both ends lie on page boundaries. -/
def isAligned (r : Interval) : Bool := r.start.isAligned && r.stop.isAligned

/-- Where the first piece of the range ends: at the next boundary, or with the range. -/
def firstStop (r : Interval) (l : Level) : VirtAddr :=
  match l.nextBoundary? r.start with
  | some b => if b.val < r.stop.val then b else r.stop
  | none => r.stop

/-- The number of entries of level `l` that stand for addresses of the range. -/
def pieceCount (r : Interval) (l : Level) : Nat :=
  if r.start.val < r.stop.val then
    (((r.stop.val - 1) >>> l.shift) - (r.start.val >>> l.shift)).toNat + 1
  else 0

/-- The first `n` parts into which the boundaries of level `l` cut the range. -/
def piecesUpTo (l : Level) (stop : VirtAddr) : Nat → VirtAddr → List Interval
  | 0, _ => []
  | n + 1, start =>
    let cut := (Interval.mk start stop).firstStop l
    ⟨start, cut⟩ :: piecesUpTo l stop n cut

/-- The parts into which the boundaries of level `l` cut the range, in address order. One entry
stands for all addresses of a part. -/
def pieces (r : Interval) (l : Level) : List Interval :=
  piecesUpTo l r.stop (r.pieceCount l) r.start

/-- Runs `visit` on the next `n` parts and adds its answers to `sum`. -/
@[specialize]
def foldUpTo {m : Type → Type} [Monad m] (l : Level) (stop : VirtAddr) (visit : Interval → m Nat) :
    Nat → VirtAddr → Nat → m Nat
  | 0, _, sum => pure sum
  | n + 1, start, sum => do
    let cut := (Interval.mk start stop).firstStop l
    let k ← visit ⟨start, cut⟩
    foldUpTo l stop visit n cut (sum + k)

/-- Runs `visit` on the parts of the range in address order and adds up its answers. -/
@[inline]
def foldPieces {m : Type → Type} [Monad m] (r : Interval) (l : Level) (visit : Interval → m Nat) :
    m Nat :=
  foldUpTo l r.stop visit (r.pieceCount l) r.start 0

theorem foldUpTo_eq_foldlM {m : Type → Type} [Monad m] [LawfulMonad m] (l : Level)
    (stop : VirtAddr) (visit : Interval → m Nat) (n : Nat) (start : VirtAddr) (sum : Nat) :
    foldUpTo l stop visit n start sum =
      (piecesUpTo l stop n start).foldlM (fun s r => do return s + (← visit r)) sum := by
  induction n generalizing start sum with
  | zero => rfl
  | succ n ih => simp [foldUpTo, piecesUpTo, ih]

/-- Visiting a range is visiting the list of its parts. -/
theorem foldPieces_eq_foldlM {m : Type → Type} [Monad m] [LawfulMonad m] (r : Interval) (l : Level)
    (visit : Interval → m Nat) :
    r.foldPieces l visit = (r.pieces l).foldlM (fun s p => do return s + (← visit p)) 0 :=
  foldUpTo_eq_foldlM l r.stop visit _ _ 0

end Interval

end PagedMemory
