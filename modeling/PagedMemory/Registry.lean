import PagedMemory.Error
import PagedMemory.Handles

/-!
# The registry of areas

* `Area`: a span and the handles of the frames behind it.
* `Registry`: the areas of an allocator, by address. No two of them meet.
* `Registry.search`: first fit, the lowest address at which a new area can lie.
* `Registry.reserve`: puts a new area there.

All sums are checked. That a candidate leaves the 64-bit range means that there is no room; that an
area does would be a fault.
-/

namespace PagedMemory

open Layout

structure Area extends Span where
  handles : HandleArray
  deriving Inhabited

/-- An area that owns nothing yet. -/
def Area.fresh (address : VirtAddr) (size : UInt64) (kind : AreaKind) : Area where
  address := address
  size := size
  kind := kind
  pageCount := 0
  physAddr := none
  handles := .empty

structure Registry where
  /-- the areas, the lowest address first -/
  areas : List Area

namespace Registry

def empty : Registry := ⟨[]⟩

def size (r : Registry) : Nat := r.areas.length

def spans (r : Registry) : List Span := r.areas.map Area.toSpan

/-- The area that starts at `a`. -/
def get? (r : Registry) (a : VirtAddr) : Option Area := r.areas.find? (·.address == a)

/-- The area that `a` lies in, guard page included: if any, the last that does not start after
`a`. -/
def findContaining? (r : Registry) (a : VirtAddr) : Except Fault (Option Area) :=
  match (r.areas.takeWhile (·.address.val ≤ a.val)).getLast? with
  | none => return none
  | some area => do return if ← area.contains a then some area else none

/-- Changes the area that starts at `a`. -/
def modify (r : Registry) (a : VirtAddr) (change : Area → Area) : Registry :=
  ⟨r.areas.map fun area => if area.address == a then change area else area⟩

/-- Takes out the area that starts at `a`. -/
def erase (r : Registry) (a : VirtAddr) : Registry := ⟨r.areas.filter (·.address != a)⟩

/-- Puts a new area before the first one that starts after it. -/
def insertSorted (area : Area) : List Area → List Area
  | [] => [area]
  | b :: rest => if area.address.val < b.address.val then area :: b :: rest
      else b :: insertSorted area rest

def insert (r : Registry) (area : Area) : Registry := ⟨insertSorted area r.areas⟩

/-- The area that starts at `a`, and the registry without it. -/
def remove (r : Registry) (a : VirtAddr) : Except AllocError (Area × Registry) :=
  match r.get? a with
  | some area => .ok (area, r.erase a)
  | none => .error (.notFound a)

/-! ## Placement -/

/-- The room that an area for `size` bytes takes: whole pages, and a guard page. -/
def room? (size : UInt64) : Option UInt64 := do
  let pages ← Word.alignUp? size pageSize
  Word.add? pages pageSize

/-- The first place from `candidate` on at which `room` addresses are free, given the areas that
may be in the way; nothing if that lies above `limit`. An area that the candidate has not left
behind, or that it runs into, moves it to the next multiple of `align` behind that area. -/
def search (align room limit : UInt64) (candidate : UInt64) :
    List Area → Except Fault (Option UInt64)
  | [] => return if limit < candidate then none else some candidate
  | area :: rest =>
    if area.address.val < candidate then do
      let stop ← area.stopAddr
      if candidate ≤ stop.val then
        match Word.alignUp? stop.val align with
        | none => return none
        | some next => search align room limit next rest
      else search align room limit candidate rest
    else
      match Word.add? candidate room with
      | none => return none
      | some last =>
        if last ≤ area.address.val then return if limit < candidate then none else some candidate
        else do
          let stop ← area.stopAddr
          match Word.alignUp? stop.val align with
          | none => return none
          | some next => if limit < next then return none else search align room limit next rest

/-- Where `room` addresses are free within `window`, from a multiple of `align` on. -/
def place? (r : Registry) (align room : UInt64) (window : Interval) :
    Except Fault (Option UInt64) :=
  match Word.sub? window.stop.val room, Word.alignUp? window.start.val align with
  | some limit, some candidate => search align room limit candidate r.areas
  | _, _ => return none

/-- Reserves room for `size` bytes and a guard page within `window`, which must not be empty.
The answer is the new span and the registry that holds it. -/
def reserve (r : Registry) (size : UInt64) (kind : AreaKind) (window : Interval) :
    Except Fault (Except AllocError (Span × Registry)) := do
  if window.start.val < window.stop.val then
    match if size = 0 then none else room? size with
    | none => return .error (.outOfSpace size)
    | some room =>
      match ← r.place? (kind.alignment size) room window with
      | none => return .error (.outOfSpace size)
      | some address =>
        let area := Area.fresh ⟨address⟩ room kind
        -- the line that reports the span names its end
        let _ ← area.stopAddr
        return .ok (area.toSpan, r.insert area)
  else .error .emptyWindow

end Registry

end PagedMemory
