import PagedMemory.Allocator.Copy
import PagedMemory.Proofs.Outcome
import PagedMemory.Proofs.Pieces
import PagedMemory.Proofs.Placement

/-!
# Splitting a copy

A copy through the areas goes piece by piece.

* `Tiles`: the pages of a range, the first and the last of which may be cut short.
* `Copy.Splits`: pieces that follow one another, each in a gap between the areas or in one page of
  one of them.
* `Copy.pages_splits`, `Copy.gap_splits`: what is planned for one area.
* `Copy.plan_splits`: no sum of a plan leaves the 64-bit range, and its pieces split the bytes up to
  the end of the last range.
* `Shared.mappedRanges_yields`, `Allocator.planFrom_yields`: the ranges are the pages of the areas, so that
  the pieces split the bytes up to `Registry.extent`.
-/

namespace PagedMemory

open Layout

/-! ## Pages -/

/-- The ranges follow one another from `start` to `stop`, and none is empty or leaves its page. -/
inductive Tiles : List Interval → Nat → Nat → Prop
  | nil {start : Nat} : Tiles [] start start
  | cons {r : Interval} {rest : List Interval} {stop : Nat}
      (hlt : r.start.val.toNat < r.stop.val.toNat)
      (hpage : r.stop.val.toNat ≤ (r.start.val.toNat / 4096 + 1) * 4096)
      (hrest : Tiles rest r.stop.val.toNat stop) : Tiles (r :: rest) r.start.val.toNat stop

theorem Tiles.le {rs : List Interval} {start stop : Nat} (h : Tiles rs start stop) :
    start ≤ stop := by
  induction h with
  | nil => exact Nat.le_refl _
  | cons hlt hpage hrest ih => exact Nat.le_trans (Nat.le_of_lt hlt) ih

namespace Copy

/-! ## Pieces that follow one another -/

/-- The pieces follow one another from `start` to `stop`. One in a gap has no address that is
covered, and every other lies in one page and is covered as a whole. -/
inductive Splits (covered : Nat → Prop) : List Piece → Nat → Nat → Prop
  | nil {start : Nat} : Splits covered [] start start
  | gap {n start stop : Nat} {rest : List Piece} (hpos : 0 < n)
      (hout : ∀ y, start ≤ y → y < start + n → ¬ covered y)
      (hrest : Splits covered rest (start + n) stop) : Splits covered (.gap n :: rest) start stop
  | page {r : Interval} {rest : List Piece} {stop : Nat}
      (hlt : r.start.val.toNat < r.stop.val.toNat)
      (hpage : r.stop.val.toNat ≤ (r.start.val.toNat / 4096 + 1) * 4096)
      (hin : ∀ y, r.start.val.toNat ≤ y → y < r.stop.val.toNat → covered y)
      (hrest : Splits covered rest r.stop.val.toNat stop) :
      Splits covered (.page r :: rest) r.start.val.toNat stop

namespace Splits

variable {covered covered' : Nat → Prop} {pieces more : List Piece} {rs : List Interval}
  {start mid stop : Nat}

theorem le (h : Splits covered pieces start stop) : start ≤ stop := by
  induction h with
  | nil => exact Nat.le_refl _
  | gap hpos hout hrest ih => exact Nat.le_trans (Nat.le_add_right _ _) ih
  | page hlt hpage hin hrest ih => exact Nat.le_trans (Nat.le_of_lt hlt) ih

/-- The pieces have as many bytes as there are addresses. -/
theorem total_eq (h : Splits covered pieces start stop) : total pieces = stop - start := by
  induction h with
  | nil => exact (Nat.sub_self _).symm
  | @gap n start stop rest hpos hout hrest ih =>
    have hle := hrest.le
    change n + total rest = _
    omega
  | @page r rest stop hlt hpage hin hrest ih =>
    have hle := hrest.le
    change r.length + total rest = _
    rw [ih, Interval.length]
    omega

theorem append (h : Splits covered pieces start mid) (hmore : Splits covered more mid stop) :
    Splits covered (pieces ++ more) start stop := by
  induction h with
  | nil => exact hmore
  | gap hpos hout hrest ih => exact .gap hpos hout (ih hmore)
  | page hlt hpage hin hrest ih => exact .page hlt hpage hin (ih hmore)

/-- What is covered elsewhere makes no difference. -/
theorem congr (h : Splits covered pieces start stop)
    (hiff : ∀ y, start ≤ y → y < stop → (covered y ↔ covered' y)) :
    Splits covered' pieces start stop := by
  induction h with
  | nil => exact .nil
  | gap hpos hout hrest ih =>
    have hle := hrest.le
    exact .gap hpos (fun y hlow hhigh => mt (hiff y hlow (by omega)).2 (hout y hlow hhigh))
      (ih fun y hlow => hiff y (by omega))
  | page hlt hpage hin hrest ih =>
    have hle := hrest.le
    exact .page hlt hpage (fun y hlow hhigh => (hiff y hlow (by omega)).1 (hin y hlow hhigh))
      (ih fun y hlow => hiff y (by omega))

theorem of_tiles (h : Tiles rs start stop) (hin : ∀ y, start ≤ y → y < stop → covered y) :
    Splits covered (rs.map Piece.page) start stop := by
  induction h with
  | nil => exact .nil
  | cons hlt hpage hrest ih =>
    have hle := hrest.le
    exact .page hlt hpage (fun y hlow hhigh => hin y hlow (by omega))
      (ih fun y hlow hhigh => hin y (by omega) hhigh)

/-- Where there is no gap, all pieces are pages. -/
theorem tiles (h : Splits covered pieces start stop)
    (hin : ∀ y, start ≤ y → y < stop → covered y) :
    ∃ rs, pieces = rs.map Piece.page ∧ Tiles rs start stop := by
  induction h with
  | nil => exact ⟨[], rfl, .nil⟩
  | gap hpos hout hrest ih =>
    have hle := hrest.le
    exact absurd (hin _ (Nat.le_refl _) (by omega)) (hout _ (Nat.le_refl _) (by omega))
  | page hlt hpage hr hrest ih =>
    obtain ⟨rs, rfl, ht⟩ := ih fun y hlow hhigh => hin y (by omega) hhigh
    exact ⟨_ :: rs, rfl, .cons hlt hpage ht⟩

end Splits

theorem total_map_page {rs : List Interval} {start stop : Nat} (h : Tiles rs start stop) :
    total (rs.map Piece.page) = stop - start := by
  have hsplits : Splits (fun _ => True) (rs.map Piece.page) start stop := .of_tiles h fun _ _ _ => trivial
  exact hsplits.total_eq

/-! ## Plans -/

/-- As many bytes as are asked for, or as the address space has left. -/
theorem clamp_eq (address : VirtAddr) (length : UInt64) :
    ∃ n, clamp address length = .ok n ∧
      n.toNat = min length.toNat (2 ^ 64 - address.val.toNat) := by
  have haddress := address.val.toNat_lt
  have hlength := length.toNat_lt
  rw [clamp]
  rcases hsum : Word.add? address.val length with _ | sum
  · have hbig : 2 ^ 64 ≤ address.val.toNat + length.toNat := Nat.le_of_not_lt fun hlt => by
      rw [Word.add?_eq_some_iff.2 ⟨hlt, rfl⟩] at hsum
      cases hsum
    have hpos : 0 < address.val.toNat := by omega
    have htop : (0xffffffffffffffff : UInt64).toNat = 2 ^ 64 - 1 := rfl
    obtain ⟨behind, hbehind, hval⟩ :=
      Word.sub_eq_ok (x := 0xffffffffffffffff) (y := address.val) (by rw [htop]; omega)
    rw [htop] at hval
    obtain ⟨z, hz, hnext⟩ := Word.add_eq_ok (x := behind) (y := 1)
      (by rw [hval, UInt64.toNat_one]; omega)
    refine ⟨min z length, ?_, ?_⟩
    · simp only [bind, Except.bind, hbehind, hz]
      rfl
    · rw [UInt64.toNat_min, hnext, hval, UInt64.toNat_one]
      omega
  · obtain ⟨hlt, -⟩ := Word.add?_eq_some_iff.1 hsum
    exact ⟨length, rfl, by omega⟩

/-- The cursor `d` is `k` bytes behind the cursor `c`. -/
structure Cursor.Moved (c : Cursor) (k : Nat) (d : Cursor) : Prop where
  address : d.address.toNat = c.address.toNat + k
  left : d.left.toNat = c.left.toNat - k

variable {c : Cursor} {stop start : UInt64}

theorem Cursor.advance_eq (c : Cursor) (length : UInt64)
    (haddress : c.address.toNat + length.toNat < 2 ^ 64) (hleft : length.toNat ≤ c.left.toNat) :
    ∃ d, c.advance length = .ok d ∧ c.Moved length.toNat d := by
  obtain ⟨address, hsum, hval⟩ := Word.add_eq_ok haddress
  obtain ⟨left, hdiff, hrest⟩ := Word.sub_eq_ok hleft
  refine ⟨⟨address, left⟩, ?_, hval, hrest⟩
  simp only [advance, bind, Except.bind, hsum, hdiff]
  rfl

theorem Cursor.inPage_eq (h : c.address < stop) :
    ∃ n, c.inPage stop = .ok n ∧
      n.toNat = min (min (4096 - c.address.toNat % 4096) (stop.toNat - c.address.toNat))
        c.left.toNat := by
  have hlt := UInt64.lt_iff_toNat_lt.1 h
  have hoffset := toNat_offsetInPage c.address
  obtain ⟨page, hpage, hval⟩ := Word.sub_eq_ok (x := pageSize) (y := offsetInPage c.address)
    (by rw [hoffset, toNat_pageSize]; omega)
  obtain ⟨rest, hrest, hdiff⟩ := Word.sub_eq_ok (x := stop) (y := c.address) (Nat.le_of_lt hlt)
  rw [toNat_pageSize, hoffset] at hval
  refine ⟨min (min page rest) c.left, ?_, ?_⟩
  · simp only [inPage, bind, Except.bind, hpage, hrest]
    rfl
  · rw [UInt64.toNat_min, UInt64.toNat_min, hval, hdiff]

/-- The pages of an area, as far as bytes are to follow. -/
theorem pages_splits (stop : UInt64) {n : Nat}
    (hn : c.address.toNat < stop.toNat → 0 < c.left.toNat →
      (stop.toNat - 1) / 4096 - c.address.toNat / 4096 < n) :
    ∃ rs d, pages stop n c = .ok (rs.map Piece.page, d) ∧
      c.Moved (min c.left.toNat (stop.toNat - c.address.toNat)) d ∧
      Tiles rs c.address.toNat d.address.toNat := by
  induction n generalizing c with
  | zero =>
    -- without any page there are no addresses, or no bytes
    have hnone : min c.left.toNat (stop.toNat - c.address.toNat) = 0 := by omega
    exact ⟨[], c, rfl, by rw [hnone]; exact ⟨rfl, rfl⟩, .nil⟩
  | succ n ih =>
    rw [pages]
    by_cases h : c.address < stop ∧ 0 < c.left
    · have hlt := UInt64.lt_iff_toNat_lt.1 h.1
      have hleft : 0 < c.left.toNat := UInt64.lt_iff_toNat_lt.1 h.2
      have hstop := stop.toNat_lt
      obtain ⟨length, hlength, hval⟩ := Cursor.inPage_eq h.1
      obtain ⟨next, hnext, haddress, hrest⟩ :=
        c.advance_eq length (by omega) (by omega)
      obtain ⟨rs, d, hpages, hd, htiles⟩ := @ih next (by omega)
      refine ⟨⟨⟨c.address⟩, ⟨next.address⟩⟩ :: rs, d, ?_, ?_, .cons ?_ ?_ htiles⟩
      · rw [if_pos h]
        simp only [bind, Except.bind, hlength, hnext, hpages]
        rfl
      · constructor
        · rw [hd.address]
          omega
        · rw [hd.left]
          omega
      · change c.address.toNat < next.address.toNat
        omega
      · change next.address.toNat ≤ (c.address.toNat / 4096 + 1) * 4096
        omega
    · have hnone : min c.left.toNat (stop.toNat - c.address.toNat) = 0 := by
        have hzero : (0 : UInt64).toNat = 0 := rfl
        rw [UInt64.lt_iff_toNat_lt, UInt64.lt_iff_toNat_lt, hzero] at h
        omega
      exact ⟨[], c, if_neg h, by rw [hnone]; exact ⟨rfl, rfl⟩, .nil⟩

/-- The gap in front of an area. -/
theorem gap_splits (start : UInt64) {covered : Nat → Prop} (hleft : 0 < c.left.toNat)
    (hout : ∀ y, c.address.toNat ≤ y → y < start.toNat → ¬ covered y) :
    ∃ pieces d, gap start c = .ok (pieces, d) ∧
      c.Moved (min c.left.toNat (start.toNat - c.address.toNat)) d ∧
      Splits covered pieces c.address.toNat d.address.toNat := by
  rw [gap]
  by_cases h : c.address < start
  · have hlt := UInt64.lt_iff_toNat_lt.1 h
    have hstart := start.toNat_lt
    obtain ⟨rest, hrest, hval⟩ := Word.sub_eq_ok (x := start) (y := c.address) (Nat.le_of_lt hlt)
    have hmin : (min rest c.left).toNat = min c.left.toNat (start.toNat - c.address.toNat) := by
      rw [UInt64.toNat_min, hval, Nat.min_comm]
    obtain ⟨d, hd, hmoved⟩ :=
      c.advance_eq (min rest c.left) (by omega) (by omega)
    refine ⟨[.gap (min rest c.left).toNat], d, ?_, hmin ▸ hmoved, ?_⟩
    · rw [if_pos h]
      simp only [bind, Except.bind, hrest, hd]
      rfl
    · rw [hmoved.address]
      exact .gap (by omega) (fun y hlow hhigh => hout y hlow (by omega)) .nil
  · have hnone : min c.left.toNat (start.toNat - c.address.toNat) = 0 := by
      rw [UInt64.lt_iff_toNat_lt] at h
      omega
    exact ⟨[], c, if_neg h, by rw [hnone]; exact ⟨rfl, rfl⟩, .nil⟩

/-- The address `y` lies in one of the ranges. -/
def Inside (ranges : List Interval) (y : Nat) : Prop :=
  ∃ r ∈ ranges, r.start.val.toNat ≤ y ∧ y < r.stop.val.toNat

theorem inside_cons {area : Interval} {ranges : List Interval} {y : Nat} :
    Inside (area :: ranges) y ↔
      (area.start.val.toNat ≤ y ∧ y < area.stop.val.toNat) ∨ Inside ranges y := by
  simp only [Inside, List.mem_cons, exists_eq_or_imp]

/-- Where the last range ends. -/
def extent (ranges : List Interval) : Nat :=
  match ranges.getLast? with
  | none => 0
  | some r => r.stop.val.toNat

/-- The ranges are in order and do not meet. -/
def Ordered (ranges : List Interval) : Prop :=
  ranges.Pairwise fun r s => r.stop.val.toNat ≤ s.start.val.toNat

theorem extent_cons {area : Interval} {ranges : List Interval} (hord : Ordered (area :: ranges))
    (hle : ∀ r ∈ ranges, r.start.val.toNat ≤ r.stop.val.toNat) :
    extent (area :: ranges) = max area.stop.val.toNat (extent ranges) := by
  rw [extent, extent, List.getLast?_cons]
  rcases hlast : ranges.getLast? with _ | last
  · simp
  · have hmem := List.mem_of_getLast? hlast
    have hbehind := (List.pairwise_cons.1 hord).1 last hmem
    have hlast := hle last hmem
    simp only [Option.getD_some]
    omega

/-- To go up to one address and then up to a later one is to go up to the later one. -/
theorem Cursor.Moved.upTo_trans {d e : Cursor} {s t : Nat} (hst : s ≤ t)
    (hd : c.Moved (min c.left.toNat (s - c.address.toNat)) d)
    (he : d.Moved (min d.left.toNat (t - d.address.toNat)) e) :
    c.Moved (min c.left.toNat (t - c.address.toNat)) e := by
  obtain ⟨hdaddress, hdleft⟩ := hd
  obtain ⟨headdress, heleft⟩ := he
  constructor <;> omega

/-- A plan deals with the bytes up to the end of the last range, if so many are to follow. -/
theorem plan_splits {ranges : List Interval} (hord : Ordered ranges)
    (hle : ∀ r ∈ ranges, r.start.val.toNat ≤ r.stop.val.toNat) :
    ∃ pieces, plan c ranges = .ok pieces ∧ Splits (Inside ranges) pieces c.address.toNat
      (c.address.toNat + min c.left.toNat (extent ranges - c.address.toNat)) := by
  induction ranges generalizing c with
  | nil =>
    have hnone : min c.left.toNat (extent [] - c.address.toNat) = 0 := by
      simp [extent]
    exact ⟨[], rfl, by rw [hnone]; exact .nil⟩
  | cons area ranges ih =>
    obtain ⟨hfirst, hord'⟩ := List.pairwise_cons.1 hord
    obtain ⟨harea, hle'⟩ := List.forall_mem_cons.1 hle
    have hbehind : ∀ {y}, Inside ranges y → area.stop.val.toNat ≤ y := by
      rintro y ⟨r, hr, hlow, -⟩
      exact Nat.le_trans (hfirst r hr) hlow
    rw [extent_cons hord hle', plan]
    by_cases hzero : c.left = 0
    · have hleft : c.left.toNat = 0 := by rw [hzero]; rfl
      rw [if_pos hzero, hleft, Nat.zero_min]
      exact ⟨[], rfl, .nil⟩
    have hleft : 0 < c.left.toNat := Nat.pos_of_ne_zero fun h => hzero (UInt64.toNat_inj.1 h)
    rw [if_neg hzero]
    by_cases hpassed : area.stop.val ≤ c.address
    · -- the area was left behind
      have hstop := UInt64.le_iff_toNat_le.1 hpassed
      obtain ⟨pieces, hplan, hsplits⟩ := @ih c hord' hle'
      have hextent : max area.stop.val.toNat (extent ranges) - c.address.toNat =
          extent ranges - c.address.toNat := by omega
      refine ⟨pieces, by rw [if_pos hpassed, hplan], ?_⟩
      rw [hextent]
      refine hsplits.congr fun y hlow _ => ?_
      rw [inside_cons, or_iff_right]
      omega
    · have hlt : c.address.toNat < area.stop.val.toNat := by
        rw [UInt64.le_iff_toNat_le] at hpassed
        omega
      have hout : ∀ y, c.address.toNat ≤ y → y < area.start.val.toNat →
          ¬ Inside (area :: ranges) y := by
        intro y hlow hhigh hin
        rcases inside_cons.1 hin with hin | hin
        · omega
        · have hy := hbehind hin
          omega
      obtain ⟨before, d, hgap, hd, hbefore⟩ := gap_splits area.start.val hleft hout
      have hdaddress := hd.address
      obtain ⟨body, e, hbody, he, htiles⟩ := pages_splits (c := d)
        area.stop.val (n := Interval.pieceCount ⟨⟨d.address⟩, area.stop⟩ .pt) (by
          intro hlt' hleft'
          rw [Interval.pieceCount_eq_div, if_pos hlt']
          exact Nat.lt_succ_self _)
      obtain ⟨headdress, heleft⟩ := Cursor.Moved.upTo_trans harea hd he
      obtain ⟨rest, hrest, hsplits⟩ := @ih e hord' hle'
      refine ⟨before ++ body.map Piece.page ++ rest, ?_, (hbefore.append (.of_tiles htiles ?_)).append ?_⟩
      · rw [if_neg hpassed]
        simp only [bind, Except.bind, hgap, hbody, hrest]
        rfl
      · -- behind the gap the area begins
        intro y hlow hhigh
        exact inside_cons.2 (Or.inl (by omega))
      · -- bytes are left only if the area ends here
        have hend : e.address.toNat + min e.left.toNat (extent ranges - e.address.toNat) =
            c.address.toNat + min c.left.toNat
              (max area.stop.val.toNat (extent ranges) - c.address.toNat) := by omega
        rw [← hend]
        refine hsplits.congr fun y hlow hhigh => ?_
        rw [inside_cons, or_iff_right]
        omega

end Copy

/-! ## The pages of the areas -/

/-- The pages of the span, without the guard page. -/
def Span.range (s : Span) : Interval := ⟨s.address, ⟨.ofNat (s.stop - 4096)⟩⟩

namespace Registry

/-- The address `y` lies in a page of an area, and not in its guard page. -/
def Covers (r : Registry) (y : Nat) : Prop :=
  ∃ area ∈ r.areas, area.address.val.toNat ≤ y ∧ y < area.stop - 4096

/-- Where the guard page of the last area begins; 0 if there is no area. -/
def extent (r : Registry) : Nat :=
  match r.areas.getLast? with
  | none => 0
  | some area => area.stop - 4096

/-- The pages of all areas, the lowest first. -/
def ranges (r : Registry) : List Interval := r.areas.map fun area => area.range

variable {r : Registry} {y : Nat} {area : Area}

namespace Sound

theorem toNat_range_stop (hr : r.Sound) (harea : area ∈ r.areas) :
    area.range.stop.val.toNat = area.stop - 4096 :=
  UInt64.toNat_ofNat_of_lt' (Nat.lt_of_le_of_lt (Nat.sub_le _ _) (hr.bounded area harea))

theorem inside_ranges (hr : r.Sound) : Copy.Inside r.ranges y ↔ r.Covers y := by
  simp only [Copy.Inside, ranges, List.mem_map, exists_exists_and_eq_and, Covers]
  refine exists_congr fun area => and_congr_right fun harea => ?_
  rw [hr.toNat_range_stop harea]
  rfl

theorem extent_ranges (hr : r.Sound) : Copy.extent r.ranges = r.extent := by
  rw [Copy.extent, ranges, List.getLast?_map, extent]
  rcases hlast : r.areas.getLast? with _ | area
  · rfl
  · exact hr.toNat_range_stop (List.mem_of_getLast? hlast)

theorem ordered_ranges (hr : r.Sound) : Copy.Ordered r.ranges := by
  refine List.pairwise_map.2 (hr.apart.imp_of_mem fun {a b} ha _ hbefore => ?_)
  rw [hr.toNat_range_stop ha]
  exact Nat.le_trans (Nat.sub_le _ _) hbefore

theorem range_le (hr : r.Sound) : ∀ s ∈ r.ranges, s.start.val.toNat ≤ s.stop.val.toNat := by
  intro s hs
  obtain ⟨area, harea, rfl⟩ := List.mem_map.1 hs
  have htwo := hr.twoPages area harea
  change area.address.val.toNat ≤ _
  rw [hr.toNat_range_stop harea, Span.stop]
  omega

theorem extent_lt (hr : r.Sound) : r.extent < 2 ^ 64 := by
  rw [extent]
  split
  · decide
  next area hlast =>
    exact Nat.lt_of_le_of_lt (Nat.sub_le _ _) (hr.bounded area (List.mem_of_getLast? hlast))

/-- No area reaches beyond the extent. -/
theorem le_extent (hr : r.Sound) (harea : area ∈ r.areas) : area.stop - 4096 ≤ r.extent := by
  obtain ⟨last, hlast⟩ := Option.ne_none_iff_exists'.1
    (mt List.getLast?_eq_none_iff.1 (List.ne_nil_of_mem harea))
  obtain ⟨front, hfront⟩ := List.getLast?_eq_some_iff.1 hlast
  have hapart := hr.apart
  rw [hfront] at harea hapart
  rw [extent, hlast]
  rcases List.mem_append.1 harea with hbefore | hsame
  · have hstop : area.stop ≤ last.address.val.toNat :=
      (List.pairwise_append.1 hapart).2.2 area hbefore last (List.mem_singleton_self _)
    have htwo := hr.twoPages last (List.mem_of_getLast? hlast)
    change area.stop - 4096 ≤ last.address.val.toNat + last.size.toNat - 4096
    omega
  · rw [List.mem_singleton.1 hsame]

end Sound

end Registry

variable {s : Shared} {x : VirtAddr}

/-- Of a sound registry, the end of each area can be told. -/
theorem Shared.mappedRanges_yields (hs : s.registry.Sound) :
    Yields mappedRanges s fun ranges t => ranges = s.registry.ranges ∧ t = s := by
  have hall : ∀ areas : List Area, (∀ area ∈ areas, area ∈ s.registry.areas) →
      Yields (areas.mapM fun area => do
        let stop ← area.mappedEnd
        return ⟨area.address, stop⟩ : SharedM (List Interval)) s
      fun ranges t => ranges = areas.map (fun area => area.range) ∧ t = s := by
    intro areas hareas
    induction areas with
    | nil => exact Ends.pure ⟨rfl, rfl⟩
    | cons area areas ih =>
      obtain ⟨harea, hareas⟩ := List.forall_mem_cons.1 hareas
      have htwo := hs.twoPages area harea
      obtain ⟨stop, hstop, hval⟩ := Span.mappedEnd_eq_ok (hs.bounded area harea) (by omega)
      have hrange : area.range = ⟨area.address, stop⟩ := by
        rw [Span.range, ← hval, UInt64.ofNat_toNat]
      rw [List.mapM_cons]
      refine Ends.bind (Ends.bind_lift hstop (Ends.pure (Q := fun range t =>
        range = Interval.mk area.address stop ∧ t = s) ⟨rfl, rfl⟩)) ?_
      rintro _ _ ⟨rfl, rfl⟩
      refine Ends.bind (ih hareas) ?_
      rintro _ _ ⟨rfl, rfl⟩
      exact Ends.pure ⟨by rw [List.map_cons, hrange], rfl⟩
  exact Ends.bind_get (hall _ fun _ h => h)

/-- The plan for a buffer deals with its bytes up to the extent of the registry. -/
theorem Allocator.planFrom_yields (hs : s.registry.Sound) {length : Nat}
    (hlength : length < 2 ^ 64) :
    Yields (planFrom x length) s fun pieces t => t = s ∧
      Copy.Splits s.registry.Covers pieces x.val.toNat
        (x.val.toNat + min length (s.registry.extent - x.val.toNat)) := by
  have hextent := hs.extent_lt
  obtain ⟨count, hcount, hval⟩ := Copy.clamp_eq x (.ofNat length)
  rw [UInt64.toNat_ofNat_of_lt' hlength] at hval
  obtain ⟨pieces, hplan, hsplits⟩ :=
    Copy.plan_splits (c := ⟨x.val, count⟩) hs.ordered_ranges hs.range_le
  have hend : min count.toNat (Copy.extent s.registry.ranges - x.val.toNat) =
      min length (s.registry.extent - x.val.toNat) := by
    rw [hs.extent_ranges]
    omega
  rw [hend] at hsplits
  refine Ends.bind_lift hcount (Ends.bind (Shared.mappedRanges_yields hs) ?_)
  rintro _ _ ⟨rfl, rfl⟩
  rw [hplan]
  exact Ends.of_ok rfl ⟨rfl, hsplits.congr fun y _ _ => hs.inside_ranges⟩

end PagedMemory
