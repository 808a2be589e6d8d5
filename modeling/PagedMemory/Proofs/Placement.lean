import Mathlib.Tactic
import PagedMemory.Proofs.Rounding

/-!
# Placement

What every registry of areas looks like that was filled and emptied by reservations and removals.

* `Registry.Sound`: the areas lie in address order, none of them meets the next one, and each is
  made of whole pages, one at least besides its guard page.
* `Registry.search_eq`: the search in words finds the first fit of unbounded numbers, and
  `Registry.reserve_eq`: a reservation adds an area there, or there is no room.
* `Registry.place_fits`: the first fit is free room in the window, and `Registry.reserve_cases`: a
  reservation is refused or adds an area that fits.
* `Registry.sound_insert`, `Registry.sound_erase`: the steps that keep a registry sound.
* `History`: a registry together with the reservations that have been granted and not been taken
  back. `History.run_placed` says that the registry holds exactly these.
-/

namespace PagedMemory

open Layout

/-! ## The ends of an area -/

namespace Span

variable {s : Span}

/-- The first address after the guard page, as an unbounded number. -/
def stop (s : Span) : Nat := s.address.val.toNat + s.size.toNat

/-- `a` lies in the span, its guard page included. -/
def Contains (s : Span) (a : VirtAddr) : Prop :=
  s.address.val.toNat ≤ a.val.toNat ∧ a.val.toNat < s.stop

instance (s : Span) (a : VirtAddr) : Decidable (s.Contains a) := instDecidableAnd

/-- The first address after the guard page, as a word. -/
theorem stopAddr_eq_ok (h : s.stop < 2 ^ 64) : ∃ x, s.stopAddr = .ok x ∧ x.val.toNat = s.stop := by
  obtain ⟨z, hz, hval⟩ := Word.add_eq_ok h
  refine ⟨⟨z⟩, ?_, hval⟩
  rw [stopAddr, VirtAddr.add, hz]
  rfl

/-- Of a span that ends within the 64-bit range one can tell what lies in it. -/
theorem contains_eq_ok (h : s.stop < 2 ^ 64) (a : VirtAddr) :
    s.contains a = .ok (decide (s.Contains a)) := by
  obtain ⟨stop, hstop, hval⟩ := stopAddr_eq_ok h
  rw [contains]
  split
  next hle =>
    have hiff : a.val < stop.val ↔ s.Contains a := by
      rw [UInt64.lt_iff_toNat_lt, hval]
      exact (and_iff_right (UInt64.le_iff_toNat_le.1 hle)).symm
    rw [hstop, ← decide_eq_decide.2 hiff]
    rfl
  next hlt =>
    have hnot : ¬ s.Contains a := fun hin => hlt (UInt64.le_iff_toNat_le.2 hin.1)
    rw [decide_eq_false hnot]
    rfl

/-- The first address of the guard page. -/
theorem mappedEnd_eq_ok (h : s.stop < 2 ^ 64) (hsize : 4096 ≤ s.size.toNat) :
    ∃ x, s.mappedEnd = .ok x ∧ x.val.toNat = s.stop - 4096 := by
  obtain ⟨stop, hstop, hval⟩ := stopAddr_eq_ok h
  have hle : pageSize.toNat ≤ stop.val.toNat := by
    rw [hval, toNat_pageSize]
    exact Nat.le_trans hsize (Nat.le_add_left _ _)
  obtain ⟨z, hz, hdiff⟩ := Word.sub_eq_ok hle
  rw [hval, toNat_pageSize] at hdiff
  refine ⟨⟨z⟩, ?_, hdiff⟩
  rw [mappedEnd, hstop]
  simp only [bind, Except.bind, hz]
  rfl

end Span

namespace Registry

/-! ## First fit -/

/-- The first place from `candidate` on at which `room` addresses are free, given the areas that
may be in the way, as an unbounded number. -/
def firstFit (align room : Nat) (candidate : Nat) : List Area → Nat
  | [] => candidate
  | area :: rest =>
    if candidate + room ≤ area.address.val.toNat then candidate
    else firstFit align room (max candidate (roundUp area.stop align)) rest

variable {align room candidate : Nat}

/-- `a` ends at or before the start of `b`. -/
def Before (a b : Area) : Prop := a.stop ≤ b.address.val.toNat

/-- `room` addresses from `x` on lie in no area of the list. -/
def FreeAt (room x : Nat) (areas : List Area) : Prop :=
  ∀ a ∈ areas, a.stop ≤ x ∨ x + room ≤ a.address.val.toNat

theorem le_firstFit (areas : List Area) : candidate ≤ firstFit align room candidate areas := by
  induction areas generalizing candidate with
  | nil => exact Nat.le_refl candidate
  | cons a rest ih =>
    rw [firstFit]
    split
    · exact Nat.le_refl candidate
    · exact Nat.le_trans (Nat.le_max_left _ _) ih

theorem dvd_firstFit (areas : List Area) (h : align ∣ candidate) :
    align ∣ firstFit align room candidate areas := by
  induction areas generalizing candidate with
  | nil => exact h
  | cons a rest ih =>
    rw [firstFit]
    split
    · exact h
    · refine ih ?_
      rcases Nat.le_total candidate (roundUp a.stop align) with hle | hle
      · rw [Nat.max_eq_right hle]
        exact roundUp_dvd _ _
      · rw [Nat.max_eq_left hle]
        exact h

/-- Where the search stops there is room: the areas passed end before, and the areas left, being
in order, begin behind. -/
theorem freeAt_firstFit (halign : 0 < align) {areas : List Area}
    (h : areas.Pairwise Before) : FreeAt room (firstFit align room candidate areas) areas := by
  induction areas generalizing candidate with
  | nil => exact fun a ha => absurd ha List.not_mem_nil
  | cons a rest ih =>
    obtain ⟨hfirst, hrest⟩ := List.pairwise_cons.1 h
    intro b hb
    rw [firstFit]
    split
    next hfits =>
      -- all areas that are left begin behind the end of the first of them
      rcases List.mem_cons.1 hb with rfl | hb
      · exact Or.inr hfits
      · have hstop : a.address.val.toNat ≤ a.stop := Nat.le_add_right _ _
        exact Or.inr (Nat.le_trans hfits (Nat.le_trans hstop (hfirst b hb)))
    next =>
      rcases List.mem_cons.1 hb with rfl | hb
      · have hround := le_roundUp b.stop halign
        exact Or.inl (Nat.le_trans hround (Nat.le_trans (Nat.le_max_right _ _) (le_firstFit rest)))
      · exact ih hrest b hb

/-! ## Sound registries -/

/-- The shape that every registry keeps. -/
structure Sound (r : Registry) : Prop where
  /-- the areas are in order and do not meet -/
  apart : r.areas.Pairwise Before
  /-- areas start on page boundaries -/
  aligned : ∀ a ∈ r.areas, 4096 ∣ a.address.val.toNat
  /-- areas consist of whole pages -/
  pages : ∀ a ∈ r.areas, 4096 ∣ a.size.toNat
  /-- an area has a page besides its guard page -/
  twoPages : ∀ a ∈ r.areas, 2 * 4096 ≤ a.size.toNat
  /-- areas end within the address space -/
  bounded : ∀ a ∈ r.areas, a.stop < 2 ^ 64

variable {r : Registry} {size : UInt64} {kind : AreaKind} {window : Interval} {x : Nat}

theorem sound_empty : Sound empty where
  apart := List.Pairwise.nil
  aligned _ ha := absurd ha List.not_mem_nil
  pages _ ha := absurd ha List.not_mem_nil
  twoPages _ ha := absurd ha List.not_mem_nil
  bounded _ ha := absurd ha List.not_mem_nil

/-! ### The search in words -/

/-- The number `x`, unless it is above `limit`. -/
def upTo (limit : UInt64) (x : Nat) : Option UInt64 :=
  if x ≤ limit.toNat then some (.ofNat x) else none

theorem upTo_toNat (limit w : UInt64) :
    upTo limit w.toNat = if limit < w then none else some w := by
  rw [upTo, UInt64.ofNat_toNat]
  simp only [UInt64.lt_iff_toNat_lt, ← Nat.not_le, ite_not]

theorem upTo_of_lt {limit : UInt64} {x : Nat} (h : limit.toNat < x) : upTo limit x = none :=
  if_neg (Nat.not_le.2 h)

/-- Behind an area there is a next candidate, or its place is no word. -/
theorem alignUp?_cases {a : UInt64} {k : Nat} (ha : a.toNat = 2 ^ k) (stop : UInt64) :
    (∃ next, Word.alignUp? stop a = some next ∧ next.toNat = roundUp stop.toNat a.toNat) ∨
      Word.alignUp? stop a = none ∧ 2 ^ 64 ≤ roundUp stop.toNat a.toNat := by
  rw [ha]
  rcases hround : Word.alignUp? stop a with _ | next
  · refine Or.inr ⟨rfl, Nat.le_of_not_lt fun hlt => ?_⟩
    have hword : (UInt64.ofNat (roundUp stop.toNat (2 ^ k))).toNat = _ :=
      UInt64.toNat_ofNat_of_lt' hlt
    rw [(Word.alignUp?_eq_some_iff ha).2 hword] at hround
    cases hround
  · exact Or.inl ⟨next, rfl, (Word.alignUp?_eq_some_iff ha).1 hround⟩

section

variable {align room limit candidate stop : UInt64} {k : Nat} {areas : List Area}

/-- Beyond the limit there is nothing to be found. -/
theorem upTo_firstFit_of_lt {n : Nat} (h : limit.toNat < n) :
    upTo limit (firstFit align.toNat room.toNat n areas) = none :=
  upTo_of_lt (Nat.lt_of_lt_of_le h (le_firstFit areas))

/-- The search goes on behind an area that ends at `stop`, if there are addresses left. -/
theorem search_behind (halign : align.toNat = 2 ^ k) {go : UInt64 → Except Fault (Option UInt64)}
    (hgo : ∀ next, next.toNat = roundUp stop.toNat align.toNat →
      go next = .ok (upTo limit (firstFit align.toNat room.toNat next.toNat areas))) :
    (match Word.alignUp? stop align with
      | none => pure none
      | some next => go next) =
      .ok (upTo limit
        (firstFit align.toNat room.toNat (roundUp stop.toNat align.toNat) areas)) := by
  rcases alignUp?_cases halign stop with ⟨next, hround, hnext⟩ | ⟨hround, hbig⟩
  · rw [hround, ← hnext]
    exact hgo next hnext
  · have hlimit := limit.toNat_lt
    rw [hround, upTo_firstFit_of_lt (by omega)]
    rfl

/-- The search never leaves the 64-bit range where that matters: a candidate that does is beyond
every place that was asked for. -/
theorem search_eq (halign : align.toNat = 2 ^ k) (hlimit : limit.toNat + room.toNat < 2 ^ 64)
    (hareas : ∀ a ∈ areas, a.stop < 2 ^ 64) (hcandidate : align.toNat ∣ candidate.toNat) :
    search align room limit candidate areas =
      .ok (upTo limit (firstFit align.toNat room.toNat candidate.toNat areas)) := by
  induction areas generalizing candidate with
  | nil =>
    rw [search, firstFit, upTo_toNat]
    rfl
  | cons area rest ih =>
    obtain ⟨harea, hrest⟩ := List.forall_mem_cons.1 hareas
    obtain ⟨stop, hsum, hstop⟩ := Span.stopAddr_eq_ok harea
    have hend : area.address.val.toNat ≤ area.stop := Nat.le_add_right _ _
    have hround := le_roundUp area.stop (a := align.toNat) (halign ▸ Nat.two_pow_pos k)
    have hgo : ∀ next : UInt64, next.toNat = roundUp stop.val.toNat align.toNat →
        search align room limit next rest =
          .ok (upTo limit (firstFit align.toNat room.toNat next.toNat rest)) :=
      fun next hnext => ih hrest (hnext ▸ roundUp_dvd _ _)
    rw [search, firstFit]
    split
    next hlow =>
      rw [UInt64.lt_iff_toNat_lt] at hlow
      rw [if_neg (by omega), hsum]
      simp only [bind, Except.bind]
      split
      next hreach =>
        rw [UInt64.le_iff_toNat_le, hstop] at hreach
        rw [Nat.max_eq_right (Nat.le_trans hreach hround), ← hstop]
        exact search_behind halign hgo
      next hreach =>
        -- the area was left behind before
        rw [UInt64.le_iff_toNat_le, hstop] at hreach
        rw [Nat.max_eq_left (roundUp_le hcandidate (Nat.le_of_not_le hreach))]
        exact ih hrest hcandidate
    next hlow =>
      rw [UInt64.lt_iff_toNat_lt, Nat.not_lt] at hlow
      rw [Nat.max_eq_right (Nat.le_trans (Nat.le_trans hlow hend) hround)]
      rcases hlast : Word.add? candidate room with _ | last
      · -- the candidate, and all places behind it, are above the limit
        have hbig : 2 ^ 64 ≤ candidate.toNat + room.toNat := Nat.le_of_not_lt fun hlt => by
          rw [Word.add?_eq_some_iff.2 ⟨hlt, rfl⟩] at hlast
          cases hlast
        have hword := area.address.val.toNat_lt
        have hfront : ¬ candidate.toNat + room.toNat ≤ area.address.val.toNat := by omega
        rw [if_neg hfront, upTo_firstFit_of_lt (by omega)]
        rfl
      · simp only [UInt64.le_iff_toNat_le, Word.toNat_of_add?_eq_some hlast]
        split
        next =>
          rw [upTo_toNat]
          rfl
        next =>
          rw [hsum, ← hstop]
          simp only [bind, Except.bind]
          refine search_behind halign fun next hnext => ?_
          split
          next hlt =>
            rw [UInt64.lt_iff_toNat_lt] at hlt
            rw [upTo_firstFit_of_lt hlt]
            rfl
          next => exact hgo next hnext

end

/-- Where the first fit for an area lies, as an unbounded number. -/
def place (r : Registry) (size : UInt64) (kind : AreaKind) (window : Interval) : Nat :=
  firstFit (kind.alignment size).toNat (paddedSize size)
    (roundUp window.start.val.toNat (kind.alignment size).toNat) r.areas

/-- The area for `size` bytes at a place. -/
def areaAt (size : UInt64) (kind : AreaKind) (x : Nat) : Area :=
  .fresh ⟨.ofNat x⟩ (.ofNat (paddedSize size)) kind

/-- The first fit is a multiple from the start of the window on, and nothing lies there. -/
theorem place_free (hr : r.Sound) (size : UInt64) (kind : AreaKind) (window : Interval) :
    window.start.val.toNat ≤ r.place size kind window ∧
      (kind.alignment size).toNat ∣ r.place size kind window ∧
      FreeAt (paddedSize size) (r.place size kind window) r.areas :=
  ⟨Nat.le_trans (le_roundUp _ (kind.alignment_pos size)) (le_firstFit _),
    dvd_firstFit _ (roundUp_dvd _ _), freeAt_firstFit (kind.alignment_pos size) hr.apart⟩

theorem place?_eq {room : UInt64} (hr : r.Sound) (hroom : room.toNat = paddedSize size) :
    r.place? (kind.alignment size) room window =
      .ok (if r.place size kind window + paddedSize size ≤ window.stop.val.toNat then
        some (.ofNat (r.place size kind window)) else none) := by
  obtain ⟨k, -, halign⟩ := kind.alignment_eq_two_pow size
  have hstart := (place_free hr size kind window).1
  have hstop := window.stop.val.toNat_lt
  rw [place?]
  rcases hlimit : Word.sub? window.stop.val room with _ | limit
  · have hbig : ¬ room.toNat ≤ window.stop.val.toNat := fun hle => by
      rw [Word.sub?_eq_some_iff.2 ⟨hle, rfl⟩] at hlimit
      cases hlimit
    rw [if_neg (by omega)]
    rfl
  · obtain ⟨hle, rfl⟩ := Word.sub?_eq_some_iff.1 hlimit
    have hval := UInt64.toNat_sub_of_le _ _ (UInt64.le_iff_toNat_le.2 hle)
    have hfirst := alignUp?_cases halign window.start.val
    rcases hfirst with ⟨first, hround, hfirst⟩ | ⟨hround, hbig⟩
    · have hfits : (window.stop.val - room).toNat + room.toNat < 2 ^ 64 := by omega
      simp only [hround]
      rw [search_eq halign hfits hr.bounded (hfirst ▸ roundUp_dvd _ _), hfirst, hroom, upTo]
      have hiff : r.place size kind window ≤ (window.stop.val - room).toNat ↔
          r.place size kind window + paddedSize size ≤ window.stop.val.toNat := by omega
      exact congrArg Except.ok (if_congr hiff rfl rfl)
    · have hplace : roundUp window.start.val.toNat (kind.alignment size).toNat ≤
          r.place size kind window := le_firstFit _
      rw [hround, if_neg (by omega)]
      rfl

/-- **Reservation**: the new area lies at the first fit, and is refused if that reaches beyond the
window. -/
theorem reserve_eq (hr : r.Sound) (hw : window.start.val < window.stop.val) (size : UInt64)
    (kind : AreaKind) : r.reserve size kind window = .ok (
      if size ≠ 0 ∧ r.place size kind window + paddedSize size ≤ window.stop.val.toNat then
        .ok ((areaAt size kind (r.place size kind window)).toSpan,
          r.insert (areaAt size kind (r.place size kind window)))
      else .error (.outOfSpace size)) := by
  have hstop := window.stop.val.toNat_lt
  rw [reserve, if_pos hw]
  by_cases hsize : size = 0
  · rw [if_pos hsize, if_neg (not_and_of_not_left _ (not_not.2 hsize))]
    rfl
  rw [if_neg hsize]
  rcases hroom : room? size with _ | room
  · have hbig := room?_eq_none_iff.1 hroom
    rw [if_neg (by omega)]
    rfl
  · have hval := toNat_of_room?_eq_some hroom
    have hword : room = .ofNat (paddedSize size) := by rw [← hval, UInt64.ofNat_toNat]
    simp only [place?_eq hr hval, bind, Except.bind]
    by_cases hfits : r.place size kind window + paddedSize size ≤ window.stop.val.toNat
    · have hsize64 : UInt64.size = 2 ^ 64 := rfl
      have hbounded : (areaAt size kind (r.place size kind window)).stop < 2 ^ 64 := by
        change (UInt64.ofNat _).toNat + (UInt64.ofNat _).toNat < 2 ^ 64
        rw [UInt64.toNat_ofNat_of_lt' (by omega), UInt64.toNat_ofNat_of_lt' (by omega)]
        omega
      obtain ⟨stop, hend, -⟩ := Span.stopAddr_eq_ok hbounded
      rw [areaAt] at hend
      rw [if_pos hfits, if_pos ⟨hsize, hfits⟩, hword]
      simp only [hend]
      rfl
    · rw [if_neg hfits, if_neg (not_and_of_not_right _ hfits)]
      rfl

/-! ### Putting areas in -/

theorem insertSorted_perm (area : Area) (areas : List Area) :
    (insertSorted area areas).Perm (area :: areas) := by
  induction areas with
  | nil => exact List.Perm.refl _
  | cons b rest ih =>
    rw [insertSorted]
    split
    · exact List.Perm.refl _
    · exact (ih.cons b).trans (List.Perm.swap area b rest)

theorem mem_insert {area b : Area} : b ∈ (r.insert area).areas ↔ b = area ∨ b ∈ r.areas :=
  (insertSorted_perm area r.areas).mem_iff.trans List.mem_cons

/-- The place of a new area is found by its start, and it meets neither neighbour. -/
theorem pairwise_insertSorted {area : Area} {areas : List Area} (h : areas.Pairwise Before)
    (hsize : 0 < area.size.toNat) (hfree : FreeAt area.size.toNat area.address.val.toNat areas) :
    (insertSorted area areas).Pairwise Before := by
  induction areas with
  | nil => exact List.pairwise_singleton _ _
  | cons b rest ih =>
    obtain ⟨hfirst, hrest⟩ := List.pairwise_cons.1 h
    have hb := hfree b List.mem_cons_self
    have hstop : b.address.val.toNat ≤ b.stop := Nat.le_add_right _ _
    rw [insertSorted]
    split
    next hlt =>
      -- everything from `b` on begins behind the new area
      rw [UInt64.lt_iff_toNat_lt] at hlt
      have hbefore : area.stop ≤ b.address.val.toNat :=
        hb.resolve_left fun hle => Nat.not_le.2 hlt (Nat.le_trans hstop hle)
      refine List.pairwise_cons.2 ⟨fun c hc => ?_, h⟩
      rcases List.mem_cons.1 hc with rfl | hc
      · exact hbefore
      · exact Nat.le_trans hbefore (Nat.le_trans hstop (hfirst c hc))
    next hge =>
      rw [UInt64.lt_iff_toNat_lt] at hge
      have hafter : b.stop ≤ area.address.val.toNat := hb.resolve_right fun hle => by omega
      refine List.pairwise_cons.2 ⟨fun c hc => ?_,
        ih hrest fun c hc => hfree c (List.mem_cons_of_mem _ hc)⟩
      rcases List.mem_cons.1 ((insertSorted_perm area rest).mem_iff.1 hc) with rfl | hc
      · exact hafter
      · exact hfirst c hc

theorem sound_insert {area : Area} (hr : r.Sound) (haligned : 4096 ∣ area.address.val.toNat)
    (hpages : 4096 ∣ area.size.toNat) (htwo : 2 * 4096 ≤ area.size.toNat)
    (hbounded : area.stop < 2 ^ 64)
    (hfree : FreeAt area.size.toNat area.address.val.toNat r.areas) : (r.insert area).Sound where
  apart := pairwise_insertSorted hr.apart (Nat.lt_of_lt_of_le (by decide) htwo) hfree
  aligned b hb := (mem_insert.1 hb).elim (fun h => h ▸ haligned) (hr.aligned b)
  pages b hb := (mem_insert.1 hb).elim (fun h => h ▸ hpages) (hr.pages b)
  twoPages b hb := (mem_insert.1 hb).elim (fun h => h ▸ htwo) (hr.twoPages b)
  bounded b hb := (mem_insert.1 hb).elim (fun h => h ▸ hbounded) (hr.bounded b)

/-- What is known of an area that was placed in answer to a reservation. -/
structure Fits (r : Registry) (size : UInt64) (kind : AreaKind) (window : Interval)
    (area : Area) : Prop where
  /-- it owns nothing yet -/
  fresh : area = Area.fresh area.address area.size kind
  padded : area.size.toNat = paddedSize size
  kindAligned : (kind.alignment size).toNat ∣ area.address.val.toNat
  start_le : window.start.val.toNat ≤ area.address.val.toNat
  stop_le : area.stop ≤ window.stop.val.toNat
  free : FreeAt area.size.toNat area.address.val.toNat r.areas
  sound : (r.insert area).Sound

/-- The area at the first fit. -/
theorem place_fits (hr : r.Sound) (hsize : size ≠ 0)
    (hstop : r.place size kind window + paddedSize size ≤ window.stop.val.toNat) :
    r.Fits size kind window (areaAt size kind (r.place size kind window)) := by
  obtain ⟨hstart, halign, hfree⟩ := place_free hr size kind window
  have hword : UInt64.size = 2 ^ 64 := rfl
  have hend := window.stop.val.toNat_lt
  have hx : (UInt64.ofNat (r.place size kind window)).toNat = r.place size kind window :=
    UInt64.toNat_ofNat_of_lt' (by omega)
  have hroom : (UInt64.ofNat (paddedSize size)).toNat = paddedSize size :=
    UInt64.toNat_ofNat_of_lt' (by omega)
  rw [areaAt]
  generalize UInt64.ofNat (r.place size kind window) = w at hx ⊢
  generalize UInt64.ofNat (paddedSize size) = room at hroom ⊢
  rw [← hx] at hstart hstop halign hfree
  rw [← hroom] at hstop hfree
  refine ⟨rfl, hroom, halign, hstart, hstop, hfree, sound_insert hr ?_ ?_ ?_ ?_ hfree⟩
  · exact (kind.page_dvd_alignment size).trans halign
  · exact hroom ▸ paddedSize_dvd size
  · exact hroom ▸ two_pages_le_paddedSize hsize
  · exact Nat.lt_of_le_of_lt hstop hend

/-- A reservation in a window with addresses is refused, or adds an area that fits. -/
theorem reserve_cases (hr : r.Sound) (hw : window.start.val < window.stop.val) :
    r.reserve size kind window = .ok (.error (.outOfSpace size)) ∨
      ∃ area, r.Fits size kind window area ∧
        r.reserve size kind window = .ok (.ok (area.toSpan, r.insert area)) := by
  rw [reserve_eq hr hw size kind]
  split
  next h => exact Or.inr ⟨_, place_fits hr h.1 h.2, rfl⟩
  next => exact Or.inl rfl

/-- No other area starts where a new one was put. -/
theorem Fits.address_ne {area a : Area} (h : r.Fits size kind window area) (hr : r.Sound)
    (ha : a ∈ r.areas) : a.address ≠ area.address := by
  intro he
  have hpos : 0 < a.size.toNat := Nat.lt_of_lt_of_le (by decide) (hr.twoPages a ha)
  have hpos' : 0 < area.size.toNat := Nat.lt_of_lt_of_le (by decide)
    (h.sound.twoPages area (mem_insert.2 (Or.inl rfl)))
  rcases h.free a ha with hle | hle
  · rw [Span.stop, he] at hle
    omega
  · rw [he] at hle
    omega

/-! ### Taking areas out -/

theorem mem_erase {a : VirtAddr} {b : Area} :
    b ∈ (r.erase a).areas ↔ b ∈ r.areas ∧ b.address ≠ a := by
  rw [erase, List.mem_filter, bne_iff_ne]

theorem sound_erase (hr : r.Sound) (a : VirtAddr) : (r.erase a).Sound where
  apart := hr.apart.sublist List.filter_sublist
  aligned b hb := hr.aligned b (mem_erase.1 hb).1
  pages b hb := hr.pages b (mem_erase.1 hb).1
  twoPages b hb := hr.twoPages b (mem_erase.1 hb).1
  bounded b hb := hr.bounded b (mem_erase.1 hb).1

namespace Sound

variable {a b : Area}

theorem size_pos (hr : r.Sound) (ha : a ∈ r.areas) : 0 < a.size.toNat :=
  Nat.lt_of_lt_of_le (by decide) (hr.twoPages a ha)

/-- The areas start at different addresses, the lower one first. -/
theorem increasing (hr : r.Sound) : r.areas.Pairwise (·.address.val < ·.address.val) := by
  refine List.Pairwise.imp_of_mem ?_ hr.apart
  intro a b ha _ hab
  have hpos := hr.size_pos ha
  rw [UInt64.lt_iff_toNat_lt]
  exact Nat.lt_of_lt_of_le (Nat.lt_add_of_pos_right hpos) hab

theorem nodup (hr : r.Sound) : r.areas.Nodup :=
  hr.increasing.imp fun hlt hab => by
    rw [hab] at hlt
    exact UInt64.lt_irrefl _ hlt

/-- Two areas do not meet. -/
theorem before_or_before (hr : r.Sound) (ha : a ∈ r.areas) (hb : b ∈ r.areas) (hab : a ≠ b) :
    Before a b ∨ Before b a := by
  have hsymm : Std.Symm fun a b => Before a b ∨ Before b a := ⟨fun _ _ => Or.symm⟩
  have hpair : r.areas.Pairwise fun a b => Before a b ∨ Before b a := hr.apart.imp Or.inl
  exact hpair.forall ha hb hab

/-- The start of an area tells which one it is. -/
theorem eq_of_address_eq (hr : r.Sound) (ha : a ∈ r.areas) (hb : b ∈ r.areas)
    (h : a.address = b.address) : a = b := by
  by_contra hab
  have hsa := hr.size_pos ha
  have hsb := hr.size_pos hb
  rcases hr.before_or_before ha hb hab with hlt | hlt
  · rw [Before, Span.stop, h] at hlt
    omega
  · rw [Before, Span.stop, h] at hlt
    omega

theorem get?_eq_some_iff (hr : r.Sound) {x : VirtAddr} :
    r.get? x = some a ↔ a ∈ r.areas ∧ a.address = x := by
  have hfound : ∀ b, r.get? x = some b → b ∈ r.areas ∧ b.address = x := by
    intro b hb
    have hx := List.find?_some hb
    exact ⟨List.mem_of_find?_eq_some hb, eq_of_beq hx⟩
  constructor
  · exact hfound a
  · rintro ⟨ha, rfl⟩
    obtain ⟨b, hb⟩ : ∃ b, r.get? a.address = some b := by
      refine Option.isSome_iff_exists.1 (List.find?_isSome.2 ⟨a, ha, ?_⟩)
      exact beq_self_eq_true a.address
    obtain ⟨hmem, hadr⟩ := hfound b hb
    rw [hb, hr.eq_of_address_eq hmem ha hadr]

end Sound

/-! ## Reservations and removals in any order -/

/-- What the clients of a registry do to it. -/
inductive Change where
  | reserve (size : UInt64) (kind : AreaKind) (window : Interval)
  | remove (address : VirtAddr)

/-- Areas are placed only in windows that have addresses. -/
def Change.Proper : Change → Prop
  | .reserve _ _ window => window.start.val < window.stop.val
  | .remove _ => True

instance (c : Change) : Decidable c.Proper :=
  match c with
  | .reserve _ _ window => inferInstanceAs (Decidable (window.start.val < window.stop.val))
  | .remove _ => inferInstanceAs (Decidable True)

/-- A reservation that was granted: what was asked for, and the span that was the answer. -/
structure Grant where
  size : UInt64
  kind : AreaKind
  window : Interval
  span : Span

/-- What every granted reservation got. -/
structure Grant.Kept (g : Grant) : Prop where
  ofKind : g.span.kind = g.kind
  aligned : 4096 ∣ g.span.address.val.toNat
  kindAligned : (g.kind.alignment g.size).toNat ∣ g.span.address.val.toNat
  pages : 4096 ∣ g.span.size.toNat
  twoPages : 2 * 4096 ≤ g.span.size.toNat
  /-- the room for what was asked for and a guard page -/
  padded : g.span.size.toNat = paddedSize g.size
  inWindow : g.window.start.val.toNat ≤ g.span.address.val.toNat ∧
    g.span.stop ≤ g.window.stop.val.toNat

end Registry

open Registry

/-- A registry, and the reservations that were granted and whose areas were not removed since. -/
structure History where
  registry : Registry
  grants : List Grant

namespace History

def start : History := ⟨Registry.empty, []⟩

/-- One change. A reservation or removal that is refused leaves everything as it was. -/
def step (t : History) : Change → Except Fault History
  | .reserve size kind window => do
    match ← t.registry.reserve size kind window with
    | .error _ => return t
    | .ok (span, registry) => return ⟨registry, ⟨size, kind, window, span⟩ :: t.grants⟩
  | .remove address =>
    match t.registry.remove address with
    | .error _ => return t
    | .ok (_, registry) => return ⟨registry, t.grants.filter (·.span.address != address)⟩

/-- Changes one after the other. -/
def run (changes : List Change) : Except Fault History := changes.foldlM step start

/-- The areas of the registry are those granted, as they were granted. -/
structure Placed (t : History) : Prop where
  sound : t.registry.Sound
  /-- each area is what some grant says, and no grant is without its area -/
  held : t.registry.spans.Perm (t.grants.map Grant.span)
  /-- no area was touched since it was placed -/
  fresh : ∀ a ∈ t.registry.areas, a = Area.fresh a.address a.size a.kind
  kept : ∀ g ∈ t.grants, g.Kept

theorem placed_start : Placed start where
  sound := sound_empty
  held := List.Perm.refl _
  fresh _ ha := absurd ha List.not_mem_nil
  kept _ hg := absurd hg List.not_mem_nil

theorem spans_insert (r : Registry) (area : Area) :
    (r.insert area).spans.Perm (area.toSpan :: r.spans) :=
  (insertSorted_perm area r.areas).map Area.toSpan

theorem spans_erase (r : Registry) (a : VirtAddr) :
    (r.erase a).spans = r.spans.filter (·.address != a) := by
  rw [Registry.spans, Registry.spans, List.filter_map]
  rfl

/-- A change of a placed history goes through and leaves the history placed. -/
theorem Placed.step {t : History} (ht : t.Placed) {c : Change} (hc : c.Proper) :
    ∃ t', t.step c = .ok t' ∧ t'.Placed := by
  cases c with
  | reserve size kind window =>
    have hcases : t.registry.reserve size kind window = .ok (.error (.outOfSpace size)) ∨
        ∃ area, t.registry.Fits size kind window area ∧
          t.registry.reserve size kind window = .ok (.ok (area.toSpan, t.registry.insert area)) :=
      reserve_cases ht.sound hc
    rcases hcases with hres | ⟨area, hfit, hres⟩
    · refine ⟨t, ?_, ht⟩
      simp only [History.step, hres]
      rfl
    · have hmem : area ∈ (t.registry.insert area).areas := mem_insert.2 (Or.inl rfl)
      refine ⟨⟨t.registry.insert area, ⟨size, kind, window, area.toSpan⟩ :: t.grants⟩, ?_,
        hfit.sound, ?_, ?_, ?_⟩
      · simp only [History.step, hres]
        rfl
      · exact (spans_insert t.registry area).trans (ht.held.cons area.toSpan)
      · intro b hb
        rcases mem_insert.1 hb with rfl | hb
        · rw [hfit.fresh]
          rfl
        · exact ht.fresh b hb
      · intro g hg
        rcases List.mem_cons.1 hg with rfl | hg
        · exact {
            ofKind := congrArg (·.kind) hfit.fresh
            aligned := hfit.sound.aligned area hmem
            kindAligned := hfit.kindAligned
            pages := hfit.sound.pages area hmem
            twoPages := hfit.sound.twoPages area hmem
            padded := hfit.padded
            inWindow := ⟨hfit.start_le, hfit.stop_le⟩ }
        · exact ht.kept g hg
  | remove address =>
    rcases hget : t.registry.get? address with _ | area
    · refine ⟨t, ?_, ht⟩
      simp only [History.step, Registry.remove, hget]
      rfl
    · refine ⟨⟨t.registry.erase address, t.grants.filter (·.span.address != address)⟩, ?_,
        sound_erase ht.sound address, ?_, ?_, ?_⟩
      · simp only [History.step, Registry.remove, hget]
        rfl
      · have hkeep := ht.held.filter (·.address != address)
        rw [List.filter_map] at hkeep
        rw [spans_erase]
        exact hkeep
      · exact fun b hb => ht.fresh b (mem_erase.1 hb).1
      · exact fun g hg => ht.kept g (List.mem_of_mem_filter hg)

/-- What one change preserves, any number of changes preserves. -/
theorem Placed.foldlM {changes : List Change} (hc : ∀ c ∈ changes, c.Proper) :
    ∀ {t : History}, t.Placed → ∃ t', changes.foldlM History.step t = .ok t' ∧ t'.Placed := by
  induction changes with
  | nil => exact fun ht => ⟨_, rfl, ht⟩
  | cons c rest ih =>
    intro t ht
    obtain ⟨t₁, hstep, ht₁⟩ := ht.step (hc c List.mem_cons_self)
    obtain ⟨t₂, hrest, ht₂⟩ := ih (fun d hd => hc d (List.mem_cons_of_mem _ hd)) ht₁
    refine ⟨t₂, ?_, ht₂⟩
    rw [List.foldlM_cons, hstep]
    exact hrest

/-- **Placement**: whatever was reserved and removed before, in whatever windows, the areas of a
registry lie in strictly increasing order, none reaches into the next or leaves the address space,
and they are the granted reservations that were not taken back: each where its kind is aligned,
within its window, of whole pages with a guard page, and untouched. -/
theorem run_placed {changes : List Change} (hc : ∀ c ∈ changes, c.Proper) :
    ∃ t, run changes = .ok t ∧
      t.registry.areas.Pairwise (fun a b => a.address.val < b.address.val) ∧
      t.registry.areas.Pairwise (fun a b =>
        a.stop < 2 ^ 64 ∧ a.stop ≤ b.address.val.toNat) ∧
      (∀ a ∈ t.registry.areas, a.stop < 2 ^ 64 ∧ a = Area.fresh a.address a.size a.kind) ∧
      t.registry.spans.Perm (t.grants.map Grant.span) ∧
      ∀ g ∈ t.grants, g.Kept := by
  obtain ⟨t, hrun, ht⟩ := placed_start.foldlM hc
  have hbounded := ht.sound.bounded
  refine ⟨t, hrun, ht.sound.increasing, ?_, fun a ha => ⟨hbounded a ha, ht.fresh a ha⟩, ht.held,
    ht.kept⟩
  exact ht.sound.apart.imp_of_mem fun ha _ hab => ⟨hbounded _ ha, hab⟩

/-- Areas of all kinds in windows that overlap, one of them taken back. -/
def crowded : List Change :=
  [.reserve 0x1000 .allocated ⟨⟨0x1000⟩, ⟨0x10000⟩⟩, .reserve 0x1800 .device ⟨⟨0x3000⟩, ⟨0x20000⟩⟩,
    .remove ⟨0x1000⟩, .reserve 1 .borrowed ⟨⟨0x800⟩, ⟨0x8000⟩⟩]

theorem run_crowded_placed :
    (∀ c ∈ crowded, c.Proper) ∧ ∃ t, run crowded = .ok t ∧
      t.registry.areas.Pairwise (fun a b => a.address.val < b.address.val) ∧
      t.registry.areas.Pairwise (fun a b =>
        a.stop < 2 ^ 64 ∧ a.stop ≤ b.address.val.toNat) ∧
      (∀ a ∈ t.registry.areas, a.stop < 2 ^ 64 ∧ a = Area.fresh a.address a.size a.kind) ∧
      t.registry.spans.Perm (t.grants.map Grant.span) ∧
      ∀ g ∈ t.grants, g.Kept :=
  ⟨by decide, run_placed (by decide)⟩

end History

end PagedMemory
