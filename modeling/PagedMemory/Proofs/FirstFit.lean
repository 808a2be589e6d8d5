import Mathlib
import PagedMemory.Proofs.Outcome
import PagedMemory.Proofs.Placement

/-!
# First fit

A reservation finds the lowest place that there is, and is refused only if there is none.

* `Registry.places`: all places at which a new area could lie.
* `Registry.isLeast_place`, `Registry.places_eq_empty`: first fit is the least of them, if any.
* `History.run_reserves_lowest`: so is the answer to a reservation in every registry that
  reservations and removals lead to, and nothing else of the registry changes.
-/

namespace PagedMemory

open Layout

namespace Registry

variable {align room candidate x : Nat} {r : Registry} {size : UInt64} {kind : AreaKind}
  {window : Interval}

/-- The places at which an area for `size` bytes could lie in `window`: multiples of the alignment
of its kind from which its pages and its guard page lie in the window and meet no area. -/
def places (r : Registry) (size : UInt64) (kind : AreaKind) (window : Interval) : Set Nat :=
  {x | (kind.alignment size).toNat ∣ x ∧ window.start.val.toNat ≤ x ∧
    x + paddedSize size ≤ window.stop.val.toNat ∧
    ∀ a ∈ r.areas,
      Disjoint (Set.Ico x (x + paddedSize size)) (Set.Ico a.address.val.toNat a.stop)}

/-- The search passes over no multiple at which there is room: an area that stops it ends before
that multiple, and so does the next candidate. -/
theorem firstFit_le {areas : List Area} (halign : align ∣ x) (hle : candidate ≤ x)
    (hfree : FreeAt room x areas) : firstFit align room candidate areas ≤ x := by
  induction areas generalizing candidate with
  | nil => exact hle
  | cons a rest ih =>
    rw [firstFit]
    split
    next => exact hle
    next hblocked =>
      refine ih (Nat.max_le.2 ⟨hle, ?_⟩) fun b hb => hfree b (List.mem_cons_of_mem _ hb)
      rcases hfree a List.mem_cons_self with hbehind | hfront
      · exact roundUp_le halign hbehind
      · exact absurd (Nat.le_trans (Nat.add_le_add_right hle room) hfront) hblocked

/-- Room that no area takes up. -/
theorem freeAt_iff (hr : r.Sound) (hroom : 0 < room) :
    FreeAt room x r.areas ↔
      ∀ a ∈ r.areas, Disjoint (Set.Ico x (x + room)) (Set.Ico a.address.val.toNat a.stop) := by
  refine forall₂_congr fun a ha => ?_
  have hsize := hr.size_pos ha
  have hstop : a.stop = a.address.val.toNat + a.size.toNat := rfl
  rw [Set.Ico_disjoint_Ico, min_le_iff, le_max_iff, le_max_iff]
  omega

theorem mem_places_iff (hr : r.Sound) :
    x ∈ r.places size kind window ↔ (kind.alignment size).toNat ∣ x ∧
      window.start.val.toNat ≤ x ∧ x + paddedSize size ≤ window.stop.val.toNat ∧
      FreeAt (paddedSize size) x r.areas := by
  have hroom : 0 < paddedSize size := Nat.lt_of_lt_of_le (by decide) (Nat.le_add_left _ _)
  rw [freeAt_iff hr hroom]
  rfl

theorem place_le (hr : r.Sound) (hx : x ∈ r.places size kind window) :
    r.place size kind window ≤ x := by
  obtain ⟨halign, hstart, -, hfree⟩ := (mem_places_iff hr).1 hx
  exact firstFit_le halign (roundUp_le halign hstart) hfree

/-- If the first fit is in the window, it is the least place. -/
theorem isLeast_place (hr : r.Sound)
    (hstop : r.place size kind window + paddedSize size ≤ window.stop.val.toNat) :
    IsLeast (r.places size kind window) (r.place size kind window) := by
  obtain ⟨hstart, halign, hfree⟩ := place_free hr size kind window
  exact ⟨(mem_places_iff hr).2 ⟨halign, hstart, hstop, hfree⟩, fun x hx => place_le hr hx⟩

/-- If it is not, there is no place. -/
theorem places_eq_empty (hr : r.Sound)
    (hstop : ¬ r.place size kind window + paddedSize size ≤ window.stop.val.toNat) :
    r.places size kind window = ∅ := by
  refine Set.eq_empty_iff_forall_notMem.2 fun x hx => hstop ?_
  have hle := place_le hr hx
  have hfits := ((mem_places_iff hr).1 hx).2.2.1
  omega

end Registry

open Registry

namespace Shared

variable {s : Shared} {size : UInt64} {kind : AreaKind} {window : Interval}

theorem reserve_of_granted {span : Span} {r : Registry}
    (h : s.registry.reserve size kind window = .ok (.ok (span, r))) :
    reserve size kind window s = .ok (.ok span)
      ⟨{ s.machine with trace := s.machine.trace.push (.reported (.reserved span)) }, r⟩ := by
  simp only [reserve, bind, EStateM.bind, get_apply, h]
  rfl

theorem reserve_of_refused {e : AllocError}
    (h : s.registry.reserve size kind window = .ok (.error e)) :
    reserve size kind window s = .ok (.error e) s := by
  simp only [reserve, bind, EStateM.bind, get_apply, h]
  rfl

/-- What a reservation that was granted has done: there is one area more, which is fresh and of the
padded size, and a line in the log. -/
structure Granted (size : UInt64) (kind : AreaKind) (span : Span) (s t : Shared) : Prop where
  fresh : span = (Area.fresh span.address span.size kind).toSpan
  padded : span.size.toNat = paddedSize size
  areas : t.registry.areas.Perm (Area.fresh span.address span.size kind :: s.registry.areas)
  increasing : t.registry.areas.Pairwise (·.address.val < ·.address.val)
  machine : t.machine =
    { s.machine with trace := s.machine.trace.push (.reported (.reserved span)) }

/-- A reservation has no fault. It is granted at the least place, or refused because there is
none. -/
theorem reserve_lowest (hr : s.registry.Sound) (hw : window.start.val < window.stop.val)
    (size : UInt64) (kind : AreaKind) :
    (∃ span t, reserve size kind window s = .ok (.ok span) t ∧ size ≠ 0 ∧
      IsLeast (s.registry.places size kind window) span.address.val.toNat ∧
      Granted size kind span s t) ∨
    reserve size kind window s = .ok (.error (.outOfSpace size)) s ∧
      (size = 0 ∨ s.registry.places size kind window = ∅) := by
  have heq := reserve_eq hr hw size kind
  by_cases h : size ≠ 0 ∧
      s.registry.place size kind window + paddedSize size ≤ window.stop.val.toNat
  · left
    rw [if_pos h] at heq
    have hfits := place_fits hr h.1 h.2
    have hword : (UInt64.ofNat (s.registry.place size kind window)).toNat =
        s.registry.place size kind window :=
      UInt64.toNat_ofNat_of_lt' (Nat.lt_of_le_of_lt (Nat.le_of_add_right_le h.2)
        window.stop.val.toNat_lt)
    refine ⟨_, _, reserve_of_granted heq, h.1, ?_, rfl, hfits.padded, insertSorted_perm _ _,
      hfits.sound.increasing, rfl⟩
    rw [areaAt, Area.fresh, hword]
    exact isLeast_place hr h.2
  · right
    rw [if_neg h] at heq
    refine ⟨reserve_of_refused heq, or_iff_not_imp_left.2 fun hsize => ?_⟩
    exact places_eq_empty hr fun hstop => h ⟨hsize, hstop⟩

end Shared

namespace History

/-- **First fit**: whatever was reserved and removed before, and whatever is asked for, in the
middle of the address space or at its top, a reservation has no fault. It is granted exactly if
there is a place in the window for pages and guard page, and at the least place; what is granted is
one fresh area of the padded size, and what is refused leaves everything as it was. -/
theorem run_reserves_lowest {changes : List Change} (hc : ∀ c ∈ changes, c.Proper)
    {size : UInt64} {kind : AreaKind} {window : Interval}
    (hw : window.start.val < window.stop.val) (machine : Machine) :
    ∃ t, run changes = .ok t ∧
      ∃ answer s, Shared.reserve size kind window ⟨machine, t.registry⟩ = .ok answer s ∧
        (∀ x, (∃ span, answer = .ok span ∧ span.address.val.toNat = x) ↔
          size ≠ 0 ∧ IsLeast (t.registry.places size kind window) x) ∧
        (∀ e, answer = .error e ↔
          e = .outOfSpace size ∧ (size = 0 ∨ t.registry.places size kind window = ∅)) ∧
        match answer with
        | .ok span => Shared.Granted size kind span ⟨machine, t.registry⟩ s
        | .error _ => s = ⟨machine, t.registry⟩ := by
  obtain ⟨t, hrun, ht⟩ := placed_start.foldlM hc
  have hsound : Shared.registry ⟨machine, t.registry⟩ |>.Sound := ht.sound
  refine ⟨t, hrun, ?_⟩
  rcases Shared.reserve_lowest hsound hw size kind with
    ⟨span, s, hres, hsize, hleast, hgranted⟩ | ⟨hres, hnone⟩
  · refine ⟨.ok span, s, hres, fun x => ⟨?_, ?_⟩, fun e => ⟨(nomatch ·), ?_⟩, hgranted⟩
    · rintro ⟨_, ⟨⟩, rfl⟩
      exact ⟨hsize, hleast⟩
    · exact fun hx => ⟨span, rfl, hleast.unique hx.2⟩
    · rintro ⟨-, hzero | hempty⟩
      · exact absurd hzero hsize
      · exact absurd hleast.1 (hempty ▸ Set.notMem_empty _)
  · refine ⟨.error (.outOfSpace size), _, hres, fun x => ⟨?_, ?_⟩, fun e => ⟨?_, ?_⟩, rfl⟩
    · rintro ⟨_, ⟨⟩, -⟩
    · rintro ⟨hsize, hleast⟩
      have hempty := hnone.resolve_left hsize
      exact absurd hleast.1 (hempty ▸ Set.notMem_empty _)
    · rintro ⟨⟩
      exact ⟨rfl, hnone⟩
    · rintro ⟨rfl, -⟩
      rfl

/-- Device memory next to areas of all kinds, and no room above them. -/
theorem run_crowded_reserves_lowest :
    (∀ c ∈ crowded, c.Proper) ∧
      (⟨⟨0x3800⟩, ⟨0x20000⟩⟩ : Interval).start.val < (⟨⟨0x3800⟩, ⟨0x20000⟩⟩ : Interval).stop.val ∧
      ∃ t, run crowded = .ok t ∧
        ∃ answer s,
          Shared.reserve 0x1000 .device ⟨⟨0x3800⟩, ⟨0x20000⟩⟩ ⟨.bare, t.registry⟩ = .ok answer s ∧
          (∀ x, (∃ span, answer = .ok span ∧ span.address.val.toNat = x) ↔ (0x1000 : UInt64) ≠ 0 ∧
            IsLeast (t.registry.places 0x1000 .device ⟨⟨0x3800⟩, ⟨0x20000⟩⟩) x) ∧
          (∀ e, answer = .error e ↔ e = .outOfSpace 0x1000 ∧ ((0x1000 : UInt64) = 0 ∨
            t.registry.places 0x1000 .device ⟨⟨0x3800⟩, ⟨0x20000⟩⟩ = ∅)) ∧
          match answer with
          | .ok span => Shared.Granted 0x1000 .device span ⟨.bare, t.registry⟩ s
          | .error _ => s = ⟨.bare, t.registry⟩ :=
  ⟨by decide, by decide, run_reserves_lowest (by decide) (by decide) .bare⟩

end History

end PagedMemory
