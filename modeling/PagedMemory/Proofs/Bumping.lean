import Mathlib.Tactic
import PagedMemory.Proofs.Placement

/-!
# Placement without removals

Where nothing is taken back, the areas of a window lie one directly behind the other, and first fit
finds the end of the last one.

* `Registry.Gapless`: areas that leave no room between them.
* `Registry.firstFit_gapless`: first fit walks over all of them.
* `History.Stacked`: a history whose areas fill a window from its start on. `Stacked.reserve_eq` is
  what it answers, `Stacked.step` what a reservation makes of it.
* `History.run_bumps`: placement is a pointer that moves by what is granted, and stays where it is
  when a reservation is refused.
-/

namespace PagedMemory

open Layout

/-- Only device areas are aligned by their size. -/
theorem AreaKind.toNat_alignment {kind : AreaKind} (h : kind ≠ .device) (size : UInt64) :
    (kind.alignment size).toNat = 4096 := by
  cases kind with
  | device => exact absurd rfl h
  | allocated => rfl
  | borrowed => rfl

namespace Registry

variable {x y room : Nat} {size : UInt64} {kind : AreaKind} {window : Interval} {areas : List Area}

/-! ## Areas without gaps -/

/-- The first area starts at `x`, each of the others where the one before it ends, and the last
ends at `y`. -/
def Gapless : Nat → List Area → Nat → Prop
  | x, [], y => x = y
  | x, a :: rest, y => a.address.val.toNat = x ∧ Gapless a.stop rest y

/-- No area is free room, so the first fit for any room is behind the last one. -/
theorem firstFit_gapless (hroom : 0 < room) (h : Gapless x areas y)
    (hpages : ∀ a ∈ areas, 4096 ∣ a.stop) : firstFit 4096 room x areas = y := by
  induction areas generalizing x with
  | nil => exact h
  | cons a rest ih =>
    obtain ⟨rfl, hrest⟩ := h
    obtain ⟨ha, hpages⟩ := List.forall_mem_cons.1 hpages
    have hstop : a.address.val.toNat ≤ a.stop := Nat.le_add_right _ _
    rw [firstFit, if_neg (by omega), roundUp_of_dvd (by decide) ha, Nat.max_eq_right hstop]
    exact ih hrest hpages

/-- An area that starts where the last one ends is put behind it. -/
theorem Gapless.insert {area : Area} (h : Gapless x areas area.address.val.toNat)
    (hareas : ∀ a ∈ areas, 0 < a.size.toNat) :
    Gapless x (insertSorted area areas) area.stop ∧ x ≤ area.address.val.toNat := by
  induction areas generalizing x with
  | nil => exact ⟨⟨h.symm, rfl⟩, Nat.le_of_eq h⟩
  | cons a rest ih =>
    obtain ⟨rfl, hrest⟩ := h
    obtain ⟨ha, hareas⟩ := List.forall_mem_cons.1 hareas
    obtain ⟨hput, hle⟩ := ih hrest hareas
    have hstop : a.stop = a.address.val.toNat + a.size.toNat := rfl
    have hafter : ¬ area.address.val < a.address.val := by
      rw [UInt64.lt_iff_toNat_lt]
      omega
    rw [insertSorted, if_neg hafter]
    exact ⟨⟨rfl, hput⟩, by omega⟩

/-- A page and a guard page for every size up to a page. -/
theorem paddedSize_of_le (hsize : size ≠ 0) (h : size.toNat ≤ 4096) : paddedSize size = 0x2000 := by
  have htwo := two_pages_le_paddedSize hsize
  have hround := roundUp_le (a := 4096) (Nat.dvd_refl _) h
  rw [paddedSize, toNat_pageSize] at htwo ⊢
  omega

end Registry

open Registry

namespace History

variable {size : UInt64} {kind : AreaKind} {window : Interval} {t : History}

/-- The first address behind what was granted, if it was put from the start of the window on. -/
def pointer (t : History) (window : Interval) : Nat :=
  window.start.val.toNat + (t.grants.map fun g => paddedSize g.size).sum

theorem pointer_cons (registry : Registry) (g : Grant) :
    pointer ⟨registry, g :: t.grants⟩ window = t.pointer window + paddedSize g.size := by
  rw [pointer, List.map_cons, List.sum_cons, pointer]
  omega

/-- The areas fill the window from its start up to the pointer. -/
structure Stacked (window : Interval) (t : History) : Prop where
  sound : t.registry.Sound
  gapless : Gapless window.start.val.toNat t.registry.areas (t.pointer window)
  pointer_le : t.pointer window ≤ window.stop.val.toNat

theorem stacked_start (hw : window.start.val < window.stop.val) : Stacked window start where
  sound := sound_empty
  gapless := rfl
  pointer_le := Nat.le_of_lt (UInt64.lt_iff_toNat_lt.1 hw)

namespace Stacked

theorem place_eq (ht : t.Stacked window) (hstart : 4096 ∣ window.start.val.toNat)
    (hkind : kind ≠ .device) : t.registry.place size kind window = t.pointer window := by
  have hroom : 0 < paddedSize size := Nat.lt_of_lt_of_le (by decide) (Nat.le_add_left _ _)
  rw [place, AreaKind.toNat_alignment hkind, roundUp_of_dvd (by decide) hstart]
  exact firstFit_gapless hroom ht.gapless fun a ha =>
    Nat.dvd_add (ht.sound.aligned a ha) (ht.sound.pages a ha)

/-- A reservation is granted at the pointer, or there is no room behind it. -/
theorem reserve_eq (ht : t.Stacked window) (hw : window.start.val < window.stop.val)
    (hstart : 4096 ∣ window.start.val.toNat) (hkind : kind ≠ .device) (size : UInt64) :
    t.registry.reserve size kind window = .ok (
      if size ≠ 0 ∧ t.pointer window + paddedSize size ≤ window.stop.val.toNat then
        .ok ((areaAt size kind (t.pointer window)).toSpan,
          t.registry.insert (areaAt size kind (t.pointer window)))
      else .error (.outOfSpace size)) := by
  rw [Registry.reserve_eq ht.sound hw size kind, ht.place_eq hstart hkind]

theorem toNat_pointer (ht : t.Stacked window) :
    (UInt64.ofNat (t.pointer window)).toNat = t.pointer window :=
  UInt64.toNat_ofNat_of_lt' (Nat.lt_of_le_of_lt ht.pointer_le window.stop.val.toNat_lt)

/-- What is granted is stacked on the areas that are there. -/
theorem push (ht : t.Stacked window) (hstart : 4096 ∣ window.start.val.toNat)
    (hkind : kind ≠ .device) (hsize : size ≠ 0)
    (hroom : t.pointer window + paddedSize size ≤ window.stop.val.toNat) :
    Stacked window ⟨t.registry.insert (areaAt size kind (t.pointer window)),
      ⟨size, kind, window, (areaAt size kind (t.pointer window)).toSpan⟩ :: t.grants⟩ := by
  have hplace : t.registry.place size kind window = t.pointer window := ht.place_eq hstart hkind
  have hfits : t.registry.Fits size kind window (areaAt size kind (t.registry.place size kind window)) :=
    place_fits ht.sound hsize (hplace.symm ▸ hroom)
  rw [hplace] at hfits
  have haddress : (areaAt size kind (t.pointer window)).address.val.toNat = t.pointer window :=
    ht.toNat_pointer
  refine ⟨hfits.sound, ?_, (pointer_cons _ _).symm ▸ hroom⟩
  have hput := (Gapless.insert (haddress.symm ▸ ht.gapless) fun a ha => ht.sound.size_pos ha).1
  rw [Span.stop, haddress, hfits.padded] at hput
  exact (pointer_cons _ _).symm ▸ hput

/-- Each reservation goes through and leaves the areas stacked. It moves the pointer if it is
granted, and changes nothing if it is refused. -/
theorem step (ht : t.Stacked window) (hw : window.start.val < window.stop.val)
    (hstart : 4096 ∣ window.start.val.toNat) (hkind : kind ≠ .device) (size : UInt64) :
    ∃ t', t.step (.reserve size kind window) = .ok t' ∧ t'.Stacked window ∧
      if size ≠ 0 ∧ t.pointer window + paddedSize size ≤ window.stop.val.toNat then
        t'.pointer window = t.pointer window + paddedSize size ∧
          t'.grants.length = t.grants.length + 1
      else t' = t := by
  have hres := ht.reserve_eq hw hstart hkind size
  by_cases h : size ≠ 0 ∧ t.pointer window + paddedSize size ≤ window.stop.val.toNat
  · rw [if_pos h] at hres
    refine ⟨_, ?_, ht.push hstart hkind h.1 h.2, ?_⟩
    · simp only [History.step, hres]
      rfl
    · rw [if_pos h]
      exact ⟨pointer_cons _ _, rfl⟩
  · rw [if_neg h] at hres
    refine ⟨t, ?_, ht, by rw [if_neg h]⟩
    simp only [History.step, hres]
    rfl

end Stacked

/-! ## Runs of reservations -/

/-- Reservations in one window, each for a number of bytes and a kind. -/
def asking (window : Interval) (calls : List (UInt64 × AreaKind)) : List Change :=
  calls.map fun call => .reserve call.1 call.2 window

/-- What one reservation preserves, any number of them preserves. -/
theorem Stacked.foldlM {calls : List (UInt64 × AreaKind)} (hw : window.start.val < window.stop.val)
    (hstart : 4096 ∣ window.start.val.toNat) (hkinds : ∀ call ∈ calls, call.2 ≠ .device) :
    ∀ {t : History}, t.Stacked window →
      ∃ t', (asking window calls).foldlM History.step t = .ok t' ∧ t'.Stacked window := by
  induction calls with
  | nil => exact fun ht => ⟨_, rfl, ht⟩
  | cons call rest ih =>
    intro t ht
    obtain ⟨hcall, hrest⟩ := List.forall_mem_cons.1 hkinds
    obtain ⟨t₁, hstep, ht₁, -⟩ := ht.step hw hstart hcall call.1
    obtain ⟨t₂, hrun, ht₂⟩ := ih hrest ht₁
    refine ⟨t₂, ?_, ht₂⟩
    rw [asking, List.map_cons, List.foldlM_cons, hstep]
    exact hrun

/-- After `n` reservations of a page each: how many were granted. -/
structure Counted (window : Interval) (n : Nat) (t : History) : Prop extends Stacked window t where
  pointer_eq : t.pointer window = window.start.val.toNat + t.grants.length * 0x2000
  granted : t.grants.length = min n ((window.stop.val.toNat - window.start.val.toNat) / 0x2000)

namespace Counted

theorem step {n : Nat} (ht : t.Counted window n) (hw : window.start.val < window.stop.val)
    (hstart : 4096 ∣ window.start.val.toNat) (hkind : kind ≠ .device) (hsize : size ≠ 0)
    (hpage : size.toNat ≤ 4096) :
    ∃ t', t.step (.reserve size kind window) = .ok t' ∧ t'.Counted window (n + 1) := by
  obtain ⟨t', hstep, ht', hends⟩ := ht.toStacked.step hw hstart hkind size
  have hpointer := ht.pointer_eq
  have hgranted := ht.granted
  rw [paddedSize_of_le hsize hpage] at hends
  split at hends
  next h =>
    obtain ⟨hmoved, hmore⟩ := hends
    exact ⟨t', hstep, ht', by omega, by omega⟩
  next h =>
    obtain rfl := hends
    have hfull := not_and.1 h hsize
    exact ⟨t', hstep, ht', hpointer, by omega⟩

theorem foldlM {calls : List (UInt64 × AreaKind)} (hw : window.start.val < window.stop.val)
    (hstart : 4096 ∣ window.start.val.toNat) (hkinds : ∀ call ∈ calls, call.2 ≠ .device)
    (hsizes : ∀ call ∈ calls, call.1 ≠ 0 ∧ call.1.toNat ≤ 4096) :
    ∀ {n : Nat} {t : History}, t.Counted window n →
      ∃ t', (asking window calls).foldlM History.step t = .ok t' ∧
        t'.Counted window (n + calls.length) := by
  induction calls with
  | nil => exact fun ht => ⟨_, rfl, ht⟩
  | cons call rest ih =>
    intro n t ht
    obtain ⟨hcall, hrest⟩ := List.forall_mem_cons.1 hkinds
    obtain ⟨hsize, hsizes⟩ := List.forall_mem_cons.1 hsizes
    obtain ⟨t₁, hstep, ht₁⟩ := ht.step hw hstart hcall hsize.1 hsize.2
    obtain ⟨t₂, hrun, ht₂⟩ := ih hrest hsizes ht₁
    refine ⟨t₂, ?_, ?_⟩
    · rw [asking, List.map_cons, List.foldlM_cons, hstep]
      exact hrun
    · rw [List.length_cons, Nat.add_comm rest.length, ← Nat.add_assoc]
      exact ht₂

end Counted

/-- **Placement without removals**: however many areas were asked for in a window that starts on a
page, those of device memory apart, and however many of these requests were refused, the next one is
granted exactly if it is for some bytes and its pages fit between the pointer and the end of the
window. It is then put at the pointer, which moves behind it; what is refused changes nothing. Of
requests for a page each, as many are granted as the window has room for. -/
theorem run_bumps {window : Interval} (hw : window.start.val < window.stop.val)
    (hstart : 4096 ∣ window.start.val.toNat) {calls : List (UInt64 × AreaKind)}
    (hkinds : ∀ call ∈ calls, call.2 ≠ .device) :
    ∃ t, run (asking window calls) = .ok t ∧
      (∀ size kind, kind ≠ .device → ∃ answer t',
        t.registry.reserve size kind window = .ok answer ∧
        t.step (.reserve size kind window) = .ok t' ∧
        if size ≠ 0 ∧ t.pointer window + paddedSize size ≤ window.stop.val.toNat then
          (∃ span r, answer = .ok (span, r) ∧ span.address.val.toNat = t.pointer window) ∧
            t'.pointer window = t.pointer window + paddedSize size ∧
            t'.grants.length = t.grants.length + 1
        else answer = .error (.outOfSpace size) ∧ t' = t) ∧
      ((∀ call ∈ calls, call.1 ≠ 0 ∧ call.1.toNat ≤ 4096) → t.grants.length =
        min calls.length ((window.stop.val.toNat - window.start.val.toNat) / 0x2000)) := by
  have hempty := stacked_start hw
  obtain ⟨t, hrun, ht⟩ := hempty.foldlM hw hstart hkinds
  refine ⟨t, hrun, fun size kind hkind => ?_, fun hsizes => ?_⟩
  · obtain ⟨t', hstep, -, hends⟩ := ht.step hw hstart hkind size
    refine ⟨_, t', ht.reserve_eq hw hstart hkind size, hstep, ?_⟩
    split at hends
    next h =>
      rw [if_pos h, if_pos h]
      exact ⟨⟨_, _, rfl, ht.toNat_pointer⟩, hends⟩
    next h =>
      rw [if_neg h, if_neg h]
      exact ⟨rfl, hends⟩
  · have hnone : Counted window 0 start := ⟨hempty, rfl, (Nat.zero_min _).symm⟩
    obtain ⟨t', hrun', ht'⟩ := hnone.foldlM hw hstart hkinds hsizes
    obtain rfl : t = t' := Except.ok.inj (hrun.symm.trans hrun')
    rw [ht'.granted, Nat.zero_add]

/-- A window at the top of the address space, with room for three areas of a page. -/
def topmost : Interval := ⟨⟨0xffff_ffff_ffff_8000⟩, ⟨0xffff_ffff_ffff_f000⟩⟩

/-- What does not fit is refused between requests that are granted. -/
def mixed : List (UInt64 × AreaKind) :=
  [(1, .allocated), (0xffff_ffff_ffff_ffff, .borrowed), (0x1000, .borrowed), (0, .allocated)]

theorem topmost_mixed_bumps :
    topmost.start.val < topmost.stop.val ∧ 4096 ∣ topmost.start.val.toNat ∧
      (∀ call ∈ mixed, call.2 ≠ .device) ∧
      ∃ t, run (asking topmost mixed) = .ok t ∧
        (∀ size kind, kind ≠ .device → ∃ answer t',
          t.registry.reserve size kind topmost = .ok answer ∧
          t.step (.reserve size kind topmost) = .ok t' ∧
          if size ≠ 0 ∧ t.pointer topmost + paddedSize size ≤ topmost.stop.val.toNat then
            (∃ span r, answer = .ok (span, r) ∧ span.address.val.toNat = t.pointer topmost) ∧
              t'.pointer topmost = t.pointer topmost + paddedSize size ∧
              t'.grants.length = t.grants.length + 1
          else answer = .error (.outOfSpace size) ∧ t' = t) ∧
        ((∀ call ∈ mixed, call.1 ≠ 0 ∧ call.1.toNat ≤ 4096) → t.grants.length =
          min mixed.length ((topmost.stop.val.toNat - topmost.start.val.toNat) / 0x2000)) :=
  ⟨by decide, by decide, by decide, run_bumps (by decide) (by decide) (by decide)⟩

end History

end PagedMemory
