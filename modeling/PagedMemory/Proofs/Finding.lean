import PagedMemory.Proofs.Placement

/-!
# Finding the area of an address

The area that an address lies in is found by a look at one area alone, the last that does not start
after it.

* `Registry.Sound.findContaining?_eq_ok`: no area of a sound registry ends beyond the 64-bit range,
  so that the look at it is no fault.
* `Registry.Sound.findContaining?_eq`: each address of an area finds the area.
* `Registry.Sound.findContaining?_eq_some_iff`, `Registry.Sound.findContaining?_eq_none_iff`: what is
  found is what a look at all areas would find.
* `Registry.Sound.findContaining?_stop`: behind an area lies its neighbour, or nothing.
* `History.run_finds`: so it is in every registry that reservations and removals lead to.
-/

namespace PagedMemory

namespace Registry.Sound

variable {r : Registry} {a b : Area} {x : VirtAddr}

/-- The look at one area, told without its checks. -/
theorem findContaining?_eq_ok (hr : r.Sound) (x : VirtAddr) : r.findContaining? x =
    .ok ((r.areas.takeWhile (·.address.val ≤ x.val)).getLast?.filter (·.Contains x)) := by
  rw [findContaining?]
  cases hlast : (r.areas.takeWhile (·.address.val ≤ x.val)).getLast? with
  | none => rfl
  | some area =>
    have harea : area ∈ r.areas := (List.takeWhile_sublist _).mem (List.mem_of_getLast? hlast)
    change (do return if ← area.contains x then some area else none) = _
    rw [Span.contains_eq_ok (hr.bounded area harea), Option.filter_some]
    rfl

/-- The area that an address lies in is found. -/
theorem findContaining?_eq (hr : r.Sound) {area : Area} {x : VirtAddr}
    (harea : area ∈ r.areas) (hx : area.Contains x) : r.findContaining? x = .ok (some area) := by
  obtain ⟨l, m, hsplit⟩ := List.append_of_mem harea
  have hstart : area.address.val ≤ x.val := UInt64.le_iff_toNat_le.2 hx.1
  have hend : x.val.toNat < area.stop := hx.2
  have hpair := hr.increasing
  rw [hsplit, List.pairwise_append, List.pairwise_cons] at hpair
  obtain ⟨-, ⟨-, -⟩, hbefore⟩ := hpair
  have hapart := hr.apart
  rw [hsplit, List.pairwise_append, List.pairwise_cons] at hapart
  obtain ⟨-, ⟨hbehind, -⟩, -⟩ := hapart
  have hlow : ∀ b ∈ l ++ [area], decide (b.address.val ≤ x.val) = true := by
    refine List.forall_mem_append.2 ⟨fun b hb => decide_eq_true ?_, by simpa using hstart⟩
    exact UInt64.le_of_lt (UInt64.lt_of_lt_of_le (hbefore b hb area List.mem_cons_self) hstart)
  have hhigh : m.takeWhile (·.address.val ≤ x.val) = [] := by
    cases m with
    | nil => rfl
    | cons b rest =>
      have hb := hbehind b List.mem_cons_self
      rw [Before] at hb
      refine List.takeWhile_cons_of_neg ?_
      rw [decide_eq_true_iff, UInt64.le_iff_toNat_le]
      omega
  rw [hr.findContaining?_eq_ok, hsplit, List.append_cons, List.takeWhile_append_of_pos hlow, hhigh,
    List.append_nil, List.getLast?_concat, Option.filter_some, if_pos (decide_eq_true hx)]

theorem findContaining?_eq_some_iff (hr : r.Sound) :
    r.findContaining? x = .ok (some a) ↔ a ∈ r.areas ∧ a.Contains x := by
  refine ⟨fun hfound => ?_, fun ⟨ha, hx⟩ => hr.findContaining?_eq ha hx⟩
  rw [hr.findContaining?_eq_ok, Except.ok.injEq] at hfound
  obtain ⟨hlast, hx⟩ := Option.filter_eq_some_iff.1 hfound
  exact ⟨(List.takeWhile_sublist _).mem (List.mem_of_getLast? hlast), of_decide_eq_true hx⟩

/-- Something is found or nothing, and never a fault. -/
theorem exists_findContaining? (hr : r.Sound) (x : VirtAddr) : ∃ found, r.findContaining? x = .ok found ∧
    ∀ a, found = some a ↔ a ∈ r.areas ∧ a.Contains x := by
  refine ⟨_, hr.findContaining?_eq_ok x, fun a => ?_⟩
  rw [← hr.findContaining?_eq_some_iff, hr.findContaining?_eq_ok, Except.ok.injEq]

theorem findContaining?_eq_none_iff (hr : r.Sound) :
    r.findContaining? x = .ok none ↔ ∀ a ∈ r.areas, ¬ a.Contains x := by
  obtain ⟨found, hfound, hiff⟩ := hr.exists_findContaining? x
  rw [hfound, Except.ok.injEq, Option.eq_none_iff_forall_ne_some]
  refine forall_congr' fun a => ?_
  rw [ne_eq, hiff, not_and]

/-- A look at all areas finds the same. -/
theorem filter_contains (hr : r.Sound) (x : VirtAddr) :
    ∃ found, r.findContaining? x = .ok found ∧ r.areas.filter (·.Contains x) = found.toList := by
  obtain ⟨found, hfound, hiff⟩ := hr.exists_findContaining? x
  refine ⟨found, hfound, ?_⟩
  cases found with
  | none =>
    refine List.filter_eq_nil_iff.2 fun a ha => ?_
    rw [decide_eq_true_iff]
    exact fun hx => nomatch (hiff a).2 ⟨ha, hx⟩
  | some a =>
    refine List.perm_singleton.1 ((List.perm_ext_iff_of_nodup (hr.nodup.filter _)
      (List.nodup_singleton a)).2 fun b => ?_)
    rw [List.mem_filter, List.mem_singleton, decide_eq_true_iff, ← hiff, Option.some_inj, eq_comm]

/-- The first address behind an area can lie only in an area that starts there. -/
theorem findContaining?_stop (hr : r.Sound) (ha : a ∈ r.areas) (hx : x.val.toNat = a.stop) :
    r.findContaining? x = .ok (r.get? x) := by
  obtain ⟨found, hfound, hiff⟩ := hr.exists_findContaining? x
  rw [hfound, Except.ok.injEq]
  refine Option.ext fun b => ?_
  rw [hiff, hr.get?_eq_some_iff]
  refine and_congr_right fun hb => ?_
  have hsize := hr.size_pos hb
  have hstop : b.stop = b.address.val.toNat + b.size.toNat := rfl
  rw [Span.Contains]
  constructor
  · rintro ⟨hle, hlt⟩
    have hne : a ≠ b := fun hab => by
      subst hab
      omega
    have hle' : a.address.val.toNat ≤ a.stop := Nat.le_add_right _ _
    rcases hr.before_or_before ha hb hne with hbehind | hbefore
    · rw [Before] at hbehind
      have heq : b.address.val = x.val := UInt64.toNat_inj.1 (by omega)
      exact congrArg VirtAddr.mk heq
    · rw [Before] at hbefore
      omega
  · rintro rfl
    omega

end Registry.Sound

namespace History

open Registry

/-- **Finding areas**: whatever was reserved and removed before, the end of every area is a word. The
look at one area finds for each address of the 64-bit range what a look at all areas finds: the area
that the address lies in, of which there is at most one, and nothing exactly if there is none. So each
address of an area, its guard page included, finds the area, and the first address behind it the area
that starts there, if any. -/
theorem run_finds {changes : List Change} (hc : ∀ c ∈ changes, c.Proper) :
    ∃ t, run changes = .ok t ∧
      (∀ area ∈ t.registry.areas, area.stopAddr = .ok ⟨area.address.val + area.size⟩ ∧
        area.address.val.toNat + area.size.toNat < 2 ^ 64) ∧
      (∀ x, ∃ found, t.registry.findContaining? x = .ok found ∧
        t.registry.areas.filter (·.Contains x) = found.toList) ∧
      (∀ x area, t.registry.findContaining? x = .ok (some area) ↔ area ∈ t.registry.areas ∧
        area.address.val.toNat ≤ x.val.toNat ∧
        x.val.toNat < area.address.val.toNat + area.size.toNat) ∧
      (∀ x, t.registry.findContaining? x = .ok none ↔ ∀ area ∈ t.registry.areas,
        ¬ (area.address.val.toNat ≤ x.val.toNat ∧
          x.val.toNat < area.address.val.toNat + area.size.toNat)) ∧
      ∀ area ∈ t.registry.areas,
        (∀ offset < area.size.toNat,
          t.registry.findContaining? ⟨area.address.val + .ofNat offset⟩ = .ok (some area)) ∧
        t.registry.findContaining? ⟨area.address.val + area.size⟩ =
          .ok (t.registry.get? ⟨area.address.val + area.size⟩) := by
  obtain ⟨t, hrun, ht⟩ := placed_start.foldlM hc
  refine ⟨t, hrun, fun area harea => ?_, ht.sound.filter_contains,
    fun x area => ht.sound.findContaining?_eq_some_iff,
    fun x => ht.sound.findContaining?_eq_none_iff, fun area harea => ?_⟩
  · have hbounded := ht.sound.bounded area harea
    obtain ⟨x, hx, hval⟩ := Span.stopAddr_eq_ok hbounded
    have hsum : (area.address.val + area.size).toNat = area.stop := by
      rw [UInt64.toNat_add]
      exact Nat.mod_eq_of_lt hbounded
    obtain ⟨x⟩ := x
    obtain rfl : x = area.address.val + area.size := UInt64.toNat_inj.1 (hval.trans hsum.symm)
    exact ⟨hx, hbounded⟩
  have hbounded := ht.sound.bounded area harea
  have hstop : area.stop = area.address.val.toNat + area.size.toNat := rfl
  have hword : UInt64.size = 2 ^ 64 := rfl
  refine ⟨fun offset hoffset => ht.sound.findContaining?_eq harea ?_,
    ht.sound.findContaining?_stop harea ?_⟩
  · have hsum : (area.address.val + UInt64.ofNat offset).toNat =
        area.address.val.toNat + offset := by
      rw [UInt64.toNat_add, UInt64.toNat_ofNat_of_lt' (by omega), Nat.mod_eq_of_lt (by omega)]
    rw [Span.Contains, hsum]
    omega
  · rw [UInt64.toNat_add, Nat.mod_eq_of_lt (by omega), hstop]

/-- Areas of all kinds, one of them taken back. -/
theorem run_crowded_finds :
    (∀ c ∈ crowded, c.Proper) ∧ ∃ t, run crowded = .ok t ∧
      (∀ area ∈ t.registry.areas, area.stopAddr = .ok ⟨area.address.val + area.size⟩ ∧
        area.address.val.toNat + area.size.toNat < 2 ^ 64) ∧
      (∀ x, ∃ found, t.registry.findContaining? x = .ok found ∧
        t.registry.areas.filter (·.Contains x) = found.toList) ∧
      (∀ x area, t.registry.findContaining? x = .ok (some area) ↔ area ∈ t.registry.areas ∧
        area.address.val.toNat ≤ x.val.toNat ∧
        x.val.toNat < area.address.val.toNat + area.size.toNat) ∧
      (∀ x, t.registry.findContaining? x = .ok none ↔ ∀ area ∈ t.registry.areas,
        ¬ (area.address.val.toNat ≤ x.val.toNat ∧
          x.val.toNat < area.address.val.toNat + area.size.toNat)) ∧
      ∀ area ∈ t.registry.areas,
        (∀ offset < area.size.toNat,
          t.registry.findContaining? ⟨area.address.val + .ofNat offset⟩ = .ok (some area)) ∧
        t.registry.findContaining? ⟨area.address.val + area.size⟩ =
          .ok (t.registry.get? ⟨area.address.val + area.size⟩) :=
  ⟨by decide, run_finds (by decide)⟩

end History

end PagedMemory
