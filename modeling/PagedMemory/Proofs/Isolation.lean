import Mathlib.Tactic
import PagedMemory.Proofs.Hosting

/-!
# What tenants can rely on

On a host with any number of tenants, whatever they do, and however it ends.

* `Tenant.Fenced`: nothing is mapped but the pages of areas in front of their guard pages.
  `Hosting.run_fenced`: this is so in every state that is reached.
* `Hosting.answers`: hosts are computations, and how a job ends can be found out by running it.
* `Allocator.readAt`: what is read from memory, as the allocator answers.
* `Deed.memoryAfter`: what memory holds after a run, byte by byte what was written there last.
* `Hosting.run_remembers`: allocated memory stays where it is until it is given back, and holds what was
  written to it.
-/

namespace PagedMemory

open Layout Tables

/-! ## Fences -/

/-- In the block of `2 ^ 48` addresses in which the tenant's window lies, no guard page is mapped, and
no address outside of all areas. -/
structure Tenant.Fenced (v : Tenant) (m : Machine) : Prop where
  mapped : ∀ x y, x.val.toNat / 2 ^ 48 = v.allocator.block →
    v.allocator.whereIs ⟨m, v.registry⟩ x = .ok (some y) →
    ∃ area ∈ v.registry.areas, ∃ stop, area.mappedEnd = .ok stop ∧ area.address.val ≤ x.val ∧
      x.val < stop.val
  guard : ∀ area ∈ v.registry.areas, ∃ stop, area.mappedEnd = .ok stop ∧
    stop.val.toNat + 4096 = area.stop ∧ ∀ x : VirtAddr, stop.val ≤ x.val → x.val.toNat < area.stop →
      v.allocator.whereIs ⟨m, v.registry⟩ x = .ok none
  free : ∀ x, x.val.toNat / 2 ^ 48 = v.allocator.block →
    (∀ area ∈ v.registry.areas, ¬ area.Contains x) →
    v.allocator.whereIs ⟨m, v.registry⟩ x = .ok none

section

variable {a : Allocator} {p : Pool} {r : Registry} {loose : List PageFrame}
  {chains : List (List Holding)} {area : Area} {x : VirtAddr} {b n : Nat}

/-- The addresses of the pages that an area covers. -/
theorem Span.Within.covers_iff {s : Span} (hs : s.Within b) (hx : x.val.toNat / 2 ^ 48 = b) :
    s.Covers x.pageNumber ↔ s.address.val.toNat ≤ x.val.toNat ∧
      x.val.toNat < s.address.val.toNat + s.pages * 4096 := by
  have haddress := hs.address_eq
  have hlast := hs.last_lt
  rw [Covers, VirtAddr.pageNumber]
  omega

/-- The addresses of an area, its guard page included, are in one block. -/
theorem Span.Within.block_eq {s : Span} (hs : s.Within b) (hlow : s.address.val.toNat ≤ x.val.toNat)
    (hhigh : x.val.toNat < s.stop) : x.val.toNat / 2 ^ 48 = b := by
  have hstart := hs.start_le
  have hstop := hs.stop_le
  omega

/-- The page of an address of an area is one that the area covers, or its guard page. -/
theorem Span.Within.pageNumber_mem {s : Span} (hs : s.Within b) (hx : s.Contains x) :
    s.firstPage ≤ x.pageNumber ∧ x.pageNumber ≤ s.firstPage + s.pages := by
  obtain ⟨hlow, hhigh⟩ := hx
  have hblock := hs.block_eq hlow hhigh
  have haddress := hs.address_eq
  have hsize := hs.size_eq
  rw [Span.stop] at hhigh
  rw [VirtAddr.pageNumber]
  omega

/-- The addresses between the last page that is mapped and the end of an area are those of its guard
page. -/
theorem Span.Within.pageNumber_guard {s : Span} {stop : VirtAddr} (hs : s.Within b)
    (hend : s.mappedEnd = .ok stop) (hlow : stop.val ≤ x.val) (hhigh : x.val.toNat < s.stop) :
    x.pageNumber = s.firstPage + s.pages := by
  obtain ⟨stop', hend', hpages⟩ := hs.mappedEnd
  obtain rfl : stop = stop' := Except.ok.inj (hend.symm.trans hend')
  have hto : stop.val.toNat = _ := hpages.stop
  have hlow := UInt64.le_iff_toNat_le.1 hlow
  have haddress := hs.address_eq
  have hsize := hs.size_eq
  have hblock := hs.block_eq (by omega) hhigh
  rw [Span.stop] at hhigh
  rw [VirtAddr.pageNumber]
  omega

/-- No area covers a page of another one, be it the guard page. -/
theorem World.not_covers_span {area' : Area} (hw : World a p r loose chains) (harea : area ∈ r.areas)
    (harea' : area' ∈ r.areas) (hne : area ≠ area')
    (hn : area.firstPage ≤ n ∧ n ≤ area.firstPage + area.pages) : ¬ area'.Covers n := by
  rintro ⟨hlow, hhigh⟩
  have hwithin := hw.within harea
  have hwithin' := hw.within harea'
  have haddress := hwithin.address_eq
  have haddress' := hwithin'.address_eq
  have hsize := hwithin.size_eq
  have hsize' := hwithin'.size_eq
  rcases hw.registry.before_or_before harea harea' hne with hbefore | hbefore
  · rw [Registry.Before, Span.stop] at hbefore
    omega
  · rw [Registry.Before, Span.stop] at hbefore
    omega

/-- No area covers the guard page of another, or its own. -/
theorem World.leafOn_guard (hw : World a p r loose chains) (harea : area ∈ r.areas) :
    leafOn p a.root (area.firstPage + area.pages) = .empty := by
  by_contra hmapped
  obtain ⟨area', harea', hcovers⟩ := hw.covered _ (hw.within harea).last_lt hmapped
  by_cases he : area = area'
  · subst he
    exact Nat.lt_irrefl _ hcovers.2
  · exact hw.not_covers_span harea harea' he ⟨Nat.le_add_right _ _, Nat.le_refl _⟩ hcovers

theorem World.fenced {v : Tenant} {m : Machine}
    (hw : World v.allocator m.pool v.registry loose chains) : v.Fenced m := by
  have hwhere : ∀ x, v.allocator.whereIs ⟨m, v.registry⟩ x =
      .ok (target m.pool v.allocator.root x) := fun x => Allocator.whereIs_eq hw.tables x
  have hmapped : ∀ x y, x.val.toNat / 2 ^ 48 = v.allocator.block →
      target m.pool v.allocator.root x = some y →
      ∃ area ∈ v.registry.areas, area.address.val.toNat ≤ x.val.toNat ∧
        x.val.toNat < area.address.val.toNat + area.pages * 4096 := by
    intro x y hx hy
    have hleaf : leafOn m.pool v.allocator.root x.pageNumber ≠ .empty := fun hempty =>
      nomatch (target_eq_none hempty).symm.trans hy
    obtain ⟨area, harea, hcovers⟩ := hw.covered _ x.pageNumber_lt hleaf
    exact ⟨area, harea, ((hw.within harea).covers_iff hx).1 hcovers⟩
  have hstop : ∀ area ∈ v.registry.areas, ∃ stop, area.mappedEnd = .ok stop ∧
      stop.val.toNat = area.address.val.toNat + area.pages * 4096 := by
    intro area harea
    have haddress := (hw.within harea).address_eq
    obtain ⟨stop, hstop, hpages⟩ := (hw.within harea).mappedEnd
    have hto : stop.val.toNat = _ := hpages.stop
    exact ⟨stop, hstop, by omega⟩
  refine ⟨fun x y hx hy => ?_, fun area harea => ?_, fun x hx hout => ?_⟩
  · rw [hwhere] at hy
    obtain ⟨area, harea, hlow, hhigh⟩ := hmapped x y hx (Except.ok.inj hy)
    obtain ⟨stop, hend, hto⟩ := hstop area harea
    exact ⟨area, harea, stop, hend, UInt64.le_iff_toNat_le.2 hlow, UInt64.lt_iff_toNat_lt.2 (hto ▸ hhigh)⟩
  · obtain ⟨stop, hend, hto⟩ := hstop area harea
    have hwithin := hw.within harea
    have hsize := hwithin.size_eq
    refine ⟨stop, hend, by rw [hto, Span.stop, hsize]; ring, fun x hlow hhigh => ?_⟩
    have hpage := hwithin.pageNumber_guard hend hlow hhigh
    rw [hwhere, target_eq_none (by rw [hpage]; exact hw.leafOn_guard harea)]
  · rw [hwhere]
    cases htarget : target m.pool v.allocator.root x with
    | none => rfl
    | some y =>
      obtain ⟨area, harea, hlow, hhigh⟩ := hmapped x y hx htarget
      have hsize := (hw.within harea).size_eq
      refine absurd ⟨hlow, ?_⟩ (hout area harea)
      rw [Span.stop]
      omega

end

namespace Hosting

variable {base : PageFrame} {count : Nat} {front : Front} {t u : Hosting} {rolls : Nat → Roll}
  {deeds past future : List Deed} {k : Nat} {v : Tenant}

/-- Whatever the tenants do, and wherever they come to grief: nothing is mapped but areas, and of no
area the guard page. -/
theorem run_fenced (hpool : base.base.val.toNat + count * 4096 ≤ 2 ^ 52)
    (hproper : (create base count front).Proper deeds) (ht : (create base count front).run deeds = t)
    (hv : t.tenant? k = some v) : v.Fenced t.host.machine := by
  obtain ⟨rolls, hkept⟩ := kept_run hpool hproper ht
  obtain ⟨loose, hroll⟩ := hkept.tenant k v hv
  exact hroll.world.fenced

/-- A host with a pool of thirty frames. -/
def small : Hosting := create (.containing ⟨0x100000⟩) 30 Front.plain

/-- Two tenants. The first has an area that it maps itself, where a page is mapped a second time, and
gives it back after an allocation. The second allocates at the same addresses. -/
def smallRun : List Deed :=
  [.found Setting.small.window, .found ⟨⟨⟨0x10000⟩, ⟨0x18000⟩⟩, by decide⟩,
    .act 0 (.reserve 8000 .borrowed),
    .act 0 (.mapArea ⟨0x10000⟩ .pageKernel [.containing ⟨0x7000⟩]),
    .act 0 (.mapArea ⟨0x10000⟩ .pageKernel [.containing ⟨0x8000⟩]),
    .act 0 (.request (.allocate 5000 .kernelHigh .pageKernel)),
    .act 1 (.request (.allocate 5000 .kernelHigh .pageKernel)),
    .act 0 (.release (.reserved, ⟨0x10000⟩))]

theorem small_run_fenced : ∃ t v, small.Proper smallRun ∧ small.run smallRun = t ∧
    t.tenant? 0 = some v ∧ v.Fenced t.host.machine := by
  have hproper : small.Proper smallRun := by decide +kernel
  have htenant : ((small.run smallRun).tenant? 0).isSome = true := by decide +kernel
  obtain ⟨t, ht⟩ : ∃ t, small.run smallRun = t := ⟨_, rfl⟩
  rw [ht] at htenant
  obtain ⟨v, hv⟩ := Option.isSome_iff_exists.1 htenant
  exact ⟨t, v, hproper, ht, hv, run_fenced (by decide) hproper ht hv⟩

/-- Whether a job of tenant `k` comes to its end, and to one as `P` says. -/
def answers {α : Type} (t : Hosting) (k : Nat) (job : Allocator → Job α)
    (P : Tenant → α → Shared → Bool) : Bool :=
  match t.tenant? k with
  | none => false
  | some v =>
    match (job v.allocator).run (t.shared v) with
    | .ok answer s => P v answer s
    | .error _ _ => false

theorem exists_of_answers {α : Type} {job : Allocator → Job α} {P : Tenant → α → Shared → Bool}
    (h : t.answers k job P = true) : ∃ v answer s, t.tenant? k = some v ∧
      (job v.allocator).run (t.shared v) = .ok answer s ∧ P v answer s = true := by
  rw [answers] at h
  split at h
  next => cases h
  next v hv =>
    split at h
    next answer s hrun => exact ⟨v, answer, s, hv, hrun, h⟩
    next => cases h

/-- Whether a job of tenant `k` ends in a fault, and in one as `P` says. -/
def faults {α : Type} (t : Hosting) (k : Nat) (job : Allocator → Job α)
    (P : Tenant → Fault → Shared → Bool) : Bool :=
  match t.tenant? k with
  | none => false
  | some v =>
    match (job v.allocator).run (t.shared v) with
    | .ok _ _ => false
    | .error e s => P v e s

theorem exists_of_faults {α : Type} {job : Allocator → Job α} {P : Tenant → Fault → Shared → Bool}
    (h : t.faults k job P = true) : ∃ v e s, t.tenant? k = some v ∧
      (job v.allocator).run (t.shared v) = .error e s ∧ P v e s = true := by
  rw [faults] at h
  split at h
  next => cases h
  next v hv =>
    split at h
    next => cases h
    next e s hrun => exact ⟨v, e, s, hv, hrun, h⟩

end Hosting

/-! ## What was written last -/

/-- What is read from an address on into a buffer: how many bytes, and the buffer afterwards. -/
def Allocator.readAt (a : Allocator) (s : Shared) (x : VirtAddr) (buffer : List UInt8) :
    Except Fault (Nat × List UInt8) :=
  match (a.read x buffer).run s with
  | .ok answer _ => .ok answer
  | .error e _ => .error e

namespace Deed

/-- What the memory of tenant `k` holds after some deeds. -/
def memoryAfter (k : Nat) (memory : Nat → UInt8) (deeds : List Deed) : Nat → UInt8 :=
  deeds.foldl (fun memory d => d.effect k memory) memory

/-- The deed writes byte `y` of the memory of tenant `k`. -/
def Writes (k y : Nat) : Deed → Prop
  | .found _ => False
  | .act j (.write address data) => j = k ∧ address.val.toNat ≤ y ∧ y < address.val.toNat + data.length
  | .act _ _ => False
  | .frames _ => False

variable {k y : Nat} {memory memory' : Nat → UInt8} {d : Deed} {deeds : List Deed}

/-- A byte depends on what it was before, and on nothing else. -/
theorem effect_congr (h : memory' y = memory y) : d.effect k memory' y = d.effect k memory y := by
  cases d with
  | found _ => exact h
  | frames _ => exact h
  | act j a =>
    simp only [effect]
    split
    · cases a with
      | write address data => exact overwrite_congr h
      | request _ => exact h
      | reserve _ _ => exact h
      | reserveIn _ _ _ => exact h
      | mapArea _ _ _ => exact h
      | release _ => exact h
      | read _ _ => exact h
    · exact h

theorem memoryAfter_congr (h : memory' y = memory y) :
    memoryAfter k memory' deeds y = memoryAfter k memory deeds y := by
  induction deeds generalizing memory memory' with
  | nil => exact h
  | cons d deeds ih => exact ih (effect_congr h)

theorem effect_of_not_writes (h : ¬ d.Writes k y) : d.effect k memory y = memory y := by
  cases d with
  | found _ => rfl
  | frames _ => rfl
  | act j a =>
    simp only [effect]
    split
    next hj =>
      cases a with
      | write address data =>
        change overwrite memory address.val.toNat data y = memory y
        rw [Writes] at h
        by_cases hle : address.val.toNat ≤ y
        · exact overwrite_of_le (by by_contra hlt; exact h ⟨hj, hle, by omega⟩)
        · exact overwrite_of_lt (by omega)
      | request _ => rfl
      | reserve _ _ => rfl
      | reserveIn _ _ _ => rfl
      | mapArea _ _ _ => rfl
      | release _ => rfl
      | read _ _ => rfl
    next => rfl

/-- A byte that is not written is what it was. -/
theorem memoryAfter_of_not_writes (h : ∀ d ∈ deeds, ¬ d.Writes k y) :
    memoryAfter k memory deeds y = memory y := by
  induction deeds generalizing memory with
  | nil => rfl
  | cons d deeds ih =>
    obtain ⟨hd, hrest⟩ := List.forall_mem_cons.1 h
    exact (ih hrest).trans (effect_of_not_writes hd)

/-- A byte is what was written there last. -/
theorem memoryAfter_of_writes {past : List Deed} {address : VirtAddr} {data : List UInt8}
    (hlow : address.val.toNat ≤ y) (hhigh : y - address.val.toNat < data.length)
    (h : ∀ d ∈ deeds, ¬ d.Writes k y) :
    memoryAfter k memory (past ++ .act k (.write address data) :: deeds) y =
      data[y - address.val.toNat] := by
  rw [memoryAfter, List.foldl_append, List.foldl_cons]
  refine (memoryAfter_of_not_writes h).trans ?_
  rw [effect, if_pos rfl]
  exact overwrite_of_mem hlow hhigh

end Deed

section

variable {a : Allocator} {p q u : Pool} {r : Registry} {loose : List PageFrame} {h : Holding}
  {effect effect' : (Nat → UInt8) → Nat → UInt8}

theorem Follows.refl : Follows a (fun memory => memory) p p h := ⟨fun _ _ _ => rfl, fun _ _ _ => rfl⟩

theorem Follows.trans (hpq : Follows a effect p q h) (hqu : Follows a effect' q u h)
    (hcongr : ∀ memory memory' y, memory' y = memory y → effect' memory' y = effect' memory y) :
    Follows a (fun memory => effect' (effect memory)) p u h where
  leaf n hn hcovers := (hqu.leaf n hn hcovers).trans (hpq.leaf n hn hcovers)
  memory y hlow hhigh := (hqu.memory y hlow hhigh).trans (hcongr _ _ y (hpq.memory y hlow hhigh))

/-- Bytes that are numbered from the start of an area on. -/
theorem Holding.map_memory {x n : Nat} (hx : h.area.address.val.toNat ≤ x) :
    (List.range' (x - h.area.address.val.toNat) n).map (h.byteAt p) =
      (List.range' x n).map (h.memory p) := by
  refine List.ext_getElem (by simp) fun i _ _ => ?_
  have hindex : x - h.area.address.val.toNat + i = x + i - h.area.address.val.toNat := by omega
  simp only [List.getElem_map, List.getElem_range', Nat.one_mul, Holding.memory, hindex]

/-- Wherever an address lies in an area, where it is mapped depends on the leaves of the area. -/
theorem World.target_eq {r' : Registry} {loose' : List PageFrame} {chains chains' : List (List Holding)}
    {area : Area} {x : VirtAddr} (hp : World a p r loose chains) (hq : World a q r' loose' chains')
    (harea : area ∈ r.areas) (harea' : area ∈ r'.areas)
    (hleaf : ∀ n < 512 ^ 4, area.Covers n → leafOn q a.root n = leafOn p a.root n)
    (hx : area.Contains x) : target q a.root x = target p a.root x := by
  have hsame : leafOn q a.root x.pageNumber = leafOn p a.root x.pageNumber := by
    obtain ⟨hlow, hhigh⟩ := (hp.within harea).pageNumber_mem hx
    rcases Nat.lt_or_eq_of_le hhigh with hlt | hguard
    · exact hleaf _ x.pageNumber_lt ⟨hlow, hlt⟩
    · rw [hguard, hp.leafOn_guard harea, hq.leafOn_guard harea']
  rw [target, target, hsame]

/-- What stands behind memory that was allocated, and what is read from it. -/
theorem Roll.Kept.readAt_eq {m : Machine} {roll : Roll} {leases : List Lease} {x : VirtAddr}
    {chain : List Holding} (hkept : roll.Kept a m.pool r leases loose)
    (he : ((Title.got .free, x), chain) ∈ roll.entries) :
    ∃ h tail, chain = h :: tail ∧ h.area ∈ r.areas ∧ r.get? x = some h.area ∧
      h.frames.length = h.area.pages ∧ ∀ (y : VirtAddr) (buffer : List UInt8),
        h.area.Encloses y.val.toNat (y.val.toNat + buffer.length) →
        a.readAt ⟨m, r⟩ y buffer =
          .ok (buffer.length, (List.range' y.val.toNat buffer.length).map (h.memory m.pool)) := by
  have hsettled := hkept.settled _ he rfl
  cases hkept.leased _ he with
  | got hgranted =>
    cases hgranted with
    | @allocated h tail kinds =>
      have hmem : h :: tail ∈ roll.chains := List.mem_append_left _ (List.mem_map_of_mem he)
      have harea := hkept.world.mem_areas hmem List.mem_cons_self
      have hhead := hsettled h List.mem_cons_self
      refine ⟨h, tail, rfl, harea, hkept.world.get?_eq harea, hhead.backed.count, fun y buffer hin => ?_⟩
      obtain ⟨front, back, hchains⟩ := List.append_of_mem hmem
      have hbooks : Books a m.pool r (.ofChain (h :: tail) ++ ⟨loose, front ++ back⟩) :=
        books_ofChain.2 (hkept.world.perm (.refl _) (hchains ▸ List.perm_middle))
      obtain ⟨answer, s, hrun, mine, -, -, -, rfl⟩ := (read_behaves (T := .strict) hhead
        (hkept.world.within harea) hin).answers (s := ⟨m, r⟩) nofun hbooks nofun
      rw [Allocator.readAt, hrun, Holding.map_memory hin.start_le]

end

namespace Hosting

variable {base : PageFrame} {count : Nat} {front : Front} {t u : Hosting} {rolls : Nat → Roll}
  {deeds past future : List Deed} {k : Nat} {v : Tenant}

/-- What a tenant does not give back stays on its roll, and holds what was written to it. -/
theorem Kept.run_follows {e : Lease × List Holding} (h : t.Kept rolls) (hproper : t.Proper deeds)
    (hv : t.tenant? k = some v) (he : e ∈ (rolls k).entries) (hfree : e.1.1 = .got .free)
    (hstays : ∀ d ∈ deeds, ¬ d.Releases k e.1) :
    ∃ rolls' r, (t.run deeds).Kept rolls' ∧ (t.run deeds).tenant? k = some ⟨v.allocator, r⟩ ∧
      e ∈ (rolls' k).entries ∧ ∀ h ∈ e.2,
        Follows v.allocator (fun memory => Deed.memoryAfter k memory deeds) t.pool
          (t.run deeds).pool h := by
  induction deeds generalizing t rolls v with
  | nil => exact ⟨rolls, v.registry, h, hv, he, fun _ _ => .refl⟩
  | cons d deeds ih =>
    obtain ⟨hd, hrest⟩ := hproper
    obtain ⟨hstay, hstays⟩ := List.forall_mem_cons.1 hstays
    obtain ⟨rolls', h', hcarries⟩ := h.step hd
    obtain ⟨r, hr, hbecomes⟩ := hcarries k v hv
    obtain ⟨rolls'', r', h'', hr', he'', hfollows⟩ :=
      ih h' hrest hr (hbecomes.entry e he hstay) hstays
    refine ⟨rolls'', r', h'', hr', he'', fun y hy => ?_⟩
    refine (hbecomes.follows e he hstay hfree y hy).trans (hfollows y hy) ?_
    intro memory memory' z hz
    exact Deed.memoryAfter_congr hz

/-- Memory that a tenant has allocated stays where it is, whatever all tenants do, until it is given
back. What is read from it is what was written last. -/
theorem run_remembers {x : VirtAddr} (hpool : base.base.val.toNat + count * 4096 ≤ 2 ^ 52)
    (hpast : (create base count front).Proper past) (ht : (create base count front).run past = t)
    (hfuture : t.Proper future) (hu : t.run future = u) (hv : t.tenant? k = some v)
    (hlease : (Title.got .free, x) ∈ t.leases k)
    (hstays : ∀ d ∈ future, ¬ d.Releases k (.got .free, x)) :
    ∃ w area memory, u.tenant? k = some w ∧ w.allocator = v.allocator ∧
      v.registry.get? x = some area ∧ w.registry.get? x = some area ∧
      (∀ y, area.Contains y →
        w.allocator.whereIs (u.shared w) y = v.allocator.whereIs (t.shared v) y) ∧
      ∀ (y : VirtAddr) (buffer : List UInt8),
        area.Encloses y.val.toNat (y.val.toNat + buffer.length) →
        v.allocator.readAt (t.shared v) y buffer =
          .ok (buffer.length, (List.range' y.val.toNat buffer.length).map memory) ∧
        w.allocator.readAt (u.shared w) y buffer =
          .ok (buffer.length, (List.range' y.val.toNat buffer.length).map
            (Deed.memoryAfter k memory future)) := by
  obtain ⟨rolls, hkept⟩ := kept_run hpool hpast ht
  obtain ⟨loose, hroll⟩ := hkept.tenant k v hv
  rw [← hroll.leases] at hlease
  obtain ⟨⟨lease, chain⟩, he, rfl⟩ := List.mem_map.1 hlease
  obtain ⟨rolls', r, hkept', hw, he', hfollows⟩ := hkept.run_follows hfuture hv he rfl hstays
  rw [hu] at hkept' hw hfollows
  obtain ⟨loose', hroll'⟩ := hkept'.tenant k _ hw
  obtain ⟨h, tail, rfl, harea, hget, hcount, hread⟩ := hroll.readAt_eq he
  obtain ⟨h', tail', hchain, harea', hget', -, hread'⟩ := hroll'.readAt_eq he'
  obtain ⟨rfl, rfl⟩ := List.cons.inj hchain
  have hfollows := hfollows h List.mem_cons_self
  refine ⟨_, h.area, h.memory t.pool, hw, rfl, hget, hget', fun y hy => ?_, fun y buffer hin =>
    ⟨hread y buffer hin, (hread' y buffer hin).trans ?_⟩⟩
  · have hsame := hroll.world.target_eq hroll'.world harea harea' hfollows.leaf hy
    have hbefore := Allocator.whereIs_eq (s := t.shared v) hroll.world.tables y
    have hafter := Allocator.whereIs_eq (s := u.shared ⟨v.allocator, r⟩) hroll'.world.tables y
    exact hafter.trans ((congrArg Except.ok hsame).trans hbefore.symm)
  · have hlow := hin.start_le
    have hhigh := hin.le_stop
    refine congrArg (fun bytes => Except.ok (buffer.length, bytes)) (List.map_congr_left fun z hz => ?_)
    have hz := List.mem_range'_1.1 hz
    exact hfollows.memory z (by omega) (by omega)

/-- The first tenant writes across two pages of what it allocated, while the second does likewise at the
same addresses and gives its memory back; an allocation fails at its second frame. -/
def smallSequel : List Deed :=
  [.act 0 (.write ⟨0x13ffe⟩ [1, 2, 3]), .act 1 (.write ⟨0x10ffe⟩ [4, 5, 6]),
    .frames (.failAfter 1), .act 0 (.request (.allocate 8000 .kernelLow .pageKernel)),
    .frames .clearFailure, .act 0 (.request (.mapDevice ⟨0x7010⟩ 20 .pageKernelUncached)),
    .act 1 (.release (.got .free, ⟨0x10000⟩)), .act 0 (.write ⟨0x13fff⟩ [7])]

theorem small_run_remembers : ∃ t u v x, small.Proper smallRun ∧ small.run smallRun = t ∧
    t.Proper smallSequel ∧ t.run smallSequel = u ∧ t.tenant? 0 = some v ∧
    (Title.got .free, x) ∈ t.leases 0 ∧
    ∃ w area memory, u.tenant? 0 = some w ∧ w.allocator = v.allocator ∧
      v.registry.get? x = some area ∧ w.registry.get? x = some area ∧
      (∀ y, area.Contains y →
        w.allocator.whereIs (u.shared w) y = v.allocator.whereIs (t.shared v) y) ∧
      ∀ (y : VirtAddr) (buffer : List UInt8),
        area.Encloses y.val.toNat (y.val.toNat + buffer.length) →
        v.allocator.readAt (t.shared v) y buffer =
          .ok (buffer.length, (List.range' y.val.toNat buffer.length).map memory) ∧
        w.allocator.readAt (u.shared w) y buffer =
          .ok (buffer.length, (List.range' y.val.toNat buffer.length).map
            (Deed.memoryAfter 0 memory smallSequel)) := by
  have hpast : small.Proper smallRun := by decide +kernel
  have hfuture : (small.run smallRun).Proper smallSequel := by decide +kernel
  have htenant : ((small.run smallRun).tenant? 0).isSome = true := by decide +kernel
  have hlease : (Title.got .free, ⟨0x13000⟩) ∈ (small.run smallRun).leases 0 := by decide +kernel
  obtain ⟨t, ht⟩ : ∃ t, small.run smallRun = t := ⟨_, rfl⟩
  rw [ht] at hfuture htenant hlease
  obtain ⟨v, hv⟩ := Option.isSome_iff_exists.1 htenant
  exact ⟨t, _, v, _, hpast, ht, hfuture, rfl, hv, hlease,
    run_remembers (by decide) hpast ht hfuture rfl hv hlease (by decide)⟩

end Hosting

end PagedMemory
