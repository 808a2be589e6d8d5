import Mathlib.Tactic
import PagedMemory.Proofs.Building
import PagedMemory.Proofs.Finding
import PagedMemory.Proofs.Freeing

/-!
# Device memory

Device memory is mapped byte for byte, from its first page to its last, if entries can point to all of
it. What ends too high is only found out page by page, when the area is there already.

* `Shared.ShowsDevice`: an area shows a range of device memory and nothing else.
* `mapDevice_runs`: whichever way it ends when device memory is mapped, and what is on the books then.
* `Hosting.run_maps_device`: in every state that is reached, what is answered shows the range that was
  asked for, and can be given back without a trace.
* `Hosting.run_device_ends`: every request is answered, and refused without a trace, unless the range
  ends above all that entries can point to. Then it may end in a fault, and the area stays.
-/

namespace PagedMemory

open Layout Tables
open Traced (events)

/-! ## What an area of device memory is like -/

/-- The range has bytes, ends within the 64-bit range, and reaches higher than entries can point. -/
def Beyond (device : PhysAddr) (size : UInt64) : Prop :=
  size ≠ 0 ∧ 2 ^ 52 < device.val.toNat + size.toNat ∧ device.val.toNat + size.toNat ≤ 2 ^ 64 - 4096

instance (device : PhysAddr) (size : UInt64) : Decidable (Beyond device size) := by
  unfold Beyond
  infer_instance

/-- The area at `x` shows `size` bytes of device memory, from `device` on. -/
structure Shared.ShowsDevice (a : Allocator) (device : PhysAddr) (size : UInt64) (prot : Entry)
    (x : VirtAddr) (area : Area) (s : Shared) : Prop where
  found : s.registry.findContaining? x = .ok (some area)
  kind : area.kind = .device
  start : area.address = x.pageBase
  offset : x.pageOffset = device.pageOffset
  aligned : (AreaKind.device.alignment (.ofNat (devicePages device size * 4096))).toNat ∣
    area.address.val.toNat
  place : area.physAddr = some ⟨Word.alignDown device.val pageSize⟩
  /-- it owns no frames -/
  pageCount : area.pageCount = 0
  owned : area.ownFrames s.machine = []
  /-- it has the pages in which these bytes lie, and a guard page -/
  whole : area.size.toNat = (devicePages device size + 1) * 4096
  leaf : ∀ k < devicePages device size, ∃ f : PageFrame,
    f.base.val.toNat = device.val.toNat / 4096 * 4096 + k * 4096 ∧
      Entry.leaf f prot = .ok (leafOn s.machine.pool a.root (area.firstPage + k))
  guard : ∀ y : VirtAddr, area.address.val.toNat + devicePages device size * 4096 ≤ y.val.toNat →
    y.val.toNat < area.stop → a.whereIs s y = .ok none
  inside : x.val.toNat + size.toNat ≤ area.address.val.toNat + devicePages device size * 4096
  bytes : ∀ i < size, a.whereIs s ⟨x.val + i⟩ = .ok (some ⟨device.val + i⟩)

/-- An area on the books that maps the pages of a range of device memory. -/
structure DeviceArea (a : Allocator) (device : PhysAddr) (size : UInt64) (prot : Entry) (area : Area)
    (q : Pool) : Prop where
  kind : area.kind = .device
  aligned : (AreaKind.device.alignment (.ofNat (devicePages device size * 4096))).toNat ∣
    area.address.val.toNat
  place : area.physAddr = some (PageFrame.containing device).base
  pages : area.pages = devicePages device size
  maps : MapsFirst a.root area
    (fun k => (runOf (.containing device) (devicePages device size))[k]?) prot area.pages q

section

variable {a : Allocator} {front : Front} {p q : Pool} {r : Registry} {s : Shared} {es : List Event}
  {loose : List PageFrame} {chains : List (List Holding)} {others : Estate} {area : Area}
  {device : PhysAddr} {size : UInt64} {prot : Entry} {kind : AreaKind} {f : PageFrame} {k : Nat}

theorem PageFrame.toNat_containing (device : PhysAddr) :
    (PageFrame.containing device).base.val.toNat = device.val.toNat / 4096 * 4096 :=
  Word.toNat_alignDown toNat_pageSize_eq

/-- The frames of a range of device memory, by their addresses. -/
theorem getElem?_runOf_device (hend : device.val.toNat + size.toNat ≤ 2 ^ 64 - 4096)
    (hf : (runOf (.containing device) (devicePages device size))[k]? = some f) :
    k < devicePages device size ∧ f.base.val.toNat = device.val.toNat / 4096 * 4096 + k * 4096 := by
  obtain ⟨hk, rfl⟩ := List.getElem?_eq_some_iff.1 hf
  rw [runOf, List.length_map, List.length_range] at hk
  refine ⟨hk, ?_⟩
  have hfirst := PageFrame.toNat_containing device
  rw [devicePages] at hk
  simp only [runOf, List.getElem_map, List.getElem_range]
  rw [PageFrame.toNat_advance (by omega), hfirst]

namespace DeviceArea

/-- All frames of the range have numbers, or else not all of it could be mapped. -/
theorem le_of_size_ne (h : DeviceArea a device size prot area q) (hsize : size ≠ 0)
    (hend : device.val.toNat + size.toNat ≤ 2 ^ 64 - 4096) :
    device.val.toNat + size.toNat ≤ 2 ^ 52 := by
  have hpos : 0 < size.toNat := Nat.pos_of_ne_zero fun hzero => hsize (UInt64.toNat_inj.1 hzero)
  have hpages := h.pages
  obtain ⟨f, hf, hnumbered, -⟩ := h.maps.first (devicePages device size - 1)
    (by rw [hpages, devicePages]; omega)
  obtain ⟨-, hbase⟩ := getElem?_runOf_device hend hf
  rw [PageFrame.Numbered, hbase, devicePages] at hnumbered
  omega

theorem backed (h : DeviceArea a device size prot area q) :
    Backed q a.root ⟨area, runOf (.containing device) (devicePages device size)⟩ where
  count := by
    rw [h.pages, runOf, List.length_map, List.length_range]
  leaf i f hf := by
    have hi : i < area.pages := by
      obtain ⟨hi, -⟩ := List.getElem?_eq_some_iff.1 hf
      rwa [runOf, List.length_map, List.length_range, ← h.pages] at hi
    obtain ⟨g, hg, hnumbered, hleaf⟩ := h.maps.first i hi
    obtain rfl : f = g := Option.some.inj (hf.symm.trans hg)
    rw [hleaf]
    exact ⟨Entry.leafTo_present hnumbered prot, Entry.leafTo_frame hnumbered prot⟩

/-- The area shows the range byte for byte. -/
theorem whereIs_add (h : DeviceArea a device size prot area s.machine.pool) (hwithin : area.Within a.block)
    (hs : Tables.Sound s.machine.pool a.root) (hend : device.val.toNat + size.toNat ≤ 2 ^ 52)
    {i : UInt64} (hi : i < size) :
    a.whereIs s ⟨area.address.val + device.pageOffset + i⟩ = .ok (some ⟨device.val + i⟩) := by
  have hbounded := hwithin.bounded
  have haligned := hwithin.aligned
  have hpages := h.pages
  have hbytes := hwithin.size_eq
  have hoffset : device.pageOffset.toNat = device.val.toNat % 4096 := toNat_offsetInPage device.val
  rw [UInt64.lt_iff_toNat_lt] at hi
  rw [Span.stop, hbytes, hpages, devicePages] at hbounded
  have hx : (area.address.val + device.pageOffset + i).toNat =
      area.address.val.toNat + device.val.toNat % 4096 + i.toNat := by
    rw [UInt64.toNat_add, UInt64.toNat_add, hoffset]
    omega
  have hy : (device.val + i).toNat = device.val.toNat + i.toNat := by
    rw [UInt64.toNat_add]
    omega
  -- the byte lies in this page of the range
  obtain ⟨k, hk⟩ : ∃ k, k = (device.val.toNat % 4096 + i.toNat) / 4096 := ⟨_, rfl⟩
  have hlt : k < devicePages device size := by
    rw [devicePages]
    omega
  obtain ⟨f, hf, hnumbered, -⟩ := h.maps.first k (hpages ▸ hlt)
  obtain ⟨-, hbase⟩ := getElem?_runOf_device (by omega) hf
  have hlow : area.address.val.toNat + k * 4096 ≤ (area.address.val + device.pageOffset + i).toNat := by
    omega
  have hhigh : (area.address.val + device.pageOffset + i).toNat <
      area.address.val.toNat + (k + 1) * 4096 := by omega
  rw [h.backed.whereIs (x := ⟨area.address.val + device.pageOffset + i⟩) hs hwithin hf hlow hhigh]
  refine congrArg (Except.ok ∘ some) (congrArg PhysAddr.mk (UInt64.toNat_inj.1 ?_))
  have hbyte := PageFrame.toNat_byteFor hnumbered ⟨area.address.val + device.pageOffset + i⟩
  rw [hbase] at hbyte
  refine hbyte.trans ?_
  rw [hx, hy]
  omega

end DeviceArea

/-- What is on the books, told without them. -/
theorem World.showsDevice (hw : World a s.machine.pool s.registry loose ([⟨area, []⟩] :: chains))
    (h : DeviceArea a device size prot area s.machine.pool)
    (hend : device.val.toNat + size.toNat ≤ 2 ^ 52) :
    s.ShowsDevice a device size prot ⟨area.address.val + device.pageOffset⟩ area := by
  have harea : area ∈ s.registry.areas := hw.mem_areas List.mem_cons_self (List.mem_singleton_self _)
  have hwithin := hw.within harea
  have hbounded := hwithin.bounded
  have haligned := hwithin.aligned
  have hbytes := hwithin.size_eq
  have hoffset : device.pageOffset.toNat = device.val.toNat % 4096 := toNat_offsetInPage device.val
  rw [h.pages] at hbytes
  rw [Span.stop] at hbounded
  have hx : (area.address.val + device.pageOffset).toNat =
      area.address.val.toNat + device.val.toNat % 4096 := by
    rw [UInt64.toNat_add, hoffset]
    omega
  exact {
    found := by
      refine hw.registry.findContaining?_eq harea ?_
      rw [Span.Contains, hx, Span.stop]
      omega
    kind := h.kind
    start := (hwithin.pageBase_add device.val).symm
    offset := by
      refine UInt64.toNat_inj.1 ((toNat_offsetInPage _).trans ?_)
      rw [hx, hoffset]
      omega
    aligned := h.aligned
    place := h.place
    pageCount := (hw.chained _ List.mem_cons_self).1
    owned := hw.ownFrames_eq List.mem_cons_self (List.mem_singleton_self _)
    whole := hbytes
    leaf := fun k hk => by
      obtain ⟨f, hf, hnumbered, hleaf⟩ := h.maps.first k (h.pages ▸ hk)
      obtain ⟨-, hbase⟩ := getElem?_runOf_device (by omega) hf
      exact ⟨f, hbase, by rw [hleaf, Entry.leaf_eq hnumbered]⟩
    guard := fun y hlow hhigh => by
      obtain ⟨stop, hstop, hval⟩ := Span.mappedEnd_eq_ok hwithin.bounded (by omega)
      rw [Span.stop] at hval
      have hle : stop.val ≤ y.val := UInt64.le_iff_toNat_le.2 (by omega)
      rw [Allocator.whereIs_eq hw.tables, target_eq_none]
      rw [hwithin.pageNumber_guard hstop hle hhigh]
      exact hw.leafOn_guard harea
    inside := by
      rw [hx, devicePages]
      omega
    bytes := fun i hi => h.whereIs_add hwithin hw.tables hend hi }

/-! ## How mapping ends -/

theorem Allocator.reserve_runs (hbooks : Books a p r others)
    {E : Fault → Pool × List Event × Registry → Prop} :
    Runs Shared.noted front (a.reserve size kind).run (p, es, r)
      (fun answer t => t.1 = p ∧ match answer with
        | .error e => e = .outOfSpace size ∧ t.2.2 = r
        | .ok span => ∃ area : Area, area.toSpan = span ∧ r.Fits size kind a.window.range area ∧
            t.2.2 = r.insert area) E := by
  refine Runs.run_atomically (Runs.bind (Shared.reserve_runs hbooks.registry a.window.start_lt_stop) ?_)
  intro answer t ht
  cases answer with
  | error e =>
    obtain ⟨rfl, rfl⟩ := ht
    refine Runs.bind (Q := fun _ t => t = (p, es, r)) (Runs.onShared (Does.noted (Does.report rfl))) ?_
    rintro _ _ rfl
    exact Runs.pure ⟨rfl, rfl, rfl⟩
  | ok span =>
    obtain ⟨area, hspan, hfits, rfl⟩ := ht
    exact Runs.pure ⟨rfl, area, hspan, hfits, rfl⟩

/-- The errors that those who map device memory have to reckon with. -/
def Refusal (e : AllocError) : Prop := e = .outOfMemory ∨ ∃ n, e = .outOfSpace n

/-- The books of others, when a mapping of device memory was answered. -/
def Maps (a : Allocator) (device : PhysAddr) (size : UInt64) (prot : Entry) (others : Estate) (p : Pool)
    (answer : Except AllocError VirtAddr) (t : Pool × List Event × Registry) : Prop :=
  Spares a others p t.1 ∧ match answer with
  | .error e => Refusal e ∧ Books a t.1 t.2.2 others
  | .ok x => device.val.toNat + size.toNat ≤ 2 ^ 52 ∧ ∃ area : Area,
      x = ⟨area.address.val + device.pageOffset⟩ ∧ DeviceArea a device size prot area t.1 ∧
        Books a t.1 t.2.2 (.ofChain [⟨area, []⟩] ++ others)

/-- Likewise when it was a fault. -/
structure Stuck (a : Allocator) (device : PhysAddr) (size : UInt64) (others : Estate) (p : Pool)
    (e : Fault) (t : Pool × List Event × Registry) : Prop where
  cause : e = .fieldTooSmall EntryField.frameNumber.max
  beyond : Beyond device size
  spares : Spares a others p t.1
  books : ∃ area : Area, area.kind = .device ∧ Books a t.1 t.2.2 (.ofChain [⟨area, []⟩] ++ others)

/-- The area for the pages of a range. -/
theorem Registry.Fits.pages_device {window : Interval} {bytes : UInt64}
    (h : r.Fits bytes .device window area) (hbytes : bytes.toNat = devicePages device size * 4096) :
    area.pages = devicePages device size ∧
      (AreaKind.device.alignment (.ofNat (devicePages device size * 4096))).toNat ∣
        area.address.val.toNat := by
  refine ⟨?_, ?_⟩
  · rw [Span.pages, h.padded, paddedSize, hbytes, toNat_pageSize,
      roundUp_of_dvd (by decide) (Nat.dvd_mul_left _ _)]
    omega
  · rw [← hbytes, UInt64.ofNat_toNat]
    exact h.kindAligned

/-- A new area is mapped as a whole, or goes again, or, for a frame that is too high, gets stuck. -/
theorem mapOrUndo_runs {source : FrameSource} {frames : Nat → Option PageFrame} {rep : Report}
    {sum : Except Fault VirtAddr} {x : VirtAddr} (hsource : ∀ q, Walk.Gives source a.root q frames)
    (hrep : rep.isNote = false) (hsum : sum = .ok x)
    (hbooks : Books a p r (.ofChain [⟨area, []⟩] ++ others))
    (hempty : ∀ n, area.Covers n → leafOn p a.root n = .empty) (what : Undone) :
    Runs Shared.noted front (a.mapOrUndo what area.address prot source do
        Allocator.onMachine (Machine.report rep)
        return .ok (← Allocator.orFault sum)).run (p, es, r)
      (fun answer t => Spares a others p t.1 ∧ match answer with
        | .error e => e = .outOfMemory ∧ Books a t.1 t.2.2 others
        | .ok y => y = x ∧ MapsFirst a.root area frames prot area.pages t.1 ∧
            Books a t.1 t.2.2 (.ofChain [⟨area, []⟩] ++ others))
      fun e t => Spares a others p t.1 ∧ Books a t.1 t.2.2 (.ofChain [⟨area, []⟩] ++ others) ∧
        e = .fieldTooSmall EntryField.frameNumber.max ∧
          ∃ k < area.pages, ∃ f, frames k = some f ∧ ¬ f.Numbered := by
  have hmap : Runs Shared.noted front (a.mapArea area.address prot source).run (p, es, r) _ _ :=
    mapArea_runs (h := ⟨area, []⟩) hsource hbooks
  refine Runs.run_bind (Runs.mono hmap (fun _ _ h => h) ?_) ?_
  · rintro e t ⟨⟨hleft, hpt⟩, hhigh⟩
    exact ⟨hpt, hleft, hhigh hempty⟩
  · rintro ⟨answer, taken⟩ t ⟨⟨hleft, hpt⟩, hanswer⟩
    cases answer with
    | error e =>
      have hundo : Behaves a .strict (a.undo what area.address) (.ofChain [⟨area, []⟩]) t.1
          fun _ e _ => e = ∅ := undo_behaves (h := ⟨area, []⟩) what rfl
      refine Runs.run_bind (hundo.runs_strict hleft) ?_
      rintro _ v ⟨_, hback, htv, rfl⟩
      exact Runs.pure ⟨hpt.trans htv, hanswer, hback⟩
    | ok _ =>
      have hreport : Does ⟨front, t.2.1⟩ (Machine.report rep) t.1 fun _ q => q = t.1 :=
        Does.report rfl hrep
      refine Runs.run_bind hreport.run_onMachine ?_
      rintro _ _ ⟨_, rfl, rfl⟩
      rw [hsum, Allocator.orFault, pure_bind]
      exact Runs.pure ⟨hpt, rfl, hanswer hempty, hleft⟩

/-- To map device memory is to show it, to refuse, or to get stuck. -/
theorem mapDevice_runs (hbooks : Books a p r others) :
    Runs Shared.noted front (a.mapDevice device size prot).run (p, es, r)
      (Maps a device size prot others p) (Stuck a device size others p) := by
  rw [Allocator.mapDevice]
  rcases hrange : Allocator.deviceFrames? device size with _ | ⟨first, stop⟩
  · exact Runs.pure ⟨.refl, Or.inl rfl, hbooks⟩
  obtain ⟨hsize, hend, hfirst, hstop⟩ := Allocator.deviceFrames?_eq_some hrange
  obtain ⟨bytes, hdiff, hbytes, hcount⟩ := Allocator.deviceBytes_eq_ok hrange
  have hlt := stop.toNat_lt
  obtain rfl : first = .containing device :=
    PageFrame.ext_base (UInt64.toNat_inj.1 (hfirst.trans (PageFrame.toNat_containing device).symm))
  simp only [hdiff, hcount, Allocator.orFault, pure_bind]
  refine Runs.run_bind (Allocator.reserve_runs hbooks) ?_
  rintro answer ⟨p, fs, _⟩ ⟨rfl, hanswer⟩
  cases answer with
  | error e =>
    obtain ⟨rfl, rfl⟩ := hanswer
    exact Runs.pure ⟨.refl, Or.inr ⟨_, rfl⟩, hbooks⟩
  | ok span =>
    obtain ⟨fresh, rfl, hfits, rfl⟩ := hanswer
    obtain ⟨hpages, haligned⟩ := hfits.pages_device hbytes
    have hreserved : Books a p (r.insert fresh) (.ofChain [⟨fresh, []⟩] ++ others) :=
      World.insert hbooks (World.window hbooks) hfits
    have hwithin := hreserved.within (Registry.mem_insert.2 (Or.inl rfl))
    refine Runs.run_bind (Behaves.runs_strict (noteDevice_behaves _) hreserved) ?_
    rintro _ ⟨u, gs, r'⟩ ⟨_, hnoted, hpu, rfl, hown⟩
    -- the area is there, and none of its pages is mapped
    let area : Area := { fresh with physAddr := some (PageFrame.containing device).base }
    have hkind : area.kind = .device := congrArg (·.kind) hfits.fresh
    have hempty : ∀ n, area.Covers n → leafOn u a.root n = .empty := fun n hn => by
      have hcovered : CoveredBy (Estate.ofChain [⟨fresh, []⟩]).chains n :=
        Estate.coveredBy_ofChain.2 ⟨_, List.mem_singleton_self _, hn⟩
      rw [hown.leaf n (hwithin.covers_lt hn) hcovered]
      exact World.leafOn_fresh hbooks (World.window hbooks) hfits hn
    refine Runs.mono (mapOrUndo_runs (fun _ => gives_run (by omega)) rfl (hwithin.add_eq_ok device.val).1
      hnoted hempty .deviceMapping) ?_ ?_
    · rintro answer t ⟨hut, hanswer⟩
      refine ⟨hpu.trans hut, ?_⟩
      cases answer with
      | error e => exact hanswer.imp_left Or.inl
      | ok y =>
        obtain ⟨rfl, hmaps, hleft⟩ := hanswer
        have hshown : DeviceArea a device size prot area t.1 := ⟨hkind, haligned, rfl, hpages, hmaps⟩
        exact ⟨hshown.le_of_size_ne hsize hend, area, rfl, hshown, hleft⟩
    · rintro e t ⟨hut, hleft, rfl, k, hk, f, hf, hnot⟩
      refine ⟨rfl, ⟨hsize, ?_, hend⟩, hpu.trans hut, area, hkind, hleft⟩
      by_contra hle
      refine hnot (numbered_of_mem_runOf ?_ (List.mem_of_getElem? hf))
      rw [hfirst, devicePages]
      omega

end

/-! ## Device memory on hosts -/

namespace Hosting

variable {base : PageFrame} {count : Nat} {front : Front} {t : Hosting} {deeds : List Deed} {k : Nat}
  {v : Tenant}

/-- The books of a tenant, and what mapping device memory makes of them. -/
theorem mapDevice_ends (hpool : base.base.val.toNat + count * 4096 ≤ 2 ^ 52)
    (hproper : (create base count front).Proper deeds) (ht : (create base count front).run deeds = t)
    (hv : t.tenant? k = some v) (device : PhysAddr) (size : UInt64) (prot : Entry) :
    ∃ loose chains, World v.allocator (t.shared v).machine.pool (t.shared v).registry loose chains ∧
      (∀ f ∈ t.frames, f ∈ loose) ∧
      Ends (v.allocator.mapDevice device size prot).run (t.shared v)
        (fun answer s => Maps v.allocator device size prot ⟨loose, chains⟩ (t.shared v).machine.pool answer
          (Shared.noted.shown s))
        fun e s => Stuck v.allocator device size ⟨loose, chains⟩ (t.shared v).machine.pool e
          (Shared.noted.shown s) := by
  obtain ⟨rolls, hkept⟩ := kept_run hpool hproper ht
  obtain ⟨loose, hroll⟩ := hkept.tenant k v hv
  have hbooks : Books v.allocator (t.shared v).machine.pool (t.shared v).registry
      ⟨loose, (rolls k).chains⟩ := hroll.world
  refine ⟨loose, (rolls k).chains, hroll.world, fun f hf => hkept.mem_loose hv hroll hf, ?_⟩
  exact (mapDevice_runs hbooks (t.shared v) rfl rfl).mono (fun _ _ h => h.2) fun _ _ h => h.2

/-- **Device memory**: every request for memory that entries can point to is answered. Where the answer
is an address, an area is new that shows this memory and nothing else. It can be given back by any
address in its first page, and then nothing has happened but that tables were added. -/
theorem run_maps_device (hpool : base.base.val.toNat + count * 4096 ≤ 2 ^ 52)
    (hproper : (create base count front).Proper deeds) (ht : (create base count front).run deeds = t)
    (hv : t.tenant? k = some v) (device : PhysAddr) (size : UInt64) (prot : Entry)
    (hend : device.val.toNat + size.toNat ≤ 2 ^ 52) :
    ∃ answer s, (v.allocator.mapDevice device size prot).run (t.shared v) = .ok answer s ∧
      ∀ x, answer = .ok x → ∃ area, (t.shared v).Gains v.allocator [area] s ∧
        s.ShowsDevice v.allocator device size prot x area ∧
        ∀ y : VirtAddr, y.pageBase = area.address → ∃ s' es,
          (v.allocator.unmapDevice y).run s = .ok () s' ∧ events s' = events s ++ es ∧
          (∀ f, .returned f ∉ es) ∧ (t.shared v).Untouched v.allocator t.frames s' := by
  obtain ⟨loose, chains, hw, hloose, hends⟩ := mapDevice_ends hpool hproper ht hv device size prot
  unfold Ends at hends
  split at hends
  next answer s hrun =>
    refine ⟨answer, s, hrun, ?_⟩
    rintro x rfl
    obtain ⟨hspares, -, area, rfl, hshown, hbooks⟩ := hends
    have hw' : World v.allocator s.machine.pool s.registry loose ([⟨area, []⟩] :: chains) :=
      books_ofChain.1 hbooks
    refine ⟨area, hw.gains hw' hspares, hw'.showsDevice hshown hend, fun y hy => ?_⟩
    have hjob : Behaves v.allocator .strict (v.allocator.unmapDevice y) (.ofChain [⟨area, []⟩])
        s.machine.pool fun _ e _ => e = .ofFrames [] ++ .ofChain [] := unmapDevice_behaves hy.symm
    obtain ⟨_, s', hrun', _, hpasses, rfl⟩ := hjob.answers nofun hbooks nofun
    obtain ⟨es, hes, hfaded⟩ := (Allocator.unmapDevice_givesBack y).recedes.run hrun'
    have hback : World v.allocator s'.machine.pool s'.registry loose chains := hpasses.books
    refine ⟨s', es, hrun', hes, fun f hf => ?_, ?_⟩
    · have hnone := (hw'.loses hback hpasses.spares hfaded).returned f
      have howned : [area].flatMap (·.ownFrames s.machine) = [] := by
        simpa using (hw'.showsDevice hshown hend).owned
      rw [List.map_singleton, howned, if_neg List.not_mem_nil] at hnone
      exact List.count_eq_zero.1 hnone hf
    · exact (hw.untouched hback (hspares.trans hpasses.spares)).mono hloose
  next e s hrun => exact absurd hends.beyond.2.1 (Nat.not_lt.2 hend)

/-- A range that straddles two pages. -/
theorem small_run_maps_device : ∃ t v s area s', small.Proper smallRun ∧ small.run smallRun = t ∧
    t.tenant? 0 = some v ∧
    (v.allocator.mapDevice ⟨0x7ff0⟩ 0x20 .pageKernelUncached).run (t.shared v) = .ok (.ok ⟨0x10ff0⟩) s ∧
    (t.shared v).Gains v.allocator [area] s ∧
    s.ShowsDevice v.allocator ⟨0x7ff0⟩ 0x20 .pageKernelUncached ⟨0x10ff0⟩ area ∧
    (v.allocator.unmapDevice ⟨0x10010⟩).run s = .ok () s' ∧
    (t.shared v).Untouched v.allocator t.frames s' := by
  have hproper : small.Proper smallRun := by decide +kernel
  have hgets : (small.run smallRun).answers 0 (fun a => a.mapDevice ⟨0x7ff0⟩ 0x20 .pageKernelUncached)
      (fun _ answer _ => answer = .ok ⟨0x10ff0⟩) = true := by decide +kernel
  obtain ⟨t, ht⟩ : ∃ t, small.run smallRun = t := ⟨_, rfl⟩
  rw [ht] at hgets
  obtain ⟨v, answer, s, hv, hrun, hanswer⟩ := exists_of_answers hgets
  obtain rfl := of_decide_eq_true hanswer
  obtain ⟨answer', s₁, hrun', hmaps⟩ :=
    run_maps_device (by decide) hproper ht hv ⟨0x7ff0⟩ 0x20 .pageKernelUncached (by decide)
  obtain ⟨rfl, rfl⟩ := EStateM.Result.ok.inj (hrun.symm.trans hrun')
  obtain ⟨area, hgains, hshows, hback⟩ := hmaps _ rfl
  have hfirst : (VirtAddr.mk 0x10010).pageBase = area.address := (by decide +kernel :
    (VirtAddr.mk 0x10010).pageBase = (VirtAddr.mk 0x10ff0).pageBase).trans hshows.start.symm
  obtain ⟨s', es, hunmap, -, -, huntouched⟩ := hback ⟨0x10010⟩ hfirst
  exact ⟨t, v, s, area, s', hproper, ht, hv, hrun, hgains, hshows, hunmap, huntouched⟩

/-- **No half-way ends but one**: every request for device memory is answered, and a refusal leaves nothing
behind but tables, unless the range reaches higher than entries can point. Then it is refused, or it is
a fault when there is an area already, and the area stays. -/
theorem run_device_ends (hpool : base.base.val.toNat + count * 4096 ≤ 2 ^ 52)
    (hproper : (create base count front).Proper deeds) (ht : (create base count front).run deeds = t)
    (hv : t.tenant? k = some v) (device : PhysAddr) (size : UInt64) (prot : Entry) :
    (∃ answer s, (v.allocator.mapDevice device size prot).run (t.shared v) = .ok answer s ∧
      (∀ e, answer = .error e → Refusal e ∧ (t.shared v).Untouched v.allocator t.frames s) ∧
      ∀ x, answer = .ok x → ¬ Beyond device size) ∨
    Beyond device size ∧ ∃ s area, area.kind = .device ∧ (t.shared v).Gains v.allocator [area] s ∧
      (v.allocator.mapDevice device size prot).run (t.shared v) =
        .error (.fieldTooSmall EntryField.frameNumber.max) s := by
  obtain ⟨loose, chains, hw, hloose, hends⟩ := mapDevice_ends hpool hproper ht hv device size prot
  unfold Ends at hends
  split at hends
  next answer s hrun =>
    refine Or.inl ⟨answer, s, hrun, ?_, ?_⟩
    · rintro e rfl
      obtain ⟨hspares, hrefusal, hback⟩ := hends
      exact ⟨hrefusal, (hw.untouched hback hspares).mono hloose⟩
    · rintro x rfl
      obtain ⟨-, hend, -⟩ := hends
      exact fun hbeyond => absurd hbeyond.2.1 (Nat.not_lt.2 hend)
  next e s hrun =>
    obtain ⟨rfl, hbeyond, hspares, area, hkind, hbooks⟩ := hends
    exact Or.inr ⟨hbeyond, s, area, hkind, hw.gains (books_ofChain.1 hbooks) hspares, hrun⟩

/-- A range that is larger than the window. -/
theorem small_run_device_ends : ∃ t v e s, small.Proper smallRun ∧ small.run smallRun = t ∧
    t.tenant? 0 = some v ∧
    (v.allocator.mapDevice ⟨0x7000⟩ 0x20000 .pageKernel).run (t.shared v) = .ok (.error e) s ∧
    Refusal e ∧ (t.shared v).Untouched v.allocator t.frames s := by
  have hproper : small.Proper smallRun := by decide +kernel
  have hrefuses : (small.run smallRun).answers 0 (fun a => a.mapDevice ⟨0x7000⟩ 0x20000 .pageKernel)
      (fun _ answer _ => answer = .error (.outOfSpace 0x20000)) = true := by decide +kernel
  obtain ⟨t, ht⟩ : ∃ t, small.run smallRun = t := ⟨_, rfl⟩
  rw [ht] at hrefuses
  obtain ⟨v, answer, s, hv, hrun, hanswer⟩ := exists_of_answers hrefuses
  obtain rfl := of_decide_eq_true hanswer
  rcases run_device_ends (by decide) hproper ht hv ⟨0x7000⟩ 0x20000 .pageKernel with
    ⟨answer', s', hrun', hrefusal, -⟩ | ⟨hbeyond, -⟩
  · obtain ⟨rfl, rfl⟩ := EStateM.Result.ok.inj (hrun.symm.trans hrun')
    exact ⟨t, v, _, s, hproper, ht, hv, hrun, hrefusal _ rfl⟩
  · exact absurd hbeyond (by decide)

/-- A host whose one tenant has done nothing yet. -/
def sole : Hosting := small.run [.found Setting.small.window]

/-- Entries can point to the first of two pages, but not to the second. The fault leaves an area behind,
and the first page mapped. -/
theorem sole_device_stuck : ∃ v s, sole.tenant? 0 = some v ∧
    (v.allocator.mapDevice ⟨0xffffffffff000⟩ 0x2000 .pageKernel).run (sole.shared v) =
      .error (.fieldTooSmall 0xffffffffff) s ∧
    v.registry.areas = [] ∧ s.registry.areas ≠ [] ∧
    v.allocator.whereIs (sole.shared v) ⟨0x10000⟩ = .ok none ∧
    v.allocator.whereIs s ⟨0x10000⟩ = .ok (some ⟨0xffffffffff000⟩) := by
  have hfaults : sole.faults 0 (fun a => a.mapDevice ⟨0xffffffffff000⟩ 0x2000 .pageKernel)
      (fun v e s => e = .fieldTooSmall 0xffffffffff ∧ v.registry.areas = [] ∧ s.registry.areas ≠ [] ∧
        v.allocator.whereIs (sole.shared v) ⟨0x10000⟩ = .ok none ∧
        v.allocator.whereIs s ⟨0x10000⟩ = .ok (some ⟨0xffffffffff000⟩)) = true := by decide +kernel
  obtain ⟨v, e, s, hv, hrun, hafter⟩ := exists_of_faults hfaults
  obtain ⟨hcause, hafter⟩ := of_decide_eq_true hafter
  exact ⟨v, s, hv, hcause ▸ hrun, hafter⟩

end Hosting

end PagedMemory
