import Mathlib.Tactic
import PagedMemory.Proofs.Allocation

/-!
# Memory of others, and what clients give back

* `mapFrames_behaves`, `mapDevice_behaves`: an area over memory that the allocator does not own comes
  on the books without frames, or nothing does.
* `free_behaves`, `unmapFrames_behaves`, `unmapDevice_behaves`: what the three calls make of an area
  at the head of a chain. The first takes the whole chain, the others that area alone.
-/

namespace PagedMemory

open Layout Tables

variable {a : Allocator} {T : Terms} {p q : Pool} {r : Registry} {loose : List PageFrame}
  {chains : List (List Holding)} {rest : List Holding} {h : Holding} {area : Area} {own : Estate}

/-! ## Sources that are not arrays -/

/-- Frames side by side are numbered as long as the last one is. -/
theorem PageFrame.numbered_advance {first : PageFrame} {count i : Nat}
    (hlast : first.base.val.toNat + count * 4096 ≤ 2 ^ 52) (hi : i < count) :
    (first.advance i).Numbered := by
  rw [Numbered, toNat_advance (by omega)]
  omega

/-- The frames from `first` on. -/
def runOf (first : PageFrame) (count : Nat) : List PageFrame := (List.range count).map first.advance

/-- Frames side by side that end within the 64-bit range can all be named. -/
theorem FrameSource.run_eq {first : PageFrame} {count : Nat}
    (hlast : first.base.val.toNat + count * 4096 ≤ 2 ^ 64) :
    run first count = .of fun k => (runOf first count)[k]? := by
  funext k
  rw [run, of]
  split
  next hk =>
    have hget : (runOf first count)[k]? = some (first.advance k) := by simp [runOf, hk]
    rw [PageFrame.following_eq_ok (by omega), hget]
    rfl
  next hk => simp [runOf, hk]

theorem gives_run {root first : PageFrame} {count : Nat}
    (hlast : first.base.val.toNat + count * 4096 ≤ 2 ^ 64) :
    Walk.Gives (.run first count) root p fun k => (runOf first count)[k]? := by
  rw [FrameSource.run_eq hlast]
  exact Walk.gives_of

theorem run_mute {first : PageFrame} {count : Nat} (i : Nat) :
    Mute (FrameSource.run first count i) := by
  rw [FrameSource.run]
  split
  · exact Mute.bind (Mute.lift _) fun _ => Mute.pure _
  · exact Mute.pure none

theorem numbered_of_mem_runOf {first f : PageFrame} {count : Nat}
    (hlast : first.base.val.toNat + count * 4096 ≤ 2 ^ 52) (hf : f ∈ runOf first count) :
    f.Numbered := by
  obtain ⟨k, hk, rfl⟩ := List.mem_map.1 hf
  exact PageFrame.numbered_advance hlast (List.mem_range.1 hk)

/-! ## Mapping -/

/-- The pages of an area that are mapped show some of these frames. -/
def Holding.ShowsOf (p : Pool) (root : PageFrame) (frames : List PageFrame) (h : Holding) : Prop :=
  ∀ n, h.area.Covers n → leafOn p root n ≠ .empty → (leafOn p root n).frame ∈ frames

/-- How a mapping of memory of others can end: with a new area that owns no frames, starts where the
answer says and shows the frames of others, or with nothing. -/
def Borrows (a : Allocator) (kind : AreaKind) (start : VirtAddr → VirtAddr) (frames : List PageFrame)
    (answer : Except AllocError VirtAddr) (e : Estate) (q : Pool) : Prop :=
  match answer with
  | .error _ => e = ∅
  | .ok x => ∃ h, h.area.address = start x ∧ h.area.kind = kind ∧ h.frames = [] ∧
      e = .ofChain [h] ∧ h.ShowsOf q a.root frames

theorem MapsFirst.showsOf {frames : List PageFrame} {prot : Entry} {root : PageFrame} {count : Nat}
    (hm : MapsFirst root h.area (fun k => frames[k]?) prot count q) : h.ShowsOf q root frames := by
  rintro n ⟨hlow, hhigh⟩ hmapped
  obtain ⟨k, rfl⟩ := Nat.exists_eq_add_of_le hlow
  by_cases hk : k < count
  · obtain ⟨f, hf, hnumbered, hleaf⟩ := hm.first k hk
    rw [hleaf, Entry.leafTo_frame hnumbered]
    exact List.mem_of_getElem? hf
  · exact absurd (hm.others k (Nat.not_lt.1 hk) (Nat.lt_of_add_lt_add_left hhigh)) hmapped

/-- Maps an area over memory of others, and goes on with `finish`; a failure is undone. -/
def Allocator.mapOrUndo (a : Allocator) (what : Undone) (address : VirtAddr) (prot : Entry)
    (source : FrameSource) (finish : Job (Except AllocError VirtAddr)) :
    Job (Except AllocError VirtAddr) := do
  match (← a.mapArea address prot source).1 with
  | .error e =>
    a.undo what address
    return .error e
  | .ok () => finish

section

variable {source : FrameSource} {frames : List PageFrame} {kind : AreaKind}
  {start : VirtAddr → VirtAddr} {prot : Entry}

/-- A new area is mapped. If all goes well it stays. -/
theorem mapOrUndo_behaves (hempty : ∀ n, area.Covers n → leafOn p a.root n = .empty)
    (hwithin : area.Within a.block) (hkind : area.kind = kind)
    (hmute : ∀ i, Mute (source i)) (hsource : ∀ q, Walk.Gives source a.root q fun k => frames[k]?)
    (hfits : T = .lenient ∨ ∀ f ∈ frames, f.Numbered)
    {finish : Job (Except AllocError VirtAddr)}
    (hfinish : ∀ q, Behaves a T finish (.ofChain [⟨area, []⟩]) q fun answer e u =>
      e = .ofChain [⟨area, []⟩] ∧ Spares a (.ofChain [⟨area, []⟩]) q u ∧
        ∃ x, answer = .ok x ∧ area.address = start x)
    (what : Undone) :
    Behaves a T (a.mapOrUndo what area.address prot source finish) (.ofChain [⟨area, []⟩]) p
      (Borrows a kind start frames) := by
  have hgives : ∀ q r others, Books a q r (∅ ++ .ofChain [⟨area, []⟩] ++ others) →
      Spares a (∅ ++ .ofChain [⟨area, []⟩]) p q → Walk.Gives source a.root q fun k => frames[k]? :=
    fun q _ _ _ _ => hsource q
  refine Behaves.bind (mapArea_behaves hmute hgives (hfits.imp (fun hT => ⟨hT, rfl⟩) fun h =>
    ⟨hempty, fun k f hf => h f (List.mem_of_getElem? hf)⟩)) ?_
  rintro ⟨answer, taken⟩ _ q ⟨rfl, hq⟩
  cases answer with
  | error e =>
    have hundo : Behaves a T (a.undo what area.address) (.ofChain [⟨area, []⟩]) q
        fun _ e _ => e = ∅ := undo_behaves (h := ⟨area, []⟩) what rfl
    refine Behaves.bind hundo ?_
    rintro _ _ _ rfl
    exact Behaves.pure rfl
  | ok _ =>
    obtain ⟨count, hmaps, -⟩ := hq.maps hempty
    refine (hfinish q).imp ?_
    rintro _ _ u ⟨rfl, hspares, x, rfl, hx⟩
    have hmaps' : MapsFirst a.root area (fun k => frames[k]?) prot count u := hmaps.of_leaf fun n hn =>
      hspares.leaf n (hwithin.covers_lt hn) ⟨area, List.mem_cons_self, hn⟩
    exact ⟨_, hx, hkind, rfl, rfl, hmaps'.showsOf⟩

theorem frameTotal_does (hp : p.Sound) :
    Does back Machine.frameTotal p fun total q => q = p ∧ total.toNat < 2 ^ 52 := by
  refine Runs.bind_get fun m hm _ => Runs.pure ⟨rfl, Machine.stated_lt ?_⟩
  obtain rfl : m.pool = p := hm
  have hbelow := hp.below
  omega

/-- As many frames as there can be take a number of bytes that is a word. -/
theorem bytes_eq_ok {total : UInt64} (htotal : total.toNat < 2 ^ 52)
    (hle : ¬ (frames.length = 0 ∨ total.toNat < frames.length)) :
    ∃ bytes, Word.mul (.ofNat frames.length) pageSize = .ok bytes ∧
      bytes.toNat = frames.length * 4096 := by
  have hcount : (UInt64.ofNat frames.length).toNat = frames.length :=
    UInt64.toNat_ofNat_of_lt' (by have : UInt64.size = 2 ^ 64 := rfl; omega)
  obtain ⟨bytes, hbytes, hval⟩ := Word.mul_eq_ok (x := .ofNat frames.length) (y := pageSize) (by
    rw [hcount, toNat_pageSize]
    omega)
  exact ⟨bytes, hbytes, by rw [hval, hcount, toNat_pageSize]⟩

theorem mapFrames_behaves (hfits : T = .lenient ∨ ∀ f ∈ frames, f.Numbered) :
    Behaves a T (a.mapFrames frames prot) ∅ p (Borrows a .borrowed id frames) := by
  refine Behaves.bind (Q := fun total e _ => e = ∅ ∧ total.toNat < 2 ^ 52)
    (Behaves.looks fun _ _ _ _ hbooks _ =>
      Runs.imp (frameTotal_does hbooks.pool) fun _ _ hq => ⟨hq.1, rfl, hq.2⟩) ?_
  rintro total _ p ⟨rfl, htotal⟩
  split
  · exact Behaves.pure rfl
  next hcount =>
  obtain ⟨bytes, hbytes, -⟩ := bytes_eq_ok htotal hcount
  rw [hbytes, Allocator.orFault, pure_bind]
  refine Behaves.bind (reserveIn_behaves (fun hbooks => World.window hbooks)
    (Or.inr a.window.start_lt_stop)) ?_
  rintro answer e q hreserved
  cases answer with
  | error e =>
    obtain rfl := hreserved
    exact Behaves.pure rfl
  | ok span =>
    obtain ⟨r, area, rfl, hfits', rfl, hwithin, hempty⟩ := hreserved
    exact mapOrUndo_behaves hempty hwithin (congrArg (·.kind) hfits'.fresh) (fun _ => Mute.pure _)
      (fun _ => Walk.gives_ofList) hfits
      (fun q => Behaves.pure ⟨rfl, .refl, area.address, rfl, rfl⟩) .borrowedMapping

/-- The first page of an area lies within the address space. -/
theorem Span.Within.add_eq_ok {b : Nat} {s : Span} (hs : s.Within b) (x : UInt64) :
    s.address.add (offsetInPage x) = .ok ⟨s.address.val + offsetInPage x⟩ ∧
      (s.address.val + offsetInPage x).toNat = s.address.val.toNat + x.toNat % 4096 := by
  have hoffset := toNat_offsetInPage x
  have hbounded := hs.bounded
  have htwo := hs.twoPages
  rw [Span.stop] at hbounded
  have hsum : Word.add? s.address.val (offsetInPage x) = some (s.address.val + offsetInPage x) :=
    Word.add?_eq_some_iff.2 ⟨by omega, rfl⟩
  refine ⟨?_, (Word.toNat_of_add?_eq_some hsum).trans (by rw [hoffset])⟩
  rw [VirtAddr.add, Word.add, hsum]
  rfl

/-- An address in the first page of an area tells where the area starts. -/
theorem Span.Within.pageBase_add {b : Nat} {s : Span} (hs : s.Within b) (x : UInt64) :
    (VirtAddr.mk (s.address.val + offsetInPage x)).pageBase = s.address := by
  have haligned := hs.aligned
  obtain ⟨-, hsum⟩ := hs.add_eq_ok x
  have hval : (VirtAddr.mk (s.address.val + offsetInPage x)).pageBase.val = s.address.val := by
    apply UInt64.toNat_inj.1
    rw [VirtAddr.toNat_pageBase]
    change (s.address.val + offsetInPage x).toNat / 4096 * 4096 = _
    rw [hsum]
    omega
  exact congrArg VirtAddr.mk hval

/-- The number of pages that hold a range of device memory. -/
def devicePages (device : PhysAddr) (size : UInt64) : Nat :=
  (device.val.toNat + size.toNat + 4095) / 4096 - device.val.toNat / 4096

namespace Allocator

variable {device : PhysAddr} {size stop : UInt64} {first : PageFrame}

/-- A range that has bytes, and ends where its last page does not end the address space. -/
theorem deviceFrames?_cases (device : PhysAddr) (size : UInt64) :
    (size = 0 ∨ 2 ^ 64 - 4096 < device.val.toNat + size.toNat) ∧ deviceFrames? device size = none ∨
      size ≠ 0 ∧ device.val.toNat + size.toNat ≤ 2 ^ 64 - 4096 ∧ ∃ stop,
        deviceFrames? device size = some (.containing device, stop) ∧
        stop.toNat = (device.val.toNat + size.toNat + 4095) / 4096 * 4096 := by
  by_cases hsum : device.val.toNat + size.toNat < 2 ^ 64
  · have hlast : Word.add? device.val size = some (device.val + size) :=
      Word.add?_eq_some_iff.2 ⟨hsum, rfl⟩
    have hval := Word.toNat_of_add?_eq_some hlast
    simp only [deviceFrames?, hlast, Option.bind_eq_bind, Option.bind_some]
    by_cases hsize : size = 0
    · exact Or.inl ⟨Or.inl hsize, if_pos hsize⟩
    rw [if_neg hsize]
    cases hstop : Word.alignUp? (device.val + size) pageSize with
    | none =>
      refine Or.inl ⟨Or.inr (Nat.lt_of_not_le fun hle => ?_), rfl⟩
      have hfits : (device.val.toNat + size.toNat + 4095) / 4096 * 4096 < 2 ^ 64 := by omega
      have hsome : Word.alignUp? (device.val + size) pageSize = some (.ofNat _) :=
        (Word.alignUp?_eq_some_iff toNat_pageSize_eq).2 <| by
          rw [hval]
          exact UInt64.toNat_ofNat_of_lt' hfits
      rw [hsome] at hstop
      cases hstop
    | some stop =>
      have hround := (Word.alignUp?_eq_some_iff toNat_pageSize_eq).1 hstop
      rw [hval] at hround
      have hround : stop.toNat = (device.val.toNat + size.toNat + 4095) / 4096 * 4096 := hround
      have hbounded := stop.toNat_lt
      exact Or.inr ⟨hsize, by omega, stop, rfl, hround⟩
  · have hnone : Word.add? device.val size = none :=
      Option.eq_none_iff_forall_ne_some.2 fun z hz => hsum (Word.add?_eq_some_iff.1 hz).1
    simp only [deviceFrames?, hnone, Option.bind_eq_bind, Option.bind_none]
    exact Or.inl ⟨Or.inr (by omega), trivial⟩

/-- The frames begin where the range does, rounded down to a page, and there is one for each page. -/
theorem deviceFrames?_eq_some (h : deviceFrames? device size = some (first, stop)) :
    size ≠ 0 ∧ device.val.toNat + size.toNat ≤ 2 ^ 64 - 4096 ∧
      first.base.val.toNat = device.val.toNat / 4096 * 4096 ∧
      stop.toNat = first.base.val.toNat + devicePages device size * 4096 := by
  rcases deviceFrames?_cases device size with ⟨-, hnone⟩ | ⟨hsize, hend, stop, hsome, hstop⟩
  · cases hnone.symm.trans h
  obtain ⟨rfl, rfl⟩ := Prod.mk.inj (Option.some.inj (hsome.symm.trans h))
  have hbase : (PageFrame.containing device).base.val.toNat = device.val.toNat / 4096 * 4096 :=
    Word.toNat_alignDown toNat_pageSize_eq
  refine ⟨hsize, hend, hbase, ?_⟩
  rw [hbase, hstop, devicePages]
  omega

/-- The end of the frames lies behind their start. -/
theorem deviceBytes_eq_ok (h : deviceFrames? device size = some (first, stop)) :
    ∃ bytes, Word.sub stop first.base.val = .ok bytes ∧
      bytes.toNat = devicePages device size * 4096 ∧
      (bytes / pageSize).toNat = devicePages device size := by
  obtain ⟨-, -, -, hstop⟩ := deviceFrames?_eq_some h
  obtain ⟨bytes, hbytes, hval⟩ := Word.sub_eq_ok (x := stop) (y := first.base.val) (by omega)
  have htotal : bytes.toNat = devicePages device size * 4096 := by omega
  refine ⟨bytes, hbytes, htotal, ?_⟩
  rw [UInt64.toNat_div, htotal, toNat_pageSize, Nat.mul_div_cancel _ (by decide)]

end Allocator

/-- The frames that hold a range of device memory. -/
def deviceFrames (device : PhysAddr) (size : UInt64) : List PageFrame :=
  match Allocator.deviceFrames? device size with
  | some (first, _) => runOf first (devicePages device size)
  | none => []

theorem mapDevice_behaves {device : PhysAddr} {size : UInt64}
    (hfits : T = .lenient ∨ ∀ range ∈ Allocator.deviceFrames? device size,
      range.2.toNat ≤ 2 ^ 52) :
    Behaves a T (a.mapDevice device size prot) ∅ p
      (Borrows a .device VirtAddr.pageBase (deviceFrames device size)) := by
  rw [Allocator.mapDevice, deviceFrames]
  rcases hrange : Allocator.deviceFrames? device size with _ | ⟨first, stop⟩
  · exact Behaves.pure rfl
  obtain ⟨-, -, -, hstop⟩ := Allocator.deviceFrames?_eq_some hrange
  obtain ⟨bytes, hbytes, -, hcount⟩ := Allocator.deviceBytes_eq_ok hrange
  have hlt := stop.toNat_lt
  simp only [hbytes, hcount, Allocator.orFault, pure_bind]
  refine Behaves.bind (reserveIn_behaves (fun hbooks => World.window hbooks)
    (Or.inr a.window.start_lt_stop)) ?_
  rintro answer e q hreserved
  cases answer with
  | error e =>
    obtain rfl := hreserved
    exact Behaves.pure rfl
  | ok span =>
    obtain ⟨r, area, rfl, hfits', rfl, hwithin, hempty⟩ := hreserved
    refine Behaves.bind (noteDevice_behaves first.base) ?_
    rintro _ _ u ⟨rfl, hu⟩
    let noted : Area := { area with physAddr := some first.base }
    have hwithin' : noted.Within a.block := ⟨hwithin.aligned, hwithin.whole, hwithin.twoPages,
      hwithin.start_le, hwithin.stop_le, hwithin.bounded⟩
    have hempty' : ∀ n, noted.Covers n → leafOn u a.root n = .empty := fun n hn =>
      (hu.leaf n (hwithin.covers_lt hn) (Estate.coveredBy_ofChain.2
        ⟨_, List.mem_singleton_self _, hn⟩)).trans (hempty n hn)
    have hnumbered : T = .lenient ∨ ∀ f ∈ runOf first (devicePages device size), f.Numbered := by
      refine hfits.imp_right fun h f hf => numbered_of_mem_runOf ?_ hf
      have hbelow : stop.toNat ≤ 2 ^ 52 := h (first, stop) hrange
      omega
    have hkind : noted.kind = .device := congrArg (·.kind) hfits'.fresh
    refine mapOrUndo_behaves hempty' hwithin' hkind run_mute (fun _ => gives_run (by omega))
      hnumbered (fun v => ?_) .deviceMapping
    refine Behaves.bind_report fun w hw => ?_
    rw [PhysAddr.pageOffset, (hwithin.add_eq_ok device.val).1]
    exact Behaves.pure ⟨rfl, hw, _, rfl, (hwithin.pageBase_add device.val).symm⟩

end

/-! ## Giving back -/

theorem checkStart_behaves {call : ReleaseCall} {x : VirtAddr} (hx : x.isAligned = true) :
    Behaves a T (Allocator.checkStart call x) own p fun _ e q => e = own ∧ q = p := by
  rw [Allocator.checkStart, if_pos hx]
  exact Behaves.pure ⟨rfl, rfl⟩

/-- Areas start on page boundaries. -/
theorem Span.Within.isAligned {b : Nat} {s : Span} (hs : s.Within b) : s.address.isAligned = true :=
  VirtAddr.isAligned_iff.2 hs.aligned

/-- With an allocated area goes its chain. -/
theorem free_behaves (hwithin : h.area.Within a.block) (hne : h.area.address.val ≠ 0)
    (hshows : ∀ x ∈ rest, T.Shows p a.root x) :
    Behaves a T (a.free h.area.address) (.ofChain (h :: rest)) p fun _ e _ => e = ∅ := by
  rw [Allocator.free, if_pos (bne_iff_ne.2 hne)]
  refine Behaves.bind (checkStart_behaves hwithin.isAligned) ?_
  rintro _ _ _ ⟨rfl, rfl⟩
  refine Behaves.bind (tearDown_behaves hshows) ?_
  rintro _ _ q ⟨rfl, rfl⟩
  exact Behaves.pure rfl

theorem unmapFrames_behaves (hwithin : h.area.Within a.block) :
    Behaves a T (a.unmapFrames h.area.address) (.ofChain (h :: rest)) p
      fun _ e _ => e = .ofFrames h.frames ++ .ofChain rest := by
  refine Behaves.bind (checkStart_behaves hwithin.isAligned) ?_
  rintro _ _ _ ⟨rfl, rfl⟩
  refine Behaves.bind detach_behaves ?_
  rintro _ _ q ⟨rfl, rfl⟩
  exact Behaves.pure rfl

theorem unmapDevice_behaves {x : VirtAddr} (hx : h.area.address = x.pageBase) :
    Behaves a T (a.unmapDevice x) (.ofChain (h :: rest)) p
      fun _ e _ => e = .ofFrames h.frames ++ .ofChain rest := by
  rw [Allocator.unmapDevice, ← hx]
  refine Behaves.bind detach_behaves ?_
  rintro _ _ q ⟨rfl, rfl⟩
  exact Behaves.pure rfl

end PagedMemory
