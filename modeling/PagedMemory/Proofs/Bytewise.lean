import Mathlib.Tactic
import PagedMemory.Proofs.Copying
import PagedMemory.Proofs.Ownership
import PagedMemory.Proofs.Storing

/-!
# Copies, byte by byte

A copy goes piece by piece, and each piece is looked up once. It comes to the same as looking up
each byte for itself, in whatever way the areas lie and whatever their pages are mapped to.

* `Allocator.placeOf`: where an address is mapped, if it lies in a page of an area.
* `Allocator.Lodged`: there is memory for the page tables and behind the pages of all areas.
* `Allocator.readPieces_runs`, `Allocator.writePieces_runs`: what the pieces come to.
* `History.run_reads_bytewise`, `History.run_writes_bytewise`: so do whole copies, in every registry
  that reservations and removals lead to.
-/

namespace PagedMemory

open Layout Tables

/-! ## Where addresses lead -/

theorem Entry.numbered_frame (e : Entry) : e.frame.Numbered := by
  have hmask : EntryField.frameNumber.mask.toNat < 2 ^ 52 := by decide
  refine Nat.lt_of_le_of_lt ?_ hmask
  change (e.bits &&& EntryField.frameNumber.mask).toNat ≤ _
  rw [UInt64.toNat_and]
  exact Nat.and_le_right

namespace Tables

variable {p q : Pool} {root f : PageFrame} {n : Nat}

/-- The frame that page `n` is mapped to. -/
def frameOn (p : Pool) (root : PageFrame) (n : Nat) : Option PageFrame :=
  let e := leafOn p root n
  if e.has .present then some e.frame else none

theorem target_eq_map (p : Pool) (root : PageFrame) (x : VirtAddr) :
    target p root x = (frameOn p root x.pageNumber).map (·.byteFor x) := by
  rw [target, frameOn]
  split <;> rfl

theorem numbered_of_frameOn (h : frameOn p root n = some f) : f.Numbered := by
  rw [frameOn] at h
  split at h
  · exact Option.some.inj h ▸ Entry.numbered_frame _
  · cases h

end Tables

instance (r : Registry) (y : Nat) : Decidable (r.Covers y) :=
  inferInstanceAs (Decidable (∃ area ∈ r.areas, area.address.val.toNat ≤ y ∧ y < area.stop - 4096))

namespace Allocator

/-- Where the address `y` is mapped, if it lies in a page of an area. -/
def placeOf (a : Allocator) (s : Shared) (y : Nat) : Option PhysAddr :=
  if s.registry.Covers y then (a.whereIs s ⟨.ofNat y⟩).toOption.join else none

/-- The byte that is seen at the address `y`; 0 where nothing is mapped and outside the areas. -/
def byteSeen (a : Allocator) (s : Shared) (y : Nat) : UInt8 :=
  (a.placeOf s y).elim 0 s.machine.pool.byteAt

/-- There is memory for all page tables, and for all that pages of areas are mapped to. -/
structure Lodged (a : Allocator) (s : Shared) : Prop where
  tables : ∀ f, IsTable s.machine.pool a.root f → s.machine.pool.Has f
  pages : ∀ y place, a.placeOf s y = some place → s.machine.pool.Has (.containing place)

/-- No page of an area is mapped to a page table. -/
def Aloof (a : Allocator) (s : Shared) : Prop :=
  ∀ y place, a.placeOf s y = some place →
    ¬ IsTable s.machine.pool a.root (.containing place)

variable {a : Allocator} {s : Shared} {q : Pool} {front : Front} {es : List Event} {x : VirtAddr}
  {start stop y : Nat} {pieces : List Piece} {r : Interval} {data buffer : List UInt8}

theorem whereIs_of_within (h : ∀ f, IsTable s.machine.pool a.root f → s.machine.pool.Has f)
    (x : VirtAddr) : a.whereIs s x = .ok (target s.machine.pool a.root x) := by
  have hdoes : Does s.machine.backdrop (Walk.translate a.root x) s.machine.pool _ :=
    translate_reads h x
  obtain ⟨answer, m, hrun, -, rfl, -⟩ := hdoes.exists_ok (s := s.machine) rfl rfl
  rw [whereIs, translate, run_onMachine]
  simp only [Shared.onMachine, hrun]

/-- What is mapped is mapped to some frame. -/
theorem frameOn_of_placeOf (h : ∀ f, IsTable s.machine.pool a.root f → s.machine.pool.Has f)
    {place : PhysAddr} (hplace : a.placeOf s y = some place) :
    frameOn s.machine.pool a.root (VirtAddr.pageNumber ⟨.ofNat y⟩) = some (.containing place) := by
  rw [placeOf] at hplace
  split at hplace
  next =>
    rw [whereIs_of_within h, target_eq_map] at hplace
    obtain ⟨f, hf, rfl⟩ := Option.map_eq_some_iff.1 hplace
    rw [PageFrame.containing_byteFor (numbered_of_frameOn hf), hf]
  next => cases hplace

/-- What is seen of memory while it is written to: the page tables stay, and so do all frames. -/
structure Steady (a : Allocator) (s : Shared) (q : Pool) : Prop where
  frames : s.machine.pool.Rewritten q
  table : ∀ f, IsTable s.machine.pool a.root f → q.page f = s.machine.pool.page f

namespace Steady

theorem refl : a.Steady s s.machine.pool := ⟨.refl _, fun _ _ => rfl⟩

theorem has (hq : a.Steady s q)
    (h : ∀ f, IsTable s.machine.pool a.root f → s.machine.pool.Has f) :
    ∀ f, IsTable q a.root f → q.Has f := by
  intro f hf
  have hon : ∀ n < 512 ^ 4, ∀ l, tableOn q a.root n l = tableOn s.machine.pool a.root n l :=
    fun n hn l => tableOn_eq_of_page hq.table hn l
  exact (h f ((isTable_congr hon).1 hf)).congr hq.frames.base hq.frames.size

theorem target_eq (hq : a.Steady s q) (x : VirtAddr) :
    target q a.root x = target s.machine.pool a.root x := by
  rw [target, target, leafOn_eq_of_page hq.table x.pageNumber_lt]

/-- What is not a table may be written to. -/
theorem rewrite (hq : a.Steady s q) {f : PageFrame} (hf : ¬ IsTable s.machine.pool a.root f)
    {change : Page → Page} : a.Steady s (q.rewrite f change) where
  frames := hq.frames.trans (Pool.rewritten_rewrite q f change)
  table g hg := by
    have hne : g ≠ f := by
      rintro rfl
      exact hf hg
    rw [Pool.page_rewrite_of_ne hne, hq.table g hg]

end Steady

namespace Lodged

variable (hl : a.Lodged s)

include hl

theorem placeOf_eq (hy : s.registry.Covers y) :
    a.placeOf s y = target s.machine.pool a.root ⟨.ofNat y⟩ := by
  rw [placeOf, if_pos hy, whereIs_of_within hl.tables]
  rfl

theorem translate_runs (hq : a.Steady s q) (x : VirtAddr)
    {E : Fault → Pool × List Event × Registry → Prop} :
    Runs Shared.noted front (a.translate x).run (q, es, s.registry)
      (fun answer t => answer = target s.machine.pool a.root x ∧ t = (q, es, s.registry)) E := by
  rw [translate, run_onMachine]
  refine Runs.onShared (Does.noted (Runs.imp (translate_reads (hq.has hl.tables) x) ?_))
  rintro _ _ ⟨rfl, rfl⟩
  exact ⟨hq.target_eq x, rfl⟩

/-- All addresses of a piece are mapped to the same frame. -/
theorem placeOf_page (hpage : r.stop.val.toNat ≤ (r.start.val.toNat / 4096 + 1) * 4096)
    (hin : ∀ y, r.start.val.toNat ≤ y → y < r.stop.val.toNat → s.registry.Covers y)
    (hlow : r.start.val.toNat ≤ y) (hhigh : y < r.stop.val.toNat) :
    a.placeOf s y =
      (frameOn s.machine.pool a.root r.start.pageNumber).map (·.byteFor ⟨.ofNat y⟩) := by
  have hword := r.stop.val.toNat_lt
  have hy : (UInt64.ofNat y).toNat = y := UInt64.toNat_ofNat_of_lt' (by
    have hsize : UInt64.size = 2 ^ 64 := rfl
    omega)
  have hnumber : VirtAddr.pageNumber ⟨.ofNat y⟩ = r.start.pageNumber := by
    rw [VirtAddr.pageNumber, VirtAddr.pageNumber, hy]
    omega
  rw [hl.placeOf_eq (hin y hlow hhigh), target_eq_map, hnumber]

end Lodged

end Allocator

/-! ## Reading -/

namespace Allocator

variable {a : Allocator} {s : Shared} {q : Pool} {front : Front} {es : List Event} {x : VirtAddr}
  {start stop y : Nat} {pieces : List Piece} {r : Interval} {data buffer : List UInt8}
  {f : PageFrame} {registry : Registry}

/-- Bytes of one frame are read. -/
theorem load_runs {count : Nat} (hcount : x.val.toNat % 4096 + count ≤ 4096) (hf : f.Numbered)
    (hhas : q.Has f) {E : Fault → Pool × List Event × Registry → Prop} :
    Runs Shared.noted front (onMachine (load (f.byteFor x) count)).run (q, es, registry)
      (fun data t => t.1 = q ∧ t.2.2 = registry ∧
        data = (List.range' (x.val.toNat % 4096) count).map (q.page f).byte) E := by
  obtain ⟨i, hi⟩ := hhas
  rw [run_onMachine]
  exact Runs.onShared (Runs.bind_emit (Does.noted (Does.onPool
    (Ends.of_ok (Pool.bytes_eq hf hi hcount) ⟨rfl, rfl, rfl⟩))))

namespace Lodged

variable (hl : a.Lodged s)

include hl

section

variable (hlt : r.start.val.toNat < r.stop.val.toNat)
  (hpage : r.stop.val.toNat ≤ (r.start.val.toNat / 4096 + 1) * 4096)
  (hin : ∀ y, r.start.val.toNat ≤ y → y < r.stop.val.toNat → s.registry.Covers y)

include hpage hin

/-- Nothing is seen of a page that is not mapped. -/
theorem map_byteSeen_of_unmapped
    (hframe : frameOn s.machine.pool a.root r.start.pageNumber = none) :
    (List.range' r.start.val.toNat r.length).map (a.byteSeen s) = List.replicate r.length 0 := by
  refine List.eq_replicate_iff.2 ⟨by simp, fun b hb => ?_⟩
  obtain ⟨y, hy, rfl⟩ := List.mem_map.1 hb
  have hy := List.mem_range'_1.1 hy
  rw [Interval.length] at hy
  rw [byteSeen, hl.placeOf_page hpage hin (by omega) (by omega), hframe]
  rfl

/-- Of a page that is mapped, one sees the frame. -/
theorem map_byteSeen_of_mapped
    (hframe : frameOn s.machine.pool a.root r.start.pageNumber = some f) :
    (List.range' r.start.val.toNat r.length).map (a.byteSeen s) =
      (List.range' (r.start.val.toNat % 4096) r.length).map (s.machine.pool.page f).byte := by
  have hf := numbered_of_frameOn hframe
  have hword := r.stop.val.toNat_lt
  refine List.ext_getElem (by simp) fun k hk _ => ?_
  have hk : k < r.length := by simpa using hk
  rw [Interval.length] at hk
  have hy : (UInt64.ofNat (r.start.val.toNat + k)).toNat = r.start.val.toNat + k :=
    UInt64.toNat_ofNat_of_lt' (by
      have hsize : UInt64.size = 2 ^ 64 := rfl
      omega)
  have hoffset : (r.start.val.toNat + k) % 4096 = r.start.val.toNat % 4096 + k := by omega
  simp only [List.getElem_map, List.getElem_range', Nat.one_mul]
  rw [byteSeen, hl.placeOf_page hpage hin (by omega) (by omega), hframe, Option.map_some,
    Option.elim_some, Pool.byteAt, PageFrame.containing_byteFor hf,
    PageFrame.toNat_pageOffset_byteFor hf, hy, hoffset]

include hlt

/-- There is memory behind a page that is mapped. -/
theorem has_frameOn
    (hframe : frameOn s.machine.pool a.root r.start.pageNumber = some f) : s.machine.pool.Has f := by
  have hplace := hl.placeOf_page hpage hin (Nat.le_refl _) hlt
  rw [hframe, UInt64.ofNat_toNat] at hplace
  have hhas := hl.pages _ _ hplace
  rwa [PageFrame.containing_byteFor (numbered_of_frameOn hframe)] at hhas

end

/-- Page by page, what is read is what each byte is seen as. -/
theorem readPieces_runs (h : Copy.Splits s.registry.Covers pieces start stop)
    {E : Fault → Pool × List Event × Registry → Prop} :
    Runs Shared.noted front (a.readPieces pieces).run (s.machine.pool, es, s.registry)
      (fun data t => t.1 = s.machine.pool ∧ t.2.2 = s.registry ∧
        data = (List.range' start (stop - start)).map (a.byteSeen s)) E := by
  induction h generalizing es with
  | nil =>
    refine Runs.pure ⟨rfl, rfl, ?_⟩
    rw [Nat.sub_self]
    rfl
  | @gap n start stop rest hpos hout hrest ih =>
    refine Runs.run_bind ih ?_
    rintro _ ⟨p, es, t⟩ ⟨rfl, rfl, rfl⟩
    refine Runs.pure ⟨rfl, rfl, ?_⟩
    have hzero : (List.range' start n).map (a.byteSeen s) = List.replicate n 0 := by
      rw [List.eq_replicate_iff]
      refine ⟨by simp, fun b hb => ?_⟩
      obtain ⟨y, hy, rfl⟩ := List.mem_map.1 hb
      have hy := List.mem_range'_1.1 hy
      rw [byteSeen, placeOf, if_neg (hout y hy.1 hy.2)]
      rfl
    have hle := hrest.le
    have hlength : stop - start = n + (stop - (start + n)) := by omega
    rw [hlength, ← List.range'_append_1, List.map_append, hzero]
  | @page r rest stop hlt hpage hin hrest ih =>
    refine Runs.run_bind (hl.translate_runs .refl r.start) ?_
    rintro _ _ ⟨rfl, rfl⟩
    have hle := hrest.le
    have hnext : r.stop.val.toNat = r.start.val.toNat + r.length := by
      rw [Interval.length]
      omega
    have hlength : stop - r.start.val.toNat = r.length + (stop - r.stop.val.toNat) := by
      rw [Interval.length]
      omega
    rw [hlength, ← List.range'_append_1, List.map_append, ← hnext, target_eq_map]
    rcases hframe : frameOn s.machine.pool a.root r.start.pageNumber with _ | f
    · rw [hl.map_byteSeen_of_unmapped hpage hin hframe]
      refine Runs.run_bind (Q := fun data t => data = List.replicate r.length 0 ∧
        t = (s.machine.pool, es, s.registry)) (Runs.pure ⟨rfl, rfl⟩) ?_
      rintro _ _ ⟨rfl, rfl⟩
      refine Runs.run_bind ih ?_
      rintro _ ⟨p, es, t⟩ ⟨rfl, rfl, rfl⟩
      exact Runs.pure ⟨rfl, rfl, rfl⟩
    · rw [hl.map_byteSeen_of_mapped hpage hin hframe]
      refine Runs.run_bind (load_runs (by rw [Interval.length]; omega)
        (numbered_of_frameOn hframe) (hl.has_frameOn hlt hpage hin hframe)) ?_
      rintro _ ⟨p, es, t⟩ ⟨rfl, rfl, rfl⟩
      refine Runs.run_bind ih ?_
      rintro _ ⟨p, es, t⟩ ⟨rfl, rfl, rfl⟩
      exact Runs.pure ⟨rfl, rfl, rfl⟩

end Lodged

/-- A read sees the bytes up to the extent of the registry, and it changes nothing. -/
theorem read_run (hs : s.registry.Sound) (hl : a.Lodged s) (x : VirtAddr) {buffer : List UInt8}
    (hlength : buffer.length < 2 ^ 64) :
    ∃ trace, (a.read x buffer).run s =
      .ok (min buffer.length (s.registry.extent - x.val.toNat),
        (List.range' x.val.toNat (min buffer.length (s.registry.extent - x.val.toNat))).map
            (a.byteSeen s) ++
          buffer.drop (min buffer.length (s.registry.extent - x.val.toNat)))
        ⟨{ s.machine with trace }, s.registry⟩ := by
  have hruns : Runs Shared.noted s.machine.front (a.read x buffer).run
      (s.machine.pool, s.machine.notes, s.registry)
      (fun answer t => t.1 = s.machine.pool ∧ t.2.2 = s.registry ∧ answer =
        (min buffer.length (s.registry.extent - x.val.toNat),
          (List.range' x.val.toNat (min buffer.length (s.registry.extent - x.val.toNat))).map
              (a.byteSeen s) ++
            buffer.drop (min buffer.length (s.registry.extent - x.val.toNat))))
      fun _ _ => False := by
    rw [read]
    refine Runs.run_bind (Runs.run_atomically (planFrom_runs hs hlength)) ?_
    rintro pieces _ ⟨rfl, hsplits⟩
    have htotal := hsplits.total_eq
    have hread : Runs Shared.noted s.machine.front (a.readPieces pieces).run
        (s.machine.pool, s.machine.notes, s.registry) _ fun _ _ => False := hl.readPieces_runs hsplits
    rw [Nat.add_sub_cancel_left] at htotal hread
    refine Runs.run_bind hread ?_
    rintro _ ⟨p, es, t⟩ ⟨rfl, rfl, rfl⟩
    rw [htotal]
    exact Runs.pure ⟨rfl, rfl, rfl⟩
  obtain ⟨answer, ⟨⟨pool, front, trace⟩, registry⟩, hrun, hfront, hpool, hregistry, rfl⟩ :=
    hruns.exists_ok (s := s) rfl rfl
  obtain rfl : pool = s.machine.pool := hpool
  obtain rfl : front = s.machine.front := hfront
  obtain rfl : registry = s.registry := hregistry
  exact ⟨trace, hrun⟩

/-! ## Writing -/

/-- Bytes of one frame are overwritten. -/
theorem store_runs (hdata : x.val.toNat % 4096 + data.length ≤ 4096) (hf : f.Numbered)
    (hhas : q.Has f) {E : Fault → Pool × List Event × Registry → Prop} :
    Runs Shared.noted front (onMachine (store (f.byteFor x) data)).run (q, es, registry)
      (fun _ t => t.1 = q.rewrite f (fun page => page.storeBytes (x.val.toNat % 4096) data) ∧
        t.2.2 = registry) E := by
  obtain ⟨i, hi⟩ := hhas
  rw [run_onMachine]
  exact Runs.onShared (Runs.bind_emit (Does.noted (Does.onPool
    (Ends.of_ok (Pool.setBytes_eq hf hi hdata) ⟨rfl, rfl⟩))))

namespace Lodged

variable (hl : a.Lodged s) (ha : a.Aloof s)

include hl ha

/-- Page by page, the bytes are stored as if each had been looked up. -/
theorem writePieces_runs (h : Copy.Splits s.registry.Covers pieces start stop)
    (hdata : stop - start ≤ data.length) (hq : a.Steady s q)
    {E : Fault → Pool × List Event × Registry → Prop} :
    Runs Shared.noted front (a.writePieces pieces data).run (q, es, s.registry)
      (fun _ t => t.1 = Pool.storeEach (a.placeOf s) (data.take (stop - start)) start q ∧
        a.Steady s t.1 ∧ t.2.2 = s.registry) E := by
  induction h generalizing q es data with
  | nil =>
    rw [Nat.sub_self]
    exact Runs.pure ⟨rfl, hq, rfl⟩
  | @gap n start stop rest hpos hout hrest ih =>
    have hle := hrest.le
    have hlength : stop - start = n + (stop - (start + n)) := by omega
    have htake : (data.take n).length = n := List.length_take_of_le (by omega)
    have hskip : Pool.storeEach (a.placeOf s) (data.take n) start q = q :=
      Pool.storeEach_of_none fun y hlow hhigh => if_neg (hout y hlow (htake ▸ hhigh))
    rw [hlength, List.take_add, Pool.storeEach_append, htake, hskip]
    exact ih (by rw [List.length_drop]; omega) hq
  | @page r rest stop hlt hpage hin hrest ih =>
    have hle := hrest.le
    have hword := r.stop.val.toNat_lt
    have hnext : r.start.val.toNat + r.length = r.stop.val.toNat := by
      rw [Interval.length]
      omega
    have hlength : stop - r.start.val.toNat = r.length + (stop - r.stop.val.toNat) := by omega
    have htake : (data.take r.length).length = r.length := List.length_take_of_le (by omega)
    have hdrop : stop - r.stop.val.toNat ≤ (data.drop r.length).length := by
      rw [List.length_drop]
      omega
    rw [hlength, List.take_add, Pool.storeEach_append, htake, hnext]
    refine Runs.run_bind (hl.translate_runs hq r.start) ?_
    rintro _ _ ⟨rfl, rfl⟩
    rw [target_eq_map]
    rcases hframe : frameOn s.machine.pool a.root r.start.pageNumber with _ | f
    · have hskip : Pool.storeEach (a.placeOf s) (data.take r.length) r.start.val.toNat q = q :=
        Pool.storeEach_of_none fun y hlow hhigh => by
          rw [hl.placeOf_page hpage hin hlow (by omega), hframe]
          rfl
      rw [hskip]
      exact ih hdrop hq
    · have hf := numbered_of_frameOn hframe
      have hplace := hl.placeOf_page hpage hin (Nat.le_refl _) hlt
      rw [hframe, UInt64.ofNat_toNat] at hplace
      have htable := ha _ _ hplace
      rw [PageFrame.containing_byteFor hf] at htable
      have hhas := (hl.has_frameOn hlt hpage hin hframe).congr hq.frames.base hq.frames.size
      have hstore : Pool.storeEach (a.placeOf s) (data.take r.length) r.start.val.toNat q =
          q.rewrite f fun page =>
            page.storeBytes (r.start.val.toNat % 4096) (data.take r.length) :=
        Pool.storeEach_of_page hf (fun y hlow hhigh => by
          rw [hl.placeOf_page hpage hin hlow (by omega), hframe]
          rfl) (by omega) (by omega)
      rw [hstore]
      refine Runs.run_bind (store_runs (by omega) hf hhas) ?_
      rintro _ ⟨p, es, t⟩ ⟨rfl, rfl⟩
      exact ih hdrop (hq.rewrite htable)

end Lodged

/-- A write deals with the bytes up to the extent of the registry, and it changes nothing else than
the bytes that it stores. -/
theorem write_run (hs : s.registry.Sound) (hl : a.Lodged s) (ha : a.Aloof s) (x : VirtAddr)
    (hlength : data.length < 2 ^ 64) :
    ∃ trace pool, (a.write x data).run s =
        .ok (min data.length (s.registry.extent - x.val.toNat))
          ⟨{ s.machine with trace, pool }, s.registry⟩ ∧
      a.Steady s pool ∧
      pool = Pool.storeEach (a.placeOf s)
        (data.take (min data.length (s.registry.extent - x.val.toNat))) x.val.toNat
        s.machine.pool := by
  have hruns : Runs Shared.noted s.machine.front (a.write x data).run
      (s.machine.pool, s.machine.notes, s.registry)
      (fun answer t => answer = min data.length (s.registry.extent - x.val.toNat) ∧
        t.1 = Pool.storeEach (a.placeOf s)
          (data.take (min data.length (s.registry.extent - x.val.toNat))) x.val.toNat
          s.machine.pool ∧
        a.Steady s t.1 ∧ t.2.2 = s.registry) fun _ _ => False := by
    rw [write]
    refine Runs.run_bind (Runs.run_atomically (planFrom_runs hs hlength)) ?_
    rintro pieces _ ⟨rfl, hsplits⟩
    have htotal := hsplits.total_eq
    have hwrite : Runs Shared.noted s.machine.front (a.writePieces pieces data).run
        (s.machine.pool, s.machine.notes, s.registry) _ fun _ _ => False :=
      hl.writePieces_runs ha hsplits (by omega) .refl
    rw [Nat.add_sub_cancel_left] at htotal hwrite
    refine Runs.run_bind hwrite ?_
    rintro _ ⟨p, es, t⟩ ⟨rfl, hsteady, rfl⟩
    exact Runs.pure ⟨htotal, rfl, hsteady, rfl⟩
  obtain ⟨answer, ⟨⟨pool, front, trace⟩, registry⟩, hrun, hfront, rfl, hpool, hsteady, hregistry⟩ :=
    hruns.exists_ok (s := s) rfl rfl
  obtain rfl : front = s.machine.front := hfront
  obtain rfl : registry = s.registry := hregistry
  exact ⟨trace, pool, hrun, hsteady, hpool⟩

/-- What is steady is translated as before. -/
theorem Steady.whereIs_eq {t : Shared} (hq : a.Steady s t.machine.pool) (hl : a.Lodged s)
    (x : VirtAddr) : a.whereIs t x = a.whereIs s x := by
  rw [whereIs_of_within (hq.has hl.tables), whereIs_of_within hl.tables, hq.target_eq]

/-- What a write of `data` from `x` on has done. -/
structure Wrote (a : Allocator) (s : Shared) (x : VirtAddr) (data : List UInt8) (t : Shared) :
    Prop where
  /-- the bytes were stored in this order, each where its own address leads -/
  pool : t.machine.pool = Pool.storeEach (a.placeOf s) data x.val.toNat s.machine.pool
  /-- the last byte for a place counts -/
  last : ∀ i (hi : i < data.length) place, a.placeOf s (x.val.toNat + i) = some place →
    (∀ j, i < j → j < data.length → a.placeOf s (x.val.toNat + j) ≠ some place) →
    t.machine.pool.byteAt place = data[i]
  /-- no other byte of memory has changed -/
  others : ∀ place, (∀ i < data.length, a.placeOf s (x.val.toNat + i) ≠ some place) →
    t.machine.pool.byteAt place = s.machine.pool.byteAt place
  /-- each frame is in use or free as before -/
  frames : s.machine.pool.Rewritten t.machine.pool
  translations : ∀ y, a.whereIs t y = a.whereIs s y
  registry : t.registry = s.registry
  front : t.machine.front = s.machine.front

end Allocator

/-! ## Any registry -/

/-- Where the areas lie, and how large they are. -/
def Registry.layout (r : Registry) : List (VirtAddr × UInt64) :=
  r.areas.map fun area => (area.address, area.size)

/-- Only the layout counts for whether a registry is sound. -/
theorem Registry.Sound.of_layout {q r : Registry} (hr : r.Sound) (h : q.layout = r.layout) :
    q.Sound := by
  have hmem : ∀ area ∈ q.areas, ∃ other ∈ r.areas,
      other.address = area.address ∧ other.size = area.size := by
    intro area harea
    have hin : (area.address, area.size) ∈ r.layout := h ▸ List.mem_map_of_mem harea
    obtain ⟨other, hother, heq⟩ := List.mem_map.1 hin
    exact ⟨other, hother, (Prod.mk.inj heq).1, (Prod.mk.inj heq).2⟩
  have hapart : ∀ u : Registry, u.areas.Pairwise Before ↔ u.layout.Pairwise fun a b =>
      a.1.val.toNat + a.2.toNat ≤ b.1.val.toNat := by
    intro u
    rw [layout, List.pairwise_map]
    rfl
  refine ⟨(hapart q).2 (h ▸ (hapart r).1 hr.apart), ?_, ?_, ?_, ?_⟩
  all_goals
    intro area harea
    obtain ⟨other, hother, haddress, hsize⟩ := hmem area harea
  · exact haddress ▸ hr.aligned other hother
  · exact hsize ▸ hr.pages other hother
  · exact hsize ▸ hr.twoPages other hother
  · have hbounded := hr.bounded other hother
    rwa [Span.stop, haddress, hsize] at hbounded

namespace History

variable {changes : List Registry.Change} {t : History} {s : Shared} {a : Allocator} {x : VirtAddr}
  {buffer data : List UInt8}

theorem sound_of_run (hc : ∀ c ∈ changes, c.Proper) (hrun : run changes = .ok t) :
    t.registry.Sound := by
  obtain ⟨u, hrun', hu⟩ := placed_start.foldlM hc
  obtain rfl : u = t := Except.ok.inj (hrun'.symm.trans hrun)
  exact hu.sound

/-! ### A small machine -/

/-- The frames of a small machine. -/
def rooms (k : Nat) : PageFrame := .containing ⟨0x100000 + 0x1000 * .ofNat k⟩

/-- The entry of a table of each level that stands for the second page of all. -/
def door (l : Level) : TableIndex := l.index ⟨0x1000⟩

/-- A table of each level and a frame, to which the second page of all is mapped. -/
def furnished : Pool :=
  ((((Pool.create (rooms 0) 5).withEntry (rooms 0) (door .pml4) (.tableTo (rooms 1))).withEntry
    (rooms 1) (door .pdpt) (.tableTo (rooms 2))).withEntry
    (rooms 2) (door .pd) (.tableTo (rooms 3))).withEntry
    (rooms 3) (door .pt) (.leafTo (rooms 4) .pageKernel)

/-- What `crowded` leads to, over the small machine. -/
def dwelling : Shared :=
  ⟨.create furnished .plain, ⟨[.fresh ⟨0x1000⟩ 0x2000 .borrowed, .fresh ⟨0x4000⟩ 0x3000 .device]⟩⟩

def dweller : Allocator := ⟨default, rooms 0⟩

theorem number?_rooms {k : Nat} (hk : k < 5) :
    (Pool.create (rooms 0) 5).number? (rooms k) = some k := by
  interval_cases k <;> exact Pool.number?_eq_some_iff.2 ⟨by decide, rfl⟩

theorem rooms_numbered {k : Nat} (hk : k < 5) : (rooms k).Numbered := by
  rw [PageFrame.Numbered]
  interval_cases k <;> decide

theorem rooms_inj {j k : Nat} (hj : j < 5) (hk : k < 5) : rooms j = rooms k ↔ j = k := by
  refine ⟨fun h => ?_, congrArg rooms⟩
  have hnumber := number?_rooms hj
  rw [h, number?_rooms hk] at hnumber
  exact (Option.some.inj hnumber).symm

theorem has_rooms {k : Nat} (hk : k < 5) : furnished.Has (rooms k) :=
  ⟨k, by simp only [furnished, Pool.withEntry, Pool.number?_rewrite, number?_rooms hk]⟩

theorem entryAt_furnished {k : Nat} (hk : k < 4) (i : TableIndex) :
    furnished.entryAt (rooms k) i =
      if k = 3 then if i = 1 then .leafTo (rooms 4) .pageKernel else .empty
      else if i = 0 then .tableTo (rooms (k + 1)) else .empty := by
  have hhas : ∀ j < 5, ∀ p : Pool, (∀ f, p.number? f = (Pool.create (rooms 0) 5).number? f) →
      p.Has (rooms j) := fun j hj p hp => ⟨j, (hp _).trans (number?_rooms hj)⟩
  have hempty : (Pool.create (rooms 0) 5).entryAt (rooms k) i = .empty := by
    rw [Pool.entryAt, Pool.page_create, Page.get_zero]
    rfl
  rw [furnished, Pool.entryAt_withEntry (hhas 3 (by decide) _ (by simp [Pool.withEntry])),
    Pool.entryAt_withEntry (hhas 2 (by decide) _ (by simp [Pool.withEntry])),
    Pool.entryAt_withEntry (hhas 1 (by decide) _ (by simp [Pool.withEntry])),
    Pool.entryAt_withEntry (hhas 0 (by decide) _ (by simp)), hempty]
  have hdoor : ∀ l, door l = if l = .pt then 1 else 0 := by
    intro l
    cases l <;> decide
  interval_cases k <;> simp [rooms_inj, hdoor]

/-- The only way leads from table to table, one of each level. -/
theorem tableOn_furnished {n : Nat} {l : Level} {f : PageFrame}
    (h : tableOn furnished (rooms 0) n l = some f) : f = rooms (3 - l.height) := by
  induction l using Level.topDown generalizing f with
  | top => exact (Option.some.inj h).symm
  | step l below hnext ih =>
    obtain ⟨t, ht, hbehind⟩ := Option.bind_eq_some_iff.1 ((tableOn_next hnext).symm.trans h)
    obtain rfl := ih ht
    have hheight := Level.height_next hnext
    have htop : l.height ≤ 3 := by cases l <;> decide
    have hdown : 3 - below.height = 3 - l.height + 1 := by omega
    rw [behind, entryAt_furnished (by omega), if_neg (by omega)] at hbehind
    split at hbehind
    · rw [Entry.table?_tableTo (rooms_numbered (by omega))] at hbehind
      rw [hdown]
      exact (Option.some.inj hbehind).symm
    · cases hbehind

theorem frameOn_furnished {n : Nat} {f : PageFrame}
    (h : frameOn furnished (rooms 0) n = some f) : f = rooms 4 := by
  rw [frameOn] at h
  rcases hon : tableOn furnished (rooms 0) n .pt with _ | t
  · rw [leafOn_eq_empty hon] at h
    cases h
  · obtain rfl := tableOn_furnished hon
    rw [leafOn_eq hon, Level.height, entryAt_furnished (by decide), if_pos rfl] at h
    split at h
    next =>
      rw [← Option.some.inj h]
      exact Entry.leafTo_frame (rooms_numbered (by decide)) _
    next => cases h

theorem dwelling_tables {f : PageFrame} (hf : IsTable furnished (rooms 0) f) :
    ∃ k < 4, f = rooms k := by
  obtain ⟨n, -, l, hl⟩ := hf
  exact ⟨3 - l.height, by omega, tableOn_furnished hl⟩

theorem containing_dwelling {y : Nat} {place : PhysAddr}
    (h : dweller.placeOf dwelling y = some place) : .containing place = rooms 4 := by
  have hwithin : ∀ f, IsTable furnished (rooms 0) f → furnished.Has f := fun f hf => by
    obtain ⟨k, hk, rfl⟩ := dwelling_tables hf
    exact has_rooms (Nat.lt_succ_of_lt hk)
  exact frameOn_furnished (Allocator.frameOn_of_placeOf (a := dweller) (s := dwelling) hwithin h)

theorem dwelling_lodged : dweller.Lodged dwelling where
  tables f hf := by
    obtain ⟨k, hk, rfl⟩ := dwelling_tables hf
    exact has_rooms (Nat.lt_succ_of_lt hk)
  pages y place hplace := containing_dwelling hplace ▸ has_rooms (by decide)

theorem dwelling_aloof : dweller.Aloof dwelling := by
  intro y place hplace htable
  obtain ⟨k, hk, he⟩ := dwelling_tables htable
  rw [containing_dwelling hplace, rooms_inj (by decide) (Nat.lt_succ_of_lt hk)] at he
  omega

theorem run_crowded : ∃ grants, run crowded = .ok ⟨dwelling.registry, grants⟩ := ⟨_, rfl⟩

/-! ### Whole copies -/

/-- **Reading**: in whatever way the areas came to lie, and whatever their pages are mapped to, a
read has no fault. It gets as many bytes as there are up to the last guard page, each as its own
address is seen, and leaves all else as it was. -/
theorem run_reads_bytewise (hc : ∀ c ∈ changes, c.Proper) (hrun : run changes = .ok t)
    (hlayout : s.registry.layout = t.registry.layout) (hl : a.Lodged s) (x : VirtAddr)
    (hlength : buffer.length < 2 ^ 64) :
    ∃ n trace, n = min buffer.length (s.registry.extent - x.val.toNat) ∧
      (a.read x buffer).run s =
        .ok (n, (List.range' x.val.toNat n).map (a.byteSeen s) ++ buffer.drop n)
          ⟨{ s.machine with trace }, s.registry⟩ := by
  obtain ⟨trace, hread⟩ := Allocator.read_run ((sound_of_run hc hrun).of_layout hlayout) hl x hlength
  exact ⟨_, trace, rfl, hread⟩

/-- Eight bytes in front of a page that is mapped, and eight in it. -/
theorem run_crowded_reads_bytewise :
    (∀ c ∈ crowded, c.Proper) ∧ ∃ t, run crowded = .ok t ∧
      dwelling.registry.layout = t.registry.layout ∧ dweller.Lodged dwelling ∧
      (List.replicate 16 (0xff : UInt8)).length < 2 ^ 64 ∧
      ∃ n trace, n = min (List.replicate 16 (0xff : UInt8)).length
          (dwelling.registry.extent - (0xff8 : UInt64).toNat) ∧
        (dweller.read ⟨0xff8⟩ (List.replicate 16 0xff)).run dwelling =
          .ok (n, (List.range' (0xff8 : UInt64).toNat n).map (dweller.byteSeen dwelling) ++
            (List.replicate 16 0xff).drop n) ⟨{ dwelling.machine with trace }, dwelling.registry⟩ := by
  obtain ⟨grants, hrun⟩ := run_crowded
  exact ⟨by decide, _, hrun, rfl, dwelling_lodged, by decide,
    run_reads_bytewise (by decide) hrun rfl dwelling_lodged ⟨0xff8⟩ (by decide)⟩

/-- **Writing**: a write has no fault either, unless a page of an area is mapped to a page table. It
deals with as many bytes as a read would, and stores each where its own address leads. -/
theorem run_writes_bytewise (hc : ∀ c ∈ changes, c.Proper) (hrun : run changes = .ok t)
    (hlayout : s.registry.layout = t.registry.layout) (hl : a.Lodged s) (ha : a.Aloof s)
    (x : VirtAddr) (hlength : data.length < 2 ^ 64) :
    ∃ n u, n = min data.length (s.registry.extent - x.val.toNat) ∧
      (a.write x data).run s = .ok n u ∧ a.Wrote s x (data.take n) u ∧
      ∀ buffer : List UInt8, buffer.length = data.length →
        ∃ bytes v, (a.read x buffer).run s = .ok (n, bytes) v := by
  have hs := (sound_of_run hc hrun).of_layout hlayout
  obtain ⟨trace, pool, hwrite, hsteady, hpool⟩ := Allocator.write_run hs hl ha x hlength
  refine ⟨_, _, rfl, hwrite, ⟨hpool, ?_, ?_, hsteady.frames, hsteady.whereIs_eq hl, rfl, rfl⟩, ?_⟩
  · intro i hi place hplace hlast
    change pool.byteAt place = _
    rw [hpool]
    exact Pool.byteAt_storeEach_of_last hl.pages hi hplace hlast
  · intro place hplace
    change pool.byteAt place = _
    rw [hpool]
    exact Pool.byteAt_storeEach_of_ne hl.pages hplace
  · intro buffer hbuffer
    obtain ⟨trace, hread⟩ := Allocator.read_run hs hl x (hbuffer ▸ hlength)
    rw [hbuffer] at hread
    exact ⟨_, _, hread⟩

/-- Likewise for writing. -/
theorem run_crowded_writes_bytewise :
    (∀ c ∈ crowded, c.Proper) ∧ ∃ t, run crowded = .ok t ∧
      dwelling.registry.layout = t.registry.layout ∧ dweller.Lodged dwelling ∧
      dweller.Aloof dwelling ∧ (List.replicate 16 (0xff : UInt8)).length < 2 ^ 64 ∧
      ∃ n u, n = min (List.replicate 16 (0xff : UInt8)).length
          (dwelling.registry.extent - (0xff8 : UInt64).toNat) ∧
        (dweller.write ⟨0xff8⟩ (List.replicate 16 0xff)).run dwelling = .ok n u ∧
        dweller.Wrote dwelling ⟨0xff8⟩ ((List.replicate 16 0xff).take n) u ∧
        ∀ buffer : List UInt8, buffer.length = (List.replicate 16 (0xff : UInt8)).length →
          ∃ bytes v, (dweller.read ⟨0xff8⟩ buffer).run dwelling = .ok (n, bytes) v := by
  obtain ⟨grants, hrun⟩ := run_crowded
  exact ⟨by decide, _, hrun, rfl, dwelling_lodged, dwelling_aloof, by decide,
    run_writes_bytewise (by decide) hrun rfl dwelling_lodged dwelling_aloof ⟨0xff8⟩ (by decide)⟩

end History

end PagedMemory
