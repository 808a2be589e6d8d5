import Mathlib.Tactic
import PagedMemory.Proofs.Allocation
import PagedMemory.Proofs.Bytes
import PagedMemory.Proofs.Splitting

/-!
# Copying

What is read from an allocated area, and what is written to it, in whatever way its frames are
scattered and whatever others do between two pieces.

* `Holding.byteAt`: a byte of an area, wherever its frame is.
* `planFrom_behaves`: a range within an area is dealt with page by page, without gaps.
* `read_behaves`: the bytes of the area are read, and nothing changes.
* `write_behaves`: bytes of the area are overwritten, as `Overwritten` says, and nothing else changes.
-/

namespace PagedMemory

open Layout Tables

/-- Byte `k` of what is in the frames of an area, in the order of its addresses. -/
def Holding.byteAt (p : Pool) (h : Holding) (k : Nat) : UInt8 :=
  (p.page (h.frames.getD (k / 4096) default)).byte (k % 4096)

/-- The areas of a chain are there, and the first is mapped to its frames. -/
def Tended (a : Allocator) (h : Holding) (tail : List Holding) (e : Estate) (q : Pool) : Prop :=
  e = .ofChain (h :: tail) ∧ Settled q a.root h

/-- The addresses from `x` up to `y` are the area's, and none is in its guard page. -/
structure Span.Encloses (s : Span) (x y : Nat) : Prop where
  start_le : s.address.val.toNat ≤ x
  le : x ≤ y
  le_stop : y ≤ s.address.val.toNat + s.pages * 4096

instance (s : Span) (x y : Nat) : Decidable (s.Encloses x y) :=
  decidable_of_iff (s.address.val.toNat ≤ x ∧ x ≤ y ∧ y ≤ s.address.val.toNat + s.pages * 4096)
    ⟨fun h => ⟨h.1, h.2.1, h.2.2⟩, fun h => ⟨h.1, h.2, h.3⟩⟩

variable {a : Allocator} {T : Terms} {front : Front} {p q u : Pool} {r : Registry}
  {loose : List PageFrame} {chains : List (List Holding)} {tail : List Holding} {h : Holding}
  {own mine others : Estate} {es : List Event} {b i start stop : Nat} {f : PageFrame}
  {data : List UInt8} {x : VirtAddr}

/-! ## Plans -/

/-- What others do to a chain. -/
theorem Settled.tended (hsettled : Settled p a.root h) (hspares : Spares a (.ofChain (h :: tail)) p q) :
    Tended a h tail (.ofChain (h :: tail)) q :=
  ⟨rfl, hsettled.of_spares hspares (Estate.mem_chains_ofChain List.mem_cons_self) List.mem_cons_self⟩

/-- What a plan says of the areas as they are now. -/
theorem planFrom_runs (hr : r.Sound) {length : Nat} (hlength : length < 2 ^ 64)
    {E : Fault → Pool × List Event × Registry → Prop} :
    Runs Shared.noted front (Allocator.planFrom x length) (p, es, r)
      (fun pieces t => t = (p, es, r) ∧ Copy.Splits r.Covers pieces x.val.toNat
        (x.val.toNat + min length (r.extent - x.val.toNat))) E := by
  intro s hs hfront
  obtain ⟨-, -, rfl⟩ := Shared.noted_eq hs
  refine (Allocator.planFrom_yields hr hlength).mono ?_ fun _ _ => False.elim
  rintro pieces _ ⟨rfl, hsplits⟩
  exact ⟨hfront, hs, hsplits⟩

/-- The plan for a range within an area of one's own. -/
theorem planFrom_behaves {length : Nat} (hsettled : Settled p a.root h)
    (hin : h.area.Encloses x.val.toNat (x.val.toNat + length)) :
    Behaves a T (Routine.atomically .enter (Allocator.planFrom x length)) (.ofChain (h :: tail)) p
      (fun pieces e q => e = .ofChain (h :: tail) ∧ Spares a (.ofChain (h :: tail)) p q ∧
        ∃ rs, pieces = rs.map Piece.page ∧ Tiles rs x.val.toNat (x.val.toNat + length))
      (Tended a h tail) := by
  refine Behaves.peeks (fun front q es r others hbooks hspares => ?_) fun _ _ _ hq =>
    hq.1 ▸ hsettled.tended hq.2.1
  have hmem : h.area ∈ r.areas := hbooks.area_mem (by simp [Estate.ofChain])
  have hwithin := World.within hbooks hmem
  have hsound := hbooks.registry
  have hextent := hsound.le_extent hmem
  have hsize := hwithin.size_eq
  have hlow := hin.start_le
  have hhigh := hin.le_stop
  have hword := x.val.toNat_lt
  have hlast := hsound.extent_lt
  rw [Span.stop] at hextent
  refine Runs.imp (planFrom_runs hsound (by omega)) ?_
  rintro pieces _ ⟨rfl, hsplits⟩
  -- the area ends behind the range, which has no gap
  have hend : min length (r.extent - x.val.toNat) = length := by omega
  rw [hend] at hsplits
  refine ⟨rfl, rfl, hspares, hsplits.tiles fun y hy hy' => ⟨h.area, hmem, by omega, ?_⟩⟩
  rw [Span.stop]
  omega

/-! ## Bytes of an area -/

/-- Bytes of one page of an area. -/
theorem Holding.byteAt_eq {k : Nat} (hf : h.frames[k / 4096]? = some f) :
    h.byteAt p k = (p.page f).byte (k % 4096) := by
  rw [byteAt, List.getD_eq_getElem?_getD, hf, Option.getD_some]

/-- An area keeps its bytes while it is left alone. -/
theorem Keeps.byteAt_eq {root : PageFrame} {P : Nat → Prop} {F : PageFrame → Prop} {k : Nat}
    (hkeeps : Keeps root P F p q) (hF : ∀ f ∈ h.frames, F f) (hk : k < h.frames.length * 4096) :
    h.byteAt q k = h.byteAt p k := by
  have hi : k / 4096 < h.frames.length := by omega
  rw [Holding.byteAt_eq (List.getElem?_eq_getElem hi), Holding.byteAt_eq (List.getElem?_eq_getElem hi),
    hkeeps.page _ (hF _ (List.getElem_mem hi))]

/-- A piece of an area, as it lies in its frame. -/
theorem Holding.map_byteAt {k count : Nat} (hf : h.frames[k / 4096]? = some f)
    (hcount : k % 4096 + count ≤ 4096) :
    (List.range' (k % 4096) count).map (p.page f).byte = (List.range' k count).map (h.byteAt p) := by
  refine List.ext_getElem (by simp) fun n hn _ => ?_
  have hn : n < count := by simpa using hn
  have hpage : (k + n) / 4096 = k / 4096 := by omega
  have hoffset : (k + n) % 4096 = k % 4096 + n := by omega
  simp only [List.getElem_map, List.getElem_range', Nat.one_mul]
  rw [Holding.byteAt_eq (hpage ▸ hf), hoffset]

/-- The frame of a piece of an area. -/
theorem Span.Encloses.exists_frame (hin : h.area.Encloses start stop) (hlt : start < stop)
    (hcount : h.frames.length = h.area.pages) :
    ∃ f ∈ h.frames, h.frames[(start - h.area.address.val.toNat) / 4096]? = some f := by
  have hlow := hin.start_le
  have hhigh := hin.le_stop
  have hi : (start - h.area.address.val.toNat) / 4096 < h.frames.length := by omega
  exact ⟨_, List.getElem_mem hi, List.getElem?_eq_getElem hi⟩

/-! ## Pieces -/

theorem Books.mem_frames (hbooks : Books a p r (.ofChain (h :: tail) ++ others)) (hf : f ∈ h.frames) :
    p.isTaken f = true :=
  hbooks.isTaken (Estate.mem_frames_ofChain.2 (List.mem_append_left _ hf))

/-- The address of a byte of an area. -/
theorem translate_behaves (hsettled : Settled p a.root h)
    (hin : h.area.Encloses x.val.toNat stop)
    (hf : h.frames[(x.val.toNat - h.area.address.val.toNat) / 4096]? = some f) :
    Behaves a T (a.translate x) (.ofChain (h :: tail)) p
      (fun answer e q => e = .ofChain (h :: tail) ∧ Spares a (.ofChain (h :: tail)) p q ∧
        answer = some (f.byteFor x)) (Tended a h tail) := by
  refine Behaves.looks (fun back q r others hbooks hspares => ?_) fun _ _ _ hq =>
    hq.1 ▸ hsettled.tended hq.2.1
  have hmem : h.area ∈ r.areas := hbooks.area_mem (by simp [Estate.ofChain])
  have hbacked := (hsettled.of_spares hspares (Estate.mem_chains_ofChain List.mem_cons_self)
    List.mem_cons_self).backed
  have hlow := hin.start_le
  refine Runs.imp (translate_does hbooks.tables.formed x) ?_
  rintro _ _ ⟨rfl, rfl⟩
  exact ⟨rfl, rfl, hspares, hbacked.target (World.within hbooks hmem) hf (by omega) (by omega)⟩

/-- A copy from or to a frame that is in use is no matter of concern. -/
theorem Section.of_copied {way : Direction} {place : PhysAddr} {s : Registry}
    (hrelies : T.Relies a p es others) (hbooks : Books a q s (mine ++ others))
    (hspares : Spares a others p q)
    (hleaf : ∀ n < 512 ^ 4, leafOn q a.root n = leafOn p a.root n)
    (hplace : p.isTaken (.containing place) = true) :
    Section a T p es r others mine (q, es ++ [.copied way place], s) where
  books := hbooks
  spares := hspares
  tracked foreign hT :=
    ((hrelies foreign hT).tracked.push (e := .copied way place) trivial fun _ => ⟨rfl, rfl⟩).congr
      hleaf
  notes := ⟨_, rfl, fun e he => by
    obtain rfl := List.mem_singleton.1 he
    exact hplace⟩
  apart _ := .of_leaf hleaf

/-- Bytes of one frame of an area are read. -/
theorem load_behaves {count : Nat} (hsettled : Settled p a.root h) (hf : f ∈ h.frames)
    (hcount : x.val.toNat % 4096 + count ≤ 4096) :
    Behaves a T (Allocator.onMachine (Allocator.load (f.byteFor x) count)) (.ofChain (h :: tail)) p
      (fun data e q => e = .ofChain (h :: tail) ∧ Spares a (.ofChain (h :: tail)) p q ∧
        data = (List.range' (x.val.toNat % 4096) count).map (p.page f).byte) (Tended a h tail) := by
  refine Behaves.atomically (fun front q es r others hbooks hrelies hspares => ?_) fun _ _ _ hq =>
    hq.1 ▸ hsettled.tended hq.2.1
  have htaken := Books.mem_frames hbooks hf
  have hnumbered := hbooks.pool.numbered_of_isTaken htaken
  obtain ⟨i, hi⟩ := Pool.exists_number?_of_isTaken htaken
  refine Runs.onShared (Runs.bind_emit (Does.noted (Does.onPool
    (Ends.of_ok (Pool.bytes_eq hnumbered hi hcount) ?_))))
  refine ⟨_, .of_copied hrelies hbooks .refl (fun _ _ => rfl) ?_, rfl, hspares, ?_⟩
  · rw [PageFrame.containing_byteFor hnumbered]
    exact htaken
  · rw [hspares.page f (Estate.mem_frames_ofChain.2 (List.mem_append_left _ hf))]

/-- Page by page, the bytes of a range within an area are read. -/
theorem readPieces_behaves {rs : List Interval} (ht : Tiles rs start stop) {p : Pool}
    (hsettled : Settled p a.root h) (hin : h.area.Encloses start stop) (haligned : 4096 ∣ h.area.address.val.toNat) :
    Behaves a T (a.readPieces (rs.map Piece.page)) (.ofChain (h :: tail)) p
      (fun data e q => e = .ofChain (h :: tail) ∧ Spares a (.ofChain (h :: tail)) p q ∧
        data = (List.range' (start - h.area.address.val.toNat) (stop - start)).map (h.byteAt p))
      (Tended a h tail) := by
  induction ht generalizing p with
  | nil =>
    refine Behaves.pure ⟨rfl, .refl, ?_⟩
    rw [Nat.sub_self]
    rfl
  | @cons r rest stop hlt hpage hrest ih =>
    have hle := hrest.le
    have hlow := hin.start_le
    have hhigh := hin.le_stop
    have hin' : h.area.Encloses r.stop.val.toNat stop := ⟨by omega, hle, hhigh⟩
    obtain ⟨f, hmem, hf⟩ := hin.exists_frame (by omega) hsettled.backed.count
    refine Behaves.bind (translate_behaves hsettled hin hf) ?_
    rintro _ _ p' ⟨rfl, hpp, rfl⟩
    refine Behaves.bind (load_behaves (hsettled.tended hpp).2 hmem (by rw [Interval.length]; omega)) ?_
    rintro _ _ q ⟨rfl, hpq, rfl⟩
    have hpq : Spares a (.ofChain (h :: tail)) p q := hpp.trans hpq
    have hsettled' := hsettled.of_spares hpq (Estate.mem_chains_ofChain List.mem_cons_self)
      List.mem_cons_self
    refine Behaves.bind (ih hsettled' hin') ?_
    rintro _ _ u ⟨rfl, hqu, rfl⟩
    refine Behaves.pure ⟨rfl, hpq.trans hqu, ?_⟩
    have hown : ∀ g ∈ h.frames, g ∈ (Estate.ofChain (h :: tail)).frames := fun g hg =>
      Estate.mem_frames_ofChain.2 (List.mem_append_left _ hg)
    have hsame : ∀ k ∈ List.range' (r.stop.val.toNat - h.area.address.val.toNat)
        (stop - r.stop.val.toNat), h.byteAt q k = h.byteAt p k := by
      intro k hk
      have hk := List.mem_range'_1.1 hk
      have hcount := hsettled.backed.count
      exact hpq.byteAt_eq hown (by omega)
    have hoffset : r.start.val.toNat % 4096 =
        (r.start.val.toNat - h.area.address.val.toNat) % 4096 := by omega
    have hnext : r.stop.val.toNat - h.area.address.val.toNat =
        r.start.val.toNat - h.area.address.val.toNat + r.length := by
      rw [Interval.length]
      omega
    have hlength : stop - r.start.val.toNat = r.length + (stop - r.stop.val.toNat) := by
      rw [Interval.length]
      omega
    rw [hpp.page f (hown f hmem), hoffset, Holding.map_byteAt hf (by rw [Interval.length]; omega),
      List.map_congr_left hsame, ← List.map_append, hnext, List.range'_append_1, hlength]

/-! ## Writing -/

/-- The bytes of an area from number `k` on have been overwritten. Its pages are mapped as before, and
the frames of the areas that hold its handles are as before. -/
structure Overwritten (a : Allocator) (h : Holding) (tail : List Holding) (p : Pool) (k : Nat)
    (data : List UInt8) (q : Pool) : Prop where
  keeps : Keeps a.root (CoveredBy (Estate.ofChain (h :: tail)).chains)
    (· ∈ tail.flatMap Holding.frames) p q
  bytes : ∀ j < h.frames.length * 4096, h.byteAt q j = overwrite (h.byteAt p) k data j

namespace Overwritten

variable {k : Nat} {more : List UInt8}

theorem append (hpq : Overwritten a h tail p k data q)
    (hqu : Overwritten a h tail q (k + data.length) more u) :
    Overwritten a h tail p k (data ++ more) u where
  keeps := hpq.keeps.trans hqu.keeps
  bytes j hj := by rw [hqu.bytes j hj, overwrite_congr (hpq.bytes j hj), overwrite_append]

/-- What others do in between does not count. -/
theorem of_spares (hspares : Spares a (.ofChain (h :: tail)) p q)
    (hqu : Overwritten a h tail q k data u) : Overwritten a h tail p k data u where
  keeps := (hspares.mono (fun _ hn => hn) fun f hf =>
    Estate.mem_frames_ofChain.2 (List.mem_append_right _ hf)).trans hqu.keeps
  bytes j hj := by
    rw [hqu.bytes j hj, overwrite_congr (hspares.byteAt_eq (fun f hf =>
      Estate.mem_frames_ofChain.2 (List.mem_append_left _ hf)) hj)]

theorem of_nil (hspares : Spares a (.ofChain (h :: tail)) p q) : Overwritten a h tail p k [] q :=
  of_spares hspares ⟨.refl, fun j _ => by
    rcases Nat.lt_or_ge j k with hlt | hge
    · exact (overwrite_of_lt hlt).symm
    · exact (overwrite_of_le hge).symm⟩

theorem settled (hpq : Overwritten a h tail p k data q) {y : Holding} (hy : y ∈ h :: tail)
    (hsettled : Settled p a.root y) : Settled q a.root y :=
  hsettled.of_keeps hpq.keeps fun _ hn => Estate.coveredBy_ofChain.2 ⟨y, hy, hn⟩

end Overwritten

/-- A store to one frame of an area, as the area's bytes see it. -/
theorem Holding.byteAt_rewrite {k : Nat} (hnodup : h.frames.Nodup)
    (hhas : ∀ g ∈ h.frames, p.Has g) (hf : h.frames[k / 4096]? = some f)
    (hk : k % 4096 + data.length ≤ 4096) {j : Nat} (hj : j < h.frames.length * 4096) :
    h.byteAt (p.rewrite f fun page => page.storeBytes (k % 4096) data) j =
      overwrite (h.byteAt p) k data j := by
  have hi : j / 4096 < h.frames.length := by omega
  have hg := List.getElem?_eq_getElem hi
  by_cases hpage : j / 4096 = k / 4096
  · rw [← hpage] at hf
    obtain ⟨n, hn⟩ := hhas f (List.mem_of_getElem? hf)
    rw [byteAt_eq hf, Pool.page_rewrite_self hn, Page.byte_storeBytes data (Nat.mod_lt _ (by decide)) hk,
      overwrite, overwrite, byteAt_eq hf]
    have hle : k % 4096 ≤ j % 4096 ↔ k ≤ j := by omega
    have hindex : j % 4096 - k % 4096 = j - k := by omega
    simp only [hle, hindex]
  · have hne : h.frames[j / 4096] ≠ f := by
      rintro rfl
      obtain ⟨hlt, he⟩ := List.getElem?_eq_some_iff.1 hf
      exact hpage ((hnodup.getElem_inj_iff).1 he.symm)
    rw [byteAt_eq hg, Pool.page_rewrite_of_ne hne, ← byteAt_eq hg]
    rcases Nat.lt_or_ge j k with hlt | hge
    · exact (overwrite_of_lt hlt).symm
    · exact (overwrite_of_le (by omega)).symm

/-- Bytes of one frame of an area are overwritten. -/
theorem store_behaves {k : Nat} (hsettled : Settled p a.root h) (hf : h.frames[k / 4096]? = some f)
    (hx : x.val.toNat % 4096 = k % 4096) (hk : k % 4096 + data.length ≤ 4096) :
    Behaves a T (Allocator.onMachine (Allocator.store (f.byteFor x) data)) (.ofChain (h :: tail)) p
      (fun _ e q => e = .ofChain (h :: tail) ∧ Overwritten a h tail p k data q) (Tended a h tail) := by
  have hmem := List.mem_of_getElem? hf
  refine Behaves.atomically (fun front q es r others hbooks hrelies hspares => ?_) fun _ _ _ hq =>
    ⟨hq.1, hq.2.settled List.mem_cons_self hsettled⟩
  have hworld : World a q r others.loose ((h :: tail) :: others.chains) := hbooks
  have htaken : ∀ g ∈ h.frames, q.isTaken g = true := fun g => Books.mem_frames hbooks
  have hnumbered := hbooks.pool.numbered_of_isTaken (htaken f hmem)
  obtain ⟨i, hi⟩ := Pool.exists_number?_of_isTaken (htaken f hmem)
  have hwrote : q.Wrote h.frames (q.rewrite f fun page => page.storeBytes (k % 4096) data) :=
    .rewrite hbooks.pool hmem
  have hbooks' : Books a _ r (.ofChain (h :: tail) ++ others) := hworld.write hwrote
  have hkeeps : Keeps a.root (fun _ => True) (· ∈ owned others.loose (tail :: others.chains)) q _ :=
    hworld.keeps_of_wrote hwrote
  have hnodup := (List.nodup_append'.1 ((owned_cons_perm h tail).nodup_iff.1 hworld.nodup)).1
  have hset := Pool.setBytes_eq hnumbered hi (hx.symm ▸ hk)
  rw [hx] at hset
  refine Runs.onShared (Runs.bind_emit (Does.noted (Does.onPool (Ends.of_ok hset ?_))))
  refine ⟨_, .of_copied hrelies hbooks' (hkeeps.mono (fun _ _ => trivial) fun _ hg =>
    mem_owned_cons hg) (fun n hn => hkeeps.leaf n hn trivial) ?_, rfl, .of_spares hspares ⟨?_, ?_⟩⟩
  · rw [PageFrame.containing_byteFor hnumbered]
    exact htaken f hmem
  · refine hkeeps.mono (fun _ _ => trivial) fun g hg => List.mem_append_right _ ?_
    rw [heldBy_cons]
    exact List.mem_append_left _ hg
  · exact fun j hj => Holding.byteAt_rewrite hnodup (fun g hg => Pool.has_of_isTaken (htaken g hg)) hf
      hk hj

/-- Page by page, the bytes of a range within an area are overwritten. -/
theorem writePieces_behaves {rs : List Interval} (ht : Tiles rs start stop) {p : Pool}
    {data : List UInt8} (hsettled : Settled p a.root h) (hin : h.area.Encloses start stop)
    (haligned : 4096 ∣ h.area.address.val.toNat) (hlength : data.length = stop - start) :
    Behaves a T (a.writePieces (rs.map Piece.page) data) (.ofChain (h :: tail)) p
      (fun _ e q => e = .ofChain (h :: tail) ∧
        Overwritten a h tail p (start - h.area.address.val.toNat) data q) (Tended a h tail) := by
  induction ht generalizing p data with
  | nil =>
    obtain rfl := List.length_eq_zero_iff.1 (hlength.trans (Nat.sub_self _))
    exact Behaves.pure ⟨rfl, .of_nil .refl⟩
  | @cons r rest stop hlt hpage hrest ih =>
    have hle := hrest.le
    have hlow := hin.start_le
    have hhigh := hin.le_stop
    have hin' : h.area.Encloses r.stop.val.toNat stop := ⟨by omega, hle, hhigh⟩
    have hpiece : (data.take r.length).length = r.length := by
      rw [List.length_take, hlength, Interval.length]
      omega
    obtain ⟨f, hmem, hf⟩ := hin.exists_frame (by omega) hsettled.backed.count
    refine Behaves.bind (translate_behaves hsettled hin hf) ?_
    rintro _ _ p' ⟨rfl, hpp, rfl⟩
    have hstore : 4096 ≥ (r.start.val.toNat - h.area.address.val.toNat) % 4096 +
        (data.take r.length).length := by
      rw [hpiece, Interval.length]
      omega
    refine Behaves.bind (store_behaves (hsettled.tended hpp).2 hf (by omega) hstore) ?_
    rintro _ _ q ⟨rfl, hpq⟩
    have hpq := hpq.of_spares hpp
    have hdrop : (data.drop r.length).length = stop - r.stop.val.toNat := by
      rw [List.length_drop, hlength, Interval.length]
      omega
    refine (ih (hpq.settled List.mem_cons_self hsettled) hin' hdrop).imp ?_
    rintro _ _ u ⟨rfl, hqu⟩
    have hnext : r.stop.val.toNat - h.area.address.val.toNat =
        r.start.val.toNat - h.area.address.val.toNat + (data.take r.length).length := by
      rw [hpiece, Interval.length]
      omega
    rw [hnext] at hqu
    have hall := hpq.append hqu
    rw [List.take_append_drop] at hall
    exact ⟨rfl, hall⟩

/-! ## Both together -/

theorem leave_behaves (hsettled : Settled p a.root h) :
    Behaves a T (Routine.atomically .leave (pure ())) (.ofChain (h :: tail)) p
      (fun _ e q => e = .ofChain (h :: tail) ∧ Spares a (.ofChain (h :: tail)) p q) (Tended a h tail) :=
  Behaves.peeks (fun _ _ _ _ _ _ hspares => Runs.pure ⟨rfl, rfl, hspares⟩) fun _ _ _ hq =>
    hq.1 ▸ hsettled.tended hq.2

/-- A range of an allocated area is read as a whole. -/
theorem read_behaves {buffer : List UInt8} (hsettled : Settled p a.root h)
    (hwithin : h.area.Within a.block)
    (hin : h.area.Encloses x.val.toNat (x.val.toNat + buffer.length)) :
    Behaves a T (a.read x buffer) (.ofChain (h :: tail)) p
      (fun answer e q => e = .ofChain (h :: tail) ∧ Spares a (.ofChain (h :: tail)) p q ∧
        answer = (buffer.length, (List.range' (x.val.toNat - h.area.address.val.toNat)
          buffer.length).map (h.byteAt p))) (Tended a h tail) := by
  refine Behaves.bind (planFrom_behaves hsettled hin) ?_
  rintro _ _ q ⟨rfl, hpq, rs, rfl, htiles⟩
  have hsettled' := (hsettled.tended hpq).2
  refine Behaves.bind (readPieces_behaves htiles hsettled' hin hwithin.aligned) ?_
  rintro _ _ u ⟨rfl, hqu, rfl⟩
  refine Behaves.bind (leave_behaves (hsettled'.tended hqu).2) ?_
  rintro _ _ v ⟨rfl, huv⟩
  refine Behaves.pure ⟨rfl, (hpq.trans hqu).trans huv, ?_⟩
  have htotal : Copy.total (rs.map Piece.page) = buffer.length := by
    rw [Copy.total_map_page htiles, Nat.add_sub_cancel_left]
  have hsame : ∀ k ∈ List.range' (x.val.toNat - h.area.address.val.toNat) buffer.length,
      h.byteAt q k = h.byteAt p k := by
    intro k hk
    have hk := List.mem_range'_1.1 hk
    have hcount := hsettled.backed.count
    have hlow := hin.start_le
    have hhigh := hin.le_stop
    exact hpq.byteAt_eq (fun f hf => Estate.mem_frames_ofChain.2 (List.mem_append_left _ hf))
      (by omega)
  rw [htotal, List.drop_length, List.append_nil, Nat.add_sub_cancel_left, List.map_congr_left hsame]

/-- A range of an allocated area is written as a whole. -/
theorem write_behaves {data : List UInt8} (hsettled : Settled p a.root h)
    (hwithin : h.area.Within a.block)
    (hin : h.area.Encloses x.val.toNat (x.val.toNat + data.length)) :
    Behaves a T (a.write x data) (.ofChain (h :: tail)) p
      (fun answer e q => e = .ofChain (h :: tail) ∧ answer = data.length ∧
        Overwritten a h tail p (x.val.toNat - h.area.address.val.toNat) data q) (Tended a h tail) := by
  refine Behaves.bind (planFrom_behaves hsettled hin) ?_
  rintro _ _ q ⟨rfl, hpq, rs, rfl, htiles⟩
  have hsettled' := (hsettled.tended hpq).2
  refine Behaves.bind (writePieces_behaves htiles hsettled' hin hwithin.aligned
    (Nat.add_sub_cancel_left ..).symm) ?_
  rintro _ _ u ⟨rfl, hqu⟩
  refine Behaves.bind (leave_behaves (hqu.settled List.mem_cons_self hsettled')) ?_
  rintro _ _ v ⟨rfl, huv⟩
  have htotal : Copy.total (rs.map Piece.page) = data.length := by
    rw [Copy.total_map_page htiles, Nat.add_sub_cancel_left]
  have hall := (hqu.of_spares hpq).append (.of_nil huv)
  rw [List.append_nil] at hall
  exact Behaves.pure ⟨rfl, htotal, hall⟩

end PagedMemory
