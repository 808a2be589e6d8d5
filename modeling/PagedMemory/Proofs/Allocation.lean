import Mathlib.Tactic
import PagedMemory.Proofs.Undoing

/-!
# Allocation

An allocation either brings one new chain, all of whose areas are mapped to the frames they own, or
it brings nothing.

* `takeFrames_behaves`: frames are taken and handles of them stored, until there are enough or no
  more.
* `mapHandles_recounts`: they are mapped if there are enough, and then only a table can be missing.
* `Built`: what there is in the end. `Refused`: why there is nothing.
* `complete_recounts`: an area is mapped to what could be taken for it, and if that is not enough, all
  is undone.
* `allocateWith_recounts`: allocation, given a way to make handle arrays, as `MakesArrays` says.
* `arrayFor_recounts`: the way in which they are made, by recursion on how deep they may nest.
* `allocate_recounts`: both together. `allocate_behaves` leaves the events out.
-/

namespace PagedMemory

open Layout Tables

variable {a : Allocator} {T : Terms} {back : Backdrop} {p q : Pool} {r : Registry}
  {loose : List PageFrame} {chains : List (List Holding)} {rest tail : List Holding} {h : Holding}
  {n i count : Nat} {handles : HandleArray} {frames : List PageFrame} {area : Area}
  {root f : PageFrame} {G : UInt64 → Prop} {es : List Event}

/-! ## Settled areas -/

/-- An area made by an allocation: it owns a frame for each of its pages, and is mapped to them. -/
structure Settled (p : Pool) (root : PageFrame) (h : Holding) : Prop where
  kind : h.area.kind = .allocated
  inside : h.area.firstPage + h.area.pages < 512 ^ 4
  backed : Backed p root h

theorem Backed.of_leaf (hb : Backed p root h)
    (hleaf : ∀ n, h.area.Covers n → leafOn q root n = leafOn p root n) : Backed q root h where
  count := hb.count
  leaf i f hf := by
    obtain ⟨hi, -⟩ := List.getElem?_eq_some_iff.1 hf
    have hcount := hb.count
    rw [hleaf _ ⟨Nat.le_add_right _ _, by omega⟩]
    exact hb.leaf i f hf

theorem Settled.of_keeps {P : Nat → Prop} {F : PageFrame → Prop} (hs : Settled p root h)
    (hkeeps : Keeps root P F p q) (hP : ∀ n, h.area.Covers n → P n) : Settled q root h :=
  ⟨hs.kind, hs.inside, hs.backed.of_leaf fun n hn =>
    hkeeps.leaf n (Nat.lt_trans hn.2 hs.inside) (hP n hn)⟩

/-- Areas of an estate stay settled while it is spared. -/
theorem Settled.of_spares {e : Estate} {c : List Holding} (hs : Settled p a.root h)
    (hspares : Spares a e p q) (hc : c ∈ e.chains) (hh : h ∈ c) : Settled q a.root h :=
  hs.of_keeps hspares fun _ hn => ⟨h.area, mem_areasOf.2 ⟨c, hc, h, hh, rfl⟩, hn⟩

/-- What a settled area shows is its own. -/
theorem Settled.shows (hs : Settled p a.root h) : T.Shows p a.root h := by
  intro foreign _ n _ hn _
  obtain ⟨hlow, hhigh⟩ := hn
  have hcount := hs.backed.count
  obtain ⟨f, hf⟩ : ∃ f, h.frames[n - h.area.firstPage]? = some f :=
    ⟨_, List.getElem?_eq_getElem (by omega)⟩
  have hframe := (hs.backed.leaf _ f hf).2
  rw [Nat.add_sub_cancel' hlow] at hframe
  exact Or.inl (hframe ▸ List.mem_of_getElem? hf)

/-- An area of which no page is mapped shows nothing. -/
theorem Terms.shows_of_empty (hempty : ∀ n, area.Covers n → leafOn p root n = .empty) :
    T.Shows p root ⟨area, frames⟩ :=
  fun _ _ n _ hn hmapped => absurd (hempty n hn) hmapped

/-! ## Taking frames -/

theorem HandleArray.Room.mono {k : Nat} (h : handles.Room n) (hk : k ≤ n) : handles.Room k := by
  cases handles with
  | empty => exact Nat.le_zero.1 (h ▸ hk)
  | inline capacity kept => exact Nat.le_trans hk h
  | mapped base length backing => exact ⟨Nat.le_trans hk h.1, Nat.le_trans hk h.2⟩

/-- A frame handed out was written before it had an owner. -/
theorem World.keeps_of_handed {P : Nat → Prop} (hw : World a p r loose chains) (hq : p.Handed f q) :
    Keeps a.root P (· ∈ owned loose chains) p q :=
  .of_page hq.base hq.size (fun g hg => hq.page_eq (hw.tables.taken g hg)) fun _ hg =>
    hq.page_eq (hw.isTaken hg)

/-- Nothing has happened to any frame. -/
theorem World.of_alike {P : Nat → Prop} {F : PageFrame → Prop} (hw : World a p r loose chains)
    (hq : p.Alike q) : World a q r loose chains ∧ Keeps a.root P F p q :=
  ⟨hw.transfer hq.sound (fun g _ => hq.page_eq g) (hw.chained_of_page fun g _ => hq.page_eq g)
    hw.nodup (fun g => by rw [hq.taken, hw.taken]) hw.apart,
    .of_page hq.base hq.size (fun g _ => hq.page_eq g) fun g _ => hq.page_eq g⟩

/-- Writing to the frames of one area leaves alone what others own. -/
theorem World.keeps_of_wrote {P : Nat → Prop} (hw : World a p r loose ((h :: rest) :: chains))
    (hq : p.Wrote h.frames q) : Keeps a.root P (· ∈ owned loose (rest :: chains)) p q := by
  have hmem : ∀ g ∈ h.frames, g ∈ owned loose ((h :: rest) :: chains) := fun g hg =>
    (owned_cons_perm h rest).mem_iff.2 (List.mem_append_left _ hg)
  refine .of_page hq.base hq.size (fun g hg => hq.page g ?_) fun g hg => hq.page g ?_
  · exact fun hmine => hw.apart g (hmem g hmine) hg
  · exact fun hmine => hw.disjoint hmine hg

/-- An array on the books is written. -/
theorem World.write_backing (hw : World a p r loose (tail :: chains))
    (hrests : handles.RestsOn tail.head?) (hq : p.Wrote handles.backing q) :
    World a q r loose (tail :: chains) ∧
      Keeps a.root (fun _ => True) (· ∈ owned loose chains) p q := by
  cases tail with
  | nil =>
    rw [hrests.backing_eq] at hq
    exact hw.of_alike hq
  | cons x rest =>
    rw [hrests.2] at hq
    exact ⟨hw.write hq, (hw.keeps_of_wrote hq).mono (fun _ hn => hn) fun _ hg => mem_owned_cons hg⟩

theorem World.nodup_backing (hw : World a p r loose (tail :: chains))
    (hrests : handles.RestsOn tail.head?) : handles.backing.Nodup := by
  cases tail with
  | nil =>
    rw [hrests.backing_eq]
    exact List.nodup_nil
  | cons x rest =>
    rw [hrests.2]
    exact (List.nodup_append'.1 ((owned_cons_perm x rest).nodup_iff.1 hw.nodup)).1

theorem HandleArray.RestsOn.owned (hrests : handles.RestsOn tail.head?) :
    ∀ b ∈ handles.backing, b ∈ owned loose (tail :: chains) := by
  intro b hb
  refine List.mem_append_right _ ?_
  rw [heldBy_cons]
  exact List.mem_append_left _ (hrests.subset b hb)

/-- What is known of an array while frames are taken for it: these are its handles, and it lies in
the frames of `tail`, all of whose areas are settled. -/
structure Collecting (root : PageFrame) (p : Pool) (tail : List Holding) (handles : HandleArray)
    (frames : List PageFrame) : Prop where
  holds : handles.Holds p frames
  rests : handles.RestsOn tail.head?
  numbered : ∀ f ∈ frames, f.Numbered
  settled : ∀ x ∈ tail, Settled p root x

/-- Nothing was written to the array, and its areas have been left alone. -/
theorem Collecting.of_keeps {P : Nat → Prop} {F : PageFrame → Prop}
    (hc : Collecting root p tail handles frames) (hkeeps : Keeps root P F p q)
    (hP : ∀ x ∈ tail, ∀ n, x.area.Covers n → P n) (hF : ∀ x ∈ tail, ∀ f ∈ x.frames, F f) :
    Collecting root q tail handles frames where
  holds := hc.holds.congr fun b hb => by
    obtain ⟨x, hx, hmem⟩ := List.mem_flatMap.1 (hc.rests.subset b hb)
    exact hkeeps.page b (hF x hx b hmem)
  rests := hc.rests
  numbered := hc.numbered
  settled x hx := (hc.settled x hx).of_keeps hkeeps (hP x hx)

theorem Collecting.of_spares {e : Estate} (hc : Collecting a.root p tail handles frames)
    (hspares : Spares a (e ++ .ofChain tail) p q) : Collecting a.root q tail handles frames :=
  hc.of_keeps hspares.spares_right
    (fun x hx _ hn => Estate.coveredBy_ofChain.2 ⟨x, hx, hn⟩)
    fun x hx _ hf => Estate.mem_frames_ofChain.2 (List.mem_flatMap.2 ⟨x, hx, hf⟩)

theorem takeHandle_does (policy : FramePolicy)
    (hw : World a p r (frames ++ loose) (tail :: chains))
    (hc : Collecting a.root p tail handles frames) (hroom : handles.Room (frames.length + 1)) :
    Does back (Allocator.takeHandle policy handles frames.length) p fun answer q =>
      Keeps a.root (fun _ => True) (· ∈ owned loose chains) p q ∧
        match answer with
        | none => World a q r (frames ++ loose) (tail :: chains) ∧
            Collecting a.root q tail handles frames
        | some handles' => ∃ f, World a q r ((frames ++ [f]) ++ loose) (tail :: chains) ∧
            Collecting a.root q tail handles' (frames ++ [f]) ∧
            ∀ n, handles.Room n → handles'.Room n := by
  refine Runs.bind (Machine.takeFrame_does hw.pool policy) ?_
  intro answer q hq
  cases answer with
  | none =>
    obtain ⟨hw', hkeeps⟩ := hw.of_alike hq
    refine Runs.pure ⟨hkeeps, hw', hc.of_keeps (F := fun _ => True) (hw.of_alike hq).2
      (fun _ _ _ _ => trivial) fun _ _ _ _ => trivial⟩
  | some f =>
    -- the frame is loose before its handle is written to frames that were owned already
    have hkeeps : Keeps a.root (fun _ => True) (· ∈ owned (frames ++ loose) (tail :: chains)) p q :=
      hw.keeps_of_handed hq
    have hlist : (f :: (frames ++ loose)).Perm ((frames ++ [f]) ++ loose) := by
      rw [List.append_assoc]
      exact List.perm_middle.symm
    have hwq := (hw.hand hq).perm hlist (List.Perm.refl _)
    have hrests := hc.rests
    have hhas : ∀ b ∈ handles.backing, q.Has b := fun b hb =>
      Pool.has_of_isTaken (hwq.isTaken (hrests.owned b hb))
    have hholdsq : handles.Holds q frames := hc.holds.congr fun b hb =>
      hkeeps.page b (hrests.owned b hb)
    refine Runs.bind (HandleArray.store_does hq.sound hholdsq hhas (hwq.nodup_backing hrests) hroom f) ?_
    rintro handles' u ⟨hholds', hbacking, hbase, hroom', hu⟩
    obtain ⟨hwu, hkeepsu⟩ := hwq.write_backing hrests hu
    have hrests' : handles'.RestsOn tail.head? := by
      cases tail with
      | nil => exact hbase.trans hrests
      | cons x rest => exact ⟨hbase.trans hrests.1, hbacking.trans hrests.2⟩
    have hall : Keeps a.root (fun _ => True) (· ∈ owned loose chains) p u := by
      refine Keeps.trans (hkeeps.mono (fun _ h => h) fun g hg => ?_) (hkeepsu.mono (fun _ h => h)
        fun g hg => mem_owned_append _ hg)
      exact mem_owned_cons (mem_owned_append frames hg)
    refine Runs.pure ⟨hall, f, hwu, ⟨hholds', hrests', ?_, fun x hx => ?_⟩, hroom'⟩
    · refine List.forall_mem_append.2 ⟨hc.numbered, fun g hg => ?_⟩
      obtain rfl := List.mem_singleton.1 hg
      exact hq.sound.numbered_of_isTaken hq.isTaken
    · exact (hc.settled x hx).of_keeps hall fun _ _ => trivial

/-- One more frame is taken for an array, or there is none. -/
theorem takeHandle_behaves (policy : FramePolicy) (hc : Collecting a.root p tail handles frames)
    (hroom : handles.Room (frames.length + 1)) :
    Behaves a T (Allocator.onMachine (Allocator.takeHandle policy handles frames.length))
      (.ofFrames frames ++ .ofChain tail) p fun answer e q =>
        match answer with
        | none => e = .ofFrames frames ++ .ofChain tail ∧ Collecting a.root q tail handles frames
        | some handles' => ∃ f, e = .ofFrames (frames ++ [f]) ++ .ofChain tail ∧
            Collecting a.root q tail handles' (frames ++ [f]) ∧
            ∀ n, handles.Room n → handles'.Room n := by
  refine Behaves.onMachine fun back q r others hbooks hspares => ?_
  refine Runs.imp (takeHandle_does policy (books_iff.1 hbooks) (hc.of_spares hspares) hroom) ?_
  rintro answer u ⟨hkeeps, hu⟩
  have hothers : Spares a others q u := hkeeps.mono (fun _ _ => trivial) fun _ hf => hf
  have hleaf : ∀ n < 512 ^ 4, leafOn u a.root n = leafOn q a.root n := fun n hn =>
    hkeeps.leaf n hn trivial
  cases answer with
  | none => exact ⟨_, ⟨books_iff.2 hu.1, hothers, hleaf⟩, rfl, hu.2⟩
  | some handles' =>
    obtain ⟨f, hw, hc', hroom'⟩ := hu
    exact ⟨_, ⟨books_iff.2 hw, hothers, hleaf⟩, f, rfl, hc', hroom'⟩

/-- Frames are taken until there are enough, or no more. -/
theorem takeFrames_behaves (policy : FramePolicy) (n : Nat) {p : Pool} {handles : HandleArray}
    {frames : List PageFrame} (hc : Collecting a.root p tail handles frames)
    (hroom : handles.Room (frames.length + n)) :
    Behaves a T (Allocator.takeFrames policy n frames.length handles)
      (.ofFrames frames ++ .ofChain tail) p fun answer e q =>
        ∃ frames', answer.2 = frames'.length ∧ e = .ofFrames frames' ++ .ofChain tail ∧
          Collecting a.root q tail answer.1 frames' := by
  induction n generalizing p handles frames with
  | zero => exact Behaves.pure ⟨frames, rfl, rfl, hc⟩
  | succ n ih =>
    refine Behaves.bind (takeHandle_behaves policy hc (hroom.mono (by omega))) ?_
    rintro answer e q hq
    cases answer with
    | none =>
      obtain ⟨rfl, hq⟩ := hq
      exact Behaves.pure ⟨frames, rfl, rfl, hq⟩
    | some handles' =>
      obtain ⟨f, rfl, hq, hroom'⟩ := hq
      have hlength : (frames ++ [f]).length = frames.length + 1 := by simp
      have hnext := ih hq (hroom' _ (hroom.mono (by omega)))
      rw [hlength] at hnext
      exact hnext

/-! ## Mapping what was taken -/

/-- The handles of an array on the books are a source of its frames, also while tables are added. -/
theorem World.gives (hw : World a p r loose chains) (hholds : handles.Holds p frames)
    (hbacking : ∀ b ∈ handles.backing, b ∈ owned loose chains) :
    Walk.Gives (handles.source frames.length) a.root p fun k => frames[k]? := by
  intro back q k hq
  have hholdsq : handles.Holds q frames := hholds.congr fun b hb =>
    hq.page b (hw.isTaken (hbacking b hb)) (hw.apart b (hbacking b hb))
  have hhas : ∀ b ∈ handles.backing, q.Has b := fun b hb =>
    Pool.has_of_isTaken ((hq.taken b).2 (Or.inl (hw.isTaken (hbacking b hb))))
  by_cases hk : k < frames.length
  · rw [HandleArray.source, if_pos hk]
    exact HandleArray.get?_does hholdsq hhas hk
  · rw [HandleArray.source, if_neg hk]
    exact Runs.pure ⟨(List.getElem?_eq_none (Nat.not_lt.1 hk)).symm, rfl⟩

/-- An area of which all pages are mapped to its own frames. -/
theorem MapsFirst.backed {prot : Entry}
    (h : MapsFirst root area (fun k => frames[k]?) prot area.pages q)
    (hlength : frames.length = area.pages) : Backed q root ⟨area, frames⟩ where
  count := hlength
  leaf i f hf := by
    obtain ⟨hi, -⟩ := List.getElem?_eq_some_iff.1 hf
    obtain ⟨g, hg, hnumbered, hleaf⟩ := h.first i (hlength ▸ hi)
    obtain rfl := Option.some.inj (hf.symm.trans hg)
    change (leafOn q root (area.firstPage + i)).has .present = true ∧
      (leafOn q root (area.firstPage + i)).frame = f
    rw [hleaf]
    exact ⟨Entry.leafTo_present hnumbered prot, Entry.leafTo_frame hnumbered prot⟩

/-- What belongs to an allocation under way: frames, the chain of the array, and the new area. -/
abbrev underWay (frames : List PageFrame) (tail : List Holding) (area : Area) : Estate :=
  .ofFrames frames ++ .ofChain tail ++ .ofChain [⟨area, []⟩]

/-- The frames that could be had are mapped if there are enough. Then nothing but a frame for a table
can be missing. -/
theorem mapHandles_recounts {prot : Entry} (hc : Collecting a.root p tail handles frames)
    (hempty : ∀ n, area.Covers n → leafOn p a.root n = .empty) (hpages : area.pages = count) :
    Recounts a T G (a.mapHandles area.address prot handles count frames.length)
      (underWay frames tail area) p fun answer e q es => e = underWay frames tail area ∧
        Collecting a.root q tail handles frames ∧ Fair es ∧
        match answer with
        | .error _ => frames.length = count → Short es
        | .ok _ => frames.length = count ∧
          MapsFirst a.root area (fun k => frames[k]?) prot area.pages q := by
  by_cases hcount : frames.length = count
  · rw [Allocator.mapHandles, if_pos hcount, ← hcount]
    have hgives : ∀ q r others, Books a q r (underWay frames tail area ++ others) →
        Spares a (underWay frames tail area) p q →
        Walk.Gives (handles.source frames.length) a.root q fun k => frames[k]? := by
      intro q r others hbooks hspares
      refine World.gives hbooks (hc.of_spares hspares.spares_left).holds fun b hb => ?_
      have hmem : b ∈ (Estate.ofChain tail).frames :=
        Estate.mem_frames_ofChain.2 (hc.rests.subset b hb)
      exact Estate.mem_frames_append.2 (Or.inl (Estate.mem_frames_append.2 (Or.inl
        (Estate.mem_frames_append.2 (Or.inr hmem)))))
    refine Recounts.bind (mapArea_recounts (h := ⟨area, []⟩) (handles.source_mute _) hgives
      (Or.inr ⟨hempty, fun k f hf => hc.numbered f (List.mem_of_getElem? hf)⟩)) ?_
    rintro ⟨answer, taken⟩ _ q es ⟨rfl, hq, hfair, hshort⟩
    refine Recounts.pure ⟨rfl, hc.of_spares hq.spares, ?_, ?_⟩
    · rwa [List.append_nil]
    cases answer with
    | error e =>
      intro _
      rw [List.append_nil]
      -- there is a frame for each page
      refine (hshort e rfl).resolve_left fun ⟨k, hk, hnone⟩ => ?_
      have hlt : k < frames.length := hcount.trans hpages.symm ▸ hk
      rw [List.getElem?_eq_getElem hlt] at hnone
      cases hnone
    | ok u =>
      obtain ⟨mapped, hmaps, hdone⟩ := hq.maps hempty
      exact ⟨rfl, hdone ⟨u, rfl⟩ ▸ hmaps⟩
  · rw [Allocator.mapHandles, if_neg hcount]
    exact Recounts.bind_report fun q hq => Recounts.pure
      ⟨rfl, hc.of_spares hq.spares_left, Silent.fair ⟨rfl, rfl⟩, fun he => absurd he hcount⟩

/-! ## Sizes -/

/-- The number of pages that so many bytes take. -/
def pagesFor (size : UInt64) : Nat := (size.toNat + 4095) / 4096

/-- The pages that are counted are those that the bytes take. -/
theorem Allocator.pageCount?_eq_some {size total size' : UInt64}
    (h : pageCount? size total = some (size', count)) :
    count = pagesFor size ∧ size'.toNat = count * 4096 ∧ 0 < count := by
  rw [pageCount?] at h
  rcases hround : Word.alignUp? size pageSize with _ | rounded
  · rw [hround] at h
    cases h
  · have hrounded : rounded.toNat = pagesFor size * 4096 :=
      (Word.alignUp?_eq_some_iff toNat_pageSize_eq).1 hround
    rw [hround] at h
    simp only at h
    split at h
    next => cases h
    next hsome =>
      obtain ⟨rfl, rfl⟩ := Prod.mk.inj (Option.some.inj h)
      have hpages : (rounded / pageSize).toNat = rounded.toNat / 4096 := UInt64.toNat_div _ _
      have hpos : rounded / pageSize ≠ 0 := fun he => hsome (Or.inl he)
      have hpos' : (rounded / pageSize).toNat ≠ 0 := fun he => hpos (UInt64.toNat_inj.1 he)
      omega

/-- No pages are counted if there are none, or more than are said to be there, or more than there are
addresses for. -/
theorem Allocator.pageCount?_eq_none {size total : UInt64} (h : pageCount? size total = none) :
    pagesFor size = 0 ∨ total.toNat < pagesFor size ∨ 2 ^ 52 ≤ pagesFor size := by
  rw [pageCount?] at h
  rcases hround : Word.alignUp? size pageSize with _ | rounded
  · refine Or.inr (Or.inr (Nat.le_of_not_lt fun hlt => ?_))
    have hword : UInt64.size = 2 ^ 64 := rfl
    have hval : (UInt64.ofNat (pagesFor size * 4096)).toNat = pagesFor size * 4096 :=
      UInt64.toNat_ofNat_of_lt' (by omega)
    have hsome := (Word.alignUp?_eq_some_iff (x := size) toNat_pageSize_eq).2 hval
    rw [hround] at hsome
    cases hsome
  · have hrounded : rounded.toNat = pagesFor size * 4096 :=
      (Word.alignUp?_eq_some_iff toNat_pageSize_eq).1 hround
    have hpages : (rounded / pageSize).toNat = rounded.toNat / 4096 := UInt64.toNat_div _ _
    rw [hround] at h
    simp only at h
    split at h
    next hnone =>
      rcases hnone with hzero | htotal
      · rw [hzero] at hpages
        have hzero' : (0 : UInt64).toNat = 0 := rfl
        omega
      · have hlt := UInt64.lt_iff_toNat_lt.1 htotal
        omega
    next => cases h

/-- An area for whole pages has just these pages, and its guard page. -/
theorem Registry.Fits.pages_eq {size : UInt64} {kind : AreaKind} {window : Interval}
    (h : r.Fits size kind window area) (hsize : size.toNat = count * 4096) : area.pages = count := by
  have hpadded := h.padded
  rw [paddedSize, hsize, toNat_pageSize, roundUp_of_dvd (by decide) (Nat.dvd_mul_left _ _)] at hpadded
  rw [Span.pages, hpadded]
  omega

namespace HandleArray

/-- Arrays that nest so deep have room for so many handles, and no more. -/
def capacity (levels : Nat) : Nat := 512 ^ (levels + 1)

/-- The pages of the areas in which an array for so many handles lies: of its own area, of that of the
array of that area, and so on. -/
def nesting : (levels : Nat) → (count : Nat) → List Nat
  | 0, _ => []
  | levels + 1, count =>
    if count ≤ 512 then [] else (count + 511) / 512 :: nesting levels ((count + 511) / 512)

theorem nesting_of_le {levels : Nat} (h : count ≤ 512) : nesting levels count = [] := by
  cases levels with
  | zero => rfl
  | succ levels => exact if_pos h

theorem le_capacity {levels : Nat} (h : count ≤ 512) : count ≤ capacity levels := by
  have hpos : 0 < 512 ^ levels := Nat.pow_pos (by decide)
  rw [capacity, Nat.pow_succ]
  omega

/-- An array has room for so many handles if the array of its area has. -/
theorem le_capacity_succ {levels : Nat} :
    count ≤ capacity (levels + 1) ↔ (count + 511) / 512 ≤ capacity levels := by
  rw [capacity, Nat.pow_succ, capacity]
  omega

theorem capacity_lt {levels : Nat} (h : levels ≤ maxNesting) : capacity levels < 2 ^ 52 := by
  have hle : 512 ^ (levels + 1) ≤ 512 ^ 3 := Nat.pow_le_pow_right (by decide) (Nat.succ_le_succ h)
  rw [capacity]
  omega

/-- The room that the handles of an allocation take is a number of bytes, and of pages. -/
theorem bytesFor_eq_ok (h : count < 2 ^ 52) :
    ∃ size, bytesFor count = .ok size ∧ pagesFor size = (count + 511) / 512 := by
  have hword : UInt64.size = 2 ^ 64 := rfl
  have hcount : (UInt64.ofNat count).toNat = count := UInt64.toNat_ofNat_of_lt' (by omega)
  have height : (8 : UInt64).toNat = 8 := rfl
  have hfits : (UInt64.ofNat count).toNat * (8 : UInt64).toNat < 2 ^ 64 := by
    rw [hcount, height]
    omega
  obtain ⟨size, hsize, hval⟩ := Word.mul_eq_ok hfits
  refine ⟨size, hsize, ?_⟩
  rw [pagesFor, hval, hcount, height]
  omega

end HandleArray

/-! ## Allocation -/

/-- What has been allocated at `x`: an area of `n` pages, mapped under `prot` to as many frames of its
own, at the head of a chain of settled areas. -/
structure Built (a : Allocator) (n : Nat) (prot : Entry) (x : VirtAddr) (h : Holding)
    (tail : List Holding) (q : Pool) : Prop where
  address : h.area.address = x
  start_le : a.window.range.start.val ≤ x.val
  settled : ∀ y ∈ h :: tail, Settled q a.root y
  count : h.frames.length = n
  leaf : ∀ i f, h.frames[i]? = some f →
    f.Numbered ∧ leafOn q a.root (h.area.firstPage + i) = .leafTo f prot

/-- Nothing is done to what has been allocated. -/
theorem Built.of_spares {prot : Entry} {x : VirtAddr} (hb : Built a n prot x h tail p)
    (hspares : Spares a (.ofChain (h :: tail)) p q) : Built a n prot x h tail q where
  address := hb.address
  start_le := hb.start_le
  settled y hy := (hb.settled y hy).of_spares hspares (Estate.mem_chains_ofChain hy) hy
  count := hb.count
  leaf i f hf := by
    obtain ⟨hnumbered, hleaf⟩ := hb.leaf i f hf
    have hhead := hb.settled h List.mem_cons_self
    have hcount := hhead.backed.count
    obtain ⟨hi, -⟩ := List.getElem?_eq_some_iff.1 hf
    have hcovers : h.area.Covers (h.area.firstPage + i) := ⟨Nat.le_add_right _ _, by omega⟩
    refine ⟨hnumbered, (hspares.leaf _ (Nat.lt_trans hcovers.2 hhead.inside) ?_).trans hleaf⟩
    exact Estate.coveredBy_ofChain.2 ⟨h, List.mem_cons_self, hcovers⟩

/-- Why `n` handles, or the pages for them, cannot be had where there may be `limit`: there are too
many of them, and then nothing was asked for; or something was asked for in vain, if as many frames
are said to be there. -/
structure Refused (G : UInt64 → Prop) (limit n : Nat) (es : List Event) : Prop where
  silent : limit < n → Silent es
  wanting : 0 < n → n ≤ limit → (∀ total, G total → n ≤ total.toNat) → Wanting es

theorem Refused.of_wanting {limit : Nat} (hn : n ≤ limit) (h : Wanting es) : Refused G limit n es :=
  ⟨fun hlt => absurd hn (Nat.not_le.2 hlt), fun _ _ _ => h⟩

/-- What was done before and after asked for nothing. -/
theorem Refused.between {limit : Nat} {before after : List Event} (h : Refused G limit n es)
    (hbefore : Silent before) (hafter : Silent after) :
    Refused G limit n (before ++ (es ++ after)) where
  silent hn := hbefore.append ((h.silent hn).append hafter)
  wanting hpos hn htotal :=
    hbefore.fair.append_wanting ((h.wanting hpos hn htotal).append_fair hafter.fair)

/-- How the allocation of `n` pages can end whose array may nest `levels` deep: with one new chain, or
with nothing. -/
def Allots (a : Allocator) (G : UInt64 → Prop) (levels n : Nat) (prot : Entry)
    (answer : Except AllocError VirtAddr) (e : Estate) (q : Pool) (es : List Event) : Prop :=
  Fair es ∧ match answer with
  | .error _ => e = ∅ ∧ Refused G (HandleArray.capacity levels) n es
  | .ok x => ∃ h tail, e = .ofChain (h :: tail) ∧ Built a n prot x h tail q ∧
      n ≤ HandleArray.capacity levels ∧
      tail.map (·.frames.length) = HandleArray.nesting levels n

/-- `arrayFor` makes arrays with room for as many handles as are asked for, up to as many as can be
had when they nest `levels` deep. They bring the chain with them on which they rest. -/
def MakesArrays (a : Allocator) (T : Terms) (G : UInt64 → Prop) (levels : Nat)
    (arrayFor : Nat → FramePolicy → Job (Except AllocError HandleArray)) : Prop :=
  ∀ {p : Pool} {count : Nat} (policy : FramePolicy), count < 2 ^ 52 →
    Recounts a T G (arrayFor count policy) ∅ p fun answer e q es => Fair es ∧
      match answer with
      | .error _ => e = ∅ ∧ Refused G (HandleArray.capacity levels) count es
      | .ok handles => ∃ tail, e = .ofChain tail ∧ Collecting a.root q tail handles [] ∧
          handles.Room count ∧ count ≤ HandleArray.capacity levels ∧
          tail.map (·.frames.length) = HandleArray.nesting levels count

/-- What is left to do of an allocation when its area and the array are there. -/
def Allocator.complete (a : Allocator) (span : Span) (size : UInt64) (count : Nat)
    (policy : FramePolicy) (prot : Entry) (handles : HandleArray) :
    Job (Except AllocError VirtAddr) := do
  let (handles, obtained) ← takeFrames policy count 0 handles
  let mapped ← a.mapHandles span.address prot handles count obtained
  Routine.atomically .exclusive (Shared.attach span.address handles obtained)
  match mapped with
  | .error e =>
    a.unwind span.address
    return .error e
  | .ok () =>
    onMachine (Machine.report (.allocated size span.address))
    return .ok span.address

/-- An area goes, with all that hangs on it, and no frame is asked for. -/
theorem unwind_recounts (hshows : ∀ x ∈ tail, T.Shows p a.root x) :
    Recounts a T G (a.unwind h.area.address) (.ofChain (h :: tail)) p
      fun _ e _ es => e = ∅ ∧ Silent es :=
  Recounts.of_behaves (unwind_behaves hshows) (a.unwind_hushed h.area.address)

/-- The frames that were taken become the area's, whether they have been mapped or not. -/
theorem complete_recounts (hc : Collecting a.root p tail handles []) (hroom : handles.Room count)
    (harea : area.Within a.block) (hkind : area.kind = .allocated) (hpages : area.pages = count)
    (hstart : a.window.range.start.val ≤ area.address.val)
    (hempty : ∀ n, area.Covers n → leafOn p a.root n = .empty) (size : UInt64)
    (policy : FramePolicy) (prot : Entry) :
    Recounts a T G (a.complete area.toSpan size count policy prot handles)
      (.ofChain tail ++ .ofChain [⟨area, []⟩]) p fun answer e q es => Fair es ∧
        match answer with
        | .error _ => e = ∅ ∧ Wanting es
        | .ok x => ∃ h, e = .ofChain (h :: tail) ∧ Built a count prot x h tail q := by
  have htake := Recounts.frame (G := G) (Recounts.of_behaves (takeFrames_behaves (T := T) policy count hc
    (by simpa using hroom)) (Allocator.takeFrames_says policy count 0 handles))
    (.ofChain [⟨area, []⟩]) rfl (Estate.forall_ofChain.2 fun x hx => by
      obtain rfl := List.mem_singleton.1 hx
      exact Terms.shows_of_empty hempty)
  refine Recounts.bind htake ?_
  rintro ⟨handles, obtained⟩ _ q es ⟨_, rfl, ⟨⟨frames, hobtained, rfl, hc⟩, hes⟩, hspares⟩
  obtain rfl : obtained = frames.length := hobtained
  have hempty' : ∀ n, area.Covers n → leafOn q a.root n = .empty := fun n hn =>
    (hspares.leaf n (harea.covers_lt hn) (Estate.coveredBy_ofChain.2
      ⟨_, List.mem_singleton_self _, hn⟩)).trans (hempty n hn)
  refine Recounts.bind (mapHandles_recounts hc hempty' hpages) ?_
  rintro mapped _ u fs ⟨rfl, hc, hfs, hmapped⟩
  refine Recounts.bind (Recounts.of_behaves (attach_behaves hc.holds hc.rests)
    (Says.atomically (Shared.attach_mute area.address handles frames.length))) ?_
  rintro _ _ v gs ⟨⟨rfl, hspares'⟩, hgs⟩
  have hc := hc.of_spares hspares'.spares_left
  have hfair : Fair (es ++ (fs ++ gs)) := hes.1.append (hfs.append hgs.fair)
  -- from here on the frames hang on the area, so that tearing it down gives them back
  cases mapped with
  | error e =>
    refine Recounts.bind (unwind_recounts (h := area.owning handles frames) fun x hx =>
      (hc.settled x hx).shows) ?_
    rintro _ _ _ hs ⟨rfl, hsilent⟩
    have hwanting : Short (es ++ (fs ++ gs)) := by
      by_cases hcount : frames.length = count
      · exact hes.1.append_short ((hmapped hcount).append_fair hgs.fair)
      · refine (hes.2 ?_).append_fair (hfs.append hgs.fair)
        rwa [Nat.zero_add]
    refine Recounts.pure ⟨?_, rfl, Or.inl ?_⟩
    · simpa only [List.append_assoc, List.append_nil] using hfair.append hsilent.fair
    · simpa only [List.append_assoc, List.append_nil] using hwanting.append_fair hsilent.fair
  | ok done =>
    obtain ⟨hlength, hmaps⟩ := hmapped
    have hmaps : MapsFirst a.root area (fun k => frames[k]?) prot area.pages v :=
      hmaps.of_leaf fun n hn => hspares'.leaf n (harea.covers_lt hn) ⟨area, mem_areasOf_last, hn⟩
    have hbacked := hmaps.backed (hlength.trans hpages.symm)
    have hbuilt : Built a count prot area.address (area.owning handles frames) tail v := {
      address := rfl
      start_le := hstart
      settled := List.forall_mem_cons.2 ⟨⟨hkind, harea.last_lt, hbacked.count, hbacked.leaf⟩, hc.settled⟩
      count := hlength
      leaf := fun i f hf => by
        obtain ⟨hi, -⟩ := List.getElem?_eq_some_iff.1 hf
        have hi : i < area.pages := (hlength.trans hpages.symm) ▸ hi
        obtain ⟨g, hg, hnumbered, hleaf⟩ := hmaps.first i hi
        obtain rfl := Option.some.inj (hf.symm.trans hg)
        exact ⟨hnumbered, hleaf⟩ }
    refine Recounts.bind_report fun w hw => Recounts.pure
      ⟨?_, _, rfl, hbuilt.of_spares hw⟩
    simpa only [List.append_assoc] using hfair.append (Silent.fair ⟨rfl, rfl⟩)

theorem allocateWith_recounts {levels : Nat}
    {arrayFor : Nat → FramePolicy → Job (Except AllocError HandleArray)}
    (hmake : MakesArrays a T G levels arrayFor) (hlevels : levels ≤ maxNesting) (size : UInt64)
    (policy : FramePolicy) (prot : Entry) :
    Recounts a T G (a.allocateWith arrayFor size policy prot) ∅ p
      (Allots a G levels (pagesFor size) prot) := by
  refine Recounts.bind_frameTotal fun total p htotal _ => ?_
  rcases hpages : Allocator.pageCount? size total with _ | ⟨size', count⟩
  · refine Recounts.pure ⟨fair_nil, rfl, fun _ => silent_nil, fun hpos hn hall => ?_⟩
    have hnone := Allocator.pageCount?_eq_none hpages
    have hcapacity := HandleArray.capacity_lt hlevels
    have hstated := hall total htotal
    omega
  obtain ⟨rfl, hsize, hpos⟩ := Allocator.pageCount?_eq_some hpages
  refine Recounts.bind (Recounts.of_behaves (reserveIn_behaves (fun hbooks => World.window hbooks)
    (Or.inr a.window.start_lt_stop))
    (Says.atomically (Shared.reserveOrWarn_emits size' .allocated a.window.range))) ?_
  rintro answer e q es ⟨hreserved, hes, hwarns⟩
  cases answer with
  | error e =>
    obtain rfl := hreserved
    refine Recounts.pure ⟨?_, rfl, ?_, ?_⟩ <;> simp only [List.append_nil]
    · exact hes.fair
    · exact fun _ => hes
    · exact fun _ _ _ => Or.inr ⟨size', hwarns e rfl⟩
  | ok span =>
    obtain ⟨r, area, rfl, hfits, rfl, harea, hempty⟩ := hreserved
    have hcount : pagesFor size < 2 ^ 52 := by
      have hlt := size'.toNat_lt
      omega
    refine Recounts.bind (Recounts.frame (hmake (p := q) policy hcount) (.ofChain [⟨area, []⟩]) rfl
      (Estate.forall_ofChain.2 fun x hx => by
        obtain rfl := List.mem_singleton.1 hx
        exact Terms.shows_of_empty hempty)) ?_
    rintro answer _ u fs ⟨mine, rfl, ⟨hfs, hmine⟩, hspares⟩
    cases answer with
    | error e =>
      -- the area itself asked for nothing, so that the array's refusal is that of the whole
      obtain ⟨rfl, hrefused⟩ := hmine
      have hunwind : Recounts a T G (a.unwind area.address) (.ofChain [⟨area, []⟩]) u
          fun _ e _ es => e = ∅ ∧ Silent es := unwind_recounts (h := ⟨area, []⟩) nofun
      refine Recounts.bind hunwind ?_
      rintro _ _ _ gs ⟨rfl, hgs⟩
      refine Recounts.pure ⟨?_, rfl, ?_⟩
      · simpa only [List.append_nil] using hes.fair.append (hfs.append hgs.fair)
      · simpa only [List.append_nil] using hrefused.between hes hgs
    | ok handles =>
      obtain ⟨tail, rfl, hc, hroom, hcapacity, hnesting⟩ := hmine
      refine (complete_recounts hc hroom harea (congrArg (·.kind) hfits.fresh)
        (hfits.pages_eq hsize) (UInt64.le_iff_toNat_le.2 hfits.start_le) (fun n hn => ?_)
        size' policy prot).imp ?_
      · exact (hspares.leaf n (harea.covers_lt hn) (Estate.coveredBy_ofChain.2
          ⟨_, List.mem_singleton_self _, hn⟩)).trans (hempty n hn)
      rintro answer e v gs ⟨hgs, hpost⟩
      refine ⟨hes.fair.append (hfs.append hgs), ?_⟩
      cases answer with
      | error e =>
        obtain ⟨rfl, hwanting⟩ := hpost
        exact ⟨rfl, .of_wanting hcapacity
          (hes.fair.append_wanting (hfs.append_wanting hwanting))⟩
      | ok x =>
        obtain ⟨h, rfl, hbuilt⟩ := hpost
        exact ⟨h, tail, rfl, hbuilt, hcapacity, hnesting⟩

/-! ## Arrays in memory of the allocator -/

/-- Frames of a settled area are cleared. -/
theorem zeroAll_behaves (list : List PageFrame) {p : Pool} (hsubset : ∀ f ∈ list, f ∈ h.frames)
    (hsettled : ∀ x ∈ h :: tail, Settled p a.root x) :
    Behaves a T (list.forM fun f => Allocator.onMachine (Machine.onPool (Pool.zero f)))
      (.ofChain (h :: tail)) p fun _ e q =>
        e = .ofChain (h :: tail) ∧ ∀ x ∈ h :: tail, Settled q a.root x := by
  induction list generalizing p with
  | nil => exact Behaves.pure ⟨rfl, hsettled⟩
  | cons f list ih =>
    refine Behaves.bind (Q := fun _ e q => e = .ofChain (h :: tail) ∧
      ∀ x ∈ h :: tail, Settled q a.root x) (Behaves.onMachine ?_) ?_
    · intro back q r others hbooks hspares
      have hworld : World a q r others.loose ((h :: tail) :: others.chains) := hbooks
      have hf := hsubset f List.mem_cons_self
      have hrests : (HandleArray.mapped h.area.address 0 h.frames.toArray).RestsOn
          (h :: tail).head? := ⟨rfl, rfl⟩
      refine Runs.imp (Machine.zero_does (Pool.has_of_isTaken (hworld.isTaken
        ((owned_cons_perm h tail).mem_iff.2 (List.mem_append_left _ hf))))) ?_
      rintro _ _ rfl
      obtain ⟨hwu, hkeeps⟩ := hworld.write_backing hrests (.rewrite hworld.pool hf)
      refine ⟨_, ⟨hwu, hkeeps.mono (fun _ _ => trivial) fun _ hg => hg, fun n hn =>
        hkeeps.leaf n hn trivial⟩, rfl, fun x hx => ?_⟩
      exact ((hsettled x hx).of_spares hspares (Estate.mem_chains_ofChain hx) hx).of_keeps hkeeps
        fun _ _ => trivial
    · rintro _ _ q ⟨rfl, hq⟩
      exact ih (fun g hg => hsubset g (List.mem_cons_of_mem f hg)) hq

/-- The frames of a settled area become room for handles. -/
theorem arrayIn_behaves (hsettled : ∀ x ∈ h :: tail, Settled p a.root x)
    (hroom : count ≤ h.frames.length * handlesPerFrame) :
    Behaves a T (a.arrayIn h.area.address count) (.ofChain (h :: tail)) p fun answer e q =>
      e = .ofChain (h :: tail) ∧ ∃ handles, answer = .ok handles ∧
        Collecting a.root q (h :: tail) handles [] ∧ handles.Room count := by
  refine Behaves.bind framesOf_behaves ?_
  rintro _ _ q ⟨rfl, hspares, rfl⟩
  refine Behaves.bind (zeroAll_behaves h.frames (fun _ hf => hf) fun x hx =>
    (hsettled x hx).of_spares hspares (Estate.mem_chains_ofChain hx) hx) ?_
  rintro _ _ u ⟨rfl, hu⟩
  exact Behaves.pure ⟨rfl, _, rfl, ⟨⟨Nat.zero_le _, nofun⟩, ⟨rfl, rfl⟩, nofun, hu⟩,
    Nat.le_refl _, hroom⟩

/-- Short arrays are kept beside their areas and rest on nothing. -/
theorem collecting_inline (capacity : Nat) : Collecting root p [] (.inline capacity #[]) [] :=
  ⟨rfl, rfl, nofun, nofun⟩

/-- The arrays that an allocator makes, however deep they may nest. -/
theorem arrayFor_recounts (a : Allocator) (T : Terms) (G : UInt64 → Prop) {levels : Nat}
    (hlevels : levels ≤ maxNesting) : MakesArrays a T G levels (a.arrayFor levels) := by
  -- the array of an array may nest one level less
  induction levels with
  | zero =>
    intro p count policy hcount
    rw [Allocator.arrayFor]
    split
    next hfits =>
      have hle : count ≤ 512 := of_decide_eq_true hfits
      exact Recounts.pure ⟨fair_nil, [], rfl, collecting_inline count, Nat.le_refl count,
        HandleArray.le_capacity hle, rfl⟩
    next hfits =>
      have hlt : ¬ count ≤ 512 := fun hle => hfits (decide_eq_true hle)
      exact Recounts.bind_report fun _ _ => Recounts.pure ⟨Silent.fair ⟨rfl, rfl⟩, rfl,
        fun _ => ⟨rfl, rfl⟩, fun _ hle => absurd hle hlt⟩
  | succ levels ih =>
    intro p count policy hcount
    rw [Allocator.arrayFor]
    split
    next hfits =>
      have hle : count ≤ 512 := of_decide_eq_true hfits
      exact Recounts.pure ⟨fair_nil, [], rfl, collecting_inline count, Nat.le_refl count,
        HandleArray.le_capacity hle, (HandleArray.nesting_of_le hle).symm⟩
    next hfits =>
      have hlt : ¬ count ≤ 512 := fun hle => hfits (decide_eq_true hle)
      obtain ⟨size, hsize, hpages⟩ := HandleArray.bytesFor_eq_ok hcount
      rw [hsize, Allocator.orFault, pure_bind]
      refine Recounts.bind (allocateWith_recounts (ih (Nat.le_of_succ_le hlevels))
        (Nat.le_of_succ_le hlevels) _ _ _) ?_
      rintro answer e q es ⟨hes, hq⟩
      rw [hpages] at hq
      cases answer with
      | error _ =>
        obtain ⟨rfl, hrefused⟩ := hq
        refine Recounts.pure ⟨?_, rfl, ?_, ?_⟩ <;> simp only [List.append_nil]
        · exact hes
        · intro hover
          rw [← Nat.not_le, HandleArray.le_capacity_succ, Nat.not_le] at hover
          exact hrefused.silent hover
        · intro _ hle hall
          refine hrefused.wanting (by omega) (HandleArray.le_capacity_succ.1 hle) fun total htotal => ?_
          have hstated := hall total htotal
          omega
      | ok base =>
        obtain ⟨h, tail, rfl, hbuilt, hcapacity, hnesting⟩ := hq
        have hlength := hbuilt.count
        have hroom : count ≤ h.frames.length * handlesPerFrame := by
          change count ≤ h.frames.length * 512
          omega
        rw [← hbuilt.address]
        refine (Recounts.of_behaves (arrayIn_behaves hbuilt.settled hroom)
          (a.arrayIn_hushed h.area.address count)).imp ?_
        rintro _ _ u fs ⟨⟨rfl, handles, rfl, hc, hroom⟩, hfs⟩
        refine ⟨hes.append hfs.fair, _, rfl, hc, hroom, HandleArray.le_capacity_succ.2 hcapacity, ?_⟩
        rw [HandleArray.nesting, if_neg hlt, List.map_cons, hlength, hnesting]

/-- An allocation brings one chain of settled areas, or nothing; and it tells why. -/
theorem allocate_recounts (size : UInt64) (policy : FramePolicy) (prot : Entry) :
    Recounts a T G (a.allocate size policy prot) ∅ p
      (Allots a G maxNesting (pagesFor size) prot) :=
  allocateWith_recounts (arrayFor_recounts a T G (Nat.le_refl _)) (Nat.le_refl _) size policy prot

/-- How an allocation can end: with one new chain, all of whose areas are settled, or with nothing. -/
def Allocates (a : Allocator) (size : UInt64) (answer : Except AllocError VirtAddr) (e : Estate)
    (q : Pool) : Prop :=
  match answer with
  | .error _ => e = ∅
  | .ok x => ∃ h tail, h.area.address = x ∧ a.window.range.start.val ≤ x.val ∧
      e = .ofChain (h :: tail) ∧ (∀ y ∈ h :: tail, Settled q a.root y) ∧
      size.toNat ≤ h.frames.length * 4096

/-- An allocation brings one chain of settled areas, or nothing. -/
theorem allocate_behaves (size : UInt64) (policy : FramePolicy) (prot : Entry) :
    Behaves a T (a.allocate size policy prot) ∅ p (Allocates a size) := by
  refine (allocate_recounts size policy prot).behaves.imp ?_
  rintro answer e q ⟨es, -, hq⟩
  cases answer with
  | error _ => exact hq.1
  | ok x =>
    obtain ⟨h, tail, he, hbuilt, -⟩ := hq
    refine ⟨h, tail, hbuilt.address, hbuilt.start_le, he, hbuilt.settled, ?_⟩
    rw [hbuilt.count, pagesFor]
    omega

end PagedMemory
