import Mathlib.Tactic
import PagedMemory.Proofs.Recounting

/-!
# The sections of routines

What each section makes of the books, whatever came before it and whatever others have done since.

* `reserveIn_behaves`: an area comes on the books that maps nothing, or there is no room for it.
* `mapArea_recounts`: the pages of an area that maps nothing are mapped, or the first of them are; and
  then a frame was asked for in vain, unless there were too few to be mapped.
* `removeHead_behaves`: the area at the head of a chain leaves the registry, and its pages are not
  mapped any more.
* `attach_behaves`, `noteDevice_behaves`: an area changes, but does not move.
-/

namespace PagedMemory

open Layout Tables

/-- A window has addresses. -/
theorem Window.start_lt_stop (w : Window) : w.range.start.val < w.range.stop.val := by
  have hvalid := w.valid
  rw [Interval.isWindow, Bool.and_eq_true] at hvalid
  obtain ⟨-, hlength⟩ := hvalid
  rw [UInt64.lt_iff_toNat_lt]
  by_contra hge
  have hnone : Word.sub? w.range.stop.val w.range.start.val = none ∨
      w.range.stop.val = w.range.start.val := by
    rcases Nat.lt_or_eq_of_le (Nat.not_lt.1 hge) with hlt | heq
    · left
      rw [Word.sub?, if_neg]
      rw [UInt64.le_iff_toNat_le]
      omega
    · exact Or.inr (UInt64.toNat_inj.1 heq)
  rcases hnone with hnone | heq
  · rw [hnone] at hlength
    cases hlength
  · rw [heq, Word.sub?, if_pos (UInt64.le_refl _), UInt64.sub_self] at hlength
    cases hlength

variable {a : Allocator} {T : Terms} {front : Front} {p q : Pool} {r : Registry}
  {loose : List PageFrame} {chains : List (List Holding)} {rest tail chain : List Holding}
  {h : Holding} {area : Area} {own kept others : Estate} {size : UInt64} {kind : AreaKind}
  {x : VirtAddr} {es : List Event} {n : Nat}

theorem Allocator.block_lt (a : Allocator) : a.block < 2 ^ 16 := by
  have hlt := a.window.range.start.val.toNat_lt
  rw [Allocator.block]
  omega

/-! ## What estates have on the books -/

theorem areasOf_append (c d : List (List Holding)) : areasOf (c ++ d) = areasOf c ++ areasOf d := by
  simp [areasOf]

/-- Areas that are listed one by one have no page in common. -/
theorem World.not_covers_of_perm (hw : World a p r loose chains) {areas : List Area}
    (hperm : r.areas.Perm (area :: areas)) (hn : ∃ b ∈ areas, b.Covers n) : ¬ area.Covers n := by
  obtain ⟨b, hb, hcovers⟩ := hn
  have hne : b ≠ area := fun he => hw.registry.address_ne hperm b hb (congrArg (·.address) he)
  exact hw.not_covers (hperm.mem_iff.2 (List.mem_cons_of_mem _ hb))
    (hperm.mem_iff.2 List.mem_cons_self) hne hcovers

theorem mem_areasOf_last : h.area ∈ areasOf (kept ++ .ofChain [h]).chains := by
  rw [Estate.chains_append, areasOf_append]
  exact List.mem_append_right _ List.mem_cons_self

section

variable (hbooks : Books a p r (own ++ others))

include hbooks

theorem Books.area_mem (harea : area ∈ areasOf own.chains) : area ∈ r.areas := by
  refine hbooks.listed.mem_iff.2 ?_
  rw [Estate.chains_append, areasOf_append]
  exact List.mem_append_left _ harea

theorem Books.isTaken {f : PageFrame} (hf : f ∈ own.frames) : p.isTaken f = true :=
  World.isTaken hbooks (Estate.mem_frames_append.2 (Or.inl hf))

end

/-- No area reaches into one that stands for itself. -/
theorem Books.not_covers (hbooks : Books a p r (kept ++ .ofChain [h] ++ others))
    (hn : CoveredBy kept.chains n ∨ CoveredBy others.chains n) : ¬ h.area.Covers n := by
  have hlisted : r.areas.Perm (h.area :: areasOf (kept.chains ++ others.chains)) := by
    refine hbooks.listed.trans ?_
    simp only [Estate.chains_append, areasOf_append, List.append_assoc]
    exact List.perm_middle
  exact World.not_covers_of_perm hbooks hlisted (coveredBy_append.2 hn)

/-! ## Reserving -/

/-- The addresses of the pages of an area. -/
theorem Span.Within.ofPage_mem {s : Span} {b : Nat} (hs : s.Within b) (hb : b < 2 ^ 16)
    (hn : s.Covers n) : s.address.val.toNat ≤ (VirtAddr.ofPage b n).val.toNat ∧
      (VirtAddr.ofPage b n).val.toNat < s.stop := by
  have haddress := hs.address_eq
  have hsize := hs.size_eq
  obtain ⟨hlow, hhigh⟩ := hn
  rw [VirtAddr.toNat_ofPage hb (hs.covers_lt ⟨hlow, hhigh⟩), stop, haddress, hsize]
  omega

/-- With an address of an area, its page begins in it. -/
theorem Span.Within.contains_home {s : Span} {b : Nat} {x : VirtAddr} (hs : s.Within b)
    (hb : b < 2 ^ 16) (hx : s.Contains x) : s.Contains (x.home b) := by
  have haligned := hs.aligned
  have hstart := hs.start_le
  have hstop := hs.stop_le
  obtain ⟨hlow, hhigh⟩ := hx
  rw [Contains, VirtAddr.toNat_home hb]
  omega

/-- Nothing is mapped where a new area lies, nor at its guard page. -/
theorem World.not_contains {window : Interval} (hw : World a p r loose chains)
    (hfits : r.Fits size kind window area) (hn : n < 512 ^ 4)
    (hmapped : leafOn p a.root n ≠ .empty) : ¬ area.Contains (.ofPage a.block n) := by
  obtain ⟨area', harea', hcovers⟩ := hw.covered n hn hmapped
  obtain ⟨hlow, hhigh⟩ := (hw.within harea').ofPage_mem a.block_lt hcovers
  have hne : area' ≠ area := fun he => hfits.address_ne hw.registry harea' (congrArg (·.address) he)
  have hapart := hfits.sound.before_or_before (Registry.mem_insert.2 (Or.inr harea'))
    (Registry.mem_insert.2 (Or.inl rfl)) hne
  rw [Registry.Before, Registry.Before] at hapart
  rw [Span.Contains]
  omega

/-- No page of a new area is mapped. -/
theorem World.leafOn_fresh {window : Interval} (hw : World a p r loose chains)
    (hwindow : window.InBlock a.block) (hfits : r.Fits size kind window area)
    (hcovers : area.Covers n) : leafOn p a.root n = .empty := by
  have hwithin := (hw.insert hwindow hfits).within (Registry.mem_insert.2 (Or.inl rfl))
  by_contra hmapped
  exact hw.not_contains hfits (hwithin.covers_lt hcovers) hmapped
    (hwithin.ofPage_mem a.block_lt hcovers)

/-- Nor is the page of any address in it. -/
theorem World.leafOn_of_contains {window : Interval} (hw : World a p r loose chains)
    (hwindow : window.InBlock a.block) (hfits : r.Fits size kind window area) {x : VirtAddr}
    (hx : area.Contains x) : leafOn p a.root x.pageNumber = .empty := by
  have hwithin := (hw.insert hwindow hfits).within (Registry.mem_insert.2 (Or.inl rfl))
  by_contra hmapped
  exact hw.not_contains hfits x.pageNumber_lt hmapped (hwithin.contains_home a.block_lt hx)

theorem Shared.reserve_runs (hr : r.Sound) {window : Interval}
    (hwindow : window.start.val < window.stop.val) {E : Fault → Pool × List Event × Registry → Prop} :
    Runs Shared.noted front (Shared.reserve size kind window) (p, es, r)
      (fun answer t => match answer with
        | .error e => e = .outOfSpace size ∧ t = (p, es, r)
        | .ok span => ∃ area : Area, area.toSpan = span ∧ r.Fits size kind window area ∧
            t = (p, es ++ [.reported (.reserved span)], r.insert area)) E := by
  refine Runs.bind_get fun s hs _ => ?_
  obtain ⟨-, -, rfl⟩ := Shared.noted_eq hs
  rcases Registry.reserve_cases hr hwindow with hfull | ⟨area, hfits, hfound⟩
  · exact Runs.bind_lift hfull (Runs.pure ⟨rfl, rfl⟩)
  · refine Runs.bind_lift hfound ?_
    refine Runs.bind_modify (u := (p, es, s.registry.insert area)) ?_ ?_
    · intro s' hs'
      obtain ⟨hpool, hnotes, -⟩ := Shared.noted_eq hs'
      exact ⟨Prod.ext hpool (Prod.ext hnotes rfl), rfl⟩
    · refine Runs.bind (Q := fun _ t => t = (p, es ++ [.reported (.reserved area.toSpan)],
        s.registry.insert area)) (Runs.onShared (Runs.emit rfl)) ?_
      rintro _ _ rfl
      exact Runs.pure ⟨area, rfl, hfits, rfl⟩

/-- The area that answers a reservation. -/
def Reserved (a : Allocator) (size : UInt64) (kind : AreaKind) (window : Interval)
    (answer : Except AllocError Span) (e : Estate) (q : Pool) : Prop :=
  match answer with
  | .error _ => e = ∅
  | .ok span => ∃ (r : Registry) (area : Area), area.toSpan = span ∧
      r.Fits size kind window area ∧ e = Estate.ofChain [⟨area, []⟩] ∧ area.Within a.block ∧
      ∀ n, area.Covers n → leafOn q a.root n = .empty

/-- A window is looked through from its start on. One without addresses is a fault. -/
theorem reserveIn_behaves {window : Interval}
    (hwindow : ∀ {q r e}, Books a q r e → window.InBlock a.block)
    (hne : T = .lenient ∨ window.start.val < window.stop.val) :
    Behaves a T (Allocator.reserveIn size kind window) ∅ p (Reserved a size kind window) := by
  refine Behaves.atomically fun front q es r others hbooks hrelies hspares => ?_
  by_cases haddresses : window.start.val < window.stop.val
  · refine Runs.bind (Shared.reserve_runs hbooks.registry haddresses) ?_
    intro answer t ht
    cases answer with
    | error e =>
      obtain ⟨-, rfl⟩ := ht
      refine Runs.bind (Q := fun _ t => t = (q, es, r)) (Runs.onShared (Does.noted (Does.report rfl))) ?_
      rintro _ _ rfl
      exact Runs.pure ⟨∅, .of_calm hrelies hbooks .refl fun _ _ => rfl, rfl⟩
    | ok span =>
      obtain ⟨area, rfl, hfits, rfl⟩ := ht
      have hnew : Books a q (r.insert area) (Estate.ofChain [⟨area, []⟩] ++ others) :=
        World.insert hbooks (hwindow hbooks) hfits
      refine Runs.pure ⟨Estate.ofChain [⟨area, []⟩], ⟨⟨hnew, .refl, fun foreign hT => ?_⟩, ?_,
        fun _ => .of_leaf fun _ _ => rfl⟩, r, area, rfl, hfits, rfl,
        hnew.within (Registry.mem_insert.2 (Or.inl rfl)), fun n hn => ?_⟩
      · exact (hrelies foreign hT).tracked.reserved a.block_lt fun y hy =>
          World.leafOn_of_contains hbooks (hwindow hbooks) hfits hy
      · refine ⟨_, rfl, fun e he => ?_⟩
        obtain rfl := List.mem_singleton.1 he
        exact (by decide : Severity.trace ≠ .error)
      · exact World.leafOn_fresh hbooks (hwindow hbooks) hfits hn
  · have hT := hne.resolve_right haddresses
    have hfault : r.reserve size kind window = .error .emptyWindow := by
      rw [Registry.reserve, if_neg haddresses]
    refine Runs.bind (Q := fun _ _ => False) ?_ fun _ _ hu => hu.elim
    refine Runs.bind_get fun s hs _ => ?_
    obtain ⟨-, -, rfl⟩ := Shared.noted_eq hs
    exact Runs.bind_lift_error hfault ⟨hT, by simp, rfl, hbooks, .refl⟩

/-! ## Mapping an area -/

theorem World.get?_eq (hw : World a p r loose chains) (harea : area ∈ r.areas) :
    r.get? area.address = some area :=
  hw.registry.get?_eq_some_iff.2 ⟨harea, rfl⟩

/-- An area of the registry is found, with its pages. -/
theorem Shared.mappedRange?_eq {s : Shared} (hbooks : Books a s.machine.pool s.registry own)
    (harea : area ∈ s.registry.areas) : ∃ range, mappedRange? area.address s = .ok (some range) s ∧
      range.Pages a.block area.firstPage (area.firstPage + area.pages) := by
  obtain ⟨stop, hstop, hpages⟩ := (World.within hbooks harea).mappedEnd
  refine ⟨⟨area.address, stop⟩, ?_, hpages⟩
  have hyields : Yields (mappedRange? area.address) s fun answer u =>
      answer = some ⟨area.address, stop⟩ ∧ u = s := by
    refine Ends.bind_get ?_
    rw [World.get?_eq hbooks harea]
    exact Ends.bind_lift hstop (Ends.pure ⟨rfl, rfl⟩)
  obtain ⟨_, _, hrun, rfl, rfl⟩ := hyields.exists_ok
  exact hrun

/-- The pages of an area of one's own. -/
theorem mappedRange?_behaves {access : Access} (harea : area ∈ areasOf own.chains) :
    Behaves a T (Routine.atomically access (Shared.mappedRange? area.address)) own p
      fun answer e q => e = own ∧ Spares a own p q ∧ ∃ range, answer = some range ∧
        range.Pages a.block area.firstPage (area.firstPage + area.pages) ∧
        area.Within a.block := by
  refine Behaves.peeks fun front q es r others hbooks hspares => ?_
  have hmem := hbooks.area_mem harea
  have hwithin := World.within hbooks hmem
  obtain ⟨stop, hstop, hpages⟩ := hwithin.mappedEnd
  refine Runs.bind_get fun s hs _ => ?_
  obtain ⟨-, -, rfl⟩ := Shared.noted_eq hs
  rw [World.get?_eq hbooks hmem]
  exact Runs.bind_lift hstop (Runs.pure ⟨rfl, rfl, hspares, _, rfl, hpages, hwithin⟩)

/-- Mapping an area changes no leaves but its own, and the books stay as they are. -/
theorem World.of_confined (hw : World a p r loose chains) (harea : area ∈ r.areas)
    (hq : Walk.Confined a.root p area.firstPage (area.firstPage + area.pages) q) :
    World a q r loose chains ∧
      Keeps a.root (fun n => ¬ area.Covers n) (· ∈ owned loose chains) p q := by
  have hout : ∀ n < 512 ^ 4, ¬ area.Covers n → leafOn q a.root n = leafOn p a.root n := by
    intro n hn hcovers
    refine hq.others n hn ?_
    rw [Span.Covers] at hcovers
    omega
  refine ⟨hw.grow hq.grown fun n hn hne => ?_, hw.keeps_of_grown hq.grown hout⟩
  by_cases hcovers : area.Covers n
  · exact Or.inr ⟨area, harea, hcovers⟩
  · rw [hout n hn hcovers] at hne
    exact Or.inl hne

/-- Whichever way the mapping of an area ends, others see nothing of it. -/
theorem Books.of_confined (hbooks : Books a p r (kept ++ .ofChain [h] ++ others))
    (hq : Walk.Confined a.root p h.area.firstPage (h.area.firstPage + h.area.pages) q) :
    Books a q r (kept ++ .ofChain [h] ++ others) ∧ Spares a others p q ∧ Spares a kept p q := by
  obtain ⟨hworld, hkeeps⟩ := World.of_confined hbooks (hbooks.area_mem mem_areasOf_last) hq
  refine ⟨hworld, hkeeps.mono (fun n hn => hbooks.not_covers (Or.inr hn)) fun f hf => ?_,
    hkeeps.mono (fun n hn => hbooks.not_covers (Or.inl hn)) fun f hf => ?_⟩
  · exact Estate.mem_frames_append.2 (Or.inr hf)
  · exact Estate.mem_frames_append.2 (Or.inl (Estate.mem_frames_append.2 (Or.inl hf)))

/-- No leaves change but those of one area, which maps nothing yet or goes. -/
theorem Apart.of_area {s : Registry} (harea : area ∈ r.areas)
    (hout : ∀ n < 512 ^ 4, ¬ area.Covers n → leafOn q a.root n = leafOn p a.root n)
    (hown : (∀ n, area.Covers n → leafOn p a.root n = .empty) ∨
      ∀ left ∈ s.areas, left.address ≠ area.address) : Apart a p r q s := by
  refine ⟨area.address, fun n hn => ?_⟩
  by_cases hcovers : area.Covers n
  · exact Or.inr ⟨area, harea, rfl, hcovers, hown.imp_left fun hempty => hempty n hcovers⟩
  · exact Or.inl (hout n hn hcovers)

/-- The first `count` pages of an area show these frames, in order, and the others are not mapped. -/
structure MapsFirst (root : PageFrame) (area : Area) (frames : Nat → Option PageFrame)
    (prot : Entry) (count : Nat) (q : Pool) : Prop where
  count_le : count ≤ area.pages
  first : ∀ k < count, ∃ f, frames k = some f ∧ f.Numbered ∧
    leafOn q root (area.firstPage + k) = .leafTo f prot
  others : ∀ k, count ≤ k → k < area.pages → leafOn q root (area.firstPage + k) = .empty

/-- What mapping an area comes to. No pages change but the area's. If none of these was mapped, the
first of them are now, and all are if it is `done`. -/
structure Mapped (a : Allocator) (kept : Estate) (area : Area) (frames : Nat → Option PageFrame)
    (prot : Entry) (p : Pool) (done : Prop) (q : Pool) : Prop where
  spares : Spares a kept p q
  maps : (∀ n, area.Covers n → leafOn p a.root n = .empty) →
    ∃ count, MapsFirst a.root area frames prot count q ∧ (done → count = area.pages)

section

variable {frames : Nat → Option PageFrame} {prot : Entry} {done : Prop} {u : Pool} {count : Nat}

/-- Others leave the pages of an area alone. -/
theorem MapsFirst.of_leaf (h : MapsFirst a.root area frames prot count p)
    (hleaf : ∀ n, area.Covers n → leafOn q a.root n = leafOn p a.root n) :
    MapsFirst a.root area frames prot count q where
  count_le := h.count_le
  first k hk := by
    obtain ⟨f, hf, hnumbered, hshows⟩ := h.first k hk
    have hcount := h.count_le
    exact ⟨f, hf, hnumbered, (hleaf _ ⟨by omega, by omega⟩).trans hshows⟩
  others k hk hlt := (hleaf _ ⟨by omega, by omega⟩).trans (h.others k hk hlt)

/-- A fill that has come to some page has mapped the pages before it. -/
theorem Walk.Filled.mapsFirst {t : Pool × List Event × Nat} (harea : area.Within a.block)
    (hempty : ∀ n, area.Covers n → leafOn p a.root n = .empty)
    (hn : area.firstPage ≤ n) (htop : n ≤ area.firstPage + area.pages)
    (ht : Walk.Filled a.root p es frames prot a.block area.firstPage n t) :
    MapsFirst a.root area frames prot (n - area.firstPage) t.1 where
  count_le := by omega
  first k hk := by
    obtain ⟨f, hf, hnumbered⟩ := ht.frame k hk
    have hlast := harea.last_lt
    refine ⟨f, hf, hnumbered, ?_⟩
    rw [ht.remapped.leaf _ (by omega), if_pos (by omega), mappedTo, Nat.add_sub_cancel_left, hf]
  others k hk hlt := by
    have hlast := harea.last_lt
    rw [ht.remapped.leaf _ (by omega), if_neg (by omega)]
    exact hempty _ ⟨by omega, by omega⟩

/-- To map a page is no matter of concern. -/
theorem Walk.fine_of_mem_mappings {b lo : Nat} {e : Event} (he : e ∈ mappings b lo frames count) :
    e.Fine p := by
  obtain ⟨k, -, hk⟩ := List.mem_filterMap.1 he
  obtain ⟨f, -, rfl⟩ := Option.map_eq_some_iff.1 hk
  exact trivial

variable {source : FrameSource}

/-- The section in which the pages of an area are mapped. -/
theorem fill_behaves {range : Interval}
    (hrange : range.Pages a.block h.area.firstPage (h.area.firstPage + h.area.pages))
    (hsource : ∀ q r others, Books a q r (kept ++ .ofChain [h] ++ others) →
      Spares a (kept ++ .ofChain [h]) p q → Walk.Gives source a.root q frames)
    (hfree : (T = .lenient ∧ (kept ++ .ofChain [h]).frames = []) ∨
      (∀ n, h.area.Covers n → leafOn p a.root n = .empty) ∧ ∀ k f, frames k = some f → f.Numbered) :
    Behaves a T (Allocator.onMachine (Walk.fill a.root range prot source 0))
      (kept ++ .ofChain [h]) p fun answer e q => e = kept ++ .ofChain [h] ∧
        Mapped a kept h.area frames prot p (∃ n, answer.1 = .ok n) q ∧
        (answer.1 = .error .tooFewFrames → ∃ k < h.area.pages, frames k = none) := by
  refine Behaves.atomically fun front q es r others hbooks hrelies hspares => ?_
  have hmem : h.area ∈ r.areas := hbooks.area_mem mem_areasOf_last
  have hwithin := World.within hbooks hmem
  have hsame : ∀ n, h.area.Covers n → leafOn q a.root n = leafOn p a.root n := fun n hn =>
    hspares.leaf n (hwithin.covers_lt hn) ⟨h.area, mem_areasOf_last, hn⟩
  refine Runs.onShared (Runs.mono (Walk.fill_runs hbooks.pool hbooks.tables
    (hsource q r others hbooks hspares) hrange) ?_ ?_)
  · rintro ⟨answer, taken⟩ t ht
    obtain ⟨n, hlow, hhigh, hfilled, hdone, hfew⟩ : ∃ n, h.area.firstPage ≤ n ∧
        n ≤ h.area.firstPage + h.area.pages ∧ Walk.Filled a.root q es frames prot a.block
          h.area.firstPage n (t.1, t.2, taken) ∧
        ((∃ k, answer = .ok k) → n = h.area.firstPage + h.area.pages) ∧
        (answer = .error .tooFewFrames → ∃ k < h.area.pages, frames k = none) := by
      cases answer with
      | ok k => exact ⟨_, Nat.le_add_right _ _, Nat.le_refl _, ht, fun _ => rfl, nofun⟩
      | error e =>
        obtain ⟨⟨n, hlow, hhigh, ht⟩, hfew⟩ := ht
        rw [Nat.add_sub_cancel_left] at hfew
        exact ⟨n, hlow, hhigh, ht, (fun ⟨_, he⟩ => nomatch he), fun he => hfew (Except.error.inj he)⟩
    obtain ⟨hbooks', hothers, hkept⟩ := hbooks.of_confined (hfilled.confined hhigh)
    refine ⟨_, ⟨⟨hbooks', hothers, fun foreign hT => ?_⟩, ?_, fun hT => ?_⟩, rfl,
      ⟨hspares.spares_left.trans hkept, fun hempty => ?_⟩, hfew⟩
    · obtain ⟨hempty, -⟩ := hfree.resolve_left fun hlenient => nomatch hT.symm.trans hlenient.1
      have hlast := hwithin.last_lt
      have htracked := (hrelies foreign hT).tracked.filled a.block_lt hlow (by omega)
        (fun k hk hkn => (hsame k ⟨hk, by omega⟩).trans (hempty k ⟨hk, by omega⟩)) hfilled
      exact htracked
    · exact ⟨_, hfilled.notes, fun e he => Walk.fine_of_mem_mappings he⟩
    · obtain ⟨hempty, -⟩ := hfree.resolve_left fun hlenient => hT hlenient.1
      exact .of_area hmem (World.of_confined hbooks hmem (hfilled.confined hhigh)).2.leaf
        (Or.inl fun n hn => (hsame n hn).trans (hempty n hn))
    · refine ⟨_, hfilled.mapsFirst hwithin (fun n hn => (hsame n hn).trans (hempty n hn)) hlow hhigh,
        fun hd => ?_⟩
      rw [hdone hd, Nat.add_sub_cancel_left]
  · rintro _ t ⟨⟨hobstructed, hcause, ht⟩, -⟩
    obtain ⟨hbooks', hothers, -⟩ := hbooks.of_confined ht
    have hnot : ¬ ((∀ n, h.area.Covers n → leafOn p a.root n = .empty) ∧
        ∀ k f, frames k = some f → f.Numbered) := by
      rintro ⟨hempty, hnumbered⟩
      rcases hobstructed with ⟨n, hlow, hhigh, hmapped⟩ | ⟨k, f, hf, hnot⟩
      · exact hmapped ((hsame n ⟨hlow, hhigh⟩).trans (hempty n ⟨hlow, hhigh⟩))
      · exact hnot (hnumbered k f hf)
    obtain ⟨hT, hframes⟩ := hfree.resolve_right hnot
    exact ⟨hT, hcause, hframes, hbooks', hothers⟩

/-- What is mapped stays so while nothing is done to the estate. -/
theorem Mapped.of_spares {done' : Prop} (hm : Mapped a kept h.area frames prot p done q)
    (hwithin : h.area.Within a.block) (hspares : Spares a (kept ++ .ofChain [h]) q u)
    (hdone : done' → done) : Mapped a kept h.area frames prot p done' u where
  spares := hm.spares.trans hspares.spares_left
  maps hempty := by
    obtain ⟨count, hmaps, hcount⟩ := hm.maps hempty
    refine ⟨count, hmaps.of_leaf fun n hn => ?_, fun hd => hcount (hdone hd)⟩
    exact hspares.leaf n (hwithin.covers_lt hn) ⟨h.area, mem_areasOf_last, hn⟩

/-- The pages of an area are mapped to the first frames of a source. It is a fault if one of them is
mapped already, or a frame has no number. If the source has enough of them, nothing but a frame for a
table can be missing. -/
theorem mapArea_recounts {G : UInt64 → Prop} (hmute : ∀ i, Mute (source i))
    (hsource : ∀ q r others, Books a q r (kept ++ .ofChain [h] ++ others) →
      Spares a (kept ++ .ofChain [h]) p q → Walk.Gives source a.root q frames)
    (hfree : (T = .lenient ∧ (kept ++ .ofChain [h]).frames = []) ∨
      (∀ n, h.area.Covers n → leafOn p a.root n = .empty) ∧ ∀ k f, frames k = some f → f.Numbered) :
    Recounts a T G (a.mapArea h.area.address prot source) (kept ++ .ofChain [h]) p
      fun answer e q es => e = kept ++ .ofChain [h] ∧
        Mapped a kept h.area frames prot p (∃ u, answer.1 = .ok u) q ∧ Fair es ∧
        ∀ e, answer.1 = .error e → (∃ k < h.area.pages, frames k = none) ∨ Short es := by
  refine Recounts.bind (Recounts.of_behaves (mappedRange?_behaves mem_areasOf_last)
    (Says.atomically (Shared.mappedRange?_mute h.area.address))) ?_
  rintro _ _ q es ⟨⟨rfl, hpq, range, rfl, hrange, hwithin⟩, hes⟩
  have hsame : ∀ n, h.area.Covers n → leafOn q a.root n = leafOn p a.root n := fun n hn =>
    hpq.leaf n (hwithin.covers_lt hn) ⟨h.area, mem_areasOf_last, hn⟩
  refine Recounts.bind (Recounts.of_behaves (fill_behaves hrange
    (fun u r others hbooks hqu => hsource u r others hbooks (hpq.trans hqu))
    (hfree.imp_right fun hf => ⟨fun n hn => (hsame n hn).trans (hf.1 n hn), hf.2⟩))
    (Says.onMachine (Walk.fill_emits hmute a.root range))) ?_
  rintro ⟨answer, taken⟩ _ u fs ⟨⟨rfl, hu, hfew⟩, hfs⟩
  have hmapped : Mapped a kept h.area frames prot p (∃ n, answer = .ok n) u := {
    spares := hpq.spares_left.trans hu.spares
    maps := fun hempty => hu.maps fun n hn => (hsame n hn).trans (hempty n hn) }
  have hfair : Fair (es ++ fs) := hes.fair.append hfs.1
  cases answer with
  | error e =>
    refine Recounts.pure ⟨rfl, hmapped.of_spares hwithin .refl ?_, ?_, fun _ _ => ?_⟩
    · rintro ⟨_, he⟩
      cases he
    · rwa [List.append_nil]
    · rw [List.append_nil]
      cases e with
      | noTable => exact Or.inr (hes.fair.append_short (hfs.2 rfl))
      | tooFewFrames => exact Or.inl (hfew rfl)
  | ok n =>
    refine Recounts.bind_emit fun v hv => Recounts.pure
      ⟨rfl, hmapped.of_spares hwithin hv fun _ => ⟨n, rfl⟩, ?_, nofun⟩
    rw [← List.append_assoc]
    exact hfair.append (Silent.fair ⟨rfl, rfl⟩)

/-- Likewise, whatever the routine says. -/
theorem mapArea_behaves (hmute : ∀ i, Mute (source i))
    (hsource : ∀ q r others, Books a q r (kept ++ .ofChain [h] ++ others) →
      Spares a (kept ++ .ofChain [h]) p q → Walk.Gives source a.root q frames)
    (hfree : (T = .lenient ∧ (kept ++ .ofChain [h]).frames = []) ∨
      (∀ n, h.area.Covers n → leafOn p a.root n = .empty) ∧ ∀ k f, frames k = some f → f.Numbered) :
    Behaves a T (a.mapArea h.area.address prot source) (kept ++ .ofChain [h]) p fun answer e q =>
      e = kept ++ .ofChain [h] ∧ Mapped a kept h.area frames prot p (∃ u, answer.1 = .ok u) q :=
  (mapArea_recounts hmute hsource hfree).behaves.imp fun _ _ _ ⟨_, he, hq, _⟩ => ⟨he, hq⟩

end

/-! ## Removing an area -/

/-- The area at the head of a chain is unmapped and leaves the registry. Its frames are loose then,
and nothing else has changed. -/
theorem World.remove (hw : World a p r loose ((h :: rest) :: chains))
    (hq : Remapped a.root h.area.firstPage (h.area.firstPage + h.area.pages) Walk.cleared p q) :
    World a q (r.erase h.area.address) (h.frames ++ loose) (rest :: chains) ∧
      Keeps a.root (CoveredBy (rest :: chains)) (· ∈ owned loose ((h :: rest) :: chains)) p q := by
  have hgrown : World a q r loose ((h :: rest) :: chains) := by
    refine hw.grow hq.toGrown fun n hn hne => Or.inl ?_
    rw [hq.leaf n hn] at hne
    split at hne
    · exact absurd rfl hne
    · exact hne
  refine ⟨hgrown.erase fun n hn hcovers => ?_, hw.keeps_of_grown hq.toGrown fun n hn hcovered => ?_⟩
  · exact (hq.leaf n hn).trans (if_pos hcovers)
  · have hperm : r.areas.Perm (h.area :: areasOf (rest :: chains)) := by simpa using hw.listed
    exact (hq.leaf n hn).trans (if_neg (hw.not_covers_of_perm hperm hcovered))

/-- What is known of the holding at the head of a chain. -/
structure Heads (p : Pool) (h : Holding) (rest : List Holding) : Prop where
  count : h.area.pageCount = h.frames.length
  holds : h.area.handles.Holds p h.frames
  rests : h.area.handles.RestsOn rest.head?

theorem Heads.backing (hh : Heads p h rest) {f : PageFrame} (hf : f ∈ h.area.handles.backing) :
    f ∈ (Estate.ofChain rest).frames :=
  Estate.mem_frames_ofChain.2 (hh.rests.subset f hf)

/-- Others do not touch the place where the handles are. -/
theorem Heads.of_spares (hh : Heads p h rest) {e : Estate}
    (hspares : Spares a (e ++ .ofChain rest) p q) : Heads q h rest where
  count := hh.count
  holds := hh.holds.congr fun f hf =>
    hspares.page f (Estate.mem_frames_append.2 (Or.inr (hh.backing hf)))
  rests := hh.rests

theorem Shared.remove_runs (hbooks : Books a p r (.ofChain (h :: rest) ++ others))
    {E : Fault → Pool × List Event × Registry → Prop} :
    Runs Shared.noted front (Shared.remove a.root h.area.address) (p, es, r)
      (fun answer t => ∃ range u fs count, range.Pages a.block h.area.firstPage
          (h.area.firstPage + h.area.pages) ∧
        Walk.Cleared a.root p (es ++ [.beforeUnmap range]) a.block h.area.firstPage
          (h.area.firstPage + h.area.pages) (u, fs) ∧
        answer = .ok ⟨h.area, (r.erase h.area.address).size⟩ ∧
        t = (u, fs ++ [.flushed range, .reported (.unmapped count range.start)],
          r.erase h.area.address)) E := by
  have hmem : h.area ∈ r.areas := hbooks.area_mem (by simp [Estate.ofChain])
  obtain ⟨stop, hstop, hpages⟩ := (World.within hbooks hmem).mappedEnd
  have hfound : r.remove h.area.address = .ok (h.area, r.erase h.area.address) := by
    rw [Registry.remove, World.get?_eq hbooks hmem]
  refine Runs.bind_get fun s hs _ => ?_
  obtain ⟨-, -, rfl⟩ := Shared.noted_eq hs
  rw [hfound]
  refine Runs.bind_lift hstop ?_
  refine Runs.bind_onShared (P := fun _ t => ∃ u fs count, Walk.Cleared a.root p
    (es ++ [.beforeUnmap ⟨h.area.address, stop⟩]) a.block h.area.firstPage
    (h.area.firstPage + h.area.pages) (u, fs) ∧
    t = (u, fs ++ [.flushed ⟨h.area.address, stop⟩, .reported (.unmapped count h.area.address)]))
    ?_ ?_
  · refine Runs.bind_emit (Runs.bind (Walk.clear_runs hbooks.pool hbooks.tables hpages) ?_)
    rintro count ⟨u, fs⟩ hu
    refine Runs.bind_emit (Runs.emit ⟨u, fs, count, hu, ?_⟩)
    exact Prod.ext rfl (List.append_assoc fs _ _)
  · rintro _ q gs ⟨u, fs, count, hu, ht⟩
    obtain ⟨rfl, rfl⟩ := Prod.mk.inj ht
    refine Runs.bind_modify (u := (q, _, s.registry.erase h.area.address)) ?_
      (Runs.pure ⟨_, q, fs, count, hpages, hu, rfl, rfl⟩)
    intro s' hs'
    obtain ⟨hpool, hnotes, -⟩ := Shared.noted_eq hs'
    exact ⟨Prod.ext hpool (Prod.ext hnotes rfl), rfl⟩

/-- The events of removing an area. -/
def Walk.removal (p : Pool) (root : PageFrame) (b lo hi : Nat) (range : Interval) (count : Nat) :
    List Event :=
  .beforeUnmap range :: (clearings p root b lo hi ++
    [.flushed range, .reported (.unmapped count range.start)])

/-- To remove an area is no matter of concern. -/
theorem Walk.fine_of_mem_removal {u : Pool} {root : PageFrame} {b lo hi count : Nat}
    {range : Interval} {e : Event} (he : e ∈ removal u root b lo hi range count) : e.Fine p := by
  rcases List.mem_cons.1 he with rfl | he
  · exact trivial
  rcases List.mem_append.1 he with he | he
  · obtain ⟨k, -, rfl⟩ := List.mem_map.1 he
    exact trivial
  · rcases List.mem_pair.1 he with rfl | rfl
    · exact trivial
    · exact (nofun : Severity.trace ≠ .error)

/-- The area at the head of a chain is removed. The areas of the rest of the chain are among those
that are left. -/
theorem removeHead_behaves :
    Behaves a T (a.removeArea h.area.address) (.ofChain (h :: rest)) p fun answer e q =>
      e = .ofFrames h.frames ++ .ofChain rest ∧ Heads q h rest ∧
        Spares a (.ofFrames h.frames ++ .ofChain rest) p q ∧
        ∃ k, rest.length ≤ k ∧ answer = .ok ⟨h.area, k⟩ := by
  refine Behaves.atomically fun front q es r others hbooks hrelies hspares => ?_
  refine Runs.imp (Shared.remove_runs hbooks) ?_
  rintro _ _ ⟨range, u, fs, count, hrange, hcleared, rfl, rfl⟩
  have hlisted : World a q r others.loose ((h :: rest) :: others.chains) := hbooks
  obtain ⟨hworld, hkeeps⟩ := hlisted.remove hcleared.remapped
  obtain ⟨hcount, hholds, hrests, -⟩ := hlisted.chained _ List.mem_cons_self
  have howned : ∀ f, f ∈ (Estate.ofChain (h :: rest)).frames ∨ f ∈ others.frames →
      f ∈ owned others.loose ((h :: rest) :: others.chains) := fun f =>
    (Estate.mem_frames_append (x := .ofChain (h :: rest))).2
  -- what is left of the estate was part of it before
  have hcovered : ∀ n, CoveredBy (Estate.ofFrames h.frames ++ .ofChain rest).chains n →
      ∃ x ∈ rest, x.area.Covers n := fun n => Estate.coveredBy_ofChain.1
  have hframes : ∀ f, f ∈ (Estate.ofFrames h.frames ++ .ofChain rest).frames →
      f ∈ (Estate.ofChain (h :: rest)).frames := by
    intro f hf
    simpa [Estate.mem_frames_append] using hf
  have hkept : Spares a (.ofFrames h.frames ++ .ofChain rest) q u :=
    hkeeps.mono (fun n hn => coveredBy_cons.2 (Or.inl (hcovered n hn))) fun f hf =>
      howned f (Or.inl (hframes f hf))
  have hheads : Heads q h rest := ⟨hcount, hholds, hrests⟩
  refine ⟨_, ⟨⟨books_iff.2 hworld, ?_, fun foreign hT => ?_⟩, ?_, fun _ => ?_⟩, rfl,
    hheads.of_spares hkept, Keeps.trans (hspares.mono (fun n hn => ?_) hframes) hkept, _, ?_, rfl⟩
  · exact hkeeps.mono (fun n hn => coveredBy_cons.2 (Or.inr hn)) fun f hf => howned f (Or.inr hf)
  · exact (hrelies foreign hT).tracked.cleared a.block_lt hrange hcleared count
  · have hnotes : fs = es ++ [.beforeUnmap range] ++ _ := hcleared.notes
    refine ⟨Walk.removal q a.root a.block h.area.firstPage (h.area.firstPage + h.area.pages) range
      count, ?_, fun e he => Walk.fine_of_mem_removal he⟩
    rw [hnotes, Walk.removal]
    simp only [List.append_assoc]
    rfl
  · exact .of_area (hlisted.mem_areas List.mem_cons_self List.mem_cons_self)
      (fun n hn hcovers => (hcleared.remapped.leaf n hn).trans (if_neg hcovers))
      (Or.inr fun _ hleft => (Registry.mem_erase.1 hleft).2)
  · obtain ⟨x, hx, hn⟩ := hcovered n hn
    exact Estate.coveredBy_ofChain.2 ⟨x, List.mem_cons_of_mem h hx, hn⟩
  · have hlength := hworld.listed.length_eq
    rw [areasOf_cons, List.length_append, List.length_map] at hlength
    rw [Registry.size]
    omega

/-! ## Areas that change -/

/-- The area, and what it owns now. -/
abbrev Area.owning (area : Area) (handles : HandleArray) (frames : List PageFrame) : Holding :=
  ⟨{ area with handles, pageCount := frames.length }, frames⟩

/-- The frames that were taken for an area are its own from now on. -/
theorem World.attached {handles : HandleArray} {frames : List PageFrame}
    (hw : World a p r (frames ++ loose) (tail :: [⟨area, []⟩] :: chains))
    (hholds : handles.Holds p frames) (hrests : handles.RestsOn tail.head?) :
    World a p (r.modify area.address ({ · with handles, pageCount := frames.length })) loose
      ((area.owning handles frames :: tail) :: chains) := by
  have hswap := hw.perm (List.Perm.refl _) (List.Perm.swap [⟨area, []⟩] tail chains)
  exact hswap.modify (fun _ => ⟨rfl, rfl⟩)
    ⟨rfl, hholds, hrests, hw.chained tail List.mem_cons_self⟩

theorem attach_behaves {handles : HandleArray} {frames : List PageFrame}
    (hholds : handles.Holds p frames) (hrests : handles.RestsOn tail.head?) :
    Behaves a T (Routine.atomically .exclusive (Shared.attach area.address handles frames.length))
      (.ofFrames frames ++ .ofChain tail ++ .ofChain [⟨area, []⟩]) p fun _ e q =>
        e = .ofChain (area.owning handles frames :: tail) ∧
          Spares a (.ofFrames frames ++ .ofChain tail ++ .ofChain [⟨area, []⟩]) p q := by
  refine Behaves.atomically fun front q es r others hbooks hrelies hspares => ?_
  have hmem : area ∈ r.areas := by
    refine hbooks.area_mem ?_
    rw [Estate.chains_append, areasOf_append]
    exact List.mem_append_right _ List.mem_cons_self
  have hholds' : handles.Holds q frames := by
    refine hholds.congr fun f hf => hspares.page f ?_
    have hf : f ∈ (Estate.ofChain tail).frames := Estate.mem_frames_ofChain.2 (hrests.subset f hf)
    simp only [Estate.mem_frames_append, hf, or_true, true_or]
  have hworld := World.attached (books_iff.1 (Books.assoc.1 hbooks)) hholds' hrests
  refine Runs.bind_get fun s hs _ => ?_
  obtain ⟨-, -, rfl⟩ := Shared.noted_eq hs
  rw [World.get?_eq hbooks hmem]
  refine Runs.modify (u := (q, es, _)) ?_
    ⟨_, .of_calm hrelies hworld .refl fun _ _ => rfl, rfl, hspares⟩
  intro s' hs'
  obtain ⟨hpool, hnotes, hregistry⟩ := Shared.noted_eq hs'
  exact ⟨Prod.ext hpool (Prod.ext hnotes (by rw [← hregistry]; rfl)), rfl⟩

/-- What a device area says of its device does not move it. -/
theorem World.noteDevice (hw : World a p r loose ([⟨area, []⟩] :: chains)) (device : PhysAddr) :
    World a p (r.modify area.address ({ · with physAddr := some device })) loose
      ([⟨{ area with physAddr := some device }, []⟩] :: chains) := by
  obtain ⟨hcount, hholds, hrests, -⟩ := hw.chained _ List.mem_cons_self
  have hlist : World a p r ([] ++ loose) ([⟨area, []⟩] :: [] :: chains) :=
    (World.drop_nil.2 hw).perm (List.Perm.refl _) (List.Perm.swap _ _ _)
  exact hlist.modify (fun _ => ⟨rfl, rfl⟩) ⟨hcount, hholds, hrests, trivial⟩

theorem noteDevice_behaves (device : PhysAddr) :
    Behaves a T (Routine.atomically .exclusive (Shared.noteDevice area.address device))
      (.ofChain [⟨area, []⟩]) p fun _ e q =>
        e = .ofChain [⟨{ area with physAddr := some device }, []⟩] ∧
          Spares a (.ofChain [⟨area, []⟩]) p q := by
  refine Behaves.atomically fun front q es r others hbooks hrelies hspares => ?_
  have hworld : World a q r others.loose ([⟨area, []⟩] :: others.chains) := hbooks
  refine Runs.modify (u := (q, es, _)) ?_
    ⟨_, .of_calm hrelies (hworld.noteDevice device) .refl fun _ _ => rfl, rfl, hspares⟩
  intro s hs
  obtain ⟨hpool, hnotes, hregistry⟩ := Shared.noted_eq hs
  exact ⟨Prod.ext hpool (Prod.ext hnotes (by rw [← hregistry]; rfl)), rfl⟩

/-- The frames of an area are read off its handles. -/
theorem framesOf_behaves :
    Behaves a T (Routine.atomically .shared (Shared.framesOf h.area.address))
      (.ofChain (h :: rest)) p fun answer e q =>
        e = .ofChain (h :: rest) ∧ Spares a (.ofChain (h :: rest)) p q ∧ answer = .ok h.frames := by
  refine Behaves.peeks fun front q es r others hbooks hspares => ?_
  have hmem : h.area ∈ r.areas := hbooks.area_mem (by simp [Estate.ofChain])
  obtain ⟨hcount, hholds, hrests, -⟩ := World.chained hbooks (h :: rest) List.mem_cons_self
  have hhas : ∀ b ∈ h.area.handles.backing, q.Has b := by
    intro b hb
    refine Pool.has_of_isTaken (hbooks.isTaken (Estate.mem_frames_ofChain.2 ?_))
    exact List.mem_append_right _ (hrests.subset b hb)
  refine Runs.bind_get fun s hs _ => ?_
  obtain ⟨-, -, rfl⟩ := Shared.noted_eq hs
  rw [World.get?_eq hbooks hmem]
  dsimp only
  rw [hcount]
  refine Runs.bind_onShared (P := fun answer t => answer = h.frames ∧ t = (q, es))
    (Does.noted (Runs.imp (HandleArray.toList_does hholds hhas) ?_)) ?_
  · rintro _ _ ⟨rfl, rfl⟩
    exact ⟨rfl, rfl⟩
  · rintro _ _ _ ⟨rfl, ht⟩
    exact Runs.pure ⟨congrArg (fun t => (t.1, t.2, s.registry)) ht, rfl, hspares, rfl⟩

end PagedMemory
