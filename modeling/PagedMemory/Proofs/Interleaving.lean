import Mathlib.Tactic
import PagedMemory.Proofs.Threads

/-!
# Any order of sections is safe

What threads can rely on, in whatever order their sections follow one another and whenever frames run
out.

* `Crew.Backs`: an area is mapped to frames that are its own, and no one else's.
* `Crew.Safe`: what holds in every state.
* `Setting.crew_safe`: it does, and on the way to it nothing faults, no error is reported, and no frame
  is read or written that is not in use.
-/

namespace PagedMemory

open Layout Tables

namespace Crew

/-- The area is mapped, page by page, to frames that belong to it and to nothing else. -/
structure Backs (a : Allocator) (c : Crew) (area : Area) : Prop where
  length : (area.ownFrames c.machine).length = area.pages
  nodup : (area.ownFrames c.machine).Nodup
  mapped : ∀ (i : Nat) (f : PageFrame), (area.ownFrames c.machine)[i]? = some f → ∀ x : VirtAddr,
    area.address.val.toNat + i * 4096 ≤ x.val.toNat →
    x.val.toNat < area.address.val.toNat + (i + 1) * 4096 →
    a.whereIs c.shared x = .ok (some (f.byteFor x))
  inUse : ∀ f ∈ area.ownFrames c.machine, c.pool.isTaken f = true
  own : ∀ f ∈ area.ownFrames c.machine, f ∉ c.frames ∧ f ∉ Tables.all c.pool a.root ∧
    ∀ other ∈ c.registry.areas, other ≠ area → f ∉ other.ownFrames c.machine

/-- What holds in every state. -/
structure Safe (a : Allocator) (c : Crew) : Prop where
  /-- areas do not meet, guard pages included -/
  apart : c.registry.areas.Pairwise Registry.Before
  /-- what a thread has got is there, and belongs to no one else -/
  backed : ∀ t ∈ c.threads, ∀ plot ∈ t.live, ∃ area,
    c.registry.get? plot.address = some area ∧ c.Backs a area
  /-- a thread reads what it wrote -/
  right : ∀ r ∈ c.readings, r.Right
  quiet : ∀ e ∈ c.machine.trace.toList, ∀ r, e = .reported r → r.severity ≠ .error
  /-- when all is given back, nothing is left but the tables -/
  empty : (∀ t ∈ c.threads, t.rest = none ∧ t.plots = []) → c.registry.areas = [] ∧
    ∀ f, c.pool.isTaken f = true ↔ f ∈ c.frames ∨ f ∈ Tables.all c.pool a.root

end Crew

section

variable {a : Allocator} {p : Pool} {r : Registry} {loose : List PageFrame}
  {chains : List (List Holding)} {chain chain' : List Holding} {h h' : Holding} {f : PageFrame}

theorem World.nodup_frames (hw : World a p r loose chains) (hc : chain ∈ chains) (hh : h ∈ chain) :
    h.frames.Nodup :=
  (List.nodup_flatMap.1 (List.nodup_append'.1 hw.nodup).2.1).1 h (List.mem_flatten.2 ⟨chain, hc, hh⟩)

/-- Different areas have different frames. -/
theorem World.disjoint_frames (hw : World a p r loose chains) (hc : chain ∈ chains) (hh : h ∈ chain)
    (hc' : chain' ∈ chains) (hh' : h' ∈ chain') (hne : h ≠ h') : h.frames.Disjoint h'.frames := by
  have hpair := (List.nodup_flatMap.1 (List.nodup_append'.1 hw.nodup).2.1).2
  have hsymm : Std.Symm (Function.onFun List.Disjoint Holding.frames) := ⟨fun _ _ h => h.symm⟩
  exact hpair.forall (List.mem_flatten.2 ⟨chain, hc, hh⟩) (List.mem_flatten.2 ⟨chain', hc', hh'⟩) hne

end

namespace Crew

variable {a : Allocator} {c d : Crew} {shares : List Share} {moves : List Move}

/-- Where no share holds anything, there is nothing in all of them. -/
theorem Share.all_eq_empty (h : ∀ s ∈ shares, s.own = ∅ ∧ s.chains = []) : Share.all shares = ∅ := by
  have hloose : shares.flatMap (fun s => s.own.loose) = [] :=
    List.flatMap_eq_nil_iff.2 fun s hs => by rw [(h s hs).1]; rfl
  have hchains : shares.flatMap (fun s => s.own.chains ++ s.chains) = [] :=
    List.flatMap_eq_nil_iff.2 fun s hs => by rw [(h s hs).1, (h s hs).2]; rfl
  rw [Share.all, hloose, hchains]
  rfl

namespace Kept

/-- A settled area on the books is the thread's alone. -/
theorem backs {loose : List PageFrame} {chains : List (List Holding)} {chain : List Holding}
    {h : Holding} (hw : World a c.pool c.registry loose chains)
    (hframes : ∀ f ∈ c.frames, f ∈ loose) (hc : chain ∈ chains) (hh : h ∈ chain)
    (hsettled : Settled c.pool a.root h) : c.Backs a h.area := by
  have hown : ∀ {chain : List Holding} {h : Holding}, chain ∈ chains → h ∈ chain →
      h.area.ownFrames c.machine = h.frames := fun hc hh => World.ownFrames_eq hw hc hh
  have harea := hw.mem_areas hc hh
  have howned : ∀ f ∈ h.frames, f ∈ heldBy chains := fun f hf =>
    List.mem_flatMap.2 ⟨h, List.mem_flatten.2 ⟨chain, hc, hh⟩, hf⟩
  refine ⟨?_, ?_, ?_, ?_, ?_⟩
  · rw [hown hc hh]
    exact hsettled.backed.count
  · rw [hown hc hh]
    exact hw.nodup_frames hc hh
  · rw [hown hc hh]
    intro i f hf x
    exact hsettled.backed.whereIs (s := c.shared) hw.tables (hw.within harea) hf
  · rw [hown hc hh]
    exact fun f hf => hw.isTaken (List.mem_append_right _ (howned f hf))
  · rw [hown hc hh]
    refine fun f hf => ⟨fun hmine => ?_, fun htable => ?_, fun other hother hne => ?_⟩
    · exact (List.nodup_append'.1 hw.nodup).2.2 (hframes f hmine) (howned f hf)
    · exact hw.apart f (List.mem_append_right _ (howned f hf)) (mem_all_iff.1 htable)
    · obtain ⟨chain', hc', y, hy, rfl⟩ := hw.exists_holding hother
      rw [hown hc' hy]
      exact hw.disjoint_frames hc hh hc' hy (by rintro rfl; exact hne rfl) hf

/-- Behind everything that a thread has got there is a settled area on the books. -/
theorem exists_settled (h : c.Kept a shares) {t : Thread} (ht : t ∈ c.threads) {plot : Plot}
    (hplot : plot ∈ t.live) : ∃ chain ∈ (Share.all shares).chains, ∃ y ∈ chain,
      plot.address = y.area.address ∧ Settled c.pool a.root y := by
  obtain ⟨i, hi⟩ := List.getElem?_of_mem ht
  obtain ⟨front, s, back, rfl, howns, -⟩ := exists_split h.owns hi
  have hmem : ∀ chain ∈ s.own.chains ++ s.chains,
      chain ∈ (Share.all (front ++ s :: back)).chains := fun chain hc =>
    List.mem_flatMap.2 ⟨s, List.mem_append_right _ List.mem_cons_self, hc⟩
  rcases List.mem_append.1 hplot with hidle | huse
  · obtain ⟨n, hn⟩ := List.getElem?_of_mem hidle
    obtain ⟨_, rest, ⟨y, tail, rfl, hstands⟩, hperm, -⟩ := Plot.exists_chain howns.plots hn
    exact ⟨_, hmem _ (List.mem_append_right _ (hperm.mem_iff.2 List.mem_cons_self)), y,
      List.mem_cons_self, hstands.address, hstands.settled y List.mem_cons_self⟩
  · obtain ⟨y, tail, haddress, hown, hsettled⟩ := howns.tends plot huse
    refine ⟨y :: tail, hmem _ (List.mem_append_left _ ?_), y, List.mem_cons_self, haddress, hsettled⟩
    rw [hown]
    exact List.mem_singleton_self _

/-- Threads that have nothing own nothing. -/
theorem all_eq (h : c.Kept a shares) (hidle : ∀ t ∈ c.threads, t.rest = none ∧ t.plots = []) :
    Share.all shares = ∅ := by
  have hnothing : ∀ s ∈ shares, s.own = ∅ ∧ s.chains = [] := by
    intro s hs
    obtain ⟨i, hi⟩ := List.getElem?_of_mem hs
    obtain ⟨hlt, rfl⟩ := List.getElem?_eq_some_iff.1 hi
    have hlt' : i < c.threads.length := h.owns.length_eq ▸ hlt
    have howns := h.owns.get hlt' hlt
    obtain ⟨hrest, hplots⟩ := hidle _ (List.get_mem c.threads ⟨i, hlt'⟩)
    have hchains := howns.plots
    rw [hplots] at hchains
    exact ⟨(howns.idle hrest).1, List.forall₂_nil_left_iff.1 hchains⟩
  exact Share.all_eq_empty hnothing

theorem safe (h : c.Kept a shares)
    (hquiet : ∀ e ∈ c.machine.notes, ∀ r, e = .reported r → r.severity ≠ .error) : c.Safe a := by
  have hw := h.books
  refine ⟨hw.registry.apart, fun t ht plot hplot => ?_, h.right, fun e he r hr hsevere => ?_,
    fun hidle => ?_⟩
  · obtain ⟨chain, hc, y, hy, haddress, hsettled⟩ := h.exists_settled ht hplot
    have harea := World.mem_areas hw hc hy
    exact ⟨y.area, haddress ▸ World.get?_eq hw harea,
      backs hw (fun f hf => List.mem_append_left _ hf) hc hy hsettled⟩
  · -- reports of errors are notable
    have hnote : e ∈ c.machine.notes := by
      refine List.mem_filter.2 ⟨he, ?_⟩
      subst hr
      change r.isNote = true
      cases r <;> first | rfl | exact decide_eq_true hsevere
    exact hquiet e hnote r hr hsevere
  · rw [h.all_eq hidle] at hw
    have hempty : c.registry.areas = [] := List.perm_nil.1 hw.listed
    refine ⟨hempty, fun f => (hw.taken f).trans ?_⟩
    rw [mem_all_iff]
    refine or_congr_left ?_
    change f ∈ (c.frames ++ []) ++ [] ↔ f ∈ c.frames
    rw [List.append_nil, List.append_nil]

end Kept

/-- Where all goes well, no error is reported. -/
theorem Smooth.quiet (h : c.Smooth a moves) (hrun : c.run a moves = .ok d)
    (hquiet : ∀ e ∈ c.machine.notes, ∀ r, e = .reported r → r.severity ≠ .error) :
    ∀ e ∈ d.machine.notes, ∀ r, e = .reported r → r.severity ≠ .error := by
  induction moves generalizing c with
  | nil =>
    obtain rfl : c = d := Except.ok.inj hrun
    exact hquiet
  | cons m moves ih =>
    rw [Smooth] at h
    rw [Crew.run] at hrun
    split at h
    next u hstep =>
      obtain ⟨⟨fs, hnotes, hfine⟩, hrest⟩ := h
      rw [hstep] at hrun
      refine ih hrest hrun fun e he r hr => ?_
      rw [hnotes] at he
      rcases List.mem_append.1 he with he | he
      · exact hquiet e he r hr
      · have hfine := hfine e he
        rw [hr] at hfine
        exact hfine
    next => exact h.elim

/-- Threads that have done nothing yet own nothing. -/
theorem kept_start {t : Session} {n : Nat} (h : t.Kept a []) :
    (Crew.start t n).Kept a (List.replicate n ⟨∅, []⟩) where
  owns := by
    refine List.forall₂_iff_get.2 ⟨by simp [Crew.start], fun i hi hi' => ?_⟩
    simp only [Crew.start, List.get_eq_getElem, List.getElem_replicate]
    exact ⟨.nil, nofun, fun _ => ⟨rfl, rfl⟩, nofun⟩
  books := by
    have hnothing : Share.all (List.replicate n ⟨∅, []⟩) = ∅ := Share.all_eq_empty fun s hs => by
      rw [List.eq_of_mem_replicate hs]
      exact ⟨rfl, rfl⟩
    rw [hnothing]
    exact h.world.perm (List.Perm.of_eq (List.append_nil _).symm) (.refl _)
  right := nofun

end Crew

namespace Setting

variable {s : Setting} {a : Allocator} {t : Session} {n : Nat} {moves : List Move}

/-- In whatever order the sections of any number of threads follow one another, and whenever frames run
out: all goes well, and every state that is reached is safe. -/
theorem crew_safe (h : s.start = .ok (.ok (a, t))) (hproper : (Crew.start t n).Proper a moves) :
    (Crew.start t n).Smooth a moves ∧ ∃ c, (Crew.start t n).run a moves = .ok c ∧ c.Safe a := by
  obtain ⟨hwindow, hkept, hnotes⟩ := start_kept h
  obtain ⟨hsmooth, c, shares, hrun, hc, -⟩ :=
    (Crew.kept_start hkept).run (hwindow ▸ s.nonzero) hproper
  refine ⟨hsmooth, c, hrun, hc.safe (hsmooth.quiet hrun fun e he r hr => ?_)⟩
  obtain ⟨f, hf⟩ := hnotes e he
  cases hf.symm.trans hr

/-- Two threads allocate side by side. While the first writes across two pages the second waits, with
what it is giving back. At last the first reads what it wrote, and gives its memory back too. -/
def crewRun : List Move :=
  [.start 0 (.allocate 5000 .kernelHigh .pageKernel),
    .start 1 (.allocate 3000 .kernelLow .pageKernel)] ++
  (List.replicate 9 [Move.advance 0, .advance 1]).flatten ++
  [.advance 0, .start 0 (.use 0 (.write ⟨0x10ffe⟩ [1, 2, 3])), .start 1 (.use 0 .free)] ++
  List.replicate 6 (.advance 0) ++ List.replicate 4 (.advance 1) ++
  [.advance 0, .start 0 (.use 0 (.read ⟨0x10ffd⟩ [0, 0, 0, 0, 0]))] ++
  List.replicate 7 (.advance 0) ++ [.failAfter 0, .start 0 (.use 0 .free)] ++
  List.replicate 5 (.advance 0)

theorem small_crew_safe : ∃ a t, small.start = .ok (.ok (a, t)) ∧
    (Crew.start t 2).Proper a crewRun ∧ (Crew.start t 2).Smooth a crewRun ∧
    ∃ c, (Crew.start t 2).run a crewRun = .ok c ∧ c.Safe a := by
  have hopens : small.opens (fun a t => decide ((Crew.start t 2).Proper a crewRun)) = true := by
    decide +kernel
  obtain ⟨a, t, hstart, hproper⟩ := exists_of_opens hopens
  have hproper := of_decide_eq_true hproper
  exact ⟨a, t, hstart, hproper, crew_safe hstart hproper⟩

end Setting

end PagedMemory
