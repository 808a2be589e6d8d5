import Mathlib.Tactic
import PagedMemory.Proofs.Sections

/-!
# Giving back

Removing an area undoes all that was done for it, and nothing else.

* `tearDown_behaves`: with an area goes its whole chain: the areas of its handle array, of that
  array's array, and so on, and the frames of all of them.
* `detach_behaves`: an area goes alone, and the rest of its chain stays. Without frames it leaves
  nothing.
* `unwind_behaves`, `undo_behaves`: the same for operations that have failed.

What others have on the books is spared all along, as `Behaves` says. Frames go back one by one, each
of them when no page is mapped to it any more.
-/

namespace PagedMemory

open Layout Tables

section

variable {a : Allocator} {T : Terms} {p q : Pool} {r : Registry} {rest : List Holding} {h : Holding}
  {own others : Estate} {frames : List PageFrame} {f : PageFrame} {es : List Event} {n : Nat}

/-! ## Frames -/

/-- No page is mapped to a frame that is loose. -/
theorem Watched.frame_ne {foreign : PageFrame → Prop}
    (hbooks : Books a p r (.ofFrames (f :: frames) ++ .ofChain rest ++ others))
    (hwatched : Watched a foreign p es others) (hshows : ∀ x ∈ rest, x.Shows p a.root foreign)
    (hn : n < 512 ^ 4) (hmapped : leafOn p a.root n ≠ .empty) : (leafOn p a.root n).frame ≠ f := by
  have hworld := books_iff.1 hbooks
  have hnot : f ∉ owned (frames ++ others.loose) (rest :: others.chains) :=
    (List.nodup_cons.1 hworld.nodup).1
  have hnot_loose : f ∉ others.loose := fun hf =>
    hnot (List.mem_append_left _ (List.mem_append_right _ hf))
  have hnot_held : ∀ c ∈ rest :: others.chains, ∀ x ∈ c, f ∉ x.frames := fun c hc x hx hf =>
    hnot (List.mem_append_right _ (List.mem_flatMap.2 ⟨x, List.mem_flatten.2 ⟨c, hc, hx⟩, hf⟩))
  obtain ⟨area, harea, hcovers⟩ := hworld.covered n hn hmapped
  obtain ⟨c, hc, x, hx, rfl⟩ := mem_areasOf.1 (hworld.listed.mem_iff.1 harea)
  have hx_shows : x.Shows p a.root foreign := by
    rcases List.mem_cons.1 hc with rfl | hc
    · exact hshows x hx
    · exact hwatched.shows c hc x hx
  rintro rfl
  rcases hx_shows n hn hcovers hmapped with hown | hforeign
  · exact hnot_held c hc x hx hown
  · rcases hwatched.foreign _ hforeign with hloose | hoff
    · exact hnot_loose hloose
    · exact hoff (Pool.has_of_isTaken (hworld.isTaken List.mem_cons_self))

/-- The frame of one handle goes back. -/
theorem returnHandle_behaves {handles : HandleArray} {all : List PageFrame} {i : Nat}
    (hholds : handles.Holds p all) (hi : all[i]? = some f)
    (hbacking : ∀ b ∈ handles.backing, b ∈ (Estate.ofChain rest).frames)
    (hshows : ∀ x ∈ rest, T.Shows p a.root x) :
    Behaves a T (Allocator.onMachine (Allocator.returnHandle handles i))
      (.ofFrames (f :: frames) ++ .ofChain rest) p fun more e q =>
        e = .ofFrames frames ++ .ofChain rest ∧ more = true ∧
          Spares a (.ofFrames frames ++ .ofChain rest) p q := by
  refine Behaves.atomically fun front q es r others hbooks hrelies hspares => ?_
  have hworld : World a q r (f :: (frames ++ others.loose)) (rest :: others.chains) :=
    books_iff.1 hbooks
  have hholds' : handles.Holds q all := hholds.congr fun b hb =>
    hspares.page b (Estate.mem_frames_append.2 (Or.inr (hbacking b hb)))
  have hhas : ∀ b ∈ handles.backing, q.Has b := fun b hb => Pool.has_of_isTaken
    (hbooks.isTaken (Estate.mem_frames_append.2 (Or.inr (hbacking b hb))))
  obtain ⟨hlt, -⟩ := List.getElem?_eq_some_iff.1 hi
  refine Runs.onShared (Does.bind_noted (HandleArray.get?_does hholds' hhas hlt) ?_)
  rintro _ q ⟨rfl, rfl⟩
  rw [hi]
  refine Runs.bind (Machine.returnFrame_runs hworld.pool (hworld.isTaken List.mem_cons_self)) ?_
  rintro _ ⟨u, fs⟩ ⟨hu, rfl⟩
  have hkeeps : ∀ {P : Nat → Prop} {F : PageFrame → Prop}, Keeps a.root P F q u :=
    .of_page hu.base hu.size (fun g _ => hu.page g) fun g _ => hu.page g
  refine Runs.pure ⟨_, ⟨⟨books_iff.2 (hworld.giveBack hu), hkeeps, fun foreign hT => ?_⟩,
    ⟨_, rfl, fun e he => ?_⟩, fun _ => ?_⟩, rfl, rfl,
    Keeps.trans (hspares.mono (fun _ hn => hn) ?_) hkeeps⟩
  · have hwatched := hrelies foreign hT
    have hunmapped : ∀ n < 512 ^ 4, leafOn q a.root n ≠ .empty →
        (leafOn q a.root n).frame ≠ f := fun n hn =>
      hwatched.frame_ne hbooks (fun x hx => (hshows x hx foreign hT).of_spares hspares.spares_right
        (Estate.mem_chains_ofChain hx) hx) hn
    exact (hwatched.tracked.returned hunmapped).congr fun n hn =>
      leafOn_eq_of_page (fun g _ => hu.page g) hn
  · obtain rfl := List.mem_singleton.1 he
    exact trivial
  · exact .of_leaf fun n hn => leafOn_eq_of_page (fun g _ => hu.page g) hn
  · intro g hg
    simp only [Estate.mem_frames_append, Estate.mem_frames_ofFrames] at hg ⊢
    exact hg.imp_left (List.mem_cons_of_mem f)

/-- Frames that an array has handles of go back one by one; nothing is written. -/
theorem returnFrames_behaves {handles : HandleArray} (n i : Nat)
    (hholds : handles.Holds p frames)
    (hbacking : ∀ b ∈ handles.backing, b ∈ (Estate.ofChain rest).frames)
    (hshows : ∀ x ∈ rest, T.Shows p a.root x) (hn : i + n = frames.length) :
    Behaves a T (Allocator.returnFrames handles n i) (.ofFrames (frames.drop i) ++ .ofChain rest) p
      fun _ e q => e = .ofChain rest ∧ Spares a (.ofChain rest) p q := by
  induction n generalizing i p with
  | zero =>
    have hdrop : frames.drop i = [] := List.drop_eq_nil_of_le (by omega)
    rw [hdrop]
    exact Behaves.pure ⟨rfl, .refl⟩
  | succ n ih =>
    have hi : i < frames.length := by omega
    -- the frames from number `i` on are still loose
    rw [List.drop_eq_getElem_cons hi]
    refine Behaves.bind (returnHandle_behaves hholds (List.getElem?_eq_getElem hi) hbacking hshows) ?_
    rintro _ _ q ⟨rfl, rfl, hspares⟩
    have hspared : Spares a (.ofChain rest) p q := hspares.spares_right
    rw [if_pos rfl]
    refine (ih (i + 1) (hholds.congr fun b hb => hspared.page b (hbacking b hb))
      (Terms.Shows.of_chain hshows hspared) (by omega)).imp ?_
    rintro _ _ u ⟨rfl, hu⟩
    exact ⟨rfl, hspared.trans hu⟩

/-! ## Chains -/

/-- The frames of an area that was at the head of a chain go back. -/
theorem returnAll_behaves (hheads : Heads p h rest) (hshows : ∀ x ∈ rest, T.Shows p a.root x) :
    Behaves a T (Allocator.returnFrames h.area.handles h.area.pageCount 0)
      (.ofFrames h.frames ++ .ofChain rest) p fun _ e q =>
        e = .ofChain rest ∧ Spares a (.ofChain rest) p q :=
  returnFrames_behaves h.area.pageCount 0 hheads.holds (fun _ => hheads.backing) hshows
    (by rw [Nat.zero_add, hheads.count])

/-- The rest of a chain goes with the area at its head. Each area of the chain that is left takes
one more step. -/
theorem release_behaves (rest : List Holding) (n : Nat) {p : Pool} {h : Holding}
    (hheads : Heads p h rest) (hshows : ∀ x ∈ rest, T.Shows p a.root x) (hn : rest.length < n) :
    Behaves a T (a.release n h.area) (.ofFrames h.frames ++ .ofChain rest) p
      fun _ e _ => e = ∅ := by
  induction rest generalizing n h p with
  | nil =>
    obtain ⟨n, rfl⟩ := Nat.exists_eq_succ_of_ne_zero (Nat.ne_of_gt hn)
    refine Behaves.bind (returnAll_behaves hheads hshows) ?_
    rintro _ _ q ⟨rfl, -⟩
    rw [hheads.rests]
    exact Behaves.report fun _ _ => rfl
  | cons x rest ih =>
    obtain ⟨n, rfl⟩ := Nat.exists_eq_succ_of_ne_zero (Nat.ne_of_gt (Nat.zero_lt_of_lt hn))
    refine Behaves.bind (returnAll_behaves hheads hshows) ?_
    rintro _ _ q ⟨rfl, hq⟩
    rw [hheads.rests.1]
    refine Behaves.bind removeHead_behaves ?_
    rintro _ _ u ⟨rfl, hheads', hu, k, -, rfl⟩
    -- now the frames of the next area are loose, and the rest of the chain is a chain by itself
    have hshows' := (List.forall_mem_cons.1 (Terms.Shows.of_chain hshows hq)).2
    refine Behaves.bind (ih n hheads' (Terms.Shows.of_chain hshows' hu.spares_right) (Nat.lt_of_succ_lt_succ hn)) ?_
    rintro _ _ v rfl
    exact Behaves.report fun _ _ => rfl

/-- With the area at the head of a chain goes the whole chain, and all its frames go back. -/
theorem tearDown_behaves (hshows : ∀ x ∈ rest, T.Shows p a.root x) :
    Behaves a T (a.tearDown h.area.address) (.ofChain (h :: rest)) p
      fun answer e _ => answer = .ok () ∧ e = ∅ := by
  refine Behaves.bind removeHead_behaves ?_
  rintro _ _ q ⟨rfl, hheads, hspares, k, hk, rfl⟩
  have hshows' := Terms.Shows.of_chain hshows hspares.spares_right
  refine Behaves.bind (release_behaves rest _ hheads hshows' (Nat.lt_succ_of_le hk)) ?_
  rintro _ _ u rfl
  exact Behaves.pure ⟨rfl, rfl⟩

/-- The area at the head of a chain goes alone. Its frames stay in use, and the rest of the chain
is a chain by itself. -/
theorem detach_behaves :
    Behaves a T (a.detach h.area.address) (.ofChain (h :: rest)) p
      fun answer e _ => answer = .ok () ∧ e = .ofFrames h.frames ++ .ofChain rest := by
  refine Behaves.bind removeHead_behaves ?_
  rintro _ _ q ⟨rfl, -, -, k, -, rfl⟩
  exact Behaves.pure ⟨rfl, rfl⟩

/-- An area without frames and without an array leaves nothing behind. -/
theorem Estate.detached_eq_empty (hframes : h.frames = []) :
    Estate.ofFrames h.frames ++ .ofChain [] = ∅ := by
  rw [hframes]
  rfl

theorem unwind_behaves (hshows : ∀ x ∈ rest, T.Shows p a.root x) :
    Behaves a T (a.unwind h.area.address) (.ofChain (h :: rest)) p fun _ e _ => e = ∅ := by
  refine Behaves.bind (tearDown_behaves hshows) ?_
  rintro _ _ q ⟨rfl, rfl⟩
  exact Behaves.pure rfl

theorem undo_behaves (what : Undone) (hframes : h.frames = []) :
    Behaves a T (a.undo what h.area.address) (.ofChain [h]) p fun _ e _ => e = ∅ := by
  refine Behaves.bind detach_behaves ?_
  rintro _ _ q ⟨rfl, rfl⟩
  exact Behaves.pure (Estate.detached_eq_empty hframes)

end

end PagedMemory
