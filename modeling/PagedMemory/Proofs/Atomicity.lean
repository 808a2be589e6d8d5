import Mathlib.Tactic
import PagedMemory.Proofs.Ownership

/-!
# Requests that fail

A request that is refused leaves nothing behind but tables. Where it failed does not matter: it is
undone from the books, which say how far it had come.

* `Shared.Untouched`: what a failed request leaves as it was.
* `World.untouched`: the same books before and after, with what is on them left alone, mean that
  nothing was touched.
* `Setting.request_atomic`: this is so of every failed request in every state of a session.
-/

namespace PagedMemory

open Layout Tables

/-- The second state differs from the first at most by tables that map nothing: areas and their
handles, translations, the frames in use besides the tables, and the content of all frames that the
client or an area owns are the same. -/
structure Shared.Untouched (a : Allocator) (frames : List PageFrame) (s s' : Shared) : Prop where
  areas : s'.registry.areas = s.registry.areas
  /-- the handles of an area are all there, and are the same -/
  handles : ∀ area ∈ s.registry.areas, (area.ownFrames s.machine).length = area.pageCount ∧
    area.ownFrames s'.machine = area.ownFrames s.machine
  translations : ∀ x, a.whereIs s' x = a.whereIs s x
  taken : ∀ f, s'.machine.pool.isTaken f = true ↔
    s.machine.pool.isTaken f = true ∨ f ∈ Tables.all s'.machine.pool a.root
  client : ∀ f ∈ frames, s'.machine.pool.page f = s.machine.pool.page f
  contents : ∀ area ∈ s.registry.areas, ∀ f ∈ area.ownFrames s.machine,
    s'.machine.pool.page f = s.machine.pool.page f

section

variable {a : Allocator} {p q : Pool} {r s : Registry} {loose : List PageFrame}
  {chains : List (List Holding)} {chain : List Holding} {n : Nat}

/-- Registries of the same areas are the same, for the order of areas is fixed. -/
theorem Registry.Sound.areas_eq (hr : r.Sound) (hs : s.Sound) (h : r.areas.Perm s.areas) :
    r.areas = s.areas := by
  refine h.eq_of_pairwise (fun b c _ _ hbc hcb => ?_) hr.increasing hs.increasing
  exact absurd hcb (UInt64.lt_asymm hbc)

/-- A page of no area is not mapped. -/
theorem World.leafOn_eq_empty (hw : World a p r loose chains) (hn : n < 512 ^ 4)
    (hout : ¬ CoveredBy chains n) : leafOn p a.root n = .empty := by
  by_contra hne
  obtain ⟨area, harea, hcovers⟩ := hw.covered n hn hne
  exact hout ⟨area, hw.listed.mem_iff.1 harea, hcovers⟩

/-- Pages of areas are left alone, and no others are mapped but those of the new areas. -/
theorem World.leafOn_eq (hw : World a p r loose chains) (hw' : World a q s loose (chain :: chains))
    (hspares : Spares a ⟨loose, chains⟩ p q) (hn : n < 512 ^ 4)
    (hout : ∀ h ∈ chain, ¬ h.area.Covers n) : leafOn q a.root n = leafOn p a.root n := by
  by_cases hcovered : CoveredBy chains n
  · exact hspares.leaf n hn hcovered
  · have hcovered' : ¬ CoveredBy (chain :: chains) n := by
      rw [coveredBy_cons]
      rintro (⟨h, hh, hcovers⟩ | hold)
      · exact hout h hh hcovers
      · exact hcovered hold
    rw [hw.leafOn_eq_empty hn hcovered, hw'.leafOn_eq_empty hn hcovered']

/-- The frames in use are those that were, those of the new areas, and the tables. -/
theorem World.isTaken_iff (hw : World a p r loose chains) (hw' : World a q s loose (chain :: chains))
    (hspares : Spares a ⟨loose, chains⟩ p q) (f : PageFrame) :
    q.isTaken f = true ↔ p.isTaken f = true ∨ f ∈ chain.flatMap Holding.frames ∨
      f ∈ Tables.all q a.root := by
  rw [hw'.taken, owned_chain_perm.mem_iff, List.mem_append, hw.taken, mem_all_iff]
  constructor
  · rintro ((hnew | howned) | htable)
    · exact Or.inr (Or.inl hnew)
    · exact Or.inl (Or.inl howned)
    · exact Or.inr (Or.inr htable)
  · rintro ((howned | htable) | hnew | htable)
    · exact Or.inl (Or.inr howned)
    · exact Or.inr (hspares.isTable htable)
    · exact Or.inl (Or.inl hnew)
    · exact Or.inr htable

end

/-- Books that are the same as before. -/
theorem World.untouched {a : Allocator} {s s' : Shared} {loose : List PageFrame}
    {chains : List (List Holding)} (hw : World a s.machine.pool s.registry loose chains)
    (hw' : World a s'.machine.pool s'.registry loose chains)
    (hspares : Spares a ⟨loose, chains⟩ s.machine.pool s'.machine.pool) :
    s.Untouched a loose s' where
  areas := hw'.registry.areas_eq hw.registry (hw'.listed.trans hw.listed.symm)
  handles area harea := by
    obtain ⟨chain, hc, h, hh, rfl⟩ := hw.exists_holding harea
    rw [hw.ownFrames_eq hc hh, hw'.ownFrames_eq hc hh]
    exact ⟨((hw.chained chain hc).holds hh).1.symm, rfl⟩
  translations x := by
    rw [Allocator.whereIs_eq hw.tables, Allocator.whereIs_eq hw'.tables, target, target,
      hw.leafOn_eq (World.drop_nil.2 hw') hspares x.pageNumber_lt
        (List.forall_mem_nil _)]
  taken f := by
    rw [hw.isTaken_iff (World.drop_nil.2 hw') hspares f]
    exact or_congr_right (or_iff_right List.not_mem_nil)
  client f hf := hspares.page f (List.mem_append_left _ hf)
  contents area harea f hf := by
    refine hspares.page f (List.mem_append_right _ ?_)
    exact hw.flatMap_ownFrames.mem_iff.1 (List.mem_flatMap.2 ⟨area, harea, hf⟩)

namespace Setting

variable {s : Setting} {a : Allocator} {t : Session} {calls : List Call} {req : Request}

/-- In every state that is reached, every request is answered, and one that is refused leaves
nothing behind but tables. -/
theorem request_atomic (h : s.start = .ok (.ok (a, t))) (hproper : t.Proper a calls)
    (hfits : req.Fits) :
    ∃ u, t.run a calls = .ok u ∧ ∃ answer v, (req.job a).run u.shared = .ok answer v ∧
      ∀ e, answer = .error e → u.shared.Untouched a u.frames v := by
  obtain ⟨u, chains, hrun, hkept⟩ := run_kept h hproper
  obtain ⟨answer, v, hjob, hspares, -, hpost⟩ :=
    Request.job_answers (T := .strict) (s := u.shared) nofun hkept.world nofun hfits
  refine ⟨u, hrun, answer, v, hjob, ?_⟩
  rintro e rfl
  exact World.untouched hkept.world hpost hspares

/-- Only three frames are left when five pages are asked for. -/
theorem small_request_atomic : ∃ a t u e v, small.start = .ok (.ok (a, t)) ∧
    t.Proper a smallRun ∧ t.run a smallRun = .ok u ∧
    ((Request.allocate 20000 .kernel .pageKernel).job a).run u.shared = .ok (.error e) v ∧
    u.shared.Untouched a u.frames v := by
  have hopens : small.opens (fun a t => decide (t.Proper a smallRun) &&
      t.refuses a smallRun (.allocate 20000 .kernel .pageKernel)) = true := by decide +kernel
  obtain ⟨a, t, hstart, h⟩ := exists_of_opens hopens
  obtain ⟨hproper, hrefuses⟩ := Bool.and_eq_true_iff.1 h
  have hproper := of_decide_eq_true hproper
  obtain ⟨u, e, v, hrun, hjob⟩ := Session.exists_of_refuses hrefuses
  have hfits : (Request.allocate 20000 .kernel .pageKernel).Fits := trivial
  obtain ⟨u', hrun', answer, v', hjob', huntouched⟩ := request_atomic hstart hproper hfits
  obtain rfl : u = u' := Except.ok.inj (hrun.symm.trans hrun')
  obtain ⟨rfl, rfl⟩ := EStateM.Result.ok.inj (hjob.symm.trans hjob')
  exact ⟨a, t, u, e, v, hstart, hproper, hrun, hjob, huntouched e rfl⟩

end Setting

end PagedMemory
