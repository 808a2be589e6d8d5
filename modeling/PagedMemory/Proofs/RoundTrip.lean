import Mathlib.Tactic
import PagedMemory.Proofs.Atomicity
import PagedMemory.Proofs.Isolation

/-!
# Allocating and giving back

What is allocated and given back at once leaves nothing behind but tables, unless it was got at
address 0. A window may begin there, but to give back address 0 is to give back nothing.

* `Hosting.Kept.untouched`: books that are the same before and after mean the same to the host.
* `Hosting.run_round_trip`: in every state that is reached, whatever is allocated is given back without
  a trace if and only if its address is not 0.
* `Hosting.lowest_stays`: in a window that begins at 0 the first area stays for good.
-/

namespace PagedMemory

open Layout Tables

variable {a : Allocator} {p : Pool} {r : Registry} {s s' : Shared} {loose frames : List PageFrame}
  {chains : List (List Holding)} {h : Holding} {rest : List Holding}

/-- Fewer frames are looked at. -/
theorem Shared.Untouched.mono (hs : s.Untouched a loose s') (hsub : ∀ f ∈ frames, f ∈ loose) :
    s.Untouched a frames s' where
  areas := hs.areas
  handles := hs.handles
  translations := hs.translations
  taken := hs.taken
  client f hf := hs.client f (hsub f hf)
  contents := hs.contents

/-- An area that has come on the books was not there before. -/
theorem World.areas_ne {q : Pool} {r' : Registry} (hw : World a p r loose chains)
    (hw' : World a q r' loose ((h :: rest) :: chains)) : r'.areas ≠ r.areas := by
  intro he
  have hlength := hw'.listed.length_eq
  rw [he, hw.listed.length_eq, areasOf_cons, List.length_append, List.length_map,
    List.length_cons] at hlength
  omega

namespace Hosting

variable {base : PageFrame} {count : Nat} {front : Front} {t : Hosting} {rolls : Nat → Roll}
  {deeds : List Deed} {k : Nat} {v : Tenant}

/-- To a tenant, the frames of no tenant are loose. -/
theorem Kept.mem_loose {f : PageFrame} (hkept : t.Kept rolls) (hv : t.tenant? k = some v)
    (hroll : (rolls k).Kept v.allocator t.pool v.registry (t.leases k) loose) (hf : f ∈ t.frames) :
    f ∈ loose :=
  hroll.mem_loose_iff.2 ⟨hkept.taken f hf, hkept.frames k v hv f hf⟩

/-- **Round trips**: whatever is allocated can be given back at once, and then nothing has happened
but that tables were added, if and only if it was not got at address 0. There, nothing is given back. -/
theorem run_round_trip (hpool : base.base.val.toNat + count * 4096 ≤ 2 ^ 52)
    (hproper : (create base count front).Proper deeds) (ht : (create base count front).run deeds = t)
    (hv : t.tenant? k = some v) (size : UInt64) (policy : FramePolicy) (prot : Entry) :
    ∃ answer s, (v.allocator.allocate size policy prot).run (t.shared v) = .ok answer s ∧
      ∀ x, answer = .ok x → ∃ s', (v.allocator.free x).run s = .ok () s' ∧
        ((t.shared v).Untouched v.allocator t.frames s' ↔ x.val ≠ 0) ∧ (x.val = 0 → s' = s) := by
  obtain ⟨rolls, hkept⟩ := kept_run hpool hproper ht
  obtain ⟨loose, hroll⟩ := hkept.tenant k v hv
  have hw : World v.allocator (t.shared v).machine.pool (t.shared v).registry loose (rolls k).chains :=
    hroll.world
  have hbooks : Books v.allocator (t.shared v).machine.pool (t.shared v).registry
      (∅ ++ ⟨loose, (rolls k).chains⟩) := hw
  obtain ⟨answer, s, hrun, _, hpasses, hpost⟩ :=
    (allocate_behaves (T := .strict) size policy prot).answers nofun hbooks nofun
  refine ⟨answer, s, hrun, ?_⟩
  rintro x rfl
  obtain ⟨h, tail, rfl, -, rfl, -, -⟩ := hpost
  have hw' := books_ofChain.1 hpasses.books
  have harea : h.area ∈ s.registry.areas := hw'.mem_areas List.mem_cons_self List.mem_cons_self
  by_cases hzero : h.area.address.val = 0
  · have hfree : (v.allocator.free h.area.address).run s = .ok () s := by
      rw [Allocator.free, hzero]
      rfl
    refine ⟨s, hfree, iff_of_false (fun huntouched => ?_) (fun hne => hne hzero), fun _ => rfl⟩
    exact hw.areas_ne hw' huntouched.areas
  · obtain ⟨_, s', hrun', _, hpasses', rfl⟩ := (free_behaves (T := .strict) (hw'.within harea) hzero
      fun _ _ _ hT => by cases hT).answers nofun hpasses.books nofun
    refine ⟨s', hrun', iff_of_true ?_ hzero, fun he => absurd he hzero⟩
    have huntouched := hw.untouched hpasses'.books (hpasses.spares.trans hpasses'.spares)
    exact huntouched.mono fun f hf => hkept.mem_loose hv hroll hf

/-- Next to an area that is the tenant's own. -/
theorem small_run_round_trip : ∃ t v x s s', small.Proper smallRun ∧ small.run smallRun = t ∧
    t.tenant? 0 = some v ∧ (v.allocator.allocateData 9000).run (t.shared v) = .ok (.ok x) s ∧
    (v.allocator.free x).run s = .ok () s' ∧ (t.shared v).Untouched v.allocator t.frames s' := by
  have hproper : small.Proper smallRun := by decide +kernel
  have hgets : (small.run smallRun).answers 0 (fun a => a.allocateData 9000)
      (fun _ answer _ => answer = .ok ⟨0x16000⟩) = true := by decide +kernel
  obtain ⟨t, ht⟩ : ∃ t, small.run smallRun = t := ⟨_, rfl⟩
  rw [ht] at hgets
  obtain ⟨v, answer, s, hv, hrun, hanswer⟩ := exists_of_answers hgets
  obtain rfl := of_decide_eq_true hanswer
  obtain ⟨answer', s₁, hrun', hback⟩ :=
    run_round_trip (by decide) hproper ht hv 9000 .kernelHigh .pageKernel
  obtain ⟨rfl, rfl⟩ := EStateM.Result.ok.inj (hrun.symm.trans hrun')
  obtain ⟨s', hfree, huntouched, -⟩ := hback ⟨0x16000⟩ rfl
  exact ⟨t, v, ⟨0x16000⟩, s, s', hproper, ht, hv, hrun, hfree, huntouched.2 (by decide)⟩

/-- A tenant whose window begins at address 0. -/
def lowest : Hosting := small.run [.found ⟨⟨⟨0⟩, ⟨0x10000⟩⟩, by decide⟩]

/-- One page is allocated, at address 0, and given back. The area is still there. -/
theorem lowest_stays : ∃ v s s', lowest.tenant? 0 = some v ∧
    (v.allocator.allocateData 4096).run (lowest.shared v) = .ok (.ok ⟨0⟩) s ∧
    (v.allocator.free ⟨0⟩).run s = .ok () s' ∧
    ¬ (lowest.shared v).Untouched v.allocator lowest.frames s' := by
  have hgets : lowest.answers 0 (fun a => a.allocateData 4096) (fun v answer s =>
      answer = .ok ⟨0⟩ ∧ v.registry.areas = [] ∧ s.registry.areas ≠ []) = true := by
    decide +kernel
  obtain ⟨v, answer, s, hv, hrun, hpost⟩ := exists_of_answers hgets
  obtain ⟨rfl, hnone, hsome⟩ := of_decide_eq_true hpost
  exact ⟨v, s, s, hv, hrun, rfl, fun huntouched => hsome (huntouched.areas.trans hnone)⟩

end Hosting

end PagedMemory
