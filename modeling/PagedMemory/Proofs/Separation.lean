import Mathlib.Tactic
import PagedMemory.Proofs.Isolation

/-!
# Areas do not meet in the page tables

The registry keeps areas apart as ranges of 64-bit addresses; the tables see 48 bits of an address. In
a window that does not leave its block of `2 ^ 48` addresses the two agree.

* `Shared.OnlyAt`: between two moments, pages of one area at most were mapped or unmapped.
* `Registry.Belongs`, `Act.Takes`: the areas that go with an address that is given back.
* `Act.Separate`: an act does not fault, each of its sections maps or unmaps pages of one area, and
  all areas that it does not take stay as they are, whenever one looks.
* `Hosting.run_separate`: this is so of requests, reservations and releases in every state that is
  reached.
* `Hosting.wide_not_separate`: in a window of `2 ^ 49` addresses two areas share a page of the tables.
-/

namespace PagedMemory

open Layout Tables

/-! ## One section -/

/-- From `s` to `s'`, no pages were mapped or unmapped but those of one area, the one at `y`. -/
structure Shared.OnlyAt (a : Allocator) (s s' : Shared) (y : VirtAddr) : Prop where
  /-- all other areas are translated as before, their guard pages included -/
  others : ∀ area ∈ s.registry.areas, area.address ≠ y → ∀ x, area.Contains x →
    a.whereIs s' x = a.whereIs s x
  /-- what was mapped of the area itself stays so unless the area is gone -/
  own : ∀ area ∈ s.registry.areas, area.address = y → ∀ x place, area.Contains x →
    a.whereIs s x = .ok (some place) →
    a.whereIs s' x = .ok (some place) ∨ s'.registry.get? y = none
  /-- no guard page has come to be mapped -/
  guards : ∀ area ∈ s.registry.areas, ∀ stop, area.mappedEnd = .ok stop → ∀ x : VirtAddr,
    stop.val ≤ x.val → x.val.toNat < area.stop → a.whereIs s' x = .ok none

section

variable {a : Allocator} {s s' : Shared} {p q : Pool} {r : Registry} {loose loose' : List PageFrame}
  {chains chains' : List (List Holding)} {area : Area} {x y : VirtAddr} {n : Nat}

theorem Registry.Sound.get?_eq_none (hr : r.Sound) (h : ∀ area ∈ r.areas, area.address ≠ y) :
    r.get? y = none := by
  cases hget : r.get? y with
  | none => rfl
  | some area =>
    obtain ⟨harea, haddress⟩ := hr.get?_eq_some_iff.1 hget
    exact absurd haddress (h area harea)

/-- What the tables say of one area at a time, translations say of addresses. -/
theorem World.onlyAt (hw : World a s.machine.pool s.registry loose chains)
    (hw' : World a s'.machine.pool s'.registry loose' chains')
    (hapart : Apart a s.machine.pool s.registry s'.machine.pool s'.registry) :
    ∃ y, s.OnlyAt a s' y := by
  obtain ⟨y, hleaf⟩ := hapart
  have hbefore : ∀ x, a.whereIs s x = .ok (target s.machine.pool a.root x) :=
    Allocator.whereIs_eq hw.tables
  have hafter : ∀ x, a.whereIs s' x = .ok (target s'.machine.pool a.root x) :=
    Allocator.whereIs_eq hw'.tables
  have hsame : ∀ {x}, leafOn s'.machine.pool a.root x.pageNumber =
      leafOn s.machine.pool a.root x.pageNumber → a.whereIs s' x = a.whereIs s x := by
    intro x hx
    rw [hbefore, hafter, target, target, hx]
  refine ⟨y, fun area harea hne x hx => hsame ?_, fun area harea hy x place hx hplace => ?_,
    fun area harea stop hend x hlow hhigh => ?_⟩
  · rcases hleaf x.pageNumber x.pageNumber_lt with heq | ⟨b, hb, hby, hcovers, -⟩
    · exact heq
    · -- the page is one of another area, and cannot be one of this
      have hba : area ≠ b := fun he => hne (he ▸ hby)
      exact absurd hcovers (hw.not_covers_span harea hb hba ((hw.within harea).pageNumber_mem hx))
  · rcases hleaf x.pageNumber x.pageNumber_lt with heq | ⟨b, hb, hby, hcovers, hempty | hgone⟩
    · exact Or.inl ((hsame heq).trans hplace)
    · rw [hbefore, target_eq_none hempty] at hplace
      cases hplace
    · exact Or.inr (hw'.registry.get?_eq_none hgone)
  · have hpage := (hw.within harea).pageNumber_guard hend hlow hhigh
    have hunmapped := hw.leafOn_guard harea
    rw [← hpage] at hunmapped
    rw [hafter, target_eq_none]
    rcases hleaf x.pageNumber x.pageNumber_lt with heq | ⟨b, hb, -, hcovers, -⟩
    · exact heq.trans hunmapped
    · by_cases hba : area = b
      · subst hba
        exact absurd (hpage ▸ hcovers.2) (Nat.lt_irrefl _)
      · exact absurd hcovers (hw.not_covers_span harea hb hba (by omega))

end

/-! ## What goes with an address -/

/-- What was got at `x` consists of the area there and of the areas that hold the handles of one that
belongs to it. -/
inductive Registry.Belongs (r : Registry) (x : VirtAddr) : VirtAddr → Prop
  | start : r.Belongs x x
  | handles {area : Area} {y : VirtAddr} (mem : area ∈ r.areas) (owner : r.Belongs x area.address)
      (base : area.handles.base? = some y) : r.Belongs x y

/-- Where the area of a lease starts. The address of device memory may lie inside its first page. -/
def Lease.start (lease : Lease) : VirtAddr :=
  if lease.1 = .got .unmapDevice then lease.2.pageBase else lease.2

namespace Act

/-- The areas that an act may take out of the registry, by their addresses. -/
def Takes (r : Registry) (y : VirtAddr) : Act → Prop
  | request _ => False
  | reserve _ _ => False
  | reserveIn _ _ _ => False
  | mapArea _ _ _ => False
  | release lease => r.Belongs lease.start y
  | read _ _ => False
  | write _ _ => False

/-- What a client may ask for that leaves the mapping to the allocator: requests for frames that
entries can point to, reservations in the allocator's window, and the release of what it has got. -/
def Regular (leases : List Lease) : Act → Prop
  | request req => req.Fits
  | reserve _ _ => True
  | reserveIn _ _ _ => False
  | mapArea _ _ _ => False
  | release lease => lease ∈ leases
  | read _ _ => False
  | write _ _ => False

/-- An act by which areas do not meet. -/
structure Separate (act : Act) (a : Allocator) (s : Shared) : Prop where
  /-- it does not fault: in particular, no page is mapped twice -/
  answered : ∃ answer s', (act.job a).run s = .ok answer s'
  /-- each section maps or unmaps pages of one area only -/
  sections : ∀ m m', (act.job a).Steps s m m' → ∃ y, m.OnlyAt a m' y
  /-- at no moment is a guard page mapped, or an address outside of all areas -/
  fenced : ∀ m, (act.job a).Visits s m → Tenant.Fenced ⟨a, m.registry⟩ m.machine
  /-- areas that are not given back are there all along, and are translated as before -/
  others : ∀ m, (act.job a).Visits s m → ∀ area ∈ s.registry.areas,
    ¬ act.Takes s.registry area.address →
    area ∈ m.registry.areas ∧ ∀ x, area.Contains x → a.whereIs m x = a.whereIs s x

end Act

section

variable {a : Allocator} {s : Shared} {p : Pool} {r : Registry} {roll : Roll} {leases : List Lease}
  {lease : Lease} {loose : List PageFrame} {own others : Estate} {chain rest : List Holding}
  {h : Holding} {act : Act} {x : VirtAddr}

/-- All areas of a chain belong to what the first of them belongs to. -/
theorem Chained.belongs (hchain : Chained p (h :: rest)) (hareas : ∀ y ∈ h :: rest, y.area ∈ r.areas)
    (hx : r.Belongs x h.area.address) : ∀ y ∈ h :: rest, r.Belongs x y.area.address := by
  induction rest generalizing h with
  | nil =>
    intro y hy
    obtain rfl := List.mem_singleton.1 hy
    exact hx
  | cons below rest ih =>
    obtain ⟨-, -, ⟨hbase, -⟩, hrest⟩ := hchain
    obtain ⟨harea, hareas⟩ := List.forall_mem_cons.1 hareas
    exact List.forall_mem_cons.2 ⟨hx, ih hrest hareas (.handles harea hx hbase)⟩

/-- The first area of the chain behind a lease. -/
theorem Leased.exists_head (hleased : Leased lease chain) :
    ∃ h rest, chain = h :: rest ∧ h.area.address = lease.start := by
  cases hleased with
  | got hgranted =>
    cases hgranted with
    | allocated kinds => exact ⟨_, _, rfl, rfl⟩
    | borrowed kind frames => exact ⟨_, _, rfl, rfl⟩
    | device start kind frames => exact ⟨_, _, rfl, start⟩
  | reserved frames => exact ⟨_, _, rfl, rfl⟩

/-- What a routine does next to areas that are not its own is done apart from them. -/
theorem Behaves.separate {Q : Option Lease → Estate → Pool → Prop} {I : Estate → Pool → Prop}
    (h : Behaves a .strict (act.job a) own s.machine.pool Q I)
    (hbooks : Books a s.machine.pool s.registry (own ++ others))
    (hothers : ∀ area ∈ s.registry.areas, ¬ act.Takes s.registry area.address →
      area ∈ areasOf others.chains) : act.Separate a s where
  answered := by
    obtain ⟨answer, s', hrun, -⟩ := h.answers nofun hbooks nofun
    exact ⟨answer, s', hrun⟩
  sections m m' hm := by
    obtain ⟨before, mine, hbefore, hsection⟩ := h.steps nofun hbooks nofun hm
    exact World.onlyAt hbefore hsection.books (hsection.apart nofun)
  fenced m hm := by
    obtain ⟨mine, hpasses⟩ := h.visits hbooks nofun hm
    exact World.fenced (v := ⟨a, m.registry⟩) hpasses.books
  others m hm area harea hnot := by
    obtain ⟨mine, hpasses⟩ := h.visits hbooks nofun hm
    have hmine := hothers area harea hnot
    have hstill : area ∈ m.registry.areas :=
      (World.listed hpasses.books).mem_iff.2 (by
        rw [Estate.chains_append, areasOf_append]
        exact List.mem_append_right _ hmine)
    refine ⟨hstill, fun x hx => ?_⟩
    have hsame := World.target_eq hbooks hpasses.books harea hstill
      (fun n hn hcovers => hpasses.spares.leaf n hn ⟨area, hmine, hcovers⟩) hx
    exact (Allocator.whereIs_eq (World.tables hpasses.books) x).trans
      ((congrArg Except.ok hsame).trans (Allocator.whereIs_eq (World.tables hbooks) x).symm)

/-- Regular acts are done apart from all areas that they do not take. -/
theorem Roll.Kept.separate (hkept : roll.Kept a s.machine.pool s.registry leases loose)
    (hregular : act.Regular leases) : act.Separate a s := by
  have hbooks : Books a s.machine.pool s.registry (∅ ++ ⟨loose, roll.chains⟩) := hkept.world
  have hall : ∀ area ∈ s.registry.areas, area ∈ areasOf roll.chains := fun area harea =>
    hkept.world.listed.mem_iff.1 harea
  cases act with
  | request req =>
    have hjob : Behaves a .strict ((Act.request req).job a) ∅ s.machine.pool fun _ _ _ => True :=
      Behaves.bind (Request.job_behaves (Or.inr hregular)) fun answer _ _ _ => by
        cases answer <;> exact Behaves.pure trivial
    exact hjob.separate hbooks fun area harea _ => hall area harea
  | reserve size kind =>
    have hjob : Behaves a .strict ((Act.reserve size kind).job a) ∅ s.machine.pool
        fun _ _ _ => True :=
      Behaves.bind (reserveIn_behaves World.window (Or.inr a.window.start_lt_stop)) fun _ _ _ _ =>
        Behaves.pure trivial
    exact hjob.separate hbooks fun area harea _ => hall area harea
  | release lease =>
    by_cases hnull : lease.1 = .got .free ∧ lease.2.val = 0
    · have hjob : Behaves a .strict ((Act.release lease).job a) ∅ s.machine.pool
          fun _ _ _ => True := by
        rw [Act.release_null hnull]
        exact Behaves.pure trivial
      exact hjob.separate hbooks fun area harea _ => hall area harea
    · obtain ⟨chain, rest, -, -, hmem, hbooks⟩ := hkept.exists_chain hregular
      have hchain : chain ∈ roll.chains := List.mem_append_left _ (List.mem_map_of_mem hmem)
      have hareas : ∀ y ∈ chain, y.area ∈ s.registry.areas := fun y hy =>
        hkept.world.mem_areas hchain hy
      have hjob : Behaves a .strict ((Act.release lease).job a) (.ofChain chain) s.machine.pool
          fun _ _ _ => True :=
        Behaves.bind ((hkept.leased _ hmem).release_behaves hnull fun y hy =>
          hkept.world.within (hareas y hy)) fun _ _ _ _ => Behaves.pure trivial
      refine hjob.separate hbooks fun area harea hnot => ?_
      have hlisted := World.listed (books_ofChain.1 hbooks)
      rw [areasOf_cons] at hlisted
      refine (List.mem_append.1 (hlisted.mem_iff.1 harea)).resolve_left fun hin => hnot ?_
      obtain ⟨y, hy, rfl⟩ := List.mem_map.1 hin
      obtain ⟨h, tail, rfl, hstart⟩ := (hkept.leased _ hmem).exists_head
      exact (hkept.world.chained _ hchain).belongs hareas (hstart ▸ .start) y hy
  | reserveIn _ _ _ => exact hregular.elim
  | mapArea _ _ _ => exact hregular.elim
  | read _ _ => exact hregular.elim
  | write _ _ => exact hregular.elim

end

namespace Hosting

variable {base : PageFrame} {count : Nat} {front : Front} {t : Hosting} {deeds : List Deed} {k : Nat}
  {v : Tenant} {act : Act}

/-- **Separation**: whatever has gone on before, no regular act of a tenant faults, and none touches
areas that it does not take, or a guard page. -/
theorem run_separate (hpool : base.base.val.toNat + count * 4096 ≤ 2 ^ 52)
    (hproper : (create base count front).Proper deeds) (ht : (create base count front).run deeds = t)
    (hv : t.tenant? k = some v) (hregular : act.Regular (t.leases k)) :
    act.Separate v.allocator (t.shared v) := by
  obtain ⟨rolls, hkept⟩ := kept_run hpool hproper ht
  obtain ⟨loose, hroll⟩ := hkept.tenant k v hv
  exact hroll.separate (s := t.shared v) hregular

/-- Memory is given back that lies between an area that was given back before and free addresses. -/
theorem small_run_separate : ∃ t v, small.Proper smallRun ∧ small.run smallRun = t ∧
    t.tenant? 0 = some v ∧ (Act.release (.got .free, ⟨0x13000⟩)).Regular (t.leases 0) ∧
    (Act.release (.got .free, ⟨0x13000⟩)).Separate v.allocator (t.shared v) := by
  have hproper : small.Proper smallRun := by decide +kernel
  have htenant : ((small.run smallRun).tenant? 0).isSome = true := by decide +kernel
  have hlease : (Title.got .free, (⟨0x13000⟩ : VirtAddr)) ∈ (small.run smallRun).leases 0 := by
    decide +kernel
  obtain ⟨t, ht⟩ : ∃ t, small.run smallRun = t := ⟨_, rfl⟩
  rw [ht] at htenant hlease
  obtain ⟨v, hv⟩ := Option.isSome_iff_exists.1 htenant
  exact ⟨t, v, hproper, ht, hv, hlease, run_separate (by decide) hproper ht hv hlease⟩

/-- A tenant whose window has `2 ^ 49` addresses. It has some memory, and has reserved all that is left
of the first block. -/
def wide : Hosting := small.run
  [.found ⟨⟨⟨0x1000⟩, ⟨0x2000000000000⟩⟩, by decide⟩,
    .act 0 (.request (.allocate 4096 .kernelHigh .pageKernel)),
    .act 0 (.reserve 0xFFFFFFFFD000 .borrowed)]

/-- In the second block, memory is mapped over that of the first. An area that was only reserved there
takes it away when it is given back. -/
theorem wide_not_separate :
    (∃ v s, wide.tenant? 0 = some v ∧
      (v.allocator.allocateData 4096).run (wide.shared v) = .error (.livePage ⟨0x1000000001000⟩) s) ∧
    ∃ t v s, wide.step (.act 0 (.reserve 4096 .borrowed)) = t ∧ t.tenant? 0 = some v ∧
      v.allocator.whereIs (t.shared v) ⟨0x1000⟩ = .ok (some ⟨0x101000⟩) ∧
      (v.allocator.unmapFrames ⟨0x1000000001000⟩).run (t.shared v) = .ok () s ∧
      (s.registry.get? ⟨0x1000⟩).isSome ∧ v.allocator.whereIs s ⟨0x1000⟩ = .ok none := by
  have hfaults : wide.faults 0 (fun a => a.allocateData 4096)
      (fun _ e _ => e = .livePage ⟨0x1000000001000⟩) = true := by decide +kernel
  obtain ⟨w, e, u, hw, hfault, hcause⟩ := exists_of_faults hfaults
  obtain rfl := of_decide_eq_true hcause
  refine ⟨⟨w, u, hw, hfault⟩, ?_⟩
  obtain ⟨t, ht⟩ : ∃ t, wide.step (.act 0 (.reserve 4096 .borrowed)) = t := ⟨_, rfl⟩
  have hgone : t.answers 0 (fun a => a.unmapFrames ⟨0x1000000001000⟩) (fun v _ s =>
      v.allocator.whereIs (t.shared v) ⟨0x1000⟩ = .ok (some ⟨0x101000⟩) ∧
        (s.registry.get? ⟨0x1000⟩).isSome ∧ v.allocator.whereIs s ⟨0x1000⟩ = .ok none) = true := by
    rw [← ht]
    decide +kernel
  obtain ⟨v, ⟨⟩, s, hv, hrun, hpost⟩ := exists_of_answers hgone
  obtain ⟨hmapped, hstill, hunmapped⟩ := of_decide_eq_true hpost
  exact ⟨t, v, s, ht, hv, hmapped, hrun, hstill, hunmapped⟩

end Hosting

end PagedMemory
