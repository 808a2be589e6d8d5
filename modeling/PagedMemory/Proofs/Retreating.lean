import Mathlib.Tactic
import PagedMemory.Proofs.Demand
import PagedMemory.Proofs.Freeing

/-!
# What is left when chains go off the books

Routines that give back clear entries and return frames, and do nothing else to memory. What they
leave behind follows from what is left on the books: not the order in which things went, nor what
went together with what, can be told from it.

* `Tables.Pruned`: no table has come or gone, and nothing but tables was written.
* `Allocator.GivesBack.prunes`: all that a routine does that gives back is to prune the tree.
* `Shared.Retreats`: some chains have gone off the books, and these are left.
* `Shared.Meets`: two states that show the same areas and the same memory.
* `Shared.Retreats.meets`: where the same chains are left, memory is the same.
-/

namespace PagedMemory

open Layout Tables

/-! ## Trees from which only leaves go -/

namespace Tables

variable {p q u : Pool} {root f : PageFrame} {P : Nat → Prop}

/-- The tree has the tables that it had, and no other frames were written. Frames may have come
back. -/
structure Pruned (root : PageFrame) (p q : Pool) : Prop where
  base : q.base = p.base
  size : q.slots.size = p.slots.size
  budget : q.budget = p.budget
  table : ∀ n < 512 ^ 4, ∀ l, tableOn q root n l = tableOn p root n l
  page : ∀ f, ¬ IsTable p root f → q.page f = p.page f

namespace Pruned

theorem refl : Pruned root p p := ⟨rfl, rfl, rfl, fun _ _ _ => rfl, fun _ _ => rfl⟩

theorem isTable_iff (h : Pruned root p q) : IsTable q root f ↔ IsTable p root f :=
  isTable_congr h.table

theorem trans (h : Pruned root p q) (h' : Pruned root q u) : Pruned root p u where
  base := h'.base.trans h.base
  size := h'.size.trans h.size
  budget := h'.budget.trans h.budget
  table n hn l := (h'.table n hn l).trans (h.table n hn l)
  page f hf := (h'.page f (mt h.isTable_iff.1 hf)).trans (h.page f hf)

theorem formed (h : Pruned root p q) (hp : Formed p root) : Formed q root where
  within f hf := (hp.within f (h.isTable_iff.1 hf)).congr h.base h.size
  apart := hp.apart_congr h.table

theorem of_swept (h : Swept root P p q) : Pruned root p q :=
  ⟨h.base, h.size, h.budget, h.table, h.page⟩

/-- To mark a frame as free is to write nothing. -/
theorem of_marked {i : Nat} (hf : p.number? f = some i) (free : List Nat) :
    Pruned root p (p.marked i false free) where
  base := rfl
  size := Pool.marked_size
  budget := rfl
  table _ hn l := tableOn_eq_of_page (fun _ _ => Pool.page_marked hf) hn l
  page _ _ := Pool.page_marked hf

end Pruned

end Tables

/-! ## Sections that give back -/

section

variable {a : Allocator} {m : Machine} {s s' : Shared} {root : PageFrame} {α : Type}

theorem IfDone.onShared {x : MachineM α} {Q : α → Machine → Prop} (h : IfDone x s.machine Q) :
    IfDone (Shared.onMachine x) s fun v s' => Q v s'.machine ∧ s'.registry = s.registry := by
  obtain ⟨machine, registry⟩ := s
  rw [IfDone, Ends] at h ⊢
  rw [Shared.onMachine]
  cases hx : x machine with
  | ok v machine' =>
    rw [hx] at h
    exact ⟨h, rfl⟩
  | error => trivial

theorem Machine.returnFrame_prunes (f : PageFrame) (m : Machine) :
    IfDone (returnFrame f) m fun _ m' => Pruned root m.pool m'.pool := by
  have hback : IfDone (Pool.giveBack f) m.pool fun _ q => Pruned root m.pool q := by
    refine (Pool.giveBack_marks f m.pool).mono ?_ fun _ _ _ => trivial
    rintro _ _ ⟨i, free, hf, -, rfl⟩
    exact .of_marked hf free
  exact Ends.bind (IfDone.onPool hback) fun _ _ h => h

theorem Walk.clear_prunes (hs : Formed m.pool root) {r : Interval} {b i j : Nat} (hr : r.Pages b i j) :
    IfDone (clear root r) m fun _ m' => Pruned root m.pool m'.pool := by
  refine Ends.bind (IfDone.of_does (checkAligned_does hr.aligned)) ?_
  rintro _ u hu
  rw [← hu] at hs ⊢
  have hcleared : Runs Machine.noted u.front (clearTable .pml4 root r) (u.pool, u.notes) _
      fun _ _ => True := clearTable_runs .pml4 hs hr fun _ _ _ => rfl
  exact (hcleared u rfl rfl).mono (fun _ _ h => .of_swept h.2.swept) fun _ _ _ => trivial

namespace Allocator

theorem returnHandle_prunes (handles : HandleArray) (i : Nat) (m : Machine) :
    IfDone (returnHandle handles i) m fun _ m' => Pruned root m.pool m'.pool := by
  have hread : IfDone (handles.get? i) m fun _ m' => m'.pool = m.pool :=
    (handles.get?_asks i m rfl rfl).mono (fun _ _ h => (Prod.mk.inj h.2).1) fun _ _ _ => trivial
  refine Ends.bind hread ?_
  intro answer u hu
  rw [← hu]
  cases answer with
  | none => exact Ends.pure .refl
  | some f => exact Ends.bind (Machine.returnFrame_prunes f u) fun _ _ h => Ends.pure h

/-- There is memory for all tables, and areas do not leave the block of the window. -/
structure Holds (a : Allocator) (s : Shared) : Prop where
  formed : Formed s.machine.pool a.root
  within : ∀ area ∈ s.registry.areas, area.Within a.block

/-- What a section that gives back leaves of a state. -/
structure Prunes (a : Allocator) (s s' : Shared) : Prop where
  holds : a.Holds s'
  pruned : Pruned a.root s.machine.pool s'.machine.pool

theorem Holds.prunes (hs : a.Holds s) (hpruned : Pruned a.root s.machine.pool s'.machine.pool)
    (hareas : ∀ area ∈ s'.registry.areas, area ∈ s.registry.areas) : a.Prunes s s' :=
  ⟨⟨hpruned.formed hs.formed, fun area harea => hs.within area (hareas area harea)⟩, hpruned⟩

/-- A section that leaves the registry alone. -/
theorem Holds.onMachine (hs : a.Holds s) {x : MachineM α}
    (hx : IfDone x s.machine fun _ m' => Pruned a.root s.machine.pool m'.pool) :
    IfDone (Shared.onMachine x) s fun _ s' => a.Prunes s s' :=
  (IfDone.onShared hx).mono (fun _ _ h => hs.prunes h.1 fun _ harea => h.2 ▸ harea) fun _ _ h => h

theorem Holds.remove (hs : a.Holds s) (x : VirtAddr) :
    IfDone (Shared.remove a.root x) s fun _ s' => a.Prunes s s' := by
  refine Ends.bind_get ?_
  cases hget : s.registry.get? x with
  | none =>
    rw [Registry.remove, hget]
    exact Ends.pure (hs.prunes .refl fun _ harea => harea)
  | some area =>
    rw [Registry.remove, hget]
    have harea : area ∈ s.registry.areas := List.mem_of_find?_eq_some hget
    obtain ⟨stop, hstop, hpages⟩ := (hs.within area harea).mappedEnd
    refine Ends.bind_lift hstop (Ends.bind (IfDone.onShared
      (Q := fun _ m' => Pruned a.root s.machine.pool m'.pool) ?_) ?_)
    · let m : Machine := { s.machine with
        trace := s.machine.trace.push (.beforeUnmap ⟨area.address, stop⟩) }
      have hm : Formed m.pool a.root := hs.formed
      refine Ends.bind_modify (Ends.bind (Walk.clear_prunes hm hpages) ?_)
      intro _ u hu
      exact Ends.bind_modify hu
    · rintro _ u ⟨hpruned, hregistry⟩
      refine Ends.bind_modify (Ends.pure (hs.prunes hpruned fun b hb => ?_))
      exact (Registry.mem_erase.1 hb).1

theorem Retires.prunes {β : Type} {act : SharedM β} (h : a.Retires act) (hs : a.Holds s) :
    IfDone act s fun _ s' => a.Prunes s s' := by
  cases h with
  | frame handles i => exact hs.onMachine (returnHandle_prunes handles i _)
  | area x => exact hs.remove x
  | report r => exact hs.onMachine (Ends.bind_modify (f := fun _ => pure ()) (Ends.pure .refl))
  | refusal r e => exact hs.onMachine (Ends.bind_modify (Ends.throw trivial))

/-- Whatever is given back, the tree is pruned and nothing else is written. -/
theorem GivesBack.prunes {w : Job α} {v : α} (h : a.GivesBack w) (hs : a.Holds s)
    (hrun : w.run s = .ok v s') : a.Prunes s s' := by
  induction w generalizing s with
  | done u =>
    obtain ⟨rfl, rfl⟩ := EStateM.Result.ok.inj hrun
    exact ⟨hs, .refl⟩
  | step access act next ih =>
    have hact := h.1.prunes hs
    rw [IfDone, Ends] at hact
    rw [Routine.run] at hrun
    split at hact
    next b t hok =>
      rw [hok] at hrun
      have hrest := ih b (h.2 b) hact.holds hrun
      exact ⟨hrest.holds, hact.pruned.trans hrest.pruned⟩
    next e t herror =>
      rw [herror] at hrun
      cases hrun

end Allocator

theorem ReleaseCall.job_givesBack (call : ReleaseCall) (x : VirtAddr) : a.GivesBack (call.job a x) := by
  cases call with
  | free => exact Allocator.free_givesBack x
  | unmapFrames => exact Allocator.unmapFrames_givesBack x
  | unmapDevice => exact Allocator.unmapDevice_givesBack x

theorem Allocator.undo_givesBack (what : Undone) (x : VirtAddr) : a.GivesBack (a.undo what x) := by
  refine .bind (detach_givesBack x) fun answer => ?_
  cases answer with
  | error e => exact .report _
  | ok done => exact .pure _

end

/-! ## Books that get shorter -/

/-- Two states with the same areas, in which every frame holds the same, the same frames are in use,
and every address is translated to the same place. -/
structure Shared.Meets (a : Allocator) (s s' : Shared) : Prop where
  registry : s'.registry = s.registry
  base : s'.machine.pool.base = s.machine.pool.base
  size : s'.machine.pool.slots.size = s.machine.pool.slots.size
  page : ∀ f, s'.machine.pool.page f = s.machine.pool.page f
  taken : ∀ f, s'.machine.pool.isTaken f = s.machine.pool.isTaken f
  translations : ∀ x, a.whereIs s' x = a.whereIs s x

/-- From `s` to `s'` some was given back, and these chains are left on the books. -/
structure Shared.Retreats (a : Allocator) (loose : List PageFrame) (chains : List (List Holding))
    (s s' : Shared) : Prop where
  world : World a s'.machine.pool s'.registry loose chains
  spares : Spares a ⟨loose, chains⟩ s.machine.pool s'.machine.pool
  wanes : Wanes s s'
  pruned : Pruned a.root s.machine.pool s'.machine.pool
  front : s'.machine.front = s.machine.front

section

variable {a : Allocator} {p q : Pool} {r r' : Registry} {s s' t t' : Shared} {f : PageFrame}
  {loose : List PageFrame} {chains chains' all : List (List Holding)} {chain : List Holding}
  {lease : Lease} {l : Level} {n : Nat} {es : List Event}

theorem World.holds (hw : World a s.machine.pool s.registry loose chains) : a.Holds s :=
  ⟨hw.tables.formed, fun _ harea => hw.within harea⟩

/-- The books say which areas there are. -/
theorem World.registry_eq (hw : World a p r loose chains) (hw' : World a q r' loose chains')
    (hperm : chains.Perm chains') : r' = r := by
  have hareas := hw'.registry.areas_eq hw.registry
    (hw'.listed.trans ((hperm.flatten.map Holding.area).symm.trans hw.listed.symm))
  exact congrArg Registry.mk hareas

/-- Entries that lead to tables stay, and those that lead nowhere are empty. -/
theorem Tables.Sound.entryAt_upper (hs : Tables.Sound p a.root) (hfaded : Faded p q es)
    (hpruned : Pruned a.root p q) (hn : n < 512 ^ 4) (hl : l.isLeaf = false)
    (ht : tableOn p a.root n l = some f) : q.entryAt f (l.slot n) = p.entryAt f (l.slot n) := by
  rcases hfaded.entries f (l.slot n) with hsame | hempty
  · exact hsame
  cases hchild : (p.entryAt f (l.slot n)).child with
  | none => rw [hempty, Entry.eq_empty_of_child hchild]
  | malformed e => exact absurd hchild (hs.tidy n hn l f e hl ht)
  | table next =>
    obtain ⟨below, hbelow⟩ : ∃ below, l.next? = some below := by
      cases l <;> first | exact ⟨_, rfl⟩ | cases hl
    -- an empty entry would lead to no table
    have hlost := hpruned.table n hn below
    rw [tableOn_next hbelow, tableOn_next hbelow, hpruned.table n hn l, ht, Option.bind_some,
      Option.bind_some, behind, behind, hempty, Entry.table?, Entry.table?, hchild] at hlost
    cases hlost

namespace Shared.Retreats

theorem refl (hw : World a s.machine.pool s.registry loose chains) : s.Retreats a loose chains s :=
  ⟨hw, .refl, .refl s, .refl, rfl⟩

theorem perm (h : s.Retreats a loose chains t) (hperm : chains.Perm chains') :
    s.Retreats a loose chains' t where
  world := h.world.perm (.refl _) hperm
  spares := h.spares.mono (fun _ ⟨area, harea, hcovers⟩ =>
    ⟨area, (hperm.flatten.map Holding.area).mem_iff.2 harea, hcovers⟩) fun _ hf =>
      (owned_perm (.refl _) hperm).mem_iff.2 hf
  wanes := h.wanes
  pruned := h.pruned
  front := h.front

theorem isTaken_eq (h : s.Retreats a loose chains t) (h' : s.Retreats a loose chains t') (f : PageFrame) :
    t'.machine.pool.isTaken f = t.machine.pool.isTaken f := by
  refine Bool.eq_iff_iff.2 ?_
  rw [h.world.taken, h'.world.taken, h.pruned.isTable_iff, h'.pruned.isTable_iff]

theorem leafOn_eq (h : s.Retreats a loose chains t) (h' : s.Retreats a loose chains t') (hn : n < 512 ^ 4) :
    leafOn t'.machine.pool a.root n = leafOn t.machine.pool a.root n := by
  by_cases hcovered : CoveredBy chains n
  · rw [h.spares.leaf n hn hcovered, h'.spares.leaf n hn hcovered]
  · rw [h.world.leafOn_eq_empty hn hcovered, h'.world.leafOn_eq_empty hn hcovered]

/-- What is left in a frame follows from what is left on the books. -/
theorem page_eq (hs : Tables.Sound s.machine.pool a.root) (h : s.Retreats a loose chains t)
    (h' : s.Retreats a loose chains t') (f : PageFrame) :
    t'.machine.pool.page f = t.machine.pool.page f := by
  by_cases hf : IsTable s.machine.pool a.root f
  swap
  · rw [h.pruned.page f hf, h'.pruned.page f hf]
  obtain ⟨n, hn, l, hon⟩ := hf
  have hentry : ∀ i, t'.machine.pool.entryAt f i = t.machine.pool.entryAt f i := by
    intro i
    -- the entry stands for some page `k`, to which the table is on the way
    have hk := l.pageBehind_lt hn i
    have hon' : tableOn s.machine.pool a.root (l.pageBehind n i) l = some f :=
      (tableOn_congr (l.group_pageBehind n i)).trans hon
    rw [← l.slot_pageBehind n i]
    cases hl : l.isLeaf with
    | false =>
      obtain ⟨es, -, hfaded⟩ := h.wanes
      obtain ⟨es', -, hfaded'⟩ := h'.wanes
      exact (hs.entryAt_upper hfaded' h'.pruned hk hl hon').trans
        (hs.entryAt_upper hfaded h.pruned hk hl hon').symm
    | true =>
      obtain rfl : l = .pt := by cases l <;> first | rfl | cases hl
      rw [← Tables.leafOn_eq ((h.pruned.table _ hk .pt).trans hon'),
        ← Tables.leafOn_eq ((h'.pruned.table _ hk .pt).trans hon'), h.leafOn_eq h' hk]
  refine Vector.ext fun i hi => ?_
  exact congrArg Entry.bits (hentry ⟨i, hi⟩)

/-- Where the same chains are left, areas and memory are the same. -/
theorem meets (hs : Tables.Sound s.machine.pool a.root) (h : s.Retreats a loose chains t)
    (h' : s.Retreats a loose chains t') : t.Meets a t' where
  registry := h.world.registry_eq h'.world (.refl _)
  base := h'.pruned.base.trans h.pruned.base.symm
  size := h'.pruned.size.trans h.pruned.size.symm
  page := page_eq hs h h'
  taken := h.isTaken_eq h'
  translations x := by
    rw [Allocator.whereIs_eq h.world.tables, Allocator.whereIs_eq h'.world.tables, target, target,
      h.leafOn_eq h' x.pageNumber_lt]

end Shared.Retreats

/-! ## Releases -/

/-- What is given back at address 0 stays on the books. -/
def Lease.remains (lease : Lease) (chain : List Holding) : List (List Holding) :=
  if lease.1 = .got .free ∧ lease.2.val = 0 then [chain] else []

/-- The call that gives back what was leased. -/
def Lease.job (a : Allocator) (lease : Lease) : Job Unit := lease.1.release.job a lease.2

/-- What stands behind a lease goes off the books. -/
theorem Shared.Retreats.release (hleased : Leased lease chain) (h : s.Retreats a loose (chain :: chains) t) :
    ∃ t', (lease.job a).run t = .ok () t' ∧ s.Retreats a loose (lease.remains chain ++ chains) t' := by
  by_cases hnull : lease.1 = .got .free ∧ lease.2.val = 0
  · refine ⟨t, ?_, ?_⟩
    · obtain ⟨⟨title, x⟩, rfl⟩ : ∃ l : Lease, l = lease := ⟨_, rfl⟩
      obtain ⟨rfl, hx⟩ := hnull
      change (a.free x).run t = _
      rw [Allocator.free, hx]
      rfl
    · rw [Lease.remains, if_pos hnull]
      exact h
  · have hjob := hleased.release_behaves (a := a) (p := t.machine.pool) hnull fun y hy =>
      h.world.within (h.world.mem_areas List.mem_cons_self hy)
    have hbooks : Books a t.machine.pool t.registry (.ofChain chain ++ ⟨loose, chains⟩) :=
      books_ofChain.2 h.world
    have hruns : Runs Shared.noted t.machine.front (lease.job a).run (Shared.noted.shown t) _
        fun _ _ => False := hjob.runs_strict hbooks
    obtain ⟨_, t', hrun, hfront, _, hleft, hspares, rfl⟩ := hruns.exists_ok rfl rfl
    have hback := ReleaseCall.job_givesBack (a := a) lease.1.release lease.2
    have hsub : Spares a ⟨loose, chains⟩ s.machine.pool t.machine.pool :=
      h.spares.mono (fun n hn => coveredBy_cons.2 (Or.inr hn)) fun f hf => mem_owned_cons hf
    rw [Lease.remains, if_neg hnull]
    exact ⟨t', hrun, hleft, hsub.trans hspares, h.wanes.trans (hback.recedes.run hrun),
      h.pruned.trans (hback.prunes h.world.holds hrun).pruned, hfront.trans h.front⟩

end

end PagedMemory
