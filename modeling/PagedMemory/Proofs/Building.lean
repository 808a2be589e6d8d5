import Mathlib.Tactic
import PagedMemory.Proofs.RoundTrip

/-!
# What allocations build

An allocation that succeeds has built an area for the client, and up to two more in which the handles
of its frames lie. There is nothing else that is new but tables, and nothing that was there is changed.

* `Shared.Gains`: one state has some areas more than another, with all that belongs to them.
* `Shared.Provides`: an area provides a client with pages, and its handles lie in these other areas.
* `World.gains`, `World.provides`: what a chain of settled areas that comes on the books means.
* `Hosting.run_builds`: in every state that is reached, what is allocated has just been built; too many
  pages are refused at once, and others are not as long as all is given that is asked for.
-/

namespace PagedMemory

open Layout Tables
open Traced (events)

/-- The second state has the areas `fresh` more than the first, with frames that were free and with
pages that were not mapped. Besides these there are new tables at most. -/
structure Shared.Gains (a : Allocator) (fresh : List Area) (s s' : Shared) : Prop where
  areas : s'.registry.areas.Perm (fresh ++ s.registry.areas)
  /-- older areas still own the same frames -/
  handles : ∀ area ∈ s.registry.areas, area.ownFrames s'.machine = area.ownFrames s.machine
  /-- no frame is owned twice, and none is a table -/
  nodup : (fresh.flatMap (·.ownFrames s'.machine) ++ Tables.all s'.machine.pool a.root).Nodup
  stays : ∀ f, s.machine.pool.isTaken f = true → s'.machine.pool.isTaken f = true
  /-- the frames that are newly in use are those of the new areas, and the new tables -/
  taken : ∀ f, s'.machine.pool.isTaken f = true ∧ s.machine.pool.isTaken f = false ↔
    f ∈ fresh.flatMap (·.ownFrames s'.machine) ∨
      f ∈ Tables.all s'.machine.pool a.root ∧ f ∉ Tables.all s.machine.pool a.root
  /-- what was in use holds what it held, but for the tables -/
  contents : ∀ f, s.machine.pool.isTaken f = true → f ∉ Tables.all s.machine.pool a.root →
    s'.machine.pool.page f = s.machine.pool.page f
  /-- where the new areas lie, nothing was mapped -/
  vacant : ∀ area ∈ fresh, ∀ n, area.Covers n → leafOn s.machine.pool a.root n = .empty
  /-- and nowhere else is anything mapped that was not, or mapped in another way -/
  leaves : ∀ n < 512 ^ 4, (∀ area ∈ fresh, ¬ area.Covers n) →
    leafOn s'.machine.pool a.root n = leafOn s.machine.pool a.root n
  translations : ∀ x, a.whereIs s x ≠ .ok none → a.whereIs s' x = a.whereIs s x

/-- At `x` lies an area of `n` pages for a client. The areas `arrays` hold the handles of its frames:
the first of them those of `area`, each next one those of the one before. -/
structure Shared.Provides (a : Allocator) (n : Nat) (prot : Entry) (x : VirtAddr) (area : Area)
    (arrays : List Area) (s : Shared) : Prop where
  address : area.address = x
  pages : area.pageCount = n
  nested : arrays.map (·.pageCount) =
    if n ≤ 512 then [] else if n ≤ 512 ^ 2 then [(n + 511) / 512]
    else [(n + 511) / 512, ((n + 511) / 512 + 511) / 512]
  linked : (area :: arrays).map (·.handles.base?) = arrays.map (some ·.address) ++ [none]
  /-- an area has a frame for each of its pages but the guard page -/
  whole : ∀ b ∈ area :: arrays, b.kind = .allocated ∧ b.size.toNat = (b.pageCount + 1) * 4096 ∧
    (b.ownFrames s.machine).length = b.pageCount
  /-- its pages are mapped to its frames, in order -/
  mapped : ∀ b ∈ area :: arrays, ∀ (i : Nat) (f : PageFrame),
    (b.ownFrames s.machine)[i]? = some f → ∀ y : VirtAddr,
      b.address.val.toNat + i * 4096 ≤ y.val.toNat →
      y.val.toNat < b.address.val.toNat + (i + 1) * 4096 → a.whereIs s y = .ok (some (f.byteFor y))
  /-- those of the client are protected as the client wishes -/
  leaf : ∀ (i : Nat) (f : PageFrame), (area.ownFrames s.machine)[i]? = some f →
    Entry.leaf f prot = .ok (leafOn s.machine.pool a.root (area.firstPage + i))

section

variable {a : Allocator} {p q : Pool} {r : Registry} {s s' : Shared} {loose : List PageFrame}
  {chains : List (List Holding)} {chain tail : List Holding} {h : Holding} {n : Nat} {f : PageFrame}

/-! ## A new chain -/

/-- No page of a new area is one of those that are on the books already. -/
theorem World.not_coveredBy (hw : World a p r loose (chain :: chains)) (hh : h ∈ chain)
    (hn : h.area.Covers n) : ¬ CoveredBy chains n := by
  rintro ⟨area, harea, hcovers⟩
  obtain ⟨before, after, hchain⟩ := List.append_of_mem (List.mem_map_of_mem (f := Holding.area) hh)
  have hlisted : r.areas.Perm (h.area :: (before ++ after ++ areasOf chains)) := by
    refine hw.listed.trans ?_
    rw [areasOf_cons, hchain]
    exact List.perm_middle.append_right _
  exact hw.not_covers_of_perm hlisted ⟨area, List.mem_append_right _ harea, hcovers⟩ hn

theorem World.nodup_new (hw : World a p r loose (chain :: chains)) :
    (chain.flatMap Holding.frames ++ owned loose chains).Nodup :=
  owned_chain_perm.nodup_iff.1 hw.nodup

/-- The frames of a new chain are not tables. -/
theorem World.nodup_append_all (hw : World a p r loose (chain :: chains)) :
    (chain.flatMap Holding.frames ++ Tables.all p a.root).Nodup := by
  refine List.nodup_append'.2 ⟨(List.nodup_append'.1 hw.nodup_new).1, hw.tables.nodup_all, ?_⟩
  intro f hf htable
  exact hw.apart f (owned_chain_perm.mem_iff.2 (List.mem_append_left _ hf)) (mem_all_iff.1 htable)

/-- What is newly in use are the frames of the new chain, and new tables. -/
theorem World.newly_taken (hw : World a p r loose chains) {r' : Registry}
    (hw' : World a q r' loose (chain :: chains)) (hspares : Spares a ⟨loose, chains⟩ p q) :
    q.isTaken f = true ∧ p.isTaken f = false ↔
      f ∈ chain.flatMap Holding.frames ∨ f ∈ Tables.all q a.root ∧ f ∉ Tables.all p a.root := by
  have htaken := hw.taken f
  rw [← mem_all_iff] at htaken
  constructor
  · rintro ⟨hafter, hbefore⟩
    have hnot : ¬ p.isTaken f = true := Bool.not_eq_true _ ▸ hbefore
    rcases (hw.isTaken_iff hw' hspares f).1 hafter with h | hnew | htable
    · exact absurd h hnot
    · exact Or.inl hnew
    · exact Or.inr ⟨htable, fun h => hnot (htaken.2 (Or.inr h))⟩
  · intro h
    refine ⟨(hw.isTaken_iff hw' hspares f).2 (Or.inr (h.imp_right And.left)), ?_⟩
    rw [← Bool.not_eq_true, htaken]
    rintro (howned | htable)
    · -- it was owned by others, and it still is
      rcases h with hnew | ⟨htable, -⟩
      · exact (List.nodup_append'.1 hw'.nodup_new).2.2 hnew howned
      · refine hw'.apart f (owned_chain_perm.mem_iff.2 ?_) (mem_all_iff.1 htable)
        exact List.mem_append_right _ howned
    · rcases h with hnew | ⟨-, hnot⟩
      · exact (List.nodup_append'.1 hw'.nodup_append_all).2.2 hnew
          (mem_all_iff.2 (hspares.isTable (mem_all_iff.1 htable)))
      · exact hnot htable

/-- A chain that comes on the books brings its areas, and changes nothing else but tables. -/
theorem World.gains (hw : World a s.machine.pool s.registry loose chains)
    (hw' : World a s'.machine.pool s'.registry loose (chain :: chains))
    (hspares : Spares a ⟨loose, chains⟩ s.machine.pool s'.machine.pool) :
    s.Gains a (chain.map Holding.area) s' := by
  have hframes : (chain.map Holding.area).flatMap (·.ownFrames s'.machine) =
      chain.flatMap Holding.frames := by
    rw [List.flatMap_map]
    exact List.flatMap_congr fun h hh => hw'.ownFrames_eq List.mem_cons_self hh
  -- all that is mapped is on the books, and a page of a new area was not
  have hvacant : ∀ h ∈ chain, ∀ n, h.area.Covers n → leafOn s.machine.pool a.root n = .empty :=
    fun h hh n hn => hw.leafOn_eq_empty ((hw'.within (hw'.mem_areas List.mem_cons_self hh)).covers_lt hn)
      (hw'.not_coveredBy hh hn)
  have hleaves : ∀ n < 512 ^ 4, (∀ h ∈ chain, ¬ h.area.Covers n) →
      leafOn s'.machine.pool a.root n = leafOn s.machine.pool a.root n :=
    fun n hn hout => hw.leafOn_eq hw' hspares hn hout
  exact {
    areas := by
      refine hw'.listed.trans ?_
      rw [areasOf_cons]
      exact hw.listed.symm.append_left _
    handles := fun area harea => by
      obtain ⟨c, hc, h, hh, rfl⟩ := hw.exists_holding harea
      rw [hw.ownFrames_eq hc hh, hw'.ownFrames_eq (List.mem_cons_of_mem _ hc) hh]
    nodup := by
      rw [hframes]
      exact hw'.nodup_append_all
    stays := fun f hf => (hw.isTaken_iff hw' hspares f).2 (Or.inl hf)
    taken := fun f => by
      rw [hframes]
      exact hw.newly_taken hw' hspares
    contents := fun f hf hnot => hspares.page f
      (((hw.taken f).1 hf).resolve_right fun h => hnot (mem_all_iff.2 h))
    vacant := List.forall_mem_map.2 hvacant
    leaves := fun n hn hout => hleaves n hn fun h hh => hout h.area (List.mem_map_of_mem hh)
    translations := fun x hx => by
      rw [Allocator.whereIs_eq hw.tables] at hx
      rw [Allocator.whereIs_eq hw.tables, Allocator.whereIs_eq hw'.tables, target, target,
        hleaves _ x.pageNumber_lt fun h hh hcovers => ?_]
      exact hx (congrArg Except.ok (target_eq_none (hvacant h hh _ hcovers))) }

/-! ## What the areas are for -/

theorem HandleArray.nesting_maxNesting : HandleArray.nesting maxNesting n =
    if n ≤ 512 then [] else if n ≤ 512 ^ 2 then [(n + 511) / 512]
    else [(n + 511) / 512, ((n + 511) / 512 + 511) / 512] := by
  have hroom : (n + 511) / 512 ≤ 512 ↔ n ≤ 512 ^ 2 := by omega
  simp only [HandleArray.nesting, hroom]
  split
  · rfl
  · split <;> rfl

/-- The handles of an area lie in the next area of its chain. -/
theorem Chained.linked (hchain : Chained p (h :: tail)) :
    (h :: tail).map (·.area.handles.base?) = tail.map (some ·.area.address) ++ [none] := by
  induction tail generalizing h with
  | nil =>
    obtain ⟨-, -, hrests, -⟩ := hchain
    exact congrArg (· :: []) hrests
  | cons y rest ih =>
    obtain ⟨-, -, hrests, hrest⟩ := hchain
    rw [List.map_cons, ih hrest, hrests.1]
    rfl

/-- What has been allocated, told without the books. -/
theorem World.provides {x : VirtAddr} {prot : Entry}
    (hw : World a s.machine.pool s.registry loose ((h :: tail) :: chains))
    (hbuilt : Built a n prot x h tail s.machine.pool)
    (hnesting : tail.map (·.frames.length) = HandleArray.nesting maxNesting n) :
    s.Provides a n prot x h.area (tail.map Holding.area) := by
  have hchain := hw.chained (h :: tail) List.mem_cons_self
  have hframes : ∀ y ∈ h :: tail, y.area.ownFrames s.machine = y.frames := fun y hy =>
    hw.ownFrames_eq List.mem_cons_self hy
  have hcount : ∀ y ∈ h :: tail, y.area.pageCount = y.frames.length := fun y hy =>
    (hchain.holds hy).1
  have hwithin : ∀ y ∈ h :: tail, y.area.Within a.block := fun y hy =>
    hw.within (hw.mem_areas List.mem_cons_self hy)
  rw [HandleArray.nesting_maxNesting] at hnesting
  exact {
    address := hbuilt.address
    pages := (hcount h List.mem_cons_self).trans hbuilt.count
    nested := by
      rw [← hnesting, List.map_map]
      exact List.map_congr_left fun y hy => hcount y (List.mem_cons_of_mem h hy)
    linked := by
      rw [← List.map_cons, List.map_map, List.map_map]
      exact hchain.linked
    whole := by
      rw [← List.map_cons]
      refine List.forall_mem_map.2 fun y hy => ?_
      have hsettled := hbuilt.settled y hy
      rw [hframes y hy, hcount y hy, (hwithin y hy).size_eq, hsettled.backed.count]
      exact ⟨hsettled.kind, rfl, rfl⟩
    mapped := by
      rw [← List.map_cons]
      refine List.forall_mem_map.2 fun y hy i f hf z hlow hhigh => ?_
      rw [hframes y hy] at hf
      exact (hbuilt.settled y hy).backed.whereIs hw.tables (hwithin y hy) hf hlow hhigh
    leaf := fun i f hf => by
      rw [hframes h List.mem_cons_self] at hf
      obtain ⟨hnumbered, hleaf⟩ := hbuilt.leaf i f hf
      rw [hleaf, Entry.leaf_eq hnumbered] }

end

namespace Hosting

variable {base : PageFrame} {count : Nat} {front : Front} {t : Hosting} {deeds : List Deed} {k : Nat}
  {v : Tenant}

/-- **Allocation**: every request is answered, whatever the size. An answer that is an address means
that just now an area was built there for the client, and the areas for its handles, and nothing else.
More than `512 ^ 3` pages are refused before any frame is asked for. Others, if as many frames are said
to be there, are only refused when something was asked for in vain. -/
theorem run_builds (hpool : base.base.val.toNat + count * 4096 ≤ 2 ^ 52)
    (hproper : (create base count front).Proper deeds) (ht : (create base count front).run deeds = t)
    (hv : t.tenant? k = some v) (size : UInt64) (policy : FramePolicy) (prot : Entry) :
    ∃ answer s es, (v.allocator.allocate size policy prot).run (t.shared v) = .ok answer s ∧
      events s = events (t.shared v) ++ es ∧
      (∀ x, answer = .ok x → ∃ area arrays, (t.shared v).Gains v.allocator (area :: arrays) s ∧
        s.Provides v.allocator (pagesFor size) prot x area arrays) ∧
      (512 ^ 3 < pagesFor size →
        (∃ e, answer = .error e) ∧ ∀ policy, .requested policy ∉ es) ∧
      (0 < pagesFor size → pagesFor size ≤ 512 ^ 3 → pagesFor size ≤ t.host.machine.stated.toNat →
        ¬ Wanting es → ∃ x, answer = .ok x) := by
  obtain ⟨rolls, hkept⟩ := kept_run hpool hproper ht
  obtain ⟨loose, hroll⟩ := hkept.tenant k v hv
  have hw : World v.allocator (t.shared v).machine.pool (t.shared v).registry loose (rolls k).chains :=
    hroll.world
  have hbooks : Books v.allocator (t.shared v).machine.pool (t.shared v).registry
      (∅ ++ ⟨loose, (rolls k).chains⟩) := hw
  obtain ⟨answer, s, es, hrun, hes, mine, hpasses, -, hpost⟩ :=
    (allocate_recounts (T := .strict) size policy prot).answers nofun hbooks nofun
  refine ⟨answer, s, es, hrun, hes, ?_, ?_, ?_⟩
  · rintro x rfl
    obtain ⟨h, tail, rfl, hbuilt, -, hnesting⟩ := hpost
    have hw' := books_ofChain.1 hpasses.books
    exact ⟨h.area, tail.map Holding.area, hw.gains hw' hpasses.spares, hw'.provides hbuilt hnesting⟩
  · -- what is granted had room for its handles
    intro hmany
    cases answer with
    | error e => exact ⟨⟨e, rfl⟩, (hpost.2.silent hmany).not_mem⟩
    | ok x =>
      obtain ⟨-, -, -, -, hle, -⟩ := hpost
      exact absurd hle (Nat.not_le.2 hmany)
  · -- a refusal has one reason at least, and all but one are excluded
    intro hpos hle hstated hgranted
    cases answer with
    | error e =>
      refine absurd (hpost.2.wanting hpos hle ?_) hgranted
      rintro _ rfl
      exact hstated
    | ok x => exact ⟨x, rfl⟩

/-- Three pages, whose handles are kept beside the area. -/
theorem small_run_builds : ∃ t v s es area, small.Proper smallRun ∧ small.run smallRun = t ∧
    t.tenant? 0 = some v ∧
    (v.allocator.allocate 9000 .kernelHigh .pageKernel).run (t.shared v) = .ok (.ok ⟨0x16000⟩) s ∧
    events s = events (t.shared v) ++ es ∧ (t.shared v).Gains v.allocator [area] s ∧
    s.Provides v.allocator 3 .pageKernel ⟨0x16000⟩ area [] := by
  have hproper : small.Proper smallRun := by decide +kernel
  have hgets : (small.run smallRun).answers 0 (fun a => a.allocateData 9000)
      (fun _ answer _ => answer = .ok ⟨0x16000⟩) = true := by decide +kernel
  obtain ⟨t, ht⟩ : ∃ t, small.run smallRun = t := ⟨_, rfl⟩
  rw [ht] at hgets
  obtain ⟨v, answer, s, hv, hrun, hanswer⟩ := exists_of_answers hgets
  obtain rfl := of_decide_eq_true hanswer
  obtain ⟨answer', s', es, hrun', hes, hbuilt, -⟩ :=
    run_builds (by decide) hproper ht hv 9000 .kernelHigh .pageKernel
  obtain ⟨rfl, rfl⟩ := EStateM.Result.ok.inj (hrun.symm.trans hrun')
  obtain ⟨area, arrays, hgains, hprovides⟩ := hbuilt _ rfl
  have hinline : pagesFor 9000 ≤ 512 := by decide
  obtain rfl : arrays = [] := List.map_eq_nil_iff.1 (hprovides.nested.trans (if_pos hinline))
  exact ⟨t, v, s, es, area, hproper, ht, hv, hrun, hes, hgains, hprovides⟩

end Hosting

end PagedMemory
