import Mathlib.Tactic
import PagedMemory.Proofs.Building
import PagedMemory.Proofs.Quiet

/-!
# What giving back takes away

Allocated memory is given back together with the areas in which the handles of its frames lie. These
areas go with all that belongs to them, and nothing else goes.

* `Shared.Loses`: one state has some areas less than another, with all that belongs to them.
* `World.loses`: what it means that a chain goes off the books, if nothing is asked for meanwhile.
* `Setting.run_frees`: in every state of a session, whatever was allocated can be given back, and this
  is all that happens.
* `Setting.small_alias_lost`: an address that lies in no area is translated like the one of an area that
  has the same low 48 bits, and goes with it.
-/

namespace PagedMemory

open Layout Tables
open Traced (events)

/-- The second state lacks the areas `gone` of the first, with their frames and their pages, as the
events `es` tell. Besides these nothing has changed. -/
structure Shared.Loses (a : Allocator) (gone : List Area) (s s' : Shared) (es : List Event) : Prop where
  areas : s.registry.areas.Perm (gone ++ s'.registry.areas)
  /-- the areas that are left own what they owned -/
  handles : ∀ area ∈ s'.registry.areas, area.ownFrames s'.machine = area.ownFrames s.machine
  /-- each frame of these areas was given back once, and no other frame -/
  returned : ∀ f, es.count (.returned f) = if f ∈ gone.flatMap (·.ownFrames s.machine) then 1 else 0
  taken : ∀ f, s'.machine.pool.isTaken f = true ↔
    s.machine.pool.isTaken f = true ∧ f ∉ gone.flatMap (·.ownFrames s.machine)
  /-- no address of these areas is mapped, be it of a guard page -/
  vacant : ∀ area ∈ gone, ∀ x, area.Contains x → a.whereIs s' x = .ok none
  /-- an address with other low bits than any of these is mapped as it was -/
  elsewhere : ∀ x, (∀ area ∈ gone, ∀ y, area.Contains y →
    y.val.toNat % 2 ^ 48 ≠ x.val.toNat % 2 ^ 48) → a.whereIs s' x = a.whereIs s x
  /-- what is in use holds what it held, but that entries of the pages of these areas were cleared -/
  contents : ∀ f, s'.machine.pool.isTaken f = true → ∀ i,
    s'.machine.pool.entryAt f i = s.machine.pool.entryAt f i ∨
      s'.machine.pool.entryAt f i = .empty ∧ ∃ area ∈ gone, ∃ n, area.Covers n ∧
        tableOn s.machine.pool a.root n .pt = some f ∧ Level.pt.slot n = i

section

variable {a : Allocator} {p q : Pool} {r : Registry} {s s' : Shared} {loose : List PageFrame}
  {chains : List (List Holding)} {chain : List Holding} {h : Holding} {area : Area} {es : List Event}
  {f : PageFrame} {x : VirtAddr} {b n : Nat}

/-- The address in an area that has the low bits of a given one. -/
theorem Span.Within.exists_address {s : Span} (hs : s.Within b) (hn : s.Covers x.pageNumber) :
    ∃ y, s.Contains y ∧ y.val.toNat % 2 ^ 48 = x.val.toNat % 2 ^ 48 := by
  have haddress := hs.address_eq
  have hsize := hs.size_eq
  have hbounded := hs.bounded
  obtain ⟨hlow, hhigh⟩ := hn
  rw [Span.stop] at hbounded
  rw [VirtAddr.pageNumber] at hlow hhigh
  have hy : (UInt64.ofNat (b * 2 ^ 48 + x.val.toNat % 2 ^ 48)).toNat = b * 2 ^ 48 + x.val.toNat % 2 ^ 48 :=
    UInt64.toNat_ofNat_of_lt' (by change _ < 2 ^ 64; omega)
  refine ⟨⟨.ofNat (b * 2 ^ 48 + x.val.toNat % 2 ^ 48)⟩, ?_, ?_⟩
  · rw [Span.Contains, hy, Span.stop]
    omega
  · rw [hy]
    omega

/-- An area that goes is none of those that are left. -/
theorem World.ne_of_gone (hw : World a p r loose (chain :: chains)) (hh : h ∈ chain)
    (harea : area ∈ areasOf chains) : h.area ≠ area := by
  have hnodup := hw.registry.nodup
  rw [hw.listed.nodup_iff, areasOf_cons] at hnodup
  exact (List.nodup_append.1 hnodup).2.2 _ (List.mem_map_of_mem hh) _ harea

/-- Where an area was, its guard page included, nothing is left. -/
theorem World.leafOn_gone {r' : Registry} (hw : World a p r loose (chain :: chains))
    (hw' : World a q r' loose chains) (hh : h ∈ chain) (hx : h.area.Contains x) :
    leafOn q a.root x.pageNumber = .empty := by
  have harea : h.area ∈ r.areas := hw.mem_areas List.mem_cons_self hh
  refine hw'.leafOn_eq_empty x.pageNumber_lt ?_
  rintro ⟨area, hleft, hcovers⟩
  have hleft' : area ∈ r.areas := hw.listed.mem_iff.2 (areasOf_cons chain chains ▸
    List.mem_append_right _ hleft)
  exact hw.not_covers_span harea hleft' (hw.ne_of_gone hh hleft)
    ((hw.within harea).pageNumber_mem hx) hcovers

/-- Pages of other areas are left alone, and so are those of none. -/
theorem World.leafOn_left {r' : Registry} (hw : World a p r loose (chain :: chains))
    (hw' : World a q r' loose chains) (hspares : Spares a ⟨loose, chains⟩ p q) (hn : n < 512 ^ 4)
    (hout : ∀ h ∈ chain, ¬ h.area.Covers n) : leafOn q a.root n = leafOn p a.root n := by
  by_cases hcovered : CoveredBy chains n
  · exact hspares.leaf n hn hcovered
  · rw [hw'.leafOn_eq_empty hn hcovered, hw.leafOn_eq_empty hn]
    rw [coveredBy_cons]
    rintro (⟨h, hh, hcovers⟩ | hold)
    · exact hout h hh hcovers
    · exact hcovered hold

/-- Only empty entries lead nowhere. -/
theorem Entry.eq_empty_of_child {e : Entry} (h : e.child = .none) : e = .empty := by
  rw [Entry.child] at h
  split at h
  next hempty => exact Entry.isEmpty_iff.1 hempty
  next =>
    split at h
    · cases h
    · cases h

/-- Of a table that is left only entries of pages have been cleared. -/
theorem World.entryAt_left {r' : Registry} (hw : World a p r loose (chain :: chains))
    (hw' : World a q r' loose chains) (hspares : Spares a ⟨loose, chains⟩ p q) (hfaded : Faded p q es)
    (hf : q.isTaken f = true) (i : TableIndex) :
    q.entryAt f i = p.entryAt f i ∨ q.entryAt f i = .empty ∧ ∃ area ∈ chain.map Holding.area, ∃ n,
      area.Covers n ∧ tableOn p a.root n .pt = some f ∧ Level.pt.slot n = i := by
  rcases (hw'.taken f).1 hf with howned | ⟨n, hn, l, hon⟩
  · exact Or.inl (by rw [Pool.entryAt, hspares.page f howned, Pool.entryAt])
  by_cases hsame : q.entryAt f i = p.entryAt f i
  · exact Or.inl hsame
  have hempty : q.entryAt f i = .empty := (hfaded.entries f i).resolve_left hsame
  have hne : p.entryAt f i ≠ .empty := fun he => hsame (hempty.trans he.symm)
  -- the entry stands for some page `k`, to which the table was on the way before
  obtain ⟨k, hk, hslot, hon'⟩ : ∃ k < 512 ^ 4, l.slot k = i ∧ tableOn q a.root k l = some f :=
    ⟨l.pageBehind n i, l.pageBehind_lt hn i, l.slot_pageBehind n i,
      (tableOn_congr (l.group_pageBehind n i)).trans hon⟩
  have hbefore := hfaded.tableOn hon'
  subst hslot
  cases hbelow : l.next? with
  | some below =>
    -- upper entries lead to tables, and no table is lost
    cases hchild : (p.entryAt f (l.slot k)).child with
    | none => exact absurd (Entry.eq_empty_of_child hchild) hne
    | malformed e => exact absurd hchild (hw.tables.tidy k hk l f e (Level.isLeaf_of_next hbelow) hbefore)
    | table t =>
      have htable : tableOn p a.root k below = some t := by
        rw [tableOn_next hbelow, hbefore, Option.bind_some, behind, Entry.table?, hchild]
      have hstays := hspares.tables k hk below t htable
      rw [tableOn_next hbelow, hon', Option.bind_some, behind, hempty] at hstays
      cases hstays
  | none =>
    obtain rfl : l = .pt := by cases l <;> first | rfl | cases hbelow
    rw [← Tables.leafOn_eq hbefore] at hne
    obtain ⟨area, harea, hcovers⟩ := hw.covered k hk hne
    have hgone : area ∈ chain.map Holding.area := by
      by_contra hleft
      have hold : area ∈ areasOf chains := by
        have hmem := hw.listed.mem_iff.1 harea
        rw [areasOf_cons] at hmem
        exact (List.mem_append.1 hmem).resolve_left hleft
      have hleaf := hspares.leaf k hk ⟨area, hold, hcovers⟩
      rw [Tables.leafOn_eq hon', Tables.leafOn_eq hbefore] at hleaf
      exact hsame hleaf
    exact Or.inr ⟨hempty, area, hgone, k, hcovers, hbefore, rfl⟩

/-- No table has come or gone. -/
theorem Faded.isTable_iff (hfaded : Faded p q es) (hspares : Spares a ⟨loose, chains⟩ p q) :
    IsTable q a.root f ↔ IsTable p a.root f :=
  ⟨fun ⟨n, hn, l, hon⟩ => ⟨n, hn, l, hfaded.tableOn hon⟩, hspares.isTable⟩

/-- The frames that are left are those of others, and the tables. -/
theorem World.isTaken_left {r' : Registry} (hw : World a p r loose (chain :: chains))
    (hw' : World a q r' loose chains) (hspares : Spares a ⟨loose, chains⟩ p q) (hfaded : Faded p q es) :
    q.isTaken f = true ↔ p.isTaken f = true ∧ f ∉ chain.flatMap Holding.frames := by
  have hdisjoint := (List.nodup_append'.1 hw.nodup_new).2.2
  rw [hw'.taken, hw.taken, owned_chain_perm.mem_iff, List.mem_append,
    hfaded.isTable_iff hspares]
  constructor
  · rintro (howned | htable)
    · exact ⟨Or.inl (Or.inr howned), fun hgone => hdisjoint hgone howned⟩
    · refine ⟨Or.inr htable, fun hgone => ?_⟩
      exact hw.apart f (owned_chain_perm.mem_iff.2 (List.mem_append_left _ hgone)) htable
  · rintro ⟨(hgone | howned) | htable, hnot⟩
    · exact absurd hgone hnot
    · exact Or.inl howned
    · exact Or.inr htable

/-- A chain that goes off the books, while nothing is asked for, takes with it what is its own. -/
theorem World.loses (hw : World a s.machine.pool s.registry loose (chain :: chains))
    (hw' : World a s'.machine.pool s'.registry loose chains)
    (hspares : Spares a ⟨loose, chains⟩ s.machine.pool s'.machine.pool)
    (hfaded : Faded s.machine.pool s'.machine.pool es) :
    s.Loses a (chain.map Holding.area) s' es := by
  have hframes : (chain.map Holding.area).flatMap (·.ownFrames s.machine) =
      chain.flatMap Holding.frames := by
    rw [List.flatMap_map]
    exact List.flatMap_congr fun h hh => hw.ownFrames_eq List.mem_cons_self hh
  have hwithin : ∀ h ∈ chain, h.area.Within a.block := fun h hh =>
    hw.within (hw.mem_areas List.mem_cons_self hh)
  have htaken : ∀ f, s'.machine.pool.isTaken f = true ↔ s.machine.pool.isTaken f = true ∧
      f ∉ chain.flatMap Holding.frames := fun f => hw.isTaken_left hw' hspares hfaded
  exact {
    areas := by
      refine hw.listed.trans ?_
      rw [areasOf_cons]
      exact hw'.listed.symm.append_left _
    handles := fun area harea => by
      obtain ⟨c, hc, h, hh, rfl⟩ := hw'.exists_holding harea
      rw [hw'.ownFrames_eq hc hh, hw.ownFrames_eq (List.mem_cons_of_mem _ hc) hh]
    returned := fun f => by
      have hcount := hfaded.frames f
      rw [hframes]
      split
      next hgone =>
        have hbefore : s.machine.pool.isTaken f = true := hw.isTaken
          (owned_chain_perm.mem_iff.2 (List.mem_append_left _ hgone))
        have hafter : s'.machine.pool.isTaken f = false :=
          Bool.eq_false_of_not_eq_true fun h => ((htaken f).1 h).2 hgone
        rwa [hbefore, hafter] at hcount
      next hleft =>
        have hsame : s'.machine.pool.isTaken f = s.machine.pool.isTaken f :=
          Bool.eq_iff_iff.2 ((htaken f).trans (and_iff_left hleft))
        rw [hsame] at hcount
        omega
    taken := fun f => by rw [hframes, htaken]
    vacant := List.forall_mem_map.2 fun h hh x hx => by
      rw [Allocator.whereIs_eq hw'.tables, target_eq_none (hw.leafOn_gone hw' hh hx)]
    elsewhere := fun x hx => by
      rw [Allocator.whereIs_eq hw.tables, Allocator.whereIs_eq hw'.tables, target, target,
        hw.leafOn_left hw' hspares x.pageNumber_lt fun h hh hcovers => ?_]
      obtain ⟨y, hy, hbits⟩ := (hwithin h hh).exists_address hcovers
      exact hx h.area (List.mem_map_of_mem hh) y hy hbits
    contents := fun f hf i => hw.entryAt_left hw' hspares hfaded hf i }

/-- What was noted says what was reported as an error. -/
theorem Machine.severity_ne_of_notes {m m' : Machine} {fs : List Event} {rep : Report}
    (hes : events m' = events m ++ es) (hfs : m'.notes = m.notes ++ fs)
    (hreports : ∀ r, .reported r ∈ fs → r.severity ≠ .error) (hr : .reported rep ∈ es) :
    rep.severity ≠ .error := by
  intro herror
  have hnotes : m'.notes = m.notes ++ es.filter Event.isNote := by
    rw [Machine.notes, Machine.notes, ← List.filter_append]
    exact congrArg (List.filter Event.isNote) hes
  obtain rfl := List.append_cancel_left (hnotes.symm.trans hfs)
  exact hreports rep (List.mem_filter.2 ⟨hr, Report.isNote_of_error herror⟩) herror

end

/-! ## Sessions -/

/-- What was got at `x` by allocation is given back: the area there, and those in which its handles
lie. -/
structure Shared.Frees (a : Allocator) (x : VirtAddr) (s s' : Shared) : Prop where
  run : (a.free x).run s = .ok () s'
  /-- the handles of the first area lie in the second, those of the second in the third, and so on -/
  loses : ∃ es area arrays, events s' = events s ++ es ∧ area.address = x ∧
    (area :: arrays).map (·.handles.base?) = arrays.map (some ·.address) ++ [none] ∧
    (∀ b ∈ area :: arrays, b.kind = .allocated) ∧ s.Loses a (area :: arrays) s' es ∧
    ∀ r, .reported r ∈ es → r.severity ≠ .error

section

variable {a : Allocator} {t : Session} {chains : List (List Holding)} {x : VirtAddr}

/-- What the client has got by allocation can be given back. -/
theorem Session.Kept.frees (h : t.Kept a chains) (hlive : (ReleaseCall.free, x) ∈ t.live) :
    ∃ s', t.shared.Frees a x s' := by
  obtain ⟨chain, chains', hgranted, hperm, -⟩ := exists_chain h.granted hlive
  have hw : World a t.shared.machine.pool t.shared.registry t.frames (chain :: chains') :=
    h.world.perm (List.Perm.refl _) hperm
  have hne := h.nonzero x hlive
  cases hgranted with
  | @allocated head rest kinds =>
    have hchain := (hw.chained _ List.mem_cons_self).linked
    have hjob : Behaves a .strict (a.free head.area.address) (.ofChain (head :: rest))
        t.shared.machine.pool fun _ e _ => e = ∅ :=
      free_behaves (hw.within (hw.mem_areas List.mem_cons_self List.mem_cons_self)) hne
        fun _ _ _ hT => nomatch hT
    have hbooks : Books a t.shared.machine.pool t.shared.registry
        (.ofChain (head :: rest) ++ ⟨t.frames, chains'⟩) := books_ofChain.2 hw
    obtain ⟨_, s', hrun, _, hpasses, rfl⟩ := hjob.answers nofun hbooks nofun
    obtain ⟨es, hes, hfaded⟩ := (Allocator.free_givesBack head.area.address).recedes.run hrun
    obtain ⟨fs, hfs, hreports⟩ := hjob.reports nofun hbooks nofun hrun
    refine ⟨s', hrun, es, head.area, rest.map Holding.area, hes, rfl, ?_, ?_,
      hw.loses hpasses.books hpasses.spares hfaded, fun r => Machine.severity_ne_of_notes hes hfs hreports⟩
    · rw [← List.map_cons, List.map_map, List.map_map]
      exact hchain
    · rw [← List.map_cons]
      exact List.forall_mem_map.2 kinds

end

namespace Setting

variable {s : Setting} {a : Allocator} {t : Session} {calls : List Call}

/-- **Giving back**: in every state that is reached, whatever was allocated is given back without
incident. The area goes, with those in which its handles lie; their frames are returned, each once;
their pages are mapped no more. Of all else nothing changes. -/
theorem run_frees (h : s.start = .ok (.ok (a, t))) (hproper : t.Proper a calls) :
    ∃ u, t.run a calls = .ok u ∧ ∀ x, (ReleaseCall.free, x) ∈ u.live →
      ∃ s', u.shared.Frees a x s' := by
  obtain ⟨u, chains, hrun, hkept⟩ := run_kept h hproper
  exact ⟨u, hrun, fun x hlive => hkept.frees hlive⟩

/-- An area of two pages goes, and an area over device memory stays. -/
theorem small_run_frees : ∃ a t u s', small.start = .ok (.ok (a, t)) ∧ t.Proper a smallRun ∧
    t.run a smallRun = .ok u ∧ (ReleaseCall.free, ⟨0x10000⟩) ∈ u.live ∧
    u.shared.Frees a ⟨0x10000⟩ s' := by
  have hopens : small.opens (fun a t => decide (t.Proper a smallRun) &&
      t.leads a smallRun fun u => decide ((ReleaseCall.free, ⟨0x10000⟩) ∈ u.live)) = true := by
    decide +kernel
  obtain ⟨a, t, hstart, h⟩ := exists_of_opens hopens
  obtain ⟨hproper, hleads⟩ := Bool.and_eq_true_iff.1 h
  have hproper := of_decide_eq_true hproper
  obtain ⟨u, hrun, hlive⟩ := Session.exists_of_leads hleads
  have hlive := of_decide_eq_true hlive
  obtain ⟨u', hrun', hfrees⟩ := run_frees hstart hproper
  obtain rfl : u = u' := Except.ok.inj (hrun.symm.trans hrun')
  obtain ⟨s', hs'⟩ := hfrees ⟨0x10000⟩ hlive
  exact ⟨a, t, u, s', hstart, hproper, hrun, hlive, hs'⟩

/-- One page is allocated at address `0x10000`. An address of the next block of `2 ^ 48` addresses has
the same low bits. It is in no area, and still it is not mapped as before when the page is given back. -/
theorem small_alias_lost : ∃ a t u s', small.start = .ok (.ok (a, t)) ∧
    t.Proper a [.request (.allocate 4096 .kernelHigh .pageKernel)] ∧
    t.run a [.request (.allocate 4096 .kernelHigh .pageKernel)] = .ok u ∧
    (ReleaseCall.free, ⟨0x10000⟩) ∈ u.live ∧ (a.free ⟨0x10000⟩).run u.shared = .ok () s' ∧
    (∀ area ∈ u.registry.areas, ¬ area.Contains ⟨0x1000000010000⟩) ∧
    a.whereIs s' ⟨0x1000000010000⟩ ≠ a.whereIs u.shared ⟨0x1000000010000⟩ := by
  have hopens : small.opens (fun a t =>
      decide (t.Proper a [.request (.allocate 4096 .kernelHigh .pageKernel)]) &&
      t.leads a [.request (.allocate 4096 .kernelHigh .pageKernel)] fun u =>
        decide ((ReleaseCall.free, ⟨0x10000⟩) ∈ u.live ∧
          ∀ area ∈ u.registry.areas, ¬ area.Contains ⟨0x1000000010000⟩) &&
        match (a.free ⟨0x10000⟩).run u.shared with
        | .ok () s' => decide (a.whereIs s' ⟨0x1000000010000⟩ ≠ a.whereIs u.shared ⟨0x1000000010000⟩)
        | .error _ _ => false) = true := by decide +kernel
  obtain ⟨a, t, hstart, h⟩ := exists_of_opens hopens
  obtain ⟨hproper, hleads⟩ := Bool.and_eq_true_iff.1 h
  obtain ⟨u, hrun, hu⟩ := Session.exists_of_leads hleads
  obtain ⟨hhave, hfree⟩ := Bool.and_eq_true_iff.1 hu
  obtain ⟨hlive, hout⟩ := of_decide_eq_true hhave
  split at hfree
  next s' hrun' =>
    exact ⟨a, t, u, s', hstart, of_decide_eq_true hproper, hrun, hlive, hrun', hout,
      of_decide_eq_true hfree⟩
  next => cases hfree

end Setting

end PagedMemory
