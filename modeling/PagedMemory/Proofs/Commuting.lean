import Mathlib.Tactic
import PagedMemory.Proofs.Devices
import PagedMemory.Proofs.Outlines
import PagedMemory.Proofs.Recounting

/-!
# Releases commute

What two releases leave behind is not the same in every detail: frames come back in another order, so
that the next one that is taken may be another. But the areas are the same, and the memory, and whoever
asks for room or has memory mapped cannot tell the one from the other.

* `Concurs`: a routine answers the same from two states.
* `Shared.Twins`: two states that differ in nothing that such a client can tell.
* `Query`: what such a client asks for. `Query.job_concurs`: twins answer the same, and stay twins.
* `Hosting.run_releases_commute`: in every state that is reached, two releases lead to twins in either
  order.
-/

namespace PagedMemory

open Layout Tables Walk

/-! ## Routines in two states -/

theorem Routine.run_bind_of_ok {ε σ α β : Type} {w : Routine ε σ α} {f : α → Routine ε σ β} {s t : σ}
    {v : α} (h : w.run s = .ok v t) : (w >>= f).run s = (f v).run t :=
  (Routine.run_bind w f s).trans (bind_eq_of_ok h)

theorem Allocator.run_onMachine_of_ok {α : Type} {x : MachineM α} {s : Shared} {v : α} {m : Machine}
    (h : x s.machine = .ok v m) : (onMachine x).run s = .ok v ⟨m, s.registry⟩ := by
  obtain ⟨machine, registry⟩ := s
  rw [run_onMachine, Shared.onMachine, h]

/-- From both states the routine ends with the same answer, and where it ends is as `Q` says. -/
def Concurs {α : Type} (w : Job α) (s s' : Shared) (Q : α → Shared → Shared → Prop) : Prop :=
  ∃ v t t', w.run s = .ok v t ∧ w.run s' = .ok v t' ∧ Q v t t'

section

variable {α β : Type} {w : Job α} {s s' : Shared} {Q : α → Shared → Shared → Prop}

theorem Concurs.pure {v : α} (h : Q v s s') : Concurs (Pure.pure v) s s' Q := ⟨v, s, s', rfl, rfl, h⟩

theorem Concurs.bind {f : α → Job β} {R : β → Shared → Shared → Prop} (h : Concurs w s s' Q)
    (hf : ∀ v t t', Q v t t' → Concurs (f v) t t' R) : Concurs (w >>= f) s s' R := by
  obtain ⟨v, t, t', hrun, hrun', hq⟩ := h
  obtain ⟨u, z, z', hnext, hnext', hr⟩ := hf v t t' hq
  exact ⟨u, z, z', (Routine.run_bind_of_ok hrun).trans hnext,
    (Routine.run_bind_of_ok hrun').trans hnext', hr⟩

end

/-! ## Twins -/

/-- Two states with the same books, the same tables, and as many frames that can be had. -/
structure Shared.Twins (a : Allocator) (loose : List PageFrame) (chains : List (List Holding))
    (s s' : Shared) : Prop where
  world : World a s.machine.pool s.registry loose chains
  world' : World a s'.machine.pool s'.registry loose chains
  outline : outline s'.machine.pool a.root = outline s.machine.pool a.root
  stated : s'.machine.stated = s.machine.stated

/-- No page of the area is mapped. -/
def Shared.Vacant (a : Allocator) (area : Area) (s : Shared) : Prop :=
  ∀ n, area.Covers n → leafOn s.machine.pool a.root n = .empty

section

variable {a : Allocator} {s s' t : Shared} {loose : List PageFrame} {chains : List (List Holding)}
  {area : Area} {size : UInt64} {kind : AreaKind} {window : Interval} {prot : Entry}
  {frames : Nat → Option PageFrame} {o : Outline}

theorem Shared.stated_eq (hfront : t.machine.front = s.machine.front)
    (hsize : t.machine.pool.slots.size = s.machine.pool.slots.size) :
    t.machine.stated = s.machine.stated := by
  rw [Machine.stated, Machine.stated, hfront, hsize]

/-- Where the same chains are left, clients cannot tell what has happened. -/
theorem Shared.Retreats.twins {t' : Shared} (h : s.Retreats a loose chains t)
    (h' : s.Retreats a loose chains t') : t.Twins a loose chains t' where
  world := h.world
  world' := h'.world
  outline := h.pruned.outline_eq h'.pruned h.world.pool h'.world.pool (h.isTaken_eq h')
  stated := Shared.stated_eq (h'.front.trans h.front.symm) (h'.pruned.size.trans h.pruned.size.symm)

/-! ## Sections that twins go through -/

theorem Shared.reserveOrWarn_of_full {e : AllocError}
    (h : s.registry.reserve size kind window = .ok (.error e)) :
    ∃ trace, reserveOrWarn size kind window s =
      .ok (.error e) ⟨{ s.machine with trace }, s.registry⟩ := by
  have hreserve : reserve size kind window s = .ok (.error e) s := by
    simp only [reserve, bind, EStateM.bind, get_apply, h]
    rfl
  refine ⟨s.machine.trace.push (.reported (.noVirtualSpace size)), ?_⟩
  rw [reserveOrWarn, bind_eq_of_ok hreserve]
  rfl

theorem Shared.reserveOrWarn_of_found {span : Span} {r : Registry}
    (h : s.registry.reserve size kind window = .ok (.ok (span, r))) :
    ∃ trace, reserveOrWarn size kind window s = .ok (.ok span) ⟨{ s.machine with trace }, r⟩ := by
  have hreserve : reserve size kind window s =
      .ok (.ok span) ⟨{ s.machine with trace := s.machine.trace.push (.reported (.reserved span)) }, r⟩ := by
    simp only [reserve, bind, EStateM.bind, get_apply, h]
    rfl
  refine ⟨s.machine.trace.push (.reported (.reserved span)), ?_⟩
  rw [reserveOrWarn, bind_eq_of_ok hreserve]
  rfl

namespace Shared.Twins

theorem registry_eq (h : s.Twins a loose chains s') : s'.registry = s.registry :=
  h.world.registry_eq h.world' (.refl _)

/-- What was said makes no difference. -/
theorem report (h : s.Twins a loose chains s') (r : Report) :
    Concurs (Allocator.onMachine (Machine.report r)) s s' fun _ => Twins a loose chains :=
  ⟨(), _, _, rfl, rfl, h.world, h.world', h.outline, h.stated⟩

theorem frameTotal (h : s.Twins a loose chains s') :
    Concurs (Allocator.onMachine Machine.frameTotal) s s' fun total t t' =>
      total.toNat < 2 ^ 52 ∧ t.Twins a loose chains t' := by
  have hbelow := h.world.pool.below
  refine ⟨s.machine.stated, s, s', rfl, ?_, Machine.stated_lt (by omega), h⟩
  rw [← h.stated]
  rfl

/-- Room is found at the same place, or nowhere. -/
theorem reserve (h : s.Twins a loose chains s') (size : UInt64) (kind : AreaKind) :
    Concurs (a.reserve size kind) s s' fun answer t t' => match answer with
      | .error _ => t.Twins a loose chains t'
      | .ok span => ∃ area : Area, area.toSpan = span ∧ s.registry.Fits size kind a.window.range area ∧
          t.Twins a loose ([⟨area, []⟩] :: chains) t' ∧ t.Vacant a area ∧ t'.Vacant a area := by
  have hrun : ∀ s, (a.reserve size kind).run s = Shared.reserveOrWarn size kind a.window.range s :=
    Routine.run_atomically .exclusive _
  rcases Registry.reserve_cases h.world.registry a.window.start_lt_stop with hfull | ⟨area, hfits, hfound⟩
  · have hfull' : s'.registry.reserve size kind a.window.range = _ := h.registry_eq ▸ hfull
    obtain ⟨trace, hs⟩ := reserveOrWarn_of_full hfull
    obtain ⟨trace', hs'⟩ := reserveOrWarn_of_full hfull'
    exact ⟨_, _, _, (hrun s).trans hs, (hrun s').trans hs', h.world, h.world', h.outline, h.stated⟩
  · have hfound' : s'.registry.reserve size kind a.window.range =
        .ok (.ok (area.toSpan, s'.registry.insert area)) := h.registry_eq ▸ hfound
    obtain ⟨trace, hs⟩ := reserveOrWarn_of_found hfound
    obtain ⟨trace', hs'⟩ := reserveOrWarn_of_found hfound'
    have hfits' : s'.registry.Fits size kind a.window.range area := h.registry_eq ▸ hfits
    have hw' : World a s'.machine.pool (s'.registry.insert area) loose ([⟨area, []⟩] :: chains) :=
      h.world'.insert h.world'.window hfits'
    exact ⟨_, _, _, (hrun s).trans hs, (hrun s').trans hs', area, rfl, hfits,
      ⟨h.world.insert h.world.window hfits, hw', h.outline, h.stated⟩,
      fun _ hn => h.world.leafOn_fresh h.world.window hfits hn,
      fun _ hn => h.world'.leafOn_fresh h.world'.window hfits' hn⟩

theorem noteDevice (h : s.Twins a loose ([⟨area, []⟩] :: chains) s') (device : PhysAddr) :
    Concurs (Routine.atomically .exclusive (Shared.noteDevice area.address device)) s s' fun _ t t' =>
      t.Twins a loose ([⟨{ area with physAddr := some device }, []⟩] :: chains) t' ∧
        t.machine = s.machine ∧ t'.machine = s'.machine :=
  ⟨(), _, _, rfl, rfl, ⟨h.world.noteDevice device, h.world'.noteDevice device, h.outline, h.stated⟩,
    rfl, rfl⟩

end Shared.Twins

/-! ## Mapping what was reserved -/

/-- What began in `s` has ended in `t`, with these books and this outline. -/
structure Shared.Arrives (a : Allocator) (loose : List PageFrame) (chains : List (List Holding))
    (o : Outline) (s t : Shared) : Prop where
  world : World a t.machine.pool t.registry loose chains
  outline : outline t.machine.pool a.root = o
  stated : t.machine.stated = s.machine.stated

theorem Shared.Arrives.twins {t' : Shared} (h : s.Arrives a loose chains o t)
    (h' : s'.Arrives a loose chains o t') (hstated : s'.machine.stated = s.machine.stated) :
    t.Twins a loose chains t' :=
  ⟨h.world, h'.world, h'.outline.trans h.outline.symm, (h'.stated.trans hstated).trans h.stated.symm⟩

namespace World

/-- Mapping an area for which there are frames ends as planned. -/
theorem mapArea_arrives (prot : Entry)
    (hw : World a s.machine.pool s.registry loose ([⟨area, []⟩] :: chains)) (hvacant : s.Vacant a area)
    (hframes : ∀ k < area.pages, ∃ f, frames k = some f ∧ f.Numbered) :
    match Outline.provideAll area.firstPage area.pages (outline s.machine.pool a.root) with
    | .ok _ o => ∃ k t, (a.mapArea area.address prot (.of frames)).run s = .ok (.ok (), k) t ∧
        s.Arrives a loose ([⟨area, []⟩] :: chains) o t
    | .error e o => ∃ k t,
        (a.mapArea area.address prot (.of frames)).run s = .ok (.error (.ofMapError e), k) t ∧
        s.Arrives a loose ([⟨area, []⟩] :: chains) o t := by
  have hbooks : Books a s.machine.pool s.registry (.ofChain [⟨area, []⟩] ++ ⟨loose, chains⟩) :=
    books_ofChain.2 hw
  obtain ⟨range, hlook, hpages⟩ :=
    Shared.mappedRange?_eq hbooks (hw.mem_areas List.mem_cons_self List.mem_cons_self)
  have hrange : (Routine.atomically .shared (Shared.mappedRange? area.address)).run s =
      .ok (some range) s := (Routine.run_atomically ..).trans hlook
  have hruns : Runs Shared.noted s.machine.front (a.mapArea area.address prot (.of frames)).run
      (Shared.noted.shown s) _ _ := mapArea_runs (h := ⟨area, []⟩) (fun _ => gives_of) hbooks
  have hafter : ∀ {answer t}, (a.mapArea area.address prot (.of frames)).run s = .ok answer t →
      s.Arrives a loose ([⟨area, []⟩] :: chains) (outline t.machine.pool a.root) t := by
    intro answer t hrun
    obtain ⟨hfront, ⟨hleft, hspares⟩, -⟩ := (hruns s rfl rfl).of_eq_ok hrun
    exact ⟨books_ofChain.1 hleft, rfl, Shared.stated_eq hfront hspares.size⟩
  have hfill := fill_heeds prot hw.pool hw.tables hpages
    (fun n hlow htop => hvacant n ⟨hlow, htop⟩) (by rwa [Nat.add_sub_cancel_left])
  rw [Nat.add_sub_cancel_left] at hfill
  split at hfill
  next o hplan =>
    obtain ⟨count, k, m, hfill, rfl⟩ := hfill
    let u : Machine := { m with trace := m.trace.push (.afterMap range) }
    have hrun : (a.mapArea area.address prot (.of frames)).run s = .ok (.ok (), k) ⟨u, s.registry⟩ :=
      (Routine.run_bind_of_ok hrange).trans (Routine.run_bind_of_ok (Allocator.run_onMachine_of_ok hfill))
    have harrives := hafter hrun
    rw [hplan]
    exact ⟨k, _, hrun, harrives⟩
  next e o hplan =>
    obtain ⟨k, m, hfill, rfl⟩ := hfill
    have hrun : (a.mapArea area.address prot (.of frames)).run s =
        .ok (.error (.ofMapError e), k) ⟨m, s.registry⟩ :=
      (Routine.run_bind_of_ok hrange).trans (Routine.run_bind_of_ok (Allocator.run_onMachine_of_ok hfill))
    have harrives := hafter hrun
    rw [hplan]
    exact ⟨k, _, hrun, harrives⟩

/-- An area that was reserved in vain leaves nothing behind but tables. -/
theorem undo_arrives (hw : World a s.machine.pool s.registry loose ([⟨area, []⟩] :: chains))
    (what : Undone) : ∃ t, (a.undo what area.address).run s = .ok () t ∧
      s.Arrives a loose chains (outline s.machine.pool a.root) t := by
  have hbooks : Books a s.machine.pool s.registry (.ofChain [⟨area, []⟩] ++ ⟨loose, chains⟩) :=
    books_ofChain.2 hw
  have hundo : Behaves a .strict (a.undo what area.address) (.ofChain [⟨area, []⟩]) s.machine.pool
      fun _ e _ => e = ∅ := undo_behaves (h := ⟨area, []⟩) what rfl
  have hruns : Runs Shared.noted s.machine.front (a.undo what area.address).run
      (Shared.noted.shown s) _ fun _ _ => False := hundo.runs_strict hbooks
  obtain ⟨_, t, hrun, hfront, _, hleft, hspares, rfl⟩ := hruns.exists_ok rfl rfl
  have hw' : World a t.machine.pool t.registry loose chains := hleft
  have hpruned := ((Allocator.undo_givesBack what area.address).prunes hw.holds hrun).pruned
  refine ⟨t, hrun, hw', Pruned.refl.outline_eq hpruned hw.pool hw'.pool fun f => ?_,
    Shared.stated_eq hfront hspares.size⟩
  -- the area owned no frames
  refine Bool.eq_iff_iff.2 ?_
  rw [hw'.taken, hw.taken, hpruned.isTable_iff]
  simp [owned]

end World

/-- An area is mapped in both states, or in neither. -/
theorem Shared.Twins.mapOrUndo (h : s.Twins a loose ([⟨area, []⟩] :: chains) s')
    (hvacant : s.Vacant a area) (hvacant' : s'.Vacant a area)
    (hframes : ∀ k < area.pages, ∃ f, frames k = some f ∧ f.Numbered) (what : Undone)
    {finish : Job (Except AllocError VirtAddr)}
    (hfinish : ∀ t t', t.Twins a loose ([⟨area, []⟩] :: chains) t' →
      Concurs finish t t' fun _ => Twins a loose ([⟨area, []⟩] :: chains)) :
    Concurs (a.mapOrUndo what area.address prot (.of frames) finish) s s' fun _ t t' =>
      ∃ chains, t.Twins a loose chains t' := by
  have hmap := h.world.mapArea_arrives prot hvacant hframes
  have hmap' := h.world'.mapArea_arrives prot hvacant' hframes
  rw [h.outline] at hmap'
  split at hmap
  next o hplan =>
    rw [hplan] at hmap'
    obtain ⟨k, t, hrun, harrives⟩ := hmap
    obtain ⟨k', t', hrun', harrives'⟩ := hmap'
    obtain ⟨v, u, u', hu, hu', hleft⟩ := hfinish t t' (harrives.twins harrives' h.stated)
    exact ⟨v, u, u', (Routine.run_bind_of_ok hrun).trans hu, (Routine.run_bind_of_ok hrun').trans hu',
      _, hleft⟩
  next e o hplan =>
    rw [hplan] at hmap'
    obtain ⟨k, t, hrun, harrives⟩ := hmap
    obtain ⟨k', t', hrun', harrives'⟩ := hmap'
    have htwins := harrives.twins harrives' h.stated
    obtain ⟨u, hu, hback⟩ := htwins.world.undo_arrives what
    obtain ⟨u', hu', hback'⟩ := htwins.world'.undo_arrives what
    rw [htwins.outline] at hback'
    exact ⟨_, u, u', (Routine.run_bind_of_ok hrun).trans (Routine.run_bind_of_ok hu),
      (Routine.run_bind_of_ok hrun').trans (Routine.run_bind_of_ok hu'), _,
      hback.twins hback' htwins.stated⟩

end

/-! ## Whoever asks for room or for mappings -/

/-- What a client asks for that brings no frames of the allocator's. -/
inductive Query where
  | reserve (size : UInt64) (kind : AreaKind)
  | mapFrames (frames : List PageFrame) (prot : Entry)
  | mapDevice (device : PhysAddr) (size : UInt64) (prot : Entry)

namespace Query

def job (a : Allocator) : Query → Job (Except AllocError VirtAddr)
  | reserve size kind => do return (← a.reserve size kind).map (·.address)
  | mapFrames frames prot => a.mapFrames frames prot
  | mapDevice device size prot => a.mapDevice device size prot

/-- Entries can point to all that is to be mapped. -/
def Fits : Query → Prop
  | reserve _ _ => True
  | mapFrames frames _ => ∀ f ∈ frames, f.base.val.toNat < 2 ^ 52
  | mapDevice device size _ => device.val.toNat + size.toNat ≤ 2 ^ 52

instance (q : Query) : Decidable q.Fits := by
  cases q <;> unfold Fits <;> infer_instance

variable {a : Allocator} {s s' : Shared} {loose : List PageFrame} {chains : List (List Holding)}
  {prot : Entry}

theorem mapFrames_concurs (h : s.Twins a loose chains s') {frames : List PageFrame}
    (hframes : ∀ f ∈ frames, f.Numbered) :
    Concurs (a.mapFrames frames prot) s s' fun _ t t' => ∃ chains, t.Twins a loose chains t' := by
  refine h.frameTotal.bind fun total t t' ⟨htotal, ht⟩ => ?_
  split
  · exact .pure ⟨_, ht⟩
  next hcount =>
  obtain ⟨bytes, hbytes, hval⟩ := bytes_eq_ok htotal hcount
  rw [hbytes, Allocator.orFault, pure_bind]
  refine (ht.reserve _ _).bind fun answer u u' hu => ?_
  cases answer with
  | error e => exact .pure ⟨_, hu⟩
  | ok span =>
    obtain ⟨area, rfl, hfits, htwins, hvacant, hvacant'⟩ := hu
    have hpages : area.pages = frames.length := hfits.pages_eq hval
    refine htwins.mapOrUndo hvacant hvacant' (fun k hk => ?_) .borrowedMapping fun v v' hv => .pure hv
    have hlt : k < frames.length := hpages ▸ hk
    exact ⟨frames[k], List.getElem?_eq_getElem hlt, hframes _ (List.getElem_mem hlt)⟩

theorem mapDevice_concurs (h : s.Twins a loose chains s') {device : PhysAddr} {size : UInt64}
    (hend : device.val.toNat + size.toNat ≤ 2 ^ 52) :
    Concurs (a.mapDevice device size prot) s s' fun _ t t' => ∃ chains, t.Twins a loose chains t' := by
  rw [Allocator.mapDevice]
  rcases hrange : Allocator.deviceFrames? device size with _ | ⟨first, stop⟩
  · exact .pure ⟨_, h⟩
  obtain ⟨-, -, hfirst, -⟩ := Allocator.deviceFrames?_eq_some hrange
  obtain ⟨bytes, hdiff, hbytes, hcount⟩ := Allocator.deviceBytes_eq_ok hrange
  have hlast : first.base.val.toNat + devicePages device size * 4096 ≤ 2 ^ 52 := by
    rw [hfirst, devicePages]
    omega
  simp only [hdiff, hcount, FrameSource.run_eq (hlast.trans (by decide)), Allocator.orFault, pure_bind]
  refine (h.reserve _ _).bind fun answer t t' ht => ?_
  cases answer with
  | error e => exact .pure ⟨_, ht⟩
  | ok span =>
    obtain ⟨area, rfl, hfits, htwins, hvacant, hvacant'⟩ := ht
    refine (htwins.noteDevice first.base).bind fun _ u u' hu => ?_
    obtain ⟨hnoted, hmachine, hmachine'⟩ := hu
    have hpages : area.pages = devicePages device size := hfits.pages_eq hbytes
    refine hnoted.mapOrUndo (fun n hn => ?_) (fun n hn => ?_) (fun k hk => ?_) .deviceMapping
      fun v v' hv => (hv.report _).bind fun _ w w' hw => ?_
    · rw [hmachine]
      exact hvacant n hn
    · rw [hmachine']
      exact hvacant' n hn
    · have hk : k < devicePages device size := hpages ▸ hk
      exact ⟨first.advance k, by simp [runOf, hk], PageFrame.numbered_advance hlast hk⟩
    · have hwithin : area.Within a.block :=
        htwins.world.within (htwins.world.mem_areas List.mem_cons_self List.mem_cons_self)
      rw [PhysAddr.pageOffset, (hwithin.add_eq_ok device.val).1]
      exact .pure hw

/-- Twins answer the same, and stay twins. -/
theorem job_concurs {q : Query} (hfits : q.Fits) (h : s.Twins a loose chains s') :
    Concurs (q.job a) s s' fun _ t t' => ∃ chains, t.Twins a loose chains t' := by
  cases q with
  | reserve size kind =>
    refine (h.reserve size kind).bind fun answer t t' ht => .pure ?_
    cases answer with
    | error e => exact ⟨_, ht⟩
    | ok span =>
      obtain ⟨area, -, -, htwins, -⟩ := ht
      exact ⟨_, htwins⟩
  | mapFrames frames prot => exact mapFrames_concurs h hfits
  | mapDevice device size prot => exact mapDevice_concurs h hfits

/-- They do so however much is asked for. -/
theorem mapM_concurs {queries : List Query} (hfits : ∀ q ∈ queries, q.Fits)
    (h : s.Twins a loose chains s') :
    Concurs (queries.mapM (job a)) s s' fun _ t t' => ∃ chains, t.Twins a loose chains t' := by
  induction queries generalizing s s' chains with
  | nil => exact .pure ⟨_, h⟩
  | cons q queries ih =>
    rw [List.mapM_cons]
    refine (job_concurs (hfits q List.mem_cons_self) h).bind fun answer t t' ht => ?_
    obtain ⟨_, htwins⟩ := ht
    refine (ih (fun q hq => hfits q (List.mem_cons_of_mem _ hq)) htwins).bind fun answers u u' hu => ?_
    exact .pure hu

end Query

/-! ## Releases on hosts -/

/-- Two releases, one after the other. -/
theorem Shared.Retreats.release_both {a : Allocator} {s t : Shared} {loose : List PageFrame}
    {chains : List (List Holding)} {lease lease' : Lease} {chain chain' : List Holding}
    (hleased : Leased lease chain) (hleased' : Leased lease' chain')
    (h : s.Retreats a loose (chain :: chain' :: chains) t) :
    ∃ t', (do lease.job a; lease'.job a : Job Unit).run t = .ok () t' ∧
      s.Retreats a loose (lease'.remains chain' ++ (lease.remains chain ++ chains)) t' := by
  obtain ⟨u, hu, hleft⟩ := h.release hleased
  obtain ⟨t', ht', hleft'⟩ := (hleft.perm List.perm_middle).release hleased'
  exact ⟨t', (Routine.run_bind_of_ok hu).trans ht', hleft'⟩

namespace Hosting

variable {base : PageFrame} {count : Nat} {front : Front} {t : Hosting} {deeds : List Deed} {k : Nat}
  {v : Tenant} {lease lease' : Lease}

/-- **Releases commute**: whatever two leases a tenant gives back, in either order it comes to the same
areas and the same memory. And no list of queries that comes after is answered otherwise. -/
theorem run_releases_commute (hpool : base.base.val.toNat + count * 4096 ≤ 2 ^ 52)
    (hproper : (create base count front).Proper deeds) (ht : (create base count front).run deeds = t)
    (hv : t.tenant? k = some v) (hlease : lease ∈ t.leases k) (hlease' : lease' ∈ t.leases k)
    (hne : lease ≠ lease') :
    ∃ s s', (do lease.job v.allocator; lease'.job v.allocator : Job Unit).run (t.shared v) = .ok () s ∧
      (do lease'.job v.allocator; lease.job v.allocator : Job Unit).run (t.shared v) = .ok () s' ∧
      s.Meets v.allocator s' ∧
      ∀ queries : List Query, (∀ q ∈ queries, q.Fits) → ∃ answers u u',
        (queries.mapM (Query.job v.allocator)).run s = .ok answers u ∧
        (queries.mapM (Query.job v.allocator)).run s' = .ok answers u' := by
  obtain ⟨rolls, hkept⟩ := kept_run hpool hproper ht
  obtain ⟨loose, hroll⟩ := hkept.tenant k v hv
  -- the chains behind the two leases, and all others
  obtain ⟨chain, rest, hperm, hrest, hmem, -⟩ := hroll.exists_chain hlease
  have hlater : lease' ∈ rest.map Prod.fst := by
    rw [hrest]
    exact (List.mem_erase_of_ne hne.symm).2 hlease'
  obtain ⟨chain', others, hperm', -⟩ := Roll.exists_entry hlater
  have hmem' : (lease', chain') ∈ (rolls k).entries :=
    hperm.mem_iff.2 (List.mem_cons_of_mem _ (hperm'.mem_iff.2 List.mem_cons_self))
  have hchains : (rolls k).chains.Perm (chain :: chain' :: (others.map Prod.snd ++ (rolls k).orphans)) :=
    ((hperm.trans (hperm'.cons _)).map Prod.snd).append_right _
  have hw : World v.allocator (t.shared v).machine.pool (t.shared v).registry loose (rolls k).chains :=
    hroll.world
  have hstart := (Shared.Retreats.refl hw).perm hchains
  obtain ⟨s, hrun, hleft⟩ := hstart.release_both (hroll.leased _ hmem) (hroll.leased _ hmem')
  obtain ⟨s', hrun', hleft'⟩ :=
    (hstart.perm (.swap _ _ _)).release_both (hroll.leased _ hmem') (hroll.leased _ hmem)
  -- where the releases of address 0 came to nothing, chains are left, in one order or the other
  have hsame := hleft'.perm (List.perm_append_comm_assoc ..)
  refine ⟨s, s', hrun, hrun', hleft.meets hw.tables hsame, fun queries hfits => ?_⟩
  obtain ⟨answers, u, u', hu, hu', -⟩ := Query.mapM_concurs hfits (hleft.twins hsame)
  exact ⟨answers, u, u', hu, hu'⟩

/-- Two areas are allocated side by side. -/
def pairRun : List Deed :=
  [.found Setting.small.window, .act 0 (.request (.allocate 5000 .kernelHigh .pageKernel)),
    .act 0 (.request (.allocate 9000 .kernelHigh .pageKernel))]

/-- Both are given back. The next frame that is taken is then another, and no query can tell. -/
theorem pair_run_releases_commute : ∃ t v s s' answers u u', small.Proper pairRun ∧
    small.run pairRun = t ∧ t.tenant? 0 = some v ∧
    (do v.allocator.free ⟨0x10000⟩; v.allocator.free ⟨0x13000⟩ : Job Unit).run (t.shared v) = .ok () s ∧
    (do v.allocator.free ⟨0x13000⟩; v.allocator.free ⟨0x10000⟩ : Job Unit).run (t.shared v) = .ok () s' ∧
    s.machine.pool.free ≠ s'.machine.pool.free ∧ s.Meets v.allocator s' ∧
    ([Query.reserve 0x2000 .borrowed, .mapFrames [.containing ⟨0x7000⟩] .pageKernel].mapM
      (Query.job v.allocator)).run s = .ok answers u ∧
    ([Query.reserve 0x2000 .borrowed, .mapFrames [.containing ⟨0x7000⟩] .pageKernel].mapM
      (Query.job v.allocator)).run s' = .ok answers u' := by
  have hproper : small.Proper pairRun := by decide +kernel
  have hleases : (small.run pairRun).leases 0 = [(.got .free, ⟨0x13000⟩), (.got .free, ⟨0x10000⟩)] := by
    decide +kernel
  have hfirst : (small.run pairRun).answers 0 (fun a => do a.free ⟨0x10000⟩; a.free ⟨0x13000⟩)
      (fun _ _ s => s.machine.pool.free.head? = some 8) = true := by decide +kernel
  have hsecond : (small.run pairRun).answers 0 (fun a => do a.free ⟨0x13000⟩; a.free ⟨0x10000⟩)
      (fun _ _ s => s.machine.pool.free.head? = some 2) = true := by decide +kernel
  obtain ⟨t, ht⟩ : ∃ t, small.run pairRun = t := ⟨_, rfl⟩
  rw [ht] at hleases hfirst hsecond
  obtain ⟨v, _, s, hv, hrun, hhead⟩ := exists_of_answers hfirst
  obtain ⟨w, _, s', hw, hrun', hhead'⟩ := exists_of_answers hsecond
  obtain rfl := Option.some.inj (hv.symm.trans hw)
  have hlow : (Title.got .free, VirtAddr.mk 0x10000) ∈ t.leases 0 := by simp [hleases]
  have hhigh : (Title.got .free, VirtAddr.mk 0x13000) ∈ t.leases 0 := by simp [hleases]
  obtain ⟨s₁, s₁', hs, hs', hmeets, hanswers⟩ :=
    run_releases_commute (by decide) hproper ht hv hlow hhigh (by decide)
  obtain ⟨-, rfl⟩ := EStateM.Result.ok.inj (hrun.symm.trans hs)
  obtain ⟨-, rfl⟩ := EStateM.Result.ok.inj (hrun'.symm.trans hs')
  obtain ⟨answers, u, u', hu, hu'⟩ :=
    hanswers [.reserve 0x2000 .borrowed, .mapFrames [.containing ⟨0x7000⟩] .pageKernel] (by decide)
  refine ⟨t, v, s, s', answers, u, u', hproper, ht, hv, hs, hs', fun heq => ?_, hmeets, hu, hu'⟩
  rw [heq, of_decide_eq_true hhead'] at hhead
  cases of_decide_eq_true hhead

end Hosting

end PagedMemory
