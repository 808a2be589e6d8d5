import Mathlib.Tactic
import PagedMemory.Proofs.Census
import PagedMemory.Proofs.Sessions

/-!
# Every frame has one owner

What the books say of a session, told in terms of what can be looked up: the tables that a census
finds, the handles that areas keep, and the answers of translations.

* `Area.ownFrames`: the frames that an area has handles of, as it reads them.
* `Allocator.whereIs`: where an address is mapped, as a translation answers.
* `Session.Balanced`: the frames in use are those of the client, of the tables and of the areas, each
  once, and allocated areas are mapped to their frames.
* `Setting.run_balanced`: this is so after every proper run.
-/

namespace PagedMemory

open Layout Tables

/-! ## Looking things up -/

/-- The frames of an area, read off its handles. -/
def Area.ownFrames (m : Machine) (area : Area) : List PageFrame :=
  match area.handles.toList area.pageCount m with
  | .ok frames _ => frames
  | .error _ _ => []

/-- What the allocator answers when asked to translate an address. -/
def Allocator.whereIs (a : Allocator) (s : Shared) (x : VirtAddr) :
    Except Fault (Option PhysAddr) :=
  match (a.translate x).run s with
  | .ok answer _ => .ok answer
  | .error e _ => .error e

section

variable {a : Allocator} {m : Machine} {s : Shared} {p : Pool} {r : Registry}
  {loose : List PageFrame} {chains : List (List Holding)} {chain : List Holding} {h : Holding}
  {x : VirtAddr}

/-- A translation does nothing. -/
theorem Allocator.translate_run (hs : Tables.Sound s.machine.pool a.root) (x : VirtAddr) :
    ∃ s', (a.translate x).run s = .ok (target s.machine.pool a.root x) s' ∧
      s'.machine.pool = s.machine.pool := by
  have hdoes : Does s.machine.backdrop (Walk.translate a.root x) s.machine.pool _ :=
    translate_does hs.formed x
  obtain ⟨answer, m, hrun, -, rfl, hpool⟩ := hdoes.exists_ok (s := s.machine) rfl rfl
  refine ⟨⟨m, s.registry⟩, ?_, hpool⟩
  rw [translate, onMachine, Routine.run_atomically]
  simp only [Shared.onMachine, hrun]

theorem Allocator.whereIs_eq (hs : Tables.Sound s.machine.pool a.root) (x : VirtAddr) :
    a.whereIs s x = .ok (target s.machine.pool a.root x) := by
  obtain ⟨s', hrun, -⟩ := a.translate_run hs x
  simp only [whereIs, hrun]

/-- What a chain says of each of its holdings. -/
theorem Chained.holds (hchain : Chained p chain) (hh : h ∈ chain) :
    h.area.pageCount = h.frames.length ∧ h.area.handles.Holds p h.frames ∧
      ∀ b ∈ h.area.handles.backing, b ∈ chain.flatMap Holding.frames := by
  induction chain with
  | nil => cases hh
  | cons y rest ih =>
    obtain ⟨hcount, hholds, hrests, hrest⟩ := hchain
    rcases List.mem_cons.1 hh with rfl | hh
    · exact ⟨hcount, hholds, fun b hb => List.mem_append_right _ (hrests.subset b hb)⟩
    · obtain ⟨hcount', hholds', hbacking⟩ := ih hrest hh
      exact ⟨hcount', hholds', fun b hb => List.mem_append_right _ (hbacking b hb)⟩

theorem World.ownFrames_eq (hw : World a m.pool r loose chains) (hc : chain ∈ chains)
    (hh : h ∈ chain) : h.area.ownFrames m = h.frames := by
  obtain ⟨hcount, hholds, hbacking⟩ := (hw.chained chain hc).holds hh
  have hhas : ∀ b ∈ h.area.handles.backing, m.pool.Has b := by
    intro b hb
    obtain ⟨y, hy, hby⟩ := List.mem_flatMap.1 (hbacking b hb)
    refine Pool.has_of_isTaken (hw.isTaken (List.mem_append_right _ ?_))
    exact List.mem_flatMap.2 ⟨y, List.mem_flatten.2 ⟨chain, hc, hy⟩, hby⟩
  have hlist : Does m.backdrop (h.area.handles.toList h.frames.length) m.pool fun frames q =>
      frames = h.frames ∧ q = m.pool := HandleArray.toList_does hholds hhas
  obtain ⟨frames, m', hrun, -, rfl, -⟩ := hlist.exists_ok (s := m) rfl rfl
  simp only [Area.ownFrames, hcount, hrun]

/-- The areas own what their holdings say. -/
theorem World.flatMap_ownFrames (hw : World a m.pool r loose chains) :
    (r.areas.flatMap (·.ownFrames m)).Perm (heldBy chains) := by
  refine (hw.listed.flatMap_right _).trans (List.Perm.of_eq ?_)
  rw [areasOf, List.flatMap_map, heldBy]
  refine List.flatMap_congr fun h hh => ?_
  obtain ⟨chain, hc, hh⟩ := List.mem_flatten.1 hh
  exact hw.ownFrames_eq hc hh

/-- Each area of the registry is one of the books. -/
theorem World.exists_holding (hw : World a p r loose chains) {area : Area} (harea : area ∈ r.areas) :
    ∃ chain ∈ chains, ∃ h ∈ chain, h.area = area :=
  mem_areasOf.1 (hw.listed.mem_iff.1 harea)

/-- An area has all the handles that it should. -/
theorem World.length_ownFrames (hw : World a m.pool r loose chains) {area : Area}
    (harea : area ∈ r.areas) : (area.ownFrames m).length = area.pageCount := by
  obtain ⟨chain, hc, h, hh, rfl⟩ := hw.exists_holding harea
  rw [hw.ownFrames_eq hc hh]
  exact ((hw.chained chain hc).holds hh).1.symm

/-- The addresses of an area are mapped to the frames that back it. -/
theorem Backed.whereIs {b i : Nat} {f : PageFrame} (hb : Backed s.machine.pool a.root h)
    (hs : Tables.Sound s.machine.pool a.root) (harea : h.area.Within b) (hf : h.frames[i]? = some f)
    (hlow : h.area.address.val.toNat + i * 4096 ≤ x.val.toNat)
    (hhigh : x.val.toNat < h.area.address.val.toNat + (i + 1) * 4096) :
    a.whereIs s x = .ok (some (f.byteFor x)) := by
  rw [Allocator.whereIs_eq hs, hb.target harea hf hlow hhigh]

end

/-! ## Balance -/

namespace Session

variable {a : Allocator} {t : Session} {chains : List (List Holding)}

/-- All frames that have an owner: those that the client took, the tables of the tree, and those that
the areas have handles of. A frame is listed once for each way in which it is owned. -/
def owners (a : Allocator) (t : Session) : List PageFrame :=
  t.frames ++ Tables.all t.machine.pool a.root ++ t.registry.areas.flatMap (·.ownFrames t.machine)

/-- Nothing is lost, and nothing is owned twice. -/
structure Balanced (a : Allocator) (t : Session) : Prop where
  /-- no frame is owned in two ways -/
  nodup : (t.owners a).Nodup
  /-- the frames in use are those with an owner -/
  taken : ∀ f, t.machine.pool.isTaken f = true ↔ f ∈ t.owners a
  /-- an area has all the handles that it should -/
  counted : ∀ area ∈ t.registry.areas, (area.ownFrames t.machine).length = area.pageCount
  /-- areas over memory of others own nothing -/
  foreign : ∀ area ∈ t.registry.areas, area.kind ≠ .allocated → area.pageCount = 0
  /-- an allocated area has a frame for each page but the guard page -/
  pages : ∀ area ∈ t.registry.areas, area.kind = .allocated →
    area.pageCount = (area.size.toNat - 4096) / 4096
  /-- and its pages are mapped to its frames, in order -/
  mapped : ∀ area ∈ t.registry.areas, area.kind = .allocated → ∀ (i : Nat) (f : PageFrame),
    (area.ownFrames t.machine)[i]? = some f → ∀ x : VirtAddr,
      area.address.val.toNat + i * 4096 ≤ x.val.toNat →
      x.val.toNat < area.address.val.toNat + (i + 1) * 4096 →
      a.whereIs t.shared x = .ok (some (f.byteFor x))

theorem owners_perm (hw : World a t.machine.pool t.registry t.frames chains) :
    (t.owners a).Perm (owned t.frames chains ++ Tables.all t.machine.pool a.root) := by
  rw [owners, owned, List.append_assoc, List.append_assoc]
  exact (List.perm_append_comm.trans (hw.flatMap_ownFrames.append_right _)).append_left _

theorem nodup_owners (hw : World a t.machine.pool t.registry t.frames chains) :
    (t.owners a).Nodup := by
  rw [(owners_perm hw).nodup_iff, List.nodup_append']
  refine ⟨hw.nodup, hw.tables.nodup_all, List.disjoint_left.2 fun f hf htable => ?_⟩
  exact hw.apart f hf (mem_all_iff.1 htable)

theorem isTaken_iff_mem_owners (hw : World a t.machine.pool t.registry t.frames chains)
    (f : PageFrame) : t.machine.pool.isTaken f = true ↔ f ∈ t.owners a := by
  rw [(owners_perm hw).mem_iff, List.mem_append, mem_all_iff]
  exact hw.taken f

/-- Books that are kept are balanced. -/
theorem Kept.balanced (h : t.Kept a chains) : t.Balanced a := by
  have hw := h.world
  have hholding : ∀ area ∈ t.registry.areas, ∃ chain ∈ chains, ∃ x ∈ chain, x.area = area :=
    fun area harea => hw.exists_holding harea
  refine ⟨nodup_owners hw, isTaken_iff_mem_owners hw, fun area harea => hw.length_ownFrames harea,
    fun area harea hkind => ?_, fun area harea hkind => ?_,
    fun area harea hkind i f hf x => ?_⟩
  · obtain ⟨chain, hc, y, hy, rfl⟩ := hholding area harea
    obtain ⟨g, -, hgranted⟩ := exists_granted h.granted hc
    rw [((hw.chained chain hc).holds hy).1, hgranted.frames_eq_nil hy hkind]
    rfl
  · obtain ⟨chain, hc, y, hy, rfl⟩ := hholding area harea
    have hbacked := h.backed chain hc y hy hkind
    rw [((hw.chained chain hc).holds hy).1, hbacked.count, (hw.within harea).size_eq]
    omega
  · obtain ⟨chain, hc, y, hy, rfl⟩ := hholding area harea
    rw [hw.ownFrames_eq hc hy] at hf
    exact (h.backed chain hc y hy hkind).whereIs hw.tables (hw.within harea) hf

end Session

namespace Setting

variable {s : Setting} {a : Allocator} {t : Session} {calls : List Call}

/-- Whatever is asked of an allocator, and whenever frames run out: no call faults, and in every state
that is reached every frame in use has one owner. -/
theorem run_balanced (h : s.start = .ok (.ok (a, t))) (hproper : t.Proper a calls) :
    ∃ u, t.run a calls = .ok u ∧ u.Balanced a := by
  obtain ⟨u, chains, hrun, hkept⟩ := run_kept h hproper
  exact ⟨u, hrun, hkept.balanced⟩

theorem small_run_balanced : ∃ a t, small.start = .ok (.ok (a, t)) ∧ t.Proper a smallRun ∧
    ∃ u, t.run a smallRun = .ok u ∧ u.Balanced a := by
  have hopens : small.opens (fun a t => decide (t.Proper a smallRun)) = true := by decide +kernel
  obtain ⟨a, t, hstart, hproper⟩ := exists_of_opens hopens
  have hproper := of_decide_eq_true hproper
  exact ⟨a, t, hstart, hproper, run_balanced hstart hproper⟩

end Setting

end PagedMemory
