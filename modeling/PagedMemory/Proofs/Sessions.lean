import Mathlib.Tactic
import PagedMemory.Proofs.Clients

/-!
# Sessions

A session is what goes on between one client and one allocator, from the moment at which the
allocator is made: requests, releases, and whatever the client does with the pool itself.

* `Request`, `Call`: what the client can ask for. `Session.Allows`: what it may ask for, by the rules
  that an allocator relies on.
* `Session.step`, `Session.run`: one call, and a run of calls. `Session.Proper`: a run in which the
  client keeps the rules.
* `Setting`: how a session begins. `Setting.start`: the session's first state.
* `Session.Kept`: the invariant. Each thing that the client has got is a chain on the books.
* `Session.Kept.run`: no proper run faults, and the books are kept all along.
-/

namespace PagedMemory

open Layout Tables

/-! ## What clients ask for -/

/-- What a client can ask an allocator for. `Allocator.allocateData`, `Allocator.allocateCode` and
`Allocator.allocateLow` are `allocate` with a policy and a protection of their own. -/
inductive Request where
  | allocate (size : UInt64) (policy : FramePolicy) (prot : Entry)
  | mapFrames (frames : List PageFrame) (prot : Entry)
  | mapDevice (device : PhysAddr) (size : UInt64) (prot : Entry)

namespace Request

def job (a : Allocator) : Request → Job (Except AllocError VirtAddr)
  | allocate size policy prot => a.allocate size policy prot
  | mapFrames frames prot => a.mapFrames frames prot
  | mapDevice device size prot => a.mapDevice device size prot

/-- The call by which the client gives back what it got. -/
def release : Request → ReleaseCall
  | allocate _ _ _ => .free
  | mapFrames _ _ => .unmapFrames
  | mapDevice _ _ _ => .unmapDevice

/-- All frames to be mapped have numbers that fit in entries. -/
def Fits : Request → Prop
  | allocate _ _ _ => True
  | mapFrames frames _ => ∀ f ∈ frames, f.base.val.toNat < 2 ^ 52
  | mapDevice device size _ => ∀ range ∈ Allocator.deviceFrames? device size, range.2.toNat ≤ 2 ^ 52

instance (q : Request) : Decidable q.Fits := by
  cases q <;> unfold Fits <;> infer_instance

end Request

def ReleaseCall.job (a : Allocator) (x : VirtAddr) : ReleaseCall → Job Unit
  | free => a.free x
  | unmapFrames => a.unmapFrames x
  | unmapDevice => a.unmapDevice x

/-- A call of a client. -/
inductive Call where
  | request (q : Request)
  | release (call : ReleaseCall) (x : VirtAddr)
  /-- past the allocator -/
  | frames (call : FrameCall)

/-! ## Sessions -/

structure Session extends Client where
  registry : Registry
  /-- what the client has got and not given back, with the call that gives it back -/
  live : List (ReleaseCall × VirtAddr)

namespace Session

def shared (t : Session) : Shared := ⟨t.machine, t.registry⟩

/-- The session in which the allocator has done something. -/
def withShared (t : Session) (s : Shared) (live : List (ReleaseCall × VirtAddr)) : Session :=
  ⟨⟨s.machine, t.frames⟩, s.registry, live⟩

def step (a : Allocator) (t : Session) : Call → Except Fault Session
  | .request q =>
    match (q.job a).run t.shared with
    | .ok (.ok x) s => .ok (t.withShared s ((q.release, x) :: t.live))
    | .ok (.error _) s => .ok (t.withShared s t.live)
    | .error e _ => .error e
  | .release call x =>
    match (call.job a x).run t.shared with
    | .ok _ s => .ok (t.withShared s (t.live.erase (call, x)))
    | .error e _ => .error e
  | .frames call =>
    match t.toClient.step call with
    | .ok client => .ok ⟨client, t.registry, t.live⟩
    | .error e => .error e

/-- The rules: a client asks for frames that entries can point to, and gives back what it has got,
by the matching call. -/
def Allows (t : Session) : Call → Prop
  | .request q => q.Fits
  | .release call x => (call, x) ∈ t.live
  | .frames call => t.toClient.Allows call

instance (t : Session) (c : Call) : Decidable (t.Allows c) := by
  cases c <;> unfold Allows <;> infer_instance

def run (a : Allocator) (t : Session) : List Call → Except Fault Session
  | [] => .ok t
  | c :: calls =>
    match t.step a c with
    | .ok u => run a u calls
    | .error e => .error e

/-- The client keeps the rules all along. -/
def Proper (a : Allocator) (t : Session) : List Call → Prop
  | [] => True
  | c :: calls => t.Allows c ∧ match t.step a c with
    | .ok u => Proper a u calls
    | .error _ => True

/-- Whether the client keeps the rules can be found out by running the calls. -/
instance decidableProper (a : Allocator) : (t : Session) → (calls : List Call) →
    Decidable (t.Proper a calls)
  | _, [] => isTrue trivial
  | t, c :: calls =>
    have : Decidable (match t.step a c with
        | .ok u => Proper a u calls
        | .error _ => True) :=
      match t.step a c with
      | .ok u => decidableProper a u calls
      | .error _ => isTrue trivial
    inferInstanceAs (Decidable (t.Allows c ∧ _))

end Session

/-! ## The beginning -/

/-- How a session begins: with a new pool, of which the client may have taken frames before it made
the allocator. Addresses in the window belong to one root, and 0 is none of them. -/
structure Setting where
  base : PageFrame
  count : Nat
  front : Front
  before : List FrameCall
  window : Window
  /-- the frames of the pool have numbers that fit in entries -/
  below : base.base.val.toNat + count * 4096 ≤ 2 ^ 52
  nonzero : 0 < window.range.start.val.toNat
  /-- the window does not reach into the next block of `2 ^ 48` addresses -/
  oneBlock : window.range.stop.val.toNat ≤ (window.range.start.val.toNat / 2 ^ 48 + 1) * 2 ^ 48

/-- The allocator and the session that begins with it, if there is a frame for its root. -/
def Setting.start (s : Setting) : Except Fault (Except AllocError (Allocator × Session)) := do
  let client ← (Client.create s.base s.count s.front).run s.before
  match Allocator.create s.window client.machine with
  | .ok (.ok a) machine => return .ok (a, ⟨⟨machine, client.frames⟩, Registry.empty, []⟩)
  | .ok (.error e) _ => return .error e
  | .error e _ => throw e

/-! ## What stands behind an address -/

/-- Behind an address that the client has got stands a chain of areas that own their frames, or one
area over memory of others. -/
inductive Granted : ReleaseCall → VirtAddr → List Holding → Prop
  | allocated {h : Holding} {rest : List Holding}
      (kinds : ∀ x ∈ h :: rest, x.area.kind = .allocated) : Granted .free h.area.address (h :: rest)
  | borrowed {h : Holding} (kind : h.area.kind = .borrowed) (frames : h.frames = []) :
      Granted .unmapFrames h.area.address [h]
  | device {h : Holding} {x : VirtAddr} (start : h.area.address = x.pageBase)
      (kind : h.area.kind = .device) (frames : h.frames = []) : Granted .unmapDevice x [h]

/-- The frames that a request maps but does not take from the pool. -/
def Request.lent : Request → List PageFrame
  | allocate _ _ _ => []
  | mapFrames frames _ => frames
  | mapDevice device size _ => deviceFrames device size

section

variable {a : Allocator} {T : Terms} {front : Front} {p q : Pool} {r : Registry}
  {loose : List PageFrame} {chains : List (List Holding)} {chain : List Holding} {h : Holding}
  {x : VirtAddr} {call : ReleaseCall} {req : Request}

/-- The allocated areas of a chain are mapped to their frames. -/
def AllBacked (p : Pool) (root : PageFrame) (chain : List Holding) : Prop :=
  ∀ h ∈ chain, h.area.kind = .allocated → Backed p root h

/-- Areas of other kinds own nothing. -/
theorem Granted.frames_eq_nil (hg : Granted call x chain) (hh : h ∈ chain)
    (hkind : h.area.kind ≠ .allocated) : h.frames = [] := by
  cases hg with
  | allocated kinds => exact absurd (kinds h hh) hkind
  | borrowed kind frames =>
    obtain rfl := List.mem_singleton.1 hh
    exact frames
  | device start kind frames =>
    obtain rfl := List.mem_singleton.1 hh
    exact frames

theorem World.allBacked_of_spares {e : Estate} (hw : World a p r loose chains)
    (hspares : Spares a e p q) (hc : chain ∈ chains) (hc' : chain ∈ e.chains)
    (hb : AllBacked p a.root chain) : AllBacked q a.root chain := by
  intro h hh hkind
  refine (hb h hh hkind).of_leaf fun n hn => ?_
  exact hspares.leaf n ((hw.within (hw.mem_areas hc hh)).covers_lt hn)
    ⟨h.area, mem_areasOf.2 ⟨chain, hc', h, hh, rfl⟩, hn⟩

/-- What an answered request brings: allocated areas that are mapped to frames of their own, or an
area that is mapped to frames of the request. -/
structure Brings (a : Allocator) (req : Request) (x : VirtAddr) (chain : List Holding) (q : Pool) :
    Prop where
  granted : Granted req.release x chain
  start_le : req.release = .free → a.window.range.start.val ≤ x.val
  settled : ∀ h ∈ chain, h.area.kind = .allocated → Settled q a.root h
  foreign : ∀ h ∈ chain, h.area.kind ≠ .allocated → h.ShowsOf q a.root req.lent

theorem Borrows.brings {kind : AreaKind} {start : VirtAddr → VirtAddr} {e : Estate}
    (hborrows : Borrows a kind start req.lent (.ok x) e q) (hkind : kind ≠ .allocated)
    (hgranted : ∀ h : Holding, h.area.address = start x → h.area.kind = kind → h.frames = [] →
      Granted req.release x [h]) (hcall : req.release ≠ .free) :
    ∃ chain, e = .ofChain chain ∧ Brings a req x chain q := by
  obtain ⟨h, hstart, rfl, hframes, rfl, hshows⟩ := hborrows
  refine ⟨[h], rfl, hgranted h hstart rfl hframes, fun hfree => absurd hfree hcall,
    fun y hy hy' => ?_, fun y hy _ => ?_⟩
  · obtain rfl := List.mem_singleton.1 hy
    exact absurd hy' hkind
  · obtain rfl := List.mem_singleton.1 hy
    exact hshows

/-- A request brings a chain, or nothing. -/
theorem Request.job_behaves (hfits : T = .lenient ∨ req.Fits) :
    Behaves a T (req.job a) ∅ p fun answer e q =>
      match answer with
      | .error _ => e = ∅
      | .ok x => ∃ chain, e = .ofChain chain ∧ Brings a req x chain q := by
  cases req with
  | allocate size policy prot =>
    refine (allocate_behaves size policy prot).imp ?_
    rintro answer e q hq
    cases answer with
    | error _ => exact hq
    | ok x =>
      obtain ⟨h, tail, rfl, hstart, rfl, hsettled, -⟩ := hq
      exact ⟨_, rfl, .allocated fun y hy => (hsettled y hy).kind, fun _ => hstart,
        fun y hy _ => hsettled y hy, fun y hy hkind => absurd (hsettled y hy).kind hkind⟩
  | mapFrames frames prot =>
    refine (mapFrames_behaves hfits).imp ?_
    rintro answer e q hq
    cases answer with
    | error _ => exact hq
    | ok x => exact hq.brings (by decide) (by rintro h rfl; exact .borrowed) nofun
  | mapDevice device size prot =>
    refine (mapDevice_behaves hfits).imp ?_
    rintro answer e q hq
    cases answer with
    | error _ => exact hq
    | ok x => exact hq.brings (by decide) (fun h => .device) nofun

/-- What was got is given back as a whole. -/
theorem ReleaseCall.job_behaves (hg : Granted call x chain) (hne : call = .free → x.val ≠ 0)
    (hwithin : ∀ h ∈ chain, h.area.Within a.block) (hshows : ∀ h ∈ chain, T.Shows p a.root h) :
    Behaves a T (call.job a x) (.ofChain chain) p fun _ e _ => e = ∅ := by
  cases hg with
  | allocated kinds =>
    exact free_behaves (hwithin _ List.mem_cons_self) (hne rfl) (List.forall_mem_cons.1 hshows).2
  | borrowed kind frames =>
    refine (unmapFrames_behaves (hwithin _ List.mem_cons_self)).imp fun _ _ _ he => ?_
    exact he.trans (Estate.detached_eq_empty frames)
  | device start kind frames =>
    exact (unmapDevice_behaves start).imp fun _ _ _ he => he.trans (Estate.detached_eq_empty frames)

/-- What an answered request shows is its own, or was lent for it. -/
theorem Brings.shows (hb : Brings a req x chain q)
    (hlent : ∀ foreign, T = .watched foreign → ∀ f ∈ req.lent, foreign f) :
    ∀ h ∈ chain, T.Shows q a.root h := by
  intro h hh
  by_cases hkind : h.area.kind = .allocated
  · exact (hb.settled h hh hkind).shows
  · exact fun foreign hT n _ hcovers hmapped =>
      Or.inr (hlent foreign hT _ (hb.foreign h hh hkind n hcovers hmapped))

/-- A client that is alone: a request is answered, and leaves everything else as it was. -/
theorem Request.job_answers {s : Shared} (hT : T ≠ .lenient)
    (hw : World a s.machine.pool s.registry loose chains)
    (hrelies : T.Relies a s.machine.pool s.machine.notes ⟨loose, chains⟩) (hfits : req.Fits) :
    ∃ answer s', (req.job a).run s = .ok answer s' ∧
      Spares a ⟨loose, chains⟩ s.machine.pool s'.machine.pool ∧
      T.Relies a s'.machine.pool s'.machine.notes ⟨loose, chains⟩ ∧
      match answer with
      | .error _ => World a s'.machine.pool s'.registry loose chains
      | .ok x => ∃ chain, Brings a req x chain s'.machine.pool ∧
          World a s'.machine.pool s'.registry loose (chain :: chains) := by
  have hbooks : Books a s.machine.pool s.registry (∅ ++ ⟨loose, chains⟩) := hw
  obtain ⟨answer, s', hrun, mine, hpasses, hpost⟩ :=
    (Request.job_behaves (Or.inr hfits)).answers hT hbooks hrelies
  refine ⟨answer, s', hrun, hpasses.spares, hpasses.relies hrelies, ?_⟩
  cases answer with
  | error e =>
    obtain rfl := hpost
    exact hpasses.books
  | ok x =>
    obtain ⟨chain, rfl, hbrings⟩ := hpost
    exact ⟨chain, hbrings, books_ofChain.1 hpasses.books⟩

end

/-! ## The invariant -/

namespace Session

variable {a : Allocator} {T : Terms} {t u : Session} {chains : List (List Holding)} {c : Call}

/-- The books of a session: for everything that the client has got there is a chain, and the frames
that it took itself are loose. -/
structure Kept (a : Allocator) (t : Session) (chains : List (List Holding)) : Prop where
  world : World a t.machine.pool t.registry t.frames chains
  granted : List.Forall₂ (fun g chain => Granted g.1 g.2 chain) t.live chains
  nonzero : ∀ x, (ReleaseCall.free, x) ∈ t.live → x.val ≠ 0
  backed : ∀ chain ∈ chains, AllBacked t.machine.pool a.root chain

/-- What is given back is taken off both lists. -/
theorem exists_chain {live : List (ReleaseCall × VirtAddr)} {g : ReleaseCall × VirtAddr}
    (h : List.Forall₂ (fun g chain => Granted g.1 g.2 chain) live chains) (hg : g ∈ live) :
    ∃ chain chains', Granted g.1 g.2 chain ∧ chains.Perm (chain :: chains') ∧
      List.Forall₂ (fun g chain => Granted g.1 g.2 chain) (live.erase g) chains' := by
  induction h with
  | nil => cases hg
  | @cons g' chain live chains hhead htail ih =>
    by_cases he : g' = g
    · subst he
      exact ⟨chain, chains, hhead, List.Perm.refl _, by simpa using htail⟩
    · obtain ⟨chain', chains', hgranted, hperm, hrest⟩ :=
        ih ((List.mem_cons.1 hg).resolve_left (Ne.symm he))
      refine ⟨chain', chain :: chains', hgranted,
        (hperm.cons chain).trans (List.Perm.swap _ _ _), ?_⟩
      rw [List.erase_cons_tail (by simpa using he)]
      exact .cons hhead hrest

/-- No chain is on the books without reason. -/
theorem exists_granted {live : List (ReleaseCall × VirtAddr)} {chain : List Holding}
    (h : List.Forall₂ (fun g chain => Granted g.1 g.2 chain) live chains) (hc : chain ∈ chains) :
    ∃ g ∈ live, Granted g.1 g.2 chain := by
  induction h with
  | nil => cases hc
  | @cons g chain' live chains hhead _ ih =>
    rcases List.mem_cons.1 hc with rfl | hc
    · exact ⟨g, List.mem_cons_self, hhead⟩
    · obtain ⟨g', hg', hgranted⟩ := ih hc
      exact ⟨g', List.mem_cons_of_mem g hg', hgranted⟩

namespace Kept

theorem step_request (hT : T ≠ .lenient) (hstart : 0 < a.window.range.start.val.toNat)
    (h : t.Kept a chains)
    (hrelies : T.Relies a t.machine.pool t.machine.notes ⟨t.frames, chains⟩) {req : Request}
    (hfits : req.Fits) (hlent : ∀ foreign, T = .watched foreign → ∀ f ∈ req.lent, foreign f) :
    ∃ u chains', t.step a (.request req) = .ok u ∧ u.frames = t.frames ∧ u.Kept a chains' ∧
      T.Relies a u.machine.pool u.machine.notes ⟨t.frames, chains'⟩ := by
  obtain ⟨answer, s, hrun, hspares, hrelies', hpost⟩ :=
    Request.job_answers (s := t.shared) hT h.world hrelies hfits
  have hbacked : ∀ chain ∈ chains, AllBacked s.machine.pool a.root chain := fun chain hc =>
    h.world.allBacked_of_spares hspares hc hc (h.backed chain hc)
  cases answer with
  | error e =>
    exact ⟨t.withShared s t.live, chains, by simp only [step, hrun], rfl,
      ⟨hpost, h.granted, h.nonzero, hbacked⟩, hrelies'⟩
  | ok x =>
    obtain ⟨chain, hbrings, hw⟩ := hpost
    have hnonzero : ∀ y, (ReleaseCall.free, y) ∈ (req.release, x) :: t.live → y.val ≠ 0 := by
      intro y hy
      rcases List.mem_cons.1 hy with he | hy
      · obtain ⟨hcall, rfl⟩ := Prod.mk.inj he
        have hle := UInt64.le_iff_toNat_le.1 (hbrings.start_le hcall.symm)
        intro hzero
        rw [hzero] at hle
        exact absurd (Nat.lt_of_lt_of_le hstart hle) (Nat.lt_irrefl 0)
      · exact h.nonzero y hy
    refine ⟨t.withShared s ((req.release, x) :: t.live), chain :: chains,
      by simp only [step, hrun], rfl, ⟨hw, .cons hbrings.granted h.granted, hnonzero, ?_⟩, ?_⟩
    · exact List.forall_mem_cons.2 ⟨fun y hy hkind => (hbrings.settled y hy hkind).backed, hbacked⟩
    · exact hrelies'.of_chains (List.forall_mem_cons.2
        ⟨Or.inr (hbrings.shows hlent), fun c hc => Or.inl hc⟩)

/-- What the client has got is a chain on the books, and is given back as a whole. -/
theorem release_behaves (h : t.Kept a chains)
    (hrelies : T.Relies a t.machine.pool t.machine.notes ⟨t.frames, chains⟩) {call : ReleaseCall}
    {x : VirtAddr} (hlive : (call, x) ∈ t.live) :
    ∃ chain chains', chains.Perm (chain :: chains') ∧
      List.Forall₂ (fun g chain => Granted g.1 g.2 chain) (t.live.erase (call, x)) chains' ∧
      Behaves a T (call.job a x) (.ofChain chain) t.machine.pool (fun _ e _ => e = ∅) ∧
      Books a t.machine.pool t.registry (.ofChain chain ++ ⟨t.frames, chains'⟩) ∧
      T.Relies a t.machine.pool t.machine.notes ⟨t.frames, chains'⟩ := by
  obtain ⟨chain, chains', hgranted, hperm, hrest⟩ := exists_chain h.granted hlive
  have hw := h.world.perm (List.Perm.refl _) hperm
  have hne : call = .free → x.val ≠ 0 := by
    rintro rfl
    exact h.nonzero x hlive
  have hmem : ∀ c ∈ chain :: chains', c ∈ chains := fun c => hperm.mem_iff.2
  refine ⟨chain, chains', hperm, hrest, ReleaseCall.job_behaves hgranted hne
    (fun y hy => hw.within (hw.mem_areas List.mem_cons_self hy)) fun y hy foreign hT => ?_,
    books_ofChain.2 hw, hrelies.of_chains fun c hc => Or.inl (hmem c (List.mem_cons_of_mem _ hc))⟩
  exact (hrelies foreign hT).shows chain (hmem chain List.mem_cons_self) y hy

theorem step_release (hT : T ≠ .lenient) (h : t.Kept a chains)
    (hrelies : T.Relies a t.machine.pool t.machine.notes ⟨t.frames, chains⟩) {call : ReleaseCall}
    {x : VirtAddr} (hlive : (call, x) ∈ t.live) :
    ∃ u chains', t.step a (.release call x) = .ok u ∧ u.frames = t.frames ∧ u.Kept a chains' ∧
      T.Relies a u.machine.pool u.machine.notes ⟨t.frames, chains'⟩ := by
  obtain ⟨chain, chains', hperm, hrest, hjob, hbooks, hrelies'⟩ := h.release_behaves hrelies hlive
  obtain ⟨_, s, hrun, mine, hpasses, rfl⟩ := hjob.answers (s := t.shared) hT hbooks hrelies'
  -- the chains that are left were on the books before, and have been spared
  refine ⟨t.withShared s (t.live.erase (call, x)), chains', by simp only [step, hrun], rfl,
    ⟨hpasses.books, hrest, fun y hy => h.nonzero y (List.mem_of_mem_erase hy), fun c hc => ?_⟩,
    hpasses.relies hrelies'⟩
  have hmem : c ∈ chains := hperm.mem_iff.2 (List.mem_cons_of_mem _ hc)
  exact h.world.allBacked_of_spares hpasses.spares hmem hc (h.backed c hmem)

theorem step_frames (h : t.Kept a chains) {call : FrameCall} (hallowed : t.toClient.Allows call) :
    ∃ u, t.step a (.frames call) = .ok u ∧ u.Kept a chains ∧
      Client.Moved t.toClient u.toClient call ∧
      Keeps a.root (fun _ => True) (· ∈ heldBy chains) t.machine.pool u.machine.pool := by
  -- what the client may give back is loose, and so in use
  have htaken : ∀ f, call = .giveBack f → t.machine.pool.isTaken f = true := by
    rintro f rfl
    exact h.world.isTaken (List.mem_append_left _ hallowed)
  obtain ⟨client, hclient, hmoved⟩ := Client.step_ends h.world.pool htaken
  obtain ⟨hw, hkeeps⟩ := h.world.moved hallowed hmoved
  have hspares : Spares a ⟨[], chains⟩ t.machine.pool client.machine.pool :=
    hkeeps.mono (fun _ _ => trivial) fun _ hf => hf
  exact ⟨⟨client, t.registry, t.live⟩, by simp only [step, hclient],
    ⟨hw, h.granted, h.nonzero, fun chain hc =>
      h.world.allBacked_of_spares hspares hc hc (h.backed chain hc)⟩, hmoved, hkeeps⟩

/-- A call that is allowed ends without a fault, and the books are kept. -/
theorem step (hstart : 0 < a.window.range.start.val.toNat) (h : t.Kept a chains)
    (hc : t.Allows c) : ∃ u chains', t.step a c = .ok u ∧ u.Kept a chains' := by
  cases c with
  | request req =>
    obtain ⟨u, chains', hstep, -, hkept, -⟩ :=
      h.step_request (T := .strict) nofun hstart nofun hc nofun
    exact ⟨u, chains', hstep, hkept⟩
  | release call x =>
    obtain ⟨u, chains', hstep, -, hkept, -⟩ := h.step_release (T := .strict) nofun nofun hc
    exact ⟨u, chains', hstep, hkept⟩
  | frames call =>
    obtain ⟨u, hstep, hkept, -, -⟩ := h.step_frames hc
    exact ⟨u, chains, hstep, hkept⟩

/-- No proper run faults, and the books are kept all along. -/
theorem run {calls : List Call} (hstart : 0 < a.window.range.start.val.toNat)
    (h : t.Kept a chains) (hproper : t.Proper a calls) :
    ∃ u chains', t.run a calls = .ok u ∧ u.Kept a chains' := by
  induction calls generalizing t chains with
  | nil => exact ⟨t, chains, rfl, h⟩
  | cons c calls ih =>
    obtain ⟨hc, hrest⟩ := hproper
    obtain ⟨u, chains', hstep, hu⟩ := h.step hstart hc
    rw [hstep] at hrest
    obtain ⟨v, chains'', hrun, hv⟩ := ih hu hrest
    exact ⟨v, chains'', by rw [Session.run, hstep]; exact hrun, hv⟩

end Kept

end Session

/-- At the start of a session there is nothing on the books, and nothing notable has happened but
that the client gave frames back. -/
theorem Setting.start_kept {s : Setting} {a : Allocator} {t : Session}
    (h : s.start = .ok (.ok (a, t))) :
    a.window = s.window ∧ t.Kept a [] ∧ ∀ e ∈ t.machine.notes, ∃ f, e = .returned f := by
  rw [start] at h
  cases hclient : (Client.create s.base s.count s.front).run s.before with
  | error e =>
    rw [hclient] at h
    cases h
  | ok client =>
    have halone := (Client.alone_create s.front s.below).run hclient
    obtain ⟨answer, machine, hcreate, hback, hpost⟩ :=
      (create_does halone.pool halone.nodup halone.taken s.oneBlock).exists_ok
        (s := client.machine) rfl rfl
    rw [hclient] at h
    change (match Allocator.create s.window client.machine with
      | .ok (.ok a) machine => _
      | .ok (.error e) _ => _
      | .error e _ => _) = _ at h
    rw [hcreate] at h
    cases answer with
    | error e => cases h
    | ok a' =>
      obtain ⟨rfl, rfl⟩ := Prod.mk.inj (Except.ok.inj (Except.ok.inj h))
      obtain ⟨hwindow, -, hw⟩ := hpost.2 a' rfl
      exact ⟨hwindow, ⟨hw, .nil, nofun, nofun⟩, (Backdrop.mk.inj hback).2 ▸ halone.notes⟩

/-- Sessions keep their books, from the start on. -/
theorem Setting.run_kept {s : Setting} {a : Allocator} {t : Session} {calls : List Call}
    (h : s.start = .ok (.ok (a, t))) (hproper : t.Proper a calls) :
    ∃ u chains, t.run a calls = .ok u ∧ u.Kept a chains := by
  obtain ⟨hwindow, hkept, -⟩ := start_kept h
  exact hkept.run (hwindow ▸ s.nonzero) hproper

/-! ## A small session

Sessions are computations, and what a client may do can be found out by running them. -/

namespace Setting

/-- A pool of ten frames, one of them the client's, and a window of sixteen pages. -/
def small : Setting where
  base := ⟨⟨0x100000⟩, by decide⟩
  count := 10
  front := Front.plain
  before := [.take .kernel]
  window := ⟨⟨⟨0x10000⟩, ⟨0x20000⟩⟩, by decide⟩
  below := by decide
  nonzero := by decide
  oneBlock := by decide

/-- Areas come and go, an allocation fails at its second frame, and two areas remain. -/
def smallRun : List Call :=
  [.request (.allocate 5000 .kernelHigh .pageKernel), .release .free ⟨0x10000⟩,
    .request (.allocate 5000 .kernelHigh .pageKernel), .frames (.failAfter 1),
    .request (.allocate 5000 .kernelLow .pageKernel), .frames .clearFailure,
    .request (.mapDevice ⟨0x7010⟩ 20 .pageKernelUncached)]

/-- Whether the session begins, and begins as `P` says. -/
def opens (s : Setting) (P : Allocator → Session → Bool) : Bool :=
  match s.start with
  | .ok (.ok (a, t)) => P a t
  | .ok (.error _) => false
  | .error _ => false

theorem exists_of_opens {s : Setting} {P : Allocator → Session → Bool} (h : s.opens P = true) :
    ∃ a t, s.start = .ok (.ok (a, t)) ∧ P a t = true := by
  rw [opens] at h
  split at h
  next a t hstart => exact ⟨a, t, hstart, h⟩
  next => cases h
  next => cases h

end Setting

/-- Whether the calls lead to a session as `P` says. -/
def Session.leads (a : Allocator) (t : Session) (calls : List Call) (P : Session → Bool) : Bool :=
  match t.run a calls with
  | .ok u => P u
  | .error _ => false

theorem Session.exists_of_leads {a : Allocator} {t : Session} {calls : List Call} {P : Session → Bool}
    (h : t.leads a calls P = true) : ∃ u, t.run a calls = .ok u ∧ P u = true := by
  rw [leads] at h
  split at h
  next u hrun => exact ⟨u, hrun, h⟩
  next => cases h

/-- Whether a request is refused that follows the calls. -/
def Session.refuses (a : Allocator) (t : Session) (calls : List Call) (req : Request) : Bool :=
  match t.run a calls with
  | .ok u => match (req.job a).run u.shared with
    | .ok (.error _) _ => true
    | .ok (.ok _) _ => false
    | .error _ _ => false
  | .error _ => false

theorem Session.exists_of_refuses {a : Allocator} {t : Session} {calls : List Call} {req : Request}
    (h : t.refuses a calls req = true) :
    ∃ u e v, t.run a calls = .ok u ∧ (req.job a).run u.shared = .ok (.error e) v := by
  rw [refuses] at h
  split at h
  next u hrun =>
    split at h
    next e v hjob => exact ⟨u, e, v, hrun, hjob⟩
    next => cases h
    next => cases h
  next => cases h

end PagedMemory
