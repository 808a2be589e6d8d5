import Mathlib.Tactic
import PagedMemory.Proofs.Lending

/-!
# Areas given back by any call

The calls that give an area back do not look at its kind. What becomes of the frames when a client
gives back whatever areas it finds, each by whichever call it likes.

* `Custody`, `Custody.step`, `Custody.run`: such a client, and an allocator that goes on after faults.
* `Custody.Allows`: its one rule. The array of an area is not given back while the area is there.
* `Custody.strands`: the frames that a call takes from their area and leaves in use.
* `Custody.Accounted`: each frame in use has one owner, or is stray.
* `Shared.Tied`: what areas record is in use, and is recorded once.
* `ReleaseCall.job_takes`, `Custody.Kept.step`: what a call makes of a chain, and of the books.
* `Setting.run_accounted`: the frames are accounted for in every state, and areas are tied to theirs
  at every moment.
-/

namespace PagedMemory

open Layout Tables

/-! ## The client -/

/-- The start of the area that a call gives back. -/
def ReleaseCall.start (x : VirtAddr) : ReleaseCall → VirtAddr
  | free => x
  | unmapFrames => x
  | unmapDevice => x.pageBase

/-- The frames of an area that a call leaves in use. Only `Allocator.free` gives frames back. -/
def Area.stranded (m : Machine) (area : Area) (call : ReleaseCall) : List PageFrame :=
  if area.kind = .allocated ∧ call ≠ .free then area.ownFrames m else []

/-- A client of an allocator that gives areas back as it likes. -/
structure Custody extends Client where
  registry : Registry
  /-- frames of allocated areas that were unmapped, and not freed -/
  stray : List PageFrame

namespace Custody

/-- A session as it begins, with a client that is going to give back what it likes. -/
def of (t : Session) : Custody := ⟨t.toClient, t.registry, []⟩

def shared (t : Custody) : Shared := ⟨t.machine, t.registry⟩

/-- The session in which the client has taken the stray frames, too. -/
def session (t : Custody) : Session := ⟨⟨t.machine, t.frames ++ t.stray⟩, t.registry, []⟩

def withShared (t : Custody) (s : Shared) (stray : List PageFrame) : Custody :=
  ⟨⟨s.machine, t.frames⟩, s.registry, stray⟩

/-- The frames that a call makes stray. -/
def strands (t : Custody) (call : ReleaseCall) (x : VirtAddr) : List PageFrame :=
  match t.registry.get? (call.start x) with
  | some area => area.stranded t.machine call
  | none => []

/-- What a call leaves, and its fault if it has one. A fault ends the call, and nothing else. -/
def step (a : Allocator) (t : Custody) : Call → Custody × Option Fault
  | .request req =>
    match (req.job a).run t.shared with
    | .ok _ s => (t.withShared s t.stray, none)
    | .error e s => (t.withShared s t.stray, some e)
  | .release call x =>
    match (call.job a x).run t.shared with
    | .ok _ s => (t.withShared s (t.strands call x ++ t.stray), none)
    | .error e s => (t.withShared s t.stray, some e)
  | .frames call =>
    match t.toClient.step call with
    | .ok client => (⟨client, t.registry, t.stray⟩, none)
    | .error e => (t, some e)

/-- The rules: what is given back is an area, and not the array of another one, which would be left
without its handles. Its kind does not matter, nor who asked for it. -/
def Allows (t : Custody) : Call → Prop
  | .request _ => True
  | .release call x => (∃ area ∈ t.registry.areas, area.address = call.start x) ∧
      ∀ area ∈ t.registry.areas, area.handles.base? ≠ some (call.start x)
  | .frames call => t.toClient.Allows call

instance decidableAllows (t : Custody) : (c : Call) → Decidable (t.Allows c)
  | .request _ => isTrue trivial
  | .release _ _ => inferInstanceAs (Decidable (_ ∧ _))
  | .frames call => inferInstanceAs (Decidable (t.toClient.Allows call))

def run (a : Allocator) (t : Custody) (calls : List Call) : Custody :=
  calls.foldl (fun t c => (t.step a c).1) t

/-- The client keeps the rules all along. -/
def Proper (a : Allocator) (t : Custody) : List Call → Prop
  | [] => True
  | c :: calls => t.Allows c ∧ (t.step a c).1.Proper a calls

instance decidableProper (a : Allocator) : (t : Custody) → (calls : List Call) →
    Decidable (t.Proper a calls)
  | _, [] => isTrue trivial
  | t, c :: calls =>
    have := decidableProper a (t.step a c).1 calls
    inferInstanceAs (Decidable (t.Allows c ∧ _))

/-! ## Accounts -/

/-- All frames that are accounted for: those that the client took, the strays, the tables of the
tree, and those that the areas have handles of. -/
def accounts (a : Allocator) (t : Custody) : List PageFrame :=
  t.frames ++ t.stray ++ Tables.all t.machine.pool a.root ++
    t.registry.areas.flatMap (·.ownFrames t.machine)

/-- Nothing is lost but strays, and nothing is owned twice. -/
structure Accounted (a : Allocator) (t : Custody) : Prop where
  nodup : (t.accounts a).Nodup
  /-- the frames in use are those that are accounted for -/
  taken : ∀ f, t.machine.pool.isTaken f = true ↔ f ∈ t.accounts a
  /-- an area has all the handles that it should -/
  counted : ∀ area ∈ t.registry.areas, (area.ownFrames t.machine).length = area.pageCount
  /-- areas over memory of others own nothing -/
  foreign : ∀ area ∈ t.registry.areas, area.kind ≠ .allocated → area.ownFrames t.machine = []

/-- A stray frame is in use, and no one has it. -/
theorem Accounted.lost {a : Allocator} {t : Custody} {f : PageFrame} (h : t.Accounted a)
    (hf : f ∈ t.stray) : t.machine.pool.isTaken f = true ∧ f ∉ t.frames ∧
      f ∉ Tables.all t.machine.pool a.root ∧
      ∀ area ∈ t.registry.areas, f ∉ area.ownFrames t.machine := by
  have hnodup := h.nodup
  obtain ⟨hloose, -, hrecorded⟩ := List.nodup_append'.1 hnodup
  obtain ⟨hclient, -, htables⟩ := List.nodup_append'.1 hloose
  obtain ⟨-, -, hframes⟩ := List.nodup_append'.1 hclient
  have hown : f ∈ t.frames ++ t.stray := List.mem_append_right _ hf
  have hall : f ∈ t.frames ++ t.stray ++ Tables.all t.machine.pool a.root :=
    List.mem_append_left _ hown
  exact ⟨(h.taken f).2 (List.mem_append_left _ hall), fun h => hframes h hf, htables hown,
    fun area harea h => hrecorded hall (List.mem_flatMap.2 ⟨area, harea, h⟩)⟩

end Custody

/-- What areas have handles of is in use, and no frame is recorded twice. -/
structure Shared.Tied (s : Shared) : Prop where
  taken : ∀ area ∈ s.registry.areas, ∀ f ∈ area.ownFrames s.machine,
    s.machine.pool.isTaken f = true
  nodup : (s.registry.areas.flatMap (·.ownFrames s.machine)).Nodup

/-- How a call goes: no frame is given back that is not in use, and none that an area records. Only
requests for frames that no entry can point to fault. -/
structure Custody.GoesWell (a : Allocator) (t : Custody) (c : Call) : Prop where
  fault : ∀ e, (t.step a c).2 = some e →
    (∀ f, e ≠ .doubleFree f) ∧ ∃ req, c = .request req ∧ ¬ req.Fits
  tied : ∀ m, t.session.Passing a m c → m.Tied

/-! ## The head of a chain -/

section

variable {a : Allocator} {T : Terms} {p : Pool} {r : Registry} {loose : List PageFrame}
  {chains : List (List Holding)} {chain rest : List Holding} {h : Holding} {m s : Shared}
  {call : ReleaseCall} {x : VirtAddr} {others : Estate} {area : Area}

theorem World.tied (hw : World a s.machine.pool s.registry loose chains) : s.Tied where
  taken area harea _ hf := hw.isTaken (List.mem_append_right _
    (hw.flatMap_ownFrames.mem_iff.1 (List.mem_flatMap.2 ⟨area, harea, hf⟩)))
  nodup := hw.flatMap_ownFrames.nodup_iff.2 (List.nodup_append'.1 hw.nodup).2.1

/-- An area that is not the array of another one stands at the head of its chain. -/
theorem Chained.eq_cons (hchain : Chained p chain) (hh : h ∈ chain)
    (hunused : ∀ y ∈ chain, y.area.handles.base? ≠ some h.area.address) :
    ∃ rest, chain = h :: rest := by
  induction chain with
  | nil => cases hh
  | cons y tail ih =>
    rcases List.mem_cons.1 hh with rfl | hh
    · exact ⟨tail, rfl⟩
    · obtain ⟨-, -, hrests, htail⟩ := hchain
      obtain ⟨rest, rfl⟩ := ih htail hh fun z hz => hunused z (List.mem_cons_of_mem y hz)
      exact absurd hrests.1 (hunused y List.mem_cons_self)

/-- Such an area, and all that does not belong to it. -/
theorem World.exists_head (hw : World a p r loose chains) (harea : area ∈ r.areas)
    (hunused : ∀ b ∈ r.areas, b.handles.base? ≠ some area.address) :
    ∃ h rest chains', h.area = area ∧ chains.Perm ((h :: rest) :: chains') := by
  obtain ⟨chain, hc, h, hh, rfl⟩ := hw.exists_holding harea
  obtain ⟨rest, rfl⟩ := (hw.chained chain hc).eq_cons hh fun y hy => hunused _ (hw.mem_areas hc hy)
  obtain ⟨before, after, rfl⟩ := List.append_of_mem hc
  exact ⟨h, rest, before ++ after, rfl, List.perm_middle⟩

/-- With the area at the head of a chain `Allocator.free` takes the whole chain. The other calls take
that area alone, and leave its frames in use. -/
theorem ReleaseCall.job_takes (hstart : h.area.address = call.start x)
    (hne : call = .free → x.val ≠ 0) (hwithin : h.area.Within a.block) :
    Behaves a .strict (call.job a x) (.ofChain (h :: rest)) p fun _ e _ =>
      e = if call = .free then ∅ else .ofFrames h.frames ++ .ofChain rest := by
  cases call with
  | free =>
    obtain rfl : h.area.address = x := hstart
    exact free_behaves hwithin (hne rfl) nofun
  | unmapFrames =>
    obtain rfl : h.area.address = x := hstart
    exact unmapFrames_behaves hwithin
  | unmapDevice => exact unmapDevice_behaves hstart

end

/-! ## The invariant -/

/-- A client may do with some of its frames what it may do with all of them. -/
theorem Client.Allows.append {c : Client} {call : FrameCall} (h : c.Allows call)
    (others : List PageFrame) : Client.Allows ⟨c.machine, c.frames ++ others⟩ call := by
  cases call with
  | giveBack f => exact List.mem_append_left others h
  | take policy => exact trivial
  | failAfter n => exact trivial
  | clearFailure => exact trivial

/-- To have frames that it does not touch is no matter to a client. -/
theorem Client.Moved.append {c d : Client} {call : FrameCall} (h : Client.Moved c d call)
    (hallowed : c.Allows call) (others : List PageFrame) :
    Client.Moved ⟨c.machine, c.frames ++ others⟩ ⟨d.machine, d.frames ++ others⟩ call := by
  cases h with
  | took f hpool hframes hnotes =>
    exact .took f hpool (congrArg (· ++ others) hframes) hnotes
  | @gave f hpool hframes hnotes =>
    refine .gave hpool ?_ hnotes
    change d.frames ++ others = (c.frames ++ others).erase f
    rw [hframes, List.erase_append_left others hallowed]
  | idle hpool hframes hnotes => exact .idle hpool (congrArg (· ++ others) hframes) hnotes

namespace Custody

variable {a : Allocator} {t u : Custody} {chains : List (List Holding)} {c : Call}

/-- The books of the client: its own frames and the strays are loose, and only allocated areas have
frames. -/
structure Kept (a : Allocator) (t : Custody) (chains : List (List Holding)) : Prop where
  world : World a t.machine.pool t.registry (t.frames ++ t.stray) chains
  foreign : ∀ chain ∈ chains, ∀ h ∈ chain, h.area.kind ≠ .allocated → h.frames = []

/-- A call that goes well keeps the books. -/
structure Passed (a : Allocator) (t : Custody) (c : Call) : Prop extends t.GoesWell a c where
  kept : ∃ chains, (t.step a c).1.Kept a chains

/-- A call that does not fault. -/
theorem Passed.of_step (hstep : t.step a c = (u, none)) (hkept : u.Kept a chains)
    (htied : ∀ m, t.session.Passing a m c → m.Tied) : t.Passed a c := by
  refine ⟨⟨fun e he => ?_, htied⟩, chains, ?_⟩
  · rw [hstep] at he
    cases he
  · rw [hstep]
    exact hkept

namespace Kept

theorem accounted (h : t.Kept a chains) : t.Accounted a where
  nodup := Session.nodup_owners (t := t.session) h.world
  taken := Session.isTaken_iff_mem_owners (t := t.session) h.world
  counted area harea := h.world.length_ownFrames harea
  foreign area harea hkind := by
    obtain ⟨chain, hc, y, hy, rfl⟩ := h.world.exists_holding harea
    rw [h.world.ownFrames_eq hc hy]
    exact h.foreign chain hc y hy hkind

/-- A request brings a chain or nothing. If it faults, it leaves areas that own nothing. -/
theorem request (h : t.Kept a chains) (req : Request) : t.Passed a (.request req) := by
  have hbooks : Books a t.machine.pool t.registry (∅ ++ ⟨t.frames ++ t.stray, chains⟩) := h.world
  have hjob : Behaves a .lenient (req.job a) ∅ t.machine.pool _ :=
    Request.job_behaves (Or.inl rfl)
  have htied : ∀ m, t.session.Passing a m (.request req) → m.Tied := by
    intro m hm
    obtain ⟨mine, hpasses⟩ := hjob.visits (s := t.shared) hbooks nofun hm
    exact World.tied hpasses.books
  have hends := hjob.runs hbooks nofun t.shared rfl rfl
  cases hrun : (req.job a).run t.shared with
  | ok answer s =>
    obtain ⟨-, mine, hpasses, hpost⟩ := hends.of_eq_ok hrun
    have hstep : t.step a (.request req) = (t.withShared s t.stray, none) := by
      simp only [step, hrun]
    cases answer with
    | error e =>
      obtain rfl := hpost
      exact .of_step hstep ⟨hpasses.books, h.foreign⟩ htied
    | ok x =>
      obtain ⟨chain, rfl, hbrings⟩ := hpost
      have hforeign : ∀ c ∈ chain :: chains, ∀ y ∈ c, y.area.kind ≠ .allocated → y.frames = [] :=
        List.forall_mem_cons.2 ⟨fun y hy => hbrings.granted.frames_eq_nil hy, h.foreign⟩
      exact .of_step hstep ⟨books_ofChain.1 hpasses.books, hforeign⟩ htied
  | error e s =>
    obtain ⟨-, mine, hstranded⟩ := hends.of_eq_error hrun
    have hstep : t.step a (.request req) = (t.withShared s t.stray, some e) := by
      simp only [step, hrun]
    refine ⟨⟨fun e' he => ?_, htied⟩, ?_⟩
    · rw [hstep] at he
      obtain rfl := Option.some.inj he
      refine ⟨hstranded.notFreed, req, rfl, fun hfits => ?_⟩
      obtain ⟨answer, s', hanswer, -⟩ :=
        Request.job_answers (T := .strict) (s := t.shared) nofun h.world nofun hfits
      rw [hrun] at hanswer
      cases hanswer
    · rw [hstep]
      obtain ⟨hloose, hheld⟩ := List.append_eq_nil_iff.1 hstranded.frames
      have hworld : World a s.machine.pool s.registry (mine.loose ++ (t.frames ++ t.stray))
          (mine.chains ++ chains) := hstranded.books
      rw [hloose] at hworld
      refine ⟨mine.chains ++ chains, hworld, List.forall_mem_append.2 ⟨fun chain hc y hy _ => ?_,
        h.foreign⟩⟩
      exact List.flatMap_eq_nil_iff.1 hheld y (List.mem_flatten.2 ⟨chain, hc, hy⟩)

/-- What a call makes stray is what it leaves of the frames of an area. -/
theorem strands_eq (h : t.Kept a chains) {chain : List Holding} {y : Holding} {call : ReleaseCall}
    {x : VirtAddr} (hc : chain ∈ chains) (hy : y ∈ chain) (hstart : y.area.address = call.start x) :
    t.strands call x = if call = .free then [] else y.frames := by
  have hget : t.registry.get? (call.start x) = some y.area :=
    hstart ▸ World.get?_eq h.world (h.world.mem_areas hc hy)
  have hown : y.area.ownFrames t.machine = y.frames := h.world.ownFrames_eq hc hy
  rw [strands, hget]
  change y.area.stranded t.machine call = _
  rw [Area.stranded, hown]
  by_cases hkind : y.area.kind = .allocated
  · by_cases hcall : call = .free <;> simp [hkind, hcall]
  · simp [hkind, h.foreign chain hc y hy hkind]

/-- To `Allocator.free` address 0 stands for nothing, and so nothing happens. -/
theorem release_null (h : t.Kept a chains) {x : VirtAddr} (hx : x.val = 0) :
    t.Passed a (.release .free x) := by
  have hjob : ReleaseCall.free.job a x = pure () := by
    rw [ReleaseCall.job, Allocator.free, hx]
    rfl
  have hstrands : t.strands .free x = [] := by
    rw [strands]
    split <;> simp [Area.stranded]
  have hrun : (ReleaseCall.free.job a x).run t.shared = .ok () t.shared := by
    rw [hjob]
    rfl
  have hstep : t.step a (.release .free x) = (t, none) := by
    simp only [step, hrun, hstrands]
    rfl
  refine .of_step hstep h fun m hm => ?_
  have hm : (ReleaseCall.free.job a x).Visits t.shared m := hm
  rw [hjob] at hm
  obtain rfl : m = t.shared := hm
  exact World.tied h.world

/-- What is given back leaves the books, up to what becomes stray. -/
theorem release (h : t.Kept a chains) {call : ReleaseCall} {x : VirtAddr}
    (hallowed : t.Allows (.release call x)) : t.Passed a (.release call x) := by
  by_cases hnull : call = .free ∧ x.val = 0
  · obtain ⟨rfl, hx⟩ := hnull
    exact h.release_null hx
  obtain ⟨⟨area, harea, hstart⟩, hunused⟩ := hallowed
  rw [← hstart] at hunused
  obtain ⟨y, rest, chains', rfl, hperm⟩ := h.world.exists_head harea hunused
  have hforeign : ∀ chain ∈ (y :: rest) :: chains', ∀ z ∈ chain, z.area.kind ≠ .allocated →
      z.frames = [] := fun chain hc => h.foreign chain (hperm.mem_iff.2 hc)
  obtain ⟨hmine, hothers⟩ := List.forall_mem_cons.1 hforeign
  have hstrands := h.strands_eq (hperm.mem_iff.2 List.mem_cons_self) List.mem_cons_self hstart
  have hjob : Behaves a .strict (call.job a x) (.ofChain (y :: rest)) t.machine.pool _ :=
    ReleaseCall.job_takes hstart (fun hcall hx => hnull ⟨hcall, hx⟩) (h.world.within harea)
  have hbooks : Books a t.machine.pool t.registry
      (.ofChain (y :: rest) ++ ⟨t.frames ++ t.stray, chains'⟩) :=
    books_ofChain.2 (h.world.perm (.refl _) hperm)
  obtain ⟨_, s, hrun, _, hpasses, rfl⟩ := hjob.answers (s := t.shared) nofun hbooks nofun
  have hstep : t.step a (.release call x) = (t.withShared s (t.strands call x ++ t.stray), none) := by
    simp only [step, hrun]
  have htied : ∀ m, t.session.Passing a m (.release call x) → m.Tied := by
    intro m hm
    obtain ⟨mine, hvisited⟩ := hjob.visits (s := t.shared) hbooks nofun hm
    exact World.tied hvisited.books
  rw [hstrands] at hstep
  have hleft := hpasses.books
  by_cases hcall : call = .free
  · -- the whole chain is gone
    rw [if_pos hcall] at hstep hleft
    exact .of_step hstep ⟨hleft, hothers⟩ htied
  · -- the frames of the area are loose, and the rest of the chain is a chain by itself
    rw [if_neg hcall] at hstep hleft
    have hworld : World a s.machine.pool s.registry (t.frames ++ (y.frames ++ t.stray))
        (rest :: chains') := (books_iff.1 hleft).perm (List.perm_append_comm_assoc ..) (.refl _)
    have hrest : ∀ z ∈ rest, z.area.kind ≠ .allocated → z.frames = [] := fun z hz =>
      hmine z (List.mem_cons_of_mem y hz)
    exact .of_step hstep ⟨hworld, List.forall_mem_cons.2 ⟨hrest, hothers⟩⟩ htied

/-- What the client does with the pool is no matter of areas. -/
theorem frames (h : t.Kept a chains) {call : FrameCall} (hallowed : t.toClient.Allows call) :
    t.Passed a (.frames call) := by
  have htaken : ∀ f, call = .giveBack f → t.machine.pool.isTaken f = true := by
    rintro f rfl
    exact h.world.isTaken (List.mem_append_left _ (List.mem_append_left _ hallowed))
  obtain ⟨client, hclient, hmoved⟩ := Client.step_ends h.world.pool htaken
  have hstep : t.step a (.frames call) = (⟨client, t.registry, t.stray⟩, none) := by
    simp only [step, hclient]
  obtain ⟨hworld, -⟩ := World.moved h.world (hallowed.append t.stray) (hmoved.append hallowed t.stray)
  refine .of_step hstep ⟨hworld, h.foreign⟩ ?_
  rintro m rfl
  exact World.tied h.world

/-- Every call that is allowed goes well, and the books are kept. -/
theorem step (h : t.Kept a chains) (hc : t.Allows c) : t.Passed a c := by
  cases c with
  | request req => exact h.request req
  | release call x => exact h.release hc
  | frames call => exact h.frames hc

/-- The books are kept all along. -/
theorem run {calls : List Call} (h : t.Kept a chains) (hproper : t.Proper a calls) :
    ∃ chains', (t.run a calls).Kept a chains' := by
  induction calls generalizing t chains with
  | nil => exact ⟨chains, h⟩
  | cons c calls ih =>
    obtain ⟨hc, hrest⟩ := hproper
    obtain ⟨chains', hnext⟩ := (h.step hc).kept
    exact ih hnext hrest

end Kept

end Custody

namespace Setting

variable {s : Setting} {a : Allocator} {t : Session} {calls : List Call}

/-- A client that gives areas back as it likes, from the start on. -/
theorem run_custody (h : s.start = .ok (.ok (a, t))) (hproper : (Custody.of t).Proper a calls) :
    ∃ chains, ((Custody.of t).run a calls).Kept a chains := by
  obtain ⟨-, hkept, -⟩ := start_kept h
  have hworld : World a t.machine.pool t.registry (t.frames ++ []) [] :=
    hkept.world.perm (.of_eq (List.append_nil _).symm) (.refl _)
  have hcustody : (Custody.of t).Kept a [] := ⟨hworld, nofun⟩
  exact hcustody.run hproper

/-- Whatever a client asks for, and whatever areas it gives back by whichever call: as long as it leaves
the arrays of other areas alone, every frame in use has one owner or is stray, in every state. And in
every state every call goes well. -/
theorem run_accounted (h : s.start = .ok (.ok (a, t)))
    (hproper : (Custody.of t).Proper a calls) :
    ((Custody.of t).run a calls).Accounted a ∧
      ∀ c, ((Custody.of t).run a calls).Allows c →
        ((Custody.of t).run a calls).GoesWell a c := by
  obtain ⟨chains, hkept⟩ := run_custody h hproper
  exact ⟨hkept.accounted, fun c hc => (hkept.step hc).toGoesWell⟩

/-- An area of two pages is allocated and only unmapped. One that is mapped too high is left behind by
a fault, and goes as if it were a device; a device goes as if it had been allocated. -/
def smallMix : List Call :=
  [.request (.allocate 5000 .kernelHigh .pageKernel), .release .unmapFrames ⟨0x10000⟩,
    .request (.mapFrames [⟨⟨0x10000000000000⟩, by decide⟩] .pageKernel),
    .release .unmapDevice ⟨0x10000⟩, .request (.mapDevice ⟨0x7010⟩ 20 .pageKernelUncached),
    .release .free ⟨0x10000⟩, .request (.allocate 5000 .kernelHigh .pageKernel)]

theorem small_run_accounted : ∃ a t, small.start = .ok (.ok (a, t)) ∧
    (Custody.of t).Proper a smallMix ∧ ((Custody.of t).run a smallMix).stray.length = 2 ∧
    ((Custody.of t).run a smallMix).Accounted a ∧
    ((Custody.of t).run a smallMix).GoesWell a (.release .free ⟨0x10000⟩) := by
  have hopens : small.opens (fun a t => decide ((Custody.of t).Proper a smallMix ∧
      ((Custody.of t).run a smallMix).stray.length = 2 ∧
      ((Custody.of t).run a smallMix).Allows (.release .free ⟨0x10000⟩))) = true := by
    decide +kernel
  obtain ⟨a, t, hstart, h⟩ := exists_of_opens hopens
  obtain ⟨hproper, hstray, hallowed⟩ := of_decide_eq_true h
  obtain ⟨haccounted, hwell⟩ := run_accounted hstart hproper
  exact ⟨a, t, hstart, hproper, hstray, haccounted, hwell _ hallowed⟩

/-- Frames are lost. When they have been taken for an allocated area, and this area has only been
unmapped, they are still in use, but the client has not taken them, they are no tables, and no area
has a handle of them. -/
theorem small_unmapped_lost : ∃ a t u v, small.start = .ok (.ok (a, t)) ∧
    (Custody.of t).Proper a (smallMix.take 2) ∧ (Custody.of t).run a (smallMix.take 1) = u ∧
    (Custody.of t).run a (smallMix.take 2) = v ∧
    ∃ area ∈ u.registry.areas, area.kind = .allocated ∧ ∃ f ∈ area.ownFrames u.machine,
      v.machine.pool.isTaken f = true ∧ f ∉ v.frames ∧ f ∉ Tables.all v.machine.pool a.root ∧
      ∀ left ∈ v.registry.areas, f ∉ left.ownFrames v.machine := by
  have hopens : small.opens (fun a t => decide ((Custody.of t).Proper a (smallMix.take 2) ∧
      ((Custody.of t).run a (smallMix.take 2)).stray ≠ [] ∧
      ∃ area ∈ ((Custody.of t).run a (smallMix.take 1)).registry.areas, area.kind = .allocated ∧
        area.ownFrames ((Custody.of t).run a (smallMix.take 1)).machine =
          ((Custody.of t).run a (smallMix.take 2)).stray)) = true := by decide +kernel
  obtain ⟨a, t, hstart, h⟩ := exists_of_opens hopens
  obtain ⟨hproper, hstray, area, harea, hkind, hown⟩ := of_decide_eq_true h
  obtain ⟨f, hf⟩ := List.exists_mem_of_ne_nil _ hstray
  obtain ⟨chains, hkept⟩ := run_custody hstart hproper
  refine ⟨a, t, _, _, hstart, hproper, rfl, rfl, area, harea, hkind, f, hown ▸ hf,
    hkept.accounted.lost hf⟩

/-!
Worse follows when the array of an area is freed while the area is there, which `Custody.Allows` rules
out: the area goes on reading its handles in frames that are its own no more. Let the window begin at
`0x1000000`, over a pool of 1100 frames at `0x100000`. Of 513 pages that are allocated, the handles lie
in an area at `0x1202000`, and this area is freed. Now 513 pages more are allocated. They come to lie at
`0x1202000` themselves, and the frames of the old array become those of the new one, in the other order.
When the area at `0x1000000` is freed, the one handle that is found in its array is of the last frame of
the second area. This frame goes back; then goes what lies at `0x1202000`, taken for the array, with all
its frames, and the last of these is one that went back before, which is a fault.
-/

end Setting

end PagedMemory
