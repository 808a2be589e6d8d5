import Mathlib.Tactic
import PagedMemory.Proofs.Copying
import PagedMemory.Proofs.Ownership

/-!
# Tenants

An allocator whose client may do more: reserve areas and map them itself, ask for frames that entries
cannot point to, and write to what it was given. Then calls can fault in the middle. What was done up
to there stays, and so do the books.

* `Title`, `Lease`: what the client has got, and how.
* `Act`: what the client can ask for. `Act.Allowed`: what it may ask for.
* `Roll`: the chains behind the leases, and chains that no one can give back any more.
* `Follows`: what an act makes of an area that it does not give back. Its pages stay mapped, and its
  bytes change only as the act says.
* `Roll.Kept.after_act`: an act keeps the roll, and what it does not give back follows it.
-/

namespace PagedMemory

open Layout Tables

/-! ## What tenants ask for -/

/-- How an address was come by. -/
inductive Title where
  /-- by a request, whose counterpart is this call -/
  | got (call : ReleaseCall)
  /-- by reserving an area -/
  | reserved
  deriving DecidableEq

/-- The call by which the address is given back. -/
def Title.release : Title → ReleaseCall
  | got call => call
  | reserved => .unmapFrames

abbrev Lease := Title × VirtAddr

inductive Act where
  | request (req : Request)
  | reserve (size : UInt64) (kind : AreaKind)
  | reserveIn (size : UInt64) (kind : AreaKind) (window : Interval)
  | mapArea (address : VirtAddr) (prot : Entry) (frames : List PageFrame)
  | release (lease : Lease)
  | read (address : VirtAddr) (buffer : List UInt8)
  | write (address : VirtAddr) (data : List UInt8)

namespace Act

/-- The lease that an answered reservation brings. -/
def leaseOf : Except AllocError Span → Option Lease
  | .ok span => some (.reserved, span.address)
  | .error _ => none

/-- What is done, and the lease that it brings. -/
def job (a : Allocator) : Act → Job (Option Lease)
  | request req => do
    match ← req.job a with
    | .ok x => return some (.got req.release, x)
    | .error _ => return none
  | reserve size kind => do return leaseOf (← a.reserve size kind)
  | reserveIn size kind window => do return leaseOf (← Allocator.reserveIn size kind window)
  | mapArea address prot frames => do
    let _ ← a.mapArea address prot (.ofList frames)
    return none
  | release lease => do
    lease.1.release.job a lease.2
    return none
  | read address buffer => do
    let _ ← a.read address buffer
    return none
  | write address data => do
    let _ ← a.write address data
    return none

/-- The leases after an act that was answered. -/
def leasesAfter (lease : Option Lease) (leases : List Lease) : Act → List Lease
  | request _ => lease.toList ++ leases
  | reserve _ _ => lease.toList ++ leases
  | reserveIn _ _ _ => lease.toList ++ leases
  | mapArea _ _ _ => leases
  | release lease => leases.erase lease
  | read _ _ => leases
  | write _ _ => leases

/-- What an act writes, in bytes by their addresses. -/
def effect (memory : Nat → UInt8) : Act → Nat → UInt8
  | request _ => memory
  | reserve _ _ => memory
  | reserveIn _ _ _ => memory
  | mapArea _ _ _ => memory
  | release _ => memory
  | read _ _ => memory
  | write address data => overwrite memory address.val.toNat data

/-- So many bytes from an address on lie within one area that was allocated. -/
def WithinAllocated (r : Registry) (leases : List Lease) (address : VirtAddr) (length : Nat) : Prop :=
  ∃ lease ∈ leases, lease.1 = .got .free ∧ ∃ area ∈ r.get? lease.2,
    area.Encloses address.val.toNat (address.val.toNat + length)

/-- The rules: areas are reserved in the block of the allocator, only reserved areas are mapped by the
client, addresses are given back by the call that belongs to how they were come by, and what is
read or written lies within allocated memory. -/
def Allowed (a : Allocator) (r : Registry) (leases : List Lease) : Act → Prop
  | request _ => True
  | reserve _ _ => True
  | reserveIn _ _ window => window.InBlock a.block
  | mapArea address _ _ => (Title.reserved, address) ∈ leases
  | release lease => lease ∈ leases
  | read address buffer => WithinAllocated r leases address buffer.length
  | write address data => WithinAllocated r leases address data.length

instance (window : Interval) (b : Nat) : Decidable (window.InBlock b) :=
  decidable_of_iff (b * 2 ^ 48 ≤ window.start.val.toNat ∧
    window.stop.val.toNat ≤ (b + 1) * 2 ^ 48) ⟨fun h => ⟨h.1, h.2⟩, fun h => ⟨h.1, h.2⟩⟩

instance (r : Registry) (leases : List Lease) (address : VirtAddr) (length : Nat) :
    Decidable (WithinAllocated r leases address length) := by
  unfold WithinAllocated
  infer_instance

instance (a : Allocator) (r : Registry) (leases : List Lease) (act : Act) :
    Decidable (act.Allowed a r leases) := by
  cases act <;> unfold Allowed <;> infer_instance

end Act

/-! ## The chains of a tenant -/

/-- The chain behind a lease. -/
inductive Leased : Lease → List Holding → Prop
  | got {call : ReleaseCall} {x : VirtAddr} {chain : List Holding} (h : Granted call x chain) :
      Leased (.got call, x) chain
  | reserved {h : Holding} (frames : h.frames = []) : Leased (.reserved, h.area.address) [h]

/-- The chains of a tenant: those behind its leases, and those that are left of calls that faulted. -/
structure Roll where
  entries : List (Lease × List Holding)
  orphans : List (List Holding)

namespace Roll

def chains (roll : Roll) : List (List Holding) := roll.entries.map Prod.snd ++ roll.orphans

/-- What is on the roll is on the books of the allocator, and allocated memory is mapped. -/
structure Kept (roll : Roll) (a : Allocator) (p : Pool) (r : Registry) (leases : List Lease)
    (loose : List PageFrame) : Prop where
  world : World a p r loose roll.chains
  leases : roll.entries.map Prod.fst = leases
  leased : ∀ e ∈ roll.entries, Leased e.1 e.2
  settled : ∀ e ∈ roll.entries, e.1.1 = .got .free → ∀ h ∈ e.2, Settled p a.root h

end Roll

/-- The byte of an area at an address. -/
def Holding.memory (p : Pool) (h : Holding) (y : Nat) : UInt8 :=
  h.byteAt p (y - h.area.address.val.toNat)

/-- The pages of an area stay mapped as they are, and its bytes become what `effect` makes of them. -/
structure Follows (a : Allocator) (effect : (Nat → UInt8) → Nat → UInt8) (p q : Pool) (h : Holding) :
    Prop where
  leaf : ∀ n < 512 ^ 4, h.area.Covers n → leafOn q a.root n = leafOn p a.root n
  memory : ∀ y, h.area.address.val.toNat ≤ y →
    y < h.area.address.val.toNat + h.frames.length * 4096 → h.memory q y = effect (h.memory p) y

section

variable {a : Allocator} {T : Terms} {front : Front} {p q : Pool} {r : Registry} {roll : Roll}
  {leases : List Lease} {lease : Lease} {loose : List PageFrame} {chain rest : List Holding}
  {chains : List (List Holding)} {h : Holding} {act : Act} {es : List Event} {others : Estate}

/-! ## Acts that bring an area -/

/-- What a new lease brings, or that there is none. -/
def Leases (a : Allocator) (lease : Option Lease) (e : Estate) (q : Pool) : Prop :=
  match lease with
  | none => e = ∅
  | some lease => ∃ chain, e = .ofChain chain ∧ Leased lease chain ∧
      (lease.1 = .got .free → ∀ h ∈ chain, Settled q a.root h)

theorem request_leases (req : Request) :
    Behaves a .lenient ((Act.request req).job a) ∅ p (Leases a) := by
  refine Behaves.bind (Request.job_behaves (Or.inl rfl)) ?_
  rintro answer e q hq
  cases answer with
  | error _ => exact Behaves.pure hq
  | ok x =>
    obtain ⟨chain, rfl, hbrings⟩ := hq
    refine Behaves.pure ⟨chain, rfl, .got hbrings.granted, fun hfree h hh => ?_⟩
    have hgranted : Granted .free x chain := by
      have hcall : req.release = .free := Title.got.inj hfree
      exact hcall ▸ hbrings.granted
    cases hgranted with
    | allocated kinds => exact hbrings.settled h hh (kinds h hh)

theorem reserveIn_leases {size : UInt64} {kind : AreaKind} {window : Interval}
    (hwindow : ∀ {q r e}, Books a q r e → window.InBlock a.block) :
    Behaves a .lenient ((Act.reserveIn size kind window).job a) ∅ p (Leases a) := by
  refine Behaves.bind (reserveIn_behaves hwindow (Or.inl rfl)) ?_
  rintro answer e q hq
  cases answer with
  | error _ => exact Behaves.pure hq
  | ok span =>
    obtain ⟨r, area, rfl, -, rfl, -, -⟩ := hq
    have hleased : Leased (.reserved, area.address) [⟨area, []⟩] := .reserved (h := ⟨area, []⟩) rfl
    exact Behaves.pure ⟨_, rfl, hleased, nofun⟩

/-! ## Acts on an area -/

/-- Address 0 stands for nothing, and so an area that was allocated there stays. -/
theorem Act.release_null (h : lease.1 = .got .free ∧ lease.2.val = 0) :
    (Act.release lease).job a = pure none := by
  obtain ⟨⟨title, x⟩, rfl⟩ : ∃ l : Lease, l = lease := ⟨_, rfl⟩
  obtain ⟨rfl, hx⟩ := h
  change (do a.free x; return none : Job (Option Lease)) = pure none
  rw [Allocator.free, hx]
  rfl

/-- What stands behind a lease is given back as a whole. -/
theorem Leased.release_behaves (hleased : Leased lease chain)
    (hnull : ¬ (lease.1 = .got .free ∧ lease.2.val = 0)) (hwithin : ∀ y ∈ chain, y.area.Within a.block) :
    Behaves a .strict (lease.1.release.job a lease.2) (.ofChain chain) p fun _ e _ => e = ∅ := by
  cases hleased with
  | got hgranted =>
    refine ReleaseCall.job_behaves hgranted (fun hcall hx => ?_) hwithin nofun
    exact hnull ⟨congrArg Title.got hcall, hx⟩
  | reserved hframes =>
    refine (unmapFrames_behaves (hwithin _ List.mem_cons_self)).imp fun _ _ _ he => ?_
    exact he.trans (Estate.detached_eq_empty hframes)

/-- What a strict routine leaves on the books when it is over. -/
theorem Behaves.runs_strict {α : Type} {w : Job α} {own : Estate} {Q : α → Estate → Pool → Prop}
    {E : Fault → Pool × List Event × Registry → Prop} (h : Behaves a .strict w own p Q)
    (hbooks : Books a p r (own ++ others)) :
    Runs Shared.noted front w.run (p, es, r)
      (fun v t => ∃ mine, Books a t.1 t.2.2 (mine ++ others) ∧ Spares a others p t.1 ∧ Q v mine t.1) E :=
  Runs.mono (h.runs hbooks nofun) (fun _ _ ⟨mine, hpasses, hq⟩ => ⟨mine, hpasses.books, hpasses.spares, hq⟩)
    fun _ _ ⟨_, hstranded⟩ => nomatch hstranded.lenient

/-- Mapping an area leaves the books as they are, whether it ends well or not. If none of its pages was
mapped, all are when it ends well, and it is a fault only if a frame is too high. -/
theorem mapArea_runs {source : FrameSource} {frames : Nat → Option PageFrame} {prot : Entry}
    (hsource : ∀ q, Walk.Gives source a.root q frames) (hbooks : Books a p r (.ofChain [h] ++ others)) :
    Runs Shared.noted front (a.mapArea h.area.address prot source).run (p, es, r)
      (fun answer t => (Books a t.1 t.2.2 (.ofChain [h] ++ others) ∧ Spares a others p t.1) ∧
        match answer.1 with
        | .ok _ => (∀ n, h.area.Covers n → leafOn p a.root n = .empty) →
            MapsFirst a.root h.area frames prot h.area.pages t.1
        | .error e => e = .outOfMemory)
      fun e t => (Books a t.1 t.2.2 (.ofChain [h] ++ others) ∧ Spares a others p t.1) ∧
        ((∀ n, h.area.Covers n → leafOn p a.root n = .empty) →
          e = .fieldTooSmall EntryField.frameNumber.max ∧
            ∃ k < h.area.pages, ∃ f, frames k = some f ∧ ¬ f.Numbered) := by
  have harea : h.area ∈ areasOf (Estate.ofChain [h]).chains := List.mem_cons_self
  refine Runs.run_bind (Behaves.runs_strict (mappedRange?_behaves harea) hbooks) ?_
  rintro _ ⟨q, fs, s⟩ ⟨_, hbooks, hpq, rfl, hown, range, rfl, hrange, hwithin⟩
  have hsame : ∀ n, h.area.Covers n → leafOn q a.root n = leafOn p a.root n := fun n hn =>
    hown.leaf n (hwithin.covers_lt hn) ⟨h.area, harea, hn⟩
  have hbooks' : Books a q s (∅ ++ .ofChain [h] ++ others) := hbooks
  refine Runs.run_bind (Q := fun answer t => (Books a t.1 t.2.2 (.ofChain [h] ++ others) ∧
    Spares a others p t.1) ∧ ∀ n, answer.1 = .ok n →
      (∀ n, h.area.Covers n → leafOn p a.root n = .empty) →
        MapsFirst a.root h.area frames prot h.area.pages t.1) ?_ ?_
  · rw [Allocator.run_onMachine]
    refine Runs.onShared (Runs.mono (Walk.fill_runs hbooks.pool hbooks.tables (hsource q) hrange) ?_ ?_)
    · rintro ⟨answer, taken⟩ t ht
      cases answer with
      | ok count =>
        obtain ⟨hafter, hothers, -⟩ := hbooks'.of_confined (ht.confined (Nat.le_refl _))
        refine ⟨⟨hafter, hpq.trans hothers⟩, fun _ _ hempty => ?_⟩
        have hmaps := ht.mapsFirst hwithin (fun n hn => (hsame n hn).trans (hempty n hn))
          (Nat.le_add_right _ _) (Nat.le_refl _)
        rwa [Nat.add_sub_cancel_left] at hmaps
      | error e =>
        obtain ⟨⟨n, -, hn, ht⟩, -⟩ := ht
        obtain ⟨hafter, hothers, -⟩ := hbooks'.of_confined (ht.confined hn)
        exact ⟨⟨hafter, hpq.trans hothers⟩, nofun⟩
    · rintro e t ⟨⟨-, -, hconfined⟩, hhigh⟩
      obtain ⟨hafter, hothers, -⟩ := hbooks'.of_confined hconfined
      refine ⟨⟨hafter, hpq.trans hothers⟩, fun hempty => ?_⟩
      rw [Nat.add_sub_cancel_left] at hhigh
      exact hhigh fun n hlow htop => (hsame n ⟨hlow, htop⟩).trans (hempty n ⟨hlow, htop⟩)
  · rintro ⟨answer, taken⟩ ⟨u, gs, s'⟩ ⟨hafter, hmaps⟩
    cases answer with
    | error e => exact Runs.pure ⟨hafter, by cases e <;> rfl⟩
    | ok n =>
      have hemit : Does ⟨front, gs⟩ (Machine.emit (.afterMap range)) u fun _ q => q = u := Does.emit rfl
      refine Runs.run_bind hemit.run_onMachine ?_
      rintro _ _ ⟨_, rfl, rfl⟩
      exact Runs.pure ⟨hafter, hmaps n rfl⟩

/-! ## Acts and rolls -/

namespace Roll

/-- What becomes of a roll: all but what is `gone` is on it as before, up to what is written. -/
structure Becomes (a : Allocator) (gone : Lease → Prop) (effect : (Nat → UInt8) → Nat → UInt8)
    (p q : Pool) (roll roll' : Roll) : Prop where
  entry : ∀ e ∈ roll.entries, ¬ gone e.1 → e ∈ roll'.entries
  follows : ∀ e ∈ roll.entries, ¬ gone e.1 → e.1.1 = .got .free → ∀ h ∈ e.2, Follows a effect p q h

/-- The chain behind a lease, and all other entries. -/
theorem exists_entry {entries : List (Lease × List Holding)} (h : lease ∈ entries.map Prod.fst) :
    ∃ chain rest, entries.Perm ((lease, chain) :: rest) ∧
      rest.map Prod.fst = (entries.map Prod.fst).erase lease := by
  induction entries with
  | nil => cases h
  | cons e entries ih =>
    rw [List.map_cons]
    by_cases he : e.1 = lease
    · subst he
      exact ⟨e.2, entries, .refl _, by rw [List.erase_cons_head]⟩
    · obtain ⟨chain, rest, hperm, hrest⟩ := ih ((List.mem_cons.1 h).resolve_left (Ne.symm he))
      refine ⟨chain, e :: rest, (hperm.cons e).trans (.swap _ _ _), ?_⟩
      rw [List.map_cons, hrest, List.erase_cons_tail (by simpa using he)]

end Roll

/-- Areas that are left alone follow what is not done to them. -/
theorem Follows.of_keeps {P : Nat → Prop} {F : PageFrame → Prop}
    {effect : (Nat → UInt8) → Nat → UInt8} (hkeeps : Keeps a.root P F p q)
    (hP : ∀ n, h.area.Covers n → P n) (hF : ∀ f ∈ h.frames, F f)
    (heffect : ∀ y, h.area.address.val.toNat ≤ y →
      y < h.area.address.val.toNat + h.frames.length * 4096 → effect (h.memory p) y = h.memory p y) :
    Follows a effect p q h where
  leaf n hn hcovers := hkeeps.leaf n hn (hP n hcovers)
  memory y hlow hhigh := by
    rw [heffect y hlow hhigh]
    exact hkeeps.byteAt_eq hF (by omega)

theorem Follows.of_spares {effect : (Nat → UInt8) → Nat → UInt8} (hspares : Spares a others p q)
    (hc : chain ∈ others.chains) (hh : h ∈ chain)
    (heffect : ∀ y, h.area.address.val.toNat ≤ y →
      y < h.area.address.val.toNat + h.frames.length * 4096 → effect (h.memory p) y = h.memory p y) :
    Follows a effect p q h :=
  .of_keeps hspares (fun _ hn => ⟨h.area, mem_areasOf.2 ⟨chain, hc, h, hh, rfl⟩, hn⟩)
    (fun _ hf => List.mem_append_right _ (List.mem_flatMap.2
      ⟨h, List.mem_flatten.2 ⟨chain, hc, hh⟩, hf⟩)) heffect

/-- What is written to one area is not written to another. -/
theorem World.overwrite_eq {h' : Holding} {address : VirtAddr} {data : List UInt8}
    (hw : World a p r loose chains) (hh : h.area ∈ r.areas) (hh' : h'.area ∈ r.areas)
    (hne : h'.area.address ≠ h.area.address)
    (hin : h.area.Encloses address.val.toNat (address.val.toNat + data.length))
    (hcount : h'.frames.length = h'.area.pages) {memory : Nat → UInt8} {y : Nat}
    (hlow : h'.area.address.val.toNat ≤ y)
    (hhigh : y < h'.area.address.val.toNat + h'.frames.length * 4096) :
    overwrite memory address.val.toNat data y = memory y := by
  have hsize := (hw.within hh).size_eq
  have hsize' := (hw.within hh').size_eq
  obtain ⟨hstart, hle, hstop⟩ := hin
  rcases hw.registry.before_or_before hh' hh (fun he => hne (he ▸ rfl)) with hbefore | hbefore
  · rw [Registry.Before, Span.stop] at hbefore
    exact overwrite_of_lt (by omega)
  · rw [Registry.Before, Span.stop] at hbefore
    exact overwrite_of_le (by omega)

/-- The bytes of an area that is written follow the write. -/
theorem Overwritten.follows {tail : List Holding} {address : VirtAddr} {data : List UInt8}
    (hover : Overwritten a h tail p (address.val.toNat - h.area.address.val.toNat) data q)
    (hlow : h.area.address.val.toNat ≤ address.val.toNat) :
    Follows a (Act.write address data).effect p q h where
  leaf n hn hcovers := hover.keeps.leaf n hn (Estate.coveredBy_ofChain.2 ⟨h, List.mem_cons_self, hcovers⟩)
  memory y hy hhigh := by
    rw [Holding.memory, hover.bytes _ (by omega), overwrite_sub hlow hy]
    rfl

namespace Roll

/-- After an act, some roll is kept that has become of the roll before, and frames that were loose
have been left alone. -/
def After (a : Allocator) (act : Act) (p : Pool) (roll : Roll) (loose : List PageFrame)
    (leases : List Lease) (t : Pool × List Event × Registry) : Prop :=
  ∃ roll' loose', roll'.Kept a t.1 t.2.2 leases loose' ∧
    roll.Becomes a (act = .release ·) act.effect p t.1 roll' ∧ p.Leaves (· ∈ loose) t.1 ∧
    loose ⊆ loose'

namespace Kept

/-- Entries of which the chains are spared are as they were, and others are looked after. -/
theorem after {leases' : List Lease} {r' : Registry} (hkept : roll.Kept a p r leases loose)
    (roll' : Roll) (loose' : List PageFrame) (hw : World a q r' loose' roll'.chains)
    (hspares : Spares a others p q) (hleases : roll'.entries.map Prod.fst = leases')
    (hentries : ∀ e ∈ roll'.entries, (e ∈ roll.entries ∧ e.2 ∈ others.chains) ∨
      (Leased e.1 e.2 ∧ (e.1.1 = .got .free → ∀ h ∈ e.2, Settled q a.root h)))
    (hstay : ∀ e ∈ roll.entries, act ≠ .release e.1 → e ∈ roll'.entries ∧
      (e.1.1 = .got .free → ∀ h ∈ e.2, Follows a act.effect p q h))
    (hloose : ∀ f ∈ loose, f ∈ others.loose ∧ f ∈ loose') :
    roll.After a act p loose leases' (q, es, r') := by
  refine ⟨roll', loose', ⟨hw, hleases, fun e he => ?_, fun e he hfree h hh => ?_⟩,
    ⟨fun e he hne => (hstay e he hne).1, fun e he hne => (hstay e he hne).2⟩,
    ⟨hw.pool, hspares.base, hspares.size, fun f hf => hw.isTaken (List.mem_append_left _ (hloose f hf).2),
      fun f hf => hspares.page f (List.mem_append_left _ (hloose f hf).1)⟩,
    fun f hf => (hloose f hf).2⟩
  · rcases hentries e he with ⟨he, -⟩ | hnew
    · exact hkept.leased e he
    · exact hnew.1
  · rcases hentries e he with ⟨he, hc⟩ | hnew
    · exact (hkept.settled e he hfree h hh).of_spares hspares hc hh
    · exact hnew.2 hfree h hh

/-- An act that brings an area, or nothing. If it faults, what it had got by then is left behind. -/
theorem brings (hkept : roll.Kept a p r leases loose)
    (hjob : Behaves a .lenient (act.job a) ∅ p (Leases a))
    (hafter : ∀ lease, act.leasesAfter lease leases = lease.toList ++ leases)
    (heffect : ∀ memory, act.effect memory = memory) :
    Runs Shared.noted front (act.job a).run (p, es, r)
      (fun lease t => roll.After a act p loose (act.leasesAfter lease leases) t)
      fun _ t => roll.After a act p loose leases t := by
  have hbooks : Books a p r (∅ ++ ⟨loose, roll.chains⟩) := hkept.world
  have hchain : ∀ e ∈ roll.entries, e.2 ∈ roll.chains := fun e he =>
    List.mem_append_left _ (List.mem_map_of_mem he)
  have hfollows : ∀ q, Spares a ⟨loose, roll.chains⟩ p q → ∀ e ∈ roll.entries, ∀ h ∈ e.2,
      Follows a act.effect p q h := fun q hspares e he h hh =>
    .of_spares hspares (hchain e he) hh fun y _ _ => by rw [heffect]
  refine Runs.mono (hjob.runs hbooks nofun) ?_ ?_
  · rintro lease ⟨q, fs, s⟩ ⟨mine, hpasses, hleases⟩
    have hspares := hpasses.spares
    cases lease with
    | none =>
      obtain rfl := hleases
      exact hkept.after roll loose hpasses.books hspares (by rw [hafter, hkept.leases]; rfl)
        (fun e he => Or.inl ⟨he, hchain e he⟩)
        (fun e he _ => ⟨he, fun _ => hfollows q hspares e he⟩) fun f hf => ⟨hf, hf⟩
    | some lease =>
      obtain ⟨chain, rfl, hleased, hsettled⟩ := hleases
      refine hkept.after ⟨(lease, chain) :: roll.entries, roll.orphans⟩ loose
        (books_ofChain.1 hpasses.books) hspares ?_ ?_ ?_ fun f hf => ⟨hf, hf⟩
      · rw [hafter, List.map_cons, hkept.leases]
        rfl
      · refine List.forall_mem_cons.2 ⟨Or.inr ⟨hleased, hsettled⟩, fun e he => ?_⟩
        exact Or.inl ⟨he, hchain e he⟩
      · exact fun e he _ => ⟨List.mem_cons_of_mem _ he, fun _ => hfollows q hspares e he⟩
  · rintro _ ⟨q, fs, s⟩ ⟨mine, hf⟩
    have hspares := hf.spares
    refine hkept.after ⟨roll.entries, mine.chains ++ roll.orphans⟩ (mine.loose ++ loose) ?_ hspares hkept.leases
      (fun e he => Or.inl ⟨he, hchain e he⟩)
      (fun e he _ => ⟨he, fun _ => hfollows q hspares e he⟩)
      fun f hf => ⟨hf, List.mem_append_right _ hf⟩
    exact World.perm hf.books (.refl _) (List.perm_append_comm_assoc ..)

/-- A lease, the chain behind it, and all that does not belong to it. -/
theorem exists_chain (hkept : roll.Kept a p r leases loose) (hlease : lease ∈ leases) :
    ∃ chain rest, roll.entries.Perm ((lease, chain) :: rest) ∧
      rest.map Prod.fst = leases.erase lease ∧ (lease, chain) ∈ roll.entries ∧
      Books a p r (.ofChain chain ++ ⟨loose, rest.map Prod.snd ++ roll.orphans⟩) := by
  rw [← hkept.leases] at hlease
  obtain ⟨chain, rest, hperm, hrest⟩ := exists_entry hlease
  refine ⟨chain, rest, hperm, hkept.leases ▸ hrest, hperm.mem_iff.2 List.mem_cons_self, ?_⟩
  exact books_ofChain.2 (hkept.world.perm (.refl _) ((hperm.map Prod.snd).append_right _))

/-- Mapping an area is no matter of others, and the area stays the client's even if it fails. -/
theorem mapArea {address : VirtAddr} {prot : Entry} {frames : List PageFrame}
    (hkept : roll.Kept a p r leases loose) (hlease : (Title.reserved, address) ∈ leases) :
    Runs Shared.noted front ((Act.mapArea address prot frames).job a).run (p, es, r)
      (fun _ t => roll.After a (.mapArea address prot frames) p loose leases t)
      fun _ t => roll.After a (.mapArea address prot frames) p loose leases t := by
  obtain ⟨chain, rest, hperm, -, hmem, hbooks⟩ := hkept.exists_chain hlease
  cases hkept.leased _ hmem with
  | @reserved h hframes =>
    have hafter : ∀ t : Pool × List Event × Registry,
        Books a t.1 t.2.2 (.ofChain [h] ++ ⟨loose, rest.map Prod.snd ++ roll.orphans⟩) →
        Spares a ⟨loose, rest.map Prod.snd ++ roll.orphans⟩ p t.1 →
        roll.After a (.mapArea h.area.address prot frames) p loose leases t := by
      rintro ⟨q, fs, s⟩ hbooks hspares
      have hrest : ∀ e ∈ rest, e.2 ∈ rest.map Prod.snd ++ roll.orphans := fun e he =>
        List.mem_append_left _ (List.mem_map_of_mem he)
      refine hkept.after roll loose (World.perm hbooks (.refl _)
        ((hperm.map Prod.snd).append_right _).symm) hspares hkept.leases (fun e he => ?_)
        (fun e he _ => ⟨he, fun hfree y hy => ?_⟩) fun f hf => ⟨hf, hf⟩
      · rcases List.mem_cons.1 (hperm.mem_iff.1 he) with rfl | hmine
        · exact Or.inr ⟨.reserved hframes, nofun⟩
        · exact Or.inl ⟨he, hrest e hmine⟩
      · rcases List.mem_cons.1 (hperm.mem_iff.1 he) with rfl | hmine
        · cases hfree
        · exact .of_spares hspares (hrest e hmine) hy fun _ _ _ => rfl
    refine Runs.run_bind (Runs.mono (mapArea_runs (fun _ => Walk.gives_ofList) hbooks)
      (fun _ t ht => hafter t ht.1.1 ht.1.2) fun _ t ht => hafter t ht.1.1 ht.1.2) ?_
    rintro _ t ht
    exact Runs.pure ht

/-- What is read or written lies within the first area of some chain. -/
theorem exists_allocated {address : VirtAddr} {length : Nat} (hkept : roll.Kept a p r leases loose)
    (hwithin : Act.WithinAllocated r leases address length) :
    ∃ x h tail rest, roll.entries.Perm (((.got .free, x), h :: tail) :: rest) ∧
      h.area.Encloses address.val.toNat (address.val.toNat + length) ∧ h.area ∈ r.areas ∧
      (∀ y ∈ h :: tail, Settled p a.root y) ∧
      Books a p r (.ofChain (h :: tail) ++ ⟨loose, rest.map Prod.snd ++ roll.orphans⟩) := by
  obtain ⟨⟨title, x⟩, hlease, rfl, area, harea, hin⟩ := hwithin
  obtain ⟨chain, rest, hperm, -, hmem, hbooks⟩ := hkept.exists_chain hlease
  have hsettled := hkept.settled _ hmem rfl
  cases hkept.leased _ hmem with
  | got hgranted =>
    cases hgranted with
    | @allocated h tail kinds =>
      have hh : h.area ∈ r.areas := hbooks.area_mem (by simp [Estate.ofChain])
      have hget := World.get?_eq hbooks hh
      obtain rfl : area = h.area := Option.some.inj (harea.symm.trans hget)
      exact ⟨_, h, tail, rest, hperm, hin, hh, hsettled, hbooks⟩

/-- Reading changes nothing. -/
theorem read {address : VirtAddr} {buffer : List UInt8} (hkept : roll.Kept a p r leases loose)
    (hwithin : Act.WithinAllocated r leases address buffer.length) :
    Runs Shared.noted front ((Act.read address buffer).job a).run (p, es, r)
      (fun _ t => roll.After a (.read address buffer) p loose leases t)
      fun _ t => roll.After a (.read address buffer) p loose leases t := by
  obtain ⟨x, h, tail, rest, hperm, hin, harea, hsettled, hbooks⟩ := hkept.exists_allocated hwithin
  have hread : Behaves a .strict (a.read address buffer) (.ofChain (h :: tail)) p fun _ e q =>
      e = .ofChain (h :: tail) ∧ Spares a (.ofChain (h :: tail)) p q :=
    (read_behaves (hsettled h List.mem_cons_self) (World.within hbooks harea) hin).mono
      (fun _ _ _ hq => ⟨hq.1, hq.2.1⟩) fun _ _ _ => trivial
  have hchain : ∀ e ∈ roll.entries, e.2 ∈ (Estate.ofChain (h :: tail) ++
      ⟨loose, rest.map Prod.snd ++ roll.orphans⟩).chains := by
    intro e he
    rcases List.mem_cons.1 (hperm.mem_iff.1 he) with rfl | he
    · exact List.mem_cons_self
    · have hrest : e.2 ∈ rest.map Prod.snd ++ roll.orphans :=
        List.mem_append_left _ (List.mem_map_of_mem he)
      exact List.mem_append_right _ hrest
  refine Runs.run_bind (Runs.mono (hread.runs hbooks nofun) (fun _ _ hq => hq)
    fun _ _ ⟨_, hf⟩ => nomatch hf.lenient) ?_
  rintro _ ⟨q, fs, s⟩ ⟨_, hpasses, rfl, hown⟩
  have hspares := hown.spares_append hpasses.spares
  refine Runs.pure (hkept.after roll loose ?_ hspares hkept.leases
    (fun e he => Or.inl ⟨he, hchain e he⟩)
    (fun e he _ => ⟨he, fun _ y hy => .of_spares hspares (hchain e he) hy fun _ _ _ => rfl⟩)
    fun f hf => ⟨hf, hf⟩)
  exact World.perm hpasses.books (.refl _) ((hperm.map Prod.snd).append_right _).symm

/-- Writing to one area changes no other. -/
theorem write {address : VirtAddr} {data : List UInt8} (hkept : roll.Kept a p r leases loose)
    (hwithin : Act.WithinAllocated r leases address data.length) :
    Runs Shared.noted front ((Act.write address data).job a).run (p, es, r)
      (fun _ t => roll.After a (.write address data) p loose leases t)
      fun _ t => roll.After a (.write address data) p loose leases t := by
  obtain ⟨x, h, tail, rest, hperm, hin, harea, hsettled, hbooks⟩ := hkept.exists_allocated hwithin
  have hw : World a p r loose ((h :: tail) :: (rest.map Prod.snd ++ roll.orphans)) := hbooks
  have hwrite : Behaves a .strict (a.write address data) (.ofChain (h :: tail)) p fun _ e q =>
      e = .ofChain (h :: tail) ∧
        Overwritten a h tail p (address.val.toNat - h.area.address.val.toNat) data q :=
    (write_behaves (hsettled h List.mem_cons_self) (World.within hbooks harea) hin).mono
      (fun _ _ _ hq => ⟨hq.1, hq.2.2⟩) fun _ _ _ => trivial
  refine Runs.run_bind (Runs.mono (hwrite.runs hbooks nofun) (fun _ _ hq => hq)
    fun _ _ ⟨_, hf⟩ => nomatch hf.lenient) ?_
  rintro _ ⟨q, fs, s⟩ ⟨_, hpasses, rfl, hover⟩
  have hrest : ∀ e ∈ rest, e.2 ∈ rest.map Prod.snd ++ roll.orphans := fun e he =>
    List.mem_append_left _ (List.mem_map_of_mem he)
  -- no other area starts where this one does
  have hlisted := hw.listed
  rw [areasOf_cons, List.map_cons, List.cons_append] at hlisted
  have hne : ∀ y ∈ tail ++ (rest.map Prod.snd ++ roll.orphans).flatten,
      y.area.address ≠ h.area.address := by
    intro y hy
    refine hw.registry.address_ne hlisted _ ?_
    rw [areasOf, ← List.map_append]
    exact List.mem_map_of_mem hy
  have hspared : ∀ y ∈ tail ++ (rest.map Prod.snd ++ roll.orphans).flatten, Settled p a.root y →
      y.area ∈ r.areas → ∀ z, y.area.address.val.toNat ≤ z →
      z < y.area.address.val.toNat + y.frames.length * 4096 →
      (Act.write address data).effect (y.memory p) z = y.memory p z := fun y hy hys hyr z hlow hhigh =>
    hw.overwrite_eq harea hyr (hne y hy) hin hys.backed.count hlow hhigh
  refine Runs.pure (hkept.after roll loose ?_ hpasses.spares hkept.leases (fun e he => ?_)
    (fun e he _ => ⟨he, fun hfree y hy => ?_⟩) fun f hf => ⟨hf, hf⟩)
  · exact World.perm hpasses.books (.refl _) ((hperm.map Prod.snd).append_right _).symm
  · rcases List.mem_cons.1 (hperm.mem_iff.1 he) with rfl | hmine
    · exact Or.inr ⟨hkept.leased _ he, fun _ y hy => hover.settled hy (hsettled y hy)⟩
    · exact Or.inl ⟨he, hrest e hmine⟩
  · rcases List.mem_cons.1 (hperm.mem_iff.1 he) with rfl | hmine
    · rcases List.mem_cons.1 hy with rfl | hytail
      · exact hover.follows hin.start_le
      · exact .of_keeps hover.keeps (fun _ hn => Estate.coveredBy_ofChain.2 ⟨y, hy, hn⟩)
          (fun f hf => List.mem_flatMap.2 ⟨y, hytail, hf⟩)
          (hspared y (List.mem_append_left _ hytail) (hsettled y hy) (hw.mem_areas List.mem_cons_self hy))
    · refine .of_spares hpasses.spares (hrest e hmine) hy (hspared y ?_ ?_ ?_)
      · exact List.mem_append_right _ (List.mem_flatten.2 ⟨e.2, hrest e hmine, hy⟩)
      · exact hkept.settled e he hfree y hy
      · exact hw.mem_areas (List.mem_cons_of_mem _ (hrest e hmine)) hy

/-- What is given back is no matter of others. -/
theorem release (hkept : roll.Kept a p r leases loose) (hlease : lease ∈ leases) :
    Runs Shared.noted front ((Act.release lease).job a).run (p, es, r)
      (fun _ t => roll.After a (.release lease) p loose (leases.erase lease) t)
      fun _ t => roll.After a (.release lease) p loose leases t := by
  obtain ⟨chain, rest, hperm, hrestleases, hmem, hbooks⟩ := hkept.exists_chain hlease
  have hrest : ∀ e ∈ rest, e ∈ roll.entries ∧ e.2 ∈ rest.map Prod.snd ++ roll.orphans := fun e he =>
    ⟨hperm.mem_iff.2 (List.mem_cons_of_mem _ he), List.mem_append_left _ (List.mem_map_of_mem he)⟩
  have hstay : ∀ e ∈ roll.entries, Act.release lease ≠ .release e.1 → e ∈ rest := fun e he hne =>
    (List.mem_cons.1 (hperm.mem_iff.1 he)).resolve_left (by rintro rfl; exact hne rfl)
  have hafter : ∀ (orphans : List (List Holding)) (t : Pool × List Event × Registry),
      World a t.1 t.2.2 loose (rest.map Prod.snd ++ orphans) →
      Spares a ⟨loose, rest.map Prod.snd ++ roll.orphans⟩ p t.1 →
      roll.After a (.release lease) p loose (leases.erase lease) t := by
    rintro orphans ⟨q, fs, s⟩ hw hspares
    exact hkept.after ⟨rest, orphans⟩ loose hw hspares hrestleases (fun e he => Or.inl (hrest e he))
      (fun e he hne => ⟨hstay e he hne, fun _ y hy =>
        .of_spares hspares (hrest e (hstay e he hne)).2 hy fun _ _ _ => rfl⟩) fun f hf => ⟨hf, hf⟩
  have hwithin : ∀ y ∈ chain, y.area.Within a.block := fun y hy =>
    World.within hbooks (hkept.world.mem_areas (List.mem_append_left _ (List.mem_map_of_mem hmem)) hy)
  by_cases hnull : lease.1 = .got .free ∧ lease.2.val = 0
  · rw [Act.release_null hnull]
    refine Runs.pure (hafter (chain :: roll.orphans) _ ?_ .refl)
    exact (books_ofChain.1 hbooks).perm (.refl _) List.perm_middle.symm
  · have hjob := (hkept.leased _ hmem).release_behaves (p := p) hnull hwithin
    refine Runs.run_bind (Runs.mono (hjob.runs hbooks nofun) (fun _ _ hq => hq)
      fun _ _ ⟨_, hf⟩ => nomatch hf.lenient) ?_
    rintro _ ⟨q, fs, s⟩ ⟨_, hpasses, rfl⟩
    exact Runs.pure (hafter roll.orphans _ hpasses.books hpasses.spares)

/-- An act keeps the roll, and what it does not give back follows it. -/
theorem after_act (hkept : roll.Kept a p r leases loose) (hallowed : act.Allowed a r leases) :
    Runs Shared.noted front (act.job a).run (p, es, r)
      (fun lease t => roll.After a act p loose (act.leasesAfter lease leases) t)
      fun _ t => roll.After a act p loose leases t := by
  cases act with
  | request req => exact hkept.brings (request_leases req) (fun _ => rfl) fun _ => rfl
  | reserve size kind =>
    exact hkept.brings (reserveIn_leases World.window) (fun _ => rfl) fun _ => rfl
  | reserveIn size kind window =>
    exact hkept.brings (reserveIn_leases fun _ => hallowed) (fun _ => rfl) fun _ => rfl
  | mapArea address prot frames => exact hkept.mapArea hallowed
  | release lease => exact hkept.release hallowed
  | read address buffer => exact hkept.read hallowed
  | write address data => exact hkept.write hallowed

end Kept

end Roll

end

end PagedMemory
