import Mathlib.Tactic
import PagedMemory.Proofs.Borrowing

/-!
# Clients of a pool

A client may ask the pool for frames itself, and it decides when requests begin to fail.

* `FrameCall`: what a client does with the pool. `Client.step`: one such call, and `Client.Moved`:
  what it can come to.
* `Client.Alone`: all frames in use are the client's. A new pool is like that, whatever its client
  does with it.
* `World.moved`: next to an allocator, the client's calls keep the books of the allocator.
* `create_does`: a new allocator has books, on which the client's frames are loose.
-/

namespace PagedMemory

open Layout Tables

/-- What a client does with the pool itself. -/
inductive FrameCall where
  | take (policy : FramePolicy)
  | giveBack (frame : PageFrame)
  /-- only `n` more requests are to succeed, whoever makes them -/
  | failAfter (n : Nat)
  | clearFailure

/-- A machine, and the frames that a client took from its pool. -/
structure Client where
  machine : Machine
  frames : List PageFrame

namespace Client

variable {c d : Client} {call : FrameCall} {f : PageFrame}

def withPool (c : Client) (pool : Pool) : Client := { c with machine := { c.machine with pool } }

def step (c : Client) : FrameCall → Except Fault Client
  | .take policy =>
    match Machine.takeFrame policy c.machine with
    | .ok (some f) machine => .ok ⟨machine, f :: c.frames⟩
    | .ok none machine => .ok ⟨machine, c.frames⟩
    | .error e _ => .error e
  | .giveBack f =>
    match Machine.returnFrame f c.machine with
    | .ok _ machine => .ok ⟨machine, c.frames.erase f⟩
    | .error e _ => .error e
  | .failAfter n => .ok (c.withPool (c.machine.pool.failAfter n))
  | .clearFailure => .ok (c.withPool c.machine.pool.clearFailure)

/-- A client gives back what is its own. -/
def Allows (c : Client) : FrameCall → Prop
  | .giveBack f => f ∈ c.frames
  | .take _ => True
  | .failAfter _ => True
  | .clearFailure => True

instance (c : Client) (call : FrameCall) : Decidable (c.Allows call) := by
  cases call <;> unfold Allows <;> infer_instance

/-- What a call can come to: a frame changes hands, or none does. -/
inductive Moved (c d : Client) : FrameCall → Prop
  | took {policy : FramePolicy} (f : PageFrame) (pool : c.machine.pool.Handed f d.machine.pool)
      (frames : d.frames = f :: c.frames) (notes : d.machine.notes = c.machine.notes) :
      Moved c d (.take policy)
  | gave {f : PageFrame} (pool : c.machine.pool.Returned f d.machine.pool)
      (frames : d.frames = c.frames.erase f)
      (notes : d.machine.notes = c.machine.notes ++ [.returned f]) : Moved c d (.giveBack f)
  | idle {call : FrameCall} (pool : c.machine.pool.Alike d.machine.pool)
      (frames : d.frames = c.frames) (notes : d.machine.notes = c.machine.notes) : Moved c d call

/-- A call ends well as long as the client gives back what is in use. -/
theorem step_ends (hpool : c.machine.pool.Sound)
    (htaken : ∀ f, call = .giveBack f → c.machine.pool.isTaken f = true) :
    ∃ d, c.step call = .ok d ∧ Moved c d call := by
  cases call with
  | take policy =>
    obtain ⟨answer, machine, hrun, hback, hpost⟩ :=
      (Machine.takeFrame_does hpool policy).exists_ok (s := c.machine) rfl rfl
    have hnotes : machine.notes = c.machine.notes := (Backdrop.mk.inj hback).2
    cases answer with
    | none => exact ⟨⟨machine, c.frames⟩, by simp only [step, hrun], .idle hpost rfl hnotes⟩
    | some f =>
      exact ⟨⟨machine, f :: c.frames⟩, by simp only [step, hrun], .took f hpost rfl hnotes⟩
  | giveBack f =>
    obtain ⟨_, machine, hrun, -, hpost, hnotes⟩ :=
      (Machine.returnFrame_runs hpool (htaken f rfl)).exists_ok (s := c.machine) rfl rfl
    exact ⟨⟨machine, c.frames.erase f⟩, by simp only [step, hrun], .gave hpost rfl hnotes⟩
  | failAfter n => exact ⟨_, rfl, .idle (hpool.alike_withBudget (some n)) rfl rfl⟩
  | clearFailure => exact ⟨_, rfl, .idle (hpool.alike_withBudget none) rfl rfl⟩

/-! ## Clients without an allocator -/

/-- The frames in use are those that the client took. -/
structure Alone (c : Client) : Prop where
  pool : c.machine.pool.Sound
  nodup : c.frames.Nodup
  taken : ∀ f, c.machine.pool.isTaken f = true ↔ f ∈ c.frames
  /-- nothing notable has happened but that frames were given back -/
  notes : ∀ e ∈ c.machine.notes, ∃ f, e = .returned f

theorem Alone.moved (hc : c.Alone) (hmoved : Moved c d call) : d.Alone := by
  cases hmoved with
  | took f hpool hframes hnotes =>
    have hfresh : f ∉ c.frames := by
      rw [← hc.taken, hpool.fresh]
      exact Bool.false_ne_true
    refine ⟨hpool.sound, hframes ▸ List.nodup_cons.2 ⟨hfresh, hc.nodup⟩, fun g => ?_,
      hnotes ▸ hc.notes⟩
    rw [hpool.taken, hframes, List.mem_cons, ← hc.taken]
    split <;> simp [*]
  | @gave f hpool hframes hnotes =>
    refine ⟨hpool.sound, hframes ▸ hc.nodup.erase f, fun g => ?_, ?_⟩
    · rw [hpool.taken, hframes, hc.nodup.mem_erase_iff, ← hc.taken]
      split <;> simp [*]
    · rw [hnotes]
      exact List.forall_mem_append.2 ⟨hc.notes, fun e he => ⟨f, List.mem_singleton.1 he⟩⟩
  | idle hpool hframes hnotes =>
    refine ⟨hpool.sound, hframes ▸ hc.nodup, fun g => ?_, hnotes ▸ hc.notes⟩
    rw [hpool.taken, hframes, hc.taken]

end Client

/-- Frames that are not in use cannot be given back. -/
theorem Pool.giveBack_faults {p : Pool} {f : PageFrame} (h : p.isTaken f = false) :
    Ends (giveBack f) p (fun _ _ => False) fun _ q => q = p := by
  rw [isTaken] at h
  refine Ends.bind_get ?_
  cases hindex : p.indexOf? f.base with
  | none => exact Ends.throw rfl
  | some i =>
    rw [hindex] at h
    simp only [h]
    exact Ends.throw rfl

theorem Machine.isTaken_of_returnFrame {m m' : Machine} {f : PageFrame}
    (h : returnFrame f m = .ok () m') : m.pool.isTaken f = true := by
  by_contra hfree
  have hfault := Pool.giveBack_faults (Bool.eq_false_of_not_eq_true hfree)
  rw [Ends] at hfault
  change EStateM.bind (onPool (Pool.giveBack f)) _ m = _ at h
  cases hgive : Pool.giveBack f m.pool with
  | ok _ _ =>
    rw [hgive] at hfault
    exact hfault
  | error e _ =>
    simp only [EStateM.bind, onPool, hgive] at h
    cases h

namespace Client

variable {c d : Client}

/-- Whatever a lone client does, it stays alone, unless it gives back what it has not got and thereby
comes to grief. -/
theorem Alone.step {call : FrameCall} (hc : c.Alone) (h : c.step call = .ok d) : d.Alone := by
  have htaken : ∀ f, call = .giveBack f → c.machine.pool.isTaken f = true := by
    rintro f rfl
    rw [Client.step] at h
    split at h
    next hrun => exact Machine.isTaken_of_returnFrame hrun
    next => cases h
  obtain ⟨d', hd', hmoved⟩ := step_ends hc.pool htaken
  obtain rfl : d = d' := Except.ok.inj (h.symm.trans hd')
  exact hc.moved hmoved

/-- A client of a new pool. -/
def create (base : PageFrame) (count : Nat) (front : Front) : Client :=
  ⟨Machine.create (Pool.create base count) front, []⟩

def run (c : Client) (calls : List FrameCall) : Except Fault Client := calls.foldlM step c

theorem Alone.run {calls : List FrameCall} (hc : c.Alone) (h : c.run calls = .ok d) : d.Alone := by
  induction calls generalizing c with
  | nil =>
    obtain rfl : c = d := Except.ok.inj h
    exact hc
  | cons call calls ih =>
    rw [Client.run, List.foldlM_cons] at h
    cases hstep : c.step call with
    | error e =>
      rw [hstep] at h
      cases h
    | ok d' =>
      rw [hstep] at h
      exact ih (hc.step hstep) h

/-- The client gives back only what is its own, all along. -/
def Proper (c : Client) : List FrameCall → Prop
  | [] => True
  | call :: calls => c.Allows call ∧ match c.step call with
    | .ok d => d.Proper calls
    | .error _ => True

instance decidableProper : (c : Client) → (calls : List FrameCall) → Decidable (c.Proper calls)
  | _, [] => isTrue trivial
  | c, call :: calls =>
    have : Decidable (match c.step call with
        | .ok d => d.Proper calls
        | .error _ => True) :=
      match c.step call with
      | .ok d => decidableProper d calls
      | .error _ => isTrue trivial
    inferInstanceAs (Decidable (c.Allows call ∧ _))

/-- A lone client that does so does not come to grief. -/
theorem Alone.run_ends {calls : List FrameCall} (hc : c.Alone) (hproper : c.Proper calls) :
    ∃ d, c.run calls = .ok d ∧ d.Alone := by
  induction calls generalizing c with
  | nil => exact ⟨c, rfl, hc⟩
  | cons call calls ih =>
    obtain ⟨hallowed, hrest⟩ := hproper
    have htaken : ∀ f, call = .giveBack f → c.machine.pool.isTaken f = true := by
      rintro f rfl
      exact (hc.taken f).2 hallowed
    obtain ⟨d, hd, -⟩ := step_ends hc.pool htaken
    rw [hd] at hrest
    obtain ⟨d', hrun, halone⟩ := ih (hc.step hd) hrest
    exact ⟨d', by rw [Client.run, List.foldlM_cons, hd]; exact hrun, halone⟩

end Client

theorem Client.alone_create {base : PageFrame} {count : Nat} (front : Front)
    (h : base.base.val.toNat + count * 4096 ≤ 2 ^ 52) : (create base count front).Alone where
  pool := Pool.sound_create h
  nodup := List.nodup_nil
  taken f := by
    change (Pool.create base count).isTaken f = true ↔ f ∈ []
    simp [Pool.isTaken_create]
  notes := nofun

/-! ## Clients next to an allocator -/

section

variable {a : Allocator} {p q : Pool} {r : Registry} {chains : List (List Holding)} {c d : Client}
  {call : FrameCall} {root f : PageFrame} {n : Nat}

/-- What a client does with the pool is no matter of areas. -/
theorem World.moved (hw : World a c.machine.pool r c.frames chains) (hallowed : c.Allows call)
    (hmoved : Client.Moved c d call) :
    World a d.machine.pool r d.frames chains ∧
      Keeps a.root (fun _ => True) (· ∈ heldBy chains) c.machine.pool d.machine.pool := by
  have hmem : ∀ f ∈ heldBy chains, f ∈ owned c.frames chains := fun f hf => List.mem_append_right _ hf
  cases hmoved with
  | took f hpool hframes _ =>
    rw [hframes]
    exact ⟨hw.hand hpool, (hw.keeps_of_handed hpool).mono (fun _ hn => hn) hmem⟩
  | @gave f hpool hframes _ =>
    have hlist := hw.perm (List.perm_cons_erase hallowed) (List.Perm.refl _)
    rw [hframes]
    exact ⟨hlist.giveBack hpool, .of_page hpool.base hpool.size (fun g _ => hpool.page g) fun g _ =>
      hpool.page g⟩
  | idle hpool hframes _ =>
    rw [hframes]
    exact hw.of_alike hpool

/-! ### New allocators -/

theorem Tables.entryAt_of_zero {i : TableIndex} (h : p.page root = Page.zero) :
    p.entryAt root i = .empty := by
  rw [Pool.entryAt, h, Page.get_zero]
  rfl

theorem Tables.table?_of_zero (h : p.page root = Page.zero) (i : TableIndex) :
    (p.entryAt root i).table? = none := by
  rw [entryAt_of_zero h]
  rfl

theorem Tables.leafOn_of_zero (h : p.page root = Page.zero) (n : Nat) : leafOn p root n = .empty :=
  leafOn_of_nowhere (table?_of_zero h) n

theorem Tables.isTable_of_zero (h : p.page root = Page.zero) : IsTable p root f ↔ f = root :=
  isTable_of_nowhere (table?_of_zero h)

theorem Tables.sound_of_zero (h : p.page root = Page.zero) (htaken : p.isTaken root = true) :
    Tables.Sound p root where
  taken := (Held.of_nowhere (table?_of_zero h) htaken).taken
  apart := (Held.of_nowhere (table?_of_zero h) htaken).apart
  tidy n hn l t e hl ht := by
    rw [tableOn_of_nowhere (table?_of_zero h)] at ht
    split at ht
    next =>
      obtain rfl := Option.some.inj ht
      have hempty : p.entryAt root (l.slot n) = .empty := entryAt_of_zero h
      rw [hempty]
      nofun
    next => cases ht
  present n _ hmapped := absurd (leafOn_of_zero h n) hmapped

/-- A new allocator has no areas, and its tables map nothing. -/
theorem create_does {window : Window} {frames : List PageFrame} {back : Backdrop} (hp : p.Sound)
    (hnodup : frames.Nodup) (htaken : ∀ f, p.isTaken f = true ↔ f ∈ frames)
    (hblock : window.range.stop.val.toNat ≤
      (window.range.start.val.toNat / 2 ^ 48 + 1) * 2 ^ 48) :
    Does back (Allocator.create window) p fun answer q => p.Leaves (p.isTaken · = true) q ∧
      ∀ a, answer = .ok a → a.window = window ∧ (∀ f, IsTable q a.root f → p.isTaken f = false) ∧
        World a q Registry.empty frames [] := by
  refine Runs.bind (newTable_does hp) ?_
  intro answer q h
  cases answer with
  | error e => exact Runs.pure ⟨h.1.leaves, fun _ he => nomatch he⟩
  | ok root =>
    obtain ⟨hhanded, hzero, -⟩ := h
    refine Runs.pure ⟨hhanded.leaves, ?_⟩
    rintro a ⟨rfl⟩
    refine ⟨rfl, fun f hf => (isTable_of_zero hzero).1 hf ▸ hhanded.fresh, ?_⟩
    exact {
      pool := hhanded.sound
      tables := sound_of_zero hzero hhanded.isTaken
      registry := Registry.sound_empty
      oneBlock := hblock
      inside := fun _ harea => nomatch harea
      listed := List.Perm.refl _
      chained := fun _ hc => nomatch hc
      nodup := by simpa [owned, heldBy] using hnodup
      taken := fun f => by
        rw [isTable_of_zero hzero, hhanded.taken]
        split <;> simp [owned, heldBy, *]
      apart := fun f hf htable => by
        obtain rfl := (isTable_of_zero hzero).1 htable
        have hmine : f ∈ frames := by simpa [owned, heldBy] using hf
        rw [← htaken, hhanded.fresh] at hmine
        cases hmine
      covered := fun n _ hne => absurd (leafOn_of_zero hzero n) hne }

end

end PagedMemory
