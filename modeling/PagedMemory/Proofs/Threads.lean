import Mathlib.Tactic
import PagedMemory.Proofs.Copying
import PagedMemory.Proofs.Ownership

/-!
# Threads

Any number of threads with one allocator. Each goes through its routines section by section, and
sections of different threads follow one another in any order that the lock of the registry admits.

* `Plot`: what a thread has allocated, and which bytes it has written there since.
* `Use`, `Order`: what a thread can be told to do. `Outcome`: what comes of it.
* `Crew`: threads, what they share, and what they have read. `Crew.step`: one section of one thread.
* `Thread.Owns`, `Crew.Kept`: the invariant. What a thread has, and what its routine has in hand, is on
  the books, next to what belongs to others.
* `Crew.Kept.step`, `Crew.Kept.run`: threads do not get in each other's way.
-/

namespace PagedMemory

open Layout Tables

/-! ## What threads do -/

/-- An address that a thread has got, and what it has written from there on. -/
structure Plot where
  address : VirtAddr
  written : Nat → Option UInt8

/-- The plot after a write. -/
def Plot.write (plot : Plot) (address : VirtAddr) (data : List UInt8) : Plot where
  address := plot.address
  written y :=
    if address.val.toNat ≤ y then (data[y - address.val.toNat]?).or (plot.written y)
    else plot.written y

/-- What a read has answered, and the plot of which it was asked. -/
structure Reading where
  plot : Plot
  address : VirtAddr
  length : Nat
  count : Nat
  data : List UInt8

/-- All bytes were read, and those that the thread had written are as it wrote them. -/
structure Reading.Right (r : Reading) : Prop where
  count : r.count = r.length
  length : r.data.length = r.length
  written : ∀ k < r.length, ∀ b, r.plot.written (r.address.val.toNat + k) = some b →
    r.data[k]? = some b

/-- What comes of a routine: plots that the thread has then, and what it has read. -/
structure Outcome where
  plots : List Plot
  readings : List Reading

/-- What can be done with a plot. -/
inductive Use where
  | free
  | read (address : VirtAddr) (buffer : List UInt8)
  | write (address : VirtAddr) (data : List UInt8)

namespace Use

def job (a : Allocator) (plot : Plot) : Use → Job Outcome
  | free => do
    a.free plot.address
    return ⟨[], []⟩
  | read address buffer => do
    let (count, data) ← a.read address buffer
    return ⟨[plot], [⟨plot, address, buffer.length, count, data⟩]⟩
  | write address data => do
    let _ ← a.write address data
    return ⟨[plot.write address data], []⟩

/-- The plot stays with the thread meanwhile, unless it is given back. -/
def inUse (plot : Plot) : Use → List Plot
  | free => []
  | read _ _ => [plot]
  | write _ _ => [plot]

/-- What is read or written lies within the area of the plot. -/
def Allowed (r : Registry) (plot : Plot) : Use → Prop
  | free => True
  | read address buffer => ∃ area ∈ r.get? plot.address,
      area.Encloses address.val.toNat (address.val.toNat + buffer.length)
  | write address data => ∃ area ∈ r.get? plot.address,
      area.Encloses address.val.toNat (address.val.toNat + data.length)

end Use

/-- What a thread is told to do. -/
inductive Order where
  | allocate (size : UInt64) (policy : FramePolicy) (prot : Entry)
  /-- something with plot number `n` -/
  | use (n : Nat) (use : Use)

/-- Allocates, for a thread. -/
def Allocator.allocatePlot (a : Allocator) (size : UInt64) (policy : FramePolicy) (prot : Entry) :
    Job Outcome := do
  match ← a.allocate size policy prot with
  | .ok x => return ⟨[⟨x, fun _ => none⟩], []⟩
  | .error _ => return ⟨[], []⟩

structure Thread where
  /-- what the thread has got and does nothing with just now -/
  plots : List Plot
  /-- what it is reading or writing -/
  inUse : List Plot
  /-- what is left to do -/
  rest : Option (Job Outcome)

namespace Thread

def idle : Thread := ⟨[], [], none⟩

/-- The thread begins with what it is told to do. -/
def begin (a : Allocator) (t : Thread) : Order → Thread
  | .allocate size policy prot => { t with rest := some (a.allocatePlot size policy prot) }
  | .use n u =>
    match t.plots[n]? with
    | some plot => ⟨t.plots.eraseIdx n, u.inUse plot, some (u.job a plot)⟩
    | none => t

/-- How the next section of the thread stands to the lock. -/
def access? (t : Thread) : Option Access :=
  match t.rest with
  | some (.step access _ _) => some access
  | some (.done _) => none
  | none => none

/-- Plots that are the thread's. -/
def live (t : Thread) : List Plot := t.plots ++ t.inUse

end Thread

def Order.Allowed (r : Registry) (t : Thread) : Order → Prop
  | .allocate _ _ _ => True
  | .use n u => ∃ plot ∈ t.plots[n]?, u.Allowed r plot

/-- How many hold the registry for reading after a section. -/
def Access.readersAfter (readers : Nat) : Access → Nat
  | free => readers
  | shared => readers
  | exclusive => readers
  | enter => readers + 1
  | leave => readers - 1

/-- Threads with one allocator. Frames that were taken before are no matter of theirs. -/
structure Crew extends Client where
  registry : Registry
  /-- how many threads hold the registry for reading -/
  readers : Nat
  threads : List Thread
  readings : List Reading

/-- What can happen next. -/
inductive Move where
  /-- thread `i` is told to do something -/
  | start (i : Nat) (order : Order)
  /-- thread `i` goes through its next section, or is done -/
  | advance (i : Nat)
  /-- only `n` more requests for frames are to succeed -/
  | failAfter (n : Nat)
  | clearFailure

namespace Crew

def shared (c : Crew) : Shared := ⟨c.machine, c.registry⟩

def pool (c : Crew) : Pool := c.machine.pool

def step (a : Allocator) (c : Crew) : Move → Except Fault Crew
  | .start i order =>
    match c.threads[i]? with
    | some t => .ok { c with threads := c.threads.set i (t.begin a order) }
    | none => .ok c
  | .advance i =>
    match c.threads[i]? with
    | some ⟨plots, inUse, some (.step access act next)⟩ =>
      match act c.shared with
      | .ok v s => .ok { c with
          machine := s.machine
          registry := s.registry
          readers := access.readersAfter c.readers
          threads := c.threads.set i ⟨plots, inUse, some (next v)⟩ }
      | .error e _ => .error e
    | some ⟨plots, _, some (.done outcome)⟩ => .ok { c with
        threads := c.threads.set i ⟨outcome.plots ++ plots, [], none⟩
        readings := outcome.readings ++ c.readings }
    | some ⟨_, _, none⟩ => .ok c
    | none => .ok c
  | .failAfter n => .ok { c with toClient := c.toClient.withPool (c.pool.failAfter n) }
  | .clearFailure => .ok { c with toClient := c.toClient.withPool c.pool.clearFailure }

/-- What may happen next: a thread that has nothing to do is told to do something with what is its
own, or one that has something to do goes on, unless it would change the registry while others hold it
for reading. -/
def Allows (c : Crew) : Move → Prop
  | .start i order => ∃ t ∈ c.threads[i]?, t.rest.isNone = true ∧ order.Allowed c.registry t
  | .advance i => ∃ t ∈ c.threads[i]?, t.rest.isSome = true ∧
      (t.access? = some .exclusive → c.readers = 0)
  | .failAfter _ => True
  | .clearFailure => True

instance (r : Registry) (plot : Plot) (use : Use) : Decidable (use.Allowed r plot) := by
  cases use <;> unfold Use.Allowed <;> infer_instance

instance (r : Registry) (t : Thread) (order : Order) : Decidable (order.Allowed r t) := by
  cases order <;> unfold Order.Allowed <;> infer_instance

instance (c : Crew) (m : Move) : Decidable (c.Allows m) := by
  cases m <;> unfold Allows <;> infer_instance

def run (a : Allocator) (c : Crew) : List Move → Except Fault Crew
  | [] => .ok c
  | m :: moves =>
    match c.step a m with
    | .ok d => run a d moves
    | .error e => .error e

/-- All that happens may happen. -/
def Proper (a : Allocator) (c : Crew) : List Move → Prop
  | [] => True
  | m :: moves => c.Allows m ∧ match c.step a m with
    | .ok d => Proper a d moves
    | .error _ => True

instance decidableProper (a : Allocator) : (c : Crew) → (moves : List Move) →
    Decidable (c.Proper a moves)
  | _, [] => isTrue trivial
  | c, m :: moves =>
    have : Decidable (match c.step a m with
        | .ok d => Proper a d moves
        | .error _ => True) :=
      match c.step a m with
      | .ok d => decidableProper a d moves
      | .error _ => isTrue trivial
    inferInstanceAs (Decidable (c.Allows m ∧ _))

/-- All goes well: nothing faults, no error is reported, and nothing is copied from or to a frame that
is not in use at that moment. -/
def Smooth (a : Allocator) (c : Crew) : List Move → Prop
  | [] => True
  | m :: moves =>
    match c.step a m with
    | .ok d => (∃ fs, d.machine.notes = c.machine.notes ++ fs ∧ ∀ e ∈ fs, e.Fine c.pool) ∧
        Smooth a d moves
    | .error _ => False

/-- The threads of a client that has just made its allocator. -/
def start (t : Session) (n : Nat) : Crew :=
  ⟨t.toClient, t.registry, 0, List.replicate n Thread.idle, []⟩

end Crew

/-! ## What stands behind plots -/

section

variable {a : Allocator} {p q : Pool} {r : Registry} {plot : Plot} {plots : List Plot} {h : Holding}
  {tail chain : List Holding} {chains : List (List Holding)} {e own others : Estate} {es : List Event}

/-- Behind a plot stands a chain of areas that are mapped to their frames, and the first has the bytes
that were written. -/
structure Plot.Stands (a : Allocator) (p : Pool) (plot : Plot) (h : Holding) (tail : List Holding) :
    Prop where
  address : plot.address = h.area.address
  nonzero : h.area.address.val ≠ 0
  settled : ∀ y ∈ h :: tail, Settled p a.root y
  written : ∀ y, h.area.address.val.toNat ≤ y →
    y < h.area.address.val.toNat + h.frames.length * 4096 → ∀ b, plot.written y = some b →
    h.byteAt p (y - h.area.address.val.toNat) = b

def Plot.Has (a : Allocator) (p : Pool) (plot : Plot) (chain : List Holding) : Prop :=
  ∃ h tail, chain = h :: tail ∧ plot.Stands a p h tail

/-- While a plot is in use, its area stays the routine's, and stays mapped. -/
def Tends (a : Allocator) (plots : List Plot) (e : Estate) (q : Pool) : Prop :=
  ∀ plot ∈ plots, ∃ h tail, plot.address = h.area.address ∧ Tended a h tail e q

/-- What a routine leaves to its thread when it is done. -/
def Outcome.Due (a : Allocator) (o : Outcome) (e : Estate) (q : Pool) : Prop :=
  (∃ chains, e = ⟨[], chains⟩ ∧ List.Forall₂ (Plot.Has a q) o.plots chains) ∧ ∀ r ∈ o.readings, r.Right

theorem Plot.Stands.of_spares (hs : plot.Stands a p h tail)
    (hspares : Spares a (.ofChain (h :: tail)) p q) : plot.Stands a q h tail where
  address := hs.address
  nonzero := hs.nonzero
  settled y hy := (hs.settled y hy).of_spares hspares (Estate.mem_chains_ofChain hy) hy
  written y hlow hhigh b hb := by
    rw [hspares.byteAt_eq (fun f hf => Estate.mem_frames_ofChain.2 (List.mem_append_left _ hf))
      (by omega)]
    exact hs.written y hlow hhigh b hb

theorem Plot.has_of_spares (hspares : Spares a ⟨[], chains⟩ p q)
    (h : List.Forall₂ (Plot.Has a p) plots chains) : List.Forall₂ (Plot.Has a q) plots chains := by
  induction h with
  | nil => exact .nil
  | @cons plot chain plots chains hhead _ ih =>
    obtain ⟨y, tail, rfl, hs⟩ := hhead
    have hparts : Spares a (.ofChain (y :: tail) ++ ⟨[], chains⟩) p q := hspares
    exact .cons ⟨y, tail, rfl, hs.of_spares hparts.spares_left⟩ (ih hparts.spares_right)

theorem Tends.of_spares (h : Tends a plots e p) (hspares : Spares a e p q) : Tends a plots e q := by
  intro plot hplot
  obtain ⟨y, tail, haddress, rfl, hsettled⟩ := h plot hplot
  exact ⟨y, tail, haddress, hsettled.tended hspares⟩

/-- What was written to a plot is what a read answers. -/
theorem Plot.Stands.right (hs : plot.Stands a p h tail) {x : VirtAddr} {length : Nat}
    (hin : h.area.Encloses x.val.toNat (x.val.toNat + length)) :
    Reading.Right ⟨plot, x, length, length,
      (List.range' (x.val.toNat - h.area.address.val.toNat) length).map (h.byteAt p)⟩ where
  count := rfl
  length := by simp
  written k hk b hb := by
    have hk : k < length := hk
    have hlow := hin.start_le
    have hhigh := hin.le_stop
    have hcount := (hs.settled h List.mem_cons_self).backed.count
    have hindex : x.val.toNat - h.area.address.val.toNat + k =
        x.val.toNat + k - h.area.address.val.toNat := by omega
    have hbyte := hs.written (x.val.toNat + k) (by omega) (by omega) b hb
    change ((List.range' _ length).map _)[k]? = _
    rw [List.getElem?_map, List.getElem?_range' (by omega), Option.map_some, Nat.one_mul, hindex, hbyte]

/-- A write is kept in mind as it was done. -/
theorem Plot.Stands.write (hs : plot.Stands a p h tail) {x : VirtAddr} {data : List UInt8}
    (hx : h.area.address.val.toNat ≤ x.val.toNat)
    (hover : Overwritten a h tail p (x.val.toNat - h.area.address.val.toNat) data q) :
    (plot.write x data).Stands a q h tail where
  address := hs.address
  nonzero := hs.nonzero
  settled y hy := hover.settled hy (hs.settled y hy)
  written y hlow hhigh b hb := by
    have hbefore := hs.written y hlow hhigh b
    rw [hover.bytes _ (by omega), overwrite_sub hx hlow]
    simp only [Plot.write] at hb
    rw [overwrite]
    split at hb
    next hle =>
      rw [if_pos hle]
      cases hdata : data[y - x.val.toNat]? with
      | none =>
        rw [hdata, Option.none_or] at hb
        exact hbefore hb
      | some d =>
        rw [hdata, Option.some_or] at hb
        exact Option.some.inj hb
    next hlt =>
      rw [if_neg hlt]
      exact hbefore hb

/-! ## What comes of routines -/

theorem allocatePlot_behaves {size : UInt64} {policy : FramePolicy} {prot : Entry}
    (hstart : 0 < a.window.range.start.val.toNat) :
    Behaves a .strict (a.allocatePlot size policy prot) ∅ p (Outcome.Due a) (Tends a []) := by
  refine Behaves.bind ((allocate_behaves size policy prot).mono (fun _ _ _ hq => hq)
    fun _ _ _ => nofun) ?_
  rintro answer e q hq
  cases answer with
  | error _ => exact Behaves.pure ⟨⟨[], hq, .nil⟩, nofun⟩
  | ok x =>
    obtain ⟨h, tail, rfl, hle, rfl, hsettled, -⟩ := hq
    have hne : h.area.address.val ≠ 0 := by
      intro hzero
      have hle := UInt64.le_iff_toNat_le.1 hle
      rw [hzero] at hle
      exact absurd (Nat.lt_of_lt_of_le hstart hle) (Nat.lt_irrefl 0)
    exact Behaves.pure ⟨⟨_, rfl, .cons ⟨h, tail, rfl, rfl, hne, hsettled, nofun⟩ .nil⟩, nofun⟩

/-- What is done with a plot leaves the plot as it should be, or nothing. -/
theorem Use.job_behaves {use : Use} (hs : plot.Stands a p h tail)
    (hbooks : Books a p r (.ofChain (h :: tail) ++ others)) (hallowed : use.Allowed r plot) :
    Behaves a .strict (use.job a plot) (.ofChain (h :: tail)) p (Outcome.Due a)
      (Tends a (use.inUse plot)) := by
  have hmem : h.area ∈ r.areas := hbooks.area_mem (by simp [Estate.ofChain])
  have hwithin := World.within hbooks hmem
  have hhead := hs.settled h List.mem_cons_self
  have hget : r.get? plot.address = some h.area := hs.address ▸ World.get?_eq hbooks hmem
  have htends : ∀ e q, Tended a h tail e q → Tends a [plot] e q := by
    intro e q hq plot' hplot'
    obtain rfl := List.mem_singleton.1 hplot'
    exact ⟨h, tail, hs.address, hq⟩
  cases use with
  | free =>
    have hfree : Behaves a .strict (a.free plot.address) (.ofChain (h :: tail)) p
        fun _ e _ => e = ∅ := by
      rw [hs.address]
      exact free_behaves hwithin hs.nonzero fun y hy =>
        (hs.settled y (List.mem_cons_of_mem h hy)).shows
    refine Behaves.bind (hfree.mono (fun _ _ _ hq => hq) fun _ _ _ => List.forall_mem_nil _) ?_
    rintro _ _ q rfl
    exact Behaves.pure ⟨⟨[], rfl, .nil⟩, List.forall_mem_nil _⟩
  | read x buffer =>
    obtain ⟨area, harea, hin⟩ := hallowed
    obtain rfl : h.area = area := Option.some.inj (hget.symm.trans harea)
    refine Behaves.bind ((read_behaves hhead hwithin hin).mono (fun _ _ _ hq => hq) htends) ?_
    rintro ⟨count, data⟩ _ q ⟨rfl, hspares, hanswer⟩
    obtain ⟨rfl, rfl⟩ := Prod.mk.inj hanswer
    refine Behaves.pure ⟨⟨_, rfl, .cons ⟨h, tail, rfl, hs.of_spares hspares⟩ .nil⟩, fun r hr => ?_⟩
    obtain rfl := List.mem_singleton.1 hr
    exact hs.right hin
  | write x data =>
    obtain ⟨area, harea, hin⟩ := hallowed
    obtain rfl : h.area = area := Option.some.inj (hget.symm.trans harea)
    refine Behaves.bind ((write_behaves hhead hwithin hin).mono (fun _ _ _ hq => hq) htends) ?_
    rintro _ _ q ⟨rfl, -, hover⟩
    exact Behaves.pure ⟨⟨_, rfl, .cons ⟨h, tail, rfl, hs.write hin.start_le hover⟩ .nil⟩,
      List.forall_mem_nil _⟩

end

/-! ## The invariant -/

/-- The estate of a thread's routine, and a chain for each plot with which the thread does nothing. -/
structure Share where
  own : Estate
  chains : List (List Holding)

/-- What all have together. -/
def Share.all (shares : List Share) : Estate :=
  ⟨shares.flatMap fun s => s.own.loose, shares.flatMap fun s => s.own.chains ++ s.chains⟩

section

variable {a : Allocator} {p q : Pool} {r : Registry} {t : Thread} {s : Share}
  {front back shares : List Share} {loose : List PageFrame}

/-- A thread has what it should, and its routine will leave it what it should. -/
structure Thread.Owns (a : Allocator) (p : Pool) (t : Thread) (s : Share) : Prop where
  plots : List.Forall₂ (Plot.Has a p) t.plots s.chains
  tends : Tends a t.inUse s.own p
  idle : t.rest = none → s.own = ∅ ∧ t.inUse = []
  busy : ∀ job, t.rest = some job → ∃ p₀, Spares a s.own p₀ p ∧
    Behaves a .strict job s.own p₀ (Outcome.Due a) (Tends a t.inUse)

/-- What a thread has is left alone. -/
theorem Thread.Owns.of_spares (h : t.Owns a p s) (hspares : Spares a (s.own ++ ⟨[], s.chains⟩) p q) :
    t.Owns a q s where
  plots := Plot.has_of_spares hspares.spares_right h.plots
  tends := h.tends.of_spares hspares.spares_left
  idle := h.idle
  busy job hjob := by
    obtain ⟨p₀, hspares₀, hbehaves⟩ := h.busy job hjob
    exact ⟨p₀, hspares₀.trans hspares.spares_left, hbehaves⟩

/-- One of the shares, and all others. -/
theorem Share.books_iff : Books a p r (⟨loose, []⟩ ++ Share.all (front ++ s :: back)) ↔
    Books a p r (s.own ++ (⟨[], s.chains⟩ ++ (⟨loose, []⟩ ++ Share.all (front ++ back)))) := by
  have hmiddle : ∀ {β : Type} (f : Share → List β) (l : List β),
      (l ++ (front ++ s :: back).flatMap f).Perm (f s ++ (l ++ (front ++ back).flatMap f)) := by
    intro β f l
    rw [List.flatMap_append, List.flatMap_cons, List.flatMap_append]
    exact ((List.perm_append_comm_assoc ..).append_left l).trans (List.perm_append_comm_assoc ..)
  have hloose := hmiddle (fun s => s.own.loose) loose
  have hchains := hmiddle (fun s => s.own.chains ++ s.chains) []
  rw [List.append_assoc] at hchains
  exact ⟨fun h => h.perm hloose hchains, fun h => h.perm hloose.symm hchains.symm⟩

/-- What all others have is part of the whole. -/
theorem Share.spares_of_mem (hspares : Spares a (⟨loose, []⟩ ++ Share.all shares) p q)
    (hs : s ∈ shares) : Spares a (s.own ++ ⟨[], s.chains⟩) p q := by
  have hchains : ∀ c ∈ s.own.chains ++ s.chains, c ∈ (⟨loose, []⟩ ++ Share.all shares).chains :=
    fun c hc => List.mem_flatMap.2 ⟨s, hs, hc⟩
  refine hspares.mono (fun n hn => ?_) fun f hf => ?_
  · obtain ⟨area, harea, hcovers⟩ := hn
    obtain ⟨c, hc, h, hh, rfl⟩ := mem_areasOf.1 harea
    exact ⟨h.area, mem_areasOf.2 ⟨c, hchains c hc, h, hh, rfl⟩, hcovers⟩
  · rcases List.mem_append.1 hf with hf | hf
    · rw [Estate.loose_append, List.append_nil] at hf
      exact List.mem_append_left _ (List.mem_append_right _ (List.mem_flatMap.2 ⟨s, hs, hf⟩))
    · obtain ⟨h, hh, hf⟩ := List.mem_flatMap.1 hf
      obtain ⟨c, hc, hh⟩ := List.mem_flatten.1 hh
      exact List.mem_append_right _
        (List.mem_flatMap.2 ⟨h, List.mem_flatten.2 ⟨c, hchains c hc, hh⟩, hf⟩)

theorem forall₂_imp {α : Type 1} {β : Type} {R R' : α → β → Prop} {xs : List α}
    {ys : List β} (h : List.Forall₂ R xs ys) (hR : ∀ x, ∀ y ∈ ys, R x y → R' x y) :
    List.Forall₂ R' xs ys := by
  induction h with
  | nil => exact .nil
  | @cons x y xs ys hhead _ ih =>
    exact .cons (hR x y List.mem_cons_self hhead) (ih fun x y hy => hR x y (List.mem_cons_of_mem _ hy))

/-- One of two lists is changed at a place, and the other likewise. -/
theorem exists_split {α : Type 1} {β : Type} {R : α → β → Prop} {xs : List α} {ys : List β}
    (h : List.Forall₂ R xs ys) {i : Nat} {x : α} (hx : xs[i]? = some x) :
    ∃ front y back, ys = front ++ y :: back ∧ R x y ∧ ∀ (R' : α → β → Prop) (x' : α) (y' : β),
      (∀ x, ∀ z ∈ front ++ back, R x z → R' x z) → R' x' y' →
      List.Forall₂ R' (xs.set i x') (front ++ y' :: back) := by
  induction h generalizing i with
  | nil => cases hx
  | @cons x₁ y₁ xs ys hhead htail ih =>
    cases i with
    | zero =>
      obtain rfl : x₁ = x := Option.some.inj hx
      exact ⟨[], y₁, ys, rfl, hhead, fun R' x' y' hR hxy => .cons hxy (forall₂_imp htail hR)⟩
    | succ i =>
      obtain ⟨front, y, back, rfl, hxy, hset⟩ := ih hx
      refine ⟨y₁ :: front, y, back, rfl, hxy, fun R' x' y' hR hxy' => ?_⟩
      exact .cons (hR x₁ y₁ List.mem_cons_self hhead)
        (hset R' x' y' (fun x z hz => hR x z (List.mem_cons_of_mem _ hz)) hxy')

/-- A plot is taken off a list, and the chain behind it off the other. -/
theorem Plot.exists_chain {plots : List Plot} {chains : List (List Holding)} {n : Nat} {plot : Plot}
    (h : List.Forall₂ (Plot.Has a p) plots chains) (hn : plots[n]? = some plot) :
    ∃ chain rest, Plot.Has a p plot chain ∧ chains.Perm (chain :: rest) ∧
      List.Forall₂ (Plot.Has a p) (plots.eraseIdx n) rest := by
  induction h generalizing n with
  | nil => cases hn
  | @cons first chain plots chains hhead htail ih =>
    cases n with
    | zero =>
      obtain rfl : first = plot := Option.some.inj hn
      exact ⟨chain, chains, hhead, .refl _, htail⟩
    | succ n =>
      obtain ⟨chain', rest, hhas, hperm, hrest⟩ := ih hn
      exact ⟨chain', chain :: rest, hhas, (hperm.cons chain).trans (.swap _ _ _), .cons hhead hrest⟩

end

namespace Crew

variable {a : Allocator} {c d : Crew} {shares : List Share} {i : Nat} {t : Thread} {m : Move}

/-- Each thread has its share, and all shares are on the books. -/
structure Kept (a : Allocator) (c : Crew) (shares : List Share) : Prop where
  owns : List.Forall₂ (Thread.Owns a c.pool) c.threads shares
  books : Books a c.pool c.registry (⟨c.frames, []⟩ ++ Share.all shares)
  right : ∀ r ∈ c.readings, r.Right

/-- A step that goes well. -/
structure Steps (a : Allocator) (c d : Crew) : Prop where
  kept : ∃ shares, d.Kept a shares
  frames : d.frames = c.frames
  notes : ∃ fs, d.machine.notes = c.machine.notes ++ fs ∧ ∀ e ∈ fs, e.Fine c.pool

namespace Kept

/-- One thread, and what all others have. As long as that is spared, the invariant is kept if it is by
the thread. -/
theorem exists_share (h : c.Kept a shares) (ht : c.threads[i]? = some t) :
    ∃ s others, t.Owns a c.pool s ∧
      Books a c.pool c.registry (s.own ++ (⟨[], s.chains⟩ ++ others)) ∧
      ∀ (t' : Thread) (s' : Share) (d : Crew), d.threads = c.threads.set i t' →
        d.frames = c.frames → Spares a others c.pool d.pool → t'.Owns a d.pool s' →
        Books a d.pool d.registry (s'.own ++ (⟨[], s'.chains⟩ ++ others)) →
        (∀ r ∈ d.readings, r.Right) → ∃ shares, d.Kept a shares := by
  obtain ⟨front, s, back, rfl, howns, hset⟩ := exists_split h.owns ht
  refine ⟨s, _, howns, Share.books_iff.1 h.books,
    fun t' s' d hthreads hframes hspares howns' hbooks hright => ⟨front ++ s' :: back, ?_, ?_, hright⟩⟩
  · rw [hthreads]
    exact hset _ t' s' (fun x z hz hx => hx.of_spares (Share.spares_of_mem hspares hz)) howns'
  · rw [hframes]
    exact Share.books_iff.2 hbooks

/-- A thread that had nothing to do begins with something. -/
theorem step_start {order : Order} (hstart : 0 < a.window.range.start.val.toNat) (h : c.Kept a shares)
    (hallowed : c.Allows (.start i order)) : ∃ d, c.step a (.start i order) = .ok d ∧ c.Steps a d := by
  obtain ⟨t, ht, hidle, horder⟩ := hallowed
  have hidle := Option.isNone_iff_eq_none.1 hidle
  have ht : c.threads[i]? = some t := ht
  obtain ⟨s, others, howns, hbooks, hchange⟩ := h.exists_share ht
  obtain ⟨hown, huse⟩ := howns.idle hidle
  refine ⟨{ c with threads := c.threads.set i (t.begin a order) }, by simp only [step, ht], ?_, rfl,
    [], (List.append_nil _).symm, nofun⟩
  cases order with
  | allocate size policy prot =>
    refine hchange _ s _ rfl rfl .refl ⟨howns.plots, howns.tends, nofun, fun job hjob => ?_⟩ hbooks
      h.right
    obtain rfl := Option.some.inj hjob
    refine ⟨c.pool, .refl, ?_⟩
    change Behaves a .strict _ s.own _ _ (Tends a t.inUse)
    rw [hown, huse]
    exact allocatePlot_behaves hstart
  | use n use =>
    obtain ⟨plot, hplot, hallowed⟩ := horder
    have hplot : t.plots[n]? = some plot := hplot
    obtain ⟨_, rest, ⟨y, tail, rfl, hstands⟩, hperm, hrest⟩ := Plot.exists_chain howns.plots hplot
    have hbooks' : Books a c.pool c.registry (.ofChain (y :: tail) ++ (⟨[], rest⟩ ++ others)) := by
      rw [hown] at hbooks
      exact World.perm hbooks (.refl _) (hperm.append_right _)
    have hbegin : t.begin a (.use n use) =
        ⟨t.plots.eraseIdx n, use.inUse plot, some (use.job a plot)⟩ := by
      simp only [Thread.begin, hplot]
    rw [hbegin]
    refine hchange _ ⟨.ofChain (y :: tail), rest⟩ _ rfl rfl .refl ⟨hrest, ?_, nofun, fun job hjob => ?_⟩
      hbooks' h.right
    · intro plot' hplot'
      have hsame : plot' = plot := by
        cases use with
        | free => cases hplot'
        | read _ _ => exact List.mem_singleton.1 hplot'
        | write _ _ => exact List.mem_singleton.1 hplot'
      exact ⟨y, tail, hsame ▸ hstands.address, rfl, hstands.settled y List.mem_cons_self⟩
    · obtain rfl := Option.some.inj hjob
      exact ⟨c.pool, .refl, Use.job_behaves hstands hbooks' hallowed⟩

/-- A thread goes on, or is done. -/
theorem step_advance (h : c.Kept a shares) (hallowed : c.Allows (.advance i)) :
    ∃ d, c.step a (.advance i) = .ok d ∧ c.Steps a d := by
  obtain ⟨⟨plots, inUse, rest⟩, ht, hbusy, -⟩ := hallowed
  have ht : c.threads[i]? = some ⟨plots, inUse, rest⟩ := ht
  obtain ⟨job, rfl⟩ := Option.isSome_iff_exists.1 hbusy
  obtain ⟨s, others, howns, hbooks, hchange⟩ := h.exists_share ht
  obtain ⟨p₀, hspares, hbehaves⟩ := howns.busy job rfl
  cases job with
  | done outcome =>
    obtain ⟨⟨chains, hown, hhas⟩, hright⟩ := hbehaves
    have hstep : c.step a (.advance i) = .ok { c with
        threads := c.threads.set i ⟨outcome.plots ++ plots, [], none⟩
        readings := outcome.readings ++ c.readings } := by simp only [step, ht]
    refine ⟨_, hstep, ?_, rfl, [], (List.append_nil _).symm, nofun⟩
    refine hchange _ ⟨∅, chains ++ s.chains⟩ _ rfl rfl .refl ⟨?_, nofun, fun _ => ⟨rfl, rfl⟩, nofun⟩ ?_ ?_
    · rw [hown] at hspares
      exact List.rel_append (Plot.has_of_spares hspares hhas) howns.plots
    · rw [hown] at hbooks
      refine World.perm hbooks (.refl _) (List.Perm.of_eq ?_)
      exact (List.append_assoc chains s.chains others.chains).symm
    · exact List.forall_mem_append.2 ⟨hright, h.right⟩
  | step access act next =>
    have hends := hbehaves c.machine.front c.pool c.machine.notes c.registry _ hbooks nofun hspares
      c.shared rfl rfl
    unfold Ends at hends
    split at hends
    next v u hok =>
      obtain ⟨-, mine, hsection, htends, hnext⟩ := hends
      have hlive := hsection.spares
      have hstep : c.step a (.advance i) = .ok { c with
          machine := u.machine
          registry := u.registry
          readers := access.readersAfter c.readers
          threads := c.threads.set i ⟨plots, inUse, some (next v)⟩ } := by simp only [step, ht, hok]
      refine ⟨_, hstep, ?_, rfl, hsection.notes⟩
      refine hchange _ ⟨mine, s.chains⟩ _ rfl rfl hlive.spares_right
        ⟨Plot.has_of_spares hlive.spares_left howns.plots, htends, nofun, fun job hjob => ?_⟩
        hsection.books h.right
      obtain rfl := Option.some.inj hjob
      exact ⟨_, .refl, hnext⟩
    next e u herror => exact absurd hends.2.lenient nofun

/-- Whatever happens next, it goes well. -/
theorem step (hstart : 0 < a.window.range.start.val.toNat) (h : c.Kept a shares) (hm : c.Allows m) :
    ∃ d, c.step a m = .ok d ∧ c.Steps a d := by
  have hbudget : ∀ budget, c.Steps a
      { c with toClient := c.toClient.withPool { c.pool with budget := budget } } := by
    intro budget
    have halike := h.books.pool.alike_withBudget budget
    have hspares : Spares a (⟨c.frames, []⟩ ++ Share.all shares) c.pool
        { c.pool with budget := budget } := (World.of_alike h.books halike).2
    refine ⟨⟨shares, ?_, (World.of_alike (F := fun _ => True) (P := fun _ => True) h.books halike).1,
      h.right⟩, rfl, [], (List.append_nil _).symm, nofun⟩
    exact forall₂_imp h.owns fun x s hs hx => hx.of_spares (Share.spares_of_mem hspares hs)
  cases m with
  | start i order => exact h.step_start hstart hm
  | advance i => exact h.step_advance hm
  | failAfter n => exact ⟨_, rfl, hbudget (some n)⟩
  | clearFailure => exact ⟨_, rfl, hbudget none⟩

/-- Likewise for all that happens one after the other. -/
theorem run {moves : List Move} (hstart : 0 < a.window.range.start.val.toNat) (h : c.Kept a shares)
    (hproper : c.Proper a moves) :
    c.Smooth a moves ∧ ∃ d shares, c.run a moves = .ok d ∧ d.Kept a shares ∧ d.frames = c.frames := by
  induction moves generalizing c shares with
  | nil => exact ⟨trivial, c, shares, rfl, h, rfl⟩
  | cons m moves ih =>
    obtain ⟨hm, hrest⟩ := hproper
    obtain ⟨d, hstep, ⟨shares', hd⟩, hframes, hnotes⟩ := h.step hstart hm
    rw [hstep] at hrest
    obtain ⟨hsmooth, u, shares'', hrun, hu, hframes'⟩ := ih hd hrest
    refine ⟨?_, u, shares'', ?_, hu, hframes'.trans hframes⟩
    · rw [Smooth, hstep]
      exact ⟨hnotes, hsmooth⟩
    · rw [Crew.run, hstep]
      exact hrun

end Kept

end Crew

end PagedMemory
