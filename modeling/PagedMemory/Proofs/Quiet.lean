import Mathlib.Tactic
import PagedMemory.Proofs.Finding
import PagedMemory.Proofs.Sessions

/-!
# Sessions without incident

A client that keeps the rules never makes an allocator fault, and never gives it reason to report an
error.

* `Machine.Quiet`: no error was ever reported. `Behaves.reports`, `Behaves.quiet`: a routine that behaves
  reports none, and leaves it so.
* `Dealing`: calls, and looking things up in between. `Session.deal`, `Session.Honest`: a run of them,
  and that the client keeps the rules all along.
* `Setting.run_quiet`: from the first call on, honest runs do not fault, and the machine stays quiet.
-/

namespace PagedMemory

open Layout Tables

/-! ## Quiet machines -/

/-- Nothing was ever reported as an error. -/
def Machine.Quiet (m : Machine) : Prop := ∀ r, .reported r ∈ m.trace.toList → r.severity ≠ .error

theorem Report.isNote_of_error {r : Report} (h : r.severity = .error) : r.isNote = true := by
  cases r <;> first | rfl | cases h

/-- Whether a machine is quiet can be told from its notes. -/
theorem Machine.quiet_iff {m : Machine} :
    m.Quiet ↔ ∀ r, .reported r ∈ m.notes → r.severity ≠ .error := by
  refine ⟨fun h r hr => h r (List.mem_of_mem_filter hr), fun h r hr herror => ?_⟩
  exact h r (List.mem_filter.2 ⟨hr, Report.isNote_of_error herror⟩) herror

section

variable {a : Allocator} {T : Terms} {p : Pool} {r : Registry} {own others mine : Estate} {m m' : Machine}

/-- A routine that behaves reports no error. -/
theorem Behaves.reports {α : Type} {w : Job α} {Q : α → Estate → Pool → Prop} {I : Estate → Pool → Prop}
    {s s' : Shared} {v : α} (h : Behaves a T w own s.machine.pool Q I) (hT : T ≠ .lenient)
    (hbooks : Books a s.machine.pool s.registry (own ++ others))
    (hrelies : T.Relies a s.machine.pool s.machine.notes others) (hrun : w.run s = .ok v s') :
    ∃ fs, s'.machine.notes = s.machine.notes ++ fs ∧ ∀ r, .reported r ∈ fs → r.severity ≠ .error := by
  refine (Routine.visits_of_run hrun).keeps (P := fun m => ∃ fs,
    m.machine.notes = s.machine.notes ++ fs ∧ ∀ r, .reported r ∈ fs → r.severity ≠ .error)
    ?_ ⟨[], (List.append_nil _).symm, fun _ hr => nomatch hr⟩
  rintro n n' hn ⟨fs, hfs, hquiet⟩
  obtain ⟨_, _, -, hsection⟩ := h.steps hT hbooks hrelies hn
  obtain ⟨gs, hgs, hfine⟩ := hsection.notes
  refine ⟨fs ++ gs, (hgs.trans (congrArg (· ++ gs) hfs)).trans (List.append_assoc _ _ _), fun r hr => ?_⟩
  exact (List.mem_append.1 hr).elim (hquiet r) (hfine _)

theorem Machine.Quiet.append {fs : List Event} (h : m.Quiet) (hnotes : m'.notes = m.notes ++ fs)
    (hfs : ∀ r, .reported r ∈ fs → r.severity ≠ .error) : m'.Quiet := by
  rw [quiet_iff] at h ⊢
  intro r hr
  rw [hnotes, List.mem_append] at hr
  exact hr.elim (h r) (hfs r)

/-- A machine stays quiet under a routine that behaves. -/
theorem Behaves.quiet {α : Type} {w : Job α} {Q : α → Estate → Pool → Prop} {I : Estate → Pool → Prop}
    {s s' : Shared} {v : α} (h : Behaves a T w own s.machine.pool Q I) (hT : T ≠ .lenient)
    (hbooks : Books a s.machine.pool s.registry (own ++ others))
    (hrelies : T.Relies a s.machine.pool s.machine.notes others) (hrun : w.run s = .ok v s')
    (hquiet : s.machine.Quiet) : s'.machine.Quiet := by
  obtain ⟨fs, hnotes, hreports⟩ := h.reports hT hbooks hrelies hrun
  exact hquiet.append hnotes hreports

end

/-! ## Looking things up -/

theorem translate_looks {a : Allocator} {p : Pool} {T : Terms} (x : VirtAddr) :
    Behaves a T (a.translate x) ∅ p fun _ e _ => e = ∅ :=
  Behaves.looks fun _ _ _ _ hbooks _ =>
    Runs.imp (translate_does hbooks.tables.formed x) fun _ _ hq => ⟨hq.2, rfl⟩

theorem findArea_looks {a : Allocator} {p : Pool} {T : Terms} (x : VirtAddr) :
    Behaves a T (Allocator.findArea x) ∅ p fun _ e _ => e = ∅ :=
  Behaves.peeks fun _ _ _ _ _ hbooks _ => Runs.bind_get fun s hs _ => by
    obtain ⟨-, -, hregistry⟩ := Shared.noted_eq hs
    rw [hregistry]
    exact Runs.bind_lift (hbooks.registry.findContaining?_eq_ok x) (Runs.pure ⟨rfl, rfl⟩)

/-- What a client does: calls, and looking things up. -/
inductive Dealing where
  | call (c : Call)
  | translate (x : VirtAddr)
  | findArea (x : VirtAddr)

namespace Session

/-- A routine that brings the client nothing to give back. -/
def look {α : Type} (t : Session) (w : Job α) : Except Fault Session :=
  match w.run t.shared with
  | .ok _ s => .ok (t.withShared s t.live)
  | .error e _ => .error e

def dealOne (a : Allocator) (t : Session) : Dealing → Except Fault Session
  | .call c => t.step a c
  | .translate x => t.look (a.translate x)
  | .findArea x => t.look (Allocator.findArea x)

def deal (a : Allocator) (t : Session) (dealings : List Dealing) : Except Fault Session :=
  dealings.foldlM (dealOne a) t

/-- The rules are those for calls; one may look at any address. -/
def Permits (t : Session) : Dealing → Prop
  | .call c => t.Allows c
  | .translate _ => True
  | .findArea _ => True

instance (t : Session) (d : Dealing) : Decidable (t.Permits d) := by
  cases d <;> unfold Permits <;> infer_instance

/-- The client keeps the rules all along. -/
def Honest (a : Allocator) (t : Session) : List Dealing → Prop
  | [] => True
  | d :: dealings => t.Permits d ∧ match t.dealOne a d with
    | .ok u => u.Honest a dealings
    | .error _ => True

instance decidableHonest (a : Allocator) : (t : Session) → (dealings : List Dealing) →
    Decidable (t.Honest a dealings)
  | _, [] => isTrue trivial
  | t, d :: dealings =>
    have : Decidable (match t.dealOne a d with
        | .ok u => u.Honest a dealings
        | .error _ => True) :=
      match t.dealOne a d with
      | .ok u => decidableHonest a u dealings
      | .error _ => isTrue trivial
    inferInstanceAs (Decidable (t.Permits d ∧ _))

/-! ## Runs -/

variable {a : Allocator} {t u : Session} {chains : List (List Holding)} {c : Call} {d : Dealing}

namespace Kept

/-- To look changes nothing that is on the books. -/
theorem look {α : Type} {w : Job α} (h : t.Kept a chains)
    (hw : Behaves a .strict w ∅ t.machine.pool fun _ e _ => e = ∅) :
    ∃ u, t.look w = .ok u ∧ u.Kept a chains ∧ (t.machine.Quiet → u.machine.Quiet) := by
  have hbooks : Books a t.machine.pool t.registry (∅ ++ ⟨t.frames, chains⟩) := h.world
  obtain ⟨answer, s, hrun, _, hpasses, rfl⟩ := hw.answers (s := t.shared) nofun hbooks nofun
  refine ⟨t.withShared s t.live, by rw [Session.look, hrun], ⟨hpasses.books, h.granted, h.nonzero,
    fun chain hc => h.world.allBacked_of_spares hpasses.spares hc hc (h.backed chain hc)⟩, ?_⟩
  exact hw.quiet (s := t.shared) nofun hbooks nofun hrun

/-- A call that is allowed gives no reason to report an error. -/
theorem step_quiet (h : t.Kept a chains) (hc : t.Allows c) (hstep : t.step a c = .ok u)
    (hquiet : t.machine.Quiet) : u.machine.Quiet := by
  cases c with
  | request req =>
    have hbooks : Books a t.machine.pool t.registry (∅ ++ ⟨t.frames, chains⟩) := h.world
    have hjob : ∀ {answer s}, (req.job a).run t.shared = .ok answer s → s.machine.Quiet := fun hrun =>
      (Request.job_behaves (T := .strict) (Or.inr hc)).quiet (s := t.shared) nofun hbooks nofun hrun
        hquiet
    rw [Session.step] at hstep
    split at hstep
    next hrun =>
      cases hstep
      exact hjob hrun
    next hrun =>
      cases hstep
      exact hjob hrun
    next => cases hstep
  | release call x =>
    obtain ⟨chain, chains', -, -, hjob, hbooks, -⟩ := h.release_behaves (T := .strict) nofun hc
    rw [Session.step] at hstep
    split at hstep
    next hrun =>
      cases hstep
      exact hjob.quiet (s := t.shared) nofun hbooks nofun hrun hquiet
    next => cases hstep
  | frames call =>
    obtain ⟨v, hv, -, hmoved, -⟩ := h.step_frames hc
    obtain rfl : u = v := Except.ok.inj (hstep.symm.trans hv)
    have hnotes : ∃ fs, u.machine.notes = t.machine.notes ++ fs ∧
        ∀ r, .reported r ∈ fs → r.severity ≠ .error := by
      have hnone : ∀ r, .reported r ∈ ([] : List Event) → r.severity ≠ .error := fun _ hr =>
        absurd hr List.not_mem_nil
      cases hmoved with
      | took _ _ _ hnotes => exact ⟨[], hnotes.trans (List.append_nil _).symm, hnone⟩
      | gave _ _ hnotes =>
        exact ⟨_, hnotes, fun r hr => by cases List.mem_singleton.1 hr⟩
      | idle _ _ hnotes => exact ⟨[], hnotes.trans (List.append_nil _).symm, hnone⟩
    obtain ⟨fs, hnotes, hreports⟩ := hnotes
    exact hquiet.append hnotes hreports

theorem dealOne (hstart : 0 < a.window.range.start.val.toNat) (h : t.Kept a chains)
    (hd : t.Permits d) : ∃ u chains', t.dealOne a d = .ok u ∧ u.Kept a chains' ∧
      (t.machine.Quiet → u.machine.Quiet) := by
  cases d with
  | call c =>
    obtain ⟨u, chains', hstep, hkept⟩ := h.step hstart hd
    exact ⟨u, chains', hstep, hkept, h.step_quiet hd hstep⟩
  | translate x =>
    obtain ⟨u, hu⟩ := h.look (translate_looks x)
    exact ⟨u, chains, hu⟩
  | findArea x =>
    obtain ⟨u, hu⟩ := h.look (findArea_looks x)
    exact ⟨u, chains, hu⟩

/-- No honest run faults, and a quiet machine stays quiet. -/
theorem deal {dealings : List Dealing} (hstart : 0 < a.window.range.start.val.toNat)
    (h : t.Kept a chains) (hhonest : t.Honest a dealings) (hquiet : t.machine.Quiet) :
    ∃ u, t.deal a dealings = .ok u ∧ u.machine.Quiet := by
  induction dealings generalizing t chains with
  | nil => exact ⟨t, rfl, hquiet⟩
  | cons d dealings ih =>
    obtain ⟨hd, hrest⟩ := hhonest
    obtain ⟨u, chains', hu, hkept, hquiet'⟩ := h.dealOne hstart hd
    rw [hu] at hrest
    obtain ⟨v, hrun, hv⟩ := ih hkept hrest (hquiet' hquiet)
    exact ⟨v, by rw [Session.deal, List.foldlM_cons, hu]; exact hrun, hv⟩

end Kept

end Session

/-- Device memory that ends where frames have numbers can be mapped. -/
theorem Request.fits_mapDevice {device : PhysAddr} {size : UInt64} {prot : Entry}
    (h : device.val.toNat + size.toNat ≤ 2 ^ 52) : (Request.mapDevice device size prot).Fits := by
  rintro ⟨first, stop⟩ hrange
  obtain ⟨-, -, hbase, hstop⟩ := Allocator.deviceFrames?_eq_some hrange
  -- the frames end at the next page boundary, and 2 ^ 52 is one
  change stop.toNat ≤ 2 ^ 52
  rw [hstop, hbase, devicePages]
  omega

namespace Setting

variable {s : Setting}

theorem quiet_of_returned {m : Machine} (h : ∀ e ∈ m.notes, ∃ f, e = .returned f) : m.Quiet :=
  Machine.quiet_iff.2 fun r hr => by
    obtain ⟨f, hf⟩ := h _ hr
    cases hf

/-- **No incidents**: an allocator is made without incident, and then no honest run faults, and no
error is ever reported. -/
theorem run_quiet (hbefore : (Client.create s.base s.count s.front).Proper s.before) :
    (∃ c answer m, (Client.create s.base s.count s.front).run s.before = .ok c ∧
      Allocator.create s.window c.machine = .ok answer m ∧ m.Quiet) ∧
    ∃ answer, s.start = .ok answer ∧ ∀ a t, answer = .ok (a, t) → ∀ dealings, t.Honest a dealings →
      ∃ u, t.deal a dealings = .ok u ∧ u.machine.Quiet := by
  obtain ⟨c, hc, halone⟩ := (Client.alone_create s.front s.below).run_ends hbefore
  obtain ⟨made, m, hcreate, hback, -⟩ :=
    (create_does halone.pool halone.nodup halone.taken s.oneBlock).exists_ok (s := c.machine) rfl rfl
  have hnotes : m.notes = c.machine.notes := (Backdrop.mk.inj hback).2
  refine ⟨⟨c, made, m, hc, hcreate, quiet_of_returned (hnotes ▸ halone.notes)⟩, ?_⟩
  have hstart : ∃ answer, s.start = .ok answer := by
    simp only [start, hc, hcreate, bind, Except.bind]
    cases made <;> exact ⟨_, rfl⟩
  obtain ⟨answer, hstart⟩ := hstart
  refine ⟨answer, hstart, ?_⟩
  rintro a t rfl dealings hhonest
  obtain ⟨hwindow, hkept, hreturned⟩ := start_kept hstart
  exact hkept.deal (hwindow ▸ s.nonzero) hhonest (quiet_of_returned hreturned)

/-- Areas come and go, two requests fail, and the client looks at what it has got. -/
def smallDealings : List Dealing :=
  smallRun.map .call ++ [.translate ⟨0x11004⟩, .findArea ⟨0x10000⟩, .findArea ⟨0x50000⟩,
    .call (.request (.mapFrames [.containing ⟨0x7000⟩] .pageKernel)),
    .call (.request (.mapFrames [] .pageKernel)), .call (.release .unmapDevice ⟨0x14010⟩)]

theorem small_run_quiet : (Client.create small.base small.count small.front).Proper small.before ∧
    ∃ a t, small.start = .ok (.ok (a, t)) ∧ t.Honest a smallDealings ∧
      ∃ u, t.deal a smallDealings = .ok u ∧ u.machine.Quiet := by
  have hbefore : (Client.create small.base small.count small.front).Proper small.before := by
    decide +kernel
  have hopens : small.opens (fun a t => decide (t.Honest a smallDealings)) = true := by decide +kernel
  obtain ⟨a, t, hstart, hhonest⟩ := exists_of_opens hopens
  have hhonest := of_decide_eq_true hhonest
  obtain ⟨-, answer, hstart', hruns⟩ := run_quiet hbefore
  obtain rfl : .ok (a, t) = answer := Except.ok.inj (hstart.symm.trans hstart')
  exact ⟨hbefore, a, t, hstart, hhonest, hruns a t rfl smallDealings hhonest⟩

end Setting

end PagedMemory
