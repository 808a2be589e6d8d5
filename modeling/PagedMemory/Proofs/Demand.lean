import Mathlib.Tactic
import PagedMemory.Proofs.Emitting
import PagedMemory.Proofs.Extending
import PagedMemory.Proofs.Turnover

/-!
# What is asked of a pool

Which frames an operation asks for, in which order and under which policies, told together with what
becomes of the pool. Nothing is said of operations that fault.

* `requests`: the policies of the requests among some events.
* `Asks`: an operation of which the pool and the requests are looked at.
* `Pool.Draws`: frames were taken, and some others were written to.
* `Tables.Furnished`: there are new tables, on the way to some pages at most.
* `Tables.Opens`: each of these tables has taken one request. `Tables.Falls`: one of these requests, or
  the source of the frames to be mapped, has failed.
* `Walk.fill_asks`: a fill asks for one frame for each table that its pages lack.
* `Tables.lackingBeside`: how many tables pages lack when others have theirs.
-/

namespace PagedMemory

open Layout
open Traced (events)
open Pooled (pool)

/-! ## Policies -/

namespace FramePolicy

theorem mask_and_mask {f g : PolicyFlag} (h : f ≠ g) : f.mask &&& g.mask = 0 := by
  cases f <;> cases g <;> first | exact absurd rfl h | decide

theorem not_mask_and_mask {f g : PolicyFlag} (h : f ≠ g) : ~~~f.mask &&& g.mask = g.mask := by
  cases f <;> cases g <;> first | exact absurd rfl h | decide

theorem mask_ne_zero (f : PolicyFlag) : f.mask ≠ 0 := by
  cases f <;> decide

theorem or_and_distrib (x y z : UInt32) : (x ||| y) &&& z = (x &&& z) ||| (y &&& z) := by
  apply UInt32.toNat_inj.1
  simp only [UInt32.toNat_and, UInt32.toNat_or]
  exact Nat.and_or_distrib_right _ _ _

variable {p : FramePolicy} {f g : PolicyFlag} {on : Bool}

theorem has_set_of_ne (h : f ≠ g) : (p.set f on).has g = p.has g := by
  cases on with
  | false =>
    rw [has, has, set, if_neg (by decide), UInt32.and_assoc, not_mask_and_mask h]
  | true =>
    rw [has, has, set, if_pos rfl, or_and_distrib, mask_and_mask h, UInt32.or_zero]

theorem has_set_self : (p.set f on).has f = on := by
  cases on with
  | false =>
    have hclear : f.mask &&& ~~~f.mask = 0 := UInt32.and_not_self
    rw [has, set, if_neg (by decide), UInt32.and_assoc, UInt32.and_comm (~~~f.mask), hclear,
      UInt32.and_zero]
    rfl
  | true =>
    rw [has, set, if_pos rfl, or_and_distrib, UInt32.and_self, bne_iff_ne, ne_eq,
      UInt32.or_eq_zero_iff]
    exact fun h => mask_ne_zero f h.2

/-- Only one flag decides which frames will do. -/
theorem accepts_set (h : f ≠ .lowMemory) (frame : PageFrame) :
    (p.set f on).accepts frame = p.accepts frame := by
  rw [accepts, accepts, has_set_of_ne h]

/-- The frames that will do for handles are those that will do for what they are handles of. -/
theorem accepts_forHandles (p : FramePolicy) (frame : PageFrame) :
    p.forHandles.accepts frame = p.accepts frame := by
  rw [forHandles, accepts_set (by decide), accepts_set (by decide)]

/-- For handles no frame outside the direct map will do, and it is to be all zero. -/
theorem has_forHandles (p : FramePolicy) (f : PolicyFlag) : p.forHandles.has f =
    match f with
    | .highMemory => false
    | .zero => true
    | f => p.has f := by
  cases f with
  | highMemory => rw [forHandles, has_set_of_ne (by decide), has_set_self]
  | zero => rw [forHandles, has_set_self]
  | _ => rw [forHandles, has_set_of_ne (by decide), has_set_of_ne (by decide)]

/-- The handles of handles are taken like handles. -/
theorem forHandles_forHandles (p : FramePolicy) :
    p.forHandles.forHandles = p.forHandles := by
  have hkeep : PolicyFlag.zero.mask &&& ~~~PolicyFlag.highMemory.mask = PolicyFlag.zero.mask := by decide
  have hbits : ∀ x : UInt32, (x &&& ~~~PolicyFlag.highMemory.mask ||| PolicyFlag.zero.mask) &&&
      ~~~PolicyFlag.highMemory.mask ||| PolicyFlag.zero.mask =
      x &&& ~~~PolicyFlag.highMemory.mask ||| PolicyFlag.zero.mask := by
    intro x
    rw [or_and_distrib, UInt32.and_assoc, UInt32.and_self, hkeep, UInt32.or_assoc, UInt32.or_self]
  exact congrArg FramePolicy.mk (hbits p.bits)

end FramePolicy

/-! ## Requests -/

/-- The policy of a request. -/
def Event.policy? : Event → Option FramePolicy
  | .requested policy => some policy
  | _ => none

/-- The requests among the events, the oldest first. -/
def requests (es : List Event) : List FramePolicy := es.filterMap Event.policy?

@[simp] theorem requests_append (es fs : List Event) :
    requests (es ++ fs) = requests es ++ requests fs :=
  List.filterMap_append

theorem Silent.requests_eq {es : List Event} (h : Silent es) : requests es = [] := by
  refine List.filterMap_eq_nil_iff.2 fun e he => ?_
  have hnone := List.countP_eq_zero.1 h.1 e he
  cases e with
  | requested policy => exact absurd rfl hnone
  | _ => rfl

instance : Pooled Filling := ⟨fun s => s.machine.pool⟩

/-- All that the operation asks for, if it yields an answer. -/
abbrev Requests {ε σ α : Type} [Traced σ] (x : EStateM ε σ α) (rs : List FramePolicy) : Prop :=
  Emits x fun _ es => requests es = rs

namespace Requests

variable {ε σ α β : Type} [Traced σ] {x : EStateM ε σ α} {f : α → EStateM ε σ β}
  {rs : List FramePolicy}

theorem of_mute (h : Mute x) : Requests x [] := h.imp fun _ _ hes => hes.requests_eq

/-- What comes first is all that is asked for. -/
theorem bind_left (h : Requests x rs) (hf : ∀ v, Requests (f v) []) : Requests (x >>= f) rs := by
  refine Emits.bind h fun v es hes => (hf v).imp fun _ fs hfs => ?_
  rw [requests_append, hes, hfs, List.append_nil]

/-- What comes first asks for nothing. -/
theorem bind_right (h : Requests x []) (hf : ∀ v, Requests (f v) rs) : Requests (x >>= f) rs := by
  refine Emits.bind h fun v es hes => (hf v).imp fun _ fs hfs => ?_
  rw [requests_append, hes, hfs, List.nil_append]

theorem pure (v : α) : Requests (Pure.pure v : EStateM ε σ α) [] := of_mute (Mute.pure v)

end Requests

theorem Machine.takeFrame_requests (policy : FramePolicy) : Requests (takeFrame policy) [policy] := by
  refine Requests.bind_left (Emits.emit rfl) fun _ => Emits.bind_get fun m => ?_
  refine Requests.bind_right (.of_mute (Mute.onPool _)) fun answer => ?_
  cases answer with
  | none => exact Requests.pure none
  | some f => exact Requests.bind_left (Emits.emit rfl) fun _ => Requests.pure _

theorem Tables.linkNewTable_requests (t : PageFrame) (i : TableIndex) :
    Requests (linkNewTable t i) [.kernel] := by
  have hnew : Requests newTable [.kernel] := by
    refine Requests.bind_left (Machine.takeFrame_requests .kernel) fun answer => ?_
    cases answer with
    | none => exact Requests.pure _
    | some f => exact Requests.bind_left (.of_mute (Mute.onPool _)) fun _ => Requests.pure _
  refine Requests.bind_left hnew fun answer => ?_
  cases answer with
  | error e => exact Requests.pure _
  | ok next =>
    refine Requests.bind_left (.of_mute (Mute.lift _)) fun e => ?_
    exact Requests.bind_left (.of_mute (Mute.onPool _)) fun _ => Requests.pure _

/-- Of a state, memory is looked at, and the requests so far. -/
def ledger (σ : Type) [Traced σ] [Pooled σ] : View σ Unit (Pool × List FramePolicy) :=
  ⟨fun s => (pool s, requests (events s)), fun _ => ()⟩

/-- From such memory and after such requests, the operation ends as `Q` says if it yields an answer,
and as `E` says if it fails. -/
abbrev Asks {ε σ α : Type} [Traced σ] [Pooled σ] (x : EStateM ε σ α) (t : Pool × List FramePolicy)
    (Q : α → Pool × List FramePolicy → Prop)
    (E : ε → Pool × List FramePolicy → Prop := fun _ _ => True) : Prop :=
  Runs (ledger σ) () x t Q E

namespace Asks

variable {α : Type} {p : Pool} {rs : List FramePolicy} {t : Pool × List FramePolicy}
  {Q : α → Pool × List FramePolicy → Prop}

/-- What is known of memory, and of the requests. -/
theorem of_done {x : MachineM α} {P : α → Pool → Prop} {rs' : List FramePolicy}
    (h : ∀ m, m.pool = p → IfDone x m fun v m' => P v m'.pool) (hx : Requests x rs') :
    Asks x (p, rs) fun v t => P v t.1 ∧ t.2 = rs ++ rs' := by
  intro m hm _
  obtain ⟨hp, hrs⟩ := Prod.mk.inj hm
  refine ((h m hp).and (hx m)).mono ?_ fun _ _ _ => ⟨rfl, trivial⟩
  rintro v m' ⟨hv, es, hes, hrequests⟩
  refine ⟨rfl, hv, ?_⟩
  change requests (events m') = _
  rw [hes, requests_append, hrequests, ← hrs]

/-- An operation on the pool asks for nothing. -/
theorem onPool {x : PoolM α} {P : α → Pool → Prop} (h : IfDone x p P) :
    Asks (Machine.onPool x) (p, rs) fun v t => P v t.1 ∧ t.2 = rs := by
  have hdone : ∀ m : Machine, m.pool = p → IfDone (Machine.onPool x) m fun v m' => P v m'.pool := by
    rintro m rfl
    exact Tables.IfDone.onPool h
  have hx : Asks (Machine.onPool x) (p, rs) fun v t => P v t.1 ∧ t.2 = rs ++ [] :=
    of_done hdone (.of_mute (Mute.onPool x))
  rwa [List.append_nil] at hx

/-- An event that is none of the requests. -/
theorem emit {e : Event} {Q : Unit → Pool × List FramePolicy → Prop} (he : e.policy? = none)
    (h : Q () t) : Asks (Machine.emit e) t Q := by
  refine fun m hm _ => ⟨rfl, ?_⟩
  have hrequests : requests (m.trace.push e).toList = requests m.trace.toList := by
    rw [Array.toList_push, requests_append, requests, requests, List.filterMap_cons_none he]
    exact List.append_nil _
  have hshown : (ledger Machine).shown { m with trace := m.trace.push e } =
      (ledger Machine).shown m := Prod.ext rfl hrequests
  rw [hshown, hm]
  exact h

theorem report {r : Report} {Q : Unit → Pool × List FramePolicy → Prop} (h : Q () t) :
    Asks (Machine.report r) t Q :=
  emit rfl h

theorem onShared {x : MachineM α} {E : Fault → Pool × List FramePolicy → Prop} (h : Asks x t Q E) :
    Asks (Shared.onMachine x) t Q E := by
  rintro ⟨machine, registry⟩ hs -
  have hx := h machine hs rfl
  rw [Ends] at hx ⊢
  rw [Shared.onMachine]
  split at hx
  next hrun =>
    rw [hrun]
    exact hx
  next hrun =>
    rw [hrun]
    exact hx

/-- An operation on the machine, as a part of a fill. -/
theorem onFilling {x : MachineM α} {E : Halt → Pool × List FramePolicy → Prop} (h : Asks x t Q)
    (hfault : ∀ f u, E (.fault f) u) : Asks (FillM.onMachine x) t Q E := by
  rintro ⟨machine, taken⟩ hs -
  have hx := h machine hs rfl
  rw [Ends] at hx ⊢
  rw [FillM.onMachine]
  split at hx
  next hrun =>
    rw [hrun]
    exact hx
  next hrun =>
    rw [hrun]
    exact ⟨rfl, hfault _ _⟩

/-- A fill run from its start, where only a fault is a fault. -/
theorem exec {x : FillM α} {E : Halt → Pool × List FramePolicy → Prop} (h : Asks x t Q E) (k : Nat) :
    Asks (x.exec k) t fun answer u => match answer.1 with
      | .ok v => Q v u
      | .error e => E (.failed e) u := by
  intro m hm _
  have hx := h ⟨m, k⟩ hm rfl
  rw [Ends] at hx ⊢
  rw [FillM.exec]
  rcases hrun : x ⟨m, k⟩ with ⟨v, m', k'⟩ | ⟨_ | e, m', k'⟩
  · rw [hrun] at hx
    exact hx
  · exact ⟨rfl, trivial⟩
  · rw [hrun] at hx
    exact hx

end Asks

/-! ## Frames -/

namespace Pool

variable {p q u : Pool} {f g : PageFrame} {writes : List PageFrame} {new : PageFrame → Prop}

/-- Frames were taken, all of them `new`, and at most those of `writes` were written to of those that
were in use. -/
structure Draws (p : Pool) (writes : List PageFrame) (new : PageFrame → Prop) (q : Pool) : Prop where
  sound : q.Sound
  stays : ∀ g, p.isTaken g = true → q.isTaken g = true
  page : ∀ g, p.isTaken g = true → g ∉ writes → q.page g = p.page g
  taken : ∀ g, q.isTaken g = true → p.isTaken g = true ∨ new g

theorem Draws.trans (hpq : p.Draws writes new q) (hqu : q.Draws writes new u) :
    p.Draws writes new u where
  sound := hqu.sound
  stays g hg := hqu.stays g (hpq.stays g hg)
  page g hg hout := (hqu.page g (hpq.stays g hg) hout).trans (hpq.page g hg hout)
  taken g hg := (hqu.taken g hg).elim (hpq.taken g) Or.inr

theorem Draws.mono {writes' : List PageFrame} (h : p.Draws writes new q)
    (hwrites : ∀ f ∈ writes, f ∈ writes') : p.Draws writes' new q where
  sound := h.sound
  stays := h.stays
  page g hg hout := h.page g hg fun hmem => hout (hwrites g hmem)
  taken := h.taken

theorem Wrote.draws {frames : List PageFrame} (h : p.Wrote frames q)
    (hframes : ∀ f ∈ frames, f ∈ writes) : p.Draws writes new q where
  sound := h.sound
  stays g hg := (h.taken g).trans hg
  page g _ hout := h.page g fun hg => hout (hframes g hg)
  taken g hg := Or.inl ((h.taken g).symm.trans hg)

theorem Draws.refl (hp : p.Sound) : p.Draws writes new p := by
  have hwrote : p.Wrote [] p := .refl hp
  exact hwrote.draws nofun

theorem Handed.draws (h : p.Handed f q) (hf : new f) : p.Draws writes new q where
  sound := h.sound
  stays g hg := by
    rw [h.taken]
    split
    · rfl
    · exact hg
  page g hg _ := h.page_eq hg
  taken g hg := by
    rw [h.taken] at hg
    split at hg
    next heq => exact Or.inr (heq ▸ hf)
    next => exact Or.inl hg

/-- If there is memory at all. -/
theorem locate_done (f : PageFrame) (p : Pool) :
    IfDone (locate f.base) p fun i q => q = p ∧ p.number? f = some i := by
  refine Ends.bind_get ?_
  cases hindex : p.indexOf? f.base with
  | none => exact Ends.throw trivial
  | some k =>
    refine Ends.pure ⟨rfl, ?_⟩
    rw [number?, hindex]
    rfl

theorem zero_done (f : PageFrame) (p : Pool) :
    IfDone (zero f) p fun _ q => q = p.rewrite f (fun _ => Page.zero) ∧ p.Has f := by
  refine Ends.bind (locate_done f p) ?_
  rintro i _ ⟨rfl, hi⟩
  exact ⟨(rewrite_eq hi).symm, i, hi⟩

theorem setWord_done (f : PageFrame) (i : TableIndex) (w : UInt64) (p : Pool) :
    IfDone (setWord f i w) p fun _ q => q = p.rewrite f fun page => page.set i w i.isLt := by
  refine Ends.bind (locate_done f p) ?_
  rintro k _ ⟨rfl, hk⟩
  exact (rewrite_eq hk).symm

theorem word_done (f : PageFrame) (i : TableIndex) (p : Pool) :
    IfDone (word f i) p fun _ q => q = p := by
  refine Ends.bind_get ?_
  split
  · exact Ends.pure rfl
  · exact Ends.throw trivial

end Pool

section

variable {p : Pool} {rs : List FramePolicy} {handles : HandleArray}

/-- There is one request, and if there is a frame it is one that will do. -/
theorem Machine.takeFrame_asks (hp : p.Sound) (policy : FramePolicy) (writes : List PageFrame) :
    Asks (takeFrame policy) (p, rs) fun _ t =>
      p.Draws writes (policy.accepts · = true) t.1 ∧ t.2 = rs ++ [policy] := by
  have haccepts : ∀ (keeps : Bool) f,
      (if keeps then policy else policy.set .zero false).accepts f = policy.accepts f := by
    intro keeps f
    cases keeps with
    | true => rfl
    | false => exact FramePolicy.accepts_set (by decide) f
  have hdone : ∀ m : Machine, m.pool = p → IfDone (takeFrame policy) m fun _ m' =>
      p.Draws writes (policy.accepts · = true) m'.pool := by
    rintro m rfl
    refine Tables.IfDone.of_does (takeFrame_of_take fun keeps =>
      ((Pool.take_ends hp _).and (Pool.take_answers hp.placed hp.listed _)).mono ?_ fun _ _ hf => hf)
    rintro answer q ⟨hq, hanswered⟩
    cases answer with
    | none => exact hq.draws nofun
    | some f =>
      refine hq.draws ?_
      cases hanswered with
      | served _ hserved _ => exact (haccepts keeps f).symm.trans hserved.accepts
  exact Asks.of_done hdone (takeFrame_requests policy)

namespace HandleArray

/-- To store a handle is to write to the frames of the array at most. -/
theorem store_asks (hp : p.Sound) (handles : HandleArray) (i : Nat) (f : PageFrame) :
    Asks (handles.store i f) (p, rs) fun handles' t =>
      (p.Wrote handles.backing t.1 ∧ handles'.backing = handles.backing) ∧ t.2 = rs := by
  cases handles with
  | empty =>
    refine Runs.bind (Q := fun _ t => t = (p, rs)) (Asks.report rfl) ?_
    rintro _ _ rfl
    exact Runs.pure ⟨⟨.refl hp, rfl⟩, rfl⟩
  | inline capacity frames =>
    rw [store]
    rcases pushAt frames capacity i f with fault | kept
    · exact Runs.bind_lift_error rfl trivial
    · exact Runs.bind_lift rfl (Runs.pure ⟨⟨.refl hp, rfl⟩, rfl⟩)
  | mapped base length backing =>
    rw [store]
    split
    case isFalse => exact Runs.throw trivial
    rcases hof : frameOf backing i with fault | b
    · exact Runs.bind_lift_error rfl trivial
    refine Runs.bind_lift rfl (Runs.bind (Asks.onPool (Pool.setWord_done b _ _ p)) ?_)
    rintro _ t ⟨ht, hrs⟩
    have hb : b ∈ backing.toList := by
      rw [frameOf] at hof
      split at hof
      next g hg =>
        obtain rfl := Except.ok.inj hof
        exact Array.mem_toList_iff.2 (Array.mem_of_getElem? hg)
      next => cases hof
    refine Runs.pure ⟨⟨?_, rfl⟩, hrs⟩
    rw [ht]
    exact .rewrite hp hb

/-- To read a handle changes nothing. -/
theorem get?_asks (handles : HandleArray) (i : Nat) :
    Asks (handles.get? i) (p, rs) fun _ t => t = (p, rs) := by
  cases handles with
  | empty => exact Runs.pure rfl
  | inline frames => exact Runs.pure rfl
  | mapped base length backing =>
    rw [get?]
    split
    · rcases frameOf backing i with fault | b
      · exact Runs.bind_lift_error rfl trivial
      refine Runs.bind_lift rfl (Runs.bind (Asks.onPool (Pool.word_done b _ p)) ?_)
      rintro w t ht
      rcases decode w with fault | answer
      · exact fun _ _ _ => ⟨rfl, trivial⟩
      · exact Runs.pure (Prod.ext ht.1 ht.2)
    · exact Runs.pure rfl

theorem toListFrom_asks (handles : HandleArray) (n i : Nat) :
    Asks (handles.toListFrom n i) (p, rs) fun _ t => t = (p, rs) := by
  induction n generalizing i with
  | zero => exact Runs.pure rfl
  | succ n ih =>
    refine Runs.bind (handles.get?_asks i) ?_
    rintro answer _ rfl
    cases answer with
    | none => exact Runs.pure rfl
    | some f =>
      refine Runs.bind (ih (i + 1)) ?_
      rintro _ _ rfl
      exact Runs.pure rfl

end HandleArray

end

/-! ## Tables -/

namespace Tables

variable {p q u : Pool} {root t : PageFrame} {S S' : Finset Nat} {new new' : PageFrame → Prop}
  {l below : Level} {n i j : Nat} {rs : List FramePolicy}

/-- The tree of `q` is that of `p` with more tables, which are on the way to pages of `S`. Frames
that were taken for anything else are `new`. -/
structure Furnished (root : PageFrame) (S : Finset Nat) (new : PageFrame → Prop) (p q : Pool) :
    Prop where
  kept : ∀ n < 512 ^ 4, ∀ l f, tableOn p root n l = some f → tableOn q root n l = some f
  only : ∀ n < 512 ^ 4, ∀ l f, tableOn q root n l = some f →
    tableOn p root n l = some f ∨ ∃ k ∈ S, l.group k = l.group n
  taken : ∀ f, q.isTaken f = true → p.isTaken f = true ∨ IsTable q root f ∨ new f

namespace Furnished

theorem isTable {f : PageFrame} (h : Furnished root S new p q) (hf : IsTable p root f) :
    IsTable q root f := by
  obtain ⟨n, hn, l, ht⟩ := hf
  exact ⟨n, hn, l, h.kept n hn l f ht⟩

theorem trans (hpq : Furnished root S new p q) (hqu : Furnished root S' new q u) :
    Furnished root (S ∪ S') new p u where
  kept n hn l t ht := hqu.kept n hn l t (hpq.kept n hn l t ht)
  only n hn l t ht := by
    rcases hqu.only n hn l t ht with ht | ⟨k, hk, hgroup⟩
    · refine (hpq.only n hn l t ht).imp_right ?_
      rintro ⟨k, hk, hgroup⟩
      exact ⟨k, Finset.mem_union_left _ hk, hgroup⟩
    · exact Or.inr ⟨k, Finset.mem_union_right _ hk, hgroup⟩
  taken f hf := by
    rcases hqu.taken f hf with hf | htable | hnew
    · exact (hpq.taken f hf).imp_right fun h => h.imp_left hqu.isTable
    · exact Or.inr (Or.inl htable)
    · exact Or.inr (Or.inr hnew)

theorem mono (h : Furnished root S new p q) (hS : S ⊆ S') (hnew : ∀ f, new f → new' f) :
    Furnished root S' new' p q where
  kept := h.kept
  only n hn l t ht := (h.only n hn l t ht).imp_right fun ⟨k, hk, hgroup⟩ => ⟨k, hS hk, hgroup⟩
  taken f hf := (h.taken f hf).imp_right fun h => h.imp_right (hnew f)

/-- The tables are the same. -/
theorem of_tables (h : ∀ n < 512 ^ 4, ∀ l, tableOn q root n l = tableOn p root n l)
    (htaken : ∀ f, q.isTaken f = true → p.isTaken f = true ∨ new f) : Furnished root S new p q where
  kept n hn l _ ht := (h n hn l).trans ht
  only n hn l _ ht := Or.inl ((h n hn l).symm.trans ht)
  taken f hf := (htaken f hf).imp_right Or.inr

/-- No table was written to. -/
theorem of_draws {writes : List PageFrame} (hs : Held p root) (h : p.Draws writes new q)
    (hwrites : ∀ f ∈ writes, ¬ IsTable p root f) : Furnished root S new p q :=
  of_tables (fun _ hn l => tableOn_eq_of_page (fun f hf =>
    h.page f (hs.taken f hf) fun hmem => hwrites f hmem hf) hn l) h.taken

end Furnished

/-- The pages of `S` have all their tables. -/
def Equipped (p : Pool) (root : PageFrame) (S : Finset Nat) : Prop :=
  ∀ n ∈ S, n < 512 ^ 4 ∧ tableOn p root n .pt ≠ none

theorem Equipped.tableOn_ne_none (h : Equipped p root S) (hn : n ∈ S) (l : Level) :
    tableOn p root n l ≠ none := fun hnone =>
  (h n hn).2 (tableOn_eq_none_of_le hnone (Nat.zero_le _))

theorem Equipped.of_furnished (h : Equipped p root S) (hpq : Furnished root S' new p q) :
    Equipped q root S := by
  intro n hn
  obtain ⟨hlt, hne⟩ := h n hn
  obtain ⟨t, ht⟩ := Option.ne_none_iff_exists'.1 hne
  refine ⟨hlt, ?_⟩
  rw [hpq.kept n hlt .pt t ht]
  exact Option.some_ne_none t

theorem equipped_union (h : Equipped p root S) (h' : Equipped p root S') : Equipped p root (S ∪ S') :=
  fun n hn => (Finset.mem_union.1 hn).elim (h n) (h' n)

theorem equipped_empty (p : Pool) (root : PageFrame) : Equipped p root ∅ := by
  intro n hn
  exact absurd hn (Finset.notMem_empty n)

theorem equipped_Ico_self : Equipped p root (.Ico i i) := by
  rw [Finset.Ico_self]
  exact equipped_empty p root

theorem Equipped.append {k : Nat} (h : Equipped p root (.Ico i k)) (h' : Equipped p root (.Ico k j))
    (hik : i ≤ k) (hkj : k ≤ j) : Equipped p root (.Ico i j) := by
  rw [← Finset.Ico_union_Ico_eq_Ico hik hkj]
  exact equipped_union h h'

/-- How many tables the pages of `S'` lack besides those that they share with pages of `S`. -/
def lackingBeside (p : Pool) (root : PageFrame) (S S' : Finset Nat) : Nat :=
  (missing p root S' .pdpt \ S.image Level.pdpt.group).card +
    (missing p root S' .pd \ S.image Level.pd.group).card +
    (missing p root S' .pt \ S.image Level.pt.group).card

theorem lackingBeside_empty (p : Pool) (root : PageFrame) (S : Finset Nat) :
    lackingBeside p root ∅ S = lacking p root S := by
  simp only [lackingBeside, lacking, Finset.image_empty, Finset.sdiff_empty]

/-- What pages lack when the pages of `S` have all their tables, and no others have new ones. -/
theorem Furnished.lacking_eq (h : Furnished root S new p q)
    (hfull : Equipped q root S) (hS' : ∀ n ∈ S', n < 512 ^ 4) :
    lacking q root S' = lackingBeside p root S S' := by
  have hmissing : ∀ l, missing q root S' l = missing p root S' l \ S.image l.group := by
    intro l
    ext g
    simp only [missing, Finset.mem_sdiff, Finset.mem_image, Finset.mem_filter]
    constructor
    · rintro ⟨n, ⟨hn, hnone⟩, rfl⟩
      refine ⟨⟨n, ⟨hn, ?_⟩, rfl⟩, ?_⟩
      · refine Option.eq_none_iff_forall_ne_some.2 fun t ht => ?_
        have ht' := h.kept n (hS' n hn) l t ht
        rw [hnone] at ht'
        cases ht'
      · rintro ⟨k, hk, hgroup⟩
        rw [← tableOn_congr hgroup] at hnone
        exact hfull.tableOn_ne_none hk l hnone
    · rintro ⟨⟨n, ⟨hn, hnone⟩, rfl⟩, hout⟩
      refine ⟨n, ⟨hn, Option.eq_none_iff_forall_ne_some.2 fun t ht => ?_⟩, rfl⟩
      rcases h.only n (hS' n hn) l t ht with ht' | hshared
      · rw [hnone] at ht'
        cases ht'
      · exact hout hshared
  rw [lacking, hmissing, hmissing, hmissing, lackingBeside]

/-! ### Tables that are asked for -/

/-- Some of the tables that pages of `S` lacked are there now, and each has taken one request. -/
structure Opens (root : PageFrame) (S : Finset Nat) (t u : Pool × List FramePolicy) : Prop where
  sound : u.1.Sound
  held : Held u.1 root
  furnished : Furnished root S (fun _ => False) t.1 u.1
  paid : ∃ c, u.2 = t.2 ++ List.replicate c .kernel ∧ lacking t.1 root S = lacking u.1 root S + c

/-- There were no more requests than tables that pages of `S` lacked. -/
def Falls (root : PageFrame) (S : Finset Nat) (t u : Pool × List FramePolicy) : Prop :=
  ∃ c ≤ lacking t.1 root S, u.2 = t.2 ++ List.replicate c .kernel

section

variable {t u v : Pool × List FramePolicy}

theorem Opens.trans (htu : Opens root S t u) (huv : Opens root S u v) : Opens root S t v where
  sound := huv.sound
  held := huv.held
  furnished := (htu.furnished.trans huv.furnished).mono (Finset.union_self S).subset fun _ h => h
  paid := by
    obtain ⟨c, hc, hlacking⟩ := htu.paid
    obtain ⟨d, hd, hlacking'⟩ := huv.paid
    refine ⟨c + d, ?_, by omega⟩
    rw [hd, hc, List.append_assoc, List.replicate_append_replicate]

/-- All that was missing has been asked for. -/
theorem Opens.all_paid (h : Opens root S t u) (hfull : Equipped u.1 root S) :
    u.2 = t.2 ++ List.replicate (lacking t.1 root S) .kernel := by
  obtain ⟨c, hc, hlacking⟩ := h.paid
  rw [lacking_eq_zero fun n hn => hfull.tableOn_ne_none hn .pt, Nat.zero_add] at hlacking
  rw [hc, hlacking]

theorem Opens.falls (htu : Opens root S t u) (huv : Falls root S u v) : Falls root S t v := by
  obtain ⟨c, hc, hlacking⟩ := htu.paid
  obtain ⟨d, hle, hd⟩ := huv
  refine ⟨c + d, by omega, ?_⟩
  rw [hd, hc, List.append_assoc, List.replicate_append_replicate]

theorem Opens.toFalls (h : Opens root S t u) : Falls root S t u := by
  obtain ⟨c, hc, hlacking⟩ := h.paid
  exact ⟨c, by omega, hc⟩

theorem Falls.refl : Falls root S t t := ⟨0, Nat.zero_le _, (List.append_nil _).symm⟩

/-- What mapping the pages of `S` comes to. If it is `done`, they have all their tables. -/
structure Provided (root : PageFrame) (S : Finset Nat) (t u : Pool × List FramePolicy) (done : Prop) :
    Prop where
  opens : done → Opens root S t u ∧ Equipped u.1 root S
  falls : Falls root S t u

/-- What fails need not have opened all tables. -/
theorem Provided.of_falls {done : Prop} (h : Falls root S t u) (hnot : ¬ done) :
    Provided root S t u done :=
  ⟨fun hdone => absurd hdone hnot, h⟩

theorem Provided.imp {done done' : Prop} (h : Provided root S t u done) (hdone : done' → done) :
    Provided root S t u done' :=
  ⟨fun hd => h.opens (hdone hd), h.falls⟩

end

theorem Opens.refl (hp : p.Sound) (hs : Held p root) : Opens root S (p, rs) (p, rs) where
  sound := hp
  held := hs
  furnished := .of_tables (fun _ _ _ => rfl) fun _ => Or.inl
  paid := ⟨0, (List.append_nil _).symm, rfl⟩

/-- A store to a lowest table opens none. -/
theorem Opens.of_store {e : Entry} (hS : ∀ k ∈ S, k < 512 ^ 4) (hp : p.Sound) (hs : Held p root)
    (hn : n < 512 ^ 4) (ht : tableOn p root n .pt = some t) :
    Opens root S (p, rs) (p.withEntry t (Level.pt.slot n) e, rs) := by
  have hsame : ∀ k < 512 ^ 4, ∀ l, tableOn (p.withEntry t (Level.pt.slot n) e) root k l =
      tableOn p root k l := fun k hk l => hs.formed.tableOn_store hn ht nofun hk l
  exact {
    sound := hp.rewrite
    held := hs.store hn ht nofun
    furnished := .of_tables hsame fun f hf => Or.inl (by rwa [Pool.withEntry, Pool.isTaken_rewrite] at hf)
    paid := ⟨0, (List.append_nil _).symm, (lacking_congr hS hsame).symm⟩ }

/-- A table that was missing took one request. -/
theorem Opens.of_linked {f : PageFrame} (hS : ∀ k ∈ S, k < 512 ^ 4) (hn : n ∈ S)
    (hbelow : l.next? = some below) (hnone : tableOn p root n below = none)
    (h : Linked root n below f p q) : Opens root S (p, rs) (q, rs ++ [.kernel]) where
  sound := h.sound
  held := h.tables
  furnished := {
    kept := h.kept
    only := fun k hk l' s hs => by
      rw [h.table k hk] at hs
      split at hs
      next hnew => exact Or.inr ⟨n, hn, hnew.1 ▸ hnew.2.symm⟩
      next => exact Or.inl hs
    taken := fun g hg => ((h.taken g).1 hg).imp_right Or.inl }
  paid := ⟨1, rfl, lacking_link hS hn hbelow hnone h.table⟩

/-- What asking for the table behind the entry for page `n` comes to, told with the requests. -/
def Asked (root : PageFrame) (S : Finset Nat) (n : Nat) (below : Level) (t : Pool × List FramePolicy)
    (answer : Except MapError PageFrame) (u : Pool × List FramePolicy) : Prop :=
  match answer with
  | .ok next => Opens root S t u ∧ tableOn u.1 root n below = some next
  | .error _ => Falls root S t u

section

variable (hp : p.Sound) (hs : Held p root) (hS : ∀ k ∈ S, k < 512 ^ 4) (hn : n ∈ S)
  (ht : tableOn p root n l = some t) (hbelow : l.next? = some below)

include hp hs hS hn ht hbelow

theorem linkNewTable_asks (hnowhere : behind p n l t = none) :
    Asks (linkNewTable t (l.slot n)) (p, rs) (Asked root S n below (p, rs)) := by
  have htop := hS n hn
  have hnone : tableOn p root n below = none := by
    rw [tableOn_next hbelow, ht, Option.bind_some, hnowhere]
  have hdone : ∀ m : Machine, m.pool = p → IfDone (linkNewTable t (l.slot n)) m fun answer m' =>
      ∀ f, answer = .ok f → Linked root n below f p m'.pool := by
    rintro m rfl
    refine (IfDone.of_does (linkNewTable_links hp hs htop ht hbelow hnowhere)).mono ?_ fun _ _ h => h
    rintro answer m' h f rfl
    exact h
  refine Runs.imp (Asks.of_done (P := fun answer q => ∀ f, answer = .ok f → Linked root n below f p q)
    hdone (linkNewTable_requests t _)) ?_
  rintro answer ⟨q, _⟩ ⟨h, rfl⟩
  cases answer with
  | ok f =>
    have hlinked := h f rfl
    exact ⟨.of_linked hS hn hbelow hnone hlinked,
      (hlinked.table n htop below).trans (if_pos ⟨rfl, rfl⟩)⟩
  | error e => exact ⟨1, lacking_pos hn hnone, rfl⟩

/-- One table is asked for at most, and only if it is missing. -/
theorem childOrCreate_asks :
    Asks (childOrCreate l t (l.slot n)) (p, rs) (Asked root S n below (p, rs)) := by
  have htop := hS n hn
  have hleads : tableOn p root n below = behind p n l t := by
    rw [tableOn_next hbelow, ht, Option.bind_some]
  have hchild : Asks (child l t (l.slot n)) (p, rs) fun c u =>
      c = (p.entryAt t (l.slot n)).child ∧ u = (p, rs) := by
    have hmute : Requests (child l t (l.slot n)) [] := .of_mute (Mute.of_fades (Walk.child_fades l t _))
    refine Runs.imp (Asks.of_done (P := fun c q =>
      c = (p.entryAt t (l.slot n)).child ∧ q = p) ?_ hmute) ?_
    · rintro m rfl
      exact IfDone.of_does (child_does (hs.formed.has htop ht) (Level.isLeaf_of_next hbelow) _)
    · rintro c u ⟨⟨hc, hq⟩, hrs⟩
      rw [List.append_nil] at hrs
      exact ⟨hc, Prod.ext hq hrs⟩
  refine Runs.bind hchild ?_
  rintro c _ ⟨rfl, rfl⟩
  cases hc : (p.entryAt t (l.slot n)).child with
  | table next =>
    refine Runs.pure ⟨.refl hp hs, ?_⟩
    change tableOn p root n below = some next
    rw [hleads, behind, Entry.table?, hc]
  | none =>
    refine linkNewTable_asks hp hs hS hn ht hbelow ?_
    rw [behind, Entry.table?, hc]
  | malformed e =>
    refine Runs.bind (Asks.report (Q := fun _ u => u = (p, rs)) rfl) ?_
    rintro _ _ rfl
    refine linkNewTable_asks hp hs hS hn ht hbelow ?_
    rw [behind, Entry.table?, hc]

end

end Tables

/-! ## Fills -/

theorem not_ok_of_error {ε α : Type} {e : ε} : ¬ ∃ v : α, Except.error e = .ok v := by
  rintro ⟨v, hv⟩
  cases hv

namespace Walk

open Tables

/-- To be asked for a frame, a source neither changes memory nor asks for any. -/
def Passive (source : FrameSource) : Prop :=
  ∀ i p rs, Asks (source i) (p, rs) fun _ t => t = (p, rs)

variable {p : Pool} {rs : List FramePolicy} {root t : PageFrame} {S : Finset Nat} {l below : Level}
  {b i j n : Nat} {prot : Entry} {source : FrameSource}

/-- What a part of a fill comes to that ends early for want of a frame. -/
abbrev EndsShort (root : PageFrame) (S : Finset Nat) (t : Pool × List FramePolicy) (h : Halt)
    (u : Pool × List FramePolicy) : Prop :=
  ∀ e, h = .failed e → Falls root S t u

/-- A fault is not for want of a frame. -/
theorem endsShort_fault {t : Pool × List FramePolicy} (f : Fault) (u : Pool × List FramePolicy) :
    EndsShort root S t (.fault f) u := by
  intro e he
  cases he

theorem nextFrame_asks (hsource : Passive source) :
    Asks (FillM.nextFrame source) (p, rs) (fun _ u => u = (p, rs)) (EndsShort root S (p, rs)) := by
  refine Runs.bind_get fun s _ _ => ?_
  refine Runs.bind (Asks.onFilling (hsource s.taken p rs) endsShort_fault) ?_
  rintro answer _ rfl
  cases answer with
  | none => exact Runs.throw fun _ _ => .refl
  | some f => exact Runs.bind_modify (fun _ hs => ⟨hs, rfl⟩) (Runs.pure rfl)

/-- Mapping one page asks for nothing. -/
theorem fillPage_asks (hsource : Passive source) (hS : ∀ k ∈ S, k < 512 ^ 4) (hp : p.Sound)
    (hs : Held p root) {page : Interval} (hpage : page.Pages b n (n + 1))
    (ht : tableOn p root n .pt = some t) :
    Asks (fillPage source prot t page) (p, rs) (fun _ u => Opens root S (p, rs) u)
      (EndsShort root S (p, rs)) := by
  have hn : n < 512 ^ 4 := hpage.top
  have hindex : Level.pt.index page.start = Level.pt.slot n := by
    rw [Level.index_eq, hpage.pageNumber (Nat.lt_succ_self n)]
  rw [fillPage, hindex]
  have hentry : Asks (entry t (Level.pt.slot n)) (p, rs) fun _ u => u = (p, rs) := by
    refine Runs.bind (Asks.onPool (Pool.word_done t _ p)) ?_
    rintro w _ ⟨hq, hrs⟩
    exact Runs.pure (Prod.ext hq hrs)
  refine Runs.bind (Asks.onFilling hentry endsShort_fault) ?_
  rintro old _ rfl
  by_cases hempty : old.isEmpty = true
  · simp only [hempty, if_true]
    refine Runs.bind (nextFrame_asks hsource) ?_
    rintro f _ rfl
    refine Runs.bind (Q := fun _ u => Opens root S (p, rs) u) (Asks.onFilling ?_ endsShort_fault)
      fun _ _ h => Runs.pure h
    rcases Entry.leaf f prot with fault | leaf
    · exact Runs.bind_lift_error rfl trivial
    refine Runs.bind_lift rfl (Runs.bind (Asks.onPool (Pool.setWord_done t _ _ p)) ?_)
    rintro _ ⟨q, _⟩ ⟨hq, rfl⟩
    obtain rfl : q = p.withEntry t (Level.pt.slot n) leaf := hq
    exact Asks.emit rfl (.of_store hS hp hs hn ht)
  · simp only [hempty]
    refine Runs.bind (Asks.onFilling (Asks.report (Q := fun _ _ => True) trivial) endsShort_fault)
      fun _ u _ => ?_
    exact Runs.throw (endsShort_fault _ u)

/-- A table that was opened for a part, or was there, and what comes of filling it. -/
theorem fillPart_asks (hS : ∀ k ∈ S, k < 512 ^ 4) (hbelow : l.next? = some below)
    (ih : ∀ {p : Pool} {rs : List FramePolicy} {t : PageFrame} {r : Interval} {i j : Nat},
      p.Sound → Held p root → r.Pages b i j → Finset.Ico i j ⊆ S →
      (∀ n, i ≤ n → n < j → tableOn p root n below = some t) →
      Asks (fillTable source prot below t r) (p, rs)
        (fun _ u => Opens root S (p, rs) u ∧ Equipped u.1 root (.Ico i j))
        (EndsShort root S (p, rs)))
    (hp : p.Sound) (hs : Held p root) {part : Interval} (hpart : part.Pages b i j) (hij : i < j)
    (hin : Finset.Ico i j ⊆ S) (hcell : l.cell (j - 1) = l.cell i)
    (ht : tableOn p root i l = some t) :
    Asks (fillPart source prot l below t part) (p, rs)
      (fun _ u => Opens root S (p, rs) u ∧ Equipped u.1 root (.Ico i j))
      (EndsShort root S (p, rs)) := by
  rw [fillPart, Level.index_eq, hpart.pageNumber hij]
  refine Runs.bind (Asks.onFilling
    (childOrCreate_asks hp hs hS (hin (Finset.left_mem_Ico.2 hij)) ht hbelow) endsShort_fault) ?_
  rintro answer ⟨q, rs'⟩ hasked
  cases answer with
  | error e => exact Runs.throw fun _ _ => hasked
  | ok next =>
    obtain ⟨hopens, hbehind⟩ := hasked
    refine Runs.mono (ih hopens.sound hopens.held hpart hin fun n hin hnj =>
      (tableOn_below hbelow hcell hin hnj).trans hbehind) ?_ ?_
    · rintro _ u ⟨hu, hfull⟩
      exact ⟨hopens.trans hu, hfull⟩
    · exact fun h u hshort e he => hopens.falls (hshort e he)

/-- The pages of a range ask for the tables that they lack. -/
theorem fillTable_asks (hsource : Passive source) (hS : ∀ k ∈ S, k < 512 ^ 4) (l : Level) {p : Pool}
    {rs : List FramePolicy} {t : PageFrame} {r : Interval} {i j : Nat} (hp : p.Sound)
    (hs : Held p root) (hr : r.Pages b i j) (hin : Finset.Ico i j ⊆ S)
    (ht : ∀ n, i ≤ n → n < j → tableOn p root n l = some t) :
    Asks (fillTable source prot l t r) (p, rs)
      (fun _ u => Opens root S (p, rs) u ∧ Equipped u.1 root (.Ico i j))
      (EndsShort root S (p, rs)) := by
  -- the pages of the parts that have been visited have all their tables
  induction l using Level.bottomUp generalizing p rs t r i j with
  | bottom =>
    refine hr.foldPieces (P := fun k _ u => Opens root S (p, rs) u ∧
      Equipped u.1 root (.Ico i k)) ?_ ⟨.refl hp hs, equipped_Ico_self⟩
    rintro k c sum ⟨q, rs'⟩ page hik hkc hcj hcell hpage ⟨hq, hfull⟩
    obtain rfl := Level.eq_succ_of_cell hkc hcell
    have hon := hq.furnished.kept k hpage.top .pt t (ht k hik hcj)
    refine Runs.mono (fillPage_asks hsource hS hq.sound hq.held hpage hon) ?_ ?_
    · rintro _ u hu
      have hpage : Equipped q root (.Ico k (k + 1)) := by
        intro n hn
        obtain rfl : n = k := by
          rw [Finset.mem_Ico] at hn
          omega
        exact ⟨hpage.top, hon ▸ Option.some_ne_none t⟩
      exact ⟨hq.trans hu, (hfull.append hpage hik (Nat.le_succ k)).of_furnished hu.furnished⟩
    · exact fun h u hshort e he => hq.falls (hshort e he)
  | step l below hbelow ih =>
    rw [fillTable_next hbelow]
    refine hr.foldPieces (P := fun k _ u => Opens root S (p, rs) u ∧
      Equipped u.1 root (.Ico i k)) ?_ ⟨.refl hp hs, equipped_Ico_self⟩
    rintro k c sum ⟨q, rs'⟩ part hik hkc hcj hcell hpart ⟨hq, hfull⟩
    have hon := hq.furnished.kept k (Nat.lt_of_lt_of_le hkc hpart.top) l t (ht k hik (by omega))
    have hwithin : Finset.Ico k c ⊆ S := (Finset.Ico_subset_Ico hik hcj).trans hin
    refine Runs.mono (fillPart_asks hS hbelow ih hq.sound hq.held hpart hkc hwithin hcell hon) ?_ ?_
    · rintro _ u ⟨hu, hfull'⟩
      have hthen := hfull.of_furnished hu.furnished
      exact ⟨hq.trans hu, hthen.append hfull' hik (Nat.le_of_lt hkc)⟩
    · exact fun h u hshort e he => hq.falls (hshort e he)

/-- A fill asks for one frame for each table that its pages lack, and maps all of them; or it asks for
no more than that, and ends early. -/
theorem fill_asks (hsource : Passive source) {r : Interval} (hp : p.Sound) (hs : Held p root)
    (hr : r.Pages b i j) :
    Asks (fill root r prot source 0) (p, rs) fun answer u =>
      Provided root (.Ico i j) (p, rs) u (∃ k, answer.1 = .ok k) := by
  have htop : ∀ n ∈ Finset.Ico i j, n < 512 ^ 4 := fun n hn =>
    Nat.lt_of_lt_of_le (Finset.mem_Ico.1 hn).2 hr.top
  have hfill : Asks (fillTable source prot .pml4 root r) (p, rs)
      (fun _ u => Opens root (.Ico i j) (p, rs) u ∧ Equipped u.1 root (.Ico i j))
      (EndsShort root (.Ico i j) (p, rs)) :=
    fillTable_asks hsource htop .pml4 hp hs hr (Finset.Subset.refl _) fun _ _ _ => rfl
  have haligned : Asks (checkAligned r) (p, rs) fun _ u => u = (p, rs) := by
    rw [checkAligned]
    split
    · exact Runs.pure rfl
    · exact Runs.throw trivial
  refine Runs.bind haligned ?_
  rintro _ _ rfl
  refine Runs.imp (Asks.exec hfill 0) ?_
  rintro ⟨answer, taken⟩ u hu
  cases answer with
  | ok count => exact ⟨fun _ => hu, hu.1.toFalls⟩
  | error e => exact .of_falls (hu e rfl) not_ok_of_error

end Walk

end PagedMemory
