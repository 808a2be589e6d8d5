import Mathlib.Tactic
import PagedMemory.Host
import PagedMemory.Proofs.Tenancy

/-!
# Tenants of one host

Allocators that know nothing of one another, in one pool. Frames go from one to the other by way of
the pool, and each takes all frames that are not its own for loose ones.

* `Hosting`, `Deed`: what goes on on a host. `Hosting.Proper`: the rules are kept all along.
* `Roll.Uses`: the frames of a tenant, which are those of its areas and its tables.
* `Roll.Kept.elsewhere`: what is done with other frames is no matter of a tenant.
* `Hosting.Kept`: the invariant. Each tenant's roll is kept, and no frame is used by two tenants.
* `Hosting.Kept.step`, `Hosting.Kept.run`: deeds keep the rolls of all tenants, and what is not given
  back follows only what is written to it.
-/

namespace PagedMemory

open Layout Tables

/-! ## Deeds -/

/-- A host, the frames that were taken from its pool by no tenant, and what each tenant has got. -/
structure Hosting where
  host : Host
  frames : List PageFrame
  leases : Nat → List Lease

/-- What is done on a host. -/
inductive Deed where
  /-- an allocator is made -/
  | found (window : Window)
  /-- tenant `k` asks for something -/
  | act (k : Nat) (act : Act)
  /-- past the allocators -/
  | frames (call : FrameCall)

namespace Deed

/-- Tenant `k` gives back what it has leased. -/
def Releases (k : Nat) (lease : Lease) : Deed → Prop
  | .found _ => False
  | .act j (.release l) => j = k ∧ l = lease
  | .act _ _ => False
  | .frames _ => False

instance (k : Nat) (lease : Lease) (d : Deed) : Decidable (d.Releases k lease) := by
  unfold Releases
  split <;> infer_instance

/-- What is written to the memory of tenant `k`. -/
def effect (k : Nat) (memory : Nat → UInt8) : Deed → Nat → UInt8
  | .found _ => memory
  | .act j a => if j = k then a.effect memory else memory
  | .frames _ => memory

end Deed

namespace Hosting

def create (base : PageFrame) (count : Nat) (front : Front) : Hosting :=
  ⟨Host.create (Machine.create (Pool.create base count) front), [], fun _ => []⟩

def pool (t : Hosting) : Pool := t.host.machine.pool

def client (t : Hosting) : Client := ⟨t.host.machine, t.frames⟩

def tenant? (t : Hosting) (k : Nat) : Option Tenant := t.host.tenants[k]?

/-- The state of the host as tenant `v` sees it. -/
def shared (t : Hosting) (v : Tenant) : Shared := ⟨t.host.machine, v.registry⟩

/-- A fault ends what was asked for, but not the host. -/
def step (t : Hosting) : Deed → Hosting
  | .found window =>
    match Host.newAllocator window t.host with
    | .ok _ host => { t with host }
    | .error _ host => { t with host }
  | .act k act =>
    match Host.perform k (fun a => act.job a) t.host with
    | .ok lease host =>
      { t with host, leases := Function.update t.leases k (act.leasesAfter lease (t.leases k)) }
    | .error _ host => { t with host }
  | .frames call =>
    match t.client.step call with
    | .ok client => { t with host := { t.host with machine := client.machine }, frames := client.frames }
    | .error _ => t

/-- The rules: no window reaches into the next block of `2 ^ 48` addresses, and tenants and clients
keep theirs. -/
def Allows (t : Hosting) : Deed → Prop
  | .found window => window.range.stop.val.toNat ≤ (window.range.start.val.toNat / 2 ^ 48 + 1) * 2 ^ 48
  | .act k act => ∃ v ∈ t.tenant? k, act.Allowed v.allocator v.registry (t.leases k)
  | .frames call => t.client.Allows call

instance (t : Hosting) (d : Deed) : Decidable (t.Allows d) := by
  cases d <;> unfold Allows <;> infer_instance

def run (t : Hosting) (deeds : List Deed) : Hosting := deeds.foldl step t

/-- The rules are kept all along. -/
def Proper (t : Hosting) : List Deed → Prop
  | [] => True
  | d :: deeds => t.Allows d ∧ (t.step d).Proper deeds

instance decidableProper : (t : Hosting) → (deeds : List Deed) → Decidable (t.Proper deeds)
  | _, [] => isTrue trivial
  | t, d :: deeds =>
    have := decidableProper (t.step d) deeds
    inferInstanceAs (Decidable (t.Allows d ∧ _))

end Hosting

/-! ## The frames of a tenant -/

section

variable {a : Allocator} {p q : Pool} {r : Registry} {roll : Roll} {leases : List Lease}
  {loose : List PageFrame} {f : PageFrame}

/-- The frames of a tenant's areas, and its tables. -/
def Roll.Uses (a : Allocator) (p : Pool) (roll : Roll) (f : PageFrame) : Prop :=
  f ∈ heldBy roll.chains ∨ IsTable p a.root f

/-- Frames in use can be listed. -/
theorem Pool.exists_list (p : Pool) (P : PageFrame → Prop) :
    ∃ l : List PageFrame, l.Nodup ∧ ∀ f, f ∈ l ↔ p.isTaken f = true ∧ P f := by
  have hfinite : {f | p.isTaken f = true ∧ P f}.Finite := by
    refine Set.Finite.of_injOn (f := fun f => (p.number? f).getD 0) (t := Set.Iio p.slots.size)
      (fun f hf => ?_) (fun f hf g hg he => ?_) (Set.finite_Iio _)
    · obtain ⟨i, hi⟩ := exists_number?_of_isTaken hf.1
      simpa [hi] using number?_lt hi
    · obtain ⟨i, hi⟩ := exists_number?_of_isTaken hf.1
      obtain ⟨j, hj⟩ := exists_number?_of_isTaken hg.1
      obtain rfl : i = j := by simpa [hi, hj] using he
      exact number?_inj hi hj
  exact ⟨hfinite.toFinset.toList, hfinite.toFinset.nodup_toList, fun f => by simp⟩

namespace Roll.Kept

variable (hkept : roll.Kept a p r leases loose)

include hkept

theorem isTaken_of_uses (hf : roll.Uses a p f) : p.isTaken f = true :=
  (hkept.world.taken f).2 (hf.imp_left (List.mem_append_right _))

/-- All frames in use are loose, except for those that the tenant uses. -/
theorem mem_loose_iff : f ∈ loose ↔ p.isTaken f = true ∧ ¬ roll.Uses a p f := by
  have hw := hkept.world
  constructor
  · intro hf
    refine ⟨hw.isTaken (List.mem_append_left _ hf), ?_⟩
    rintro (hheld | htable)
    · exact (List.nodup_append'.1 hw.nodup).2.2 hf hheld
    · exact hw.apart f (List.mem_append_left _ hf) htable
  · rintro ⟨htaken, hnot⟩
    rcases (hw.taken f).1 htaken with howned | htable
    · exact (List.mem_append.1 howned).resolve_right fun hheld => hnot (Or.inl hheld)
    · exact absurd (Or.inr htable) hnot

/-- Whatever happens to other frames, the roll is kept. -/
theorem elsewhere (hq : p.Leaves (roll.Uses a p) q) :
    (∃ loose', roll.Kept a q r leases loose') ∧ (∀ f, roll.Uses a q f ↔ roll.Uses a p f) ∧
      Spares a ⟨[], roll.chains⟩ p q := by
  have hw := hkept.world
  have htables : ∀ f, IsTable q a.root f ↔ IsTable p a.root f := fun f =>
    isTable_congr fun n hn l => tableOn_eq_of_page (fun g hg => hq.page g (Or.inr hg)) hn l
  have hspares : Spares a ⟨[], roll.chains⟩ p q :=
    .of_page hq.base hq.size (fun f hf => hq.page f (Or.inr hf)) fun f hf => hq.page f (Or.inl hf)
  obtain ⟨loose', hnodup, hmem⟩ := q.exists_list fun f => ¬ roll.Uses a p f
  have hworld : World a q r loose' roll.chains := by
    refine hw.transfer hq.sound (fun f hf => hq.page f (Or.inr hf)) (fun c hc => ?_) ?_ (fun f => ?_)
      fun f hf htable => ?_
    · refine (hw.chained c hc).congr fun f hf => hq.page f (Or.inl ?_)
      obtain ⟨h, hh, hf⟩ := List.mem_flatMap.1 hf
      exact List.mem_flatMap.2 ⟨h, List.mem_flatten.2 ⟨c, hc, List.mem_of_mem_tail hh⟩, hf⟩
    · refine List.nodup_append'.2 ⟨hnodup, (List.nodup_append'.1 hw.nodup).2.1, fun f hf hheld => ?_⟩
      exact ((hmem f).1 hf).2 (Or.inl hheld)
    · rw [owned, List.mem_append, hmem]
      constructor
      · intro htaken
        by_cases huses : roll.Uses a p f
        · exact huses.imp_left Or.inr
        · exact Or.inl (Or.inl ⟨htaken, huses⟩)
      · rintro ((hf | hheld) | htable)
        · exact hf.1
        · exact hq.taken f (Or.inl hheld)
        · exact hq.taken f (Or.inr htable)
    · rcases List.mem_append.1 hf with hf | hheld
      · exact ((hmem f).1 hf).2 (Or.inr htable)
      · exact hw.apart f (List.mem_append_right _ hheld) htable
  refine ⟨⟨loose', hworld, hkept.leases, hkept.leased, fun e he hfree h hh => ?_⟩,
    fun f => or_congr_right (htables f), hspares⟩
  exact (hkept.settled e he hfree h hh).of_spares hspares
    (List.mem_append_left _ (List.mem_map_of_mem he)) hh

end Roll.Kept

/-- What is on the roll stays as it is, whatever happens to other frames. -/
theorem Roll.becomes_of_spares (hspares : Spares a ⟨[], roll.chains⟩ p q) (gone : Lease → Prop) :
    roll.Becomes a gone (fun memory => memory) p q roll where
  entry _ he _ := he
  follows _ he _ _ _ hh := .of_spares hspares (List.mem_append_left _ (List.mem_map_of_mem he)) hh
    fun _ _ _ => rfl

end

theorem Host.addAllocator_apply (a : Allocator) (s : Host) : Host.addAllocator a s =
    .ok ⟨⟩ { s with tenants := s.tenants.push ⟨a, Registry.empty⟩ } := rfl

/-- A job of a tenant is done on the machine of all, and on the tenant's own registry. -/
theorem Host.perform_eq {α : Type} {s : Host} {k : Nat} {v : Tenant} (job : Allocator → Job α)
    (hv : s.tenants[k]? = some v) :
    Host.perform k job s = match (job v.allocator).run ⟨s.machine, v.registry⟩ with
      | .ok a u => .ok a ⟨u.machine, s.trees, s.tenants.setIfInBounds k ⟨v.allocator, u.registry⟩⟩
      | .error e u =>
        .error e ⟨u.machine, s.trees, s.tenants.setIfInBounds k ⟨v.allocator, u.registry⟩⟩ := by
  simp only [perform, tenant, bind, EStateM.bind, get_apply, hv, pure, EStateM.pure]
  cases (job v.allocator).run ⟨s.machine, v.registry⟩ <;> rfl

/-- What a client does leaves alone what is in use and not the client's. -/
theorem Client.Moved.leaves {c d : Client} {call : FrameCall} (hmoved : Client.Moved c d call)
    (hallowed : c.Allows call) :
    c.machine.pool.Leaves (fun f => c.machine.pool.isTaken f = true ∧ f ∉ c.frames) d.machine.pool := by
  cases hmoved with
  | took f hpool _ _ => exact hpool.leaves.mono fun g hg => hg.1
  | idle hpool _ _ => exact hpool.leaves.mono fun g hg => hg.1
  | @gave f hpool _ _ =>
    refine hpool.leaves.mono fun g hg => ⟨hg.1, ?_⟩
    rintro rfl
    exact hg.2 hallowed

/-- The frames of a client are in use, and none of them was in use otherwise. -/
theorem Client.Moved.frames {c d : Client} {call : FrameCall} (hmoved : Client.Moved c d call)
    (hnodup : c.frames.Nodup) (htaken : ∀ f ∈ c.frames, c.machine.pool.isTaken f = true) :
    d.frames.Nodup ∧ (∀ f ∈ d.frames, d.machine.pool.isTaken f = true) ∧
      ∀ f ∈ d.frames, f ∈ c.frames ∨ c.machine.pool.isTaken f = false := by
  cases hmoved with
  | took f hpool hframes _ =>
    rw [hframes]
    refine ⟨List.nodup_cons.2 ⟨fun hf => ?_, hnodup⟩, ?_, ?_⟩
    · exact Bool.false_ne_true (hpool.fresh.symm.trans (htaken f hf))
    · exact List.forall_mem_cons.2 ⟨hpool.isTaken, fun g hg => hpool.leaves.taken g (htaken g hg)⟩
    · exact List.forall_mem_cons.2 ⟨Or.inr hpool.fresh, fun g hg => Or.inl hg⟩
  | idle hpool hframes _ =>
    rw [hframes]
    exact ⟨hnodup, fun g hg => hpool.leaves.taken g (htaken g hg), fun g hg => Or.inl hg⟩
  | @gave f hpool hframes _ =>
    rw [hframes]
    refine ⟨hnodup.erase f, fun g hg => ?_, fun g hg => Or.inl (List.mem_of_mem_erase hg)⟩
    obtain ⟨hne, hg⟩ := hnodup.mem_erase_iff.1 hg
    exact hpool.leaves.taken g ⟨htaken g hg, hne⟩

/-! ## The invariant -/

namespace Hosting

variable {t u : Hosting} {rolls rolls' : Nat → Roll} {d : Deed} {v : Tenant} {k : Nat}

/-- Each tenant's roll is kept, and no frame is used in two ways. -/
structure Kept (t : Hosting) (rolls : Nat → Roll) : Prop where
  pool : t.pool.Sound
  nodup : t.frames.Nodup
  taken : ∀ f ∈ t.frames, t.pool.isTaken f = true
  tenant : ∀ k v, t.tenant? k = some v →
    ∃ loose, (rolls k).Kept v.allocator t.pool v.registry (t.leases k) loose
  frames : ∀ k v, t.tenant? k = some v → ∀ f ∈ t.frames, ¬ (rolls k).Uses v.allocator t.pool f
  apart : ∀ j k v w, t.tenant? j = some v → t.tenant? k = some w → j ≠ k → ∀ f,
    (rolls j).Uses v.allocator t.pool f → ¬ (rolls k).Uses w.allocator t.pool f
  vacant : ∀ k, t.tenant? k = none → t.leases k = []

/-- What a deed leaves of the tenants and of what is on their rolls. -/
def Carries (t u : Hosting) (d : Deed) (rolls rolls' : Nat → Roll) : Prop :=
  ∀ k v, t.tenant? k = some v → ∃ r, u.tenant? k = some ⟨v.allocator, r⟩ ∧
    (rolls k).Becomes v.allocator (d.Releases k) (d.effect k) t.pool u.pool (rolls' k)

namespace Kept

/-- A frame that is in use, but not by this tenant. -/
def Other (t : Hosting) (rolls : Nat → Roll) (i : Nat) (f : PageFrame) : Prop :=
  f ∈ t.frames ∨ ∃ k v, k ≠ i ∧ t.tenant? k = some v ∧ (rolls k).Uses v.allocator t.pool f

/-- Something happens to one tenant, by which all other frames are left alone. -/
theorem change {i : Nat} {roll : Roll} (h : t.Kept rolls) (hframes : u.frames = t.frames)
    (hothers : ∀ k, k ≠ i → u.tenant? k = t.tenant? k ∧ u.leases k = t.leases k)
    (hleaves : t.pool.Leaves (Other t rolls i) u.pool)
    (hroll : ∀ w, u.tenant? i = some w →
      (∃ loose, roll.Kept w.allocator u.pool w.registry (u.leases i) loose) ∧
      ∀ f, roll.Uses w.allocator u.pool f → ¬ Other t rolls i f)
    (hvacant : u.tenant? i = none → u.leases i = []) :
    u.Kept (Function.update rolls i roll) := by
  have helsewhere : ∀ k v, k ≠ i → t.tenant? k = some v →
      (∃ loose, (rolls k).Kept v.allocator u.pool v.registry (t.leases k) loose) ∧
      ∀ f, (rolls k).Uses v.allocator u.pool f ↔ (rolls k).Uses v.allocator t.pool f := by
    intro k v hk hv
    obtain ⟨loose, hkept⟩ := h.tenant k v hv
    obtain ⟨hkept', huses, -⟩ :=
      hkept.elsewhere (hleaves.mono fun f hf => Or.inr ⟨k, v, hk, hv, hf⟩)
    exact ⟨hkept', huses⟩
  have hfar : ∀ k v w f, k ≠ i → u.tenant? k = some v → u.tenant? i = some w →
      (rolls k).Uses v.allocator u.pool f → ¬ roll.Uses w.allocator u.pool f := by
    intro k v w f hk hv hw hf hmine
    rw [(hothers k hk).1] at hv
    exact (hroll w hw).2 f hmine (Or.inr ⟨k, v, hk, hv, ((helsewhere k v hk hv).2 f).1 hf⟩)
  refine ⟨hleaves.sound, hframes ▸ h.nodup, fun f hf => ?_, fun k v hv => ?_, fun k v hv f hf => ?_,
    fun j k v w hv hw hjk f hj hk => ?_, fun k hk => ?_⟩
  · exact hleaves.taken f (Or.inl (hframes ▸ hf))
  · by_cases hk : k = i
    · subst hk
      rw [Function.update_self]
      exact (hroll v hv).1
    · obtain ⟨htenant, hleases⟩ := hothers k hk
      rw [Function.update_of_ne hk, hleases]
      exact (helsewhere k v hk (htenant ▸ hv)).1
  · by_cases hk : k = i
    · subst hk
      rw [Function.update_self]
      exact fun huses => (hroll v hv).2 f huses (Or.inl (hframes ▸ hf))
    · rw [Function.update_of_ne hk]
      have hv := (hothers k hk).1 ▸ hv
      rw [(helsewhere k v hk hv).2]
      exact h.frames k v hv f (hframes ▸ hf)
  · by_cases hji : j = i
    · subst hji
      rw [Function.update_self] at hj
      rw [Function.update_of_ne (Ne.symm hjk)] at hk
      exact hfar k w v f (Ne.symm hjk) hw hv hk hj
    · rw [Function.update_of_ne hji] at hj
      by_cases hki : k = i
      · subst hki
        rw [Function.update_self] at hk
        exact hfar j v w f hji hv hw hj hk
      · rw [Function.update_of_ne hki] at hk
        have hv := (hothers j hji).1 ▸ hv
        have hw := (hothers k hki).1 ▸ hw
        exact h.apart j k v w hv hw hjk f (((helsewhere j v hji hv).2 f).1 hj)
          (((helsewhere k w hki hw).2 f).1 hk)
  · by_cases hki : k = i
    · subst hki
      exact hvacant hk
    · obtain ⟨htenant, hleases⟩ := hothers k hki
      rw [hleases]
      exact h.vacant k (htenant ▸ hk)

/-- A tenant to which nothing is done. -/
theorem becomes (h : t.Kept rolls) (hv : t.tenant? k = some v)
    (hleaves : t.pool.Leaves ((rolls k).Uses v.allocator t.pool) u.pool)
    (heffect : ∀ memory, d.effect k memory = memory) :
    (rolls k).Becomes v.allocator (d.Releases k) (d.effect k) t.pool u.pool (rolls k) := by
  obtain ⟨loose, hkept⟩ := h.tenant k v hv
  obtain ⟨-, -, hspares⟩ := hkept.elsewhere hleaves
  have hidle : d.effect k = fun memory => memory := funext heffect
  rw [hidle]
  exact Roll.becomes_of_spares hspares _

theorem isTaken_of_other {i : Nat} {f : PageFrame} (h : t.Kept rolls) (hf : Other t rolls i f) :
    t.pool.isTaken f = true := by
  rcases hf with hf | ⟨k, v, -, hv, huses⟩
  · exact h.taken f hf
  · obtain ⟨loose, hkept⟩ := h.tenant k v hv
    exact hkept.isTaken_of_uses huses

/-- A new tenant uses frames that no one has used. -/
theorem step_found {window : Window} (h : t.Kept rolls) (hallowed : t.Allows (.found window)) :
    ∃ rolls', (t.step (.found window)).Kept rolls' ∧
      t.Carries (t.step (.found window)) (.found window) rolls rolls' := by
  obtain ⟨all, hnodup, hall⟩ := t.pool.exists_list fun _ => True
  have hcreate : Does t.host.machine.backdrop (Allocator.create window) t.pool _ :=
    create_does h.pool hnodup (fun f => by simp [hall]) hallowed
  obtain ⟨answer, machine, hrun, -, hleaves, hpost⟩ :=
    hcreate.exists_ok (s := t.host.machine) rfl rfl
  have hother : ∀ i, t.pool.Leaves (Other t rolls i) machine.pool := fun i =>
    hleaves.mono fun f hf => h.isTaken_of_other hf
  have hbecomes : ∀ k v, t.tenant? k = some v → ∀ u : Hosting, u.pool = machine.pool →
      (rolls k).Becomes v.allocator ((Deed.found window).Releases k) ((Deed.found window).effect k)
        t.pool u.pool (rolls k) := fun k v hv u hu =>
    h.becomes hv (hu ▸ (hother (k + 1)).mono fun f hf => Or.inr ⟨k, v, by omega, hv, hf⟩) fun _ => rfl
  cases answer with
  | error e =>
    have hstep : t.step (.found window) = { t with host := { t.host with machine } } := by
      simp only [step, Host.newAllocator, Host.onMachine, hrun, bind, EStateM.bind, pure, EStateM.pure]
    rw [hstep]
    refine ⟨Function.update rolls t.host.tenants.size (rolls t.host.tenants.size),
      h.change rfl (fun _ _ => ⟨rfl, rfl⟩) (hother _) (fun w hw => ?_) fun hw => h.vacant _ hw, ?_⟩
    · cases (Array.getElem?_eq_none (Nat.le_refl _)).symm.trans hw
    · rw [Function.update_eq_self]
      exact fun k v hv => ⟨v.registry, hv, hbecomes k v hv _ rfl⟩
  | ok a =>
    obtain ⟨-, hfresh, hw⟩ := hpost a rfl
    have hstep : t.step (.found window) = { t with
        host := ⟨machine, t.host.trees, t.host.tenants.push ⟨a, Registry.empty⟩⟩ } := by
      simp only [step, Host.newAllocator, Host.onMachine, Host.addAllocator_apply, hrun, bind,
        EStateM.bind, pure, EStateM.pure]
    have hleases : t.leases t.host.tenants.size = [] :=
      h.vacant _ (Array.getElem?_eq_none (Nat.le_refl _))
    rw [hstep]
    refine ⟨Function.update rolls t.host.tenants.size ⟨[], []⟩,
      h.change rfl (fun k hk => ⟨?_, rfl⟩) (hother _) (fun w hw' => ?_) (fun hw' => ?_),
      fun k v hv => ?_⟩
    · exact (Array.getElem?_push ..).trans (if_neg hk)
    · obtain rfl : ⟨a, Registry.empty⟩ = w := Option.some.inj (Array.getElem?_push_size.symm.trans hw')
      refine ⟨⟨all, hw, hleases.symm, List.forall_mem_nil _, List.forall_mem_nil _⟩, fun f huses hf => ?_⟩
      rcases huses with hheld | htable
      · cases hheld
      · have htaken := h.isTaken_of_other hf
        exact absurd ((hfresh f htable).symm.trans htaken) Bool.false_ne_true
    · cases Array.getElem?_push_size.symm.trans hw'
    · obtain ⟨hlt, -⟩ := Array.getElem?_eq_some_iff.1 hv
      rw [Function.update_of_ne hlt.ne]
      exact ⟨v.registry, (Array.getElem?_push ..).trans ((if_neg hlt.ne).trans hv), hbecomes k v hv _ rfl⟩

/-- What tenant `k` becomes by what it does. -/
theorem exists_after {act : Act} (h : t.Kept rolls) (hv : t.tenant? k = some v)
    (hallowed : act.Allowed v.allocator v.registry (t.leases k)) :
    ∃ s leases loose, (rolls k).Kept v.allocator t.pool v.registry (t.leases k) loose ∧
      (rolls k).After v.allocator act t.pool loose leases (Shared.noted.shown s) ∧
      t.step (.act k act) = ⟨⟨s.machine, t.host.trees,
        t.host.tenants.setIfInBounds k ⟨v.allocator, s.registry⟩⟩, t.frames,
        Function.update t.leases k leases⟩ := by
  obtain ⟨loose, hkept⟩ := h.tenant k v hv
  have hruns : Runs Shared.noted t.host.machine.front (act.job v.allocator).run
      (t.pool, t.host.machine.notes, v.registry) _ _ := hkept.after_act hallowed
  have hends := hruns (t.shared v) rfl rfl
  have hperform := Host.perform_eq (fun a => act.job a) hv
  unfold Ends at hends
  split at hends
  next lease s hrun =>
    rw [shared] at hrun
    exact ⟨s, _, loose, hkept, hends.2, by simp only [step, hperform, hrun]⟩
  next e s hrun =>
    rw [shared] at hrun
    exact ⟨s, _, loose, hkept, hends.2, by simp only [step, hperform, hrun, Function.update_eq_self]⟩

/-- What a tenant does is no matter of others. -/
theorem step_act {act : Act} (h : t.Kept rolls) (hallowed : t.Allows (.act k act)) :
    ∃ rolls', (t.step (.act k act)).Kept rolls' ∧
      t.Carries (t.step (.act k act)) (.act k act) rolls rolls' := by
  obtain ⟨v, hv, hallowed⟩ := hallowed
  obtain ⟨s, leases, loose, hkept, ⟨roll, loose', hkept', hbecomes, hleaves, hloose⟩, hstep⟩ :=
    h.exists_after hv hallowed
  obtain ⟨hlt, -⟩ := Array.getElem?_eq_some_iff.1 hv
  -- to the tenant, what others use is loose
  have hother : ∀ f, Other t rolls k f → f ∈ loose := by
    intro f hf
    refine hkept.mem_loose_iff.2 ⟨h.isTaken_of_other hf, fun huses => ?_⟩
    rcases hf with hf | ⟨j, w, hjk, hw, hf⟩
    · exact h.frames k v hv f hf huses
    · exact h.apart j k w v hw hv hjk f hf huses
  have hsame : ∀ j, j ≠ k → (t.host.tenants.setIfInBounds k ⟨v.allocator, s.registry⟩)[j]? =
      t.host.tenants[j]? := fun j hj => (Array.getElem?_setIfInBounds_ne (Ne.symm hj))
  have hself : (t.host.tenants.setIfInBounds k ⟨v.allocator, s.registry⟩)[k]? =
      some ⟨v.allocator, s.registry⟩ := Array.getElem?_setIfInBounds_self_of_lt hlt
  rw [hstep]
  refine ⟨Function.update rolls k roll, h.change rfl (fun j hj => ⟨hsame j hj, ?_⟩)
    (hleaves.mono hother) (fun w hw => ?_) (fun hw => ?_), fun j w hw => ?_⟩
  · exact Function.update_of_ne hj ..
  · obtain rfl : ⟨v.allocator, s.registry⟩ = w := Option.some.inj (hself.symm.trans hw)
    refine ⟨⟨loose', ?_⟩, fun f huses hf => ?_⟩
    · change roll.Kept v.allocator _ s.registry (Function.update t.leases k leases k) loose'
      rw [Function.update_self]
      exact hkept'
    · exact (hkept'.mem_loose_iff.1 (hloose (hother f hf))).2 huses
  · cases hself.symm.trans hw
  · by_cases hj : j = k
    · subst hj
      obtain rfl : v = w := Option.some.inj (hv.symm.trans hw)
      rw [Function.update_self]
      have heffect : (Deed.act j act).effect j = act.effect := funext fun _ => if_pos rfl
      have hgone : ∀ l, (Deed.act j act).Releases j l ↔ act = .release l := by
        intro l
        cases act <;> simp [Deed.Releases, eq_comm]
      rw [heffect]
      exact ⟨s.registry, hself, fun e he hne => hbecomes.entry e he (hne ∘ (hgone e.1).2),
        fun e he hne => hbecomes.follows e he (hne ∘ (hgone e.1).2)⟩
    · rw [Function.update_of_ne hj]
      refine ⟨w.registry, (hsame j hj).trans hw, h.becomes hw (hleaves.mono fun f hf => hother f ?_)
        fun _ => if_neg (Ne.symm hj)⟩
      exact Or.inr ⟨j, w, hj, hw, hf⟩

/-- What is done with other frames is no matter of any tenant. -/
theorem step_frames {call : FrameCall} (h : t.Kept rolls) (hallowed : t.Allows (.frames call)) :
    (t.step (.frames call)).Kept rolls ∧
      t.Carries (t.step (.frames call)) (.frames call) rolls rolls := by
  have htaken : ∀ f, call = .giveBack f → t.client.machine.pool.isTaken f = true := by
    rintro f rfl
    exact h.taken f hallowed
  obtain ⟨c, hc, hmoved⟩ := Client.step_ends h.pool htaken
  obtain ⟨hnodup, hstill, hnew⟩ := hmoved.frames h.nodup h.taken
  have hleaves : ∀ k v, t.tenant? k = some v →
      t.pool.Leaves ((rolls k).Uses v.allocator t.pool) c.machine.pool := by
    intro k v hv
    obtain ⟨loose, hkept⟩ := h.tenant k v hv
    exact (hmoved.leaves hallowed).mono fun f huses =>
      ⟨hkept.isTaken_of_uses huses, fun hf => h.frames k v hv f hf huses⟩
  have huses : ∀ k v, t.tenant? k = some v → ∀ f,
      (rolls k).Uses v.allocator c.machine.pool f ↔ (rolls k).Uses v.allocator t.pool f := by
    intro k v hv
    obtain ⟨loose, hkept⟩ := h.tenant k v hv
    exact (hkept.elsewhere (hleaves k v hv)).2.1
  have hstep : t.step (.frames call) =
      { t with host := { t.host with machine := c.machine }, frames := c.frames } := by
    simp only [step, hc]
  rw [hstep]
  refine ⟨⟨(hmoved.leaves hallowed).sound, hnodup, hstill, fun k v hv => ?_, fun k v hv f hf => ?_,
    fun j k v w hv hw hjk f hj hk => ?_, h.vacant⟩, fun k v hv => ?_⟩
  · obtain ⟨loose, hkept⟩ := h.tenant k v hv
    exact (hkept.elsewhere (hleaves k v hv)).1
  · intro hf'
    have hbefore := (huses k v hv f).1 hf'
    obtain ⟨loose, hkept⟩ := h.tenant k v hv
    rcases hnew f hf with hmine | hfresh
    · exact h.frames k v hv f hmine hbefore
    · exact Bool.false_ne_true (hfresh.symm.trans (hkept.isTaken_of_uses hbefore))
  · exact h.apart j k v w hv hw hjk f ((huses j v hv f).1 hj) ((huses k w hw f).1 hk)
  · exact ⟨v.registry, hv, h.becomes hv (hleaves k v hv) fun _ => rfl⟩

/-- A deed keeps the rolls of all tenants. -/
theorem step (h : t.Kept rolls) (hallowed : t.Allows d) :
    ∃ rolls', (t.step d).Kept rolls' ∧ t.Carries (t.step d) d rolls rolls' := by
  cases d with
  | found window => exact h.step_found hallowed
  | act k act => exact h.step_act hallowed
  | frames call => exact ⟨rolls, h.step_frames hallowed⟩

/-- Likewise for runs. -/
theorem run {deeds : List Deed} (h : t.Kept rolls) (hproper : t.Proper deeds) :
    ∃ rolls', (t.run deeds).Kept rolls' := by
  induction deeds generalizing t rolls with
  | nil => exact ⟨rolls, h⟩
  | cons d deeds ih =>
    obtain ⟨hd, hrest⟩ := hproper
    obtain ⟨rolls', h', -⟩ := h.step hd
    exact ih h' hrest

end Kept

/-- A new host has no tenants. -/
theorem kept_create {base : PageFrame} {count : Nat} {front : Front}
    (h : base.base.val.toNat + count * 4096 ≤ 2 ^ 52) :
    (create base count front).Kept fun _ => ⟨[], []⟩ where
  pool := Pool.sound_create h
  nodup := List.nodup_nil
  taken := nofun
  tenant k v hv := by cases hv
  frames k v hv := by cases hv
  apart j k v w hv := by cases hv
  vacant _ _ := rfl

/-- The rolls are kept in every state that is reached. -/
theorem kept_run {base : PageFrame} {count : Nat} {front : Front} {deeds : List Deed}
    (hpool : base.base.val.toNat + count * 4096 ≤ 2 ^ 52)
    (hproper : (create base count front).Proper deeds) (ht : (create base count front).run deeds = t) :
    ∃ rolls, t.Kept rolls :=
  ht ▸ (kept_create hpool).run hproper

end Hosting

end PagedMemory
