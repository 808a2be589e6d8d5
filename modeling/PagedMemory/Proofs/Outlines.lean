import Mathlib.Tactic
import PagedMemory.Proofs.Retreating
import PagedMemory.Proofs.Stepping

/-!
# Plans of fills

Whether a fill of free pages ends well is decided before it begins. All that counts is which tables
there are and how many more can be had; where these lie, and in which order frames were given back,
is no matter.

* `Tables.outline`: which entries of a tree lead to tables, and the supply of frames.
* `Outline.provide`, `Outline.provideAll`: what a fill makes of an outline, table by table.
* `Walk.Heeds`: a part of a fill ends as its plan does.
* `Walk.fill_heeds`: a fill makes of a tree what its plan makes of the outline.
* `Tables.Pruned.outline_eq`: after leaves have gone, the outline depends on which frames are in use.
-/

namespace PagedMemory

open Layout Tables

/-! ## Outlines -/

/-- What of a tree decides how a fill ends. -/
@[ext]
structure Outline where
  /-- whether the entry of a level that stands for a page leads to a table -/
  leads : Level → Nat → Bool
  /-- how many more tables can be had -/
  supply : Nat

namespace Outline

/-- There is one more table, behind the entry of level `l` for page `n`. -/
def extend (o : Outline) (n : Nat) (l : Level) : Outline where
  leads l' k := o.leads l' k || decide (k < 512 ^ 4 ∧ l' = l ∧ l.cell k = l.cell n)
  supply := o.supply - 1

/-- Sees to it that there is a table behind the entry of level `l` for page `n`. -/
def provide (n : Nat) (l : Level) : EStateM MapError Outline Unit := do
  let o ← get
  if o.leads l n then pure ()
  else if o.supply = 0 then throw .noTable
  else set (o.extend n l)

/-- All tables on the way to page `n`, from a table of level `l` down. -/
def provideBelow (n : Nat) : Level → EStateM MapError Outline Unit :=
  Level.descend (pure ()) fun l rest => do
    provide n l
    rest

/-- All tables on the way to `count` pages from page `n` on, page by page. -/
def provideAll : (n count : Nat) → EStateM MapError Outline Unit
  | _, 0 => pure ()
  | n, count + 1 => do
    provideBelow n .pml4
    provideAll (n + 1) count

theorem provide_of_leads {o : Outline} {n : Nat} {l : Level} (h : o.leads l n = true) :
    provide n l o = .ok () o := by
  simp only [provide, bind, EStateM.bind, get_apply, h, if_true]
  rfl

theorem provide_of_supply {o : Outline} {n : Nat} {l : Level} (h : o.leads l n = false) :
    provide n l o = if o.supply = 0 then .error .noTable o else .ok () (o.extend n l) := by
  simp only [provide, bind, EStateM.bind, get_apply, h, Bool.false_eq_true, if_false]
  split <;> rfl

end Outline

namespace Tables

variable {p q : Pool} {root f : PageFrame} {l below : Level} {n : Nat}

def outline (p : Pool) (root : PageFrame) : Outline where
  leads l n := decide (n < 512 ^ 4) && (l.next?.bind (tableOn p root n)).isSome
  supply := p.supply

theorem outline_leads : (outline p root).leads l n =
    (decide (n < 512 ^ 4) && (l.next?.bind (tableOn p root n)).isSome) := rfl

theorem outline_leads_next (hn : n < 512 ^ 4) (hbelow : l.next? = some below) :
    (outline p root).leads l n = (tableOn p root n below).isSome := by
  rw [outline_leads, decide_eq_true hn, hbelow]
  rfl

/-- The outline depends on the tables and the supply. -/
theorem outline_congr (htable : ∀ n < 512 ^ 4, ∀ l, tableOn q root n l = tableOn p root n l)
    (hsupply : q.supply = p.supply) : outline q root = outline p root := by
  refine Outline.ext (funext fun l => funext fun n => ?_) hsupply
  change (decide _ && _) = (decide _ && _)
  by_cases hn : n < 512 ^ 4
  · have hsame : tableOn q root n = tableOn p root n := funext (htable n hn)
    rw [hsame]
  · rw [decide_eq_false hn, Bool.false_and, Bool.false_and]

/-- How many tables can be had depends on which frames are in use, not on the order in which they came
to be free. -/
theorem supply_eq (hp : p.Sound) (hq : q.Sound) (hbase : q.base = p.base)
    (hsize : q.slots.size = p.slots.size) (hbudget : q.budget = p.budget)
    (htaken : ∀ f, q.isTaken f = p.isTaken f) : q.supply = p.supply := by
  have hfree : q.freeFrames.Perm p.freeFrames := by
    refine (List.perm_ext_iff_of_nodup (hq.placed.nodup_freeFrames hq.listed)
      (hp.placed.nodup_freeFrames hp.listed)).2 fun f => ?_
    rw [hq.placed.mem_freeFrames hq.listed, hp.placed.mem_freeFrames hp.listed, htaken]
    exact and_congr_left' ⟨fun h => h.congr hbase.symm hsize.symm, fun h => h.congr hbase hsize⟩
  have hlength : q.free.length = p.free.length := by
    rw [← Pool.length_freeFrames, ← Pool.length_freeFrames, hfree.length_eq]
  rw [Pool.supply, Pool.supply, hbudget, hlength]

/-- Trees from which leaves have gone look the same from above where the same frames are in use. -/
theorem Pruned.outline_eq {u : Pool} (h : Pruned root p q) (h' : Pruned root p u) (hq : q.Sound)
    (hu : u.Sound) (htaken : ∀ f, u.isTaken f = q.isTaken f) : outline u root = outline q root :=
  outline_congr (fun n hn l => (h'.table n hn l).trans (h.table n hn l).symm)
    (supply_eq hq hu (h'.base.trans h.base.symm) (h'.size.trans h.size.symm)
      (h'.budget.trans h.budget.symm) htaken)

/-- A new table extends the outline. -/
theorem Linked.outline_eq (h : Linked root n below f p q) (hbelow : l.next? = some below) :
    outline q root = (outline p root).extend n l := by
  refine Outline.ext (funext fun l' => funext fun k => ?_) ?_
  swap
  · have hsupply := h.supply
    change q.supply = p.supply - 1
    omega
  change _ = ((outline p root).leads l' k || _)
  by_cases hk : k < 512 ^ 4
  swap
  · have hnew : decide (k < 512 ^ 4 ∧ l' = l ∧ l.cell k = l.cell n) = false :=
      decide_eq_false fun h => hk h.1
    rw [outline_leads, outline_leads, decide_eq_false hk, hnew]
    rfl
  cases hbelow' : l'.next? with
  | none =>
    have hne : l' ≠ l := by
      rintro rfl
      cases hbelow'.symm.trans hbelow
    have hnew : decide (k < 512 ^ 4 ∧ l' = l ∧ l.cell k = l.cell n) = false :=
      decide_eq_false fun h => hne h.2.1
    rw [outline_leads, outline_leads, hbelow', hnew, Bool.or_false]
    rfl
  | some below' =>
    rw [outline_leads_next hk hbelow', outline_leads_next hk hbelow', h.table k hk]
    by_cases hnew : below' = below ∧ below.group k = below.group n
    · obtain ⟨rfl, hgroup⟩ := hnew
      rw [Level.group_next hbelow, Level.group_next hbelow] at hgroup
      rw [if_pos ⟨rfl, by rwa [Level.group_next hbelow, Level.group_next hbelow]⟩,
        decide_eq_true ⟨hk, Level.next?_inj hbelow hbelow', hgroup⟩, Bool.or_true]
      rfl
    · rw [if_neg hnew, decide_eq_false, Bool.or_false]
      rintro ⟨-, rfl, hcell⟩
      obtain rfl := Option.some.inj (hbelow'.symm.trans hbelow)
      exact hnew ⟨rfl, by rwa [Level.group_next hbelow, Level.group_next hbelow]⟩

end Tables

/-! ## Parts of fills and their plans -/

namespace Walk

open Outline

variable {α β : Type} {root t : PageFrame} {p : Pool} {es : List Event} {l below : Level}
  {b i j n k total : Nat} {s : Filling} {prot : Entry} {frames : Nat → Option PageFrame}

/-- The outline of a fill's tree. -/
abbrev sketch (root : PageFrame) (s : Filling) : Outline := outline s.machine.pool root

/-- The part of a fill ends as the plan does, and makes of the tree what the plan makes of its
outline. -/
def Heeds (root : PageFrame) (x : FillM α) (plan : EStateM MapError Outline Unit) (s : Filling)
    (Q : α → Filling → Prop) : Prop :=
  match plan (sketch root s) with
  | .ok _ o => ∃ v t, x s = .ok v t ∧ sketch root t = o ∧ Q v t
  | .error e o => ∃ t, x s = .error (.failed e) t ∧ sketch root t = o

namespace Heeds

variable {x : FillM α} {plan rest : EStateM MapError Outline Unit} {Q Q' : α → Filling → Prop}

/-- A part that needs no tables. -/
theorem of_ok {v : α} {t : Filling} (h : x s = .ok v t) (ht : sketch root t = sketch root s)
    (hq : Q v t) : Heeds root x (pure ()) s Q := ⟨v, t, h, ht, hq⟩

theorem bind {f : α → FillM β} {R : β → Filling → Prop} (h : Heeds root x plan s Q)
    (hf : ∀ v t, Q v t → Heeds root (f v) rest t R) :
    Heeds root (x >>= f) (plan >>= fun _ => rest) s R := by
  rw [Heeds] at h
  split at h
  next o hplan =>
    obtain ⟨v, t, hx, rfl, hq⟩ := h
    rw [Heeds, bind_eq_of_ok hplan, bind_eq_of_ok hx]
    exact hf v t hq
  next hplan =>
    obtain ⟨t, hx, hsketch⟩ := h
    rw [Heeds, bind_eq_of_error hplan, bind_eq_of_error hx]
    exact ⟨t, rfl, hsketch⟩

/-- What is known besides of the part if it ends well. -/
theorem and_of_ok (h : Heeds root x plan s Q) (hok : ∀ v t, x s = .ok v t → Q' v t) :
    Heeds root x plan s Q' := by
  rw [Heeds] at h ⊢
  split at h
  next =>
    obtain ⟨v, t, hx, hsketch, -⟩ := h
    exact ⟨v, t, hx, hsketch, hok v t hx⟩
  next => exact h

theorem map (h : Heeds root x plan s Q) (f : α → β) :
    Heeds root (do return f (← x)) plan s fun _ _ => True := by
  rw [Heeds] at h ⊢
  split at h
  next =>
    obtain ⟨v, t, hx, hsketch, -⟩ := h
    exact ⟨f v, t, bind_eq_of_ok hx, hsketch, trivial⟩
  next =>
    obtain ⟨t, hx, hsketch⟩ := h
    exact ⟨t, bind_eq_of_error hx, hsketch⟩

theorem congr {y : FillM α} (h : Heeds root x plan s Q) (hxy : y s = x s) : Heeds root y plan s Q := by
  rw [Heeds] at h ⊢
  rwa [hxy]

end Heeds

/-- What is kept on the way down to a page. -/
structure Descends (root : PageFrame) (n : Nat) (below : Level) (s : Filling) (next : PageFrame)
    (u : Filling) : Prop where
  sound : u.machine.pool.Sound
  tables : Tables.Sound u.machine.pool root
  table : tableOn u.machine.pool root n below = some next
  leaf : leafOn u.machine.pool root n = leafOn s.machine.pool root n
  taken : u.taken = s.taken

/-- Where there is no table behind an entry, a new one is put there, or there are no frames left. -/
theorem childOrCreate_links {back : Backdrop} (hp : p.Sound) (hs : Tables.Sound p root)
    (hn : n < 512 ^ 4) (ht : tableOn p root n l = some t) (hbelow : l.next? = some below)
    (hnone : tableOn p root n below = none) :
    Does back (childOrCreate l t (l.slot n)) p fun answer q => match answer with
      | .ok f => Linked root n below f p q
      | .error e => p.Alike q ∧ e = .noTable ∧ p.supply = 0 ∧ q.supply = 0 := by
  have hbehind : behind p n l t = none := by rwa [tableOn_next hbelow, ht, Option.bind_some] at hnone
  refine Runs.bind (child_does (hs.formed.has hn ht) (Level.isLeaf_of_next hbelow) _) ?_
  rintro c p ⟨rfl, rfl⟩
  -- the entry is empty, for none is malformed
  cases hc : (p.entryAt t (l.slot n)).child with
  | none => exact linkNewTable_links hp hs.held hn ht hbelow hbehind
  | table next =>
    rw [behind, Entry.table?, hc] at hbehind
    cases hbehind
  | malformed e => exact absurd hc (hs.tidy n hn l t e (Level.isLeaf_of_next hbelow) ht)

/-- The table behind an entry, which may have to be taken from the supply. -/
theorem childOrCreate_heeds (hp : s.machine.pool.Sound) (hs : Tables.Sound s.machine.pool root)
    (hn : n < 512 ^ 4) (ht : tableOn s.machine.pool root n l = some t) (hbelow : l.next? = some below) :
    Heeds root (FillM.onMachine (childOrCreate l t (l.slot n)) >>= FillM.orFail) (provide n l) s
      (Descends root n below s) := by
  have hleads : (sketch root s).leads l n = (tableOn s.machine.pool root n below).isSome :=
    outline_leads_next hn hbelow
  cases hnext : tableOn s.machine.pool root n below with
  | some next =>
    have hidle := onMachine_childOrCreate hs.held hn ht hbelow hnext
    rw [hnext] at hleads
    rw [Heeds, provide_of_leads hleads]
    exact ⟨next, s, bind_eq_of_ok hidle, rfl, hp, hs, hnext, rfl, rfl⟩
  | none =>
    rw [hnext] at hleads
    have hlinks : Does s.machine.backdrop (childOrCreate l t (l.slot n)) s.machine.pool _ :=
      childOrCreate_links hp hs hn ht hbelow hnext
    obtain ⟨answer, m, hrun, -, hpost⟩ := hlinks.exists_ok (s := s.machine) rfl rfl
    have hpart : FillM.onMachine (childOrCreate l t (l.slot n)) s = .ok answer ⟨m, s.taken⟩ := by
      rw [FillM.onMachine, hrun]
    rw [Heeds, provide_of_supply hleads]
    cases answer with
    | error e =>
      obtain ⟨halike, rfl, hbefore, hafter⟩ := hpost
      have hsketch : outline m.pool root = outline s.machine.pool root :=
        outline_congr (fun _ hk l => tableOn_eq_of_page (fun f _ => halike.page_eq f) hk l)
          (hafter.trans hbefore.symm)
      have hzero : (sketch root s).supply = 0 := hbefore
      rw [if_pos hzero]
      exact ⟨⟨m, s.taken⟩, bind_eq_of_ok hpart, hsketch⟩
    | ok f =>
      have hpos : (sketch root s).supply ≠ 0 := by
        have hsupply := hpost.supply
        change s.machine.pool.supply ≠ 0
        omega
      rw [if_neg hpos]
      exact ⟨f, ⟨m, s.taken⟩, bind_eq_of_ok hpart, hpost.outline_eq hbelow, hpost.sound,
        hpost.intact hs, (hpost.table n hn below).trans (if_pos ⟨rfl, rfl⟩), hpost.leaf n hn, rfl⟩

/-- A free page is mapped by one store to the lowest table. -/
theorem fillPage_stores {front : Front} {page : Interval} (hs : Tables.Sound p root)
    (hpage : page.Pages b n (n + 1)) (ht : tableOn p root n .pt = some t)
    (hempty : leafOn p root n = .empty) {f : PageFrame} (hf : frames k = some f) (hnumbered : f.Numbered) :
    Runs Filling.noted front (fillPage (.of frames) prot t page) (p, es, k)
      (fun _ u => u.1 = p.withEntry t (Level.pt.slot n) (.leafTo f prot)) fun _ _ => False := by
  have hn : n < 512 ^ 4 := hpage.top
  have hindex : Level.pt.index page.start = Level.pt.slot n := by
    rw [Level.index_eq, hpage.pageNumber (Nat.lt_succ_self _)]
  have hsource : ∀ back, Does back (FrameSource.of frames k) p fun f u => f = frames k ∧ u = p :=
    fun _ => Runs.pure ⟨rfl, rfl⟩
  rw [fillPage, hindex]
  refine Runs.bind (Q := fun e u => e = leafOn p root n ∧ u = (p, es, k))
    (Runs.onFilling (Does.noted ?_)) ?_
  · refine Runs.imp (entry_does (hs.formed.has hn ht) _) ?_
    rintro e _ ⟨rfl, rfl⟩
    exact ⟨(leafOn_eq ht).symm, rfl⟩
  rintro _ _ ⟨rfl, rfl⟩
  rw [if_pos (Entry.isEmpty_iff.2 hempty)]
  refine Runs.bind (Runs.mono (nextFrame_runs hsource) (fun _ _ h => h) ?_) ?_
  · rintro e _ ⟨hnone, -⟩
    cases hnone.symm.trans hf
  rintro g _ ⟨hg, rfl⟩
  obtain rfl := Option.some.inj (hf.symm.trans hg)
  refine Runs.bind (Q := fun _ u => u.1 = p.withEntry t (Level.pt.slot n) (.leafTo f prot))
    (Runs.onFilling ?_) fun _ _ hu => Runs.pure hu
  refine Runs.bind_lift (Entry.leaf_eq hnumbered prot) ?_
  refine Does.bind_noted (setEntry_does (hs.formed.has hn ht) _ _) ?_
  rintro _ _ rfl
  exact Runs.emit rfl

/-- Mapping a free page needs no tables but those on the way. -/
theorem fillPage_heeds {page : Interval} (hs : Tables.Sound s.machine.pool root)
    (hpage : page.Pages b n (n + 1)) (ht : tableOn s.machine.pool root n .pt = some t)
    (hempty : leafOn s.machine.pool root n = .empty) {f : PageFrame} (hf : frames s.taken = some f)
    (hnumbered : f.Numbered) :
    Heeds root (fillPage (.of frames) prot t page) (pure ()) s fun _ _ => True := by
  have hstores : Runs Filling.noted s.machine.front (fillPage (.of frames) prot t page)
      (s.machine.pool, s.machine.notes, s.taken) _ fun _ _ => False :=
    fillPage_stores hs hpage ht hempty hf hnumbered
  obtain ⟨v, u, hrun, -, hpool⟩ := hstores.exists_ok (s := s) rfl rfl
  have hpool : u.machine.pool = s.machine.pool.withEntry t (Level.pt.slot n) (.leafTo f prot) := hpool
  refine .of_ok hrun (outline_congr (fun m hm l => ?_) ?_) trivial
  · rw [hpool, hs.formed.tableOn_store hpage.top ht nofun hm l]
  · rw [hpool, Pool.withEntry, Pool.supply_rewrite]

/-- Mapping a free page, from any table on the way to it. -/
theorem fillTable_heeds (l : Level) {page : Interval} (hp : s.machine.pool.Sound)
    (hs : Tables.Sound s.machine.pool root) (hpage : page.Pages b n (n + 1))
    (ht : tableOn s.machine.pool root n l = some t) (hempty : leafOn s.machine.pool root n = .empty)
    {f : PageFrame} (hf : frames s.taken = some f) (hnumbered : f.Numbered) :
    Heeds root (fillTable (.of frames) prot l t page) (provideBelow n l) s fun _ _ => True := by
  induction l using Level.bottomUp generalizing s t with
  | bottom =>
    change Heeds root (page.foldPieces .pt (fillPage (.of frames) prot t)) _ s _
    rw [hpage.foldPieces_eq]
    exact fillPage_heeds hs hpage ht hempty hf hnumbered
  | step l below hbelow ih =>
    rw [fillTable_next hbelow, hpage.foldPieces_eq, provideBelow, Level.descend_next hbelow]
    have hpart : fillPart (.of frames) prot l below t page =
        (FillM.onMachine (childOrCreate l t (l.slot n)) >>= FillM.orFail) >>= fun next =>
          fillTable (.of frames) prot below next page := by
      rw [fillPart, Level.index_eq, hpage.pageNumber (Nat.lt_succ_self _), bind_assoc]
    rw [hpart]
    refine (childOrCreate_heeds hp hs hpage.top ht hbelow).bind fun next u hu => ?_
    exact ih hu.sound hu.tables hu.table (hu.leaf.trans hempty) (by rwa [hu.taken])

/-! ## Whole fills -/

/-- The pages that are left of a fill are mapped as planned. -/
theorem Reached.heeds {left : Nat} (hs : Tables.Sound p root)
    (hempty : ∀ n, i ≤ n → n < i + total → leafOn p root n = .empty)
    (hframes : ∀ k < total, ∃ f, frames k = some f ∧ f.Numbered) {r : Interval}
    (hleft : k + left = total) (hr : r.Pages b (i + k) (i + total))
    (h : Reached root p es frames prot b i total k (s.machine.pool, s.machine.notes, s.taken)) :
    Heeds root (fillTable (.of frames) prot .pml4 root r) (provideAll (i + k) left) s
      fun _ _ => True := by
  have hsteps : Steps (Fillable root) (fillTable (.of frames) prot .pml4 root) :=
    fill_steps (leavesMemory_of frames)
  have hstart := hr.start
  have hstop := hr.stop
  have htop := hr.top
  induction left generalizing r k s with
  | zero =>
    obtain ⟨start, stop⟩ := r
    obtain rfl : k = total := hleft
    have hval : start.val = stop.val := UInt64.toNat_inj.1 (hstart.trans hstop.symm)
    obtain rfl : start = stop := congrArg VirtAddr.mk hval
    exact .of_ok (congrFun (hsteps.none start) s) rfl trivial
  | succ left ih =>
    have hlt := r.stop.val.toNat_lt
    obtain ⟨mid, hmid⟩ : ∃ mid : VirtAddr, mid.val.toNat = b * 2 ^ 48 + (i + k + 1) * 4096 :=
      ⟨⟨UInt64.ofNat _⟩, UInt64.toNat_ofNat_of_lt' (Nat.lt_of_le_of_lt (by omega) hlt)⟩
    have hfirst : Interval.Pages ⟨r.start, mid⟩ b (i + k) (i + k + 1) :=
      ⟨hstart, hmid, Nat.le_succ _, by omega⟩
    have hrest : Interval.Pages ⟨mid, r.stop⟩ b (i + (k + 1)) (i + total) :=
      ⟨hmid, hstop, by omega, htop⟩
    have hlaid := h.laid
    have hpage : pageAfter i k = i + k := pageAfter_of_lt (by omega)
    have hfree : leafOn s.machine.pool root (i + k) = .empty := by
      rw [← hpage, hlaid.leaf_next (by omega), hpage]
      exact hempty _ (Nat.le_add_right i k) (by omega)
    obtain ⟨f, hf, hnumbered⟩ := hframes k (by omega)
    have htaken : s.taken = k := h.taken
    refine Heeds.congr ?_ (hsteps.peel hfirst hrest ⟨hlaid.sound.orderly, hlaid.tables⟩)
    refine Heeds.bind (Q := fun _ u => Reached root p es frames prot b i total (k + 1)
      (u.machine.pool, u.machine.notes, u.taken)) ?_ fun x u hu =>
        (ih (by omega) hrest hu hmid hstop).map _
    refine (fillTable_heeds .pml4 hlaid.sound (hlaid.intact hs) hfirst rfl hfree (htaken ▸ hf)
      hnumbered).and_of_ok ?_
    intro x u hx
    have hruns : Runs Filling.noted s.machine.front (fillTable (.of frames) prot .pml4 root ⟨r.start, mid⟩)
        (s.machine.pool, s.machine.notes, k) _ (Stops root p es frames prot b i total) :=
      fillTable_runs (w := 0) gives_of (by omega) .pml4 hfirst (by omega) (by omega) (htaken ▸ h)
        fun _ _ _ => rfl
    have hreached := ((hruns s (Prod.ext rfl (Prod.ext rfl htaken)) rfl).of_eq_ok hx).2.2.1
    rwa [Nat.add_sub_cancel_left] at hreached

/-- Whether a fill of free pages ends well, and which tables there are in the end, follows from which
there are and how many more can be had. -/
theorem fill_heeds (prot : Entry) {m : Machine} (hp : m.pool.Sound) (hs : Tables.Sound m.pool root)
    {r : Interval} (hr : r.Pages b i j) (hempty : ∀ n, i ≤ n → n < j → leafOn m.pool root n = .empty)
    (hframes : ∀ k < j - i, ∃ f, frames k = some f ∧ f.Numbered) :
    match provideAll i (j - i) (outline m.pool root) with
    | .ok _ o => ∃ count k m', fill root r prot (.of frames) 0 m = .ok (.ok count, k) m' ∧
        outline m'.pool root = o
    | .error e o => ∃ k m', fill root r prot (.of frames) 0 m = .ok (.error e, k) m' ∧
        outline m'.pool root = o := by
  have hle := hr.le
  have hij : i + (j - i) = j := Nat.add_sub_cancel' hle
  have hstart : Reached root m.pool m.notes frames prot b i (j - i) 0 (m.pool, m.notes, 0) :=
    .start hp hs.held
  have hfill : Heeds root (fillTable (.of frames) prot .pml4 root r) (provideAll (i + 0) (j - i)) ⟨m, 0⟩
      fun _ _ => True :=
    hstart.heeds hs (fun n hin hn => hempty n hin (by omega)) hframes (Nat.zero_add _) (by rwa [hij])
  rw [fill_eq_exec hr.aligned, FillM.exec]
  rw [Heeds] at hfill
  split at hfill
  next o hplan =>
    obtain ⟨count, u, hx, hsketch, -⟩ := hfill
    rw [Nat.add_zero] at hplan
    rw [hx, hplan]
    exact ⟨count, u.taken, u.machine, rfl, hsketch⟩
  next e o hplan =>
    obtain ⟨u, hx, hsketch⟩ := hfill
    rw [Nat.add_zero] at hplan
    rw [hx, hplan]
    exact ⟨u.taken, u.machine, rfl, hsketch⟩

end Walk

end PagedMemory
