import Mathlib.Tactic
import PagedMemory.Proofs.Placement
import PagedMemory.Proofs.Walks

/-!
# Translation caches

A cache may hold the translation of an address from any moment at which the leaf of its page is there,
and loses it only when it is dropped by the flush of a range. Addresses that are `2 ^ 48` apart share
their leaf, so that each page has an address in every block of `2 ^ 48` addresses: one that the events
name, its home, and others, under which it can be cached as well. What can be in some cache follows
from the events alone.

* `Watch`: what the events so far tell of the homes of pages. `Watch.next`: one more event.
* `Watch.Allows`: what must hold before an event. A frame goes back when no page is mapped to it and
  no cache can hold a translation to it; addresses come into use when no cache can hold a translation
  of them; mappings go only after they were announced to go.
* `Cached`: what some cache may hold, of all addresses. If flushes are `Thorough`, then by
  `Cached.caches` a watch knows of all of it. They are if they drop each address that shares its leaf
  with one of the range, or if no cache holds an address outside of the block of the window.
* `Orderly`: every event was allowed when it happened.
* `Orderly.settled`: in orderly events, what a cache can hold is mapped, or about to go.
* `Tracked`: the events are orderly, and tell what the leaves of a tree are. What walks do is tracked:
  `Tracked.filled` and `Tracked.cleared`.
-/

namespace PagedMemory

open Tables

namespace Interval

/-- The address lies in the range. -/
def Contains (r : Interval) (a : VirtAddr) : Prop :=
  r.start.val.toNat ≤ a.val.toNat ∧ a.val.toNat < r.stop.val.toNat

instance (r : Interval) (a : VirtAddr) : Decidable (r.Contains a) := instDecidableAnd

/-- The address shares its entries with an address of the range. -/
def Meets (r : Interval) (a : VirtAddr) : Prop :=
  ∃ x, r.Contains x ∧ x.val.toNat % 2 ^ 48 = a.val.toNat % 2 ^ 48

end Interval

/-- The address under which the events of a tree speak of the page of `x`, if the tree is used for the
addresses of block `b`. -/
def VirtAddr.home (b : Nat) (x : VirtAddr) : VirtAddr := .ofPage b x.pageNumber

/-- What the events so far tell of mappings and caches. -/
structure Watch where
  /-- the frame that a page is mapped to -/
  shows : VirtAddr → Option PageFrame
  /-- some cache may hold this translation, or one of another address of the page -/
  caches : VirtAddr → PageFrame → Prop
  /-- the range whose mappings are about to go -/
  announced : Option Interval
  /-- the range that was flushed last, until the end of its mappings is reported -/
  dropped : Option Interval

namespace Watch

/-- Nothing has happened. -/
def start : Watch := ⟨fun _ => none, fun _ _ => False, none, none⟩

def next (w : Watch) : Event → Watch
  | .mapped page frame => { w with
      shows := Function.update w.shows page (some frame)
      caches := fun x f => w.caches x f ∨ x = page ∧ f = frame }
  | .unmapped page => { w with shows := Function.update w.shows page none }
  | .beforeUnmap range => { w with announced := some range, dropped := none }
  | .flushed range => { w with
      -- what is mapped can be cached again at once
      caches := fun x f => w.shows x = some f ∨ w.caches x f ∧ ¬ range.Contains x
      announced := none
      dropped := some range }
  | .reported (.unmapped _ _) => { w with dropped := none }
  | _ => w

/-- What must hold when an event happens. -/
def Allows (w : Watch) : Event → Prop
  | .mapped page _ => w.shows page = none
  | .unmapped page => ∃ range ∈ w.announced, range.Contains page
  | .beforeUnmap _ => w.announced = none
  | .flushed range => w.announced = some range ∧ range.isAligned = true
  | .returned frame => ∀ x, w.shows x ≠ some frame ∧ ¬ w.caches x frame
  | .reported (.reserved span) => ∀ x f, w.caches x f → ∀ y, span.Contains y →
      y.pageNumber ≠ x.pageNumber
  | .reported (.unmapped _ start) => ∃ range ∈ w.dropped, range.start = start
  | _ => True

/-- What more events tell. -/
def after (w : Watch) (es : List Event) : Watch := es.foldl next w

variable {w : Watch} {e : Event} {es fs : List Event}

@[simp] theorem after_nil (w : Watch) : w.after [] = w := rfl

@[simp] theorem after_cons (w : Watch) (e : Event) (es : List Event) :
    w.after (e :: es) = (w.next e).after es := rfl

@[simp] theorem after_append (w : Watch) (es fs : List Event) :
    w.after (es ++ fs) = (w.after es).after fs := List.foldl_append

/-- Only notes tell anything. -/
theorem next_of_not_note (he : e.isNote = false) : w.next e = w := by
  cases e with
  | reported r => cases r <;> first | rfl | cases he
  | taken frame => rfl
  | afterMap range => rfl
  | requested policy => rfl
  | returned frame => cases he
  | beforeUnmap range => cases he
  | flushed range => cases he
  | mapped page frame => cases he
  | unmapped page => cases he
  | copied way place => cases he

theorem allows_of_not_note (he : e.isNote = false) : w.Allows e := by
  cases e with
  | reported r => cases r <;> trivial
  | taken frame => trivial
  | afterMap range => trivial
  | requested policy => trivial
  | returned frame => cases he
  | beforeUnmap range => cases he
  | flushed range => cases he
  | mapped page frame => cases he
  | unmapped page => cases he
  | copied way place => trivial

theorem after_filter (w : Watch) (es : List Event) :
    w.after (es.filter Event.isNote) = w.after es := by
  induction es generalizing w with
  | nil => rfl
  | cons e es ih =>
    by_cases he : e.isNote = true
    · rw [List.filter_cons_of_pos he, after_cons, after_cons, ih]
    · rw [List.filter_cons_of_neg he, after_cons, next_of_not_note (by simpa using he), ih]

end Watch

/-- Every event is allowed when it happens. -/
def Orderly (w : Watch) : List Event → Prop
  | [] => True
  | e :: es => w.Allows e ∧ Orderly (w.next e) es

section

variable {w : Watch} {es fs : List Event}

theorem orderly_append : Orderly w (es ++ fs) ↔ Orderly w es ∧ Orderly (w.after es) fs := by
  induction es generalizing w with
  | nil => simp [Orderly]
  | cons e es ih => simp [Orderly, ih, and_assoc]

theorem orderly_filter : Orderly w (es.filter Event.isNote) ↔ Orderly w es := by
  induction es generalizing w with
  | nil => rfl
  | cons e es ih =>
    by_cases he : e.isNote = true
    · rw [List.filter_cons_of_pos he, Orderly, Orderly, ih]
    · have hcalm : e.isNote = false := by simpa using he
      rw [List.filter_cons_of_neg he, ih, Orderly, Watch.next_of_not_note hcalm,
        and_iff_right (Watch.allows_of_not_note hcalm)]

/-- Each event is allowed by those before it. -/
theorem Orderly.allows (h : Orderly w es) {past future : List Event} {e : Event}
    (he : es = past ++ e :: future) : (w.after past).Allows e := by
  rw [he, orderly_append] at h
  exact h.2.1

/-- What a cache can hold is mapped, or about to go. -/
def Watch.Settled (w : Watch) : Prop :=
  ∀ x f, w.caches x f → w.shows x = some f ∨ ∃ range ∈ w.announced, range.Contains x

theorem Watch.Settled.next (h : w.Settled) {e : Event} (he : w.Allows e) : (w.next e).Settled := by
  cases e with
  | mapped page frame =>
    rintro x f (hf | ⟨rfl, rfl⟩)
    · rcases h x f hf with hshows | hgoing
      · left
        have hne : x ≠ page := by
          rintro rfl
          rw [he] at hshows
          cases hshows
        exact (Function.update_of_ne hne _ _).trans hshows
      · exact Or.inr hgoing
    · exact Or.inl (Function.update_self ..)
  | unmapped page =>
    intro x f hf
    rcases eq_or_ne x page with rfl | hne
    · exact Or.inr he
    · exact (h x f hf).imp_left (Function.update_of_ne hne _ _).trans
  | beforeUnmap range =>
    intro x f hf
    rcases h x f hf with hshows | ⟨range', hrange', -⟩
    · exact Or.inl hshows
    · rw [he] at hrange'
      cases hrange'
  | flushed range =>
    rintro x f (hshows | ⟨hf, hout⟩)
    · exact Or.inl hshows
    · rcases h x f hf with hshows | ⟨range', hrange', hin⟩
      · exact Or.inl hshows
      · rw [he.1] at hrange'
        obtain rfl := Option.some.inj hrange'
        exact absurd hin hout
  | reported r => cases r <;> exact h
  | taken frame => exact h
  | returned frame => exact h
  | afterMap range => exact h
  | requested policy => exact h
  | copied way place => exact h

theorem Orderly.settled (h : Orderly w es) (hw : w.Settled) : (w.after es).Settled := by
  induction es generalizing w with
  | nil => exact hw
  | cons e es ih => exact ih h.2 (hw.next h.1)

/-- After these events a cache may hold the translation of an address, whichever it is: it was filled
while the page of the address was mapped, now or earlier, and no flush has dropped it since. The flush
of a range drops the addresses that `drops` says. -/
inductive Cached (drops : Interval → VirtAddr → Prop) (b : Nat) :
    List Event → VirtAddr → PageFrame → Prop
  | filled {es : List Event} {x : VirtAddr} {f : PageFrame}
      (h : (Watch.start.after es).shows (x.home b) = some f) : Cached drops b es x f
  | kept {es : List Event} {e : Event} {x : VirtAddr} {f : PageFrame} (h : Cached drops b es x f)
      (he : ∀ range, e = .flushed range → ¬ drops range x) : Cached drops b (es ++ [e]) x f

namespace Watch

variable {w : Watch} {e : Event} {x : VirtAddr} {f : PageFrame}

/-- What is mapped can be cached. -/
theorem caches_of_shows (hw : ∀ x f, w.shows x = some f → w.caches x f)
    (h : (w.next e).shows x = some f) : (w.next e).caches x f := by
  cases e with
  | mapped page frame =>
    change Function.update w.shows page (some frame) x = some f at h
    rw [Function.update_apply] at h
    split at h
    next hpage => exact Or.inr ⟨hpage, (Option.some.inj h).symm⟩
    next => exact Or.inl (hw x f h)
  | unmapped page =>
    change Function.update w.shows page none x = some f at h
    rw [Function.update_apply] at h
    split at h
    next => cases h
    next => exact hw x f h
  | flushed range => exact Or.inl h
  | reported r => cases r <;> exact hw x f h
  | beforeUnmap range => exact hw x f h
  | taken frame => exact hw x f h
  | returned frame => exact hw x f h
  | afterMap range => exact hw x f h
  | requested policy => exact hw x f h
  | copied way place => exact hw x f h

/-- What was cached stays so, unless it is flushed. -/
theorem caches_next (h : w.caches x f) (he : ∀ range, e = .flushed range → ¬ range.Contains x) :
    (w.next e).caches x f := by
  cases e with
  | mapped page frame => exact Or.inl h
  | flushed range => exact Or.inr ⟨h, he range rfl⟩
  | reported r => cases r <;> exact h
  | unmapped page => exact h
  | beforeUnmap range => exact h
  | taken frame => exact h
  | returned frame => exact h
  | afterMap range => exact h
  | requested policy => exact h
  | copied way place => exact h

end Watch

theorem Watch.caches_after (es : List Event) : ∀ x f, (start.after es).shows x = some f →
    (start.after es).caches x f := by
  induction es using List.reverseRecOn with
  | nil => nofun
  | append_singleton es e ih =>
    rw [after_append]
    exact fun x f => caches_of_shows ih

namespace Cached

variable {drops : Interval → VirtAddr → Prop} {b : Nat} {x : VirtAddr} {f : PageFrame}

/-- What no flush has dropped is still cached. -/
theorem append (h : Cached drops b es x f) (hfs : ∀ range, .flushed range ∈ fs → ¬ drops range x) :
    Cached drops b (es ++ fs) x f := by
  induction fs using List.reverseRecOn with
  | nil => exact (List.append_nil es).symm ▸ h
  | append_singleton fs e ih =>
    rw [← List.append_assoc]
    refine .kept (ih fun range he => hfs range (List.mem_append_left _ he)) ?_
    rintro range rfl
    exact hfs range (List.mem_append_right _ List.mem_cons_self)

end Cached

end

/-! ## Events and leaves -/

section

variable {b n lo hi count : Nat} {leaf leaf' : Nat → Entry} {w : Watch} {es : List Event}
  {f : PageFrame} {p : Pool} {root : PageFrame}

theorem VirtAddr.toNat_ofPage (hb : b < 2 ^ 16) (hn : n < 512 ^ 4) :
    (VirtAddr.ofPage b n).val.toNat = b * 2 ^ 48 + n * 4096 := by
  have hword : UInt64.size = 2 ^ 64 := rfl
  exact UInt64.toNat_ofNat_of_lt' (by omega)

theorem VirtAddr.ofPage_inj {k : Nat} (hb : b < 2 ^ 16) (hn : n < 512 ^ 4) (hk : k < 512 ^ 4)
    (h : VirtAddr.ofPage b n = .ofPage b k) : n = k := by
  have hval := congrArg (fun a => a.val.toNat) h
  simp only [toNat_ofPage hb hn, toNat_ofPage hb hk] at hval
  omega

theorem VirtAddr.pageNumber_ofPage (hb : b < 2 ^ 16) (hn : n < 512 ^ 4) :
    (VirtAddr.ofPage b n).pageNumber = n := by
  rw [pageNumber, toNat_ofPage hb hn]
  omega

/-- The address lies in block `b`. -/
def VirtAddr.InBlock (b : Nat) (x : VirtAddr) : Prop := x.val.toNat / 2 ^ 48 = b

theorem VirtAddr.toNat_home (hb : b < 2 ^ 16) (x : VirtAddr) :
    (x.home b).val.toNat = b * 2 ^ 48 + x.val.toNat % 2 ^ 48 / 4096 * 4096 := by
  rw [home, toNat_ofPage hb x.pageNumber_lt, pageNumber]
  omega

/-- With a page goes each address of it that a cache can hold. -/
def Thorough (b : Nat) (known : VirtAddr → Prop) (drops : Interval → VirtAddr → Prop) : Prop :=
  ∀ range x, known x → range.isAligned = true → range.Contains (x.home b) → drops range x

/-- In orderly events, a watch knows of everything that a cache can hold. -/
theorem Cached.caches {known : VirtAddr → Prop} {drops : Interval → VirtAddr → Prop} {x : VirtAddr}
    (hdrops : Thorough b known drops) (hx : known x) (h : Cached drops b es x f)
    (horderly : Orderly .start es) : (Watch.start.after es).caches (x.home b) f := by
  induction h with
  | filled h => exact Watch.caches_after _ _ _ h
  | kept _ he ih =>
    obtain ⟨hpast, hallows, -⟩ := orderly_append.1 horderly
    rw [Watch.after_append]
    refine Watch.caches_next (ih hx hpast) ?_
    rintro range rfl hin
    exact he range rfl (hdrops range _ hx hallows.2 hin)

/-- The events tell what the leaves of a tree say of the pages of one block. -/
def Mirrors (b : Nat) (leaf : Nat → Entry) (w : Watch) : Prop :=
  ∀ x f, w.shows x = some f ↔ ∃ n < 512 ^ 4, x = .ofPage b n ∧ leaf n ≠ .empty ∧ (leaf n).frame = f

theorem Mirrors.congr (h : Mirrors b leaf w) (hleaf : ∀ n < 512 ^ 4, leaf' n = leaf n) :
    Mirrors b leaf' w := by
  intro x f
  rw [h x f]
  refine exists_congr fun n => and_congr_right fun hn => ?_
  rw [hleaf n hn]

/-- A page that is not mapped is not said to be. -/
theorem Mirrors.shows_eq_none (h : Mirrors b leaf w) (hb : b < 2 ^ 16) (hn : n < 512 ^ 4)
    (hempty : leaf n = .empty) : w.shows (.ofPage b n) = none := by
  by_contra hne
  obtain ⟨f, hf⟩ := Option.ne_none_iff_exists'.1 hne
  obtain ⟨k, hk, hpage, hmapped, -⟩ := (h _ _).1 hf
  obtain rfl := VirtAddr.ofPage_inj hb hn hk hpage
  exact hmapped hempty

/-- The leaf of one page has changed, and so has what the events tell of it. -/
theorem Mirrors.update {w' : Watch} (h : Mirrors b leaf w) (hb : b < 2 ^ 16) (hn : n < 512 ^ 4)
    {e : Entry} (hleaf : ∀ k < 512 ^ 4, leaf' k = if k = n then e else leaf k)
    (hshows : w'.shows = Function.update w.shows (.ofPage b n)
      (if e = .empty then none else some e.frame)) : Mirrors b leaf' w' := by
  intro x f
  rw [hshows]
  rcases eq_or_ne x (.ofPage b n) with rfl | hne
  · rw [Function.update_self]
    constructor
    · intro he
      split at he
      next => cases he
      next hmapped =>
        refine ⟨n, hn, rfl, ?_⟩
        rw [hleaf n hn, if_pos rfl]
        exact ⟨hmapped, Option.some.inj he⟩
    · rintro ⟨k, hk, hpage, hmapped, hframe⟩
      obtain rfl := VirtAddr.ofPage_inj hb hn hk hpage
      rw [hleaf n hn, if_pos rfl] at hmapped hframe
      rw [if_neg hmapped, hframe]
  · rw [Function.update_of_ne hne, h x f]
    refine exists_congr fun k => and_congr_right fun hk => and_congr_right fun hpage => ?_
    rw [hleaf k hk, if_neg]
    rintro rfl
    exact hne hpage

/-- The events are orderly, none is in the middle of a removal, and they tell what the leaves are. -/
structure Tracked (b : Nat) (leaf : Nat → Entry) (es : List Event) : Prop where
  orderly : Orderly .start es
  idle : (Watch.start.after es).announced = none
  mirrors : Mirrors b leaf (Watch.start.after es)

namespace Tracked

theorem congr (h : Tracked b leaf es) (hleaf : ∀ n < 512 ^ 4, leaf' n = leaf n) :
    Tracked b leaf' es :=
  ⟨h.orderly, h.idle, h.mirrors.congr hleaf⟩

/-- What a cache can hold is mapped. -/
theorem shows_of_caches (h : Tracked b leaf es) {x : VirtAddr}
    (hx : (Watch.start.after es).caches x f) : (Watch.start.after es).shows x = some f := by
  have hsettled : (Watch.start.after es).Settled := h.orderly.settled fun _ _ hf => hf.elim
  rcases hsettled x f hx with hshows | ⟨range, hrange, -⟩
  · exact hshows
  · rw [h.idle] at hrange
    cases hrange

/-- One more event, of which the mappings know nothing. -/
theorem push (h : Tracked b leaf es) {e : Event} (he : (Watch.start.after es).Allows e)
    (hnext : ∀ w : Watch, (w.next e).shows = w.shows ∧ (w.next e).announced = w.announced) :
    Tracked b leaf (es ++ [e]) where
  orderly := orderly_append.2 ⟨h.orderly, he, trivial⟩
  idle := by
    rw [Watch.after_append]
    exact (hnext _).2.trans h.idle
  mirrors x f := by
    rw [Watch.after_append, Watch.after_cons, Watch.after_nil, (hnext _).1]
    exact h.mirrors x f

/-- A frame goes back to which no page is mapped. -/
theorem returned (h : Tracked b leaf es)
    (hf : ∀ n < 512 ^ 4, leaf n ≠ .empty → (leaf n).frame ≠ f) :
    Tracked b leaf (es ++ [.returned f]) := by
  have hshows : ∀ x, (Watch.start.after es).shows x ≠ some f := by
    intro x hx
    obtain ⟨n, hn, -, hmapped, hframe⟩ := (h.mirrors x f).1 hx
    exact hf n hn hmapped hframe
  exact h.push (fun x => ⟨hshows x, fun hx => hshows x (h.shows_of_caches hx)⟩)
    fun _ => ⟨rfl, rfl⟩

/-- Addresses come into use of which none is mapped. -/
theorem reserved (h : Tracked b leaf es) (hb : b < 2 ^ 16) {span : Span}
    (hspan : ∀ y, span.Contains y → leaf y.pageNumber = .empty) :
    Tracked b leaf (es ++ [.reported (.reserved span)]) := by
  refine h.push (fun x f hx y hy => ?_) fun _ => ⟨rfl, rfl⟩
  obtain ⟨n, hn, rfl, hmapped, -⟩ := (h.mirrors x f).1 (h.shows_of_caches hx)
  rw [VirtAddr.pageNumber_ofPage hb hn]
  rintro rfl
  exact hmapped (hspan y hy)

/-- A page is mapped that was not. -/
theorem mapped (h : Tracked b leaf es) (hb : b < 2 ^ 16) (hn : n < 512 ^ 4)
    (hempty : leaf n = .empty) {e : Entry} (he : e ≠ .empty)
    (hleaf : ∀ k < 512 ^ 4, leaf' k = if k = n then e else leaf k) :
    Tracked b leaf' (es ++ [.mapped (.ofPage b n) e.frame]) where
  orderly := orderly_append.2 ⟨h.orderly, h.mirrors.shows_eq_none hb hn hempty, trivial⟩
  idle := by
    rw [Watch.after_append]
    exact h.idle
  mirrors := by
    rw [Watch.after_append]
    refine h.mirrors.update hb hn hleaf ?_
    rw [if_neg he]
    rfl

/-- The first `count` pages of a range that was free are mapped, one after the other. -/
theorem mappings {frames : Nat → Option PageFrame} {prot : Entry} (h : Tracked b leaf es)
    (hb : b < 2 ^ 16) (htop : lo + count ≤ 512 ^ 4)
    (hempty : ∀ n, lo ≤ n → n < lo + count → leaf n = .empty)
    (hframes : ∀ k < count, ∃ f, frames k = some f ∧ f.Numbered) :
    Tracked b (fun n => if lo ≤ n ∧ n < lo + count then Walk.mappedTo frames prot lo n else leaf n)
      (es ++ Walk.mappings b lo frames count) := by
  induction count with
  | zero =>
    rw [Walk.mappings, List.range_zero, List.filterMap_nil, List.append_nil]
    exact h.congr fun n _ => if_neg (by omega)
  | succ count ih =>
    obtain ⟨f, hf, hnumbered⟩ := hframes count (Nat.lt_succ_self count)
    have hprev := ih (by omega) (fun n hlow hhigh => hempty n hlow (by omega)) fun k hk =>
      hframes k (by omega)
    have hleafTo : Walk.mappedTo frames prot lo (lo + count) = .leafTo f prot := by
      rw [Walk.mappedTo, Nat.add_sub_cancel_left, hf]
    have hne : Entry.leafTo f prot ≠ .empty := by
      intro he
      have hpresent := Entry.leafTo_present hnumbered prot
      rw [he] at hpresent
      cases hpresent
    rw [Walk.mappings_succ hf, ← List.append_assoc, ← Entry.leafTo_frame hnumbered prot]
    refine hprev.mapped hb (by omega) ?_ hne fun k _ => ?_
    · rw [if_neg (by omega)]
      exact hempty _ (by omega) (by omega)
    · rcases eq_or_ne k (lo + count) with rfl | hk
      · rw [if_pos (by omega), if_pos rfl, hleafTo]
      · rw [if_neg hk]
        congr 1
        rw [eq_iff_iff]
        omega

/-- A fill of free pages, as far as it has come. -/
theorem filled {frames : Nat → Option PageFrame} {prot : Entry} {t : Pool × List Event × Nat}
    (h : Tracked b (leafOn p root) es) (hb : b < 2 ^ 16) (hlo : lo ≤ n) (htop : n ≤ 512 ^ 4)
    (hempty : ∀ k, lo ≤ k → k < n → leafOn p root k = .empty)
    (ht : Walk.Filled root p es frames prot b lo n t) : Tracked b (leafOn t.1 root) t.2.1 := by
  have hcount : lo + (n - lo) = n := by omega
  have hmappings : Tracked b (fun k => if lo ≤ k ∧ k < lo + (n - lo) then
      Walk.mappedTo frames prot lo k else leafOn p root k) (es ++ Walk.mappings b lo frames (n - lo)) :=
    h.mappings hb (by omega) (fun k hlow hhigh => hempty k hlow (by omega)) ht.frame
  rw [ht.notes]
  refine hmappings.congr fun k hk => ?_
  rw [ht.remapped.leaf k hk, hcount]

end Tracked

/-! ### Removals -/

/-- Pages of an announced range are unmapped one after the other. -/
theorem Watch.after_unmapped {range : Interval} (hb : b < 2 ^ 16) (hrange : range.Pages b lo hi)
    (pages : List Nat) (hpages : ∀ n ∈ pages, lo ≤ n ∧ n < hi) (hw : w.announced = some range) :
    Orderly w (pages.map fun n => .unmapped (.ofPage b n)) ∧
      (w.after (pages.map fun n => .unmapped (.ofPage b n))).announced = some range ∧
      ∀ x, (w.after (pages.map fun n => .unmapped (.ofPage b n))).shows x =
        if x ∈ pages.map (VirtAddr.ofPage b) then none else w.shows x := by
  induction pages generalizing w with
  | nil => exact ⟨trivial, hw, fun x => (if_neg List.not_mem_nil).symm⟩
  | cons n pages ih =>
    obtain ⟨hlow, hhigh⟩ := hpages n List.mem_cons_self
    have hn : n < 512 ^ 4 := Nat.lt_of_lt_of_le hhigh hrange.top
    have hin : range.Contains (.ofPage b n) := by
      rw [Interval.Contains, VirtAddr.toNat_ofPage hb hn, hrange.start, hrange.stop]
      omega
    obtain ⟨horderly, hannounced, hshows⟩ := ih (w := w.next (.unmapped (.ofPage b n)))
      (fun k hk => hpages k (List.mem_cons_of_mem n hk)) hw
    refine ⟨⟨⟨range, hw, hin⟩, horderly⟩, hannounced, fun x => ?_⟩
    refine (hshows x).trans ?_
    simp only [List.map_cons, List.mem_cons]
    rcases eq_or_ne x (.ofPage b n) with rfl | hne
    · rw [if_pos (Or.inl rfl)]
      split
      · rfl
      · exact Function.update_self ..
    · simp only [hne, false_or]
      congr 1
      exact Function.update_of_ne hne _ _

/-- A range is announced to go, cleared, flushed, and reported to have gone. -/
theorem Tracked.cleared {t : Pool × List Event} {range : Interval}
    (h : Tracked b (leafOn p root) es) (hb : b < 2 ^ 16) (hrange : range.Pages b lo hi)
    (ht : Walk.Cleared root p (es ++ [.beforeUnmap range]) b lo hi t) (count : Nat) :
    Tracked b (leafOn t.1 root)
      (t.2 ++ [.flushed range, .reported (.unmapped count range.start)]) := by
  have hannounced : ((Watch.start.after es).next (.beforeUnmap range)).announced = some range := rfl
  obtain ⟨horderly, hstill, hshows⟩ := Watch.after_unmapped hb hrange
    ((List.range' lo (hi - lo)).filter fun n => !(leafOn p root n).isEmpty)
    (fun n hn => by have := List.mem_range'_1.1 (List.mem_filter.1 hn).1; omega) hannounced
  rw [ht.notes, List.append_assoc, List.append_assoc, List.singleton_append]
  refine ⟨?_, ?_, ?_⟩
  · refine orderly_append.2 ⟨h.orderly, h.idle, orderly_append.2 ⟨horderly, ⟨hstill, ?_⟩, ?_⟩⟩
    · exact hrange.aligned
    · exact ⟨⟨range, rfl, rfl⟩, trivial⟩
  · simp only [Watch.after_append, Watch.after_cons, Watch.after_nil]
    rfl
  · simp only [Watch.after_append, Watch.after_cons, Watch.after_nil]
    intro x f
    refine (Eq.congr_left (hshows x)).trans ?_
    split
    next hx =>
      obtain ⟨n, hn, rfl⟩ := List.mem_map.1 hx
      obtain ⟨hlow, hhigh⟩ := List.mem_range'_1.1 (List.mem_filter.1 hn).1
      have hn : n < 512 ^ 4 := by have := hrange.top; omega
      refine ⟨nofun, ?_⟩
      rintro ⟨k, hk, hpage, hmapped, -⟩
      obtain rfl := VirtAddr.ofPage_inj hb hn hk hpage
      exact absurd ((ht.remapped.leaf n hn).trans (if_pos (by omega))) hmapped
    next hx =>
      have hmirrors := h.mirrors x f
      refine hmirrors.trans (exists_congr fun n => and_congr_right fun hn =>
        and_congr_right fun hpage => ?_)
      rw [ht.remapped.leaf n hn]
      split
      next hin =>
        -- a page of the range that is not listed was not mapped
        refine ⟨fun hmapped => absurd (List.mem_map.2 ⟨n, ?_, hpage.symm⟩) hx,
          fun hmapped => absurd rfl hmapped.1⟩
        refine List.mem_filter.2 ⟨List.mem_range'_1.2 (by omega), ?_⟩
        have hempty := Entry.isEmpty_iff.not.2 hmapped.1
        simpa using hempty
      next => rfl

end

end PagedMemory
