import Mathlib.Tactic
import PagedMemory.Allocator
import PagedMemory.Proofs.Arrays
import PagedMemory.Proofs.Placement
import PagedMemory.Proofs.Walks

/-!
# The ledger of an allocator

Who owns which frame, at every moment between two sections of an allocator's routines.

* `Span.Covers`: the pages of an area, without its guard page.
* `Holding`: an area together with the frames it owns. A chain of holdings is an area followed by
  the area of its handle array, the area of that array's array, and so on: `Chained`.
* `World`: the frames in use are those that are loose, those of the chains and the tables, and no
  frame is owned twice; no page is mapped but those of areas.
* `World.insert`, `World.grow`, `World.remove`, `World.hand`, `World.giveBack` and the like: the
  steps that keep the books.
* `Keeps`: what a step leaves alone.
-/

namespace PagedMemory

open Layout Tables

/-! ## The pages of an area -/

namespace Span

variable {s t : Span} {b n : Nat}

/-- The number of the first page. -/
def firstPage (s : Span) : Nat := s.address.pageNumber

/-- The number of pages in front of the guard page. -/
def pages (s : Span) : Nat := s.size.toNat / 4096 - 1

/-- Page `n` is one of the area's, and not its guard page. -/
def Covers (s : Span) (n : Nat) : Prop := s.firstPage ≤ n ∧ n < s.firstPage + s.pages

/-- The area consists of whole pages, two at least, in the block of number `b`. -/
structure Within (s : Span) (b : Nat) : Prop where
  aligned : 4096 ∣ s.address.val.toNat
  whole : 4096 ∣ s.size.toNat
  twoPages : 2 * 4096 ≤ s.size.toNat
  start_le : b * 2 ^ 48 ≤ s.address.val.toNat
  stop_le : s.stop ≤ (b + 1) * 2 ^ 48
  bounded : s.stop < 2 ^ 64

namespace Within

theorem address_eq (h : s.Within b) : s.address.val.toNat = b * 2 ^ 48 + s.firstPage * 4096 := by
  obtain ⟨haligned, -, htwo, hstart, hstop, -⟩ := h
  rw [stop] at hstop
  rw [firstPage, VirtAddr.pageNumber]
  omega

theorem size_eq (h : s.Within b) : s.size.toNat = (s.pages + 1) * 4096 := by
  obtain ⟨-, hwhole, htwo, -⟩ := h
  rw [pages]
  omega

theorem last_lt (h : s.Within b) : s.firstPage + s.pages < 512 ^ 4 := by
  have haddress := h.address_eq
  have hsize := h.size_eq
  have hstop := h.stop_le
  rw [stop] at hstop
  omega

theorem covers_lt (h : s.Within b) (hn : s.Covers n) : n < 512 ^ 4 :=
  Nat.lt_trans hn.2 h.last_lt

/-- The range that is mapped and unmapped consists of the pages that the area covers. -/
theorem mappedEnd (h : s.Within b) :
    ∃ stop, s.mappedEnd = .ok stop ∧
      Interval.Pages ⟨s.address, stop⟩ b s.firstPage (s.firstPage + s.pages) := by
  have haddress := h.address_eq
  have hsize := h.size_eq
  have hlast := h.last_lt
  have hbounded := h.bounded
  rw [stop] at hbounded
  obtain ⟨stop, hstop, hval⟩ := Span.mappedEnd_eq_ok h.bounded (by omega)
  rw [Span.stop] at hval
  refine ⟨stop, hstop, ⟨haddress, ?_, Nat.le_add_right _ _, ?_⟩⟩
  · change stop.val.toNat = _
    omega
  · omega

/-- The addresses of a page have its number. -/
theorem pageNumber_eq {x : VirtAddr} {i : Nat} (hs : s.Within b) (hi : i < s.pages)
    (hlow : s.address.val.toNat + i * 4096 ≤ x.val.toNat)
    (hhigh : x.val.toNat < s.address.val.toNat + (i + 1) * 4096) :
    x.pageNumber = s.firstPage + i := by
  have haddress := hs.address_eq
  have hlast := hs.last_lt
  rw [VirtAddr.pageNumber]
  omega

/-- Areas that do not meet have no page in common. -/
theorem not_covers (hs : s.Within b) (ht : t.Within b)
    (h : s.stop ≤ t.address.val.toNat ∨ t.stop ≤ s.address.val.toNat) (hn : s.Covers n) :
    ¬ t.Covers n := by
  have haddress := hs.address_eq
  have haddress' := ht.address_eq
  have hsize := hs.size_eq
  have hsize' := ht.size_eq
  obtain ⟨hlow, hhigh⟩ := hn
  rintro ⟨hlow', hhigh'⟩
  rw [stop, stop] at h
  omega

end Within

end Span

/-! ## Holdings and chains -/

/-- An area together with the frames it owns, in address order. -/
structure Holding where
  area : Area
  frames : List PageFrame

/-- An array lies in the frames of the next holding of its chain; the last one needs none. -/
def HandleArray.RestsOn (array : HandleArray) : Option Holding → Prop
  | none => array.base? = none
  | some below => array.base? = some below.area.address ∧ array.backing = below.frames

/-- Each holding's handles are its frames, and lie in the frames of the next. -/
def Chained (p : Pool) : List Holding → Prop
  | [] => True
  | h :: rest => h.area.pageCount = h.frames.length ∧ h.area.handles.Holds p h.frames ∧
      h.area.handles.RestsOn rest.head? ∧ Chained p rest

/-- The frames of all holdings of the chains. -/
def heldBy (chains : List (List Holding)) : List PageFrame :=
  chains.flatten.flatMap Holding.frames

/-- All frames that are owned, be it by a client or by an area. -/
def owned (loose : List PageFrame) (chains : List (List Holding)) : List PageFrame :=
  loose ++ heldBy chains

theorem HandleArray.RestsOn.backing_eq {array : HandleArray} {rest : List Holding}
    (h : array.RestsOn rest.head?) : array.backing = (rest.head?.map Holding.frames).getD [] := by
  cases rest with
  | nil =>
    cases array with
    | empty => rfl
    | inline kept => rfl
    | mapped base length backing => cases h
  | cons below rest => exact h.2

/-- The frames behind an array are those of the next holding. -/
theorem HandleArray.RestsOn.subset {array : HandleArray} {rest : List Holding}
    (h : array.RestsOn rest.head?) : ∀ b ∈ array.backing, b ∈ rest.flatMap Holding.frames := by
  intro b hb
  rw [h.backing_eq] at hb
  cases rest with
  | nil => exact hb
  | cons below rest => exact List.mem_append_left _ hb

/-- A chain depends on the frames of all its holdings but the first. -/
theorem Chained.congr {p q : Pool} {chain : List Holding} (h : Chained p chain)
    (hpage : ∀ f ∈ chain.tail.flatMap Holding.frames, q.page f = p.page f) : Chained q chain := by
  induction chain with
  | nil => exact trivial
  | cons x rest ih =>
    obtain ⟨hcount, hholds, hrests, hrest⟩ := h
    refine ⟨hcount, hholds.congr fun b hb => hpage b (hrests.subset b hb), hrests,
      ih hrest fun f hf => hpage f ?_⟩
    cases rest with
    | nil => exact hf
    | cons y rest => exact List.mem_append_right _ hf

/-! ## The books -/

/-- The areas of all holdings of the chains. -/
def areasOf (chains : List (List Holding)) : List Area := chains.flatten.map Holding.area

/-- The number of the block of `2 ^ 48` addresses in which the window begins. -/
def Allocator.block (a : Allocator) : Nat := a.window.range.start.val.toNat / 2 ^ 48

/-- The range does not leave the block of number `b`. -/
structure Interval.InBlock (r : Interval) (b : Nat) : Prop where
  start_le : b * 2 ^ 48 ≤ r.start.val.toNat
  stop_le : r.stop.val.toNat ≤ (b + 1) * 2 ^ 48

/-- The books balance: `loose` are the frames that clients own or that are on their way to an area,
and `chains` are the areas of the registry with their frames. -/
structure World (a : Allocator) (p : Pool) (r : Registry) (loose : List PageFrame)
    (chains : List (List Holding)) : Prop where
  pool : p.Sound
  tables : Tables.Sound p a.root
  registry : r.Sound
  /-- the window does not reach into the next block -/
  oneBlock : a.window.range.stop.val.toNat ≤ (a.block + 1) * 2 ^ 48
  inside : ∀ area ∈ r.areas, a.block * 2 ^ 48 ≤ area.address.val.toNat ∧
    area.stop ≤ (a.block + 1) * 2 ^ 48
  listed : r.areas.Perm (areasOf chains)
  chained : ∀ c ∈ chains, Chained p c
  /-- no frame has two owners -/
  nodup : (owned loose chains).Nodup
  taken : ∀ f, p.isTaken f = true ↔ f ∈ owned loose chains ∨ IsTable p a.root f
  apart : ∀ f ∈ owned loose chains, ¬ IsTable p a.root f
  /-- what is mapped belongs to an area -/
  covered : ∀ n < 512 ^ 4, leafOn p a.root n ≠ .empty → ∃ area ∈ r.areas, area.Covers n

section

variable {a : Allocator} {p q : Pool} {r : Registry} {loose loose' : List PageFrame}
  {chains chains' : List (List Holding)} {chain rest : List Holding} {h : Holding} {f : PageFrame}
  {area : Area} {n : Nat}

@[simp] theorem heldBy_cons (chain : List Holding) (chains : List (List Holding)) :
    heldBy (chain :: chains) = chain.flatMap Holding.frames ++ heldBy chains := by
  simp [heldBy]

@[simp] theorem areasOf_cons (chain : List Holding) (chains : List (List Holding)) :
    areasOf (chain :: chains) = chain.map Holding.area ++ areasOf chains := by
  simp [areasOf]

theorem mem_areasOf : area ∈ areasOf chains ↔ ∃ c ∈ chains, ∃ h ∈ c, h.area = area := by
  simp only [areasOf, List.mem_map, List.mem_flatten]
  constructor
  · rintro ⟨h, ⟨c, hc, hh⟩, rfl⟩
    exact ⟨c, hc, h, hh, rfl⟩
  · rintro ⟨c, hc, h, hh, rfl⟩
    exact ⟨h, ⟨c, hc, hh⟩, rfl⟩

theorem owned_perm (hl : loose.Perm loose') (hc : chains.Perm chains') :
    (owned loose chains).Perm (owned loose' chains') :=
  hl.append (hc.flatten.flatMap_right _)

theorem mem_owned_cons (hf : f ∈ owned loose chains) : f ∈ owned loose (rest :: chains) := by
  rcases List.mem_append.1 hf with hf | hf
  · exact List.mem_append_left _ hf
  · exact List.mem_append_right _ (by simp [hf])

theorem mem_owned_append (frames : List PageFrame) (hf : f ∈ owned loose chains) :
    f ∈ owned (frames ++ loose) chains := by
  rw [owned, List.append_assoc]
  exact List.mem_append_right _ hf

namespace World

variable (hw : World a p r loose chains)

include hw

/-- The same areas and the same frames can be listed in another way. -/
theorem relist (hareas : (areasOf chains).Perm (areasOf chains'))
    (howned : (owned loose chains).Perm (owned loose' chains'))
    (hchained : ∀ c ∈ chains', Chained p c) : World a p r loose' chains' where
  pool := hw.pool
  tables := hw.tables
  registry := hw.registry
  oneBlock := hw.oneBlock
  inside := hw.inside
  listed := hw.listed.trans hareas
  chained := hchained
  nodup := howned.nodup_iff.1 hw.nodup
  taken f := by rw [hw.taken, howned.mem_iff]
  apart f h := hw.apart f (howned.mem_iff.2 h)
  covered := hw.covered

/-- The order in which things are listed does not matter. -/
theorem perm (hl : loose.Perm loose') (hc : chains.Perm chains') : World a p r loose' chains' :=
  hw.relist (hc.flatten.map _) (owned_perm hl hc) fun c h => hw.chained c (hc.mem_iff.2 h)

theorem mem_areas (hc : chain ∈ chains) (hh : h ∈ chain) : h.area ∈ r.areas :=
  hw.listed.mem_iff.2 (mem_areasOf.2 ⟨chain, hc, h, hh, rfl⟩)

theorem within (harea : area ∈ r.areas) : area.Within a.block where
  aligned := hw.registry.aligned area harea
  whole := hw.registry.pages area harea
  twoPages := hw.registry.twoPages area harea
  start_le := (hw.inside area harea).1
  stop_le := (hw.inside area harea).2
  bounded := hw.registry.bounded area harea

theorem window : a.window.range.InBlock a.block := ⟨Nat.div_mul_le_self _ _, hw.oneBlock⟩

theorem isTaken (hf : f ∈ owned loose chains) : p.isTaken f = true := (hw.taken f).2 (Or.inl hf)

/-- Two areas have no page in common. -/
theorem not_covers {area' : Area} (harea : area ∈ r.areas) (harea' : area' ∈ r.areas)
    (hne : area ≠ area') (hn : area.Covers n) : ¬ area'.Covers n :=
  (hw.within harea).not_covers (hw.within harea')
    (hw.registry.before_or_before harea harea' hne) hn

/-- Frames change hands, and frames outside the tree are written. -/
theorem transfer (hq : q.Sound) (hpage : ∀ f, IsTable p a.root f → q.page f = p.page f)
    (hchained : ∀ c ∈ chains, Chained q c) (hnodup : (owned loose' chains).Nodup)
    (htaken : ∀ f, q.isTaken f = true ↔ f ∈ owned loose' chains ∨ IsTable p a.root f)
    (hapart : ∀ f ∈ owned loose' chains, ¬ IsTable p a.root f) : World a q r loose' chains := by
  have hsame : ∀ n < 512 ^ 4, ∀ l, tableOn q a.root n l = tableOn p a.root n l :=
    fun n hn l => tableOn_eq_of_page hpage hn l
  exact {
    pool := hq
    tables := hw.tables.of_page hpage fun f hf => (htaken f).2 (Or.inr hf)
    registry := hw.registry
    oneBlock := hw.oneBlock
    inside := hw.inside
    listed := hw.listed
    chained := hchained
    nodup := hnodup
    taken := fun f => by rw [htaken, isTable_congr hsame]
    apart := fun f hf => by
      rw [isTable_congr hsame]
      exact hapart f hf
    covered := fun n hn => by
      rw [leafOn_eq_of_page hpage hn]
      exact hw.covered n hn }

/-- Chains stand as long as nothing is written to the frames that are owned. -/
theorem chained_of_page (hpage : ∀ f ∈ owned loose chains, q.page f = p.page f) :
    ∀ c ∈ chains, Chained q c := by
  intro c hc
  refine (hw.chained c hc).congr fun g hg => hpage g (List.mem_append_right _ ?_)
  obtain ⟨h, hh, hg⟩ := List.mem_flatMap.1 hg
  exact List.mem_flatMap.2 ⟨h, List.mem_flatten.2 ⟨c, hc, List.mem_of_mem_tail hh⟩, hg⟩

/-- A frame is handed out. -/
theorem hand (hq : p.Handed f q) : World a q r (f :: loose) chains := by
  have hnot : f ∉ owned loose chains ∧ ¬ IsTable p a.root f := by
    rw [← not_or, ← hw.taken, hq.fresh]
    exact Bool.false_ne_true
  refine hw.transfer hq.sound (fun g hg => hq.page_eq (hw.tables.taken g hg))
    (hw.chained_of_page fun g hg => hq.page_eq (hw.isTaken hg)) ?_ ?_ ?_
  · exact List.nodup_cons.2 ⟨hnot.1, hw.nodup⟩
  · intro g
    rw [hq.taken, owned, List.cons_append, List.mem_cons]
    split
    next hgf => simp [hgf]
    next hgf =>
      rw [hw.taken]
      simp [hgf, owned]
  · intro g hg
    rcases List.mem_cons.1 hg with rfl | hg
    · exact hnot.2
    · exact hw.apart g hg

/-- The tree grows, and only pages of areas are mapped. -/
theorem grow (hq : Grown a.root p q) (hleaf : ∀ n < 512 ^ 4, leafOn q a.root n ≠ .empty →
    leafOn p a.root n ≠ .empty ∨ ∃ area ∈ r.areas, area.Covers n) : World a q r loose chains where
  pool := hq.sound
  tables := hq.intact hw.tables
  registry := hw.registry
  oneBlock := hw.oneBlock
  inside := hw.inside
  listed := hw.listed
  chained := hw.chained_of_page fun f hf => hq.page f (hw.isTaken hf) (hw.apart f hf)
  nodup := hw.nodup
  taken f := by
    rw [hq.taken, hw.taken, or_assoc, or_iff_right_of_imp (hq.isTable (f := f))]
  apart f hf htable := by
    rcases hq.fresh f htable with h | h
    · exact hw.apart f hf h
    · rw [hw.isTaken hf] at h
      cases h
  covered n hn hne := (hleaf n hn hne).elim (hw.covered n hn) id

/-- A new area owns nothing, and none of its pages is mapped. -/
theorem insert {size : UInt64} {kind : AreaKind} {window : Interval}
    (hwindow : window.InBlock a.block) (hfits : r.Fits size kind window area) :
    World a p (r.insert area) loose ([⟨area, []⟩] :: chains) where
  pool := hw.pool
  tables := hw.tables
  registry := hfits.sound
  oneBlock := hw.oneBlock
  inside b hb := by
    rcases Registry.mem_insert.1 hb with rfl | hb
    · exact ⟨hwindow.start_le.trans hfits.start_le, hfits.stop_le.trans hwindow.stop_le⟩
    · exact hw.inside b hb
  listed := (Registry.insertSorted_perm area r.areas).trans (by simpa using hw.listed)
  chained c hc := by
    rcases List.mem_cons.1 hc with rfl | hc
    · rw [hfits.fresh]
      exact ⟨rfl, rfl, rfl, trivial⟩
    · exact hw.chained c hc
  nodup := by simpa [owned] using hw.nodup
  taken f := by simpa [owned] using hw.taken f
  apart f hf := hw.apart f (by simpa [owned] using hf)
  covered n hn hne := by
    obtain ⟨b, hb, hcovers⟩ := hw.covered n hn hne
    exact ⟨b, Registry.mem_insert.2 (Or.inr hb), hcovers⟩

end World

/-- A chain without holdings says nothing. -/
theorem World.drop_nil : World a p r loose ([] :: chains) ↔ World a p r loose chains := by
  have hareas : areasOf ([] :: chains) = areasOf chains := by simp
  have howned : owned loose ([] :: chains) = owned loose chains := by simp [owned]
  constructor
  · intro hw
    exact hw.relist (hareas ▸ List.Perm.refl _) (howned ▸ List.Perm.refl _) fun c hc =>
      hw.chained c (List.mem_cons_of_mem _ hc)
  · intro hw
    refine hw.relist (hareas ▸ List.Perm.refl _) (howned ▸ List.Perm.refl _) fun c hc => ?_
    rcases List.mem_cons.1 hc with rfl | hc
    · exact trivial
    · exact hw.chained c hc

/-- A loose frame is taken back. -/
theorem World.giveBack (hw : World a p r (f :: loose) chains) (hq : p.Returned f q) :
    World a q r loose chains := by
  have hnot : f ∉ owned loose chains := (List.nodup_cons.1 hw.nodup).1
  refine hw.transfer hq.sound (fun g _ => hq.page g) (hw.chained_of_page fun g _ => hq.page g)
    (List.nodup_cons.1 hw.nodup).2 ?_ fun g hg => hw.apart g (List.mem_cons_of_mem f hg)
  intro g
  rw [hq.taken]
  split
  next hgf =>
    have htable := hw.apart f List.mem_cons_self
    rw [hgf]
    simp [hnot, htable]
  next hgf =>
    rw [hw.taken]
    simp [owned, hgf]

/-- The frames of the first holding, and all others. -/
theorem owned_cons_perm (h : Holding) (rest : List Holding) :
    (owned loose ((h :: rest) :: chains)).Perm (h.frames ++ owned loose (rest :: chains)) := by
  have hlist : owned loose ((h :: rest) :: chains) =
      loose ++ (h.frames ++ (rest.flatMap Holding.frames ++ heldBy chains)) := by
    simp [owned]
  rw [hlist, owned, heldBy_cons]
  exact List.perm_append_comm_assoc loose h.frames _

/-- The frames of the first chain, and all others. -/
theorem owned_chain_perm : (owned loose (chain :: chains)).Perm
    (chain.flatMap Holding.frames ++ owned loose chains) := by
  rw [owned, heldBy_cons, owned, ← List.append_assoc, ← List.append_assoc]
  exact List.perm_append_comm.append_right _

theorem World.disjoint (hw : World a p r loose ((h :: rest) :: chains)) :
    h.frames.Disjoint (owned loose (rest :: chains)) :=
  (List.nodup_append'.1 ((owned_cons_perm h rest).nodup_iff.1 hw.nodup)).2.2

/-- The frames of the first holding of a chain are written. -/
theorem World.write (hw : World a p r loose ((h :: rest) :: chains)) (hq : p.Wrote h.frames q) :
    World a q r loose ((h :: rest) :: chains) := by
  have hmem : ∀ f ∈ h.frames, f ∈ owned loose ((h :: rest) :: chains) := fun f hf =>
    (owned_cons_perm h rest).mem_iff.2 (List.mem_append_left _ hf)
  have hpage : ∀ f ∈ owned loose (rest :: chains), q.page f = p.page f := fun f hf =>
    hq.page f fun hmine => hw.disjoint hmine hf
  -- the frames of a holding are neither tables nor the place of any array that is on the books
  refine hw.transfer hq.sound ?_ ?_ hw.nodup (fun f => by rw [hq.taken, hw.taken]) hw.apart
  · intro f hf
    exact hq.page f fun hmine => hw.apart f (hmem f hmine) hf
  · intro c hc
    refine (hw.chained c hc).congr fun f hf => hpage f (List.mem_append_right _ ?_)
    rw [heldBy_cons]
    rcases List.mem_cons.1 hc with rfl | hc
    · exact List.mem_append_left _ hf
    · obtain ⟨x, hx, hf⟩ := List.mem_flatMap.1 hf
      exact List.mem_append_right _
        (List.mem_flatMap.2 ⟨x, List.mem_flatten.2 ⟨c, hc, List.mem_of_mem_tail hx⟩, hf⟩)

/-- Areas that are listed one by one start at different addresses. -/
theorem Registry.Sound.address_ne (hr : r.Sound) {areas : List Area}
    (hperm : r.areas.Perm (area :: areas)) : ∀ b ∈ areas, b.address ≠ area.address := by
  have hpair : r.areas.Pairwise (·.address ≠ ·.address) := hr.increasing.imp fun {b c} hlt he => by
    rw [he] at hlt
    exact absurd hlt (UInt64.lt_irrefl _)
  have hlist := (hperm.pairwise_iff fun {b c} hne => Ne.symm hne).1 hpair
  exact fun b hb => ((List.pairwise_cons.1 hlist).1 b hb).symm

/-- The first area of a chain is removed, and its frames are loose. -/
theorem World.erase (hw : World a p r loose ((h :: rest) :: chains))
    (hleaf : ∀ n < 512 ^ 4, h.area.Covers n → leafOn p a.root n = .empty) :
    World a p (r.erase h.area.address) (h.frames ++ loose) (rest :: chains) := by
  have hperm : r.areas.Perm (h.area :: areasOf (rest :: chains)) := by simpa using hw.listed
  have hlist : (owned loose ((h :: rest) :: chains)).Perm
      (owned (h.frames ++ loose) (rest :: chains)) := by
    have hassoc : owned (h.frames ++ loose) (rest :: chains) =
        h.frames ++ owned loose (rest :: chains) := List.append_assoc _ _ _
    rw [hassoc]
    exact owned_cons_perm h rest
  exact {
    pool := hw.pool
    tables := hw.tables
    registry := Registry.sound_erase hw.registry _
    oneBlock := hw.oneBlock
    inside := fun b hb => hw.inside b (Registry.mem_erase.1 hb).1
    listed := by
      -- no other area starts at the address, so that one area goes
      have hkeep := hperm.filter (·.address != h.area.address)
      have hothers : (areasOf (rest :: chains)).filter (·.address != h.area.address) =
          areasOf (rest :: chains) :=
        List.filter_eq_self.2 fun b hb => bne_iff_ne.2 (hw.registry.address_ne hperm b hb)
      rw [List.filter_cons_of_neg (by simp), hothers] at hkeep
      exact hkeep
    chained := by
      intro c hc
      rcases List.mem_cons.1 hc with rfl | hc
      · exact (hw.chained _ List.mem_cons_self).2.2.2
      · exact hw.chained c (List.mem_cons_of_mem _ hc)
    nodup := hlist.nodup_iff.1 hw.nodup
    taken := fun f => by rw [hw.taken, hlist.mem_iff]
    apart := fun f hf => hw.apart f (hlist.mem_iff.2 hf)
    covered := by
      intro n hn hne
      obtain ⟨b, hb, hcovers⟩ := hw.covered n hn hne
      refine ⟨b, Registry.mem_erase.2 ⟨hb, ?_⟩, hcovers⟩
      intro he
      have hmem : h.area ∈ r.areas := hperm.mem_iff.2 List.mem_cons_self
      obtain rfl := hw.registry.eq_of_address_eq hb hmem he
      exact hne (hleaf n hn hcovers) }

/-! ### Changes of areas -/

/-- The change keeps an area where it is. -/
def Area.Unmoved (change : Area → Area) : Prop :=
  ∀ b : Area, (change b).address = b.address ∧ (change b).size = b.size

variable {change : Area → Area} {x : VirtAddr}

theorem Registry.mem_modify (hchange : Area.Unmoved change) {b : Area}
    (hb : b ∈ (r.modify x change).areas) :
    ∃ c ∈ r.areas, b.address = c.address ∧ b.size = c.size := by
  obtain ⟨c, hc, rfl⟩ := List.mem_map.1 hb
  refine ⟨c, hc, ?_⟩
  split
  · exact hchange c
  · exact ⟨rfl, rfl⟩

theorem Registry.Sound.modify (hr : r.Sound) (hchange : Area.Unmoved change) :
    (r.modify x change).Sound := by
  have hsame : ∀ c : Area, (if c.address == x then change c else c).address = c.address ∧
      (if c.address == x then change c else c).size = c.size := by
    intro c
    split
    · exact hchange c
    · exact ⟨rfl, rfl⟩
  refine ⟨?_, ?_, ?_, ?_, ?_⟩
  · refine List.pairwise_map.2 (hr.apart.imp fun {b c} hbc => ?_)
    obtain ⟨hb, hb'⟩ := hsame b
    rw [Before, Span.stop, hb, hb', (hsame c).1]
    exact hbc
  · intro b hb
    obtain ⟨c, hc, haddress, -⟩ := mem_modify hchange hb
    exact haddress ▸ hr.aligned c hc
  · intro b hb
    obtain ⟨c, hc, -, hsize⟩ := mem_modify hchange hb
    exact hsize ▸ hr.pages c hc
  · intro b hb
    obtain ⟨c, hc, -, hsize⟩ := mem_modify hchange hb
    exact hsize ▸ hr.twoPages c hc
  · intro b hb
    obtain ⟨c, hc, haddress, hsize⟩ := mem_modify hchange hb
    rw [Span.stop, haddress, hsize]
    exact hr.bounded c hc

/-- Loose frames go to an area that had none. What the area says of itself changes with that, but
not where it lies. -/
theorem World.modify {frames : List PageFrame}
    (hw : World a p r (frames ++ loose) ([⟨area, []⟩] :: rest :: chains))
    (hchange : Area.Unmoved change) (hchained : Chained p (⟨change area, frames⟩ :: rest)) :
    World a p (r.modify area.address change) loose ((⟨change area, frames⟩ :: rest) :: chains) := by
  have hperm : r.areas.Perm (area :: areasOf (rest :: chains)) := by simpa using hw.listed
  have hlist : (owned (frames ++ loose) ([⟨area, []⟩] :: rest :: chains)).Perm
      (owned loose ((⟨change area, frames⟩ :: rest) :: chains)) := by
    refine List.Perm.trans ?_ (owned_cons_perm (⟨change area, frames⟩ : Holding) rest).symm
    simp [owned]
  exact {
    pool := hw.pool
    tables := hw.tables
    registry := hw.registry.modify hchange
    oneBlock := hw.oneBlock
    inside := by
      intro b hb
      obtain ⟨c, hc, haddress, hsize⟩ := Registry.mem_modify hchange hb
      rw [Span.stop, haddress, hsize]
      exact hw.inside c hc
    listed := by
      -- likewise, one area is changed
      have hmap := hperm.map fun b => if b.address == area.address then change b else b
      have hothers : (areasOf (rest :: chains)).map
          (fun b => if b.address == area.address then change b else b) =
          areasOf (rest :: chains) := by
        refine (List.map_congr_left fun b hb => ?_).trans (List.map_id _)
        have hne := hw.registry.address_ne hperm b hb
        rw [if_neg fun he => hne (eq_of_beq he), id]
      have hareas : areasOf ((⟨change area, frames⟩ :: rest) :: chains) =
          change area :: areasOf (rest :: chains) := by simp
      rw [List.map_cons, hothers, if_pos (beq_self_eq_true _)] at hmap
      rw [hareas]
      exact hmap
    chained := by
      intro c hc
      rcases List.mem_cons.1 hc with rfl | hc
      · exact hchained
      · exact hw.chained c (List.mem_cons_of_mem _ (List.mem_cons_of_mem _ hc))
    nodup := hlist.nodup_iff.1 hw.nodup
    taken := fun f => by rw [hw.taken, hlist.mem_iff]
    apart := fun f hf => hw.apart f (hlist.mem_iff.2 hf)
    covered := by
      intro n hn hne
      obtain ⟨b, hb, hcovers⟩ := hw.covered n hn hne
      refine ⟨_, List.mem_map_of_mem hb, ?_⟩
      split
      · rw [Span.Covers, Span.firstPage, Span.pages, (hchange b).1, (hchange b).2]
        exact hcovers
      · exact hcovers }

/-! ## What a step leaves alone -/

/-- The pool stays where it is, no table is lost, and the leaves of the pages in `P` and the content
of the frames in `F` stay. -/
structure Keeps (root : PageFrame) (P : Nat → Prop) (F : PageFrame → Prop) (p q : Pool) :
    Prop where
  base : q.base = p.base
  size : q.slots.size = p.slots.size
  tables : ∀ n < 512 ^ 4, ∀ l t, tableOn p root n l = some t → tableOn q root n l = some t
  leaf : ∀ n < 512 ^ 4, P n → leafOn q root n = leafOn p root n
  page : ∀ f, F f → q.page f = p.page f

namespace Keeps

variable {root : PageFrame} {P P' : Nat → Prop} {F F' : PageFrame → Prop} {u : Pool}

theorem refl : Keeps root P F p p where
  base := rfl
  size := rfl
  tables _ _ _ _ h := h
  leaf _ _ _ := rfl
  page _ _ := rfl

theorem trans (hpq : Keeps root P F p q) (hqu : Keeps root P F q u) : Keeps root P F p u where
  base := hqu.base.trans hpq.base
  size := hqu.size.trans hpq.size
  tables n hn l t h := hqu.tables n hn l t (hpq.tables n hn l t h)
  leaf n hn h := (hqu.leaf n hn h).trans (hpq.leaf n hn h)
  page f h := (hqu.page f h).trans (hpq.page f h)

theorem mono (h : Keeps root P F p q) (hP : ∀ n, P' n → P n) (hF : ∀ f, F' f → F f) :
    Keeps root P' F' p q where
  base := h.base
  size := h.size
  tables := h.tables
  leaf n hn hn' := h.leaf n hn (hP n hn')
  page f hf := h.page f (hF f hf)

theorem isTable {f : PageFrame} (h : Keeps root P F p q) (hf : IsTable p root f) :
    IsTable q root f := by
  obtain ⟨n, hn, l, hon⟩ := hf
  exact ⟨n, hn, l, h.tables n hn l f hon⟩

/-- Writing outside the tree leaves the tree alone. -/
theorem of_page (hbase : q.base = p.base) (hsize : q.slots.size = p.slots.size)
    (hpage : ∀ f, IsTable p root f → q.page f = p.page f)
    (hF : ∀ f, F f → q.page f = p.page f) : Keeps root P F p q where
  base := hbase
  size := hsize
  tables _ hn l _ h := (tableOn_eq_of_page hpage hn l).trans h
  leaf _ hn _ := leafOn_eq_of_page hpage hn
  page := hF

end Keeps

/-- A page of some area of the chains. -/
def CoveredBy (chains : List (List Holding)) (n : Nat) : Prop :=
  ∃ area ∈ areasOf chains, area.Covers n

/-- A walk leaves alone what it does not map, and all that is owned. -/
theorem World.keeps_of_grown {P : Nat → Prop} (hw : World a p r loose chains)
    (hq : Grown a.root p q) (hleaf : ∀ n < 512 ^ 4, P n → leafOn q a.root n = leafOn p a.root n) :
    Keeps a.root P (· ∈ owned loose chains) p q where
  base := hq.base
  size := hq.size
  tables := hq.kept
  leaf := hleaf
  page f hf := hq.page f (hw.isTaken hf) (hw.apart f hf)

/-- The leaves of an area show its frames, one for each page. -/
structure Backed (p : Pool) (root : PageFrame) (h : Holding) : Prop where
  count : h.frames.length = h.area.pages
  leaf : ∀ i f, h.frames[i]? = some f →
    (leafOn p root (h.area.firstPage + i)).has .present = true ∧
      (leafOn p root (h.area.firstPage + i)).frame = f

/-- The addresses of an area are mapped to the frames that back it. -/
theorem Backed.target {root : PageFrame} {b i : Nat} {x : VirtAddr} (hb : Backed p root h)
    (harea : h.area.Within b) (hf : h.frames[i]? = some f)
    (hlow : h.area.address.val.toNat + i * 4096 ≤ x.val.toNat)
    (hhigh : x.val.toNat < h.area.address.val.toNat + (i + 1) * 4096) :
    target p root x = some (f.byteFor x) := by
  have hi : i < h.area.pages := by
    obtain ⟨hi, -⟩ := List.getElem?_eq_some_iff.1 hf
    exact hb.count ▸ hi
  obtain ⟨hpresent, hframe⟩ := hb.leaf i f hf
  rw [Tables.target, harea.pageNumber_eq hi hlow hhigh]
  simp only [hpresent, hframe, if_true]

end

end PagedMemory
