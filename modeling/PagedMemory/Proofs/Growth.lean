import Mathlib.Tactic
import PagedMemory.Proofs.Tree

/-!
# Trees that grow

Walks change the leaves of some pages. Besides, all they do to a tree is to add tables, each of
them in a frame that was not in use. Entries need not be as they should for that.

* `Tables.Grown`: what a walk keeps. It is transitive, and so are the walks' own specifications.
* `Tables.Remapped`: what a walk over consecutive pages does to the leaves.
* `Tables.lacking`: how many tables some pages lack; `Tables.Paid`: the supply of frames has gone
  down by as many as there are new tables.
* `childOrCreate_runs`: the table behind an entry, an old one or a new one.
-/

namespace PagedMemory

namespace Tables

variable {p q u : Pool} {root t f : PageFrame} {l below : Level} {n lo mid hi : Nat} {e : Entry}

/-- The tree of `q` is that of `p`, but for leaves and new tables; only the new tables' frames
have changed hands, and only tables were written. -/
structure Grown (root : PageFrame) (p q : Pool) : Prop where
  sound : q.Sound
  base : q.base = p.base
  size : q.slots.size = p.slots.size
  tables : Held q root
  /-- what entries say is as it has to be, if it was so before -/
  intact : Sound p root → Sound q root
  /-- no table is lost -/
  kept : ∀ n < 512 ^ 4, ∀ l t, tableOn p root n l = some t → tableOn q root n l = some t
  taken : ∀ f, q.isTaken f = true ↔ p.isTaken f = true ∨ IsTable q root f
  /-- new tables are in frames that were free -/
  fresh : ∀ f, IsTable q root f → IsTable p root f ∨ p.isTaken f = false
  page : ∀ f, p.isTaken f = true → ¬ IsTable p root f → q.page f = p.page f

theorem Grown.isTable (h : Grown root p q) (hf : IsTable p root f) : IsTable q root f := by
  obtain ⟨n, hn, l, ht⟩ := hf
  exact ⟨n, hn, l, h.kept n hn l f ht⟩

theorem Grown.trans (hpq : Grown root p q) (hqu : Grown root q u) : Grown root p u where
  sound := hqu.sound
  base := hqu.base.trans hpq.base
  size := hqu.size.trans hpq.size
  tables := hqu.tables
  intact hp := hqu.intact (hpq.intact hp)
  kept n hn l t ht := hqu.kept n hn l t (hpq.kept n hn l t ht)
  taken f := by
    rw [hqu.taken, hpq.taken, or_assoc, or_iff_right_of_imp (hqu.isTable (f := f))]
  fresh f hf := by
    rcases hqu.fresh f hf with hq | hq
    · exact hpq.fresh f hq
    · right
      by_contra htaken
      rw [(hpq.taken f).2 (Or.inl (Bool.eq_true_of_not_eq_false htaken))] at hq
      cases hq
  page f hf htable := by
    have hq : ¬ IsTable q root f := by
      intro hq
      rcases hpq.fresh f hq with h | h
      · exact htable h
      · rw [hf] at h
        cases h
    rw [hqu.page f ((hpq.taken f).2 (Or.inl hf)) hq, hpq.page f hf htable]

/-- A tree with the same tables has grown, whatever became of its leaves. -/
theorem Grown.of_tables (hp : Held p root) (hq : q.Sound) (hs : Held q root)
    (hintact : Sound p root → Sound q root)
    (hbase : q.base = p.base) (hsize : q.slots.size = p.slots.size)
    (htaken : ∀ f, q.isTaken f = p.isTaken f)
    (hsame : ∀ n < 512 ^ 4, ∀ l, tableOn q root n l = tableOn p root n l)
    (hpage : ∀ f, ¬ IsTable p root f → q.page f = p.page f) : Grown root p q where
  sound := hq
  base := hbase
  size := hsize
  tables := hs
  intact := hintact
  kept n hn l t ht := (hsame n hn l).trans ht
  taken f := by
    rw [htaken, isTable_congr hsame]
    exact (or_iff_left_of_imp (hp.taken f)).symm
  fresh f hf := Or.inl ((isTable_congr hsame).1 hf)
  page f _ hf := hpage f hf

theorem Grown.refl (hp : p.Sound) (ht : Held p root) : Grown root p p :=
  .of_tables ht hp ht id rfl rfl (fun _ => rfl) (fun _ _ _ => rfl) fun _ _ => rfl

/-- A store to a lowest table leaves all tables where they are. -/
theorem Grown.of_store (hp : p.Sound) (hs : Held p root) (hn : n < 512 ^ 4)
    (ht : tableOn p root n .pt = some t) (he : e = .empty ∨ e.has .present = true) :
    Grown root p (p.withEntry t (Level.pt.slot n) e) := by
  refine .of_tables hs hp.rewrite (hs.store hn ht nofun) (fun hs => hs.store hn ht he)
    Pool.rewrite_base Pool.rewrite_size (fun _ => Pool.isTaken_rewrite)
    (fun k hk l => hs.formed.tableOn_store hn ht nofun hk l) fun f hf => Pool.page_rewrite_of_ne ?_
  rintro rfl
  exact hf ⟨n, hn, .pt, ht⟩

/-- Memory in which nothing changed hands and nothing was written. -/
theorem Grown.of_alike (hp : Held p root) (h : p.Alike q) : Grown root p q :=
  .of_tables hp h.sound
    (hp.of_page (fun f _ => h.page_eq f) fun f hf => (h.taken f).trans (hp.taken f hf))
    (fun hs => hs.of_page (fun f _ => h.page_eq f) fun f hf => (h.taken f).trans (hp.taken f hf))
    h.base h.size h.taken (fun _ hn l => tableOn_eq_of_page (fun f _ => h.page_eq f) hn l)
    fun f _ => h.page_eq f

/-! ## Leaves of consecutive pages -/

/-- The pages from `lo` up to `hi` are mapped as `g` says, and no others have changed. -/
structure Remapped (root : PageFrame) (lo hi : Nat) (g : Nat → Entry) (p q : Pool) : Prop
    extends Grown root p q where
  leaf : ∀ n < 512 ^ 4, leafOn q root n = if lo ≤ n ∧ n < hi then g n else leafOn p root n

/-! ## The price of tables -/

/-- The tables of level `l` that the pages of `S` lack, each known by its number in the level. -/
def missing (p : Pool) (root : PageFrame) (S : Finset Nat) (l : Level) : Finset Nat :=
  (S.filter fun n => tableOn p root n l = none).image l.group

/-- How many tables the pages of `S` lack. -/
def lacking (p : Pool) (root : PageFrame) (S : Finset Nat) : Nat :=
  (missing p root S .pdpt).card + (missing p root S .pd).card + (missing p root S .pt).card

variable {S : Finset Nat}

theorem lacking_congr (hS : ∀ n ∈ S, n < 512 ^ 4)
    (h : ∀ n < 512 ^ 4, ∀ l, tableOn q root n l = tableOn p root n l) :
    lacking q root S = lacking p root S := by
  have hmissing : ∀ l, missing q root S l = missing p root S l := fun l => by
    rw [missing, missing]
    congr 1
    exact Finset.filter_congr fun n hn => by rw [h n (hS n hn)]
  rw [lacking, lacking, hmissing, hmissing, hmissing]

/-- A page that lacks a table of its own counts. -/
theorem lacking_pos (hn : n ∈ S) (h : tableOn p root n l = none) : 0 < lacking p root S := by
  have hmem : l.group n ∈ missing p root S l :=
    Finset.mem_image_of_mem _ (Finset.mem_filter.2 ⟨hn, h⟩)
  have hpos := Finset.card_pos.2 ⟨_, hmem⟩
  cases l with
  | pml4 => cases h
  | pdpt => rw [lacking]; omega
  | pd => rw [lacking]; omega
  | pt => rw [lacking]; omega

/-- Pages that have all their tables lack none. -/
theorem lacking_eq_zero (h : ∀ n ∈ S, tableOn p root n .pt ≠ none) : lacking p root S = 0 := by
  have hempty : ∀ l, missing p root S l = ∅ := by
    intro l
    rw [missing, Finset.image_eq_empty, Finset.filter_eq_empty_iff]
    intro n hn hnone
    exact h n hn (tableOn_eq_none_of_le hnone (Nat.zero_le _))
  rw [lacking, hempty, hempty, hempty]
  rfl

/-- A new table for some page of `S` makes up for one that was missing. -/
theorem lacking_link (hS : ∀ n ∈ S, n < 512 ^ 4) (hn : n ∈ S) (hbelow : l.next? = some below)
    (hnone : tableOn p root n below = none)
    (h : ∀ k < 512 ^ 4, ∀ l', tableOn q root k l' =
      if l' = below ∧ below.group k = below.group n then some f else tableOn p root k l') :
    lacking p root S = lacking q root S + 1 := by
  have hother : ∀ l', l' ≠ below → missing q root S l' = missing p root S l' := by
    intro l' hl'
    rw [missing, missing]
    congr 1
    refine Finset.filter_congr fun k hk => ?_
    rw [h k (hS k hk), if_neg fun hnew => hl' hnew.1]
  have hgroup : below.group n ∈ missing p root S below :=
    Finset.mem_image_of_mem _ (Finset.mem_filter.2 ⟨hn, hnone⟩)
  have hnew : missing q root S below = (missing p root S below).erase (below.group n) := by
    ext g
    simp only [missing, Finset.mem_erase, Finset.mem_image, Finset.mem_filter]
    constructor
    · rintro ⟨k, ⟨hk, hkq⟩, rfl⟩
      rw [h k (hS k hk)] at hkq
      split at hkq
      next => cases hkq
      next hmiss => exact ⟨fun hg => hmiss ⟨rfl, hg⟩, k, ⟨hk, hkq⟩, rfl⟩
    · rintro ⟨hg, k, ⟨hk, hkp⟩, rfl⟩
      refine ⟨k, ⟨hk, ?_⟩, rfl⟩
      rw [h k (hS k hk), if_neg fun hnew => hg hnew.2]
      exact hkp
  have hcard := Finset.card_erase_add_one hgroup
  rw [← hnew] at hcard
  cases l with
  | pt => cases hbelow
  | pml4 =>
    cases hbelow
    rw [lacking, lacking, hother .pd nofun, hother .pt nofun]
    omega
  | pdpt =>
    cases hbelow
    rw [lacking, lacking, hother .pdpt nofun, hother .pt nofun]
    omega
  | pd =>
    cases hbelow
    rw [lacking, lacking, hother .pdpt nofun, hother .pd nofun]
    omega

/-- The tree has grown, and of the tables that the pages of `S` lacked each new one has used up one
frame of the supply. -/
structure Paid (root : PageFrame) (S : Finset Nat) (p q : Pool) : Prop extends Grown root p q where
  spent : p.supply + lacking q root S = q.supply + lacking p root S

theorem Paid.trans (hpq : Paid root S p q) (hqu : Paid root S q u) : Paid root S p u where
  toGrown := hpq.toGrown.trans hqu.toGrown
  spent := by
    have hfirst := hpq.spent
    have hthen := hqu.spent
    omega

theorem Paid.refl (hp : p.Sound) (ht : Held p root) : Paid root S p p where
  toGrown := .refl hp ht
  spent := rfl

/-- A store to a lowest table costs nothing. -/
theorem Paid.of_store (hS : ∀ n ∈ S, n < 512 ^ 4) (hp : p.Sound) (hs : Held p root) (hn : n < 512 ^ 4)
    (ht : tableOn p root n .pt = some t) (he : e = .empty ∨ e.has .present = true) :
    Paid root S p (p.withEntry t (Level.pt.slot n) e) where
  toGrown := .of_store hp hs hn ht he
  spent := by
    rw [lacking_congr hS fun k hk l => hs.formed.tableOn_store hn ht nofun hk l, Pool.withEntry,
      Pool.supply_rewrite]

/-! ## New tables -/

variable {back : Backdrop}

theorem leafOn_alike (h : p.Alike q) (hn : n < 512 ^ 4) : leafOn q root n = leafOn p root n :=
  leafOn_eq_of_page (fun f _ => h.page_eq f) hn

/-- The answer is a new frame full of zeros, unless the supply is used up. -/
theorem newTable_does (hp : p.Sound) :
    Does back newTable p fun answer q =>
      match answer with
      | .ok f => p.Handed f q ∧ q.page f = Page.zero ∧ p.supply = q.supply + 1
      | .error e => p.Alike q ∧ e = .noTable ∧ p.supply = 0 ∧ q.supply = 0 := by
  have hlow : ∀ keeps : Bool,
      (if keeps then FramePolicy.kernel else FramePolicy.kernel.set .zero false).has .lowMemory =
        false := by decide
  refine Runs.bind (Machine.takeFrame_of_take fun keeps =>
    (Pool.take_ends hp _).and (Pool.take_supply hp (hlow keeps))) ?_
  rintro answer q ⟨h, hsupply⟩
  cases answer with
  | none => exact Runs.pure ⟨h, rfl, hsupply⟩
  | some f =>
    refine Runs.bind (Machine.zero_does (Pool.has_of_isTaken h.isTaken)) ?_
    rintro _ _ rfl
    obtain ⟨i, hi⟩ := Pool.has_of_isTaken h.isTaken
    exact Runs.pure ⟨h.rewrite, Pool.page_rewrite_self hi,
      hsupply.trans (congrArg (· + 1) Pool.supply_rewrite.symm)⟩

/-- A new frame is no table, and the tree is what it was. -/
theorem Held.tableOn_handed (hs : Held p root) (h : p.Handed f q) (hn : n < 512 ^ 4) (l : Level) :
    tableOn q root n l = tableOn p root n l :=
  tableOn_eq_of_page (fun g hg => h.page_eq (hs.taken g hg)) hn l

theorem Held.leafOn_handed (hs : Held p root) (h : p.Handed f q) (hn : n < 512 ^ 4) :
    leafOn q root n = leafOn p root n :=
  leafOn_eq_of_page (fun g hg => h.page_eq (hs.taken g hg)) hn

/-- Tables stay in use when a frame is handed out. -/
theorem Held.isTaken_handed (hs : Held p root) (h : p.Handed f q) {g : PageFrame}
    (hg : IsTable p root g) : q.isTaken g = true := by
  rw [h.taken]
  split
  · rfl
  · exact hs.taken g hg

theorem Held.handed (hs : Held p root) (h : p.Handed f q) : Held q root :=
  hs.of_page (fun g hg => h.page_eq (hs.taken g hg)) fun _ hg => hs.isTaken_handed h hg

theorem Sound.handed (hs : Sound p root) (h : p.Handed f q) : Sound q root :=
  hs.of_page (fun g hg => h.page_eq (hs.taken g hg)) fun _ hg => hs.held.isTaken_handed h hg

theorem Held.not_isTable_handed (hs : Held p root) (h : p.Handed f q) : ¬ IsTable q root f := by
  rw [isTable_congr fun n hn l => hs.tableOn_handed h hn l]
  intro hf
  have htaken := hs.taken f hf
  rw [h.fresh] at htaken
  cases htaken

/-- A frame handed out and put behind an entry as a table. -/
theorem Grown.of_link (hs : Held p root) (h : p.Handed f q) (hn : n < 512 ^ 4)
    (hf : Free q root n l t f) (he : e.table? = some f) (hbelow : l.next? = some below) :
    Grown root p (q.withEntry t (l.slot n) e) := by
  have hq := hs.handed h
  have hsame : ∀ k < 512 ^ 4, ∀ l, tableOn q root k l = tableOn p root k l := fun k hk l =>
    hs.tableOn_handed h hk l
  exact {
    sound := h.sound.rewrite
    base := Pool.rewrite_base.trans h.base
    size := Pool.rewrite_size.trans h.size
    tables := hq.link hn hf he hbelow
    intact := fun hsound => (hsound.handed h).link hn hf he hbelow
    kept := by
      intro k hk l' g hg
      rw [hq.formed.tableOn_link hn hf he hbelow hk, hsame k hk]
      split
      next hnew =>
        obtain ⟨rfl, hgroup⟩ := hnew
        rw [← hsame k hk, hf.tableOn_eq_none hbelow hgroup] at hg
        cases hg
      next => exact hg
    taken := by
      intro g
      rw [hq.formed.isTable_link hn hf he hbelow, isTable_congr hsame, Pool.withEntry,
        Pool.isTaken_rewrite, h.taken]
      rcases eq_or_ne g f with rfl | hgf
      · simp
      · simp only [hgf, if_false, false_or]
        exact (or_iff_left_of_imp (hs.taken g)).symm
    fresh := by
      intro g hg
      rw [hq.formed.isTable_link hn hf he hbelow, isTable_congr hsame] at hg
      rcases hg with rfl | hg
      · exact Or.inr h.fresh
      · exact Or.inl hg
    page := by
      intro g hg htable
      have hgf : g ≠ f := by
        rintro rfl
        rw [h.fresh] at hg
        cases hg
      have hgt : g ≠ t := by
        rintro rfl
        exact htable ⟨n, hn, l, (hsame n hn l).symm.trans hf.on⟩
      rw [Pool.withEntry, Pool.page_rewrite_of_ne hgt, h.page g hgf] }

/-- A frame was taken for a table, and put behind the entry for page `n`. -/
structure Linked (root : PageFrame) (n : Nat) (below : Level) (f : PageFrame) (p q : Pool) : Prop
    extends Grown root p q where
  leaf : ∀ k < 512 ^ 4, leafOn q root k = leafOn p root k
  /-- the pages behind the entry have the new table, and no others have a new one -/
  table : ∀ k < 512 ^ 4, ∀ l', tableOn q root k l' =
    if l' = below ∧ below.group k = below.group n then some f else tableOn p root k l'
  supply : p.supply = q.supply + 1

/-- A new table behind an entry that led nowhere, unless the supply is used up. -/
theorem linkNewTable_links (hp : p.Sound) (hs : Held p root) (hn : n < 512 ^ 4)
    (ht : tableOn p root n l = some t) (hbelow : l.next? = some below)
    (hnowhere : behind p n l t = none) :
    Does back (linkNewTable t (l.slot n)) p fun answer q =>
      match answer with
      | .ok f => Linked root n below f p q
      | .error e => p.Alike q ∧ e = .noTable ∧ p.supply = 0 ∧ q.supply = 0 := by
  refine Runs.bind (newTable_does hp) ?_
  intro answer q h
  cases answer with
  | error e => exact Runs.pure h
  | ok f =>
    obtain ⟨hhanded, hzero, hsupply⟩ := h
    have hq := hs.handed hhanded
    have hon : tableOn q root n l = some t := (hs.tableOn_handed hhanded hn l).trans ht
    have hft : t ≠ f := by
      rintro rfl
      exact hs.not_isTable_handed hhanded ⟨n, hn, l, hon⟩
    have hfree : Free q root n l t f := {
      on := hon
      nowhere := by
        rw [Tables.behind, Pool.entryAt, hhanded.page t hft]
        exact hnowhere
      taken := hhanded.isTaken
      notTable := hs.not_isTable_handed hhanded
      zero := hzero }
    have hnumbered := hhanded.sound.numbered_of_isTaken hhanded.isTaken
    have htable := Entry.table?_tableTo hnumbered
    refine Runs.bind_lift (Entry.table_eq hnumbered) ?_
    refine Runs.bind (setEntry_does (hq.formed.has hn hon) _ _) ?_
    rintro _ _ rfl
    refine Runs.pure {
      toGrown := .of_link hs hhanded hn hfree htable hbelow
      leaf := fun k hk => ?_
      table := fun k hk l' => ?_
      supply := ?_ }
    · rw [hq.formed.leafOn_link hn hfree htable hbelow hk, hs.leafOn_handed hhanded hk]
    · rw [hq.formed.tableOn_link hn hfree htable hbelow hk, hs.tableOn_handed hhanded hk]
    · rw [hsupply, Pool.withEntry, Pool.supply_rewrite]

/-- What asking for the table behind the entry for page `n` comes to: there is one now, or none
could be had. -/
structure Opened (root : PageFrame) (S : Finset Nat) (n : Nat) (below : Level) (p : Pool)
    (answer : Except MapError PageFrame) (q : Pool) : Prop extends Paid root S p q where
  leaf : ∀ k < 512 ^ 4, leafOn q root k = leafOn p root k
  behind : match answer with
    | .ok next => tableOn q root n below = some next
    | .error e => e = .noTable ∧ q.supply = 0 ∧ tableOn q root n below = none

/-- A new table behind an entry that led nowhere. -/
theorem linkNewTable_does (hp : p.Sound) (hs : Held p root) (hS : ∀ k ∈ S, k < 512 ^ 4) (hn : n ∈ S)
    (ht : tableOn p root n l = some t) (hbelow : l.next? = some below)
    (hnowhere : behind p n l t = none) :
    Does back (linkNewTable t (l.slot n)) p fun answer q => Opened root S n below p answer q := by
  have htop := hS n hn
  have hnone : tableOn p root n below = none := by
    rw [tableOn_next hbelow, ht, Option.bind_some, hnowhere]
  refine Runs.imp (linkNewTable_links hp hs htop ht hbelow hnowhere) ?_
  intro answer q h
  cases answer with
  | error e =>
    obtain ⟨halike, rfl, hbefore, hafter⟩ := h
    have hsame : ∀ k < 512 ^ 4, ∀ l, tableOn q root k l = tableOn p root k l := fun k hk l =>
      tableOn_eq_of_page (fun f _ => halike.page_eq f) hk l
    exact {
      toGrown := .of_alike hs halike
      spent := by rw [lacking_congr hS hsame, hbefore, hafter]
      leaf := fun k hk => leafOn_alike halike hk
      behind := ⟨rfl, hafter, (hsame n htop below).trans hnone⟩ }
  | ok f =>
    have hspent := lacking_link hS hn hbelow hnone h.table
    have hsupply := h.supply
    exact {
      toGrown := h.toGrown
      spent := by omega
      leaf := h.leaf
      behind := (h.table n htop below).trans (if_pos ⟨rfl, rfl⟩) }

variable {front : Front} {es : List Event} {E : Fault → Pool × List Event → Prop}

/-- The table behind an entry of an upper table, new if there was none. Something is noted only if
the entry is malformed. -/
theorem childOrCreate_runs (hp : p.Sound) (hs : Held p root) (hS : ∀ k ∈ S, k < 512 ^ 4)
    (hn : n ∈ S) (ht : tableOn p root n l = some t) (hbelow : l.next? = some below) :
    Runs Machine.noted front (childOrCreate l t (l.slot n)) (p, es)
      (fun answer u => Opened root S n below p answer u.1 ∧ (Sound p root → u.2 = es)) E := by
  have htop := hS n hn
  have hleads : tableOn p root n below = behind p n l t := by
    rw [tableOn_next hbelow, ht, Option.bind_some]
  refine Does.bind_noted (child_does (hs.formed.has htop ht) (Level.isLeaf_of_next hbelow) _) ?_
  rintro c p ⟨rfl, rfl⟩
  cases hc : (p.entryAt t (l.slot n)).child with
  | table next =>
    refine Runs.pure ⟨⟨.refl hp hs, fun _ _ => rfl, ?_⟩, fun _ => rfl⟩
    change tableOn p root n below = some next
    rw [hleads, behind, Entry.table?, hc]
  | none =>
    refine Does.noted (Runs.imp (linkNewTable_does hp hs hS hn ht hbelow ?_) fun answer q h =>
      ⟨h, fun _ => rfl⟩)
    rw [behind, Entry.table?, hc]
  | malformed e =>
    refine Runs.bind_emit (Does.noted (Runs.imp (linkNewTable_does hp hs hS hn ht hbelow ?_)
      fun answer q h => ⟨h, fun hsound => ?_⟩))
    · rw [behind, Entry.table?, hc]
    · exact absurd hc (hsound.tidy n htop l t e (Level.isLeaf_of_next hbelow) ht)

end Tables

end PagedMemory
