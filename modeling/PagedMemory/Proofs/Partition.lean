import PagedMemory.Proofs.Stepping

/-!
# The parts of a range

The boundaries of a level cut a range into parts, each behind one entry. They are found one after the
other, each from the start of the one before, up to the end of the range or of the address space.

* `Level.spanNumber`: which stretch of addresses an address lies in, of those that single entries
  stand for. It decides the entry: `Level.index_eq_spanNumber_mod`.
* `Interval.part?`: the parts as they are found. `Interval.part?_eq`: they are `Interval.pieces`, and
  come to an end.
* `Interval.cutInduction`: a range has no part, or a first one and those of the rest.
* `Interval.Partition`: what it means that the parts are the range.
* `Interval.pieces_partition`: they are, with no entry twice as long as the range stays within one
  table, and page by page at the lowest level.
-/

namespace PagedMemory

open Layout

namespace Level

variable {l : Level} {a : VirtAddr}

/-- The number of the stretch of `l.span` addresses that `a` lies in. One entry stands for it. -/
def spanNumber (l : Level) (a : VirtAddr) : Nat := a.val.toNat / l.span.toNat

/-- How many addresses one table stands for: the root for a block of `2 ^ 48`, any other for as many
as the entry of the level above that leads to it. -/
def reach : Level → Nat
  | pml4 => 2 ^ 48
  | pdpt => pml4.span.toNat
  | pd => pdpt.span.toNat
  | pt => pd.span.toNat

theorem reach_eq (l : Level) : l.reach = l.span.toNat * 512 := by
  cases l <;> rfl

/-- The entry of an address in its table. -/
theorem index_eq_spanNumber_mod (l : Level) (a : VirtAddr) :
    (l.index a).val = l.spanNumber a % 512 := by
  rw [spanNumber, toNat_span, ← toNat_shiftRight]
  change ((a.val >>> l.shift) &&& 0x1ff).toNat = _
  rw [UInt64.toNat_and]
  exact Nat.and_two_pow_sub_one_eq_mod _ 9

theorem index_congr {b : VirtAddr} (h : l.spanNumber a = l.spanNumber b) : l.index a = l.index b := by
  apply Fin.ext
  rw [index_eq_spanNumber_mod, index_eq_spanNumber_mod, h]

end Level

namespace Interval

variable {r p : Interval} {l : Level} {a : VirtAddr}

/-! ## The parts, one after the other -/

/-- Where the part behind the one at `a` starts, if the range goes on there. -/
def nextStart? (l : Level) (stop a : VirtAddr) : Option VirtAddr :=
  (l.nextBoundary? a).filter (·.val < stop.val)

/-- Where the part of number `n` starts. -/
def start? (r : Interval) (l : Level) : Nat → Option VirtAddr
  | 0 => if r.start.val < r.stop.val then some r.start else none
  | n + 1 => (r.start? l n).bind (nextStart? l r.stop)

/-- The part of number `n`, and the entry that stands for it. -/
def part? (r : Interval) (l : Level) (n : Nat) : Option (TableIndex × Interval) :=
  (r.start? l n).map fun a => (l.index a, ⟨a, (Interval.mk a r.stop).firstStop l⟩)

/-- The second part starts where the first one stops, if that is within the range. -/
theorem nextStart?_start (r : Interval) (l : Level) :
    nextStart? l r.stop r.start =
      if (r.firstStop l).val < r.stop.val then some (r.firstStop l) else none := by
  rw [nextStart?, firstStop]
  cases l.nextBoundary? r.start with
  | none => simp
  | some b =>
    by_cases hb : b.val < r.stop.val
    · simp [hb]
    · simp only [Option.filter_some, hb, decide_false, Bool.false_eq_true, if_false, UInt64.lt_irrefl]

/-- The parts behind the first are those of the rest of the range. -/
theorem start?_succ (h : r.start.val < r.stop.val) (n : Nat) :
    r.start? l (n + 1) = (Interval.mk (r.firstStop l) r.stop).start? l n := by
  induction n with
  | zero =>
    rw [start?, start?, start?, if_pos h, Option.bind_some]
    exact nextStart?_start r l
  | succ n ih => rw [start?, ih, start?]

/-- A range has no part, or a first one and those of the rest. -/
theorem cutInduction {motive : Interval → Prop} (l : Level)
    (done : ∀ r, r.stop.val.toNat ≤ r.start.val.toNat → motive r)
    (cut : ∀ r, r.start.val.toNat < r.stop.val.toNat → motive ⟨r.firstStop l, r.stop⟩ → motive r)
    (r : Interval) : motive r := by
  induction hn : r.pieceCount l generalizing r with
  | zero =>
    apply done
    by_contra hlt
    rw [← pieceCount_firstStop r l (Nat.not_le.1 hlt)] at hn
    cases hn
  | succ n ih =>
    rcases Nat.lt_or_ge r.start.val.toNat r.stop.val.toNat with hlt | hle
    · apply cut r hlt
      apply ih
      rw [← pieceCount_firstStop r l hlt] at hn
      exact Nat.succ.inj hn
    · exact done r hle

/-- The parts that are found one after the other are the pieces of the range, and there are no
more. -/
theorem part?_eq (r : Interval) (l : Level) (n : Nat) :
    r.part? l n = ((r.pieces l)[n]?).map fun p => (l.index p.start, p) := by
  induction r using cutInduction l generalizing n with
  | done r hle =>
    have hnone : r.start? l n = none := by
      induction n with
      | zero => exact if_neg (Nat.not_lt.2 hle)
      | succ n ih => rw [start?, ih, Option.bind_none]
    rw [part?, hnone, pieces_of_le hle]
    simp
  | cut r hlt ih =>
    rw [pieces_cons hlt]
    cases n with
    | zero =>
      rw [part?, start?, if_pos (UInt64.lt_iff_toNat_lt.2 hlt)]
      rfl
    | succ n =>
      rw [part?, start?_succ (UInt64.lt_iff_toNat_lt.2 hlt), List.getElem?_cons_succ, ← ih, part?]

/-! ## What the parts are -/

theorem lt_firstStop (h : r.start.val.toNat < r.stop.val.toNat) :
    r.start.val.toNat < (r.firstStop l).val.toNat := by
  rw [toNat_firstStop]
  exact lt_min (Nat.lt_div_mul_add (Nat.two_pow_pos _)) h

/-- All addresses of the first part lie in one stretch. -/
theorem spanNumber_of_lt_firstStop (hlow : r.start.val.toNat ≤ a.val.toNat)
    (hhigh : a.val.toNat < (r.firstStop l).val.toNat) : l.spanNumber a = l.spanNumber r.start := by
  rw [toNat_firstStop, lt_min_iff] at hhigh
  rw [Level.spanNumber, Level.spanNumber, Level.toNat_span]
  apply Nat.le_antisymm
  · apply Nat.le_of_lt_succ
    rw [Nat.div_lt_iff_lt_mul (Nat.two_pow_pos _), Nat.succ_mul]
    exact hhigh.1
  · exact Nat.div_le_div_right hlow

/-- Where the range goes on behind the first part, the next stretch begins. -/
theorem spanNumber_firstStop (h : (r.firstStop l).val.toNat < r.stop.val.toNat) :
    l.spanNumber (r.firstStop l) = l.spanNumber r.start + 1 := by
  have hcut := toNat_firstStop r l
  have hboundary := (min_choice _ _).resolve_right fun hstop => Nat.ne_of_lt h (hcut.trans hstop)
  rw [hboundary, ← Nat.succ_mul] at hcut
  rw [Level.spanNumber, Level.spanNumber, Level.toNat_span, hcut]
  exact Nat.mul_div_cancel _ (Nat.two_pow_pos _)

/-- Every part starts within the range, and stops where it would if the range started there. -/
theorem stop_of_mem_pieces (h : p ∈ r.pieces l) :
    r.start.val.toNat ≤ p.start.val.toNat ∧ p.start.val.toNat < r.stop.val.toNat ∧
      p.stop = (Interval.mk p.start r.stop).firstStop l := by
  induction r using cutInduction l with
  | done r hle =>
    rw [pieces_of_le hle] at h
    cases h
  | cut r hlt ih =>
    rw [pieces_cons hlt] at h
    rcases List.mem_cons.1 h with rfl | hrest
    · exact ⟨Nat.le_refl _, hlt, rfl⟩
    · obtain ⟨hlow, hhigh, hstop⟩ := ih hrest
      exact ⟨Nat.le_trans (Nat.le_of_lt (lt_firstStop hlt)) hlow, hhigh, hstop⟩

theorem head?_pieces (h : r.start.val.toNat < r.stop.val.toNat) :
    (r.pieces l).head? = some ⟨r.start, r.firstStop l⟩ := by
  rw [pieces_cons h, List.head?_cons]

theorem getLast?_pieces (h : p ∈ (r.pieces l).getLast?) : p.stop = r.stop := by
  induction r using cutInduction l with
  | done r hle =>
    rw [pieces_of_le hle] at h
    cases h
  | cut r hlt ih =>
    rcases Nat.lt_or_ge (r.firstStop l).val.toNat r.stop.val.toNat with hmore | hdone
    · apply ih
      rw [pieces_cons hlt, pieces_cons (r := ⟨r.firstStop l, r.stop⟩) hmore,
        List.getLast?_cons_cons, ← pieces_cons (r := ⟨r.firstStop l, r.stop⟩) hmore] at h
      exact h
    · -- the first part is the last one
      have hstop := Nat.le_antisymm (toNat_firstStop_le r l) hdone
      rw [pieces_eq_singleton hlt (congrArg VirtAddr.mk (UInt64.toNat_inj.1 hstop))] at h
      obtain rfl := Option.some.inj h
      rfl

/-- Each part starts where the one before it stops, in the next stretch. -/
theorem isChain_pieces (r : Interval) (l : Level) :
    (r.pieces l).IsChain fun p q =>
      p.stop = q.start ∧ l.spanNumber q.start = l.spanNumber p.start + 1 := by
  induction r using cutInduction l with
  | done r hle =>
    rw [pieces_of_le hle]
    exact .nil
  | cut r hlt ih =>
    rw [pieces_cons hlt]
    refine ih.cons fun q hq => ?_
    rcases Nat.lt_or_ge (r.firstStop l).val.toNat r.stop.val.toNat with hmore | hdone
    · rw [head?_pieces (r := ⟨r.firstStop l, r.stop⟩) hmore] at hq
      obtain rfl := Option.some.inj hq
      exact ⟨rfl, spanNumber_firstStop hmore⟩
    · rw [pieces_of_le (r := ⟨r.firstStop l, r.stop⟩) hdone] at hq
      cases hq

/-- The stretches of the parts are in order. -/
theorem pairwise_pieces (r : Interval) (l : Level) :
    (r.pieces l).Pairwise fun p q => l.spanNumber p.start < l.spanNumber q.start := by
  have hchain : ((r.pieces l).map fun p => l.spanNumber p.start).IsChain (· < ·) := by
    rw [List.isChain_map]
    refine (isChain_pieces r l).imp ?_
    intro p q hpq
    rw [hpq.2]
    exact Nat.lt_succ_self _
  exact List.pairwise_map.1 (List.isChain_iff_pairwise.1 hchain)

/-- All addresses of the range lie in what one table stands for. -/
def InOneTable (r : Interval) (l : Level) : Prop :=
  r.start.val.toNat / l.reach = (r.stop.val.toNat - 1) / l.reach

instance (r : Interval) (l : Level) : Decidable (r.InOneTable l) :=
  inferInstanceAs (Decidable (_ = _))

theorem InOneTable.eq_of_mem (h : r.InOneTable l) (hp : p ∈ r.pieces l) :
    l.spanNumber p.start / 512 = r.start.val.toNat / l.reach := by
  obtain ⟨hlow, hhigh, -⟩ := stop_of_mem_pieces hp
  rw [Level.spanNumber, Nat.div_div_eq_div_mul, ← Level.reach_eq]
  apply Nat.le_antisymm
  · rw [h]
    exact Nat.div_le_div_right (Nat.le_sub_one_of_lt hhigh)
  · exact Nat.div_le_div_right hlow

/-- Within one table, different parts are behind different entries. -/
theorem InOneTable.nodup (h : r.InOneTable l) :
    ((r.pieces l).map fun p => l.index p.start).Nodup := by
  rw [List.Nodup, List.pairwise_map]
  refine (pairwise_pieces r l).imp_of_mem fun {p q} hp hq hlt hsame => ?_
  have hindex := congrArg Fin.val hsame
  rw [Level.index_eq_spanNumber_mod, Level.index_eq_spanNumber_mod] at hindex
  -- the same table, and the same entry in it: then it is the same stretch
  have htable := (h.eq_of_mem hp).trans (h.eq_of_mem hq).symm
  omega

/-! ## Pages -/

/-- The first part of a range of pages is its first page. -/
theorem toNat_firstStop_pt (h : r.isAligned = true) (hlt : r.start.val.toNat < r.stop.val.toNat) :
    (r.firstStop .pt).val.toNat = r.start.val.toNat + 4096 := by
  rw [isAligned, Bool.and_eq_true, VirtAddr.isAligned_iff, VirtAddr.isAligned_iff] at h
  obtain ⟨⟨i, hi⟩, ⟨j, hj⟩⟩ := h
  rw [toNat_firstStop]
  simp only [Level.height]
  omega

theorem isAligned_rest (h : r.isAligned = true) (hlt : r.start.val.toNat < r.stop.val.toNat) :
    (Interval.mk (r.firstStop .pt) r.stop).isAligned = true := by
  have hcut := toNat_firstStop_pt h hlt
  rw [isAligned, Bool.and_eq_true, VirtAddr.isAligned_iff, VirtAddr.isAligned_iff] at h ⊢
  rw [hcut]
  exact ⟨Nat.dvd_add h.1 (Nat.dvd_refl _), h.2⟩

theorem length_pieces_pt (h : r.isAligned = true) :
    (r.pieces .pt).length = (r.stop.val.toNat - r.start.val.toNat) / 4096 := by
  induction r using cutInduction .pt with
  | done r hle =>
    rw [pieces_of_le hle, Nat.sub_eq_zero_of_le hle]
    rfl
  | cut r hlt ih =>
    have hcut := toNat_firstStop_pt h hlt
    have hstop := toNat_firstStop_le r .pt
    rw [pieces_cons hlt, List.length_cons, ih (isAligned_rest h hlt)]
    dsimp only
    omega

theorem length_of_mem_pieces_pt (h : r.isAligned = true) (hp : p ∈ r.pieces .pt) :
    p.stop.val.toNat = p.start.val.toNat + 4096 := by
  induction r using cutInduction .pt with
  | done r hle =>
    rw [pieces_of_le hle] at hp
    cases hp
  | cut r hlt ih =>
    rw [pieces_cons hlt] at hp
    rcases List.mem_cons.1 hp with rfl | hrest
    · exact toNat_firstStop_pt h hlt
    · exact ih (isAligned_rest h hlt) hrest

/-! ## The main result -/

/-- The parts are all of the range and nothing else, in order, and each is behind one entry. -/
structure Partition (r : Interval) (l : Level) (parts : List Interval) : Prop where
  /-- there are parts if there are addresses -/
  eq_nil_iff : parts = [] ↔ r.stop.val ≤ r.start.val
  first : ∀ p ∈ parts.head?, p.start = r.start
  last : ∀ p ∈ parts.getLast?, p.stop = r.stop
  /-- a part starts where the one before it stops, and there another entry takes over -/
  chain : parts.IsChain fun p q => p.stop = q.start ∧ l.spanNumber p.start ≠ l.spanNumber q.start
  filled : ∀ p ∈ parts, p.start.val < p.stop.val
  /-- one entry stands for all addresses of a part -/
  behind : ∀ p ∈ parts, ∀ a : VirtAddr, p.start.val ≤ a.val → a.val < p.stop.val →
    l.spanNumber a = l.spanNumber p.start ∧ l.index a = l.index p.start

theorem partition_pieces (r : Interval) (l : Level) : r.Partition l (r.pieces l) where
  eq_nil_iff := by
    rw [UInt64.le_iff_toNat_le]
    constructor
    · intro hempty
      by_contra hlt
      rw [pieces_cons (Nat.not_le.1 hlt)] at hempty
      cases hempty
    · exact pieces_of_le
  first := by
    intro p hp
    rcases Nat.lt_or_ge r.start.val.toNat r.stop.val.toNat with hlt | hle
    · rw [head?_pieces hlt] at hp
      obtain rfl := Option.some.inj hp
      rfl
    · rw [pieces_of_le hle] at hp
      cases hp
  last := fun p hp => getLast?_pieces hp
  chain := by
    refine (isChain_pieces r l).imp ?_
    intro p q hpq
    refine ⟨hpq.1, ?_⟩
    rw [hpq.2]
    exact Nat.ne_of_lt (Nat.lt_succ_self _)
  filled := by
    intro p hp
    obtain ⟨-, hhigh, hstop⟩ := stop_of_mem_pieces hp
    rw [UInt64.lt_iff_toNat_lt, hstop]
    exact lt_firstStop (r := ⟨p.start, r.stop⟩) hhigh
  behind := by
    intro p hp a hlow hhigh
    obtain ⟨-, -, hstop⟩ := stop_of_mem_pieces hp
    rw [UInt64.le_iff_toNat_le] at hlow
    rw [UInt64.lt_iff_toNat_lt, hstop] at hhigh
    have hspan := spanNumber_of_lt_firstStop (r := ⟨p.start, r.stop⟩) hlow hhigh
    exact ⟨hspan, Level.index_congr hspan⟩

/-- **The parts of a range are an exact partition of it**, for all levels and all addresses. To find
them one after the other comes to an end, after the pieces of the range. They are the whole range
without gap or overlap, each behind one entry. No entry comes twice if the range stays within one
table; and where the range consists of pages, those of the lowest level are its pages. -/
theorem pieces_partition (r : Interval) (l : Level) :
    (∀ n, r.part? l n = ((r.pieces l)[n]?).map fun p => (l.index p.start, p)) ∧
    r.Partition l (r.pieces l) ∧
    (r.InOneTable l → ((r.pieces l).map fun p => l.index p.start).Nodup) ∧
    (r.isAligned = true →
      (r.pieces .pt).length = (r.stop.val.toNat - r.start.val.toNat) / pageSize.toNat ∧
      ∀ p ∈ r.pieces .pt, p.stop.val.toNat = p.start.val.toNat + pageSize.toNat) := by
  refine ⟨part?_eq r l, partition_pieces r l, InOneTable.nodup, ?_⟩
  intro haligned
  exact ⟨length_pieces_pt haligned, fun p hp => length_of_mem_pieces_pt haligned hp⟩

/-- From one page below the last boundary between directories to the last page of the address space,
behind whose start there is no boundary any more. -/
def topmost : Interval := ⟨⟨0xffffffffffdff000⟩, ⟨0xfffffffffffff000⟩⟩

theorem topmost_pieces_partition :
    topmost.InOneTable .pd ∧ topmost.isAligned = true ∧
    (∀ n, topmost.part? .pd n =
      ((topmost.pieces .pd)[n]?).map fun p => (Level.pd.index p.start, p)) ∧
    topmost.Partition .pd (topmost.pieces .pd) ∧
    ((topmost.pieces .pd).map fun p => Level.pd.index p.start).Nodup ∧
    (topmost.pieces .pt).length =
      (topmost.stop.val.toNat - topmost.start.val.toNat) / pageSize.toNat ∧
    ∀ p ∈ topmost.pieces .pt, p.stop.val.toNat = p.start.val.toNat + pageSize.toNat := by
  obtain ⟨hfound, hpartition, hnodup, hpages⟩ := pieces_partition topmost .pd
  exact ⟨by decide, by decide, hfound, hpartition, hnodup (by decide), hpages (by decide)⟩

end Interval

end PagedMemory
