import Mathlib.Tactic
import PagedMemory.Proofs.Caches

/-!
# Ranges that cross into the next block

A root stands for `2 ^ 48` addresses, and addresses that are `2 ^ 48` apart share their entries. A
range of at most that length can begin in one block and end in the next. No page of the tree comes
twice in it, and its walk is the walk to the end of the block followed by the walk from there.

* `Interval.pieces_append`: a range can be cut at any boundary of a level.
* `Interval.foldPieces_append`: so can the visits of all its parts.
* `Interval.Stretch`: the pages of a range, in one block or two.
* `Interval.meets_iff`: which addresses share their entry with an address of the range.
-/

namespace PagedMemory

open Tables

namespace Interval

variable {r : Interval} {l : Level} {start mid stop : VirtAddr}

/-! ## Cutting at a boundary -/

/-- The first part is the same however far the range goes on behind a boundary. -/
theorem firstStop_congr (hmid : mid.val.toNat % 2 ^ (12 + 9 * l.height) = 0)
    (hlt : start.val.toNat < mid.val.toNat) (hle : mid.val.toNat ≤ stop.val.toNat) :
    (Interval.mk start stop).firstStop l = (Interval.mk start mid).firstStop l := by
  have hstop := toNat_firstStop ⟨start, stop⟩ l
  have hcut := toNat_firstStop ⟨start, mid⟩ l
  dsimp only at hstop hcut
  have hsame : ((Interval.mk start stop).firstStop l).val = ((Interval.mk start mid).firstStop l).val := by
    apply UInt64.toNat_inj.1
    rw [hstop, hcut]
    cases l <;> simp only [Level.height] at hmid ⊢ <;> omega
  exact congrArg VirtAddr.mk hsame

/-- Behind the first part there is one part less. -/
theorem pieceCount_firstStop (r : Interval) (l : Level) (hlt : r.start.val.toNat < r.stop.val.toNat) :
    (Interval.mk (r.firstStop l) r.stop).pieceCount l + 1 = r.pieceCount l := by
  have hcut := toNat_firstStop r l
  rw [pieceCount_eq_div, pieceCount_eq_div, if_pos hlt]
  by_cases hmore : (r.firstStop l).val.toNat < r.stop.val.toNat
  · rw [if_pos hmore]
    cases l <;> simp only [Level.height] at hcut ⊢ <;> omega
  · rw [if_neg hmore]
    cases l <;> simp only [Level.height] at hcut ⊢ <;> omega

theorem toNat_firstStop_le (r : Interval) (l : Level) :
    (r.firstStop l).val.toNat ≤ r.stop.val.toNat := by
  rw [toNat_firstStop]
  exact Nat.min_le_right _ _

theorem piecesUpTo_append (hmid : mid.val.toNat % 2 ^ (12 + 9 * l.height) = 0)
    (hstop : mid.val.toNat ≤ stop.val.toNat) (k n : Nat) (hstart : start.val.toNat ≤ mid.val.toNat)
    (hn : n = (Interval.mk start mid).pieceCount l) :
    piecesUpTo l stop (n + k) start = piecesUpTo l mid n start ++ piecesUpTo l stop k mid := by
  induction n generalizing start with
  | zero =>
    have hend : start = mid := by
      rw [pieceCount_eq_div] at hn
      split at hn
      next => cases hn
      next hge => exact congrArg VirtAddr.mk (UInt64.toNat_inj.1 (Nat.le_antisymm hstart (Nat.not_lt.1 hge)))
    rw [hend, Nat.zero_add]
    rfl
  | succ n ih =>
    have hlt : start.val.toNat < mid.val.toNat := by
      by_contra hge
      rw [pieceCount_eq_div, if_neg hge] at hn
      cases hn
    have hrest : (Interval.mk ((Interval.mk start mid).firstStop l) mid).pieceCount l + 1 =
        (Interval.mk start mid).pieceCount l := pieceCount_firstStop ⟨start, mid⟩ l hlt
    rw [Nat.add_right_comm, piecesUpTo, piecesUpTo, firstStop_congr hmid hlt hstop, List.cons_append]
    congr 1
    exact ih (toNat_firstStop_le ⟨start, mid⟩ l) (by omega)

/-- The parts of a range are those in front of a boundary and those behind it. -/
theorem pieces_append (hmid : mid.val.toNat % 2 ^ (12 + 9 * l.height) = 0)
    (hstart : start.val.toNat ≤ mid.val.toNat) (hstop : mid.val.toNat ≤ stop.val.toNat) :
    (Interval.mk start stop).pieces l =
      (Interval.mk start mid).pieces l ++ (Interval.mk mid stop).pieces l := by
  have hcount : (Interval.mk start stop).pieceCount l =
      (Interval.mk start mid).pieceCount l + (Interval.mk mid stop).pieceCount l := by
    rw [pieceCount_eq_div, pieceCount_eq_div, pieceCount_eq_div]
    dsimp only
    rcases Nat.eq_or_lt_of_le hstart with hnone | hfirst
    · rw [hnone, if_neg (Nat.lt_irrefl _), Nat.zero_add]
    rcases Nat.eq_or_lt_of_le hstop with hnone | hsecond
    · rw [← hnone, if_neg (Nat.lt_irrefl _), Nat.add_zero, if_pos hfirst]
    -- the boundary begins a part that the page before it does not belong to
    have hbefore : mid.val.toNat = mid.val.toNat - 1 + 1 := by omega
    have hcut := Nat.succ_div_of_dvd (hbefore ▸ Nat.dvd_of_mod_eq_zero hmid)
    rw [← hbefore] at hcut
    have hlast := Nat.div_le_div_right (c := 2 ^ (12 + 9 * l.height)) (Nat.le_sub_one_of_lt hfirst)
    have hnext := Nat.div_le_div_right (c := 2 ^ (12 + 9 * l.height)) (Nat.le_sub_one_of_lt hsecond)
    rw [if_pos hfirst, if_pos hsecond, if_pos (hfirst.trans hsecond)]
    omega
  rw [pieces, hcount]
  exact piecesUpTo_append hmid hstop _ _ hstart rfl

section

variable {m : Type → Type} [Monad m] [LawfulMonad m]

/-- What has been summed up before is added to what is summed up from then on. -/
theorem foldlM_add (visit : Interval → m Nat) (parts : List Interval) (sum before : Nat) :
    parts.foldlM (fun s part => do return s + (← visit part)) (before + sum) = (do
      let after ← parts.foldlM (fun s part => do return s + (← visit part)) sum
      return before + after) := by
  induction parts generalizing sum with
  | nil => simp
  | cons part parts ih =>
    simp only [List.foldlM_cons, bind_assoc, pure_bind]
    congr 1
    funext count
    rw [Nat.add_assoc, ih]

/-- Visiting the parts of two ranges, one after the other. -/
theorem foldPieces_append {r₁ r₂ : Interval} (h : r.pieces l = r₁.pieces l ++ r₂.pieces l)
    (visit : Interval → m Nat) :
    r.foldPieces l visit = (do
      let first ← r₁.foldPieces l visit
      let second ← r₂.foldPieces l visit
      return first + second) := by
  rw [foldPieces_eq_foldlM, foldPieces_eq_foldlM, h, List.foldlM_append]
  congr 1
  funext first
  rw [foldPieces_eq_foldlM]
  exact foldlM_add visit (r₂.pieces l) 0 first

end

/-! ## One block or two -/

/-- The number of whole pages in the range. -/
def pageTotal (r : Interval) : Nat := (r.stop.val.toNat - r.start.val.toNat) / 4096

/-- The address at which page `k` of the range begins. -/
def page (r : Interval) (k : Nat) : VirtAddr := ⟨r.start.val + UInt64.ofNat (k * 4096)⟩

/-- The range consists of `total` pages, from page `i` of the block of number `b` on. -/
inductive Stretch (r : Interval) (b i total : Nat) : Prop
  | within (pages : r.Pages b i (i + total))
  | across {mid : VirtAddr} {rest : Nat} (first : Pages ⟨r.start, mid⟩ b i (512 ^ 4))
      (second : Pages ⟨mid, r.stop⟩ (b + 1) 0 rest) (total_eq : i + total = 512 ^ 4 + rest)

/-- The end of a block is a boundary of every level. -/
theorem pieces_across {b i rest : Nat} (hfirst : Pages ⟨r.start, mid⟩ b i (512 ^ 4))
    (hsecond : Pages ⟨mid, r.stop⟩ (b + 1) 0 rest) (l : Level) :
    r.pieces l = (Interval.mk r.start mid).pieces l ++ (Interval.mk mid r.stop).pieces l := by
  have hstart : r.start.val.toNat = b * 2 ^ 48 + i * 4096 := hfirst.start
  have hmid : mid.val.toNat = b * 2 ^ 48 + 512 ^ 4 * 4096 := hfirst.stop
  have hstop : r.stop.val.toNat = (b + 1) * 2 ^ 48 + rest * 4096 := hsecond.stop
  have hi := hfirst.le
  have hboundary : mid.val.toNat % 2 ^ (12 + 9 * l.height) = 0 := by
    cases l <;> simp only [Level.height] <;> omega
  exact pieces_append hboundary (by omega) (by omega)

theorem stretch (haligned : r.isAligned = true) (hle : r.start.val ≤ r.stop.val)
    (hlength : r.stop.val.toNat - r.start.val.toNat ≤ 2 ^ 48) :
    r.Stretch (r.start.val.toNat / 2 ^ 48) r.start.pageNumber r.pageTotal := by
  rw [isAligned, Bool.and_eq_true, VirtAddr.isAligned_iff, VirtAddr.isAligned_iff] at haligned
  obtain ⟨hstart, hstop⟩ := haligned
  rw [UInt64.le_iff_toNat_le] at hle
  have htotal : r.pageTotal * 4096 = r.stop.val.toNat - r.start.val.toNat := by
    rw [pageTotal]
    omega
  have hfirst : r.start.val.toNat =
      r.start.val.toNat / 2 ^ 48 * 2 ^ 48 + r.start.pageNumber * 4096 := by
    rw [VirtAddr.pageNumber]
    omega
  have hpage := r.start.pageNumber_lt
  by_cases hcross : r.start.pageNumber + r.pageTotal ≤ 512 ^ 4
  · exact .within ⟨hfirst, by omega, Nat.le_add_right _ _, hcross⟩
  · have hlt : r.stop.val.toNat < 2 ^ 64 := r.stop.val.toNat_lt
    have hword : UInt64.size = 2 ^ 64 := rfl
    obtain ⟨mid, hmid⟩ : ∃ mid : VirtAddr,
        mid.val.toNat = (r.start.val.toNat / 2 ^ 48 + 1) * 2 ^ 48 :=
      ⟨⟨UInt64.ofNat _⟩, UInt64.toNat_ofNat_of_lt' (by omega)⟩
    have hend : mid.val.toNat = r.start.val.toNat / 2 ^ 48 * 2 ^ 48 + 512 ^ 4 * 4096 := by omega
    have hbegin : mid.val.toNat = (r.start.val.toNat / 2 ^ 48 + 1) * 2 ^ 48 + 0 * 4096 := by
      rw [Nat.zero_mul, Nat.add_zero]
      exact hmid
    have hstop : r.stop.val.toNat = (r.start.val.toNat / 2 ^ 48 + 1) * 2 ^ 48 +
        (r.start.pageNumber + r.pageTotal - 512 ^ 4) * 4096 := by omega
    have hpages : Pages ⟨r.start, mid⟩ (r.start.val.toNat / 2 ^ 48) r.start.pageNumber (512 ^ 4) :=
      ⟨hfirst, hend, hpage.le, Nat.le_refl _⟩
    exact .across hpages ⟨hbegin, hstop, Nat.zero_le _, by omega⟩ (by omega)

/-- The first `k` pages of the range. -/
def first (r : Interval) (k : Nat) : Interval := ⟨r.start, r.page k⟩

section

variable {a : VirtAddr} {k : Nat}

theorem toNat_page (hk : k ≤ r.pageTotal) :
    (r.page k).val.toNat = r.start.val.toNat + k * 4096 := by
  have hstart := r.start.val.toNat_lt
  have hstop := r.stop.val.toNat_lt
  rw [pageTotal] at hk
  have hoffset : (UInt64.ofNat (k * 4096)).toNat = k * 4096 :=
    UInt64.toNat_ofNat_of_lt' (Nat.lt_of_le_of_lt (by omega) hstop)
  rw [page, UInt64.toNat_add, hoffset, Nat.mod_eq_of_lt (by omega)]

theorem pageNumber_page (haligned : r.isAligned = true) (hk : k ≤ r.pageTotal) :
    (r.page k).pageNumber = Walk.pageAfter r.start.pageNumber k := by
  rw [isAligned, Bool.and_eq_true, VirtAddr.isAligned_iff] at haligned
  rw [VirtAddr.pageNumber, Walk.pageAfter, VirtAddr.pageNumber, toNat_page hk]
  omega

theorem page_eq_ofPage (haligned : r.isAligned = true) (k : Nat) :
    r.page k = .ofPage (r.start.val.toNat / 2 ^ 48) (r.start.pageNumber + k) := by
  rw [isAligned, Bool.and_eq_true, VirtAddr.isAligned_iff] at haligned
  have hsum : r.start.val.toNat / 2 ^ 48 * 2 ^ 48 + (r.start.pageNumber + k) * 4096 =
      r.start.val.toNat + k * 4096 := by
    rw [VirtAddr.pageNumber]
    omega
  rw [page, VirtAddr.ofPage, hsum, UInt64.ofNat_add, UInt64.ofNat_toNat]

theorem isAligned_first (haligned : r.isAligned = true) (hk : k ≤ r.pageTotal) :
    (r.first k).isAligned = true := by
  rw [isAligned, Bool.and_eq_true, VirtAddr.isAligned_iff] at haligned ⊢
  refine ⟨haligned.1, VirtAddr.isAligned_iff.2 ?_⟩
  rw [first, toNat_page hk]
  omega

theorem pageTotal_first (hk : k ≤ r.pageTotal) : (r.first k).pageTotal = k := by
  have hpage := toNat_page hk
  simp only [pageTotal, first, hpage]
  omega

/-- The pages of a range are those whose entries its addresses share. -/
theorem meets_iff (haligned : r.isAligned = true) :
    r.Meets a ↔ a.pageNumber ∈ Walk.pagesAfter r.start.pageNumber r.pageTotal := by
  rw [isAligned, Bool.and_eq_true, VirtAddr.isAligned_iff, VirtAddr.isAligned_iff] at haligned
  rw [Walk.pagesAfter, Finset.mem_image]
  constructor
  · rintro ⟨x, ⟨hlow, hhigh⟩, hsame⟩
    refine ⟨(x.val.toNat - r.start.val.toNat) / 4096, Finset.mem_range.2 ?_, ?_⟩
    · rw [pageTotal]
      omega
    · rw [Walk.pageAfter, VirtAddr.pageNumber, VirtAddr.pageNumber]
      omega
  · rintro ⟨k, hk, hpage⟩
    have hk' : k < r.pageTotal := Finset.mem_range.1 hk
    have hlt := r.stop.val.toNat_lt
    rw [pageTotal] at hk'
    have hoffset : (UInt64.ofNat (r.start.val.toNat + k * 4096 + a.val.toNat % 4096)).toNat =
        r.start.val.toNat + k * 4096 + a.val.toNat % 4096 :=
      UInt64.toNat_ofNat_of_lt' (Nat.lt_of_lt_of_le (by omega) hlt.le)
    refine ⟨⟨UInt64.ofNat (r.start.val.toNat + k * 4096 + a.val.toNat % 4096)⟩, ⟨?_, ?_⟩, ?_⟩
    · rw [hoffset]
      omega
    · rw [hoffset]
      omega
    · rw [hoffset]
      rw [Walk.pageAfter, VirtAddr.pageNumber, VirtAddr.pageNumber] at hpage
      omega

end

end Interval

namespace Walk

variable {i total rest n : Nat}

theorem mem_pagesAfter_within (h : i + total ≤ 512 ^ 4) :
    n ∈ pagesAfter i total ↔ i ≤ n ∧ n < i + total := by
  rw [pagesAfter, Finset.mem_image]
  constructor
  · rintro ⟨k, hk, rfl⟩
    have hk' := Finset.mem_range.1 hk
    rw [pageAfter_of_lt (by omega)]
    omega
  · rintro ⟨hlow, hhigh⟩
    exact ⟨n - i, Finset.mem_range.2 (by omega), by rw [pageAfter_of_lt (by omega)]; omega⟩

theorem mem_pagesAfter_across (h : i + total = 512 ^ 4 + rest) (hi : i ≤ 512 ^ 4)
    (hrest : rest ≤ 512 ^ 4) (hn : n < 512 ^ 4) :
    n ∈ pagesAfter i total ↔ i ≤ n ∨ n < rest := by
  rw [pagesAfter, Finset.mem_image]
  constructor
  · rintro ⟨k, hk, rfl⟩
    have hk' := Finset.mem_range.1 hk
    rw [pageAfter]
    omega
  · rintro (hlow | hhigh)
    · exact ⟨n - i, Finset.mem_range.2 (by omega), by rw [pageAfter_of_lt (by omega)]; omega⟩
    · exact ⟨512 ^ 4 - i + n, Finset.mem_range.2 (by omega), pageAfter_eq (w := 1) (by omega) hn⟩

/-! ## A small machine -/

/-- The root of a small tree. -/
def smallRoot : PageFrame := .containing ⟨0x100000⟩

/-- The last page of a block and the first of the next. -/
def smallRange : Interval := ⟨⟨0xfffffffff000⟩, ⟨0x1000000001000⟩⟩

/-- Six frames. The lowest is a root, and its first entry is malformed. -/
def smallPool : Pool :=
  ((Pool.create smallRoot 6).marked 0 true [1, 2, 3, 4, 5]).withEntry smallRoot 0 ⟨0x80⟩

def small : Machine := .create smallPool .plain

theorem number?_smallRoot : (Pool.create smallRoot 6).number? smallRoot = some 0 :=
  Pool.number?_eq_some_iff.2 ⟨by decide, rfl⟩

theorem small_sound : small.pool.Sound := by
  have hcreate : (Pool.create smallRoot 6).Sound := Pool.sound_create (by decide)
  have hmarked : ((Pool.create smallRoot 6).marked 0 true [1, 2, 3, 4, 5]).Sound :=
    hcreate.marked_true (List.Perm.refl _)
  change smallPool.Sound
  rw [smallPool, Pool.withEntry]
  exact hmarked.rewrite

theorem small_isTaken : small.pool.isTaken smallRoot = true := by
  change smallPool.isTaken smallRoot = true
  rw [smallPool, Pool.withEntry, Pool.isTaken_rewrite, Pool.isTaken_marked number?_smallRoot,
    if_pos rfl]

theorem small_nowhere (k : TableIndex) : (small.pool.entryAt smallRoot k).table? = none := by
  change (smallPool.entryAt smallRoot k).table? = none
  rw [smallPool, Pool.entryAt_withEntry ⟨0, Pool.number?_marked.trans number?_smallRoot⟩,
    Pool.entryAt, Pool.page_marked number?_smallRoot, Pool.page_create, Page.get_zero]
  split <;> rfl

theorem small_held : Held small.pool smallRoot := .of_nowhere small_nowhere small_isTaken

end Walk

end PagedMemory
