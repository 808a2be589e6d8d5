import Mathlib.Tactic
import PagedMemory.Handles
import PagedMemory.Proofs.Memory

/-!
# Arrays of handles, as lists of frames

* `HandleArray.decode_encode`: a handle stands for the frame it was made for.
* `HandleArray.Holds`: the handles of an array are these frames, wherever it keeps them.
* `HandleArray.get?_does`, `HandleArray.store_does`, `HandleArray.toList_does`: reading a handle
  that is there, and storing the next one where there is room for it.
-/

namespace PagedMemory

open Layout

namespace HandleArray

variable {back : Backdrop} {p q : Pool} {array : HandleArray} {frames : List PageFrame}
  {f : PageFrame} {i n : Nat}

/-! ## Handles as words -/

theorem base_and_one (f : PageFrame) : f.base.val &&& 1 = 0 := by
  have hdvd := f.dvd_base
  apply UInt64.toNat_inj.1
  rw [UInt64.toNat_and]
  change f.base.val.toNat &&& (2 ^ 1 - 1) = 0
  rw [Nat.and_two_pow_sub_one_eq_mod]
  omega

theorem base_and_not_one (f : PageFrame) : f.base.val &&& ~~~1 = f.base.val := by
  have hdvd := f.dvd_base
  have hdown := Word.toNat_alignDown (x := f.base.val) (a := 2) (k := 1) rfl
  apply UInt64.toNat_inj.1
  change (Word.alignDown f.base.val 2).toNat = _
  rw [hdown]
  omega

theorem decode_encode (f : PageFrame) : decode (encode f) = .ok (some f) := by
  have hlow : encode f &&& 1 = 1 := by
    rw [encode, Word.or_and_distrib, base_and_one]
    rfl
  have hbase : encode f &&& ~~~1 = f.base.val := by
    rw [encode, Word.or_and_distrib, base_and_not_one, UInt64.and_not_self, UInt64.or_zero]
  have haddr : PageFrame.ofAddr? ⟨f.base.val⟩ = some f := by
    rw [PageFrame.ofAddr?, dif_pos f.aligned]
  rw [decode, hlow, if_neg (by decide), hbase, PageFrame.ofAddr, haddr]
  rfl

/-! ## What an array holds -/

/-- The frames in which an array lies. -/
def backing : HandleArray → List PageFrame
  | empty => []
  | inline _ _ => []
  | mapped _ _ backing => backing.toList

/-- The array has room for `n` handles. -/
def Room (n : Nat) : HandleArray → Prop
  | empty => n = 0
  | inline capacity _ => n ≤ capacity
  | mapped _ length backing => n ≤ length ∧ n ≤ backing.size * handlesPerFrame

/-- The handles of the array are those of `frames`, in order. -/
def Holds (p : Pool) (frames : List PageFrame) : HandleArray → Prop
  | empty => frames = []
  | inline _ kept => kept.toList = frames
  | mapped _ length backing => frames.length ≤ length ∧ ∀ i f, frames[i]? = some f →
      ∃ b, backing[i / handlesPerFrame]? = some b ∧ (p.page b).get (slotOf i) = encode f

/-- What an array holds depends on the frames it lies in. -/
theorem Holds.congr (h : array.Holds p frames) (hpage : ∀ b ∈ array.backing, q.page b = p.page b) :
    array.Holds q frames := by
  cases array with
  | empty => exact h
  | inline capacity kept => exact h
  | mapped base length backing =>
    refine ⟨h.1, fun i f hf => ?_⟩
    obtain ⟨b, hb, hword⟩ := h.2 i f hf
    refine ⟨b, hb, ?_⟩
    rw [hpage b (Array.mem_toList_iff.2 (Array.mem_of_getElem? hb)), hword]

theorem get?_does (h : array.Holds p frames) (hhas : ∀ b ∈ array.backing, p.Has b)
    (hi : i < frames.length) : Does back (array.get? i) p fun f q => f = frames[i]? ∧ q = p := by
  cases array with
  | empty =>
    obtain rfl : frames = [] := h
    exact absurd hi (Nat.not_lt_zero i)
  | inline capacity kept =>
    obtain rfl : kept.toList = frames := h
    exact Runs.pure ⟨(Array.getElem?_toList).symm, rfl⟩
  | mapped base length backing =>
    obtain ⟨f, hf⟩ : ∃ f, frames[i]? = some f := ⟨_, List.getElem?_eq_getElem hi⟩
    obtain ⟨b, hb, hword⟩ := h.2 i f hf
    have hmem : b ∈ backing.toList := Array.mem_toList_iff.2 (Array.mem_of_getElem? hb)
    have hof : frameOf backing i = .ok b := by rw [frameOf, hb]
    rw [get?, if_pos (Nat.lt_of_lt_of_le hi h.1)]
    refine Runs.bind_lift hof (Runs.bind (Machine.word_does (hhas b hmem) _) ?_)
    rintro _ _ ⟨rfl, rfl⟩
    rw [hword, decode_encode]
    exact Runs.pure ⟨hf.symm, rfl⟩

theorem toListFrom_does (h : array.Holds p frames) (hhas : ∀ b ∈ array.backing, p.Has b) (n i : Nat)
    (hn : i + n = frames.length) :
    Does back (array.toListFrom n i) p fun list q => list = frames.drop i ∧ q = p := by
  induction n generalizing i with
  | zero => exact Runs.pure ⟨(List.drop_eq_nil_of_le (by omega)).symm, rfl⟩
  | succ n ih =>
    have hi : i < frames.length := by omega
    refine Runs.bind (get?_does h hhas hi) ?_
    rintro _ p ⟨rfl, rfl⟩
    rw [List.getElem?_eq_getElem hi]
    refine Runs.bind (ih (i + 1) (by omega)) ?_
    rintro _ _ ⟨rfl, rfl⟩
    exact Runs.pure ⟨(List.drop_eq_getElem_cons hi).symm, rfl⟩

theorem toList_does (h : array.Holds p frames) (hhas : ∀ b ∈ array.backing, p.Has b) :
    Does back (array.toList frames.length) p fun list q => list = frames ∧ q = p :=
  toListFrom_does h hhas frames.length 0 (Nat.zero_add _)

/-! ## Storing -/

/-- Two handles are kept in one place only if they are the same. -/
theorem place_inj {list : List PageFrame} {b : PageFrame} {k : Nat} (hnodup : list.Nodup)
    (hi : list[i / handlesPerFrame]? = some b) (hk : list[k / handlesPerFrame]? = some b)
    (hslot : slotOf i = slotOf k) : i = k := by
  obtain ⟨hlt, hget⟩ := List.getElem?_eq_some_iff.1 hi
  obtain ⟨hlt', hget'⟩ := List.getElem?_eq_some_iff.1 hk
  have hdiv := (List.Nodup.getElem_inj_iff hnodup).1 (hget.trans hget'.symm)
  have hmod : i % handlesPerFrame = k % handlesPerFrame := congrArg Fin.val hslot
  rw [← Nat.div_add_mod i handlesPerFrame, hdiv, hmod, Nat.div_add_mod]

/-- Behind the frames that are there, and only there, another one can be put while there is room. -/
theorem pushAt_eq_ok {kept : Array PageFrame} {capacity : Nat} (h : kept.size < capacity)
    (f : PageFrame) : pushAt kept capacity kept.size f = .ok (kept.push f) := by
  rw [pushAt, if_neg (not_not_intro rfl), if_pos h]

/-- Storing the next handle writes to the frames of the array at most. -/
theorem store_does (hp : p.Sound) (h : array.Holds p frames) (hhas : ∀ b ∈ array.backing, p.Has b)
    (hnodup : array.backing.Nodup) (hroom : array.Room (frames.length + 1)) (f : PageFrame) :
    Does back (array.store frames.length f) p fun array' q =>
      array'.Holds q (frames ++ [f]) ∧ array'.backing = array.backing ∧
        array'.base? = array.base? ∧ (∀ n, array.Room n → array'.Room n) ∧
        p.Wrote array.backing q := by
  cases array with
  | empty => exact absurd hroom (Nat.succ_ne_zero _)
  | inline capacity kept =>
    obtain rfl : kept.toList = frames := h
    rw [Array.length_toList] at hroom ⊢
    refine Runs.bind_lift (pushAt_eq_ok hroom f) (Runs.pure ?_)
    exact ⟨Array.toList_push, rfl, rfl, fun _ hn => hn, .refl hp⟩
  | mapped base length backing =>
    obtain ⟨hlength, hsize⟩ := hroom
    have hlt : frames.length / handlesPerFrame < backing.size := by
      rw [Nat.div_lt_iff_lt_mul (by decide)]
      omega
    obtain ⟨b, hb⟩ : ∃ b, backing[frames.length / handlesPerFrame]? = some b :=
      ⟨_, Array.getElem?_eq_getElem hlt⟩
    have hmem : b ∈ backing.toList := Array.mem_toList_iff.2 (Array.mem_of_getElem? hb)
    have hof : frameOf backing frames.length = .ok b := by rw [frameOf, hb]
    rw [store, if_pos (Nat.lt_of_succ_le hlength)]
    refine Runs.bind_lift hof (Runs.bind (Machine.setWord_does (hhas b hmem) _ _) ?_)
    rintro _ _ rfl
    refine Runs.pure ⟨⟨?_, fun i g hg => ?_⟩, rfl, rfl, fun _ hn => hn, .rewrite hp hmem⟩
    · rw [List.length_append]
      exact hlength
    rcases Nat.lt_or_ge i frames.length with hi | hi
    · rw [List.getElem?_append_left hi] at hg
      obtain ⟨b', hb', hword⟩ := h.2 i g hg
      have hmiss : ¬ (b' = b ∧ slotOf i = slotOf frames.length) := by
        rintro ⟨rfl, hslot⟩
        rw [← Array.getElem?_toList] at hb hb'
        exact Nat.ne_of_lt hi (place_inj hnodup hb' hb hslot)
      exact ⟨b', hb', by rw [Pool.getElem_page_store (hhas b hmem), if_neg hmiss, hword]⟩
    · rw [List.getElem?_append_right hi] at hg
      obtain ⟨hlast, rfl⟩ := List.getElem?_eq_some_iff.1 hg
      obtain rfl : i = frames.length := by
        rw [List.length_singleton] at hlast
        omega
      refine ⟨b, hb, ?_⟩
      rw [Pool.getElem_page_store (hhas b hmem), if_pos ⟨rfl, rfl⟩]
      simp

end HandleArray

end PagedMemory
