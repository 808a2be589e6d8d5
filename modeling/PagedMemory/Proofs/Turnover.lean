import PagedMemory.Proofs.Clients

/-!
# Whom a frame belongs to

A pool hands out every frame once until it comes back, whatever is asked of it and in whatever
order, requests that fail and calls that fault among them.

* `Pool.freeFrames`: the free list, told in frames.
* `Pool.Served`: what a request that is granted makes of a pool. `Pool.take_answers`: every request
  is answered, and how.
* `Pool.Turn`: what may be asked of a pool, and `Pool.Account`: a pool and who has had its frames.
* `Pool.Account.Fair`: what holds of the books and of the next call, whatever came before.
* `Pool.Account.run_fair`: it holds from the start.
-/

namespace PagedMemory

open Layout

/-- Whether a frame will do for a request under the policy. -/
def FramePolicy.accepts (policy : FramePolicy) (f : PageFrame) : Bool :=
  !policy.has .lowMemory || decide (f.base.val < lowMemoryLimit)

theorem FramePolicy.accepts_iff {policy : FramePolicy} {f : PageFrame} :
    policy.accepts f = true ↔ (policy.has .lowMemory = true → f.base.val < lowMemoryLimit) := by
  rw [accepts, Bool.or_eq_true, Bool.not_eq_true', decide_eq_true_eq]
  cases policy.has .lowMemory <;> simp

namespace Pool

variable {p q : Pool} {policy : FramePolicy} {f g : PageFrame} {i : Nat}

/-! ## Frames with addresses -/

/-- The frames of the pool, the lowest first. -/
def frames (p : Pool) : List PageFrame := runOf p.base p.slots.size

/-- The free frames, the one that came back last first. -/
def freeFrames (p : Pool) : List PageFrame := p.free.map p.base.advance

theorem Placed.advance_eq (hp : p.Placed) (hf : p.number? f = some i) : p.base.advance i = f :=
  number?_inj (hp.number?_advance (number?_lt hf)) hf

theorem Placed.suits (hp : p.Placed) (policy : FramePolicy) (hi : i < p.slots.size) :
    p.suits policy i = .ok (policy.accepts (p.base.advance i)) := by
  rw [Pool.suits, hp.frameAt hi, FramePolicy.accepts]
  cases policy.has .lowMemory <;> rfl

theorem frames_congr (hbase : q.base = p.base) (hsize : q.slots.size = p.slots.size) :
    q.frames = p.frames := by
  rw [frames, frames, hbase, hsize]

theorem length_freeFrames (p : Pool) : p.freeFrames.length = p.free.length := List.length_map _

theorem Listed.lt_of_mem (hp : p.Listed) (hi : i ∈ p.free) : i < p.slots.size := by
  obtain ⟨s, hs, -⟩ := (hp.mem_free i).1 hi
  exact (Array.getElem?_eq_some_iff.1 hs).1

theorem Listed.isTaken_eq (hp : p.Listed) (hf : p.number? f = some i) :
    p.isTaken f = !decide (i ∈ p.free) := by
  obtain ⟨s, hs⟩ := exists_slot hf
  rw [isTaken_eq_any, slot?_eq hf, hs, Option.any_some]
  by_cases hi : i ∈ p.free
  · obtain ⟨t, ht, hfree⟩ := (hp.mem_free i).1 hi
    obtain rfl := Option.some.inj (hs.symm.trans ht)
    rw [hfree, decide_eq_true hi]
    rfl
  · rw [decide_eq_false hi]
    by_contra hne
    exact hi ((hp.mem_free i).2 ⟨s, hs, Bool.eq_false_of_not_eq_true hne⟩)

/-- The free frames are those of the pool that are not in use. -/
theorem Placed.mem_freeFrames (hp : p.Placed) (hlisted : p.Listed) :
    f ∈ p.freeFrames ↔ p.Has f ∧ p.isTaken f = false := by
  constructor
  · intro hf
    obtain ⟨i, hi, rfl⟩ := List.mem_map.1 hf
    have hnumber := hp.number?_advance (hlisted.lt_of_mem hi)
    refine ⟨⟨i, hnumber⟩, ?_⟩
    rw [hlisted.isTaken_eq hnumber, decide_eq_true hi]
    rfl
  · rintro ⟨⟨i, hi⟩, htaken⟩
    rw [hlisted.isTaken_eq hi, Bool.not_eq_false', decide_eq_true_eq] at htaken
    exact List.mem_map.2 ⟨i, htaken, hp.advance_eq hi⟩

theorem Placed.nodup_freeFrames (hp : p.Placed) (hlisted : p.Listed) : p.freeFrames.Nodup := by
  refine List.Nodup.map_on (fun i hi j hj hij => ?_) hlisted.nodup
  have hnumber := hp.number?_advance (hlisted.lt_of_mem hi)
  rw [hij, hp.number?_advance (hlisted.lt_of_mem hj)] at hnumber
  exact (Option.some.inj hnumber).symm

/-! ## Requests -/

/-- The first number that will do is picked, and the others stay in order. -/
theorem pick_eq {ok : Nat → Except Fault Bool} {will : Nat → Bool} {indices : List Nat}
    (h : ∀ i ∈ indices, ok i = .ok (will i)) :
    (pick ok indices = .ok none ∧ ∀ i ∈ indices, will i = false) ∨
      ∃ before i after, indices = before ++ i :: after ∧
        pick ok indices = .ok (some (i, before ++ after)) ∧ will i = true ∧
        ∀ j ∈ before, will j = false := by
  induction indices with
  | nil => exact .inl ⟨rfl, nofun⟩
  | cons i rest ih =>
    have hi := h i List.mem_cons_self
    cases hwill : will i with
    | true =>
      refine .inr ⟨[], i, rest, rfl, ?_, hwill, nofun⟩
      simp only [pick, hi, hwill]
      rfl
    | false =>
      rcases ih fun j hj => h j (List.mem_cons_of_mem i hj) with
        ⟨hnone, hall⟩ | ⟨before, j, after, rfl, hsome, hj, hbefore⟩
      · refine .inl ⟨?_, List.forall_mem_cons.2 ⟨hwill, hall⟩⟩
        simp only [pick, hi, hwill, hnone]
        rfl
      · refine .inr ⟨i :: before, j, after, rfl, ?_, hj, List.forall_mem_cons.2 ⟨hwill, hbefore⟩⟩
        simp only [pick, hi, hwill, hsome]
        rfl

/-- The pool after a request was counted. -/
def spent (p : Pool) : Pool := { p with budget := p.budget.map (· - 1) }

theorem isTaken_spent (p : Pool) (f : PageFrame) : p.spent.isTaken f = p.isTaken f := by
  rw [isTaken_eq_any, isTaken_eq_any]
  rfl

theorem spend_eq (p : Pool) :
    spend p = if p.budget = some 0 then .ok false p else .ok true p.spent := by
  obtain ⟨base, slots, free, budget⟩ := p
  rcases budget with _ | _ | n <;> rfl

theorem Rewritten.freeFrames (h : p.Rewritten q) : q.freeFrames = p.freeFrames := by
  rw [Pool.freeFrames, Pool.freeFrames, h.free, h.base]

/-- What handing out `f` on a request under `policy` makes of the pool `p`. The frame is the first
on the free list that will do. -/
structure Served (p : Pool) (policy : FramePolicy) (f : PageFrame) (q : Pool) : Prop where
  base : q.base = p.base
  size : q.slots.size = p.slots.size
  listed : q.Listed
  budget : q.budget = p.budget.map (· - 1)
  accepts : policy.accepts f = true
  free : ∃ before after, p.freeFrames = before ++ f :: after ∧ q.freeFrames = before ++ after ∧
    ∀ g ∈ before, policy.accepts g = false
  taken : ∀ g, q.isTaken g = if g = f then true else p.isTaken g

theorem Served.find? (h : p.Served policy f q) : p.freeFrames.find? policy.accepts = some f := by
  obtain ⟨before, after, hfree, -, hbefore⟩ := h.free
  refine List.find?_eq_some_iff_append.2 ⟨h.accepts, before, after, hfree, fun g hg => ?_⟩
  rw [hbefore g hg]
  rfl

theorem Served.mem (h : p.Served policy f q) : f ∈ p.freeFrames := List.mem_of_find?_eq_some h.find?

theorem Served.rewritten {u : Pool} (h : p.Served policy f q) (hqu : q.Rewritten u) :
    p.Served policy f u where
  base := hqu.base.trans h.base
  size := hqu.size.trans h.size
  listed := hqu.listed h.listed
  budget := hqu.budget.trans h.budget
  accepts := h.accepts
  free := by
    rw [hqu.freeFrames]
    exact h.free
  taken g := (hqu.isTaken g).trans (h.taken g)

/-- The pool that has handed out the frame of number `i`. -/
theorem Placed.served {before after : List Nat} (hp : p.Placed) (hlisted : p.Listed)
    (hfree : p.free = before ++ i :: after) (hi : policy.accepts (p.base.advance i) = true)
    (hbefore : ∀ j ∈ before, policy.accepts (p.base.advance j) = false) :
    p.Served policy (p.base.advance i) (p.spent.marked i true (before ++ after)) where
  base := rfl
  size := marked_size
  listed := by
    have hperm : p.spent.free.Perm (i :: (before ++ after)) := by
      change p.free.Perm _
      rw [hfree]
      exact List.perm_middle
    exact Listed.marked_true (p := p.spent) ⟨hlisted.nodup, hlisted.mem_free⟩ hperm
  budget := rfl
  accepts := hi
  free := by
    refine ⟨before.map p.base.advance, after.map p.base.advance, ?_, List.map_append, ?_⟩
    · rw [freeFrames, hfree, List.map_append, List.map_cons]
    · intro g hg
      obtain ⟨j, hj, rfl⟩ := List.mem_map.1 hg
      exact hbefore j hj
  taken g := by
    have hmem : i ∈ p.free := by
      rw [hfree]
      exact List.mem_append_right _ List.mem_cons_self
    have hnumber : p.spent.number? (p.base.advance i) = some i :=
      hp.number?_advance (hlisted.lt_of_mem hmem)
    rw [isTaken_marked hnumber, isTaken_spent]

/-- What a request comes to: it is refused at once, there is no frame for it, or it gets one. -/
inductive Answered (p : Pool) (policy : FramePolicy) : Option PageFrame → Pool → Prop
  | refused (budget : p.budget = some 0) : Answered p policy none p
  | starved (budget : p.budget ≠ some 0)
    (lacking : ∀ f ∈ p.freeFrames, policy.accepts f = false) : Answered p policy none p.spent
  | served {f : PageFrame} {q : Pool} (budget : p.budget ≠ some 0) (served : p.Served policy f q)
    (zero : policy.has .zero = true → q.page f = Page.zero) : Answered p policy (some f) q

theorem take_answers (hp : p.Placed) (hlisted : p.Listed) (policy : FramePolicy) :
    Yields (take policy) p (p.Answered policy) := by
  by_cases hbudget : p.budget = some 0
  · refine Ends.bind_ok ((spend_eq p).trans (if_pos hbudget)) ?_
    exact Ends.pure (.refused hbudget)
  refine Ends.bind_ok ((spend_eq p).trans (if_neg hbudget)) (Ends.bind_get ?_)
  have hsuits : ∀ i ∈ p.free, p.spent.suits policy i = .ok (policy.accepts (p.base.advance i)) :=
    fun i hi => Placed.suits (p := p.spent) hp policy (hlisted.lt_of_mem hi)
  rcases pick_eq hsuits with ⟨hnone, hall⟩ | ⟨before, i, after, hfree, hsome, hi, hbefore⟩
  · refine Ends.bind_lift hnone (Ends.pure (.starved hbudget fun f hf => ?_))
    obtain ⟨i, hmem, rfl⟩ := List.mem_map.1 hf
    exact hall i hmem
  have hlt : i < p.slots.size := hlisted.lt_of_mem (by
    rw [hfree]
    exact List.mem_append_right _ List.mem_cons_self)
  have hat : p.spent.frameAt i = .ok (p.base.advance i) := Placed.frameAt (p := p.spent) hp hlt
  have hserved := hp.served hlisted hfree hi hbefore
  refine Ends.bind_lift hsome (Ends.bind_modify (Ends.bind_lift hat ?_))
  by_cases hzero : policy.has .zero = true
  · have hnumber : (p.spent.marked i true (before ++ after)).number? (p.base.advance i) = some i :=
      number?_marked.trans (hp.number?_advance hlt)
    simp only [hzero, if_true]
    exact Ends.bind_ok (zero_eq hnumber) (Ends.pure (.served hbudget
      (hserved.rewritten (rewritten_rewrite _ _ _)) fun _ => page_rewrite_self hnumber))
  · simp only [hzero]
    exact Ends.pure (.served hbudget hserved fun h => absurd h hzero)

/-- The answer, as the free list and the budget have it. -/
theorem Answered.eq {answer : Option PageFrame} (h : p.Answered policy answer q) :
    answer = if p.budget = some 0 then none else p.freeFrames.find? policy.accepts := by
  cases h with
  | refused hbudget => rw [if_pos hbudget]
  | starved hbudget hlacking =>
    rw [if_neg hbudget, List.find?_eq_none.2]
    intro f hf
    rw [hlacking f hf]
    exact Bool.false_ne_true
  | served hbudget hserved => rw [if_neg hbudget, hserved.find?]

/-! ## Frames that come back -/

/-- What taking the frame back makes of the pool. It is the first on the free list now. -/
structure Restored (p : Pool) (f : PageFrame) (q : Pool) : Prop where
  base : q.base = p.base
  size : q.slots.size = p.slots.size
  listed : q.Listed
  budget : q.budget = p.budget
  free : q.freeFrames = f :: p.freeFrames
  taken : ∀ g, q.isTaken g = if g = f then false else p.isTaken g

theorem giveBack_restores (hp : p.Placed) (hlisted : p.Listed) (h : p.isTaken f = true) :
    ∃ q, giveBack f p = .ok () q ∧ p.Restored f q := by
  obtain ⟨i, hf⟩ := exists_number?_of_isTaken h
  have hused : (p.slots[i]?).any Slot.inUse = true := by
    rw [← slot?_eq hf, ← isTaken_eq_any]
    exact h
  rw [Array.getElem?_eq_getElem (number?_lt hf), Option.any_some] at hused
  refine ⟨p.marked i false (i :: p.free), ?_, rfl, marked_size, hlisted.marked_false hf h, rfl, ?_,
    fun g => isTaken_marked hf⟩
  · simp only [giveBack, bind, EStateM.bind, get_apply, indexOf?_of_number? hf, Fin.getElem_fin,
      hused, if_true]
    rfl
  · exact congrArg (· :: p.freeFrames) (hp.advance_eq hf)

theorem giveBack_refuses (h : p.isTaken f = false) : ∃ e, giveBack f p = .error e p := by
  have hends := giveBack_faults h
  rw [Ends] at hends
  split at hends
  next => exact hends.elim
  next e q hq => exact ⟨e, hends ▸ hq⟩

/-! ## Stores -/

/-- A store of bytes changes contents at most. -/
theorem setBytes_ends (a : PhysAddr) (data : List UInt8) :
    Ends (setBytes a data) p (fun _ q => p.Rewritten q) fun _ q => p.Rewritten q := by
  rw [setBytes]
  split
  next =>
    refine Ends.bind (Q := fun _ q => q = p) ?_ ?_
    · refine Ends.bind_get ?_
      split
      · exact Ends.pure rfl
      · exact Ends.throw (.refl p)
    · rintro i _ rfl
      exact rewritten_modifyContent _ i _
  next => exact Ends.throw (.refl p)

/-! ## Accounts -/

/-- What may be asked of a pool: frames, and its memory. -/
inductive Turn where
  | call (call : FrameCall)
  | store (a : PhysAddr) (data : List UInt8)

/-- A pool, and who has had its frames. -/
structure Account where
  pool : Pool
  /-- the frames that were handed out and did not come back since -/
  out : List PageFrame
  /-- all that ever came back, the last one first -/
  back : List PageFrame

namespace Account

variable {s t : Account} {base : PageFrame} {count : Nat}

def create (base : PageFrame) (count : Nat) : Account := ⟨Pool.create base count, [], []⟩

/-- The account after a turn. A turn that faults ends there, and the next one goes on from what it
left. -/
def after (s : Account) : Turn → Account
  | .call (.take policy) =>
    match take policy s.pool with
    | .ok (some f) pool => { s with pool, out := f :: s.out }
    | .ok none pool => { s with pool }
    | .error _ pool => { s with pool }
  | .call (.giveBack f) =>
    match giveBack f s.pool with
    | .ok _ pool => { pool, out := s.out.erase f, back := f :: s.back }
    | .error _ pool => { s with pool }
  | .call (.failAfter n) => { s with pool := s.pool.failAfter n }
  | .call .clearFailure => { s with pool := s.pool.clearFailure }
  | .store a data =>
    match setBytes a data s.pool with
    | .ok _ pool => { s with pool }
    | .error _ pool => { s with pool }

def run (s : Account) (turns : List Turn) : Account := turns.foldl after s

/-- The frames in the order in which they are handed out again: the one that came back last goes
first, and those that never came back follow from the lowest on. -/
def queue (s : Account) : List PageFrame := s.back ++ s.pool.frames

/-- What every turn keeps. -/
structure Kept (s : Account) (base : PageFrame) (count : Nat) : Prop where
  base : s.pool.base = base
  size : s.pool.slots.size = count
  placed : s.pool.Placed
  listed : s.pool.Listed
  counted : s.pool.free.length + s.out.length = count
  nodup : s.out.Nodup
  taken : ∀ f, s.pool.isTaken f = true ↔ f ∈ s.out
  /-- the free list is the queue without the frames that are in use -/
  order : ∀ ok : PageFrame → Bool,
    s.pool.freeFrames.find? ok = s.queue.find? fun f => !s.pool.isTaken f && ok f

/-- The same frames free and in use. -/
theorem Kept.of_same (h : s.Kept base count) {q : Pool} (hbase : q.base = s.pool.base)
    (hsize : q.slots.size = s.pool.slots.size) (hlisted : q.Listed) (hfree : q.free = s.pool.free)
    (htaken : ∀ f, q.isTaken f = s.pool.isTaken f) : Kept { s with pool := q } base count where
  base := hbase.trans h.base
  size := hsize.trans h.size
  placed := h.placed.congr hbase hsize
  listed := hlisted
  counted := by
    rw [hfree]
    exact h.counted
  nodup := h.nodup
  taken f := by
    rw [htaken]
    exact h.taken f
  order ok := by
    simp only [htaken]
    rw [queue, freeFrames, frames_congr hbase hsize, hbase, hfree]
    exact h.order ok

theorem Kept.withBudget (h : s.Kept base count) (budget : Option Nat) :
    Kept { s with pool := { s.pool with budget } } base count := by
  refine h.of_same (q := { s.pool with budget }) rfl rfl ⟨h.listed.nodup, h.listed.mem_free⟩ rfl
    fun f => ?_
  rw [isTaken_eq_any, isTaken_eq_any]
  rfl

theorem Kept.rewritten (h : s.Kept base count) {q : Pool} (hq : s.pool.Rewritten q) :
    Kept { s with pool := q } base count :=
  h.of_same hq.base hq.size (hq.listed h.listed) hq.free hq.isTaken

/-- A search that passes over one member is a search among the others. -/
theorem find?_others {before after : List PageFrame} {f : PageFrame} (ok : PageFrame → Bool)
    (hnodup : (before ++ f :: after).Nodup) :
    (before ++ after).find? ok = (before ++ f :: after).find? fun g => !decide (g = f) && ok g := by
  have hnotin := (List.nodup_cons.1 (List.nodup_middle.1 hnodup)).1
  rw [List.mem_append, not_or] at hnotin
  have hkeeps : ∀ {list : List PageFrame}, f ∉ list →
      list.filter (fun g => !decide (g = f)) = list := fun hf =>
    List.filter_eq_self.2 fun g hg => by
      rw [Bool.not_eq_true', decide_eq_false_iff_not]
      rintro rfl
      exact hf hg
  have hsearch : ((before ++ f :: after).filter fun g => !decide (g = f)).find? ok =
      (before ++ f :: after).find? fun g => !decide (g = f) && ok g := by
    simp only [List.find?_filter, Bool.decide_and, Bool.decide_eq_true]
  rw [← hsearch, List.filter_append, List.filter_cons_of_neg (by simp), hkeeps hnotin.1,
    hkeeps hnotin.2]

theorem Kept.served (h : s.Kept base count) {policy : FramePolicy} {f : PageFrame} {q : Pool}
    (hq : s.pool.Served policy f q) :
    Kept { s with pool := q, out := f :: s.out } base count := by
  obtain ⟨before, after, hfree, hfree', -⟩ := hq.free
  have hnodup := h.placed.nodup_freeFrames h.listed
  have hfresh := ((h.placed.mem_freeFrames h.listed).1 hq.mem).2
  refine ⟨hq.base.trans h.base, hq.size.trans h.size, h.placed.congr hq.base hq.size, hq.listed, ?_,
    List.nodup_cons.2 ⟨?_, h.nodup⟩, fun g => ?_, fun ok => ?_⟩
  · have hcounted := h.counted
    rw [← length_freeFrames, hfree, List.length_append, List.length_cons] at hcounted
    rw [← length_freeFrames, hfree', List.length_append, List.length_cons]
    omega
  · rw [← h.taken, hfresh]
    exact Bool.false_ne_true
  · rw [hq.taken, List.mem_cons, ← h.taken]
    split <;> simp [*]
  · have hok : (fun g => !s.pool.isTaken g && (!decide (g = f) && ok g)) =
        fun g => !q.isTaken g && ok g := by
      funext g
      rw [hq.taken]
      by_cases hg : g = f <;> simp [hg]
    rw [hfree] at hnodup
    rw [hfree', find?_others ok hnodup, ← hfree, h.order, hok, queue, queue,
      frames_congr hq.base hq.size]

theorem Kept.restored (h : s.Kept base count) {f : PageFrame} {q : Pool}
    (htaken : s.pool.isTaken f = true) (hq : s.pool.Restored f q) :
    Kept ⟨q, s.out.erase f, f :: s.back⟩ base count := by
  have hout := (h.taken f).1 htaken
  have hself : q.isTaken f = false := (hq.taken f).trans (if_pos rfl)
  refine ⟨hq.base.trans h.base, hq.size.trans h.size, h.placed.congr hq.base hq.size, hq.listed, ?_,
    h.nodup.erase f, fun g => ?_, fun ok => ?_⟩
  · have hcounted := h.counted
    have hlength := List.length_erase_add_one hout
    rw [← length_freeFrames] at hcounted
    rw [← length_freeFrames, hq.free, List.length_cons]
    dsimp only
    omega
  · rw [hq.taken, h.nodup.mem_erase_iff, ← h.taken]
    split <;> simp [*]
  · have hqueue : queue ⟨q, s.out.erase f, f :: s.back⟩ = f :: s.queue := by
      rw [queue, queue, frames_congr hq.base hq.size, List.cons_append]
    rw [hqueue, hq.free]
    cases hok : ok f with
    | true => rw [List.find?_cons_of_pos hok, List.find?_cons_of_pos (by simp [hself, hok])]
    | false =>
      -- the frame is free now, and the search passes over it as it did before
      have hsame : (fun g => !s.pool.isTaken g && ok g) = fun g => !q.isTaken g && ok g := by
        funext g
        rw [hq.taken]
        by_cases hg : g = f <;> simp [hg, hok]
      rw [List.find?_cons_of_neg (by simp [hok]), List.find?_cons_of_neg (by simp [hok]), h.order,
        hsame]

theorem Kept.after (h : s.Kept base count) (turn : Turn) : (s.after turn).Kept base count := by
  cases turn with
  | call call =>
    cases call with
    | take policy =>
      obtain ⟨answer, q, hrun, hq⟩ := (take_answers h.placed h.listed policy).exists_ok
      simp only [Account.after, hrun]
      cases hq with
      | refused => exact h
      | starved => exact h.withBudget _
      | served _ hserved => exact h.served hserved
    | giveBack f =>
      cases htaken : s.pool.isTaken f with
      | true =>
        obtain ⟨q, hrun, hq⟩ := giveBack_restores h.placed h.listed htaken
        simp only [Account.after, hrun]
        exact h.restored htaken hq
      | false =>
        obtain ⟨e, hrun⟩ := giveBack_refuses htaken
        simp only [Account.after, hrun]
        exact h
    | failAfter n => exact h.withBudget (some n)
    | clearFailure => exact h.withBudget none
  | store a data =>
    have hends := setBytes_ends (p := s.pool) a data
    rw [Ends] at hends
    rw [Account.after]
    split at hends
    next hrun =>
      simp only [hrun]
      exact h.rewritten hends
    next hrun =>
      simp only [hrun]
      exact h.rewritten hends

theorem Kept.run (h : s.Kept base count) (turns : List Turn) : (s.run turns).Kept base count := by
  induction turns generalizing s with
  | nil => exact h
  | cons turn turns ih => exact ih (h.after turn)

theorem kept_create (h : base.base.val.toNat + count * 4096 ≤ 2 ^ 64) :
    (create base count).Kept base count := by
  have hsize : (Pool.create base count).slots.size = count := by simp [Pool.create]
  refine ⟨rfl, hsize, ?_, listed_create, ?_, List.nodup_nil, fun f => ?_, fun ok => ?_⟩
  · change base.base.val.toNat + (Pool.create base count).slots.size * 4096 ≤ 2 ^ 64
    rw [hsize]
    exact h
  · exact List.length_range
  · change (Pool.create base count).isTaken f = true ↔ _
    rw [isTaken_create]
    simp [create]
  · have hframes : (Pool.create base count).frames = (Pool.create base count).freeFrames := by
      rw [frames, hsize]
      rfl
    change (Pool.create base count).freeFrames.find? ok =
      (Pool.create base count).frames.find? fun f => !(Pool.create base count).isTaken f && ok f
    simp only [isTaken_create, Bool.not_false, Bool.true_and, hframes]

/-! ## What clients can rely on -/

/-- What the answer to a request may be. -/
structure Grants (s : Account) (policy : FramePolicy) (answer : Option PageFrame) (q : Pool) :
    Prop where
  /-- of the frames that will do, the one that comes first in the queue -/
  first : answer = if s.pool.budget = some 0 then none else
    s.queue.find? fun f => !s.pool.isTaken f && policy.accepts f
  /-- a frame of the pool that was not in use, as the policy wants it -/
  granted : ∀ f, answer = some f → s.pool.Has f ∧ s.pool.isTaken f = false ∧
    (policy.has .lowMemory = true → f.base.val < lowMemoryLimit) ∧
    (policy.has .zero = true → q.page f = Page.zero)
  /-- nothing, only for one of these reasons -/
  denied : answer = none → s.pool.budget = some 0 ∨ s.pool.free = [] ∨
    policy.has .lowMemory = true ∧ ∀ f ∈ s.pool.freeFrames, ¬ f.base.val < lowMemoryLimit

/-- The books of the pool agree with each other and with what clients have, and the next call will
go by them. -/
structure Fair (s : Account) : Prop where
  nodup : s.pool.free.Nodup
  flags : ∀ (i : Nat) (h : i < s.pool.slots.size),
    s.pool.slots[i].inUse = true ↔ i ∉ s.pool.free
  out : s.out.Nodup
  taken : ∀ f, s.pool.isTaken f = true ↔ f ∈ s.out
  count : s.pool.inUseCount = s.out.length
  answers : ∀ policy, ∃ answer q, take policy s.pool = .ok answer q ∧ s.Grants policy answer q
  accepts : ∀ f, s.pool.Has f ∧ s.pool.isTaken f = true → ∃ q, giveBack f s.pool = .ok () q
  /-- a frame that is none of the pool's or is not in use is refused, and nothing changes -/
  refuses : ∀ f, ¬ (s.pool.Has f ∧ s.pool.isTaken f = true) →
    ∃ e, giveBack f s.pool = .error e s.pool

theorem Kept.grants (h : s.Kept base count) {policy : FramePolicy} {answer : Option PageFrame}
    {q : Pool} (hq : s.pool.Answered policy answer q) : s.Grants policy answer q where
  first := by
    rw [hq.eq, h.order]
  granted f hf := by
    subst hf
    cases hq with
    | served _ hserved hzero =>
      obtain ⟨hhas, hfree⟩ := (h.placed.mem_freeFrames h.listed).1 hserved.mem
      exact ⟨hhas, hfree, FramePolicy.accepts_iff.1 hserved.accepts, hzero⟩
  denied hnone := by
    subst hnone
    cases hq with
    | refused hbudget => exact .inl hbudget
    | starved _ hlacking =>
      refine .inr ?_
      by_cases hempty : s.pool.free = []
      · exact .inl hempty
      have hhigh : ∀ f ∈ s.pool.freeFrames, policy.has .lowMemory = true ∧
          ¬ f.base.val < lowMemoryLimit := fun f hf => by
        have hrefuses := hlacking f hf
        rw [← Bool.not_eq_true, FramePolicy.accepts_iff] at hrefuses
        exact Classical.not_imp.1 hrefuses
      obtain ⟨i, hi⟩ := List.exists_mem_of_ne_nil _ hempty
      exact .inr ⟨(hhigh _ (List.mem_map_of_mem hi)).1, fun f hf => (hhigh f hf).2⟩

theorem Kept.fair (h : s.Kept base count) : s.Fair where
  nodup := h.listed.nodup
  flags i hi := by
    have hmem := h.listed.mem_free i
    rw [Array.getElem?_eq_getElem hi] at hmem
    rw [hmem]
    simp
  out := h.nodup
  taken := h.taken
  count := by
    have hcounted := h.counted
    rw [inUseCount, h.size]
    omega
  answers policy := by
    obtain ⟨answer, q, hrun, hq⟩ := (take_answers h.placed h.listed policy).exists_ok
    exact ⟨answer, q, hrun, h.grants hq⟩
  accepts f hf := by
    obtain ⟨q, hrun, -⟩ := giveBack_restores h.placed h.listed hf.2
    exact ⟨q, hrun⟩
  refuses f hf := giveBack_refuses (Bool.eq_false_of_not_eq_true fun htaken =>
    hf ⟨has_of_isTaken htaken, htaken⟩)

/-- Whatever was asked of a pool of frames that have addresses, it goes on to hand out every frame
once, until it comes back. -/
theorem run_fair (base : PageFrame) (count : Nat)
    (h : base.base.val.toNat + count * 4096 ≤ 2 ^ 64) (turns : List Turn) :
    ((create base count).run turns).Fair ∧
      ((create base count).run turns).pool.base = base ∧
      ((create base count).run turns).pool.slots.size = count :=
  have hkept := (kept_create h).run turns
  ⟨hkept.fair, hkept.base, hkept.size⟩

/-- Three frames around the limit of low memory. -/
theorem border_run_fair :
    ((create (.containing ⟨0xfffff000⟩) 3).run
      [.call (.take .kernelLow), .call (.failAfter 1), .call (.take .kernelLow),
        .call (.giveBack (.containing ⟨0xfffff000⟩)), .call .clearFailure]).Fair :=
  (run_fair (.containing ⟨0xfffff000⟩) 3 (by decide) _).1

end Account

end Pool

end PagedMemory
