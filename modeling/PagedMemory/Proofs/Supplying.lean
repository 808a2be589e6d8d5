import Mathlib.Tactic
import PagedMemory.Proofs.Provisioning

/-!
# In which order allocations ask

An allocation asks for the frames and tables of each of its areas in turn: first for the array of the
array, then for the array, and then for the area of the client. It asks for nothing else.

* `Tables.wanted`: the requests of some areas, of each of which the next one holds the handles.
* `complete_solo`: what is left to do of an allocation when its array is there, as
  `Allocator.Completes` says.
* `Supplied`: what an allocation has done that brings areas. `Denied`: what one has asked for that fails.
* `allocateWith_solo`: an allocation that makes its array in such a way.
* `arrayFor_solo`: the arrays are made in such a way, by recursion on how deep they may nest.
* `Allocator.arrayFor_zero`: an array is all zero at first.
* `Hosting.run_asks`: what is asked for in every state that is reached.
-/

namespace PagedMemory

open Layout Tables
open Traced (events)

/-! ## The order of the requests -/

/-- The requests for the frames of `n` pages under `policy`, and then for `k` tables. -/
def FramePolicy.forPages (policy : FramePolicy) (n k : Nat) : List FramePolicy :=
  List.replicate n policy ++ List.replicate k .kernel

/-- All pages of some areas. -/
def Tables.pagesOf : List (Finset Nat) → Finset Nat
  | [] => ∅
  | S :: rest => pagesOf rest ∪ S

/-- The requests of an allocation under `policy` that brings areas with these pages: the first is that
of the client, and each next one holds the handles of the one before, and comes first. -/
def Tables.wanted (p : Pool) (root : PageFrame) : FramePolicy → List (Finset Nat) → List FramePolicy
  | _, [] => []
  | policy, S :: rest => wanted p root policy.forHandles rest ++
      policy.forPages S.card (lackingBeside p root (pagesOf rest) S)

theorem isPrefix_replicate {α : Type} {k n : Nat} (h : k ≤ n) (x : α) :
    List.replicate k x <+: List.replicate n x :=
  ⟨List.replicate (n - k) x, by rw [List.replicate_append_replicate, Nat.add_sub_cancel' h]⟩

section

variable {a : Allocator} {others : Estate} {s t : Shared} {tail : List Holding} {area : Area}
  {handles : HandleArray} {count n : Nat} {policy : FramePolicy} {prot : Entry} {size : UInt64}
  {rs : List FramePolicy} {root : PageFrame} {S : Finset Nat}

/-- The frames that are taken for an area, when the area and its array are there. The tables stay the
same, for the array does not lie in any of them. -/
theorem takeFrames_solo (hc : Collecting a.root s.machine.pool tail handles [])
    (hroom : handles.Room count) (policy : FramePolicy) :
    Solo a others (Allocator.takeFrames policy count 0 handles) (.ofChain tail ++ .ofChain [⟨area, []⟩])
      s fun answer e t _ => (∃ frames, e = underWay frames tail area) ∧
        Furnished a.root ∅ (policy.accepts · = true) s.machine.pool t.machine.pool ∧
        ∃ k ≤ count, t.wishes = s.wishes ++ List.replicate k policy ∧
          (answer.2 = count → k = count) := by
  intro hbooks
  have htake := Recounts.frame (G := (· = s.machine.stated)) (Recounts.of_behaves
    (takeFrames_behaves (T := .strict) policy count hc (by simpa using hroom))
    (Allocator.takeFrames_says policy count 0 handles)) (.ofChain [⟨area, []⟩]) rfl
    (Estate.forall_ofChain.2 fun x _ => nofun)
  refine Solo.imp (Solo.and_done (Solo.of_recounts htake) fun hbooks =>
    Asks.done (Allocator.takeFrames_asks hbooks.pool policy count 0 handles)) ?_ hbooks
  rintro answer _ t es - ⟨⟨_, rfl, ⟨⟨frames, -, rfl, -⟩, -⟩, -⟩, ⟨hdraws, hwishes⟩, -⟩
  rw [Nat.zero_add] at hwishes
  refine ⟨⟨frames, rfl⟩, .of_draws hbooks.tables.held hdraws fun f hf => hbooks.apart f ?_, hwishes⟩
  exact Estate.mem_frames_append.2 (Or.inl (Estate.mem_frames_append.2 (Or.inl
    (Estate.mem_frames_ofChain.2 (hc.rests.subset f hf)))))

/-- Frames have been asked for, and then the tables of some pages. -/
theorem Tables.Opens.forPages {t u : Pool × List FramePolicy} (h : Opens root S t u)
    (hfull : Equipped u.1 root S) (ht : t.2 = rs ++ List.replicate n policy) :
    u.2 = rs ++ policy.forPages n (lacking t.1 root S) := by
  rw [h.all_paid hfull, ht, List.append_assoc, FramePolicy.forPages]

theorem Tables.Falls.forPages {t u : Pool × List FramePolicy} (h : Falls root S t u)
    (ht : t.2 = rs ++ List.replicate n policy) :
    ∃ rs', u.2 = rs ++ rs' ∧ rs' <+: policy.forPages n (lacking t.1 root S) := by
  obtain ⟨c, hc, hu⟩ := h
  refine ⟨List.replicate n policy ++ List.replicate c .kernel, ?_, ?_⟩
  · rw [hu, ht, List.append_assoc]
  · exact List.prefix_self_append_iff.2 (isPrefix_replicate hc _)

/-- What is left to do of an allocation asks for the frames, and then for the tables that the pages of
the area lack. -/
theorem complete_asks (hbooks : Books a s.machine.pool s.registry
      (.ofChain tail ++ .ofChain [⟨area, []⟩] ++ others))
    (hc : Collecting a.root s.machine.pool tail handles []) (hroom : handles.Room count) :
    IfDone (a.complete area.toSpan size count policy prot handles).run s fun answer t =>
      (∀ x, answer = .ok x → x = area.address ∧
        Furnished a.root area.pageSet (policy.accepts · = true) s.machine.pool t.machine.pool ∧
        Equipped t.machine.pool a.root area.pageSet ∧ t.wishes = s.wishes ++
          policy.forPages count (lacking s.machine.pool a.root area.pageSet)) ∧
      ∃ rs, t.wishes = s.wishes ++ rs ∧
        rs <+: policy.forPages count (lacking s.machine.pool a.root area.pageSet) := by
  obtain ⟨⟨handles', obtained⟩, u, es, hrun, hes, mine, hpasses, ⟨frames, rfl⟩, hsame, k, hk, hasked,
    hall⟩ := takeFrames_solo hc hroom policy hbooks
  have hbooksu : Books a u.machine.pool u.registry (underWay frames tail area ++ others) := hpasses.books
  have hareau : area ∈ u.registry.areas := hbooksu.area_mem mem_areasOf_last
  have hlacking : lacking u.machine.pool a.root area.pageSet =
      lacking s.machine.pool a.root area.pageSet := by
    rw [hsame.lacking_eq (equipped_empty _ _) fun n hn =>
      (World.within hbooksu hareau).lt_of_mem_pageSet hn, lackingBeside_empty]
  rw [← hlacking]
  refine IfDone.run_bind (Ends.of_ok hrun (Q := fun answer t => answer = (handles', obtained) ∧ t = u)
    ⟨rfl, rfl⟩) ?_
  rintro _ u ⟨rfl, rfl⟩
  refine IfDone.run_bind (Allocator.mapHandles_asks hbooksu hareau) ?_
  rintro mapped v ⟨hprovided, hfew⟩
  refine IfDone.run_bind (Asks.done (Runs.run_atomically
    (Shared.attach_asks area.address handles' obtained))) ?_
  rintro _ w hw
  obtain ⟨-, hwishesw⟩ := Prod.mk.inj hw
  -- the tables are asked for only if there are all frames
  have hpre : ∃ rs, w.wishes = s.wishes ++ rs ∧
      rs <+: policy.forPages count (lacking u.machine.pool a.root area.pageSet) := by
    by_cases hcount : obtained = count
    · obtain rfl := hall hcount
      rw [hwishesw]
      exact hprovided.falls.forPages hasked
    · refine ⟨List.replicate k policy, ?_, List.prefix_append_of_prefix (isPrefix_replicate hk _)⟩
      rw [hwishesw, (hfew hcount).1, hasked]
  cases mapped with
  | error e =>
    refine IfDone.run_bind (Asks.done (Asks.of_hushed (a.unwind_hushed area.address))) ?_
    rintro _ t ht
    refine Ends.pure ⟨nofun, ?_⟩
    rw [show t.wishes = w.wishes from ht]
    exact hpre
  | ok done =>
    refine IfDone.run_bind (Asks.done (Asks.run_onMachine
      (Asks.report (Q := fun _ t => t = w.shown) rfl))) ?_
    rintro _ t ht
    obtain ⟨hpool, hwishest⟩ := Prod.mk.inj (ht.trans hw)
    refine Ends.pure ⟨fun x hx => ?_, ?_⟩
    · obtain ⟨hopens, hequipped⟩ := hprovided.opens ⟨done, rfl⟩
      have hcount : obtained = count := by
        by_contra hne
        obtain ⟨-, e, he⟩ := hfew hne
        cases he
      obtain rfl := hall hcount
      have hgrown := hsame.trans (hopens.furnished.mono (Finset.Subset.refl _) fun _ => False.elim)
      rw [Finset.empty_union] at hgrown
      refine ⟨(Except.ok.inj hx).symm, hpool ▸ hgrown, hpool ▸ hequipped, ?_⟩
      rw [hwishest]
      exact hopens.forPages hequipped hasked
    · rw [hwishest, ← hwishesw]
      exact hpre

/-- What completing an area comes to whose array lies in the frames of `tail`. -/
def Allocator.Completes (a : Allocator) (area : Area) (count : Nat) (policy : FramePolicy) (prot : Entry)
    (tail : List Holding) (p : Pool) (answer : Except AllocError VirtAddr) (e : Estate) (t : Shared)
    (es : List Event) : Prop :=
  match answer with
  | .error _ => e = ∅ ∧ requests es <+: policy.forPages count (lacking p a.root area.pageSet)
  | .ok x => ∃ h, e = .ofChain (h :: tail) ∧ Built a count prot x h tail t.machine.pool ∧
      h.area.pageSet = area.pageSet ∧
      Furnished a.root area.pageSet (policy.accepts · = true) p t.machine.pool ∧
      Equipped t.machine.pool a.root area.pageSet ∧
      requests es = policy.forPages count (lacking p a.root area.pageSet)

/-- What is left to do of an allocation, when its area and the array are there. -/
theorem complete_solo (hc : Collecting a.root s.machine.pool tail handles [])
    (hroom : handles.Room count) (harea : area.Within a.block) (hkind : area.kind = .allocated)
    (hpages : area.pages = count) (hstart : a.window.range.start.val ≤ area.address.val)
    (hempty : ∀ n, area.Covers n → leafOn s.machine.pool a.root n = .empty) (size : UInt64)
    (policy : FramePolicy) (prot : Entry) :
    Solo a others (a.complete area.toSpan size count policy prot handles)
      (.ofChain tail ++ .ofChain [⟨area, []⟩]) s
      (a.Completes area count policy prot tail s.machine.pool) := by
  refine Solo.imp (Solo.and_done (Solo.of_recounts (complete_recounts hc hroom harea hkind hpages hstart
    hempty size policy prot)) fun hbooks => complete_asks hbooks hc hroom) ?_
  rintro answer e t es - ⟨⟨-, hpost⟩, ⟨hok, rs, hrs, hpre⟩, hwishes⟩
  cases answer with
  | error _ =>
    obtain rfl : requests es = rs := List.append_cancel_left (hwishes.symm.trans hrs)
    exact ⟨hpost.1, hpre⟩
  | ok x =>
    obtain ⟨h, rfl, hbuilt⟩ := hpost
    obtain ⟨rfl, hfurnished, hequipped, hasked⟩ := hok _ rfl
    have hlength : h.area.pages = area.pages := by
      rw [hpages, ← hbuilt.count, (hbuilt.settled h List.mem_cons_self).backed.count]
    refine ⟨h, rfl, hbuilt, ?_, hfurnished, hequipped,
      List.append_cancel_left (hwishes.symm.trans hasked)⟩
    rw [Span.pageSet, Span.pageSet, Span.firstPage, Span.firstPage, hbuilt.address, hlength]

end

/-! ## One area after the other -/

/-- An area with these pages was reserved, and none of them was mapped. -/
def Booked (a : Allocator) (p : Pool) (es : List Event) (S : Finset Nat) : Prop :=
  (∀ n ∈ S, leafOn p a.root n = .empty) ∧
    ∃ span : Span, span.Within a.block ∧ span.pageSet = S ∧ .reported (.reserved span) ∈ es

/-- What an allocation under `policy` has done that has brought areas with these pages. -/
structure Supplied (a : Allocator) (policy : FramePolicy) (sets : List (Finset Nat)) (p q : Pool)
    (es : List Event) : Prop where
  booked : ∀ S ∈ sets, Booked a p es S
  furnished : Furnished a.root (pagesOf sets) (policy.accepts · = true) p q
  equipped : Equipped q a.root (pagesOf sets)
  asked : requests es = wanted p a.root policy sets

/-- What an allocation under `policy` has asked for that has failed, and needed areas of `ns` pages:
nothing, or the first of what these areas want, all of which have been reserved. -/
def Denied (a : Allocator) (policy : FramePolicy) (ns : List Nat) (p : Pool) (es : List Event) : Prop :=
  requests es = [] ∨ ∃ sets : List (Finset Nat), sets.map Finset.card = ns ∧
    (∀ S ∈ sets, Booked a p es S) ∧ requests es <+: wanted p a.root policy sets

section

variable {a : Allocator} {policy : FramePolicy} {p q u : Pool} {S : Finset Nat}
  {rest : List (Finset Nat)} {ns : List Nat} {before es fs after : List Event}

theorem Booked.mono (h : Booked a p es S) (hes : ∀ e ∈ es, e ∈ fs) : Booked a p fs S := by
  obtain ⟨hempty, span, hwithin, hspan, hreserved⟩ := h
  exact ⟨hempty, span, hwithin, hspan, hes _ hreserved⟩

theorem Booked.lt (h : Booked a p es S) : ∀ n ∈ S, n < 512 ^ 4 := by
  obtain ⟨-, span, hwithin, rfl, -⟩ := h
  exact fun n hn => hwithin.lt_of_mem_pageSet hn

theorem Supplied.nil : Supplied a policy [] p p [] where
  booked := nofun
  furnished := .of_tables (fun _ _ _ => rfl) fun _ => Or.inl
  equipped := equipped_empty p a.root
  asked := rfl

/-- The requests of an area are those after what was asked for its array. -/
theorem Supplied.requests_eq (hbefore : Silent before)
    (hrest : Supplied a policy.forHandles rest p q es) :
    requests (before ++ (es ++ fs)) = wanted p a.root policy.forHandles rest ++ requests fs := by
  rw [requests_append, requests_append, hbefore.requests_eq, hrest.asked, List.nil_append]

theorem Supplied.booked_cons (hS : Booked a p before S)
    (hrest : Supplied a policy.forHandles rest p q es) :
    ∀ S' ∈ S :: rest, Booked a p (before ++ (es ++ fs)) S' := by
  refine List.forall_mem_cons.2 ⟨hS.mono fun _ => List.mem_append_left _, fun S' hS' => ?_⟩
  exact (hrest.booked S' hS').mono fun _ he => List.mem_append_right _ (List.mem_append_left _ he)

theorem Supplied.lacking_eq (hS : Booked a p before S)
    (hrest : Supplied a policy.forHandles rest p q es) :
    lacking q a.root S = lackingBeside p a.root (pagesOf rest) S :=
  hrest.furnished.lacking_eq hrest.equipped hS.lt

/-- An area is supplied when its array is. -/
theorem Supplied.cons (hS : Booked a p before S) (hbefore : Silent before)
    (hrest : Supplied a policy.forHandles rest p q es)
    (hfurnished : Furnished a.root S (policy.accepts · = true) q u) (hequipped : Equipped u a.root S)
    (hasked : requests fs = policy.forPages S.card (lacking q a.root S)) :
    Supplied a policy (S :: rest) p u (before ++ (es ++ fs)) where
  booked := hrest.booked_cons hS
  furnished := (hrest.furnished.mono (Finset.Subset.refl _) fun f hf =>
    (policy.accepts_forHandles f).symm.trans hf).trans hfurnished
  equipped := equipped_union (hrest.equipped.of_furnished hfurnished) hequipped
  asked := by
    rw [hrest.requests_eq hbefore, hasked, hrest.lacking_eq hS, wanted]

/-- An area that could not be supplied although its array was. -/
theorem Denied.of_supplied (hS : Booked a p before S) (hbefore : Silent before)
    (hrest : Supplied a policy.forHandles rest p q es)
    (hasked : requests fs <+: policy.forPages S.card (lacking q a.root S)) :
    Denied a policy (S.card :: rest.map Finset.card) p (before ++ (es ++ fs)) := by
  refine Or.inr ⟨S :: rest, rfl, hrest.booked_cons hS, ?_⟩
  rw [hrest.requests_eq hbefore, wanted]
  exact List.prefix_self_append_iff.2 (hrest.lacking_eq hS ▸ hasked)

/-- An area for whose handles there is no array. -/
theorem Denied.of_array (hS : Booked a p before S) (hbefore : Silent before) (hafter : Silent after)
    (h : Denied a policy.forHandles ns p es) :
    Denied a policy (S.card :: ns) p (before ++ (es ++ after)) := by
  have hrequests : requests (before ++ (es ++ after)) = requests es := by
    rw [requests_append, requests_append, hbefore.requests_eq, hafter.requests_eq, List.nil_append,
      List.append_nil]
  rw [Denied, hrequests]
  refine h.imp_right ?_
  rintro ⟨sets, rfl, hsets, hpre⟩
  refine ⟨S :: sets, rfl, ?_, List.prefix_append_of_prefix hpre⟩
  refine List.forall_mem_cons.2 ⟨hS.mono fun _ => List.mem_append_left _, fun S' hS' => ?_⟩
  exact (hsets S' hS').mono fun _ he => List.mem_append_right _ (List.mem_append_left _ he)

/-- What has been brought is put to use, and nothing is asked for. -/
theorem Supplied.then (h : Supplied a policy rest p q es)
    (hq : Furnished a.root ∅ (fun _ => False) q u) (hfs : Silent fs) :
    Supplied a policy rest p u (es ++ fs) where
  booked S hS := (h.booked S hS).mono fun _ => List.mem_append_left _
  furnished := by
    have hthen := h.furnished.trans (hq.mono (Finset.Subset.refl _) fun _ => False.elim)
    rwa [Finset.union_empty] at hthen
  equipped := h.equipped.of_furnished hq
  asked := by
    rw [requests_append, hfs.requests_eq, List.append_nil, h.asked]

end

/-! ## Allocations -/

/-- What the allocation of `n` pages under `policy` comes to for a client that is alone. -/
def Allocator.Provisions (a : Allocator) (levels n : Nat) (policy : FramePolicy) (prot : Entry)
    (p : Pool) (answer : Except AllocError VirtAddr) (e : Estate) (t : Shared) (es : List Event) : Prop :=
  match answer with
  | .error _ => e = ∅ ∧ Denied a policy (n :: HandleArray.nesting levels n) p es
  | .ok x => ∃ h tail, e = .ofChain (h :: tail) ∧ Built a n prot x h tail t.machine.pool ∧
      tail.map (·.frames.length) = HandleArray.nesting levels n ∧
      Supplied a policy ((h :: tail).map (·.area.pageSet)) p t.machine.pool es

/-- What making an array for `count` handles under `policy` comes to for a client that is alone. -/
def Allocator.ProvisionsArray (a : Allocator) (levels count : Nat) (policy : FramePolicy) (p : Pool)
    (answer : Except AllocError HandleArray) (e : Estate) (t : Shared) (es : List Event) : Prop :=
  match answer with
  | .error _ => e = ∅ ∧ Denied a policy (HandleArray.nesting levels count) p es
  | .ok handles => ∃ tail, e = .ofChain tail ∧ Collecting a.root t.machine.pool tail handles [] ∧
      handles.Room count ∧ tail.map (·.frames.length) = HandleArray.nesting levels count ∧
      Supplied a policy (tail.map (·.area.pageSet)) p t.machine.pool es

section

variable {a : Allocator} {others : Estate} {s : Shared} {tail : List Holding} {levels : Nat}

/-- A settled area has as many pages as frames. -/
theorem cards_eq {p : Pool} {root : PageFrame} {chain : List Holding}
    (hsettled : ∀ x ∈ chain, Settled p root x) :
    (chain.map (·.area.pageSet)).map Finset.card = chain.map (·.frames.length) := by
  rw [List.map_map]
  refine List.map_congr_left fun x hx => ?_
  exact (Span.card_pageSet _).trans (hsettled x hx).backed.count.symm

/-- An area is completed when its array has been made. -/
theorem Allocator.Completes.provisions {area : Area} {n : Nat} {policy : FramePolicy} {prot : Entry}
    {p q : Pool} {before es fs : List Event} {answer : Except AllocError VirtAddr} {e : Estate}
    {t : Shared} (h : a.Completes area n policy prot tail q answer e t fs)
    (hbooked : Booked a p before area.pageSet) (hbefore : Silent before)
    (hcard : area.pageSet.card = n) (hsettled : ∀ x ∈ tail, Settled q a.root x)
    (hnesting : tail.map (·.frames.length) = HandleArray.nesting levels n)
    (hrest : Supplied a policy.forHandles (tail.map (·.area.pageSet)) p q es) :
    a.Provisions levels n policy prot p answer e t (before ++ (es ++ fs)) := by
  obtain rfl := hcard
  cases answer with
  | error _ =>
    obtain ⟨rfl, hpre⟩ := h
    refine ⟨rfl, ?_⟩
    rw [← hnesting, ← cards_eq hsettled]
    exact .of_supplied hbooked hbefore hrest hpre
  | ok x =>
    obtain ⟨h, rfl, hbuilt, hset, hfurnished, hequipped, hasked⟩ := h
    refine ⟨h, tail, rfl, hbuilt, hnesting, ?_⟩
    rw [List.map_cons, hset]
    exact .cons hbooked hbefore hrest hfurnished hequipped hasked

/-- To reserve an area asks for nothing, and leaves memory as it is. -/
theorem reserve_solo (size : UInt64) :
    Solo a others (a.reserve size .allocated) ∅ s fun answer e t es => Silent es ∧
      t.machine.pool = s.machine.pool ∧ match answer with
        | .error _ => e = ∅
        | .ok span => ∃ (r : Registry) (area : Area), area.toSpan = span ∧
            r.Fits size .allocated a.window.range area ∧ e = .ofChain [⟨area, []⟩] ∧
            area.Within a.block ∧ Booked a s.machine.pool es area.pageSet := by
  refine Solo.imp (Solo.and_done (Solo.of_recounts (Recounts.of_behaves
    (reserveIn_behaves (fun hbooks => World.window hbooks) (Or.inr a.window.start_lt_stop))
    (Says.atomically (Shared.reserveOrWarn_tells size .allocated a.window.range)))) fun _ =>
      Asks.done (Runs.run_atomically (Shared.reserveOrWarn_asks size .allocated a.window.range))) ?_
  rintro answer e t es - ⟨⟨hreserved, hes, htold⟩, ht, -⟩
  obtain ⟨hpool, -⟩ := Prod.mk.inj ht
  refine ⟨hes, hpool, ?_⟩
  cases answer with
  | error _ => exact hreserved
  | ok span =>
    obtain ⟨r, area, rfl, hfits, rfl, hwithin, hempty⟩ := hreserved
    refine ⟨r, area, rfl, hfits, rfl, hwithin, fun n hn => ?_, area.toSpan, hwithin, rfl, htold _ rfl⟩
    rw [← hpool]
    exact hempty n (Span.mem_pageSet.1 hn)

/-- An allocation asks for its array, then for the frames, and then for the tables. -/
theorem allocateWith_solo {arrayFor : Nat → FramePolicy → Job (Except AllocError HandleArray)}
    (hmake : ∀ (others : Estate) (s : Shared) (count : Nat) (policy : FramePolicy), count < 2 ^ 52 →
      Solo a others (arrayFor count policy) ∅ s
        (a.ProvisionsArray levels count policy.forHandles s.machine.pool))
    (size : UInt64) (policy : FramePolicy) (prot : Entry) :
    Solo a others (a.allocateWith arrayFor size policy prot) ∅ s
      (a.Provisions levels (pagesFor size) policy prot s.machine.pool) := by
  refine Solo.bind_frameTotal ?_
  rcases hpages : Allocator.pageCount? size s.machine.stated with _ | ⟨size', count⟩
  · exact Solo.pure ⟨rfl, Or.inl rfl⟩
  obtain ⟨rfl, hsize, hpos⟩ := Allocator.pageCount?_eq_some hpages
  refine Solo.bind (reserve_solo size') ?_
  rintro answer e t es - ⟨hes, hpool, hreserved⟩
  cases answer with
  | error e =>
    obtain rfl := hreserved
    refine Solo.pure ⟨rfl, Or.inl ?_⟩
    rw [List.append_nil, hes.requests_eq]
  | ok span =>
    obtain ⟨r, area, rfl, hfits, rfl, harea, hbooked⟩ := hreserved
    have hcount : pagesFor size < 2 ^ 52 := by
      have hlt := size'.toNat_lt
      omega
    have hcard : area.pageSet.card = pagesFor size := by
      rw [Span.card_pageSet, hfits.pages_eq hsize]
    refine Solo.bind (Solo.frame (.ofChain [⟨area, []⟩]) (hmake _ t _ policy hcount)) ?_
    rintro answer _ u fs - ⟨mine, rfl, hmine, hspares⟩
    rw [hpool] at hspares hmine
    cases answer with
    | error e =>
      obtain ⟨rfl, hdenied⟩ := hmine
      have hunwind : Recounts a .strict (· = u.machine.stated) (a.unwind area.address)
          (.ofChain [⟨area, []⟩]) u.machine.pool fun _ e _ es => e = ∅ ∧ Silent es :=
        unwind_recounts (h := ⟨area, []⟩) nofun
      refine Solo.bind (Solo.of_recounts hunwind) ?_
      rintro _ _ v gs - ⟨rfl, hgs⟩
      have hwhole := Denied.of_array hbooked hes hgs hdenied
      rw [hcard] at hwhole
      refine Solo.pure ⟨rfl, ?_⟩
      rwa [List.append_nil]
    | ok handles =>
      obtain ⟨tail, rfl, hc, hroom, hnesting, hsupplied⟩ := hmine
      have hempty : ∀ n, area.Covers n → leafOn u.machine.pool a.root n = .empty := fun n hn =>
        (hspares.leaf n (harea.covers_lt hn) (Estate.coveredBy_ofChain.2
          ⟨_, List.mem_singleton_self _, hn⟩)).trans (hbooked.1 n (Span.mem_pageSet.2 hn))
      refine Solo.imp (complete_solo hc hroom harea (congrArg (·.kind) hfits.fresh)
        (hfits.pages_eq hsize) (UInt64.le_iff_toNat_le.2 hfits.start_le) hempty size' policy prot) ?_
      exact fun _ _ _ _ _ hdone =>
        hdone.provisions hbooked hes hcard hc.settled hnesting hsupplied

/-- The arrays that an allocator makes ask for what their areas want. -/
theorem arrayFor_solo (a : Allocator) (levels : Nat) (others : Estate) (s : Shared) (count : Nat)
    (policy : FramePolicy) (hcount : count < 2 ^ 52) :
    Solo a others (a.arrayFor levels count policy) ∅ s
      (a.ProvisionsArray levels count policy.forHandles s.machine.pool) := by
  -- the array of an array may nest one level less
  induction levels generalizing others s count policy with
  | zero =>
    rw [Allocator.arrayFor]
    split
    · exact Solo.pure ⟨[], rfl, collecting_inline count, Nat.le_refl count, rfl, .nil⟩
    · refine Solo.imp (Solo.of_recounts (Recounts.bind_report (R := fun answer e _ es =>
        (∃ e, answer = .error e) ∧ e = ∅ ∧ requests es = []) fun _ _ =>
          Recounts.pure ⟨⟨_, rfl⟩, rfl, rfl⟩)) ?_
      rintro _ _ t es - ⟨⟨e, rfl⟩, rfl, hes⟩
      exact ⟨rfl, Or.inl hes⟩
  | succ levels ih =>
    rw [Allocator.arrayFor]
    split
    next hfits =>
      have hle : count ≤ 512 := of_decide_eq_true hfits
      exact Solo.pure ⟨[], rfl, collecting_inline count, Nat.le_refl count,
        (HandleArray.nesting_of_le hle).symm, .nil⟩
    next hfits =>
      have hlt : ¬ count ≤ 512 := fun hle => hfits (decide_eq_true hle)
      have hnest : HandleArray.nesting (levels + 1) count =
          (count + 511) / 512 :: HandleArray.nesting levels ((count + 511) / 512) := if_neg hlt
      obtain ⟨size, hsize, hpages⟩ := HandleArray.bytesFor_eq_ok hcount
      rw [hsize, Allocator.orFault, pure_bind]
      refine Solo.bind (allocateWith_solo ih _ _ _) ?_
      rintro answer e t es hbooks hq
      rw [hpages] at hq
      cases answer with
      | error e =>
        obtain ⟨rfl, hdenied⟩ := hq
        refine Solo.pure ⟨rfl, ?_⟩
        rwa [List.append_nil, hnest]
      | ok base =>
        obtain ⟨h, tail, rfl, hbuilt, hnesting, hsupplied⟩ := hq
        have hroom : count ≤ h.frames.length * handlesPerFrame := by
          have hlength := hbuilt.count
          change count ≤ h.frames.length * 512
          omega
        rw [← hbuilt.address]
        refine Solo.imp (Solo.and_done (Solo.of_recounts (Recounts.of_behaves
          (arrayIn_behaves hbuilt.settled hroom) (a.arrayIn_hushed h.area.address count))) fun _ =>
            Asks.done (Allocator.arrayIn_asks h.area.address count)) ?_
        rintro _ _ u fs - ⟨⟨⟨rfl, handles, rfl, hc, hroom⟩, hfs⟩, ⟨-, hcleared⟩, -⟩
        obtain ⟨hdraws, -⟩ := hcleared handles rfl
        refine ⟨h :: tail, rfl, hc, hroom, ?_, hsupplied.then ?_ hfs⟩
        · rw [hnest, List.map_cons, hbuilt.count, hnesting]
        · refine .of_draws hbooks.tables.held (hdraws hbooks.pool) fun f hf => hbooks.apart f ?_
          exact Estate.mem_frames_append.2 (Or.inl
            (Estate.mem_frames_ofChain.2 (hc.rests.subset f hf)))

end

/-! ## What arrays hold at first -/

/-- The frames of an array are all zero when it is made, whoever has left what in them. -/
theorem Allocator.arrayFor_zero {a : Allocator} {levels count : Nat} {policy : FramePolicy}
    {s t : Shared} {handles : HandleArray}
    (h : (a.arrayFor levels count policy).run s = .ok (.ok handles) t) :
    ∀ f ∈ handles.backing, t.machine.pool.page f = Page.zero := by
  have hfailed : ∀ (e : AllocError) (t : Shared) handles,
      Except.error e = (.ok handles : Except AllocError HandleArray) →
      ∀ f ∈ handles.backing, t.machine.pool.page f = Page.zero := by
    intro e t handles he
    cases he
  have hinline : ∀ handles, Except.ok (.inline count #[]) = (.ok handles : Except AllocError HandleArray) →
      ∀ f ∈ handles.backing, s.machine.pool.page f = Page.zero := by
    rintro _ ⟨⟩ f hf
    cases hf
  have hzero : IfDone (a.arrayFor levels count policy).run s fun answer t =>
      ∀ handles, answer = .ok handles → ∀ f ∈ handles.backing, t.machine.pool.page f = Page.zero := by
    cases levels with
    | zero =>
      rw [arrayFor]
      split
      · exact Ends.pure hinline
      · exact IfDone.run_bind (.trivial _ _) fun _ t _ => Ends.pure (hfailed _ t)
    | succ levels =>
      rw [arrayFor]
      split
      · exact Ends.pure hinline
      · refine IfDone.run_bind (.trivial _ _) fun size u _ => ?_
        refine IfDone.run_bind (.trivial _ _) fun answer t _ => ?_
        cases answer with
        | error e => exact Ends.pure (hfailed e t)
        | ok base =>
          exact (Asks.done (arrayIn_asks base count)).mono
            (fun _ _ hu handles hhandles => (hu.2 handles hhandles).2) fun _ _ _ => trivial
  exact hzero.of_eq_ok h handles rfl

/-! ## What is asked for -/

/-- What is asked for is meant for the client, or for handles, or for tables. -/
theorem Tables.mem_wanted {p : Pool} {root : PageFrame} {policy q : FramePolicy}
    {sets : List (Finset Nat)} (hq : q ∈ wanted p root policy sets) :
    q = policy ∨ q = policy.forHandles ∨ q = .kernel := by
  induction sets generalizing policy with
  | nil => cases hq
  | cons S rest ih =>
    rw [wanted, FramePolicy.forPages] at hq
    rcases List.mem_append.1 hq with hq | hq
    · have harray := ih hq
      rw [FramePolicy.forHandles_forHandles] at harray
      exact Or.inr (harray.elim Or.inl id)
    rcases List.mem_append.1 hq with hq | hq
    · exact Or.inl (List.eq_of_mem_replicate hq)
    · exact Or.inr (Or.inr (List.eq_of_mem_replicate hq))

theorem Tables.mem_wanted_forHandles {p : Pool} {root : PageFrame} {policy q : FramePolicy}
    {sets : List (Finset Nat)} (hq : q ∈ wanted p root policy.forHandles sets) :
    q = policy.forHandles ∨ q = .kernel := by
  have hany := mem_wanted hq
  rw [FramePolicy.forHandles_forHandles] at hany
  exact hany.elim Or.inl id

/-- Only for the client a frame may be asked for that lies outside the direct map. -/
theorem Tables.eq_or_highMemory_of_mem_wanted {p : Pool} {root : PageFrame} {policy q : FramePolicy}
    {sets : List (Finset Nat)} (hq : q ∈ wanted p root policy sets) :
    q = policy ∨ q.has .highMemory = false := by
  rcases mem_wanted hq with rfl | rfl | rfl
  · exact Or.inl rfl
  · exact Or.inr (FramePolicy.has_forHandles policy .highMemory)
  · exact Or.inr (by decide)

section

variable {a : Allocator} {policy : FramePolicy} {s s' : Shared} {es : List Event}

theorem Allocator.Provisions.eq_or_highMemory {levels n : Nat} {prot : Entry} {p : Pool}
    {answer : Except AllocError VirtAddr} {e : Estate}
    (h : a.Provisions levels n policy prot p answer e s es) :
    ∀ q ∈ requests es, q = policy ∨ q.has .highMemory = false := by
  intro q hq
  cases answer with
  | error _ =>
    obtain ⟨-, hdenied⟩ := h
    rcases hdenied with hnone | ⟨sets, -, -, hpre⟩
    · rw [hnone] at hq
      cases hq
    · exact eq_or_highMemory_of_mem_wanted (hpre.mem hq)
  | ok x =>
    obtain ⟨h, tail, -, -, -, hsupplied⟩ := h
    rw [hsupplied.asked] at hq
    exact eq_or_highMemory_of_mem_wanted hq

/-- What is newly owned will do for the policy, for it is no table. -/
theorem Supplied.lt_lowMemoryLimit {sets : List (Finset Nat)} {fresh : List Area}
    (h : Supplied a policy sets s.machine.pool s'.machine.pool es) (hgains : s.Gains a fresh s')
    (hlow : policy.has .lowMemory = true) :
    ∀ b ∈ fresh, ∀ f ∈ b.ownFrames s'.machine, f.base.val < lowMemoryLimit := by
  intro b hb f hf
  have hmem : f ∈ fresh.flatMap (·.ownFrames s'.machine) := List.mem_flatMap.2 ⟨b, hb, hf⟩
  obtain ⟨htaken, hfree⟩ := (hgains.taken f).2 (Or.inl hmem)
  rcases h.furnished.taken f htaken with hold | htable | haccepts
  · exact absurd hold (Bool.eq_false_iff.1 hfree)
  · exact absurd (mem_all_iff.2 htable) ((List.nodup_append'.1 hgains.nodup).2.2 hmem)
  · exact FramePolicy.accepts_iff.1 haccepts hlow

end

namespace Hosting

variable {base : PageFrame} {count : Nat} {front : Front} {t : Hosting} {deeds : List Deed} {k : Nat}
  {v : Tenant}

/-- **Requests**: an allocation that brings something has asked just for what its areas want, one area
after the other, that of the client last. One that fails has asked for nothing, or for the first of what
the areas want that it had reserved. Nothing but frames for the client is asked for outside the direct
map. All frames lie in low memory if that is wished, and arrays are cleared before they are used. -/
theorem run_asks (hpool : base.base.val.toNat + count * 4096 ≤ 2 ^ 52)
    (hproper : (create base count front).Proper deeds) (ht : (create base count front).run deeds = t)
    (hv : t.tenant? k = some v) (size : UInt64) (policy : FramePolicy) (prot : Entry) :
    ∃ answer s es, (v.allocator.allocate size policy prot).run (t.shared v) = .ok answer s ∧
      events s = events (t.shared v) ++ es ∧
      (∀ x, answer = .ok x → ∃ area arrays, (t.shared v).Gains v.allocator (area :: arrays) s ∧
        s.Provides v.allocator (pagesFor size) prot x area arrays ∧
        ((area :: arrays).map (·.pageSet)).map Finset.card =
          pagesFor size :: HandleArray.nesting maxNesting (pagesFor size) ∧
        requests es = wanted t.pool v.allocator.root policy ((area :: arrays).map (·.pageSet)) ∧
        (policy.has .lowMemory = true → ∀ b ∈ area :: arrays, ∀ f ∈ b.ownFrames s.machine,
          f.base.val < lowMemoryLimit)) ∧
      (∀ e, answer = .error e → Denied v.allocator policy
        (pagesFor size :: HandleArray.nesting maxNesting (pagesFor size)) t.pool es) ∧
      (∀ q ∈ requests es, q = policy ∨ q.has .highMemory = false) ∧
      (∀ sets, ∀ q ∈ wanted t.pool v.allocator.root policy.forHandles sets,
        q = policy.forHandles ∨ q = .kernel) ∧
      (∀ levels n policy s s' handles,
        (v.allocator.arrayFor levels n policy).run s = .ok (.ok handles) s' →
        ∀ f ∈ handles.backing, s'.machine.pool.page f = Page.zero) := by
  obtain ⟨rolls, hkept⟩ := kept_run hpool hproper ht
  obtain ⟨loose, hroll⟩ := hkept.tenant k v hv
  have hw : World v.allocator (t.shared v).machine.pool (t.shared v).registry loose (rolls k).chains :=
    hroll.world
  have hbooks : Books v.allocator (t.shared v).machine.pool (t.shared v).registry
      (∅ ++ ⟨loose, (rolls k).chains⟩) := hw
  obtain ⟨answer, s, es, hrun, hes, mine, hpasses, hpost⟩ := allocateWith_solo
    (arrayFor_solo v.allocator maxNesting) size policy prot hbooks
  refine ⟨answer, s, es, hrun, hes, ?_, ?_, hpost.eq_or_highMemory, fun _ _ => mem_wanted_forHandles,
    fun _ _ _ _ _ _ => Allocator.arrayFor_zero⟩
  · rintro x rfl
    obtain ⟨h, tail, rfl, hbuilt, hnesting, hsupplied⟩ := hpost
    have hw' := books_ofChain.1 hpasses.books
    have hgains := hw.gains hw' hpasses.spares
    have hsets : (h.area :: tail.map Holding.area).map (·.pageSet) =
        (h :: tail).map (·.area.pageSet) := by
      rw [← List.map_cons, List.map_map]
      rfl
    refine ⟨h.area, tail.map Holding.area, hgains, hw'.provides hbuilt hnesting, ?_, ?_,
      hsupplied.lt_lowMemoryLimit hgains⟩
    · rw [hsets, cards_eq hbuilt.settled, List.map_cons, hbuilt.count, hnesting]
    · rw [hsets]
      exact hsupplied.asked
  · rintro e rfl
    exact hpost.2

/-- Three pages in low memory. Their tables are there already. -/
theorem small_run_asks : ∃ t v s es area, small.Proper smallRun ∧ small.run smallRun = t ∧
    t.tenant? 0 = some v ∧ (v.allocator.allocateLow 9000).run (t.shared v) = .ok (.ok ⟨0x16000⟩) s ∧
    events s = events (t.shared v) ++ es ∧ (t.shared v).Gains v.allocator [area] s ∧
    requests es = [.kernelLow, .kernelLow, .kernelLow] ∧
    requests es = wanted t.pool v.allocator.root .kernelLow [area.pageSet] ∧
    ∀ f ∈ area.ownFrames s.machine, f.base.val < lowMemoryLimit := by
  have hproper : small.Proper smallRun := by decide +kernel
  have hgets : (small.run smallRun).answers 0 (fun a => a.allocateLow 9000) (fun v answer s =>
      answer = .ok ⟨0x16000⟩ ∧ requests (events s) =
        requests (events ((small.run smallRun).shared v)) ++ [.kernelLow, .kernelLow, .kernelLow]) =
      true := by decide +kernel
  obtain ⟨t, ht⟩ : ∃ t, small.run smallRun = t := ⟨_, rfl⟩
  rw [ht] at hgets
  obtain ⟨v, answer, s, hv, hrun, hanswer⟩ := exists_of_answers hgets
  obtain ⟨rfl, hrequests⟩ := of_decide_eq_true hanswer
  obtain ⟨answer', s', es, hrun', hes, hbuilt, -⟩ :=
    run_asks (by decide) hproper ht hv 9000 .kernelLow .pageKernel
  obtain ⟨rfl, rfl⟩ := EStateM.Result.ok.inj (hrun.symm.trans hrun')
  obtain ⟨area, arrays, hgains, hprovides, -, hasked, hlow⟩ := hbuilt _ rfl
  have hinline : pagesFor 9000 ≤ 512 := by decide
  obtain rfl : arrays = [] := List.map_eq_nil_iff.1 (hprovides.nested.trans (if_pos hinline))
  rw [hes, requests_append] at hrequests
  exact ⟨t, v, s, es, area, hproper, ht, hv, hrun, hes, hgains, List.append_cancel_left hrequests,
    hasked, hlow (by decide) area List.mem_cons_self⟩

end Hosting

end PagedMemory
