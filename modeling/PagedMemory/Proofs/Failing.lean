import Mathlib.Tactic
import PagedMemory.Sync.OnceCell

/-!
# Cells whose initialiser fails

One caller after the other comes to a cell, and initialisers may fail. The cell does not take that:
the first one that fails leaves it as if a value were being written, for good.

* `OnceCell.Request`, `OnceCell.serve`, `OnceCell.serveAll`: calls one after the other, and the
  replies to them.
* `OnceCell.Stands`: what the replies so far say about the cell. `OnceCell.stands_serveAll` says that
  they say so after any calls.
* `OnceCell.serveAll_survives`: as long as nothing is published, a value can be stored if and only if
  no initialiser has failed. `OnceCell.rejected_unpublished` is the case in which one has.
-/

namespace PagedMemory.OnceCell

variable {α : Type}

/-! ## Calls one after the other -/

/-- What a caller comes for. -/
inductive Request (α : Type) where
  | get
  | isInitialized
  | set (v : α)
  /-- the value, or else the one that an initialiser returns, unless it fails -/
  | getOrInit (init : Option α)

/-- What a caller goes away with. -/
inductive Reply (α : Type) where
  | found (v : Option α)
  | initialized (ready : Bool)
  | offered (result : Except α α)
  /-- nothing if the caller waits for good -/
  | obtained (answer : Option (Answer α))

/-- One call from its beginning to its end. A caller that waits for good leaves the cell alone. -/
def serve (c : OnceCell α) : Request α → Reply α × OnceCell α
  | .get => (.found c.get, c)
  | .isInitialized => (.initialized c.isInitialized, c)
  | .set v => (.offered (c.set v).1, (c.set v).2)
  | .getOrInit init => (.obtained (c.getOrInit init).1, (c.getOrInit init).2)

/-- Calls one after the other: the replies, and the cell that is left. -/
def serveAll (c : OnceCell α) : List (Request α) → List (Reply α) × OnceCell α
  | [] => ([], c)
  | request :: rest =>
    ((c.serve request).1 :: ((c.serve request).2.serveAll rest).1,
      ((c.serve request).2.serveAll rest).2)

/-- The value that a caller stored in the cell. -/
def Reply.published : Reply α → Option α
  | offered (.ok v) => some v
  | obtained (some (.value v true)) => some v
  | _ => none

/-- The initialiser of the caller failed. -/
def Reply.IsFailure : Reply α → Prop
  | obtained (some .failed) => True
  | _ => False

/-- Some caller stored `v`. -/
def Published (log : List (Reply α)) (v : α) : Prop := ∃ reply ∈ log, reply.published = some v

/-- Some initialiser failed. -/
def Failed (log : List (Reply α)) : Prop := ∃ reply ∈ log, reply.IsFailure

/-! ## What the replies say about the cell -/

/-- The three ways for a cell to be between calls, and how the replies tell them apart. -/
inductive Stands (log : List (Reply α)) : OnceCell α → Prop where
  | untouched (h : ∀ v, ¬ Published log v) (hf : ¬ Failed log) : Stands log new
  | ready (v : α) (h : ∀ w, Published log w ↔ w = v) (hf : ¬ Failed log) :
    Stands log ⟨.ready, some v⟩
  | abandoned (h : ∀ v, ¬ Published log v) (hf : Failed log) : Stands log ⟨.writing, none⟩

/-- Only what was stored and what failed matters. -/
theorem Stands.congr {log log' : List (Reply α)} {c : OnceCell α} (h : Stands log c)
    (hpublished : ∀ v, Published log' v ↔ Published log v) (hfailed : Failed log' ↔ Failed log) :
    Stands log' c := by
  cases h with
  | untouched hnone hf =>
    exact .untouched (fun v => mt (hpublished v).1 (hnone v)) (mt hfailed.1 hf)
  | ready v hone hf => exact .ready v (fun w => (hpublished w).trans (hone w)) (mt hfailed.1 hf)
  | abandoned hnone hf => exact .abandoned (fun v => mt (hpublished v).1 (hnone v)) (hfailed.2 hf)

theorem published_concat (log : List (Reply α)) (reply : Reply α) (v : α) :
    Published (log ++ [reply]) v ↔ Published log v ∨ reply.published = some v := by
  simp only [Published, List.mem_append, List.mem_singleton, or_and_right, exists_or, exists_eq_left]

theorem failed_concat (log : List (Reply α)) (reply : Reply α) :
    Failed (log ++ [reply]) ↔ Failed log ∨ reply.IsFailure := by
  simp only [Failed, List.mem_append, List.mem_singleton, or_and_right, exists_or, exists_eq_left]

/-- A caller that stored nothing, and whose initialiser did not fail, tells nothing new. -/
theorem Stands.concat_of_mute {log : List (Reply α)} {c : OnceCell α} {reply : Reply α}
    (h : Stands log c) (hnone : reply.published = none) (hf : ¬ reply.IsFailure) :
    Stands (log ++ [reply]) c :=
  h.congr (fun v => by rw [published_concat, hnone]; exact or_iff_left (nomatch ·))
    (by rw [failed_concat]; exact or_iff_left hf)

theorem Stands.concat_of_published {log : List (Reply α)} {reply : Reply α} {v : α}
    (h : Stands log (new : OnceCell α)) (hv : reply.published = some v) (hf : ¬ reply.IsFailure) :
    Stands (log ++ [reply]) ⟨.ready, some v⟩ := by
  cases h with
  | untouched hnone hnever =>
    refine .ready v (fun w => ?_) (by rw [failed_concat]; exact not_or.2 ⟨hnever, hf⟩)
    rw [published_concat, hv, Option.some.injEq, eq_comm]
    exact or_iff_right (hnone w)

theorem Stands.concat_of_failure {log : List (Reply α)} {reply : Reply α}
    (h : Stands log (new : OnceCell α)) (hnone : reply.published = none) (hf : reply.IsFailure) :
    Stands (log ++ [reply]) (⟨.writing, none⟩ : OnceCell α) := by
  cases h with
  | untouched hnever _ =>
    refine .abandoned (fun v => ?_) (by rw [failed_concat]; exact Or.inr hf)
    rw [published_concat, hnone]
    exact not_or.2 ⟨hnever v, nofun⟩

/-- One call. In an untouched cell, the first value or initialiser decides; after that no call
changes the cell or tells anything new. -/
theorem Stands.serve {log : List (Reply α)} {c : OnceCell α} (h : Stands log c)
    (request : Request α) : Stands (log ++ [(c.serve request).1]) (c.serve request).2 := by
  have hstands := h
  cases h with
  | untouched _ _ =>
    cases request with
    | get => exact hstands.concat_of_mute rfl id
    | isInitialized => exact hstands.concat_of_mute rfl id
    | set v => exact hstands.concat_of_published rfl id
    | getOrInit init =>
      cases init with
      | none => exact hstands.concat_of_failure rfl trivial
      | some v => exact hstands.concat_of_published rfl id
  | ready w _ _ => cases request <;> exact hstands.concat_of_mute rfl id
  | abandoned _ _ => cases request <;> exact hstands.concat_of_mute rfl id

/-- What one call preserves, any number of calls preserves. -/
theorem Stands.serveAll {requests : List (Request α)} {log : List (Reply α)} {c : OnceCell α}
    (h : Stands log c) : Stands (log ++ (c.serveAll requests).1) (c.serveAll requests).2 := by
  induction requests generalizing log c with
  | nil => rwa [OnceCell.serveAll, List.append_nil]
  | cons request rest ih =>
    rw [OnceCell.serveAll, List.append_cons]
    exact ih (h.serve request)

theorem stands_new : Stands [] (new : OnceCell α) :=
  .untouched (fun _ ⟨_, h, _⟩ => absurd h List.not_mem_nil) fun ⟨_, h, _⟩ => absurd h List.not_mem_nil

theorem stands_serveAll (requests : List (Request α)) :
    Stands (new.serveAll requests).1 (new.serveAll requests).2 := stands_new.serveAll

/-! ## Waiting for good -/

/-- Whoever looks for a value in an abandoned cell never sees one. -/
theorem settle_waiting (n : Nat) :
    Agent.settle step Phase.atRest n .waiting (⟨.writing, none⟩ : OnceCell α) =
      (.waiting, ⟨.writing, none⟩) := by
  induction n with
  | zero => rfl
  | succ n ih => exact ih

/-- Nor does whoever asks for it with an initialiser at hand, however long that takes. -/
theorem settle_abandoned (init : Option α) (n : Nat) :
    (Agent.settle step Phase.atRest n (.lookingFirst init)
      (⟨.writing, none⟩ : OnceCell α)).1.answer? = none := by
  rcases n with _ | _ | n
  · rfl
  · rfl
  · have hwait := congrArg (·.1.answer?) (settle_waiting (α := α) n)
    exact hwait

/-- **Initialisers that fail**: after any calls, one after the other, the value that is seen is the
one that was stored. A value is accepted, and stored, exactly if none was stored before and no
initialiser has failed; it is handed back exactly if one was stored or an initialiser has failed. In
the latter case there is no value, and whoever asks for one waits for good, whatever comes later. -/
theorem serveAll_survives (requests : List (Request α)) :
    let log := (new.serveAll requests).1
    let c := (new.serveAll requests).2
    (∀ v, c.get = some v ↔ Published log v) ∧
      (∀ v, c.set v = (.ok v, ⟨.ready, some v⟩) ↔ (∀ w, ¬ Published log w) ∧ ¬ Failed log) ∧
      (∀ v, (c.set v).1 = .error v ↔ (∃ w, Published log w) ∨ Failed log) ∧
      (Failed log → c.get = none ∧ c.isInitialized = false ∧ ∀ init n,
        (Agent.settle step Phase.atRest n (.lookingFirst init) c).1.answer? = none) := by
  intro log c
  have hstands : Stands log c := stands_serveAll requests
  clear_value log c
  cases hstands with
  | untouched hnone hf =>
    refine ⟨fun v => ⟨nofun, fun h => absurd h (hnone v)⟩, fun v => ⟨fun _ => ⟨hnone, hf⟩, fun _ => rfl⟩,
      fun v => ⟨nofun, ?_⟩, fun h => absurd h hf⟩
    rintro (⟨w, hw⟩ | h)
    · exact absurd hw (hnone w)
    · exact absurd h hf
  | ready v hone hf =>
    refine ⟨fun w => ?_, fun w => ⟨nofun, fun h => absurd ((hone v).2 rfl) (h.1 v)⟩,
      fun w => ⟨fun _ => Or.inl ⟨v, (hone v).2 rfl⟩, fun _ => rfl⟩, fun h => absurd h hf⟩
    rw [hone, eq_comm]
    exact Option.some_inj
  | abandoned hnone hf =>
    exact ⟨fun v => ⟨nofun, fun h => absurd h (hnone v)⟩, fun v => ⟨nofun, fun h => absurd hf h.2⟩,
      fun v => ⟨fun _ => Or.inr hf, fun _ => rfl⟩,
      fun _ => ⟨rfl, rfl, fun init n => settle_abandoned init n⟩⟩

/-- An initialiser fails, nothing is stored, and yet a value is handed back. -/
theorem rejected_unpublished :
    let log := ((new : OnceCell Nat).serveAll [.getOrInit none, .get]).1
    let c := ((new : OnceCell Nat).serveAll [.getOrInit none, .get]).2
    (∀ v, ¬ Published log v) ∧ c.get = none ∧ (c.set 5).1 = .error 5 ∧ (c.set 5).2.get = none := by
  refine ⟨fun v => ?_, rfl, rfl, rfl⟩
  rintro ⟨reply, hreply, hv⟩
  rcases List.mem_pair.1 hreply with rfl | rfl
  · cases hv
  · cases hv

end PagedMemory.OnceCell
