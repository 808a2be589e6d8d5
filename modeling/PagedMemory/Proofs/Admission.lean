import Mathlib.Tactic
import Mathlib.Data.Nat.Bitwise
import PagedMemory.Proofs.Rounding
import PagedMemory.Sync.RwLock

/-!
# Admission to locks for readers and writers

Any number of agents around one lock, whose accesses to the word happen in any order. The word
tells three things at once, and each access has to keep all of them.

* `Crowd`, `Move`, `Crowd.next`: the word, the phases of the agents, and one access of one agent.
* `Crowd.Kept`: what the word tells about the phases, in terms of the number it stands for, and
  what an agent that is about to claim has seen. `Crowd.Kept.put` reduces a move to arithmetic on
  the word; `Crowd.Kept.access` does that arithmetic, access by access.
* `Crowd.Ordered`: the same in terms of the word's bits, and that readers are not shut out.
* `run_orderly`: every state of every run is ordered, and once it is known that a writer waits no
  reader comes in before a writer does.
-/

namespace PagedMemory.RwLock

/-! ## The word as a number -/

section Words

variable (w : UInt64)

theorem toNat_and_writerBit : (w &&& writerBit).toNat = w.toNat % 2 := by
  rw [UInt64.toNat_and]
  exact Nat.and_one_is_mod _

theorem toNat_and_waitingBit : (w &&& waitingBit).toNat = w.toNat / 2 % 2 * 2 := by
  have hbit := Nat.and_two_pow w.toNat 1
  rw [Nat.testBit_succ, Nat.testBit_zero, Nat.pow_one] at hbit
  rw [UInt64.toNat_and]
  refine hbit.trans ?_
  rcases Nat.mod_two_eq_zero_or_one (w.toNat / 2) with h | h <;> simp [h]

theorem toNat_and_bits : (w &&& (writerBit ||| waitingBit)).toNat = w.toNat % 4 := by
  rw [UInt64.toNat_and]
  exact Nat.and_two_pow_sub_one_eq_mod w.toNat 2

theorem toNat_clear_writerBit : (w &&& ~~~writerBit).toNat = w.toNat / 2 * 2 :=
  Word.toNat_alignDown (a := 2) (k := 1) rfl

/-- To announce a writer sets the bit and touches nothing else. -/
theorem toNat_or_waitingBit : (w ||| waitingBit).toNat / 4 = w.toNat / 4 ∧
    (w ||| waitingBit).toNat % 2 = w.toNat % 2 ∧ (w ||| waitingBit).toNat / 2 % 2 = 1 := by
  rw [UInt64.toNat_or]
  refine ⟨?_, ?_, ?_⟩
  · exact (Nat.or_div_two_pow (n := 2)).trans (Nat.or_zero _)
  · exact (Nat.or_mod_two_pow (n := 1)).trans (Nat.or_zero _)
  · have hdiv : (w.toNat ||| waitingBit.toNat) / 2 = w.toNat / 2 ||| 1 := Nat.or_div_two_pow (n := 1)
    rw [hdiv, ← Nat.pow_one 2, Nat.or_mod_two_pow]
    rcases Nat.mod_two_eq_zero_or_one (w.toNat / 2) with h | h <;> simp [h]

theorem readerUnit_le_iff : readerUnit ≤ w ↔ 4 ≤ w.toNat := UInt64.le_iff_toNat_le

theorem toNat_div_readerUnit : (w / readerUnit).toNat = w.toNat / 4 := UInt64.toNat_div ..

variable {w}

theorem toNat_add_readerUnit (h : w.toNat + 4 < 2 ^ 64) : (w + readerUnit).toNat = w.toNat + 4 := by
  rw [UInt64.toNat_add]
  exact Nat.mod_eq_of_lt h

theorem toNat_sub_readerUnit (h : 4 ≤ w.toNat) : (w - readerUnit).toNat = w.toNat - 4 :=
  UInt64.toNat_sub_of_le _ _ ((readerUnit_le_iff w).2 h)

theorem and_waitingBit_ne_zero_iff : w &&& waitingBit ≠ 0 ↔ w.toNat / 2 % 2 = 1 := by
  rw [ne_eq, ← UInt64.toNat_inj, toNat_and_waitingBit, UInt64.toNat_zero]
  omega

theorem and_writerBit_ne_zero_iff : w &&& writerBit ≠ 0 ↔ w.toNat % 2 = 1 := by
  rw [ne_eq, ← UInt64.toNat_inj, toNat_and_writerBit, UInt64.toNat_zero]
  omega

theorem and_bits_eq_zero_iff : w &&& (writerBit ||| waitingBit) = 0 ↔ w.toNat % 4 = 0 := by
  rw [← UInt64.toNat_inj, toNat_and_bits, UInt64.toNat_zero]

end Words

/-- Only an exchange that still finds what it saw lets a reader in. -/
theorem exists_of_step_eq_reading {p : Phase} {w : UInt64} (h : (step p w).1 = .reading) :
    ∃ patient, p = .readClaiming patient w := by
  cases p <;> simp only [step] at h
  case readClaiming patient seen =>
    split at h
    next heq => exact ⟨patient, by rw [heq]⟩
    · cases patient <;> cases h
  case readProbing patient =>
    split at h
    · cases patient <;> cases h
    · cases h
  case writeProbing patient =>
    split at h
    · cases patient <;> cases h
    · cases h
  case writeClaiming patient seen =>
    split at h
    · cases h
    · cases patient <;> cases h
  case checking => split at h <;> cases h
  all_goals cases h

/-! ## The crowd around a lock -/

/-- What an agent can come for; one that comes to `read` or to `write` does not give up. -/
inductive Errand where
  | tryRead
  | read
  | tryWrite
  | write
  deriving DecidableEq

/-- What an agent does first. -/
def Errand.start : Errand → Phase
  | tryRead => .readProbing false
  | read => .readProbing true
  | tryWrite => .writeProbing false
  | write => .writeProbing true

namespace Phase

/-- The agent came to write, does not give up, and has not got the lock yet. -/
def awaits : Phase → Bool
  | writeProbing patient => patient
  | writeClaiming patient _ => patient
  | checking => true
  | announcing => true
  | _ => false

/-- What an agent that is about to claim has seen: a word with both bits clear, or one that tells
of no writer and no reader. -/
def Sound : Phase → Prop
  | readClaiming _ seen => seen.toNat % 4 = 0
  | writeClaiming _ seen => seen.toNat % 2 = 0 ∧ seen.toNat < 4
  | _ => True

/-- 1 for phase `p`, 0 for the others. -/
def tally (p q : Phase) : Nat := if q = p then 1 else 0

theorem tally_self (p : Phase) : p.tally p = 1 := if_pos rfl

theorem tally_of_ne {p q : Phase} (h : q ≠ p) : p.tally q = 0 := if_neg h

end Phase

/-- The word of a lock, and where each agent is. An agent that holds a guard and goes on to come
for another one counts as two. -/
structure Crowd (ι : Type) where
  word : UInt64
  phase : ι → Phase

/-- What happens at one moment. -/
inductive Move (ι : Type) where
  /-- an agent comes for something -/
  | enter (i : ι) (errand : Errand)
  /-- an agent makes its next access; an agent that holds a guard drops it -/
  | access (i : ι)
  deriving DecidableEq

variable {ι : Type} [DecidableEq ι]

namespace Crowd

/-- Nobody is concerned with the lock yet. -/
def start : Crowd ι := ⟨(RwLock.new ()).word, fun _ => .outside⟩

/-- Whether an agent is free to begin something new. -/
def idle (c : Crowd ι) (i : ι) : Bool := c.phase i == .outside || c.phase i == .refused

/-- Agent `i` goes on, and leaves the word as given. -/
def put (c : Crowd ι) (i : ι) (q : Phase × UInt64) : Crowd ι :=
  ⟨q.2, Function.update c.phase i q.1⟩

def next (c : Crowd ι) : Move ι → Crowd ι
  | .enter i errand => if c.idle i then c.put i (errand.start, c.word) else c
  | .access i => c.put i (step (c.phase i) c.word)

/-- The state after some moves. -/
def after (c : Crowd ι) (moves : List (Move ι)) : Crowd ι := moves.foldl next c

def run (moves : List (Move ι)) : Crowd ι := start.after moves

/-- The move brings an agent into phase `p`. -/
def Grants (c : Crowd ι) (m : Move ι) (p : Phase) : Prop :=
  ∃ i, c.phase i ≠ p ∧ (c.next m).phase i = p

variable [Fintype ι]

/-- The agents in phase `p`. -/
def holders (c : Crowd ι) (p : Phase) : Finset ι := {i | c.phase i = p}

/-- The guards for reading that are held. -/
def readers (c : Crowd ι) : Finset ι := c.holders .reading

/-- The guards for writing that are held. -/
def writers (c : Crowd ι) : Finset ι := c.holders .writing

/-- What the word tells, as a number. -/
structure Kept (c : Crowd ι) : Prop where
  counted : c.word.toNat / 4 = c.readers.card
  flagged : c.word.toNat % 2 = c.writers.card
  alone : c.word.toNat % 2 = 0 ∨ c.word.toNat / 4 = 0
  awaited : c.word.toNat / 2 % 2 = 1 → ∃ i, (c.phase i).awaits = true
  sound : ∀ i, (c.phase i).Sound

/-! ## One move -/

variable {c : Crowd ι} {i : ι} {q : Phase} {w : UInt64}

omit [Fintype ι] in
theorem put_phase_self : (c.put i (q, w)).phase i = q := Function.update_self ..

omit [Fintype ι] in
theorem put_phase_of_ne {j : ι} (h : j ≠ i) : (c.put i (q, w)).phase j = c.phase j :=
  Function.update_of_ne h ..

omit [Fintype ι] in
/-- Two steps of one agent in a row. -/
theorem next_access_put : (c.put i (q, w)).next (.access i) = c.put i (step q w) := by
  rw [Crowd.next, put_phase_self]
  simp only [Crowd.put, Function.update_idem]

omit [DecidableEq ι] in
theorem mem_holders {p : Phase} : i ∈ c.holders p ↔ c.phase i = p := by
  rw [holders, Finset.mem_filter_univ]

/-- One agent more or less in phase `p`, or as many as before. -/
theorem card_holders_put (p : Phase) :
    ((c.put i (q, w)).holders p).card + p.tally (c.phase i) = (c.holders p).card + p.tally q := by
  have herase : ((c.put i (q, w)).holders p).erase i = (c.holders p).erase i := by
    ext j
    rw [Finset.mem_erase, Finset.mem_erase, mem_holders, mem_holders]
    exact and_congr_right fun hji => by rw [put_phase_of_ne hji]
  have hcard : ∀ c : Crowd ι, ((c.holders p).erase i).card + p.tally (c.phase i) =
      (c.holders p).card := by
    intro c
    by_cases h : c.phase i = p
    · rw [Phase.tally, if_pos h, Finset.card_erase_add_one (mem_holders.2 h)]
    · rw [Phase.tally, if_neg h, Finset.erase_eq_of_notMem (fun hi => h (mem_holders.1 hi)),
        Nat.add_zero]
  have hbefore := hcard c
  have hafter := hcard (c.put i (q, w))
  rw [put_phase_self, herase] at hafter
  omega

/-- What has to be seen to of the word when an agent goes on from phase `p` to phase `q`. -/
theorem Kept.put {p : Phase} (hc : c.Kept) (hp : c.phase i = p) (hsound : q.Sound)
    (hcounted : w.toNat / 4 + Phase.reading.tally p = c.word.toNat / 4 + Phase.reading.tally q)
    (hflagged : w.toNat % 2 + Phase.writing.tally p = c.word.toNat % 2 + Phase.writing.tally q)
    (halone : w.toNat % 2 = 0 ∨ w.toNat / 4 = 0)
    (hawaited : w.toNat / 2 % 2 = 1 →
      q.awaits = true ∨ c.word.toNat / 2 % 2 = 1 ∧ p.awaits = false) :
    (c.put i (q, w)).Kept where
  counted := by
    have hcard := card_holders_put (c := c) (i := i) (q := q) (w := w) .reading
    have hbefore := hc.counted
    change w.toNat / 4 = ((c.put i (q, w)).holders .reading).card
    rw [readers] at hbefore
    rw [hp] at hcard
    omega
  flagged := by
    have hcard := card_holders_put (c := c) (i := i) (q := q) (w := w) .writing
    have hbefore := hc.flagged
    change w.toNat % 2 = ((c.put i (q, w)).holders .writing).card
    rw [writers] at hbefore
    rw [hp] at hcard
    omega
  alone := halone
  awaited := by
    intro hw
    rcases hawaited hw with hq | ⟨hbit, hno⟩
    · exact ⟨i, by rwa [put_phase_self]⟩
    · obtain ⟨j, hj⟩ := hc.awaited hbit
      have hji : j ≠ i := by
        rintro rfl
        rw [hp, hno] at hj
        cases hj
      exact ⟨j, by rwa [put_phase_of_ne hji]⟩
  sound := by
    intro j
    by_cases hji : j = i
    · subst hji
      rwa [put_phase_self]
    · rw [put_phase_of_ne hji]
      exact hc.sound j

/-- A move that leaves the word alone: nobody gets or drops a guard, and a writer that waits goes
on to wait. -/
theorem Kept.put_same {p : Phase} (hc : c.Kept) (hp : c.phase i = p) (hsound : q.Sound)
    (hreading : Phase.reading.tally p = Phase.reading.tally q)
    (hwriting : Phase.writing.tally p = Phase.writing.tally q)
    (hawaits : p.awaits = true → q.awaits = true) : (c.put i (q, c.word)).Kept := by
  refine hc.put hp hsound (by rw [hreading]) (by rw [hwriting]) hc.alone fun hbit => ?_
  rcases hno : p.awaits with _ | _
  · exact Or.inr ⟨hbit, rfl⟩
  · exact Or.inl (hawaits hno)

omit [DecidableEq ι] in
/-- A guard that is held shows in the word. -/
theorem Kept.le_of_reading (hc : c.Kept) (h : c.phase i = .reading) : 4 ≤ c.word.toNat := by
  have hpos : 0 < c.readers.card := Finset.card_pos.2 ⟨i, mem_holders.2 h⟩
  rw [← hc.counted] at hpos
  omega

omit [DecidableEq ι] in
theorem Kept.odd_of_writing (hc : c.Kept) (h : c.phase i = .writing) : c.word.toNat % 2 = 1 := by
  have hpos : 0 < c.writers.card := Finset.card_pos.2 ⟨i, mem_holders.2 h⟩
  rw [← hc.flagged] at hpos
  omega

theorem Kept.drop_reading (hc : c.Kept) (h : c.phase i = .reading) :
    (c.put i (.outside, c.word - readerUnit)).Kept := by
  have hpos := hc.le_of_reading h
  have halone := hc.alone
  have hw := toNat_sub_readerUnit hpos
  refine hc.put h trivial ?_ ?_ ?_ ?_ <;> rw [hw]
  · rw [Phase.tally_self, Phase.tally_of_ne (by decide)]
    omega
  · rw [Phase.tally_of_ne (by decide), Phase.tally_of_ne (by decide)]
    omega
  · omega
  · exact fun hbit => Or.inr ⟨by omega, rfl⟩

/-- The drop keeps the bit of a writer that waits. -/
theorem Kept.drop_writing (hc : c.Kept) (h : c.phase i = .writing) :
    (c.put i (.outside, c.word &&& ~~~writerBit)).Kept := by
  have hodd := hc.odd_of_writing h
  have hw := toNat_clear_writerBit c.word
  refine hc.put h trivial ?_ ?_ ?_ ?_ <;> rw [hw]
  · rw [Phase.tally_of_ne (by decide), Phase.tally_of_ne (by decide)]
    omega
  · rw [Phase.tally_self, Phase.tally_of_ne (by decide)]
    omega
  · omega
  · exact fun hbit => Or.inr ⟨by omega, rfl⟩

/-- A reader that still finds what it saw finds no writer, neither in nor waiting. -/
theorem Kept.let_reader_in (hc : c.Kept) {patient : Bool}
    (h : c.phase i = .readClaiming patient c.word)
    (few : (c.put i (.reading, c.word + readerUnit)).readers.card < 2 ^ 62) :
    (c.put i (.reading, c.word + readerUnit)).Kept := by
  have hcard := card_holders_put (c := c) (i := i) (q := .reading) (w := c.word + readerUnit) .reading
  have hcounted := hc.counted
  have hopen : c.word.toNat % 4 = 0 := by
    have hsound := hc.sound i
    rwa [h] at hsound
  rw [readers] at few hcounted
  rw [h, Phase.tally_self, Phase.tally_of_ne (by simp)] at hcard
  have hw := toNat_add_readerUnit (w := c.word) (by omega)
  refine hc.put h trivial ?_ ?_ ?_ ?_ <;> rw [hw]
  · rw [Phase.tally_self, Phase.tally_of_ne (by simp)]
    omega
  · rw [Phase.tally_of_ne (by simp), Phase.tally_of_ne (by simp)]
    omega
  · omega
  · exact fun hbit => Or.inr ⟨by omega, rfl⟩

/-- A writer that still finds what it saw finds nobody in; it clears the bit of those that wait. -/
theorem Kept.let_writer_in (hc : c.Kept) {patient : Bool}
    (h : c.phase i = .writeClaiming patient c.word) : (c.put i (.writing, writerBit)).Kept := by
  obtain ⟨heven, hnone⟩ : c.word.toNat % 2 = 0 ∧ c.word.toNat < 4 := by
    have hsound := hc.sound i
    rwa [h] at hsound
  have hw : writerBit.toNat = 1 := rfl
  refine hc.put h trivial ?_ ?_ ?_ ?_ <;> rw [hw]
  · rw [Phase.tally_of_ne (by simp), Phase.tally_of_ne (by simp)]
    omega
  · rw [Phase.tally_self, Phase.tally_of_ne (by simp)]
    omega
  · exact Or.inr rfl
  · exact fun hbit => absurd hbit (by decide)

theorem Kept.announce (hc : c.Kept) (h : c.phase i = .announcing) :
    (c.put i (.writeProbing true, c.word ||| waitingBit)).Kept := by
  obtain ⟨hcount, hflag, -⟩ := toNat_or_waitingBit c.word
  refine hc.put h trivial ?_ ?_ ?_ (fun _ => Or.inl rfl)
  · rw [hcount]
    rfl
  · rw [hflag]
    rfl
  · rw [hcount, hflag]
    exact hc.alone

/-- A reader that cannot come in goes back to look, or gives up. -/
theorem Kept.turn_reader_away {p : Phase} (hc : c.Kept) (hp : c.phase i = p) (patient : Bool)
    (hreading : Phase.reading.tally p = 0) (hwriting : Phase.writing.tally p = 0)
    (hawaits : p.awaits = false) : (c.put i (readAgain patient, c.word)).Kept := by
  have hno : p.awaits ≠ true := Bool.eq_false_iff.1 hawaits
  cases patient with
  | false => exact hc.put_same (q := .refused) hp trivial hreading hwriting fun h => absurd h hno
  | true => exact hc.put_same (q := .readProbing true) hp trivial hreading hwriting fun h => absurd h hno

/-- A writer that cannot come in sees to it that its waiting is known, or gives up. -/
theorem Kept.turn_writer_away {p : Phase} (hc : c.Kept) (hp : c.phase i = p) (patient : Bool)
    (hreading : Phase.reading.tally p = 0) (hwriting : Phase.writing.tally p = 0)
    (hawaits : p.awaits = patient) : (c.put i (writeAgain patient, c.word)).Kept := by
  cases patient with
  | false =>
    exact hc.put_same (q := .refused) hp trivial hreading hwriting fun h =>
      absurd h (Bool.eq_false_iff.1 hawaits)
  | true => exact hc.put_same (q := .checking) hp trivial hreading hwriting fun _ => rfl

/-- One case for each phase: only who comes in and who leaves changes what the word tells. -/
theorem Kept.access (hc : c.Kept) (few : (c.next (.access i)).readers.card < 2 ^ 62) :
    (c.next (.access i)).Kept := by
  rw [Crowd.next] at few ⊢
  cases hphase : c.phase i <;> rw [hphase] at few <;> simp only [step] at few ⊢
  case outside => exact hc.put_same hphase trivial rfl rfl id
  case refused => exact hc.put_same hphase trivial rfl rfl id
  case reading => exact hc.drop_reading hphase
  case writing => exact hc.drop_writing hphase
  case readProbing patient =>
    split
    · exact hc.turn_reader_away hphase patient rfl rfl rfl
    next hopen =>
      rw [bne_iff_ne, not_not, and_bits_eq_zero_iff] at hopen
      exact hc.put_same hphase hopen rfl rfl nofun
  case readClaiming patient seen =>
    split at few
    next heq =>
      subst heq
      rw [if_pos rfl]
      exact hc.let_reader_in hphase few
    next hne =>
      rw [if_neg hne]
      exact hc.turn_reader_away hphase patient rfl rfl rfl
  case writeProbing patient =>
    split
    · exact hc.turn_writer_away hphase patient rfl rfl rfl
    next hfree =>
      rw [Bool.or_eq_true, not_or, bne_iff_ne, decide_eq_true_eq, and_writerBit_ne_zero_iff,
        readerUnit_le_iff] at hfree
      exact hc.put_same hphase ⟨by omega, by omega⟩ rfl rfl id
  case writeClaiming patient seen =>
    split
    next heq =>
      subst heq
      exact hc.let_writer_in hphase
    · exact hc.turn_writer_away hphase patient rfl rfl rfl
  case checking =>
    split
    all_goals exact hc.put_same hphase trivial rfl rfl id
  case announcing => exact hc.announce hphase

theorem Kept.next (hc : c.Kept) {m : Move ι} (few : (c.next m).readers.card < 2 ^ 62) :
    (c.next m).Kept := by
  cases m with
  | access i => exact hc.access few
  | enter i errand =>
    rw [Crowd.next]
    split
    next hidle =>
      have hsound : errand.start.Sound := by cases errand <;> exact trivial
      rw [idle, Bool.or_eq_true, beq_iff_eq, beq_iff_eq] at hidle
      rcases hidle with hp | hp
      all_goals exact hc.put_same hp hsound (by cases errand <;> rfl) (by cases errand <;> rfl) nofun
    · exact hc

/-- Only a writer that comes in clears the bit of those that wait. -/
theorem Kept.waits_next (hc : c.Kept) {m : Move ι} (hm : ¬ c.Grants m .writing)
    (hbit : c.word.toNat / 2 % 2 = 1) : (c.next m).word.toNat / 2 % 2 = 1 := by
  cases m with
  | enter i errand =>
    rw [Crowd.next]
    split
    all_goals exact hbit
  | access i =>
    change (step (c.phase i) c.word).2.toNat / 2 % 2 = 1
    cases hphase : c.phase i <;> simp only [step]
    case reading =>
      have hle := hc.le_of_reading hphase
      rw [toNat_sub_readerUnit hle]
      omega
    case writing =>
      rw [toNat_clear_writerBit]
      omega
    case readClaiming =>
      split
      · rw [UInt64.toNat_add]
        change (c.word.toNat + 4) % 2 ^ 64 / 2 % 2 = 1
        omega
      · exact hbit
    case writeClaiming =>
      split
      next heq =>
        refine absurd ⟨i, by rw [hphase]; nofun, ?_⟩ hm
        rw [Crowd.next, hphase, step, if_pos heq]
        exact put_phase_self
      · exact hbit
    case announcing => exact (toNat_or_waitingBit c.word).2.2
    all_goals exact hbit

omit [Fintype ι] in
/-- Nobody comes into a phase in which no errand begins but by an access of its own. -/
theorem Grants.exists_access {m : Move ι} {p : Phase} (h : c.Grants m p)
    (hp : ∀ errand : Errand, errand.start ≠ p) :
    ∃ i, m = .access i ∧ (step (c.phase i) c.word).1 = p := by
  obtain ⟨j, hbefore, hafter⟩ := h
  cases m with
  | enter i errand =>
    rw [Crowd.next] at hafter
    split at hafter
    · by_cases hji : j = i
      · subst hji
        rw [put_phase_self] at hafter
        exact absurd hafter (hp errand)
      · rw [put_phase_of_ne hji] at hafter
        exact absurd hafter hbefore
    · exact absurd hafter hbefore
  | access i =>
    by_cases hji : j = i
    · subst hji
      exact ⟨j, rfl, put_phase_self.symm.trans hafter⟩
    · exact absurd ((put_phase_of_ne hji).symm.trans hafter) hbefore

/-- While it is known that a writer waits, no move lets a reader in: no reader that is about to
claim has seen this word. -/
theorem Kept.not_grants_reading (hc : c.Kept) {m : Move ι} (hbit : c.word.toNat / 2 % 2 = 1) :
    ¬ c.Grants m .reading := by
  intro h
  obtain ⟨i, -, hstep⟩ := h.exists_access (fun errand => by cases errand <;> nofun)
  obtain ⟨patient, hphase⟩ := exists_of_step_eq_reading hstep
  have hopen := hc.sound i
  rw [hphase] at hopen
  have hmod : c.word.toNat % 4 = 0 := hopen
  omega

/-- The state in the terms in which the lock is described. -/
structure Ordered (c : Crowd ι) : Prop where
  counted : (c.word / readerUnit).toNat = c.readers.card
  flagged : c.word &&& writerBit ≠ 0 ↔ c.writers.card = 1
  unique : c.writers.card ≤ 1
  alone : c.writers.Nonempty → c.readers = ∅
  awaited : c.word &&& waitingBit ≠ 0 → ∃ i, (c.phase i).awaits = true
  /-- without a writer, in or waiting, one attempt to read succeeds if nobody comes between -/
  welcome : c.writers = ∅ → (∀ i, (c.phase i).awaits = false) → ∀ i, c.idle i = true →
    (c.after [.enter i .tryRead, .access i, .access i]).phase i = .reading

theorem Kept.welcome (hc : c.Kept) (hnone : c.writers = ∅) (hno : ∀ i, (c.phase i).awaits = false)
    (hidle : c.idle i = true) :
    (c.after [.enter i .tryRead, .access i, .access i]).phase i = .reading := by
  have hopen : c.word &&& (writerBit ||| waitingBit) = 0 := by
    have hflag := hc.flagged
    have hbit : c.word.toNat / 2 % 2 ≠ 1 := fun h => by
      obtain ⟨j, hj⟩ := hc.awaited h
      rw [hno j] at hj
      cases hj
    rw [hnone, Finset.card_empty] at hflag
    rw [and_bits_eq_zero_iff]
    omega
  have hprobe : step (.readProbing false) c.word = (.readClaiming false c.word, c.word) := by
    rw [step, hopen]
    rfl
  have hclaim : step (.readClaiming false c.word) c.word = (.reading, c.word + readerUnit) := if_pos rfl
  have henter : c.next (.enter i .tryRead) = c.put i (.readProbing false, c.word) := if_pos hidle
  rw [after, List.foldl_cons, List.foldl_cons, List.foldl_cons, List.foldl_nil, henter,
    next_access_put, hprobe, next_access_put, hclaim]
  exact put_phase_self

theorem Kept.ordered (hc : c.Kept) : c.Ordered where
  counted := (toNat_div_readerUnit c.word).trans hc.counted
  flagged := by rw [and_writerBit_ne_zero_iff, hc.flagged]
  unique := by
    have hflag := hc.flagged
    omega
  alone := by
    intro hsome
    have hpos := Finset.card_pos.2 hsome
    have hflag := hc.flagged
    have hcount := hc.counted
    have halone := hc.alone
    exact Finset.card_eq_zero.1 (by omega)
  awaited := fun h => hc.awaited (and_waitingBit_ne_zero_iff.1 h)
  welcome := fun hnone hno i hidle => hc.welcome hnone hno hidle

end Crowd

/-! ## Runs -/

open Crowd

omit [DecidableEq ι] in
theorem holders_start [Fintype ι] {p : Phase} (hp : .outside ≠ p) :
    (Crowd.start : Crowd ι).holders p = ∅ :=
  Finset.filter_eq_empty_iff.2 fun _ _ => hp

omit [DecidableEq ι] in
theorem toNat_word_start : (Crowd.start : Crowd ι).word.toNat = 0 := rfl

omit [DecidableEq ι] in
theorem kept_start [Fintype ι] : (Crowd.start : Crowd ι).Kept where
  counted := by
    rw [readers, holders_start (by decide), Finset.card_empty, toNat_word_start]
  flagged := by
    rw [writers, holders_start (by decide), Finset.card_empty, toNat_word_start]
  alone := Or.inl (by rw [toNat_word_start])
  awaited := fun h => by
    rw [toNat_word_start] at h
    cases h
  sound := fun _ => trivial

theorem run_take_succ {moves : List (Move ι)} {k : Nat} {m : Move ι} (h : moves[k]? = some m) :
    run (moves.take (k + 1)) = (run (moves.take k)).next m := by
  rw [List.take_add_one, h, Option.toList_some, run, after, List.foldl_append]
  rfl

theorem run_take_of_length_le {moves : List (Move ι)} {k : Nat} (h : moves[k]? = none) :
    run (moves.take (k + 1)) = run (moves.take k) := by
  have hlen := List.getElem?_eq_none_iff.1 h
  rw [List.take_of_length_le hlen, List.take_of_length_le (Nat.le_succ_of_le hlen)]

variable [Fintype ι]

/-- The lock does what it is for along a run: every state is ordered, and from a moment at which
it is known that a writer waits no move lets a reader in before one lets a writer in. -/
structure Orderly (moves : List (Move ι)) : Prop where
  ordered : ∀ k, (run (moves.take k)).Ordered
  barred : ∀ j k m, j ≤ k → moves[k]? = some m → (run (moves.take j)).word &&& waitingBit ≠ 0 →
    (∀ l n, j ≤ l → l < k → moves[l]? = some n → ¬ (run (moves.take l)).Grants n .writing) →
    ¬ (run (moves.take k)).Grants m .reading

section Runs

variable {moves : List (Move ι)} (few : ∀ k, (run (moves.take k)).readers.card < 2 ^ 62)

include few

/-- What each move keeps is kept by a run of them. -/
theorem kept_take (k : Nat) : (run (moves.take k)).Kept := by
  induction k with
  | zero => exact kept_start
  | succ k ih =>
    have hfew := few (k + 1)
    rcases hm : moves[k]? with _ | m
    · rw [run_take_of_length_le hm]
      exact ih
    · rw [run_take_succ hm] at hfew ⊢
      exact ih.next hfew

/-- The bit of a writer that waits stays set until one comes in. -/
theorem waits_take {j k : Nat} (hjk : j ≤ k)
    (hbit : (run (moves.take j)).word.toNat / 2 % 2 = 1)
    (hm : ∀ l n, j ≤ l → l < k → moves[l]? = some n → ¬ (run (moves.take l)).Grants n .writing) :
    (run (moves.take k)).word.toNat / 2 % 2 = 1 := by
  induction k, hjk using Nat.le_induction with
  | base => exact hbit
  | succ k hjk ih =>
    have hbefore := ih fun l n hjl hlk => hm l n hjl (Nat.lt_succ_of_lt hlk)
    rcases hn : moves[k]? with _ | n
    · rw [run_take_of_length_le hn]
      exact hbefore
    · rw [run_take_succ hn]
      exact (kept_take few k).waits_next (hm k n hjk (Nat.lt_succ_self k) hn) hbefore

end Runs

/-- **Admission**: with fewer readers at once than the word can count, the word tells at every
moment of every run how many readers are in and whether a writer is, readers and writers exclude
each other, and a writer that is known to wait comes in before any further reader. -/
theorem run_orderly (moves : List (Move ι))
    (few : ∀ k, (run (moves.take k)).readers.card < 2 ^ 62) : Orderly moves where
  ordered := fun k => (kept_take few k).ordered
  barred := by
    intro j k m hjk _ hwaits hm
    have hbit := waits_take few hjk (and_waitingBit_ne_zero_iff.1 hwaits) hm
    exact (kept_take few k).not_grants_reading hbit

/-- Agent 0 reads; agent 1 comes to write and makes known that it waits; agent 2 is refused an
attempt to read; agent 0 leaves and agent 1 comes in. Agent 3 stays away. -/
def queue : List (Move (Fin 4)) :=
  [.enter 0 .read, .access 0, .access 0, .enter 1 .write, .access 1, .access 1, .access 1,
    .enter 2 .tryRead, .access 2, .access 0, .access 1, .access 1]

theorem run_orderly_queue : (∀ k, (run (queue.take k)).readers.card < 2 ^ 62) ∧ Orderly queue ∧
    (run (queue.take 7)).word &&& waitingBit ≠ 0 ∧ (run queue).phase 2 = .refused ∧
    (run queue).phase 1 = .writing := by
  have few : ∀ k, (run (queue.take k)).readers.card < 2 ^ 62 := fun k =>
    Nat.lt_of_le_of_lt (Finset.card_le_univ _) (by simp)
  exact ⟨few, run_orderly queue few, by decide, by decide, by decide⟩

end PagedMemory.RwLock
