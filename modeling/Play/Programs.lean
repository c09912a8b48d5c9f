/-
Play/Programs.lean

Programs that are driven by a counter.

A step carries out the instruction at the counter: the counter stays, or goes
to another instruction, which shows its output on arrival, or the program
exits.  Nothing is read from outside.  Where the counter goes depends on where
it is, so a program that comes to one instruction twice goes round for ever:

* `exited_by_length`: a program that exits at all has done so after as many
  steps as it has instructions;
* `run_of_straight`: a program that goes from each instruction to the next
  and exits at the last shows every output once, in order, and then exits.
-/
import Mathlib.Data.Fintype.Pigeonhole
import Mathlib.Logic.Function.Iterate

namespace Play

namespace Programs

variable {O : Type*}

/-! ### Instructions -/

/-- What an instruction does to the counter. -/
inductive Move
  | stay
  | goto (i : ℕ)
  | exit
  deriving DecidableEq

/-- An instruction: what it shows when the counter arrives, and how it moves
the counter. -/
structure Instr (O : Type*) where
  output : List O
  move : Move

/-- A program that is running. -/
structure Machine (O : Type*) where
  counter : ℕ := 0
  shown : List O := []
  exited : Bool := false

/-- The output of the instruction at a place. -/
def outputAt (p : List (Instr O)) (i : ℕ) : List O := (p[i]?).elim [] Instr.output

/-- How the instruction at a place moves the counter. -/
def moveAt (p : List (Instr O)) (i : ℕ) : Move := (p[i]?).elim .stay Instr.move

/-- The counter arrives at an instruction. -/
def arrive (p : List (Instr O)) (m : Machine O) (i : ℕ) : Machine O :=
  { m with counter := i, shown := m.shown ++ outputAt p i }

/-- The program begins at its first instruction. -/
def start (p : List (Instr O)) : Machine O := arrive p {} 0

/-- Carry out the instruction at the counter. -/
def step (p : List (Instr O)) (m : Machine O) : Machine O :=
  match moveAt p m.counter with
  | .stay => m
  | .goto i => arrive p m i
  | .exit => { m with exited := true }

/-- The program after `n` steps. -/
def run (p : List (Instr O)) (n : ℕ) : Machine O := (step p)^[n] (start p)

variable {p : List (Instr O)} {m : Machine O} {i j k n : ℕ}

theorem run_succ (p : List (Instr O)) (n : ℕ) : run p (n + 1) = step p (run p n) :=
  Function.iterate_succ_apply' (step p) n (start p)

theorem moveAt_of_getElem? {c : Instr O} (h : p[i]? = some c) : moveAt p i = c.move := by
  rw [moveAt, h, Option.elim_some]

/-! ### The counter -/

/-- Where the counter goes. -/
def follow (p : List (Instr O)) (i : ℕ) : ℕ :=
  match moveAt p i with
  | .goto j => j
  | _ => i

theorem counter_step (p : List (Instr O)) (m : Machine O) :
    (step p m).counter = follow p m.counter := by
  rw [step, follow]
  rcases moveAt p m.counter with - | j | - <;> rfl

theorem counter_run (p : List (Instr O)) (n : ℕ) : (run p n).counter = (follow p)^[n] 0 := by
  induction n with
  | zero => rfl
  | succ n ih => rw [run_succ, counter_step, ih, Function.iterate_succ_apply']

theorem exited_step (p : List (Instr O)) (m : Machine O) :
    (step p m).exited = true ↔ m.exited = true ∨ moveAt p m.counter = .exit := by
  rw [step]
  rcases moveAt p m.counter with - | j | - <;> simp [arrive]

/-- A program has exited when the counter has been at an exit. -/
theorem exited_run (p : List (Instr O)) (n : ℕ) :
    (run p n).exited = true ↔ ∃ k < n, moveAt p (run p k).counter = .exit := by
  induction n with
  | zero => simp [run, start, arrive]
  | succ n ih =>
      rw [run_succ, exited_step, ih]
      constructor
      · rintro (⟨k, hk, hexit⟩ | hexit)
        · exact ⟨k, by omega, hexit⟩
        · exact ⟨n, by omega, hexit⟩
      · rintro ⟨k, hk, hexit⟩
        rcases Nat.lt_succ_iff_lt_or_eq.mp hk with hlt | rfl
        · exact .inl ⟨k, hlt, hexit⟩
        · exact .inr hexit

/-- Every jump of the program leads to an instruction. -/
def Closed (p : List (Instr O)) : Prop := ∀ i j, moveAt p i = .goto j → j < p.length

theorem Closed.follow_lt (h : Closed p) (hi : i < p.length) : follow p i < p.length := by
  rw [follow]
  rcases e : moveAt p i with - | j | -
  · exact hi
  · exact h i j e
  · exact hi

theorem Closed.counter_lt (h : Closed p) (hp : 0 < p.length) (n : ℕ) :
    (run p n).counter < p.length := by
  induction n with
  | zero => exact hp
  | succ n ih =>
      rw [run_succ, counter_step]
      exact h.follow_lt ih

/-- Two visits to one instruction have the same future. -/
theorem counter_add (h : (run p i).counter = (run p j).counter) (k : ℕ) :
    (run p (i + k)).counter = (run p (j + k)).counter := by
  simp only [counter_run] at h ⊢
  rw [Nat.add_comm i, Nat.add_comm j, Function.iterate_add_apply, Function.iterate_add_apply, h]

/-- **A program that exits does so within its length.**  Up to the first exit
it is at no instruction twice. -/
theorem exited_by_length (h : Closed p) (hp : 0 < p.length) (hexit : (run p n).exited = true) :
    (run p p.length).exited = true := by
  obtain ⟨k, -, hk⟩ := (exited_run p n).mp hexit
  classical
  have hex : ∃ k, moveAt p (run p k).counter = .exit := ⟨k, hk⟩
  -- the first exit, at which two earlier visits to one place leave no room
  obtain ⟨hfirst, hmin⟩ : moveAt p (run p (Nat.find hex)).counter = .exit ∧
      ∀ j < Nat.find hex, moveAt p (run p j).counter ≠ .exit :=
    ⟨Nat.find_spec hex, fun j hj => Nat.find_min hex hj⟩
  generalize Nat.find hex = f at hfirst hmin
  apply (exited_run p p.length).mpr
  refine ⟨f, ?_, hfirst⟩
  by_contra hlong
  let visit : Fin (f + 1) → Fin p.length := fun i => ⟨(run p i).counter, h.counter_lt hp i⟩
  obtain ⟨i, j, hne, hvisit⟩ := Fintype.exists_ne_map_eq_of_card_lt visit (by simp; omega)
  have hcounter : (run p i).counter = (run p j).counter := congrArg Fin.val hvisit
  have hno : ∀ a b : Fin (f + 1), a < b → (run p a).counter ≠ (run p b).counter := by
    intro a b hab heq
    have hb : (b : ℕ) + (f - b) = f := by omega
    have hlater := counter_add heq (f - b)
    rw [hb] at hlater
    refine hmin (a + (f - b)) (by omega) ?_
    rw [hlater]
    exact hfirst
  rcases lt_or_gt_of_ne hne with hij | hji
  · exact hno i j hij hcounter
  · exact hno j i hji hcounter.symm

/-! ### Straight programs -/

/-- From each instruction to the next, and the last one exits. -/
def Straight (p : List (Instr O)) : Prop :=
  ∀ i < p.length, moveAt p i = if i + 1 < p.length then .goto (i + 1) else .exit

theorem take_succ_flatMap (p : List (Instr O)) (n : ℕ) :
    (p.take (n + 1)).flatMap Instr.output = (p.take n).flatMap Instr.output ++ outputAt p n := by
  rw [List.take_add_one, List.flatMap_append, outputAt]
  rcases p[n]? with - | c
  · rfl
  · simp

/-- On the way, the counter has passed one instruction in each step. -/
theorem run_of_lt (h : Straight p) (hn : n < p.length) :
    run p n = ⟨n, (p.take (n + 1)).flatMap Instr.output, false⟩ := by
  induction n with
  | zero =>
      rw [take_succ_flatMap]
      rfl
  | succ n ih =>
      rw [run_succ, ih (by omega), step]
      simp only [h n (by omega), if_pos hn]
      rw [take_succ_flatMap p (n + 1)]
      rfl

/-- At its end the program stays where it is. -/
theorem run_of_le (h : Straight p) (hp : 0 < p.length) (hn : p.length ≤ n) :
    run p n = ⟨p.length - 1, p.flatMap Instr.output, true⟩ := by
  have hlast : moveAt p (p.length - 1) = .exit := by
    rw [h _ (by omega), if_neg (by omega)]
  have hend : ∀ s : Machine O, s.counter = p.length - 1 → step p s = { s with exited := true } := by
    intro s hs
    rw [step, hs, hlast]
  induction n, hn using Nat.le_induction with
  | base =>
      have hbefore := run_of_lt h (n := p.length - 1) (by omega)
      have hsucc : p.length = p.length - 1 + 1 := by omega
      rw [← hsucc, List.take_length] at hbefore
      rw [hsucc, run_succ, hbefore, hend _ rfl]
      rw [← hsucc]
  | succ n hn ih => rw [run_succ, ih, hend _ rfl]

/-- **A straight program shows its outputs in order, each once.** -/
theorem run_of_straight (h : Straight p) (hp : 0 < p.length) (n : ℕ) :
    (run p n).shown = (p.take (n + 1)).flatMap Instr.output ∧
      ((run p n).exited = true ↔ p.length ≤ n) := by
  rcases Nat.lt_or_ge n p.length with hlt | hge
  · rw [run_of_lt h hlt]
    exact ⟨rfl, by simp [hlt]⟩
  · rw [run_of_le h hp hge, List.take_of_length_le (by omega)]
    exact ⟨rfl, by simp [hge]⟩

end Programs

end Play
