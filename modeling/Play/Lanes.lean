/-
Play/Lanes.lean

A queue whose jobs are executed by several workers, with lanes.

A worker takes any job that waits, except that a job in a lane is only taken
when no job of this lane waits before it.  A job without a lane is never held
up, and holds up nobody.

What a queue with lanes promises is said lane by lane (`Sequenced`):

    posted in the lane  =  executed in the lane  ++  waiting in the lane

where the three lists are in the order of posting, of execution, and of
posting again.  Over all lanes together nothing is lost and nothing is
executed twice, but the order is open: what was posted is a permutation of
what was executed and what waits.
-/
import Mathlib.Data.List.Basic
import Mathlib.Tactic.Common

namespace Play

/-- The jobs that wait, as posted, and those executed, as executed. -/
structure Jobs (J : Type*) where
  waiting : List J := []
  executed : List J := []

namespace Jobs

variable {J L : Type*} [DecidableEq L] (lane : J → Option L)

/-- The jobs of a lane. -/
def inLane (l : L) (js : List J) : List J :=
  js.filter fun j => lane j == some l

/-- No job of the lane of `j` is in `before`. -/
def IsFree (before : List J) (j : J) : Prop :=
  ∀ l, lane j = some l → ∀ j' ∈ before, lane j' ≠ some l

instance (before : List J) (j : J) : Decidable (IsFree lane before j) :=
  match h : lane j with
  | none => isTrue fun l hl => by simp [h] at hl
  | some l =>
      decidable_of_iff (∀ j' ∈ before, lane j' ≠ some l)
        ⟨fun hfree l' hl' => by
          rw [h] at hl'
          rw [← Option.some.inj hl']
          exact hfree,
        fun hfree => hfree l h⟩

/-- New jobs wait behind the others. -/
def post (q : Jobs J) (js : List J) : Jobs J :=
  { q with waiting := q.waiting ++ js }

/-- The job at the place `i` is executed, if its lane lets it. -/
def run (q : Jobs J) (i : ℕ) : Option (Jobs J) :=
  match q.waiting[i]? with
  | none => none
  | some j =>
      if IsFree lane (q.waiting.take i) j then
        some { waiting := q.waiting.eraseIdx i, executed := q.executed ++ [j] }
      else none

/-! ### One lane -/

variable {lane} {l : L} {j : J} {js ks : List J} {q q' : Jobs J} {i : ℕ}

@[simp] theorem inLane_nil : inLane lane l [] = [] := rfl

@[simp] theorem inLane_append : inLane lane l (js ++ ks) = inLane lane l js ++ inLane lane l ks :=
  List.filter_append ..

theorem inLane_of_forall_ne (h : ∀ j ∈ js, lane j ≠ some l) : inLane lane l js = [] := by
  apply List.filter_eq_nil_iff.mpr
  intro j hj
  simpa using h j hj

theorem inLane_singleton_of_ne (h : lane j ≠ some l) : inLane lane l [j] = [] := by
  simp [inLane, h]

/-- What `run` does to the queue: one job leaves it, and nothing before it is
in its lane. -/
theorem run_cases (h : q.run lane i = some q') :
    ∃ before j after, q.waiting = before ++ j :: after ∧ IsFree lane before j ∧
      q' = { waiting := before ++ after, executed := q.executed ++ [j] } := by
  rw [run] at h
  rcases hj : q.waiting[i]? with - | j
  · simp [hj] at h
  · simp only [hj, Option.ite_none_right_eq_some, Option.some.injEq] at h
    obtain ⟨hlt, rfl⟩ := List.getElem?_eq_some_iff.mp hj
    refine ⟨q.waiting.take i, q.waiting[i], q.waiting.drop (i + 1), ?_, h.1, ?_⟩
    · rw [List.getElem_cons_drop, List.take_append_drop]
    · rw [← h.2, List.eraseIdx_eq_take_drop_succ]

/-! ### What the lanes promise -/

variable (lane) in
/-- Every lane is executed in the order of posting, and no job is lost. -/
structure Sequenced (posted : List J) (q : Jobs J) : Prop where
  lane : ∀ l, inLane lane l posted = inLane lane l q.executed ++ inLane lane l q.waiting
  perm : posted.Perm (q.executed ++ q.waiting)

theorem sequenced_new : Sequenced lane [] ({} : Jobs J) :=
  ⟨fun _ => rfl, .nil⟩

variable {posted : List J}

/-- Posting keeps the lanes. -/
theorem Sequenced.post (h : Sequenced lane posted q) (js : List J) :
    Sequenced lane (posted ++ js) (q.post js) := by
  refine ⟨fun l => ?_, ?_⟩
  · show _ = inLane lane l q.executed ++ inLane lane l (q.waiting ++ js)
    rw [inLane_append, inLane_append, h.lane, List.append_assoc]
  · show (posted ++ js).Perm (q.executed ++ (q.waiting ++ js))
    rw [← List.append_assoc]
    exact h.perm.append_right js

/-- Executing a job keeps the lanes: in its own lane it is the first that
waits. -/
theorem Sequenced.run (h : Sequenced lane posted q) (hrun : q.run lane i = some q') :
    Sequenced lane posted q' := by
  obtain ⟨before, j, after, hwait, hfree, rfl⟩ := run_cases hrun
  refine ⟨fun l => ?_, ?_⟩
  · rw [h.lane l, hwait]
    show _ = inLane lane l (q.executed ++ [j]) ++ inLane lane l (before ++ after)
    rw [← List.singleton_append, inLane_append, inLane_append, inLane_append, inLane_append]
    by_cases hj : lane j = some l
    · rw [inLane_of_forall_ne (hfree l hj), List.nil_append, List.nil_append, List.append_assoc]
    · rw [inLane_singleton_of_ne hj, List.nil_append, List.append_nil]
  · refine h.perm.trans ?_
    rw [hwait, List.append_assoc]
    exact List.Perm.append_left q.executed List.perm_middle

/-- What was executed in a lane is the first part of what was posted in it. -/
theorem Sequenced.inLane_executed (h : Sequenced lane posted q) (l : L) :
    inLane lane l q.executed <+: inLane lane l posted :=
  ⟨_, (h.lane l).symm⟩

/-- A queue that is empty has executed everything. -/
theorem Sequenced.of_waiting_nil (h : Sequenced lane posted q) (hnil : q.waiting = []) (l : L) :
    inLane lane l q.executed = inLane lane l posted := by
  rw [h.lane l, hnil, inLane_nil, List.append_nil]

/-- Jobs that all are in one lane are executed in the order of posting. -/
theorem Sequenced.filter_executed (h : Sequenced lane posted q) {p : J → Bool}
    (hp : ∀ j ∈ posted, p j = true → lane j = some l) :
    q.executed.filter p <+: posted.filter p ∧
      (q.waiting = [] → q.executed.filter p = posted.filter p) := by
  have hlane : ∀ {js : List J}, (∀ j ∈ js, j ∈ posted) →
      js.filter p = (inLane lane l js).filter p := by
    intro js hjs
    rw [inLane, List.filter_filter]
    refine List.filter_congr fun j hj => ?_
    rcases hpj : p j with - | -
    · rfl
    · simp [hp j (hjs j hj) hpj]
  have hexec : ∀ j ∈ q.executed, j ∈ posted := fun j hj =>
    h.perm.mem_iff.mpr (List.mem_append_left _ hj)
  rw [hlane hexec, hlane fun _ => id]
  exact ⟨(h.inLane_executed l).filter p, fun hnil => by rw [h.of_waiting_nil hnil]⟩

end Jobs

end Play
