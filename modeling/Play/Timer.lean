/-
Play/Timer.lean

Timers that are cancelled, and timers that repeat.

A `timer` keeps one wait with asio at a time.  When it is over asio queues the
completion, on the io_context or on the strand, and runs it later: the lambda
that `once`, `repeat` or `repeat_call` gave to `async_wait`.  Asio tells it in
`ec` whether the wait expired or was cancelled, and still runs it when it was.

None of the four lambdas looks at `ec`, and `set_` is read after the handler
only, to decide on the next wait.  So a cancelled timer is silent only when
there was no wait to cancel (`sound_of_quiet`).

The first wait of a repeating timer on a strand calls the handler and not
`repeat_call`, and there is no second wait: such a timer calls its handler
once, where the one without a strand calls it in every interval
(`repeat_same_iff`).
-/
import Play.Runs
import Mathlib.Data.Bool.Basic
import Mathlib.Data.List.Basic

namespace Play

/-! ### The timer -/

/-- How a wait ended: the `error_code` of its completion. -/
inductive Ended
  | expired
  | aborted
  deriving DecidableEq

/-- The lambdas given to `async_wait`: one calls `handler(*this)`, the other
`repeat_call`. -/
inductive Completion
  | call
  | repeatCall
  deriving DecidableEq

/-- Where the wait of a timer is. -/
inductive Wait
  | idle
  /-- asio holds it. -/
  | armed (f : Completion)
  /-- Over, and its completion is in the queue. -/
  | queued (f : Completion) (e : Ended)
  /-- The handler that its completion called runs. -/
  | running (f : Completion)
  /-- `repeat_call` has found `set_`, and has not armed the timer yet. -/
  | rearming
  deriving DecidableEq

/-- What an observer sees of a timer: a call of the handler begins, on behalf
of a wait that ended so, and `cancel` or the destructor has returned. -/
inductive TimerEvent
  | started (e : Ended)
  | cancelled
  deriving DecidableEq

/-- A timer, with the clock in milliseconds.  `interval` is what the lambdas
captured. -/
structure Timer where
  strand : Bool
  set : Bool := false
  alive : Bool := true
  interval : ℕ := 0
  now : ℕ := 0
  deadline : ℕ := 0
  wait : Wait := .idle
  log : List TimerEvent := []
  deriving DecidableEq

/-- Asio has the wait or its completion, or is about to get it. -/
def Wait.outstanding : Wait → Bool
  | .armed _ => true
  | .queued _ _ => true
  | .rearming => true
  | _ => false

/-- `steady_timer::cancel` makes a pending wait end with operation_aborted.  A
wait that is over already keeps its result. -/
def Wait.abort : Wait → Wait
  | .armed f => .queued f .aborted
  | w => w

namespace Timer

/-- `expires_from_now` and `async_wait`.  Where the completion will be queued,
on the strand or not, makes no difference to one timer. -/
def arm (t : Timer) (ms : ℕ) (f : Completion) : Timer :=
  { t with interval := ms, deadline := t.now + ms, wait := .armed f }

/-- `timer::once`. -/
def timerOnce (t : Timer) (ms : ℕ) : Outcome Timer :=
  if t.set then .threw t
  else .done ({ t with set := true }.arm ms .call)

/-- `timer::repeat`. -/
def timerRepeat (t : Timer) (ms : ℕ) : Timer :=
  if t.strand then { t with set := true }.arm ms .call
  else { t with set := true }.arm ms .repeatCall

/-- `timer::cancel`. -/
def cancel (t : Timer) : Timer :=
  if t.set then { t with wait := t.wait.abort, set := false } else t

/-- `timer::~timer`, then that of `steady_timer`. -/
def destroy (t : Timer) : Timer :=
  { t.cancel with wait := t.cancel.wait.abort, alive := false }

/-- `timer_service::once`, with a strand or without. -/
def serviceOnce (strand : Bool) (ms : ℕ) : Outcome Timer :=
  ({ strand } : Timer).timerOnce ms

/-- `timer_service::repeat`, with a strand or without. -/
def serviceRepeat (strand : Bool) (ms : ℕ) : Timer :=
  ({ strand } : Timer).timerRepeat ms

/-- The steps of a timer.  `stray` is what `repeat_call` finds in `set_` once
the timer is gone: its memory is back in the pool, or is the next timer. -/
inductive Label
  | advance (ms : ℕ)
  | expire
  | start
  | finish (stray : Bool)
  | rearm
  | cancel
  | destroy
  deriving DecidableEq

def step (t : Timer) : Label → Option Timer
  | .advance ms => some { t with now := t.now + ms }
  | .expire =>
      match t.wait with
      | .armed f => if t.deadline ≤ t.now then some { t with wait := .queued f .expired } else none
      | _ => none
  | .start =>
      match t.wait with
      | .queued f e => some { t with wait := .running f, log := t.log ++ [.started e] }
      | _ => none
  | .finish stray =>
      match t.wait with
      | .running .call => some { t with wait := .idle }
      | .running .repeatCall =>
          let set := if t.alive then t.set else stray
          some { t with wait := if set then .rearming else .idle }
      | _ => none
  | .rearm =>
      match t.wait with
      | .rearming => some (t.arm t.interval .repeatCall)
      | _ => none
  | .cancel => if t.alive then some { t.cancel with log := t.log ++ [.cancelled] } else none
  | .destroy => if t.alive then some { t.destroy with log := t.log ++ [.cancelled] } else none

/-- The timers that `timer_service` gives out. -/
inductive Made : Timer → Prop
  | once {strand ms t} : serviceOnce strand ms = .done t → Made t
  | again (strand ms) : Made (serviceRepeat strand ms)

variable {t t' s : Timer} {l : Label} {ls : List Label}

theorem Made.eq_arm (h : Made t) :
    t.log = [] ∧ t.set = true ∧ t.alive = true ∧ ∃ f, t.wait = .armed f := by
  cases h with
  | once h =>
      cases h
      exact ⟨rfl, rfl, rfl, _, rfl⟩
  | again strand ms =>
      unfold serviceRepeat timerRepeat
      split <;> exact ⟨rfl, rfl, rfl, _, rfl⟩

/-- What a step can do. -/
theorem step_cases (h : t.step l = some t') :
    (∃ ms, l = .advance ms ∧ t' = { t with now := t.now + ms }) ∨
    (∃ f, l = .expire ∧ t.wait = .armed f ∧ t' = { t with wait := .queued f .expired }) ∨
    (∃ f e, l = .start ∧ t.wait = .queued f e ∧
      t' = { t with wait := .running f, log := t.log ++ [.started e] }) ∨
    (∃ stray f, l = .finish stray ∧ t.wait = .running f ∧
      t' = { t with wait :=
        if f = .repeatCall ∧ (if t.alive then t.set else stray) = true then .rearming
        else .idle }) ∨
    (l = .rearm ∧ t.wait = .rearming ∧ t' = t.arm t.interval .repeatCall) ∨
    (l = .cancel ∧ t.alive = true ∧ t' = { t.cancel with log := t.log ++ [.cancelled] }) ∨
    (l = .destroy ∧ t.alive = true ∧ t' = { t.destroy with log := t.log ++ [.cancelled] }) := by
  cases l with
  | advance ms => exact .inl ⟨ms, rfl, (Option.some.inj h).symm⟩
  | expire =>
      refine .inr (.inl ?_)
      dsimp only [step] at h
      split at h
      · next f hw =>
        obtain ⟨-, h⟩ := Option.ite_none_right_eq_some.mp h
        exact ⟨f, rfl, hw, (Option.some.inj h).symm⟩
      · cases h
  | start =>
      refine .inr (.inr (.inl ?_))
      dsimp only [step] at h
      split at h
      · next f e hw => exact ⟨f, e, rfl, hw, (Option.some.inj h).symm⟩
      · cases h
  | finish stray =>
      refine .inr (.inr (.inr (.inl ?_)))
      dsimp only [step] at h
      split at h
      · next hw => exact ⟨stray, .call, rfl, hw, (Option.some.inj h).symm.trans (by simp)⟩
      · next hw => exact ⟨stray, .repeatCall, rfl, hw, (Option.some.inj h).symm.trans (by simp)⟩
      · cases h
  | rearm =>
      refine .inr (.inr (.inr (.inr (.inl ?_))))
      dsimp only [step] at h
      split at h
      · next hw => exact ⟨rfl, hw, (Option.some.inj h).symm⟩
      · cases h
  | cancel =>
      obtain ⟨halive, h⟩ := Option.ite_none_right_eq_some.mp h
      exact .inr (.inr (.inr (.inr (.inr (.inl ⟨rfl, halive, (Option.some.inj h).symm⟩)))))
  | destroy =>
      obtain ⟨halive, h⟩ := Option.ite_none_right_eq_some.mp h
      exact .inr (.inr (.inr (.inr (.inr (.inr ⟨rfl, halive, (Option.some.inj h).symm⟩)))))

/-! ### Cancelled timers -/

/-- What a timer may show: its handler starts for waits that expired, and not
after `cancel` has returned. -/
structure Sound (log : List TimerEvent) : Prop where
  expired : ∀ e, .started e ∈ log → e = .expired
  silent : log.Pairwise fun a b => a = .cancelled → ∀ e, b ≠ .started e

theorem sound_snoc_cancelled {log : List TimerEvent} (h : Sound log) :
    Sound (log ++ [.cancelled]) := by
  constructor
  · intro e he
    exact h.expired e (by simpa using he)
  · refine List.pairwise_append.mpr ⟨h.silent, List.pairwise_singleton _ _, ?_⟩
    intro a _ b hb _ e
    rw [List.mem_singleton.mp hb]
    exact TimerEvent.noConfusion

theorem sound_snoc_started_iff {log : List TimerEvent} {e : Ended} (h : Sound log) :
    Sound (log ++ [.started e]) ↔ e = .expired ∧ .cancelled ∉ log := by
  constructor
  · intro h'
    refine ⟨h'.expired e (by simp), fun hmem => ?_⟩
    exact (List.pairwise_append.mp h'.silent).2.2 _ hmem _ (List.mem_singleton_self _) rfl e rfl
  · rintro ⟨rfl, hnone⟩
    constructor
    · intro e he
      rcases List.mem_append.mp he with he | he
      · exact h.expired e he
      · cases List.mem_singleton.mp he
        rfl
    · refine List.pairwise_append.mpr ⟨h.silent, List.pairwise_singleton _ _, ?_⟩
      intro a ha b _ hcan
      exact absurd (hcan ▸ ha) hnone

/-- `cancel` and the destructor come when no wait is outstanding: before the
handler has returned, or after the last call of it.  The destructor must not
come while `repeat_call` has `set_` to read. -/
def Quiet (t : Timer) : Label → Prop
  | .cancel => t.wait.outstanding = false
  | .destroy => t.wait.outstanding = false ∧ t.wait ≠ .running .repeatCall
  | _ => True

instance : ∀ (t : Timer) (l : Label), Decidable (Quiet t l)
  | t, .cancel => inferInstanceAs (Decidable (t.wait.outstanding = false))
  | t, .destroy =>
      inferInstanceAs (Decidable (t.wait.outstanding = false ∧ t.wait ≠ .running .repeatCall))
  | _, .advance _ => isTrue trivial
  | _, .expire => isTrue trivial
  | _, .start => isTrue trivial
  | _, .finish _ => isTrue trivial
  | _, .rearm => isTrue trivial

/-- What holds of a timer that was cancelled in quiet only. -/
structure Calm (t : Timer) : Prop where
  sound : Sound t.log
  expired : ∀ {f e}, t.wait = .queued f e → e = .expired
  cancelled : .cancelled ∈ t.log → t.set = false ∧ t.wait.outstanding = false ∧
    (t.alive = false → t.wait ≠ .running .repeatCall)

theorem Made.calm (h : Made t) : Calm t := by
  obtain ⟨hlog, -, -, f, hwait⟩ := h.eq_arm
  constructor
  · rw [hlog]
    exact ⟨fun e he => absurd he List.not_mem_nil, List.Pairwise.nil⟩
  · intro f e hq
    rw [hwait] at hq
    cases hq
  · intro hmem
    rw [hlog] at hmem
    cases hmem

/-- A timer whose wait is outstanding was not cancelled. -/
theorem Calm.not_cancelled (h : Calm t) (hw : t.wait.outstanding = true) :
    .cancelled ∉ t.log := by
  intro hmem
  rw [(h.cancelled hmem).2.1] at hw
  cases hw

theorem abort_of_not_outstanding {w : Wait} (h : w.outstanding = false) : w.abort = w := by
  cases w with
  | armed f => cases h
  | idle => rfl
  | queued f e => rfl
  | running f => rfl
  | rearming => rfl

theorem cancel_of_not_outstanding (h : t.wait.outstanding = false) :
    t.cancel = { t with set := false } := by
  rw [cancel]
  split
  · rw [abort_of_not_outstanding h]
  · next hset => rw [← Bool.eq_false_of_not_eq_true hset]

theorem Calm.step (h : Calm t) (hq : Quiet t l) (hs : t.step l = some t') : Calm t' := by
  obtain ⟨ms, rfl, rfl⟩ | ⟨f, rfl, hw, rfl⟩ | ⟨f, e, rfl, hw, rfl⟩ | ⟨stray, f, rfl, hw, rfl⟩ |
    ⟨rfl, hw, rfl⟩ | ⟨rfl, halive, rfl⟩ | ⟨rfl, halive, rfl⟩ := step_cases hs
  · exact ⟨h.sound, h.expired, h.cancelled⟩
  · refine ⟨h.sound, fun hqueued => ?_, fun hmem => ?_⟩
    · cases hqueued
      rfl
    · exact absurd hmem (h.not_cancelled (by rw [hw]; rfl))
  · -- The handler starts: its wait expired, and nothing was cancelled.
    have hnone : .cancelled ∉ t.log := h.not_cancelled (by rw [hw]; rfl)
    refine ⟨(sound_snoc_started_iff h.sound).mpr ⟨h.expired hw, hnone⟩, ?_, fun hmem => ?_⟩
    · intro f e hqueued
      cases hqueued
    · exact absurd (by simpa using hmem) hnone
  · -- The handler returned: a cancelled timer is not armed again.
    refine ⟨h.sound, fun hqueued => ?_, fun hmem => ?_⟩
    · dsimp only at hqueued
      split_ifs at hqueued
    · obtain ⟨hset, -, hgone⟩ := h.cancelled hmem
      have hidle : ¬ (f = .repeatCall ∧ (if t.alive then t.set else stray) = true) := by
        rintro ⟨rfl, hread⟩
        cases halive : t.alive with
        | true =>
            rw [halive, if_pos rfl, hset] at hread
            cases hread
        | false => exact hgone halive hw
      dsimp only
      rw [if_neg hidle]
      exact ⟨hset, rfl, fun _ => Wait.noConfusion⟩
  · refine ⟨h.sound, (nomatch ·), fun hmem => ?_⟩
    exact absurd hmem (h.not_cancelled (by rw [hw]; rfl))
  · rw [cancel_of_not_outstanding hq]
    refine ⟨sound_snoc_cancelled h.sound, h.expired, fun _ => ⟨rfl, hq, fun hgone => ?_⟩⟩
    cases halive.symm.trans hgone
  · rw [destroy, cancel_of_not_outstanding hq.1]
    dsimp only
    rw [abort_of_not_outstanding hq.1]
    exact ⟨sound_snoc_cancelled h.sound, h.expired, fun _ => ⟨rfl, hq.1, fun _ => hq.2⟩⟩

/-! ### Waits that are left -/

/-- Steps of the executor, and not of the user of the timer. -/
def Label.IsExecutor : Label → Prop
  | .cancel => False
  | .destroy => False
  | _ => True

theorem quiet_of_isExecutor (h : l.IsExecutor) : Quiet t l := by
  cases l with
  | cancel => exact h.elim
  | destroy => exact h.elim
  | advance ms => trivial
  | expire => trivial
  | start => trivial
  | finish stray => trivial
  | rearm => trivial

/-- The executor brings about one more call of the handler. -/
def Starts (t : Timer) : Prop :=
  ∃ ms s e, (∀ l ∈ ms, l.IsExecutor) ∧ runSteps Timer.step t ms = some s ∧
    s.log = t.log ++ [.started e]

theorem starts_of_step (hl : l.IsExecutor) (hs : t.step l = some t') (hlog : t'.log = t.log)
    (h : Starts t') : Starts t := by
  obtain ⟨ms, s, e, hms, hrun, hend⟩ := h
  refine ⟨l :: ms, s, e, ?_, runSteps_cons_eq_some.mpr ⟨t', hs, hrun⟩, by rw [hend, hlog]⟩
  exact List.forall_mem_cons.mpr ⟨hl, hms⟩

theorem starts_of_queued {f : Completion} {e : Ended} (hw : t.wait = .queued f e) : Starts t := by
  refine ⟨[.start], { t with wait := .running f, log := t.log ++ [.started e] }, e, ?_, ?_, rfl⟩
  · exact List.forall_mem_singleton.mpr trivial
  · rw [runSteps, step, hw]
    rfl

theorem starts_of_armed {f : Completion} (hw : t.wait = .armed f) : Starts t := by
  refine starts_of_step (l := .advance (t.deadline - t.now)) trivial rfl rfl ?_
  have hdue : t.deadline ≤ t.now + (t.deadline - t.now) := by omega
  have hexpire : Timer.step { t with now := t.now + (t.deadline - t.now) } .expire
      = some { t with now := t.now + (t.deadline - t.now), wait := .queued f .expired } := by
    simp only [step, hw]
    rw [if_pos hdue]
  exact starts_of_step (l := .expire) trivial hexpire rfl (starts_of_queued rfl)

/-- A wait that is outstanding leads to a call of the handler. -/
theorem starts_of_outstanding (hw : t.wait.outstanding = true) : Starts t := by
  cases e : t.wait with
  | idle =>
      rw [e] at hw
      cases hw
  | running f =>
      rw [e] at hw
      cases hw
  | armed f => exact starts_of_armed e
  | queued f r => exact starts_of_queued e
  | rearming =>
      have hstep : t.step .rearm = some (t.arm t.interval .repeatCall) := by
        rw [step, e]
      exact starts_of_step (by trivial) hstep rfl (starts_of_armed rfl)

theorem not_sound_of_starts (hmem : .cancelled ∈ t.log) (h : Starts t) :
    ∃ ms s, (∀ l ∈ ms, l.IsExecutor) ∧ runSteps Timer.step t ms = some s ∧ ¬ Sound s.log := by
  obtain ⟨ms, s, e, hms, hrun, hlog⟩ := h
  refine ⟨ms, s, hms, hrun, fun hsound => ?_⟩
  rw [hlog] at hsound
  exact (List.pairwise_append.mp hsound.silent).2.2 _ hmem _ (List.mem_singleton_self _) rfl e rfl

theorem outstanding_abort (w : Wait) : w.abort.outstanding = w.outstanding := by
  cases w <;> rfl

theorem outstanding_cancel (t : Timer) : t.cancel.wait.outstanding = t.wait.outstanding := by
  rw [cancel]
  split
  · exact outstanding_abort t.wait
  · rfl

/-- A cancel that is not quiet leaves the executor with a call to make. -/
theorem exists_not_sound (hq : ¬ Quiet t l) (hs : t.step l = some t') :
    ∃ ms s, (∀ l ∈ ms, l.IsExecutor) ∧ runSteps Timer.step t' ms = some s ∧ ¬ Sound s.log := by
  cases l with
  | advance ms => exact absurd trivial hq
  | expire => exact absurd trivial hq
  | start => exact absurd trivial hq
  | finish stray => exact absurd trivial hq
  | rearm => exact absurd trivial hq
  | cancel =>
      obtain ⟨-, h⟩ := Option.ite_none_right_eq_some.mp hs
      obtain rfl := Option.some.inj h
      refine not_sound_of_starts (by simp) (starts_of_outstanding ?_)
      exact (outstanding_cancel t).trans (Bool.eq_true_of_not_eq_false hq)
  | destroy =>
      obtain ⟨-, h⟩ := Option.ite_none_right_eq_some.mp hs
      obtain rfl := Option.some.inj h
      refine not_sound_of_starts (by simp) ?_
      have hout : t.destroy.wait.outstanding = t.wait.outstanding := by
        rw [destroy, outstanding_abort, outstanding_cancel]
      cases hw : t.wait.outstanding with
      | true => exact starts_of_outstanding (hout.trans hw)
      | false =>
          -- `repeat_call` still has `set_` to read, and may find the next timer there.
          have hrun : t.wait = .running .repeatCall := not_not.mp fun hne => hq ⟨hw, hne⟩
          have hdead : t.destroy.wait = .running .repeatCall := by
            rw [destroy, cancel_of_not_outstanding hw]
            dsimp only
            rw [hrun]
            rfl
          have hstep : ({ t.destroy with log := t.log ++ [.cancelled] } : Timer).step (.finish true)
              = some { t.destroy with wait := .rearming, log := t.log ++ [.cancelled] } := by
            rw [step, hdead]
            rfl
          exact starts_of_step (by trivial) hstep rfl (starts_of_outstanding rfl)

/-- However the executor goes on after any of the steps `ls`, the timer calls
its handler for waits that expired only, and not after it was cancelled. -/
def AlwaysSound (t : Timer) (ls : List Label) : Prop :=
  ∀ pre ms s, pre <+: ls → (∀ l ∈ ms, l.IsExecutor) →
    runSteps Timer.step t (pre ++ ms) = some s → Sound s.log

/-- A timer of the service is silent after it was cancelled exactly when it is
cancelled and destroyed while no wait is outstanding. -/
theorem alwaysSound_iff (hmade : Made t) (hrun : runSteps Timer.step t ls = some s) :
    AlwaysSound t ls ↔ Along Timer.step Quiet t ls := by
  constructor
  · intro h
    by_contra hq
    obtain ⟨pre, l, post, t₁, t₂, rfl, -, hpre, hl, hstep, -⟩ := exists_first_of_not_along hq hrun
    obtain ⟨ms, u, hms, hlast, hbad⟩ := exists_not_sound hl hstep
    refine hbad (h (pre ++ [l]) ms u ⟨post, by simp⟩ hms ?_)
    rw [runSteps_append, runSteps_snoc_eq_some.mpr ⟨t₁, hpre, hstep⟩]
    exact hlast
  · intro hq pre ms u hpre hms hu
    rw [runSteps_append, Option.bind_eq_some_iff] at hu
    obtain ⟨t₁, h₁, hu⟩ := hu
    have hcalm : Calm t₁ := (hq.of_prefix hpre).invariant Calm.step hmade.calm h₁
    have hexec : Along Timer.step Quiet t₁ ms :=
      along_of_forall fun l hl _ => quiet_of_isExecutor (hms l hl)
    exact (hexec.invariant Calm.step hcalm hu).sound

/-- The handler of a repeating timer cancels it in its second call, and the
last reference goes afterwards. -/
def cancelInside : List Label :=
  [.advance 100, .expire, .start, .finish false, .rearm, .advance 100, .expire, .start, .cancel,
    .finish false, .destroy]

theorem alwaysSound_cancelInside :
    AlwaysSound (serviceRepeat false 100) cancelInside := by
  have hrun : runSteps Timer.step (serviceRepeat false 100) cancelInside = some
      { strand := false, set := false, alive := false, interval := 100, now := 200,
        deadline := 200, wait := .idle,
        log := [.started .expired, .started .expired, .cancelled, .cancelled] } := by
    decide
  exact (alwaysSound_iff (.again false 100) hrun).mpr (by decide)

/-- `cancel` comes while the wait of a `once` is pending, and the handler is
called all the same. -/
theorem cancelledOnce_starts :
    ∃ t s, serviceOnce false 300 = .done t ∧ runSteps Timer.step t [.cancel, .start] = some s ∧
      s.log = [.cancelled, .started .aborted] ∧ ¬ Sound s.log := by
  refine ⟨_, _, rfl, rfl, rfl, fun h => ?_⟩
  cases h.expired .aborted (by decide)

/-! ### Repeating timers -/

/-- The number of calls of the handler. -/
def invocations (t : Timer) : ℕ :=
  t.log.countP fun e => e ≠ .cancelled

/-- Take a step where it is enabled. -/
def attempt (t : Timer) (l : Label) : Timer :=
  (t.step l).getD t

/-- The handler of the call `n` calls `cancel` if `cancels n`. -/
def handler (cancels : ℕ → Bool) (t : Timer) : Timer :=
  match t.wait with
  | .running _ => if cancels (t.invocations - 1) then t.attempt .cancel else t
  | _ => t

/-- One interval goes by, and what is due then is done at once. -/
def elapse (cancels : ℕ → Bool) (t : Timer) : Timer :=
  let t := (t.attempt (.advance t.interval)).attempt .expire
  let t := (t.attempt .start).handler cancels
  (t.attempt (.finish false)).attempt .rearm

/-- The timer after `n` intervals. -/
def after (cancels : ℕ → Bool) (t : Timer) (n : ℕ) : Timer :=
  (elapse cancels)^[n] t

/-- The calls that are due in `n` intervals: one in each, until one of them
cancels. -/
def due (cancels : ℕ → Bool) (n : ℕ) : ℕ :=
  (List.range n).countP fun i => (List.range i).all fun j => !cancels j

variable {cancels : ℕ → Bool} {f : Completion} {n : ℕ}

/-- Armed for the end of the interval that begins now. -/
structure Ready (t : Timer) (f : Completion) : Prop where
  set : t.set = true
  alive : t.alive = true
  wait : t.wait = .armed f
  deadline : t.deadline = t.now + t.interval

theorem elapse_of_idle (h : t.wait = .idle) :
    elapse cancels t = { t with now := t.now + t.interval } := by
  simp [elapse, attempt, step, handler, h]

/-- The timer while its handler runs, in the interval at whose begin it was
ready. -/
def called (t : Timer) (f : Completion) : Timer :=
  { t with
    now := t.now + t.interval
    wait := .running f
    log := t.log ++ [.started .expired] }

theorem invocations_called (t : Timer) (f : Completion) :
    (t.called f).invocations = t.invocations + 1 := by
  rw [invocations, called, List.countP_append]
  rfl

theorem elapse_of_ready (h : t.Ready f) :
    elapse cancels t
      = (((t.called f).handler cancels).attempt (.finish false)).attempt .rearm := by
  have hstart : ((t.attempt (.advance t.interval)).attempt .expire).attempt .start
      = t.called f := by
    simp [attempt, step, called, h.wait, h.deadline]
  rw [elapse, hstart]

theorem handler_called (t : Timer) (f : Completion) :
    (t.called f).handler cancels
      = if cancels t.invocations then (t.called f).attempt .cancel else t.called f := by
  rw [handler, invocations_called]
  rfl

theorem attempt_cancel_called (h : t.Ready f) :
    (t.called f).attempt .cancel
      = { t.called f with set := false, log := (t.called f).log ++ [.cancelled] } := by
  simp [attempt, step, cancel, called, h.set, h.alive, Wait.abort]

theorem attempt_eq_or (t : Timer) (l : Label) :
    t.attempt l = t ∨ t.step l = some (t.attempt l) := by
  rw [attempt]
  cases t.step l with
  | none => exact .inl rfl
  | some t' => exact .inr rfl

theorem log_step (h : t.step l = some t') :
    t'.log = t.log ∨ l = .start ∨ l = .cancel ∨ l = .destroy := by
  obtain ⟨_, rfl, rfl⟩ | ⟨_, rfl, -, rfl⟩ | ⟨_, _, rfl, -⟩ | ⟨_, _, rfl, -, rfl⟩ | ⟨rfl, -, rfl⟩ |
    ⟨rfl, -⟩ | ⟨rfl, -⟩ := step_cases h
  · exact .inl rfl
  · exact .inl rfl
  · exact .inr (.inl rfl)
  · exact .inl rfl
  · exact .inl rfl
  · exact .inr (.inr (.inl rfl))
  · exact .inr (.inr (.inr rfl))

theorem log_attempt (t : Timer) (h : ¬ (l = .start ∨ l = .cancel ∨ l = .destroy)) :
    (t.attempt l).log = t.log := by
  obtain hskip | hstep := t.attempt_eq_or l
  · rw [hskip]
  · exact (log_step hstep).resolve_right h

/-- In the interval of a ready timer the handler is called once. -/
theorem invocations_elapse (h : t.Ready f) :
    (elapse cancels t).invocations = t.invocations + 1 := by
  rw [elapse_of_ready h, invocations, log_attempt _ (by decide), log_attempt _ (by decide),
    ← invocations, handler_called]
  split
  · rw [attempt_cancel_called h, ← invocations_called t f, invocations, List.countP_append]
    rfl
  · exact invocations_called t f

/-- Only `repeat_call` arms the timer again. -/
theorem elapse_idle_of_call (h : t.Ready .call) : (elapse cancels t).wait = .idle := by
  rw [elapse_of_ready h, handler_called]
  split
  · rw [attempt_cancel_called h]
    rfl
  · rfl

theorem elapse_idle_of_cancels (h : t.Ready .repeatCall) (hc : cancels t.invocations = true) :
    (elapse cancels t).wait = .idle := by
  rw [elapse_of_ready h, handler_called, if_pos hc, attempt_cancel_called h]
  simp [attempt, step, called, h.alive]

theorem elapse_ready (h : t.Ready .repeatCall) (hc : cancels t.invocations = false) :
    (elapse cancels t).Ready .repeatCall := by
  have hc' : ¬ cancels t.invocations = true := by simp [hc]
  rw [elapse_of_ready h, handler_called, if_neg hc']
  simp only [attempt, step, called, h.alive, h.set, arm, if_true, Option.getD_some]
  exact ⟨rfl, rfl, rfl, rfl⟩

/-! ### Intervals one after the other -/

theorem exists_run_attempt {l : Label} (h : ∃ ls, runSteps Timer.step t ls = some s) :
    ∃ ls, runSteps Timer.step t ls = some (s.attempt l) := by
  obtain hskip | hstep := s.attempt_eq_or l
  · rwa [hskip]
  · obtain ⟨ls, hrun⟩ := h
    exact ⟨ls ++ [l], runSteps_snoc_eq_some.mpr ⟨s, hrun, hstep⟩⟩

theorem exists_run_handler (cancels : ℕ → Bool) (h : ∃ ls, runSteps Timer.step t ls = some s) :
    ∃ ls, runSteps Timer.step t ls = some (s.handler cancels) := by
  rw [handler]
  split
  · split
    · exact exists_run_attempt h
    · exact h
  · exact h

/-- The intervals are runs of the timer. -/
theorem exists_run_after (cancels : ℕ → Bool) (t : Timer) (n : ℕ) :
    ∃ ls, runSteps Timer.step t ls = some (after cancels t n) := by
  induction n with
  | zero => exact ⟨[], rfl⟩
  | succ n ih =>
      rw [after, Function.iterate_succ_apply', ← after, elapse]
      refine exists_run_attempt (exists_run_attempt (exists_run_handler cancels ?_))
      exact exists_run_attempt (exists_run_attempt (exists_run_attempt ih))

theorem after_succ (cancels : ℕ → Bool) (t : Timer) (n : ℕ) :
    after cancels t (n + 1) = elapse cancels (after cancels t n) :=
  Function.iterate_succ_apply' _ _ _

/-- No call up to the one with the number `n` cancels. -/
def Undisturbed (cancels : ℕ → Bool) (n : ℕ) : Prop :=
  ∀ j < n, cancels j = false

instance (cancels : ℕ → Bool) (n : ℕ) : Decidable (Undisturbed cancels n) :=
  inferInstanceAs (Decidable (∀ j < n, cancels j = false))

theorem due_succ (cancels : ℕ → Bool) (n : ℕ) :
    due cancels (n + 1) = due cancels n + if Undisturbed cancels n then 1 else 0 := by
  rw [due, List.range_succ, List.countP_append, ← due]
  have hall : ((List.range n).all fun j => !cancels j) = true ↔ Undisturbed cancels n := by
    simp [Undisturbed]
  rw [List.countP_singleton]
  exact congrArg _ (if_congr hall rfl rfl)

/-- A timer that fires no more. -/
theorem after_of_idle (h : t.wait = .idle) (n : ℕ) :
    (after cancels t n).wait = .idle ∧ (after cancels t n).invocations = t.invocations := by
  induction n with
  | zero => exact ⟨h, rfl⟩
  | succ n ih =>
      rw [after_succ, elapse_of_idle ih.1]
      exact ih

theorem undisturbed_succ :
    Undisturbed cancels (n + 1) ↔ Undisturbed cancels n ∧ cancels n = false := by
  unfold Undisturbed
  rw [Nat.forall_lt_succ_right]

theorem due_of_undisturbed (h : Undisturbed cancels n) : due cancels n = n := by
  induction n with
  | zero => rfl
  | succ n ih =>
      obtain ⟨hn, -⟩ := undisturbed_succ.mp h
      rw [due_succ, ih hn, if_pos hn]

theorem after_repeat_ready (ms : ℕ) (h : Undisturbed cancels n) :
    (after cancels (serviceRepeat false ms) n).Ready .repeatCall ∧
      (after cancels (serviceRepeat false ms) n).invocations = n := by
  induction n with
  | zero => exact ⟨⟨rfl, rfl, rfl, rfl⟩, rfl⟩
  | succ n ih =>
      obtain ⟨hn, hc⟩ := undisturbed_succ.mp h
      obtain ⟨hready, hcount⟩ := ih hn
      rw [after_succ]
      refine ⟨elapse_ready hready (by rw [hcount, hc]), ?_⟩
      rw [invocations_elapse hready, hcount]

/-- A repeating timer without a strand makes the calls that are due. -/
theorem after_repeat_plain (cancels : ℕ → Bool) (ms n : ℕ) :
    (after cancels (serviceRepeat false ms) n).invocations = due cancels n ∧
      (¬ Undisturbed cancels n → (after cancels (serviceRepeat false ms) n).wait = .idle) := by
  induction n with
  | zero =>
      refine ⟨rfl, fun h => absurd (fun j hj => ?_) h⟩
      exact absurd hj (Nat.not_lt_zero j)
  | succ n ih =>
      by_cases hn : Undisturbed cancels n
      · obtain ⟨hready, hcount⟩ := after_repeat_ready ms hn
        rw [after_succ, due_succ, if_pos hn, invocations_elapse hready, ih.1]
        refine ⟨rfl, fun h => elapse_idle_of_cancels hready ?_⟩
        rw [hcount]
        exact Bool.eq_true_of_not_eq_false fun hc => h (undisturbed_succ.mpr ⟨hn, hc⟩)
      · obtain ⟨hcount, hidle⟩ := ih
        rw [after_succ, due_succ, if_neg hn, elapse_of_idle (hidle hn)]
        exact ⟨hcount, fun _ => hidle hn⟩

/-- A repeating timer on a strand makes one call. -/
theorem after_repeat_strand (cancels : ℕ → Bool) (ms n : ℕ) :
    (after cancels (serviceRepeat true ms) n).invocations = min n 1 := by
  have hready : (serviceRepeat true ms).Ready .call := ⟨rfl, rfl, rfl, rfl⟩
  cases n with
  | zero => rfl
  | succ n =>
      rw [after, Function.iterate_succ_apply, ← after,
        (after_of_idle (elapse_idle_of_call hready) n).2, invocations_elapse hready]
      exact (Nat.min_eq_right (Nat.le_add_left 1 n)).symm

theorem due_of_first_cancels (h : cancels 0 = true) (n : ℕ) : due cancels (n + 1) = 1 := by
  induction n with
  | zero => rfl
  | succ n ih =>
      have hn : ¬ Undisturbed cancels (n + 1) := by
        intro hn
        rw [hn 0 n.succ_pos] at h
        cases h
      rw [due_succ, if_neg hn, ih]

theorem two_le_due (h : cancels 0 = false) (n : ℕ) : 2 ≤ due cancels (n + 2) := by
  induction n with
  | zero =>
      have hone : Undisturbed cancels 1 := by
        intro j hj
        obtain rfl := Nat.lt_one_iff.mp hj
        exact h
      rw [due_succ, if_pos hone, due_of_undisturbed hone]
  | succ n ih =>
      rw [due_succ]
      exact Nat.le_add_right_of_le ih

/-- The calls that are due stop at one exactly when the first of them cancels,
or when there was time for one only. -/
theorem due_eq_min_iff (cancels : ℕ → Bool) (n : ℕ) :
    due cancels n = min n 1 ↔ n ≤ 1 ∨ cancels 0 = true := by
  rcases n with - | - | n
  · exact ⟨fun _ => .inl (by omega), fun _ => rfl⟩
  · exact ⟨fun _ => .inl (by omega), fun _ => rfl⟩
  rw [Nat.min_eq_right (by omega)]
  cases hc : cancels 0 with
  | true => exact ⟨fun _ => .inr rfl, fun _ => due_of_first_cancels hc (n + 1)⟩
  | false =>
      have htwo : 2 ≤ due cancels (n + 1 + 1) := two_le_due hc n
      simp only [Bool.false_eq_true, or_false]
      omega

/-- With and without a strand a repeating timer calls its handler the same
number of times, that of the calls due, exactly when at most one interval has
gone by or the handler cancels in its first call. -/
theorem repeat_same_iff (cancels : ℕ → Bool) (ms n : ℕ) :
    (after cancels (serviceRepeat true ms) n).invocations
          = (after cancels (serviceRepeat false ms) n).invocations ∧
        (after cancels (serviceRepeat false ms) n).invocations = due cancels n ↔
      n ≤ 1 ∨ cancels 0 = true := by
  rw [after_repeat_strand, (after_repeat_plain cancels ms n).1, ← due_eq_min_iff, eq_comm]
  exact and_iff_left rfl

/-- Five intervals, and a handler that never cancels. -/
theorem repeat_strand_stops :
    (after (fun _ => false) (serviceRepeat true 200) 5).invocations = 1 ∧
      (after (fun _ => false) (serviceRepeat false 200) 5).invocations = 5 ∧
      due (fun _ => false) 5 = 5 := by
  decide

end Timer
end Play
