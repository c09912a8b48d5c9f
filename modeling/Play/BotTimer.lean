/-
Play/BotTimer.lean

A bot and the timer that updates it.

`bot::on_start` activates the flow and asks the runner for a repeating timer
on the strand of the bot, whose handler is `bot::update`.  On a strand the
first wait calls the handler and not `repeat_call`, so that no second wait is
ever started (`Single`).  A bot is updated at most once, whatever the interval
and whoever cancels the timer: of the program of its flow it plays one step
(`played_once`).
-/
import Play.Script
import Play.Timer

namespace Play

/-! ### Timers on a strand -/

namespace Timer

variable {t t' : Timer} {l : Label}

/-- The call of the handler that a wait leads to. -/
def calls : Wait → ℕ
  | .armed _ => 1
  | .queued _ _ => 1
  | _ => 0

/-- The wait calls the handler when it is over, and nothing else. -/
def CallsHandler : Wait → Prop
  | .idle => True
  | .armed f => f = .call
  | .queued f _ => f = .call
  | .running f => f = .call
  | .rearming => False

/-- The handler was called, or is about to be, at most once. -/
structure Single (t : Timer) : Prop where
  handler : CallsHandler t.wait
  once : t.invocations + calls t.wait ≤ 1

theorem single_serviceRepeat (ms : ℕ) : Single (serviceRepeat true ms) where
  handler := rfl
  once := Nat.le_refl 1

theorem callsHandler_abort {w : Wait} (h : CallsHandler w) : CallsHandler w.abort := by
  cases w with
  | armed f => exact h
  | idle => exact h
  | queued f e => exact h
  | running f => exact h
  | rearming => exact h

theorem calls_abort (w : Wait) : calls w.abort = calls w := by
  cases w <;> rfl

theorem invocations_snoc_cancelled (t : Timer) :
    Timer.invocations { t with log := t.log ++ [.cancelled] } = t.invocations := by
  rw [invocations, invocations]
  exact List.countP_append.trans (Nat.add_zero _)

theorem invocations_snoc_started (t : Timer) (e : Ended) :
    Timer.invocations { t with log := t.log ++ [.started e] } = t.invocations + 1 :=
  List.countP_append

theorem Single.cancel (h : Single t) : Single t.cancel := by
  rw [Timer.cancel]
  split
  · refine ⟨callsHandler_abort h.handler, ?_⟩
    show t.invocations + calls t.wait.abort ≤ 1
    rw [calls_abort]
    exact h.once
  · exact h

theorem Single.snoc_cancelled (h : Single t) : Single { t with log := t.log ++ [.cancelled] } := by
  refine ⟨h.handler, ?_⟩
  rw [invocations_snoc_cancelled]
  exact h.once

theorem Single.destroy (h : Single t) : Single t.destroy := by
  refine ⟨callsHandler_abort h.cancel.handler, ?_⟩
  show t.cancel.invocations + calls t.cancel.wait.abort ≤ 1
  rw [calls_abort]
  exact h.cancel.once

theorem log_cancel (t : Timer) : t.cancel.log = t.log := by
  rw [Timer.cancel]
  split <;> rfl

theorem invocations_cancel (t : Timer) : t.cancel.invocations = t.invocations := by
  rw [invocations, log_cancel, invocations]

theorem Single.step (h : Single t) (hs : t.step l = some t') : Single t' := by
  obtain ⟨ms, rfl, rfl⟩ | ⟨f, rfl, hw, rfl⟩ | ⟨f, e, rfl, hw, rfl⟩ | ⟨stray, f, rfl, hw, rfl⟩ |
    ⟨rfl, hw, rfl⟩ | ⟨rfl, halive, rfl⟩ | ⟨rfl, halive, rfl⟩ := step_cases hs
  · exact ⟨h.handler, h.once⟩
  · have hcall := h.handler
    have honce := h.once
    rw [hw] at hcall honce
    exact ⟨hcall, honce⟩
  · -- the call that the wait led to
    have hcall := h.handler
    have honce := h.once
    rw [hw] at hcall honce
    refine ⟨hcall, ?_⟩
    show Timer.invocations { t with log := t.log ++ [.started e] } + 0 ≤ 1
    rw [invocations_snoc_started]
    exact honce
  · -- the handler returns, and the lambda with it
    have hcall : f = .call := by
      have := h.handler
      rwa [hw] at this
    have honce := h.once
    rw [hw] at honce
    subst hcall
    rw [if_neg fun hrepeat => Completion.noConfusion hrepeat.1]
    exact ⟨trivial, honce⟩
  · have hcall := h.handler
    rw [hw] at hcall
    exact hcall.elim
  · have hend := h.cancel.snoc_cancelled
    rwa [log_cancel] at hend
  · have hend := h.destroy.snoc_cancelled
    rwa [show t.destroy.log = t.log from log_cancel t] at hend

/-- A step calls the handler exactly when it is the start of a completion. -/
theorem invocations_step (hs : t.step l = some t') :
    t'.invocations = t.invocations + if l = .start then 1 else 0 := by
  obtain ⟨ms, rfl, rfl⟩ | ⟨f, rfl, hw, rfl⟩ | ⟨f, e, rfl, hw, rfl⟩ | ⟨stray, f, rfl, hw, rfl⟩ |
    ⟨rfl, hw, rfl⟩ | ⟨rfl, halive, rfl⟩ | ⟨rfl, halive, rfl⟩ := step_cases hs
  · rfl
  · rfl
  · exact invocations_snoc_started t e
  · rfl
  · rfl
  · have hend := (invocations_snoc_cancelled t.cancel).trans (invocations_cancel t)
    rwa [log_cancel] at hend
  · have hend := (invocations_snoc_cancelled t.destroy).trans (invocations_cancel t)
    rwa [show t.destroy.log = t.log from log_cancel t] at hend

end Timer

/-! ### Bots with their timers -/

namespace Script

open Programs

/-- A bot that was started: `bot_timer_` is the timer. -/
structure TimedBot where
  player : Player
  timer : Timer

/-- What happens to a started bot. -/
inductive BotEvent
  /-- A step of its timer; `elapsed` is what the clock says if that is the call
  of the handler. -/
  | timer (l : Timer.Label) (elapsed : ℕ)
  /-- `ensure::stop_bots` stops it. -/
  | stop

namespace TimedBot

/-- `bot::on_start`, with the "ensure.update_interval" of its JSON. -/
def start (es : List Entry) (interval : ℕ) : TimedBot :=
  { player := Player.start es, timer := Timer.serviceRepeat true interval }

/-- The update of the current act stops the bot. -/
def exits (es : List Entry) (s : Player) (elapsed : ℕ) : Bool :=
  (es[s.bot.root.current]?).any fun e => e.onUpdate elapsed == .returned (some .exit)

def step (es : List Entry) (s : TimedBot) : BotEvent → Option TimedBot
  | .timer l elapsed =>
      (s.timer.step l).map fun t =>
        if l = .start then
          { player := s.player.update es elapsed
            -- `bot::on_stop` cancels the timer
            timer := if exits es s.player elapsed then t.attempt .cancel else t }
        else { s with timer := t }
  | .stop => some { player := s.player.take es .stop, timer := s.timer.attempt .cancel }

variable {es : List Entry} {s s' : TimedBot} {ev : BotEvent} {ls : List BotEvent}

/-- The bot has played a step of its program for each call of the handler. -/
structure Inv (es : List Entry) (s : TimedBot) : Prop where
  single : s.timer.Single
  played : At es s.player
    { run (compile es) s.timer.invocations with exited := s.player.stopped }

theorem single_attempt_cancel {t : Timer} (h : t.Single) : (t.attempt .cancel).Single := by
  rcases t.attempt_eq_or .cancel with hskip | hstep
  · rwa [hskip]
  · exact h.step hstep

theorem invocations_attempt_cancel (t : Timer) :
    (t.attempt .cancel).invocations = t.invocations := by
  rcases t.attempt_eq_or .cancel with hskip | hstep
  · rw [hskip]
  · exact Timer.invocations_step hstep

theorem inv_start (hes : es ≠ []) (interval : ℕ) : Inv es (start es interval) where
  single := Timer.single_serviceRepeat interval
  played := at_start hes

/-- Whether the program has exited already makes no difference to a step. -/
theorem step_exited (p : List (Instr Text)) (m : Machine Text) (b : Bool) :
    Programs.step p { m with exited := b } =
      { Programs.step p m with exited := (Programs.step p { m with exited := b }).exited } := by
  rw [Programs.step, Programs.step]
  dsimp only
  rcases moveAt p m.counter with - | i | - <;> rfl

/-- One more step was played. -/
theorem played_succ {pl : Player} {n : ℕ} (elapsed : ℕ)
    (h : At es pl { run (compile es) n with exited := pl.stopped }) :
    At es (pl.update es elapsed)
      { run (compile es) (n + 1) with exited := (pl.update es elapsed).stopped } := by
  have hnext := h.update elapsed
  rw [step_exited, ← hnext.stopped, ← run_succ] at hnext
  exact hnext

theorem Inv.step (h : Inv es s) (hs : s.step es ev = some s') : Inv es s' := by
  cases ev with
  | timer l elapsed =>
      obtain ⟨t, ht, rfl⟩ := Option.map_eq_some_iff.mp hs
      have hsingle := h.single.step ht
      have hcount := Timer.invocations_step ht
      by_cases hl : l = .start
      · rw [if_pos hl] at hcount ⊢
        have hplayed := played_succ elapsed h.played
        rw [← hcount] at hplayed
        split
        · refine ⟨single_attempt_cancel hsingle, ?_⟩
          rw [invocations_attempt_cancel]
          exact hplayed
        · exact ⟨hsingle, hplayed⟩
      · rw [if_neg hl, Nat.add_zero] at hcount
        rw [if_neg hl]
        refine ⟨hsingle, ?_⟩
        rw [hcount]
        exact h.played
  | stop =>
      obtain rfl := Option.some.inj hs
      refine ⟨single_attempt_cancel h.single, ?_⟩
      rw [invocations_attempt_cancel]
      have hstopped : (s.player.take es .stop).stopped = true := Bool.or_true _
      rw [hstopped]
      exact h.played.take_stop

/-- **A bot plays at most one step of its flow.**  In every run of a started
bot and its timer, with updates at any times, cancels and stops anywhere, the
handler was called at most once; the act that is current and all that was
logged are those of the program after that many steps. -/
theorem played_once (es : List Entry) (hes : es ≠ []) (interval : ℕ)
    (hrun : runSteps (step es) (start es interval) ls = some s) :
    s.timer.invocations ≤ 1 ∧
      s.player.bot.root.current = (run (compile es) s.timer.invocations).counter ∧
      s.player.log = (run (compile es) s.timer.invocations).shown := by
  have hinv : Inv es s := runSteps_invariant Inv.step (inv_start hes interval) hrun
  obtain ⟨live, on, hbot⟩ := hinv.played.bot
  refine ⟨le_trans (Nat.le_add_right _ _) hinv.single.once, ?_, hinv.played.log⟩
  rw [hbot]
  rfl

/-- The timer expires, the bot is stopped, and it is updated all the same. -/
def stoppedFirst : List BotEvent :=
  [.timer (.advance 200) 0, .timer .expire 0, .stop, .timer .start 200]

theorem played_once_stoppedFirst :
    ∃ s, runSteps (step pausedFlow) (start pausedFlow 200) stoppedFirst = some s ∧
      s.timer.invocations ≤ 1 ∧
      s.player.log = (run (compile pausedFlow) s.timer.invocations).shown := by
  have hrun : ∃ s, runSteps (step pausedFlow) (start pausedFlow 200) stoppedFirst = some s :=
    ⟨_, rfl⟩
  obtain ⟨s, hs⟩ := hrun
  obtain ⟨hle, -, hlog⟩ := played_once pausedFlow (List.cons_ne_nil _ _) 200 hs
  exact ⟨s, hs, hle, hlog⟩

end TimedBot

end Script

end Play
