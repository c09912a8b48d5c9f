/-
Play/CallFb.lean

`pulse_fb::call`: the request is sent first and registered afterwards.

In between, other threads of the runner go on.  A reply or the close can
arrive when the callbacks of the first call are not subscribed yet, and then
nobody is told; and the handler of a reply or of the close can run when the
call is not in its queue yet, and then it does not find it.

The steps here are sending (which may fail, and then the error callback runs
at once), registering a call that was sent, the arrival of a reply, the close
and the runner.  `Orderly` says of each step that it does not fall into such a
gap.  Along orderly steps, when everything is registered and has run, the
error callback of a call ran once if the session closed before the reply, and
never otherwise, and every reply was matched with its own call.
-/
import Play.Handling

namespace Play

/-- A pulse with one session, and the calls that were sent and are not
registered yet, each with its number. -/
structure FbCalling (T : Type) where
  base : Calling T
  flight : List (ℕ × Call T) := []

namespace FbCalling

open Calling

variable {T : Type} [LinearOrder T]

/-- A pulse with the session `a`. -/
def new (a : SessionKey) : FbCalling T where
  base := { pulse := { session := a } }

/-- The numbers of the calls in flight with a response topic. -/
def flightOf (s : FbCalling T) (res : T) : List ℕ :=
  (s.flight.filter fun p => p.2.res == res).map Prod.fst

/-! ### Runs -/

/-- The steps around `pulse_fb::call`. -/
inductive Step (T : Type)
  | send (req res : T) (ok : Bool)
  | register (i : ℕ) (c : Call T)
  | reply (res : T)
  | close
  | run

section

variable (topicClosed : T)

/-- The first half of `pulse_fb::call`; `ok` is what `send` returns. -/
def send (s : FbCalling T) (req res : T) (ok : Bool) : FbCalling T :=
  let c : Call T := { session := s.base.pulse.session, req, res, onWire := ok }
  let i := s.base.made.length
  if ok then
    { base := { s.base with made := s.base.made ++ [c] }, flight := s.flight ++ [(i, c)] }
  else { s with base := { s.base with made := s.base.made ++ [c], ran := s.base.ran ++ [i] } }

/-- The second half of `pulse_fb::call`. -/
def register (s : FbCalling T) (i : ℕ) (c : Call T) : FbCalling T where
  base := s.base.call topicClosed c.req c.res i
  flight := s.flight.erase (i, c)

/-- The step function.  A response topic is one that frames can have, and
sending on a closed session fails. -/
def step (s : FbCalling T) : Step T → Option (FbCalling T)
  | .send req res ok =>
      if res ≠ topicClosed ∧ (ok = true → s.base.pulse.session ∉ s.base.closed) then
        some (s.send req res ok)
      else none
  | .register i c => if (i, c) ∈ s.flight then some (s.register topicClosed i c) else none
  | .reply res => (s.base.reply s.base.pulse.session res).map fun b => { s with base := b }
  | .close => (s.base.close topicClosed s.base.pulse.session).map fun b => { s with base := b }
  | .run => s.base.runNext.map fun b => { s with base := b }

/-- If the next handler is that of a reply, a call waits in its queue; if it
is that of the close, no call is in flight. -/
def Finds (s : FbCalling T) : Option (Job T) → Prop
  | some (.handler (.reply r) _) => s.base.callersOf r ≠ []
  | some (.handler .closed _) => s.flight = []
  | some (.handler (.user _) _) => True
  | some (.failure _) => True
  | none => True

instance (s : FbCalling T) : (j : Option (Job T)) → Decidable (s.Finds j)
  | some (.handler (.reply r) _) => inferInstanceAs (Decidable (s.base.callersOf r ≠ []))
  | some (.handler .closed _) => inferInstanceAs (Decidable (s.flight = []))
  | some (.handler (.user _) _) => isTrue trivial
  | some (.failure _) => isTrue trivial
  | none => isTrue trivial

/-- The step does not fall between the sending and the registering of a call.

* Topics are used in pairs, and calls are registered in the order in which
  they were sent.
* A reply arrives when a call with its topic has been registered.
* The session closes when no call is in flight or one has been registered.
* A handler that runs finds its call. -/
def Orderly (s : FbCalling T) : Step T → Prop
  | .send req res _ => ∀ c ∈ s.base.made, c.req = req ↔ c.res = res
  | .register i c => (s.flight.filter fun p => p.2.res == c.res).head? = some (i, c)
  | .reply res => (s.base.callPairs res).isSome = true
  | .close => s.flight = [] ∨
      ⟨s.base.pulse.session, .closed⟩ ∈ s.base.pulse.subscriptions topicClosed
  | .run => s.Finds s.base.posted.head?

instance (s : FbCalling T) : (l : Step T) → Decidable (Orderly topicClosed s l)
  | .send req res _ => inferInstanceAs (Decidable (∀ c ∈ s.base.made, c.req = req ↔ c.res = res))
  | .register i c => inferInstanceAs
      (Decidable ((s.flight.filter fun p => p.2.res == c.res).head? = some (i, c)))
  | .reply res => inferInstanceAs (Decidable ((s.base.callPairs res).isSome = true))
  | .close => inferInstanceAs (Decidable (_ ∨ _))
  | .run => inferInstanceAs (Decidable (s.Finds s.base.posted.head?))

end

/-! ### The claim on a state -/

/-- How often the error callback of a call has to run in the end: once if it
was not sent, or if the session closed before its reply. -/
def due (s : FbCalling T) (i : ℕ) (c : Call T) : ℕ :=
  if c.onWire = true ∧ ¬ s.base.Lost i c then 0 else 1

/-- No notice is lost, and none is given in error. -/
structure NoneLost (s : FbCalling T) : Prop where
  /-- No error callback has run too often. -/
  only : ∀ {i c}, s.base.made[i]? = some c → s.base.ran.count i ≤ s.due i c
  /-- When every call is registered and every handler has run, each has run. -/
  settled : s.flight = [] → s.base.posted = [] → ∀ {i c}, s.base.made[i]? = some c →
    s.base.ran.count i = s.due i c
  /-- The replies that were handled were matched with the calls in order. -/
  matched : ∀ res, s.base.answeredOf res <+: idsOf s.base.made res
  /-- The handlers run. -/
  runs : s.flight = [] → s.base.posted ≠ [] → s.base.runNext.isSome = true

/-! ### The invariant -/

/-- One if the call was not sent. -/
def refused (s : Calling T) (i : ℕ) : ℕ :=
  if s.made[i]?.any (fun c => !c.onWire) then 1 else 0

/-- What was posted for the error callback of a call has run or is still
posted. -/
def Accounted (s : Calling T) : Prop :=
  ∀ i, s.ran.count i + s.posted.count (.failure i) = s.failed.count i + refused s i

/-- All calls are tracked, as far as they are registered. -/
structure Inv (topicClosed : T) (a : SessionKey) (s : FbCalling T) : Prop where
  session : s.base.pulse.session = a
  tracked : ∃ reg, Tracked topicClosed a reg s.base ∧
    ((∃ rs, Waiting a s.flightOf rs s.base) ∨ (Over a s.base ∧ s.flight = []))
  noUser : ∀ pic, s.base.hiddenSubs pic = s.base.pulse.subscriptions pic
  flight : ∀ p ∈ s.flight, p.2 ∈ s.base.made
  accounted : Accounted s.base

variable {topicClosed : T} {a : SessionKey} {s s' : FbCalling T}

theorem inv_new (ha : a ≠ 0) : Inv topicClosed a (new a) where
  session := rfl
  tracked := by
    refine ⟨false, ⟨ha, ?_, ?_, ?_, ?_, ?_, rfl, fun _ _ => rfl, fun _ _ => rfl⟩, .inl ⟨[], ?_⟩⟩
    · simp [new]
    · simp [new]
    · simp [new]
    · simp [new]
    · simp [new]
    · exact ⟨rfl, fun _ => rfl, fun _ => rfl, fun _ => Nat.zero_le _, rfl⟩
  noUser _ := rfl
  flight := by simp [new]
  accounted _ := rfl

/-! ### Accounting -/

omit [LinearOrder T] in
theorem refused_snoc (s : Calling T) (c : Call T) (ran : List ℕ) (i : ℕ) :
    refused { s with made := s.made ++ [c], ran } i =
      refused s i + if i = s.made.length ∧ c.onWire = false then 1 else 0 := by
  simp only [refused]
  rcases Nat.lt_trichotomy i s.made.length with hi | rfl | hi
  · rw [List.getElem?_append_left hi, if_neg (fun h : i = _ ∧ _ => by omega), Nat.add_zero]
  · rcases hw : c.onWire with - | - <;> simp [hw]
  · have h₁ : (s.made ++ [c])[i]? = none := by
      rw [List.getElem?_eq_none_iff, List.length_append, List.length_singleton]
      omega
    have h₂ : s.made[i]? = none := List.getElem?_eq_none_iff.mpr hi.le
    rw [h₁, h₂, if_neg (fun h : i = _ ∧ _ => by omega)]
    rfl

theorem count_failure_dispatch (s : Calling T) (se : SessionKey) (pic : T) (i : ℕ) :
    (s.dispatch se pic).posted.count (.failure i) = s.posted.count (.failure i) := by
  rw [dispatch, List.count_append, Nat.add_eq_left, List.count_eq_zero]
  simp

/-- A handler accounts for what it posts. -/
theorem Accounted.runNext {b b' : Calling T} (h : Accounted b) (hs : b.runNext = some b') :
    Accounted b' := by
  rw [Calling.runNext] at hs
  rcases hp : b.posted with - | ⟨j, js⟩ <;> rw [hp] at hs
  · cases hs
  rcases j with ⟨cb, se⟩ | cb
  · have hpop : Accounted { b with posted := js } := by
      intro i
      have := h i
      rwa [hp, List.count_cons_of_ne (by simp)] at this
    cases cb with
    | user id =>
        obtain rfl := Option.some.inj hs
        exact hpop
    | reply pic =>
        simp only [runJob, callReceive] at hs
        repeat' split at hs
        all_goals cases hs
        all_goals exact hpop
    | closed =>
        simp only [runJob, callClosed] at hs
        split at hs
        · cases hs
          exact hpop
        · -- the callbacks are posted behind the jobs that are there
          cases hs
          intro i
          have hcbs : (b.waitingCbs.map Job.failure).count (Job.failure (T := T) i)
              = b.waitingCbs.count i :=
            List.count_map_of_injective _ _ (fun _ _ h => Job.failure.inj h) i
          have := hpop i
          show b.ran.count i + (js ++ b.waitingCbs.map Job.failure).count (Job.failure i)
            = (b.failed ++ b.waitingCbs).count i + refused b i
          rw [List.count_append, List.count_append, hcbs]
          change b.ran.count i + js.count (Job.failure i) = b.failed.count i + refused b i at this
          omega
  · obtain rfl := Option.some.inj hs
    intro i
    have := h i
    show (b.ran ++ [cb]).count i + js.count (Job.failure i) = b.failed.count i + refused b i
    rw [hp, List.count_cons] at this
    rw [List.count_append, List.count_singleton]
    simp only [beq_iff_eq, Job.failure.injEq] at this ⊢
    omega

/-! ### One step -/

theorem Inv.send (h : Inv topicClosed a s) {req res : T} {ok : Bool} (hres : res ≠ topicClosed)
    (hok : ok = true → s.base.pulse.session ∉ s.base.closed)
    (ho : Orderly topicClosed s (.send req res ok)) : Inv topicClosed a (s.send req res ok) := by
  obtain ⟨reg, hT, hphase⟩ := h.tracked
  have hpaired : ∀ d ∈ s.base.made, req = d.req ↔ res = d.res := fun d hd => by
    rw [eq_comm, ho d hd, eq_comm]
  have hflight : ∀ {c p}, p ∈ s.flight → p.2 ∈ s.base.made ++ [c] := fun hp =>
    List.mem_append_left _ (h.flight _ hp)
  cases ok with
  | true =>
      let c : Call T := { session := s.base.pulse.session, req, res, onWire := true }
      -- the call is the last one in flight with its topic
      have hfl : (s.send req res true).flightOf
          = Function.update s.flightOf res (s.flightOf res ++ [s.base.made.length]) := by
        funext r
        have hnew : (s.send req res true).flight = s.flight ++ [(s.base.made.length, c)] := rfl
        rw [flightOf, hnew, List.filter_append, List.map_append, ← flightOf]
        by_cases hr : r = res
        · subst hr
          simp [c]
        · simp [c, hr, Ne.symm hr]
      refine ⟨h.session, ⟨reg, hT.send (c := c) h.session hres hpaired s.base.ran, .inl ?_⟩,
        h.noUser, ?_, fun i => ?_⟩
      · rcases hphase with ⟨rs, hw⟩ | ⟨hover, -⟩
        · rw [hfl]
          exact ⟨rs, hw.send (c := c) rfl s.base.ran⟩
        · exact absurd (h.session ▸ hover.closed) (hok rfl)
      · intro p hp
        rcases List.mem_append.mp hp with hp | hp
        · exact hflight hp
        · rw [List.mem_singleton.mp hp]
          exact List.mem_append_right _ List.mem_cons_self
      · refine (h.accounted i).trans (congrArg _ ?_)
        refine Eq.trans ?_ (refused_snoc s.base c s.base.ran i).symm
        simp [c]
  | false =>
      let c : Call T := { session := s.base.pulse.session, req, res, onWire := false }
      refine ⟨h.session, ⟨reg, hT.send (c := c) h.session hres hpaired _, ?_⟩, h.noUser,
        fun p hp => hflight hp, fun i => ?_⟩
      · rcases hphase with ⟨rs, hw⟩ | ⟨hover, hnone⟩
        · exact .inl ⟨rs, hw.refuse (c := c) rfl _⟩
        · exact .inr ⟨hover.refuse (c := c) rfl _, hnone⟩
      · -- the error callback runs at once, and the call counts as refused
        have hold := h.accounted i
        have hnew := refused_snoc s.base c (s.base.ran ++ [s.base.made.length]) i
        show (s.base.ran ++ [s.base.made.length]).count i + s.base.posted.count (.failure i)
          = s.base.failed.count i + refused { s.base with made := s.base.made ++ [c], ran := _ } i
        rw [hnew, List.count_append, List.count_singleton]
        simp only [beq_iff_eq, c, and_true, eq_comm (a := i)]
        omega

/-- `call` adds hidden subscriptions only. -/
theorem noUser_call {b : Calling T} (h : ∀ pic, b.hiddenSubs pic = b.pulse.subscriptions pic)
    (req res : T) (i : ℕ) (pic : T) :
    (b.call topicClosed req res i).hiddenSubs pic
      = (b.call topicClosed req res i).pulse.subscriptions pic := by
  have hsub : ∀ {b : Calling T}, (∀ pic, b.hiddenSubs pic = b.pulse.subscriptions pic) →
      ∀ (t : T) {cb : CallCb T}, cb.isUser = false →
      ∀ pic, (b.subscribe t cb).hiddenSubs pic = (b.subscribe t cb).pulse.subscriptions pic := by
    intro b hb t cb hcb pic
    rw [hiddenSubs_subscribe, hb]
    by_cases hpic : pic = t
    · subst hpic
      simp [subscribe, Pulse.keepInterest, Pulse.pushSubscription, hcb]
    · simp [subscribe, Pulse.keepInterest, Pulse.pushSubscription, hpic]
  have hclosed : ∀ pic, (b.callSubscribeClosed topicClosed).hiddenSubs pic
      = (b.callSubscribeClosed topicClosed).pulse.subscriptions pic := by
    unfold callSubscribeClosed
    split
    · exact hsub h topicClosed rfl
    · exact h
  change ((b.callSubscribeClosed topicClosed).callSubscribeReply res).hiddenSubs pic
    = ((b.callSubscribeClosed topicClosed).callSubscribeReply res).pulse.subscriptions pic
  revert pic
  unfold callSubscribeReply
  split
  · exact hsub hclosed res rfl
  · exact hclosed

theorem Inv.register (h : Inv topicClosed a s) {i : ℕ} {c : Call T} (hmem : (i, c) ∈ s.flight)
    (ho : Orderly topicClosed s (.register i c)) :
    Inv topicClosed a (s.register topicClosed i c) := by
  obtain ⟨reg, hT, hphase⟩ := h.tracked
  have hc : c ∈ s.base.made := h.flight _ hmem
  obtain ⟨tail, htail⟩ := List.head?_eq_some_iff.mp ho
  have hfl : s.flightOf c.res = i :: tail.map Prod.fst := by
    rw [flightOf, htail]
    rfl
  have hnew : (s.register topicClosed i c).flightOf
      = Function.update s.flightOf c.res (tail.map Prod.fst) := by
    funext r
    show ((s.flight.erase (i, c)).filter _).map Prod.fst = _
    rw [← List.erase_filter]
    by_cases hr : r = c.res
    · subst hr
      rw [htail, List.erase_cons_head, Function.update_self]
    · rw [List.erase_of_not_mem (by simp [Ne.symm hr]), Function.update_of_ne hr]
      rfl
  -- the only subscriptions are the hidden ones, for the session that we have
  have hclosed : s.base.pulse.subscriptions topicClosed = [] ∨
      ⟨a, .closed⟩ ∈ s.base.pulse.subscriptions topicClosed := by
    rw [← h.noUser, hT.closedSubs]
    cases reg <;> simp
  have hreply : s.base.pulse.subscriptions c.res = [] ∨
      ⟨a, .reply c.res⟩ ∈ s.base.pulse.subscriptions c.res := by
    rw [← h.noUser, hT.replySubs c.res (hT.topic c hc)]
    cases (s.base.callPairs c.res).isSome <;> simp
  obtain ⟨o, hcall, hsession⟩ := call_eq topicClosed s.base c.req c.res i
  rcases hphase with ⟨rs, hw⟩ | ⟨-, hnone⟩
  swap
  · rw [hnone] at hmem
    cases hmem
  refine ⟨?_, ⟨true, hT.call h.session hc i hclosed hreply, .inl ⟨rs, ?_⟩⟩,
    noUser_call h.noUser c.req c.res i, ?_, ?_⟩
  · show (s.base.call topicClosed c.req c.res i).pulse.session = a
    rw [hcall]
    exact hsession.trans h.session
  · rw [hnew]
    exact hw.call hT hc hfl
  · intro p hp
    show p.2 ∈ (s.base.call topicClosed c.req c.res i).made
    rw [hcall]
    exact h.flight p (List.mem_of_mem_erase hp)
  · show Accounted (s.base.call topicClosed c.req c.res i)
    rw [hcall]
    exact h.accounted

theorem Inv.reply (h : Inv topicClosed a s) {res : T} {b : Calling T}
    (hs : s.base.reply s.base.pulse.session res = some b)
    (ho : Orderly topicClosed s (.reply res)) : Inv topicClosed a { s with base := b } := by
  obtain ⟨reg, hT, hphase⟩ := h.tracked
  refine ⟨?_, ⟨reg, hT.reply hs, ?_⟩, ?_, ?_, ?_⟩
  · obtain ⟨-, rfl⟩ := reply_eq_some.mp hs
    exact h.session
  · rcases hphase with ⟨rs, hw⟩ | ⟨hover, -⟩
    · exact .inl ⟨_, hw.reply hT ho hs⟩
    · exact absurd hover.closed (hT.reply_session hs).2.1
  all_goals obtain ⟨-, rfl⟩ := reply_eq_some.mp hs
  · exact h.noUser
  · exact h.flight
  · exact fun i => (congrArg (_ + ·) (count_failure_dispatch s.base _ res i)).trans (h.accounted i)

theorem Inv.close (h : Inv topicClosed a s) {b : Calling T}
    (hs : s.base.close topicClosed s.base.pulse.session = some b)
    (ho : Orderly topicClosed s .close) : Inv topicClosed a { s with base := b } := by
  obtain ⟨reg, hT, hphase⟩ := h.tracked
  have hs' := hs
  rw [h.session] at hs'
  refine ⟨?_, ⟨reg, hT.close hs, ?_⟩, ?_, ?_, ?_⟩
  · obtain ⟨-, rfl⟩ := close_eq_some.mp hs
    exact h.session
  · rcases hphase with ⟨rs, hw⟩ | ⟨hover, -⟩
    · cases reg with
      | true => exact .inl ⟨rs, hw.close hT hs'⟩
      | false =>
          -- no call was registered, so none can be in flight
          have hfl : s.flight = [] := by
            refine ho.resolve_right fun hmem => ?_
            have := mem_hiddenSubs hmem rfl
            rw [hT.closedSubs] at this
            cases this
          have hnone : ∀ res, s.flightOf res = [] := fun res => by rw [flightOf, hfl]; rfl
          exact .inr ⟨hw.close_idle hT hnone hs', hfl⟩
    · exact absurd hover.closed (close_eq_some.mp hs').1.2
  all_goals obtain ⟨-, rfl⟩ := close_eq_some.mp hs
  · exact h.noUser
  · exact h.flight
  · exact fun i => (congrArg (_ + ·) (count_failure_dispatch s.base _ _ i)).trans (h.accounted i)

/-- A handler that finds its call runs. -/
theorem Inv.runNext (h : Inv topicClosed a s) (hne : s.base.posted ≠ [])
    (ho : s.Finds s.base.posted.head?) :
    ∃ b, s.base.runNext = some b ∧ Inv topicClosed a { s with base := b } := by
  obtain ⟨reg, hT, hphase⟩ := h.tracked
  obtain ⟨j, js, hp⟩ := List.exists_cons_of_ne_nil hne
  rw [hp] at ho
  -- beyond the phase, a handler keeps everything that the invariant is about
  have hkeep : ∀ {b}, s.base.runNext = some b → Tracked topicClosed a reg b →
      ((∃ rs, Waiting a s.flightOf rs b) ∨ (Over a b ∧ s.flight = [])) →
      Inv topicClosed a { s with base := b } := by
    intro b hrun hT' hphase'
    obtain ⟨hpulse, hmade, -⟩ := runNext_frame hrun
    refine ⟨?_, ⟨reg, hT', hphase'⟩, ?_, ?_, h.accounted.runNext hrun⟩
    · show b.pulse.session = a
      rw [hpulse, h.session]
    · intro pic
      show (b.pulse.subscriptions pic).filter _ = b.pulse.subscriptions pic
      rw [hpulse]
      exact h.noUser pic
    · show ∀ p ∈ s.flight, p.2 ∈ b.made
      rw [hmade]
      exact h.flight
  rcases hphase with ⟨rs, hw⟩ | ⟨hover, hnone⟩
  · by_cases hj : isHidden j = false
    · obtain ⟨ran, hrun⟩ := runNext_of_not_hidden hp hj
      exact ⟨_, hrun, hkeep hrun { hT with } (.inl ⟨rs, hw.pop hp hj ran⟩)⟩
    rcases j with ⟨cb, se⟩ | cb
    · cases cb with
      | user id => exact absurd rfl hj
      | reply r =>
          obtain ⟨b, rs', hrun, hT', hw'⟩ := hw.receive hT hp ho
          exact ⟨b, hrun, hkeep hrun hT' (.inl ⟨rs', hw'⟩)⟩
      | closed =>
          have hfl : s.flight = [] := ho
          have hnone : ∀ res, s.flightOf res = [] := fun res => by rw [flightOf, hfl]; rfl
          have hse := (hw.pop_closed hp).2.1
          obtain ⟨b, hrun, hT', hover⟩ := hw.over hT hp hnone (.inl (h.session.trans hse.symm))
          exact ⟨b, hrun, hkeep hrun hT' (.inr ⟨hover, hfl⟩)⟩
    · exact absurd rfl hj
  · have hj := hover.not_hidden hp
    obtain ⟨ran, hrun⟩ := runNext_of_not_hidden hp hj
    exact ⟨_, hrun, hkeep hrun { hT with } (.inr ⟨hover.pop hp hj ran, hnone⟩)⟩

/-- Orderly steps keep the invariant. -/
theorem Inv.step {l : Step T} (h : Inv topicClosed a s) (ho : Orderly topicClosed s l)
    (hs : step topicClosed s l = some s') : Inv topicClosed a s' := by
  cases l with
  | send req res ok =>
      rw [FbCalling.step] at hs
      split at hs
      · next hok =>
          obtain rfl := Option.some.inj hs
          exact h.send hok.1 hok.2 ho
      · cases hs
  | register i c =>
      rw [FbCalling.step] at hs
      split at hs
      · next hmem =>
          obtain rfl := Option.some.inj hs
          exact h.register hmem ho
      · cases hs
  | reply res =>
      obtain ⟨b, hb, rfl⟩ := Option.map_eq_some_iff.mp hs
      exact h.reply hb ho
  | close =>
      obtain ⟨b, hb, rfl⟩ := Option.map_eq_some_iff.mp hs
      exact h.close hb ho
  | run =>
      obtain ⟨b, hb, rfl⟩ := Option.map_eq_some_iff.mp hs
      have hne : s.base.posted ≠ [] := by
        intro hnone
        rw [Calling.runNext, hnone] at hb
        cases hb
      obtain ⟨b', hrun, hinv⟩ := h.runNext hne ho
      obtain rfl := Option.some.inj (hrun.symm.trans hb)
      exact hinv

/-! ### No notice is lost -/

omit [LinearOrder T] in
theorem refused_eq {b : Calling T} {i : ℕ} {c : Call T} (hc : b.made[i]? = some c) :
    refused b i = if c.onWire = true then 0 else 1 := by
  rw [refused, hc]
  rcases hw : c.onWire with - | - <;> simp [hw]

/-- With no call in flight, the next handler finds its call. -/
theorem Inv.finds (h : Inv topicClosed a s) (hnone : s.flight = []) :
    s.Finds s.base.posted.head? := by
  obtain ⟨reg, hT, hphase⟩ := h.tracked
  rcases hp : s.base.posted with - | ⟨⟨cb, se⟩ | cb, js⟩
  · trivial
  · cases cb with
    | user id => trivial
    | closed => exact hnone
    | reply r =>
        rcases hphase with ⟨rs, hw⟩ | ⟨hover, -⟩
        · refine hw.callersOf_ne_nil_of_reply hp ?_
          rw [flightOf, hnone]
          rfl
        · cases hover.not_hidden hp
  · trivial


theorem Inv.noneLost (h : Inv topicClosed a s) : NoneLost s := by
  obtain ⟨reg, hT, hphase⟩ := id h.tracked
  have hran : ∀ {i c}, s.base.made[i]? = some c →
      s.base.ran.count i + s.base.posted.count (.failure i)
        = s.base.failed.count i + if c.onWire = true then 0 else 1 := by
    intro i c hc
    rw [h.accounted i, refused_eq hc]
  have hruns : s.flight = [] → s.base.posted ≠ [] → s.base.runNext.isSome = true := by
    intro hnone hne
    obtain ⟨b, hrun, -⟩ := h.runNext hne (h.finds hnone)
    rw [hrun]
    rfl
  rcases hphase with ⟨rs, hw⟩ | ⟨hover, -⟩
  · refine ⟨fun {i c} hc => ?_, fun _ hnone i c hc => ?_, fun res => ?_, hruns⟩
    · have := hran hc
      rw [hw.failed, List.count_nil] at this
      rw [due]
      split
      · next hdue =>
          rw [if_pos hdue.1] at this
          omega
      · split at this <;> omega
    · -- nothing is posted, so the session has not closed
      have := hran hc
      rw [hw.failed, hnone, List.count_nil, List.count_nil] at this
      simp only [due, hw.not_lost hT hnone hc, not_false_eq_true, and_true]
      omega
    · rw [← hw.calls res]
      exact List.prefix_append _ _
  · have hcount : ∀ {i c}, s.base.made[i]? = some c →
        s.base.ran.count i + s.base.posted.count (.failure i) = s.due i c := by
      intro i c hc
      rw [hran hc, hover.count_failed hT hc, due]
      by_cases hwire : c.onWire = true <;> by_cases hlost : s.base.Lost i c <;>
        simp [hwire, hlost]
    refine ⟨fun {i c} hc => ?_, fun _ hnone i c hc => ?_, fun res => ?_, hruns⟩
    · exact (Nat.le_add_right _ _).trans (hcount hc).le
    · have := hcount hc
      rwa [hnone, List.count_nil, Nat.add_zero] at this
    · rw [hover.matched res]
      exact List.take_prefix _ _

/-- **No notice is lost if no step falls into a gap**: along every run with
orderly steps, in every state passed through, no error callback has run too
often, replies were matched with their own calls, and once every call is
registered and every handler has run, the error callback of a call ran once
if it was not sent or the session closed before its reply, and did not run
otherwise. -/
theorem noneLost_of_orderly (topicClosed : T) {a : SessionKey} (ha : a ≠ 0) (ls : List (Step T))
    (h : Along (step topicClosed) (Orderly topicClosed) (new a) ls) :
    Always (step topicClosed) NoneLost (new a) ls := by
  intro pre s hpre hrun
  have hinv : Inv topicClosed a s :=
    (h.of_prefix hpre).invariant (fun hs ho hstep => hs.step ho hstep) (inv_new ha) hrun
  exact hinv.noneLost

/-- Two calls on session 7.  The second one is registered when its reply is
there, the reply of the first is handled, and the session closes. -/
def secondLost : List (Step ℕ) :=
  [.send 21 22 true, .register 0 ⟨7, 21, 22, true⟩, .send 21 22 true, .reply 22,
    .register 1 ⟨7, 21, 22, true⟩, .close, .run, .run, .run]

theorem noneLost_secondLost :
    (∃ s, runSteps (step 2) (new 7 : FbCalling ℕ) secondLost = some s ∧
      s.base.posted = [] ∧ s.base.ran = [1]) ∧
    Always (step 2) NoneLost (new 7 : FbCalling ℕ) secondLost := by
  have hend : (runSteps (step 2) (new 7 : FbCalling ℕ) secondLost).map
      (fun s => (s.base.posted, s.base.ran)) = some ([], [1]) := by
    decide +kernel
  obtain ⟨s, hrun, hs⟩ := Option.map_eq_some_iff.mp hend
  obtain ⟨hposted, hran⟩ := Prod.mk.inj hs
  exact ⟨⟨s, hrun, hposted, hran⟩,
    noneLost_of_orderly 2 (by decide) secondLost (by decide +kernel)⟩

/-- The session closes between the sending and the registering. -/
def closeInGap : List (Step ℕ) :=
  [.send 21 22 true, .close, .register 0 ⟨7, 21, 22, true⟩]

/-- **A notice that is lost**: nobody is subscribed to the close yet. -/
theorem closeInGap_untold :
    ∃ s, runSteps (step 2) (new 7 : FbCalling ℕ) closeInGap = some s ∧ s.flight = [] ∧
      s.base.posted = [] ∧ ¬ NoneLost s := by
  have hend : (runSteps (step 2) (new 7 : FbCalling ℕ) closeInGap).map
      (fun s => (decide (s.flight = [] ∧ s.base.posted = []), s.base.made,
        s.due 0 ⟨7, 21, 22, true⟩, s.base.ran)) = some (true, [⟨7, 21, 22, true⟩], 1, []) := by
    decide +kernel
  obtain ⟨s, hrun, hs⟩ := Option.map_eq_some_iff.mp hend
  simp only [Prod.mk.injEq, decide_eq_true_eq] at hs
  obtain ⟨⟨hflight, hposted⟩, hmade, hdue, hran⟩ := hs
  refine ⟨s, hrun, hflight, hposted, fun h => ?_⟩
  have hone := h.settled hflight hposted (i := 0) (c := ⟨7, 21, 22, true⟩) (by rw [hmade]; rfl)
  rw [hdue, hran] at hone
  cases hone

end FbCalling

end Play
