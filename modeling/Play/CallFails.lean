/-
Play/CallFails.lean

When a call fails exactly if its session closes first.

`call` subscribes its two hidden callbacks only if the pulse has no
subscription to the topic at all.  A subscription of the user, or a hidden one
for another session, counts as one, and then the call is not tracked: a reply
does not take it from its queue, or the close does not find it.  The close
handler also gives up if the pulse has been given another session meanwhile,
and it posts the error callbacks of all queues, which is right if all calls
are on the session that closed.

`Orderly` says of a single call and of a single run of the close handler that
none of this happens.  Along runs with orderly steps, a call fails exactly
once if its session closes before its reply, and not otherwise.
-/
import Play.Handling

namespace Play

namespace Calling

variable {T : Type} [LinearOrder T]

/-! ### Runs -/

/-- The steps around a pulse that makes calls. -/
inductive Step (T : Type)
  | subscribe (pic : T) (id : ℕ)
  | withSession (ss : SessionKey)
  | call (req res : T)
  | reply (ss : SessionKey) (res : T)
  | close (ss : SessionKey)
  | run

section

variable (topicClosed : T)

/-- A call is made.  The pulse has a session, the response topic is one that
frames can have, and no other request topic uses it. -/
def makeCall (s : Calling T) (req res : T) : Option (Calling T) :=
  if s.pulse.session ≠ 0 ∧ res ≠ topicClosed ∧ ∀ c ∈ s.made, c.res = res → c.req = req then
    let c : Call T := { session := s.pulse.session, req, res }
    some (call topicClosed { s with made := s.made ++ [c] } req res s.made.length)
  else none

/-- The step function. -/
def step (s : Calling T) : Step T → Option (Calling T)
  | .subscribe pic id => some (s.subscribe pic (.user id))
  | .withSession ss => some (s.withSession ss)
  | .call req res => s.makeCall topicClosed req res
  | .reply ss res => s.reply ss res
  | .close ss => s.close topicClosed ss
  | .run => s.runNext

/-- If the next handler is that of a close, the pulse still has the session,
or nobody waits. -/
def HandlesClose (s : Calling T) : Option (Job T) → Prop
  | some (.handler .closed se) => s.pulse.session = se ∨ s.waitingCbs = []
  | some (.handler (.user _) _) => True
  | some (.handler (.reply _) _) => True
  | some (.failure _) => True
  | none => True

instance (s : Calling T) : (j : Option (Job T)) → Decidable (s.HandlesClose j)
  | some (.handler .closed se) =>
      inferInstanceAs (Decidable (s.pulse.session = se ∨ s.waitingCbs = []))
  | some (.handler (.user _) _) => isTrue trivial
  | some (.handler (.reply _) _) => isTrue trivial
  | some (.failure _) => isTrue trivial
  | none => isTrue trivial

/-- The call is tracked, and the close is handled.

* At a call: the hidden callbacks are there for the current session, or will
  be because the topics have no subscription at all; the close of the session
  has not been handled; and the request topic is used with this response topic
  only.
* When a handler runs: if it is that of a close, it does its work. -/
def Orderly (s : Calling T) : Step T → Prop
  | .call req res =>
      (s.pulse.subscriptions topicClosed = [] ∨
        ⟨s.pulse.session, .closed⟩ ∈ s.pulse.subscriptions topicClosed) ∧
      (s.pulse.subscriptions res = [] ∨
        ⟨s.pulse.session, .reply res⟩ ∈ s.pulse.subscriptions res) ∧
      (s.pulse.session ∉ s.closed ∨ .handler .closed s.pulse.session ∈ s.posted) ∧
      ∀ c ∈ s.made, c.req = req → c.res = res
  | .run => s.HandlesClose s.posted.head?
  | .subscribe _ _ => True
  | .withSession _ => True
  | .reply _ _ => True
  | .close _ => True

instance (s : Calling T) : (l : Step T) → Decidable (Orderly topicClosed s l)
  | .call _ _ => inferInstanceAs (Decidable (_ ∧ _))
  | .run => inferInstanceAs (Decidable (s.HandlesClose s.posted.head?))
  | .subscribe _ _ => isTrue trivial
  | .withSession _ => isTrue trivial
  | .reply _ _ => isTrue trivial
  | .close _ => isTrue trivial

end

/-! ### The claim on a state -/

/-- The error callback of a call is posted at most once and only if the call
is lost, and, when all handlers have run, it was posted if the call is lost.
The handlers do run. -/
structure FailsExactly (s : Calling T) : Prop where
  only : ∀ {i c}, s.made[i]? = some c → s.failed.count i ≤ if s.Lost i c then 1 else 0
  once : s.posted = [] → ∀ {i c}, s.made[i]? = some c →
    s.failed.count i = if s.Lost i c then 1 else 0
  runs : s.posted ≠ [] → s.runNext.isSome = true

/-! ### The invariant -/

/-- No call was made yet. -/
structure Fresh (s : Calling T) : Prop where
  made : s.made = []
  subs : ∀ pic, s.hiddenSubs pic = []
  jobs : s.hiddenJobs = []
  pairs : ∀ res, s.callPairs res = none
  keys : s.callKeys = ∅
  answered : s.answered = []
  replies : ∀ ss res, s.replies ss res = 0
  failed : s.failed = []

/-- Every call is registered at once. -/
def noFlight : T → List ℕ := fun _ => []

/-- No call was made, or all are on one session and are tracked. -/
def CallInv (topicClosed : T) (s : Calling T) : Prop :=
  Fresh s ∨ ∃ a, Tracked topicClosed a true s ∧ (∀ c ∈ s.made, c.onWire = true ∧
    (s.callPairs c.res).isSome = true) ∧ ((∃ rs, Waiting a noFlight rs s) ∨ Over a s)

variable {topicClosed : T} {a : SessionKey} {s s' : Calling T}

omit [LinearOrder T] in
theorem Fresh.tracked (h : Fresh s) (ha : a ≠ 0) : Tracked topicClosed a false s where
  ne_zero := ha
  session := by simp [h.made]
  topic := by simp [h.made]
  paired := by simp [h.made]
  pairs hp := by simp [h.pairs] at hp
  keys := by simp [h.keys]
  closedSubs := h.subs _
  replySubs res _ := by simp [h.subs, h.pairs]
  unregistered _ := h.pairs

theorem Fresh.waiting (h : Fresh s) (ha : a ∉ s.closed) : Waiting a noFlight [] s where
  jobs := by simp [h.jobs, ha]
  calls res := by simp [answeredOf, h.answered, callersOf, h.pairs, noFlight, h.made, idsOf]
  counted res := by simp [answeredOf, h.answered, h.replies]
  bound res := by simp [h.replies]
  failed := h.failed

omit [LinearOrder T] in
theorem Fresh.setPulse (h : Fresh s) {o : Pulse T (CallCb T)}
    (ho : ∀ pic, { s with pulse := o }.hiddenSubs pic = s.hiddenSubs pic) :
    Fresh { s with pulse := o } :=
  ⟨h.made, fun pic => (ho pic).trans (h.subs pic), h.jobs, h.pairs, h.keys, h.answered, h.replies,
    h.failed⟩

/-! ### One step -/

/-- Changes of the pulse that keep the hidden subscriptions. -/
theorem CallInv.setPulse (h : CallInv topicClosed s) {o : Pulse T (CallCb T)}
    (ho : ∀ pic, { s with pulse := o }.hiddenSubs pic = s.hiddenSubs pic) :
    CallInv topicClosed { s with pulse := o } := by
  rcases h with h | ⟨a, hT, hmade, ⟨rs, hw⟩ | hover⟩
  · exact .inl (h.setPulse ho)
  · exact .inr ⟨a, hT.setPulse ho, hmade, .inl ⟨rs, hw.setPulse o⟩⟩
  · exact .inr ⟨a, hT.setPulse ho, hmade, .inr (hover.setPulse o)⟩

theorem CallInv.subscribe (h : CallInv topicClosed s) (pic : T) (id : ℕ) :
    CallInv topicClosed (s.subscribe pic (.user id)) := by
  refine h.setPulse fun pic' => ?_
  refine (hiddenSubs_subscribe s pic pic' (.user id)).trans ?_
  rw [if_neg (by simp [CallCb.isUser]), List.append_nil]

theorem makeCall_eq_some {req res : T} :
    s.makeCall topicClosed req res = some s' ↔
      (s.pulse.session ≠ 0 ∧ res ≠ topicClosed ∧ ∀ c ∈ s.made, c.res = res → c.req = req) ∧
      call topicClosed { s with made := s.made ++ [{ session := s.pulse.session, req, res }] }
        req res s.made.length = s' := by
  rw [makeCall]
  split <;> simp_all

/-- A tracked call, on the session of the others. -/
theorem Waiting.makeCall {reg : Bool} {rs : List T} (hT : Tracked topicClosed a reg s)
    (h : Waiting a noFlight rs s) (hsession : s.pulse.session = a) {req res : T}
    (ho : Orderly topicClosed s (.call req res)) (hs : s.makeCall topicClosed req res = some s') :
    Tracked topicClosed a true s' ∧ Waiting a noFlight rs s' := by
  obtain ⟨⟨-, hres, hreq⟩, rfl⟩ := makeCall_eq_some.mp hs
  obtain ⟨hclosed, hreply, -, hpair⟩ := ho
  subst hsession
  let c : Call T := { session := s.pulse.session, req, res }
  have hT' : Tracked topicClosed s.pulse.session reg { s with made := s.made ++ [c] } :=
    hT.send rfl hres (fun d hd =>
      ⟨fun e => (hpair d hd e.symm).symm, fun e => (hreq d hd e.symm).symm⟩) s.ran
  have hw' := h.send (c := c) rfl s.ran
  have hc : c ∈ { s with made := s.made ++ [c] }.made := List.mem_append_right _ List.mem_cons_self
  refine ⟨hT'.call rfl hc _ hclosed hreply, ?_⟩
  -- sending and registering at once: the call is in flight in between only
  have hfl : Function.update noFlight res (noFlight res ++ [s.made.length]) res
      = [s.made.length] := by
    rw [Function.update_self]
    rfl
  have hnone : Function.update (Function.update noFlight res (noFlight res ++ [s.made.length]))
      res [] = noFlight := by
    rw [Function.update_idem]
    exact Function.update_eq_self res noFlight
  have hnew := hw'.call hT' hc hfl
  rw [show c.res = res from rfl, hnone] at hnew
  exact hnew

/-- The new call is registered as well. -/
theorem registered_makeCall {req res : T} (hs : s.makeCall topicClosed req res = some s')
    (h : ∀ c ∈ s.made, c.onWire = true ∧ (s.callPairs c.res).isSome = true) :
    ∀ c ∈ s'.made, c.onWire = true ∧ (s'.callPairs c.res).isSome = true := by
  obtain ⟨-, rfl⟩ := makeCall_eq_some.mp hs
  have hpairs := callPairs_call topicClosed
    { s with made := s.made ++ [{ session := s.pulse.session, req, res }] } req res s.made.length
  obtain ⟨o, ho, -⟩ := call_eq topicClosed
    { s with made := s.made ++ [{ session := s.pulse.session, req, res }] } req res s.made.length
  intro c hc
  rw [hpairs]
  rw [ho] at hc
  by_cases hres : c.res = res
  · rw [hres, Function.update_self]
    rcases List.mem_append.mp hc with hc | hc
    · exact ⟨(h c hc).1, rfl⟩
    · rw [List.mem_singleton.mp hc]
      exact ⟨rfl, rfl⟩
  · rw [Function.update_of_ne hres]
    rcases List.mem_append.mp hc with hc | hc
    · exact h c hc
    · rw [List.mem_singleton.mp hc] at hres
      exact absurd rfl hres

theorem CallInv.makeCall (h : CallInv topicClosed s) {req res : T}
    (ho : Orderly topicClosed s (.call req res)) (hs : s.makeCall topicClosed req res = some s') :
    CallInv topicClosed s' := by
  obtain ⟨⟨hne, -, -⟩, -⟩ := makeCall_eq_some.mp hs
  obtain ⟨hclosed, -, hopen, -⟩ := id ho
  rcases h with h | ⟨a, hT, hmade, hphase⟩
  · -- the first call: the close of its session cannot be on its way to us
    have hopen : s.pulse.session ∉ s.closed := by
      refine hopen.resolve_right fun hjob => ?_
      have := mem_hiddenJobs hjob rfl
      rw [h.jobs] at this
      cases this
    obtain ⟨hT', hw'⟩ := (h.waiting hopen).makeCall (h.tracked hne) rfl ho hs
    exact .inr ⟨_, hT', registered_makeCall hs (by simp [h.made]), .inl ⟨[], hw'⟩⟩
  · -- the hidden callback of the close is for the session of the other calls
    have hsession : s.pulse.session = a := by
      have hsubs := hT.closedSubs
      rcases hclosed with hnone | hmem
      · rw [hiddenSubs_of_empty hnone] at hsubs
        cases hsubs
      · have := mem_hiddenSubs hmem rfl
        rw [hsubs] at this
        simpa using this
    rcases hphase with ⟨rs, hw⟩ | hover
    · obtain ⟨hT', hw'⟩ := hw.makeCall hT hsession ho hs
      exact .inr ⟨a, hT', registered_makeCall hs hmade, .inl ⟨rs, hw'⟩⟩
    · -- after the close was handled no call is orderly
      rw [hsession] at hopen
      have hjob := mem_hiddenJobs (hopen.resolve_left fun h => h hover.closed) rfl
      rw [hover.jobs] at hjob
      cases hjob

theorem CallInv.reply (h : CallInv topicClosed s) {ss : SessionKey} {res : T}
    (hs : s.reply ss res = some s') : CallInv topicClosed s' := by
  rcases h with h | ⟨a, hT, hmade, hphase⟩
  · obtain ⟨⟨-, hlt⟩, -⟩ := reply_eq_some.mp hs
    rw [callsOn, h.made] at hlt
    cases hlt
  · obtain ⟨-, hopen, -, hlt⟩ := hT.reply_session hs
    have hmade' : ∀ c ∈ s'.made, c.onWire = true ∧ (s'.callPairs c.res).isSome = true := by
      obtain ⟨-, rfl⟩ := reply_eq_some.mp hs
      exact hmade
    rcases hphase with ⟨rs, hw⟩ | hover
    · obtain ⟨i, hi⟩ := List.exists_mem_of_length_pos (Nat.zero_lt_of_lt hlt)
      obtain ⟨c, hc, -, rfl⟩ := mem_idsOf.mp hi
      have hreg := (hmade c (List.mem_of_getElem? hc)).2
      exact .inr ⟨a, hT.reply hs, hmade', .inl ⟨_, hw.reply hT hreg hs⟩⟩
    · exact absurd hover.closed hopen

theorem CallInv.close (h : CallInv topicClosed s) {ss : SessionKey}
    (hs : s.close topicClosed ss = some s') : CallInv topicClosed s' := by
  rcases h with h | ⟨a, hT, hmade, hphase⟩
  · left
    obtain ⟨-, rfl⟩ := close_eq_some.mp hs
    exact ⟨h.made, h.subs, (hiddenJobs_dispatch_none (h.subs _) ss).trans h.jobs, h.pairs, h.keys,
      h.answered, h.replies, h.failed⟩
  · have hmade' : ∀ c ∈ s'.made, c.onWire = true ∧ (s'.callPairs c.res).isSome = true := by
      obtain ⟨-, rfl⟩ := close_eq_some.mp hs
      exact hmade
    refine .inr ⟨a, hT.close hs, hmade', ?_⟩
    rcases hphase with ⟨rs, hw⟩ | hover
    · by_cases hss : ss = a
      · subst hss
        exact .inl ⟨rs, hw.close hT hs⟩
      · exact .inl ⟨rs, hw.close_other hT hss hs⟩
    · exact .inr (hover.close hT hs)

/-- A handler that is posted runs, and if it handles a close, it does its
work. -/
theorem CallInv.runNext (h : CallInv topicClosed s) (hne : s.posted ≠ []) :
    ∃ s', s.runNext = some s' ∧ (s.HandlesClose s.posted.head? → CallInv topicClosed s') := by
  obtain ⟨j, js, hp⟩ := List.exists_cons_of_ne_nil hne
  rcases h with h | ⟨a, hT, hmade, ⟨rs, hw⟩ | hover⟩
  · have hj : isHidden j = false := by
      have hjobs := h.jobs
      rw [hiddenJobs_pop hp] at hjobs
      by_contra hj
      rw [if_pos (by simpa using hj)] at hjobs
      cases hjobs
    obtain ⟨ran, hrun⟩ := runNext_of_not_hidden hp hj
    refine ⟨_, hrun, fun _ => .inl ?_⟩
    refine ⟨h.made, h.subs, ?_, h.pairs, h.keys, h.answered, h.replies, h.failed⟩
    refine Eq.trans ?_ h.jobs
    rw [hiddenJobs_pop hp, hj]
    rfl
  · -- what holds of the calls and their topics survives every handler
    have hkeep : ∀ {s'}, s.runNext = some s' →
        ∀ c ∈ s'.made, c.onWire = true ∧ (s'.callPairs c.res).isSome = true := by
      intro s' hrun
      obtain ⟨-, h₁, h₂⟩ := runNext_frame hrun
      rw [h₁, h₂]
      exact hmade
    by_cases hj : isHidden j = false
    · obtain ⟨ran, hrun⟩ := runNext_of_not_hidden hp hj
      exact ⟨_, hrun, fun _ => .inr ⟨a, { hT with }, hmade, .inl ⟨rs, hw.pop hp hj ran⟩⟩⟩
    rcases j with ⟨cb, se⟩ | cb
    · cases cb with
      | user id => exact absurd rfl hj
      | reply r =>
          obtain ⟨s', rs', hrun, hT', hw'⟩ :=
            hw.receive hT hp (hw.callersOf_ne_nil_of_reply hp rfl)
          exact ⟨s', hrun, fun _ => .inr ⟨a, hT', hkeep hrun, .inl ⟨rs', hw'⟩⟩⟩
      | closed =>
          have hrun : s.runNext = some (callClosed { s with posted := js } se) := by
            simp only [Calling.runNext, hp, runJob]
          refine ⟨_, hrun, fun hcl => ?_⟩
          rw [hp] at hcl
          obtain ⟨s', hrun', hT', hover⟩ := hw.over hT hp (fun _ => rfl) hcl
          obtain rfl := Option.some.inj (hrun.symm.trans hrun')
          exact .inr ⟨a, hT', hkeep hrun, .inr hover⟩
    · exact absurd rfl hj
  · have hj := hover.not_hidden hp
    obtain ⟨ran, hrun⟩ := runNext_of_not_hidden hp hj
    exact ⟨_, hrun, fun _ => .inr ⟨a, { hT with }, hmade, .inr (hover.pop hp hj ran)⟩⟩

theorem CallInv.step {l : Step T} (h : CallInv topicClosed s) (ho : Orderly topicClosed s l)
    (hs : step topicClosed s l = some s') : CallInv topicClosed s' := by
  cases l with
  | subscribe pic id =>
      obtain rfl := Option.some.inj hs
      exact h.subscribe pic id
  | withSession ss =>
      obtain rfl := Option.some.inj hs
      exact h.setPulse fun _ => rfl
  | call req res => exact h.makeCall ho hs
  | reply ss res => exact h.reply hs
  | close ss => exact h.close hs
  | run =>
      have hne : s.posted ≠ [] := by
        intro hnone
        change s.runNext = some s' at hs
        rw [Calling.runNext, hnone] at hs
        cases hs
      obtain ⟨s₁, hrun, hinv⟩ := h.runNext hne
      obtain rfl := Option.some.inj (hrun.symm.trans hs)
      exact hinv ho

/-! ### Calls fail exactly -/

theorem CallInv.failsExactly (h : CallInv topicClosed s) : FailsExactly s := by
  have hruns : s.posted ≠ [] → s.runNext.isSome = true := by
    intro hne
    obtain ⟨s', hrun, -⟩ := h.runNext hne
    rw [hrun]
    rfl
  rcases h with h | ⟨a, hT, hmade, ⟨rs, hw⟩ | hover⟩
  · refine ⟨fun hc => ?_, fun _ _ _ hc => ?_, hruns⟩ <;> simp [h.made] at hc
  · refine ⟨fun hc => ?_, fun hnone i c hc => ?_, hruns⟩
    · rw [hw.failed]
      exact Nat.zero_le _
    · rw [if_neg (hw.not_lost hT hnone hc), hw.failed]
      rfl
  · have hcount : ∀ {i c}, s.made[i]? = some c →
        s.failed.count i = if s.Lost i c then 1 else 0 := by
      intro i c hc
      rw [hover.count_failed hT hc]
      simp only [(hmade c (List.mem_of_getElem? hc)).1, true_and]
    exact ⟨fun hc => (hcount hc).le, fun _ _ _ hc => hcount hc, hruns⟩

/-- **A call fails if and only if its session closes first**: along every run
with orderly steps, in every state passed through, the error callback of a
call is posted only if its session closed before the reply with its ordinal,
never more than once, and exactly once by the time that all handlers have
run. -/
theorem failsExactly_of_orderly (topicClosed : T) (ls : List (Step T))
    (h : Along (step topicClosed) (Orderly topicClosed) {} ls) :
    Always (step topicClosed) FailsExactly {} ls := by
  have hnew : CallInv topicClosed ({} : Calling T) :=
    .inl ⟨rfl, fun _ => rfl, rfl, fun _ => rfl, rfl, rfl, fun _ _ => rfl, rfl⟩
  intro pre s hpre hrun
  exact ((h.of_prefix hpre).invariant (fun hs ho hstep => hs.step ho hstep) hnew hrun).failsExactly

/-- Two calls on session 7, a reply to the first one, and the close.  Topic 2
is `topic_closed`. -/
def oneReply : List (Step ℕ) :=
  [.withSession 7, .subscribe 30 0, .call 21 22, .call 21 22, .reply 7 22, .close 7, .run, .run,
    .run]

theorem failsExactly_oneReply :
    (∃ s, runSteps (step 2) ({} : Calling ℕ) oneReply = some s ∧ s.posted = [] ∧
      s.failed = [1]) ∧
    Always (step 2) FailsExactly ({} : Calling ℕ) oneReply := by
  have hend : (runSteps (step 2) ({} : Calling ℕ) oneReply).map (fun s => (s.posted, s.failed))
      = some ([], [1]) := by
    decide +kernel
  obtain ⟨s, hrun, hs⟩ := Option.map_eq_some_iff.mp hend
  obtain ⟨hposted, hfailed⟩ := Prod.mk.inj hs
  exact ⟨⟨s, hrun, hposted, hfailed⟩, failsExactly_of_orderly 2 oneReply (by decide +kernel)⟩

/-- The user subscribes to `topic_closed` before the first call. -/
def ownClosed : List (Step ℕ) :=
  [.withSession 7, .subscribe 2 0, .call 21 22, .close 7, .run]

/-- **A call that is not told**: the subscription of the user keeps `call`
from subscribing to the close. -/
theorem ownClosed_untold :
    ∃ s, runSteps (step 2) ({} : Calling ℕ) ownClosed = some s ∧ s.posted = [] ∧
      ¬ FailsExactly s := by
  have hend : (runSteps (step 2) ({} : Calling ℕ) ownClosed).map
      (fun s => (s.posted, s.made, decide (s.Lost 0 ⟨7, 21, 22, true⟩), s.failed))
      = some ([], [⟨7, 21, 22, true⟩], true, []) := by
    decide +kernel
  obtain ⟨s, hrun, hs⟩ := Option.map_eq_some_iff.mp hend
  simp only [Prod.mk.injEq, decide_eq_true_eq] at hs
  obtain ⟨hposted, hmade, hlost, hfailed⟩ := hs
  refine ⟨s, hrun, hposted, fun h => ?_⟩
  have hone := h.once hposted (i := 0) (c := ⟨7, 21, 22, true⟩) (by rw [hmade]; rfl)
  rw [if_pos hlost, hfailed] at hone
  cases hone

end Calling

end Play
