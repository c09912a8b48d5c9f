/-
Play/Call.lean

`pulse::call`: requests to another server, with a callback for the case that
the session closes before the reply.

A call is remembered in a queue for its request topic.  To learn of replies
and of the close, the pulse subscribes to the response topic and to
`topic_closed` itself; these two callbacks are hidden in its subscriptions,
among those of the user.  A reply takes the oldest call from the queue, and
the close posts the error callback of everyone who is left.

The state is that of one child: its part of `Pulse`, the members of the calls,
and the handlers that were posted for it and have not run yet, in order.  What
the root posts for a child is `Pulse.handed`; that this is what `publish`
posts is `publish_handed`.

A call is known by its number, and so is its error callback.  The history has
the calls, the replies and closes that arrived, the error callbacks that were
posted and that ran, and the call that each reply was matched with.
-/
import Play.Dispatch

namespace Play

/-! ### What the root posts for a child -/

namespace Pulse

variable {T C : Type}

/-- The callbacks that `dispatch` on a child posts when the root calls it. -/
def targets (o : Pulse T C) (se : SessionKey) (pic : T) : List (C × SessionKey) :=
  ((o.subscriptions pic).filter fun sub => Forest.isTarget sub.sessionKey se true).map
    fun sub => (sub.cb, se)

/-- What is posted for a child: first as a member of the group of the topic,
without a session, then as a member of the group of the session. -/
def handed (o : Pulse T C) (se : SessionKey) (pic : T) : List (C × SessionKey) :=
  o.targets 0 pic ++ if se ≠ 0 then o.targets se pic else []

end Pulse

namespace Forest

variable {T C F : Type} {f : Forest T C}

/-- What was posted for one pulse. -/
def postedFor (c : PulseId) (ps : List (Posted C F)) : List (C × SessionKey) :=
  (ps.filter (·.holder == c)).map fun q => (q.sub.cb, q.se)

theorem postedFor_append (c : PulseId) (ps qs : List (Posted C F)) :
    postedFor c (ps ++ qs) = postedFor c ps ++ postedFor c qs := by
  simp [postedFor]

theorem postedFor_self (c : PulseId) (se : SessionKey) (pic : T) (frame : F) :
    postedFor c (f.dispatchSelf c se pic frame true) = (f.pulse c).targets se pic := by
  rw [postedFor, dispatchSelf, List.filter_map, List.map_map, Pulse.targets]
  simp [Function.comp_def]

theorem postedFor_other {c d : PulseId} (hne : d ≠ c) (se : SessionKey) (pic : T) (frame : F)
    (fromRoot : Bool) : postedFor c (f.dispatchSelf d se pic frame fromRoot) = [] := by
  rw [postedFor, dispatchSelf, List.filter_map, List.map_map]
  simp [Function.comp_def, hne]

/-- Of a group, only the pulse itself posts for it. -/
theorem postedFor_group {c : PulseId} {ids : List PulseId} (hids : ids.Nodup) (se : SessionKey)
    (pic : T) (frame : F) :
    postedFor c (ids.flatMap fun d => f.dispatchSelf d se pic frame true) =
      if c ∈ ids then (f.pulse c).targets se pic else [] := by
  induction ids with
  | nil => rfl
  | cons d ids ih =>
      obtain ⟨hd, hids⟩ := List.nodup_cons.mp hids
      rw [List.flatMap_cons, postedFor_append, ih hids]
      by_cases hne : d = c
      · subst hne
        rw [postedFor_self, if_neg hd, if_pos List.mem_cons_self, List.append_nil]
      · simp [postedFor_other hne, Ne.symm hne]

/-- A pulse that is not listed under a key has no subscription under it. -/
theorem targets_of_not_listed (hf : InterestInv f) {c : PulseId} (hc : c ∈ f.ids)
    (hne : c ≠ f.root) (hrun : (f.pulse c).stopped = false) {key : SessionKey} {pic : T}
    (h : c ∉ (f.pulse f.root).interests (key, pic)) : (f.pulse c).targets key pic = [] := by
  have hno : ¬ Subscribed f c key pic := fun hs =>
    h ((hf.listed c key pic).mpr ⟨hc, hne, hs, .inl hrun⟩)
  rw [Pulse.targets, List.map_eq_nil_iff, List.filter_eq_nil_iff]
  intro sub hsub hkey
  exact hno ⟨sub, hsub, by simpa [isTarget] using hkey⟩

/-- **What a child gets**: in a tree, `publish` on the root posts for a child
that runs the callbacks `handed` says, in this order. -/
theorem publish_handed (hf : InterestInv f) {c : PulseId} (hc : c ∈ f.ids) (hne : c ≠ f.root)
    (hrun : (f.pulse c).stopped = false) (se : SessionKey) (pic : T) (frame : F) :
    postedFor c (f.publish se pic frame) = (f.pulse c).handed se pic := by
  have hgroup : ∀ key, postedFor c (((f.pulse f.root).interests (key, pic)).sort.flatMap
      fun d => f.dispatchSelf d key pic frame true) = (f.pulse c).targets key pic := by
    intro key
    rw [postedFor_group (Finset.sort_nodup _ _)]
    split
    · rfl
    · next h =>
        rw [Finset.mem_sort] at h
        exact (targets_of_not_listed hf hc hne hrun h).symm
  rw [publish, dispatchLoop_root hf pic frame 0 se, postedFor_append, postedFor_append,
    postedFor_other hne.symm, List.nil_append, hgroup, Pulse.handed]
  split
  · rw [hgroup]
  · rfl

end Forest

/-! ### The members of the calls -/

/-- The callbacks in the subscriptions of a pulse: one of the user, or one of
the two that `call` adds. -/
inductive CallCb (T : Type)
  | user (id : ℕ)
  | reply (pic : T)
  | closed
  deriving DecidableEq

/-- Whether the callback is one of the user's. -/
def CallCb.isUser {T : Type} : CallCb T → Bool
  | .user _ => true
  | .reply _ => false
  | .closed => false

/-- `pulse::caller`. -/
structure Caller where
  callId : ℕ
  cb : ℕ
  deriving DecidableEq

/-- `pulse::topic_calls`. -/
structure TopicCalls where
  callIndex : ℕ := 0
  replyIndex : ℕ := 0
  callers : List Caller := []

/-- A handler posted to the runner: a callback with its session, or the error
callback of a call. -/
inductive Job (T : Type)
  | handler (cb : CallCb T) (se : SessionKey)
  | failure (cb : ℕ)
  deriving DecidableEq

/-- A call that was made.  It is not on the wire if sending it failed. -/
structure Call (T : Type) where
  session : SessionKey
  req : T
  res : T
  onWire : Bool := true
  deriving DecidableEq

/-- A child pulse with its calls, its posted handlers and its history.
`calls_` is `calls` at the keys `callKeys`. -/
structure Calling (T : Type) where
  pulse : Pulse T (CallCb T) := {}
  callKeys : Finset T := ∅
  calls : T → TopicCalls := fun _ => {}
  callPairs : T → Option T := fun _ => none
  posted : List (Job T) := []
  -- the history
  made : List (Call T) := []
  replies : SessionKey → T → ℕ := fun _ _ => 0
  closed : List SessionKey := []
  failed : List ℕ := []
  ran : List ℕ := []
  answered : List (T × ℕ) := []

namespace Calling

variable {T : Type} [LinearOrder T]

/-- `pulse::has_subscription`; an entry is made when something is put into
it. -/
def hasSubscription (s : Calling T) (pic : T) : Bool :=
  !(s.pulse.subscriptions pic).isEmpty

/-- `pulse::subscribe`, on the child. -/
def subscribe (s : Calling T) (pic : T) (cb : CallCb T) : Calling T :=
  let o := s.pulse.pushSubscription pic ⟨s.pulse.session, cb⟩
  { s with pulse := o.keepInterest (s.pulse.session, pic) }

/-- `pulse::with_session`. -/
def withSession (s : Calling T) (ss : SessionKey) : Calling T :=
  { s with pulse := { s.pulse with session := ss } }

/-- `pulse::call_subscribe_reply`. -/
def callSubscribeReply (s : Calling T) (pic : T) : Calling T :=
  if !s.hasSubscription pic then s.subscribe pic (.reply pic) else s

/-- `pulse::call_subscribe_closed`. -/
def callSubscribeClosed (topicClosed : T) (s : Calling T) : Calling T :=
  if !s.hasSubscription topicClosed then s.subscribe topicClosed .closed else s

/-- The second part of `pulse::call`: the caller joins its queue. -/
def addCaller (s : Calling T) (req res : T) (cb : ℕ) : Calling T :=
  -- after a close the queue starts again, with its indices
  let tcalls := if req ∈ s.callKeys then s.calls req else {}
  let index := tcalls.callIndex + 1
  let tcalls := { tcalls with callIndex := index, callers := tcalls.callers ++ [⟨index, cb⟩] }
  { s with
    callKeys := insert req s.callKeys
    calls := Function.update s.calls req tcalls
    callPairs := Function.update s.callPairs res (some req) }

/-- `pulse::call`. -/
def call (topicClosed : T) (s : Calling T) (req res : T) (cb : ℕ) : Calling T :=
  ((s.callSubscribeClosed topicClosed).callSubscribeReply res).addCaller req res cb

/-- A frame for the session `se` reaches the root, which posts for the
child. -/
def dispatch (s : Calling T) (se : SessionKey) (pic : T) : Calling T :=
  { s with posted := s.posted ++ (s.pulse.handed se pic).map fun p => .handler p.1 p.2 }

/-- `pulse::call_receive`.  There is no result if the oldest call of an empty
queue is asked for. -/
def callReceive (s : Calling T) (pic : T) : Option (Calling T) :=
  match s.callPairs pic with
  | none => some s
  | some req =>
      if req ∈ s.callKeys then
        let tcalls := s.calls req
        match tcalls.callers with
        -- the check before `front()` only logs
        | [] => none
        | c :: cs =>
            let tcalls := { tcalls with replyIndex := tcalls.replyIndex + 1, callers := cs }
            some { s with
              calls := Function.update s.calls req tcalls
              answered := s.answered ++ [(pic, c.cb)] }
      else some s

/-- The error callbacks of everyone who waits, topic by topic. -/
def waitingCbs (s : Calling T) : List ℕ :=
  s.callKeys.sort.flatMap fun req => (s.calls req).callers.map Caller.cb

/-- `pulse::call_closed`. -/
def callClosed (s : Calling T) (se : SessionKey) : Calling T :=
  if se ≠ s.pulse.session then s
  else
    -- the pairs of topics are kept
    { s with
      callKeys := ∅
      calls := fun _ => {}
      posted := s.posted ++ s.waitingCbs.map .failure
      failed := s.failed ++ s.waitingCbs }

/-- A posted handler runs.  What a callback of the user does are steps of
their own. -/
def runJob (s : Calling T) : Job T → Option (Calling T)
  | .handler (.user _) _ => some s
  | .handler (.reply pic) _ => s.callReceive pic
  | .handler .closed se => some (s.callClosed se)
  | .failure cb => some { s with ran := s.ran ++ [cb] }

/-- The runner takes the next handler. -/
def runNext (s : Calling T) : Option (Calling T) :=
  match s.posted with
  | [] => none
  | j :: js => runJob { s with posted := js } j

/-! ### What the environment does -/

/-- The calls with a response topic on a session. -/
def callsOn (s : Calling T) (ss : SessionKey) (res : T) : ℕ :=
  s.made.countP fun c => c.onWire && (c.session == ss && c.res == res)

/-- A reply arrives: on a session that has not closed, to a call that has no
reply yet. -/
def reply (s : Calling T) (ss : SessionKey) (res : T) : Option (Calling T) :=
  if ss ∉ s.closed ∧ s.replies ss res < s.callsOn ss res then
    let counts := Function.update (s.replies ss) res (s.replies ss res + 1)
    some { s.dispatch ss res with replies := Function.update s.replies ss counts }
  else none

/-- A session closes, once. -/
def close (topicClosed : T) (s : Calling T) (ss : SessionKey) : Option (Calling T) :=
  if ss ≠ 0 ∧ ss ∉ s.closed then
    some { s.dispatch ss topicClosed with closed := ss :: s.closed }
  else none

end Calling

end Play
