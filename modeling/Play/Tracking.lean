/-
Play/Tracking.lean

The invariant of the calls of a pulse.

Let all calls be on one session, and let the two hidden callbacks be
subscribed for it (`Tracked`).  Then for each response topic the calls, by
their numbers and in the order they were made, are split into

    answered  ++  waiting in the queue  ++  sent and not yet registered

and the replies that arrived are those that were matched with a call and those
whose handler is still posted (`Waiting`).  The close is handled behind all of
these, so that it finds in the queue exactly the calls without a reply
(`Over`).

There is one lemma for each operation, here for those of the pulse itself:
subscribing, sending and registering.  They are used for `pulse::call`, where
a call is registered when it is made, and for `pulse_fb::call`, where it is
sent first.
-/
import Play.Call

namespace Play

namespace Calling

variable {T : Type} [LinearOrder T]

/-! ### The numbers of the calls -/

/-- The numbers of the calls on the wire with a response topic. -/
def idsOf (made : List (Call T)) (res : T) : List ℕ :=
  (made.zipIdx.filter fun p => p.1.onWire && p.1.res == res).map Prod.snd

theorem idsOf_snoc (made : List (Call T)) (c : Call T) (res : T) :
    idsOf (made ++ [c]) res =
      idsOf made res ++ if c.onWire && c.res == res then [made.length] else [] := by
  rw [idsOf, List.zipIdx_append, List.filter_append, List.map_append, ← idsOf]
  rcases hc : c.onWire && c.res == res with - | - <;>
    simp only [List.zipIdx_singleton, List.filter_singleton, hc, cond_true, cond_false,
      List.map_cons, List.map_nil, Nat.zero_add, if_true, Bool.false_eq_true, if_false]

theorem mem_idsOf {made : List (Call T)} {res : T} {i : ℕ} :
    i ∈ idsOf made res ↔ ∃ c, made[i]? = some c ∧ c.onWire = true ∧ c.res = res := by
  simp only [idsOf, List.mem_map, List.mem_filter, Prod.exists, List.mem_zipIdx_iff_getElem?,
    Bool.and_eq_true, beq_iff_eq]
  constructor
  · rintro ⟨c, j, ⟨hc, hw, hres⟩, rfl⟩
    exact ⟨c, hc, hw, hres⟩
  · rintro ⟨c, hc, hw, hres⟩
    exact ⟨c, i, ⟨hc, hw, hres⟩, rfl⟩

theorem lt_of_mem_idsOf {made : List (Call T)} {res : T} {i : ℕ} (h : i ∈ idsOf made res) :
    i < made.length := by
  obtain ⟨c, hc, -⟩ := mem_idsOf.mp h
  exact (List.getElem?_eq_some_iff.mp hc).1

theorem length_idsOf (made : List (Call T)) (res : T) :
    (idsOf made res).length = made.countP fun c => c.onWire && c.res == res := by
  induction made using List.reverseRecOn with
  | nil => rfl
  | append_singleton made c ih =>
      rw [idsOf_snoc, List.length_append, List.countP_append, ih, List.countP_singleton]
      split <;> rfl

theorem nodup_idsOf (made : List (Call T)) (res : T) : (idsOf made res).Nodup := by
  induction made using List.reverseRecOn with
  | nil => exact List.nodup_nil
  | append_singleton made c ih =>
      rw [idsOf_snoc]
      split
      · refine ih.append (List.nodup_singleton _) ?_
        rw [List.disjoint_singleton]
        exact fun h => absurd (lt_of_mem_idsOf h) (lt_irrefl _)
      · simpa using ih

/-- A call is among the last ones, from position `k` on, if at least `k`
calls were made before it. -/
theorem mem_drop_idsOf {made : List (Call T)} {i k : ℕ} {c : Call T} (hc : made[i]? = some c)
    (hw : c.onWire = true) :
    i ∈ (idsOf made c.res).drop k ↔
      k ≤ (made.take i).countP fun d => d.onWire && d.res == c.res := by
  -- from the last call backwards, as calls are added there
  induction made using List.reverseRecOn with
  | nil => simp at hc
  | append_singleton made d ih =>
      rw [idsOf_snoc, List.drop_append, List.mem_append]
      rcases Nat.lt_trichotomy i made.length with hi | rfl | hi
      · rw [List.getElem?_append_left hi] at hc
        rw [List.take_append_of_le_length hi.le, ← ih hc, or_iff_left]
        intro h
        have := List.mem_of_mem_drop h
        split at this
        · rw [List.mem_singleton] at this
          omega
        · cases this
      · rw [List.getElem?_append_right le_rfl] at hc
        obtain rfl : d = c := by simpa using hc
        -- the last call itself: `k` calls were made before it or not
        have hno : made.length ∉ (idsOf made d.res).drop k := fun h =>
          absurd (lt_of_mem_idsOf (List.mem_of_mem_drop h)) (lt_irrefl _)
        rw [or_iff_right hno, List.take_left, hw, if_pos (by simp), ← length_idsOf]
        rcases Nat.lt_or_ge (idsOf made d.res).length k with hlt | hge
        · rw [List.drop_eq_nil_of_le (by simp; omega)]
          simp only [List.not_mem_nil, false_iff]
          omega
        · rw [Nat.sub_eq_zero_of_le hge]
          simpa using hge
      · have hnone : (made ++ [d])[i]? = none := by
          rw [List.getElem?_eq_none_iff, List.length_append, List.length_singleton]
          omega
        rw [hnone] at hc
        cases hc

/-! ### Hidden subscriptions and jobs -/

/-- The hidden subscriptions to a topic. -/
def hiddenSubs (s : Calling T) (pic : T) : List (Subscription (CallCb T)) :=
  (s.pulse.subscriptions pic).filter fun sub => !sub.cb.isUser

/-- Whether a job is one of the hidden callbacks. -/
def isHidden : Job T → Bool
  | .handler cb _ => !cb.isUser
  | .failure _ => false

/-- The posted jobs that are hidden callbacks. -/
def hiddenJobs (s : Calling T) : List (Job T) :=
  s.posted.filter isHidden

theorem hiddenSubs_subscribe (s : Calling T) (pic pic' : T) (cb : CallCb T) :
    (s.subscribe pic cb).hiddenSubs pic' = s.hiddenSubs pic' ++
      if pic' = pic ∧ cb.isUser = false then [⟨s.pulse.session, cb⟩] else [] := by
  by_cases hpic : pic' = pic
  · subst hpic
    rcases hcb : cb.isUser with - | - <;>
      simp [hiddenSubs, subscribe, Pulse.keepInterest, Pulse.pushSubscription, hcb]
  · simp [hiddenSubs, subscribe, Pulse.keepInterest, Pulse.pushSubscription, hpic]

omit [LinearOrder T] in
theorem hiddenSubs_of_empty {s : Calling T} {pic : T} (h : s.pulse.subscriptions pic = []) :
    s.hiddenSubs pic = [] := by
  rw [hiddenSubs, h]
  rfl

omit [LinearOrder T] in
theorem mem_hiddenSubs {s : Calling T} {pic : T} {sub : Subscription (CallCb T)}
    (h : sub ∈ s.pulse.subscriptions pic) (hcb : sub.cb.isUser = false) :
    sub ∈ s.hiddenSubs pic :=
  List.mem_filter.mpr ⟨h, by rw [hcb]; rfl⟩

omit [LinearOrder T] in
theorem hidden_targets (s : Calling T) (key : SessionKey) (pic : T) :
    ((s.pulse.targets key pic).map fun p => Job.handler p.1 p.2).filter isHidden =
      ((s.hiddenSubs pic).filter fun sub => sub.sessionKey == key).map
        fun sub => .handler sub.cb key := by
  rw [Pulse.targets, hiddenSubs, List.map_map, List.filter_map, List.filter_filter,
    List.filter_filter]
  refine congrArg _ (List.filter_congr fun sub _ => ?_)
  simp [isHidden, Forest.isTarget, Bool.and_comm]

omit [LinearOrder T] in
theorem hiddenJobs_dispatch (s : Calling T) (se : SessionKey) (pic : T) :
    (s.dispatch se pic).hiddenJobs = s.hiddenJobs ++
      (((s.hiddenSubs pic).filter fun sub => sub.sessionKey == 0).map
          (fun sub => .handler sub.cb 0) ++
        if se ≠ 0 then ((s.hiddenSubs pic).filter fun sub => sub.sessionKey == se).map
          fun sub => .handler sub.cb se
        else []) := by
  rw [hiddenJobs, dispatch, List.filter_append, ← hiddenJobs, Pulse.handed, List.map_append,
    List.filter_append, hidden_targets]
  split
  · rw [hidden_targets]
  · rfl

omit [LinearOrder T] in
/-- With no hidden subscription nothing hidden is posted. -/
theorem hiddenJobs_dispatch_none {s : Calling T} {pic : T} (h : s.hiddenSubs pic = [])
    (se : SessionKey) : (s.dispatch se pic).hiddenJobs = s.hiddenJobs := by
  rw [hiddenJobs_dispatch, h]
  simp

omit [LinearOrder T] in
/-- With one, for a session, it is posted for this session only. -/
theorem hiddenJobs_dispatch_one {s : Calling T} {pic : T} {a : SessionKey} {cb : CallCb T}
    (ha : a ≠ 0) (h : s.hiddenSubs pic = [⟨a, cb⟩]) (se : SessionKey) :
    (s.dispatch se pic).hiddenJobs = s.hiddenJobs ++ if se = a then [.handler cb a] else [] := by
  rw [hiddenJobs_dispatch, h]
  by_cases hse : se = a
  · subst hse
    simp [ha]
  · simp [ha, hse, Ne.symm hse]

/-! ### The invariant -/

/-- The calls that wait in the queue, for a response topic. -/
def callersOf (s : Calling T) (res : T) : List ℕ :=
  match s.callPairs res with
  | none => []
  | some req => if req ∈ s.callKeys then (s.calls req).callers.map Caller.cb else []

/-- The calls that were matched with a reply, for a response topic. -/
def answeredOf (s : Calling T) (res : T) : List ℕ :=
  (s.answered.filter fun p => p.1 == res).map Prod.snd

section

variable (topicClosed : T) (a : SessionKey)

/-- All calls are on the session `a`, topics are used in pairs, and the
hidden callbacks are subscribed for `a`: that of the close from the first
registered call on (`reg`), that of a reply with its first call. -/
structure Tracked (reg : Bool) (s : Calling T) : Prop where
  ne_zero : a ≠ 0
  session : ∀ c ∈ s.made, c.session = a
  topic : ∀ c ∈ s.made, c.res ≠ topicClosed
  paired : ∀ c ∈ s.made, ∀ d ∈ s.made, c.req = d.req ↔ c.res = d.res
  pairs : ∀ {res req}, s.callPairs res = some req → ∃ c ∈ s.made, c.res = res ∧ c.req = req
  keys : ∀ req ∈ s.callKeys, ∃ res, s.callPairs res = some req
  closedSubs : s.hiddenSubs topicClosed = if reg then [⟨a, .closed⟩] else []
  replySubs : ∀ res, res ≠ topicClosed →
    s.hiddenSubs res = if (s.callPairs res).isSome then [⟨a, .reply res⟩] else []
  unregistered : reg = false → ∀ res, s.callPairs res = none

/-- The close has not been handled.  `rs` are the topics of the replies whose
handlers are posted, `fl` are the calls that are not registered yet. -/
structure Waiting (fl : T → List ℕ) (rs : List T) (s : Calling T) : Prop where
  jobs : s.hiddenJobs = rs.map (fun r => .handler (.reply r) a) ++
    if a ∈ s.closed then [.handler .closed a] else []
  calls : ∀ res, s.answeredOf res ++ (s.callersOf res ++ fl res) = idsOf s.made res
  counted : ∀ res, (s.answeredOf res).length + rs.count res = s.replies a res
  bound : ∀ res, s.replies a res ≤ (idsOf s.made res).length
  failed : s.failed = []

/-- The close has been handled: the error callbacks of the calls without a
reply were posted. -/
structure Over (s : Calling T) : Prop where
  closed : a ∈ s.closed
  jobs : s.hiddenJobs = []
  matched : ∀ res, s.answeredOf res = (idsOf s.made res).take (s.replies a res)
  nodup : s.failed.Nodup
  failed : ∀ i, i ∈ s.failed ↔ ∃ res, i ∈ (idsOf s.made res).drop (s.replies a res)

end

variable {topicClosed : T} {a : SessionKey} {reg : Bool} {fl : T → List ℕ} {rs : List T}
variable {s s' : Calling T}

/-! ### Subscriptions of the user and sessions -/

omit [LinearOrder T] in
/-- Nothing but the hidden subscriptions of the pulse is looked at. -/
theorem Tracked.setPulse (h : Tracked topicClosed a reg s) {o : Pulse T (CallCb T)}
    (ho : ∀ pic, { s with pulse := o }.hiddenSubs pic = s.hiddenSubs pic) :
    Tracked topicClosed a reg { s with pulse := o } :=
  { h with
    closedSubs := (ho topicClosed).trans h.closedSubs
    replySubs := fun res hres => (ho res).trans (h.replySubs res hres) }

theorem Waiting.setPulse (h : Waiting a fl rs s) (o : Pulse T (CallCb T)) :
    Waiting a fl rs { s with pulse := o } :=
  ⟨h.jobs, h.calls, h.counted, h.bound, h.failed⟩

theorem Over.setPulse (h : Over a s) (o : Pulse T (CallCb T)) : Over a { s with pulse := o } :=
  ⟨h.closed, h.jobs, h.matched, h.nodup, h.failed⟩

/-! ### A call is made -/

omit [LinearOrder T] in
/-- Calls are made on the session, with topics in pairs. -/
theorem Tracked.send (h : Tracked topicClosed a reg s) {c : Call T} (hsession : c.session = a)
    (htopic : c.res ≠ topicClosed) (hpaired : ∀ d ∈ s.made, c.req = d.req ↔ c.res = d.res)
    (ran : List ℕ) : Tracked topicClosed a reg { s with made := s.made ++ [c], ran } := by
  have hmem : ∀ d ∈ s.made ++ [c], d ∈ s.made ∨ d = c := by simp
  refine { h with session := ?_, topic := ?_, paired := ?_, pairs := ?_ }
  · intro d hd
    rcases hmem d hd with hd | rfl
    · exact h.session d hd
    · exact hsession
  · intro d hd
    rcases hmem d hd with hd | rfl
    · exact h.topic d hd
    · exact htopic
  · intro d hd e he
    rcases hmem d hd with hd' | hd' <;> rcases hmem e he with he' | he'
    · exact h.paired d hd' e he'
    · rw [he', eq_comm, hpaired d hd', eq_comm]
    · rw [hd']
      exact hpaired e he'
    · rw [hd', he']
      simp
  · intro res req hp
    obtain ⟨d, hd, hdr⟩ := h.pairs hp
    exact ⟨d, List.mem_append_left _ hd, hdr⟩

theorem Waiting.send (h : Waiting a fl rs s) {c : Call T} (hw : c.onWire = true) (ran : List ℕ) :
    Waiting a (Function.update fl c.res (fl c.res ++ [s.made.length])) rs
      { s with made := s.made ++ [c], ran } := by
  refine { h with calls := fun res => ?_, bound := fun res => ?_ }
  · show s.answeredOf res ++ (s.callersOf res ++ _) = idsOf (s.made ++ [c]) res
    rw [idsOf_snoc, ← h.calls res, hw]
    by_cases hres : res = c.res
    · subst hres
      simp
    · simp [hres, Ne.symm hres]
  · show s.replies a res ≤ (idsOf (s.made ++ [c]) res).length
    rw [idsOf_snoc, List.length_append]
    exact (h.bound res).trans (Nat.le_add_right _ _)

/-- A call that is not sent is no call on the wire. -/
theorem idsOf_refused {c : Call T} (hw : c.onWire = false) (made : List (Call T)) :
    idsOf (made ++ [c]) = idsOf made := by
  funext res
  rw [idsOf_snoc, hw]
  simp

theorem Waiting.refuse (h : Waiting a fl rs s) {c : Call T} (hw : c.onWire = false)
    (ran : List ℕ) : Waiting a fl rs { s with made := s.made ++ [c], ran } :=
  { h with
    calls := fun res => (h.calls res).trans (by rw [idsOf_refused hw])
    bound := fun res => (h.bound res).trans (by rw [idsOf_refused hw]) }

theorem Over.refuse (h : Over a s) {c : Call T} (hw : c.onWire = false) (ran : List ℕ) :
    Over a { s with made := s.made ++ [c], ran } :=
  { h with
    matched := fun res => (h.matched res).trans (by rw [idsOf_refused hw])
    failed := fun i => (h.failed i).trans (by rw [idsOf_refused hw]) }

/-! ### A call is registered -/

/-- Subscribing unless there is a subscription, where the only ones there can
be are the one wanted and those of the user. -/
theorem hiddenSubs_unless (s : Calling T) (pic : T) {cb : CallCb T} (hcb : cb.isUser = false)
    (hone : ⟨s.pulse.session, cb⟩ ∈ s.hiddenSubs pic →
      s.hiddenSubs pic = [⟨s.pulse.session, cb⟩])
    (hsub : s.pulse.subscriptions pic = [] ∨
      ⟨s.pulse.session, cb⟩ ∈ s.pulse.subscriptions pic) (pic' : T) :
    (if !s.hasSubscription pic then s.subscribe pic cb else s).hiddenSubs pic' =
      if pic' = pic then [⟨s.pulse.session, cb⟩] else s.hiddenSubs pic' := by
  rcases hsub with hnone | hmem
  · rw [if_pos (by simp [hasSubscription, hnone]), hiddenSubs_subscribe]
    by_cases hpic : pic' = pic
    · subst hpic
      rw [hiddenSubs_of_empty hnone, if_pos ⟨rfl, hcb⟩, if_pos rfl, List.nil_append]
    · rw [if_neg (by simp [hpic]), if_neg hpic, List.append_nil]
  · -- `has_subscription` finds the hidden one, and nothing is added
    have hne : s.pulse.subscriptions pic ≠ [] := List.ne_nil_of_mem hmem
    rw [if_neg (by simp [hasSubscription, hne])]
    by_cases hpic : pic' = pic
    · subst hpic
      rw [if_pos rfl, hone (mem_hiddenSubs hmem hcb)]
    · rw [if_neg hpic]

/-- `call` touches the pulse, and then the caller joins the queue. -/
theorem call_eq (topicClosed : T) (s : Calling T) (req res : T) (cb : ℕ) :
    ∃ o, s.call topicClosed req res cb = addCaller { s with pulse := o } req res cb ∧
      o.session = s.pulse.session := by
  unfold call callSubscribeReply callSubscribeClosed
  split <;> split <;> exact ⟨_, rfl, rfl⟩

/-- The first of the two subscriptions leaves the response topic alone. -/
theorem callSubscribeClosed_other {pic : T} (hpic : pic ≠ topicClosed) :
    (s.callSubscribeClosed topicClosed).pulse.subscriptions pic = s.pulse.subscriptions pic ∧
      (s.callSubscribeClosed topicClosed).pulse.session = s.pulse.session := by
  unfold callSubscribeClosed
  split
  · exact ⟨Function.update_of_ne hpic .., rfl⟩
  · exact ⟨rfl, rfl⟩

/-- The two hidden subscriptions of `call`, where they are the only ones if
they are there. -/
theorem hiddenSubs_call (hsession : s.pulse.session = a) (req : T) {res : T}
    (hres : res ≠ topicClosed) (cb : ℕ)
    (hclosed : s.pulse.subscriptions topicClosed = [] ∨
      ⟨a, .closed⟩ ∈ s.pulse.subscriptions topicClosed)
    (hreply : s.pulse.subscriptions res = [] ∨ ⟨a, .reply res⟩ ∈ s.pulse.subscriptions res)
    (honeClosed : ⟨a, .closed⟩ ∈ s.hiddenSubs topicClosed →
      s.hiddenSubs topicClosed = [⟨a, .closed⟩])
    (honeReply : ⟨a, .reply res⟩ ∈ s.hiddenSubs res → s.hiddenSubs res = [⟨a, .reply res⟩])
    (pic : T) :
    (s.call topicClosed req res cb).hiddenSubs pic =
      if pic = res then [⟨a, .reply res⟩]
      else if pic = topicClosed then [⟨a, .closed⟩] else s.hiddenSubs pic := by
  subst hsession
  have hfirst : ∀ pic, (s.callSubscribeClosed topicClosed).hiddenSubs pic =
      if pic = topicClosed then [⟨s.pulse.session, .closed⟩] else s.hiddenSubs pic :=
    hiddenSubs_unless s topicClosed rfl honeClosed hclosed
  obtain ⟨hsubs, hsess⟩ := callSubscribeClosed_other (s := s) hres
  have hsecond := hiddenSubs_unless (s.callSubscribeClosed topicClosed) res
    (show (CallCb.reply res).isUser = false from rfl)
  rw [hsubs, hsess, hfirst res, if_neg hres] at hsecond
  refine (hsecond honeReply hreply pic).trans ?_
  rw [hfirst pic]

omit [LinearOrder T] in
/-- A hidden subscription that is there is the only one of its topic. -/
theorem Tracked.closedSubs_of_mem (h : Tracked topicClosed a reg s)
    (hmem : ⟨a, .closed⟩ ∈ s.hiddenSubs topicClosed) :
    s.hiddenSubs topicClosed = [⟨a, .closed⟩] := by
  rw [h.closedSubs] at hmem ⊢
  split at hmem
  · rw [if_pos ‹_›]
  · cases hmem

omit [LinearOrder T] in
@[inherit_doc Tracked.closedSubs_of_mem]
theorem Tracked.replySubs_of_mem (h : Tracked topicClosed a reg s) {res : T}
    (hres : res ≠ topicClosed) (hmem : ⟨a, .reply res⟩ ∈ s.hiddenSubs res) :
    s.hiddenSubs res = [⟨a, .reply res⟩] := by
  rw [h.replySubs res hres] at hmem ⊢
  split at hmem
  · rw [if_pos ‹_›]
  · cases hmem

theorem callPairs_call (topicClosed : T) (s : Calling T) (req res : T) (cb : ℕ) :
    (s.call topicClosed req res cb).callPairs = Function.update s.callPairs res (some req) := by
  obtain ⟨o, ho, -⟩ := call_eq topicClosed s req res cb
  rw [ho]
  rfl

omit [LinearOrder T] in
theorem Tracked.pair_eq (h : Tracked topicClosed a reg s) {res res' req req' : T}
    (hp : s.callPairs res = some req) (hp' : s.callPairs res' = some req') :
    req = req' ↔ res = res' := by
  obtain ⟨c, hc, rfl, rfl⟩ := h.pairs hp
  obtain ⟨d, hd, rfl, rfl⟩ := h.pairs hp'
  exact h.paired c hc d hd

theorem Tracked.call (h : Tracked topicClosed a reg s) (hsession : s.pulse.session = a)
    {c : Call T} (hc : c ∈ s.made) (cb : ℕ)
    (hclosed : s.pulse.subscriptions topicClosed = [] ∨
      ⟨a, .closed⟩ ∈ s.pulse.subscriptions topicClosed)
    (hreply : s.pulse.subscriptions c.res = [] ∨
      ⟨a, .reply c.res⟩ ∈ s.pulse.subscriptions c.res) :
    Tracked topicClosed a true (s.call topicClosed c.req c.res cb) := by
  have hsubs := hiddenSubs_call hsession c.req (h.topic c hc) cb hclosed hreply
    h.closedSubs_of_mem (h.replySubs_of_mem (h.topic c hc))
  have hpairs := callPairs_call topicClosed s c.req c.res cb
  obtain ⟨o, ho, -⟩ := call_eq topicClosed s c.req c.res cb
  have hmade : (s.call topicClosed c.req c.res cb).made = s.made := by rw [ho]; rfl
  have hkeys : (s.call topicClosed c.req c.res cb).callKeys = insert c.req s.callKeys := by
    rw [ho]; rfl
  refine
    { ne_zero := h.ne_zero
      session := hmade ▸ h.session
      topic := hmade ▸ h.topic
      paired := hmade ▸ h.paired
      pairs := ?_
      keys := ?_
      closedSubs := ?_
      replySubs := ?_
      unregistered := fun hreg => nomatch hreg }
  · intro res req hp
    rw [hmade]
    rw [hpairs] at hp
    by_cases hres : res = c.res
    · subst hres
      rw [Function.update_self] at hp
      exact ⟨c, hc, rfl, Option.some.inj hp⟩
    · rw [Function.update_of_ne hres] at hp
      exact h.pairs hp
  · -- the pair that is overwritten is the same pair
    intro req hreq
    rw [hkeys, Finset.mem_insert] at hreq
    rw [hpairs]
    rcases hreq with rfl | hreq
    · exact ⟨c.res, Function.update_self ..⟩
    · obtain ⟨res, hp⟩ := h.keys req hreq
      by_cases hres : res = c.res
      · obtain ⟨d, hd, hdres, rfl⟩ := h.pairs hp
        have : d.req = c.req := (h.paired d hd c hc).mpr (hdres.trans hres)
        exact ⟨c.res, by rw [Function.update_self, this]⟩
      · exact ⟨res, by rw [Function.update_of_ne hres, hp]⟩
  · rw [hsubs, if_neg (h.topic c hc).symm, if_pos rfl]
    rfl
  · intro res hres
    rw [hsubs, hpairs]
    by_cases hne : res = c.res
    · subst hne
      simp
    · rw [if_neg hne, if_neg hres, Function.update_of_ne hne, h.replySubs res hres]

/-- The caller is the last of its queue, and no other queue is touched. -/
theorem Tracked.callersOf_call (h : Tracked topicClosed a reg s) {c : Call T} (hc : c ∈ s.made)
    (cb : ℕ) (res : T) :
    (s.call topicClosed c.req c.res cb).callersOf res =
      s.callersOf res ++ if res = c.res then [cb] else [] := by
  obtain ⟨o, ho, -⟩ := call_eq topicClosed s c.req c.res cb
  rw [callersOf, callPairs_call, ho]
  by_cases hres : res = c.res
  · subst hres
    simp only [addCaller, Function.update_self, Finset.mem_insert_self, if_true, List.map_append,
      List.map_cons, List.map_nil]
    congr 1
    -- a queue is there exactly if the pair is, since topics are used in pairs
    rcases hp : s.callPairs c.res with - | req
    · -- the first call with these topics
      have hno : c.req ∉ s.callKeys := by
        intro hkey
        obtain ⟨res, hp'⟩ := h.keys c.req hkey
        obtain ⟨d, hd, rfl, hreq⟩ := h.pairs hp'
        rw [(h.paired d hd c hc).mp hreq, hp] at hp'
        cases hp'
      rw [callersOf, hp, if_neg hno]
      rfl
    · obtain ⟨d, hd, hdres, rfl⟩ := h.pairs hp
      rw [callersOf, hp, (h.paired d hd c hc).mpr hdres]
      dsimp only
      split <;> rfl
  · rw [Function.update_of_ne hres, if_neg hres, List.append_nil, callersOf]
    rcases hp : s.callPairs res with - | req
    · rfl
    · obtain ⟨d, hd, rfl, rfl⟩ := h.pairs hp
      have hreq : d.req ≠ c.req := fun hreq => hres ((h.paired d hd c hc).mp hreq)
      simp only [addCaller, Finset.mem_insert, hreq, false_or, Function.update_of_ne hreq]

theorem Waiting.call (hT : Tracked topicClosed a reg s) (h : Waiting a fl rs s) {c : Call T}
    (hc : c ∈ s.made) {cb : ℕ} {rest : List ℕ} (hfl : fl c.res = cb :: rest) :
    Waiting a (Function.update fl c.res rest) rs (s.call topicClosed c.req c.res cb) := by
  have hcallers := hT.callersOf_call hc cb
  obtain ⟨o, ho, -⟩ := call_eq topicClosed s c.req c.res cb
  rw [ho] at hcallers ⊢
  refine ⟨h.jobs, fun res => ?_, h.counted, h.bound, h.failed⟩
  refine Eq.trans ?_ (h.calls res)
  show s.answeredOf res ++ _ = _
  rw [hcallers]
  by_cases hres : res = c.res
  · subst hres
    rw [Function.update_self, hfl, if_pos rfl]
    simp
  · rw [Function.update_of_ne hres, if_neg hres, List.append_nil]

end Calling

end Play
