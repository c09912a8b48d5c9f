/-
Play/CallQueue.lean

The queues of outstanding calls.

A request topic has two counters and a queue in `calls_`: `call` counts the
one up and puts the new number at the back, `call_receive` counts the other up
and takes the front away.  Position is all that matches a reply with its call,
so the numbers in the queue have to be exactly

    reply_index + 1, ..., call_index

and they are, whatever the order of the calls, frames and handlers
(`Contiguous`): two response topics may share a queue, a response topic may
move to another one, and a close forgets all of them.  Only the front of a
queue that is empty is not there; a reply asks for it if its topic has an entry
in the table and all calls of the entry have been answered.

If topics are used in pairs, the user stays away from them and nobody gets
more replies than he made calls, then every reply finds its call, and the
close finds exactly the calls that are left (`callQueues_of_disciplined`).

The handlers here run in any order, as they do if the pulse has no strand.
-/
import Play.CallFails

namespace Play

namespace TopicCalls

/-- The numbers that wait are those between the two counters. -/
structure Numbered (t : TopicCalls) : Prop where
  le : t.replyIndex ≤ t.callIndex
  ids : t.callers.map Caller.callId =
    List.range' (t.replyIndex + 1) (t.callIndex - t.replyIndex)

variable {t : TopicCalls} (h : t.Numbered)
include h

theorem Numbered.push (cb : ℕ) :
    Numbered { t with
      callIndex := t.callIndex + 1
      callers := t.callers ++ [⟨t.callIndex + 1, cb⟩] } := by
  have hle := h.le
  refine ⟨by dsimp only; omega, ?_⟩
  have hlen : t.callIndex + 1 - t.replyIndex = t.callIndex - t.replyIndex + 1 := by omega
  have hnext : t.replyIndex + 1 + (t.callIndex - t.replyIndex) = t.callIndex + 1 := by omega
  rw [List.map_append, h.ids, hlen, List.range'_1_concat, hnext]
  rfl

theorem Numbered.pop {c : Caller} {cs : List Caller} (hcs : t.callers = c :: cs) :
    c.callId = t.replyIndex + 1 ∧
      Numbered { t with replyIndex := t.replyIndex + 1, callers := cs } := by
  have hids := h.ids
  rw [hcs, List.map_cons] at hids
  obtain ⟨n, hn⟩ : ∃ n, t.callIndex - t.replyIndex = n + 1 := by
    refine Nat.exists_eq_succ_of_ne_zero fun hzero => ?_
    rw [hzero] at hids
    cases hids
  rw [hn, List.range'_succ] at hids
  obtain ⟨hhead, htail⟩ := List.cons.inj hids
  refine ⟨hhead, by dsimp only; omega, ?_⟩
  rw [htail]
  dsimp only
  congr 1
  omega

end TopicCalls

namespace Calling

variable {T : Type} [LinearOrder T]

/-! ### Runs -/

/-- The steps around a pulse, with handlers that run in any order. -/
inductive Move (T : Type)
  | subscribe (pic : T) (id : ℕ)
  | withSession (ss : SessionKey)
  | call (req res : T)
  | frame (ss : SessionKey) (pic : T)
  | close (ss : SessionKey)
  | run (i : ℕ)

section

variable (topicClosed : T)

/-- A call is made, on a pulse with a session. -/
def callNow (s : Calling T) (req res : T) : Option (Calling T) :=
  if s.pulse.session ≠ 0 then
    let c : Call T := { session := s.pulse.session, req, res }
    some (call topicClosed { s with made := s.made ++ [c] } req res s.made.length)
  else none

/-- A frame arrives.  It counts as a reply if there was a call on the session
with this response topic. -/
def frame (s : Calling T) (ss : SessionKey) (pic : T) : Calling T :=
  let counts := Function.update (s.replies ss) pic (s.replies ss pic + 1)
  { s.dispatch ss pic with
    replies := if s.callsOn ss pic = 0 then s.replies else Function.update s.replies ss counts }

/-- The runner takes the handler at a position. -/
def runAt (s : Calling T) (i : ℕ) : Option (Calling T) :=
  match s.posted[i]? with
  | none => none
  | some j => runJob { s with posted := s.posted.eraseIdx i } j

/-- The step function.  A frame with the topic of the close is not one of the
network. -/
def move (s : Calling T) : Move T → Option (Calling T)
  | .subscribe pic id => some (s.subscribe pic (.user id))
  | .withSession ss => some (s.withSession ss)
  | .call req res => s.callNow topicClosed req res
  | .frame ss pic => if pic ≠ topicClosed then some (s.frame ss pic) else none
  | .close ss => s.close topicClosed ss
  | .run i => s.runAt i

end

/-! ### The numbers in the queues -/

/-- In every entry of the table the numbers are those between the
counters. -/
def Contiguous (s : Calling T) : Prop :=
  ∀ req ∈ s.callKeys, (s.calls req).Numbered

variable {topicClosed : T} {s s' : Calling T}

theorem Contiguous.addCaller (h : Contiguous s) (req res : T) (cb : ℕ) :
    Contiguous (s.addCaller req res cb) := by
  intro req' hreq'
  have hkeys : req' = req ∨ req' ∈ s.callKeys := Finset.mem_insert.mp hreq'
  by_cases hreq : req' = req
  · subst hreq
    have hold : (if req' ∈ s.callKeys then s.calls req' else {}).Numbered := by
      split
      · exact h req' ‹_›
      · exact ⟨le_rfl, rfl⟩
    simpa [Calling.addCaller] using hold.push cb
  · simpa [Calling.addCaller, hreq] using h req' (hkeys.resolve_left hreq)

theorem Contiguous.call (h : Contiguous s) (req res : T) (cb : ℕ) :
    Contiguous (s.call topicClosed req res cb) := by
  obtain ⟨o, ho, -⟩ := call_eq topicClosed s req res cb
  rw [ho]
  exact addCaller h req res cb

/-- What `call_receive` does: nothing if there is no entry, else it takes the
front away. -/
theorem callReceive_eq_some {pic : T} (hs : s.callReceive pic = some s') :
    (s' = s ∧ ∀ req, s.callPairs pic = some req → req ∉ s.callKeys) ∨
    ∃ req c cs, s.callPairs pic = some req ∧ req ∈ s.callKeys ∧ (s.calls req).callers = c :: cs ∧
      s' = { s with
        calls := Function.update s.calls req
          { s.calls req with replyIndex := (s.calls req).replyIndex + 1, callers := cs }
        answered := s.answered ++ [(pic, c.cb)] } := by
  rw [callReceive] at hs
  rcases hp : s.callPairs pic with - | req <;> rw [hp] at hs
  · exact .inl ⟨(Option.some.inj hs).symm, fun req hreq => by cases hreq⟩
  dsimp only at hs
  split at hs
  · next hkey =>
      rcases hcs : (s.calls req).callers with - | ⟨c, cs⟩ <;> rw [hcs] at hs
      · cases hs
      · exact .inr ⟨req, c, cs, rfl, hkey, hcs, (Option.some.inj hs).symm⟩
  · next hkey =>
      refine .inl ⟨(Option.some.inj hs).symm, fun req' hreq' => ?_⟩
      obtain rfl := Option.some.inj hreq'
      exact hkey

theorem Contiguous.callReceive (h : Contiguous s) {pic : T} (hs : s.callReceive pic = some s') :
    Contiguous s' := by
  rcases callReceive_eq_some hs with ⟨rfl, -⟩ | ⟨req, c, cs, -, hkey, hcs, rfl⟩
  · exact h
  intro req' hreq'
  by_cases hreq : req' = req
  · subst hreq
    simpa using ((h req' hkey).pop hcs).2
  · simpa [hreq] using h req' hreq'

theorem Contiguous.runJob (h : Contiguous s) {j : Job T} (hs : s.runJob j = some s') :
    Contiguous s' := by
  rcases j with ⟨cb, se⟩ | cb
  · cases cb with
    | user id =>
        obtain rfl := Option.some.inj hs
        exact h
    | reply pic => exact h.callReceive hs
    | closed =>
        obtain rfl := Option.some.inj hs
        rw [callClosed]
        split
        · exact h
        · exact fun req hreq => absurd hreq (Finset.notMem_empty req)
  · obtain rfl := Option.some.inj hs
    exact h

theorem runAt_eq_some {i : ℕ} :
    s.runAt i = some s' ↔ ∃ j, s.posted[i]? = some j ∧
      runJob { s with posted := s.posted.eraseIdx i } j = some s' := by
  rw [runAt]
  rcases s.posted[i]? with - | j <;> simp

theorem callNow_eq_some {req res : T} :
    s.callNow topicClosed req res = some s' ↔ s.pulse.session ≠ 0 ∧
      call topicClosed { s with made := s.made ++ [{ session := s.pulse.session, req, res }] }
        req res s.made.length = s' := by
  rw [callNow]
  split <;> simp_all

theorem move_frame_eq_some {ss : SessionKey} {pic : T} :
    move topicClosed s (.frame ss pic) = some s' ↔ pic ≠ topicClosed ∧ s.frame ss pic = s' := by
  rw [Calling.move]
  split <;> simp_all

/-- **The numbers between the counters**: every step keeps them, also with
topics that are not used in pairs. -/
theorem Contiguous.move {l : Move T} (h : Contiguous s) (hs : move topicClosed s l = some s') :
    Contiguous s' := by
  cases l with
  | subscribe pic id =>
      obtain rfl := Option.some.inj hs
      exact h
  | withSession ss =>
      obtain rfl := Option.some.inj hs
      exact h
  | call req res =>
      obtain ⟨-, rfl⟩ := callNow_eq_some.mp hs
      have hmade : Contiguous { s with
          made := s.made ++ [{ session := s.pulse.session, req, res }] } := h
      exact hmade.call req res s.made.length
  | frame ss pic =>
      obtain ⟨-, rfl⟩ := move_frame_eq_some.mp hs
      exact h
  | close ss =>
      obtain ⟨-, rfl⟩ := close_eq_some.mp hs
      exact h
  | run i =>
      obtain ⟨j, -, hj⟩ := runAt_eq_some.mp hs
      have hposted : Contiguous { s with posted := s.posted.eraseIdx i } := h
      exact hposted.runJob hj

omit [LinearOrder T] in
theorem contiguous_new : Contiguous ({} : Calling T) :=
  fun req hreq => absurd hreq (Finset.notMem_empty req)

/-! ### Calls by the rules -/

/-- The subscriptions of the user to a topic. -/
def userSubs (s : Calling T) (pic : T) : List (Subscription (CallCb T)) :=
  (s.pulse.subscriptions pic).filter fun sub => sub.cb.isUser

/-- Whether a job is the handler of the close. -/
def isClosed : Job T → Bool
  | .handler .closed _ => true
  | .handler (.user _) _ => false
  | .handler (.reply _) _ => false
  | .failure _ => false

/-- The rules for the user of a pulse and for the other side.

* The session is given before the first call.
* The user does not subscribe to the close or to a response topic.
* A request topic and a response topic are used with each other only.
* On the session, a response topic gets no more replies than calls.

The run ends before the handler of the close. -/
def Disciplined (topicClosed : T) (s : Calling T) : Move T → Prop
  | .subscribe pic _ => pic ≠ topicClosed ∧ ∀ c ∈ s.made, c.res ≠ pic
  | .withSession _ => s.made = []
  | .call req res =>
      res ≠ topicClosed ∧ s.userSubs res = [] ∧ ∀ c ∈ s.made, c.req = req ↔ c.res = res
  | .frame ss pic => s.callsOn ss pic ≠ 0 → s.replies ss pic < s.callsOn ss pic
  | .close _ => True
  | .run i => ∀ j ∈ s.posted[i]?, isClosed j = false

instance (topicClosed : T) (s : Calling T) :
    (l : Move T) → Decidable (Disciplined topicClosed s l)
  | .subscribe _ _ => inferInstanceAs (Decidable (_ ∧ _))
  | .withSession _ => inferInstanceAs (Decidable (s.made = []))
  | .call _ _ => inferInstanceAs (Decidable (_ ∧ _))
  | .frame _ _ => inferInstanceAs (Decidable (_ → _))
  | .close _ => isTrue trivial
  | .run i => inferInstanceAs (Decidable (∀ j ∈ s.posted[i]?, isClosed j = false))

/-- The posted handlers of replies with a topic. -/
def pendingReplies (s : Calling T) (res : T) : ℕ :=
  s.hiddenJobs.count (.handler (.reply res) s.pulse.session)

/-- The calls by response topic: those that were answered and those in the
queue, with no more replies than calls. -/
structure Counted (s : Calling T) : Prop where
  registered : ∀ c ∈ s.made, c.onWire = true ∧ (s.callPairs c.res).isSome = true
  calls : ∀ res, s.answeredOf res ++ s.callersOf res = idsOf s.made res
  replies : ∀ res, (s.answeredOf res).length + s.pendingReplies res = s.replies s.pulse.session res
  bound : ∀ res, s.replies s.pulse.session res ≤ (idsOf s.made res).length
  jobs : ∀ cb se, .handler cb se ∈ s.hiddenJobs → se = s.pulse.session

/-- The replies of the session: those that were handled and those that are
posted, with no more of them than calls. -/
structure Tallied (s : Calling T) : Prop where
  replies : ∀ res, (s.answeredOf res).length + s.pendingReplies res = s.replies s.pulse.session res
  bound : ∀ res, s.replies s.pulse.session res ≤ (idsOf s.made res).length
  jobs : ∀ cb se, .handler cb se ∈ s.hiddenJobs → se = s.pulse.session

/-- What the rules give in every state. -/
structure QueueInv (topicClosed : T) (s : Calling T) : Prop where
  numbered : Contiguous s
  own : s.userSubs topicClosed = [] ∧ ∀ c ∈ s.made, s.userSubs c.res = []
  fresh : s.made = [] → Fresh s
  tracked : s.made ≠ [] → Tracked topicClosed s.pulse.session true s
  counted : Counted s

theorem userSubs_subscribe (s : Calling T) (pic pic' : T) (cb : CallCb T) :
    (s.subscribe pic cb).userSubs pic' = s.userSubs pic' ++
      if pic' = pic ∧ cb.isUser = true then [⟨s.pulse.session, cb⟩] else [] := by
  by_cases hpic : pic' = pic
  · subst hpic
    rcases hcb : cb.isUser with - | - <;>
      simp [userSubs, subscribe, Pulse.keepInterest, Pulse.pushSubscription, hcb]
  · simp [userSubs, subscribe, Pulse.keepInterest, Pulse.pushSubscription, hpic]

theorem userSubs_call (s : Calling T) (req res : T) (cb : ℕ) (pic : T) :
    (s.call topicClosed req res cb).userSubs pic = s.userSubs pic := by
  have hclosed : (s.callSubscribeClosed topicClosed).userSubs pic = s.userSubs pic := by
    rw [callSubscribeClosed]
    split
    · rw [userSubs_subscribe, if_neg (by simp [CallCb.isUser]), List.append_nil]
    · rfl
  have hreply : ∀ s : Calling T, (s.callSubscribeReply res).userSubs pic = s.userSubs pic := by
    intro s
    rw [callSubscribeReply]
    split
    · rw [userSubs_subscribe, if_neg (by simp [CallCb.isUser]), List.append_nil]
    · rfl
  exact (hreply _).trans hclosed

omit [LinearOrder T] in
/-- Where the user has no subscription, there are the hidden ones only. -/
theorem subscriptions_eq_hiddenSubs {pic : T} (h : s.userSubs pic = []) :
    s.pulse.subscriptions pic = s.hiddenSubs pic := by
  rw [userSubs, List.filter_eq_nil_iff] at h
  refine (List.filter_eq_self.mpr fun sub hsub => ?_).symm
  simpa using h sub hsub

/-! ### Counting the replies -/

theorem Fresh.tallied (h : Fresh s) : Tallied s where
  replies res := by simp [answeredOf, h.answered, pendingReplies, h.jobs, h.replies]
  bound res := by simp [h.replies]
  jobs := by simp [h.jobs]

/-- A step that handles nothing and posts nothing, on the same session. -/
theorem Tallied.of_eq (h : Tallied s) (hsession : s'.pulse.session = s.pulse.session)
    (hanswered : s'.answered = s.answered) (hposted : s'.posted = s.posted)
    (hreplies : s'.replies = s.replies)
    (hmade : ∀ res, (idsOf s.made res).length ≤ (idsOf s'.made res).length) : Tallied s' := by
  refine ⟨fun res => ?_, fun res => ?_, fun cb se hj => ?_⟩
  · rw [answeredOf, hanswered, pendingReplies, hiddenJobs, hposted, hsession, hreplies]
    exact h.replies res
  · rw [hsession, hreplies]
    exact (h.bound res).trans (hmade res)
  · rw [hiddenJobs, hposted] at hj
    rw [hsession]
    exact h.jobs cb se hj

theorem length_idsOf_le (made : List (Call T)) (c : Call T) (res : T) :
    (idsOf made res).length ≤ (idsOf (made ++ [c]) res).length := by
  rw [idsOf_snoc, List.length_append]
  exact Nat.le_add_right _ _

/-- Something is posted for a frame that is no reply: perhaps the handler of
the close. -/
theorem Tallied.dispatch (h : Tallied s) {ss : SessionKey} {pic : T} (js : List (Job T))
    (hjobs : (s.dispatch ss pic).hiddenJobs = s.hiddenJobs ++ js)
    (hclosed : ∀ j ∈ js, j = .handler .closed s.pulse.session) : Tallied (s.dispatch ss pic) := by
  refine ⟨fun r => ?_, h.bound, fun cb se hj => ?_⟩
  · refine Eq.trans ?_ (h.replies r)
    show _ + (s.dispatch ss pic).hiddenJobs.count (.handler (.reply r) s.pulse.session) = _
    rw [hjobs, List.count_append, List.count_eq_zero_of_not_mem (l := js)]
    · rfl
    · intro hmem
      cases hclosed _ hmem
  · rw [hjobs, List.mem_append] at hj
    rcases hj with hj | hj
    · exact h.jobs cb se hj
    · exact (Job.handler.inj (hclosed _ hj)).2

/-- A reply, where there were more calls than replies. -/
theorem Tallied.frame_reply (h : Tallied s) {pic : T}
    (hjobs : (s.dispatch s.pulse.session pic).hiddenJobs
      = s.hiddenJobs ++ [.handler (.reply pic) s.pulse.session])
    (hno : s.callsOn s.pulse.session pic ≠ 0)
    (hlt : s.replies s.pulse.session pic < (idsOf s.made pic).length) :
    Tallied (s.frame s.pulse.session pic) := by
  have hreplies : ∀ r, (s.frame s.pulse.session pic).replies s.pulse.session r
      = s.replies s.pulse.session r + [pic].count r := by
    intro r
    rw [Calling.frame, if_neg hno]
    by_cases hr : r = pic
    · subst hr
      simp
    · simp [hr, Ne.symm hr]
  refine ⟨fun r => ?_, fun r => ?_, fun cb se hj => ?_⟩
  · show (s.answeredOf r).length + (s.dispatch s.pulse.session pic).hiddenJobs.count
      (.handler (.reply r) s.pulse.session) =
        (s.frame s.pulse.session pic).replies s.pulse.session r
    rw [hjobs, hreplies, ← h.replies r, List.count_append, Nat.add_assoc, pendingReplies]
    congr 2
    by_cases hr : r = pic
    · subst hr
      simp
    · simp [Ne.symm hr]
  · show (s.frame s.pulse.session pic).replies s.pulse.session r ≤ (idsOf s.made r).length
    rw [hreplies]
    by_cases hr : r = pic
    · subst hr
      simpa using Nat.succ_le_of_lt hlt
    · simpa [Ne.symm hr] using h.bound r
  · change _ ∈ (s.dispatch s.pulse.session pic).hiddenJobs at hj
    rw [hjobs, List.mem_append, List.mem_singleton, Job.handler.injEq] at hj
    rcases hj with hj | ⟨-, hse⟩
    · exact h.jobs cb se hj
    · exact hse

omit [LinearOrder T] in
/-- Taking a job out of the posted ones. -/
theorem hiddenJobs_perm {i : ℕ} {j : Job T} (hj : s.posted[i]? = some j) :
    s.hiddenJobs.Perm ([j].filter isHidden ++ (s.posted.eraseIdx i).filter isHidden) := by
  obtain ⟨hi, rfl⟩ := List.getElem?_eq_some_iff.mp hj
  rw [← List.filter_append]
  exact (List.getElem_cons_eraseIdx_perm hi).symm.filter isHidden

/-- A handler that is not hidden, or an error callback. -/
theorem Tallied.runAt_other (h : Tallied s) {i : ℕ} {j : Job T} (hj : s.posted[i]? = some j)
    (hhid : isHidden j = false) (ran : List ℕ) :
    Tallied { s with posted := s.posted.eraseIdx i, ran } := by
  have hperm := hiddenJobs_perm hj
  rw [List.filter_singleton, hhid] at hperm
  refine ⟨fun r => ?_, h.bound, fun cb se hmem => h.jobs cb se (hperm.mem_iff.mpr hmem)⟩
  refine Eq.trans ?_ (h.replies r)
  rw [pendingReplies, pendingReplies, hperm.count_eq]
  rfl

/-- A posted reply is one that was not handled, so there is a call for it. -/
theorem Tallied.lt_of_posted (h : Tallied s) {r : T} {se : SessionKey}
    (hj : .handler (.reply r) se ∈ s.posted) :
    (s.answeredOf r).length < (idsOf s.made r).length := by
  have hmem := mem_hiddenJobs hj rfl
  obtain rfl := h.jobs _ _ hmem
  have hpos : 0 < s.pendingReplies r := List.count_pos_iff.mpr hmem
  have hreplies := h.replies r
  have hbound := h.bound r
  omega

/-- The handler of a reply was run, and matched it with a call. -/
theorem Tallied.receive (h : Tallied s) {i : ℕ} {r : T} {se : SessionKey}
    (hj : s.posted[i]? = some (.handler (.reply r) se)) (calls : T → TopicCalls) (n : ℕ) :
    Tallied { s with
      posted := s.posted.eraseIdx i
      calls := calls
      answered := s.answered ++ [(r, n)] } := by
  obtain rfl := h.jobs _ _ (mem_hiddenJobs (List.mem_of_getElem? hj) rfl)
  have hperm := hiddenJobs_perm hj
  refine ⟨fun res => ?_, h.bound,
    fun cb se hin => h.jobs cb se (hperm.mem_iff.mpr (List.mem_append_right _ hin))⟩
  refine Eq.trans ?_ (h.replies res)
  refine (congrArg (fun x => List.length x + _) (answeredOf_snoc s r res n)).trans ?_
  have hpending : s.pendingReplies res = (if res = r then 1 else 0) +
      ((s.posted.eraseIdx i).filter isHidden).count (.handler (.reply res) s.pulse.session) := by
    rw [pendingReplies, hperm.count_eq, List.count_append]
    congr 1
    by_cases hres : res = r
    · subst hres
      simp [isHidden, CallCb.isUser]
    · simp [isHidden, CallCb.isUser, hres, Ne.symm hres]
  rw [hpending, List.length_append, Nat.add_assoc]
  congr 2
  split <;> rfl

theorem Counted.tallied (h : Counted s) : Tallied s :=
  ⟨h.replies, h.bound, h.jobs⟩

theorem Fresh.counted (h : Fresh s) : Counted s where
  registered := by simp [h.made]
  calls res := by simp [answeredOf, h.answered, callersOf, h.pairs, h.made, idsOf]
  replies := h.tallied.replies
  bound := h.tallied.bound
  jobs := h.tallied.jobs

/-- A change of the pulse that keeps the session. -/
theorem Counted.setPulse (h : Counted s) {o : Pulse T (CallCb T)}
    (ho : o.session = s.pulse.session) : Counted { s with pulse := o } :=
  have htally : Tallied { s with pulse := o } :=
    h.tallied.of_eq ho rfl rfl rfl fun _ => le_rfl
  ⟨h.registered, h.calls, htally.replies, htally.bound, htally.jobs⟩

/-! ### One step by the rules -/

/-- Changes of the pulse that keep the hidden subscriptions, on a pulse that
keeps its session or has made no call. -/
theorem QueueInv.setPulse (h : QueueInv topicClosed s) {o : Pulse T (CallCb T)}
    (hhidden : ∀ pic, { s with pulse := o }.hiddenSubs pic = s.hiddenSubs pic)
    (hown : { s with pulse := o }.userSubs topicClosed = [] ∧
      ∀ c ∈ s.made, { s with pulse := o }.userSubs c.res = [])
    (hsession : s.made = [] ∨ o.session = s.pulse.session) :
    QueueInv topicClosed { s with pulse := o } := by
  refine ⟨h.numbered, hown, fun hmade => (h.fresh hmade).setPulse hhidden, fun hmade => ?_, ?_⟩
  · have hT := (h.tracked hmade).setPulse hhidden
    rw [← hsession.resolve_left hmade] at hT
    exact hT
  · rcases hsession with hmade | hsession
    · exact ((h.fresh hmade).setPulse hhidden).counted
    · exact h.counted.setPulse hsession

theorem QueueInv.subscribe (h : QueueInv topicClosed s) {pic : T} (id : ℕ)
    (hd : Disciplined topicClosed s (.subscribe pic id)) :
    QueueInv topicClosed (s.subscribe pic (.user id)) := by
  have hother : ∀ pic', pic' ≠ pic →
      (s.subscribe pic (.user id)).userSubs pic' = s.userSubs pic' := by
    intro pic' hne
    rw [userSubs_subscribe, if_neg (by simp [hne]), List.append_nil]
  refine h.setPulse (fun pic' => ?_) ⟨?_, fun c hc => ?_⟩ (.inr rfl)
  · refine (hiddenSubs_subscribe s pic pic' (.user id)).trans ?_
    rw [if_neg (by simp [CallCb.isUser]), List.append_nil]
  · exact (hother topicClosed hd.1.symm).trans h.own.1
  · exact (hother c.res (hd.2 c hc)).trans (h.own.2 c hc)

/-- Before every call the hidden subscriptions are tracked for the session. -/
theorem QueueInv.exists_tracked (h : QueueInv topicClosed s) (hne : s.pulse.session ≠ 0) :
    ∃ reg, Tracked topicClosed s.pulse.session reg s := by
  by_cases hmade : s.made = []
  · exact ⟨false, (h.fresh hmade).tracked hne⟩
  · exact ⟨true, h.tracked hmade⟩

/-- The new call is the last one of its queue. -/
theorem Counted.call (h : Counted s) {reg : Bool} {c : Call T} (hw : c.onWire = true)
    (hT : Tracked topicClosed s.pulse.session reg { s with made := s.made ++ [c] }) :
    Counted (call topicClosed { s with made := s.made ++ [c] } c.req c.res s.made.length) := by
  have hc : c ∈ { s with made := s.made ++ [c] }.made := List.mem_append_right _ List.mem_cons_self
  have hcallers := hT.callersOf_call hc s.made.length
  obtain ⟨o, ho, hsession⟩ := call_eq topicClosed { s with made := s.made ++ [c] } c.req c.res
    s.made.length
  have hsession : o.session = s.pulse.session := hsession
  rw [ho] at hcallers ⊢
  have htally : Tallied (addCaller { s with made := s.made ++ [c], pulse := o } c.req c.res
      s.made.length) :=
    h.tallied.of_eq hsession rfl rfl rfl (length_idsOf_le s.made c)
  refine ⟨fun d hd => ?_, fun r => ?_, htally.replies, htally.bound, htally.jobs⟩
  · show d.onWire = true ∧ (Function.update s.callPairs c.res (some c.req) d.res).isSome = true
    rcases List.mem_append.mp hd with hd | hd
    · obtain ⟨hd, hsome⟩ := h.registered d hd
      refine ⟨hd, ?_⟩
      by_cases hres : d.res = c.res
      · rw [hres, Function.update_self]
        rfl
      · rwa [Function.update_of_ne hres]
    · rw [List.mem_singleton.mp hd, Function.update_self]
      exact ⟨hw, rfl⟩
  · show s.answeredOf r ++ _ = idsOf (s.made ++ [c]) r
    have hold : callersOf { s with made := s.made ++ [c] } r = s.callersOf r := rfl
    rw [hcallers r, hold, idsOf_snoc, ← h.calls r, List.append_assoc, hw]
    by_cases hr : r = c.res
    · subst hr
      simp
    · simp [hr, Ne.symm hr]

theorem QueueInv.callNow (h : QueueInv topicClosed s) {req res : T}
    (hd : Disciplined topicClosed s (.call req res))
    (hs : s.callNow topicClosed req res = some s') : QueueInv topicClosed s' := by
  obtain ⟨hne, rfl⟩ := callNow_eq_some.mp hs
  obtain ⟨hres, huser, hpair⟩ := hd
  let c : Call T := { session := s.pulse.session, req, res }
  let s₁ : Calling T := { s with made := s.made ++ [c] }
  have hc : c ∈ s₁.made := List.mem_append_right _ List.mem_cons_self
  obtain ⟨reg, hT⟩ := h.exists_tracked hne
  have hT₁ : Tracked topicClosed s.pulse.session reg s₁ := by
    refine hT.send rfl hres (fun d hd => ?_) s.ran
    rw [eq_comm, hpair d hd, eq_comm]
  -- nobody but `call` subscribed to the two topics
  have hclosed : s₁.pulse.subscriptions topicClosed = [] ∨
      ⟨s.pulse.session, .closed⟩ ∈ s₁.pulse.subscriptions topicClosed := by
    rw [subscriptions_eq_hiddenSubs (s := s₁) h.own.1, hT₁.closedSubs]
    cases reg <;> simp
  have hreply : s₁.pulse.subscriptions res = [] ∨
      ⟨s.pulse.session, .reply res⟩ ∈ s₁.pulse.subscriptions res := by
    rw [subscriptions_eq_hiddenSubs (s := s₁) huser, hT₁.replySubs res hres]
    split <;> simp
  have hTracked := hT₁.call rfl hc s.made.length hclosed hreply
  have huserSubs : ∀ pic, (s₁.call topicClosed req res s.made.length).userSubs pic
      = s₁.userSubs pic := userSubs_call s₁ req res s.made.length
  have hnumbered : Contiguous (s₁.call topicClosed req res s.made.length) :=
    Contiguous.call (s := s₁) h.numbered req res s.made.length
  have hcounted := h.counted.call (c := c) rfl hT₁
  change QueueInv topicClosed (s₁.call topicClosed req res s.made.length)
  change Counted (s₁.call topicClosed req res s.made.length) at hcounted
  obtain ⟨o, ho, hsession⟩ := call_eq topicClosed s₁ req res s.made.length
  rw [ho] at hTracked huserSubs hnumbered hcounted ⊢
  refine ⟨hnumbered, ⟨(huserSubs topicClosed).trans h.own.1, fun d hd => ?_⟩, fun hmade => ?_,
    fun _ => ?_, hcounted⟩
  · refine (huserSubs d.res).trans ?_
    rcases List.mem_append.mp hd with hd | hd
    · exact h.own.2 d hd
    · rw [List.mem_singleton.mp hd]
      exact huser
  · simp [addCaller, s₁] at hmade
  · show Tracked topicClosed o.session true _
    rw [hsession]
    exact hTracked

theorem callsOn_eq {a : SessionKey} (hsession : ∀ c ∈ s.made, c.session = a) (ss : SessionKey)
    (res : T) : s.callsOn ss res = if ss = a then (idsOf s.made res).length else 0 := by
  split
  · next hss =>
      rw [callsOn, length_idsOf]
      refine List.countP_congr fun c hc => ?_
      simp [hsession c hc, hss]
  · next hss =>
      rw [callsOn, List.countP_eq_zero]
      intro c hc
      simp [hsession c hc, Ne.symm hss]

/-- Calls were made with a response topic exactly if it has a pair. -/
theorem Counted.isSome_iff {a : SessionKey} {reg : Bool} (h : Counted s)
    (hT : Tracked topicClosed a reg s) (res : T) :
    (s.callPairs res).isSome = true ↔ (idsOf s.made res).length ≠ 0 := by
  rw [length_idsOf, Ne, List.countP_eq_zero, not_forall]
  constructor
  · intro hsome
    obtain ⟨req, hp⟩ := Option.isSome_iff_exists.mp hsome
    obtain ⟨c, hc, rfl, -⟩ := hT.pairs hp
    exact ⟨c, fun hno => hno hc (by simp [(h.registered c hc).1])⟩
  · rintro ⟨c, hno⟩
    obtain ⟨hc, hres⟩ := Classical.not_imp.mp hno
    simp only [Bool.and_eq_true, beq_iff_eq, not_not] at hres
    rw [← hres.2]
    exact (h.registered c hc).2

/-- Where a frame is no reply, it posts no handler of ours. -/
theorem QueueInv.frame_other (h : QueueInv topicClosed s) {ss : SessionKey} {pic : T}
    (hpic : pic ≠ topicClosed) (hno : s.callsOn ss pic = 0) :
    (s.dispatch ss pic).hiddenJobs = s.hiddenJobs := by
  by_cases hmade : s.made = []
  · exact hiddenJobs_dispatch_none ((h.fresh hmade).subs pic) ss
  have hT := h.tracked hmade
  have hsubs := hT.replySubs pic hpic
  split at hsubs
  · next hsome =>
      rw [hiddenJobs_dispatch_one hT.ne_zero hsubs, if_neg, List.append_nil]
      intro hss
      rw [callsOn_eq hT.session, if_pos hss] at hno
      exact (h.counted.isSome_iff hT pic).mp hsome hno
  · exact hiddenJobs_dispatch_none hsubs ss

/-- A dispatch that posts no replies, but perhaps the handling of a close. -/
theorem QueueInv.dispatch (h : QueueInv topicClosed s) {ss : SessionKey} {pic : T}
    (js : List (Job T)) (hjobs : (s.dispatch ss pic).hiddenJobs = s.hiddenJobs ++ js)
    (hclosed : ∀ j ∈ js, j = .handler .closed s.pulse.session) (hnone : s.made = [] → js = []) :
    QueueInv topicClosed (s.dispatch ss pic) := by
  refine ⟨h.numbered, h.own, fun hmade => ?_, fun hmade => { h.tracked hmade with }, ?_⟩
  · have hF := h.fresh hmade
    refine ⟨hF.made, hF.subs, ?_, hF.pairs, hF.keys, hF.answered, hF.replies, hF.failed⟩
    rw [hjobs, hnone hmade, hF.jobs]
    rfl
  · have htally := h.counted.tallied.dispatch js hjobs hclosed
    exact ⟨h.counted.registered, h.counted.calls, htally.replies, htally.bound, htally.jobs⟩

/-- A reply, where there were more calls than replies. -/
theorem QueueInv.frame_reply (h : QueueInv topicClosed s) {ss : SessionKey} {pic : T}
    (hpic : pic ≠ topicClosed) (hno : s.callsOn ss pic ≠ 0)
    (hlt : s.replies ss pic < s.callsOn ss pic) : QueueInv topicClosed (s.frame ss pic) := by
  have hmade : s.made ≠ [] := by
    rintro hmade
    rw [callsOn, hmade] at hno
    exact hno rfl
  have hT := h.tracked hmade
  rw [callsOn_eq hT.session] at hno hlt
  obtain ⟨rfl, hlen⟩ : ss = s.pulse.session ∧ (idsOf s.made pic).length ≠ 0 := by simpa using hno
  rw [if_pos rfl] at hlt
  have hsubs := hT.replySubs pic hpic
  rw [if_pos ((h.counted.isSome_iff hT pic).mpr hlen)] at hsubs
  have hjobs := hiddenJobs_dispatch_one hT.ne_zero hsubs s.pulse.session
  rw [if_pos rfl] at hjobs
  have htally := h.counted.tallied.frame_reply hjobs
    (by rw [callsOn_eq hT.session, if_pos rfl]; exact hlen) hlt
  exact ⟨h.numbered, h.own, fun hnil => absurd hnil hmade, fun _ => { hT with },
    ⟨h.counted.registered, h.counted.calls, htally.replies, htally.bound, htally.jobs⟩⟩

theorem QueueInv.frame (h : QueueInv topicClosed s) {ss : SessionKey} {pic : T}
    (hpic : pic ≠ topicClosed) (hd : Disciplined topicClosed s (.frame ss pic)) :
    QueueInv topicClosed (s.frame ss pic) := by
  by_cases hno : s.callsOn ss pic = 0
  · have hframe : s.frame ss pic = s.dispatch ss pic := by
      rw [Calling.frame, if_pos hno]
      rfl
    rw [hframe]
    apply h.dispatch []
    · rw [h.frame_other hpic hno, List.append_nil]
    · simp
    · exact fun _ => rfl
  · exact h.frame_reply hpic hno (hd hno)

theorem QueueInv.close (h : QueueInv topicClosed s) {ss : SessionKey}
    (hs : s.close topicClosed ss = some s') : QueueInv topicClosed s' := by
  have hdisp : QueueInv topicClosed (s.dispatch ss topicClosed) := by
    by_cases hmade : s.made = []
    · apply h.dispatch []
      · rw [hiddenJobs_dispatch_none ((h.fresh hmade).subs topicClosed), List.append_nil]
      · simp
      · exact fun _ => rfl
    · have hT := h.tracked hmade
      apply h.dispatch _ (hiddenJobs_dispatch_one hT.ne_zero hT.closedSubs ss)
      · split <;> simp
      · exact fun hnil => absurd hnil hmade
  obtain ⟨-, rfl⟩ := close_eq_some.mp hs
  exact ⟨hdisp.numbered, hdisp.own, fun hmade => { hdisp.fresh hmade with },
    fun hmade => { hdisp.tracked hmade with }, { hdisp.counted with }⟩

/-- A handler that is not hidden, or an error callback. -/
theorem QueueInv.runAt_other (h : QueueInv topicClosed s) {i : ℕ} {j : Job T}
    (hj : s.posted[i]? = some j) (hhid : isHidden j = false) (ran : List ℕ) :
    QueueInv topicClosed { s with posted := s.posted.eraseIdx i, ran } := by
  have hperm := hiddenJobs_perm hj
  rw [List.filter_singleton, hhid] at hperm
  refine ⟨h.numbered, h.own, fun hmade => ?_, fun hmade => { h.tracked hmade with }, ?_⟩
  · have hF := h.fresh hmade
    rw [hF.jobs] at hperm
    exact ⟨hF.made, hF.subs, hperm.symm.eq_nil, hF.pairs, hF.keys, hF.answered, hF.replies,
      hF.failed⟩
  · have htally := h.counted.tallied.runAt_other hj hhid ran
    exact ⟨h.counted.registered, h.counted.calls, htally.replies, htally.bound, htally.jobs⟩

/-- The call of a posted reply is in the queue: otherwise there would be more
replies than calls. -/
theorem QueueInv.callersOf_ne_nil (h : QueueInv topicClosed s) {r : T} {se : SessionKey}
    (hj : .handler (.reply r) se ∈ s.posted) : s.callersOf r ≠ [] := by
  have hlt := h.counted.tallied.lt_of_posted hj
  have hlen := congrArg List.length (h.counted.calls r)
  intro hnone
  rw [hnone, List.append_nil] at hlen
  omega

/-- The handler of a reply takes the oldest call of its queue. -/
theorem QueueInv.runAt_reply (h : QueueInv topicClosed s) {i : ℕ} {r : T} {se : SessionKey}
    (hj : s.posted[i]? = some (.handler (.reply r) se)) :
    ∃ req c cs, s.callPairs r = some req ∧ req ∈ s.callKeys ∧ (s.calls req).callers = c :: cs ∧
      s.runAt i = some { s with
        posted := s.posted.eraseIdx i
        calls := Function.update s.calls req
          { s.calls req with replyIndex := (s.calls req).replyIndex + 1, callers := cs }
        answered := s.answered ++ [(r, c.cb)] } := by
  obtain ⟨req, c, cs, hpair, hkey, hcs⟩ :=
    Calling.callersOf_ne_nil (h.callersOf_ne_nil (List.mem_of_getElem? hj))
  refine ⟨req, c, cs, hpair, hkey, hcs, ?_⟩
  simp only [runAt, hj, runJob, callReceive, hpair, if_pos hkey, hcs]

theorem QueueInv.receive (h : QueueInv topicClosed s) {i : ℕ} {r : T} {se : SessionKey}
    (hj : s.posted[i]? = some (.handler (.reply r) se)) (hs : s.runAt i = some s') :
    QueueInv topicClosed s' := by
  have hmove : move topicClosed s (.run i) = some s' := hs
  have hnumbered : Contiguous s' := h.numbered.move hmove
  have hmem := List.mem_of_getElem? hj
  have hmade : s.made ≠ [] := by
    intro hnil
    have hidden := mem_hiddenJobs hmem rfl
    rw [(h.fresh hnil).jobs] at hidden
    cases hidden
  have hT := h.tracked hmade
  obtain rfl := h.counted.jobs _ _ (mem_hiddenJobs hmem rfl)
  obtain ⟨req, c, cs, hpair, hkey, hcs, hrun⟩ := h.runAt_reply hj
  obtain rfl := Option.some.inj (hrun.symm.trans hs)
  have hpop := hT.callersOf_popFront hpair hkey hcs
    { s.calls req with replyIndex := (s.calls req).replyIndex + 1, callers := cs } rfl
  have htally := h.counted.tallied.receive hj (Function.update s.calls req
    { s.calls req with replyIndex := (s.calls req).replyIndex + 1, callers := cs }) c.cb
  refine ⟨hnumbered, h.own, fun hnil => absurd hnil hmade, fun _ => { hT with },
    ⟨h.counted.registered, fun res => ?_, htally.replies, htally.bound, htally.jobs⟩⟩
  -- the call moves from the front of the queue to the answered ones
  refine Eq.trans ?_ (h.counted.calls res)
  refine (congrArg (· ++ _) (answeredOf_snoc s r res c.cb)).trans ?_
  rw [← hpop res, List.append_assoc]
  rfl

theorem QueueInv.move {l : Move T} (h : QueueInv topicClosed s)
    (hd : Disciplined topicClosed s l) (hs : move topicClosed s l = some s') :
    QueueInv topicClosed s' := by
  cases l with
  | subscribe pic id =>
      obtain rfl := Option.some.inj hs
      exact h.subscribe id hd
  | withSession ss =>
      obtain rfl := Option.some.inj hs
      exact h.setPulse (fun _ => rfl) h.own (.inl hd)
  | call req res => exact h.callNow hd hs
  | frame ss pic =>
      obtain ⟨hpic, rfl⟩ := move_frame_eq_some.mp hs
      exact h.frame hpic hd
  | close ss => exact h.close hs
  | run i =>
      obtain ⟨j, hj, hrun⟩ := runAt_eq_some.mp hs
      rcases j with ⟨cb, se⟩ | cb
      · cases cb with
        | user id =>
            obtain rfl := Option.some.inj hrun
            exact h.runAt_other hj rfl s.ran
        | reply r => exact h.receive hj hs
        | closed => cases hd _ hj
      · obtain rfl := Option.some.inj hrun
        exact h.runAt_other hj rfl (s.ran ++ [cb])

/-! ### The queues of calls by the rules -/

/-- What the queues are good for.

* The numbers in a queue are those between its counters.
* The handler of a reply finds its queue, and at its front the number that
  the checks want.  It is the oldest call of the pair that has no reply, and
  taking it is all that the handler does.
* The handler of the close posts the error callbacks of all calls without a
  reply, each once, and empties the table. -/
structure CallQueues (s : Calling T) : Prop where
  numbered : ∀ req ∈ s.callKeys, (s.calls req).Numbered
  reply : ∀ {i r se}, s.posted[i]? = some (.handler (.reply r) se) →
    ∃ req c cs, s.callPairs r = some req ∧ req ∈ s.callKeys ∧ (s.calls req).callers = c :: cs ∧
      c.callId = (s.calls req).replyIndex + 1 ∧
      (∃ later, idsOf s.made r = s.answeredOf r ++ c.cb :: later) ∧
      s.runAt i = some { s with
        posted := s.posted.eraseIdx i
        calls := Function.update s.calls req
          { s.calls req with replyIndex := (s.calls req).replyIndex + 1, callers := cs }
        answered := s.answered ++ [(r, c.cb)] }
  closed : ∀ {i se}, s.posted[i]? = some (.handler .closed se) →
    ∃ cbs, s.runAt i = some { s with
        posted := s.posted.eraseIdx i ++ cbs.map .failure
        callKeys := ∅
        calls := fun _ => {}
        failed := s.failed ++ cbs } ∧ cbs.Nodup ∧
      (∀ n, n ∈ cbs ↔ ∃ req ∈ s.callKeys, n ∈ (s.calls req).callers.map Caller.cb) ∧
      ∀ n, n ∈ cbs ↔ n < s.made.length ∧ n ∉ s.answered.map Prod.snd

/-- Who waits has made a call and got no reply. -/
theorem QueueInv.mem_callersOf_iff (h : QueueInv topicClosed s) (n : ℕ) :
    (∃ res, n ∈ s.callersOf res) ↔ n < s.made.length ∧ n ∉ s.answered.map Prod.snd := by
  have hsplit : ∀ res, n ∈ idsOf s.made res ↔ n ∈ s.answeredOf res ∨ n ∈ s.callersOf res := by
    intro res
    rw [← h.counted.calls res, List.mem_append]
  constructor
  · rintro ⟨res, hn⟩
    have hids := (hsplit res).mpr (.inr hn)
    refine ⟨lt_of_mem_idsOf hids, fun hans => ?_⟩
    obtain ⟨⟨res', n'⟩, hmem, rfl⟩ := List.mem_map.mp hans
    have hans' : n' ∈ s.answeredOf res' :=
      List.mem_map.mpr ⟨(res', n'), List.mem_filter.mpr ⟨hmem, by simp⟩, rfl⟩
    -- it would be answered on its own topic, and wait there as well
    obtain ⟨c, hc, -, rfl⟩ := mem_idsOf.mp hids
    obtain ⟨d, hd, -, rfl⟩ := mem_idsOf.mp ((hsplit res').mpr (.inl hans'))
    obtain rfl := Option.some.inj (hc.symm.trans hd)
    have hnodup := nodup_idsOf s.made c.res
    rw [← h.counted.calls c.res] at hnodup
    exact List.disjoint_of_nodup_append hnodup hans' hn
  · rintro ⟨hlt, hans⟩
    have hc := List.getElem?_eq_getElem hlt
    have hwire := (h.counted.registered _ (List.mem_of_getElem? hc)).1
    have hids := mem_idsOf.mpr ⟨s.made[n], hc, hwire, rfl⟩
    refine ⟨s.made[n].res, ((hsplit _).mp hids).resolve_left fun hno => hans ?_⟩
    obtain ⟨p, hp, hpn⟩ := List.mem_map.mp hno
    exact List.mem_map.mpr ⟨p, (List.mem_filter.mp hp).1, hpn⟩

theorem QueueInv.callQueues (h : QueueInv topicClosed s) : CallQueues s where
  numbered := h.numbered
  reply := by
    intro i r se hj
    obtain ⟨req, c, cs, hpair, hkey, hcs, hrun⟩ := h.runAt_reply hj
    refine ⟨req, c, cs, hpair, hkey, hcs, ((h.numbered req hkey).pop hcs).1,
      ⟨cs.map Caller.cb, ?_⟩, hrun⟩
    rw [← h.counted.calls r, callersOf_of_mem hpair hkey, hcs]
    rfl
  closed := by
    intro i se hj
    have hmem := mem_hiddenJobs (List.mem_of_getElem? hj) rfl
    obtain rfl := h.counted.jobs _ _ hmem
    have hmade : s.made ≠ [] := by
      intro hnil
      rw [(h.fresh hnil).jobs] at hmem
      cases hmem
    have hT := h.tracked hmade
    refine ⟨s.waitingCbs, ?_, ?_, fun n => ?_, fun n => ?_⟩
    · simp only [runAt, hj, runJob, callClosed, ne_eq, not_true_eq_false, if_false]
      rfl
    · refine hT.nodup_waitingCbs fun res => ?_
      rw [← h.counted.calls res]
      exact List.sublist_append_right _ _
    · simp only [waitingCbs, List.mem_flatMap, Finset.mem_sort]
    · rw [hT.mem_waitingCbs]
      exact h.mem_callersOf_iff n

/-- **The queues of outstanding calls**: along every run by the rules, in any
order of calls, replies and handlers, in every state passed through the
numbers in a queue are those between its counters, every reply takes the
oldest call of its pair and nothing else, with the checks of `call_receive`
holding, and the close posts exactly the error callbacks that are left and
empties the table. -/
theorem callQueues_of_disciplined (topicClosed : T) (ls : List (Move T))
    (h : Along (move topicClosed) (Disciplined topicClosed) {} ls) :
    Always (move topicClosed) CallQueues {} ls := by
  have hfresh : Fresh ({} : Calling T) :=
    ⟨rfl, fun _ => rfl, rfl, fun _ => rfl, rfl, rfl, fun _ _ => rfl, rfl⟩
  have hnew : QueueInv topicClosed ({} : Calling T) :=
    ⟨contiguous_new, ⟨rfl, fun c hc => absurd hc List.not_mem_nil⟩, fun _ => hfresh,
      fun hne => absurd rfl hne, hfresh.counted⟩
  intro pre s hpre hrun
  exact ((h.of_prefix hpre).invariant (fun hs hd hstep => hs.move hd hstep) hnew hrun).callQueues

/-- Calls on two pairs of topics, one reply that is handled, one that is not,
and the close. -/
def twoPairs : List (Move ℕ) :=
  [.subscribe 30 0, .withSession 7, .call 21 22, .call 41 42, .call 21 22, .frame 7 22, .run 0,
    .frame 7 42, .close 7]

theorem callQueues_twoPairs :
    (∃ s, runSteps (move 2) ({} : Calling ℕ) twoPairs = some s ∧
      s.posted = [.handler (.reply 42) 7, .handler .closed 7] ∧
      (s.calls 21).callers = [⟨2, 2⟩] ∧ (s.calls 41).callers = [⟨1, 1⟩]) ∧
    Always (move 2) CallQueues ({} : Calling ℕ) twoPairs := by
  have hend : (runSteps (move 2) ({} : Calling ℕ) twoPairs).map
      (fun s => (s.posted, (s.calls 21).callers, (s.calls 41).callers))
      = some ([.handler (.reply 42) 7, .handler .closed 7], [⟨2, 2⟩], [⟨1, 1⟩]) := by
    decide +kernel
  obtain ⟨s, hrun, hs⟩ := Option.map_eq_some_iff.mp hend
  simp only [Prod.mk.injEq] at hs
  exact ⟨⟨s, hrun, hs⟩, callQueues_of_disciplined 2 twoPairs (by decide +kernel)⟩

end Calling

end Play
