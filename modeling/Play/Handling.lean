/-
Play/Handling.lean

Replies, the close and the handlers they post, on tracked calls.

The handlers of replies and the one of the close are posted in the order in
which the frames arrived and run in this order.  A reply handler moves the
oldest call of its queue to the answered ones.  The close handler comes last:
no reply arrives on a closed session.  When it runs and every call is
registered, the queues hold exactly the calls that `Lost` describes, so that
these are the ones whose error callbacks it posts.
-/
import Play.Tracking

namespace Play

namespace Calling

variable {T : Type} [LinearOrder T]
variable {topicClosed : T} {a : SessionKey} {reg : Bool} {fl : T → List ℕ} {rs : List T}
variable {s s' : Calling T}

/-! ### A reply arrives -/

theorem reply_eq_some {ss : SessionKey} {res : T} :
    s.reply ss res = some s' ↔ (ss ∉ s.closed ∧ s.replies ss res < s.callsOn ss res) ∧
      { s.dispatch ss res with
        replies := Function.update s.replies ss
          (Function.update (s.replies ss) res (s.replies ss res + 1)) } = s' := by
  rw [reply]
  split <;> simp_all

/-- Replies come on the session of the calls. -/
theorem Tracked.reply_session (h : Tracked topicClosed a reg s) {ss : SessionKey} {res : T}
    (hs : s.reply ss res = some s') : ss = a ∧ a ∉ s.closed ∧ res ≠ topicClosed ∧
      s.replies a res < (idsOf s.made res).length := by
  obtain ⟨⟨hopen, hlt⟩, -⟩ := reply_eq_some.mp hs
  have hpos : 0 < s.callsOn ss res := by omega
  obtain ⟨c, hc, hcs⟩ := List.countP_pos_iff.mp hpos
  simp only [Bool.and_eq_true, beq_iff_eq] at hcs
  obtain ⟨-, rfl, rfl⟩ := hcs
  have ha := h.session c hc
  refine ⟨ha, ha ▸ hopen, h.topic c hc, ?_⟩
  rw [← ha, length_idsOf]
  refine hlt.trans_le (List.countP_mono_left fun d _ hd => ?_)
  simp only [Bool.and_eq_true, beq_iff_eq] at hd ⊢
  exact ⟨hd.1, hd.2.2⟩

theorem Tracked.reply (h : Tracked topicClosed a reg s) {ss : SessionKey} {res : T}
    (hs : s.reply ss res = some s') : Tracked topicClosed a reg s' := by
  obtain ⟨-, rfl⟩ := reply_eq_some.mp hs
  exact { h with }

/-- A reply to a topic with a registered call posts its handler. -/
theorem Waiting.reply (hT : Tracked topicClosed a reg s) (h : Waiting a fl rs s) {ss : SessionKey}
    {res : T} (hreg : (s.callPairs res).isSome = true) (hs : s.reply ss res = some s') :
    Waiting a fl (rs ++ [res]) s' := by
  obtain ⟨rfl, hopen, hres, hlt⟩ := hT.reply_session hs
  obtain ⟨-, rfl⟩ := reply_eq_some.mp hs
  -- the one hidden subscription to the topic is for this session
  have hsubs := hT.replySubs res hres
  rw [if_pos hreg] at hsubs
  have hjobs := hiddenJobs_dispatch_one hT.ne_zero hsubs ss
  have hreplies : ∀ r, Function.update s.replies ss
      (Function.update (s.replies ss) res (s.replies ss res + 1)) ss r
      = s.replies ss r + [res].count r := by
    intro r
    by_cases hr : r = res
    · subst hr
      simp
    · simp [hr, Ne.symm hr]
  refine ⟨?_, h.calls, fun r => ?_, fun r => ?_, h.failed⟩
  · -- no close is posted yet, so the new handler is the last one
    refine Eq.trans hjobs ?_
    rw [h.jobs, if_neg hopen]
    show _ = _ ++ if ss ∈ s.closed then _ else _
    rw [if_neg hopen]
    simp
  · refine Eq.trans ?_ (hreplies r).symm
    rw [List.count_append, ← h.counted r, Nat.add_assoc]
    rfl
  · refine (hreplies r).trans_le ?_
    show _ ≤ (idsOf s.made r).length
    by_cases hr : r = res
    · subst hr
      simpa using Nat.succ_le_of_lt hlt
    · simpa [Ne.symm hr] using h.bound r

/-! ### A session closes -/

omit [LinearOrder T] in
theorem close_eq_some {ss : SessionKey} :
    s.close topicClosed ss = some s' ↔ (ss ≠ 0 ∧ ss ∉ s.closed) ∧
      { s.dispatch ss topicClosed with closed := ss :: s.closed } = s' := by
  rw [close]
  split <;> simp_all

omit [LinearOrder T] in
theorem Tracked.close (h : Tracked topicClosed a reg s) {ss : SessionKey}
    (hs : s.close topicClosed ss = some s') : Tracked topicClosed a reg s' := by
  obtain ⟨-, rfl⟩ := close_eq_some.mp hs
  exact { h with }

omit [LinearOrder T] in
/-- The close of another session is not noticed. -/
theorem Tracked.hiddenJobs_close_other (h : Tracked topicClosed a reg s) {ss : SessionKey}
    (hne : ss ≠ a) (hs : s.close topicClosed ss = some s') :
    s'.hiddenJobs = s.hiddenJobs ∧ (a ∈ s'.closed ↔ a ∈ s.closed) := by
  obtain ⟨-, rfl⟩ := close_eq_some.mp hs
  refine ⟨?_, by simp [Ne.symm hne]⟩
  show (s.dispatch ss topicClosed).hiddenJobs = _
  have hsubs := h.closedSubs
  cases reg with
  | false => exact hiddenJobs_dispatch_none hsubs ss
  | true => rw [hiddenJobs_dispatch_one h.ne_zero hsubs, if_neg hne, List.append_nil]

theorem Waiting.close_other (hT : Tracked topicClosed a reg s) (h : Waiting a fl rs s)
    {ss : SessionKey} (hne : ss ≠ a) (hs : s.close topicClosed ss = some s') :
    Waiting a fl rs s' := by
  obtain ⟨hjobs, hclosed⟩ := hT.hiddenJobs_close_other hne hs
  have hjobs' := hjobs.trans h.jobs
  simp only [← hclosed] at hjobs'
  obtain ⟨-, rfl⟩ := close_eq_some.mp hs
  exact ⟨hjobs', h.calls, h.counted, h.bound, h.failed⟩

theorem Over.close (hT : Tracked topicClosed a reg s) (h : Over a s) {ss : SessionKey}
    (hs : s.close topicClosed ss = some s') : Over a s' := by
  have hne : ss ≠ a := by
    rintro rfl
    exact (close_eq_some.mp hs).1.2 h.closed
  obtain ⟨hjobs, hclosed⟩ := hT.hiddenJobs_close_other hne hs
  obtain ⟨-, rfl⟩ := close_eq_some.mp hs
  exact ⟨hclosed.mpr h.closed, hjobs.trans h.jobs, h.matched, h.nodup, h.failed⟩

/-- The close of the session of the calls posts the handler behind those of
the replies. -/
theorem Waiting.close (hT : Tracked topicClosed a true s) (h : Waiting a fl rs s)
    (hs : s.close topicClosed a = some s') : Waiting a fl rs s' := by
  obtain ⟨⟨-, hopen⟩, rfl⟩ := close_eq_some.mp hs
  refine ⟨?_, h.calls, h.counted, h.bound, h.failed⟩
  show (s.dispatch a topicClosed).hiddenJobs = _ ++ if a ∈ a :: s.closed then _ else _
  rw [hiddenJobs_dispatch_one hT.ne_zero hT.closedSubs, h.jobs, if_neg hopen, if_pos rfl,
    if_pos List.mem_cons_self, List.append_nil]

/-- When no handler of a reply is posted, and every call is registered, the
queue has the calls without a reply. -/
theorem Waiting.split (h : Waiting a fl [] s) {res : T} (hfl : fl res = []) :
    s.answeredOf res = (idsOf s.made res).take (s.replies a res) ∧
      s.callersOf res = (idsOf s.made res).drop (s.replies a res) := by
  have hcalls := h.calls res
  have hcounted := h.counted res
  rw [List.count_nil, Nat.add_zero] at hcounted
  rw [hfl, List.append_nil] at hcalls
  rw [← hcalls, List.take_left' hcounted, List.drop_left' hcounted]
  exact ⟨rfl, rfl⟩

/-- Where nobody waits, no handler of a reply is posted. -/
theorem Waiting.eq_nil (h : Waiting a fl rs s) (hfl : ∀ res, fl res = [])
    (hcallers : ∀ res, s.callersOf res = []) : rs = [] := by
  refine List.eq_nil_iff_forall_not_mem.mpr fun r hr => ?_
  have hcalls := congrArg List.length (h.calls r)
  have hpos := List.count_pos_iff.mpr hr
  have hcounted := h.counted r
  have hbound := h.bound r
  rw [hfl, hcallers, List.append_nil, List.append_nil] at hcalls
  omega

/-- If no call was registered and none is on its way to be, nothing has to be
done. -/
theorem Waiting.close_idle (hT : Tracked topicClosed a false s) (h : Waiting a fl rs s)
    (hfl : ∀ res, fl res = []) (hs : s.close topicClosed a = some s') : Over a s' := by
  have hcallers : ∀ res, s.callersOf res = [] := fun res => by
    rw [callersOf, hT.unregistered rfl res]
  obtain rfl := h.eq_nil hfl hcallers
  obtain ⟨⟨-, hopen⟩, rfl⟩ := close_eq_some.mp hs
  refine ⟨List.mem_cons_self, ?_, fun res => (h.split (hfl res)).1, ?_, fun i => ?_⟩
  · show (s.dispatch a topicClosed).hiddenJobs = []
    rw [hiddenJobs_dispatch_none hT.closedSubs, h.jobs, if_neg hopen]
    rfl
  · show s.failed.Nodup
    rw [h.failed]
    exact List.nodup_nil
  · show i ∈ s.failed ↔ ∃ res, i ∈ (idsOf s.made res).drop (s.replies a res)
    simp only [h.failed, ← (h.split (hfl _)).2, hcallers, List.not_mem_nil, exists_false]

/-! ### A handler runs -/

omit [LinearOrder T] in
/-- A job that is not hidden leaves the hidden ones. -/
theorem hiddenJobs_pop {j : Job T} {js : List (Job T)} (hp : s.posted = j :: js) :
    s.hiddenJobs = if isHidden j then j :: js.filter isHidden else js.filter isHidden := by
  rw [hiddenJobs, hp, List.filter_cons]

omit [LinearOrder T] in
theorem mem_hiddenJobs {j : Job T} (h : j ∈ s.posted) (hj : isHidden j = true) :
    j ∈ s.hiddenJobs :=
  List.mem_filter.mpr ⟨h, hj⟩

/-- Any other job runs, with no effect but that of an error callback. -/
theorem runNext_of_not_hidden {j : Job T} {js : List (Job T)} (hp : s.posted = j :: js)
    (hj : isHidden j = false) : ∃ ran, s.runNext = some { s with posted := js, ran } := by
  rw [runNext, hp]
  rcases j with ⟨cb, se⟩ | cb
  · cases cb with
    | user id => exact ⟨s.ran, rfl⟩
    | reply pic => cases hj
    | closed => cases hj
  · exact ⟨s.ran ++ [cb], rfl⟩

/-- No handler of ours changes the pulse, makes a call or forgets which topics
belong together. -/
theorem runNext_frame (h : s.runNext = some s') :
    s'.pulse = s.pulse ∧ s'.made = s.made ∧ s'.callPairs = s.callPairs := by
  rw [runNext] at h
  rcases hp : s.posted with - | ⟨j, js⟩ <;> rw [hp] at h
  · cases h
  by_cases hj : isHidden j = false
  · obtain ⟨ran, hrun⟩ := runNext_of_not_hidden hp hj
    rw [runNext, hp, h] at hrun
    cases hrun
    exact ⟨rfl, rfl, rfl⟩
  rcases j with ⟨cb, se⟩ | cb
  · cases cb with
    | user id => exact absurd rfl hj
    | reply pic =>
        simp only [runJob, callReceive] at h
        repeat' split at h
        all_goals cases h
        all_goals exact ⟨rfl, rfl, rfl⟩
    | closed =>
        simp only [runJob, callClosed] at h
        split at h <;> cases h <;> exact ⟨rfl, rfl, rfl⟩
  · exact absurd rfl hj

/-- The jobs of the user and the error callbacks do not matter here. -/
theorem Waiting.pop (h : Waiting a fl rs s) {j : Job T} {js : List (Job T)}
    (hp : s.posted = j :: js) (hj : isHidden j = false) (ran : List ℕ) :
    Waiting a fl rs { s with posted := js, ran } := by
  refine ⟨?_, h.calls, h.counted, h.bound, h.failed⟩
  refine Eq.trans ?_ h.jobs
  rw [hiddenJobs_pop hp, hj]
  rfl

theorem Over.pop (h : Over a s) {j : Job T} {js : List (Job T)} (hp : s.posted = j :: js)
    (hj : isHidden j = false) (ran : List ℕ) : Over a { s with posted := js, ran } := by
  refine ⟨h.closed, ?_, h.matched, h.nodup, h.failed⟩
  refine Eq.trans ?_ h.jobs
  rw [hiddenJobs_pop hp, hj]
  rfl

theorem Over.not_hidden (h : Over a s) {j : Job T} {js : List (Job T)} (hp : s.posted = j :: js) :
    isHidden j = false := by
  have hjobs := h.jobs
  rw [hiddenJobs_pop hp] at hjobs
  by_contra hj
  rw [if_pos (by simpa using hj)] at hjobs
  cases hjobs

/-- The queue behind a list of waiting callers. -/
theorem callersOf_ne_nil {res : T} (h : s.callersOf res ≠ []) :
    ∃ req c cs, s.callPairs res = some req ∧ req ∈ s.callKeys ∧
      (s.calls req).callers = c :: cs := by
  rw [callersOf] at h
  rcases hp : s.callPairs res with - | req <;> rw [hp] at h
  · exact absurd rfl h
  · dsimp only at h
    split at h
    · next hkey =>
        rcases hcs : (s.calls req).callers with - | ⟨c, cs⟩
        · rw [hcs] at h
          exact absurd rfl h
        · exact ⟨req, c, cs, rfl, hkey, hcs⟩
    · exact absurd rfl h

theorem callersOf_of_mem {res req : T} (hp : s.callPairs res = some req) (hkey : req ∈ s.callKeys) :
    s.callersOf res = (s.calls req).callers.map Caller.cb := by
  rw [callersOf, hp]
  exact if_pos hkey

/-- The first of the hidden jobs is that of a reply. -/
theorem Waiting.pop_reply (h : Waiting a fl rs s) {r : T} {se : SessionKey} {js : List (Job T)}
    (hp : s.posted = .handler (.reply r) se :: js) :
    ∃ rs', rs = r :: rs' ∧ js.filter isHidden = rs'.map (fun r => .handler (.reply r) a) ++
      if a ∈ s.closed then [.handler .closed a] else [] := by
  have hjobs := h.jobs
  rw [hiddenJobs_pop hp] at hjobs
  rcases rs with - | ⟨r', rs'⟩
  · split at hjobs <;> split at hjobs <;> simp_all [isHidden, CallCb.isUser]
  · simp only [isHidden, CallCb.isUser, Bool.not_false, if_true, List.map_cons, List.cons_append,
      List.cons.injEq, Job.handler.injEq, CallCb.reply.injEq] at hjobs
    obtain ⟨⟨rfl, -⟩, hrest⟩ := hjobs
    exact ⟨rs', rfl, hrest⟩

/-- The first of the hidden jobs is that of the close. -/
theorem Waiting.pop_closed (h : Waiting a fl rs s) {se : SessionKey} {js : List (Job T)}
    (hp : s.posted = .handler .closed se :: js) :
    rs = [] ∧ se = a ∧ a ∈ s.closed ∧ js.filter isHidden = [] := by
  have hjobs := h.jobs
  rw [hiddenJobs_pop hp, if_pos (show isHidden (Job.handler CallCb.closed se) = true from rfl)]
    at hjobs
  rcases rs with - | ⟨r', rs'⟩
  · split at hjobs
    · next hclosed =>
        simp only [List.map_nil, List.nil_append, List.cons.injEq, Job.handler.injEq] at hjobs
        exact ⟨rfl, hjobs.1.2, hclosed, hjobs.2⟩
    · cases hjobs
  · simp at hjobs

/-- Taking the oldest call from a queue. -/
theorem Tracked.callersOf_popFront (hT : Tracked topicClosed a reg s) {r req : T} {c : Caller}
    {cs : List Caller} (hpair : s.callPairs r = some req) (hkey : req ∈ s.callKeys)
    (hcs : (s.calls req).callers = c :: cs) (tc : TopicCalls) (htc : tc.callers = cs) (res : T) :
    (if res = r then [c.cb] else []) ++
      callersOf { s with calls := Function.update s.calls req tc } res = s.callersOf res := by
  by_cases hres : res = r
  · subst hres
    have hnew : callersOf { s with calls := Function.update s.calls req tc } res
        = cs.map Caller.cb := by
      rw [← htc]
      simp only [callersOf, hpair, if_pos hkey, Function.update_self]
    rw [if_pos rfl, hnew, callersOf_of_mem hpair hkey, hcs]
    rfl
  · rw [if_neg hres, List.nil_append, callersOf, callersOf]
    rcases hp : s.callPairs res with - | req'
    · rfl
    · have hreq : req' ≠ req := fun h => hres ((hT.pair_eq hp hpair).mp h)
      simp only [Function.update_of_ne hreq]

theorem answeredOf_snoc (s : Calling T) (r res : T) (i : ℕ) :
    answeredOf { s with answered := s.answered ++ [(r, i)] } res =
      s.answeredOf res ++ if res = r then [i] else [] := by
  by_cases hres : res = r
  · subst hres
    simp [answeredOf]
  · simp [answeredOf, hres, Ne.symm hres]

/-- The handler of a reply takes the oldest call of the queue. -/
theorem Waiting.receive (hT : Tracked topicClosed a reg s) (h : Waiting a fl rs s) {r : T}
    {se : SessionKey} {js : List (Job T)} (hp : s.posted = .handler (.reply r) se :: js)
    (hcallers : s.callersOf r ≠ []) :
    ∃ s' rs', s.runNext = some s' ∧ Tracked topicClosed a reg s' ∧ Waiting a fl rs' s' := by
  obtain ⟨rs', rfl, hjobs⟩ := h.pop_reply hp
  obtain ⟨req, c, cs, hpair, hkey, hcs⟩ := callersOf_ne_nil hcallers
  let tc := { s.calls req with replyIndex := (s.calls req).replyIndex + 1, callers := cs }
  have hrun : s.runNext = some { s with
      posted := js
      calls := Function.update s.calls req tc
      answered := s.answered ++ [(r, c.cb)] } := by
    simp only [runNext, hp, runJob, callReceive, hpair, if_pos hkey, hcs, tc]
  have hans := answeredOf_snoc s r (i := c.cb)
  have hpop := hT.callersOf_popFront hpair hkey hcs tc rfl
  refine ⟨_, rs', hrun, { hT with }, hjobs, fun res => ?_, fun res => ?_, h.bound, h.failed⟩
  · -- the call moves from the front of the queue to the answered ones
    refine Eq.trans ?_ (h.calls res)
    refine (congrArg (· ++ _) (hans res)).trans ?_
    rw [← hpop res, List.append_assoc, List.append_assoc]
    rfl
  · refine Eq.trans ?_ (h.counted res)
    refine (congrArg (fun x => List.length x + _) (hans res)).trans ?_
    rw [List.length_append, List.count_cons]
    by_cases hres : res = r
    · subst hres
      simp only [if_true, List.length_singleton, beq_self_eq_true]
      omega
    · simp [hres, Ne.symm hres]

/-- If every call is registered, the call of a posted reply is in the
queue. -/
theorem Waiting.callersOf_ne_nil_of_reply (h : Waiting a fl rs s) {r : T} {se : SessionKey}
    {js : List (Job T)} (hp : s.posted = .handler (.reply r) se :: js) (hfl : fl r = []) :
    s.callersOf r ≠ [] := by
  obtain ⟨rs', rfl, -⟩ := h.pop_reply hp
  intro hnone
  -- otherwise all calls were answered, and this reply would be one too many
  have hcalls := congrArg List.length (h.calls r)
  have hcounted := h.counted r
  have hbound := h.bound r
  rw [hnone, hfl, List.append_nil, List.append_nil] at hcalls
  rw [List.count_cons_self] at hcounted
  omega

/-- Everyone who waits, by response topic. -/
theorem Tracked.mem_waitingCbs (h : Tracked topicClosed a reg s) {i : ℕ} :
    i ∈ s.waitingCbs ↔ ∃ res, i ∈ s.callersOf res := by
  rw [waitingCbs, List.mem_flatMap]
  constructor
  · rintro ⟨req, hkey, hi⟩
    rw [Finset.mem_sort] at hkey
    obtain ⟨res, hp⟩ := h.keys req hkey
    exact ⟨res, by rwa [callersOf_of_mem hp hkey]⟩
  · rintro ⟨res, hi⟩
    obtain ⟨req, c, cs, hp, hkey, hcs⟩ := callersOf_ne_nil (List.ne_nil_of_mem hi)
    rw [callersOf_of_mem hp hkey] at hi
    exact ⟨req, (Finset.mem_sort _).mpr hkey, hi⟩

/-- Nobody waits twice. -/
theorem Tracked.nodup_waitingCbs (hT : Tracked topicClosed a reg s)
    (hsub : ∀ res, (s.callersOf res).Sublist (idsOf s.made res)) : s.waitingCbs.Nodup := by
  rw [waitingCbs, List.nodup_flatMap]
  constructor
  · intro req hkey
    rw [Finset.mem_sort] at hkey
    obtain ⟨res, hp⟩ := hT.keys req hkey
    rw [← callersOf_of_mem hp hkey]
    exact (hsub res).nodup (nodup_idsOf _ _)
  · -- a call is in the queue of its own request topic only
    refine (Finset.sort_nodup _ _).imp_of_mem ?_
    intro req req' hkey hkey' hne i hi hi'
    rw [Finset.mem_sort] at hkey hkey'
    dsimp only at hi hi'
    obtain ⟨res, hp⟩ := hT.keys req hkey
    obtain ⟨res', hp'⟩ := hT.keys req' hkey'
    rw [← callersOf_of_mem hp hkey] at hi
    rw [← callersOf_of_mem hp' hkey'] at hi'
    obtain ⟨c, hc, -, hcres⟩ := mem_idsOf.mp ((hsub res).mem hi)
    obtain ⟨d, hd, -, hdres⟩ := mem_idsOf.mp ((hsub res').mem hi')
    obtain rfl := Option.some.inj (hc.symm.trans hd)
    exact hne ((hT.pair_eq hp hp').mpr (hcres.symm.trans hdres))

theorem Waiting.nodup_waitingCbs (hT : Tracked topicClosed a reg s) (h : Waiting a fl rs s) :
    s.waitingCbs.Nodup := by
  refine hT.nodup_waitingCbs fun res => ?_
  rw [← h.calls res]
  exact (List.sublist_append_left _ _).trans (List.sublist_append_right _ _)

/-- The handler of the close, behind all replies, posts the error callbacks
of the calls that are left. -/
theorem Waiting.over (hT : Tracked topicClosed a reg s) (h : Waiting a fl rs s)
    {se : SessionKey} {js : List (Job T)} (hp : s.posted = .handler .closed se :: js)
    (hfl : ∀ res, fl res = []) (hsession : s.pulse.session = se ∨ s.waitingCbs = []) :
    ∃ s', s.runNext = some s' ∧ Tracked topicClosed a reg s' ∧ Over a s' := by
  obtain ⟨rfl, rfl, hclosed, hjs⟩ := h.pop_closed hp
  have hsplit := fun res => h.split (hfl res)
  have hwait : ∀ i, i ∈ s.waitingCbs ↔ ∃ res, i ∈ (idsOf s.made res).drop (s.replies se res) := by
    intro i
    simp only [hT.mem_waitingCbs, (hsplit _).2]
  have hrun : s.runNext = some (callClosed { s with posted := js } se) := by
    simp only [runNext, hp, runJob]
  refine ⟨_, hrun, ?_⟩
  rw [callClosed]
  split
  · -- the pulse has another session by now, but there is nobody to tell
    next hne =>
      have hnone : s.waitingCbs = [] := hsession.resolve_left fun h => hne h.symm
      rw [hnone] at hwait
      refine ⟨{ hT with }, hclosed, hjs, fun res => (hsplit res).1, ?_, fun i => ?_⟩
      · show s.failed.Nodup
        rw [h.failed]
        exact List.nodup_nil
      · show i ∈ s.failed ↔ _
        rw [h.failed]
        exact hwait i
  · refine ⟨{ hT with keys := fun req hreq => absurd hreq (Finset.notMem_empty _) }, hclosed, ?_,
      fun res => (hsplit res).1, ?_, fun i => ?_⟩
    · show (js ++ _).filter isHidden = []
      rw [List.filter_append, hjs, List.nil_append, List.filter_map]
      simp [Function.comp_def, isHidden]
    · show (s.failed ++ s.waitingCbs).Nodup
      rw [h.failed]
      exact h.nodup_waitingCbs hT
    · show i ∈ s.failed ++ s.waitingCbs ↔ _
      rw [h.failed]
      exact hwait i

/-! ### Lost calls -/

/-- The calls on the wire before number `i`, on the session and with the
response topic of `c`. -/
def earlier (s : Calling T) (i : ℕ) (c : Call T) : ℕ :=
  (s.made.take i).countP fun d =>
    d.onWire && (d.session == c.session && d.res == c.res)

/-- The session of the call `c`, number `i`, closed before its reply: as many
replies as there are earlier calls, or fewer, have come. -/
def Lost (s : Calling T) (i : ℕ) (c : Call T) : Prop :=
  c.session ∈ s.closed ∧ s.replies c.session c.res ≤ s.earlier i c

instance (s : Calling T) (i : ℕ) (c : Call T) : Decidable (s.Lost i c) :=
  inferInstanceAs (Decidable (_ ∧ _))

/-- In tracked states a call is lost if it is among those from the first one
without a reply on, and the session closed. -/
theorem Tracked.lost_iff (hT : Tracked topicClosed a reg s) {i : ℕ} {c : Call T}
    (hc : s.made[i]? = some c) (hw : c.onWire = true) :
    s.Lost i c ↔ a ∈ s.closed ∧ i ∈ (idsOf s.made c.res).drop (s.replies a c.res) := by
  have hmem := List.mem_of_getElem? hc
  have hearlier : s.earlier i c = (s.made.take i).countP fun d => d.onWire && d.res == c.res := by
    refine List.countP_congr fun d hd => ?_
    simp [hT.session d (List.mem_of_mem_take hd), hT.session c hmem]
  rw [Lost, hT.session c hmem, hearlier, mem_drop_idsOf hc hw]

/-- After the close, the error callbacks posted are those of the lost
calls. -/
theorem Over.count_failed (hT : Tracked topicClosed a reg s) (h : Over a s) {i : ℕ} {c : Call T}
    (hc : s.made[i]? = some c) :
    s.failed.count i = if c.onWire = true ∧ s.Lost i c then 1 else 0 := by
  have hfailed : i ∈ s.failed ↔ c.onWire = true ∧ s.Lost i c := by
    rw [h.failed i]
    constructor
    · rintro ⟨res, hi⟩
      obtain ⟨d, hd, hw, rfl⟩ := mem_idsOf.mp (List.mem_of_mem_drop hi)
      obtain rfl := Option.some.inj (hc.symm.trans hd)
      exact ⟨hw, (hT.lost_iff hc hw).mpr ⟨h.closed, hi⟩⟩
    · rintro ⟨hw, hlost⟩
      exact ⟨c.res, ((hT.lost_iff hc hw).mp hlost).2⟩
  rw [h.nodup.count]
  simp only [hfailed]

/-- Before the close is handled, no error callback was posted; and if no
handler is left, the session has not closed. -/
theorem Waiting.not_lost (hT : Tracked topicClosed a reg s) (h : Waiting a fl rs s)
    (hnone : s.posted = []) {i : ℕ} {c : Call T} (hc : s.made[i]? = some c) : ¬ s.Lost i c := by
  intro hlost
  have hclosed := hlost.1
  rw [hT.session c (List.mem_of_getElem? hc)] at hclosed
  have hjobs := h.jobs
  rw [hiddenJobs, hnone, if_pos hclosed] at hjobs
  simp at hjobs

end Calling

end Play
