/-
Play/SharedTopics.lean

Request topics that share a response topic.

The queues of outstanding calls are kept by request topic, and `call_pairs_`
has one request topic for a response topic: that of the last call made with
it.  A reply goes to the queue that is found there, and so to a call of the
last request topic, although the reply may be for an older call with another.

The truth is in the history.  Replies come in the order of the requests that
share the response topic, so after k of them were handled the first k calls
with the topic are answered, and the next reply is for the one behind them
(`oldest`).  The code takes that one exactly when the first unanswered call
with the request topic of the last call is the same (`Aligned`), and as long
as it does a close finds exactly the unanswered calls (`shared_topics_iff`).
-/
import Play.CallQueue
import Mathlib.Data.List.Sigma

namespace Play

namespace Calling

variable {T : Type} [LinearOrder T]

/-! ### What the history says -/

/-- The request topic of the last call made with a response topic. -/
def lastReq (made : List (Call T)) (res : T) : Option T :=
  (made.filter fun c => c.res == res).getLast?.map Call.req

/-- The call that the next reply with a response topic is for. -/
def oldest (s : Calling T) (res : T) : Option ℕ :=
  (idsOf s.made res)[(s.answeredOf res).length]?

/-- The call `n` was made with these topics and its reply was not handled. -/
def isOpen (s : Calling T) (c : Call T) (n : ℕ) : Bool :=
  decide (n ∈ (idsOf s.made c.res).drop (s.answeredOf c.res).length)

/-- The unanswered calls with a request topic, in the order in which they were
made. -/
def openWith (s : Calling T) (req : T) : List ℕ :=
  (s.made.zipIdx.filter fun p => p.1.req == req && s.isOpen p.1 p.2).map Prod.snd

/-- The call `n` has no reply yet. -/
def Unanswered (s : Calling T) (n : ℕ) : Prop :=
  ∃ c, s.made[n]? = some c ∧ s.isOpen c n = true

/-! ### What is wanted and what it takes -/

/-- A reply that is handled takes the oldest call that waits for it and
nothing else. -/
def TakesOldest (s : Calling T) (l : Move T) : Prop :=
  ∀ i pic se, l = .run i → s.posted[i]? = some (.handler (.reply pic) se) →
    ∃ n s', s.oldest pic = some n ∧ s.runAt i = some s' ∧
      s'.answered = s.answered ++ [(pic, n)] ∧
      ∀ m, m ∈ s'.waitingCbs ↔ m ∈ s.waitingCbs ∧ m ≠ n

/-- The handler of the close posts the error callbacks of the unanswered calls,
each once. -/
def ClosesRight (s : Calling T) : Prop :=
  ∀ i se, s.posted[i]? = some (.handler .closed se) → ∃ (cbs : List ℕ) (s' : Calling T),
    s.runAt i = some s' ∧
    s'.posted = s.posted.eraseIdx i ++ cbs.map .failure ∧ cbs.Nodup ∧
    ∀ n, n ∈ cbs ↔ s.Unanswered n

/-- The rules for the user of the pulse and for the other side, as in
`Disciplined`, but with topics that may be combined at will. -/
def Shares (topicClosed : T) (s : Calling T) : Move T → Prop
  | .subscribe pic _ => pic ≠ topicClosed ∧ ∀ c ∈ s.made, c.res ≠ pic
  | .withSession _ => s.made = []
  | .call _ res => res ≠ topicClosed ∧ s.userSubs res = []
  | .frame ss pic => s.callsOn ss pic ≠ 0 → s.replies ss pic < s.callsOn ss pic
  | .close _ => True
  | .run i => ∀ j ∈ s.posted[i]?, isClosed j = false

instance (topicClosed : T) (s : Calling T) :
    (l : Move T) → Decidable (Shares topicClosed s l)
  | .subscribe _ _ => inferInstanceAs (Decidable (_ ∧ _))
  | .withSession _ => inferInstanceAs (Decidable (s.made = []))
  | .call _ _ => inferInstanceAs (Decidable (_ ∧ _))
  | .frame _ _ => inferInstanceAs (Decidable (_ → _))
  | .close _ => isTrue trivial
  | .run i => inferInstanceAs (Decidable (∀ j ∈ s.posted[i]?, isClosed j = false))

/-- The topic of the reply, if the step runs the handler of one. -/
def handledReply (s : Calling T) : Move T → Option T
  | .run i =>
      match s.posted[i]? with
      | some (.handler (.reply pic) _) => some pic
      | some (.handler (.user _) _) => none
      | some (.handler .closed _) => none
      | some (.failure _) => none
      | none => none
  | .subscribe _ _ => none
  | .withSession _ => none
  | .call _ _ => none
  | .frame _ _ => none
  | .close _ => none

/-- A reply is handled when, of the calls with the request topic of the last
call, the first without a reply is the one the reply is for. -/
def Aligned (s : Calling T) (l : Move T) : Prop :=
  ∀ pic ∈ s.handledReply l, ∀ req ∈ lastReq s.made pic, (s.openWith req).head? = s.oldest pic

instance (s : Calling T) (l : Move T) : Decidable (Aligned s l) :=
  inferInstanceAs (Decidable (∀ pic ∈ s.handledReply l, ∀ req ∈ lastReq s.made pic,
    (s.openWith req).head? = s.oldest pic))

/-! ### The history grows -/

section

variable {topicClosed : T} {s s' : Calling T} {c d : Call T} {n m : ℕ} {req res pic : T}

theorem lastReq_snoc (made : List (Call T)) (c : Call T) (res : T) :
    lastReq (made ++ [c]) res = if c.res = res then some c.req else lastReq made res := by
  rw [lastReq, List.filter_append]
  by_cases hres : c.res = res
  · simp [hres]
  · simp [hres, lastReq]

theorem lastReq_eq_some {made : List (Call T)} (h : lastReq made res = some req) :
    ∃ c ∈ made, c.res = res ∧ c.req = req := by
  obtain ⟨c, hc, rfl⟩ := Option.map_eq_some_iff.mp h
  obtain ⟨hmem, hres⟩ := List.mem_filter.mp (List.mem_of_getLast? hc)
  exact ⟨c, hmem, by simpa using hres, rfl⟩

theorem isSome_lastReq_iff {made : List (Call T)} (hwire : ∀ c ∈ made, c.onWire = true) :
    (lastReq made res).isSome = true ↔ idsOf made res ≠ [] := by
  have hids : idsOf made res = [] ↔ ∀ c ∈ made, ¬ c.res = res := by
    rw [← List.length_eq_zero_iff, length_idsOf, List.countP_eq_zero]
    refine forall₂_congr fun c hc => ?_
    simp [hwire c hc]
  rw [lastReq, Option.isSome_map, List.getLast?_isSome, Ne, Ne, List.filter_eq_nil_iff, hids]
  simp

theorem mem_openWith : m ∈ s.openWith req ↔
    ∃ c, s.made[m]? = some c ∧ c.req = req ∧ s.isOpen c m = true := by
  simp only [openWith, List.mem_map, List.mem_filter, Prod.exists, List.mem_zipIdx_iff_getElem?,
    Bool.and_eq_true, beq_iff_eq]
  constructor
  · rintro ⟨c, j, ⟨hc, hreq, hopen⟩, rfl⟩
    exact ⟨c, hc, hreq, hopen⟩
  · rintro ⟨c, hc, hreq, hopen⟩
    exact ⟨c, m, ⟨hc, hreq, hopen⟩, rfl⟩

theorem nodup_openWith (s : Calling T) (req : T) : (s.openWith req).Nodup :=
  (List.nodup_zipIdx_map_snd s.made).sublist (List.filter_sublist.map _)

/-- A new call is open, and the others are as they were. -/
theorem openWith_snoc (hmade : s'.made = s.made ++ [c]) (hwire : c.onWire = true)
    (hans : s'.answered = s.answered)
    (hle : ∀ res, (s.answeredOf res).length ≤ (idsOf s.made res).length) (req : T) :
    s'.openWith req = s.openWith req ++ if c.req = req then [s.made.length] else [] := by
  have hansOf : ∀ res, s'.answeredOf res = s.answeredOf res := fun res => by
    rw [answeredOf, answeredOf, hans]
  have hold : ∀ p ∈ s.made.zipIdx, s'.isOpen p.1 p.2 = s.isOpen p.1 p.2 := by
    rintro ⟨d, m⟩ hp
    have hm : m < s.made.length :=
      (List.getElem?_eq_some_iff.mp (List.mem_zipIdx_iff_getElem?.mp hp)).1
    rw [isOpen, isOpen, hansOf, hmade, idsOf_snoc, List.drop_append_of_le_length (hle d.res)]
    refine decide_eq_decide.mpr ⟨fun hmem => ?_, List.mem_append_left _⟩
    refine (List.mem_append.mp hmem).resolve_right fun hlast => ?_
    split at hlast
    · exact hm.ne (List.mem_singleton.mp hlast)
    · cases hlast
  have hnew : s'.isOpen c s.made.length = true := by
    rw [isOpen, hansOf, hmade, idsOf_snoc, List.drop_append_of_le_length (hle c.res), hwire]
    simp
  rw [openWith, hmade, List.zipIdx_append, List.filter_append, List.map_append]
  congr 1
  · rw [openWith]
    congr 1
    exact List.filter_congr fun p hp => by rw [hold p hp]
  · by_cases hreq : c.req = req
    · simp [hreq, hnew]
    · simp [hreq]

/-- The oldest call of a topic is answered. -/
theorem openWith_answer (hmade : s'.made = s.made) (hans : s'.answered = s.answered ++ [(pic, n)])
    (hold : s.oldest pic = some n) (req : T) :
    s'.openWith req = (s.openWith req).filter (· ≠ n) := by
  have hrest : (idsOf s.made pic).drop (s.answeredOf pic).length
      = n :: (idsOf s.made pic).drop ((s.answeredOf pic).length + 1) := by
    obtain ⟨hlt, hget⟩ := List.getElem?_eq_some_iff.mp hold
    rw [List.drop_eq_getElem_cons hlt, hget]
  obtain ⟨c₀, hc₀, -, hpic⟩ := mem_idsOf.mp (List.mem_of_getElem? hold)
  have hopen : ∀ p ∈ s.made.zipIdx, s'.isOpen p.1 p.2 = (decide (p.2 ≠ n) && s.isOpen p.1 p.2) := by
    rintro ⟨d, m⟩ hp
    have hm : s.made[m]? = some d := List.mem_zipIdx_iff_getElem?.mp hp
    have hansOf : s'.answeredOf d.res = s.answeredOf d.res ++ if d.res = pic then [n] else [] := by
      rw [answeredOf, hans]
      exact answeredOf_snoc s pic d.res n
    rw [isOpen, isOpen, hansOf, hmade, ← Bool.decide_and]
    refine decide_eq_decide.mpr ?_
    by_cases hd : d.res = pic
    · rw [hd, if_pos rfl, List.length_append, List.length_singleton, hrest, List.mem_cons]
      have hnodup : n ∉ (idsOf s.made pic).drop ((s.answeredOf pic).length + 1) := by
        have := (nodup_idsOf s.made pic).sublist (List.drop_sublist (s.answeredOf pic).length _)
        rw [hrest] at this
        exact (List.nodup_cons.mp this).1
      constructor
      · intro hmem
        exact ⟨ne_of_mem_of_not_mem hmem hnodup, .inr hmem⟩
      · rintro ⟨hne, heq | hmem⟩
        · exact absurd heq hne
        · exact hmem
    · rw [if_neg hd, List.append_nil, iff_and_self]
      rintro - rfl
      exact hd (by rw [← hpic, Option.some.inj (hm.symm.trans hc₀)])
  rw [openWith, hmade, openWith, List.filter_map, List.filter_filter]
  congr 1
  refine List.filter_congr fun p hp => ?_
  rw [hopen p hp]
  simp [Bool.and_left_comm]

end

/-! ### The bookkeeping -/

/-- As long as every reply was matched with its call: the queue of a request
topic has its unanswered calls, and a response topic is paired with the request
topic of the last call. -/
structure Matching (s : Calling T) : Prop where
  wire : ∀ c ∈ s.made, c.onWire = true
  pairs : ∀ res, s.callPairs res = lastReq s.made res
  keys : ∀ req, req ∈ s.callKeys ↔ ∃ c ∈ s.made, c.req = req
  queues : ∀ req, (s.calls req).callers.map Caller.cb = s.openWith req
  matched : ∀ res, s.answeredOf res <+: idsOf s.made res

section

variable {topicClosed : T} {s s' : Calling T} {req res pic : T}

theorem Matching.length_le (h : Matching s) (res : T) :
    (s.answeredOf res).length ≤ (idsOf s.made res).length :=
  (h.matched res).length_le

/-- Without an entry nobody waits. -/
theorem Matching.openWith_of_notMem (h : Matching s) (hreq : req ∉ s.callKeys) :
    s.openWith req = [] := by
  rw [List.eq_nil_iff_forall_not_mem]
  intro m hm
  obtain ⟨c, hc, hcreq, -⟩ := mem_openWith.mp hm
  exact hreq ((h.keys req).mpr ⟨c, List.mem_of_getElem? hc, hcreq⟩)

theorem Matching.keys_insert (h : Matching s) {c : Call T} (r : T) :
    r ∈ insert c.req s.callKeys ↔ ∃ d ∈ s.made ++ [c], d.req = r := by
  rw [Finset.mem_insert, h.keys]
  constructor
  · rintro (rfl | ⟨d, hd, hreq⟩)
    · exact ⟨c, by simp, rfl⟩
    · exact ⟨d, List.mem_append_left _ hd, hreq⟩
  · rintro ⟨d, hd, hreq⟩
    rcases List.mem_append.mp hd with hd | hd
    · exact .inr ⟨d, hd, hreq⟩
    · obtain rfl := List.mem_singleton.mp hd
      exact .inl hreq.symm

/-- The new call waits behind the unanswered calls of its request topic. -/
theorem Matching.queue_addCaller (h : Matching s) (o : Pulse T (CallCb T)) (c : Call T)
    (r : T) :
    (((addCaller { s with made := s.made ++ [c], pulse := o } c.req c.res
        s.made.length).calls r).callers.map Caller.cb)
      = s.openWith r ++ if c.req = r then [s.made.length] else [] := by
  have hqueue : (if c.req ∈ s.callKeys then s.calls c.req else {}).callers.map Caller.cb
      = s.openWith c.req := by
    split
    · exact h.queues c.req
    · next hkey => exact (h.openWith_of_notMem hkey).symm
  by_cases hreq : r = c.req
  · rw [hreq, if_pos rfl, ← hqueue]
    simp [addCaller]
  · rw [if_neg (Ne.symm hreq), List.append_nil, ← h.queues r]
    simp [addCaller, Function.update_of_ne hreq]

theorem Matching.call (h : Matching s) {c : Call T} (hwire : c.onWire = true)
    (o : Pulse T (CallCb T)) :
    Matching (addCaller { s with made := s.made ++ [c], pulse := o } c.req c.res
      s.made.length) := by
  have hids : ∀ r, idsOf (s.made ++ [c]) r
      = idsOf s.made r ++ if c.res = r then [s.made.length] else [] := by
    intro r
    rw [idsOf_snoc, hwire]
    simp
  constructor
  · intro d hd
    rcases List.mem_append.mp hd with hd | hd
    · exact h.wire d hd
    · rw [List.mem_singleton.mp hd, hwire]
  · intro r
    show Function.update s.callPairs c.res (some c.req) r = lastReq (s.made ++ [c]) r
    rw [lastReq_snoc]
    by_cases hres : r = c.res
    · subst hres
      rw [Function.update_self, if_pos rfl]
    · rw [Function.update_of_ne hres, h.pairs, if_neg (Ne.symm hres)]
  · exact h.keys_insert
  · intro r
    have hopen : (addCaller { s with made := s.made ++ [c], pulse := o } c.req c.res
        s.made.length).openWith r = s.openWith r ++ if c.req = r then [s.made.length] else [] := by
      refine openWith_snoc ?_ hwire ?_ h.length_le r <;> rfl
    exact (h.queue_addCaller o c r).trans hopen.symm
  · intro r
    show s.answeredOf r <+: idsOf (s.made ++ [c]) r
    rw [hids]
    exact (h.matched r).trans (List.prefix_append _ _)

/-- The handler at position `i` has matched its reply with the call `n`, which
was in front of `cs` in the queue of `req`. -/
def taken (s : Calling T) (i : ℕ) (pic req : T) (n : ℕ) (cs : List Caller) : Calling T :=
  { s with
    posted := s.posted.eraseIdx i
    calls := Function.update s.calls req
      { s.calls req with replyIndex := (s.calls req).replyIndex + 1, callers := cs }
    answered := s.answered ++ [(pic, n)] }

/-- A topic of a call is paired with a queue. -/
theorem Matching.exists_pair (h : Matching s) (hids : idsOf s.made pic ≠ []) :
    ∃ req, lastReq s.made pic = some req ∧ s.callPairs pic = some req ∧ req ∈ s.callKeys := by
  obtain ⟨req, hlast⟩ := Option.isSome_iff_exists.mp ((isSome_lastReq_iff h.wire).mpr hids)
  obtain ⟨c, hc, -, hreq⟩ := lastReq_eq_some hlast
  exact ⟨req, hlast, (h.pairs pic).trans hlast, (h.keys req).mpr ⟨c, hc, hreq⟩⟩

/-- The handler of a reply takes the first unanswered call of the queue that
its topic is paired with, if there is one. -/
theorem Matching.runAt_reply (h : Matching s) {i : ℕ} {se : SessionKey}
    (hj : s.posted[i]? = some (.handler (.reply pic) se)) (hpair : s.callPairs pic = some req)
    (hkey : req ∈ s.callKeys) :
    (s.runAt i = none ∧ s.openWith req = []) ∨
      ∃ n cs, s.openWith req = n :: cs.map Caller.cb ∧
        s.runAt i = some (s.taken i pic req n cs) := by
  have hqueue := h.queues req
  cases hcs : (s.calls req).callers with
  | nil =>
      rw [hcs] at hqueue
      refine .inl ⟨?_, hqueue.symm⟩
      simp only [runAt, hj, runJob, callReceive, hpair, if_pos hkey, hcs]
  | cons c cs =>
      rw [hcs] at hqueue
      refine .inr ⟨c.cb, cs, hqueue.symm, ?_⟩
      simp only [runAt, hj, runJob, callReceive, hpair, if_pos hkey, hcs]
      rfl

theorem openWith_taken {n : ℕ} (i : ℕ) (req : T) (cs : List Caller) (hold : s.oldest pic = some n)
    (r : T) : (s.taken i pic req n cs).openWith r = (s.openWith r).filter (· ≠ n) := by
  refine openWith_answer ?_ ?_ hold r <;> rfl

theorem Matching.receive (h : Matching s) {i n : ℕ} {cs : List Caller}
    (hopen : s.openWith req = n :: cs.map Caller.cb) (hold : s.oldest pic = some n) :
    Matching (s.taken i pic req n cs) := by
  obtain ⟨c, hc, hreq, -⟩ := mem_openWith.mp (hopen ▸ List.mem_cons_self : n ∈ s.openWith req)
  have hnodup := nodup_openWith s req
  rw [hopen] at hnodup
  refine { h with queues := fun r => ?_, matched := fun r => ?_ }
  · have hfilter := openWith_taken i req cs hold r
    refine Eq.trans ?_ hfilter.symm
    show (Function.update s.calls req _ r).callers.map Caller.cb = _
    by_cases hr : r = req
    · subst hr
      rw [Function.update_self, hopen, List.filter_cons_of_neg (by simp)]
      refine (List.filter_eq_self.mpr fun m hm => ?_).symm
      simpa using ne_of_mem_of_not_mem hm (List.nodup_cons.mp hnodup).1
    · -- the call is in no other queue
      rw [Function.update_of_ne hr]
      refine (h.queues r).trans (List.filter_eq_self.mpr fun m hm => ?_).symm
      obtain ⟨d, hd, hdr, -⟩ := mem_openWith.mp hm
      have hne : m ≠ n := by
        rintro rfl
        rw [hc] at hd
        exact hr (hdr.symm.trans ((congrArg Call.req (Option.some.inj hd)).symm.trans hreq))
      simpa using hne
  · refine (answeredOf_snoc s pic r n).symm ▸ ?_
    by_cases hr : r = pic
    · subst hr
      rw [if_pos rfl]
      obtain ⟨later, hlater⟩ := h.matched r
      rw [oldest, ← hlater, List.getElem?_append_right le_rfl, Nat.sub_self] at hold
      cases later with
      | nil => cases hold
      | cons m later =>
          obtain rfl : m = n := by simpa using hold
          refine ⟨later, ?_⟩
          show _ = idsOf s.made r
          rw [← hlater, List.append_assoc, List.singleton_append]
    · rw [if_neg hr, List.append_nil]
      exact h.matched r

theorem Matching.mem_waitingCbs (h : Matching s) (n : ℕ) :
    n ∈ s.waitingCbs ↔ s.Unanswered n := by
  simp only [waitingCbs, List.mem_flatMap, Finset.mem_sort, h.queues, mem_openWith]
  constructor
  · rintro ⟨req, -, c, hc, -, hopen⟩
    exact ⟨c, hc, hopen⟩
  · rintro ⟨c, hc, hopen⟩
    exact ⟨c.req, (h.keys c.req).mpr ⟨c, List.mem_of_getElem? hc, rfl⟩, c, hc, rfl, hopen⟩

theorem Matching.nodup_waitingCbs (h : Matching s) : s.waitingCbs.Nodup := by
  rw [waitingCbs, List.nodup_flatMap]
  simp only [h.queues]
  refine ⟨fun req _ => nodup_openWith s req, ?_⟩
  refine (Finset.sort_nodup s.callKeys (· ≤ ·)).imp fun {r r'} hne m hm hm' => hne ?_
  obtain ⟨c, hc, rfl, -⟩ := mem_openWith.mp hm
  obtain ⟨d, hd, rfl, -⟩ := mem_openWith.mp hm'
  rw [Option.some.inj (hc.symm.trans hd)]

theorem unanswered_iff {n : ℕ} : s.Unanswered n ↔ ∃ req, n ∈ s.openWith req := by
  simp only [mem_openWith]
  constructor
  · rintro ⟨c, hc, hopen⟩
    exact ⟨c.req, c, hc, rfl, hopen⟩
  · rintro ⟨req, c, hc, -, hopen⟩
    exact ⟨c, hc, hopen⟩

/-- Answering a call takes it from those that wait. -/
theorem Matching.mem_waitingCbs_taken (h : Matching s) {i n : ℕ} {cs : List Caller}
    (h' : Matching (s.taken i pic req n cs)) (hold : s.oldest pic = some n) (m : ℕ) :
    m ∈ (s.taken i pic req n cs).waitingCbs ↔ m ∈ s.waitingCbs ∧ m ≠ n := by
  have hopen := openWith_taken i req cs hold
  rw [h'.mem_waitingCbs, h.mem_waitingCbs, unanswered_iff, unanswered_iff]
  simp only [hopen, List.mem_filter, decide_eq_true_eq, exists_and_right]

omit [LinearOrder T] in
theorem handledReply_eq_some {l : Move T} :
    s.handledReply l = some pic ↔
      ∃ i se, l = .run i ∧ s.posted[i]? = some (.handler (.reply pic) se) := by
  constructor
  · intro h
    cases l with
    | run i =>
        dsimp only [handledReply] at h
        split at h
        · next pic' se hj =>
            obtain rfl := Option.some.inj h
            exact ⟨i, se, rfl, hj⟩
        all_goals cases h
    | _ => cases h
  · rintro ⟨i, se, rfl, hj⟩
    simp only [handledReply, hj]

/-- A reply that is handled in time, when its queue agrees with it. -/
theorem Matching.aligned (h : Matching s) {i : ℕ} {se : SessionKey}
    (hj : s.posted[i]? = some (.handler (.reply pic) se))
    (hlt : (s.answeredOf pic).length < (idsOf s.made pic).length)
    (hhead : ∀ req ∈ lastReq s.made pic, (s.openWith req).head? = s.oldest pic) :
    ∃ n req cs, s.oldest pic = some n ∧ s.openWith req = n :: cs.map Caller.cb ∧
      s.runAt i = some (s.taken i pic req n cs) := by
  have hids : idsOf s.made pic ≠ [] := List.ne_nil_of_length_pos (Nat.zero_lt_of_lt hlt)
  obtain ⟨req, hlast, hpair, hkey⟩ := h.exists_pair hids
  have hold : s.oldest pic = some _ := List.getElem?_eq_getElem hlt
  have hhead := hhead req hlast
  rw [hold] at hhead
  obtain ⟨-, hopen⟩ | ⟨m, cs, hopen, hrun⟩ := h.runAt_reply hj hpair hkey
  · rw [hopen] at hhead
    cases hhead
  · rw [hopen] at hhead
    obtain rfl := Option.some.inj hhead
    exact ⟨_, req, cs, hold, hopen, hrun⟩

/-- **A reply takes the oldest call exactly if the two agree**, where there is
one that waits for it. -/
theorem Matching.takesOldest_iff (h : Matching s) (l : Move T)
    (hlt : ∀ pic ∈ s.handledReply l, (s.answeredOf pic).length < (idsOf s.made pic).length) :
    TakesOldest s l ↔ Aligned s l := by
  constructor
  · intro htakes pic hpic req hlast
    obtain ⟨i, se, rfl, hj⟩ := handledReply_eq_some.mp hpic
    obtain ⟨n, s', hold, hrun, hans, -⟩ := htakes i pic se rfl hj
    obtain ⟨c, hc, -, hreq⟩ := lastReq_eq_some hlast
    have hkey : req ∈ s.callKeys := (h.keys req).mpr ⟨c, hc, hreq⟩
    obtain ⟨hnone, -⟩ | ⟨m, cs, hopen, hsome⟩ :=
      h.runAt_reply hj ((h.pairs pic).trans hlast) hkey
    · rw [hrun] at hnone
      cases hnone
    · obtain rfl := Option.some.inj (hrun.symm.trans hsome)
      have hsame : (pic, m) = (pic, n) := by simpa [taken] using hans
      rw [hopen, hold, List.head?_cons, (Prod.mk.inj hsame).2]
  · rintro haligned i pic se rfl hj
    have hpic := handledReply_eq_some.mpr ⟨i, se, rfl, hj⟩
    obtain ⟨n, req, cs, hold, hopen, hrun⟩ := h.aligned hj (hlt pic hpic) (haligned pic hpic)
    exact ⟨n, _, hold, hrun, rfl, h.mem_waitingCbs_taken (h.receive hopen hold) hold⟩

end

/-! ### The invariant -/

/-- The bookkeeping of calls by the rules, with the hidden subscriptions and no
more replies than calls. -/
structure Sharing (topicClosed : T) (s : Calling T) : Prop extends Matching s where
  own : s.userSubs topicClosed = [] ∧ ∀ c ∈ s.made, s.userSubs c.res = []
  fresh : s.made = [] → Fresh s
  ne_zero : s.made ≠ [] → s.pulse.session ≠ 0
  session : ∀ c ∈ s.made, c.session = s.pulse.session
  topic : ∀ c ∈ s.made, c.res ≠ topicClosed
  closedSubs : s.hiddenSubs topicClosed = if s.made = [] then [] else [⟨s.pulse.session, .closed⟩]
  replySubs : ∀ res, res ≠ topicClosed → s.hiddenSubs res =
    if idsOf s.made res = [] then [] else [⟨s.pulse.session, .reply res⟩]
  tallied : Tallied s

section

variable {topicClosed : T} {s s' : Calling T} {req res pic : T}

theorem Fresh.sharing (h : Fresh s) (hcalls : ∀ req, (s.calls req).callers = [])
    (huser : s.userSubs topicClosed = []) : Sharing topicClosed s where
  own := ⟨huser, by simp [h.made]⟩
  fresh _ := h
  ne_zero hne := absurd h.made hne
  session := by simp [h.made]
  topic := by simp [h.made]
  wire := by simp [h.made]
  closedSubs := by rw [h.subs, if_pos h.made]
  replySubs res _ := by simp [h.subs, h.made, idsOf]
  pairs res := by simp [h.pairs, h.made, lastReq]
  keys req := by simp [h.keys, h.made]
  queues req := by simp [hcalls, openWith, h.made]
  matched res := by simp [answeredOf, h.answered]
  tallied := h.tallied

/-- A change of the pulse that keeps the hidden subscriptions. -/
theorem Sharing.setPulse (h : Sharing topicClosed s) {o : Pulse T (CallCb T)}
    (hhidden : ∀ pic, { s with pulse := o }.hiddenSubs pic = s.hiddenSubs pic)
    (hown : { s with pulse := o }.userSubs topicClosed = [] ∧
      ∀ c ∈ s.made, { s with pulse := o }.userSubs c.res = [])
    (hsession : s.made = [] ∨ o.session = s.pulse.session) :
    Sharing topicClosed { s with pulse := o } := by
  rcases hsession with hmade | hsession
  · refine ((h.fresh hmade).setPulse hhidden).sharing (fun req => ?_) hown.1
    have hq := h.queues req
    rw [openWith, hmade] at hq
    exact List.map_eq_nil_iff.mp hq
  · refine
      { h with
        own := hown
        fresh := fun hmade => (h.fresh hmade).setPulse hhidden
        ne_zero := fun hmade => by rw [hsession]; exact h.ne_zero hmade
        session := fun c hc => by rw [hsession]; exact h.session c hc
        closedSubs := ?_
        replySubs := ?_
        tallied := h.tallied.of_eq hsession rfl rfl rfl fun _ => le_rfl }
    · rw [hhidden, hsession]
      exact h.closedSubs
    · intro res hres
      rw [hhidden, hsession]
      exact h.replySubs res hres

theorem Sharing.subscribe (h : Sharing topicClosed s) (id : ℕ) (hpic : pic ≠ topicClosed)
    (hmade : ∀ c ∈ s.made, c.res ≠ pic) : Sharing topicClosed (s.subscribe pic (.user id)) := by
  have hother : ∀ pic', pic' ≠ pic →
      (s.subscribe pic (.user id)).userSubs pic' = s.userSubs pic' := by
    intro pic' hne
    rw [userSubs_subscribe, if_neg (by simp [hne]), List.append_nil]
  refine h.setPulse (fun pic' => ?_) ⟨?_, fun c hc => ?_⟩ (.inr rfl)
  · refine (hiddenSubs_subscribe s pic pic' (.user id)).trans ?_
    rw [if_neg (by simp [CallCb.isUser]), List.append_nil]
  · exact (hother topicClosed hpic.symm).trans h.own.1
  · exact (hother c.res (hmade c hc)).trans (h.own.2 c hc)

/-- The hidden subscriptions after a call, on topics that are not the user's. -/
theorem Sharing.hiddenSubs_call (h : Sharing topicClosed s) (hres : res ≠ topicClosed)
    (huser : s.userSubs res = []) (req : T) (c : Call T) (cb : ℕ) (pic : T) :
    (call topicClosed { s with made := s.made ++ [c] } req res cb).hiddenSubs pic =
      if pic = res then [⟨s.pulse.session, .reply res⟩]
      else if pic = topicClosed then [⟨s.pulse.session, .closed⟩] else s.hiddenSubs pic := by
  have hclosed := h.closedSubs
  have hreply := h.replySubs res hres
  refine Calling.hiddenSubs_call (s := { s with made := s.made ++ [c] }) rfl req hres cb ?_ ?_
    (fun hmem => ?_) (fun hmem => ?_) pic
  · rw [subscriptions_eq_hiddenSubs (s := s) h.own.1, hclosed]
    split <;> simp
  · rw [subscriptions_eq_hiddenSubs (s := s) huser, hreply]
    split <;> simp
  · change _ ∈ s.hiddenSubs topicClosed at hmem
    show s.hiddenSubs topicClosed = _
    rw [hclosed] at hmem ⊢
    split at hmem
    · cases hmem
    · rw [if_neg ‹_›]
  · change _ ∈ s.hiddenSubs res at hmem
    show s.hiddenSubs res = _
    rw [hreply] at hmem ⊢
    split at hmem
    · cases hmem
    · rw [if_neg ‹_›]

theorem Sharing.callNow (h : Sharing topicClosed s) (hres : res ≠ topicClosed)
    (huser : s.userSubs res = []) (hs : s.callNow topicClosed req res = some s') :
    Sharing topicClosed s' := by
  obtain ⟨hne, rfl⟩ := callNow_eq_some.mp hs
  let c : Call T := { session := s.pulse.session, req, res }
  have hsubs := h.hiddenSubs_call hres huser req c s.made.length
  have huserSubs : ∀ pic, (call topicClosed { s with made := s.made ++ [c] } req res
      s.made.length).userSubs pic = s.userSubs pic := userSubs_call _ req res s.made.length
  obtain ⟨o, ho, hsession⟩ := call_eq topicClosed { s with made := s.made ++ [c] } req res
    s.made.length
  change Sharing topicClosed (call topicClosed { s with made := s.made ++ [c] } req res _)
  rw [ho] at hsubs huserSubs ⊢
  have hsession : o.session = s.pulse.session := hsession
  have hmem : ∀ d ∈ s.made ++ [c], d ∈ s.made ∨ d = c := by simp
  have hids : ∀ r, idsOf (s.made ++ [c]) r
      = idsOf s.made r ++ if c.res = r then [s.made.length] else [] := by
    intro r
    rw [idsOf_snoc]
    simp [c]
  constructor
  · exact h.toMatching.call (c := c) rfl o
  · refine ⟨(huserSubs topicClosed).trans h.own.1, fun d hd => (huserSubs d.res).trans ?_⟩
    rcases hmem d hd with hd | rfl
    · exact h.own.2 d hd
    · exact huser
  · intro hmade
    simp [addCaller] at hmade
  · intro _
    exact hsession.symm ▸ hne
  · intro d hd
    refine Eq.trans ?_ hsession.symm
    rcases hmem d hd with hd | rfl
    · exact h.session d hd
    · rfl
  · intro d hd
    rcases hmem d hd with hd | rfl
    · exact h.topic d hd
    · exact hres
  · rw [hsubs, if_neg hres.symm, if_pos rfl, if_neg (by simp [addCaller])]
    show ([⟨s.pulse.session, .closed⟩] : List (Subscription (CallCb T))) = [⟨o.session, .closed⟩]
    rw [hsession]
  · intro r hr
    rw [hsubs, if_neg hr]
    show (_ : List (Subscription (CallCb T)))
      = if idsOf (s.made ++ [c]) r = [] then [] else [⟨o.session, .reply r⟩]
    rw [hids, hsession]
    by_cases hreq : r = res
    · subst hreq
      simp [c]
    · rw [if_neg hreq, h.replySubs r hr, if_neg (Ne.symm hreq), List.append_nil]
  · exact h.tallied.of_eq hsession rfl rfl rfl (length_idsOf_le s.made c)

/-- A dispatch that posts no replies, but perhaps the handling of a close. -/
theorem Sharing.dispatch (h : Sharing topicClosed s) {ss : SessionKey} (js : List (Job T))
    (hjobs : (s.dispatch ss pic).hiddenJobs = s.hiddenJobs ++ js)
    (hclosed : ∀ j ∈ js, j = .handler .closed s.pulse.session) (hnone : s.made = [] → js = []) :
    Sharing topicClosed (s.dispatch ss pic) := by
  refine { h with fresh := fun hmade => ?_, tallied := h.tallied.dispatch js hjobs hclosed }
  have hF := h.fresh hmade
  refine ⟨hF.made, hF.subs, ?_, hF.pairs, hF.keys, hF.answered, hF.replies, hF.failed⟩
  rw [hjobs, hnone hmade, hF.jobs]
  rfl

theorem Sharing.frame (h : Sharing topicClosed s) {ss : SessionKey} (hpic : pic ≠ topicClosed)
    (hlt : s.callsOn ss pic ≠ 0 → s.replies ss pic < s.callsOn ss pic) :
    Sharing topicClosed (s.frame ss pic) := by
  have hcalls := callsOn_eq h.session ss pic
  have hsubs := h.replySubs pic hpic
  by_cases hno : s.callsOn ss pic = 0
  · have hframe : s.frame ss pic = s.dispatch ss pic := by
      rw [Calling.frame, if_pos hno]
      rfl
    rw [hframe]
    refine h.dispatch [] ?_ (by simp) fun _ => rfl
    rw [List.append_nil]
    by_cases hids : idsOf s.made pic = []
    · rw [if_pos hids] at hsubs
      exact hiddenJobs_dispatch_none hsubs ss
    · have hne : ss ≠ s.pulse.session := by
        intro hss
        rw [hcalls, if_pos hss, List.length_eq_zero_iff] at hno
        exact hids hno
      have hmade : s.made ≠ [] := by
        intro hnil
        rw [hnil] at hids
        exact hids rfl
      rw [if_neg hids] at hsubs
      rw [hiddenJobs_dispatch_one (h.ne_zero hmade) hsubs ss, if_neg hne, List.append_nil]
  · have hlt := hlt hno
    rw [hcalls] at hno hlt
    obtain ⟨rfl, hlen⟩ : ss = s.pulse.session ∧ (idsOf s.made pic).length ≠ 0 := by simpa using hno
    rw [if_pos rfl] at hlt hcalls
    have hids : idsOf s.made pic ≠ [] := fun hnil => hlen (by rw [hnil]; rfl)
    have hmade : s.made ≠ [] := by
      intro hnil
      rw [hnil] at hids
      exact hids rfl
    rw [if_neg hids] at hsubs
    have hjobs := hiddenJobs_dispatch_one (h.ne_zero hmade) hsubs s.pulse.session
    rw [if_pos rfl] at hjobs
    exact
      { h with
        fresh := fun hnil => absurd hnil hmade
        tallied := h.tallied.frame_reply hjobs (by rw [hcalls]; exact hlen) hlt }

theorem Sharing.close (h : Sharing topicClosed s) {ss : SessionKey}
    (hs : s.close topicClosed ss = some s') : Sharing topicClosed s' := by
  have hsubs := h.closedSubs
  have hdisp : Sharing topicClosed (s.dispatch ss topicClosed) := by
    by_cases hmade : s.made = []
    · rw [if_pos hmade] at hsubs
      refine h.dispatch [] ?_ (by simp) fun _ => rfl
      rw [hiddenJobs_dispatch_none hsubs, List.append_nil]
    · rw [if_neg hmade] at hsubs
      refine h.dispatch _ (hiddenJobs_dispatch_one (h.ne_zero hmade) hsubs ss) ?_ fun hnil =>
        absurd hnil hmade
      split <;> simp
  obtain ⟨-, rfl⟩ := close_eq_some.mp hs
  exact
    { hdisp with
      fresh := fun hmade => { hdisp.fresh hmade with }
      tallied := { hdisp.tallied with } }

/-- A handler that is not hidden, or an error callback. -/
theorem Sharing.runAt_other (h : Sharing topicClosed s) {i : ℕ} {j : Job T}
    (hj : s.posted[i]? = some j) (hhid : isHidden j = false) (ran : List ℕ) :
    Sharing topicClosed { s with posted := s.posted.eraseIdx i, ran } := by
  refine { h with fresh := fun hmade => ?_, tallied := h.tallied.runAt_other hj hhid ran }
  have hF := h.fresh hmade
  have hperm := hiddenJobs_perm hj
  rw [List.filter_singleton, hhid, hF.jobs] at hperm
  exact ⟨hF.made, hF.subs, hperm.symm.eq_nil, hF.pairs, hF.keys, hF.answered, hF.replies, hF.failed⟩

/-- A posted reply is for a call. -/
theorem Sharing.lt_of_handledReply (h : Sharing topicClosed s) {l : Move T}
    (hpic : pic ∈ s.handledReply l) :
    (s.answeredOf pic).length < (idsOf s.made pic).length := by
  obtain ⟨i, se, -, hj⟩ := handledReply_eq_some.mp hpic
  exact h.tallied.lt_of_posted (List.mem_of_getElem? hj)

theorem Sharing.takesOldest_iff (h : Sharing topicClosed s) (l : Move T) :
    TakesOldest s l ↔ Aligned s l :=
  h.toMatching.takesOldest_iff l fun _ hpic => h.lt_of_handledReply hpic

theorem Sharing.receive (h : Sharing topicClosed s) {i : ℕ} {se : SessionKey}
    (hj : s.posted[i]? = some (.handler (.reply pic) se))
    (hhead : ∀ req ∈ lastReq s.made pic, (s.openWith req).head? = s.oldest pic)
    (hs : s.runAt i = some s') : Sharing topicClosed s' := by
  obtain ⟨n, req, cs, hold, hopen, hrun⟩ :=
    h.aligned hj (h.tallied.lt_of_posted (List.mem_of_getElem? hj)) hhead
  obtain rfl := Option.some.inj (hrun.symm.trans hs)
  obtain ⟨c, hc, -⟩ := mem_openWith.mp (hopen ▸ List.mem_cons_self : n ∈ s.openWith req)
  have hmade : s.made ≠ [] := List.ne_nil_of_mem (List.mem_of_getElem? hc)
  exact
    { h with
      toMatching := h.toMatching.receive hopen hold
      fresh := fun hnil => absurd hnil hmade
      tallied := h.tallied.receive hj _ n }

theorem Sharing.closesRight (h : Sharing topicClosed s) : ClosesRight s := by
  intro i se hj
  obtain rfl := h.tallied.jobs _ _ (mem_hiddenJobs (List.mem_of_getElem? hj) rfl)
  refine ⟨s.waitingCbs, callClosed { s with posted := s.posted.eraseIdx i } s.pulse.session, ?_, ?_,
    h.nodup_waitingCbs, h.mem_waitingCbs⟩
  · rw [runAt, hj]
    rfl
  · rw [callClosed, if_neg (not_not.mpr rfl)]
    rfl

theorem Sharing.move (h : Sharing topicClosed s) {l : Move T} (hl : Shares topicClosed s l)
    (haligned : Aligned s l) (hs : move topicClosed s l = some s') : Sharing topicClosed s' := by
  cases l with
  | subscribe pic id =>
      obtain rfl := Option.some.inj hs
      exact h.subscribe id hl.1 hl.2
  | withSession ss =>
      obtain rfl := Option.some.inj hs
      exact h.setPulse (fun _ => rfl) h.own (.inl hl)
  | call req res => exact h.callNow hl.1 hl.2 hs
  | frame ss pic =>
      obtain ⟨hpic, rfl⟩ := move_frame_eq_some.mp hs
      exact h.frame hpic hl
  | close ss => exact h.close hs
  | run i =>
      obtain ⟨j, hj, hrun⟩ := runAt_eq_some.mp hs
      rcases j with ⟨cb, se⟩ | cb
      · cases cb with
        | user id =>
            obtain rfl := Option.some.inj hrun
            exact h.runAt_other hj rfl s.ran
        | reply pic =>
            exact h.receive hj (haligned pic (handledReply_eq_some.mpr ⟨i, se, rfl, hj⟩)) hs
        | closed => cases hl _ hj
      · obtain rfl := Option.some.inj hrun
        exact h.runAt_other hj rfl (s.ran ++ [cb])

theorem sharing_new : Sharing topicClosed ({} : Calling T) :=
  Fresh.sharing ⟨rfl, fun _ => rfl, rfl, fun _ => rfl, rfl, rfl, fun _ _ => rfl, rfl⟩
    (fun _ => rfl) rfl

/-- **Shared response topics**: along every run by the rules, every reply that
is handled takes the oldest call waiting for its topic, and in every state
passed through a close posts exactly the callbacks of the unanswered calls, if
and only if every reply is handled when the first unanswered call with the
request topic of the last call is the oldest call of the response topic. -/
theorem shared_topics_iff (topicClosed : T) (ls : List (Move T))
    (h : Along (move topicClosed) (Shares topicClosed) {} ls) :
    Along (move topicClosed) TakesOldest {} ls ∧ Always (move topicClosed) ClosesRight {} ls ↔
      Along (move topicClosed) Aligned {} ls := by
  constructor
  · rintro ⟨htakes, -⟩
    refine (along_and.mpr ⟨h, htakes⟩).imp (I := Sharing topicClosed) ?_ ?_ sharing_new
    · intro s l s' hI hl hs
      exact hI.move hl.1 ((hI.takesOldest_iff l).mp hl.2) hs
    · intro s l hI hl
      exact (hI.takesOldest_iff l).mp hl.2
  · intro haligned
    have hboth := along_and.mpr ⟨h, haligned⟩
    have hstep : ∀ {s : Calling T} {l s'}, Sharing topicClosed s →
        Shares topicClosed s l ∧ Aligned s l → Calling.move topicClosed s l = some s' →
        Sharing topicClosed s' := fun hI hl hs => hI.move hl.1 hl.2 hs
    refine ⟨hboth.imp hstep (fun hI hl => (hI.takesOldest_iff _).mpr hl.2) sharing_new, ?_⟩
    intro pre t hpre hrun
    exact ((hboth.of_prefix hpre).invariant hstep sharing_new hrun).closesRight

end

/-- Two request topics with one response topic, one call after the reply to the
other, and the close of the session. -/
def inTurn : List (Move ℕ) :=
  [.withSession 7, .call 21 22, .frame 7 22, .run 0, .call 31 22, .frame 7 22, .run 0,
    .call 21 22, .close 7]

theorem shared_topics_inTurn :
    Along (move 2) (Shares 2) ({} : Calling ℕ) inTurn ∧
      Along (move 2) TakesOldest ({} : Calling ℕ) inTurn ∧
      Always (move 2) ClosesRight ({} : Calling ℕ) inTurn := by
  have hrules : Along (move 2) (Shares 2) ({} : Calling ℕ) inTurn := by decide +kernel
  exact ⟨hrules, (shared_topics_iff 2 inTurn hrules).mpr (by decide +kernel)⟩

/-- Two request topics with one response topic, and the reply to the first call
after the second. -/
def outOfTurn : List (Move ℕ) :=
  [.withSession 7, .call 21 22, .call 31 22, .frame 7 22, .run 0]

/-- **The wrong call is answered**: the reply for the first call takes the
second, which is of the request topic that was paired last. -/
theorem outOfTurn_takes_second :
    Along (move 2) (Shares 2) ({} : Calling ℕ) outOfTurn ∧
      ¬ (Along (move 2) TakesOldest ({} : Calling ℕ) outOfTurn ∧
        Always (move 2) ClosesRight ({} : Calling ℕ) outOfTurn) := by
  refine ⟨by decide +kernel, ?_⟩
  rintro ⟨htakes, -⟩
  -- the part of the condition that can be computed
  have hanswered : Along (move 2) (fun s l => ∀ pic ∈ s.handledReply l,
      (move 2 s l).map Calling.answered = (s.oldest pic).map fun n => s.answered ++ [(pic, n)])
      ({} : Calling ℕ) outOfTurn := by
    refine htakes.imp (I := fun _ => True) (fun _ _ _ => trivial) (fun _ hl pic hpic => ?_) trivial
    obtain ⟨i, se, rfl, hj⟩ := handledReply_eq_some.mp hpic
    obtain ⟨n, s', hold, hrun, hans, -⟩ := hl i pic se rfl hj
    rw [hold, move, hrun, Option.map_some, Option.map_some, hans]
  exact absurd hanswered (by decide +kernel)

end Calling

end Play
