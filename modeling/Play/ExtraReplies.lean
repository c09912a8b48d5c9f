/-
Play/ExtraReplies.lean

Replies that are one too many.

A frame with the response topic of a call is a reply if it comes, on the session
of the calls, while one of the calls with this topic has had none.  If all have
had theirs it is surplus, as when the other side sends its answers to everybody.
A pulse does not tell the two apart.  Whoever made the call, the handler of
either takes the front of a queue: that of a surplus frame asks for the front of
an empty one, or takes a call that was made since and whose reply is still to
come.

`Replying` marks the posted handlers of the frames that are replies.  A handler
is safe if the two checks hold, and a reply takes the oldest call that waits for
it and nothing else, and a surplus frame changes nothing.  `replies_safe_iff`
says when all are: no handler of a surplus frame is run, and every reply finds
its call in front, as in `SharedTopics`.
-/
import Play.SharedTopics

namespace Play

namespace Calling

variable {T : Type} [LinearOrder T]

/-! ### Which frames are replies -/

/-- A pulse with its calls.  `marked` has the posted handlers, each with whether
it is for a frame that was a reply, and `heard` counts these replies by
topic. -/
structure Replying (T : Type) where
  calling : Calling T := {}
  marked : List (Job T × Bool) := []
  heard : T → ℕ := fun _ => 0

namespace Replying

/-- The topic of the reply, if the step is a frame that comes to a call without
one. -/
def reply (s : Replying T) : Move T → Option T
  | .frame ss pic => if s.heard pic < s.calling.callsOn ss pic then some pic else none
  | .subscribe _ _ => none
  | .withSession _ => none
  | .call _ _ => none
  | .close _ => none
  | .run _ => none

/-- The handlers that stay posted. -/
def kept (s : Replying T) : Move T → List (Job T × Bool)
  | .run i => s.marked.eraseIdx i
  | .subscribe _ _ => s.marked
  | .withSession _ => s.marked
  | .call _ _ => s.marked
  | .frame _ _ => s.marked
  | .close _ => s.marked

/-- The step function. -/
def step (topicClosed : T) (s : Replying T) (l : Move T) : Option (Replying T) :=
  (move topicClosed s.calling l).map fun c =>
    { calling := c
      marked := s.kept l ++ (c.posted.drop (s.kept l).length).map fun j => (j, (s.reply l).isSome)
      heard := fun pic => s.heard pic + if s.reply l = some pic then 1 else 0 }

/-- The step runs the handler of a frame that was a reply. -/
def runsReply (s : Replying T) : Move T → Bool
  | .run i => (s.marked[i]?).elim false Prod.snd
  | .subscribe _ _ => false
  | .withSession _ => false
  | .call _ _ => false
  | .frame _ _ => false
  | .close _ => false

/-- What is wanted when `call_receive` is run: if it gets as far as the front of
a queue, there is one and it has the number that the two checks want; a reply
takes the oldest call that waits for it and nothing else; and a surplus frame
changes nothing. -/
structure HandlesSafely (s : Replying T) (l : Move T) : Prop where
  checks : ∀ pic ∈ s.calling.handledReply l, ∀ req ∈ s.calling.callPairs pic,
    req ∈ s.calling.callKeys → (s.calling.calls req).callers.head?.map Caller.callId =
      some ((s.calling.calls req).replyIndex + 1)
  matched : s.runsReply l = true → TakesOldest s.calling l
  surplus : s.runsReply l = false → ∀ pic ∈ s.calling.handledReply l,
    s.calling.callReceive pic = some s.calling

/-- The handler of a response topic is run for a reply, and of the calls with the
request topic of the last call the first without a reply is the one the reply
is for. -/
def InTime (s : Replying T) (l : Move T) : Prop :=
  (∀ pic ∈ s.calling.handledReply l, s.runsReply l = true) ∧ Aligned s.calling l

instance (s : Replying T) (l : Move T) : Decidable (InTime s l) :=
  inferInstanceAs (Decidable ((∀ pic ∈ s.calling.handledReply l, s.runsReply l = true) ∧
    Aligned s.calling l))

/-- The pulse has its session before the first call, and the run ends before the
handler of the close. -/
def OnSession (s : Replying T) : Move T → Prop
  | .withSession _ => s.calling.made = []
  | .run i => ∀ j ∈ s.calling.posted[i]?, isClosed j = false
  | .subscribe _ _ => True
  | .call _ _ => True
  | .frame _ _ => True
  | .close _ => True

instance (s : Replying T) : (l : Move T) → Decidable (OnSession s l)
  | .withSession _ => inferInstanceAs (Decidable (s.calling.made = []))
  | .run i => inferInstanceAs (Decidable (∀ j ∈ s.calling.posted[i]?, isClosed j = false))
  | .subscribe _ _ | .call _ _ | .frame _ _ | .close _ => isTrue trivial

end Replying

/-! ### The hidden subscriptions -/

/-- A topic has at most one hidden subscription, for the session of the pulse,
and one for replies only if it is the response topic of a call. -/
def OneHidden (s : Calling T) (pic : T) : Prop :=
  s.hiddenSubs pic = [] ∨ ∃ cb, s.hiddenSubs pic = [⟨s.pulse.session, cb⟩] ∧ s.made ≠ [] ∧
    ∀ r, cb = .reply r → r = pic ∧ idsOf s.made pic ≠ []

variable {topicClosed : T} {s s' : Calling T} {pic req res : T}

theorem oneHidden_subscribe {cb : CallCb T} (h : ∀ pic', s.OneHidden pic')
    (hno : s.hasSubscription pic = false) (hmade : s.made ≠ [])
    (hcb : ∀ r, cb = .reply r → r = pic ∧ idsOf s.made pic ≠ []) (pic' : T) :
    (s.subscribe pic cb).OneHidden pic' := by
  have hsubs := hiddenSubs_subscribe s pic pic' cb
  by_cases hpic : pic' = pic ∧ cb.isUser = false
  · rw [if_pos hpic] at hsubs
    obtain ⟨rfl, -⟩ := hpic
    have hnone : s.pulse.subscriptions pic' = [] := by simpa [hasSubscription] using hno
    have hold : s.hiddenSubs pic' = [] := by rw [hiddenSubs, hnone, List.filter_nil]
    rw [hold] at hsubs
    exact .inr ⟨cb, hsubs, hmade, hcb⟩
  · rw [if_neg hpic, List.append_nil] at hsubs
    rcases h pic' with hold | ⟨cb', hold, hcb'⟩
    · exact .inl (hsubs.trans hold)
    · exact .inr ⟨cb', hsubs.trans hold, hcb'⟩

/-- `call` adds a hidden subscription where there is none. -/
theorem oneHidden_call (h : ∀ pic, s.OneHidden pic) (hids : idsOf s.made res ≠ []) (cb : ℕ)
    (pic : T) : (s.call topicClosed req res cb).OneHidden pic := by
  have hmade : s.made ≠ [] := by
    intro hnil
    rw [hnil] at hids
    exact hids rfl
  have hclosed : (∀ pic, (s.callSubscribeClosed topicClosed).OneHidden pic) ∧
      (s.callSubscribeClosed topicClosed).made = s.made := by
    unfold callSubscribeClosed
    split
    · next hno =>
        refine ⟨oneHidden_subscribe h (by simpa using hno) hmade fun r hr => ?_, rfl⟩
        cases hr
    · exact ⟨h, rfl⟩
  show OneHidden (((s.callSubscribeClosed topicClosed).callSubscribeReply res).addCaller _ _ _) pic
  generalize s.callSubscribeClosed topicClosed = t at hclosed
  obtain ⟨ht, htmade⟩ := hclosed
  rw [← htmade] at hids hmade
  have hreply : ∀ pic, (t.callSubscribeReply res).OneHidden pic := by
    unfold callSubscribeReply
    split
    · next hno =>
        refine oneHidden_subscribe ht (by simpa using hno) hmade fun r hr => ?_
        obtain rfl := CallCb.reply.inj hr
        exact ⟨rfl, hids⟩
    · exact ht
  exact hreply pic

/-- What is posted for a frame: of the hidden callbacks, at most one. -/
theorem OneHidden.dispatch (h : s.OneHidden pic) (hne : s.made ≠ [] → s.pulse.session ≠ 0)
    (ss : SessionKey) :
    ∃ js, (s.dispatch ss pic).posted = s.posted ++ js ∧ (js.filter isHidden = [] ∨
      ∃ cb, js.filter isHidden = [.handler cb s.pulse.session] ∧
        ∀ r, cb = .reply r → r = pic ∧ idsOf s.made pic ≠ []) := by
  refine ⟨_, rfl, ?_⟩
  have hsplit : (s.dispatch ss pic).hiddenJobs = s.hiddenJobs ++ _ := List.filter_append ..
  rcases h with hnone | ⟨cb, hone, hmade, hcb⟩
  · left
    rw [hiddenJobs_dispatch_none hnone] at hsplit
    exact (List.self_eq_append_right.mp hsplit)
  · rw [hiddenJobs_dispatch_one (hne hmade) hone] at hsplit
    have hjs := List.append_cancel_left hsplit
    split at hjs
    · exact .inr ⟨cb, hjs.symm, hcb⟩
    · exact .inl hjs.symm

/-! ### The calls of a pulse -/

/-- The calls are on one session, and the bookkeeping is right. -/
structure Books (s : Calling T) : Prop extends Matching s where
  numbered : Contiguous s
  session : ∀ c ∈ s.made, c.session = s.pulse.session
  ne_zero : s.made ≠ [] → s.pulse.session ≠ 0
  hidden : ∀ pic, s.OneHidden pic

theorem books_new : Books ({} : Calling T) where
  wire := by simp
  pairs _ := rfl
  keys := by simp
  queues _ := rfl
  matched _ := List.nil_prefix
  numbered := contiguous_new
  session := by simp
  ne_zero h := absurd rfl h
  hidden _ := .inl rfl

theorem Books.subscribe (h : Books s) (pic : T) (id : ℕ) : Books (s.subscribe pic (.user id)) := by
  refine { h with numbered := h.numbered, hidden := fun pic' => ?_ }
  have hsubs := hiddenSubs_subscribe s pic pic' (.user id)
  rw [if_neg (by simp [CallCb.isUser]), List.append_nil] at hsubs
  rcases h.hidden pic' with hold | ⟨cb, hold, hcb⟩
  · exact .inl (hsubs.trans hold)
  · exact .inr ⟨cb, hsubs.trans hold, hcb⟩

theorem Books.withSession (h : Books s) (hmade : s.made = []) (ss : SessionKey) :
    Books (s.withSession ss) := by
  refine
    { h with
      numbered := h.numbered
      session := fun c hc => ?_
      ne_zero := fun hne => absurd hmade hne
      hidden := fun pic => ?_ }
  · change c ∈ s.made at hc
    rw [hmade] at hc
    cases hc
  · rcases h.hidden pic with hold | ⟨cb, -, hne, -⟩
    · exact .inl hold
    · exact absurd hmade hne

theorem Books.callNow (h : Books s) (hs : s.callNow topicClosed req res = some s') :
    Books s' := by
  obtain ⟨hne, rfl⟩ := callNow_eq_some.mp hs
  let c : Call T := { session := s.pulse.session, req, res }
  have hids : ∀ r, idsOf (s.made ++ [c]) r
      = idsOf s.made r ++ if c.res = r then [s.made.length] else [] := by
    intro r
    rw [idsOf_snoc]
    simp [c]
  have hold : ∀ pic, OneHidden { s with made := s.made ++ [c] } pic := by
    intro pic
    rcases h.hidden pic with hnone | ⟨cb, hone, -, hcb⟩
    · exact .inl hnone
    · refine .inr ⟨cb, hone, by simp, fun r hr => ⟨(hcb r hr).1, fun hnil => (hcb r hr).2 ?_⟩⟩
      rw [hids] at hnil
      exact (List.append_eq_nil_iff.mp hnil).1
  have hnew : idsOf (s.made ++ [c]) res ≠ [] := by
    rw [hids, if_pos rfl]
    simp
  have hhidden := @oneHidden_call T _ topicClosed _ req res hold hnew s.made.length
  have hnumbered := @Contiguous.call T _ topicClosed { s with made := s.made ++ [c] }
    h.numbered req res s.made.length
  obtain ⟨o, ho, hsession⟩ := call_eq topicClosed { s with made := s.made ++ [c] } req res
    s.made.length
  change Books (call topicClosed { s with made := s.made ++ [c] } req res _)
  rw [ho] at hhidden hnumbered ⊢
  have hsession : o.session = s.pulse.session := hsession
  refine
    { h.toMatching.call (c := c) rfl o with
      numbered := hnumbered
      session := fun d hd => Eq.trans ?_ hsession.symm
      ne_zero := fun _ => hsession.symm ▸ hne
      hidden := hhidden }
  rcases List.mem_append.mp hd with hd | hd
  · exact h.session d hd
  · rw [List.mem_singleton.mp hd]

/-- What is posted, and what else is kept of it, is no matter of the calls. -/
theorem Books.of_posted (h : Books s) (posted : List (Job T)) (replies : SessionKey → T → ℕ)
    (closed : List SessionKey) (ran : List ℕ) :
    Books { s with posted, replies, closed, ran } :=
  { h with numbered := h.numbered, hidden := h.hidden }

theorem Books.receive (h : Books s) {i n : ℕ} {cs : List Caller} (hold : s.oldest pic = some n)
    (hopen : s.openWith req = n :: cs.map Caller.cb)
    (hrun : s.runAt i = some (s.taken i pic req n cs)) : Books (s.taken i pic req n cs) := by
  have hnumbered : Contiguous (s.taken i pic req n cs) :=
    h.numbered.move (show move pic s (.run i) = _ from hrun)
  exact
    { h with
      toMatching := h.toMatching.receive hopen hold
      numbered := hnumbered
      hidden := h.hidden }

/-- A reply is never ignored: the table has an entry for every call. -/
theorem Books.callReceive_ne (h : Books s) (hids : idsOf s.made pic ≠ []) :
    s.callReceive pic ≠ some s := by
  obtain ⟨req, -, hpair, hkey⟩ := h.exists_pair hids
  intro hsame
  rcases callReceive_eq_some hsame with ⟨-, hno⟩ | ⟨req', c, cs, -, -, -, hs⟩
  · exact hno req hpair hkey
  · have := congrArg (fun t : Calling T => (t.calls req').replyIndex) hs
    simp at this

/-! ### The replies that are posted -/

namespace Replying

/-- The handler of a reply with this topic. -/
def isReplyOf (pic : T) : Job T × Bool → Bool
  | (.handler (.reply r) _, b) => b && r == pic
  | (.handler (.user _) _, _) => false
  | (.handler .closed _, _) => false
  | (.failure _, _) => false

/-- What was heard: every posted handler of a response topic is marked, there
was a call with the topic, and each reply was heard once, with no more of them
than calls. -/
structure Hearing (c : Calling T) (marked : List (Job T × Bool)) (heard : T → ℕ) : Prop where
  same : marked.map Prod.fst = c.posted
  posted : ∀ pic se, .handler (.reply pic) se ∈ c.posted → idsOf c.made pic ≠ []
  count : ∀ pic, (c.answeredOf pic).length + marked.countP (isReplyOf pic) ≤ heard pic
  bound : ∀ pic, heard pic ≤ (idsOf c.made pic).length

variable {c c' : Calling T} {marked : List (Job T × Bool)} {heard : T → ℕ}

theorem hearing_new : Hearing ({} : Calling T) [] fun _ => 0 where
  same := rfl
  posted := by simp
  count _ := le_rfl
  bound _ := le_rfl

/-- A step that posts nothing and handles nothing. -/
theorem Hearing.of_eq (h : Hearing c marked heard) (hposted : c'.posted = c.posted)
    (hanswered : c'.answered = c.answered) (hmade : c.made <+: c'.made) :
    Hearing c' marked heard := by
  have hids : ∀ pic, (idsOf c.made pic).length ≤ (idsOf c'.made pic).length := by
    intro pic
    rw [length_idsOf, length_idsOf]
    exact hmade.sublist.countP_le
  refine ⟨h.same.trans hposted.symm, fun pic se hj => ?_, fun pic => ?_, fun pic => ?_⟩
  · rw [hposted] at hj
    have hpos := List.length_pos_iff.mpr (h.posted pic se hj)
    exact List.length_pos_iff.mp (hpos.trans_le (hids pic))
  · rw [answeredOf, hanswered]
    exact h.count pic
  · exact (h.bound pic).trans (hids pic)

/-- Of what is posted for a frame, at most one handler is of a reply. -/
theorem countP_isReplyOf_le {js : List (Job T)} {r : Option T} (pic : T)
    (hjs : js.filter isHidden = [] ∨ ∃ cb se, js.filter isHidden = [.handler cb se] ∧
      ∀ p, cb = .reply p → ∀ q ∈ r, q = p) :
    (js.map fun j => (j, r.isSome)).countP (isReplyOf pic) ≤ if r = some pic then 1 else 0 := by
  have hhidden : (js.map fun j => (j, r.isSome)).countP (isReplyOf pic)
      = (js.filter isHidden).countP fun j => isReplyOf pic (j, r.isSome) := by
    rw [List.countP_map, List.countP_filter]
    refine List.countP_congr fun j _ => ?_
    rcases j with ⟨cb | cb | -, se⟩ | cb <;> simp [isReplyOf, isHidden, CallCb.isUser]
  rw [hhidden]
  rcases hjs with hnil | ⟨cb, se, hone, hcb⟩
  · rw [hnil]
    exact Nat.zero_le _
  · rw [hone, List.countP_singleton]
    split
    · next hreply =>
        cases cb with
        | reply p =>
            simp only [isReplyOf, Bool.and_eq_true, Option.isSome_iff_exists, beq_iff_eq] at hreply
            obtain ⟨⟨q, rfl⟩, rfl⟩ := hreply
            rw [hcb p rfl q rfl, if_pos rfl]
        | user id => cases hreply
        | closed => cases hreply
    · exact Nat.zero_le _

/-- A frame is posted. -/
theorem Hearing.dispatch (h : Hearing c marked heard) {js : List (Job T)} {r : Option T}
    (hposted : c'.posted = c.posted ++ js) (hanswered : c'.answered = c.answered)
    (hmade : c'.made = c.made) {pic : T}
    (hjs : js.filter isHidden = [] ∨ ∃ cb se, js.filter isHidden = [.handler cb se] ∧
      ∀ p, cb = .reply p → p = pic ∧ idsOf c.made pic ≠ [])
    (hr : ∀ q ∈ r, q = pic ∧ heard pic < (idsOf c.made pic).length) :
    Hearing c' (marked ++ js.map fun j => (j, r.isSome))
      (fun p => heard p + if r = some p then 1 else 0) := by
  refine ⟨?_, fun p se hj => ?_, fun p => ?_, fun p => ?_⟩
  · rw [List.map_append, h.same, hposted, List.map_map]
    simp [Function.comp_def]
  · rw [hmade]
    rw [hposted, List.mem_append] at hj
    rcases hj with hj | hj
    · exact h.posted p se hj
    · have hmem : .handler (.reply p) se ∈ js.filter isHidden := List.mem_filter.mpr ⟨hj, rfl⟩
      rcases hjs with hnil | ⟨cb, se', hone, hcb⟩
      · rw [hnil] at hmem
        cases hmem
      · rw [hone, List.mem_singleton] at hmem
        obtain ⟨rfl, -⟩ := Job.handler.inj hmem
        obtain ⟨rfl, hids⟩ := hcb p rfl
        exact hids
  · have hle : (js.map fun j => (j, r.isSome)).countP (isReplyOf p) ≤
        if r = some p then 1 else 0 := by
      refine countP_isReplyOf_le p (hjs.imp_right ?_)
      rintro ⟨cb, se, hone, hcb⟩
      exact ⟨cb, se, hone, fun p hp q hq => (hr q hq).1.trans (hcb p hp).1.symm⟩
    have hold := h.count p
    rw [answeredOf, hanswered, ← answeredOf, List.countP_append]
    omega
  · rw [hmade]
    split
    · next hp =>
        obtain ⟨rfl, hlt⟩ := hr p hp
        exact hlt
    · exact h.bound p

/-- The handler at a position is run; one of a response topic was marked, and
answers at most one call with the topic. -/
theorem Hearing.run (h : Hearing c marked heard) {i : ℕ} {j : Job T} {b : Bool}
    (hj : marked[i]? = some (j, b)) (hposted : c'.posted = c.posted.eraseIdx i)
    (hmade : c'.made = c.made) (hanswered : ∀ pic, (c'.answeredOf pic).length ≤
      (c.answeredOf pic).length + if isReplyOf pic (j, b) then 1 else 0) :
    Hearing c' (marked.eraseIdx i) heard := by
  obtain ⟨hi, hget⟩ := List.getElem?_eq_some_iff.mp hj
  have hperm := List.getElem_cons_eraseIdx_perm hi
  rw [hget] at hperm
  refine ⟨?_, fun p se hmem => ?_, fun p => ?_, fun p => ?_⟩
  · rw [← List.eraseIdx_map, h.same, hposted]
  · rw [hposted] at hmem
    rw [hmade]
    exact h.posted p se (List.mem_of_mem_eraseIdx hmem)
  · have hold := h.count p
    have hans := hanswered p
    rw [← hperm.countP_eq, List.countP_cons] at hold
    omega
  · rw [hmade]
    exact h.bound p

/-- A reply that is posted is for a call that has none. -/
theorem Hearing.lt_of_marked (h : Hearing c marked heard) {pic : T} {se : SessionKey}
    (hmem : (.handler (.reply pic) se, true) ∈ marked) :
    (c.answeredOf pic).length < (idsOf c.made pic).length := by
  have hpos : 0 < marked.countP (isReplyOf pic) :=
    List.countP_pos_iff.mpr ⟨_, hmem, by simp [isReplyOf]⟩
  have hcount := h.count pic
  have hbound := h.bound pic
  omega

/-! ### One step -/

/-- What holds as long as every reply was handled in time. -/
structure Inv (s : Replying T) : Prop where
  books : Books s.calling
  hearing : Hearing s.calling s.marked s.heard

theorem inv_new : Inv ({} : Replying T) := ⟨books_new, hearing_new⟩

variable {s s' : Replying T} {l : Move T}

theorem step_eq_some : step topicClosed s l = some s' ↔
    ∃ c, move topicClosed s.calling l = some c ∧
      { calling := c
        marked := s.kept l ++ (c.posted.drop (s.kept l).length).map fun j => (j, (s.reply l).isSome)
        heard := fun pic => s.heard pic + if s.reply l = some pic then 1 else 0 } = s' :=
  Option.map_eq_some_iff

omit [LinearOrder T] in
/-- What a step posts is behind what stays. -/
theorem drop_posted {ms : List (Job T × Bool)} {ps js : List (Job T)}
    (h : ms.map Prod.fst = ps) : (ps ++ js).drop ms.length = js := by
  have hlen : ms.length = ps.length := by rw [← h, List.length_map]
  rw [hlen, List.drop_left]

/-- A step that posts nothing. -/
theorem Inv.of_hearing (hbooks : Books c) (hhearing : Hearing c (s.kept l) s.heard)
    (hreply : s.reply l = none) :
    Inv { calling := c
          marked := s.kept l ++ (c.posted.drop (s.kept l).length).map fun j =>
            (j, (s.reply l).isSome)
          heard := fun pic => s.heard pic + if s.reply l = some pic then 1 else 0 } := by
  have hdrop : c.posted.drop (s.kept l).length = [] := by
    have : (c.posted ++ []).drop (s.kept l).length = [] := drop_posted hhearing.same
    rwa [List.append_nil] at this
  refine ⟨hbooks, ?_⟩
  rw [hdrop, hreply]
  simpa using hhearing

/-- A step that posts the handlers for a frame. -/
theorem Inv.of_dispatch (h : Inv s) (hbooks : Books c) {ss : SessionKey} {pic : T}
    (hposted : c.posted = (s.calling.dispatch ss pic).posted)
    (hanswered : c.answered = s.calling.answered) (hmade : c.made = s.calling.made)
    (hkept : s.kept l = s.marked)
    (hr : ∀ q ∈ s.reply l, q = pic ∧ s.heard pic < (idsOf s.calling.made pic).length) :
    Inv { calling := c
          marked := s.kept l ++ (c.posted.drop (s.kept l).length).map fun j =>
            (j, (s.reply l).isSome)
          heard := fun pic => s.heard pic + if s.reply l = some pic then 1 else 0 } := by
  obtain ⟨js, hjs, hhidden⟩ := (h.books.hidden pic).dispatch h.books.ne_zero ss
  rw [hjs] at hposted
  refine ⟨hbooks, ?_⟩
  rw [hkept, hposted, drop_posted h.hearing.same]
  refine h.hearing.dispatch hposted hanswered hmade (hhidden.imp_right ?_) hr
  rintro ⟨cb, hone, hcb⟩
  exact ⟨cb, _, hone, hcb⟩

/-- The mark of a posted handler. -/
theorem Inv.exists_mark (h : Inv s) {i : ℕ} {j : Job T} (hj : s.calling.posted[i]? = some j) :
    ∃ b, s.marked[i]? = some (j, b) := by
  rw [← h.hearing.same, List.getElem?_map, Option.map_eq_some_iff] at hj
  obtain ⟨⟨j', b⟩, hm, rfl⟩ := hj
  exact ⟨b, hm⟩

/-- A reply that is run is for a call that has none. -/
theorem Inv.lt_of_runsReply (h : Inv s) (hruns : s.runsReply l = true) {pic : T}
    (hpic : pic ∈ s.calling.handledReply l) :
    (s.calling.answeredOf pic).length < (idsOf s.calling.made pic).length := by
  obtain ⟨i, se, rfl, hj⟩ := handledReply_eq_some.mp hpic
  obtain ⟨b, hm⟩ := h.exists_mark hj
  obtain rfl : b = true := by simpa [runsReply, hm] using hruns
  exact h.hearing.lt_of_marked (List.mem_of_getElem? hm)

/-- The handler of a reply is run in time. -/
theorem Inv.receive (h : Inv s) {i : ℕ} {pic : T} {se : SessionKey}
    (hj : s.calling.posted[i]? = some (.handler (.reply pic) se)) (htime : InTime s (.run i))
    (hs : s.calling.runAt i = some c) : Books c ∧ Hearing c (s.marked.eraseIdx i) s.heard := by
  have hpic := handledReply_eq_some.mpr ⟨i, se, rfl, hj⟩
  have hruns := htime.1 pic hpic
  obtain ⟨b, hm⟩ := h.exists_mark hj
  obtain rfl : b = true := by simpa [runsReply, hm] using hruns
  obtain ⟨n, req, cs, hold, hopen, hrun⟩ :=
    h.books.aligned hj (h.lt_of_runsReply hruns hpic) (htime.2 pic hpic)
  obtain rfl := Option.some.inj (hrun.symm.trans hs)
  refine ⟨h.books.receive hold hopen hrun, h.hearing.run hm rfl rfl fun r => ?_⟩
  have hsnoc := congrArg List.length (answeredOf_snoc s.calling pic r n)
  refine hsnoc.le.trans ?_
  rw [List.length_append]
  by_cases hr : r = pic
  · subst hr
    simp [isReplyOf]
  · simp [hr]

theorem Inv.move (h : Inv s) (hl : OnSession s l) (htime : InTime s l)
    (hs : step topicClosed s l = some s') : Inv s' := by
  obtain ⟨c, hc, rfl⟩ := step_eq_some.mp hs
  cases l with
  | subscribe pic id =>
      obtain rfl := Option.some.inj hc
      exact .of_hearing (h.books.subscribe pic id)
        (h.hearing.of_eq rfl rfl (List.prefix_refl _)) rfl
  | withSession ss =>
      obtain rfl := Option.some.inj hc
      exact .of_hearing (h.books.withSession hl ss)
        (h.hearing.of_eq rfl rfl (List.prefix_refl _)) rfl
  | call req res =>
      refine .of_hearing (h.books.callNow hc) ?_ rfl
      obtain ⟨-, rfl⟩ := callNow_eq_some.mp hc
      obtain ⟨o, ho, -⟩ := call_eq topicClosed
        { s.calling with made := s.calling.made ++ [⟨s.calling.pulse.session, req, res, true⟩] }
        req res s.calling.made.length
      rw [ho]
      exact h.hearing.of_eq rfl rfl (List.prefix_append _ _)
  | frame ss pic =>
      obtain ⟨-, rfl⟩ := move_frame_eq_some.mp hc
      refine h.of_dispatch (h.books.of_posted _ _ _ _) rfl rfl rfl rfl fun q hq => ?_
      simp only [reply, Option.mem_def, Option.ite_none_right_eq_some, Option.some.injEq] at hq
      obtain ⟨hlt, rfl⟩ := hq
      refine ⟨rfl, hlt.trans_le ?_⟩
      rw [callsOn_eq h.books.session]
      split
      · exact le_rfl
      · exact Nat.zero_le _
  | close ss =>
      obtain ⟨-, rfl⟩ := close_eq_some.mp hc
      refine h.of_dispatch (h.books.of_posted _ _ _ _) rfl rfl rfl rfl fun q hq => ?_
      cases hq
  | run i =>
      obtain ⟨j, hj, hrun⟩ := runAt_eq_some.mp hc
      obtain ⟨b, hm⟩ := h.exists_mark hj
      rcases j with ⟨cb, se⟩ | cb
      · cases cb with
        | user id =>
            obtain rfl := Option.some.inj hrun
            refine .of_hearing (h.books.of_posted _ _ _ _) ?_ rfl
            exact h.hearing.run hm rfl rfl fun _ => Nat.le_add_right _ _
        | reply pic =>
            obtain ⟨hbooks, hhearing⟩ := h.receive hj htime hc
            exact .of_hearing hbooks hhearing rfl
        | closed => cases hl _ hj
      · obtain rfl := Option.some.inj hrun
        refine .of_hearing (h.books.of_posted _ _ _ _) ?_ rfl
        exact h.hearing.run hm rfl rfl fun _ => Nat.le_add_right _ _

/-! ### When extra replies are safe -/

/-- A handler is safe exactly if it is that of a reply that finds its call in
front. -/
theorem Inv.handlesSafely_iff (h : Inv s) (l : Move T) : HandlesSafely s l ↔ InTime s l := by
  constructor
  · intro hsafe
    have hruns : ∀ pic ∈ s.calling.handledReply l, s.runsReply l = true := by
      intro pic hpic
      by_contra hno
      obtain ⟨i, se, -, hj⟩ := handledReply_eq_some.mp hpic
      have hids := h.hearing.posted pic se (List.mem_of_getElem? hj)
      exact h.books.callReceive_ne hids (hsafe.surplus (by simpa using hno) pic hpic)
    refine ⟨hruns, fun pic hpic => ?_⟩
    have htakes := hsafe.matched (hruns pic hpic)
    refine (h.books.takesOldest_iff l fun r hr => ?_).mp htakes pic hpic
    exact h.lt_of_runsReply (hruns r hr) hr
  · rintro ⟨hruns, haligned⟩
    have hlt : ∀ pic ∈ s.calling.handledReply l,
        (s.calling.answeredOf pic).length < (idsOf s.calling.made pic).length :=
      fun pic hpic => h.lt_of_runsReply (hruns pic hpic) hpic
    refine ⟨fun pic hpic req hpair hkey => ?_, fun _ => ?_, fun hno pic hpic => ?_⟩
    · obtain ⟨i, se, rfl, hj⟩ := handledReply_eq_some.mp hpic
      have hlast : lastReq s.calling.made pic = some req := (h.books.pairs pic).symm.trans hpair
      have hhead := haligned pic hpic req hlast
      have hold : s.calling.oldest pic = some _ := List.getElem?_eq_getElem (hlt pic hpic)
      rw [hold, ← h.books.queues] at hhead
      rcases hcs : (s.calling.calls req).callers with - | ⟨c, cs⟩
      · rw [hcs] at hhead
        cases hhead
      · rw [List.head?_cons, Option.map_some, ((h.books.numbered req hkey).pop hcs).1]
    · exact (h.books.takesOldest_iff l hlt).mpr haligned
    · rw [hruns pic hpic] at hno
      cases hno

/-- **When extra replies are safe**: along every run of a pulse that has its
session before its first call, in any order of calls, frames and handlers,
`call_receive` never asks for the front of an empty queue, its checks hold,
every reply takes the oldest call that waits for it, and surplus frames change
nothing, if and only if no handler of a response topic is run for a surplus
frame, and every reply is handled when the first unanswered call with the
request topic of the last call is the one it is for. -/
theorem replies_safe_iff (topicClosed : T) (ls : List (Move T))
    (h : Along (step topicClosed) OnSession {} ls) :
    Along (step topicClosed) HandlesSafely {} ls ↔ Along (step topicClosed) InTime {} ls := by
  constructor
  · intro hsafe
    refine (along_and.mpr ⟨h, hsafe⟩).imp (I := Inv) ?_ ?_ inv_new
    · intro s l s' hI hl hs
      exact hI.move hl.1 ((hI.handlesSafely_iff l).mp hl.2) hs
    · intro s l hI hl
      exact (hI.handlesSafely_iff l).mp hl.2
  · intro htime
    refine (along_and.mpr ⟨h, htime⟩).imp (I := Inv) ?_ ?_ inv_new
    · intro s l s' hI hl hs
      exact hI.move hl.1 hl.2 hs
    · intro s l hI hl
      exact (hI.handlesSafely_iff l).mpr hl.2

/-- Two calls, their replies, and a surplus frame whose handler is not run. -/
def surplusWaits : List (Move ℕ) :=
  [.subscribe 30 0, .withSession 7, .call 21 22, .frame 7 22, .frame 7 22, .run 0, .call 21 22,
    .frame 7 22, .run 1]

theorem replies_safe_surplusWaits :
    Along (step 2) OnSession ({} : Replying ℕ) surplusWaits ∧
      Along (step 2) HandlesSafely ({} : Replying ℕ) surplusWaits := by
  have hrules : Along (step 2) OnSession ({} : Replying ℕ) surplusWaits := by decide +kernel
  exact ⟨hrules, (replies_safe_iff 2 surplusWaits hrules).mpr (by decide +kernel)⟩

/-- One call and two frames with its response topic, as when the other side
answers with a broadcast. -/
def broadcastReply : List (Move ℕ) :=
  [.withSession 7, .call 21 22, .frame 7 22, .frame 7 22, .run 0, .run 0]

/-- **One reply too many**: the second handler asks for the front of an empty
queue. -/
theorem broadcastReply_unsafe :
    Along (step 2) OnSession ({} : Replying ℕ) broadcastReply ∧
      ¬ Along (step 2) HandlesSafely ({} : Replying ℕ) broadcastReply := by
  refine ⟨by decide +kernel, fun hsafe => ?_⟩
  -- the part of the condition that can be computed
  have hchecks : Along (step 2) (fun s l => ∀ pic ∈ s.calling.handledReply l,
      ∀ req ∈ s.calling.callPairs pic, req ∈ s.calling.callKeys →
        (s.calling.calls req).callers.head?.map Caller.callId =
          some ((s.calling.calls req).replyIndex + 1)) ({} : Replying ℕ) broadcastReply :=
    hsafe.imp (I := fun _ => True) (fun _ _ _ => trivial) (fun _ hl => hl.checks) trivial
  exact absurd hchecks (by decide +kernel)

end Replying

end Calling

end Play
