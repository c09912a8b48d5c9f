/-
Play/Stack.lean

From `send` on one side to the handlers of the pulses on the other.

Two programs are joined by a secure channel (Channel.lean).  In each of them
the session tells the root of a tree of pulses about its callbacks, the root
posts handlers for the subscriptions that match, and the workers of the runner
execute them, on the strands of the pulses.  A `Stack` is all of it: the link,
and for each side the tree, what was dispatched so far, each callback with the
tree as it was then, and the jobs of the runner.

The pulses may change at any time, also between two frames that came in one
chunk, so telling the root about the next callback is a step of its own.

Every layer contributes one part to `delivered_in_order`:

    dispatched frames   ≤  sent frames              (the channel)
    executed handlers   ≤  posted handlers, strand by strand   (the runner)

where ≤ is "is a first part of", and both are equal when nothing is on its way.
-/
import Play.Channel
import Play.Runner

namespace Play

variable {S : Sodium} {n : ℕ} {C F : Type}

/-- A callback of a session as the event that its listener gets. -/
def Callback.event {T : Type} : Callback T → Forest.Event T Bytes
  | .established => .established
  | .receive t d => .receive t d
  | .closed => .closed

/-- The callbacks that the session of a side has made. -/
def Link.callbacks (l : Link S n) (Y : Bool) : List (Callback (BitVec (8 * n))) :=
  (l.ends Y).log

variable (n C F) in
/-- The pulses of one side and what is known of them. -/
structure Host where
  tree : Forest (BitVec (8 * n)) C
  told : List (Forest (BitVec (8 * n)) C × Callback (BitVec (8 * n))) := []
  jobs : Jobs (Posted C (Option F)) := {}

variable (S n C F) in
/-- Two sides and what joins them. -/
structure Stack where
  link : Link S n
  host : Bool → Host n C F

variable (n F) in
/-- What is fixed for a run: the random values of the sides, the addresses of
the two session objects, the reserved topics, and what each side can unpack. -/
structure Setup where
  parties : Bool → Party
  session : Bool → SessionKey
  topicEstablished : BitVec (8 * n)
  topicClosed : BitVec (8 * n)
  unpack : Bool → BitVec (8 * n) → Bytes → Option F

/-- The handlers that are posted for a callback in a tree. -/
def Setup.posts (c : Setup n F) (Y : Bool)
    (d : Forest (BitVec (8 * n)) C × Callback (BitVec (8 * n))) : List (Posted C (Option F)) :=
  d.1.onEvent c.topicEstablished c.topicClosed (c.unpack Y) (c.session Y) d.2.event

/-- The tree is told about a callback. -/
def Host.tell (c : Setup n F) (Y : Bool) (x : Host n C F) (cb : Callback (BitVec (8 * n))) :
    Host n C F :=
  { x with told := x.told ++ [(x.tree, cb)], jobs := x.jobs.post (c.posts Y (x.tree, cb)) }

namespace Stack

/-- Two sessions that have not started, with trees. -/
def new (S : Sodium) (trees : Bool → Forest (BitVec (8 * n)) C) : Stack S n C F where
  link := Link.new S n
  host Y := { tree := trees Y }

/-- Change one side. -/
def setHost (s : Stack S n C F) (Y : Bool) (x : Host n C F) : Stack S n C F :=
  { s with host := Function.update s.host Y x }

/-- One step: of the sessions, of the pulses of a side, of its session telling
the root about the next callback, or of a worker of its runner. -/
inductive Step (n : ℕ) (C : Type)
  | link (a : Link.Step n)
  | tree (Y : Bool) (l : Forest.Step (BitVec (8 * n)) C)
  | tell (Y : Bool)
  | run (Y : Bool) (i : ℕ)

/-- The step function. -/
def step (c : Setup n F) (s : Stack S n C F) : Step n C → Option (Stack S n C F)
  | .link a => (s.link.step c.parties a).map fun link => { s with link }
  | .tree Y l => ((s.host Y).tree.step l).map fun tree => s.setHost Y { s.host Y with tree }
  | .tell Y =>
      (s.link.callbacks Y)[(s.host Y).told.length]?.map fun cb =>
        s.setHost Y ((s.host Y).tell c Y cb)
  | .run Y i => ((s.host Y).jobs.run Runner.lane i).map fun jobs =>
        s.setHost Y { s.host Y with jobs }

/-- The frames that the tree of a side was told about. -/
def heard (s : Stack S n C F) (Y : Bool) : List (BitVec (8 * n) × Bytes) :=
  (s.host Y).told.filterMap fun d => d.2.frame?

/-- The handlers that were posted on a side. -/
def posted (c : Setup n F) (s : Stack S n C F) (Y : Bool) : List (Posted C (Option F)) :=
  (s.host Y).told.flatMap (c.posts Y)

/-- The handlers that were executed on a side. -/
def executed (s : Stack S n C F) (Y : Bool) : List (Posted C (Option F)) :=
  (s.host Y).jobs.executed

/-- Nothing is on its way to a side, or waits there. -/
def Drained (s : Stack S n C F) (Y : Bool) : Prop :=
  s.link.pipe (!Y) = [] ∧ (s.host Y).told.length = (s.link.callbacks Y).length ∧
    (s.host Y).jobs.waiting = []

end Stack

/-! ### The log of a session -/

/-- Whatever happens, the list of callbacks only grows. -/
theorem Session.stable_log {P : Protocol} (log : List (Callback P.Topic)) :
    Stable fun s : Session P => log <+: s.log where
  set hs _ _ _ _ _ := hs
  log hs _ := hs.trans (List.prefix_append _ _)
  call c hs := by
    rw [(sameRecv_appCall _ c).log]
    exact hs

namespace Link

variable {parties : Bool → Party} {l l' : Link S n}

/-- A side that moves keeps what it has told. -/
theorem callbacks_advance {X : Bool} {s : Session (secureProtocol S n)} {k : ℕ}
    (h : (l.ends X).log <+: s.log) (Y : Bool) :
    l.callbacks Y <+: (l.advance X s k).callbacks Y := by
  by_cases hY : Y = X
  · subst hY
    rw [callbacks, callbacks, advance_ends_self]
    exact h
  · obtain rfl : Y = !X := Bool.eq_not.mpr hY
    rw [callbacks, callbacks, advance_ends_not]
    exact List.prefix_rfl

theorem callbacks_step {a : Step n} (h : l.step parties a = some l') (Y : Bool) :
    l.callbacks Y <+: l'.callbacks Y := by
  have hstable := fun X => Session.stable_log (P := secureProtocol S n) (l.ends X).log
  cases a with
  | start X r =>
      simp only [Link.step, Option.ite_none_right_eq_some, Option.some.injEq] at h
      rw [← h.2]
      exact callbacks_advance ((hstable X).start List.prefix_rfl r.handler _ _ _) Y
  | deliver X k r =>
      simp only [Link.step, Option.ite_none_right_eq_some, Option.some.injEq] at h
      rw [← h.2]
      exact callbacks_advance ((hstable X).handleRecv List.prefix_rfl r.handler _) Y
  | send X m =>
      simp only [Link.step, Option.ite_none_right_eq_some, Option.some.injEq] at h
      rw [← h.2]
      exact callbacks_advance ((hstable X).call m.call List.prefix_rfl) Y

variable {hS : S.Lawful}

/-- What a side has been called back with: nothing yet, or `on_established`
and then the first frames of the peer. -/
theorem Inv.callbacks_cases (hl : Inv parties hS l) (Y : Bool) :
    ∃ done todo, l.sent (!Y) = done ++ todo ∧ (l.pipe (!Y) = [] → todo = []) ∧
      ((l.callbacks Y = [] ∧ done = []) ∨
        l.callbacks Y = .established :: Session.receives done) := by
  have hend := hl.endpoint Y
  have hin := hl.inbound Y
  -- before it opens, the peer has sent no frame or there is more to come
  have hquiet : l.callbacks Y = [] → (l.pipe (!Y) = [] → (l.ends (!Y)).appended.length ≤ 98) →
      ∃ done todo, l.sent (!Y) = done ++ todo ∧ (l.pipe (!Y) = [] → todo = []) ∧
        ((l.callbacks Y = [] ∧ done = []) ∨
          l.callbacks Y = .established :: Session.receives done) := by
    intro hlog hlen
    refine ⟨[], l.sent (!Y), rfl, fun hpipe => ?_, .inl ⟨hlog, rfl⟩⟩
    rw [sent, (hl.endpoint (!Y)).frames_eq_nil (hlen hpipe)]
    rfl
  rcases hst : Party.stage (l.ends Y) <;> rw [hst] at hend hin
  · refine hquiet (by rw [callbacks, show l.ends Y = _ from hend]; rfl) fun hpipe => ?_
    rw [← hin.1, hpipe, List.append_nil]
    exact hin.2.le.trans (by omega)
  · refine hquiet hend.1.log fun hpipe => ?_
    rw [← hin.1, hpipe, List.append_nil]
    exact hin.2.le.trans (by omega)
  · refine hquiet hend.1.log fun hpipe => ?_
    have hbuf := hin.2
    rw [← hin.1, hpipe, List.append_nil, List.length_append, Party.length_keyMessage]
    omega
  · obtain ⟨hlen, done, todo, hms, hholds, hset, hrest⟩ := hin
    obtain ⟨-, hvalid⟩ := (hl.endpoint (!Y)).appended_eq hlen
    refine ⟨done.map (secureCodec hS n).image, todo.map (secureCodec hS n).image, ?_,
      fun hpipe => ?_, .inr hholds.log⟩
    · rw [← List.map_append, ← hms]
      rfl
    · -- what is left in the buffer is settled, so it is the encoding of nothing
      rw [hpipe, List.append_nil] at hrest
      rw [hrest] at hset
      rw [hms] at hvalid
      have htodo : todo = [] := (secureCodec hS n).eq_nil_of_settled
        (fun m hm => hvalid m (List.mem_append_right _ hm)) hset
      rw [htodo, List.map_nil]

end Link

/-! ### The invariant -/

namespace Stack

section

variable {c : Setup n F} {trees : Bool → Forest (BitVec (8 * n)) C} {s s' : Stack S n C F}
variable {hS : S.Lawful}

@[simp] theorem link_setHost (s : Stack S n C F) (Y : Bool) (x : Host n C F) :
    (s.setHost Y x).link = s.link := rfl

@[simp] theorem host_setHost_self (s : Stack S n C F) (Y : Bool) (x : Host n C F) :
    (s.setHost Y x).host Y = x :=
  Function.update_self ..

/-- A property of all sides, after one of them has changed. -/
theorem forall_setHost {p : Bool → Host n C F → Prop} {Y : Bool} {x : Host n C F}
    (h : ∀ Z, p Z (s.host Z)) (hx : p Y x) : ∀ Z, p Z ((s.setHost Y x).host Z) := by
  intro Z
  by_cases hZ : Z = Y
  · subst hZ
    rw [host_setHost_self]
    exact hx
  · show p Z (Function.update s.host Y x Z)
    rw [Function.update_of_ne hZ]
    exact h Z

/-- A side has been told the first callbacks of its session, and its runner
has the handlers that were posted for them. -/
structure Host.Faithful (c : Setup n F) (log : List (Callback (BitVec (8 * n)))) (Y : Bool)
    (x : Host n C F) : Prop where
  told : x.told.map Prod.snd <+: log
  jobs : Jobs.Sequenced Runner.lane (x.told.flatMap (c.posts Y)) x.jobs

theorem Host.Faithful.tell {log : List (Callback (BitVec (8 * n)))} {Y : Bool} {x : Host n C F}
    (h : Host.Faithful c log Y x) {cb : Callback (BitVec (8 * n))}
    (hcb : log[x.told.length]? = some cb) : Host.Faithful c log Y (x.tell c Y cb) := by
  obtain ⟨hlt, rfl⟩ := List.getElem?_eq_some_iff.mp hcb
  refine ⟨?_, ?_⟩
  · show (x.told ++ [(x.tree, log[x.told.length])]).map Prod.snd <+: log
    have htake : x.told.map Prod.snd = log.take x.told.length := by
      rw [List.prefix_iff_eq_take.mp h.told, List.length_map]
    rw [List.map_append, htake]
    show log.take x.told.length ++ [log[x.told.length]] <+: log
    rw [← List.take_succ_eq_append_getElem hlt]
    exact List.take_prefix _ _
  · show Jobs.Sequenced Runner.lane ((x.told ++ [(x.tree, _)]).flatMap (c.posts Y)) _
    rw [List.flatMap_append, List.flatMap_singleton]
    exact h.jobs.post _

variable (hS) in
/-- The channel is as it should be, and so is every side. -/
structure Inv (c : Setup n F) (s : Stack S n C F) : Prop where
  link : Link.Inv c.parties hS s.link
  host : ∀ Y, Host.Faithful c (s.link.callbacks Y) Y (s.host Y)

theorem inv_new : Inv hS c (new S trees : Stack S n C F) where
  link := Link.inv_new
  host _ := ⟨List.nil_prefix, Jobs.sequenced_new⟩

theorem Inv.step (hs : Inv hS c s) {a : Step n C} (h : s.step c a = some s') : Inv hS c s' := by
  cases a with
  | link a =>
      obtain ⟨l', hl', rfl⟩ := Option.map_eq_some_iff.mp h
      refine ⟨hs.link.step hl', fun Y => ⟨?_, (hs.host Y).jobs⟩⟩
      exact (hs.host Y).told.trans (Link.callbacks_step hl' Y)
  | tree Y l =>
      obtain ⟨tree, -, rfl⟩ := Option.map_eq_some_iff.mp h
      exact ⟨hs.link, forall_setHost (p := fun Z => Host.Faithful c (s.link.callbacks Z) Z) hs.host
        ⟨(hs.host Y).told, (hs.host Y).jobs⟩⟩
  | tell Y =>
      obtain ⟨cb, hcb, rfl⟩ := Option.map_eq_some_iff.mp h
      exact ⟨hs.link, forall_setHost (p := fun Z => Host.Faithful c (s.link.callbacks Z) Z) hs.host
        ((hs.host Y).tell hcb)⟩
  | run Y i =>
      obtain ⟨jobs, hjobs, rfl⟩ := Option.map_eq_some_iff.mp h
      exact ⟨hs.link, forall_setHost (p := fun Z => Host.Faithful c (s.link.callbacks Z) Z) hs.host
        ⟨(hs.host Y).told, (hs.host Y).jobs.run hjobs⟩⟩

theorem Inv.of_run {ls : List (Step n C)}
    (h : runSteps (Stack.step c) (new S trees) ls = some s) : Inv hS c s :=
  runSteps_invariant (fun hs h => hs.step h) inv_new h

/-! ### The two parts -/

/-- The tree has heard the first frames that the peer sent. -/
theorem Inv.heard_sent (hs : Inv hS c s) (Y : Bool) :
    s.heard Y <+: s.link.sent (!Y) ∧ (s.Drained Y → s.heard Y = s.link.sent (!Y)) := by
  obtain ⟨done, todo, hsent, hlast, hlog⟩ := hs.link.callbacks_cases Y
  have hheard : s.heard Y = ((s.host Y).told.map Prod.snd).filterMap Callback.frame? := by
    rw [heard, List.filterMap_map]
    rfl
  have hdone : (s.link.callbacks Y).filterMap Callback.frame? = done := by
    rcases hlog with ⟨hlog, rfl⟩ | hlog <;> rw [hlog]
    · rfl
    · exact Link.filterMap_receives done
  have htold := (hs.host Y).told
  have hpre := htold.filterMap Callback.frame?
  rw [← hheard, hdone] at hpre
  refine ⟨hpre.trans ⟨todo, hsent.symm⟩, fun ⟨hpipe, hlen, _⟩ => ?_⟩
  rw [hheard, htold.eq_of_length (by rw [List.length_map, hlen]), hdone, hsent, hlast hpipe,
    List.append_nil]

/-- **End to end, in order.**  In every run of the two programs, whatever the
chunks, the threads and the changes to the trees, the frames that a tree was
told about are the first of those the peer sent; on every strand, the handlers
that were executed are the first of those posted; and when nothing is on its
way, the tree was told about every frame once, and every handler posted for
one was executed once. -/
theorem delivered_in_order {S : Sodium} (hS : S.Lawful) (c : Setup n F)
    (trees : Bool → Forest (BitVec (8 * n)) C) {ls : List (Step n C)} {s : Stack S n C F}
    (hrun : runSteps (step c) (new S trees) ls = some s) (Y : Bool) :
    s.heard Y <+: s.link.sent (!Y) ∧
    (∀ k, Jobs.inLane Runner.lane k (s.executed Y)
      <+: Jobs.inLane Runner.lane k (s.posted c Y)) ∧
    (s.Drained Y → s.heard Y = s.link.sent (!Y) ∧ (s.executed Y).Perm (s.posted c Y) ∧
      ∀ k, Jobs.inLane Runner.lane k (s.executed Y)
        = Jobs.inLane Runner.lane k (s.posted c Y)) := by
  have hs : Inv hS c s := Inv.of_run hrun
  obtain ⟨hpre, hall⟩ := hs.heard_sent Y
  have hjobs := (hs.host Y).jobs
  refine ⟨hpre, hjobs.inLane_executed, fun hdrained => ⟨hall hdrained, ?_, ?_⟩⟩
  · have hperm := hjobs.perm
    rw [hdrained.2.2, List.append_nil] at hperm
    exact hperm.symm
  · exact hjobs.of_waiting_nil hdrained.2.2

end

/-- The two sides of the recorded exchange; a frame is its bytes. -/
def recordedSetup : Setup 2 Bytes where
  parties := Link.recordedParties
  session _ := 9
  topicEstablished := 1
  topicClosed := 2
  unpack _ _ d := some d

/-- A root with a child, on a strand, that subscribes to the topic 7. -/
def listeningTree : Forest (BitVec (8 * 2)) ℕ :=
  (((Forest.new 1).asChild 2 1).state.modify 2 fun o => { o with strandKey := 65 }).subscribe 2 7 0

/-- Three frames, two of them for the topic 7; then the client's tree is told
about what has come, and its runner executes the two handlers. -/
def threeFrames : List (Step 2 ℕ) :=
  Link.threeFrames.map .link ++ List.replicate 4 (.tell false) ++ List.replicate 2 (.run false 0)

theorem delivered_threeFrames :
    ∃ s, runSteps (step recordedSetup) (new .recorded fun _ => listeningTree) threeFrames = some s ∧
      s.heard false = [(7, [1, 2, 3]), (8, [4]), (7, [5])] ∧
      s.heard false = s.link.sent true := by
  have hend : (runSteps (step recordedSetup) (new .recorded fun _ => listeningTree) threeFrames).map
      (fun s => (s.heard false, s.link.pipe true, (s.host false).told.length,
        (s.link.callbacks false).length, (s.host false).jobs.waiting.length))
      = some ([(7, [1, 2, 3]), (8, [4]), (7, [5])], [], 4, 4, 0) := by
    decide +kernel
  obtain ⟨s, hrun, hs⟩ := Option.map_eq_some_iff.mp hend
  simp only [Prod.mk.injEq] at hs
  obtain ⟨hheard, hpipe, htold, hlog, hwait⟩ := hs
  have hdrained : s.Drained false :=
    ⟨hpipe, htold.trans hlog.symm, List.length_eq_zero_iff.mp hwait⟩
  exact ⟨s, hrun, hheard,
    ((delivered_in_order Sodium.recorded_lawful recordedSetup _ hrun false).2.2 hdrained).1⟩

end Stack

end Play
