/-
Play/Server.lean

`server<Protocol>`: the accept loop and the map from socket handles to
sessions, over the sessions of `Play.Session`.

`handle_accept` inserts the session under the handle it has, starts it, and
starts the next accept.  A session gets its handle in `start`, so the map
never holds another key than 0; and an exception out of `start` skips the
last statement.  `stop` releases the acceptor, while the accept that is
outstanding still completes, with an error or with a connection that was
already there.

The first part is the model, the second the session map (`Tracks`), the
third the accept loop (`AcceptsOne`).  Both are exact: the runs in which the
server does what it should are described step by step.
-/
import Play.Closing
import Play.Maps

namespace Play

/-! ### What starting a session leaves -/

namespace Session

variable {P : Protocol}

theorem handle_sendRaw (s : Session P) (b : Bytes) : (s.sendRaw b).handle = s.handle := by
  unfold sendRaw
  split
  · rfl
  dsimp only
  split
  · rw [startSend_eq]; rfl
  · rfl

theorem handle_appCall (s : Session P) (c : AppCall P.Topic) : (s.appCall c).handle = s.handle := by
  cases c with
  | sendRaw b => exact handle_sendRaw s b
  | close => rw [appCall, close_eq]
  | send t d e =>
      rw [appCall]
      rcases send_cases s t d e with h | ⟨p, -, -, ⟨p', err, -, h⟩ | ⟨p', bytes, -, h⟩⟩ <;> rw [h]
      dsimp only
      split
      · rw [startSend_eq]; rfl
      · rfl

theorem handle_launch (s : Session P) (handle : ℕ) (e : P.Entropy) :
    (s.launch handle e).handle = handle := by
  unfold launch sendHandshake
  dsimp only
  split
  · exact handle_sendRaw _ _
  · rfl

/-- A session has the handle of its socket from `start` on, and `start` does
not report it closed. -/
theorem handle_start (h : Handler P.Topic) (accepted : Bool) (handle : ℕ) (e : P.Entropy)
    (peer : Bool) :
    ((new accepted : Session P).start h handle e peer).state.handle = handle ∧
      ((new accepted : Session P).start h handle e peer).state.closedCount = 0 := by
  refine ⟨?_, ?_⟩
  · have hl := handle_launch (new accepted : Session P) handle e
    rcases start_cases h (new accepted : Session P) handle e peer with hr | ⟨-, hr⟩ | ⟨-, hr⟩ <;>
      rw [hr]
    · exact hl
    · exact notify_invariant (I := fun s => s.handle = handle)
        (fun c hs => (handle_appCall _ c).trans hs) hl
    · exact hl
  · -- a count of no closes survives everything that `start` does
    refine Stable.start (I := fun s => s.closedCount = 0) ⟨?_, ?_, ?_⟩ rfl h handle e peer
    · exact fun hs _ _ _ _ _ => hs
    · exact fun hs hc => (closedCount_log hc).trans hs
    · exact fun c hs => (closedCount_appCall _ c).trans hs

/-- When `start` of a new session leaves by an exception: the peer is gone, or
the session is established at once and the application's callback throws. -/
def StartThrows (h : Handler P.Topic) (accepted : Bool) (handle : ℕ) (e : P.Entropy)
    (peer : Bool) : Prop :=
  peer = false ∨
    P.isEstablished ((new accepted : Session P).openProtocol handle e).1 = true ∧
      (h [.established]).throws = true

theorem launch_new (accepted : Bool) (handle : ℕ) (e : P.Entropy) :
    ((new accepted : Session P).launch handle e).isOpen = true ∧
      ((new accepted : Session P).launch handle e).log = [] := by
  unfold launch sendHandshake
  dsimp only
  split
  · exact ⟨isOpen_sendRaw _ _, (sameRecv_sendRaw _ _).log⟩
  · exact ⟨rfl, rfl⟩

theorem start_of_startThrows {h : Handler P.Topic} {accepted : Bool} {handle : ℕ} {e : P.Entropy}
    {peer : Bool} (ht : StartThrows h accepted handle e peer) :
    ∃ s, (new accepted : Session P).start h handle e peer = .threw s := by
  obtain ⟨hopen, hlog⟩ := launch_new (P := P) accepted handle e
  unfold start
  dsimp only
  rw [isEstablished_launch, hopen]
  rcases ht with rfl | ⟨hest, hthrow⟩
  · exact ⟨_, rfl⟩
  · cases peer with
    | false => exact ⟨_, rfl⟩
    | true =>
        rw [if_neg (by simp), if_pos hest]
        refine ⟨_, if_pos ?_⟩
        show (h (((new accepted : Session P).launch handle e).log ++ [.established])).throws = true
        rw [hlog]
        exact hthrow

theorem start_of_not_startThrows {h : Handler P.Topic} {accepted : Bool} {handle : ℕ}
    {e : P.Entropy} {peer : Bool} (ht : ¬ StartThrows h accepted handle e peer) :
    ∃ s, (new accepted : Session P).start h handle e peer = .done s := by
  obtain ⟨hopen, hlog⟩ := launch_new (P := P) accepted handle e
  unfold start
  dsimp only
  rw [isEstablished_launch, hopen]
  obtain ⟨hpeer, hquiet⟩ := not_or.mp ht
  rw [Bool.not_eq_false] at hpeer
  subst hpeer
  rw [if_neg (by simp)]
  by_cases hest : P.isEstablished ((new accepted : Session P).openProtocol handle e).1 = true
  · rw [if_pos hest]
    refine ⟨_, if_neg ?_⟩
    show ¬ (h (((new accepted : Session P).launch handle e).log ++ [.established])).throws = true
    rw [hlog]
    exact fun hthrow => hquiet ⟨hest, hthrow⟩
  · exact ⟨_, if_neg hest⟩

end Session

/-! ### The server -/

/-- `server<Protocol>`, with the accepted session objects in the order of
their acceptance; `sessions` leads from a handle to a place in that order. -/
structure Server (P : Protocol) where
  /-- `acceptor_` is not null. -/
  acceptor : Bool := true
  sessions : Map ℕ ℕ := ∅
  /-- The number of `async_accept`s outstanding. -/
  accepts : ℕ := 1
  objects : List (Session P) := []
  /-- `acceptor_` was used when it was null. -/
  usedReleased : Bool := false

namespace Server

variable {P : Protocol}

/-- `server::start` has returned: one accept is outstanding. -/
def started : Server P := {}

/-- `server::get_session`. -/
def getSession (s : Server P) (handle : ℕ) : Option ℕ := s.sessions.lookup handle

/-- `server::stop`; the outstanding accept is aborted and will complete. -/
def stop (s : Server P) : Server P := { s with acceptor := false }

/-- `server::start_accept`.  Through a null acceptor nothing is started. -/
def startAccept (s : Server P) : Server P :=
  if s.acceptor then { s with accepts := s.accepts + 1 } else { s with usedReleased := true }

/-- `handle_accept` with a connection, up to its last statement. -/
def takeSession (s : Server P) (h : Handler P.Topic) (handle : ℕ) (e : P.Entropy) (peer : Bool) :
    Outcome (Server P) :=
  let se : Session P := Session.new true
  -- the handle of a session that has not started is 0
  let s := { s with sessions := Map.insertNew s.sessions se.handle s.objects.length }
  match se.start h handle e peer with
  | .done se => .done { s with objects := s.objects ++ [se] }
  | .threw se => .threw { s with objects := s.objects ++ [se] }

/-- `server::handle_accept`: `body` is what comes before its last statement,
and `stops` says whether `stop` is called before that statement is reached, by
a callback or by another thread. -/
def handleAccept (s : Server P) (body : Server P → Outcome (Server P)) (stops : Bool) :
    Outcome (Server P) :=
  match body { s with accepts := s.accepts - 1 } with
  | .done s => .done (if stops then s.stop else s).startAccept
  | .threw s => .threw (if stops then s.stop else s)

/-- A step of a session; `server::on_closed` runs inside the step that tells
the server of the close. -/
def onSession (s : Server P) (i : ℕ) (se se' : Session P) : Server P :=
  { s with
    objects := s.objects.set i se'
    sessions :=
      if se.closedCount < se'.closedCount then AList.erase se'.handle s.sessions else s.sessions }

/-- One step of a started server. -/
inductive Step (P : Protocol)
  /-- An accept completes with an error. -/
  | acceptFailed (stops : Bool)
  /-- An accept completes with a connection, whose socket has this handle. -/
  | accepted (h : Handler P.Topic) (handle : ℕ) (e : P.Entropy) (peer : Bool) (stops : Bool)
  | stop
  | session (i : ℕ) (l : Session.Step P)

/-- The step function.  The system gives a new socket a handle that is
positive and that no open socket has. -/
def step (s : Server P) : Step P → Option (Server P)
  | .acceptFailed stops =>
      if 0 < s.accepts then some (s.handleAccept .done stops).state else none
  | .accepted h handle e peer stops =>
      if 0 < s.accepts ∧ 0 < handle ∧ ∀ se ∈ s.objects, se.isOpen → se.handle ≠ handle then
        some (s.handleAccept (takeSession · h handle e peer) stops).state
      else none
  | .stop => some s.stop
  | .session i l =>
      match s.objects[i]? with
      | none => none
      | some se => (se.step l).map (s.onSession i se)

variable {s s' : Server P} {h : Handler P.Topic} {handle : ℕ} {e : P.Entropy} {peer stops : Bool}

/-! ### What a step does -/

@[simp] theorem startAccept_objects (s : Server P) : s.startAccept.objects = s.objects := by
  unfold startAccept
  split <;> rfl

@[simp] theorem startAccept_sessions (s : Server P) : s.startAccept.sessions = s.sessions := by
  unfold startAccept
  split <;> rfl

/-- What `takeSession` leaves, thrown or not: the session has been inserted
and started. -/
def withSession (s : Server P) (h : Handler P.Topic) (handle : ℕ) (e : P.Entropy) (peer : Bool) :
    Server P :=
  { s with
    sessions := Map.insertNew s.sessions 0 s.objects.length
    objects := s.objects ++ [((Session.new true).start h handle e peer).state] }

theorem takeSession_of_startThrows (ht : Session.StartThrows h true handle e peer) :
    s.takeSession h handle e peer = .threw (s.withSession h handle e peer) := by
  obtain ⟨se, hse⟩ := Session.start_of_startThrows ht
  simp only [takeSession, withSession, hse, Outcome.state_threw]
  rfl

theorem takeSession_of_not_startThrows (ht : ¬ Session.StartThrows h true handle e peer) :
    s.takeSession h handle e peer = .done (s.withSession h handle e peer) := by
  obtain ⟨se, hse⟩ := Session.start_of_not_startThrows ht
  simp only [takeSession, withSession, hse, Outcome.state_done]
  rfl

theorem takeSession_state (s : Server P) (h : Handler P.Topic) (handle : ℕ) (e : P.Entropy)
    (peer : Bool) : (s.takeSession h handle e peer).state = s.withSession h handle e peer := by
  by_cases ht : Session.StartThrows h true handle e peer
  · rw [takeSession_of_startThrows ht, Outcome.state_threw]
  · rw [takeSession_of_not_startThrows ht, Outcome.state_done]

/-- The map and the objects are those that the body leaves. -/
theorem handleAccept_sessions (s : Server P) (stops : Bool)
    (body : Server P → Outcome (Server P)) :
    (s.handleAccept body stops).state.sessions
        = (body { s with accepts := s.accepts - 1 }).state.sessions ∧
      (s.handleAccept body stops).state.objects
        = (body { s with accepts := s.accepts - 1 }).state.objects := by
  unfold handleAccept
  rcases body { s with accepts := s.accepts - 1 } with t | t <;> cases stops <;>
    simp [stop]

/-- What the map and the objects are after each step. -/
theorem step_cases {l : Step P} (hs : s.step l = some s') :
    (∃ h handle e peer stops, l = .accepted h handle e peer stops ∧ 0 < handle ∧
      s'.sessions = Map.insertNew s.sessions 0 s.objects.length ∧
      s'.objects = s.objects ++ [((Session.new true).start h handle e peer).state]) ∨
    (∃ i k se se', l = .session i k ∧ s.objects[i]? = some se ∧ se.step k = some se' ∧
      s' = s.onSession i se se') ∨
    (((∃ stops, l = .acceptFailed stops) ∨ l = .stop) ∧ s'.sessions = s.sessions ∧
      s'.objects = s.objects) := by
  cases l with
  | acceptFailed stops =>
      simp only [step, Option.ite_none_right_eq_some, Option.some.injEq] at hs
      obtain ⟨-, rfl⟩ := hs
      exact .inr (.inr ⟨.inl ⟨stops, rfl⟩, handleAccept_sessions _ _ .done⟩)
  | accepted h handle e peer stops =>
      simp only [step, Option.ite_none_right_eq_some, Option.some.injEq] at hs
      obtain ⟨⟨-, hpos, -⟩, rfl⟩ := hs
      have hst := handleAccept_sessions s stops (takeSession · h handle e peer)
      simp only [takeSession_state] at hst
      exact .inl ⟨h, handle, e, peer, stops, rfl, hpos, hst⟩
  | stop =>
      obtain rfl := Option.some.inj hs
      exact .inr (.inr ⟨.inr rfl, rfl, rfl⟩)
  | session i k =>
      simp only [step] at hs
      split at hs
      · cases hs
      · next se hse =>
          obtain ⟨se', hk, rfl⟩ := Option.map_eq_some_iff.mp hs
          exact .inr (.inl ⟨i, k, se, se', rfl, hse, hk, rfl⟩)

/-! ### The session map -/

/-- `get_session` finds the accepted sessions that have not been reported
closed, each under its handle, and nothing else. -/
def Tracks (s : Server P) : Prop :=
  ∀ handle i, s.getSession handle = some i ↔
    ∃ se, s.objects[i]? = some se ∧ se.closedCount = 0 ∧ se.handle = handle

/-- In every reachable state the map has no key but 0. -/
def KeysZero (s : Server P) : Prop := ∀ handle i, s.sessions.lookup handle = some i → handle = 0

theorem KeysZero.step {l : Step P} (hz : s.KeysZero) (hs : s.step l = some s') : s'.KeysZero := by
  intro handle i hi
  rcases step_cases hs with ⟨_, _, _, _, _, -, -, hmap, -⟩ | ⟨j, k, se, se', -, -, -, rfl⟩ |
    ⟨-, hmap, -⟩
  · rw [hmap] at hi
    rcases Map.lookup_insertNew_eq_some.mp hi with hi | ⟨rfl, -, -⟩
    · exact hz handle i hi
    · rfl
  · rw [onSession] at hi
    split at hi
    · exact hz handle i (Map.lookup_erase_eq_some.mp hi).2
    · exact hz handle i hi
  · rw [hmap] at hi
    exact hz handle i hi

/-- **No session is ever found under a handle of the system**, whatever is
accepted and closed. -/
theorem getSession_eq_none_of_run {ls : List (Step P)}
    (hrun : runSteps step (started : Server P) ls = some s) (hpos : 0 < handle) :
    s.getSession handle = none := by
  have hz : s.KeysZero := runSteps_invariant (I := KeysZero) (fun hz hs => hz.step hs)
    (by intro handle i hi; cases hi) hrun
  refine Option.eq_none_iff_forall_not_mem.mpr fun i hi => ?_
  exact hpos.ne' (hz handle i hi)

/-- The step accepts no connection. -/
def NoAccept : Step P → Prop
  | .accepted .. => False
  | _ => True

/-- **The map tracks the live sessions exactly in the runs that accept no
connection**: the first session accepted goes in under handle 0, where its own
handle does not find it. -/
theorem tracks_iff_noAccept {ls : List (Step P)}
    (hrun : runSteps step (started : Server P) ls = some s) :
    Always step Tracks (started : Server P) ls ↔ Along step (fun _ l => NoAccept l) started ls := by
  refine always_iff_along (I := fun s => s.sessions = ∅ ∧ s.objects = []) ?_ ?_ ?_ ⟨rfl, rfl⟩ hrun
  · rintro s ⟨hmap, hobj⟩ handle i
    simp [getSession, hmap, hobj]
  · rintro s l s' ⟨hmap, hobj⟩ hl hs
    rcases step_cases hs with ⟨_, _, _, _, _, rfl, -⟩ | ⟨i, k, se, se', -, hse, -⟩ | ⟨-, hm, ho⟩
    · exact hl.elim
    · simp [hobj] at hse
    · exact ⟨hm.trans hmap, ho.trans hobj⟩
  · rintro s l s' ⟨hmap, hobj⟩ hl hs htracks
    rcases step_cases hs with ⟨h, handle, e, peer, stops, rfl, hpos, hm, ho⟩ |
      ⟨i, k, se, se', -, hse, -⟩ | ⟨⟨stops, rfl⟩ | rfl, -⟩
    · obtain ⟨hhandle, hcount⟩ := Session.handle_start (P := P) h true handle e peer
      have hfound : s'.getSession handle = some 0 :=
        (htracks handle 0).mpr ⟨_, by rw [ho, hobj]; rfl, hcount, hhandle⟩
      rw [getSession, hm, Map.lookup_insertNew_eq_some, hmap] at hfound
      rcases hfound with hfound | ⟨rfl, -, -⟩
      · cases hfound
      · exact hpos.false
    · simp [hobj] at hse
    · exact hl trivial
    · exact hl trivial

theorem tracks_failedAccept :
    Always step Tracks (started : Server (plainProtocol 2)) [.acceptFailed false, .stop] :=
  (tracks_iff_noAccept rfl).mpr ⟨trivial, fun _ _ => ⟨trivial, fun _ _ => trivial⟩⟩

/-- Two connections, on sockets 5 and 6. -/
def twoAccepts : List (Step (plainProtocol 2)) :=
  [.accepted (fun _ => {}) 5 () true false, .accepted (fun _ => {}) 6 () true false]

/-- Neither of the two open sessions is found. -/
theorem two_sessions_not_found :
    ∃ s, runSteps step (started : Server (plainProtocol 2)) twoAccepts = some s ∧
      s.getSession 5 = none ∧ s.getSession 6 = none ∧ ¬ s.Tracks := by
  refine ⟨_, rfl, rfl, rfl, fun htracks => ?_⟩
  exact absurd ((htracks 5 0).mpr ⟨_, rfl, rfl, rfl⟩) (by decide)

/-! ### The accept loop -/

/-- Until `stop` exactly one accept is outstanding, and no completion handler
has gone through an acceptor that was released. -/
def AcceptsOne (s : Server P) : Prop :=
  (s.acceptor = true → s.accepts = 1) ∧ s.usedReleased = false

/-- What the accept loop asks of a step: while there is an acceptor and `stop`
is not called inside the handler, a session that is accepted starts without an
exception; otherwise no completion handler gets past `start`. -/
def Rearms (s : Server P) : Step P → Prop
  | .acceptFailed stops => s.acceptor = true ∧ stops = false
  | .accepted h handle e peer stops =>
      (s.acceptor = true ∧ stops = false) ↔ ¬ Session.StartThrows h true handle e peer
  | .stop => True
  | .session _ _ => True

/-- How a body that returns, and one that throws, leave the accept loop. -/
theorem acceptsOne_handleAccept_done (body : Server P → Outcome (Server P)) {t : Server P}
    (hinv : s.AcceptsOne)
    (hbody : body { s with accepts := s.accepts - 1 } = .done t)
    (hacc : t.acceptor = s.acceptor) (hcount : t.accepts = s.accepts - 1)
    (hused : t.usedReleased = s.usedReleased) :
    (s.handleAccept body stops).state.AcceptsOne ↔ s.acceptor = true ∧ stops = false := by
  unfold handleAccept
  rw [hbody]
  rcases ha : s.acceptor with - | -
  · cases stops <;> simp [AcceptsOne, startAccept, stop, hacc, ha]
  · have hone := hinv.1 ha
    cases stops <;> simp [AcceptsOne, startAccept, stop, hacc, ha, hcount, hone, hused, hinv.2]

theorem acceptsOne_handleAccept_threw (body : Server P → Outcome (Server P)) {t : Server P}
    (hinv : s.AcceptsOne)
    (hbody : body { s with accepts := s.accepts - 1 } = .threw t)
    (hacc : t.acceptor = s.acceptor) (hcount : t.accepts = s.accepts - 1)
    (hused : t.usedReleased = s.usedReleased) :
    (s.handleAccept body stops).state.AcceptsOne ↔ ¬ (s.acceptor = true ∧ stops = false) := by
  unfold handleAccept
  rw [hbody]
  rcases ha : s.acceptor with - | -
  · cases stops <;> simp [AcceptsOne, stop, hacc, ha, hused, hinv.2]
  · have hone := hinv.1 ha
    cases stops <;> simp [AcceptsOne, stop, hacc, ha, hcount, hone, hused, hinv.2]

/-- **One step**: the accept loop is as it should be after it exactly when the
step meets `Rearms`. -/
theorem acceptsOne_step {l : Step P} (hinv : s.AcceptsOne) (hs : s.step l = some s') :
    s'.AcceptsOne ↔ s.Rearms l := by
  cases l with
  | acceptFailed stops =>
      simp only [step, Option.ite_none_right_eq_some, Option.some.injEq] at hs
      obtain ⟨-, rfl⟩ := hs
      exact acceptsOne_handleAccept_done .done hinv rfl rfl rfl rfl
  | accepted h handle e peer stops =>
      simp only [step, Option.ite_none_right_eq_some, Option.some.injEq] at hs
      obtain ⟨-, rfl⟩ := hs
      by_cases ht : Session.StartThrows h true handle e peer
      · have hbody := takeSession_of_startThrows (s := { s with accepts := s.accepts - 1 }) ht
        rw [acceptsOne_handleAccept_threw (takeSession · h handle e peer) hinv hbody rfl rfl rfl]
        simp only [Rearms, ht, not_true, iff_false]
      · have hbody := takeSession_of_not_startThrows (s := { s with accepts := s.accepts - 1 }) ht
        rw [acceptsOne_handleAccept_done (takeSession · h handle e peer) hinv hbody rfl rfl rfl]
        simp only [Rearms, ht, not_false_eq_true, iff_true]
  | stop =>
      obtain rfl := Option.some.inj hs
      exact ⟨fun _ => trivial, fun _ => ⟨fun ha => Bool.noConfusion ha, hinv.2⟩⟩
  | session i k =>
      simp only [step] at hs
      split at hs
      · cases hs
      · obtain ⟨se', -, rfl⟩ := Option.map_eq_some_iff.mp hs
        exact ⟨fun _ => trivial, fun _ => hinv⟩

/-- **The accept loop stays alive until `stop` and ends with it exactly in
the runs whose completion handlers all meet `Rearms`.** -/
theorem acceptsOne_iff_rearms {ls : List (Step P)}
    (hrun : runSteps step (started : Server P) ls = some s) :
    Always step AcceptsOne (started : Server P) ls ↔ Along step Rearms started ls :=
  always_iff_along id (fun hinv hG hs => (acceptsOne_step hinv hs).mpr hG)
    (fun hinv hG hs hgood => hG ((acceptsOne_step hinv hs).mp hgood)) ⟨fun _ => rfl, rfl⟩ hrun

/-- A failed accept, a connection that starts, and `stop`. -/
theorem acceptsOne_stopped :
    Always step AcceptsOne (started : Server (plainProtocol 2))
      [.acceptFailed false, .accepted (fun _ => {}) 5 () true false, .stop] := by
  refine (acceptsOne_iff_rearms rfl).mpr ⟨⟨rfl, rfl⟩, fun s₁ hs₁ => ?_⟩
  obtain rfl := Option.some.inj hs₁
  refine ⟨⟨fun _ hthrows => ?_, fun _ => ⟨rfl, rfl⟩⟩, fun _ _ => ⟨trivial, fun _ _ => trivial⟩⟩
  rcases hthrows with hpeer | ⟨-, hthrow⟩
  · cases hpeer
  · cases hthrow

/-- The peer of the accepted connection is gone: `start` throws, and the
server listens with no accept outstanding. -/
theorem peer_gone_no_accept :
    ∃ s, runSteps step (started : Server (plainProtocol 2))
        [.accepted (fun _ => {}) 5 () false false] = some s ∧
      s.acceptor = true ∧ s.accepts = 0 ∧ ¬ s.AcceptsOne := by
  refine ⟨_, rfl, rfl, rfl, fun hone => ?_⟩
  exact absurd (hone.1 rfl) (by decide)

end Server

end Play
