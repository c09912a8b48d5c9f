/-
Play/Session.lean

`session<Protocol>`: one TCP connection with one outstanding receive, one
outstanding send and a pair of send buffers that change roles.

The state is the object's members, the part of the socket they depend on,
and a history.

* socket: whether it is open, whether an `async_receive` is outstanding, and
  which buffer, with how many bytes, an outstanding `async_send` refers to;
* history: the bytes ever appended for sending, the bytes written to the
  socket, the callbacks made to the handler and the frames the application
  asked to send.  The code never reads it.

An application is a `Handler`: from the callbacks made so far it determines
what the callback now running does, that is, which calls it makes on the
session and whether it ends with an exception.  Since every step of a run
brings its own handler, nothing is assumed about how an application decides.
-/
import Play.Protocol
import Play.Runs

namespace Play

/-! ### Applications -/

/-- The calls of `session_handler`. -/
inductive Callback (T : Type)
  | established
  | receive (topic : T) (data : Bytes)
  | closed
  deriving DecidableEq

/-- What an application can call on a session. -/
inductive AppCall (T : Type)
  | sendRaw (data : Bytes)
  | send (topic : T) (data : Bytes) (encrypt : Bool)
  | close

/-- What a callback does: calls on the session, then possibly an exception. -/
structure Reaction (T : Type) where
  calls : List (AppCall T) := []
  throws : Bool := false

/-- An application, from the callbacks so far (the last one is running). -/
abbrev Handler (T : Type) := List (Callback T) → Reaction T

/-! ### The object -/

/-- `session<Protocol>` with its socket and its history. -/
structure Session (P : Protocol) where
  accepted : Bool
  handle : ℕ := 0
  protocol : Option P.State := none
  recvBuf : Bytes := []
  sending : Bool := false
  accBufIndex : Fin 2 := 0
  sendBufs : Fin 2 → Bytes := fun _ => []
  -- the socket
  isOpen : Bool := true
  recvPending : Bool := false
  sendPending : Option (Fin 2 × ℕ) := none
  -- the history
  appended : Bytes := []
  written : Bytes := []
  log : List (Callback P.Topic) := []
  sent : List (P.Topic × Bytes × Bool) := []

namespace Session

variable {P : Protocol}

/-- A session that has not started. -/
def new (accepted : Bool) : Session P where
  accepted

/-- `session::is_established`. -/
def isEstablished (s : Session P) : Bool :=
  s.protocol.elim false P.isEstablished

/-! ### Sending -/

/-- Append to the accumulation buffer. -/
def appendAcc (s : Session P) (b : Bytes) : Session P :=
  { s with
    sendBufs := Function.update s.sendBufs s.accBufIndex (s.sendBufs s.accBufIndex ++ b)
    appended := s.appended ++ b }

/-- `session::start_send`: the accumulation buffer becomes the send buffer. -/
def startSend (s : Session P) : Session P :=
  if (s.sendBufs s.accBufIndex).length = 0 then s
  else
    { s with
      sendPending := some (s.accBufIndex, (s.sendBufs s.accBufIndex).length)
      accBufIndex := s.accBufIndex ^^^ 1
      sending := true }

/-- `session::close`. -/
def close (s : Session P) : Session P :=
  if s.isOpen then { s with isOpen := false } else s

/-- `session::send(data, len)`. -/
def sendRaw (s : Session P) (data : Bytes) : Session P :=
  if !s.isOpen then s
  else
    let s := s.appendAcc data
    if !s.sending then s.startSend else s

/-- `session::send(topic, data, len, encrypt)` and its result. -/
def send (s : Session P) (pic : P.Topic) (data : Bytes) (encrypt : Bool) : Session P × Bool :=
  let s := { s with sent := s.sent ++ [(pic, data, encrypt)] }
  if !s.isOpen then (s, false)
  else if P.maxSendSize ≤ data.length then (s, false)
  else if data.length = 0 then (s, false)
  else
    match s.protocol with
    | none => (s, false)
    | some p =>
        match P.encode p pic data encrypt with
        -- the exception is caught, and the session closed
        | (p, .error _) => ({ s with protocol := some p }.close, false)
        | (p, .ok bytes) =>
            let s := { s with protocol := some p }.appendAcc bytes
            (if !s.sending then s.startSend else s, true)

/-- `session::send_handshake`. -/
def sendHandshake (s : Session P) (buf : Bytes) : Session P :=
  if 0 < buf.length then s.sendRaw buf else s

/-! ### Callbacks -/

/-- One call of the application. -/
def appCall (s : Session P) : AppCall P.Topic → Session P
  | .sendRaw data => s.sendRaw data
  | .send pic data encrypt => (s.send pic data encrypt).1
  | .close => s.close

/-- Call the handler: the application runs inside the call. -/
def notify (h : Handler P.Topic) (c : Callback P.Topic) (s : Session P) : Outcome (Session P) :=
  let s := { s with log := s.log ++ [c] }
  -- calls made before an exception have taken effect
  let s' := (h s.log).calls.foldl appCall s
  if (h s.log).throws then .threw s' else .done s'

/-- `session::handle_close`. -/
def handleClose (h : Handler P.Topic) (s : Session P) : Outcome (Session P) :=
  if s.isOpen then
    let s := s.close
    notify h .closed { s with protocol := s.protocol.map P.closed }
  else .done s

/-! ### Completion handlers -/

/-- `session::start_recv`. -/
def startRecv (s : Session P) : Session P :=
  { s with recvPending := true }

/-- How one turn of a loop ends. -/
inductive Turn (σ : Type)
  | next (s : σ)
  | exit (s : σ)

/-- The state at the end of the turn. -/
def Turn.state {σ : Type} : Turn σ → σ
  | next s => s
  | exit s => s

/-- One turn of the loop of `session::recv_frames`. -/
def recvFramesTurn (h : Handler P.Topic) (s : Session P) : Turn (Session P) :=
  if s.recvBuf.length = 0 then .exit s
  else
    match s.protocol with
    | none => .exit s
    | some p =>
        match P.decode p s.recvBuf with
        | (p, .error _) => .exit { s with protocol := some p }.close
        | (p, .ok r) =>
            -- the payload was decrypted in place
            let s := { s with protocol := some p, recvBuf := r.src }
            if 0 < r.consumed then
              match notify h (.receive r.topic r.frame) s with
              -- caught before `consume`: the frame stays in the buffer
              | .threw s => .exit s.close
              | .done s => .next { s with recvBuf := s.recvBuf.drop r.consumed }
            else .exit s

/-- The loop of `session::recv_frames`, at most `k` turns. -/
def recvFramesLoop (h : Handler P.Topic) : ℕ → Session P → Session P
  | 0, s => s
  | k + 1, s =>
      match recvFramesTurn h s with
      | .next s => recvFramesLoop h k s
      | .exit s => s

/-- `session::recv_frames`; its frame count is not used by the callers.  A
turn that goes on consumes a byte, so there are no more turns than bytes. -/
def recvFrames (h : Handler P.Topic) (s : Session P) : Session P :=
  recvFramesLoop h s.recvBuf.length s

/-- The receive completed: its bytes are committed to the receive buffer. -/
def commitRecv (s : Session P) (chunk : Bytes) : Session P :=
  { s with recvPending := false, recvBuf := s.recvBuf ++ chunk }

/-- After a handshake: the protocol as it left it, the used bytes consumed and
the answer sent. -/
def takeHandshake (s : Session P) (p : P.State) (consumedLen : ℕ) (buf : Bytes) : Session P :=
  { s with protocol := some p, recvBuf := s.recvBuf.drop consumedLen }.sendHandshake buf

/-- `session::handle_recv` after a successful receive of `chunk`. -/
def handleRecv (h : Handler P.Topic) (s : Session P) (chunk : Bytes) : Outcome (Session P) :=
  let s := s.commitRecv chunk
  match s.protocol with
  | none => .done s
  | some p =>
      if P.isEstablished p then .done (s.recvFrames h).startRecv
      else
        match P.handshake p s.recvBuf with
        -- not caught here, so that no receive is started
        | (p, .error _) => .threw { s with protocol := some p }
        | (p, .ok (consumedLen, buf)) =>
            let s := s.takeHandshake p consumedLen buf
            if s.isEstablished then
              (notify h .established s).andThen fun s => .done (s.recvFrames h).startRecv
            else .done s.startRecv

/-- `session::handle_recv` after a failed receive. -/
def handleRecvError (h : Handler P.Topic) (s : Session P) : Outcome (Session P) :=
  handleClose h { s with recvPending := false }

/-- `session::handle_send` after `len` bytes of the send buffer were written. -/
def handleSend (s : Session P) (len : ℕ) : Session P :=
  let index := s.accBufIndex ^^^ 1
  -- what was not written stays in this buffer, which `start_send` may make the
  -- accumulation buffer again
  startSend
    { s with
      sendBufs := Function.update s.sendBufs index ((s.sendBufs index).drop len)
      sending := false }

/-- `session::handle_send` after a failed send. -/
def handleSendError (h : Handler P.Topic) (s : Session P) : Outcome (Session P) :=
  handleClose h { s with sendPending := none }

/-- The protocol object that `session::start` makes, told of its role, and the
first handshake bytes. -/
def openProtocol (s : Session P) (handle : ℕ) (e : P.Entropy) : P.State × Bytes :=
  if s.accepted then P.accepted (P.make handle e) else P.connected (P.make handle e)

/-- The first part of `session::start`: make the protocol object and send its
handshake. -/
def launch (s : Session P) (handle : ℕ) (e : P.Entropy) : Session P :=
  let opened := s.openProtocol handle e
  { s with handle, protocol := some opened.1 }.sendHandshake opened.2

/-- `session::start`.  Asking a socket that is closed, or whose peer is gone,
for its remote endpoint raises an exception; `peer` says whether the peer is
still there. -/
def start (h : Handler P.Topic) (s : Session P) (handle : ℕ) (e : P.Entropy) (peer : Bool) :
    Outcome (Session P) :=
  let s := s.launch handle e
  if !(s.isOpen && peer) then .threw s
  else
    let s := s.startRecv
    if s.isEstablished then notify h .established s else .done s

/-! ### Steps -/

/-- One step of a session: `start`, a completion handler, or a call of the
application from outside the callbacks. -/
inductive Step (P : Protocol)
  | start (h : Handler P.Topic) (handle : ℕ) (e : P.Entropy) (peer : Bool)
  | recvDone (h : Handler P.Topic) (chunk : Bytes)
  | recvFailed (h : Handler P.Topic)
  | sendDone (len : ℕ)
  | sendFailed (h : Handler P.Topic)
  | app (c : AppCall P.Topic)

/-- `len` bytes of the outstanding send reach the socket. -/
def write (s : Session P) (index : Fin 2) (len : ℕ) : Session P :=
  { s with sendPending := none, written := s.written ++ (s.sendBufs index).take len }

/-- The step function.  `start` runs once; a completion handler runs while
its operation is outstanding, reporting at least one byte when it succeeds;
the application does not call a session that was not started. -/
def step (s : Session P) : Step P → Option (Session P)
  | .start h handle e peer =>
      if s.protocol.isNone then some (s.start h handle e peer).state else none
  | .recvDone h chunk =>
      if s.recvPending ∧ chunk ≠ [] then some (s.handleRecv h chunk).state else none
  | .recvFailed h => if s.recvPending then some (s.handleRecvError h).state else none
  | .sendDone len =>
      match s.sendPending with
      | none => none
      | some (index, size) =>
          if 0 < len ∧ len ≤ size then some ((s.write index len).handleSend len) else none
  | .sendFailed h => if s.sendPending.isSome then some (s.handleSendError h).state else none
  | .app c => if s.protocol.isSome then some (s.appCall c) else none

/-! ### What a call of the application can change -/

theorem close_eq (s : Session P) : s.close = { s with isOpen := false } := by
  unfold close
  split
  · rfl
  · next h => simp only [Bool.not_eq_true] at h; rw [← h]

/-- `startSend` touches only the three members of the send state. -/
theorem startSend_eq (s : Session P) :
    s.startSend = { s with
      sendPending := s.startSend.sendPending
      accBufIndex := s.startSend.accBufIndex
      sending := s.startSend.sending } := by
  unfold startSend
  split <;> rfl

/-- A value of the protocol that encoding does not change. -/
def Encodes (P : Protocol) {α : Type*} (π : P.State → α) : Prop :=
  ∀ p t d e, π (P.encode p t d e).1 = π p

variable {α : Type*} {π : P.State → α}

/-- The members that no call of the application changes. -/
structure SameRecv (s s' : Session P) : Prop where
  log : s'.log = s.log
  recvBuf : s'.recvBuf = s.recvBuf
  recvPending : s'.recvPending = s.recvPending

theorem SameRecv.refl (s : Session P) : SameRecv s s :=
  ⟨rfl, rfl, rfl⟩

theorem SameRecv.trans {s s' s'' : Session P} (h : SameRecv s s') (h' : SameRecv s' s'') :
    SameRecv s s'' :=
  ⟨h'.log.trans h.log, h'.recvBuf.trans h.recvBuf, h'.recvPending.trans h.recvPending⟩

theorem sameRecv_startSend (s : Session P) : SameRecv s s.startSend := by
  rw [startSend_eq]
  exact ⟨rfl, rfl, rfl⟩

theorem sameRecv_sendRaw (s : Session P) (b : Bytes) : SameRecv s (s.sendRaw b) := by
  unfold sendRaw
  split
  · exact .refl s
  dsimp only
  split
  · refine SameRecv.trans ?_ (sameRecv_startSend _)
    exact ⟨rfl, rfl, rfl⟩
  · exact ⟨rfl, rfl, rfl⟩

/-- The shape of every result of `send`: nothing beyond the history, a
protocol after a failed `encode` with the socket closed, or a protocol after
`encode` with its bytes appended and, if none was outstanding, a send. -/
theorem send_cases (s : Session P) (t : P.Topic) (d : Bytes) (e : Bool) :
    (s.send t d e).1 = { s with sent := s.sent ++ [(t, d, e)] } ∨
    ∃ p, s.protocol = some p ∧ s.isOpen = true ∧
      ((∃ p' err, P.encode p t d e = (p', .error err) ∧
        (s.send t d e).1 =
          { s with sent := s.sent ++ [(t, d, e)], protocol := some p', isOpen := false }) ∨
       (∃ p' bytes, P.encode p t d e = (p', .ok bytes) ∧
        (s.send t d e).1 =
          (let s' := { s with sent := s.sent ++ [(t, d, e)], protocol := some p' }.appendAcc bytes
           if !s'.sending then s'.startSend else s'))) := by
  unfold send
  dsimp only
  split
  · exact .inl rfl
  · next hopen =>
      split
      · exact .inl rfl
      split
      · exact .inl rfl
      rcases hp : s.protocol with - | p
      · exact .inl (by simp)
      · refine .inr ⟨p, rfl, by simpa using hopen, ?_⟩
        rcases he : P.encode p t d e with ⟨p', err | bytes⟩
        · exact .inl ⟨p', err, rfl, by simp [he, close_eq]⟩
        · exact .inr ⟨p', bytes, rfl, by simp only [he]⟩

/-- A `send` that goes through. -/
theorem send_of_encode {s : Session P} {p p' : P.State} {t : P.Topic} {d bytes : Bytes} {e : Bool}
    (ho : s.isOpen = true) (hpos : 0 < d.length) (hmax : d.length < P.maxSendSize)
    (hp : s.protocol = some p) (he : P.encode p t d e = (p', .ok bytes)) :
    (s.send t d e).1.isOpen = true ∧ (s.send t d e).1.protocol = some p' ∧
      (s.send t d e).1.appended = s.appended ++ bytes ∧
      (s.send t d e).1.sent = s.sent ++ [(t, d, e)] := by
  have hsend : (s.send t d e).1 =
      (let s' := { s with sent := s.sent ++ [(t, d, e)], protocol := some p' }.appendAcc bytes
       if !s'.sending then s'.startSend else s') := by
    unfold send
    dsimp only
    rw [if_neg (by simp [ho]), if_neg (by omega), if_neg (by omega), hp]
    dsimp only
    rw [he]
  rw [hsend]
  dsimp only
  split
  · rw [startSend_eq]
    exact ⟨ho, rfl, rfl, rfl⟩
  · exact ⟨ho, rfl, rfl, rfl⟩

theorem sameRecv_send (s : Session P) (t : P.Topic) (d : Bytes) (e : Bool) :
    SameRecv s (s.send t d e).1 := by
  rcases send_cases s t d e with h | ⟨p, -, -, ⟨p', err, -, h⟩ | ⟨p', bytes, -, h⟩⟩ <;> rw [h]
  · exact ⟨rfl, rfl, rfl⟩
  · exact ⟨rfl, rfl, rfl⟩
  · dsimp only
    split
    · refine SameRecv.trans ?_ (sameRecv_startSend _)
      exact ⟨rfl, rfl, rfl⟩
    · exact ⟨rfl, rfl, rfl⟩

theorem sameRecv_appCall (s : Session P) (c : AppCall P.Topic) : SameRecv s (s.appCall c) := by
  cases c with
  | sendRaw b => exact sameRecv_sendRaw s b
  | send t d e => exact sameRecv_send s t d e
  | close => rw [appCall, close_eq]; exact ⟨rfl, rfl, rfl⟩

theorem protocol_sendRaw (s : Session P) (b : Bytes) :
    (s.sendRaw b).protocol = s.protocol := by
  unfold sendRaw
  split
  · rfl
  dsimp only
  split
  · rw [startSend_eq]; rfl
  · rfl

theorem protocol_sendHandshake (s : Session P) (b : Bytes) :
    (s.sendHandshake b).protocol = s.protocol := by
  unfold sendHandshake
  split
  · exact protocol_sendRaw s b
  · rfl

theorem protocol_appCall (hπ : Encodes P π) (s : Session P) (c : AppCall P.Topic) :
    (s.appCall c).protocol.map π = s.protocol.map π := by
  cases c with
  | sendRaw b => rw [appCall, protocol_sendRaw]
  | close => rw [appCall, close_eq]
  | send t d e =>
      rw [appCall]
      rcases send_cases s t d e with h | ⟨p, hp, -, ⟨p', err, he, h⟩ | ⟨p', bytes, he, h⟩⟩ <;>
        rw [h]
      · have := hπ p t d e
        simp [hp, ← this, he]
      · have := hπ p t d e
        dsimp only
        split
        · rw [startSend_eq]
          simp [appendAcc, hp, ← this, he]
        · simp [appendAcc, hp, ← this, he]

/-- A call of the application never opens the socket. -/
theorem isOpen_of_appCall {s : Session P} {c : AppCall P.Topic} (h : (s.appCall c).isOpen = true) :
    s.isOpen = true := by
  cases c with
  | sendRaw b =>
      by_contra hs
      have hs : s.isOpen = false := by simpa using hs
      simp [appCall, sendRaw, hs] at h
  | close => simp [appCall, close_eq] at h
  | send t d e =>
      rw [appCall] at h
      rcases send_cases s t d e with hc | ⟨p, -, ho, -⟩
      · rw [hc] at h; exact h
      · exact ho

/-! ### What a callback can change -/

/-- What every call of the application preserves, a callback preserves. -/
theorem foldl_appCall_invariant {I : Session P → Prop}
    (hcall : ∀ {s} c, I s → I (appCall s c)) {s : Session P} (hs : I s)
    (cs : List (AppCall P.Topic)) : I (cs.foldl appCall s) := by
  induction cs generalizing s with
  | nil => exact hs
  | cons c cs ih => exact ih (hcall c hs)

theorem notify_state (h : Handler P.Topic) (c : Callback P.Topic) (s : Session P) :
    (notify h c s).state =
      (h (s.log ++ [c])).calls.foldl appCall { s with log := s.log ++ [c] } := by
  unfold notify
  dsimp only
  split <;> rfl

theorem throws_of_notify {h : Handler P.Topic} {c : Callback P.Topic} {s s' : Session P}
    (hn : notify h c s = .threw s') : (h (s.log ++ [c])).throws = true := by
  by_contra hne
  simp [notify, hne] at hn

theorem not_throws_of_notify {h : Handler P.Topic} {c : Callback P.Topic} {s s' : Session P}
    (hn : notify h c s = .done s') : (h (s.log ++ [c])).throws = false := by
  by_contra hne
  simp [notify, eq_true_of_ne_false hne] at hn

theorem notify_invariant {I : Session P → Prop} (hcall : ∀ {s} c, I s → I (appCall s c))
    {h : Handler P.Topic} {c : Callback P.Topic} {s : Session P}
    (hs : I { s with log := s.log ++ [c] }) : I (notify h c s).state := by
  rw [notify_state]
  exact foldl_appCall_invariant hcall hs _

theorem sameRecv_notify (h : Handler P.Topic) (c : Callback P.Topic) (s : Session P) :
    SameRecv { s with log := s.log ++ [c] } (notify h c s).state :=
  notify_invariant (I := SameRecv { s with log := s.log ++ [c] })
    (fun c hs => hs.trans (sameRecv_appCall _ c)) (.refl _)

/-- The ways a turn of `recv_frames` can go: there is nothing to decode, the
decoder throws, no frame is complete, or one frame is delivered and the
callback throws or returns. -/
theorem recvFramesTurn_cases (h : Handler P.Topic) (s : Session P) :
    ((s.recvBuf = [] ∨ s.protocol = none) ∧ recvFramesTurn h s = .exit s) ∨
    ∃ p p', s.protocol = some p ∧ s.recvBuf ≠ [] ∧
      ((∃ e, P.decode p s.recvBuf = (p', .error e) ∧
        recvFramesTurn h s = .exit { s with protocol := some p', isOpen := false }) ∨
       ∃ r, P.decode p s.recvBuf = (p', .ok r) ∧
        ((r.consumed = 0 ∧
          recvFramesTurn h s = .exit { s with protocol := some p', recvBuf := r.src }) ∨
         (0 < r.consumed ∧ ∃ s₁,
          notify h (.receive r.topic r.frame) { s with protocol := some p', recvBuf := r.src }
            = .threw s₁ ∧ recvFramesTurn h s = .exit s₁.close) ∨
         (0 < r.consumed ∧ ∃ s₁,
          notify h (.receive r.topic r.frame) { s with protocol := some p', recvBuf := r.src }
            = .done s₁ ∧
          recvFramesTurn h s = .next { s₁ with recvBuf := s₁.recvBuf.drop r.consumed }))) := by
  unfold recvFramesTurn
  by_cases hb : s.recvBuf = []
  · exact .inl ⟨.inl hb, by simp [hb]⟩
  rw [if_neg (by simpa using hb)]
  rcases hp : s.protocol with - | p
  · exact .inl ⟨.inr rfl, rfl⟩
  refine .inr ?_
  rcases hd : P.decode p s.recvBuf with ⟨p', e | r⟩
  · exact ⟨p, p', rfl, hb, .inl ⟨e, hd, by simp [hd, close_eq]⟩⟩
  refine ⟨p, p', rfl, hb, .inr ⟨r, hd, ?_⟩⟩
  by_cases hc : 0 < r.consumed
  · refine .inr ?_
    rcases hn : notify h (.receive r.topic r.frame)
      { s with protocol := some p', recvBuf := r.src } with s₁ | s₁
    · exact .inr ⟨hc, s₁, rfl, by simp [hd, hc, hn]⟩
    · exact .inl ⟨hc, s₁, rfl, by simp [hd, hc, hn]⟩
  · exact .inl ⟨by omega, by simp [hd, hc]⟩

theorem sameRecv_sendHandshake (s : Session P) (b : Bytes) : SameRecv s (s.sendHandshake b) := by
  unfold sendHandshake
  split
  · exact sameRecv_sendRaw s b
  · exact .refl s

/-- Sending handshake bytes on an open socket. -/
theorem sendHandshake_of_isOpen {s : Session P} (ho : s.isOpen = true) (b : Bytes) :
    (s.sendHandshake b).isOpen = true ∧ (s.sendHandshake b).appended = s.appended ++ b ∧
      (s.sendHandshake b).sent = s.sent := by
  unfold sendHandshake
  split
  · unfold sendRaw
    rw [if_neg (by simp [ho])]
    dsimp only
    split
    · rw [startSend_eq]
      exact ⟨ho, rfl, rfl⟩
    · exact ⟨ho, rfl, rfl⟩
  · next hb =>
      have : b = [] := List.length_eq_zero_iff.mp (by omega)
      simp [this, ho]

theorem protocol_takeHandshake (s : Session P) (p : P.State) (n : ℕ) (buf : Bytes) :
    (s.takeHandshake p n buf).protocol = some p := by
  rw [takeHandshake, protocol_sendHandshake]

theorem protocol_launch (s : Session P) (handle : ℕ) (e : P.Entropy) :
    (s.launch handle e).protocol = some (s.openProtocol handle e).1 := by
  rw [launch, protocol_sendHandshake]

/-- The ways `handle_recv` can go: frames are received, or the handshake
throws, establishes the session, or needs more. -/
theorem handleRecv_cases (h : Handler P.Topic) {s : Session P} {p : P.State}
    (hp : s.protocol = some p) (chunk : Bytes) :
    (P.isEstablished p = true ∧
      s.handleRecv h chunk = .done ((s.commitRecv chunk).recvFrames h).startRecv) ∨
    P.isEstablished p = false ∧ ∃ p',
      ((∃ e, P.handshake p (s.recvBuf ++ chunk) = (p', .error e) ∧
        s.handleRecv h chunk = .threw { s.commitRecv chunk with protocol := some p' }) ∨
       ∃ n buf, P.handshake p (s.recvBuf ++ chunk) = (p', .ok (n, buf)) ∧
        ((P.isEstablished p' = true ∧ s.handleRecv h chunk =
          (notify h .established ((s.commitRecv chunk).takeHandshake p' n buf)).andThen
            fun s => .done (s.recvFrames h).startRecv) ∨
         (P.isEstablished p' = false ∧ s.handleRecv h chunk =
          .done ((s.commitRecv chunk).takeHandshake p' n buf).startRecv))) := by
  unfold handleRecv
  have hp' : (s.commitRecv chunk).protocol = some p := hp
  simp only [hp']
  by_cases hest : P.isEstablished p = true
  · exact .inl ⟨hest, if_pos hest⟩
  refine .inr ⟨by simpa using hest, ?_⟩
  rw [if_neg hest]
  rcases hh : P.handshake p (s.commitRecv chunk).recvBuf with ⟨p', e | ⟨n, buf⟩⟩
  · exact ⟨p', .inl ⟨e, hh, rfl⟩⟩
  · refine ⟨p', .inr ⟨n, buf, hh, ?_⟩⟩
    have hnow : ((s.commitRecv chunk).takeHandshake p' n buf).isEstablished
        = P.isEstablished p' := by
      rw [isEstablished, protocol_takeHandshake, Option.elim_some]
    simp only [hnow]
    by_cases hest' : P.isEstablished p' = true
    · exact .inl ⟨hest', if_pos hest'⟩
    · exact .inr ⟨by simpa using hest', if_neg hest'⟩

theorem isEstablished_launch (s : Session P) (handle : ℕ) (e : P.Entropy) :
    (s.launch handle e).startRecv.isEstablished = P.isEstablished (s.openProtocol handle e).1 := by
  show (s.launch handle e).protocol.elim false P.isEstablished = _
  rw [protocol_launch, Option.elim_some]

/-- The ways `start` can go: the peer is gone, the session is established at
once, or the handshake goes on. -/
theorem start_cases (h : Handler P.Topic) (s : Session P) (handle : ℕ) (e : P.Entropy)
    (peer : Bool) :
    s.start h handle e peer = .threw (s.launch handle e) ∨
    (P.isEstablished (s.openProtocol handle e).1 = true ∧
      s.start h handle e peer = notify h .established (s.launch handle e).startRecv) ∨
    (P.isEstablished (s.openProtocol handle e).1 = false ∧
      s.start h handle e peer = .done (s.launch handle e).startRecv) := by
  unfold start
  dsimp only
  rw [isEstablished_launch]
  split
  · exact .inl rfl
  · by_cases hnow : P.isEstablished (s.openProtocol handle e).1 = true
    · exact .inr (.inl ⟨hnow, if_pos hnow⟩)
    · exact .inr (.inr ⟨by simpa using hnow, if_neg hnow⟩)

theorem protocol_notify (hπ : Encodes P π) (h : Handler P.Topic) (c : Callback P.Topic)
    (s : Session P) : (notify h c s).state.protocol.map π = s.protocol.map π :=
  notify_invariant (I := fun s' => s'.protocol.map π = s.protocol.map π)
    (fun c hs => (protocol_appCall hπ _ c).trans hs) rfl

end Session

end Play
