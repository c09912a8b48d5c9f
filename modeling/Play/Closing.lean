/-
Play/Closing.lean

When a session that ends has told its handler so, exactly once.

`handle_close` is the only place that calls `on_closed`, and it does so only
if the socket is still open.  A socket error of the receive or of the send
comes through there, so these ends are notified, and never twice.  The other
ways to end are not:

* `close()` closes the socket itself; the receive that fails because of it
  finds the socket closed in `handle_close` and says nothing.  This is what
  the application does, and what the session does after an exception from
  `encode`, `decode` or `on_receive`;
* an exception from the handshake, or from `on_established` during a receive,
  leaves `handle_recv` before the next receive is started, and `start` leaves
  before the first one if the peer is gone.  A send that is outstanding then can
  still fail and be noticed.  If there is none, or when the last one has been
  written, nothing is outstanding any more, and the socket stays open.

`Orderly` says of a step that it does none of this.  `closedOnce_orderly` has
two halves: in a run of orderly steps a session that is at rest, or closed, was
notified once, in every state; and a run that has come to rest with every session
notified once took orderly steps only.
-/
import Play.Stable

namespace Play

/-- Whether a callback is `on_closed`. -/
def Callback.isClosed {T : Type} : Callback T → Bool
  | .closed => true
  | .established => false
  | .receive _ _ => false

namespace Session

variable {P : Protocol}

/-- How often `on_closed` was called. -/
def closedCount (s : Session P) : ℕ :=
  s.log.countP Callback.isClosed

/-- No completion handler is outstanding. -/
def AtRest (s : Session P) : Prop := s.recvPending = false ∧ s.sendPending = none

/-- A started session whose socket is closed, or that has no receive
outstanding, was notified exactly once when no completion handler is
outstanding. -/
def ClosedOnce (s : Session P) : Prop :=
  s.protocol.isSome = true → (s.isOpen = false ∨ s.recvPending = false) → s.AtRest →
    s.closedCount = 1

/-- A started session whose socket is closed was notified exactly once,
whatever is outstanding. -/
def ClosedTold (s : Session P) : Prop :=
  s.protocol.isSome = true → s.isOpen = false → s.closedCount = 1

/-! ### Steps that keep a session going -/

/-- The call does not close an open socket: it is not `close`, and not a
`send` whose encoding throws. -/
def KeepsOpen (s : Session P) : AppCall P.Topic → Prop
  | .sendRaw _ => True
  | .send t d e => ∀ p ∈ s.protocol, 0 < d.length → d.length < P.maxSendSize →
      ∀ err, (P.encode p t d e).2 ≠ .error err
  | .close => False

/-- None of the calls closes an open socket. -/
def CallsKeepOpen (s : Session P) : List (AppCall P.Topic) → Prop
  | [] => True
  | c :: cs => KeepsOpen s c ∧ CallsKeepOpen (s.appCall c) cs

/-- The application does not close the socket in the callback `c`. -/
def CallbackKeepsOpen (h : Handler P.Topic) (c : Callback P.Topic) (s : Session P) : Prop :=
  CallsKeepOpen { s with log := s.log ++ [c] } (h (s.log ++ [c])).calls

/-- The frame at the front of the buffer, if it is complete, is decoded and
received without an exception, and the application does not close the
socket. -/
def TurnKeepsOpen (h : Handler P.Topic) (s : Session P) : Prop :=
  ∀ p ∈ s.protocol, s.recvBuf ≠ [] →
    match P.decode p s.recvBuf with
    | (_, .error _) => False
    | (p', .ok r) => 0 < r.consumed →
        (h (s.log ++ [.receive r.topic r.frame])).throws = false ∧
        CallbackKeepsOpen h (.receive r.topic r.frame)
          { s with protocol := some p', recvBuf := r.src }

/-- The same for the first `k` frames in the buffer. -/
def FramesKeepOpen (h : Handler P.Topic) : ℕ → Session P → Prop
  | 0, _ => True
  | k + 1, s => TurnKeepsOpen h s ∧ ∀ s', recvFramesTurn h s = .next s' → FramesKeepOpen h k s'

/-- The call has bytes to send. -/
def CallSends (s : Session P) : AppCall P.Topic → Prop
  | .sendRaw b => b ≠ []
  | .send t d e => ∃ p ∈ s.protocol, 0 < d.length ∧ d.length < P.maxSendSize ∧
      ∃ bytes, (P.encode p t d e).2 = .ok bytes ∧ bytes ≠ []
  | .close => False

/-- One of the calls has bytes to send. -/
def CallsSend (s : Session P) : List (AppCall P.Topic) → Prop
  | [] => False
  | c :: cs => CallSends s c ∨ CallsSend (s.appCall c) cs

/-- The application sends something in the callback `c`. -/
def CallbackSends (h : Handler P.Topic) (c : Callback P.Topic) (s : Session P) : Prop :=
  CallsSend { s with log := s.log ++ [c] } (h (s.log ++ [c])).calls

/-- A receive on an open socket goes on with the next one, or leaves a send
outstanding. -/
def RecvGoesOn (h : Handler P.Topic) (s : Session P) (chunk : Bytes) : Prop :=
  ∀ p ∈ s.protocol,
    if P.isEstablished p then FramesKeepOpen h (s.recvBuf ++ chunk).length (s.commitRecv chunk)
    else
      match P.handshake p (s.recvBuf ++ chunk) with
      | (_, .error _) => s.sendPending.isSome = true
      | (p', .ok (n, buf)) => P.isEstablished p' = true →
          let s₁ := (s.commitRecv chunk).takeHandshake p' n buf
          let s₂ := (notify h .established s₁).state
          CallbackKeepsOpen h .established s₁ ∧
          if (h (s.log ++ [.established])).throws then
            s.sendPending.isSome = true ∨ buf ≠ [] ∨ CallbackSends h .established s₁
          else FramesKeepOpen h s₂.recvBuf.length s₂

/-- The step does not end the session other than by a socket error. -/
def Orderly (s : Session P) : Step P → Prop
  | .start h handle e peer => (peer = true ∨ (s.openProtocol handle e).2 ≠ []) ∧
      (peer = true → P.isEstablished (s.openProtocol handle e).1 = true →
        CallbackKeepsOpen h .established (s.launch handle e).startRecv)
  | .recvDone h chunk => s.isOpen = true → RecvGoesOn h s chunk
  | .sendDone _ => s.isOpen = true → s.recvPending = false → s.sendBufs s.accBufIndex ≠ []
  | .app c => s.isOpen = true → KeepsOpen s c
  | .recvFailed _ | .sendFailed _ => True

/-! ### Properties that no step but a close notice touches -/

/-- The session was started and was told `n` times that it is closed. -/
def Told (n : ℕ) (s : Session P) : Prop :=
  s.protocol.isSome = true ∧ s.closedCount = n

/-- The socket is closed and stays closed. -/
def Shut (n : ℕ) (s : Session P) : Prop :=
  s.isOpen = false ∧ Told n s

theorem isSome_appCall (s : Session P) (c : AppCall P.Topic) :
    (s.appCall c).protocol.isSome = s.protocol.isSome := by
  have h := protocol_appCall (π := fun _ => ()) (fun _ _ _ _ => rfl) s c
  simpa using congrArg Option.isSome h

theorem closedCount_appCall (s : Session P) (c : AppCall P.Topic) :
    (s.appCall c).closedCount = s.closedCount := by
  rw [closedCount, closedCount, (sameRecv_appCall s c).log]

theorem closedCount_log {s : Session P} {c : Callback P.Topic} (hc : c ≠ .closed) :
    closedCount { s with log := s.log ++ [c] } = s.closedCount := by
  cases c with
  | closed => exact absurd rfl hc
  | established => simp [closedCount, Callback.isClosed]
  | receive t d => simp [closedCount, Callback.isClosed]

theorem told_stable (n : ℕ) : Stable (Told (P := P) n) where
  set hs _ _ _ _ hp := ⟨hp hs.1, hs.2⟩
  log hs hc := ⟨hs.1, (closedCount_log hc).trans hs.2⟩
  call c hs := ⟨(isSome_appCall _ c).trans hs.1, (closedCount_appCall _ c).trans hs.2⟩

theorem isOpen_appCall_of_shut {s : Session P} (hs : s.isOpen = false) (c : AppCall P.Topic) :
    (s.appCall c).isOpen = false := by
  by_contra ho
  rw [isOpen_of_appCall (by simpa using ho)] at hs
  cases hs

theorem shut_stable (n : ℕ) : Stable (Shut (P := P) n) where
  set hs _ _ _ _ hp := ⟨hs.1, (told_stable n).set hs.2 _ _ _ _ hp⟩
  log hs hc := ⟨hs.1, (told_stable n).log hs.2 hc⟩
  call c hs := ⟨isOpen_appCall_of_shut hs.1 c, (told_stable n).call c hs.2⟩

/-! ### Whether the socket stays open -/

/-- Appending, and handing the buffer over, leaves the socket alone. -/
theorem isOpen_append (s : Session P) (b : Bytes) :
    (if !(s.appendAcc b).sending then (s.appendAcc b).startSend else s.appendAcc b).isOpen
      = s.isOpen := by
  split
  · rw [startSend_eq]; rfl
  · rfl

theorem isOpen_sendRaw (s : Session P) (b : Bytes) : (s.sendRaw b).isOpen = s.isOpen := by
  unfold sendRaw
  split
  · rfl
  · exact isOpen_append s b

theorem isOpen_send_iff {s : Session P} (ho : s.isOpen = true) (t : P.Topic) (d : Bytes)
    (e : Bool) : (s.send t d e).1.isOpen = true ↔ KeepsOpen s (.send t d e) := by
  unfold send
  dsimp only [KeepsOpen]
  rw [if_neg (by simp [ho])]
  by_cases hmax : P.maxSendSize ≤ d.length
  · rw [if_pos hmax]
    exact iff_of_true ho fun p _ _ hlt => absurd hmax (by omega)
  by_cases hzero : d.length = 0
  · rw [if_neg hmax, if_pos hzero]
    exact iff_of_true ho fun p _ hpos => absurd hzero (by omega)
  rw [if_neg hmax, if_neg hzero]
  rcases hp : s.protocol with - | p
  · exact iff_of_true ho fun p hp => by (cases hp)
  simp only [Option.mem_def, Option.some.injEq, forall_eq']
  rcases he : P.encode p t d e with ⟨p', err | bytes⟩
  · refine iff_of_false (by simp [close_eq]) fun hall => ?_
    exact hall (by omega) (by omega) err rfl
  · refine iff_of_true ?_ fun _ _ err h => by (cases h)
    let s₁ : Session P := { s with sent := s.sent ++ [(t, d, e)], protocol := some p' }
    exact (isOpen_append s₁ bytes).trans ho

theorem isOpen_appCall_iff {s : Session P} (ho : s.isOpen = true) (c : AppCall P.Topic) :
    (s.appCall c).isOpen = true ↔ KeepsOpen s c := by
  cases c with
  | sendRaw b => exact iff_of_true ((isOpen_sendRaw s b).trans ho) trivial
  | close => simp [appCall, close_eq, KeepsOpen]
  | send t d e => exact isOpen_send_iff ho t d e

theorem isOpen_foldl_iff {s : Session P} (ho : s.isOpen = true) (cs : List (AppCall P.Topic)) :
    (cs.foldl appCall s).isOpen = true ↔ CallsKeepOpen s cs := by
  induction cs generalizing s with
  | nil => exact iff_of_true ho trivial
  | cons c cs ih =>
      rw [List.foldl_cons, CallsKeepOpen, ← isOpen_appCall_iff ho]
      by_cases hc : (s.appCall c).isOpen = true
      · rw [ih hc]
        exact (and_iff_right hc).symm
      · -- no later call opens the socket again
        have hstay : (cs.foldl appCall (s.appCall c)).isOpen = false :=
          foldl_appCall_invariant (I := fun s => s.isOpen = false)
            (fun c hs => isOpen_appCall_of_shut hs c) (by simpa using hc) cs
        simp [hstay, hc]

theorem isOpen_notify_iff {s : Session P} (ho : s.isOpen = true) (h : Handler P.Topic)
    (c : Callback P.Topic) :
    (notify h c s).state.isOpen = true ↔ CallbackKeepsOpen h c s := by
  rw [notify_state]
  exact isOpen_foldl_iff (s := { s with log := s.log ++ [c] }) ho _

/-- `TurnKeepsOpen` where the decoder has an answer. -/
theorem turnKeepsOpen_iff {s : Session P} {p p' : P.State} (hp : s.protocol = some p)
    (hb : s.recvBuf ≠ []) {r : DecodeResult P.Topic} (hd : P.decode p s.recvBuf = (p', .ok r))
    (h : Handler P.Topic) :
    TurnKeepsOpen h s ↔
      (0 < r.consumed → (h (s.log ++ [.receive r.topic r.frame])).throws = false ∧
        CallbackKeepsOpen h (.receive r.topic r.frame)
          { s with protocol := some p', recvBuf := r.src }) := by
  constructor
  · intro hall
    have := hall p hp hb
    rwa [hd] at this
  · intro hr q hq _
    obtain rfl := Option.some.inj (hp.symm.trans hq)
    rwa [hd]

theorem isOpen_turn_iff {s : Session P} (ho : s.isOpen = true) (h : Handler P.Topic) :
    (recvFramesTurn h s).state.isOpen = true ↔ TurnKeepsOpen h s := by
  rcases recvFramesTurn_cases h s with ⟨hnone, ht⟩ |
    ⟨p, p', hp, hb, ⟨e, hd, ht⟩ | ⟨r, hd, hr⟩⟩
  · rw [ht]
    refine iff_of_true ho fun p hp hb => ?_
    rcases hnone with hnone | hnone
    · exact absurd hnone hb
    · simp [hnone] at hp
  · rw [ht]
    refine iff_of_false (by simp [Turn.state]) fun hall => ?_
    have := hall p hp hb
    rwa [hd] at this
  · rw [turnKeepsOpen_iff hp hb hd h]
    have hiff := isOpen_notify_iff (s := { s with protocol := some p', recvBuf := r.src }) ho h
      (.receive r.topic r.frame)
    rcases hr with ⟨hc, ht⟩ | ⟨hc, s₁, hs₁, ht⟩ | ⟨hc, s₁, hs₁, ht⟩ <;> rw [ht]
    · exact iff_of_true ho fun hpos => absurd hpos (by omega)
    · -- `recv_frames` catches what `on_receive` throws and closes
      have hthrows := throws_of_notify hs₁
      refine iff_of_false (by simp [Turn.state, close_eq]) fun hall => ?_
      rw [(hall hc).1] at hthrows
      cases hthrows
    · have hthrows := not_throws_of_notify hs₁
      rw [hs₁] at hiff
      exact ⟨fun h _ => ⟨hthrows, hiff.mp h⟩, fun hall => hiff.mpr (hall hc).2⟩

theorem isOpen_loop_of_shut {s : Session P} (hs : s.isOpen = false) (h : Handler P.Topic) (k : ℕ) :
    (recvFramesLoop h k s).isOpen = false :=
  Stable.recvFramesLoop (I := fun s => s.isOpen = false)
    ⟨fun hs _ _ _ _ _ => hs, fun hs _ => hs, fun c hs => isOpen_appCall_of_shut hs c⟩ hs h k

theorem isOpen_loop_iff {s : Session P} (ho : s.isOpen = true) (h : Handler P.Topic) (k : ℕ) :
    (recvFramesLoop h k s).isOpen = true ↔ FramesKeepOpen h k s := by
  induction k generalizing s with
  | zero => exact iff_of_true ho trivial
  | succ k ih =>
      have hturn := isOpen_turn_iff ho h
      rw [recvFramesLoop, FramesKeepOpen, ← hturn]
      rcases ht : recvFramesTurn h s with s' | s'
      · by_cases ho' : s'.isOpen = true
        · simp [Turn.state, ih ho', ho']
        · -- closed in the callback: the turns that follow do not open it again
          simp [Turn.state, ho', isOpen_loop_of_shut (s := s') (by simpa using ho') h k]
      · simp [Turn.state]

/-- `recv_frames` on a session whose socket may be closed already. -/
theorem isOpen_recvFrames_iff (h : Handler P.Topic) (s : Session P) :
    (s.recvFrames h).isOpen = true ↔ s.isOpen = true ∧ FramesKeepOpen h s.recvBuf.length s := by
  by_cases ho : s.isOpen = true
  · rw [and_iff_right ho]
    exact isOpen_loop_iff ho h _
  · have hstay : (s.recvFrames h).isOpen = false := isOpen_loop_of_shut (by simpa using ho) h _
    exact iff_of_false (ne_true_of_eq_false hstay) fun h => ho h.1

/-! ### Whether a send is outstanding -/

/-- While the socket is open, `sending_` tells whether a send is outstanding,
and what is to be sent is sent at once if none is. -/
structure SendSync (s : Session P) : Prop where
  flag : s.sending = s.sendPending.isSome
  empty : s.sending = false → s.sendBufs s.accBufIndex = []

/-- `start_send` starts a send if there is something to send. -/
theorem isSome_startSend_iff {s : Session P} (hp : s.sendPending = none) :
    s.startSend.sendPending.isSome = true ↔ s.sendBufs s.accBufIndex ≠ [] := by
  unfold startSend
  split
  · next hb => simp [hp, List.length_eq_zero_iff.mp hb]
  · next hb => simpa using hb

theorem SendSync.startSend {s : Session P} (hs : s.sending = false) (hp : s.sendPending = none) :
    SendSync s.startSend := by
  unfold Session.startSend
  split
  · next hb => exact ⟨by rw [hs, hp]; rfl, fun _ => List.length_eq_zero_iff.mp hb⟩
  · exact ⟨rfl, fun h => absurd h (by simp)⟩

theorem SendSync.pending_eq_none {s : Session P} (h : SendSync s) (hs : s.sending = false) :
    s.sendPending = none := by
  have := h.flag
  rw [hs] at this
  exact Option.isNone_iff_eq_none.mp (Option.isSome_eq_false_iff.mp this.symm)

theorem SendSync.append {s : Session P} (h : SendSync s) (b : Bytes) :
    SendSync (if !(s.appendAcc b).sending then (s.appendAcc b).startSend else s.appendAcc b) := by
  rcases hs : s.sending with - | -
  · rw [if_pos (by simp [appendAcc, hs])]
    exact .startSend hs (h.pending_eq_none hs)
  · rw [if_neg (by simp [appendAcc, hs])]
    exact ⟨h.flag, fun hno => absurd (hno.symm.trans hs) Bool.false_ne_true⟩

theorem isSome_append_iff {s : Session P} (h : SendSync s) (b : Bytes) :
    (if !(s.appendAcc b).sending then (s.appendAcc b).startSend
      else s.appendAcc b).sendPending.isSome = true ↔ s.sendPending.isSome = true ∨ b ≠ [] := by
  have hflag := h.flag
  rcases hs : s.sending with - | - <;> rw [hs] at hflag
  · have hnone : (s.appendAcc b).sendPending = none := h.pending_eq_none hs
    rw [if_pos (by simp [appendAcc, hs]), isSome_startSend_iff hnone, ← hflag]
    simp [appendAcc, h.empty hs]
  · rw [if_neg (by simp [appendAcc, hs])]
    exact iff_of_true hflag.symm (.inl hflag.symm)

theorem SendSync.appCall {s : Session P} (c : AppCall P.Topic) (h : SendSync s) :
    SendSync (s.appCall c) := by
  cases c with
  | close =>
      rw [Session.appCall, close_eq]
      exact ⟨h.flag, h.empty⟩
  | sendRaw b =>
      rw [Session.appCall, sendRaw]
      split
      · exact h
      · exact h.append b
  | send t d e =>
      rw [Session.appCall]
      rcases send_cases s t d e with hc | ⟨p, -, -, ⟨p', err, -, hc⟩ | ⟨p', bytes, -, hc⟩⟩ <;>
        rw [hc]
      · exact ⟨h.flag, h.empty⟩
      · exact ⟨h.flag, h.empty⟩
      · refine SendSync.append (s := { s with sent := _, protocol := _ }) ?_ bytes
        exact ⟨h.flag, h.empty⟩

theorem sendSync_stable : Stable (SendSync (P := P)) where
  set hs _ _ _ _ _ := ⟨hs.flag, hs.empty⟩
  log hs _ := ⟨hs.flag, hs.empty⟩
  call := SendSync.appCall

theorem isSome_sendRaw_iff {s : Session P} (h : SendSync s) (ho : s.isOpen = true) (b : Bytes) :
    (s.sendRaw b).sendPending.isSome = true ↔ s.sendPending.isSome = true ∨ b ≠ [] := by
  rw [sendRaw, if_neg (by simp [ho])]
  exact isSome_append_iff h b

theorem isSome_sendHandshake_iff {s : Session P} (h : SendSync s) (ho : s.isOpen = true)
    (b : Bytes) :
    (s.sendHandshake b).sendPending.isSome = true ↔ s.sendPending.isSome = true ∨ b ≠ [] := by
  unfold sendHandshake
  split
  · exact isSome_sendRaw_iff h ho b
  · next hb => simp [show b = [] from List.length_eq_zero_iff.mp (by omega)]

theorem isSome_takeHandshake_iff {s : Session P} (h : SendSync s) (ho : s.isOpen = true)
    (p : P.State) (n : ℕ) (buf : Bytes) :
    (s.takeHandshake p n buf).sendPending.isSome = true ↔
      s.sendPending.isSome = true ∨ buf ≠ [] := by
  have hset : SendSync { s with protocol := some p, recvBuf := s.recvBuf.drop n } :=
    ⟨h.flag, h.empty⟩
  exact isSome_sendHandshake_iff hset ho buf

/-- A call that keeps the socket open leaves a send outstanding if one was, or
if it has something to send. -/
theorem isSome_appCall_iff {s : Session P} (h : SendSync s) (ho : s.isOpen = true)
    {c : AppCall P.Topic} (hc : KeepsOpen s c) :
    (s.appCall c).sendPending.isSome = true ↔ s.sendPending.isSome = true ∨ CallSends s c := by
  cases c with
  | close => exact absurd hc id
  | sendRaw b => exact isSome_sendRaw_iff h ho b
  | send t d e =>
      by_cases hlen : 0 < d.length ∧ d.length < P.maxSendSize
      · rcases hp : s.protocol with - | p
        · rw [appCall, send, if_neg (by simp [ho]), if_neg (by omega), if_neg (by omega)]
          simp [hp, CallSends]
        rcases he : P.encode p t d e with ⟨p', err | bytes⟩
        · exact absurd (by rw [he]) (hc p hp hlen.1 hlen.2 err)
        have hsends : CallSends s (.send t d e) ↔ bytes ≠ [] := by
          simp [CallSends, hp, hlen.1, hlen.2, he]
        rw [hsends, appCall, send, if_neg (by simp [ho]), if_neg (by omega), if_neg (by omega)]
        simp only [hp, he]
        refine isSome_append_iff (s := { s with sent := _, protocol := _ }) ?_ bytes
        exact ⟨h.flag, h.empty⟩
      · have hno : ¬ CallSends s (.send t d e) := by
          rintro ⟨p, -, hpos, hmax, -⟩
          exact hlen ⟨hpos, hmax⟩
        have hsame : (s.send t d e).1.sendPending = s.sendPending := by
          rw [send, if_neg (by simp [ho])]
          split
          · rfl
          · rw [if_pos (by omega)]
        rw [appCall, hsame]
        exact (or_iff_left hno).symm

theorem isSome_foldl_iff {s : Session P} (h : SendSync s) (ho : s.isOpen = true)
    {cs : List (AppCall P.Topic)} (hcs : CallsKeepOpen s cs) :
    (cs.foldl appCall s).sendPending.isSome = true ↔
      s.sendPending.isSome = true ∨ CallsSend s cs := by
  induction cs generalizing s with
  | nil => exact (or_iff_left id).symm
  | cons c cs ih =>
      have ho' := (isOpen_appCall_iff ho c).mpr hcs.1
      rw [List.foldl_cons, ih (h.appCall c) ho' hcs.2, isSome_appCall_iff h ho hcs.1, or_assoc]
      rfl

theorem isSome_notify_iff {s : Session P} (hs : SendSync s) (ho : s.isOpen = true)
    {h : Handler P.Topic} {c : Callback P.Topic} (hc : CallbackKeepsOpen h c s) :
    (notify h c s).state.sendPending.isSome = true ↔
      s.sendPending.isSome = true ∨ CallbackSends h c s := by
  rw [notify_state]
  have hs' : SendSync { s with log := s.log ++ [c] } := ⟨hs.flag, hs.empty⟩
  exact isSome_foldl_iff hs' ho hc

/-! ### The three stages of an orderly run -/

/-- Not started yet. -/
structure Fresh (s : Session P) : Prop where
  protocol : s.protocol = none
  isOpen : s.isOpen = true
  recvPending : s.recvPending = false
  sendPending : s.sendPending = none
  sync : SendSync s
  untold : s.closedCount = 0

/-- Started, open, and waiting for a receive or a send. -/
structure Waits (s : Session P) : Prop where
  isOpen : s.isOpen = true
  pending : s.recvPending = true ∨ s.sendPending.isSome = true
  sync : SendSync s
  untold : Told 0 s

/-- Not started, waiting, or closed and notified once. -/
def CloseInv (s : Session P) : Prop :=
  Fresh s ∨ Waits s ∨ Shut 1 s

/-- Closed without a notice, or open and never to be closed. -/
def Lost (s : Session P) : Prop :=
  Told 0 s ∧ (s.isOpen = false ∨ s.AtRest)

variable {s s' : Session P}

theorem CloseInv.closedOnce (hs : CloseInv s) : ClosedOnce s := by
  rintro hp hend ⟨hr, hsend⟩
  rcases hs with hs | hs | hs
  · simp [hs.protocol] at hp
  · have := hs.pending
    simp [hr, hsend] at this
  · exact hs.2.2

theorem CloseInv.closedTold (hs : CloseInv s) : ClosedTold s := by
  intro hp hclosed
  rcases hs with hs | hs | hs
  · simp [hs.protocol] at hp
  · simp [hs.isOpen] at hclosed
  · exact hs.2.2

theorem told_startRecv {n : ℕ} (hs : Told n s) : Told n s.startRecv :=
  (told_stable n).startRecv hs

/-- An open socket with something outstanding, or a lost session. -/
theorem waits_or_lost (htold : Told 0 s) (hsync : SendSync s) {G : Prop}
    (hiff : s.isOpen = true ∧ (s.recvPending = true ∨ s.sendPending.isSome = true) ↔ G) :
    (G → CloseInv s) ∧ (¬ G → Lost s) := by
  refine ⟨fun hG => ?_, fun hG => ⟨htold, ?_⟩⟩
  · obtain ⟨ho, hpend⟩ := hiff.mpr hG
    exact .inr (.inl ⟨ho, hpend, hsync, htold⟩)
  · by_cases ho : s.isOpen = true
    · have hno : ¬ (s.recvPending = true ∨ s.sendPending.isSome = true) :=
        fun hpend => hG (hiff.mp ⟨ho, hpend⟩)
      rw [not_or] at hno
      exact .inr ⟨by simpa using hno.1, by simpa using hno.2⟩
    · exact .inl (by simpa using ho)

/-- With a receive outstanding, everything hinges on the socket. -/
theorem waits_or_lost_of_recv (htold : Told 0 s) (hsync : SendSync s) (hr : s.recvPending = true)
    {G : Prop} (hiff : s.isOpen = true ↔ G) : (G → CloseInv s) ∧ (¬ G → Lost s) :=
  waits_or_lost htold hsync ((and_iff_left (.inl hr)).trans hiff)

theorem Waits.handleClose (hs : Waits s) (h : Handler P.Topic) {r : Bool}
    {o : Option (Fin 2 × ℕ)} :
    CloseInv (Session.handleClose h { s with recvPending := r, sendPending := o }).state := by
  rw [Session.handleClose, if_pos hs.isOpen, close_eq]
  have hshut : Shut 1
      { s with
        recvPending := r, sendPending := o, isOpen := false, log := s.log ++ [.closed]
        protocol := s.protocol.map P.closed } := by
    refine ⟨rfl, by simpa using hs.untold.1, ?_⟩
    have := hs.untold.2
    simp only [closedCount] at this
    simp [closedCount, this, Callback.isClosed]
  exact .inr (.inr (notify_invariant (shut_stable 1).call hshut))

theorem recvGoesOn_iff {p : P.State} (hp : s.protocol = some p) (h : Handler P.Topic)
    (chunk : Bytes) :
    RecvGoesOn h s chunk ↔
      if P.isEstablished p then FramesKeepOpen h (s.recvBuf ++ chunk).length (s.commitRecv chunk)
      else
        match P.handshake p (s.recvBuf ++ chunk) with
        | (_, .error _) => s.sendPending.isSome = true
        | (p', .ok (n, buf)) => P.isEstablished p' = true →
            let s₁ := (s.commitRecv chunk).takeHandshake p' n buf
            let s₂ := (notify h .established s₁).state
            CallbackKeepsOpen h .established s₁ ∧
            if (h (s.log ++ [.established])).throws then
              s.sendPending.isSome = true ∨ buf ≠ [] ∨ CallbackSends h .established s₁
            else FramesKeepOpen h s₂.recvBuf.length s₂ := by
  simp only [RecvGoesOn, hp, Option.mem_def, Option.some.injEq, forall_eq']

/-- A receive on a waiting session: it goes on exactly if `RecvGoesOn`. -/
theorem Waits.handleRecv (hs : Waits s) (h : Handler P.Topic) (chunk : Bytes) :
    (RecvGoesOn h s chunk → CloseInv (s.handleRecv h chunk).state) ∧
      (¬ RecvGoesOn h s chunk → Lost (s.handleRecv h chunk).state) := by
  obtain ⟨p, hp⟩ := Option.isSome_iff_exists.mp hs.untold.1
  have htold := (told_stable 0).handleRecv hs.untold h chunk
  have hsync := sendSync_stable.handleRecv hs.sync h chunk
  rw [recvGoesOn_iff hp]
  rcases handleRecv_cases h hp chunk with ⟨hest, hr⟩ |
    ⟨hest, p', ⟨e, hh, hr⟩ | ⟨n, buf, hh, hcase⟩⟩
  · rw [if_pos hest]
    rw [hr] at htold hsync ⊢
    exact waits_or_lost_of_recv htold hsync rfl
      (isOpen_loop_iff (s := s.commitRecv chunk) hs.isOpen h _)
  · -- the handshake throws, and only a send can be outstanding after it
    rw [if_neg (by simp [hest]), hh]
    rw [hr] at htold hsync ⊢
    refine waits_or_lost htold hsync ⟨fun hopen => ?_, fun hsend => ⟨hs.isOpen, .inr hsend⟩⟩
    exact hopen.2.resolve_left (absurd · Bool.false_ne_true)
  · have hsame := sameRecv_sendHandshake
      { s.commitRecv chunk with protocol := some p', recvBuf := (s.recvBuf ++ chunk).drop n } buf
    have hopen : ((s.commitRecv chunk).takeHandshake p' n buf).isOpen = true :=
      (sendHandshake_of_isOpen (s := { s.commitRecv chunk with protocol := _, recvBuf := _ })
        hs.isOpen buf).1
    have hsync₀ : SendSync (s.commitRecv chunk) := ⟨hs.sync.flag, hs.sync.empty⟩
    rw [if_neg (by simp [hest]), hh]
    dsimp only
    rcases hcase with ⟨hnow, hr⟩ | ⟨hnow, hr⟩ <;> rw [hr] at htold hsync ⊢
    · -- `on_established` is running: it may throw or close
      have hiff := isOpen_notify_iff hopen h .established
      have hlog : ((s.commitRecv chunk).takeHandshake p' n buf).log = s.log := hsame.log
      rcases hn : notify h .established ((s.commitRecv chunk).takeHandshake p' n buf)
        with s₁ | s₁ <;> rw [hn] at htold hsync
      · have hthrows := not_throws_of_notify hn
        rw [hlog] at hthrows
        rw [hn] at hiff
        refine waits_or_lost_of_recv htold hsync rfl ?_
        simp only [hnow, hthrows, ← hiff, Outcome.state_done, forall_const, Bool.false_eq_true,
          if_false]
        exact isOpen_recvFrames_iff h s₁
      · -- nobody catches it here, and the next receive is not started
        have hthrows := throws_of_notify hn
        rw [hlog] at hthrows
        have hpend : s₁.recvPending = false := by
          have := (sameRecv_notify h .established
            ((s.commitRecv chunk).takeHandshake p' n buf)).recvPending
          rw [hn] at this
          exact this.trans hsame.recvPending
        refine waits_or_lost htold hsync ?_
        simp only [hnow, hthrows, forall_const, if_true, Outcome.andThen, Outcome.state_threw,
          hpend, Bool.false_eq_true, false_or]
        rw [hn] at hiff
        rw [← hiff]
        refine and_congr_right fun hstays => ?_
        have hkeep := hiff.mp hstays
        have hsend :=
          isSome_notify_iff (sendSync_stable.takeHandshake hsync₀ p' n buf) hopen hkeep
        rw [hn, isSome_takeHandshake_iff hsync₀ hs.isOpen, or_assoc] at hsend
        exact hsend
    · refine waits_or_lost_of_recv htold hsync rfl (iff_of_true hopen ?_)
      intro h
      rw [hnow] at h
      cases h

theorem SendSync.handleSend {len : ℕ} {index : Fin 2} :
    SendSync ((s.write index len).handleSend len) :=
  .startSend rfl rfl

/-- The send is done; another one is outstanding if there was more to send. -/
theorem isSome_handleSend_iff {len : ℕ} {index : Fin 2} :
    ((s.write index len).handleSend len).sendPending.isSome = true ↔
      s.sendBufs s.accBufIndex ≠ [] := by
  have hother : s.accBufIndex ≠ s.accBufIndex ^^^ 1 := by
    generalize s.accBufIndex = i
    revert i
    decide
  rw [Session.handleSend, isSome_startSend_iff rfl]
  show Function.update s.sendBufs (s.accBufIndex ^^^ 1) _ s.accBufIndex ≠ [] ↔ _
  rw [Function.update_of_ne hother]

/-- A step of a waiting session is orderly, and the session waits or was
notified after it, or it is not, and the session is lost. -/
theorem Waits.step {l : Step P} (hs : Waits s) (hstep : s.step l = some s') :
    (Orderly s l → CloseInv s') ∧ (¬ Orderly s l → Lost s') := by
  cases l with
  | start h handle e peer =>
      have := hs.untold.1
      simp only [Session.step, Option.ite_none_right_eq_some, Option.some.injEq] at hstep
      simp [Option.isNone_iff_eq_none.mp hstep.1] at this
  | recvDone h chunk =>
      simp only [Session.step, Option.ite_none_right_eq_some, Option.some.injEq] at hstep
      rw [← hstep.2]
      simpa [Orderly, hs.isOpen] using hs.handleRecv h chunk
  | recvFailed h =>
      simp only [Session.step, Option.ite_none_right_eq_some, Option.some.injEq] at hstep
      rw [← hstep.2]
      exact ⟨fun _ => hs.handleClose h, fun hn => absurd trivial hn⟩
  | sendDone len =>
      simp only [Session.step] at hstep
      split at hstep
      · cases hstep
      · next index size hp =>
          simp only [Option.ite_none_right_eq_some, Option.some.injEq] at hstep
          obtain ⟨-, rfl⟩ := hstep
          have hrecv : ((s.write index len).handleSend len).recvPending = s.recvPending := by
            rw [handleSend, startSend_eq]
            rfl
          have hopen : ((s.write index len).handleSend len).isOpen = true := by
            rw [handleSend, startSend_eq]
            exact hs.isOpen
          have htold : Told 0 ((s.write index len).handleSend len) := by
            rw [handleSend, startSend_eq]
            exact hs.untold
          refine waits_or_lost htold .handleSend ?_
          rw [hrecv, isSome_handleSend_iff, and_iff_right hopen]
          rcases hr : s.recvPending with - | - <;> simp [Orderly, hs.isOpen, hr]
  | sendFailed h =>
      simp only [Session.step, Option.ite_none_right_eq_some, Option.some.injEq] at hstep
      rw [← hstep.2]
      exact ⟨fun _ => hs.handleClose h, fun hn => absurd trivial hn⟩
  | app c =>
      simp only [Session.step, Option.ite_none_right_eq_some, Option.some.injEq] at hstep
      rw [← hstep.2]
      have hiff := isOpen_appCall_iff hs.isOpen c
      refine waits_or_lost ((told_stable 0).call c hs.untold) (hs.sync.appCall c) ?_
      rw [(sameRecv_appCall s c).recvPending, hiff]
      simp only [Orderly, hs.isOpen, forall_const]
      refine and_iff_left_of_imp fun hkeep => ?_
      exact hs.pending.imp_right fun hsend =>
        (isSome_appCall_iff hs.sync hs.isOpen hkeep).mpr (.inl hsend)

/-- The same for the first step, which is `start`. -/
theorem Fresh.step {l : Step P} (hs : Fresh s) (hstep : s.step l = some s') :
    (Orderly s l → CloseInv s') ∧ (¬ Orderly s l → Lost s') := by
  cases l with
  | start h handle e peer =>
      simp only [Session.step, Option.ite_none_right_eq_some, Option.some.injEq] at hstep
      rw [← hstep.2]
      set s₀ : Session P := { s with handle, protocol := some (s.openProtocol handle e).1 }
      have hsync₀ : SendSync s₀ := ⟨hs.sync.flag, hs.sync.empty⟩
      have hopen : (s.launch handle e).isOpen = true :=
        (sendHandshake_of_isOpen (s := s₀) hs.isOpen _).1
      have hsame := sameRecv_sendHandshake s₀ (s.openProtocol handle e).2
      have htold : Told 0 (s.launch handle e) := by
        refine ⟨by rw [protocol_launch]; rfl, ?_⟩
        rw [closedCount, launch, hsame.log]
        exact hs.untold
      have hsync := sendSync_stable.launch hs.sync handle e
      unfold Session.start
      dsimp only [Orderly]
      rw [isEstablished_launch, hopen]
      cases peer with
      | false =>
          -- `remote_endpoint()` throws before the first receive is started
          have hrecv : (s.launch handle e).recvPending = false :=
            hsame.recvPending.trans hs.recvPending
          have hsend : (s.launch handle e).sendPending.isSome = true ↔
              (s.openProtocol handle e).2 ≠ [] := by
            refine (isSome_sendHandshake_iff hsync₀ hs.isOpen _).trans ?_
            rw [show s₀.sendPending = none from hs.sendPending]
            exact or_iff_right (by simp)
          refine waits_or_lost (s := s.launch handle e) htold hsync ?_
          simp [hopen, hrecv, hsend]
      | true =>
          simp only [Bool.and_self, Bool.not_true, Bool.false_eq_true, if_false, true_or, true_and,
            forall_const]
          by_cases hnow : P.isEstablished (s.openProtocol handle e).1 = true
          · rw [if_pos hnow]
            refine waits_or_lost_of_recv ((told_stable 0).notify (told_startRecv htold) h (by simp))
              (sendSync_stable.notify (sendSync_stable.startRecv hsync) h (by simp))
              (sameRecv_notify h .established _).recvPending ?_
            rw [isOpen_notify_iff (s := (s.launch handle e).startRecv) hopen h .established]
            simp [hnow]
          · rw [if_neg hnow]
            exact waits_or_lost_of_recv (told_startRecv htold) (sendSync_stable.startRecv hsync) rfl
              (iff_of_true hopen fun h => absurd h hnow)
  | recvDone h chunk => simp [Session.step, hs.recvPending] at hstep
  | recvFailed h => simp [Session.step, hs.recvPending] at hstep
  | sendDone len => simp [Session.step, hs.sendPending] at hstep
  | sendFailed h => simp [Session.step, hs.sendPending] at hstep
  | app c => simp [Session.step, hs.protocol] at hstep

/-- Nothing happens to the notice of a closed session any more. -/
theorem Shut.step {n : ℕ} {l : Step P} (hs : Shut n s) (hstep : s.step l = some s') :
    Shut n s' := by
  have hclose : ∀ h, ∀ t : Session P, Shut n t → (t.handleClose h).state = t := by
    intro h t ht
    rw [Session.handleClose, if_neg (by simp [ht.1]), Outcome.state_done]
  refine (shut_stable n).step hs ?_ ?_ ?_ hstep
  · intro index size len _ _ _ _
    rw [handleSend, startSend_eq]
    exact hs
  · intro h
    rw [handleSendError, hclose h { s with sendPending := none } hs]
    exact hs
  · intro h
    rw [handleRecvError, hclose h { s with recvPending := false } hs]
    exact hs

/-- A closed session takes only orderly steps. -/
theorem Shut.orderly {n : ℕ} {l : Step P} (hs : Shut n s) (hstep : s.step l = some s') :
    Orderly s l := by
  have ho : s.isOpen ≠ true := by simp [hs.1]
  cases l with
  | start h handle e peer =>
      have := hs.2.1
      simp only [Session.step, Option.ite_none_right_eq_some, Option.some.injEq] at hstep
      simp [Option.isNone_iff_eq_none.mp hstep.1] at this
  | recvDone h chunk => exact fun h => absurd h ho
  | app c => exact fun h => absurd h ho
  | sendDone len => exact fun h => absurd h ho
  | recvFailed h => trivial
  | sendFailed h => trivial

theorem CloseInv.step {l : Step P} (hs : CloseInv s) (hl : Orderly s l)
    (hstep : s.step l = some s') : CloseInv s' := by
  rcases hs with hs | hs | hs
  · exact (hs.step hstep).1 hl
  · exact (hs.step hstep).1 hl
  · exact .inr (.inr (hs.step hstep))

theorem CloseInv.lost {l : Step P} (hs : CloseInv s) (hl : ¬ Orderly s l)
    (hstep : s.step l = some s') : Lost s' := by
  rcases hs with hs | hs | hs
  · exact (hs.step hstep).2 hl
  · exact (hs.step hstep).2 hl
  · exact absurd (hs.orderly hstep) hl

/-- A session that is lost is not told any more. -/
theorem Lost.not_closedOnce {ls : List (Step P)} (hs : Lost s)
    (hrun : runSteps step s ls = some s') (hrest : s'.AtRest) :
    ¬ ClosedOnce s ∨ ¬ ClosedOnce s' := by
  obtain ⟨htold, hopen | hstop⟩ := hs
  · right
    intro hall
    obtain ⟨ho, hp, hcount⟩ := runSteps_invariant Shut.step (⟨hopen, htold⟩ : Shut 0 s) hrun
    have := hall hp (.inl ho) hrest
    rw [hcount] at this
    cases this
  · left
    intro hall
    have := hall htold.1 (.inr hstop.1) hstop
    rw [htold.2] at this
    cases this

/-- **The close notice**: in every run of a session, with any protocol and any
application, in which every step is orderly, each state in which the session
has ended was notified exactly once, and each with a closed socket even while a
completion handler is outstanding.  And if in a run that has come to rest each
of the former states was, then every step was orderly. -/
theorem closedOnce_orderly (accepted : Bool) (ls : List (Step P)) {s : Session P}
    (hrun : runSteps step ({ accepted } : Session P) ls = some s) :
    (Along step Orderly ({ accepted } : Session P) ls →
        Always step (fun s => ClosedOnce s ∧ ClosedTold s) ({ accepted } : Session P) ls) ∧
      (s.AtRest → Always step ClosedOnce ({ accepted } : Session P) ls →
        Along step Orderly ({ accepted } : Session P) ls) := by
  have h₀ : CloseInv ({ accepted } : Session P) :=
    .inl ⟨rfl, rfl, rfl, rfl, ⟨rfl, fun _ => rfl⟩, rfl⟩
  constructor
  · intro hG pre t hpre ht
    have hinv := (hG.of_prefix hpre).invariant CloseInv.step h₀ ht
    exact ⟨hinv.closedOnce, hinv.closedTold⟩
  · intro hrest hall
    by_contra hG
    obtain ⟨pre, l, post, s₁, s₂, rfl, hpre, hrun₁, hl, hstep, hpost⟩ :=
      exists_first_of_not_along hG hrun
    have hlost := (hpre.invariant CloseInv.step h₀ hrun₁).lost hl hstep
    rcases hlost.not_closedOnce hpost hrest with hno | hno
    · have hrun₂ := runSteps_snoc_eq_some.mpr ⟨s₁, hrun₁, hstep⟩
      exact hno (hall (pre ++ [l]) s₂ ⟨post, by simp⟩ hrun₂)
    · exact hno (hall _ s (List.prefix_refl _) hrun)

/-- `start`, `close` by the application, and the receive failing because of
it. -/
def localClose : List (Step (plainProtocol 2)) :=
  [.start (fun _ => {}) 5 () true, .app .close, .recvFailed (fun _ => {})]

/-- A session closed by its own application ends without a notice. -/
theorem local_close_untold :
    ∃ s, runSteps step ({ accepted := true } : Session (plainProtocol 2)) localClose = some s ∧
      s.protocol.isSome = true ∧ s.isOpen = false ∧ s.recvPending = false ∧
      s.sendPending = none ∧ s.closedCount = 0 ∧ ¬ ClosedOnce s := by
  refine ⟨_, rfl, rfl, rfl, rfl, rfl, rfl, fun h => ?_⟩
  exact absurd (h rfl (.inl rfl) ⟨rfl, rfl⟩) (by decide)

/-- `start`, a send, its failure, and a receive that fails after it. -/
def failedSend : List (Step (plainProtocol 2)) :=
  [.start (fun _ => {}) 5 () true, .app (.sendRaw [1]), .sendFailed (fun _ => {}),
    .recvFailed (fun _ => {})]

theorem closedOnce_failedSend :
    (∃ s, runSteps step ({ accepted := true } : Session (plainProtocol 2)) failedSend = some s ∧
      s.AtRest ∧ s.closedCount = 1) ∧
    Always step (fun s => ClosedOnce s ∧ ClosedTold s)
      ({ accepted := true } : Session (plainProtocol 2)) failedSend := by
  refine ⟨⟨_, rfl, ⟨rfl, rfl⟩, rfl⟩, (closedOnce_orderly true failedSend rfl).1 ?_⟩
  refine ⟨⟨.inl rfl, fun _ _ => trivial⟩, fun s₁ _ => ⟨fun _ => trivial, fun s₂ _ => ?_⟩⟩
  refine ⟨trivial, fun s₃ _ => ?_⟩
  exact ⟨trivial, fun s₄ _ => trivial⟩

end Session

end Play
