/-
Play/Stable.lean

The invariant rule for the steps of a session.

Nearly everything that a completion handler does is of one of three kinds: it
sets a member of the receive side, it makes a callback, or it lets the
application, inside a callback, call the session.  A property that survives
the three is `Stable`; `Stable.step` carries it over every step, leaving open
only the two completions of a send and the notice of a failed receive.
-/
import Play.Session

namespace Play

namespace Session

variable {P : Protocol}

/-- A property that survives what the session does to its receive side, every
callback but `on_closed`, and every call of the application. -/
structure Stable (I : Session P → Prop) : Prop where
  set : ∀ {s}, I s → ∀ protocol recvBuf recvPending handle,
    (s.protocol.isSome = true → protocol.isSome = true) →
    I { s with protocol, recvBuf, recvPending, handle }
  log : ∀ {s c}, I s → c ≠ .closed → I { s with log := s.log ++ [c] }
  call : ∀ {s} c, I s → I (appCall s c)

namespace Stable

variable {I : Session P → Prop} (hI : Stable I)
include hI

theorem close {s : Session P} (hs : I s) : I s.close :=
  hI.call .close hs

theorem startRecv {s : Session P} (hs : I s) : I s.startRecv :=
  hI.set hs s.protocol s.recvBuf true s.handle id

theorem sendHandshake {s : Session P} (hs : I s) (b : Bytes) : I (s.sendHandshake b) := by
  unfold Session.sendHandshake
  split
  · exact hI.call (.sendRaw b) hs
  · exact hs

theorem notify {s : Session P} (hs : I s) (h : Handler P.Topic) {c : Callback P.Topic}
    (hc : c ≠ .closed) : I (notify h c s).state :=
  notify_invariant hI.call (hI.log hs hc)

theorem recvFramesTurn {s : Session P} (hs : I s) (h : Handler P.Topic) :
    I (recvFramesTurn h s).state := by
  have hset := fun p b => hI.set hs (some p) b s.recvPending s.handle fun _ => rfl
  rcases recvFramesTurn_cases h s with ⟨-, ht⟩ | ⟨p, p', hp, -, ⟨e, -, ht⟩ | ⟨r, -, hr⟩⟩
  · rw [ht]; exact hs
  · rw [ht, ← close_eq { s with protocol := some p' }]
    exact hI.close (hset p' s.recvBuf)
  · have hn := hI.notify (hset p' r.src) h (c := .receive r.topic r.frame) (by simp)
    rcases hr with ⟨-, ht⟩ | ⟨-, s₁, hs₁, ht⟩ | ⟨-, s₁, hs₁, ht⟩ <;> rw [ht]
    · exact hset p' r.src
    · rw [hs₁] at hn
      exact hI.close hn
    · rw [hs₁] at hn
      exact hI.set hn s₁.protocol _ s₁.recvPending s₁.handle id

theorem recvFramesLoop {s : Session P} (hs : I s) (h : Handler P.Topic) (k : ℕ) :
    I (recvFramesLoop h k s) := by
  induction k generalizing s with
  | zero => exact hs
  | succ k ih =>
      have ht := hI.recvFramesTurn hs h
      rw [Session.recvFramesLoop]
      rcases hturn : Session.recvFramesTurn h s with s' | s' <;> rw [hturn] at ht
      · exact ih ht
      · exact ht

theorem takeHandshake {s : Session P} (hs : I s) (p : P.State) (n : ℕ) (buf : Bytes) :
    I (s.takeHandshake p n buf) :=
  hI.sendHandshake (hI.set hs (some p) _ s.recvPending s.handle fun _ => rfl) buf

theorem handleRecv {s : Session P} (hs : I s) (h : Handler P.Topic) (chunk : Bytes) :
    I (s.handleRecv h chunk).state := by
  have hc : I (s.commitRecv chunk) := hI.set hs s.protocol (s.recvBuf ++ chunk) false s.handle id
  rcases hp : s.protocol with - | p
  · have : s.handleRecv h chunk = .done (s.commitRecv chunk) := by
      have hp' : (s.commitRecv chunk).protocol = none := hp
      simp only [Session.handleRecv, hp']
    rw [this]
    exact hc
  rcases handleRecv_cases h hp chunk with ⟨-, hr⟩ |
    ⟨-, p', ⟨e, -, hr⟩ | ⟨n, buf, -, ⟨-, hr⟩ | ⟨-, hr⟩⟩⟩ <;> rw [hr]
  · exact hI.startRecv (hI.recvFramesLoop hc h _)
  · exact hI.set hc (some p') (s.recvBuf ++ chunk) false s.handle fun _ => rfl
  · have hn := hI.notify (hI.takeHandshake hc p' n buf) h (c := .established) (by simp)
    rcases hn' : Session.notify h .established ((s.commitRecv chunk).takeHandshake p' n buf)
      with s₁ | s₁ <;> rw [hn'] at hn
    · exact hI.startRecv (hI.recvFramesLoop hn h _)
    · exact hn
  · exact hI.startRecv (hI.takeHandshake hc p' n buf)

theorem launch {s : Session P} (hs : I s) (handle : ℕ) (e : P.Entropy) :
    I (s.launch handle e) :=
  hI.sendHandshake
    (hI.set hs (some (s.openProtocol handle e).1) s.recvBuf s.recvPending handle fun _ => rfl)
    (s.openProtocol handle e).2

theorem start {s : Session P} (hs : I s) (h : Handler P.Topic) (handle : ℕ) (e : P.Entropy)
    (peer : Bool) : I (s.start h handle e peer).state := by
  have hl := hI.launch hs handle e
  rcases start_cases h s handle e peer with hr | ⟨-, hr⟩ | ⟨-, hr⟩ <;> rw [hr]
  · exact hl
  · exact hI.notify (hI.startRecv hl) h (by simp)
  · exact hI.startRecv hl

/-- `on_closed` keeps what also survives being told of the close. -/
theorem handleClose {s : Session P} (hs : I s) (h : Handler P.Topic)
    (hclosed : I { s with isOpen := false, log := s.log ++ [.closed] }) :
    I (s.handleClose h).state := by
  unfold Session.handleClose
  split
  · rw [close_eq]
    exact notify_invariant hI.call
      (hI.set hclosed (s.protocol.map P.closed) s.recvBuf s.recvPending s.handle (by simp))
  · exact hs

/-- **Invariant rule for the steps of a session**: beyond stability, only the
completions of a send and the failed receive have to be looked at. -/
theorem step {s s' : Session P} {l : Step P} (hs : I s)
    (hdone : ∀ index size len, s.sendPending = some (index, size) → 0 < len → len ≤ size →
      l = .sendDone len → I ((s.write index len).handleSend len))
    (hsendFailed : ∀ h, I (s.handleSendError h).state)
    (hrecvFailed : ∀ h, I (s.handleRecvError h).state)
    (hstep : s.step l = some s') : I s' := by
  cases l with
  | start h handle e peer =>
      simp only [Session.step, Option.ite_none_right_eq_some, Option.some.injEq] at hstep
      rw [← hstep.2]
      exact hI.start hs h handle e peer
  | recvDone h chunk =>
      simp only [Session.step, Option.ite_none_right_eq_some, Option.some.injEq] at hstep
      rw [← hstep.2]
      exact hI.handleRecv hs h chunk
  | recvFailed h =>
      simp only [Session.step, Option.ite_none_right_eq_some, Option.some.injEq] at hstep
      rw [← hstep.2]
      exact hrecvFailed h
  | sendDone len =>
      simp only [Session.step] at hstep
      split at hstep
      · simp at hstep
      · next index size hp =>
          simp only [Option.ite_none_right_eq_some, Option.some.injEq] at hstep
          rw [← hstep.2]
          exact hdone index size len hp hstep.1.1 hstep.1.2 rfl
  | sendFailed h =>
      simp only [Session.step, Option.ite_none_right_eq_some, Option.some.injEq] at hstep
      rw [← hstep.2]
      exact hsendFailed h
  | app c =>
      simp only [Session.step, Option.ite_none_right_eq_some, Option.some.injEq] at hstep
      rw [← hstep.2]
      exact hI.call c hs

end Stable

theorem sent_sendRaw (s : Session P) (b : Bytes) : (s.sendRaw b).sent = s.sent := by
  unfold sendRaw
  split
  · rfl
  dsimp only
  split
  · rw [startSend_eq]; rfl
  · rfl

theorem sent_send (s : Session P) (t : P.Topic) (d : Bytes) (e : Bool) :
    (s.send t d e).1.sent = s.sent ++ [(t, d, e)] := by
  rcases send_cases s t d e with h | ⟨p, -, -, ⟨p', err, -, h⟩ | ⟨p', bytes, -, h⟩⟩ <;> rw [h]
  dsimp only
  split
  · rw [startSend_eq]; rfl
  · rfl

/-- Whatever happens, the list of frames asked for only grows. -/
theorem stable_sent (ms : List (P.Topic × Bytes × Bool)) :
    Stable fun s : Session P => ms <+: s.sent where
  set hs _ _ _ _ _ := hs
  log hs _ := hs
  call := by
    intro s c hs
    cases c with
    | sendRaw b => rw [appCall, sent_sendRaw]; exact hs
    | close => rw [appCall, close_eq]; exact hs
    | send t d e =>
        rw [appCall, sent_send]
        exact hs.trans (List.prefix_append _ _)

end Session

end Play
