/-
Play/SendPath.lean

The bytes a session sends form a first-in-first-out stream, as long as every
completed send wrote the whole buffer that was handed to it.

Two buffers take turns.  `send` appends to the accumulation buffer; when no
send is outstanding that buffer is handed to the socket and the other one
accumulates.  While a send is outstanding the stream is

    appended  =  written  ++  send buffer  ++  accumulation buffer

and `SendOrdered` is that equation together with what `sending_` says about
the outstanding operation.  A completion that wrote the whole send buffer
empties it, and the equation survives the exchange of the roles.

A completion that wrote less leaves a tail in the send buffer, and
`handle_send` exchanges the roles all the same: the tail is now at the front
of the accumulation buffer, behind bytes that were appended after it
(`partial_write_reorders`), or, with nothing else to send, it stays there
with no send outstanding.
-/
import Play.Stable

namespace Play

namespace Session

variable {P : Protocol}

/-! ### The stream equation -/

/-- The stream equation, and what `sending_` says about the outstanding
send: it is the one on the buffer that is not accumulating, all of it. -/
structure SendOrdered (s : Session P) : Prop where
  stream : s.appended =
    s.written ++ s.sendBufs (s.accBufIndex ^^^ 1) ++ s.sendBufs s.accBufIndex
  pending : ∀ {index size}, s.sendPending = some (index, size) →
    index = s.accBufIndex ^^^ 1 ∧ size = (s.sendBufs (s.accBufIndex ^^^ 1)).length ∧
      s.sending = true
  idle : s.sending = false → s.sendBufs (s.accBufIndex ^^^ 1) = [] ∧ s.sendBufs s.accBufIndex = []
  failed : s.sending = true → s.sendPending = none → s.isOpen = false

theorem xor_one_ne (i : Fin 2) : i ^^^ 1 ≠ i := by
  revert i; decide

theorem xor_one_xor_one (i : Fin 2) : (i ^^^ 1) ^^^ 1 = i := by
  revert i; decide

/-- Handing over an accumulation buffer when nothing is outstanding and the
other buffer is empty. -/
theorem SendOrdered.startSend {s : Session P} (hsend : s.sending = false)
    (hpend : s.sendPending = none) (hempty : s.sendBufs (s.accBufIndex ^^^ 1) = [])
    (hstream : s.appended = s.written ++ s.sendBufs s.accBufIndex) :
    SendOrdered s.startSend := by
  unfold Session.startSend
  split
  · next hlen =>
      have hacc : s.sendBufs s.accBufIndex = [] := List.length_eq_zero_iff.mp hlen
      refine ⟨by rw [hstream, hempty, List.append_nil], ?_, fun _ => ⟨hempty, hacc⟩, ?_⟩
      · intro index size h
        rw [hpend] at h
        cases h
      · intro h
        rw [hsend] at h
        cases h
  · refine ⟨?_, ?_, fun h => by (cases h), fun _ h => by (cases h)⟩
    · simp [xor_one_xor_one, hempty, hstream]
    · intro index size h
      simp only [Option.some.injEq, Prod.mk.injEq] at h
      simp [xor_one_xor_one, ← h.1, ← h.2]

theorem SendOrdered.append {s : Session P} (hs : SendOrdered s) (b : Bytes) :
    SendOrdered (if !(s.appendAcc b).sending then (s.appendAcc b).startSend
      else s.appendAcc b) := by
  have hne := xor_one_ne s.accBufIndex
  split
  · -- nothing is outstanding: both buffers were empty, and the bytes go out
    next hsend =>
      have hsend : s.sending = false := by simpa [appendAcc] using hsend
      obtain ⟨h₁, h₂⟩ := hs.idle hsend
      have hpend : s.sendPending = none := by
        rcases h : s.sendPending with - | ⟨index, size⟩
        · rfl
        · simp [(hs.pending h).2.2] at hsend
      have hstream := hs.stream
      rw [h₁, h₂, List.append_nil, List.append_nil] at hstream
      refine SendOrdered.startSend (by simpa [appendAcc] using hsend) hpend ?_ ?_
      · simp [appendAcc, Function.update_of_ne hne, h₁]
      · simp [appendAcc, hstream, h₂]
  · -- the bytes wait in the accumulation buffer, the last of the stream
    next hsend =>
      have hsend : s.sending = true := by simpa [appendAcc] using hsend
      refine ⟨?_, ?_, ?_, hs.failed⟩
      · simp [appendAcc, Function.update_of_ne hne, hs.stream]
      · intro index size h
        simpa [appendAcc, Function.update_of_ne hne] using hs.pending h
      · intro h
        simp [appendAcc, hsend] at h

theorem SendOrdered.appCall {s : Session P} (c : AppCall P.Topic) (hs : SendOrdered s) :
    SendOrdered (s.appCall c) := by
  cases c with
  | sendRaw b =>
      rw [Session.appCall, sendRaw]
      split
      · exact hs
      · exact hs.append b
  | send t d e =>
      rw [Session.appCall]
      rcases send_cases s t d e with h | ⟨p, -, -, ⟨p', err, -, h⟩ | ⟨p', bytes, -, h⟩⟩ <;> rw [h]
      · exact ⟨hs.stream, hs.pending, hs.idle, hs.failed⟩
      · exact ⟨hs.stream, hs.pending, hs.idle, fun _ _ => rfl⟩
      · refine SendOrdered.append (s := { s with sent := _, protocol := _ }) ?_ bytes
        exact ⟨hs.stream, hs.pending, hs.idle, hs.failed⟩
  | close =>
      rw [Session.appCall, close_eq]
      exact ⟨hs.stream, hs.pending, hs.idle, fun _ _ => rfl⟩

theorem sendOrdered_stable : Stable (SendOrdered (P := P)) where
  set hs _ _ _ _ _ := ⟨hs.stream, hs.pending, hs.idle, hs.failed⟩
  log hs _ := ⟨hs.stream, hs.pending, hs.idle, hs.failed⟩
  call := SendOrdered.appCall

/-- A completion that wrote the whole send buffer keeps the order. -/
theorem SendOrdered.sendDone {s : Session P} (hs : SendOrdered s) {index : Fin 2} {size : ℕ}
    (hp : s.sendPending = some (index, size)) :
    SendOrdered ((s.write index size).handleSend size) := by
  obtain ⟨rfl, rfl, -⟩ := hs.pending hp
  have hne := xor_one_ne s.accBufIndex
  refine SendOrdered.startSend rfl rfl ?_ ?_
  · simp [write]
  · simp [write, Function.update_of_ne hne.symm, hs.stream]

theorem SendOrdered.recvFailed {s : Session P} (hs : SendOrdered s) (h : Handler P.Topic) :
    SendOrdered (s.handleRecvError h).state :=
  sendOrdered_stable.handleClose (s := { s with recvPending := false })
    ⟨hs.stream, hs.pending, hs.idle, hs.failed⟩ h ⟨hs.stream, hs.pending, hs.idle, fun _ _ => rfl⟩

/-- After a failed send `sending_` stays set, and the socket is closed. -/
theorem SendOrdered.sendFailed {s : Session P} (hs : SendOrdered s) (h : Handler P.Topic) :
    SendOrdered (s.handleSendError h).state := by
  by_cases hopen : s.isOpen = true
  · have hclosed : SendOrdered
        { s with
          sendPending := none, isOpen := false, log := s.log ++ [.closed]
          protocol := s.protocol.map P.closed } :=
      ⟨hs.stream, fun h => by (cases h), hs.idle, fun _ _ => rfl⟩
    rw [handleSendError, handleClose, if_pos hopen, close_eq]
    exact notify_invariant SendOrdered.appCall hclosed
  · rw [handleSendError, handleClose, if_neg hopen]
    exact ⟨hs.stream, fun h => by (cases h), hs.idle, fun _ _ => by simpa using hopen⟩

/-! ### First in, first out -/

/-- The step is not a completed send that wrote only a part of its buffer. -/
def WritesWhole (s : Session P) : Step P → Prop
  | .sendDone len => ∀ outstanding ∈ s.sendPending, len = outstanding.2
  | _ => True

instance (s : Session P) : (l : Step P) → Decidable (WritesWhole s l)
  | .sendDone len =>
      inferInstanceAs (Decidable (∀ outstanding ∈ s.sendPending, len = outstanding.2))
  | .start .. | .recvDone .. | .recvFailed .. | .sendFailed .. | .app .. => isTrue trivial

theorem SendOrdered.step {s s' : Session P} {l : Step P} (hs : SendOrdered s)
    (hl : WritesWhole s l) (hstep : s.step l = some s') : SendOrdered s' := by
  refine sendOrdered_stable.step hs ?_ hs.sendFailed hs.recvFailed hstep
  rintro index size len hp - - rfl
  obtain rfl : len = size := hl (index, size) hp
  exact hs.sendDone hp

/-- What the two buffers of a session promise: nothing is written out of
order, and nothing is left behind when no send is outstanding. -/
def FifoOut (s : Session P) : Prop :=
  s.written <+: s.appended ∧ (s.sendPending = none → s.isOpen = true → s.written = s.appended)

theorem SendOrdered.fifoOut {s : Session P} (hs : SendOrdered s) : FifoOut s := by
  refine ⟨⟨s.sendBufs (s.accBufIndex ^^^ 1) ++ s.sendBufs s.accBufIndex, ?_⟩, ?_⟩
  · rw [hs.stream, List.append_assoc]
  · intro hnone hopen
    have hidle : s.sending = false := by
      by_contra hsend
      have := hs.failed (by simpa using hsend) hnone
      rw [hopen] at this
      cases this
    rw [hs.stream, (hs.idle hidle).1, (hs.idle hidle).2, List.append_nil, List.append_nil]

theorem sendOrdered_new (accepted : Bool) : SendOrdered (P := P) { accepted } :=
  ⟨rfl, fun h => by (cases h), fun _ => ⟨rfl, rfl⟩, fun h => by (cases h)⟩

/-- **The outgoing bytes are a first-in-first-out stream** in every run of a
session, receives, callbacks and closes included, in which no completed send
wrote only a part of its buffer. -/
theorem fifoOut_of_writesWhole (accepted : Bool) (ls : List (Step P)) {s : Session P}
    (hrun : runSteps step ({ accepted } : Session P) ls = some s)
    (hwhole : Along step WritesWhole ({ accepted } : Session P) ls) : FifoOut s :=
  (hwhole.invariant SendOrdered.step (sendOrdered_new accepted) hrun).fifoOut

/-- An application that does nothing in its callbacks. -/
def silent : Handler P.Topic := fun _ => {}

/-- The run `start`, `send` of two bytes, `send` of a third, and the sends
completing after one byte each. -/
def partialWrites : List (Step streamProtocol) :=
  [.start silent 5 () true, .app (.sendRaw [1, 2]), .app (.sendRaw [3]), .sendDone 1, .sendDone 1]

/-- A partial write lets later bytes overtake its tail. -/
theorem partial_write_reorders :
    ∃ s, runSteps step ({ accepted := true } : Session streamProtocol) partialWrites = some s ∧
      s.appended = [1, 2, 3] ∧ s.written = [1, 3] ∧ ¬ FifoOut s := by
  refine ⟨_, rfl, rfl, rfl, fun h => ?_⟩
  exact absurd h.1 (by decide)

/-- The same calls, with sends that complete in full. -/
def wholeWrites : List (Step streamProtocol) :=
  [.start silent 5 () true, .app (.sendRaw [1, 2]), .app (.sendRaw [3]), .sendDone 2, .sendDone 1]

theorem fifoOut_wholeWrites :
    ∃ s, runSteps step ({ accepted := true } : Session streamProtocol) wholeWrites = some s ∧
      s.written = [1, 2, 3] ∧ FifoOut s :=
  ⟨_, rfl, rfl, fifoOut_of_writesWhole true wholeWrites rfl (by decide)⟩

end Session

end Play
