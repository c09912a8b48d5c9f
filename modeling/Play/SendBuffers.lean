/-
Play/SendBuffers.lean

The buffer that is being sent is not touched.

Everything that a session does to its send state happens in three places, all
of them under `mutex_`: `send` appends to the accumulation buffer and may call
`start_send`, `send` with a topic does the same through `protocol::encode`,
and `handle_send` takes what was written out of the other buffer and calls
`start_send`.  `SendSide` is that state with these sections as its steps, in
any order: which thread runs them, and what runs between them, does not
matter.

A socket takes any number of `async_send`s, so the outstanding ones are a
list, and every completion says which of them it is for.  `touched` remembers
that a buffer was changed while an outstanding send referred to it.  `Sound`
says that neither ever matters: there is one send at most, it refers to the
buffer that does not accumulate, and nothing was touched.

`Session.runOps` are the sections that a run of a session goes through, in
callbacks and handshakes too; `sendBuffers_sound` brings the two together.
-/
import Play.SendPath

namespace Play

/-! ### The send state -/

/-- The members of the send state, and the `async_send`s not yet completed:
the buffer each one refers to, and how much of it. -/
structure SendSide where
  sending : Bool := false
  accBufIndex : Fin 2 := 0
  sendBufs : Fin 2 → Bytes := fun _ => []
  outstanding : List (Fin 2 × ℕ) := []
  /-- A completion reported an error. -/
  failed : Bool := false
  /-- A buffer was changed while an outstanding send referred to it. -/
  touched : Bool := false

/-- The sections under `mutex_`. -/
inductive SendOp
  /-- `send` of both kinds, with the bytes that are appended. -/
  | append (b : Bytes)
  /-- `send` with a topic when `encode` throws. -/
  | encodeFailed
  /-- `handle_send` without an error, for the `j`-th of the outstanding sends. -/
  | completed (j len : ℕ)
  /-- `handle_send` with an error. -/
  | failed (j : ℕ)

namespace SendSide

/-- The buffer at `i` is written to, read from or made larger. -/
def touch (m : SendSide) (i : Fin 2) : SendSide :=
  { m with touched := m.touched || m.outstanding.any fun o => o.1 == i }

/-- `prepare` and `commit` of the buffer at `i`. -/
def appendTo (m : SendSide) (i : Fin 2) (b : Bytes) : SendSide :=
  { m.touch i with sendBufs := Function.update m.sendBufs i (m.sendBufs i ++ b) }

/-- `consume` of the buffer at `i`. -/
def consume (m : SendSide) (i : Fin 2) (len : ℕ) : SendSide :=
  { m.touch i with sendBufs := Function.update m.sendBufs i ((m.sendBufs i).drop len) }

/-- `index ^ 1`: the other buffer. -/
def other (index : Fin 2) : Fin 2 := index ^^^ Fin.last 1

theorem other_eq (index : Fin 2) : other index = index ^^^ 1 := rfl

/-- `session::start_send`. -/
def startSend (m : SendSide) : SendSide :=
  if (m.sendBufs m.accBufIndex).length = 0 then m
  else
    { m with
      outstanding := m.outstanding ++ [(m.accBufIndex, (m.sendBufs m.accBufIndex).length)]
      accBufIndex := other m.accBufIndex
      sending := true }

/-- One of the outstanding sends has come to its end. -/
def complete (m : SendSide) (j : ℕ) : SendSide :=
  { m with outstanding := m.outstanding.eraseIdx j }

/-- One section.  A completion is for a send that is outstanding, and reports
no more than was asked for. -/
def step (m : SendSide) : SendOp → Option SendSide
  | .append b =>
      let m := m.appendTo m.accBufIndex b
      some (if !m.sending then m.startSend else m)
  | .encodeFailed => some (m.touch m.accBufIndex)
  | .completed j len =>
      match m.outstanding[j]? with
      | none => none
      | some (_, size) =>
          if 0 < len ∧ len ≤ size then
            let m := (m.complete j).consume (other m.accBufIndex) len
            some { m with sending := false }.startSend
          else none
  | .failed j =>
      if j < m.outstanding.length then some { m.complete j with failed := true } else none

/-- At most one send is outstanding, one is exactly when `sending_` is set and
none has failed, it refers to the buffer that does not accumulate, and no
buffer was changed under a send. -/
structure Sound (m : SendSide) : Prop where
  atMostOne : m.outstanding.length ≤ 1
  outstanding_iff : m.outstanding ≠ [] ↔ m.sending = true ∧ m.failed = false
  refers : ∀ o ∈ m.outstanding, o.1 = m.accBufIndex ^^^ 1
  untouched : m.touched = false

/-- `Sound`, and what a failed send leaves behind: `sending_` stays set, and no
other send is started. -/
structure Inv (m : SendSide) : Prop extends Sound m where
  stuck : m.failed = true → m.sending = true

variable {m m' : SendSide} {op : SendOp}

theorem inv_new : Inv {} :=
  ⟨⟨Nat.zero_le _, by simp, by simp, rfl⟩, fun h => by cases h⟩

/-- The accumulation buffer can be changed at any time. -/
theorem touch_acc (hm : Inv m) : m.touch m.accBufIndex = m := by
  have hnone : (m.outstanding.any fun o => o.1 == m.accBufIndex) = false := by
    rw [List.any_eq_false]
    intro o ho
    rw [hm.refers o ho, beq_iff_eq]
    exact Session.xor_one_ne m.accBufIndex
  rw [touch, hnone, Bool.or_false]

/-- `start_send` when nothing is outstanding and nothing has failed. -/
theorem inv_startSend (hnone : m.outstanding = []) (hidle : m.sending = false)
    (hok : m.failed = false) (huntouched : m.touched = false) : Inv m.startSend := by
  unfold startSend
  split
  · exact ⟨⟨by simp [hnone], by simp [hnone, hidle], by simp [hnone], huntouched⟩,
      fun h => by rw [hok] at h; cases h⟩
  · refine ⟨⟨by simp [hnone], by simp [hok], fun o ho => ?_, huntouched⟩, fun _ => rfl⟩
    simp only [hnone, List.nil_append, List.mem_singleton] at ho
    rw [ho, other_eq, Session.xor_one_xor_one]

theorem outstanding_eq_nil (hm : Inv m) (hidle : m.sending = false) : m.outstanding = [] := by
  by_contra hne
  have := (hm.outstanding_iff.mp hne).1
  rw [hidle] at this
  cases this

theorem inv_append (hm : Inv m) (b : Bytes) :
    Inv (let m := m.appendTo m.accBufIndex b; if !m.sending then m.startSend else m) := by
  have happend : m.appendTo m.accBufIndex b = { m with
      sendBufs := Function.update m.sendBufs m.accBufIndex (m.sendBufs m.accBufIndex ++ b) } := by
    rw [appendTo, touch_acc hm]
  rw [happend]
  dsimp only
  split
  · next hidle =>
      have hidle : m.sending = false := by simpa using hidle
      have hok : m.failed = false := by
        by_contra hfailed
        rw [hm.stuck (by simpa using hfailed)] at hidle
        cases hidle
      have hnone : m.outstanding = [] := outstanding_eq_nil hm hidle
      exact inv_startSend hnone hidle hok hm.untouched
  · exact ⟨⟨hm.atMostOne, hm.outstanding_iff, hm.refers, hm.untouched⟩, hm.stuck⟩

/-- The completion of the one send that is outstanding. -/
theorem complete_eq (hm : Inv m) {j : ℕ} (hj : j < m.outstanding.length) :
    m.sending = true ∧ m.failed = false ∧ m.complete j = { m with outstanding := [] } := by
  have hne : m.outstanding ≠ [] := List.ne_nil_of_length_pos (by omega)
  obtain ⟨hsending, hok⟩ := hm.outstanding_iff.mp hne
  refine ⟨hsending, hok, ?_⟩
  have hone := hm.atMostOne
  have hnil : m.outstanding.eraseIdx j = [] := by
    apply List.eq_nil_of_length_eq_zero
    rw [List.length_eraseIdx_of_lt hj]
    omega
  rw [complete, hnil]

/-- **Every section keeps the send state sound.** -/
theorem Inv.step (hm : Inv m) (h : m.step op = some m') : Inv m' := by
  cases op with
  | append b =>
      cases h
      exact inv_append hm b
  | encodeFailed =>
      cases h
      rw [touch_acc hm]
      exact hm
  | completed j len =>
      dsimp only [SendSide.step] at h
      split at h
      · cases h
      · next hj =>
          split at h
          · cases h
            obtain ⟨hlt, -⟩ := List.getElem?_eq_some_iff.mp hj
            obtain ⟨-, hok, hcomplete⟩ := complete_eq hm hlt
            rw [hcomplete]
            exact inv_startSend rfl rfl hok (by simp [consume, touch, hm.untouched])
          · cases h
  | failed j =>
      dsimp only [SendSide.step] at h
      split at h
      · next hlt =>
          cases h
          obtain ⟨hsending, -, hcomplete⟩ := complete_eq hm hlt
          rw [hcomplete]
          exact ⟨⟨Nat.zero_le _, by simp, by simp, hm.untouched⟩, fun _ => hsending⟩
      · cases h

theorem step_completed {j len size : ℕ} {i : Fin 2} (hj : m.outstanding[j]? = some (i, size))
    (hpos : 0 < len) (hle : len ≤ size) :
    m.step (.completed j len) = some
      { (m.complete j).consume (other m.accBufIndex) len with sending := false }.startSend := by
  rw [SendSide.step, hj]
  exact if_pos ⟨hpos, hle⟩

/-- Whatever the order of the sections, the send state is sound between them. -/
theorem always_sound (ops : List SendOp) : Always step Sound {} ops := by
  intro pre m _ hrun
  exact (runSteps_invariant Inv.step inv_new hrun).toSound

end SendSide

/-! ### The sections of a session

Each of these follows the function of the session that it is named after, call
by call. -/

namespace Session

variable {P : Protocol}

/-- The sections that a call of the application goes through. -/
def callOps (s : Session P) : AppCall P.Topic → List SendOp
  | .sendRaw data => if s.isOpen then [.append data] else []
  | .send pic data encrypt =>
      if !s.isOpen then []
      else if P.maxSendSize ≤ data.length then []
      else if data.length = 0 then []
      else
        match s.protocol with
        | none => []
        | some p =>
            match P.encode p pic data encrypt with
            | (_, .error _) => [.encodeFailed]
            | (_, .ok bytes) => [.append bytes]
  | .close => []

/-- The calls of a callback, one after the other. -/
def callsOps : Session P → List (AppCall P.Topic) → List SendOp
  | _, [] => []
  | s, c :: cs => s.callOps c ++ callsOps (s.appCall c) cs

/-- A callback, with the calls that the application makes in it. -/
def notifyOps (h : Handler P.Topic) (c : Callback P.Topic) (s : Session P) : List SendOp :=
  callsOps { s with log := s.log ++ [c] } (h (s.log ++ [c])).calls

def handleCloseOps (h : Handler P.Topic) (s : Session P) : List SendOp :=
  if s.isOpen then notifyOps h .closed { s.close with protocol := s.protocol.map P.closed } else []

def sendHandshakeOps (s : Session P) (buf : Bytes) : List SendOp :=
  if 0 < buf.length then s.callOps (.sendRaw buf) else []

def recvFramesTurnOps (h : Handler P.Topic) (s : Session P) : List SendOp :=
  if s.recvBuf.length = 0 then []
  else
    match s.protocol with
    | none => []
    | some p =>
        match P.decode p s.recvBuf with
        | (_, .error _) => []
        | (p, .ok r) =>
            if 0 < r.consumed then
              notifyOps h (.receive r.topic r.frame) { s with protocol := some p, recvBuf := r.src }
            else []

def recvFramesLoopOps (h : Handler P.Topic) : ℕ → Session P → List SendOp
  | 0, _ => []
  | k + 1, s =>
      recvFramesTurnOps h s ++
        match recvFramesTurn h s with
        | .next s => recvFramesLoopOps h k s
        | .exit _ => []

/-- `on_established`, then `recv_frames` if it returned. -/
def establishedOps (h : Handler P.Topic) (s : Session P) : List SendOp :=
  notifyOps h .established s ++
    match notify h .established s with
    | .done s => recvFramesLoopOps h s.recvBuf.length s
    | .threw _ => []

def handleRecvOps (h : Handler P.Topic) (s : Session P) (chunk : Bytes) : List SendOp :=
  let s := s.commitRecv chunk
  match s.protocol with
  | none => []
  | some p =>
      if P.isEstablished p then recvFramesLoopOps h s.recvBuf.length s
      else
        match P.handshake p s.recvBuf with
        | (_, .error _) => []
        | (p, .ok (n, buf)) =>
            sendHandshakeOps { s with protocol := some p, recvBuf := s.recvBuf.drop n } buf ++
              if (s.takeHandshake p n buf).isEstablished then
                establishedOps h (s.takeHandshake p n buf)
              else []

def startOps (h : Handler P.Topic) (s : Session P) (handle : ℕ) (e : P.Entropy) (peer : Bool) :
    List SendOp :=
  let opened := s.openProtocol handle e
  sendHandshakeOps { s with handle, protocol := some opened.1 } opened.2 ++
    let s := s.launch handle e
    if !(s.isOpen && peer) then []
    else if s.startRecv.isEstablished then notifyOps h .established s.startRecv else []

/-- The sections of one step. -/
def stepOps (s : Session P) : Step P → List SendOp
  | .start h handle e peer => s.startOps h handle e peer
  | .recvDone h chunk => s.handleRecvOps h chunk
  | .recvFailed h => handleCloseOps h { s with recvPending := false }
  | .sendDone len => [.completed 0 len]
  | .sendFailed h => .failed 0 :: handleCloseOps h { s with sendPending := none }
  | .app c => s.callOps c

/-- The sections of a run. -/
def runOps : Session P → List (Step P) → List SendOp
  | _, [] => []
  | s, l :: ls => s.stepOps l ++ (s.step l).elim [] (runOps · ls)

/-! ### A session goes through its sections -/

variable {s s' s'' : Session P} {m : SendSide}

/-- The send state is that of the session. -/
structure Agrees (m : SendSide) (s : Session P) : Prop where
  sending : m.sending = s.sending
  accBufIndex : m.accBufIndex = s.accBufIndex
  sendBufs : m.sendBufs = s.sendBufs
  outstanding : m.outstanding = s.sendPending.toList

/-- From `s` the sections `ops` lead to `s'`. -/
def Performs (s : Session P) (ops : List SendOp) (s' : Session P) : Prop :=
  ∀ m, m.Inv → Agrees m s → ∃ m', runSteps SendSide.step m ops = some m' ∧ Agrees m' s'

/-- Two sessions with the same send state. -/
structure SameSend (s s' : Session P) : Prop where
  sending : s'.sending = s.sending
  accBufIndex : s'.accBufIndex = s.accBufIndex
  sendBufs : s'.sendBufs = s.sendBufs
  sendPending : s'.sendPending = s.sendPending

theorem SameSend.refl (s : Session P) : SameSend s s :=
  ⟨rfl, rfl, rfl, rfl⟩

theorem SameSend.close (s : Session P) : SameSend s s.close := by
  rw [close_eq]
  exact ⟨rfl, rfl, rfl, rfl⟩

theorem Agrees.congr (hm : Agrees m s) (hs : SameSend s s') : Agrees m s' where
  sending := by rw [hm.sending, hs.sending]
  accBufIndex := by rw [hm.accBufIndex, hs.accBufIndex]
  sendBufs := by rw [hm.sendBufs, hs.sendBufs]
  outstanding := by rw [hm.outstanding, hs.sendPending]

/-- What does not concern the send state. -/
theorem SameSend.performs (hs : SameSend s s') : Performs s [] s' :=
  fun m _ hm => ⟨m, rfl, hm.congr hs⟩

theorem Performs.after {ops : List SendOp} (hs : SameSend s s') (h : Performs s' ops s'') :
    Performs s ops s'' :=
  fun m hinv hm => h m hinv (hm.congr hs)

theorem Performs.before {ops : List SendOp} (h : Performs s ops s') (hs : SameSend s' s'') :
    Performs s ops s'' := by
  intro m hinv hm
  obtain ⟨m', hrun, hm'⟩ := h m hinv hm
  exact ⟨m', hrun, hm'.congr hs⟩

theorem Performs.trans {ops ops' : List SendOp} (h : Performs s ops s')
    (h' : Performs s' ops' s'') : Performs s (ops ++ ops') s'' := by
  intro m hinv hm
  obtain ⟨m₁, hrun, hm₁⟩ := h m hinv hm
  obtain ⟨m₂, hrun', hm₂⟩ := h' m₁ (runSteps_invariant SendSide.Inv.step hinv hrun) hm₁
  refine ⟨m₂, ?_, hm₂⟩
  rw [runSteps_append, hrun]
  exact hrun'

/-- One section. -/
theorem performs_one {op : SendOp}
    (h : ∀ m, m.Inv → Agrees m s → ∃ m', SendSide.step m op = some m' ∧ Agrees m' s') :
    Performs s [op] s' := by
  intro m hinv hm
  obtain ⟨m', hstep, hm'⟩ := h m hinv hm
  exact ⟨m', runSteps_cons_eq_some.mpr ⟨m', hstep, rfl⟩, hm'⟩

theorem Agrees.startSend (hm : Agrees m s) (hnone : s.sendPending = none) :
    Agrees m.startSend s.startSend := by
  have hout : m.outstanding = [] := by rw [hm.outstanding, hnone]; rfl
  unfold SendSide.startSend Session.startSend
  rw [hm.sendBufs, hm.accBufIndex, SendSide.other_eq]
  split
  · exact hm
  · exact ⟨rfl, rfl, rfl, by simp [hout]⟩

theorem Agrees.sendPending_eq_none (hm : Agrees m s) (hinv : m.Inv) (hidle : s.sending = false) :
    s.sendPending = none := by
  have hout := SendSide.outstanding_eq_nil hinv (hm.sending.trans hidle)
  rw [hm.outstanding, Option.toList_eq_nil_iff] at hout
  exact hout

theorem performs_append (s : Session P) (b : Bytes) :
    Performs s [.append b]
      (if !(s.appendAcc b).sending then (s.appendAcc b).startSend else s.appendAcc b) := by
  apply performs_one
  intro m hinv hm
  have happend : Agrees (m.appendTo m.accBufIndex b) (s.appendAcc b) := by
    refine ⟨hm.sending, hm.accBufIndex, ?_, hm.outstanding⟩
    simp only [SendSide.appendTo, appendAcc, hm.sendBufs, hm.accBufIndex]
  refine ⟨_, rfl, ?_⟩
  rw [happend.sending]
  split
  · next hidle =>
      have hidle : s.sending = false := by simpa [appendAcc] using hidle
      exact happend.startSend (hm.sendPending_eq_none hinv hidle)
  · exact happend

theorem performs_encodeFailed (s : Session P) : Performs s [.encodeFailed] s :=
  performs_one fun _ _ hm => ⟨_, rfl, hm.sending, hm.accBufIndex, hm.sendBufs, hm.outstanding⟩

theorem performs_sendDone {index : Fin 2} {size len : ℕ}
    (hpending : s.sendPending = some (index, size)) (hpos : 0 < len) (hle : len ≤ size) :
    Performs s [.completed 0 len] ((s.write index len).handleSend len) := by
  apply performs_one
  intro m _ hm
  have hout : m.outstanding = [(index, size)] := by rw [hm.outstanding, hpending]; rfl
  refine ⟨_, SendSide.step_completed (by rw [hout]; rfl) hpos hle, ?_⟩
  refine Agrees.startSend ⟨rfl, hm.accBufIndex, ?_, ?_⟩ rfl
  · simp only [SendSide.consume, SendSide.complete, SendSide.other_eq, write, hm.sendBufs,
      hm.accBufIndex]
  · show m.outstanding.eraseIdx 0 = []
    rw [hout]
    rfl

theorem performs_sendFailed (hpending : s.sendPending.isSome = true) :
    Performs s [.failed 0] { s with sendPending := none } := by
  apply performs_one
  intro m _ hm
  obtain ⟨o, ho⟩ := Option.isSome_iff_exists.mp hpending
  have hout : m.outstanding = [o] := by rw [hm.outstanding, ho]; rfl
  refine ⟨_, if_pos (by rw [hout]; exact Nat.zero_lt_one), hm.sending, hm.accBufIndex,
    hm.sendBufs, ?_⟩
  show m.outstanding.eraseIdx 0 = []
  rw [hout]
  rfl

theorem performs_appCall (s : Session P) (c : AppCall P.Topic) :
    Performs s (s.callOps c) (s.appCall c) := by
  cases c with
  | sendRaw data =>
      rw [callOps, appCall, sendRaw]
      by_cases hopen : s.isOpen = true
      · rw [if_pos hopen, if_neg (by simp [hopen])]
        exact performs_append s data
      · rw [if_neg hopen, if_pos (by simp [hopen])]
        exact (SameSend.refl s).performs
  | send pic data encrypt =>
      have hsent : SameSend s { s with sent := s.sent ++ [(pic, data, encrypt)] } :=
        ⟨rfl, rfl, rfl, rfl⟩
      rw [callOps, appCall, send]
      dsimp only
      split
      · exact hsent.performs
      split
      · exact hsent.performs
      split
      · exact hsent.performs
      rcases hp : s.protocol with - | p
      · exact SameSend.performs ⟨rfl, rfl, rfl, rfl⟩
      rcases he : P.encode p pic data encrypt with ⟨p', err | bytes⟩
      · simp only [he]
        refine (performs_encodeFailed s).before ?_
        rw [close_eq]
        exact ⟨rfl, rfl, rfl, rfl⟩
      · simp only [he]
        refine Performs.after ?_ (performs_append
          { s with sent := s.sent ++ [(pic, data, encrypt)], protocol := some p' } bytes)
        exact ⟨rfl, rfl, rfl, rfl⟩
  | close => exact (SameSend.close s).performs

theorem performs_calls (s : Session P) (cs : List (AppCall P.Topic)) :
    Performs s (s.callsOps cs) (cs.foldl appCall s) := by
  induction cs generalizing s with
  | nil => exact (SameSend.refl s).performs
  | cons c cs ih => exact (performs_appCall s c).trans (ih (s.appCall c))

theorem performs_notify (h : Handler P.Topic) (c : Callback P.Topic) (s : Session P) :
    Performs s (notifyOps h c s) (notify h c s).state := by
  rw [notify_state]
  refine Performs.after ?_ (performs_calls _ _)
  exact ⟨rfl, rfl, rfl, rfl⟩

theorem performs_handleClose (h : Handler P.Topic) (s : Session P) :
    Performs s (handleCloseOps h s) (s.handleClose h).state := by
  unfold handleCloseOps handleClose
  split
  · have hproto : s.close.protocol = s.protocol := by rw [close_eq]
    have hsame := SameSend.close s
    rw [← hproto]
    refine Performs.after ?_ (performs_notify h .closed _)
    exact ⟨hsame.sending, hsame.accBufIndex, hsame.sendBufs, hsame.sendPending⟩
  · exact (SameSend.refl s).performs

theorem performs_sendHandshake (s : Session P) (buf : Bytes) :
    Performs s (s.sendHandshakeOps buf) (s.sendHandshake buf) := by
  unfold sendHandshakeOps sendHandshake
  split
  · exact performs_appCall s (.sendRaw buf)
  · exact (SameSend.refl s).performs

theorem performs_recvFramesTurn (h : Handler P.Topic) (s : Session P) :
    Performs s (recvFramesTurnOps h s) (recvFramesTurn h s).state := by
  unfold recvFramesTurnOps recvFramesTurn
  split
  · exact (SameSend.refl s).performs
  rcases hp : s.protocol with - | p
  · exact (SameSend.refl s).performs
  rcases hd : P.decode p s.recvBuf with ⟨p', err | r⟩
  · simp only [hd]
    have hset : SameSend s { s with protocol := some p' } := ⟨rfl, rfl, rfl, rfl⟩
    exact (SameSend.close _).performs.after hset
  simp only [hd]
  have hset : SameSend s { s with protocol := some p', recvBuf := r.src } := ⟨rfl, rfl, rfl, rfl⟩
  split
  · have hn := (performs_notify h (.receive r.topic r.frame) _).after hset
    rcases hnotify : notify h (.receive r.topic r.frame)
      { s with protocol := some p', recvBuf := r.src } with s₁ | s₁
    · rw [hnotify] at hn
      exact hn.before ⟨rfl, rfl, rfl, rfl⟩
    · rw [hnotify] at hn
      exact hn.before (SameSend.close s₁)
  · exact hset.performs

theorem performs_recvFramesLoop (h : Handler P.Topic) (k : ℕ) (s : Session P) :
    Performs s (recvFramesLoopOps h k s) (recvFramesLoop h k s) := by
  induction k generalizing s with
  | zero => exact (SameSend.refl s).performs
  | succ k ih =>
      have hturn := performs_recvFramesTurn h s
      rw [recvFramesLoopOps, recvFramesLoop]
      rcases ht : recvFramesTurn h s with s₁ | s₁
      · rw [ht] at hturn
        exact hturn.trans (ih s₁)
      · rw [ht] at hturn
        exact hturn.trans (SameSend.refl s₁).performs

theorem performs_takeHandshake (s : Session P) (p : P.State) (n : ℕ) (buf : Bytes) :
    Performs s
      (sendHandshakeOps { s with protocol := some p, recvBuf := s.recvBuf.drop n } buf)
      (s.takeHandshake p n buf) := by
  refine Performs.after ?_ (performs_sendHandshake _ buf)
  exact ⟨rfl, rfl, rfl, rfl⟩

theorem performs_established (h : Handler P.Topic) (s : Session P) :
    Performs s (establishedOps h s)
      ((notify h .established s).andThen fun s => .done (s.recvFrames h).startRecv).state := by
  have hn := performs_notify h .established s
  rw [establishedOps]
  rcases hnotify : notify h .established s with s₁ | s₁
  · rw [hnotify] at hn
    exact (hn.trans (performs_recvFramesLoop h _ s₁)).before ⟨rfl, rfl, rfl, rfl⟩
  · rw [hnotify] at hn
    exact hn.trans (SameSend.refl s₁).performs

theorem performs_handleRecv (h : Handler P.Topic) (s : Session P) (chunk : Bytes) :
    Performs s (s.handleRecvOps h chunk) (s.handleRecv h chunk).state := by
  have hcommit : SameSend s (s.commitRecv chunk) := ⟨rfl, rfl, rfl, rfl⟩
  refine Performs.after hcommit ?_
  unfold handleRecvOps handleRecv
  dsimp only
  rcases hp : (s.commitRecv chunk).protocol with - | p
  · exact (SameSend.refl _).performs
  dsimp only
  split
  · exact (performs_recvFramesLoop h _ _).before ⟨rfl, rfl, rfl, rfl⟩
  rcases hh : P.handshake p (s.commitRecv chunk).recvBuf with ⟨p', err | ⟨n, buf⟩⟩
  · dsimp only
    exact SameSend.performs ⟨rfl, rfl, rfl, rfl⟩
  dsimp only
  refine (performs_takeHandshake (s.commitRecv chunk) p' n buf).trans ?_
  split
  · exact performs_established h _
  · exact SameSend.performs ⟨rfl, rfl, rfl, rfl⟩

theorem performs_start (h : Handler P.Topic) (s : Session P) (handle : ℕ) (e : P.Entropy)
    (peer : Bool) : Performs s (s.startOps h handle e peer) (s.start h handle e peer).state := by
  have hlaunch : Performs s (sendHandshakeOps
      { s with handle, protocol := some (s.openProtocol handle e).1 } (s.openProtocol handle e).2)
      (s.launch handle e) := by
    refine Performs.after ?_ (performs_sendHandshake _ _)
    exact ⟨rfl, rfl, rfl, rfl⟩
  unfold startOps start
  dsimp only
  refine hlaunch.trans ?_
  split
  · exact (SameSend.refl _).performs
  split
  · refine Performs.after ?_ (performs_notify h .established _)
    exact ⟨rfl, rfl, rfl, rfl⟩
  · exact SameSend.performs ⟨rfl, rfl, rfl, rfl⟩

theorem performs_step {l : Step P} (h : s.step l = some s') : Performs s (s.stepOps l) s' := by
  cases l with
  | start hd handle e peer =>
      simp only [step, Option.ite_none_right_eq_some, Option.some.injEq] at h
      rw [← h.2]
      exact performs_start hd s handle e peer
  | recvDone hd chunk =>
      simp only [step, Option.ite_none_right_eq_some, Option.some.injEq] at h
      rw [← h.2]
      exact performs_handleRecv hd s chunk
  | recvFailed hd =>
      simp only [step, Option.ite_none_right_eq_some, Option.some.injEq] at h
      rw [← h.2]
      refine Performs.after ?_ (performs_handleClose hd _)
      exact ⟨rfl, rfl, rfl, rfl⟩
  | sendDone len =>
      simp only [step] at h
      split at h
      · cases h
      · next index size hpending =>
          simp only [Option.ite_none_right_eq_some, Option.some.injEq] at h
          rw [← h.2]
          exact performs_sendDone hpending h.1.1 h.1.2
  | sendFailed hd =>
      simp only [step, Option.ite_none_right_eq_some, Option.some.injEq] at h
      rw [← h.2]
      exact (performs_sendFailed h.1).trans (performs_handleClose hd _)
  | app c =>
      simp only [step, Option.ite_none_right_eq_some, Option.some.injEq] at h
      rw [← h.2]
      exact performs_appCall s c

theorem performs_run {ls : List (Step P)} (h : runSteps step s ls = some s') :
    Performs s (s.runOps ls) s' := by
  induction ls generalizing s with
  | nil =>
      obtain rfl := Option.some.inj h
      exact (SameSend.refl s).performs
  | cons l ls ih =>
      obtain ⟨s₁, h₁, hrest⟩ := runSteps_cons_eq_some.mp h
      rw [runOps, h₁, Option.elim_some]
      exact (performs_step h₁).trans (ih hrest)

/-- **The buffer being sent is never touched**, whatever the order of the
sections; and a run of a session goes through the sections `runOps`, so that
at every point of it there is at most one `async_send`, on the buffer that
does not accumulate, exactly when `sending_` is set and none has failed. -/
theorem sendBuffers_sound (accepted : Bool) (ls : List (Step P)) {s : Session P}
    (hrun : runSteps step (new accepted) ls = some s) :
    (∀ ops, Always SendSide.step SendSide.Sound {} ops) ∧
      ∃ m, runSteps SendSide.step {} ((new accepted : Session P).runOps ls) = some m ∧
        Agrees m s ∧ m.Sound := by
  refine ⟨SendSide.always_sound, ?_⟩
  have hnew : Agrees {} (new accepted : Session P) := ⟨rfl, rfl, rfl, rfl⟩
  obtain ⟨m, hm, hagrees⟩ := performs_run hrun {} SendSide.inv_new hnew
  exact ⟨m, hm, hagrees, SendSide.always_sound _ _ m (List.prefix_refl _) hm⟩

/-- A send from a callback, one that completes in part, and one that fails. -/
theorem sendBuffers_sound_partial :
    ∃ m, runSteps SendSide.step {} ((new true : Session streamProtocol).runOps
        [.start (fun _ => { calls := [.sendRaw [1, 2]] }) 5 () true, .app (.sendRaw [3]),
          .sendDone 1, .sendFailed silent]) = some m ∧ m.Sound ∧ m.failed = true := by
  obtain ⟨-, m, hm, -, hsound⟩ := sendBuffers_sound (P := streamProtocol) true
    [.start (fun _ => { calls := [.sendRaw [1, 2]] }) 5 () true, .app (.sendRaw [3]),
      .sendDone 1, .sendFailed silent] rfl
  obtain rfl := Option.some.inj hm
  exact ⟨_, rfl, hsound, rfl⟩

end Session

end Play
