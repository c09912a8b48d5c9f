/-
Play/Endpoint.lean

One side of the secure channel.

A session of the secure protocol whose peer is honest goes through four
stages, and its stage determines what it has sent so far (`Endpoint`):

    idle            nothing
    waiting key     key
    waiting nonce   key ++ nonce
    open            key ++ nonce ++ the frames sent

where the frames are encoded under the peer's receive key, with the nonce
that the peer drew and one step of it for each encrypted frame.  The lemmas
say how `start`, `handle_recv` and `send` move a side.  Applications send
frames in their callbacks (`Replies`), so a receive can lengthen the stream
too.
-/
import Play.Handshake
import Play.Chunking
import Play.Stable

namespace Play

/-! ### Applications that send frames -/

/-- A frame that `session::send` takes. -/
abbrev ValidFrame (n : ℕ) :=
  { m : SecureFrame n // 0 < m.2.1.length ∧ m.2.1.length < maxSendSize }

/-- What an application sends in its callbacks. -/
abbrev Replies (n : ℕ) := List (Callback (BitVec (8 * n))) → List (ValidFrame n)

variable {S : Sodium} {n : ℕ}

/-- The frame as a call on the session. -/
def ValidFrame.call (m : ValidFrame n) : AppCall (BitVec (8 * n)) :=
  .send m.1.1 m.1.2.1 m.1.2.2

/-- The handler of such an application. -/
def Replies.handler (r : Replies n) : Handler (secureProtocol S n).Topic := fun log =>
  { calls := (r log).map ValidFrame.call }

/-- The frames that a session was asked to send. -/
def framesOf (s : Session (secureProtocol S n)) : List (SecureFrame n) :=
  s.sent

/-! ### Stages -/

namespace Party

/-- How far a party has come. -/
inductive Stage
  | idle
  | waitKey
  | waitNonce
  | opened
  deriving DecidableEq

/-- The stage of a session, from its protocol object. -/
def stage (s : Session (secureProtocol S n)) : Stage :=
  match s.protocol.map SecureState.cipherHandshake with
  | none => .idle
  | some none => .waitKey
  | some (some hs) =>
      if hs.established then .opened else if hs.keyReceived then .waitNonce else .waitKey

section

variable (n : ℕ) (parties : Bool → Party)

/-- A side that has nothing to say yet: its object, and its stream so far. -/
structure Quiet (p : SecureState) (out : Bytes) (s : Session (secureProtocol S n)) : Prop where
  protocol : s.protocol = some p
  isOpen : s.isOpen = true
  appended : s.appended = out
  frames : framesOf s = []
  log : s.log = []

variable (hS : S.Lawful)

/-- The stream of a side from the second handshake message on. -/
def stream (X : Bool) (ms : List (SecureFrame n)) : Bytes :=
  keyMessage S parties X ++ (nonceMessage S parties X ++
    (secureCodec hS n).encodeAll (rx₀ S parties (!X)) ms)

/-- A side that is open: its stream is the handshake and the frames, and its
send nonce is where the frames have brought it. -/
structure Sends (X : Bool) (s : Session (secureProtocol S n)) : Prop where
  isOpen : s.isOpen = true
  valid : ∀ m ∈ framesOf s, (secureCodec hS n).Valid m
  appended : s.appended = stream n parties hS X (framesOf s)
  protocol : ∃ rn, s.protocol = some (stateOf parties X (openHs S parties X rn
    ((secureCodec hS n).nextAll (rx₀ S parties (!X)) (framesOf s)).2))

/-- A side at a stage. -/
def Endpoint (X : Bool) : Stage → Session (secureProtocol S n) → Prop
  | .idle, s => s = .new X
  | .waitKey, s =>
      Quiet n (stateOf parties X (waitKeyHs S parties X)) (keyMessage S parties X) s ∧
        s.recvPending = true
  | .waitNonce, s =>
      Quiet n (stateOf parties X (waitNonceHs S parties X)) (stream n parties hS X []) s ∧
        s.recvPending = true
  | .opened, s => Sends n parties hS X s ∧ s.recvPending = true

/-- What one step adds to the stream of a side: from the second handshake
message on, the frames that it adds to those asked for. -/
def Grows (X : Bool) (s s' : Session (secureProtocol S n)) : Prop :=
  ∃ ms b, framesOf s' = framesOf s ++ ms ∧ s'.appended = s.appended ++ b ∧
    (98 ≤ s.appended.length →
      b = (secureCodec hS n).encodeAll
        ((secureCodec hS n).nextAll (rx₀ S parties (!X)) (framesOf s)) ms)

end

section

variable {hS : S.Lawful} {parties : Bool → Party} {X : Bool} {s : Session (secureProtocol S n)}

theorem Endpoint.stage_eq {st : Stage} (h : Endpoint n parties hS X st s) : stage s = st := by
  cases st with
  | idle => rw [show s = _ from h]; rfl
  | waitKey => simp only [stage, (show Quiet n _ _ s ∧ _ from h).1.protocol]; rfl
  | waitNonce => simp only [stage, (show Quiet n _ _ s ∧ _ from h).1.protocol]; rfl
  | opened =>
      obtain ⟨rn, hp⟩ := (show Sends n parties hS X s ∧ _ from h).1.protocol
      simp only [stage, hp]
      rfl

theorem secureNext_fst (r : RxState) (m : SecureFrame n) : (secureNext n r m).1 = r.1 := by
  unfold secureNext
  split <;> rfl

theorem nextAll_fst (r : RxState) (ms : List (SecureFrame n)) :
    ((secureCodec hS n).nextAll r ms).1 = r.1 := by
  induction ms generalizing r with
  | nil => rfl
  | cons m ms ih => exact (ih _).trans (secureNext_fst r m)

theorem length_stream (ms : List (SecureFrame n)) : 98 ≤ (stream n parties hS X ms).length := by
  rw [stream, List.length_append, List.length_append, length_keyMessage, length_nonceMessage]
  omega

theorem stream_nil :
    stream n parties hS X [] = keyMessage S parties X ++ nonceMessage S parties X := by
  rw [stream, FrameCodec.encodeAll, List.append_nil]

theorem stream_append (ms ms' : List (SecureFrame n)) :
    stream n parties hS X (ms ++ ms') = stream n parties hS X ms ++
      (secureCodec hS n).encodeAll ((secureCodec hS n).nextAll (rx₀ S parties (!X)) ms) ms' := by
  rw [stream, stream, FrameCodec.encodeAll_append]
  simp only [List.append_assoc]

/-! ### Sending on an open side -/

theorem Sends.appCall (hs : Sends n parties hS X s) (m : ValidFrame n) :
    Sends n parties hS X (s.appCall m.call) := by
  obtain ⟨rn, hp⟩ := hs.protocol
  have hstate : (secureCodec hS n).nextAll (rx₀ S parties (!X)) (framesOf s)
      = (rxKey S parties (!X), ((secureCodec hS n).nextAll (rx₀ S parties (!X)) (framesOf s)).2) :=
    Prod.ext (nextAll_fst _ _) rfl
  -- the codec's encoding from the state that the frames so far have led to
  have henc := secureEncode_open hS parties X rn
    ((secureCodec hS n).nextAll (rx₀ S parties (!X)) (framesOf s)).2 m.1
  rw [← hstate] at henc
  obtain ⟨hopen, hproto, happ, hsent⟩ :=
    Session.send_of_encode hs.isOpen m.2.1 m.2.2 hp henc
  have hframes : framesOf (s.appCall m.call) = framesOf s ++ [m.1] := hsent
  refine ⟨hopen, ?_, ?_, rn, ?_⟩
  · rw [hframes]
    intro m' hm'
    rcases List.mem_append.mp hm' with hm' | hm'
    · exact hs.valid m' hm'
    · rw [List.mem_singleton.mp hm']
      exact m.2
  · rw [hframes, stream_append, ← hs.appended, FrameCodec.encodeAll, FrameCodec.encodeAll,
      List.append_nil]
    exact happ
  · rw [hframes, FrameCodec.nextAll_snoc]
    exact hproto

theorem Endpoint.appCall (hs : Endpoint n parties hS X .opened s) (m : ValidFrame n) :
    Endpoint n parties hS X .opened (s.appCall m.call) :=
  ⟨hs.1.appCall m, (Session.sameRecv_appCall s m.call).recvPending.trans hs.2⟩

theorem Sends.setRecv (hs : Sends n parties hS X s)
    (log : List (Callback (secureProtocol S n).Topic))
    (recvBuf : Bytes) (recvPending : Bool) :
    Sends n parties hS X { s with log, recvBuf, recvPending } :=
  ⟨hs.isOpen, hs.valid, hs.appended, hs.protocol⟩

theorem Sends.sendAll (hs : Sends n parties hS X s) (ms : List (ValidFrame n)) :
    Sends n parties hS X ((ms.map ValidFrame.call).foldl Session.appCall s) := by
  induction ms generalizing s with
  | nil => exact hs
  | cons m ms ih => exact ih (hs.appCall m)

theorem Sends.notify (hs : Sends n parties hS X s) (r : Replies n)
    (c : Callback (secureProtocol S n).Topic) :
    Sends n parties hS X (Session.notify r.handler c s).state := by
  rw [Session.notify_state]
  exact (hs.setRecv (s.log ++ [c]) s.recvBuf s.recvPending).sendAll _

/-- Receiving frames does not disturb the sending half. -/
theorem Sends.recvFramesTurn (hs : Sends n parties hS X s) (r : Replies n) :
    Sends n parties hS X (Session.recvFramesTurn r.handler s).state := by
  obtain ⟨rn, hp⟩ := hs.protocol
  rcases Session.recvFramesTurn_cases r.handler s with
    ⟨-, ht⟩ | ⟨p, p', hp', -, hd⟩
  · rw [ht]
    exact hs
  obtain rfl := Option.some.inj (hp.symm.trans hp')
  obtain ⟨rn', x', hx⟩ := secureDecode_open (n := n) hS parties X rn
    ((secureCodec hS n).nextAll (rx₀ S parties (!X)) (framesOf s)).2 s.recvBuf
  rcases hd with ⟨e, he, -⟩ | ⟨x, he, hr⟩
  · cases he.symm.trans hx
  · -- only the receive nonce has moved
    have hset : Sends n parties hS X { s with protocol := some p', recvBuf := x.src } :=
      ⟨hs.isOpen, hs.valid, hs.appended, rn', by rw [(Prod.mk.inj (he.symm.trans hx)).1]; rfl⟩
    have hn := hset.notify r (.receive x.topic x.frame)
    rcases hr with ⟨-, ht⟩ | ⟨-, s₁, hs₁, -⟩ | ⟨-, s₁, hs₁, ht⟩
    · rw [ht]
      exact hset
    · cases Session.throws_of_notify hs₁
    · rw [hs₁] at hn
      rw [ht]
      exact hn.setRecv s₁.log _ s₁.recvPending

theorem Sends.recvFramesLoop (hs : Sends n parties hS X s) (r : Replies n) (k : ℕ) :
    Sends n parties hS X (Session.recvFramesLoop r.handler k s) := by
  induction k generalizing s with
  | zero => exact hs
  | succ k ih =>
      have ht := hs.recvFramesTurn r
      rw [Session.recvFramesLoop]
      rcases hturn : Session.recvFramesTurn r.handler s with s' | s' <;> rw [hturn] at ht
      · exact ih ht
      · exact ht

theorem Sends.handleRecv (hs : Sends n parties hS X s) (r : Replies n) (chunk : Bytes) :
    Endpoint n parties hS X .opened (s.handleRecv r.handler chunk).state := by
  obtain ⟨rn, hp⟩ := hs.protocol
  rcases Session.handleRecv_cases r.handler hp chunk with ⟨-, hr⟩ | ⟨hest, -⟩
  · rw [hr]
    have hcommit := hs.setRecv s.log (s.recvBuf ++ chunk) false
    exact ⟨(hcommit.recvFramesLoop r _).setRecv _ _ true, rfl⟩
  · cases hest

/-! ### The handshake of one side -/

/-- Handshake bytes leave a quiet side quiet. -/
theorem Quiet.sendHandshake {p : SecureState} {out : Bytes} (hs : Quiet n p out s) (buf : Bytes) :
    Quiet n p (out ++ buf) (s.sendHandshake buf) := by
  obtain ⟨hopen, happ, hsent⟩ := Session.sendHandshake_of_isOpen hs.isOpen buf
  have hsame := Session.sameRecv_sendHandshake s buf
  exact {
    protocol := (Session.protocol_sendHandshake s buf).trans hs.protocol
    isOpen := hopen
    appended := by rw [happ, hs.appended]
    frames := (show framesOf _ = framesOf s from hsent).trans hs.frames
    log := hsame.log.trans hs.log }

theorem Quiet.startRecv {p : SecureState} {out : Bytes} (hs : Quiet n p out s) :
    Quiet n p out s.startRecv :=
  ⟨hs.protocol, hs.isOpen, hs.appended, hs.frames, hs.log⟩

/-- One handshake message taken from the receive buffer. -/
theorem Quiet.takeHandshake {p : SecureState} {out : Bytes} (hs : Quiet n p out s)
    (p' : SecureState) (chunk : Bytes) (k : ℕ) (buf : Bytes) :
    Quiet n p' (out ++ buf) ((s.commitRecv chunk).takeHandshake p' k buf) ∧
      ((s.commitRecv chunk).takeHandshake p' k buf).recvBuf = (s.recvBuf ++ chunk).drop k := by
  have hset : Quiet n p' out
      { s.commitRecv chunk with protocol := some p', recvBuf := (s.recvBuf ++ chunk).drop k } :=
    ⟨rfl, hs.isOpen, hs.appended, hs.frames, hs.log⟩
  exact ⟨hset.sendHandshake buf, (Session.sameRecv_sendHandshake _ buf).recvBuf⟩

theorem openProtocol_eq :
    Session.openProtocol (P := secureProtocol S n) (.new X) (parties X).handle
      (parties X).draws = (stateOf parties X (waitKeyHs S parties X), keyMessage S parties X) := by
  rw [← secureBegin_eq]
  cases X <;> rfl

theorem Quiet.launch (S : Sodium) (parties : Bool → Party) (X : Bool) :
    Quiet n (stateOf parties X (waitKeyHs S parties X)) (keyMessage S parties X)
    (Session.launch (P := secureProtocol S n) (.new X) (parties X).handle
      (parties X).draws) ∧
    (Session.launch (P := secureProtocol S n) (.new X) (parties X).handle
      (parties X).draws).recvBuf = [] := by
  have hset : Quiet n (stateOf parties X (waitKeyHs S parties X)) []
      ({ accepted := X, handle := (parties X).handle,
         protocol := some (stateOf parties X (waitKeyHs S parties X)) } :
        Session (secureProtocol S n)) :=
    ⟨rfl, rfl, rfl, rfl, rfl⟩
  unfold Session.launch
  rw [openProtocol_eq]
  exact ⟨hset.sendHandshake _, (Session.sameRecv_sendHandshake _ _).recvBuf⟩

/-- `start` sends the key. -/
theorem Endpoint.start (hs : Endpoint n parties hS X .idle s) (r : Replies n) :
    Endpoint n parties hS X .waitKey
      (s.start r.handler (parties X).handle (parties X).draws true).state ∧
    (s.start r.handler (parties X).handle (parties X).draws true).state.recvBuf = [] := by
  obtain rfl : s = .new X := hs
  obtain ⟨hq, hbuf⟩ := Quiet.launch (n := n) S parties X
  have hest : (Session.launch (P := secureProtocol S n) (.new X) (parties X).handle
      (parties X).draws).startRecv.isEstablished = false := by
    rw [Session.isEstablished, hq.startRecv.protocol]
    rfl
  unfold Session.start
  dsimp only
  rw [if_neg (by simp [hq.isOpen]), if_neg (by simp [hest])]
  exact ⟨⟨hq.startRecv, rfl⟩, hbuf⟩

/-- A receive that leaves the handshake unfinished. -/
theorem Quiet.handleRecv {p p' : SecureState} {out chunk buf : Bytes} {k : ℕ}
    (hs : Quiet n p out s) (hp : p.isEstablished = false) (hp' : p'.isEstablished = false)
    (hh : secureHandshake S p (s.recvBuf ++ chunk) = (p', .ok (k, buf)))
    (h : Handler (secureProtocol S n).Topic) :
    (Quiet n p' (out ++ buf) (s.handleRecv h chunk).state ∧
      (s.handleRecv h chunk).state.recvPending = true) ∧
      (s.handleRecv h chunk).state.recvBuf = (s.recvBuf ++ chunk).drop k := by
  obtain ⟨hq, hbuf⟩ := hs.takeHandshake p' chunk k buf
  rcases Session.handleRecv_cases h hs.protocol chunk with
    ⟨hest, -⟩ | ⟨-, p₁, ⟨e, he, -⟩ | ⟨k₁, buf₁, he, ⟨hest, -⟩ | ⟨-, hr⟩⟩⟩
  · cases hp.symm.trans hest
  · cases hh.symm.trans he
  · cases hh.symm.trans he
    cases hp'.symm.trans hest
  · cases hh.symm.trans he
    rw [hr]
    exact ⟨⟨hq.startRecv, rfl⟩, hbuf⟩

/-- The session as `on_established` finds it. -/
theorem Quiet.sends (hs : Quiet n (stateOf parties X (openHs S parties X (parties X).draws.nonce
      (parties (!X)).draws.nonce)) (stream n parties hS X []) s) : Sends n parties hS X s := by
  refine ⟨hs.isOpen, ?_, ?_, (parties X).draws.nonce, ?_⟩
  · rw [hs.frames]
    intro m hm
    cases hm
  · rw [hs.frames, hs.appended]
  · rw [hs.frames]
    exact hs.protocol

theorem Quiet.holds {rn tn : Nonce} {out : Bytes}
    (hs : Quiet n (stateOf parties X (openHs S parties X rn tn)) out s) :
    Session.Holds SecureState.rx (rxKey S parties X, rn) [] s.recvBuf s := by
  refine ⟨?_, hs.log, rfl⟩
  rw [hs.protocol]
  rfl

/-- `on_established`, then `recv_frames`. -/
theorem Sends.establish {q : RxState} (hs : Sends n parties hS X s)
    (hh : Session.Holds SecureState.rx q [] s.recvBuf s) (r : Replies n) :
    ∃ s', ((Session.notify r.handler .established s).andThen fun s =>
        .done (s.recvFrames r.handler).startRecv) = .done s' ∧
      Endpoint n parties hS X .opened s' ∧
      Session.Holds SecureState.rx ((secureDecoder S n).drain q s.recvBuf).1
        (.established :: Session.receives ((secureDecoder S n).drain q s.recvBuf).2.1)
        ((secureDecoder S n).drain q s.recvBuf).2.2 s' := by
  have hsends := hs.notify r .established
  have hholds := hh.notify (secureProtocol_framedBy S n) r.handler .established
  rcases hn : Session.notify r.handler .established s with s₁ | s₁
  · rw [hn] at hsends hholds
    have hloop := hholds.recvFramesLoop (secureProtocol_framedBy S n) (h := r.handler)
      (fun _ => rfl) (k := s₁.recvBuf.length) (by rw [← hholds.recvBuf]; rfl)
    exact ⟨_, rfl, ⟨(hsends.recvFramesLoop r _).setRecv _ _ _, rfl⟩, hloop.protocol, hloop.log,
      hloop.recvBuf⟩
  · cases Session.throws_of_notify hn

/-- A receive that ends the handshake: the frames behind it are read at once. -/
theorem Quiet.handleRecv_opens {chunk rest : Bytes}
    (hs : Quiet n (stateOf parties X (waitNonceHs S parties X)) (stream n parties hS X []) s)
    (hb : s.recvBuf ++ chunk = nonceMessage S parties (!X) ++ rest) (r : Replies n) :
    Endpoint n parties hS X .opened (s.handleRecv r.handler chunk).state ∧
    Session.Holds SecureState.rx ((secureDecoder S n).drain (rx₀ S parties X) rest).1
      (.established :: Session.receives ((secureDecoder S n).drain (rx₀ S parties X) rest).2.1)
      ((secureDecoder S n).drain (rx₀ S parties X) rest).2.2
      (s.handleRecv r.handler chunk).state := by
  have hh := secureHandshake_nonce hS parties X rest
  rw [← hb] at hh
  obtain ⟨hq, hbuf⟩ := hs.takeHandshake (stateOf parties X (openHs S parties X
    (parties X).draws.nonce (parties (!X)).draws.nonce)) chunk 61 []
  rw [List.append_nil] at hq
  rw [hb, List.drop_left' length_nonceMessage] at hbuf
  rcases Session.handleRecv_cases r.handler hs.protocol chunk with
    ⟨hest, -⟩ | ⟨-, p₁, ⟨e, he, -⟩ | ⟨k₁, buf₁, he, ⟨-, hr⟩ | ⟨hest, -⟩⟩⟩
  · cases hest
  · cases hh.symm.trans he
  · cases hh.symm.trans he
    obtain ⟨s', hdone, hend, hholds⟩ := hq.sends.establish hq.holds r
    rw [hbuf] at hholds
    rw [hr, hdone]
    exact ⟨hend, hholds⟩
  · cases hh.symm.trans he
    cases hest

/-! ### How a stream grows -/

/-- Before that, anything may be added. -/
theorem Grows.of_lt {s' : Session (secureProtocol S n)} {b : Bytes} (hs : framesOf s = [])
    (hs' : framesOf s' = []) (h : s'.appended = s.appended ++ b) (hlt : s.appended.length < 98) :
    Grows n parties hS X s s' :=
  ⟨[], b, by rw [hs, hs']; rfl, h, fun h => by omega⟩

theorem Grows.of_stream {s' : Session (secureProtocol S n)}
    (hs : s.appended = stream n parties hS X (framesOf s))
    (hs' : s'.appended = stream n parties hS X (framesOf s'))
    (h : s.sent <+: s'.sent) : Grows n parties hS X s s' := by
  obtain ⟨ms, hms⟩ : framesOf s <+: framesOf s' := h
  refine ⟨ms, _, hms.symm, ?_, fun _ => rfl⟩
  rw [hs', ← hms, stream_append, ← hs]

end

end Party

end Play
