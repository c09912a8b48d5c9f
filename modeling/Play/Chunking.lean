/-
Play/Chunking.lean

After the handshake it does not matter how the received bytes are cut into
chunks.

A session with frames is, as far as the handler can see, the decoder of its
protocol: `Holds` says which receive state, which callbacks and which bytes a
session has, and each level of `handle_recv` is one operation of
`Play.Framing`:

    one turn of recv_frames       one answer of the decoder
    recv_frames                   drain
    handle_recv on a chunk list   feed

so `Decoder.feed_eq_of_flatten_eq` applies.  The bytes may be anything.  What
the callbacks do is not restricted either, as long as they return: sending
changes the send half of the protocol object only.

The loop of `recv_frames` is modelled with as many turns as there are bytes.
`RecvFramesEnds` is the loop without a bound, and the two agree.
-/
import Play.Session
import Play.Frames

namespace Play

namespace Session

variable {P : Protocol}

/-! ### The loop of recv_frames ends -/

/-- The loop of `recv_frames`, started in a state, ends in another one. -/
inductive RecvFramesEnds (h : Handler P.Topic) : Session P → Session P → Prop
  | exit {s s'} : recvFramesTurn h s = .exit s' → RecvFramesEnds h s s'
  | next {s s' s''} : recvFramesTurn h s = .next s' → RecvFramesEnds h s' s'' →
      RecvFramesEnds h s s''

/-- Decoding in place does not change how many bytes there are. -/
def KeepsSize (P : Protocol) : Prop :=
  ∀ {p b p' r}, P.decode p b = (p', .ok r) → r.src.length = b.length

/-- A turn that goes on leaves fewer bytes. -/
theorem length_recvBuf_next (hP : KeepsSize P) {h : Handler P.Topic} {s s' : Session P}
    (ht : recvFramesTurn h s = .next s') : s'.recvBuf.length < s.recvBuf.length := by
  rcases recvFramesTurn_cases h s with ⟨-, ht'⟩ | ⟨p, p', hp, hb, ⟨e, -, ht'⟩ | ⟨r, hd, hr⟩⟩
  · cases ht.symm.trans ht'
  · cases ht.symm.trans ht'
  rcases hr with ⟨-, ht'⟩ | ⟨-, s₁, -, ht'⟩ | ⟨hc, s₁, hs₁, ht'⟩
  · cases ht.symm.trans ht'
  · cases ht.symm.trans ht'
  · cases ht.symm.trans ht'
    have hbuf := (sameRecv_notify h (.receive r.topic r.frame)
      { s with protocol := some p', recvBuf := r.src }).recvBuf
    rw [hs₁] at hbuf
    -- the application cannot touch the receive buffer, so `consume` shortens it
    have hlen := hP hd
    have hpos := List.length_pos_of_ne_nil hb
    show (s₁.recvBuf.drop r.consumed).length < _
    rw [List.length_drop, show s₁.recvBuf = r.src from hbuf]
    omega

theorem recvFramesLoop_ends (hP : KeepsSize P) (h : Handler P.Topic) {k : ℕ} {s : Session P}
    (hk : s.recvBuf.length ≤ k) : RecvFramesEnds h s (recvFramesLoop h k s) := by
  induction k generalizing s with
  | zero =>
      have : s.recvBuf.length = 0 := by omega
      exact .exit (by rw [recvFramesTurn, if_pos this]; rfl)
  | succ k ih =>
      rw [recvFramesLoop]
      rcases ht : recvFramesTurn h s with s' | s'
      · have := length_recvBuf_next hP ht
        exact .next ht (ih (by omega))
      · exact .exit ht

/-! ### One turn is one answer of the decoder -/

/-- A handler whose callbacks return. -/
def Calm (h : Handler P.Topic) : Prop :=
  ∀ log, (h log).throws = false

/-- The session is established, with receive state `r`, the callbacks `log`
and the bytes `b` in its receive buffer. -/
structure Holds {ρ : Type} (rx : P.State → ρ) (r : ρ) (log : List (Callback P.Topic)) (b : Bytes)
    (s : Session P) : Prop where
  protocol : s.protocol.map (fun p => (P.isEstablished p, rx p)) = some (true, r)
  log : s.log = log
  recvBuf : s.recvBuf = b

/-- The callbacks for a list of frames. -/
def receives {T : Type} (fs : List (T × Bytes)) : List (Callback T) :=
  fs.map fun f => .receive f.1 f.2

theorem receives_append {T : Type} (fs gs : List (T × Bytes)) :
    receives (fs ++ gs) = receives fs ++ receives gs :=
  List.map_append

section

variable {ρ : Type} {D : Decoder ρ UInt8 (P.Topic × Bytes)} {rx : P.State → ρ}
variable (hF : FramedBy P D rx) {h : Handler P.Topic} (hh : Calm h)
variable {r : ρ} {log : List (Callback P.Topic)} {b : Bytes} {s : Session P}
include hF

theorem encodes_rx : Encodes P fun p => (P.isEstablished p, rx p) := by
  intro p t d e
  exact Prod.ext (hF.lawful.isEstablished_encode p t d e) (hF.rx_encode p t d e)

omit hF in
theorem Holds.exists_protocol (hs : Holds rx r log b s) :
    ∃ p, s.protocol = some p ∧ P.isEstablished p = true ∧ rx p = r := by
  obtain ⟨p, hp, hpr⟩ := Option.map_eq_some_iff.mp hs.protocol
  rw [Prod.mk.injEq] at hpr
  exact ⟨p, hp, hpr.1, hpr.2⟩

/-- A callback adds itself to the log and changes nothing else here. -/
theorem Holds.notify (hs : Holds rx r log b s) (h : Handler P.Topic) (c : Callback P.Topic) :
    Holds rx r (log ++ [c]) b (notify h c s).state := by
  have hsame := sameRecv_notify h c s
  refine ⟨(protocol_notify (encodes_rx hF) h c s).trans hs.protocol, ?_, ?_⟩
  · rw [hsame.log, ← hs.log]
  · rw [hsame.recvBuf, ← hs.recvBuf]

theorem Holds.turn_settled (hs : Holds rx r log b s) (hset : D.Settled r b) :
    ∃ s', recvFramesTurn h s = .exit s' ∧ Holds rx r log b s' := by
  obtain ⟨p, hp, hest, rfl⟩ := hs.exists_protocol
  obtain rfl := hs.recvBuf
  have hkeep : ∀ o, Holds rx (rx p) log s.recvBuf { s with protocol := some p, isOpen := o } :=
    fun o => ⟨by simp [hest], hs.log, rfl⟩
  have hs' : { s with protocol := some p } = s := by rw [← hp]
  by_cases hb : s.recvBuf = []
  · exact ⟨s, by simp [recvFramesTurn, hb], hs⟩
  have hlen : s.recvBuf.length ≠ 0 := by simpa using hb
  rcases hd : D.decode (rx p) s.recvBuf with - | ⟨k, r', f⟩ | -
  · obtain ⟨x, hx, hc, hsrc⟩ := hF.decode_more hest hd
    refine ⟨{ s with protocol := some p, recvBuf := x.src }, ?_, ?_⟩
    · simp [recvFramesTurn, hlen, hp, hx, hc]
    · rw [hsrc]
      exact hkeep s.isOpen
  · exact absurd hd (hset k r' f)
  · -- an exception closes the socket, and the buffer is as it was
    obtain ⟨e, he⟩ := hF.decode_fail hest hd
    exact ⟨_, by simp [recvFramesTurn, hlen, hp, he, close_eq], hkeep false⟩

include hh in
theorem Holds.turn_frame (hs : Holds rx r log b s) {k : ℕ} {r' : ρ} {f : P.Topic × Bytes}
    (hd : D.decode r b = .frame k r' f) :
    ∃ s', recvFramesTurn h s = .next s' ∧
      Holds rx r' (log ++ [.receive f.1 f.2]) (b.drop k) s' := by
  obtain ⟨p, hp, hest, rfl⟩ := hs.exists_protocol
  obtain rfl := hs.recvBuf
  have hk := D.frame_bound hd
  have hlen : s.recvBuf.length ≠ 0 := by omega
  obtain ⟨p', x, hx, rfl, rfl, hsrc, rfl⟩ := hF.decode_frame hest hd
  have hest' : P.isEstablished p' = true := by
    have := hF.lawful.isEstablished_decode p s.recvBuf
    rw [hx] at this
    exact this.trans hest
  have hset : Holds rx (rx p') log x.src { s with protocol := some p', recvBuf := x.src } :=
    ⟨by simp [hest'], hs.log, rfl⟩
  have hn := hset.notify hF h (.receive x.topic x.frame)
  rcases hcb : Session.notify h (.receive x.topic x.frame)
    { s with protocol := some p', recvBuf := x.src } with s₁ | s₁ <;> rw [hcb] at hn
  · refine ⟨{ s₁ with recvBuf := s₁.recvBuf.drop x.consumed }, ?_, hn.protocol, hn.log, ?_⟩
    · simp [recvFramesTurn, hlen, hp, hx, hk.1, hcb]
    · rw [← hsrc]
      exact congrArg (List.drop x.consumed) hn.recvBuf
  · have := throws_of_notify hcb
    rw [hh] at this
    cases this

/-! ### Levels -/

include hh in
/-- `recv_frames` drains the receive buffer. -/
theorem Holds.recvFramesLoop (hs : Holds rx r log b s) {k : ℕ} (hk : b.length ≤ k) :
    Holds rx (D.drain r b).1 (log ++ receives (D.drain r b).2.1) (D.drain r b).2.2
      (recvFramesLoop h k s) := by
  -- one turn of the loop for each frame that the decoder drains
  induction r, b using D.drain_induction generalizing k log s with
  | settled r b hset =>
      rw [D.drain_settled hset]
      obtain ⟨s', ht, hs'⟩ := hs.turn_settled hF (h := h) hset
      rcases k with - | k
      · simpa [Session.recvFramesLoop, receives] using hs
      · simpa [Session.recvFramesLoop, receives, ht] using hs'
  | frame r b n r' f hd ih =>
      have hn := D.frame_bound hd
      obtain ⟨s', ht, hs'⟩ := hs.turn_frame hF hh hd
      rcases k with - | k
      · omega
      · have := ih hs' (k := k) (by rw [List.length_drop]; omega)
        rw [D.drain_frame hd]
        simpa [Session.recvFramesLoop, receives, ht] using this

include hh in
/-- `handle_recv` drains what was left together with the new chunk. -/
theorem Holds.handleRecv (hs : Holds rx r log b s) (chunk : Bytes) :
    Holds rx (D.drain r (b ++ chunk)).1 (log ++ receives (D.drain r (b ++ chunk)).2.1)
      (D.drain r (b ++ chunk)).2.2 (s.handleRecv h chunk).state := by
  obtain ⟨p, hp, hest, -⟩ := hs.exists_protocol
  have hcommit : Holds rx r log (b ++ chunk) (s.commitRecv chunk) :=
    ⟨hs.protocol, hs.log, congrArg (· ++ chunk) hs.recvBuf⟩
  rcases handleRecv_cases h hp chunk with ⟨-, hr⟩ | ⟨hest', -⟩
  · rw [hr]
    have := hcommit.recvFramesLoop hF hh (k := (s.commitRecv chunk).recvBuf.length)
      (by rw [hcommit.recvBuf])
    exact ⟨this.protocol, this.log, this.recvBuf⟩
  · rw [hest] at hest'
    cases hest'

end

/-- The completion handlers of successive receives, each with the handler
that is running and the chunk it got. -/
def handleRecvAll (s : Session P) : List (Handler P.Topic × Bytes) → Session P
  | [] => s
  | c :: cs => handleRecvAll (s.handleRecv c.1 c.2).state cs

section

variable {ρ : Type} {D : Decoder ρ UInt8 (P.Topic × Bytes)} {rx : P.State → ρ}
variable (hF : FramedBy P D rx)
include hF

/-- Receiving chunk after chunk feeds the decoder. -/
theorem Holds.handleRecvAll {r : ρ} {log : List (Callback P.Topic)} {fs : List (P.Topic × Bytes)}
    {b : Bytes} {s : Session P} (hs : Holds rx r (log ++ receives fs) b s)
    {cs : List (Handler P.Topic × Bytes)} (hcs : ∀ c ∈ cs, Calm c.1) :
    Holds rx (D.feed (r, fs, b) (cs.map Prod.snd)).1
      (log ++ receives (D.feed (r, fs, b) (cs.map Prod.snd)).2.1)
      (D.feed (r, fs, b) (cs.map Prod.snd)).2.2 (s.handleRecvAll cs) := by
  induction cs generalizing r fs b s with
  | nil => exact hs
  | cons c cs ih =>
      have hc := hs.handleRecv hF (hcs c (by simp)) c.2
      refine ih ?_ fun c' hc' => hcs c' (by simp [hc'])
      simpa [receives, List.append_assoc] using hc

/-- Two cuts of the same bytes leave the same receive state, the same
callbacks and the same bytes. -/
theorem Holds.of_cuts {r : ρ} {log : List (Callback P.Topic)} {b : Bytes} {s : Session P}
    (hs : Holds rx r log b s) {cs ds : List (Handler P.Topic × Bytes)}
    (hcs : ∀ c ∈ cs, Calm c.1 ∧ c.2 ≠ []) (hds : ∀ d ∈ ds, Calm d.1 ∧ d.2 ≠ [])
    (hjoin : (cs.map Prod.snd).flatten = (ds.map Prod.snd).flatten) :
    ∃ r' log' b', Holds rx r' log' b' (s.handleRecvAll cs) ∧
      Holds rx r' log' b' (s.handleRecvAll ds) := by
  have hs₀ : Holds rx r (log ++ receives []) b s := by simpa [receives] using hs
  have hfeed : D.feed (r, [], b) (cs.map Prod.snd) = D.feed (r, [], b) (ds.map Prod.snd) :=
    D.feed_eq_of_flatten_eq (by simpa using fun _ _ h => (hcs _ h).2)
      (by simpa using fun _ _ h => (hds _ h).2) hjoin (r, [], b)
  refine ⟨_, _, _, hs₀.handleRecvAll hF fun c hc => (hcs c hc).1, ?_⟩
  rw [hfeed]
  exact hs₀.handleRecvAll hF fun d hd => (hds d hd).1

end

/-! ### Chunking does not matter -/

/-- What the cutting into chunks must not change, for a protocol whose
receive nonce is `rxNonce`. -/
structure ChunkingIrrelevant (P : Protocol) {α : Type} (rxNonce : P.State → α) : Prop where
  /-- The loop of `recv_frames` ends in every state. -/
  ends : ∀ (h : Handler P.Topic) (s : Session P), RecvFramesEnds h s (s.recvFrames h)
  /-- Two cuts of the same bytes end alike on every established session. -/
  same : ∀ {s : Session P} {cs ds : List (Handler P.Topic × Bytes)}, s.isEstablished = true →
    (∀ c ∈ cs, Calm c.1 ∧ c.2 ≠ []) → (∀ d ∈ ds, Calm d.1 ∧ d.2 ≠ []) →
    (cs.map Prod.snd).flatten = (ds.map Prod.snd).flatten →
    (s.handleRecvAll cs).log = (s.handleRecvAll ds).log ∧
    (s.handleRecvAll cs).recvBuf = (s.handleRecvAll ds).recvBuf ∧
    (s.handleRecvAll cs).protocol.map rxNonce = (s.handleRecvAll ds).protocol.map rxNonce

theorem chunkingIrrelevant_of_framedBy {ρ α : Type} {D : Decoder ρ UInt8 (P.Topic × Bytes)}
    {rx : P.State → ρ} (hF : FramedBy P D rx) (hsize : KeepsSize P) {rxNonce : P.State → α}
    {f : ρ → α} (hnonce : ∀ {p}, P.isEstablished p = true → rxNonce p = f (rx p)) :
    ChunkingIrrelevant P rxNonce where
  ends h s := recvFramesLoop_ends hsize h le_rfl
  same := by
    intro s cs ds hest hcs hds hjoin
    obtain ⟨p, hp⟩ : ∃ p, s.protocol = some p := by
      rcases hp : s.protocol with - | p
      · simp [isEstablished, hp] at hest
      · exact ⟨p, rfl⟩
    have hs : Holds rx (rx p) s.log s.recvBuf s :=
      ⟨by simpa [hp, isEstablished] using hest, rfl, rfl⟩
    obtain ⟨r', log', b', hc, hd⟩ := hs.of_cuts hF hcs hds hjoin
    refine ⟨hc.log.trans hd.log.symm, hc.recvBuf.trans hd.recvBuf.symm, ?_⟩
    obtain ⟨p₁, h₁, he₁, hr₁⟩ := hc.exists_protocol
    obtain ⟨p₂, h₂, he₂, hr₂⟩ := hd.exists_protocol
    rw [h₁, h₂, Option.map_some, Option.map_some, hnonce he₁, hnonce he₂, hr₁, hr₂]

end Session

theorem plainProtocol_keepsSize (n : ℕ) : Session.KeepsSize (plainProtocol n) := by
  intro p b p' r h
  cases h
  exact congrArg List.length (plainDecode_src n b)

theorem secureProtocol_keepsSize (S : Sodium) (n : ℕ) : Session.KeepsSize (secureProtocol S n) := by
  intro p b p' r h
  change secureDecode S n p b = (p', .ok r) at h
  unfold secureDecode at h
  dsimp only at h
  split at h
  · cases h; rfl
  split at h
  · cases h; rfl
  split at h
  swap
  · cases h; rfl
  split at h
  · cases h
  next hmin htotal _ _ hs hcs =>
  -- the cipher is a stream cipher: the text has the length of the payload
  dsimp only [SodiumHandshake.cipherDecode] at h
  rcases hx : S.chacha20Xor ((b.drop (secureMinSize n)).take (secureLen n b)) hs.rxNonce hs.rxKey
    with - | body <;> rw [hx] at h <;> cases h
  have hbody := S.length_chacha20Xor hx
  rw [List.length_take, List.length_drop] at hbody
  rw [secureMinSize, lengthFieldSize, encFieldSize] at *
  simp only [List.length_append, List.length_take, List.length_drop]
  omega

/-- **Chunking does not matter after the handshake**: for the plain and the
secure protocol, any bytes and any two ways to cut them into chunks, an
established session makes the same callbacks and is left with the same bytes
and the same receive nonce; and the loop of `recv_frames` ends. -/
theorem chunking_irrelevant :
    (∀ n, Session.ChunkingIrrelevant (plainProtocol n) fun _ => ()) ∧
    (∀ S n, Session.ChunkingIrrelevant (secureProtocol S n) fun p =>
      p.cipherHandshake.map SodiumHandshake.rxNonce) := by
  refine ⟨fun n => ?_, fun S n => ?_⟩
  · exact Session.chunkingIrrelevant_of_framedBy (f := id) (plainProtocol_framedBy n)
      (plainProtocol_keepsSize n) fun _ => rfl
  · refine Session.chunkingIrrelevant_of_framedBy (f := fun r => some r.2)
      (secureProtocol_framedBy S n) (secureProtocol_keepsSize S n) ?_
    intro p hest
    obtain ⟨hs, hcs, -⟩ := SecureState.cipherHandshake_of_isEstablished hest
    simp [SecureState.rx, hcs]

end Play
