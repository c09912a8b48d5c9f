/-
Play/Wire.lean

What `send` puts on the wire, and what comes back from it.

`session::send` decides whether a frame is sent, `Protocol::encode` puts it
together.  A protocol that is closed, or has not finished its handshake,
refuses: it commits nothing and returns 0.  `send` does not look at this
number, and answers that the frame was sent.  `EncodesBy` says when a
protocol encodes and when it refuses, and with it the answer of `send` is
right exactly where the protocol does not refuse a frame that `send` lets
through (`send_tells_truth_iff`).

In the other direction, `plain_protocol` is a `FrameCodec`: frames that were
encoded one after the other, cut in any way, are delivered as they were
(`plain_round_trip`).
-/
import Play.Chunking

namespace Play

/-! ### plain_protocol as a codec -/

/-- A frame at the front of the buffer is decoded to what was encoded. -/
theorem plainDecode_encode {n : ℕ} (t : BitVec (8 * n)) {d : Bytes} (hpos : 0 < d.length)
    (hlen : d.length < 2 ^ 32) (c : Bytes) :
    plainDecode n (serialize t ++ LengthDelimited.encode d ++ c) =
      ⟨n + lengthFieldSize + d.length, d, t, serialize t ++ LengthDelimited.encode d ++ c⟩ := by
  have hsize : ¬ (serialize t ++ LengthDelimited.encode d ++ c).length ≤ plainMinSize n := by
    simp only [List.length_append, length_serialize, length_encode, plainMinSize]
    omega
  have hdrop : (serialize t ++ LengthDelimited.encode d ++ c).drop n
      = LengthDelimited.encode d ++ c := by
    rw [List.append_assoc, List.drop_left' (length_serialize t)]
  rw [plainDecode, if_neg hsize]
  dsimp only
  rw [hdrop, LengthDelimited.decode_encode hlen, if_pos hpos, List.append_assoc,
    deserialize_serialize]

/-- `plain_protocol` as a codec; a payload has bytes, and its length fits the
length field. -/
def plainCodec (n : ℕ) :
    FrameCodec Unit UInt8 (BitVec (8 * n) × Bytes) (BitVec (8 * n) × Bytes) where
  toDecoder := plainDecoder n
  encode _ m := serialize m.1 ++ LengthDelimited.encode m.2
  next r _ := r
  image m := m
  Valid m := 0 < m.2.length ∧ m.2.length < 2 ^ 32
  decode_encode := by
    intro r m hm c
    have hd := plainDecode_encode m.1 hm.1 hm.2 c
    have hpos : 0 < n + lengthFieldSize + m.2.length := by
      have := hm.1
      omega
    have hsize : n + lengthFieldSize + m.2.length
        = (serialize m.1 ++ LengthDelimited.encode m.2).length := by
      rw [List.length_append, length_serialize, length_encode]
      omega
    show (if _ then _ else _) = _
    rw [hd, if_pos hpos, hsize]

/-! ### When a protocol encodes -/

/-- What the members of a protocol say about sending: an object that is ready
encodes every frame that `session::send` lets through, as one frame for a peer
whose receive state is `tx`, and an object that is not commits nothing. -/
structure EncodesBy (P : Protocol) {ρ : Type} (D : Decoder ρ UInt8 (P.Topic × Bytes))
    (tx : P.State → ρ) (ready : P.State → Bool) : Prop where
  encode : ∀ {p t d} (e : Bool), ready p = true → 0 < d.length → d.length < P.maxSendSize →
    ∃ p' bytes r, P.encode p t d e = (p', .ok bytes) ∧
      D.decode (tx p) bytes = .frame bytes.length r (t, d)
  refuse : ∀ {p} (t d e), ready p = false → P.encode p t d e = (p, .ok [])

theorem plainProtocol_encodesBy (n : ℕ) :
    EncodesBy (plainProtocol n) (plainDecoder n) (fun _ => ()) fun p => !p.closed where
  encode := by
    intro p t d e hready hpos hmax
    have hclosed : p.closed = false := by simpa using hready
    have hvalid : (plainCodec n).Valid (t, d) := by
      change d.length < 1024 * 1024 at hmax
      exact ⟨hpos, by dsimp only; omega⟩
    refine ⟨p, (plainCodec n).encode () (t, d), (), if_neg (by simp [hclosed]), ?_⟩
    have hd := (plainCodec n).decode_encode (r := ()) hvalid []
    rwa [List.append_nil] at hd
  refuse := by
    intro p t d e hready
    have hclosed : p.closed = true := by simpa using hready
    exact if_pos hclosed

section Secure

variable {S : Sodium} {n : ℕ}

/-- The send half of the object: the receive half of its peer. -/
def SecureState.tx (p : SecureState) : RxState :=
  p.cipherHandshake.elim (.zero _, .zero _) fun hs => (hs.txKey, hs.txNonce)

/-- Encoding on an established object: the frame of the codec. -/
theorem secureEncode_established (hS : S.Lawful) {p : SecureState} (hest : p.isEstablished = true)
    (t : BitVec (8 * n)) (d : Bytes) (e : Bool) :
    ∃ p', secureEncode S n p t d e = (p', .ok ((secureCodec hS n).encode p.tx (t, d, e))) := by
  obtain ⟨hs, hcs, -⟩ := SecureState.cipherHandshake_of_isEstablished hest
  have htx : p.tx = (hs.txKey, hs.txNonce) := by simp [SecureState.tx, hcs]
  have hopen : ¬ p.closed = true := by
    intro hclosed
    simp [SecureState.isEstablished, hclosed] at hest
  rw [secureEncode, if_neg hopen, if_neg (by simp [hest]), htx]
  cases e with
  | false => exact ⟨p, rfl⟩
  | true =>
      obtain ⟨x, hx, -⟩ := hS.chacha20Xor_invol d hs.txNonce hs.txKey
      dsimp only
      rw [if_pos rfl, hcs]
      dsimp only [SodiumHandshake.cipherEncode]
      rw [hx]
      simp only [secureCodec, secureBody, if_true, hx, Option.getD_some]
      exact ⟨_, rfl⟩

theorem secureProtocol_encodesBy (hS : S.Lawful) (n : ℕ) :
    EncodesBy (secureProtocol S n) (secureDecoder S n) SecureState.tx
      SecureState.isEstablished where
  encode := by
    intro p t d e hready hpos hmax
    obtain ⟨p', henc⟩ := secureEncode_established hS hready t d e
    have hd := (secureCodec hS n).decode_encode (r := p.tx) (m := (t, d, e)) ⟨hpos, hmax⟩ []
    rw [List.append_nil] at hd
    exact ⟨p', _, _, henc, hd⟩
  refuse := by
    intro p t d e hready
    show secureEncode S n p t d e = (p, .ok [])
    unfold secureEncode
    split
    · rfl
    · rw [if_pos (by simp [hready])]
      rfl

end Secure

/-! ### What send answers -/

namespace Session

variable {P : Protocol}

/-- `send` is all or nothing and says which: it answers true exactly if it
appended one complete frame, for a peer that has received what was sent
before, and where it answers false it appended nothing and left the send half
of the protocol alone. -/
structure TellsTruth {ρ : Type} (D : Decoder ρ UInt8 (P.Topic × Bytes)) (tx : P.State → ρ)
    (s : Session P) (t : P.Topic) (d : Bytes) (e : Bool) : Prop where
  sent : (s.send t d e).2 = true ↔ ∃ p bytes r, s.protocol = some p ∧
    (s.send t d e).1.appended = s.appended ++ bytes ∧
    D.decode (tx p) bytes = .frame bytes.length r (t, d)
  refused : (s.send t d e).2 = false →
    (s.send t d e).1.appended = s.appended ∧ (s.send t d e).1.protocol.map tx = s.protocol.map tx

/-- The frames that `send` hands to the protocol. -/
def LetsThrough (s : Session P) (d : Bytes) : Prop :=
  s.isOpen = true ∧ 0 < d.length ∧ d.length < P.maxSendSize

theorem send_of_not_letsThrough {s : Session P} {d : Bytes} (h : ¬ s.LetsThrough d) (t : P.Topic)
    (e : Bool) : s.send t d e = ({ s with sent := s.sent ++ [(t, d, e)] }, false) := by
  rw [send]
  dsimp only
  split
  · rfl
  · next hopen =>
      split
      · rfl
      split
      · rfl
      · exact absurd ⟨by simpa using hopen, by omega, by omega⟩ h

/-- What was let through and encoded is answered with true. -/
theorem send_snd_of_encode {s : Session P} {p p' : P.State} {t : P.Topic} {d bytes : Bytes}
    {e : Bool} (h : s.LetsThrough d) (hp : s.protocol = some p)
    (he : P.encode p t d e = (p', .ok bytes)) : (s.send t d e).2 = true := by
  obtain ⟨hopen, hpos, hmax⟩ := h
  rw [send]
  dsimp only
  rw [if_neg (by simp [hopen]), if_neg (by omega), if_neg (by omega), hp]
  dsimp only
  rw [he]

variable {ρ : Type} {D : Decoder ρ UInt8 (P.Topic × Bytes)} {tx : P.State → ρ}
variable {ready : P.State → Bool}

theorem tellsTruth_iff (hE : EncodesBy P D tx ready) {s : Session P} {p : P.State}
    (hp : s.protocol = some p) (t : P.Topic) (d : Bytes) (e : Bool) :
    s.TellsTruth D tx t d e ↔ (s.LetsThrough d → ready p = true) := by
  constructor
  · intro htruth hlets
    by_contra hready
    -- the protocol refuses, and nobody notices
    have henc := hE.refuse t d e (by simpa using hready)
    have happ := (send_of_encode hlets.1 hlets.2.1 hlets.2.2 hp henc).2.2.1
    obtain ⟨p', bytes, r, -, happ', hd⟩ := htruth.sent.mp (send_snd_of_encode hlets hp henc)
    obtain rfl : bytes = [] := by
      rw [happ] at happ'
      exact (List.append_cancel_left happ').symm
    exact D.decode_nil_ne_frame hd
  · intro hready
    by_cases hlets : s.LetsThrough d
    · obtain ⟨p', bytes, r, henc, hd⟩ :=
        hE.encode (t := t) e (hready hlets) hlets.2.1 hlets.2.2
      have hsnd := send_snd_of_encode hlets hp henc
      refine ⟨⟨fun _ => ⟨p, bytes, r, hp, ?_, hd⟩, fun _ => hsnd⟩, fun hno => ?_⟩
      · exact (send_of_encode hlets.1 hlets.2.1 hlets.2.2 hp henc).2.2.1
      · rw [hsnd] at hno
        cases hno
    · have hsend := send_of_not_letsThrough hlets t e
      refine ⟨⟨fun hyes => ?_, ?_⟩, fun _ => ?_⟩
      · rw [hsend] at hyes
        cases hyes
      · rintro ⟨p', bytes, r, -, happ, hd⟩
        obtain rfl : bytes = [] := by
          rw [hsend] at happ
          exact List.append_right_eq_self.mp happ.symm
        exact absurd hd D.decode_nil_ne_frame
      · rw [hsend]
        exact ⟨rfl, rfl⟩

end Session

/-- **When send tells the truth**: for every state of a session that was
started, every topic, payload and flag, `send` answers true exactly if it
appended one whole frame, and appends nothing otherwise, if and only if the
protocol does not refuse a frame that `send` lets through: a plain protocol
must not be closed, and a secure one must have finished its handshake. -/
theorem send_tells_truth_iff {n : ℕ} (t : BitVec (8 * n)) (d : Bytes) (e : Bool) :
    (∀ {s : Session (plainProtocol n)} {p : LinkState}, s.protocol = some p →
      (s.TellsTruth (plainDecoder n) (fun _ => ()) t d e ↔
        (s.LetsThrough d → p.closed = false))) ∧
    ∀ {S : Sodium}, S.Lawful → ∀ {s : Session (secureProtocol S n)} {p : SecureState},
      s.protocol = some p → (s.TellsTruth (secureDecoder S n) SecureState.tx t d e ↔
        (s.LetsThrough d → p.isEstablished = true)) := by
  refine ⟨fun {s p} hp => ?_, fun {S} hS {s p} hp => ?_⟩
  · refine (Session.tellsTruth_iff (plainProtocol_encodesBy n) hp t d e).trans ?_
    simp
  · exact Session.tellsTruth_iff (secureProtocol_encodesBy hS n) hp t d e

/-- The random values of an endpoint of the recorded exchange. -/
def recordedDraws : Draws := ⟨1, Recorded.serverNonce, 1⟩

/-- A secure session that was accepted and waits for the peer's key. -/
def greetingSession : Session (secureProtocol .recorded 2) :=
  (Session.new true).launch 3 recordedDraws

/-- The same session after the handshake. -/
def openSession : Session (secureProtocol .recorded 2) :=
  { Session.new true with
    protocol := some
      { handle := 3
        entropy := recordedDraws
        closed := false
        cipherHandshake := some
          { handle := 3, accepted := true, draws := recordedDraws, established := true } } }

theorem send_tells_truth_open :
    (openSession.send 7#16 [1, 2] true).2 = true ∧
    openSession.TellsTruth (secureDecoder .recorded 2) SecureState.tx 7#16 [1, 2] true := by
  refine ⟨by decide +kernel, ?_⟩
  have hiff := send_tells_truth_iff (n := 2) 7#16 [1, 2] true
  exact (hiff.2 Sodium.recorded_lawful (s := openSession) rfl).mpr fun _ => rfl

/-- **A frame that was never sent**: during the handshake `send` answers true
and appends nothing. -/
theorem greetingSession_untrue :
    (greetingSession.send 7#16 [1] false).2 = true ∧
    (greetingSession.send 7#16 [1] false).1.appended = greetingSession.appended ∧
    ¬ greetingSession.TellsTruth (secureDecoder .recorded 2) SecureState.tx 7#16 [1] false := by
  have hsend : (greetingSession.send 7#16 [1] false).2 = true := by decide +kernel
  have happ : (greetingSession.send 7#16 [1] false).1.appended = greetingSession.appended := by
    decide +kernel
  refine ⟨hsend, happ, fun htruth => ?_⟩
  obtain ⟨p, bytes, r, -, happ', hd⟩ := htruth.sent.mp hsend
  obtain rfl : bytes = [] := by
    rw [happ] at happ'
    exact List.append_right_eq_self.mp happ'.symm
  exact (secureDecoder .recorded 2).decode_nil_ne_frame hd

/-! ### There and back -/

/-- Encoding frames one after the other into one stream buffer. -/
def Protocol.encodeAll (P : Protocol) : P.State → List (P.Topic × Bytes) → Except Fault Bytes
  | _, [] => .ok []
  | p, f :: fs =>
      match P.encode p f.1 f.2 false with
      | (_, .error e) => .error e
      | (p, .ok bytes) => (encodeAll P p fs).map (bytes ++ ·)

/-- On an object that is not closed, `plain_protocol::encode` is the codec. -/
theorem plainProtocol_encodeAll {n : ℕ} {p : LinkState} (hp : p.closed = false)
    (fs : List (BitVec (8 * n) × Bytes)) :
    (plainProtocol n).encodeAll p fs = .ok ((plainCodec n).encodeAll () fs) := by
  induction fs with
  | nil => rfl
  | cons f fs ih =>
      have henc : (plainProtocol n).encode p f.1 f.2 false
          = (p, .ok ((plainCodec n).encode () f)) := if_neg (by simp [hp])
      simp only [Protocol.encodeAll, henc, ih]
      rfl

namespace Session

/-- An established session that holds no bytes and receives, in any chunks,
what was encoded for it makes a callback for each message and is left with no
bytes. -/
theorem Holds.receives_encodeAll {P : Protocol} {ρ μ : Type}
    {K : FrameCodec ρ UInt8 (P.Topic × Bytes) μ} {rx : P.State → ρ}
    (hF : FramedBy P K.toDecoder rx) {r : ρ} {log : List (Callback P.Topic)} {s : Session P}
    (hs : Holds rx r log [] s) {ms : List μ} (hms : ∀ m ∈ ms, K.Valid m)
    {cs : List (Handler P.Topic × Bytes)} (hcs : ∀ c ∈ cs, Calm c.1)
    (hjoin : (cs.map Prod.snd).flatten = K.encodeAll r ms) :
    Holds rx (K.nextAll r ms) (log ++ receives (ms.map K.image)) [] (s.handleRecvAll cs) := by
  have hs₀ : Holds rx r (log ++ receives []) [] s := by simpa [receives] using hs
  have hall := hs₀.handleRecvAll hF hcs
  rcases cs with - | ⟨c, cs⟩
  · -- nothing was sent
    obtain rfl := K.eq_nil_of_encodeAll_eq_nil hms hjoin.symm
    simpa [receives, FrameCodec.nextAll, Session.handleRecvAll] using hs
  · rw [List.map_cons, K.feed_cons, ← List.map_cons (f := Prod.snd), hjoin, List.nil_append,
      K.drain_encodeAll_self hms] at hall
    exact hall

end Session

/-- **The plain framing there and back**: any list of frames with payloads of
1 to 2^32 - 1 bytes, encoded one after the other, can be cut into chunks in
any way; a session that receives the chunks makes exactly these callbacks, in
this order, and is left with an empty receive buffer. -/
theorem plain_round_trip (n : ℕ) {p : LinkState} (hp : p.closed = false)
    {fs : List (BitVec (8 * n) × Bytes)} (hfs : ∀ f ∈ fs, f.2 ≠ [] ∧ f.2.length < 2 ^ 32) :
    ∃ bytes, (plainProtocol n).encodeAll p fs = .ok bytes ∧
      ∀ {s : Session (plainProtocol n)}, s.isEstablished = true → s.recvBuf = [] →
      ∀ cs : List (Handler (plainProtocol n).Topic × Bytes), (∀ c ∈ cs, Session.Calm c.1) →
        (cs.map Prod.snd).flatten = bytes →
        (s.handleRecvAll cs).log = s.log ++ fs.map (fun f => .receive f.1 f.2) ∧
        (s.handleRecvAll cs).recvBuf = [] := by
  refine ⟨_, plainProtocol_encodeAll hp fs, fun {s} hest hbuf cs hcs hjoin => ?_⟩
  obtain ⟨q, hq⟩ : ∃ q, s.protocol = some q := by
    rcases hq : s.protocol with - | q
    · simp [Session.isEstablished, hq] at hest
    · exact ⟨q, rfl⟩
  have hs : Session.Holds (fun _ => ()) () s.log [] s :=
    ⟨by simpa [hq, Session.isEstablished] using hest, rfl, hbuf⟩
  have hvalid : ∀ f ∈ fs, (plainCodec n).Valid f := fun f hf =>
    ⟨List.length_pos_of_ne_nil (hfs f hf).1, (hfs f hf).2⟩
  have hend := hs.receives_encodeAll (K := plainCodec n) (plainProtocol_framedBy n) hvalid hcs hjoin
  -- a frame is delivered as it was encoded
  have himage : fs.map (plainCodec n).image = fs := List.map_id fs
  exact ⟨hend.log.trans (congrArg (fun l => s.log ++ Session.receives l) himage), hend.recvBuf⟩

/-- A session of the plain protocol after its start. -/
def plainSession : Session (plainProtocol 2) :=
  { Session.new true with protocol := some { handle := 3, accepted := true, closed := false } }

/-- Two frames, cut inside the topic of the first and inside the length field
of the second. -/
theorem plain_round_trip_cut :
    let idle : Handler (BitVec (8 * 2)) := fun _ => {}
    (plainSession.handleRecvAll
        [(idle, [7]), (idle, [0, 1, 0, 0, 0, 5, 8, 0, 2]), (idle, [0, 0, 0, 6, 9])]).log
      = [.receive 7#16 [5], .receive 8#16 [6, 9]] ∧
    (plainSession.handleRecvAll
        [(idle, [7]), (idle, [0, 1, 0, 0, 0, 5, 8, 0, 2]), (idle, [0, 0, 0, 6, 9])]).recvBuf
      = [] := by
  have hfs : ∀ f ∈ [((7 : BitVec (8 * 2)), ([5] : Bytes)), (8, [6, 9])],
      f.2 ≠ [] ∧ f.2.length < 2 ^ 32 := by decide
  obtain ⟨bytes, henc, hback⟩ :=
    plain_round_trip 2 (p := { handle := 4, closed := false }) rfl hfs
  refine hback rfl rfl _ ?_ ?_
  · simp [Session.Calm]
  · have hbytes : (plainProtocol 2).encodeAll { handle := 4, closed := false }
        [(7#16, [5]), (8#16, [6, 9])]
        = .ok [7, 0, 1, 0, 0, 0, 5, 8, 0, 2, 0, 0, 0, 6, 9] := by
      rfl
    exact Except.ok.inj (hbytes.symm.trans henc)

end Play
