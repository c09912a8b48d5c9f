/-
Play/Checks.lean

The assertions on the receive path.

`PLAY_CHECK` logs, and aborts a debug build.  On the way of a received byte
there are checks in `serializer::deserialize` and `secure_protocol::decode`,
one in `recv_frames` (the frame is not empty) and two in `pulse::on_receive`
(the topic is not one of the two that pulses use for themselves).  The first
compare sizes that the code has computed itself and always hold.  The others
look at what the peer wrote into a header:

    topic{n} | length{4} | ...            plain
    topic{n} | enc{1} | length{4} | ...   secure

`checks_hold_iff` says for which streams all of them hold: those in which no
frame, cut by the lengths in its own headers, has a reserved topic or, in the
secure protocol, the length 0.  The plain protocol stops at a length of 0.
-/
import Mathlib.Data.List.TakeWhile
import Play.Headers

namespace Play

/-! ### The checks of one turn -/

/-- The check of `serializer::deserialize` for a value of `size` bytes. -/
def deserializeCheck (len size : ℕ) : Bool :=
  decide (size ≤ len)

/-- The check of the overload for `bool`. -/
def deserializeBoolCheck (len : ℕ) : Bool :=
  decide (0 < len)

/-- The checks of `plain_protocol::decode`, in order. -/
def plainDecodeChecks (n : ℕ) (src : Bytes) : List Bool :=
  if src.length ≤ plainMinSize n then [] else [deserializeCheck src.length n]

/-- The checks of `secure_protocol::decode`, in order. -/
def secureDecodeChecks (n : ℕ) (src : Bytes) : List Bool :=
  if src.length ≤ secureMinSize n then []
  else
    let fields := [deserializeCheck n n, deserializeBoolCheck encFieldSize,
      deserializeCheck lengthFieldSize 4]
    let len := secureLen n src
    if src.length < len + lengthFieldSize + n + encFieldSize then fields
    else if deserializeBool (src.drop n) then
      -- the cipher reports the size of what it was given
      fields ++ [((src.drop (secureMinSize n)).take len).length == len]
    else fields

/-- `pulse::topic_estalished`. -/
def topicEstablished (n : ℕ) : BitVec (8 * n) := 1

/-- `pulse::topic_closed`. -/
def topicClosed (n : ℕ) : BitVec (8 * n) := 2

/-- The checks of `pulse::on_receive`, in order. -/
def onReceiveChecks {n : ℕ} (pic : BitVec (8 * n)) : List Bool :=
  [pic != topicEstablished n, pic != topicClosed n]

namespace Session

variable {P : Protocol}

/-- A pulse as the handler of a session: it posts what it got to the runner,
and neither calls the session nor throws. -/
def pulseHandler {T : Type} : Handler T := fun _ => {}

section

variable (decodeChecks : Bytes → List Bool) (onReceive : P.Topic → List Bool)

/-- The checks of one turn of `recv_frames`. -/
def turnChecks (s : Session P) : List Bool :=
  if s.recvBuf.length = 0 then []
  else
    match s.protocol with
    | none => []
    | some p =>
        decodeChecks s.recvBuf ++
          match P.decode p s.recvBuf with
          | (_, .error _) => []
          | (_, .ok r) =>
              if 0 < r.consumed then decide (0 < r.frame.length) :: onReceive r.topic else []

/-- The checks of the loop of `recv_frames`, at most `k` turns. -/
def recvFramesChecks (h : Handler P.Topic) : ℕ → Session P → List Bool
  | 0, _ => []
  | k + 1, s =>
      turnChecks decodeChecks onReceive s ++
        match recvFramesTurn h s with
        | .next s => recvFramesChecks h k s
        | .exit _ => []

/-- The checks of `handle_recv` on an established session, chunk by chunk. -/
def handleRecvChecks (s : Session P) : List Bytes → List Bool
  | [] => []
  | c :: cs =>
      let s₁ := s.commitRecv c
      recvFramesChecks decodeChecks onReceive pulseHandler s₁.recvBuf.length s₁ ++
        handleRecvChecks (s.handleRecv pulseHandler c).state cs

/-- All checks from the moment a session is established: `recv_frames` looks
at what is there already, and then at every chunk. -/
def receiveChecks (s : Session P) (cs : List Bytes) : List Bool :=
  recvFramesChecks decodeChecks onReceive pulseHandler s.recvBuf.length s ++
    handleRecvChecks decodeChecks onReceive (s.recvFrames pulseHandler) cs

end

/-! ### The checks look at the frames -/

section

variable {ρ : Type} {D : Decoder ρ UInt8 (P.Topic × Bytes)} {rx : P.State → ρ}
variable {decodeChecks : Bytes → List Bool} (onReceive : P.Topic → List Bool)
variable (hF : FramedBy P D rx) (hdec : ∀ b, ∀ x ∈ decodeChecks b, x = true)
variable {r : ρ} {log : List (Callback P.Topic)} {b : Bytes} {s : Session P}
variable {h : Handler P.Topic}

/-- The frame passes the checks. -/
def Passes (onReceive : P.Topic → List Bool) (f : P.Topic × Bytes) : Prop :=
  f.2 ≠ [] ∧ ∀ x ∈ onReceive f.1, x = true

theorem calm_pulseHandler : Calm (P := P) pulseHandler := fun _ => rfl

include hF hdec

theorem Holds.turnChecks_settled (hs : Holds rx r log b s) (hset : D.Settled r b) :
    ∀ x ∈ turnChecks decodeChecks onReceive s, x = true := by
  obtain ⟨p, hp, hest, rfl⟩ := hs.exists_protocol
  obtain rfl := hs.recvBuf
  intro x hx
  rw [turnChecks] at hx
  split at hx
  · cases hx
  rw [hp] at hx
  dsimp only at hx
  rcases hd : D.decode (rx p) s.recvBuf with - | ⟨k, r', f⟩ | -
  · obtain ⟨y, hy, hc, -⟩ := hF.decode_more hest hd
    rw [hy] at hx
    exact hdec _ x (by simpa [hc] using hx)
  · exact absurd hd (hset k r' f)
  · obtain ⟨e, he⟩ := hF.decode_fail hest hd
    rw [he] at hx
    exact hdec _ x (by simpa using hx)

theorem Holds.turnChecks_frame (hs : Holds rx r log b s) {k : ℕ} {r' : ρ} {f : P.Topic × Bytes}
    (hd : D.decode r b = .frame k r' f) :
    (∀ x ∈ turnChecks decodeChecks onReceive s, x = true) ↔ Passes onReceive f := by
  obtain ⟨p, hp, hest, rfl⟩ := hs.exists_protocol
  obtain rfl := hs.recvBuf
  have hk := D.frame_bound hd
  obtain ⟨p', y, hy, rfl, rfl, -, rfl⟩ := hF.decode_frame hest hd
  rw [turnChecks, if_neg (by omega), hp]
  dsimp only
  rw [hy]
  dsimp only
  rw [if_pos hk.1, List.forall_mem_append, List.forall_mem_cons, and_iff_right (hdec s.recvBuf)]
  simp [Passes, List.length_pos_iff]

theorem Holds.recvFramesChecks (hh : Calm h) (hs : Holds rx r log b s) {k : ℕ}
    (hk : b.length ≤ k) :
    (∀ x ∈ recvFramesChecks decodeChecks onReceive h k s, x = true) ↔
      ∀ f ∈ (D.drain r b).2.1, Passes onReceive f := by
  -- one turn of the loop for each frame that the decoder drains
  induction r, b using D.drain_induction generalizing k log s with
  | settled r b hset =>
      rw [D.drain_settled hset]
      obtain ⟨s', ht, -⟩ := hs.turn_settled hF (h := h) hset
      have hturn := hs.turnChecks_settled onReceive hF hdec hset
      rcases k with - | k
      · simp [Session.recvFramesChecks]
      · simpa [Session.recvFramesChecks, ht] using hturn
  | frame r b n r' f hd ih =>
      have hn := D.frame_bound hd
      obtain ⟨s', ht, hs'⟩ := hs.turn_frame hF hh hd
      have hturn := hs.turnChecks_frame onReceive hF hdec hd
      rcases k with - | k
      · omega
      · have hrest := ih hs' (k := k) (by rw [List.length_drop]; omega)
        rw [D.drain_frame hd, Session.recvFramesChecks, ht, List.forall_mem_append,
          List.forall_mem_cons, hturn, hrest]

theorem Holds.handleRecvChecks (hs : Holds rx r log b s) (hset : D.Settled r b) (cs : List Bytes) :
    (∀ x ∈ handleRecvChecks decodeChecks onReceive s cs, x = true) ↔
      ∀ f ∈ (D.drain r (b ++ cs.flatten)).2.1, Passes onReceive f := by
  induction cs generalizing r log b s with
  | nil =>
      rw [List.flatten_nil, List.append_nil, D.drain_settled hset]
      simp [Session.handleRecvChecks]
  | cons c cs ih =>
      have hcommit : Holds rx r log (b ++ c) (s.commitRecv c) :=
        ⟨hs.protocol, hs.log, congrArg (· ++ c) hs.recvBuf⟩
      have hfirst := hcommit.recvFramesChecks onReceive hF hdec calm_pulseHandler
        (k := (s.commitRecv c).recvBuf.length) (by rw [hcommit.recvBuf])
      have hrest := ih (hs.handleRecv hF calm_pulseHandler c) (D.settled_drain r (b ++ c))
      rw [List.flatten_cons, ← List.append_assoc, D.drain_append, Session.handleRecvChecks,
        List.forall_mem_append, List.forall_mem_append, hfirst, hrest]

/-- Whatever the chunks, the checks hold exactly if the frames of the stream
pass them. -/
theorem Holds.receiveChecks (hs : Holds rx r log b s) (cs : List Bytes) :
    (∀ x ∈ receiveChecks decodeChecks onReceive s cs, x = true) ↔
      ∀ f ∈ (D.drain r (b ++ cs.flatten)).2.1, Passes onReceive f := by
  have hk : b.length ≤ s.recvBuf.length := by rw [hs.recvBuf]
  have hfirst := hs.recvFramesChecks onReceive hF hdec calm_pulseHandler hk
  have hrest := (hs.recvFramesLoop hF calm_pulseHandler hk).handleRecvChecks onReceive hF hdec
    (D.settled_drain r b) cs
  rw [D.drain_append, Session.receiveChecks, List.forall_mem_append, List.forall_mem_append,
    hfirst]
  exact and_congr_right fun _ => hrest

end

end Session

/-! ### The checks of the decoders hold -/

theorem plainDecodeChecks_hold (n : ℕ) (b : Bytes) : ∀ x ∈ plainDecodeChecks n b, x = true := by
  intro x hx
  rw [plainDecodeChecks] at hx
  split at hx
  · cases hx
  · next hlen =>
      rw [plainMinSize] at hlen
      rw [List.mem_singleton.mp hx, deserializeCheck, decide_eq_true_eq]
      omega

theorem secureDecodeChecks_hold (n : ℕ) (b : Bytes) : ∀ x ∈ secureDecodeChecks n b, x = true := by
  have hfields : ∀ x ∈ [deserializeCheck n n, deserializeBoolCheck encFieldSize,
      deserializeCheck lengthFieldSize 4], x = true := by
    simp [deserializeCheck, deserializeBoolCheck, encFieldSize, lengthFieldSize]
  rw [secureDecodeChecks]
  dsimp only
  split
  · simp
  split
  · exact hfields
  split
  · next htotal _ =>
      rw [List.forall_mem_append]
      refine ⟨hfields, fun x hx => ?_⟩
      rw [List.mem_singleton.mp hx, beq_iff_eq, List.length_take, List.length_drop, secureMinSize]
      omega
  · exact hfields

/-! ### The frames of a stream, by their headers -/

/-- The topics and lengths in the headers of a stream, each where the length
in the one before says.  A header is behind `skip` bytes between the topic and
the length; the last frame may be incomplete, and a header that nothing
follows is not looked at. -/
def headersLoop (n skip : ℕ) : ℕ → Bytes → List (BitVec (8 * n) × ℕ)
  | 0, _ => []
  | k + 1, b =>
      let header := n + skip + lengthFieldSize
      let len := (deserialize 4 (b.drop (n + skip))).toNat
      if header < b.length ∧ header + len ≤ b.length then
        (deserialize n b, len) :: headersLoop n skip k (b.drop (header + len))
      else []

/-- The headers of a stream of the secure protocol. -/
def secureHeaders (n : ℕ) (b : Bytes) : List (BitVec (8 * n) × ℕ) :=
  headersLoop n encFieldSize b.length b

/-- The headers of a stream of the plain protocol, up to the first with length
0. -/
def plainHeaders (n : ℕ) (b : Bytes) : List (BitVec (8 * n) × ℕ) :=
  (headersLoop n 0 b.length b).takeWhile fun f => f.2 ≠ 0

theorem plainDecoder_frame {n : ℕ} {b : Bytes} {k : ℕ} {r' : Unit} {f : BitVec (8 * n) × Bytes}
    (hd : (plainDecoder n).decode () b = .frame k r' f) :
    f.1 = deserialize n b ∧ f.2.length = plainLen n b ∧ plainLen n b ≠ 0 ∧
      k = plainMinSize n + plainLen n b ∧ k ≤ b.length := by
  have hbound := (plainDecoder n).frame_bound hd
  simp only [plainDecoder] at hd
  split at hd
  · next hpos =>
      have hzero := (not_congr plainDecode_consumed_eq_zero_iff).mp hpos.ne'
      rw [not_or, not_or] at hzero
      obtain ⟨hmin, hfit, hne⟩ := hzero
      obtain ⟨-, -, heq⟩ := plainDecode_consumed hpos
      cases hd
      have hlen : (LengthDelimited.decode (b.drop n)).length = plainLen n b := by
        rw [plainMinSize] at *
        rw [LengthDelimited.decode, if_neg (by rw [List.length_drop]; omega), ← plainLen,
          if_pos (by rw [List.length_drop]; omega), List.length_take, List.length_drop,
          List.length_drop]
        omega
      rw [heq] at hbound ⊢
      rw [plainMinSize]
      refine ⟨rfl, hlen, hne, ?_, hbound.2⟩
      show n + lengthFieldSize + _ = _
      omega
  · cases hd

theorem plain_headers_eq (n : ℕ) (b : Bytes) :
    ((plainDecoder n).drain () b).2.1.map (fun f => (f.1, f.2.length)) = plainHeaders n b := by
  have hloop : ∀ k, b.length ≤ k → ((plainDecoder n).drain () b).2.1.map
      (fun f => (f.1, f.2.length)) = (headersLoop n 0 k b).takeWhile fun f => f.2 ≠ 0 := by
    -- one header for each frame that is drained
    induction (), b using (plainDecoder n).drain_induction with
    | settled r b hset =>
        intro k _
        rw [(plainDecoder n).drain_settled hset]
        have hzero : (plainDecode n b).consumed = 0 := by
          by_contra hpos
          refine hset _ () _ (if_pos (Nat.pos_of_ne_zero hpos))
        rw [plainDecode_consumed_eq_zero_iff, plainMinSize, plainLen, readLength_eq_deserialize]
          at hzero
        rcases k with - | k
        · rfl
        rw [headersLoop]
        simp only [Nat.add_zero]
        split
        · have hlen : (deserialize 4 (b.drop n)).toNat = 0 := by omega
          rw [List.takeWhile_cons_of_neg (by simp [hlen])]
          rfl
        · rfl
    | frame r b m r' f hd ih =>
        intro k hk
        have hbound := (plainDecoder n).frame_bound hd
        obtain ⟨htopic, hlen, hne, hm, hfit⟩ := plainDecoder_frame hd
        rcases k with - | k
        · omega
        have hread : (deserialize 4 (b.drop (n + 0))).toNat = plainLen n b :=
          (readLength_eq_deserialize _).symm
        have hsize : n + 0 + lengthFieldSize + plainLen n b = m := by
          rw [hm, plainMinSize]
          omega
        rw [(plainDecoder n).drain_frame hd, headersLoop]
        dsimp only
        rw [hread, hsize, if_pos (by omega), List.takeWhile_cons_of_pos (by simpa using hne),
          List.map_cons, htopic, hlen, ih k (by rw [List.length_drop]; omega)]
  exact hloop b.length le_rfl

/-- The frames that a lawful cipher finds. -/
theorem secureDecoder_frame {S : Sodium} (hS : S.Lawful) {n : ℕ} {r : RxState} {b : Bytes}
    (hmin : secureMinSize n < b.length) (hfit : secureMinSize n + secureLen n b ≤ b.length) :
    ∃ r' d, d.length = secureLen n b ∧ (secureDecoder S n).decode r b =
      .frame (secureMinSize n + secureLen n b) r' (deserialize n b, d) := by
  have htotal : secureLen n b + lengthFieldSize + n + encFieldSize
      = secureMinSize n + secureLen n b := by
    rw [secureMinSize]
    omega
  have hpay : ((b.drop (secureMinSize n)).take (secureLen n b)).length = secureLen n b := by
    rw [List.length_take, List.length_drop]
    omega
  show ∃ r' d, _ ∧ secureDecoded S n r b = _
  rw [secureDecoded]
  dsimp only
  rw [htotal, if_neg (by omega)]
  split
  · obtain ⟨c, hc, -⟩ := hS.chacha20Xor_invol
      ((b.drop (secureMinSize n)).take (secureLen n b)) r.2 r.1
    rw [hc]
    exact ⟨_, c, (S.length_chacha20Xor hc).trans hpay, rfl⟩
  · exact ⟨_, _, hpay, rfl⟩

theorem secure_headers_eq {S : Sodium} (hS : S.Lawful) (n : ℕ) (r : RxState) (b : Bytes) :
    ((secureDecoder S n).drain r b).2.1.map (fun f => (f.1, f.2.length)) = secureHeaders n b := by
  have hloop : ∀ k, b.length ≤ k → ((secureDecoder S n).drain r b).2.1.map
      (fun f => (f.1, f.2.length)) = headersLoop n encFieldSize k b := by
    have hsize : n + encFieldSize + lengthFieldSize = secureMinSize n := by
      rw [secureMinSize]
      omega
    induction r, b using (secureDecoder S n).drain_induction with
    | settled r b hset =>
        intro k _
        rw [(secureDecoder S n).drain_settled hset]
        rcases k with - | k
        · rfl
        rw [headersLoop]
        dsimp only
        rw [hsize, ← secureLen, if_neg]
        · rfl
        · rintro ⟨hmin, hfit⟩
          obtain ⟨r', d, -, hd⟩ := secureDecoder_frame hS (r := r) hmin hfit
          exact hset _ _ _ hd
    | frame r b m r' f hd ih =>
        intro k hk
        have hbound := (secureDecoder S n).frame_bound hd
        obtain ⟨hmin, htotal⟩ := secureDecoded_of_not_more
          (show secureDecoded S n r b ≠ .more from fun h => by cases hd.symm.trans h)
        have hfit : secureMinSize n + secureLen n b ≤ b.length := by
          rw [secureMinSize]
          omega
        obtain ⟨r₁, d, hlen, hd₁⟩ := secureDecoder_frame hS (r := r) hmin hfit
        cases hd.symm.trans hd₁
        rcases k with - | k
        · omega
        rw [(secureDecoder S n).drain_frame hd, headersLoop]
        dsimp only
        rw [hsize, ← secureLen, if_pos ⟨hmin, hfit⟩, List.map_cons, hlen,
          ih k (by rw [List.length_drop]; omega)]
  exact hloop b.length le_rfl

/-! ### The streams that trip no check -/

/-- The topic is one that pulses keep for themselves. -/
def Reserved {n : ℕ} (pic : BitVec (8 * n)) : Prop :=
  pic = topicEstablished n ∨ pic = topicClosed n

instance {n : ℕ} (pic : BitVec (8 * n)) : Decidable (Reserved pic) :=
  inferInstanceAs (Decidable (_ ∨ _))

theorem passes_iff {n : ℕ} {f : BitVec (8 * n) × Bytes} :
    (f.2 ≠ [] ∧ ∀ x ∈ onReceiveChecks f.1, x = true) ↔ f.2.length ≠ 0 ∧ ¬ Reserved f.1 := by
  simp [onReceiveChecks, Reserved]

/-- **The checks on the receive path**: on an established session with a pulse
as its handler, for every stream of bytes and every way to cut it, all checks
hold if and only if no header of the stream has a reserved topic or, in the
secure protocol, the length 0. -/
theorem checks_hold_iff (n : ℕ) (cs : List Bytes) :
    (∀ s : Session (plainProtocol n), s.isEstablished = true →
      ((∀ x ∈ s.receiveChecks (plainDecodeChecks n) onReceiveChecks cs, x = true) ↔
        ∀ f ∈ plainHeaders n (s.recvBuf ++ cs.flatten), ¬ Reserved f.1)) ∧
    (∀ S, S.Lawful → ∀ s : Session (secureProtocol S n), s.isEstablished = true →
      ((∀ x ∈ s.receiveChecks (secureDecodeChecks n) onReceiveChecks cs, x = true) ↔
        ∀ f ∈ secureHeaders n (s.recvBuf ++ cs.flatten), f.2 ≠ 0 ∧ ¬ Reserved f.1)) := by
  refine ⟨fun s hest => ?_, fun S hS s hest => ?_⟩
  · obtain ⟨r, hs⟩ := Session.exists_holds hest fun _ => ()
    have hframes := hs.receiveChecks onReceiveChecks (plainProtocol_framedBy n)
      (plainDecodeChecks_hold n) cs
    refine hframes.trans ?_
    -- a frame of the plain protocol is never empty
    have hne : ∀ f ∈ ((plainDecoder n).drain r (s.recvBuf ++ cs.flatten)).2.1,
        f.2.length ≠ 0 := by
      intro f hf
      have hmem := List.mem_map_of_mem (f := fun f => (f.1, f.2.length)) hf
      rw [plain_headers_eq] at hmem
      simpa using List.mem_takeWhile_imp hmem
    rw [← plain_headers_eq, List.forall_mem_map]
    exact forall₂_congr fun f hf => passes_iff.trans (and_iff_right (hne f hf))
  · obtain ⟨r, hs⟩ := Session.exists_holds hest SecureState.rx
    have hframes := hs.receiveChecks onReceiveChecks (secureProtocol_framedBy S n)
      (secureDecodeChecks_hold n) cs
    refine hframes.trans ?_
    rw [← secure_headers_eq hS n r, List.forall_mem_map]
    exact forall₂_congr fun f _ => passes_iff

/-- A session of the plain protocol that has started. -/
def plainStarted : Session (plainProtocol 2) :=
  ((Session.new true).start Session.pulseHandler 1 () true).state

/-- **A peer that sends the topic 1**: the frame is whole and not empty, and
`pulse::on_receive` finds that the topic is its own. -/
theorem topicOne_fails_check :
    ¬ ∀ x ∈ plainStarted.receiveChecks (plainDecodeChecks 2) onReceiveChecks
      [[1, 0, 1, 0], [0, 0, 5]], x = true := by
  decide

/-- A session of the secure protocol after the recorded exchange. -/
def secureStarted : Session (secureProtocol .recorded 2) :=
  { Session.new true with
    protocol := some
      { handle := 1
        entropy := ⟨1, Recorded.serverNonce, 1⟩
        accepted := true
        closed := false
        cipherHandshake := some
          { handle := 1
            accepted := true
            keyReceived := true
            nonceReceived := true
            established := true
            rxKey := Recorded.clientTx
            txKey := Recorded.clientRx
            rxNonce := Recorded.serverNonce
            txNonce := Recorded.clientNonce
            draws := ⟨1, Recorded.serverNonce, 1⟩ } } }

theorem checks_hold_topicSeven :
    (∀ x ∈ plainStarted.receiveChecks (plainDecodeChecks 2) onReceiveChecks
      [[7, 0, 1, 0], [0, 0, 5]], x = true) ∧
    ∀ x ∈ secureStarted.receiveChecks (secureDecodeChecks 2) onReceiveChecks
      [[7, 0, 1, 1, 0], [0, 0, 5]], x = true :=
  ⟨((checks_hold_iff 2 _).1 plainStarted (by decide)).mpr (by decide),
    ((checks_hold_iff 2 _).2 .recorded Sodium.recorded_lawful secureStarted (by decide)).mpr
      (by decide)⟩

end Play
