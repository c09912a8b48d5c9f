/-
Play/Frames.lean

The frames of the plain and the secure protocol as decoders and codecs.

A decoder sees only the receive half of the protocol object: nothing for the
plain protocol, the receive key and nonce for the secure one.  An encrypted
frame moves the nonce on, and is decrypted in place; since the bytes it
overwrites are consumed before anything else looks at them, only its result
shows.

`FramedBy` is the connection: on an established object the member `decode`
does what the decoder says.
-/
import Play.Protocol
import Play.Framing

namespace Play

/-! ### plain_protocol -/

theorem plainDecode_consumed {n : ℕ} {b : Bytes} (h : 0 < (plainDecode n b).consumed) :
    plainMinSize n < b.length ∧ LengthDelimited.decode (b.drop n) ≠ [] ∧
      plainDecode n b =
        ⟨n + lengthFieldSize + (LengthDelimited.decode (b.drop n)).length,
          LengthDelimited.decode (b.drop n), deserialize n b, b⟩ := by
  unfold plainDecode at h ⊢
  split at h
  · simp at h
  · next hlen =>
      dsimp only at h ⊢
      split at h
      · next hpos =>
          rw [if_neg hlen, if_pos hpos]
          exact ⟨by omega, List.ne_nil_of_length_pos hpos, rfl⟩
      · simp at h

theorem plainDecode_src (n : ℕ) (b : Bytes) : (plainDecode n b).src = b := by
  unfold plainDecode
  dsimp only
  split
  · rfl
  · split <;> rfl

theorem plainDecode_append {n : ℕ} {b : Bytes} (h : 0 < (plainDecode n b).consumed) (c : Bytes) :
    plainDecode n (b ++ c) = { plainDecode n b with src := b ++ c } := by
  obtain ⟨hlen, hne, hd⟩ := plainDecode_consumed h
  have hn : n ≤ b.length := by
    rw [plainMinSize] at hlen
    omega
  have hdrop : (b ++ c).drop n = b.drop n ++ c := List.drop_append_of_le_length hn
  rw [hd, plainDecode, if_neg (by rw [List.length_append]; omega)]
  dsimp only
  rw [hdrop, LengthDelimited.decode_append hne, deserialize_append hn,
    if_pos (List.length_pos_of_ne_nil hne)]

/-- The frames of `plain_protocol`. -/
def plainDecoder (n : ℕ) : Decoder Unit UInt8 (BitVec (8 * n) × Bytes) where
  decode _ b :=
    if 0 < (plainDecode n b).consumed then
      .frame (plainDecode n b).consumed () ((plainDecode n b).topic, (plainDecode n b).frame)
    else .more
  frame_bound := by
    intro r b k r' f h
    split at h
    · next hpos =>
        obtain ⟨hlen, hne, hd⟩ := plainDecode_consumed hpos
        simp only [Decoded.frame.injEq] at h
        obtain ⟨rfl, -, -⟩ := h
        refine ⟨hpos, ?_⟩
        have := LengthDelimited.length_decode_le hne
        rw [List.length_drop] at this
        rw [hd]
        rw [plainMinSize] at hlen
        show n + lengthFieldSize + _ ≤ _
        omega
    · cases h
  frame_append := by
    intro r b k r' f h c
    split at h
    · next hpos =>
        rw [plainDecode_append hpos, if_pos hpos]
        exact h
    · cases h
  fail_append := by
    intro r b h
    split at h <;> cases h

/-! ### secure_protocol -/

section Secure

variable (S : Sodium) (n : ℕ)

/-- The receive half of the secure protocol: the key and the nonce. -/
abbrev RxState := Key × Nonce

/-- What `secure_protocol::decode` makes of a buffer. -/
def secureDecoded (r : RxState) (b : Bytes) : Decoded RxState (BitVec (8 * n) × Bytes) :=
  let len := secureLen n b
  let totalLen := len + lengthFieldSize + n + encFieldSize
  if b.length ≤ secureMinSize n ∨ b.length < totalLen then .more
  else
    let payload := (b.drop (secureMinSize n)).take len
    if deserializeBool (b.drop n) then
      match S.chacha20Xor payload r.2 r.1 with
      | none => .fail
      | some body => .frame totalLen (r.1, sodiumIncrement r.2) (deserialize n b, body)
    else .frame totalLen r (deserialize n b, payload)

variable {S n}

theorem secureDecoded_of_not_more {r : RxState} {b : Bytes} (h : secureDecoded S n r b ≠ .more) :
    secureMinSize n < b.length ∧ secureLen n b + lengthFieldSize + n + encFieldSize ≤ b.length := by
  unfold secureDecoded at h
  dsimp only at h
  split at h
  · exact absurd rfl h
  · omega

/-- An answer other than `more` does not depend on what comes later. -/
theorem secureDecoded_append {r : RxState} {b : Bytes} (h : secureDecoded S n r b ≠ .more)
    (c : Bytes) : secureDecoded S n r (b ++ c) = secureDecoded S n r b := by
  obtain ⟨hmin, htotal⟩ := secureDecoded_of_not_more h
  have hmin' := hmin
  -- every field that is read lies within `b`
  rw [secureMinSize, lengthFieldSize, encFieldSize] at hmin'
  have hdrop : ∀ k, k ≤ b.length → (b ++ c).drop k = b.drop k ++ c := fun k hk =>
    List.drop_append_of_le_length hk
  have hlen : secureLen n (b ++ c) = secureLen n b := by
    rw [secureLen, secureLen, encFieldSize, hdrop _ (by omega),
      deserialize_append (by rw [List.length_drop]; omega)]
  have hpay : ((b ++ c).drop (secureMinSize n)).take (secureLen n b)
      = (b.drop (secureMinSize n)).take (secureLen n b) := by
    rw [hdrop _ (by omega), List.take_append_of_le_length]
    rw [List.length_drop, secureMinSize]
    omega
  have hbool : deserializeBool ((b ++ c).drop n) = deserializeBool (b.drop n) := by
    rw [hdrop _ (by omega), deserializeBool_append (by rw [List.length_drop]; omega)]
  have hno : ¬ (b.length ≤ secureMinSize n ∨
      b.length < secureLen n b + lengthFieldSize + n + encFieldSize) := by omega
  have hno' : ¬ ((b ++ c).length ≤ secureMinSize n ∨
      (b ++ c).length < secureLen n b + lengthFieldSize + n + encFieldSize) := by
    rw [List.length_append]
    omega
  unfold secureDecoded
  dsimp only
  rw [hlen, hpay, hbool, deserialize_append (n := n) (by omega), if_neg hno', if_neg hno]

variable (S n)

/-- The frames of `secure_protocol`. -/
def secureDecoder : Decoder RxState UInt8 (BitVec (8 * n) × Bytes) where
  decode := secureDecoded S n
  frame_bound := by
    intro r b k r' f h
    obtain ⟨hmin, htotal⟩ := secureDecoded_of_not_more (h ▸ by simp : secureDecoded S n r b ≠ .more)
    have hk : k = secureLen n b + lengthFieldSize + n + encFieldSize := by
      unfold secureDecoded at h
      dsimp only at h
      rw [if_neg (by omega)] at h
      split at h
      · split at h
        · cases h
        · simp only [Decoded.frame.injEq] at h
          exact h.1.symm
      · simp only [Decoded.frame.injEq] at h
        exact h.1.symm
    rw [lengthFieldSize] at hk htotal
    omega
  frame_append h c := by rw [secureDecoded_append (by simp [h]), h]
  fail_append h c := by rw [secureDecoded_append (by simp [h]), h]

end Secure

section Codec

variable {S : Sodium} (hS : S.Lawful) (n : ℕ)

/-- What is sent of a frame: its topic, its payload and whether to encrypt. -/
abbrev SecureFrame (n : ℕ) := BitVec (8 * n) × Bytes × Bool

/-- The payload of a frame on the wire; `crypto_stream_chacha20_xor` does not
fail (`Sodium.Lawful`). -/
def secureBody (S : Sodium) (r : RxState) (m : SecureFrame n) : Bytes :=
  if m.2.2 then (S.chacha20Xor m.2.1 r.2 r.1).getD [] else m.2.1

/-- The nonce moves on with an encrypted frame. -/
def secureNext (r : RxState) (m : SecureFrame n) : RxState :=
  if m.2.2 then (r.1, sodiumIncrement r.2) else r

@[simp] theorem length_secureHeader (t : BitVec (8 * n)) (e : Bool) (len : ℕ) :
    (secureHeader n t e len).length = secureMinSize n := by
  have h : (serialize (n := 4) (BitVec.ofNat 32 len)).length = 4 := length_serialize _
  simp only [secureHeader, List.length_append, length_serialize, length_serializeBool, h,
    secureMinSize, lengthFieldSize, encFieldSize]
  omega

include hS in
theorem length_secureBody (r : RxState) (m : SecureFrame n) :
    (secureBody n S r m).length = m.2.1.length := by
  unfold secureBody
  split
  · obtain ⟨c, hc, -⟩ := hS.chacha20Xor_invol m.2.1 r.2 r.1
    rw [hc, Option.getD_some]
    exact S.length_chacha20Xor hc
  · rfl

/-- The three fields of a header that was written. -/
theorem secureLen_header {t : BitVec (8 * n)} {e : Bool} {len : ℕ} (hlen : len < 2 ^ 32)
    (c : Bytes) : secureLen n (secureHeader n t e len ++ c) = len := by
  have hfront : (serialize t ++ serializeBool e).length = n + encFieldSize := by
    simp [encFieldSize]
  rw [secureLen, secureHeader, List.append_assoc (serialize t ++ serializeBool e),
    List.drop_left' hfront, deserialize_serialize (n := 4), BitVec.toNat_ofNat,
    Nat.mod_eq_of_lt hlen]

theorem deserialize_header (t : BitVec (8 * n)) (e : Bool) (len : ℕ) (c : Bytes) :
    deserialize n (secureHeader n t e len ++ c) = t := by
  rw [secureHeader, List.append_assoc, List.append_assoc, deserialize_serialize]

theorem deserializeBool_header (t : BitVec (8 * n)) (e : Bool) (len : ℕ) (c : Bytes) :
    deserializeBool ((secureHeader n t e len ++ c).drop n) = e := by
  rw [secureHeader, List.append_assoc, List.append_assoc, List.drop_left' (length_serialize t),
    deserializeBool_serializeBool]

include hS in
/-- A whole frame at the front of the buffer is decoded to what was sent. -/
theorem secureDecoded_encode {r : RxState} {m : SecureFrame n} (hpos : 0 < m.2.1.length)
    (hmax : m.2.1.length < maxSendSize) (c : Bytes) :
    secureDecoded S n r (secureHeader n m.1 m.2.2 m.2.1.length ++ secureBody n S r m ++ c) =
      .frame (secureMinSize n + m.2.1.length) (secureNext n r m) (m.1, m.2.1) := by
  have hlen : m.2.1.length < 2 ^ 32 := by
    rw [maxSendSize] at hmax
    omega
  have hbody := length_secureBody hS n r m
  have hpay : ((secureHeader n m.1 m.2.2 m.2.1.length ++ (secureBody n S r m ++ c)).drop
      (secureMinSize n)).take m.2.1.length = secureBody n S r m := by
    rw [List.drop_left' (length_secureHeader n _ _ _), List.take_left' hbody]
  have htotal : m.2.1.length + lengthFieldSize + n + encFieldSize
      = secureMinSize n + m.2.1.length := by
    rw [secureMinSize]
    omega
  rw [List.append_assoc, secureDecoded]
  dsimp only
  rw [secureLen_header n hlen, deserialize_header, deserializeBool_header, hpay, htotal,
    if_neg (by simp only [List.length_append, length_secureHeader, hbody]; omega)]
  unfold secureBody secureNext
  -- a payload that was not encrypted is passed on as it is
  rcases henc : m.2.2 with - | -
  · simp
  · obtain ⟨x, hx, hback⟩ := hS.chacha20Xor_invol m.2.1 r.2 r.1
    simp [hx, hback]

/-- `secure_protocol` as a codec; `Valid` is what `session::send` lets
through. -/
def secureCodec : FrameCodec RxState UInt8 (BitVec (8 * n) × Bytes) (SecureFrame n) where
  toDecoder := secureDecoder S n
  encode r m := secureHeader n m.1 m.2.2 m.2.1.length ++ secureBody n S r m
  next := secureNext n
  image m := (m.1, m.2.1)
  Valid m := 0 < m.2.1.length ∧ m.2.1.length < maxSendSize
  decode_encode := by
    intro r m hm c
    refine (secureDecoded_encode hS n hm.1 hm.2 c).trans ?_
    rw [List.length_append, length_secureHeader, length_secureBody hS]

end Codec

/-! ### Protocols with frames -/

/-- On established objects the member `decode` does what the decoder `D`
says, where `rx` is the receive half of the object. -/
structure FramedBy (P : Protocol) {ρ : Type} (D : Decoder ρ UInt8 (P.Topic × Bytes))
    (rx : P.State → ρ) : Prop where
  lawful : P.Lawful
  rx_encode : ∀ p t d e, rx (P.encode p t d e).1 = rx p
  decode_more : ∀ {p b}, P.isEstablished p = true → D.decode (rx p) b = .more →
    ∃ r, P.decode p b = (p, .ok r) ∧ r.consumed = 0 ∧ r.src = b
  decode_frame : ∀ {p b k r' f}, P.isEstablished p = true → D.decode (rx p) b = .frame k r' f →
    ∃ p' r, P.decode p b = (p', .ok r) ∧ r.consumed = k ∧ (r.topic, r.frame) = f ∧
      r.src.drop k = b.drop k ∧ rx p' = r'
  decode_fail : ∀ {p b}, P.isEstablished p = true → D.decode (rx p) b = .fail →
    ∃ e, P.decode p b = (p, .error e)

theorem plainProtocol_framedBy (n : ℕ) :
    FramedBy (plainProtocol n) (plainDecoder n) fun _ => () where
  lawful := plainProtocol_lawful n
  rx_encode _ _ _ _ := rfl
  decode_more := by
    intro p b _ h
    refine ⟨plainDecode n b, rfl, ?_, plainDecode_src n b⟩
    by_contra hne
    simp only [plainDecoder, if_pos (Nat.pos_of_ne_zero hne)] at h
    cases h
  decode_frame := by
    intro p b k r' f _ h
    simp only [plainDecoder] at h
    split at h
    · cases h
      exact ⟨p, plainDecode n b, rfl, rfl, rfl, by rw [plainDecode_src], rfl⟩
    · cases h
  decode_fail := by
    intro p b _ h
    simp only [plainDecoder] at h
    split at h <;> cases h

section Secure

variable {S : Sodium} {n : ℕ}

namespace SecureState

/-- The receive half of the object. -/
def rx (p : SecureState) : RxState :=
  p.cipherHandshake.elim (.zero _, .zero _) fun hs => (hs.rxKey, hs.rxNonce)

theorem cipherHandshake_of_isEstablished {p : SecureState} (h : p.isEstablished = true) :
    ∃ hs, p.cipherHandshake = some hs ∧ hs.established = true := by
  rcases hcs : p.cipherHandshake with - | hs <;>
    simp only [isEstablished, hcs, Option.elim_none, Option.elim_some, Bool.and_false,
      Bool.and_eq_true, Bool.false_eq_true] at h
  exact ⟨hs, rfl, h.2⟩

end SecureState

theorem secureDecode_cases {p : SecureState} {hs : SodiumHandshake}
    (hcs : p.cipherHandshake = some hs) (b : Bytes) :
    (secureDecoded S n p.rx b = .more ∧ secureDecode S n p b = (p, .ok ⟨0, [], 0, b⟩)) ∨
    (secureDecoded S n p.rx b = .fail ∧ ∃ e, secureDecode S n p b = (p, .error e)) ∨
    ∃ k f p' src, secureDecoded S n p.rx b = .frame k p'.rx f ∧
      secureDecode S n p b = (p', .ok ⟨k, f.2, f.1, src⟩) ∧ src.drop k = b.drop k := by
  have hrx : p.rx = (hs.rxKey, hs.rxNonce) := by simp [SecureState.rx, hcs]
  unfold secureDecoded secureDecode
  dsimp only
  by_cases hmin : b.length ≤ secureMinSize n
  · exact .inl ⟨if_pos (.inl hmin), if_pos hmin⟩
  by_cases htotal : b.length < secureLen n b + lengthFieldSize + n + encFieldSize
  · exact .inl ⟨if_pos (.inr htotal), by rw [if_neg hmin, if_pos htotal]⟩
  rw [if_neg (by omega), if_neg hmin, if_neg htotal]
  by_cases henc : deserializeBool (b.drop n) = true
  · rw [if_pos henc, if_pos henc, hcs, hrx]
    dsimp only [SodiumHandshake.cipherDecode]
    rcases hx : S.chacha20Xor ((b.drop (secureMinSize n)).take (secureLen n b)) hs.rxNonce hs.rxKey
      with - | body
    · refine .inr (.inl ⟨rfl, .exception s!"handle: {hs.handle} failed to decode", ?_⟩)
      dsimp only
      rw [← hcs]
    · -- decrypted in place: the rest of the buffer is as it was
      have hbody := S.length_chacha20Xor hx
      rw [List.length_take, List.length_drop] at hbody
      let hs' := { hs with rxNonce := sodiumIncrement hs.rxNonce }
      refine .inr (.inr ⟨_, (deserialize n b, body), { p with cipherHandshake := some hs' }, _,
        rfl, rfl, ?_⟩)
      rw [secureMinSize, lengthFieldSize, encFieldSize] at *
      rw [List.drop_append, List.drop_eq_nil_of_le, List.nil_append, List.drop_drop]
      · congr 1
        simp only [List.length_append, List.length_take]
        omega
      · simp only [List.length_append, List.length_take]
        omega
  · rw [if_neg henc, if_neg henc]
    exact .inr (.inr ⟨_, _, p, b, rfl, rfl, rfl⟩)

theorem secureProtocol_framedBy (S : Sodium) (n : ℕ) :
    FramedBy (secureProtocol S n) (secureDecoder S n) SecureState.rx where
  lawful := secureProtocol_lawful S n
  rx_encode p t d e := by
    -- sending moves the send nonce only
    show (secureEncode S n p t d e).1.rx = p.rx
    unfold secureEncode
    split
    · rfl
    split
    · rfl
    dsimp only
    split
    swap
    · rfl
    rcases hcs : p.cipherHandshake with - | hs
    · rfl
    · dsimp only [SodiumHandshake.cipherEncode]
      rcases S.chacha20Xor d hs.txNonce hs.txKey with - | c <;> simp [SecureState.rx, hcs]
  decode_more := by
    intro p b hest h
    obtain ⟨hs, hcs, -⟩ := SecureState.cipherHandshake_of_isEstablished hest
    rcases secureDecode_cases (S := S) (n := n) hcs b with
      ⟨-, hd⟩ | ⟨h', -⟩ | ⟨k, f, p', src, h', -⟩
    · exact ⟨_, hd, rfl, rfl⟩
    · cases h.symm.trans h'
    · cases h.symm.trans h'
  decode_frame := by
    intro p b k r' f hest h
    obtain ⟨hs, hcs, -⟩ := SecureState.cipherHandshake_of_isEstablished hest
    rcases secureDecode_cases (S := S) (n := n) hcs b with
      ⟨h', -⟩ | ⟨h', -⟩ | ⟨k', f', p', src, h', hd, hsrc⟩
    · cases h.symm.trans h'
    · cases h.symm.trans h'
    · cases h.symm.trans h'
      exact ⟨p', _, hd, rfl, rfl, hsrc, rfl⟩
  decode_fail := by
    intro p b hest h
    obtain ⟨hs, hcs, -⟩ := SecureState.cipherHandshake_of_isEstablished hest
    rcases secureDecode_cases (S := S) (n := n) hcs b with
      ⟨h', -⟩ | ⟨-, hd⟩ | ⟨k, f, p', src, h', -⟩
    · cases h.symm.trans h'
    · exact hd
    · cases h.symm.trans h'

end Secure

end Play
