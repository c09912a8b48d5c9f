/-
Play/Protocol.lean

The three protocols that a session can be instantiated with:
`stream_protocol`, `plain_protocol<Topic>` and `secure_protocol<Topic>`.

`session<Protocol>` is a template over duck-typed members, so `Protocol` here
is a record of those members.  A member that may leave by an exception
returns the object as the exception left it together with an `Except`.

A frame on the wire is

    plain    topic{n} | length{4} | payload
    secure   topic{n} | enc{1} | length{4} | payload

and a handshake message of the secure protocol is a `length_delimited`
payload.  Decryption of a received frame happens in place, so `decode` also
returns what it made of its source buffer.
-/
import Play.Sodium

namespace Play

/-! ### The members a session uses -/

/-- The tuple returned by `decode`, and the source buffer after the call. -/
structure DecodeResult (Topic : Type) where
  consumed : ℕ
  frame : Bytes
  topic : Topic
  src : Bytes

/-- The members of a protocol class. -/
structure Protocol where
  State : Type
  Topic : Type
  /-- The random values one object draws during its life. -/
  Entropy : Type
  maxSendSize : ℕ
  /-- The constructor, given the socket handle. -/
  make : ℕ → Entropy → State
  accepted : State → State × Bytes
  connected : State → State × Bytes
  closed : State → State
  /-- The bytes committed to the destination buffer. -/
  encode : State → Topic → Bytes → Bool → State × Except Fault Bytes
  decode : State → Bytes → State × Except Fault (DecodeResult Topic)
  /-- The bytes used and the bytes to send. -/
  handshake : State → Bytes → State × Except Fault (ℕ × Bytes)
  isEstablished : State → Bool
  /-- The member `closed_`. -/
  isClosed : State → Bool

/-- `max_send_size` of all three protocols. -/
def maxSendSize : ℕ := 1024 * 1024

/-! ### stream_protocol and the flags of plain_protocol -/

/-- The members that `stream_protocol` and `plain_protocol` share. -/
structure LinkState where
  handle : ℕ
  accepted : Bool := false
  connected : Bool := false
  closed : Bool := true
  deriving DecidableEq

namespace LinkState

def isEstablished (p : LinkState) : Bool :=
  (p.accepted || p.connected) && !p.closed

end LinkState

/-- `stream_protocol`: bytes pass through unchanged. -/
def streamProtocol : Protocol where
  State := LinkState
  Topic := Unit
  Entropy := Unit
  maxSendSize := maxSendSize
  make handle _ := { handle }
  accepted p := ({ p with accepted := true, closed := false }, [])
  connected p := ({ p with connected := true, closed := false }, [])
  closed p := { p with closed := true }
  encode p _ src _ := if p.closed then (p, .ok []) else (p, .ok src)
  decode p src := (p, .ok ⟨src.length, src, (), src⟩)
  handshake p _ := (p, .ok (0, []))
  isEstablished := LinkState.isEstablished
  isClosed p := p.closed

/-- `plain_protocol::get_min_size` for a topic of `n` bytes. -/
def plainMinSize (n : ℕ) : ℕ :=
  lengthFieldSize + n

/-- `plain_protocol::decode` of a buffer, for a topic of `n` bytes. -/
def plainDecode (n : ℕ) (src : Bytes) : DecodeResult (BitVec (8 * n)) :=
  if src.length ≤ plainMinSize n then ⟨0, [], 0, src⟩
  else
    let pic := deserialize n src
    let sbuf := LengthDelimited.decode (src.drop n)
    if 0 < sbuf.length then ⟨n + lengthFieldSize + sbuf.length, sbuf, pic, src⟩
    else ⟨0, [], 0, src⟩

/-- `plain_protocol<Topic>` for a topic of `n` bytes. -/
def plainProtocol (n : ℕ) : Protocol where
  State := LinkState
  Topic := BitVec (8 * n)
  Entropy := Unit
  maxSendSize := maxSendSize
  make handle _ := { handle }
  accepted p := ({ p with accepted := true, closed := false }, [])
  connected p := ({ p with connected := true, closed := false }, [])
  closed p := { p with closed := true }
  encode p pic src _ :=
    if p.closed then (p, .ok []) else (p, .ok (serialize pic ++ LengthDelimited.encode src))
  decode p src := (p, .ok (plainDecode n src))
  handshake p _ := (p, .ok (0, []))
  isEstablished := LinkState.isEstablished
  isClosed p := p.closed

/-! ### secure_protocol -/

/-- The members of `secure_protocol`; the cipher codec refers to the
handshake object and has no state of its own. -/
structure SecureState where
  handle : ℕ
  entropy : Draws
  accepted : Bool := false
  connected : Bool := false
  closed : Bool := true
  cipherHandshake : Option SodiumHandshake := none

namespace SecureState

/-- `secure_protocol::is_established`. -/
def isEstablished (p : SecureState) : Bool :=
  !p.closed && p.cipherHandshake.elim false SodiumHandshake.established

end SecureState

/-- `enc_field_size`. -/
def encFieldSize : ℕ := 1

/-- `secure_protocol::get_min_size` for a topic of `n` bytes. -/
def secureMinSize (n : ℕ) : ℕ :=
  lengthFieldSize + n + encFieldSize

section Secure

variable (S : Sodium) (n : ℕ)

/-- `secure_protocol::accepted` and `secure_protocol::connected`, which differ
in the flag they set and in the role given to the handshake. -/
def secureBegin (p : SecureState) (accepted : Bool) : SecureState × Bytes :=
  let hs : SodiumHandshake := { handle := p.handle, accepted, draws := p.entropy }
  let prepared := hs.prepare S
  ({ p with accepted := p.accepted || accepted, connected := p.connected || !accepted,
            closed := false, cipherHandshake := some prepared.1 },
    LengthDelimited.encode prepared.2)

/-- The header of a frame: topic, encryption flag, length. -/
def secureHeader (pic : BitVec (8 * n)) (encrypt : Bool) (len : ℕ) : Bytes :=
  serialize pic ++ serializeBool encrypt ++ serialize (n := 4) (BitVec.ofNat 32 len)

/-- `secure_protocol::encode`. -/
def secureEncode (p : SecureState) (pic : BitVec (8 * n)) (src : Bytes) (encrypt : Bool) :
    SecureState × Except Fault Bytes :=
  -- not an error: nothing is committed, and the caller sends nothing
  if p.closed then (p, .ok [])
  else if !p.isEstablished then (p, .ok [])
  else
    let header := secureHeader n pic encrypt src.length
    if encrypt then
      match p.cipherHandshake with
      | none => (p, .error .outOfBounds)
      | some hs =>
          match hs.cipherEncode S src with
          -- nothing is committed when the cipher throws
          | (hs, .error e) => ({ p with cipherHandshake := some hs }, .error e)
          | (hs, .ok body) => ({ p with cipherHandshake := some hs }, .ok (header ++ body))
    else (p, .ok (header ++ src))

/-- The length field of a frame. -/
def secureLen (src : Bytes) : ℕ :=
  (deserialize 4 (src.drop (n + encFieldSize))).toNat

/-- `secure_protocol::decode`. -/
def secureDecode (p : SecureState) (src : Bytes) :
    SecureState × Except Fault (DecodeResult (BitVec (8 * n))) :=
  -- a frame without a payload is never complete
  if src.length ≤ secureMinSize n then (p, .ok ⟨0, [], 0, src⟩)
  else
    let pic := deserialize n src
    let encrypt := deserializeBool (src.drop n)
    let len := secureLen n src
    let totalLen := len + lengthFieldSize + n + encFieldSize
    if src.length < totalLen then (p, .ok ⟨0, [], 0, src⟩)
    else
      let payload := (src.drop (secureMinSize n)).take len
      if encrypt then
        match p.cipherHandshake with
        | none => (p, .error .outOfBounds)
        | some hs =>
            match hs.cipherDecode S payload with
            | (hs, .error e) => ({ p with cipherHandshake := some hs }, .error e)
            | (hs, .ok body) =>
                -- in place: the source buffer holds the plain text from now on
                ({ p with cipherHandshake := some hs },
                  .ok ⟨totalLen, body, pic, src.take (secureMinSize n) ++ body ++
                    src.drop (secureMinSize n + len)⟩)
      else (p, .ok ⟨totalLen, payload, pic, src⟩)

/-- `secure_protocol::handshake`: at most one handshake message is taken from
the front of the buffer. -/
def secureHandshake (p : SecureState) (src : Bytes) : SecureState × Except Fault (ℕ × Bytes) :=
  let payload := LengthDelimited.decode src
  if 0 < payload.length then
    match p.cipherHandshake with
    | none => (p, .error .outOfBounds)
    | some hs =>
        match hs.onHandshake S payload with
        | (hs, .error e) => ({ p with cipherHandshake := some hs }, .error e)
        | (hs, .ok (_, resp)) =>
            let p := { p with cipherHandshake := some hs }
            -- what follows the message in the buffer is left for the next call
            let consumedLen := payload.length + lengthFieldSize
            if 0 < resp.length then (p, .ok (consumedLen, LengthDelimited.encode resp))
            else (p, .ok (consumedLen, []))
  else (p, .ok (0, []))

/-- `secure_protocol<Topic>` for a topic of `n` bytes. -/
def secureProtocol : Protocol where
  State := SecureState
  Topic := BitVec (8 * n)
  Entropy := Draws
  maxSendSize := maxSendSize
  make handle entropy := { handle, entropy }
  accepted p := secureBegin S p true
  connected p := secureBegin S p false
  closed p := { p with closed := true }
  encode := secureEncode S n
  decode := secureDecode S n
  handshake := secureHandshake S
  isEstablished := SecureState.isEstablished
  isClosed p := p.closed

end Secure

/-! ### What the members do to the flags -/

/-- The part of the contract between a session and its protocol that is
about the flags: coding a frame changes neither of them, a handshake does not
reopen a closed protocol, and a closed protocol is not established. -/
structure Protocol.Lawful (P : Protocol) : Prop where
  isClosed_closed : ∀ p, P.isClosed (P.closed p) = true
  not_isEstablished : ∀ {p}, P.isClosed p = true → P.isEstablished p = false
  isClosed_encode : ∀ p t d e, P.isClosed (P.encode p t d e).1 = P.isClosed p
  isEstablished_encode : ∀ p t d e, P.isEstablished (P.encode p t d e).1 = P.isEstablished p
  isClosed_decode : ∀ p b, P.isClosed (P.decode p b).1 = P.isClosed p
  isEstablished_decode : ∀ p b, P.isEstablished (P.decode p b).1 = P.isEstablished p
  isClosed_handshake : ∀ p b, P.isClosed (P.handshake p b).1 = P.isClosed p

theorem streamProtocol_lawful : streamProtocol.Lawful where
  isClosed_closed _ := rfl
  not_isEstablished := by
    intro p h
    simp only [streamProtocol] at h
    simp [streamProtocol, LinkState.isEstablished, h]
  isClosed_encode p _ _ _ := by simp only [streamProtocol]; split <;> rfl
  isEstablished_encode p _ _ _ := by simp only [streamProtocol]; split <;> rfl
  isClosed_decode _ _ := rfl
  isEstablished_decode _ _ := rfl
  isClosed_handshake _ _ := rfl

theorem plainProtocol_lawful (n : ℕ) : (plainProtocol n).Lawful where
  isClosed_closed _ := rfl
  not_isEstablished := by
    intro p h
    simp only [plainProtocol] at h
    simp [plainProtocol, LinkState.isEstablished, h]
  isClosed_encode p _ _ _ := by simp only [plainProtocol]; split <;> rfl
  isEstablished_encode p _ _ _ := by simp only [plainProtocol]; split <;> rfl
  isClosed_decode _ _ := rfl
  isEstablished_decode _ _ := rfl
  isClosed_handshake _ _ := rfl

section Secure

variable {S : Sodium} {n : ℕ}

theorem cipherEncode_established (hs : SodiumHandshake) (src : Bytes) :
    (hs.cipherEncode S src).1.established = hs.established := by
  unfold SodiumHandshake.cipherEncode
  split <;> rfl

theorem cipherDecode_established (hs : SodiumHandshake) (src : Bytes) :
    (hs.cipherDecode S src).1.established = hs.established := by
  unfold SodiumHandshake.cipherDecode
  split <;> rfl

/-- Encoding replaces at most the cipher object, and keeps its flag. -/
theorem secureEncode_flags (p : SecureState) (t : BitVec (8 * n)) (d : Bytes) (e : Bool) :
    (secureEncode S n p t d e).1.closed = p.closed ∧
      (secureEncode S n p t d e).1.isEstablished = p.isEstablished := by
  unfold secureEncode
  split
  · exact ⟨rfl, rfl⟩
  split
  · exact ⟨rfl, rfl⟩
  dsimp only
  split
  swap
  · exact ⟨rfl, rfl⟩
  rcases hcs : p.cipherHandshake with - | hs
  · exact ⟨rfl, rfl⟩
  · have hest := cipherEncode_established (S := S) hs d
    rcases hx : hs.cipherEncode S d with ⟨hs', e | body⟩ <;>
      simp only [hx] at hest <;> simp [hx, SecureState.isEstablished, hcs, hest]

theorem secureDecode_flags (p : SecureState) (b : Bytes) :
    (secureDecode S n p b).1.closed = p.closed ∧
      (secureDecode S n p b).1.isEstablished = p.isEstablished := by
  unfold secureDecode
  split
  · exact ⟨rfl, rfl⟩
  dsimp only
  split
  · exact ⟨rfl, rfl⟩
  split
  swap
  · exact ⟨rfl, rfl⟩
  rcases hcs : p.cipherHandshake with - | hs
  · exact ⟨rfl, rfl⟩
  · have hest := cipherDecode_established (S := S) hs
      ((b.drop (secureMinSize n)).take (secureLen n b))
    rcases hx : hs.cipherDecode S ((b.drop (secureMinSize n)).take (secureLen n b))
      with ⟨hs', e | body⟩ <;> simp only [hx] at hest <;>
      simp [hx, SecureState.isEstablished, hcs, hest]

theorem secureHandshake_closed (p : SecureState) (b : Bytes) :
    (secureHandshake S p b).1.closed = p.closed := by
  unfold secureHandshake
  dsimp only
  split
  swap
  · rfl
  rcases hcs : p.cipherHandshake with - | hs
  · rfl
  · rcases hx : hs.onHandshake S (LengthDelimited.decode b) with ⟨hs', e | ⟨k, resp⟩⟩
    · simp [hx]
    · simp only [hx]
      split <;> rfl

theorem secureProtocol_lawful (S : Sodium) (n : ℕ) : (secureProtocol S n).Lawful where
  isClosed_closed _ := rfl
  not_isEstablished := by
    intro p h
    simp only [secureProtocol] at h
    simp [secureProtocol, SecureState.isEstablished, h]
  isClosed_encode p t d e := (secureEncode_flags p t d e).1
  isEstablished_encode p t d e := (secureEncode_flags p t d e).2
  isClosed_decode p b := (secureDecode_flags p b).1
  isEstablished_decode p b := (secureDecode_flags p b).2
  isClosed_handshake p b := secureHandshake_closed p b

end Secure

end Play
