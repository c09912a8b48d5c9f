/-
Play/EncodeChecks.lean

The assertions on the way of a frame that is sent with `plain_protocol`.

`session::send` checks its arguments, `plain_protocol::encode` its flags and
the size that `length_delimited` reports, and both `length_delimited::encode`
and `serializer::serialize` the room they are given:

    plain_protocol::encode      the destination has 4 + src.size() + n bytes
      serializer::serialize     is told src.size()
      length_delimited::encode  is told 4 + src.size()

The room for the topic is `n` bytes at the front of the destination, but
`encode` passes the size of the payload.  `encodeChecks_iff` says that this is
the only check that can fail, and when: a payload shorter than a topic.
-/
import Play.Session

namespace Play

/-! ### The checks of one call -/

/-- The check of `serializer::serialize` for a value of `size` bytes. -/
def serializeCheck (len size : ℕ) : Bool :=
  decide (size ≤ len)

namespace LengthDelimited

/-- The checks of `length_delimited::encode` into a buffer of `room` bytes. -/
def encodeIntoChecks (src : Bytes) (room : ℕ) : List Bool :=
  [decide (0 < src.length), decide (src.length ≤ room),
    decide (lengthFieldSize + src.length ≤ room)]

/-- The checks of `length_delimited::encode` into a `streambuf`. -/
def encodeChecks (src : Bytes) : List Bool :=
  decide (0 < src.length) :: encodeIntoChecks src (lengthFieldSize + src.length)

theorem encodeChecks_hold {src : Bytes} (hne : src ≠ []) : ∀ x ∈ encodeChecks src, x = true := by
  have hpos : 0 < src.length := List.length_pos_of_ne_nil hne
  simp [encodeChecks, encodeIntoChecks, hpos]

end LengthDelimited

/-- The checks of `plain_protocol::encode` for a topic of `n` bytes, in order. -/
def plainEncodeChecks {n : ℕ} (p : LinkState) (_pic : BitVec (8 * n)) (src : Bytes) : List Bool :=
  (!p.closed) ::
    if p.closed then []
    else
      p.isEstablished :: serializeCheck src.length n :: (LengthDelimited.encodeChecks src ++
        [(LengthDelimited.encode src).length == src.length + lengthFieldSize])

namespace Session

/-- The checks of `session::send` with a topic, in order.  A list of bytes is
never a null pointer. -/
def sendChecks {n : ℕ} (s : Session (plainProtocol n)) (pic : BitVec (8 * n)) (data : Bytes) :
    List Bool :=
  if !s.isOpen then []
  else if maxSendSize ≤ data.length then []
  else
    decide (0 < data.length) ::
      if data.length = 0 then []
      else s.protocol.elim [] fun p => plainEncodeChecks p pic data

end Session

/-! ### Which payloads pass -/

section

variable {n : ℕ} {p : LinkState} {data : Bytes}

theorem plainEncodeChecks_iff (hp : p.isEstablished = true) (pic : BitVec (8 * n))
    (hne : data ≠ []) :
    (∀ x ∈ plainEncodeChecks p pic data, x = true) ↔ n ≤ data.length := by
  have hopen : p.closed = false := by
    have := hp
    simp only [LinkState.isEstablished, Bool.and_eq_true, Bool.not_eq_true'] at this
    exact this.2
  have hsize : (LengthDelimited.encode data).length = data.length + lengthFieldSize := by
    rw [length_encode, Nat.add_comm]
  have hinner := LengthDelimited.encodeChecks_hold hne
  constructor
  · intro hall
    have := hall (serializeCheck data.length n) (by simp [plainEncodeChecks, hopen])
    simpa [serializeCheck] using this
  · intro hle x hx
    simp only [plainEncodeChecks, hopen, Bool.false_eq_true, if_false, List.mem_cons,
      List.mem_append, List.not_mem_nil, or_false] at hx
    rcases hx with rfl | rfl | rfl | hx | rfl
    · rfl
    · exact hp
    · simpa [serializeCheck] using hle
    · exact hinner x hx
    · simp [hsize]

/-- **The checks of a frame hold** exactly when the payload is not shorter than
a topic: those of `encode` on an established protocol, and those of a `send`
that the session admits. -/
theorem encodeChecks_iff (hp : p.isEstablished = true) (pic : BitVec (8 * n)) (hne : data ≠ [])
    (hmax : data.length < maxSendSize) :
    ((∀ x ∈ plainEncodeChecks p pic data, x = true) ↔ n ≤ data.length) ∧
      ∀ s : Session (plainProtocol n), s.isOpen = true → s.protocol = some p →
        ((∀ x ∈ s.sendChecks pic data, x = true) ↔ n ≤ data.length) := by
  have hiff := plainEncodeChecks_iff hp pic hne
  refine ⟨hiff, fun s hopen hproto => ?_⟩
  have hpos : 0 < data.length := List.length_pos_of_ne_nil hne
  have hchecks : s.sendChecks pic data
      = decide (0 < data.length) :: plainEncodeChecks p pic data := by
    rw [Session.sendChecks, if_neg (by simp [hopen]), if_neg (by omega), if_neg (by omega), hproto]
    rfl
  rw [hchecks, List.forall_mem_cons, hiff]
  simp [hpos]

end

/-- An accepted `plain_protocol`. -/
def acceptedLink : LinkState := { handle := 3, accepted := true, closed := false }

/-- Two bytes of payload behind a `uint16_t` topic. -/
theorem encodeChecks_two_bytes :
    acceptedLink.isEstablished = true ∧
      ∀ x ∈ plainEncodeChecks (n := 2) acceptedLink 7#16 [1, 2], x = true :=
  ⟨rfl, (encodeChecks_iff rfl 7#16 (by simp) (by decide)).1.mpr (by simp)⟩

/-- One byte of payload behind a `uint16_t` topic: the check of
`serializer::serialize` fails, in a `send` that the session admits. -/
theorem encodeChecks_one_byte :
    acceptedLink.isEstablished = true ∧
      plainEncodeChecks (n := 2) acceptedLink 7#16 [1]
        = [true, true, false, true, true, true, true, true] ∧
      false ∈ Session.sendChecks (n := 2) { accepted := true, protocol := some acceptedLink }
        7#16 [1] := by
  decide

end Play
