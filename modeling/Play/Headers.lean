/-
Play/Headers.lean

Frames that have arrived and are not taken.

The header of a frame announces its size.  `decode` gives 0 to say that the
frame is not complete yet, and the session then waits for more bytes.  Both
protocols give 0 for a buffer that is not longer than a header, and the plain
one also for a payload that is empty, which is how `length_delimited` says
that the payload is not there.  So a frame of length 0 has arrived with its
header and is not taken: by the plain protocol never, by the secure one as
long as nothing follows it (`never_blocks_iff`).

A plain session that got such a header is deaf from then on
(`deaf_of_zero_length`).
-/
import Play.Chunking

namespace Play

/-! ### The size that a header announces -/

/-- The length field of a plain frame. -/
def plainLen (n : ℕ) (b : Bytes) : ℕ :=
  LengthDelimited.readLength (b.drop n)

/-- What a decoder must not do: give 0 for a buffer with a whole frame in
front.  `header` is the size of a header and `len` reads the length in it. -/
def NeverBlocks (P : Protocol) (header : ℕ) (len : Bytes → ℕ) (p : P.State) (b : Bytes) : Prop :=
  ∀ {p' r}, P.decode p b = (p', .ok r) → r.consumed = 0 →
    b.length < header ∨ b.length < header + len b

theorem plainDecode_consumed_eq_zero_iff {n : ℕ} {b : Bytes} :
    (plainDecode n b).consumed = 0 ↔
      b.length ≤ plainMinSize n ∨ b.length < plainMinSize n + plainLen n b ∨ plainLen n b = 0 := by
  rw [plainDecode]
  split
  · next hlen => simp [hlen]
  next hlen =>
  have hfield : ¬ (b.drop n).length < lengthFieldSize := by
    rw [plainMinSize] at hlen
    rw [List.length_drop]
    omega
  dsimp only
  rw [LengthDelimited.decode, if_neg hfield, ← plainLen, List.length_drop]
  rw [plainMinSize, lengthFieldSize] at *
  by_cases hfit : plainLen n b + 4 ≤ b.length - n
  · rw [if_pos hfit, List.length_take, List.length_drop, List.length_drop]
    split
    · simp only [Nat.add_eq_zero_iff]
      omega
    · simp only [true_iff]
      omega
  · rw [if_neg hfit]
    simp only [List.length_nil, lt_self_iff_false, if_false, true_iff]
    omega

theorem plain_neverBlocks_iff {n : ℕ} {p : (plainProtocol n).State} {b : Bytes} :
    NeverBlocks (plainProtocol n) (plainMinSize n) (plainLen n) p b ↔
      ¬ (plainMinSize n ≤ b.length ∧ plainLen n b = 0) := by
  have hzero := plainDecode_consumed_eq_zero_iff (n := n) (b := b)
  constructor
  · rintro h ⟨hhead, hlen⟩
    have hshort := @h p (plainDecode n b) rfl (hzero.mpr (.inr (.inr hlen)))
    omega
  · intro h p' r hd hr
    cases hd
    have := hzero.mp hr
    omega

theorem secure_neverBlocks_iff {S : Sodium} {n : ℕ} {p : (secureProtocol S n).State} {b : Bytes} :
    NeverBlocks (secureProtocol S n) (secureMinSize n) (secureLen n) p b ↔
      ¬ (b.length = secureMinSize n ∧ secureLen n b = 0) := by
  constructor
  · rintro h ⟨hhead, hlen⟩
    have hd : secureDecode S n p b = (p, .ok ⟨0, [], 0, b⟩) := if_pos hhead.le
    have := h hd rfl
    omega
  · intro h p' r hd hr
    change secureDecode S n p b = (p', .ok r) at hd
    unfold secureDecode at hd
    dsimp only at hd
    split at hd
    · omega
    split at hd
    · next htotal =>
        rw [secureMinSize]
        omega
    -- a frame that is there is consumed, or the cipher throws
    split at hd
    · split at hd
      · cases hd
      · split at hd
        · cases hd
        · cases hd
          simp only [lengthFieldSize] at hr
          omega
    · cases hd
      simp only [lengthFieldSize] at hr
      omega

/-- **Which frames block**: for every buffer, whatever its header says, a
decoder answers 0 only while the frame is incomplete if and only if the buffer
does not start with the header of an empty frame; in the secure protocol only
a buffer that ends with this header blocks. -/
theorem never_blocks_iff (n : ℕ) (b : Bytes) :
    (∀ p : (plainProtocol n).State,
      NeverBlocks (plainProtocol n) (plainMinSize n) (plainLen n) p b ↔
        ¬ (plainMinSize n ≤ b.length ∧ plainLen n b = 0)) ∧
    (∀ S (p : (secureProtocol S n).State),
      NeverBlocks (secureProtocol S n) (secureMinSize n) (secureLen n) p b ↔
        ¬ (b.length = secureMinSize n ∧ secureLen n b = 0)) :=
  ⟨fun _ => plain_neverBlocks_iff, fun _ _ => secure_neverBlocks_iff⟩

/-- A frame with topic 7 and no payload, and behind it one with topic 8 and
the payload 5. -/
def emptyThenFull : Bytes :=
  [7, 0, 0, 0, 0, 0] ++ [8, 0, 1, 0, 0, 0, 5]

/-- The first frame is there, and `decode` says that it is not. -/
theorem emptyThenFull_blocks :
    ¬ NeverBlocks (plainProtocol 2) (plainMinSize 2) (plainLen 2) { handle := 1 }
      emptyThenFull := by
  intro h
  have hzero : (plainDecode 2 emptyThenFull).consumed = 0 := by decide
  have hshort := @h { handle := 1 } (plainDecode 2 emptyThenFull) rfl hzero
  exact absurd hshort (by decide)

/-! ### A session that waits forever -/

/-- Whatever comes behind the header of an empty frame, no frame is found. -/
theorem plainDecoder_settled {n : ℕ} {b : Bytes} (hhead : plainMinSize n ≤ b.length)
    (hlen : plainLen n b = 0) (c : Bytes) : (plainDecoder n).Settled () (b ++ c) := by
  have hlen' : plainLen n (b ++ c) = 0 := by
    rw [plainMinSize] at hhead
    rw [← hlen, plainLen, plainLen, List.drop_append_of_le_length (by omega),
      readLength_append (by rw [List.length_drop]; omega)]
  have hzero := plainDecode_consumed_eq_zero_iff.mpr (.inr (.inr hlen'))
  intro k r' f hd
  simp only [plainDecoder, hzero, lt_self_iff_false, if_false] at hd
  cases hd

namespace Session

variable {P : Protocol} {ρ : Type} {D : Decoder ρ UInt8 (P.Topic × Bytes)} {rx : P.State → ρ}

theorem exists_holds {s : Session P} (hest : s.isEstablished = true) (rx : P.State → ρ) :
    ∃ r, Holds rx r (s.log ++ receives []) s.recvBuf s := by
  rcases hp : s.protocol with - | p
  · simp [isEstablished, hp] at hest
  · refine ⟨rx p, ?_, by simp [receives], rfl⟩
    simpa [hp, isEstablished] using hest

/-- Where no frame is ever found, nothing is called. -/
theorem Holds.log_of_settled (hF : FramedBy P D rx) {r : ρ} {log : List (Callback P.Topic)}
    {b : Bytes} {s : Session P} (hs : Holds rx r (log ++ receives []) b s)
    (hset : ∀ c, D.Settled r (b ++ c)) {cs : List (Handler P.Topic × Bytes)}
    (hcs : ∀ c ∈ cs, Calm c.1) : (s.handleRecvAll cs).log = log := by
  have hlog := (hs.handleRecvAll hF hcs).log
  rcases cs with - | ⟨c, cs⟩
  · simpa [receives, Decoder.feed] using hlog
  · rw [List.map_cons, Decoder.feed_cons, D.drain_settled (hset _)] at hlog
    simpa [receives] using hlog

end Session

/-- **One empty frame and the session is deaf**: an established session of the
plain protocol that has the header of an empty frame in front of its buffer
calls its handler no more, however many bytes arrive. -/
theorem deaf_of_zero_length {n : ℕ} {s : Session (plainProtocol n)} (hest : s.isEstablished = true)
    (hhead : plainMinSize n ≤ s.recvBuf.length) (hlen : plainLen n s.recvBuf = 0)
    {cs : List (Handler (plainProtocol n).Topic × Bytes)} (hcs : ∀ c ∈ cs, Session.Calm c.1) :
    (s.handleRecvAll cs).log = s.log := by
  obtain ⟨r, hs⟩ := Session.exists_holds hest fun _ => ()
  exact hs.log_of_settled (plainProtocol_framedBy n) (plainDecoder_settled hhead hlen) hcs

end Play
