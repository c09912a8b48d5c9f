/-
Play/Serializer.lean

The byte level of the protocols: `serializer` (little-endian integers of any
width) and `length_delimited` (a payload behind a 4-byte length).

A value of `sizeof(Value) = n` bytes is a `BitVec (8 * n)`; a buffer is a
list of bytes.  Both loops of `serializer` are kept as loops: `serialize`
shifts its copy of the value down, `deserialize` or-s each byte in at its
place.  `length_delimited` has loops of its own over a `size_t`, and reads
its bytes through a signed `char`; `lengthField_eq_serialize` and
`readLength_eq_deserialize` say that they agree with `serializer` at width
four all the same.
-/
import Mathlib.Algebra.Group.Nat.Defs
import Mathlib.Data.List.Infix
import Mathlib.Tactic.Common

namespace Play

/-- The contents of a buffer. -/
abbrev Bytes := List UInt8

variable {w : ℕ}

/-! ### serializer -/

/-- The loop of `serializer::serialize`: `sv` is the value still to write. -/
def serializeLoop : ℕ → BitVec w → Bytes
  | 0, _ => []
  | n + 1, sv => UInt8.ofBitVec ((sv &&& 0xFF#w).setWidth 8) :: serializeLoop n (sv >>> 8)

/-- `serializer::serialize` for a value of `n` bytes. -/
def serialize {n : ℕ} (v : BitVec (8 * n)) : Bytes :=
  serializeLoop n v

/-- The overload of `serializer::serialize` for `bool`. -/
def serializeBool (v : Bool) : Bytes :=
  [if v then 1 else 0]

/-- The loop of `serializer::deserialize` from index `i` on. -/
def deserializeLoop : ℕ → BitVec w → Bytes → BitVec w
  | _, v, [] => v
  | i, v, b :: bs =>
      deserializeLoop (i + 1) (v ||| ((b.toBitVec.setWidth w &&& 0xFF#w) <<< (i * 8))) bs

/-- `serializer::deserialize` for a value of `n` bytes: the first `n` bytes
of the buffer. -/
def deserialize (n : ℕ) (buf : Bytes) : BitVec (8 * n) :=
  deserializeLoop 0 0 (buf.take n)

/-- The overload of `serializer::deserialize` for `bool`. -/
def deserializeBool (buf : Bytes) : Bool :=
  buf.headD 0 != 0

@[simp] theorem length_serializeLoop (n : ℕ) (v : BitVec w) :
    (serializeLoop n v).length = n := by
  induction n generalizing v with
  | zero => rfl
  | succ n ih => simp [serializeLoop, ih]

@[simp] theorem length_serialize {n : ℕ} (v : BitVec (8 * n)) : (serialize v).length = n :=
  length_serializeLoop n v

@[simp] theorem length_serializeBool (v : Bool) : (serializeBool v).length = 1 := rfl

theorem deserializeBool_serializeBool (v : Bool) (c : Bytes) :
    deserializeBool (serializeBool v ++ c) = v := by
  cases v <;> simp [deserializeBool, serializeBool]

/-- Only the low byte survives the mask, whatever the width. -/
theorem getLsbD_mask (v : BitVec w) (j : ℕ) :
    (v &&& 0xFF#w).getLsbD j = (v.getLsbD j && decide (j < 8)) := by
  rw [BitVec.getLsbD_and, BitVec.getLsbD_ofNat]
  by_cases hw : j < w
  · have h255 : Nat.testBit 255 j = decide (j < 8) := by
      rw [show (255 : ℕ) = 2 ^ 8 - 1 from rfl, Nat.testBit_two_pow_sub_one]
    simp [hw, h255]
  · simp [hw, BitVec.getLsbD_of_ge v j (by omega)]

/-- Byte `k` of a serialized value holds the bits from `8 * k` on. -/
theorem getLsbD_getD_serializeLoop {n : ℕ} {v : BitVec w} {k j : ℕ} (hk : k < n) (hj : j < 8) :
    ((serializeLoop n v).getD k 0).toBitVec.getLsbD j = v.getLsbD (8 * k + j) := by
  induction n generalizing v k with
  | zero => omega
  | succ n ih =>
      rcases k with - | k
      · rw [serializeLoop, List.getD_cons_zero, UInt8.toBitVec_ofBitVec,
          BitVec.getLsbD_setWidth, getLsbD_mask]
        simp [hj]
      · rw [serializeLoop, List.getD_cons_succ, ih (by omega), BitVec.getLsbD_ushiftRight]
        congr 1
        omega

/-- The bits that the loop of `deserialize` adds, byte by byte. -/
theorem getLsbD_deserializeLoop (i : ℕ) (v : BitVec w) (bs : Bytes) (j : ℕ) :
    (deserializeLoop i v bs).getLsbD j = (v.getLsbD j || (decide (j < w) && decide (8 * i ≤ j) &&
      (bs.getD (j / 8 - i) 0).toBitVec.getLsbD (j % 8))) := by
  induction bs generalizing i v with
  | nil => simp [deserializeLoop]
  | cons b bs ih =>
      rw [deserializeLoop, ih, BitVec.getLsbD_or, BitVec.getLsbD_shiftLeft, getLsbD_mask,
        BitVec.getLsbD_setWidth, Bool.or_assoc]
      congr 1
      by_cases hw : j < w
      swap
      · simp [hw]
      by_cases hlow : j < 8 * i
      · simp [show j < i * 8 by omega, show ¬ 8 * i ≤ j by omega, show ¬ 8 * (i + 1) ≤ j by omega]
      by_cases hhere : j < 8 * (i + 1)
      · have h₁ : j / 8 - i = 0 := by omega
        have h₂ : j - i * 8 = j % 8 := by omega
        simp [hw, h₁, h₂, show ¬ j < i * 8 by omega, show 8 * i ≤ j by omega,
          show ¬ 8 * (i + 1) ≤ j by omega, show j % 8 < 8 by omega, show j % 8 < w by omega]
      · have h₁ : j / 8 - i = (j / 8 - (i + 1)) + 1 := by omega
        simp [hw, h₁, show ¬ j - i * 8 < 8 by omega, show 8 * i ≤ j by omega,
          show 8 * (i + 1) ≤ j by omega]

/-- `deserialize` undoes `serialize`, whatever stands behind the value. -/
theorem deserialize_serialize {n : ℕ} (v : BitVec (8 * n)) (c : Bytes) :
    deserialize n (serialize v ++ c) = v := by
  refine BitVec.eq_of_getLsbD_eq fun j hj => ?_
  rw [deserialize, List.take_left' (length_serialize v), getLsbD_deserializeLoop, serialize,
    Nat.sub_zero, getLsbD_getD_serializeLoop (by omega) (by omega)]
  simp [hj, show 8 * (j / 8) + j % 8 = j by omega]

/-- `serialize` undoes `deserialize` on a buffer of the value's size. -/
theorem serialize_deserialize {n : ℕ} {b : Bytes} (hb : b.length = n) :
    serialize (deserialize n b) = b := by
  have htake : b.take n = b := List.take_of_length_le (le_of_eq hb)
  apply List.ext_getElem
  · rw [length_serialize, hb]
  intro k hk hk'
  have hkn : k < n := hb ▸ hk'
  -- byte `k` is compared bit by bit
  apply UInt8.toBitVec_inj.mp
  refine BitVec.eq_of_getLsbD_eq fun j hj => ?_
  rw [List.getElem_eq_getD 0, List.getElem_eq_getD 0, serialize,
    getLsbD_getD_serializeLoop hkn hj, deserialize, htake, getLsbD_deserializeLoop, Nat.sub_zero,
    show (8 * k + j) / 8 = k by omega, show (8 * k + j) % 8 = j by omega]
  simp [show 8 * k + j < 8 * n by omega]

/-- Writing a field again that was read. -/
theorem serialize_deserialize_take {n : ℕ} {b : Bytes} (hb : n ≤ b.length) :
    serialize (deserialize n b) = b.take n := by
  have hlen : (b.take n).length = n := by
    rw [List.length_take, Nat.min_eq_left hb]
  have hread : deserialize n b = deserialize n (b.take n) := by
    rw [deserialize, deserialize, List.take_take, Nat.min_self]
  rw [hread, serialize_deserialize hlen]

/-- `deserialize` reads the first `n` bytes only. -/
theorem deserialize_append {n : ℕ} {b : Bytes} (hb : n ≤ b.length) (c : Bytes) :
    deserialize n (b ++ c) = deserialize n b := by
  rw [deserialize, deserialize, List.take_append_of_le_length hb]

theorem deserializeBool_append {b : Bytes} (hb : 0 < b.length) (c : Bytes) :
    deserializeBool (b ++ c) = deserializeBool b := by
  rcases b with - | ⟨x, b⟩
  · simp at hb
  · rfl

/-! ### length_delimited -/

/-- `length_delimited::length_field_size`. -/
def lengthFieldSize : ℕ := 4

/-- The loop of `length_delimited::encode` that writes the length field;
`len` is a `size_t`. -/
def lengthLoop : ℕ → ℕ → Bytes
  | 0, _ => []
  | n + 1, len => UInt8.ofNat (len &&& 0xFF) :: lengthLoop n (len >>> 8)

/-- The length field in front of a payload of `len` bytes. -/
def lengthField (len : ℕ) : Bytes :=
  lengthLoop lengthFieldSize len

namespace LengthDelimited

/-- `length_delimited::encode`: the bytes committed to the destination. -/
def encode (src : Bytes) : Bytes :=
  lengthField src.length ++ src

/-- The loop of `length_delimited::decode` that reads the length field.  The
bytes are `char`s, so each one is sign-extended before it is masked. -/
def readLengthLoop : ℕ → ℕ → Bytes → ℕ
  | _, len, [] => len
  | i, len, p :: ps =>
      readLengthLoop (i + 1)
        (len ||| ((p.toBitVec.signExtend 32 &&& 0xFF#32) <<< (i * 8)).toNat) ps

/-- The length that the first four bytes announce. -/
def readLength (src : Bytes) : ℕ :=
  readLengthLoop 0 0 (src.take lengthFieldSize)

/-- `length_delimited::decode`: the payload, or the empty buffer when the
field or the payload is not there yet. -/
def decode (src : Bytes) : Bytes :=
  if src.length < lengthFieldSize then []
  else if readLength src + lengthFieldSize ≤ src.length then
    (src.drop lengthFieldSize).take (readLength src)
  else []

end LengthDelimited

@[simp] theorem length_lengthLoop (n len : ℕ) : (lengthLoop n len).length = n := by
  induction n generalizing len with
  | zero => rfl
  | succ n ih => simp [lengthLoop, ih]

@[simp] theorem length_lengthField (len : ℕ) : (lengthField len).length = lengthFieldSize :=
  length_lengthLoop _ _

@[simp] theorem length_encode (src : Bytes) :
    (LengthDelimited.encode src).length = lengthFieldSize + src.length := by
  simp [LengthDelimited.encode]

/-! #### The two integer codecs agree -/

theorem lengthLoop_eq_serializeLoop (n : ℕ) {len : ℕ} (h : len < 2 ^ 32) :
    lengthLoop n len = serializeLoop n (BitVec.ofNat 32 len) := by
  induction n generalizing len with
  | zero => rfl
  | succ n ih =>
      have hlen : len % 2 ^ 32 = len := Nat.mod_eq_of_lt h
      have hshift : BitVec.ofNat 32 len >>> 8 = BitVec.ofNat 32 (len >>> 8) := by
        apply BitVec.eq_of_toNat_eq
        simp only [BitVec.toNat_ushiftRight, BitVec.toNat_ofNat, hlen]
        exact (Nat.mod_eq_of_lt (lt_of_le_of_lt (Nat.shiftRight_le len 8) h)).symm
      have hbyte : UInt8.ofNat (len &&& 0xFF)
          = UInt8.ofBitVec ((BitVec.ofNat 32 len &&& 0xFF#32).setWidth 8) := by
        rw [← UInt8.toNat_inj, UInt8.toNat_ofNat', UInt8.toNat, UInt8.toBitVec_ofBitVec,
          BitVec.toNat_setWidth, BitVec.toNat_and, BitVec.toNat_ofNat, hlen]
        rfl
      rw [lengthLoop, serializeLoop, hshift, hbyte,
        ih (lt_of_le_of_lt (Nat.shiftRight_le len 8) h)]

/-- The length field is the serialized 32-bit length. -/
theorem lengthField_eq_serialize {len : ℕ} (h : len < 2 ^ 32) :
    lengthField len = serialize (n := 4) (BitVec.ofNat 32 len) :=
  lengthLoop_eq_serializeLoop 4 h

/-- The sign extension of a `char` does not survive the mask. -/
theorem signExtend_mask (b : BitVec 8) :
    b.signExtend 32 &&& 0xFF#32 = b.setWidth 32 &&& 0xFF#32 := by
  refine BitVec.eq_of_getLsbD_eq fun j hj => ?_
  rw [getLsbD_mask, getLsbD_mask, BitVec.getLsbD_signExtend, BitVec.getLsbD_setWidth]
  by_cases h8 : j < 8 <;> simp [h8]

theorem readLengthLoop_eq_deserializeLoop (i : ℕ) (v : BitVec 32) (ps : Bytes) :
    LengthDelimited.readLengthLoop i v.toNat ps = (deserializeLoop i v ps).toNat := by
  induction ps generalizing i v with
  | nil => rfl
  | cons p ps ih =>
      rw [LengthDelimited.readLengthLoop, deserializeLoop, ← ih, BitVec.toNat_or,
        signExtend_mask]

/-- `length_delimited` reads every 4-byte field as `serializer` does, bytes of
`0x80` and above included. -/
theorem readLength_eq_deserialize (src : Bytes) :
    LengthDelimited.readLength src = (deserialize 4 src).toNat :=
  readLengthLoop_eq_deserializeLoop 0 0 (src.take 4)

/-- `length_delimited::encode` writes the length as `serializer` would. -/
theorem encode_eq_serialize {src : Bytes} (h : src.length < 2 ^ 32) :
    LengthDelimited.encode src = serialize (n := 4) (BitVec.ofNat 32 src.length) ++ src := by
  rw [LengthDelimited.encode, lengthField_eq_serialize h]

/-- `length_delimited::decode` behind a length field reads the field as
`serializer` would. -/
theorem decode_field_append {field : Bytes} (hf : field.length = lengthFieldSize) (rest : Bytes) :
    LengthDelimited.decode (field ++ rest)
      = if (deserialize 4 field).toNat ≤ rest.length then rest.take (deserialize 4 field).toNat
        else [] := by
  have hread : LengthDelimited.readLength (field ++ rest) = (deserialize 4 field).toNat := by
    rw [readLength_eq_deserialize, deserialize_append (n := 4) (le_of_eq hf.symm)]
  rw [LengthDelimited.decode, if_neg (by simp [hf]), hread, List.drop_left' hf, List.length_append,
    hf]
  split
  · rw [if_pos (by omega)]
  · rw [if_neg (by omega)]

/-- **The two integer codecs agree**: `serialize` and `deserialize` undo each
other at every width, and `length_delimited` writes and reads its length field
as they do at width four. -/
theorem codecs_agree {n : ℕ} (v : BitVec (8 * n)) {b : Bytes} (hb : b.length = n) {src : Bytes}
    (hsrc : src.length < 2 ^ 32) {field : Bytes} (hf : field.length = lengthFieldSize) :
    deserialize n (serialize v) = v ∧ serialize (deserialize n b) = b ∧
      LengthDelimited.encode src = serialize (n := 4) (BitVec.ofNat 32 src.length) ++ src ∧
      LengthDelimited.readLength field = (deserialize 4 field).toNat ∧
      ∀ rest, LengthDelimited.decode (field ++ rest)
        = if (deserialize 4 field).toNat ≤ rest.length then rest.take (deserialize 4 field).toNat
          else [] := by
  refine ⟨?_, serialize_deserialize hb, encode_eq_serialize hsrc, readLength_eq_deserialize field,
    decode_field_append hf⟩
  rw [← List.append_nil (serialize v), deserialize_serialize]

/-- Bytes of `0x80` and above, in a value and in a length field. -/
theorem codecs_agree_high :
    deserialize 2 (serialize (n := 2) 0xBEEF#16) = 0xBEEF#16 ∧
      serialize (deserialize 2 [0xEF, 0xBE]) = [0xEF, 0xBE] ∧
      LengthDelimited.encode [0x81] = serialize (n := 4) 1#32 ++ [0x81] ∧
      LengthDelimited.readLength [0x80, 0xFF, 0x90, 0xFE] = 0xFE90FF80 := by
  have hsrc : ([0x81] : Bytes).length < 2 ^ 32 := by decide
  have hf : ([0x80, 0xFF, 0x90, 0xFE] : Bytes).length = lengthFieldSize := rfl
  obtain ⟨h₁, h₂, h₃, h₄, -⟩ := codecs_agree (n := 2) 0xBEEF#16 (b := [0xEF, 0xBE]) rfl hsrc hf
  exact ⟨h₁, h₂, h₃, h₄.trans (by decide)⟩

theorem readLength_lengthField {len : ℕ} (h : len < 2 ^ 32) (c : Bytes) :
    LengthDelimited.readLength (lengthField len ++ c) = len := by
  rw [readLength_eq_deserialize, lengthField_eq_serialize h, deserialize_serialize,
    BitVec.toNat_ofNat, Nat.mod_eq_of_lt h]

theorem readLength_append {b : Bytes} (hb : lengthFieldSize ≤ b.length) (c : Bytes) :
    LengthDelimited.readLength (b ++ c) = LengthDelimited.readLength b := by
  rw [readLength_eq_deserialize, readLength_eq_deserialize, deserialize_append (n := 4) hb]

namespace LengthDelimited

/-- A complete message at the front of the buffer is found. -/
theorem decode_encode {src : Bytes} (h : src.length < 2 ^ 32) (c : Bytes) :
    decode (encode src ++ c) = src := by
  have hread : readLength (encode src ++ c) = src.length := by
    rw [encode, List.append_assoc, readLength_lengthField h]
  rw [decode, if_neg (by simp; omega), hread, if_pos (by simp; omega), encode, List.append_assoc,
    List.drop_left' (length_lengthField _), List.take_left' rfl]

/-- An incomplete message is left alone. -/
theorem decode_of_lt {src b c rest : Bytes} (h : src.length < 2 ^ 32)
    (hb : b ++ c = encode src ++ rest) (hlt : b.length < (encode src).length) :
    decode b = [] := by
  rw [decode]
  split
  · rfl
  · next hlen =>
      have hread : readLength b = src.length := by
        rw [← readLength_append (by omega) c, hb, encode, List.append_assoc,
          readLength_lengthField h]
      rw [length_encode] at hlt
      rw [if_neg (by omega)]

/-- A payload that was found is not revised when more bytes arrive. -/
theorem decode_append {b : Bytes} (h : decode b ≠ []) (c : Bytes) :
    decode (b ++ c) = decode b := by
  unfold decode at h ⊢
  split at h
  · exact absurd rfl h
  · next hlen =>
      split at h
      · next hfit =>
          have hb : lengthFieldSize ≤ b.length := by omega
          rw [readLength_append hb, if_neg (by simp; omega), if_pos (by simp; omega),
            if_neg hlen, if_pos hfit, List.drop_append_of_le_length hb,
            List.take_append_of_le_length (by simp; omega)]
      · exact absurd rfl h

/-- A payload that was found lies inside the buffer. -/
theorem length_decode_le {b : Bytes} (h : decode b ≠ []) :
    lengthFieldSize + (decode b).length ≤ b.length := by
  unfold decode at h ⊢
  split at h
  · exact absurd rfl h
  · next hlen =>
      split at h
      · next hfit =>
          rw [if_neg hlen, if_pos hfit, List.length_take, List.length_drop]
          omega
      · exact absurd rfl h

theorem readLength_lt (b : Bytes) : readLength b < 2 ^ 32 := by
  rw [readLength_eq_deserialize]
  exact BitVec.isLt _

/-- A payload behind its length field is what `encode` writes. -/
theorem encode_decode {b : Bytes} (h : decode b ≠ []) :
    b = encode (decode b) ++ b.drop (lengthFieldSize + (decode b).length) := by
  have hfit : lengthFieldSize ≤ b.length ∧ readLength b + lengthFieldSize ≤ b.length ∧
      decode b = (b.drop lengthFieldSize).take (readLength b) := by
    unfold decode at h ⊢
    split at h
    · exact absurd rfl h
    · next hlen =>
        split at h
        · next hfit => exact ⟨by omega, hfit, by rw [if_neg hlen, if_pos hfit]⟩
        · exact absurd rfl h
  obtain ⟨hfield, hfit, hd⟩ := hfit
  have hlen : (decode b).length = readLength b := by
    rw [hd, List.length_take, List.length_drop]
    omega
  -- the field is the serialized length
  have hser : serialize (n := 4) (BitVec.ofNat 32 (readLength b)) = b.take lengthFieldSize := by
    rw [readLength_eq_deserialize, BitVec.ofNat_toNat, BitVec.setWidth_eq]
    exact serialize_deserialize_take (n := 4) hfield
  rw [encode_eq_serialize (hlen ▸ readLength_lt b), hlen, hser, hd, ← List.drop_drop,
    List.append_assoc, List.take_append_drop, List.take_append_drop]

theorem length_decode_lt (b : Bytes) : (decode b).length < 2 ^ 32 := by
  unfold decode
  split
  · decide
  · split
    · exact lt_of_le_of_lt (List.length_take_le _ _) (readLength_lt b)
    · decide

end LengthDelimited

end Play
