/-
Play/Nonces.lean

The keys and nonces that the cipher is used with.

Two objects of the secure protocol exchange bytes; every member function of
either of them is a step of its own, so the calls of the two sides interleave
in any order, and bytes arrive cut anywhere.  Each side keeps a record of the
cipher calls it made: the frame, the key and the nonce.

A side that is open has used, for its n-th encrypted frame, the key of its
direction and the nonce that its peer drew, incremented n times.  The counter
has 64 bits, so up to 2⁶⁴ frames these are different, and the two directions
have different keys (`no_keystream_reuse`).  The peer decodes the frames in
the order in which they were encoded and counts the same way: its record is a
prefix of the other one.
-/
import Play.Channel
import Play.Wire
import Mathlib.Data.List.Nodup
import Mathlib.Data.Nat.Digits.Defs

namespace Play

/-! ### The counter -/

/-- The number that the bytes of a nonce spell, the first byte lowest. -/
def nonceValue (b : Bytes) : ℕ :=
  Nat.ofDigits 256 (b.map UInt8.toNat)

theorem nonceValue_incrementLoop (c : ℕ) (b : Bytes) :
    nonceValue (sodiumIncrementLoop c b) = (nonceValue b + c) % 256 ^ b.length := by
  induction b generalizing c with
  | nil => simp [nonceValue, sodiumIncrementLoop, Nat.mod_one]
  | cons x b ih =>
      have hlow : (UInt8.ofNat (c + x.toNat)).toNat = (c + x.toNat) % 256 := rfl
      have hcarry : (c + x.toNat) >>> 8 = (c + x.toNat) / 256 := Nat.shiftRight_eq_div_pow _ 8
      have hcons : nonceValue (x :: b) + c = c + x.toNat + 256 * nonceValue b := by
        rw [nonceValue, List.map_cons, Nat.ofDigits_cons, ← nonceValue]
        omega
      calc nonceValue (sodiumIncrementLoop c (x :: b))
          = (c + x.toNat) % 256
              + 256 * nonceValue (sodiumIncrementLoop ((c + x.toNat) / 256) b) := by
            rw [sodiumIncrementLoop, nonceValue, List.map_cons, Nat.ofDigits_cons, hlow, hcarry]
            rfl
        _ = (c + x.toNat) % 256
              + 256 * ((nonceValue b + (c + x.toNat) / 256) % 256 ^ b.length) := by rw [ih]
        _ = (c + x.toNat + 256 * nonceValue b) % (256 * 256 ^ b.length) := by
            rw [Nat.mod_mul, Nat.add_mul_mod_self_left, Nat.add_mul_div_left _ _ (by decide),
              Nat.add_comm (nonceValue b)]
        _ = (nonceValue (x :: b) + c) % 256 ^ (x :: b).length := by
            rw [hcons, List.length_cons, Nat.pow_succ']

/-- `sodium_increment` adds 1 modulo 2⁶⁴. -/
theorem nonceValue_increment (n : Nonce) :
    nonceValue (sodiumIncrement n).1 = (nonceValue n.1 + 1) % 2 ^ 64 := by
  rw [sodiumIncrement, nonceValue_incrementLoop, n.2]
  rfl

theorem nonceValue_iterate (n : Nonce) (i : ℕ) :
    nonceValue (sodiumIncrement^[i] n).1 % 2 ^ 64 = (nonceValue n.1 + i) % 2 ^ 64 := by
  induction i with
  | zero => rfl
  | succ i ih =>
      rw [Function.iterate_succ_apply', nonceValue_increment, Nat.mod_mod, ← Nat.add_assoc]
      omega

/-- Fewer than 2⁶⁴ increments do not come back to the same nonce. -/
theorem iterate_sodiumIncrement_inj {n : Nonce} {i j : ℕ} (hi : i < 2 ^ 64) (hj : j < 2 ^ 64)
    (h : sodiumIncrement^[i] n = sodiumIncrement^[j] n) : i = j := by
  have hvᵢ := nonceValue_iterate n i
  have hvⱼ := nonceValue_iterate n j
  rw [h] at hvᵢ
  omega

/-! ### The frames that reach the cipher -/

section Uses

variable {S : Sodium} {n : ℕ}

/-- One call of the cipher: the frame, as the sender sees it, and the key and
the nonce. -/
abbrev CipherUse (n : ℕ) := (BitVec (8 * n) × Bytes) × RxState

/-- The calls of the cipher for the frames `ms`, from the key and nonce `r`. -/
def uses : RxState → List (SecureFrame n) → List (CipherUse n)
  | _, [] => []
  | r, m :: ms =>
      (if m.2.2 then [((m.1, m.2.1), r)] else []) ++ uses (secureNext n r m) ms

theorem uses_snoc (hS : S.Lawful) (r : RxState) (ms : List (SecureFrame n)) (m : SecureFrame n) :
    uses r (ms ++ [m]) = uses r ms ++
      if m.2.2 then [((m.1, m.2.1), (secureCodec hS n).nextAll r ms)] else [] := by
  induction ms generalizing r with
  | nil => simp [uses, FrameCodec.nextAll]
  | cons m' ms ih =>
      rw [List.cons_append, uses, ih, uses, List.append_assoc]
      rfl

theorem uses_append (r : RxState) (ms ms' : List (SecureFrame n)) :
    uses r ms <+: uses r (ms ++ ms') := by
  induction ms generalizing r with
  | nil => exact List.nil_prefix
  | cons m ms ih =>
      rw [List.cons_append, uses, uses]
      exact (List.prefix_append_right_inj _).mpr (ih _)

/-- The nonces of consecutive calls are consecutive. -/
theorem map_snd_uses (k : Key) (n₀ : Nonce) (ms : List (SecureFrame n)) :
    (uses (k, n₀) ms).map Prod.snd
      = (List.range (uses (k, n₀) ms).length).map fun i => (k, sodiumIncrement^[i] n₀) := by
  induction ms generalizing n₀ with
  | nil => rfl
  | cons m ms ih =>
      rw [uses, secureNext]
      cases m.2.2 with
      | false => exact ih n₀
      | true =>
          rw [if_pos rfl, if_pos rfl, List.cons_append, List.nil_append, List.map_cons, ih,
            List.length_cons, List.range_succ_eq_map, List.map_cons, List.map_map]
          rfl

end Uses

/-! ### Two connected objects -/

/-- The call of the cipher that `encode` makes. -/
def encodeUse {n : ℕ} (p : SecureState) (m : SecureFrame n) : List (CipherUse n) :=
  if m.2.2 && p.isEstablished then [((m.1, m.2.1), p.tx)] else []

/-- The call of the cipher that a `decode` with the result `r` has made. -/
def decodeUse {n : ℕ} (p : SecureState) (src : Bytes) (r : DecodeResult (BitVec (8 * n))) :
    List (CipherUse n) :=
  if 0 < r.consumed ∧ deserializeBool (src.drop n) = true then [((r.topic, r.frame), p.rx)] else []

/-- `encode` gives nothing else to the cipher. -/
theorem secureEncode_congr {S S' : Sodium} {n : ℕ} {p : SecureState} {m : SecureFrame n}
    (h : ∀ u ∈ encodeUse p m, ∀ b, S.chacha20Xor b u.2.2 u.2.1 = S'.chacha20Xor b u.2.2 u.2.1) :
    secureEncode S n p m.1 m.2.1 m.2.2 = secureEncode S' n p m.1 m.2.1 m.2.2 := by
  unfold secureEncode
  split
  · rfl
  split
  · rfl
  next hopen =>
  split
  · next henc =>
    cases hcs : p.cipherHandshake with
    | none => rfl
    | some hs =>
        have huse : encodeUse p m = [((m.1, m.2.1), (hs.txKey, hs.txNonce))] := by
          simp_all [encodeUse, SecureState.tx]
        have hsame := h _ (by rw [huse]; exact List.mem_singleton_self _) m.2.1
        simp only [SodiumHandshake.cipherEncode, hsame]
  · rfl

/-- One side: its object, the bytes it ever gave to the socket, its receive
buffer, how many bytes of its peer have arrived, and the record of its calls of
the cipher. -/
structure Peer (n : ℕ) where
  protocol : SecureState
  out : Bytes := []
  recvBuf : Bytes := []
  arrived : ℕ := 0
  encodes : List (CipherUse n) := []
  decodes : List (CipherUse n) := []

namespace Peer

variable (S : Sodium) {n : ℕ}

/-- `closed`. -/
def close (x : Peer n) : Peer n :=
  { x with protocol := { x.protocol with closed := true } }

/-- `accepted` or `connected`. -/
def begin (x : Peer n) (X : Bool) : Peer n :=
  let r := secureBegin S x.protocol X
  { x with protocol := r.1, out := x.out ++ r.2 }

/-- `handshake` on the receive buffer.  A session closes after an exception. -/
def handshake (y : Peer n) : Peer n :=
  match secureHandshake S y.protocol y.recvBuf with
  | (p, .error _) => { y with protocol := p }.close
  | (p, .ok (used, resp)) =>
      { y with protocol := p, recvBuf := y.recvBuf.drop used, out := y.out ++ resp }

/-- `decode` on the receive buffer. -/
def decode (y : Peer n) : Peer n :=
  match secureDecode S n y.protocol y.recvBuf with
  | (p, .error _) => { y with protocol := p }.close
  | (p, .ok r) =>
      { y with
        protocol := p
        recvBuf := r.src.drop r.consumed
        decodes := y.decodes ++ decodeUse y.protocol y.recvBuf r }

/-- `encode` of a frame that `session::send` lets through. -/
def send (x : Peer n) (m : ValidFrame n) : Peer n :=
  let x' := { x with encodes := x.encodes ++ encodeUse x.protocol m.1 }
  match secureEncode S n x.protocol m.1.1 m.1.2.1 m.1.2.2 with
  | (p, .error _) => { x' with protocol := p }.close
  | (p, .ok bytes) => { x' with protocol := p, out := x.out ++ bytes }

end Peer

/-- The two sides, known by their roles. -/
abbrev Pair (n : ℕ) := Bool → Peer n

namespace Pair

variable {n : ℕ}

/-- The steps: one call of a member, or bytes that arrive. -/
inductive Step (n : ℕ)
  | begin (X : Bool)
  | arrive (Y : Bool) (k : ℕ)
  | handshake (Y : Bool)
  | decode (Y : Bool)
  | send (X : Bool) (m : ValidFrame n)
  | close (X : Bool)

/-- Two objects that were just made. -/
def new (parties : Bool → Party) : Pair n := fun X =>
  { protocol := { handle := (parties X).handle, entropy := (parties X).draws } }

/-- The bytes on their way to `Y`. -/
def pipe (l : Pair n) (Y : Bool) : Bytes :=
  (l (!Y)).out.drop (l Y).arrived

/-- `handshake` is called until the object is established, and `decode` from
then on. -/
def step (S : Sodium) (l : Pair n) : Step n → Option (Pair n)
  | .begin X =>
      if (l X).protocol.cipherHandshake.isNone then
        some (Function.update l X ((l X).begin S X))
      else none
  | .arrive Y k =>
      if k ≤ (l.pipe Y).length then
        some (Function.update l Y
          { l Y with recvBuf := (l Y).recvBuf ++ (l.pipe Y).take k, arrived := (l Y).arrived + k })
      else none
  | .handshake Y =>
      if !(l Y).protocol.closed && !(l Y).protocol.isEstablished then
        some (Function.update l Y ((l Y).handshake S))
      else none
  | .decode Y =>
      if (l Y).protocol.isEstablished then some (Function.update l Y ((l Y).decode S)) else none
  | .send X m => some (Function.update l X ((l X).send S m))
  | .close X => some (Function.update l X (l X).close)

/-! ### Where a side stands -/

open Party

section Stands

variable {S : Sodium} (parties : Bool → Party) (hS : S.Lawful)

/-- The stages of the side `X`: its object, the bytes it has sent, the bytes of
its peer that it has taken from the buffer, the frames it has sent and those it
has decoded. -/
inductive Stands (X : Bool) (p : SecureState) (out took : Bytes) (ms done : List (SecureFrame n)) :
    Prop
  | idle (hp : p = { handle := (parties X).handle, entropy := (parties X).draws })
      (hout : out = []) (htook : took = []) (hms : ms = []) (hdone : done = [])
  | waitKey (c : Bool)
      (hp : p = { stateOf parties X (waitKeyHs S parties X) with closed := c })
      (hout : out = keyMessage S parties X) (htook : took = []) (hms : ms = []) (hdone : done = [])
  | waitNonce (c : Bool)
      (hp : p = { stateOf parties X (waitNonceHs S parties X) with closed := c })
      (hout : out = keyMessage S parties X ++ nonceMessage S parties X)
      (htook : took = keyMessage S parties (!X)) (hms : ms = []) (hdone : done = [])
  | opened (c : Bool)
      (hp : p = { stateOf parties X (openHs S parties X
        ((secureCodec hS n).nextAll (rx₀ S parties X) done).2
        ((secureCodec hS n).nextAll (rx₀ S parties (!X)) ms).2) with closed := c })
      (hout : out = stream n parties hS X ms) (htook : took = stream n parties hS (!X) done)

/-- What there is to know of a side besides its state: the frames it has sent
and decoded, and the bytes it has taken. -/
structure View (n : ℕ) where
  ms : List (SecureFrame n) := []
  done : List (SecureFrame n) := []
  took : Bytes := []

/-- A side by itself. -/
structure Holds (X : Bool) (x : Peer n) (v : View n) : Prop where
  stands : Stands parties hS X x.protocol x.out v.took v.ms v.done
  encodes : x.encodes = uses (rx₀ S parties (!X)) v.ms
  decodes : x.decodes = uses (rx₀ S parties X) v.done
  valid : ∀ m ∈ v.ms, (secureCodec hS n).Valid m

/-- A side and the stream `out` and the frames `ms` of its peer. -/
structure Hears (y : Peer n) (v : View n) (out : Bytes) (ms : List (SecureFrame n)) : Prop where
  read : v.took ++ y.recvBuf <+: out
  arrived : (v.took ++ y.recvBuf).length = y.arrived
  done : v.done <+: ms

/-- Both sides and both directions. -/
def Inv (l : Pair n) (v : Bool → View n) : Prop :=
  ∀ X, Holds parties hS X (l X) (v X) ∧ Hears (l X) (v X) (l (!X)).out (v (!X)).ms

end Stands

section Steps

variable {S : Sodium} {parties : Bool → Party} {hS : S.Lawful} {X : Bool}
variable {l l' : Pair n} {v : Bool → View n} {x : Peer n} {w : View n}

theorem inv_new : Inv parties hS (new parties : Pair n) fun _ => {} := by
  intro X
  refine ⟨⟨.idle rfl rfl rfl rfl rfl, rfl, rfl, by simp⟩, ?_⟩
  exact ⟨List.nil_prefix, rfl, List.nil_prefix⟩

/-- **Step rule**: one side moves, and its stream and its frames only grow. -/
theorem Inv.update (h : Inv parties hS l v) (hx : Holds parties hS X x w)
    (hhears : Hears x w (l (!X)).out (v (!X)).ms) (hout : (l X).out <+: x.out)
    (hms : (v X).ms <+: w.ms) :
    Inv parties hS (Function.update l X x) (Function.update v X w) := by
  have hne : (!X) ≠ X := Bool.not_ne_self X
  refine Link.forall_side (X := X) ?_ ?_
  · simp only [Function.update_self, Function.update_of_ne hne]
    exact ⟨hx, hhears⟩
  · obtain ⟨hother, hread⟩ := h (!X)
    rw [Bool.not_not] at hread
    simp only [Function.update_self, Function.update_of_ne hne, Bool.not_not]
    exact ⟨hother, ⟨hread.read.trans hout, hread.arrived, hread.done.trans hms⟩⟩

/-- An honest stream starts with the two handshake messages. -/
theorem Stands.out_prefix {p : SecureState} {out took : Bytes} {ms done : List (SecureFrame n)}
    (h : Stands parties hS X p out took ms done) :
    ∃ rest, out <+: keyMessage S parties X ++ (nonceMessage S parties X ++ rest) := by
  cases h with
  | idle hp hout =>
      rw [hout]
      exact ⟨[], List.nil_prefix⟩
  | waitKey c hp hout =>
      rw [hout]
      exact ⟨[], List.prefix_append _ _⟩
  | waitNonce c hp hout =>
      rw [hout]
      exact ⟨[], by rw [List.append_nil]⟩
  | opened c hp hout =>
      rw [hout]
      exact ⟨_, List.prefix_rfl⟩

/-- From the second handshake message on, the stream is determined by the
frames. -/
theorem Stands.out_eq {p : SecureState} {out took : Bytes} {ms done : List (SecureFrame n)}
    (h : Stands parties hS X p out took ms done) (hlen : 98 ≤ out.length) :
    out = stream n parties hS X ms := by
  cases h with
  | idle hp hout =>
      rw [hout] at hlen
      cases hlen
  | waitKey c hp hout =>
      rw [hout, length_keyMessage] at hlen
      omega
  | waitNonce c hp hout htook hms =>
      rw [hout, hms, stream_nil]
  | opened c hp hout => exact hout

variable {out : Bytes} {ms : List (SecureFrame n)}

variable (parties hS) in
/-- The side `X` goes from `x` to `x'`, as the step rule wants it. -/
def Moves (X : Bool) (x : Peer n) (w : View n) (out : Bytes) (ms : List (SecureFrame n))
    (x' : Peer n) : Prop :=
  ∃ w', Holds parties hS X x' w' ∧ Hears x' w' out ms ∧ x.out <+: x'.out ∧ w.ms <+: w'.ms

theorem moves_self (hx : Holds parties hS X x w) (hh : Hears x w out ms) :
    Moves parties hS X x w out ms x :=
  ⟨w, hx, hh, List.prefix_rfl, List.prefix_rfl⟩

theorem Holds.begin (hx : Holds parties hS X x w) (hh : Hears x w out ms)
    (hnone : x.protocol.cipherHandshake.isNone = true) :
    Moves parties hS X x w out ms (x.begin S X) := by
  cases hx.stands with
  | idle hp hout htook hms hdone =>
      refine ⟨w, ⟨?_, hx.encodes, hx.decodes, hx.valid⟩, ⟨hh.read, hh.arrived, hh.done⟩, ?_,
        List.prefix_rfl⟩
      · rw [Peer.begin, hp, secureBegin_eq, hout]
        exact .waitKey false rfl rfl htook hms hdone
      · rw [hout]
        exact List.nil_prefix
  | waitKey c hp =>
      rw [hp] at hnone
      cases hnone
  | waitNonce c hp =>
      rw [hp] at hnone
      cases hnone
  | opened c hp =>
      rw [hp] at hnone
      cases hnone

theorem Stands.close {p : SecureState} {out took : Bytes} {ms done : List (SecureFrame n)}
    (h : Stands parties hS X p out took ms done) :
    Stands parties hS X { p with closed := true } out took ms done := by
  cases h with
  | idle hp hout htook hms hdone =>
      rw [hp]
      exact .idle rfl hout htook hms hdone
  | waitKey c hp hout htook hms hdone =>
      rw [hp]
      exact .waitKey true rfl hout htook hms hdone
  | waitNonce c hp hout htook hms hdone =>
      rw [hp]
      exact .waitNonce true rfl hout htook hms hdone
  | opened c hp hout htook =>
      rw [hp]
      exact .opened true rfl hout htook

theorem Holds.close (hx : Holds parties hS X x w) (hh : Hears x w out ms) :
    Moves parties hS X x w out ms x.close :=
  ⟨w, ⟨hx.stands.close, hx.encodes, hx.decodes, hx.valid⟩, ⟨hh.read, hh.arrived, hh.done⟩,
    List.prefix_rfl, List.prefix_rfl⟩

theorem Holds.arrive (hx : Holds parties hS X x w) (hh : Hears x w out ms) {k : ℕ}
    (hk : k ≤ (out.drop x.arrived).length) :
    Moves parties hS X x w out ms
      { x with recvBuf := x.recvBuf ++ (out.drop x.arrived).take k, arrived := x.arrived + k } := by
  refine ⟨w, ⟨hx.stands, hx.encodes, hx.decodes, hx.valid⟩, ⟨?_, ?_, hh.done⟩, List.prefix_rfl,
    List.prefix_rfl⟩
  · have htake : w.took ++ x.recvBuf = out.take x.arrived := by
      rw [← hh.arrived]
      exact List.prefix_iff_eq_take.mp hh.read
    rw [← List.append_assoc, htake, ← List.take_add]
    exact List.take_prefix _ _
  · rw [← List.append_assoc, List.length_append, hh.arrived, List.length_take,
      Nat.min_eq_left hk]

/-- The handshake does nothing as long as its message is not whole. -/
theorem handshake_of_none (h : LengthDelimited.decode x.recvBuf = []) : x.handshake S = x := by
  rw [Peer.handshake, secureHandshake_none h]
  simp

/-- A cut of an honest stream is short of the message in front, or begins with
it. -/
theorem prefix_cases {b src rest : Bytes} (hsrc : src.length < 2 ^ 32)
    (hb : b <+: LengthDelimited.encode src ++ rest) :
    LengthDelimited.decode b = [] ∨ ∃ c, b = LengthDelimited.encode src ++ c := by
  by_cases hlt : b.length < (LengthDelimited.encode src).length
  · exact .inl ( decode_of_prefix hsrc hb hlt)
  · obtain ⟨c, hc⟩ := List.prefix_of_prefix_length_le (List.prefix_append _ rest) hb
      (Nat.le_of_not_lt hlt)
    exact .inr ⟨c, hc.symm⟩

/-- The key of the peer is taken from the buffer and answered with the nonce. -/
theorem handshake_key (hS : S.Lawful)
    (hp : x.protocol = stateOf parties X (waitKeyHs S parties X)) {b : Bytes}
    (hb : x.recvBuf = keyMessage S parties (!X) ++ b) :
    x.handshake S = { x with
      protocol := stateOf parties X (waitNonceHs S parties X)
      recvBuf := b
      out := x.out ++ nonceMessage S parties X } := by
  have hcall : secureHandshake S x.protocol x.recvBuf
      = (stateOf parties X (waitNonceHs S parties X), .ok (37, nonceMessage S parties X)) := by
    rw [hb, hp]
    exact secureHandshake_key hS parties X b
  rw [Peer.handshake, hcall]
  dsimp only
  rw [hb, List.drop_left' length_keyMessage]

/-- The nonce of the peer is taken, and the object is established. -/
theorem handshake_nonce (hS : S.Lawful)
    (hp : x.protocol = stateOf parties X (waitNonceHs S parties X)) {b : Bytes}
    (hb : x.recvBuf = nonceMessage S parties (!X) ++ b) :
    x.handshake S = { x with
      protocol := stateOf parties X (openHs S parties X (parties X).draws.nonce
        (parties (!X)).draws.nonce)
      recvBuf := b } := by
  have hcall : secureHandshake S x.protocol x.recvBuf
      = (stateOf parties X (openHs S parties X (parties X).draws.nonce
        (parties (!X)).draws.nonce), .ok (61, [])) := by
    rw [hb, hp]
    exact secureHandshake_nonce hS parties X b
  rw [Peer.handshake, hcall]
  dsimp only
  rw [hb, List.drop_left' length_nonceMessage, List.append_nil]

theorem Holds.handshake_waitKey (hx : Holds parties hS X x w) (hh : Hears x w out ms)
    (hp : x.protocol = stateOf parties X (waitKeyHs S parties X))
    (hout : x.out = keyMessage S parties X) (htook : w.took = []) (hms : w.ms = [])
    (hdone : w.done = []) {rest : Bytes} (hread : x.recvBuf <+: keyMessage S parties (!X) ++ rest) :
    Moves parties hS X x w out ms (x.handshake S) := by
  have hsrc : (107 :: (pubKey S parties (!X)).1).length < 2 ^ 32 := by
    rw [List.length_cons, (pubKey S parties (!X)).2]
    decide
  obtain hnone | ⟨b, hb⟩ := prefix_cases hsrc hread
  · rw [handshake_of_none hnone]
    exact moves_self hx hh
  · change x.recvBuf = keyMessage S parties (!X) ++ b at hb
    have htook' : keyMessage S parties (!X) ++ b = w.took ++ x.recvBuf := by
      rw [htook, hb, List.nil_append]
    rw [handshake_key hS hp hb]
    refine ⟨{ w with took := keyMessage S parties (!X) },
      ⟨.waitNonce false rfl (by rw [hout]) rfl hms hdone, hx.encodes, hx.decodes, hx.valid⟩,
      ⟨?_, ?_, hh.done⟩, List.prefix_append _ _, List.prefix_rfl⟩
    · exact htook' ▸ hh.read
    · exact htook' ▸ hh.arrived

theorem Holds.handshake_waitNonce (hx : Holds parties hS X x w) (hh : Hears x w out ms)
    (hp : x.protocol = stateOf parties X (waitNonceHs S parties X))
    (hout : x.out = keyMessage S parties X ++ nonceMessage S parties X)
    (htook : w.took = keyMessage S parties (!X)) (hms : w.ms = []) (hdone : w.done = [])
    {rest : Bytes} (hread : x.recvBuf <+: nonceMessage S parties (!X) ++ rest) :
    Moves parties hS X x w out ms (x.handshake S) := by
  have hsrc : (110 :: S.boxSeal (parties (!X)).draws.sealed (parties (!X)).draws.nonce.1
      (pubKey S parties (!!X))).length < 2 ^ 32 := by
    rw [List.length_cons, S.length_boxSeal, (parties (!X)).draws.nonce.2]
    decide
  obtain hnone | ⟨b, hb⟩ := prefix_cases hsrc hread
  · rw [handshake_of_none hnone]
    exact moves_self hx hh
  · change x.recvBuf = nonceMessage S parties (!X) ++ b at hb
    have htook' : stream n parties hS (!X) [] ++ b = w.took ++ x.recvBuf := by
      rw [htook, hb, stream_nil, List.append_assoc]
    rw [handshake_nonce hS hp hb]
    refine ⟨{ w with took := stream n parties hS (!X) [] },
      ⟨?_, hx.encodes, hx.decodes, hx.valid⟩, ⟨?_, ?_, hh.done⟩, List.prefix_rfl,
      List.prefix_rfl⟩
    · refine .opened false ?_ ?_ (by rw [hdone])
      · rw [hdone, hms]
        rfl
      · rw [hout, hms, stream_nil]
    · exact htook' ▸ hh.read
    · exact htook' ▸ hh.arrived

theorem Holds.handshake (hx : Holds parties hS X x w) (hh : Hears x w out ms)
    (hclosed : x.protocol.closed = false) (hnot : x.protocol.isEstablished = false)
    (hpeer : ∃ rest, out <+: keyMessage S parties (!X) ++ (nonceMessage S parties (!X) ++ rest)) :
    Moves parties hS X x w out ms (x.handshake S) := by
  obtain ⟨rest, hpeer⟩ := hpeer
  have hread := hh.read.trans hpeer
  cases hx.stands with
  | idle hp =>
      rw [hp] at hclosed
      cases hclosed
  | waitKey c hp hout htook hms hdone =>
      obtain rfl : c = false := by
        rw [hp] at hclosed
        exact hclosed
      rw [htook, List.nil_append] at hread
      exact hx.handshake_waitKey hh hp hout htook hms hdone hread
  | waitNonce c hp hout htook hms hdone =>
      obtain rfl : c = false := by
        rw [hp] at hclosed
        exact hclosed
      rw [htook, List.prefix_append_right_inj] at hread
      exact hx.handshake_waitNonce hh hp hout htook hms hdone hread
  | opened c hp =>
      rw [hp] at hclosed hnot
      cases hclosed
      cases hnot

theorem stream_append (Y : Bool) (fs gs : List (SecureFrame n)) :
    stream n parties hS Y (fs ++ gs) = stream n parties hS Y fs ++
      (secureCodec hS n).encodeAll ((secureCodec hS n).nextAll (rx₀ S parties (!Y)) fs) gs := by
  rw [stream, stream, FrameCodec.encodeAll_append, List.append_assoc, List.append_assoc]

/-- The state that the frames `fs` have led to, with its key. -/
theorem nextAll_rx₀ (Y : Bool) (fs : List (SecureFrame n)) :
    (rxKey S parties Y, ((secureCodec hS n).nextAll (rx₀ S parties Y) fs).2)
      = (secureCodec hS n).nextAll (rx₀ S parties Y) fs := by
  have hkey : ((secureCodec hS n).nextAll (rx₀ S parties Y) fs).1 = rxKey S parties Y :=
    nextAll_fst (rx₀ S parties Y) fs
  exact Prod.ext hkey.symm rfl

theorem Stands.of_isEstablished {p : SecureState} {out took : Bytes}
    {ms done : List (SecureFrame n)} (h : Stands parties hS X p out took ms done)
    (hest : p.isEstablished = true) :
    p = stateOf parties X (openHs S parties X
        ((secureCodec hS n).nextAll (rx₀ S parties X) done).2
        ((secureCodec hS n).nextAll (rx₀ S parties (!X)) ms).2) ∧
      out = stream n parties hS X ms ∧ took = stream n parties hS (!X) done := by
  cases h with
  | idle hp =>
      rw [hp] at hest
      cases hest
  | waitKey c hp =>
      rw [hp, SecureState.isEstablished, Bool.and_eq_true] at hest
      cases hest.2
  | waitNonce c hp =>
      rw [hp, SecureState.isEstablished, Bool.and_eq_true] at hest
      cases hest.2
  | opened c hp hout htook =>
      obtain rfl : c = false := by
        rw [hp, SecureState.isEstablished, Bool.and_eq_true, Bool.not_eq_true'] at hest
        exact hest.1
      exact ⟨hp, hout, htook⟩

theorem Holds.send (hx : Holds parties hS X x w) (hh : Hears x w out ms) (m : ValidFrame n) :
    Moves parties hS X x w out ms (x.send S m) := by
  cases hest : x.protocol.isEstablished with
  | false =>
      have hrefuse : secureEncode S n x.protocol m.1.1 m.1.2.1 m.1.2.2 = (x.protocol, .ok []) :=
        (secureProtocol_encodesBy hS n).refuse _ _ _ hest
      have hstep : x.send S m = x := by
        simp [Peer.send, hrefuse, encodeUse, hest]
      rw [hstep]
      exact moves_self hx hh
  | true =>
      obtain ⟨hp, hout, htook⟩ := hx.stands.of_isEstablished hest
      have hcall := secureEncode_open hS parties X
        ((secureCodec hS n).nextAll (rx₀ S parties X) w.done).2
        ((secureCodec hS n).nextAll (rx₀ S parties (!X)) w.ms).2 m.1
      have htx : x.protocol.tx = (secureCodec hS n).nextAll (rx₀ S parties (!X)) w.ms := by
        rw [hp]
        exact nextAll_rx₀ (!X) w.ms
      rw [← hp, nextAll_rx₀] at hcall
      have hstep : x.send S m = { x with
          protocol := stateOf parties X (openHs S parties X
            ((secureCodec hS n).nextAll (rx₀ S parties X) w.done).2
            ((secureCodec hS n).nextAll (rx₀ S parties (!X)) (w.ms ++ [m.1])).2)
          out := stream n parties hS X (w.ms ++ [m.1])
          encodes := uses (rx₀ S parties (!X)) (w.ms ++ [m.1]) } := by
        rw [Peer.send, hcall, hout, hx.encodes, encodeUse, hest, Bool.and_true, htx,
          uses_snoc hS, stream_append, FrameCodec.nextAll_snoc]
        simp [FrameCodec.encodeAll, secureCodec]
      rw [hstep]
      refine ⟨{ w with ms := w.ms ++ [m.1] }, ⟨.opened false rfl rfl htook, rfl, hx.decodes, ?_⟩,
        ⟨hh.read, hh.arrived, hh.done⟩, ?_, List.prefix_append _ _⟩
      · intro m' hm'
        rcases List.mem_append.mp hm' with hm' | hm'
        · exact hx.valid m' hm'
        · rw [List.mem_singleton.mp hm']
          exact m.2
      · rw [hout, stream_append]
        exact List.prefix_append _ _

/-- What is in the buffer of an established object continues the frames that it
has decoded. -/
theorem Hears.recvBuf_continues {todo : List (SecureFrame n)} (hh : Hears x w out (w.done ++ todo))
    (htook : w.took = stream n parties hS (!X) w.done)
    (hout : 98 ≤ out.length → out = stream n parties hS (!X) (w.done ++ todo)) :
    x.recvBuf <+: (secureCodec hS n).encodeAll
      ((secureCodec hS n).nextAll (rx₀ S parties X) w.done) todo := by
  have hlong : 98 ≤ out.length := by
    have hstream : 98 ≤ (stream n parties hS (!X) w.done).length := length_stream w.done
    rw [← htook] at hstream
    exact hstream.trans
      ((List.prefix_append w.took x.recvBuf).length_le.trans hh.read.length_le)
  have hread := hh.read
  rw [htook, hout hlong, stream_append, List.prefix_append_right_inj, Bool.not_not] at hread
  exact hread

theorem Holds.decode (hx : Holds parties hS X x w) (hh : Hears x w out ms)
    (hest : x.protocol.isEstablished = true)
    (hout : 98 ≤ out.length → out = stream n parties hS (!X) ms)
    (hvalid : ∀ m ∈ ms, (secureCodec hS n).Valid m) :
    Moves parties hS X x w out ms (x.decode S) := by
  obtain ⟨hp, hown, htook⟩ := hx.stands.of_isEstablished hest
  obtain ⟨todo, rfl⟩ := hh.done
  have hbuf := hh.recvBuf_continues htook hout
  have hrx : x.protocol.rx = (secureCodec hS n).nextAll (rx₀ S parties X) w.done := by
    rw [hp]
    exact nextAll_rx₀ X w.done
  obtain ⟨rn, res, hok⟩ := secureDecode_open (n := n) hS parties X
    ((secureCodec hS n).nextAll (rx₀ S parties X) w.done).2
    ((secureCodec hS n).nextAll (rx₀ S parties (!X)) w.ms).2 x.recvBuf
  rw [← hp] at hok
  have hcs : ∃ hs, x.protocol.cipherHandshake = some hs := ⟨_, by rw [hp]; rfl⟩
  obtain ⟨hs, hcs⟩ := hcs
  obtain ⟨-, hmore⟩ | ⟨-, e, hfail⟩ | ⟨k, f, p', src, hframe, hdec, hsrc⟩ :=
    secureDecode_cases (S := S) (n := n) hcs x.recvBuf
  · have hstep : x.decode S = x := by
      rw [Peer.decode, hmore]
      simp [decodeUse]
    rw [hstep]
    exact moves_self hx hh
  · rw [hok] at hfail
    cases (Prod.mk.inj hfail).2
  · -- The next frame: the one that was encoded with the same nonce.
    rw [hrx] at hframe
    obtain ⟨m, rest, c, rfl, hb, rfl, hnext, rfl⟩ := FrameCodec.frame_of_prefix (secureCodec hS n)
      (fun m hm => hvalid m (List.mem_append_right _ hm)) hbuf hframe
    have hflag : deserializeBool (x.recvBuf.drop n) = m.2.2 := by
      rw [hb, secureCodec, List.append_assoc]
      exact deserializeBool_header n _ _ _ _
    have hpos : 0 < ((secureCodec hS n).encode ((secureCodec hS n).nextAll (rx₀ S parties X) w.done)
        m).length := ((secureCodec hS n).frame_bound hframe).1
    have hp' : p' = stateOf parties X (openHs S parties X
        ((secureCodec hS n).nextAll (rx₀ S parties X) (w.done ++ [m])).2
        ((secureCodec hS n).nextAll (rx₀ S parties (!X)) w.ms).2) := by
      have hsame := (Prod.mk.inj (hok.symm.trans hdec)).1
      rw [FrameCodec.nextAll_snoc, ← hnext, ← hsame]
      rfl
    have hstep : x.decode S = { x with
        protocol := p'
        recvBuf := c
        decodes := uses (rx₀ S parties X) (w.done ++ [m]) } := by
      rw [Peer.decode, hdec]
      dsimp only
      rw [hsrc, decodeUse, hrx, hflag, uses_snoc hS, hx.decodes]
      simp only [hpos, true_and]
      rw [hb, List.drop_left]
      rfl
    have htook' : stream n parties hS (!X) (w.done ++ [m]) ++ c = w.took ++ x.recvBuf := by
      rw [stream_append, htook, hb, Bool.not_not, FrameCodec.encodeAll, FrameCodec.encodeAll,
        List.append_nil, List.append_assoc]
    rw [hstep]
    refine ⟨{ w with done := w.done ++ [m], took := stream n parties hS (!X) (w.done ++ [m]) },
      ⟨.opened false hp' hown rfl, hx.encodes, rfl, hx.valid⟩, ⟨?_, ?_, ?_⟩, List.prefix_rfl,
      List.prefix_rfl⟩
    · exact htook' ▸ hh.read
    · exact htook' ▸ hh.arrived
    · exact ⟨rest, by simp⟩

theorem Inv.step (h : Inv parties hS l v) {a : Step n} (hstep : l.step S a = some l') :
    ∃ v', Inv parties hS l' v' := by
  have hmoves : ∀ (X : Bool) (x : Peer n),
      Moves parties hS X (l X) (v X) (l (!X)).out (v (!X)).ms x →
      ∃ v', Inv parties hS (Function.update l X x) v' := by
    rintro X x ⟨w, hx, hh, hout, hms⟩
    exact ⟨_, h.update hx hh hout hms⟩
  cases a with
  | begin X =>
      obtain ⟨hnone, hs⟩ := Option.ite_none_right_eq_some.mp hstep
      obtain rfl := Option.some.inj hs
      exact hmoves X _ ((h X).1.begin (h X).2 hnone)
  | arrive Y k =>
      obtain ⟨hk, hs⟩ := Option.ite_none_right_eq_some.mp hstep
      obtain rfl := Option.some.inj hs
      exact hmoves Y _ ((h Y).1.arrive (h Y).2 hk)
  | handshake Y =>
      obtain ⟨hguard, hs⟩ := Option.ite_none_right_eq_some.mp hstep
      obtain rfl := Option.some.inj hs
      rw [Bool.and_eq_true, Bool.not_eq_true', Bool.not_eq_true'] at hguard
      exact hmoves Y _ ((h Y).1.handshake (h Y).2 hguard.1 hguard.2 (h (!Y)).1.stands.out_prefix)
  | decode Y =>
      obtain ⟨hest, hs⟩ := Option.ite_none_right_eq_some.mp hstep
      obtain rfl := Option.some.inj hs
      exact hmoves Y _ ((h Y).1.decode (h Y).2 hest (h (!Y)).1.stands.out_eq (h (!Y)).1.valid)
  | send X m =>
      obtain rfl := Option.some.inj hstep
      exact hmoves X _ ((h X).1.send (h X).2 m)
  | close X =>
      obtain rfl := Option.some.inj hstep
      exact hmoves X _ ((h X).1.close (h X).2)

theorem Inv.of_run {ls : List (Step n)} (h : runSteps (Pair.step S) (new parties) ls = some l) :
    ∃ v, Inv parties hS l v :=
  runSteps_invariant (I := fun l => ∃ v, Inv parties hS l v)
    (fun hI hs => hI.elim fun _ hv => hv.step hs) ⟨_, inv_new⟩ h

/-- The nonces of one direction are different. -/
theorem nodup_uses (k : Key) (n₀ : Nonce) (fs : List (SecureFrame n))
    (hlt : (uses (k, n₀) fs).length < 2 ^ 64) : ((uses (k, n₀) fs).map Prod.snd).Nodup := by
  rw [map_snd_uses]
  refine List.Nodup.map_on (fun i hi j hj hij => ?_) List.nodup_range
  rw [List.mem_range] at hi hj
  exact iterate_sodiumIncrement_inj (hi.trans hlt) (hj.trans hlt) (Prod.mk.inj hij).2

theorem key_of_mem_uses {k : Key} {n₀ : Nonce} {fs : List (SecureFrame n)} {r : RxState}
    (h : r ∈ (uses (k, n₀) fs).map Prod.snd) : r.1 = k := by
  rw [map_snd_uses] at h
  obtain ⟨i, -, rfl⟩ := List.mem_map.mp h
  rfl

/-- **No keystream is reused.**  In every run of two connected objects no two
calls of the cipher that encode share both key and nonce, and the calls that
decode repeat those of the other side, one after the other. -/
theorem no_keystream_reuse (hS : S.Lawful) (hkeys : rxKey S parties true ≠ rxKey S parties false)
    {ls : List (Step n)} (hrun : runSteps (Pair.step S) (new parties) ls = some l)
    (hlt : ∀ X, (l X).encodes.length < 2 ^ 64) :
    (((l true).encodes ++ (l false).encodes).map Prod.snd).Nodup ∧
      ∀ X, (l (!X)).decodes <+: (l X).encodes := by
  obtain ⟨v, hv⟩ : ∃ v, Inv parties hS l v := Inv.of_run hrun
  refine ⟨?_, fun X => ?_⟩
  · have ht := hlt true
    have hf := hlt false
    rw [(hv true).1.encodes] at ht ⊢
    rw [(hv false).1.encodes] at hf ⊢
    rw [List.map_append]
    refine (nodup_uses _ _ _ ht).append (nodup_uses _ _ _ hf) ?_
    intro r hrt hrf
    exact hkeys ((key_of_mem_uses hrf).symm.trans (key_of_mem_uses hrt))
  · obtain ⟨rest, hrest⟩ := (hv (!X)).2.done
    rw [Bool.not_not] at hrest
    rw [(hv (!X)).1.decodes, (hv X).1.encodes, ← hrest]
    exact uses_append _ _ _

end Steps

/-- The handshake, then encrypted and plain frames in both directions. -/
def mixedSends : List (Step 2) :=
  [.begin true, .begin false, .arrive false 37, .handshake false, .arrive true 98,
    .handshake true, .handshake true, .send true ⟨(11, [1, 2, 3], true), by decide⟩,
    .arrive false 61, .handshake false, .send false ⟨(9, [6], true), by decide⟩,
    .send true ⟨(12, [4], false), by decide⟩, .send true ⟨(11, [5], true), by decide⟩,
    .arrive false 26, .decode false, .decode false, .decode false, .arrive true 8, .decode true]

theorem no_keystream_reuse_mixedSends :
    ∃ l : Pair 2, runSteps (Pair.step .recorded) (new Link.recordedParties) mixedSends = some l ∧
      (l true).encodes.length = 2 ∧ (l false).encodes.length = 1 ∧
      (l false).decodes = (l true).encodes ∧
      (((l true).encodes ++ (l false).encodes).map Prod.snd).Nodup ∧
      ∀ X, (l (!X)).decodes <+: (l X).encodes := by
  have hend : (runSteps (Pair.step .recorded) (new Link.recordedParties) mixedSends).map
      (fun l => ((l true).encodes.length, (l false).encodes.length, (l false).decodes.length))
      = some (2, 1, 2) := by
    decide +kernel
  obtain ⟨l, hrun, hl⟩ := Option.map_eq_some_iff.mp hend
  obtain ⟨ht, hrest⟩ := Prod.mk.inj hl
  obtain ⟨hf, hd⟩ := Prod.mk.inj hrest
  have hkeys : rxKey .recorded Link.recordedParties true
      ≠ rxKey .recorded Link.recordedParties false := by
    decide +kernel
  have hlt : ∀ X, (l X).encodes.length < 2 ^ 64 := by
    intro X
    cases X with
    | true => omega
    | false => omega
  obtain ⟨hnodup, hpre⟩ := no_keystream_reuse Sodium.recorded_lawful hkeys hrun hlt
  exact ⟨l, hrun, ht, hf, (hpre true).eq_of_length (hd.trans ht.symm), hnodup, hpre⟩

end Pair

end Play
