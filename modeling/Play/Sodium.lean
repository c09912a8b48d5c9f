/-
Play/Sodium.lean

The key and nonce exchange (`sodium_handshake`) and the stream cipher
(`sodium_cipher`) of the secure protocol.

libsodium itself is a parameter: `Sodium` has one field per function that
the code calls, with `none` for a non-zero result, and `Sodium.Lawful`
states what its documentation promises of them.  The random values that one
endpoint draws are its `Draws`; every theorem is about all of them.

`sodium_increment` is no parameter: it is the carry loop over the eight
bytes of the nonce.
-/
import Play.Serializer

namespace Play

/-! ### Fixed-size arrays -/

/-- `uint8_t[n]`. -/
abbrev Block (n : ℕ) := { b : Bytes // b.length = n }

namespace Block

variable {n : ℕ}

/-- An array nobody has written yet. -/
def zero (n : ℕ) : Block n :=
  ⟨List.replicate n 0, List.length_replicate⟩

/-- `memcpy` of the first `n` bytes of `src`, which has them. -/
def copy (src : Bytes) (h : n ≤ src.length) : Block n :=
  ⟨src.take n, by rw [List.length_take]; omega⟩

/-- Write `m` over the front of the array; `m` fits. -/
def overwrite (b : Block n) (m : Bytes) (h : m.length ≤ n) : Block n :=
  ⟨m ++ b.1.drop m.length, by rw [List.length_append, List.length_drop, b.2]; omega⟩

theorem overwrite_all (b m : Block n) (h : m.1.length ≤ n) : b.overwrite m.1 h = m := by
  refine Subtype.ext ?_
  show m.1 ++ b.1.drop m.1.length = m.1
  rw [List.drop_eq_nil_of_le (by rw [b.2, m.2]), List.append_nil]

end Block

/-- `crypto_stream_chacha20_KEYBYTES`. -/
def keySize : ℕ := 32

/-- `crypto_stream_chacha20_NONCEBYTES`. -/
def nonceSize : ℕ := 8

/-- `crypto_box_SEALBYTES`. -/
def sealBytes : ℕ := 48

abbrev Key := Block keySize

abbrev Nonce := Block nonceSize

/-! ### libsodium -/

/-- What the random number generator hands to one endpoint: a seed for the
key pair, the receive nonce, and a seed for the sealed box. -/
structure Draws where
  keypair : ℕ
  nonce : Nonce
  sealed : ℕ

/-- The libsodium functions that the code calls.  The sizes of what they
write are part of their interface. -/
structure Sodium where
  /-- `crypto_kx_keypair`: the public and the secret key. -/
  kxKeypair : ℕ → Key × Key
  /-- `crypto_kx_server_session_keys` of the own pair and the peer's public
  key: the receive and the send key. -/
  kxServerSessionKeys : Key → Key → Key → Option (Key × Key)
  /-- `crypto_kx_client_session_keys`, likewise. -/
  kxClientSessionKeys : Key → Key → Key → Option (Key × Key)
  /-- `crypto_box_seal` of a message for a public key. -/
  boxSeal : ℕ → Bytes → Key → Bytes
  /-- `crypto_box_seal_open` with a key pair. -/
  boxSealOpen : Bytes → Key → Key → Option Bytes
  /-- `crypto_stream_chacha20_xor` under a nonce and a key. -/
  chacha20Xor : Bytes → Nonce → Key → Option Bytes
  length_boxSeal : ∀ e m pk, (boxSeal e m pk).length = m.length + sealBytes
  length_boxSealOpen : ∀ {c pk sk m}, boxSealOpen c pk sk = some m → c.length = m.length + sealBytes
  length_chacha20Xor : ∀ {m n k c}, chacha20Xor m n k = some c → c.length = m.length

/-- The documented behaviour of libsodium that the protocol relies on. -/
structure Sodium.Lawful (S : Sodium) : Prop where
  kx_swapped : ∀ s c, ∃ k₁ k₂,
    S.kxServerSessionKeys (S.kxKeypair s).1 (S.kxKeypair s).2 (S.kxKeypair c).1 = some (k₁, k₂) ∧
    S.kxClientSessionKeys (S.kxKeypair c).1 (S.kxKeypair c).2 (S.kxKeypair s).1 = some (k₂, k₁)
  boxSealOpen_boxSeal : ∀ e m s,
    S.boxSealOpen (S.boxSeal e m (S.kxKeypair s).1) (S.kxKeypair s).1 (S.kxKeypair s).2 = some m
  chacha20Xor_invol : ∀ m n k, ∃ c, S.chacha20Xor m n k = some c ∧ S.chacha20Xor c n k = some m

/-- The loop of `sodium_increment`: `c` is the carry into the next byte. -/
def sodiumIncrementLoop : ℕ → Bytes → Bytes
  | _, [] => []
  | c, b :: bs => UInt8.ofNat (c + b.toNat) :: sodiumIncrementLoop ((c + b.toNat) >>> 8) bs

theorem length_sodiumIncrementLoop (c : ℕ) (bs : Bytes) :
    (sodiumIncrementLoop c bs).length = bs.length := by
  induction bs generalizing c with
  | nil => rfl
  | cons b bs ih => simp [sodiumIncrementLoop, ih]

/-- `sodium_increment`. -/
def sodiumIncrement (n : Nonce) : Nonce :=
  ⟨sodiumIncrementLoop 1 n.1, by rw [length_sodiumIncrementLoop, n.2]⟩

/-! ### sodium_handshake -/

/-- How a call leaves other than by returning: with an exception, or with an
access outside the arrays, which has no meaning in the source. -/
inductive Fault
  | exception (what : String)
  | outOfBounds
  deriving DecidableEq

/-- `sodium_handshake`. -/
structure SodiumHandshake where
  handle : ℕ
  accepted : Bool
  keyReceived : Bool := false
  nonceReceived : Bool := false
  established : Bool := false
  pubKey : Key := .zero _
  secKey : Key := .zero _
  peerPubKey : Key := .zero _
  rxKey : Key := .zero _
  txKey : Key := .zero _
  rxNonce : Nonce := .zero _
  txNonce : Nonce := .zero _
  /-- The random values this object will draw. -/
  draws : Draws

namespace SodiumHandshake

variable (S : Sodium)

/-- `sodium_handshake::sync_key`: the byte `'k'` and the public key. -/
def syncKey (h : SodiumHandshake) : Bytes :=
  107 :: h.pubKey.1

/-- `sodium_handshake::sync_nonce`: the byte `'n'` and the receive nonce,
sealed for the peer. -/
def syncNonce (h : SodiumHandshake) : Bytes :=
  110 :: S.boxSeal h.draws.sealed h.rxNonce.1 h.peerPubKey

/-- `sodium_handshake::prepare`. -/
def prepare (h : SodiumHandshake) : SodiumHandshake × Bytes :=
  let h := { h with pubKey := (S.kxKeypair h.draws.keypair).1,
                    secKey := (S.kxKeypair h.draws.keypair).2 }
  (h, h.syncKey)

/-- `crypto_kx_server_session_keys` or `crypto_kx_client_session_keys`. -/
def sessionKeys (h : SodiumHandshake) : Option (Key × Key) :=
  if h.accepted then S.kxServerSessionKeys h.pubKey h.secKey h.peerPubKey
  else S.kxClientSessionKeys h.pubKey h.secKey h.peerPubKey

/-- `sodium_handshake::on_handshake` on one payload; the result is the number
of bytes used and the answer to send.  The `PLAY_CHECK`s on the size and on
the first byte only log. -/
def onHandshake (h : SodiumHandshake) (src : Bytes) :
    SodiumHandshake × Except Fault (ℕ × Bytes) :=
  if h.keyReceived then
    match S.boxSealOpen (src.drop 1) h.pubKey h.secKey with
    | none => (h, .error (.exception s!"handle: {h.handle}. failed to open nonce data"))
    | some m =>
        -- the opened message is written into the `nonceSize` bytes of `tx_nonce_`
        if hm : m.length ≤ nonceSize then
          ({ h with txNonce := h.txNonce.overwrite m hm,
                    nonceReceived := true, established := true }, .ok (src.length, []))
        else (h, .error .outOfBounds)
  else
    -- `memcpy` reads `keySize` bytes behind the first one
    if hk : keySize ≤ (src.drop 1).length then
      let h := { h with peerPubKey := .copy (src.drop 1) hk }
      match h.sessionKeys S with
      | none => (h, .error (.exception s!"handle: {h.handle} failed to setup sodium keys"))
      | some (rx, tx) =>
          let h := { h with rxKey := rx, txKey := tx, keyReceived := true,
                            rxNonce := h.draws.nonce }
          (h, .ok (src.length, h.syncNonce S))
    else (h, .error .outOfBounds)

/-! ### sodium_cipher -/

/-- `sodium_cipher::encode` into a buffer prepared by the caller. -/
def cipherEncode (h : SodiumHandshake) (src : Bytes) : SodiumHandshake × Except Fault Bytes :=
  match S.chacha20Xor src h.txNonce h.txKey with
  | none => (h, .error (.exception s!"handle: {h.handle} failed to encode"))
  | some c => ({ h with txNonce := sodiumIncrement h.txNonce }, .ok c)

/-- `sodium_cipher::decode`, in place. -/
def cipherDecode (h : SodiumHandshake) (src : Bytes) : SodiumHandshake × Except Fault Bytes :=
  match S.chacha20Xor src h.rxNonce h.rxKey with
  | none => (h, .error (.exception s!"handle: {h.handle} failed to decode"))
  | some c => ({ h with rxNonce := sodiumIncrement h.rxNonce }, .ok c)

end SodiumHandshake

/-! ### A recorded exchange -/

/-- The array of `n` bytes that a number spells, the first byte on top. -/
def Block.spell (n v : ℕ) : Block n :=
  ⟨(List.range n).map fun i => UInt8.ofNat (v >>> (8 * (n - 1 - i))), by simp⟩

/-- The exclusive or of a message and a key stream. -/
def xorStream (ks m : Bytes) : Bytes :=
  m.mapIdx fun i b => b ^^^ ks.getD i 0

@[simp] theorem length_xorStream (ks m : Bytes) : (xorStream ks m).length = m.length := by
  simp [xorStream]

theorem xorStream_xorStream (ks m : Bytes) : xorStream ks (xorStream ks m) = m := by
  refine List.ext_getElem (by simp) fun i h₁ h₂ => ?_
  simp only [xorStream, List.getElem_mapIdx]
  rw [UInt8.xor_assoc, UInt8.xor_self, UInt8.xor_zero]

namespace Recorded

/-- The key pairs of the client (seed 0) and of the server, whose secret keys
are the bytes 0 to 31 and 32 to 63. -/
def keypair : ℕ → Key × Key
  | 0 =>
      (.spell _ 0x8f40c5adb68f25624ae5b214ea767a6ec94d829d3d7b5e1ad1ba6f3e2138285f,
       .spell _ 0x000102030405060708090a0b0c0d0e0f101112131415161718191a1b1c1d1e1f)
  | _ =>
      (.spell _ 0x358072d6365880d1aeea329adf9121383851ed21a28e3b75e965d0d2cd166254,
       .spell _ 0x202122232425262728292a2b2c2d2e2f303132333435363738393a3b3c3d3e3f)

/-- The receive key of the client, which is the send key of the server. -/
def clientRx : Key :=
  .spell _ 0x09fcadb630f490a255a9461619a3a32586c5ec11be9a584832de0aad99099e02

/-- The send key of the client, which is the receive key of the server. -/
def clientTx : Key :=
  .spell _ 0xa1c994d365e824f318de66626a225b70a6f3be5b0febe8638882fd8a20d0bf0c

/-- The receive nonces that the two draw. -/
def clientNonce : Nonce := .spell _ 0x1011121314151617

@[inherit_doc clientNonce]
def serverNonce : Nonce := .spell _ 0x2021222324252627

/-- The ephemeral public keys of the two sealed boxes; the client's has seed
0. -/
def ephemeral : ℕ → Block 32
  | 0 => .spell _ 0x79a631eede1bf9c98f12032cdeadd0e7a079398fc786b88cc846ec89af85a51a
  | _ => .spell _ 0x675dd574ed7789310b3d2e7681f3790b466c773b1521fecf36577958371ea52f

/-- The authentication tags of the two sealed boxes. -/
def tag : ℕ → Block 16
  | 0 => .spell _ 0x3266b0fae75d5726e02286f4e5ae3632
  | _ => .spell _ 0x029ae5ae98c70c2c74aec112eb7344cb

/-- The key streams of the two sealed boxes, found by the ephemeral key. -/
def boxStream (epk : Bytes) : Bytes :=
  if epk = (ephemeral 0).1 then (Block.spell 8 0x8d4194b5b9faca28).1
  else (Block.spell 8 0x100e535cf724bbaa).1

/-- The first bytes of the ChaCha20 key stream for the nonces used. -/
def keyStream (n : Nonce) (k : Key) : Bytes :=
  if k = clientRx then
    if n = clientNonce then (Block.spell 8 0xd6c3c71628c3d9d2).1
    else (Block.spell 8 0xc2005176d17e1667).1
  else
    if n = serverNonce then (Block.spell 8 0xda3ef1558e463606).1
    else (Block.spell 8 0x335aa57fe801e7c9).1

end Recorded

open Recorded in
/-- What libsodium returned in one exchange, as functions.  Outside of the
exchange the answers are lawful, but not those of the library. -/
def Sodium.recorded : Sodium where
  kxKeypair := keypair
  kxServerSessionKeys _ _ _ := some (clientTx, clientRx)
  kxClientSessionKeys _ _ _ := some (clientRx, clientTx)
  boxSeal e m _ := (ephemeral e).1 ++ (tag e).1 ++ xorStream (boxStream (ephemeral e).1) m
  boxSealOpen c _ _ :=
    if c.length < sealBytes then none
    else some (xorStream (boxStream (c.take 32)) (c.drop sealBytes))
  chacha20Xor m n k := some (xorStream (keyStream n k) m)
  length_boxSeal e m pk := by
    rw [List.length_append, List.length_append, (ephemeral e).2, (tag e).2, length_xorStream,
      sealBytes]
    omega
  length_boxSealOpen := by
    intro c pk sk m h
    split at h
    · cases h
    · cases h
      rw [length_xorStream, List.length_drop]
      omega
  length_chacha20Xor := by
    intro m n k c h
    cases h
    exact length_xorStream _ m

theorem Sodium.recorded_lawful : Sodium.recorded.Lawful where
  kx_swapped _ _ := ⟨_, _, rfl, rfl⟩
  boxSealOpen_boxSeal e m s := by
    have hfront : ((Recorded.ephemeral e).1 ++ (Recorded.tag e).1).length = sealBytes := by
      rw [List.length_append, (Recorded.ephemeral e).2, (Recorded.tag e).2]
      rfl
    have hseal : ∀ pk, Sodium.recorded.boxSeal e m pk = (Recorded.ephemeral e).1 ++
      (Recorded.tag e).1 ++ xorStream (Recorded.boxStream (Recorded.ephemeral e).1) m :=
        fun _ => rfl
    show (if _ < sealBytes then none else some (xorStream (Recorded.boxStream _) _)) = some m
    rw [hseal, if_neg (by rw [List.length_append, hfront]; omega), List.drop_left' hfront,
      List.append_assoc, List.take_left' (Recorded.ephemeral e).2, xorStream_xorStream]
  chacha20Xor_invol m n k := by
    refine ⟨xorStream (Recorded.keyStream n k) m, rfl, ?_⟩
    show some (xorStream _ (xorStream _ m)) = some m
    rw [xorStream_xorStream]

end Play
