/-
Play/Handshake.lean

Two honest parties of the secure protocol, one accepted and one connected.

A party is known by its role: `true` is the accepted one.  Each sends two
handshake messages,

    key     length{4} | 'k' | public key{32}           when it starts
    nonce   length{4} | 'n' | sealed receive nonce{56} when it has the peer's key

and goes through the stages idle, waiting for the key, waiting for the nonce,
open.  Since the parties are honest, the handshake object of a party is
determined by its stage (`waitKeyHs`, `waitNonceHs`, `openHs`); the lemmas of
this file say how one call of `handshake`, `encode` or `decode` moves it.

The laws of libsodium enter here: the session keys of the two parties are
each other's swapped, so the send key of a party is the receive key of its
peer, and the send nonce that a party opens is the receive nonce that its
peer sealed.
-/
import Play.Frames

namespace Play

/-- What a party brings along. -/
structure Party where
  handle : ℕ
  draws : Draws

namespace Party

section

variable (S : Sodium) (parties : Bool → Party)

/-- The public key of a party. -/
def pubKey (X : Bool) : Key :=
  (S.kxKeypair (parties X).draws.keypair).1

/-- The secret key of a party. -/
def secKey (X : Bool) : Key :=
  (S.kxKeypair (parties X).draws.keypair).2

/-- The session keys that a party computes: receive and send. -/
def sessionKeys (X : Bool) : Option (Key × Key) :=
  if X then S.kxServerSessionKeys (pubKey S parties X) (secKey S parties X) (pubKey S parties (!X))
  else S.kxClientSessionKeys (pubKey S parties X) (secKey S parties X) (pubKey S parties (!X))

/-- The receive key of a party. -/
def rxKey (X : Bool) : Key :=
  ((sessionKeys S parties X).getD (.zero _, .zero _)).1

/-- The first message of a party. -/
def keyMessage (X : Bool) : Bytes :=
  LengthDelimited.encode (107 :: (pubKey S parties X).1)

/-- The second message of a party. -/
def nonceMessage (X : Bool) : Bytes :=
  LengthDelimited.encode (110 ::
    S.boxSeal (parties X).draws.sealed (parties X).draws.nonce.1 (pubKey S parties (!X)))

/-! ### The objects at each stage -/

/-- The handshake object before the peer's key. -/
def waitKeyHs (X : Bool) : SodiumHandshake where
  handle := (parties X).handle
  accepted := X
  draws := (parties X).draws
  pubKey := pubKey S parties X
  secKey := secKey S parties X

/-- The handshake object between the peer's key and the peer's nonce. -/
def waitNonceHs (X : Bool) : SodiumHandshake :=
  { waitKeyHs S parties X with
    peerPubKey := pubKey S parties (!X)
    rxKey := rxKey S parties X
    txKey := rxKey S parties (!X)
    keyReceived := true
    rxNonce := (parties X).draws.nonce }

/-- The handshake object of an established party. -/
def openHs (X : Bool) (rn tn : Nonce) : SodiumHandshake :=
  { waitNonceHs S parties X with
    rxNonce := rn
    txNonce := tn
    nonceReceived := true
    established := true }

/-- The protocol object around a handshake object. -/
def stateOf (X : Bool) (hs : SodiumHandshake) : SecureState where
  handle := (parties X).handle
  entropy := (parties X).draws
  accepted := X
  connected := !X
  closed := false
  cipherHandshake := some hs

/-- The state in which a party starts to receive frames, and its peer to send
them. -/
def rx₀ (X : Bool) : RxState :=
  (rxKey S parties X, (parties X).draws.nonce)

end

/-! ### Moves -/

section

variable {S : Sodium} {parties : Bool → Party} {X : Bool} {n : ℕ}

theorem length_keyMessage : (keyMessage S parties X).length = 37 := by
  rw [keyMessage, length_encode, List.length_cons, (pubKey S parties X).2]
  rfl

theorem length_nonceMessage : (nonceMessage S parties X).length = 61 := by
  rw [nonceMessage, length_encode, List.length_cons, S.length_boxSeal,
    (parties X).draws.nonce.2]
  rfl

/-- The session keys of the two parties are swapped. -/
theorem sessionKeys_eq (hS : S.Lawful) (parties : Bool → Party) (X : Bool) :
    sessionKeys S parties X = some (rxKey S parties X, rxKey S parties (!X)) := by
  obtain ⟨k₁, k₂, hserver, hclient⟩ :=
    hS.kx_swapped (parties true).draws.keypair (parties false).draws.keypair
  have ht : sessionKeys S parties true = some (k₁, k₂) := hserver
  have hf : sessionKeys S parties false = some (k₂, k₁) := hclient
  cases X with
  | true => simp [rxKey, ht, hf]
  | false => simp [rxKey, ht, hf]

theorem secureBegin_eq :
    secureBegin S { handle := (parties X).handle, entropy := (parties X).draws } X =
      (stateOf parties X (waitKeyHs S parties X), keyMessage S parties X) := by
  simp only [secureBegin, SodiumHandshake.prepare, SodiumHandshake.syncKey, Bool.false_or]
  rfl

/-- Without a whole message nothing happens. -/
theorem secureHandshake_none {p : SecureState} {b : Bytes} (h : LengthDelimited.decode b = []) :
    secureHandshake S p b = (p, .ok (0, [])) := by
  simp [secureHandshake, h]

theorem onHandshake_key (hS : S.Lawful) :
    (waitKeyHs S parties X).onHandshake S (107 :: (pubKey S parties (!X)).1) =
      (waitNonceHs S parties X, .ok (33, 110 :: S.boxSeal (parties X).draws.sealed
        (parties X).draws.nonce.1 (pubKey S parties (!X)))) := by
  have hlen : keySize ≤ ((107 :: (pubKey S parties (!X)).1).drop 1).length := by
    rw [List.drop_one, List.tail_cons, (pubKey S parties (!X)).2]
  -- the key behind the first byte is copied whole
  have hcopy : Block.copy ((107 :: (pubKey S parties (!X)).1).drop 1) hlen
      = pubKey S parties (!X) := by
    refine Subtype.ext ?_
    show (pubKey S parties (!X)).1.take keySize = _
    rw [List.take_of_length_le (by rw [(pubKey S parties (!X)).2])]
  have hkeys : SodiumHandshake.sessionKeys S
      { waitKeyHs S parties X with peerPubKey := pubKey S parties (!X) }
      = some (rxKey S parties X, rxKey S parties (!X)) := sessionKeys_eq hS parties X
  rw [SodiumHandshake.onHandshake, if_neg (by simp [waitKeyHs]), dif_pos hlen, hcopy]
  dsimp only
  rw [hkeys]
  dsimp only
  rw [List.length_cons, (pubKey S parties (!X)).2]
  rfl

theorem onHandshake_nonce (hS : S.Lawful) :
    (waitNonceHs S parties X).onHandshake S (110 :: S.boxSeal (parties (!X)).draws.sealed
        (parties (!X)).draws.nonce.1 (pubKey S parties X)) =
      (openHs S parties X (parties X).draws.nonce (parties (!X)).draws.nonce, .ok (57, [])) := by
  have hopen : S.boxSealOpen ((110 :: S.boxSeal (parties (!X)).draws.sealed
        (parties (!X)).draws.nonce.1 (pubKey S parties X)).drop 1)
      (waitNonceHs S parties X).pubKey (waitNonceHs S parties X).secKey
      = some (parties (!X)).draws.nonce.1 :=
    hS.boxSealOpen_boxSeal _ _ _
  have hfit : (parties (!X)).draws.nonce.1.length ≤ nonceSize := by
    rw [(parties (!X)).draws.nonce.2]
  rw [SodiumHandshake.onHandshake, if_pos (by rfl), hopen]
  dsimp only
  rw [dif_pos hfit, Block.overwrite_all, List.length_cons, S.length_boxSeal,
    (parties (!X)).draws.nonce.2]
  rfl

/-- The peer's key is answered with the nonce. -/
theorem secureHandshake_key (hS : S.Lawful) (parties : Bool → Party) (X : Bool) (c : Bytes) :
    secureHandshake S (stateOf parties X (waitKeyHs S parties X))
        (keyMessage S parties (!X) ++ c) =
      (stateOf parties X (waitNonceHs S parties X), .ok (37, nonceMessage S parties X)) := by
  have hpay : LengthDelimited.decode (keyMessage S parties (!X) ++ c)
      = 107 :: (pubKey S parties (!X)).1 := by
    refine LengthDelimited.decode_encode ?_ c
    rw [List.length_cons, (pubKey S parties (!X)).2]
    decide
  have hlen : (107 :: (pubKey S parties (!X)).1).length = 33 := by
    rw [List.length_cons, (pubKey S parties (!X)).2]
    rfl
  rw [secureHandshake, hpay]
  dsimp only [stateOf]
  rw [hlen, if_pos (by decide), onHandshake_key hS]
  rfl

/-- The peer's nonce opens the channel. -/
theorem secureHandshake_nonce (hS : S.Lawful) (parties : Bool → Party) (X : Bool) (c : Bytes) :
    secureHandshake S (stateOf parties X (waitNonceHs S parties X))
        (nonceMessage S parties (!X) ++ c) =
      (stateOf parties X (openHs S parties X (parties X).draws.nonce (parties (!X)).draws.nonce),
        .ok (61, [])) := by
  have hlen : (110 :: S.boxSeal (parties (!X)).draws.sealed (parties (!X)).draws.nonce.1
      (pubKey S parties (!!X))).length = 57 := by
    rw [List.length_cons, S.length_boxSeal, (parties (!X)).draws.nonce.2]
    rfl
  have hpay : LengthDelimited.decode (nonceMessage S parties (!X) ++ c)
      = 110 :: S.boxSeal (parties (!X)).draws.sealed (parties (!X)).draws.nonce.1
        (pubKey S parties (!!X)) := by
    refine LengthDelimited.decode_encode ?_ c
    rw [hlen]
    decide
  rw [secureHandshake, hpay]
  dsimp only [stateOf]
  rw [hlen, if_pos (by decide), Bool.not_not, onHandshake_nonce hS]
  rfl

theorem isEstablished_waitKey : (stateOf parties X (waitKeyHs S parties X)).isEstablished = false :=
  rfl

theorem isEstablished_waitNonce :
    (stateOf parties X (waitNonceHs S parties X)).isEstablished = false := rfl

theorem isEstablished_open (rn tn : Nonce) :
    (stateOf parties X (openHs S parties X rn tn)).isEstablished = true := rfl

/-- Encoding on an open channel: the frame of the codec, under the peer's
receive key, and the send nonce moves on. -/
theorem secureEncode_open (hS : S.Lawful) (parties : Bool → Party) (X : Bool) (rn tn : Nonce)
    (m : SecureFrame n) :
    secureEncode S n (stateOf parties X (openHs S parties X rn tn)) m.1 m.2.1 m.2.2 =
      (stateOf parties X (openHs S parties X rn
        (secureNext n (rxKey S parties (!X), tn) m).2),
        .ok ((secureCodec hS n).encode (rxKey S parties (!X), tn) m)) := by
  obtain ⟨t, d, e⟩ := m
  have hcs : (stateOf parties X (openHs S parties X rn tn)).cipherHandshake
      = some (openHs S parties X rn tn) := rfl
  rw [secureEncode, if_neg (by simp [stateOf]), if_neg (by simp [isEstablished_open])]
  cases e with
  | false => rfl
  | true =>
      -- the send key is the receive key of the peer
      obtain ⟨x, hx, -⟩ := hS.chacha20Xor_invol d tn (rxKey S parties (!X))
      have henc : (openHs S parties X rn tn).cipherEncode S d
          = (openHs S parties X rn (sodiumIncrement tn), .ok x) := by
        have hx' : S.chacha20Xor d (openHs S parties X rn tn).txNonce
            (openHs S parties X rn tn).txKey = some x := hx
        rw [SodiumHandshake.cipherEncode, hx']
        rfl
      dsimp only
      rw [if_pos rfl, hcs]
      dsimp only
      rw [henc]
      simp only [secureCodec, secureBody, secureNext, if_true, hx, Option.getD_some]
      rfl

/-- Decoding on an open channel never throws, and leaves the send side
alone. -/
theorem secureDecode_open (hS : S.Lawful) (parties : Bool → Party) (X : Bool) (rn tn : Nonce)
    (b : Bytes) :
    ∃ rn' r, secureDecode S n (stateOf parties X (openHs S parties X rn tn)) b =
      (stateOf parties X (openHs S parties X rn' tn), .ok r) := by
  have hcs : (stateOf parties X (openHs S parties X rn tn)).cipherHandshake
      = some (openHs S parties X rn tn) := rfl
  unfold secureDecode
  dsimp only
  split
  · exact ⟨rn, _, rfl⟩
  split
  · exact ⟨rn, _, rfl⟩
  split
  · obtain ⟨x, hx, -⟩ := hS.chacha20Xor_invol
      ((b.drop (secureMinSize n)).take (secureLen n b)) rn (rxKey S parties X)
    have hdec : (openHs S parties X rn tn).cipherDecode S
          ((b.drop (secureMinSize n)).take (secureLen n b))
        = (openHs S parties X (sodiumIncrement rn) tn, .ok x) := by
      have hx' : S.chacha20Xor ((b.drop (secureMinSize n)).take (secureLen n b))
          (openHs S parties X rn tn).rxNonce (openHs S parties X rn tn).rxKey = some x := hx
      rw [SodiumHandshake.cipherDecode, hx']
      rfl
    rw [hcs]
    dsimp only
    rw [hdec]
    exact ⟨sodiumIncrement rn, _, rfl⟩
  · exact ⟨rn, _, rfl⟩

end

end Party

end Play
