/-
Play/Payloads.lean

Handshake messages from a peer that does not keep to the protocol.

`on_handshake` says what it expects in `PLAY_CHECK`s: 33 bytes that start with
'k', then 57 bytes that start with 'n'.  The checks do not stop it.  Before
the key it takes the 32 bytes behind the first one of any payload, and reads
past the end of a short one; after the key it opens any box, also when the
handshake is over, and writes what was in it over the 8 bytes of the nonce,
however long it is.

`ownOnly_iff` says which payloads are treated as they should be, and
`accepts_own_iff` that these are the runs in which the object accepts only its
own messages.
-/
import Play.Protocol
import Play.Runs

namespace Play

namespace SodiumHandshake

/-- `nonce_exchange_size`. -/
def nonceExchangeSize : ℕ := sealBytes + nonceSize + 1

variable (S : Sodium)

/-- The message with the key, while no key has been received. -/
def KeyMessage (h : SodiumHandshake) (src : Bytes) : Prop :=
  h.keyReceived = false ∧ src.length = keySize + 1 ∧ src.head? = some 107

/-- The message with the nonce, that opens, after the key and before the end
of the handshake. -/
def NonceMessage (h : SodiumHandshake) (src : Bytes) : Prop :=
  h.keyReceived = true ∧ h.established = false ∧ src.length = nonceExchangeSize ∧
    src.head? = some 110 ∧ (S.boxSealOpen (src.drop 1) h.pubKey h.secKey).isSome = true

/-- The payload is handled within the arrays, and if it is not the message
that is expected it is refused and changes nothing. -/
structure OwnOnly (h : SodiumHandshake) (src : Bytes) : Prop where
  inBounds : (h.onHandshake S src).2 ≠ .error .outOfBounds
  refuses : ¬ h.KeyMessage src → ¬ h.NonceMessage S src →
    (∃ what, (h.onHandshake S src).2 = .error (.exception what)) ∧ (h.onHandshake S src).1 = h

/-- Before the key: the payload is the message with the key, or the 32 bytes
behind its first one are the key that is stored already and libsodium refuses
it. -/
def KeyHarmless (h : SodiumHandshake) (src : Bytes) : Prop :=
  (src.length = keySize + 1 ∧ src.head? = some 107) ∨
    (keySize ≤ (src.drop 1).length ∧ (src.drop 1).take keySize = h.peerPubKey.1 ∧
      h.sessionKeys S = none)

/-- After the key: the payload does not open, or the handshake is not over and
it has the size and the first byte of the message with the nonce. -/
def NonceHarmless (h : SodiumHandshake) (src : Bytes) : Prop :=
  S.boxSealOpen (src.drop 1) h.pubKey h.secKey = none ∨
    (h.established = false ∧ src.length = nonceExchangeSize ∧ src.head? = some 110)

/-- The payloads that do no harm. -/
def Harmless (h : SodiumHandshake) (src : Bytes) : Prop :=
  (h.keyReceived = false → h.KeyHarmless S src) ∧ (h.keyReceived = true → h.NonceHarmless S src)

/-! ### One payload -/

variable {S} {h : SodiumHandshake} {src : Bytes}

theorem onHandshake_of_open_none (hkey : h.keyReceived = true)
    (hopen : S.boxSealOpen (src.drop 1) h.pubKey h.secKey = none) :
    h.onHandshake S src =
      (h, .error (.exception s!"handle: {h.handle}. failed to open nonce data")) := by
  rw [onHandshake, if_pos hkey, hopen]

/-- What is opened is 49 bytes shorter than the payload. -/
theorem length_of_open {m : Bytes} (hopen : S.boxSealOpen (src.drop 1) h.pubKey h.secKey = some m) :
    src.length = m.length + sealBytes + 1 := by
  have hlen := S.length_boxSealOpen hopen
  rw [List.length_drop] at hlen
  rw [sealBytes] at *
  omega

theorem ownOnly_iff_nonceHarmless (hkey : h.keyReceived = true) :
    h.OwnOnly S src ↔ h.NonceHarmless S src := by
  have hnot : ¬ h.KeyMessage src := fun hk => by cases hkey.symm.trans hk.1
  rcases hopen : S.boxSealOpen (src.drop 1) h.pubKey h.secKey with - | m
  · -- nothing was opened, and nothing was written
    have hrun := onHandshake_of_open_none hkey hopen
    refine iff_of_true ⟨?_, fun _ _ => ?_⟩ (.inl hopen)
    · rw [hrun]
      simp
    · rw [hrun]
      exact ⟨⟨_, rfl⟩, rfl⟩
  have hmessage : h.NonceHarmless S src ↔ h.NonceMessage S src := by
    rw [NonceHarmless, NonceMessage, hopen]
    simp [hkey]
  rw [hmessage]
  constructor
  · intro hown
    by_contra hno
    obtain ⟨⟨what, hwhat⟩, -⟩ := hown.refuses hnot hno
    have hin := hown.inBounds
    rw [onHandshake, if_pos hkey, hopen] at hwhat hin
    dsimp only at hwhat hin
    split at hwhat
    · cases hwhat
    · cases hwhat
  · intro hm
    refine ⟨?_, fun _ hno => absurd hm hno⟩
    -- a box of this size holds a nonce
    have hfit : m.length ≤ nonceSize := by
      have hlen := length_of_open hopen
      have hsize := hm.2.2.1
      rw [nonceExchangeSize] at hsize
      omega
    rw [onHandshake, if_pos hkey, hopen]
    dsimp only
    rw [dif_pos hfit]
    simp

/-- The object after `memcpy`. -/
def withPeerKey (h : SodiumHandshake) (src : Bytes) (hk : keySize ≤ (src.drop 1).length) :
    SodiumHandshake :=
  { h with peerPubKey := .copy (src.drop 1) hk }

theorem withPeerKey_eq_self_iff (hk : keySize ≤ (src.drop 1).length) :
    h.withPeerKey src hk = h ↔ (src.drop 1).take keySize = h.peerPubKey.1 := by
  constructor
  · intro heq
    rw [← heq]
    rfl
  · intro hkeys
    have hcopy : Block.copy (src.drop 1) hk = h.peerPubKey := Subtype.ext hkeys
    rw [withPeerKey, hcopy]

section

variable (hkey : h.keyReceived = false) (hk : keySize ≤ (src.drop 1).length)
include hkey

theorem onHandshake_refused (hkx : (h.withPeerKey src hk).sessionKeys S = none) :
    h.onHandshake S src = (h.withPeerKey src hk,
      .error (.exception s!"handle: {h.handle} failed to setup sodium keys")) := by
  rw [withPeerKey] at hkx
  rw [onHandshake, if_neg (by simp [hkey]), dif_pos hk]
  dsimp only
  rw [hkx]
  rfl

theorem onHandshake_accepted {keys : Key × Key}
    (hkx : (h.withPeerKey src hk).sessionKeys S = some keys) :
    ∃ x, (h.onHandshake S src).2 = .ok x := by
  rw [withPeerKey] at hkx
  rw [onHandshake, if_neg (by simp [hkey]), dif_pos hk]
  dsimp only
  rw [hkx]
  exact ⟨_, rfl⟩

theorem ownOnly_iff_keyHarmless : h.OwnOnly S src ↔ h.KeyHarmless S src := by
  have hnot : ¬ h.NonceMessage S src := fun hn => by cases hkey.symm.trans hn.1
  have hmessage : h.KeyMessage src ↔ src.length = keySize + 1 ∧ src.head? = some 107 := by
    simp [KeyMessage, hkey]
  rw [KeyHarmless, ← hmessage]
  by_cases hk : keySize ≤ (src.drop 1).length
  swap
  · -- `memcpy` reads past the end
    have hout : (h.onHandshake S src).2 = .error .outOfBounds := by
      rw [onHandshake, if_neg (by simp [hkey]), dif_neg hk]
    refine iff_of_false (fun hown => hown.inBounds hout) ?_
    rintro (hm | ⟨hk', -⟩)
    · have hlen := hm.2.1
      rw [List.length_drop] at hk
      omega
    · exact hk hk'
  rw [← withPeerKey_eq_self_iff hk, and_iff_right hk]
  rcases hkx : (h.withPeerKey src hk).sessionKeys S with - | keys
  · have hrun := onHandshake_refused hkey hk hkx
    constructor
    · intro hown
      by_cases hm : h.KeyMessage src
      · exact .inl hm
      · have heq := (hown.refuses hm hnot).2
        rw [hrun] at heq
        exact .inr ⟨heq, heq ▸ hkx⟩
    · intro hharmless
      refine ⟨by rw [hrun]; simp, fun hm _ => ?_⟩
      rw [hrun]
      exact ⟨⟨_, rfl⟩, (hharmless.resolve_left hm).1⟩
  · obtain ⟨x, hx⟩ := onHandshake_accepted hkey hk hkx
    constructor
    · intro hown
      by_contra hno
      obtain ⟨⟨what, hwhat⟩, -⟩ := hown.refuses (fun hm => hno (.inl hm)) hnot
      cases hwhat.symm.trans hx
    · rintro (hm | ⟨heq, hnone⟩)
      · exact ⟨by rw [hx]; simp, fun hno _ => absurd hm hno⟩
      · rw [heq, hnone] at hkx
        cases hkx

end

/-- **Which payloads are treated as they should be.** -/
theorem ownOnly_iff : h.OwnOnly S src ↔ h.Harmless S src := by
  rcases hkey : h.keyReceived with - | -
  · simpa [Harmless, hkey] using ownOnly_iff_keyHarmless hkey
  · simpa [Harmless, hkey] using ownOnly_iff_nonceHarmless hkey

/-! ### Payloads one after the other -/

/-- One payload.  `handshake` does not pass on an empty one, and after an
access outside the arrays there is no next state. -/
def takePayload (S : Sodium) (h : SodiumHandshake) (src : Bytes) : Option SodiumHandshake :=
  if src = [] then none
  else
    match h.onHandshake S src with
    | (_, .error .outOfBounds) => none
    | (h, .error (.exception _)) => some h
    | (h, .ok _) => some h

/-- **The handshake accepts only its own messages**: for every sequence of
payloads, each is handled within the arrays, and refused without a trace if it
is not the message that is expected, if and only if each does no harm in the
state it meets. -/
theorem accepts_own_iff (S : Sodium) (h : SodiumHandshake) (payloads : List Bytes) :
    Along (takePayload S) (OwnOnly S) h payloads ↔
      Along (takePayload S) (Harmless S) h payloads := by
  constructor
  · intro hown
    exact hown.imp (I := fun _ => True) (fun _ _ _ => trivial) (fun _ => ownOnly_iff.mp) trivial
  · intro hharm
    exact hharm.imp (I := fun _ => True) (fun _ _ _ => trivial) (fun _ => ownOnly_iff.mpr) trivial

/-- The server of the recorded exchange, waiting for the key. -/
def waitingServer : SodiumHandshake :=
  (prepare .recorded
    { handle := 1, accepted := true, draws := ⟨1, Recorded.serverNonce, 1⟩ }).1

/-- The public key of the client behind an 'x'. -/
def mislabelledKey : Bytes :=
  120 :: (Recorded.keypair 0).1.1

/-- **A key under another name**: the payload is no message of the handshake,
and the server takes the key in it. -/
theorem mislabelledKey_accepted :
    ¬ Along (takePayload .recorded) (OwnOnly .recorded) waitingServer [mislabelledKey] := by
  rintro ⟨hown, -⟩
  have hkey : ¬ waitingServer.KeyMessage mislabelledKey := fun hm => absurd hm.2.2 (by decide)
  have hnonce : ¬ waitingServer.NonceMessage .recorded mislabelledKey :=
    fun hm => absurd hm.1 (by decide)
  have hsame := congrArg keyReceived (hown.refuses hkey hnonce).2
  exact absurd hsame (by decide)

end SodiumHandshake

/-- A whole message at the front of the buffer is passed to `on_handshake`
without its length field, whatever it says. -/
theorem secureHandshake_payload (S : Sodium) {p : SecureState} {h : SodiumHandshake}
    (hcs : p.cipherHandshake = some h) {src : Bytes} (hne : src ≠ []) (hlen : src.length < 2 ^ 32)
    (c : Bytes) :
    (secureHandshake S p (LengthDelimited.encode src ++ c)).1 =
      { p with cipherHandshake := some (h.onHandshake S src).1 } := by
  rw [secureHandshake, LengthDelimited.decode_encode hlen]
  dsimp only
  rw [if_pos (List.length_pos_of_ne_nil hne), hcs]
  dsimp only
  rcases h.onHandshake S src with ⟨h', e | ⟨k, resp⟩⟩
  · rfl
  · dsimp only
    split <;> rfl

end Play
