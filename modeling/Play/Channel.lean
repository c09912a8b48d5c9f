/-
Play/Channel.lean

The secure channel: an accepted and a connected session, joined by two pipes.

A pipe keeps the order of the bytes.  What one session ever appended for
sending is its stream, and the pipe holds the part of the stream that was not
passed to the other session's `handle_recv` yet.  The steps are `start` of
either side, the arrival of any number of bytes from the front of a pipe, and
`send` of either side after its own `on_established`, also from inside the
callbacks.

The invariant has one part for each side and one for each direction.  A side
is at a stage of the handshake, which determines its stream (`Endpoint`); once
open, the stream is the two handshake messages and the frames sent so far,
encoded under the peer's receive key (`Sends`).  A direction (`Inbound`) says
how the bytes that were not read yet continue the stream of the other side:

    waiting for the key      unread              =  stream
    waiting for the nonce    key ++ unread       =  stream
    open                     unread              =  the frames not received

For frames this is `FrameCodec.drain_encodeAll`: both ends step the same key
and nonce, whatever the chunks.
-/
import Play.Endpoint

namespace Play

/-! ### The system -/

/-- Whether a callback is `on_established`. -/
def Callback.isEstablished {T : Type} : Callback T → Bool
  | .established => true
  | .receive _ _ => false
  | .closed => false

/-- The frame of an `on_receive`. -/
def Callback.frame? {T : Type} : Callback T → Option (T × Bytes)
  | .receive t d => some (t, d)
  | .established => none
  | .closed => none

variable {S : Sodium} {n : ℕ}

variable (S n) in
/-- The two sessions, and how many bytes of the stream of each were passed to
the other. -/
structure Link where
  ends : Bool → Session (secureProtocol S n)
  delivered : Bool → ℕ

namespace Link

variable (S n) in
/-- Two sessions that have not started. -/
def new : Link S n where
  ends X := .new X
  delivered _ := 0

/-- The bytes on their way from `X`. -/
def pipe (l : Link S n) (X : Bool) : Bytes :=
  (l.ends X).appended.drop (l.delivered X)

/-- The frames that were given to `on_receive` of `X`. -/
def received (l : Link S n) (X : Bool) : List (BitVec (8 * n) × Bytes) :=
  (l.ends X).log.filterMap Callback.frame?

/-- The frames that `X` sent, as the peer should see them. -/
def sent (l : Link S n) (X : Bool) : List (BitVec (8 * n) × Bytes) :=
  (framesOf (l.ends X)).map fun m => (m.1, m.2.1)

/-- The session of `X` becomes `s`, having read `k` bytes of its pipe. -/
def advance (l : Link S n) (X : Bool) (s : Session (secureProtocol S n)) (k : ℕ) : Link S n where
  ends := Function.update l.ends X s
  delivered := Function.update l.delivered (!X) (l.delivered (!X) + k)

/-- One step of the system. -/
inductive Step (n : ℕ)
  | start (X : Bool) (r : Replies n)
  | deliver (Y : Bool) (k : ℕ) (r : Replies n)
  | send (X : Bool) (m : ValidFrame n)

/-- The step function, for given random values of the two sides. -/
def step (parties : Bool → Party) (l : Link S n) : Step n → Option (Link S n)
  | .start X r =>
      let s := l.ends X
      if s.protocol.isNone then
        some (l.advance X (s.start r.handler (parties X).handle (parties X).draws true).state 0)
      else none
  | .deliver Y k r =>
      let s := l.ends Y
      if s.recvPending ∧ 0 < k ∧ k ≤ (l.pipe (!Y)).length then
        some (l.advance Y (s.handleRecv r.handler ((l.pipe (!Y)).take k)).state k)
      else none
  | .send X m =>
      let s := l.ends X
      if s.log.any Callback.isEstablished then some (l.advance X (s.appCall m.call) 0) else none

end Link

/-! ### One direction -/

namespace Party

section

variable (n : ℕ) (parties : Bool → Party) (hS : S.Lawful)

/-- The direction towards `Y`: the peer's stream `out` and frames `ms`, the
bytes `c` on their way. -/
def Inbound (Y : Bool) (out : Bytes) (ms : List (SecureFrame n)) (c : Bytes) :
    Stage → Session (secureProtocol S n) → Prop
  | .idle, y => y.recvBuf ++ c = out ∧ y.recvBuf.length < 37
  | .waitKey, y => y.recvBuf ++ c = out ∧ y.recvBuf.length < 37
  | .waitNonce, y =>
      keyMessage S parties (!Y) ++ (y.recvBuf ++ c) = out ∧ y.recvBuf.length ≤ 61
  | .opened, y => 98 ≤ out.length ∧ ∃ done todo, ms = done ++ todo ∧
      Session.Holds SecureState.rx ((secureCodec hS n).nextAll (rx₀ S parties Y) done)
        (.established :: Session.receives (done.map (secureCodec hS n).image)) y.recvBuf y ∧
      (secureDecoder S n).Settled ((secureCodec hS n).nextAll (rx₀ S parties Y) done) y.recvBuf ∧
      y.recvBuf ++ c
        = (secureCodec hS n).encodeAll ((secureCodec hS n).nextAll (rx₀ S parties Y) done) todo

end

section

variable {parties : Bool → Party} {hS : S.Lawful} {Y : Bool}
variable {x y : Session (secureProtocol S n)} {out b c : Bytes} {ms ms' : List (SecureFrame n)}

/-- The sender appends to its stream. -/
theorem Inbound.grow {st : Stage} (h : Inbound n parties hS Y out ms c st y)
    (hb : 98 ≤ out.length → b = (secureCodec hS n).encodeAll
      ((secureCodec hS n).nextAll (rx₀ S parties Y) ms) ms') :
    Inbound n parties hS Y (out ++ b) (ms ++ ms') (c ++ b) st y := by
  cases st with
  | idle => exact ⟨by rw [← List.append_assoc, h.1], h.2⟩
  | waitKey => exact ⟨by rw [← List.append_assoc, h.1], h.2⟩
  | waitNonce => exact ⟨by rw [← List.append_assoc y.recvBuf, ← List.append_assoc, h.1], h.2⟩
  | opened =>
      obtain ⟨hlen, done, todo, rfl, hholds, hset, hrest⟩ := h
      refine ⟨by rw [List.length_append]; omega, done, todo ++ ms', by simp, hholds, hset, ?_⟩
      rw [FrameCodec.encodeAll_append, ← FrameCodec.nextAll_append, ← hb hlen,
        ← List.append_assoc, hrest]

/-- An honest stream starts with the two handshake messages. -/
theorem Endpoint.appended_prefix {X : Bool} {st : Stage} (h : Endpoint n parties hS X st x) :
    ∃ rest, x.appended <+: keyMessage S parties X ++ (nonceMessage S parties X ++ rest) := by
  cases st with
  | idle =>
      obtain rfl : x = _ := h
      exact ⟨[], List.nil_prefix⟩
  | waitKey => exact ⟨[], _, by rw [h.1.appended]⟩
  | waitNonce => exact ⟨_, [], by rw [h.1.appended, List.append_nil]; rfl⟩
  | opened => exact ⟨_, [], by rw [h.1.appended, List.append_nil]; rfl⟩

/-- From the second handshake message on, the stream is determined by the
frames. -/
theorem Endpoint.appended_eq {X : Bool} {st : Stage} (h : Endpoint n parties hS X st x)
    (hlen : 98 ≤ x.appended.length) : x.appended = stream n parties hS X (framesOf x) ∧
      ∀ m ∈ framesOf x, (secureCodec hS n).Valid m := by
  cases st with
  | idle =>
      obtain rfl : x = _ := h
      cases hlen
  | waitKey =>
      rw [h.1.appended, length_keyMessage] at hlen
      omega
  | waitNonce =>
      rw [h.1.frames]
      exact ⟨h.1.appended, by simp⟩
  | opened => exact ⟨h.1.appended, h.1.valid⟩

/-- A stream that is no longer than the handshake has no frames. -/
theorem Endpoint.frames_eq_nil {X : Bool} {st : Stage} (h : Endpoint n parties hS X st x)
    (hlen : x.appended.length ≤ 98) : framesOf x = [] := by
  cases st with
  | idle =>
      obtain rfl : x = _ := h
      rfl
  | waitKey => exact h.1.frames
  | waitNonce => exact h.1.frames
  | opened =>
      refine (secureCodec hS n).eq_nil_of_encodeAll_eq_nil h.1.valid
        (r := rx₀ S parties (!X)) (List.length_eq_zero_iff.mp ?_)
      rw [h.1.appended, stream, List.length_append, List.length_append, length_keyMessage,
        length_nonceMessage] at hlen
      omega

/-- A cut short of a message is no message. -/
theorem decode_of_prefix {src b rest : Bytes} (hsrc : src.length < 2 ^ 32)
    (hb : b <+: LengthDelimited.encode src ++ rest)
    (hlt : b.length < (LengthDelimited.encode src).length) : LengthDelimited.decode b = [] := by
  obtain ⟨c, hc⟩ := hb
  exact LengthDelimited.decode_of_lt hsrc hc hlt

/-! ### Receiving -/

/-- Waiting for the key: it comes, or the session goes on waiting. -/
theorem Endpoint.handleRecv_waitKey {st : Stage} (hx : Endpoint n parties hS (!Y) st x)
    (hy : Endpoint n parties hS Y .waitKey y) {chunk : Bytes}
    (hin : Inbound n parties hS Y x.appended ms (chunk ++ c) .waitKey y) (r : Replies n) :
    (y.recvBuf.length + chunk.length < 37 ∧
      Endpoint n parties hS Y .waitKey (y.handleRecv r.handler chunk).state ∧
      (y.handleRecv r.handler chunk).state.recvBuf ++ c = x.appended ∧
      (y.handleRecv r.handler chunk).state.recvBuf.length = y.recvBuf.length + chunk.length) ∨
    (37 ≤ y.recvBuf.length + chunk.length ∧
      Endpoint n parties hS Y .waitNonce (y.handleRecv r.handler chunk).state ∧
      keyMessage S parties (!Y) ++ ((y.handleRecv r.handler chunk).state.recvBuf ++ c)
        = x.appended ∧
      (y.handleRecv r.handler chunk).state.recvBuf.length + 37
        = y.recvBuf.length + chunk.length) := by
  obtain ⟨hq, -⟩ := hy
  obtain ⟨hout, -⟩ := hin
  rw [← List.append_assoc] at hout
  -- the buffer is a prefix of the peer's stream, so it is compared with the key
  -- message by its length alone
  obtain ⟨rest, hpre⟩ := hx.appended_prefix
  replace hpre := (List.prefix_append _ _).trans (hout ▸ hpre)
  rw [← List.length_append]
  by_cases hlt : (y.recvBuf ++ chunk).length < 37
  · left
    have hdec := decode_of_prefix (by rw [List.length_cons, (pubKey S parties (!Y)).2]; decide)
      hpre (by rw [← keyMessage, length_keyMessage]; exact hlt)
    obtain ⟨hq', hbuf⟩ := hq.handleRecv isEstablished_waitKey isEstablished_waitKey
      (secureHandshake_none hdec) r.handler
    rw [List.append_nil] at hq'
    rw [List.drop_zero] at hbuf
    rw [hbuf]
    exact ⟨hlt, hq', hout, rfl⟩
  · right
    obtain ⟨b', hb'⟩ : ∃ b', y.recvBuf ++ chunk = keyMessage S parties (!Y) ++ b' := by
      refine List.prefix_iff_exists_eq_append.mp ?_
      exact List.prefix_of_prefix_length_le ⟨_, rfl⟩ hpre (by rw [length_keyMessage]; omega)
    have hh := secureHandshake_key hS parties Y b'
    rw [← hb'] at hh
    obtain ⟨hq', hbuf⟩ := hq.handleRecv isEstablished_waitKey isEstablished_waitNonce hh r.handler
    rw [hb', List.drop_left' length_keyMessage] at hbuf
    rw [hbuf]
    rw [← show stream n parties hS Y [] = _ from stream_nil] at hq'
    refine ⟨by omega, hq', ?_, ?_⟩
    · rw [← hout, hb', List.append_assoc]
    · rw [hb', List.length_append, length_keyMessage]
      omega

/-- Frames that were drained are frames that were sent. -/
theorem Inbound.of_drain {q : RxState} (done : List (SecureFrame n)) {todo : List (SecureFrame n)}
    (hq : q = (secureCodec hS n).nextAll (rx₀ S parties Y) done)
    (hvalid : ∀ m ∈ todo, (secureCodec hS n).Valid m) (hlen : 98 ≤ out.length)
    (hb : b ++ c = (secureCodec hS n).encodeAll q todo)
    (hy : Session.Holds SecureState.rx ((secureDecoder S n).drain q b).1
      (.established :: Session.receives (done.map (secureCodec hS n).image ++
        ((secureDecoder S n).drain q b).2.1))
      ((secureDecoder S n).drain q b).2.2 y) :
    Inbound n parties hS Y out (done ++ todo) c .opened y := by
  have hset := (secureDecoder S n).settled_drain q b
  -- what is decoded of a cut encoding: some first frames, and the rest is the
  -- encoding of the others
  obtain ⟨got, left, rfl, h₁, h₂, h₃⟩ := (secureCodec hS n).drain_encodeAll hvalid hb
  have hnext : (secureCodec hS n).nextAll q got
      = (secureCodec hS n).nextAll (rx₀ S parties Y) (done ++ got) := by
    rw [hq, FrameCodec.nextAll_append]
  change ((secureDecoder S n).drain q b).1 = _ at h₁
  change ((secureDecoder S n).drain q b).2.1 = _ at h₂
  change ((secureDecoder S n).drain q b).2.2 ++ c = _ at h₃
  rw [h₁, hnext, ← hy.recvBuf] at hset
  rw [hnext, ← hy.recvBuf] at h₃
  rw [h₁, h₂, hnext, ← List.map_append] at hy
  exact ⟨hlen, done ++ got, left, by simp, ⟨hy.protocol, hy.log, rfl⟩, hset, h₃⟩

/-- Waiting for the nonce: it comes, with frames behind it, or the session
goes on waiting. -/
theorem Endpoint.handleRecv_waitNonce {st : Stage} (hx : Endpoint n parties hS (!Y) st x)
    (hy : Endpoint n parties hS Y .waitNonce y) {chunk : Bytes}
    (hin : Inbound n parties hS Y x.appended (framesOf x) (chunk ++ c) .waitNonce y)
    (r : Replies n) :
    (y.recvBuf.length + chunk.length < 61 ∧
      Endpoint n parties hS Y .waitNonce (y.handleRecv r.handler chunk).state ∧
      keyMessage S parties (!Y) ++ ((y.handleRecv r.handler chunk).state.recvBuf ++ c)
        = x.appended ∧
      (y.handleRecv r.handler chunk).state.recvBuf.length = y.recvBuf.length + chunk.length) ∨
    (Endpoint n parties hS Y .opened (y.handleRecv r.handler chunk).state ∧
      Inbound n parties hS Y x.appended (framesOf x) c .opened
        (y.handleRecv r.handler chunk).state) := by
  obtain ⟨hq, -⟩ := hy
  obtain ⟨hout, -⟩ := hin
  rw [← List.append_assoc y.recvBuf] at hout
  obtain ⟨rest, hpre⟩ := hx.appended_prefix
  rw [← hout, List.prefix_append_right_inj] at hpre
  replace hpre := (List.prefix_append _ _).trans hpre
  rw [← List.length_append]
  by_cases hlt : (y.recvBuf ++ chunk).length < 61
  · left
    have hdec := decode_of_prefix (by rw [List.length_cons, S.length_boxSeal,
        (parties (!Y)).draws.nonce.2]; decide)
      hpre (by rw [← nonceMessage, length_nonceMessage]; exact hlt)
    obtain ⟨hq', hbuf⟩ := hq.handleRecv isEstablished_waitNonce isEstablished_waitNonce
      (secureHandshake_none hdec) r.handler
    rw [List.append_nil] at hq'
    rw [List.drop_zero] at hbuf
    rw [hbuf]
    exact ⟨hlt, hq', hout, rfl⟩
  · right
    obtain ⟨b', hb'⟩ : ∃ b', y.recvBuf ++ chunk = nonceMessage S parties (!Y) ++ b' := by
      refine List.prefix_iff_exists_eq_append.mp ?_
      exact List.prefix_of_prefix_length_le ⟨_, rfl⟩ hpre (by rw [length_nonceMessage]; omega)
    obtain ⟨hend, hholds⟩ := hq.handleRecv_opens hb' r
    refine ⟨hend, ?_⟩
    have hlen : 98 ≤ x.appended.length := by
      rw [← hout, hb']
      simp only [List.length_append, length_keyMessage, length_nonceMessage]
      omega
    obtain ⟨heq, hvalid⟩ := hx.appended_eq hlen
    -- behind the two messages there are the frames of the peer, from the first
    -- one on
    have hrest : b' ++ c = (secureCodec hS n).encodeAll (rx₀ S parties Y) (framesOf x) := by
      rw [heq, stream, Bool.not_not, hb', List.append_assoc] at hout
      exact List.append_cancel_left (List.append_cancel_left hout)
    exact Inbound.of_drain [] rfl hvalid hlen hrest hholds

/-- On an open side: frames come. -/
theorem Endpoint.handleRecv_opened {st : Stage} (hx : Endpoint n parties hS (!Y) st x)
    {chunk : Bytes} (hin : Inbound n parties hS Y x.appended (framesOf x) (chunk ++ c) .opened y)
    (r : Replies n) :
    Inbound n parties hS Y x.appended (framesOf x) c .opened
      (y.handleRecv r.handler chunk).state := by
  obtain ⟨hlen, done, todo, hms, hholds, -, hrest⟩ := hin
  obtain ⟨-, hvalid⟩ := hx.appended_eq hlen
  rw [hms] at hvalid ⊢
  have hnew := hholds.handleRecv (secureProtocol_framedBy S n) (h := r.handler) (fun _ => rfl) chunk
  refine Inbound.of_drain (b := y.recvBuf ++ chunk) done rfl (fun m hm => hvalid m (by simp [hm]))
    hlen ?_ ?_
  · rw [List.append_assoc, hrest]
  · refine ⟨hnew.protocol, hnew.log.trans ?_, hnew.recvBuf⟩
    exact congrArg (List.cons Callback.established) (Session.receives_append _ _).symm

end

end Party

/-! ### The invariant -/

namespace Link

open Party

section

variable (parties : Bool → Party) (hS : S.Lawful)

/-- Every side is at its stage, every direction continues the stream of its
sender, and no pipe is ahead of its stream. -/
structure Inv (l : Link S n) : Prop where
  endpoint : ∀ X, Endpoint n parties hS X (stage (l.ends X)) (l.ends X)
  inbound : ∀ Y, Inbound n parties hS Y (l.ends (!Y)).appended (framesOf (l.ends (!Y)))
    (l.pipe (!Y)) (stage (l.ends Y)) (l.ends Y)
  delivered : ∀ X, l.delivered X ≤ (l.ends X).appended.length

end

variable {parties : Bool → Party} {hS : S.Lawful} {l l' : Link S n} {X : Bool}
variable {s' : Session (secureProtocol S n)} {k : ℕ}

theorem inv_new : Inv parties hS (new S n) where
  endpoint _ := rfl
  inbound _ := ⟨rfl, Nat.zero_lt_succ 36⟩
  delivered _ := le_rfl

@[simp] theorem advance_ends_self : (l.advance X s' k).ends X = s' :=
  Function.update_self ..

@[simp] theorem advance_ends_not : (l.advance X s' k).ends (!X) = l.ends (!X) :=
  Function.update_of_ne (by simp) ..

@[simp] theorem advance_delivered_self : (l.advance X s' k).delivered X = l.delivered X :=
  Function.update_of_ne (by simp) ..

@[simp] theorem advance_delivered_not :
    (l.advance X s' k).delivered (!X) = l.delivered (!X) + k :=
  Function.update_self ..

/-- A property of both sides is one of a side and its peer. -/
theorem forall_side {p : Bool → Prop} (h : p X) (h' : p (!X)) : ∀ Z, p Z := by
  intro Z
  cases Z <;> cases X <;> assumption

/-- **Step rule**: the side `X` moves to `s'`, having read `k` bytes.  What
has to be looked at is its own stage, its own direction and what it adds to
its stream; the direction of the peer follows. -/
theorem Inv.advance (hl : Inv parties hS l) {st : Stage}
    (hk : k ≤ (l.pipe (!X)).length) (hend : Endpoint n parties hS X st s')
    (hin : Inbound n parties hS X (l.ends (!X)).appended (framesOf (l.ends (!X)))
      ((l.pipe (!X)).drop k) st s')
    (hgrow : Grows n parties hS X (l.ends X) s') :
    Inv parties hS (l.advance X s' k) := by
  obtain ⟨ms, b, hframes, happ, hb⟩ := hgrow
  have hdel := hl.delivered X
  refine ⟨forall_side (X := X) ?_ ?_, forall_side (X := X) ?_ ?_, forall_side (X := X) ?_ ?_⟩
  · rw [advance_ends_self, hend.stage_eq]
    exact hend
  · rw [advance_ends_not]
    exact hl.endpoint (!X)
  · rw [advance_ends_self, advance_ends_not, hend.stage_eq, pipe, advance_ends_not,
      advance_delivered_not, ← List.drop_drop]
    exact hin
  · -- the peer has not moved, but there is more to come
    have hpeer := hl.inbound (!X)
    rw [Bool.not_not] at hpeer
    rw [Bool.not_not, advance_ends_self, advance_ends_not, pipe, advance_ends_self,
      advance_delivered_self, hframes, happ, List.drop_append_of_le_length hdel]
    exact hpeer.grow hb
  · rw [advance_delivered_self, advance_ends_self, happ, List.length_append]
    omega
  · have hdel' := hl.delivered (!X)
    rw [pipe, List.length_drop] at hk
    rw [advance_delivered_not, advance_ends_not]
    omega

theorem Inv.idle (hl : Inv parties hS l) (hnone : (l.ends X).protocol.isNone) :
    Endpoint n parties hS X .idle (l.ends X) := by
  have hst : stage (l.ends X) = .idle := by
    rw [stage, Option.isNone_iff_eq_none.mp hnone]
    rfl
  exact hst ▸ hl.endpoint X

theorem Inv.start (hl : Inv parties hS l) (hnone : (l.ends X).protocol.isNone) (r : Replies n) :
    Inv parties hS (l.advance X
      ((l.ends X).start r.handler (parties X).handle (parties X).draws true).state 0) := by
  have hidle := hl.idle hnone
  have hin := hl.inbound X
  rw [hidle.stage_eq] at hin
  obtain ⟨hend, hbuf⟩ := hidle.start r
  have hnew : l.ends X = .new X := hidle
  refine hl.advance (Nat.zero_le _) hend ?_ ?_
  · refine ⟨?_, by rw [hbuf]; exact Nat.zero_lt_succ 36⟩
    rw [hbuf, List.drop_zero, ← hin.1, hnew]
    rfl
  · refine Grows.of_lt (b := keyMessage S parties X) ?_ hend.1.frames ?_ ?_
    · rw [hnew]; rfl
    · rw [hend.1.appended, hnew]; rfl
    · rw [hnew]; exact Nat.zero_lt_succ 97

theorem Inv.opened (hl : Inv parties hS l) (hlog : (l.ends X).log.any Callback.isEstablished) :
    Endpoint n parties hS X .opened (l.ends X) := by
  have hend := hl.endpoint X
  rcases hst : stage (l.ends X) <;> rw [hst] at hend
  · rw [show l.ends X = _ from hend] at hlog
    cases hlog
  · rw [hend.1.log] at hlog
    cases hlog
  · rw [hend.1.log] at hlog
    cases hlog
  · exact hend

theorem Inv.send (hl : Inv parties hS l) (hlog : (l.ends X).log.any Callback.isEstablished)
    (m : ValidFrame n) : Inv parties hS (l.advance X ((l.ends X).appCall m.call) 0) := by
  have hend := hl.opened hlog
  have hend' := hend.appCall m
  have hin := hl.inbound X
  rw [hend.stage_eq] at hin
  obtain ⟨hlen, done, todo, hms, hholds, hset, hrest⟩ := hin
  have hsame := Session.sameRecv_appCall (l.ends X) m.call
  refine hl.advance (Nat.zero_le _) hend' ?_ ?_
  · refine ⟨hlen, done, todo, hms, ⟨?_, hsame.log.trans hholds.log, rfl⟩, ?_, ?_⟩
    · exact (Session.protocol_appCall (Session.encodes_rx (secureProtocol_framedBy S n)) _ _).trans
        hholds.protocol
    · rw [hsame.recvBuf]; exact hset
    · rw [hsame.recvBuf, List.drop_zero]; exact hrest
  · exact Grows.of_stream hend.1.appended hend'.1.appended
      ((Session.stable_sent (l.ends X).sent).call m.call List.prefix_rfl)

/-- A peer that is open has read the second handshake message. -/
theorem Inv.length_of_opened (hl : Inv parties hS l) (h : stage (l.ends X) = .opened) :
    98 ≤ (l.ends (!X)).appended.length := by
  have hin := hl.inbound X
  rw [h] at hin
  exact hin.1

/-- While a side waits for the key, its peer has sent no frame. -/
theorem Inv.length_of_waitKey (hl : Inv parties hS l) (h : stage (l.ends X) = .waitKey) :
    (l.ends (!X)).appended.length ≤ 98 := by
  have hend : Endpoint n parties hS X .waitKey (l.ends X) := h ▸ hl.endpoint X
  have hpeer := hl.endpoint (!X)
  rcases hst : stage (l.ends (!X)) <;> rw [hst] at hpeer
  · rw [show l.ends (!X) = _ from hpeer]
    exact Nat.zero_le _
  · rw [hpeer.1.appended, length_keyMessage]
    decide
  · rw [hpeer.1.appended, stream_nil, List.length_append, length_keyMessage, length_nonceMessage]
  · have := hl.length_of_opened hst
    rw [Bool.not_not, hend.1.appended, length_keyMessage] at this
    omega

theorem Inv.deliver (hl : Inv parties hS l) (hpending : (l.ends X).recvPending = true)
    (hk : k ≤ (l.pipe (!X)).length) (r : Replies n) :
    Inv parties hS
      (l.advance X ((l.ends X).handleRecv r.handler ((l.pipe (!X)).take k)).state k) := by
  have hend := hl.endpoint X
  have hpeer := hl.endpoint (!X)
  have hin := hl.inbound X
  have hmono := (Session.stable_sent (l.ends X).sent).handleRecv List.prefix_rfl r.handler
    ((l.pipe (!X)).take k)
  rw [← List.take_append_drop k (l.pipe (!X))] at hin
  rcases hst : stage (l.ends X) <;> rw [hst] at hend hin
  · -- no receive is outstanding before `start`
    rw [show l.ends X = _ from hend] at hpending
    cases hpending
  · have hlen := hl.length_of_waitKey hst
    rcases hpeer.handleRecv_waitKey hend hin r with
      ⟨hlt, hend', hout, hbuf⟩ | ⟨hle, hend', hout, hbuf⟩
    · refine hl.advance hk hend' ⟨hout, by rw [hbuf]; exact hlt⟩ ?_
      refine Grows.of_lt (b := []) hend.1.frames hend'.1.frames ?_ ?_
      · rw [hend'.1.appended, hend.1.appended, List.append_nil]
      · rw [hend.1.appended, length_keyMessage]
        decide
    · -- what is left behind the key is at most the nonce: the peer has sent no more
      refine hl.advance hk hend' ⟨hout, ?_⟩ ?_
      · have hsum := congrArg List.length hout
        rw [List.length_append, List.length_append, length_keyMessage] at hsum
        omega
      · refine Grows.of_lt (b := nonceMessage S parties X) hend.1.frames hend'.1.frames ?_ ?_
        · rw [hend'.1.appended, hend.1.appended, stream_nil]
        · rw [hend.1.appended, length_keyMessage]
          decide
  · -- the session opens if the nonce is complete, and frames behind it are
    -- received at once
    have hstream : (l.ends X).appended = stream n parties hS X (framesOf (l.ends X)) := by
      rw [hend.1.frames, hend.1.appended]
    rcases hpeer.handleRecv_waitNonce hend hin r with ⟨hlt, hend', hout, hbuf⟩ | ⟨hend', hin'⟩
    · refine hl.advance hk hend' ⟨hout, by rw [hbuf]; exact hlt.le⟩ ?_
      exact Grows.of_stream hstream (by rw [hend'.1.frames, hend'.1.appended]) hmono
    · exact hl.advance hk hend' hin' (Grows.of_stream hstream hend'.1.appended hmono)
  · have hend' := hend.1.handleRecv r ((l.pipe (!X)).take k)
    refine hl.advance hk hend' (hpeer.handleRecv_opened hin r) ?_
    exact Grows.of_stream hend.1.appended hend'.1.appended hmono

theorem Inv.step (hl : Inv parties hS l) {a : Step n} (h : step parties l a = some l') :
    Inv parties hS l' := by
  cases a with
  | start X r =>
      simp only [Link.step, Option.ite_none_right_eq_some, Option.some.injEq] at h
      rw [← h.2]
      exact hl.start h.1 r
  | deliver Y k r =>
      simp only [Link.step, Option.ite_none_right_eq_some, Option.some.injEq] at h
      rw [← h.2]
      exact hl.deliver h.1.1 h.1.2.2 r
  | send X m =>
      simp only [Link.step, Option.ite_none_right_eq_some, Option.some.injEq] at h
      rw [← h.2]
      exact hl.send h.1 m

theorem Inv.of_run {ls : List (Step n)} (h : runSteps (Link.step parties) (new S n) ls = some l) :
    Inv parties hS l :=
  runSteps_invariant (fun hl h => hl.step h) inv_new h

/-! ### Exactness -/

theorem filterMap_receives {T : Type} (fs : List (T × Bytes)) :
    (Session.receives fs).filterMap Callback.frame? = fs := by
  rw [Session.receives, List.filterMap_map]
  exact List.filterMap_some

/-- **The secure channel is exact.**  In every run, at every moment, the
frames given to the receiver are a prefix of those sent, and all of them once
no byte is on its way. -/
theorem received_prefix_sent {S : Sodium} (hS : S.Lawful) {n : ℕ} {parties : Bool → Party}
    {ls : List (Step n)} {l : Link S n}
    (hrun : runSteps (Link.step parties) (new S n) ls = some l) (X : Bool) :
    l.received (!X) <+: l.sent X ∧ (l.pipe X = [] → l.received (!X) = l.sent X) := by
  have hl : Inv parties hS l := Inv.of_run hrun
  have hend := hl.endpoint (!X)
  have hin := hl.inbound (!X)
  rw [Bool.not_not] at hin
  -- a side that is not open has received nothing, and is not sent anything that
  -- it does not open first
  have hquiet : (l.ends (!X)).log = [] → (l.pipe X = [] → (l.ends X).appended.length ≤ 98) →
      l.received (!X) <+: l.sent X ∧ (l.pipe X = [] → l.received (!X) = l.sent X) := by
    intro hlog hlen
    rw [received, hlog]
    refine ⟨List.nil_prefix, fun hpipe => ?_⟩
    rw [sent, (hl.endpoint X).frames_eq_nil (hlen hpipe)]
    rfl
  rcases hst : stage (l.ends (!X)) <;> rw [hst] at hend hin
  · obtain ⟨hout, hbuf⟩ := hin
    refine hquiet (by rw [show l.ends (!X) = _ from hend]; rfl) fun hpipe => ?_
    rw [← hout, hpipe, List.append_nil]
    omega
  · obtain ⟨hout, hbuf⟩ := hin
    refine hquiet hend.1.log fun hpipe => ?_
    rw [← hout, hpipe, List.append_nil]
    omega
  · obtain ⟨hout, hbuf⟩ := hin
    refine hquiet hend.1.log fun hpipe => ?_
    rw [← hout, hpipe, List.append_nil, List.length_append, Bool.not_not, length_keyMessage]
    omega
  · obtain ⟨hlen, done, todo, hms, hholds, hset, hrest⟩ := hin
    have hrecv : l.received (!X) = done.map (secureCodec hS n).image := by
      rw [received, hholds.log]
      exact filterMap_receives _
    have hsent : l.sent X = (done ++ todo).map (secureCodec hS n).image := by
      rw [sent, hms]
      rfl
    rw [hrecv, hsent]
    refine ⟨⟨todo.map (secureCodec hS n).image, by rw [List.map_append]⟩, fun hpipe => ?_⟩
    have hvalid := (hl.endpoint X).appended_eq hlen
    rw [hpipe, List.append_nil] at hrest
    rw [hrest] at hset
    have htodo : todo = [] :=
      (secureCodec hS n).eq_nil_of_settled (fun m hm => hvalid.2 m (by simp [hms, hm])) hset
    rw [htodo, List.append_nil]

/-- The two parties of the recorded exchange. -/
def recordedParties : Bool → Party
  | true => ⟨1, ⟨1, Recorded.serverNonce, 1⟩⟩
  | false => ⟨2, ⟨0, Recorded.clientNonce, 0⟩⟩

/-- The handshake, cut across its messages, then an encrypted, a plain and
another encrypted frame, read in two chunks. -/
def threeFrames : List (Step 2) :=
  let idle : Replies 2 := fun _ => []
  [.start true idle, .start false idle, .deliver false 37 idle, .deliver true 40 idle,
    .deliver true 58 idle, .send true ⟨(7, [1, 2, 3], true), by decide⟩, .deliver false 70 idle,
    .send true ⟨(8, [4], false), by decide⟩, .send true ⟨(7, [5], true), by decide⟩,
    .deliver false 17 idle]

theorem received_threeFrames :
    ∃ l : Link .recorded 2, runSteps (Link.step recordedParties) (new .recorded 2) threeFrames
        = some l ∧
      l.sent true = [(7, [1, 2, 3]), (8, [4]), (7, [5])] ∧ l.received false = l.sent true := by
  have hend : (runSteps (Link.step recordedParties) (new .recorded 2) threeFrames).map
      (fun l => (l.sent true, l.pipe true)) = some ([(7, [1, 2, 3]), (8, [4]), (7, [5])], []) := by
    decide +kernel
  obtain ⟨l, hrun, hl⟩ := Option.map_eq_some_iff.mp hend
  obtain ⟨hsent, hpipe⟩ := Prod.mk.inj hl
  exact ⟨l, hrun, hsent, (received_prefix_sent Sodium.recorded_lawful hrun true).2 hpipe⟩

end Link

end Play
