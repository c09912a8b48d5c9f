/-
Play/Backlog.lean

How much a session can be made to keep in its receive buffer.

`recv_frames` goes on until the decoder consumes nothing, so what is left of
the buffer is what the decoder waits with.  A protocol is `Bounded` if it only
waits with a buffer shorter than some bound; the stream protocol never waits,
and the secure protocol waits for at most the frame that its header announces,
whose length field has 32 bits.  (The plain protocol is not bounded: it waits
for ever behind a frame that announces no payload.)

From any peer the buffer of an established session then stays below the bound
(`backlog_lt`).  From a peer that runs the same code it stays below the longest
frame that `send` takes, through the handshake as well (`Link.recvBuf_lt`).
-/
import Play.Channel
import Play.Closing
import Play.SendPath

namespace Play

variable {P : Protocol} {B : ℕ}

/-- The decoder never lengthens the buffer, and consumes something of a buffer
of `B` bytes. -/
structure Protocol.Bounded (P : Protocol) (B : ℕ) : Prop where
  pos : 0 < B
  src_le : ∀ {p b p' r}, P.decode p b = (p', .ok r) → r.src.length ≤ b.length
  waits : ∀ {p b p' r}, P.decode p b = (p', .ok r) → r.consumed = 0 → r.src.length < B

/-- What the secure protocol answers when it does not throw. -/
theorem secureDecode_ok {S : Sodium} {n : ℕ} {p p' : SecureState} {b : Bytes}
    {r : DecodeResult (BitVec (8 * n))} (h : secureDecode S n p b = (p', .ok r)) :
    r.src.length = b.length ∧
      (r.consumed = 0 → b.length ≤ secureMinSize n ∨ b.length < secureLen n b + n + 5) := by
  unfold secureDecode at h
  dsimp only at h
  rw [lengthFieldSize, encFieldSize] at h
  by_cases hmin : b.length ≤ secureMinSize n
  · rw [if_pos hmin] at h
    cases h
    exact ⟨rfl, fun _ => .inl hmin⟩
  rw [if_neg hmin] at h
  by_cases htotal : b.length < secureLen n b + 4 + n + 1
  · rw [if_pos htotal] at h
    cases h
    exact ⟨rfl, fun _ => .inr (by omega)⟩
  rw [if_neg htotal] at h
  split at h
  · -- decrypted in place, at the same length
    split at h
    · cases h
    · next hs _ =>
        unfold SodiumHandshake.cipherDecode at h
        rcases hx : S.chacha20Xor ((b.drop (secureMinSize n)).take (secureLen n b)) hs.rxNonce
          hs.rxKey with - | body <;> rw [hx] at h
        · cases h
        · cases h
          have hbody := S.length_chacha20Xor hx
          rw [List.length_take, List.length_drop] at hbody
          refine ⟨?_, fun hzero => absurd hzero (by dsimp only; omega)⟩
          rw [secureMinSize, lengthFieldSize, encFieldSize] at *
          simp only [List.length_append, List.length_take, List.length_drop]
          omega
  · cases h
    exact ⟨rfl, fun hzero => absurd hzero (by dsimp only; omega)⟩

theorem secureProtocol_bounded (S : Sodium) (n : ℕ) :
    (secureProtocol S n).Bounded (2 ^ 32 + n + 5) where
  pos := by omega
  src_le h := (secureDecode_ok h).1.le
  waits := by
    intro p b p' r h hzero
    obtain ⟨hlen, hwait⟩ := secureDecode_ok h
    have hfield : secureLen n b < 2 ^ 32 := BitVec.isLt _
    rw [hlen]
    rcases hwait hzero with hmin | htotal
    · rw [secureMinSize, lengthFieldSize, encFieldSize] at hmin
      omega
    · omega

/-! ### One session, any peer -/

namespace Session

variable {s s' : Session P}

theorem isSome_notify (h : Handler P.Topic) (c : Callback P.Topic) (s : Session P) :
    (notify h c s).state.protocol.isSome = s.protocol.isSome := by
  have hkeep := protocol_notify (π := fun _ => ()) (fun _ _ _ _ => rfl) h c s
  rw [← Option.isSome_map (f := fun _ => ()), hkeep, Option.isSome_map]

/-- What `recv_frames` leaves: the decoder waits with it, unless the session
has been closed. -/
theorem recvFramesLoop_lt (hP : P.Bounded B) (h : Handler P.Topic) {k : ℕ} {s : Session P}
    (hk : s.recvBuf.length ≤ k) (hp : s.protocol.isSome = true)
    (hopen : (recvFramesLoop h k s).isOpen = true) : (recvFramesLoop h k s).recvBuf.length < B := by
  induction k generalizing s with
  | zero => exact hk.trans_lt hP.pos
  | succ k ih =>
      rw [recvFramesLoop] at hopen ⊢
      rcases recvFramesTurn_cases h s with
        ⟨hnil | hnone, ht⟩ | ⟨p, p', -, -, ⟨e, -, ht⟩ | ⟨r, hd, ⟨hzero, ht⟩ | ⟨-, s₁, -, ht⟩ |
          ⟨hpos, s₁, hs₁, ht⟩⟩⟩ <;> rw [ht] at hopen ⊢
      · show s.recvBuf.length < B
        rw [hnil]
        exact hP.pos
      · rw [hnone] at hp
        cases hp
      · cases hopen
      · exact hP.waits hd hzero
      · rw [close_eq] at hopen
        cases hopen
      · -- a frame was consumed: the buffer is shorter
        have hsame := sameRecv_notify h (.receive r.topic r.frame)
          { s with protocol := some p', recvBuf := r.src }
        rw [hs₁] at hsame
        have hbuf : s₁.recvBuf = r.src := hsame.recvBuf
        have hproto : s₁.protocol.isSome = true := by
          have hkeep := isSome_notify h (.receive r.topic r.frame)
            { s with protocol := some p', recvBuf := r.src }
          rw [hs₁] at hkeep
          exact hkeep
        refine ih ?_ hproto hopen
        show (s₁.recvBuf.drop r.consumed).length ≤ k
        have hle := hP.src_le hd
        rw [List.length_drop, hbuf]
        omega

/-- As long as the session receives, its buffer is short; before it starts, it
is empty, and no receive is outstanding. -/
structure Backlog (B : ℕ) (s : Session P) : Prop where
  fresh : s.protocol = none → s.recvBuf = []
  pending : s.recvPending = true → s.protocol.isSome = true
  short : s.recvPending = true → s.isEstablished = true → s.isOpen = true → s.recvBuf.length < B

/-- A session with a protocol object on which no receive is outstanding. -/
theorem Backlog.of_idle (hproto : s.protocol.isSome = true) (hpend : s.recvPending = false) :
    Backlog B s := by
  refine ⟨fun h => ?_, fun _ => hproto, fun h => ?_⟩
  · rw [h] at hproto
    cases hproto
  · rw [hpend] at h
    cases h

/-- A session with a protocol object whose buffer is short, if it is to go on. -/
theorem Backlog.of_short (hproto : s.protocol.isSome = true)
    (hshort : s.isEstablished = true → s.isOpen = true → s.recvBuf.length < B) : Backlog B s := by
  refine ⟨fun h => ?_, fun _ => hproto, fun _ => hshort⟩
  rw [h] at hproto
  cases hproto

/-- A session that has started stays so. -/
theorem stable_isSome : Stable fun s : Session P => s.protocol.isSome = true where
  set hs _ _ _ _ hkeep := hkeep hs
  log hs _ := hs
  call c hs := (isSome_appCall _ c).trans hs

theorem isEstablished_appCall (hP : P.Lawful) (s : Session P) (c : AppCall P.Topic) :
    (s.appCall c).isEstablished = s.isEstablished := by
  have hkeep := protocol_appCall (π := P.isEstablished) hP.isEstablished_encode s c
  have hest : ∀ s : Session P, s.isEstablished = (s.protocol.map P.isEstablished).getD false := by
    intro s
    rw [isEstablished]
    cases s.protocol <;> rfl
  rw [hest, hest, hkeep]

theorem Backlog.appCall (hP : P.Lawful) (hs : Backlog B s) (c : AppCall P.Topic) :
    Backlog B (s.appCall c) := by
  have hsame := sameRecv_appCall s c
  have hsome := isSome_appCall s c
  refine ⟨fun h => ?_, fun h => ?_, fun hpend hest hopen => ?_⟩
  · rw [h] at hsome
    rw [hsame.recvBuf]
    exact hs.fresh (Option.isNone_iff_eq_none.mp (by rw [← Option.not_isSome, ← hsome]; rfl))
  · rw [hsome]
    exact hs.pending (hsame.recvPending ▸ h)
  · rw [hsame.recvBuf]
    rw [hsame.recvPending] at hpend
    rw [isEstablished_appCall hP] at hest
    exact hs.short hpend hest (isOpen_of_appCall hopen)

/-- `recv_frames`, and the next receive. -/
theorem Backlog.recvFrames (hP : P.Bounded B) (h : Handler P.Topic)
    (hproto : s.protocol.isSome = true) : Backlog B (s.recvFrames h).startRecv := by
  have hloop : ((s.recvFrames h).startRecv).protocol.isSome = true :=
    stable_isSome.recvFramesLoop hproto h _
  exact .of_short hloop fun _ hopen => recvFramesLoop_lt hP h le_rfl hproto hopen

theorem Backlog.handleRecv (hP : P.Bounded B) (h : Handler P.Topic)
    (hproto : s.protocol.isSome = true) (chunk : Bytes) :
    Backlog B (s.handleRecv h chunk).state := by
  obtain ⟨p, hp⟩ := Option.isSome_iff_exists.mp hproto
  rcases handleRecv_cases h hp chunk with
    ⟨-, hr⟩ | ⟨-, p', ⟨e, -, hr⟩ | ⟨k, buf, -, ⟨-, hr⟩ | ⟨hest, hr⟩⟩⟩ <;> rw [hr]
  · exact .recvFrames hP h hproto
  · exact .of_idle rfl rfl
  · have htake := protocol_takeHandshake (s.commitRecv chunk) p' k buf
    have hpend : ((s.commitRecv chunk).takeHandshake p' k buf).recvPending = false :=
      (sameRecv_sendHandshake _ buf).recvPending
    have hsome := isSome_notify h .established ((s.commitRecv chunk).takeHandshake p' k buf)
    have hidle := (sameRecv_notify h .established
      ((s.commitRecv chunk).takeHandshake p' k buf)).recvPending
    rw [htake, Option.isSome_some] at hsome
    rcases hn : notify h .established ((s.commitRecv chunk).takeHandshake p' k buf)
      with s₁ | s₁ <;> rw [hn] at hsome hidle
    · exact .recvFrames hP h hsome
    · exact .of_idle hsome (hidle.trans hpend)
  · -- the handshake goes on
    have htake := protocol_takeHandshake (s.commitRecv chunk) p' k buf
    refine .of_short ?_ fun hest' => ?_
    · show ((s.commitRecv chunk).takeHandshake p' k buf).protocol.isSome = true
      rw [htake]
      rfl
    · change ((s.commitRecv chunk).takeHandshake p' k buf).protocol.elim false _ = true at hest'
      rw [htake, Option.elim_some, hest] at hest'
      cases hest'

theorem Backlog.notify (hP : P.Lawful) (hs : Backlog B s) (h : Handler P.Topic)
    (c : Callback P.Topic) : Backlog B (Session.notify h c s).state :=
  notify_invariant (fun c hs => hs.appCall hP c) ⟨hs.fresh, hs.pending, hs.short⟩

theorem Backlog.start (hP : P.Lawful) (hB : P.Bounded B) (hs : Backlog B s)
    (hnone : s.protocol = none) (h : Handler P.Topic) (handle : ℕ) (e : P.Entropy) (peer : Bool) :
    Backlog B (s.start h handle e peer).state := by
  have hbuf : (s.launch handle e).recvBuf = [] :=
    (sameRecv_sendHandshake _ _).recvBuf.trans (hs.fresh hnone)
  have hsome : (s.launch handle e).protocol.isSome = true := by
    rw [protocol_launch]
    rfl
  have hlaunch : Backlog B (s.launch handle e) :=
    .of_short hsome fun _ _ => by rw [hbuf]; exact hB.pos
  have hrecv : Backlog B (s.launch handle e).startRecv :=
    .of_short hsome fun _ _ => by
      show (s.launch handle e).recvBuf.length < B
      rw [hbuf]
      exact hB.pos
  rcases start_cases h s handle e peer with hr | ⟨-, hr⟩ | ⟨-, hr⟩ <;> rw [hr]
  · exact hlaunch
  · exact hrecv.notify hP h .established
  · exact hrecv

/-- A session that has been closed need not be looked at. -/
theorem Backlog.handleClose (hP : P.Lawful) (hs : Backlog B s) (h : Handler P.Topic) :
    Backlog B (s.handleClose h).state := by
  unfold Session.handleClose
  split
  · rw [close_eq]
    refine Backlog.notify hP ⟨fun hnone => ?_, fun hpend => ?_, fun _ _ hopen => ?_⟩ h .closed
    · exact hs.fresh (Option.map_eq_none_iff.mp hnone)
    · exact (Option.isSome_map ..).trans (hs.pending hpend)
    · cases hopen
  · exact hs

theorem Backlog.step (hP : P.Lawful) (hB : P.Bounded B) (hs : Backlog B s) {l : Step P}
    (hstep : s.step l = some s') : Backlog B s' := by
  cases l with
  | start h handle e peer =>
      simp only [Session.step, Option.ite_none_right_eq_some, Option.some.injEq] at hstep
      rw [← hstep.2]
      exact hs.start hP hB (Option.isNone_iff_eq_none.mp hstep.1) h handle e peer
  | recvDone h chunk =>
      simp only [Session.step, Option.ite_none_right_eq_some, Option.some.injEq] at hstep
      rw [← hstep.2]
      exact .handleRecv hB h (hs.pending hstep.1.1) chunk
  | recvFailed h =>
      simp only [Session.step, Option.ite_none_right_eq_some, Option.some.injEq] at hstep
      rw [← hstep.2]
      refine Backlog.handleClose (s := { s with recvPending := false }) hP ⟨hs.fresh, ?_, ?_⟩ h
      · exact fun hpend => absurd hpend Bool.false_ne_true
      · exact fun hpend => absurd hpend Bool.false_ne_true
  | sendDone len =>
      simp only [Session.step] at hstep
      split at hstep
      · cases hstep
      · simp only [Option.ite_none_right_eq_some, Option.some.injEq] at hstep
        rw [← hstep.2, handleSend, startSend_eq]
        exact ⟨hs.fresh, hs.pending, hs.short⟩
  | sendFailed h =>
      simp only [Session.step, Option.ite_none_right_eq_some, Option.some.injEq] at hstep
      rw [← hstep.2]
      exact Backlog.handleClose (s := { s with sendPending := none }) hP
        ⟨hs.fresh, hs.pending, hs.short⟩ h
  | app c =>
      simp only [Session.step, Option.ite_none_right_eq_some, Option.some.injEq] at hstep
      rw [← hstep.2]
      exact hs.appCall hP c

/-- **The backlog is bounded, whatever the peer sends.**  In every run of a
session with a bounded protocol, as long as the session is established and
receives, its receive buffer is shorter than the bound. -/
theorem backlog_lt (hP : P.Lawful) (hB : P.Bounded B) (accepted : Bool) {ls : List (Step P)}
    {s : Session P} (hrun : runSteps step (new accepted) ls = some s)
    (hpend : s.recvPending = true) (hest : s.isEstablished = true) (hopen : s.isOpen = true) :
    s.recvBuf.length < B := by
  have hnew : Backlog B (new accepted : Session P) :=
    ⟨fun _ => rfl, (nomatch ·), (nomatch ·)⟩
  exact (runSteps_invariant (fun hs h => hs.step hP hB h) hnew hrun).short hpend hest hopen

end Session

/-- **From any peer, a secure session keeps less than the longest frame that a
header can announce**, which is 4 GiB and the header. -/
theorem secure_backlog_lt (S : Sodium) (n : ℕ) (accepted : Bool)
    {ls : List (Session.Step (secureProtocol S n))} {s : Session (secureProtocol S n)}
    (hrun : runSteps Session.step (Session.new accepted) ls = some s)
    (hpend : s.recvPending = true) (hest : s.isEstablished = true) (hopen : s.isOpen = true) :
    s.recvBuf.length < 2 ^ 32 + n + 5 :=
  Session.backlog_lt (secureProtocol_lawful S n) (secureProtocol_bounded S n) accepted hrun hpend
    hest hopen

/-- The handshake of the recorded exchange, then the front of a frame that
announces the longest payload. -/
def announcedFrame : List (Session.Step (secureProtocol .recorded 2)) :=
  [.start Session.silent 1 ⟨1, Recorded.serverNonce, 1⟩ true,
    .recvDone Session.silent (Party.keyMessage .recorded Link.recordedParties false),
    .recvDone Session.silent (Party.nonceMessage .recorded Link.recordedParties false),
    .recvDone Session.silent [7, 0, 1, 255, 255, 255, 255, 9]]

theorem announcedFrame_backlog :
    ∃ s, runSteps Session.step (Session.new true) announcedFrame = some s ∧
      s.recvBuf.length = 8 ∧ s.recvBuf.length < 2 ^ 32 + 2 + 5 := by
  have hend : (runSteps Session.step (Session.new true) announcedFrame).map
      (fun s => (s.recvBuf.length, s.recvPending, s.isEstablished, s.isOpen))
        = some (8, true, true, true) := by
    decide +kernel
  obtain ⟨s, hrun, hs⟩ := Option.map_eq_some_iff.mp hend
  simp only [Prod.mk.injEq] at hs
  obtain ⟨hlen, hpend, hest, hopen⟩ := hs
  exact ⟨s, hrun, hlen, secure_backlog_lt .recorded 2 true hrun hpend hest hopen⟩

/-! ### An honest peer -/

/-- What is left of valid messages, once nothing can be taken, is shorter than
the longest of them. -/
theorem FrameCodec.length_lt_of_settled {ρ α β μ : Type*} (K : FrameCodec ρ α β μ) {r : ρ}
    {ms : List μ} {b c : List α} {L : ℕ} (hL : 0 < L) (hms : ∀ m ∈ ms, K.Valid m)
    (hlen : ∀ m ∈ ms, ∀ r, (K.encode r m).length ≤ L) (h : b ++ c = K.encodeAll r ms)
    (hset : K.Settled r b) : b.length < L := by
  cases ms with
  | nil =>
      obtain ⟨rfl, -⟩ := List.append_eq_nil_iff.mp h
      exact hL
  | cons m ms =>
      by_contra hge
      have hfirst : (K.encode r m).length ≤ b.length :=
        (hlen m List.mem_cons_self r).trans (by omega)
      obtain ⟨rest, hrest⟩ := List.prefix_of_prefix_length_le
        (List.prefix_append (K.encode r m) (K.encodeAll (K.next r m) ms)) ⟨c, h⟩ hfirst
      refine hset (K.encode r m).length (K.next r m) (K.image m) ?_
      rw [← hrest]
      exact K.decode_encode (hms m List.mem_cons_self) rest

namespace Link

variable {S : Sodium} {n : ℕ} {parties : Bool → Party} {l : Link S n}

/-- **From an honest peer, a session keeps less than the longest frame that
`send` takes**: in every run of the channel, at every moment, whatever the
chunks. -/
theorem recvBuf_lt {S : Sodium} (hS : S.Lawful) {n : ℕ} {parties : Bool → Party}
    {ls : List (Step n)} {l : Link S n}
    (hrun : runSteps (Link.step parties) (new S n) ls = some l) (Y : Bool) :
    (l.ends Y).recvBuf.length < maxSendSize + n + 5 := by
  have hl : Inv parties hS l := Inv.of_run hrun
  have hin := hl.inbound Y
  rcases hst : Party.stage (l.ends Y) <;> rw [hst] at hin
  · exact hin.2.trans (by rw [maxSendSize]; omega)
  · exact hin.2.trans (by rw [maxSendSize]; omega)
  · exact hin.2.trans_lt (by rw [maxSendSize]; omega)
  · obtain ⟨hlen, done, todo, hms, -, hset, hrest⟩ := hin
    obtain ⟨-, hvalid⟩ := (hl.endpoint (!Y)).appended_eq hlen
    rw [hms] at hvalid
    have hvalid : ∀ m ∈ todo, (secureCodec hS n).Valid m := fun m hm =>
      hvalid m (List.mem_append_right _ hm)
    refine (secureCodec hS n).length_lt_of_settled (by omega) hvalid ?_ hrest hset
    intro m hm r
    show (secureHeader n m.1 m.2.2 m.2.1.length ++ secureBody n S r m).length ≤ _
    have hmax := (hvalid m hm).2
    rw [List.length_append, length_secureHeader, length_secureBody hS, secureMinSize,
      lengthFieldSize, encFieldSize]
    omega

theorem recvBuf_threeFrames :
    ∃ l : Link .recorded 2, runSteps (Link.step recordedParties) (new .recorded 2)
        (threeFrames.take 7) = some l ∧
      (l.ends false).recvBuf.length = 9 ∧
      (l.ends false).recvBuf.length < maxSendSize + 2 + 5 := by
  have hend : (runSteps (Link.step recordedParties) (new .recorded 2) (threeFrames.take 7)).map
      (fun l => (l.ends false).recvBuf.length) = some 9 := by
    decide +kernel
  obtain ⟨l, hrun, hlen⟩ := Option.map_eq_some_iff.mp hend
  exact ⟨l, hrun, hlen, recvBuf_lt Sodium.recorded_lawful hrun false⟩

end Link

end Play
