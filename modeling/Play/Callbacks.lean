/-
Play/Callbacks.lean

The callbacks of a session are well ordered: at most one `on_established`,
then `on_receive`s, then at most one `on_closed`, and nothing after it.

Three flags in three places decide which callback may come next: the
protocol object knows whether it is established and whether it was closed,
the socket knows whether it is open, and whether a receive can complete at
all depends on an `async_receive` being outstanding.  `CallbackInv` ties the
log to them:

* after `on_closed` the socket is closed and the protocol object is closed,
  so that a receive that completes late neither delivers a frame nor
  establishes the session again;
* after `on_established` the protocol object is established or closed, so
  that the handshake branch is never taken twice with success;
* while a receive is outstanding, an established protocol has been announced.

The theorem is for any protocol that meets `Protocol.Lawful`; the three
protocols of the library do.
-/
import Play.Session

namespace Play

/-! ### Well-ordered logs -/

/-- The log with `on_established` if `e`, then the frames `fs`, then
`on_closed` if `c`. -/
def logOf {T : Type} (e : Bool) (fs : List (T × Bytes)) (c : Bool) : List (Callback T) :=
  (if e then [.established] else []) ++ fs.map (fun f => .receive f.1 f.2) ++
    if c then [.closed] else []

/-- At most one `on_established`, then `on_receive`s, none of them without
it, then at most one `on_closed`. -/
def WellOrdered {T : Type} (log : List (Callback T)) : Prop :=
  ∃ e fs c, log = logOf e fs c ∧ (fs ≠ [] → e = true)

section

variable {T : Type} {log : List (Callback T)}

theorem WellOrdered.nil : WellOrdered ([] : List (Callback T)) :=
  ⟨false, [], false, rfl, fun h => absurd rfl h⟩

theorem established_mem_logOf {e c : Bool} {fs : List (T × Bytes)} :
    .established ∈ logOf e fs c ↔ e = true := by
  cases e <;> cases c <;> simp [logOf]

theorem closed_mem_logOf {e c : Bool} {fs : List (T × Bytes)} :
    .closed ∈ logOf e fs c ↔ c = true := by
  cases e <;> cases c <;> simp [logOf]

theorem WellOrdered.receive (h : WellOrdered log) (he : .established ∈ log)
    (hc : .closed ∉ log) (t : T) (d : Bytes) : WellOrdered (log ++ [.receive t d]) := by
  obtain ⟨e, fs, c, rfl, -⟩ := h
  obtain rfl := established_mem_logOf.mp he
  obtain rfl : c = false := by simpa [closed_mem_logOf] using hc
  exact ⟨true, fs ++ [(t, d)], false, by simp [logOf], fun _ => rfl⟩

theorem WellOrdered.closed (h : WellOrdered log) (hc : .closed ∉ log) :
    WellOrdered (log ++ [.closed]) := by
  obtain ⟨e, fs, c, rfl, hfs⟩ := h
  obtain rfl : c = false := by simpa [closed_mem_logOf] using hc
  exact ⟨e, fs, true, by simp [logOf], hfs⟩

/-- A log without `on_established` and `on_closed` is empty. -/
theorem WellOrdered.eq_nil (h : WellOrdered log) (he : .established ∉ log)
    (hc : .closed ∉ log) : log = [] := by
  obtain ⟨e, fs, c, rfl, hfs⟩ := h
  obtain rfl : e = false := by simpa [established_mem_logOf] using he
  obtain rfl : c = false := by simpa [closed_mem_logOf] using hc
  have : fs = [] := by
    by_contra hne
    exact Bool.false_ne_true (hfs hne)
  simp [logOf, this]

end

namespace Session

variable {P : Protocol}

/-! ### The invariant -/

/-- The two flags of the protocol object: closed, established. -/
def flags (s : Session P) : Option (Bool × Bool) :=
  s.protocol.map fun p => (P.isClosed p, P.isEstablished p)

/-- Before `start` nothing is outstanding and nothing was called. -/
structure Unstarted (s : Session P) : Prop where
  protocol : s.protocol = none
  log : s.log = []
  recvPending : s.recvPending = false
  sendPending : s.sendPending = none

/-- What the log of a started session says about the socket and the protocol
object. -/
structure CallbackInv (s : Session P) : Prop where
  started : s.protocol ≠ none
  ordered : WellOrdered s.log
  afterClosed : .closed ∈ s.log → s.isOpen = false ∧ ∃ e, s.flags = some (true, e)
  afterEstablished : .established ∈ s.log →
    (∃ e, s.flags = some (true, e)) ∨ ∃ c, s.flags = some (c, true)
  announced : s.recvPending = true → ∀ {c}, s.flags = some (c, true) → .established ∈ s.log

variable {s s' : Session P}

theorem flags_appCall (hP : P.Lawful) (s : Session P) (c : AppCall P.Topic) :
    (s.appCall c).flags = s.flags :=
  protocol_appCall (fun p t d e => by rw [hP.isClosed_encode, hP.isEstablished_encode]) s c

theorem flags_eq_none : s.flags = none ↔ s.protocol = none := by
  simp [flags]

/-- The invariant survives every change that keeps the log, the outstanding
receive and the flags and does not open the socket. -/
theorem CallbackInv.of_same (hs : CallbackInv s) (hrecv : SameRecv s s')
    (hflags : s'.flags = s.flags) (hopen : s'.isOpen = true → s.isOpen = true) :
    CallbackInv s' := by
  have hlog := hrecv.log
  refine ⟨?_, hlog ▸ hs.ordered, ?_, ?_, ?_⟩
  · rw [Ne, ← flags_eq_none, hflags, flags_eq_none]
    exact hs.started
  · intro h
    rw [hlog] at h
    obtain ⟨h₁, h₂⟩ := hs.afterClosed h
    refine ⟨?_, hflags ▸ h₂⟩
    by_contra ho
    rw [hopen (by simpa using ho)] at h₁
    cases h₁
  · intro h
    rw [hlog] at h
    rw [hflags]
    exact hs.afterEstablished h
  · intro hp c hc
    rw [hrecv.recvPending] at hp
    rw [hflags] at hc
    rw [hlog]
    exact hs.announced hp hc

theorem CallbackInv.appCall (hP : P.Lawful) (c : AppCall P.Topic) (hs : CallbackInv s) :
    CallbackInv (s.appCall c) :=
  hs.of_same (sameRecv_appCall s c) (flags_appCall hP s c) isOpen_of_appCall

/-! ### Receiving -/

/-- The session is established, announced and not closed: frames may be
delivered. -/
structure Receiving (s : Session P) : Prop where
  ordered : WellOrdered s.log
  established : .established ∈ s.log
  notClosed : .closed ∉ s.log
  flags : s.flags = some (false, true)

theorem Receiving.callbackInv (hs : Receiving s) : CallbackInv s := by
  refine ⟨?_, hs.ordered, fun h => absurd h hs.notClosed, fun _ => .inr ⟨false, hs.flags⟩,
    fun _ _ _ => hs.established⟩
  intro h
  rw [← flags_eq_none, hs.flags] at h
  cases h

theorem Receiving.of_same (hs : Receiving s) (hlog : s'.log = s.log)
    (hflags : s'.flags = s.flags) : Receiving s' := by
  refine ⟨?_, ?_, ?_, hflags.trans hs.flags⟩ <;> rw [hlog]
  · exact hs.ordered
  · exact hs.established
  · exact hs.notClosed

theorem Receiving.appCall (hP : P.Lawful) (c : AppCall P.Topic) (hs : Receiving s) :
    Receiving (s.appCall c) :=
  hs.of_same (sameRecv_appCall s c).log (flags_appCall hP s c)

theorem Receiving.notify (hP : P.Lawful) (hs : Receiving s) (h : Handler P.Topic) (t : P.Topic)
    (d : Bytes) : Receiving (notify h (.receive t d) s).state := by
  refine notify_invariant (Receiving.appCall hP) ⟨?_, ?_, ?_, hs.flags⟩
  · exact hs.ordered.receive hs.established hs.notClosed t d
  · simp [hs.established]
  · simp [hs.notClosed]

theorem Receiving.recvFramesTurn (hP : P.Lawful) (hs : Receiving s) (h : Handler P.Topic) :
    Receiving (recvFramesTurn h s).state := by
  -- decoding keeps the flags, whether it throws or not
  have hdec : ∀ p p' x, s.protocol = some p → P.decode p s.recvBuf = (p', x) →
      (P.isClosed p', P.isEstablished p') = (false, true) := by
    intro p p' x hp hd
    have hfl := hs.flags
    rw [Session.flags, hp, Option.map_some, Option.some.injEq] at hfl
    rw [← hfl, ← hP.isClosed_decode p s.recvBuf, ← hP.isEstablished_decode p s.recvBuf, hd]
  rcases recvFramesTurn_cases h s with ⟨-, ht⟩ | ⟨p, p', hp, -, ⟨e, hd, ht⟩ | ⟨r, hd, hr⟩⟩
  · rw [ht]; exact hs
  · rw [ht]
    exact ⟨hs.ordered, hs.established, hs.notClosed, congrArg some (hdec p p' _ hp hd)⟩
  · have hset : Receiving { s with protocol := some p', recvBuf := r.src } :=
      ⟨hs.ordered, hs.established, hs.notClosed, congrArg some (hdec p p' _ hp hd)⟩
    have hn := hset.notify hP h r.topic r.frame
    rcases hr with ⟨-, ht⟩ | ⟨-, s₁, hs₁, ht⟩ | ⟨-, s₁, hs₁, ht⟩ <;> rw [ht]
    · exact hset
    · rw [hs₁] at hn
      exact hn.appCall hP .close
    · rw [hs₁] at hn
      exact hn.of_same rfl rfl

theorem Receiving.recvFramesLoop (hP : P.Lawful) (hs : Receiving s) (h : Handler P.Topic)
    (k : ℕ) : Receiving (recvFramesLoop h k s) := by
  induction k generalizing s with
  | zero => exact hs
  | succ k ih =>
      have ht := hs.recvFramesTurn hP h
      rw [Session.recvFramesLoop]
      rcases hturn : Session.recvFramesTurn h s with s' | s' <;> rw [hturn] at ht
      · exact ih ht
      · exact ht

/-! ### The steps -/

theorem isOpen_of_sendHandshake {b : Bytes} (h : (s.sendHandshake b).isOpen = true) :
    s.isOpen = true := by
  unfold sendHandshake at h
  split at h
  · exact isOpen_of_appCall (c := .sendRaw b) h
  · exact h

theorem isClosed_of_isEstablished (hP : P.Lawful) {p : P.State}
    (hest : P.isEstablished p = true) : P.isClosed p = false := by
  by_contra hc
  rw [hP.not_isEstablished (by simpa using hc)] at hest
  cases hest

/-- `on_established` on an empty log. -/
theorem Receiving.first (hP : P.Lawful) {p : P.State} (hlog : s.log = [])
    (hp : s.protocol = some p) (hest : P.isEstablished p = true) (h : Handler P.Topic) :
    Receiving (Session.notify h .established s).state := by
  have hflags : s.flags = some (false, true) := by
    simp [Session.flags, hp, hest, isClosed_of_isEstablished hP hest]
  refine notify_invariant (Receiving.appCall hP) ⟨?_, ?_, ?_, hflags⟩ <;> simp only [hlog]
  · exact ⟨true, [], false, rfl, fun _ => rfl⟩
  · simp
  · simp

theorem CallbackInv.handleClose (hP : P.Lawful) (hs : CallbackInv s) (h : Handler P.Topic) :
    CallbackInv (s.handleClose h).state := by
  unfold Session.handleClose
  split
  swap
  · exact hs
  next hopen =>
  -- `on_closed` came with a closed socket, so it has not come yet
  have hnot : .closed ∉ s.log := by
    intro hc
    rw [(hs.afterClosed hc).1] at hopen
    cases hopen
  obtain ⟨p, hp⟩ := Option.ne_none_iff_exists'.mp hs.started
  rw [close_eq]
  refine notify_invariant (CallbackInv.appCall hP) ?_
  have hflags : ∃ e, (s.protocol.map P.closed).map (fun p => (P.isClosed p, P.isEstablished p))
      = some (true, e) := ⟨P.isEstablished (P.closed p), by simp [hp, hP.isClosed_closed]⟩
  refine ⟨by simp [hp], hs.ordered.closed hnot, fun _ => ⟨rfl, hflags⟩, fun _ => .inl hflags, ?_⟩
  intro _ c hc
  have hnot := hP.not_isEstablished (hP.isClosed_closed p)
  simp [Session.flags, hp, hnot] at hc

/-- A session that has not called back yet, with a protocol object that is
not established if a receive is outstanding. -/
theorem CallbackInv.quiet {p : P.State} (hlog : s.log = []) (hp : s.protocol = some p)
    (hest : s.recvPending = true → P.isEstablished p = false) : CallbackInv s := by
  refine ⟨by simp [hp], hlog ▸ .nil, by simp [hlog], by simp [hlog], ?_⟩
  intro hr c hc
  simp [Session.flags, hp, hest hr] at hc

theorem Unstarted.start (hP : P.Lawful) (hs : Unstarted s) (h : Handler P.Topic) (handle : ℕ)
    (e : P.Entropy) (peer : Bool) : CallbackInv (s.start h handle e peer).state := by
  have hsame := sameRecv_sendHandshake
    { s with handle, protocol := some (s.openProtocol handle e).1 } (s.openProtocol handle e).2
  have hlog' : (s.launch handle e).log = [] := hsame.log.trans hs.log
  have hpend' : (s.launch handle e).recvPending = false := hsame.recvPending.trans hs.recvPending
  rcases start_cases h s handle e peer with hr | ⟨hest, hr⟩ | ⟨hest, hr⟩ <;> rw [hr]
  · exact .quiet hlog' (protocol_launch s handle e)
      (fun h => by rw [Outcome.state_threw, hpend'] at h; cases h)
  · exact (Receiving.first hP (s := (s.launch handle e).startRecv) hlog'
      (protocol_launch s handle e) hest h).callbackInv
  · exact .quiet (s := (s.launch handle e).startRecv) hlog' (protocol_launch s handle e)
      fun _ => hest

/-- A handshake that does not establish the session. -/
theorem CallbackInv.handshake {p p' : P.State} (hs : CallbackInv s)
    (hp : s.protocol = some p) (hest : P.isEstablished p = false)
    (hcl : P.isClosed p' = P.isClosed p) (b : Bytes) {r : Bool}
    (hr : r = true → P.isEstablished p' = false) :
    CallbackInv { s with protocol := some p', recvBuf := b, recvPending := r } := by
  have hfl : s.flags = some (P.isClosed p, P.isEstablished p) := by simp [Session.flags, hp]
  refine ⟨fun hn => by (cases hn), hs.ordered, ?_, ?_, ?_⟩
  · intro hc
    obtain ⟨ho, e, he⟩ := hs.afterClosed hc
    rw [hfl, Option.some.injEq, Prod.mk.injEq] at he
    exact ⟨ho, P.isEstablished p', by simp [Session.flags, hcl, he.1]⟩
  · intro hc
    rcases hs.afterEstablished hc with ⟨e, he⟩ | ⟨c, he⟩ <;>
      rw [hfl, Option.some.injEq, Prod.mk.injEq] at he
    · exact .inl ⟨P.isEstablished p', by simp [Session.flags, hcl, he.1]⟩
    · rw [hest] at he
      cases he.2
  · intro hr' c hc
    simp [Session.flags, hr hr'] at hc

theorem CallbackInv.handleRecv (hP : P.Lawful) (hs : CallbackInv s) (hpend : s.recvPending = true)
    (h : Handler P.Topic) (chunk : Bytes) : CallbackInv (s.handleRecv h chunk).state := by
  rcases hp : s.protocol with - | p
  · exact absurd hp hs.started
  have hfl : s.flags = some (P.isClosed p, P.isEstablished p) := by simp [Session.flags, hp]
  have hnotClosed : P.isClosed p = false → .closed ∉ s.log := by
    intro hcl hc
    obtain ⟨-, e, he⟩ := hs.afterClosed hc
    simp [hfl, hcl] at he
  have hclosed : ∀ {p' x}, P.handshake p (s.recvBuf ++ chunk) = (p', x) →
      P.isClosed p' = P.isClosed p := by
    intro p' x hh
    rw [← hP.isClosed_handshake p (s.recvBuf ++ chunk), hh]
  rcases handleRecv_cases h hp chunk with ⟨hest, hr⟩ |
    ⟨hest, p', ⟨e, hh, hr⟩ | ⟨n, buf, hh, ⟨hnow, hr⟩ | ⟨hnow, hr⟩⟩⟩ <;> rw [hr]
  · -- established: the log has `on_established` and not `on_closed`
    have hcl := isClosed_of_isEstablished hP hest
    have hrecv : Receiving (s.commitRecv chunk) :=
      ⟨hs.ordered, hs.announced hpend (hest ▸ hfl), hnotClosed hcl, by
        show s.flags = _
        rw [hfl, hest, hcl]⟩
    exact ((hrecv.recvFramesLoop hP h _).of_same rfl rfl :
      Receiving ((s.commitRecv chunk).recvFrames h).startRecv).callbackInv
  · -- the handshake threw, and no receive is outstanding
    exact hs.handshake hp hest (hclosed hh) _ (r := false) (by simp)
  · -- established just now: nothing was logged before
    have hcl : P.isClosed p = false :=
      (hclosed hh).symm.trans (isClosed_of_isEstablished hP hnow)
    have hnil : s.log = [] := by
      refine hs.ordered.eq_nil ?_ (hnotClosed hcl)
      intro hc
      rcases hs.afterEstablished hc with ⟨e, he⟩ | ⟨c, he⟩ <;> simp [hfl, hcl, hest] at he
    have hsame := sameRecv_sendHandshake
      { s.commitRecv chunk with protocol := some p', recvBuf := (s.recvBuf ++ chunk).drop n } buf
    have hrecv := Receiving.first hP (s := (s.commitRecv chunk).takeHandshake p' n buf)
      (hsame.log.trans hnil) (protocol_takeHandshake _ _ _ _) hnow h
    rcases hn : Session.notify h .established ((s.commitRecv chunk).takeHandshake p' n buf)
      with s₂ | s₂ <;> rw [hn] at hrecv
    · exact ((hrecv.recvFramesLoop hP h _).of_same rfl rfl :
        Receiving (s₂.recvFrames h).startRecv).callbackInv
    · exact hrecv.callbackInv
  · -- the handshake goes on
    have hk := hs.handshake hp hest (hclosed hh) ((s.recvBuf ++ chunk).drop n) (r := true)
      fun _ => hnow
    have hsame := sameRecv_sendHandshake
      { s.commitRecv chunk with protocol := some p', recvBuf := (s.recvBuf ++ chunk).drop n } buf
    refine hk.of_same ⟨hsame.log, hsame.recvBuf, rfl⟩ ?_ isOpen_of_sendHandshake
    show ((s.commitRecv chunk).takeHandshake p' n buf).protocol.map _ = _
    rw [protocol_takeHandshake]
    rfl

theorem CallbackInv.step (hP : P.Lawful) {l : Step P} (hs : CallbackInv s)
    (hstep : s.step l = some s') : CallbackInv s' := by
  cases l with
  | start h handle e peer =>
      simp only [Session.step, Option.ite_none_right_eq_some, Option.some.injEq] at hstep
      exact absurd (by simpa using hstep.1) hs.started
  | recvDone h chunk =>
      simp only [Session.step, Option.ite_none_right_eq_some, Option.some.injEq] at hstep
      rw [← hstep.2]
      exact hs.handleRecv hP hstep.1.1 h chunk
  | recvFailed h =>
      simp only [Session.step, Option.ite_none_right_eq_some, Option.some.injEq] at hstep
      rw [← hstep.2]
      have hoff : CallbackInv { s with recvPending := false } :=
        ⟨hs.started, hs.ordered, hs.afterClosed, hs.afterEstablished, fun h => by (cases h)⟩
      exact hoff.handleClose hP h
  | sendDone len =>
      simp only [Session.step] at hstep
      split at hstep
      · cases hstep
      · simp only [Option.ite_none_right_eq_some, Option.some.injEq] at hstep
        rw [← hstep.2, handleSend]
        refine CallbackInv.of_same (s := s) hs ?_ ?_ ?_
        · refine SameRecv.trans ?_ (sameRecv_startSend _)
          exact ⟨rfl, rfl, rfl⟩
        · rw [startSend_eq]; rfl
        · rw [startSend_eq]; exact id
  | sendFailed h =>
      simp only [Session.step, Option.ite_none_right_eq_some, Option.some.injEq] at hstep
      rw [← hstep.2]
      have hoff : CallbackInv { s with sendPending := none } :=
        ⟨hs.started, hs.ordered, hs.afterClosed, hs.afterEstablished, hs.announced⟩
      exact hoff.handleClose hP h
  | app c =>
      simp only [Session.step, Option.ite_none_right_eq_some, Option.some.injEq] at hstep
      rw [← hstep.2]
      exact hs.appCall hP c

/-- The only step of a session that was not started is `start`. -/
theorem Unstarted.step (hP : P.Lawful) {l : Step P} (hs : Unstarted s)
    (hstep : s.step l = some s') : CallbackInv s' := by
  cases l with
  | start h handle e peer =>
      simp only [Session.step, Option.ite_none_right_eq_some, Option.some.injEq] at hstep
      rw [← hstep.2]
      exact hs.start hP h handle e peer
  | recvDone h chunk => simp [Session.step, hs.recvPending] at hstep
  | recvFailed h => simp [Session.step, hs.recvPending] at hstep
  | sendDone len => simp [Session.step, hs.sendPending] at hstep
  | sendFailed h => simp [Session.step, hs.sendPending] at hstep
  | app c => simp [Session.step, hs.protocol] at hstep

/-- In every run of a session the log is that of a session not yet started or
meets `CallbackInv`. -/
theorem callbackInv_of_run (hP : P.Lawful) {accepted : Bool} {ls : List (Step P)}
    (hrun : runSteps Session.step ({ accepted } : Session P) ls = some s) :
    Unstarted s ∨ CallbackInv s := by
  refine runSteps_invariant (I := fun s => Unstarted s ∨ CallbackInv s) ?_
    (.inl ⟨rfl, rfl, rfl, rfl⟩) hrun
  rintro s l s' (hs | hs) hstep
  · exact .inr (hs.step hP hstep)
  · exact .inr (hs.step hP hstep)

/-- The log of every run is well ordered, for any lawful protocol. -/
theorem wellOrdered_of_run (hP : P.Lawful) {accepted : Bool} {ls : List (Step P)}
    (hrun : runSteps Session.step ({ accepted } : Session P) ls = some s) :
    WellOrdered s.log := by
  rcases callbackInv_of_run hP hrun with hs | hs
  · rw [hs.log]; exact .nil
  · exact hs.ordered

end Session

/-! ### The three protocols -/

/-- The protocols that the library provides. -/
inductive IsLibraryProtocol : Protocol → Prop
  | stream : IsLibraryProtocol streamProtocol
  | plain (n : ℕ) : IsLibraryProtocol (plainProtocol n)
  | secure (S : Sodium) (n : ℕ) : IsLibraryProtocol (secureProtocol S n)

theorem IsLibraryProtocol.lawful {P : Protocol} (h : IsLibraryProtocol P) : P.Lawful := by
  cases h with
  | stream => exact streamProtocol_lawful
  | plain n => exact plainProtocol_lawful n
  | secure S n => exact secureProtocol_lawful S n

/-- **Callbacks are well ordered** in every run of a session with the stream,
the plain or the secure protocol: whatever completes in whatever order,
whatever the peer sends, and whatever the application does in its callbacks
or outside them. -/
theorem callbacks_wellOrdered {P : Protocol} (hP : IsLibraryProtocol P) (accepted : Bool)
    (ls : List (Session.Step P)) {s : Session P}
    (hrun : runSteps Session.step ({ accepted } : Session P) ls = some s) : WellOrdered s.log :=
  Session.wellOrdered_of_run hP.lawful hrun

/-- A plain session that receives a frame, fails to send and has a receive
complete after that. -/
def lateReceive : List (Session.Step (plainProtocol 2)) :=
  [.start (fun _ => {}) 5 () true, .recvDone (fun _ => {}) [7, 0, 1, 0, 0, 0, 9],
    .app (.sendRaw [1]), .sendFailed (fun _ => {}), .recvDone (fun _ => {}) [7, 0, 1, 0, 0, 0, 8]]

theorem wellOrdered_lateReceive :
    ∃ s, runSteps Session.step ({ accepted := true } : Session (plainProtocol 2)) lateReceive
        = some s ∧
      s.log = [.established, .receive (7 : BitVec 16) [9], .closed] ∧ WellOrdered s.log :=
  ⟨_, rfl, rfl, callbacks_wellOrdered (.plain 2) true lateReceive rfl⟩

end Play
