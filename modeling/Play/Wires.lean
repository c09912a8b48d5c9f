/-
Play/Wires.lean

The link of Channel.lean, with its sockets.

In Channel.lean a pipe holds what a session ever appended for sending.  The
program appends to a buffer, hands a buffer to the socket, and goes on when the
socket reports how much was written; only what was written can arrive.  Here
the completion of a send is a step, and a receive takes bytes from what the
other side has written.

Nothing but the two buffers and the outstanding send tells the two systems
apart, and no call looks at these to decide anything else: sessions that are
`Alike` stay alike under every call.  So a run over sockets is followed by a
run over pipes (`follows`), in which the completions of sends are no steps at
all, as long as what is written is the first part of what was appended.  That
is the case as long as no completed send wrote only a part of its buffer
(SendPath.lean).
-/
import Play.SendPath
import Play.Stack

namespace Play

/-! ### Sessions that differ in what they are sending -/

/-- Two outcomes of the same kind, with related states. -/
inductive Outcome.Rel {σ : Type*} (R : σ → σ → Prop) : Outcome σ → Outcome σ → Prop
  | done {s s'} : R s s' → Rel R (.done s) (.done s')
  | threw {s s'} : R s s' → Rel R (.threw s) (.threw s')

theorem Outcome.Rel.state {σ : Type*} {R : σ → σ → Prop} {o o' : Outcome σ} (h : Rel R o o') :
    R o.state o'.state := by
  cases h <;> assumption

namespace Session

variable {P : Protocol}

/-- The members of a session for sending. -/
structure SendPart where
  sending : Bool
  accBufIndex : Fin 2
  sendBufs : Fin 2 → Bytes
  sendPending : Option (Fin 2 × ℕ)
  written : Bytes

/-- The session with other members for sending. -/
def withSend (s : Session P) (t : SendPart) : Session P :=
  { s with
    sending := t.sending
    accBufIndex := t.accBufIndex
    sendBufs := t.sendBufs
    sendPending := t.sendPending
    written := t.written }

/-- Two sessions that agree in everything but these members. -/
def Alike (s s' : Session P) : Prop :=
  ∃ t, s' = s.withSend t

/-- Two turns of the same kind, with sessions that are alike. -/
inductive Turn.Alike : Turn (Session P) → Turn (Session P) → Prop
  | next {s s'} : s.Alike s' → Alike (.next s) (.next s')
  | exit {s s'} : s.Alike s' → Alike (.exit s) (.exit s')

variable {s s' s'' : Session P}

theorem Alike.refl (s : Session P) : s.Alike s :=
  ⟨⟨s.sending, s.accBufIndex, s.sendBufs, s.sendPending, s.written⟩, rfl⟩

theorem Alike.symm (h : s.Alike s') : s'.Alike s := by
  obtain ⟨t, rfl⟩ := h
  exact ⟨⟨s.sending, s.accBufIndex, s.sendBufs, s.sendPending, s.written⟩, rfl⟩

theorem Alike.trans (h : s.Alike s') (h' : s'.Alike s'') : s.Alike s'' := by
  obtain ⟨t, rfl⟩ := h
  obtain ⟨t', rfl⟩ := h'
  exact ⟨t', rfl⟩

/-- A function that leaves the members for sending alone. -/
theorem Alike.map {f : Session P → Session P} (hf : ∀ s t, f (s.withSend t) = (f s).withSend t)
    (h : s.Alike s') : (f s).Alike (f s') := by
  obtain ⟨t, rfl⟩ := h
  exact ⟨t, hf s t⟩

theorem alike_startSend (s : Session P) : s.Alike s.startSend :=
  ⟨⟨s.startSend.sending, s.startSend.accBufIndex, s.sendBufs, s.startSend.sendPending, s.written⟩,
    startSend_eq s⟩

/-- A completed send moves bytes out of the buffers, no more. -/
theorem alike_sendDone (s : Session P) (index : Fin 2) (len : ℕ) :
    s.Alike ((s.write index len).handleSend len) := by
  rw [handleSend]
  refine Alike.trans ?_ (alike_startSend _)
  exact ⟨⟨false, s.accBufIndex, Function.update s.sendBufs (s.accBufIndex ^^^ 1)
    ((s.sendBufs (s.accBufIndex ^^^ 1)).drop len), none,
    s.written ++ (s.sendBufs index).take len⟩, rfl⟩

theorem Alike.close (h : s.Alike s') : s.close.Alike s'.close := by
  apply h.map
  intro s t
  rw [close_eq, close_eq]
  rfl

/-- Bytes are appended; a send may start or not. -/
theorem Alike.append (h : s.Alike s') (b : Bytes) :
    Alike (if !(s.appendAcc b).sending then (s.appendAcc b).startSend else s.appendAcc b)
      (if !(s'.appendAcc b).sending then (s'.appendAcc b).startSend else s'.appendAcc b) := by
  have hstart : ∀ s : Session P, s.Alike (if !s.sending then s.startSend else s) := by
    intro s
    split
    · exact alike_startSend s
    · exact .refl s
  have happ : (s.appendAcc b).Alike (s'.appendAcc b) := by
    obtain ⟨t, rfl⟩ := h
    exact ⟨⟨t.sending, t.accBufIndex,
      Function.update t.sendBufs t.accBufIndex (t.sendBufs t.accBufIndex ++ b), t.sendPending,
      t.written⟩, rfl⟩
  exact ((hstart _).symm.trans happ).trans (hstart _)

theorem Alike.sendRaw (h : s.Alike s') (b : Bytes) : (s.sendRaw b).Alike (s'.sendRaw b) := by
  have hopen : s'.isOpen = s.isOpen := by
    obtain ⟨t, rfl⟩ := h
    rfl
  rw [Session.sendRaw, Session.sendRaw, hopen]
  split
  · exact h
  · exact h.append b

theorem Alike.send (h : s.Alike s') (pic : P.Topic) (d : Bytes) (e : Bool) :
    (s.send pic d e).1.Alike (s'.send pic d e).1 := by
  obtain ⟨t, rfl⟩ := h
  have hask : ({ s with sent := s.sent ++ [(pic, d, e)] } : Session P).Alike
      { s.withSend t with sent := s.sent ++ [(pic, d, e)] } := ⟨t, rfl⟩
  unfold Session.send
  dsimp only
  by_cases hopen : (!s.isOpen) = true
  · rw [if_pos hopen, if_pos (show (!(s.withSend t).isOpen) = true from hopen)]
    exact hask
  rw [if_neg hopen, if_neg (show ¬ (!(s.withSend t).isOpen) = true from hopen)]
  by_cases hmax : P.maxSendSize ≤ d.length
  · rw [if_pos hmax, if_pos hmax]
    exact hask
  rw [if_neg hmax, if_neg hmax]
  by_cases hempty : d.length = 0
  · rw [if_pos hempty, if_pos hempty]
    exact hask
  rw [if_neg hempty, if_neg hempty]
  rcases hp : s.protocol with - | p
  · simp only [show (s.withSend t).protocol = none from hp]
    exact ⟨t, rfl⟩
  simp only [show (s.withSend t).protocol = some p from hp]
  have hset : ∀ p', ({ s with sent := s.sent ++ [(pic, d, e)], protocol := some p' } :
      Session P).Alike { s.withSend t with sent := s.sent ++ [(pic, d, e)], protocol := some p' } :=
    fun p' => ⟨t, rfl⟩
  rcases P.encode p pic d e with ⟨p', err | bytes⟩
  · exact (hset p').close
  · exact (hset p').append bytes

theorem Alike.appCall (h : s.Alike s') (c : AppCall P.Topic) :
    (s.appCall c).Alike (s'.appCall c) := by
  cases c with
  | sendRaw b => exact h.sendRaw b
  | send pic d e => exact h.send pic d e
  | close => exact h.close

theorem Alike.sendHandshake (h : s.Alike s') (b : Bytes) :
    (s.sendHandshake b).Alike (s'.sendHandshake b) := by
  rw [Session.sendHandshake, Session.sendHandshake]
  split
  · exact h.sendRaw b
  · exact h

theorem Alike.foldl (h : s.Alike s') (cs : List (AppCall P.Topic)) :
    (cs.foldl Session.appCall s).Alike (cs.foldl Session.appCall s') := by
  induction cs generalizing s s' with
  | nil => exact h
  | cons c cs ih => exact ih (h.appCall c)

/-- The application sees the callbacks only, so it does the same. -/
theorem Alike.notify (h : s.Alike s') (hd : Handler P.Topic) (c : Callback P.Topic) :
    Outcome.Rel Alike (Session.notify hd c s) (Session.notify hd c s') := by
  obtain ⟨t, rfl⟩ := h
  have hlog : ({ s with log := s.log ++ [c] } : Session P).Alike
      { s.withSend t with log := s.log ++ [c] } := ⟨t, rfl⟩
  have hcalls := hlog.foldl (hd (s.log ++ [c])).calls
  unfold Session.notify
  dsimp only
  by_cases hthrows : (hd (s.log ++ [c])).throws = true
  · rw [if_pos hthrows, if_pos (show (hd ((s.withSend t).log ++ [c])).throws = true from hthrows)]
    exact .threw hcalls
  · rw [if_neg hthrows,
      if_neg (show ¬ (hd ((s.withSend t).log ++ [c])).throws = true from hthrows)]
    exact .done hcalls

/-! ### Receiving -/

theorem Alike.recvFramesTurn (h : s.Alike s') (hd : Handler P.Topic) :
    Turn.Alike (Session.recvFramesTurn hd s) (Session.recvFramesTurn hd s') := by
  obtain ⟨t, rfl⟩ := h
  unfold Session.recvFramesTurn
  by_cases hb : s.recvBuf.length = 0
  · rw [if_pos hb, if_pos (show (s.withSend t).recvBuf.length = 0 from hb)]
    exact .exit ⟨t, rfl⟩
  rw [if_neg hb, if_neg (show ¬ (s.withSend t).recvBuf.length = 0 from hb)]
  rcases hp : s.protocol with - | p
  · simp only [show (s.withSend t).protocol = none from hp]
    exact .exit ⟨t, rfl⟩
  simp only [show (s.withSend t).protocol = some p from hp]
  simp only [show (s.withSend t).recvBuf = s.recvBuf from rfl]
  rcases P.decode p s.recvBuf with ⟨p', e | r⟩
  · have hset : ({ s with protocol := some p' } : Session P).Alike
        { s.withSend t with protocol := some p' } := ⟨t, rfl⟩
    exact .exit hset.close
  · have hset : ({ s with protocol := some p', recvBuf := r.src } : Session P).Alike
        { s.withSend t with protocol := some p', recvBuf := r.src } := ⟨t, rfl⟩
    dsimp only
    split
    · have hn := hset.notify hd (.receive r.topic r.frame)
      revert hn
      rcases Session.notify hd (.receive r.topic r.frame)
          ({ s with protocol := some p', recvBuf := r.src } : Session P) with s₁ | s₁ <;>
        rcases Session.notify hd (.receive r.topic r.frame)
          ({ s.withSend t with protocol := some p', recvBuf := r.src } : Session P) with s₂ | s₂ <;>
        rintro (hn | hn)
      · exact .next (hn.map (f := fun s => { s with recvBuf := s.recvBuf.drop r.consumed })
          fun _ _ => rfl)
      · exact .exit hn.close
    · exact .exit hset

theorem Alike.recvFramesLoop (h : s.Alike s') (hd : Handler P.Topic) (k : ℕ) :
    (Session.recvFramesLoop hd k s).Alike (Session.recvFramesLoop hd k s') := by
  induction k generalizing s s' with
  | zero => exact h
  | succ k ih =>
      have ht := h.recvFramesTurn hd
      rw [Session.recvFramesLoop, Session.recvFramesLoop]
      revert ht
      rcases Session.recvFramesTurn hd s with s₁ | s₁ <;>
        rcases Session.recvFramesTurn hd s' with s₂ | s₂ <;> rintro (ht | ht)
      · exact ih ht
      · exact ht

theorem Alike.recvFrames (h : s.Alike s') (hd : Handler P.Topic) :
    (s.recvFrames hd).Alike (s'.recvFrames hd) := by
  have hlen : s'.recvBuf.length = s.recvBuf.length := by
    obtain ⟨t, rfl⟩ := h
    rfl
  rw [Session.recvFrames, Session.recvFrames, hlen]
  exact h.recvFramesLoop hd _

theorem Alike.startRecv (h : s.Alike s') : s.startRecv.Alike s'.startRecv :=
  h.map fun _ _ => rfl

theorem Alike.isEstablished (h : s.Alike s') : s'.isEstablished = s.isEstablished := by
  obtain ⟨t, rfl⟩ := h
  rfl

theorem Alike.handleRecv (h : s.Alike s') (hd : Handler P.Topic) (chunk : Bytes) :
    (s.handleRecv hd chunk).state.Alike (s'.handleRecv hd chunk).state := by
  have hc : (s.commitRecv chunk).Alike (s'.commitRecv chunk) :=
    h.map (f := fun s => s.commitRecv chunk) fun _ _ => rfl
  unfold Session.handleRecv
  dsimp only
  revert hc
  generalize s.commitRecv chunk = r
  generalize s'.commitRecv chunk = r'
  rintro hc
  have hproto : r'.protocol = r.protocol := by
    obtain ⟨t, rfl⟩ := hc
    rfl
  have hbuf : r'.recvBuf = r.recvBuf := by
    obtain ⟨t, rfl⟩ := hc
    rfl
  rw [hproto, hbuf]
  rcases r.protocol with - | p
  · exact hc
  dsimp only
  split
  · exact (hc.recvFrames hd).startRecv
  rcases P.handshake p r.recvBuf with ⟨p', e | ⟨consumed, buf⟩⟩
  · obtain ⟨t, rfl⟩ := hc
    exact ⟨t, rfl⟩
  · have htake : (r.takeHandshake p' consumed buf).Alike (r'.takeHandshake p' consumed buf) :=
      Alike.sendHandshake (hc.map (f := fun s =>
        { s with protocol := some p', recvBuf := s.recvBuf.drop consumed }) fun _ _ => rfl) buf
    dsimp only
    rw [htake.isEstablished]
    split
    · have hn := htake.notify hd .established
      revert hn
      rcases Session.notify hd .established (r.takeHandshake p' consumed buf) with s₁ | s₁ <;>
        rcases Session.notify hd .established (r'.takeHandshake p' consumed buf) with s₂ | s₂ <;>
        rintro (hn | hn)
      · exact (hn.recvFrames hd).startRecv
      · exact hn
    · exact htake.startRecv

theorem Alike.start (h : s.Alike s') (hd : Handler P.Topic) (handle : ℕ) (e : P.Entropy)
    (peer : Bool) : (s.start hd handle e peer).state.Alike (s'.start hd handle e peer).state := by
  have hl : (s.launch handle e).Alike (s'.launch handle e) := by
    obtain ⟨t, rfl⟩ := h
    refine Alike.sendHandshake ?_ (s.openProtocol handle e).2
    exact ⟨t, rfl⟩
  unfold Session.start
  dsimp only
  revert hl
  generalize s.launch handle e = r
  generalize s'.launch handle e = r'
  rintro hl
  have hopen : r'.isOpen = r.isOpen := by
    obtain ⟨t, rfl⟩ := hl
    rfl
  rw [hopen, hl.startRecv.isEstablished]
  split
  · exact hl
  split
  · exact (hl.startRecv.notify hd .established).state
  · exact hl.startRecv

end Session

/-! ### The link over sockets -/

namespace Link

variable {S : Sodium} {n : ℕ}

/-- The bytes that `X` has written and that were not read yet. -/
def wire (l : Link S n) (X : Bool) : Bytes :=
  (l.ends X).written.drop (l.delivered X)

/-- One step of the link over sockets: a step of the link, or the socket of a
side reports that it has written its buffer. -/
inductive WireStep (n : ℕ)
  | link (a : Step n)
  | sendDone (X : Bool) (len : ℕ)

/-- The step function: a receive takes what was written, and a send completes
while it is outstanding. -/
def wireStep (parties : Bool → Party) (l : Link S n) : WireStep n → Option (Link S n)
  | .link (.deliver Y k r) =>
      let s := l.ends Y
      if s.recvPending ∧ 0 < k ∧ k ≤ (l.wire (!Y)).length then
        some (l.advance Y (s.handleRecv r.handler ((l.wire (!Y)).take k)).state k)
      else none
  | .link a => l.step parties a
  | .sendDone X len => ((l.ends X).step (.sendDone len)).map fun s => l.advance X s 0

/-- The socket has written all of the buffer that it was given. -/
def WireStep.Whole (l : Link S n) : WireStep n → Prop
  | .sendDone X len => (l.ends X).WritesWhole (.sendDone len)
  | .link _ => True

instance (l : Link S n) : (a : WireStep n) → Decidable (a.Whole l)
  | .sendDone X len => inferInstanceAs (Decidable ((l.ends X).WritesWhole (.sendDone len)))
  | .link _ => isTrue trivial

/-- The steps that the link over pipes takes, too. -/
def WireStep.link? : WireStep n → Option (Step n)
  | .link a => some a
  | .sendDone _ _ => none

section

variable {parties : Bool → Party} {l l' w w' : Link S n} {X : Bool}

/-- The link over sockets `w` is followed by the link `l` over pipes: the
sessions are alike, and what is written is in order. -/
structure Follows (w l : Link S n) : Prop where
  alike : ∀ X, (l.ends X).Alike (w.ends X)
  delivered : l.delivered = w.delivered
  ordered : ∀ X, Session.SendOrdered (w.ends X)

theorem follows_new : Follows (new S n) (new S n) where
  alike _ := .refl _
  delivered := rfl
  ordered X := Session.sendOrdered_new X

theorem Follows.appended (h : Follows w l) (X : Bool) :
    (l.ends X).appended = (w.ends X).appended := by
  obtain ⟨t, ht⟩ := h.alike X
  rw [ht]
  rfl

/-- What can arrive over the sockets can arrive over the pipes. -/
theorem Follows.wire_pipe (h : Follows w l) (X : Bool) : w.wire X <+: l.pipe X := by
  obtain ⟨rest, hrest⟩ := (h.ordered X).fifoOut.1
  rw [wire, pipe, h.appended, h.delivered, ← hrest, List.drop_append]
  exact List.prefix_append _ _

/-- One side moves on both links. -/
theorem Follows.advance (h : Follows w l) {s s' : Session (secureProtocol S n)}
    (hs : s.Alike s') (hord : Session.SendOrdered s') (k : ℕ) :
    Follows (w.advance X s' k) (l.advance X s k) := by
  refine ⟨forall_side (X := X) ?_ ?_, ?_, forall_side (X := X) ?_ ?_⟩
  · rw [advance_ends_self, advance_ends_self]
    exact hs
  · rw [advance_ends_not, advance_ends_not]
    exact h.alike (!X)
  · show Function.update l.delivered (!X) _ = Function.update w.delivered (!X) _
    rw [h.delivered]
  · rw [advance_ends_self]
    exact hord
  · rw [advance_ends_not]
    exact h.ordered (!X)

/-- **Step rule**: a step over sockets that writes whole buffers is a step over
pipes, or none. -/
theorem Follows.step (h : Follows w l) {a : WireStep n} (ha : a.Whole w)
    (hstep : w.wireStep parties a = some w') :
    ∃ l', runSteps (step parties) l a.link?.toList = some l' ∧ Follows w' l' := by
  have hone : ∀ {l' : Link S n} {b : Step n}, l.step parties b = some l' →
      runSteps (Link.step parties) l [b] = some l' := fun hb =>
    runSteps_cons_eq_some.mpr ⟨_, hb, rfl⟩
  have hpending : ∀ Y, (w.ends Y).recvPending = (l.ends Y).recvPending ∧
      (w.ends Y).protocol = (l.ends Y).protocol ∧ (w.ends Y).log = (l.ends Y).log := by
    intro Y
    obtain ⟨t, ht⟩ := h.alike Y
    rw [ht]
    exact ⟨rfl, rfl, rfl⟩
  cases a with
  | link a =>
      cases a with
      | start X r =>
          simp only [wireStep, Link.step, Option.ite_none_right_eq_some, Option.some.injEq] at hstep
          obtain ⟨hnone, rfl⟩ := hstep
          refine ⟨_, hone (by rw [Link.step, if_pos ((hpending X).2.1 ▸ hnone)]), ?_⟩
          exact h.advance ((h.alike X).start r.handler _ _ _)
            (Session.sendOrdered_stable.start (h.ordered X) r.handler _ _ _) 0
      | deliver Y k r =>
          simp only [wireStep, Option.ite_none_right_eq_some, Option.some.injEq] at hstep
          obtain ⟨⟨hrecv, hpos, hk⟩, rfl⟩ := hstep
          -- the same bytes are at the front of the pipe
          have hpre := h.wire_pipe (!Y)
          have htake : (l.pipe (!Y)).take k = (w.wire (!Y)).take k := by
            obtain ⟨rest, hrest⟩ := hpre
            rw [← hrest, List.take_append_of_le_length hk]
          have hen : (l.ends Y).recvPending = true ∧ 0 < k ∧ k ≤ (l.pipe (!Y)).length :=
            ⟨(hpending Y).1 ▸ hrecv, hpos, hk.trans hpre.length_le⟩
          refine ⟨_, hone (by rw [Link.step, if_pos hen]), ?_⟩
          rw [htake]
          exact h.advance ((h.alike Y).handleRecv r.handler _)
            (Session.sendOrdered_stable.handleRecv (h.ordered Y) r.handler _) k
      | send X m =>
          simp only [wireStep, Link.step, Option.ite_none_right_eq_some, Option.some.injEq] at hstep
          obtain ⟨hlog, rfl⟩ := hstep
          refine ⟨_, hone (by rw [Link.step, if_pos ((hpending X).2.2 ▸ hlog)]), ?_⟩
          exact h.advance ((h.alike X).appCall m.call) ((h.ordered X).appCall m.call) 0
  | sendDone X len =>
      obtain ⟨s', hs', rfl⟩ := Option.map_eq_some_iff.mp hstep
      refine ⟨l, rfl, ?_⟩
      have hord := (h.ordered X).step (l := .sendDone len) ha hs'
      have halike : (w.ends X).Alike s' := by
        simp only [Session.step] at hs'
        split at hs'
        · cases hs'
        · simp only [Option.ite_none_right_eq_some, Option.some.injEq] at hs'
          rw [← hs'.2]
          exact Session.alike_sendDone _ _ len
      have hstay : l.advance X (l.ends X) 0 = l := by
        rw [Link.advance, Nat.add_zero, Function.update_eq_self, Function.update_eq_self]
      rw [← hstay]
      exact h.advance ((h.alike X).trans halike) hord 0

/-- **Run rule**: a run over sockets that writes whole buffers is followed by
the run over pipes that leaves out the completions of sends. -/
theorem follows_of_run {ls : List (WireStep n)}
    (hwhole : Along (wireStep parties) WireStep.Whole (new S n) ls)
    (hrun : runSteps (wireStep parties) (new S n) ls = some w) :
    ∃ l, runSteps (step parties) (new S n) (ls.filterMap WireStep.link?) = some l ∧
      Follows w l := by
  suffices h : ∀ {w₀ l₀ : Link S n} {ls : List (WireStep n)}, Follows w₀ l₀ →
      Along (wireStep parties) WireStep.Whole w₀ ls →
      runSteps (wireStep parties) w₀ ls = some w →
      ∃ l, runSteps (step parties) l₀ (ls.filterMap WireStep.link?) = some l ∧ Follows w l from
    h follows_new hwhole hrun
  intro w₀ l₀ ls h hwhole hrun
  induction ls generalizing w₀ l₀ with
  | nil =>
      obtain rfl := Option.some.inj hrun
      exact ⟨l₀, rfl, h⟩
  | cons a ls ih =>
      obtain ⟨w₁, hw₁, hrest⟩ := runSteps_cons_eq_some.mp hrun
      obtain ⟨l₁, hl₁, h₁⟩ := h.step hwhole.1 hw₁
      obtain ⟨l, hl, hend⟩ := ih h₁ (hwhole.2 w₁ hw₁) hrest
      refine ⟨l, ?_, hend⟩
      have hsplit : (a :: ls).filterMap WireStep.link?
          = a.link?.toList ++ ls.filterMap WireStep.link? := by
        rw [List.filterMap_cons]
        cases a.link? <;> rfl
      rw [hsplit, runSteps_append, hl₁]
      exact hl

/-- The socket of an honest session stays open. -/
theorem Inv.isOpen {hS : S.Lawful} (hl : Inv parties hS l) (X : Bool) :
    (l.ends X).isOpen = true := by
  have hend := hl.endpoint X
  rcases hst : Party.stage (l.ends X) <;> rw [hst] at hend
  · rw [show l.ends X = _ from hend]
    rfl
  · exact hend.1.isOpen
  · exact hend.1.isOpen
  · exact hend.1.isOpen

end

/-- **The channel over sockets.**  In every run in which the completed sends
have written their whole buffers, the run without the completions is a run of
the link over pipes, and it ends with the same callbacks and the same frames;
so a side has received the first frames that its peer sent.  It has received
all of them when no send of the peer is outstanding and what the peer wrote
was read. -/
theorem received_over_sockets {S : Sodium} (hS : S.Lawful) {n : ℕ} {parties : Bool → Party}
    {ls : List (WireStep n)} {w : Link S n}
    (hwhole : Along (wireStep parties) WireStep.Whole (new S n) ls)
    (hrun : runSteps (wireStep parties) (new S n) ls = some w) :
    (∃ l, runSteps (step parties) (new S n) (ls.filterMap WireStep.link?) = some l ∧
      ∀ X, (w.ends X).log = (l.ends X).log ∧ w.sent X = l.sent X ∧ w.wire X <+: l.pipe X) ∧
    ∀ X, w.received (!X) <+: w.sent X ∧
      ((w.ends X).sendPending = none → w.wire X = [] → w.received (!X) = w.sent X) := by
  obtain ⟨l, hl, hfollows⟩ := follows_of_run hwhole hrun
  have hinv : Inv parties hS l := Inv.of_run hl
  have hsame : ∀ X, (w.ends X).log = (l.ends X).log ∧ w.sent X = l.sent X ∧
      (w.ends X).isOpen = (l.ends X).isOpen := by
    intro X
    obtain ⟨t, ht⟩ := hfollows.alike X
    rw [sent, sent, ht]
    exact ⟨rfl, rfl, rfl⟩
  refine ⟨⟨l, hl, fun X => ⟨(hsame X).1, (hsame X).2.1, hfollows.wire_pipe X⟩⟩, fun X => ?_⟩
  obtain ⟨done, todo, hsent, hlast, hlog⟩ := hinv.callbacks_cases (!X)
  rw [Bool.not_not] at hsent hlast
  have hreceived : w.received (!X) = done := by
    rw [received, (hsame (!X)).1]
    change (l.callbacks (!X)).filterMap Callback.frame? = done
    rcases hlog with ⟨hlog, rfl⟩ | hlog <;> rw [hlog]
    · rfl
    · exact filterMap_receives done
  rw [hreceived, (hsame X).2.1, hsent]
  refine ⟨List.prefix_append _ _, fun hnone hwire => ?_⟩
  -- everything was written, so the pipe is empty as well
  have hwritten := (hfollows.ordered X).fifoOut.2 hnone ((hsame X).2.2.trans (hinv.isOpen X))
  have hpipe : l.pipe X = [] := by
    rw [pipe, hfollows.appended, ← hwritten, hfollows.delivered]
    exact hwire
  rw [hlast hpipe, List.append_nil]

/-- Both sides write their keys and nonces, then a frame; the sends complete
one after the other. -/
def wiredFrame : List (WireStep 2) :=
  let idle : Replies 2 := fun _ => []
  [.link (.start true idle), .link (.start false idle), .sendDone true 37, .sendDone false 37,
    .link (.deliver false 37 idle), .link (.deliver true 37 idle), .sendDone true 61,
    .sendDone false 61, .link (.deliver false 61 idle), .link (.deliver true 61 idle),
    .link (.send true ⟨(9, [1, 2, 3], true), by decide⟩), .sendDone true 10,
    .link (.deliver false 10 idle)]

theorem received_wiredFrame :
    ∃ w : Link .recorded 2, runSteps (wireStep recordedParties) (new .recorded 2) wiredFrame
        = some w ∧
      w.sent true = [(9, [1, 2, 3])] ∧ w.received false = w.sent true := by
  have hend : (runSteps (wireStep recordedParties) (new .recorded 2) wiredFrame).map
      (fun w => (w.sent true, (w.ends true).sendPending, w.wire true))
        = some ([(9, [1, 2, 3])], none, []) := by
    decide +kernel
  have hwhole : Along (wireStep recordedParties) WireStep.Whole (new .recorded 2) wiredFrame := by
    decide +kernel
  obtain ⟨w, hrun, hw⟩ := Option.map_eq_some_iff.mp hend
  simp only [Prod.mk.injEq] at hw
  obtain ⟨hsent, hnone, hwire⟩ := hw
  exact ⟨w, hrun, hsent,
    ((received_over_sockets Sodium.recorded_lawful hwhole hrun).2 true).2 hnone hwire⟩

end Link

end Play
