/-
Play/Stall.lean

When the handshake stalls.

`handle_recv` passes the receive buffer to `handshake` once for each receive,
and `handshake` takes one message.  The peer sends its nonce as soon as it
has our key, so its two messages can be on their way at the same time.  If one
receive completes with both of them, the key is taken, the nonce stays in the
buffer, and no further bytes come to have it looked at: the session waits
(`Stuck`) until the peer, which may be open already, sends a frame.

That is the only way to stall.  In a state where nothing is on its way and no
frame was sent, both sides are open with matching keys and nonces, if and only
if no receive of the run brought a side that was waiting for the key up to the
98 bytes of both messages.
-/
import Play.Channel

namespace Play

namespace Link

open Party

variable {S : Sodium} {n : ℕ}

/-! ### Agreement -/

/-- Both sides run, no frame was sent, and nothing is on its way. -/
structure Quiescent (l : Link S n) : Prop where
  started : ∀ X, (l.ends X).protocol.isSome = true
  isOpen : ∀ X, (l.ends X).isOpen = true
  frames : ∀ X, framesOf (l.ends X) = []
  pipe : ∀ X, l.pipe X = []

instance (l : Link S n) : Decidable (Quiescent l) :=
  decidable_of_iff
    (∀ X, (l.ends X).protocol.isSome = true ∧ (l.ends X).isOpen = true ∧
      framesOf (l.ends X) = [] ∧ l.pipe X = [])
    ⟨fun h => ⟨fun X => (h X).1, fun X => (h X).2.1, fun X => (h X).2.2.1, fun X => (h X).2.2.2⟩,
      fun h X => ⟨h.started X, h.isOpen X, h.frames X, h.pipe X⟩⟩

/-- The handshake object of a session. -/
def handshakeOf (s : Session (secureProtocol S n)) : Option SodiumHandshake :=
  s.protocol.bind SecureState.cipherHandshake

/-- Both sides are established, told so, and each sends what the other
receives. -/
structure Agreed (l : Link S n) : Prop where
  established : ∀ X, (l.ends X).isEstablished = true
  announced : ∀ X, .established ∈ (l.ends X).log
  keys : ∀ X, ∃ k, (handshakeOf (l.ends X)).map SodiumHandshake.txKey = some k ∧
    (handshakeOf (l.ends (!X))).map SodiumHandshake.rxKey = some k
  nonces : ∀ X, ∃ k, (handshakeOf (l.ends X)).map SodiumHandshake.txNonce = some k ∧
    (handshakeOf (l.ends (!X))).map SodiumHandshake.rxNonce = some k

/-- The receive does not complete both handshake messages for a side that
waits for the key. -/
def NotCoalesced (l : Link S n) : Step n → Prop
  | .start _ _ => True
  | .deliver Y k _ => stage (l.ends Y) = .waitKey → (l.ends Y).recvBuf.length + k < 98
  | .send _ _ => True

instance (l : Link S n) : (a : Step n) → Decidable (NotCoalesced l a)
  | .start _ _ => isTrue trivial
  | .deliver Y k _ =>
      inferInstanceAs
        (Decidable (stage (l.ends Y) = .waitKey → (l.ends Y).recvBuf.length + k < 98))
  | .send _ _ => isTrue trivial

section

variable {parties : Bool → Party} {hS : S.Lawful} {l l' : Link S n} {X Y : Bool} {k : ℕ}

/-- An open side, before any frame, has the keys and the nonces of the
handshake. -/
theorem Inv.protocol_of_opened (hl : Inv parties hS l) (hframes : ∀ X, framesOf (l.ends X) = [])
    (h : stage (l.ends X) = .opened) :
    (l.ends X).protocol = some (stateOf parties X (openHs S parties X (parties X).draws.nonce
      (parties (!X)).draws.nonce)) ∧ (l.ends X).log = [.established] := by
  have hend : Endpoint n parties hS X .opened (l.ends X) := h ▸ hl.endpoint X
  have hin := hl.inbound X
  rw [h, hframes (!X)] at hin
  obtain ⟨-, done, todo, hms, hholds, -⟩ := hin
  obtain ⟨rfl, rfl⟩ := List.append_eq_nil_iff.mp hms.symm
  obtain ⟨rn, hp⟩ := hend.1.protocol
  rw [hframes X] at hp
  obtain ⟨p, hp', -, hrx⟩ := hholds.exists_protocol
  obtain rfl := Option.some.inj (hp.symm.trans hp')
  obtain rfl : rn = (parties X).draws.nonce := congrArg Prod.snd hrx
  exact ⟨hp, hholds.log⟩

theorem Inv.agreed (hl : Inv parties hS l) (hframes : ∀ X, framesOf (l.ends X) = [])
    (h : ∀ X, stage (l.ends X) = .opened) : Agreed l := by
  have hopen := fun X => hl.protocol_of_opened hframes (h X)
  refine ⟨fun X => ?_, fun X => ?_, fun X => ⟨rxKey S parties (!X), ?_, ?_⟩,
    fun X => ⟨(parties (!X)).draws.nonce, ?_, ?_⟩⟩
  · rw [Session.isEstablished, (hopen X).1]
    rfl
  · rw [(hopen X).2]
    exact List.mem_singleton.mpr rfl
  all_goals
    rw [handshakeOf, (hopen _).1]
    rfl

/-! ### One step -/

/-- The frames of a side only become more. -/
theorem sent_prefix_step {a : Step n} (h : Link.step parties l a = some l') (X : Bool) :
    (l.ends X).sent <+: (l'.ends X).sent := by
  -- the moving side is extended by `stable_sent`, the other one is as it was
  have hadvance : ∀ {Y s k}, (l.ends Y).sent <+: s.sent →
      (l.ends X).sent <+: ((l.advance Y s k).ends X).sent := by
    intro Y s k hs
    revert X
    refine forall_side (X := Y) ?_ ?_
    · rw [advance_ends_self]
      exact hs
    · rw [advance_ends_not]
  cases a with
  | start Y r =>
      simp only [Link.step, Option.ite_none_right_eq_some, Option.some.injEq] at h
      rw [← h.2]
      exact hadvance ((Session.stable_sent (l.ends Y).sent).start List.prefix_rfl ..)
  | deliver Y k r =>
      simp only [Link.step, Option.ite_none_right_eq_some, Option.some.injEq] at h
      rw [← h.2]
      exact hadvance ((Session.stable_sent (l.ends Y).sent).handleRecv List.prefix_rfl ..)
  | send Y m =>
      simp only [Link.step, Option.ite_none_right_eq_some, Option.some.injEq] at h
      rw [← h.2]
      exact hadvance ((Session.stable_sent (l.ends Y).sent).call m.call List.prefix_rfl)

/-- The side that a step moves. -/
def Step.side : Step n → Bool
  | .start X _ => X
  | .deliver Y _ _ => Y
  | .send X _ => X

theorem ends_of_ne_side {a : Step n} (h : Link.step parties l a = some l') (hX : X ≠ a.side) :
    l'.ends X = l.ends X := by
  cases a <;>
    simp only [Link.step, Option.ite_none_right_eq_some, Option.some.injEq] at h <;>
    rw [← h.2] <;>
    exact Function.update_of_ne hX ..

theorem Inv.stage_of_waitKey (hl : Inv parties hS l) (hk : k ≤ (l.pipe (!X)).length)
    (r : Replies n) (h : stage (l.ends X) = .waitKey) :
    ((l.ends X).recvBuf.length + k < 37 ∧
      stage ((l.ends X).handleRecv r.handler ((l.pipe (!X)).take k)).state = .waitKey) ∨
    (37 ≤ (l.ends X).recvBuf.length + k ∧
      stage ((l.ends X).handleRecv r.handler ((l.pipe (!X)).take k)).state = .waitNonce ∧
      ((l.ends X).handleRecv r.handler ((l.pipe (!X)).take k)).state.recvBuf.length + 37
        = (l.ends X).recvBuf.length + k) := by
  have hin := hl.inbound X
  have hend := hl.endpoint X
  rw [← List.take_append_drop k (l.pipe (!X))] at hin
  rw [h] at hin hend
  have hcases := (hl.endpoint (!X)).handleRecv_waitKey hend hin r
  rw [List.length_take_of_le hk] at hcases
  rcases hcases with ⟨hlt, hend', -, -⟩ | ⟨hle, hend', -, hbuf⟩
  · exact .inl ⟨hlt, hend'.stage_eq⟩
  · exact .inr ⟨hle, hend'.stage_eq, hbuf⟩

theorem Inv.stage_of_waitNonce (hl : Inv parties hS l) (k : ℕ) (r : Replies n)
    (h : stage (l.ends X) = .waitNonce) :
    stage ((l.ends X).handleRecv r.handler ((l.pipe (!X)).take k)).state = .opened ∨
    ((l.ends X).handleRecv r.handler ((l.pipe (!X)).take k)).state.recvBuf.length < 61 := by
  have hin := hl.inbound X
  have hend := hl.endpoint X
  rw [← List.take_append_drop k (l.pipe (!X))] at hin
  rw [h] at hin hend
  rcases (hl.endpoint (!X)).handleRecv_waitNonce hend hin r with ⟨hlt, -, -, hbuf⟩ | ⟨hend', -⟩
  · exact .inr (hbuf ▸ hlt)
  · exact .inl hend'.stage_eq

/-! ### Runs without coalescing -/

/-- No side has the nonce in its buffer and waits for it. -/
def Unstuck (l : Link S n) : Prop :=
  ∀ X, stage (l.ends X) = .waitNonce → (l.ends X).recvBuf.length < 61

/-- A step keeps the two sides unstuck if it keeps the moving one so. -/
theorem Unstuck.of_side {a : Step n} (hl : Unstuck l) (h : Link.step parties l a = some l')
    (hside : stage (l'.ends a.side) = .waitNonce → (l'.ends a.side).recvBuf.length < 61) :
    Unstuck l' := by
  intro X
  by_cases hX : X = a.side
  · rw [hX]
    exact hside
  · rw [ends_of_ne_side h hX]
    exact hl X

theorem Unstuck.step (hl : Inv parties hS l) (hu : Unstuck l) {a : Step n}
    (ha : NotCoalesced l a) (h : Link.step parties l a = some l') : Unstuck l' := by
  refine hu.of_side h ?_
  cases a with
  | start X r =>
      simp only [Link.step, Option.ite_none_right_eq_some, Option.some.injEq] at h
      rw [← h.2, Step.side, advance_ends_self, ((hl.idle h.1).start r).1.stage_eq]
      intro hst
      cases hst
  | deliver X k r =>
      simp only [Link.step, Option.ite_none_right_eq_some, Option.some.injEq] at h
      obtain ⟨⟨hpending, -, hk⟩, rfl⟩ := h
      rw [Step.side, advance_ends_self]
      intro hst
      rcases hold : stage (l.ends X)
      · have hidle : Endpoint n parties hS X .idle (l.ends X) := hold ▸ hl.endpoint X
        rw [show l.ends X = _ from hidle] at hpending
        cases hpending
      · -- the key is taken, and the rest of the buffer is short of the nonce
        have hlt := ha hold
        rcases hl.stage_of_waitKey hk r hold with ⟨-, hst'⟩ | ⟨-, -, hbuf⟩
        · cases hst'.symm.trans hst
        · omega
      · rcases hl.stage_of_waitNonce k r hold with hst' | hlt
        · cases hst'.symm.trans hst
        · exact hlt
      · have hend : Endpoint n parties hS X .opened (l.ends X) := hold ▸ hl.endpoint X
        cases (hend.1.handleRecv r _).stage_eq.symm.trans hst
  | send X m =>
      simp only [Link.step, Option.ite_none_right_eq_some, Option.some.injEq] at h
      rw [← h.2, Step.side, advance_ends_self, ((hl.opened h.1).appCall m).stage_eq]
      intro hst
      cases hst

/-- How long the stream of a side is, at least. -/
def leastLength : Stage → ℕ
  | .idle => 0
  | .waitKey => 37
  | .waitNonce => 98
  | .opened => 98

theorem leastLength_le {st : Stage} {s : Session (secureProtocol S n)}
    (h : Endpoint n parties hS X st s) : leastLength st ≤ s.appended.length := by
  cases st with
  | idle => exact Nat.zero_le _
  | waitKey => rw [h.1.appended, length_keyMessage]; rfl
  | waitNonce => rw [h.1.appended]; exact length_stream _
  | opened => rw [h.1.appended]; exact length_stream _

/-- In a quiescent state where no side is stuck, both sides are open. -/
theorem Inv.opened_of_unstuck (hl : Inv parties hS l) (hu : Unstuck l) (hq : Quiescent l)
    (X : Bool) : stage (l.ends X) = .opened := by
  have hidle : ∀ X, stage (l.ends X) ≠ .idle := by
    intro X hst
    have hend : Endpoint n parties hS X .idle (l.ends X) := hst ▸ hl.endpoint X
    have hstarted := hq.started X
    rw [show l.ends X = _ from hend] at hstarted
    cases hstarted
  -- the peer has sent its key, and all of it was read
  have hkey : ∀ X, stage (l.ends X) ≠ .waitKey := by
    intro X hst
    have hin := hl.inbound X
    rw [hst, hq.pipe] at hin
    obtain ⟨hout, hlt⟩ := hin
    have hlen := leastLength_le (hl.endpoint (!X))
    rw [← hout, List.append_nil] at hlen
    rcases hpeer : stage (l.ends (!X)) <;> rw [hpeer, leastLength] at hlen
    · exact hidle _ hpeer
    all_goals omega
  have hin := hl.inbound X
  rcases hst : stage (l.ends X)
  · exact absurd hst (hidle X)
  · exact absurd hst (hkey X)
  · -- likewise for the nonce, since the peer has our key
    have hlt := hu X hst
    rw [hst, hq.pipe] at hin
    have hlen := leastLength_le (hl.endpoint (!X))
    rw [← hin.1, List.append_nil, List.length_append, length_keyMessage] at hlen
    rcases hpeer : stage (l.ends (!X)) <;> rw [hpeer, leastLength] at hlen
    · exact absurd hpeer (hidle _)
    · exact absurd hpeer (hkey _)
    all_goals omega
  · rfl

/-! ### Runs with coalescing -/

/-- The side `Y` waits for the nonce that it has, or its peer has sent a
frame. -/
def Stuck (Y : Bool) (l : Link S n) : Prop :=
  stage (l.ends Y) = .waitNonce ∧ (l.ends Y).recvBuf.length = 61 ∨ framesOf (l.ends (!Y)) ≠ []

/-- Without frames the stream is no longer than the handshake. -/
theorem length_le_of_frames {st : Stage} {s : Session (secureProtocol S n)}
    (h : Endpoint n parties hS X st s) (hframes : framesOf s = []) : s.appended.length ≤ 98 := by
  by_cases hlen : 98 ≤ s.appended.length
  · rw [(h.appended_eq hlen).1, hframes, stream_nil, List.length_append, length_keyMessage,
      length_nonceMessage]
  · omega

/-- Only a frame of the peer brings new bytes to a stuck side. -/
theorem Stuck.step (hl : Inv parties hS l) (hs : Stuck Y l) {a : Step n}
    (h : Link.step parties l a = some l') : Stuck Y l' := by
  rcases hs with ⟨hst, hlen⟩ | hframes
  swap
  · right
    obtain ⟨ms, hms⟩ : framesOf (l.ends (!Y)) <+: framesOf (l'.ends (!Y)) :=
      sent_prefix_step h (!Y)
    rw [← hms]
    exact fun h => hframes (List.append_eq_nil_iff.mp h).1
  by_cases hside : Y = a.side
  swap
  · left
    rw [ends_of_ne_side h hside]
    exact ⟨hst, hlen⟩
  subst hside
  cases a with
  | start X r =>
      simp only [Link.step, Option.ite_none_right_eq_some, Option.some.injEq] at h
      cases (hl.idle h.1).stage_eq.symm.trans hst
  | send X m =>
      simp only [Link.step, Option.ite_none_right_eq_some, Option.some.injEq] at h
      cases (hl.opened h.1).stage_eq.symm.trans hst
  | deliver X k r =>
      -- the side has read all of the handshake, so more bytes are those of a frame
      right
      have hpeer := ends_of_ne_side h (X := !X) (by simp [Step.side])
      simp only [Link.step, Option.ite_none_right_eq_some, Option.some.injEq] at h
      obtain ⟨⟨-, hpos, hk⟩, -⟩ := h
      rw [Step.side, hpeer]
      intro hframes
      have hin := hl.inbound X
      rw [show stage (l.ends X) = _ from hst] at hin
      have hle := length_le_of_frames (hl.endpoint (!X)) hframes
      rw [← hin.1, List.length_append, List.length_append, length_keyMessage] at hle
      rw [Step.side] at hlen
      omega

/-- A receive that completes both messages leaves the side stuck. -/
theorem Inv.stuck_of_coalesced (hl : Inv parties hS l) {a : Step n} (ha : ¬ NotCoalesced l a)
    (h : Link.step parties l a = some l') : Stuck a.side l' := by
  cases a with
  | start X r => exact absurd trivial ha
  | send X m => exact absurd trivial ha
  | deliver X k r =>
      obtain ⟨hst, hlen⟩ := Classical.not_imp.mp ha
      have hin := (hl.step h).inbound X
      simp only [Link.step, Option.ite_none_right_eq_some, Option.some.injEq] at h
      obtain ⟨⟨-, -, hk⟩, rfl⟩ := h
      rcases hl.stage_of_waitKey hk r hst with ⟨hlt, -⟩ | ⟨-, hst', hbuf⟩
      · omega
      · left
        rw [Step.side, advance_ends_self]
        rw [advance_ends_self, hst'] at hin
        have hle := hin.2
        exact ⟨hst', by omega⟩

/-! ### The handshake stalls exactly on coalescing -/

/-- **The handshake agrees unless messages are coalesced.**  In a run that
ends with nothing on its way and no frame sent, both sides are established
with matching keys and nonces, if and only if no receive completed both
messages of the peer for a side that was waiting for the first. -/
theorem agreed_iff_notCoalesced {S : Sodium} (hS : S.Lawful) {n : ℕ} {parties : Bool → Party}
    {ls : List (Step n)} {l : Link S n}
    (hrun : runSteps (Link.step parties) (new S n) ls = some l) (hq : Quiescent l) :
    Agreed l ↔ Along (Link.step parties) NotCoalesced (new S n) ls := by
  have hl : Inv parties hS l := Inv.of_run hrun
  constructor
  · intro hagreed
    by_contra hnot
    obtain ⟨pre, a, post, l₁, l₂, -, -, hpre, ha, hstep, hpost⟩ :=
      exists_first_of_not_along hnot hrun
    have hl₁ : Inv parties hS l₁ := Inv.of_run hpre
    -- from the first coalesced receive on, its side is stuck
    have hstuck : Inv parties hS l ∧ Stuck a.side l :=
      runSteps_invariant (I := fun l => Inv parties hS l ∧ Stuck a.side l)
        (fun hs h => ⟨hs.1.step h, hs.2.step hs.1 h⟩)
        ⟨hl₁.step hstep, hl₁.stuck_of_coalesced ha hstep⟩ hpost
    rcases hstuck.2 with ⟨hst, -⟩ | hframes
    · have hwait : Endpoint n parties hS a.side .waitNonce (l.ends a.side) :=
        hst ▸ hl.endpoint a.side
      have hest := hagreed.established a.side
      rw [Session.isEstablished, hwait.1.protocol] at hest
      cases hest
    · exact hframes (hq.frames _)
  · intro hall
    have hu : Inv parties hS l ∧ Unstuck l :=
      hall.invariant (I := fun l => Inv parties hS l ∧ Unstuck l)
        (fun hs ha h => ⟨hs.1.step h, hs.2.step hs.1 ha h⟩)
        ⟨inv_new, fun X hst => by cases hst⟩ hrun
    exact hl.agreed hq.frames fun X => hl.opened_of_unstuck hu.2 hq X

/-- The handshake with every message received on its own. -/
def messageByMessage : List (Step 2) :=
  let idle : Replies 2 := fun _ => []
  [.start true idle, .start false idle, .deliver true 37 idle, .deliver false 37 idle,
    .deliver true 61 idle, .deliver false 61 idle]

/-- The accepted side answers before the connected side reads, which then gets
key and nonce at once. -/
def keyAndNonce : List (Step 2) :=
  let idle : Replies 2 := fun _ => []
  [.start true idle, .start false idle, .deliver true 37 idle, .deliver false 98 idle,
    .deliver true 61 idle]

/-- **A stalled handshake**: nothing is on its way, and the connected side
is not established. -/
theorem keyAndNonce_stalls :
    ∃ l : Link .recorded 2, runSteps (Link.step recordedParties) (new .recorded 2) keyAndNonce
        = some l ∧ Quiescent l ∧ ¬ Agreed l := by
  have hend : (runSteps (Link.step recordedParties) (new .recorded 2) keyAndNonce).map
      (fun l => (decide (Quiescent l), (l.ends false).isEstablished)) = some (true, false) := by
    decide +kernel
  obtain ⟨l, hrun, hl⟩ := Option.map_eq_some_iff.mp hend
  obtain ⟨hq, hest⟩ := Prod.mk.inj hl
  refine ⟨l, hrun, of_decide_eq_true hq, fun hagreed => ?_⟩
  rw [hagreed.established false] at hest
  cases hest

theorem agreed_messageByMessage :
    ∃ l : Link .recorded 2, runSteps (Link.step recordedParties) (new .recorded 2) messageByMessage
        = some l ∧ Quiescent l ∧ Agreed l := by
  have hend : (runSteps (Link.step recordedParties) (new .recorded 2) messageByMessage).map
      (fun l => decide (Quiescent l)) = some true := by
    decide +kernel
  obtain ⟨l, hrun, hl⟩ := Option.map_eq_some_iff.mp hend
  have hq := of_decide_eq_true hl
  refine ⟨l, hrun, hq, (agreed_iff_notCoalesced Sodium.recorded_lawful hrun hq).mpr ?_⟩
  decide +kernel

end

end Link

end Play
