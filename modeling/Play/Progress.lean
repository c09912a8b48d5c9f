/-
Play/Progress.lean

The secure channel gets on.

A stalled handshake (`Play.Stall`) is not a deadlock.  A side can only take the
two messages of its peer in one receive if the peer has sent its nonce, and the
peer sends it when it has the key of the side: at that time it has the key
alone, since the nonce of the side is not sent yet.  So of the two sides at most
one stalls (`not_both_full`), the other is open or will be, and the next frame
that it sends has the stalled one look at the nonce again.

With the receives left to themselves, and callbacks that send nothing, the
channel always comes to rest: every receive uses up bytes that are on their
way, and the handshake adds at most 98 on either side (`work`).  Main results:

    settles    from every state of a run, some receives, and never more than
               `work`, lead to one where nothing is on its way; all frames are
               received there, a side is established, and both are if a frame
               was ever sent.
-/
import Play.Backlog
import Play.Stack
import Play.Stall

namespace Play

namespace Session

variable {P : Protocol} {s : Session P}

/-! ### Callbacks that send nothing -/

theorem sent_sendHandshake (s : Session P) (b : Bytes) : (s.sendHandshake b).sent = s.sent := by
  rw [sendHandshake]
  split
  · exact sent_sendRaw s b
  · rfl

theorem sent_recvFramesTurn_silent (s : Session P) :
    (recvFramesTurn silent s).state.sent = s.sent := by
  rcases recvFramesTurn_cases silent s with
    ⟨-, ht⟩ | ⟨p, p', -, -, ⟨e, -, ht⟩ | ⟨r, -, ⟨-, ht⟩ | ⟨-, s₁, hs₁, ht⟩ | ⟨-, s₁, hs₁, ht⟩⟩⟩ <;>
    rw [ht]
  · rfl
  · rfl
  · rfl
  · cases hs₁
  · cases hs₁
    rfl

theorem sent_recvFramesLoop_silent (k : ℕ) (s : Session P) :
    (recvFramesLoop silent k s).sent = s.sent := by
  induction k generalizing s with
  | zero => rfl
  | succ k ih =>
      have hturn := sent_recvFramesTurn_silent s
      rw [recvFramesLoop]
      rcases e : recvFramesTurn silent s with t | t <;> rw [e] at hturn
      · exact (ih t).trans hturn
      · exact hturn

/-- A receive sends no frame by itself. -/
theorem sent_handleRecv_silent (s : Session P) (chunk : Bytes) :
    (s.handleRecv silent chunk).state.sent = s.sent := by
  rcases hp : s.protocol with - | p
  · have hnone : s.handleRecv silent chunk = .done (s.commitRecv chunk) := by
      have hp' : (s.commitRecv chunk).protocol = none := hp
      simp only [handleRecv, hp']
    rw [hnone]
    rfl
  rcases handleRecv_cases silent hp chunk with
    ⟨-, hr⟩ | ⟨-, p', ⟨e, -, hr⟩ | ⟨k, buf, -, ⟨-, hr⟩ | ⟨-, hr⟩⟩⟩ <;> rw [hr]
  · exact sent_recvFramesLoop_silent _ (s.commitRecv chunk)
  · rfl
  · refine (sent_recvFramesLoop_silent _ _).trans ?_
    exact sent_sendHandshake _ buf
  · exact sent_sendHandshake _ buf

end Session

namespace Party

variable {S : Sodium} {n : ℕ} {parties : Bool → Party} {hS : S.Lawful} {X : Bool} {st : Stage}
variable {s : Session (secureProtocol S n)}

/-- A side that has sent a frame is open. -/
theorem Endpoint.opened_of_frames (h : Endpoint n parties hS X st s) (hne : framesOf s ≠ []) :
    st = .opened := by
  cases st with
  | idle =>
      obtain rfl : s = _ := h
      exact absurd rfl hne
  | waitKey => exact absurd h.1.frames hne
  | waitNonce => exact absurd h.1.frames hne
  | opened => rfl

/-- The stream of such a side. -/
theorem Endpoint.appended_of_frames (h : Endpoint n parties hS X st s) (hne : framesOf s ≠ []) :
    s.appended = stream n parties hS X (framesOf s) := by
  obtain rfl := h.opened_of_frames hne
  exact h.1.appended

end Party

namespace Link

open Party

variable {S : Sodium} {n : ℕ} {parties : Bool → Party} {hS : S.Lawful} {l l' : Link S n}
variable {X Y : Bool} {k : ℕ}

/-! ### At most one side stalls -/

/-- Both sides have started. -/
def Started (l : Link S n) : Prop :=
  ∀ X, (l.ends X).protocol.isSome = true

/-- The side waits for the nonce, and has it. -/
def Full (l : Link S n) (X : Bool) : Prop :=
  stage (l.ends X) = .waitNonce ∧ (l.ends X).recvBuf.length = 61

theorem Inv.not_both_full_step (hl : Inv parties hS l) {a : Step n}
    (h : Link.step parties l a = some l') : ¬ ∀ X, Full l' X := by
  intro hfull
  obtain ⟨hst, hlen⟩ := hfull a.side
  have hpeer := hfull (!a.side)
  rw [Full, ends_of_ne_side h (by simp)] at hpeer
  cases a with
  | start X r =>
      simp only [Link.step, Option.ite_none_right_eq_some, Option.some.injEq] at h
      rw [← h.2, Step.side, advance_ends_self, ((hl.idle h.1).start r).1.stage_eq] at hst
      cases hst
  | send X m =>
      simp only [Link.step, Option.ite_none_right_eq_some, Option.some.injEq] at h
      rw [← h.2, Step.side, advance_ends_self, ((hl.opened h.1).appCall m).stage_eq] at hst
      cases hst
  | deliver X k r =>
      simp only [Link.step, Option.ite_none_right_eq_some, Option.some.injEq] at h
      obtain ⟨⟨hpending, -, hk⟩, rfl⟩ := h
      rw [Step.side, advance_ends_self] at hst hlen
      rw [Step.side] at hpeer
      have hend := hl.endpoint X
      rcases hold : stage (l.ends X) <;> rw [hold] at hend
      · rw [show l.ends X = _ from hend] at hpending
        cases hpending
      · -- the peer has the nonce of this side, which has not sent it yet
        have hin := hl.inbound (!X)
        rw [Bool.not_not, hpeer.1] at hin
        have hout := congrArg List.length hin.1
        rw [Bool.not_not, hend.1.appended, List.length_append, List.length_append,
          length_keyMessage, hpeer.2] at hout
        omega
      · rcases hl.stage_of_waitNonce k r hold with hst' | hlt
        · cases hst'.symm.trans hst
        · omega
      · cases (hend.1.handleRecv r _).stage_eq.symm.trans hst

theorem not_both_full {ls : List (Step n)}
    (hrun : runSteps (Link.step parties) (new S n) ls = some l) (hS : S.Lawful) :
    ¬ ∀ X, Full l X := by
  have hpair : Inv parties hS l ∧ ¬ ∀ X, Full l X :=
    runSteps_invariant (I := fun l => Inv parties hS l ∧ ¬ ∀ X, Full l X)
      (fun hs h => ⟨hs.1.step h, hs.1.not_both_full_step h⟩)
      ⟨inv_new, fun hfull => by cases (hfull true).1⟩ hrun
  exact hpair.2

/-! ### States where nothing is on its way -/

theorem Inv.stage_ne_idle (hl : Inv parties hS l) (hstart : Started l) (X : Bool) :
    stage (l.ends X) ≠ .idle := by
  intro hst
  have hend : Endpoint n parties hS X .idle (l.ends X) := hst ▸ hl.endpoint X
  have hsome := hstart X
  rw [show l.ends X = _ from hend] at hsome
  cases hsome

/-- The peer has sent its key, so a side that has read everything has it. -/
theorem Inv.stage_ne_waitKey (hl : Inv parties hS l) (hstart : Started l)
    (hpipe : l.pipe (!X) = []) : stage (l.ends X) ≠ .waitKey := by
  intro hst
  have hin := hl.inbound X
  rw [hst, hpipe] at hin
  obtain ⟨hout, hlt⟩ := hin
  have hlen := leastLength_le (hl.endpoint (!X))
  rw [← hout, List.append_nil] at hlen
  rcases hpeer : stage (l.ends (!X)) <;> rw [hpeer, leastLength] at hlen
  · exact hl.stage_ne_idle hstart _ hpeer
  all_goals omega

/-- A side that has read everything is open or has the nonce. -/
theorem Inv.opened_or_full (hl : Inv parties hS l) (hstart : Started l)
    (hpipe : ∀ X, l.pipe X = []) (X : Bool) : stage (l.ends X) = .opened ∨ Full l X := by
  have hin := hl.inbound X
  rcases hst : stage (l.ends X)
  · exact absurd hst (hl.stage_ne_idle hstart X)
  · exact absurd hst (hl.stage_ne_waitKey hstart (hpipe _))
  · right
    rw [hst, hpipe] at hin
    obtain ⟨hout, hle⟩ := hin
    have hlen := leastLength_le (hl.endpoint (!X))
    rw [← hout, List.append_nil, List.length_append, length_keyMessage] at hlen
    refine ⟨hst, ?_⟩
    rcases hpeer : stage (l.ends (!X)) <;> rw [hpeer, leastLength] at hlen
    · exact absurd hpeer (hl.stage_ne_idle hstart _)
    · exact absurd hpeer (hl.stage_ne_waitKey hstart (hpipe _))
    all_goals omega
  · exact .inl rfl

/-- A frame of either side has had both opened. -/
theorem Inv.opened_of_frames (hl : Inv parties hS l) (hstart : Started l)
    (hpipe : ∀ X, l.pipe X = []) (hne : framesOf (l.ends X) ≠ []) (Y : Bool) :
    stage (l.ends Y) = .opened := by
  have hX := (hl.endpoint X).opened_of_frames hne
  rcases hl.opened_or_full hstart hpipe Y with hY | ⟨hst, hlen⟩
  · exact hY
  by_cases hside : Y = X
  · rw [hside]
    exact hX
  · -- the side has the handshake of the peer, and the stream of the peer goes on
    obtain rfl : X = !Y := Bool.eq_not.mpr fun e => hside e.symm
    have hin := hl.inbound Y
    rw [hst, hpipe] at hin
    refine absurd ((hl.endpoint (!Y)).frames_eq_nil ?_) hne
    rw [← hin.1, List.append_nil, List.length_append, length_keyMessage, hlen]

theorem Inv.isEstablished_of_opened (hl : Inv parties hS l) (h : stage (l.ends X) = .opened) :
    (l.ends X).isEstablished = true := by
  have hend : Endpoint n parties hS X .opened (l.ends X) := h ▸ hl.endpoint X
  obtain ⟨rn, hp⟩ := hend.1.protocol
  rw [Session.isEstablished, hp]
  rfl

/-! ### Receives use up what is on its way -/

/-- A receive whose callbacks send nothing. -/
def Step.IsReceive : Step n → Prop
  | .start _ _ => False
  | .deliver _ _ r => r = fun _ => []
  | .send _ _ => False

/-- The bytes that are on their way from a side, and those of the handshake
that it has not sent yet. -/
def debt (l : Link S n) (X : Bool) : ℕ :=
  (l.pipe X).length + (98 - (l.ends X).appended.length)

/-- What is left to be received, if no frames are sent. -/
def work (l : Link S n) : ℕ :=
  l.debt true + l.debt false

theorem work_eq (l : Link S n) (X : Bool) : l.work = l.debt X + l.debt (!X) := by
  cases X with
  | true => rfl
  | false => exact Nat.add_comm _ _

theorem debt_advance_not {s : Session (secureProtocol S n)} (hk : k ≤ (l.pipe (!X)).length) :
    (l.advance X s k).debt (!X) + k = l.debt (!X) := by
  rw [pipe, List.length_drop] at hk
  rw [debt, debt, pipe, pipe, List.length_drop, List.length_drop, advance_ends_not,
    advance_delivered_not]
  omega

/-- A side that sends no frame sends nothing beyond its handshake. -/
theorem Inv.debt_advance_self {s : Session (secureProtocol S n)} (hl : Inv parties hS l)
    (hl' : Inv parties hS (l.advance X s k)) (hframes : framesOf s = framesOf (l.ends X)) :
    (l.advance X s k).debt X = l.debt X := by
  have hend := hl.endpoint X
  have hend' := hl'.endpoint X
  have hdel' := hl'.delivered X
  have hdel := hl.delivered X
  rw [advance_ends_self] at hend' hdel'
  rw [advance_delivered_self] at hdel'
  rw [debt, debt, pipe, pipe, List.length_drop, List.length_drop, advance_ends_self,
    advance_delivered_self]
  by_cases hne : framesOf (l.ends X) = []
  · have hle := length_le_of_frames hend hne
    have hle' := length_le_of_frames hend' (hframes.trans hne)
    omega
  · rw [hend.appended_of_frames hne, hend'.appended_of_frames (hframes ▸ hne), hframes]

/-- What a receive does to the channel. -/
theorem Inv.receive_step (hl : Inv parties hS l) (hstart : Started l) {a : Step n}
    (ha : a.IsReceive) (h : Link.step parties l a = some l') :
    Inv parties hS l' ∧ Started l' ∧ (∀ X, framesOf (l'.ends X) = framesOf (l.ends X)) ∧
      l'.work < l.work := by
  have hl' := hl.step h
  cases a with
  | start X r => exact ha.elim
  | send X m => exact ha.elim
  | deliver X k r =>
      obtain rfl : r = fun _ => [] := ha
      simp only [Link.step, Option.ite_none_right_eq_some, Option.some.injEq] at h
      obtain ⟨⟨-, hpos, hk⟩, rfl⟩ := h
      have hframes := Session.sent_handleRecv_silent (l.ends X) ((l.pipe (!X)).take k)
      refine ⟨hl', forall_side (X := X) ?_ ?_, forall_side (X := X) ?_ ?_, ?_⟩
      · rw [advance_ends_self]
        exact Session.stable_isSome.handleRecv (hstart X) _ _
      · rw [advance_ends_not]
        exact hstart (!X)
      · rw [advance_ends_self]
        exact hframes
      · rw [advance_ends_not]
      · have hself := hl.debt_advance_self hl' hframes
        have hnot := debt_advance_not (s := ((l.ends X).handleRecv
          (Replies.handler fun _ => []) ((l.pipe (!X)).take k)).state) hk
        rw [work_eq l X, work_eq _ X]
        omega

/-- As long as something is on its way, it can be received. -/
theorem Inv.exists_receive (hl : Inv parties hS l) (hstart : Started l)
    (hne : ¬ ∀ X, l.pipe X = []) :
    ∃ a l', a.IsReceive ∧ Link.step parties l a = some l' := by
  obtain ⟨X, hX⟩ := not_forall.mp hne
  have hpending : (l.ends (!X)).recvPending = true := by
    have hend := hl.endpoint (!X)
    rcases hst : stage (l.ends (!X)) <;> rw [hst] at hend
    · exact absurd hst (hl.stage_ne_idle hstart _)
    all_goals exact hend.2
  refine ⟨.deliver (!X) 1 fun _ => [], _, rfl, if_pos ⟨hpending, Nat.one_pos, ?_⟩⟩
  rw [Bool.not_not]
  exact List.length_pos_iff.mpr hX

/-! ### The channel comes to rest -/

/-- Nothing is on its way: the frames of `l₀` are received, some side is
established, and both are if there is a frame. -/
structure Settled (l₀ l : Link S n) : Prop where
  sent : ∀ X, l.sent X = l₀.sent X
  received : ∀ X, l.received (!X) = l₀.sent X
  one : ∃ X, (l.ends X).isEstablished = true
  both : (∃ X, l₀.sent X ≠ []) → ∀ X, (l.ends X).isEstablished = true

theorem Inv.received_of_pipe (hl : Inv parties hS l) (hpipe : l.pipe X = []) :
    l.received (!X) = l.sent X := by
  obtain ⟨done, todo, hsent, hlast, hlog⟩ := hl.callbacks_cases (!X)
  rw [Bool.not_not] at hsent hlast
  rw [hsent, hlast hpipe, List.append_nil]
  show (l.callbacks (!X)).filterMap Callback.frame? = done
  rcases hlog with ⟨hlog, rfl⟩ | hlog <;> rw [hlog]
  · rfl
  · exact filterMap_receives done

/-- **The channel comes to rest.**  From every state that a run comes to with
both sides started, whether the handshake has stalled or not, every run of
receives whose callbacks send nothing (`IsReceive`) ends, after as many as there
are bytes to come at the latest, and some such run gets to where nothing is on
its way.  Wherever it does, every frame has been received, one side at least is
established, and both are if either has ever sent a frame. -/
theorem settles {S : Sodium} (hS : S.Lawful) {n : ℕ} {parties : Bool → Party}
    {ls : List (Step n)} {l : Link S n}
    (hrun : runSteps (Link.step parties) (new S n) ls = some l) (hstart : Started l) :
    (∃ rs l', (∀ a ∈ rs, a.IsReceive) ∧ runSteps (Link.step parties) l rs = some l' ∧
      ∀ X, l'.pipe X = []) ∧
    ∀ rs l', (∀ a ∈ rs, a.IsReceive) → runSteps (Link.step parties) l rs = some l' →
      rs.length ≤ l.work ∧ ((∀ X, l'.pipe X = []) → Settled l l') := by
  have hl : Inv parties hS l := Inv.of_run hrun
  let I : Link S n → Prop := fun t =>
    Inv parties hS t ∧ Started t ∧ ∀ X, framesOf (t.ends X) = framesOf (l.ends X)
  have hI : I l := ⟨hl, hstart, fun _ => rfl⟩
  have hdec : ∀ {t : Link S n} {a t'}, I t → a.IsReceive → Link.step parties t a = some t' →
      I t' ∧ t'.work < t.work := by
    rintro t a t' ⟨ht, htstart, htframes⟩ ha h
    obtain ⟨ht', htstart', hsame, hlt⟩ := ht.receive_step htstart ha h
    exact ⟨⟨ht', htstart', fun X => (hsame X).trans (htframes X)⟩, hlt⟩
  have hgo : ∀ {t : Link S n}, I t → (¬ ∀ X, t.pipe X = []) →
      ∃ a t', a.IsReceive ∧ Link.step parties t a = some t' :=
    fun ht => ht.1.exists_receive ht.2.1
  constructor
  · obtain ⟨rs, l', hrs, hrun', -, hpipe⟩ := exists_run_of_decreases hdec hgo hI
    exact ⟨rs, l', hrs, hrun', hpipe⟩
  intro rs l' hrs hrun'
  refine ⟨(Nat.le_add_right _ _).trans (length_add_le_of_decreases hdec hI hrs hrun'), ?_⟩
  intro hpipe
  -- where the run has come to, by receives only
  have hreached : runSteps (Link.step parties) (new S n) (ls ++ rs) = some l' := by
    rw [runSteps_append, hrun]
    exact hrun'
  obtain ⟨hl', hstart', hframes⟩ : I l' :=
    (along_of_forall (G := fun _ a => a.IsReceive) fun a ha _ => hrs a ha).invariant
      (fun ht ha h => (hdec ht ha h).1) hI hrun'
  have hsent : ∀ X, l'.sent X = l.sent X := fun X => by rw [sent, sent, hframes]
  refine ⟨hsent, fun X => (hl'.received_of_pipe (hpipe X)).trans (hsent X), ?_, ?_⟩
  · by_contra hnone
    refine not_both_full hreached hS fun X => ?_
    rcases hl'.opened_or_full hstart' hpipe X with hX | hX
    · exact absurd ⟨X, hl'.isEstablished_of_opened hX⟩ hnone
    · exact hX
  · rintro ⟨X, hX⟩ Y
    refine hl'.isEstablished_of_opened (hl'.opened_of_frames hstart' hpipe (X := X) ?_ Y)
    intro hnil
    rw [← hsent, sent, hnil] at hX
    exact hX rfl

/-- The connected side gets key and nonce at once, and stalls, until the other
side sends a frame. -/
def wokenByFrame : List (Step 2) :=
  let idle : Replies 2 := fun _ => []
  [.start true idle, .start false idle, .deliver true 37 idle, .deliver false 98 idle,
    .deliver true 61 idle, .send true ⟨(5, [1, 2], false), by decide⟩]

theorem settles_wokenByFrame :
    ∃ l l' : Link .recorded 2,
      runSteps (Link.step recordedParties) (new .recorded 2) wokenByFrame = some l ∧
      (l.ends false).isEstablished = false ∧
      runSteps (Link.step recordedParties) l [.deliver false 4 fun _ => [],
        .deliver false 5 fun _ => []] = some l' ∧ Settled l l' := by
  have hend : (runSteps (Link.step recordedParties) (new .recorded 2) wokenByFrame).map
      (fun l => (decide (∀ X, (l.ends X).protocol.isSome = true), (l.ends false).isEstablished,
        (runSteps (Link.step recordedParties) l [.deliver false 4 fun _ => [],
          .deliver false 5 fun _ => []]).any fun l' => l'.pipe true = [] ∧ l'.pipe false = []))
      = some (true, false, true) := by
    decide +kernel
  obtain ⟨l, hrun, hl⟩ := Option.map_eq_some_iff.mp hend
  simp only [Prod.mk.injEq] at hl
  obtain ⟨hstart, hest, hrest⟩ := hl
  obtain ⟨l', hrun', hpipe⟩ := (Option.any_eq_true _ _).mp hrest
  have hpipe := of_decide_eq_true hpipe
  have hstart := of_decide_eq_true hstart
  refine ⟨l, l', hrun, hest, hrun', ?_⟩
  refine ((settles Sodium.recorded_lawful hrun hstart).2 _ l' ?_ hrun').2 ?_
  · intro a ha
    rcases List.mem_pair.mp ha with rfl | rfl <;> rfl
  · rintro (- | -)
    · exact hpipe.2
    · exact hpipe.1

end Link

end Play
