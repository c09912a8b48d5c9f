/-
Play/Direct.lean

Two sessions of a protocol without a handshake.

An object of the stream or of the plain protocol is established as soon as the
session starts, and sends nothing of its own.  What its decoder takes from the
front of a buffer is what its encoder writes for the frame that it returns
(`Direct`).  So there are two equations that a session keeps, whatever the
application does and whatever happens to the connection:

    bytes read      =  frames received, encoded  ++  receive buffer
    bytes appended  =  frames sent, encoded

`Flows` is these equations with what is left in an open session, and the rest
of the file puts two such sessions at the ends of two sockets.  The connection
may be lost, and either side may close it, at any time.
-/
import Play.Closing
import Play.Wire
import Play.Wires

namespace Play

/-! ### Protocols without a handshake -/

/-- A protocol that is established from the start, and whose decoder undoes
`code`; `Taken` is what it can return. -/
structure Direct (P : Protocol) where
  code : P.Topic → Bytes → Bytes
  Taken : P.Topic × Bytes → Prop
  lawful : P.Lawful
  accepted : ∀ handle e, (P.accepted (P.make handle e)).2 = [] ∧
    P.isEstablished (P.accepted (P.make handle e)).1 = true
  connected : ∀ handle e, (P.connected (P.make handle e)).2 = [] ∧
    P.isEstablished (P.connected (P.make handle e)).1 = true
  encode : ∀ {p} t d e, P.isEstablished p = true → P.encode p t d e = (p, .ok (code t d))
  decode : ∀ b, ∃ r, (∀ p, P.decode p b = (p, .ok r)) ∧ r.src = b ∧ r.consumed ≤ b.length ∧
    (0 < r.consumed → Taken (r.topic, r.frame) ∧ b = code r.topic r.frame ++ b.drop r.consumed)
  handshake : ∀ p b, P.handshake p b = (p, .ok (0, []))

/-- Nothing can be taken from the front of the buffer. -/
def Protocol.Settled (P : Protocol) (b : Bytes) : Prop :=
  ∀ p r, P.decode p b = (p, .ok r) → r.consumed = 0

namespace Direct

variable {P : Protocol} (D : Direct P)

/-- The bytes for a list of frames. -/
def codeAll (fs : List (P.Topic × Bytes)) : Bytes :=
  fs.flatMap fun f => D.code f.1 f.2

theorem codeAll_append (fs gs : List (P.Topic × Bytes)) :
    D.codeAll (fs ++ gs) = D.codeAll fs ++ D.codeAll gs :=
  List.flatMap_append

theorem codeAll_snoc (fs : List (P.Topic × Bytes)) (t : P.Topic) (d : Bytes) :
    D.codeAll (fs ++ [(t, d)]) = D.codeAll fs ++ D.code t d := by
  rw [codeAll_append, codeAll, codeAll, List.flatMap_singleton]

include D in
theorem keepsSize : Session.KeepsSize P := by
  intro p b p' r h
  obtain ⟨x, hx, hsrc, -⟩ := D.decode b
  rw [hx p] at h
  cases h
  rw [hsrc]

include D in
theorem settled_nil : P.Settled [] := by
  intro p r h
  obtain ⟨x, hx, -, hle, -⟩ := D.decode []
  rw [hx p] at h
  cases h
  exact Nat.le_zero.mp hle

end Direct

theorem LinkState.isEstablished_of_open {p : LinkState} (h : p.isEstablished = true) :
    p.closed = false := by
  rw [isEstablished, Bool.and_eq_true] at h
  simpa using h.2

/-- `stream_protocol`: a frame is what has arrived. -/
def streamDirect : Direct streamProtocol where
  code _ d := d
  Taken _ := True
  lawful := streamProtocol_lawful
  accepted _ _ := ⟨rfl, rfl⟩
  connected _ _ := ⟨rfl, rfl⟩
  encode _ _ _ h := if_neg (by rw [LinkState.isEstablished_of_open h]; exact Bool.false_ne_true)
  decode b := ⟨⟨b.length, b, (), b⟩, fun _ => rfl, rfl, le_rfl,
    fun _ => ⟨trivial, by rw [List.drop_length, List.append_nil]⟩⟩
  handshake _ _ := rfl

/-- `plain_protocol`: a frame is a topic and a payload with its length. -/
def plainDirect (n : ℕ) : Direct (plainProtocol n) where
  code t d := serialize t ++ LengthDelimited.encode d
  Taken := (plainCodec n).Valid
  lawful := plainProtocol_lawful n
  accepted _ _ := ⟨rfl, rfl⟩
  connected _ _ := ⟨rfl, rfl⟩
  encode _ _ _ h := if_neg (by rw [LinkState.isEstablished_of_open h]; exact Bool.false_ne_true)
  decode b := by
    refine ⟨plainDecode n b, fun _ => rfl, plainDecode_src n b, ?_, fun hpos => ?_⟩
    · by_cases hpos : 0 < (plainDecode n b).consumed
      · obtain ⟨hlen, hne, hd⟩ := plainDecode_consumed hpos
        have hle := LengthDelimited.length_decode_le hne
        rw [List.length_drop] at hle
        rw [plainMinSize] at hlen
        rw [hd]
        dsimp only
        omega
      · omega
    · obtain ⟨hlen, hne, hd⟩ := plainDecode_consumed hpos
      have hn : n ≤ b.length := by
        rw [plainMinSize] at hlen
        omega
      rw [hd]
      refine ⟨⟨List.length_pos_of_ne_nil hne, LengthDelimited.length_decode_lt _⟩, ?_⟩
      dsimp only
      rw [serialize_deserialize_take hn, Nat.add_assoc, ← List.drop_drop, List.append_assoc,
        ← LengthDelimited.encode_decode hne, List.take_append_drop]
  handshake _ _ := rfl

/-! ### Applications -/

/-- A call that sends a frame, or closes. -/
def AppCall.Framed {T : Type} : AppCall T → Prop
  | .sendRaw _ => False
  | .send .. | .close => True

/-- The callbacks return; if `framed`, what they send are frames. -/
def Polite {T : Type} (framed : Prop) (h : Handler T) : Prop :=
  ∀ log, (h log).throws = false ∧ (framed → ∀ c ∈ (h log).calls, c.Framed)

namespace Session

variable {P : Protocol}

/-- The frames that the application was given. -/
def framesIn (s : Session P) : List (P.Topic × Bytes) :=
  s.log.filterMap Callback.frame?

/-- The frames that the application asked to send, less those that `send` has
to refuse for their size. -/
def framesOut (s : Session P) : List (P.Topic × Bytes) :=
  (s.sent.filter fun m => decide (0 < m.2.1.length ∧ m.2.1.length < P.maxSendSize)).map
    fun m => (m.1, m.2.1)

/-! ### What a session keeps -/

/-- The two equations of a session that has started and read the bytes
`input`, and what is left in one that is open. -/
structure Flows (D : Direct P) (framed : Prop) (input : Bytes) (s : Session P) : Prop where
  live : ∃ p, s.protocol = some p ∧ (s.isOpen = true → P.isEstablished p = true)
  reads : D.codeAll s.framesIn ++ s.recvBuf = input
  taken : ∀ f ∈ s.framesIn, D.Taken f
  writes : framed → ∃ fs, fs <+: s.framesOut ∧ (s.isOpen = true → fs = s.framesOut) ∧
    s.appended = D.codeAll fs

variable {D : Direct P} {framed : Prop} {input : Bytes} {s s' : Session P} {h : Handler P.Topic}

theorem framesOut_snoc (s : Session P) (t : P.Topic) (d : Bytes) (e : Bool) :
    framesOut { s with sent := s.sent ++ [(t, d, e)] } = s.framesOut ++
      if 0 < d.length ∧ d.length < P.maxSendSize then [(t, d)] else [] := by
  show ((s.sent ++ [(t, d, e)]).filter _).map _ = _
  rw [List.filter_append, List.map_append, List.filter_singleton]
  by_cases hd : 0 < d.length ∧ d.length < P.maxSendSize
  · simp [hd, framesOut]
  · simp [hd, framesOut]

/-- A frame is appended whole, or the socket is closed, or the size is wrong. -/
theorem Flows.send (hs : Flows D framed input s) (t : P.Topic) (d : Bytes) (e : Bool) :
    Flows D framed input (s.send t d e).1 := by
  have hsame := sameRecv_send s t d e
  obtain ⟨p, hp, hest⟩ := hs.live
  have hout := framesOut_snoc s t d e
  by_cases hlets : s.LetsThrough d
  · obtain ⟨ho, hpos, hmax⟩ := hlets
    obtain ⟨ho', hp', happ, hsent⟩ := send_of_encode ho hpos hmax hp (D.encode t d e (hest ho))
    refine ⟨⟨p, hp', fun _ => hest ho⟩, ?_, ?_, fun hf => ?_⟩
    · rw [framesIn, hsame.log, hsame.recvBuf]
      exact hs.reads
    · rw [framesIn, hsame.log]
      exact hs.taken
    · obtain ⟨fs, -, hfs, hstream⟩ := hs.writes hf
      obtain rfl := hfs ho
      have hout' : (s.send t d e).1.framesOut = s.framesOut ++ [(t, d)] := by
        rw [if_pos ⟨hpos, hmax⟩] at hout
        rw [framesOut, hsent]
        exact hout
      refine ⟨_, List.prefix_rfl, fun _ => rfl, ?_⟩
      rw [happ, hout', D.codeAll_snoc, hstream]
  · rw [send_of_not_letsThrough hlets]
    refine ⟨hs.live, hs.reads, hs.taken, fun hf => ?_⟩
    obtain ⟨fs, hpre, hfs, hstream⟩ := hs.writes hf
    refine ⟨fs, ?_, fun ho => ?_, hstream⟩
    · rw [hout]
      exact hpre.trans (List.prefix_append _ _)
    · rw [hout, if_neg fun hd => hlets ⟨ho, hd⟩, List.append_nil]
      exact hfs ho

theorem Flows.appCall (hs : Flows D framed input s) {c : AppCall P.Topic}
    (hc : framed → c.Framed) : Flows D framed input (s.appCall c) := by
  cases c with
  | sendRaw b =>
      have hsame := sameRecv_sendRaw s b
      refine ⟨?_, ?_, ?_, fun hf => absurd (hc hf) id⟩
      · rw [Session.appCall, protocol_sendRaw, isOpen_sendRaw]
        exact hs.live
      · rw [Session.appCall, framesIn, hsame.log, hsame.recvBuf]
        exact hs.reads
      · rw [Session.appCall, framesIn, hsame.log]
        exact hs.taken
  | send t d e => exact hs.send t d e
  | close =>
      rw [Session.appCall, close_eq]
      obtain ⟨p, hp, -⟩ := hs.live
      refine ⟨⟨p, hp, fun ho => absurd ho Bool.false_ne_true⟩, hs.reads, hs.taken, fun hf => ?_⟩
      obtain ⟨fs, hpre, -, hstream⟩ := hs.writes hf
      exact ⟨fs, hpre, fun ho => absurd ho Bool.false_ne_true, hstream⟩

/-- What the application does in a callback. -/
theorem Flows.notify {c : Callback P.Topic} (hh : Polite framed h)
    (hs : Flows D framed input { s with log := s.log ++ [c] }) :
    Flows D framed input (notify h c s).state := by
  rw [notify_state]
  have hcalls := (hh (s.log ++ [c])).2
  generalize (h (s.log ++ [c])).calls = cs at hcalls
  generalize ({ s with log := s.log ++ [c] } : Session P) = t at hs
  induction cs generalizing t with
  | nil => exact hs
  | cons c cs ih =>
      refine ih (fun hf c' hc' => hcalls hf c' (List.mem_cons_of_mem _ hc')) _ (hs.appCall ?_)
      exact fun hf => hcalls hf c List.mem_cons_self

/-- A callback that brings no frame. -/
theorem Flows.notify_of_frame? (hs : Flows D framed input s) (hh : Polite framed h)
    {c : Callback P.Topic} (hc : c.frame? = none) :
    Flows D framed input (Session.notify h c s).state := by
  have hin : framesIn { s with log := s.log ++ [c] } = s.framesIn := by
    show (s.log ++ [c]).filterMap _ = _
    rw [List.filterMap_append, List.filterMap_cons_none hc, List.filterMap_nil, List.append_nil]
    rfl
  exact Flows.notify hh ⟨hs.live, hin ▸ hs.reads, hin ▸ hs.taken, hs.writes⟩

/-! ### Receiving -/

/-- One turn of `recv_frames`: a frame is taken, or the rest is no frame. -/
theorem Flows.recvFramesTurn (hs : Flows D framed input s) (hh : Polite framed h) :
    (∃ s', Session.recvFramesTurn h s = .next s' ∧ Flows D framed input s') ∨
      ∃ s', Session.recvFramesTurn h s = .exit s' ∧ Flows D framed input s' ∧
        P.Settled s'.recvBuf := by
  obtain ⟨q, hq, hest⟩ := hs.live
  rcases recvFramesTurn_cases h s with ⟨hnil | hnone, ht⟩ | ⟨p, p', hp, -, hr⟩
  · refine .inr ⟨s, ht, hs, ?_⟩
    rw [hnil]
    exact D.settled_nil
  · rw [hq] at hnone
    cases hnone
  obtain rfl : q = p := Option.some.inj (hq.symm.trans hp)
  obtain ⟨x, hx, hsrc, -, hcode⟩ := D.decode s.recvBuf
  rcases hr with ⟨e, he, -⟩ | ⟨r, hr, hcases⟩
  · cases (hx q).symm.trans he
  obtain ⟨rfl, rfl⟩ : q = p' ∧ x = r := by
    cases (hx q).symm.trans hr
    exact ⟨rfl, rfl⟩
  have hset : ({ s with protocol := some q, recvBuf := x.src } : Session P) = s := by
    rw [hsrc, ← hq]
  rw [hset] at hcases
  rcases hcases with ⟨hzero, ht⟩ | ⟨-, s₁, hthrow, -⟩ | ⟨hpos, s₁, hdone, ht⟩
  · refine .inr ⟨s, ht, hs, fun p r hd => ?_⟩
    cases (hx p).symm.trans hd
    exact hzero
  · have hthrows := throws_of_notify hthrow
    rw [(hh _).1] at hthrows
    cases hthrows
  · refine .inl ⟨_, ht, ?_⟩
    obtain ⟨htaken, hb⟩ := hcode hpos
    have hin : framesIn { s with log := s.log ++ [.receive x.topic x.frame] }
        = s.framesIn ++ [(x.topic, x.frame)] := by
      show (s.log ++ [_]).filterMap _ = _
      rw [List.filterMap_append]
      rfl
    -- during the callback the frame is still in the buffer
    have hnotify :
        Flows D framed (D.codeAll (s.framesIn ++ [(x.topic, x.frame)]) ++ s.recvBuf) s₁ := by
      have hn := Flows.notify (c := .receive x.topic x.frame) hh (s := s) ⟨hs.live,
        congrArg (fun fs => D.codeAll fs ++ s.recvBuf) hin, ?_, hs.writes⟩
      · rw [hdone] at hn
        exact hn
      · intro f hf
        rw [hin] at hf
        rcases List.mem_append.mp hf with hf | hf
        · exact hs.taken f hf
        · rw [List.mem_singleton.mp hf]
          exact htaken
    have hsame := sameRecv_notify h (.receive x.topic x.frame) s
    rw [hdone] at hsame
    refine ⟨hnotify.live, ?_, hnotify.taken, hnotify.writes⟩
    show D.codeAll s₁.framesIn ++ s₁.recvBuf.drop x.consumed = input
    rw [show s₁.framesIn = _ from congrArg (List.filterMap Callback.frame?) hsame.log,
      show s₁.recvBuf = s.recvBuf from hsame.recvBuf]
    change D.codeAll (framesIn { s with log := s.log ++ [.receive x.topic x.frame] }) ++ _ = input
    rw [hin, D.codeAll_snoc, List.append_assoc, ← hb]
    exact hs.reads

/-- `recv_frames` takes all the frames that there are. -/
theorem Flows.recvFrames (hs : Flows D framed input s) (hh : Polite framed h) :
    Flows D framed input (s.recvFrames h) ∧ P.Settled (s.recvFrames h).recvBuf := by
  have hends : RecvFramesEnds h s (s.recvFrames h) := recvFramesLoop_ends D.keepsSize h le_rfl
  generalize s.recvFrames h = s' at hends
  induction hends with
  | exit ht =>
      rcases hs.recvFramesTurn hh with ⟨s₁, h₁, -⟩ | ⟨s₁, h₁, hs₁⟩
      · cases h₁.symm.trans ht
      · cases h₁.symm.trans ht
        exact hs₁
  | next ht _ ih =>
      rcases hs.recvFramesTurn hh with ⟨s₁, h₁, hs₁⟩ | ⟨s₁, h₁, -⟩
      · cases h₁.symm.trans ht
        exact ih hs₁
      · cases h₁.symm.trans ht

/-- What has arrived is read; an open session leaves no frame behind. -/
theorem Flows.handleRecv (hs : Flows D framed input s) (hh : Polite framed h) (chunk : Bytes) :
    Flows D framed (input ++ chunk) (s.handleRecv h chunk).state ∧
      ((s.handleRecv h chunk).state.isOpen = true →
        P.Settled (s.handleRecv h chunk).state.recvBuf) := by
  obtain ⟨p, hp, hest⟩ := hs.live
  have hcommit : Flows D framed (input ++ chunk) (s.commitRecv chunk) := by
    refine ⟨hs.live, ?_, hs.taken, hs.writes⟩
    show D.codeAll s.framesIn ++ (s.recvBuf ++ chunk) = input ++ chunk
    rw [← List.append_assoc, hs.reads]
  rcases handleRecv_cases h hp chunk with ⟨-, hr⟩ | ⟨hshut, p', ⟨e, he, -⟩ | ⟨n, buf, he, hr⟩⟩
  · rw [hr]
    obtain ⟨hframes, hset⟩ := hcommit.recvFrames hh
    exact ⟨⟨hframes.live, hframes.reads, hframes.taken, hframes.writes⟩, fun _ => hset⟩
  · cases (D.handshake _ _).symm.trans he
  · -- a closed object takes part in no handshake
    cases (D.handshake _ _).symm.trans he
    rcases hr with ⟨hest', -⟩ | ⟨-, hr⟩
    · rw [hshut] at hest'
      cases hest'
    have hsame : (s.commitRecv chunk).takeHandshake p 0 [] = s.commitRecv chunk := by
      show { s.commitRecv chunk with protocol := some p } = _
      rw [← hp]
      rfl
    rw [hr, hsame]
    refine ⟨⟨hcommit.live, hcommit.reads, hcommit.taken, hcommit.writes⟩, fun ho => ?_⟩
    rw [hest ho] at hshut
    cases hshut

/-- The end of the connection. -/
theorem Flows.handleClose (hs : Flows D framed input s) (hh : Polite framed h) :
    Flows D framed input (s.handleClose h).state ∧ (s.handleClose h).state.isOpen = false := by
  rw [Session.handleClose]
  split
  · obtain ⟨p, hp, -⟩ := hs.live
    have hclosed : Flows D framed input
        { s with isOpen := false, protocol := s.protocol.map P.closed } := by
      refine ⟨⟨P.closed p, by rw [hp]; rfl, fun ho => absurd ho Bool.false_ne_true⟩, hs.reads,
        hs.taken, fun hf => ?_⟩
      obtain ⟨fs, hpre, -, hstream⟩ := hs.writes hf
      exact ⟨fs, hpre, fun ho => absurd ho Bool.false_ne_true, hstream⟩
    rw [close_eq]
    refine ⟨hclosed.notify_of_frame? hh rfl, ?_⟩
    rw [notify_state]
    exact foldl_appCall_invariant (I := fun t => t.isOpen = false)
      (fun c ht => isOpen_appCall_of_shut ht c) rfl _
  · next ho => exact ⟨hs, by simpa using ho⟩

/-! ### Steps -/

/-- The bytes that a step has received. -/
def Step.chunk : Step P → Bytes
  | .recvDone _ chunk => chunk
  | .start .. | .recvFailed _ | .sendDone _ | .sendFailed _ | .app _ => []

/-- The application is polite in the callbacks of a step. -/
def Step.Polite (framed : Prop) : Step P → Prop
  | .start h _ _ _ | .recvDone h _ | .recvFailed h | .sendFailed h => Play.Polite framed h
  | .sendDone _ => True
  | .app c => framed → c.Framed

/-- A session between two of its steps. -/
structure Rests (D : Direct P) (framed : Prop) (input : Bytes) (s : Session P) : Prop where
  flows : Flows D framed input s
  settled : s.isOpen = true → P.Settled s.recvBuf

/-- What the members for sending are does not matter. -/
theorem Rests.alike (hs : Rests D framed input s) (h : s.Alike s') : Rests D framed input s' := by
  obtain ⟨t, rfl⟩ := h
  exact ⟨⟨hs.flows.live, hs.flows.reads, hs.flows.taken, hs.flows.writes⟩, hs.settled⟩

theorem Rests.step (hs : Rests D framed input s) {l : Step P} (hl : l.Polite framed)
    (hstep : s.step l = some s') : Rests D framed (input ++ l.chunk) s' := by
  have hclose : ∀ {t : Session P} {h : Handler P.Topic}, Flows D framed input t →
      Play.Polite framed h → Rests D framed (input ++ []) (t.handleClose h).state := by
    intro t h ht hh
    obtain ⟨hflows, hshut⟩ := ht.handleClose hh
    rw [List.append_nil]
    refine ⟨hflows, fun ho => ?_⟩
    rw [hshut] at ho
    cases ho
  have hflows := hs.flows
  cases l with
  | start h handle e peer =>
      obtain ⟨p, hp, -⟩ := hflows.live
      obtain ⟨hnone, -⟩ := Option.ite_none_right_eq_some.mp hstep
      rw [hp] at hnone
      cases hnone
  | recvDone h chunk =>
      obtain ⟨-, hstep⟩ := Option.ite_none_right_eq_some.mp hstep
      obtain rfl := Option.some.inj hstep
      exact ⟨(hflows.handleRecv hl chunk).1, (hflows.handleRecv hl chunk).2⟩
  | recvFailed h =>
      obtain ⟨-, hstep⟩ := Option.ite_none_right_eq_some.mp hstep
      obtain rfl := Option.some.inj hstep
      exact hclose ⟨hflows.live, hflows.reads, hflows.taken, hflows.writes⟩ hl
  | sendDone len =>
      rw [Session.step] at hstep
      split at hstep
      · cases hstep
      · obtain ⟨-, hstep⟩ := Option.ite_none_right_eq_some.mp hstep
        obtain rfl := Option.some.inj hstep
        show Rests D framed (input ++ []) _
        rw [List.append_nil]
        exact hs.alike (alike_sendDone s _ len)
  | sendFailed h =>
      obtain ⟨-, hstep⟩ := Option.ite_none_right_eq_some.mp hstep
      obtain rfl := Option.some.inj hstep
      exact hclose ⟨hflows.live, hflows.reads, hflows.taken, hflows.writes⟩ hl
  | app c =>
      obtain ⟨-, hstep⟩ := Option.ite_none_right_eq_some.mp hstep
      obtain rfl := Option.some.inj hstep
      show Rests D framed (input ++ []) _
      rw [List.append_nil]
      refine ⟨hflows.appCall hl, fun ho => ?_⟩
      rw [(sameRecv_appCall s c).recvBuf]
      exact hs.settled (isOpen_of_appCall ho)

/-- The first step of a session is its start. -/
theorem Rests.of_new {accepted : Bool} {l : Step P} (hl : l.Polite framed)
    (hstep : Session.step (.new accepted) l = some s') :
    Rests D framed [] s' ∧ l.chunk = [] := by
  cases l with
  | start h handle e peer =>
      obtain rfl : ((.new accepted : Session P).start h handle e peer).state = s' :=
        Option.some.inj hstep
      refine ⟨?_, rfl⟩
      have hopened : (openProtocol (.new accepted : Session P) handle e).2 = [] ∧
          P.isEstablished (openProtocol (.new accepted : Session P) handle e).1 = true := by
        cases accepted with
        | true => exact D.accepted handle e
        | false => exact D.connected handle e
      have hlaunch : Flows D framed [] ((.new accepted : Session P).launch handle e) := by
        rw [launch, hopened.1]
        exact ⟨⟨_, rfl, fun _ => hopened.2⟩, rfl, fun _ hf => absurd hf List.not_mem_nil,
          fun _ => ⟨[], List.prefix_rfl, fun _ => rfl, rfl⟩⟩
      have hbuf : ((.new accepted : Session P).launch handle e).recvBuf = [] := by
        rw [launch, hopened.1]
        rfl
      rcases start_cases h (.new accepted) handle e peer with hr | ⟨-, hr⟩ | ⟨hest, -⟩
      · rw [hr]
        refine ⟨hlaunch, fun _ => ?_⟩
        rw [Outcome.state, hbuf]
        exact D.settled_nil
      · rw [hr]
        have hstarted : Flows D framed []
            ((.new accepted : Session P).launch handle e).startRecv :=
          ⟨hlaunch.live, hlaunch.reads, hlaunch.taken, hlaunch.writes⟩
        refine ⟨hstarted.notify_of_frame? hl rfl, fun _ => ?_⟩
        rw [(sameRecv_notify h .established _).recvBuf]
        show P.Settled ((.new accepted : Session P).launch handle e).recvBuf
        rw [hbuf]
        exact D.settled_nil
      · rw [hopened.2] at hest
        cases hest
  | recvDone h chunk => cases hstep
  | recvFailed h => cases hstep
  | sendDone len => cases hstep
  | sendFailed h => cases hstep
  | app c => cases hstep

/-! ### What was written -/

theorem written_startSend (s : Session P) : s.startSend.written = s.written := by
  rw [startSend_eq]

theorem written_append (s : Session P) (b : Bytes) :
    (if !(s.appendAcc b).sending then (s.appendAcc b).startSend else s.appendAcc b).written
      = s.written := by
  split
  · exact written_startSend _
  · rfl

theorem written_appCall (s : Session P) (c : AppCall P.Topic) :
    (s.appCall c).written = s.written := by
  cases c with
  | sendRaw b =>
      rw [Session.appCall, sendRaw]
      split
      · rfl
      · exact written_append s b
  | send t d e =>
      rw [Session.appCall]
      rcases send_cases s t d e with h | ⟨p, -, -, ⟨p', err, -, h⟩ | ⟨p', bytes, -, h⟩⟩ <;> rw [h]
      exact written_append { s with sent := _, protocol := _ } bytes
  | close =>
      rw [Session.appCall, close_eq]

/-- What was written stays written. -/
theorem written_prefix {l : Step P} (hstep : s.step l = some s') : s.written <+: s'.written := by
  have hI : Stable fun t : Session P => s.written <+: t.written :=
    ⟨fun h _ _ _ _ _ => h, fun h _ => h, fun {t} c h => (written_appCall t c).symm ▸ h⟩
  refine hI.step List.prefix_rfl (fun index size len _ _ _ _ => ?_) (fun h => ?_) (fun h => ?_)
    hstep
  · rw [Session.handleSend, written_startSend]
    exact List.prefix_append _ _
  · exact hI.handleClose (s := { s with sendPending := none }) List.prefix_rfl h List.prefix_rfl
  · exact hI.handleClose (s := { s with recvPending := false }) List.prefix_rfl h List.prefix_rfl

end Session

/-! ### Two sessions and their sockets -/

/-- Two sessions, and how much of what each has written the other has read. -/
structure Conversation (P : Protocol) where
  ends : Bool → Session P
  read : Bool → ℕ

namespace Conversation

variable {P : Protocol}

/-- Two sessions that have not started. -/
def new : Conversation P where
  ends X := .new X
  read _ := 0

/-- What `X` has written and the other side has not read. -/
def wire (c : Conversation P) (X : Bool) : Bytes :=
  (c.ends X).written.drop (c.read X)

/-- The session of `X` becomes `s`, having read `k` bytes. -/
def advance (c : Conversation P) (X : Bool) (s : Session P) (k : ℕ) : Conversation P where
  ends := Function.update c.ends X s
  read := Function.update c.read (!X) (c.read (!X) + k)

/-- The step function: any step of either session; what is received is next on
the wire. -/
def step (c : Conversation P) (a : Bool × Session.Step P) : Option (Conversation P) :=
  if a.2.chunk <+: c.wire (!a.1) then
    ((c.ends a.1).step a.2).map fun s => c.advance a.1 s a.2.chunk.length
  else none

/-- The socket writes the buffer that it was given. -/
def WritesWhole (c : Conversation P) (a : Bool × Session.Step P) : Prop :=
  (c.ends a.1).WritesWhole a.2

instance (c : Conversation P) (a : Bool × Session.Step P) : Decidable (c.WritesWhole a) :=
  inferInstanceAs (Decidable ((c.ends a.1).WritesWhole a.2))

/-- The frames that `X` was given. -/
def received (c : Conversation P) (X : Bool) : List (P.Topic × Bytes) :=
  (c.ends X).framesIn

/-- The frames that `X` asked to send. -/
def sent (c : Conversation P) (X : Bool) : List (P.Topic × Bytes) :=
  (c.ends X).framesOut

/-- Both sides keep their equations. -/
structure Inv (D : Direct P) (framed : Prop) (c : Conversation P) : Prop where
  side : ∀ X, (c.ends X = .new X ∧ c.read (!X) = 0) ∨
    Session.Rests D framed ((c.ends (!X)).written.take (c.read (!X))) (c.ends X)
  ordered : ∀ X, Session.SendOrdered (c.ends X)
  bound : ∀ X, c.read X ≤ (c.ends X).written.length

variable {D : Direct P} {framed : Prop} {c c' : Conversation P} {a : Bool × Session.Step P}

section

variable (c : Conversation P) (X : Bool) (s : Session P) (k : ℕ)

@[simp] theorem advance_ends_self : (c.advance X s k).ends X = s :=
  Function.update_self ..

@[simp] theorem advance_ends_not : (c.advance X s k).ends (!X) = c.ends (!X) :=
  Function.update_of_ne (by simp) ..

@[simp] theorem advance_read_self : (c.advance X s k).read X = c.read X :=
  Function.update_of_ne (by simp) ..

@[simp] theorem advance_read_not : (c.advance X s k).read (!X) = c.read (!X) + k :=
  Function.update_self ..

end

theorem inv_new : Inv D framed (new : Conversation P) :=
  ⟨fun _ => .inl ⟨rfl, rfl⟩, fun X => Session.sendOrdered_new X, fun _ => le_rfl⟩

theorem Inv.step (h : Inv D framed c) (ha : a.2.Polite framed ∧ c.WritesWhole a)
    (hs : c.step a = some c') : Inv D framed c' := by
  obtain ⟨X, l⟩ := a
  obtain ⟨hpolite, hwhole⟩ := ha
  obtain ⟨hchunk, hs⟩ := Option.ite_none_right_eq_some.mp hs
  obtain ⟨s', hs', rfl⟩ := Option.map_eq_some_iff.mp hs
  change l.chunk <+: c.wire (!X) at hchunk
  change (c.ends X).step l = some s' at hs'
  have hwritten := Session.written_prefix hs'
  -- the side that moves has read what was next
  have hinput : (c.ends (!X)).written.take (c.read (!X) + l.chunk.length)
      = (c.ends (!X)).written.take (c.read (!X)) ++ l.chunk := by
    rw [List.take_add]
    exact congrArg _ (List.prefix_iff_eq_take.mp hchunk).symm
  -- and the other side no more than before
  have htake : s'.written.take (c.read X) = (c.ends X).written.take (c.read X) := by
    obtain ⟨more, hmore⟩ := hwritten
    rw [← hmore, List.take_append_of_le_length (h.bound X)]
  show Inv D framed (c.advance X s' l.chunk.length)
  refine ⟨Link.forall_side (X := X) (.inr ?_) ?_, Link.forall_side (X := X) ?_ ?_,
    Link.forall_side (X := X) ?_ ?_⟩
  · rw [advance_ends_self, advance_ends_not, advance_read_not, hinput]
    rcases h.side X with ⟨hnew, hzero⟩ | hrests
    · rw [hnew] at hs'
      obtain ⟨hstarted, hnone⟩ := Session.Rests.of_new hpolite hs'
      rw [hzero, hnone]
      exact hstarted
    · exact hrests.step hpolite hs'
  · have hside := h.side (!X)
    rw [Bool.not_not] at hside ⊢
    rw [advance_ends_self, advance_ends_not, advance_read_self, htake]
    exact hside
  · rw [advance_ends_self]
    exact (h.ordered X).step hwhole hs'
  · rw [advance_ends_not]
    exact h.ordered (!X)
  · rw [advance_ends_self, advance_read_self]
    exact (h.bound X).trans hwritten.length_le
  · rw [advance_ends_not, advance_read_not]
    have hlen := hchunk.length_le
    have hbound := h.bound (!X)
    rw [wire, List.length_drop] at hlen
    omega

/-- **Run rule.** -/
theorem Inv.of_run {as : List (Bool × Session.Step P)} (hpolite : ∀ a ∈ as, a.2.Polite framed)
    (hwhole : Along Conversation.step WritesWhole new as)
    (hrun : runSteps Conversation.step new as = some c) : Inv D framed c :=
  (hwhole.and_forall hpolite).invariant Inv.step inv_new hrun

/-- **What arrives.**  The frames received, encoded, and the bytes left in the
buffer are the first bytes that the peer appended, and all of them when the
peer has nothing outstanding and everything was read. -/
theorem Inv.arrived (h : Inv D framed c) (X : Bool) :
    ∃ rest more, D.codeAll (c.received (!X)) ++ rest ++ more = (c.ends X).appended ∧
      (∀ f ∈ c.received (!X), D.Taken f) ∧
      ((c.ends (!X)).isOpen = true → P.Settled rest) ∧
      ((c.ends X).isOpen = true → (c.ends X).sendPending = none → c.wire X = [] → more = []) := by
  obtain ⟨⟨unwritten, hunwritten⟩, hidle⟩ := (h.ordered X).fifoOut
  have hread : ∃ rest, D.codeAll (c.received (!X)) ++ rest = (c.ends X).written.take (c.read X) ∧
      (∀ f ∈ c.received (!X), D.Taken f) ∧ ((c.ends (!X)).isOpen = true → P.Settled rest) := by
    have hside := h.side (!X)
    rw [Bool.not_not] at hside
    rcases hside with ⟨hnew, hzero⟩ | hrests
    · rw [received, hnew, hzero]
      exact ⟨[], rfl, nofun, fun _ => D.settled_nil⟩
    · exact ⟨_, hrests.flows.reads, hrests.flows.taken, hrests.settled⟩
  obtain ⟨rest, hrest, htaken, hset⟩ := hread
  refine ⟨rest, c.wire X ++ unwritten, ?_, htaken, hset, fun ho hnone hwire => ?_⟩
  · rw [hrest, wire, ← List.append_assoc, List.take_append_drop, hunwritten]
  · have hall := hidle hnone ho
    rw [hall, List.append_right_eq_self] at hunwritten
    rw [hwire, hunwritten, List.append_nil]

/-- **What is sent.**  With calls that send frames only, the bytes appended
are those of the frames that were asked for, up to the close. -/
theorem Inv.appended (h : Inv D True c) (X : Bool) :
    ∃ fs, fs <+: c.sent X ∧ ((c.ends X).isOpen = true → fs = c.sent X) ∧
      (c.ends X).appended = D.codeAll fs := by
  rcases h.side X with ⟨hnew, -⟩ | hrests
  · rw [sent, hnew]
    exact ⟨[], List.prefix_rfl, fun _ => rfl, rfl⟩
  · exact hrests.flows.writes trivial

/-! ### The two protocols -/

/-- `plainDirect` and `plainCodec` write the same bytes. -/
theorem codeAll_eq_encodeAll {n : ℕ} (fs : List ((plainProtocol n).Topic × Bytes)) :
    (plainDirect n).codeAll fs = (plainCodec n).encodeAll () fs := by
  induction fs with
  | nil => rfl
  | cons f fs ih =>
      show (plainCodec n).encode () f ++ (plainDirect n).codeAll fs = _
      rw [ih]
      rfl

/-- **No byte is lost, doubled or moved**: in every run of two stream sessions
whose callbacks return, over sockets that write whole buffers, a side has
received the first bytes that its peer sent, with whatever calls; and all of
them, when both are open, nothing is outstanding and everything was read. -/
theorem stream_exact {as : List (Bool × Session.Step streamProtocol)}
    {c : Conversation streamProtocol} (hpolite : ∀ a ∈ as, a.2.Polite False)
    (hwhole : Along step WritesWhole new as)
    (hrun : runSteps step new as = some c) (X : Bool) :
    (c.received (!X)).flatMap Prod.snd <+: (c.ends X).appended ∧
      ((c.ends X).isOpen = true → (c.ends X).sendPending = none → c.wire X = [] →
        (c.ends (!X)).isOpen = true →
        (c.received (!X)).flatMap Prod.snd = (c.ends X).appended) := by
  have hinv : Inv streamDirect False c := Inv.of_run hpolite hwhole hrun
  obtain ⟨rest, more, hstream, -, hset, hmore⟩ := hinv.arrived X
  change (c.received (!X)).flatMap Prod.snd ++ rest ++ more = _ at hstream
  refine ⟨⟨rest ++ more, by rw [← List.append_assoc, hstream]⟩, fun ho hnone hwire ho' => ?_⟩
  -- what has arrived is handed on at once
  have hrest : rest.length = 0 := hset ho' { handle := 0 } ⟨rest.length, rest, (), rest⟩ rfl
  rw [← hstream, hmore ho hnone hwire, List.length_eq_zero_iff.mp hrest, List.append_nil,
    List.append_nil]

/-- Three bytes are written at once, and read in two parts. -/
def threeBytes : List (Bool × Session.Step streamProtocol) :=
  [(true, .start Session.silent 5 () true), (false, .start Session.silent 6 () true),
    (false, .app (.sendRaw [1, 2, 3])), (false, .sendDone 3), (true, .recvDone Session.silent [1]),
    (true, .recvDone Session.silent [2, 3])]

theorem stream_exact_threeBytes :
    ∃ c, runSteps step new threeBytes = some c ∧
      c.received true = [((), [1]), ((), [2, 3])] ∧
      (c.received true).flatMap Prod.snd = (c.ends false).appended := by
  have hpolite : ∀ a ∈ threeBytes, a.2.Polite False := by
    have hsilent : Polite False (Session.silent (P := streamProtocol)) :=
      fun _ => ⟨rfl, fun h => h.elim⟩
    simp [threeBytes, Session.Step.Polite, hsilent]
  have hwhole : Along step WritesWhole new threeBytes := by decide +kernel
  exact ⟨_, rfl, rfl, (stream_exact hpolite hwhole rfl false).2 rfl rfl rfl rfl⟩

/-- **No frame is lost, doubled, moved or changed**: the same of two plain
sessions, for frames, when the applications send nothing but frames. -/
theorem plain_exact {n : ℕ} {as : List (Bool × Session.Step (plainProtocol n))}
    {c : Conversation (plainProtocol n)} (hpolite : ∀ a ∈ as, a.2.Polite True)
    (hwhole : Along step WritesWhole new as)
    (hrun : runSteps step new as = some c) (X : Bool) :
    c.received (!X) <+: c.sent X ∧
      ((c.ends X).isOpen = true → (c.ends X).sendPending = none → c.wire X = [] →
        (c.ends (!X)).isOpen = true → c.received (!X) = c.sent X) := by
  have hinv : Inv (plainDirect n) True c := Inv.of_run hpolite hwhole hrun
  obtain ⟨rest, more, hstream, htaken, hset, hmore⟩ := hinv.arrived X
  obtain ⟨fs, hpre, hfs, happ⟩ := hinv.appended X
  have hvalid : ∀ f ∈ fs, (plainCodec n).Valid f := by
    intro f hf
    obtain ⟨m, hm, rfl⟩ := List.mem_map.mp (hpre.subset hf)
    obtain ⟨hpos, hmax⟩ := of_decide_eq_true (List.mem_filter.mp hm).2
    change m.2.1.length < 1024 * 1024 at hmax
    exact ⟨hpos, by dsimp only; omega⟩
  rw [happ, codeAll_eq_encodeAll, codeAll_eq_encodeAll, List.append_assoc] at hstream
  -- the same bytes are read as what was received and as what was sent
  obtain ⟨done, todo, rfl, -, hdone, htodo⟩ := (plainCodec n).drain_encodeAll hvalid hstream
  rw [(plainCodec n).drain_encodeAll_self htaken] at hdone htodo
  obtain rfl : c.received (!X) = done :=
    (List.map_id _).symm.trans (hdone.trans (List.map_id _))
  refine ⟨(List.prefix_append _ _).trans hpre, fun ho hnone hwire ho' => ?_⟩
  rw [hmore ho hnone hwire, List.append_nil, List.nil_append] at htodo
  have hsettled : (plainDecoder n).Settled () rest := by
    intro k r f hd
    have hzero := hset ho' { handle := 0 } (plainDecode n rest) rfl
    rw [plainDecoder] at hd
    dsimp only at hd
    rw [if_neg (by omega)] at hd
    cases hd
  rw [htodo] at hsettled
  obtain rfl := (plainCodec n).eq_nil_of_settled
    (fun f hf => hvalid f (List.mem_append_right _ hf)) hsettled
  exact (List.append_nil _).symm.trans (hfs ho)

/-- A server that sends back what it is given. -/
def echo : Handler (plainProtocol 2).Topic := fun log =>
  match log.getLast? with
  | some (.receive t d) => { calls := [.send t d false] }
  | _ => {}

theorem polite_echo : Polite True echo := by
  intro log
  rw [echo]
  split
  · exact ⟨rfl, fun _ => by simp [AppCall.Framed]⟩
  · exact ⟨rfl, fun _ => nofun⟩

/-- A frame that arrives in two parts is sent back. -/
def echoedFrame : List (Bool × Session.Step (plainProtocol 2)) :=
  [(true, .start echo 5 () true), (false, .start Session.silent 6 () true),
    (false, .app (.send 7#16 [1, 2] false)), (false, .sendDone 8),
    (true, .recvDone echo [7, 0, 2]), (true, .recvDone echo [0, 0, 0, 1, 2]), (true, .sendDone 8),
    (false, .recvDone Session.silent [7, 0, 2, 0, 0, 0, 1, 2])]

theorem plain_exact_echoedFrame :
    ∃ c, runSteps step new echoedFrame = some c ∧ c.sent true = [(7#16, [1, 2])] ∧
      c.received true = c.sent false ∧ c.received false = c.sent true := by
  have hpolite : ∀ a ∈ echoedFrame, a.2.Polite True := by
    have hsilent : Polite True (Session.silent (P := plainProtocol 2)) :=
      fun _ => ⟨rfl, fun _ => nofun⟩
    simp [echoedFrame, Session.Step.Polite, polite_echo, hsilent, AppCall.Framed]
  have hwhole : Along step WritesWhole new echoedFrame := by decide +kernel
  have hexact := fun c hrun => plain_exact (c := c) hpolite hwhole hrun
  exact ⟨_, rfl, rfl, (hexact _ rfl false).2 rfl rfl rfl rfl, (hexact _ rfl true).2 rfl rfl rfl rfl⟩

end Conversation

end Play
