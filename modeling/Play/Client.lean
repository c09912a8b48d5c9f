/-
Play/Client.lean

`client<Protocol>`: one current session in `session_`, and the completions
of its connects.

`async_connect` is started on the socket of the current session, but its
completion handler captures the client only: what completes is applied to
whatever session is the current one by then.  `close` and the end of
`on_closed` reset `session_`.  `on_closed` first lets the application know,
which may call `connect` before the reset; so its beginning and its end are
two steps here, and anything may happen in between.  `handle_connect` reads
`session_` twice, before and after `start`, which calls the application too;
the log after `start` is a step of its own.

`Keeps` is what a user expects: `session_` is never used when it is null, a
completion is applied to the session that it was started for, and a session
that is being connected stays the current one unless `close` was called.
`keeps_iff_orderly` says step by step which runs have it.
-/
import Play.Closing

namespace Play

/-! ### The client -/

/-- A session object of the client, with the connects outstanding on its
socket and whether `close` was called since the last of them was started. -/
structure Client.Link (P : Protocol) where
  session : Session P
  connects : ℕ := 0
  closeCalled : Bool := false

/-- `client<Protocol>` with the session objects it has made, in order. -/
structure Client (P : Protocol) where
  /-- `session_`, as a place in `links`. -/
  session : Option ℕ := none
  links : List (Client.Link P) := []
  /-- The sessions whose `on_closed` is running. -/
  closing : List ℕ := []
  /-- The sessions whose `handle_connect` has come back from `start`. -/
  starting : List ℕ := []
  /-- `session_` was dereferenced when it was null. -/
  nullDeref : Bool := false
  /-- A connect completed and was applied to another session. -/
  misapplied : Bool := false

namespace Client

variable {P : Protocol}

/-- The socket of link `j` is open. -/
def isOpen (s : Client P) (j : ℕ) : Bool := (s.links[j]?).elim false fun l => l.session.isOpen

/-- `async_connect` on the socket of link `j`; a socket that is not open is
opened first, which may fail. -/
def asyncConnect (s : Client P) (j : ℕ) (opens : Bool) : Client P :=
  { s with
    links := s.links.modify j fun l =>
      { session := { l.session with isOpen := l.session.isOpen || opens }
        connects := l.connects + 1
        closeCalled := false } }

/-- `client::connect`, when the address can be parsed. -/
def connect (s : Client P) (opens : Bool) : Client P :=
  if s.session.elim false s.isOpen then s
  else
    let se : Session P := { Session.new false with isOpen := false }
    asyncConnect
      { s with links := s.links ++ [{ session := se }], session := some s.links.length }
      s.links.length opens

/-- `close` is called: every connect outstanding is one that it may abort. -/
def markClose (s : Client P) : Client P :=
  { s with links := s.links.map fun l => { l with closeCalled := true } }

/-- `client::close`. -/
def close (s : Client P) : Client P :=
  match s.session with
  | none => { s.markClose with nullDeref := true }
  | some j =>
      if s.isOpen j then
        { s.markClose with
          links := s.markClose.links.modify j fun l => { l with session := l.session.close }
          session := none }
      else s.markClose

/-- The connect of link `i` has completed. -/
def takeConnect (s : Client P) (i : ℕ) : Client P :=
  { s with links := s.links.modify i fun l => { l with connects := l.connects - 1 } }

/-- Use the current session in a completion of link `i`. -/
def withSession (s : Client P) (i : ℕ) (f : Client P → ℕ → Client P) : Client P :=
  match s.session with
  | none => { s with nullDeref := true }
  | some j => f { s with misapplied := s.misapplied || i != j } j

/-- `start` of the session of link `j` returns. -/
def startReturns (s : Client P) (j : ℕ) (h : Handler P.Topic) (handle : ℕ) (e : P.Entropy)
    (peer : Bool) : Bool :=
  (s.links[j]?).elim false fun l =>
    match l.session.start h handle e peer with
    | .done _ => true
    | .threw _ => false

/-- `client::handle_connect` after a connect: the session is started, and an
exception out of `start` is the runner's. -/
def handleConnect (s : Client P) (i : ℕ) (h : Handler P.Topic) (handle : ℕ) (e : P.Entropy)
    (peer : Bool) : Client P :=
  (s.takeConnect i).withSession i fun s j =>
    { s with
      links := s.links.modify j fun l =>
        { l with session := (l.session.start h handle e peer).state }
      starting := if s.startReturns j h handle e peer then i :: s.starting else s.starting }

/-- The log at the end of `client::handle_connect`, which reads the handle and
the address of the current session. -/
def endConnect (s : Client P) (i : ℕ) : Client P :=
  { s with
    starting := s.starting.erase i
    nullDeref := s.nullDeref || s.session.isNone }

/-- `client::handle_connect` after a failure or an abort: `reconnect`. -/
def handleConnectError (s : Client P) (i : ℕ) (opens : Bool) : Client P :=
  (s.takeConnect i).withSession i fun s j => s.asyncConnect j opens

/-- A step of a started session; the one that reports the close is inside
`on_closed` from then on. -/
def onSession (s : Client P) (i : ℕ) (se se' : Session P) : Client P :=
  { s with
    links := s.links.modify i fun l => { l with session := se' }
    closing := if se.closedCount < se'.closedCount then i :: s.closing else s.closing }

/-- The last statement of `client::on_closed`, unless the application's
callback left by an exception. -/
def endClosed (s : Client P) (i : ℕ) (throws : Bool) : Client P :=
  let s := { s with closing := s.closing.erase i }
  if throws then s else { s with session := none }

/-- One step of the client and its sessions. -/
inductive Step (P : Protocol)
  | connect (opens : Bool)
  | close
  | connectDone (i : ℕ) (h : Handler P.Topic) (handle : ℕ) (e : P.Entropy) (peer : Bool)
  | endConnect (i : ℕ)
  | connectFailed (i : ℕ) (opens : Bool)
  | session (i : ℕ) (l : Session.Step P)
  /-- A session is closed by a call of its own `close`. -/
  | shut (i : ℕ)
  | endClosed (i : ℕ) (throws : Bool)

/-- A connect of link `i` is outstanding. -/
def connecting (s : Client P) (i : ℕ) : Bool := (s.links[i]?).elim false fun l => 0 < l.connects

/-- The step function.  A completion handler runs for a connect that is
outstanding; sessions run once they are started. -/
def step (s : Client P) : Step P → Option (Client P)
  | .connect opens => some (s.connect opens)
  | .close => some s.close
  | .connectDone i h handle e peer =>
      if s.connecting i then some (s.handleConnect i h handle e peer) else none
  | .endConnect i => if i ∈ s.starting then some (s.endConnect i) else none
  | .connectFailed i opens =>
      if s.connecting i then some (s.handleConnectError i opens) else none
  | .session i l =>
      match s.links[i]? with
      | none => none
      | some k =>
          if k.session.protocol.isSome then (k.session.step l).map (s.onSession i k.session)
          else none
  | .shut i =>
      some { s with links := s.links.modify i fun l => { l with session := l.session.close } }
  | .endClosed i throws => if i ∈ s.closing then some (s.endClosed i throws) else none

/-! ### What a user of the client expects -/

/-- A connect of link `i` is outstanding, and `close` was not called since it
was started. -/
def Awaits (s : Client P) (i : ℕ) : Prop :=
  ∃ l, s.links[i]? = some l ∧ 0 < l.connects ∧ l.closeCalled = false

/-- The client has not lost a session, nor used one that is not there. -/
structure Keeps (s : Client P) : Prop where
  noNull : s.nullDeref = false
  applied : s.misapplied = false
  held : ∀ i, s.Awaits i → s.session = some i

/-- What the client asks of its environment: `connect` is not called while
the current session, its socket closed, awaits its connect; `close` is called
only with a session; a connect completes while its session is the current
one; there is a session when `start` comes back to `handle_connect`; and
`on_closed` does not end while the current session awaits its connect. -/
def Orderly (s : Client P) : Step P → Prop
  | .connect _ => ∀ j, s.session = some j → s.isOpen j = true ∨ ¬ s.Awaits j
  | .close => s.session ≠ none
  | .connectDone i _ _ _ _ => s.session = some i
  | .endConnect _ => s.session ≠ none
  | .connectFailed i _ => s.session = some i
  | .session _ _ => True
  | .shut _ => True
  | .endClosed _ throws => throws = true ∨ ∀ j, s.session = some j → ¬ s.Awaits j

variable {s s' : Client P} {i j : ℕ}

/-! ### The sessions that await a connect -/

/-- Changing the session of a link, or the count of another, leaves what a
link awaits alone. -/
theorem awaits_modify_iff {links : List (Link P)} {f : Link P → Link P}
    (hf : ∀ l, (f l).connects = l.connects ∧ (f l).closeCalled = l.closeCalled) :
    (∃ l, (links.modify j f)[i]? = some l ∧ 0 < l.connects ∧ l.closeCalled = false) ↔
      ∃ l, links[i]? = some l ∧ 0 < l.connects ∧ l.closeCalled = false := by
  rw [List.getElem?_modify]
  rcases links[i]? with - | l
  · simp
  · by_cases hj : j = i <;> simp [hj, hf]

theorem awaits_session_iff {g : Link P → Session P} :
    Awaits { s with links := s.links.modify j fun l => { l with session := g l } } i ↔
      s.Awaits i :=
  awaits_modify_iff fun _ => ⟨rfl, rfl⟩

theorem not_awaits_close : ¬ s.close.Awaits i := by
  -- every link is marked, whatever else `close` does
  have hmark : ∀ l, s.close.links[i]? = some l → l.closeCalled = true := by
    intro l hl
    unfold close at hl
    split at hl
    · simp only [markClose, List.getElem?_map, Option.map_eq_some_iff] at hl
      obtain ⟨k, -, rfl⟩ := hl
      rfl
    · split at hl
      · simp only [markClose, List.getElem?_modify, List.getElem?_map, Option.map_eq_map,
          Option.map_map, Option.map_eq_some_iff] at hl
        obtain ⟨k, -, rfl⟩ := hl
        simp only [Function.comp]
        split <;> rfl
      · simp only [markClose, List.getElem?_map, Option.map_eq_some_iff] at hl
        obtain ⟨k, -, rfl⟩ := hl
        rfl
  rintro ⟨l, hl, -, hno⟩
  rw [hmark l hl] at hno
  cases hno

theorem awaits_of_asyncConnect {opens : Bool} (ha : (s.asyncConnect j opens).Awaits i) :
    i = j ∨ s.Awaits i := by
  by_cases hij : i = j
  · exact .inl hij
  · obtain ⟨l, hl, hpos, hno⟩ := ha
    refine .inr ⟨l, ?_, hpos, hno⟩
    rw [asyncConnect, List.getElem?_modify_ne _ _ (Ne.symm hij)] at hl
    exact hl

theorem awaits_of_takeConnect (ha : (s.takeConnect j).Awaits i) : s.Awaits i := by
  obtain ⟨l, hl, hpos, hno⟩ := ha
  rw [takeConnect, List.getElem?_modify, Option.map_eq_map, Option.map_eq_some_iff] at hl
  obtain ⟨k, hk, rfl⟩ := hl
  refine ⟨k, hk, ?_, ?_⟩
  · split at hpos
    · exact Nat.lt_of_lt_of_le hpos (Nat.sub_le _ _)
    · exact hpos
  · split at hno <;> exact hno

/-! ### The steps -/

/-- A completion that finds its own session. -/
theorem withSession_of_eq {f : Client P → ℕ → Client P} (hs : s.session = some i) :
    s.withSession i f = f s i := by
  have hsame : ({ s with misapplied := s.misapplied || i != i } : Client P) = s := by
    simp
  unfold withSession
  split
  · next hnone => rw [hs] at hnone; cases hnone
  · next j hj =>
      obtain rfl := Option.some.inj (hs.symm.trans hj)
      rw [hsame]

/-- A completion that finds no session, or another one, is noticed. -/
theorem not_keeps_withSession (f : Client P → ℕ → Client P) (hs : s.session ≠ some i)
    (hf : ∀ t j, (f t j).misapplied = t.misapplied) : ¬ (s.withSession i f).Keeps := by
  intro hk
  rcases e : s.session with - | j
  · have := hk.noNull
    simp [withSession, e] at this
  · have hij : (i != j) = true := by
      rw [bne_iff_ne]
      rintro rfl
      exact hs e
    have := hk.applied
    simp only [withSession, e, hf, hij] at this
    simp at this

/-- A new session is the only one that connects anew. -/
theorem awaits_of_connect {opens : Bool} (hopen : ¬ s.session.elim false s.isOpen = true)
    (ha : (s.connect opens).Awaits i) : i = s.links.length ∨ s.Awaits i := by
  rw [connect, if_neg hopen] at ha
  rcases awaits_of_asyncConnect ha with rfl | ⟨l, hi, hpos, hno⟩
  · exact .inl rfl
  · rcases lt_or_ge i s.links.length with hlt | hge
    · rw [List.getElem?_append_left hlt] at hi
      exact .inr ⟨l, hi, hpos, hno⟩
    · rw [List.getElem?_append_right hge] at hi
      obtain ⟨hlt, -⟩ := List.getElem?_eq_some_iff.mp hi
      rw [List.length_singleton] at hlt
      exact .inl (by omega)

theorem keeps_connect {opens : Bool} (hk : s.Keeps) :
    (s.connect opens).Keeps ↔ s.Orderly (.connect opens) := by
  by_cases hopen : s.session.elim false s.isOpen = true
  · -- the current session is open, and nothing happens
    rw [connect, if_pos hopen]
    refine ⟨fun _ j hj => .inl ?_, fun _ => hk⟩
    rw [hj] at hopen
    exact hopen
  · have hlinks : ∀ (k : ℕ) l, s.links[k]? = some l → (s.connect opens).links[k]? = some l := by
      intro k l hl
      have hlt : k < s.links.length := (List.getElem?_eq_some_iff.mp hl).1
      rw [connect, if_neg hopen, asyncConnect, List.getElem?_modify_ne _ _ (by omega),
        List.getElem?_append_left hlt]
      exact hl
    have hsession : (s.connect opens).session = some s.links.length := by
      rw [connect, if_neg hopen]
      rfl
    constructor
    · intro hk' j hj
      refine .inr ?_
      rintro ⟨l, hl, hpos, hno⟩
      -- the session that was current is still awaiting its connect
      have := hk'.held j ⟨l, hlinks j l hl, hpos, hno⟩
      rw [hsession] at this
      obtain rfl := Option.some.inj this
      have hlt := (List.getElem?_eq_some_iff.mp hl).1
      exact hlt.false
    · intro hl
      refine ⟨?_, ?_, ?_⟩
      · rw [connect, if_neg hopen]
        exact hk.noNull
      · rw [connect, if_neg hopen]
        exact hk.applied
      · intro i ha
        rw [hsession]
        rcases awaits_of_connect hopen ha with rfl | ha
        · rfl
        · have hcur := hk.held i ha
          rcases hl i hcur with ho | hna
          · rw [hcur] at hopen
            exact absurd ho hopen
          · exact absurd ha hna

theorem keeps_close (hk : s.Keeps) : s.close.Keeps ↔ s.Orderly .close := by
  constructor
  · intro hk' hnone
    have := hk'.noNull
    simp [close, hnone] at this
  · intro hsome
    obtain ⟨j, hj⟩ := Option.ne_none_iff_exists'.mp hsome
    refine ⟨?_, ?_, fun i ha => absurd ha not_awaits_close⟩
    · unfold close
      rw [hj]
      dsimp only
      split <;> exact hk.noNull
    · unfold close
      rw [hj]
      dsimp only
      split <;> exact hk.applied

theorem keeps_handleConnect {h : Handler P.Topic} {handle : ℕ} {e : P.Entropy} {peer : Bool}
    (hk : s.Keeps) : (s.handleConnect i h handle e peer).Keeps ↔ s.session = some i := by
  constructor
  · intro hk'
    by_contra hne
    refine not_keeps_withSession (s := s.takeConnect i) _ hne ?_ hk'
    exact fun _ _ => rfl
  · intro hs
    rw [handleConnect, withSession_of_eq (s := s.takeConnect i) hs]
    refine ⟨hk.noNull, hk.applied, fun k ha => ?_⟩
    exact hk.held k (awaits_of_takeConnect (awaits_session_iff.mp ha))

theorem keeps_endConnect (hk : s.Keeps) : (s.endConnect i).Keeps ↔ s.session ≠ none := by
  constructor
  · rintro hk' hnone
    have := hk'.noNull
    simp [endConnect, hnone] at this
  · intro hsome
    refine ⟨?_, hk.applied, hk.held⟩
    rw [endConnect, hk.noNull, Bool.false_or, Option.isNone_eq_false_iff, Option.isSome_iff_ne_none]
    exact hsome

theorem keeps_handleConnectError {opens : Bool} (hk : s.Keeps) :
    (s.handleConnectError i opens).Keeps ↔ s.session = some i := by
  constructor
  · intro hk'
    by_contra hne
    refine not_keeps_withSession (s := s.takeConnect i) _ hne ?_ hk'
    exact fun _ _ => rfl
  · intro hs
    rw [handleConnectError, withSession_of_eq (s := s.takeConnect i) hs]
    refine ⟨hk.noNull, hk.applied, fun k ha => ?_⟩
    rcases awaits_of_asyncConnect ha with rfl | ha
    · exact hs
    · exact hk.held k (awaits_of_takeConnect ha)

theorem keeps_endClosed {throws : Bool} (hk : s.Keeps) :
    (s.endClosed i throws).Keeps ↔ s.Orderly (.endClosed i throws) := by
  cases throws with
  | true => exact ⟨fun _ => .inl rfl, fun _ => ⟨hk.noNull, hk.applied, hk.held⟩⟩
  | false =>
      constructor
      · intro hk'
        refine .inr fun j hj ha => ?_
        have := hk'.held j ha
        cases this
      · rintro (hf | hno)
        · cases hf
        · refine ⟨hk.noNull, hk.applied, fun k ha => ?_⟩
          exact absurd ha (hno k (hk.held k ha))

/-- **One step**: the client keeps its sessions exactly when the step is
orderly. -/
theorem keeps_step {l : Step P} (hk : s.Keeps) (hs : s.step l = some s') :
    s'.Keeps ↔ s.Orderly l := by
  cases l with
  | connect opens =>
      obtain rfl := Option.some.inj hs
      exact keeps_connect hk
  | close =>
      obtain rfl := Option.some.inj hs
      exact keeps_close hk
  | connectDone i h handle e peer =>
      simp only [step, Option.ite_none_right_eq_some, Option.some.injEq] at hs
      obtain ⟨-, rfl⟩ := hs
      exact keeps_handleConnect hk
  | endConnect i =>
      simp only [step, Option.ite_none_right_eq_some, Option.some.injEq] at hs
      obtain ⟨-, rfl⟩ := hs
      exact keeps_endConnect hk
  | connectFailed i opens =>
      simp only [step, Option.ite_none_right_eq_some, Option.some.injEq] at hs
      obtain ⟨-, rfl⟩ := hs
      exact keeps_handleConnectError hk
  | session i l =>
      simp only [step] at hs
      split at hs
      · cases hs
      · simp only [Option.ite_none_right_eq_some, Option.map_eq_some_iff] at hs
        obtain ⟨-, se', -, rfl⟩ := hs
        exact ⟨fun _ => trivial, fun _ =>
          ⟨hk.noNull, hk.applied, fun k ha => hk.held k (awaits_session_iff.mp ha)⟩⟩
  | shut i =>
      obtain rfl := Option.some.inj hs
      exact ⟨fun _ => trivial, fun _ =>
        ⟨hk.noNull, hk.applied, fun k ha => hk.held k (awaits_session_iff.mp ha)⟩⟩
  | endClosed i throws =>
      simp only [step, Option.ite_none_right_eq_some, Option.some.injEq] at hs
      obtain ⟨-, rfl⟩ := hs
      exact keeps_endClosed hk

/-- **The client keeps its sessions exactly in the orderly runs**, whatever
the interleaving of its calls, its connects and the notices of its
sessions. -/
theorem keeps_iff_orderly {ls : List (Step P)}
    (hrun : runSteps step ({} : Client P) ls = some s) :
    Always step Keeps ({} : Client P) ls ↔ Along step Orderly {} ls := by
  refine always_iff_along id (fun hk hG hs => (keeps_step hk hs).mpr hG)
    (fun hk hG hs hgood => hG ((keeps_step hk hs).mp hgood)) ⟨rfl, rfl, ?_⟩ hrun
  rintro i ⟨l, hl, -⟩
  simp at hl

/-- A connect that fails once, a session that is closed by its peer, and a
connect after that. -/
def connectAgain : List (Step (plainProtocol 2)) :=
  [.connect true, .connectFailed 0 true, .connectDone 0 (fun _ => {}) 5 () true, .endConnect 0,
    .session 0 (.recvFailed fun _ => {}), .endClosed 0 false, .connect true]

theorem keeps_connectAgain :
    Always step Keeps ({} : Client (plainProtocol 2)) connectAgain := by
  refine (keeps_iff_orderly rfl).mpr ⟨fun j hj => absurd hj (by simp), fun s₁ h₁ => ?_⟩
  obtain rfl := Option.some.inj h₁
  refine ⟨rfl, fun s₂ h₂ => ?_⟩
  obtain rfl := Option.some.inj h₂
  refine ⟨rfl, fun s₃ h₃ => ?_⟩
  obtain rfl := Option.some.inj h₃
  refine ⟨Option.some_ne_none 0, fun s₄ h₄ => ?_⟩
  obtain rfl := Option.some.inj h₄
  refine ⟨trivial, fun s₅ h₅ => ?_⟩
  obtain rfl := Option.some.inj h₅
  refine ⟨.inr fun j hj => ?_, fun s₆ h₆ => ?_⟩
  · -- the connect of the session that was closed had completed
    obtain rfl := Option.some.inj hj
    rintro ⟨l, hl, hpos, -⟩
    obtain rfl := Option.some.inj hl
    exact absurd hpos (by decide)
  · obtain rfl := Option.some.inj h₆
    refine ⟨fun j hj => ?_, fun _ _ => trivial⟩
    cases hj

/-- The application connects again from its callback of `on_closed`. -/
def connectInClosed : List (Step (plainProtocol 2)) :=
  [.connect true, .connectDone 0 (fun _ => {}) 5 () true, .endConnect 0,
    .session 0 (.recvFailed fun _ => {}), .connect true, .endClosed 0 false]

/-- `on_closed` resets the session that is being connected, and the completion
of its connect finds none. -/
theorem connectInClosed_loses :
    (∃ s, runSteps step ({} : Client (plainProtocol 2)) connectInClosed = some s ∧
      s.Awaits 1 ∧ s.session = none ∧ ¬ s.Keeps) ∧
    ∃ s, runSteps step ({} : Client (plainProtocol 2))
        (connectInClosed ++ [.connectFailed 1 true]) = some s ∧ s.nullDeref = true := by
  refine ⟨⟨_, rfl, ⟨_, rfl, by decide, rfl⟩, rfl, fun hk => ?_⟩, ⟨_, rfl, rfl⟩⟩
  have := hk.held 1 ⟨_, rfl, by decide, rfl⟩
  cases this

end Client

end Play
