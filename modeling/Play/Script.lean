/-
Play/Script.lean

The language of flows: what a bot does whose flow is a list of the acts that
`ensure` registers, `act_message` and `act_wait_duration`.

A leaf succeeds or not when it is updated; what its success means is said by
the "slots" of its JSON, an object that gives each signal a command: "jump"
with a target, "next" or "exit".  Here the JSON is read as the source reads
it, and the signals go to the bot of `Play.Config`.

`load_json` is called by the constructor of `act_ensure`, when the object is
no more than an `act_ensure` yet: its `on_load_json` is the empty one.  So
`act_wait_duration` never reads its "duration", waits for 0 milliseconds, and
succeeds at its first update (`onUpdate_eq`).

A flow is therefore a program with a counter, whose instructions are the acts
(`compile`), and what the clock says makes no difference: `played_eq_run`.
-/
import Play.JsonReader
import Play.Programs
import Play.Ticking

namespace Play

open JsonReader

namespace JsonReader

/-- Strings, numbers and booleans. -/
inductive Scalar
  | string (s : Text)
  | number (n : ℤ)
  | boolean (b : Bool)

/-- `get<std::string>()`. -/
def getString : Json Scalar → Option Text
  | .scalar (.string s) => some s
  | _ => none

/-- `is_object`. -/
def Json.isObject {α : Type*} : Json α → Bool
  | .object _ => true
  | _ => false

/-- Go on with a value that was read. -/
def Reading.andThen {β γ : Type*} (r : Reading β) (f : β → Reading γ) : Reading γ :=
  match r with
  | .returned v => f v
  | .threw => .threw
  | .outOfRange => .outOfRange

/-- Reading a path of one key. -/
theorem read_key {α β : Type*} (get : Json α → Option β) (json : Json α) {key : Text}
    (defaultValue : β) (hkey : components key = [key]) :
    read get json key defaultValue =
      if ((json.member key).getD .null).isNull then .returned defaultValue
      else getValue get ((json.member key).getD .null) := by
  have hfollow : follow json [key] = json.member key := by
    rw [follow]
    rcases json.member key with - | jv <;> rfl
  rw [read, readRef_eq (show components key = [] ++ [key] from hkey), List.nil_append, hfollow]

end JsonReader

/-! ### Leaves -/

namespace Script

open Programs

/-- `act_ensure::signal`: what the slot of a signal asks for, if anything. -/
def signal (json : Json Scalar) (sig : Text) : Reading (Option Signal) :=
  let jslots := (json.member "slots".toList).getD .null
  if jslots.isObject then
    (read some jslots sig .null).andThen fun jsig =>
      if jsig.isObject then
        (read getString jsig "cmd".toList []).andThen fun cmd =>
          if cmd = "jump".toList then
            (read getString jsig "target".toList []).andThen fun target =>
              .returned (some (.jump target))
          else if cmd = "next".toList then .returned (some .next)
          else if cmd = "exit".toList then .returned (some .exit)
          -- an unknown command is logged
          else .returned none
      else .returned none
  else .returned none

/-- `act_ensure::succed`. -/
def succed (json : Json Scalar) : Reading (Option Signal) := signal json "success".toList

/-- The leaves that `register_default_acts` registers. -/
inductive Leaf
  | message (text : Text)
  | waitDuration

/-- The type they are registered under. -/
def Leaf.type : Leaf → Text
  | message _ => "act_message".toList
  | waitDuration => "act_wait_duration".toList

/-- What the constructors leave in `duration_`.  The `on_load_json` that would
read the JSON is not that of the object under construction. -/
def constructedDuration (_json : Json Scalar) : ℤ := 0

/-- An `int` where a `size_t` is needed. -/
def toSize (n : ℤ) : ℕ := (n % 2 ^ 64).toNat

/-- What `load_acts` calls `act_factory::create` with: the type and the name. -/
def loaded (json : Json Scalar) : Reading (Text × Text) :=
  (read getString json "type".toList []).andThen fun type =>
    (read getString json "name".toList []).andThen fun name => .returned (type, name)

/-- `on_activate` of a leaf of the type: what it logs. -/
def onActivate (type : Text) (json : Json Scalar) : Reading (List Text) :=
  if type = (Leaf.message []).type then
    (read getString json "message".toList []).andThen fun text => .returned [text]
  else .returned []

/-- The JSON of a leaf, as `load_acts`, the factory and `on_activate` read it.
A leaf whose type, name or message is no string, so that `get<Value>()` throws,
is no entry. -/
structure Entry where
  json : Json Scalar
  leaf : Leaf
  name : Text
  reads_type : read getString json "type".toList [] = .returned leaf.type
  reads_name : read getString json "name".toList [] = .returned name
  reads_message : ∀ text, leaf = .message text →
    read getString json "message".toList [] = .returned text

namespace Entry

/-- What `on_activate` logs. -/
def shows (e : Entry) : List Text :=
  match e.leaf with
  | .message text => [text]
  | .waitDuration => []

/-- `on_update`, with what `get_elapsed` returns. -/
def onUpdate (e : Entry) (elapsed : ℕ) : Reading (Option Signal) :=
  match e.leaf with
  | .message _ => succed e.json
  | .waitDuration =>
      if toSize (constructedDuration e.json) ≤ elapsed then succed e.json else .returned none

/-- What the tree of acts knows of it. -/
def spec (e : Entry) : Spec := .mk .leaf e.name []

/-- What an entry has is what is read from its JSON. -/
theorem reads (e : Entry) : loaded e.json = .returned (e.leaf.type, e.name) ∧
    onActivate e.leaf.type e.json = .returned e.shows := by
  constructor
  · rw [loaded, e.reads_type, Reading.andThen, e.reads_name, Reading.andThen]
  · rw [onActivate, shows]
    rcases hleaf : e.leaf with text | -
    · rw [if_pos (show (Leaf.message text).type = (Leaf.message []).type from rfl),
        e.reads_message text hleaf, Reading.andThen]
    · exact if_neg (by decide)

/-- **Every leaf succeeds at every update.** -/
theorem onUpdate_eq (e : Entry) (elapsed : ℕ) : e.onUpdate elapsed = succed e.json := by
  rw [onUpdate]
  rcases e.leaf with text | -
  · rfl
  · exact if_pos (Nat.zero_le elapsed)

end Entry

/-! ### Players -/

/-- A bot with what its acts have logged; `stopped` says that `bot::stop` was
called. -/
structure Player where
  bot : Bot
  log : List Text
  stopped : Bool := false

/-- What the act at a place logs when it is activated. -/
def shownAt (es : List Entry) (i : ℕ) : List Text := (es[i]?).elim [] Entry.shows

/-- The act whose `on_activate` runs when the flow takes an effect: the one it
enters, if it is not active. -/
def entered (t : Act) : Effect → Option ℕ
  | .select [] i => if (t.leaveCurrent.acts[i]?).any (!·.active) then some i else none
  | .advance [] =>
      if (t.leaveCurrent.acts[t.current + 1]?).any (!·.active) then some (t.current + 1) else none
  | _ => none

namespace Player

/-- `bot::on_start`. -/
def start (es : List Entry) : Player :=
  { bot := Bot.start (es.map Entry.spec), log := shownAt es 0 }

/-- What comes of a signal is carried out, and the calls of `update` return. -/
def take (es : List Entry) (s : Player) (eff : Effect) : Player :=
  { bot := { s.bot.handle eff with stack := [] }
    log := s.log ++ (entered s.bot.root eff).elim [] (shownAt es)
    stopped := s.stopped || eff == .stop }

/-- `bot::update`: the flow updates its current act, a leaf. -/
def update (es : List Entry) (s : Player) (elapsed : ℕ) : Player :=
  match es[s.bot.root.current]? with
  | none => s
  | some e =>
      match e.onUpdate elapsed with
      | .returned (some sig) => s.take es (s.bot.root.signal [s.bot.root.current] sig)
      | _ => s

/-- Updates one after the other, with what the clock says at each. -/
def updates (es : List Entry) (s : Player) (elapsed : List ℕ) : Player :=
  elapsed.foldl (update es) s

end Player

/-! ### The program of a flow -/

/-- The path of the flow. -/
def flowPath : Text := Paths.buildPath [['f', 'l', 'o', 'w']]

/-- What an act_serial at the top makes of the target of a jump: the path that
leads to one of its acts. -/
def childPath (target : Text) : Option Text :=
  if target = [] then none
  else if Paths.isRelativePath target then some target
  else if Paths.isChildOf flowPath target then Paths.getChildPath flowPath target
  else none

/-- The act of the flow that a jump leads to. -/
def label (es : List Entry) (target : Text) : Option ℕ :=
  ((childPath target).bind Paths.getFirstAct).bind fun n => es.findIdx? (·.name == n)

/-- What the success of the act at `i` does to the counter. -/
def moveOf (es : List Entry) (i : ℕ) : Reading (Option Signal) → Move
  | .returned (some .next) => if i + 1 < es.length then .goto (i + 1) else .stay
  | .returned (some .exit) => .exit
  | .returned (some (.jump target)) => (label es target).elim .stay .goto
  | _ => .stay

/-- The program that a flow is. -/
def compile (es : List Entry) : List (Instr Text) :=
  es.mapIdx fun i e => { output := e.shows, move := moveOf es i (succed e.json) }

variable {es : List Entry} {e : Entry} {live on : Bool} {c i : ℕ} {p : Text}

@[simp] theorem length_compile (es : List Entry) : (compile es).length = es.length :=
  List.length_mapIdx

theorem moveAt_compile (h : es[i]? = some e) :
    moveAt (compile es) i = moveOf es i (succed e.json) := by
  refine moveAt_of_getElem? (c := { output := e.shows, move := moveOf es i (succed e.json) }) ?_
  rw [compile, List.getElem?_mapIdx, h]
  rfl

theorem outputAt_compile (es : List Entry) (i : ℕ) : outputAt (compile es) i = shownAt es i := by
  rw [outputAt, shownAt, compile, List.getElem?_mapIdx]
  rcases es[i]? with - | e <;> rfl

theorem label_lt (h : label es p = some i) : i < es.length := by
  rw [label, Option.bind_eq_some_iff] at h
  obtain ⟨n, -, hn⟩ := h
  exact (List.findIdx?_eq_some_iff_findIdx_eq.mp hn).1

theorem moveOf_lt {r : Reading (Option Signal)} {j : ℕ} (h : moveOf es i r = .goto j) :
    j < es.length := by
  unfold moveOf at h
  split at h
  · obtain ⟨hlt, h⟩ := ite_eq_iff.mp h |>.resolve_right (fun h => nomatch h.2)
    cases h
    exact hlt
  · cases h
  · next target =>
      rcases hl : label es target with - | k <;> rw [hl] at h <;> cases h
      exact label_lt hl
  · cases h

theorem closed_compile (es : List Entry) : Closed (compile es) := by
  intro i j hmove
  rw [length_compile]
  rcases he : es[i]? with - | e
  · rw [moveAt, compile, List.getElem?_mapIdx, he] at hmove
    cases hmove
  · rw [moveAt_compile he] at hmove
    exact moveOf_lt hmove

/-! ### The tree of a flow -/

/-- The object of an entry. -/
def Entry.act (e : Entry) (active : Bool) : Act := .mk .leaf e.name [] active 0 []

/-- The flow at its act `c`, which alone may be active. -/
def flowAct (es : List Entry) (live : Bool) (c : ℕ) (on : Bool) : Act :=
  .mk .serial ['f', 'l', 'o', 'w'] (es.map Entry.spec) live c
    (es.mapIdx fun i e => e.act (on && i == c))

theorem getElem?_acts (es : List Entry) (live : Bool) (c : ℕ) (on : Bool) (i : ℕ) :
    (flowAct es live c on).acts[i]? = (es[i]?).map fun e => e.act (on && i == c) :=
  List.getElem?_mapIdx

@[simp] theorem length_acts (es : List Entry) (live : Bool) (c : ℕ) (on : Bool) :
    (flowAct es live c on).acts.length = es.length :=
  List.length_mapIdx

/-- The flow is known by its acts. -/
theorem eq_flowAct {as : List Act}
    (h : ∀ i : ℕ, as[i]? = (es[i]?).map fun e : Entry => e.act (on && i == c)) :
    Act.mk .serial ['f', 'l', 'o', 'w'] (es.map Entry.spec) live c as = flowAct es live c on := by
  refine congrArg (Act.mk _ _ _ live c) (List.ext_getElem? fun i => ?_)
  rw [h, List.getElem?_mapIdx]

theorem activate_act (e : Entry) (active : Bool) : (e.act active).activate = e.act true := by
  cases active <;> simp [Entry.act, Act.activate]

theorem deactivate_act (e : Entry) (active : Bool) : (e.act active).deactivate = e.act false := by
  cases active <;> simp [Entry.act, Act.deactivate, deactivateActs]

/-- The bot starts with its first act. -/
theorem root_start (es : List Entry) : (Bot.start (es.map Entry.spec)).root
    = flowAct es true 0 true := by
  show (Spec.mk .serial ['f', 'l', 'o', 'w'] (es.map Entry.spec)).launch = _
  rw [Act.launch_mk]
  apply eq_flowAct
  intro i
  show (launchActs .serial 0 0 (es.map Entry.spec))[i]? = _
  rw [getElem?_launchActs, List.getElem?_map, Nat.zero_add]
  rcases es[i]? with - | e
  · rfl
  · rcases hi : i == 0 with - | - <;>
      simp [ActKind.selects, hi, Entry.spec, Spec.launch, Spec.create, Entry.act]

theorem leaveCurrent_flowAct (es : List Entry) (live : Bool) (c : ℕ) (on : Bool) :
    (flowAct es live c on).leaveCurrent = flowAct es live c false := by
  apply eq_flowAct
  intro i
  show ((flowAct es live c on).acts.modify c Act.deactivate)[i]? = _
  rw [List.getElem?_modify, getElem?_acts]
  rcases es[i]? with - | e
  · rfl
  · by_cases hi : c = i
    · simp [hi, deactivate_act]
    · simp [hi, beq_eq_false_iff_ne.mpr (Ne.symm hi)]

theorem enter_flowAct (es : List Entry) (live : Bool) (c i : ℕ) :
    (flowAct es live c false).enter i = flowAct es live i true := by
  show Act.mk .serial ['f', 'l', 'o', 'w'] (es.map Entry.spec) live i
    ((flowAct es live c false).acts.modify i Act.activate) = _
  apply eq_flowAct
  intro j
  show ((flowAct es live c false).acts.modify i Act.activate)[j]? = _
  rw [List.getElem?_modify, getElem?_acts]
  rcases es[j]? with - | e
  · rfl
  · by_cases hj : i = j
    · simp [hj, activate_act]
    · simp [hj, beq_eq_false_iff_ne.mpr (Ne.symm hj)]

theorem deactivate_flowAct (es : List Entry) (live : Bool) (c : ℕ) (on : Bool) :
    ∃ live' on', (flowAct es live c on).deactivate = flowAct es live' c on' := by
  cases live with
  | false => exact ⟨false, on, Act.deactivate_of_not_active rfl⟩
  | true =>
      refine ⟨false, false, ?_⟩
      rw [flowAct, Act.deactivate_mk]
      apply eq_flowAct
      intro i
      rw [getElem?_deactivateActs, List.getElem?_mapIdx, Nat.zero_add]
      rcases es[i]? with - | e
      · rfl
      · rcases hi : i == c with - | - <;> simp [ActKind.selects, hi, deactivate_act]

/-- The act of the flow that is asked to go is there, and can go. -/
theorem entersSafely_flowAct (hc : c < es.length) (hi : i < es.length) :
    (flowAct es live c on).entersSafely i = true := by
  rw [Act.entersSafely, leaveCurrent_flowAct, getElem?_acts, List.getElem?_eq_getElem hi]
  show (decide (c < (flowAct es live c on).acts.length) && _) = true
  simp [hc, Entry.act, Act.startable]

theorem advancesSafely_flowAct (hc : c < es.length) :
    Bot.advancesSafely (flowAct es live c on) = true := by
  rw [Bot.advancesSafely, length_acts]
  show (decide (c < es.length) && (decide (es.length ≤ c + 1) ||
    (flowAct es live c on).entersSafely (c + 1))) = true
  rcases Nat.lt_or_ge (c + 1) es.length with hlt | hge
  · simp [hc, entersSafely_flowAct hc hlt]
  · simp [hc, hge]

/-- An act that is entered shows what it has to show. -/
theorem entered_shows (es : List Entry) (live : Bool) (c : ℕ) (on : Bool) (i : ℕ) :
    (if ((flowAct es live c on).leaveCurrent.acts[i]?).any (!·.active) then some i else none).elim
      [] (shownAt es) = shownAt es i := by
  rw [leaveCurrent_flowAct, getElem?_acts]
  rcases he : es[i]? with - | e
  · rw [shownAt, he]
    rfl
  · rfl

/-! ### Signals -/

theorem get_leaf (he : es[i]? = some e) :
    ((flowAct es live c on).get [i]).map Act.kind = some .leaf := by
  show (((flowAct es live c on).acts[i]?).bind _).map Act.kind = _
  rw [getElem?_acts, he]
  rfl

theorem findAct_flowAct (es : List Entry) (live : Bool) (c : ℕ) (on : Bool) (n : Text) :
    (flowAct es live c on).findAct n = es.findIdx? (·.name == n) := by
  show (es.mapIdx _).findIdx? _ = _
  rw [List.mapIdx_eq_zipIdx_map, List.findIdx?_map]
  have hzip := List.zipIdx_map_fst 0 es
  conv_rhs => rw [← hzip]
  rw [List.findIdx?_map]
  rfl

/-- What a jump of the flow's act comes to, given the act it leads to. -/
inductive Lands : Option ℕ → Effect → Prop
  | there (i : ℕ) : Lands (some i) (.select [] i)
  | ignored : Lands none .ignored
  | threw : Lands none .threw

theorem lands_jumpChild (es : List Entry) (live : Bool) (c : ℕ) (on : Bool) (q : Text) :
    Lands ((Paths.getFirstAct q).bind fun n => es.findIdx? (·.name == n))
      ((flowAct es live c on).jumpChild [] q) := by
  rw [Act.jumpChild]
  rcases Paths.getFirstAct q with - | n
  · exact .threw
  · have hfind : ((flowAct es live c on).get []).bind (·.findAct n)
        = es.findIdx? (·.name == n) := findAct_flowAct es live c on n
    simp only [Option.bind_some, hfind]
    generalize es.findIdx? (·.name == n) = found
    rcases found with - | i
    · exact .ignored
    · exact .there i

/-- **Where a jump leads to.** -/
theorem lands_jump (live on : Bool) (he : es[c]? = some e) (p : Text) :
    Lands (label es p) ((flowAct es live c on).jump [c] p) := by
  -- the leaf hands the jump to the flow
  have hup : (flowAct es live c on).jump [c] p = (flowAct es live c on).jumpAt p [] .ignored := by
    show (flowAct es live c on).jumpAt p [c] _ = _
    rw [Act.jumpAt, get_leaf he]
    rfl
  have hkind : ((flowAct es live c on).get []).map Act.kind = some .serial := rfl
  have hpath : (flowAct es live c on).fullPath [] = flowPath := rfl
  rw [hup, Act.jumpAt, hkind, label, childPath]
  simp only [hpath, if_true]
  split
  · exact .ignored
  split
  · exact lands_jumpChild es live c on p
  split
  · rcases Paths.getChildPath flowPath p with - | q
    · exact .threw
    · exact lands_jumpChild es live c on q
  · exact .ignored

/-! ### Playing a flow -/

/-- The player has come to where the program is. -/
structure At (es : List Entry) (s : Player) (m : Machine Text) : Prop where
  bot : ∃ live on, s.bot = { root := flowAct es live m.counter on }
  inside : m.counter < es.length
  log : s.log = m.shown
  stopped : s.stopped = m.exited

theorem launchableActs_specs (es : List Entry) (i : ℕ) :
    launchableActs .serial 0 i (es.map Entry.spec) = true := by
  induction es generalizing i with
  | nil => rfl
  | cons e es ih =>
      rw [List.map_cons, launchableActs, ih]
      simp [Entry.spec, Spec.launchable]

theorem bot_start (hes : es ≠ []) :
    Bot.start (es.map Entry.spec) = { root := flowAct es true 0 true } := by
  have hsafe : (Spec.mk .serial ['f', 'l', 'o', 'w'] (es.map Entry.spec)).launchable = true := by
    rw [Spec.launchable, launchableActs_specs]
    simp [List.length_pos_of_ne_nil hes]
  rw [← root_start es]
  show Bot.mk _ [] (!(Spec.mk .serial ['f', 'l', 'o', 'w'] (es.map Entry.spec)).launchable) = _
  rw [hsafe]
  rfl

theorem at_start (hes : es ≠ []) : At es (Player.start es) (Programs.start (compile es)) where
  bot := ⟨true, true, bot_start hes⟩
  inside := List.length_pos_of_ne_nil hes
  log := (outputAt_compile es 0).symm
  stopped := rfl

/-- The flow enters another of its acts. -/
theorem handle_select (hc : c < es.length) (hi : i < es.length) :
    Bot.handle { root := flowAct es live c on } (.select [] i)
      = { root := flowAct es live i true } := by
  show Bot.change _ [] (·.entersSafely i) (fun t => t.leaveCurrent.enter i) = _
  rw [Bot.change]
  show (if (flowAct es live c on).entersSafely i = true then _ else _) = _
  rw [if_pos (entersSafely_flowAct hc hi), ← enter_flowAct es live c i,
    ← leaveCurrent_flowAct es live c on]
  rfl

/-- The flow goes on to the next of its acts, and at the last one leaves it
without entering another. -/
theorem handle_advance (hc : c < es.length) :
    Bot.handle { root := flowAct es live c on } (.advance [])
      = if c + 1 < es.length then { root := flowAct es live (c + 1) true }
        else { root := flowAct es live c false } := by
  have hchange : Bot.handle { root := flowAct es live c on } (.advance [])
      = { root := (flowAct es live c on).advance } := by
    show Bot.change _ [] Bot.advancesSafely Act.advance = _
    rw [Bot.change]
    show (if Bot.advancesSafely (flowAct es live c on) = true then _ else _) = _
    rw [if_pos (advancesSafely_flowAct hc)]
    rfl
  rw [hchange]
  split
  · next hlt =>
      rw [Act.advance_of_lt (by rwa [length_acts]), leaveCurrent_flowAct]
      exact congrArg (Bot.mk · [] false) (enter_flowAct es live c (c + 1))
  · next hge =>
      rw [Act.advance_of_le (by rw [length_acts]; exact Nat.not_lt.mp hge), leaveCurrent_flowAct]

variable {s : Player} {m : Machine Text} {sig : Signal}

theorem At.take_select (h : At es s m) (hi : i < es.length) :
    At es (s.take es (.select [] i)) (arrive (compile es) m i) := by
  obtain ⟨⟨live, on, hbot⟩, hin, hlog, hstopped⟩ := h
  refine ⟨⟨live, true, ?_⟩, hi, ?_, ?_⟩
  · show Bot.mk _ [] _ = _
    rw [hbot, handle_select hin hi]
    rfl
  · show s.log ++ _ = m.shown ++ outputAt (compile es) i
    rw [hlog, outputAt_compile, hbot]
    exact congrArg _ (entered_shows es live m.counter on i)
  · show (s.stopped || false) = m.exited
    rw [Bool.or_false, hstopped]

theorem At.take_advance (h : At es s m) :
    At es (s.take es (.advance []))
      (if m.counter + 1 < es.length then arrive (compile es) m (m.counter + 1) else m) := by
  obtain ⟨⟨live, on, hbot⟩, hin, hlog, hstopped⟩ := h
  have hshown : (s.take es (.advance [])).log = m.shown ++ shownAt es (m.counter + 1) := by
    show s.log ++ _ = _
    rw [hlog, hbot]
    exact congrArg _ (entered_shows es live m.counter on (m.counter + 1))
  have hstop : (s.take es (.advance [])).stopped = m.exited := by
    show (s.stopped || false) = m.exited
    rw [Bool.or_false, hstopped]
  have hleft : (s.take es (.advance [])).bot =
      if m.counter + 1 < es.length then { root := flowAct es live (m.counter + 1) true }
      else { root := flowAct es live m.counter false } := by
    show Bot.mk _ [] _ = _
    rw [hbot, handle_advance hin]
    split <;> rfl
  split
  · next hlt =>
      rw [if_pos hlt] at hleft
      refine ⟨⟨live, true, hleft⟩, hlt, ?_, hstop⟩
      rw [hshown, ← outputAt_compile]
      rfl
  · next hge =>
      rw [if_neg hge] at hleft
      refine ⟨⟨live, false, hleft⟩, hin, ?_, hstop⟩
      rw [hshown, shownAt, List.getElem?_eq_none (Nat.not_lt.mp hge), Option.elim_none,
        List.append_nil]

theorem At.take_stop (h : At es s m) :
    At es (s.take es .stop) { m with exited := true } := by
  obtain ⟨⟨live, on, hbot⟩, hin, hlog, hstopped⟩ := h
  obtain ⟨live', on', hoff⟩ := deactivate_flowAct es live m.counter on
  refine ⟨⟨live', on', ?_⟩, hin, ?_, ?_⟩
  · show Bot.mk _ [] _ = _
    rw [hbot, ← hoff]
    rfl
  · show s.log ++ [] = m.shown
    rw [List.append_nil, hlog]
  · show (s.stopped || true) = true
    rw [Bool.or_true]

/-- A jump that leads nowhere, with an exception or without. -/
theorem At.take_idle {eff : Effect} (h : At es s m) (heff : Lands none eff) :
    At es (s.take es eff) m := by
  obtain ⟨⟨live, on, hbot⟩, hin, hlog, hstopped⟩ := h
  refine ⟨⟨live, on, ?_⟩, hin, ?_, ?_⟩
  · show Bot.mk _ [] _ = _
    rw [hbot]
    cases heff <;> rfl
  · show s.log ++ _ = m.shown
    rw [hlog]
    cases heff <;> exact List.append_nil _
  · show (s.stopped || _) = m.exited
    rw [hstopped]
    cases heff <;> exact Bool.or_false _

/-- What an update does with the signal of the current act. -/
theorem update_of_returned (he : es[s.bot.root.current]? = some e)
    (hsig : succed e.json = .returned (some sig)) (elapsed : ℕ) :
    s.update es elapsed = s.take es (s.bot.root.signal [s.bot.root.current] sig) := by
  rw [Player.update]
  simp only [he, e.onUpdate_eq, hsig]

/-- An act that asks for nothing leaves everything as it is. -/
theorem update_of_quiet (he : es[s.bot.root.current]? = some e)
    (hsig : ∀ sig, succed e.json ≠ .returned (some sig)) (elapsed : ℕ) :
    s.update es elapsed = s := by
  rw [Player.update]
  simp only [he, e.onUpdate_eq]

theorem moveOf_of_quiet {r : Reading (Option Signal)} (hr : ∀ sig, r ≠ .returned (some sig)) :
    moveOf es i r = .stay := by
  unfold moveOf
  split
  · exact absurd rfl (hr _)
  · exact absurd rfl (hr _)
  · exact absurd rfl (hr _)
  · rfl

/-- **Every update is a step of the program**, whatever the clock says. -/
theorem At.update (h : At es s m) (elapsed : ℕ) :
    At es (s.update es elapsed) (step (compile es) m) := by
  obtain ⟨live, on, hbot⟩ := h.bot
  have hcurrent : s.bot.root.current = m.counter := by
    rw [hbot]
    rfl
  obtain ⟨e, he⟩ : ∃ e, es[m.counter]? = some e := ⟨_, List.getElem?_eq_getElem h.inside⟩
  have hmove := moveAt_compile he
  by_cases hquiet : ∀ sig, succed e.json ≠ .returned (some sig)
  · rw [moveOf_of_quiet hquiet] at hmove
    rw [update_of_quiet (by rwa [hcurrent]) hquiet, step, hmove]
    exact h
  simp only [ne_eq, not_forall, not_not] at hquiet
  obtain ⟨sig, hsig⟩ := hquiet
  rw [update_of_returned (by rwa [hcurrent]) hsig, step, hmove, hsig, hcurrent]
  have hroot : s.bot.root = flowAct es live m.counter on := by
    rw [hbot]
  cases sig with
  | next =>
      have hadvance : s.bot.root.signal [m.counter] .next = .advance [] := by
        rw [hroot]
        rfl
      rw [hadvance, moveOf]
      have := h.take_advance
      split at this
      · next hlt =>
          rw [if_pos hlt]
          exact this
      · next hge =>
          rw [if_neg hge]
          exact this
  | exit => exact h.take_stop
  | jump target =>
      have hlands := lands_jump live on he target
      rw [hroot]
      show At es (s.take es ((flowAct es live m.counter on).jump [m.counter] target)) _
      rw [moveOf]
      rcases hl : label es target with - | i
      · rw [hl] at hlands
        exact h.take_idle hlands
      · rw [hl] at hlands
        generalize (flowAct es live m.counter on).jump [m.counter] target = eff at hlands
        cases hlands
        exact h.take_select (label_lt hl)

/-- A whole run of updates. -/
theorem At.updates (h : At es s m) (elapsed : List ℕ) :
    At es (s.updates es elapsed) ((step (compile es))^[elapsed.length] m) := by
  induction elapsed generalizing s m with
  | nil => exact h
  | cons t elapsed ih => exact ih (h.update t)

/-! ### The calls of `update` -/

/-- The effect on the tree does not depend on the calls that are running,
which go on unless there was an exception. -/
theorem handle_stack (b : Bot) (st : List Frame) {eff : Effect} (h : eff ≠ .threw) :
    Bot.handle { b with stack := st } eff = { b.handle eff with stack := st } := by
  have hchange : ∀ (h : List ℕ) (safe : Act → Bool) (f : Act → Act),
      Bot.change { b with stack := st } h safe f = { b.change h safe f with stack := st } := by
    intro h safe f
    rw [Bot.change, Bot.change]
    rcases b.root.get h with - | t
    · rfl
    · show (if safe t = true then _ else _) = { (if safe t = true then _ else _ : Bot) with
        stack := st }
      split <;> rfl
  cases eff with
  | ignored => rfl
  | threw => exact absurd rfl h
  | select a i => exact hchange a _ _
  | advance a => exact hchange a _ _
  | stop => rfl

/-- The update of a leaf returns. -/
theorem step_go_leaf {b : Bot} (hleaf : (b.root.get [i]).map Act.kind = some .leaf) :
    Bot.step { b with stack := [.update [i]] } .go = some { b with stack := [] } := by
  obtain ⟨t, ht, hk⟩ := Option.map_eq_some_iff.mp hleaf
  show some (Bot.go { b with stack := [.update [i]] } (.update [i]) []) = _
  rw [Bot.go]
  dsimp only
  rw [ht]
  dsimp only
  rw [hk]

/-- **An update is made of the steps of the bot.** -/
theorem At.ticks (h : At es s m) (elapsed : ℕ) :
    ∃ ls, runSteps Bot.step s.bot ls = some (s.update es elapsed).bot := by
  obtain ⟨live, on, hbot⟩ := h.bot
  obtain ⟨e, he⟩ : ∃ e, es[m.counter]? = some e := ⟨_, List.getElem?_eq_getElem h.inside⟩
  have hcurrent : s.bot.root.current = m.counter := by
    rw [hbot]
    rfl
  have hleaf : (s.bot.root.get [m.counter]).map Act.kind = some .leaf := by
    rw [hbot]
    exact get_leaf he
  have hdown : runSteps Bot.step s.bot [.update, .go]
      = some { s.bot with stack := [.update [m.counter]] } := by
    rw [hbot]
    rfl
  have hidle : { s.bot with stack := [] } = s.bot := by
    rw [hbot]
  by_cases hquiet : ∀ sig, succed e.json ≠ .returned (some sig)
  · refine ⟨[.update, .go] ++ [.go], ?_⟩
    rw [update_of_quiet (by rwa [hcurrent]) hquiet]
    refine runSteps_snoc_eq_some.mpr ⟨_, hdown, ?_⟩
    rw [step_go_leaf hleaf, hidle]
  simp only [ne_eq, not_forall, not_not] at hquiet
  obtain ⟨sig, hsig⟩ := hquiet
  have hafter := (h.update elapsed).bot
  rw [update_of_returned (by rwa [hcurrent]) hsig, hcurrent] at hafter ⊢
  have hraise : Bot.step { s.bot with stack := [.update [m.counter]] } (.raise sig)
      = some (Bot.handle { s.bot with stack := [.update [m.counter]] }
        (s.bot.root.signal [m.counter] sig)) := if_pos hleaf
  have hup := runSteps_snoc_eq_some.mpr ⟨_, hdown, hraise⟩
  generalize s.bot.root.signal [m.counter] sig = eff at hup hafter ⊢
  by_cases hthrew : eff = .threw
  · subst hthrew
    exact ⟨_, hup⟩
  · rw [handle_stack s.bot _ hthrew] at hup
    refine ⟨_, runSteps_snoc_eq_some.mpr ⟨_, hup, step_go_leaf ?_⟩⟩
    obtain ⟨live', on', hroot⟩ := hafter
    show ((s.bot.handle eff).root.get [m.counter]).map Act.kind = _
    have htaken : (s.bot.handle eff).root = (s.take es eff).bot.root := rfl
    rw [htaken, hroot]
    exact get_leaf he

theorem At.ticks_updates (h : At es s m) (elapsed : List ℕ) :
    ∃ ls, runSteps Bot.step s.bot ls = some (s.updates es elapsed).bot := by
  induction elapsed generalizing s m with
  | nil => exact ⟨[], rfl⟩
  | cons t elapsed ih =>
      obtain ⟨first, hfirst⟩ := h.ticks t
      obtain ⟨rest, hrest⟩ := ih (h.update t)
      refine ⟨first ++ rest, ?_⟩
      rw [runSteps_append, hfirst]
      exact hrest

/-- **A bot plays the program of its flow.**  Whatever the clock says at its
updates, the act that is current, what was logged and whether the bot was
stopped are those of the program after as many steps; no act is read that is
not there, and every update is a run of the bot.  The type, the name and the
message of every act can be read (`Entry`): a message that is no string would
make `on_activate` throw. -/
theorem played_eq_run (es : List Entry) (hes : es ≠ []) (elapsed : List ℕ) :
    let s := (Player.start es).updates es elapsed
    let m := run (compile es) elapsed.length
    s.bot.fault = false ∧ s.bot.root.current = m.counter ∧ s.log = m.shown ∧
      s.stopped = m.exited ∧
      ∃ ls, runSteps Bot.step (Bot.start (es.map Entry.spec)) ls = some s.bot := by
  have hstart := at_start hes
  have hend := hstart.updates elapsed
  obtain ⟨live, on, hbot⟩ := hend.bot
  refine ⟨?_, ?_, hend.log, hend.stopped, hstart.ticks_updates elapsed⟩
  · rw [hbot]
  · rw [hbot]
    rfl

/-! ### Consequences -/

/-- The success of every act leads to the next one, and that of the last one
stops the bot. -/
def InSequence (es : List Entry) : Prop :=
  ∀ i e, es[i]? = some e →
    succed e.json = .returned (some (if i + 1 < es.length then .next else .exit))

theorem straight_compile (h : InSequence es) : Straight (compile es) := by
  intro i hi
  rw [length_compile] at hi ⊢
  obtain ⟨e, he⟩ : ∃ e, es[i]? = some e := ⟨_, List.getElem?_eq_getElem hi⟩
  rw [moveAt_compile he, h i e he]
  split
  · next hlt =>
      rw [moveOf, if_pos hlt]
  · rfl

theorem outputs_compile (es : List Entry) (n : ℕ) :
    ((compile es).take n).flatMap Instr.output = (es.take n).flatMap Entry.shows := by
  have hmap : (compile es).map Instr.output = es.map Entry.shows := by
    apply List.ext_getElem?
    intro i
    rw [List.getElem?_map, List.getElem?_map, compile, List.getElem?_mapIdx]
    rcases es[i]? with - | e <;> rfl
  rw [List.flatMap_def, List.map_take, hmap, ← List.map_take, ← List.flatMap_def]

theorem Player.exited_of_inSequence (hes : es ≠ []) (hseq : InSequence es) (elapsed : List ℕ) :
    ((Player.start es).updates es elapsed).stopped = true ↔ es.length ≤ elapsed.length := by
  have hpos : 0 < (compile es).length := by
    rw [length_compile]
    exact List.length_pos_of_ne_nil hes
  rw [((at_start hes).updates elapsed).stopped]
  apply ((run_of_straight (straight_compile hseq) hpos elapsed.length).2).trans
  rw [length_compile]

/-- **A flow in sequence is played through.**  After `n` updates the messages
of its first `n + 1` acts have been logged, in order and each once, whatever
the clock says and whatever durations the flow asks for; the bot is stopped
when there were as many updates as acts. -/
theorem played_in_sequence (es : List Entry) (hes : es ≠ []) (hseq : InSequence es)
    (elapsed : List ℕ) :
    let s := (Player.start es).updates es elapsed
    s.log = (es.take (elapsed.length + 1)).flatMap Entry.shows ∧
      (s.stopped = true ↔ es.length ≤ elapsed.length) := by
  have hpos : 0 < (compile es).length := by
    rw [length_compile]
    exact List.length_pos_of_ne_nil hes
  refine ⟨?_, Player.exited_of_inSequence hes hseq elapsed⟩
  rw [((at_start hes).updates elapsed).log, ← outputs_compile]
  exact (run_of_straight (straight_compile hseq) hpos elapsed.length).1

/-- **A bot that does not stop within as many updates as its flow has acts
never stops.** -/
theorem stopped_by_length (es : List Entry) (hes : es ≠ []) (elapsed elapsed' : List ℕ)
    (hstop : ((Player.start es).updates es elapsed).stopped = true)
    (hlen : elapsed'.length = es.length) :
    ((Player.start es).updates es elapsed').stopped = true := by
  have hpos : 0 < (compile es).length := by
    rw [length_compile]
    exact List.length_pos_of_ne_nil hes
  rw [((at_start hes).updates elapsed).stopped] at hstop
  rw [((at_start hes).updates elapsed').stopped, hlen, ← length_compile es]
  exact exited_by_length (closed_compile es) hpos hstop

/-! ### A flow with a pause -/

/-- A JSON string. -/
def jsonString (s : Text) : Json Scalar := .scalar (.string s)

/-- The slots of a leaf whose success has the command `cmd`. -/
def slotsJson (cmd : Text) : Json Scalar :=
  .object [("success".toList, .object [("cmd".toList, jsonString cmd)])]

/-- The JSON of an act_message. -/
def messageEntry (name text cmd : Text) : Entry where
  json := .object [("type".toList, jsonString "act_message".toList),
    ("name".toList, jsonString name), ("message".toList, jsonString text),
    ("slots".toList, slotsJson cmd)]
  leaf := .message text
  name := name
  reads_type := by
    rw [read_key _ _ _ rfl]
    rfl
  reads_name := by
    rw [read_key _ _ _ rfl]
    rfl
  reads_message := by
    rintro - ⟨⟩
    rw [read_key _ _ _ rfl]
    rfl

/-- The JSON of an act_wait_duration. -/
def waitEntry (name : Text) (duration : ℤ) (cmd : Text) : Entry where
  json := .object [("type".toList, jsonString "act_wait_duration".toList),
    ("name".toList, jsonString name), ("duration".toList, .scalar (.number duration)),
    ("slots".toList, slotsJson cmd)]
  leaf := .waitDuration
  name := name
  reads_type := by
    rw [read_key _ _ _ rfl]
    rfl
  reads_name := by
    rw [read_key _ _ _ rfl]
    rfl
  reads_message := fun _ h => nomatch h

/-- The command of the slot. -/
theorem succed_slotsJson (json : Json Scalar) {cmd : Text}
    (h : json.member "slots".toList = some (slotsJson cmd)) :
    succed json =
      if cmd = "jump".toList then
        (read getString (.object [("cmd".toList, jsonString cmd)]) "target".toList []).andThen
          fun target => .returned (some (.jump target))
      else if cmd = "next".toList then .returned (some .next)
      else if cmd = "exit".toList then .returned (some .exit)
      else .returned none := by
  have hslot : read some (slotsJson cmd) "success".toList .null
      = .returned (.object [("cmd".toList, jsonString cmd)]) := by
    rw [read_key _ _ _ rfl]
    rfl
  have hcmd : read getString (.object [("cmd".toList, jsonString cmd)]) "cmd".toList []
      = .returned cmd := by
    rw [read_key _ _ _ rfl]
    rfl
  rw [succed, signal, h]
  show ((read some (slotsJson cmd) "success".toList .null).andThen _) = _
  rw [hslot]
  show ((read getString (.object [("cmd".toList, jsonString cmd)]) "cmd".toList []).andThen _) = _
  rw [hcmd]
  rfl

/-- A message, a pause of an hour and another message. -/
def pausedFlow : List Entry :=
  [messageEntry "first".toList "hello".toList "next".toList,
    waitEntry "pause".toList 3600000 "next".toList,
    messageEntry "last".toList "bye".toList "exit".toList]

theorem pausedFlow_inSequence : InSequence pausedFlow := by
  intro i e he
  rcases i with - | - | - | i
  · obtain rfl := Option.some.inj he
    apply (succed_slotsJson (messageEntry _ _ _).json rfl).trans
    rfl
  · obtain rfl := Option.some.inj he
    apply (succed_slotsJson (waitEntry _ _ _).json rfl).trans
    rfl
  · obtain rfl := Option.some.inj he
    apply (succed_slotsJson (messageEntry _ _ _).json rfl).trans
    rfl
  · cases he

theorem played_eq_run_pausedFlow :
    ((Player.start pausedFlow).updates pausedFlow [200, 400]).log
      = (run (compile pausedFlow) 2).shown :=
  (played_eq_run pausedFlow (List.cons_ne_nil _ _) [200, 400]).2.2.1

/-- Three updates in less than a second play it to the end. -/
theorem played_pausedFlow :
    ((Player.start pausedFlow).updates pausedFlow [200, 400, 600]).log
        = ["hello".toList, "bye".toList] ∧
      (((Player.start pausedFlow).updates pausedFlow [200, 400, 600]).stopped = true ↔
        pausedFlow.length ≤ 3) :=
  played_in_sequence pausedFlow (List.cons_ne_nil _ _) pausedFlow_inSequence [200, 400, 600]

theorem stopped_pausedFlow :
    ((Player.start pausedFlow).updates pausedFlow [0, 0, 0]).stopped = true :=
  stopped_by_length pausedFlow (List.cons_ne_nil _ _) [200, 400, 600, 800] [0, 0, 0]
    ((Player.exited_of_inSequence (List.cons_ne_nil _ _) pausedFlow_inSequence _).mpr (by decide))
    rfl

end Script

end Play
