/-
Play/Acts.lean

The act tree of a bot: `act_ensure`, `act_composite`, `act_serial`,
`act_parallel` and `flow`.

A `Spec` is what the JSON of an act says: its type, its name and, of a
composite act, its flow.  An `Act` is the object.  A composite act loads its
acts when it is activated, every time it is: the acts made before stay in
`acts_` and the new ones are appended, so that a place in the tree, a list of
indexes from the root, names the same act for ever.

`get_current_act()` of an act_serial without acts reads past the end of
`acts_`.  `startable` says that activating an act does no such thing; what
`activate` yields otherwise is never used.

A jump climbs from the act that asks for it until an act takes it; what comes
of it is an `Effect` on the tree: an act_serial selects another of its acts,
or an exception is on its way to the runner, or nothing happens.
-/
import Play.Paths
import Play.Runs

namespace Play

/-! ### Acts -/

/-- The classes of acts; every other type registered in the factory makes a
leaf. -/
inductive ActKind
  | leaf
  | serial
  | parallel
  deriving DecidableEq

/-- The JSON of an act. -/
inductive Spec
  | mk (kind : ActKind) (name : Text) (flow : List Spec)

/-- An act object; `current` is `current_act_index_`. -/
inductive Act
  | mk (kind : ActKind) (name : Text) (flow : List Spec) (active : Bool) (current : ℕ)
      (acts : List Act)

namespace Act

/-- The class of the act. -/
def kind : Act → ActKind
  | mk k _ _ _ _ _ => k

/-- `get_name`. -/
def name : Act → Text
  | mk _ n _ _ _ _ => n

/-- The "flow" of its JSON. -/
def flow : Act → List Spec
  | mk _ _ fl _ _ _ => fl

/-- `is_active`. -/
def active : Act → Bool
  | mk _ _ _ b _ _ => b

/-- `current_act_index_`. -/
def current : Act → ℕ
  | mk _ _ _ _ c _ => c

/-- `get_acts`. -/
def acts : Act → List Act
  | mk _ _ _ _ _ as => as

/-- The same act with other acts in it. -/
def withActs (t : Act) (as : List Act) : Act := mk t.kind t.name t.flow t.active t.current as

/-- `current_act_index_ = i`. -/
def withCurrent (t : Act) (i : ℕ) : Act := mk t.kind t.name t.flow t.active i t.acts

end Act

/-- Which of its acts a composite act updates, activates and deactivates: an
act_serial the current one, an act_parallel all. -/
def ActKind.selects (k : ActKind) (current i : ℕ) : Bool :=
  match k with
  | leaf => false
  | serial => i == current
  | parallel => true

namespace Act

/-- The act updates, activates and deactivates its act at `i`. -/
def selects (t : Act) (i : ℕ) : Bool := t.kind.selects t.current i

end Act

/-! ### Loading and activating -/

/-- `act_factory::create`: the object as constructed. -/
def Spec.create : Spec → Act
  | mk k n fl => .mk k n fl false 0 []

mutual

/-- `create`, then `activate`. -/
def Spec.launch : Spec → Act
  | .mk k n fl =>
      match k with
      | .leaf => .mk .leaf n fl true 0 []
      | k => .mk k n fl true 0 (launchActs k 0 0 fl)

/-- The acts that `load_acts` appends, from index `i` on, the selected ones
activated. -/
def launchActs (k : ActKind) (current : ℕ) : ℕ → List Spec → List Act
  | _, [] => []
  | i, s :: ss =>
      (if k.selects current i then s.launch else s.create) :: launchActs k current (i + 1) ss

end

mutual

/-- `act_ensure::activate`: an act that is not active loads its acts once more
and activates the selected ones. -/
def Act.activate : Act → Act
  | .mk k n fl active current as =>
      if active then .mk k n fl active current as
      else
        match k with
        | .leaf => .mk .leaf n fl true current as
        | k => .mk k n fl true current
            (activateActs k current 0 as ++ launchActs k current as.length fl)

/-- The acts that were there before, the selected ones activated. -/
def activateActs (k : ActKind) (current : ℕ) : ℕ → List Act → List Act
  | _, [] => []
  | i, a :: as =>
      (if k.selects current i then a.activate else a) :: activateActs k current (i + 1) as

end

mutual

/-- `act_ensure::deactivate`: an active act deactivates the selected acts. -/
def Act.deactivate : Act → Act
  | .mk k n fl active current as =>
      if active then .mk k n fl false current (deactivateActs k current 0 as)
      else .mk k n fl active current as

/-- The acts of an act that is deactivated. -/
def deactivateActs (k : ActKind) (current : ℕ) : ℕ → List Act → List Act
  | _, [] => []
  | i, a :: as =>
      (if k.selects current i then a.deactivate else a) :: deactivateActs k current (i + 1) as

end

mutual

/-- Making and activating the act reads no act that is not there. -/
def Spec.launchable : Spec → Bool
  | .mk k _ fl =>
      match k with
      | .leaf => true
      | .serial => decide (0 < fl.length) && launchableActs .serial 0 0 fl
      | .parallel => launchableActs .parallel 0 0 fl

/-- The same of the acts that are loaded and selected. -/
def launchableActs (k : ActKind) (current : ℕ) : ℕ → List Spec → Bool
  | _, [] => true
  | i, s :: ss =>
      (!k.selects current i || s.launchable) && launchableActs k current (i + 1) ss

end

mutual

/-- Activating the act reads no act that is not there. -/
def Act.startable : Act → Bool
  | .mk k _ fl active current as =>
      active ||
        match k with
        | .leaf => true
        | .serial => decide (current < as.length + fl.length) &&
            startableActs .serial current 0 as && launchableActs .serial current as.length fl
        | .parallel => startableActs .parallel current 0 as &&
            launchableActs .parallel current as.length fl

/-- The same of the acts that were there before. -/
def startableActs (k : ActKind) (current : ℕ) : ℕ → List Act → Bool
  | _, [] => true
  | i, a :: as =>
      (!k.selects current i || a.startable) && startableActs k current (i + 1) as

end

/-! ### Places in the tree -/

namespace Act

/-- The act at a place. -/
def get : Act → List ℕ → Option Act
  | t, [] => some t
  | t, i :: a => (t.acts[i]?).bind (get · a)

/-- Change the act at a place. -/
def modify (f : Act → Act) : Act → List ℕ → Act
  | t, [] => f t
  | t, i :: a => t.withActs (t.acts.modify i (modify f · a))

/-- The names of the acts from the root to a place. -/
def names : Act → List ℕ → List Text
  | t, [] => [t.name]
  | t, i :: a => t.name :: (t.acts[i]?).elim [] (names · a)

/-- `get_path().full_path_` of the act at a place. -/
def fullPath (t : Act) (a : List ℕ) : Text := Paths.buildPath (t.names a)

/-- `find_act`: the first act with the name. -/
def findAct (t : Act) (n : Text) : Option ℕ := t.acts.findIdx? fun a => a.name == n

end Act

/-! ### Signals -/

/-- What a leaf may ask for. -/
inductive Signal
  | next
  | exit
  | jump (path : Text)
  deriving DecidableEq

/-- What comes of a signal. -/
inductive Effect
  /-- Nothing. -/
  | ignored
  /-- An exception. -/
  | threw
  /-- The act_serial at `h` deactivates its current act and activates the act
  at index `i`. -/
  | select (h : List ℕ) (i : ℕ)
  /-- The act_serial at `h` goes on to the next of its acts. -/
  | advance (h : List ℕ)
  /-- `flow::exit`: the bot stops and deactivates the flow. -/
  | stop
  deriving DecidableEq

namespace Act

/-- `act_serial::jump_child` of the act at `h`. -/
def jumpChild (t : Act) (h : List ℕ) (p : Text) : Effect :=
  match Paths.getFirstAct p with
  | none => .threw
  | some n =>
      match (t.get h).bind (findAct · n) with
      | none => .ignored
      | some i => .select h i

/-- `act_parallel::jump_child` of the act at `b`: the act found is asked to
jump for the rest of the path, at most `k` times.  A leaf hands the rest back
to the act_parallel, and a jump for an empty path is ignored by every act on
the way up. -/
def jumpBelow (t : Act) : ℕ → List ℕ → Text → Effect
  | 0, _, _ => .ignored
  | k + 1, b, p =>
      match Paths.getFirstAct p with
      | none => .threw
      | some n =>
          match (t.get b).bind (findAct · n) with
          | none => .ignored
          | some i =>
              match Paths.popHeadAct p with
              | none => .threw
              | some q =>
                  if q = [] then .ignored
                  else
                    match (t.get (b ++ [i])).map kind with
                    | some .serial => t.jumpChild (b ++ [i]) q
                    | some .parallel => t.jumpBelow k (b ++ [i]) q
                    | _ => t.jumpBelow k b q

/-- A jump for a child path of the composite act at `h`.  Every round in
`jumpBelow` takes a part off the path. -/
def jumpInto (t : Act) (h : List ℕ) (k : ActKind) (p : Text) : Effect :=
  match k with
  | .parallel => t.jumpBelow (p.length + 1) h p
  | _ => t.jumpChild h p

/-- `jump` of the act at `h`, which takes the jump or hands it to its parent;
`parent` is what comes of it there. -/
def jumpAt (t : Act) (p : Text) (h : List ℕ) (parent : Effect) : Effect :=
  match (t.get h).map kind with
  | none => .ignored
  | some .leaf => parent
  | some k =>
      -- `is_relative_path` is false of the empty path, which an act_serial ignores
      if p = [] then (if k = .serial then .ignored else parent)
      else if Paths.isRelativePath p then t.jumpInto h k p
      else if Paths.isChildOf (t.fullPath h) p then
        match Paths.getChildPath (t.fullPath h) p with
        | none => .threw
        | some q => t.jumpInto h k q
      else parent

/-- A jump on its way up, from the place that is given from the act upwards. -/
def jumpUp (t : Act) (p : Text) : List ℕ → Effect
  | [] => t.jumpAt p [] .ignored
  | i :: up => t.jumpAt p (i :: up).reverse (t.jumpUp p up)

/-- `jump` of the act at `a`. -/
def jump (t : Act) (a : List ℕ) (p : Text) : Effect := t.jumpUp p a.reverse

/-- `next` of the act at `a`; the parent takes it. -/
def next (t : Act) (a : List ℕ) : Effect :=
  match a.reverse with
  | [] => .ignored
  | _ :: up =>
      match (t.get up.reverse).map kind with
      | some .serial => .advance up.reverse
      | _ => .ignored

/-- What a signal of the act at `a` does. -/
def signal (t : Act) (a : List ℕ) : Signal → Effect
  | .next => t.next a
  | .exit => .stop
  | .jump p => t.jump a p

/-! ### Carrying an effect out -/

/-- `get_current_act()->deactivate()`. -/
def leaveCurrent (t : Act) : Act := t.withActs (t.acts.modify t.current deactivate)

/-- `current_act_index_ = i`, then `get_current_act()->activate()`. -/
def enter (t : Act) (i : ℕ) : Act := (t.withCurrent i).withActs (t.acts.modify i activate)

/-- `act_serial::next`, on the act_serial itself. -/
def advance (t : Act) : Act :=
  let t := t.leaveCurrent
  -- at the last act the index goes back, and nothing is activated
  if t.current + 1 < t.acts.length then t.enter (t.current + 1) else t

/-- Leaving the current act and entering the one at `i` reads no act that is
not there. -/
def entersSafely (t : Act) (i : ℕ) : Bool :=
  decide (t.current < t.acts.length) && (t.leaveCurrent.acts[i]?).elim false startable

end Act

end Play
