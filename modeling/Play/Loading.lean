/-
Play/Loading.lean

Activating acts that can fail.

`load_acts` appends an act for every entry of the flow, up to the first one
whose type the factory does not know.  `activate` of a composite act loads,
and then activates the selected acts one after the other, up to the first one
that fails.  Neither undoes anything: the acts that were appended stay, and
so do the acts that were activated before the one that failed.  `acts_` is
not emptied when a composite act is left either, so that an act that is
entered again has the acts of its flow twice (`restarts_iff_firstEntry`).

An `Entry` is the JSON of an act, a `Node` the object.  Which leaves say yes
to `on_activate` is up to them: an `Outcomes` has the answer for each place
below the act that is activated.

Two activations have no result.  An act_serial without acts reads past the
end of `acts_`; and a composite act whose JSON has no "flow" reads behind the
members of that JSON, since `get_json()` is const and the const `operator[]`
only asserts that the key is there.  `load_acts` answers false to a flow that
is null.

Where every type is known, every flow is there and every leaf says yes, this
is `Act.activate` (`activate_toNode`).
-/
import Play.Config
import Mathlib.Data.List.Forall2

namespace Play

/-! ### Entries and acts -/

/-- What stands under "flow" in the JSON of an act: no such key, null, or an
array. -/
inductive FlowKey
  | absent
  | null
  | array
deriving DecidableEq

/-- The JSON of an act, with a type if the factory knows it.  `flow` has the
elements of an array. -/
inductive Entry
  | mk (type : Option ActKind) (name : Text) (flowKey : FlowKey) (flow : List Entry)

namespace Entry

/-- The type as the factory knows it. -/
def type : Entry → Option ActKind
  | mk k _ _ _ => k

/-- The "name". -/
def name : Entry → Text
  | mk _ n _ _ => n

/-- What the "flow" is. -/
def flowKey : Entry → FlowKey
  | mk _ _ f _ => f

/-- There is a "flow", and it is not null. -/
def hasFlow (e : Entry) : Bool := e.flowKey == .array

/-- The elements of the "flow". -/
def flow : Entry → List Entry
  | mk _ _ _ fl => fl

end Entry

/-- An act object, with the JSON it was made from. -/
inductive Node
  | mk (kind : ActKind) (json : Entry) (active : Bool) (current : ℕ) (acts : List Node)

namespace Node

/-- The class of the act. -/
def kind : Node → ActKind
  | mk k _ _ _ _ => k

/-- `get_json`. -/
def json : Node → Entry
  | mk _ j _ _ _ => j

/-- `is_active`. -/
def active : Node → Bool
  | mk _ _ b _ _ => b

/-- `current_act_index_`. -/
def current : Node → ℕ
  | mk _ _ _ c _ => c

/-- `get_acts`. -/
def acts : Node → List Node
  | mk _ _ _ _ as => as

/-- The same act with other acts in it. -/
def withActs (t : Node) (as : List Node) : Node := mk t.kind t.json t.active t.current as

section

variable (k : ActKind) (j : Entry) (b : Bool) (c : ℕ) (as : List Node)

@[simp] theorem kind_mk : (mk k j b c as).kind = k := rfl

@[simp] theorem json_mk : (mk k j b c as).json = j := rfl

@[simp] theorem active_mk : (mk k j b c as).active = b := rfl

@[simp] theorem current_mk : (mk k j b c as).current = c := rfl

@[simp] theorem acts_mk : (mk k j b c as).acts = as := rfl

end

end Node

/-- `act_factory::create`, which knows some types only. -/
def Entry.create (e : Entry) : Option Node :=
  e.type.map fun k => .mk k e false 0 []

/-- The loop of `act_composite::load_acts`: the acts it appends, and whether
it came to the end. -/
def loadActs : List Entry → List Node × Bool
  | [] => ([], true)
  | e :: es =>
      match e.create with
      | none => ([], false)
      | some a => (a :: (loadActs es).1, (loadActs es).2)

/-- What the leaves answer to `on_activate`, by their places. -/
abbrev Outcomes := List ℕ → Bool

/-- The answers below the act at index `i`. -/
def Outcomes.below (ok : Outcomes) (i : ℕ) : Outcomes := fun p => ok (i :: p)

/-! ### Activating -/

mutual

/-- `create`, then `activate`. -/
def Entry.launch : Entry → Outcomes → Option (Node × Bool)
  | .mk type n f fl, ok =>
      match type with
      | none => none
      | some .leaf => some (.mk .leaf (.mk (some .leaf) n f fl) (ok []) 0 [], ok [])
      | some k =>
          let json : Entry := .mk (some k) n f fl
          if f = .absent then none
          else if f = .null then some (.mk k json false 0 [], false)
          else if !(loadActs fl).2 then some (.mk k json false 0 (loadActs fl).1, false)
          else if k = .serial ∧ fl.length = 0 then none
          else (Entry.launchAll k 0 0 fl ok).map fun r => (.mk k json r.2 0 r.1, r.2)

/-- The acts that were loaded, from index `i` on, the selected ones activated
until one fails. -/
def Entry.launchAll (k : ActKind) (current : ℕ) :
    ℕ → List Entry → Outcomes → Option (List Node × Bool)
  | _, [], _ => some ([], true)
  | i, e :: es, ok =>
      if k.selects current i then
        match e.launch (ok.below i) with
        | none => none
        | some (a, false) => some (a :: (loadActs es).1, false)
        | some (a, true) => (launchAll k current (i + 1) es ok).map fun r => (a :: r.1, r.2)
      else
        match e.create with
        | none => none
        | some a => (launchAll k current (i + 1) es ok).map fun r => (a :: r.1, r.2)

end

mutual

/-- `act_ensure::activate`, with its result. -/
def Node.activate : Node → Outcomes → Option (Node × Bool)
  | .mk k json active current as, ok =>
      if active then some (.mk k json active current as, true)
      else
        match k with
        | .leaf => some (.mk .leaf json (ok []) current as, ok [])
        | k =>
            let new := (loadActs json.flow).1
            if json.flowKey = .absent then none
            else if json.flowKey = .null then some (.mk k json false current as, false)
            else if !(loadActs json.flow).2 then some (.mk k json false current (as ++ new), false)
            else if k = .serial ∧ as.length + json.flow.length ≤ current then none
            else
              -- the acts that were there come first
              match Node.activateAll k current 0 as ok with
              | none => none
              | some (as, false) => some (.mk k json false current (as ++ new), false)
              | some (as, true) =>
                  (Entry.launchAll k current as.length json.flow ok).map fun r =>
                    (.mk k json r.2 current (as ++ r.1), r.2)

/-- The loop over acts, from index `i` on: the selected ones are activated
until one fails. -/
def Node.activateAll (k : ActKind) (current : ℕ) :
    ℕ → List Node → Outcomes → Option (List Node × Bool)
  | _, [], _ => some ([], true)
  | i, a :: as, ok =>
      if k.selects current i then
        match a.activate (ok.below i) with
        | none => none
        | some (a, false) => some (a :: as, false)
        | some (a, true) => (activateAll k current (i + 1) as ok).map fun r => (a :: r.1, r.2)
      else (activateAll k current (i + 1) as ok).map fun r => (a :: r.1, r.2)

end

/-! ### Deactivating, next and jump -/

mutual

/-- `act_ensure::deactivate`. -/
def Node.deactivate : Node → Node
  | .mk k json active current as =>
      if active then .mk k json false current (Node.deactivateAll k current 0 as)
      else .mk k json active current as

/-- The acts of an act that is deactivated. -/
def Node.deactivateAll (k : ActKind) (current : ℕ) : ℕ → List Node → List Node
  | _, [] => []
  | i, a :: as =>
      (if k.selects current i then a.deactivate else a) :: deactivateAll k current (i + 1) as

end

namespace Node

/-- `get_current_act()->deactivate()`, `current_act_index_ = i` and
`get_current_act()->activate()` of an act_serial; the answer is not looked
at. -/
def moveTo (t : Node) (i : ℕ) (ok : Outcomes) : Option Node :=
  let acts := t.acts.modify t.current deactivate
  match acts[i]? with
  | none => none
  | some a => (a.activate (ok.below i)).map fun r => mk t.kind t.json t.active i (acts.set i r.1)

/-- What happens to an act. -/
inductive Op
  | activate (ok : Outcomes)
  | deactivate
  | next (ok : Outcomes)
  | jump (i : ℕ) (ok : Outcomes)

/-- One operation on the act.  Only an act_serial takes `next` and `jump`;
without acts, `next` reads past the end, and a jump finds no act. -/
def apply (t : Node) : Op → Option Node
  | .activate ok => (t.activate ok).map Prod.fst
  | .deactivate => some t.deactivate
  | .next ok =>
      if t.kind = .serial then
        if t.acts.length ≤ t.current then none
        else if t.current + 1 < t.acts.length then t.moveTo (t.current + 1) ok
        -- at the end the index goes back, and nothing is activated
        else some (t.withActs (t.acts.modify t.current deactivate))
      else some t
  | .jump i ok =>
      if t.kind = .serial ∧ i < t.acts.length then
        if t.acts.length ≤ t.current then none else t.moveTo i ok
      else some t

/-- The act at a place. -/
def get : Node → List ℕ → Option Node
  | t, [] => some t
  | t, i :: a => (t.acts[i]?).bind (get · a)

/-- An operation on the act at a place. -/
def applyAt (op : Op) : Node → List ℕ → Option Node
  | t, [] => t.apply op
  | t, i :: a =>
      match t.acts[i]? with
      | none => none
      | some c => (applyAt op c a).map fun c' => t.withActs (t.acts.set i c')

/-- The step function: an operation on some act of the tree. -/
def step (t : Node) (l : List ℕ × Op) : Option Node := t.applyAt l.2 l.1

end Node

/-! ### What activate does, in the order of the code -/

theorem map_json_loadActs {es : List Entry} (h : (loadActs es).2 = true) :
    (loadActs es).1.map Node.json = es := by
  induction es with
  | nil => rfl
  | cons e es ih =>
      obtain ⟨type, n, f, fl⟩ := e
      rcases type with - | k
      · cases h
      · exact congrArg _ (ih h)

namespace Node

variable {k : ActKind} {cur : ℕ} {ok : Outcomes}

theorem activateAll_append (i : ℕ) (as bs : List Node) :
    activateAll k cur i (as ++ bs) ok =
      (activateAll k cur i as ok).bind fun r =>
        if r.2 then
          (activateAll k cur (i + as.length) bs ok).map fun q => (r.1 ++ q.1, q.2)
        else some (r.1 ++ bs, false) := by
  induction as generalizing i with
  | nil => simp [activateAll]
  | cons a as ih =>
      have hindex : i + 1 + as.length = i + (a :: as).length := by
        rw [List.length_cons]
        omega
      rw [List.cons_append, activateAll, activateAll, ih (i + 1), hindex]
      -- the act is selected or not, and succeeds or not; then the rest
      split
      · rcases a.activate (ok.below i) with - | ⟨a', - | -⟩
        · rfl
        · rfl
        · rcases activateAll k cur (i + 1) as ok with - | ⟨as', - | -⟩
          · rfl
          · rfl
          · simp [Function.comp_def]
      · rcases activateAll k cur (i + 1) as ok with - | ⟨as', - | -⟩
        · rfl
        · rfl
        · simp [Function.comp_def]

/-- Creating an act and activating it. -/
theorem launch_of_create {e : Entry} {t : Node} (h : e.create = some t) (ok : Outcomes) :
    e.launch ok = t.activate ok := by
  obtain ⟨type, n, f, fl⟩ := e
  rcases type with - | k
  · cases h
  obtain rfl := Option.some.inj h
  cases k with
  | leaf => simp [Entry.launch, activate]
  | serial => simp [Entry.launch, activate, activateAll, Entry.flowKey, Entry.flow]
  | parallel => simp [Entry.launch, activate, activateAll, Entry.flowKey, Entry.flow]

/-- The acts that were loaded are activated like those that were there. -/
theorem launchAll_eq {es : List Entry} (h : (loadActs es).2 = true) (i : ℕ) :
    Entry.launchAll k cur i es ok = activateAll k cur i (loadActs es).1 ok := by
  induction es generalizing i with
  | nil => rfl
  | cons e es ih =>
      rcases hc : e.create with - | a
      · simp [loadActs, hc] at h
      have hload : loadActs (e :: es) = (a :: (loadActs es).1, (loadActs es).2) := by
        simp [loadActs, hc]
      rw [hload] at h ⊢
      rw [Entry.launchAll, activateAll, launch_of_create hc, ih h, hc]

theorem activate_of_active {t : Node} (h : t.active = true) : t.activate ok = some (t, true) := by
  obtain ⟨k, json, b, c, as⟩ := t
  obtain rfl : b = true := h
  simp [activate]

/-- The acts that `load_acts` of this act appends. -/
def loaded (t : Node) : List Node := if t.json.hasFlow then (loadActs t.json.flow).1 else []

/-- `load_acts` of this act comes to the end. -/
def loads (t : Node) : Bool := t.json.hasFlow && (loadActs t.json.flow).2

theorem length_loadActs {es : List Entry} (h : (loadActs es).2 = true) :
    (loadActs es).1.length = es.length := by
  have := congrArg List.length (map_json_loadActs h)
  rwa [List.length_map] at this

/-- The loop takes each act to one that stands in `R` to it. -/
theorem forall₂_activateAll {R : Node → Node → Prop} {i : ℕ} {as as' : List Node} {b : Bool}
    (hR : ∀ a ∈ as, R a a ∧ ∀ ok a' b, a.activate ok = some (a', b) → R a a')
    (h : activateAll k cur i as ok = some (as', b)) : List.Forall₂ R as as' := by
  induction as generalizing i as' b with
  | nil =>
      cases h
      exact .nil
  | cons a as ih =>
      obtain ⟨⟨hrefl, hact⟩, hrest⟩ := List.forall_mem_cons.mp hR
      have hsame : List.Forall₂ R as as := List.forall₂_same.mpr fun a ha => (hrest a ha).1
      rw [activateAll] at h
      -- a failure keeps the rest, a success is followed by the rest
      split at h
      · rcases ha : a.activate (ok.below i) with - | ⟨a', - | -⟩ <;> rw [ha] at h
        · cases h
        · cases h
          exact .cons (hact _ _ _ ha) hsame
        · obtain ⟨r, hr, he⟩ := Option.map_eq_some_iff.mp h
          cases he
          exact .cons (hact _ _ _ ha) (ih hrest hr)
      · obtain ⟨r, hr, he⟩ := Option.map_eq_some_iff.mp h
        cases he
        exact .cons hrefl (ih hrest hr)

theorem forall_activateAll {P : Node → Prop} {i : ℕ} {as as' : List Node} {b : Bool}
    (hP : ∀ a ∈ as, P a ∧ ∀ ok a' b, a.activate ok = some (a', b) → P a')
    (h : activateAll k cur i as ok = some (as', b)) : ∀ a' ∈ as', P a' := by
  have hall := forall₂_activateAll (R := fun _ a' => P a') hP h
  clear h hP
  induction hall with
  | nil => simp
  | cons ha _ ih => simpa using ⟨ha, ih⟩

theorem length_activateAll {i : ℕ} {as as' : List Node} {b : Bool}
    (h : activateAll k cur i as ok = some (as', b)) : as'.length = as.length := by
  have := forall₂_activateAll (R := fun _ _ => True) (by simp) h
  exact this.length_eq.symm

theorem activate_composite {json : Entry} {as : List Node} (hkind : k ≠ .leaf) :
    (mk k json false cur as).activate ok =
      if json.flowKey = .absent then none
      else if json.flowKey = .null then some (mk k json false cur as, false)
      else if !(loadActs json.flow).2 then
        some (mk k json false cur (as ++ (loadActs json.flow).1), false)
      else if k = .serial ∧ as.length + json.flow.length ≤ cur then none
      else (activateAll k cur 0 as ok).bind fun r =>
        if r.2 then
          (Entry.launchAll k cur r.1.length json.flow ok).map fun q =>
            (mk k json q.2 cur (r.1 ++ q.1), q.2)
        else some (mk k json false cur (r.1 ++ (loadActs json.flow).1), false) := by
  rcases hold : activateAll k cur 0 as ok with - | ⟨as', - | -⟩
  all_goals
    cases k with
    | leaf => exact absurd rfl hkind
    | serial => simp [activate, hold]
    | parallel => simp [activate, hold]

/-- **`activate` of a composite act that is not active**: `load_acts` appends
to `acts_`, then the loop goes through all of them. -/
theorem activate_eq {t : Node} (hkind : t.kind ≠ .leaf) (hoff : t.active = false) :
    t.activate ok =
      if t.json.flowKey = .absent then none
      else if t.loads = false then
        some (mk t.kind t.json false t.current (t.acts ++ t.loaded), false)
      else if t.kind = .serial ∧ (t.acts ++ t.loaded).length ≤ t.current then none
      else (activateAll t.kind t.current 0 (t.acts ++ t.loaded) ok).map fun r =>
        (mk t.kind t.json r.2 t.current r.1, r.2) := by
  obtain ⟨k, json, b, c, as⟩ := t
  obtain rfl : b = false := hoff
  -- the two loops as one
  have hloop : (loadActs json.flow).2 = true →
      ((activateAll k c 0 as ok).bind fun r =>
        if r.2 then
          (Entry.launchAll k c r.1.length json.flow ok).map fun q =>
            (mk k json q.2 c (r.1 ++ q.1), q.2)
        else some (mk k json false c (r.1 ++ (loadActs json.flow).1), false)) =
      (activateAll k c 0 (as ++ (loadActs json.flow).1) ok).map fun r =>
        (mk k json r.2 c r.1, r.2) := by
    intro hall
    rw [activateAll_append, Nat.zero_add]
    rcases hold : activateAll k c 0 as ok with - | ⟨as', - | -⟩
    · rfl
    · rfl
    · simp [length_activateAll hold, launchAll_eq hall, Function.comp_def]
  rw [activate_composite (k := k) hkind]
  rcases hflow : json.flowKey with - | - | -
  · simp [hflow]
  · simp [loads, loaded, Entry.hasFlow, hflow]
  rcases hall : (loadActs json.flow).2 with - | -
  · simp [loads, loaded, Entry.hasFlow, hflow, hall]
  · simp [loads, loaded, Entry.hasFlow, hflow, hall, hloop hall, length_loadActs hall]

/-- What a composite act that is not active can come to. -/
theorem activate_cases {t t' : Node} {b : Bool} (hkind : t.kind ≠ .leaf) (hoff : t.active = false)
    (h : t.activate ok = some (t', b)) :
    (t.loads = false ∧ b = false ∧ t' = mk t.kind t.json false t.current (t.acts ++ t.loaded)) ∨
    (t.loads = true ∧
      ∃ as', activateAll t.kind t.current 0 (t.acts ++ t.loaded) ok = some (as', b) ∧
      t' = mk t.kind t.json b t.current as') := by
  rw [activate_eq hkind hoff] at h
  split at h
  · cases h
  split at h
  · next hload =>
      cases h
      exact .inl ⟨hload, rfl, rfl⟩
  · next hload =>
      split at h
      · cases h
      · obtain ⟨r, hr, he⟩ := Option.map_eq_some_iff.mp h
        cases he
        exact .inr ⟨by simpa using hload, r.1, hr, rfl⟩

theorem activate_leaf {t : Node} (hkind : t.kind = .leaf) (hoff : t.active = false) :
    t.activate ok = some (mk .leaf t.json (ok []) t.current t.acts, ok []) := by
  obtain ⟨k, json, b, c, as⟩ := t
  obtain rfl : k = .leaf := hkind
  obtain rfl : b = false := hoff
  simp [activate]

/-! ### What stays the same -/

section

variable {t t' : Node} {b : Bool}

/-- Activating keeps the class, the JSON and the index. -/
theorem activate_keeps (h : t.activate ok = some (t', b)) :
    t'.kind = t.kind ∧ t'.json = t.json ∧ t'.current = t.current := by
  rcases hact : t.active with - | -
  · by_cases hkind : t.kind = .leaf
    · rw [activate_leaf hkind hact] at h
      cases h
      exact ⟨hkind.symm, rfl, rfl⟩
    · rcases activate_cases hkind hact h with ⟨-, -, rfl⟩ | ⟨-, as', -, rfl⟩
      · exact ⟨rfl, rfl, rfl⟩
      · exact ⟨rfl, rfl, rfl⟩
  · rw [activate_of_active hact] at h
    cases h
    exact ⟨rfl, rfl, rfl⟩

theorem map_json_activateAll {i : ℕ} {as as' : List Node}
    (h : activateAll k cur i as ok = some (as', b)) : as'.map json = as.map json := by
  have hsame : List.Forall₂ (fun a a' : Node => a.json = a'.json) as as' :=
    forall₂_activateAll (fun a _ => ⟨rfl, fun _ _ _ ha => (activate_keeps ha).2.1.symm⟩) h
  symm
  rwa [← List.forall₂_eq_eq_eq, List.forall₂_map_left_iff, List.forall₂_map_right_iff]

/-- **The acts after an activation**: those that were there, and those that
were loaded. -/
theorem map_json_activate (hkind : t.kind ≠ .leaf) (hoff : t.active = false)
    (h : t.activate ok = some (t', b)) :
    t'.acts.map json = t.acts.map json ++ t.loaded.map json := by
  rcases activate_cases hkind hoff h with ⟨-, -, rfl⟩ | ⟨-, as', hall, rfl⟩
  · exact List.map_append
  · exact (map_json_activateAll hall).trans List.map_append

end

/-- Activating takes no act away. -/
theorem length_le_activate {t t' : Node} {b : Bool} (h : t.activate ok = some (t', b)) :
    t.acts.length ≤ t'.acts.length := by
  rcases hact : t.active with - | -
  · by_cases hkind : t.kind = .leaf
    · rw [activate_leaf hkind hact] at h
      cases h
      exact Nat.le_refl _
    · have hlen := congrArg List.length (map_json_activate hkind hact h)
      rw [List.length_append, List.length_map, List.length_map] at hlen
      omega
  · rw [activate_of_active hact] at h
    cases h
    exact Nat.le_refl _

end Node

/-! ### Where nothing fails -/

mutual

/-- The JSON with all types known. -/
def Spec.toEntry : Spec → Entry
  | .mk k n fl => .mk (some k) n .array (Spec.toEntries fl)

/-- The same of a flow. -/
def Spec.toEntries : List Spec → List Entry
  | [] => []
  | s :: ss => s.toEntry :: Spec.toEntries ss

end

mutual

/-- The act with its JSON. -/
def Act.toNode : Act → Node
  | .mk k n fl b c as => .mk k (.mk (some k) n .array (Spec.toEntries fl)) b c (Act.toNodes as)

/-- The same of acts. -/
def Act.toNodes : List Act → List Node
  | [] => []
  | a :: as => a.toNode :: Act.toNodes as

end

theorem Act.toNodes_eq (as : List Act) : toNodes as = as.map toNode := by
  induction as with
  | nil => rfl
  | cons a as ih => rw [toNodes, ih, List.map_cons]

theorem loadActs_toEntries (ss : List Spec) :
    loadActs (Spec.toEntries ss) = (Act.toNodes (ss.map Spec.create), true) := by
  induction ss with
  | nil => rfl
  | cons s ss ih =>
      obtain ⟨k, n, fl⟩ := s
      simp [Spec.toEntries, Spec.toEntry, loadActs, Entry.create, Entry.type, ih, Spec.create,
        Act.toNodes, Act.toNode]

namespace Node

/-- Every leaf says yes. -/
def allYes : Outcomes := fun _ => true

/-- The loop, if every act that is selected says yes. -/
theorem activateAll_toNodes {k : ActKind} {c i : ℕ} {as as' : List Act}
    (hlen : as'.length = as.length)
    (h : ∀ (j : ℕ) a, as[j]? = some a → ∃ a', as'[j]? = some a' ∧
      if k.selects c (i + j) then a.toNode.activate allYes = some (a'.toNode, true) else a' = a) :
    activateAll k c i (Act.toNodes as) allYes = some (Act.toNodes as', true) := by
  induction as generalizing i as' with
  | nil =>
      obtain rfl := List.eq_nil_of_length_eq_zero hlen
      rfl
  | cons a as ih =>
      obtain ⟨a', ha', hact⟩ := h 0 a rfl
      rcases as' with - | ⟨a'', as'⟩
      · cases hlen
      cases ha'
      have hrest : activateAll k c (i + 1) (Act.toNodes as) allYes
          = some (Act.toNodes as', true) := by
        refine ih (by simpa using hlen) fun j b hb => ?_
        obtain ⟨b', hb', hact⟩ := h (j + 1) b hb
        refine ⟨b', hb', ?_⟩
        rwa [Nat.add_assoc, Nat.add_comm 1]
      rw [Nat.add_zero] at hact
      have hyes : allYes.below i = allYes := rfl
      rw [Act.toNodes, activateAll, hrest, hyes]
      split at hact
      · next hsel => simp [hsel, hact, Act.toNodes]
      · next hsel => simp [hsel, hact, Act.toNodes]

theorem loaded_toNode {t : Act} : t.toNode.loaded = Act.toNodes (t.flow.map Spec.create) := by
  obtain ⟨k, n, fl, b, c, as⟩ := t
  simp [loaded, Act.toNode, Entry.hasFlow, Entry.flowKey, Entry.flow, loadActs_toEntries,
    Act.flow]

theorem loads_toNode {t : Act} : t.toNode.loads = true := by
  obtain ⟨k, n, fl, b, c, as⟩ := t
  simp [loads, Act.toNode, Entry.hasFlow, Entry.flowKey, Entry.flow, loadActs_toEntries]

/-- Activating a composite act, if the acts that are selected say yes. -/
theorem activate_toNode_of {k : ActKind} {n : Text} {fl : List Spec} {c : ℕ} {as : List Act}
    (hk : k ≠ .leaf) (hcur : k = .serial → c < as.length + fl.length)
    (hold : ∀ (j : ℕ) a, as[j]? = some a → k.selects c j = true →
      a.toNode.activate allYes = some (a.activate.toNode, true))
    (hnew : ∀ (j : ℕ) s, fl[j]? = some s → k.selects c (as.length + j) = true →
      s.create.toNode.activate allYes = some (s.launch.toNode, true)) :
    (Act.mk k n fl false c as).toNode.activate allYes
      = some ((Act.mk k n fl false c as).activate.toNode, true) := by
  have hall : activateAll k c 0 (Act.toNodes (as ++ fl.map Spec.create)) allYes
      = some (Act.toNodes (activateActs k c 0 as ++ launchActs k c as.length fl), true) := by
    refine activateAll_toNodes (by simp [length_activateActs, length_launchActs]) fun j a ha => ?_
    rw [Nat.zero_add]
    by_cases hj : j < as.length
    · rw [List.getElem?_append_left hj] at ha
      refine ⟨if k.selects c j then a.activate else a, ?_, ?_⟩
      · rw [List.getElem?_append_left (by rwa [length_activateActs]), getElem?_activateActs, ha,
          Nat.zero_add]
        rfl
      · split
        · next hsel => exact hold j a ha hsel
        · rfl
    · rw [List.getElem?_append_right (by omega), List.getElem?_map, Option.map_eq_some_iff] at ha
      obtain ⟨s, hs, rfl⟩ := ha
      refine ⟨if k.selects c j then s.launch else s.create, ?_, ?_⟩
      · rw [List.getElem?_append_right (by rw [length_activateActs]; omega), length_activateActs,
          getElem?_launchActs, hs, Nat.add_sub_cancel' (by omega)]
        rfl
      · split
        · next hsel => exact hnew _ s hs (by rwa [Nat.add_sub_cancel' (by omega)])
        · rfl
  have happ : (Act.mk k n fl false c as).toNode.acts ++ (Act.mk k n fl false c as).toNode.loaded
      = Act.toNodes (as ++ fl.map Spec.create) := by
    rw [loaded_toNode]
    simp [Act.toNode, Act.flow, Act.toNodes_eq]
  rw [activate_eq (t := (Act.mk k n fl false c as).toNode) hk rfl, loads_toNode, happ]
  have hlen : (Act.toNodes (as ++ fl.map Spec.create)).length = as.length + fl.length := by
    simp [Act.toNodes_eq]
  have hread : ¬ (k = .serial ∧ as.length + fl.length ≤ c) := fun h =>
    absurd h.2 (Nat.not_le.mpr (hcur h.1))
  have hthere : (Act.mk k n fl false c as).toNode.json.flowKey ≠ .absent := by
    simp [Act.toNode, Entry.flowKey]
  rw [if_neg hthere, if_neg (by simp), hlen]
  show (if k = .serial ∧ as.length + fl.length ≤ c then none else
    (activateAll k c 0 (Act.toNodes (as ++ fl.map Spec.create)) allYes).map _) = _
  rw [if_neg hread, hall, Act.activate_mk, if_neg hk]
  rfl

theorem launch_toNode {s : Spec} (h : s.launchable = true) :
    s.create.toNode.activate allYes = some (s.launch.toNode, true) := by
  induction s using Spec.induct with
  | h k n fl ih =>
      have hlaunch : (Spec.mk k n fl).launch = (Act.mk k n fl false 0 []).activate := by
        rw [Act.launch_mk, Act.activate_mk]
        rfl
      rw [hlaunch]
      by_cases hk : k = .leaf
      · subst hk
        exact activate_leaf rfl rfl
      · have hacts := launchable_composite hk h
        refine activate_toNode_of hk (by simpa using hacts.2) (by simp) fun j s hs hsel => ?_
        rw [List.length_nil] at hsel
        exact ih s (List.mem_of_getElem? hs) (launchable_of_mem hacts.1 hs hsel)

/-- **The two models of `activate` agree** where every type is known, every
flow is there and every leaf says yes. -/
theorem activate_toNode {t : Act} (h : t.startable = true) :
    t.toNode.activate allYes = some (t.activate.toNode, true) := by
  induction t using Act.induct with
  | h k n fl b c as ih =>
      cases b with
      | true =>
          rw [activate_of_active (by rfl), Act.activate_of_active rfl]
      | false =>
          by_cases hk : k = .leaf
          · subst hk
            rw [Act.activate_mk, activate_leaf rfl rfl]
            rfl
          · obtain ⟨hold, hnew, hcur⟩ := startable_composite hk h
            refine activate_toNode_of hk hcur (fun j a ha hsel => ?_) fun j s hs hsel => ?_
            · exact ih a (List.mem_of_getElem? ha)
                (startable_of_mem hold ha (by rwa [Nat.zero_add]))
            · exact launch_toNode (launchable_of_mem hnew hs hsel)

/-! ### Entering an act again -/

variable {ok : Outcomes}

/-- A created act that was not entered yet is at its first act. -/
def Fresh (e : Entry) (t : Node) : Prop :=
  t.json = e ∧ some t.kind = e.type ∧ (t.acts = [] → t.current = 0)

theorem deactivate_keeps (t : Node) :
    t.deactivate.kind = t.kind ∧ t.deactivate.json = t.json ∧ t.deactivate.current = t.current ∧
      t.deactivate.acts.length = t.acts.length := by
  have hlen : ∀ k c i as, (deactivateAll k c i as).length = as.length := by
    intro k c i as
    induction as generalizing i with
    | nil => rfl
    | cons a as ih => simp [deactivateAll, ih]
  obtain ⟨k, json, b, c, as⟩ := t
  cases b with
  | false => simp [deactivate]
  | true => simp [deactivate, hlen]

/-- What `moveTo` makes of an act_serial. -/
theorem moveTo_eq_some {t t' : Node} {i : ℕ} (h : t.moveTo i ok = some t') :
    ∃ a a' b, (t.acts.modify t.current deactivate)[i]? = some a ∧
      a.activate (ok.below i) = some (a', b) ∧
      t' = mk t.kind t.json t.active i ((t.acts.modify t.current deactivate).set i a') := by
  unfold moveTo at h
  dsimp only at h
  split at h
  · cases h
  · next a ha =>
      obtain ⟨r, hr, rfl⟩ := Option.map_eq_some_iff.mp h
      exact ⟨a, r.1, r.2, ha, hr, rfl⟩

theorem Fresh.moveTo {e : Entry} {t t' : Node} {i : ℕ} (hf : Fresh e t)
    (h : t.moveTo i ok = some t') : Fresh e t' := by
  obtain ⟨a, a', b, ha, -, rfl⟩ := moveTo_eq_some h
  refine ⟨hf.1, hf.2.1, fun hnil => ?_⟩
  -- the act that was entered is there
  rw [acts_mk, List.set_eq_nil_iff] at hnil
  rw [hnil] at ha
  cases ha

theorem Fresh.apply {e : Entry} {t t' : Node} {op : Op} (hf : Fresh e t)
    (h : t.apply op = some t') : Fresh e t' := by
  obtain ⟨hjson, hkind, hcur⟩ := hf
  cases op with
  | activate ok =>
      obtain ⟨r, hr, rfl⟩ := Option.map_eq_some_iff.mp h
      obtain ⟨hk, hj, hc⟩ := activate_keeps hr
      refine ⟨hj.trans hjson, by rw [hk, hkind], fun hnil => hc.trans (hcur ?_)⟩
      have hlen := length_le_activate hr
      rw [hnil] at hlen
      exact List.eq_nil_of_length_eq_zero (Nat.le_zero.mp hlen)
  | deactivate =>
      cases h
      obtain ⟨hk, hj, hc, hlen⟩ := deactivate_keeps t
      refine ⟨hj.trans hjson, by rw [hk, hkind], fun hnil => hc.trans (hcur ?_)⟩
      rw [hnil] at hlen
      exact List.eq_nil_of_length_eq_zero hlen.symm
  | next ok =>
      simp only [Node.apply] at h
      split at h
      · split at h
        · cases h
        split at h
        · exact Fresh.moveTo ⟨hjson, hkind, hcur⟩ h
        · cases h
          refine ⟨hjson, hkind, fun hnil => hcur ?_⟩
          simpa [withActs] using hnil
      · cases h
        exact ⟨hjson, hkind, hcur⟩
  | jump i ok =>
      simp only [Node.apply] at h
      split at h
      · split at h
        · cases h
        · exact Fresh.moveTo ⟨hjson, hkind, hcur⟩ h
      · cases h
        exact ⟨hjson, hkind, hcur⟩

theorem Fresh.step {e : Entry} {t t' : Node} {l : List ℕ × Op} (hf : Fresh e t)
    (h : t.step l = some t') : Fresh e t' := by
  obtain ⟨a, op⟩ := l
  cases a with
  | nil => exact hf.apply h
  | cons i a =>
      simp only [Node.step, applyAt] at h
      split at h
      · cases h
      · obtain ⟨c', -, rfl⟩ := Option.map_eq_some_iff.mp h
        refine ⟨hf.1, hf.2.1, fun hnil => hf.2.2 ?_⟩
        simpa [withActs] using hnil

/-- The acts that `on_update` updates, one after the other. -/
def updates (t : Node) : List Node :=
  match t.kind with
  | .leaf => []
  | .serial => t.acts[t.current]?.toList
  | .parallel => t.acts

/-- An act that is not active is activated with success: it has an act for
every entry of its flow and no other, an act_serial is at the first one, and
an act_parallel updates each once. -/
def Restarts (t : Node) (l : List ℕ × Op) : Prop :=
  ∀ ok t', l = ([], .activate ok) → t.active = false → t.activate ok = some (t', true) →
    t'.acts.map json = t.json.flow ∧ (t.kind = .serial → t'.current = 0) ∧
      (t.kind = .parallel → t'.updates.map json = t.json.flow)

/-- An act that is activated with success had no acts yet. -/
def FirstEntry (t : Node) (l : List ℕ × Op) : Prop :=
  ∀ ok t', l = ([], .activate ok) → t.active = false → t.activate ok = some (t', true) →
    t.acts = []

/-- One entry of an act is a restart exactly if it is the first. -/
theorem Fresh.restarts_iff {e : Entry} {t : Node} {l : List ℕ × Op} (hf : Fresh e t)
    (hcomp : e.type ≠ some .leaf) (hflow : e.hasFlow = true) (hall : (loadActs e.flow).2 = true) :
    t.Restarts l ↔ t.FirstEntry l := by
  obtain ⟨hjson, hkind, hcur⟩ := hf
  have hk : t.kind ≠ .leaf := fun h => hcomp (by rw [← hkind, h])
  have hloaded : t.loaded.map json = t.json.flow := by
    rw [loaded, hjson, if_pos hflow]
    exact map_json_loadActs hall
  constructor
  · intro h ok t' hl hoff hact
    obtain ⟨hacts, -⟩ := h ok t' hl hoff hact
    rw [map_json_activate hk hoff hact, hloaded] at hacts
    simpa using hacts
  · intro h ok t' hl hoff hact
    have hnil := h ok t' hl hoff hact
    obtain ⟨hk', -, hc'⟩ := activate_keeps hact
    have hacts : t'.acts.map json = t.json.flow := by
      rw [map_json_activate hk hoff hact, hloaded, hnil]
      rfl
    refine ⟨hacts, fun _ => hc'.trans (hcur hnil), fun hpar => ?_⟩
    rw [updates, hk', hpar]
    exact hacts

/-- **A composite act restarts exactly in the runs that enter it once**, for
every flow whose types are known, whatever is done with it and with the acts
below it. -/
theorem restarts_iff_firstEntry {e : Entry} {t : Node} (hcomp : e.type ≠ some .leaf)
    (hflow : e.hasFlow = true) (hall : (loadActs e.flow).2 = true)
    (hc : e.create = some t) (ls : List (List ℕ × Op)) :
    Along step Restarts t ls ↔ Along step FirstEntry t ls := by
  have hfresh : Fresh e t := by
    obtain ⟨k, hk, rfl⟩ := Option.map_eq_some_iff.mp hc
    exact ⟨rfl, hk.symm, fun _ => rfl⟩
  constructor
  · exact Along.imp (fun hf _ h => hf.step h)
      (fun hf => (hf.restarts_iff hcomp hflow hall).mp) hfresh
  · exact Along.imp (fun hf _ h => hf.step h)
      (fun hf => (hf.restarts_iff hcomp hflow hall).mpr) hfresh

/-- An act_serial with two leaves. -/
def twoLeaves : Entry :=
  .mk (some .serial) ['s'] .array
    [.mk (some .leaf) ['a'] .absent [], .mk (some .leaf) ['b'] .absent []]

/-- It is entered, goes on to its second leaf and is left. -/
def enterOnce : List (List ℕ × Op) :=
  [([], .activate allYes), ([], .next allYes), ([], .deactivate)]

theorem restarts_enterOnce : ∃ t, twoLeaves.create = some t ∧
    (runSteps step t enterOnce).isSome = true ∧ Along step Restarts t enterOnce := by
  refine ⟨_, rfl, by decide +kernel,
    (restarts_iff_firstEntry (e := twoLeaves) (by decide) rfl rfl rfl enterOnce).mpr ?_⟩
  refine ⟨fun _ _ _ _ _ => rfl,
    fun t₁ _ => ⟨fun _ _ hl => ?_, fun t₂ _ => ⟨fun _ _ hl => ?_, ?_⟩⟩⟩
  · cases hl
  · cases hl
  · exact fun _ _ => trivial

/-- It is left and entered again: it has four acts, two for each leaf, and is
at the second. -/
theorem enterTwice_doubled : ∃ t t₁ t₂, twoLeaves.create = some t ∧
    runSteps step t enterOnce = some t₁ ∧ t₁.active = false ∧
    t₁.activate allYes = some (t₂, true) ∧ t₂.acts.length = 4 ∧ t₂.current = 1 ∧
    ¬ Along step Restarts t (enterOnce ++ [([], .activate allYes)]) := by
  refine ⟨_, _, _, rfl, rfl, rfl, rfl, rfl, rfl, fun h => ?_⟩
  have hlast := ((h.2 _ rfl).2 _ rfl).2 _ rfl
  have hcur := (hlast.1 allYes _ rfl rfl rfl).2.1 rfl
  cases hcur

end Node

end Play
