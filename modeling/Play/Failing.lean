/-
Play/Failing.lean

Activations that fail.

A composite act whose `load_acts` stops at an unknown type, or one of whose
acts says no, answers false and is not active.  The acts that were appended
stay in `acts_`, and the acts of an act_parallel that said yes before stay
active.  `failed_leaves_nothing_iff` says when nothing is left behind.  An
activation that reads a "flow" that is not there does not answer.

The acts of an act all come from its flow: where there is nothing to load,
there are none (`Tidy`).
-/
import Play.Loading

namespace Play

/-! ### Induction -/

theorem Entry.induct {M : Entry → Prop}
    (h : ∀ k n f fl, (∀ e ∈ fl, M e) → M (.mk k n f fl)) (e : Entry) : M e :=
  @Entry.rec M (fun fl => ∀ e ∈ fl, M e) (fun k n f fl ih => h k n f fl ih) (by simp)
    (fun e es he hes => by simpa using ⟨he, hes⟩) e

theorem Node.induct {M : Node → Prop}
    (h : ∀ k j b c as, (∀ a ∈ as, M a) → M (.mk k j b c as)) (t : Node) : M t :=
  @Node.rec M (fun as => ∀ a ∈ as, M a) (fun k j b c as ih => h k j b c as ih) (by simp)
    (fun a as ha has => by simpa using ⟨ha, has⟩) t

theorem create_of_mem_loadActs {es : List Entry} {a : Node} (h : a ∈ (loadActs es).1) :
    ∃ e ∈ es, e.create = some a := by
  induction es with
  | nil => cases h
  | cons e es ih =>
      rcases hc : e.create with - | a'
      · simp [loadActs, hc] at h
      · simp only [loadActs, hc, List.mem_cons] at h
        rcases h with rfl | h
        · exact ⟨e, List.mem_cons_self, hc⟩
        · obtain ⟨e', he', hc'⟩ := ih h
          exact ⟨e', List.mem_cons_of_mem _ he', hc'⟩

namespace Node

/-! ### Acts come from the flow -/

/-- Wherever there is nothing to load, there are no acts. -/
def Tidy (t : Node) : Prop := ∀ a c, t.get a = some c → c.loaded = [] → c.acts = []

variable {t t' : Node} {ok : Outcomes} {b : Bool}

theorem tidy_iff : t.Tidy ↔ (t.loaded = [] → t.acts = []) ∧ ∀ c ∈ t.acts, c.Tidy := by
  constructor
  · intro h
    refine ⟨h [] t rfl, fun c hc a d hd => ?_⟩
    obtain ⟨i, hi⟩ := List.mem_iff_getElem?.mp hc
    exact h (i :: a) d (by rw [get, hi]; exact hd)
  · rintro ⟨hroot, hacts⟩ a c hc
    cases a with
    | nil =>
        obtain rfl := Option.some.inj hc
        exact hroot
    | cons i a =>
        obtain ⟨d, hd, hc⟩ := Option.bind_eq_some_iff.mp hc
        exact hacts d (List.mem_of_getElem? hd) a c hc

theorem loaded_congr (h : t'.json = t.json) : t'.loaded = t.loaded := by
  rw [loaded, loaded, h]

theorem tidy_of_nil (h : t.acts = []) : t.Tidy := by
  refine tidy_iff.mpr ⟨fun _ => h, fun c hc => ?_⟩
  rw [h] at hc
  cases hc

theorem create_of_mem_loaded {c : Node} (h : c ∈ t.loaded) :
    ∃ e ∈ t.json.flow, e.create = some c := by
  rw [loaded] at h
  split at h
  · exact create_of_mem_loadActs h
  · cases h

/-- Activating an act, if its acts and those it loads stay tidy. -/
theorem tidy_activate (hroot : t.loaded = [] → t.acts = []) (hacts : ∀ c ∈ t.acts, c.Tidy)
    (hstep : ∀ c ∈ t.acts ++ t.loaded, ∀ ok c' b, c.activate ok = some (c', b) → c'.Tidy)
    (h : t.activate ok = some (t', b)) : t'.Tidy := by
  have hall : ∀ c ∈ t.acts ++ t.loaded, c.Tidy := by
    intro c hc
    rcases List.mem_append.mp hc with hc | hc
    · exact hacts c hc
    · obtain ⟨e, -, he⟩ := create_of_mem_loaded hc
      obtain ⟨k, -, rfl⟩ := Option.map_eq_some_iff.mp he
      exact tidy_of_nil rfl
  rcases hact : t.active with - | -
  swap
  · rw [activate_of_active hact] at h
    cases h
    exact tidy_iff.mpr ⟨hroot, hacts⟩
  by_cases hkind : t.kind = .leaf
  · rw [activate_leaf hkind hact] at h
    cases h
    exact tidy_iff.mpr ⟨hroot, hacts⟩
  refine tidy_iff.mpr ⟨fun hnil => ?_, ?_⟩
  · -- no act is appended, and there was none
    rw [loaded_congr (activate_keeps h).2.1] at hnil
    have hlen := map_json_activate hkind hact h
    rw [hroot hnil, hnil] at hlen
    exact List.map_eq_nil_iff.mp hlen
  · rcases activate_cases hkind hact h with ⟨-, -, rfl⟩ | ⟨-, as', hloop, rfl⟩
    · exact hall
    · exact forall_activateAll (fun c hc => ⟨hall c hc, hstep c hc⟩) hloop

/-- An act that is created and activated at once. -/
theorem tidy_launch {e : Entry} (hc : e.create = some t) (h : t.activate ok = some (t', b)) :
    t'.Tidy := by
  induction e using Entry.induct generalizing t t' ok b with
  | h k n f fl ih =>
      obtain ⟨k', hk, rfl⟩ := Option.map_eq_some_iff.mp hc
      refine tidy_activate (fun _ => rfl) (by simp) (fun c hmem ok c' b => ?_) h
      obtain ⟨e, he, hce⟩ := create_of_mem_loaded (by simpa using hmem)
      exact ih e he hce

/-- **Activating keeps the tree tidy**, whether it succeeds or not. -/
theorem Tidy.activate (ht : t.Tidy) (h : t.activate ok = some (t', b)) : t'.Tidy := by
  induction t using Node.induct generalizing t' ok b with
  | h k j on c as ih =>
      obtain ⟨hroot, hacts⟩ := tidy_iff.mp ht
      refine tidy_activate hroot hacts (fun d hmem ok d' b hd => ?_) h
      -- an act that was there, or one that is loaded now
      rcases List.mem_append.mp hmem with hmem | hmem
      · exact ih d hmem (hacts d hmem) hd
      · obtain ⟨e, -, he⟩ := create_of_mem_loaded hmem
        exact tidy_launch he hd

theorem forall_deactivateAll {P : Node → Prop} {k : ActKind} {c i : ℕ} {as : List Node}
    (hP : ∀ a ∈ as, P a ∧ P a.deactivate) : ∀ a ∈ deactivateAll k c i as, P a := by
  induction as generalizing i with
  | nil => simp [deactivateAll]
  | cons a as ih =>
      obtain ⟨ha, hrest⟩ := List.forall_mem_cons.mp hP
      rw [deactivateAll]
      refine List.forall_mem_cons.mpr ⟨?_, ih hrest⟩
      split
      · exact ha.2
      · exact ha.1

theorem Tidy.deactivate (ht : t.Tidy) : t.deactivate.Tidy := by
  induction t using Node.induct with
  | h k j on c as ih =>
      obtain ⟨hroot, hacts⟩ := tidy_iff.mp ht
      cases on with
      | false => simpa [Node.deactivate] using ht
      | true =>
          have hoff : (mk k j true c as).deactivate = mk k j false c (deactivateAll k c 0 as) := by
            simp [Node.deactivate]
          rw [hoff]
          refine tidy_iff.mpr ⟨fun hnil => ?_, ?_⟩
          · have has : as = [] := hroot hnil
            rw [has]
            rfl
          · exact forall_deactivateAll fun a ha => ⟨hacts a ha, ih a ha (hacts a ha)⟩

/-- Other acts in the place of its acts. -/
theorem Tidy.withActs {as : List Node} {on : Bool} {c : ℕ} (ht : t.Tidy)
    (hlen : as.length = t.acts.length) (has : ∀ a ∈ as, a.Tidy) :
    (mk t.kind t.json on c as).Tidy := by
  refine tidy_iff.mpr ⟨fun hnil => ?_, has⟩
  rw [(tidy_iff.mp ht).1 hnil] at hlen
  exact List.eq_nil_of_length_eq_zero hlen

theorem Tidy.leaveCurrent (ht : t.Tidy) :
    ∀ a ∈ t.acts.modify t.current Node.deactivate, a.Tidy := by
  intro a ha
  have hacts := (tidy_iff.mp ht).2
  obtain ⟨i, hi⟩ := List.mem_iff_getElem?.mp ha
  rw [List.getElem?_modify, Option.map_eq_map, Option.map_eq_some_iff] at hi
  obtain ⟨c, hc, rfl⟩ := hi
  have htidy := hacts c (List.mem_of_getElem? hc)
  split
  · exact htidy.deactivate
  · exact htidy

theorem Tidy.moveTo {i : ℕ} (ht : t.Tidy) (h : t.moveTo i ok = some t') : t'.Tidy := by
  obtain ⟨a, a', b, ha, hact, rfl⟩ := moveTo_eq_some h
  have hleft := ht.leaveCurrent
  refine ht.withActs (by simp) fun c hc => ?_
  rcases List.mem_or_eq_of_mem_set hc with hc | rfl
  · exact hleft c hc
  · exact (hleft a (List.mem_of_getElem? ha)).activate hact

theorem Tidy.apply {op : Op} (ht : t.Tidy) (h : t.apply op = some t') : t'.Tidy := by
  cases op with
  | activate ok =>
      obtain ⟨r, hr, rfl⟩ := Option.map_eq_some_iff.mp h
      exact ht.activate hr
  | deactivate =>
      cases h
      exact ht.deactivate
  | next ok =>
      simp only [Node.apply] at h
      split at h
      · split at h
        · cases h
        split at h
        · exact ht.moveTo h
        · cases h
          exact ht.withActs (by simp) ht.leaveCurrent
      · cases h
        exact ht
  | jump i ok =>
      simp only [Node.apply] at h
      split at h
      · split at h
        · cases h
        · exact ht.moveTo h
      · cases h
        exact ht

/-- **One operation on some act of the tree.** -/
theorem Tidy.applyAt {op : Op} {a : List ℕ} (ht : t.Tidy) (h : t.applyAt op a = some t') :
    t'.Tidy := by
  induction a generalizing t t' with
  | nil => exact ht.apply h
  | cons i a ih =>
      simp only [Node.applyAt] at h
      split at h
      · cases h
      · next c hc =>
          obtain ⟨c', hc', rfl⟩ := Option.map_eq_some_iff.mp h
          have hacts := (tidy_iff.mp ht).2
          refine ht.withActs (by simp) fun d hd => ?_
          rcases List.mem_or_eq_of_mem_set hd with hd | rfl
          · exact hacts d hd
          · exact ih (hacts c (List.mem_of_getElem? hc)) hc'

/-- The trees that come of an act that was created. -/
theorem tidy_of_runSteps {e : Entry} {ls : List (List ℕ × Op)} (hc : e.create = some t)
    (h : runSteps step t ls = some t') : t'.Tidy := by
  obtain ⟨k, -, rfl⟩ := Option.map_eq_some_iff.mp hc
  exact runSteps_invariant (fun ht hstep => ht.applyAt hstep) (tidy_of_nil rfl) h

/-! ### What a failure leaves behind -/

/-- No act of the tree is active. -/
def Inactive (t : Node) : Prop := ∀ a c, t.get a = some c → c.active = false

/-- Nothing is loaded: the flow is null, or the factory does not know the type
of its first entry. -/
def LoadsNothing (t : Node) : Prop :=
  t.json.flowKey = .null ∨ ∃ e ∈ t.json.flow.head?, e.type = none

/-- The "flow" of an act that answered is there. -/
theorem flowKey_of_activate {c c' : Node} (hkind : c.kind ≠ .leaf) (hoff : c.active = false)
    (h : c.activate ok = some (c', b)) : c.json.flowKey ≠ .absent := by
  intro habs
  rw [activate_eq hkind hoff, if_pos habs] at h
  cases h

theorem loaded_eq_nil_iff (hkey : t.json.flowKey ≠ .absent) :
    t.loaded = [] ↔ t.LoadsNothing ∨ t.json.flow = [] := by
  unfold loaded LoadsNothing Entry.hasFlow
  rcases hf : t.json.flowKey with - | - | -
  · exact absurd hf hkey
  · simp
  · rcases t.json.flow with - | ⟨⟨type, n, f, fl⟩, es⟩
    · simp [loadActs]
    · rcases type with - | k
      · simp [loadActs, Entry.create, Entry.type]
      · simp [loadActs, Entry.create, Entry.type]

theorem active_of_failed {c c' : Node} (hkind : c.kind ≠ .leaf) (hoff : c.active = false)
    (hfail : c.activate ok = some (c', false)) : c'.active = false := by
  rcases activate_cases hkind hoff hfail with ⟨-, -, rfl⟩ | ⟨-, as', -, rfl⟩
  · rfl
  · rfl

/-- An act without acts whose flow is empty does not fail. -/
theorem not_failed_of_nil {c c' : Node} (hkind : c.kind ≠ .leaf) (hoff : c.active = false)
    (hacts : c.acts = []) (hload : c.loads = true) (hnil : c.loaded = [])
    (hfail : c.activate ok = some (c', false)) : False := by
  rcases activate_cases hkind hoff hfail with ⟨hno, -, -⟩ | ⟨-, as', hloop, -⟩
  · rw [hload] at hno
    cases hno
  · rw [hacts, hnil, List.nil_append, activateAll] at hloop
    cases hloop

/-- **A failed activation leaves nothing behind exactly if nothing was loaded**,
for every act of every tree that operations on its acts can make of a created
one, whichever leaves say no. -/
theorem failed_leaves_nothing_iff {e : Entry} {root c c' : Node} {ls : List (List ℕ × Op)}
    {a : List ℕ} (hc : e.create = some root) (hrun : runSteps step root ls = some t)
    (ha : t.get a = some c) (hkind : c.kind ≠ .leaf) (hoff : c.active = false)
    (hfail : c.activate ok = some (c', false)) :
    (c'.Inactive ∧ c'.acts = c.acts) ↔ c.LoadsNothing := by
  have htidy := tidy_of_runSteps hc hrun
  have hkey := flowKey_of_activate hkind hoff hfail
  have hjson := map_json_activate hkind hoff hfail
  constructor
  · rintro ⟨-, hsame⟩
    have hnil : c.loaded = [] := by
      rw [hsame] at hjson
      simpa using hjson
    rcases (loaded_eq_nil_iff hkey).mp hnil with h | hempty
    · exact h
    · by_contra hsome
      have hload : c.loads = true := by
        have hnull : c.json.flowKey ≠ .null := fun hnull => hsome (.inl hnull)
        have harray : c.json.flowKey = .array := by
          rcases hf : c.json.flowKey with - | - | -
          · exact absurd hf hkey
          · exact absurd hf hnull
          · rfl
        rw [loads, Entry.hasFlow, hempty, harray]
        rfl
      exact not_failed_of_nil hkind hoff (htidy a c ha hnil) hload hnil hfail
  · intro h
    have hnil : c.loaded = [] := (loaded_eq_nil_iff hkey).mpr (.inl h)
    have hacts : c.acts = [] := htidy a c ha hnil
    have hacts' : c'.acts = [] := by
      rw [hacts, hnil] at hjson
      exact List.map_eq_nil_iff.mp hjson
    refine ⟨fun b d hd => ?_, hacts'.trans hacts.symm⟩
    cases b with
    | nil =>
        obtain rfl := Option.some.inj hd
        exact active_of_failed hkind hoff hfail
    | cons i b =>
        rw [get, hacts'] at hd
        cases hd

/-- An act_parallel of a leaf and an act_serial whose flow begins with an
unknown type. -/
def unknownInside : Entry :=
  .mk (some .parallel) ['p'] .array
    [.mk (some .leaf) ['a'] .absent [],
      .mk (some .serial) ['s'] .array
        [.mk none ['x'] .absent [], .mk (some .leaf) ['b'] .absent []]]

/-- The act_parallel is activated, which fails; then its act_serial is. -/
theorem failed_leaves_nothing_unknown : ∃ root t c c',
    unknownInside.create = some root ∧
    runSteps step root [([], .activate allYes)] = some t ∧ t.get [1] = some c ∧
    c.activate allYes = some (c', false) ∧ c'.Inactive ∧ c'.acts = c.acts := by
  refine ⟨_, _, _, _, rfl, rfl, rfl, rfl, ?_⟩
  have hiff := failed_leaves_nothing_iff (e := unknownInside) (a := [1]) rfl
    (rfl : runSteps step _ [([], .activate allYes)] = some _) rfl (by decide) rfl
    (rfl : activate _ allYes = some (_, false))
  exact hiff.mpr (.inr ⟨_, rfl, rfl⟩)

/-- The first leaf of an act_parallel says yes and the second one says no. -/
def secondSaysNo : Outcomes := fun a => a == [0]

/-- Both stay, and the first stays active. -/
theorem secondSaysNo_left_behind : ∃ root c',
    (Entry.mk (some .parallel) ['p'] .array
      [.mk (some .leaf) ['a'] .absent [], .mk (some .leaf) ['b'] .absent []]).create = some root ∧
    root.activate secondSaysNo = some (c', false) ∧ root.acts = [] ∧ c'.acts.length = 2 ∧
    (c'.get [0]).map active = some true ∧ ¬ (c'.Inactive ∧ c'.acts = root.acts) := by
  refine ⟨_, _, rfl, rfl, rfl, rfl, rfl, ?_⟩
  rintro ⟨hoff, -⟩
  have := hoff [0] _ rfl
  cases this

end Node

end Play
