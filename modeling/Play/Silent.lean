/-
Play/Silent.lean

Callbacks of a pulse that has been stopped.

`dispatch` copies the callbacks that a frame is meant for into handlers and
posts them to the runner; nothing ties a posted handler to the pulse it came
from, and `stop` does not look at the queue.  A `Bus` is a tree of pulses
with the queue of the runner and the pulses on which `stop` has returned.
The runner takes any handler, except that handlers of one strand run in the
order in which they were posted.

A `call` makes its two subscriptions with `subscribe`, so its internal
handlers are callbacks like any others.

A pulse can be heard after its `stop` in four ways: a handler was posted
before, the root still lists it (it is no child of the root, or its first
`stop` threw before it could unbind), something is published on it, or it
subscribes again.  `Orderly` excludes the four, and `silent_of_orderly` says
that there is no other.
-/
import Play.Dispatch

namespace Play

/-- The pulses of a tree, the handlers posted to the runner, the pulses on
which `stop` has returned, and whether a callback has run after that. -/
structure Bus (T C F : Type) where
  forest : Forest T C
  queue : List (Posted C F) := []
  returned : Finset PulseId := ∅
  late : Bool := false

namespace Bus

variable {T C F : Type} [DecidableEq T]

/-- A call on the pulses.  Other than in `Forest.step`, a pulse may be
stopped with children bound, which throws, and may subscribe after a stop. -/
def call (f : Forest T C) : Forest.Step T C → Option (Outcome (Forest T C))
  | .subscribe p pic cb => if p ∈ f.ids then some (.done (f.subscribe p pic cb)) else none
  | .stop p => if p ∈ f.ids then some (f.stop p) else none
  | l => (f.step l).map .done

/-- One step of the pulses and the runner. -/
inductive Step (T C F : Type)
  | call (l : Forest.Step T C)
  /-- `publish`, `on_receive`, `on_established` or `on_closed` on a pulse. -/
  | dispatch (p : PulseId) (se : SessionKey) (pic : T) (frame : F)
  /-- The runner executes the handler at this place of the queue. -/
  | run (i : ℕ)

/-- The bus after a call: `stop` may have returned. -/
def afterCall (s : Bus T C F) (l : Forest.Step T C) (o : Outcome (Forest T C)) : Bus T C F :=
  match l, o with
  | .stop p, .done f => { s with forest := f, returned := insert p s.returned }
  | _, o => { s with forest := o.state }

/-- The step function; handlers of one strand keep their order. -/
def step (s : Bus T C F) : Step T C F → Option (Bus T C F)
  | .call l => (call s.forest l).map (s.afterCall l)
  | .dispatch p se pic frame =>
      if p ∈ s.forest.ids then
        some { s with queue := s.queue ++ s.forest.dispatchLoop pic frame 2 p se false }
      else none
  | .run i =>
      match s.queue[i]? with
      | none => none
      | some q =>
          if (s.queue.take i).all fun q' => q.strandKey == 0 || q'.strandKey != q.strandKey then
            some { s with
              queue := s.queue.eraseIdx i
              late := s.late || decide (q.holder ∈ s.returned) }
          else none

/-- A tree of one pulse, before anything happens. -/
def new (root : PulseId) : Bus T C F := { forest := Forest.new root }

/-- No callback has run after `stop` returned on its pulse. -/
def Silent (s : Bus T C F) : Prop := s.late = false

/-- What is asked of `stop`: it has returned before, or it throws, or no
handler of the pulse is queued and the root does not list the pulse once it
is unbound. -/
def StopsQuiet (s : Bus T C F) (p : PulseId) : Prop :=
  p ∈ s.returned ∨
    ((s.forest.pulse p).stopped = false ∧ (s.forest.pulse p).childs.Nonempty) ∨
    (∀ q ∈ s.queue, q.holder ≠ p) ∧
      ((s.forest.pulse p).parent = none ∨ (s.forest.pulse p).selfInterests = ∅ ∨
        (s.forest.pulse p).stopped = false ∧ (s.forest.pulse p).parent = some s.forest.root)

/-- A step that cannot make a stopped pulse heard. -/
def Orderly (s : Bus T C F) : Step T C F → Prop
  | .call (.stop p) => s.StopsQuiet p
  | .call (.subscribe p _ _) => p ∉ s.returned ∨ p = s.forest.root
  | .dispatch p se pic _ => p ∈ s.returned →
      ∀ sub ∈ (s.forest.pulse p).subscriptions pic,
        Forest.isTarget sub.sessionKey se false = false
  | _ => True

instance (s : Bus T C F) (p : PulseId) : Decidable (s.StopsQuiet p) := by
  delta StopsQuiet
  infer_instance

instance (s : Bus T C F) : (l : Step T C F) → Decidable (s.Orderly l)
  | .call (.stop p) => inferInstanceAs (Decidable (s.StopsQuiet p))
  | .call (.subscribe p _ _) => inferInstanceAs (Decidable (p ∉ s.returned ∨ p = s.forest.root))
  | .dispatch p se pic _ => inferInstanceAs (Decidable (p ∈ s.returned →
      ∀ sub ∈ (s.forest.pulse p).subscriptions pic,
        Forest.isTarget sub.sessionKey se false = false))
  | .call (.asChild _ _) | .call (.withSession _ _) | .call (.withStrand _ _)
  | .call (.markFinal _) | .run _ => isTrue trivial

/-! ### Who is called by a dispatch -/

variable {f f' : Forest T C} {s s' : Bus T C F} {p : PulseId}

omit [DecidableEq T] in
/-- A handler that a dispatch posts is of the pulse itself, under a
subscription that matches, or of a pulse that it lists. -/
theorem holder_of_dispatch {se : SessionKey} {pic : T} {frame : F} {q : Posted C F}
    (hq : q ∈ f.dispatchLoop pic frame 2 p se false) :
    (q.holder = p ∧ ∃ sub ∈ (f.pulse p).subscriptions pic,
        Forest.isTarget sub.sessionKey se false = true) ∨
      f.isRoot p = true ∧ ∃ key, q.holder ∈ (f.pulse p).interests (key, pic) := by
  have hself : ∀ c key b, q ∈ f.dispatchSelf c key pic frame b → q.holder = c := by
    intro c key b h
    obtain ⟨sub, -, rfl⟩ := List.mem_map.mp h
    rfl
  -- one level down, a pulse only posts its own
  have hchild : ∀ c key, q ∈ f.dispatchLoop pic frame 1 c key true → q.holder = c := by
    intro c key h
    simp only [Forest.dispatchLoop, List.flatMap_eq_nil_iff.mpr fun _ _ => rfl,
      ite_self, List.append_nil] at h
    exact hself c key true h
  rw [Forest.dispatchLoop] at hq
  rcases List.mem_append.mp hq with hq | hq
  · obtain ⟨sub, hsub, rfl⟩ := List.mem_map.mp hq
    obtain ⟨hmem, ht⟩ := List.mem_filter.mp hsub
    exact .inl ⟨rfl, sub, hmem, ht⟩
  · split at hq
    · next hroot =>
        refine .inr ⟨hroot, ?_⟩
        rcases List.mem_append.mp hq with hq | hq
        · obtain ⟨c, hc, hq⟩ := List.mem_flatMap.mp hq
          rw [hchild c 0 hq]
          exact ⟨0, (Finset.mem_sort _).mp hc⟩
        · split at hq
          · obtain ⟨c, hc, hq⟩ := List.mem_flatMap.mp hq
            rw [hchild c se hq]
            exact ⟨se, (Finset.mem_sort _).mp hc⟩
          · cases hq
    · cases hq

/-! ### What the root lists -/

/-- The tree is a tree, and a pulse that the root lists is another one that
has kept its interest. -/
structure Kept (f : Forest T C) : Prop where
  tree : f.Tree
  listed : ∀ {c se pic}, f.Listed c se pic →
    c ∈ f.ids ∧ c ≠ f.root ∧ (se, pic) ∈ (f.pulse c).selfInterests

omit [DecidableEq T] in
/-- A call that leaves the interests alone. -/
theorem Kept.of_same (hk : Kept f) (htree : f'.Tree) (hroot : f'.root = f.root)
    (hids : ∀ c ∈ f.ids, c ∈ f'.ids)
    (hlisted : ∀ {c se pic}, f'.Listed c se pic → f.Listed c se pic)
    (hself : ∀ c, (f'.pulse c).selfInterests = (f.pulse c).selfInterests) : Kept f' := by
  refine ⟨htree, fun hl => ?_⟩
  obtain ⟨hc, hne, hkept⟩ := hk.listed (hlisted hl)
  exact ⟨hids _ hc, hroot ▸ hne, hself _ ▸ hkept⟩

omit [DecidableEq T] in
theorem kept_modify (hk : Kept f) (hp : p ∈ f.ids) {g : Pulse T C → Pulse T C}
    (hparent : ∀ o, (g o).parent = o.parent)
    (hself : ∀ o, (g o).selfInterests = o.selfInterests)
    (hints : ∀ o, (g o).interests = o.interests) :
    Kept (f.modify p g) ∧ ∀ c se pic, (f.modify p g).Listed c se pic → f.Listed c se pic := by
  have hlisted : ∀ c se pic, (f.modify p g).Listed c se pic → f.Listed c se pic := by
    intro c se pic hl
    rw [Forest.Listed, Forest.root_modify, f.modify_same p g Pulse.interests hints] at hl
    exact hl
  exact ⟨hk.of_same (hk.tree.modify hp hparent) rfl (fun _ => id) (hlisted _ _ _)
    (f.modify_same p g Pulse.selfInterests hself), hlisted⟩

omit [DecidableEq T] in
theorem kept_attach (hk : Kept f) {child parent : PulseId} (hchild : child ∉ f.ids)
    (hparent : parent ∈ f.ids) :
    Kept (f.attach child parent) ∧
      ∀ c se pic, (f.attach child parent).Listed c se pic → f.Listed c se pic := by
  have hlisted : ∀ c se pic, (f.attach child parent).Listed c se pic → f.Listed c se pic := by
    intro c se pic hl
    rw [Forest.Listed] at hl
    rw [f.attach_same child parent Pulse.interests fun _ => rfl] at hl
    exact hl
  exact ⟨hk.of_same (hk.tree.attach hchild hparent) rfl (fun c hc => List.mem_append_left _ hc)
    (hlisted _ _ _) (f.attach_same child parent Pulse.selfInterests fun _ => rfl), hlisted⟩

/-- A pulse keeps an interest, and the root lists the pulse under it. -/
theorem kept_showInterest (hk : Kept f) (hp : p ∈ f.ids) (hne : p ≠ f.root)
    (key : SessionKey × T) :
    Kept ((f.modify p (Pulse.keepInterest key)).showInterest f.root p key.1 key.2) ∧
      ∀ c se t,
        ((f.modify p (Pulse.keepInterest key)).showInterest f.root p key.1 key.2).Listed c se t →
          f.Listed c se t ∨ c = p := by
  set f' := (f.modify p (Pulse.keepInterest key)).showInterest f.root p key.1 key.2
  have hf' : f' = (f.modify p (Pulse.keepInterest key)).modify f.root
      (Pulse.insertInterest p key) := rfl
  have hself : ∀ c, (f'.pulse c).selfInterests =
      ((f.modify p (Pulse.keepInterest key)).pulse c).selfInterests :=
    Forest.modify_same _ f.root (Pulse.insertInterest p key) Pulse.selfInterests fun _ => rfl
  have hlisted : ∀ c se t, f'.Listed c se t → f.Listed c se t ∨ c = p ∧ (se, t) = key := by
    intro c se t hl
    rw [hf', Forest.Listed, Forest.root_modify, Forest.root_modify, Forest.pulse_modify_self,
      Pulse.mem_insertInterest,
      Forest.modify_same f p (Pulse.keepInterest key) Pulse.interests fun _ => rfl] at hl
    exact hl
  have htree : f'.Tree := by
    have hkeep : (f.modify p (Pulse.keepInterest key)).Tree := hk.tree.modify hp fun _ => rfl
    exact hkeep.modify hk.tree.root_mem fun _ => rfl
  refine ⟨⟨htree, ?_⟩, fun c se t hl => (hlisted c se t hl).imp_right And.left⟩
  intro c se t hl
  rw [hself]
  rcases hlisted c se t hl with hl | ⟨rfl, hkey⟩
  · obtain ⟨hc, hroot, hkept⟩ := hk.listed hl
    refine ⟨hc, hroot, ?_⟩
    by_cases hcp : c = p
    · subst hcp
      rw [Forest.pulse_modify_self]
      exact Pulse.mem_keepInterest.mpr (.inl hkept)
    · rwa [Forest.pulse_modify_of_ne f p _ hcp]
  · refine ⟨hp, hne, ?_⟩
    rw [Forest.pulse_modify_self, hkey]
    exact Finset.mem_insert_self _ _

/-- A subscription lists the pulse, unless it is the root, and nobody else. -/
theorem kept_subscribe (hk : Kept f) (hp : p ∈ f.ids) (pic : T) (cb : C) :
    Kept (f.subscribe p pic cb) ∧ (f.subscribe p pic cb).root = f.root ∧
      ∀ c se t, (f.subscribe p pic cb).Listed c se t →
        f.Listed c se t ∨ c = p ∧ c ≠ f.root := by
  rw [Forest.subscribe_eq hk.tree hp]
  dsimp only
  obtain ⟨hk₁, hlisted₁⟩ := kept_modify (g := Pulse.pushSubscription pic ⟨(f.pulse p).session, cb⟩)
    hk hp (fun _ => rfl) (fun _ => rfl) fun _ => rfl
  split
  · exact ⟨hk₁, rfl, fun c se t hl => .inl (hlisted₁ c se t hl)⟩
  · next hroot =>
      obtain ⟨hk₂, hlisted₂⟩ := kept_showInterest hk₁ hp hroot ((f.pulse p).session, pic)
      refine ⟨hk₂, rfl, fun c se t hl => ?_⟩
      rcases hlisted₂ c se t hl with hl | rfl
      · exact .inl (hlisted₁ c se t hl)
      · exact .inr ⟨rfl, hroot⟩

/-- The root takes back the interests that a pulse has kept, and lists it no
more. -/
theorem kept_loseInterests (hk : Kept f) {keys : Finset (SessionKey × T)}
    (hkeys : (f.pulse p).selfInterests = keys) :
    Kept (f.modify f.root (Pulse.loseInterests p keys)) ∧
      ∀ c se pic, (f.modify f.root (Pulse.loseInterests p keys)).Listed c se pic →
        f.Listed c se pic ∧ c ≠ p := by
  have hlisted : ∀ c se pic, (f.modify f.root (Pulse.loseInterests p keys)).Listed c se pic →
      f.Listed c se pic ∧ ¬ (c = p ∧ (se, pic) ∈ keys) := by
    intro c se pic hl
    rw [Forest.Listed, Forest.root_modify, Forest.pulse_modify_self,
      Pulse.mem_loseInterests] at hl
    exact hl
  have hself := f.modify_same f.root (Pulse.loseInterests p keys) Pulse.selfInterests fun _ => rfl
  refine ⟨hk.of_same (hk.tree.modify hk.tree.root_mem fun _ => rfl) rfl (fun _ => id)
    (fun hl => (hlisted _ _ _ hl).1) hself, fun c se pic hl => ?_⟩
  obtain ⟨hl', hno⟩ := hlisted c se pic hl
  refine ⟨hl', ?_⟩
  rintro rfl
  -- what the root listed for the pulse is among what it kept
  exact hno ⟨rfl, hkeys ▸ (hk.listed hl').2.2⟩

/-- How `stop` leaves the tree, returned or thrown: nobody is listed who was
not, and a child of the root that stops now is not listed any more. -/
theorem kept_stop (hk : Kept f) (hp : p ∈ f.ids) :
    Kept (f.stop p).state ∧ (f.stop p).state.root = f.root ∧
      ∀ c se pic, (f.stop p).state.Listed c se pic → f.Listed c se pic ∧
        ¬ (c = p ∧ (f.pulse p).stopped = false ∧ (f.pulse p).childs = ∅ ∧
          (f.pulse p).parent = some f.root) := by
  obtain ⟨hk₁, hlisted₁⟩ := kept_modify (g := Pulse.setStopped) hk hp
    (fun _ => rfl) (fun _ => rfl) fun _ => rfl
  by_cases hstop : (f.pulse p).stopped = true
  · rw [Forest.stop_of_stopped hstop]
    exact ⟨hk, rfl, fun c se pic hl => ⟨hl, fun h => by simp [hstop] at h⟩⟩
  have hrun : (f.pulse p).stopped = false := by simpa using hstop
  by_cases hch : (f.pulse p).childs.Nonempty
  · rw [Forest.stop_of_bound hrun hch]
    refine ⟨hk₁, rfl, fun c se pic hl => ⟨hlisted₁ c se pic hl, ?_⟩⟩
    rintro ⟨-, -, hnone, -⟩
    exact hch.ne_empty hnone
  · have hnone : (f.pulse p).childs = ∅ := Finset.not_nonempty_iff_eq_empty.mp hch
    rcases Forest.stop_cases hk.tree hp hnone hrun with ⟨hpar, hs⟩ |
      ⟨q, hq, hpar, lose, hs, hlose⟩ <;> rw [hs]
    · refine ⟨hk₁, rfl, fun c se pic hl => ⟨hlisted₁ c se pic hl, ?_⟩⟩
      rintro ⟨-, -, -, h⟩
      rw [hpar] at h
      cases h
    · obtain ⟨hk₂, hlisted₂⟩ := kept_modify (g := Pulse.eraseChild p) hk₁ hq
        (fun _ => rfl) (fun _ => rfl) fun _ => rfl
      rcases hlose with ⟨rfl, rfl⟩ | ⟨hroot, rfl⟩
      · have hself : (((f.modify p Pulse.setStopped).modify f.root (Pulse.eraseChild p)).pulse
            p).selfInterests = (f.pulse p).selfInterests := by
          rw [Forest.modify_same _ f.root (Pulse.eraseChild p) Pulse.selfInterests fun _ => rfl,
            Forest.modify_same f p Pulse.setStopped Pulse.selfInterests fun _ => rfl]
        obtain ⟨hk₃, hlisted₃⟩ := kept_loseInterests hk₂ hself
        refine ⟨hk₃, rfl, fun c se pic hl => ?_⟩
        obtain ⟨hl, hne⟩ := hlisted₃ c se pic hl
        exact ⟨hlisted₁ c se pic (hlisted₂ c se pic hl), fun h => hne h.1⟩
      · obtain ⟨hk₃, hlisted₃⟩ := kept_modify (g := id) hk₂ hq
          (fun _ => rfl) (fun _ => rfl) fun _ => rfl
        refine ⟨hk₃, rfl, fun c se pic hl => ⟨?_, ?_⟩⟩
        · exact hlisted₁ c se pic (hlisted₂ c se pic (hlisted₃ c se pic hl))
        · rintro ⟨-, -, -, h⟩
          exact hroot (Option.some.inj (hpar.symm.trans h))

/-- What a call on the pulses leaves. -/
theorem kept_call (hk : Kept f) {l : Forest.Step T C} {o : Outcome (Forest T C)}
    (hc : call f l = some o) :
    Kept o.state ∧ o.state.root = f.root ∧ ∀ c se pic, o.state.Listed c se pic →
      f.Listed c se pic ∨ c ≠ f.root ∧ ∃ t cb, l = .subscribe c t cb := by
  have hsame : ∀ {f' : Forest T C}, (Kept f' ∧ ∀ c se pic, f'.Listed c se pic → f.Listed c se pic) →
      f'.root = f.root → Kept f' ∧ f'.root = f.root ∧ ∀ c se pic, f'.Listed c se pic →
        f.Listed c se pic ∨ c ≠ f.root ∧ ∃ t cb, l = .subscribe c t cb :=
    fun h hroot => ⟨h.1, hroot, fun c se pic hl => .inl (h.2 c se pic hl)⟩
  cases l with
  | asChild child parent =>
      simp only [call, Forest.step, Option.map_eq_some_iff, Option.ite_none_right_eq_some,
        Option.some.injEq] at hc
      obtain ⟨f', ⟨⟨hchild, hparent, hfinal⟩, rfl⟩, rfl⟩ := hc
      rw [Outcome.state_done, Forest.asChild_eq hchild hparent hfinal]
      obtain ⟨hk₁, hlisted₁⟩ := kept_attach hk hchild hparent
      obtain ⟨hk₂, hlisted₂⟩ := kept_modify
        (g := fun o => { o with childs := insert child o.childs }) hk₁
        (List.mem_append_left _ hparent) (fun _ => rfl) (fun _ => rfl) fun _ => rfl
      exact hsame ⟨hk₂, fun c se pic hl => hlisted₁ c se pic (hlisted₂ c se pic hl)⟩ rfl
  | withSession p _ | withStrand p _ | markFinal p =>
      simp only [call, Forest.step, Option.map_eq_some_iff, Option.ite_none_right_eq_some,
        Option.some.injEq] at hc
      obtain ⟨f', ⟨hp, rfl⟩, rfl⟩ := hc
      rw [Outcome.state_done]
      refine hsame (kept_modify hk hp ?_ ?_ ?_) rfl <;> exact fun _ => rfl
  | subscribe p pic cb =>
      simp only [call, Option.ite_none_right_eq_some, Option.some.injEq] at hc
      obtain ⟨hp, rfl⟩ := hc
      obtain ⟨hk₁, hroot, hlisted⟩ := kept_subscribe hk hp pic cb
      refine ⟨hk₁, hroot, fun c se t hl => (hlisted c se t hl).imp_right ?_⟩
      rintro ⟨rfl, hne⟩
      exact ⟨hne, pic, cb, rfl⟩
  | stop p =>
      simp only [call, Option.ite_none_right_eq_some, Option.some.injEq] at hc
      obtain ⟨hp, rfl⟩ := hc
      obtain ⟨hk₁, hroot, hlisted⟩ := kept_stop hk hp
      exact ⟨hk₁, hroot, fun c se pic hl => .inl (hlisted c se pic hl).1⟩

/-- A `stop` that returns and was asked for quietly leaves the pulse off the
root's lists. -/
theorem not_listed_stop (hk : Kept f) (hp : p ∈ f.ids) (hdone : f.stop p = .done f')
    (hquiet : (f.pulse p).parent = none ∨ (f.pulse p).selfInterests = ∅ ∨
      (f.pulse p).stopped = false ∧ (f.pulse p).parent = some f.root)
    (se : SessionKey) (pic : T) : ¬ f'.Listed p se pic := by
  intro hl
  obtain ⟨-, -, hlisted⟩ := kept_stop hk hp
  rw [hdone, Outcome.state_done] at hlisted
  obtain ⟨hl, hno⟩ := hlisted p se pic hl
  obtain ⟨-, hne, hkept⟩ := hk.listed hl
  rcases hquiet with hpar | hself | ⟨hrun, hpar⟩
  · obtain ⟨q, -, hq⟩ := hk.tree.parent_mem hp hne
    rw [hpar] at hq
    cases hq
  · rw [hself] at hkept
    exact absurd hkept (Finset.notMem_empty _)
  · refine hno ⟨rfl, hrun, ?_, hpar⟩
    -- with children bound it would have thrown
    by_contra hch
    rw [Forest.stop_of_bound hrun (Finset.nonempty_iff_ne_empty.mpr hch)] at hdone
    cases hdone

/-! ### Runs -/

/-- Nothing can be heard of a pulse on which `stop` has returned. -/
structure QuietInv (s : Bus T C F) : Prop where
  kept : Kept s.forest
  queue : ∀ q ∈ s.queue, q.holder ∉ s.returned
  unlisted : ∀ p ∈ s.returned, ∀ se pic, ¬ s.forest.Listed p se pic
  silent : s.Silent

omit [DecidableEq T] in
theorem quietInv_new (root : PulseId) : QuietInv (new root : Bus T C F) where
  kept := by
    refine ⟨Forest.tree_new root, ?_⟩
    intro c se pic hl
    simp [new, Forest.new, Forest.Listed] at hl
  queue q hq := by cases hq
  unlisted p hp := absurd hp (Finset.notMem_empty p)
  silent := rfl

omit [DecidableEq T] in
/-- A call other than a `stop` that returns. -/
theorem QuietInv.set_forest (hs : QuietInv s) (hk : Kept f)
    (hlisted : ∀ p ∈ s.returned, ∀ se pic, f.Listed p se pic → s.forest.Listed p se pic) :
    QuietInv { s with forest := f } :=
  ⟨hk, hs.queue, fun p hp se pic hl => hs.unlisted p hp se pic (hlisted p hp se pic hl), hs.silent⟩

theorem QuietInv.call (hs : QuietInv s) {l : Forest.Step T C} (hG : s.Orderly (.call l))
    {o : Outcome (Forest T C)} (hc : call s.forest l = some o) : QuietInv (s.afterCall l o) := by
  obtain ⟨hk, hroot, hlisted⟩ := kept_call hs.kept hc
  have hother : QuietInv { s with forest := o.state } := by
    refine hs.set_forest hk fun p hp se pic hl => ?_
    rcases hlisted p se pic hl with hl | ⟨hne, t, cb, rfl⟩
    · exact hl
    · rcases hG with hG | hG
      · exact absurd hp hG
      · exact absurd hG hne
  cases l with
  | stop p =>
      rcases o with f | f
      · show QuietInv { s with forest := f, returned := insert p s.returned }
        simp only [Bus.call, Option.ite_none_right_eq_some, Option.some.injEq] at hc
        obtain ⟨hp, hstop⟩ := hc
        have hold : ∀ c se pic, f.Listed c se pic → s.forest.Listed c se pic := by
          intro c se pic hl
          rcases hlisted c se pic hl with hl | ⟨-, t, cb, h⟩
          · exact hl
          · cases h
        -- the pulse was quiet before, or is now
        have hquiet : (∀ q ∈ s.queue, q.holder ≠ p) ∧ ∀ se pic, ¬ f.Listed p se pic := by
          rcases hG with hret | ⟨hrun, hch⟩ | ⟨hqueue, hwhy⟩
          · refine ⟨fun q hq e => hs.queue q hq (e ▸ hret), fun se pic hl => ?_⟩
            exact hs.unlisted p hret se pic (hold p se pic hl)
          · exfalso
            have hset : ((s.forest.modify p Pulse.setStopped).pulse p).childs.Nonempty := by
              simpa [Pulse.setStopped] using hch
            rw [Forest.stop, if_neg (by simp [hrun])] at hstop
            dsimp only at hstop
            rw [if_pos hset] at hstop
            cases hstop
          · exact ⟨hqueue, not_listed_stop hs.kept hp hstop hwhy⟩
        refine ⟨hk, fun q hq hmem => ?_, fun c hc se pic hl => ?_, hs.silent⟩
        · rcases Finset.mem_insert.mp hmem with e | hmem
          · exact hquiet.1 q hq e
          · exact hs.queue q hq hmem
        · rcases Finset.mem_insert.mp hc with rfl | hc
          · exact hquiet.2 se pic hl
          · exact hs.unlisted c hc se pic (hold c se pic hl)
      · exact hother
  | asChild child parent => exact hother
  | withSession p ss => exact hother
  | withStrand p key => exact hother
  | markFinal p => exact hother
  | subscribe p pic cb => exact hother

/-- **One orderly step keeps the stopped pulses quiet.** -/
theorem QuietInv.step {l : Step T C F} (hs : QuietInv s) (hG : s.Orderly l)
    (hstep : s.step l = some s') : QuietInv s' := by
  cases l with
  | call l =>
      obtain ⟨o, ho, rfl⟩ := Option.map_eq_some_iff.mp hstep
      exact hs.call hG ho
  | dispatch p se pic frame =>
      simp only [Bus.step, Option.ite_none_right_eq_some, Option.some.injEq] at hstep
      obtain ⟨hp, rfl⟩ := hstep
      refine ⟨hs.kept, fun q hq => ?_, hs.unlisted, hs.silent⟩
      rcases List.mem_append.mp hq with hq | hq
      · exact hs.queue q hq
      · rcases holder_of_dispatch hq with ⟨rfl, sub, hsub, ht⟩ | ⟨hroot, key, hmem⟩
        · intro hret
          rw [hG hret sub hsub] at ht
          cases ht
        · intro hret
          obtain rfl := (hs.kept.tree.isRoot_iff hp).mp hroot
          exact hs.unlisted q.holder hret key pic hmem
  | run i =>
      simp only [Bus.step] at hstep
      split at hstep
      · cases hstep
      · next q hq =>
          simp only [Option.ite_none_right_eq_some, Option.some.injEq] at hstep
          obtain ⟨-, rfl⟩ := hstep
          have hmem : q ∈ s.queue := List.mem_of_getElem? hq
          refine ⟨hs.kept, fun q' hq' => ?_, hs.unlisted, ?_⟩
          · exact hs.queue q' (List.mem_of_mem_eraseIdx hq')
          · show (s.late || decide (q.holder ∈ s.returned)) = false
            rw [show s.late = false from hs.silent]
            simpa using hs.queue q hmem

/-- **A stopped pulse is silent in every orderly run**, whatever is
dispatched, called and executed in whatever order. -/
theorem silent_of_orderly (root : PulseId) {ls : List (Step T C F)}
    (hG : Along step Orderly (new root) ls) : Always step Silent (new root) ls := by
  intro pre s hpre hrun
  exact ((hG.of_prefix hpre).invariant QuietInv.step (quietInv_new root) hrun).silent

/-- A child of the root subscribes, hears a frame, is stopped, and the frame
is published again. -/
def stoppedInOrder : List (Step ℕ ℕ Unit) :=
  [.call (.asChild 2 1), .call (.subscribe 2 11 0), .dispatch 1 0 11 (), .run 0, .call (.stop 2),
    .dispatch 1 0 11 ()]

theorem silent_stoppedInOrder : Always step Silent (new 1) stoppedInOrder :=
  silent_of_orderly 1 (by decide +kernel)

/-- The handler is posted, the pulse stopped, and the handler executed. -/
def stoppedTooLate : List (Step ℕ ℕ Unit) :=
  [.call (.asChild 2 1), .call (.subscribe 2 11 0), .dispatch 1 0 11 (), .call (.stop 2), .run 0]

/-- `stop` has returned, and the callback runs all the same. -/
theorem stoppedTooLate_heard :
    ∃ s : Bus ℕ ℕ Unit, runSteps step (new 1) stoppedTooLate = some s ∧ 2 ∈ s.returned ∧
      ¬ s.Silent := by
  have hrun : (runSteps step (new 1 : Bus ℕ ℕ Unit) stoppedTooLate).map
      (fun s => (decide (2 ∈ s.returned), s.late)) = some (true, true) := by decide +kernel
  obtain ⟨s, hs, h⟩ := Option.map_eq_some_iff.mp hrun
  obtain ⟨hret, hlate⟩ := Prod.mk.inj h
  refine ⟨s, hs, of_decide_eq_true hret, fun hsilent => ?_⟩
  rw [Silent, hlate] at hsilent
  cases hsilent

end Bus

end Play
