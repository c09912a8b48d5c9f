/-
Play/Retry.lean

A `stop` that was refused.

`pulse::stop` returns at once if `stop_` is set.  Otherwise it sets it, throws
if children are bound, and only then does what the mode asks for: it stops the
server, closes the client or leaves the parent.  A `stop` that throws has set
the flag, so the next one, with the children gone, takes the early return, and
so does the one in the destructor.

`Pulses` adds to a forest what the modes need.  No `stop` that is refused can
be retried (`retriable_iff`).  Worse, the pulse stays in the table of its
parent for good, so that no pulse above it, up to the root with the server, is
ever shut down (`refused_stop_blocks`).
-/
import Play.Silent

namespace Play

/-- `pulse::mode`. -/
inductive Mode
  | none
  | server
  | client
  | child
  | independent
  deriving DecidableEq

/-- The pulses with their modes, those whose server runs and those whose
client has not been closed. -/
structure Pulses (T C : Type) where
  forest : Forest T C
  mode : PulseId → Mode
  servers : Finset PulseId
  clients : Finset PulseId

/-- A pulse and the pulses above it along the parents, `k` at most. -/
def Forest.upward {T C : Type} (f : Forest T C) : ℕ → PulseId → List PulseId
  | 0, _ => []
  | k + 1, p => p :: (f.pulse p).parent.elim [] (f.upward k)

namespace Pulses

variable {T C : Type} [DecidableEq T]

/-- A root that was started in a mode. -/
def new (root : PulseId) (mode : Mode) : Pulses T C where
  forest := .new root
  mode := Function.update (fun _ => .none) root mode
  servers := if mode = .server then {root} else ∅
  clients := if mode = .client then {root} else ∅

/-- A change of the forest only. -/
def onForest (g : Pulses T C) (h : Forest T C → Forest T C) : Pulses T C :=
  { g with forest := h g.forest }

/-- `pulse::as_child`; the mode and the parent are set before a final parent
throws. -/
def asChild (g : Pulses T C) (child parent : PulseId) : Pulses T C :=
  { g with
    forest := (g.forest.asChild child parent).state
    mode := Function.update g.mode child .child }

/-- `stop_ = true`. -/
def mark (g : Pulses T C) (p : PulseId) : Pulses T C :=
  g.onForest fun f => f.modify p Pulse.setStopped

/-- The switch on the mode at the end of `pulse::stop`. -/
def shutDown (g : Pulses T C) (p : PulseId) : Pulses T C :=
  match g.mode p with
  | .server => { g with servers := g.servers.erase p }
  | .client => { g with clients := g.clients.erase p }
  -- `as_child` sets the parent with the mode
  | .child => (g.forest.pulse p).parent.elim g fun parent =>
      g.onForest fun f => f.unbindChild parent p
  | .independent => g
  -- the error is logged
  | .none => g

/-- `pulse::stop`. -/
def stop (g : Pulses T C) (p : PulseId) : Outcome (Pulses T C) :=
  if (g.forest.pulse p).stopped then .done g
  else
    -- the flag is set before the check can throw
    let g := g.mark p
    if (g.forest.pulse p).childs.Nonempty then .threw g
    else .done (g.shutDown p)

/-- The step function.  A pulse may be attached again, to any pulse that is not
below it; it may subscribe and be given children after a stop, and it may be
stopped with children bound. -/
def step (g : Pulses T C) : Forest.Step T C → Option (Pulses T C)
  | .asChild child parent =>
      if parent ∈ g.forest.ids ∧ child ∉ g.forest.upward g.forest.ids.length parent then
        some (g.asChild child parent)
      else none
  | .withSession p ss =>
      if p ∈ g.forest.ids then
        some (g.onForest fun f => f.modify p fun o => { o with session := ss })
      else none
  | .withStrand p key =>
      if p ∈ g.forest.ids then
        some (g.onForest fun f => f.modify p fun o => { o with strandKey := key })
      else none
  | .markFinal p =>
      if p ∈ g.forest.ids then
        some (g.onForest fun f => f.modify p fun o => { o with isFinal := true })
      else none
  | .subscribe p pic cb =>
      if p ∈ g.forest.ids then some (g.onForest fun f => f.subscribe p pic cb) else none
  | .stop p => if p ∈ g.forest.ids then some (g.stop p).state else none

/-! ### What is wanted and what it takes -/

/-- A `stop` that throws has changed nothing, and when the children are gone
the next `stop` of the pulse has the full effect of a first one. -/
def Retriable (g : Pulses T C) (l : Forest.Step T C) : Prop :=
  ∀ p g', l = .stop p → g.stop p = .threw g' →
    g' = g ∧ ∀ ls t, .stop p ∉ ls → runSteps step g' ls = some t →
      (t.forest.pulse p).childs = ∅ → t.stop p = .done ((t.mark p).shutDown p)

/-- A pulse is stopped for the first time only without children. -/
def StopsChildless (g : Pulses T C) (l : Forest.Step T C) : Prop :=
  ∀ p, l = .stop p → (g.forest.pulse p).stopped = true ∨ (g.forest.pulse p).childs = ∅

variable {g g' t : Pulses T C} {p q : PulseId} {l : Forest.Step T C}

omit [DecidableEq T] in
theorem stopped_mark : ((g.mark p).forest.pulse p).stopped = true := by
  simp [mark, onForest, Pulse.setStopped]

omit [DecidableEq T] in
theorem childs_mark : ((g.mark p).forest.pulse p).childs = (g.forest.pulse p).childs := by
  simp [mark, onForest, Pulse.setStopped]

theorem stop_of_stopped (h : (g.forest.pulse p).stopped = true) : g.stop p = .done g := by
  rw [stop, if_pos h]

theorem stop_of_childless (hrun : (g.forest.pulse p).stopped = false)
    (hchilds : (g.forest.pulse p).childs = ∅) : g.stop p = .done ((g.mark p).shutDown p) := by
  rw [stop, if_neg (by simp [hrun])]
  dsimp only
  rw [if_neg (by rw [childs_mark, hchilds]; exact Finset.not_nonempty_empty)]

/-- A refused `stop` leaves the flag and nothing else. -/
theorem stop_eq_threw :
    g.stop p = .threw g' ↔
      (g.forest.pulse p).stopped = false ∧ (g.forest.pulse p).childs.Nonempty ∧ g' = g.mark p := by
  rw [stop]
  split
  · next hstop => simp [hstop]
  · next hstop =>
      dsimp only
      rw [childs_mark]
      split
      · next hne => simp [hstop, hne, eq_comm]
      · next hne => simp [hne]

theorem retriable_iff_stopsChildless (g : Pulses T C) (l : Forest.Step T C) :
    Retriable g l ↔ StopsChildless g l := by
  constructor
  · rintro h p rfl
    by_contra hno
    rw [not_or, Bool.not_eq_true] at hno
    obtain ⟨hrun, hchilds⟩ := hno
    -- the flag was not set before
    have hthrew := stop_eq_threw.mpr ⟨hrun, Finset.nonempty_iff_ne_empty.mpr hchilds, rfl⟩
    have hstop := stopped_mark (g := g) (p := p)
    rw [(h p _ rfl hthrew).1, hrun] at hstop
    cases hstop
  · rintro h p g' rfl hthrew
    obtain ⟨hrun, hne, -⟩ := stop_eq_threw.mp hthrew
    rcases h p rfl with hstop | hchilds
    · rw [hrun] at hstop
      cases hstop
    · exact absurd hchilds hne.ne_empty

/-- **When a refused `stop` can be retried**: in no run with one.  Whatever
the mode of the root, the attachments, the subscriptions and the stops, every
`stop` that throws leaves the pulses unchanged and can be repeated when the
children are gone, if and only if no pulse is stopped for the first time with
children bound. -/
theorem retriable_iff (root : PulseId) (mode : Mode) (ls : List (Forest.Step T C)) :
    Along step Retriable (new root mode) ls ↔ Along step StopsChildless (new root mode) ls := by
  constructor
  · exact Along.imp (I := fun _ => True) (fun _ _ _ => trivial)
      (fun _ hl => (retriable_iff_stopsChildless _ _).mp hl) trivial
  · exact Along.imp (I := fun _ => True) (fun _ _ _ => trivial)
      (fun _ hl => (retriable_iff_stopsChildless _ _).mpr hl) trivial

/-- A server that is stopped before its child. -/
def stoppedEarly : List (Forest.Step ℕ Unit) := [.asChild 2 1, .stop 1]

/-- **The server runs on**: the `stop` throws, the child stops, and the next
`stop` does nothing. -/
theorem stoppedEarly_not_retriable :
    (∃ g, runSteps step (new 1 .server : Pulses ℕ Unit) (stoppedEarly ++ [.stop 2, .stop 1])
      = some g ∧ (g.forest.pulse 1).childs = ∅ ∧ 1 ∈ g.servers) ∧
    ¬ Along step Retriable (new 1 .server : Pulses ℕ Unit) stoppedEarly := by
  refine ⟨⟨_, rfl, by decide, by decide⟩, fun h => ?_⟩
  obtain ⟨-, hretry⟩ := (h.2 _ rfl).1 1 _ rfl rfl
  have hagain := hretry [.stop 2] _ (by simp) rfl (by decide)
  have hservers := congrArg (fun o : Outcome (Pulses ℕ Unit) => o.state.servers) hagain
  exact absurd hservers (by decide)

/-! ### Blocked for good -/

/-- Nothing of what a `stop` does to a pulse is in the second state and was not
in the first, other than the flag. -/
structure Keeps (g g' : Pulses T C) (q : PulseId) : Prop where
  stopped : (g.forest.pulse q).stopped = true → (g'.forest.pulse q).stopped = true
  server : q ∈ g.servers → q ∈ g'.servers
  client : q ∈ g.clients → q ∈ g'.clients
  bound : ∀ r, q ∈ (g.forest.pulse r).childs → q ∈ (g'.forest.pulse r).childs

/-- A pulse that has stopped, or with such a pulse below it, still bound. -/
inductive Blocked (g : Pulses T C) : PulseId → Prop
  | stopped {p : PulseId} : (g.forest.pulse p).stopped = true → Blocked g p
  | child {q c : PulseId} : c ∈ (g.forest.pulse q).childs → Blocked g c → Blocked g q

omit [DecidableEq T] in
theorem Keeps.refl (g : Pulses T C) (q : PulseId) : Keeps g g q :=
  ⟨id, id, id, fun _ => id⟩

omit [DecidableEq T] in
theorem Keeps.trans (h : Keeps g g' q) (h' : Keeps g' t q) : Keeps g t q :=
  ⟨h'.stopped ∘ h.stopped, h'.server ∘ h.server, h'.client ∘ h.client,
    fun r => h'.bound r ∘ h.bound r⟩

omit [DecidableEq T] in
theorem Keeps.of_forest {h : Forest T C → Forest T C}
    (hstopped : (g.forest.pulse q).stopped = true → ((h g.forest).pulse q).stopped = true)
    (hbound : ∀ r, q ∈ (g.forest.pulse r).childs → q ∈ ((h g.forest).pulse r).childs) :
    Keeps g (g.onForest h) q :=
  ⟨hstopped, id, id, hbound⟩

omit [DecidableEq T] in
theorem Keeps.modify {h : Pulse T C → Pulse T C}
    (hstopped : ∀ o, o.stopped = true → (h o).stopped = true)
    (hchilds : ∀ o, q ∈ o.childs → q ∈ (h o).childs) (p : PulseId) :
    Keeps g (g.onForest fun f => f.modify p h) q := by
  refine Keeps.of_forest (fun hs => ?_) fun r hr => ?_
  · rw [Forest.pulse_modify]
    split
    · next hq => exact hstopped _ (hq ▸ hs)
    · exact hs
  · rw [Forest.pulse_modify]
    split
    · next hrp => exact hchilds _ (hrp ▸ hr)
    · exact hr

omit [DecidableEq T] in
theorem Keeps.mark (g : Pulses T C) (p q : PulseId) : Keeps g (g.mark p) q :=
  Keeps.modify (h := Pulse.setStopped) (fun _ _ => rfl) (fun _ => id) p

/-- A subscription leaves the flags and the tables alone. -/
theorem Keeps.subscribe (pic : T) (cb : C) :
    Keeps g (g.onForest fun f => f.subscribe p pic cb) q := by
  have hpush := Keeps.modify (g := g) (q := q)
    (h := Pulse.pushSubscription pic ⟨(g.forest.pulse p).session, cb⟩) (fun _ => id) (fun _ => id) p
  rw [onForest, Forest.subscribe]
  dsimp only
  split
  · refine (hpush.trans (Keeps.modify (h := Pulse.keepInterest _) ?_ ?_ p)).trans
      (Keeps.modify (h := Pulse.insertInterest _ _) ?_ ?_ _) <;> exact fun _ => id
  · exact hpush

omit [DecidableEq T] in
theorem Keeps.asChild (child parent : PulseId) : Keeps g (g.asChild child parent) q := by
  have hparent := Keeps.modify (g := g) (q := q) (h := fun o => { o with parent := some parent })
    (fun _ => id) (fun _ => id) child
  have hattach : Keeps g (g.onForest fun f => f.attach child parent) q :=
    .of_forest hparent.stopped hparent.bound
  have hasChild : Keeps g (g.onForest fun f => (f.asChild child parent).state) q := by
    rw [onForest, Forest.asChild, Forest.bindChild]
    split
    · exact hattach
    · refine hattach.trans (Keeps.modify (h := fun o => { o with childs := insert child o.childs })
        (fun _ => id) (fun o => ?_) parent)
      exact Finset.mem_insert_of_mem
  exact ⟨hasChild.stopped, hasChild.server, hasChild.client, hasChild.bound⟩

/-- Only the pulse that is shut down leaves its parent. -/
theorem Keeps.shutDown (hne : q ≠ p) : Keeps g (g.shutDown p) q := by
  rw [Pulses.shutDown]
  split
  · exact ⟨id, Finset.mem_erase_of_ne_of_mem hne, id, fun _ => id⟩
  · exact ⟨id, id, Finset.mem_erase_of_ne_of_mem hne, fun _ => id⟩
  · rcases (g.forest.pulse p).parent with - | parent
    · exact .refl g q
    have herase := Keeps.modify (g := g) (q := q) (h := Pulse.eraseChild p) (fun _ => id)
      (fun _ => Finset.mem_erase_of_ne_of_mem hne) parent
    rw [Option.elim_some, onForest, Forest.unbindChild]
    split
    · exact herase.trans (Keeps.modify (h := Pulse.loseInterests _ _) (fun _ => id) (fun _ => id) _)
    · exact herase
  · exact .refl g q
  · exact .refl g q

/-- A step undoes nothing for a pulse that it does not shut down. -/
theorem Keeps.step (hs : step g l = some g')
    (hq : (g.forest.pulse q).stopped = true ∨ (g.forest.pulse q).childs.Nonempty) :
    Keeps g g' q := by
  cases l with
  | asChild child parent =>
      simp only [step, Option.ite_none_right_eq_some, Option.some.injEq] at hs
      obtain ⟨-, rfl⟩ := hs
      exact .asChild child parent
  | withSession p _ | withStrand p _ | markFinal p =>
      simp only [step, Option.ite_none_right_eq_some, Option.some.injEq] at hs
      obtain ⟨-, rfl⟩ := hs
      refine .modify ?_ ?_ p <;> exact fun _ => id
  | subscribe p pic cb =>
      simp only [step, Option.ite_none_right_eq_some, Option.some.injEq] at hs
      obtain ⟨-, rfl⟩ := hs
      exact .subscribe pic cb
  | stop p =>
      simp only [step, Option.ite_none_right_eq_some, Option.some.injEq] at hs
      obtain ⟨-, rfl⟩ := hs
      have hmark := Keeps.mark g p q
      rw [stop]
      split
      · exact .refl g q
      · next hrun =>
          dsimp only
          split
          · exact hmark
          · next hempty =>
              refine hmark.trans (.shutDown ?_)
              rintro rfl
              rcases hq with hstop | hne
              · exact hrun hstop
              · exact hempty (by rwa [childs_mark])

omit [DecidableEq T] in
theorem Blocked.stopped_or_nonempty (h : Blocked g q) :
    (g.forest.pulse q).stopped = true ∨ (g.forest.pulse q).childs.Nonempty := by
  cases h with
  | stopped hstop => exact .inl hstop
  | child hc _ => exact .inr ⟨_, hc⟩

theorem Blocked.step (h : Blocked g q) (hs : Pulses.step g l = some g') : Blocked g' q := by
  induction h with
  | stopped hstop => exact .stopped ((Keeps.step hs (.inl hstop)).stopped hstop)
  | child hc hb ih => exact .child ((Keeps.step hs hb.stopped_or_nonempty).bound _ hc) ih

/-- A `stop` of a blocked pulse throws or does nothing. -/
theorem Blocked.stop_eq (h : Blocked g q) (hs : g.stop q = .done g') : g' = g := by
  rcases h.stopped_or_nonempty with hstop | hne
  · rw [stop_of_stopped hstop] at hs
    cases hs
    rfl
  · by_cases hstop : (g.forest.pulse q).stopped = true
    · rw [stop_of_stopped hstop] at hs
      cases hs
      rfl
    · rw [stop_eq_threw.mpr ⟨by simpa using hstop, hne, rfl⟩] at hs
      cases hs

/-- **A refused `stop` is the end**: from then on, whatever is called, no `stop`
of the pulse or of a pulse above it has an effect.  Their servers run, their
clients are open and they stay in the tables they are in. -/
theorem refused_stop_blocks (hthrew : g.stop p = .threw g')
    (habove : Relation.ReflTransGen (fun q c => c ∈ (g.forest.pulse q).childs) q p)
    {ls : List (Forest.Step T C)} (hrun : runSteps step g' ls = some t) :
    Keeps g t q ∧ ∀ t', t.stop q = .done t' → t' = t := by
  obtain ⟨-, -, rfl⟩ := stop_eq_threw.mp hthrew
  have hblocked : Blocked (g.mark p) q := by
    induction habove using Relation.ReflTransGen.head_induction_on with
    | refl => exact .stopped stopped_mark
    | head hc _ ih => exact .child ((Keeps.mark g p _).bound _ hc) ih
  have hinv : Blocked t q ∧ Keeps g t q := by
    refine runSteps_invariant (I := fun t => Blocked t q ∧ Keeps g t q) ?_
      ⟨hblocked, .mark g p q⟩ hrun
    rintro s l s' ⟨hb, hk⟩ hs
    exact ⟨hb.step hs, hk.trans (Keeps.step hs hb.stopped_or_nonempty)⟩
  exact ⟨hinv.2, fun t' hs => hinv.1.stop_eq hs⟩

/-! ### The forest below -/

/-- The mode is that of a child exactly where there is a parent. -/
def Moded (g : Pulses T C) : Prop :=
  ∀ p, g.mode p = .child ↔ (g.forest.pulse p).parent.isSome = true

omit [DecidableEq T] in
theorem moded_new (root : PulseId) {mode : Mode} (hmode : mode ≠ .child) :
    Moded (new root mode : Pulses T C) := by
  intro p
  by_cases hp : p = root <;> simp [new, Forest.new, hp, hmode]

omit [DecidableEq T] in
theorem Moded.of_parent (hm : Moded g) (hmode : g'.mode = g.mode)
    (hparent : ∀ p, (g'.forest.pulse p).parent = (g.forest.pulse p).parent) : Moded g' := by
  intro p
  rw [hmode, hparent]
  exact hm p

/-- The `stop` of the forest, which goes by the parent and not by the mode. -/
theorem Moded.forest_stop (hm : Moded g) (p : PulseId) :
    (g.stop p).state.forest = (g.forest.stop p).state := by
  by_cases hstop : (g.forest.pulse p).stopped = true
  · rw [stop_of_stopped hstop, Forest.stop_of_stopped hstop]
    rfl
  have hrun : (g.forest.pulse p).stopped = false := by simpa using hstop
  by_cases hne : (g.forest.pulse p).childs.Nonempty
  · rw [stop_eq_threw.mpr ⟨hrun, hne, rfl⟩, Forest.stop_of_bound hrun hne]
    rfl
  · have hchilds := Finset.not_nonempty_iff_eq_empty.mp hne
    have hparent : ((g.mark p).forest.pulse p).parent = (g.forest.pulse p).parent := by
      simp [mark, onForest, Pulse.setStopped]
    rw [stop_of_childless hrun hchilds, Forest.stop_of_childless hrun hchilds, Outcome.state_done,
      Outcome.state_done, shutDown, hparent, show (g.mark p).mode = g.mode from rfl]
    rcases hpar : (g.forest.pulse p).parent with - | parent
    · split <;> rfl
    · rw [(hm p).mpr (by rw [hpar]; rfl)]
      rfl

omit [DecidableEq T] in
theorem Moded.modify (hm : Moded g) (p : PulseId) {h : Pulse T C → Pulse T C}
    (hparent : ∀ o, (h o).parent = o.parent) : Moded (g.onForest fun f => f.modify p h) :=
  hm.of_parent rfl (g.forest.modify_same p h Pulse.parent hparent)

theorem Moded.subscribe (hm : Moded g) (p : PulseId) (pic : T) (cb : C) :
    Moded (g.onForest fun f => f.subscribe p pic cb) := by
  have hpush := hm.modify p (h := Pulse.pushSubscription pic ⟨(g.forest.pulse p).session, cb⟩)
    fun _ => rfl
  rw [onForest, Forest.subscribe]
  dsimp only
  split
  · refine (hpush.modify p (h := Pulse.keepInterest _) ?_).modify _ (h := Pulse.insertInterest _ _)
      ?_ <;> exact fun _ => rfl
  · exact hpush

theorem Moded.shutDown (hm : Moded g) (p : PulseId) : Moded (g.shutDown p) := by
  rw [Pulses.shutDown]
  split
  · exact hm.of_parent rfl fun _ => rfl
  · exact hm.of_parent rfl fun _ => rfl
  · rcases (g.forest.pulse p).parent with - | parent
    · exact hm
    have herase := hm.modify parent (h := Pulse.eraseChild p) fun _ => rfl
    rw [Option.elim_some, onForest, Forest.unbindChild]
    split
    · exact herase.modify _ (h := Pulse.loseInterests _ _) fun _ => rfl
    · exact herase
  · exact hm
  · exact hm

theorem Moded.stop (hm : Moded g) (p : PulseId) : Moded (g.stop p).state := by
  have hmark : Moded (g.mark p) := hm.modify p fun _ => rfl
  rw [Pulses.stop]
  split
  · exact hm
  · dsimp only
    split
    · exact hmark
    · exact hmark.shutDown p

omit [DecidableEq T] in
theorem Moded.asChild (hm : Moded g) (child parent : PulseId) : Moded (g.asChild child parent) := by
  have hparent : ∀ c, ((g.forest.asChild child parent).state.pulse c).parent =
      if c = child then some parent else (g.forest.pulse c).parent := by
    intro c
    have hattach : ((g.forest.attach child parent).pulse c).parent =
        if c = child then some parent else (g.forest.pulse c).parent := by
      have hpulse := g.forest.pulse_modify child (fun o => { o with parent := some parent }) c
      refine (congrArg Pulse.parent hpulse).trans ?_
      split <;> rfl
    rw [Forest.asChild, Forest.bindChild]
    split
    · exact hattach
    · refine Eq.trans ?_ hattach
      exact Forest.modify_same _ parent (fun o => { o with childs := insert child o.childs })
        Pulse.parent (fun _ => rfl) c
  intro c
  show Function.update g.mode child .child c = .child ↔ _
  rw [Pulses.asChild, hparent]
  by_cases hc : c = child
  · simp [hc]
  · rw [if_neg hc, Function.update_of_ne hc]
    exact hm c

omit [DecidableEq T] in
/-- The pulses above a pulse of the tree are of the tree. -/
theorem mem_ids_of_mem_upward {f : Forest T C} (hf : f.Tree) {c : PulseId} (k : ℕ)
    (hp : p ∈ f.ids) (hc : c ∈ f.upward k p) : c ∈ f.ids := by
  induction k generalizing p with
  | zero => cases hc
  | succ k ih =>
      rcases List.mem_cons.mp hc with rfl | hc
      · exact hp
      · by_cases hroot : p = f.root
        · rw [hroot, hf.parent_root] at hc
          cases hc
        · obtain ⟨q, hq, hpar⟩ := hf.parent_mem hp hroot
          rw [hpar] at hc
          exact ih hq hc

/-- The pulses have this forest, and it is in order. -/
structure Follows (f : Forest T C) (g : Pulses T C) : Prop where
  forest : g.forest = f
  moded : Moded g
  kept : Bus.Kept f

/-- Every call on the forest can be made here. -/
theorem Follows.exists_step {f : Forest T C} (h : Follows f g) {o : Outcome (Forest T C)}
    (hc : Bus.call f l = some o) : ∃ g', step g l = some g' ∧ Follows o.state g' := by
  obtain rfl := h.forest
  suffices hstep : ∃ g', step g l = some g' ∧ g'.forest = o.state ∧ Moded g' by
    obtain ⟨g', hg', hforest, hm⟩ := hstep
    exact ⟨g', hg', hforest, hm, (Bus.kept_call h.kept hc).1⟩
  cases l with
  | asChild child parent =>
      simp only [Bus.call, Forest.step, Option.map_eq_some_iff, Option.ite_none_right_eq_some,
        Option.some.injEq] at hc
      obtain ⟨f', ⟨⟨hchild, hparent, -⟩, rfl⟩, rfl⟩ := hc
      refine ⟨_, if_pos ⟨hparent, fun hup => ?_⟩, rfl, h.moded.asChild child parent⟩
      exact hchild (mem_ids_of_mem_upward h.kept.tree _ hparent hup)
  | withSession p _ | withStrand p _ | markFinal p =>
      simp only [Bus.call, Forest.step, Option.map_eq_some_iff, Option.ite_none_right_eq_some,
        Option.some.injEq] at hc
      obtain ⟨f', ⟨hp, rfl⟩, rfl⟩ := hc
      refine ⟨_, if_pos hp, rfl, h.moded.modify p ?_⟩
      exact fun _ => rfl
  | subscribe p pic cb =>
      simp only [Bus.call, Option.ite_none_right_eq_some, Option.some.injEq] at hc
      obtain ⟨hp, rfl⟩ := hc
      exact ⟨_, if_pos hp, rfl, h.moded.subscribe p pic cb⟩
  | stop p =>
      simp only [Bus.call, Option.ite_none_right_eq_some, Option.some.injEq] at hc
      obtain ⟨hp, rfl⟩ := hc
      exact ⟨_, if_pos hp, h.moded.forest_stop p, h.moded.stop p⟩

/-- The runs of `Bus.call`, in which a pulse is attached once, are runs here,
with the same forest. -/
theorem exists_run_of_calls (root : PulseId) {mode : Mode} (hmode : mode ≠ .child)
    {ls : List (Forest.Step T C)} {f : Forest T C}
    (hrun : runSteps (fun f l => (Bus.call f l).map Outcome.state) (Forest.new root) ls = some f) :
    ∃ g : Pulses T C, runSteps step (new root mode) ls = some g ∧ g.forest = f := by
  have hnew : Follows (Forest.new root : Forest T C) (new root mode) :=
    ⟨rfl, moded_new root hmode, (Bus.quietInv_new (F := Unit) root).kept⟩
  obtain ⟨g, hg, h⟩ : ∃ g, runSteps step (new root mode) ls = some g ∧ Follows f g := by
    refine runSteps_simulation (R := Follows) (fun h hs => ?_) hnew hrun
    obtain ⟨o, hc, rfl⟩ := Option.map_eq_some_iff.mp hs
    exact h.exists_step hc
  exact ⟨g, hg, h.forest⟩

end Pulses

end Play
