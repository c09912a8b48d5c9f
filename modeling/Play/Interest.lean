/-
Play/Interest.lean

When the interests kept by the root are those of its running descendants.

`subscribe` writes the interest at the root of the tree, whatever the depth of
the pulse.  `stop` takes it back through `unbind_child` of the direct parent,
and there only `if (is_root())`.  So the interests of a pulse that is not a
direct child of the root outlive it: in every reachable state

    listed c  ↔  subscribed c ∧ (running c ∨ the parent of c is not the root)

(`InterestInv`).  The registry is right exactly as long as no pulse deeper
than that is stopped after it subscribed (`interestsExact_iff_stopsShallow`).
-/
import Play.Pulse

namespace Play

namespace Forest

variable {T C : Type} [DecidableEq T]

/-- `c` is listed at the root under session key `s` and topic `t`. -/
def Listed (f : Forest T C) (c : PulseId) (s : SessionKey) (t : T) : Prop :=
  c ∈ (f.pulse f.root).interests (s, t)

instance (f : Forest T C) (c : PulseId) (s : SessionKey) (t : T) : Decidable (Listed f c s t) :=
  inferInstanceAs (Decidable (c ∈ (f.pulse f.root).interests (s, t)))

/-- `c` subscribed to topic `t` while its session key was `s`; subscriptions
are never taken back. -/
def Subscribed (f : Forest T C) (c : PulseId) (s : SessionKey) (t : T) : Prop :=
  ∃ sub ∈ (f.pulse c).subscriptions t, sub.sessionKey = s

/-- The root lists exactly the running descendants that subscribed. -/
def InterestsExact (f : Forest T C) : Prop :=
  ∀ c s t, Listed f c s t ↔
    Descendant f c ∧ (f.pulse c).stopped = false ∧ Subscribed f c s t

/-- What the root lists in every reachable state. -/
structure InterestInv (f : Forest T C) : Prop where
  tree : Tree f
  kept : ∀ c ∈ f.ids, c ≠ f.root → ∀ s t,
    (s, t) ∈ (f.pulse c).selfInterests ↔ Subscribed f c s t
  listed : ∀ c s t, Listed f c s t ↔ c ∈ f.ids ∧ c ≠ f.root ∧ Subscribed f c s t ∧
    ((f.pulse c).stopped = false ∨ (f.pulse c).parent ≠ some f.root)

variable {f f' : Forest T C}

omit [DecidableEq T] in
theorem interestInv_new (root : PulseId) : InterestInv (new root : Forest T C) := by
  refine ⟨tree_new root, ?_, ?_⟩
  · intro c _ _ s t
    simp [new, Subscribed]
  · intro c s t
    simp [new, Listed, Subscribed]

omit [DecidableEq T] in
/-- A call that touches nothing of what the invariant is about. -/
theorem InterestInv.modify (hf : InterestInv f) {p : PulseId} {g : Pulse T C → Pulse T C}
    (hp : p ∈ f.ids) (hparent : ∀ o, (g o).parent = o.parent)
    (hstopped : ∀ o, (g o).stopped = o.stopped)
    (hsubs : ∀ o, (g o).subscriptions = o.subscriptions)
    (hself : ∀ o, (g o).selfInterests = o.selfInterests)
    (hints : ∀ o, (g o).interests = o.interests) : InterestInv (f.modify p g) := by
  have hsub : ∀ c s t, Subscribed (f.modify p g) c s t ↔ Subscribed f c s t := by
    intro c s t
    rw [Subscribed, f.modify_same p g Pulse.subscriptions hsubs]
    rfl
  refine ⟨hf.tree.modify hp hparent, ?_, ?_⟩
  · intro c hc hne s t
    rw [hsub, f.modify_same p g Pulse.selfInterests hself]
    exact hf.kept c hc hne s t
  · intro c s t
    rw [Listed, hsub, root_modify, f.modify_same p g Pulse.interests hints,
      f.modify_same p g Pulse.stopped hstopped, f.modify_same p g Pulse.parent hparent]
    exact hf.listed c s t

/-! ### One lemma for each call -/

omit [DecidableEq T] in
theorem InterestInv.attach (hf : InterestInv f) {child parent : PulseId} (hchild : child ∉ f.ids)
    (hparent : parent ∈ f.ids) : InterestInv (f.attach child parent) := by
  have hmem : ∀ c, c ∈ (f.attach child parent).ids ↔ c ∈ f.ids ∨ c = child := fun c => by
    simp [Forest.attach]
  have hsub : ∀ c s t, Subscribed (f.attach child parent) c s t ↔ Subscribed f c s t := by
    intro c s t
    rw [Subscribed, f.attach_same child parent Pulse.subscriptions fun _ => rfl]
    rfl
  have hnew : ∀ s t, ¬ Subscribed f child s t := by
    intro s t
    simp [Subscribed, hf.tree.fresh child hchild]
  refine ⟨hf.tree.attach hchild hparent, ?_, ?_⟩
  · intro c hc hne s t
    rw [hsub, f.attach_same child parent Pulse.selfInterests fun _ => rfl]
    rcases (hmem c).mp hc with hc | rfl
    · exact hf.kept c hc hne s t
    · simp [hnew, hf.tree.fresh c hchild]
  · -- nobody lists a pulse that has not subscribed
    intro c s t
    have hlisted : Listed (f.attach child parent) c s t ↔ Listed f c s t := by
      rw [Listed, f.attach_same child parent Pulse.interests fun _ => rfl]
      rfl
    rw [hlisted, hsub, hf.listed, hmem, show (f.attach child parent).root = f.root from rfl]
    by_cases hc : c = child
    · subst hc
      simp [hnew]
    · rw [f.pulse_attach_of_ne parent hc]
      simp [hc]

omit [DecidableEq T] in
theorem asChild_eq {child parent : PulseId} (hchild : child ∉ f.ids) (hparent : parent ∈ f.ids)
    (hfinal : (f.pulse parent).isFinal = false) :
    (f.asChild child parent).state = (f.attach child parent).modify parent
      (fun o => { o with childs := insert child o.childs }) := by
  have hne : parent ≠ child := by
    rintro rfl
    exact hchild hparent
  rw [asChild, bindChild, f.pulse_attach_of_ne parent hne, hfinal]
  rfl

/-- The subscriptions after a `push_back`. -/
theorem subscribed_push {p : PulseId} {pic : T} {sub : Subscription C} {c : PulseId}
    {s : SessionKey} {t : T} :
    Subscribed (f.modify p (Pulse.pushSubscription pic sub)) c s t ↔
      Subscribed f c s t ∨ (c = p ∧ s = sub.sessionKey ∧ t = pic) := by
  by_cases hc : c = p
  · subst hc
    by_cases ht : t = pic
    · subst ht
      simp [Subscribed, Pulse.pushSubscription, or_and_right, exists_or, eq_comm]
    · simp [Subscribed, Pulse.pushSubscription, ht]
  · simp [Subscribed, pulse_modify, hc]

/-- The root subscribes for itself only. -/
theorem InterestInv.subscribe_root (hf : InterestInv f) (pic : T) (sub : Subscription C) :
    InterestInv (f.modify f.root (Pulse.pushSubscription pic sub)) := by
  have hsame : ∀ {α : Type} (π : Pulse T C → α), (∀ o, π (Pulse.pushSubscription pic sub o) = π o) →
      ∀ c, π ((f.modify f.root (Pulse.pushSubscription pic sub)).pulse c) = π (f.pulse c) :=
    fun π hπ c => modify_same f f.root (Pulse.pushSubscription pic sub) π hπ c
  refine ⟨hf.tree.modify hf.tree.root_mem fun _ => rfl, ?_, ?_⟩
  · intro c hc hne s t
    have hcr : c ≠ f.root := hne
    rw [subscribed_push, hsame Pulse.selfInterests (fun _ => rfl), hf.kept c hc hne]
    simp [hcr]
  · intro c s t
    rw [Listed, subscribed_push, hsame Pulse.interests (fun _ => rfl),
      hsame Pulse.stopped (fun _ => rfl), hsame Pulse.parent (fun _ => rfl)]
    refine (hf.listed c s t).trans ?_
    constructor
    · rintro ⟨hc, hne, hs, hlive⟩
      exact ⟨hc, hne, .inl hs, hlive⟩
    · rintro ⟨hc, hne, hs | ⟨hcr, -, -⟩, hlive⟩
      · exact ⟨hc, hne, hs, hlive⟩
      · exact absurd hcr hne

section Shown

variable (f) (p : PulseId) (pic : T) (sub : Subscription C)

/-- A pulse has subscribed, kept its interest and shown it to the root. -/
def shown : Forest T C :=
  ((f.modify p (Pulse.pushSubscription pic sub)).modify p
    (Pulse.keepInterest (sub.sessionKey, pic))).showInterest f.root p sub.sessionKey pic

/-- A member other than the three that are written. -/
theorem shown_same {α : Type*} (π : Pulse T C → α)
    (hpush : ∀ o, π (Pulse.pushSubscription pic sub o) = π o)
    (hkeep : ∀ o, π (Pulse.keepInterest (sub.sessionKey, pic) o) = π o)
    (hshow : ∀ o, π (Pulse.insertInterest p (sub.sessionKey, pic) o) = π o) (c : PulseId) :
    π ((f.shown p pic sub).pulse c) = π (f.pulse c) := by
  rw [shown, showInterest, modify_same _ _ _ π hshow, modify_same _ _ _ π hkeep,
    modify_same _ _ _ π hpush]

-- The three members that are written all get the same entry.

theorem subscribed_shown (c : PulseId) (s : SessionKey) (t : T) :
    Subscribed (f.shown p pic sub) c s t ↔
      Subscribed f c s t ∨ (c = p ∧ s = sub.sessionKey ∧ t = pic) := by
  rw [← subscribed_push, Subscribed, shown, showInterest,
    modify_same _ _ (Pulse.insertInterest p (sub.sessionKey, pic)) Pulse.subscriptions fun _ => rfl,
    modify_same _ p (Pulse.keepInterest (sub.sessionKey, pic)) Pulse.subscriptions fun _ => rfl]
  rfl

theorem mem_selfInterests_shown (c : PulseId) (s : SessionKey) (t : T) :
    (s, t) ∈ ((f.shown p pic sub).pulse c).selfInterests ↔
      (s, t) ∈ (f.pulse c).selfInterests ∨ (c = p ∧ s = sub.sessionKey ∧ t = pic) := by
  have hpush := modify_same f p (Pulse.pushSubscription pic sub) Pulse.selfInterests fun _ => rfl
  rw [shown, showInterest,
    modify_same _ _ (Pulse.insertInterest p (sub.sessionKey, pic)) Pulse.selfInterests fun _ => rfl,
    pulse_modify]
  split
  · next hc =>
      rw [Pulse.mem_keepInterest, hpush, hc]
      simp
  · next hc =>
      rw [hpush]
      simp [hc]

theorem listed_shown (c : PulseId) (s : SessionKey) (t : T) :
    Listed (f.shown p pic sub) c s t ↔
      Listed f c s t ∨ (c = p ∧ s = sub.sessionKey ∧ t = pic) := by
  have hints : (((f.modify p (Pulse.pushSubscription pic sub)).modify p
      (Pulse.keepInterest (sub.sessionKey, pic))).pulse f.root).interests
      = (f.pulse f.root).interests := by
    rw [modify_same _ p (Pulse.keepInterest (sub.sessionKey, pic)) Pulse.interests fun _ => rfl,
      modify_same f p (Pulse.pushSubscription pic sub) Pulse.interests fun _ => rfl]
  rw [Listed, shown, showInterest, root_modify, root_modify, root_modify, pulse_modify_self,
    Pulse.mem_insertInterest, hints, Prod.mk.injEq]
  rfl

end Shown

/-- Any other pulse also keeps its interest, and shows it to the root. -/
theorem InterestInv.subscribe_child (hf : InterestInv f) {p : PulseId} (hp : p ∈ f.ids)
    (hroot : p ≠ f.root) (hrun : (f.pulse p).stopped = false) (pic : T) (sub : Subscription C) :
    InterestInv (f.shown p pic sub) := by
  refine ⟨?_, ?_, ?_⟩
  · have hpush := hf.tree.modify (g := Pulse.pushSubscription pic sub) hp fun _ => rfl
    have hkeep := hpush.modify (g := Pulse.keepInterest (sub.sessionKey, pic)) hp fun _ => rfl
    exact hkeep.modify hf.tree.root_mem fun _ => rfl
  · intro c hc hne s t
    rw [mem_selfInterests_shown, subscribed_shown, hf.kept c hc hne]
  · intro c s t
    rw [listed_shown, subscribed_shown, hf.listed,
      shown_same f p pic sub Pulse.stopped (fun _ => rfl) (fun _ => rfl) (fun _ => rfl),
      shown_same f p pic sub Pulse.parent (fun _ => rfl) (fun _ => rfl) (fun _ => rfl)]
    show _ ↔ c ∈ f.ids ∧ c ≠ f.root ∧ _
    constructor
    · rintro (⟨hc, hne, hs, hlive⟩ | ⟨rfl, hs, ht⟩)
      · exact ⟨hc, hne, .inl hs, hlive⟩
      · exact ⟨hp, hroot, .inr ⟨rfl, hs, ht⟩, .inl hrun⟩
    · rintro ⟨hc, hne, hs | hnew, hlive⟩
      · exact .inl ⟨hc, hne, hs, hlive⟩
      · exact .inr hnew

/-- What `subscribe` does to a pulse of the tree. -/
theorem subscribe_eq (hf : Tree f) {p : PulseId} (hp : p ∈ f.ids) (pic : T) (cb : C) :
    f.subscribe p pic cb =
      let sub : Subscription C := ⟨(f.pulse p).session, cb⟩
      if p = f.root then f.modify p (Pulse.pushSubscription pic sub)
      else ((f.modify p (Pulse.pushSubscription pic sub)).modify p
        (Pulse.keepInterest (sub.sessionKey, pic))).showInterest f.root p sub.sessionKey pic := by
  let sub : Subscription C := ⟨(f.pulse p).session, cb⟩
  have h₁ : Tree (f.modify p (Pulse.pushSubscription pic sub)) := hf.modify hp fun _ => rfl
  have h₂ : Tree ((f.modify p (Pulse.pushSubscription pic sub)).modify p
    (Pulse.keepInterest (sub.sessionKey, pic))) := h₁.modify hp fun _ => rfl
  rw [Forest.subscribe]
  dsimp only
  by_cases hroot : p = f.root
  · rw [(h₁.isRoot_iff hp).mpr hroot, if_pos hroot]
    rfl
  · have hno : (f.modify p (Pulse.pushSubscription pic sub)).isRoot p = false := by
      simpa using fun h => hroot ((h₁.isRoot_iff hp).mp h)
    rw [hno, if_neg hroot, h₂.getRoot_eq hp]
    rfl

theorem InterestInv.subscribe (hf : InterestInv f) {p : PulseId} (hp : p ∈ f.ids)
    (hrun : (f.pulse p).stopped = false) (pic : T) (cb : C) :
    InterestInv (f.subscribe p pic cb) := by
  rw [subscribe_eq hf.tree hp]
  dsimp only
  split
  · next hroot =>
      rw [hroot]
      exact hf.subscribe_root pic _
  · next hroot => exact hf.subscribe_child hp hroot hrun pic ⟨(f.pulse p).session, cb⟩

/-! ### Stopping -/

section Stop

variable (hf : Tree f) {p : PulseId} (hp : p ∈ f.ids) (hchilds : (f.pulse p).childs = ∅)
  (hrun : (f.pulse p).stopped = false)
include hf hp hchilds hrun

/-- What `stop` does to a running pulse without children, as changes of one
object after the other: the interests are taken back if the parent is the
root. -/
theorem stop_cases :
    ((f.pulse p).parent = none ∧ (f.stop p).state = f.modify p Pulse.setStopped) ∨
    ∃ q ∈ f.ids, (f.pulse p).parent = some q ∧ ∃ lose : Pulse T C → Pulse T C,
      (f.stop p).state =
        ((f.modify p Pulse.setStopped).modify q (Pulse.eraseChild p)).modify q lose ∧
      ((q = f.root ∧ lose = Pulse.loseInterests p (f.pulse p).selfInterests) ∨
        (q ≠ f.root ∧ lose = id)) := by
  have hlost : ((f.modify p Pulse.setStopped).pulse p).selfInterests
      = (f.pulse p).selfInterests := by simp [Pulse.setStopped]
  rw [stop_of_childless hrun hchilds, Outcome.state_done]
  rcases hpar : (f.pulse p).parent with - | q
  · exact .inl ⟨rfl, rfl⟩
  have hpr : p ≠ f.root := by
    rintro rfl
    rw [hf.parent_root] at hpar
    cases hpar
  obtain ⟨q', hq, hpar'⟩ := hf.parent_mem hp hpr
  obtain rfl : q = q' := Option.some.inj (hpar.symm.trans hpar')
  -- what `is_root` answers does not change on the way
  have hhalt : Tree (f.modify p Pulse.setStopped) := hf.modify hp fun _ => rfl
  have hunbound : Tree ((f.modify p Pulse.setStopped).modify q (Pulse.eraseChild p)) :=
    hhalt.modify hq fun _ => rfl
  refine .inr ⟨q, hq, rfl, ?_⟩
  rw [Option.elim_some, unbindChild, hlost]
  by_cases hroot : q = f.root
  · exact ⟨_, if_pos ((hunbound.isRoot_iff hq).mpr hroot), .inl ⟨hroot, rfl⟩⟩
  · refine ⟨id, ?_, .inr ⟨hroot, rfl⟩⟩
    rw [if_neg fun h => hroot ((hunbound.isRoot_iff hq).mp h)]
    simp [modify]

/-- A member other than the three that `stop` writes. -/
theorem stop_same {α : Type*} (π : Pulse T C → α)
    (hstopped : ∀ o b, π { o with stopped := b } = π o)
    (hchild : ∀ o cs, π { o with childs := cs } = π o)
    (hints : ∀ o is, π { o with interests := is } = π o) (c : PulseId) :
    π ((f.stop p).state.pulse c) = π (f.pulse c) := by
  have hhalt : π ((f.modify p Pulse.setStopped).pulse c) = π (f.pulse c) :=
    modify_same f p Pulse.setStopped π (hstopped · true) c
  rcases stop_cases hf hp hchilds hrun with ⟨-, hs⟩ | ⟨q, -, -, lose, hs, hlose⟩ <;> rw [hs]
  · exact hhalt
  · rw [modify_same _ q lose π, modify_same _ q (Pulse.eraseChild p) π (hchild · _)]
    · exact hhalt
    · intro o
      rcases hlose with ⟨-, rfl⟩ | ⟨-, rfl⟩
      · exact hints o _
      · rfl

theorem root_stop : (f.stop p).state.root = f.root := by
  rcases stop_cases hf hp hchilds hrun with ⟨-, hs⟩ | ⟨q, -, -, lose, hs, -⟩ <;> rw [hs] <;> rfl

theorem ids_stop : (f.stop p).state.ids = f.ids := by
  rcases stop_cases hf hp hchilds hrun with ⟨-, hs⟩ | ⟨q, -, -, lose, hs, -⟩ <;> rw [hs] <;> rfl

theorem stopped_stop (c : PulseId) :
    ((f.stop p).state.pulse c).stopped = if c = p then true else (f.pulse c).stopped := by
  have hhalt : ((f.modify p Pulse.setStopped).pulse c).stopped
      = if c = p then true else (f.pulse c).stopped := by
    rw [pulse_modify]
    split <;> rfl
  rcases stop_cases hf hp hchilds hrun with ⟨-, hs⟩ | ⟨q, -, -, lose, hs, hlose⟩ <;> rw [hs]
  · exact hhalt
  · rw [modify_same _ q lose Pulse.stopped,
      modify_same _ q (Pulse.eraseChild p) Pulse.stopped fun _ => rfl]
    · exact hhalt
    · intro o
      rcases hlose with ⟨-, rfl⟩ | ⟨-, rfl⟩ <;> rfl

theorem tree_stop : Tree (f.stop p).state := by
  refine hf.of_same (root_stop hf hp hchilds hrun) (ids_stop hf hp hchilds hrun)
    (stop_same hf hp hchilds hrun Pulse.parent (fun _ _ => rfl) (fun _ _ => rfl) fun _ _ => rfl) ?_
  intro c hc
  have hcp : c ≠ p := by
    rintro rfl
    exact hc hp
  rcases stop_cases hf hp hchilds hrun with ⟨-, hs⟩ | ⟨q, hq, -, lose, hs, -⟩ <;> rw [hs]
  · exact pulse_modify_of_ne f p _ hcp
  · have hcq : c ≠ q := by
      rintro rfl
      exact hc hq
    rw [pulse_modify_of_ne _ q _ hcq, pulse_modify_of_ne _ q _ hcq]
    exact pulse_modify_of_ne f p _ hcp

end Stop

/-- A child of the root is not listed any more; any other pulse still is. -/
theorem listed_stop (hf : InterestInv f) {p : PulseId} (hp : p ∈ f.ids)
    (hchilds : (f.pulse p).childs = ∅) (hrun : (f.pulse p).stopped = false) (c : PulseId)
    (s : SessionKey) (t : T) :
    Listed (f.stop p).state c s t ↔
      Listed f c s t ∧ ¬ (c = p ∧ (f.pulse p).parent = some f.root) := by
  rw [Listed, root_stop hf.tree hp hchilds hrun]
  have hhalt : ((f.modify p Pulse.setStopped).pulse f.root).interests
      = (f.pulse f.root).interests :=
    modify_same f p Pulse.setStopped Pulse.interests (fun _ => rfl) f.root
  rcases stop_cases hf.tree hp hchilds hrun with ⟨hpar, hs⟩ | ⟨q, hq, hpar, lose, hs, hlose⟩ <;>
    rw [hs, hpar]
  · rw [hhalt]
    simp [Listed]
  have hunbound : (((f.modify p Pulse.setStopped).modify q (Pulse.eraseChild p)).pulse
      f.root).interests = (f.pulse f.root).interests := by
    rw [modify_same _ q (Pulse.eraseChild p) Pulse.interests fun _ => rfl, hhalt]
  rcases hlose with ⟨rfl, rfl⟩ | ⟨hroot, rfl⟩
  · rw [pulse_modify_self, Pulse.mem_loseInterests, hunbound]
    refine and_congr_right fun hl => not_congr (and_congr_right fun hc => iff_of_true ?_ rfl)
    -- what the root lists for `p` is what `p` kept
    subst hc
    have hl := (hf.listed c s t).mp hl
    exact (hf.kept c hp hl.2.1 s t).mpr hl.2.2.1
  · rw [modify_same _ q id Pulse.interests fun _ => rfl, hunbound]
    simp [Listed, hroot]

theorem InterestInv.stop (hf : InterestInv f) {p : PulseId} (hp : p ∈ f.ids)
    (hchilds : (f.pulse p).childs = ∅) (hrun : (f.pulse p).stopped = false) :
    InterestInv (f.stop p).state := by
  have hsub : ∀ c s t, Subscribed (f.stop p).state c s t ↔ Subscribed f c s t := by
    intro c s t
    rw [Subscribed, stop_same hf.tree hp hchilds hrun Pulse.subscriptions (fun _ _ => rfl)
      (fun _ _ => rfl) fun _ _ => rfl]
    rfl
  refine ⟨tree_stop hf.tree hp hchilds hrun, ?_, ?_⟩
  · intro c hc hne s t
    rw [ids_stop hf.tree hp hchilds hrun] at hc
    rw [root_stop hf.tree hp hchilds hrun] at hne
    rw [hsub, stop_same hf.tree hp hchilds hrun Pulse.selfInterests (fun _ _ => rfl)
      (fun _ _ => rfl) fun _ _ => rfl]
    exact hf.kept c hc hne s t
  · intro c s t
    rw [listed_stop hf hp hchilds hrun, hf.listed, hsub, ids_stop hf.tree hp hchilds hrun,
      root_stop hf.tree hp hchilds hrun, stopped_stop hf.tree hp hchilds hrun,
      stop_same hf.tree hp hchilds hrun Pulse.parent (fun _ _ => rfl) (fun _ _ => rfl)
        fun _ _ => rfl]
    by_cases hc : c = p
    · -- listed now if it was and its parent is not the root
      subst hc
      simp only [hrun, if_true, true_or, and_true, true_and, Bool.true_eq_false, false_or, ne_eq,
        and_assoc]
    · simp [hc]

/-! ### Runs -/

/-- A `stop` that leaves nothing behind: of a pulse that has stopped already,
of the root or a direct child of it, or of a pulse that never subscribed. -/
def StopsShallow (f : Forest T C) : Step T C → Prop
  | .stop p => (f.pulse p).stopped = true ∨ (f.pulse p).parent = none ∨
      (f.pulse p).parent = some f.root ∨ ∀ t, (f.pulse p).subscriptions t = []
  | _ => True

theorem InterestInv.step {l : Step T C} (hf : InterestInv f) (hstep : f.step l = some f') :
    InterestInv f' := by
  cases l with
  | asChild child parent =>
      simp only [Forest.step, Option.ite_none_right_eq_some, Option.some.injEq] at hstep
      obtain ⟨⟨hchild, hparent, hfinal⟩, rfl⟩ := hstep
      rw [asChild_eq hchild hparent hfinal]
      refine (hf.attach hchild hparent).modify (List.mem_append_left _ hparent) ?_ ?_ ?_ ?_ ?_ <;>
        exact fun _ => rfl
  | withSession p _ | withStrand p _ | markFinal p =>
      simp only [Forest.step, Option.ite_none_right_eq_some, Option.some.injEq] at hstep
      obtain ⟨hp, rfl⟩ := hstep
      refine hf.modify hp ?_ ?_ ?_ ?_ ?_ <;> exact fun _ => rfl
  | subscribe p pic cb =>
      simp only [Forest.step, Option.ite_none_right_eq_some, Option.some.injEq] at hstep
      obtain ⟨⟨hp, hrun⟩, rfl⟩ := hstep
      exact hf.subscribe hp hrun pic cb
  | stop p =>
      simp only [Forest.step, Option.ite_none_right_eq_some, Option.some.injEq] at hstep
      obtain ⟨⟨hp, hchilds⟩, rfl⟩ := hstep
      by_cases hrun : (f.pulse p).stopped = true
      · rw [stop_of_stopped hrun]
        exact hf
      · exact hf.stop hp hchilds (by simpa using hrun)

/-- Every stopped pulse was a direct child of the root, or never subscribed. -/
def CleanStops (f : Forest T C) : Prop :=
  ∀ c ∈ f.ids, c ≠ f.root → (f.pulse c).stopped = true →
    (f.pulse c).parent = some f.root ∨ ∀ t, (f.pulse c).subscriptions t = []

omit [DecidableEq T] in
theorem InterestInv.exact_iff (hf : InterestInv f) : InterestsExact f ↔ CleanStops f := by
  constructor
  · intro h c hc hne hstop
    by_contra hno
    rw [not_or, not_forall] at hno
    obtain ⟨hpar, t, ht⟩ := hno
    obtain ⟨sub, hsub⟩ := List.exists_mem_of_ne_nil _ ht
    have hl : Listed f c sub.sessionKey t :=
      (hf.listed c _ t).mpr ⟨hc, hne, ⟨sub, hsub, rfl⟩, .inr hpar⟩
    rw [((h c _ t).mp hl).2.1] at hstop
    cases hstop
  · intro h c s t
    rw [hf.listed, hf.tree.descendant_iff]
    constructor
    · rintro ⟨hc, hne, hs, hlive⟩
      refine ⟨⟨hc, hne⟩, ?_, hs⟩
      by_contra hstop
      obtain ⟨sub, hsub, -⟩ := hs
      rcases h c hc hne (by simpa using hstop) with hpar | hnone
      · exact hlive.elim hstop fun hno => hno hpar
      · rw [hnone t] at hsub
        cases hsub
    · rintro ⟨⟨hc, hne⟩, hrun, hs⟩
      exact ⟨hc, hne, hs, .inl hrun⟩

omit [DecidableEq T] in
theorem CleanStops.modify (h : CleanStops f) {p : PulseId} {g : Pulse T C → Pulse T C}
    (hparent : ∀ o, (g o).parent = o.parent) (hstopped : ∀ o, (g o).stopped = o.stopped)
    (hsubs : p ≠ f.root → (f.pulse p).stopped = true → ∀ o, (g o).subscriptions = o.subscriptions) :
    CleanStops (f.modify p g) := by
  intro c hc hne hstop
  rw [f.modify_same p g Pulse.stopped hstopped] at hstop
  rw [f.modify_same p g Pulse.parent hparent, root_modify]
  refine (h c hc hne hstop).imp_right fun hnone t => ?_
  rw [pulse_modify]
  split
  · next hcp =>
      subst hcp
      rw [hsubs hne hstop]
      exact hnone t
  · exact hnone t

omit [DecidableEq T] in
theorem CleanStops.attach (h : CleanStops f) (hf : Tree f) {child : PulseId}
    (hchild : child ∉ f.ids) (parent : PulseId) : CleanStops (f.attach child parent) := by
  intro c hc hne hstop
  rw [f.attach_same child parent Pulse.stopped fun _ => rfl] at hstop
  have hcc : c ≠ child := by
    rintro rfl
    rw [hf.fresh c hchild] at hstop
    cases hstop
  have hc : c ∈ f.ids := by simpa [Forest.attach, hcc] using hc
  rw [f.pulse_attach_of_ne parent hcc]
  exact h c hc hne hstop

/-- The pulse that is stopped is a direct child, or never subscribed. -/
theorem CleanStops.stop (h : CleanStops f) (hf : Tree f) {p : PulseId} (hp : p ∈ f.ids)
    (hchilds : (f.pulse p).childs = ∅) (hrun : (f.pulse p).stopped = false)
    (hl : StopsShallow f (.stop p)) : CleanStops (f.stop p).state := by
  intro c hc hne hstop
  rw [ids_stop hf hp hchilds hrun] at hc
  rw [root_stop hf hp hchilds hrun] at hne ⊢
  rw [stopped_stop hf hp hchilds hrun] at hstop
  rw [stop_same hf hp hchilds hrun Pulse.parent (fun _ _ => rfl) (fun _ _ => rfl)
      (fun _ _ => rfl),
    stop_same hf hp hchilds hrun Pulse.subscriptions (fun _ _ => rfl) (fun _ _ => rfl)
      fun _ _ => rfl]
  split at hstop
  · next hcp =>
      subst hcp
      rcases hl with hl | hl | hl | hl
      · rw [hrun] at hl
        cases hl
      · obtain ⟨q, -, hq⟩ := hf.parent_mem hp hne
        rw [hl] at hq
        cases hq
      · exact .inl hl
      · exact .inr hl
  · exact h c hc hne hstop

theorem CleanStops.step {l : Step T C} (hf : InterestInv f) (h : CleanStops f)
    (hl : StopsShallow f l) (hstep : f.step l = some f') : CleanStops f' := by
  cases l with
  | asChild child parent =>
      simp only [Forest.step, Option.ite_none_right_eq_some, Option.some.injEq] at hstep
      obtain ⟨⟨hchild, hparent, hfinal⟩, rfl⟩ := hstep
      rw [asChild_eq hchild hparent hfinal]
      exact (h.attach hf.tree hchild parent).modify (fun _ => rfl) (fun _ => rfl) (fun _ _ _ => rfl)
  | withSession p _ | withStrand p _ | markFinal p =>
      simp only [Forest.step, Option.ite_none_right_eq_some, Option.some.injEq] at hstep
      obtain ⟨-, rfl⟩ := hstep
      exact h.modify (fun _ => rfl) (fun _ => rfl) (fun _ _ _ => rfl)
  | subscribe p pic cb =>
      simp only [Forest.step, Option.ite_none_right_eq_some, Option.some.injEq] at hstep
      obtain ⟨⟨hp, hrun⟩, rfl⟩ := hstep
      have hpush : ∀ sub, CleanStops (f.modify p (Pulse.pushSubscription pic sub)) := fun sub =>
        h.modify (fun _ => rfl) (fun _ => rfl) fun _ hstop => by (rw [hrun] at hstop; cases hstop)
      rw [subscribe_eq hf.tree hp]
      dsimp only
      split
      · exact hpush _
      · refine CleanStops.modify (CleanStops.modify (hpush _) ?_ ?_ ?_) ?_ ?_ ?_ <;> intros <;> rfl
  | stop p =>
      simp only [Forest.step, Option.ite_none_right_eq_some, Option.some.injEq] at hstep
      obtain ⟨⟨hp, hchilds⟩, rfl⟩ := hstep
      by_cases hrun : (f.pulse p).stopped = true
      · rw [stop_of_stopped hrun]
        exact h
      exact h.stop hf.tree hp hchilds (by simpa using hrun) hl

/-- A `stop` that is not shallow leaves an interest behind. -/
theorem not_interestsExact_of_step {l : Step T C} (hf : InterestInv f) (hl : ¬ StopsShallow f l)
    (hstep : f.step l = some f') : ¬ InterestsExact f' := by
  cases l with
  | stop p =>
      rw [(hf.step hstep).exact_iff]
      simp only [Forest.step, Option.ite_none_right_eq_some, Option.some.injEq] at hstep
      obtain ⟨⟨hp, hchilds⟩, rfl⟩ := hstep
      simp only [StopsShallow, not_or] at hl
      obtain ⟨hrun, hnone, hdeep, hsubs⟩ := hl
      have hrun : (f.pulse p).stopped = false := by simpa using hrun
      have hpr : p ≠ f.root := by
        rintro rfl
        exact hnone hf.tree.parent_root
      intro h
      have := h p (by rwa [ids_stop hf.tree hp hchilds hrun])
        (by rwa [root_stop hf.tree hp hchilds hrun])
        (by rw [stopped_stop hf.tree hp hchilds hrun, if_pos rfl])
      rw [root_stop hf.tree hp hchilds hrun,
        stop_same hf.tree hp hchilds hrun Pulse.parent (fun _ _ => rfl) (fun _ _ => rfl)
          (fun _ _ => rfl),
        stop_same hf.tree hp hchilds hrun Pulse.subscriptions (fun _ _ => rfl) (fun _ _ => rfl)
          fun _ _ => rfl] at this
      exact this.elim hdeep hsubs
  | asChild child parent => exact absurd trivial hl
  | withSession p ss => exact absurd trivial hl
  | withStrand p key => exact absurd trivial hl
  | markFinal p => exact absurd trivial hl
  | subscribe p pic cb => exact absurd trivial hl

/-- **The root's interests are exact** in every state of a run, whatever the
tree, the sessions and the subscriptions, if and only if every pulse that is
stopped is the root, a direct child of the root, or never subscribed. -/
theorem interestsExact_iff_stopsShallow (root : PulseId) (ls : List (Step T C)) {f : Forest T C}
    (hrun : runSteps step (new root : Forest T C) ls = some f) :
    Always step InterestsExact (new root : Forest T C) ls ↔
      Along step StopsShallow (new root : Forest T C) ls := by
  refine always_iff_along (I := fun f => InterestInv f ∧ CleanStops f) ?_ ?_ ?_ ?_ hrun
  · intro f hf
    exact hf.1.exact_iff.mpr hf.2
  · intro f l f' hf hl hstep
    exact ⟨hf.1.step hstep, hf.2.step hf.1 hl hstep⟩
  · intro f l f' hf hl hstep
    exact not_interestsExact_of_step hf.1 hl hstep
  · refine ⟨interestInv_new root, ?_⟩
    intro c _ _ hstop
    cases hstop

/-- A root 1 with a child 2 and a grandchild 3 that subscribes and stops. -/
def stoppedGrandchild : List (Step ℕ Unit) :=
  [.asChild 2 1, .asChild 3 2, .subscribe 3 11 (), .stop 3]

/-- The root still lists the stopped grandchild. -/
theorem stopped_grandchild_listed :
    ∃ f, runSteps step (new 1 : Forest ℕ Unit) stoppedGrandchild = some f ∧
      Listed f 3 0 11 ∧ (f.pulse 3).stopped = true ∧ ¬ InterestsExact f := by
  refine ⟨_, rfl, by decide, rfl, fun h => ?_⟩
  exact absurd ((h 3 0 11).mp (by decide)).2.1 (by decide)

/-- The same with the children stopped from below, the grandchild without a
subscription. -/
def stoppedChild : List (Step ℕ Unit) :=
  [.asChild 2 1, .asChild 3 2, .subscribe 2 11 (), .stop 3, .stop 2]

theorem interestsExact_stoppedChild :
    (∃ f, runSteps step (new 1 : Forest ℕ Unit) stoppedChild = some f ∧
      (f.pulse 2).stopped = true ∧ ¬ Listed f 2 0 11) ∧
    Always step InterestsExact (new 1 : Forest ℕ Unit) stoppedChild := by
  refine ⟨⟨_, rfl, rfl, by decide⟩, (interestsExact_iff_stopsShallow 1 stoppedChild rfl).mpr ?_⟩
  refine ⟨trivial, fun f₁ h₁ => ⟨trivial, fun f₂ h₂ => ⟨trivial, fun f₃ h₃ => ?_⟩⟩⟩
  obtain rfl := Option.some.inj h₁
  obtain rfl := Option.some.inj h₂
  obtain rfl := Option.some.inj h₃
  refine ⟨.inr (.inr (.inr fun t => rfl)), fun f₄ h₄ => ⟨?_, fun _ _ => trivial⟩⟩
  obtain rfl := Option.some.inj h₄
  exact .inr (.inr (.inl rfl))

end Forest

end Play
