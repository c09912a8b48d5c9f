/-
Play/Reconnect.lean

The services of a front and the connection to the back.

`lobby_runner` and `room_runner` each keep one pulse under the client pulse of
the app.  When the connection is established they throw the pulse away and make
another one, which subscribes to what the back sends, and to the next
established connection, so that a lost connection repairs itself.

The pulse that hears of the connection has no session.  A callback of such a
pulse is called without one, so the new pulse is set up with no session either,
and the same happens at every connection.  On the one hand the repair works:
whatever was subscribed to is heard once by each service, over any number of
connections, and no pulse is left behind.  On the other hand the pulse of a
service never has a session, and without it nothing can be sent to the back
(`heard_without_session`).

A destroyed pulse gives its address back, and the next one is often made at the
same address.  `destroy` therefore takes the pulse out of the tree.  A handler
is a single step: it runs to its end before anything else happens under the
client pulse.  The services are not stopped: `on_stop` is no step.
-/
import Play.Chains
import Play.Subscriber

namespace Play

namespace Forest

section

variable {T C : Type} [DecidableEq T] {f f' : Forest T C} {p : PulseId}

/-! ### Trees of one level -/

/-- `~pulse`: the pulse is stopped, and there is no object at its address. -/
def destroy (f : Forest T C) (p : PulseId) : Forest T C :=
  let f := (f.stop p).state
  { f with ids := f.ids.erase p, pulse := Function.update f.pulse p {} }

omit [DecidableEq T] in
/-- All pulses run, and all but the root are its children. -/
structure Flat (f : Forest T C) : Prop where
  inv : InterestInv f
  running : ∀ c ∈ f.ids, (f.pulse c).stopped = false
  parent : ∀ c ∈ f.ids, c ≠ f.root → (f.pulse c).parent = some f.root
  childs : ∀ c ∈ f.ids, c ≠ f.root → (f.pulse c).childs = ∅
  free : (f.pulse f.root).isFinal = false

/-- The root alone, with one subscription. -/
theorem flat_new (root : PulseId) (t : T) (cb : C) :
    Flat ((new root).subscribe root t cb) ∧ ((new root).subscribe root t cb).root = root ∧
      ((new root).subscribe root t cb).ids = [root] ∧
      ((new root).subscribe root t cb).pulse root
        = ({} : Pulse T C).pushSubscription t ⟨0, cb⟩ := by
  have hmem : root ∈ (new root : Forest T C).ids := List.mem_singleton_self root
  have hinv := (interestInv_new root).subscribe hmem rfl t cb
  have heq := subscribe_eq (tree_new root) hmem t cb
  dsimp only at heq
  rw [if_pos (show root = (new root : Forest T C).root from rfl)] at heq
  rw [heq] at hinv ⊢
  have hself := pulse_modify_self (new root) root (Pulse.pushSubscription t ⟨0, cb⟩)
  refine ⟨⟨hinv, fun c hc => ?_, fun c hc hne => ?_, fun c hc hne => ?_, ?_⟩, rfl, rfl, hself⟩
  · rw [List.mem_singleton.mp hc]
    exact congrArg Pulse.stopped hself
  · exact absurd (List.mem_singleton.mp hc) hne
  · exact absurd (List.mem_singleton.mp hc) hne
  · exact congrArg Pulse.isFinal hself

omit [DecidableEq T] in
/-- A pulse that is set up under the root. -/
theorem Flat.chained (hf : Flat f) {o : Pulse T C} (hc : Chained f f' p f.root o)
    (hp : p ∉ f.ids) (hstopped : o.stopped = false) (hparent : o.parent = some f.root)
    (hchilds : o.childs = ∅) : Flat f' := by
  obtain ⟨si, hself⟩ := hc.self
  have hroot : f.root ≠ p := fun e => hp (e ▸ hf.inv.tree.root_mem)
  have hold : ∀ c ∈ f'.ids, c ≠ p → c ∈ f.ids := by
    intro c hmem hcp
    rw [hc.ids, List.mem_append, List.mem_singleton] at hmem
    exact hmem.resolve_right hcp
  refine ⟨hc.inv, fun c hmem => ?_, fun c hmem hne => ?_, fun c hmem hne => ?_, ?_⟩
  · by_cases hcp : c = p
    · rw [hcp, hself]
      exact hstopped
    · obtain ⟨is, his⟩ := hc.others c hcp
      rw [his]
      exact hf.running c (hold c hmem hcp)
  · rw [hc.root] at hne ⊢
    by_cases hcp : c = p
    · rw [hcp, hself]
      exact hparent
    · obtain ⟨is, his⟩ := hc.others c hcp
      rw [his]
      exact hf.parent c (hold c hmem hcp) hne
  · rw [hc.root] at hne
    by_cases hcp : c = p
    · rw [hcp, hself]
      exact hchilds
    · obtain ⟨is, his⟩ := hc.others c hcp
      rw [his]
      dsimp only
      rw [if_neg hne]
      exact hf.childs c (hold c hmem hcp) hne
  · obtain ⟨is, his⟩ := hc.others f.root hroot
    rw [hc.root, his]
    exact hf.free

/-- What a destroyed pulse leaves: the root forgets it, and the others are as
they were. -/
theorem destroy_spec (hf : Flat f) (hp : p ∈ f.ids) (hne : p ≠ f.root) :
    (f.destroy p).root = f.root ∧ (f.destroy p).ids = f.ids.erase p ∧
      (f.destroy p).pulse p = {} ∧
      (∀ c, c ≠ p → c ≠ f.root → (f.destroy p).pulse c = f.pulse c) ∧
      (∃ is, (f.destroy p).pulse f.root = { f.pulse f.root with
        childs := (f.pulse f.root).childs.erase p, interests := is }) ∧
      ∀ c s t, Listed (f.destroy p) c s t ↔ Listed f c s t ∧ c ≠ p := by
  have hchilds := hf.childs p hp hne
  have hrun := hf.running p hp
  have hroot := root_stop hf.inv.tree hp hchilds hrun
  have hids := ids_stop hf.inv.tree hp hchilds hrun
  have hlisted := listed_stop hf.inv hp hchilds hrun
  have hold : ∀ c, c ≠ p → (f.destroy p).pulse c = (f.stop p).state.pulse c := fun c hc =>
    Function.update_of_ne hc _ _
  have hstop : (∃ is, (f.stop p).state.pulse f.root = { f.pulse f.root with
        childs := (f.pulse f.root).childs.erase p, interests := is }) ∧
      ∀ c, c ≠ p → c ≠ f.root → (f.stop p).state.pulse c = f.pulse c := by
    rcases stop_cases hf.inv.tree hp hchilds hrun with ⟨hpar, -⟩ | ⟨q, -, hpar, lose, hs, hlose⟩
    · rw [hf.parent p hp hne] at hpar
      cases hpar
    obtain rfl : f.root = q := Option.some.inj ((hf.parent p hp hne).symm.trans hpar)
    rcases hlose with ⟨-, rfl⟩ | ⟨h, -⟩
    · rw [hs]
      refine ⟨⟨(((f.pulse f.root).eraseChild p).loseInterests p
        (f.pulse p).selfInterests).interests, ?_⟩, fun c hcp hcr => ?_⟩
      · rw [pulse_modify_self, pulse_modify_self, pulse_modify_of_ne _ p _ hne.symm]
        rfl
      · rw [pulse_modify_of_ne _ f.root _ hcr, pulse_modify_of_ne _ f.root _ hcr,
          pulse_modify_of_ne _ p _ hcp]
    · exact absurd rfl h
  obtain ⟨⟨is, his⟩, hsame⟩ := hstop
  refine ⟨hroot, ?_, Function.update_self .., fun c hcp hcr => ?_, ⟨is, ?_⟩, fun c s t => ?_⟩
  · show (f.stop p).state.ids.erase p = _
    rw [hids]
  · rw [hold c hcp]
    exact hsame c hcp hcr
  · rw [hold f.root hne.symm]
    exact his
  · have hkept : Listed (f.destroy p) c s t ↔ Listed (f.stop p).state c s t := by
      rw [Listed, Listed]
      show c ∈ ((f.destroy p).pulse (f.stop p).state.root).interests (s, t) ↔ _
      rw [hold _ (hroot ▸ hne.symm)]
    rw [hkept, hlisted, hf.parent p hp hne]
    simp only [and_true, ne_eq]

theorem Flat.destroy (hf : Flat f) (hp : p ∈ f.ids) (hne : p ≠ f.root) : Flat (f.destroy p) := by
  obtain ⟨hroot, hids, hgone, hsame, ⟨is, his⟩, hlisted⟩ := destroy_spec hf hp hne
  have hnodup : (f.destroy p).ids.Nodup := hids ▸ hf.inv.tree.nodup.erase p
  have hmem : ∀ c, c ∈ (f.destroy p).ids ↔ c ≠ p ∧ c ∈ f.ids := fun c => by
    rw [hids, hf.inv.tree.nodup.mem_erase_iff]
  have hroot_mem : f.root ∈ (f.destroy p).ids :=
    (hmem f.root).mpr ⟨hne.symm, hf.inv.tree.root_mem⟩
  have hparent : ∀ c ∈ (f.destroy p).ids, c ≠ f.root →
      ((f.destroy p).pulse c).parent = some f.root := by
    intro c hc hcr
    obtain ⟨hcp, hc⟩ := (hmem c).mp hc
    rw [hsame c hcp hcr]
    exact hf.parent c hc hcr
  have htree : Tree (f.destroy p) := by
    refine ⟨hroot ▸ hroot_mem, hnodup, ?_, fun c hc => ?_, fun c => if c = f.root then 0 else 1,
      fun c hc => ⟨?_, fun hcr => ⟨f.root, hroot_mem, hparent c hc (hroot ▸ hcr), ?_⟩⟩⟩
    · rw [hroot, his]
      exact hf.inv.tree.parent_root
    · by_cases hcp : c = p
      · rw [hcp, hgone]
      · have hcr : c ≠ f.root := fun e => hc (e ▸ hroot_mem)
        rw [hsame c hcp hcr]
        exact hf.inv.tree.fresh c fun h => hc ((hmem c).mpr ⟨hcp, h⟩)
    · have hpos := List.length_pos_of_mem hroot_mem
      dsimp only
      split
      · exact hpos
      · next hcr =>
        -- there is another one beside the root
        have hother := List.length_pos_of_mem (hnodup.mem_erase_iff.mpr ⟨hcr, hc⟩)
        rw [List.length_erase_of_mem hroot_mem] at hother
        omega
    · rw [hroot] at hcr
      dsimp only
      rw [if_pos rfl, if_neg hcr]
      exact Nat.one_pos
  refine ⟨⟨htree, fun c hc hcr s t => ?_, fun c s t => ?_⟩, fun c hc => ?_,
    fun c hc hcr => hroot ▸ hparent c hc (hroot ▸ hcr), fun c hc hcr => ?_, ?_⟩
  · rw [hroot] at hcr
    obtain ⟨hcp, hc⟩ := (hmem c).mp hc
    rw [Subscribed, hsame c hcp hcr]
    exact hf.inv.kept c hc hcr s t
  · rw [hlisted, hf.inv.listed, hmem, hroot]
    constructor
    · rintro ⟨⟨hc, hcr, hsub, hlive⟩, hcp⟩
      rw [Subscribed, hsame c hcp hcr]
      exact ⟨⟨hcp, hc⟩, hcr, hsub, hlive⟩
    · rintro ⟨⟨hcp, hc⟩, hcr, hsub, hlive⟩
      rw [Subscribed, hsame c hcp hcr] at hsub
      rw [hsame c hcp hcr] at hlive
      exact ⟨⟨hc, hcr, hsub, hlive⟩, hcp⟩
  · obtain ⟨hcp, hc⟩ := (hmem c).mp hc
    by_cases hcr : c = f.root
    · rw [hcr, his]
      exact hf.running f.root hf.inv.tree.root_mem
    · rw [hsame c hcp hcr]
      exact hf.running c hc
  · rw [hroot] at hcr
    obtain ⟨hcp, hc⟩ := (hmem c).mp hc
    rw [hsame c hcp hcr]
    exact hf.childs c hc hcr
  · rw [hroot, his]
    exact hf.free

/-! ### What the owner of a pulse is called with -/

/-- The calls for an owner, of callbacks that are named by their owner and
their topic. -/
def callsOf {I F : Type} [DecidableEq I] (i : I) (qs : List (Posted (I × T) F)) :
    List (Posted (I × T) F) :=
  qs.filter fun q => q.sub.cb.1 = i

variable {I F : Type} [DecidableEq I] {i : I} {f : Forest T (I × T)} {ts : List T}

omit [DecidableEq T] in
theorem callsOf_dispatchSelf_of_ne {c : PulseId} (key : SessionKey) (t : T) (frame : F) (b : Bool)
    (hc : ∀ sub ∈ (f.pulse c).subscriptions t, sub.cb.1 ≠ i) :
    callsOf i (f.dispatchSelf c key t frame b) = [] := by
  apply List.filter_eq_nil_iff.mpr
  intro q hq
  obtain ⟨sub, hsub, rfl⟩ := List.mem_map.mp hq
  rw [decide_eq_true_eq]
  exact hc sub (List.mem_filter.mp hsub).1

/-- **One event, one call, and no session.**  An owner with one pulse, which
has a callback for each of its topics and no session, is called once for an
event of one of the topics, without a session, and otherwise not at all. -/
theorem publish_owner (hf : InterestInv f) {se : SessionKey} (hse : se ≠ 0) (hp : p ∈ f.ids)
    (hne : p ≠ f.root) (hrun : (f.pulse p).stopped = false)
    (hsubs : ∀ t, (f.pulse p).subscriptions t = if t ∈ ts then [⟨0, (i, t)⟩] else [])
    (hothers : ∀ c, c ≠ p → ∀ t, ∀ sub ∈ (f.pulse c).subscriptions t, sub.cb.1 ≠ i) (t : T)
    (frame : F) : callsOf i (f.publish se t frame) =
      if t ∈ ts then [⟨p, (f.pulse p).strandKey, ⟨0, (i, t)⟩, 0, frame⟩] else [] := by
  -- what the pulse itself posts, when it is asked with a key
  have hself : ∀ key, f.dispatchSelf p key t frame true =
      if t ∈ ts ∧ key = 0 then [⟨p, (f.pulse p).strandKey, ⟨0, (i, t)⟩, 0, frame⟩] else [] := by
    intro key
    rw [dispatchSelf, hsubs]
    by_cases ht : t ∈ ts
    · by_cases hkey : key = 0
      · simp [ht, hkey, isTarget]
      · simp [ht, hkey, isTarget, Ne.symm hkey]
    · simp [ht]
  have hgroup : ∀ (s : Finset PulseId) (key : SessionKey),
      callsOf i (s.sort.flatMap fun c => f.dispatchSelf c key t frame true)
        = if p ∈ s then callsOf i (f.dispatchSelf p key t frame true) else [] := by
    intro s key
    have hone : (s.sort.flatMap fun c => callsOf i (f.dispatchSelf c key t frame true))
        = s.sort.flatMap fun c =>
          if c = p then callsOf i (f.dispatchSelf c key t frame true) else [] := by
      refine List.flatMap_congr fun c _ => ?_
      split
      · rfl
      · next hc => exact callsOf_dispatchSelf_of_ne key t frame true (hothers c hc t)
    rw [callsOf, List.filter_flatMap]
    refine hone.trans ?_
    rw [flatMap_ite_of_nodup (s.sort_nodup _)]
    simp only [Finset.mem_sort]
  have hlisted : p ∈ (f.pulse f.root).interests (0, t) ↔ t ∈ ts := by
    apply (hf.listed p 0 t).trans
    constructor
    · rintro ⟨-, -, ⟨sub, hsub, -⟩, -⟩
      rw [hsubs] at hsub
      by_contra ht
      rw [if_neg ht] at hsub
      cases hsub
    · intro ht
      refine ⟨hp, hne, ⟨⟨0, (i, t)⟩, ?_, rfl⟩, .inl hrun⟩
      rw [hsubs, if_pos ht]
      exact List.mem_singleton_self _
  have hnil : callsOf i ([] : List (Posted (I × T) F)) = [] := rfl
  rw [publish, dispatchLoop_root hf, if_pos hse, callsOf, List.filter_append, List.filter_append]
  change callsOf i _ ++ (callsOf i _ ++ callsOf i _) = _
  rw [callsOf_dispatchSelf_of_ne se t frame false (hothers f.root hne.symm t), hgroup, hgroup,
    hself, hself, if_neg (show ¬ (t ∈ ts ∧ se = 0) from fun h => hse h.2), hnil, ite_self,
    List.nil_append, List.append_nil]
  simp only [hlisted]
  by_cases ht : t ∈ ts
  · simp [ht, callsOf]
  · simp [ht]

omit [DecidableEq T] [DecidableEq I] in
/-- What is posted is a subscription of some pulse. -/
theorem exists_sub_of_mem_publish (hf : InterestInv f) {se : SessionKey} {t : T} {frame : F}
    {q : Posted (I × T) F} (h : q ∈ f.publish se t frame) :
    ∃ c, q.sub ∈ (f.pulse c).subscriptions t := by
  have hself : ∀ {c key b}, q ∈ f.dispatchSelf c key t frame b →
      ∃ c, q.sub ∈ (f.pulse c).subscriptions t := by
    intro c key b hq
    obtain ⟨sub, hsub, rfl⟩ := List.mem_map.mp hq
    exact ⟨c, (List.mem_filter.mp hsub).1⟩
  rw [publish, dispatchLoop_root hf] at h
  rcases List.mem_append.mp h with h | h
  · exact hself h
  rcases List.mem_append.mp h with h | h
  · obtain ⟨c, -, h⟩ := List.mem_flatMap.mp h
    exact hself h
  · split at h
    · obtain ⟨c, -, h⟩ := List.mem_flatMap.mp h
      exact hself h
    · cases h

/-- The same under the root of a flat tree, whose calls have gone through. -/
theorem Flat.of_chain {T C : Type} [DecidableEq T] {f f' : Forest T C} {p : PulseId} {k : ℕ}
    {se : SessionKey} {isFinal : Bool} {ts : List T} {cb : T → C} (hf : Flat f) (hts : ts.Nodup)
    (h : runSteps step f (chain p f.root k se isFinal ts cb) = some f') :
    p ∉ f.ids ∧ Chained f f' p f.root (Forest.chained f.root k se isFinal ts cb) ∧ Flat f' := by
  -- the address was free, or the first call would be refused
  have hp : p ∉ f.ids := by
    obtain ⟨g, hg, -⟩ := runSteps_cons_eq_some.mp h
    exact (Option.ite_none_right_eq_some.mp hg).1.1
  obtain ⟨g, hg, hc⟩ := exists_chained hf.inv hp hf.inv.tree.root_mem hf.free k se isFinal hts cb
  obtain rfl : g = f' := Option.some.inj (hg.symm.trans h)
  exact ⟨hp, hc, hf.chained hc hp rfl rfl rfl⟩

end

end Forest

/-! ### The services of a front -/

namespace Alpha

/-- What the services and the app subscribe to under the client pulse. -/
inductive BackTopic
  | established
  | closed
  | synLogin
  | synLogout
  | reqCreate
  | reqReserve
  deriving DecidableEq

/-- What the services do differently when the connection is established: the
topics that they subscribe to, and whether the pulse is final. -/
structure BackService where
  topics : List BackTopic
  isFinal : Bool
  nodup : topics.Nodup := by decide
  again : .established ∈ topics := by decide

/-- `lobby_runner::on_established_back`. -/
def lobbyRunner : BackService where
  topics := [.established, .synLogin, .synLogout]
  isFinal := false

/-- `room_runner::on_established_back`. -/
def roomRunner : BackService where
  topics := [.established, .reqCreate, .reqReserve]
  isFinal := true

/-- A callback under the client pulse: of a service, or of the app itself. -/
abbrev BackFn (ι : Type) := Option ι × BackTopic

/-- The client pulse of a front with its services: `back` is the `pulse_back_`
of each, and `heard` has the topics that it subscribed to.  `connects` counts
the calls of `connect` after the connection was lost. -/
structure Uplink (ι F : Type) where
  tree : Forest BackTopic (BackFn ι)
  back : ι → Option PulseId := fun _ => none
  heard : ι → List BackTopic := fun _ => []
  queue : List (Posted (BackFn ι) F) := []
  executed : List (Posted (BackFn ι) F) := []
  connects : ℕ := 0

namespace Uplink

variable {ι F : Type} [DecidableEq ι]

/-- `app::start`: the client pulse, which the app itself subscribes to. -/
def new (root : PulseId) : Uplink ι F where
  tree := (Forest.new root).subscribe root .closed (none, .closed)

/-- A new `pulse_back_` is set up at `p`. -/
def linkBack (strand : ι → ℕ) (s : Uplink ι F) (i : ι) (p : PulseId) (se : SessionKey)
    (isFinal : Bool) (ts : List BackTopic) : Option (Uplink ι F) :=
  let calls := Forest.chain p s.tree.root (strand i) se isFinal ts fun t => (some i, t)
  (runSteps Forest.step s.tree calls).map fun tree =>
    { s with
      tree := tree
      back := Function.update s.back i (some p)
      heard := Function.update s.heard i ts }

/-- `pulse_back_.reset()`. -/
def reset (s : Uplink ι F) (i : ι) : Uplink ι F :=
  match s.back i with
  | none => s
  | some p =>
      { s with
        tree := s.tree.destroy p
        back := Function.update s.back i none
        heard := Function.update s.heard i [] }

/-- `on_established_back` of a service. -/
def onEstablishedBack (services : ι → BackService) (strand : ι → ℕ) (s : Uplink ι F) (i : ι)
    (p : PulseId) (se : SessionKey) : Option (Uplink ι F) :=
  linkBack strand (s.reset i) i p se (services i).isFinal (services i).topics

/-- A handler leaves the queue, and runs. -/
def takeOff (s : Uplink ι F) (j : ℕ) (q : Posted (BackFn ι) F) : Uplink ι F :=
  { s with queue := s.queue.eraseIdx j, executed := s.executed ++ [q] }

/-- What happens under the client pulse; a new pulse is at the address `p`. -/
inductive Event (ι F : Type)
  /-- `on_start` of a service. -/
  | start (i : ι) (p : PulseId)
  /-- An event of the session with the back, whichever session it is. -/
  | receive (se : SessionKey) (t : BackTopic) (frame : F)
  /-- One of the handlers runs. -/
  | run (j : ℕ) (p : PulseId)

/-- The step function. -/
def step (services : ι → BackService) (strand : ι → ℕ) (s : Uplink ι F) :
    Event ι F → Option (Uplink ι F)
  | .start i p =>
      if (s.back i).isSome then none else s.linkBack strand i p 0 true [.established]
  | .receive se t frame =>
      if se = 0 then none else some { s with queue := s.queue ++ s.tree.publish se t frame }
  | .run j p =>
      (s.queue[j]?).bind fun q =>
        match q.sub.cb with
        | (some i, .established) => (s.takeOff j q).onEstablishedBack services strand i p q.se
        -- `app::on_closed_back`
        | (none, .closed) => some { s.takeOff j q with connects := s.connects + 1 }
        | _ => some (s.takeOff j q)

/-! ### What a service is called with -/

/-- The handlers of a service, executed and posted. -/
def calls (i : ι) (s : Uplink ι F) : List (Posted (BackFn ι) F) :=
  Forest.callsOf (some i) (s.executed ++ s.queue)

/-- A handler by what it was posted for. -/
def call (q : Posted (BackFn ι) F) : BackTopic × F := (q.sub.cb.2, q.frame)

/-- The handlers of a service that run `on_established_back`. -/
def repairs (i : ι) (s : Uplink ι F) : List (Posted (BackFn ι) F) :=
  s.executed.filter fun q => q.sub.cb = (some i, .established)

/-- The calls of a service that an event brings about. -/
def owed (i : ι) (s : Uplink ι F) : Event ι F → List (BackTopic × F)
  | .receive _ t frame => if t ∈ s.heard i then [(t, frame)] else []
  | _ => []

/-- Every service that was started has one pulse, which has no session, and
there are no others. -/
structure Wired (s : Uplink ι F) : Prop where
  flat : Forest.Flat s.tree
  app : ∀ t, ∀ sub ∈ (s.tree.pulse s.tree.root).subscriptions t, sub.cb.1 = none
  mem : ∀ i p, s.back i = some p → p ∈ s.tree.ids ∧ p ≠ s.tree.root
  session : ∀ i p, s.back i = some p → (s.tree.pulse p).session = 0
  hears : ∀ i p, s.back i = some p → ∀ t, (s.tree.pulse p).subscriptions t =
    if t ∈ s.heard i then [⟨0, (some i, t)⟩] else []
  only : ∀ c ∈ s.tree.ids, c ≠ s.tree.root → ∃ i, s.back i = some c
  off : ∀ i, s.back i = none → s.heard i = []
  apart : ∀ i j p, s.back i = some p → s.back j = some p → i = j

/-- Until its first repair a service waits for the connection, and from then on
it hears all its topics. -/
structure Inv (services : ι → BackService) (s : Uplink ι F) : Prop where
  wired : Wired s
  idle : ∀ i, s.back i = none → s.repairs i = []
  hearing : ∀ i p, s.back i = some p →
    s.heard i = if s.repairs i = [] then [.established] else (services i).topics
  blind : ∀ i, ∀ q ∈ s.calls i, q.se = 0

variable {services : ι → BackService} {strand : ι → ℕ} {s s' : Uplink ι F} {e : Event ι F}
variable {i : ι} {p : PulseId}

omit [DecidableEq ι] in
theorem wired_new (root : PulseId) : Wired (new root : Uplink ι F) := by
  obtain ⟨hflat, hroot, hids, hself⟩ := Forest.flat_new root BackTopic.closed
    ((none, .closed) : BackFn ι)
  refine ⟨hflat, fun t sub hsub => ?_, nofun, nofun, nofun, fun c hc hne => ?_, fun _ _ => rfl,
    nofun⟩
  · rw [new, hroot, hself] at hsub
    change sub ∈ Function.update (fun _ => []) BackTopic.closed [_] t at hsub
    by_cases ht : t = .closed
    · subst ht
      rw [Function.update_self] at hsub
      rw [List.mem_singleton.mp hsub]
    · rw [Function.update_of_ne ht] at hsub
      cases hsub
  · rw [new, hids] at hc
    rw [new, hroot] at hne
    exact absurd (List.mem_singleton.mp hc) hne

theorem inv_new (services : ι → BackService) (root : PulseId) :
    Inv services (new root : Uplink ι F) :=
  ⟨wired_new root, fun _ _ => rfl, nofun, nofun⟩

omit [DecidableEq ι] in
/-- Another pulse than that of the service has no callback of it. -/
theorem Wired.not_owner (h : s.Wired) {c : PulseId} (hc : s.back i ≠ some c) (t : BackTopic) :
    ∀ sub ∈ (s.tree.pulse c).subscriptions t, sub.cb.1 ≠ some i := by
  intro sub hsub hi
  by_cases hmem : c ∈ s.tree.ids
  · by_cases hroot : c = s.tree.root
    · rw [hroot] at hsub
      rw [h.app t sub hsub] at hi
      cases hi
    · obtain ⟨j, hj⟩ := h.only c hmem hroot
      rw [h.hears j c hj] at hsub
      split at hsub
      · rw [List.mem_singleton.mp hsub] at hi
        obtain rfl := Option.some.inj hi
        exact hc hj
      · cases hsub
  · rw [h.flat.inv.tree.fresh c hmem] at hsub
    cases hsub

/-- What is posted for a service: one handler or none, without a session. -/
theorem Wired.callsOf_publish (h : s.Wired) {se : SessionKey} (hse : se ≠ 0) (i : ι) (t : BackTopic)
    (frame : F) :
    (Forest.callsOf (some i) (s.tree.publish se t frame)).map call =
        (if t ∈ s.heard i then [(t, frame)] else []) ∧
      ∀ q ∈ Forest.callsOf (some i) (s.tree.publish se t frame), q.se = 0 := by
  rcases hi : s.back i with - | p
  · have hnil : Forest.callsOf (some i) (s.tree.publish se t frame) = [] := by
      apply List.filter_eq_nil_iff.mpr
      intro q hq
      obtain ⟨c, hc⟩ := Forest.exists_sub_of_mem_publish h.flat.inv hq
      rw [decide_eq_true_eq]
      exact h.not_owner (by rw [hi]; exact nofun) t q.sub hc
    rw [hnil, h.off i hi]
    exact ⟨rfl, fun q hq => absurd hq List.not_mem_nil⟩
  · obtain ⟨hmem, hne⟩ := h.mem i p hi
    rw [Forest.publish_owner h.flat.inv hse hmem hne (h.flat.running p hmem) (h.hears i p hi)
      (fun c hc => h.not_owner (by rw [hi]; exact fun e => hc (Option.some.inj e).symm)) t frame]
    by_cases ht : t ∈ s.heard i
    · rw [if_pos ht, if_pos ht]
      refine ⟨rfl, fun q hq => ?_⟩
      rw [List.mem_singleton.mp hq]
    · rw [if_neg ht, if_neg ht]
      exact ⟨rfl, fun q hq => absurd hq List.not_mem_nil⟩

/-! ### A pulse is thrown away, and another one made -/

/-- `pulse_back_.reset()` leaves a service without a pulse, and posts nothing. -/
theorem Wired.reset (h : s.Wired) (i : ι) :
    Wired (s.reset i) ∧ (s.reset i).back i = none ∧ (s.reset i).executed = s.executed ∧
      (s.reset i).queue = s.queue ∧
      ∀ j, j ≠ i → (s.reset i).back j = s.back j ∧ (s.reset i).heard j = s.heard j := by
  rcases hi : s.back i with - | p
  · have hsame : s.reset i = s := by rw [Uplink.reset, hi]
    rw [hsame]
    exact ⟨h, hi, rfl, rfl, fun _ _ => ⟨rfl, rfl⟩⟩
  obtain ⟨hmem, hne⟩ := h.mem i p hi
  obtain ⟨hroot, hids, -, hsame, ⟨is, his⟩, -⟩ := Forest.destroy_spec h.flat hmem hne
  have hflat := h.flat.destroy hmem hne
  have heq : s.reset i = { s with
      tree := s.tree.destroy p
      back := Function.update s.back i none
      heard := Function.update s.heard i [] } := by
    rw [Uplink.reset, hi]
  rw [heq]
  -- the pulses of the other services are still there
  have hback : ∀ {j q}, Function.update s.back i none j = some q → j ≠ i ∧ s.back j = some q := by
    intro j q hj
    by_cases hji : j = i
    · rw [hji, Function.update_self] at hj
      cases hj
    · exact ⟨hji, (Function.update_of_ne hji _ _).symm.trans hj⟩
  have hkept : ∀ {j q}, j ≠ i → s.back j = some q →
      q ≠ p ∧ (s.tree.destroy p).pulse q = s.tree.pulse q := by
    intro j q hji hj
    have hqp : q ≠ p := by
      rintro rfl
      exact hji (h.apart j i q hj hi)
    exact ⟨hqp, hsame q hqp (h.mem j q hj).2⟩
  refine ⟨⟨hflat, fun t => ?_, fun j q hj => ?_, fun j q hj => ?_, fun j q hj t => ?_,
    fun c hc hcr => ?_, fun j hj => ?_, fun j k q hj hk => ?_⟩, Function.update_self .., rfl, rfl,
    fun j hji => ⟨Function.update_of_ne hji _ _, Function.update_of_ne hji _ _⟩⟩
  · show ∀ sub ∈ ((s.tree.destroy p).pulse (s.tree.destroy p).root).subscriptions t, _
    rw [hroot, his]
    exact h.app t
  · obtain ⟨hji, hj⟩ := hback hj
    obtain ⟨hq, hqr⟩ := h.mem j q hj
    refine ⟨?_, ?_⟩
    · show q ∈ (s.tree.destroy p).ids
      rw [hids, h.flat.inv.tree.nodup.mem_erase_iff]
      exact ⟨(hkept hji hj).1, hq⟩
    · show q ≠ (s.tree.destroy p).root
      rw [hroot]
      exact hqr
  · obtain ⟨hji, hj⟩ := hback hj
    show ((s.tree.destroy p).pulse q).session = 0
    rw [(hkept hji hj).2]
    exact h.session j q hj
  · obtain ⟨hji, hj⟩ := hback hj
    show ((s.tree.destroy p).pulse q).subscriptions t
      = if t ∈ Function.update s.heard i [] j then _ else _
    rw [(hkept hji hj).2, Function.update_of_ne hji]
    exact h.hears j q hj t
  · change c ∈ (s.tree.destroy p).ids at hc
    change c ≠ (s.tree.destroy p).root at hcr
    rw [hids, h.flat.inv.tree.nodup.mem_erase_iff] at hc
    rw [hroot] at hcr
    obtain ⟨j, hj⟩ := h.only c hc.2 hcr
    have hji : j ≠ i := by
      rintro rfl
      exact hc.1 (Option.some.inj (hj.symm.trans hi))
    exact ⟨j, (Function.update_of_ne hji _ _).trans hj⟩
  · show Function.update s.heard i [] j = []
    by_cases hji : j = i
    · rw [hji, Function.update_self]
    · rw [Function.update_of_ne hji]
      exact h.off j ((Function.update_of_ne hji _ _).symm.trans hj)
  · exact h.apart j k q (hback hj).2 (hback hk).2

/-- A service without a pulse gets one. -/
theorem Wired.linkBack (h : s.Wired) (hi : s.back i = none) {isFinal : Bool} {ts : List BackTopic}
    (hts : ts.Nodup) (hs : s.linkBack strand i p 0 isFinal ts = some s') :
    Wired s' ∧ s'.back i = some p ∧ s'.heard i = ts ∧ s'.executed = s.executed ∧
      s'.queue = s.queue ∧ ∀ j, j ≠ i → s'.back j = s.back j ∧ s'.heard j = s.heard j := by
  obtain ⟨tree, htree, rfl⟩ := Option.map_eq_some_iff.mp hs
  obtain ⟨hp, hc, hflat⟩ := h.flat.of_chain hts htree
  obtain ⟨si, hself⟩ := hc.self
  have hback : ∀ {j q}, Function.update s.back i (some p) j = some q →
      j = i ∧ q = p ∨ j ≠ i ∧ s.back j = some q := by
    intro j q hj
    by_cases hji : j = i
    · rw [hji, Function.update_self] at hj
      exact .inl ⟨hji, (Option.some.inj hj).symm⟩
    · exact .inr ⟨hji, (Function.update_of_ne hji _ _).symm.trans hj⟩
  have hold : ∀ {c}, c ∈ s.tree.ids → c ≠ p ∧
      (tree.pulse c).subscriptions = (s.tree.pulse c).subscriptions ∧
      (tree.pulse c).session = (s.tree.pulse c).session := by
    intro c hmem
    have hcp : c ≠ p := fun e => hp (e ▸ hmem)
    obtain ⟨is, his⟩ := hc.others c hcp
    exact ⟨hcp, by rw [his], by rw [his]⟩
  have hids : ∀ {c}, c ∈ tree.ids ↔ c ∈ s.tree.ids ∨ c = p := by
    intro c
    rw [hc.ids, List.mem_append, List.mem_singleton]
  have hroot := h.flat.inv.tree.root_mem
  refine ⟨⟨hflat, fun t => ?_, fun j q hj => ?_, fun j q hj => ?_, fun j q hj t => ?_,
    fun c hmem hcr => ?_, fun j hj => ?_, fun j k q hj hk => ?_⟩, Function.update_self ..,
    Function.update_self .., rfl, rfl,
    fun j hji => ⟨Function.update_of_ne hji _ _, Function.update_of_ne hji _ _⟩⟩
  · show ∀ sub ∈ (tree.pulse tree.root).subscriptions t, _
    rw [hc.root, (hold hroot).2.1]
    exact h.app t
  · show q ∈ tree.ids ∧ q ≠ tree.root
    rw [hids, hc.root]
    rcases hback hj with ⟨-, rfl⟩ | ⟨-, hj⟩
    · exact ⟨.inr rfl, (hold hroot).1.symm⟩
    · exact ⟨.inl (h.mem j q hj).1, (h.mem j q hj).2⟩
  · show (tree.pulse q).session = 0
    rcases hback hj with ⟨-, rfl⟩ | ⟨-, hj⟩
    · rw [hself]
      rfl
    · rw [(hold (h.mem j q hj).1).2.2]
      exact h.session j q hj
  · show (tree.pulse q).subscriptions t = if t ∈ Function.update s.heard i ts j then _ else _
    rcases hback hj with ⟨rfl, rfl⟩ | ⟨hji, hj⟩
    · rw [hself, Function.update_self]
      rfl
    · rw [(hold (h.mem j q hj).1).2.1, Function.update_of_ne hji]
      exact h.hears j q hj t
  · change c ∈ tree.ids at hmem
    change c ≠ tree.root at hcr
    rw [hc.root] at hcr
    rcases hids.mp hmem with hmem | rfl
    · obtain ⟨j, hj⟩ := h.only c hmem hcr
      have hji : j ≠ i := by
        rintro rfl
        rw [hi] at hj
        cases hj
      exact ⟨j, (Function.update_of_ne hji _ _).trans hj⟩
    · exact ⟨i, Function.update_self ..⟩
  · show Function.update s.heard i ts j = []
    by_cases hji : j = i
    · change Function.update s.back i (some p) j = none at hj
      rw [hji, Function.update_self] at hj
      cases hj
    · rw [Function.update_of_ne hji]
      exact h.off j ((Function.update_of_ne hji _ _).symm.trans hj)
  · rcases hback hj with ⟨rfl, rfl⟩ | ⟨-, hj'⟩
    · rcases hback hk with ⟨rfl, -⟩ | ⟨-, hk'⟩
      · rfl
      · exact absurd (h.mem k q hk').1 hp
    · rcases hback hk with ⟨rfl, rfl⟩ | ⟨-, hk'⟩
      · exact absurd (h.mem j q hj').1 hp
      · exact h.apart j k q hj' hk'

/-! ### One event -/

omit [DecidableEq ι] in
theorem Wired.of_eq (h : s.Wired) (htree : s'.tree = s.tree) (hback : s'.back = s.back)
    (hheard : s'.heard = s.heard) : Wired s' := by
  obtain ⟨tree, back, heard, queue, executed, connects⟩ := s'
  obtain rfl : tree = s.tree := htree
  obtain rfl : back = s.back := hback
  obtain rfl : heard = s.heard := hheard
  exact ⟨h.flat, h.app, h.mem, h.session, h.hears, h.only, h.off, h.apart⟩

theorem Inv.of_eq (h : Inv services s) (htree : s'.tree = s.tree) (hback : s'.back = s.back)
    (hheard : s'.heard = s.heard) (hrepairs : ∀ i, s'.repairs i = s.repairs i)
    (hblind : ∀ i, ∀ q ∈ s'.calls i, q.se = 0) : Inv services s' := by
  refine ⟨h.wired.of_eq htree hback hheard, fun i hi => ?_, fun i p hi => ?_, hblind⟩
  · rw [hback] at hi
    rw [hrepairs]
    exact h.idle i hi
  · rw [hback] at hi
    rw [hheard, hrepairs]
    exact h.hearing i p hi

theorem calls_of_eq (hex : s'.executed = s.executed) (hqu : s'.queue = s.queue) (i : ι) :
    s'.calls i = s.calls i := by
  rw [calls, calls, hex, hqu]

theorem repairs_of_eq (hex : s'.executed = s.executed) (i : ι) : s'.repairs i = s.repairs i := by
  rw [repairs, repairs, hex]

/-- A handler that runs has been posted. -/
theorem calls_takeOff {j : ℕ} {q : Posted (BackFn ι) F} (hq : s.queue[j]? = some q) (i : ι) :
    ((s.takeOff j q).calls i).Perm (s.calls i) := by
  obtain ⟨hj, rfl⟩ := List.getElem?_eq_some_iff.mp hq
  apply List.Perm.filter
  show (s.executed ++ [s.queue[j]] ++ s.queue.eraseIdx j).Perm _
  rw [List.append_assoc]
  exact (List.getElem_cons_eraseIdx_perm hj).append_left s.executed

theorem repairs_takeOff (s : Uplink ι F) (j : ℕ) (q : Posted (BackFn ι) F) (i : ι) :
    (s.takeOff j q).repairs i =
      s.repairs i ++ if q.sub.cb = (some i, .established) then [q] else [] := by
  show (s.executed ++ [q]).filter _ = _
  rw [List.filter_append, List.filter_singleton]
  by_cases h : q.sub.cb = (some i, .established)
  · simp [h, repairs]
  · simp [h, repairs]

/-- **The repair.**  The handler throws the pulse away and makes another one,
which again has no session. -/
theorem Inv.onEstablishedBack (h : Inv services s) {j : ℕ} {q : Posted (BackFn ι) F}
    (hq : s.queue[j]? = some q) (hcb : q.sub.cb = (some i, .established))
    (hs : (s.takeOff j q).onEstablishedBack services strand i p q.se = some s') :
    Inv services s' ∧ ∀ k, s'.calls k = (s.takeOff j q).calls k := by
  have hblind : ∀ k, ∀ q' ∈ (s.takeOff j q).calls k, q'.se = 0 := fun k q' hq' =>
    h.blind k q' ((calls_takeOff hq k).mem_iff.mp hq')
  -- the handler was posted for a pulse without a session
  have hse : q.se = 0 := by
    apply h.blind i
    refine List.mem_filter.mpr ⟨List.mem_append_right _ (List.mem_of_getElem? hq), ?_⟩
    rw [hcb]
    exact decide_eq_true rfl
  rw [Uplink.onEstablishedBack, hse] at hs
  have htaken : (s.takeOff j q).Wired := h.wired.of_eq rfl rfl rfl
  obtain ⟨hreset, hnone, hex, hqu, hothers⟩ := htaken.reset i
  obtain ⟨hwired, hsome, hheard, hex', hqu', hothers'⟩ :=
    hreset.linkBack hnone (services i).nodup hs
  have hcalls := calls_of_eq (hex'.trans hex) (hqu'.trans hqu)
  have hrepairs : ∀ k, s'.repairs k =
      s.repairs k ++ if q.sub.cb = (some k, .established) then [q] else [] := fun k =>
    (repairs_of_eq (hex'.trans hex) k).trans (repairs_takeOff s j q k)
  have hback : ∀ k, k ≠ i → s'.back k = s.back k ∧ s'.heard k = s.heard k ∧
      s'.repairs k = s.repairs k := by
    intro k hk
    refine ⟨(hothers' k hk).1.trans (hothers k hk).1, (hothers' k hk).2.trans (hothers k hk).2, ?_⟩
    rw [hrepairs, hcb, if_neg, List.append_nil]
    rintro heq
    exact hk (Option.some.inj (congrArg Prod.fst heq)).symm
  refine ⟨⟨hwired, fun k hk => ?_, fun k r hk => ?_, fun k q' hq' => ?_⟩, hcalls⟩
  · have hki : k ≠ i := by
      rintro rfl
      rw [hsome] at hk
      cases hk
    rw [(hback k hki).2.2]
    exact h.idle k ((hback k hki).1.symm.trans hk)
  · by_cases hki : k = i
    · subst hki
      rw [hheard, hrepairs, if_pos hcb, if_neg]
      exact List.append_ne_nil_of_right_ne_nil _ (List.cons_ne_nil _ _)
    · rw [(hback k hki).2.1, (hback k hki).2.2]
      exact h.hearing k r ((hback k hki).1.symm.trans hk)
  · rw [hcalls] at hq'
    exact hblind k q' hq'

/-- What one event does: the calls that it owes are posted, and the services
stay as they should be. -/
theorem Inv.step (h : Inv services s) (hs : s.step services strand e = some s') :
    Inv services s' ∧ ∀ i, ((s'.calls i).map call).Perm ((s.calls i).map call ++ owed i s e) := by
  cases e with
  | start i p =>
      obtain ⟨hi, hs⟩ := Option.ite_none_left_eq_some.mp hs
      have hi := Option.not_isSome_iff_eq_none.mp hi
      obtain ⟨hwired, hsome, hheard, hex, hqu, hothers⟩ :=
        h.wired.linkBack hi (List.nodup_singleton _) hs
      have hcalls := calls_of_eq hex hqu
      refine ⟨⟨hwired, fun k hk => ?_, fun k r hk => ?_, fun k q hq => ?_⟩, fun k => ?_⟩
      · have hki : k ≠ i := by
          rintro rfl
          rw [hsome] at hk
          cases hk
        rw [repairs_of_eq hex]
        exact h.idle k ((hothers k hki).1.symm.trans hk)
      · rw [repairs_of_eq hex]
        by_cases hki : k = i
        · subst hki
          rw [hheard, if_pos (h.idle k hi)]
        · rw [(hothers k hki).2]
          exact h.hearing k r ((hothers k hki).1.symm.trans hk)
      · rw [hcalls] at hq
        exact h.blind k q hq
      · rw [hcalls]
        show List.Perm _ (_ ++ [])
        rw [List.append_nil]
  | receive se t frame =>
      obtain ⟨hse, hs⟩ := Option.ite_none_left_eq_some.mp hs
      obtain rfl := Option.some.inj hs
      have hcalls : ∀ k, calls k { s with queue := s.queue ++ s.tree.publish se t frame } =
          s.calls k ++ Forest.callsOf (some k) (s.tree.publish se t frame) := by
        intro k
        rw [calls, ← List.append_assoc]
        exact List.filter_append _ _
      refine ⟨h.of_eq rfl rfl rfl (fun _ => rfl) fun k q hq => ?_, fun k => ?_⟩
      · rw [hcalls] at hq
        rcases List.mem_append.mp hq with hq | hq
        · exact h.blind k q hq
        · exact (h.wired.callsOf_publish hse k t frame).2 q hq
      · rw [hcalls, List.map_append, (h.wired.callsOf_publish hse k t frame).1]
        rfl
  | run j p =>
      obtain ⟨q, hq, hs⟩ := Option.bind_eq_some_iff.mp hs
      have hperm : ∀ k, (((s.takeOff j q).calls k).map call).Perm
          ((s.calls k).map call ++ owed k s (.run j p)) := by
        intro k
        show List.Perm _ (_ ++ [])
        rw [List.append_nil]
        exact (calls_takeOff hq k).map call
      by_cases hcb : ∃ i, q.sub.cb = (some i, .established)
      · obtain ⟨i, hcb⟩ := hcb
        rw [hcb] at hs
        obtain ⟨hinv, hcalls⟩ := h.onEstablishedBack hq hcb hs
        refine ⟨hinv, fun k => ?_⟩
        rw [hcalls]
        exact hperm k
      · -- nothing but the log and the counter changes
        obtain ⟨n, rfl⟩ : ∃ n, s' = { s.takeOff j q with connects := n } := by
          dsimp only at hs
          split at hs
          · next i heq => exact absurd ⟨i, heq⟩ hcb
          · exact ⟨_, (Option.some.inj hs).symm⟩
          · exact ⟨_, (Option.some.inj hs).symm⟩
        refine ⟨h.of_eq rfl rfl rfl (fun k => ?_) fun k q' hq' => ?_, hperm⟩
        · refine (repairs_takeOff s j q k).trans ?_
          rw [if_neg fun heq => hcb ⟨k, heq⟩, List.append_nil]
        · exact h.blind k q' ((calls_takeOff hq k).mem_iff.mp hq')

/-- **The connection is repaired, but without its session.**  In every run of
the services of a front, over any number of connections and with the handlers
in any order, each service hears what it subscribed to when it arrived, once:
the next established connection from its start on, and all its topics from its
first repair on.  Its pulse is the only one that it has in the tree, and
neither that pulse nor any of its calls has a session. -/
theorem heard_without_session (services : ι → BackService) (strand : ι → ℕ) (root : PulseId)
    {es : List (Event ι F)} (hrun : runSteps (step services strand) (new root) es = some s)
    (i : ι) :
    ((s.calls i).map call).Perm (emitted (step services strand) (owed i) (new root) es) ∧
      (∀ q ∈ s.calls i, q.se = 0) ∧
      (∀ p, s.back i = some p → p ∈ s.tree.ids ∧ (s.tree.pulse p).session = 0 ∧
        .established ∈ s.heard i ∧ (s.repairs i ≠ [] → s.heard i = (services i).topics)) ∧
      ∀ c ∈ s.tree.ids, c ≠ s.tree.root → ∃ j, s.back j = some c := by
  have hinv := inv_new services (F := F) root
  have hend : Inv services s := runSteps_invariant (fun hs h => (Inv.step hs h).1) hinv hrun
  have hcalls := perm_emitted (fun hs h => ⟨(Inv.step hs h).1, (Inv.step hs h).2 i⟩) hinv hrun
  refine ⟨hcalls, hend.blind i, fun p hp => ?_, hend.wired.only⟩
  have hheard := hend.hearing i p hp
  refine ⟨(hend.wired.mem i p hp).1, hend.wired.session i p hp, ?_, fun hne => ?_⟩
  · rw [hheard]
    split
    · exact List.mem_singleton_self _
    · exact (services i).again
  · rw [hheard, if_neg hne]

/-- The lobby starts, and is connected; the back tells of a login; the
connection is lost and made again. -/
def lostAndRepaired : List (Event Unit String) :=
  [.start () 2, .receive 100 .established "", .run 0 2, .receive 100 .synLogin "ann",
    .receive 100 .closed "", .run 1 0, .receive 200 .established "", .run 1 2,
    .receive 200 .synLogin "bob"]

theorem heard_lostAndRepaired :
    let step := step (F := String) (fun _ : Unit => lobbyRunner) fun _ => 7
    ∃ s, runSteps step (new 1) lostAndRepaired = some s ∧ s.connects = 1 ∧
      ((s.calls ()).map call).Perm (emitted step (owed ()) (new 1) lostAndRepaired) ∧
      (s.calls ()).map call
        = [(.established, ""), (.established, ""), (.synLogin, "ann"), (.synLogin, "bob")] := by
  intro step
  have hrun : (runSteps step (new 1) lostAndRepaired).map
        (fun s => (s.connects, (s.calls ()).map call))
      = some (1, [(.established, ""), (.established, ""), (.synLogin, "ann"),
          (.synLogin, "bob")]) := by
    decide +kernel
  obtain ⟨s, hs, heq⟩ := Option.map_eq_some_iff.mp hrun
  exact ⟨s, hs, congrArg Prod.fst heq, (heard_without_session _ _ 1 hs ()).1,
    congrArg Prod.snd heq⟩

end Uplink

end Alpha

end Play
