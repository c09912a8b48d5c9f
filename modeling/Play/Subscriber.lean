/-
Play/Subscriber.lean

What one subscriber sees of the stack.

A pulse with one subscription, to one topic, is in one group of the root or in
none, whatever the other pulses do: `publish` posts one handler for it if the
topic is its own and none otherwise (`publish_holder`).  As long as the calls
on the tree spare the pulse this is so for every frame that the tree is told
about, and the handlers of the pulse are all on one strand.  With what the
stack promises (Stack.lean) the subscriber is called with the frames of its
topic, once each and in the order in which the peer sent them
(`called_once_in_order`).
-/
import Play.Stack

namespace Play

namespace Forest

variable {T C F : Type} [DecidableEq T]
variable {f f' : Forest T C} {se : SessionKey} {p : PulseId} {pic : T} {k : ℕ}

/-- The pulse `p` is attached and running, on the strand `k`, and has one
subscription: to `pic`, for any session or for `se`. -/
structure Listens (f : Forest T C) (se : SessionKey) (p : PulseId) (pic : T) (k : ℕ) : Prop where
  mem : p ∈ f.ids
  running : (f.pulse p).stopped = false
  strand : (f.pulse p).strandKey = k
  subs : ∃ sub : Subscription C, (sub.sessionKey = 0 ∨ sub.sessionKey = se) ∧
    ∀ t, (f.pulse p).subscriptions t = if t = pic then [sub] else []

/-! ### What is posted for one pulse -/

/-- The handlers of a pulse. -/
def ofHolder (p : PulseId) (qs : List (Posted C F)) : List (Posted C F) :=
  qs.filter fun q => q.holder == p

omit [DecidableEq T] in
theorem ofHolder_dispatchSelf (c : PulseId) (key : SessionKey) (t : T) (frame : F) (b : Bool) :
    ofHolder p (f.dispatchSelf c key t frame b)
      = if c = p then f.dispatchSelf c key t frame b else [] := by
  split
  · next h =>
      apply List.filter_eq_self.mpr
      intro q hq
      obtain ⟨sub, -, rfl⟩ := List.mem_map.mp hq
      simpa using h
  · next h =>
      apply List.filter_eq_nil_iff.mpr
      intro q hq
      obtain ⟨sub, -, rfl⟩ := List.mem_map.mp hq
      simpa using h

/-- Of a list without repetition, one member at most is looked for. -/
theorem flatMap_ite_of_nodup {α β : Type} [DecidableEq α] {ids : List α} (hids : ids.Nodup) (p : α)
    (g : α → List β) :
    (ids.flatMap fun c => if c = p then g c else []) = if p ∈ ids then g p else [] := by
  induction ids with
  | nil => rfl
  | cons c ids ih =>
      obtain ⟨hc, hids⟩ := List.nodup_cons.mp hids
      rw [List.flatMap_cons, ih hids]
      by_cases hp : c = p
      · subst hp
        simp [hc]
      · simp [hp, Ne.symm hp]

omit [DecidableEq T] in
/-- Of a group, the pulse posts what it has. -/
theorem ofHolder_group (s : Finset PulseId) (key : SessionKey) (t : T) (frame : F) :
    ofHolder p (s.sort.flatMap fun c => f.dispatchSelf c key t frame true)
      = if p ∈ s then f.dispatchSelf p key t frame true else [] := by
  have hself : (s.sort.flatMap fun c => ofHolder p (f.dispatchSelf c key t frame true))
      = s.sort.flatMap fun c => if c = p then f.dispatchSelf c key t frame true else [] :=
    List.flatMap_congr fun c _ => ofHolder_dispatchSelf c key t frame true
  rw [ofHolder, List.filter_flatMap]
  refine hself.trans ?_
  rw [flatMap_ite_of_nodup (s.sort_nodup _)]
  simp only [Finset.mem_sort]

/-- **One frame, one handler**: for a pulse with one subscription, a frame of a
session posts one handler if the topic is the one it listens to, and none
otherwise. -/
theorem publish_holder (hf : InterestInv f) (hse : se ≠ 0) (hp : Listens f se p pic k) (t : T)
    (frame : F) : (ofHolder p (f.publish se t frame)).map Posted.frame
      = if t = pic then [frame] else [] := by
  obtain ⟨sub, hkey, hsubs⟩ := hp.subs
  have hself : ∀ key b, (f.dispatchSelf p key t frame b).map Posted.frame
      = if t = pic ∧ isTarget sub.sessionKey key b = true then [frame] else [] := by
    intro key b
    rw [dispatchSelf, hsubs]
    by_cases ht : t = pic
    · by_cases htarget : isTarget sub.sessionKey key b = true
      · simp [ht, htarget]
      · simp [ht, htarget]
    · simp [ht]
  have hlisted : ∀ key, p ∈ (f.pulse f.root).interests (key, t) ↔
      p ≠ f.root ∧ t = pic ∧ sub.sessionKey = key := by
    intro key
    apply (hf.listed p key t).trans
    constructor
    · rintro ⟨-, hne, ⟨sub', hsub', hkey'⟩, -⟩
      rw [hsubs] at hsub'
      split at hsub'
      · next ht => exact ⟨hne, ht, List.mem_singleton.mp hsub' ▸ hkey'⟩
      · cases hsub'
    · rintro ⟨hne, ht, hkey'⟩
      refine ⟨hp.mem, hne, ⟨sub, ?_, hkey'⟩, .inl hp.running⟩
      rw [hsubs, if_pos ht]
      exact List.mem_singleton_self sub
  rw [publish, dispatchLoop_root hf, if_pos hse, ofHolder, List.filter_append, List.filter_append]
  change List.map _ (ofHolder p _ ++ (ofHolder p _ ++ ofHolder p _)) = _
  rw [ofHolder_dispatchSelf, ofHolder_group, ofHolder_group]
  by_cases hroot : f.root = p
  · -- the root is in no group
    have hout : ∀ key, p ∉ (f.pulse f.root).interests (key, t) := fun key hmem =>
      ((hlisted key).mp hmem).1 hroot.symm
    rw [if_pos hroot, if_neg (hout 0), if_neg (hout se), List.append_nil, List.append_nil, hroot,
      hself]
    have htarget : isTarget sub.sessionKey se false = true := by
      rcases hkey with h | h <;> simp [isTarget, h]
    simp [htarget]
  · -- any other pulse is in the group of the key it subscribed under
    rw [if_neg hroot, List.nil_append, List.map_append, apply_ite (List.map Posted.frame),
      apply_ite (List.map Posted.frame), hself, hself]
    simp only [hlisted]
    by_cases ht : t = pic
    · rcases hkey with h | h
      · simp [ht, h, Ne.symm hroot, isTarget, Ne.symm hse]
      · simp [ht, h, Ne.symm hroot, isTarget, hse]
    · simp [ht]

/-! ### Calls that spare a pulse -/

omit [DecidableEq T] in
/-- The call does not subscribe, stop or move the pulse. -/
def Step.Spares (p : PulseId) : Step T C → Prop
  | .withStrand q _ => q ≠ p
  | .subscribe q _ _ => q ≠ p
  | .stop q => q ≠ p
  | .asChild _ _ | .withSession _ _ | .markFinal _ => True

/-- The members of a pulse that decide what it is posted. -/
def view (o : Pulse T C) : ℕ × (T → List (Subscription C)) :=
  (o.strandKey, o.subscriptions)

theorem Listens.of_view (h : Listens f se p pic k) (hmem : p ∈ f'.ids)
    (hstopped : (f'.pulse p).stopped = (f.pulse p).stopped)
    (hview : view (f'.pulse p) = view (f.pulse p)) : Listens f' se p pic k := by
  obtain ⟨hstrand, hsubs⟩ := Prod.mk.inj hview
  refine ⟨hmem, hstopped.trans h.running, hstrand.trans h.strand, ?_⟩
  rw [hsubs]
  exact h.subs

/-- A change of any object that leaves these members alone. -/
theorem Listens.modify (h : Listens f se p pic k) (q : PulseId) {g : Pulse T C → Pulse T C}
    (hstopped : ∀ o, (g o).stopped = o.stopped) (hview : ∀ o, view (g o) = view o) :
    Listens (f.modify q g) se p pic k :=
  h.of_view h.mem (modify_same f q g Pulse.stopped hstopped p) (modify_same f q g view hview p)

/-- A change of another object. -/
theorem Listens.modify_of_ne (h : Listens f se p pic k) {q : PulseId} (hne : p ≠ q)
    (g : Pulse T C → Pulse T C) : Listens (f.modify q g) se p pic k := by
  have hsame := pulse_modify_of_ne f q g hne
  exact h.of_view h.mem (congrArg Pulse.stopped hsame) (congrArg view hsame)

/-- A pulse that is spared listens on. -/
theorem Listens.step (hf : InterestInv f) (h : Listens f se p pic k) {l : Step T C}
    (hl : l.Spares p) (hstep : f.step l = some f') : Listens f' se p pic k := by
  cases l with
  | asChild child parent =>
      simp only [Forest.step, Option.ite_none_right_eq_some, Option.some.injEq] at hstep
      obtain ⟨⟨hchild, hparent, hfinal⟩, rfl⟩ := hstep
      have hne : p ≠ child := by
        rintro rfl
        exact hchild h.mem
      have hsame := f.pulse_attach_of_ne parent hne
      have hattach : Listens (f.attach child parent) se p pic k :=
        h.of_view (List.mem_append_left _ h.mem) (congrArg Pulse.stopped hsame)
          (congrArg view hsame)
      rw [asChild_eq hchild hparent hfinal]
      exact hattach.modify parent (fun _ => rfl) fun _ => rfl
  | withSession q ss | markFinal q =>
      simp only [Forest.step, Option.ite_none_right_eq_some, Option.some.injEq] at hstep
      rw [← hstep.2]
      exact h.modify q (fun _ => rfl) fun _ => rfl
  | withStrand q key =>
      simp only [Forest.step, Option.ite_none_right_eq_some, Option.some.injEq] at hstep
      rw [← hstep.2]
      exact h.modify_of_ne (Ne.symm hl) _
  | subscribe q t cb =>
      simp only [Forest.step, Option.ite_none_right_eq_some, Option.some.injEq] at hstep
      obtain ⟨⟨hq, -⟩, rfl⟩ := hstep
      have hne : p ≠ q := Ne.symm hl
      rw [subscribe_eq hf.tree hq]
      dsimp only
      split
      · exact h.modify_of_ne hne _
      · -- the root writes down an interest
        have hkept := (h.modify_of_ne hne (Pulse.pushSubscription t ⟨(f.pulse q).session, cb⟩))
          |>.modify_of_ne hne (Pulse.keepInterest ((f.pulse q).session, t))
        exact hkept.modify f.root (fun _ => rfl) fun _ => rfl
  | stop q =>
      simp only [Forest.step, Option.ite_none_right_eq_some, Option.some.injEq] at hstep
      obtain ⟨⟨hq, hchilds⟩, rfl⟩ := hstep
      by_cases hrun : (f.pulse q).stopped = true
      · rw [stop_of_stopped hrun]
        exact h
      · have hrun : (f.pulse q).stopped = false := by simpa using hrun
        refine h.of_view ?_ ?_ ?_
        · rw [ids_stop hf.tree hq hchilds hrun]
          exact h.mem
        · rw [stopped_stop hf.tree hq hchilds hrun, if_neg (Ne.symm hl)]
        · exact stop_same hf.tree hq hchilds hrun view (fun _ _ => rfl) (fun _ _ => rfl)
            (fun _ _ => rfl) p

end Forest

/-! ### A subscriber of the stack -/

/-- A frame of the topic, unpacked. -/
def Setup.unpacked {n : ℕ} {F : Type} (c : Setup n F) (Y : Bool) (pic : BitVec (8 * n))
    (m : BitVec (8 * n) × Bytes) : Option F :=
  if m.1 = pic then c.unpack Y pic m.2 else none

namespace Stack

variable {S : Sodium} {n : ℕ} {C F : Type} {c : Setup n F}
variable {trees : Bool → Forest (BitVec (8 * n)) C} {s s' : Stack S n C F}
variable {Y : Bool} {p : PulseId} {pic : BitVec (8 * n)} {k : ℕ}

/-- The frames that the handlers of a pulse were executed with. -/
def calls (s : Stack S n C F) (Y : Bool) (p : PulseId) : List (Option F) :=
  (Forest.ofHolder p (s.executed Y)).map Posted.frame

/-- A step that leaves the pulse `p` of the side `Y` alone. -/
def Step.Spares (Y : Bool) (p : PulseId) : Step n C → Prop
  | .tree Z l => Z = Y → l.Spares p
  | .link _ | .tell _ | .run _ _ => True

/-! ### The pulse listens all the time -/

/-- A tree in which the pulse listens. -/
def Ready (c : Setup n F) (Y : Bool) (p : PulseId) (pic : BitVec (8 * n)) (k : ℕ)
    (f : Forest (BitVec (8 * n)) C) : Prop :=
  Forest.InterestInv f ∧ Forest.Listens f (c.session Y) p pic k

/-- The pulse listens, and has done so whenever its tree was told about a
callback. -/
def Attentive (c : Setup n F) (Y : Bool) (p : PulseId) (pic : BitVec (8 * n)) (k : ℕ)
    (s : Stack S n C F) : Prop :=
  Ready c Y p pic k (s.host Y).tree ∧ ∀ d ∈ (s.host Y).told, Ready c Y p pic k d.1

theorem host_setHost_of_ne (s : Stack S n C F) {Y Z : Bool} (x : Host n C F) (h : Y ≠ Z) :
    (s.setHost Z x).host Y = s.host Y :=
  Function.update_of_ne h ..

theorem Attentive.step (hs : Attentive c Y p pic k s) {a : Step n C} (ha : a.Spares Y p)
    (h : s.step c a = some s') : Attentive c Y p pic k s' := by
  obtain ⟨⟨hinv, hlisten⟩, htold⟩ := hs
  have hset : ∀ {Z x}, (Z = Y → Attentive c Y p pic k (s.setHost Z x)) →
      Attentive c Y p pic k (s.setHost Z x) := by
    intro Z x hZ
    by_cases hY : Z = Y
    · exact hZ hY
    · rw [Attentive, host_setHost_of_ne s x (Ne.symm hY)]
      exact ⟨⟨hinv, hlisten⟩, htold⟩
  cases a with
  | link a =>
      obtain ⟨l', -, rfl⟩ := Option.map_eq_some_iff.mp h
      exact ⟨⟨hinv, hlisten⟩, htold⟩
  | tree Z l =>
      obtain ⟨f', hf', rfl⟩ := Option.map_eq_some_iff.mp h
      refine hset ?_
      rintro rfl
      rw [Attentive, host_setHost_self]
      exact ⟨⟨hinv.step hf', hlisten.step hinv (ha rfl) hf'⟩, htold⟩
  | tell Z =>
      obtain ⟨cb, -, rfl⟩ := Option.map_eq_some_iff.mp h
      refine hset ?_
      rintro rfl
      rw [Attentive, host_setHost_self]
      refine ⟨⟨hinv, hlisten⟩, fun d hd => ?_⟩
      rcases List.mem_append.mp hd with hd | hd
      · exact htold d hd
      · rw [List.mem_singleton.mp hd]
        exact ⟨hinv, hlisten⟩
  | run Z i =>
      obtain ⟨jobs, -, rfl⟩ := Option.map_eq_some_iff.mp h
      refine hset ?_
      rintro rfl
      rw [Attentive, host_setHost_self]
      exact ⟨⟨hinv, hlisten⟩, htold⟩

/-! ### What is posted for the pulse -/

/-- The handlers of the pulse for one callback. -/
theorem ofHolder_posts (hse : c.session Y ≠ 0) (hpic : pic ≠ c.topicEstablished)
    (hpic' : pic ≠ c.topicClosed) {f : Forest (BitVec (8 * n)) C} (hf : Ready c Y p pic k f)
    (cb : Callback (BitVec (8 * n))) :
    (Forest.ofHolder p (c.posts Y (f, cb))).map Posted.frame
      = ((cb.frame?.bind (c.unpacked Y pic)).map some).toList := by
  have hpost : ∀ t (frame : Option F),
      (Forest.ofHolder p (f.publish (c.session Y) t frame)).map Posted.frame
        = if t = pic then [frame] else [] :=
    Forest.publish_holder hf.1 hse hf.2
  cases cb with
  | established =>
      refine (hpost c.topicEstablished none).trans ?_
      rw [if_neg (Ne.symm hpic)]
      rfl
  | closed =>
      refine (hpost c.topicClosed none).trans ?_
      rw [if_neg (Ne.symm hpic')]
      rfl
  | receive t d =>
      show (Forest.ofHolder p (f.onEvent _ _ (c.unpack Y) _ (.receive t d))).map _
        = ((c.unpacked Y pic (t, d)).map some).toList
      rw [Forest.onEvent, Forest.Event.dispatched]
      by_cases ht : t = pic
      · subst ht
        rw [Setup.unpacked, if_pos rfl]
        rcases c.unpack Y t d with - | frame
        · rfl
        · refine (hpost t (some frame)).trans ?_
          rw [if_pos rfl]
          rfl
      · rw [Setup.unpacked, if_neg ht]
        rcases c.unpack Y t d with - | frame
        · rfl
        · refine (hpost t (some frame)).trans ?_
          rw [if_neg ht]
          rfl

/-- The handlers of the pulse for all the callbacks. -/
theorem ofHolder_flatMap_posts (hse : c.session Y ≠ 0) (hpic : pic ≠ c.topicEstablished)
    (hpic' : pic ≠ c.topicClosed)
    {told : List (Forest (BitVec (8 * n)) C × Callback (BitVec (8 * n)))}
    (htold : ∀ d ∈ told, Ready c Y p pic k d.1) :
    (Forest.ofHolder p (told.flatMap (c.posts Y))).map Posted.frame
      = ((told.filterMap fun d => d.2.frame?).filterMap (c.unpacked Y pic)).map some := by
  induction told with
  | nil => rfl
  | cons d told ih =>
      obtain ⟨hd, htold⟩ := List.forall_mem_cons.mp htold
      rw [List.flatMap_cons, Forest.ofHolder, List.filter_append, List.map_append]
      change (Forest.ofHolder p (c.posts Y (d.1, d.2))).map Posted.frame
        ++ (Forest.ofHolder p (told.flatMap (c.posts Y))).map Posted.frame = _
      rw [ofHolder_posts hse hpic hpic' hd, ih htold, List.filterMap_cons]
      rcases d.2.frame? with - | m
      · rfl
      · show ((c.unpacked Y pic m).map some).toList ++ _ = _
        rw [List.filterMap_cons]
        rcases c.unpacked Y pic m with - | frame <;> rfl

/-- Every handler of the pulse is on its strand. -/
theorem lane_of_ofHolder (hk : k ≠ 0) {f : Forest (BitVec (8 * n)) C}
    (hf : Ready c Y p pic k f) {cb : Callback (BitVec (8 * n))} {q : Posted C (Option F)}
    (hq : q ∈ c.posts Y (f, cb)) (hp : q.holder = p) :
    Runner.lane q = some (Runner.getStrand k) := by
  have hstrand : ∀ c' key t (frame : Option F) b, q ∈ f.dispatchSelf c' key t frame b →
      Runner.lane q = some (Runner.getStrand k) := by
    intro c' key t frame b hself
    obtain ⟨sub, -, rfl⟩ := List.mem_map.mp hself
    obtain rfl : c' = p := hp
    exact Runner.lane_of_ne_zero hk hf.2.strand
  rw [Setup.posts, Forest.onEvent] at hq
  split at hq
  · cases hq
  · rw [Forest.publish, Forest.dispatchLoop_root hf.1] at hq
    rcases List.mem_append.mp hq with hq | hq
    · exact hstrand _ _ _ _ _ hq
    rcases List.mem_append.mp hq with hq | hq
    · obtain ⟨c', -, hq⟩ := List.mem_flatMap.mp hq
      exact hstrand _ _ _ _ _ hq
    · split at hq
      · obtain ⟨c', -, hq⟩ := List.mem_flatMap.mp hq
        exact hstrand _ _ _ _ _ hq
      · cases hq

/-- **A subscriber is called once for each frame, in order.**  In every run in
which the calls on its tree spare it, a pulse that listens to a topic, on a
strand, is called with the first of the frames that the peer sent under this
topic and that can be unpacked, in the order in which they were sent; with all
of them when nothing is on its way. -/
theorem called_once_in_order {S : Sodium} (hS : S.Lawful) (c : Setup n F)
    (trees : Bool → Forest (BitVec (8 * n)) C) {Y : Bool} {p : PulseId} {pic : BitVec (8 * n)}
    {k : ℕ} (htree : Forest.InterestInv (trees Y)) (hse : c.session Y ≠ 0) (hk : k ≠ 0)
    (hpic : pic ≠ c.topicEstablished) (hpic' : pic ≠ c.topicClosed)
    (hp : Forest.Listens (trees Y) (c.session Y) p pic k) {ls : List (Step n C)}
    {s : Stack S n C F} (hls : ∀ a ∈ ls, a.Spares Y p)
    (hrun : runSteps (step c) (new S trees) ls = some s) :
    s.calls Y p <+: ((s.link.sent (!Y)).filterMap (c.unpacked Y pic)).map some ∧
      (s.Drained Y → s.calls Y p
        = ((s.link.sent (!Y)).filterMap (c.unpacked Y pic)).map some) := by
  have hs : Inv hS c s := Inv.of_run hrun
  have hready : Attentive c Y p pic k (new S trees : Stack S n C F) :=
    ⟨⟨htree, hp⟩, fun _ hd => by cases hd⟩
  have hspares : Along (step c) (fun _ a => Step.Spares Y p a) (new S trees) ls :=
    along_of_forall fun a ha _ => hls a ha
  have hatt : Attentive c Y p pic k s :=
    hspares.invariant (fun hs ha h => Attentive.step hs ha h) hready hrun
  -- the handlers of the pulse were all posted on one strand
  have hlane : ∀ q ∈ s.posted c Y, (q.holder == p) = true →
      Runner.lane q = some (Runner.getStrand k) := by
    intro q hq hholder
    obtain ⟨d, hd, hq⟩ := List.mem_flatMap.mp hq
    exact lane_of_ofHolder hk (hatt.2 d hd) hq (by simpa using hholder)
  obtain ⟨hcalled, hall⟩ := (hs.host Y).jobs.filter_executed hlane
  have hposted : (Forest.ofHolder p (s.posted c Y)).map Posted.frame
      = ((s.heard Y).filterMap (c.unpacked Y pic)).map some :=
    ofHolder_flatMap_posts hse hpic hpic' hatt.2
  obtain ⟨hheard, hlast⟩ := hs.heard_sent Y
  constructor
  · refine (hcalled.map Posted.frame).trans ?_
    change (Forest.ofHolder p (s.posted c Y)).map Posted.frame <+: _
    rw [hposted]
    exact (hheard.filterMap _).map some
  · intro hdrained
    refine (congrArg (List.map Posted.frame) (hall hdrained.2.2)).trans ?_
    rw [← hlast hdrained]
    exact hposted

theorem listens_listeningTree : Forest.InterestInv listeningTree ∧
    Forest.Listens listeningTree 9 2 7 65 := by
  refine ⟨?_, ?_⟩
  · have hrun : runSteps Forest.step (Forest.new 1)
        [.asChild 2 1, .withStrand 2 65, .subscribe 2 7 0] = some listeningTree := rfl
    exact runSteps_invariant Forest.InterestInv.step (Forest.interestInv_new 1) hrun
  · refine ⟨by decide, rfl, rfl, ⟨0, 0⟩, .inl rfl, fun t => ?_⟩
    by_cases ht : t = 7
    · subst ht
      rfl
    · rw [if_neg ht]
      exact Function.update_of_ne ht ..

theorem called_threeFrames :
    ∃ s, runSteps (step recordedSetup) (new .recorded fun _ => listeningTree) threeFrames = some s ∧
      s.calls false 2 = [some [1, 2, 3], some [5]] := by
  obtain ⟨htree, hlistens⟩ := listens_listeningTree
  have hend : (runSteps (step recordedSetup) (new .recorded fun _ => listeningTree) threeFrames).map
      (fun s => (s.link.sent true, s.link.pipe true, (s.host false).told.length,
        (s.link.callbacks false).length, (s.host false).jobs.waiting.length))
      = some ([(7, [1, 2, 3]), (8, [4]), (7, [5])], [], 4, 4, 0) := by
    decide +kernel
  obtain ⟨s, hrun, hs⟩ := Option.map_eq_some_iff.mp hend
  simp only [Prod.mk.injEq] at hs
  obtain ⟨hsent, hpipe, htold, hlog, hwait⟩ := hs
  have hspares : ∀ a ∈ threeFrames, a.Spares false 2 := by
    simp [threeFrames, Link.threeFrames, Step.Spares]
  have hcalls := (called_once_in_order Sodium.recorded_lawful recordedSetup _ htree
    (by decide) (by decide) (by decide) (by decide) hlistens hspares hrun).2
    ⟨hpipe, htold.trans hlog.symm, List.length_eq_zero_iff.mp hwait⟩
  refine ⟨s, hrun, hcalls.trans ?_⟩
  rw [Bool.not_false, hsent]
  rfl

end Stack

end Play
