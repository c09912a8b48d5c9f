/-
Play/Dispatch.lean

Handing on a frame through the interests is handing it to everyone.

`dispatch` on the root posts its own subscriptions for the topic, those with
no session key and those with the key of the session.  Of the other pulses it
asks two groups: those listed under the topic alone, where it posts the
subscriptions without a key, and those listed under the session and the topic,
where it posts the subscriptions with that key.  A pulse may be in both.

`broadcast` is the plain statement: every attached pulse, every subscription
that matches.  The two are permutations of each other as long as no pulse was
stopped, because then a pulse is listed under a key exactly if it has a
subscription under that key, and a pulse that is not listed contributes
nothing (`dispatch_perm_broadcast`).

Each route builds the arguments of the callbacks itself.  The first group is
called with no session at all, so that `is_target` finds the subscriptions
without a key, and the callbacks get this session: an event of a session
arrives there as one of no session (`event_keeps_session_iff`).
-/
import Mathlib.Data.Finset.Sort
import Play.Interest

namespace Play

/-- A callback posted to the runner, on the strand of the pulse that holds
the subscription, with its two arguments. -/
structure Posted (C F : Type) where
  holder : PulseId
  strandKey : ℕ
  sub : Subscription C
  se : SessionKey
  frame : F

namespace Forest

variable {T C F : Type}

/-- `pulse::is_target`. -/
def isTarget (subKey key : SessionKey) (fromRoot : Bool) : Bool :=
  if fromRoot then subKey == key else subKey == 0 || subKey == key

/-- The first part of `pulse::dispatch`: the subscriptions of the pulse. -/
def dispatchSelf (f : Forest T C) (p : PulseId) (se : SessionKey) (pic : T) (frame : F)
    (fromRoot : Bool) : List (Posted C F) :=
  (((f.pulse p).subscriptions pic).filter fun sub => isTarget sub.sessionKey se fromRoot).map
    fun sub => ⟨p, (f.pulse p).strandKey, sub, se, frame⟩

/-- `pulse::dispatch`, at most `k` calls deep.  An interest group is a map
over addresses and is walked in their order. -/
def dispatchLoop (f : Forest T C) (pic : T) (frame : F) :
    ℕ → PulseId → SessionKey → Bool → List (Posted C F)
  | 0, _, _, _ => []
  | k + 1, p, se, fromRoot =>
      f.dispatchSelf p se pic frame fromRoot ++
        if f.isRoot p then
          -- first the pulses that subscribed without a session
          ((f.pulse p).interests (0, pic)).sort.flatMap
              (fun c => dispatchLoop f pic frame k c 0 true) ++
            if se ≠ 0 then
              ((f.pulse p).interests (se, pic)).sort.flatMap
                fun c => dispatchLoop f pic frame k c se true
            else []
        else []

/-- `pulse::publish` on the root.  The pulses it calls are not roots, so the
calls are two deep (`dispatchLoop_eq_publish`). -/
def publish (f : Forest T C) (se : SessionKey) (pic : T) (frame : F) : List (Posted C F) :=
  f.dispatchLoop pic frame 2 f.root se false

/-- The subscriptions of a pulse that a frame for session `se` is meant for. -/
def matching (f : Forest T C) (se : SessionKey) (pic : T) (p : PulseId) :
    List (PulseId × Subscription C) :=
  (((f.pulse p).subscriptions pic).filter fun sub =>
    sub.sessionKey == 0 || sub.sessionKey == se).map fun sub => (p, sub)

/-- Every matching subscription of the root and of all its descendants. -/
def broadcast (f : Forest T C) (se : SessionKey) (pic : T) : List (PulseId × Subscription C) :=
  f.ids.flatMap (f.matching se pic)

/-! ### Lists over a group of pulses -/

/-- Walking the members of a group is walking all, if the others contribute
nothing. -/
theorem flatMap_sort_perm {β : Type} {s : Finset PulseId} {ids : List PulseId} (hids : ids.Nodup)
    (hsub : ∀ c ∈ s, c ∈ ids) {g : PulseId → List β} (hout : ∀ c ∈ ids, c ∉ s → g c = []) :
    (s.sort.flatMap g).Perm (ids.flatMap g) := by
  have hfilter : ids.flatMap g = (ids.filter (· ∈ s)).flatMap g := by
    clear hids hsub
    induction ids with
    | nil => rfl
    | cons c ids ih =>
        have ih := ih fun c' hc' => hout c' (List.mem_cons_of_mem _ hc')
        by_cases hc : c ∈ s
        · simp [hc, ih]
        · simp [hc, ih, hout c List.mem_cons_self hc]
  have hperm : s.sort.Perm (ids.filter (· ∈ s)) := by
    refine (List.perm_ext_iff_of_nodup (s.sort_nodup _) (hids.filter _)).mpr fun c => ?_
    rw [Finset.mem_sort, List.mem_filter, decide_eq_true_eq]
    exact ⟨fun hc => ⟨hsub c hc, hc⟩, And.right⟩
  rw [hfilter]
  exact hperm.flatMap_right g

/-- Splitting a list by two tests that exclude each other. -/
theorem filter_or_perm {β : Type} {p q : β → Bool} (h : ∀ x, p x = true → q x = false)
    (l : List β) : (l.filter fun x => p x || q x).Perm (l.filter p ++ l.filter q) := by
  induction l with
  | nil => exact .nil
  | cons x l ih =>
      rcases hp : p x with - | -
      · rcases hq : q x with - | -
        · simpa [hp, hq] using ih
        · simp only [List.filter_cons, hp, hq, Bool.false_or, if_true, Bool.false_eq_true, if_false]
          exact (ih.cons x).trans List.perm_middle.symm
      · simpa [hp, h x hp] using ih

/-! ### What publish posts -/

section

variable {f : Forest T C}

/-- The entries of what was posted. -/
def entries (ps : List (Posted C F)) : List (PulseId × Subscription C) :=
  ps.map fun q => (q.holder, q.sub)

/-- The subscriptions of a pulse under one key. -/
def keyed (f : Forest T C) (key : SessionKey) (pic : T) (p : PulseId) :
    List (PulseId × Subscription C) :=
  (((f.pulse p).subscriptions pic).filter fun sub => sub.sessionKey == key).map fun sub => (p, sub)

@[simp] theorem entries_nil : entries ([] : List (Posted C F)) = [] := rfl

theorem entries_append (ps qs : List (Posted C F)) :
    entries (ps ++ qs) = entries ps ++ entries qs :=
  List.map_append

theorem entries_flatMap {ids : List PulseId} {g : PulseId → List (Posted C F)} :
    entries (ids.flatMap g) = ids.flatMap fun c => entries (g c) :=
  List.map_flatMap

theorem entries_self_root (se : SessionKey) (pic : T) (frame : F) (p : PulseId) :
    entries (f.dispatchSelf p se pic frame false) = f.matching se pic p := by
  simp [entries, dispatchSelf, matching, isTarget, Function.comp_def]

theorem entries_self_child (se : SessionKey) (pic : T) (frame : F) (p : PulseId) :
    entries (f.dispatchSelf p se pic frame true) = f.keyed se pic p := by
  simp [entries, dispatchSelf, keyed, isTarget, Function.comp_def]

/-- A pulse that is not a root hands nothing on. -/
theorem dispatchLoop_child (hf : Tree f) {c : PulseId} (hc : c ∈ f.ids) (hne : c ≠ f.root)
    (pic : T) (frame : F) (k : ℕ) (se : SessionKey) (fromRoot : Bool) :
    f.dispatchLoop pic frame (k + 1) c se fromRoot = f.dispatchSelf c se pic frame fromRoot := by
  have : ¬ f.isRoot c = true := fun h => hne ((hf.isRoot_iff hc).mp h)
  simp [dispatchLoop, this]

/-- The root posts its own subscriptions and asks the two groups. -/
theorem dispatchLoop_root (hf : InterestInv f) (pic : T) (frame : F) (k : ℕ) (se : SessionKey) :
    f.dispatchLoop pic frame (k + 2) f.root se false =
      f.dispatchSelf f.root se pic frame false ++
        (((f.pulse f.root).interests (0, pic)).sort.flatMap
            (fun c => f.dispatchSelf c 0 pic frame true) ++
          if se ≠ 0 then ((f.pulse f.root).interests (se, pic)).sort.flatMap
            fun c => f.dispatchSelf c se pic frame true
          else []) := by
  have hgroup : ∀ key, ((f.pulse f.root).interests (key, pic)).sort.flatMap
        (fun c => f.dispatchLoop pic frame (k + 1) c key true)
      = ((f.pulse f.root).interests (key, pic)).sort.flatMap
        fun c => f.dispatchSelf c key pic frame true := by
    intro key
    refine List.flatMap_congr fun c hc => ?_
    have hl := (hf.listed c key pic).mp ((Finset.mem_sort _).mp hc)
    exact dispatchLoop_child hf.tree hl.1 hl.2.1 pic frame k key true
  rw [dispatchLoop, if_pos ((hf.tree.isRoot_iff hf.tree.root_mem).mpr rfl), hgroup, hgroup]

theorem dispatchLoop_eq_publish (hf : InterestInv f) (se : SessionKey) (pic : T) (frame : F)
    (k : ℕ) : f.dispatchLoop pic frame (k + 2) f.root se false = f.publish se pic frame := by
  rw [dispatchLoop_root hf, publish, dispatchLoop_root hf]

/-- The subscriptions of a child are posted under two keys. -/
theorem matching_perm (se : SessionKey) (pic : T) (p : PulseId) :
    (f.matching se pic p).Perm
      (f.keyed 0 pic p ++ if se ≠ 0 then f.keyed se pic p else []) := by
  by_cases hse : se = 0
  · subst hse
    simp [matching, keyed]
  · rw [if_pos hse, matching, keyed, keyed, ← List.map_append]
    refine (filter_or_perm ?_ _).map _
    intro sub h
    have h : sub.sessionKey = 0 := by simpa using h
    simpa [h] using fun h' => hse h'.symm

variable (hf : InterestInv f) (hrun : ∀ c ∈ f.ids, (f.pulse c).stopped = false)
include hf hrun

/-- A group under a key has exactly the subscriptions under this key. -/
theorem group_perm (key : SessionKey) (pic : T) :
    (((f.pulse f.root).interests (key, pic)).sort.flatMap (f.keyed key pic)).Perm
      ((f.ids.erase f.root).flatMap (f.keyed key pic)) := by
  refine flatMap_sort_perm (hf.tree.nodup.erase _) ?_ ?_
  · intro c hc
    have hl := (hf.listed c key pic).mp hc
    exact (hf.tree.nodup.mem_erase_iff).mpr ⟨hl.2.1, hl.1⟩
  · -- who is not in the group has no such subscription, since nobody stopped
    intro c hc hno
    obtain ⟨hne, hc⟩ := hf.tree.nodup.mem_erase_iff.mp hc
    have hunlisted : ¬ Subscribed f c key pic := fun hs =>
      hno ((hf.listed c key pic).mpr ⟨hc, hne, hs, .inl (hrun c hc)⟩)
    rw [keyed, List.map_eq_nil_iff, List.filter_eq_nil_iff]
    intro sub hsub hkey
    exact hunlisted ⟨sub, hsub, by simpa using hkey⟩

theorem publish_perm (se : SessionKey) (pic : T) (frame : F) :
    (entries (f.publish se pic frame)).Perm (f.broadcast se pic) := by
  have hpost : entries (f.publish se pic frame) =
      f.matching se pic f.root ++
        (((f.pulse f.root).interests (0, pic)).sort.flatMap (f.keyed 0 pic) ++
          if se ≠ 0 then ((f.pulse f.root).interests (se, pic)).sort.flatMap (f.keyed se pic)
          else []) := by
    rw [publish, dispatchLoop_root hf pic frame 0 se, entries_append, entries_append,
      entries_self_root, entries_flatMap]
    simp only [entries_self_child, apply_ite entries, entries_flatMap, entries_nil]
  -- going through the pulses once with both keys, or twice with one
  have hrest : ((f.ids.erase f.root).flatMap (f.keyed 0 pic) ++
        if se ≠ 0 then (f.ids.erase f.root).flatMap (f.keyed se pic) else []).Perm
      ((f.ids.erase f.root).flatMap (f.matching se pic)) := by
    have hsplit := List.Perm.flatMap_left (f.ids.erase f.root)
      fun c _ => matching_perm (f := f) se pic c
    refine List.Perm.trans ?_ hsplit.symm
    split
    · exact List.flatMap_append_perm _ _ _
    · simp
  rw [hpost]
  calc f.matching se pic f.root ++
        (((f.pulse f.root).interests (0, pic)).sort.flatMap (f.keyed 0 pic) ++
          if se ≠ 0 then ((f.pulse f.root).interests (se, pic)).sort.flatMap (f.keyed se pic)
          else [])
    _ |>.Perm (f.matching se pic f.root ++ ((f.ids.erase f.root).flatMap (f.keyed 0 pic) ++
          if se ≠ 0 then (f.ids.erase f.root).flatMap (f.keyed se pic) else [])) := by
        refine List.Perm.append_left _ ((group_perm hf hrun 0 pic).append ?_)
        split
        · exact group_perm hf hrun se pic
        · exact .nil
    _ |>.Perm (f.matching se pic f.root ++ (f.ids.erase f.root).flatMap (f.matching se pic)) :=
        List.Perm.append_left _ hrest
    _ |>.Perm (f.broadcast se pic) :=
        ((List.perm_cons_erase hf.tree.root_mem).flatMap_right (f.matching se pic)).symm

end

/-- **Indexed dispatch is naive broadcast**: for every tree, however it was
built, subscribed and given sessions, with no pulse stopped, `publish` posts
every matching subscription of the root and of its descendants once, and no
other. -/
theorem dispatch_perm_broadcast [DecidableEq T] (root : PulseId) (ls : List (Step T C))
    {f : Forest T C} (hrun : runSteps step (new root : Forest T C) ls = some f)
    (hlive : ∀ c ∈ f.ids, (f.pulse c).stopped = false) (se : SessionKey) (pic : T) (frame : F) :
    (entries (f.publish se pic frame)).Perm (f.broadcast se pic) :=
  publish_perm (runSteps_invariant InterestInv.step (interestInv_new root) hrun) hlive se pic frame

/-- A child and a grandchild with subscriptions for any session and for
session 7. -/
def mixedSubscriptions : List (Step ℕ ℕ) :=
  [.asChild 2 1, .asChild 3 2, .subscribe 1 11 0, .subscribe 3 11 1, .withSession 3 7,
    .subscribe 3 11 2, .withSession 2 7, .subscribe 2 11 3]

theorem dispatch_perm_mixedSubscriptions :
    ∃ f, runSteps step (new 1 : Forest ℕ ℕ) mixedSubscriptions = some f ∧
      f.broadcast 7 11 = [(1, ⟨0, 0⟩), (2, ⟨7, 3⟩), (3, ⟨0, 1⟩), (3, ⟨7, 2⟩)] ∧
      (entries (f.publish 7 11 ())).Perm (f.broadcast 7 11) := by
  refine ⟨_, rfl, ?_, dispatch_perm_broadcast 1 mixedSubscriptions rfl ?_ 7 11 ()⟩ <;>
    decide +kernel

/-! ### Events of a session -/

/-- What a session tells the root, as the listener of the server or of the
client. -/
inductive Event (T D : Type)
  | receive (pic : T) (data : D)
  | established
  | closed

/-- What is dispatched: `unpack` may refuse the bytes, and the two other
events have reserved topics and a null frame. -/
def Event.dispatched {D : Type} (topicEstablished topicClosed : T) (unpack : T → D → Option F) :
    Event T D → Option (T × Option F)
  | .receive pic data => (unpack pic data).map fun frame => (pic, some frame)
  | .established => some (topicEstablished, none)
  | .closed => some (topicClosed, none)

/-- `pulse::on_receive`, `pulse::on_established` and `pulse::on_closed` on the
root. -/
def onEvent {D : Type} (topicEstablished topicClosed : T) (unpack : T → D → Option F)
    (f : Forest T C) (se : SessionKey) (e : Event T D) : List (Posted C (Option F)) :=
  match e.dispatched topicEstablished topicClosed unpack with
  -- the error is logged
  | none => []
  | some (pic, frame) => f.publish se pic frame

section

variable {f : Forest T C}

/-- A pulse posts its subscriptions with the session it was called with. -/
theorem of_mem_dispatchSelf {p : PulseId} {se : SessionKey} {pic : T} {frame : F} {fromRoot : Bool}
    {q : Posted C F} (h : q ∈ f.dispatchSelf p se pic frame fromRoot) :
    q.se = se ∧ q.frame = frame := by
  obtain ⟨sub, -, rfl⟩ := List.mem_map.mp h
  exact ⟨rfl, rfl⟩

/-- A pulse in the group of the topic posts at least one callback. -/
theorem exists_mem_dispatchSelf {c : PulseId} {key : SessionKey} {pic : T}
    (h : Subscribed f c key pic) (frame : F) : ∃ q, q ∈ f.dispatchSelf c key pic frame true := by
  obtain ⟨sub, hsub, hkey⟩ := h
  refine ⟨_, List.mem_map_of_mem (List.mem_filter.mpr ⟨hsub, ?_⟩)⟩
  simp [isTarget, hkey]

/-- The callbacks get the session exactly if the group of the topic is
empty. -/
theorem publish_session_iff (hf : InterestInv f) {se : SessionKey} (hse : se ≠ 0) (pic : T)
    (frame : F) : (∀ q ∈ f.publish se pic frame, q.se = se ∧ q.frame = frame) ↔
      ∀ c, ¬ Listed f c 0 pic := by
  rw [publish, dispatchLoop_root hf pic frame 0 se, if_pos hse]
  constructor
  · intro hall c hc
    obtain ⟨q, hq⟩ := exists_mem_dispatchSelf ((hf.listed c 0 pic).mp hc).2.2.1 frame
    have hmem : q ∈ ((f.pulse f.root).interests (0, pic)).sort.flatMap
        fun c => f.dispatchSelf c 0 pic frame true :=
      List.mem_flatMap.mpr ⟨c, (Finset.mem_sort _).mpr hc, hq⟩
    have hback := (hall q (List.mem_append_right _ (List.mem_append_left _ hmem))).1
    exact hse (hback.symm.trans (of_mem_dispatchSelf hq).1)
  · intro hnone q hq
    rcases List.mem_append.mp hq with hq | hq
    · exact of_mem_dispatchSelf hq
    rcases List.mem_append.mp hq with hq | hq
    · obtain ⟨c, hc, -⟩ := List.mem_flatMap.mp hq
      exact absurd ((Finset.mem_sort _).mp hc) (hnone c)
    · obtain ⟨c, -, hq⟩ := List.mem_flatMap.mp hq
      exact of_mem_dispatchSelf hq

end

/-- **Who is told the session of an event**: in every tree, the callbacks that
an event of a session posts all get this session and the frame if and only if
no descendant of the root subscribed to the topic without a session; one that
was stopped does not count if it was a direct child of the root. -/
theorem event_keeps_session_iff [DecidableEq T] {D : Type} (topicEstablished topicClosed : T)
    (unpack : T → D → Option F) (root : PulseId) (ls : List (Step T C)) {f : Forest T C}
    (hrun : runSteps step (new root : Forest T C) ls = some f) {se : SessionKey} (hse : se ≠ 0)
    (e : Event T D) :
    (∀ q ∈ f.onEvent topicEstablished topicClosed unpack se e, q.se = se ∧
      (e.dispatched topicEstablished topicClosed unpack).map Prod.snd = some q.frame) ↔
    ∀ pic frame, e.dispatched topicEstablished topicClosed unpack = some (pic, frame) →
      ∀ c, Descendant f c → Subscribed f c 0 pic →
        (f.pulse c).stopped = true ∧ (f.pulse c).parent = some f.root := by
  have hf : InterestInv f := runSteps_invariant InterestInv.step (interestInv_new root) hrun
  rw [onEvent]
  rcases he : e.dispatched topicEstablished topicClosed unpack with - | ⟨pic, frame⟩
  · simp
  have hpost := publish_session_iff hf hse pic frame
  simp only [hf.listed, ← and_assoc, ← hf.tree.descendant_iff] at hpost
  simp only [Option.map_some, Option.some.injEq, Prod.mk.injEq]
  constructor
  · rintro hall pic' frame' ⟨rfl, rfl⟩ c hc hsub
    have hno := hpost.mp (fun q hq => ⟨(hall q hq).1, (hall q hq).2.symm⟩) c
    by_contra hlive
    refine hno ⟨⟨hc, hsub⟩, ?_⟩
    by_cases hstop : (f.pulse c).stopped = true
    · exact .inr fun hparent => hlive ⟨hstop, hparent⟩
    · exact .inl (by simpa using hstop)
  · intro hall q hq
    have hsame := hpost.mpr ?_ q hq
    · exact ⟨hsame.1, hsame.2.symm⟩
    rintro c ⟨⟨hc, hsub⟩, hlive⟩
    obtain ⟨hstop, hparent⟩ := hall pic frame ⟨rfl, rfl⟩ c hc hsub
    rcases hlive with hrun | hdeep
    · rw [hstop] at hrun
      cases hrun
    · exact hdeep hparent

/-- The root and a child that is bound to session 7 subscribe to a topic. -/
def boundChild : List (Step ℕ ℕ) :=
  [.subscribe 1 11 0, .asChild 2 1, .withSession 2 7, .subscribe 2 11 1]

theorem event_keeps_session_boundChild :
    ∃ f, runSteps step (new 1 : Forest ℕ ℕ) boundChild = some f ∧
      ((f.onEvent 1 2 (fun _ (d : ℕ) => some d) 7 (.receive 11 5)).map
        fun q => (q.holder, q.se, q.frame)) = [(1, 7, some 5), (2, 7, some 5)] ∧
      ∀ c, Descendant f c → Subscribed f c 0 11 →
        (f.pulse c).stopped = true ∧ (f.pulse c).parent = some f.root := by
  refine ⟨_, rfl, by decide +kernel, ?_⟩
  refine (event_keeps_session_iff 1 2 (fun _ (d : ℕ) => some d) 1 boundChild rfl
    (by decide : 7 ≠ 0) (.receive 11 5)).mp ?_ 11 (some 5) rfl
  decide +kernel

/-- As the lobby does it: a child subscribes to a topic for any session. -/
def blindChild : List (Step ℕ ℕ) := [.asChild 2 1, .subscribe 2 11 0]

/-- **A session that is not told**: the frame of session 7 reaches the child
with no session. -/
theorem blindChild_null_session :
    ∃ f, runSteps step (new 1 : Forest ℕ ℕ) blindChild = some f ∧
      ((f.onEvent 1 2 (fun _ (d : ℕ) => some d) 7 (.receive 11 5)).map
        fun q => (q.holder, q.se, q.frame)) = [(2, 0, some 5)] ∧
      ¬ ∀ q ∈ f.onEvent 1 2 (fun _ (d : ℕ) => some d) 7 (.receive 11 5), q.se = 7 ∧
        (Event.dispatched 1 2 (fun _ (d : ℕ) => some d) (.receive 11 5)).map Prod.snd
          = some q.frame := by
  refine ⟨_, rfl, ?_, ?_⟩ <;> decide +kernel

end Forest

end Play
