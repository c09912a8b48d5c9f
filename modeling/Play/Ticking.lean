/-
Play/Ticking.lean

Which acts are updated.

`update` calls `on_update` whether the act is active or not.  An act_serial
updates its current act, so in a configured tree the act that is updated is
active, unless the tree has changed since: an act_parallel goes on with its
loop after one of its acts has moved the flow elsewhere, and a leaf may raise
another signal after the one by which it was left.

`runsActive_of_steady` says which runs update active acts only: those where no
signal leaves an act_parallel that has acts to update still, and where an act
raises no signal once it was left.
-/
import Play.Config

namespace Play

namespace Act

variable {t t' t'' : Act} {i : ℕ}

/-! ### Acts keep their places -/

/-- Wherever there was an act there is one, of the same class. -/
def Keeps (t t' : Act) : Prop :=
  ∀ a k, (t.get a).map kind = some k → (t'.get a).map kind = some k

theorem keeps_refl (t : Act) : t.Keeps t := fun _ _ h => h

theorem Keeps.trans (h : t.Keeps t') (h' : t'.Keeps t'') : t.Keeps t'' :=
  fun a k ha => h' a k (h a k ha)

theorem keeps_of_acts (hk : t'.kind = t.kind)
    (hacts : ∀ (i : ℕ) c, t.acts[i]? = some c → ∃ c', t'.acts[i]? = some c' ∧ c.Keeps c') :
    t.Keeps t' := by
  intro a k ha
  cases a with
  | nil =>
      rw [get, Option.map_some] at ha ⊢
      rwa [hk]
  | cons i a =>
      obtain ⟨d, hd, hkd⟩ := Option.map_eq_some_iff.mp ha
      obtain ⟨c, hc, hd⟩ := Option.bind_eq_some_iff.mp hd
      obtain ⟨c', hc', hkeeps⟩ := hacts i c hc
      rw [get, hc']
      exact hkeeps a k (by rw [hd, Option.map_some, hkd])

theorem keeps_activate (t : Act) : t.Keeps t.activate := by
  induction t using Act.induct with
  | h k n fl b c as ih =>
      cases b with
      | true =>
          rw [activate_of_active rfl]
          exact keeps_refl _
      | false =>
          rw [activate_mk]
          refine keeps_of_acts rfl fun i d hd => ?_
          change as[i]? = some d at hd
          show ∃ c', (if k = .leaf then as else _)[i]? = some c' ∧ d.Keeps c'
          split
          · exact ⟨d, hd, keeps_refl d⟩
          · have hi : i < (activateActs k c 0 as).length := by
              rw [length_activateActs]
              exact (List.getElem?_eq_some_iff.mp hd).1
            rw [List.getElem?_append_left hi, getElem?_activateActs, hd]
            refine ⟨_, rfl, ?_⟩
            split
            · exact ih d (List.mem_of_getElem? hd)
            · exact keeps_refl d

theorem keeps_deactivate (t : Act) : t.Keeps t.deactivate := by
  induction t using Act.induct with
  | h k n fl b c as ih =>
      cases b with
      | false =>
          rw [deactivate_of_not_active rfl]
          exact keeps_refl _
      | true =>
          rw [deactivate_mk]
          refine keeps_of_acts rfl fun i d hd => ?_
          change as[i]? = some d at hd
          show ∃ c', (deactivateActs k c 0 as)[i]? = some c' ∧ d.Keeps c'
          rw [getElem?_deactivateActs, hd]
          refine ⟨_, rfl, ?_⟩
          split
          · exact ih d (List.mem_of_getElem? hd)
          · exact keeps_refl d

theorem keeps_modify {f : Act → Act} (hf : ∀ c : Act, c.Keeps (f c)) (a : List ℕ) :
    t.Keeps (t.modify f a) := by
  induction a generalizing t with
  | nil => exact hf t
  | cons i a ih =>
      refine keeps_of_acts rfl fun j c hc => ?_
      show ∃ c', (t.acts.modify i fun x => x.modify f a)[j]? = some c' ∧ c.Keeps c'
      rw [List.getElem?_modify, hc]
      refine ⟨_, rfl, ?_⟩
      split
      · exact ih
      · exact keeps_refl c

theorem keeps_withCurrent (t : Act) (i : ℕ) : t.Keeps (t.withCurrent i) :=
  keeps_of_acts rfl fun _ c hc => ⟨c, hc, keeps_refl c⟩

theorem keeps_leaveCurrent (t : Act) : t.Keeps t.leaveCurrent :=
  keeps_modify keeps_deactivate [t.current]

theorem keeps_enter (t : Act) (i : ℕ) : t.Keeps (t.leaveCurrent.enter i) :=
  (t.keeps_leaveCurrent.trans (keeps_withCurrent _ i)).trans (keeps_modify keeps_activate [i])

theorem keeps_advance (t : Act) : t.Keeps t.advance := by
  unfold advance
  dsimp only
  split
  · exact t.keeps_enter _
  · exact t.keeps_leaveCurrent

/-- What is on the way to a place depends only on the acts above it. -/
theorem onPath_modify_of_not_below {f : Act → Act} {h b : List ℕ} (hb : h <+: b → b = h) :
    (t.modify f h).onPath b = t.onPath b := by
  induction h generalizing t b with
  | nil =>
      obtain rfl := hb (List.nil_prefix)
      rfl
  | cons i h ih =>
      cases b with
      | nil => rfl
      | cons j b =>
          show (t.selects j && ((t.acts.modify i fun x => x.modify f h)[j]?).elim false _) = _
          rw [List.getElem?_modify, onPath]
          rcases t.acts[j]? with - | d
          · rfl
          by_cases hij : i = j
          · subst hij
            have hb' : h <+: b → b = h := fun hpre =>
              (List.cons.inj (hb ((List.prefix_cons_inj i).mpr hpre))).2
            simp only [if_true, Option.map_eq_map, Option.map_some, Option.elim_some, ih hb']
          · simp [hij]

/-! ### Active act_serials have a current act -/

/-- Every act_serial that is active has a current act. -/
def Seated (t : Act) : Prop :=
  ∀ a c, t.get a = some c → c.kind = .serial → c.active = true → c.current < c.acts.length

theorem seated_iff : t.Seated ↔
    (t.kind = .serial → t.active = true → t.current < t.acts.length) ∧
      ∀ (i : ℕ) c, t.acts[i]? = some c → c.Seated :=
  forall_get_iff (P := fun c => c.kind = .serial → c.active = true → c.current < c.acts.length)

theorem seated_create (s : Spec) : s.create.Seated := by
  obtain ⟨k, n, fl⟩ := s
  refine seated_iff.mpr ⟨fun _ hact => ?_, fun i c hc => ?_⟩
  · cases hact
  · cases hc

/-- The acts that are loaded. -/
theorem seated_launchActs {k : ActKind} {cur off : ℕ} {fl : List Spec}
    (hfl : ∀ s ∈ fl, s.launchable = true → s.launch.Seated)
    (hsafe : launchableActs k cur off fl = true) {i : ℕ} {c : Act}
    (hc : (launchActs k cur off fl)[i]? = some c) : c.Seated := by
  rw [getElem?_launchActs, Option.map_eq_some_iff] at hc
  obtain ⟨s, hs, rfl⟩ := hc
  split
  · next hsel => exact hfl s (List.mem_of_getElem? hs) (launchable_of_mem hsafe hs hsel)
  · exact seated_create s

theorem seated_launch {s : Spec} (h : s.launchable = true) : s.launch.Seated := by
  induction s using Spec.induct with
  | h k n fl ih =>
      rw [launch_mk]
      by_cases hk : k = .leaf
      · subst hk
        refine seated_iff.mpr ⟨fun hk => ?_, fun i c hc => ?_⟩
        · cases hk
        · cases hc
      · obtain ⟨hacts, hlen⟩ := launchable_composite hk h
        rw [if_neg hk]
        refine seated_iff.mpr ⟨fun hser _ => ?_, fun i c hc => seated_launchActs ih hacts hc⟩
        show 0 < (launchActs k 0 0 fl).length
        rw [length_launchActs]
        exact hlen hser

theorem Seated.activate (h : t.Seated) (hsafe : t.startable = true) : t.activate.Seated := by
  induction t using Act.induct with
  | h k n fl b c as ih =>
      obtain ⟨hroot, hacts⟩ := seated_iff.mp h
      cases b with
      | true =>
          rw [activate_of_active rfl]
          exact h
      | false =>
          rw [activate_mk]
          by_cases hk : k = .leaf
          · rw [if_pos hk]
            refine seated_iff.mpr ⟨fun hser _ => ?_, hacts⟩
            rw [show k = .serial from hser] at hk
            cases hk
          · obtain ⟨hold, hnew, hcur⟩ := startable_composite hk hsafe
            rw [if_neg hk]
            refine seated_iff.mpr ⟨fun hser _ => ?_, fun i d hd => ?_⟩
            · show c < (activateActs k c 0 as ++ launchActs k c as.length fl).length
              rw [List.length_append, length_activateActs, length_launchActs]
              exact hcur hser
            · change (activateActs k c 0 as ++ launchActs k c as.length fl)[i]? = some d at hd
              rw [List.getElem?_append] at hd
              split at hd
              · rw [getElem?_activateActs, Nat.zero_add, Option.map_eq_some_iff] at hd
                obtain ⟨e, he, rfl⟩ := hd
                split
                · next hsel =>
                    refine ih e (List.mem_of_getElem? he) (hacts i e he) ?_
                    exact startable_of_mem hold he (by rwa [Nat.zero_add])
                · exact hacts i e he
              · exact seated_launchActs (fun s _ => seated_launch) hnew hd

theorem Seated.deactivate (h : t.Seated) : t.deactivate.Seated := by
  induction t using Act.induct with
  | h k n fl b c as ih =>
      obtain ⟨hroot, hacts⟩ := seated_iff.mp h
      cases b with
      | false =>
          rw [deactivate_of_not_active rfl]
          exact h
      | true =>
          rw [deactivate_mk]
          refine seated_iff.mpr ⟨fun _ hact => ?_, fun i d hd => ?_⟩
          · cases hact
          · change (deactivateActs k c 0 as)[i]? = some d at hd
            rw [getElem?_deactivateActs, Option.map_eq_some_iff] at hd
            obtain ⟨e, he, rfl⟩ := hd
            split
            · exact ih e (List.mem_of_getElem? he) (hacts i e he)
            · exact hacts i e he

theorem Seated.get {a : List ℕ} {c : Act} (h : t.Seated) (hc : t.get a = some c) : c.Seated := by
  intro b d hd
  exact h (a ++ b) d (by rw [get_append, hc]; exact hd)

/-- Changing one of the acts of an act. -/
theorem Seated.modifyAct {u : Act} {f : Act → Act} (h : t.Seated)
    (hf : ∀ c, t.acts[i]? = some c → (f c).Seated) (hacts : u.acts = t.acts.modify i f)
    (hcur : u.kind = .serial → u.active = true → u.current < t.acts.length) : u.Seated := by
  have hold := (seated_iff.mp h).2
  refine seated_iff.mpr ⟨fun hk hact => ?_, fun j e he => ?_⟩
  · rw [hacts, List.length_modify]
    exact hcur hk hact
  · rw [hacts, List.getElem?_modify, Option.map_eq_map, Option.map_eq_some_iff] at he
    obtain ⟨d, hd, rfl⟩ := he
    split
    · next hij =>
        subst hij
        exact hf d hd
    · exact hold j d hd

theorem Seated.modify {f : Act → Act} {a : List ℕ} {c : Act} (h : t.Seated)
    (hc : t.get a = some c) (hf : (f c).Seated) : (t.modify f a).Seated := by
  induction a generalizing t with
  | nil =>
      obtain rfl := Option.some.inj hc
      exact hf
  | cons i a ih =>
      obtain ⟨d, hd, hc⟩ := Option.bind_eq_some_iff.mp hc
      obtain ⟨hroot, hacts⟩ := seated_iff.mp h
      refine h.modifyAct (fun e he => ?_) rfl hroot
      obtain rfl := Option.some.inj (hd.symm.trans he)
      exact ih (hacts i d hd) hc

theorem Seated.leaveCurrent (h : t.Seated) : t.leaveCurrent.Seated := by
  obtain ⟨hroot, hacts⟩ := seated_iff.mp h
  exact h.modifyAct (fun c hc => (hacts _ c hc).deactivate) rfl hroot

/-- An act_serial that enters an act has it as its current act. -/
theorem Seated.enter (h : t.Seated) (hi : t.entersSafely i = true) :
    (t.leaveCurrent.enter i).Seated := by
  rw [entersSafely, Bool.and_eq_true] at hi
  obtain ⟨-, hsafe⟩ := hi
  rcases hc : t.leaveCurrent.acts[i]? with - | c
  · rw [hc] at hsafe
    cases hsafe
  rw [hc, Option.elim_some] at hsafe
  have hleft := (seated_iff.mp h.leaveCurrent).2
  refine h.leaveCurrent.modifyAct (fun d hd => ?_) rfl fun _ _ => ?_
  · obtain rfl := Option.some.inj (hc.symm.trans hd)
    exact (hleft i c hc).activate hsafe
  · exact (List.getElem?_eq_some_iff.mp hc).1

theorem Seated.advance (h : t.Seated) (hsafe : Bot.advancesSafely t = true) :
    t.advance.Seated := by
  rw [Bot.advancesSafely, Bool.and_eq_true] at hsafe
  by_cases hlt : t.current + 1 < t.acts.length
  · rw [advance_of_lt hlt]
    exact h.enter (by simpa [Nat.not_le.mpr hlt] using hsafe.2)
  · rw [advance_of_le (Nat.not_lt.mp hlt)]
    exact h.leaveCurrent

end Act

/-- A loop that has acts to go, of an act_parallel at or below the place
`p`. -/
def Frame.pendingIn (p : List ℕ) : Frame → Bool
  | .update _ => false
  | .loop b i n => decide (i < n) && p.isPrefixOf b

namespace Bot

variable {s s' : Bot}

/-! ### Which act is updated -/

/-- The act whose `on_update` a step calls. -/
def called (s : Bot) : Tick → Option (List ℕ)
  | .update => some []
  | .go =>
      match s.stack with
      | .update a :: _ => (s.root.get a).bind fun t =>
          if t.kind = .serial then some (a ++ [t.current]) else none
      | .loop b i n :: _ =>
          if (s.root.get b).map (·.acts.length) = some n ∧ i < n then some (b ++ [i]) else none
      | [] => none
  | .raise _ => none

/-- A call of `on_update` is on top of the stack. -/
theorem stack_of_called {l : Tick} {a : List ℕ} (hstep : s.step l = some s')
    (h : s.called l = some a) : s'.stack.head? = some (.update a) := by
  cases l with
  | update =>
      simp only [step, Option.ite_none_right_eq_some, Option.some.injEq] at hstep
      obtain ⟨-, rfl⟩ := hstep
      cases h
      rfl
  | go =>
      simp only [step] at hstep
      unfold called at h
      rcases hst : s.stack with - | ⟨⟨a'⟩ | ⟨b, i, n⟩, rest⟩
      · rw [hst] at hstep
        cases hstep
      · rw [hst] at hstep h
        obtain rfl := Option.some.inj hstep
        obtain ⟨t, ht, hif⟩ := Option.bind_eq_some_iff.mp h
        simp only [Option.ite_none_right_eq_some, Option.some.injEq] at hif
        obtain ⟨hk, rfl⟩ := hif
        simp [go, ht, hk]
      · rw [hst] at hstep h
        obtain rfl := Option.some.inj hstep
        simp only [Option.ite_none_right_eq_some, Option.some.injEq] at h
        obtain ⟨⟨hlen, hi⟩, rfl⟩ := h
        simp [go, hlen, hi]
  | raise sig => cases h

/-- The place of the act that is left when a signal moves the flow. -/
def leaves (s : Bot) : Effect → Option (List ℕ)
  | .select h _ | .advance h => (s.root.get h).map fun t => h ++ [t.current]
  | .stop => some []
  | .ignored | .threw => none

/-- A step that runs active acts only: the act whose `on_update` it calls is
active, and so is an act that moves the flow by its signal. -/
def RunsActive (s : Bot) (l : Tick) : Prop :=
  (∀ a, s.called l = some a → (s.root.get a).map Act.active = some true) ∧
  ∀ sig a rest, l = .raise sig → s.stack = .update a :: rest →
    (s.leaves (s.root.signal a sig)).isSome = true → (s.root.get a).map Act.active = some true

/-- What is asked of a step, with the stack it finds: the flow that is updated
is active; the act that moves the flow by its signal is on the path that is
selected still, and no loop that has acts to go is inside the act that is
left. -/
def Undisturbed (s : Bot) : Tick → List Frame → Prop
  | .update, _ => s.root.active = true
  | .raise sig, .update a :: rest => ∀ p ∈ s.leaves (s.root.signal a sig),
      s.root.active = true ∧ s.root.onPath a = true ∧ ∀ fr ∈ rest, fr.pendingIn p = false
  | _, _ => True

/-- A step after which active acts are updated only. -/
def Steady (s : Bot) (l : Tick) : Prop := s.Orderly l ∧ s.Undisturbed l s.stack

instance (s : Bot) : (l : Tick) → (st : List Frame) → Decidable (s.Undisturbed l st)
  | .update, _ => inferInstanceAs (Decidable (s.root.active = true))
  | .raise sig, .update a :: rest => inferInstanceAs (Decidable (
      ∀ p ∈ s.leaves (s.root.signal a sig),
        s.root.active = true ∧ s.root.onPath a = true ∧ ∀ fr ∈ rest, fr.pendingIn p = false))
  | .go, _ | .raise _, [] | .raise _, .loop _ _ _ :: _ => isTrue trivial

instance (s : Bot) (l : Tick) : Decidable (s.Steady l) :=
  inferInstanceAs (Decidable (s.Orderly l ∧ s.Undisturbed l s.stack))

/-! ### The invariant -/

/-- The flow is active, and every act on the way to the place is selected. -/
def Live (s : Bot) (a : List ℕ) : Prop := s.root.active = true ∧ s.root.onPath a = true

/-- A loop below the top of the stack that has acts to go is one of an
act_parallel that is live. -/
def Going (s : Bot) : Frame → Prop
  | .update _ => False
  | .loop b i n => i < n → s.Live b ∧ (s.root.get b).map Act.kind = some .parallel

/-- On top of the stack is an act that is live, or a leaf that was left, or
such a loop. -/
def OnTop (s : Bot) : Frame → Prop
  | .update a => s.Live a ∨ (s.root.get a).map Act.kind = some .leaf
  | .loop b i n => s.Going (.loop b i n)

/-- **The invariant of the steady runs.** -/
structure Ready (s : Bot) : Prop where
  sound : s.Sound
  seated : s.root.Seated
  top : ∀ fr ∈ s.stack.head?, s.OnTop fr
  rest : ∀ fr ∈ s.stack.tail, s.Going fr

theorem Going.onTop {fr : Frame} (h : s.Going fr) : s.OnTop fr := by
  cases fr with
  | update a => exact h.elim
  | loop b i n => exact h

theorem isSome_of_onPath {t : Act} {a : List ℕ} (h : t.onPath a = true) :
    (t.get a).isSome = true := by
  induction a generalizing t with
  | nil => rfl
  | cons i a ih =>
      rw [Act.onPath, Bool.and_eq_true] at h
      rw [Act.get]
      rcases hc : t.acts[i]? with - | c
      · rw [hc] at h
        cases h.2
      · rw [hc] at h
        exact ih h.2

/-- **An act that is live is active.** -/
theorem Ready.active (h : s.Ready) {a : List ℕ} (ha : s.Live a) :
    (s.root.get a).map Act.active = some true := by
  obtain ⟨c, hc⟩ := Option.isSome_iff_exists.mp (isSome_of_onPath ha.2)
  rw [hc, Option.map_some, ((h.sound ha.1).2 a c hc).mpr ha.2]

/-- An act that a live act selects is live. -/
theorem Live.child {a : List ℕ} {i : ℕ} {t : Act} (ha : s.Live a) (ht : s.root.get a = some t)
    (hsel : t.selects i = true) (hi : i < t.acts.length) : s.Live (a ++ [i]) := by
  refine ⟨ha.1, ?_⟩
  rw [Act.onPath_child ht (List.getElem?_eq_getElem hi), ha.2, hsel]
  rfl

theorem Going.of_root {fr : Frame} (h : s.Going fr) (hroot : s'.root = s.root) :
    s'.Going fr := by
  cases fr with
  | update a => exact h
  | loop b i n =>
      unfold Going Live at h ⊢
      rwa [hroot]

theorem OnTop.of_root {fr : Frame} (h : s.OnTop fr) (hroot : s'.root = s.root) :
    s'.OnTop fr := by
  cases fr with
  | update a =>
      unfold OnTop Live at h ⊢
      rwa [hroot]
  | loop b i n =>
      have hgoing : s.Going (.loop b i n) := h
      exact (hgoing.of_root hroot).onTop

/-! ### One step -/

/-- The innermost call of `update` is done. -/
theorem onTop_of_going {rest : List Frame} (h : ∀ fr ∈ rest, s.Going fr) :
    (∀ fr ∈ rest.head?, s.OnTop fr) ∧ ∀ fr ∈ rest.tail, s.Going fr :=
  ⟨fun fr hfr => (h fr (List.mem_of_mem_head? hfr)).onTop,
    fun fr hfr => h fr (List.mem_of_mem_tail hfr)⟩

/-- **The act whose `on_update` a running update calls is live.** -/
theorem Ready.live_called {a : List ℕ} (h : s.Ready) (hc : s.called .go = some a) : s.Live a := by
  unfold called at hc
  rcases hst : s.stack with - | ⟨⟨b⟩ | ⟨b, i, n⟩, rest⟩
  · rw [hst] at hc
    cases hc
  · -- an act_serial updates its current act
    rw [hst] at hc
    obtain ⟨t, ht, hif⟩ := Option.bind_eq_some_iff.mp hc
    simp only [Option.ite_none_right_eq_some, Option.some.injEq] at hif
    obtain ⟨hk, rfl⟩ := hif
    have htop : s.OnTop (.update b) := h.top _ (by rw [hst]; rfl)
    have hlive : s.Live b := by
      refine htop.resolve_right fun hleaf => ?_
      rw [ht, Option.map_some, hk] at hleaf
      cases hleaf
    have hact : t.active = true := ((h.sound hlive.1).2 b t ht).mpr hlive.2
    have hsel : t.selects t.current = true := by
      rw [Act.selects, hk]
      exact beq_self_eq_true _
    exact hlive.child ht hsel (h.seated b t ht hk hact)
  · -- an act_parallel updates the next of its acts
    rw [hst] at hc
    simp only [Option.ite_none_right_eq_some, Option.some.injEq] at hc
    obtain ⟨⟨hlen, hi⟩, rfl⟩ := hc
    have htop : s.OnTop (.loop b i n) := h.top _ (by rw [hst]; rfl)
    obtain ⟨hlive, hk⟩ := htop hi
    obtain ⟨t, ht, hn⟩ := Option.map_eq_some_iff.mp hlen
    rw [ht, Option.map_some, Option.some.injEq] at hk
    have hsel : t.selects i = true := by
      rw [Act.selects, hk]
      rfl
    exact hlive.child ht hsel (by rwa [hn])

/-- The stack after the innermost call of `update` has gone on. -/
theorem Ready.stack_go {fr : Frame} {rest : List Frame} (h : s.Ready)
    (hst : s.stack = fr :: rest) :
    (∀ fr' ∈ (s.go fr rest).stack.head?, s.OnTop fr') ∧
      ∀ fr' ∈ (s.go fr rest).stack.tail, s.Going fr' := by
  have htop : s.OnTop fr := h.top fr (by rw [hst]; rfl)
  have hrest : ∀ fr' ∈ rest, s.Going fr' := by
    have := h.rest
    rwa [hst] at this
  cases fr with
  | update a =>
      rcases ht : s.root.get a with - | t
      · simpa only [go, ht, hst] using And.intro h.top h.rest
      rcases hk : t.kind
      · simpa only [go, ht, hk] using onTop_of_going hrest
      · have hchild : s.OnTop (.update (a ++ [t.current])) :=
          .inl (h.live_called (by simp [called, hst, ht, hk]))
        simpa only [go, ht, hk, List.head?_cons, List.tail_cons, Option.mem_some_iff, forall_eq']
          using And.intro hchild hrest
      · have hkind : (s.root.get a).map Act.kind = some .parallel := by
          rw [ht, Option.map_some, hk]
        have hlive : s.Live a := htop.resolve_right (by simp [hkind])
        have hgoing : s.Going (.loop a 0 t.acts.length) := fun _ => ⟨hlive, hkind⟩
        simpa only [go, ht, hk, List.head?_cons, List.tail_cons, Option.mem_some_iff, forall_eq']
          using And.intro hgoing.onTop hrest
  | loop b i n =>
      by_cases hlen : (s.root.get b).map (·.acts.length) = some n
      · by_cases hi : i < n
        · have hchild : s.OnTop (.update (b ++ [i])) :=
            .inl (h.live_called (by simp [called, hst, hlen, hi]))
          have hgoing : s.Going (.loop b (i + 1) n) := fun _ => htop hi
          simpa only [go, hlen, hi, if_true, List.head?_cons, List.tail_cons, Option.mem_some_iff,
            forall_eq', List.forall_mem_cons] using And.intro hchild ⟨hgoing, hrest⟩
        · simpa only [go, hlen, hi, if_true, if_false] using onTop_of_going hrest
      · simpa only [go, hlen, if_false, hst] using And.intro h.top h.rest

/-! ### Signals -/

theorem keeps_change {h : List ℕ} {safe : Act → Bool} {f : Act → Act}
    (hf : ∀ c : Act, c.Keeps (f c)) : s.root.Keeps (s.change h safe f).root := by
  unfold change
  split
  · exact Act.keeps_refl _
  · split
    · exact Act.keeps_modify hf h
    · exact Act.keeps_refl _

theorem keeps_handle (s : Bot) (e : Effect) : s.root.Keeps (s.handle e).root := by
  cases e with
  | ignored => exact Act.keeps_refl _
  | threw => exact Act.keeps_refl _
  | select h i => exact keeps_change fun c => c.keeps_enter i
  | advance h => exact keeps_change Act.keeps_advance
  | stop => exact Act.keeps_deactivate _

theorem seated_change {h : List ℕ} {safe : Act → Bool} {f : Act → Act} (hs : s.root.Seated)
    (hf : ∀ {c : Act}, c.Seated → safe c = true → (f c).Seated) :
    (s.change h safe f).root.Seated := by
  unfold change
  split
  · exact hs
  · next t ht =>
      split
      · next hsafe => exact hs.modify ht (hf (hs.get ht) hsafe)
      · exact hs

theorem seated_handle (hs : s.root.Seated) (e : Effect) : (s.handle e).root.Seated := by
  cases e with
  | ignored => exact hs
  | threw => exact hs
  | select h i => exact seated_change hs fun hc hsafe => hc.enter hsafe
  | advance h => exact seated_change hs fun hc hsafe => hc.advance hsafe
  | stop => exact hs.deactivate

/-- A place that is selected, but not inside the act that is left, is not below
the act_serial that moves. -/
theorem not_below_of_onPath {root t : Act} {h b : List ℕ} (ht : root.get h = some t)
    (hk : t.kind = .serial) (hb : root.onPath b = true) (hout : ¬ h ++ [t.current] <+: b) :
    h <+: b → b = h := by
  rintro ⟨c, rfl⟩
  cases c with
  | nil => exact List.append_nil h
  | cons j c =>
      exfalso
      rw [Act.onPath_append ht, Bool.and_eq_true, Act.onPath, Bool.and_eq_true, Act.selects, hk]
        at hb
      have hj : j = t.current := by simpa [ActKind.selects] using hb.2.1
      exact hout ⟨c, by simp [hj]⟩

/-- A loop outside the act that is left goes on. -/
theorem Going.change {h : List ℕ} {safe : Act → Bool} {f : Act → Act} {t : Act} {fr : Frame}
    (hgoing : s.Going fr) (hkeeps : ∀ c : Act, c.Keeps (f c))
    (hact : ∀ c : Act, (f c).active = c.active) (ht : s.root.get h = some t)
    (hk : t.kind = .serial) (hout : fr.pendingIn (h ++ [t.current]) = false) :
    (s.change h safe f).Going fr := by
  cases fr with
  | update a => exact hgoing
  | loop b i n =>
      intro hi
      obtain ⟨⟨hon, hpath⟩, hkind⟩ := hgoing hi
      have hprefix : ¬ h ++ [t.current] <+: b := by
        simpa [Frame.pendingIn, hi, ← List.isPrefixOf_iff_prefix] using hout
      have hbelow := not_below_of_onPath ht hk hpath hprefix
      refine ⟨?_, keeps_change hkeeps b _ hkind⟩
      unfold Bot.change Live
      rw [ht]
      dsimp only
      split
      · exact ⟨(Act.active_modify hact).trans hon,
          (Act.onPath_modify_of_not_below hbelow).trans hpath⟩
      · exact ⟨hon, hpath⟩

/-- What a signal comes to stops no loop outside the act that is left. -/
theorem Going.handle {a : List ℕ} {sig : Signal} {fr : Frame} (hgoing : s.Going fr)
    (hout : ∀ p ∈ s.leaves (s.root.signal a sig), fr.pendingIn p = false) :
    (s.handle (s.root.signal a sig)).Going fr := by
  rcases hsig : s.root.signal a sig with - | - | ⟨h, i⟩ | h | -
  · exact hgoing
  · exact hgoing.of_root rfl
  · obtain ⟨t, ht, hk⟩ := Option.map_eq_some_iff.mp (Act.kind_of_select hsig)
    refine hgoing.change (fun c => c.keeps_enter i) (fun _ => rfl) ht hk (hout _ ?_)
    rw [hsig, leaves, ht]
    rfl
  · obtain ⟨t, ht, hk⟩ := Option.map_eq_some_iff.mp (Act.kind_of_advance hsig)
    refine hgoing.change Act.keeps_advance Act.active_advance ht hk (hout _ ?_)
    rw [hsig, leaves, ht]
    rfl
  · -- every loop is inside the flow
    have hnone := hout [] (by rw [hsig]; rfl)
    cases fr with
    | update a => exact hgoing
    | loop b i n =>
        intro hi
        simp [Frame.pendingIn, hi] at hnone

theorem stack_handle (s : Bot) (e : Effect) :
    (s.handle e).stack = s.stack ∨ (s.handle e).stack = [] := by
  have hchange : ∀ h safe f, (s.change h safe f).stack = s.stack := by
    intro h safe f
    unfold change
    split
    · rfl
    · split <;> rfl
  cases e with
  | ignored => exact .inl rfl
  | threw => exact .inr rfl
  | select h i => exact .inl (hchange _ _ _)
  | advance h => exact .inl (hchange _ _ _)
  | stop => exact .inl rfl

/-- The stack after a leaf has raised a signal. -/
theorem Ready.stack_raise {a : List ℕ} {rest : List Frame} {sig : Signal} (h : s.Ready)
    (hst : s.stack = .update a :: rest) (hleaf : (s.root.get a).map Act.kind = some .leaf)
    (hu : s.Undisturbed (.raise sig) s.stack) :
    (∀ fr ∈ (s.handle (s.root.signal a sig)).stack.head?,
        (s.handle (s.root.signal a sig)).OnTop fr) ∧
      ∀ fr ∈ (s.handle (s.root.signal a sig)).stack.tail,
        (s.handle (s.root.signal a sig)).Going fr := by
  rw [hst] at hu
  have hrest : ∀ fr ∈ rest, s.Going fr := by
    have := h.rest
    rwa [hst] at this
  rcases stack_handle s (s.root.signal a sig) with hs | hs
  · rw [hs, hst]
    refine ⟨fun fr hfr => ?_, fun fr hfr => ?_⟩
    · obtain rfl := Option.some.inj hfr
      exact .inr (keeps_handle s _ a _ hleaf)
    · exact (hrest fr hfr).handle fun p hp => (hu p hp).2.2 fr hfr
  · rw [hs]
    simp

/-- **One steady step.** -/
theorem Ready.step {l : Tick} (h : s.Ready) (hG : s.Steady l) (hstep : s.step l = some s') :
    s'.Ready := by
  have hsound := (sound_step h.sound hstep).mpr hG.1
  cases l with
  | update =>
      simp only [Bot.step, Option.ite_none_right_eq_some, Option.some.injEq] at hstep
      obtain ⟨-, rfl⟩ := hstep
      refine ⟨hsound, h.seated, fun fr hfr => ?_, fun fr hfr => ?_⟩
      · obtain rfl := Option.some.inj hfr
        exact .inl ⟨hG.2, rfl⟩
      · cases hfr
  | go =>
      simp only [Bot.step] at hstep
      split at hstep
      · cases hstep
      · next fr rest hst =>
          obtain rfl := Option.some.inj hstep
          obtain ⟨htop, hrest⟩ := h.stack_go hst
          have hroot := root_go s fr rest
          exact ⟨hsound, by rw [hroot]; exact h.seated, fun fr' hfr => (htop fr' hfr).of_root hroot,
            fun fr' hfr => (hrest fr' hfr).of_root hroot⟩
  | raise sig =>
      simp only [Bot.step] at hstep
      split at hstep
      · next a rest hst =>
          simp only [Option.ite_none_right_eq_some, Option.some.injEq] at hstep
          obtain ⟨hleaf, rfl⟩ := hstep
          obtain ⟨htop, hrest⟩ := h.stack_raise hst hleaf hG.2
          exact ⟨hsound, seated_handle h.seated _, htop, hrest⟩
      · cases hstep

/-- What a steady step runs is active. -/
theorem Ready.runsActive {l : Tick} (h : s.Ready) (hG : s.Steady l) : s.RunsActive l := by
  refine ⟨fun a hc => h.active ?_, fun sig a rest hl hst hmoves => h.active ?_⟩
  · cases l with
    | update =>
        cases hc
        exact ⟨hG.2, rfl⟩
    | go => exact h.live_called hc
    | raise sig => cases hc
  · obtain ⟨p, hp⟩ := Option.isSome_iff_exists.mp hmoves
    have hu := hG.2
    rw [hl, hst] at hu
    exact ⟨(hu p hp).1, (hu p hp).2.1⟩

theorem ready_start {fl : List Spec}
    (hfl : (Spec.mk .serial ['f', 'l', 'o', 'w'] fl).launchable = true) : (start fl).Ready :=
  ⟨sound_start hfl, Act.seated_launch hfl, by simp [start], by simp [start]⟩

/-- **In a steady run only active acts are updated**, and only active acts move
the flow, for every flow that can be activated and whatever signals its leaves
raise. -/
theorem runsActive_of_steady {fl : List Spec} {ls : List Tick}
    (hfl : (Spec.mk .serial ['f', 'l', 'o', 'w'] fl).launchable = true)
    (hG : Along step Steady (start fl) ls) : Along step RunsActive (start fl) ls :=
  hG.imp (fun h hG hs => h.step hG hs) (fun h hG => h.runsActive hG) (ready_start hfl)

/-- An act_parallel of two leaves, and two leaves after it. -/
def besideLeaf : List Spec :=
  [.mk .parallel ['p'] [.mk .leaf ['a'] [], .mk .leaf ['b'] []], .mk .leaf ['c'] [],
    .mk .leaf ['d'] []]

/-- The second leaf of the act_parallel jumps out of it. -/
def lastJumpsOut : List Tick :=
  [.update, .go, .go, .go, .go, .go, .raise (.jump ['/', 'f', 'l', 'o', 'w', '/', 'c']), .go, .go,
    .update, .go, .go]

theorem runsActive_lastJumpsOut : (runSteps step (start besideLeaf) lastJumpsOut).isSome = true ∧
    Along step RunsActive (start besideLeaf) lastJumpsOut :=
  ⟨by decide +kernel, runsActive_of_steady (by decide +kernel) (by decide +kernel)⟩

/-- The first leaf jumps out, and the loop goes on. -/
def firstJumpsOut : List Tick :=
  [.update, .go, .go, .go, .raise (.jump ['/', 'f', 'l', 'o', 'w', '/', 'c']), .go]

/-- The second leaf is updated though it is not active, and by its jump moves
the flow once more. -/
theorem firstJumpsOut_runs_inactive :
    (runSteps step (start besideLeaf) firstJumpsOut).map
      (fun s => (s.called .go, (s.root.get [0, 1]).map Act.active, s.root.current))
      = some (some [0, 1], some false, 1) ∧
    (runSteps step (start besideLeaf)
        (firstJumpsOut ++ [.go, .raise (.jump ['/', 'f', 'l', 'o', 'w', '/', 'd'])])).map
      (fun s => s.root.current) = some 2 ∧
    ¬ Along step RunsActive (start besideLeaf) (firstJumpsOut ++ [.go]) := by
  have hrun : (runSteps step (start besideLeaf) firstJumpsOut).map
      (fun s => (s.called .go, (s.root.get [0, 1]).map Act.active, s.root.current))
      = some (some [0, 1], some false, 1) := by decide +kernel
  refine ⟨hrun, by decide +kernel, fun h => ?_⟩
  obtain ⟨s, hs, hlast⟩ := Option.map_eq_some_iff.mp hrun
  obtain ⟨hcalled, hrest⟩ := Prod.mk.inj hlast
  obtain ⟨hoff, -⟩ := Prod.mk.inj hrest
  have hact := (h.of_append hs).1.1 [0, 1] hcalled
  rw [hoff] at hact
  cases hact

end Bot

end Play
