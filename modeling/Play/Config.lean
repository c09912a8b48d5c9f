/-
Play/Config.lean

Which acts are active.

An act_serial selects its current act, an act_parallel all its acts.  The act
tree is configured when an act is active exactly if every act on the way to
it is selected (`Configured`).

An update of the flow runs down to the leaves, and leaves change the tree by
their signals while the act_parallels above them are still in their loops.
A `Bot` therefore has, beside the tree, the stack of the calls of `update`
that are running, and a step is one move on this stack or one signal.  An
exception unwinds the stack.  The loop of an act_parallel goes through the
iterators that `acts_` had when it began; if the act has been activated again
meanwhile, `acts_` has grown, and going on is undefined (`fault`).

`configured_iff_orderly` says in which runs the tree stays configured.  It
does not where an act_serial that is not active takes a signal, nor where
`next` is called at the last act.
-/
import Play.Acts

namespace Play

/-! ### Induction over acts -/

theorem Spec.induct {M : Spec → Prop}
    (h : ∀ k n fl, (∀ s ∈ fl, M s) → M (.mk k n fl)) (s : Spec) : M s :=
  @Spec.rec M (fun fl => ∀ s ∈ fl, M s) (fun k n fl ih => h k n fl ih) (by simp)
    (fun s ss hs hss => by simpa using ⟨hs, hss⟩) s

theorem Act.induct {M : Act → Prop}
    (h : ∀ k n fl b c as, (∀ a ∈ as, M a) → M (.mk k n fl b c as)) (t : Act) : M t :=
  @Act.rec M (fun as => ∀ a ∈ as, M a) (fun k n fl b c as ih => h k n fl b c as ih) (by simp)
    (fun a as ha has => by simpa using ⟨ha, has⟩) t

/-! ### The acts of an act -/

theorem getElem?_launchActs (k : ActKind) (c i : ℕ) (ss : List Spec) (j : ℕ) :
    (launchActs k c i ss)[j]? =
      (ss[j]?).map fun s => if k.selects c (i + j) then s.launch else s.create := by
  induction ss generalizing i j with
  | nil => simp [launchActs]
  | cons s ss ih =>
      cases j with
      | zero => simp [launchActs]
      | succ j =>
          rw [launchActs, List.getElem?_cons_succ, List.getElem?_cons_succ, ih]
          simp [Nat.add_assoc, Nat.add_comm 1]

theorem getElem?_activateActs (k : ActKind) (c i : ℕ) (as : List Act) (j : ℕ) :
    (activateActs k c i as)[j]? =
      (as[j]?).map fun a => if k.selects c (i + j) then a.activate else a := by
  induction as generalizing i j with
  | nil => simp [activateActs]
  | cons a as ih =>
      cases j with
      | zero => simp [activateActs]
      | succ j =>
          rw [activateActs, List.getElem?_cons_succ, List.getElem?_cons_succ, ih]
          simp [Nat.add_assoc, Nat.add_comm 1]

theorem getElem?_deactivateActs (k : ActKind) (c i : ℕ) (as : List Act) (j : ℕ) :
    (deactivateActs k c i as)[j]? =
      (as[j]?).map fun a => if k.selects c (i + j) then a.deactivate else a := by
  induction as generalizing i j with
  | nil => simp [deactivateActs]
  | cons a as ih =>
      cases j with
      | zero => simp [deactivateActs]
      | succ j =>
          rw [deactivateActs, List.getElem?_cons_succ, List.getElem?_cons_succ, ih]
          simp [Nat.add_assoc, Nat.add_comm 1]

theorem length_activateActs (k : ActKind) (c i : ℕ) (as : List Act) :
    (activateActs k c i as).length = as.length := by
  induction as generalizing i with
  | nil => rfl
  | cons a as ih => simp [activateActs, ih]

theorem length_deactivateActs (k : ActKind) (c i : ℕ) (as : List Act) :
    (deactivateActs k c i as).length = as.length := by
  induction as generalizing i with
  | nil => rfl
  | cons a as ih => simp [deactivateActs, ih]

theorem length_launchActs (k : ActKind) (c i : ℕ) (ss : List Spec) :
    (launchActs k c i ss).length = ss.length := by
  induction ss generalizing i with
  | nil => rfl
  | cons s ss ih => simp [launchActs, ih]

theorem launchable_of_mem {k : ActKind} {c i : ℕ} {ss : List Spec} {j : ℕ} {s : Spec}
    (h : launchableActs k c i ss = true) (hs : ss[j]? = some s)
    (hsel : k.selects c (i + j) = true) : s.launchable = true := by
  induction ss generalizing i j with
  | nil => cases hs
  | cons s' ss ih =>
      rw [launchableActs, Bool.and_eq_true] at h
      cases j with
      | zero =>
          cases hs
          rw [Nat.add_zero] at hsel
          simpa [hsel] using h.1
      | succ j => exact ih h.2 hs (by rwa [Nat.add_assoc, Nat.add_comm 1])

theorem startable_of_mem {k : ActKind} {c i : ℕ} {as : List Act} {j : ℕ} {a : Act}
    (h : startableActs k c i as = true) (ha : as[j]? = some a)
    (hsel : k.selects c (i + j) = true) : a.startable = true := by
  induction as generalizing i j with
  | nil => cases ha
  | cons a' as ih =>
      rw [startableActs, Bool.and_eq_true] at h
      cases j with
      | zero =>
          cases ha
          rw [Nat.add_zero] at hsel
          simpa [hsel] using h.1
      | succ j => exact ih h.2 ha (by rwa [Nat.add_assoc, Nat.add_comm 1])

/-- What is read when a composite act is made and activated. -/
theorem launchable_composite {k : ActKind} {n : Text} {fl : List Spec} (hk : k ≠ .leaf)
    (h : (Spec.mk k n fl).launchable = true) :
    launchableActs k 0 0 fl = true ∧ (k = .serial → 0 < fl.length) := by
  cases k with
  | leaf => exact absurd rfl hk
  | serial => simpa [Spec.launchable, and_comm] using h
  | parallel => simpa [Spec.launchable] using h

/-- What is read when a composite act that is not active is activated. -/
theorem startable_composite {k : ActKind} {n : Text} {fl : List Spec} {c : ℕ} {as : List Act}
    (hk : k ≠ .leaf) (h : (Act.mk k n fl false c as).startable = true) :
    startableActs k c 0 as = true ∧ launchableActs k c as.length fl = true ∧
      (k = .serial → c < as.length + fl.length) := by
  cases k with
  | leaf => exact absurd rfl hk
  | serial =>
      simp only [Act.startable, Bool.false_or, Bool.and_eq_true, decide_eq_true_eq] at h
      exact ⟨h.1.2, h.2, fun _ => h.1.1⟩
  | parallel => simpa [Act.startable] using h

namespace Act

/-- A property of all acts of a tree, one act after the other. -/
theorem forall_get_iff {P : Act → Prop} {t : Act} :
    (∀ a c, t.get a = some c → P c) ↔
      P t ∧ ∀ (i : ℕ) c, t.acts[i]? = some c → ∀ a d, c.get a = some d → P d := by
  constructor
  · intro h
    refine ⟨h [] t rfl, fun i c hc a d hd => h (i :: a) d ?_⟩
    rw [get, hc]
    exact hd
  · rintro ⟨hroot, hacts⟩ a c hc
    cases a with
    | nil =>
        obtain rfl := Option.some.inj hc
        exact hroot
    | cons i a =>
        obtain ⟨d, hd, hc⟩ := Option.bind_eq_some_iff.mp hc
        exact hacts i d hd a c hc

/-! ### Configurations -/

/-- Every act on the way from this act to a place is selected. -/
def onPath : Act → List ℕ → Bool
  | _, [] => true
  | t, i :: a => t.selects i && (t.acts[i]?).elim false (onPath · a)

/-- An act is active exactly if every act on the way to it is selected. -/
def Configured (t : Act) : Prop :=
  ∀ a c, t.get a = some c → (c.active = true ↔ t.onPath a = true)

/-- The same of a subtree, whose root is to be active or not. -/
def Conf (on : Bool) (t : Act) : Prop := ∀ a c, t.get a = some c → c.active = (on && t.onPath a)

theorem conf_iff {on : Bool} {t : Act} :
    t.Conf on ↔ t.active = on ∧ ∀ (i : ℕ) c, t.acts[i]? = some c → c.Conf (on && t.selects i) := by
  constructor
  · intro h
    refine ⟨?_, fun i c hc a d hd => ?_⟩
    · have := h [] t rfl
      simpa [onPath] using this
    · have := h (i :: a) d (by rw [get, hc]; exact hd)
      rw [this, onPath, hc]
      simp [Bool.and_assoc]
  · rintro ⟨hroot, hacts⟩ a c hc
    cases a with
    | nil =>
        obtain rfl := Option.some.inj hc
        simpa [onPath] using hroot
    | cons i a =>
        obtain ⟨d, hd, hc⟩ := Option.bind_eq_some_iff.mp hc
        rw [hacts i d hd a c hc, onPath, hd]
        simp [Bool.and_assoc]

theorem configured_of_conf {t : Act} (h : t.Conf true) : t.Configured := by
  intro a c hc
  rw [h a c hc, Bool.true_and]

theorem conf_of_configured {t : Act} (h : t.Configured) : t.Conf true := by
  intro a c hc
  rw [Bool.true_and, Bool.eq_iff_iff]
  exact h a c hc

/-- A part of a configured tree. -/
theorem Conf.get {on : Bool} {t c : Act} {a : List ℕ} (h : t.Conf on) (hc : t.get a = some c) :
    c.Conf (on && t.onPath a) := by
  induction a generalizing t on with
  | nil =>
      obtain rfl := Option.some.inj hc
      simpa [onPath] using h
  | cons i a ih =>
      obtain ⟨d, hd, hc⟩ := Option.bind_eq_some_iff.mp hc
      have := ih ((conf_iff.mp h).2 i d hd) hc
      rw [onPath, hd]
      simpa [Bool.and_assoc] using this

/-! ### Activating and deactivating -/

theorem conf_create (s : Spec) : s.create.Conf false := by
  obtain ⟨k, n, fl⟩ := s
  refine conf_iff.mpr ⟨rfl, fun i c hc => ?_⟩
  simp [Spec.create, acts] at hc

/-- The acts that are loaded: the selected ones are configured as active. -/
theorem conf_launchActs {k : ActKind} {cur off : ℕ} {fl : List Spec}
    (hfl : ∀ s ∈ fl, s.launch.Conf true) {i : ℕ} {c : Act}
    (hc : (launchActs k cur off fl)[i]? = some c) : c.Conf (k.selects cur (off + i)) := by
  rw [getElem?_launchActs, Option.map_eq_some_iff] at hc
  obtain ⟨s, hs, rfl⟩ := hc
  rcases hsel : k.selects cur (off + i) with - | -
  · exact conf_create s
  · exact hfl s (List.mem_of_getElem? hs)

/-- What comes of an act that is created and activated at once. -/
theorem launch_mk (k : ActKind) (n : Text) (fl : List Spec) :
    (Spec.mk k n fl).launch = mk k n fl true 0
      (if k = .leaf then [] else launchActs k 0 0 fl) := by
  cases k <;> simp [Spec.launch]

theorem conf_launch (s : Spec) : s.launch.Conf true := by
  induction s using Spec.induct with
  | h k n fl ih =>
      rw [launch_mk]
      refine conf_iff.mpr ⟨rfl, fun i c hc => ?_⟩
      change (if k = .leaf then [] else _)[i]? = some c at hc
      split at hc
      · cases hc
      · have := conf_launchActs ih hc
        rwa [Nat.zero_add] at this

/-- What `activate` makes of an act that is not active. -/
theorem activate_mk (k : ActKind) (n : Text) (fl : List Spec) (c : ℕ) (as : List Act) :
    (mk k n fl false c as).activate = mk k n fl true c
      (if k = .leaf then as else activateActs k c 0 as ++ launchActs k c as.length fl) := by
  cases k <;> simp [activate]

theorem deactivate_mk (k : ActKind) (n : Text) (fl : List Spec) (c : ℕ) (as : List Act) :
    (mk k n fl true c as).deactivate = mk k n fl false c (deactivateActs k c 0 as) := by
  simp [deactivate]

theorem activate_of_active {t : Act} (h : t.active = true) : t.activate = t := by
  obtain ⟨k, n, fl, b, c, as⟩ := t
  obtain rfl : b = true := h
  simp [activate]

theorem deactivate_of_not_active {t : Act} (h : t.active = false) : t.deactivate = t := by
  obtain ⟨k, n, fl, b, c, as⟩ := t
  obtain rfl : b = false := h
  simp [deactivate]

/-- **Activating a part that is configured as inactive.** -/
theorem Conf.activate {t : Act} (h : t.Conf false) : t.activate.Conf true := by
  induction t using Act.induct with
  | h k n fl b c as ih =>
      obtain ⟨hb, has⟩ := conf_iff.mp h
      obtain rfl : b = false := hb
      have hold : ∀ (i : ℕ) d, as[i]? = some d → d.Conf false := by
        intro i d hd
        simpa using has i d hd
      rw [activate_mk]
      refine conf_iff.mpr ⟨rfl, fun i d hd => ?_⟩
      show d.Conf (true && k.selects c i)
      rw [Bool.true_and]
      change (if k = .leaf then as else _)[i]? = some d at hd
      split at hd
      · next hleaf =>
          rw [hleaf]
          exact hold i d hd
      · rw [List.getElem?_append, length_activateActs] at hd
        split at hd
        · rw [getElem?_activateActs, Nat.zero_add, Option.map_eq_some_iff] at hd
          obtain ⟨e, he, rfl⟩ := hd
          rcases hsel : k.selects c i with - | -
          · exact hold i e he
          · exact ih e (List.mem_of_getElem? he) (hold i e he)
        · next hlt =>
            have := conf_launchActs (fun s _ => conf_launch s) hd
            rwa [Nat.add_sub_cancel' (by omega)] at this

/-- **Deactivating a part that is configured as active.** -/
theorem Conf.deactivate {t : Act} (h : t.Conf true) : t.deactivate.Conf false := by
  induction t using Act.induct with
  | h k n fl b c as ih =>
      obtain ⟨hb, has⟩ := conf_iff.mp h
      obtain rfl : b = true := hb
      have hold : ∀ (i : ℕ) d, as[i]? = some d → d.Conf (k.selects c i) := by
        intro i d hd
        have := has i d hd
        rwa [Bool.true_and] at this
      rw [deactivate_mk]
      refine conf_iff.mpr ⟨rfl, fun i d hd => ?_⟩
      rw [Bool.false_and]
      change (deactivateActs k c 0 as)[i]? = some d at hd
      rw [getElem?_deactivateActs, Nat.zero_add, Option.map_eq_some_iff] at hd
      obtain ⟨e, he, rfl⟩ := hd
      have hconf := hold i e he
      rcases hsel : k.selects c i with - | - <;> rw [hsel] at hconf
      · exact hconf
      · exact ih e (List.mem_of_getElem? he) hconf

/-! ### Changing one act -/

/-- An act on a selected path is replaced by one that is configured too. -/
theorem Conf.modify {on : Bool} {t c : Act} {a : List ℕ} {f : Act → Act} (h : t.Conf on)
    (hc : t.get a = some c) (hpath : t.onPath a = true) (hf : (f c).Conf on) :
    (t.modify f a).Conf on := by
  induction a generalizing t with
  | nil =>
      obtain rfl := Option.some.inj hc
      exact hf
  | cons i a ih =>
      obtain ⟨d, hd, hc⟩ := Option.bind_eq_some_iff.mp hc
      rw [onPath, hd, Bool.and_eq_true] at hpath
      obtain ⟨hsel, hpath⟩ := hpath
      obtain ⟨hroot, hacts⟩ := conf_iff.mp h
      refine conf_iff.mpr ⟨hroot, fun j e he => ?_⟩
      show e.Conf (on && t.selects j)
      change (t.acts.modify i fun x => x.modify f a)[j]? = some e at he
      rw [List.getElem?_modify, Option.map_eq_map, Option.map_eq_some_iff] at he
      obtain ⟨g, hg, rfl⟩ := he
      by_cases hij : i = j
      · subst hij
        obtain rfl := Option.some.inj (hd.symm.trans hg)
        have hconf := hacts i d hd
        rw [hsel, Bool.and_true] at hconf ⊢
        rw [if_pos rfl]
        exact ih hconf hc hpath
      · rw [if_neg hij]
        exact hacts j g hg

theorem get_modify_self {t c : Act} {a : List ℕ} {f : Act → Act} (hc : t.get a = some c) :
    (t.modify f a).get a = some (f c) := by
  induction a generalizing t with
  | nil =>
      obtain rfl := Option.some.inj hc
      rfl
  | cons i a ih =>
      obtain ⟨d, hd, hc⟩ := Option.bind_eq_some_iff.mp hc
      show ((t.acts.modify i fun x => x.modify f a)[i]?).bind _ = _
      rw [List.getElem?_modify_eq, hd]
      exact ih hc

/-- What is on the way to a place does not depend on what is there. -/
theorem onPath_modify {t : Act} {a : List ℕ} {f : Act → Act} :
    (t.modify f a).onPath a = t.onPath a := by
  induction a generalizing t with
  | nil => rfl
  | cons i a ih =>
      show (t.selects i && ((t.acts.modify i fun x => x.modify f a)[i]?).elim false _) = _
      rw [List.getElem?_modify_eq, onPath]
      rcases t.acts[i]? with - | d
      · rfl
      · exact congrArg _ ih

theorem get_append {t : Act} {a b : List ℕ} :
    t.get (a ++ b) = (t.get a).bind fun c => c.get b := by
  induction a generalizing t with
  | nil => rfl
  | cons i a ih =>
      rw [List.cons_append, get, get, Option.bind_assoc]
      exact Option.bind_congr fun d _ => ih

theorem onPath_append {t c : Act} {a b : List ℕ} (hc : t.get a = some c) :
    t.onPath (a ++ b) = (t.onPath a && c.onPath b) := by
  induction a generalizing t with
  | nil =>
      obtain rfl := Option.some.inj hc
      simp [onPath]
  | cons i a ih =>
      obtain ⟨d, hd, hc⟩ := Option.bind_eq_some_iff.mp hc
      rw [List.cons_append, onPath, onPath, hd]
      simp only [Option.elim_some]
      rw [ih hc, Bool.and_assoc]

theorem get_child {t c d : Act} {a : List ℕ} {i : ℕ} (hc : t.get a = some c)
    (hd : c.acts[i]? = some d) : t.get (a ++ [i]) = some d := by
  rw [get_append, hc]
  show (c.acts[i]?).bind _ = _
  rw [hd]
  rfl

theorem onPath_child {t c d : Act} {a : List ℕ} {i : ℕ} (hc : t.get a = some c)
    (hd : c.acts[i]? = some d) : t.onPath (a ++ [i]) = (t.onPath a && c.selects i) := by
  rw [onPath_append hc, onPath, hd]
  show (_ && (c.selects i && true)) = _
  rw [Bool.and_true]

theorem modify_append (f : Act → Act) (t : Act) (a b : List ℕ) :
    t.modify f (a ++ b) = t.modify (modify f · b) a := by
  induction a generalizing t with
  | nil => rfl
  | cons i a ih =>
      show t.withActs (t.acts.modify i (modify f · (a ++ b))) = _
      simp only [ih]
      rfl

theorem modify_congr {t c : Act} {a : List ℕ} {f g : Act → Act} (hc : t.get a = some c)
    (hfg : f c = g c) : t.modify f a = t.modify g a := by
  induction a generalizing t with
  | nil =>
      obtain rfl := Option.some.inj hc
      exact hfg
  | cons i a ih =>
      obtain ⟨d, hd, hc⟩ := Option.bind_eq_some_iff.mp hc
      have hacts : (t.acts.modify i fun x => x.modify f a)
          = t.acts.modify i fun x => x.modify g a := by
        refine List.ext_getElem? fun j => ?_
        rw [List.getElem?_modify, List.getElem?_modify]
        by_cases hij : i = j
        · subst hij
          simp [hd, ih hc]
        · simp [hij]
      exact congrArg t.withActs hacts

theorem modify_id (t : Act) (a : List ℕ) : t.modify id a = t := by
  induction a generalizing t with
  | nil => rfl
  | cons i a ih =>
      obtain ⟨k, n, fl, b, cur, as⟩ := t
      show mk k n fl b cur (as.modify i fun x => x.modify id a) = _
      rw [show (fun x : Act => x.modify id a) = id from funext ih, List.modify_id]

theorem modify_eq_self {t c : Act} {a : List ℕ} {f : Act → Act} (hc : t.get a = some c)
    (hf : f c = c) : t.modify f a = t :=
  (modify_congr (g := id) hc hf).trans (modify_id t a)

@[simp] theorem active_activate (t : Act) : t.activate.active = true := by
  obtain ⟨k, n, fl, b, c, as⟩ := t
  cases b with
  | true => simp [activate, active]
  | false => rw [activate_mk]; rfl

@[simp] theorem active_deactivate (t : Act) : t.deactivate.active = false := by
  obtain ⟨k, n, fl, b, c, as⟩ := t
  cases b with
  | true => rw [deactivate_mk]; rfl
  | false => simp [deactivate, active]

theorem active_modify {t : Act} {a : List ℕ} {f : Act → Act} (hf : ∀ c, (f c).active = c.active) :
    (t.modify f a).active = t.active := by
  cases a with
  | nil => exact hf t
  | cons i a => rfl

/-! ### Moving to another act -/

theorem active_advance (t : Act) : t.advance.active = t.active := by
  unfold advance
  dsimp only
  split <;> rfl

variable {t : Act} {i : ℕ}

theorem advance_of_lt (hlt : t.current + 1 < t.acts.length) :
    t.advance = t.leaveCurrent.enter (t.current + 1) := by
  apply if_pos
  show t.current + 1 < (t.acts.modify t.current deactivate).length
  rwa [List.length_modify]

theorem advance_of_le (hle : t.acts.length ≤ t.current + 1) : t.advance = t.leaveCurrent := by
  apply if_neg
  show ¬ t.current + 1 < (t.acts.modify t.current deactivate).length
  rw [List.length_modify]
  exact Nat.not_lt.mpr hle

/-- A current act that is not active is left as it is. -/
theorem leaveCurrent_of_not_active {c : Act} (hc : t.acts[t.current]? = some c)
    (hoff : c.active = false) : t.leaveCurrent = t := by
  have hacts : t.acts.modify t.current deactivate = t.acts := by
    apply List.ext_getElem?
    intro j
    rw [List.getElem?_modify]
    by_cases hj : t.current = j
    · subst hj
      simp [hc, deactivate_of_not_active hoff]
    · simp [hj]
  obtain ⟨k, n, fl, b, cur, as⟩ := t
  exact congrArg (Act.mk k n fl b cur) hacts

theorem getElem?_leaveCurrent {c : Act} (hc : t.acts[t.current]? = some c) :
    t.leaveCurrent.acts[t.current]? = some c.deactivate := by
  show (t.acts.modify t.current deactivate)[t.current]? = _
  rw [List.getElem?_modify_eq, hc]
  rfl

/-- An act_serial that has left its current act has no active act. -/
theorem conf_leaveCurrent (h : t.Conf true) (hk : t.kind = .serial) {j : ℕ} {c : Act}
    (hc : t.leaveCurrent.acts[j]? = some c) : c.Conf false := by
  change (t.acts.modify t.current deactivate)[j]? = some c at hc
  rw [List.getElem?_modify, Option.map_eq_map, Option.map_eq_some_iff] at hc
  obtain ⟨d, hd, rfl⟩ := hc
  have hconf := (conf_iff.mp h).2 j d hd
  rw [Bool.true_and, selects, hk] at hconf
  by_cases hj : t.current = j
  · rw [if_pos hj]
    subst hj
    have : ActKind.serial.selects t.current t.current = true := beq_self_eq_true _
    rw [this] at hconf
    exact hconf.deactivate
  · rw [if_neg hj]
    have : ActKind.serial.selects t.current j = false := by
      simpa [ActKind.selects] using fun e => hj (Eq.symm e)
    rwa [this] at hconf

/-- **Moving an active act_serial to another of its acts.** -/
theorem conf_enter (h : t.Conf true) (hk : t.kind = .serial) :
    (t.leaveCurrent.enter i).Conf true := by
  refine conf_iff.mpr ⟨(conf_iff.mp h).1, fun j c hc => ?_⟩
  have hsel : (t.leaveCurrent.enter i).selects j = (j == i) := by
    show t.kind.selects i j = _
    rw [hk]
    rfl
  rw [Bool.true_and, hsel]
  change (t.leaveCurrent.acts.modify i activate)[j]? = some c at hc
  rw [List.getElem?_modify, Option.map_eq_map, Option.map_eq_some_iff] at hc
  obtain ⟨d, hd, rfl⟩ := hc
  have hoff := conf_leaveCurrent h hk hd
  by_cases hj : i = j
  · rw [if_pos hj, hj, beq_self_eq_true]
    exact hoff.activate
  · rw [if_neg hj]
    have : (j == i) = false := by simpa using fun e => hj (Eq.symm e)
    rwa [this]

/-- The act that was entered is active, whatever the rest is like. -/
theorem get_enter (hi : t.entersSafely i = true) :
    ∃ c, (t.leaveCurrent.enter i).get [i] = some c ∧ c.active = true := by
  rw [entersSafely, Bool.and_eq_true] at hi
  rcases hacts : t.leaveCurrent.acts[i]? with - | d
  · rw [hacts] at hi
    cases hi.2
  · refine ⟨d.activate, ?_, active_activate d⟩
    show ((t.leaveCurrent.acts.modify i activate)[i]?).bind _ = _
    rw [List.getElem?_modify_eq, hacts]
    rfl

end Act

/-! ### Where a signal is taken -/

namespace Act

variable {t : Act} {h : List ℕ} {i : ℕ}

/-- What a jump can come to. -/
inductive Jumped (t : Act) : Effect → Prop
  | ignored : Jumped t .ignored
  | threw : Jumped t .threw
  | select {h : List ℕ} {i : ℕ} : (t.get h).map kind = some .serial → Jumped t (.select h i)

theorem jumped_jumpChild {p : Text} (hk : (t.get h).map kind = some .serial) :
    Jumped t (t.jumpChild h p) := by
  unfold jumpChild
  split
  · exact .threw
  · split
    · exact .ignored
    · exact .select hk

theorem jumped_jumpBelow (k : ℕ) (b : List ℕ) (p : Text) : Jumped t (t.jumpBelow k b p) := by
  induction k generalizing b p with
  | zero => exact .ignored
  | succ k ih =>
      unfold jumpBelow
      split
      · exact .threw
      split
      · exact .ignored
      split
      · exact .threw
      split
      · exact .ignored
      split
      · next hk => exact jumped_jumpChild hk
      · exact ih _ _
      · exact ih _ _

theorem jumped_jumpInto {k : ActKind} {p : Text} (hk : (t.get h).map kind = some k)
    (hleaf : k ≠ .leaf) : Jumped t (t.jumpInto h k p) := by
  cases k with
  | leaf => exact absurd rfl hleaf
  | serial => exact jumped_jumpChild hk
  | parallel => exact jumped_jumpBelow _ _ _

theorem jumped_jumpAt {p : Text} {parent : Effect} (hparent : Jumped t parent) :
    Jumped t (t.jumpAt p h parent) := by
  unfold jumpAt
  split
  · exact .ignored
  · exact hparent
  · next k hleaf hk =>
      split
      · split
        · exact .ignored
        · exact hparent
      split
      · exact jumped_jumpInto hk hleaf
      split
      · split
        · exact .threw
        · exact jumped_jumpInto hk hleaf
      · exact hparent

/-- **Only an act_serial takes a jump.** -/
theorem jumped_jump (t : Act) (a : List ℕ) (p : Text) : Jumped t (t.jump a p) := by
  unfold jump
  induction a.reverse with
  | nil => exact jumped_jumpAt .ignored
  | cons j up ih => exact jumped_jumpAt ih

theorem kind_of_select {a : List ℕ} {sig : Signal} (hs : t.signal a sig = .select h i) :
    (t.get h).map kind = some .serial := by
  cases sig with
  | next =>
      simp only [signal, next] at hs
      split at hs
      · cases hs
      · split at hs <;> cases hs
  | exit => cases hs
  | jump p =>
      have hj := jumped_jump t a p
      rw [show t.jump a p = .select h i from hs] at hj
      cases hj
      assumption

theorem kind_of_advance {a : List ℕ} {sig : Signal} (hs : t.signal a sig = .advance h) :
    (t.get h).map kind = some .serial := by
  cases sig with
  | next =>
      simp only [signal, next] at hs
      split at hs
      · cases hs
      · split at hs
        · next hk =>
            cases hs
            exact hk
        · cases hs
  | exit => cases hs
  | jump p =>
      have hj := jumped_jump t a p
      rw [show t.jump a p = .advance h from hs] at hj
      cases hj

end Act

/-! ### The bot -/

/-- A call of `update` that is running. -/
inductive Frame
  /-- `update` of the act at a place. -/
  | update (a : List ℕ)
  /-- The loop of the act_parallel at `b`, at the `i`-th of the `n` acts it
  began with. -/
  | loop (b : List ℕ) (i n : ℕ)

/-- A bot with its flow. -/
structure Bot where
  root : Act
  stack : List Frame := []
  /-- An act was read that is not there. -/
  fault : Bool := false

namespace Bot

/-- `bot::on_start`, with the "flow" of its JSON. -/
def start (fl : List Spec) : Bot :=
  let flow : Spec := .mk .serial ['f', 'l', 'o', 'w'] fl
  { root := flow.launch, fault := !flow.launchable }

/-- Change the act at `h`, if that reads only acts that are there. -/
def change (s : Bot) (h : List ℕ) (safe : Act → Bool) (f : Act → Act) : Bot :=
  match s.root.get h with
  | none => s
  | some t => if safe t then { s with root := s.root.modify f h } else { s with fault := true }

/-- The same check for `act_serial::next`. -/
def advancesSafely (t : Act) : Bool :=
  decide (t.current < t.acts.length) &&
    (decide (t.acts.length ≤ t.current + 1) || t.entersSafely (t.current + 1))

/-- Carry out what a signal comes to. -/
def handle (s : Bot) : Effect → Bot
  | .ignored => s
  | .threw => { s with stack := [] }
  | .select h i => s.change h (·.entersSafely i) fun t => t.leaveCurrent.enter i
  | .advance h => s.change h advancesSafely Act.advance
  | .stop => { s with root := s.root.deactivate }

/-- One step of a bot. -/
inductive Tick
  /-- `bot::update`. -/
  | update
  /-- The innermost call of `update` goes on. -/
  | go
  /-- The leaf that is being updated raises a signal. -/
  | raise (sig : Signal)

/-- The innermost call of `update` goes on: a leaf is done, a composite act
updates the next of the acts it selects. -/
def go (s : Bot) : Frame → List Frame → Bot
  | .update a, rest =>
      match s.root.get a with
      | none => { s with fault := true }
      | some t =>
          match t.kind with
          | .leaf => { s with stack := rest }
          | .serial => { s with stack := .update (a ++ [t.current]) :: rest }
          | .parallel => { s with stack := .loop a 0 t.acts.length :: rest }
  | .loop b i n, rest =>
      -- the iterators are those of the `n` acts that were there
      if (s.root.get b).map (·.acts.length) = some n then
        if i < n then { s with stack := .update (b ++ [i]) :: .loop b (i + 1) n :: rest }
        else { s with stack := rest }
      else { s with fault := true }

/-- The step function. -/
def step (s : Bot) : Tick → Option Bot
  | .update => if s.stack.isEmpty then some { s with stack := [.update []] } else none
  | .go =>
      match s.stack with
      | [] => none
      | fr :: rest => some (s.go fr rest)
  | .raise sig =>
      match s.stack with
      | .update a :: _ =>
          if (s.root.get a).map Act.kind = some .leaf then some (s.handle (s.root.signal a sig))
          else none
      | _ => none

/-- Until the flow is deactivated, the tree is configured and every act that
was read was there. -/
def Sound (s : Bot) : Prop := s.root.active = true → s.fault = false ∧ s.root.Configured

/-- What is asked of the act_serial that takes a signal: it is active, and so
is not at its last act when it is to go on to the next one; the act it enters
can be activated.  An act_serial that is not active may be asked for the next
act at its last one. -/
def Takes (s : Bot) : Effect → Prop
  | .select h i => ∀ t, s.root.get h = some t → t.active = true ∧ t.entersSafely i = true
  | .advance h => ∀ t, s.root.get h = some t →
      (t.active = true ∧ t.current + 1 < t.acts.length ∧ t.entersSafely (t.current + 1) = true) ∨
      (t.active = false ∧ t.current < t.acts.length ∧ t.acts.length ≤ t.current + 1)
  | _ => True

/-- What is asked of the innermost call of `update`: the act is there, and an
act_parallel in its loop has the acts that it began with. -/
def GoesOn (s : Bot) : Frame → Prop
  | .update a => (s.root.get a).isSome = true
  | .loop b _ n => (s.root.get b).map (·.acts.length) = some n

/-- What is asked of a step, with the stack it finds. -/
def Meets (s : Bot) : Tick → List Frame → Prop
  | .raise sig, .update a :: _ => s.Takes (s.root.signal a sig)
  | .go, fr :: _ => s.GoesOn fr
  | _, _ => True

/-- A step that leaves the tree configured, as long as the flow is active. -/
def Orderly (s : Bot) (l : Tick) : Prop := s.root.active = true → s.Meets l s.stack

instance (s : Bot) : (e : Effect) → Decidable (s.Takes e)
  | .select h i => inferInstanceAs (Decidable (∀ t ∈ s.root.get h,
      t.active = true ∧ t.entersSafely i = true))
  | .advance h => inferInstanceAs (Decidable (∀ t ∈ s.root.get h,
      (t.active = true ∧ t.current + 1 < t.acts.length ∧ t.entersSafely (t.current + 1) = true) ∨
      (t.active = false ∧ t.current < t.acts.length ∧ t.acts.length ≤ t.current + 1)))
  | .ignored | .threw | .stop => isTrue trivial

instance (s : Bot) : (fr : Frame) → Decidable (s.GoesOn fr)
  | .update a => inferInstanceAs (Decidable ((s.root.get a).isSome = true))
  | .loop b _ n => inferInstanceAs (Decidable ((s.root.get b).map (·.acts.length) = some n))

instance (s : Bot) : (l : Tick) → (st : List Frame) → Decidable (s.Meets l st)
  | .raise sig, .update a :: _ => inferInstanceAs (Decidable (s.Takes (s.root.signal a sig)))
  | .go, fr :: _ => inferInstanceAs (Decidable (s.GoesOn fr))
  | .update, _ | .go, [] | .raise _, [] | .raise _, .loop _ _ _ :: _ => isTrue trivial

instance (s : Bot) (l : Tick) : Decidable (s.Orderly l) :=
  inferInstanceAs (Decidable (s.root.active = true → s.Meets l s.stack))

/-! ### One step -/

variable {s s' : Bot} {h : List ℕ} {i : ℕ}

theorem active_handle (hs : s.root.active = false) (e : Effect) :
    (s.handle e).root.active = false := by
  have hchange : ∀ h safe f, (∀ c : Act, (f c).active = c.active) →
      (s.change h safe f).root.active = false := by
    intro h safe f hf
    unfold change
    split
    · exact hs
    · split
      · exact (Act.active_modify hf).trans hs
      · exact hs
  cases e with
  | ignored => exact hs
  | threw => exact hs
  | select h i => exact hchange _ _ _ fun _ => rfl
  | advance h => exact hchange _ _ _ Act.active_advance
  | stop => exact Act.active_deactivate _

theorem root_go (s : Bot) (fr : Frame) (rest : List Frame) : (s.go fr rest).root = s.root := by
  unfold go
  split
  · split
    · rfl
    · split <;> rfl
  · split
    · split <;> rfl
    · rfl

/-- A flow that was deactivated stays so. -/
theorem active_step {l : Tick} (hs : s.root.active = false) (hstep : s.step l = some s') :
    s'.root.active = false := by
  cases l with
  | update =>
      simp only [step, Option.ite_none_right_eq_some, Option.some.injEq] at hstep
      obtain ⟨-, rfl⟩ := hstep
      exact hs
  | go =>
      simp only [step] at hstep
      split at hstep
      · cases hstep
      · obtain rfl := Option.some.inj hstep
        rw [root_go]
        exact hs
  | raise sig =>
      simp only [step] at hstep
      split at hstep
      · simp only [Option.ite_none_right_eq_some, Option.some.injEq] at hstep
        obtain ⟨-, rfl⟩ := hstep
        exact active_handle hs _
      · cases hstep

/-- A change of one act, when it is safe and when it is not. -/
theorem sound_change {t : Act} {safe : Act → Bool} {f : Act → Act} (hs : s.root.active = true)
    (hnf : s.fault = false) (ht : s.root.get h = some t)
    (hf : ∀ c : Act, (f c).active = c.active) :
    (s.change h safe f).Sound ↔ safe t = true ∧ (s.root.modify f h).Configured := by
  unfold change
  rw [ht]
  dsimp only
  rcases hsafe : safe t with - | -
  · refine ⟨fun hsound => ?_, fun hno => by cases hno.1⟩
    have := (hsound hs).1
    cases this
  · rw [if_pos rfl]
    have hact : (s.root.modify f h).active = true := (Act.active_modify hf).trans hs
    exact ⟨fun hsound => ⟨rfl, (hsound hact).2⟩, fun hc => fun _ => ⟨hnf, hc.2⟩⟩

/-- Entering an act below an act that is not active leaves it active. -/
theorem not_configured_enter {root t : Act} (hroot : root.Configured) (ht : root.get h = some t)
    (hoff : t.active = false) {f : Act → Act} {c : Act} (hc : (f t).get [i] = some c)
    (hact : c.active = true) : ¬ (root.modify f h).Configured := by
  intro hconf
  have hpath : root.onPath h = false := by
    rw [← Bool.not_eq_true]
    intro hp
    rw [(hroot h t ht).mpr hp] at hoff
    cases hoff
  have hget : (root.modify f h).get (h ++ [i]) = some c := by
    rw [Act.get_append, Act.get_modify_self ht]
    exact hc
  have := (hconf (h ++ [i]) c hget).mp hact
  rw [Act.onPath_append (Act.get_modify_self ht), Act.onPath_modify, hpath] at this
  cases this

theorem configured_select {root t : Act} (hroot : root.Configured) (ht : root.get h = some t)
    (hk : t.kind = .serial) (hsafe : t.entersSafely i = true) :
    (root.modify (fun t => t.leaveCurrent.enter i) h).Configured ↔ t.active = true := by
  constructor
  · intro hconf
    by_contra hoff
    obtain ⟨c, hc, hact⟩ := Act.get_enter hsafe
    exact not_configured_enter hroot ht (by simpa using hoff) hc hact hconf
  · intro hon
    have hpath := (hroot h t ht).mp hon
    have hconf := Act.conf_of_configured hroot
    have hpart := hconf.get ht
    rw [hpath, Bool.and_true] at hpart
    exact Act.configured_of_conf (hconf.modify ht hpath (Act.conf_enter hpart hk))

/-- Below an act that is not active no act is. -/
theorem not_active_child {root t c : Act} (hroot : root.Configured) (ht : root.get h = some t)
    (hoff : t.active = false) (hc : t.acts[i]? = some c) : c.active = false := by
  rw [← Bool.not_eq_true] at hoff ⊢
  intro hact
  apply hoff
  have hpath := (hroot _ c (Act.get_child ht hc)).mp hact
  rw [Act.onPath_child ht hc, Bool.and_eq_true] at hpath
  exact (hroot h t ht).mpr hpath.1

/-- An active act_serial that leaves its current act selects it still. -/
theorem not_configured_leaveCurrent {root t c : Act} (hroot : root.Configured)
    (ht : root.get h = some t) (hk : t.kind = .serial) (hact : t.active = true)
    (hc : t.acts[t.current]? = some c) : ¬ (root.modify Act.leaveCurrent h).Configured := by
  intro hconf
  have hleft := Act.getElem?_leaveCurrent hc
  have hself : (root.modify Act.leaveCurrent h).get h = some t.leaveCurrent :=
    Act.get_modify_self ht
  have hsel : t.leaveCurrent.selects t.current = true := by
    show t.kind.selects t.current t.current = true
    rw [hk]
    exact beq_self_eq_true _
  have hpath : (root.modify Act.leaveCurrent h).onPath (h ++ [t.current]) = true := by
    rw [Act.onPath_child hself hleft, Act.onPath_modify, (hroot h t ht).mp hact, hsel]
    rfl
  have := (hconf _ _ (Act.get_child hself hleft)).mpr hpath
  rw [Act.active_deactivate] at this
  cases this

theorem configured_advance {root t : Act} (hroot : root.Configured) (ht : root.get h = some t)
    (hk : t.kind = .serial) (hsafe : advancesSafely t = true) :
    (root.modify Act.advance h).Configured ↔
      (t.active = true ∧ t.current + 1 < t.acts.length) ∨
      (t.active = false ∧ t.acts.length ≤ t.current + 1) := by
  rw [advancesSafely, Bool.and_eq_true, decide_eq_true_eq] at hsafe
  obtain ⟨hcur, hsafe⟩ := hsafe
  by_cases hlt : t.current + 1 < t.acts.length
  · -- the next act is entered
    have hent : t.entersSafely (t.current + 1) = true := by
      simpa [Nat.not_le.mpr hlt] using hsafe
    rw [Act.modify_congr (g := fun u => u.leaveCurrent.enter (t.current + 1)) ht
      (Act.advance_of_lt hlt), configured_select hroot ht hk hent]
    simp [hlt, Nat.not_le.mpr hlt]
  · -- the current act is left, and no other entered
    have hadv : t.advance = t.leaveCurrent := Act.advance_of_le (Nat.not_lt.mp hlt)
    obtain ⟨c, hc⟩ : ∃ c, t.acts[t.current]? = some c := ⟨_, List.getElem?_eq_getElem hcur⟩
    rcases hact : t.active with - | -
    · have hoff := not_active_child hroot ht hact hc
      rw [Act.modify_eq_self ht (hadv.trans (Act.leaveCurrent_of_not_active hc hoff))]
      simp [hroot, Nat.not_lt.mp hlt]
    · rw [Act.modify_congr ht hadv]
      simp [not_configured_leaveCurrent hroot ht hk hact hc, hlt]

/-- What a signal comes to leaves the tree configured exactly when the
act_serial that takes it meets `Takes`. -/
theorem sound_handle {a : List ℕ} {sig : Signal} (hs : s.root.active = true)
    (hnf : s.fault = false) (hconf : s.root.Configured) :
    (s.handle (s.root.signal a sig)).Sound ↔ s.Takes (s.root.signal a sig) := by
  rcases hsig : s.root.signal a sig with - | - | ⟨h, i⟩ | h | -
  · exact ⟨fun _ => trivial, fun _ _ => ⟨hnf, hconf⟩⟩
  · exact ⟨fun _ => trivial, fun _ _ => ⟨hnf, hconf⟩⟩
  · have hser := Act.kind_of_select hsig
    obtain ⟨t, ht, hk⟩ := Option.map_eq_some_iff.mp hser
    rw [handle, sound_change (f := fun t => t.leaveCurrent.enter i) hs hnf ht fun _ => rfl]
    constructor
    · rintro ⟨hsafe, hc⟩ u hu
      obtain rfl := Option.some.inj (ht.symm.trans hu)
      exact ⟨(configured_select hconf ht hk hsafe).mp hc, hsafe⟩
    · intro htakes
      obtain ⟨hact, hsafe⟩ := htakes t ht
      exact ⟨hsafe, (configured_select hconf ht hk hsafe).mpr hact⟩
  · have hser := Act.kind_of_advance hsig
    obtain ⟨t, ht, hk⟩ := Option.map_eq_some_iff.mp hser
    rw [handle, sound_change hs hnf ht Act.active_advance]
    constructor
    · rintro ⟨hsafe, hc⟩ u hu
      obtain rfl := Option.some.inj (ht.symm.trans hu)
      have hadv := (configured_advance hconf ht hk hsafe).mp hc
      rw [advancesSafely, Bool.and_eq_true, decide_eq_true_eq] at hsafe
      refine hadv.imp (fun hon => ⟨hon.1, hon.2, ?_⟩) fun hoff => ⟨hoff.1, hsafe.1, hoff.2⟩
      simpa [Nat.not_le.mpr hon.2] using hsafe.2
    · intro htakes
      rcases htakes t ht with ⟨hact, hlt, hsafe⟩ | ⟨hact, hcur, hle⟩
      · have hsafe' : advancesSafely t = true := by
          simp [advancesSafely, hsafe, Nat.lt_of_succ_lt hlt]
        exact ⟨hsafe', (configured_advance hconf ht hk hsafe').mpr (.inl ⟨hact, hlt⟩)⟩
      · have hsafe' : advancesSafely t = true := by
          simp [advancesSafely, hcur, hle]
        exact ⟨hsafe', (configured_advance hconf ht hk hsafe').mpr (.inr ⟨hact, hle⟩)⟩
  · refine ⟨fun _ => trivial, fun _ hact => ?_⟩
    rw [handle, Act.active_deactivate] at hact
    cases hact

theorem sound_go {fr : Frame} {rest : List Frame} (hs : s.root.active = true)
    (hnf : s.fault = false) (hconf : s.root.Configured) :
    (s.go fr rest).Sound ↔ s.GoesOn fr := by
  have hroot := root_go s fr rest
  have hsound : (s.go fr rest).Sound ↔ (s.go fr rest).fault = false := by
    constructor
    · intro h
      exact (h (by rw [hroot]; exact hs)).1
    · intro h _
      exact ⟨h, by rw [hroot]; exact hconf⟩
  rw [hsound]
  cases fr with
  | update a =>
      unfold go GoesOn
      rcases ha : s.root.get a with - | t
      · simp [ha]
      · rcases hk : t.kind <;> simp [ha, hk, hnf]
  | loop b i n =>
      unfold go GoesOn
      by_cases hn : (s.root.get b).map (·.acts.length) = some n
      · simp only [hn, if_true]
        split <;> simp [hnf]
      · simp [hn]

/-- **One step**: the tree stays configured exactly when the step is
orderly. -/
theorem sound_step {l : Tick} (hsound : s.Sound) (hstep : s.step l = some s') :
    s'.Sound ↔ s.Orderly l := by
  rcases hs : s.root.active with - | -
  · -- the flow is not active any more
    have hoff := active_step hs hstep
    refine ⟨fun _ hact => ?_, fun _ hact => ?_⟩
    · rw [hs] at hact
      cases hact
    · rw [hoff] at hact
      cases hact
  obtain ⟨hnf, hconf⟩ := hsound hs
  cases l with
  | update =>
      simp only [step, Option.ite_none_right_eq_some, Option.some.injEq] at hstep
      obtain ⟨-, rfl⟩ := hstep
      exact ⟨fun _ _ => trivial, fun _ => hsound⟩
  | go =>
      simp only [step] at hstep
      unfold Orderly
      split at hstep
      · cases hstep
      · next fr rest hst =>
          obtain rfl := Option.some.inj hstep
          rw [sound_go hs hnf hconf, hst]
          simp [hs, Meets]
  | raise sig =>
      simp only [step] at hstep
      unfold Orderly
      split at hstep
      · next a rest hst =>
          simp only [Option.ite_none_right_eq_some, Option.some.injEq] at hstep
          obtain ⟨-, rfl⟩ := hstep
          rw [sound_handle hs hnf hconf, hst]
          simp [hs, Meets]
      · cases hstep

theorem sound_start {fl : List Spec}
    (hfl : (Spec.mk .serial ['f', 'l', 'o', 'w'] fl).launchable = true) : (start fl).Sound := by
  intro _
  refine ⟨?_, Act.configured_of_conf (Act.conf_launch _)⟩
  show (!(Spec.mk .serial ['f', 'l', 'o', 'w'] fl).launchable) = false
  rw [hfl]
  rfl

/-- **The tree stays configured exactly in the orderly runs**, for every flow
that can be activated, whatever signals its leaves raise and whenever they are
updated. -/
theorem configured_iff_orderly {fl : List Spec} {ls : List Tick}
    (hfl : (Spec.mk .serial ['f', 'l', 'o', 'w'] fl).launchable = true)
    (hrun : runSteps step (start fl) ls = some s) :
    Always step Sound (start fl) ls ↔ Along step Orderly (start fl) ls :=
  always_iff_along id (fun hsound hG hs => (sound_step hsound hs).mpr hG)
    (fun hsound hG hs hgood => hG ((sound_step hsound hs).mp hgood)) (sound_start hfl) hrun

/-- A leaf, and an act_serial with another leaf. -/
def twoActs : List Spec := [.mk .leaf ['a'] [], .mk .serial ['b'] [.mk .leaf ['c'] []]]

/-- The first leaf jumps to the act_serial, whose leaf jumps to a name that is
not there. -/
def jumpOver : List Tick :=
  [.update, .go, .raise (.jump ['/', 'f', 'l', 'o', 'w', '/', 'b']), .go, .update, .go, .go,
    .raise (.jump ['x'])]

theorem configured_jumpOver : Always step Sound (start twoActs) jumpOver := by
  have hrun : (runSteps step (start twoActs) jumpOver).isSome := by decide +kernel
  obtain ⟨s, hs⟩ := Option.isSome_iff_exists.mp hrun
  exact (configured_iff_orderly (by decide +kernel) hs).mpr (by decide +kernel)

/-- A flow of one leaf, which asks for the next act. -/
def nextAtLast : List Tick := [.update, .go, .raise .next]

/-- The only act is the current one, and is not active. -/
theorem nextAtLast_unconfigured :
    ∃ s, runSteps step (start [.mk .leaf ['a'] []]) nextAtLast = some s ∧
      s.root.active = true ∧ s.root.onPath [0] = true ∧
      (s.root.get [0]).map Act.active = some false ∧ ¬ s.Sound := by
  have hrun : (runSteps step (start [.mk .leaf ['a'] []]) nextAtLast).map
      (fun s => (s.root.active, s.root.onPath [0], (s.root.get [0]).map Act.active))
      = some (true, true, some false) := by decide +kernel
  obtain ⟨s, hs, h⟩ := Option.map_eq_some_iff.mp hrun
  obtain ⟨hact, h⟩ := Prod.mk.inj h
  obtain ⟨hpath, hleaf⟩ := Prod.mk.inj h
  refine ⟨s, hs, hact, hpath, hleaf, fun hsound => ?_⟩
  obtain ⟨c, hc, hoff⟩ := Option.map_eq_some_iff.mp hleaf
  rw [((hsound hact).2 [0] c hc).mpr hpath] at hoff
  cases hoff

end Bot

end Play
