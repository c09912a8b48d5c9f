/-
Play/Jump.lean

Where an absolute jump arrives.

A jump for the full path of an act climbs from the act that asks for it.  On
the way an act takes the jump as its own when its full path begins the target
as a string.  Between full paths of well named acts that means that the names
agree up to the last one, which begins its counterpart
(`Paths.buildPath_prefix_iff`).  So of the acts below `s`, only the child `d`
of `s` on the way can take a jump for another child `c`, and it does if its
name begins the name of `c`.  When `d` is `c` the remainder of the target
starts beyond its end, and `substr` throws.

`jump_reaches_iff` is exact: a jump that is not taken on the way makes `c`
the current act of `s`.
-/
import Play.Config

namespace Play

namespace Act

/-! ### Names along a path -/

/-- The names of the acts above a place. -/
def parents : Act → List ℕ → List Text
  | _, [] => []
  | t, i :: a => t.name :: (t.acts[i]?).elim [] (parents · a)

variable {t c : Act} {a b : List ℕ}

theorem names_append (hc : t.get a = some c) (b : List ℕ) :
    t.names (a ++ b) = t.parents a ++ c.names b := by
  induction a generalizing t with
  | nil =>
      obtain rfl := Option.some.inj hc
      rfl
  | cons i a ih =>
      obtain ⟨d, hd, hc⟩ := Option.bind_eq_some_iff.mp hc
      rw [List.cons_append, names, parents, hd]
      exact congrArg (t.name :: ·) (ih hc)

theorem names_eq (hc : t.get a = some c) : t.names a = t.parents a ++ [c.name] := by
  have := names_append hc []
  rwa [List.append_nil] at this

theorem names_child {i : ℕ} {d : Act} (hc : t.get a = some c) (hd : c.acts[i]? = some d) :
    t.names (a ++ [i]) = t.names a ++ [d.name] := by
  rw [names_append hc, names_eq hc, names, hd, List.append_assoc]
  rfl

/-- The names of acts can be parts of a path, and no two acts in one act have
the same name. -/
structure WellNamed (t : Act) : Prop where
  isName : ∀ {a c}, t.get a = some c → Paths.IsName c.name
  nodup : ∀ {a c}, t.get a = some c → (c.acts.map name).Nodup

/-- A well named tree, one act after the other. -/
theorem wellNamed_iff : t.WellNamed ↔
    Paths.IsName t.name ∧ (t.acts.map name).Nodup ∧ ∀ d ∈ t.acts, d.WellNamed := by
  constructor
  · intro ht
    refine ⟨ht.isName (a := []) rfl, ht.nodup (a := []) rfl, fun d hd => ?_⟩
    obtain ⟨i, hi⟩ := List.mem_iff_getElem?.mp hd
    refine ⟨fun {b e} he => ht.isName (a := i :: b) ?_, fun {b e} he =>
      ht.nodup (a := i :: b) ?_⟩ <;>
    · rw [get, hi]
      exact he
  · rintro ⟨hname, hnodup, hacts⟩
    refine ⟨fun {a c} hc => ?_, fun {a c} hc => ?_⟩ <;>
    · cases a with
      | nil =>
          obtain rfl := Option.some.inj hc
          assumption
      | cons i a =>
          obtain ⟨d, hd, hc⟩ := Option.bind_eq_some_iff.mp hc
          have hsub := hacts d (List.mem_of_getElem? hd)
          first
          | exact hsub.isName hc
          | exact hsub.nodup hc

theorem WellNamed.names (ht : t.WellNamed) (hc : t.get a = some c) :
    ∀ n ∈ t.names a, Paths.IsName n := by
  induction a generalizing t with
  | nil =>
      intro n hn
      rw [List.mem_singleton.mp hn]
      exact ht.isName (a := []) rfl
  | cons i a ih =>
      obtain ⟨d, hd, hc⟩ := Option.bind_eq_some_iff.mp hc
      have hsub : d.WellNamed := (wellNamed_iff.mp ht).2.2 d (List.mem_of_getElem? hd)
      intro n hn
      rw [Act.names, hd] at hn
      rcases List.mem_cons.mp hn with rfl | hn
      · exact ht.isName (a := []) rfl
      · exact ih hsub hc n hn

/-- A name leads to the one act that has it. -/
theorem WellNamed.findAct (ht : t.WellNamed) (hc : t.get a = some c) {i : ℕ} {d : Act}
    (hd : c.acts[i]? = some d) : c.findAct d.name = some i := by
  obtain ⟨hi, hd⟩ := List.getElem?_eq_some_iff.mp hd
  rw [Act.findAct, List.findIdx?_eq_some_iff_getElem]
  refine ⟨hi, by rw [hd]; exact beq_self_eq_true _, fun j hj hsame => ?_⟩
  have hne := List.pairwise_iff_getElem.mp (ht.nodup hc) j i (by rw [List.length_map]; omega)
    (by rw [List.length_map]; exact hi) hj
  rw [List.getElem_map, List.getElem_map, hd] at hne
  exact hne (beq_iff_eq.mp hsame)

theorem findAct_getElem? {n : Text} {i : ℕ} (h : t.findAct n = some i) :
    ∃ d, t.acts[i]? = some d ∧ d.name = n := by
  rw [findAct, List.findIdx?_eq_some_iff_getElem] at h
  obtain ⟨hi, hname, -⟩ := h
  exact ⟨_, List.getElem?_eq_getElem hi, beq_iff_eq.mp hname⟩

/-! ### A jump on its way -/

theorem fullPath_absolute (t : Act) (a : List ℕ) :
    Paths.isAbsolutePath (t.fullPath a) = true := by
  apply Paths.isAbsolutePath_buildPath
  cases a <;> exact List.cons_ne_nil _ _

/-- An act that does not begin the target hands the jump to its parent. -/
theorem jumpAt_of_not_child {p : Text} {h : List ℕ} {parent : Effect} (hc : t.get h = some c)
    (hp : Paths.isAbsolutePath p = true) (hno : ¬ t.fullPath h <+: p) :
    t.jumpAt p h parent = parent := by
  obtain ⟨hnil, hrel⟩ := Paths.isAbsolutePath_iff.mp hp
  have hchild : Paths.isChildOf (t.fullPath h) p = false := by
    rw [← Bool.not_eq_true, Paths.isChildOf_iff]
    exact hno
  unfold jumpAt
  rw [hc]
  rcases hk : c.kind <;> simp [hk, hnil, hrel, hchild]

/-- A leaf hands every jump to its parent. -/
theorem jumpAt_of_leaf {p : Text} {h : List ℕ} {parent : Effect} (hc : t.get h = some c)
    (hk : c.kind = .leaf) : t.jumpAt p h parent = parent := by
  unfold jumpAt
  rw [hc]
  simp [hk]

/-- A composite act that begins the target takes the jump. -/
theorem jumpAt_of_child {p : Text} {h : List ℕ} {parent : Effect} (hc : t.get h = some c)
    (hk : c.kind ≠ .leaf) (hp : Paths.isAbsolutePath p = true) (hpre : t.fullPath h <+: p) :
    t.jumpAt p h parent =
      (Paths.getChildPath (t.fullPath h) p).elim .threw (t.jumpInto h c.kind) := by
  obtain ⟨hnil, hrel⟩ := Paths.isAbsolutePath_iff.mp hp
  have hchild := Paths.isChildOf_iff.mpr hpre
  unfold jumpAt
  rw [hc]
  rcases hkind : c.kind
  · exact absurd hkind hk
  all_goals
    simp only [Option.map_some, hkind, hnil, hrel, hchild, if_true, if_false, Bool.false_eq_true]
    rcases Paths.getChildPath (t.fullPath h) p <;> rfl

theorem length_parents (hc : t.get a = some c) : (t.parents a).length = a.length := by
  induction a generalizing t with
  | nil => rfl
  | cons i a ih =>
      obtain ⟨d, hd, hc⟩ := Option.bind_eq_some_iff.mp hc
      rw [parents, hd, List.length_cons, List.length_cons]
      exact congrArg (· + 1) (ih hc)

theorem WellNamed.noSlash_parents (ht : t.WellNamed) (hc : t.get a = some c) :
    ∀ n ∈ t.parents a, '/' ∉ n := by
  intro n hn
  refine (ht.names hc n ?_).2
  rw [names_eq hc]
  exact List.mem_append_left _ hn

/-- The full paths of a child of `s` and of an act below `s`: the second
begins the first only if it is a child of `s` too, whose name begins the other
name. -/
theorem fullPath_prefix_iff (ht : t.WellNamed) {s d x : Act} {h r : List ℕ} {i j : ℕ}
    (hs : t.get h = some s) (hd : s.acts[j]? = some d) (hx : t.get (h ++ i :: r) = some x) :
    t.fullPath (h ++ i :: r) <+: t.fullPath (h ++ [j]) ↔ r = [] ∧ x.name <+: d.name := by
  have hdget := get_child hs hd
  have hlen := length_parents hx
  have hlen' := length_parents hs
  rw [fullPath, fullPath, names_eq hx, names_child hs hd,
    Paths.buildPath_prefix_iff (ht.noSlash_parents hx) (ht.isName hx).2
      fun n hn => (ht.names hdget n (by rw [names_child hs hd]; exact hn)).2]
  constructor
  · rintro ⟨m, rest, e, hm⟩
    -- the lengths leave no room for more names
    have hcount := congrArg List.length e
    simp only [List.length_append, List.length_cons, List.length_nil, names_eq hs, hlen,
      hlen'] at hcount
    have hr : r = [] := List.length_eq_zero_iff.mp (by omega)
    have hrest : rest = [] := List.length_eq_zero_iff.mp (by omega)
    subst hr hrest
    obtain ⟨-, hlast⟩ := List.append_inj' e rfl
    obtain rfl := (List.cons.inj hlast).1
    exact ⟨rfl, hm⟩
  · rintro ⟨rfl, hm⟩
    refine ⟨d.name, [], ?_, hm⟩
    obtain ⟨e, he, hxe⟩ := Option.bind_eq_some_iff.mp (get_append ▸ hx)
    obtain rfl := Option.some.inj (hs.symm.trans he)
    obtain ⟨e, he, hxe⟩ := Option.bind_eq_some_iff.mp hxe
    obtain rfl := Option.some.inj hxe
    have := (names_child hs he).symm.trans (names_eq hx)
    rw [(List.append_inj' this rfl).1]

/-! ### Who takes a jump for a child of `s` -/

section

variable {s d x : Act} {h r : List ℕ} {i j : ℕ}

/-- No act strictly below the child at `i` takes the jump. -/
theorem jumpUp_below (ht : t.WellNamed) (hs : t.get h = some s) (hc : s.acts[j]? = some c)
    (hx : t.get (h ++ i :: r) = some x) :
    t.jumpUp (t.fullPath (h ++ [j])) (h ++ i :: r).reverse =
      t.jumpAt (t.fullPath (h ++ [j])) (h ++ [i])
        (t.jumpUp (t.fullPath (h ++ [j])) h.reverse) := by
  have hp := fullPath_absolute t (h ++ [j])
  induction r using List.reverseRecOn generalizing x with
  | nil =>
      rw [List.reverse_append, List.reverse_singleton, List.singleton_append, jumpUp,
        List.reverse_cons, List.reverse_reverse]
  | append_singleton r k ih =>
      have hup : (h ++ i :: (r ++ [k])).reverse = k :: (h ++ i :: r).reverse := by simp
      have hno : ¬ t.fullPath (h ++ i :: (r ++ [k])) <+: t.fullPath (h ++ [j]) := by
        rw [fullPath_prefix_iff ht hs hc hx]
        simp
      have hparent : ∃ y, t.get (h ++ i :: r) = some y := by
        rw [show h ++ i :: (r ++ [k]) = (h ++ i :: r) ++ [k] by simp, get_append] at hx
        obtain ⟨y, hy, -⟩ := Option.bind_eq_some_iff.mp hx
        exact ⟨y, hy⟩
      obtain ⟨y, hy⟩ := hparent
      rw [hup, jumpUp, ← hup, List.reverse_reverse, jumpAt_of_not_child hx hp hno, ih hy]

/-- An act_serial asked for one part selects the act of that name. -/
theorem jumpChild_name {m : Text} (hd : t.get h = some d) (hm : '/' ∉ m) :
    t.jumpChild h m = (d.findAct m).elim .ignored (.select h) := by
  rw [jumpChild, Paths.getFirstAct_noSlash hm, hd]
  dsimp only [Option.bind_some]
  rcases d.findAct m <;> rfl

/-- A jump that gets as far as `s` selects the target. -/
theorem jumpUp_at (ht : t.WellNamed) (hs : t.get h = some s) (hk : s.kind = .serial)
    (hc : s.acts[j]? = some c) :
    t.jumpUp (t.fullPath (h ++ [j])) h.reverse = .select h j := by
  have hname : Paths.IsName c.name := ht.isName (get_child hs hc)
  have hpath : t.fullPath (h ++ [j]) = t.fullPath h ++ '/' :: c.name := by
    rw [fullPath, names_child hs hc, Paths.buildPath_append]
    simp [fullPath, Paths.buildPath]
  obtain ⟨e, he⟩ : ∃ e, t.jumpUp (t.fullPath (h ++ [j])) h.reverse =
      t.jumpAt (t.fullPath (h ++ [j])) h e := by
    rcases hrev : h.reverse with - | ⟨k, up⟩
    · obtain rfl := List.reverse_eq_nil_iff.mp hrev
      exact ⟨_, rfl⟩
    · exact ⟨_, by rw [jumpUp, ← hrev, List.reverse_reverse]⟩
  have hp := fullPath_absolute t (h ++ [j])
  rw [he, jumpAt_of_child hs (by rw [hk]; decide) hp (by rw [hpath]; simp), hpath,
    Paths.getChildPath_append, hk]
  show t.jumpChild h c.name = _
  rw [jumpChild_name hs hname.2, ht.findAct hs hc]
  rfl

/-- A child of `s` that is a leaf, or whose name does not begin that of the
target, hands the jump on. -/
theorem jumpAt_passes (ht : t.WellNamed) (hs : t.get h = some s) (hd : s.acts[i]? = some d)
    (hc : s.acts[j]? = some c) (hpass : d.kind = .leaf ∨ ¬ d.name <+: c.name) (parent : Effect) :
    t.jumpAt (t.fullPath (h ++ [j])) (h ++ [i]) parent = parent := by
  have hp := fullPath_absolute t (h ++ [j])
  have hget := get_child hs hd
  rcases hpass with hleaf | hno
  · exact jumpAt_of_leaf hget hleaf
  · refine jumpAt_of_not_child hget hp ?_
    rw [fullPath_prefix_iff ht hs hc hget]
    exact fun hpre => hno hpre.2

/-- The target itself cannot take the jump: the remainder would start beyond
the end of the path. -/
theorem jumpAt_target (hs : t.get h = some s) (hc : s.acts[j]? = some c)
    (hd : s.acts[i]? = some d) (hk : d.kind ≠ .leaf) (hsame : d.name = c.name)
    (parent : Effect) : t.jumpAt (t.fullPath (h ++ [j])) (h ++ [i]) parent = .threw := by
  have hp := fullPath_absolute t (h ++ [j])
  have hpath : t.fullPath (h ++ [i]) = t.fullPath (h ++ [j]) := by
    rw [fullPath, fullPath, names_child hs hc, names_child hs hd, hsame]
  rw [jumpAt_of_child (get_child hs hd) hk hp (by rw [hpath]), hpath,
    Paths.getChildPath_self]
  rfl

/-- A child whose name goes on as that of the target takes the jump, for what
is left of the target's name after one more character. -/
theorem jumpAt_cut (hs : t.get h = some s) (hc : s.acts[j]? = some c)
    (hd : s.acts[i]? = some d) (hk : d.kind ≠ .leaf) {l : Char} {m : Text}
    (hcut : c.name = d.name ++ l :: m) (parent : Effect) :
    t.jumpAt (t.fullPath (h ++ [j])) (h ++ [i]) parent = t.jumpInto (h ++ [i]) d.kind m := by
  have hp := fullPath_absolute t (h ++ [j])
  have hpath : t.fullPath (h ++ [j]) = t.fullPath (h ++ [i]) ++ l :: m := by
    rw [fullPath, fullPath, names_child hs hc, names_child hs hd, hcut, Paths.buildPath_append,
      Paths.buildPath_append]
    simp [Paths.buildPath]
  rw [jumpAt_of_child (get_child hs hd) hk hp (by rw [hpath]; simp), hpath,
    Paths.getChildPath_append]
  rfl

/-- What comes of such a remainder: an act_serial selects the act of that
name, an act_parallel does nothing. -/
theorem jumpInto_cut (ht : t.WellNamed) (hd : t.get h = some d) (hk : d.kind ≠ .leaf) {m : Text}
    (hm : '/' ∉ m) :
    t.jumpInto h d.kind m =
      if d.kind = .serial then (d.findAct m).elim .ignored (.select h) else .ignored := by
  rcases hkind : d.kind
  · exact absurd hkind hk
  · rw [if_pos rfl]
    exact jumpChild_name hd hm
  · rw [if_neg (by decide)]
    show t.jumpBelow (m.length + 1) h m = _
    rw [jumpBelow, Paths.getFirstAct_noSlash hm, hd]
    dsimp only [Option.bind_some]
    rcases hfind : d.findAct m with - | k
    · rfl
    · -- an act has this name, so that it is one part and nothing is left of it
      obtain ⟨e, he, rfl⟩ := findAct_getElem? hfind
      rw [Paths.popHeadAct_name (ht.isName (get_child hd he))]
      rfl

end

end Act

/-! ### Arriving -/

namespace Bot

/-- What a signal comes to returns, and leaves the act at `i` the current act
of the act_serial at `h`, active. -/
def Arrives (b : Bot) (e : Effect) (h : List ℕ) (i : ℕ) : Prop :=
  e ≠ .threw ∧ (b.handle e).fault = false ∧
    ∃ s, (b.handle e).root.get h = some s ∧ s.current = i ∧
      (s.acts[i]?).map Act.active = some true

/-- When a jump from below the child `d` of `s` arrives at the child `c`, at
index `i`.  If `d` does not take the jump, `s` does, and is to leave its
current act and enter `c`.  If `d` takes it, nothing happens in `s`, and `c`
is where the jump was to lead only if it was there before. -/
def Reaches (s d c : Act) (i : ℕ) : Prop :=
  if d.kind = .leaf ∨ ¬ d.name <+: c.name then s.entersSafely i = true
  else d.name ≠ c.name ∧ s.current = i ∧ c.active = true ∧
    (d.kind = .serial → ∀ j, d.findAct (c.name.drop (d.name.length + 1)) = some j →
      d.entersSafely j = true)

variable {b : Bot} {s d c : Act} {h r : List ℕ} {i j : ℕ}

theorem arrives_ignored (hb : b.fault = false) (hs : b.root.get h = some s)
    (hc : s.acts[i]? = some c) :
    b.Arrives .ignored h i ↔ s.current = i ∧ c.active = true := by
  constructor
  · rintro ⟨-, -, s', hs', hcur, hact⟩
    obtain rfl := Option.some.inj (hs.symm.trans hs')
    rw [hc] at hact
    exact ⟨hcur, Option.some.inj hact⟩
  · rintro ⟨hcur, hact⟩
    exact ⟨Effect.noConfusion, hb, s, hs, hcur, by rw [hc]; exact congrArg some hact⟩

/-- An act_serial that selects an act arrives there if nothing is read that is
not there. -/
theorem arrives_select (hb : b.fault = false) (hs : b.root.get h = some s) :
    b.Arrives (.select h i) h i ↔ s.entersSafely i = true := by
  have hhandle : b.handle (.select h i) = if s.entersSafely i then
      { b with root := b.root.modify (fun t => t.leaveCurrent.enter i) h }
      else { b with fault := true } := by
    rw [handle, change, hs]
  constructor
  · rintro ⟨-, hfault, -⟩
    rw [hhandle] at hfault
    rcases hsafe : s.entersSafely i with - | -
    · rw [hsafe] at hfault
      cases hfault
    · rfl
  · intro hsafe
    rw [Arrives, hhandle, if_pos hsafe]
    obtain ⟨e, he, hact⟩ := Act.get_enter hsafe
    obtain ⟨e', he', hgot⟩ := Option.bind_eq_some_iff.mp he
    obtain rfl := Option.some.inj hgot
    refine ⟨Effect.noConfusion, hb, _, Act.get_modify_self hs, rfl, ?_⟩
    rw [he']
    exact congrArg some hact

/-- A child of `s` that selects one of its own acts changes nothing else in
`s`. -/
theorem arrives_select_below (hb : b.fault = false) (hs : b.root.get h = some s)
    (hd : s.acts[j]? = some d) (hc : s.acts[i]? = some c) (hij : j ≠ i) (k : ℕ) :
    b.Arrives (.select (h ++ [j]) k) h i ↔
      d.entersSafely k = true ∧ s.current = i ∧ c.active = true := by
  have hhandle : b.handle (.select (h ++ [j]) k) = if d.entersSafely k then
      { b with root := b.root.modify (fun t => t.leaveCurrent.enter k) (h ++ [j]) }
      else { b with fault := true } := by
    rw [handle, change, Act.get_child hs hd]
  have hget : (b.root.modify (fun t => t.leaveCurrent.enter k) (h ++ [j])).get h =
      some (s.modify (fun t => t.leaveCurrent.enter k) [j]) := by
    rw [Act.modify_append]
    exact Act.get_modify_self hs
  have hsame : (s.modify (fun t => t.leaveCurrent.enter k) [j]).acts[i]? = some c := by
    show (s.acts.modify j _)[i]? = _
    rw [List.getElem?_modify_ne _ _ hij, hc]
  rw [Arrives, hhandle]
  rcases hsafe : d.entersSafely k with - | -
  · refine ⟨fun harr => ?_, fun hno => ?_⟩
    · cases harr.2.1
    · cases hno.1
  · rw [if_pos rfl]
    constructor
    · rintro ⟨-, -, s', hs', hcur, hact⟩
      obtain rfl := Option.some.inj (hget.symm.trans hs')
      rw [hsame] at hact
      exact ⟨rfl, hcur, Option.some.inj hact⟩
    · rintro ⟨-, hcur, hact⟩
      exact ⟨Effect.noConfusion, hb, _, hget, hcur, by rw [hsame]; exact congrArg some hact⟩

/-- **Where an absolute jump arrives.**  In a well named tree, a jump for the
child `c` of the act_serial `s` that is asked for by an act below the child
`d` of `s` arrives exactly under `Reaches`. -/
theorem jump_reaches_iff (ht : b.root.WellNamed) (hb : b.fault = false)
    (hs : b.root.get h = some s) (hk : s.kind = .serial) (hc : s.acts[i]? = some c)
    (hd : s.acts[j]? = some d) (hx : (b.root.get (h ++ j :: r)).isSome = true) :
    b.Arrives (b.root.jump (h ++ j :: r) (b.root.fullPath (h ++ [i]))) h i ↔ Reaches s d c i := by
  obtain ⟨x, hx⟩ := Option.isSome_iff_exists.mp hx
  have hjump := (Act.jumpUp_below ht hs hc hx).trans (by rw [Act.jumpUp_at ht hs hk hc])
  rw [Act.jump, hjump]
  unfold Reaches
  split_ifs with hpass
  · rw [Act.jumpAt_passes ht hs hd hc hpass]
    exact arrives_select hb hs
  · obtain ⟨hleaf, hpre⟩ := not_or.mp hpass
    obtain ⟨m, hm⟩ := not_not.mp hpre
    cases m with
    | nil =>
        -- the target is the child that takes the jump
        have hsame : d.name = c.name := by rw [← hm, List.append_nil]
        rw [Act.jumpAt_target hs hc hd hleaf hsame]
        exact ⟨fun harr => absurd rfl harr.1, fun hr => absurd hsame hr.1⟩
    | cons l m =>
        have hne : d.name ≠ c.name := by
          intro e
          have := congrArg List.length hm
          rw [e, List.length_append, List.length_cons] at this
          omega
        have hij : j ≠ i := by
          rintro rfl
          exact hne (congrArg Act.name (Option.some.inj (hd.symm.trans hc)))
        have hslash : '/' ∉ m := by
          have := (ht.isName (Act.get_child hs hc)).2
          rw [← hm] at this
          exact fun hin => this (List.mem_append_right _ (List.mem_cons_of_mem _ hin))
        have hdrop : c.name.drop (d.name.length + 1) = m := by
          rw [← hm, ← List.drop_drop, List.drop_left]
          rfl
        rw [Act.jumpAt_cut hs hc hd hleaf hm.symm,
          Act.jumpInto_cut ht (Act.get_child hs hd) hleaf hslash, hdrop]
        split_ifs with hser
        · rcases d.findAct m with - | k
          · have := arrives_ignored hb hs hc
            simpa [hne, hser] using this
          · have := arrives_select_below hb hs hd hc hij k
            simp only [Option.elim_some, this, hser]
            constructor
            · rintro ⟨hsafe, hcur, hact⟩
              exact ⟨hne, hcur, hact, fun _ k' e => by rwa [← Option.some.inj e]⟩
            · rintro ⟨-, hcur, hact, hall⟩
              exact ⟨hall trivial k rfl, hcur, hact⟩
        · have := arrives_ignored hb hs hc
          simpa [hne, hser] using this

/-- A flow with an act_serial "a" around a leaf "x", and leaves "ab" and
"b". -/
def twoNames : List Spec :=
  [.mk .serial ['a'] [.mk .leaf ['x'] []], .mk .leaf ['a', 'b'] [], .mk .leaf ['b'] []]

theorem wellNamed_twoNames : (start twoNames).root.WellNamed := by
  have hx : ∀ a ∈ ((start twoNames).root.get [0, 0]), a.WellNamed := fun a ha => by
    obtain rfl := Option.some.inj ha
    exact Act.wellNamed_iff.mpr ⟨by decide, by decide, nofun⟩
  refine Act.wellNamed_iff.mpr ⟨by decide, by decide, fun c hc => ?_⟩
  rcases hc with _ | ⟨_, _ | ⟨_, _ | ⟨_, hc⟩⟩⟩
  · refine Act.wellNamed_iff.mpr ⟨by decide, by decide, fun d hd => hx d ?_⟩
    rw [List.mem_singleton.mp hd]
    rfl
  · exact Act.wellNamed_iff.mpr ⟨by decide, by decide, nofun⟩
  · exact Act.wellNamed_iff.mpr ⟨by decide, by decide, nofun⟩
  · cases hc

/-- The leaf "x" jumps to "/flow/b". -/
theorem reaches_b : (start twoNames).root.fullPath [2] = ['/', 'f', 'l', 'o', 'w', '/', 'b'] ∧
    (start twoNames).Arrives
      ((start twoNames).root.jump [0, 0] ['/', 'f', 'l', 'o', 'w', '/', 'b']) [] 2 := by
  have hpath : (start twoNames).root.fullPath [2] = ['/', 'f', 'l', 'o', 'w', '/', 'b'] := by
    decide +kernel
  have harr := jump_reaches_iff (b := start twoNames) (h := []) (i := 2) (j := 0) (r := [0])
    wellNamed_twoNames rfl rfl rfl rfl rfl rfl
  refine ⟨hpath, hpath ▸ harr.mpr ?_⟩
  unfold Reaches
  rw [if_pos (.inr (by decide +kernel))]
  decide +kernel

/-- The leaf "x" jumps to "/flow/a", the act that contains it, and to
"/flow/ab", the next act: the first jump throws, and the second one leaves
"/flow/a" the current act. -/
theorem jump_lost : (start twoNames).root.WellNamed ∧
    (start twoNames).root.onPath [0, 0] = true ∧
    ((start twoNames).root.get [0, 0]).map Act.active = some true ∧
    (start twoNames).root.fullPath [0] = ['/', 'f', 'l', 'o', 'w', '/', 'a'] ∧
    (start twoNames).root.jump [0, 0] ['/', 'f', 'l', 'o', 'w', '/', 'a'] = .threw ∧
    ¬ (start twoNames).Arrives
      ((start twoNames).root.jump [0, 0] ['/', 'f', 'l', 'o', 'w', '/', 'a']) [] 0 ∧
    (start twoNames).root.fullPath [1] = ['/', 'f', 'l', 'o', 'w', '/', 'a', 'b'] ∧
    (start twoNames).root.jump [0, 0] ['/', 'f', 'l', 'o', 'w', '/', 'a', 'b'] = .ignored ∧
    ¬ (start twoNames).Arrives
      ((start twoNames).root.jump [0, 0] ['/', 'f', 'l', 'o', 'w', '/', 'a', 'b']) [] 1 := by
  have hself : (start twoNames).root.jump [0, 0] ['/', 'f', 'l', 'o', 'w', '/', 'a'] = .threw := by
    decide +kernel
  have hnext : (start twoNames).root.jump [0, 0] ['/', 'f', 'l', 'o', 'w', '/', 'a', 'b'] =
      .ignored := by decide +kernel
  refine ⟨wellNamed_twoNames, by decide +kernel, by decide +kernel, by decide +kernel, hself,
    fun harr => harr.1 hself, by decide +kernel, hnext, fun harr => ?_⟩
  rw [hnext] at harr
  obtain ⟨-, -, s, hs, hcur, -⟩ := harr
  obtain rfl := Option.some.inj hs
  exact absurd hcur (by decide +kernel)

end Bot

end Play
