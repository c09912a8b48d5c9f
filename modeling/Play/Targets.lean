/-
Play/Targets.lean

What `find` and `jump` make of any string.

Both climb to the closest act whose full path begins the string, drop one more
character, whatever it is, and take the first part of what is left.  There is
an exception when nothing is left to drop, and when what is left is made of
delimiters only.  A relative path raises none.

A jump that leads to an act is carried out: the current act is left and the
act is entered.  That reads past the end of `acts_` if the act is an
act_serial with an empty flow.  An act that is entered again is as it was if
nothing that it loads then is activated (`Resumes`).

`harmless_iff` says for which strings both calls return and a jump for a path
that names no act leaves the active acts and the indexes as they are.  The
trees and the names in them are arbitrary: a name may be empty, hold
delimiters or be that of another act.
-/
import Play.Find
import Play.StringUtil

namespace Play

/-! ### Paths of delimiters -/

namespace Paths

variable {p q r : Text}

/-- A path that is there, of delimiters only. -/
def OnlySlashes (p : Text) : Prop := p ≠ [] ∧ ∀ c ∈ p, c = '/'

instance (p : Text) : Decidable (OnlySlashes p) :=
  inferInstanceAs (Decidable (p ≠ [] ∧ ∀ c ∈ p, c = '/'))

/-- There is no first part. -/
theorem getFirstAct_eq_none_iff : getFirstAct p = none ↔ OnlySlashes p := by
  rw [getFirstAct, OnlySlashes]
  by_cases hp : p = []
  · simp [hp]
  · rw [if_neg hp, List.head?_eq_none_iff, split_eq_nil_iff]
    simp [hp]

/-- There is no part to be taken off. -/
theorem popHeadAct_eq_none_iff : popHeadAct p = none ↔ p = [] ∨ OnlySlashes p := by
  have hparts : popHeadAct p = none ↔ split p = [] := by
    unfold popHeadAct
    split <;> simp_all
  rw [hparts, split_eq_nil_iff, OnlySlashes]
  by_cases hp : p = [] <;> simp [hp]

theorem not_onlySlashes_of_relative (hp : isRelativePath p = true) : ¬ OnlySlashes p := by
  rintro ⟨-, hall⟩
  cases p with
  | nil => cases hp
  | cons c p => simp [isRelativePath, hall c List.mem_cons_self] at hp

/-- What is left after the first part is nothing, or a relative path. -/
theorem relative_of_popHeadAct (h : popHeadAct p = some r) :
    r = [] ∨ isRelativePath r = true := by
  unfold popHeadAct at h
  split at h
  · cases h
  · next n parts hparts =>
      obtain rfl := Option.some.inj h
      cases parts with
      | nil => exact .inl rfl
      | cons m ms =>
          have hname : IsName m := isName_of_mem_split (p := p) (by simp [hparts])
          exact .inr (isRelativePath_join hname)

theorem length_join_splitLoop (part s : Text) :
    (join (splitLoop part s)).length ≤ part.length + s.length := by
  induction s generalizing part with
  | nil =>
      rw [splitLoop]
      split <;> simp [join]
  | cons c s ih =>
      have hnil := ih []
      rw [splitLoop]
      split
      · split
        · simp only [List.length_nil, List.length_cons] at hnil ⊢
          omega
        · rcases hparts : splitLoop [] s with - | ⟨n, ns⟩
          · simp [join]
          · rw [hparts, List.length_nil] at hnil
            rw [join, List.length_append, List.length_cons, List.length_cons]
            · omega
            · simp
      · have := ih (part ++ [c])
        simp only [List.length_append, List.length_cons, List.length_nil] at this ⊢
        omega

/-- Taking the first part off makes the path shorter. -/
theorem length_popHeadAct (h : popHeadAct p = some r) : r.length < p.length := by
  unfold popHeadAct at h
  split at h
  · cases h
  · next n parts hparts =>
      obtain rfl := Option.some.inj h
      have hlen := length_join_splitLoop [] p
      have hname : n ≠ [] := (isName_of_mem_split (p := p) (by simp [hparts])).1
      have hpos := List.length_pos_of_ne_nil hname
      rw [show splitLoop [] p = n :: parts from hparts, List.length_nil, Nat.zero_add] at hlen
      cases parts with
      | nil =>
          change n.length ≤ p.length at hlen
          show 0 < p.length
          omega
      | cons m ms =>
          rw [join, List.length_append, List.length_cons] at hlen
          · omega
          · simp

end Paths

/-! ### When a search throws -/

namespace Act

open Paths

variable {t c : Act} {a h x y : List ℕ} {p q : Text} {i : ℕ}

theorem below_eq_threw {r : Found} : r.below a = .threw ↔ r = .threw := by
  cases r <;> simp [Found.below]

theorem exists_getFirstAct (hp : p = [] ∨ isRelativePath p = true) :
    ∃ n, getFirstAct p = some n := by
  rcases hn : getFirstAct p with - | n
  · have hslash := getFirstAct_eq_none_iff.mp hn
    exact absurd hslash (hp.elim (fun e h => h.1 e) not_onlySlashes_of_relative)
  · exact ⟨n, rfl⟩

theorem exists_popHeadAct (hp : isRelativePath p = true) : ∃ r, popHeadAct p = some r := by
  rcases hr : popHeadAct p with - | r
  · rcases popHeadAct_eq_none_iff.mp hr with rfl | hslash
    · cases hp
    · exact absurd hslash (not_onlySlashes_of_relative hp)
  · exact ⟨r, rfl⟩

/-- **A search for a relative path raises no exception.** -/
theorem findRelative_ne_threw (c : Act) (above : List Text) {p : Text}
    (hp : p = [] ∨ isRelativePath p = true) : c.findRelative above p ≠ .threw := by
  induction c using Act.induct generalizing above p with
  | h k n fl b cur as ih =>
      rw [findRelative_def]
      by_cases hnil : p = []
      · simp [hnil]
      have hrel := hp.resolve_left hnil
      obtain ⟨first, hfirst⟩ := exists_getFirstAct hp
      obtain ⟨r, hr⟩ := exists_popHeadAct hrel
      rw [if_neg hnil, hfirst, hr]
      split
      · simp
      -- the path, or what is left of it, is relative again
      obtain ⟨q, hq, hqrel⟩ : ∃ q,
          (if first = getLastAct (buildPath (above ++ [(mk k n fl b cur as).name])) then some r
            else some p) = some q ∧ (q = [] ∨ isRelativePath q = true) := by
        split
        · exact ⟨r, rfl, relative_of_popHeadAct hr⟩
        · exact ⟨p, rfl, hp⟩
      obtain ⟨m, hm⟩ := exists_getFirstAct hqrel
      simp only [hq, hm]
      split
      · simp
      · rcases hc : child (.mk k n fl b cur as) m with - | ⟨i, d⟩
        · simp
        · obtain ⟨-, hd, -⟩ := child_eq_some hc
          rw [Option.elim_some, ne_eq, below_eq_threw]
          exact ih d (List.mem_of_getElem? hd) _ hqrel

/-- When a search for an absolute path raises an exception: the closest act
that begins the path is a composite one, and after one more character comes
either a path of delimiters only, or an absolute path whose first part names
an act from which the search for it does. -/
inductive FindThrows (t : Act) : List ℕ → Text → Prop
  | slashes {a y : List ℕ} {c : Act} {p q : Text} {l : Char} :
      t.closest p a.reverse = some y → t.get y = some c → c.kind ≠ .leaf →
      p = t.fullPath y ++ l :: q → OnlySlashes q → FindThrows t a p
  | again {a y : List ℕ} {c : Act} {p q n : Text} {l : Char} {i : ℕ} :
      t.closest p a.reverse = some y → t.get y = some c → c.kind ≠ .leaf →
      p = t.fullPath y ++ l :: q → isAbsolutePath q = true → getFirstAct q = some n →
      c.findAct n = some i → FindThrows t (y ++ [i]) q → FindThrows t a p

theorem FindThrows.absolute (hthrows : t.FindThrows a p) : isAbsolutePath p = true := by
  have hpath : ∀ y l q, p = t.fullPath y ++ l :: q → isAbsolutePath p = true := by
    rintro y l q rfl
    have := fullPath_absolute t y
    rcases hy : t.fullPath y with - | ⟨d, r⟩
    · rw [hy] at this
      cases this
    · rw [hy] at this
      exact this
  cases hthrows with
  | slashes _ _ _ e _ => exact hpath _ _ _ e
  | again _ _ _ e _ _ _ _ => exact hpath _ _ _ e

theorem FindThrows.find_eq (hthrows : t.FindThrows a p) : t.find a p = .threw := by
  induction hthrows with
  | @slashes a y c p q l hy hc hk e hq =>
      have habs := FindThrows.absolute (.slashes hy hc hk e hq)
      rw [find_of_append habs hy e, findChild, hc]
      simp only [if_neg hk, getFirstAct_eq_none_iff.mpr hq]
  | @again a y c p q n l i hy hc hk e hq hn hi hagain ih =>
      have habs := FindThrows.absolute (.again hy hc hk e hq hn hi hagain)
      rw [find_of_append habs hy e, findChild, hc]
      simp only [if_neg hk, hn, hi, ih]

theorem find_ne_threw (hp : ¬ isAbsolutePath p = true) : t.find a p ≠ .threw := by
  rw [find_eq]
  by_cases hnil : p = []
  · simp [hnil]
  · have hrel : isRelativePath p = true := by
      by_contra hrel
      exact hp (isAbsolutePath_iff.mpr ⟨hnil, by simpa using hrel⟩)
    rw [if_neg hnil, if_pos hrel, ne_eq, below_eq_threw]
    rcases t.get a with - | c
    · simp
    · exact c.findRelative_ne_threw _ (.inr hrel)

/-- **When `find` raises an exception.** -/
theorem find_eq_threw_iff (ha : (t.get a).isSome = true) :
    t.find a p = .threw ↔ t.FindThrows a p := by
  refine ⟨fun hthrew => ?_, FindThrows.find_eq⟩
  -- the path gets shorter every time it is searched for again
  induction hlen : p.length using Nat.strong_induction_on generalizing a p with
  | _ len ih =>
      have hp : isAbsolutePath p = true := by
        by_contra hp
        exact find_ne_threw hp hthrew
      rcases hy : t.closest p a.reverse with - | y
      · rw [find_of_none hp hy] at hthrew
        cases hthrew
      obtain ⟨c, hc⟩ := get_of_closest ha hy
      obtain ⟨r, hr⟩ := (closest_some hy).2
      cases r with
      | nil =>
          rw [find_self hp hy (by rw [← hr, List.append_nil])] at hthrew
          cases hthrew
      | cons l q =>
          rw [find_of_append hp hy hr.symm, findChild, hc] at hthrew
          dsimp only at hthrew
          split at hthrew
          · cases hthrew
          · next hk =>
              rcases hn : getFirstAct q with - | n
              · exact .slashes hy hc hk hr.symm (getFirstAct_eq_none_iff.mp hn)
              rw [hn] at hthrew
              dsimp only at hthrew
              rcases hi : c.findAct n with - | i
              · rw [hi] at hthrew
                cases hthrew
              rw [hi] at hthrew
              dsimp only at hthrew
              obtain ⟨d, hd, -⟩ := findAct_getElem? hi
              have hq : isAbsolutePath q = true := by
                by_contra hq
                exact find_ne_threw hq hthrew
              have hshort : q.length < len := by
                rw [← hlen, ← hr, List.length_append, List.length_cons]
                omega
              have hagain := ih _ hshort (by rw [get_child hc hd]; rfl) hthrew rfl
              exact .again hy hc hk hr.symm hq hn hi hagain

/-! ### Who takes a jump -/

/-- The act at `h` takes a jump for `p`: it is a composite one, and the path is
relative or begins with its full path. -/
def takes (t : Act) (p : Text) (h : List ℕ) : Bool :=
  ((t.get h).elim false fun c => decide (c.kind ≠ .leaf)) &&
    (isRelativePath p || isChildOf (t.fullPath h) p)

/-- The closest act that takes a jump, from the place that is given from the
act upwards. -/
def taker (t : Act) (p : Text) : List ℕ → Option (List ℕ)
  | [] => if t.takes p [] then some [] else none
  | i :: up => if t.takes p (i :: up).reverse then some (i :: up).reverse else t.taker p up

/-- What the act at `h` makes of a jump that it takes. -/
def asked (t : Act) (h : List ℕ) (p : Text) : Effect :=
  (t.get h).elim .ignored fun c =>
    if isRelativePath p then t.jumpInto h c.kind p
    else (getChildPath (t.fullPath h) p).elim .threw (t.jumpInto h c.kind)

theorem not_takes_nil : t.takes [] h = false := by
  have hne : t.fullPath h ≠ [] := (isAbsolutePath_iff.mp (fullPath_absolute t h)).1
  have hchild : isChildOf (t.fullPath h) [] = false := by
    rw [← Bool.not_eq_true, isChildOf_iff, List.prefix_nil]
    exact hne
  simp [takes, isRelativePath, hchild]

theorem jumpAt_eq (hc : t.get h = some c) {parent : Effect} (hnil : p = [] → parent = .ignored) :
    t.jumpAt p h parent = if t.takes p h then t.asked h p else parent := by
  by_cases hp : p = []
  · subst hp
    rw [not_takes_nil, if_neg Bool.false_ne_true, hnil rfl, jumpAt, hc]
    rcases hk : c.kind <;> simp [hk]
  · unfold jumpAt takes asked
    rw [hc]
    rcases hk : c.kind
    · simp [hk]
    all_goals
      rcases isRelativePath p
      · rcases isChildOf (t.fullPath h) p
        · simp [hk, hp]
        · rcases getChildPath (t.fullPath h) p <;> simp [hk, hp]
      · simp [hk, hp]

theorem taker_nil (up : List ℕ) : t.taker [] up = none := by
  induction up with
  | nil => rw [taker, not_takes_nil, if_neg Bool.false_ne_true]
  | cons i up ih => rw [taker, not_takes_nil, if_neg Bool.false_ne_true, ih]

/-- Where there is an act there is its parent. -/
theorem get_up {up : List ℕ} {i : ℕ} (h : (t.get (i :: up).reverse).isSome = true) :
    (t.get up.reverse).isSome = true := by
  obtain ⟨c, hc⟩ := Option.isSome_iff_exists.mp h
  rw [List.reverse_cons, get_append] at hc
  obtain ⟨d, hd, -⟩ := Option.bind_eq_some_iff.mp hc
  rw [hd]
  rfl

theorem jumpUp_eq {up : List ℕ} (ha : (t.get up.reverse).isSome = true) :
    t.jumpUp p up = (t.taker p up).elim .ignored (t.asked · p) := by
  induction up with
  | nil =>
      have hc : t.get [] = some t := rfl
      rw [jumpUp, taker, jumpAt_eq hc fun _ => rfl]
      split <;> rfl
  | cons i up ih =>
      obtain ⟨c, hc⟩ := Option.isSome_iff_exists.mp ha
      have hup := get_up ha
      have hnil : p = [] → t.jumpUp p up = .ignored := by
        rintro rfl
        rw [ih hup, taker_nil]
        rfl
      rw [jumpUp, taker, jumpAt_eq hc hnil, ih hup]
      split <;> rfl

/-- **A jump is what its taker makes of it.** -/
theorem jump_eq (ha : (t.get a).isSome = true) :
    t.jump a p = (t.taker p a.reverse).elim .ignored (t.asked · p) :=
  jumpUp_eq (by rwa [List.reverse_reverse])

theorem taker_some {up : List ℕ} (hx : t.taker p up = some x) :
    x <+: up.reverse ∧ t.takes p x = true := by
  induction up with
  | nil =>
      rw [taker, Option.ite_none_right_eq_some, Option.some.injEq] at hx
      obtain ⟨htakes, rfl⟩ := hx
      exact ⟨List.nil_prefix, htakes⟩
  | cons i up ih =>
      rw [taker] at hx
      split at hx
      · next htakes =>
          obtain rfl := Option.some.inj hx
          exact ⟨List.prefix_refl _, htakes⟩
      · obtain ⟨hpre, htakes⟩ := ih hx
        refine ⟨?_, htakes⟩
        rw [List.reverse_cons]
        exact hpre.trans (List.prefix_append _ _)

theorem composite_of_takes (hx : t.takes p x = true) :
    ∃ c, t.get x = some c ∧ c.kind ≠ .leaf := by
  rw [takes, Bool.and_eq_true] at hx
  rcases hc : t.get x with - | c
  · rw [hc] at hx
    cases hx.1
  · rw [hc] at hx
    exact ⟨c, rfl, by simpa using hx.1⟩

/-- The taker of a jump for an absolute path begins it. -/
theorem prefix_of_takes (hx : t.takes p x = true) (hp : isAbsolutePath p = true) :
    t.fullPath x <+: p := by
  rw [takes, Bool.and_eq_true, (isAbsolutePath_iff.mp hp).2, Bool.false_or] at hx
  exact isChildOf_iff.mp hx.2

/-! ### When a jump throws -/

theorem jumpChild_eq_threw_iff : t.jumpChild h q = .threw ↔ OnlySlashes q := by
  rw [jumpChild, ← getFirstAct_eq_none_iff]
  rcases getFirstAct q with - | n
  · simp
  · dsimp only
    rcases (t.get h).bind (findAct · n) <;> simp

/-- `jump` of the act at `i` in the act_parallel at `b` for the rest of a
path. -/
def handOn (t : Act) (k : ℕ) (b : List ℕ) (i : ℕ) (r : Text) : Effect :=
  if r = [] then .ignored
  else
    match (t.get (b ++ [i])).map kind with
    | some .serial => t.jumpChild (b ++ [i]) r
    | some .parallel => t.jumpBelow k (b ++ [i]) r
    | _ => t.jumpBelow k b r

/-- What an act_parallel makes of a path. -/
theorem jumpBelow_succ (k : ℕ) (b : List ℕ) {n r : Text} (hc : t.get b = some c)
    (hn : getFirstAct q = some n) (hr : popHeadAct q = some r) :
    t.jumpBelow (k + 1) b q = (c.findAct n).elim .ignored (t.handOn k b · r) := by
  rw [jumpBelow, hn, hc, hr]
  dsimp only [Option.bind_some]
  rcases c.findAct n <;> rfl

theorem handOn_ne_threw {k : ℕ} {b : List ℕ} {r : Text} (hrel : isRelativePath r = true)
    (hbelow : ∀ b, t.jumpBelow k b r ≠ .threw) : t.handOn k b i r ≠ .threw := by
  unfold handOn
  split
  · simp
  · split
    · exact mt jumpChild_eq_threw_iff.mp (not_onlySlashes_of_relative hrel)
    · exact hbelow _
    · exact hbelow _

theorem jumpBelow_ne_threw (k : ℕ) (b : List ℕ) (hq : isRelativePath q = true) :
    t.jumpBelow k b q ≠ .threw := by
  induction k generalizing b q with
  | zero => simp [jumpBelow]
  | succ k ih =>
      obtain ⟨n, hn⟩ := exists_getFirstAct (.inr hq)
      obtain ⟨r, hr⟩ := exists_popHeadAct hq
      rcases hc : t.get b with - | c
      · simp [jumpBelow, hn, hc]
      rw [jumpBelow_succ k b hc hn hr]
      rcases c.findAct n with - | i
      · simp
      · rcases relative_of_popHeadAct hr with rfl | hrel
        · simp [handOn]
        · exact handOn_ne_threw hrel fun b => ih b hrel

/-- A composite act throws at a path of delimiters only, and an act_parallel
at the empty path too, if one of its acts has the empty name. -/
theorem jumpInto_eq_threw_iff (hc : t.get h = some c) (hk : c.kind ≠ .leaf) :
    t.jumpInto h c.kind q = .threw ↔
      OnlySlashes q ∨ (q = [] ∧ c.kind = .parallel ∧ (c.findAct []).isSome = true) := by
  rcases hkind : c.kind
  · exact absurd hkind hk
  · show t.jumpChild h q = .threw ↔ _
    rw [jumpChild_eq_threw_iff]
    simp
  · show t.jumpBelow (q.length + 1) h q = .threw ↔ _
    rcases hn : getFirstAct q with - | n
    · have hslash := getFirstAct_eq_none_iff.mp hn
      simp [jumpBelow, hn, hslash]
    have hslash : ¬ OnlySlashes q := by
      rw [← getFirstAct_eq_none_iff, hn]
      simp
    rcases hr : popHeadAct q with - | r
    · -- nothing is left at all
      obtain rfl := (popHeadAct_eq_none_iff.mp hr).resolve_right hslash
      obtain rfl : [] = n := Option.some.inj hn
      rw [jumpBelow, hn, hc, hr]
      dsimp only [Option.bind_some]
      rcases c.findAct [] <;> simp [hslash]
    · have hne : q ≠ [] := by
        rintro rfl
        cases hr
      rw [jumpBelow_succ _ h hc hn hr]
      rcases c.findAct n with - | i
      · simp [hslash, hne]
      · have hrest : t.handOn q.length h i r ≠ .threw := by
          rcases relative_of_popHeadAct hr with rfl | hrel
          · simp [handOn]
          · exact handOn_ne_threw hrel fun b => jumpBelow_ne_threw _ b hrel
        simp [hslash, hne, hrest]

/-- When a jump raises an exception: the path is absolute, and it is that of
the act that takes the jump, or goes on after one more character with
delimiters only, or ends there though an act of the empty name is in the
act_parallel. -/
def JumpThrows (t : Act) (a : List ℕ) (p : Text) : Prop :=
  isAbsolutePath p = true ∧ ∃ x c, t.taker p a.reverse = some x ∧ t.get x = some c ∧
    (p = t.fullPath x ∨
      ∃ l q, p = t.fullPath x ++ l :: q ∧
        (OnlySlashes q ∨ (q = [] ∧ c.kind = .parallel ∧ (c.findAct []).isSome = true)))

theorem asked_of_relative (hc : t.get x = some c) (hp : isRelativePath p = true) :
    t.asked x p = t.jumpInto x c.kind p := by
  rw [asked, hc, Option.elim_some, if_pos hp]

theorem asked_of_self (hc : t.get x = some c) (e : p = t.fullPath x) : t.asked x p = .threw := by
  have hp := fullPath_absolute t x
  rw [← e] at hp
  rw [asked, hc, Option.elim_some, (isAbsolutePath_iff.mp hp).2, if_neg Bool.false_ne_true, e,
    getChildPath_self]
  rfl

theorem asked_of_append (hc : t.get x = some c) (hp : isAbsolutePath p = true) {l : Char}
    (e : p = t.fullPath x ++ l :: q) : t.asked x p = t.jumpInto x c.kind q := by
  rw [asked, hc, Option.elim_some, (isAbsolutePath_iff.mp hp).2, if_neg Bool.false_ne_true, e,
    getChildPath_append]
  rfl

/-- A path for which a jump is taken is relative or absolute. -/
theorem relative_of_takes (htakes : t.takes p x = true) (hp : ¬ isAbsolutePath p = true) :
    isRelativePath p = true := by
  by_contra hrel
  refine hp (isAbsolutePath_iff.mpr ⟨?_, by simpa using hrel⟩)
  rintro rfl
  rw [not_takes_nil] at htakes
  cases htakes

/-- **When `jump` raises an exception.** -/
theorem jump_eq_threw_iff (ha : (t.get a).isSome = true) :
    t.jump a p = .threw ↔ t.JumpThrows a p := by
  rw [jump_eq ha]
  rcases hx : t.taker p a.reverse with - | x
  · simp [JumpThrows, hx]
  obtain ⟨-, htakes⟩ := taker_some hx
  obtain ⟨c, hc, hk⟩ := composite_of_takes htakes
  rw [Option.elim_some]
  by_cases hp : isAbsolutePath p = true
  · constructor
    · intro hthrew
      obtain ⟨r, hr⟩ := prefix_of_takes htakes hp
      refine ⟨hp, x, c, hx, hc, ?_⟩
      cases r with
      | nil => exact .inl (by rw [← hr, List.append_nil])
      | cons l q =>
          rw [asked_of_append hc hp hr.symm, jumpInto_eq_threw_iff hc hk] at hthrew
          exact .inr ⟨l, q, hr.symm, hthrew⟩
    · rintro ⟨-, x', c', hx', hc', hcase⟩
      obtain rfl := Option.some.inj (hx.symm.trans hx')
      obtain rfl := Option.some.inj (hc.symm.trans hc')
      rcases hcase with e | ⟨l, q, e, hq⟩
      · exact asked_of_self hc e
      · rw [asked_of_append hc hp e]
        exact (jumpInto_eq_threw_iff hc hk).mpr hq
  · have hrel := relative_of_takes htakes hp
    rw [asked_of_relative hc hrel, jumpInto_eq_threw_iff hc hk]
    constructor
    · rintro (hslash | ⟨rfl, -⟩)
      · exact absurd hslash (not_onlySlashes_of_relative hrel)
      · cases hrel
    · intro hthrows
      exact absurd hthrows.1 hp

/-! ### Where a jump leads -/

/-- The rules by which a path leads from a composite act to an act in an
act_serial.  An act_serial looks at the first part only.  An act_parallel hands
the rest of the path to the act that the first part names, and a leaf hands it
back. -/
inductive Leads (t : Act) : List ℕ → Text → List ℕ → ℕ → Prop
  | serial {g : List ℕ} {q n : Text} {c : Act} {i : ℕ} :
      t.get g = some c → c.kind = .serial → getFirstAct q = some n → c.findAct n = some i →
      Leads t g q g i
  | into {g h : List ℕ} {q n r : Text} {c d : Act} {i j : ℕ} :
      t.get g = some c → c.kind = .parallel → getFirstAct q = some n → popHeadAct q = some r →
      r ≠ [] → c.findAct n = some j → t.get (g ++ [j]) = some d → d.kind ≠ .leaf →
      Leads t (g ++ [j]) r h i → Leads t g q h i
  | back {g h : List ℕ} {q n r : Text} {c d : Act} {i j : ℕ} :
      t.get g = some c → c.kind = .parallel → getFirstAct q = some n → popHeadAct q = some r →
      r ≠ [] → c.findAct n = some j → t.get (g ++ [j]) = some d → d.kind = .leaf →
      Leads t g r h i → Leads t g q h i

theorem jumpChild_eq_select_iff {g : List ℕ} (hc : t.get g = some c) (hk : c.kind = .serial) :
    t.jumpChild g q = .select h i ↔ t.Leads g q h i := by
  constructor
  · intro hsel
    rw [jumpChild, hc] at hsel
    rcases hn : getFirstAct q with - | n
    · rw [hn] at hsel
      cases hsel
    rw [hn] at hsel
    dsimp only [Option.bind_some] at hsel
    rcases hi : c.findAct n with - | j
    · rw [hi] at hsel
      cases hsel
    · rw [hi] at hsel
      obtain ⟨rfl, rfl⟩ := Effect.select.inj hsel
      exact .serial hc hk hn hi
  · intro hleads
    cases hleads with
    | serial hc' _ hn hi =>
        obtain rfl := Option.some.inj (hc.symm.trans hc')
        rw [jumpChild, hc, hn]
        simp [hi]
    | into hc' hk' _ _ _ _ _ _ _ =>
        obtain rfl := Option.some.inj (hc.symm.trans hc')
        rw [hk] at hk'
        cases hk'
    | back hc' hk' _ _ _ _ _ _ _ =>
        obtain rfl := Option.some.inj (hc.symm.trans hc')
        rw [hk] at hk'
        cases hk'

/-- What a path leads to from an act_parallel. -/
theorem leads_parallel_iff {g : List ℕ} (hc : t.get g = some c) (hk : c.kind = .parallel) :
    t.Leads g q h i ↔ ∃ n r j d, getFirstAct q = some n ∧ popHeadAct q = some r ∧ r ≠ [] ∧
      c.findAct n = some j ∧ t.get (g ++ [j]) = some d ∧
      (if d.kind = .leaf then t.Leads g r h i else t.Leads (g ++ [j]) r h i) := by
  constructor
  · intro hleads
    cases hleads with
    | serial hc' hk' _ _ =>
        obtain rfl := Option.some.inj (hc.symm.trans hc')
        rw [hk] at hk'
        cases hk'
    | into hc' _ hn hr hne hj hd hdk hrest =>
        obtain rfl := Option.some.inj (hc.symm.trans hc')
        exact ⟨_, _, _, _, hn, hr, hne, hj, hd, by rwa [if_neg hdk]⟩
    | back hc' _ hn hr hne hj hd hdk hrest =>
        obtain rfl := Option.some.inj (hc.symm.trans hc')
        exact ⟨_, _, _, _, hn, hr, hne, hj, hd, by rwa [if_pos hdk]⟩
  · rintro ⟨n, r, j, d, hn, hr, hne, hj, hd, hrest⟩
    split at hrest
    · next hdk => exact .back hc hk hn hr hne hj hd hdk hrest
    · next hdk => exact .into hc hk hn hr hne hj hd hdk hrest

theorem jumpBelow_eq_select_iff {g : List ℕ} {k : ℕ} (hlen : q.length < k)
    (hc : t.get g = some c) (hk : c.kind = .parallel) :
    t.jumpBelow k g q = .select h i ↔ t.Leads g q h i := by
  induction k generalizing g q c with
  | zero => omega
  | succ k ih =>
      rw [leads_parallel_iff hc hk]
      rcases hn : getFirstAct q with - | n
      · simp [jumpBelow, hn]
      rcases hr : popHeadAct q with - | r
      · rw [jumpBelow, hn, hc, hr]
        dsimp only [Option.bind_some]
        rcases c.findAct n <;> simp
      rw [jumpBelow_succ k g hc hn hr]
      rcases hj : c.findAct n with - | j
      · simp [hj]
      obtain ⟨d, hd, -⟩ := findAct_getElem? hj
      have hdget := get_child hc hd
      have hshort : r.length < k := by
        have := length_popHeadAct hr
        omega
      have hrest : t.handOn k g j r = .select h i ↔
          r ≠ [] ∧ if d.kind = .leaf then t.Leads g r h i else t.Leads (g ++ [j]) r h i := by
        unfold handOn
        rw [hdget, Option.map_some]
        by_cases hne : r = []
        · simp [hne]
        · rcases hdk : d.kind
          · simp [hne, ih hshort hc hk]
          · simp [hne, jumpChild_eq_select_iff hdget hdk]
          · simp [hne, ih hshort hdget hdk]
      rw [Option.elim_some, hrest]
      constructor
      · rintro ⟨hne, hleads⟩
        exact ⟨n, r, j, d, rfl, rfl, hne, hj, hdget, hleads⟩
      · rintro ⟨n', r', j', d', hn', hr', hne, hj', hd', hleads⟩
        cases hn'
        cases hr'
        obtain rfl := Option.some.inj (hj.symm.trans hj')
        obtain rfl := Option.some.inj (hdget.symm.trans hd')
        exact ⟨hne, hleads⟩

/-- **Where a composite act leads a jump.** -/
theorem jumpInto_eq_select_iff (hc : t.get x = some c) (hk : c.kind ≠ .leaf) :
    t.jumpInto x c.kind q = .select h i ↔ t.Leads x q h i := by
  rcases hkind : c.kind
  · exact absurd hkind hk
  · exact jumpChild_eq_select_iff hc hkind
  · exact jumpBelow_eq_select_iff (Nat.lt_succ_self _) hc hkind

/-- A jump for `p` is led to the act at `i` in the act_serial at `h`, whatever
the character is that is dropped. -/
def LedTo (t : Act) (a : List ℕ) (p : Text) (h : List ℕ) (i : ℕ) : Prop :=
  ∃ x, t.taker p a.reverse = some x ∧
    ((isRelativePath p = true ∧ t.Leads x p h i) ∨
      (isAbsolutePath p = true ∧ ∃ l q, p = t.fullPath x ++ l :: q ∧ t.Leads x q h i))

/-- **Where a jump leads.** -/
theorem jump_eq_select_iff (ha : (t.get a).isSome = true) :
    t.jump a p = .select h i ↔ t.LedTo a p h i := by
  rw [jump_eq ha]
  constructor
  · intro hsel
    rcases hx : t.taker p a.reverse with - | x
    · rw [hx] at hsel
      cases hsel
    rw [hx, Option.elim_some] at hsel
    obtain ⟨-, htakes⟩ := taker_some hx
    obtain ⟨c, hc, hk⟩ := composite_of_takes htakes
    refine ⟨x, hx, ?_⟩
    by_cases hp : isAbsolutePath p = true
    · obtain ⟨r, hr⟩ := prefix_of_takes htakes hp
      cases r with
      | nil =>
          rw [asked_of_self hc (by rw [← hr, List.append_nil])] at hsel
          cases hsel
      | cons l q =>
          rw [asked_of_append hc hp hr.symm, jumpInto_eq_select_iff hc hk] at hsel
          exact .inr ⟨hp, l, q, hr.symm, hsel⟩
    · have hrel := relative_of_takes htakes hp
      rw [asked_of_relative hc hrel, jumpInto_eq_select_iff hc hk] at hsel
      exact .inl ⟨hrel, hsel⟩
  · rintro ⟨x, hx, hled⟩
    obtain ⟨c, hc, hk⟩ := composite_of_takes (taker_some hx).2
    rw [hx, Option.elim_some]
    rcases hled with ⟨hrel, hleads⟩ | ⟨hp, l, q, e, hleads⟩
    · rw [asked_of_relative hc hrel, jumpInto_eq_select_iff hc hk]
      exact hleads
    · rw [asked_of_append hc hp e, jumpInto_eq_select_iff hc hk]
      exact hleads

/-! ### Trees that differ in nothing that is active -/

variable {t' d : Act} {f : Act → Act}

/-- There is an active act at the place. -/
def activeAt (t : Act) (a : List ℕ) : Bool := (t.get a).elim false active

theorem activeAt_cons : t.activeAt (i :: a) = (t.acts[i]?).elim false (activeAt · a) := by
  rw [activeAt, get]
  rcases t.acts[i]? with - | c <;> rfl

/-- The same acts are active, and every act that was there has its index. -/
def Same (t t' : Act) : Prop :=
  (∀ b, t'.activeAt b = t.activeAt b) ∧
    ∀ b c, t.get b = some c → (t'.get b).map current = some c.current

theorem same_refl (t : Act) : t.Same t :=
  ⟨fun _ => rfl, fun b c hc => by rw [hc]; rfl⟩

/-- The two trees, one act after the other: what is new is not active. -/
theorem same_iff : t.Same t' ↔ t'.active = t.active ∧ t'.current = t.current ∧
    (∀ (j : ℕ) d, t.acts[j]? = some d → ∃ d', t'.acts[j]? = some d' ∧ d.Same d') ∧
    ∀ (j : ℕ) d', t.acts[j]? = none → t'.acts[j]? = some d' → ∀ b, d'.activeAt b = false := by
  constructor
  · rintro ⟨hactive, hcurrent⟩
    refine ⟨hactive [], Option.some.inj (hcurrent [] t rfl), ?_, ?_⟩
    · intro j d hd
      have hmap := hcurrent [j] d (by rw [get, hd]; rfl)
      rw [get] at hmap
      rcases hd' : t'.acts[j]? with - | d'
      · rw [hd'] at hmap
        cases hmap
      refine ⟨d', rfl, fun b => ?_, fun b c hc => ?_⟩
      · have := hactive (j :: b)
        rwa [activeAt_cons, activeAt_cons, hd, hd'] at this
      · have := hcurrent (j :: b) c (by rw [get, hd]; exact hc)
        rwa [get, hd'] at this
    · intro j d' hnone hd' b
      have := hactive (j :: b)
      rwa [activeAt_cons, activeAt_cons, hnone, hd'] at this
  · rintro ⟨hactive, hcurrent, hacts, hnew⟩
    refine ⟨fun b => ?_, fun b c hc => ?_⟩
    · cases b with
      | nil => exact hactive
      | cons j b =>
          rw [activeAt_cons, activeAt_cons]
          rcases hd : t.acts[j]? with - | d
          · rcases hd' : t'.acts[j]? with - | d'
            · rfl
            · exact hnew j d' hd hd' b
          · obtain ⟨d', hd', hsame⟩ := hacts j d hd
            rw [hd']
            exact hsame.1 b
    · cases b with
      | nil =>
          obtain rfl := Option.some.inj hc
          exact congrArg some hcurrent
      | cons j b =>
          obtain ⟨d, hd, hc⟩ := Option.bind_eq_some_iff.mp hc
          obtain ⟨d', hd', hsame⟩ := hacts j d hd
          rw [get, hd']
          exact hsame.2 b c hc

theorem same_modify_acts_iff (hd : t.acts[i]? = some d) :
    t.Same (t.withActs (t.acts.modify i f)) ↔ d.Same (f d) := by
  have hacts : ∀ j, (t.withActs (t.acts.modify i f)).acts[j]?
      = (t.acts[j]?).map fun c => if i = j then f c else c := by
    intro j
    show (t.acts.modify i f)[j]? = _
    rw [List.getElem?_modify]
    rfl
  rw [same_iff]
  constructor
  · rintro ⟨-, -, hsame, -⟩
    obtain ⟨d', hd', hsame⟩ := hsame i d hd
    rw [hacts, hd, Option.map_some, if_pos rfl] at hd'
    obtain rfl := Option.some.inj hd'
    exact hsame
  · intro hsame
    refine ⟨rfl, rfl, fun j c hc => ?_, fun j c hnone hc => ?_⟩
    · refine ⟨if i = j then f c else c, by rw [hacts, hc, Option.map_some], ?_⟩
      by_cases hij : i = j
      · subst hij
        obtain rfl := Option.some.inj (hd.symm.trans hc)
        rwa [if_pos rfl]
      · rw [if_neg hij]
        exact same_refl c
    · rw [hacts, hnone] at hc
      cases hc

/-- A change at one place is seen in the act at this place. -/
theorem same_modify_iff (hc : t.get h = some c) : t.Same (t.modify f h) ↔ c.Same (f c) := by
  induction h generalizing t with
  | nil =>
      obtain rfl := Option.some.inj hc
      rfl
  | cons i h ih =>
      obtain ⟨d, hd, hc⟩ := Option.bind_eq_some_iff.mp hc
      exact (same_modify_acts_iff hd).trans (ih hc)

/-! ### Entering an act again -/

/-- An act that is as it was when it is left and entered again: no act that
it loads then is activated. -/
inductive Resumes : Act → Prop
  | leaf {n : Text} {fl : List Spec} {cur : ℕ} {as : List Act} : Resumes (mk .leaf n fl true cur as)
  | serial {n : Text} {fl : List Spec} {cur : ℕ} {as : List Act} {d : Act} :
      as[cur]? = some d → Resumes d → Resumes (mk .serial n fl true cur as)
  | parallel {n : Text} {cur : ℕ} {as : List Act} :
      (∀ d ∈ as, Resumes d) → Resumes (mk .parallel n [] true cur as)

theorem activeAt_create (s : Spec) (b : List ℕ) : s.create.activeAt b = false := by
  rw [activeAt]
  rcases hc : s.create.get b with - | c
  · rfl
  · rw [Option.elim_some, conf_create s b c hc, Bool.false_and]

theorem active_launch (s : Spec) : s.launch.active = true := by
  obtain ⟨k, n, fl⟩ := s
  rw [launch_mk]
  rfl

/-- The acts of a composite act that was left and is entered again. -/
theorem getElem?_reentered (k : ActKind) (cur : ℕ) (as : List Act) (fl : List Spec) (j : ℕ) :
    (activateActs k cur 0 (deactivateActs k cur 0 as) ++
        launchActs k cur (deactivateActs k cur 0 as).length fl)[j]? =
      if j < as.length then
        (as[j]?).map fun d => if k.selects cur j then d.deactivate.activate else d
      else (fl[j - as.length]?).map fun s => if k.selects cur j then s.launch else s.create := by
  rw [List.getElem?_append, length_activateActs, length_deactivateActs]
  split
  · rw [getElem?_activateActs, getElem?_deactivateActs, Option.map_map, Nat.zero_add]
    congr 1
    funext d
    rcases k.selects cur j with - | - <;> simp
  · next hle =>
      rw [getElem?_launchActs, Nat.add_sub_cancel' (Nat.not_lt.mp hle)]

/-! ### Harmless strings -/

/-- What such an act is like: the acts that are selected are as they were, and
none of those that are loaded is selected. -/
theorem same_reentered_composite_iff {k : ActKind} {n : Text} {fl : List Spec} {cur : ℕ}
    {as : List Act} :
    (mk k n fl true cur as).Same (mk k n fl true cur
      (activateActs k cur 0 (deactivateActs k cur 0 as) ++
        launchActs k cur (deactivateActs k cur 0 as).length fl)) ↔
      (∀ (j : ℕ) d, as[j]? = some d → k.selects cur j = true → d.Same d.deactivate.activate) ∧
        ∀ (j : ℕ) s, fl[j]? = some s → k.selects cur (as.length + j) = false := by
  rw [same_iff]
  constructor
  · rintro ⟨-, -, hold, hnew⟩
    refine ⟨fun j d hd hsel => ?_, fun j s hs => ?_⟩
    · obtain ⟨d', hd', hsame⟩ := hold j d hd
      rw [acts, getElem?_reentered, if_pos (List.getElem?_eq_some_iff.mp hd).1, hd,
        Option.map_some, if_pos hsel] at hd'
      obtain rfl := Option.some.inj hd'
      exact hsame
    · by_contra hsel
      rw [Bool.not_eq_false] at hsel
      have hidle := hnew (as.length + j) s.launch (List.getElem?_eq_none (Nat.le_add_right _ _))
        (by rw [acts, getElem?_reentered, if_neg (by omega), Nat.add_sub_cancel_left, hs,
          Option.map_some, if_pos hsel]) []
      rw [activeAt, get, Option.elim_some, active_launch] at hidle
      cases hidle
  · rintro ⟨hold, hnew⟩
    refine ⟨rfl, rfl, fun j d hd => ?_, fun j d' hnone hd' => ?_⟩
    · change as[j]? = some d at hd
      refine ⟨if k.selects cur j then d.deactivate.activate else d, ?_, ?_⟩
      · rw [acts, getElem?_reentered, if_pos (List.getElem?_eq_some_iff.mp hd).1, hd,
          Option.map_some]
      · split
        · next hsel => exact hold j d hd hsel
        · exact same_refl d
    · have hle : as.length ≤ j := List.getElem?_eq_none_iff.mp hnone
      rw [acts, getElem?_reentered, if_neg (Nat.not_lt.mpr hle), Option.map_eq_some_iff] at hd'
      obtain ⟨s, hs, rfl⟩ := hd'
      have hsel := hnew _ s hs
      rw [Nat.add_sub_cancel' hle] at hsel
      rw [hsel, if_neg Bool.false_ne_true]
      exact activeAt_create s

/-- **Entering an act again that was left.** -/
theorem same_reentered_iff (hsafe : d.deactivate.startable = true) :
    d.Same d.deactivate.activate ↔ d.Resumes := by
  induction d using Act.induct with
  | h k n fl b cur as ih =>
      rcases b with - | -
      · -- an act that was not active is now
        constructor
        · intro hsame
          have := hsame.1 []
          rw [activeAt, get, Option.elim_some, active_activate] at this
          cases this
        · intro hres
          cases hres
      rw [deactivate_mk] at hsafe ⊢
      rw [activate_mk]
      by_cases hk : k = .leaf
      · subst hk
        have has : deactivateActs .leaf cur 0 as = as := by
          refine List.ext_getElem? fun j => ?_
          rw [getElem?_deactivateActs]
          simp [ActKind.selects]
        rw [if_pos rfl, has]
        exact iff_of_true (same_refl _) .leaf
      rw [if_neg hk, same_reentered_composite_iff]
      obtain ⟨hstart, -, hlt⟩ := startable_composite hk hsafe
      have hsafe_of : ∀ (j : ℕ) d, as[j]? = some d → k.selects cur j = true →
          d.deactivate.startable = true := by
        intro j d hd hsel
        refine startable_of_mem hstart (j := j) ?_ (by rwa [Nat.zero_add])
        rw [getElem?_deactivateActs, hd, Nat.zero_add, Option.map_some, if_pos hsel]
      have hacts : ∀ (j : ℕ) d, as[j]? = some d → k.selects cur j = true →
          (d.Same d.deactivate.activate ↔ d.Resumes) :=
        fun j d hd hsel => ih d (List.mem_of_getElem? hd) (hsafe_of j d hd hsel)
      rcases k with - | - | -
      · exact absurd rfl hk
      · have hcur : ActKind.serial.selects cur cur = true := beq_self_eq_true cur
        constructor
        · rintro ⟨hold, hnew⟩
          rcases hd : as[cur]? with - | d
          · -- the index is that of an act that is loaded now
            have hle := List.getElem?_eq_none_iff.mp hd
            have hlt := hlt rfl
            rw [length_deactivateActs] at hlt
            have hsel := hnew (cur - as.length) _ (List.getElem?_eq_getElem (by omega))
            rw [Nat.add_sub_cancel' hle, hcur] at hsel
            cases hsel
          · exact .serial hd ((hacts cur d hd hcur).mp (hold cur d hd hcur))
        · intro hres
          cases hres with
          | serial hd hres =>
              refine ⟨fun j d' hd' hsel => ?_, fun j s hs => ?_⟩
              · obtain rfl : j = cur := beq_iff_eq.mp hsel
                obtain rfl := Option.some.inj (hd.symm.trans hd')
                exact (hacts j _ hd hcur).mpr hres
              · have := (List.getElem?_eq_some_iff.mp hd).1
                exact beq_eq_false_iff_ne.mpr (by omega)
      · constructor
        · rintro ⟨hold, hnew⟩
          cases fl with
          | nil =>
              refine .parallel fun d hd => ?_
              obtain ⟨j, hd⟩ := List.getElem?_of_mem hd
              exact (hacts j d hd rfl).mp (hold j d hd rfl)
          | cons s ss => exact absurd (hnew 0 s rfl) Bool.true_eq_false.mp
        · intro hres
          cases hres with
          | parallel hres =>
              refine ⟨fun j d hd hsel => ?_, fun j s hs => ?_⟩
              · exact (hacts j d hd hsel).mpr (hres d (List.mem_of_getElem? hd))
              · cases hs

/-- Entering the current act again is a change at this act. -/
theorem enter_current (t : Act) : t.leaveCurrent.enter t.current =
    t.withActs (t.acts.modify t.current fun d => d.deactivate.activate) := by
  show mk _ _ _ _ _ ((t.acts.modify t.current deactivate).modify t.current activate) = _
  rw [List.modify_modify_eq]
  rfl

/-- **Leaving the current act and entering another**, or the same. -/
theorem same_enter_iff (hsafe : t.entersSafely i = true) :
    t.Same (t.leaveCurrent.enter i) ↔
      t.current = i ∧ ∃ d, t.acts[i]? = some d ∧ d.Resumes := by
  rw [entersSafely, Bool.and_eq_true, decide_eq_true_eq] at hsafe
  obtain ⟨hlt, hsafe⟩ := hsafe
  by_cases hi : t.current = i
  · subst hi
    have hd := List.getElem?_eq_getElem hlt
    rw [getElem?_leaveCurrent hd, Option.elim_some] at hsafe
    rw [enter_current, same_modify_acts_iff hd, same_reentered_iff hsafe, hd]
    simp
  · refine iff_of_false (fun hsame => ?_) (fun h => hi h.1)
    exact hi (Option.some.inj (hsame.2 [] t rfl)).symm

/-! ### Harmless strings -/

/-- The act at `i` in the act_serial at `h` is where `p` leads by the rules: a
relative path from the closest composite act, an absolute one from a composite
act above whose full path is followed by a delimiter. -/
def Names (t : Act) (a : List ℕ) (p : Text) (h : List ℕ) (i : ℕ) : Prop :=
  (isRelativePath p = true ∧ ∃ g, t.taker p a.reverse = some g ∧ t.Leads g p h i) ∨
  ∃ g q, g <+: a ∧ p = t.fullPath g ++ '/' :: q ∧ t.Leads g q h i

/-- The path names no act, but the act that takes the jump drops a character
that is no delimiter, and what is left leads to the act at `i` in the
act_serial at `h`. -/
def Strays (t : Act) (a : List ℕ) (p : Text) (h : List ℕ) (i : ℕ) : Prop :=
  isAbsolutePath p = true ∧ (∀ h i, ¬ t.Names a p h i) ∧
    ∃ x l q, t.taker p a.reverse = some x ∧ l ≠ '/' ∧ p = t.fullPath x ++ l :: q ∧
      t.Leads x q h i

/-- A jump for a path that names no act leads somewhere only if it strays. -/
theorem strays_iff (hno : ∀ h i, ¬ t.Names a p h i) : t.LedTo a p h i ↔ t.Strays a p h i := by
  constructor
  · rintro ⟨x, hx, ⟨hrel, hleads⟩ | ⟨hp, l, q, e, hleads⟩⟩
    · exact absurd (.inl ⟨hrel, x, hx, hleads⟩) (hno h i)
    · refine ⟨hp, hno, x, l, q, hx, ?_, e, hleads⟩
      rintro rfl
      have hpre := (taker_some hx).1
      rw [List.reverse_reverse] at hpre
      exact hno h i (.inr ⟨x, q, hpre, e, hleads⟩)
  · rintro ⟨hp, -, x, l, q, hx, -, e, hleads⟩
    exact ⟨x, hx, .inr ⟨hp, l, q, e, hleads⟩⟩

/-- The bot after the act at `a` has jumped. -/
def afterJump (t : Act) (a : List ℕ) (p : Text) : Bot := ({ root := t } : Bot).handle (t.jump a p)

/-- `find` and `jump` raise no exception, the jump reads no act that is not
there, and if the path names no act then the jump leaves the active acts and
the indexes as they are. -/
def Harmless (t : Act) (a : List ℕ) (p : Text) : Prop :=
  t.find a p ≠ .threw ∧ t.jump a p ≠ .threw ∧ (t.afterJump a p).fault = false ∧
    ((∀ h i, ¬ t.Names a p h i) → t.Same (t.afterJump a p).root)

/-- What a jump that is led to an act comes to. -/
theorem afterJump_of_ledTo (ha : (t.get a).isSome = true) (hled : t.LedTo a p h i)
    (hc : t.get h = some c) : t.afterJump a p =
      if c.entersSafely i then { root := t.modify (fun c => c.leaveCurrent.enter i) h }
      else { root := t, fault := true } := by
  rw [afterJump, (jump_eq_select_iff ha).mpr hled, Bot.handle, Bot.change, hc]

/-- A jump that raises no exception is led to an act of an act_serial, or
comes to nothing. -/
theorem ledTo_or_ignored (ha : (t.get a).isSome = true) (hthrew : t.jump a p ≠ .threw) :
    (∃ h i c, t.LedTo a p h i ∧ t.get h = some c) ∨
      (t.jump a p = .ignored ∧ ∀ h i, ¬ t.LedTo a p h i) := by
  have hjumped := jumped_jump t a p
  generalize he : t.jump a p = e at hjumped hthrew
  cases hjumped with
  | ignored =>
      refine .inr ⟨rfl, fun h i hled => ?_⟩
      have := (jump_eq_select_iff ha).mpr hled
      rw [he] at this
      cases this
  | threw => exact absurd rfl hthrew
  | @select h i hk =>
      obtain ⟨c, hc, -⟩ := Option.map_eq_some_iff.mp hk
      exact .inl ⟨h, i, c, (jump_eq_select_iff ha).mp he, hc⟩

/-- There is one act only to which a jump is led. -/
theorem forall_ledTo_iff {Q : List ℕ → ℕ → Act → Prop} (ha : (t.get a).isSome = true)
    (hled : t.LedTo a p h i) (hc : t.get h = some c) :
    (∀ h i c, t.LedTo a p h i → t.get h = some c → Q h i c) ↔ Q h i c := by
  refine ⟨fun hall => hall h i c hled hc, fun hQ h' i' c' hled' hc' => ?_⟩
  rw [← jump_eq_select_iff ha] at hled hled'
  obtain ⟨rfl, rfl⟩ := Effect.select.inj (hled.symm.trans hled')
  obtain rfl := Option.some.inj (hc.symm.trans hc')
  exact hQ

/-- **Which strings are harmless**, in every tree, for every act and every
string: neither `find` nor `jump` throws, the jump is led to no act that
cannot be entered, and if it strays then to a current act that resumes. -/
theorem harmless_iff (ha : (t.get a).isSome = true) :
    t.Harmless a p ↔ ¬ t.FindThrows a p ∧ ¬ t.JumpThrows a p ∧
      (∀ h i c, t.LedTo a p h i → t.get h = some c → c.entersSafely i = true) ∧
      ∀ h i c, t.Strays a p h i → t.get h = some c →
        c.current = i ∧ ∃ d, c.acts[i]? = some d ∧ d.Resumes := by
  rw [Harmless, ne_eq, ne_eq, find_eq_threw_iff ha, jump_eq_threw_iff ha]
  refine and_congr_right fun _ => and_congr_right fun hthrows => ?_
  rcases ledTo_or_ignored ha (mt (jump_eq_threw_iff ha).mp hthrows) with
    ⟨h, i, c, hled, hc⟩ | ⟨hignored, hno⟩
  · have hafter := afterJump_of_ledTo ha hled hc
    have hfault : (t.afterJump a p).fault = false ↔ c.entersSafely i = true := by
      rw [hafter]
      rcases c.entersSafely i with - | - <;> simp
    rw [hfault, forall_ledTo_iff ha hled hc]
    refine and_congr_right fun hsafe => ?_
    rw [hafter, if_pos hsafe, same_modify_iff hc, same_enter_iff hsafe]
    constructor
    · intro hsame h' i' c' hstrays
      have hall : ∀ h i c, t.LedTo a p h i → t.get h = some c →
          c.current = i ∧ ∃ d, c.acts[i]? = some d ∧ d.Resumes :=
        (forall_ledTo_iff ha hled hc).mpr (hsame hstrays.2.1)
      exact hall h' i' c' ((strays_iff hstrays.2.1).mpr hstrays)
    · intro hsame hnames
      exact hsame h i c ((strays_iff hnames).mp hled) hc
  · have hafter : t.afterJump a p = { root := t } := by rw [afterJump, hignored, Bot.handle]
    rw [hafter]
    refine iff_of_true ⟨rfl, fun _ => same_refl t⟩ ⟨fun h i c hled => absurd hled (hno h i), ?_⟩
    intro h i c hstrays
    exact absurd ((strays_iff hstrays.2.1).mpr hstrays) (hno h i)

/-- A flow with an act_serial that has one leaf. -/
def oneInside : Spec :=
  .mk .serial ['f', 'l', 'o', 'w'] [.mk .serial ['s'] [.mk .leaf ['a'] []]]

/-- The leaf jumps for an act that is not there. -/
theorem harmless_unknown : oneInside.launch.active = true ∧
    oneInside.launch.Harmless [0, 0] ['/', 'f', 'l', 'o', 'w', '/', 'x'] := by
  have ha : (oneInside.launch.get [0, 0]).isSome = true := by decide +kernel
  have hjump : oneInside.launch.jump [0, 0] ['/', 'f', 'l', 'o', 'w', '/', 'x'] = .ignored := by
    decide +kernel
  have hled : ∀ h i, ¬ oneInside.launch.LedTo [0, 0] ['/', 'f', 'l', 'o', 'w', '/', 'x'] h i := by
    intro h i hled
    have := (jump_eq_select_iff ha).mpr hled
    rw [hjump] at this
    cases this
  refine ⟨rfl, (harmless_iff ha).mpr ⟨fun h => ?_, fun h => ?_, fun h i c hto => ?_, ?_⟩⟩
  · exact absurd h.find_eq (by decide +kernel)
  · have := (jump_eq_threw_iff ha).mpr h
    rw [hjump] at this
    cases this
  · exact absurd hto (hled h i)
  · intro h i c hstrays
    exact absurd ((strays_iff hstrays.2.1).mpr hstrays) (hled h i)

/-- The leaf jumps for the path of the act_serial that it is in; the flow is
searched for a path that ends with two delimiters. -/
theorem ownPath_throws : oneInside.launch.active = true ∧
    oneInside.launch.jump [0, 0] ['/', 'f', 'l', 'o', 'w', '/', 's'] = .threw ∧
    oneInside.launch.find [] ['/', 'f', 'l', 'o', 'w', '/', '/'] = .threw ∧
    ¬ oneInside.launch.Harmless [0, 0] ['/', 'f', 'l', 'o', 'w', '/', 's'] := by
  have hjump : oneInside.launch.jump [0, 0] ['/', 'f', 'l', 'o', 'w', '/', 's'] = .threw := by
    decide +kernel
  exact ⟨rfl, hjump, by decide +kernel, fun h => h.2.1 hjump⟩

end Act

end Play
