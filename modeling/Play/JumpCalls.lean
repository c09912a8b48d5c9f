/-
Play/JumpCalls.lean

`jump` call by call.

`act_ensure::jump`, `act_serial::jump`, `act_parallel::jump` and
`act_parallel::jump_child` call each other, up to the parent and down to a
child, and every such call is the last thing that the caller does.  `next`
says what one call makes of its path: it calls another act, or it comes to an
end, with an exception or without.

A call to the parent keeps the path and goes up.  A call of `jump_child` keeps
the act, and the path too if it is relative.  Only `jump_child` calls down, and
it has taken a name off the path by then, also when the act found is a leaf
that hands the rest straight back.  So the length of the path and the height
of the act, in this order, go down with every call (`smaller_of_next`), and
`jump_ends` says that the calls come to an end, with the effect that
`Act.jump` computes.
-/
import Mathlib.Data.Prod.Lex
import Play.Targets

namespace Play

namespace Act

open Paths

/-! ### Calls -/

/-- A running call, of the act at a place. -/
inductive JumpCall
  | jump (a : List ℕ) (path : Text)
  /-- `act_parallel::jump_child`. -/
  | jumpChild (a : List ℕ) (pa : Text)
  deriving DecidableEq

/-- How a call goes on. -/
inductive JumpNext
  | call (c : JumpCall)
  | ends (e : Effect)
  deriving DecidableEq

/-- `get_parent()->jump(path)`, if there is a parent. -/
def toParent (a : List ℕ) (path : Text) : JumpNext :=
  if a = [] then .ends .ignored else .call (.jump a.dropLast path)

/-- What one call does. -/
def jumpNext (t : Act) : JumpCall → JumpNext
  | .jump a path =>
      match (t.get a).map kind with
      | none => .ends .ignored
      | some .leaf => toParent a path
      | some .serial =>
          if path = [] then .ends .ignored
          else if isRelativePath path then .ends (t.jumpChild a path)
          else if isChildOf (t.fullPath a) path then
            match getChildPath (t.fullPath a) path with
            | none => .ends .threw
            | some q => .ends (t.jumpChild a q)
          else toParent a path
      | some .parallel =>
          if isRelativePath path then .call (.jumpChild a path)
          else if isChildOf (t.fullPath a) path then
            match getChildPath (t.fullPath a) path with
            | none => .ends .threw
            | some q => .call (.jumpChild a q)
          else toParent a path
  | .jumpChild a pa =>
      match getFirstAct pa with
      | none => .ends .threw
      | some n =>
          match (t.get a).bind (findAct · n) with
          | none => .ends .ignored
          | some i =>
              match popHeadAct pa with
              | none => .ends .threw
              | some q => .call (.jump (a ++ [i]) q)

/-- The effect of a call, if no more than `n` calls are made for it. -/
def jumpCalls (t : Act) : ℕ → JumpCall → Option Effect
  | 0, _ => none
  | n + 1, c =>
      match t.jumpNext c with
      | .call c' => t.jumpCalls n c'
      | .ends e => some e

/-! ### Every call is smaller than the one before -/

/-- The length of the path, then the height of the act; `jump_child` is below
the `jump` that calls it. -/
def JumpCall.size : JumpCall → ℕ ×ₗ ℕ
  | jump a path => toLex (path.length, 2 * a.length + 1)
  | jumpChild a pa => toLex (pa.length, 2 * a.length)

variable {t c : Act} {a b : List ℕ} {p q : Text}

theorem size_of_toParent {d : JumpCall} (h : toParent a p = .call d) :
    d.size < (JumpCall.jump a p).size := by
  unfold toParent at h
  split at h
  · cases h
  · next ha =>
      cases h
      have hpos := List.length_pos_of_ne_nil ha
      apply Prod.Lex.toLex_lt_toLex.mpr
      refine .inr ⟨rfl, ?_⟩
      simp only [List.length_dropLast]
      omega

/-- **Every call is smaller than the one it comes from.** -/
theorem smaller_of_next {d e : JumpCall} (h : t.jumpNext d = .call e) : e.size < d.size := by
  cases d with
  | jump a path =>
      dsimp only [jumpNext] at h
      split at h
      · cases h
      · exact size_of_toParent h
      · split at h
        · cases h
        split at h
        · cases h
        split at h
        · split at h <;> cases h
        · exact size_of_toParent h
      · split at h
        · cases h
          exact Prod.Lex.toLex_lt_toLex.mpr (.inr ⟨rfl, Nat.lt_succ_self _⟩)
        split at h
        · next hchild =>
            split at h
            · cases h
            · next q hq =>
                cases h
                exact Prod.Lex.toLex_lt_toLex.mpr (.inl (length_getChildPath hchild hq))
        · exact size_of_toParent h
  | jumpChild a pa =>
      dsimp only [jumpNext] at h
      split at h
      · cases h
      split at h
      · cases h
      split at h
      · cases h
      · next q hq =>
          cases h
          exact Prod.Lex.toLex_lt_toLex.mpr (.inl (length_popHeadAct hq))

/-! ### How the calls end -/

/-- The call comes to an end, with the effect `e`. -/
def JumpEnds (t : Act) (d : JumpCall) (e : Effect) : Prop := ∃ n, t.jumpCalls n d = some e

theorem JumpEnds.of_call {d d' : JumpCall} {e : Effect} (h : t.jumpNext d = .call d')
    (hends : t.JumpEnds d' e) : t.JumpEnds d e := by
  obtain ⟨n, hn⟩ := hends
  refine ⟨n + 1, ?_⟩
  rw [jumpCalls, h]
  exact hn

theorem JumpEnds.of_ends {d : JumpCall} {e : Effect} (h : t.jumpNext d = .ends e) :
    t.JumpEnds d e := by
  refine ⟨1, ?_⟩
  rw [jumpCalls, h]

/-- Calls that get smaller come to an end. -/
theorem exists_jumpEnds (t : Act) (d : JumpCall) : ∃ e, t.JumpEnds d e := by
  induction hsize : d.size using WellFoundedLT.induction generalizing d with
  | ind size ih =>
      rcases hnext : t.jumpNext d with d' | e
      · obtain ⟨e, he⟩ := ih d'.size (hsize ▸ smaller_of_next hnext) d' rfl
        exact ⟨e, he.of_call hnext⟩
      · exact ⟨e, .of_ends hnext⟩

/-! ### The effect -/

theorem toParent_cons (i : ℕ) (up : List ℕ) (p : Text) :
    toParent (i :: up).reverse p = .call (.jump up.reverse p) := by
  rw [toParent, if_neg (by simp), List.reverse_cons, List.dropLast_concat]

/-- The empty path is ignored or handed to the parent. -/
theorem jumpNext_nil (ha : (t.get a).isSome = true) :
    t.jumpNext (.jump a []) = .ends .ignored ∨ t.jumpNext (.jump a []) = toParent a [] := by
  obtain ⟨c, hc⟩ := Option.isSome_iff_exists.mp ha
  have hkind : (t.get a).map kind = some c.kind := by rw [hc]; rfl
  rcases hk : c.kind with - | - | -
  · exact .inr (by simp [jumpNext, hkind, hk])
  · exact .inl (by simp [jumpNext, hkind, hk])
  · have hchild : isChildOf (t.fullPath a) [] = false := by
      have := not_takes_nil (t := t) (h := a)
      simpa [takes, hc, hk, isRelativePath] using this
    exact .inr (by simp [jumpNext, hkind, hk, hchild, isRelativePath])

theorem jumpEnds_nil {up : List ℕ} (ha : (t.get up.reverse).isSome = true) :
    t.JumpEnds (.jump up.reverse []) .ignored := by
  induction up with
  | nil =>
      rcases jumpNext_nil ha with hnext | hnext
      · exact .of_ends hnext
      · exact .of_ends hnext
  | cons i up ih =>
      rcases jumpNext_nil ha with hnext | hnext
      · exact .of_ends hnext
      · rw [toParent_cons] at hnext
        exact (ih (get_up ha)).of_call hnext

/-- What the act found by `jump_child` makes of the rest of the path. -/
theorem jumpEnds_handOn {k i : ℕ} {d : Act} (hc : t.get b = some c) (hk : c.kind = .parallel)
    (hd : c.acts[i]? = some d) {r : Text} (hr : r = [] ∨ isRelativePath r = true)
    (hagain : ∀ b' c', t.get b' = some c' → c'.kind = .parallel →
      t.JumpEnds (.jumpChild b' r) (t.jumpBelow k b' r)) :
    t.JumpEnds (.jump (b ++ [i]) r) (t.handOn k b i r) := by
  have hget := get_child hc hd
  have hkind : (t.get (b ++ [i])).map kind = some d.kind := by rw [hget]; rfl
  rcases hr with rfl | hrel
  · rw [handOn, if_pos rfl]
    have hsome : (t.get (b ++ [i]).reverse.reverse).isSome = true := by
      rw [List.reverse_reverse, hget]
      rfl
    simpa using jumpEnds_nil hsome
  have hne : r ≠ [] := by
    rintro rfl
    cases hrel
  rw [handOn, if_neg hne, hkind]
  rcases hkd : d.kind with - | - | -
  · -- a leaf hands the path back, and the act_parallel takes it again
    have hleaf : t.jumpNext (.jump (b ++ [i]) r) = .call (.jump b r) := by
      simp [jumpNext, hkind, hkd, toParent]
    have hback : t.jumpNext (.jump b r) = .call (.jumpChild b r) := by
      simp [jumpNext, hc, hk, hrel]
    exact ((hagain b c hc hk).of_call hback).of_call hleaf
  · apply JumpEnds.of_ends
    simp [jumpNext, hkind, hkd, hne, hrel]
  · apply (hagain (b ++ [i]) d hget hkd).of_call
    simp [jumpNext, hkind, hkd, hrel]

/-- `act_parallel::jump_child` ends after as many rounds as there are names. -/
theorem jumpEnds_jumpChild {k : ℕ} (hlen : q.length < k) (hc : t.get b = some c)
    (hk : c.kind = .parallel) : t.JumpEnds (.jumpChild b q) (t.jumpBelow k b q) := by
  induction k generalizing b c q with
  | zero => omega
  | succ k ih =>
      rcases hn : getFirstAct q with - | n
      · apply JumpEnds.of_ends
        simp [jumpNext, jumpBelow, hn]
      rcases hi : c.findAct n with - | i
      · apply JumpEnds.of_ends
        simp [jumpNext, jumpBelow, hn, hc, hi]
      rcases hr : popHeadAct q with - | r
      · apply JumpEnds.of_ends
        simp [jumpNext, jumpBelow, hn, hc, hi, hr]
      obtain ⟨d, hd, -⟩ := findAct_getElem? hi
      have hshort := length_popHeadAct hr
      rw [jumpBelow_succ k b hc hn hr, hi, Option.elim_some]
      have hnext : t.jumpNext (.jumpChild b q) = .call (.jump (b ++ [i]) r) := by
        simp [jumpNext, hn, hc, hi, hr]
      refine JumpEnds.of_call hnext
        (jumpEnds_handOn hc hk hd (relative_of_popHeadAct hr) fun b' c' hc' hk' => ?_)
      exact ih (by omega) hc' hk'

/-- An act that does not take the jump hands it to its parent. -/
theorem jumpNext_of_not_takes (hc : t.get a = some c) (hp : p ≠ [])
    (hno : t.takes p a = false) : t.jumpNext (.jump a p) = toParent a p := by
  have hkind : (t.get a).map kind = some c.kind := by rw [hc]; rfl
  rcases hk : c.kind with - | - | -
  · simp [jumpNext, hkind, hk]
  · obtain ⟨hrel, hchild⟩ : isRelativePath p = false ∧ isChildOf (t.fullPath a) p = false := by
      simpa [takes, hc, hk] using hno
    simp [jumpNext, hkind, hk, hp, hrel, hchild]
  · obtain ⟨hrel, hchild⟩ : isRelativePath p = false ∧ isChildOf (t.fullPath a) p = false := by
      simpa [takes, hc, hk] using hno
    simp [jumpNext, hkind, hk, hrel, hchild]

/-- An act_serial selects at once, an act_parallel calls `jump_child`. -/
theorem jumpEnds_into {d : JumpCall} (hc : t.get a = some c) (hk : c.kind ≠ .leaf)
    (hserial : c.kind = .serial → t.jumpNext d = .ends (t.jumpChild a q))
    (hparallel : c.kind = .parallel → t.jumpNext d = .call (.jumpChild a q)) :
    t.JumpEnds d (t.jumpInto a c.kind q) := by
  rcases hkind : c.kind with - | - | -
  · exact absurd hkind hk
  · exact .of_ends (hserial hkind)
  · exact (jumpEnds_jumpChild (Nat.lt_succ_self _) hc hkind).of_call (hparallel hkind)

/-- What the taker of a jump makes of it. -/
theorem jumpEnds_of_takes (htakes : t.takes p a = true) : t.JumpEnds (.jump a p) (t.asked a p) := by
  obtain ⟨c, hc, hk⟩ := composite_of_takes htakes
  have hkind : (t.get a).map kind = some c.kind := by rw [hc]; rfl
  have hp : p ≠ [] := by
    rintro rfl
    rw [not_takes_nil] at htakes
    cases htakes
  rw [asked, hc, Option.elim_some]
  by_cases hrel : isRelativePath p = true
  · rw [if_pos hrel]
    exact jumpEnds_into hc hk (fun hs => by simp [jumpNext, hkind, hs, hp, hrel])
      fun hs => by simp [jumpNext, hkind, hs, hrel]
  · have hchild : isChildOf (t.fullPath a) p = true := by
      simpa [takes, hc, hk, hrel] using htakes
    rw [if_neg hrel]
    rcases hq : getChildPath (t.fullPath a) p with - | q
    · apply JumpEnds.of_ends
      rcases hs : c.kind with - | - | -
      · exact absurd hs hk
      · simp [jumpNext, hkind, hs, hp, hrel, hchild, hq]
      · simp [jumpNext, hkind, hs, hrel, hchild, hq]
    · exact jumpEnds_into hc hk (fun hs => by simp [jumpNext, hkind, hs, hp, hrel, hchild, hq])
        fun hs => by simp [jumpNext, hkind, hs, hrel, hchild, hq]

/-- A jump climbs to its taker. -/
theorem jumpEnds_taker (hp : p ≠ []) {up : List ℕ} (ha : (t.get up.reverse).isSome = true) :
    t.JumpEnds (.jump up.reverse p) ((t.taker p up).elim .ignored (t.asked · p)) := by
  induction up with
  | nil =>
      rw [taker]
      split
      · next htakes => exact jumpEnds_of_takes htakes
      · next hno =>
          exact .of_ends (jumpNext_of_not_takes (a := []) rfl hp (by simpa using hno))
  | cons i up ih =>
      rw [taker]
      split
      · next htakes => exact jumpEnds_of_takes htakes
      · next hno =>
          obtain ⟨c, hc⟩ := Option.isSome_iff_exists.mp ha
          have hnext := jumpNext_of_not_takes hc hp (by simpa using hno)
          rw [toParent_cons] at hnext
          exact (ih (get_up ha)).of_call hnext

/-- **`jump` terminates**: in every tree, from every act and for every string,
the calls come to an end, in the effect that `Act.jump` computes, which may be
an exception; and so does every call that can be made on the way. -/
theorem jump_ends (ha : (t.get a).isSome = true) (p : Text) :
    (∃ n, t.jumpCalls n (.jump a p) = some (t.jump a p)) ∧
      ∀ d : JumpCall, ∃ n e, t.jumpCalls n d = some e := by
  constructor
  · have ha' : (t.get a.reverse.reverse).isSome = true := by rwa [List.reverse_reverse]
    rw [jump_eq ha]
    by_cases hp : p = []
    · have hends := jumpEnds_nil ha'
      rw [List.reverse_reverse] at hends
      rwa [hp, taker_nil]
    · have hends := jumpEnds_taker hp ha'
      rwa [List.reverse_reverse] at hends
  · intro d
    obtain ⟨e, n, hn⟩ := exists_jumpEnds t d
    exact ⟨n, e, hn⟩

/-- An act_parallel with one leaf. -/
def leafBeside : Act := .mk .parallel ['p'] [] true 0 [.mk .leaf ['a'] [] true 0 []]

/-- The leaf hands "a/b" back to the act_parallel above it, which has no act
of the name "b". -/
theorem jump_ends_leaf :
    ∃ n, leafBeside.jumpCalls n (.jump [0] ['a', '/', 'a', '/', 'b']) = some .ignored :=
  (jump_ends (t := leafBeside) (a := [0]) rfl ['a', '/', 'a', '/', 'b']).1

end Act

end Play
