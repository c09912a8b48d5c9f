/-
Play/Pieces.lean

Cutting a list at the occurrences of a delimiter.

`Cuts d s ps` says what the pieces of `s` between the occurrences of `d` are:
the leftmost occurrence ends the first piece, and what stands behind it is cut
in the same way.  Occurrences do not overlap, and pieces may be empty.
`pieces` computes them by one scan, and `cuts_iff` says that it does.

The scan itself, `cut`, takes any test for "a delimiter begins here" and any
width of the delimiter, so that a program with another test can be compared
with `pieces` place by place.
-/
import Mathlib.Data.List.Infix
import Mathlib.Data.Nat.Find
import Mathlib.Tactic.Common

namespace Play

namespace Pieces

variable {α : Type*} {d s t p part : List α} {ps : List (List α)}

/-! ### What the pieces are -/

/-- No occurrence of `d` in `s` begins in the first `n` places. -/
def Free (d : List α) (n : ℕ) (s : List α) : Prop := ∀ i < n, ¬ d <+: s.drop i

/-- `ps` are the pieces of a list between the occurrences of `d`. -/
inductive Cuts (d : List α) : List α → List (List α) → Prop
  | last {s : List α} (h : Free d s.length s) : Cuts d s [s]
  | next {p t : List α} {ps : List (List α)} (h : Free d p.length (p ++ (d ++ t)))
      (hrest : Cuts d t ps) : Cuts d (p ++ (d ++ t)) (p :: ps)

theorem Cuts.ne_nil (h : Cuts d s ps) : ps ≠ [] := by
  cases h with
  | last => exact List.cons_ne_nil _ _
  | next => exact List.cons_ne_nil _ _

/-- Nothing is lost: the pieces joined by the delimiter are the list. -/
theorem Cuts.intercalate_eq (h : Cuts d s ps) : d.intercalate ps = s := by
  induction h with
  | last => simp
  | next _ hrest ih =>
      obtain ⟨q, qs, rfl⟩ := List.exists_cons_of_ne_nil hrest.ne_nil
      rw [List.intercalate_cons_cons, ih, List.append_assoc]

/-- A piece without any element of the delimiter holds no beginning of it. -/
theorem free_of_forall_not_mem (hd : d ≠ []) (hp : ∀ c ∈ p, c ∉ d) (t : List α) :
    Free d p.length (p ++ t) := by
  intro i hi hpre
  obtain ⟨c, d', rfl⟩ := List.exists_cons_of_ne_nil hd
  rw [List.drop_append_of_le_length (le_of_lt hi), List.drop_eq_getElem_cons hi,
    List.cons_append, List.cons_prefix_cons] at hpre
  apply hp p[i] (List.getElem_mem hi)
  rw [← hpre.1]
  exact List.mem_cons_self

/-- Words without any element of the delimiter, joined by it, are the pieces. -/
theorem cuts_intercalate (hd : d ≠ []) (hne : ps ≠ []) (hps : ∀ p ∈ ps, ∀ c ∈ p, c ∉ d) :
    Cuts d (d.intercalate ps) ps := by
  induction ps with
  | nil => exact absurd rfl hne
  | cons p ps ih =>
      obtain ⟨hp, hrest⟩ := List.forall_mem_cons.mp hps
      rcases ps with - | ⟨q, qs⟩
      · have hfree := free_of_forall_not_mem hd hp []
        rw [List.append_nil] at hfree
        simpa using Cuts.last hfree
      · rw [List.intercalate_cons_cons, List.append_assoc]
        exact .next (free_of_forall_not_mem hd hp _) (ih (List.cons_ne_nil q qs) hrest)

/-! ### The scan -/

/-- One scan over a list.  `stop t` says that a delimiter begins where `t` is
left to read; it has `k` elements after its first.  `part` is the piece read
so far, and the next `skip` elements belong to a delimiter. -/
def cut (stop : List α → Bool) (k : ℕ) : ℕ → List α → List α → List (List α)
  | _, part, [] => [part]
  | skip + 1, part, _ :: s => cut stop k skip part s
  | 0, part, c :: s =>
      if stop (c :: s) then part :: cut stop k k [] s else cut stop k 0 (part ++ [c]) s

variable {stop : List α → Bool} {k : ℕ}

theorem cut_skip (skip : ℕ) (part s : List α) :
    cut stop k skip part s = cut stop k 0 part (s.drop skip) := by
  induction s generalizing skip with
  | nil => simp [cut]
  | cons c s ih =>
      rcases skip with - | skip
      · rfl
      · rw [cut, ih, List.drop_succ_cons]

/-- Where a delimiter begins, the piece ends. -/
theorem cut_of_stop (hs : s ≠ []) (h : stop s = true) (part : List α) :
    cut stop k 0 part s = part :: cut stop k 0 [] (s.drop (k + 1)) := by
  obtain ⟨c, s, rfl⟩ := List.exists_cons_of_ne_nil hs
  rw [cut, if_pos h, cut_skip, List.drop_succ_cons]

/-- Where no delimiter begins, the piece goes on. -/
theorem cut_append (h : ∀ i < p.length, stop ((p ++ s).drop i) = false) (part : List α) :
    cut stop k 0 part (p ++ s) = cut stop k 0 (part ++ p) s := by
  induction p generalizing part with
  | nil => simp
  | cons c p ih =>
      have h₀ : stop (c :: (p ++ s)) = false := h 0 (by simp)
      have hrest : ∀ i < p.length, stop ((p ++ s).drop i) = false :=
        fun i hi => h (i + 1) (by simp [hi])
      rw [List.cons_append, cut, if_neg (by simp [h₀]), ih hrest]
      simp

/-- Only elements at which no delimiter begins get into a piece. -/
theorem forall_mem_cut {P : α → Prop} (hP : ∀ c s, stop (c :: s) = false → P c) (skip : ℕ)
    (hpart : ∀ c ∈ part, P c) : ∀ p ∈ cut stop k skip part s, ∀ c ∈ p, P c := by
  induction s generalizing skip part with
  | nil => simpa [cut] using hpart
  | cons c s ih =>
      rcases skip with - | skip
      · rw [cut]
        split
        · exact List.forall_mem_cons.mpr ⟨hpart, ih k (by simp)⟩
        · next hstop =>
            refine ih 0 fun b hb => ?_
            rcases List.mem_append.mp hb with hb | hb
            · exact hpart b hb
            · rw [List.mem_singleton.mp hb]
              exact hP c s (by simpa using hstop)
      · exact ih skip hpart

/-! ### Computing the pieces -/

variable [DecidableEq α]

/-- An occurrence of `d` is next. -/
def begins (d t : List α) : Bool := decide (d <+: t)

/-- The pieces of `s` between the occurrences of `d`. -/
def pieces (d s : List α) : List (List α) := cut (begins d) (d.length - 1) 0 [] s

theorem Free.begins_eq_false {n : ℕ} (h : Free d n s) : ∀ i < n, begins d (s.drop i) = false :=
  fun i hi => decide_eq_false (h i hi)

theorem Cuts.eq_pieces (hd : d ≠ []) (h : Cuts d s ps) : ps = pieces d s := by
  induction h with
  | @last s hfree =>
      rw [← List.append_nil s] at hfree
      have hscan := cut_append (p := s) (s := []) (k := d.length - 1)
        (fun i hi => hfree.begins_eq_false i (by simpa using hi)) []
      simpa [pieces, cut] using hscan.symm
  | @next p t ps hfree hrest ih =>
      have hwidth : d.length - 1 + 1 = d.length :=
        Nat.sub_add_cancel (List.length_pos_iff.mpr hd)
      have hbegins : begins d (d ++ t) = true := decide_eq_true (List.prefix_append d t)
      rw [pieces, cut_append hfree.begins_eq_false, cut_of_stop (by simp [hd]) hbegins, hwidth,
        List.drop_left, List.nil_append, ih]
      rfl

/-- Every list has pieces. -/
theorem exists_cuts (hd : d ≠ []) (s : List α) : ∃ ps, Cuts d s ps := by
  -- by the length: what stands behind the leftmost occurrence is shorter
  induction hn : s.length using Nat.strong_induction_on generalizing s with
  | _ n ih =>
      by_cases hfree : Free d s.length s
      · exact ⟨[s], .last hfree⟩
      · have hocc : ∃ i, i < s.length ∧ d <+: s.drop i := by simpa [Free] using hfree
        obtain ⟨hi, t, ht⟩ := Nat.find_spec hocc
        set i := Nat.find hocc
        have hs : s.take i ++ (d ++ t) = s := by rw [ht, List.take_append_drop]
        have hlen : t.length < n := by
          have := congrArg List.length ht
          have hpos := List.length_pos_iff.mpr hd
          simp only [List.length_append, List.length_drop] at this
          omega
        obtain ⟨ps, hps⟩ := ih t.length hlen t rfl
        refine ⟨s.take i :: ps, ?_⟩
        nth_rewrite 1 [← hs]
        refine .next (fun j hj hpre => ?_) hps
        rw [hs] at hpre
        have hji : j < i := lt_of_lt_of_le hj (List.length_take_le i s)
        exact Nat.find_min hocc hji ⟨lt_trans hji hi, hpre⟩

/-- The scan finds the pieces, and there are no others. -/
theorem cuts_iff (hd : d ≠ []) : Cuts d s ps ↔ ps = pieces d s := by
  constructor
  · exact Cuts.eq_pieces hd
  · rintro rfl
    obtain ⟨qs, hqs⟩ := exists_cuts hd s
    rw [← hqs.eq_pieces hd]
    exact hqs

end Pieces

end Play
