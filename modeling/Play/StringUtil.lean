/-
Play/StringUtil.lean

`string_util::split`, for any delimiter.

The loop keeps two positions: `ppos`, where the part being read begins, and
`cpos`, where `find_first_of` sees the next character *of* the delimiter.  A
`Text` holds the bytes of the string, and it is bytes that are compared and cut.
Behind that character it goes on by the length of the delimiter, as if the
whole of it stood there.  `split_iff` says for which inputs this cuts at the
delimiter: the ones that are words without any of its characters, joined by
it.  A delimiter of one character can only be met whole, so that every input
is such a one (`splitsAt_singleton`), and `split_slash` identifies the paths'
`split` with this one.
-/
import Play.Paths
import Play.Pieces

namespace Play

namespace StringUtil

open Pieces

variable {s d delimiter : Text} {pos cpos : ℕ}

/-! ### The source -/

/-- `std::string::find_first_of`: the first place from `pos` on that holds a
character of `set`; `none` is `npos`. -/
def findFirstOf (s set : Text) (pos : ℕ) : Option ℕ :=
  ((s.drop pos).findIdx? fun c => decide (c ∈ set)).map (pos + ·)

/-- `std::string::substr` from `pos` on, `n` characters. -/
def substr (s : Text) (pos n : ℕ) : Text := (s.drop pos).take n

theorem findFirstOf_eq_none {set : Text} (h : findFirstOf s set pos = none) :
    ∀ c ∈ s.drop pos, c ∉ set := by
  rw [findFirstOf, Option.map_eq_none_iff, List.findIdx?_eq_none_iff] at h
  exact fun c hc => of_decide_eq_false (h c hc)

theorem findFirstOf_eq_some {set : Text} (h : findFirstOf s set pos = some cpos) :
    ∃ p c t, s.drop pos = p ++ c :: t ∧ cpos = pos + p.length ∧ c ∈ set ∧ ∀ b ∈ p, b ∉ set := by
  rw [findFirstOf, Option.map_eq_some_iff] at h
  obtain ⟨i, hi, rfl⟩ := h
  obtain ⟨hlt, hc, hbefore⟩ := List.findIdx?_eq_some_iff_getElem.mp hi
  refine ⟨(s.drop pos).take i, (s.drop pos)[i], (s.drop pos).drop (i + 1), ?_, ?_,
    of_decide_eq_true hc, fun b hb => ?_⟩
  · rw [← List.drop_eq_getElem_cons hlt, List.take_append_drop]
  · rw [List.length_take, Nat.min_eq_left (le_of_lt hlt)]
  · obtain ⟨j, hj, rfl⟩ := List.mem_take_iff_getElem.mp hb
    have := hbefore j (by omega)
    simpa using this

/-- What the loop pushes when it meets a delimiter at `cpos`. -/
def pushPart (s : Text) (ppos cpos : ℕ) (result : List Text) : List Text :=
  if ppos < cpos then result ++ [substr s ppos (cpos - ppos)] else result

/-- The `while` loop of `string_util::split` and what follows it. -/
def splitLoop (s delimiter : Text) (ppos : ℕ) (result : List Text) : List Text :=
  match _h : findFirstOf s delimiter ppos with
  | some cpos =>
      splitLoop s delimiter (cpos + delimiter.length) (pushPart s ppos cpos result)
  | none => if ppos < s.length then result ++ [s.drop ppos] else result
termination_by s.length - ppos
decreasing_by
  obtain ⟨p, c, t, hs, rfl, hc, -⟩ := findFirstOf_eq_some _h
  have hlen := congrArg List.length hs
  have hpos := List.length_pos_of_mem hc
  simp only [List.length_drop, List.length_append, List.length_cons] at hlen
  omega

/-- `string_util::split`. -/
def split (s delimiter : Text) : List Text :=
  if s = [] then [] else splitLoop s delimiter 0 []

/-! ### The loop as a scan -/

/-- A character of the delimiter is next. -/
def meets (d : Text) (t : Text) : Bool := t.head?.any fun c => decide (c ∈ d)

/-- The parts of a text that do not come out empty. -/
def nonEmpty (ps : List Text) : List Text := ps.filter fun p => decide (p ≠ [])

@[simp] theorem meets_cons (d : Text) (c : Char) (t : Text) :
    meets d (c :: t) = decide (c ∈ d) := rfl

theorem meets_drop_append {p : Text} (hp : ∀ b ∈ p, b ∉ d) (t : Text) :
    ∀ i < p.length, meets d ((p ++ t).drop i) = false := by
  intro i hi
  rw [List.drop_append_of_le_length (le_of_lt hi), List.drop_eq_getElem_cons hi, List.cons_append,
    meets_cons]
  exact decide_eq_false (hp _ (List.getElem_mem hi))

theorem nonEmpty_cons (p : Text) (ps : List Text) :
    nonEmpty (p :: ps) = if p = [] then nonEmpty ps else p :: nonEmpty ps := by
  rw [nonEmpty, List.filter_cons]
  by_cases hp : p = [] <;> simp [hp, nonEmpty]

/-- The rest of the text as the scan sees it. -/
theorem splitLoop_eq (hd : d ≠ []) (s : Text) (ppos : ℕ) (result : List Text) :
    splitLoop s d ppos result
      = result ++ nonEmpty (cut (meets d) (d.length - 1) 0 [] (s.drop ppos)) := by
  have hwidth : d.length - 1 + 1 = d.length := Nat.sub_add_cancel (List.length_pos_iff.mpr hd)
  fun_induction splitLoop s d ppos result with
  | case1 ppos result cpos h ih =>
      obtain ⟨p, c, t, hs, rfl, hc, hp⟩ := findFirstOf_eq_some h
      have hdrop : s.drop (ppos + p.length + d.length) = (c :: t).drop d.length := by
        rw [Nat.add_assoc, ← List.drop_drop, hs, ← List.drop_drop, List.drop_left]
      have hpart : substr s ppos (ppos + p.length - ppos) = p := by
        rw [substr, Nat.add_sub_cancel_left, hs, List.take_left]
      rw [ih, pushPart, hs, hdrop, hpart, cut_append (meets_drop_append hp _),
        cut_of_stop (List.cons_ne_nil c t) (by simpa using hc), hwidth, List.nil_append,
        nonEmpty_cons]
      by_cases hempty : p = []
      · simp [hempty]
      · have hpos : 0 < p.length := List.length_pos_iff.mpr hempty
        have hlt : ppos < ppos + p.length := Nat.lt_add_of_pos_right hpos
        rw [if_pos hlt, if_neg hempty, List.append_assoc]
        rfl
  | case2 ppos result h hlt =>
      have hscan := cut_append (k := d.length - 1) (meets_drop_append (findFirstOf_eq_none h) []) []
      rw [List.append_nil] at hscan
      rw [hscan, List.nil_append, cut, nonEmpty_cons, if_neg (by simpa using hlt)]
      rfl
  | case3 ppos result h hlt =>
      rw [List.drop_of_length_le (by omega)]
      simp [cut, nonEmpty]

/-- `split` keeps the parts of one scan that stops at the characters of the
delimiter. -/
theorem split_eq (hd : d ≠ []) (s : Text) :
    split s d = nonEmpty (cut (meets d) (d.length - 1) 0 [] s) := by
  rw [split]
  split
  · next hs =>
      rw [hs]
      simp [cut, nonEmpty]
  · rw [splitLoop_eq hd, List.nil_append, List.drop_zero]

/-! ### Cutting at the delimiter -/

/-- `r` are the non-empty pieces of `s` between the occurrences of `d`, from
left to right; the pieces and the occurrences make up `s`. -/
def SplitsAt (d s : Text) (r : List Text) : Prop :=
  ∃ ps, Cuts d s ps ∧ d.intercalate ps = s ∧ r = nonEmpty ps

/-- `s` is a row of words without any character of `d`, joined by `d`. -/
def JoinedBy (d s : Text) : Prop :=
  ∃ ps, ps ≠ [] ∧ (∀ p ∈ ps, ∀ c ∈ p, c ∉ d) ∧ d.intercalate ps = s

theorem mem_nonEmpty {p : Text} {ps : List Text} : p ∈ nonEmpty ps ↔ p ∈ ps ∧ p ≠ [] := by
  simp [nonEmpty]

/-- No part that `split` returns holds a character of the delimiter. -/
theorem not_mem_of_mem_split (hd : d ≠ []) {p : Text} (hp : p ∈ split s d) : ∀ c ∈ p, c ∉ d := by
  rw [split_eq hd, mem_nonEmpty] at hp
  refine forall_mem_cut (fun c t h => ?_) 0 (by simp) p hp.1
  simpa using h

/-- Pieces without any character of the delimiter are the parts of the scan. -/
theorem cut_meets_of_cuts (hd : d ≠ []) {ps : List Text} (h : Cuts d s ps)
    (hps : ∀ p ∈ ps, ∀ c ∈ p, c ∉ d) : cut (meets d) (d.length - 1) 0 [] s = ps := by
  induction h with
  | @last s _ =>
      have hs := hps s List.mem_cons_self
      have hscan := cut_append (k := d.length - 1) (meets_drop_append hs []) []
      rw [List.append_nil] at hscan
      rw [hscan, List.nil_append, cut]
  | @next p t ps _ _ ih =>
      obtain ⟨hp, hrest⟩ := List.forall_mem_cons.mp hps
      have hmeets : meets d (d ++ t) = true := by
        obtain ⟨c, d', rfl⟩ := List.exists_cons_of_ne_nil hd
        simp
      have hwidth : d.length - 1 + 1 = d.length := Nat.sub_add_cancel (List.length_pos_iff.mpr hd)
      rw [cut_append (meets_drop_append hp _), cut_of_stop (by simp [hd]) hmeets, hwidth,
        List.drop_left, List.nil_append, ih hrest]

/-- **`split` cuts at the delimiter** exactly when the input is words without
any of its characters, joined by it. -/
theorem split_iff (hd : d ≠ []) (s : Text) : SplitsAt d s (split s d) ↔ JoinedBy d s := by
  constructor
  · rintro ⟨ps, hcuts, -, hsplit⟩
    refine ⟨ps, hcuts.ne_nil, fun p hp c hc => ?_, hcuts.intercalate_eq⟩
    have hmem : p ∈ split s d := by
      rw [hsplit, mem_nonEmpty]
      exact ⟨hp, List.ne_nil_of_mem hc⟩
    exact not_mem_of_mem_split hd hmem c hc
  · rintro ⟨ps, hne, hps, hjoin⟩
    have hcuts : Cuts d s ps := hjoin ▸ cuts_intercalate hd hne hps
    exact ⟨ps, hcuts, hjoin, by rw [split_eq hd, cut_meets_of_cuts hd hcuts hps]⟩

/-- Two words with the whole delimiter between them. -/
theorem split_iff_arrow :
    SplitsAt ['-', '>'] ['a', '-', '>', 'b'] (split ['a', '-', '>', 'b'] ['-', '>']) :=
  (split_iff (by simp) _).mpr ⟨[['a'], ['b']], by simp, by simp, rfl⟩

/-- One character of the delimiter alone is taken for all of it, and the
character behind it is lost: "a-b" cut at "->" has the one part "a". -/
theorem split_lone_dash :
    split ['a', '-', 'b'] ['-', '>'] = [['a']] ∧
      ¬ SplitsAt ['-', '>'] ['a', '-', 'b'] (split ['a', '-', 'b'] ['-', '>']) := by
  have hd : ['-', '>'] ≠ [] := List.cons_ne_nil _ _
  have hsplit : split ['a', '-', 'b'] ['-', '>'] = [['a']] := by
    rw [split_eq hd]
    rfl
  refine ⟨hsplit, ?_⟩
  rintro ⟨ps, hcuts, -, h⟩
  rw [hsplit, (cuts_iff hd).mp hcuts] at h
  exact absurd h (by decide)

/-! ### Delimiters of one character -/

theorem cut_meets_singleton (c : Char) (part s : Text) :
    cut (meets [c]) 0 0 part s = s.splitOnPPrepend (· == c) part.reverse := by
  induction s generalizing part with
  | nil => simp [cut]
  | cons b s ih =>
      by_cases hb : b = c
      · rw [cut, if_pos (by simp [hb]), List.splitOnPPrepend_cons_pos (by simp [hb]),
          List.reverse_reverse, ih]
        rfl
      · rw [cut, if_neg (by simp [hb]), List.splitOnPPrepend_cons_neg (by simp [hb]), ih,
          List.reverse_append]
        rfl

/-- With a delimiter of one character `split` is the cut at each of them. -/
theorem split_singleton (c : Char) (s : Text) : split s [c] = nonEmpty (s.splitOn c) := by
  rw [split_eq (List.cons_ne_nil c []), List.splitOn_eq_splitOnP,
    List.splitOnP_eq_splitOnPPrepend]
  exact congrArg nonEmpty (cut_meets_singleton c [] s)

theorem not_mem_of_mem_splitOn {c : Char} {p : Text} (hp : p ∈ s.splitOn c) : c ∉ p := by
  have hscan := cut_meets_singleton c [] s
  rw [List.reverse_nil, List.splitOnPPrepend_nil_right, ← List.splitOn_eq_splitOnP] at hscan
  rw [← hscan] at hp
  have hP : ∀ b t, meets [c] (b :: t) = false → b ≠ c := fun b t h => by simpa using h
  exact fun hc => forall_mem_cut hP 0 (by simp) p hp c hc rfl

/-- Such a delimiter is always met whole. -/
theorem splitsAt_singleton (c : Char) (s : Text) : SplitsAt [c] s (split s [c]) := by
  have hd : [c] ≠ [] := List.cons_ne_nil c []
  have hps : ∀ p ∈ s.splitOn c, ∀ b ∈ p, b ∉ [c] := by
    intro p hp b hb hbc
    rw [List.mem_singleton.mp hbc] at hb
    exact not_mem_of_mem_splitOn hp hb
  have hcuts := cuts_intercalate hd (List.splitOn_ne_nil c s) hps
  rw [List.intercalate_splitOn] at hcuts
  exact ⟨s.splitOn c, hcuts, List.intercalate_splitOn c, split_singleton c s⟩

theorem paths_splitLoop_eq (part s : Text) :
    Paths.splitLoop part s = nonEmpty (cut (meets ['/']) 0 0 part s) := by
  induction s generalizing part with
  | nil => rw [Paths.splitLoop, cut, nonEmpty_cons]; rfl
  | cons c s ih =>
      rw [Paths.splitLoop, cut]
      by_cases hc : c = '/'
      · have hmeets : meets ['/'] (c :: s) = true := by simp [hc]
        rw [if_pos hc, if_pos hmeets, nonEmpty_cons, ih]
      · have hmeets : ¬ meets ['/'] (c :: s) = true := by simp [hc]
        rw [if_neg hc, if_neg hmeets, ih]

/-- The paths' `split` is `string_util::split` with the delimiter "/". -/
theorem split_slash (p : Text) : split p ['/'] = Paths.split p := by
  rw [split_eq (List.cons_ne_nil _ _), Paths.split, paths_splitLoop_eq]
  rfl

/-- Nothing is left of a text of delimiters only, and of no other one. -/
theorem nonEmpty_cut_eq_nil_iff {c : Char} {part s : Text} :
    nonEmpty (cut (meets [c]) 0 0 part s) = [] ↔ part = [] ∧ ∀ b ∈ s, b = c := by
  induction s generalizing part with
  | nil => by_cases hpart : part = [] <;> simp [cut, hpart, nonEmpty]
  | cons b s ih =>
      by_cases hb : b = c
      · rw [cut, if_pos (by simp [hb]), nonEmpty_cons]
        by_cases hpart : part = []
        · simp [hpart, hb, ih]
        · simp [hpart]
      · rw [cut, if_neg (by simp [hb]), ih]
        simp [hb]

theorem split_singleton_eq_nil_iff {c : Char} {s : Text} :
    split s [c] = [] ↔ ∀ b ∈ s, b = c := by
  rw [split_eq (List.cons_ne_nil c [])]
  exact nonEmpty_cut_eq_nil_iff.trans (and_iff_right rfl)

end StringUtil

/-! ### Head and tail of a path -/

namespace Paths

open StringUtil (split_slash)

variable {p n : Text} {ns : List Text}

/-- The parts of any path are names. -/
theorem isName_of_mem_split (hn : n ∈ split p) : IsName n := by
  rw [← split_slash] at hn
  constructor
  · rw [StringUtil.split_eq (List.cons_ne_nil _ _)] at hn
    exact (StringUtil.mem_nonEmpty.mp hn).2
  · intro hslash
    exact StringUtil.not_mem_of_mem_split (List.cons_ne_nil _ _) hn '/' hslash (by simp)

theorem split_eq_nil_iff : split p = [] ↔ ∀ c ∈ p, c = '/' := by
  rw [← split_slash, StringUtil.split_singleton_eq_nil_iff]

/-- The tail of a path has the other names. -/
theorem split_tail (h : split p = n :: ns) :
    popHeadAct p = some (join ns) ∧ split (join ns) = ns := by
  constructor
  · rw [popHeadAct, h]
  · apply split_join
    intro m hm
    apply isName_of_mem_split (p := p)
    rw [h]
    exact List.mem_cons_of_mem n hm

/-- One name less at each step. -/
theorem iterate_popHeadAct (h : split p = ns) (hp : ns = [] → p = []) :
    (fun r : Option Text => r.bind popHeadAct)^[ns.length] (some p) = some [] := by
  induction ns generalizing p with
  | nil => rw [hp rfl]; rfl
  | cons n ns ih =>
      obtain ⟨hpop, hrest⟩ := split_tail h
      rw [List.length_cons, Function.iterate_succ_apply, Option.bind_some, hpop]
      apply ih hrest
      rintro rfl
      rfl

/-- **Head and tail decompose every path** that has a name: the first name and
the names of the tail are its names, and popping one name after another ends
in the empty path. -/
theorem head_tail (hp : ∃ c ∈ p, c ≠ '/') :
    ∃ n r, getFirstAct p = some n ∧ popHeadAct p = some r ∧
      StringUtil.split p ['/'] = n :: StringUtil.split r ['/'] ∧
      (StringUtil.split p ['/']).getLast? = some (getLastAct p) ∧
      (r = [] ↔ (StringUtil.split p ['/']).length = 1) ∧
      (fun q : Option Text => q.bind popHeadAct)^[(StringUtil.split p ['/']).length] (some p)
        = some [] := by
  have hne : split p ≠ [] := by
    obtain ⟨c, hc, hslash⟩ := hp
    exact fun h => hslash (split_eq_nil_iff.mp h c hc)
  obtain ⟨n, ns, hparts⟩ := List.exists_cons_of_ne_nil hne
  obtain ⟨hpop, htail⟩ := split_tail hparts
  have hp' : p ≠ [] := by
    rintro rfl
    cases hparts
  simp only [split_slash]
  refine ⟨n, join ns, ?_, hpop, by rw [hparts, htail], ?_, ?_, ?_⟩
  · rw [getFirstAct, if_neg hp', hparts]
    rfl
  · rw [getLastAct, hparts, List.getLast?_eq_some_getLast (List.cons_ne_nil n ns), Option.getD_some]
  · constructor
    · intro hr
      have hns : ns = [] := by rw [← htail, hr]; rfl
      rw [hparts, hns]
      rfl
    · intro hlen
      rw [hparts, List.length_cons] at hlen
      rw [List.length_eq_zero_iff.mp (Nat.succ.inj hlen)]
      rfl
  · exact iterate_popHeadAct rfl (fun h => absurd h hne)

/-- Slashes in front, behind and doubled. -/
theorem head_tail_slashes :
    ∃ n r, getFirstAct ['/', '/', 'a', '/', '/', 'b', '/'] = some n ∧
      popHeadAct ['/', '/', 'a', '/', '/', 'b', '/'] = some r ∧ n = ['a'] ∧ r = ['b'] := by
  obtain ⟨n, r, hn, hr, -⟩ := head_tail (p := ['/', '/', 'a', '/', '/', 'b', '/'])
    ⟨'a', by decide, by decide⟩
  exact ⟨n, r, hn, hr, (Option.some.inj hn).symm, (Option.some.inj hr).symm⟩

end Paths

end Play
