/-
Play/Paths.lean

`act_ensure::path`: the strings by which acts are named.

An act has a full path, "/" and the names from the root on joined by "/".
`string_util::split` takes such a string apart; a delimiter at an end, or next
to another one, makes no part.  `is_child_of` compares the beginnings of the
two strings and nothing else, and `get_child_path` drops one character more
than the beginning, whatever that character is.

A `Text` stands for the bytes of a `std::string`, so that dropping a character
is dropping a byte, in the middle of a longer encoding too.

A function that may leave by an exception returns an `Option`, `none` for the
exception: `substr` past the end of the string, or a path without any part.
-/
import Mathlib.Data.List.Infix
import Mathlib.Tactic.Common

namespace Play

/-- A `std::string`: the `char`s in it, that is its bytes, one after the other.
`find_first_of` and `substr` count and cut bytes. -/
abbrev Text := List Char

namespace Paths

/-! ### Taking a path apart -/

/-- The loop of `string_util::split`; `part` is what was read since the last
delimiter. -/
def splitLoop (part : Text) : Text → List Text
  | [] => if part = [] then [] else [part]
  | c :: s =>
      if c = '/' then (if part = [] then splitLoop [] s else part :: splitLoop [] s)
      else splitLoop (part ++ [c]) s

/-- `string_util::split` with the delimiter "/". -/
def split (s : Text) : List Text := splitLoop [] s

/-- Names joined by "/", as `pop_head_act` appends them. -/
def join : List Text → Text
  | [] => []
  | [n] => n
  | n :: ns => n ++ '/' :: join ns

/-- The full path of an act, from the names of the acts from the root to it:
`build_path`. -/
def buildPath (names : List Text) : Text := names.flatMap fun n => '/' :: n

/-- `path::is_absolute_path`. -/
def isAbsolutePath (p : Text) : Bool := p.head? == some '/'

/-- `path::is_relative_path`. -/
def isRelativePath (p : Text) : Bool := !p.isEmpty && p.head? != some '/'

/-- `path::get_last_act`; a relative path has a last part. -/
def getLastAct (p : Text) : Text := (split p).getLast?.getD []

/-- `path::is_child_of`. -/
def isChildOf (selfPath p : Text) : Bool := p.take selfPath.length == selfPath

/-- `path::get_child_path` of two absolute paths. -/
def getChildPath (selfPath p : Text) : Option Text :=
  if isChildOf selfPath p then
    -- `substr` throws when it starts beyond the end
    if selfPath.length + 1 ≤ p.length then some (p.drop (selfPath.length + 1)) else none
  else some []

/-- `path::get_first_act`; `setup` throws when there is no part. -/
def getFirstAct (p : Text) : Option Text :=
  if p = [] then some [] else (split p).head?

/-- `path::pop_head_act`. -/
def popHeadAct (p : Text) : Option Text :=
  match split p with
  | [] => none
  | _ :: parts => some (join parts)

/-! ### Names -/

/-- A name that a path can hold as one part. -/
def IsName (n : Text) : Prop := n ≠ [] ∧ '/' ∉ n

instance (n : Text) : Decidable (IsName n) := inferInstanceAs (Decidable (n ≠ [] ∧ '/' ∉ n))

theorem splitLoop_append {n : Text} (hn : '/' ∉ n) (part s : Text) :
    splitLoop part (n ++ s) = splitLoop (part ++ n) s := by
  induction n generalizing part with
  | nil => simp
  | cons c n ih =>
      have hc : c ≠ '/' := fun e => hn (e ▸ List.mem_cons_self)
      have hn' : '/' ∉ n := fun h => hn (List.mem_cons_of_mem _ h)
      rw [List.cons_append, splitLoop, if_neg hc, ih hn']
      simp

/-- One name, then more of the path. -/
theorem splitLoop_name {n : Text} (hn : IsName n) (s : Text) :
    splitLoop [] (n ++ '/' :: s) = n :: splitLoop [] s := by
  rw [splitLoop_append hn.2, List.nil_append, splitLoop, if_pos rfl, if_neg hn.1]

theorem split_name {n : Text} (hn : IsName n) : split n = [n] := by
  have := splitLoop_append hn.2 [] []
  rw [List.append_nil, List.nil_append] at this
  rw [split, this, splitLoop, if_neg hn.1]

/-- Splitting undoes joining. -/
theorem split_join {ns : List Text} (hns : ∀ n ∈ ns, IsName n) : split (join ns) = ns := by
  induction ns with
  | nil => rfl
  | cons n ns ih =>
      have hn := hns n List.mem_cons_self
      have hrest : ∀ m ∈ ns, IsName m := fun m hm => hns m (List.mem_cons_of_mem _ hm)
      cases ns with
      | nil => exact split_name hn
      | cons m ms =>
          show splitLoop [] (n ++ '/' :: join (m :: ms)) = n :: m :: ms
          rw [splitLoop_name hn]
          exact congrArg (n :: ·) (ih hrest)

/-- A full path is a delimiter and the joined names. -/
theorem buildPath_eq_join {ns : List Text} (hns : ns ≠ []) : buildPath ns = '/' :: join ns := by
  induction ns with
  | nil => exact absurd rfl hns
  | cons n ns ih =>
      cases ns with
      | nil => simp [buildPath, join]
      | cons m ms =>
          have ih := ih (List.cons_ne_nil m ms)
          rw [show buildPath (n :: m :: ms) = '/' :: n ++ buildPath (m :: ms) from rfl, ih]
          rfl

/-- Splitting a full path gives the names. -/
theorem split_buildPath {ns : List Text} (hns : ∀ n ∈ ns, IsName n) :
    split (buildPath ns) = ns := by
  rcases eq_or_ne ns [] with rfl | hne
  · rfl
  · rw [buildPath_eq_join hne, split, splitLoop, if_pos rfl, if_pos rfl]
    exact split_join hns

theorem buildPath_append (ms ns : List Text) :
    buildPath (ms ++ ns) = buildPath ms ++ buildPath ns :=
  List.flatMap_append

theorem isChildOf_iff {s p : Text} : isChildOf s p = true ↔ s <+: p := by
  rw [isChildOf, beq_iff_eq, eq_comm, List.prefix_iff_eq_take]

theorem getChildPath_self (s : Text) : getChildPath s s = none := by
  rw [getChildPath, if_pos (isChildOf_iff.mpr (List.prefix_refl s)), if_neg (by omega)]

theorem getChildPath_append (s : Text) (c : Char) (r : Text) :
    getChildPath s (s ++ c :: r) = some r := by
  have hlen : s.length + 1 ≤ (s ++ c :: r).length := by simp
  rw [getChildPath, if_pos (isChildOf_iff.mpr (List.prefix_append _ _)), if_pos hlen,
    ← List.drop_drop, List.drop_left]
  rfl

theorem join_ne_nil {n : Text} {ns : List Text} (hn : n ≠ []) : join (n :: ns) ≠ [] := by
  cases ns with
  | nil => exact hn
  | cons m ms => exact List.append_ne_nil_of_right_ne_nil _ (List.cons_ne_nil _ _)

theorem getFirstAct_join {n : Text} {ns : List Text} (hns : ∀ m ∈ n :: ns, IsName m) :
    getFirstAct (join (n :: ns)) = some n := by
  rw [getFirstAct, if_neg (join_ne_nil (hns n List.mem_cons_self).1), split_join hns]
  rfl

/-- What holds no delimiter is its own first part, also if it is empty. -/
theorem getFirstAct_noSlash {n : Text} (hn : '/' ∉ n) : getFirstAct n = some n := by
  rcases eq_or_ne n [] with rfl | hne
  · rfl
  · rw [getFirstAct, if_neg hne, split_name ⟨hne, hn⟩]
    rfl

theorem popHeadAct_name {n : Text} (hn : IsName n) : popHeadAct n = some [] := by
  rw [popHeadAct, split_name hn]
  rfl

theorem popHeadAct_join {n : Text} {ns : List Text} (hns : ∀ m ∈ n :: ns, IsName m) :
    popHeadAct (join (n :: ns)) = some (join ns) := by
  rw [popHeadAct, split_join hns]

theorem getLastAct_join {ns : List Text} (hns : ∀ n ∈ ns, IsName n) :
    getLastAct (join ns) = ns.getLast?.getD [] := by
  rw [getLastAct, split_join hns]

theorem getLastAct_buildPath {ns : List Text} (hns : ∀ n ∈ ns, IsName n) :
    getLastAct (buildPath ns) = ns.getLast?.getD [] := by
  rw [getLastAct, split_buildPath hns]

/-- A full path without its first delimiter. -/
theorem append_buildPath (n : Text) (ns : List Text) : n ++ buildPath ns = join (n :: ns) := by
  have := buildPath_eq_join (List.cons_ne_nil n ns)
  exact (List.cons.inj this).2

/-- Joined names do not begin with a delimiter. -/
theorem isRelativePath_join {n : Text} {ns : List Text} (hn : IsName n) :
    isRelativePath (join (n :: ns)) = true := by
  obtain ⟨c, n', rfl⟩ := List.exists_cons_of_ne_nil hn.1
  have hc : c ≠ '/' := fun e => hn.2 (e ▸ List.mem_cons_self)
  cases ns with
  | nil => simp [join, isRelativePath, hc]
  | cons m ms => simp [join, isRelativePath, hc]

/-- A path that is there at all is absolute or relative. -/
theorem isAbsolutePath_iff {p : Text} :
    isAbsolutePath p = true ↔ p ≠ [] ∧ isRelativePath p = false := by
  cases p <;> simp [isAbsolutePath, isRelativePath]

/-- A full path is absolute. -/
theorem isAbsolutePath_buildPath {ns : List Text} (hns : ns ≠ []) :
    isAbsolutePath (buildPath ns) = true := by
  rw [buildPath_eq_join hns]
  rfl

/-! ### One full path beginning another -/

/-- The end of a path, or a delimiter. -/
def Ends (r : Text) : Prop := ∀ c, r.head? = some c → c = '/'

theorem ends_buildPath (ns : List Text) : Ends (buildPath ns) := by
  intro c hc
  cases ns with
  | nil => cases hc
  | cons n ns => exact (Option.some.inj hc).symm

theorem prefix_append_of_ends {n m r : Text} (hn : '/' ∉ n) (hr : Ends r) :
    n <+: m ++ r ↔ n <+: m := by
  refine ⟨fun h => ?_, fun h => h.trans (List.prefix_append m r)⟩
  induction n generalizing m with
  | nil => exact List.nil_prefix
  | cons c n ih =>
      have hc : c ≠ '/' := fun e => hn (e ▸ List.mem_cons_self)
      cases m with
      | nil =>
          obtain ⟨t, ht⟩ := h
          have hhead : r.head? = some c := by rw [← List.nil_append r, ← ht]; rfl
          exact absurd (hr c hhead) hc
      | cons d m =>
          obtain ⟨rfl, h'⟩ := List.cons_prefix_cons.mp h
          exact List.cons_prefix_cons.mpr ⟨rfl, ih (fun hm => hn (List.mem_cons_of_mem _ hm)) h'⟩

theorem append_delimiter_prefix {n m s r : Text} (hn : '/' ∉ n) (hm : '/' ∉ m) (hr : Ends r) :
    n ++ '/' :: s <+: m ++ r ↔ n = m ∧ '/' :: s <+: r := by
  refine ⟨fun h => ?_, fun ⟨e, h⟩ => e ▸ (List.prefix_append_right_inj n).mpr h⟩
  induction n generalizing m with
  | nil =>
      cases m with
      | nil => exact ⟨rfl, h⟩
      | cons d m =>
          obtain ⟨rfl, -⟩ := List.cons_prefix_cons.mp h
          exact absurd List.mem_cons_self hm
  | cons c n ih =>
      have hc : c ≠ '/' := fun e => hn (e ▸ List.mem_cons_self)
      cases m with
      | nil =>
          obtain ⟨t, ht⟩ := h
          have hhead : r.head? = some c := by rw [← List.nil_append r, ← ht]; rfl
          exact absurd (hr c hhead) hc
      | cons d m =>
          obtain ⟨rfl, h'⟩ := List.cons_prefix_cons.mp h
          obtain ⟨rfl, hr'⟩ := ih (fun h => hn (List.mem_cons_of_mem _ h))
            (fun h => hm (List.mem_cons_of_mem _ h)) h'
          exact ⟨rfl, hr'⟩

/-- **A full path begins another one** when the names agree up to the last of
the first path, and that one begins its counterpart. -/
theorem buildPath_prefix_iff {xs ms : List Text} {n : Text} (hxs : ∀ x ∈ xs, '/' ∉ x)
    (hn : '/' ∉ n) (hms : ∀ m ∈ ms, '/' ∉ m) :
    buildPath (xs ++ [n]) <+: buildPath ms ↔
      ∃ m rest, ms = xs ++ m :: rest ∧ n <+: m := by
  induction xs generalizing ms with
  | nil =>
      cases ms with
      | nil => simp [buildPath]
      | cons m rest =>
          rw [show buildPath ([] ++ [n]) = '/' :: n by simp [buildPath],
            show buildPath (m :: rest) = '/' :: (m ++ buildPath rest) from rfl,
            List.cons_prefix_cons, prefix_append_of_ends hn (ends_buildPath rest)]
          simp
  | cons x xs ih =>
      have hx := hxs x List.mem_cons_self
      have hxs' : ∀ y ∈ xs, '/' ∉ y := fun y hy => hxs y (List.mem_cons_of_mem _ hy)
      cases ms with
      | nil => simp [buildPath]
      | cons m rest =>
          have hm := hms m List.mem_cons_self
          have hrest : ∀ y ∈ rest, '/' ∉ y := fun y hy => hms y (List.mem_cons_of_mem _ hy)
          -- what follows the first name begins with a delimiter
          obtain ⟨s, hs⟩ : ∃ s, buildPath (xs ++ [n]) = '/' :: s := by
            cases xs with
            | nil => exact ⟨_, rfl⟩
            | cons y ys => exact ⟨_, rfl⟩
          rw [show buildPath (x :: xs ++ [n]) = '/' :: (x ++ buildPath (xs ++ [n])) from rfl,
            show buildPath (m :: rest) = '/' :: (m ++ buildPath rest) from rfl,
            List.cons_prefix_cons, hs, append_delimiter_prefix hx hm (ends_buildPath rest), ← hs,
            ih hxs' hrest]
          constructor
          · rintro ⟨-, rfl, k, tail, rfl, hk⟩
            exact ⟨k, tail, rfl, hk⟩
          · rintro ⟨k, tail, e, hk⟩
            obtain ⟨rfl, rfl⟩ := List.cons.inj e
            exact ⟨rfl, rfl, k, tail, rfl, hk⟩

/-- Full paths determine the names. -/
theorem buildPath_injective {ms ns : List Text} (hms : ∀ m ∈ ms, IsName m)
    (hns : ∀ n ∈ ns, IsName n) (h : buildPath ms = buildPath ns) : ms = ns := by
  rw [← split_buildPath hms, h, split_buildPath hns]

end Paths

end Play
