/-
Play/JsonReader.lean

`json_reader::read`: a value of a JSON tree by a path "a.b.c".

The path is split at the dots, the loop goes through all keys but the last,
and the last one is looked up behind the loop.  The loop runs up to
`vpath.size() - 1`, a `size_t`: of an empty vector that is the largest number
there is, and `vpath[0]` is outside.  And the value reached may be of another
type than the caller asks for: `get<Value>()` throws then, and neither the
value nor the default is returned.  `read_follows_iff` says that nothing else
goes wrong.

What a JSON value holds beside objects and arrays is not looked at, and
`get<Value>()` of the JSON library is a parameter: it gives a value or throws.
-/
import Mathlib.Algebra.Group.Nat.Defs
import Play.StringUtil

namespace Play

namespace JsonReader

/-- A JSON value; `α` is for strings, numbers and booleans. -/
inductive Json (α : Type*)
  | null
  | scalar (a : α)
  | array (items : List (Json α))
  | object (members : List (Text × Json α))

variable {α β : Type*} {json jv : Json α} {path : Text} {vpath ks : List Text} {key : Text}
variable {n i : ℕ}

namespace Json

/-- `is_null`. -/
def isNull : Json α → Bool
  | null => true
  | _ => false

/-- The member of an object under a key: `contains` says whether there is one,
also of a value that is no object, and `at` returns it. -/
def member (key : Text) : Json α → Option (Json α)
  | object members => members.lookup key
  | _ => none

end Json

/-! ### The source -/

/-- Where the loop of `read` leaves `jv`. -/
inductive Walk (α : Type*)
  | arrived (jv : Json α)
  | missing
  | outOfRange

/-- `vpath.size() - 1`, a `size_t`. -/
def loopBound (size : ℕ) : ℕ := if size = 0 then 2 ^ 64 - 1 else size - 1

/-- The loop of `read`, with `n` turns to go from `i` on. -/
def walk (vpath : List Text) : ℕ → ℕ → Json α → Walk α
  | 0, _, jv => .arrived jv
  | n + 1, i, jv =>
      match vpath[i]? with
      | none => .outOfRange
      | some key =>
          match jv.member key with
          | some child => walk vpath n (i + 1) child
          | none => .missing

/-- `read` of a reference; `none` when an element outside of `vpath` is read. -/
def readRef (json : Json α) (path : Text) : Option (Json α) :=
  let vpath := StringUtil.split path ['.']
  match walk vpath (loopBound vpath.length) 0 json with
  | .outOfRange => none
  | .missing => some .null
  | .arrived jv => vpath.getLast?.map fun key => (jv.member key).getD .null

/-- How a call of `read` ends. -/
inductive Reading (β : Type*)
  | returned (v : β)
  | threw
  | outOfRange
deriving DecidableEq

/-- `jr.get<Value>()`. -/
def getValue (get : Json α → Option β) (jr : Json α) : Reading β :=
  match get jr with
  | some v => .returned v
  | none => .threw

/-- `json_reader::read` with a default. -/
def read (get : Json α → Option β) (json : Json α) (path : Text) (defaultValue : β) : Reading β :=
  match readRef json path with
  | none => .outOfRange
  | some jr => if jr.isNull then .returned defaultValue else getValue get jr

/-! ### Following a path -/

/-- The value reached through nested objects by the keys. -/
def follow : Json α → List Text → Option (Json α)
  | json, [] => some json
  | json, key :: ks => (json.member key).bind fun child => follow child ks

/-- The non-empty components of a path. -/
def components (path : Text) : List Text := StringUtil.nonEmpty (path.splitOn '.')

/-- The path leads to a value other than null. -/
def Leads (json : Json α) (path : Text) (jv : Json α) : Prop :=
  follow json (components path) = some jv ∧ jv.isNull = false

/-- The loop bound does not wrap around, no element outside of the vector is
read, and what is returned is the value that the path leads to, as a `Value`,
or the default if it leads to none. -/
structure Follows (get : Json α → Option β) (json : Json α) (path : Text) (defaultValue : β) :
    Prop where
  bound : loopBound (StringUtil.split path ['.']).length + 1
    = (StringUtil.split path ['.']).length
  inside : read get json path defaultValue ≠ .outOfRange
  value : ∀ jv, Leads json path jv →
    ∃ v, get jv = some v ∧ read get json path defaultValue = .returned v
  default : (¬ ∃ jv, Leads json path jv) →
    read get json path defaultValue = .returned defaultValue

theorem split_dot (path : Text) : StringUtil.split path ['.'] = components path :=
  StringUtil.split_singleton '.' path

theorem follow_append (json : Json α) (ks ms : List Text) :
    follow json (ks ++ ms) = (follow json ks).bind fun jv => follow jv ms := by
  induction ks generalizing json with
  | nil => rfl
  | cons key ks ih =>
      rw [List.cons_append, follow, follow]
      rcases json.member key with - | child
      · rfl
      · exact ih child

/-- Arrived at a value, if there is one. -/
def Walk.ofOption : Option (Json α) → Walk α
  | some jv => .arrived jv
  | none => .missing

/-- Inside the vector the loop follows the keys. -/
theorem walk_eq (h : i + n ≤ vpath.length) :
    walk vpath n i jv = .ofOption (follow jv ((vpath.drop i).take n)) := by
  induction n generalizing i jv with
  | zero => rfl
  | succ n ih =>
      have hi : i < vpath.length := by omega
      rw [walk, List.getElem?_eq_getElem hi, List.drop_eq_getElem_cons hi, List.take_succ_cons,
        follow]
      rcases hm : jv.member vpath[i] with - | child
      · simp only [hm]
        rfl
      · simp only [hm]
        exact ih (by omega)

/-- Of a path with keys the last one is looked up behind the loop. -/
theorem readRef_eq (h : components path = ks ++ [key]) (json : Json α) :
    readRef json path = some ((follow json (ks ++ [key])).getD .null) := by
  have hbound : loopBound (ks ++ [key]).length = ks.length := by
    rw [loopBound, if_neg (by simp)]
    simp
  have hwalk : walk (ks ++ [key]) ks.length 0 json = .ofOption (follow json ks) := by
    rw [walk_eq (by simp), List.drop_zero, List.take_left]
  rw [readRef]
  simp only [split_dot, h, hbound, hwalk, follow_append]
  rcases follow json ks with - | jv
  · rfl
  · rcases hm : jv.member key with - | child
    · simp [Walk.ofOption, follow, hm]
    · simp [Walk.ofOption, follow, hm]

/-- A path without keys sends the loop outside of the vector at once. -/
theorem readRef_eq_none (h : components path = []) (json : Json α) : readRef json path = none := by
  rw [readRef]
  simp only [split_dot, h]
  rfl

theorem components_eq_nil_iff : components path = [] ↔ ∀ c ∈ path, c = '.' := by
  rw [← split_dot, StringUtil.split_singleton_eq_nil_iff]

/-- Of a path with keys, the value it leads to is converted. -/
theorem read_of_leads (hne : components path ≠ []) (h : Leads json path jv)
    (get : Json α → Option β) (defaultValue : β) :
    read get json path defaultValue = getValue get jv := by
  obtain ⟨ks, key, hlast⟩ := (List.eq_nil_or_concat (components path)).resolve_left hne
  rw [List.concat_eq_append] at hlast
  have hfollow : follow json (ks ++ [key]) = some jv := hlast ▸ h.1
  rw [read, readRef_eq hlast, hfollow]
  simp [h.2]

/-- Without such a value it is the default. -/
theorem read_of_not_leads (hne : components path ≠ []) (h : ¬ ∃ jv, Leads json path jv)
    (get : Json α → Option β) (defaultValue : β) :
    read get json path defaultValue = .returned defaultValue := by
  obtain ⟨ks, key, hlast⟩ := (List.eq_nil_or_concat (components path)).resolve_left hne
  rw [List.concat_eq_append] at hlast
  rw [read, readRef_eq hlast]
  rcases hf : follow json (ks ++ [key]) with - | jv
  · rfl
  · have hnull : jv.isNull = true := by
      by_contra hnot
      exact h ⟨jv, by rw [hlast, hf], by simpa using hnot⟩
    simp [hnull]

/-- **The path is followed, or the default returned**, exactly when the path
has a character other than the dot, and the value it leads to, if any, is one
that `get<Value>()` converts. -/
theorem read_follows_iff (get : Json α → Option β) (json : Json α) (path : Text)
    (defaultValue : β) :
    Follows get json path defaultValue ↔
      (∃ c ∈ path, c ≠ '.') ∧ ∀ jv, Leads json path jv → (get jv).isSome = true := by
  have hkeys : (∃ c ∈ path, c ≠ '.') ↔ components path ≠ [] := by
    rw [Ne, components_eq_nil_iff]
    simp
  rw [hkeys]
  constructor
  · intro h
    refine ⟨fun hnil => h.inside ?_, fun jv hjv => ?_⟩
    · rw [read, readRef_eq_none hnil]
    · obtain ⟨v, hv, -⟩ := h.value jv hjv
      rw [hv, Option.isSome_some]
  · rintro ⟨hne, hget⟩
    have hvalue : ∀ jv, Leads json path jv →
        ∃ v, get jv = some v ∧ read get json path defaultValue = .returned v := by
      intro jv hjv
      obtain ⟨v, hv⟩ := Option.isSome_iff_exists.mp (hget jv hjv)
      refine ⟨v, hv, ?_⟩
      rw [read_of_leads hne hjv, getValue, hv]
    refine ⟨?_, ?_, hvalue, fun hnone => read_of_not_leads hne hnone get defaultValue⟩
    · have hpos : 0 < (components path).length := List.length_pos_iff.mpr hne
      rw [split_dot, loopBound, if_neg (by omega)]
      omega
    · by_cases hjv : ∃ jv, Leads json path jv
      · obtain ⟨jv, hjv⟩ := hjv
        obtain ⟨v, -, hread⟩ := hvalue jv hjv
        simp [hread]
      · simp [read_of_not_leads hne hjv]

/-- `get<size_t>()` of a number. -/
def getSize : Json ℕ → Option ℕ
  | .scalar n => some n
  | _ => none

/-- The empty path: the bound is the largest `size_t`, and `vpath[0]` is read
of an empty vector. -/
theorem read_empty_path :
    read getSize (.object [(['a'], .scalar 1)]) [] 0 = .outOfRange ∧
      loopBound (StringUtil.split [] ['.']).length = 2 ^ 64 - 1 ∧
      ¬ Follows getSize (.object [(['a'], .scalar 1)]) [] 0 := by
  have hread : read getSize (.object [(['a'], .scalar 1)]) [] 0 = .outOfRange := by
    rw [read, readRef_eq_none rfl]
  exact ⟨hread, rfl, fun h => h.inside hread⟩

end JsonReader

end Play
