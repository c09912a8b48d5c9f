/-
Play/Maps.lean

Ordered maps as `std::map` offers them: `insertNew` is `insert`, which keeps
the old element when the key is there already, `erase` and `lookup` are
Mathlib's on `AList`, and `size` counts the elements.

The three `lookup` equations say what a map holds after an operation, key by
key; the two `size` equations count.  Nothing here knows what the keys and
values are.
-/
import Mathlib.Data.List.AList
import Mathlib.Tactic.Common

namespace Play

/-- A map from `K` to `V`, with no two elements of one key. -/
abbrev Map (K V : Type*) := AList fun _ : K => V

namespace Map

variable {K V : Type*} [DecidableEq K] {m : Map K V} {j k : K} {v w : V}

/-- `insert`: an element whose key is taken is not inserted. -/
def insertNew (m : Map K V) (k : K) (v : V) : Map K V :=
  if k ∈ m then m else AList.insert k v m

/-- The number of elements. -/
def size (m : Map K V) : ℕ := m.entries.length

theorem mem_iff_lookup : k ∈ m ↔ ∃ v, m.lookup k = some v := by
  rw [← AList.lookup_isSome, Option.isSome_iff_exists]

theorem insertNew_of_lookup (h : m.lookup k = some w) : m.insertNew k v = m :=
  if_pos (mem_iff_lookup.mpr ⟨w, h⟩)

theorem insertNew_of_not_mem (h : m.lookup k = none) :
    m.insertNew k v = AList.insert k v m :=
  if_neg (AList.lookup_eq_none.mp h)

/-- The inserted key has its old value if it had one. -/
theorem lookup_insertNew :
    (m.insertNew k v).lookup j
      = if j = k then some ((m.lookup k).getD v) else m.lookup j := by
  rcases e : m.lookup k with - | w
  · rw [insertNew_of_not_mem e]
    by_cases hj : j = k
    · subst hj
      simp
    · rw [if_neg hj, AList.lookup_insert_ne hj]
  · rw [insertNew_of_lookup e]
    by_cases hj : j = k
    · subst hj
      simp [e]
    · rw [if_neg hj]

theorem lookup_erase_eq :
    (m.erase k).lookup j = if j = k then none else m.lookup j := by
  by_cases hj : j = k
  · subst hj
    simp
  · rw [if_neg hj, AList.lookup_erase_ne hj]

theorem lookup_insertNew_eq_some :
    (m.insertNew k v).lookup j = some w ↔
      m.lookup j = some w ∨ j = k ∧ m.lookup k = none ∧ v = w := by
  rw [lookup_insertNew]
  by_cases hj : j = k
  · subst hj
    rcases e : m.lookup j with - | u <;> simp
  · simp [hj]

theorem lookup_erase_eq_some :
    (m.erase k).lookup j = some w ↔ j ≠ k ∧ m.lookup j = some w := by
  rw [lookup_erase_eq]
  by_cases hj : j = k <;> simp [hj]

theorem size_insertNew_of_not_mem (h : m.lookup k = none) :
    size (m.insertNew k v) = size m + 1 := by
  rw [insertNew_of_not_mem h, size, AList.entries_insert_of_notMem (AList.lookup_eq_none.mp h)]
  rfl

theorem size_erase_of_lookup (h : m.lookup k = some v) :
    size (m.erase k) + 1 = size m := by
  have hk : k ∈ m.keys := AList.mem_keys.mp (mem_iff_lookup.mpr ⟨v, h⟩)
  have hlen : (m.erase k).keys.length + 1 = m.keys.length := by
    rw [AList.keys_erase, List.length_erase_of_mem hk]
    have := List.length_pos_of_mem hk
    omega
  simpa [AList.keys, List.keys, size] using hlen

theorem size_eq_zero (h : ∀ k, m.lookup k = none) : size m = 0 := by
  rcases e : m.entries with - | ⟨⟨k, v⟩, rest⟩
  · rw [size, e]
    rfl
  · have hk : k ∈ m.keys := by
      rw [AList.keys, List.keys, e]
      exact List.mem_cons_self
    exact absurd (AList.mem_keys.mp hk) (AList.lookup_eq_none.mp (h k))

end Map

end Play
