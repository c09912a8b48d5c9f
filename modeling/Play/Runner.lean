/-
Play/Runner.lean

`runner`: handlers on an io_context, with strands.

A handler is posted as it is, or with a key.  The key selects one of the 64
strands of the runner (`get_strand`), and a strand executes its handlers in
the order in which they were posted, one at a time: it is a lane of the queue
(Lanes.lean).  A pulse whose strand key is 0 posts without one.

Pulses get the id of their actor as the key.  An id is a byte that depends on
the clock above the low three bytes of the call number, and the strand only
looks at the last six bits: which strand an actor is on does not depend on the
clock (`getStrand_id`), and actors go round the strands in the order in which
they are made (`strands_of_ids`).
-/
import Play.Dispatch
import Play.Lanes
import Play.Snowflake

namespace Play

namespace Runner

/-- The default of `strand_count`. -/
def strandCount : ℕ := 64

/-- `runner::get_strand`: the index into `strands_`. -/
def getStrand (strandKey : ℕ) : ℕ :=
  strandKey % strandCount

/-- The strand on which `pulse::dispatch` posts, if any. -/
def lane {C F : Type} (q : Posted C F) : Option ℕ :=
  if q.strandKey = 0 then none else some (getStrand q.strandKey)

theorem lane_of_ne_zero {C F : Type} {q : Posted C F} {k : ℕ} (hk : k ≠ 0) (h : q.strandKey = k) :
    lane q = some (getStrand k) := by
  rw [lane, h, if_neg hk]

/-! ### The strands of actors -/

/-- The clock is above the bits that select the strand. -/
theorem getStrand_id {ts : List (BitVec 64)} {i : ℕ} {id : BitVec 64}
    (h : (Snowflake.ids {} ts)[i]? = some id) : getStrand id.toNat = (i + 1) % strandCount := by
  have hid := Snowflake.ids_getElem? 0 ts i
  change Option.map _ (Snowflake.ids {} ts)[i]? = _ at hid
  rw [h, zero_add, Option.map_some] at hid
  obtain ⟨t, -, ht⟩ := Option.map_eq_some_iff.mp hid.symm
  rw [getStrand, strandCount, ← ht]
  omega

/-- One turn of a counter around `n` places, from any start. -/
theorem range_map_mod_perm {n : ℕ} (hn : 0 < n) (a : ℕ) :
    ((List.range n).map fun i => (a + i) % n).Perm (List.range n) := by
  have hinj : ∀ i ∈ List.range n, ∀ j ∈ List.range n, (a + i) % n = (a + j) % n → i = j := by
    intro i hi j hj hij
    rw [List.mem_range] at hi hj
    have hmod : i % n = j % n := Nat.ModEq.add_left_cancel' a hij
    rwa [Nat.mod_eq_of_lt hi, Nat.mod_eq_of_lt hj] at hmod
  refine (List.subperm_of_subset (List.nodup_range.map_on hinj) ?_).perm_of_length_le (by simp)
  intro x hx
  obtain ⟨i, -, rfl⟩ := List.mem_map.mp hx
  exact List.mem_range.mpr (Nat.mod_lt _ hn)

/-- **Actors go round the strands.**  Whatever the clock said when they were
made, 64 actors made one after the other are on the 64 strands, one on each,
and two actors share a strand exactly if the number of calls between them is
a multiple of 64. -/
theorem strands_of_ids (ts : List (BitVec 64)) :
    (∀ a, a + strandCount ≤ ts.length →
      ((((Snowflake.ids {} ts).drop a).take strandCount).map
        fun id => getStrand id.toNat).Perm (List.range strandCount)) ∧
    ∀ {i j id id'}, (Snowflake.ids {} ts)[i]? = some id → (Snowflake.ids {} ts)[j]? = some id' →
      (getStrand id.toNat = getStrand id'.toNat ↔ i % strandCount = j % strandCount) := by
  constructor
  · intro a ha
    have hlen : (((Snowflake.ids {} ts).drop a).take strandCount).length = strandCount := by
      rw [List.length_take, List.length_drop, Snowflake.length_ids]
      omega
    suffices h : (((Snowflake.ids {} ts).drop a).take strandCount).map
        (fun id => getStrand id.toNat)
        = (List.range strandCount).map fun i => (a + 1 + i) % strandCount by
      rw [h]
      exact range_map_mod_perm (by decide) (a + 1)
    apply List.ext_getElem
    · rw [List.length_map, List.length_map, hlen, List.length_range]
    · intro i h₁ h₂
      rw [List.length_map, hlen] at h₁
      rw [List.getElem_map, List.getElem_map, List.getElem_range, List.getElem_take,
        List.getElem_drop, getStrand_id (List.getElem?_eq_getElem _), Nat.add_right_comm]
  · intro i j id id' hi hj
    rw [getStrand_id hi, getStrand_id hj]
    exact ⟨fun h => Nat.ModEq.add_right_cancel' 1 h, fun h => Nat.ModEq.add_right 1 h⟩

end Runner

end Play
