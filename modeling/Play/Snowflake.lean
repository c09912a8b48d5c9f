/-
Play/Snowflake.lean

The ids of `dynamic_snowflake`.

`next` takes the elapsed milliseconds, moves them up by 24 bits, keeps 32 bits
of the result and puts the call counter on top with an OR.  One byte of the
time is left, and the counter is not cut to the three bytes under it: its own
top byte lies over the byte of the time.

So an id has two parts, the low three bytes of the counter and one byte that
mixes the time with the counter.  Two calls get the same id exactly when both
parts agree (`ids_unique_iff`), which the time alone does not exclude: calls
that are 2²⁴ apart may see the same byte however far apart in time they are
(`sparseReadings_collide`).
-/
import Mathlib.Data.BitVec
import Mathlib.Data.List.Nodup
import Mathlib.Order.Monotone.Basic

namespace Play

/-- The generator: `seq_`. -/
structure Snowflake where
  seq : BitVec 32 := 0

namespace Snowflake

/-- `dynamic_snowflake::next` at the elapsed milliseconds `elapsed`: the
generator afterwards and the id.  The local `seq` that the source masks is not
part of the result. -/
def next (s : Snowflake) (elapsed : BitVec 64) : Snowflake × BitVec 64 :=
  let half := (elapsed <<< 24) &&& 0xFFFFFFFF#64
  let seq := s.seq + 1
  ({ s with seq }, half ||| seq.setWidth 64)

/-- The ids that the calls at the readings `ts` return, in their order. -/
def ids : Snowflake → List (BitVec 64) → List (BitVec 64)
  | _, [] => []
  | s, t :: ts => (s.next t).2 :: (s.next t).1.ids ts

/-- Ids that never repeat, and 0 is none of them. -/
def Unique (out : List (BitVec 64)) : Prop :=
  out.Nodup ∧ 0 ∉ out

/-- The number of calls made in the millisecond `ms`. -/
def callsIn (ts : List (BitVec 64)) (ms : BitVec 64) : ℕ :=
  ts.count ms

/-! ### The two parts of an id -/

/-- The byte that the call number `n` and the time share. -/
def mixed (t : BitVec 64) (n : ℕ) : ℕ :=
  (t.toNat % 2 ^ 8) ||| (n / 2 ^ 24 % 2 ^ 8)

theorem half_toNat (t : BitVec 64) :
    ((t <<< 24) &&& 0xFFFFFFFF#64).toNat = 2 ^ 24 * (t.toNat % 2 ^ 8) := by
  have hmask : (0xFFFFFFFF#64).toNat = 2 ^ 32 - 1 := rfl
  rw [BitVec.toNat_and, BitVec.toNat_shiftLeft, hmask, Nat.and_two_pow_sub_one_eq_mod,
    Nat.shiftLeft_eq]
  omega

theorem id_toNat (t : BitVec 64) (n : ℕ) :
    (((t <<< 24) &&& 0xFFFFFFFF#64) ||| (BitVec.ofNat 32 n).setWidth 64).toNat
      = 2 ^ 24 * mixed t n + n % 2 ^ 24 := by
  have hseq : ((BitVec.ofNat 32 n).setWidth 64).toNat
      = 2 ^ 24 * (n / 2 ^ 24 % 2 ^ 8) + n % 2 ^ 24 := by
    rw [BitVec.toNat_setWidth, BitVec.toNat_ofNat]
    omega
  have hlow : n % 2 ^ 24 < 2 ^ 24 := Nat.mod_lt _ (by decide)
  rw [BitVec.toNat_or, half_toNat, hseq, Nat.two_pow_add_eq_or_of_lt hlow,
    Nat.two_pow_add_eq_or_of_lt hlow, ← Nat.or_assoc, mixed]
  congr 1
  rw [mul_comm, mul_comm _ (n / 2 ^ 24 % 2 ^ 8), mul_comm _ (_ ||| _), ← Nat.shiftLeft_eq,
    ← Nat.shiftLeft_eq, ← Nat.shiftLeft_eq, Nat.shiftLeft_or_distrib]

/-- The call at the reading `t` of a generator that has made `n` calls. -/
theorem next_toNat (n : ℕ) (t : BitVec 64) :
    (Snowflake.next ⟨BitVec.ofNat 32 n⟩ t).1 = ⟨BitVec.ofNat 32 (n + 1)⟩ ∧
      (Snowflake.next ⟨BitVec.ofNat 32 n⟩ t).2.toNat
        = 2 ^ 24 * mixed t (n + 1) + (n + 1) % 2 ^ 24 := by
  have hseq : BitVec.ofNat 32 n + 1 = BitVec.ofNat 32 (n + 1) := (BitVec.ofNat_add n 1).symm
  refine ⟨?_, ?_⟩
  · rw [next, hseq]
  · rw [next, hseq]
    exact id_toNat t (n + 1)

/-! ### All the ids of a run -/

theorem ids_getElem? (n : ℕ) (ts : List (BitVec 64)) (i : ℕ) :
    ((ids ⟨BitVec.ofNat 32 n⟩ ts)[i]?.map BitVec.toNat)
      = ts[i]?.map fun t => 2 ^ 24 * mixed t (n + i + 1) + (n + i + 1) % 2 ^ 24 := by
  induction ts generalizing n i with
  | nil => rfl
  | cons t ts ih =>
      obtain ⟨hstate, hid⟩ := next_toNat n t
      rw [ids]
      cases i with
      | zero => exact congrArg some hid
      | succ i =>
          rw [List.getElem?_cons_succ, List.getElem?_cons_succ, hstate, ih,
            Nat.add_right_comm n 1 i]
          rfl

theorem length_ids (s : Snowflake) (ts : List (BitVec 64)) : (s.ids ts).length = ts.length := by
  induction ts generalizing s with
  | nil => rfl
  | cons t ts ih => rw [ids, List.length_cons, List.length_cons, ih]

variable {ts : List (BitVec 64)}

theorem id_eq_iff {i j : ℕ} {t u : BitVec 64} (hi : ts[i]? = some t) (hj : ts[j]? = some u) :
    (ids {} ts)[i]? = (ids {} ts)[j]? ↔
      (i + 1) % 2 ^ 24 = (j + 1) % 2 ^ 24 ∧ mixed t (i + 1) = mixed u (j + 1) := by
  have hinj : Function.Injective (Option.map (BitVec.toNat (w := 64))) :=
    Option.map_injective BitVec.toNat_injective
  have hidᵢ := ids_getElem? 0 ts i
  have hidⱼ := ids_getElem? 0 ts j
  rw [hi, zero_add] at hidᵢ
  rw [hj, zero_add] at hidⱼ
  rw [← hinj.eq_iff]
  change Option.map _ (ids ⟨BitVec.ofNat 32 0⟩ ts)[i]?
    = Option.map _ (ids ⟨BitVec.ofNat 32 0⟩ ts)[j]? ↔ _
  rw [hidᵢ, hidⱼ, Option.map_some, Option.map_some, Option.some.injEq]
  omega

theorem id_eq_zero_iff {i : ℕ} {t : BitVec 64} (hi : ts[i]? = some t) :
    (ids {} ts)[i]? = some 0#64 ↔ (i + 1) % 2 ^ 32 = 0 ∧ t.toNat % 2 ^ 8 = 0 := by
  have hinj : Function.Injective (Option.map (BitVec.toNat (w := 64))) :=
    Option.map_injective BitVec.toNat_injective
  have hid := ids_getElem? 0 ts i
  rw [hi, zero_add] at hid
  rw [← hinj.eq_iff]
  change Option.map _ (ids ⟨BitVec.ofNat 32 0⟩ ts)[i]? = _ ↔ _
  rw [hid, Option.map_some, Option.map_some, Option.some.injEq, BitVec.toNat_zero, mixed,
    Nat.add_eq_zero_iff, Nat.mul_eq_zero, Nat.or_eq_zero_iff]
  omega

/-- Where the calls fall in time so that their ids differ: calls with the same
low three bytes of their number differ in the mixed byte, and a call whose
number ends in four bytes of zeros is not at a multiple of 256 milliseconds. -/
structure Spread (ts : List (BitVec 64)) : Prop where
  apart : ∀ {i j t u}, i < j → ts[i]? = some t → ts[j]? = some u →
    (i + 1) % 2 ^ 24 = (j + 1) % 2 ^ 24 → mixed t (i + 1) ≠ mixed u (j + 1)
  off_zero : ∀ {i t}, ts[i]? = some t → (i + 1) % 2 ^ 32 = 0 → t.toNat % 2 ^ 8 ≠ 0

theorem nodup_ids_iff :
    (ids {} ts).Nodup ↔ ∀ {i j t u}, i < j → ts[i]? = some t → ts[j]? = some u →
      (i + 1) % 2 ^ 24 = (j + 1) % 2 ^ 24 → mixed t (i + 1) ≠ mixed u (j + 1) := by
  rw [List.nodup_iff_getElem?_ne_getElem?]
  constructor
  · intro h i j t u hij hi hj hlow hmix
    obtain ⟨hlt, -⟩ := List.getElem?_eq_some_iff.mp hj
    rw [← length_ids {} ts] at hlt
    exact h i j hij hlt ((id_eq_iff hi hj).mpr ⟨hlow, hmix⟩)
  · intro h i j hij hj heq
    rw [length_ids] at hj
    have hi := List.getElem?_eq_getElem (hij.trans hj)
    have hj := List.getElem?_eq_getElem hj
    obtain ⟨hlow, hmix⟩ := (id_eq_iff hi hj).mp heq
    exact h hij hi hj hlow hmix

theorem zero_notMem_ids_iff :
    0 ∉ ids {} ts ↔ ∀ {i t}, ts[i]? = some t → (i + 1) % 2 ^ 32 = 0 → t.toNat % 2 ^ 8 ≠ 0 := by
  rw [List.mem_iff_getElem?]
  constructor
  · intro h i t hi hnum hzero
    exact h ⟨i, (id_eq_zero_iff hi).mpr ⟨hnum, hzero⟩⟩
  · rintro h ⟨i, hid⟩
    obtain ⟨hlt, -⟩ := List.getElem?_eq_some_iff.mp hid
    rw [length_ids] at hlt
    have hi := List.getElem?_eq_getElem hlt
    obtain ⟨hnum, hzero⟩ := (id_eq_zero_iff hi).mp hid
    exact h hi hnum hzero

/-- The ids of a process are unique exactly when its calls are spread. -/
theorem ids_unique_iff (ts : List (BitVec 64)) : Unique (ids {} ts) ↔ Spread ts := by
  rw [Unique, nodup_ids_iff, zero_notMem_ids_iff]
  exact ⟨fun h => ⟨h.1, h.2⟩, fun h => ⟨h.apart, h.off_zero⟩⟩

/-- Fewer than 2²⁴ calls in the life of a process are always spread. -/
theorem spread_of_length_lt (h : ts.length < 2 ^ 24) : Spread ts := by
  constructor
  · intro i j t u hij hi hj hlow
    obtain ⟨hlt, -⟩ := List.getElem?_eq_some_iff.mp hj
    omega
  · intro i t hi hnum
    obtain ⟨hlt, -⟩ := List.getElem?_eq_some_iff.mp hi
    omega

/-! ### Calls far apart -/

/-- One call every 256 milliseconds. -/
def sparseReadings (n : ℕ) : List (BitVec 64) :=
  (List.range n).map fun i => BitVec.ofNat 64 (256 * i + 1)

theorem sparseReadings_lt {n : ℕ} (hn : n ≤ 2 ^ 32) :
    (sparseReadings n).Pairwise (· < ·) := by
  rw [sparseReadings, List.pairwise_map]
  refine List.pairwise_lt_range.imp_of_mem fun {i j} hi hj hij => ?_
  rw [List.mem_range] at hi hj
  rw [BitVec.lt_def, BitVec.toNat_ofNat, BitVec.toNat_ofNat]
  omega

theorem sparseReadings_getElem? {n i : ℕ} (hi : i < n) :
    (sparseReadings n)[i]? = some (BitVec.ofNat 64 (256 * i + 1)) := by
  rw [sparseReadings, List.getElem?_map, List.getElem?_range hi, Option.map_some]

/-- One call every 256 milliseconds: the first one and the one 2²⁴ calls later
return the same id. -/
theorem sparseReadings_collide :
    (sparseReadings (2 ^ 24 + 1)).Pairwise (· ≤ ·) ∧
      (∀ ms, callsIn (sparseReadings (2 ^ 24 + 1)) ms < 2 ^ 24) ∧
      ¬ Unique (ids {} (sparseReadings (2 ^ 24 + 1))) := by
  have hlt : (sparseReadings (2 ^ 24 + 1)).Pairwise (· < ·) := sparseReadings_lt (by omega)
  refine ⟨hlt.imp fun h => BitVec.le_of_lt h, fun ms => ?_, ?_⟩
  · have honce : callsIn (sparseReadings (2 ^ 24 + 1)) ms ≤ 1 :=
      List.nodup_iff_count_le_one.mp (hlt.imp fun h => BitVec.ne_of_lt h) ms
    omega
  · rintro ⟨hnodup, -⟩
    have hfirst := sparseReadings_getElem? (n := 2 ^ 24 + 1) (i := 0) (by omega)
    have hlast := sparseReadings_getElem? (n := 2 ^ 24 + 1) (i := 2 ^ 24) (by omega)
    exact nodup_ids_iff.mp hnodup (by omega) hfirst hlast (by decide) (by decide)

end Snowflake
end Play
