/-
Play/ObjectPool.lean

`object_pool<T>`: blocks for objects of one type, handed out as `shared_ptr`s
that give them back.

`construct` takes the first block of the deque, or a new one, and makes an
object in it; when the last `shared_ptr` to the object goes, the deleter runs
`~T` on it and `release` puts the block at the end of the deque.  Neither the
object nor the block is `delete`d before the pool itself goes: then every
block in the deque is.

* No block is ever in two hands (`Sane`), and the two counters tell how many
  objects are in use.  The size that `get_pool_size` returns is written by
  `release` only; `accounts_iff` says that it is right as long as `construct`
  takes no block out of the deque.
* `delete` runs `~T` on whatever object was in the block last, although the
  deleter has done so already.  `Counted` counts: two for the last object of
  each block, one for all others.

Blocks and objects are numbered in the order in which they are made.
-/
import Mathlib.Data.List.Count
import Mathlib.Data.List.Nodup
import Mathlib.Logic.Function.Basic
import Play.Runs

namespace Play

/-! ### The object -/

/-- `object_pool<T>`, the memory it has and the objects made in it. -/
structure ObjectPool where
  pool : List ℕ := []
  allocCount : ℕ := 0
  freeCount : ℕ := 0
  poolSize : ℕ := 0
  -- how many blocks there are, and the object made last in each
  blocks : ℕ := 0
  occupant : ℕ → ℕ := fun _ => 0
  -- the blocks of the objects made so far, and the objects in use
  objects : List ℕ := []
  inUse : List ℕ := []
  /-- How often `~T` ran on an object. -/
  destructed : ℕ → ℕ := fun _ => 0
  gone : Bool := false

namespace ObjectPool

/-- The block of an object. -/
def blockOf (s : ObjectPool) (k : ℕ) : ℕ := s.objects.getD k 0

/-- `new (p) T(...)`, held by a `shared_ptr`. -/
def place (s : ObjectPool) (p : ℕ) : ObjectPool :=
  { s with
    objects := s.objects ++ [p]
    inUse := s.objects.length :: s.inUse
    occupant := Function.update s.occupant p s.objects.length }

/-- The block that `construct` hands out next. -/
def nextBlock (s : ObjectPool) : ℕ := s.pool.headD s.blocks

/-- `object_pool::construct`. -/
def construct (s : ObjectPool) : ObjectPool :=
  match s.pool with
  | [] => { s with allocCount := s.allocCount + 1, blocks := s.blocks + 1 }.place s.blocks
  | p :: rest => { s with allocCount := s.allocCount + 1, pool := rest }.place p

/-- `object_pool::construct` when the constructor of `T` throws: a new block is
freed again, and one of the deque stays there. -/
def constructThrows (s : ObjectPool) : ObjectPool := { s with allocCount := s.allocCount + 1 }

/-- `object_pool::release`. -/
def release (s : ObjectPool) (p : ℕ) : ObjectPool :=
  { s with
    freeCount := s.freeCount + 1
    pool := s.pool ++ [p]
    poolSize := (s.pool ++ [p]).length }

/-- `~T` on an object. -/
def destruct (destructed : ℕ → ℕ) (k : ℕ) : ℕ → ℕ :=
  Function.update destructed k (destructed k + 1)

/-- The deleter of the last `shared_ptr` to an object. -/
def drop (s : ObjectPool) (k : ℕ) : ObjectPool :=
  { s with destructed := destruct s.destructed k, inUse := s.inUse.erase k }.release (s.blockOf k)

/-- `~object_pool`: `delete` runs `~T` once more in every block of the deque. -/
def destroy (s : ObjectPool) : ObjectPool :=
  { s with
    destructed := s.pool.foldl (fun d p => destruct d (s.occupant p)) s.destructed
    gone := true }

/-! ### Steps -/

/-- What happens to a pool. -/
inductive Step
  | construct
  | constructThrows
  | drop (k : ℕ)
  | destroy
  deriving DecidableEq

/-- The step function.  Only an object in use is dropped, and the pool goes
when all `shared_ptr`s are gone. -/
def step (s : ObjectPool) (l : Step) : Option ObjectPool :=
  if s.gone then none
  else
    match l with
    | .construct => some s.construct
    | .constructThrows => some s.constructThrows
    | .drop k => if k ∈ s.inUse then some (s.drop k) else none
    | .destroy => if s.inUse = [] then some s.destroy else none

variable {s s' : ObjectPool} {l : Step} {ls : List Step}

/-- What a step can do. -/
theorem step_cases (h : s.step l = some s') :
    s.gone = false ∧
      ((l = .construct ∧ s' = s.construct) ∨
       (l = .constructThrows ∧ s' = s.constructThrows) ∨
       (∃ k ∈ s.inUse, l = .drop k ∧ s' = s.drop k) ∨
       (l = .destroy ∧ s.inUse = [] ∧ s' = s.destroy)) := by
  unfold step at h
  split at h
  · cases h
  · next hgone =>
      refine ⟨by simpa using hgone, ?_⟩
      cases l with
      | construct => exact .inl ⟨rfl, (Option.some.inj h).symm⟩
      | constructThrows => exact .inr (.inl ⟨rfl, (Option.some.inj h).symm⟩)
      | drop k =>
          simp only [Option.ite_none_right_eq_some, Option.some.injEq] at h
          exact .inr (.inr (.inl ⟨k, h.1, rfl, h.2.symm⟩))
      | destroy =>
          simp only [Option.ite_none_right_eq_some, Option.some.injEq] at h
          exact .inr (.inr (.inr ⟨rfl, h.1, h.2.symm⟩))

/-! ### Every block is in one place -/

/-- The blocks of the deque, and those of the objects in use. -/
def places (s : ObjectPool) : List ℕ := s.pool ++ s.inUse.map s.blockOf

/-- Every block is once in the deque or under an object in use, and its
occupant is the last object made in it. -/
structure Sane (s : ObjectPool) : Prop where
  once : s.places.Nodup
  all : ∀ p, p ∈ s.places ↔ p < s.blocks
  made : ∀ k ∈ s.inUse, k < s.objects.length
  within : ∀ k < s.objects.length, s.blockOf k < s.blocks
  last : ∀ p < s.blocks, s.occupant p < s.objects.length ∧ s.blockOf (s.occupant p) = p ∧
    ∀ k < s.objects.length, s.blockOf k = p → k ≤ s.occupant p
  holder : ∀ k ∈ s.inUse, s.occupant (s.blockOf k) = k

theorem sane_new : Sane {} :=
  ⟨List.nodup_nil, fun p => by simp [places], by simp, by simp, by simp, by simp⟩

theorem blockOf_place_of_lt {k : ℕ} (hk : k < s.objects.length) (p : ℕ) :
    (s.place p).blockOf k = s.blockOf k := by
  simp only [blockOf, place, List.getD_eq_getElem?_getD, List.getElem?_append_left hk]

theorem blockOf_place_self (s : ObjectPool) (p : ℕ) :
    (s.place p).blockOf s.objects.length = p := by
  simp [blockOf, place]

theorem places_place (hmade : ∀ k ∈ s.inUse, k < s.objects.length) (p : ℕ) :
    (s.place p).places.Perm (p :: s.places) := by
  have hmap : s.inUse.map (s.place p).blockOf = s.inUse.map s.blockOf :=
    List.map_congr_left fun k hk => blockOf_place_of_lt (hmade k hk) p
  show (s.pool ++ (s.objects.length :: s.inUse).map (s.place p).blockOf).Perm _
  rw [List.map_cons, blockOf_place_self, hmap]
  exact List.perm_middle

/-- A new object in a block that nobody has. -/
theorem Sane.place {p : ℕ} (honce : (p :: s.places).Nodup)
    (hall : ∀ q, q ∈ p :: s.places ↔ q < s.blocks)
    (hmade : ∀ k ∈ s.inUse, k < s.objects.length)
    (hwithin : ∀ k < s.objects.length, s.blockOf k < s.blocks)
    (hlast : ∀ q < s.blocks, q ≠ p → s.occupant q < s.objects.length ∧
      s.blockOf (s.occupant q) = q ∧ ∀ k < s.objects.length, s.blockOf k = q → k ≤ s.occupant q)
    (hholder : ∀ k ∈ s.inUse, s.occupant (s.blockOf k) = k) : Sane (s.place p) := by
  have hperm := places_place hmade p
  have hlen : (s.place p).objects.length = s.objects.length + 1 := by simp [ObjectPool.place]
  have hp : p < s.blocks := (hall p).mp List.mem_cons_self
  have hocc : (s.place p).occupant p = s.objects.length := Function.update_self ..
  have hocc' : ∀ {q}, q ≠ p → (s.place p).occupant q = s.occupant q :=
    fun hq => Function.update_of_ne hq ..
  refine ⟨hperm.nodup_iff.mpr honce, fun q => hperm.mem_iff.trans (hall q), ?_, ?_, ?_, ?_⟩
  · intro k hk
    rw [hlen]
    rcases List.mem_cons.mp hk with rfl | hk
    · exact Nat.lt_succ_self _
    · exact Nat.lt_succ_of_lt (hmade k hk)
  · intro k hk
    rw [hlen] at hk
    rcases Nat.lt_succ_iff_lt_or_eq.mp hk with hk | rfl
    · rw [blockOf_place_of_lt hk]
      exact hwithin k hk
    · rw [blockOf_place_self]
      exact hp
  · intro q hq
    rw [hlen]
    by_cases hqp : q = p
    · rw [hqp, hocc, blockOf_place_self]
      exact ⟨Nat.lt_succ_self _, rfl, fun k hk _ => Nat.le_of_lt_succ hk⟩
    · obtain ⟨hlt, hblock, hmax⟩ := hlast q hq hqp
      rw [hocc' hqp, blockOf_place_of_lt hlt]
      refine ⟨Nat.lt_succ_of_lt hlt, hblock, fun k hk hkq => ?_⟩
      rcases Nat.lt_succ_iff_lt_or_eq.mp hk with hk | rfl
      · rw [blockOf_place_of_lt hk] at hkq
        exact hmax k hk hkq
      · rw [blockOf_place_self] at hkq
        exact absurd hkq.symm hqp
  · intro k hk
    rcases List.mem_cons.mp hk with rfl | hk
    · rw [blockOf_place_self, hocc]
    · -- the block of an object in use is not the one handed out
      have hne : s.blockOf k ≠ p := by
        intro e
        apply (List.nodup_cons.mp honce).1
        rw [← e]
        exact List.mem_append_right _ (List.mem_map_of_mem hk)
      rw [blockOf_place_of_lt (hmade k hk), hocc' hne]
      exact hholder k hk

theorem Sane.construct (hs : Sane s) : Sane s.construct := by
  unfold ObjectPool.construct
  split
  · next hpool =>
      refine Sane.place ?_ ?_ hs.made ?_ ?_ hs.holder
      · refine List.nodup_cons.mpr ⟨fun hmem => ?_, hs.once⟩
        exact lt_irrefl _ ((hs.all s.blocks).mp hmem)
      · intro q
        show q ∈ s.blocks :: s.places ↔ q < s.blocks + 1
        rw [List.mem_cons, hs.all, Nat.lt_succ_iff_lt_or_eq, or_comm]
      · exact fun k hk => Nat.lt_succ_of_lt (hs.within k hk)
      · intro q hq hne
        exact hs.last q (lt_of_le_of_ne (Nat.le_of_lt_succ hq) hne)
  · next p rest hpool =>
      have hplaces : s.places = p :: (rest ++ s.inUse.map s.blockOf) := by
        rw [places, hpool, List.cons_append]
      refine Sane.place ?_ ?_ hs.made hs.within (fun q hq _ => hs.last q hq) hs.holder
      · exact hplaces ▸ hs.once
      · exact fun q => hplaces ▸ hs.all q

theorem places_drop {k : ℕ} (hk : k ∈ s.inUse) : (s.drop k).places.Perm s.places := by
  show ((s.pool ++ [s.blockOf k]) ++ (s.inUse.erase k).map s.blockOf).Perm
    (s.pool ++ s.inUse.map s.blockOf)
  rw [List.append_assoc]
  apply List.Perm.append_left
  exact ((List.perm_cons_erase hk).map s.blockOf).symm

theorem Sane.drop (hs : Sane s) {k : ℕ} (hk : k ∈ s.inUse) : Sane (s.drop k) := by
  have hperm := places_drop hk
  refine ⟨hperm.nodup_iff.mpr hs.once, fun p => hperm.mem_iff.trans (hs.all p), ?_, hs.within,
    hs.last, ?_⟩
  · exact fun j hj => hs.made j (List.mem_of_mem_erase hj)
  · exact fun j hj => hs.holder j (List.mem_of_mem_erase hj)

/-- **No block is in two hands** after any step. -/
theorem Sane.step (hs : Sane s) (h : s.step l = some s') : Sane s' := by
  obtain ⟨-, ⟨-, rfl⟩ | ⟨-, rfl⟩ | ⟨k, hk, -, rfl⟩ | ⟨-, -, rfl⟩⟩ := step_cases h
  · exact hs.construct
  · exact ⟨hs.once, hs.all, hs.made, hs.within, hs.last, hs.holder⟩
  · exact hs.drop hk
  · exact ⟨hs.once, hs.all, hs.made, hs.within, hs.last, hs.holder⟩

/-! ### Accounting -/

/-- No block is twice in the deque, or there and in use, and the one that
`construct` hands out next is not in use. -/
structure Apart (s : ObjectPool) : Prop where
  free : s.pool.Nodup
  inUse : ∀ k ∈ s.inUse, s.blockOf k ∉ s.pool
  next : ∀ k ∈ s.inUse, s.blockOf k ≠ s.nextBlock

/-- `get_alloc_count()` minus `get_free_count()` is the number of objects in
use. -/
def CountsInUse (s : ObjectPool) : Prop :=
  s.freeCount ≤ s.allocCount ∧ s.allocCount - s.freeCount = s.inUse.length

/-- All that the pool tells about itself is right. -/
structure Accounts (s : ObjectPool) : Prop where
  apart : Apart s
  counts : CountsInUse s
  /-- `get_pool_size()` is the number of blocks in the deque. -/
  size : s.poolSize = s.pool.length

/-- The step takes no block out of the deque, and no constructor throws. -/
def LeavesPool (s : ObjectPool) : Step → Prop
  | .construct => s.pool = []
  | .constructThrows => False
  | .drop _ | .destroy => True

instance (s : ObjectPool) : (l : Step) → Decidable (LeavesPool s l)
  | .construct => inferInstanceAs (Decidable (s.pool = []))
  | .constructThrows => isFalse id
  | .drop _ | .destroy => isTrue trivial

theorem Sane.apart (hs : Sane s) : Apart s := by
  obtain ⟨hfree, -, hdisjoint⟩ := List.nodup_append.mp hs.once
  have hinUse : ∀ k ∈ s.inUse, s.blockOf k ∉ s.pool :=
    fun k hk hmem => hdisjoint _ hmem _ (List.mem_map_of_mem hk) rfl
  refine ⟨hfree, hinUse, fun k hk e => ?_⟩
  rcases hpool : s.pool with - | ⟨p, rest⟩
  · have hlt := hs.within k (hs.made k hk)
    rw [e, nextBlock, hpool] at hlt
    exact lt_irrefl _ hlt
  · apply hinUse k hk
    rw [e, nextBlock, hpool]
    exact List.mem_cons_self

/-- What `construct` does, whichever block it takes. -/
theorem construct_spec (s : ObjectPool) :
    s.construct.allocCount = s.allocCount + 1 ∧ s.construct.freeCount = s.freeCount ∧
      s.construct.objects.length = s.objects.length + 1 ∧
      s.construct.inUse = s.objects.length :: s.inUse ∧
      s.construct.destructed = s.destructed ∧ s.construct.gone = s.gone := by
  unfold construct
  split <;> simp [place]

theorem countsInUse_construct (hs : CountsInUse s) : CountsInUse s.construct := by
  obtain ⟨hle, heq⟩ := hs
  obtain ⟨halloc, hfree, -, hinUse, -, -⟩ := construct_spec s
  rw [CountsInUse, halloc, hfree, hinUse, List.length_cons]
  omega

theorem countsInUse_drop (hs : CountsInUse s) {k : ℕ} (hk : k ∈ s.inUse) :
    CountsInUse (s.drop k) := by
  obtain ⟨hle, heq⟩ := hs
  have hlen := List.length_erase_of_mem hk
  have hpos := List.length_pos_of_mem hk
  constructor
  · show s.freeCount + 1 ≤ s.allocCount
    omega
  · show s.allocCount - (s.freeCount + 1) = (s.inUse.erase k).length
    omega

/-- What does not depend on `get_pool_size`. -/
theorem sane_countsInUse_step (hs : Sane s ∧ CountsInUse s) (hl : l ≠ .constructThrows)
    (h : s.step l = some s') : Sane s' ∧ CountsInUse s' := by
  refine ⟨hs.1.step h, ?_⟩
  obtain ⟨-, ⟨-, rfl⟩ | ⟨rfl, -⟩ | ⟨k, hk, -, rfl⟩ | ⟨-, -, rfl⟩⟩ := step_cases h
  · exact countsInUse_construct hs.2
  · exact absurd rfl hl
  · exact countsInUse_drop hs.2 hk
  · exact hs.2

theorem size_step (hs : s.poolSize = s.pool.length) (hl : LeavesPool s l)
    (h : s.step l = some s') : s'.poolSize = s'.pool.length := by
  obtain ⟨-, ⟨rfl, rfl⟩ | ⟨rfl, -⟩ | ⟨k, hk, -, rfl⟩ | ⟨-, -, rfl⟩⟩ := step_cases h
  · have hpool : s.pool = [] := hl
    rw [hpool] at hs
    simpa [construct, hpool, place] using hs
  · exact absurd hl id
  · rfl
  · exact hs

/-- A block that is taken out of the deque is still counted. -/
theorem not_accounts_of_step (hs : Accounts s) (hl : ¬ LeavesPool s l)
    (h : s.step l = some s') : ¬ Accounts s' := by
  intro hs'
  obtain ⟨-, ⟨rfl, rfl⟩ | ⟨rfl, rfl⟩ | ⟨k, hk, rfl, -⟩ | ⟨rfl, -⟩⟩ := step_cases h
  · obtain ⟨p, rest, hpool⟩ := List.exists_cons_of_ne_nil hl
    have hsize := hs.size
    have hsize' := hs'.size
    simp only [construct, hpool, place, List.length_cons] at hsize hsize'
    omega
  · obtain ⟨hle, heq⟩ := hs.counts
    obtain ⟨-, heq'⟩ := hs'.counts
    simp only [constructThrows] at heq'
    omega
  · exact hl trivial
  · exact hl trivial

/-- **The accounts are right** in every state of a run exactly when no
`construct` of it takes a block out of the deque or throws.  Without a throw,
blocks and counters are right all the same. -/
theorem accounts_iff (h : runSteps step {} ls = some s) :
    (Always step Accounts {} ls ↔ Along step LeavesPool {} ls) ∧
      (.constructThrows ∉ ls → Always step (fun t => Apart t ∧ CountsInUse t) {} ls) := by
  have hnew : Sane {} ∧ CountsInUse {} := ⟨sane_new, Nat.le_refl 0, rfl⟩
  constructor
  · refine always_iff_along (I := fun t => (Sane t ∧ CountsInUse t) ∧ t.poolSize = t.pool.length)
      (fun ht => ⟨ht.1.1.apart, ht.1.2, ht.2⟩) ?_ ?_ ⟨hnew, rfl⟩ h
    · intro t l t' ht hl hstep
      have hthrow : l ≠ .constructThrows := by
        rintro rfl
        exact hl
      exact ⟨sane_countsInUse_step ht.1 hthrow hstep, size_step ht.2 hl hstep⟩
    · intro t l t' ht hl hstep
      exact not_accounts_of_step ⟨ht.1.1.apart, ht.1.2, ht.2⟩ hl hstep
  · intro hthrow pre t hpre hrun
    have hpre' : ∀ l ∈ pre, ∀ _ : ObjectPool, l ≠ .constructThrows := by
      rintro l hl - rfl
      exact hthrow (hpre.subset hl)
    have ht := (along_of_forall hpre').invariant sane_countsInUse_step hnew hrun
    exact ⟨ht.1.apart, ht.2⟩

/-- Two objects, given back in the other order. -/
theorem accounts_two_objects :
    Always step Accounts {} [.construct, .construct, .drop 1, .drop 0] :=
  (accounts_iff rfl).1.mpr (by decide)

/-- A block that is handed out again: the deque is empty, and the size is 1. -/
theorem accounts_recycled :
    ∃ s, runSteps step {} [.construct, .drop 0, .construct] = some s ∧ s.pool = [] ∧
      s.poolSize = 1 ∧ ¬ Always step Accounts {} [.construct, .drop 0, .construct] := by
  refine ⟨_, rfl, rfl, rfl, fun hall => ?_⟩
  have := (hall _ _ (List.prefix_refl _) rfl).size
  cases this

/-! ### Destructors -/

/-- How often `~T` runs on an object while the blocks `ps` are deleted. -/
theorem foldl_destruct (occupant d : ℕ → ℕ) (ps : List ℕ) (k : ℕ) :
    ps.foldl (fun d p => destruct d (occupant p)) d k
      = d k + ps.countP fun p => decide (occupant p = k) := by
  induction ps generalizing d with
  | nil => rfl
  | cons p ps ih =>
      rw [List.foldl_cons, ih, List.countP_cons, destruct]
      by_cases hp : occupant p = k
      · rw [hp, Function.update_self]
        simp only [decide_true, if_true]
        omega
      · rw [Function.update_of_ne (Ne.symm hp)]
        simp [hp]

/-- An object that is in the deque's block is found there once, if it is the
last one made in it. -/
theorem Sane.countP_occupant (hs : Sane s) (hidle : s.inUse = []) {k : ℕ}
    (hk : k < s.objects.length) :
    (s.pool.countP fun p => decide (s.occupant p = k))
      = if s.occupant (s.blockOf k) = k then 1 else 0 := by
  have hplaces : s.places = s.pool := by simp [places, hidle]
  have hnodup : s.pool.Nodup := hplaces ▸ hs.once
  have hmem : s.blockOf k ∈ s.pool := hplaces ▸ (hs.all _).mpr (hs.within k hk)
  split
  · next hocc =>
      have hcount : (s.pool.countP fun p => decide (s.occupant p = k))
          = s.pool.count (s.blockOf k) := by
        refine List.countP_congr fun p hp => ?_
        have hlast := (hs.last p ((hs.all p).mp (hplaces ▸ hp))).2.1
        simp only [decide_eq_true_eq, beq_iff_eq]
        constructor
        · rintro rfl
          exact hlast.symm
        · rintro rfl
          exact hocc
      rw [hcount]
      exact List.count_eq_one_of_mem hnodup hmem
  · next hocc =>
      rw [List.countP_eq_zero]
      intro p hp
      have hlast := (hs.last p ((hs.all p).mp (hplaces ▸ hp))).2.1
      simp only [decide_eq_true_eq]
      rintro rfl
      exact hocc (by rw [hlast])

/-- The destructor has run once on every object that is not in use, and when
the pool is gone once more on the last object of each block. -/
structure Counted (s : ObjectPool) : Prop where
  sane : Sane s
  before : s.gone = false →
    ∀ k, s.destructed k = if k < s.objects.length ∧ k ∉ s.inUse then 1 else 0
  after : s.gone = true →
    ∀ k < s.objects.length, s.destructed k = if s.occupant (s.blockOf k) = k then 2 else 1

theorem counted_new : Counted {} :=
  ⟨sane_new, fun _ _ => rfl, fun h => by cases h⟩

theorem Counted.construct (hs : Counted s) (hgone : s.gone = false) : Counted s.construct := by
  obtain ⟨-, -, hlen, hinUse, hdestructed, hsame⟩ := construct_spec s
  refine ⟨hs.sane.construct, fun _ k => ?_, fun h => ?_⟩
  · rw [hdestructed, hs.before hgone]
    refine if_congr ?_ rfl rfl
    rw [hlen, hinUse, List.mem_cons, not_or]
    constructor
    · rintro ⟨hlt, hmem⟩
      exact ⟨by omega, by omega, hmem⟩
    · rintro ⟨hlt, hne, hmem⟩
      exact ⟨by omega, hmem⟩
  · rw [hsame, hgone] at h
    cases h

theorem Counted.drop (hs : Counted s) (hgone : s.gone = false) {k : ℕ} (hk : k ∈ s.inUse) :
    Counted (s.drop k) := by
  refine ⟨hs.sane.drop hk, fun _ j => ?_, fun h => ?_⟩
  · have hnodup : s.inUse.Nodup := ((List.nodup_append.mp hs.sane.once).2.1).of_map
    show destruct s.destructed k j
      = if j < s.objects.length ∧ j ∉ s.inUse.erase k then 1 else 0
    rw [destruct]
    by_cases hj : j = k
    · rw [hj, Function.update_self, hs.before hgone, if_neg (fun h => h.2 hk),
        if_pos ⟨hs.sane.made k hk, hnodup.not_mem_erase⟩]
    · rw [Function.update_of_ne hj, hs.before hgone]
      refine if_congr (and_congr_right fun _ => ?_) rfl rfl
      rw [List.mem_erase_of_ne hj]
  · rw [show (s.drop k).gone = s.gone from rfl, hgone] at h
    cases h

theorem Counted.destroy (hs : Counted s) (hgone : s.gone = false) (hidle : s.inUse = []) :
    Counted s.destroy := by
  have hsane := hs.sane
  refine ⟨⟨hsane.once, hsane.all, hsane.made, hsane.within, hsane.last, hsane.holder⟩,
    fun h => by (cases h), fun _ k hk => ?_⟩
  have hk : k < s.objects.length := hk
  show s.pool.foldl (fun d p => destruct d (s.occupant p)) s.destructed k
    = if s.occupant (s.blockOf k) = k then 2 else 1
  rw [foldl_destruct, hsane.countP_occupant hidle hk, hs.before hgone,
    if_pos ⟨hk, by simp [hidle]⟩]
  split <;> rfl

theorem Counted.step (hs : Counted s) (h : s.step l = some s') : Counted s' := by
  obtain ⟨hgone, ⟨-, rfl⟩ | ⟨-, rfl⟩ | ⟨k, hk, -, rfl⟩ | ⟨-, hidle, rfl⟩⟩ := step_cases h
  · exact hs.construct hgone
  · have hsane := hs.sane
    exact ⟨⟨hsane.once, hsane.all, hsane.made, hsane.within, hsane.last, hsane.holder⟩,
      hs.before, hs.after⟩
  · exact hs.drop hgone hk
  · exact hs.destroy hgone hidle

/-- An object of a pool that is gone was destroyed once exactly when its block
was handed out again. -/
theorem destructed_eq_one_iff (h : runSteps step {} ls = some s) (hgone : s.gone = true) {k : ℕ}
    (hk : k < s.objects.length) :
    s.destructed k = 1 ↔ ∃ j < s.objects.length, k < j ∧ s.blockOf j = s.blockOf k := by
  have hs := runSteps_invariant Counted.step counted_new h
  obtain ⟨hlt, hblock, hmax⟩ := hs.sane.last (s.blockOf k) (hs.sane.within k hk)
  rw [hs.after hgone k hk]
  constructor
  · intro hone
    have hne : s.occupant (s.blockOf k) ≠ k := by
      intro e
      rw [if_pos e] at hone
      cases hone
    exact ⟨_, hlt, lt_of_le_of_ne (hmax k hk rfl) hne.symm, hblock⟩
  · rintro ⟨j, hj, hkj, hsame⟩
    have := hmax j hj hsame
    rw [if_neg (by omega)]

theorem length_objects_step (h : s.step l = some s') :
    s'.objects.length = s.objects.length + if l = .construct then 1 else 0 := by
  obtain ⟨-, ⟨rfl, rfl⟩ | ⟨rfl, rfl⟩ | ⟨k, hk, rfl, rfl⟩ | ⟨rfl, -, rfl⟩⟩ := step_cases h
  · exact (construct_spec s).2.2.1
  · rfl
  · rfl
  · rfl

/-- There is one object for each `construct`. -/
theorem length_objects (h : runSteps step s ls = some s') :
    s'.objects.length = s.objects.length + ls.count .construct := by
  induction ls generalizing s with
  | nil =>
      obtain rfl := Option.some.inj h
      rfl
  | cons l ls ih =>
      obtain ⟨s₁, h₁, hrest⟩ := runSteps_cons_eq_some.mp h
      rw [ih hrest, length_objects_step h₁, List.count_cons]
      by_cases hl : l = .construct
      · simp only [hl, if_true, beq_self_eq_true]
        omega
      · simp [hl]

/-- **Every object is destroyed exactly once** by the end of the pool only if
there was none: an object is destroyed again with its block unless the block
was handed out to another one. -/
theorem destructed_once_iff (h : runSteps step {} ls = some s) (hgone : s.gone = true) :
    ((∀ k < s.objects.length, s.destructed k = 1) ↔ .construct ∉ ls) ∧
      ∀ k < s.objects.length,
        (s.destructed k = 1 ↔ ∃ j < s.objects.length, k < j ∧ s.blockOf j = s.blockOf k) := by
  have hlen : s.objects.length = ls.count .construct := by simpa using length_objects h
  have hone := fun k hk => destructed_eq_one_iff h hgone (k := k) hk
  refine ⟨⟨fun hall hmem => ?_, fun hnone k hk => ?_⟩, hone⟩
  · have hpos : 0 < s.objects.length := by
      rw [hlen]
      exact List.count_pos_iff.mpr hmem
    -- no object is made after the last one
    have hk : s.objects.length - 1 < s.objects.length := by omega
    obtain ⟨j, hj, hlt, -⟩ := (hone _ hk).mp (hall _ hk)
    omega
  · rw [hlen, List.count_eq_zero.mpr hnone] at hk
    cases hk

/-- Two objects in one block: only the second one is still there at the end. -/
theorem destructed_once_recycled :
    ∃ s, runSteps step {} [.construct, .drop 0, .construct, .drop 1, .destroy] = some s ∧
      s.destructed 0 = 1 ∧ s.destructed 1 ≠ 1 := by
  refine ⟨_, rfl, ?_, ?_⟩
  · have hlast := (@destructed_once_iff _ [.construct, .drop 0, .construct, .drop 1, .destroy]
      rfl rfl).2 0 (by decide)
    exact hlast.mpr ⟨1, by decide, by decide, rfl⟩
  · decide

/-- One object, dropped: `~T` runs twice on it. -/
theorem destructed_twice :
    ∃ s, runSteps step {} [.construct, .drop 0, .destroy] = some s ∧ s.gone = true ∧
      s.destructed 0 = 2 ∧ ¬ ∀ k < s.objects.length, s.destructed k = 1 :=
  ⟨_, rfl, rfl, rfl, fun hall => by cases hall 0 (by decide)⟩

end ObjectPool

end Play
