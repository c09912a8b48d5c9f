/-
Play/SharedKeys.lean

A container whose actors may share keys.

`add` refuses an id that is taken and nothing else, so that two actors may
have the same name or the same session key; the lobby adds such a pair when
somebody logs in twice.  `link` then leaves the entry to the first of them.
An index `Covers` the actors if every entry leads to a stored actor with the
key and every stored actor has an entry for its key, possibly one that leads
to somebody else.

`unlink` takes the entry of a key away, whoever it leads to.  If another actor
has the key, nobody is found under it from then on.

`del` erases the element before it reads the keys of the actor.  If nobody else
has a reference to the actor, the erase has destroyed it, and what the reads
yield is not known: the entries of its keys may stay and hide those who are
added later.  A `Shelf` is a container with a record of such a `del`, and a
`HeldOp` says who is held elsewhere.  Everybody can be reached exactly as long
as nobody is deleted who shares a key or is held by the container alone
(`reaches_iff_alone`).
-/
import Mathlib.Data.Fintype.Basic
import Play.Container

namespace Play

/-! ### Indexes -/

namespace Index

variable {A K : Type*} [DecidableEq K] {ix : Index K} {key : A → K} {actors : Map ℕ A}
variable {id : ℕ} {a : A} {x : K}

/-- Every entry leads to a stored actor with its key, and the key of every
stored actor has an entry. -/
structure Covers (ix : Index K) (key : A → K) (actors : Map ℕ A) : Prop where
  leads : ∀ {x id}, ix.lookup x = some id → ∃ a, actors.lookup id = some a ∧ key a = x
  linked : ∀ {id a}, actors.lookup id = some a → ∃ j, ix.lookup (key a) = some j

theorem covers_empty (key : A → K) : Covers ∅ key ∅ := by
  constructor <;> intro _ _ h <;> simp at h

/-- Who is stored is found under his key, or somebody else is who has it. -/
theorem Covers.find (h : Covers ix key actors) (ha : actors.lookup id = some a) :
    ∃ j b, ix.find actors (key a) = some (j, b) ∧ actors.lookup j = some b ∧ key b = key a := by
  obtain ⟨j, hj⟩ := h.linked ha
  obtain ⟨b, hb, hkey⟩ := h.leads hj
  refine ⟨j, b, ?_, hb, hkey⟩
  rw [Index.find, hj, Option.bind_some, hb]
  rfl

/-- Linking a new actor, whose key may be taken. -/
theorem Covers.link (h : Covers ix key actors) (hid : actors.lookup id = none) :
    Covers (ix.link (key a) id) key (Map.insertNew actors id a) := by
  constructor
  · intro x j hj
    rcases Map.lookup_insertNew_eq_some.mp hj with hj | ⟨rfl, -, rfl⟩
    · obtain ⟨b, hb, hkey⟩ := h.leads hj
      exact ⟨b, Map.lookup_insertNew_eq_some.mpr (.inl hb), hkey⟩
    · exact ⟨a, Map.lookup_insertNew_eq_some.mpr (.inr ⟨rfl, hid, rfl⟩), rfl⟩
  · intro j b hb
    rw [Index.link, Map.lookup_insertNew]
    split
    · exact ⟨_, rfl⟩
    · next hne =>
        rcases Map.lookup_insertNew_eq_some.mp hb with hb | ⟨-, -, rfl⟩
        · exact h.linked hb
        · exact absurd rfl hne

/-- Unlinking the key of the actor that is erased, if nobody else has it. -/
theorem Covers.unlink (h : Covers ix key actors) (ha : actors.lookup id = some a)
    (halone : ∀ j b, actors.lookup j = some b → j ≠ id → key b ≠ key a) :
    Covers (ix.unlink (key a)) key (AList.erase id actors) := by
  constructor
  · intro x j hj
    obtain ⟨hx, hj⟩ := Map.lookup_erase_eq_some.mp hj
    obtain ⟨b, hb, rfl⟩ := h.leads hj
    refine ⟨b, Map.lookup_erase_eq_some.mpr ⟨?_, hb⟩, rfl⟩
    rintro rfl
    obtain rfl := Option.some.inj (ha.symm.trans hb)
    exact hx rfl
  · intro j b hb
    obtain ⟨hj, hb⟩ := Map.lookup_erase_eq_some.mp hb
    obtain ⟨i, hi⟩ := h.linked hb
    exact ⟨i, Map.lookup_erase_eq_some.mpr ⟨halone j b hb hj, hi⟩⟩

/-- The other keys lead where they led before. -/
theorem Covers.find_unlink (h : Covers ix key actors) (ha : actors.lookup id = some a)
    (hx : x ≠ key a) :
    (ix.unlink (key a)).find (AList.erase id actors) x = ix.find actors x := by
  rw [Index.find, Index.find, Index.unlink, Map.lookup_erase_eq, if_neg hx]
  rcases hj : ix.lookup x with - | j
  · rfl
  obtain ⟨b, hb, hkey⟩ := h.leads hj
  have hne : j ≠ id := by
    rintro rfl
    obtain rfl := Option.some.inj (ha.symm.trans hb)
    exact hx hkey.symm
  rw [Option.bind_some, Option.bind_some, Map.lookup_erase_eq, if_neg hne]

theorem find_unlink_self (ix : Index K) (actors : Map ℕ A) (x : K) :
    (ix.unlink x).find actors x = none := by
  rw [Index.find, Index.unlink, Map.lookup_erase_eq, if_pos rfl]
  rfl

end Index

/-! ### The container -/

namespace ActorContainer

variable {A : Type*} [Actor A] {ix : Indexes} {c : ActorContainer A} {a b : A} {k : ActorKey}
variable {id : ℕ}

/-- Every actor is stored under its id, and every index that is on covers the
actors. -/
structure Covered (ix : Indexes) (c : ActorContainer A) : Prop where
  ids : ∀ id a, c.actors.lookup id = some a → Actor.getId a = id
  names : ix.hasName → c.names.Covers Actor.getName c.actors
  sessions : ix.hasSession → c.sessions.Covers Actor.getSessionKey c.actors
  uuids : ix.hasUuid → c.uuids.Covers Actor.getUuid c.actors

theorem covered_empty (ix : Indexes) : Covered ix ({} : ActorContainer A) where
  ids := by intro id a h; simp at h
  names _ := Index.covers_empty _
  sessions _ := Index.covers_empty _
  uuids _ := Index.covers_empty _

theorem Covered.stored (h : Covered ix c) (ha : c.actors.lookup id = some a) : c.Stored a := by
  rw [Stored, h.ids id a ha]
  exact ha

/-- Whoever is stored, somebody is found under each of his keys. -/
theorem Covered.find (h : Covered ix c) (hk : k.enabled ix) (ha : c.Stored a) (hkey : k.isKeyOf a) :
    ∃ b, c.find k = some b ∧ c.Stored b ∧ k.isKeyOf b := by
  have hmap : ∃ j b, c.iter k = some (j, b) ∧ c.actors.lookup j = some b ∧ k.isKeyOf b := by
    cases k with
    | id n =>
        obtain rfl : Actor.getId a = n := hkey
        exact ⟨_, a, by simp only [iter, show c.actors.lookup _ = some a from ha]; rfl, ha, rfl⟩
    | name s =>
        obtain rfl : Actor.getName a = s := hkey
        exact (h.names hk).find ha
    | session s =>
        obtain rfl : Actor.getSessionKey a = s := hkey
        exact (h.sessions hk).find ha
    | uuid u =>
        obtain rfl : Actor.getUuid a = u := hkey
        exact (h.uuids hk).find ha
  obtain ⟨j, b, hit, hb, hkey⟩ := hmap
  exact ⟨b, by rw [ActorContainer.find, hit]; rfl, h.stored hb, hkey⟩

/-- Two actors share a key if they are not apart. -/
theorem apart_iff : Apart ix a b ↔
    ∀ k : ActorKey, k.enabled ix → k.isKeyOf a → k.isKeyOf b → ∃ n, k = .id n := by
  constructor
  · rintro ⟨hname, hsession, huuid⟩ k hk ha hb
    cases k with
    | id n => exact ⟨n, rfl⟩
    | name s => exact absurd (Eq.trans hb (Eq.symm ha)) (hname hk)
    | session s => exact absurd (Eq.trans hb (Eq.symm ha)) (hsession hk)
    | uuid u => exact absurd (Eq.trans hb (Eq.symm ha)) (huuid hk)
  · intro h
    refine ⟨fun hon e => ?_, fun hon e => ?_, fun hon e => ?_⟩
    · obtain ⟨n, hn⟩ := h (.name (Actor.getName a)) hon rfl e
      cases hn
    · obtain ⟨n, hn⟩ := h (.session (Actor.getSessionKey a)) hon rfl e
      cases hn
    · obtain ⟨n, hn⟩ := h (.uuid (Actor.getUuid a)) hon rfl e
      cases hn

theorem Covered.add (h : Covered ix c) (a : A) : Covered ix (c.add ix a).1 := by
  rcases e : c.actors.lookup (Actor.getId a) with - | b
  · have hadd : (c.add ix a).1 = _ := congrArg Prod.fst (if_pos (by rw [e]; rfl))
    rw [hadd]
    constructor
    · intro id b hb
      rcases Map.lookup_insertNew_eq_some.mp hb with hb | ⟨rfl, -, rfl⟩
      · exact h.ids id b hb
      · rfl
    · intro hn
      show Index.Covers (if _ then _ else _) _ _
      rw [if_pos hn]
      exact (h.names hn).link e
    · intro hn
      show Index.Covers (if _ then _ else _) _ _
      rw [if_pos hn]
      exact (h.sessions hn).link e
    · intro hn
      show Index.Covers (if _ then _ else _) _ _
      rw [if_pos hn]
      exact (h.uuids hn).link e
  · rw [add_of_taken e]
    exact h

section Del

variable {it : ℕ × A} (hit : c.iter k = some it)
include hit

/-- The container after a `del` that finds its actor. -/
theorem del_eq : (c.del ix k).1 =
    { actors := AList.erase it.1 c.actors
      names := if ix.hasName then c.names.unlink (Actor.getName it.2) else c.names
      sessions :=
        if ix.hasSession then c.sessions.unlink (Actor.getSessionKey it.2) else c.sessions
      uuids := if ix.hasUuid then c.uuids.unlink (Actor.getUuid it.2) else c.uuids } := by
  simp only [ActorContainer.del, hit, deref]

/-- **`del` of somebody who shares no key** keeps the others reachable. -/
theorem Covered.del (h : Covered ix c)
    (halone : ∀ b, c.Stored b → Actor.getId b ≠ it.1 → Apart ix it.2 b) :
    Covered ix (c.del ix k).1 := by
  have ha := lookup_of_iter hit
  have hapart : ∀ j b, c.actors.lookup j = some b → j ≠ it.1 → Apart ix it.2 b := by
    intro j b hb hj
    exact halone b (h.stored hb) (by rwa [h.ids j b hb])
  rw [del_eq hit]
  constructor
  · intro j b hb
    exact h.ids j b (Map.lookup_erase_eq_some.mp hb).2
  · intro hn
    show Index.Covers (if _ then _ else _) _ _
    rw [if_pos hn]
    exact (h.names hn).unlink ha fun j b hb hj => (hapart j b hb hj).1 hn
  · intro hn
    show Index.Covers (if _ then _ else _) _ _
    rw [if_pos hn]
    exact (h.sessions hn).unlink ha fun j b hb hj => (hapart j b hb hj).2.1 hn
  · intro hn
    show Index.Covers (if _ then _ else _) _ _
    rw [if_pos hn]
    exact (h.uuids hn).unlink ha fun j b hb hj => (hapart j b hb hj).2.2 hn

/-- A key that the deleted actor does not have leads where it led before. -/
theorem Covered.find_del (h : Covered ix c) {k' : ActorKey} (hk : k'.enabled ix)
    (hother : ¬ k'.isKeyOf it.2) : (c.del ix k).1.find k' = c.find k' := by
  have ha := lookup_of_iter hit
  rw [ActorContainer.find, ActorContainer.find, del_eq hit]
  refine congrArg (Option.map Prod.snd) ?_
  cases k' with
  | id n =>
      have hn : n ≠ it.1 := fun e => hother (by rw [e]; exact h.ids it.1 it.2 ha)
      show (AList.lookup n (AList.erase it.1 c.actors)).map _ = (c.actors.lookup n).map _
      rw [Map.lookup_erase_eq, if_neg hn]
  | name s =>
      show Index.find (if _ then _ else _) _ _ = _
      rw [if_pos (show ix.hasName = true from hk)]
      exact (h.names hk).find_unlink ha (Ne.symm hother)
  | session s =>
      show Index.find (if _ then _ else _) _ _ = _
      rw [if_pos (show ix.hasSession = true from hk)]
      exact (h.sessions hk).find_unlink ha (Ne.symm hother)
  | uuid u =>
      show Index.find (if _ then _ else _) _ _ = _
      rw [if_pos (show ix.hasUuid = true from hk)]
      exact (h.uuids hk).find_unlink ha (Ne.symm hother)

/-- Under a key of the deleted actor that has an index, nobody is found. -/
theorem find_del_of_isKeyOf {k' : ActorKey} (hk : k'.enabled ix) (hkey : k'.isKeyOf it.2)
    (hid : ∀ n, k' ≠ .id n) : (c.del ix k).1.find k' = none := by
  rw [ActorContainer.find, del_eq hit]
  cases k' with
  | id n => exact absurd rfl (hid n)
  | name s =>
      obtain rfl : Actor.getName it.2 = s := hkey
      show Option.map _ (Index.find (if _ then _ else _) _ _) = none
      rw [if_pos (show ix.hasName = true from hk), Index.find_unlink_self]
      rfl
  | session s =>
      obtain rfl : Actor.getSessionKey it.2 = s := hkey
      show Option.map _ (Index.find (if _ then _ else _) _ _) = none
      rw [if_pos (show ix.hasSession = true from hk), Index.find_unlink_self]
      rfl
  | uuid u =>
      obtain rfl : Actor.getUuid it.2 = u := hkey
      show Option.map _ (Index.find (if _ then _ else _) _ _) = none
      rw [if_pos (show ix.hasUuid = true from hk), Index.find_unlink_self]
      rfl

theorem stored_del_of_ne (hb : c.Stored b) (hne : Actor.getId b ≠ it.1) :
    (c.del ix k).1.Stored b := by
  rw [Stored, actors_del hit]
  exact Map.lookup_erase_eq_some.mpr ⟨hne, hb⟩

end Del

end ActorContainer

/-! ### Runs -/

namespace Store

open ActorContainer

variable {A : Type*} [Actor A] {ix : Indexes} {s s' : Store A} {op : ContainerOp A}

/-- Whenever a stored actor has a key, a stored actor with this key is found
under it. -/
def Finds (ix : Indexes) (s : Store A) : Prop :=
  ∀ k : ActorKey, k.enabled ix → ∀ a, s.container.Stored a → k.isKeyOf a →
    ∃ b, s.container.find k = some b ∧ s.container.Stored b ∧ k.isKeyOf b

/-- Deleting an actor by its id does not change what is found under a key,
unless it was the actor itself. -/
def KeepsFinds (ix : Indexes) (s : Store A) : ContainerOp A → Prop
  | .del (.id n) => ∀ a, s.container.actors.lookup n = some a →
      ∀ k : ActorKey, k.enabled ix → s.container.find k ≠ some a →
        (s.container.del ix (.id n)).1.find k = s.container.find k
  | .del (.name _) => True
  | .del (.session _) => True
  | .del (.uuid _) => True
  | .add _ => True

/-- Nobody is deleted who shares a name, a session key or a uuid with somebody
else in the container. -/
def Alone (ix : Indexes) (s : Store A) : ContainerOp A → Prop
  | .add _ => True
  | .del k => ∀ it ∈ s.container.iter k,
      ∀ b, s.container.Stored b → Actor.getId b ≠ it.1 → Apart ix it.2 b

instance [DecidableEq A] (c : ActorContainer A) (a : A) : Decidable (c.Stored a) :=
  inferInstanceAs (Decidable (c.actors.lookup (Actor.getId a) = some a))

instance (a b : A) : Decidable (Apart ix a b) :=
  inferInstanceAs (Decidable ((ix.hasName → Actor.getName b ≠ Actor.getName a) ∧
    (ix.hasSession → Actor.getSessionKey b ≠ Actor.getSessionKey a) ∧
      (ix.hasUuid → Actor.getUuid b ≠ Actor.getUuid a)))

instance [Fintype A] [DecidableEq A] (s : Store A) :
    (op : ContainerOp A) → Decidable (Alone ix s op)
  | .add _ => isTrue trivial
  | .del k => inferInstanceAs (Decidable (∀ it ∈ s.container.iter k,
      ∀ b, s.container.Stored b → Actor.getId b ≠ it.1 → Apart ix it.2 b))

/-- What a step does to the container. -/
theorem step_cases (hs : step ix s op = some s') :
    (∃ a, op = .add a ∧ s'.container = (s.container.add ix a).1) ∨
    ∃ k : ActorKey, op = .del k ∧ k.enabled ix ∧ s'.container = (s.container.del ix k).1 := by
  cases op with
  | add a =>
      obtain rfl := Option.some.inj hs
      exact .inl ⟨a, rfl, rfl⟩
  | del k =>
      simp only [step] at hs
      split at hs
      · next hk =>
          obtain rfl := Option.some.inj hs
          exact .inr ⟨k, rfl, hk, rfl⟩
      · cases hs

theorem covered_step (h : s.container.Covered ix) (hG : Alone ix s op)
    (hs : step ix s op = some s') : s'.container.Covered ix := by
  rcases step_cases hs with ⟨a, -, hc⟩ | ⟨k, rfl, -, hc⟩ <;> rw [hc]
  · exact h.add a
  · rcases hit : s.container.iter k with - | it
    · rw [del_of_iter_none hit]
      exact h
    · exact h.del hit (hG it hit)

/-- Who is deleted takes his keys with him. -/
theorem not_finds_of_not_alone (hG : ¬ Alone ix s op) (hs : step ix s op = some s') :
    ¬ Finds ix s' := by
  intro hfinds
  rcases step_cases hs with ⟨a, rfl, -⟩ | ⟨k, rfl, -, hc⟩
  · exact hG trivial
  rw [Alone] at hG
  push Not at hG
  obtain ⟨it, hit, b, hb, hne, hapart⟩ := hG
  rw [apart_iff] at hapart
  push Not at hapart
  obtain ⟨k', hk', ha, hb', hid⟩ := hapart
  obtain ⟨b', hfind, -⟩ := hfinds k' hk' b (by rw [hc]; exact stored_del_of_ne hit hb hne) hb'
  rw [hc, find_del_of_isKeyOf hit hk' ha hid] at hfind
  cases hfind

theorem keepsFinds_of_alone (h : s.container.Covered ix) (hG : Alone ix s op) :
    KeepsFinds ix s op := by
  rcases op with a | ⟨n | _ | _ | _⟩ <;> try trivial
  intro a ha k hk hnot
  have hit : s.container.iter (.id n) = some (n, a) := by
    simp only [ActorContainer.iter, ha]
    rfl
  refine h.find_del hit hk fun hkey => ?_
  obtain ⟨b, hfind, hb, hkey'⟩ := h.find hk (h.stored ha) hkey
  -- somebody else is found: he shares the key, unless it is the id
  have hne : Actor.getId b ≠ n := by
    intro hid
    rw [Stored, hid] at hb
    obtain rfl := Option.some.inj (ha.symm.trans hb)
    exact hnot hfind
  obtain ⟨m, rfl⟩ := apart_iff.mp (hG (n, a) hit b hb hne) k hk hkey hkey'
  exact hne (hkey'.trans (hkey.symm.trans (h.ids n a ha)))

end Store

/-! ### Actors that die with their element -/

/-- An operation, and which actors somebody besides the container holds while
it runs. -/
structure HeldOp (A : Type*) where
  op : ContainerOp A
  held : A → Bool

/-- A container, with the record of whether a `del` has read the keys of an
actor that its erase had destroyed. -/
structure Shelf (A : Type*) extends Store A where
  readDestroyed : Bool := false

namespace Shelf

variable {A : Type*} [Actor A] {ix : Indexes} {s s' : Shelf A} {l : HeldOp A}
variable {ls : List (HeldOp A)}

/-- The operation is a `del` that reads the keys of its actor, and the
container has the last reference to it. -/
def destroys (ix : Indexes) (s : Shelf A) (l : HeldOp A) : Bool :=
  match l.op with
  | .add _ => false
  | .del k => ix.any && (s.container.iter k).any fun it => !l.held it.2

/-- One operation. -/
def step (ix : Indexes) (s : Shelf A) (l : HeldOp A) : Option (Shelf A) :=
  (Store.step ix s.toStore l.op).map fun t =>
    { toStore := t, readDestroyed := s.readDestroyed || s.destroys ix l }

/-- Everybody can be reached: all that was read of an actor was read while it
was alive, and whoever is stored leaves somebody to be found under each of his
keys. -/
structure Reaches (ix : Indexes) (s : Shelf A) : Prop where
  alive : s.readDestroyed = false
  finds : s.toStore.Finds ix

/-- Nobody is deleted who shares a key with somebody else in the container, or
whom the container alone keeps alive. -/
def Alone (ix : Indexes) (s : Shelf A) (l : HeldOp A) : Prop :=
  s.toStore.Alone ix l.op ∧ s.destroys ix l = false

instance [Fintype A] [DecidableEq A] (s : Shelf A) (l : HeldOp A) : Decidable (Alone ix s l) :=
  inferInstanceAs (Decidable (_ ∧ _))

theorem step_eq_some : step ix s l = some s' ↔ ∃ t, Store.step ix s.toStore l.op = some t ∧
    { toStore := t, readDestroyed := s.readDestroyed || s.destroys ix l } = s' :=
  Option.map_eq_some_iff

/-- **When equal keys hide nobody**: in every run of `add` and `del`, whoever
is stored leaves somebody to be found under each of his keys, and a `del` by
id changes no other find, if and only if nobody is deleted who shares a key
with another actor in the container or is held by the container alone. -/
theorem reaches_iff_alone (h : runSteps (step ix) ({} : Shelf A) ls = some s) :
    (Always (step ix) (Reaches ix) {} ls ∧
        Along (step ix) (fun s l => s.toStore.KeepsFinds ix l.op) {} ls) ↔
      Along (step ix) (Alone ix) {} ls := by
  have hkeep : ∀ {s : Shelf A} {l s'}, s.container.Covered ix ∧ s.readDestroyed = false →
      Alone ix s l → step ix s l = some s' →
        s'.container.Covered ix ∧ s'.readDestroyed = false := by
    rintro s l s' ⟨hc, hr⟩ ⟨hG, hd⟩ hs
    obtain ⟨t, ht, rfl⟩ := step_eq_some.mp hs
    exact ⟨Store.covered_step hc hG ht, by simp only [hr, hd, Bool.or_self]⟩
  have hgood : ∀ {s : Shelf A}, s.container.Covered ix ∧ s.readDestroyed = false →
      Reaches ix s := by
    rintro s ⟨hc, hr⟩
    exact ⟨hr, fun k hk a ha hkey => hc.find hk ha hkey⟩
  have hbad : ∀ {s : Shelf A} {l s'}, s.container.Covered ix ∧ s.readDestroyed = false →
      ¬ Alone ix s l → step ix s l = some s' → ¬ Reaches ix s' := by
    rintro s l s' - hG hs ⟨halive, hfinds⟩
    obtain ⟨t, ht, rfl⟩ := step_eq_some.mp hs
    refine hG ⟨?_, (Bool.or_eq_false_iff.mp halive).2⟩
    by_contra hshared
    exact Store.not_finds_of_not_alone hshared ht hfinds
  have h₀ : ({} : Shelf A).container.Covered ix ∧ ({} : Shelf A).readDestroyed = false :=
    ⟨ActorContainer.covered_empty ix, rfl⟩
  have hstates := always_iff_along hgood hkeep hbad h₀ h
  refine ⟨fun hall => hstates.mp hall.1, fun hG => ⟨hstates.mpr hG, ?_⟩⟩
  exact hG.imp hkeep (fun hI hG => Store.keepsFinds_of_alone hI.1 hG.1) h₀

/-- Two users of one name, as after a second login, and another one. -/
inductive Namesake
  | first
  | second
  | other
  deriving DecidableEq

instance : Fintype Namesake where
  elems := {.first, .second, .other}
  complete x := by cases x <;> decide

instance : Actor Namesake where
  getId | .first => 1 | .second => 2 | .other => 3
  getName | .first => "ann" | .second => "ann" | .other => "bob"
  getSessionKey | .first => 5 | .second => 6 | .other => 7

/-- An operation whose caller holds everybody. -/
def kept (op : ContainerOp Namesake) : HeldOp Namesake := { op, held := fun _ => true }

/-- The theorem at a run that deletes the one whose keys are his own. -/
theorem reaches_other_deleted :
    Always (step {}) (Reaches {}) ({} : Shelf Namesake)
      [kept (.add .first), kept (.add .second), kept (.add .other), kept (.del (.id 3))] ∧
    Along (step {}) (fun s l => s.toStore.KeepsFinds {} l.op) ({} : Shelf Namesake)
      [kept (.add .first), kept (.add .second), kept (.add .other), kept (.del (.id 3))] := by
  have hrun : (runSteps (step {}) ({} : Shelf Namesake)
      [kept (.add .first), kept (.add .second), kept (.add .other),
        kept (.del (.id 3))]).isSome := by decide +kernel
  obtain ⟨s, hs⟩ := Option.isSome_iff_exists.mp hrun
  exact (reaches_iff_alone hs).mpr (by decide +kernel)

/-- **A user nobody can find**: the second login is deleted, and the first one
is stored but no longer found under its name. -/
theorem second_login_hides_first :
    ¬ (Always (step {}) (Reaches {}) ({} : Shelf Namesake)
        [kept (.add .first), kept (.add .second), kept (.del (.id 2))] ∧
      Along (step {}) (fun s l => s.toStore.KeepsFinds {} l.op) ({} : Shelf Namesake)
        [kept (.add .first), kept (.add .second), kept (.del (.id 2))]) := by
  rintro ⟨hall, -⟩
  have hend : (runSteps (step {}) ({} : Shelf Namesake)
      [kept (.add .first), kept (.add .second), kept (.del (.id 2))]).map
      (fun s => (s.container.actors.lookup 1, s.container.find (.name "ann")))
      = some (some .first, none) := by decide +kernel
  obtain ⟨s, hrun, hs⟩ := Option.map_eq_some_iff.mp hend
  obtain ⟨hstored, hfind⟩ := Prod.mk.inj hs
  have hfinds := (hall _ s (List.prefix_refl _) hrun).finds
  obtain ⟨b, hb, -⟩ := hfinds (.name "ann") rfl .first hstored rfl
  rw [hfind] at hb
  cases hb

end Shelf

end Play
