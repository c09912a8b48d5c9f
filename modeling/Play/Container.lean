/-
Play/Container.lean

`actor_container`: actors kept by id in `actors_`, with up to three indexes
(name, session key, uuid) that lead from a key back to an id.  The template
arguments HasName, HasSession and HasUuid choose the indexes; a find or a del
by a key whose index is off does not compile, so it is not a step here.

`del` looks its actor up, erases the element from `actors_` and only then
reads the actor's keys through the iterator it has just erased.  `deref` says
what such a read yields and whether the element was still in the map; the
contents it yields are those the element had, so that the maps can be
followed past the read.  That is the case of an actor that somebody besides the
container keeps alive; `SharedKeys` has the other one.

`Coherent` is the agreement of the four maps.  `Coherent.add` and
`Coherent.del` are the step lemmas; `Store` adds the record of reads of
erased elements, and a run is a list of `ContainerOp`s.
-/
import Play.Maps
import Play.Runs

namespace Play

/-! ### Actors and their keys -/

/-- What the container reads of an actor.  A getter of a key that the
container has no index for is never called and may be missing. -/
class Actor (A : Type*) where
  getId : A → ℕ
  getName : A → String := fun _ => ""
  getSessionKey : A → ℕ := fun _ => 0
  getUuid : A → BitVec 128 := fun _ => 0

/-- The template arguments of `actor_container`, with their defaults. -/
structure Indexes where
  hasName : Bool := true
  hasSession : Bool := true
  hasUuid : Bool := false
  deriving DecidableEq

/-- Some index is on. -/
def Indexes.any (ix : Indexes) : Bool := ix.hasName || ix.hasSession || ix.hasUuid

/-- Every index that is on in `ix` is on in `full`. -/
structure Indexes.Sub (ix full : Indexes) : Prop where
  name : ix.hasName → full.hasName
  session : ix.hasSession → full.hasSession
  uuid : ix.hasUuid → full.hasUuid

theorem Indexes.Sub.refl (ix : Indexes) : ix.Sub ix := ⟨id, id, id⟩

/-- A key of one of the four kinds.  A `size_t` and a `uintptr_t` are the
same type, so del and find tell a session key from an id by a tag. -/
inductive ActorKey
  | id (n : ℕ)
  | name (s : String)
  | session (k : ℕ)
  | uuid (u : BitVec 128)
  deriving DecidableEq

namespace ActorKey

/-- The `static_assert`s of del and find. -/
def enabled (ix : Indexes) : ActorKey → Bool
  | id _ => true
  | name _ => ix.hasName
  | session _ => ix.hasSession
  | uuid _ => ix.hasUuid

/-- The key is the actor's key of its kind. -/
def isKeyOf {A : Type*} [Actor A] : ActorKey → A → Prop
  | id n, a => Actor.getId a = n
  | name s, a => Actor.getName a = s
  | session k, a => Actor.getSessionKey a = k
  | uuid u, a => Actor.getUuid a = u

instance {A : Type*} [Actor A] (k : ActorKey) (a : A) : Decidable (k.isKeyOf a) := by
  cases k <;> exact inferInstanceAs (Decidable (_ = _))

end ActorKey

/-! ### Indexes -/

/-- `index`: from a key to the id of the actor that has it. -/
abbrev Index (K : Type*) := Map K ℕ

namespace Index

variable {A K : Type*} [DecidableEq K]

/-- `index::link`; the map's insert leaves a key that is taken as it is. -/
def link (ix : Index K) (key : K) (id : ℕ) : Index K := Map.insertNew ix key id

/-- `index::unlink`. -/
def unlink (ix : Index K) (key : K) : Index K := AList.erase key ix

/-- `index::find`: the element of the container, or its end. -/
def find (ix : Index K) (actors : Map ℕ A) (key : K) : Option (ℕ × A) :=
  (ix.lookup key).bind fun id => (actors.lookup id).map fun a => (id, a)

end Index

/-! ### The container -/

/-- The maps of `actor_container`. -/
structure ActorContainer (A : Type*) where
  actors : Map ℕ A := ∅
  names : Index String := ∅
  sessions : Index ℕ := ∅
  uuids : Index (BitVec 128) := ∅

namespace ActorContainer

variable {A : Type*} [Actor A] {ix : Indexes} {c : ActorContainer A} {a b : A} {k : ActorKey}

/-- `add`. -/
def add (ix : Indexes) (c : ActorContainer A) (a : A) : ActorContainer A × Bool :=
  let id := Actor.getId a
  if (c.actors.lookup id).isNone then
    ({ actors := Map.insertNew c.actors id a
       names := if ix.hasName then c.names.link (Actor.getName a) id else c.names
       sessions :=
         if ix.hasSession then c.sessions.link (Actor.getSessionKey a) id else c.sessions
       uuids := if ix.hasUuid then c.uuids.link (Actor.getUuid a) id else c.uuids }, true)
  else (c, false)

omit [Actor A] in
/-- The iterator that del and find look up, as the element it is at. -/
def iter (c : ActorContainer A) : ActorKey → Option (ℕ × A)
  | .id n => (c.actors.lookup n).map fun a => (n, a)
  | .name s => c.names.find c.actors s
  | .session k => c.sessions.find c.actors k
  | .uuid u => c.uuids.find c.actors u

omit [Actor A] in
/-- `iter->second`: the contents of the element, for an actor that is still
alive, and whether the element has been erased from the map. -/
def deref (actors : Map ℕ A) (it : ℕ × A) : A × Bool :=
  (it.2, (actors.lookup it.1).isNone)

/-- `del`: the container, and whether an erased element was read. -/
def del (ix : Indexes) (c : ActorContainer A) (k : ActorKey) : ActorContainer A × Bool :=
  match c.iter k with
  | none => (c, false)
  | some it =>
      -- the element goes first, the keys are read from it afterwards
      let actors := AList.erase it.1 c.actors
      let (a, erased) := deref actors it
      ({ actors := actors
         names := if ix.hasName then c.names.unlink (Actor.getName a) else c.names
         sessions :=
           if ix.hasSession then c.sessions.unlink (Actor.getSessionKey a) else c.sessions
         uuids := if ix.hasUuid then c.uuids.unlink (Actor.getUuid a) else c.uuids },
        erased && ix.any)

omit [Actor A] in
/-- `find`. -/
def find (c : ActorContainer A) (k : ActorKey) : Option A := (c.iter k).map Prod.snd

omit [Actor A] in
/-- `size`. -/
def size (c : ActorContainer A) : ℕ := Map.size c.actors

/-- The actor is in `actors_`, under its id. -/
def Stored (c : ActorContainer A) (a : A) : Prop := c.actors.lookup (Actor.getId a) = some a

omit [Actor A] in
/-- The id that the key's map or index holds for the key. -/
def entry (c : ActorContainer A) : ActorKey → Option ℕ
  | .id n => (c.actors.lookup n).map fun _ => n
  | .name s => c.names.lookup s
  | .session k => c.sessions.lookup k
  | .uuid u => c.uuids.lookup u

end ActorContainer

/-! ### An index that agrees with the container -/

namespace Index

variable {A K : Type*} [DecidableEq K] {ix : Index K} {key : A → K} {actors : Map ℕ A}
variable {id : ℕ} {a : A} {x : K}

/-- The index leads from a key to an id exactly when the actor of that id
is stored and has the key. -/
def Exact (ix : Index K) (key : A → K) (actors : Map ℕ A) : Prop :=
  ∀ x id, ix.lookup x = some id ↔ ∃ a, actors.lookup id = some a ∧ key a = x

theorem exact_empty (key : A → K) : Exact ∅ key ∅ := by
  intro x id
  simp

theorem Exact.find_eq_some (h : Exact ix key actors) :
    ix.find actors x = some (id, a) ↔ actors.lookup id = some a ∧ key a = x := by
  simp only [find, Option.bind_eq_some_iff, Option.map_eq_some_iff, Prod.mk.injEq]
  constructor
  · rintro ⟨j, hj, b, hb, rfl, rfl⟩
    obtain ⟨b', hb', hx⟩ := (h x j).mp hj
    obtain rfl := Option.some.inj (hb.symm.trans hb')
    exact ⟨hb, hx⟩
  · rintro ⟨ha, hx⟩
    exact ⟨id, (h x id).mpr ⟨a, ha, hx⟩, a, ha, rfl, rfl⟩

/-- Linking a new actor, whose key no stored actor has. -/
theorem Exact.link (h : Exact ix key actors) (hid : actors.lookup id = none)
    (hnew : ∀ j b, actors.lookup j = some b → key b ≠ key a) :
    Exact (ix.link (key a) id) key (Map.insertNew actors id a) := by
  intro x j
  have hfree : ix.lookup (key a) = none := by
    refine Option.eq_none_iff_forall_not_mem.mpr fun i hi => ?_
    obtain ⟨b, hb, hkey⟩ := (h (key a) i).mp hi
    exact hnew i b hb hkey
  simp only [Index.link, Map.lookup_insertNew_eq_some, h x j]
  constructor
  · rintro (⟨b, hb, hx⟩ | ⟨rfl, -, rfl⟩)
    · exact ⟨b, Or.inl hb, hx⟩
    · exact ⟨a, Or.inr ⟨rfl, hid, rfl⟩, rfl⟩
  · rintro ⟨b, hb | ⟨rfl, -, rfl⟩, hx⟩
    · exact Or.inl ⟨b, hb, hx⟩
    · exact Or.inr ⟨hx.symm, hfree, rfl⟩

/-- Unlinking the key of the actor that is erased. -/
theorem Exact.unlink (h : Exact ix key actors) (ha : actors.lookup id = some a) :
    Exact (ix.unlink (key a)) key (AList.erase id actors) := by
  intro x j
  simp only [Index.unlink, Map.lookup_erase_eq_some, h x j]
  -- the erased actor is the only one that had its key
  have honly : ∀ b, actors.lookup j = some b → key b = key a → j = id := by
    intro b hb hkey
    have hj := (h (key a) j).mpr ⟨b, hb, hkey⟩
    have hi := (h (key a) id).mpr ⟨a, ha, rfl⟩
    exact Option.some.inj (hj.symm.trans hi)
  constructor
  · rintro ⟨hx, b, hb, rfl⟩
    refine ⟨b, ⟨?_, hb⟩, rfl⟩
    rintro rfl
    obtain rfl := Option.some.inj (ha.symm.trans hb)
    exact hx rfl
  · rintro ⟨b, ⟨hj, hb⟩, rfl⟩
    exact ⟨fun hkey => hj (honly b hb hkey), b, hb, rfl⟩

end Index

/-! ### Coherence of the container -/

namespace ActorContainer

variable {A : Type*} [Actor A] {ix full : Indexes} {c : ActorContainer A} {a b : A} {k : ActorKey}
variable {id : ℕ}

/-- Every actor is stored under its id, and every index of `ix` agrees with
`actors_`.  The container may have more indexes, about which nothing is
said. -/
structure Coherent (ix : Indexes) (c : ActorContainer A) : Prop where
  ids : ∀ id a, c.actors.lookup id = some a → Actor.getId a = id
  names : ix.hasName → c.names.Exact Actor.getName c.actors
  sessions : ix.hasSession → c.sessions.Exact Actor.getSessionKey c.actors
  uuids : ix.hasUuid → c.uuids.Exact Actor.getUuid c.actors

theorem coherent_empty (ix : Indexes) : Coherent ix ({} : ActorContainer A) where
  ids := by intro id a h; simp at h
  names _ := Index.exact_empty _
  sessions _ := Index.exact_empty _
  uuids _ := Index.exact_empty _

/-- What an iterator of a coherent container is at. -/
theorem Coherent.iter_eq_some (h : Coherent ix c) (hk : k.enabled ix) :
    c.iter k = some (id, a) ↔ c.actors.lookup id = some a ∧ k.isKeyOf a := by
  cases k with
  | id n =>
      show (c.actors.lookup n).map (fun a => (n, a)) = some (id, a) ↔ _
      rw [Option.map_eq_some_iff]
      constructor
      · rintro ⟨b, hb, e⟩
        obtain ⟨rfl, rfl⟩ := Prod.mk.inj e
        exact ⟨hb, h.ids n b hb⟩
      · rintro ⟨ha, hkey⟩
        have hn : n = id := hkey.symm.trans (h.ids id a ha)
        subst hn
        exact ⟨a, ha, rfl⟩
  | name s => exact (h.names hk).find_eq_some
  | session s => exact (h.sessions hk).find_eq_some
  | uuid u => exact (h.uuids hk).find_eq_some

/-- **A find in a coherent container is exact.** -/
theorem Coherent.find_eq_some (h : Coherent ix c) (hk : k.enabled ix) :
    c.find k = some a ↔ c.Stored a ∧ k.isKeyOf a := by
  rw [find, Option.map_eq_some_iff]
  constructor
  · rintro ⟨⟨id, b⟩, hit, rfl⟩
    obtain ⟨hb, hkey⟩ := (h.iter_eq_some hk).mp hit
    refine ⟨?_, hkey⟩
    show c.actors.lookup (Actor.getId b) = some b
    rw [h.ids id b hb]
    exact hb
  · rintro ⟨ha, hkey⟩
    exact ⟨(Actor.getId a, a), (h.iter_eq_some hk).mpr ⟨ha, hkey⟩, rfl⟩

/-- **No index keeps an entry for an actor that is gone.** -/
theorem Coherent.stored_of_entry (h : Coherent ix c) (hk : k.enabled ix)
    (he : c.entry k = some id) : ∃ a, c.Stored a ∧ Actor.getId a = id ∧ k.isKeyOf a := by
  have hmap : ∃ a, c.actors.lookup id = some a ∧ k.isKeyOf a := by
    cases k with
    | id n =>
        obtain ⟨a, ha, rfl⟩ := Option.map_eq_some_iff.mp he
        exact ⟨a, ha, h.ids n a ha⟩
    | name s => exact (h.names hk s id).mp he
    | session s => exact (h.sessions hk s id).mp he
    | uuid u => exact (h.uuids hk u id).mp he
  obtain ⟨a, ha, hkey⟩ := hmap
  have hid := h.ids id a ha
  exact ⟨a, by rw [Stored, hid]; exact ha, hid, hkey⟩

/-- `a` shares no key of an index that is on with `b`. -/
def Apart (ix : Indexes) (a b : A) : Prop :=
  (ix.hasName → Actor.getName b ≠ Actor.getName a) ∧
    (ix.hasSession → Actor.getSessionKey b ≠ Actor.getSessionKey a) ∧
      (ix.hasUuid → Actor.getUuid b ≠ Actor.getUuid a)

theorem add_of_taken (ht : c.actors.lookup (Actor.getId a) = some b) :
    c.add ix a = (c, false) := by
  simp [add, ht]

/-- **`add` keeps the container coherent**, for an actor apart from all
those stored under other ids. -/
theorem Coherent.add (h : Coherent ix c) (hsub : ix.Sub full) (hnew : ∀ b, c.Stored b →
    Actor.getId b ≠ Actor.getId a → Apart ix a b) : Coherent ix (c.add full a).1 := by
  rcases e : c.actors.lookup (Actor.getId a) with - | b
  · have hapart : ∀ j b, c.actors.lookup j = some b → Apart ix a b := by
      intro j b hb
      have hj := h.ids j b hb
      subst hj
      refine hnew b hb fun hid => ?_
      rw [hid, e] at hb
      cases hb
    have hadd : (c.add full a).1 = _ := congrArg Prod.fst (if_pos (by rw [e]; rfl))
    rw [hadd]
    constructor
    · intro id b hb
      rcases Map.lookup_insertNew_eq_some.mp hb with hb | ⟨rfl, -, rfl⟩
      · exact h.ids id b hb
      · rfl
    · intro hn
      show Index.Exact (if _ then _ else _) _ _
      rw [if_pos (hsub.name hn)]
      exact (h.names hn).link e fun j b hb => (hapart j b hb).1 hn
    · intro hn
      show Index.Exact (if _ then _ else _) _ _
      rw [if_pos (hsub.session hn)]
      exact (h.sessions hn).link e fun j b hb => (hapart j b hb).2.1 hn
    · intro hn
      show Index.Exact (if _ then _ else _) _ _
      rw [if_pos (hsub.uuid hn)]
      exact (h.uuids hn).link e fun j b hb => (hapart j b hb).2.2 hn
  · rw [add_of_taken e]
    exact h

theorem del_of_iter_none (hit : c.iter k = none) : c.del ix k = (c, false) := by
  rw [ActorContainer.del, hit]

/-- What a `del` that finds its actor erases. -/
theorem actors_del {it : ℕ × A} (hit : c.iter k = some it) :
    (c.del ix k).1.actors = AList.erase it.1 c.actors := by
  rw [ActorContainer.del, hit]

/-- **`del` keeps the container coherent.** -/
theorem Coherent.del (h : Coherent ix c) (hsub : ix.Sub full) (hk : k.enabled ix) :
    Coherent ix (c.del full k).1 := by
  unfold ActorContainer.del
  rcases e : c.iter k with - | ⟨id, a⟩
  · exact h
  · obtain ⟨ha, -⟩ := (h.iter_eq_some hk).mp e
    constructor
    · intro j b hb
      exact h.ids j b (Map.lookup_erase_eq_some.mp hb).2
    · intro hn
      show Index.Exact (if _ then _ else _) _ _
      rw [if_pos (hsub.name hn)]
      exact (h.names hn).unlink ha
    · intro hn
      show Index.Exact (if _ then _ else _) _ _
      rw [if_pos (hsub.session hn)]
      exact (h.sessions hn).unlink ha
    · intro hn
      show Index.Exact (if _ then _ else _) _ _
      rw [if_pos (hsub.uuid hn)]
      exact (h.uuids hn).unlink ha

/-! ### What is stored -/

theorem actors_add (hnew : c.actors.lookup (Actor.getId a) = none) :
    (c.add ix a).1.actors = Map.insertNew c.actors (Actor.getId a) a := by
  simp [add, hnew]

theorem stored_add (hnew : c.actors.lookup (Actor.getId a) = none) :
    (c.add ix a).1.Stored b ↔ c.Stored b ∨ b = a := by
  rw [Stored, actors_add hnew, Map.lookup_insertNew_eq_some]
  constructor
  · rintro (hb | ⟨-, -, rfl⟩)
    · exact .inl hb
    · exact .inr rfl
  · rintro (hb | rfl)
    · exact .inl hb
    · exact .inr ⟨rfl, hnew, rfl⟩

/-- Deleting by a key takes the actor of that key away, and no other. -/
theorem Coherent.stored_del (h : Coherent ix c) (hk : k.enabled ix) :
    (c.del full k).1.Stored b ↔ c.Stored b ∧ ¬ k.isKeyOf b := by
  have hiter : c.Stored b → k.isKeyOf b → c.iter k = some (Actor.getId b, b) := fun hb hkey =>
    (h.iter_eq_some hk).mpr ⟨hb, hkey⟩
  rcases e : c.iter k with - | ⟨id, a⟩
  · rw [del_of_iter_none e]
    refine ⟨fun hb => ⟨hb, fun hkey => ?_⟩, And.left⟩
    rw [hiter hb hkey] at e
    cases e
  · rw [Stored, actors_del e, Map.lookup_erase_eq_some]
    obtain ⟨ha, hkey⟩ := (h.iter_eq_some hk).mp e
    constructor
    · rintro ⟨hne, hb⟩
      refine ⟨hb, fun hkey' => hne ?_⟩
      exact (Prod.mk.inj (Option.some.inj ((hiter hb hkey').symm.trans e))).1
    · rintro ⟨hb, hno⟩
      refine ⟨?_, hb⟩
      rintro rfl
      obtain rfl := Option.some.inj (ha.symm.trans hb)
      exact hno hkey

omit [Actor A] in
/-- An iterator is at an element of `actors_`. -/
theorem lookup_of_iter {it : ℕ × A} (hit : c.iter k = some it) :
    c.actors.lookup it.1 = some it.2 := by
  have hindex : ∀ {K : Type} [DecidableEq K] {ix : Index K} {x : K},
      ix.find c.actors x = some it → c.actors.lookup it.1 = some it.2 := by
    intro K _ ix x hfind
    obtain ⟨id, -, hfind⟩ := Option.bind_eq_some_iff.mp hfind
    obtain ⟨a, ha, rfl⟩ := Option.map_eq_some_iff.mp hfind
    exact ha
  cases k with
  | id n =>
      obtain ⟨a, ha, rfl⟩ := Option.map_eq_some_iff.mp hit
      exact ha
  | name s => exact hindex hit
  | session k => exact hindex hit
  | uuid u => exact hindex hit

theorem size_add (hnew : c.actors.lookup (Actor.getId a) = none) :
    (c.add ix a).1.size = c.size + 1 := by
  rw [size, actors_add hnew]
  exact Map.size_insertNew_of_not_mem hnew

/-- What is left after a `del` by id. -/
theorem lookup_del_id (n j : ℕ) :
    (c.del ix (.id n)).1.actors.lookup j = if j = n then none else c.actors.lookup j := by
  rcases e : c.actors.lookup n with - | a
  · have hit : c.iter (.id n) = none := by simp [iter, e]
    rw [del_of_iter_none hit]
    split_ifs with hj
    · rw [hj, e]
    · rfl
  · have hit : c.iter (.id n) = some (n, a) := by simp [iter, e]
    rw [actors_del hit, Map.lookup_erase_eq]

theorem size_del {it : ℕ × A} (hit : c.iter k = some it) :
    (c.del ix k).1.size + 1 = c.size := by
  rw [size, actors_del hit]
  exact Map.size_erase_of_lookup (lookup_of_iter hit)

theorem size_del_le : (c.del ix k).1.size ≤ c.size := by
  rcases e : c.iter k with - | it
  · rw [del_of_iter_none e]
  · have : (c.del ix k).1.size + 1 = c.size := size_del e
    omega

/-- Which reads of del go through an erased iterator: all of them. -/
theorem del_readErased : (c.del ix k).2 = ((c.find k).isSome && ix.any) := by
  unfold ActorContainer.del find
  rcases c.iter k with - | it
  · rfl
  · simp [deref]

end ActorContainer

/-! ### Runs of a container -/

/-- One operation that changes a container. -/
inductive ContainerOp (A : Type*)
  | add (a : A)
  | del (k : ActorKey)

/-- A container, with the record of whether an operation has read an
element that was already erased from `actors_`. -/
structure Store (A : Type*) where
  container : ActorContainer A := {}
  readErased : Bool := false

namespace Store

variable {A : Type*} [Actor A] {ix : Indexes} {s s' : Store A} {op : ContainerOp A}
variable {ops : List (ContainerOp A)}

/-- One operation.  A del by a key whose index is off does not compile. -/
def step (ix : Indexes) (s : Store A) : ContainerOp A → Option (Store A)
  | .add a => some { s with container := (s.container.add ix a).1 }
  | .del k =>
      if k.enabled ix then
        let (c, erased) := s.container.del ix k
        some { container := c, readErased := s.readErased || erased }
      else none

/-- Any two actors differ in their ids and in every key that has an index. -/
structure DistinctKeys (ix : Indexes) (A : Type*) [Actor A] : Prop where
  ids : Function.Injective (Actor.getId : A → ℕ)
  names : ix.hasName → Function.Injective (Actor.getName : A → String)
  sessions : ix.hasSession → Function.Injective (Actor.getSessionKey : A → ℕ)
  uuids : ix.hasUuid → Function.Injective (Actor.getUuid : A → BitVec 128)

theorem DistinctKeys.apart (hA : DistinctKeys ix A) {a b : A}
    (hab : Actor.getId b ≠ Actor.getId a) : ActorContainer.Apart ix a b := by
  have hne : b ≠ a := fun e => hab (congrArg _ e)
  exact ⟨fun hn e => hne (hA.names hn e), fun hn e => hne (hA.sessions hn e),
    fun hn e => hne (hA.uuids hn e)⟩

/-- **Whatever is added and deleted, the four maps stay in step.** -/
theorem coherent_step (hA : DistinctKeys ix A) (h : s.container.Coherent ix)
    (hs : step ix s op = some s') : s'.container.Coherent ix := by
  cases op with
  | add a =>
      obtain rfl := Option.some.inj hs
      exact h.add (.refl ix) fun b _ hab => hA.apart hab
  | del k =>
      simp only [step] at hs
      split at hs
      · next hk =>
          obtain rfl := Option.some.inj hs
          exact h.del (.refl ix) hk
      · cases hs

theorem coherent_run (hA : DistinctKeys ix A)
    (h : runSteps (step ix) ({} : Store A) ops = some s) : s.container.Coherent ix :=
  runSteps_invariant (I := fun s => s.container.Coherent ix) (fun hc hs => coherent_step hA hc hs)
    (ActorContainer.coherent_empty ix) h

/-- The state of a container that its users rely on: no operation has read an
erased element, a find by a key that has an index is exact, and no index
keeps an entry for an actor that is not stored. -/
structure Sound (ix : Indexes) (s : Store A) : Prop where
  noErasedRead : s.readErased = false
  find_iff : ∀ k : ActorKey, k.enabled ix → ∀ a,
    s.container.find k = some a ↔ s.container.Stored a ∧ k.isKeyOf a
  noStale : ∀ k : ActorKey, k.enabled ix → ∀ id, s.container.entry k = some id →
    ∃ a, s.container.Stored a ∧ Actor.getId a = id ∧ k.isKeyOf a

theorem sound_of_coherent (h : s.container.Coherent ix) (hr : s.readErased = false) :
    Sound ix s where
  noErasedRead := hr
  find_iff _ hk _ := h.find_eq_some hk
  noStale _ hk _ he := h.stored_of_entry hk he

/-- No index is on, or the operation is no del that finds an actor. -/
def Harmless (ix : Indexes) (s : Store A) : ContainerOp A → Prop
  | .add _ => True
  | .del k => ix.any = false ∨ s.container.find k = none

instance (s : Store A) (op : ContainerOp A) : Decidable (Harmless ix s op) := by
  cases op with
  | add a => exact isTrue trivial
  | del k =>
      exact decidable_of_iff (ix.any = false ∨ (s.container.find k).isNone = true)
        (by simp [Harmless])

theorem readErased_step (hs : step ix s op = some s') :
    s'.readErased = false ↔ s.readErased = false ∧ Harmless ix s op := by
  cases op with
  | add a =>
      obtain rfl := Option.some.inj hs
      simp [Harmless]
  | del k =>
      simp only [step] at hs
      split at hs
      · obtain rfl := Option.some.inj hs
        rcases e : s.container.find k with - | a <;>
          simp [Harmless, ActorContainer.del_readErased, e]
      · cases hs

/-- **The maps always agree, and the container is sound exactly in the runs
where no del meets its actor while an index is on**: such a del reads the
keys of the element it has just erased. -/
theorem always_sound_iff (hA : DistinctKeys ix A)
    (h : runSteps (step ix) ({} : Store A) ops = some s) :
    Always (step ix) (Sound ix) {} ops ↔ Along (step ix) (Harmless ix) {} ops := by
  refine always_iff_along (I := fun s => s.container.Coherent ix ∧ s.readErased = false)
    ?_ ?_ ?_ ⟨ActorContainer.coherent_empty ix, rfl⟩ h
  · rintro s ⟨hc, hr⟩
    exact sound_of_coherent hc hr
  · rintro s op s' ⟨hc, hr⟩ hG hs
    exact ⟨coherent_step hA hc hs, (readErased_step hs).mpr ⟨hr, hG⟩⟩
  · rintro s op s' - hG hs hsound
    exact hG ((readErased_step hs).mp hsound.noErasedRead).2

/-- Two users of the kind the container's tests add. -/
inductive SampleUser
  | hello
  | world
  deriving DecidableEq

instance : Actor SampleUser where
  getId | .hello => 1 | .world => 2
  getName | .hello => "hello" | .world => "world"
  getSessionKey | .hello => 5 | .world => 6
  getUuid | .hello => 7 | .world => 8

theorem distinctKeys_sampleUser (ix : Indexes) : DistinctKeys ix SampleUser := by
  constructor <;> intros <;> rintro (- | -) (- | -) e <;>
    first | rfl | exact absurd e (by decide)

/-- The theorem at a run that adds two users and deletes a third. -/
theorem always_sound_sampleUser :
    Always (step {}) (Sound {}) ({} : Store SampleUser)
      [.add .hello, .add .world, .del (.name "nobody")] := by
  have hrun : (runSteps (step {}) ({} : Store SampleUser)
      [.add .hello, .add .world, .del (.name "nobody")]).isSome := by decide +kernel
  obtain ⟨s, hs⟩ := Option.isSome_iff_exists.mp hrun
  exact (always_sound_iff (distinctKeys_sampleUser {}) hs).mpr (by decide +kernel)

/-- The deletion of the test named "name", with the name index on: the
deleted user's name is read from the erased element. -/
theorem del_reads_erased :
    DistinctKeys { hasSession := false } SampleUser ∧
      ¬ Always (step { hasSession := false }) (Sound { hasSession := false })
        ({} : Store SampleUser) [.add .hello, .del (.name "hello")] := by
  refine ⟨distinctKeys_sampleUser _, fun hall => ?_⟩
  have hrun : (runSteps (step { hasSession := false }) ({} : Store SampleUser)
      [.add .hello, .del (.name "hello")]).map readErased = some true := by decide +kernel
  obtain ⟨s, hs, hread⟩ := Option.map_eq_some_iff.mp hrun
  have := (hall _ s (List.prefix_refl _) hs).noErasedRead
  rw [hread] at this
  cases this

end Store

end Play
