/-
Play/Pulse.lean

`pulse<Protocol, Frame>`: a tree of objects that subscribe to topics.

A pulse keeps its own subscriptions.  In addition the root of the tree keeps
the interests of all the others, so that it can hand on what it receives
without walking the tree: `subscribe` on a pulse that is not the root tells
the root, found along the parents, under the session key and the topic.

An object is known by its address, a session by its address as well, with 0
for no session.  A `Forest` has every object; those that are not attached
yet are as the constructor made them.  What an object is called back with is
left open: `C` is the type of callbacks.

A map whose entries are made when they are first written is a total function
here, so an entry that is not there is an empty one.
-/
import Mathlib.Data.Finset.Basic
import Play.Runs

namespace Play

/-- The address of a pulse. -/
abbrev PulseId := ℕ

/-- The address of a session as `uintptr_t`, 0 if there is none. -/
abbrev SessionKey := ℕ

/-- `pulse::subscription`. -/
structure Subscription (C : Type) where
  sessionKey : SessionKey
  cb : C
  deriving DecidableEq

/-- The members of a pulse that belong to the tree and the subscriptions. -/
structure Pulse (T C : Type) where
  parent : Option PulseId := none
  isFinal : Bool := false
  stopped : Bool := false
  childs : Finset PulseId := ∅
  session : SessionKey := 0
  strandKey : ℕ := 0
  subscriptions : T → List (Subscription C) := fun _ => []
  selfInterests : Finset (SessionKey × T) := ∅
  interests : SessionKey × T → Finset PulseId := fun _ => ∅

namespace Pulse

variable {T C : Type} [DecidableEq T]

/-- `subscriptions_[pic].push_back(sub)`. -/
def pushSubscription (pic : T) (sub : Subscription C) (o : Pulse T C) : Pulse T C :=
  { o with subscriptions := Function.update o.subscriptions pic (o.subscriptions pic ++ [sub]) }

/-- `self_interests_[key] = true`. -/
def keepInterest (key : SessionKey × T) (o : Pulse T C) : Pulse T C :=
  { o with selfInterests := insert key o.selfInterests }

/-- `interests_[key].insert(child)`. -/
def insertInterest (child : PulseId) (key : SessionKey × T) (o : Pulse T C) : Pulse T C :=
  { o with interests := Function.update o.interests key (insert child (o.interests key)) }

/-- `interests_[key].erase(child)` for every one of the keys. -/
def loseInterests (child : PulseId) (keys : Finset (SessionKey × T)) (o : Pulse T C) :
    Pulse T C :=
  { o with interests := fun key =>
      if key ∈ keys then (o.interests key).erase child else o.interests key }

/-- `stop_ = true`. -/
def setStopped (o : Pulse T C) : Pulse T C :=
  { o with stopped := true }

/-- `childs_.erase(child)`. -/
def eraseChild (child : PulseId) (o : Pulse T C) : Pulse T C :=
  { o with childs := o.childs.erase child }

theorem mem_keepInterest {key key' : SessionKey × T} {o : Pulse T C} :
    key' ∈ (keepInterest key o).selfInterests ↔ key' ∈ o.selfInterests ∨ key' = key := by
  simp [keepInterest, or_comm]

theorem mem_insertInterest {child c : PulseId} {key key' : SessionKey × T} {o : Pulse T C} :
    c ∈ (insertInterest child key o).interests key' ↔
      c ∈ o.interests key' ∨ (c = child ∧ key' = key) := by
  by_cases h : key' = key
  · subst h
    simp [insertInterest, or_comm]
  · simp [insertInterest, h]

theorem mem_loseInterests {child c : PulseId} {keys : Finset (SessionKey × T)}
    {key : SessionKey × T} {o : Pulse T C} :
    c ∈ (loseInterests child keys o).interests key ↔
      c ∈ o.interests key ∧ ¬ (c = child ∧ key ∈ keys) := by
  by_cases h : key ∈ keys
  · simp [loseInterests, h, and_comm]
  · simp [loseInterests, h]

end Pulse

/-- The pulses of a program, with the root of one tree and the pulses that
were attached to it, in this order. -/
structure Forest (T C : Type) where
  root : PulseId
  ids : List PulseId
  pulse : PulseId → Pulse T C

namespace Forest

variable {T C : Type}

/-- A root alone. -/
def new (root : PulseId) : Forest T C where
  root := root
  ids := [root]
  pulse _ := {}

/-- Change one object. -/
def modify (f : Forest T C) (p : PulseId) (g : Pulse T C → Pulse T C) : Forest T C :=
  { f with pulse := Function.update f.pulse p (g (f.pulse p)) }

/-- `pulse::is_root`. -/
def isRoot (f : Forest T C) (p : PulseId) : Bool :=
  (f.pulse p).parent.isNone

/-- `pulse::get_root`, along at most `k` parents. -/
def getRootLoop (f : Forest T C) : ℕ → PulseId → PulseId
  | 0, p => p
  | k + 1, p =>
      match (f.pulse p).parent with
      | none => p
      | some q => getRootLoop f k q

/-- `pulse::get_root`; a path along parents is not longer than the tree has
pulses. -/
def getRoot (f : Forest T C) (p : PulseId) : PulseId :=
  f.getRootLoop f.ids.length p

section

variable [DecidableEq T]

/-- `pulse::show_interest` on the pulse `r`. -/
def showInterest (f : Forest T C) (r child : PulseId) (skey : SessionKey) (pic : T) :
    Forest T C :=
  f.modify r (Pulse.insertInterest child (skey, pic))

/-- `pulse::subscribe`. -/
def subscribe (f : Forest T C) (p : PulseId) (pic : T) (cb : C) : Forest T C :=
  let skey := (f.pulse p).session
  let f := f.modify p (Pulse.pushSubscription pic ⟨skey, cb⟩)
  -- the root finds its own subscriptions without an entry
  if !f.isRoot p then
    let f := f.modify p (Pulse.keepInterest (skey, pic))
    f.showInterest (f.getRoot p) p skey pic
  else f

/-- `pulse::bind_child`; a final pulse throws. -/
def bindChild (f : Forest T C) (parent child : PulseId) : Outcome (Forest T C) :=
  if (f.pulse parent).isFinal then .threw f
  else .done (f.modify parent fun o => { o with childs := insert child o.childs })

/-- The child knows its parent. -/
def attach (f : Forest T C) (child parent : PulseId) : Forest T C :=
  { f.modify child fun o => { o with parent := some parent } with ids := f.ids ++ [child] }

/-- `pulse::as_child`. -/
def asChild (f : Forest T C) (child parent : PulseId) : Outcome (Forest T C) :=
  (f.attach child parent).bindChild parent child

/-- `pulse::unbind_child`: only a root gives up the interests of the child. -/
def unbindChild (f : Forest T C) (parent child : PulseId) : Forest T C :=
  let lost := (f.pulse child).selfInterests
  let f := f.modify parent (Pulse.eraseChild child)
  -- the entries of a deeper pulse are at the root as well, and stay there
  if f.isRoot parent then f.modify parent (Pulse.loseInterests child lost) else f

/-- `pulse::stop`; a pulse with bound children throws. -/
def stop (f : Forest T C) (p : PulseId) : Outcome (Forest T C) :=
  if (f.pulse p).stopped then .done f
  else
    -- the flag is set before the check can throw
    let f := f.modify p Pulse.setStopped
    if (f.pulse p).childs.Nonempty then .threw f
    else
      match (f.pulse p).parent with
      | some parent => .done (f.unbindChild parent p)
      | none => .done f

/-! ### Steps -/

/-- The calls on the pulses of a tree. -/
inductive Step (T C : Type)
  | asChild (child parent : PulseId)
  | withSession (p : PulseId) (ss : SessionKey)
  | withStrand (p : PulseId) (key : ℕ)
  | markFinal (p : PulseId)
  | subscribe (p : PulseId) (pic : T) (cb : C)
  | stop (p : PulseId)

/-- The step function.  A pulse is attached once, to a pulse that is attached
already and may have children; a pulse that was stopped does not subscribe;
a pulse with bound children is not stopped. -/
def step (f : Forest T C) : Step T C → Option (Forest T C)
  | .asChild child parent =>
      if child ∉ f.ids ∧ parent ∈ f.ids ∧ (f.pulse parent).isFinal = false then
        some (f.asChild child parent).state
      else none
  | .withSession p ss =>
      if p ∈ f.ids then some (f.modify p fun o => { o with session := ss }) else none
  | .withStrand p key =>
      if p ∈ f.ids then some (f.modify p fun o => { o with strandKey := key }) else none
  | .markFinal p =>
      if p ∈ f.ids then some (f.modify p fun o => { o with isFinal := true }) else none
  | .subscribe p pic cb =>
      if p ∈ f.ids ∧ (f.pulse p).stopped = false then some (f.subscribe p pic cb) else none
  | .stop p =>
      if p ∈ f.ids ∧ (f.pulse p).childs = ∅ then some (f.stop p).state else none

end

/-! ### Reading a changed forest -/

section

variable (f : Forest T C) (p : PulseId) (g : Pulse T C → Pulse T C)

@[simp] theorem root_modify : (f.modify p g).root = f.root := rfl

theorem pulse_modify (c : PulseId) :
    (f.modify p g).pulse c = if c = p then g (f.pulse p) else f.pulse c := by
  by_cases h : c = p
  · subst h
    simp [modify]
  · simp [modify, h]

@[simp] theorem pulse_modify_self : (f.modify p g).pulse p = g (f.pulse p) := by
  simp [modify]

theorem pulse_modify_of_ne {c : PulseId} (h : c ≠ p) : (f.modify p g).pulse c = f.pulse c := by
  simp [modify, h]

/-- A member that the change leaves alone is the same in every object. -/
theorem modify_same {α : Type*} (π : Pulse T C → α) (h : ∀ o, π (g o) = π o) (c : PulseId) :
    π ((f.modify p g).pulse c) = π (f.pulse c) := by
  rw [pulse_modify]
  split
  · next hc => rw [h, hc]
  · rfl

theorem pulse_attach_of_ne (f : Forest T C) {c child : PulseId} (parent : PulseId)
    (h : c ≠ child) : (f.attach child parent).pulse c = f.pulse c :=
  pulse_modify_of_ne f child (fun o => { o with parent := some parent }) h

theorem attach_same (f : Forest T C) (child parent : PulseId) {α : Type*} (π : Pulse T C → α)
    (h : ∀ o : Pulse T C, π { o with parent := some parent } = π o) (c : PulseId) :
    π ((f.attach child parent).pulse c) = π (f.pulse c) :=
  modify_same f child (fun o => { o with parent := some parent }) π h c

end

section Stop

variable [DecidableEq T] {f : Forest T C} {p : PulseId}

theorem stop_of_stopped (hstop : (f.pulse p).stopped = true) : f.stop p = .done f := by
  rw [stop, if_pos hstop]

theorem stop_of_bound (hrun : (f.pulse p).stopped = false) (hne : (f.pulse p).childs.Nonempty) :
    f.stop p = .threw (f.modify p Pulse.setStopped) := by
  have hset : ((f.modify p Pulse.setStopped).pulse p).childs.Nonempty := by
    simpa [Pulse.setStopped] using hne
  rw [stop, if_neg (by simp [hrun])]
  dsimp only
  rw [if_pos hset]

theorem stop_of_childless (hrun : (f.pulse p).stopped = false) (hchilds : (f.pulse p).childs = ∅) :
    f.stop p = .done ((f.pulse p).parent.elim (f.modify p Pulse.setStopped)
      fun q => (f.modify p Pulse.setStopped).unbindChild q p) := by
  have hset : ¬ ((f.modify p Pulse.setStopped).pulse p).childs.Nonempty := by
    simp [Pulse.setStopped, hchilds]
  have hparent : ((f.modify p Pulse.setStopped).pulse p).parent = (f.pulse p).parent := by
    simp [Pulse.setStopped]
  rw [stop, if_neg (by simp [hrun])]
  dsimp only
  rw [if_neg hset, hparent]
  cases (f.pulse p).parent <;> rfl

end Stop

/-! ### The shape of the tree -/

/-- `c` is a descendant of the root. -/
inductive Descendant (f : Forest T C) : PulseId → Prop
  | child {c} : (f.pulse c).parent = some f.root → Descendant f c
  | step {c q} : (f.pulse c).parent = some q → Descendant f q → Descendant f c

/-- The attached pulses form a tree, and the others are as constructed.  The
rank is the order of attachment: it falls along the parents. -/
structure Tree (f : Forest T C) : Prop where
  root_mem : f.root ∈ f.ids
  nodup : f.ids.Nodup
  parent_root : (f.pulse f.root).parent = none
  fresh : ∀ c ∉ f.ids, f.pulse c = {}
  rank : ∃ d : PulseId → ℕ, ∀ c ∈ f.ids, d c < f.ids.length ∧
    (c ≠ f.root → ∃ q ∈ f.ids, (f.pulse c).parent = some q ∧ d q < d c)

namespace Tree

variable {f f' : Forest T C} (hf : Tree f)
include hf

theorem parent_mem {c : PulseId} (hc : c ∈ f.ids) (hne : c ≠ f.root) :
    ∃ q ∈ f.ids, (f.pulse c).parent = some q := by
  obtain ⟨d, hd⟩ := hf.rank
  obtain ⟨q, hq, hp, -⟩ := (hd c hc).2 hne
  exact ⟨q, hq, hp⟩

/-- The walk along the parents ends at the root. -/
theorem getRoot_eq {c : PulseId} (hc : c ∈ f.ids) : f.getRoot c = f.root := by
  obtain ⟨d, hd⟩ := hf.rank
  have walk : ∀ k, ∀ c ∈ f.ids, d c < k → f.getRootLoop k c = f.root := by
    intro k
    induction k with
    | zero => intro c _ hlt; omega
    | succ k ih =>
        intro c hc hlt
        by_cases hroot : c = f.root
        · subst hroot
          rw [getRootLoop, hf.parent_root]
        · obtain ⟨q, hq, hp, hdq⟩ := (hd c hc).2 hroot
          rw [getRootLoop, hp]
          exact ih q hq (by omega)
  exact walk f.ids.length c hc (hd c hc).1

theorem isRoot_iff {c : PulseId} (hc : c ∈ f.ids) : f.isRoot c = true ↔ c = f.root := by
  constructor
  · intro h
    by_contra hne
    obtain ⟨q, -, hp⟩ := hf.parent_mem hc hne
    rw [isRoot, hp] at h
    cases h
  · rintro rfl
    rw [isRoot, hf.parent_root]
    rfl

/-- The descendants of the root are the attached pulses other than itself. -/
theorem descendant_iff {c : PulseId} : Descendant f c ↔ c ∈ f.ids ∧ c ≠ f.root := by
  constructor
  · intro h
    have hp : (f.pulse c).parent ≠ none := by
      cases h with
      | child hp => rw [hp]; simp
      | step hp _ => rw [hp]; simp
    refine ⟨?_, ?_⟩
    · by_contra hc
      exact hp (by rw [hf.fresh c hc])
    · rintro rfl
      exact hp hf.parent_root
  · rintro ⟨hc, hne⟩
    obtain ⟨d, hd⟩ := hf.rank
    -- by induction on the rank
    induction hk : d c using Nat.strong_induction_on generalizing c with
    | _ k ih =>
        obtain ⟨q, hq, hp, hdq⟩ := (hd c hc).2 hne
        by_cases hroot : q = f.root
        · exact .child (hroot ▸ hp)
        · exact .step hp (ih (d q) (hk ▸ hdq) hq hroot rfl)

/-- A call that does not attach keeps the shape. -/
theorem of_same (hroot : f'.root = f.root) (hids : f'.ids = f.ids)
    (hparent : ∀ c, (f'.pulse c).parent = (f.pulse c).parent)
    (hout : ∀ c ∉ f.ids, f'.pulse c = f.pulse c) : Tree f' := by
  refine ⟨hroot ▸ hids ▸ hf.root_mem, hids ▸ hf.nodup, ?_, ?_, ?_⟩
  · rw [hparent, hroot]
    exact hf.parent_root
  · intro c hc
    rw [hids] at hc
    rw [hout c hc]
    exact hf.fresh c hc
  · simpa only [hids, hroot, hparent] using hf.rank

theorem modify {p : PulseId} {g : Pulse T C → Pulse T C} (hp : p ∈ f.ids)
    (hg : ∀ o, (g o).parent = o.parent) : Tree (f.modify p g) := by
  refine hf.of_same rfl rfl (f.modify_same p g Pulse.parent hg) ?_
  intro c hc
  refine pulse_modify_of_ne f p g ?_
  rintro rfl
  exact hc hp

theorem attach {child parent : PulseId} (hchild : child ∉ f.ids) (hparent : parent ∈ f.ids) :
    Tree (f.attach child parent) := by
  have hne : ∀ c ∈ f.ids, c ≠ child := by
    rintro c hc rfl
    exact hchild hc
  have hold : ∀ c, c ≠ child → (f.attach child parent).pulse c = f.pulse c := fun c hc =>
    f.pulse_attach_of_ne parent hc
  refine ⟨?_, ?_, ?_, ?_, ?_⟩
  · exact List.mem_append_left _ hf.root_mem
  · refine List.nodup_append.mpr ⟨hf.nodup, by simp, ?_⟩
    intro c hc c' hc'
    rw [List.mem_singleton.mp hc']
    exact hne c hc
  · show ((f.attach child parent).pulse f.root).parent = none
    rw [hold f.root (hne f.root hf.root_mem)]
    exact hf.parent_root
  · intro c hc
    have hc : c ∉ f.ids ∧ c ≠ child := by simpa [Forest.attach] using hc
    rw [hold c hc.2]
    exact hf.fresh c hc.1
  · -- the new pulse gets the next rank
    obtain ⟨d, hd⟩ := hf.rank
    have hlen : (f.attach child parent).ids.length = f.ids.length + 1 := by simp [Forest.attach]
    refine ⟨Function.update d child f.ids.length, fun c hc => ?_⟩
    rw [hlen]
    rcases List.mem_append.mp hc with hc | hc
    · obtain ⟨hlt, hup⟩ := hd c hc
      rw [Function.update_of_ne (hne c hc), hold c (hne c hc)]
      refine ⟨by omega, fun hroot => ?_⟩
      obtain ⟨q, hq, hp, hdq⟩ := hup hroot
      exact ⟨q, List.mem_append_left _ hq, hp, by rwa [Function.update_of_ne (hne q hq)]⟩
    · obtain rfl := List.mem_singleton.mp hc
      rw [Function.update_self]
      refine ⟨by omega, fun _ => ⟨parent, List.mem_append_left _ hparent, ?_, ?_⟩⟩
      · simp [Forest.attach]
      · rw [Function.update_of_ne (hne parent hparent)]
        exact (hd parent hparent).1

end Tree

theorem tree_new (root : PulseId) : Tree (new root : Forest T C) := by
  refine ⟨by simp [new], by simp [new], rfl, fun c _ => rfl, fun _ => 0, ?_⟩
  intro c hc
  obtain rfl : c = root := by simpa [new] using hc
  exact ⟨by simp [new], fun h => absurd rfl h⟩

end Forest

end Play
