/-
Play/Room.lean

The slots of a `room_actor`.

A reservation takes a slot with an actor in `pending_users_`; a check-in finds
it there by name, puts a new actor into `users_`, starts it and deletes the
pending one, by name as well; a user that leaves, or whose session is closed,
is posted for deletion by id.  A slot is taken as long as one of the containers
holds its actor.  A user that was started is held by the callbacks of its own
pulse too, so that it outlives its deletion and still hears its session.

Nobody holds a pending actor but its container and, in `do_chekin`, the local
`uv`.  When `uv` goes, at the end of `do_chekin`, the actor is destroyed, and
`~actor` calls `stop`, whose `on_stop` is pure virtual by then: the process is
aborted.  So the first check-in that succeeds is the last thing that a room does
(`aborted_doChekin`), and the slots are sound in the runs that grant no
reservation and in no others (`sound_iff_refused`).
-/
import Play.Login

namespace Play

namespace Alpha

/-! ### The room -/

/-- A `room_user_actor`; a pending one has no session. -/
structure RoomUser where
  id : ℕ
  name : String
  session : ℕ := 0
  deriving DecidableEq

instance : Actor RoomUser where
  getId := RoomUser.id
  getName := RoomUser.name
  getSessionKey := RoomUser.session

/-- `user_container` of a `room_actor`. -/
def userIndexes : Indexes := { hasName := true, hasSession := true, hasUuid := false }

/-- `user_pending_container`. -/
def pendingIndexes : Indexes := { hasName := true, hasSession := false, hasUuid := false }

/-- What a room sends.  What is the same in every message of a room is left
out. -/
inductive RoomMsg
  /-- `res_reserve`, to the back. -/
  | resReserve (userName : String) (ec : ErrorCode) (current : ℕ)
  /-- `res_checkin`, to the session, with the names of the users. -/
  | resCheckin (session : ℕ) (ec : ErrorCode) (users : List String)
  /-- `res_leave`, as a notice to the back. -/
  | synLeave (userName : String) (current : ℕ)
  /-- `res_leave`, to the user and to the back. -/
  | resLeave (userName : String) (current : ℕ)
  deriving DecidableEq

/-- A `room_actor`: `next` is the next actor id, `posted` holds the deletions
that are posted and `started` the users whose pulse listens.  `granted`,
`consumed` and `left` keep what happened: the names of the reservations that
were granted and of the check-ins that succeeded, and the ids of the users that
left. -/
structure Room where
  capacity : ℕ
  users : ActorContainer RoomUser := {}
  pending : ActorContainer RoomUser := {}
  next : ℕ := 0
  posted : List ℕ := []
  started : List RoomUser := []
  sent : List RoomMsg := []
  /-- The process was aborted. -/
  aborted : Bool := false
  granted : List String := []
  consumed : List String := []
  left : List ℕ := []

namespace Room

/-- The slots that are taken. -/
def taken (s : Room) : ℕ := s.users.size + s.pending.size

/-- Messages go out. -/
def send (s : Room) (msgs : List RoomMsg) : Room := { s with sent := s.sent ++ msgs }

/-- `send_res_reserve_f2b`. -/
def sendResReserveF2b (s : Room) (userName : String) (ec : ErrorCode) : Room :=
  s.send [.resReserve userName ec s.taken]

/-- `do_reserve` adds a pending actor. -/
def addPending (s : Room) (userName : String) : Room :=
  { s with
    pending := (s.pending.add pendingIndexes { id := s.next, name := userName }).1
    next := s.next + 1
    granted := s.granted ++ [userName] }

/-- `do_reserve`. -/
def doReserve (s : Room) (userName : String) : Room :=
  if s.capacity > s.taken then (s.addPending userName).sendResReserveF2b userName .success
  else s.sendResReserveF2b userName .failRoomFull

/-- `do_chekin` adds a user, starts it and deletes the pending one. -/
def addUser (s : Room) (session : ℕ) (userName : String) : Room :=
  let user : RoomUser := { id := s.next, name := userName, session }
  { s with
    users := (s.users.add userIndexes user).1
    pending := (s.pending.del pendingIndexes (.name userName)).1
    next := s.next + 1
    started := s.started ++ [user]
    consumed := s.consumed ++ [userName] }

/-- A reference to a pending actor goes.  The last one destroys the actor:
`~actor` calls a pure virtual `on_stop`. -/
def release (s : Room) (u : RoomUser) : Room :=
  if (s.pending.actors.lookup u.id).isNone then { s with aborted := true } else s

/-- The names of the users.  `for_each` goes by id, and the ids are given in
order. -/
def userNames (s : Room) : List String := s.users.actors.entries.reverse.map fun e => e.2.name

/-- `do_chekin`. -/
def doChekin (s : Room) (session : ℕ) (userName : String) : Room :=
  match s.pending.find (.name userName) with
  | some uv =>
      let s := s.addUser session userName
      (s.send [.resCheckin session .success s.userNames]).release uv
  | none => s.send [.resCheckin session .failRoomUserNotFound []]

/-- `send_syn_leave_f2b`. -/
def sendSynLeaveF2b (s : Room) (u : RoomUser) : Room := s.send [.synLeave u.name s.users.size]

/-- `post_del_user`. -/
def postDelUser (s : Room) (id : ℕ) : Room :=
  { s with posted := s.posted ++ [id], left := s.left ++ [id] }

/-- `room_user_actor::on_req_leave`. -/
def onReqLeave (s : Room) (u : RoomUser) : Room :=
  let s := (s.sendSynLeaveF2b u).postDelUser u.id
  s.send [.resLeave u.name s.users.size, .resLeave u.name s.users.size]

/-- `room_user_actor::on_closed`. -/
def onClosed (s : Room) (u : RoomUser) : Room := (s.sendSynLeaveF2b u).postDelUser u.id

/-- The handler that `post_del_user` posts. -/
def delUser (s : Room) (id : ℕ) : Room :=
  { s with users := (s.users.del userIndexes (.id id)).1 }

/-- One step. -/
inductive Event
  | reserve (userName : String)
  | chekin (session : ℕ) (userName : String)
  /-- A session asks to leave, or is closed, and a user that was started for it
  hears it, in the room or not. -/
  | leave (u : RoomUser)
  | closed (u : RoomUser)
  /-- A posted deletion is run. -/
  | deletion

/-- What a step does to a room that is there. -/
def handle (s : Room) : Event → Option Room
  | .reserve n => some (s.doReserve n)
  | .chekin se n => some (s.doChekin se n)
  | .leave u => if u ∈ s.started then some (s.onReqLeave u) else none
  | .closed u => if u ∈ s.started then some (s.onClosed u) else none
  | .deletion =>
      match s.posted with
      | [] => none
      | id :: rest => some ({ s with posted := rest }.delUser id)

/-- The step function; after an abort there is no step. -/
def step (s : Room) (e : Event) : Option Room := if s.aborted then none else s.handle e

/-! ### What is claimed -/

/-- The reservations of a name that were granted and are not consumed. -/
def outstanding (s : Room) (n : String) : ℕ := s.granted.count n - s.consumed.count n

/-- The next `k` check-ins under a name succeed and return. -/
def Consumes (n : String) : ℕ → Room → Prop
  | 0, _ => True
  | k + 1, s => (s.pending.find (.name n)).isSome = true ∧
      ∀ se, (s.doChekin se n).aborted = false ∧ Consumes n k (s.doChekin se n)

/-- The slots are bounded, every reservation can be consumed, and when all are
and every user has left, no slot is taken. -/
structure Sound (s : Room) : Prop where
  bounded : s.taken ≤ s.capacity
  consumable : ∀ n, Consumes n (s.outstanding n) s
  released : (∀ n, s.outstanding n = 0) → (∀ u ∈ s.started, u.id ∈ s.left) → s.posted = [] →
    s.taken = 0

/-- A reservation finds the room full. -/
def Refused (s : Room) : Event → Prop
  | .reserve _ => ¬ s.capacity > s.taken
  | _ => True

instance (s : Room) : (e : Event) → Decidable (s.Refused e)
  | .reserve _ => inferInstanceAs (Decidable (¬ s.capacity > s.taken))
  | .chekin _ _ | .leave _ | .closed _ | .deletion => isTrue trivial

/-! ### The bound -/

variable {s s' : Room} {e : Event} {n : String}

/-- The ids that are still to be given were never used, a pending actor is
stored under its id, and no more slots are taken than there are. -/
structure Core (s : Room) : Prop where
  users : ∀ id a, s.users.actors.lookup id = some a → id < s.next
  pending : ∀ id a, s.pending.actors.lookup id = some a → id < s.next
  ids : ∀ id a, s.pending.actors.lookup id = some a → a.id = id
  bounded : s.taken ≤ s.capacity

theorem core_init (capacity : ℕ) : ({ capacity } : Room).Core where
  users id a h := by simp at h
  pending id a h := by simp at h
  ids id a h := by simp at h
  bounded := Nat.zero_le _

theorem lookup_next {c : ActorContainer RoomUser} {next : ℕ}
    (h : ∀ id a, c.actors.lookup id = some a → id < next) : c.actors.lookup next = none := by
  rcases e : c.actors.lookup next with - | a
  · rfl
  · exact absurd (h next a e) (lt_irrefl _)

theorem core_send (h : s.Core) (msgs : List RoomMsg) : (s.send msgs).Core :=
  ⟨h.users, h.pending, h.ids, h.bounded⟩

theorem core_release (h : s.Core) (u : RoomUser) : (s.release u).Core := by
  unfold release
  split
  · exact ⟨h.users, h.pending, h.ids, h.bounded⟩
  · exact h

/-- What a step can do, up to the messages that it sends. -/
theorem step_cases (hstep : s.step e = some s') :
    (∃ msgs, s' = s.send msgs ∧ ((∃ n, e = .reserve n ∧ ¬ s.capacity > s.taken) ∨
      ∃ se n, e = .chekin se n ∧ s.pending.find (.name n) = none)) ∨
    (∃ msgs n, s' = (s.addPending n).send msgs ∧ e = .reserve n ∧ s.capacity > s.taken) ∨
    (∃ msgs se n uv, s' = ((s.addUser se n).send msgs).release uv ∧ e = .chekin se n ∧
      s.pending.find (.name n) = some uv) ∨
    (∃ msgs u, s' = (s.postDelUser u.id).send msgs ∧ u ∈ s.started ∧
      (e = .leave u ∨ e = .closed u)) ∨
    (∃ id rest, s' = { s with posted := rest }.delUser id ∧ s.posted = id :: rest ∧
      e = .deletion) := by
  unfold step at hstep
  split at hstep
  · cases hstep
  cases e with
  | reserve n =>
      obtain rfl := Option.some.inj hstep
      unfold doReserve
      split
      · next hroom => exact .inr (.inl ⟨_, n, rfl, rfl, hroom⟩)
      · next hfull => exact .inl ⟨_, rfl, .inl ⟨n, rfl, hfull⟩⟩
  | chekin se n =>
      obtain rfl := Option.some.inj hstep
      unfold doChekin
      split
      · next uv huv => exact .inr (.inr (.inl ⟨_, se, n, uv, rfl, rfl, huv⟩))
      · next hnone => exact .inl ⟨_, rfl, .inr ⟨se, n, rfl, hnone⟩⟩
  | leave u =>
      simp only [handle, Option.ite_none_right_eq_some, Option.some.injEq] at hstep
      obtain ⟨hu, rfl⟩ := hstep
      have hsend : ∀ (t : Room) (ms ms' : List RoomMsg),
          ((t.send ms).postDelUser u.id).send ms' = (t.postDelUser u.id).send (ms ++ ms') := by
        intro t ms ms'
        simp [send, postDelUser]
      exact .inr (.inr (.inr (.inl ⟨_, u, hsend s _ _, hu, .inl rfl⟩)))
  | closed u =>
      simp only [handle, Option.ite_none_right_eq_some, Option.some.injEq] at hstep
      obtain ⟨hu, rfl⟩ := hstep
      exact .inr (.inr (.inr (.inl ⟨_, u, rfl, hu, .inr rfl⟩)))
  | deletion =>
      simp only [handle] at hstep
      split at hstep
      · cases hstep
      · next id rest hp =>
          obtain rfl := Option.some.inj hstep
          exact .inr (.inr (.inr (.inr ⟨id, rest, rfl, hp, rfl⟩)))

theorem core_addPending (h : s.Core) (hroom : s.capacity > s.taken) (n : String) :
    (s.addPending n).Core := by
  have hnew : s.pending.actors.lookup (Actor.getId ({ id := s.next, name := n } : RoomUser)) =
      none := lookup_next h.pending
  refine ⟨fun id a ha => (h.users id a ha).trans (Nat.lt_succ_self _), fun id a ha => ?_,
    fun id a ha => ?_, ?_⟩
  · rw [addPending, ActorContainer.actors_add hnew, Map.lookup_insertNew_eq_some] at ha
    rcases ha with ha | ⟨rfl, -⟩
    · exact (h.pending id a ha).trans (Nat.lt_succ_self _)
    · exact Nat.lt_succ_self _
  · rw [addPending, ActorContainer.actors_add hnew, Map.lookup_insertNew_eq_some] at ha
    rcases ha with ha | ⟨rfl, -, rfl⟩
    · exact h.ids id a ha
    · rfl
  · show s.users.size + (s.pending.add pendingIndexes _).1.size ≤ s.capacity
    rw [ActorContainer.size_add hnew]
    exact hroom

/-- The slot moves from one container to the other. -/
theorem core_addUser {uv : RoomUser} (h : s.Core) (hfind : s.pending.find (.name n) = some uv)
    (se : ℕ) : (s.addUser se n).Core := by
  have hnew : s.users.actors.lookup
      (Actor.getId ({ id := s.next, name := n, session := se } : RoomUser)) = none :=
    lookup_next h.users
  obtain ⟨it, hit, -⟩ := Option.map_eq_some_iff.mp hfind
  refine ⟨fun id a ha => ?_, fun id a ha => ?_, fun id a ha => ?_, ?_⟩
  · rw [addUser, ActorContainer.actors_add hnew, Map.lookup_insertNew_eq_some] at ha
    rcases ha with ha | ⟨rfl, -⟩
    · exact (h.users id a ha).trans (Nat.lt_succ_self _)
    · exact Nat.lt_succ_self _
  · rw [addUser, ActorContainer.actors_del hit, Map.lookup_erase_eq_some] at ha
    exact (h.pending id a ha.2).trans (Nat.lt_succ_self _)
  · rw [addUser, ActorContainer.actors_del hit, Map.lookup_erase_eq_some] at ha
    exact h.ids id a ha.2
  · have hsize : (s.pending.del pendingIndexes (.name n)).1.size + 1 = s.pending.size :=
      ActorContainer.size_del hit
    have hbound : s.users.size + s.pending.size ≤ s.capacity := h.bounded
    show (s.users.add userIndexes _).1.size + (s.pending.del pendingIndexes _).1.size ≤ s.capacity
    rw [ActorContainer.size_add hnew]
    omega

theorem core_delUser (h : s.Core) (id : ℕ) (rest : List ℕ) :
    ({ s with posted := rest }.delUser id).Core := by
  refine ⟨fun j a ha => ?_, h.pending, h.ids, ?_⟩
  · change (s.users.del userIndexes (.id id)).1.actors.lookup j = some a at ha
    rw [ActorContainer.lookup_del_id] at ha
    split at ha
    · cases ha
    · exact h.users j a ha
  · have hsize : (s.users.del userIndexes (.id id)).1.size ≤ s.users.size :=
      ActorContainer.size_del_le
    exact (Nat.add_le_add_right hsize _).trans h.bounded

/-- **The slots stay bounded, whatever happens.** -/
theorem core_step (h : s.Core) (hstep : s.step e = some s') : s'.Core := by
  rcases step_cases hstep with ⟨msgs, rfl, -⟩ | ⟨msgs, n, rfl, -, hroom⟩ |
    ⟨msgs, se, n, uv, rfl, -, hfind⟩ | ⟨msgs, u, rfl, -⟩ | ⟨id, rest, rfl, -⟩
  · exact core_send h msgs
  · exact core_send (core_addPending h hroom n) msgs
  · exact core_release (core_send (core_addUser h hfind se) msgs) uv
  · exact core_send (s := s.postDelUser u.id) ⟨h.users, h.pending, h.ids, h.bounded⟩ msgs
  · exact core_delUser h id rest

theorem bounded_run {capacity : ℕ} {es : List Event}
    (hrun : runSteps step ({ capacity } : Room) es = some s) : s.taken ≤ s.capacity :=
  (runSteps_invariant (I := Core) core_step (core_init capacity) hrun).bounded

/-! ### The end of a check-in -/

/-- **A check-in that succeeds aborts the process**: the name leads to the
actor that is deleted, and its last reference goes with `uv`. -/
theorem aborted_doChekin {uv : RoomUser} (h : s.Core)
    (hfind : s.pending.find (.name n) = some uv) (se : ℕ) : (s.doChekin se n).aborted = true := by
  obtain ⟨it, hit, rfl⟩ := Option.map_eq_some_iff.mp hfind
  have hid : it.2.id = it.1 := h.ids it.1 it.2 (ActorContainer.lookup_of_iter hit)
  have hgone : (s.addUser se n).pending.actors.lookup it.2.id = none := by
    rw [addUser, ActorContainer.actors_del hit, Map.lookup_erase_eq, if_pos hid]
  have hdo : s.doChekin se n = ((s.addUser se n).send
      [.resCheckin se .success (s.addUser se n).userNames]).release it.2 := by
    rw [doChekin, hfind]
  rw [hdo, release, if_pos]
  rw [send, hgone]
  rfl

/-- A reservation that was granted cannot be consumed. -/
theorem not_consumes (h : s.Core) {k : ℕ} (hk : 0 < k) : ¬ Consumes n k s := by
  obtain ⟨k, rfl⟩ := Nat.exists_eq_succ_of_ne_zero hk.ne'
  rintro ⟨hsome, hreturns⟩
  obtain ⟨uv, hfind⟩ := Option.isSome_iff_exists.mp hsome
  have hno := (hreturns 0).1
  rw [aborted_doChekin h hfind] at hno
  cases hno

/-! ### Rooms that refuse -/

/-- A room that has granted no reservation is empty. -/
structure Idle (s : Room) : Prop extends Core s where
  noUser : ∀ id, s.users.actors.lookup id = none
  noPending : ∀ id, s.pending.actors.lookup id = none
  notPosted : s.posted = []
  notStarted : s.started = []
  notGranted : s.granted = []
  notConsumed : s.consumed = []

theorem idle_init (capacity : ℕ) : ({ capacity } : Room).Idle where
  toCore := core_init capacity
  noUser _ := rfl
  noPending _ := rfl
  notPosted := rfl
  notStarted := rfl
  notGranted := rfl
  notConsumed := rfl

theorem Idle.find (h : s.Idle) : s.pending.find (.name n) = none := by
  rcases e : s.pending.find (.name n) with - | u
  · rfl
  · obtain ⟨it, hit, -⟩ := Option.map_eq_some_iff.mp e
    have hstored := ActorContainer.lookup_of_iter hit
    rw [h.noPending] at hstored
    cases hstored

theorem Idle.sound (h : s.Idle) : s.Sound := by
  have hout : ∀ n, s.outstanding n = 0 := by
    intro n
    rw [outstanding, h.notGranted, List.count_nil, Nat.zero_sub]
  refine ⟨h.bounded, fun n => ?_, fun _ _ _ => ?_⟩
  · rw [hout]
    trivial
  · have husers : s.users.size = 0 := Map.size_eq_zero h.noUser
    have hpending : s.pending.size = 0 := Map.size_eq_zero h.noPending
    rw [taken, husers, hpending]

theorem idle_step (h : s.Idle) (hG : s.Refused e) (hstep : s.step e = some s') : s'.Idle := by
  rcases step_cases hstep with ⟨msgs, rfl, -⟩ | ⟨msgs, n, -, rfl, hroom⟩ |
    ⟨msgs, se, n, uv, -, -, hfind⟩ | ⟨msgs, u, -, hu, -⟩ | ⟨id, rest, -, hp, -⟩
  · exact ⟨core_send h.toCore msgs, h.noUser, h.noPending, h.notPosted, h.notStarted,
      h.notGranted, h.notConsumed⟩
  · exact absurd hroom hG
  · rw [h.find] at hfind
    cases hfind
  · rw [h.notStarted] at hu
    cases hu
  · rw [h.notPosted] at hp
    cases hp

/-- **The slots of a room are sound exactly in the runs that grant no
reservation**, for every capacity and every order of reservations, check-ins,
leaves, closed sessions and deletions. -/
theorem sound_iff_refused {capacity : ℕ} {es : List Event}
    (hrun : runSteps step ({ capacity } : Room) es = some s) :
    Always step Sound { capacity } es ↔ Along step Refused { capacity } es := by
  refine always_iff_along (I := Idle) Idle.sound (fun h hG hs => idle_step h hG hs) ?_
    (idle_init capacity) hrun
  intro s e s' h hG hs hsound
  have hcore := core_step h.toCore hs
  rcases step_cases hs with ⟨msgs, -, ⟨n, rfl, hfull⟩ | ⟨se, n, rfl, -⟩⟩ |
    ⟨msgs, n, rfl, rfl, hroom⟩ | ⟨msgs, se, n, uv, -, rfl, -⟩ | ⟨msgs, u, -, -, rfl | rfl⟩ |
    ⟨id, rest, -, -, rfl⟩
  · exact hG hfull
  · exact hG trivial
  · -- one more reservation than check-ins
    refine not_consumes hcore ?_ (hsound.consumable n)
    show 0 < (s.granted ++ [n]).count n - s.consumed.count n
    rw [h.notGranted, h.notConsumed, List.nil_append, List.count_singleton_self, List.count_nil]
    exact Nat.one_pos
  all_goals exact hG trivial

/-- A room without a slot. -/
theorem sound_noSlot :
    Always step Sound { capacity := 0 } [.reserve "a", .chekin 1 "a", .reserve "b"] := by
  have hrun : (runSteps step ({ capacity := 0 } : Room)
      [.reserve "a", .chekin 1 "a", .reserve "b"]).isSome := by decide +kernel
  obtain ⟨s, hs⟩ := Option.isSome_iff_exists.mp hrun
  exact (sound_iff_refused hs).mpr (by decide +kernel)

/-- A room for two, whose only user reserves and checks in: the reservation is
granted, and the check-in aborts the process. -/
theorem chekin_aborts :
    (∃ s, runSteps step ({ capacity := 2 } : Room) [.reserve "a"] = some s ∧
      s.granted = ["a"] ∧ (s.doChekin 1 "a").aborted = true) ∧
    ¬ Always step Sound { capacity := 2 } [.reserve "a", .chekin 1 "a"] := by
  refine ⟨⟨_, rfl, rfl, by decide +kernel⟩, fun hall => ?_⟩
  have hsound := hall [.reserve "a"] _ (List.prefix_append _ _) rfl
  have hreturns := ((hsound.consumable "a").2 1).1
  revert hreturns
  decide +kernel

end Room

end Alpha

end Play
