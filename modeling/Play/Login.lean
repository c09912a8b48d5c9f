/-
Play/Login.lean

Logins of the alpha sample: any number of fronts, each a `lobby_runner` with
its `lobby_user_actor`s, and one back, the `user_master`.

A login request makes a new actor in the front, whatever is in `users_`, and
the actor asks the back.  The back answers every request with a notice to all
fronts, in the order in which it takes the requests.  A front looks the name
of a notice up in `users_`: an actor that is pending is logged in by it,
whosever request it answers, and one that is logged in is kicked out and
posted for deletion.  Messages between a front and the back arrive in order.

The bookkeeping that `pulse::call` does for the requests is left out, and so
is the `users_` of the back, which a login only adds to.

`converged_of_orderly`: in a run in which every request finds no actor of its
name in its front, no notice of the name on the way to it and no request of
the name on the way to the back, the last request that the back took wins.
-/
import Play.Container
import Mathlib.Data.Fintype.Basic

namespace Play

namespace Alpha

/-- `error_code`. -/
inductive ErrorCode
  | success
  | failBackendNotResponding
  | failUserNotAuthenticated
  | failKickoutByDuplicateLogin
  | failRoomNotFound
  | failRoomFull
  | failRoomUserNotFound
  | failRoomRunnerNotFound
  deriving DecidableEq

/-! ### A front -/

/-- What does not change of a `lobby_user_actor`. -/
structure LobbyUser where
  id : ℕ
  name : String
  session : ℕ
  deriving DecidableEq

instance : Actor LobbyUser where
  getId := LobbyUser.id
  getName := LobbyUser.name
  getSessionKey := LobbyUser.session

/-- `lobby_user_actor::state`. -/
inductive UserState
  | pending
  | login
  deriving DecidableEq

/-- What an actor sends to its session. -/
inductive Reply
  | resLogin (ec : ErrorCode)
  | synKickout (ec : ErrorCode)
  deriving DecidableEq

/-- `req_login_f2b`, with the id of the actor that sent it, which the back
does not see. -/
structure ReqLogin where
  name : String
  user : ℕ
  deriving DecidableEq

/-- `syn_login_b2f`. -/
structure SynLogin where
  ec : ErrorCode
  name : String
  deriving DecidableEq

/-- A `lobby_runner`: its actors and the `state_` of each by id, what they
sent to their sessions, the requests on the way to the back, the notices on
the way from it, and the deletions that are posted. -/
structure Front where
  users : ActorContainer LobbyUser := {}
  state : ℕ → UserState := fun _ => .pending
  sent : List (ℕ × Reply) := []
  requests : List ReqLogin := []
  notices : List SynLogin := []
  posted : List ℕ := []

/-- `user_container` of a `lobby_runner`. -/
def lobbyIndexes : Indexes := { hasName := true, hasSession := true, hasUuid := false }

namespace Front

/-- `on_auth_req_login`, then `on_start` of the new actor. -/
def onAuthReqLogin (fr : Front) (u : LobbyUser) : Front :=
  { fr with
    users := (fr.users.add lobbyIndexes u).1
    requests := fr.requests ++ [⟨u.name, u.id⟩] }

/-- `post_del_user`. -/
def postDelUser (fr : Front) (id : ℕ) : Front := { fr with posted := fr.posted ++ [id] }

/-- `send` to the session of an actor. -/
def send (fr : Front) (id : ℕ) (r : Reply) : Front := { fr with sent := fr.sent ++ [(id, r)] }

/-- `lobby_user_actor::do_login`. -/
def doLogin (fr : Front) (u : LobbyUser) (syn : SynLogin) : Front :=
  if syn.ec = .success then
    match fr.state u.id with
    | .pending =>
        { fr with state := Function.update fr.state u.id .login }.send u.id (.resLogin .success)
    | .login =>
        (fr.send u.id (.synKickout .failKickoutByDuplicateLogin)).postDelUser u.id
  else (fr.send u.id (.resLogin syn.ec)).postDelUser u.id

/-- `on_auth_syn_login_b2f`. -/
def onAuthSynLogin (fr : Front) (syn : SynLogin) : Front :=
  match fr.users.find (.name syn.name) with
  | none => fr
  | some u => fr.doLogin u syn

/-- The handler that `post_del_user` posts. -/
def delUser (fr : Front) (id : ℕ) : Front :=
  { fr with users := (fr.users.del lobbyIndexes (.id id)).1 }

end Front

/-! ### Fronts and back -/

/-- The system: `next` is the next actor id, `created` holds the actors that
were made and `last`, by name, the front and the actor of the request that the
back took last. -/
structure Logins (F : Type*) where
  fronts : F → Front := fun _ => {}
  next : ℕ := 0
  created : List (F × LobbyUser) := []
  last : String → Option (F × ℕ) := fun _ => none

/-- One step. -/
inductive Event (F : Type*)
  /-- A `req_login` arrives at a front. -/
  | login (f : F) (name : String) (session : ℕ)
  /-- The back takes a request of a front. -/
  | request (f : F)
  /-- A front takes a notice. -/
  | notice (f : F)
  /-- A front runs a posted deletion. -/
  | deletion (f : F)

namespace Logins

variable {F : Type*} [DecidableEq F]

/-- Put a front in its place. -/
def setFront (s : Logins F) (f : F) (fr : Front) : Logins F :=
  { s with fronts := Function.update s.fronts f fr }

/-- `user_master::on_auth_req_login_f2b`: a notice goes to every front. -/
def onAuthReqLoginF2b (s : Logins F) (f : F) (r : ReqLogin) : Logins F :=
  { s with
    fronts := fun g =>
      { s.fronts g with notices := (s.fronts g).notices ++ [⟨.success, r.name⟩] }
    last := Function.update s.last r.name (some (f, r.user)) }

/-- The step function. -/
def step (s : Logins F) : Event F → Option (Logins F)
  | .login f name session =>
      let u : LobbyUser := ⟨s.next, name, session⟩
      some { s.setFront f ((s.fronts f).onAuthReqLogin u) with
        next := s.next + 1
        created := s.created ++ [(f, u)] }
  | .request f =>
      match (s.fronts f).requests with
      | [] => none
      | r :: rs => some ((s.setFront f { s.fronts f with requests := rs }).onAuthReqLoginF2b f r)
  | .notice f =>
      match (s.fronts f).notices with
      | [] => none
      | syn :: rest => some (s.setFront f ({ s.fronts f with notices := rest }.onAuthSynLogin syn))
  | .deletion f =>
      match (s.fronts f).posted with
      | [] => none
      | id :: rest => some (s.setFront f ({ s.fronts f with posted := rest }.delUser id))

end Logins

/-! ### What is claimed -/

namespace Front

/-- The actor has been told that it failed or is kicked out. -/
def Told (fr : Front) (u : LobbyUser) : Prop :=
  ∃ r, (u.id, r) ∈ fr.sent ∧ r ≠ .resLogin .success

/-- A request of the actor is on its way. -/
def Asked (fr : Front) (u : LobbyUser) : Prop := ∃ r ∈ fr.requests, r.user = u.id

/-- The number of notices of a name that are on their way. -/
def due (fr : Front) (n : String) : ℕ := fr.notices.countP (·.name = n)

end Front

namespace Logins

variable {F : Type*} [DecidableEq F]

/-- All messages and posted deletions have been processed. -/
def Quiet (s : Logins F) : Prop :=
  ∀ f, (s.fronts f).requests = [] ∧ (s.fronts f).notices = [] ∧ (s.fronts f).posted = []

instance [Fintype F] (s : Logins F) : Decidable s.Quiet := inferInstanceAs (Decidable (∀ f,
  (s.fronts f).requests = [] ∧ (s.fronts f).notices = [] ∧ (s.fronts f).posted = []))

/-- Of the actors of every name that was asked for, one is logged in, the one
whose request the back took last, and every other one has been told and
removed. -/
def Converged (s : Logins F) : Prop :=
  ∀ f u, (f, u) ∈ s.created →
    ∃ g v, (g, v) ∈ s.created ∧ v.name = u.name ∧ s.last u.name = some (g, v.id) ∧
      (s.fronts g).users.Stored v ∧ (s.fronts g).state v.id = .login ∧
      ((f, u) ≠ (g, v) → ¬ (s.fronts f).users.Stored u ∧ (s.fronts f).Told u)

/-- What is asked of a login request: there is no actor of its name in the
front, no notice of the name on the way to it, and no request of the name on
the way to the back. -/
def Orderly (s : Logins F) : Event F → Prop
  | .login f name _ =>
      (s.fronts f).users.find (.name name) = none ∧ (s.fronts f).due name = 0 ∧
        ∀ g, ∀ r ∈ (s.fronts g).requests, r.name ≠ name
  | _ => True

instance [Fintype F] (s : Logins F) : (e : Event F) → Decidable (s.Orderly e)
  | .login f name _ => inferInstanceAs (Decidable (
      (s.fronts f).users.find (.name name) = none ∧ (s.fronts f).due name = 0 ∧
        ∀ g, ∀ r ∈ (s.fronts g).requests, r.name ≠ name))
  | .request _ | .notice _ | .deletion _ => isTrue trivial

end Logins

/-! ### The state of an actor -/

/-- The notices that an actor takes before it is kicked out by the next
one. -/
def UserState.need : UserState → ℕ
  | pending => 1
  | login => 0

/-- How far an actor of the front `f` has come, `last` being whose request of
its name the back took last.  An actor takes its own notice first, since none
was on its way when it was made; once another request is taken it has one
notice too many on its way, until it is kicked out. -/
inductive Status {F : Type*} (fr : Front) (last : Option (F × ℕ)) (f : F) (u : LobbyUser) : Prop
  | waiting : fr.Asked u → fr.users.Stored u → u.id ∉ fr.posted → fr.state u.id = .pending →
      fr.due u.name = 0 → Status fr last f u
  | current : ¬ fr.Asked u → last = some (f, u.id) → fr.users.Stored u → u.id ∉ fr.posted →
      fr.due u.name = (fr.state u.id).need → Status fr last f u
  | leaving (x : F × ℕ) : ¬ fr.Asked u → last = some x → x ≠ (f, u.id) → fr.users.Stored u →
      u.id ∉ fr.posted → (fr.state u.id).need < fr.due u.name → Status fr last f u
  | kicked (x : F × ℕ) : ¬ fr.Asked u → last = some x → x ≠ (f, u.id) → fr.Told u →
      (fr.users.Stored u → u.id ∈ fr.posted ∧ fr.state u.id = .login) → Status fr last f u

/-- Nothing that the status of an actor depends on is different. -/
structure Front.Same (fr fr' : Front) (u : LobbyUser) : Prop where
  asked : fr'.Asked u ↔ fr.Asked u
  stored : fr'.users.Stored u ↔ fr.users.Stored u
  posted : u.id ∈ fr'.posted ↔ u.id ∈ fr.posted
  state : fr'.state u.id = fr.state u.id
  due : fr'.due u.name = fr.due u.name
  told : fr.Told u → fr'.Told u

namespace Status

variable {F : Type*} {fr fr' : Front} {last : Option (F × ℕ)} {f : F} {u : LobbyUser}

theorem congr (h : Status fr last f u) (hsame : fr.Same fr' u) : Status fr' last f u := by
  cases h with
  | waiting hask hst hpost hstate hdue =>
      exact .waiting (hsame.asked.mpr hask) (hsame.stored.mpr hst) (mt hsame.posted.mp hpost)
        (hsame.state.trans hstate) (hsame.due.trans hdue)
  | current hask hlast hst hpost hdue =>
      refine .current (mt hsame.asked.mp hask) hlast (hsame.stored.mpr hst)
        (mt hsame.posted.mp hpost) ?_
      rw [hsame.due, hsame.state, hdue]
  | leaving x hask hlast hx hst hpost hdue =>
      refine .leaving x (mt hsame.asked.mp hask) hlast hx (hsame.stored.mpr hst)
        (mt hsame.posted.mp hpost) ?_
      rwa [hsame.due, hsame.state]
  | kicked x hask hlast hx htold hst =>
      refine .kicked x (mt hsame.asked.mp hask) hlast hx (hsame.told htold) fun hst' => ?_
      rw [hsame.posted, hsame.state]
      exact hst (hsame.stored.mp hst')

/-- An actor that is not stored has been kicked out, and stays so. -/
theorem congr_of_not_stored (h : Status fr last f u) (hst : ¬ fr.users.Stored u)
    (hst' : ¬ fr'.users.Stored u) (hask : fr'.Asked u → fr.Asked u)
    (htold : fr.Told u → fr'.Told u) : Status fr' last f u := by
  cases h with
  | waiting _ h => exact absurd h hst
  | current _ _ h => exact absurd h hst
  | leaving _ _ _ _ h => exact absurd h hst
  | kicked x hask' hlast hx htold' _ =>
      exact .kicked x (mt hask hask') hlast hx (htold htold') fun h => absurd h hst'

/-- Another request is taken. -/
theorem superseded {x : F × ℕ} (h : Status fr last f u) (hask : ¬ fr.Asked u)
    (hx : x ≠ (f, u.id)) (hask' : ¬ fr'.Asked u) (hst : fr'.users = fr.users)
    (hpost : fr'.posted = fr.posted) (hstate : fr'.state = fr.state)
    (hdue : fr'.due u.name = fr.due u.name + 1) (htold : fr'.sent = fr.sent) :
    Status fr' (some x) f u := by
  cases h with
  | waiting hask'' => exact absurd hask'' hask
  | current _ _ h hp hd =>
      refine .leaving x hask' rfl hx (hst ▸ h) (hpost ▸ hp) ?_
      rw [hdue, hstate, hd]
      omega
  | leaving _ _ _ _ h hp hd =>
      refine .leaving x hask' rfl hx (hst ▸ h) (hpost ▸ hp) ?_
      rw [hdue, hstate]
      omega
  | kicked _ _ _ _ ht h =>
      refine .kicked x hask' rfl hx ?_ fun h' => ?_
      · rwa [Front.Told, htold]
      · rw [hpost, hstate]
        exact h (hst ▸ h')

end Status

/-! ### What a notice does to the actors of a front -/

namespace Front

variable (fr : Front) (u : LobbyUser) (syn : SynLogin)

theorem onAuthSynLogin_of_none (hfind : fr.users.find (.name syn.name) = none) :
    fr.onAuthSynLogin syn = fr := by
  rw [onAuthSynLogin, hfind]

variable {u} in
theorem onAuthSynLogin_of_some (hfind : fr.users.find (.name syn.name) = some u) :
    fr.onAuthSynLogin syn = fr.doLogin u syn := by
  rw [onAuthSynLogin, hfind]

theorem doLogin_same :
    (fr.doLogin u syn).users = fr.users ∧ (fr.doLogin u syn).requests = fr.requests ∧
      (fr.doLogin u syn).notices = fr.notices := by
  unfold doLogin
  split
  · split <;> exact ⟨rfl, rfl, rfl⟩
  · exact ⟨rfl, rfl, rfl⟩

theorem doLogin_other {id : ℕ} (hid : id ≠ u.id) :
    (fr.doLogin u syn).state id = fr.state id ∧
      (id ∈ (fr.doLogin u syn).posted ↔ id ∈ fr.posted) := by
  have hposted : id ∈ fr.posted ++ [u.id] ↔ id ∈ fr.posted := by
    rw [List.mem_append, List.mem_singleton]
    exact or_iff_left hid
  unfold doLogin
  split
  · split
    · exact ⟨Function.update_of_ne hid .., .rfl⟩
    · exact ⟨rfl, hposted⟩
  · exact ⟨rfl, hposted⟩

theorem told_doLogin {v : LobbyUser} (htold : fr.Told v) : (fr.doLogin u syn).Told v := by
  obtain ⟨r, hr, hne⟩ := htold
  refine ⟨r, ?_, hne⟩
  unfold doLogin
  split
  · split <;> exact List.mem_append_left _ hr
  · exact List.mem_append_left _ hr

end Front

/-- The actor that is found takes a notice off those that are due to it: it is
logged in, or kicked out and posted for deletion. -/
theorem Status.doLogin {F : Type*} {fr fr₀ : Front} {last : Option (F × ℕ)} {f : F}
    {u : LobbyUser} {syn : SynLogin} (h : Status fr last f u) (hst : fr.users.Stored u)
    (hec : syn.ec = .success) (hdue : fr.due u.name = fr₀.due u.name + 1)
    (hsame : ∃ ns, fr₀ = { fr with notices := ns }) : Status (fr₀.doLogin u syn) last f u := by
  obtain ⟨ns, rfl⟩ := hsame
  unfold Front.doLogin
  rw [if_pos hec]
  dsimp only
  cases hstate : fr.state u.id with
  | pending =>
      have hlogin : Function.update fr.state u.id .login u.id = .login := Function.update_self ..
      cases h with
      | waiting _ _ _ _ hd => omega
      | current hask hlast _ hpost hd =>
          refine .current hask hlast hst hpost ?_
          rw [hstate, hdue] at hd
          exact (Nat.succ.inj hd).trans (congrArg UserState.need hlogin).symm
      | leaving x hask hlast hx _ hpost hd =>
          refine .leaving x hask hlast hx hst hpost ?_
          rw [hstate, hdue] at hd
          exact (congrArg UserState.need hlogin).trans_lt (Nat.lt_of_succ_lt_succ hd)
      | kicked x _ _ _ _ hst' =>
          rw [(hst' hst).2] at hstate
          cases hstate
  | login =>
      cases h with
      | waiting _ _ _ hpend =>
          rw [hpend] at hstate
          cases hstate
      | current _ _ _ _ hd =>
          rw [hstate, hdue] at hd
          cases hd
      | leaving x hask hlast hx _ hpost hd =>
          exact .kicked x hask hlast hx
            ⟨_, List.mem_append_right _ (List.mem_singleton.mpr rfl), nofun⟩
            fun _ => ⟨List.mem_append_right _ (List.mem_singleton.mpr rfl), hstate⟩
      | kicked x hask hlast hx htold hst' =>
          obtain ⟨r, hr, hne⟩ := htold
          exact .kicked x hask hlast hx ⟨r, List.mem_append_left _ hr, hne⟩
            fun h' => ⟨List.mem_append_left _ (hst' h').1, hstate⟩

/-- The other actors go on as before: they are of another name, or are not
stored. -/
theorem Status.doLogin_other {F : Type*} {fr fr₀ : Front} {last : Option (F × ℕ)} {f : F}
    {u v : LobbyUser} {syn : SynLogin} (h : Status fr last f u) (hid : u.id ≠ v.id)
    (hdue : fr.users.Stored u → fr₀.due u.name = fr.due u.name)
    (hsame : ∃ ns, fr₀ = { fr with notices := ns }) : Status (fr₀.doLogin v syn) last f u := by
  obtain ⟨ns, rfl⟩ := hsame
  obtain ⟨husers, hreq, hnot⟩ := Front.doLogin_same { fr with notices := ns } v syn
  obtain ⟨hstate, hpost⟩ := Front.doLogin_other { fr with notices := ns } v syn hid
  have hask : ({ fr with notices := ns }.doLogin v syn).Asked u ↔ fr.Asked u := by
    rw [Front.Asked, hreq, Front.Asked]
  have htold : fr.Told u → ({ fr with notices := ns }.doLogin v syn).Told u := fun ht =>
    Front.told_doLogin { fr with notices := ns } v syn ht
  by_cases hst : fr.users.Stored u
  · refine h.congr ⟨hask, by rw [husers], hpost, hstate, ?_, htold⟩
    rw [← hdue hst, Front.due, hnot, Front.due]
  · exact h.congr_of_not_stored hst (by rwa [husers]) hask.mp htold

/-! ### The invariant -/

/-- The names are what the finds of a front rest on; sessions may repeat. -/
def byName : Indexes := { hasName := true, hasSession := false, hasUuid := false }

theorem byName_sub : byName.Sub lobbyIndexes := ⟨fun _ => rfl, nofun, nofun⟩

namespace Logins

variable {F : Type*}

/-- What holds in every state that an orderly run comes to. -/
structure Inv (s : Logins F) : Prop where
  coherent : ∀ f, (s.fronts f).users.Coherent byName
  success : ∀ f, ∀ syn ∈ (s.fronts f).notices, syn.ec = .success
  /-- Only actors that were made are stored. -/
  stored : ∀ {f u}, (s.fronts f).users.Stored u → (f, u) ∈ s.created
  /-- Ids that are still to be given were never used. -/
  fresh : ∀ {f u}, (f, u) ∈ s.created → u.id < s.next
  blank : ∀ f id, s.next ≤ id → (s.fronts f).state id = .pending ∧ id ∉ (s.fronts f).posted
  unique : ∀ {f u g v}, (f, u) ∈ s.created → (g, v) ∈ s.created → u.id = v.id → (f, u) = (g, v)
  /-- Every request is one of an actor, and the only one of its name. -/
  asker : ∀ f, ∀ r ∈ (s.fronts f).requests,
    ∃ u, (f, u) ∈ s.created ∧ u.id = r.user ∧ u.name = r.name
  alone : ∀ f g, ∀ r ∈ (s.fronts f).requests, ∀ r' ∈ (s.fronts g).requests,
    r.name = r'.name → f = g
  nodup : ∀ f, ((s.fronts f).requests.map ReqLogin.name).Nodup
  last : ∀ {n f id}, s.last n = some (f, id) → ∃ u, (f, u) ∈ s.created ∧ u.id = id ∧ u.name = n
  status : ∀ {f u}, (f, u) ∈ s.created → Status (s.fronts f) (s.last u.name) f u

theorem inv_init : (({} : Logins F)).Inv where
  coherent _ := ActorContainer.coherent_empty _
  success _ _ h := nomatch h
  stored h := by simp [ActorContainer.Stored] at h
  fresh h := nomatch h
  blank _ _ _ := ⟨rfl, nofun⟩
  unique h := nomatch h
  asker _ _ h := nomatch h
  alone _ _ _ h := nomatch h
  nodup _ := List.nodup_nil
  last h := nomatch h
  status h := nomatch h

/-- In a state that is quiet the last request has won. -/
theorem Inv.converged {s : Logins F} (h : s.Inv) (hq : s.Quiet) : s.Converged := by
  have hnoask : ∀ f u, ¬ (s.fronts f).Asked u := by
    rintro f u ⟨r, hr, -⟩
    rw [(hq f).1] at hr
    cases hr
  have hdue : ∀ f n, (s.fronts f).due n = 0 := by
    intro f n
    rw [Front.due, (hq f).2.1]
    rfl
  have hposted : ∀ f id, id ∉ (s.fronts f).posted := by
    intro f id hid
    rw [(hq f).2.2] at hid
    cases hid
  -- the actor of the last request
  have hwinner : ∀ n g id, s.last n = some (g, id) → ∃ v, (g, v) ∈ s.created ∧ v.id = id ∧
      v.name = n ∧ (s.fronts g).users.Stored v ∧ (s.fronts g).state v.id = .login := by
    intro n g id hlast
    obtain ⟨v, hv, rfl, rfl⟩ := h.last hlast
    have hsame : ∀ x, s.last v.name = some x → x ≠ (g, v.id) → False := fun x hx hne =>
      hne (Option.some.inj (hx.symm.trans hlast))
    cases h.status hv with
    | waiting hask => exact absurd hask (hnoask g v)
    | current _ _ hst _ hd =>
        refine ⟨v, hv, rfl, rfl, hst, ?_⟩
        rw [hdue] at hd
        cases hstate : (s.fronts g).state v.id with
        | pending =>
            rw [hstate] at hd
            cases hd
        | login => rfl
    | leaving x _ hx hne => exact (hsame x hx hne).elim
    | kicked x _ hx hne => exact (hsame x hx hne).elim
  intro f u hu
  cases h.status hu with
  | waiting hask => exact absurd hask (hnoask f u)
  | current _ hlast =>
      obtain ⟨v, hv, hid, hname, hst, hlogin⟩ := hwinner _ _ _ hlast
      refine ⟨f, v, hv, hname, by rw [hid]; exact hlast, hst, hlogin, fun hne => ?_⟩
      exact absurd (h.unique hu hv hid.symm) hne
  | leaving x _ _ _ _ _ hd =>
      rw [hdue] at hd
      exact absurd hd (Nat.not_lt_zero _)
  | kicked x _ hlast hx htold hst =>
      obtain ⟨g, id⟩ := x
      obtain ⟨v, hv, rfl, hname, hst', hlogin⟩ := hwinner _ _ _ hlast
      exact ⟨g, v, hv, hname, hlast, hst', hlogin, fun _ =>
        ⟨fun hstored => hposted f u.id (hst hstored).1, htold⟩⟩

variable [DecidableEq F] {s s' : Logins F} {f : F} {fr : Front}

theorem fronts_setFront_self : (s.setFront f fr).fronts f = fr := Function.update_self ..

theorem fronts_setFront_ne {g : F} (hg : g ≠ f) : (s.setFront f fr).fronts g = s.fronts g :=
  Function.update_of_ne hg ..

/-- What holds of every front, with another one in its place. -/
theorem forall_setFront {M : F → Front → Prop} (hf : M f fr) (hall : ∀ g, M g (s.fronts g))
    (g : F) : M g ((s.setFront f fr).fronts g) := by
  by_cases hg : g = f
  · subst hg
    rw [fronts_setFront_self]
    exact hf
  · rw [fronts_setFront_ne hg]
    exact hall g

/-- A step inside one front. -/
theorem Inv.setFront (h : s.Inv) (hcoh : fr.users.Coherent byName)
    (hst : ∀ u, fr.users.Stored u → (s.fronts f).users.Stored u)
    (hreq : fr.requests = (s.fronts f).requests)
    (hnotice : ∀ syn ∈ fr.notices, syn ∈ (s.fronts f).notices)
    (hblank : ∀ id, s.next ≤ id → fr.state id = .pending ∧ id ∉ fr.posted)
    (hstatus : ∀ u, (f, u) ∈ s.created → Status fr (s.last u.name) f u) :
    (s.setFront f fr).Inv := by
  have hreqs : ∀ g, ((s.setFront f fr).fronts g).requests = (s.fronts g).requests :=
    forall_setFront (M := fun g fr => fr.requests = (s.fronts g).requests) hreq fun _ => rfl
  refine ⟨forall_setFront (M := fun _ fr => fr.users.Coherent byName) hcoh h.coherent,
    forall_setFront (M := fun _ fr => ∀ syn ∈ fr.notices, syn.ec = .success)
      (fun syn hsyn => h.success f syn (hnotice syn hsyn)) h.success,
    fun {g u} => forall_setFront (M := fun g fr => fr.users.Stored u → (g, u) ∈ s.created)
      (fun hu => h.stored (hst u hu)) (fun _ hu => h.stored hu) g,
    h.fresh,
    forall_setFront (M := fun _ fr => ∀ id, s.next ≤ id → fr.state id = .pending ∧ id ∉ fr.posted)
      hblank h.blank,
    h.unique, fun g => ?_, fun g g' => ?_, fun g => ?_, h.last,
    fun {g u} => forall_setFront
      (M := fun g fr => (g, u) ∈ s.created → Status fr (s.last u.name) g u)
      (hstatus u) (fun _ hu => h.status hu) g⟩
  · rw [hreqs]
    exact h.asker g
  · rw [hreqs, hreqs]
    exact h.alone g g'
  · rw [hreqs]
    exact h.nodup g

/-- **A front runs a posted deletion.** -/
theorem inv_deletion (h : s.Inv) {id : ℕ} {rest : List ℕ}
    (hp : (s.fronts f).posted = id :: rest) :
    (s.setFront f ({ s.fronts f with posted := rest }.delUser id)).Inv := by
  have hdel : ∀ u : LobbyUser, (({ s.fronts f with posted := rest }.delUser id).users.Stored u) ↔
      (s.fronts f).users.Stored u ∧ u.id ≠ id := fun u => (h.coherent f).stored_del rfl
  refine h.setFront ((h.coherent f).del byName_sub rfl) (fun u hu => ((hdel u).mp hu).1) rfl
    (fun _ hsyn => hsyn) (fun j hj => ?_) fun u hu => ?_
  · obtain ⟨hstate, hpost⟩ := h.blank f j hj
    rw [hp] at hpost
    exact ⟨hstate, fun hin => hpost (List.mem_cons_of_mem _ hin)⟩
  · by_cases hid : u.id = id
    · -- only an actor that was told is posted
      have hin : u.id ∈ (s.fronts f).posted := by
        rw [hp, hid]
        exact List.mem_cons_self
      cases h.status hu with
      | waiting _ _ hpost => exact absurd hin hpost
      | current _ _ _ hpost => exact absurd hin hpost
      | leaving _ _ _ _ _ hpost => exact absurd hin hpost
      | kicked x hask hlast hx htold =>
          exact .kicked x hask hlast hx htold fun hst => absurd hid ((hdel u).mp hst).2
    · refine (h.status hu).congr ⟨.rfl, ?_, ?_, rfl, rfl, fun ht => ht⟩
      · rw [hdel]
        exact and_iff_left hid
      · rw [hp, List.mem_cons]
        exact (or_iff_right hid).symm

/-- A notice of another name changes nothing for an actor; one of its own
name is one less on its way. -/
theorem due_cons {syn : SynLogin} {rest : List SynLogin} (hn : fr.notices = syn :: rest)
    (n : String) :
    fr.due n = { fr with notices := rest }.due n + if syn.name = n then 1 else 0 := by
  rw [Front.due, hn, List.countP_cons]
  simp [Front.due]

/-- **A front takes a notice.** -/
theorem inv_notice (h : s.Inv) {syn : SynLogin} {rest : List SynLogin}
    (hn : (s.fronts f).notices = syn :: rest) :
    (s.setFront f ({ s.fronts f with notices := rest }.onAuthSynLogin syn)).Inv := by
  have hmem : ∀ x ∈ rest, x ∈ (s.fronts f).notices := by
    rw [hn]
    exact fun x hx => List.mem_cons_of_mem _ hx
  have hfind : ∀ u : LobbyUser, (s.fronts f).users.find (.name syn.name) = some u ↔
      (s.fronts f).users.Stored u ∧ u.name = syn.name := fun u =>
    (h.coherent f).find_eq_some rfl
  have hother : ∀ u : LobbyUser, u.name ≠ syn.name →
      { s.fronts f with notices := rest }.due u.name = (s.fronts f).due u.name := by
    intro u hu
    rw [due_cons hn, if_neg (Ne.symm hu), Nat.add_zero]
  rcases hv : (s.fronts f).users.find (.name syn.name) with - | v
  · rw [Front.onAuthSynLogin_of_none { s.fronts f with notices := rest } syn hv]
    refine h.setFront (h.coherent f) (fun _ hu => hu) rfl hmem (h.blank f) fun u hu => ?_
    by_cases hname : u.name = syn.name
    · have hst : ¬ (s.fronts f).users.Stored u := fun hst => by
        rw [(hfind u).mpr ⟨hst, hname⟩] at hv
        cases hv
      exact (h.status hu).congr_of_not_stored hst hst (fun ha => ha) fun ht => ht
    · exact (h.status hu).congr ⟨.rfl, .rfl, .rfl, rfl, hother u hname, fun ht => ht⟩
  · obtain ⟨hvst, hvname⟩ := (hfind v).mp hv
    have hvc := h.stored hvst
    have hec : syn.ec = .success := h.success f syn (by rw [hn]; exact List.mem_cons_self)
    have hdue : (s.fronts f).due v.name = { s.fronts f with notices := rest }.due v.name + 1 := by
      rw [due_cons hn, if_pos hvname.symm]
    rw [Front.onAuthSynLogin_of_some { s.fronts f with notices := rest } syn hv]
    obtain ⟨husers, hreq, hnot⟩ :=
      Front.doLogin_same { s.fronts f with notices := rest } v syn
    refine h.setFront (by rw [husers]; exact h.coherent f) (by rw [husers]; exact fun _ hu => hu)
      hreq (by rwa [hnot]) (fun j hj => ?_) fun u hu => ?_
    · have hid : j ≠ v.id := by
        have := h.fresh hvc
        omega
      obtain ⟨hstate, hpost⟩ := Front.doLogin_other { s.fronts f with notices := rest } v syn hid
      exact ⟨hstate.trans (h.blank f j hj).1, mt hpost.mp (h.blank f j hj).2⟩
    · by_cases huv : u = v
      · subst huv
        exact (h.status hu).doLogin hvst hec hdue ⟨rest, rfl⟩
      · have hid : u.id ≠ v.id := fun e => huv (Prod.mk.inj (h.unique hu hvc e)).2
        refine (h.status hu).doLogin_other hid (fun hst => hother u fun hname => ?_) ⟨rest, rfl⟩
        -- one actor of the name is found, and no other is stored
        exact huv (Option.some.inj (((hfind u).mpr ⟨hst, hname⟩).symm.trans hv))

/-- What is left of a front's requests when the back has taken one of the name
`n`, whose notice is on its way. -/
def answered (fr : Front) (rs : List ReqLogin) (n : String) : Front :=
  { fr with requests := rs, notices := fr.notices ++ [⟨.success, n⟩] }

theorem due_answered (fr : Front) (rs : List ReqLogin) (m n : String) :
    (answered fr rs m).due n = fr.due n + if m = n then 1 else 0 := by
  simp [answered, Front.due, List.countP_append, List.countP_singleton]

omit [DecidableEq F] in
/-- The requests of an actor are of its name. -/
theorem Inv.asked_name (h : s.Inv) {g : F} {v : LobbyUser} (hv : (g, v) ∈ s.created)
    {r : ReqLogin} (hr : r ∈ (s.fronts g).requests) (hid : r.user = v.id) : r.name = v.name := by
  obtain ⟨w, hw, hwid, hwname⟩ := h.asker g r hr
  rw [← hwname, (Prod.mk.inj (h.unique hw hv (hwid.trans hid))).2]

theorem fronts_onAuthReqLoginF2b {r : ReqLogin} {rs : List ReqLogin}
    (hr : (s.fronts f).requests = r :: rs) (g : F) :
    ∃ rs', ((s.setFront f { s.fronts f with requests := rs }).onAuthReqLoginF2b f r).fronts g
        = answered (s.fronts g) rs' r.name ∧
      (s.fronts g).requests = if g = f then r :: rs' else rs' := by
  by_cases hg : g = f
  · subst hg
    refine ⟨rs, ?_, by rw [if_pos rfl, hr]⟩
    show ({ (s.setFront g _).fronts g with notices := _ } : Front) = _
    rw [fronts_setFront_self]
    rfl
  · refine ⟨(s.fronts g).requests, ?_, by rw [if_neg hg]⟩
    show ({ (s.setFront f _).fronts g with notices := _ } : Front) = _
    rw [fronts_setFront_ne hg]
    rfl

/-- No request of the name is left. -/
theorem Inv.left_of_request (h : s.Inv) {r : ReqLogin} {rs rs' : List ReqLogin} {g : F}
    (hr : (s.fronts f).requests = r :: rs)
    (hreq : (s.fronts g).requests = if g = f then r :: rs' else rs') :
    rs'.Sublist (s.fronts g).requests ∧ ∀ r' ∈ rs', r'.name ≠ r.name := by
  by_cases hg : g = f
  · subst hg
    rw [if_pos rfl] at hreq
    have hnodup := h.nodup g
    rw [hreq, List.map_cons, List.nodup_cons] at hnodup
    rw [hreq]
    exact ⟨List.sublist_cons_self .., fun r' hr' e => hnodup.1 (e ▸ List.mem_map_of_mem hr')⟩
  · rw [if_neg hg] at hreq
    rw [hreq]
    refine ⟨List.Sublist.refl _, fun r' hr' e => hg ?_⟩
    exact h.alone g f r' (by rw [hreq]; exact hr') r (by rw [hr]; exact List.mem_cons_self) e

/-- The actor of the request is the current one now, and the others of its
name are superseded. -/
theorem Inv.status_answered (h : s.Inv) {r : ReqLogin} {rs rs' : List ReqLogin} {g : F}
    {v : LobbyUser} (hr : (s.fronts f).requests = r :: rs) (hv : (g, v) ∈ s.created)
    (hreq : (s.fronts g).requests = if g = f then r :: rs' else rs') :
    Status (answered (s.fronts g) rs' r.name)
      (Function.update s.last r.name (some (f, r.user)) v.name) g v := by
  obtain ⟨u, hu, huid, huname⟩ := h.asker f r (by rw [hr]; exact List.mem_cons_self)
  obtain ⟨hsub, hname⟩ := h.left_of_request hr hreq
  have hmem : ∀ r' ∈ (s.fronts g).requests, r' = r ∨ r' ∈ rs' := by
    intro r' hr'
    rw [hreq] at hr'
    split at hr'
    · exact List.mem_cons.mp hr'
    · exact .inr hr'
  by_cases hvn : v.name = r.name
  · have hnone : ¬ (answered (s.fronts g) rs' r.name).Asked v := fun ⟨r', hr', hid⟩ =>
      hname r' hr' ((h.asked_name hv (hsub.subset hr') hid).trans hvn)
    have hdue : (answered (s.fronts g) rs' r.name).due v.name = (s.fronts g).due v.name + 1 := by
      rw [due_answered, if_pos hvn.symm]
    rw [hvn, Function.update_self]
    by_cases hid : v.id = r.user
    · obtain ⟨rfl, rfl⟩ := Prod.mk.inj (h.unique hv hu (hid.trans huid.symm))
      have hasked : (s.fronts g).Asked v := ⟨r, by rw [hr]; exact List.mem_cons_self, huid.symm⟩
      cases h.status hv with
      | waiting _ hst hpost hstate hd =>
          refine .current hnone (by rw [hid]) hst hpost ?_
          show _ = ((s.fronts g).state v.id).need
          rw [hdue, hd, hstate]
          rfl
      | current hask => exact absurd hasked hask
      | leaving _ hask => exact absurd hasked hask
      | kicked _ hask => exact absurd hasked hask
    · have hnot : ¬ (s.fronts g).Asked v := by
        rintro ⟨r', hr', hid'⟩
        rcases hmem r' hr' with rfl | hr'
        · exact hid hid'.symm
        · exact hnone ⟨r', hr', hid'⟩
      refine (h.status hv).superseded hnot ?_ hnone rfl rfl rfl hdue rfl
      intro e
      exact hid (Prod.mk.inj e).2.symm
  · rw [Function.update_of_ne hvn]
    refine (h.status hv).congr ⟨⟨fun ⟨r', hr', hid⟩ => ⟨r', hsub.subset hr', hid⟩, ?_⟩, .rfl, .rfl,
      rfl, ?_, fun ht => ht⟩
    · rintro ⟨r', hr', hid⟩
      rcases hmem r' hr' with rfl | hin
      · exact absurd (h.asked_name hv hr' hid).symm hvn
      · exact ⟨r', hin, hid⟩
    · rw [due_answered, if_neg (Ne.symm hvn), Nat.add_zero]

/-- **The back takes a request.** -/
theorem inv_request (h : s.Inv) {r : ReqLogin} {rs : List ReqLogin}
    (hr : (s.fronts f).requests = r :: rs) :
    ((s.setFront f { s.fronts f with requests := rs }).onAuthReqLoginF2b f r).Inv := by
  have hfront := fronts_onAuthReqLoginF2b hr
  refine ⟨fun g => ?_, fun g => ?_, fun {g v} => ?_, h.fresh, fun g => ?_, h.unique, fun g => ?_,
    fun g g' => ?_, fun g => ?_, fun {n g id} hlast => ?_, fun {g v} hv => ?_⟩
  all_goals obtain ⟨rs', hg, hreq⟩ := hfront g
  all_goals have hsub := (h.left_of_request hr hreq).1
  · rw [hg]
    exact h.coherent g
  · rw [hg]
    intro syn hsyn
    rcases List.mem_append.mp hsyn with hsyn | hsyn
    · exact h.success g syn hsyn
    · rw [List.mem_singleton.mp hsyn]
  · rw [hg]
    exact fun hst => h.stored hst
  · rw [hg]
    exact h.blank g
  · rw [hg]
    exact fun r' hr' => h.asker g r' (hsub.subset hr')
  · obtain ⟨rs'', hg', hreq'⟩ := hfront g'
    rw [hg, hg']
    exact fun r₁ hr₁ r₂ hr₂ => h.alone g g' r₁ (hsub.subset hr₁) r₂
      ((h.left_of_request hr hreq').1.subset hr₂)
  · rw [hg]
    exact (h.nodup g).sublist (hsub.map _)
  · change Function.update s.last r.name (some (f, r.user)) n = some (g, id) at hlast
    by_cases hn : n = r.name
    · rw [hn, Function.update_self] at hlast
      obtain ⟨rfl, rfl⟩ := Prod.mk.inj (Option.some.inj hlast)
      rw [hn]
      exact h.asker f r (by rw [hr]; exact List.mem_cons_self)
    · rw [Function.update_of_ne hn] at hlast
      exact h.last hlast
  · show Status _ (Function.update s.last r.name (some (f, r.user)) v.name) g v
    rw [hg]
    exact h.status_answered hr hv hreq

omit [DecidableEq F] in
/-- An id that is still to be given is in no front. -/
theorem Inv.lookup_next (h : s.Inv) (f : F) : (s.fronts f).users.actors.lookup s.next = none := by
  rcases e : (s.fronts f).users.actors.lookup s.next with - | v
  · rfl
  · have hid : v.id = s.next := (h.coherent f).ids _ v e
    have hst : (s.fronts f).users.Stored v := by
      show (s.fronts f).users.actors.lookup v.id = some v
      rw [hid]
      exact e
    have := h.fresh (h.stored hst)
    omega

omit [DecidableEq F] in
/-- A new actor waits, and the others go on as before. -/
theorem Inv.status_new (h : s.Inv) {u v : LobbyUser} (hu : u.id = s.next)
    (hdue : (s.fronts f).due u.name = 0) (hv : (f, v) ∈ s.created ∨ v = u) :
    Status ((s.fronts f).onAuthReqLogin u) (s.last v.name) f v := by
  have hnew : (s.fronts f).users.actors.lookup (Actor.getId u) = none := by
    show (s.fronts f).users.actors.lookup u.id = none
    rw [hu]
    exact h.lookup_next f
  have hst : ∀ v : LobbyUser, ((s.fronts f).onAuthReqLogin u).users.Stored v ↔
      (s.fronts f).users.Stored v ∨ v = u := fun v => ActorContainer.stored_add hnew
  rcases hv with hv | rfl
  · have hid : v.id ≠ u.id := by
      rw [hu]
      exact (h.fresh hv).ne
    refine (h.status hv).congr ⟨⟨?_, ?_⟩, ?_, .rfl, rfl, rfl, fun ht => ht⟩
    · rintro ⟨r, hr, hrid⟩
      rcases List.mem_append.mp hr with hr | hr
      · exact ⟨r, hr, hrid⟩
      · rw [List.mem_singleton.mp hr] at hrid
        exact absurd hrid.symm hid
    · exact fun ⟨r, hr, hrid⟩ => ⟨r, List.mem_append_left _ hr, hrid⟩
    · rw [hst]
      exact or_iff_left fun e => hid (congrArg LobbyUser.id e)
  · obtain ⟨hstate, hpost⟩ := h.blank f v.id hu.ge
    exact .waiting ⟨_, List.mem_append_right _ (List.mem_singleton.mpr rfl), rfl⟩
      ((hst v).mpr (.inr rfl)) hpost hstate hdue

omit [DecidableEq F] in
/-- A front that finds no actor of a name stores none. -/
theorem Inv.name_ne_of_find (h : s.Inv) {name : String}
    (hfind : (s.fronts f).users.find (.name name) = none) {v : LobbyUser}
    (hv : (s.fronts f).users.Stored v) : v.name ≠ name := by
  intro hname
  have : (s.fronts f).users.find (.name name) = some v :=
    ((h.coherent f).find_eq_some rfl).mpr ⟨hv, hname⟩
  rw [hfind] at this
  cases this

omit [DecidableEq F] in
/-- A new actor has an id of its own. -/
theorem Inv.unique_new (h : s.Inv) {u : LobbyUser} (hu : u.id = s.next) {x y : F × LobbyUser}
    (hx : x ∈ s.created ∨ x = (f, u)) (hy : y ∈ s.created ∨ y = (f, u))
    (hid : x.2.id = y.2.id) : x = y := by
  rcases hx with hx | rfl <;> rcases hy with hy | rfl
  · exact h.unique hx hy hid
  · exact absurd (hid.trans hu) (h.fresh hx).ne
  · exact absurd (hid.symm.trans hu) (h.fresh hy).ne
  · rfl

/-- The requests on their way, with one more of the front. -/
theorem requests_onAuthReqLogin {u : LobbyUser} (g : F) :
    ∀ r ∈ ((s.setFront f ((s.fronts f).onAuthReqLogin u)).fronts g).requests,
      r ∈ (s.fronts g).requests ∨ g = f ∧ r = ⟨u.name, u.id⟩ := by
  refine forall_setFront (M := fun g fr => ∀ r ∈ fr.requests,
    r ∈ (s.fronts g).requests ∨ g = f ∧ r = ⟨u.name, u.id⟩) ?_ (fun _ _ hr => .inl hr) g
  intro r hr
  exact (List.mem_append.mp hr).imp_right fun hr => ⟨rfl, List.mem_singleton.mp hr⟩

/-- **A login request arrives at a front**, with no actor, notice or request
of its name in its way. -/
theorem inv_login (h : s.Inv) {name : String} {session : ℕ}
    (horderly : s.Orderly (.login f name session))
    (hstep : s.step (.login f name session) = some s') : s'.Inv := by
  obtain ⟨hfind, hdue, hreqs⟩ := horderly
  obtain rfl := Option.some.inj hstep
  set u : LobbyUser := ⟨s.next, name, session⟩
  have hlast : ∀ {x : F × LobbyUser}, x ∈ s.created ++ [(f, u)] ↔ x ∈ s.created ∨ x = (f, u) :=
    List.mem_append.trans (or_congr_right List.mem_singleton)
  have hreq := requests_onAuthReqLogin (s := s) (f := f) (u := u)
  refine ⟨forall_setFront (M := fun _ fr => fr.users.Coherent byName) ?_ h.coherent,
    forall_setFront (M := fun _ fr => ∀ syn ∈ fr.notices, syn.ec = .success) (h.success f)
      h.success,
    fun {g v} => forall_setFront (M := fun g fr => fr.users.Stored v →
      (g, v) ∈ s.created ++ [(f, u)]) ?_ (fun _ hv => hlast.mpr (.inl (h.stored hv))) g,
    fun {g v} hv => ?_,
    forall_setFront (M := fun _ fr => ∀ id, s.next + 1 ≤ id →
        fr.state id = .pending ∧ id ∉ fr.posted)
      (fun id hid => h.blank f id (by omega)) (fun g id hid => h.blank g id (by omega)),
    fun hv hv' hid => h.unique_new (u := u) rfl (hlast.mp hv) (hlast.mp hv') hid,
    fun g r hr => ?_, fun g g' r hr r' hr' e => ?_,
    forall_setFront (M := fun _ fr => (fr.requests.map ReqLogin.name).Nodup) ?_ h.nodup,
    fun {n g id} hn => ?_, fun {g v} hv => ?_⟩
  · refine (h.coherent f).add byName_sub fun b hb _ => ⟨fun _ => ?_, nofun, nofun⟩
    exact h.name_ne_of_find hfind hb
  · intro hv
    rcases (ActorContainer.stored_add (h.lookup_next f)).mp hv with hv | rfl
    · exact hlast.mpr (.inl (h.stored hv))
    · exact hlast.mpr (.inr rfl)
  · show v.id < s.next + 1
    rcases hlast.mp hv with hv | e
    · exact (h.fresh hv).trans (Nat.lt_succ_self _)
    · rw [(Prod.mk.inj e).2]
      exact Nat.lt_succ_self _
  · rcases hreq g r hr with hr | ⟨rfl, rfl⟩
    · obtain ⟨v, hv, hvr⟩ := h.asker g r hr
      exact ⟨v, hlast.mpr (.inl hv), hvr⟩
    · exact ⟨u, hlast.mpr (.inr rfl), rfl, rfl⟩
  · rcases hreq g r hr with hold | ⟨rfl, rfl⟩ <;> rcases hreq g' r' hr' with hold' | ⟨rfl, rfl⟩
    · exact h.alone g g' r hold r' hold' e
    · exact absurd e (hreqs g r hold)
    · exact absurd e.symm (hreqs g' r' hold')
    · rfl
  · show (((s.fronts f).requests ++ [_]).map ReqLogin.name).Nodup
    rw [List.map_append, List.map_singleton]
    refine List.nodup_append.mpr ⟨h.nodup f, List.nodup_singleton _, ?_⟩
    rintro n hn m hm rfl
    obtain ⟨r, hr, rfl⟩ := List.mem_map.mp hn
    exact hreqs f r hr (List.mem_singleton.mp hm)
  · obtain ⟨v, hv, hvr⟩ := h.last hn
    exact ⟨v, hlast.mpr (.inl hv), hvr⟩
  · show Status ((s.setFront f _).fronts g) (s.last v.name) g v
    by_cases hg : g = f
    · subst hg
      rw [fronts_setFront_self]
      refine h.status_new (u := u) rfl hdue ((hlast.mp hv).imp_right fun e => ?_)
      exact (Prod.mk.inj e).2
    · rw [fronts_setFront_ne hg]
      rcases hlast.mp hv with hv | e
      · exact h.status hv
      · exact absurd (Prod.mk.inj e).1 hg

/-! ### Every orderly run -/

theorem inv_step {e : Event F} (h : s.Inv) (horderly : s.Orderly e) (hstep : s.step e = some s') :
    s'.Inv := by
  cases e with
  | login f name session => exact inv_login h horderly hstep
  | request f =>
      simp only [step] at hstep
      split at hstep
      · cases hstep
      · next r rs hr =>
          obtain rfl := Option.some.inj hstep
          exact inv_request h hr
  | notice f =>
      simp only [step] at hstep
      split at hstep
      · cases hstep
      · next syn rest hn =>
          obtain rfl := Option.some.inj hstep
          exact inv_notice h hn
  | deletion f =>
      simp only [step] at hstep
      split at hstep
      · cases hstep
      · next id rest hp =>
          obtain rfl := Option.some.inj hstep
          exact inv_deletion h hp

/-- **The last request wins, in every orderly run**: in every state that it
comes to, once all messages and deletions have been processed, of the actors
of a name exactly the one whose request the back took last is there and logged
in, and every other one has been told so and removed. -/
theorem converged_of_orderly {es : List (Event F)}
    (horderly : Along step Orderly ({} : Logins F) es) (hrun : runSteps step {} es = some s)
    (hq : s.Quiet) : s.Converged :=
  (horderly.invariant (I := Inv) (fun h hG hs => inv_step h hG hs) inv_init hrun).converged hq

/-- One user logs in on one front, and then on another. -/
def moved : List (Event Bool) :=
  [.login false "a" 1, .request false, .notice false, .notice true, .login true "a" 2,
    .request true, .notice false, .deletion false, .notice true]

theorem converged_moved : ∃ s : Logins Bool, runSteps step {} moved = some s ∧ s.Quiet ∧
    (s.fronts true).state 1 = .login ∧ s.Converged := by
  have hrun : (runSteps step ({} : Logins Bool) moved).any
      (fun s => s.Quiet ∧ (s.fronts true).state 1 = .login) = true := by decide +kernel
  obtain ⟨s, hs, h⟩ := (Option.any_eq_true _ _).mp hrun
  obtain ⟨hq, hstate⟩ := of_decide_eq_true h
  exact ⟨s, hs, hq, hstate, converged_of_orderly (by decide +kernel) hs hq⟩

/-- One user logs in on two fronts, before the back has taken a request. -/
def overlapping : List (Event Bool) :=
  [.login false "a" 1, .login true "a" 2, .request false, .request true, .notice false,
    .notice false, .notice true, .notice true, .deletion false, .deletion true]

/-- One user logs in twice on one front. -/
def twice : List (Event Unit) :=
  [.login () "a" 1, .login () "a" 2, .request (), .request (), .notice (), .notice (),
    .deletion ()]

/-- On two fronts both actors are kicked out, each by its own notice.  On one
front the second actor stays where it is, pending. -/
theorem not_converged_overlapping :
    (∃ s : Logins Bool, runSteps step {} overlapping = some s ∧ s.Quiet ∧
      (s.fronts false).users.size = 0 ∧ (s.fronts true).users.size = 0 ∧ ¬ s.Converged) ∧
    (∃ s : Logins Unit, runSteps step {} twice = some s ∧ s.Quiet ∧
      s.last "a" = some ((), 1) ∧ (s.fronts ()).state 1 = .pending ∧ ¬ s.Converged) := by
  constructor
  · have hrun : (runSteps step ({} : Logins Bool) overlapping).any (fun s => s.Quiet ∧
        (∀ f, (s.fronts f).users.actors.entries = []) ∧ s.created ≠ []) = true := by
      decide +kernel
    obtain ⟨s, hs, h⟩ := (Option.any_eq_true _ _).mp hrun
    obtain ⟨hq, hnone, hsome⟩ := of_decide_eq_true h
    refine ⟨s, hs, hq, congrArg List.length (hnone false), congrArg List.length (hnone true),
      fun hconv => ?_⟩
    obtain ⟨⟨f, u⟩, hu⟩ := List.exists_mem_of_ne_nil _ hsome
    obtain ⟨g, v, -, -, -, hst, -⟩ := hconv f u hu
    have hempty : (s.fronts g).users.actors = ∅ := AList.ext (hnone g)
    rw [ActorContainer.Stored, hempty] at hst
    cases hst
  · have hrun : (runSteps step ({} : Logins Unit) twice).any (fun s => s.Quiet ∧
        s.last "a" = some ((), 1) ∧ (s.fronts ()).state 1 = .pending ∧
        ((), ⟨0, "a", 1⟩) ∈ s.created) = true := by
      decide +kernel
    obtain ⟨s, hs, h⟩ := (Option.any_eq_true _ _).mp hrun
    obtain ⟨hq, hlast, hstate, hu⟩ := of_decide_eq_true h
    refine ⟨s, hs, hq, hlast, hstate, fun hconv => ?_⟩
    obtain ⟨g, v, -, -, hlast', -, hlogin, -⟩ := hconv () _ hu
    obtain ⟨-, hv⟩ := Prod.mk.inj (Option.some.inj (hlast'.symm.trans hlast))
    rw [hv, hstate] at hlogin
    cases hlogin

end Logins

end Alpha

end Play
