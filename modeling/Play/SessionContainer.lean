/-
Play/SessionContainer.lean

The sessions that a master sends to.

`session_container` holds sessions under their addresses, in a map that is
walked in ascending order.  `send` folds the results of the single sends with
`result && ...`, and the operand on the right is the call: once a send has
failed no later one is made.

So a broadcast reaches a session exactly when the sends to all sessions with a
lower address succeeded, and it reaches every session exactly when no session
but the one with the highest address refuses the frame (`send_reaches_iff`).
The value it returns is right all the same.
-/
import Play.Stable
import Mathlib.Data.List.Sort

namespace Play

/-- The keys of `sessions_`: addresses, in ascending order. -/
structure SessionContainer where
  sessions : List ℕ
  ascending : sessions.Pairwise (· < ·)

namespace SessionContainer

/-- The memory the sessions live in. -/
abbrev Heap (P : Protocol) := ℕ → Session P

def empty : SessionContainer where
  sessions := []
  ascending := List.Pairwise.nil

theorem ascending_insert {ks : List ℕ} (h : ks.Pairwise (· < ·)) {a : ℕ} (ha : a ∉ ks) :
    (ks.orderedInsert (· < ·) a).Pairwise (· < ·) := by
  induction ks with
  | nil => exact List.pairwise_singleton _ _
  | cons b ks ih =>
      obtain ⟨hne, ha⟩ := not_or.mp (mt List.mem_cons.mpr ha)
      obtain ⟨hb, hks⟩ := List.pairwise_cons.mp h
      rw [List.orderedInsert_cons]
      split
      · next hab =>
        refine List.pairwise_cons.mpr ⟨fun c hc => ?_, h⟩
        rcases List.mem_cons.mp hc with rfl | hc
        · exact hab
        · exact hab.trans (hb c hc)
      · next hab =>
        refine List.pairwise_cons.mpr ⟨fun c hc => ?_, ih hks ha⟩
        rcases (List.mem_orderedInsert _).mp hc with rfl | hc
        · omega
        · exact hb c hc

/-- `session_container::add`. -/
def add (c : SessionContainer) (key : ℕ) : SessionContainer × Bool :=
  if h : key ∈ c.sessions then (c, false)
  else
    ({ sessions := c.sessions.orderedInsert (· < ·) key
       ascending := ascending_insert c.ascending h }, true)

/-- `session_container::del`. -/
def del (c : SessionContainer) (key : ℕ) : SessionContainer where
  sessions := c.sessions.filter (· ≠ key)
  ascending := c.ascending.filter _

/-- A call of `add` or of `del`. -/
inductive Op
  | add (key : ℕ)
  | del (key : ℕ)
  deriving DecidableEq

def apply (c : SessionContainer) : Op → SessionContainer
  | .add key => (c.add key).1
  | .del key => c.del key

/-- The container after a history of calls. -/
def after (ops : List Op) : SessionContainer :=
  ops.foldl apply empty

section Send

variable {P : Protocol}

/-- The loop of `send` over the keys that are left.  `result && ...` makes the
call only if `result` is true. -/
def sendLoop (pic : P.Topic) (data : Bytes) (encrypt : Bool) :
    List ℕ → Heap P → Bool → Heap P × Bool
  | [], heap, result => (heap, result)
  | key :: keys, heap, true =>
      let r := (heap key).send pic data encrypt
      sendLoop pic data encrypt keys (Function.update heap key r.1) r.2
  | _ :: keys, heap, false => sendLoop pic data encrypt keys heap false

/-- `session_container::send`, where `pack` makes the bytes of an object, as
`pulse_fb::send` does for each session. -/
def send {Obj : Type} (c : SessionContainer) (pack : Obj → Bytes) (heap : Heap P) (pic : P.Topic)
    (obj : Obj) (encrypt : Bool) : Heap P × Bool :=
  sendLoop pic (pack obj) encrypt c.sessions heap true

/-! ### One session -/

/-- The session takes the frame: it is open, the size is within the limits and
the protocol encodes it. -/
def Accepts (s : Session P) (pic : P.Topic) (data : Bytes) (encrypt : Bool) : Prop :=
  s.isOpen = true ∧ data.length < P.maxSendSize ∧ data.length ≠ 0 ∧
    ∃ p p' bytes, s.protocol = some p ∧ P.encode p pic data encrypt = (p', .ok bytes)

theorem send_eq_true_iff {s : Session P} {pic : P.Topic} {data : Bytes} {encrypt : Bool} :
    (s.send pic data encrypt).2 = true ↔ Accepts s pic data encrypt := by
  unfold Session.send Accepts
  dsimp only
  cases hopen : s.isOpen with
  | false => simp
  | true =>
      by_cases hmax : P.maxSendSize ≤ data.length
      · simp [hmax]
      by_cases hlen : data.length = 0
      · simp [hlen]
      cases hp : s.protocol with
      | none => simp [hmax, hlen]
      | some p =>
          rcases he : P.encode p pic data encrypt with ⟨p', err | bytes⟩
          · simp [hmax, hlen, he]
          · simp [hmax, hlen, he, Nat.lt_of_not_le hmax]

/-! ### The loop -/

variable {pic : P.Topic} {data : Bytes} {encrypt : Bool} {heap : Heap P} {keys : List ℕ} {k : ℕ}

theorem sendLoop_false : sendLoop pic data encrypt keys heap false = (heap, false) := by
  induction keys with
  | nil => rfl
  | cons key keys ih => exact ih

theorem sendLoop_of_notMem (h : k ∉ keys) (result : Bool) :
    (sendLoop pic data encrypt keys heap result).1 k = heap k := by
  induction keys generalizing heap result with
  | nil => rfl
  | cons key keys ih =>
      obtain ⟨hne, hk⟩ := not_or.mp (mt List.mem_cons.mpr h)
      cases result with
      | false => rw [sendLoop_false]
      | true => rw [sendLoop, ih hk, Function.update_of_ne hne]

theorem sendLoop_of_accepts {key : ℕ} (h : Accepts (heap key) pic data encrypt) :
    sendLoop pic data encrypt (key :: keys) heap true
      = sendLoop pic data encrypt keys
          (Function.update heap key ((heap key).send pic data encrypt).1) true := by
  rw [sendLoop, send_eq_true_iff.mpr h]

theorem sendLoop_of_refuses {key : ℕ} (h : ¬ Accepts (heap key) pic data encrypt) :
    sendLoop pic data encrypt (key :: keys) heap true
      = (Function.update heap key ((heap key).send pic data encrypt).1, false) := by
  have hfalse := Bool.eq_false_of_not_eq_true (mt send_eq_true_iff.mp h)
  rw [sendLoop, hfalse, sendLoop_false]

/-- The value that `send` returns says whether all sessions took the frame. -/
theorem sendLoop_result (h : keys.Nodup) :
    (sendLoop pic data encrypt keys heap true).2 = true ↔
      ∀ k ∈ keys, Accepts (heap k) pic data encrypt := by
  induction keys generalizing heap with
  | nil => exact ⟨fun _ k hk => absurd hk List.not_mem_nil, fun _ => rfl⟩
  | cons key keys ih =>
      obtain ⟨hkey, hkeys⟩ := List.nodup_cons.mp h
      rw [List.forall_mem_cons]
      by_cases ha : Accepts (heap key) pic data encrypt
      · rw [sendLoop_of_accepts ha, ih hkeys, and_iff_right ha]
        refine forall₂_congr fun k hk => ?_
        rw [Function.update_of_ne (ne_of_mem_of_not_mem hk hkey)]
      · rw [sendLoop_of_refuses ha]
        exact ⟨(Bool.false_ne_true · |>.elim), fun hall => absurd hall.1 ha⟩

theorem ne_snoc {α : Type*} (l : List α) (a : α) : l ≠ l ++ [a] := by
  intro h
  have := congrArg List.length h
  simp at this

/-- The loop reaches a session when all those before it took the frame. -/
theorem sendLoop_sent_iff (h : keys.Pairwise (· < ·)) (hk : k ∈ keys) :
    ((sendLoop pic data encrypt keys heap true).1 k).sent
        = (heap k).sent ++ [(pic, data, encrypt)] ↔
      ∀ j ∈ keys, j < k → Accepts (heap j) pic data encrypt := by
  induction keys generalizing heap with
  | nil => cases hk
  | cons key keys ih =>
      obtain ⟨hlt, hkeys⟩ := List.pairwise_cons.mp h
      have hkey : key ∉ keys := fun hmem => (hlt key hmem).false
      rw [List.forall_mem_cons]
      rcases List.mem_cons.mp hk with rfl | hk
      · -- The first session is always reached.
        have hsent : ((sendLoop pic data encrypt (k :: keys) heap true).1 k).sent
            = (heap k).sent ++ [(pic, data, encrypt)] := by
          rw [sendLoop, sendLoop_of_notMem hkey, Function.update_self, Session.sent_send]
        refine iff_of_true hsent ⟨fun hself => absurd hself (lt_irrefl k), fun j hj hjk => ?_⟩
        exact absurd hjk (hlt j hj).asymm
      · have hne : k ≠ key := ne_of_mem_of_not_mem hk hkey
        by_cases ha : Accepts (heap key) pic data encrypt
        · have hsent := Function.update_of_ne hne ((heap key).send pic data encrypt).1 heap
          rw [sendLoop_of_accepts ha, ← hsent, ih hkeys hk, and_iff_right fun _ => ha]
          refine forall₂_congr fun j hj => ?_
          rw [Function.update_of_ne (ne_of_mem_of_not_mem hj hkey)]
        · rw [sendLoop_of_refuses ha]
          dsimp only
          rw [Function.update_of_ne hne]
          exact iff_of_false (ne_snoc _ _) fun hall => ha (hall.1 (hlt k hk))

/-! ### Broadcasts -/

/-- What a broadcast is to do: one send to each session of the container and
none to another, and true as its result if all of them succeeded. -/
structure Reaches (c : SessionContainer) (pic : P.Topic) (data : Bytes) (encrypt : Bool)
    (heap : Heap P) (out : Heap P × Bool) : Prop where
  once : ∀ k ∈ c.sessions, (out.1 k).sent = (heap k).sent ++ [(pic, data, encrypt)]
  others : ∀ k ∉ c.sessions, out.1 k = heap k
  result : out.2 = true ↔ ∀ k ∈ c.sessions, Accepts (heap k) pic data encrypt

/-- A broadcast reaches every session exactly when all of them, but for the one
with the highest address, take the frame. -/
theorem send_reaches_iff {Obj : Type} (ops : List Op) (pack : Obj → Bytes) (heap : Heap P)
    (pic : P.Topic) (obj : Obj) (encrypt : Bool) :
    Reaches (after ops) pic (pack obj) encrypt heap
        ((after ops).send pack heap pic obj encrypt) ↔
      ∀ j ∈ (after ops).sessions, ∀ k ∈ (after ops).sessions, j < k →
        Accepts (heap j) pic (pack obj) encrypt := by
  have hasc := (after ops).ascending
  constructor
  · intro h j hj k hk hjk
    exact (sendLoop_sent_iff hasc hk).mp (h.once k hk) j hj hjk
  · intro h
    refine ⟨fun k hk => ?_, fun k hk => sendLoop_of_notMem hk true, ?_⟩
    · exact (sendLoop_sent_iff hasc hk).mpr fun j hj hjk => h j hj k hk hjk
    · exact sendLoop_result (hasc.imp fun hlt => hlt.ne)

end Send

/-! ### Histories -/

theorem mem_add {c : SessionContainer} {key k : ℕ} :
    k ∈ (c.add key).1.sessions ↔ k = key ∨ k ∈ c.sessions := by
  rw [add]
  split
  · next h =>
    refine ⟨.inr, fun hk => hk.elim (fun e => ?_) id⟩
    rw [e]
    exact h
  · exact List.mem_orderedInsert _

theorem mem_del {c : SessionContainer} {key k : ℕ} :
    k ∈ (c.del key).sessions ↔ k ∈ c.sessions ∧ k ≠ key := by
  rw [del, List.mem_filter, decide_eq_true_eq]

/-- A session is in the container if the last call about it was `add`. -/
theorem mem_after_snoc (ops : List Op) (k : ℕ) (op : Op) :
    k ∈ (after (ops ++ [op])).sessions ↔
      op = .add k ∨ k ∈ (after ops).sessions ∧ op ≠ .del k := by
  unfold after
  rw [List.foldl_append]
  cases op with
  | add key =>
      refine mem_add.trans ?_
      rw [Op.add.injEq, and_iff_left Op.noConfusion, eq_comm]
  | del key =>
      refine mem_del.trans ?_
      rw [or_iff_right Op.noConfusion, ne_eq, ne_eq, Op.del.injEq, eq_comm]

/-! ### A session that has closed -/

/-- Two fronts: the session at 16 has closed, the one at 32 is open. -/
def fronts : Heap (plainProtocol 2) := fun key =>
  { Session.new true with
    isOpen := key ≠ 16
    protocol := some ((plainProtocol 2).accepted ((plainProtocol 2).make 3 ())).1 }

def frontsTopic : (plainProtocol 2).Topic := (7 : BitVec 16)

/-- The frame is not offered to the session behind the one that has closed. -/
theorem fronts_not_reached :
    Accepts (fronts 32) frontsTopic [5] false ∧
      (((after [.add 32, .add 16]).send id fronts frontsTopic [5] false).1 32).sent = [] ∧
      ¬ Reaches (after [.add 32, .add 16]) frontsTopic [5] false fronts
        ((after [.add 32, .add 16]).send id fronts frontsTopic [5] false) := by
  refine ⟨⟨rfl, by decide, by decide, _, _, _, rfl, rfl⟩, rfl, fun h => ?_⟩
  have := h.once 32 (by decide)
  cases this

end SessionContainer
end Play
