/-
Play/Framing.lean

Incremental decoding of a stream that arrives in pieces.

A `Decoder` looks at the bytes collected so far and answers with `more`
(nothing can be taken yet), with a frame and the number of symbols it
occupies, or with `fail`.  The two `append` laws say that an answer other
than `more` is never revised by what arrives later; they are what makes the
frames a property of the stream and not of its pieces:

    drain r (b ++ c)  =  drain r b, then drain on (what is left ++ c)

(`drain_append`), hence `feed_eq_of_flatten_eq`: any pieces that join to the
same stream give the same frames, the same rest and the same receive state.

A `FrameCodec` adds the encoder.  `drain_encodeAll` reads any cut of an
encoded message list: the frames delivered so far are the images of an
initial segment, and what is left of the stream is exactly the encoding of
the other messages.
-/
import Mathlib.Data.List.Infix
import Mathlib.Tactic.Common

namespace Play

/-! ### Decoders -/

/-- What a decoder makes of the symbols collected so far. -/
inductive Decoded (ρ β : Type*)
  | more
  | frame (n : ℕ) (r : ρ) (f : β)
  | fail

/-- A decoder with receive state `ρ` whose answers, other than `more`, are
stable under further input. -/
structure Decoder (ρ α β : Type*) where
  decode : ρ → List α → Decoded ρ β
  frame_bound : ∀ {r b n r' f}, decode r b = .frame n r' f → 0 < n ∧ n ≤ b.length
  frame_append : ∀ {r b n r' f}, decode r b = .frame n r' f →
    ∀ c, decode r (b ++ c) = .frame n r' f
  fail_append : ∀ {r b}, decode r b = .fail → ∀ c, decode r (b ++ c) = .fail

namespace Decoder

variable {ρ α β : Type*} (D : Decoder ρ α β)

/-- Take frames as long as there are any; the result is the receive state,
the frames in order, and the symbols left. -/
def drain (r : ρ) (b : List α) : ρ × List β × List α :=
  match _h : D.decode r b with
  | .frame n r' f =>
      let d := drain r' (b.drop n)
      (d.1, f :: d.2.1, d.2.2)
  | .more => (r, [], b)
  | .fail => (r, [], b)
termination_by b.length
decreasing_by
  have := D.frame_bound ‹_›
  simp only [List.length_drop]
  omega

theorem drain_frame {r r' : ρ} {b : List α} {n : ℕ} {f : β}
    (h : D.decode r b = .frame n r' f) :
    D.drain r b = ((D.drain r' (b.drop n)).1, f :: (D.drain r' (b.drop n)).2.1,
      (D.drain r' (b.drop n)).2.2) := by
  rw [drain]
  split
  · next h' =>
      obtain ⟨rfl, rfl, rfl⟩ : _ ∧ _ ∧ _ := by simpa [h] using h'
      rfl
  · next h' => simp [h] at h'
  · next h' => simp [h] at h'

/-- No frame can be taken from `b`. -/
def Settled (r : ρ) (b : List α) : Prop :=
  ∀ n r' f, D.decode r b ≠ .frame n r' f

theorem drain_settled {r : ρ} {b : List α} (h : D.Settled r b) :
    D.drain r b = (r, [], b) := by
  rw [drain]
  split
  · next h' => exact absurd h' (h _ _ _)
  · rfl
  · rfl

/-- Induction along `drain`: a settled buffer, or one frame and the rest. -/
theorem drain_induction {motive : ρ → List α → Prop}
    (settled : ∀ r b, D.Settled r b → motive r b)
    (frame : ∀ r b n r' f, D.decode r b = .frame n r' f → motive r' (b.drop n) → motive r b)
    (r : ρ) (b : List α) : motive r b := by
  generalize hk : b.length = k
  induction k using Nat.strong_induction_on generalizing r b with
  | _ k ih =>
      by_cases h : D.Settled r b
      · exact settled r b h
      · simp only [Settled, not_forall, not_not] at h
        obtain ⟨n, r', f, hd⟩ := h
        have hn := D.frame_bound hd
        refine frame r b n r' f hd (ih (b.drop n).length ?_ r' _ rfl)
        rw [List.length_drop]
        omega

/-- What `drain` leaves is settled. -/
theorem settled_drain (r : ρ) (b : List α) :
    D.Settled (D.drain r b).1 (D.drain r b).2.2 := by
  induction r, b using D.drain_induction with
  | settled r b h => rw [D.drain_settled h]; exact h
  | frame r b n r' f hd ih => rw [D.drain_frame hd]; exact ih

/-- No frame is made of no symbols. -/
theorem decode_nil_ne_frame {r r' : ρ} {n : ℕ} {f : β} : D.decode r [] ≠ .frame n r' f := by
  intro h
  have hbound := D.frame_bound h
  simp only [List.length_nil] at hbound
  omega

/-! ### Cutting the stream -/

/-- Draining a longer buffer is draining the shorter one and going on with
what it left. -/
theorem drain_append (r : ρ) (b c : List α) :
    D.drain r (b ++ c) =
      ((D.drain (D.drain r b).1 ((D.drain r b).2.2 ++ c)).1,
       (D.drain r b).2.1 ++ (D.drain (D.drain r b).1 ((D.drain r b).2.2 ++ c)).2.1,
       (D.drain (D.drain r b).1 ((D.drain r b).2.2 ++ c)).2.2) := by
  induction r, b using D.drain_induction with
  | settled r b h => simp [D.drain_settled h]
  | frame r b n r' f hd ih =>
      have hn := D.frame_bound hd
      rw [D.drain_frame hd, D.drain_frame (D.frame_append hd c),
        List.drop_append_of_le_length hn.2, ih]
      rfl

/-- Feed the pieces one after the other: each is appended to what the
earlier ones left and drained. -/
def feed : ρ × List β × List α → List (List α) → ρ × List β × List α
  | d, [] => d
  | d, c :: cs =>
      let d' := D.drain d.1 (d.2.2 ++ c)
      feed (d'.1, d.2.1 ++ d'.2.1, d'.2.2) cs

theorem feed_cons (r : ρ) (fs : List β) (b c : List α) (cs : List (List α)) :
    D.feed (r, fs, b) (c :: cs) =
      ((D.drain r (b ++ (c :: cs).flatten)).1, fs ++ (D.drain r (b ++ (c :: cs).flatten)).2.1,
        (D.drain r (b ++ (c :: cs).flatten)).2.2) := by
  induction cs generalizing r fs b c with
  | nil => simp [feed]
  | cons c' cs ih =>
      rw [feed, ih, List.flatten_cons (L := c' :: cs), ← List.append_assoc b c,
        D.drain_append r (b ++ c)]
      simp only [List.flatten_cons, List.append_assoc]

/-- **Cutting does not matter**: two ways to cut one stream into non-empty
pieces end with the same frames, the same rest and the same state. -/
theorem feed_eq_of_flatten_eq {cs ds : List (List α)} (hcs : ∀ c ∈ cs, c ≠ [])
    (hds : ∀ d ∈ ds, d ≠ []) (h : cs.flatten = ds.flatten) (d : ρ × List β × List α) :
    D.feed d cs = D.feed d ds := by
  obtain ⟨r, fs, b⟩ := d
  rcases cs with - | ⟨c, cs⟩ <;> rcases ds with - | ⟨d, ds⟩
  · rfl
  · have : d = [] := by
      have h' : d ++ ds.flatten = [] := by simpa using h.symm
      exact (List.append_eq_nil_iff.mp h').1
    exact absurd this (hds d (by simp))
  · have : c = [] := by
      have h' : c ++ cs.flatten = [] := by simpa using h
      exact (List.append_eq_nil_iff.mp h').1
    exact absurd this (hcs c (by simp))
  · rw [feed_cons, feed_cons, h]

end Decoder

/-! ### Codecs -/

/-- A decoder with its encoder.  Both ends keep the same kind of state `ρ`
and step it by `next`, so an encoder and a decoder that agree before a
message agree after it. -/
structure FrameCodec (ρ α β μ : Type*) extends Decoder ρ α β where
  encode : ρ → μ → List α
  next : ρ → μ → ρ
  image : μ → β
  Valid : μ → Prop
  decode_encode : ∀ {r m}, Valid m → ∀ c,
    decode r (encode r m ++ c) = .frame (encode r m).length (next r m) (image m)

namespace FrameCodec

variable {ρ α β μ : Type*} (K : FrameCodec ρ α β μ)

/-- The encoding of a list of messages, from the encoder state `r`. -/
def encodeAll : ρ → List μ → List α
  | _, [] => []
  | r, m :: ms => K.encode r m ++ encodeAll (K.next r m) ms

/-- The encoder state after a list of messages. -/
def nextAll : ρ → List μ → ρ := List.foldl K.next

theorem encodeAll_append (r : ρ) (ms ms' : List μ) :
    K.encodeAll r (ms ++ ms') = K.encodeAll r ms ++ K.encodeAll (K.nextAll r ms) ms' := by
  induction ms generalizing r with
  | nil => rfl
  | cons m ms ih => simp [encodeAll, nextAll, ih, List.append_assoc]

theorem nextAll_snoc (r : ρ) (ms : List μ) (m : μ) :
    K.nextAll r (ms ++ [m]) = K.next (K.nextAll r ms) m := by
  simp [nextAll]

theorem nextAll_append (r : ρ) (ms ms' : List μ) :
    K.nextAll r (ms ++ ms') = K.nextAll (K.nextAll r ms) ms' := by
  simp [nextAll]

theorem encode_ne_nil {m : μ} (hm : K.Valid m) (r : ρ) : K.encode r m ≠ [] := by
  intro h
  have hd := K.decode_encode (r := r) hm []
  have := (K.frame_bound hd).1
  simp [h] at this

theorem eq_nil_of_encodeAll_eq_nil {r : ρ} {ms : List μ} (hms : ∀ m ∈ ms, K.Valid m)
    (h : K.encodeAll r ms = []) : ms = [] := by
  cases ms with
  | nil => rfl
  | cons m ms =>
      rw [encodeAll] at h
      exact absurd (List.append_eq_nil_iff.mp h).1 (K.encode_ne_nil (hms m (by simp)) r)

/-- Only the encoding of no message is settled. -/
theorem eq_nil_of_settled {r : ρ} {ms : List μ} (hms : ∀ m ∈ ms, K.Valid m)
    (h : K.Settled r (K.encodeAll r ms)) : ms = [] := by
  cases ms with
  | nil => rfl
  | cons m ms => exact absurd (K.decode_encode (hms m (by simp)) _) (h _ _ _)

/-- A cut inside the first encoded message is settled. -/
theorem settled_of_lt {r : ρ} {m : μ} {b c rest : List α} (hm : K.Valid m)
    (h : b ++ c = K.encode r m ++ rest) (hlt : b.length < (K.encode r m).length) :
    K.Settled r b := by
  intro n r' f hd
  have h₁ := K.frame_append hd c
  rw [h, K.decode_encode hm rest] at h₁
  simp only [Decoded.frame.injEq] at h₁
  have := (K.frame_bound hd).2
  omega

/-- A frame that is found at the front of a cut of an encoded list is its
first message. -/
theorem frame_of_prefix {r r' : ρ} {ms : List μ} {b : List α} {n : ℕ} {f : β}
    (hms : ∀ m ∈ ms, K.Valid m) (hb : b <+: K.encodeAll r ms) (hd : K.decode r b = .frame n r' f) :
    ∃ m ms' c, ms = m :: ms' ∧ b = K.encode r m ++ c ∧ n = (K.encode r m).length ∧
      r' = K.next r m ∧ f = K.image m := by
  obtain ⟨rest, hrest⟩ := hb
  cases ms with
  | nil =>
      obtain ⟨rfl, -⟩ := List.append_eq_nil_iff.mp hrest
      exact absurd hd K.decode_nil_ne_frame
  | cons m ms =>
      have hm : K.Valid m := hms m (by simp)
      have hle : (K.encode r m).length ≤ b.length := by
        by_contra hlt
        exact K.settled_of_lt hm hrest (Nat.lt_of_not_le hlt) n r' f hd
      obtain ⟨c, rfl⟩ := List.prefix_of_prefix_length_le
        (List.prefix_append (K.encode r m) (K.encodeAll (K.next r m) ms)) ⟨rest, hrest⟩ hle
      rw [K.decode_encode hm c] at hd
      obtain ⟨rfl, rfl, rfl⟩ := Decoded.frame.inj hd
      exact ⟨m, ms, c, rfl, rfl, rfl, rfl, rfl⟩

/-- **Reading a cut of an encoded list.**  If `b ++ c` is the encoding of
valid messages, draining `b` delivers the images of an initial segment and
leaves, together with `c`, the encoding of the rest. -/
theorem drain_encodeAll {r : ρ} {ms : List μ} {b c : List α} (hms : ∀ m ∈ ms, K.Valid m)
    (h : b ++ c = K.encodeAll r ms) :
    ∃ done todo, ms = done ++ todo ∧ (K.drain r b).1 = K.nextAll r done ∧
      (K.drain r b).2.1 = done.map K.image ∧
      (K.drain r b).2.2 ++ c = K.encodeAll (K.nextAll r done) todo := by
  induction ms generalizing r b with
  | nil =>
      obtain ⟨rfl, rfl⟩ := List.append_eq_nil_iff.mp h
      have hset : K.Settled r ([] : List α) := fun _ _ _ => K.decode_nil_ne_frame
      exact ⟨[], [], rfl, by simp [K.drain_settled hset, nextAll],
        by simp [K.drain_settled hset], by simp [K.drain_settled hset, encodeAll]⟩
  | cons m ms ih =>
      have hm : K.Valid m := hms m (by simp)
      rw [encodeAll] at h
      by_cases hlt : b.length < (K.encode r m).length
      · have hset := K.settled_of_lt hm h hlt
        exact ⟨[], m :: ms, rfl, by simp [K.drain_settled hset, nextAll],
          by simp [K.drain_settled hset], by simpa [K.drain_settled hset, encodeAll, nextAll]
            using h⟩
      · -- `b` holds the whole first message: take it and go on with the rest
        obtain ⟨b', rfl⟩ : ∃ b', b = K.encode r m ++ b' := by
          refine List.prefix_iff_exists_eq_append.mp ?_
          exact List.prefix_of_prefix_length_le ⟨_, rfl⟩ ⟨_, h⟩ (by omega)
        have h' : b' ++ c = K.encodeAll (K.next r m) ms := by
          rw [List.append_assoc] at h
          exact List.append_cancel_left h
        obtain ⟨done, todo, rfl, h₁, h₂, h₃⟩ := ih (fun m' hm' => hms m' (by simp [hm'])) h'
        have hd := K.drain_frame (K.decode_encode (r := r) hm b')
        rw [List.drop_left] at hd
        refine ⟨m :: done, todo, rfl, ?_, ?_, ?_⟩
        · rw [hd]; simpa [nextAll] using h₁
        · rw [hd]; simp [h₂]
        · rw [hd]; simpa [nextAll] using h₃

/-- An encoded list is read back whole. -/
theorem drain_encodeAll_self {r : ρ} {ms : List μ} (hms : ∀ m ∈ ms, K.Valid m) :
    K.drain r (K.encodeAll r ms) = (K.nextAll r ms, ms.map K.image, []) := by
  obtain ⟨done, todo, rfl, h₁, h₂, h₃⟩ :=
    K.drain_encodeAll hms (List.append_nil (K.encodeAll r ms))
  have hset := K.settled_drain r (K.encodeAll r (done ++ todo))
  rw [List.append_nil] at h₃
  rw [h₁, h₃] at hset
  obtain rfl : todo = [] :=
    K.eq_nil_of_settled (fun m hm => hms m (List.mem_append_right _ hm)) hset
  rw [List.append_nil] at h₁ h₂ h₃ ⊢
  exact Prod.ext h₁ (Prod.ext h₂ h₃)

end FrameCodec

end Play
