/-
Play/Chains.lean

The chain of calls that sets a pulse up.

An actor makes a pulse and calls, one after the other on what the last call
returned, `as_child`, `with_strand`, `with_session`, perhaps `mark_final`, and
`sub` for each of its topics.  `chained` is the pulse that comes of it.  The
other pulses keep everything but the two maps that `as_child` and `subscribe`
write to: the parent gets a child, and the root the interests
(`exists_chained`).
-/
import Play.Interest

namespace Play

namespace Forest

variable {T C : Type} {f f' f'' : Forest T C} {p parent : PulseId} {k : ℕ} {se : SessionKey}
variable {isFinal : Bool} {ts : List T} {cb : T → C}

/-- The calls, on a pulse at the address `p`. -/
def chain (p parent : PulseId) (k : ℕ) (se : SessionKey) (isFinal : Bool) (ts : List T)
    (cb : T → C) : List (Step T C) :=
  .asChild p parent :: .withStrand p k :: .withSession p se ::
    ((if isFinal then [.markFinal p] else []) ++ ts.map fun t => .subscribe p t (cb t))

variable [DecidableEq T]

/-- The pulse that they set up, but for the interests that it keeps. -/
def chained (parent : PulseId) (k : ℕ) (se : SessionKey) (isFinal : Bool) (ts : List T)
    (cb : T → C) : Pulse T C where
  parent := some parent
  isFinal := isFinal
  session := se
  strandKey := k
  subscriptions t := if t ∈ ts then [⟨se, cb t⟩] else []

omit [DecidableEq T] in
/-- No pulse but `p` has changed, except for the interests that it keeps for
others. -/
structure Beside (f f' : Forest T C) (p : PulseId) : Prop where
  root : f'.root = f.root
  ids : f'.ids = f.ids
  others : ∀ c, c ≠ p → ∃ is, f'.pulse c = { f.pulse c with interests := is }

omit [DecidableEq T] in
theorem Beside.refl (f : Forest T C) (p : PulseId) : Beside f f p :=
  ⟨rfl, rfl, fun _ _ => ⟨_, rfl⟩⟩

omit [DecidableEq T] in
theorem Beside.trans (h : Beside f f' p) (h' : Beside f' f'' p) : Beside f f'' p := by
  refine ⟨h'.root.trans h.root, h'.ids.trans h.ids, fun c hc => ?_⟩
  obtain ⟨is, his⟩ := h.others c hc
  obtain ⟨is', his'⟩ := h'.others c hc
  refine ⟨is', ?_⟩
  rw [his', his]

omit [DecidableEq T] in
theorem beside_modify (f : Forest T C) (p : PulseId) (g : Pulse T C → Pulse T C) :
    Beside f (f.modify p g) p := by
  refine ⟨rfl, rfl, fun c hc => ⟨(f.pulse c).interests, ?_⟩⟩
  rw [pulse_modify_of_ne f p g hc]

/-! ### Subscribing -/

/-- What `subscribe` does to a pulse, and beside it. -/
theorem subscribe_beside (hf : Tree f) (hp : p ∈ f.ids) (hne : p ≠ f.root) (t : T) (cb : C) :
    Beside f (f.subscribe p t cb) p ∧ (f.subscribe p t cb).pulse p =
      ((f.pulse p).pushSubscription t ⟨(f.pulse p).session, cb⟩).keepInterest
        ((f.pulse p).session, t) := by
  rw [subscribe_eq hf hp]
  dsimp only
  rw [if_neg hne, showInterest]
  let push := Pulse.pushSubscription (T := T) t ⟨(f.pulse p).session, cb⟩
  let keep := Pulse.keepInterest (C := C) ((f.pulse p).session, t)
  refine ⟨⟨rfl, rfl, fun c hc => ?_⟩, ?_⟩
  · have hold : ((f.modify p push).modify p keep).pulse c = f.pulse c := by
      rw [pulse_modify_of_ne _ p keep hc, pulse_modify_of_ne f p push hc]
    by_cases hroot : c = f.root
    · subst hroot
      refine ⟨((f.pulse f.root).insertInterest p ((f.pulse p).session, t)).interests, ?_⟩
      rw [pulse_modify_self, hold]
      rfl
    · refine ⟨(f.pulse c).interests, ?_⟩
      rw [pulse_modify_of_ne _ f.root _ hroot, hold]
  · rw [pulse_modify_of_ne _ f.root _ hne, pulse_modify_self, pulse_modify_self]

/-- The subscriptions, one topic after the other. -/
theorem exists_subscribed (hf : InterestInv f) (hp : p ∈ f.ids) (hne : p ≠ f.root)
    (hrun : (f.pulse p).stopped = false) (ts : List T) (cb : T → C) :
    ∃ f' subscriptions selfInterests,
      runSteps step f (ts.map fun t => .subscribe p t (cb t)) = some f' ∧
      InterestInv f' ∧ Beside f f' p ∧
      f'.pulse p = { f.pulse p with subscriptions, selfInterests } ∧
      ∀ t', subscriptions t' = (f.pulse p).subscriptions t' ++
        (ts.filter (· = t')).map fun t => ⟨(f.pulse p).session, cb t⟩ := by
  induction ts generalizing f with
  | nil => exact ⟨f, _, _, rfl, hf, Beside.refl f p, rfl, fun t' => (List.append_nil _).symm⟩
  | cons t ts ih =>
      obtain ⟨hbeside, hself⟩ := subscribe_beside hf.tree hp hne t (cb t)
      obtain ⟨f', subscriptions, si, hsteps, hf', hbeside', hself', hsubs⟩ :=
        ih (hf.subscribe hp hrun t (cb t)) (hbeside.ids ▸ hp) (hbeside.root ▸ hne)
          (by rw [hself]; exact hrun)
      refine ⟨f', subscriptions, si, runSteps_cons_eq_some.mpr ⟨_, if_pos ⟨hp, hrun⟩, hsteps⟩, hf',
        hbeside.trans hbeside', by rw [hself', hself]; rfl, fun t' => ?_⟩
      rw [hsubs, hself]
      show Function.update (f.pulse p).subscriptions t _ t' ++ _ = _
      by_cases ht : t = t'
      · subst ht
        rw [Function.update_self, List.filter_cons_of_pos (by simp), List.map_cons,
          List.append_assoc]
        rfl
      · rw [Function.update_of_ne (Ne.symm ht), List.filter_cons_of_neg (by simpa using ht)]
        rfl

/-! ### The whole chain -/

/-- The pulse `o` is at the address `p`, and below `parent`. -/
structure Chained (f f' : Forest T C) (p parent : PulseId) (o : Pulse T C) : Prop where
  inv : InterestInv f'
  root : f'.root = f.root
  ids : f'.ids = f.ids ++ [p]
  self : ∃ si, f'.pulse p = { o with selfInterests := si }
  others : ∀ c, c ≠ p → ∃ is, f'.pulse c = { f.pulse c with
    childs := if c = parent then insert p (f.pulse c).childs else (f.pulse c).childs
    interests := is }

/-- **The chain of calls** goes through, and sets up the pulse. -/
theorem exists_chained (hf : InterestInv f) (hp : p ∉ f.ids) (hparent : parent ∈ f.ids)
    (hfree : (f.pulse parent).isFinal = false) (k : ℕ) (se : SessionKey) (isFinal : Bool)
    (hts : ts.Nodup) (cb : T → C) :
    ∃ f', runSteps step f (chain p parent k se isFinal ts cb) = some f' ∧
      Chained f f' p parent (chained parent k se isFinal ts cb) := by
  have hne : parent ≠ p := fun e => hp (e ▸ hparent)
  -- the pulse is attached, and is the only one that changes from there on
  have hattach := asChild_eq hp hparent hfree
  have hstep₁ : step f (.asChild p parent) = some (f.asChild p parent).state :=
    if_pos ⟨hp, hparent, hfree⟩
  have hinv₁ := hf.step hstep₁
  generalize (f.asChild p parent).state = f₁ at hattach hstep₁ hinv₁
  have hids₁ : f₁.ids = f.ids ++ [p] := by
    rw [hattach]
    rfl
  have hroot₁ : f₁.root = f.root := by
    rw [hattach]
    rfl
  have hp₁ : p ∈ f₁.ids := by
    rw [hids₁]
    exact List.mem_append_right _ (List.mem_singleton_self p)
  have hself₁ : f₁.pulse p = { parent := some parent } := by
    rw [hattach, pulse_modify_of_ne _ parent _ hne.symm]
    show (f.modify p fun o => { o with parent := some parent }).pulse p = _
    rw [pulse_modify_self, hf.tree.fresh p hp]
  have hothers₁ : ∀ c, c ≠ p → f₁.pulse c = { f.pulse c with
      childs := if c = parent then insert p (f.pulse c).childs else (f.pulse c).childs } := by
    intro c hc
    rw [hattach, pulse_modify]
    split
    · next h =>
        subst h
        rw [f.pulse_attach_of_ne c hc]
    · rw [f.pulse_attach_of_ne parent hc]
  -- its strand, its session and whether it is final
  let f₂ := f₁.modify p fun o => { o with strandKey := k }
  let f₃ := f₂.modify p fun o => { o with session := se }
  let f₄ := f₃.modify p fun o => { o with isFinal := isFinal }
  have hstep₂ : step f₁ (.withStrand p k) = some f₂ := if_pos hp₁
  have hstep₃ : step f₂ (.withSession p se) = some f₃ := if_pos hp₁
  have hself₃ : f₃.pulse p = { parent := some parent, strandKey := k, session := se } := by
    rw [pulse_modify_self, pulse_modify_self, hself₁]
  have hmark : runSteps step f₃ (if isFinal then [.markFinal p] else []) = some f₄ := by
    cases isFinal with
    | true => exact runSteps_cons_eq_some.mpr ⟨f₄, if_pos hp₁, rfl⟩
    | false =>
        refine congrArg some ?_
        show f₃ = { f₃ with
          pulse := Function.update f₃.pulse p { f₃.pulse p with isFinal := false } }
        rw [hself₃, ← hself₃, Function.update_eq_self]
  have hinv₃ := (hinv₁.step hstep₂).step hstep₃
  have hinv₄ : InterestInv f₄ :=
    hinv₃.modify hp₁ (fun _ => rfl) (fun _ => rfl) (fun _ => rfl) (fun _ => rfl) fun _ => rfl
  have hself₄ : f₄.pulse p = { parent := some parent, strandKey := k, session := se, isFinal } := by
    rw [pulse_modify_self, hself₃]
  have hbeside₄ : Beside f₁ f₄ p :=
    ((beside_modify f₁ p _).trans (beside_modify f₂ p _)).trans (beside_modify f₃ p _)
  -- its subscriptions
  have hp_root : p ≠ f₁.root := fun e => hp (e ▸ hroot₁ ▸ hf.tree.root_mem)
  obtain ⟨f', subscriptions, si, hsteps, hinv', hbeside', hself', hsubs⟩ :=
    exists_subscribed hinv₄ hp₁ hp_root (by rw [hself₄]) ts cb
  have hchained : subscriptions = (chained parent k se isFinal ts cb).subscriptions := by
    funext t
    rw [hsubs, hself₄]
    show [] ++ (ts.filter (· = t)).map _ = if t ∈ ts then _ else _
    rw [List.nil_append, List.filter_eq, hts.count]
    split <;> rfl
  have hbeside := hbeside₄.trans hbeside'
  refine ⟨f', ?_, hinv', hbeside.root.trans hroot₁, hbeside.ids.trans hids₁, ⟨si, ?_⟩, ?_⟩
  · refine runSteps_cons_eq_some.mpr ⟨f₁, hstep₁, runSteps_cons_eq_some.mpr ⟨f₂, hstep₂,
      runSteps_cons_eq_some.mpr ⟨f₃, hstep₃, ?_⟩⟩⟩
    rw [runSteps_append, hmark]
    exact hsteps
  · rw [hself', hself₄, hchained]
    rfl
  · intro c hc
    obtain ⟨is, his⟩ := hbeside.others c hc
    refine ⟨is, ?_⟩
    rw [his, hothers₁ c hc]

end Forest

end Play
