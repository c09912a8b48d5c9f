/-
Play/Runs.lean

Runs of a partial, labelled step function `step : σ → ℓ → Option σ`.

A call of the program may return or leave by an exception; `Outcome` keeps
the two apart.

A label is one step of the system together with everything the environment
chooses at that step; `none` says the step is not enabled.  `runSteps` takes
a list of labels one after the other, so that "in every reachable state" is a
statement about every list of labels that `runSteps` accepts.

`Along step G s ls` says that every step of a run meets the condition `G`,
which may look at the state before the step.  The two invariant rules,
`runSteps_invariant` and `Along.invariant`, are the only inductions over runs
that the developments built on this file need; `always_iff_along` turns a
condition on steps into an exact description of the good runs.
-/
import Mathlib.Data.List.Infix
import Mathlib.Tactic.Common

namespace Play

variable {σ ℓ : Type*} {step : σ → ℓ → Option σ} {G : σ → ℓ → Prop}
variable {s s' s'' : σ} {l : ℓ} {ls ms : List ℓ}

/-! ### Outcomes -/

/-- A function returned, or left by an exception. -/
inductive Outcome (σ : Type*)
  | done (s : σ)
  | threw (s : σ)

namespace Outcome

/-- The state left behind, either way. -/
def state : Outcome σ → σ
  | done s => s
  | threw s => s

/-- Go on after a normal return. -/
def andThen (o : Outcome σ) (f : σ → Outcome σ) : Outcome σ :=
  match o with
  | done s => f s
  | threw s => threw s

@[simp] theorem state_done (s : σ) : (done s).state = s := rfl

@[simp] theorem state_threw (s : σ) : (threw s).state = s := rfl

end Outcome

/-! ### Runs -/

/-- The state reached from `s` by the labels `ls`, or `none` when one of
them is not enabled where it is taken. -/
def runSteps (step : σ → ℓ → Option σ) : σ → List ℓ → Option σ
  | s, [] => some s
  | s, l :: ls => (step s l).bind fun s' => runSteps step s' ls

theorem runSteps_cons_eq_some :
    runSteps step s (l :: ls) = some s'' ↔
      ∃ s', step s l = some s' ∧ runSteps step s' ls = some s'' := by
  simp [runSteps, Option.bind_eq_some_iff]

theorem runSteps_append (s : σ) (ls ms : List ℓ) :
    runSteps step s (ls ++ ms)
      = (runSteps step s ls).bind fun s' => runSteps step s' ms := by
  induction ls generalizing s with
  | nil => rfl
  | cons l ls ih =>
      rcases e : step s l with - | s'
      · simp [runSteps, e]
      · simp [runSteps, e, ih]

theorem runSteps_snoc_eq_some :
    runSteps step s (ls ++ [l]) = some s'' ↔
      ∃ s', runSteps step s ls = some s' ∧ step s' l = some s'' := by
  rw [runSteps_append, Option.bind_eq_some_iff]
  simp [runSteps]

/-! ### Invariants -/

/-- **Invariant rule**: what every enabled step preserves holds at the end
of every run. -/
theorem runSteps_invariant {I : σ → Prop}
    (hstep : ∀ {s l s'}, I s → step s l = some s' → I s')
    (h₀ : I s) (h : runSteps step s ls = some s') : I s' := by
  induction ls generalizing s with
  | nil =>
      obtain rfl := Option.some.inj h
      exact h₀
  | cons l ls ih =>
      obtain ⟨s₁, h₁, hrest⟩ := runSteps_cons_eq_some.mp h
      exact ih (hstep h₀ h₁) hrest

/-- **Simulation rule**: a step function that can follow every step of another
can follow every run. -/
theorem runSteps_simulation {τ : Type*} {step' : τ → ℓ → Option τ} {R : σ → τ → Prop} {t : τ}
    (hstep : ∀ {s l s' t}, R s t → step s l = some s' → ∃ t', step' t l = some t' ∧ R s' t')
    (h₀ : R s t) (h : runSteps step s ls = some s') :
    ∃ t', runSteps step' t ls = some t' ∧ R s' t' := by
  induction ls generalizing s t with
  | nil =>
      obtain rfl := Option.some.inj h
      exact ⟨t, rfl, h₀⟩
  | cons l ls ih =>
      obtain ⟨s₁, h₁, hrest⟩ := runSteps_cons_eq_some.mp h
      obtain ⟨t₁, ht₁, hR⟩ := hstep h₀ h₁
      obtain ⟨t', ht', hR'⟩ := ih hR hrest
      exact ⟨t', runSteps_cons_eq_some.mpr ⟨t₁, ht₁, ht'⟩, hR'⟩

/-- Every step of the run `ls` from `s` meets `G`, read in the state before
the step. -/
def Along (step : σ → ℓ → Option σ) (G : σ → ℓ → Prop) : σ → List ℓ → Prop
  | _, [] => True
  | s, l :: ls => G s l ∧ ∀ s', step s l = some s' → Along step G s' ls

instance decidableAlong [∀ s l, Decidable (G s l)] :
    (s : σ) → (ls : List ℓ) → Decidable (Along step G s ls)
  | _, [] => isTrue trivial
  | s, l :: ls =>
      match e : step s l with
      | none => decidable_of_iff (G s l) ⟨fun h => ⟨h, fun s' h' => by simp [e] at h'⟩, And.left⟩
      | some s' =>
          have := decidableAlong s' ls
          decidable_of_iff (G s l ∧ Along step G s' ls)
            ⟨fun h => ⟨h.1, fun t ht => by rw [e] at ht; cases ht; exact h.2⟩,
              fun h => ⟨h.1, h.2 s' e⟩⟩

/-- **Guarded invariant rule**: what every step that meets `G` preserves
holds at the end of every run whose steps all meet `G`. -/
theorem Along.invariant {I : σ → Prop}
    (hstep : ∀ {s l s'}, I s → G s l → step s l = some s' → I s')
    (hG : Along step G s ls) (h₀ : I s)
    (h : runSteps step s ls = some s') : I s' := by
  induction ls generalizing s with
  | nil =>
      obtain rfl := Option.some.inj h
      exact h₀
  | cons l ls ih =>
      obtain ⟨s₁, h₁, hrest⟩ := runSteps_cons_eq_some.mp h
      exact ih (hG.2 s₁ h₁) (hstep h₀ hG.1 h₁) hrest

theorem Along.and_forall {A : ℓ → Prop} (hG : Along step G s ls) (hA : ∀ l ∈ ls, A l) :
    Along step (fun s l => A l ∧ G s l) s ls := by
  induction ls generalizing s with
  | nil => trivial
  | cons l ls ih =>
      obtain ⟨hl, hls⟩ := List.forall_mem_cons.mp hA
      exact ⟨⟨hl, hG.1⟩, fun s' h => ih (hG.2 s' h) hls⟩

/-- A run that does not meet `G` throughout has a first step that does not:
a prefix that does, then one step that fails it. -/
theorem exists_first_of_not_along (hG : ¬ Along step G s ls)
    (h : runSteps step s ls = some s'') :
    ∃ pre l post s₁ s₂, ls = pre ++ l :: post ∧ Along step G s pre ∧
      runSteps step s pre = some s₁ ∧ ¬ G s₁ l ∧ step s₁ l = some s₂ ∧
      runSteps step s₂ post = some s'' := by
  induction ls generalizing s with
  | nil => exact absurd trivial hG
  | cons l ls ih =>
      obtain ⟨s₁, h₁, hrest⟩ := runSteps_cons_eq_some.mp h
      by_cases hl : G s l
      · have hG' : ¬ Along step G s₁ ls := by
          intro hall
          refine hG ⟨hl, fun t ht => ?_⟩
          obtain rfl := Option.some.inj (h₁.symm.trans ht)
          exact hall
        obtain ⟨pre, k, post, t₁, t₂, rfl, hpre, hrun, hk, hstep, hpost⟩ := ih hG' hrest
        refine ⟨l :: pre, k, post, t₁, t₂, rfl, ⟨hl, fun t ht => ?_⟩, ?_, hk, hstep, hpost⟩
        · obtain rfl := Option.some.inj (h₁.symm.trans ht)
          exact hpre
        · exact runSteps_cons_eq_some.mpr ⟨s₁, h₁, hrun⟩
      · exact ⟨[], l, ls, s, s₁, rfl, trivial, rfl, hl, h₁, hrest⟩

/-- Every state that the run `ls` from `s` passes through is good. -/
def Always (step : σ → ℓ → Option σ) (Good : σ → Prop) (s : σ) (ls : List ℓ) : Prop :=
  ∀ pre t, pre <+: ls → runSteps step s pre = some t → Good t

theorem Along.of_prefix (hG : Along step G s ls) (h : ms <+: ls) : Along step G s ms := by
  induction ms generalizing s ls with
  | nil => trivial
  | cons m ms ih =>
      obtain ⟨rest, rfl⟩ := h
      exact ⟨hG.1, fun s' hs' => ih (hG.2 s' hs') ⟨rest, rfl⟩⟩

/-- What is left of a run meets `G` too. -/
theorem Along.of_append (hG : Along step G s (ls ++ ms)) (h : runSteps step s ls = some s') :
    Along step G s' ms := by
  induction ls generalizing s with
  | nil =>
      obtain rfl := Option.some.inj h
      exact hG
  | cons l ls ih =>
      obtain ⟨s₁, h₁, hrest⟩ := runSteps_cons_eq_some.mp h
      exact ih (hG.2 s₁ h₁) hrest

/-- A condition on steps may be replaced by one that follows from it where
the invariant holds. -/
theorem Along.imp {I : σ → Prop} {H : σ → ℓ → Prop}
    (hstep : ∀ {s l s'}, I s → G s l → step s l = some s' → I s')
    (himp : ∀ {s l}, I s → G s l → H s l) (h₀ : I s) (hG : Along step G s ls) :
    Along step H s ls := by
  induction ls generalizing s with
  | nil => trivial
  | cons l ls ih =>
      exact ⟨himp h₀ hG.1, fun s' hs' => ih (hstep h₀ hG.1 hs') (hG.2 s' hs')⟩

/-- Labels that meet `G` in every state make a run that meets it. -/
theorem along_of_forall (h : ∀ l ∈ ls, ∀ s, G s l) : Along step G s ls := by
  induction ls generalizing s with
  | nil => trivial
  | cons l ls ih =>
      obtain ⟨hl, hls⟩ := List.forall_mem_cons.mp h
      exact ⟨hl s, fun s' _ => ih hls⟩

theorem along_and {H : σ → ℓ → Prop} :
    Along step (fun s l => G s l ∧ H s l) s ls ↔ Along step G s ls ∧ Along step H s ls := by
  induction ls generalizing s with
  | nil => exact ⟨fun _ => ⟨trivial, trivial⟩, fun _ => trivial⟩
  | cons l ls ih =>
      constructor
      · rintro ⟨⟨hg, hh⟩, hrest⟩
        exact ⟨⟨hg, fun s' hs' => (ih.mp (hrest s' hs')).1⟩,
          ⟨hh, fun s' hs' => (ih.mp (hrest s' hs')).2⟩⟩
      · rintro ⟨⟨hg, hgs⟩, ⟨hh, hhs⟩⟩
        exact ⟨⟨hg, hh⟩, fun s' hs' => ih.mpr ⟨hgs s' hs', hhs s' hs'⟩⟩

/-- **Exactness rule**: if the invariant implies `Good`, a step that meets
`G` keeps the invariant and a step that does not ends in a state that is not
good, then the runs with good states only are those whose steps all meet
`G`. -/
theorem always_iff_along {I Good : σ → Prop} (hgood : ∀ {s}, I s → Good s)
    (hkeep : ∀ {s l s'}, I s → G s l → step s l = some s' → I s')
    (hbreak : ∀ {s l s'}, I s → ¬ G s l → step s l = some s' → ¬ Good s')
    (h₀ : I s) (h : runSteps step s ls = some s') :
    Always step Good s ls ↔ Along step G s ls := by
  constructor
  · intro hall
    by_contra hG
    obtain ⟨pre, l, post, s₁, s₂, rfl, hpre, hrun, hl, hstep, -⟩ := exists_first_of_not_along hG h
    refine hbreak (hpre.invariant hkeep h₀ hrun) hl hstep ?_
    exact hall (pre ++ [l]) s₂ ⟨post, by simp⟩ (runSteps_snoc_eq_some.mpr ⟨s₁, hrun, hstep⟩)
  · intro hG pre t hpre hrun
    exact hgood ((hG.of_prefix hpre).invariant hkeep h₀ hrun)

/-! ### What a run puts out -/

/-- What the steps of a run put out, each according to the state before it. -/
def emitted {β : Type*} (step : σ → ℓ → Option σ) (out : σ → ℓ → List β) : σ → List ℓ → List β
  | _, [] => []
  | s, l :: ls => out s l ++ (step s l).elim [] fun s' => emitted step out s' ls

/-- If a log grows by what every step puts out, in whatever order, it has grown
by what the run put out. -/
theorem perm_emitted {β : Type*} {I : σ → Prop} {out : σ → ℓ → List β} {log : σ → List β}
    (hstep : ∀ {s l s'}, I s → step s l = some s' → I s' ∧ (log s').Perm (log s ++ out s l))
    (h₀ : I s) (h : runSteps step s ls = some s') :
    (log s').Perm (log s ++ emitted step out s ls) := by
  induction ls generalizing s with
  | nil =>
      obtain rfl := Option.some.inj h
      rw [emitted, List.append_nil]
  | cons l ls ih =>
      obtain ⟨s₁, h₁, hrest⟩ := runSteps_cons_eq_some.mp h
      obtain ⟨hI, hlog⟩ := hstep h₀ h₁
      refine (ih hI hrest).trans ?_
      rw [emitted, h₁, Option.elim_some, ← List.append_assoc]
      exact hlog.append_right _

/-! ### Runs that end -/

section Ends

variable {I Done : σ → Prop} {A : ℓ → Prop} {μ : σ → ℕ}

/-- Every step of a kind uses up something of a measure, so a run of such steps
is no longer than the measure. -/
theorem length_add_le_of_decreases
    (hdec : ∀ {s l s'}, I s → A l → step s l = some s' → I s' ∧ μ s' < μ s)
    (h₀ : I s) (hA : ∀ l ∈ ls, A l) (h : runSteps step s ls = some s') :
    ls.length + μ s' ≤ μ s := by
  induction ls generalizing s with
  | nil =>
      obtain rfl := Option.some.inj h
      exact (Nat.zero_add _).le
  | cons l ls ih =>
      obtain ⟨hl, hls⟩ := List.forall_mem_cons.mp hA
      obtain ⟨s₁, h₁, hrest⟩ := runSteps_cons_eq_some.mp h
      obtain ⟨hI, hlt⟩ := hdec h₀ hl h₁
      have hle := ih hI hls hrest
      rw [List.length_cons]
      omega

/-- If such a step is enabled wherever the run is not done, then some run of
them is done. -/
theorem exists_run_of_decreases
    (hdec : ∀ {s l s'}, I s → A l → step s l = some s' → I s' ∧ μ s' < μ s)
    (hgo : ∀ {s}, I s → ¬ Done s → ∃ l s', A l ∧ step s l = some s') (h₀ : I s) :
    ∃ ls s', (∀ l ∈ ls, A l) ∧ runSteps step s ls = some s' ∧ I s' ∧ Done s' := by
  induction hμ : μ s using Nat.strong_induction_on generalizing s with
  | _ m ih =>
      by_cases hdone : Done s
      · exact ⟨[], s, fun l hl => absurd hl List.not_mem_nil, rfl, h₀, hdone⟩
      · obtain ⟨l, s₁, hl, h₁⟩ := hgo h₀ hdone
        obtain ⟨hI, hlt⟩ := hdec h₀ hl h₁
        obtain ⟨ls, s', hls, hrun, hend⟩ := ih (μ s₁) (hμ ▸ hlt) hI rfl
        exact ⟨l :: ls, s', List.forall_mem_cons.mpr ⟨hl, hls⟩,
          runSteps_cons_eq_some.mpr ⟨s₁, h₁, hrun⟩, hend⟩

end Ends

end Play
