import Mathlib.Data.Option.Basic
import Mathlib.Data.List.Induction

/-!
# Runs of a partial step function

A system that takes inputs one after the other: each changes its state and
emits some outputs, or has no result. An invariant of states, inputs and
outputs so far that every step keeps holds after every run (`run_induction`),
and where no step fails from a state with the invariant, no run does
(`run_total`). Two systems whose steps agree have runs that agree (`run_related`). `trace` is the run of a step function that never fails.
-/

namespace Noff

variable {σ ι ω : Type} (step : σ → ι → Option (σ × List ω))

/-- The state and the outputs after the inputs `is`. -/
def run (s : σ) : List ι → Option (σ × List ω)
  | [] => some (s, [])
  | i :: is => do
    let (s, os) ← step s i
    let (s, os') ← run s is
    return (s, os ++ os')

variable {step}

theorem run_cons {s : σ} {i : ι} {is : List ι} {r : σ × List ω} :
    run step s (i :: is) = some r ↔ ∃ s₁ os₁ s₂ os₂, step s i = some (s₁, os₁) ∧
      run step s₁ is = some (s₂, os₂) ∧ r = (s₂, os₁ ++ os₂) := by
  simp only [run, Option.bind_eq_bind, Option.bind_eq_some_iff, Option.pure_def, Prod.exists,
    Option.some.injEq]
  constructor
  · rintro ⟨s₁, os₁, h₁, s₂, os₂, h₂, rfl⟩
    exact ⟨s₁, os₁, s₂, os₂, h₁, h₂, rfl⟩
  · rintro ⟨s₁, os₁, s₂, os₂, h₁, h₂, rfl⟩
    exact ⟨s₁, os₁, h₁, s₂, os₂, h₂, rfl⟩

/-- Inputs one after the other: the runs follow each other. -/
theorem run_append {s : σ} {is js : List ι} {r : σ × List ω} :
    run step s (is ++ js) = some r ↔ ∃ s₁ os₁ s₂ os₂, run step s is = some (s₁, os₁) ∧
      run step s₁ js = some (s₂, os₂) ∧ r = (s₂, os₁ ++ os₂) := by
  induction is generalizing s r with
  | nil =>
    constructor
    · intro h
      exact ⟨s, [], r.1, r.2, rfl, h, rfl⟩
    · rintro ⟨s₁, os₁, s₂, os₂, h₁, h₂, rfl⟩
      obtain ⟨rfl, rfl⟩ := Prod.mk.injEq .. ▸ Option.some.inj h₁
      exact h₂
  | cons i is ih =>
    rw [List.cons_append, run_cons]
    constructor
    · rintro ⟨s₁, os₁, s₂, os₂, h₁, h₂, rfl⟩
      obtain ⟨s₃, os₃, s₄, os₄, h₃, h₄, he⟩ := ih.mp h₂
      obtain ⟨rfl, rfl⟩ := Prod.mk.injEq .. ▸ he
      exact ⟨s₃, os₁ ++ os₃, s₂, os₄, run_cons.mpr ⟨s₁, os₁, s₃, os₃, h₁, h₃, rfl⟩, h₄,
        by rw [List.append_assoc]⟩
    · rintro ⟨s₃, os₃, s₄, os₄, h₃, h₄, rfl⟩
      obtain ⟨s₁, os₁, s₂, os₂, h₁, h₂, he⟩ := run_cons.mp h₃
      obtain ⟨rfl, rfl⟩ := Prod.mk.injEq .. ▸ he
      exact ⟨s₁, os₁, s₄, os₂ ++ os₄, h₁, ih.mpr ⟨_, _, _, _, h₂, h₄, rfl⟩,
        by rw [List.append_assoc]⟩

theorem run_singleton {s : σ} {i : ι} : run step s [i] = step s i := by
  simp only [run, Option.bind_eq_bind, Option.bind_some, List.append_nil, Option.pure_def]
  exact Option.bind_fun_some _

/-- A run of one more input. -/
theorem run_concat {s : σ} {i : ι} {is : List ι} {r : σ × List ω} :
    run step s (is ++ [i]) = some r ↔ ∃ s₁ os₁ s₂ os₂, run step s is = some (s₁, os₁) ∧
      step s₁ i = some (s₂, os₂) ∧ r = (s₂, os₁ ++ os₂) := by
  rw [run_append]
  simp only [run_singleton]

/-- What holds at the start and is kept by every step of a run holds after it. -/
theorem run_induction {s : σ} {I : List ι → σ → List ω → Prop} (h₀ : I [] s [])
    (hstep : ∀ {is s₁ os₁ i s₂ os₂}, run step s is = some (s₁, os₁) → I is s₁ os₁ →
      step s₁ i = some (s₂, os₂) → I (is ++ [i]) s₂ (os₁ ++ os₂))
    {is : List ι} {s' : σ} {os : List ω} (h : run step s is = some (s', os)) : I is s' os := by
  induction is using List.reverseRecOn generalizing s' os with
  | nil =>
    obtain ⟨rfl, rfl⟩ := Prod.mk.injEq .. ▸ Option.some.inj h
    exact h₀
  | append_singleton is i ih =>
    obtain ⟨s₁, os₁, s₂, os₂, h₁, h₂, he⟩ := run_concat.mp h
    obtain ⟨rfl, rfl⟩ := Prod.mk.injEq .. ▸ he
    exact hstep h₁ (ih h₁) h₂

/-- An output of two runs that follow each other is one of the first, or one of the second. -/
theorem of_append_eq_append_cons {os os' os₁ os₂ : List ω} {o : ω}
    (h : os ++ os' = os₁ ++ o :: os₂) :
    (∃ os₃, os = os₁ ++ o :: os₃ ∧ os₂ = os₃ ++ os') ∨
      ∃ os₃, os₁ = os ++ os₃ ∧ os' = os₃ ++ o :: os₂ := by
  rcases List.append_eq_append_iff.mp h with ⟨os₃, h₁, h₂⟩ | ⟨os₃, h₁, h₂⟩
  · exact .inr ⟨os₃, h₁, h₂⟩
  · cases os₃ with
    | nil =>
      rw [List.append_nil] at h₁
      exact .inr ⟨[], by rw [List.append_nil, h₁], h₂.symm⟩
    | cons o' os₃ =>
      obtain ⟨rfl, h₃⟩ := List.cons.inj h₂
      exact .inl ⟨os₃, h₁, h₃⟩

/-- Every input of a run meets `P` in the state in which it comes. -/
def Along (step : σ → ι → Option (σ × List ω)) (P : σ → ι → Prop) (s : σ) (is : List ι) : Prop :=
  ∀ is₁ i is₂ s₁ os₁, is = is₁ ++ i :: is₂ → run step s is₁ = some (s₁, os₁) → P s₁ i

theorem Along.left {P : σ → ι → Prop} {s : σ} {is js : List ι} (h : Along step P s (is ++ js)) :
    Along step P s is := fun is₁ i is₂ s₁ os₁ he =>
  h is₁ i (is₂ ++ js) s₁ os₁ (by rw [he, List.append_assoc, List.cons_append])

theorem Along.nil {P : σ → ι → Prop} {s : σ} : Along step P s [] := fun is₁ i is₂ s₁ os₁ he => by
  cases is₁ <;> cases he

theorem Along.cons {P : σ → ι → Prop} {s : σ} {i : ι} {is : List ι} (hi : P s i)
    (h : ∀ s' os, step s i = some (s', os) → Along step P s' is) : Along step P s (i :: is) := by
  intro is₁ j is₂ s₁ os₁ he hr
  cases is₁ with
  | nil =>
    cases he
    cases hr
    exact hi
  | cons k is₁ =>
    obtain ⟨rfl, he'⟩ := List.cons_eq_cons.mp he
    obtain ⟨s₂, os₂, s₃, os₃, h₂, h₃, hp⟩ := run_cons.mp hr
    cases hp
    exact h s₂ os₂ h₂ is₁ j is₂ _ _ he' h₃

theorem Along.concat {P : σ → ι → Prop} {s : σ} {is : List ι} {i : ι} (h : Along step P s is)
    (hi : ∀ s' os, run step s is = some (s', os) → P s' i) : Along step P s (is ++ [i]) := by
  intro is₁ j is₂ s₁ os₁ he hr
  rcases of_append_eq_append_cons he with ⟨is₃, he', -⟩ | ⟨is₃, he', hlast⟩
  · exact h is₁ j is₃ s₁ os₁ he' hr
  · cases is₃ with
    | nil =>
      cases hlast
      rw [List.append_nil] at he'
      exact hi s₁ os₁ (he' ▸ hr)
    | cons k is₃ =>
      obtain ⟨-, hnil⟩ := List.cons.inj hlast
      cases is₃ <;> cases hnil

theorem along_cons_iff {P : σ → ι → Prop} {s : σ} {i : ι} {is : List ι} :
    Along step P s (i :: is) ↔ P s i ∧ ∀ s' os, step s i = some (s', os) → Along step P s' is := by
  refine ⟨fun h => ⟨h [] i is s [] rfl rfl, fun s' os hs is₁ j is₂ s₁ os₁ he hr => ?_⟩,
    fun h => .cons h.1 h.2⟩
  exact h (i :: is₁) j is₂ s₁ (os ++ os₁) (by rw [he]; rfl)
    (run_cons.mpr ⟨s', os, s₁, os₁, hs, hr, rfl⟩)

instance Along.decidable {P : σ → ι → Prop} [∀ s i, Decidable (P s i)] :
    ∀ (s : σ) (is : List ι), Decidable (Along step P s is)
  | _, [] => .isTrue .nil
  | s, i :: is =>
    match h : step s i with
    | none => decidable_of_iff (P s i) (by simp [along_cons_iff, h])
    | some (s', os) =>
      have : Decidable (Along step P s' is) := Along.decidable s' is
      decidable_of_iff (P s i ∧ Along step P s' is) (by simp [along_cons_iff, h])

/-- Induction along a run whose inputs all meet `P`. -/
theorem run_induction_along {s : σ} {I : List ι → σ → List ω → Prop} {P : σ → ι → Prop}
    (h₀ : I [] s []) (hstep : ∀ {is s₁ os₁ i s₂ os₂}, run step s is = some (s₁, os₁) → I is s₁ os₁ →
      P s₁ i → step s₁ i = some (s₂, os₂) → I (is ++ [i]) s₂ (os₁ ++ os₂))
    {is : List ι} {s' : σ} {os : List ω} (h : run step s is = some (s', os))
    (ha : Along step P s is) : I is s' os := by
  refine run_induction (I := fun is s' os => Along step P s is → I is s' os) (fun _ => h₀) ?_ h ha
  intro is s₁ os₁ i s₂ os₂ hr ih hs ha
  exact hstep hr (ih ha.left) (ha is i [] s₁ os₁ rfl hr) hs

/-- If every state with an invariant has a step, which keeps it, every run has a result. -/
theorem run_total {s : σ} {I : σ → Prop} (h₀ : I s)
    (hstep : ∀ s i, I s → ∃ s' os, step s i = some (s', os) ∧ I s') (is : List ι) :
    ∃ s' os, run step s is = some (s', os) ∧ I s' := by
  induction is generalizing s with
  | nil => exact ⟨s, [], rfl, h₀⟩
  | cons i is ih =>
    obtain ⟨s₁, os₁, h₁, hi⟩ := hstep s i h₀
    obtain ⟨s₂, os₂, h₂, hi'⟩ := ih hi
    exact ⟨s₂, os₁ ++ os₂, run_cons.mpr ⟨s₁, os₁, s₂, os₂, h₁, h₂, rfl⟩, hi'⟩

/-- Two systems in related states whose steps emit the same and lead to related states:
so do their runs. -/
theorem run_related {τ : Type} {step' : τ → ι → Option (τ × List ω)} {R : σ → τ → Prop}
    (hstep : ∀ s s' i, R s s' →
      Option.Rel (fun r r' => R r.1 r'.1 ∧ r'.2 = r.2) (step s i) (step' s' i))
    {s : σ} {s' : τ} (h₀ : R s s') (is : List ι) :
    Option.Rel (fun r r' => R r.1 r'.1 ∧ r'.2 = r.2) (run step s is) (run step' s' is) := by
  induction is generalizing s s' with
  | nil => exact .some ⟨h₀, rfl⟩
  | cons i is ih =>
    have h₁ := hstep s s' i h₀
    rw [run, run]
    generalize step s i = r, step' s' i = r' at h₁
    cases h₁ with
    | none => exact .none
    | @some x y hx =>
      have h₂ := ih hx.1
      simp only [Option.bind_eq_bind, Option.bind_some, hx.2]
      generalize run step x.1 is = r, run step' y.1 is = r' at h₂
      cases h₂ with
      | none => exact .none
      | some hy => exact .some ⟨hy.1, by rw [hy.2]⟩

section

variable (f : σ → ι → σ × List ω)

/-- The state and the outputs after the inputs `is`, for a step that always has a result. -/
def trace (s : σ) : List ι → σ × List ω
  | [] => (s, [])
  | i :: is => ((trace (f s i).1 is).1, (f s i).2 ++ (trace (f s i).1 is).2)

@[simp] theorem trace_nil (s : σ) : trace f s [] = (s, []) := rfl

theorem trace_cons (s : σ) (i : ι) (is : List ι) : trace f s (i :: is) =
    ((trace f (f s i).1 is).1, (f s i).2 ++ (trace f (f s i).1 is).2) := rfl

theorem trace_append (s : σ) (is js : List ι) : trace f s (is ++ js) =
    ((trace f (trace f s is).1 js).1, (trace f s is).2 ++ (trace f (trace f s is).1 js).2) := by
  induction is generalizing s with
  | nil => rfl
  | cons i is ih => rw [List.cons_append, trace_cons, ih, trace_cons, List.append_assoc]

end

end Noff
