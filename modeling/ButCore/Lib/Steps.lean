import Mathlib.Data.List.Basic

/-!
# Runs under a condition

A run is a list of inputs.
-/
namespace Steps

variable {σ ι : Type*} (step : σ → ι → σ)

def run (s : σ) (inputs : List ι) : σ := inputs.foldl step s

def Meets (Cond : σ → ι → Prop) : σ → List ι → Prop
  | _, [] => True
  | s, input :: inputs => Cond s input ∧ Meets Cond (step s input) inputs

instance decidableMeets {Cond : σ → ι → Prop} [∀ s input, Decidable (Cond s input)] :
    ∀ s inputs, Decidable (Meets step Cond s inputs)
  | _, [] => isTrue trivial
  | s, input :: inputs =>
    @instDecidableAnd _ _ _ (decidableMeets (step s input) inputs)

variable {step}

theorem run_inv {I : σ → Prop} {Cond : σ → ι → Prop}
    (preserved : ∀ s input, I s → Cond s input → I (step s input)) {s : σ} {inputs : List ι}
    (init : I s) (meets : Meets step Cond s inputs) : I (run step s inputs) := by
  induction inputs generalizing s with
  | nil => exact init
  | cons input inputs ih => exact ih (preserved s input init meets.1) meets.2

section

variable {ρ : Type*} (exec : σ → ι → Option (σ × ρ)) (Cond : σ → ι → Prop)

/-- What is reached by steps that meet the condition in the state they are taken from. -/
inductive Reaches (s₀ : σ) : σ → Prop
  | start : Reaches s₀ s₀
  | step {s s' : σ} {input : ι} {result : ρ} :
      Reaches s₀ s → Cond s input → exec s input = some (s', result) → Reaches s₀ s'

/-- The run stops where a step aborts or does not meet the condition. -/
def runWhile [∀ s input, Decidable (Cond s input)] : σ → List ι → Option σ
  | s, [] => some s
  | s, input :: inputs =>
    if Cond s input then (exec s input).bind fun r => runWhile r.1 inputs else none

variable {exec Cond}

theorem Reaches.inv {I : σ → Prop} {s₀ s : σ}
    (preserved : ∀ {s input s' result}, I s → Cond s input → exec s input = some (s', result) → I s')
    (init : I s₀) (h : Reaches exec Cond s₀ s) : I s := by
  induction h with
  | start => exact init
  | step _ hcond hexec ih => exact preserved ih hcond hexec

theorem Reaches.runWhile [∀ s input, Decidable (Cond s input)] {s₀ s t : σ} {inputs : List ι}
    (h : Reaches exec Cond s₀ s) (hrun : Steps.runWhile exec Cond s inputs = some t) :
    Reaches exec Cond s₀ t := by
  induction inputs generalizing s with
  | nil =>
    obtain rfl := Option.some.inj hrun
    exact h
  | cons input inputs ih =>
    rw [Steps.runWhile] at hrun
    split at hrun
    · rename_i hcond
      obtain ⟨⟨u, result⟩, hexec, hrest⟩ := Option.bind_eq_some_iff.mp hrun
      exact ih (h.step hcond hexec) hrest
    · exact absurd hrun (by simp)

end

section

variable {α ε : Type*} (exec : σ → ι → Except ε σ) (Cond : σ → ι → Prop)

/-- Every step that is taken meets the condition. -/
def Permitted : σ → List ι → Prop
  | _, [] => True
  | s, input :: inputs => Cond s input ∧ ∀ s', exec s input = .ok s' → Permitted s' inputs

instance decidablePermitted [∀ s input, Decidable (Cond s input)] :
    ∀ s inputs, Decidable (Permitted exec Cond s inputs)
  | _, [] => isTrue trivial
  | s, input :: inputs =>
    match h : exec s input with
    | .error _ => decidable_of_iff (Cond s input)
        ⟨fun hc => ⟨hc, fun _ hs => nomatch h.symm.trans hs⟩, fun hp => hp.1⟩
    | .ok s' =>
      have := decidablePermitted s' inputs
      decidable_of_iff (Cond s input ∧ Permitted exec Cond s' inputs)
        ⟨fun hc => ⟨hc.1, fun _ ht => Except.ok.inj (h.symm.trans ht) ▸ hc.2⟩,
          fun hp => ⟨hp.1, hp.2 s' h⟩⟩

variable {exec Cond}

theorem Permitted.simulated {R : σ → α → Prop} {F : α → ι → α}
    (matched : ∀ {s a input}, R s a → Cond s input →
      ∃ s', exec s input = .ok s' ∧ R s' (F a input))
    {s : σ} {a : α} {inputs : List ι} (h : Permitted exec Cond s inputs) (init : R s a) :
    ∃ s', inputs.foldlM exec s = .ok s' ∧ R s' (inputs.foldl F a) := by
  induction inputs generalizing s a with
  | nil => exact ⟨s, rfl, init⟩
  | cons input inputs ih =>
    obtain ⟨s₁, hexec, hrel⟩ := matched init h.1
    obtain ⟨s', hrun, hrel'⟩ := ih (h.2 s₁ hexec) hrel
    refine ⟨s', ?_, hrel'⟩
    rw [List.foldlM_cons, hexec]
    exact hrun

theorem Permitted.outcome {I : σ → Prop} {E : ε → Prop}
    (kept : ∀ {s input s'}, I s → Cond s input → exec s input = .ok s' → I s')
    (stopped : ∀ {s input e}, I s → Cond s input → exec s input = .error e → E e)
    {s : σ} {inputs : List ι} (h : Permitted exec Cond s inputs) (init : I s) :
    (∀ s', inputs.foldlM exec s = .ok s' → I s') ∧ ∀ e, inputs.foldlM exec s = .error e → E e := by
  induction inputs generalizing s with
  | nil =>
    refine ⟨?_, fun e he => by cases he⟩
    intro s' hs'
    obtain rfl := Except.ok.inj hs'
    exact init
  | cons input inputs ih =>
    rw [List.foldlM_cons]
    cases hexec : exec s input with
    | error e =>
      refine ⟨fun s' hs' => (by cases hs'), ?_⟩
      intro e' he'
      obtain rfl := Except.error.inj he'
      exact stopped init h.1 hexec
    | ok s₁ => exact ih (h.2 s₁ hexec) (kept init h.1 hexec)

end

end Steps
