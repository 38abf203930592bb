import Mathlib.Logic.Basic
import ButCore.Lib.Steps

/-!
# Computations with a record of what they touch

A traced computation returns a value and the events that happened on the way.
-/

/-- A value with the events that its computation has met, in their order. -/
structure Traced (ε α : Type) where
  value : α
  trace : List ε

namespace Traced

variable {ε α β σ : Type} {P : ε → Prop}

instance : Monad (Traced ε) where
  pure a := ⟨a, []⟩
  bind x f := ⟨(f x.value).value, x.trace ++ (f x.value).trace⟩

def emit (e : ε) (a : α) : Traced ε α := ⟨a, [e]⟩

@[simp] theorem value_pure (a : α) : (pure a : Traced ε α).value = a := rfl

@[simp] theorem value_bind (x : Traced ε α) (f : α → Traced ε β) :
    (x >>= f).value = (f x.value).value := rfl

@[simp] theorem value_emit (e : ε) (a : α) : (emit e a).value = a := rfl

def Within (P : ε → Prop) (x : Traced ε α) : Prop := ∀ e ∈ x.trace, P e

theorem within_pure (a : α) : Within P (pure a : Traced ε α) := by
  intro e he
  cases he

theorem within_emit_iff {e : ε} (a : α) : Within P (emit e a) ↔ P e := List.forall_mem_singleton

theorem within_emit {e : ε} (a : α) (h : P e) : Within P (emit e a) := (within_emit_iff a).mpr h

theorem within_bind_iff {x : Traced ε α} {f : α → Traced ε β} :
    Within P (x >>= f) ↔ Within P x ∧ Within P (f x.value) := List.forall_mem_append

theorem Within.bind {x : Traced ε α} {f : α → Traced ε β} (hx : Within P x)
    (hf : Within P (f x.value)) : Within P (x >>= f) := within_bind_iff.mpr ⟨hx, hf⟩

theorem within_ite {c : Prop} [Decidable c] {x y : Traced ε α} (hx : c → Within P x)
    (hy : ¬ c → Within P y) : Within P (if c then x else y) := by
  split
  · next h => exact hx h
  · next h => exact hy h

theorem within_foldlM {l : List β} {f : σ → β → Traced ε σ} (s : σ)
    (hf : ∀ s, ∀ b ∈ l, Within P (f s b)) : Within P (l.foldlM f s) := by
  induction l generalizing s with
  | nil => exact within_pure s
  | cons b l ih =>
    rw [List.foldlM_cons]
    apply (hf s b List.mem_cons_self).bind
    exact ih _ fun s b' hb' => hf s b' (List.mem_cons_of_mem b hb')

theorem within_foldlM_iff {step : σ → β → Traced ε σ} {I : σ → Prop} {Cond : σ → β → Prop}
    (inside : ∀ s b, I s → (Within P (step s b) ↔ Cond s b))
    (preserved : ∀ s b, I s → I (step s b).value) {s : σ} {l : List β} (init : I s) :
    Within P (l.foldlM step s) ↔ Steps.Meets (fun s b => (step s b).value) Cond s l := by
  induction l generalizing s with
  | nil => exact iff_of_true (within_pure s) trivial
  | cons b l ih =>
    rw [List.foldlM_cons, within_bind_iff, Steps.Meets, inside s b init]
    exact and_congr_right fun _ => ih (preserved s b init)

theorem value_foldlM_inv {step : σ → β → Traced ε σ} {I : σ → Prop}
    (preserved : ∀ s b, I s → I (step s b).value) {s : σ} (init : I s) (l : List β) :
    I (l.foldlM step s).value := by
  induction l generalizing s with
  | nil => exact init
  | cons b l ih => exact ih (preserved s b init)

end Traced
