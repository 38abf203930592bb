import Mathlib

/-!
# Outcomes of computations that keep their state when they stop

A triple about a computation in `ExceptT ε (StateM σ)` read as a statement about one run of it.
-/
namespace Outcome

open Std.Do

variable {ε σ α : Type} {x : ExceptT ε (StateM σ) α} {P : σ → Prop} {Q : α → σ → Prop}
  {E : ε → σ → Prop} {s s' : σ}

theorem ok (spec : ⦃fun s => ⌜P s⌝⦄ x ⦃post⟨fun a s => ⌜Q a s⌝, fun e s => ⌜E e s⌝⟩⦄)
    (pre : P s) {a : α} (run : x.run.run s = (.ok a, s')) : Q a s' := by
  have post := spec s pre
  simp only [wp, PredTrans.apply_pushExcept, PredTrans.apply_pushArg,
    PredTrans.apply_Pure_pure] at post
  rw [run] at post
  exact post

theorem error (spec : ⦃fun s => ⌜P s⌝⦄ x ⦃post⟨fun a s => ⌜Q a s⌝, fun e s => ⌜E e s⌝⟩⦄)
    (pre : P s) {e : ε} (run : x.run.run s = (.error e, s')) : E e s' := by
  have post := spec s pre
  simp only [wp, PredTrans.apply_pushExcept, PredTrans.apply_pushArg,
    PredTrans.apply_Pure_pure] at post
  rw [run] at post
  exact post

end Outcome
