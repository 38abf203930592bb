import Mathlib.Data.BitVec
import Mathlib.Logic.Function.Iterate

/-!
# Repeated multiply-then-divide steps in a fixed width

`scale m d` is the exact step `x ↦ ⌊x * m / d⌋`; `scaleBV` takes the product modulo `2 ^ w` before
it divides.
-/
namespace FixedWidth

def scale (m d x : ℕ) : ℕ := x * m / d

def scaleBV {w : ℕ} (m d x : BitVec w) : BitVec w := x * m / d

theorem scaleBV_toNat {w : ℕ} (m d x : BitVec w) (h : x.toNat * m.toNat < 2 ^ w) :
    (scaleBV m d x).toNat = scale m.toNat d.toNat x.toNat := by
  rw [scaleBV, BitVec.toNat_udiv, BitVec.toNat_mul, Nat.mod_eq_of_lt h, scale]

/-- None of the products of `n` exact steps from `x` reaches `2 ^ w`. -/
def StepsFit (w m d : ℕ) : ℕ → ℕ → Prop
  | 0, _ => True
  | n + 1, x => x * m < 2 ^ w ∧ StepsFit w m d n (scale m d x)

theorem iterate_scaleBV_toNat {w : ℕ} (m d : BitVec w) (n : ℕ) (x : BitVec w)
    (h : StepsFit w m.toNat d.toNat n x.toNat) :
    ((scaleBV m d)^[n] x).toNat = (scale m.toNat d.toNat)^[n] x.toNat := by
  induction n generalizing x with
  | zero => rfl
  | succ n ih =>
    obtain ⟨hfit, hrest⟩ := h
    rw [Function.iterate_succ_apply, Function.iterate_succ_apply]
    rw [← scaleBV_toNat m d x hfit] at hrest ⊢
    exact ih _ hrest

theorem scale_le_self {m d : ℕ} (h : m ≤ d) (x : ℕ) : scale m d x ≤ x :=
  Nat.div_le_of_le_mul (by rw [Nat.mul_comm]; exact Nat.mul_le_mul_right x h)

theorem stepsFit_of_le {w m d : ℕ} (hmd : m ≤ d) (n : ℕ) {x : ℕ} (h : x * m < 2 ^ w) :
    StepsFit w m d n x := by
  induction n generalizing x with
  | zero => trivial
  | succ n ih =>
    refine ⟨h, ih ?_⟩
    exact lt_of_le_of_lt (Nat.mul_le_mul_right m (scale_le_self hmd x)) h

/-- The largest start value from which `n` growing steps fit in `w` bits. -/
def stepLimit (w m d : ℕ) : ℕ → ℕ
  | 0 => 2 ^ w - 1
  | 1 => (2 ^ w - 1) / m
  | n + 2 => (d * stepLimit w m d (n + 1) + (d - 1)) / m

theorem scale_le_iff {m d : ℕ} (hm : 0 < m) (hd : 0 < d) (x b : ℕ) :
    scale m d x ≤ b ↔ x ≤ (d * b + (d - 1)) / m := by
  rw [Nat.le_div_iff_mul_le hm, scale, ← Nat.lt_succ_iff, Nat.div_lt_iff_lt_mul hd,
    Nat.succ_mul, Nat.mul_comm b d]
  omega

theorem mul_lt_iff_le_stepLimit {w m : ℕ} (hm : 0 < m) (d x : ℕ) :
    x * m < 2 ^ w ↔ x ≤ stepLimit w m d 1 := by
  have hpos : 0 < 2 ^ w := Nat.two_pow_pos w
  rw [stepLimit, Nat.le_div_iff_mul_le hm]
  omega

theorem stepLimit_succ_le {w m d : ℕ} (hd : 0 < d) (hdm : d ≤ m) (n : ℕ) :
    stepLimit w m d (n + 2) ≤ stepLimit w m d (n + 1) := by
  rw [stepLimit, ← Nat.lt_succ_iff, Nat.div_lt_iff_lt_mul (lt_of_lt_of_le hd hdm)]
  calc d * stepLimit w m d (n + 1) + (d - 1)
      < d * stepLimit w m d (n + 1) + d := by omega
    _ = (stepLimit w m d (n + 1)).succ * d := by rw [Nat.succ_mul, Nat.mul_comm]
    _ ≤ (stepLimit w m d (n + 1)).succ * m := Nat.mul_le_mul_left _ hdm

theorem stepLimit_le_one {w m d : ℕ} (hd : 0 < d) (hdm : d ≤ m) (n : ℕ) :
    stepLimit w m d (n + 1) ≤ stepLimit w m d 1 := by
  induction n with
  | zero => exact le_rfl
  | succ n ih => exact le_trans (stepLimit_succ_le hd hdm n) ih

/-- Growing steps fit exactly up to the limit: each step pulls the bound of the remaining ones
back through the division, and the pulled bound is below the bound of the first product. -/
theorem stepsFit_iff_le_stepLimit {w m d : ℕ} (hd : 0 < d) (hdm : d ≤ m) (n x : ℕ) :
    StepsFit w m d (n + 1) x ↔ x ≤ stepLimit w m d (n + 1) := by
  have hm : 0 < m := lt_of_lt_of_le hd hdm
  induction n generalizing x with
  | zero =>
    rw [← mul_lt_iff_le_stepLimit hm]
    exact and_iff_left trivial
  | succ n ih =>
    have hfirst := mul_lt_iff_le_stepLimit (w := w) hm d x
    have hrest := (ih (scale m d x)).trans (scale_le_iff hm hd x _)
    refine (and_congr hfirst hrest).trans ?_
    exact and_iff_right_of_imp fun h => le_trans h (stepLimit_le_one hd hdm (n + 1))

/-- The smallest start value from which `n` exact steps end at `b` or above. -/
def leastStart (m d b : ℕ) : ℕ → ℕ
  | 0 => b
  | n + 1 => (d * leastStart m d b n + (m - 1)) / m

theorem le_scale_iff {m d : ℕ} (hm : 0 < m) (hd : 0 < d) (x b : ℕ) :
    b ≤ scale m d x ↔ (d * b + (m - 1)) / m ≤ x := by
  have hceil : (d * b + (m - 1)) / m ≤ x ↔ d * b + (m - 1) < (x + 1) * m := by
    rw [← Nat.div_lt_iff_lt_mul hm, Nat.lt_succ_iff]
  rw [hceil, scale, Nat.le_div_iff_mul_le hd, Nat.succ_mul, Nat.mul_comm b d]
  omega

theorem le_iterate_scale_iff {m d : ℕ} (hm : 0 < m) (hd : 0 < d) (b n x : ℕ) :
    b ≤ (scale m d)^[n] x ↔ leastStart m d b n ≤ x := by
  induction n generalizing x with
  | zero => rfl
  | succ n ih =>
    rw [Function.iterate_succ_apply, ih, le_scale_iff hm hd]
    rfl

end FixedWidth
