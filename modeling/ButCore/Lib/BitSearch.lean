import Mathlib.Tactic.Ring
import Mathlib.Data.Nat.Bitwise

/-!
# Bit-by-bit search

`bitSearch p k root` tries the bits below `k` from the highest down and keeps a bit when the number
with it satisfies `p`.
-/
namespace BitSearch

def bitSearch (p : ℕ → Prop) [DecidablePred p] : ℕ → ℕ → ℕ
  | 0, root => root
  | k + 1, root =>
    let next := root ||| 1 <<< k
    bitSearch p k (if p next then next else root)

def candidates (p : ℕ → Prop) [DecidablePred p] : ℕ → ℕ → List ℕ
  | 0, _ => []
  | k + 1, root =>
    let next := root ||| 1 <<< k
    next :: candidates p k (if p next then next else root)

theorem or_one_shiftLeft (k q : ℕ) : 2 ^ (k + 1) * q ||| 1 <<< k = 2 ^ k * (2 * q + 1) := by
  have hlt : 1 <<< k < 2 ^ (k + 1) := by
    rw [Nat.one_shiftLeft]
    exact Nat.pow_lt_pow_right (by decide) (Nat.lt_succ_self k)
  rw [Nat.mul_comm, ← Nat.shiftLeft_eq, ← Nat.shiftLeft_add_eq_or_of_lt hlt, Nat.shiftLeft_eq,
    Nat.one_shiftLeft]
  ring

theorem two_pow_succ_mul (k q : ℕ) : 2 ^ (k + 1) * q = 2 ^ k * (2 * q) := by ring

theorem two_pow_succ_mul_succ (k q : ℕ) : 2 ^ (k + 1) * (q + 1) = 2 ^ k * (2 * q + 1 + 1) := by ring

theorem middle_lt (k q : ℕ) : 2 ^ k * q < 2 ^ k * (q + 1) :=
  Nat.mul_lt_mul_of_pos_left (Nat.lt_succ_self q) (Nat.two_pow_pos k)

variable {p : ℕ → Prop} [DecidablePred p] {bound : ℕ}

theorem bitSearch_lt (k q : ℕ) : bitSearch p k (2 ^ k * q) < 2 ^ k * (q + 1) := by
  induction k generalizing q with
  | zero => simp [bitSearch]
  | succ k ih =>
    rw [bitSearch, or_one_shiftLeft, two_pow_succ_mul_succ]
    by_cases hnext : p (2 ^ k * (2 * q + 1))
    · simp only [if_pos hnext]
      exact ih (2 * q + 1)
    · simp only [if_neg hnext]
      rw [two_pow_succ_mul]
      exact lt_trans (ih (2 * q)) (middle_lt k _)

theorem lt_of_mem_candidates {k q next : ℕ} (h : next ∈ candidates p k (2 ^ k * q)) :
    next < 2 ^ k * (q + 1) := by
  induction k generalizing q with
  | zero => cases h
  | succ k ih =>
    rw [candidates, or_one_shiftLeft, List.mem_cons] at h
    rw [two_pow_succ_mul_succ]
    obtain rfl | h := h
    · exact middle_lt k _
    by_cases hnext : p (2 ^ k * (2 * q + 1))
    · rw [if_pos hnext] at h
      exact ih h
    · rw [if_neg hnext, two_pow_succ_mul] at h
      exact (ih h).trans (middle_lt k _)

theorem bitSearch_spec (hclosed : ∀ x y, x ≤ y → y < bound → p y → p x) (k q : ℕ)
    (hbound : 2 ^ k * (q + 1) ≤ bound) (hroot : p (2 ^ k * q)) :
    p (bitSearch p k (2 ^ k * q)) ∧
      ∀ y, y < 2 ^ k * (q + 1) → p y → y ≤ bitSearch p k (2 ^ k * q) := by
  induction k generalizing q with
  | zero =>
    refine ⟨hroot, ?_⟩
    intro y hy _
    simp only [bitSearch]
    omega
  | succ k ih =>
    rw [bitSearch, or_one_shiftLeft, two_pow_succ_mul_succ]
    rw [two_pow_succ_mul_succ] at hbound
    by_cases hnext : p (2 ^ k * (2 * q + 1))
    · simp only [if_pos hnext]
      exact ih (2 * q + 1) hbound hnext
    · simp only [if_neg hnext]
      rw [two_pow_succ_mul] at hroot ⊢
      obtain ⟨hfound, hgreatest⟩ := ih (2 * q) ((middle_lt k _).le.trans hbound) hroot
      refine ⟨hfound, ?_⟩
      intro y hy hpy
      apply hgreatest y _ hpy
      -- a candidate from the middle on would make the rejected bit pass
      by_contra hge
      exact hnext (hclosed _ y (not_lt.mp hge) (lt_of_lt_of_le hy hbound) hpy)

end BitSearch
