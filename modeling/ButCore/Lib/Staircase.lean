import Mathlib.Data.Nat.Choose.Basic
import Mathlib.Tactic.Linarith
import Mathlib.Tactic.Ring

/-!
# Staircases

A flight of stairs begins at a value and falls by the same amount after every `run` arguments.
-/
namespace Staircase

/-- The flight covers the arguments from `start` on and below `stop`. -/
structure Flight where
  start : ℤ
  stop : ℤ
  top : ℤ
  drop : ℤ
  deriving DecidableEq

section

variable (run : ℤ) (f : Flight)

def Flight.Covers (h : ℤ) : Prop := f.start ≤ h ∧ h < f.stop

def Flight.value (h : ℤ) : ℤ := f.top - (h - f.start) / run * f.drop

def Flight.bottom : ℤ := f.value run (f.stop - 1)

/-- Every flight falls, and those after it begin where it has ended, at its bottom or below. -/
def Descending (flights : List Flight) : Prop :=
  (∀ f ∈ flights, 0 ≤ f.drop) ∧
    flights.Pairwise fun f g => f.stop ≤ g.start ∧ g.top ≤ f.bottom run

instance (flights : List Flight) : Decidable (Descending run flights) :=
  inferInstanceAs (Decidable (_ ∧ _))

end

section

variable {run : ℤ} {f g : Flight} {a b : ℤ}

theorem Flight.value_le (hrun : 0 < run) (hdrop : 0 ≤ f.drop) (hab : a ≤ b) :
    f.value run b ≤ f.value run a := by
  have steps : (a - f.start) / run ≤ (b - f.start) / run :=
    Int.ediv_le_ediv hrun (Int.sub_le_sub_right hab _)
  have falls := Int.mul_le_mul_of_nonneg_right steps hdrop
  unfold value
  omega

theorem Flight.value_le_top (hrun : 0 < run) (hdrop : 0 ≤ f.drop) (ha : f.Covers a) :
    f.value run a ≤ f.top := by
  have steps : 0 ≤ (a - f.start) / run := Int.ediv_nonneg (Int.sub_nonneg.mpr ha.1) hrun.le
  have falls := Int.mul_nonneg steps hdrop
  unfold value
  omega

theorem Flight.bottom_le_value (hrun : 0 < run) (hdrop : 0 ≤ f.drop) (ha : f.Covers a) :
    f.bottom run ≤ f.value run a :=
  Flight.value_le hrun hdrop (Int.le_sub_one_of_lt ha.2)

theorem value_le_of_descending {flights : List Flight} (hrun : 0 < run)
    (descending : Descending run flights) (hf : f ∈ flights) (hg : g ∈ flights) (ha : f.Covers a)
    (hb : g.Covers b) (hab : a ≤ b) : g.value run b ≤ f.value run a := by
  obtain ⟨drops, below⟩ := descending
  induction flights with
  | nil => cases hf
  | cons first rest ih =>
    obtain ⟨below, ordered⟩ := List.pairwise_cons.mp below
    obtain ⟨-, drops'⟩ := List.forall_mem_cons.mp drops
    obtain rfl | hf' := List.mem_cons.mp hf
    · obtain rfl | hg' := List.mem_cons.mp hg
      · exact Flight.value_le hrun (drops _ hf) hab
      · calc
          g.value run b ≤ g.top := Flight.value_le_top hrun (drops g hg) hb
          _ ≤ f.bottom run := (below g hg').2
          _ ≤ f.value run a := Flight.bottom_le_value hrun (drops f hf) ha
    · obtain rfl | hg' := List.mem_cons.mp hg
      · -- the argument `a` comes after all of the first flight
        have ended := (below f hf').1
        have := ha.1
        have := hb.2
        omega
      · exact ih hf' hg' drops' ordered

end

/-! ### Sums -/

def floorSum (k n : ℕ) : ℕ := k * (n / k).choose 2 + n / k * (n % k)

theorem floorSum_eq {k q r : ℕ} (hr : r < k) : floorSum k (k * q + r) = k * q.choose 2 + q * r := by
  have hk : 0 < k := (Nat.zero_le r).trans_lt hr
  have hquot : (k * q + r) / k = q := by
    rw [Nat.mul_add_div hk, Nat.div_eq_of_lt hr, Nat.add_zero]
  have hrem : (k * q + r) % k = r := by rw [Nat.mul_add_mod, Nat.mod_eq_of_lt hr]
  rw [floorSum, hquot, hrem]

theorem floorSum_succ {k : ℕ} (hk : 0 < k) (n : ℕ) : floorSum k (n + 1) = floorSum k n + n / k := by
  obtain ⟨q, r, hr, rfl⟩ : ∃ q r, r < k ∧ n = k * q + r :=
    ⟨n / k, n % k, Nat.mod_lt n hk, (Nat.div_add_mod n k).symm⟩
  have hquot : (k * q + r) / k = q := by
    rw [Nat.mul_add_div hk, Nat.div_eq_of_lt hr, Nat.add_zero]
  rw [floorSum_eq hr, hquot]
  by_cases hlast : r + 1 < k
  · rw [Nat.add_assoc, floorSum_eq hlast]
    ring
  · obtain rfl : k = r + 1 := by omega
    have hnext : (r + 1) * q + r + 1 = (r + 1) * (q + 1) + 0 := by ring
    rw [hnext, floorSum_eq hk, Nat.choose_succ_succ' q 1, Nat.choose_one_right]
    ring

theorem sum_flight {run : ℕ} (hrun : 0 < run) {f : Flight} {total : ℕ → ℤ} {start : ℕ}
    (hstart : f.start = start)
    (grows : ∀ h : ℕ, f.Covers h → total (h + 1) = total h + f.value run h) {n : ℕ}
    (hn : f.start + n ≤ f.stop) :
    total (start + n) = total start + (n * f.top - f.drop * floorSum run n) := by
  induction n with
  | zero => simp [floorSum]
  | succ n ih =>
    have covered : f.Covers (start + n : ℕ) := by
      constructor <;> push_cast at * <;> omega
    have steps : ((start + n : ℕ) - f.start) / run = ((n / run : ℕ) : ℤ) := by
      rw [hstart]
      push_cast
      rw [add_sub_cancel_left]
    rw [← Nat.add_assoc, grows _ covered, ih (by push_cast at *; omega), Flight.value, steps,
      floorSum_succ hrun]
    push_cast
    ring

end Staircase
