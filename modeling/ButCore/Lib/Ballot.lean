import Mathlib.Algebra.Order.Group.Int
import Mathlib.Data.Finset.Card
import Mathlib.Data.List.Count
import Mathlib.Tactic.Linarith

/-!
# Latest entries and counted values

A register that is replaced by later entries only ends with a latest entry of what it was offered.
-/
namespace Ballot

section

variable {μ τ : Type*} [LinearOrder τ] (stamp : μ → τ)

def keepLatest (held : Option μ) (new : μ) : Option μ :=
  match held with
  | none => some new
  | some old => if stamp new ≤ stamp old then some old else some new

def IsLatest (xs : List μ) (x : μ) : Prop := x ∈ xs ∧ ∀ y ∈ xs, stamp y ≤ stamp x

variable {stamp} {xs : List μ} {x : μ}

theorem keepLatest_isLatest {held : Option μ} {new : μ} (h : ∀ y ∈ held, IsLatest stamp xs y)
    (hnone : held = none → xs = []) :
    ∀ y ∈ keepLatest stamp held new, IsLatest stamp (xs ++ [new]) y := by
  intro y hy
  cases held with
  | none =>
    obtain rfl : new = y := by simpa [keepLatest] using hy
    rw [hnone rfl]
    simp [IsLatest]
  | some old =>
    obtain ⟨hmem, hle⟩ := h old rfl
    unfold keepLatest at hy
    by_cases hearlier : stamp new ≤ stamp old
    · obtain rfl : old = y := by simpa [hearlier] using hy
      refine ⟨List.mem_append_left _ hmem, ?_⟩
      simpa [or_imp, forall_and, hearlier] using hle
    · obtain rfl : new = y := by simpa [hearlier] using hy
      refine ⟨List.mem_append_right _ (List.mem_singleton_self _), ?_⟩
      intro z hz
      rcases List.mem_append.mp hz with hz | hz
      · exact (hle z hz).trans (le_of_not_ge hearlier)
      · rw [List.mem_singleton.mp hz]

theorem keepLatest_ne_none (held : Option μ) (new : μ) : keepLatest stamp held new ≠ none := by
  unfold keepLatest
  cases held with
  | none => exact Option.some_ne_none _
  | some old =>
    dsimp only
    split <;> exact Option.some_ne_none _

theorem foldl_keepLatest_spec (xs : List μ) :
    (∀ y ∈ xs.foldl (keepLatest stamp) none, IsLatest stamp xs y) ∧
      (xs.foldl (keepLatest stamp) none = none → xs = []) := by
  induction xs using List.reverseRecOn with
  | nil => exact ⟨by simp, fun _ => rfl⟩
  | append_singleton xs x ih =>
    rw [List.foldl_append, List.foldl_cons, List.foldl_nil]
    exact ⟨keepLatest_isLatest ih.1 ih.2, fun h => absurd h (keepLatest_ne_none _ _)⟩

end

section

variable {ν : Type*} [DecidableEq ν] (limit : ℤ)

def firstReaching : List ν → (ν → ℤ) → Option ν
  | [], _ => none
  | v :: rest, counts =>
    let counts := Function.update counts v (counts v + 1)
    if counts v ≥ limit then some v else firstReaching rest counts

variable {limit}

theorem update_count (counts : ν → ℤ) (v w : ν) (rest : List ν) :
    Function.update counts v (counts v + 1) w + (rest.count w : ℤ) =
      counts w + ((v :: rest).count w : ℤ) := by
  by_cases hw : w = v
  · subst hw
    rw [Function.update_self, List.count_cons_self]
    omega
  · rw [Function.update_of_ne hw, List.count_cons_of_ne (Ne.symm hw)]

variable {xs : List ν} {v : ν} {counts : ν → ℤ}

theorem firstReaching_some (h : firstReaching limit xs counts = some v) : limit ≤ counts v + xs.count v := by
  induction xs generalizing counts with
  | nil => cases h
  | cons w rest ih =>
    rw [firstReaching] at h
    by_cases hreach : Function.update counts w (counts w + 1) w ≥ limit
    · rw [if_pos hreach, Option.some.injEq] at h
      subst h
      have hcount := update_count counts w w rest
      have : (0 : ℤ) ≤ (rest.count w : ℤ) := Int.natCast_nonneg _
      linarith
    · rw [if_neg hreach] at h
      rw [← update_count counts w v rest]
      exact ih h

theorem firstReaching_none (h : firstReaching limit xs counts = none) (hv : v ∈ xs) :
    counts v + xs.count v < limit := by
  induction xs generalizing counts with
  | nil => cases hv
  | cons w rest ih =>
    rw [firstReaching] at h
    by_cases hreach : Function.update counts w (counts w + 1) w ≥ limit
    · rw [if_pos hreach] at h
      cases h
    · rw [if_neg hreach] at h
      rw [← update_count counts w v rest]
      by_cases hlater : v ∈ rest
      · exact ih h hlater
      · obtain rfl : v = w := by simpa [hlater] using hv
        rw [List.count_eq_zero_of_not_mem hlater, Nat.cast_zero, add_zero]
        exact lt_of_not_ge hreach

theorem count_add_count_le {w : ν} (hne : v ≠ w) (xs : List ν) :
    xs.count v + xs.count w ≤ xs.length := by
  induction xs with
  | nil => exact le_rfl
  | cons x xs ih =>
    rw [List.count_cons, List.count_cons, List.length_cons]
    by_cases hv : x = v
    · subst hv
      simp only [beq_self_eq_true, beq_eq_false_iff_ne.mpr hne, if_true, Bool.false_eq_true,
        if_false]
      omega
    · simp only [beq_eq_false_iff_ne.mpr hv, Bool.false_eq_true, if_false]
      split <;> omega

theorem firstReaching_eq_some_iff (hlimit : (xs.length : ℤ) < 2 * limit) :
    firstReaching limit xs (fun _ => 0) = some v ↔ limit ≤ xs.count v := by
  constructor
  · intro h
    simpa using firstReaching_some h
  · intro h
    have hpos : 0 < limit := by
      have := Int.natCast_nonneg xs.length
      linarith
    have hmem : v ∈ xs := by
      apply List.count_pos_iff.mp
      exact_mod_cast hpos.trans_le h
    cases hfound : firstReaching limit xs (fun _ => 0) with
    | none =>
      have := firstReaching_none hfound hmem
      linarith
    | some w =>
      have hw := firstReaching_some hfound
      rw [Option.some.injEq]
      by_contra hwv
      have hne : v ≠ w := fun hvw => hwv hvw.symm
      have htwo := count_add_count_le hne xs
      omega

end

end Ballot
