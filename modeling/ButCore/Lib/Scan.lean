import Mathlib.Data.List.Destutter

/-!
# Scanning for one element after the other

A scan looks for the elements of a list in turn, each from the place on where the one before it was
found, and that place itself is looked at again.
-/
namespace Scan

variable {α : Type*} [DecidableEq α]

def scan : List α → List α → Bool
  | [], _ => true
  | x :: xs, ys =>
    match ys.dropWhile (· ≠ x) with
    | [] => false
    | found => scan xs found

variable {xs ys : List α} {x : α}

theorem cons_sublist_iff_dropWhile :
    (x :: xs).Sublist ys ↔ (x :: xs).Sublist (ys.dropWhile (· ≠ x)) := by
  induction ys with
  | nil => rfl
  | cons y ys ih =>
    by_cases hy : y = x
    · rw [List.dropWhile_cons_of_neg (by simp [hy])]
    · rw [List.dropWhile_cons_of_pos (by simp [hy]), ← ih]
      constructor
      · intro h
        cases h with
        | cons _ h => exact h
        | cons_cons => exact absurd rfl hy
      · exact List.Sublist.cons y

theorem dropWhile_eq_cons {y : α} {found : List α} (h : ys.dropWhile (· ≠ x) = y :: found) :
    y = x := by
  have head := List.head?_dropWhile_not (· ≠ x) ys
  rw [h] at head
  simpa using head

theorem destutter'_eq_cons (x : α) (xs : List α) :
    ∃ rest, List.destutter' (· ≠ ·) x xs = x :: rest := by
  induction xs with
  | nil => exact ⟨[], rfl⟩
  | cons y xs ih =>
    by_cases hy : x = y
    · rw [List.destutter'_cons_neg _ (not_not.mpr hy)]
      exact ih
    · exact ⟨_, List.destutter'_cons_pos _ hy⟩

theorem scan_cons_iff
    (rest : ∀ ys, scan xs (x :: ys) = true ↔ (List.destutter' (· ≠ ·) x xs).Sublist (x :: ys)) :
    scan (x :: xs) ys = true ↔ (List.destutter' (· ≠ ·) x xs).Sublist ys := by
  obtain ⟨l, hl⟩ := destutter'_eq_cons x xs
  rw [scan, hl, cons_sublist_iff_dropWhile]
  cases hfound : ys.dropWhile (· ≠ x) with
  | nil => simp
  | cons y found =>
    obtain rfl := dropWhile_eq_cons hfound
    rw [← hl]
    exact rest found

theorem scan_found_iff (x : α) (xs ys : List α) :
    scan xs (x :: ys) = true ↔ (List.destutter' (· ≠ ·) x xs).Sublist (x :: ys) := by
  induction xs generalizing x ys with
  | nil => simp [scan]
  | cons z xs ih =>
    by_cases hz : x = z
    · subst hz
      rw [scan, List.dropWhile_cons_of_neg (by simp), List.destutter'_cons_neg _ (by simp)]
      exact ih x ys
    · rw [List.destutter'_cons_pos _ hz, List.cons_sublist_cons, ← scan_cons_iff (ih z), scan,
        List.dropWhile_cons_of_pos (by simp [hz]), scan]

theorem scan_iff : scan xs ys = true ↔ (xs.destutter (· ≠ ·)).Sublist ys := by
  cases xs with
  | nil => simp [scan]
  | cons x xs => exact scan_cons_iff (scan_found_iff x xs)

theorem sublist_of_scan (distinct : xs.IsChain (· ≠ ·)) (h : scan xs ys = true) :
    xs.Sublist ys := by
  rw [scan_iff, List.destutter_of_isChain _ _ distinct] at h
  exact h

theorem scan_destutter (xs rest : List α) : scan xs (xs.destutter (· ≠ ·) ++ rest) = true :=
  scan_iff.mpr (List.sublist_append_left _ _)

theorem not_sublist_of_replaced {z : α} (repeated : ¬ xs.IsChain (· ≠ ·)) (hz : z ∉ xs) (n : ℕ) : ¬ xs.Sublist (xs.destutter (· ≠ ·) ++ List.replicate n z) := by
  intro h
  have kept : xs.Sublist (xs.destutter (· ≠ ·)) := by
    have := h.filter (· ≠ z)
    rw [List.filter_append, List.filter_replicate_of_neg (by simp), List.append_nil,
      List.filter_eq_self.mpr (fun x hx => by simpa using ne_of_mem_of_not_mem hx hz)] at this
    exact this.trans List.filter_sublist
  exact repeated ((List.destutter_eq_self_iff _ _).mp (kept.antisymm (List.destutter_sublist _ _)).symm)

end Scan
