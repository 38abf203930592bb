import Mathlib

/-!
# Scans of a store that iterates its keys in order

An iterator is set on the first key that is not below a bound, and moves on while the keys are
wanted.
-/
namespace KeyScan

section

variable {κ ρ : Type} [LinearOrder ρ] (rank : κ → ρ)

def ordered (keys : List κ) : List κ := keys.mergeSort fun a b => decide (rank a ≤ rank b)

def scan (first : ρ) (wanted : κ → Bool) (keys : List κ) : List κ :=
  ((ordered rank keys).dropWhile fun k => decide (rank k < first)).takeWhile wanted

theorem ordered_perm (keys : List κ) : (ordered rank keys).Perm keys := List.mergeSort_perm _ _

theorem ordered_pairwise (keys : List κ) :
    (ordered rank keys).Pairwise fun a b => rank a ≤ rank b := by
  have htrans : ∀ a b c : κ, decide (rank a ≤ rank b) = true → decide (rank b ≤ rank c) = true →
      decide (rank a ≤ rank c) = true := by
    intro a b c hab hbc
    simp only [decide_eq_true_eq] at hab hbc ⊢
    exact hab.trans hbc
  have htotal : ∀ a b : κ, (decide (rank a ≤ rank b) || decide (rank b ≤ rank a)) = true := by
    intro a b
    simp only [Bool.or_eq_true, decide_eq_true_eq]
    exact le_total _ _
  exact (List.pairwise_mergeSort htrans htotal keys).imp fun h => of_decide_eq_true h

variable {p : κ → Bool} {l : List κ}

theorem while_eq_filter (h : l.Pairwise fun a b => p b = true → p a = true) :
    l.takeWhile p = l.filter p ∧ l.dropWhile p = l.filter fun a => !p a := by
  induction l with
  | nil => exact ⟨rfl, rfl⟩
  | cons a l ih =>
    rw [List.pairwise_cons] at h
    cases ha : p a with
    | true =>
      obtain ⟨taken, dropped⟩ := ih h.2
      simp [ha, taken, dropped]
    | false =>
      have rest : ∀ b ∈ l, p b = false := by
        intro b hb
        rw [Bool.eq_false_iff]
        intro hpb
        rw [h.1 b hb hpb] at ha
        cases ha
      have kept : l.filter (fun b => !p b) = l := by
        rw [List.filter_eq_self]
        intro b hb
        rw [rest b hb, Bool.not_false]
      simpa [ha, kept] using rest

theorem takeWhile_eq_filter (h : l.Pairwise fun a b => p b = true → p a = true) :
    l.takeWhile p = l.filter p := (while_eq_filter h).1

theorem dropWhile_eq_filter (h : l.Pairwise fun a b => p b = true → p a = true) :
    l.dropWhile p = l.filter fun a => !p a := (while_eq_filter h).2

variable {first : ρ} {wanted : κ → Bool} {keys : List κ}

theorem scan_perm (closed : ∀ a ∈ keys, ∀ b ∈ keys, first ≤ rank a → rank a ≤ rank b →
      wanted b = true → wanted a = true) :
    (scan rank first wanted keys).Perm
      (keys.filter fun k => decide (first ≤ rank k) && wanted k) := by
  have hordered := ordered_pairwise rank keys
  have hdrop : (ordered rank keys).dropWhile (fun k => decide (rank k < first)) =
      (ordered rank keys).filter fun k => decide (first ≤ rank k) := by
    rw [dropWhile_eq_filter]
    · simp only [← decide_not, not_lt]
    · refine hordered.imp fun {a b} hab hb => ?_
      simp only [decide_eq_true_eq] at hb ⊢
      exact hab.trans_lt hb
  have htake : ((ordered rank keys).filter fun k => decide (first ≤ rank k)).Pairwise
      fun a b => wanted b = true → wanted a = true := by
    refine (hordered.filter _).imp_of_mem fun {a b} ha hb hab => ?_
    simp only [List.mem_filter, (ordered_perm rank keys).mem_iff, decide_eq_true_eq] at ha hb
    exact closed a ha.1 b hb.1 ha.2 hab
  rw [scan, hdrop, takeWhile_eq_filter htake, List.filter_filter]
  refine ((ordered_perm rank keys).filter _).trans (List.Perm.of_eq (List.filter_congr ?_))
  intro k _
  rw [Bool.and_comm]

end

section

variable {α : Type} [LinearOrder α] {b p x y : List α}

theorem lt_append_iff (h : ¬ p <+: b) : b < p ++ x ↔ b < p ++ y := by
  induction p generalizing b with
  | nil => exact absurd (List.nil_prefix) h
  | cons c p ih =>
    cases b with
    | nil => simp
    | cons d b =>
      rw [List.cons_append, List.cons_append, List.cons_lt_cons_iff, List.cons_lt_cons_iff]
      by_cases hd : d = c
      · subst hd
        rw [List.cons_prefix_cons] at h
        simp only [lt_irrefl, false_or, true_and]
        exact ih fun hp => h ⟨rfl, hp⟩
      · simp [hd]

theorem append_lt_append_iff (p : List α) : p ++ x < p ++ y ↔ x < y := by
  induction p with
  | nil => rfl
  | cons c p ih =>
    rw [List.cons_append, List.cons_append, List.cons_lt_cons_iff, ih]
    simp

theorem append_le_append_iff (p : List α) : p ++ x ≤ p ++ y ↔ x ≤ y := by
  rw [← not_lt, ← not_lt, append_lt_append_iff]

theorem append_lt_append_of_length (h : x.length = y.length) (u v : List α) :
    x ++ u < y ++ v ↔ x < y ∨ x = y ∧ u < v := by
  induction x generalizing y with
  | nil =>
    cases y with
    | nil => simp
    | cons c y => simp at h
  | cons c x ih =>
    cases y with
    | nil => simp at h
    | cons d y =>
      rw [List.cons_append, List.cons_append, List.cons_lt_cons_iff, List.cons_lt_cons_iff,
        ih (by simpa using h), List.cons.injEq]
      tauto

end

section

def digits (base : ℕ) : ℕ → ℕ → List ℕ
  | 0, _ => []
  | count + 1, x => digits base count (x / base) ++ [x % base]

variable {base : ℕ}

@[simp] theorem length_digits (count x : ℕ) : (digits base count x).length = count := by
  induction count generalizing x with
  | zero => rfl
  | succ count ih => rw [digits, List.length_append, ih, List.length_singleton]

theorem digits_inj {count x y : ℕ} (hx : x < base ^ count) (hy : y < base ^ count) :
    digits base count x = digits base count y ↔ x = y := by
  refine ⟨fun h => ?_, fun h => by rw [h]⟩
  induction count generalizing x y with
  | zero =>
    rw [Nat.pow_zero] at hx hy
    omega
  | succ count ih =>
    obtain ⟨hhigh, hlow⟩ := List.append_inj h (by simp)
    have hdiv := ih (Nat.div_lt_of_lt_mul (by rwa [Nat.pow_succ'] at hx))
      (Nat.div_lt_of_lt_mul (by rwa [Nat.pow_succ'] at hy)) hhigh
    rw [← Nat.div_add_mod x base, ← Nat.div_add_mod y base, hdiv, List.singleton_inj.mp hlow]

theorem digits_lt {count x y : ℕ} (hx : x < base ^ count) (hy : y < base ^ count) :
    digits base count x < digits base count y ↔ x < y := by
  induction count generalizing x y with
  | zero =>
    rw [Nat.pow_zero] at hx hy
    simp only [digits, lt_irrefl, false_iff]
    omega
  | succ count ih =>
    have hx' : x / base < base ^ count := Nat.div_lt_of_lt_mul (by rwa [Nat.pow_succ'] at hx)
    have hy' : y / base < base ^ count := Nat.div_lt_of_lt_mul (by rwa [Nat.pow_succ'] at hy)
    rw [digits, digits, append_lt_append_of_length (by simp), ih hx' hy', digits_inj hx' hy']
    have hsplit : ∀ n, n = base * (n / base) + n % base := fun n => (Nat.div_add_mod n base).symm
    simp only [List.cons_lt_cons_iff, List.not_lt_nil, and_false, or_false]
    constructor
    · rintro (hdiv | ⟨hdiv, hmod⟩)
      · exact Nat.lt_of_div_lt_div hdiv
      · rw [hsplit x, hsplit y, hdiv]
        exact Nat.add_lt_add_left hmod _
    · intro h
      rcases (Nat.div_le_div_right (c := base) h.le).lt_or_eq with hdiv | hdiv
      · exact Or.inl hdiv
      · refine Or.inr ⟨hdiv, ?_⟩
        rw [hsplit x, hsplit y, hdiv] at h
        exact Nat.lt_of_add_lt_add_left h

end

end KeyScan
