import Mathlib.Data.List.Forall2

/-!
# Computations that may stop

Guards, and loops over a list whose body may stop with an error.
-/
namespace Checked

universe u

variable {ε : Type*} {α β σ : Type u}

def failIf (c : Prop) [Decidable c] (e : ε) : Except ε Unit := if c then .error e else .ok ()

def require (c : Prop) [Decidable c] (e : ε) : Except ε Unit := failIf (¬ c) e

def expect (o : Option α) (e : ε) : Except ε α :=
  match o with
  | none => .error e
  | some a => .ok a

@[simp] theorem failIf_eq_ok {c : Prop} [Decidable c] {e : ε} {u : Unit} :
    failIf c e = .ok u ↔ ¬ c := by
  unfold failIf
  split <;> simp_all

@[simp] theorem failIf_eq_error {c : Prop} [Decidable c] {e e' : ε} :
    failIf c e = .error e' ↔ c ∧ e = e' := by
  unfold failIf
  split <;> simp_all

@[simp] theorem require_eq_ok {c : Prop} [Decidable c] {e : ε} {u : Unit} :
    require c e = .ok u ↔ c := by
  simp [require]

@[simp] theorem require_eq_error {c : Prop} [Decidable c] {e e' : ε} :
    require c e = .error e' ↔ ¬ c ∧ e = e' := by
  simp [require]

@[simp] theorem expect_eq_ok {o : Option α} {e : ε} {a : α} : expect o e = .ok a ↔ o = some a := by
  cases o <;> simp [expect]

@[simp] theorem expect_eq_error {o : Option α} {e e' : ε} :
    expect o e = .error e' ↔ o = none ∧ e = e' := by
  cases o <;> simp [expect]

@[simp] theorem bind_eq_ok {x : Except ε α} {f : α → Except ε β} {b : β} :
    (x >>= f) = .ok b ↔ ∃ a, x = .ok a ∧ f a = .ok b := by
  cases x <;> simp [bind, Except.bind]

@[simp] theorem bind_eq_error {x : Except ε α} {f : α → Except ε β} {e : ε} :
    (x >>= f) = .error e ↔ x = .error e ∨ ∃ a, x = .ok a ∧ f a = .error e := by
  cases x <;> simp [bind, Except.bind]

theorem ok_bind (a : α) (f : α → Except ε β) : (Except.ok a >>= f) = f a := rfl

@[simp] theorem pure_eq_ok {a b : α} : (pure a : Except ε α) = .ok b ↔ a = b := by
  simp [pure, Except.pure]

@[simp] theorem pure_ne_error {a : α} {e : ε} : (pure a : Except ε α) ≠ .error e := by
  simp [pure, Except.pure]

@[simp] theorem mapError_eq_ok {ε' : Type*} {f : ε → ε'} {x : Except ε α} {a : α} :
    x.mapError f = .ok a ↔ x = .ok a := by
  cases x <;> simp [Except.mapError]

theorem toOption_eq_some {x : Except ε α} {a : α} : x.toOption = some a ↔ x = .ok a := by
  cases x <;> simp [Except.toOption]

theorem forM_eq_ok {f : α → Except ε PUnit} {l : List α} {u : PUnit} :
    l.forM f = .ok u ↔ ∀ x ∈ l, f x = .ok u := by
  induction l with
  | nil => simp [List.forM]
  | cons x l ih =>
    change (f x >>= fun _ => l.forM f) = .ok u ↔ _
    rw [bind_eq_ok, List.forall_mem_cons, ← ih]
    exact ⟨fun ⟨_, hx, hl⟩ => ⟨hx, hl⟩, fun ⟨hx, hl⟩ => ⟨_, hx, hl⟩⟩

theorem mapM_eq_ok {f : α → Except ε β} {xs : List α} {ys : List β} :
    xs.mapM f = .ok ys ↔ List.Forall₂ (fun x y => f x = .ok y) xs ys := by
  induction xs generalizing ys with
  | nil => rw [List.mapM_nil, pure_eq_ok, List.forall₂_nil_left_iff, eq_comm]
  | cons x xs ih =>
    rw [List.mapM_cons, List.forall₂_cons_left_iff]
    simp only [bind_eq_ok, pure_eq_ok, ih]
    constructor
    · rintro ⟨y, hy, ys', hys, rfl⟩
      exact ⟨y, ys', hy, hys, rfl⟩
    · rintro ⟨y, ys', hy, hys, rfl⟩
      exact ⟨y, hy, ys', hys, rfl⟩

theorem mapM_expect {f : α → Option β} {e : ε} {xs : List α} (all : ∀ x ∈ xs, ∃ y, f x = some y) :
    xs.mapM (fun x => expect (f x) e) = .ok (xs.filterMap f) := by
  rw [mapM_eq_ok]
  induction xs with
  | nil => exact List.Forall₂.nil
  | cons x xs ih =>
    obtain ⟨⟨y, hy⟩, all⟩ := List.forall_mem_cons.mp all
    rw [List.filterMap_cons_some hy]
    exact .cons (expect_eq_ok.mpr hy) (ih all)

section

variable {step : σ → α → Except ε σ}

theorem foldlM_cons_ok {s s' : σ} {x : α} {l : List α} :
    (x :: l).foldlM step s = .ok s' ↔ ∃ t, step s x = .ok t ∧ l.foldlM step t = .ok s' := by
  rw [List.foldlM_cons, bind_eq_ok]

theorem foldlM_congr_ok {ε' : Type*} {step' : σ → α → Except ε' σ}
    (same : ∀ s x t, step s x = .ok t ↔ step' s x = .ok t) {l : List α} {s s' : σ} :
    l.foldlM step s = .ok s' ↔ l.foldlM step' s = .ok s' := by
  induction l generalizing s with
  | nil => simp only [List.foldlM_nil, pure_eq_ok]
  | cons x l ih => simp only [foldlM_cons_ok, same, ih]

variable (step) in
theorem foldlM_inv (I : List α → σ → Prop) {l : List α} {s s' : σ} (init : I [] s)
    (preserved : ∀ done x rest t t', l = done ++ x :: rest → I done t → step t x = .ok t' →
      I (done ++ [x]) t')
    (run : l.foldlM step s = .ok s') : I l s' := by
  suffices h : ∀ rest done t, l = done ++ rest → I done t → rest.foldlM step t = .ok s' → I l s' from
    h l [] s rfl init run
  intro rest
  induction rest with
  | nil =>
    intro done t hl ht hrun
    simp only [List.foldlM_nil, pure_eq_ok] at hrun
    rw [hl, List.append_nil, ← hrun]
    exact ht
  | cons x rest ih =>
    intro done t hl ht hrun
    obtain ⟨u, hstep, hrest⟩ := foldlM_cons_ok.mp hrun
    exact ih (done ++ [x]) u (by simp [hl]) (preserved done x rest t u hl ht hstep) hrest

variable (step) in
theorem foldlM_total (I : List α → σ → Prop) (l : List α) {s : σ} (init : I [] s)
    (progress : ∀ done x rest t, l = done ++ x :: rest → I done t →
      ∃ t', step t x = .ok t' ∧ I (done ++ [x]) t') :
    ∃ s', l.foldlM step s = .ok s' ∧ I l s' := by
  suffices h : ∀ rest done t, l = done ++ rest → I done t →
      ∃ s', rest.foldlM step t = .ok s' ∧ I l s' from h l [] s rfl init
  intro rest
  induction rest with
  | nil =>
    intro done t hl ht
    rw [List.append_nil] at hl
    exact ⟨t, rfl, hl ▸ ht⟩
  | cons x rest ih =>
    intro done t hl ht
    obtain ⟨u, hstep, hu⟩ := progress done x rest t hl ht
    obtain ⟨s', hrest, hs'⟩ := ih (done ++ [x]) u (by simp [hl]) hu
    exact ⟨s', foldlM_cons_ok.mpr ⟨u, hstep, hrest⟩, hs'⟩

theorem foldlM_eq_error_iff {l : List α} {s : σ} {e : ε} :
    l.foldlM step s = .error e ↔ ∃ done x rest t, l = done ++ x :: rest ∧
      done.foldlM step s = .ok t ∧ step t x = .error e := by
  constructor
  · intro run
    induction l generalizing s with
    | nil => exact absurd run pure_ne_error
    | cons x l ih =>
      rw [List.foldlM_cons, bind_eq_error] at run
      rcases run with hstop | ⟨t, hstep, hrest⟩
      · exact ⟨[], x, l, s, rfl, rfl, hstop⟩
      · obtain ⟨done, y, rest, u, hl, hdone, hstop⟩ := ih hrest
        exact ⟨x :: done, y, rest, u, by simp [hl], foldlM_cons_ok.mpr ⟨t, hstep, hdone⟩, hstop⟩
  · rintro ⟨done, x, rest, t, rfl, hdone, hstop⟩
    rw [List.foldlM_append, bind_eq_error]
    exact Or.inr ⟨t, hdone, by rw [List.foldlM_cons, bind_eq_error]; exact Or.inl hstop⟩

end

end Checked
