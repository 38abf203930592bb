import Mathlib.Data.List.Perm.Basic
import Mathlib.Data.List.Nodup

/-!
# Messages delivered one at a time

A delivery may fail.
-/
namespace Deliveries

variable {σ τ ε α κ : Type*}

theorem foldlM_eq_foldl (g : τ → α → Option τ) (l : List α) (t : τ) :
    l.foldlM g t = l.foldl (fun o a => o.bind fun t => g t a) (some t) := by
  suffices h : ∀ o : Option τ, (o.bind fun t => l.foldlM g t) =
      l.foldl (fun o a => o.bind fun t => g t a) o from h (some t)
  intro o
  induction l generalizing o with
  | nil => cases o <;> rfl
  | cons a l ih =>
    rw [List.foldl_cons, ← ih, Option.bind_assoc]
    rfl

variable {g : τ → α → Option τ} {l : List α}

theorem foldlM_inv {P : τ → Prop} (hstep : ∀ t a t', P t → g t a = some t' → P t') {t t' : τ}
    (h : P t) (hrun : l.foldlM g t = some t') : P t' := by
  induction l generalizing t with
  | nil =>
    cases hrun
    exact h
  | cons a l ih =>
    rw [List.foldlM_cons] at hrun
    obtain ⟨u, hu, hrest⟩ := Option.bind_eq_some_iff.mp hrun
    exact ih (hstep t a u h hu) hrest

theorem foldlM_perm {l' : List α} (hperm : l.Perm l')
    (hcomm : ∀ a ∈ l, ∀ b ∈ l, a ≠ b → ∀ t, (g t a).bind (g · b) = (g t b).bind (g · a)) (t : τ) :
    l.foldlM g t = l'.foldlM g t := by
  rw [foldlM_eq_foldl, foldlM_eq_foldl]
  refine hperm.foldl_eq' (fun a ha b hb o => ?_) (some t)
  by_cases hab : a = b
  · rw [hab]
  · cases o with
    | none => rfl
    | some t => exact hcomm a ha b hb hab t

/-- Through `view`, an event of the system is a message delivered or nothing at all. -/
structure Simulates (f : σ → ε → Option σ) (g : τ → α → Option τ) (view : σ → τ)
    (message : ε → Option α) (key : α → κ) (Fresh : σ → κ → Prop) : Prop where
  silent : ∀ s e, message e = none →
    ∃ s', f s e = some s' ∧ view s' = view s ∧ ∀ k, Fresh s k → Fresh s' k
  spoken : ∀ s e a, message e = some a → Fresh s (key a) → (f s e).map view = g (view s) a
  fresh : ∀ s e a s', message e = some a → f s e = some s' → ∀ k, k ≠ key a →
    Fresh s k → Fresh s' k

variable {f : σ → ε → Option σ} {message : ε → Option α} {Fresh : σ → κ → Prop} {view : σ → τ}
variable {events : List ε} {key : α → κ} {s : σ}

theorem Simulates.foldlM (h : Simulates f g view message key Fresh)
    (hnodup : ((events.filterMap message).map key).Nodup)
    (hfresh : ∀ a ∈ events.filterMap message, Fresh s (key a)) :
    (events.foldlM f s).map view = (events.filterMap message).foldlM g (view s) := by
  induction events generalizing s with
  | nil => rfl
  | cons e events ih =>
    rw [List.foldlM_cons, Option.bind_eq_bind, Option.map_bind]
    cases hmsg : message e with
    | none =>
      rw [List.filterMap_cons_none hmsg] at hnodup hfresh ⊢
      obtain ⟨s', hs', hview, hkeep⟩ := h.silent s e hmsg
      rw [hs', Option.bind_some, Function.comp_apply, ← hview]
      exact ih hnodup fun a ha => hkeep _ (hfresh a ha)
    | some a =>
      rw [List.filterMap_cons_some hmsg] at hnodup hfresh ⊢
      rw [List.map_cons, List.nodup_cons] at hnodup
      have hspoken := h.spoken s e a hmsg (hfresh a List.mem_cons_self)
      rw [List.foldlM_cons, ← hspoken]
      cases hs' : f s e with
      | none => rfl
      | some s' =>
        refine ih hnodup.2 fun b hb => ?_
        refine h.fresh s e a s' hmsg hs' _ ?_ (hfresh b (List.mem_cons_of_mem _ hb))
        exact fun heq => hnodup.1 (heq ▸ List.mem_map_of_mem hb)

/-- Runs with the same messages, in whatever order and between whatever silent events, look the
same through the view. -/
theorem Simulates.view_eq (h : Simulates f g view message key Fresh) {events' : List ε}
    (hperm : (events.filterMap message).Perm (events'.filterMap message))
    (hnodup : ((events.filterMap message).map key).Nodup)
    (hfresh : ∀ a ∈ events.filterMap message, Fresh s (key a))
    (hcomm : ∀ a ∈ events.filterMap message, ∀ b ∈ events.filterMap message, a ≠ b → ∀ t, (g t a).bind (g · b) = (g t b).bind (g · a)) :
    (events.foldlM f s).map view = (events'.foldlM f s).map view := by
  have hnodup' := (hperm.map key).nodup_iff.mp hnodup
  rw [h.foldlM hnodup hfresh, h.foldlM hnodup' fun a ha => hfresh a (hperm.mem_iff.mpr ha)]
  exact foldlM_perm hperm hcomm (view s)

end Deliveries
