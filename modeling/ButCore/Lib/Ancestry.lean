import Mathlib.Data.Option.Basic
import Mathlib.Order.Basic

/-!
# Ancestors by height

Nodes with an optional parent, graded by a height that grows by one from a parent to its child and
is zero at a root.
-/
namespace Ancestry

variable {κ : Type*}

def up (parent : κ → Option κ) : ℕ → κ → Option κ
  | 0, b => some b
  | k + 1, b => (parent b).bind (up parent k)

def Ancestor (parent : κ → Option κ) (a b : κ) : Prop := ∃ k, up parent k b = some a

def ancestorAt (parent : κ → Option κ) (height : κ → ℕ) (b : κ) (h : ℕ) : Option κ :=
  if h ≤ height b then up parent (height b - h) b else none

structure Graded (parent : κ → Option κ) (height : κ → ℕ) : Prop where
  root : ∀ {b}, parent b = none → height b = 0
  step : ∀ {b p}, parent b = some p → height b = height p + 1

variable {parent : κ → Option κ} {height : κ → ℕ} {a b p : κ} {h k : ℕ}

theorem up_add (j k : ℕ) (b : κ) : up parent (j + k) b = (up parent j b).bind (up parent k) := by
  induction j generalizing b with
  | zero => rw [Nat.zero_add]; rfl
  | succ j ih =>
    rw [Nat.succ_add, up, up]
    cases parent b with
    | none => rfl
    | some p => exact ih p

theorem Ancestor.refl (b : κ) : Ancestor parent b b := ⟨0, rfl⟩

theorem Ancestor.of_parent (hp : parent b = some p) (ha : Ancestor parent a p) :
    Ancestor parent a b := by
  obtain ⟨k, hk⟩ := ha
  refine ⟨k + 1, ?_⟩
  rw [up, hp]
  exact hk

theorem Ancestor.cases (ha : Ancestor parent a b) :
    a = b ∨ ∃ p, parent b = some p ∧ Ancestor parent a p := by
  obtain ⟨k, hk⟩ := ha
  cases k with
  | zero => exact Or.inl (Option.some.inj hk).symm
  | succ k =>
    rw [up, Option.bind_eq_some_iff] at hk
    obtain ⟨p, hp, hk⟩ := hk
    exact Or.inr ⟨p, hp, k, hk⟩

theorem Ancestor.trans {c : κ} (hab : Ancestor parent a b) (hbc : Ancestor parent b c) :
    Ancestor parent a c := by
  obtain ⟨j, hj⟩ := hab
  obtain ⟨k, hk⟩ := hbc
  refine ⟨k + j, ?_⟩
  rw [up_add, hk]
  exact hj

namespace Graded

variable (graded : Graded parent height)

include graded

theorem height_up (hk : up parent k b = some a) : height b = height a + k := by
  induction k generalizing b with
  | zero => cases hk; rfl
  | succ k ih =>
    rw [up, Option.bind_eq_some_iff] at hk
    obtain ⟨p, hp, hk⟩ := hk
    rw [graded.step hp, ih hk, Nat.add_assoc]

theorem exists_up (hk : k ≤ height b) : ∃ a, up parent k b = some a := by
  induction k generalizing b with
  | zero => exact ⟨b, rfl⟩
  | succ k ih =>
    cases hp : parent b with
    | none =>
      rw [graded.root hp] at hk
      exact absurd hk (Nat.not_succ_le_zero k)
    | some p =>
      rw [graded.step hp] at hk
      obtain ⟨a, ha⟩ := ih (Nat.le_of_succ_le_succ hk)
      refine ⟨a, ?_⟩
      rw [up, hp]
      exact ha

theorem height_le (ha : Ancestor parent a b) : height a ≤ height b := by
  obtain ⟨k, hk⟩ := ha
  rw [graded.height_up hk]
  exact Nat.le_add_right _ _

omit graded in
theorem ancestorAt_self (b : κ) : ancestorAt parent height b (height b) = some b := by
  rw [ancestorAt, if_pos (Nat.le_refl _), Nat.sub_self]
  rfl

theorem exists_ancestorAt (hle : h ≤ height b) :
    ∃ a, ancestorAt parent height b h = some a ∧ height a = h ∧ Ancestor parent a b := by
  obtain ⟨a, ha⟩ := graded.exists_up (Nat.sub_le (height b) h)
  have hheight := graded.height_up ha
  exact ⟨a, by rw [ancestorAt, if_pos hle, ha], by omega, height b - h, ha⟩

theorem ancestorAt_height (ha : Ancestor parent a b) :
    ancestorAt parent height b (height a) = some a := by
  obtain ⟨k, hk⟩ := ha
  have hheight := graded.height_up hk
  rw [ancestorAt, if_pos (by omega), ← hk]
  congr 1
  omega

theorem eq_of_height (ha : Ancestor parent a b) {a' : κ} (ha' : Ancestor parent a' b)
    (heq : height a = height a') : a = a' := by
  have hat := graded.ancestorAt_height ha
  rw [heq, graded.ancestorAt_height ha'] at hat
  exact (Option.some.inj hat).symm

theorem ancestorAt_parent (hp : parent b = some p) (hle : h ≤ height p) :
    ancestorAt parent height b h = ancestorAt parent height p h := by
  obtain ⟨a, ha, rfl, hanc⟩ := graded.exists_ancestorAt hle
  rw [ha, graded.ancestorAt_height (hanc.of_parent hp)]

theorem ancestorAt_trans (ha : Ancestor parent a b) (hle : h ≤ height a) :
    ancestorAt parent height b h = ancestorAt parent height a h := by
  obtain ⟨c, hc, rfl, hanc⟩ := graded.exists_ancestorAt hle
  rw [hc, graded.ancestorAt_height (hanc.trans ha)]

theorem ancestor_of_le {c : κ} (ha : Ancestor parent a c) (hb : Ancestor parent b c)
    (hle : height a ≤ height b) : Ancestor parent a b := by
  obtain ⟨a', -, hheight, hanc⟩ := graded.exists_ancestorAt hle
  rwa [graded.eq_of_height ha (hanc.trans hb) hheight.symm]

end Graded

end Ancestry
