import Mathlib.Data.List.Basic
import Mathlib.Data.List.Nodup
import Mathlib.Tactic.Cases

/-!
# Binary hash trees with a repeated last node

One level up pairs neighbours and an odd level repeats its last node, so two lists of different
lengths can have the same level above. The lists where that happens have two equal neighbours in
one pair. The pair hash is any injective function, and leaves are values that it does not take.
-/
namespace MerkleTree

variable {κ : Type*}

def levelUp (H : κ → κ → κ) : List κ → List κ
  | [] => []
  | [x] => [H x x]
  | x :: y :: rest => H x y :: levelUp H rest

/-- Some pair has two equal members. The repeated last node is not a pair of the list. -/
def twins [DecidableEq κ] : List κ → Bool
  | x :: y :: rest => decide (x = y) || twins rest
  | _ => false

inductive Under (H : κ → κ → κ) (x : κ) : κ → Prop where
  | self : Under H x x
  | left {a b : κ} (below : Under H x a) : Under H x (H a b)
  | right {a b : κ} (below : Under H x b) : Under H x (H a b)

/-- Hashed from leaves in `k` rounds on every path. -/
inductive Rank (H : κ → κ → κ) (leaf : κ → Prop) : ℕ → κ → Prop where
  | leaf {x : κ} (hx : leaf x) : Rank H leaf 0 x
  | pair {k : ℕ} {a b : κ} (ha : Rank H leaf k a) (hb : Rank H leaf k b) :
      Rank H leaf (k + 1) (H a b)

variable {H : κ → κ → κ} {leaf : κ → Prop}

theorem length_levelUp (xs : List κ) : (levelUp H xs).length = (xs.length + 1) / 2 := by
  induction xs using levelUp.induct with
  | case1 => simp [levelUp]
  | case2 x => simp [levelUp]
  | case3 x y rest ih =>
    rw [levelUp, List.length_cons, ih]
    simp only [List.length_cons]
    omega

theorem getElem?_levelUp (xs : List κ) (i : ℕ) :
    (levelUp H xs)[i]? = xs[2 * i]?.map fun x => H x (xs[2 * i + 1]?.getD x) := by
  induction xs using levelUp.induct generalizing i with
  | case1 => rfl
  | case2 x => cases i <;> rfl
  | case3 x y rest ih =>
    cases i with
    | zero => rfl
    | succ i =>
      rw [levelUp, List.getElem?_cons_succ, ih, show 2 * (i + 1) = 2 * i + 1 + 1 by omega]
      simp only [List.getElem?_cons_succ]

variable {xs : List κ} {z : κ}

theorem mem_levelUp (hz : z ∈ levelUp H xs) :
    ∃ a ∈ xs, ∃ b ∈ xs, z = H a b := by
  induction xs using levelUp.induct with
  | case1 => cases hz
  | case2 x =>
    rw [levelUp, List.mem_singleton] at hz
    exact ⟨x, List.mem_singleton_self x, x, List.mem_singleton_self x, hz⟩
  | case3 x y rest ih =>
    rw [levelUp, List.mem_cons] at hz
    rcases hz with rfl | hz
    · exact ⟨x, List.mem_cons_self, y, List.mem_cons_of_mem x List.mem_cons_self, rfl⟩
    · obtain ⟨a, ha, b, hb, hab⟩ := ih hz
      exact ⟨a, List.mem_cons_of_mem x (List.mem_cons_of_mem y ha), b,
        List.mem_cons_of_mem x (List.mem_cons_of_mem y hb), hab⟩

variable {k : ℕ}

theorem rank_levelUp (h : ∀ x ∈ xs, Rank H leaf k x) :
    ∀ z ∈ levelUp H xs, Rank H leaf (k + 1) z := by
  intro z hz
  obtain ⟨a, ha, b, hb, rfl⟩ := mem_levelUp hz
  exact .pair (h a ha) (h b hb)

theorem twins_of_nodup [DecidableEq κ] (h : xs.Nodup) : twins xs = false := by
  induction xs using twins.induct with
  | case1 x y rest ih =>
    rw [List.nodup_cons, List.nodup_cons] at h
    rw [twins, Bool.or_eq_false_iff]
    refine ⟨decide_eq_false ?_, ih h.2.2⟩
    rintro rfl
    exact h.1 List.mem_cons_self
  | case2 xs hxs => rw [twins]; exact hxs

section

variable (inj : ∀ a b a' b', H a b = H a' b' → a = a' ∧ b = b')

include inj

theorem nodup_levelUp (h : xs.Nodup) : (levelUp H xs).Nodup := by
  induction xs using levelUp.induct with
  | case1 => exact List.nodup_nil
  | case2 x => exact List.nodup_singleton _
  | case3 x y rest ih =>
    rw [List.nodup_cons, List.nodup_cons] at h
    rw [levelUp, List.nodup_cons]
    refine ⟨?_, ih h.2.2⟩
    intro hmem
    obtain ⟨a, ha, b, -, hab⟩ := mem_levelUp hmem
    rw [(inj _ _ _ _ hab).1] at h
    exact h.1 (List.mem_cons_of_mem y ha)

theorem levelUp_inj [DecidableEq κ] {ys : List κ} (hx : twins xs = false) (hy : twins ys = false)
    (h : levelUp H xs = levelUp H ys) : xs = ys := by
  induction xs using levelUp.induct generalizing ys with
  | case1 =>
    match ys with
    | [] => rfl
    | [y] => cases h
    | y :: z :: rest => cases h
  | case2 x =>
    match ys with
    | [] => cases h
    | [y] =>
      rw [levelUp, levelUp, List.cons.injEq] at h
      rw [(inj _ _ _ _ h.1).1]
    | y :: z :: rest =>
      rw [levelUp, levelUp, List.cons.injEq] at h
      obtain ⟨rfl, rfl⟩ := inj _ _ _ _ h.1
      rw [twins, Bool.or_eq_false_iff] at hy
      exact absurd rfl (of_decide_eq_false hy.1)
  | case3 x x' rest ih =>
    match ys with
    | [] => cases h
    | [y] =>
      rw [levelUp, levelUp, List.cons.injEq] at h
      obtain ⟨rfl, rfl⟩ := inj _ _ _ _ h.1
      rw [twins, Bool.or_eq_false_iff] at hx
      exact absurd rfl (of_decide_eq_false hx.1)
    | y :: y' :: rest' =>
      rw [levelUp, levelUp, List.cons.injEq] at h
      obtain ⟨rfl, rfl⟩ := inj _ _ _ _ h.1
      rw [twins, Bool.or_eq_false_iff] at hx hy
      rw [ih hx.2 hy.2 h.2]

variable (hleaf : ∀ a b, ¬ leaf (H a b))

include hleaf

variable {x : κ}

theorem Rank.unique {j : ℕ} (hj : Rank H leaf j x) (hk : Rank H leaf k x) : j = k := by
  induction hj generalizing k with
  | leaf hx =>
    cases hk with
    | leaf _ => rfl
    | pair _ _ => exact absurd hx (hleaf _ _)
  | @pair j a b ha hb iha ihb =>
    generalize hz : H a b = z at hk
    cases hk with
    | leaf hx => exact absurd (hz ▸ hx) (hleaf _ _)
    | pair ha' hb' =>
      obtain ⟨rfl, rfl⟩ := inj _ _ _ _ hz
      rw [iha ha']

omit inj in
theorem Under.leaf_eq (h : Under H x z) (hz : leaf z) : x = z := by
  cases h with
  | self => rfl
  | left _ => exact absurd hz (hleaf _ _)
  | right _ => exact absurd hz (hleaf _ _)

theorem Under.of_levelUp (hx : leaf x) (hz : z ∈ levelUp H xs) (h : Under H x z) : ∃ y ∈ xs, Under H x y := by
  obtain ⟨a, ha, b, hb, rfl⟩ := mem_levelUp hz
  generalize hab : H a b = z at h
  cases h with
  | self => exact absurd (hab ▸ hx) (hleaf _ _)
  | left below =>
    obtain ⟨rfl, rfl⟩ := inj _ _ _ _ hab
    exact ⟨a, ha, below⟩
  | right below =>
    obtain ⟨rfl, rfl⟩ := inj _ _ _ _ hab
    exact ⟨b, hb, below⟩

end

end MerkleTree
