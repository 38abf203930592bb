import Mathlib.Data.List.Induction
import Mathlib.Data.List.Nodup

/-!
# Association lists of groups

A map from keys to vectors, filled by appending one value at a time.
-/
namespace MultiMap

variable {κ α : Type*} [DecidableEq κ]

def push (k : κ) (v : α) : List (κ × List α) → List (κ × List α)
  | [] => [(k, [v])]
  | (k', vs) :: rest => if k' = k then (k', vs ++ [v]) :: rest else (k', vs) :: push k v rest

def Mem (m : List (κ × List α)) (k : κ) (v : α) : Prop := ∃ vs, (k, vs) ∈ m ∧ v ∈ vs

omit [DecidableEq κ] in
@[simp] theorem not_mem_nil (k : κ) (v : α) : ¬ Mem [] k v := by
  rintro ⟨vs, hvs, -⟩
  exact List.not_mem_nil hvs

omit [DecidableEq κ] in
theorem mem_cons (k' : κ) (ws : List α) (m : List (κ × List α)) (k : κ) (v : α) :
    Mem ((k', ws) :: m) k v ↔ (k = k' ∧ v ∈ ws) ∨ Mem m k v := by
  constructor
  · rintro ⟨vs, hvs, hv⟩
    rcases List.mem_cons.mp hvs with heq | hrest
    · obtain ⟨rfl, rfl⟩ := Prod.mk.inj heq
      exact Or.inl ⟨rfl, hv⟩
    · exact Or.inr ⟨vs, hrest, hv⟩
  · rintro (⟨rfl, hv⟩ | ⟨vs, hvs, hv⟩)
    · exact ⟨ws, List.mem_cons_self, hv⟩
    · exact ⟨vs, List.mem_cons_of_mem _ hvs, hv⟩

theorem mem_push (k : κ) (v : α) (m : List (κ × List α)) (k' : κ) (v' : α) :
    Mem (push k v m) k' v' ↔ Mem m k' v' ∨ (k' = k ∧ v' = v) := by
  induction m with
  | nil => simp [push, mem_cons]
  | cons p rest ih =>
    obtain ⟨key, vs⟩ := p
    rw [push]
    split_ifs with hkey
    · subst hkey
      rw [mem_cons, mem_cons, List.mem_append, List.mem_singleton]
      tauto
    · rw [mem_cons, mem_cons, ih]
      tauto

theorem keys_push_subset (k : κ) (v : α) (m : List (κ × List α)) (k' : κ) :
    k' ∈ (push k v m).map Prod.fst ↔ k' ∈ m.map Prod.fst ∨ k' = k := by
  induction m with
  | nil => simp [push]
  | cons p rest ih =>
    obtain ⟨key, vs⟩ := p
    rw [push]
    split_ifs with hkey
    · subst hkey
      simp only [List.map_cons, List.mem_cons]
      tauto
    · simp only [List.map_cons, List.mem_cons, ih]
      tauto

variable {m : List (κ × List α)} {k : κ} {v : α}

theorem nodup_keys_push (h : (m.map Prod.fst).Nodup) : ((push k v m).map Prod.fst).Nodup := by
  induction m with
  | nil => exact List.nodup_singleton k
  | cons p rest ih =>
    obtain ⟨key, vs⟩ := p
    rw [List.map_cons, List.nodup_cons] at h
    rw [push]
    split_ifs with hkey
    · exact List.nodup_cons.mpr h
    · refine List.nodup_cons.mpr ⟨?_, ih h.2⟩
      rw [keys_push_subset]
      rintro (hmem | heq)
      · exact h.1 hmem
      · exact hkey heq

variable {vs : List α}

theorem mem_push_group (h : (m.map Prod.fst).Nodup) {k' : κ} : (k', vs) ∈ push k v m ↔
      k' ≠ k ∧ (k', vs) ∈ m ∨
        k' = k ∧ ((∃ ws, (k, ws) ∈ m ∧ vs = ws ++ [v]) ∨ k ∉ m.map Prod.fst ∧ vs = [v]) := by
  induction m with
  | nil => simp [push]
  | cons p rest ih =>
    obtain ⟨key, ws⟩ := p
    rw [List.map_cons, List.nodup_cons] at h
    rw [push]
    split_ifs with hkey
    · subst hkey
      have hfresh : ∀ us, (key, us) ∉ rest := fun us hus =>
        h.1 (List.mem_map.mpr ⟨(key, us), hus, rfl⟩)
      simp only [List.mem_cons, Prod.mk.injEq, List.map_cons, true_and]
      constructor
      · rintro (⟨rfl, rfl⟩ | hrest)
        · exact Or.inr ⟨rfl, Or.inl ⟨ws, Or.inl rfl, rfl⟩⟩
        · exact Or.inl ⟨fun heq => hfresh vs (heq ▸ hrest), Or.inr hrest⟩
      · rintro (⟨hne, ⟨heq, -⟩ | hrest⟩ | ⟨rfl, ⟨us, rfl | hus, rfl⟩ | ⟨hnot, -⟩⟩)
        · exact absurd heq hne
        · exact Or.inr hrest
        · exact Or.inl ⟨rfl, rfl⟩
        · exact absurd hus (hfresh us)
        · exact absurd (Or.inl trivial) hnot
    · simp only [List.mem_cons, Prod.mk.injEq, List.map_cons, ih h.2, Ne.symm hkey, false_and,
        false_or]
      constructor
      · rintro (⟨rfl, rfl⟩ | ⟨hne, hrest⟩ | hk)
        · exact Or.inl ⟨hkey, Or.inl ⟨rfl, rfl⟩⟩
        · exact Or.inl ⟨hne, Or.inr hrest⟩
        · exact Or.inr hk
      · rintro (⟨hne, heq | hrest⟩ | hk)
        · exact Or.inl heq
        · exact Or.inr (Or.inl ⟨hne, hrest⟩)
        · exact Or.inr (Or.inr hk)

theorem groups_push_ne_nil (h : ∀ p ∈ m, p.2 ≠ []) : ∀ p ∈ push k v m, p.2 ≠ [] := by
  induction m with
  | nil => simp [push]
  | cons p rest ih =>
    obtain ⟨key, vs⟩ := p
    have hrest := ih fun q hq => h q (List.mem_cons_of_mem _ hq)
    intro q hq
    rw [push] at hq
    split_ifs at hq with hkey
    · rcases List.mem_cons.mp hq with rfl | hq
      · exact List.append_ne_nil_of_right_ne_nil _ (List.cons_ne_nil v [])
      · exact h q (List.mem_cons_of_mem _ hq)
    · rcases List.mem_cons.mp hq with rfl | hq
      · exact h _ List.mem_cons_self
      · exact hrest q hq

theorem values_push_perm (k : κ) (v : α) (m : List (κ × List α)) :
    ((push k v m).flatMap Prod.snd).Perm (v :: m.flatMap Prod.snd) := by
  induction m with
  | nil => exact List.Perm.refl _
  | cons p rest ih =>
    obtain ⟨key, vs⟩ := p
    rw [push]
    split_ifs with hkey
    · simp only [List.flatMap_cons, List.append_assoc, List.singleton_append]
      exact List.perm_middle
    · simp only [List.flatMap_cons]
      exact (List.Perm.append_left vs ih).trans List.perm_middle

def groupBy (f : α → κ) (l : List α) : List (κ × List α) :=
  l.foldl (fun m a => push (f a) a m) []

theorem values_foldl_push_perm (f : α → κ) (l : List α) (m : List (κ × List α)) :
    ((l.foldl (fun m a => push (f a) a m) m).flatMap Prod.snd).Perm
      (l ++ m.flatMap Prod.snd) := by
  induction l generalizing m with
  | nil => exact List.Perm.refl _
  | cons a l ih =>
    refine (ih (push (f a) a m)).trans ?_
    exact (List.Perm.append_left l (values_push_perm (f a) a m)).trans List.perm_middle

theorem values_groupBy_perm (f : α → κ) (l : List α) :
    ((groupBy f l).flatMap Prod.snd).Perm l := by
  have h := values_foldl_push_perm f l []
  rwa [List.flatMap_nil, List.append_nil] at h

theorem foldl_push_ne_nil (f : α → κ) (l : List α) (h : ∀ p ∈ m, p.2 ≠ []) : ∀ p ∈ l.foldl (fun m a => push (f a) a m) m, p.2 ≠ [] := by
  induction l generalizing m with
  | nil => exact h
  | cons a l ih => exact ih (groups_push_ne_nil h)

theorem groupBy_ne_nil (f : α → κ) (l : List α) : ∀ p ∈ groupBy f l, p.2 ≠ [] :=
  foldl_push_ne_nil f l fun _ hp => absurd hp List.not_mem_nil

theorem groupBy_append (f : α → κ) (l : List α) (a : α) :
    groupBy f (l ++ [a]) = push (f a) a (groupBy f l) := by
  rw [groupBy, List.foldl_append]
  rfl

theorem nodup_keys_groupBy (f : α → κ) (l : List α) : ((groupBy f l).map Prod.fst).Nodup := by
  induction l using List.reverseRecOn with
  | nil => exact List.nodup_nil
  | append_singleton l a ih =>
    rw [groupBy_append]
    exact nodup_keys_push ih

theorem mem_groupBy {f : α → κ} {l : List α} :
    (k, vs) ∈ groupBy f l ↔ vs ≠ [] ∧ vs = l.filter fun a => decide (f a = k) := by
  induction l using List.reverseRecOn generalizing k vs with
  | nil => simp [groupBy]
  | append_singleton l a ih =>
    rw [groupBy_append, mem_push_group (nodup_keys_groupBy f l), List.filter_append]
    by_cases hk : k = f a
    · subst hk
      have hkeys : f a ∉ (groupBy f l).map Prod.fst ↔
          (l.filter fun b => decide (f b = f a)) = [] := by
        rw [List.mem_map, not_iff_comm]
        constructor
        · intro hne
          exact ⟨(f a, _), ih.mpr ⟨hne, rfl⟩, rfl⟩
        · rintro ⟨⟨k, ws⟩, hws, rfl⟩
          exact (ih.mp hws).2 ▸ (ih.mp hws).1
      simp only [ne_eq, not_true_eq_false, false_and, false_or, true_and, ih, hkeys,
        List.filter_singleton, decide_true, cond_true]
      constructor
      · rintro (⟨ws, ⟨-, rfl⟩, rfl⟩ | ⟨hnil, rfl⟩)
        · exact ⟨by simp, rfl⟩
        · exact ⟨by simp, by rw [hnil, List.nil_append]⟩
      · rintro ⟨-, rfl⟩
        by_cases hnil : (l.filter fun b => decide (f b = f a)) = []
        · exact Or.inr ⟨hnil, by rw [hnil, List.nil_append]⟩
        · exact Or.inl ⟨_, ⟨hnil, rfl⟩, rfl⟩
    · simp [hk, Ne.symm hk, ih]

omit [DecidableEq κ] in
theorem group_length_le {p : κ × List α} (h : p ∈ m) :
    p.2.length ≤ (m.flatMap Prod.snd).length :=
  (List.sublist_flatten_of_mem (List.mem_map_of_mem h)).length_le

end MultiMap
