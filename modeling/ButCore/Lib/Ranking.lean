import Mathlib.Data.List.Sort
import Mathlib.Order.Lattice

/-!
# Rankings

A list is ranked by a key and its first elements are taken.
-/
namespace Ranking

variable {α κ : Type*} [LinearOrder κ] {key : α → κ} {r : α → α → Prop} [DecidableRel r]
variable {l : List α} {a : α}

theorem pairwise_sort (hr : ∀ a b, r a b ↔ key a ≤ key b) (l : List α) :
    (l.insertionSort r).Pairwise r := by
  have : Std.Total r := ⟨fun a b => by rw [hr, hr]; exact le_total _ _⟩
  have : IsTrans α r := ⟨fun a b c hab hbc => (hr a c).mpr (((hr a b).mp hab).trans ((hr b c).mp hbc))⟩
  exact List.pairwise_insertionSort r l

theorem sort_eq_of_perm (hr : ∀ a b, r a b ↔ key a ≤ key b) (inj : Function.Injective key)
    {l₁ l₂ : List α} (perm : l₁.Perm l₂) : l₁.insertionSort r = l₂.insertionSort r := by
  have : Std.Antisymm r :=
    ⟨fun a b hab hba => inj (le_antisymm ((hr a b).mp hab) ((hr b a).mp hba))⟩
  refine List.Perm.eq_of_pairwise' (pairwise_sort hr l₁) (pairwise_sort hr l₂) ?_
  exact (List.perm_insertionSort r l₁).trans (perm.trans (List.perm_insertionSort r l₂).symm)

theorem orderedInsert_of_first (h : ∀ b ∈ l, r a b) :
    l.orderedInsert r a = a :: l := by
  cases l with
  | nil => rfl
  | cons b l => exact List.orderedInsert_cons_of_le r l (h b List.mem_cons_self)

theorem filter_orderedInsert (hr : ∀ a b, r a b ↔ key a ≤ key b) (p : α → Bool) (a : α) (l : List α)
    (hl : l.Pairwise r) :
    (l.orderedInsert r a).filter p =
      if p a then (l.filter p).orderedInsert r a else l.filter p := by
  induction l with
  | nil => by_cases ha : p a <;> simp [ha]
  | cons b l ih =>
    rw [List.pairwise_cons] at hl
    by_cases hab : r a b
    · rw [List.orderedInsert_cons_of_le r l hab]
      by_cases ha : p a
      · rw [if_pos ha, List.filter_cons_of_pos ha, orderedInsert_of_first]
        intro c hc
        rcases List.mem_cons.mp (List.mem_of_mem_filter hc) with rfl | hc
        · exact hab
        · exact (hr a c).mpr (((hr a b).mp hab).trans ((hr b c).mp (hl.1 c hc)))
      · rw [if_neg ha, List.filter_cons_of_neg ha]
    · rw [List.orderedInsert_of_not_le r l hab]
      by_cases hb : p b
      · rw [List.filter_cons_of_pos hb, List.filter_cons_of_pos hb, ih hl.2,
          List.orderedInsert_of_not_le r _ hab]
        split <;> rfl
      · rw [List.filter_cons_of_neg hb, List.filter_cons_of_neg hb, ih hl.2]

theorem filter_sort (hr : ∀ a b, r a b ↔ key a ≤ key b) (p : α → Bool) (l : List α) :
    (l.filter p).insertionSort r = (l.insertionSort r).filter p := by
  induction l with
  | nil => rfl
  | cons a l ih =>
    rw [List.insertionSort_cons, filter_orderedInsert hr p a _ (pairwise_sort hr l), ← ih]
    by_cases ha : p a <;> simp [ha]

variable {l' : List α}

section

variable {p q : α → Bool}

def commonAbove (key : α → κ) (p q : α → Bool) (l : List α) (c : α) : ℕ :=
  l.countP fun d => p d && q d && decide (key d < key c)

theorem commonAbove_perm (h : l.Perm l') (c : α) :
    commonAbove key p q l c = commonAbove key p q l' c :=
  h.countP_eq _

theorem commonAbove_cons (a c : α) (l : List α) :
    commonAbove key p q (a :: l) c =
      commonAbove key p q l c + if p a && q a && decide (key a < key c) then 1 else 0 :=
  List.countP_cons

theorem commonAbove_eq_zero {c : α} (h : ∀ d ∈ l, key c ≤ key d) :
    commonAbove key p q l c = 0 := by
  rw [commonAbove, List.countP_eq_zero]
  intro d hd
  simp [not_lt.mpr (h d hd)]

theorem take_filter_eq_iff_of_sorted (hl : l.Pairwise (key · < key ·)) (k : ℕ) :
    (l.filter p).take k = (l.filter q).take k ↔
      ∀ c ∈ l, p c ≠ q c → k ≤ commonAbove key p q l c := by
  induction l generalizing k with
  | nil => simp
  | cons a l ih =>
    rw [List.pairwise_cons] at hl
    cases k with
    | zero => simp
    | succ k =>
      have hself : commonAbove key p q (a :: l) a = 0 := by
        apply commonAbove_eq_zero
        intro d hd
        rcases List.mem_cons.mp hd with rfl | hd
        · exact le_rfl
        · exact (hl.1 d hd).le
      have hbelow : ∀ c ∈ l, commonAbove key p q (a :: l) c =
          commonAbove key p q l c + if p a && q a then 1 else 0 := by
        intro c hc
        rw [commonAbove_cons]
        simp [hl.1 c hc]
      have hnot : a ∉ l := fun ha => lt_irrefl _ (hl.1 a ha)
      rw [List.forall_mem_cons, hself]
      by_cases hpa : p a <;> by_cases hqa : q a
      · rw [List.filter_cons_of_pos hpa, List.filter_cons_of_pos hqa, List.take_succ_cons,
          List.take_succ_cons, List.cons.injEq, ih hl.2 k]
        simp +contextual [hpa, hqa, hbelow]
      · -- an element that only one side has comes first there and is missing on the other
        rw [List.filter_cons_of_pos hpa, List.filter_cons_of_neg hqa, List.take_succ_cons]
        refine iff_of_false ?_ (by simp [hpa, hqa])
        intro e
        exact hnot (List.mem_of_mem_filter (List.mem_of_mem_take (e ▸ List.mem_cons_self)))
      · rw [List.filter_cons_of_neg hpa, List.filter_cons_of_pos hqa, List.take_succ_cons]
        refine iff_of_false ?_ (by simp [hpa, hqa])
        intro e
        exact hnot (List.mem_of_mem_filter (List.mem_of_mem_take (e ▸ List.mem_cons_self)))
      · rw [List.filter_cons_of_neg hpa, List.filter_cons_of_neg hqa, ih hl.2 (k + 1)]
        simp +contextual [hpa, hqa, hbelow]

theorem pairwise_lt_sort (hr : ∀ a b, r a b ↔ key a ≤ key b) (distinct : l.Pairwise (key · ≠ key ·)) : (l.insertionSort r).Pairwise (key · < key ·) := by
  have hne : (l.insertionSort r).Pairwise (key · ≠ key ·) :=
    (List.perm_insertionSort r l).symm.pairwise distinct Ne.symm
  exact (pairwise_sort hr l).imp₂ (fun a b hab hne => lt_of_le_of_ne ((hr a b).mp hab) hne) hne

theorem sort_eq_of_mem_iff (hr : ∀ a b, r a b ↔ key a ≤ key b)
    (distinct : l.Pairwise (key · ≠ key ·)) (sorted : l'.Pairwise (key · < key ·))
    (mem : ∀ a, a ∈ l ↔ a ∈ l') : l.insertionSort r = l' := by
  have hsort := pairwise_lt_sort hr distinct
  have nodup : ∀ {m : List α}, m.Pairwise (key · < key ·) → m.Nodup :=
    fun h => h.imp fun hlt e => hlt.ne (congrArg key e)
  refine List.Perm.eq_of_pairwise (fun a b _ _ hab hba => absurd hab hba.asymm) hsort sorted ?_
  rw [List.perm_ext_iff_of_nodup (nodup hsort) (nodup sorted)]
  exact fun a => (List.mem_insertionSort r).trans (mem a)

theorem take_sort_filter_eq_iff (hr : ∀ a b, r a b ↔ key a ≤ key b)
    (distinct : l.Pairwise (key · ≠ key ·)) (k : ℕ) :
    ((l.filter p).insertionSort r).take k = ((l.filter q).insertionSort r).take k ↔
      ∀ c ∈ l, p c ≠ q c → k ≤ commonAbove key p q l c := by
  rw [filter_sort hr, filter_sort hr, take_filter_eq_iff_of_sorted (pairwise_lt_sort hr distinct)]
  simp only [List.mem_insertionSort, commonAbove_perm (List.perm_insertionSort r l)]

end

section

variable {lt : α → α → Bool}

def keepFirst (lt : α → α → Bool) (best : Option α) (a : α) : Option α :=
  match best with
  | none => some a
  | some b => if lt a b then some a else best

theorem mem_of_foldl_keepFirst {best : Option α} (h : l.foldl (keepFirst lt) best = some a) : best = some a ∨ a ∈ l := by
  induction l generalizing best with
  | nil => exact Or.inl h
  | cons b l ih =>
    rcases ih h with hb | hl
    · have kept : keepFirst lt best b = best ∨ keepFirst lt best b = some b := by
        unfold keepFirst
        split
        · exact Or.inr rfl
        · split
          · exact Or.inr rfl
          · exact Or.inl rfl
      rcases kept with kept | kept
      · exact Or.inl (kept ▸ hb)
      · rw [kept, Option.some.injEq] at hb
        exact Or.inr (hb ▸ List.mem_cons_self)
    · exact Or.inr (List.mem_cons_of_mem b hl)

theorem foldl_keepFirst_some (hlt : ∀ a b, lt a b = true ↔ key a < key b) (l : List α) (b : α) :
    ∃ m ∈ b :: l, l.foldl (keepFirst lt) (some b) = some m ∧ ∀ a ∈ b :: l, key m ≤ key a := by
  induction l generalizing b with
  | nil => exact ⟨b, by simp⟩
  | cons a l ih =>
    rw [List.foldl_cons]
    by_cases hab : lt a b = true
    · obtain ⟨m, hm, hfold, hle⟩ := ih a
      refine ⟨m, List.mem_cons_of_mem b hm, by simpa [keepFirst, hab] using hfold, ?_⟩
      rw [List.forall_mem_cons]
      exact ⟨(hle a List.mem_cons_self).trans ((hlt a b).mp hab).le, hle⟩
    · obtain ⟨m, hm, hfold, hle⟩ := ih b
      have hba : key b ≤ key a := not_lt.mp fun h => hab ((hlt a b).mpr h)
      rw [List.forall_mem_cons] at hle
      refine ⟨m, ?_, by simpa [keepFirst, hab] using hfold, ?_⟩
      · rcases List.mem_cons.mp hm with rfl | hm
        · exact List.mem_cons_self
        · exact List.mem_cons_of_mem _ (List.mem_cons_of_mem _ hm)
      · rw [List.forall_mem_cons, List.forall_mem_cons]
        exact ⟨hle.1, hle.1.trans hba, hle.2⟩

theorem foldl_keepFirst_eq_head? (hlt : ∀ a b, lt a b = true ↔ key a < key b)
    (hr : ∀ a b, r a b ↔ key a ≤ key b) (distinct : l.Pairwise (key · ≠ key ·)) :
    l.foldl (keepFirst lt) none = (l.insertionSort r).head? := by
  cases l with
  | nil => rfl
  | cons b l =>
    obtain ⟨m, hm, hfold, hle⟩ := foldl_keepFirst_some hlt l b
    rw [List.foldl_cons, show keepFirst lt none b = some b from rfl, hfold]
    cases hsort : (b :: l).insertionSort r with
    | nil =>
      have hmem := (List.mem_insertionSort r).mpr hm
      rw [hsort] at hmem
      cases hmem
    | cons h t =>
      have hsorted := pairwise_lt_sort hr distinct
      have hmem := (List.mem_insertionSort r).mpr hm
      have hhead : h ∈ b :: l := (List.mem_insertionSort r).mp (hsort ▸ List.mem_cons_self)
      rw [hsort] at hmem hsorted
      rcases List.mem_cons.mp hmem with rfl | hm'
      · rfl
      · exact absurd ((List.pairwise_cons.mp hsorted).1 m hm') (not_lt.mpr (hle h hhead))

theorem head?_eq_iff_take_one : l.head? = l'.head? ↔ l.take 1 = l'.take 1 := by
  cases l <;> cases l' <;> simp

theorem foldl_keepFirst_filter_eq_iff (hlt : ∀ a b, lt a b = true ↔ key a < key b)
    (distinct : l.Pairwise (key · ≠ key ·)) {p q : α → Bool} :
    (l.filter p).foldl (keepFirst lt) none = (l.filter q).foldl (keepFirst lt) none ↔
      ∀ c ∈ l, p c ≠ q c → ∃ d ∈ l, p d ∧ q d ∧ lt d c := by
  have hr : ∀ a b : α, (fun a b => key a ≤ key b) a b ↔ key a ≤ key b := fun _ _ => Iff.rfl
  rw [foldl_keepFirst_eq_head? hlt hr (distinct.filter p),
    foldl_keepFirst_eq_head? hlt hr (distinct.filter q), head?_eq_iff_take_one,
    take_sort_filter_eq_iff hr distinct]
  simp only [commonAbove, Nat.one_le_iff_ne_zero, ne_eq, List.countP_eq_zero, Bool.and_eq_true,
    decide_eq_true_eq, hlt, not_forall, not_not, exists_prop, and_assoc]

end

end Ranking
