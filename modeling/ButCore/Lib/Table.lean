import Mathlib.Data.List.Nodup
import Mathlib.Logic.Function.Basic

/-!
# Tables as partial functions

Writing a list of entries at their keys, and erasing the keys of a list.
-/
namespace Table

variable {ι κ ν : Type*} [DecidableEq κ]

def putAll (key : ι → κ) (value : ι → ν) (xs : List ι) (table : κ → Option ν) : κ → Option ν :=
  xs.foldl (fun table x => Function.update table (key x) (some (value x))) table

def eraseAll (key : ι → κ) (xs : List ι) (table : κ → Option ν) : κ → Option ν :=
  xs.foldl (fun table x => Function.update table (key x) none) table

def writeAll (key : ι → κ) (value : ι → Option ν) (xs : List ι) (table : κ → Option ν) :
    κ → Option ν :=
  xs.foldl (fun table x => Function.update table (key x) (value x)) table

variable {key : ι → κ} {value : ι → ν} {xs : List ι} {table : κ → Option ν} {k : κ} {v : ν}

theorem putAll_cons {x : ι} : putAll key value (x :: xs) table =
    putAll key value xs (Function.update table (key x) (some (value x))) := rfl

theorem eraseAll_cons {x : ι} :
    eraseAll key (x :: xs) table = eraseAll key xs (Function.update table (key x) none) := rfl

variable (key) in
theorem eraseAll_map : eraseAll id (xs.map key) table = eraseAll key xs table := List.foldl_map

theorem update_some_eq_some {k' : κ} {v' : ν} (fresh : table k' = none) :
    Function.update table k' (some v') k = some v ↔ k' = k ∧ v' = v ∨ table k = some v := by
  by_cases hk : k = k'
  · subst hk
    simp [fresh]
  · simp [Function.update_of_ne hk, Ne.symm hk]

theorem update_some_forall {P : κ → ν → Prop} {k' : κ} {v' : ν}
    (elsewhere : ∀ k v, table k = some v → P k v) (here : P k' v')
    (h : Function.update table k' (some v') k = some v) : P k v := by
  by_cases hk : k = k'
  · subst hk
    rw [Function.update_self, Option.some.injEq] at h
    exact h ▸ here
  · rw [Function.update_of_ne hk] at h
    exact elsewhere k v h

theorem update_none_eq_some {k' : κ} :
    Function.update table k' none k = some v ↔ table k = some v ∧ k' ≠ k := by
  by_cases hk : k = k'
  · subst hk
    simp
  · simp [Function.update_of_ne hk, Ne.symm hk]

theorem writeAll_cons {x : ι} {value : ι → Option ν} : writeAll key value (x :: xs) table =
    writeAll key value xs (Function.update table (key x) (value x)) := rfl

theorem writeAll_of_notMem {value : ι → Option ν} (absent : k ∉ xs.map key) :
    writeAll key value xs table k = table k := by
  induction xs generalizing table with
  | nil => rfl
  | cons x xs ih =>
    rw [List.map_cons, List.mem_cons, not_or] at absent
    rw [writeAll_cons, ih absent.2, Function.update_of_ne absent.1]

theorem putAll_update_of_notMem {o : Option ν} (absent : k ∉ xs.map key) :
    putAll key value xs (Function.update table k o) =
      Function.update (putAll key value xs table) k o := by
  induction xs generalizing table with
  | nil => rfl
  | cons x xs ih =>
    rw [List.map_cons, List.mem_cons, not_or] at absent
    rw [putAll_cons, Function.update_comm absent.1, ih absent.2, putAll_cons]

theorem putAll_of_notMem (absent : k ∉ xs.map key) : putAll key value xs table k = table k :=
  writeAll_of_notMem absent

theorem putAll_eq_some (fresh : ∀ x ∈ xs, table (key x) = none) (distinct : (xs.map key).Nodup) :
    putAll key value xs table k = some v ↔
      (∃ x ∈ xs, key x = k ∧ value x = v) ∨ table k = some v := by
  induction xs generalizing table with
  | nil => simp [putAll]
  | cons x xs ih =>
    rw [List.map_cons, List.nodup_cons] at distinct
    have fresh' : ∀ y ∈ xs, Function.update table (key x) (some (value x)) (key y) = none := by
      intro y hy
      have hne : key y ≠ key x := fun heq => distinct.1 (heq ▸ List.mem_map_of_mem hy)
      rw [Function.update_of_ne hne]
      exact fresh y (List.mem_cons_of_mem _ hy)
    rw [putAll_cons, ih fresh' distinct.2, update_some_eq_some (fresh x List.mem_cons_self)]
    simp only [List.mem_cons, exists_eq_or_imp]
    exact or_left_comm.trans or_assoc.symm

theorem eraseAll_eq_some :
    eraseAll key xs table k = some v ↔ table k = some v ∧ ∀ x ∈ xs, key x ≠ k := by
  induction xs generalizing table with
  | nil => simp [eraseAll]
  | cons x xs ih =>
    rw [eraseAll_cons, ih, update_none_eq_some, and_assoc, List.forall_mem_cons]

theorem eraseAll_of_notMem (absent : k ∉ xs.map key) : eraseAll key xs table k = table k :=
  writeAll_of_notMem absent

section

variable {value : ι → Option ν} {k : κ}

theorem writeAll_append {ys : List ι} :
    writeAll key value (xs ++ ys) table = writeAll key value ys (writeAll key value xs table) :=
  List.foldl_append

theorem writeAll_map {ι' : Type*} {f : ι' → ι} {ys : List ι'} :
    writeAll key value (ys.map f) table =
      writeAll (fun y => key (f y)) (fun y => value (f y)) ys table :=
  List.foldl_map

theorem writeAll_some_ne_none {some_ : ι → ν} (present : k ∈ xs.map key) :
    writeAll key (fun x => some (some_ x)) xs table k ≠ none := by
  induction xs generalizing table with
  | nil => cases present
  | cons x xs ih =>
    rw [writeAll_cons]
    by_cases later : k ∈ xs.map key
    · exact ih later
    · obtain rfl : k = key x := by simpa [later] using present
      rw [writeAll_of_notMem later]
      simp

omit [DecidableEq κ] in
theorem exists_first (present : k ∈ xs.map key) :
    ∃ pre x post, xs = pre ++ x :: post ∧ key x = k ∧ k ∉ pre.map key := by
  obtain ⟨before, after, split, absent⟩ := List.eq_append_cons_of_mem present
  obtain ⟨pre, rest, rfl, rfl, tail⟩ := List.map_eq_append_iff.mp split
  obtain ⟨x, post, rfl, rfl, rfl⟩ := List.map_eq_cons_iff.mp tail
  exact ⟨pre, x, post, rfl, rfl, absent⟩

/-- Writing the same keys backwards undoes a list of writes, if the first entry at each key brings
back what was there. -/
theorem writeAll_undo {undo : ι → Option ν}
    (first : ∀ pre x post, xs = pre ++ x :: post → key x ∉ pre.map key → undo x = table (key x)) :
    writeAll key undo xs.reverse (writeAll key value xs table) = table := by
  funext k
  by_cases present : k ∈ xs.map key
  · obtain ⟨pre, x, post, rfl, rfl, absent⟩ := exists_first present
    have untouched : key x ∉ pre.reverse.map key := by
      rwa [List.map_reverse, List.mem_reverse]
    rw [List.reverse_append, List.reverse_cons, writeAll_append, writeAll_of_notMem untouched,
      writeAll_append, writeAll_cons]
    refine (Function.update_self ..).trans ?_
    exact first pre x post rfl absent
  · have untouched : k ∉ xs.reverse.map key := by
      rwa [List.map_reverse, List.mem_reverse]
    rw [writeAll_of_notMem untouched, writeAll_of_notMem present]

end

end Table
