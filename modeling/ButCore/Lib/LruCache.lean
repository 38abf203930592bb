import ButCore.Lib.Keyed

/-!
# A cache that drops the entries used least recently

Entries carry the time of their last access.
-/

open Std (ExtTreeMap)

structure LruCache (κ ν : Type) [Ord κ] where
  cacheMap : ExtTreeMap κ (ν × ℕ)
  accessCounter : ℕ

namespace LruCache

variable {κ ν : Type} [Ord κ] [Std.TransOrd κ]

def empty : LruCache κ ν := ⟨∅, 0⟩

def find (c : LruCache κ ν) (k : κ) : Option ν := c.cacheMap[k]?.map Prod.fst

def get (c : LruCache κ ν) (k : κ) : Option ν × LruCache κ ν :=
  match c.cacheMap[k]? with
  | none => (none, c)
  | some (v, _) => (some v, ⟨c.cacheMap.insert k (v, c.accessCounter), c.accessCounter + 1⟩)

/-- Access times are distinct, so the entries that stay are those with fewer than `maxSize` later
ones. -/
def truncateIfNeeded (maxSize : ℕ) (c : LruCache κ ν) : LruCache κ ν :=
  if c.cacheMap.size ≤ 2 * maxSize then c
  else
    { c with cacheMap := c.cacheMap.filter fun _ entry =>
        decide (c.cacheMap.toList.countP (fun p => decide (entry.2 < p.2.2)) < maxSize) }

def insert (maxSize : ℕ) (c : LruCache κ ν) (k : κ) (v : ν) : LruCache κ ν :=
  let c := c.truncateIfNeeded maxSize
  ⟨c.cacheMap.insert k (v, c.accessCounter), c.accessCounter + 1⟩

def erase (c : LruCache κ ν) (k : κ) : LruCache κ ν := { c with cacheMap := c.cacheMap.erase k }

variable {c : LruCache κ ν} {k k' : κ} {v : ν} {maxSize : ℕ}

@[simp] theorem find_empty (k : κ) : (empty : LruCache κ ν).find k = none := by
  simp [empty, find]

theorem get_fst (c : LruCache κ ν) (k : κ) : (c.get k).1 = c.find k := by
  unfold get find
  cases h : c.cacheMap[k]? <;> rfl

def Coherent (truth : κ → ν) (c : LruCache κ ν) : Prop := ∀ k v, c.find k = some v → v = truth k

variable {truth' truth : κ → ν}

theorem Coherent.change (h : Coherent truth c) (same : ∀ k, c.find k ≠ none → truth' k = truth k) : Coherent truth' c := by
  intro k v hfind
  rw [same k (by rw [hfind]; simp)]
  exact h k v hfind

theorem coherent_empty : Coherent truth (empty : LruCache κ ν) := by
  intro k v h
  rw [find_empty] at h
  cases h

section

variable [Std.LawfulEqOrd κ]

@[simp] theorem find_insert_self (c : LruCache κ ν) (k : κ) (v : ν) :
    (c.insert maxSize k v).find k = some v := by
  simp [insert, find]

theorem find_truncateIfNeeded (c : LruCache κ ν) (k : κ) :
    (c.truncateIfNeeded maxSize).find k = none ∨ (c.truncateIfNeeded maxSize).find k = c.find k := by
  unfold truncateIfNeeded
  split
  · exact Or.inr rfl
  · rw [find, find, ExtTreeMap.getElem?_filter']
    cases h : c.cacheMap[k]? with
    | none => exact Or.inl rfl
    | some entry =>
      rw [Option.filter_some]
      split
      · exact Or.inr rfl
      · exact Or.inl rfl

variable [DecidableEq κ]

theorem find_get (c : LruCache κ ν) (k k' : κ) : (c.get k).2.find k' = c.find k' := by
  unfold get
  cases h : c.cacheMap[k]? with
  | none => rfl
  | some entry =>
    rw [find, find, Keyed.getElem?_insert_eq]
    by_cases hk : k' = k
    · rw [if_pos hk, hk, h]
      rfl
    · rw [if_neg hk]

theorem find_insert_of_ne (c : LruCache κ ν) (v : ν) (hk : k' ≠ k) :
    (c.insert maxSize k v).find k' = none ∨ (c.insert maxSize k v).find k' = c.find k' := by
  have h : (c.insert maxSize k v).find k' = (c.truncateIfNeeded maxSize).find k' := by
    rw [insert, find, find, Keyed.getElem?_insert_eq, if_neg hk]
  rw [h]
  exact find_truncateIfNeeded c k'

theorem find_erase (c : LruCache κ ν) (k k' : κ) :
    (c.erase k).find k' = if k' = k then none else c.find k' := by
  rw [erase, find, Keyed.getElem?_erase_eq]
  split <;> rfl

variable {truth : κ → ν}

theorem Coherent.get (h : Coherent truth c) (k : κ) : Coherent truth (c.get k).2 := by
  intro k' v hfind
  rw [find_get] at hfind
  exact h k' v hfind

theorem Coherent.insert_change (h : Coherent truth c) (same : ∀ k' ≠ k, truth' k' = truth k')
    (hv : v = truth' k) :
    Coherent truth' (c.insert maxSize k v) := by
  intro k' v' hfind
  by_cases hk : k' = k
  · subst hk
    rw [find_insert_self] at hfind
    cases hfind
    exact hv
  · rcases find_insert_of_ne c v hk with hnone | hsame
    · rw [hnone] at hfind
      cases hfind
    · rw [hsame] at hfind
      rw [same k' hk]
      exact h k' v' hfind

theorem Coherent.insert (h : Coherent truth c) (hv : v = truth k) :
    Coherent truth (c.insert maxSize k v) :=
  h.insert_change (fun _ _ => rfl) hv

theorem Coherent.foldl_insert {l : List κ} (h : Coherent truth c)
    (same : ∀ k, k ∉ l → truth' k = truth k) (hv : ∀ k ∈ l, truth' k = v) :
    Coherent truth' (l.foldl (fun c k => c.insert maxSize k v) c) := by
  induction l generalizing c truth with
  | nil =>
    have heq : truth' = truth := funext fun k => same k List.not_mem_nil
    rw [heq]
    exact h
  | cons a l ih =>
    rw [List.foldl_cons]
    rw [List.forall_mem_cons] at hv
    refine ih (?_ : Coherent (fun k => if k = a then v else truth k) _) ?_ hv.2
    · exact h.insert_change (fun k' hk' => if_neg hk') (if_pos rfl).symm
    · intro k hk
      by_cases hka : k = a
      · rw [if_pos hka, hka, hv.1]
      · rw [if_neg hka]
        exact same k (List.not_mem_cons_of_ne_of_not_mem hka hk)

theorem Coherent.erase (h : Coherent truth c) (k : κ) : Coherent truth (c.erase k) := by
  intro k' v hfind
  rw [find_erase] at hfind
  split at hfind
  · cases hfind
  · exact h k' v hfind

theorem find_foldl_erase (l : List κ) (c : LruCache κ ν) (k : κ) :
    (l.foldl erase c).find k = if k ∈ l then none else c.find k := by
  induction l generalizing c with
  | nil => simp
  | cons a l ih =>
    rw [List.foldl_cons, ih, find_erase]
    by_cases hk : k = a <;> simp [hk]

theorem Coherent.foldl_erase (h : Coherent truth c) (l : List κ) :
    Coherent truth (l.foldl LruCache.erase c) := by
  induction l generalizing c with
  | nil => exact h
  | cons a l ih => exact ih (h.erase a)

end

end LruCache
