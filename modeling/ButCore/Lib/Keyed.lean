import Mathlib

/-!
# Ordered maps

Lookups after an insertion, an erasure and a sequence of insertions that keep what is there.
-/
namespace Keyed

open Std (ExtTreeMap)

variable {κ α : Type} [Ord κ] [Std.TransOrd κ] [Std.LawfulEqOrd κ] [DecidableEq κ]

theorem getElem?_insert_eq (m : ExtTreeMap κ α) (a k : κ) (v : α) :
    (m.insert a v)[k]? = if k = a then some v else m[k]? := by
  rw [ExtTreeMap.getElem?_insert]
  exact if_congr (Std.compare_eq_iff_eq.trans eq_comm) rfl rfl

theorem getElem?_erase_eq (m : ExtTreeMap κ α) (a k : κ) :
    (m.erase a)[k]? = if k = a then none else m[k]? := by
  rw [ExtTreeMap.getElem?_erase]
  exact if_congr (Std.compare_eq_iff_eq.trans eq_comm) rfl rfl

theorem getElem?_insertIfNew_eq (m : ExtTreeMap κ α) (a k : κ) (v : α) :
    (m.insertIfNew a v)[k]? = m[k]?.or (if k = a then some v else none) := by
  rw [ExtTreeMap.getElem?_insertIfNew]
  by_cases hk : k = a
  · subst hk
    by_cases hmem : k ∈ m <;> simp [hmem]
  · have hne : compare a k ≠ .eq := fun e => hk (Std.compare_eq_iff_eq.mp e).symm
    simp [hk, hne]

omit [DecidableEq κ] in
theorem nodup_keys (m : ExtTreeMap κ α) : (m.toList.map Prod.fst).Nodup := by
  rw [List.Nodup, List.pairwise_map]
  exact m.distinct_keys_toList.imp fun hne heq => hne (Std.compare_eq_iff_eq.mpr heq)

theorem getElem?_foldl_erase (l : List κ) (m : ExtTreeMap κ α) (k : κ) :
    (l.foldl ExtTreeMap.erase m)[k]? = if k ∈ l then none else m[k]? := by
  induction l generalizing m with
  | nil => simp
  | cons a l ih =>
    rw [List.foldl_cons, ih, getElem?_erase_eq]
    by_cases hk : k = a <;> simp [hk]

theorem getElem?_foldl_insert (l : List κ) (m : ExtTreeMap κ α) (v : α) (k : κ) :
    (l.foldl (fun m a => m.insert a v) m)[k]? = if k ∈ l then some v else m[k]? := by
  induction l generalizing m with
  | nil => simp
  | cons a l ih =>
    rw [List.foldl_cons, ih, getElem?_insert_eq]
    by_cases hk : k = a <;> simp [hk]

end Keyed
