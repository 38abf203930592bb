import Mathlib.Logic.Relation
import Mathlib.Data.List.Dedup

/-!
# Searches with a stack

Nodes that are met are pushed once.
-/

/-- The stack, its top first, and the nodes that were pushed so far. -/
structure Worklist (ν : Type) where
  stack : List ν
  added : List ν

namespace Worklist

variable {ν : Type}

def start (root : ν) : Worklist ν := ⟨[root], []⟩

def push [DecidableEq ν] (w : Worklist ν) (n : ν) : Worklist ν :=
  if n ∈ w.added then w else ⟨n :: w.stack, n :: w.added⟩

/-- Where a search from `root` stands; `popped` are the nodes it has dealt with. -/
structure Exploring (R : ν → ν → Prop) (root : ν) (popped : List ν) (w : Worklist ν) : Prop where
  reached : ∀ n ∈ w.added, Relation.ReflTransGen R root n
  root_met : root ∈ w.stack ∨ root ∈ popped
  added_met : ∀ n ∈ w.added, n ∈ w.stack ∨ n ∈ popped
  stack_added : ∀ n ∈ w.stack, n = root ∨ n ∈ w.added
  popped_added : ∀ n ∈ popped, n = root ∨ n ∈ w.added
  closed : ∀ n ∈ popped, ∀ m, R n m → m ∈ w.added

variable {R : ν → ν → Prop} {root n : ν} {popped : List ν} {w : Worklist ν}

theorem exploring_start (R : ν → ν → Prop) (root : ν) : Exploring R root [] (start root) := by
  constructor <;> simp [start]

theorem Exploring.reached_stack (e : Exploring R root popped w) (h : n ∈ w.stack) :
    Relation.ReflTransGen R root n := by
  rcases e.stack_added n h with rfl | hadded
  · exact .refl
  · exact e.reached n hadded

theorem Exploring.popped_iff (e : Exploring R root popped w) (done : w.stack = []) (n : ν) :
    n ∈ popped ↔ Relation.ReflTransGen R root n := by
  have hadded : ∀ m ∈ w.added, m ∈ popped := by
    intro m hm
    have h := e.added_met m hm
    rw [done] at h
    simpa using h
  constructor
  · intro hn
    rcases e.popped_added n hn with rfl | h
    · exact .refl
    · exact e.reached n h
  · intro h
    induction h with
    | refl =>
      have h := e.root_met
      rw [done] at h
      simpa using h
    | tail _ hstep ih => exact hadded _ (e.closed _ ih _ hstep)

section

variable [DecidableEq ν]
variable {m : ν}

theorem mem_added_push : m ∈ (w.push n).added ↔ m = n ∨ m ∈ w.added := by
  unfold push
  split
  · next h =>
      constructor
      · exact Or.inr
      · rintro (rfl | hm)
        · exact h
        · exact hm
  · exact List.mem_cons

theorem mem_stack_push (h : m ∈ w.stack) : m ∈ (w.push n).stack := by
  unfold push
  split
  · exact h
  · exact List.mem_cons_of_mem n h

theorem mem_of_mem_stack_push (h : m ∈ (w.push n).stack) : m = n ∨ m ∈ w.stack := by
  unfold push at h
  split at h
  · exact Or.inr h
  · exact List.mem_cons.mp h

variable {l : List ν}

theorem mem_added_foldl_push :
    m ∈ (l.foldl push w).added ↔ m ∈ l ∨ m ∈ w.added := by
  induction l generalizing w with
  | nil => simp
  | cons a l ih =>
    rw [List.foldl_cons, ih, mem_added_push, List.mem_cons]
    tauto

theorem mem_stack_foldl_push (h : m ∈ w.stack) :
    m ∈ (l.foldl push w).stack := by
  induction l generalizing w with
  | nil => exact h
  | cons a l ih => exact ih (mem_stack_push h)

theorem of_mem_stack_foldl_push (h : m ∈ (l.foldl push w).stack) :
    m ∈ l ∨ m ∈ w.stack := by
  induction l generalizing w with
  | nil => exact Or.inr h
  | cons a l ih =>
    rcases ih h with h | h
    · exact Or.inl (List.mem_cons_of_mem a h)
    · rcases mem_of_mem_stack_push h with rfl | h
      · exact Or.inl List.mem_cons_self
      · exact Or.inr h

theorem mem_stack_push_self (h : n ∉ w.added) : n ∈ (w.push n).stack := by
  rw [push, if_neg h]
  exact List.mem_cons_self

theorem met_of_mem (hm : m ∈ l) (w : Worklist ν) :
    m ∈ (l.foldl push w).stack ∨ m ∈ w.added := by
  induction l generalizing w with
  | nil => cases hm
  | cons a l ih =>
    by_cases hw : m ∈ w.added
    · exact Or.inr hw
    · left
      by_cases ha : m = a
      · subst ha
        rw [List.foldl_cons]
        exact mem_stack_foldl_push (mem_stack_push_self hw)
      · rcases ih (List.mem_of_ne_of_mem ha hm) (w.push a) with h | h
        · exact h
        · exact absurd (mem_added_push.mp h) (not_or.mpr ⟨ha, hw⟩)

variable {pushed : List ν}

theorem Exploring.round {top : ν} {rest : List ν}
    (e : Exploring R root popped ⟨top :: rest, w.added⟩) (hpushed : ∀ m, R top m ↔ m ∈ pushed) :
    Exploring R root (top :: popped) (pushed.foldl push ⟨rest, w.added⟩) := by
  have old : ∀ {m}, m ∈ top :: rest ∨ m ∈ popped →
      m ∈ (pushed.foldl push ⟨rest, w.added⟩).stack ∨ m ∈ top :: popped := by
    rintro m (h | h)
    · rcases List.mem_cons.mp h with rfl | h
      · exact Or.inr List.mem_cons_self
      · exact Or.inl (mem_stack_foldl_push h)
    · exact Or.inr (List.mem_cons_of_mem top h)
  constructor
  · intro m hm
    rcases mem_added_foldl_push.mp hm with hm | hm
    · exact (e.reached_stack List.mem_cons_self).tail ((hpushed m).mpr hm)
    · exact e.reached m hm
  · exact old e.root_met
  · intro m hm
    rcases mem_added_foldl_push.mp hm with hm | hm
    · rcases met_of_mem hm ⟨rest, w.added⟩ with h | h
      · exact Or.inl h
      · exact old (e.added_met m h)
    · exact old (e.added_met m hm)
  · intro m hm
    rw [mem_added_foldl_push]
    rcases of_mem_stack_foldl_push hm with h | h
    · exact Or.inr (Or.inl h)
    · exact (e.stack_added m (List.mem_cons_of_mem top h)).imp_right Or.inr
  · intro m hm
    rw [mem_added_foldl_push]
    rcases List.mem_cons.mp hm with rfl | hm
    · exact (e.stack_added m List.mem_cons_self).imp_right Or.inr
    · exact (e.popped_added m hm).imp_right Or.inr
  · intro m hm k hk
    rw [mem_added_foldl_push]
    rcases List.mem_cons.mp hm with rfl | hm
    · exact Or.inl ((hpushed k).mp hk)
    · exact Or.inr (e.closed m hm k hk)

/-- A bound on the rounds that are left, when only nodes of `nodes` are ever pushed. -/
def roundsLeft (nodes : List ν) (w : Worklist ν) : ℕ :=
  (nodes.filter fun n => n ∉ w.added).length + w.stack.length

variable {nodes : List ν}

theorem roundsLeft_push (hnodes : nodes.Nodup) (hn : n ∈ nodes) :
    roundsLeft nodes (w.push n) = roundsLeft nodes w := by
  unfold push
  split
  · rfl
  · next hnew =>
      have herase : nodes.filter (fun m => m ∉ n :: w.added) =
          (nodes.filter fun m => m ∉ w.added).erase n := by
        rw [(hnodes.filter _).erase_eq_filter, List.filter_filter]
        apply List.filter_congr
        intro m _
        by_cases hm : m = n <;> simp [hm]
      have hmem : n ∈ nodes.filter fun m => m ∉ w.added := by simp [hn, hnew]
      have hpos := List.length_pos_of_mem hmem
      simp only [roundsLeft, herase, List.length_erase_of_mem hmem, List.length_cons]
      omega

theorem roundsLeft_foldl_push (hnodes : nodes.Nodup) (hpushed : ∀ n ∈ pushed, n ∈ nodes)
    (w : Worklist ν) :
    roundsLeft nodes (pushed.foldl push w) = roundsLeft nodes w := by
  induction pushed generalizing w with
  | nil => rfl
  | cons n pushed ih =>
    rw [List.forall_mem_cons] at hpushed
    rw [List.foldl_cons, ih hpushed.2, roundsLeft_push hnodes hpushed.1]

end

end Worklist
