import ButCore.Lib.KeyScan

/-!
# Pending changes over an ordered store

The entries of a store are listed in the order of their keys.
-/
namespace Overlay

theorem lookup_eq_some_iff {κ ν : Type*} [DecidableEq κ] {r : κ → κ → Prop} [Std.Irrefl r]
    {entries : List (κ × ν)} (ascending : entries.Pairwise fun a b => r a.1 b.1) {k : κ} {v : ν} :
    entries.lookup k = some v ↔ (k, v) ∈ entries := by
  induction entries with
  | nil => simp
  | cons e entries ih =>
    obtain ⟨above, ascending⟩ := List.pairwise_cons.mp ascending
    by_cases first : k = e.1
    · obtain ⟨_, w⟩ := e
      subst first
      have fresh : (k, v) ∉ entries := fun h => Std.Irrefl.irrefl k (above (k, v) h)
      rw [List.lookup_cons_self, List.mem_cons]
      simp [fresh, eq_comm]
    · rw [List.lookup_cons, beq_false_of_ne first, List.mem_cons, ih ascending]
      simp [Prod.ext_iff, first]

variable {κ ν : Type} [LinearOrder κ]

abbrev Ascending (entries : List (κ × ν)) : Prop := entries.Pairwise fun a b => a.1 < b.1

structure Lists (read : κ → Option ν) (k : κ) (entries : List (κ × ν)) : Prop where
  ascending : Ascending entries
  mem_iff : ∀ e, e ∈ entries ↔ k ≤ e.1 ∧ read e.1 = some e.2

def fromKey (entries : List (κ × ν)) (k : κ) : List (κ × ν) := entries.dropWhile fun e => e.1 < k

theorem mem_fromKey_iff {entries : List (κ × ν)} (ascending : Ascending entries) (k : κ)
    (e : κ × ν) : e ∈ fromKey entries k ↔ k ≤ e.1 ∧ e ∈ entries := by
  rw [fromKey, KeyScan.dropWhile_eq_filter]
  · simp [and_comm]
  · exact ascending.imp fun less hb => by simpa using less.trans (by simpa using hb)

def listed (entries : List (κ × ν)) (k : κ) : Option ν := entries.lookup k

theorem lists_fromKey {entries : List (κ × ν)} (ascending : Ascending entries) (k : κ) :
    Lists (listed entries) k (fromKey entries k) where
  ascending := ascending.sublist (List.dropWhile_sublist _)
  mem_iff e := by rw [mem_fromKey_iff ascending, listed, lookup_eq_some_iff ascending]

theorem ascending_merge {as bs : List (κ × ν)} (has : Ascending as) (hbs : Ascending bs)
    (distinct : ∀ a ∈ as, ∀ b ∈ bs, a.1 ≠ b.1) :
    Ascending (as.merge bs fun a b => decide (a.1 < b.1)) := by
  induction as generalizing bs with
  | nil => simpa using hbs
  | cons a as ih =>
    induction bs with
    | nil => simpa using has
    | cons b bs ihb =>
      obtain ⟨above, has'⟩ := List.pairwise_cons.mp has
      obtain ⟨above', hbs'⟩ := List.pairwise_cons.mp hbs
      rw [List.cons_merge_cons]
      split
      · next less =>
          have less := of_decide_eq_true less
          refine List.pairwise_cons.mpr ⟨?_, ih has' hbs fun a ha => distinct a (.tail _ ha)⟩
          intro e he
          obtain he | he := List.mem_merge.mp he
          · exact above e he
          · obtain rfl | he := List.mem_cons.mp he
            · exact less
            · exact less.trans (above' e he)
      · next less =>
          have less : b.1 < a.1 := lt_of_le_of_ne
            (not_lt.mp (by simpa using less)) (distinct a (.head _) b (.head _)).symm
          refine List.pairwise_cons.mpr
            ⟨?_, ihb hbs' fun a ha b hb => distinct a ha b (.tail _ hb)⟩
          intro e he
          obtain he | he := List.mem_merge.mp he
          · obtain rfl | he := List.mem_cons.mp he
            · exact less
            · exact less.trans (above e he)
          · exact above' e he

structure Layer (κ ν : Type) [LinearOrder κ] where
  writes : List (κ × ν)
  deletes : Finset κ
  ascending : Ascending writes
  disjoint : ∀ e ∈ writes, e.1 ∉ deletes

structure Cursor (κ ν : Type) where
  writesIt : List (κ × ν)
  parentIt : List (κ × ν)
  curIsParent : Bool

namespace Cursor

def decideCur (it : Cursor κ ν) : Cursor κ ν :=
  match it.writesIt, it.parentIt with
  | _ :: _, [] => { it with curIsParent := false }
  | [], _ :: _ => { it with curIsParent := true }
  | a :: _, b :: _ => { it with curIsParent := !decide (a.1 < b.1) }
  | [], [] => it

def current (it : Cursor κ ν) : Option (κ × ν) :=
  if it.curIsParent then it.parentIt.head? else it.writesIt.head?

end Cursor

namespace Layer

variable (l : Layer κ ν)

def read (parent : κ → Option ν) (k : κ) : Option ν :=
  if k ∈ l.deletes then none
  else
    match l.writes.lookup k with
    | some v => some v
    | none => parent k

def hides (k : κ) : Bool := decide (k ∈ l.deletes) || decide (k ∈ l.writes.map Prod.fst)

def skipDeletedAndOverwritten (parentIt : List (κ × ν)) : List (κ × ν) :=
  parentIt.dropWhile fun e => l.hides e.1

/-- `parentFrom` is what the iterator below visits from `k` on. -/
def seek (parentFrom : List (κ × ν)) (k : κ) : Cursor κ ν :=
  Cursor.decideCur ⟨fromKey l.writes k, l.skipDeletedAndOverwritten parentFrom, false⟩

def next (it : Cursor κ ν) : Cursor κ ν :=
  if it.curIsParent then
    Cursor.decideCur { it with parentIt := l.skipDeletedAndOverwritten it.parentIt.tail }
  else Cursor.decideCur { it with writesIt := it.writesIt.tail }

def visits : ℕ → Cursor κ ν → List (κ × ν)
  | 0, _ => []
  | steps + 1, it =>
    match it.current with
    | none => []
    | some e => e :: visits steps (l.next it)

def visitsFrom (parentFrom : List (κ × ν)) (k : κ) : List (κ × ν) :=
  l.visits (l.writes.length + parentFrom.length) (l.seek parentFrom k)

/-! ### What an iterator has still to visit -/

def visible (entries : List (κ × ν)) : List (κ × ν) := entries.filter fun e => !l.hides e.1

def rest (it : Cursor κ ν) : List (κ × ν) :=
  it.writesIt.merge (l.visible it.parentIt) fun a b => decide (a.1 < b.1)

/-- The choice has been made, and the iterator below is not on a hidden entry. -/
structure Settled (it : Cursor κ ν) : Prop where
  decided : it.decideCur = it
  skipped : ∀ e ∈ it.parentIt.head?, l.hides e.1 = false

variable {l} {it : Cursor κ ν}

theorem visible_skip (entries : List (κ × ν)) :
    l.visible (l.skipDeletedAndOverwritten entries) = l.visible entries := by
  unfold visible skipDeletedAndOverwritten
  induction entries with
  | nil => rfl
  | cons e entries ih =>
    rw [List.dropWhile_cons]
    split
    · next hidden => rw [ih, List.filter_cons_of_neg (by simp [hidden])]
    · rfl

theorem rest_decideCur (it : Cursor κ ν) : l.rest it.decideCur = l.rest it := by
  unfold Cursor.decideCur
  split <;> rfl

theorem settled_decideCur (skipped : ∀ e ∈ it.parentIt.head?, l.hides e.1 = false) :
    l.Settled it.decideCur := by
  unfold Cursor.decideCur
  split
  all_goals
    next hw hp =>
      exact ⟨by simp [Cursor.decideCur, hw, hp], skipped⟩

theorem head_skip (entries : List (κ × ν)) :
    ∀ e ∈ (l.skipDeletedAndOverwritten entries).head?, l.hides e.1 = false := by
  intro e he
  have := List.head?_dropWhile_not (fun e => l.hides e.1) entries
  rw [skipDeletedAndOverwritten] at he
  rw [Option.mem_def.mp he] at this
  simpa using this

theorem settled_seek (parentFrom : List (κ × ν)) (k : κ) : l.Settled (l.seek parentFrom k) :=
  settled_decideCur (head_skip parentFrom)

theorem settled_next (settled : l.Settled it) : l.Settled (l.next it) := by
  unfold next
  split
  · exact settled_decideCur (head_skip _)
  · exact settled_decideCur settled.skipped

theorem rest_next (it : Cursor κ ν) : l.rest (l.next it) =
    if it.curIsParent then l.rest { it with parentIt := it.parentIt.tail }
    else l.rest { it with writesIt := it.writesIt.tail } := by
  unfold next
  split
  · rw [rest_decideCur, rest, visible_skip]
    rfl
  · rw [rest_decideCur]

theorem step_rest (settled : l.Settled it) :
    it.current = (l.rest it).head? ∧ l.rest (l.next it) = (l.rest it).tail := by
  obtain ⟨ws, ps, curIsParent⟩ := it
  have decided : (Cursor.decideCur ⟨ws, ps, curIsParent⟩).curIsParent = curIsParent :=
    congrArg Cursor.curIsParent settled.decided
  rw [rest_next]
  unfold Cursor.current rest
  cases ps with
  | nil =>
    cases ws with
    | nil => cases curIsParent <;> simp [visible]
    | cons a ws =>
      obtain rfl : false = curIsParent := decided
      simp [visible]
  | cons b ps =>
    have shown : l.visible (b :: ps) = b :: l.visible ps :=
      List.filter_cons_of_pos (by simp [settled.skipped b rfl])
    cases ws with
    | nil =>
      obtain rfl : true = curIsParent := decided
      simp [shown]
    | cons a ws =>
      obtain rfl : (!decide (a.1 < b.1)) = curIsParent := decided
      by_cases less : a.1 < b.1 <;> simp [shown, less]

theorem visits_eq_take (settled : l.Settled it) (steps : ℕ) :
    l.visits steps it = (l.rest it).take steps := by
  induction steps generalizing it with
  | zero => rfl
  | succ steps ih =>
    obtain ⟨hcurrent, hnext⟩ := step_rest settled
    rw [visits, hcurrent, ih (settled_next settled), hnext]
    cases l.rest it <;> rfl

section

variable {parentFrom : List (κ × ν)} {k : κ}

theorem rest_seek : l.rest (l.seek parentFrom k) =
    (fromKey l.writes k).merge (l.visible parentFrom) fun a b => decide (a.1 < b.1) := by
  rw [seek, rest_decideCur, rest, visible_skip]

theorem visitsFrom_eq : l.visitsFrom parentFrom k = l.rest (l.seek parentFrom k) := by
  rw [visitsFrom, visits_eq_take (settled_seek parentFrom k)]
  refine List.take_of_length_le ?_
  rw [rest_seek, List.length_merge]
  exact Nat.add_le_add (List.dropWhile_suffix _).length_le (List.length_filter_le _ _)

theorem read_eq_some_iff (parent : κ → Option ν) (e : κ × ν) :
    l.read parent e.1 = some e.2 ↔ e ∈ l.writes ∨ parent e.1 = some e.2 ∧ l.hides e.1 = false := by
  have listed := lookup_eq_some_iff l.ascending (k := e.1) (v := e.2)
  unfold read hides
  by_cases deleted : e.1 ∈ l.deletes
  · have unwritten : e ∉ l.writes := fun h => l.disjoint e h deleted
    simp [deleted, unwritten]
  · rw [if_neg deleted]
    split
    · next v found =>
        have written : e.1 ∈ l.writes.map Prod.fst :=
          List.mem_map.mpr ⟨_, (lookup_eq_some_iff l.ascending).mp found, rfl⟩
        rw [← found, listed]
        simp [deleted, written]
    · next found =>
        have unwritten : e.1 ∉ l.writes.map Prod.fst := by
          intro h
          obtain ⟨e', he', same⟩ := List.mem_map.mp h
          rw [← same, (lookup_eq_some_iff l.ascending).mpr he'] at found
          cases found
        have absent : e ∉ l.writes := fun h => unwritten (List.mem_map_of_mem h)
        simp [deleted, unwritten, absent]

theorem lists_rest_seek {parent : κ → Option ν} (lists : Lists parent k parentFrom) :
    Lists (l.read parent) k (l.rest (l.seek parentFrom k)) where
  ascending := by
    rw [rest_seek]
    refine ascending_merge (l.ascending.sublist (List.dropWhile_sublist _))
      (lists.ascending.sublist List.filter_sublist) ?_
    intro a ha b hb same
    have written := List.mem_map_of_mem (f := Prod.fst) ((List.dropWhile_sublist _).mem ha)
    have shown := (List.mem_filter.mp hb).2
    rw [same] at written
    simp [hides, written] at shown
  mem_iff e := by
    rw [rest_seek, List.mem_merge, mem_fromKey_iff l.ascending, read_eq_some_iff, visible,
      List.mem_filter, lists.mem_iff, Bool.not_eq_true']
    tauto

theorem lists_visitsFrom {parent : κ → Option ν} (lists : Lists parent k parentFrom) :
    Lists (l.read parent) k (l.visitsFrom parentFrom k) := by
  rw [visitsFrom_eq]
  exact lists_rest_seek lists

end

end Layer

end Overlay
