import Mathlib
import ButCore.Primitives

/-!
# Expiry from the mempool

`Expire` picks the old transactions without a lock and removes them with all their descendants,
whether these are locked or not.
-/
namespace ButCore.Mempool

section

variable {ν : Type} [DecidableEq ν] (children : ν → List ν)

/-- The loop of `CalculateDescendants`; `fuel` is at least the number of entries. -/
def descendLoop : ℕ → List ν → List ν → List ν
  | 0, _, setDescendants => setDescendants
  | _ + 1, [], setDescendants => setDescendants
  | fuel + 1, it :: stage, setDescendants =>
    let setDescendants := it :: setDescendants
    descendLoop fuel
      (((children it).filter fun child => decide (child ∉ setDescendants)) ∪ stage) setDescendants

def calculateDescendants (fuel : ℕ) (setDescendants : List ν) (entry : ν) : List ν :=
  descendLoop children fuel (if entry ∈ setDescendants then [] else [entry]) setDescendants

def Child (parent child : ν) : Prop := child ∈ children parent

def Closed (stage done : List ν) : Prop :=
  ∀ n ∈ done, ∀ c ∈ children n, c ∈ done ∨ c ∈ stage

variable {children}

omit [DecidableEq ν] in
theorem Closed.reach {stage done : List ν} (closed : Closed children stage done) {n m : ν}
    (hn : n ∈ done) (path : Relation.ReflTransGen (Child children) n m) :
    m ∈ done ∨ ∃ s ∈ stage, Relation.ReflTransGen (Child children) s m := by
  induction path with
  | refl => exact Or.inl hn
  | tail _ edge ih =>
    rcases ih with ih | ⟨s, hs, path⟩
    · exact (closed _ ih _ edge).imp_right fun h => ⟨_, h, .refl⟩
    · exact Or.inr ⟨s, hs, path.tail edge⟩

/-- Each round deals with one more entry, so the entries that are left bound the rounds. -/
theorem descendLoop_spec {nodes : List ν} (inside : ∀ n ∈ nodes, ∀ c ∈ children n, c ∈ nodes)
    {fuel : ℕ} {stage done : List ν} (hstage : ∀ n ∈ stage, n ∈ nodes) (hdone : done ⊆ nodes)
    (nodup : (stage ++ done).Nodup) (closed : Closed children stage done)
    (enough : nodes.length ≤ fuel + done.length) :
    (descendLoop children fuel stage done).Nodup ∧
      ∀ m, m ∈ descendLoop children fuel stage done ↔
        m ∈ done ∨ ∃ s ∈ stage, Relation.ReflTransGen (Child children) s m := by
  induction fuel generalizing stage done with
  | zero =>
    have none : stage = [] := by
      have sub : stage ++ done ⊆ nodes := List.append_subset.mpr ⟨hstage, hdone⟩
      have := (List.subperm_of_subset nodup sub).length_le
      rw [List.length_append] at this
      exact List.length_eq_zero_iff.mp (by omega)
    simpa [descendLoop, none] using (List.nodup_append.mp nodup).2.1
  | succ fuel ih =>
    cases stage with
    | nil => simpa [descendLoop] using nodup
    | cons it stage =>
      have hit := hstage it List.mem_cons_self
      rw [List.cons_append, List.nodup_cons, List.mem_append, not_or] at nodup
      obtain ⟨⟨unstaged, undone⟩, nodup⟩ := nodup
      obtain ⟨stageNodup, doneNodup, disjoint⟩ := List.nodup_append.mp nodup
      have mem_stage : ∀ c, c ∈ ((children it).filter fun child => decide (child ∉ it :: done)) ∪
          stage ↔ (c ∈ children it ∧ c ∉ it :: done) ∨ c ∈ stage := by
        intro c
        rw [List.mem_union_iff, List.mem_filter, decide_eq_true_eq]
      have closed' : Closed children (((children it).filter fun child =>
          decide (child ∉ it :: done)) ∪ stage) (it :: done) := by
        intro n hn c hc
        by_cases seen : c ∈ it :: done
        · exact Or.inl seen
        · refine Or.inr ((mem_stage c).mpr ?_)
          rcases List.mem_cons.mp hn with rfl | hn
          · exact Or.inl ⟨hc, seen⟩
          · rcases closed n hn c hc with h | h
            · exact absurd (List.mem_cons_of_mem _ h) seen
            · exact Or.inr ((List.mem_cons.mp h).resolve_left fun heq =>
                seen (heq ▸ List.mem_cons_self))
      have enough' : nodes.length ≤ fuel + (it :: done).length := by
        rw [List.length_cons]
        omega
      have stageIn : ∀ n ∈ ((children it).filter fun child => decide (child ∉ it :: done)) ∪ stage,
          n ∈ nodes := by
        intro n hn
        rcases (mem_stage n).mp hn with ⟨hn, _⟩ | hn
        · exact inside it hit n hn
        · exact hstage n (List.mem_cons_of_mem _ hn)
      have doneIn : it :: done ⊆ nodes := List.cons_subset.mpr ⟨hit, hdone⟩
      have nodup' : ((((children it).filter fun child => decide (child ∉ it :: done)) ∪ stage) ++
          it :: done).Nodup := by
        refine List.nodup_append.mpr
          ⟨stageNodup.union _, List.nodup_cons.mpr ⟨undone, doneNodup⟩, ?_⟩
        rintro n hn _ hn' rfl
        rcases (mem_stage n).mp hn with ⟨_, fresh⟩ | staged
        · exact fresh hn'
        · rcases List.mem_cons.mp hn' with rfl | hn'
          · exact unstaged staged
          · exact disjoint n staged n hn' rfl
      obtain ⟨resultNodup, mem_result⟩ := ih stageIn doneIn nodup' closed' enough'
      refine ⟨resultNodup, fun m => (mem_result m).trans ⟨?_, ?_⟩⟩
      · rintro (hm | ⟨s, hs, path⟩)
        · rcases List.mem_cons.mp hm with rfl | hm
          · exact Or.inr ⟨m, List.mem_cons_self, .refl⟩
          · exact Or.inl hm
        · rcases (mem_stage s).mp hs with ⟨hs, _⟩ | hs
          · exact Or.inr ⟨it, List.mem_cons_self, .head hs path⟩
          · exact Or.inr ⟨s, List.mem_cons_of_mem _ hs, path⟩
      · rintro (hm | ⟨s, hs, path⟩)
        · exact Or.inl (List.mem_cons_of_mem _ hm)
        · rcases List.mem_cons.mp hs with rfl | hs
          · exact closed'.reach List.mem_cons_self path
          · exact Or.inr ⟨s, (mem_stage s).mpr (Or.inr hs), path⟩

/-- `CalculateDescendants` adds an entry and all its descendants to a set that is closed, and
leaves it closed. -/
theorem calculateDescendants_spec {nodes : List ν}
    (inside : ∀ n ∈ nodes, ∀ c ∈ children n, c ∈ nodes) {done : List ν} (hdone : done ⊆ nodes)
    (nodup : done.Nodup) (closed : Closed children [] done) {entry : ν} (hentry : entry ∈ nodes) :
    (calculateDescendants children nodes.length done entry).Nodup ∧
      ∀ m, m ∈ calculateDescendants children nodes.length done entry ↔
        m ∈ done ∨ Relation.ReflTransGen (Child children) entry m := by
  unfold calculateDescendants
  have enough : nodes.length ≤ nodes.length + done.length := by omega
  split
  case isTrue seen =>
    have none : ∀ n ∈ ([] : List ν), n ∈ nodes := by simp
    obtain ⟨resultNodup, mem_result⟩ := descendLoop_spec inside none hdone nodup closed enough
    refine ⟨resultNodup, fun m => (mem_result m).trans ⟨?_, ?_⟩⟩
    · exact fun h => Or.inl (h.resolve_right (by simp))
    · rintro (h | path)
      · exact Or.inl h
      · exact closed.reach seen path
  case isFalse unseen =>
    have one : ∀ n ∈ [entry], n ∈ nodes := by simpa using hentry
    have closed' : Closed children [entry] done :=
      fun n hn c hc => Or.inl ((closed n hn c hc).resolve_right List.not_mem_nil)
    simpa using descendLoop_spec inside one hdone (List.nodup_cons.mpr ⟨unseen, nodup⟩) closed'
      enough

end

structure CTxMemPoolEntry where
  hash : Uint256
  time : ℤ
  deriving DecidableEq

/-- The mempool as `Expire` reads it: its entries and the links from parents to children. -/
structure CTxMemPool where
  mapTx : List CTxMemPoolEntry
  children : Uint256 → List Uint256
  nodup : (mapTx.map (·.hash)).Nodup
  linked : ∀ n ∈ mapTx.map (·.hash), ∀ c ∈ children n, c ∈ mapTx.map (·.hash)

namespace CTxMemPool

variable (pool : CTxMemPool) (isLocked : Uint256 → Bool) (time : ℤ)

def toremove : List Uint256 :=
  (pool.mapTx.filter fun e => decide (e.time < time) && !isLocked e.hash).map (·.hash)

def stage : List Uint256 :=
  (pool.toremove isLocked time).foldl
    (calculateDescendants pool.children pool.mapTx.length) []

def expire : List CTxMemPoolEntry :=
  pool.mapTx.filter fun e => decide (e.hash ∉ pool.stage isLocked time)

def Descends : Uint256 → Uint256 → Prop := Relation.ReflTransGen (Child pool.children)

variable {pool isLocked time}

theorem mem_hashes_of_descends {n m : Uint256} (hn : n ∈ pool.mapTx.map (·.hash))
    (path : pool.Descends n m) : m ∈ pool.mapTx.map (·.hash) := by
  induction path with
  | refl => exact hn
  | tail _ edge ih => exact pool.linked _ ih _ edge

/-- Over the whole loop the set stays closed, and holds what descends from the entries seen. -/
theorem mem_foldl_calculateDescendants {roots done : List Uint256}
    (hroots : roots ⊆ pool.mapTx.map (·.hash)) (hdone : done ⊆ pool.mapTx.map (·.hash))
    (nodup : done.Nodup) (closed : Closed pool.children [] done) (m : Uint256) :
    m ∈ roots.foldl (calculateDescendants pool.children pool.mapTx.length) done ↔
      m ∈ done ∨ ∃ r ∈ roots, pool.Descends r m := by
  induction roots generalizing done with
  | nil => simp
  | cons root roots ih =>
    obtain ⟨hroot, hroots⟩ := List.cons_subset.mp hroots
    have spec := calculateDescendants_spec pool.linked hdone nodup closed hroot
    rw [List.length_map] at spec
    obtain ⟨nodup', step⟩ := spec
    rw [List.foldl_cons, ih hroots _ nodup' _, step]
    · simp [Descends, or_assoc]
    · intro n hn
      rcases (step n).mp hn with hn | path
      · exact hdone hn
      · exact mem_hashes_of_descends hroot path
    · intro n hn c hc
      refine Or.inl ((step c).mpr ?_)
      rcases (step n).mp hn with hn | path
      · exact Or.inl ((closed n hn c hc).resolve_right List.not_mem_nil)
      · exact Or.inr (path.tail hc)

theorem mem_stage {m : Uint256} :
    m ∈ pool.stage isLocked time ↔
      ∃ e ∈ pool.mapTx, e.time < time ∧ isLocked e.hash = false ∧ pool.Descends e.hash m := by
  have sub : pool.toremove isLocked time ⊆ pool.mapTx.map (·.hash) :=
    List.map_subset _ (List.filter_subset_self _)
  rw [stage, mem_foldl_calculateDescendants sub (List.nil_subset _) List.nodup_nil
    (fun _ h => absurd h List.not_mem_nil)]
  simp [toremove, and_assoc]

theorem mem_expire {e : CTxMemPoolEntry} :
    e ∈ pool.expire isLocked time ↔ e ∈ pool.mapTx ∧ e.hash ∉ pool.stage isLocked time := by
  simp [expire]

variable (pool isLocked time)

def RespectsLocks : Prop :=
  (∀ e ∈ pool.mapTx, isLocked e.hash = true → e ∈ pool.expire isLocked time) ∧
  ∀ e ∈ pool.mapTx, isLocked e.hash = false → e.time < time →
    (∀ m, pool.Descends e.hash m → isLocked m = false) → e ∉ pool.expire isLocked time

theorem expire_respectsLocks_iff :
    pool.RespectsLocks isLocked time ↔
      ∀ e ∈ pool.mapTx, e.time < time → isLocked e.hash = false →
        ∀ m, pool.Descends e.hash m → isLocked m = false := by
  constructor
  · intro h e he old unlocked m path
    obtain ⟨e', he', rfl⟩ := List.mem_map.mp
      (mem_hashes_of_descends (List.mem_map_of_mem he) path)
    refine Bool.eq_false_iff.mpr fun locked => ?_
    exact (mem_expire.mp (h.1 e' he' locked)).2 (mem_stage.mpr ⟨e, he, old, unlocked, path⟩)
  · intro h
    refine ⟨fun e he locked => mem_expire.mpr ⟨he, fun staged => ?_⟩,
      fun e he unlocked old _ left => ?_⟩
    · obtain ⟨old, hold, early, unlocked, path⟩ := mem_stage.mp staged
      rw [h old hold early unlocked _ path] at locked
      cases locked
    · exact (mem_expire.mp left).2 (mem_stage.mpr ⟨e, he, old, unlocked, .refl⟩)

def parentAndChild : CTxMemPool where
  mapTx := [⟨1, 100⟩, ⟨2, 150⟩]
  children n := if n = 1 then [2] else []
  nodup := by simp
  linked := by simp

/-- The locked child goes with its parent. -/
theorem expire_lockedChild :
    (⟨2, 150⟩ : CTxMemPoolEntry) ∈ parentAndChild.mapTx ∧
      parentAndChild.expire (fun n => n == 2) 120 = [] ∧
      ¬ parentAndChild.RespectsLocks (fun n => n == 2) 120 := by
  have gone : parentAndChild.expire (fun n => n == 2) 120 = [] := by decide
  have here : (⟨2, 150⟩ : CTxMemPoolEntry) ∈ parentAndChild.mapTx := by decide
  refine ⟨here, gone, fun h => ?_⟩
  have left := h.1 _ here rfl
  rw [gone] at left
  cases left

end CTxMemPool

end ButCore.Mempool
