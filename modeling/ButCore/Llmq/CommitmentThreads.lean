import ButCore.Lib.Table
import ButCore.Llmq.BlockProcessor

/-!
# The cache of mined commitments between the threads

Blocks are processed inside a transaction of the database, and other threads look up mined
commitments at any time.
-/
namespace ButCore.Llmq.BlockProcessor

/-- `fate` tells of the open transaction whether it will be committed. `forgetting` is the quorum
whose commitment has been written or erased while its cache entry has not, and `lookups` what the
threads have read and not stored yet. -/
structure SharedState where
  committed : CommitmentDb
  store : ProcessorStore
  fate : Option Bool
  forgetting : Option QuorumKey
  lookups : ℕ → Option (QuorumKey × Bool)

inductive SharedStep where
  | begin (commits : Bool)
  | write (key : QuorumKey) (nHeight quorumHeight : ℤ) (qc : CFinalCommitment) (blockHash : Uint256)
  | erase (key : QuorumKey) (nHeight : ℤ)
  | forget
  | finish
  | read (thread : ℕ) (key : QuorumKey)
  | emplace (thread : ℕ)

namespace SharedState

def initial : SharedState := ⟨.empty, ⟨.empty, fun _ => none⟩, none, none, fun _ => none⟩

def present (s : SharedState) (key : QuorumKey) : Bool := (s.store.db.minedCommitment key).isSome

def setCache (s : SharedState) (key : QuorumKey) (cached : Option Bool) : SharedState :=
  { s with store := { s.store with
    hasMinedCommitmentCache := Function.update s.store.hasMinedCommitmentCache key cached } }

def change (s : SharedState) (key : QuorumKey) (db : CommitmentDb) : SharedState :=
  if s.fate.isSome ∧ s.forgetting = none then
    { s with store := { s.store with db := db }, forgetting := some key }
  else s

def step (s : SharedState) : SharedStep → SharedState
  | .begin commits => if s.fate = none then { s with fate := some commits } else s
  | .write key nHeight quorumHeight qc blockHash =>
    s.change key (s.store.db.write key.1 key.2 nHeight quorumHeight qc blockHash)
  | .erase key nHeight => s.change key (s.store.db.erase key.1 key.2 nHeight)
  | .forget =>
    match s.forgetting with
    | none => s
    | some key => { s.setCache key none with forgetting := none }
  | .finish =>
    match s.fate, s.forgetting with
    | some true, none => { s with committed := s.store.db, fate := none }
    | some false, none => { s with store := { s.store with db := s.committed }, fate := none }
    | _, _ => s
  | .read thread key =>
    -- an answer from the cache is returned at once
    if s.lookups thread = none ∧ s.store.hasMinedCommitmentCache key = none then
      { s with lookups := Function.update s.lookups thread (some (key, s.present key)) }
    else s
  | .emplace thread =>
    match s.lookups thread with
    | none => s
    | some (key, ret) =>
      { s.setCache key ((s.store.hasMinedCommitmentCache key).or (some ret)) with
        lookups := Function.update s.lookups thread none }

def Coherent (s : SharedState) : Prop :=
  s.fate = none → ∀ key cached, s.store.hasMinedCommitmentCache key = some cached →
    cached = (s.committed.minedCommitment key).isSome

/-- What a thread is about to store is still so, and stays so if the transaction is rolled back.
Where the entry is there, or about to be forgotten, it does not matter. -/
def Lasts (s : SharedState) : SharedStep → Prop
  | .emplace thread => ∀ p ∈ s.lookups thread, s.store.hasMinedCommitmentCache p.1 = none →
      s.forgetting ≠ some p.1 → p.2 = s.present p.1 ∧
        (s.fate = some false → s.present p.1 = (s.committed.minedCommitment p.1).isSome)
  | _ => True

/-- Without an open transaction the threads see what is committed; a cached answer is what they
see, and if the transaction is rolled back also what is committed. -/
structure Follows (s : SharedState) : Prop where
  closed : s.fate = none → s.store.db = s.committed ∧ s.forgetting = none
  cached : ∀ key cached, s.store.hasMinedCommitmentCache key = some cached →
    s.forgetting = some key ∨ cached = s.present key ∧
      (s.fate = some false → s.present key = (s.committed.minedCommitment key).isSome)

namespace Follows

variable {s : SharedState}

theorem initial : Follows initial := ⟨fun _ => ⟨rfl, rfl⟩, fun _ _ h => by cases h⟩

theorem coherent (h : Follows s) : s.Coherent := by
  intro closed key cached hcached
  obtain ⟨same, idle⟩ := h.closed closed
  rcases h.cached key cached hcached with forgetting | ⟨rfl, -⟩
  · rw [idle] at forgetting
    cases forgetting
  · rw [present, same]

theorem change (h : Follows s) {key : QuorumKey} {db : CommitmentDb}
    (elsewhere : ∀ key', key' ≠ key → db.minedCommitment key' = s.store.db.minedCommitment key') :
    Follows (s.change key db) := by
  unfold SharedState.change
  split
  · next possible =>
      refine ⟨fun closed => ?_, ?_⟩
      · rw [show s.fate = none from closed] at possible
        cases possible.1
      · intro key' cached hcached
        by_cases hkey : key' = key
        · exact Or.inl (congrArg some hkey.symm)
        · rcases h.cached key' cached hcached with forgetting | current
          · rw [possible.2] at forgetting
            cases forgetting
          · simp only [present, elsewhere key' hkey]
            exact Or.inr current
  · exact h

theorem step (h : Follows s) {event : SharedStep} (lasts : s.Lasts event) :
    Follows (s.step event) := by
  cases event with
  | begin commits =>
    dsimp only [SharedState.step]
    split
    · next closed =>
        refine ⟨fun opened => (by cases opened), ?_⟩
        intro key cached hcached
        rcases h.cached key cached hcached with forgetting | ⟨hpresent, -⟩
        · exact Or.inl forgetting
        · refine Or.inr ⟨hpresent, fun _ => ?_⟩
          simp only [present, (h.closed closed).1]
    · exact h
  | write key nHeight quorumHeight qc blockHash =>
    exact h.change fun key' other => Function.update_of_ne other _ _
  | erase key nHeight => exact h.change fun key' other => Function.update_of_ne other _ _
  | forget =>
    dsimp only [SharedState.step]
    split
    · exact h
    · next key hkey =>
        refine ⟨fun closed => ?_, ?_⟩
        · have := (h.closed closed).2
          rw [hkey] at this
          cases this
        · intro key' cached hcached
          obtain ⟨hcached, other⟩ := Table.update_none_eq_some.mp hcached
          rcases h.cached key' cached hcached with forgetting | current
          · rw [hkey, Option.some.injEq] at forgetting
            exact absurd forgetting other
          · exact Or.inr current
  | finish =>
    dsimp only [SharedState.step]
    split
    · next _ idle =>
        refine ⟨fun _ => ⟨rfl, idle⟩, ?_⟩
        intro key cached hcached
        exact (h.cached key cached hcached).imp_right fun current => ⟨current.1, fun _ => rfl⟩
    · next rolledBack idle =>
        refine ⟨fun _ => ⟨rfl, idle⟩, ?_⟩
        intro key cached hcached
        refine (h.cached key cached hcached).imp_right fun current => ⟨?_, fun _ => rfl⟩
        exact current.1.trans (current.2 rolledBack)
    · exact h
  | read thread key =>
    dsimp only [SharedState.step]
    split
    · exact ⟨h.closed, h.cached⟩
    · exact h
  | emplace thread =>
    dsimp only [SharedState.step]
    split
    · exact h
    · next key ret hlookup =>
        refine ⟨h.closed, ?_⟩
        intro key' cached hcached
        by_cases hkey : key' = key
        · subst hkey
          simp only [setCache, Function.update_self] at hcached
          cases hold : s.store.hasMinedCommitmentCache key' with
          | some old =>
            rw [hold, Option.some_or, Option.some.injEq] at hcached
            exact h.cached key' cached (hcached ▸ hold)
          | none =>
            rw [hold, Option.none_or, Option.some.injEq] at hcached
            subst hcached
            by_cases forgetting : s.forgetting = some key'
            · exact Or.inl forgetting
            · exact Or.inr (lasts (key', ret) hlookup hold forgetting)
        · simp only [setCache, Function.update_of_ne hkey] at hcached
          exact h.cached key' cached hcached

end Follows

end SharedState

open SharedState

/-- As long as every stored answer lasts, the cache is right whenever no transaction is open. -/
theorem run_coherent (steps : List SharedStep)
    (lasts : Steps.Meets SharedState.step Lasts SharedState.initial steps) :
    (Steps.run SharedState.step SharedState.initial steps).Coherent :=
  (Steps.run_inv (fun _ _ h => h.step) Follows.initial lasts).coherent

def toyMine (commits : Bool) : List SharedStep :=
  [.begin commits, .write (1, 1) 10 0 ⟨1, 1, 1, [], [], none, 0, none, none⟩ 11, .forget]

theorem run_coherent_committed : (Steps.run SharedState.step SharedState.initial
    (toyMine true ++ [.read 1 (1, 1), .emplace 1, .finish])).Coherent := by
  refine run_coherent _ ⟨trivial, trivial, trivial, trivial, ?_, trivial, trivial⟩
  intro p hp _ _
  obtain rfl : ((1, 1), true) = p := Option.some.inj hp
  exact ⟨rfl, fun rolledBack => by cases rolledBack⟩

/-- After a rollback the cache says that the commitment is there; and a lookup that began before
the block was processed says that it is not. -/
theorem run_not_coherent :
    ¬ (Steps.run SharedState.step SharedState.initial
      (toyMine false ++ [.read 1 (1, 1), .emplace 1, .finish])).Coherent ∧
    ¬ (Steps.run SharedState.step SharedState.initial
      (.read 1 (1, 1) :: toyMine true ++ [.finish, .emplace 1])).Coherent := by
  constructor
  · intro coherent
    exact absurd (coherent (by decide) (1, 1) true (by decide)) (by decide)
  · intro coherent
    exact absurd (coherent (by decide) (1, 1) false (by decide)) (by decide)

end ButCore.Llmq.BlockProcessor
