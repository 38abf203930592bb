import ButCore.CacheMultiMap
import ButCore.Primitives

/-!
# Orphan votes

Votes for an unknown governance object wait in a `CacheMultiMap` under the hash of the object, each
with the time at which it expires.
-/
namespace ButCore.Governance

open CacheMultiMap

structure CGovernanceVote where
  smartnodeOutpoint : COutPoint
  nParentHash : Uint256
  nVoteOutcome : ℤ
  nVoteSignal : ℤ
  nTime : ℤ
  deriving DecidableEq

/-- `operator<`, assignment by assignment. -/
def lessVote (vote1 vote2 : CGovernanceVote) : Bool :=
  let fResult := vote1.smartnodeOutpoint.lt vote2.smartnodeOutpoint
  if !fResult then false
  else
    let fResult := decide (vote1.smartnodeOutpoint = vote2.smartnodeOutpoint)
    let fResult := fResult && decide (vote1.nParentHash < vote2.nParentHash)
    if !fResult then false
    else
      let fResult := fResult && decide (vote1.nParentHash = vote2.nParentHash)
      let fResult := fResult && decide (vote1.nVoteOutcome < vote2.nVoteOutcome)
      if !fResult then false
      else
        let fResult := fResult && decide (vote1.nVoteOutcome = vote2.nVoteOutcome)
        let fResult := fResult && decide (vote1.nVoteSignal = vote2.nVoteSignal)
        if !fResult then false
        else
          let fResult := fResult && decide (vote1.nVoteSignal = vote2.nVoteSignal)
          fResult && decide (vote1.nTime < vote2.nTime)

abbrev VoteTimePair := CGovernanceVote × ℤ

/-- `operator<` of `vote_time_pair_t`, which hides the one of `std::pair`. -/
def lessPair (p1 p2 : VoteTimePair) : Bool := lessVote p1.1 p2.1

def GOVERNANCE_ORPHAN_EXPIRATION_TIME : ℤ := 10 * 60

def MAX_CACHE_SIZE : ℕ := 1000000

abbrev OrphanVotes := CacheMultiMap Uint256 VoteTimePair

inductive OrphanStep where
  /-- `ProcessVote` of a vote that is not known and whose object is unknown -/
  | orphan (vote : CGovernanceVote) (adjustedTime : ℤ)
  /-- `CheckOrphanVotes`; `processed` is the answer of the object's own `ProcessVote` -/
  | check (nHash : Uint256) (nNow : ℤ) (processed : CGovernanceVote → Bool)

def orphanPair (vote : CGovernanceVote) (adjustedTime : ℤ) : VoteTimePair :=
  (vote, adjustedTime + GOVERNANCE_ORPHAN_EXPIRATION_TIME)

def removes (nNow : ℤ) (processed : CGovernanceVote → Bool) (pairVote : VoteTimePair) : Bool :=
  decide (pairVote.2 < nNow) || processed pairVote.1

def checkOrphanVotes (votes : OrphanVotes) (nHash : Uint256) (nNow : ℤ)
    (processed : CGovernanceVote → Bool) : OrphanVotes :=
  (votes.getAll nHash).foldl (fun votes pairVote =>
    if removes nNow processed pairVote then votes.eraseValue lessPair nHash pairVote else votes) votes

def step (votes : OrphanVotes) : OrphanStep → Except Unit OrphanVotes
  | .orphan vote adjustedTime =>
    exec lessPair votes (.insert vote.nParentHash (orphanPair vote adjustedTime))
  | .check nHash nNow processed => .ok (checkOrphanVotes votes nHash nNow processed)

def waiting (votes : List (Uint256 × VoteTimePair)) : OrphanStep → List (Uint256 × VoteTimePair)
  | .orphan vote adjustedTime => (vote.nParentHash, orphanPair vote adjustedTime) :: votes
  | .check nHash nNow processed =>
    votes.filter fun p => !(decide (p.1 = nHash) && removes nNow processed p.2)

/-- No other vote for the object waits. -/
def Apart (votes : OrphanVotes) : OrphanStep → Prop
  | .orphan vote _ => ∀ w, (vote.nParentHash, w) ∉ votes.items
  | .check _ _ _ => True

def isOrphan : OrphanStep → Bool
  | .orphan _ _ => true
  | .check _ _ _ => false

theorem lessVote_eq_false (v w : CGovernanceVote) : lessVote v w = false := by
  unfold lessVote
  by_cases same : v.smartnodeOutpoint = w.smartnodeOutpoint
  · simp [same, COutPoint.lt]
  · simp [same]

theorem equivalent_lessPair (p1 p2 : VoteTimePair) : equivalent lessPair p1 p2 = true := by
  simp [equivalent, lessPair, lessVote_eq_false]

theorem ordered_lessPair : Ordered lessPair :=
  ⟨fun _ => equivalent_lessPair _ _, fun _ => equivalent_lessPair _ _,
    fun _ _ => equivalent_lessPair _ _⟩

variable {votes : OrphanVotes} {M : ℕ}

theorem foldl_eraseValue (remove : VoteTimePair → Bool) (nHash : Uint256) (pairs : List VoteTimePair)
    (inv : Inv lessPair votes) :
    let after := pairs.foldl (fun votes pair =>
      if remove pair then votes.eraseValue lessPair nHash pair else votes) votes
    Inv lessPair after ∧ after.nMaxSize = votes.nMaxSize ∧ after.items = votes.items.filter fun p =>
      !(decide (p.1 = nHash) && pairs.any remove) := by
  induction pairs generalizing votes with
  | nil => exact ⟨inv, rfl, by simp⟩
  | cons pair pairs ih =>
    by_cases hr : remove pair = true
    · obtain ⟨inv', max, items⟩ := inv.eraseValue ordered_lessPair nHash pair
      obtain ⟨inv'', max', items'⟩ := ih inv'
      simp only [List.foldl_cons, hr, if_true]
      refine ⟨inv'', max'.trans max, items'.trans ?_⟩
      rw [items, List.filter_filter]
      refine List.filter_congr fun p _ => ?_
      cases decide (p.1 = nHash) <;> simp [hr, equivalent_lessPair]
    · simpa [hr] using ih inv

theorem checkOrphanVotes_spec (inv : Inv lessPair votes) (nHash : Uint256) (nNow : ℤ)
    (processed : CGovernanceVote → Bool) :
    let after := checkOrphanVotes votes nHash nNow processed
    Inv lessPair after ∧ after.nMaxSize = votes.nMaxSize ∧
      after.items = waiting votes.items (.check nHash nNow processed) := by
  obtain ⟨inv', max, items⟩ :=
    foldl_eraseValue (removes nNow processed) nHash (votes.getAll nHash) inv
  refine ⟨inv', max, items.trans (List.filter_congr ?_)⟩
  rintro ⟨k, pair⟩ mem
  by_cases hk : k = nHash
  · subst hk
    -- the pair is the only one that waits for its object
    have only : ∀ other ∈ votes.getAll k, other = pair := by
      intro other hother
      obtain ⟨n, hn⟩ := mem_items.mp mem
      obtain ⟨n', hn'⟩ := mem_items.mp (inv.mem_getAll.mp hother)
      exact congrArg CacheItem.value (inv.distinct _ hn' _ hn rfl (equivalent_lessPair _ _))
    have any : (votes.getAll k).any (removes nNow processed) = removes nNow processed pair := by
      rw [Bool.eq_iff_iff, List.any_eq_true]
      exact ⟨fun ⟨other, hother, hr⟩ => only other hother ▸ hr,
        fun hr => ⟨pair, inv.mem_getAll.mpr mem, hr⟩⟩
    simp only [any]
  · simp [hk]

theorem run_waiting (inv : Inv lessPair votes) (max : votes.nMaxSize = M) (steps : List OrphanStep)
    (few : votes.items.length + steps.countP isOrphan < M)
    (apart : Steps.Permitted step Apart votes steps) :
    ∃ after, steps.foldlM step votes = .ok after ∧ after.items = steps.foldl waiting votes.items := by
  induction steps generalizing votes with
  | nil => exact ⟨votes, rfl, rfl⟩
  | cons s steps ih =>
    have next : ∃ after, step votes s = .ok after ∧ Inv lessPair after ∧ after.nMaxSize = M ∧
        after.items = waiting votes.items s := by
      cases s with
      | orphan vote adjustedTime =>
        have length : votes.items.length = votes.listItems.length := List.length_map _
        rw [List.countP_cons_of_pos (by rfl)] at few
        have room : votes.listItems.length ≠ votes.nMaxSize := by omega
        obtain ⟨after, ok, inv', max', items⟩ := inv.insert ordered_lessPair (by omega)
          (fun w mem => absurd mem (apart.1 w))
          (fun dangles => room dangles.1)
        rw [if_neg room] at items
        exact ⟨after, by simp only [step, exec, ok], inv', max'.trans max, items⟩
      | check nHash nNow processed =>
        obtain ⟨inv', max', items⟩ := checkOrphanVotes_spec inv nHash nNow processed
        exact ⟨_, rfl, inv', max'.trans max, items⟩
    obtain ⟨after, ok, inv', max', items⟩ := next
    have fewer : after.items.length + steps.countP isOrphan < M := by
      rw [items]
      cases s with
      | orphan vote adjustedTime =>
        rw [List.countP_cons_of_pos (by rfl)] at few
        simp only [waiting, List.length_cons]
        omega
      | check nHash nNow processed =>
        rw [List.countP_cons_of_neg (by simp [isOrphan])] at few
        have := List.length_filter_le (fun p : Uint256 × VoteTimePair =>
          !(decide (p.1 = nHash) && removes nNow processed p.2)) votes.items
        simp only [waiting]
        omega
    obtain ⟨last, run, kept⟩ := ih inv' max' fewer (apart.2 after ok)
    exact ⟨last, by rw [List.foldlM_cons, ok]; exact run, by rw [kept, items]; rfl⟩

/-- No vote compares less than another. Nevertheless all are kept, if each comes when none waits for
its object. -/
theorem run_orphanVotes (steps : List OrphanStep) (few : steps.countP isOrphan < MAX_CACHE_SIZE)
    (apart : Steps.Permitted step Apart (empty MAX_CACHE_SIZE) steps) :
    (∀ v w, lessVote v w = false) ∧ ∃ votes, steps.foldlM step (empty MAX_CACHE_SIZE) = .ok votes ∧
      votes.items = steps.foldl waiting [] :=
  ⟨lessVote_eq_false, run_waiting (inv_empty MAX_CACHE_SIZE) rfl steps
    (by simpa [items, empty] using few) apart⟩

def toyVote (smartnode parent : Uint256) : CGovernanceVote := ⟨⟨smartnode, 0⟩, parent, 1, 1, 100⟩

/-- Votes for two objects, of which one has been processed before its second vote comes. -/
def toySteps : List OrphanStep :=
  [.orphan (toyVote 1 7) 500, .orphan (toyVote 1 8) 500, .check 7 600 fun _ => true,
    .orphan (toyVote 2 7) 601]

theorem run_orphanVotes_toySteps : ∃ votes,
    toySteps.foldlM step (empty MAX_CACHE_SIZE) = .ok votes ∧
      votes.items = [(7, toyVote 2 7, 1201), (8, toyVote 1 8, 1100)] := by
  refine (run_orphanVotes toySteps (by decide) ?_).2
  refine ⟨fun w mem => absurd mem List.not_mem_nil, fun votes h => ?_⟩
  obtain rfl := Except.ok.inj h
  refine ⟨fun w mem => ?_, fun votes h => ?_⟩
  · cases List.mem_singleton.mp mem
  obtain rfl := Except.ok.inj h
  refine ⟨trivial, fun votes h => ?_⟩
  obtain rfl := Except.ok.inj h
  refine ⟨fun w mem => ?_, fun _ _ => trivial⟩
  cases List.mem_singleton.mp mem

/-- Votes of two smartnodes for one object: the second is dropped, whenever it came. -/
theorem run_orphanVotes_oneObject :
    toyVote 1 7 ≠ toyVote 2 7 ∧ lessVote (toyVote 1 7) (toyVote 2 7) = false ∧
      lessVote (toyVote 2 7) (toyVote 1 7) = false ∧
      ([.orphan (toyVote 1 7) 500, .orphan (toyVote 2 7) 501].foldlM step (empty MAX_CACHE_SIZE)).map
        items = .ok [(7, toyVote 1 7, 1100)] := by
  decide +kernel

end ButCore.Governance
