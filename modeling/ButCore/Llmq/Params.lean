import ButCore.Lib.Steps
import ButCore.Primitives

/-!
# The LLMQ parameters in force

`consensus.llmqs` and the function that replaces its entries when the number of smartnodes crosses
5, 100 or 600.
-/
namespace ButCore.Consensus

def LLMQ_50_60 : LLMQType := 1
def LLMQ_400_60 : LLMQType := 2
def LLMQ_400_85 : LLMQType := 3
def LLMQ_5_60 : LLMQType := 100

structure LLMQParams where
  type : LLMQType
  name : String
  size : ℕ
  minSize : ℕ
  threshold : ℕ
  dkgInterval : ℕ
  dkgPhaseBlocks : ℕ
  dkgMiningWindowStart : ℕ
  dkgMiningWindowEnd : ℕ
  dkgBadVotesThreshold : ℕ
  signingActiveQuorumCount : ℕ
  keepOldConnections : ℕ
  deriving DecidableEq

/-! ### The parameter sets

The order is that of the fields: type, name, size, minSize, threshold; dkgInterval, dkgPhaseBlocks,
dkgMiningWindowStart, dkgMiningWindowEnd, dkgBadVotesThreshold; signingActiveQuorumCount,
keepOldConnections. -/

def llmq200_2 : LLMQParams := ⟨LLMQ_50_60, "llmq_3_200", 200, 2, 2, 30, 2, 10, 18, 8, 2, 3⟩
def llmq3_60 : LLMQParams := ⟨LLMQ_50_60, "llmq_3_60", 3, 2, 2, 30, 2, 10, 18, 8, 2, 3⟩
def llmq10_60 : LLMQParams := ⟨LLMQ_50_60, "llmq_10_60", 10, 8, 7, 30, 2, 10, 18, 8, 6, 7⟩
def llmq50_60 : LLMQParams := ⟨LLMQ_50_60, "llmq_50_60", 50, 40, 30, 30, 2, 10, 18, 40, 24, 25⟩

def llmq20_60 : LLMQParams :=
  ⟨LLMQ_400_60, "llmq_20_60", 20, 15, 12, 30 * 12, 4, 20, 28, 30, 4, 5⟩
def llmq40_60 : LLMQParams :=
  ⟨LLMQ_400_60, "llmq_40_60", 40, 30, 24, 30 * 12, 4, 20, 28, 30, 4, 5⟩
def llmq400_60 : LLMQParams :=
  ⟨LLMQ_400_60, "llmq_400_60", 400, 300, 240, 30 * 12, 4, 20, 28, 300, 4, 5⟩

def llmq20_85 : LLMQParams :=
  ⟨LLMQ_400_85, "llmq_20_85", 20, 18, 17, 30 * 24, 4, 20, 48, 30, 4, 5⟩
def llmq40_85 : LLMQParams :=
  ⟨LLMQ_400_85, "llmq_40_85", 40, 35, 34, 30 * 24, 4, 20, 48, 30, 4, 5⟩
def llmq400_85 : LLMQParams :=
  ⟨LLMQ_400_85, "llmq_400_85", 400, 350, 340, 30 * 24, 4, 20, 48, 300, 4, 5⟩

/-- `std::map<LLMQType, LLMQParams>`, in the order of its keys. -/
abbrev LLMQs := List (LLMQType × LLMQParams)

namespace LLMQs

def assign (key : LLMQType) (params : LLMQParams) : LLMQs → LLMQs
  | [] => [(key, params)]
  | entry :: rest =>
    if key = entry.1 then (key, params) :: rest
    else if key < entry.1 then (key, params) :: entry :: rest
    else entry :: assign key params rest

def main : LLMQs :=
  [(LLMQ_50_60, llmq3_60), (LLMQ_400_60, llmq20_60), (LLMQ_400_85, llmq20_85)]

def test : LLMQs :=
  [(LLMQ_50_60, llmq50_60), (LLMQ_400_60, llmq400_60), (LLMQ_400_85, llmq400_85)]

def regtest : LLMQs := [(LLMQ_50_60, llmq50_60), (LLMQ_5_60, llmq3_60)]

end LLMQs

def isMiningPhase (params : LLMQParams) (nHeight : ℤ) : Bool :=
  let phaseIndex := nHeight.tmod params.dkgInterval
  decide (params.dkgMiningWindowStart ≤ phaseIndex) && decide (phaseIndex ≤ params.dkgMiningWindowEnd)

def isLLMQsMiningPhase (llmqs : LLMQs) (nHeight : ℤ) : Bool :=
  llmqs.any fun entry => isMiningPhase entry.2 nHeight

/-- The static variables of `UpdateLLMQParams` and the map it writes. -/
structure ParamsState where
  lastCheckMnCount : ℕ
  lastCheckHeight : ℤ
  lastCheckedLowLLMQParams : Bool
  llmqs : LLMQs
  deriving DecidableEq

def ParamsState.atStart (llmqs : LLMQs) : ParamsState := ⟨0, 0, false, llmqs⟩

def llmqsFor (totalMnCount : ℕ) (lowLLMQParams : Bool) (llmqs : LLMQs) : LLMQs :=
  let llmqs :=
    if totalMnCount < 5 then
      llmqs.assign LLMQ_50_60 llmq3_60 |>.assign LLMQ_400_60 llmq20_60 |>.assign LLMQ_400_85 llmq20_85
    else if totalMnCount < 100 then
      llmqs.assign LLMQ_50_60 llmq10_60 |>.assign LLMQ_400_60 llmq20_60 |>.assign LLMQ_400_85 llmq20_85
    else if totalMnCount < 600 then
      llmqs.assign LLMQ_50_60 llmq50_60 |>.assign LLMQ_400_60 llmq40_60 |>.assign LLMQ_400_85 llmq40_85
    else
      llmqs.assign LLMQ_50_60 llmq50_60 |>.assign LLMQ_400_60 llmq400_60
        |>.assign LLMQ_400_85 llmq400_85
  if lowLLMQParams then llmqs.assign LLMQ_50_60 llmq200_2 else llmqs

/-- The condition under which `UpdateLLMQParams` acts. -/
def updateDue (st : ParamsState) (totalMnCount : ℕ) (height : ℤ) (lowLLMQParams : Bool) : Bool :=
  decide (st.lastCheckHeight < height) &&
    (decide (st.lastCheckMnCount ≠ totalMnCount) ||
      decide (st.lastCheckedLowLLMQParams ≠ lowLLMQParams)) &&
    !isLLMQsMiningPhase st.llmqs height

def updateLLMQParams (st : ParamsState) (totalMnCount : ℕ) (height : ℤ) (lowLLMQParams : Bool) :
    ParamsState :=
  if updateDue st totalMnCount height lowLLMQParams then
    { lastCheckMnCount := totalMnCount
      lastCheckHeight := height
      lastCheckedLowLLMQParams := lowLLMQParams
      llmqs := llmqsFor totalMnCount lowLLMQParams st.llmqs }
  else st

variable {totalMnCount : ℕ} {st : ParamsState} {height : ℤ} {low : Bool}

theorem updateDue_lt (due : updateDue st totalMnCount height low = true) : st.lastCheckHeight < height := by
  simp only [updateDue, Bool.and_eq_true, decide_eq_true_eq] at due
  exact due.1.1

theorem updateLLMQParams_of_not_due (quiet : updateDue st totalMnCount height low = false) :
    updateLLMQParams st totalMnCount height low = st := by
  unfold updateLLMQParams
  rw [if_neg (by simp [quiet])]

theorem updateLLMQParams_lastCheckHeight (due : updateDue st totalMnCount height low = true) :
    (updateLLMQParams st totalMnCount height low).lastCheckHeight = height := by
  unfold updateLLMQParams
  rw [if_pos due]

theorem updateDue_of_le (checked : height ≤ st.lastCheckHeight) : updateDue st totalMnCount height low = false := by
  cases due : updateDue st totalMnCount height low with
  | false => rfl
  | true => exact absurd (updateDue_lt due) (not_lt.mpr checked)

/-! ### The stored lists

A block is known by its branch: its hash and those of its ancestors, down to genesis. -/

abbrev Branch := List Uint256

abbrev ByBranch (α : Type) := Branch → Option α

/-- What a history depends on: how a block changes a list, and differences of lists. -/
structure ListEnv (L D : Type) where
  genesis : Uint256
  dip0003Enabled : Bool
  llmqs : LLMQs
  empty : L
  /-- the list of a branch, made from the one below -/
  build : L → Branch → L
  buildDiff : L → L → D
  applyDiff : L → D → L
  hasChanges : D → Bool
  allMNsCount : L → ℕ
  applyDiff_buildDiff : ∀ old new, (if hasChanges (buildDiff old new) then
    applyDiff old (buildDiff old new) else old) = new

def SNAPSHOT_LIST_PERIOD : ℕ := 576
def LISTS_CACHE_SIZE : ℕ := 576

/-- The entries of the database, and the lists with their heights in memory. -/
structure ListState (L D : Type) where
  params : ParamsState
  diffs : ByBranch D
  snapshots : ByBranch (L × ℤ)
  mnListsCache : ByBranch (L × ℤ)

section

variable {L D : Type} (env : ListEnv L D) (low : Bool) (s : ListState L D)

/-- The loops of `GetListForBlock`: down to a list that is there, or to a block without a difference,
and up again. The second component is the cache. -/
def findList : Branch → (ByBranch (L × ℤ)) →
    (L × ℤ) × (ByBranch (L × ℤ))
  | [], cache => ((env.empty, -1), cache)
  | hash :: below, cache =>
    match cache (hash :: below) with
    | some list => (list, cache)
    | none =>
      let r := match s.snapshots (hash :: below), s.diffs (hash :: below) with
        | some list, _ => (list, cache)
        | none, none => ((env.empty, -1), cache)
        | none, some diff =>
          let r := findList below cache
          ((if env.hasChanges diff then env.applyDiff r.1.1 diff else r.1.1, below.length), r.2)
      (r.1, Function.update r.2 (hash :: below) (some r.1))

def getListForBlock (branch : Branch) : (L × ℤ) × ListState L D :=
  let r := findList env s branch s.mnListsCache
  (r.1, { s with
    params := updateLLMQParams s.params (env.allMNsCount r.1.1) r.1.2 low
    mnListsCache := r.2 })

variable (chain : Branch)

/-- `HandleQuorumCommitment` looks up the members of quorums whose first blocks are so many blocks
below the tip. -/
def handleQuorumCommitments (quorums : List ℕ) : ListState L D :=
  quorums.foldl (fun s depth => (getListForBlock env low s (chain.drop depth)).2) s

def buildNewListFromBlock (hash : Uint256) (quorums : List ℕ) : L × ListState L D :=
  let r := getListForBlock env low s chain
  let s := handleQuorumCommitments env low r.2 chain quorums
  let newList := env.build r.1.1 (hash :: chain)
  (newList, { s with
    params := updateLLMQParams s.params (env.allMNsCount newList) chain.length low })

def cleanupCache (nHeight : ℤ) (cache : ByBranch (L × ℤ)) :
    ByBranch (L × ℤ) :=
  fun branch => (cache branch).filter fun list => !decide (list.2 + LISTS_CACHE_SIZE < nHeight)

/-- What `ProcessBlock` writes for the block on top of `chain`. -/
def writeList (hash : Uint256) (oldList : L × ℤ) (newList : L) : ListState L D :=
  { s with
    diffs := Function.update s.diffs (hash :: chain) (some (env.buildDiff oldList.1 newList))
    snapshots := if chain.length % SNAPSHOT_LIST_PERIOD = 0 ∨ oldList.2 = -1 then
        Function.update s.snapshots (hash :: chain) (some (newList, chain.length))
      else s.snapshots
    mnListsCache := cleanupCache chain.length s.mnListsCache }

/-- `ProcessBlock`, and the second list that the check of the roots builds. -/
def processBlock (hash : Uint256) (quorums : List ℕ) (checkRoots : Bool) : ListState L D :=
  if env.dip0003Enabled then
    let new := buildNewListFromBlock env low s chain hash quorums
    let old := getListForBlock env low new.2 chain
    let s := writeList env old.2 chain hash old.1 new.1
    if checkRoots then (buildNewListFromBlock env low s chain hash quorums).2 else s
  else s

def undoBlock : ListState L D :=
  let s := if (s.diffs chain).any env.hasChanges then
      (getListForBlock env low (getListForBlock env low s chain).2 chain.tail).2
    else s
  { s with
    diffs := Function.update s.diffs chain none
    snapshots := Function.update s.snapshots chain none
    mnListsCache := Function.update s.mnListsCache chain none }

end

/-! ### Histories -/

structure History (L D : Type) where
  chain : Branch
  lists : ListState L D

inductive Event where
  /-- A block on the tip, its coinbase with or without the roots that are checked. When it fails
  later in `ConnectBlock`, the database is rolled back. -/
  | connect (hash : Uint256) (quorums : List ℕ) (checkRoots accepted : Bool)
  /-- A template, or a block that is only checked. -/
  | check (hash : Uint256) (quorums : List ℕ)
  | query (branch : Branch)
  | disconnect
  | restart

section

variable {L D : Type}

/-- The second component is the value of the spork at the time of the event. -/
def Event.apply (env : ListEnv L D) (s : History L D) : Event × Bool → History L D
  | (connect hash quorums checkRoots accepted, low) =>
    let lists := processBlock env low s.lists s.chain hash quorums checkRoots
    if accepted then ⟨hash :: s.chain, lists⟩
    else ⟨s.chain, { lists with diffs := s.lists.diffs, snapshots := s.lists.snapshots }⟩
  | (check hash quorums, low) => if env.dip0003Enabled then
      { s with lists := (buildNewListFromBlock env low s.lists s.chain hash quorums).2 } else s
  | (query branch, low) => { s with lists := (getListForBlock env low s.lists branch).2 }
  | (disconnect, low) =>
    if s.chain.length ≤ 1 then s else ⟨s.chain.tail, undoBlock env low s.lists s.chain⟩
  | (restart, _) =>
    { s with lists := { s.lists with params := .atStart env.llmqs, mnListsCache := fun _ => none } }

def History.start (env : ListEnv L D) : History L D :=
  ⟨[env.genesis], ⟨.atStart env.llmqs, fun _ => none, fun _ => none, fun _ => none⟩⟩

def History.after (env : ListEnv L D) (events : List (Event × Bool)) : History L D :=
  Steps.run (Event.apply env) (History.start env) events

end

/-! ### Lists that belong to their blocks -/

section

variable {L D : Type} (env : ListEnv L D)

def listOf : Branch → L
  | [] => env.empty
  | hash :: below => if below = [] then env.empty else env.build (listOf below) (hash :: below)

/-- The lists of the active chain are stored, without that of genesis. -/
def Stored (chain branch : Branch) : Prop :=
  env.dip0003Enabled = true ∧ branch <:+ chain ∧ 1 < branch.length

instance (chain branch : Branch) : Decidable (Stored env chain branch) :=
  inferInstanceAs (Decidable (_ ∧ _))

/-- For a block whose list is not stored, the list is empty and has the height -1. -/
def listEntry (chain branch : Branch) : L × ℤ :=
  if Stored env chain branch then (listOf env branch, branch.length - 1) else (env.empty, -1)

/-- The database holds what belongs to the block. -/
structure Readable (chain branch : Branch) (diff : Option D) (snapshot : Option (L × ℤ)) :
    Prop where
  diff : diff = if Stored env chain branch then
    some (env.buildDiff (listOf env branch.tail) (listOf env branch)) else none
  snapshot : ∀ list, snapshot = some list →
    Stored env chain branch ∧ list = listEntry env chain branch

def CacheRight (chain : Branch) (cache : ByBranch (L × ℤ)) : Prop :=
  ∀ branch list, cache branch = some list → list = listEntry env chain branch

/-- What a lookup for `branch` leaves when it finds its list and a cache that is right. -/
structure Found (chain branch : Branch) (cache : ByBranch (L × ℤ))
    (r : (L × ℤ) × (ByBranch (L × ℤ))) : Prop where
  list : r.1 = listEntry env chain branch
  right : CacheRight env chain r.2
  kept : ∀ other, ¬ other <:+ branch → r.2 other = cache other

variable {env} {chain branch : Branch} {s : ListState L D}
  {cache : ByBranch (L × ℤ)}

theorem Found.enter {r : (L × ℤ) × (ByBranch (L × ℤ))}
    (found : Found env chain branch cache r) :
    Found env chain branch cache (r.1, Function.update r.2 branch (some r.1)) := by
  refine ⟨found.list, fun other list h => ?_, fun other apart => ?_⟩
  · by_cases same : other = branch
    · subst same
      rw [← found.list]
      exact Option.some.inj (h.symm.trans (Function.update_self _ _ _))
    · exact found.right other list ((Function.update_of_ne same _ _).symm.trans h)
  · have different : other ≠ branch := fun same => apart (by rw [same])
    exact (Function.update_of_ne different _ _).trans (found.kept other apart)

theorem listEntry_fst (enabled : env.dip0003Enabled = true) (suffix : branch <:+ chain) :
    (listEntry env chain branch).1 = listOf env branch := by
  unfold listEntry
  split
  · rfl
  · next unstored =>
      -- on the chain only genesis has no list
      have short : ¬ 1 < branch.length := fun long => unstored ⟨enabled, suffix, long⟩
      cases branch with
      | nil => rfl
      | cons _ rest =>
        have : rest = [] := by simpa using short
        simp [listOf, this]

theorem findList_found (readable : ∀ other, other <:+ branch →
      Readable env chain other (s.diffs other) (s.snapshots other))
    (right : CacheRight env chain cache) :
    Found env chain branch cache (findList env s branch cache) := by
  induction branch with
  | nil =>
    refine ⟨?_, right, fun _ _ => rfl⟩
    rw [listEntry, if_neg (fun stored => absurd stored.2.2 (by simp))]
    rfl
  | cons hash below ih =>
    obtain ⟨diffs, snapshots⟩ := readable _ (List.suffix_refl _)
    have inner := ih fun other suffix => readable other (suffix.trans (List.suffix_cons _ _))
    unfold findList
    split
    · next list found => exact ⟨right _ _ found, right, fun _ _ => rfl⟩
    · refine Found.enter ?_
      split
      · next snapshot => exact ⟨(snapshots _ snapshot).2, right, fun _ _ => rfl⟩
      · next diff =>
        rw [diff, eq_comm, ite_eq_right_iff] at diffs
        exact ⟨(if_neg fun stored => nomatch diffs stored).symm, right, fun _ _ => rfl⟩
      · next diff =>
        rw [diff] at diffs
        split at diffs
        · next stored =>
          obtain rfl := Option.some.inj diffs
          refine ⟨?_, inner.right, fun other apart => inner.kept other fun suffix =>
            apart (suffix.trans (List.suffix_cons _ _))⟩
          dsimp only
          rw [inner.list, List.tail_cons,
            listEntry_fst stored.1 ((List.suffix_cons hash below).trans stored.2.1),
            env.applyDiff_buildDiff, listEntry, if_pos stored]
          simp
        · cases diffs

end

/-! ### Histories that follow the chain -/

section

variable {L D : Type} (env : ListEnv L D) (low : Bool)

/-- The parameters after a lookup that finds the right list. -/
def lookUp (chain branch : Branch) (st : ParamsState) : ParamsState :=
  updateLLMQParams st (env.allMNsCount (listEntry env chain branch).1)
    (listEntry env chain branch).2 low

/-- No lookup of a right list changes the parameters. -/
def Stable (chain : Branch) (st : ParamsState) : Prop :=
  ∀ branch, lookUp env low chain branch st = st

/-- The parameters after one update for each block above genesis, in the order of the chain. -/
def replay : Branch → ParamsState
  | [] => .atStart env.llmqs
  | hash :: below =>
    if env.dip0003Enabled ∧ below ≠ [] then
      updateLLMQParams (replay below) (env.allMNsCount (listOf env (hash :: below))) below.length low
    else replay below

theorem replay_cons_cases (hash : Uint256) (below : Branch) :
    replay env low (hash :: below) = replay env low below ∨
      below ≠ [] ∧ (replay env low (hash :: below)).lastCheckHeight = below.length := by
  rw [replay]
  split
  · next stored =>
      cases due : updateDue (replay env low below) (env.allMNsCount (listOf env (hash :: below)))
          below.length low with
      | false => exact .inl (updateLLMQParams_of_not_due due)
      | true => exact .inr ⟨stored.2, updateLLMQParams_lastCheckHeight due⟩
  · exact .inl rfl

theorem replay_lastCheckHeight_nonneg (chain : Branch) :
    0 ≤ (replay env low chain).lastCheckHeight := by
  induction chain with
  | nil => exact le_refl 0
  | cons hash below ih =>
    obtain same | ⟨-, checked⟩ := replay_cons_cases env low hash below
    · rw [same]
      exact ih
    · rw [checked]
      exact Int.natCast_nonneg _

variable {env low}
variable {chain branch : Branch} {s : ListState L D}

theorem replay_not_due (enabled : env.dip0003Enabled = true) (suffix : branch <:+ chain)
    (above : 1 < branch.length) :
    updateDue (replay env low chain) (env.allMNsCount (listOf env branch)) (branch.length - 1) low =
      false := by
  induction chain with
  | nil =>
    rw [List.suffix_nil.mp suffix] at above
    exact absurd above (by simp)
  | cons hash below ih =>
    obtain rfl | suffix := List.suffix_cons_iff.mp suffix
    · have stored : env.dip0003Enabled = true ∧ below ≠ [] :=
        ⟨enabled, by rintro rfl; exact absurd above (by simp)⟩
      have height : (((hash :: below).length : ℤ) - 1) = below.length := by simp
      rw [height, replay, if_pos stored]
      cases due : updateDue (replay env low below) (env.allMNsCount (listOf env (hash :: below)))
          below.length low with
      | false => rw [updateLLMQParams_of_not_due due, due]
      | true => exact updateDue_of_le (updateLLMQParams_lastCheckHeight due).ge
    · obtain same | ⟨-, checked⟩ := replay_cons_cases env low hash below
      · rw [same]
        exact ih suffix
      · refine updateDue_of_le ?_
        have := suffix.length_le
        omega

theorem lookUp_replay (chain branch : Branch) :
    lookUp env low chain branch (replay env low chain) = replay env low chain := by
  unfold lookUp listEntry
  split
  · next stored =>
      exact updateLLMQParams_of_not_due (replay_not_due stored.1 stored.2.1 stored.2.2)
  · have := replay_lastCheckHeight_nonneg env low chain
    exact updateLLMQParams_of_not_due (updateDue_of_le (by dsimp only; omega))

/-- What a lookup below the block does not change when nothing was due, it does not change after the
update for the block either: the update has moved the checked height above it. -/
theorem lookUp_updated (chain branch : Branch) (totalMnCount : ℕ) :
    lookUp env low chain branch
        (updateLLMQParams (replay env low chain) totalMnCount chain.length low) =
      updateLLMQParams (replay env low chain) totalMnCount chain.length low := by
  cases due : updateDue (replay env low chain) totalMnCount chain.length low with
  | false => rw [updateLLMQParams_of_not_due due, lookUp_replay]
  | true =>
    have checked := updateLLMQParams_lastCheckHeight due
    unfold lookUp listEntry
    split
    · next stored =>
        have := stored.2.1.length_le
        exact updateLLMQParams_of_not_due (updateDue_of_le (by dsimp only; omega))
    · exact updateLLMQParams_of_not_due (updateDue_of_le (by dsimp only; omega))

theorem updateLLMQParams_idem (st : ParamsState) (totalMnCount : ℕ) (height : ℤ) (low : Bool) :
    updateLLMQParams (updateLLMQParams st totalMnCount height low) totalMnCount height low =
      updateLLMQParams st totalMnCount height low := by
  cases due : updateDue st totalMnCount height low with
  | false => rw [updateLLMQParams_of_not_due due, updateLLMQParams_of_not_due due]
  | true =>
    exact updateLLMQParams_of_not_due (updateDue_of_le (updateLLMQParams_lastCheckHeight due).ge)

theorem replay_tail (kept : (replay env low chain).lastCheckHeight < chain.length - 1) :
    replay env low chain.tail = replay env low chain := by
  cases chain with
  | nil => rfl
  | cons hash below =>
    obtain same | ⟨-, checked⟩ := replay_cons_cases env low hash below
    · exact same.symm
    · rw [checked] at kept
      simp at kept

theorem replay_eq_atStart (unchanged : (replay env low chain).lastCheckHeight = 0) :
    replay env low chain = .atStart env.llmqs := by
  induction chain with
  | nil => rfl
  | cons hash below ih =>
    obtain same | ⟨nonempty, checked⟩ := replay_cons_cases env low hash below
    · rw [same] at unchanged ⊢
      exact ih unchanged
    · have := List.length_pos_iff.mpr nonempty
      omega

variable (low)

theorem getListForBlock_found (readable : ∀ other, other <:+ branch →
      Readable env chain other (s.diffs other) (s.snapshots other))
    (right : CacheRight env chain s.mnListsCache) :
    let r := getListForBlock env low s branch
    Found env chain branch s.mnListsCache (r.1, r.2.mnListsCache) ∧
      r.2.params = lookUp env low chain branch s.params := by
  have found := findList_found readable right
  refine ⟨found, ?_⟩
  show updateLLMQParams _ _ _ _ = _
  rw [found.list]
  rfl

/-- A state within the calls for the block `hash` on top of `chain`: what is in the database, with the
lists of the chain as they should be, and what the cache has for the block. -/
structure OnChain (env : ListEnv L D) (chain : Branch) (hash : Uint256)
    (diffs : ByBranch D) (snapshots : ByBranch (L × ℤ))
    (top : Option (L × ℤ)) (s : ListState L D) : Prop where
  diffs : s.diffs = diffs
  snapshots : s.snapshots = snapshots
  readable : ∀ other, other <:+ chain →
    Readable env chain other (s.diffs other) (s.snapshots other)
  right : CacheRight env chain s.mnListsCache
  top : s.mnListsCache (hash :: chain) = top

variable {hash : Uint256} {top : Option (L × ℤ)} {diffs : ByBranch D}
  {snapshots : ByBranch (L × ℤ)}

theorem not_cons_suffix (hash : Uint256) (chain : Branch) : ¬ hash :: chain <:+ chain :=
  fun suffix => absurd suffix.length_le (by simp)

namespace OnChain

variable (on : OnChain env chain hash diffs snapshots top s)

include on

theorem getListForBlock (stable : Stable env low chain s.params) (suffix : branch <:+ chain) :
    (Consensus.getListForBlock env low s branch).1 = listEntry env chain branch ∧
    (Consensus.getListForBlock env low s branch).2.params = s.params ∧
    OnChain env chain hash diffs snapshots top (Consensus.getListForBlock env low s branch).2 := by
  obtain ⟨rfl, rfl, readable, right, rfl⟩ := on
  obtain ⟨found, params⟩ := getListForBlock_found low
    (fun other below => readable other (below.trans suffix)) right
  exact ⟨found.list, params.trans (stable branch), rfl, rfl, readable, found.right,
    found.kept _ fun above => not_cons_suffix hash chain (above.trans suffix)⟩

theorem handleQuorumCommitments (stable : Stable env low chain s.params) (quorums : List ℕ) :
    (Consensus.handleQuorumCommitments env low s chain quorums).params = s.params ∧
      OnChain env chain hash diffs snapshots top
        (Consensus.handleQuorumCommitments env low s chain quorums) := by
  induction quorums generalizing s with
  | nil => exact ⟨rfl, on⟩
  | cons depth quorums ih =>
    obtain ⟨-, same, after⟩ := on.getListForBlock low stable (List.drop_suffix depth chain)
    obtain ⟨same', after'⟩ := ih after (same ▸ stable)
    exact ⟨same'.trans same, after'⟩

theorem buildNewListFromBlock (enabled : env.dip0003Enabled = true) (nonempty : chain ≠ [])
    (stable : Stable env low chain s.params) (quorums : List ℕ) :
    let r := Consensus.buildNewListFromBlock env low s chain hash quorums
    r.1 = listOf env (hash :: chain) ∧
      r.2.params = updateLLMQParams s.params (env.allMNsCount (listOf env (hash :: chain)))
        chain.length low ∧
      OnChain env chain hash diffs snapshots top r.2 := by
  obtain ⟨list, params, looked⟩ := on.getListForBlock low stable (List.suffix_refl _)
  obtain ⟨params', after⟩ := looked.handleQuorumCommitments low (params ▸ stable) quorums
  have new : (Consensus.buildNewListFromBlock env low s chain hash quorums).1 =
      listOf env (hash :: chain) := by
    show env.build (Consensus.getListForBlock env low s chain).1.1 _ = _
    rw [list, listEntry_fst enabled (List.suffix_refl _), listOf, if_neg nonempty]
  refine ⟨new, ?_, after.diffs, after.snapshots, after.readable, after.right, after.top⟩
  rw [← new, ← params, ← params']
  rfl

theorem writeList (oldList : L × ℤ) (newList : L) :
    OnChain env chain hash
      (Function.update diffs (hash :: chain) (some (env.buildDiff oldList.1 newList)))
      (if chain.length % SNAPSHOT_LIST_PERIOD = 0 ∨ oldList.2 = -1 then
        Function.update snapshots (hash :: chain) (some (newList, chain.length)) else snapshots)
      (top.filter fun list => !decide (list.2 + LISTS_CACHE_SIZE < chain.length))
      (Consensus.writeList env s chain hash oldList newList) := by
  obtain ⟨rfl, rfl, readable, right, rfl⟩ := on
  refine ⟨rfl, rfl, fun other suffix => ?_, fun other list h => ?_, rfl⟩
  · have different : other ≠ hash :: chain := by
      rintro rfl
      exact not_cons_suffix hash chain suffix
    have same := readable other suffix
    unfold Consensus.writeList
    dsimp only
    rw [Function.update_of_ne different]
    split
    · rwa [Function.update_of_ne different]
    · exact same
  · exact right other list (Option.filter_eq_some_iff.mp h).1

theorem processBlock (enabled : env.dip0003Enabled = true) (nonempty : chain ≠ [])
    (replayed : s.params = replay env low chain) (quorums : List ℕ) (checkRoots : Bool) :
    let r := Consensus.processBlock env low s chain hash quorums checkRoots
    r.params = replay env low (hash :: chain) ∧ OnChain env chain hash
      (Function.update diffs (hash :: chain)
        (some (env.buildDiff (listOf env chain) (listOf env (hash :: chain)))))
      (if chain.length % SNAPSHOT_LIST_PERIOD = 0 ∨ (listEntry env chain chain).2 = -1 then
        Function.update snapshots (hash :: chain) (some (listOf env (hash :: chain), chain.length))
        else snapshots)
      (top.filter fun list => !decide (list.2 + LISTS_CACHE_SIZE < chain.length)) r := by
  obtain ⟨new, params, built⟩ := on.buildNewListFromBlock low enabled nonempty
    (replayed ▸ fun branch => lookUp_replay chain branch) quorums
  rw [replayed] at params
  have updated : Stable env low chain (updateLLMQParams (replay env low chain) _ _ low) :=
    fun branch => lookUp_updated chain branch (env.allMNsCount (listOf env (hash :: chain)))
  have stable := updated
  rw [← params] at stable
  obtain ⟨old, params', looked⟩ := built.getListForBlock low stable (List.suffix_refl _)
  have written := looked.writeList (listEntry env chain chain) (listOf env (hash :: chain))
  rw [listEntry_fst enabled (List.suffix_refl _)] at written
  rw [params] at params'
  have next : replay env low (hash :: chain) = _ := if_pos ⟨enabled, nonempty⟩
  unfold Consensus.processBlock
  rw [if_pos enabled]
  dsimp only
  rw [old, new]
  cases checkRoots with
  | false => exact ⟨params'.trans next.symm, written⟩
  | true =>
    obtain ⟨-, params'', again⟩ := written.buildNewListFromBlock low enabled nonempty
      (show Stable env low chain (Consensus.getListForBlock env low _ chain).2.params from
        params' ▸ updated) quorums
    refine ⟨params''.trans ?_, again⟩
    change updateLLMQParams (Consensus.getListForBlock env low _ chain).2.params _ _ low = _
    rw [params', updateLLMQParams_idem, next]

end OnChain

/-! ### Every event keeps this -/

structure Coherent (env : ListEnv L D) (chain : Branch) (s : ListState L D) : Prop where
  readable : ∀ branch, Readable env chain branch (s.diffs branch) (s.snapshots branch)
  right : CacheRight env chain s.mnListsCache

theorem stored_cons (different : branch ≠ hash :: chain) :
    Stored env (hash :: chain) branch ↔ Stored env chain branch := by
  unfold Stored
  rw [List.suffix_cons_iff, or_iff_right different]

theorem listEntry_cons (different : branch ≠ hash :: chain) :
    listEntry env (hash :: chain) branch = listEntry env chain branch := by
  simp only [listEntry, stored_cons different]

theorem readable_cons {diff : Option D} {snapshot : Option (L × ℤ)}
    (different : branch ≠ hash :: chain) :
    Readable env (hash :: chain) branch diff snapshot ↔ Readable env chain branch diff snapshot := by
  constructor
  · rintro ⟨h, h'⟩
    simp only [stored_cons different, listEntry_cons different] at h h'
    exact ⟨h, h'⟩
  · rintro ⟨h, h'⟩
    simp only [← stored_cons different, ← listEntry_cons different] at h h'
    exact ⟨h, h'⟩

theorem Coherent.onChain (coherent : Coherent env chain s) (hash : Uint256) :
    OnChain env chain hash s.diffs s.snapshots (s.mnListsCache (hash :: chain)) s :=
  ⟨rfl, rfl, fun other _ => coherent.readable other, coherent.right, rfl⟩

theorem Coherent.getListForBlock (coherent : Coherent env chain s) (branch : Branch) :
    (getListForBlock env low s branch).2.params = lookUp env low chain branch s.params ∧
      Coherent env chain (getListForBlock env low s branch).2 := by
  obtain ⟨found, params⟩ := getListForBlock_found low
    (fun other (_ : other <:+ branch) => coherent.readable other) coherent.right
  exact ⟨params, coherent.readable, found.right⟩

variable {low}

theorem Coherent.connect (coherent : Coherent env chain s) (enabled : env.dip0003Enabled = true)
    (nonempty : chain ≠ []) (replayed : s.params = replay env low chain) (quorums : List ℕ)
    (checkRoots : Bool)
    (fresh : s.mnListsCache (hash :: chain) = none ∨ LISTS_CACHE_SIZE ≤ chain.length) :
    Coherent env (hash :: chain) (processBlock env low s chain hash quorums checkRoots) := by
  obtain ⟨-, on⟩ :=
    (coherent.onChain hash).processBlock low enabled nonempty replayed quorums checkRoots
  have stored : Stored env (hash :: chain) (hash :: chain) :=
    ⟨enabled, List.suffix_refl _, by simpa using List.length_pos_iff.mpr nonempty⟩
  have unstored : ¬ Stored env chain (hash :: chain) := fun h => not_cons_suffix hash chain h.2.1
  refine ⟨fun branch => ?_, fun branch list found => ?_⟩
  · rw [on.diffs, on.snapshots]
    have before := coherent.readable branch
    by_cases different : branch = hash :: chain
    · subst different
      refine ⟨by rw [Function.update_self, if_pos stored, List.tail_cons], fun list found => ?_⟩
      split at found
      · rw [Function.update_self, Option.some.injEq] at found
        exact ⟨stored, by rw [listEntry, if_pos stored, ← found]; simp⟩
      · exact absurd (before.snapshot list found).1 unstored
    · rw [Function.update_of_ne different, readable_cons different]
      split
      · rwa [Function.update_of_ne different]
      · exact before
  · by_cases different : branch = hash :: chain
    · -- an empty list for the block was never looked up, or is too old for the cache
      subst different
      rw [on.top] at found
      obtain ⟨cached, young⟩ := Option.filter_eq_some_iff.mp found
      rcases fresh with none | old
      · rw [none] at cached
        cases cached
      · rw [coherent.right _ _ cached, listEntry, if_neg unstored] at young
        simp at young
        omega
    · rw [listEntry_cons different]
      exact on.right branch list found

theorem Coherent.undone (coherent : Coherent env (hash :: chain) s) :
    Coherent env chain { s with
      diffs := Function.update s.diffs (hash :: chain) none
      snapshots := Function.update s.snapshots (hash :: chain) none
      mnListsCache := Function.update s.mnListsCache (hash :: chain) none } := by
  refine ⟨fun branch => ?_, fun branch list found => ?_⟩
  all_goals
    dsimp only at *
    by_cases different : branch = hash :: chain
  · subst different
    rw [Function.update_self, Function.update_self]
    exact ⟨(if_neg fun h => not_cons_suffix hash chain h.2.1).symm, fun _ h => by cases h⟩
  · rw [Function.update_of_ne different, Function.update_of_ne different]
    exact (readable_cons different).mp (coherent.readable branch)
  · subst different
    rw [Function.update_self] at found
    cases found
  · rw [Function.update_of_ne different] at found
    rw [← listEntry_cons different]
    exact coherent.right branch list found

theorem Coherent.of_disabled {chain' : Branch} (coherent : Coherent env chain s)
    (disabled : env.dip0003Enabled ≠ true) : Coherent env chain' s := by
  have unstored : ∀ chain branch, ¬ Stored env chain branch := fun _ _ h => disabled h.1
  refine ⟨fun branch => ?_, fun branch list found => ?_⟩
  · obtain ⟨diff, snapshot⟩ := coherent.readable branch
    rw [if_neg (unstored _ _)] at diff
    exact ⟨diff.trans (if_neg (unstored _ _)).symm,
      fun list found => absurd (snapshot list found).1 (unstored _ _)⟩
  · rw [coherent.right branch list found, listEntry, listEntry, if_neg (unstored _ _),
      if_neg (unstored _ _)]

end

/-- The history has left the parameters that replaying its chain leaves, and every list that can be
read belongs to its block. -/
structure Follows {L D : Type} (env : ListEnv L D) (low : Bool) (s : History L D) : Prop where
  nonempty : s.chain ≠ []
  replayed : s.lists.params = replay env low s.chain
  coherent : Coherent env s.chain s.lists

/-- No update is due for the block `hash` on the tip. -/
def Quiet {L D : Type} (env : ListEnv L D) (low : Bool) (s : History L D) (hash : Uint256) : Prop :=
  updateDue s.lists.params (env.allMNsCount (listOf env (hash :: s.chain))) s.chain.length low = false

/-- The spork has its one value. A block that is not connected changes no parameters, no block is
disconnected that changed them, and the node restarts only before the first change. A block for
which an empty list was looked up is connected only where that list is too old for the cache. -/
def Undisturbed {L D : Type} (env : ListEnv L D) (low : Bool) (s : History L D) :
    Event × Bool → Prop
  | (.connect hash _ _ true, spork) => spork = low ∧
    ((s.lists.mnListsCache (hash :: s.chain)).isNone ∨ LISTS_CACHE_SIZE ≤ s.chain.length)
  | (.connect hash _ _ false, spork) | (.check hash _, spork) => spork = low ∧ Quiet env low s hash
  | (.query _, spork) => spork = low
  | (.disconnect, spork) => spork = low ∧ s.lists.params.lastCheckHeight < s.chain.length - 1
  | (.restart, _) => s.lists.params.lastCheckHeight = 0

section

variable {L D : Type} {env : ListEnv L D} {low : Bool} {s : History L D}

instance (hash : Uint256) : Decidable (Quiet env low s hash) := inferInstanceAs (Decidable (_ = _))

instance : ∀ event, Decidable (Undisturbed env low s event)
  | (.connect _ _ _ true, _) => inferInstanceAs (Decidable (_ ∧ _))
  | (.connect _ _ _ false, _) => inferInstanceAs (Decidable (_ ∧ _))
  | (.query _, _) => inferInstanceAs (Decidable (_ = _))
  | (.check _ _, _) => inferInstanceAs (Decidable (_ ∧ _))
  | (.disconnect, _) => inferInstanceAs (Decidable (_ ∧ _))
  | (.restart, _) => inferInstanceAs (Decidable (_ = _))

namespace Follows

variable (h : Follows env low s)

include h

theorem getListForBlock (branch : Branch) :
    Follows env low { s with lists := (Consensus.getListForBlock env low s.lists branch).2 } := by
  obtain ⟨params, coherent⟩ := h.coherent.getListForBlock low branch
  rw [h.replayed, lookUp_replay] at params
  exact ⟨h.nonempty, params, coherent⟩

theorem connect (hash : Uint256) (quorums : List ℕ) (checkRoots : Bool)
    (fresh : (s.lists.mnListsCache (hash :: s.chain)).isNone ∨ LISTS_CACHE_SIZE ≤ s.chain.length) :
    Follows env low ⟨hash :: s.chain, processBlock env low s.lists s.chain hash quorums checkRoots⟩ := by
  by_cases enabled : env.dip0003Enabled = true
  · obtain ⟨params, -⟩ :=
      (h.coherent.onChain hash).processBlock low enabled h.nonempty h.replayed quorums checkRoots
    refine ⟨List.cons_ne_nil _ _, params, ?_⟩
    exact h.coherent.connect enabled h.nonempty h.replayed quorums checkRoots
      (fresh.imp_left Option.isNone_iff_eq_none.mp)
  · have unchanged : processBlock env low s.lists s.chain hash quorums checkRoots = s.lists :=
      if_neg enabled
    rw [unchanged]
    refine ⟨List.cons_ne_nil _ _, h.replayed.trans ?_, h.coherent.of_disabled enabled⟩
    exact (if_neg fun stored => enabled stored.1).symm

theorem quiet {hash : Uint256} (due : Quiet env low s hash) :
    replay env low (hash :: s.chain) = replay env low s.chain := by
  rw [Quiet, h.replayed] at due
  rw [replay, updateLLMQParams_of_not_due due, ite_self]

theorem reject {hash : Uint256} (quorums : List ℕ) (checkRoots : Bool) (due : Quiet env low s hash) :
    Follows env low ⟨s.chain, { processBlock env low s.lists s.chain hash quorums checkRoots with
      diffs := s.lists.diffs, snapshots := s.lists.snapshots }⟩ := by
  by_cases enabled : env.dip0003Enabled = true
  · obtain ⟨params, on⟩ :=
      (h.coherent.onChain hash).processBlock low enabled h.nonempty h.replayed quorums checkRoots
    exact ⟨h.nonempty, params.trans (h.quiet due), h.coherent.readable, on.right⟩
  · have unchanged : processBlock env low s.lists s.chain hash quorums checkRoots = s.lists :=
      if_neg enabled
    rw [unchanged]
    exact h

theorem check {hash : Uint256} (quorums : List ℕ) (enabled : env.dip0003Enabled = true)
    (due : Quiet env low s hash) :
    Follows env low { s with
      lists := (buildNewListFromBlock env low s.lists s.chain hash quorums).2 } := by
  obtain ⟨-, params, on⟩ := (h.coherent.onChain hash).buildNewListFromBlock low enabled h.nonempty
    (h.replayed ▸ lookUp_replay s.chain) quorums
  rw [updateLLMQParams_of_not_due due, h.replayed] at params
  refine ⟨h.nonempty, params, fun branch => ?_, on.right⟩
  rw [on.diffs, on.snapshots]
  exact h.coherent.readable branch

theorem disconnect (long : ¬ s.chain.length ≤ 1)
    (kept : s.lists.params.lastCheckHeight < s.chain.length - 1) :
    Follows env low ⟨s.chain.tail, undoBlock env low s.lists s.chain⟩ := by
  obtain ⟨t, undone, looked⟩ : ∃ t, undoBlock env low s.lists s.chain =
      { t with
        diffs := Function.update t.diffs s.chain none
        snapshots := Function.update t.snapshots s.chain none
        mnListsCache := Function.update t.mnListsCache s.chain none } ∧
      Follows env low { s with lists := t } := by
    refine ⟨_, rfl, ?_⟩
    split
    · exact (h.getListForBlock s.chain).getListForBlock s.chain.tail
    · exact h
  obtain ⟨chain, lists⟩ := s
  obtain ⟨hash, below, rfl⟩ := List.exists_cons_of_ne_nil h.nonempty
  have tail : replay env low below = replay env low (hash :: below) :=
    replay_tail (h.replayed ▸ kept)
  rw [undone]
  refine ⟨?_, looked.replayed.trans tail.symm, looked.coherent.undone⟩
  rintro rfl
  exact long (by simp)

end Follows

theorem Follows.apply (s : History L D) (event : Event × Bool) (h : Follows env low s)
    (undisturbed : Undisturbed env low s event) : Follows env low (Event.apply env s event) := by
  obtain ⟨event, spork⟩ := event
  cases event with
  | connect hash quorums checkRoots accepted =>
    cases accepted with
    | true =>
      obtain ⟨rfl, fresh⟩ := undisturbed
      exact h.connect hash quorums checkRoots fresh
    | false =>
      obtain ⟨rfl, due⟩ := undisturbed
      exact h.reject quorums checkRoots due
  | check hash quorums =>
    obtain ⟨rfl, due⟩ := undisturbed
    dsimp only [Event.apply]
    split
    · next enabled => exact h.check quorums enabled due
    · exact h
  | query branch =>
    obtain rfl : spork = low := undisturbed
    exact h.getListForBlock branch
  | disconnect =>
    obtain ⟨rfl, kept⟩ := undisturbed
    dsimp only [Event.apply]
    split
    · exact h
    · next long => exact h.disconnect long kept
  | restart =>
    refine ⟨h.nonempty, (replay_eq_atStart (h.replayed ▸ undisturbed)).symm,
      h.coherent.readable, fun _ _ found => ?_⟩
    cases found

end

/-- A list is its number of smartnodes. Block 1 brings the fifth, block 2 is a rival with four. -/
def toyLists : ListEnv ℕ ℕ where
  genesis := 0
  dip0003Enabled := true
  llmqs := .main
  empty := 0
  build list branch := if branch = [1, 0] then 5 else if branch = [2, 0] then 4 else list
  buildDiff _ list := list
  applyDiff _ diff := diff
  hasChanges _ := true
  allMNsCount := id
  applyDiff_buildDiff _ _ := rfl

end ButCore.Consensus
