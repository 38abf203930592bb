import ButCore.Lib.LruCache
import ButCore.Llmq.CommitmentIterator

/-!
# Scans of quorums over histories

`ScanQuorums` with its two caches, while blocks are connected and disconnected and the parameters
change.
-/
namespace ButCore.Llmq.QuorumScans

open ActiveChain BlockProcessor CbTxQuorums Checked ButCore.Evo

inductive Abort where
  | outOfRange
  | nullQuorum
  deriving DecidableEq

instance : Ord QuorumKey := ⟨compareLex (compareOn Prod.fst) (compareOn Prod.snd)⟩

theorem compare_quorumKey :
    (compare : QuorumKey → QuorumKey → Ordering) =
      compareLex (compareOn Prod.fst) (compareOn Prod.snd) := rfl

instance : Std.TransOrd QuorumKey := inferInstanceAs (Std.TransCmp (compareLex _ _))

instance : Std.LawfulEqOrd QuorumKey where
  eq_of_compare {a b} h := by
    simp only [compare_quorumKey, compareLex_eq_eq, compareOn, Std.compare_eq_iff_eq] at h
    exact Prod.ext h.1 h.2

def tipHash (chain : ActiveChain) : Uint256 :=
  match chain with
  | [] => 0
  | block :: _ => block.hash

structure Manager where
  chain : ActiveChain
  params : Consensus.ParamsState
  quorumsCache : QuorumKey → Option CFinalCommitment
  scanQuorumsCache : LruCache QuorumKey (List CFinalCommitment)

def chainCommitments (chain : ActiveChain) : List CFinalCommitment :=
  chain.flatMap fun block => mined (blockCommitments block)

def minedOn (chain : ActiveChain) (key : QuorumKey) : Option CFinalCommitment :=
  (chainCommitments chain).find? (quorumKey · = key)

namespace Manager

variable (s : Manager)

/-- `HasQuorum` and `GetMinedCommitment` read the same entry. -/
def getQuorum (key : QuorumKey) : Except Abort (Option CFinalCommitment × Manager) :=
  match minedOn s.chain key, s.quorumsCache key with
  | none, _ => pure (none, s)
  | some _, some quorum => pure (some quorum, s)
  | some qc, none => do
    let _ ← expect (s.params.llmqs.lookup key.1) .outOfRange
    pure (some qc, { s with quorumsCache := Function.update s.quorumsCache key (some qc) })

def getQuorums (type : LLMQType) :
    List Uint256 → Manager → Except Abort (List CFinalCommitment × Manager)
  | [], s => pure ([], s)
  | quorumHash :: rest, s => do
    let (quorum, s) ← s.getQuorum (type, quorumHash)
    let quorum ← expect quorum .nullQuorum
    let (quorums, s) ← getQuorums type rest s
    pure (quorum :: quorums, s)

/-- `branch` ends with `pindexStart`, a block of the active chain. -/
def scanQuorums (type : LLMQType) (branch : ActiveChain) (maxCount : ℕ) :
    Except Abort (List CFinalCommitment × Manager) := do
  let params ← expect (s.params.llmqs.lookup type) .outOfRange
  let cacheKey := (type, tipHash branch)
  let cacheMaxSize := params.signingActiveQuorumCount + 1
  let quorumIndexes := fun maxCount2 =>
    ((minedUntil branch params.type).take maxCount2).map CFinalCommitment.quorumHash
  if maxCount ≤ cacheMaxSize then
    match s.scanQuorumsCache.get cacheKey with
    | (some result, cache) => pure (result.take maxCount, { s with scanQuorumsCache := cache })
    | (none, _) => do
      let (result, s) ← getQuorums params.type (quorumIndexes cacheMaxSize) s
      let cache := s.scanQuorumsCache.insert 32 cacheKey result
      pure (result.take maxCount, { s with scanQuorumsCache := cache })
  else do
    let (result, s) ← getQuorums params.type (quorumIndexes maxCount) s
    pure (result.take maxCount, s)

end Manager

inductive Event where
  | connect (block : ConnectedBlock)
  | disconnect
  | updateLLMQParams (totalMnCount : ℕ) (height : ℤ) (lowLLMQParams : Bool)
  | getQuorum (key : QuorumKey)
  | scanQuorums (type : LLMQType) (branch : ActiveChain) (maxCount : ℕ)

def after {α : Type} (s : Manager) : Except Abort (α × Manager) → Manager
  | .ok (_, s') => s'
  | .error _ => s

def step (s : Manager) : Event → Manager
  | .connect block => { s with chain := block :: s.chain }
  | .disconnect => { s with chain := s.chain.tail }
  | .updateLLMQParams totalMnCount height low =>
    { s with params := Consensus.updateLLMQParams s.params totalMnCount height low }
  | .getQuorum key => after s (s.getQuorum key)
  | .scanQuorums type branch maxCount => after s (s.scanQuorums type branch maxCount)

def initial (chain : ActiveChain) (llmqs : Consensus.LLMQs) : Manager :=
  ⟨chain, .atStart llmqs, fun _ => none, .empty⟩

/-! ### The condition -/

def Unique (chain : ActiveChain) : Prop :=
  ∀ qc ∈ chainCommitments chain, ∀ qc' ∈ chainCommitments chain, quorumKey qc = quorumKey qc' → qc = qc'

/-- A hash stands for the blocks below it. A connected block has no other commitment for a quorum
than the one the quorum was built from, scans are asked for on the active chain, and an update does
not ask for more quorums than a kept scan has. -/
def Careful (branchOf : Uint256 → ActiveChain) (s : Manager) : Event → Prop
  | .connect block => branchOf block.hash = block :: s.chain ∧ Unique (block :: s.chain) ∧
      ∀ qc ∈ mined (blockCommitments block),
        s.quorumsCache (quorumKey qc) = none ∨ s.quorumsCache (quorumKey qc) = some qc
  | .disconnect => True
  | .updateLLMQParams totalMnCount height low => ∀ key quorums,
      s.scanQuorumsCache.find key = some quorums → ∀ params',
        (Consensus.updateLLMQParams s.params totalMnCount height low).llmqs.lookup key.1 =
          some params' →
        (∃ params, s.params.llmqs.lookup key.1 = some params ∧
          params'.signingActiveQuorumCount ≤ params.signingActiveQuorumCount) ∨
        params'.signingActiveQuorumCount < quorums.length
  | .getQuorum _ => True
  | .scanQuorums _ branch _ => branch ≠ [] ∧ branch <:+ s.chain

/-! ### What the caches hold -/

def Keyed (llmqs : Consensus.LLMQs) : Prop := ∀ entry ∈ llmqs, entry.2.type = entry.1

structure Sound (branchOf : Uint256 → ActiveChain) (s : Manager) : Prop where
  unique : Unique s.chain
  branches : ∀ branch, branch ≠ [] → branch <:+ s.chain → branchOf (tipHash branch) = branch
  keyed : Keyed s.params.llmqs
  quorums : ∀ qc ∈ chainCommitments s.chain, ∀ quorum, s.quorumsCache (quorumKey qc) = some quorum →
    quorum = qc
  scans : ∀ key quorums, s.scanQuorumsCache.find key = some quorums →
    quorums <+: minedUntil (branchOf key.2) key.1 ∧
    ∀ params, s.params.llmqs.lookup key.1 = some params →
      quorums.take (params.signingActiveQuorumCount + 1) =
        (minedUntil (branchOf key.2) key.1).take (params.signingActiveQuorumCount + 1)

variable {type : LLMQType}

section

variable {chain branch : ActiveChain} {qc : CFinalCommitment}

theorem mem_chainCommitments : qc ∈ chainCommitments chain ↔ ∃ h b, MinedAt chain h b qc := by
  induction chain with
  | nil => exact iff_of_false List.not_mem_nil fun ⟨_, _, found⟩ => by cases atHeight_lt found.block
  | cons block chain ih =>
    rw [chainCommitments, List.flatMap_cons, List.mem_append, mem_mined]
    constructor
    · rintro (⟨mem, notNull⟩ | mem)
      · exact ⟨_, block, minedAt_cons.mpr (.inl ⟨rfl, rfl, mem, notNull⟩)⟩
      · obtain ⟨h, b, mined⟩ := ih.mp mem
        exact ⟨h, b, minedAt_cons.mpr (.inr mined)⟩
    · rintro ⟨h, b, mined⟩
      obtain ⟨-, -, mem, notNull⟩ | mined := minedAt_cons.mp mined
      · exact .inl ⟨mem, notNull⟩
      · exact .inr (ih.mpr ⟨h, b, mined⟩)

theorem mem_of_minedOn {key : QuorumKey} (found : minedOn chain key = some qc) :
    qc ∈ chainCommitments chain ∧ quorumKey qc = key := by
  unfold minedOn at found
  exact ⟨List.mem_of_find?_eq_some found, by simpa using List.find?_some found⟩

theorem minedOn_of_mem (unique : Unique chain) (mem : qc ∈ chainCommitments chain) :
    minedOn chain (quorumKey qc) = some qc := by
  cases found : minedOn chain (quorumKey qc) with
  | none => exact absurd (List.find?_eq_none.mp found qc mem) (by simp)
  | some qc' =>
    obtain ⟨mem', key⟩ := mem_of_minedOn found
    rw [unique qc' mem' qc mem key]

theorem mem_minedUntil :
    qc ∈ minedUntil branch type ↔ qc ∈ chainCommitments branch ∧ qc.llmqType = type := by
  simp only [minedUntil, chainCommitments, List.mem_flatMap, newCommitments, List.mem_filter,
    decide_eq_true_eq]
  tauto

theorem chainCommitments_subset (suffix : branch <:+ chain) :
    chainCommitments branch ⊆ chainCommitments chain := by
  obtain ⟨above, rfl⟩ := suffix
  unfold chainCommitments
  rw [List.flatMap_append]
  exact List.subset_append_right _ _

theorem unique_of_agrees {env : ProcessorEnv} {st : State} (agrees : Agrees env st) :
    Unique st.chain := by
  intro qc hqc qc' hqc' key
  obtain ⟨h, b, mined⟩ := mem_chainCommitments.mp hqc
  obtain ⟨h', b', mined'⟩ := mem_chainCommitments.mp hqc'
  exact (agrees.unique mined mined' key).2

end

variable {params : Consensus.LLMQParams} {llmqs : Consensus.LLMQs}

theorem Keyed.assign (keyed : Keyed llmqs) {key : LLMQType} (own : params.type = key) : Keyed (llmqs.assign key params) := by
  induction llmqs with
  | nil => simpa [Keyed, Consensus.LLMQs.assign] using own
  | cons entry rest ih =>
    obtain ⟨first, others⟩ := List.forall_mem_cons.mp keyed
    unfold Consensus.LLMQs.assign
    split_ifs
    · exact List.forall_mem_cons.mpr ⟨own, others⟩
    · exact List.forall_mem_cons.mpr ⟨own, keyed⟩
    · exact List.forall_mem_cons.mpr ⟨first, ih others⟩

theorem keyed_updateLLMQParams {st : Consensus.ParamsState} (keyed : Keyed st.llmqs)
    (totalMnCount : ℕ) (height : ℤ) (low : Bool) :
    Keyed (Consensus.updateLLMQParams st totalMnCount height low).llmqs := by
  have all : Keyed (Consensus.llmqsFor totalMnCount low st.llmqs) := by
    unfold Consensus.llmqsFor
    dsimp only
    cases low
    all_goals split_ifs
    all_goals
      repeat refine Keyed.assign ?_ rfl
      exact keyed
  unfold Consensus.updateLLMQParams
  split
  · exact all
  · exact keyed

namespace Sound

variable {branchOf : Uint256 → ActiveChain} {s : Manager}
variable {qc : CFinalCommitment}

theorem cacheQuorum (sound : Sound branchOf s) (mem : qc ∈ chainCommitments s.chain) : Sound branchOf
      { s with quorumsCache := Function.update s.quorumsCache (quorumKey qc) (some qc) } := by
  refine { sound with quorums := ?_ }
  intro qc' mem' quorum cached
  by_cases key : quorumKey qc' = quorumKey qc
  · dsimp only at cached
    rw [key, Function.update_self] at cached
    rw [← Option.some.inj cached, sound.unique qc mem qc' mem' key.symm]
  · dsimp only at cached
    rw [Function.update_of_ne key] at cached
    exact sound.quorums qc' mem' quorum cached

theorem getQuorum (sound : Sound branchOf s) (key : QuorumKey) :
    Sound branchOf (after s (s.getQuorum key)) := by
  unfold Manager.getQuorum
  split
  · exact sound
  · exact sound
  · next qc found _ =>
      obtain ⟨mem, rfl⟩ := mem_of_minedOn found
      cases known : s.params.llmqs.lookup (quorumKey qc).1 with
      | none => exact sound
      | some params => exact sound.cacheQuorum mem

theorem getQuorum_ok (sound : Sound branchOf s) (mem : qc ∈ chainCommitments s.chain)
    (known : s.params.llmqs.lookup qc.llmqType = some params) :
    ∃ cache, s.getQuorum (quorumKey qc) = .ok (some qc, { s with quorumsCache := cache }) ∧
      Sound branchOf { s with quorumsCache := cache } := by
  unfold Manager.getQuorum
  rw [minedOn_of_mem sound.unique mem]
  cases cached : s.quorumsCache (quorumKey qc) with
  | some quorum =>
    rw [sound.quorums qc mem quorum cached]
    exact ⟨s.quorumsCache, rfl, sound⟩
  | none =>
    dsimp only
    rw [show s.params.llmqs.lookup (quorumKey qc).1 = some params from known]
    exact ⟨_, rfl, sound.cacheQuorum mem⟩

theorem getQuorums_ok (sound : Sound branchOf s) (known : s.params.llmqs.lookup type = some params)
    {qcs : List CFinalCommitment}
    (mem : ∀ qc ∈ qcs, qc ∈ chainCommitments s.chain ∧ qc.llmqType = type) :
    ∃ cache, Manager.getQuorums type (qcs.map CFinalCommitment.quorumHash) s =
      .ok (qcs, { s with quorumsCache := cache }) ∧ Sound branchOf { s with quorumsCache := cache } := by
  induction qcs generalizing s with
  | nil => exact ⟨s.quorumsCache, rfl, sound⟩
  | cons qc qcs ih =>
    obtain ⟨⟨hmem, rfl⟩, mem⟩ := List.forall_mem_cons.mp mem
    obtain ⟨cache, found, sound⟩ := sound.getQuorum_ok hmem known
    obtain ⟨cache', rest, sound⟩ := ih sound known mem
    refine ⟨cache', ?_, sound⟩
    rw [List.map_cons, Manager.getQuorums, show (qc.llmqType, qc.quorumHash) = quorumKey qc from rfl,
      found, ok_bind]
    dsimp only
    rw [expect_eq_ok.mpr rfl, ok_bind, rest]
    rfl

theorem take_of_take {α : Type*} {xs ys : List α} {m n : ℕ} (same : xs.take n = ys.take n)
    (le : m ≤ n) : xs.take m = ys.take m := by
  have short := congrArg (List.take m) same
  rwa [List.take_take, List.take_take, min_eq_left le] at short

variable {branch : ActiveChain}

theorem scanQuorums_ok (sound : Sound branchOf s) (nonempty : branch ≠ [])
    (onChain : branch <:+ s.chain) (known : s.params.llmqs.lookup type = some params) (maxCount : ℕ) :
    ∃ s', s.scanQuorums type branch maxCount = .ok ((minedUntil branch type).take maxCount, s') ∧
      Sound branchOf s' := by
  have key : params.type = type := by
    obtain ⟨_, _, split, -⟩ := List.lookup_eq_some_iff.mp known
    exact sound.keyed (type, params) (by simp [split])
  have mem : ∀ n, ∀ qc ∈ (minedUntil branch type).take n,
      qc ∈ chainCommitments s.chain ∧ qc.llmqType = type := by
    intro n qc hqc
    obtain ⟨hmem, htype⟩ := mem_minedUntil.mp (List.mem_of_mem_take hqc)
    exact ⟨chainCommitments_subset onChain hmem, htype⟩
  have below := sound.branches branch nonempty onChain
  unfold Manager.scanQuorums
  rw [expect_eq_ok.mpr known, ok_bind, key]
  dsimp only
  by_cases small : maxCount ≤ params.signingActiveQuorumCount + 1
  · rw [if_pos small]
    have find := s.scanQuorumsCache.get_fst (type, tipHash branch)
    have others := s.scanQuorumsCache.find_get (type, tipHash branch)
    generalize s.scanQuorumsCache.get (type, tipHash branch) = looked at find others ⊢
    obtain ⟨hit, cache⟩ := looked
    cases hit with
    | some result =>
      obtain ⟨-, enough⟩ := sound.scans _ _ find.symm
      rw [below] at enough
      rw [← take_of_take (enough params known) small]
      refine ⟨_, rfl, { sound with scans := ?_ }⟩
      · intro key quorums found
        exact sound.scans key quorums ((others key).symm.trans found)
    | none =>
      obtain ⟨cache, found, sound⟩ :=
        sound.getQuorums_ok known (mem (params.signingActiveQuorumCount + 1))
      dsimp only
      rw [found, ok_bind]
      rw [List.take_take, min_eq_left small]
      refine ⟨_, rfl, { sound with scans := ?_ }⟩
      · intro key quorums found
        by_cases same : key = (type, tipHash branch)
        · subst same
          rw [LruCache.find_insert_self] at found
          obtain rfl := Option.some.inj found
          refine ⟨below.symm ▸ List.take_prefix _ _, fun params' known' => ?_⟩
          obtain rfl := Option.some.inj (known.symm.trans known')
          rw [below, List.take_take, min_self]
        · obtain none | old := LruCache.find_insert_of_ne s.scanQuorumsCache _ same
          · exact absurd (none.symm.trans found) (by simp)
          · exact sound.scans key quorums (old.symm.trans found)
  · rw [if_neg small]
    obtain ⟨cache, found, sound⟩ := sound.getQuorums_ok known (mem maxCount)
    rw [found, ok_bind]
    exact ⟨_, by simp [List.take_take], sound⟩

theorem scanQuorums (sound : Sound branchOf s) (nonempty : branch ≠ [])
    (onChain : branch <:+ s.chain) (maxCount : ℕ) :
    Sound branchOf (after s (s.scanQuorums type branch maxCount)) := by
  cases known : s.params.llmqs.lookup type with
  | none =>
    rw [Manager.scanQuorums, known]
    exact sound
  | some params =>
    obtain ⟨s', found, sound'⟩ := sound.scanQuorums_ok nonempty onChain known maxCount
    rw [found]
    exact sound'

theorem connect (sound : Sound branchOf s) {block : ConnectedBlock}
    (careful : Careful branchOf s (.connect block)) :
    Sound branchOf { s with chain := block :: s.chain } := by
  obtain ⟨hbranch, unique, same⟩ := careful
  refine { sound with unique := unique, branches := ?_, quorums := ?_ }
  · intro branch nonempty suffix
    obtain rfl | suffix := List.suffix_cons_iff.mp suffix
    · exact hbranch
    · exact sound.branches branch nonempty suffix
  · intro qc mem quorum cached
    dsimp only [chainCommitments] at mem cached
    obtain mem | mem := List.mem_append.mp (List.flatMap_cons ▸ mem)
    · obtain none | own := same qc mem
      · exact absurd (none.symm.trans cached) (by simp)
      · exact Option.some.inj (cached.symm.trans own)
    · exact sound.quorums qc mem quorum cached

theorem disconnect (sound : Sound branchOf s) : Sound branchOf { s with chain := s.chain.tail } := by
  have suffix := List.tail_suffix s.chain
  have sub := chainCommitments_subset suffix
  exact { sound with
    unique := fun qc mem qc' mem' => sound.unique qc (sub mem) qc' (sub mem')
    branches := fun branch nonempty h => sound.branches branch nonempty (h.trans suffix)
    quorums := fun qc mem => sound.quorums qc (sub mem) }

theorem updateLLMQParams (sound : Sound branchOf s) {totalMnCount : ℕ} {height : ℤ} {low : Bool}
    (careful : Careful branchOf s (.updateLLMQParams totalMnCount height low)) :
    Sound branchOf (step s (.updateLLMQParams totalMnCount height low)) := by
  refine { sound with keyed := keyed_updateLLMQParams sound.keyed totalMnCount height low, scans := ?_ }
  intro key quorums found
  obtain ⟨isPrefix, enough⟩ := sound.scans key quorums found
  refine ⟨isPrefix, fun params' known' => ?_⟩
  obtain ⟨params, known, fewer⟩ | long := careful key quorums found params' known'
  · exact take_of_take (enough params known) (Nat.succ_le_succ fewer)
  · have whole := List.prefix_iff_eq_take.mp isPrefix
    exact take_of_take (n := quorums.length) (by rw [List.take_length, ← whole]) long

theorem step (s : Manager) (event : Event) (sound : Sound branchOf s)
    (careful : Careful branchOf s event) : Sound branchOf (step s event) := by
  cases event with
  | connect block => exact sound.connect careful
  | disconnect => exact sound.disconnect
  | updateLLMQParams => exact sound.updateLLMQParams careful
  | getQuorum key => exact sound.getQuorum key
  | scanQuorums type branch maxCount => exact sound.scanQuorums careful.1 careful.2 maxCount

end Sound

structure Starts (branchOf : Uint256 → ActiveChain) (chain : ActiveChain) (llmqs : Consensus.LLMQs) :
    Prop where
  keyed : Keyed llmqs
  unique : Unique chain
  branches : ∀ branch, branch ≠ [] → branch <:+ chain → branchOf (tipHash branch) = branch

theorem Starts.sound {branchOf : Uint256 → ActiveChain} {chain : ActiveChain}
    (starts : Starts branchOf chain llmqs) :
    Sound branchOf (initial chain llmqs) where
  unique := starts.unique
  branches := starts.branches
  keyed := starts.keyed
  quorums _ _ _ h := by cases h
  scans key _ h := by
    rw [initial, LruCache.find_empty] at h
    cases h

/-- In every history of careful events a scan gives the commitments that are mined up to the block,
and the database has each of them as the one of its quorum. -/
theorem run_scanQuorums (branchOf : Uint256 → ActiveChain) (chain : ActiveChain)
    (llmqs : Consensus.LLMQs) (starts : Starts branchOf chain llmqs) (events : List Event)
    (careful : Steps.Meets step (Careful branchOf) (initial chain llmqs) events)
    (s : Manager) (reached : Steps.run step (initial chain llmqs) events = s) (env : ProcessorEnv)
    (fit : ParamsFit env) (st : State) (agrees : Agrees env st) (same : st.chain = s.chain)
    (type : LLMQType) (params : Consensus.LLMQParams)
    (known : s.params.llmqs.lookup type = some params) (above branch : ActiveChain)
    (nonempty : branch ≠ []) (split : s.chain = above ++ branch) (maxCount : ℕ) :
    ∃ quorums s', s.scanQuorums type branch maxCount = .ok (quorums, s') ∧
      getMinedCommitmentsUntilBlock st.store.db branch type maxCount =
        .ok (quorums.map CFinalCommitment.quorumHash) ∧
      ∀ quorum ∈ quorums, ∃ minedBlockHash,
        st.store.db.minedCommitment (type, quorum.quorumHash) = some (quorum, minedBlockHash) := by
  have sound : Sound branchOf s := reached ▸ Steps.run_inv Sound.step starts.sound careful
  have onChain : branch <:+ s.chain := ⟨above, split.symm⟩
  obtain ⟨s', found, -⟩ := sound.scanQuorums_ok nonempty onChain known maxCount
  refine ⟨_, s', found,
    getMinedCommitmentsUntilBlock_branch fit agrees (same.trans split) type maxCount, ?_⟩
  intro quorum hmem
  obtain ⟨onBranch, rfl⟩ := mem_minedUntil.mp (List.mem_of_mem_take hmem)
  obtain ⟨h, b, mined⟩ := mem_chainCommitments.mp (chainCommitments_subset onChain onBranch)
  exact ⟨b.hash, (agrees.stored.minedCommitment _ _).mpr ⟨h, b, quorum, same ▸ mined, rfl, rfl⟩⟩

/-! ### A commitment that is mined anew -/

def toyBase : ActiveChain :=
  ([10, 9, 8, 7, 6, 5, 4, 3, 2].map fun hash => BlockProcessor.toyBlock hash []) ++
    [BlockProcessor.toyGenesis]

def toyFirst : ConnectedBlock := BlockProcessor.toyBlock 11 [toyCommitment 1 3 true]

def toySecond : ConnectedBlock :=
  BlockProcessor.toyBlock 12 [{ toyCommitment 1 3 true with signers := [false, true, true] }]

def toyBranch (hash : Uint256) : ActiveChain := (toyFirst :: toyBase).dropWhile (·.hash ≠ hash)

def toyScan : List Event := [.connect toyFirst, .scanQuorums 1 (toyFirst :: toyBase) 1]

theorem run_scanQuorums_first : ∃ quorums s',
    (Steps.run step (initial toyBase .main) toyScan).scanQuorums 1 (toyFirst :: toyBase) 2 =
      .ok (quorums, s') ∧
    getMinedCommitmentsUntilBlock (run toyMain toyMined).store.db (toyFirst :: toyBase) 1 2 =
      .ok (quorums.map CFinalCommitment.quorumHash) ∧
    ∀ quorum ∈ quorums, ∃ minedBlockHash,
      (run toyMain toyMined).store.db.minedCommitment (1, quorum.quorumHash) =
        some (quorum, minedBlockHash) := by
  have starts : Starts toyBranch toyBase .main := by
    refine ⟨by unfold Keyed; decide, by unfold Unique; decide +kernel, fun branch nonempty suffix => ?_⟩
    have all : ∀ branch ∈ toyBase.tails, branch ≠ [] → toyBranch (tipHash branch) = branch := by
      decide +kernel
    exact all branch ((List.mem_tails _ _).mpr suffix) nonempty
  have fit : ParamsFit toyMain := ⟨rfl, by decide, by decide⟩
  have agrees : Agrees toyMain (run toyMain toyMined) :=
    Steps.run_inv (Agrees.step fit) (Agrees.initial fit)
      (show Steps.Meets (BlockProcessor.step toyMain) FollowsChain _ toyMined by decide +kernel)
  have tip : (run toyMain toyMined).chain = toyFirst :: toyBase := by decide +kernel
  refine run_scanQuorums toyBranch toyBase .main starts toyScan ⟨?_, ?_, trivial⟩ _ rfl toyMain fit _
    agrees (by decide +kernel) 1 Consensus.llmq3_60 (by decide +kernel) [] _ (by simp)
    (by decide +kernel) 2
  · exact ⟨by decide +kernel, tip ▸ unique_of_agrees agrees, by decide +kernel⟩
  · exact ⟨by simp, List.suffix_rfl⟩

def toyRemined : List Event := toyScan ++ [.disconnect, .connect toySecond]

/-- The quorum is still the one that was built from the first commitment. -/
theorem run_scanQuorums_stale :
    (Steps.run step (initial toyBase .main) toyRemined).chain = toySecond :: toyBase ∧
      ((Steps.run step (initial toyBase .main) toyRemined).scanQuorums 1 (toySecond :: toyBase) 1).map
        Prod.fst = .ok (minedUntil (toyFirst :: toyBase) 1) ∧
      minedUntil (toyFirst :: toyBase) 1 ≠ minedUntil (toySecond :: toyBase) 1 ∧
      (run toyMain (toyMined ++ [.undoBlock, .processBlock toySecond true])).chain =
        toySecond :: toyBase := by
  decide +kernel

end ButCore.Llmq.QuorumScans
