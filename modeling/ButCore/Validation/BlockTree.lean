import ButCore.Lib.Keyed
import ButCore.Validation.CheckBlock

/-!
# The block tree

`mapBlockIndex` and what `AcceptBlockHeader` does to it. A pointer to a block index is the hash it
is stored under, which is `GetHash` of its header; `AcceptBlockHeader` itself looks a header up by
its proof-of-work hash.
-/
namespace ButCore.Validation

open Checked
open Std (ExtTreeMap)

/-- What never changes in a block index. The ancestors stand for the `pprev` pointers, the parent
first. -/
structure BlockNode where
  hash : Uint256
  index : CBlockIndex
  ancestors : List (Uint256 × CBlockIndex)
  deriving DecidableEq

namespace BlockNode

variable (node : BlockNode)

def pprev : Chain := node.ancestors.map Prod.snd

def chain : Chain := node.index :: node.pprev

def path : List Uint256 := node.hash :: node.ancestors.map Prod.fst

end BlockNode

def BLOCK_VALID_TREE : ℕ := 2
def BLOCK_VALID_TRANSACTIONS : ℕ := 3
def BLOCK_VALID_SCRIPTS : ℕ := 5

/-- `validity` is the masked level of `nStatus`, the flags are its other bits. `BLOCK_HAVE_DATA`
comes with the block that can be read back. -/
structure BlockIndex extends BlockNode where
  nChainWork : ArithUint256
  nTx : ℕ
  nChainTx : ℕ
  nSequenceId : ℤ
  validity : ℕ
  data : Option CBlock
  failedValid : Bool
  failedChild : Bool
  conflictChainlock : Bool
  deriving DecidableEq

namespace BlockIndex

variable (pindex : BlockIndex)

def failed : Bool := pindex.failedValid || pindex.failedChild

def isValid (nUpTo : ℕ) : Bool := !pindex.failed && decide (nUpTo ≤ pindex.validity)

def raiseValidity (nUpTo : ℕ) : BlockIndex :=
  if pindex.failed then pindex else { pindex with validity := max pindex.validity nUpTo }

def markFailedValid : BlockIndex := { pindex with failedValid := true }

def markFailedChild : BlockIndex := { pindex with failedChild := true }

def link (nChainTx : ℕ) (nSequenceId : ℤ) : BlockIndex := { pindex with nChainTx, nSequenceId }

@[simp] theorem raiseValidity_node (nUpTo : ℕ) :
    (pindex.raiseValidity nUpTo).toBlockNode = pindex.toBlockNode := by
  unfold raiseValidity
  split <;> rfl

@[simp] theorem raiseValidity_data (nUpTo : ℕ) :
    (pindex.raiseValidity nUpTo).data = pindex.data := by
  unfold raiseValidity
  split <;> rfl

end BlockIndex

structure ActiveBlock where
  hash : Uint256
  block : CBlock
  deriving DecidableEq

/-- `chainActive` has the tip first. -/
structure ChainState where
  mapBlockIndex : ExtTreeMap Uint256 BlockIndex
  chainActive : List ActiveBlock
  setBlockIndexCandidates : List Uint256
  mapBlocksUnlinked : List (Uint256 × Uint256)
  nBlockSequenceId : ℤ
  failedBlocks : List Uint256
  pindexBestHeader : Option Uint256

variable {hash : Uint256} {block : CBlock}

namespace ChainState

variable (s : ChainState)

def tip? : Option BlockIndex := s.chainActive.head?.bind fun b => s.mapBlockIndex[b.hash]?

def height : ℤ := s.chainActive.length - 1

def tipHeight? : Option ℤ := if s.chainActive = [] then none else some s.height

def contains (hash : Uint256) : Bool := s.chainActive.any fun b => b.hash == hash

def node? (hash : Uint256) : Option BlockNode := s.mapBlockIndex[hash]?.map BlockIndex.toBlockNode

def data? (hash : Uint256) : Option CBlock := s.mapBlockIndex[hash]?.bind BlockIndex.data

def update (hash : Uint256) (f : BlockIndex → BlockIndex) : ChainState :=
  { s with mapBlockIndex := s.mapBlockIndex.modify hash f }

variable {s}

theorem getElem?_update (hash k : Uint256) (f : BlockIndex → BlockIndex) :
    (s.update hash f).mapBlockIndex[k]? =
      if k = hash then s.mapBlockIndex[k]?.map f else s.mapBlockIndex[k]? := by
  unfold update
  rw [ExtTreeMap.getElem?_modify]
  by_cases hk : k = hash
  · subst hk
    simp
  · have hne : compare hash k ≠ .eq := fun e => hk (Std.compare_eq_iff_eq.mp e).symm
    simp [hk, hne]

variable {f : BlockIndex → BlockIndex}

theorem node?_update (hf : ∀ e, (f e).toBlockNode = e.toBlockNode) : (s.update hash f).node? = s.node? := by
  funext k
  unfold node?
  rw [getElem?_update]
  split
  · cases s.mapBlockIndex[k]? with
    | none => rfl
    | some e => simp [hf e]
  · rfl

theorem data?_update (hf : ∀ e, (f e).data = e.data) : (s.update hash f).data? = s.data? := by
  funext k
  unfold data?
  rw [getElem?_update]
  split
  · cases s.mapBlockIndex[k]? with
    | none => rfl
    | some e => simp [hf e]
  · rfl

end ChainState

/-! ### Which algorithms a block may use -/

def SAME_ALGO_MAX_COUNT : ℕ := 5

def hasUsedValidMiningAlgorithm (algo : Algo) (pindexPrev : Chain) : Bool :=
  let checkedBlocks := pindexPrev.take (2 * SAME_ALGO_MAX_COUNT)
  let sameAlgoBlocks := checkedBlocks.countP fun index => decide (getAlgo index.nVersion = algo)
  decide (sameAlgoBlocks ≤ SAME_ALGO_MAX_COUNT)

/-- `deployments` holds `VERSIONBITS_TOP_BITS` and the bits of the deployments that are signalled. -/
def computeBlockVersion (params : ConsensusParams) (deployments : BitVec 32) (algo : Algo)
    (prevHeight : ℤ) : BitVec 32 :=
  deployments |||
    match algo with
    | .butkscrypt => BLOCK_VERSION_BUTKSCRYPT
    | .sha256d => BLOCK_VERSION_SHA256D
    | .ghostrider => BLOCK_VERSION_GHOSTRIDER
    | .yespower =>
      if prevHeight < params.v2DiffChangeHeight then BLOCK_VERSION_BUTKSCRYPT
      else BLOCK_VERSION_YESPOWER
    | .lyra2 =>
      if prevHeight < params.AlgoChangeHeight then BLOCK_VERSION_BUTKSCRYPT
      else BLOCK_VERSION_LYRA2
    | .scrypt =>
      if prevHeight < params.nSwitchHeight then BLOCK_VERSION_BUTKSCRYPT
      else BLOCK_VERSION_SCRYPT

def algoActive (params : ConsensusParams) (algo : Algo) (prevHeight : ℤ) : Bool :=
  match algo with
  | .yespower => decide (params.v2DiffChangeHeight ≤ prevHeight)
  | .lyra2 => decide (params.AlgoChangeHeight ≤ prevHeight)
  | .scrypt => decide (params.nSwitchHeight ≤ prevHeight)
  | _ => true

variable {deployments : BitVec 32}

theorem getAlgo_or {version : BitVec 32} (h : deployments &&& BLOCK_VERSION_ALGO = 0) :
    getAlgo (deployments ||| version) = getAlgo version := by
  have masked : (deployments ||| version) &&& BLOCK_VERSION_ALGO = version &&& BLOCK_VERSION_ALGO := by
    rw [BitVec.and_or_distrib_right, h]
    exact BitVec.zero_or
  simp only [getAlgo, masked]

theorem getAlgo_computeBlockVersion_iff (params : ConsensusParams)
    (h : deployments &&& BLOCK_VERSION_ALGO = 0) (algo : Algo) (prevHeight : ℤ) :
    getAlgo (computeBlockVersion params deployments algo prevHeight) = algo ↔
      algoActive params algo prevHeight = true := by
  unfold computeBlockVersion algoActive
  rw [getAlgo_or h]
  have butkscrypt : getAlgo BLOCK_VERSION_BUTKSCRYPT = .butkscrypt := by decide
  have sha256d : getAlgo BLOCK_VERSION_SHA256D = .sha256d := by decide
  have ghostrider : getAlgo BLOCK_VERSION_GHOSTRIDER = .ghostrider := by decide
  have yespower : getAlgo BLOCK_VERSION_YESPOWER = .yespower := by decide
  have lyra2 : getAlgo BLOCK_VERSION_LYRA2 = .lyra2 := by decide
  have scrypt : getAlgo BLOCK_VERSION_SCRYPT = .scrypt := by decide
  cases algo with
  | butkscrypt => exact ⟨fun _ => rfl, fun _ => butkscrypt⟩
  | sha256d => exact ⟨fun _ => rfl, fun _ => sha256d⟩
  | ghostrider => exact ⟨fun _ => rfl, fun _ => ghostrider⟩
  | yespower =>
    by_cases early : prevHeight < params.v2DiffChangeHeight
    · simp [early, butkscrypt]
    · simp [early, yespower, not_lt.mp early]
  | lyra2 =>
    by_cases early : prevHeight < params.AlgoChangeHeight
    · simp [early, butkscrypt]
    · simp [early, lyra2, not_lt.mp early]
  | scrypt =>
    by_cases early : prevHeight < params.nSwitchHeight
    · simp [early, butkscrypt]
    · simp [early, scrypt, not_lt.mp early]

/-- The rules for a block that extends `pindexPrev`; genesis is under none. -/
def AlgoRules (params : ConsensusParams) (algo : Algo) (pindexPrev : Chain) : Prop :=
  match pindexPrev with
  | [] => True
  | last :: _ =>
    algoActive params algo last.nHeight = true ∧
      hasUsedValidMiningAlgorithm algo pindexPrev = true

instance (params : ConsensusParams) (algo : Algo) :
    (pindexPrev : Chain) → Decidable (AlgoRules params algo pindexPrev)
  | [] => inferInstanceAs (Decidable True)
  | _ :: _ => inferInstanceAs (Decidable (_ ∧ _))

def ChainObeys (params : ConsensusParams) : Chain → Prop
  | [] => True
  | index :: pprev => AlgoRules params (getAlgo index.nVersion) pprev ∧ ChainObeys params pprev

instance ChainObeys.decidable (params : ConsensusParams) :
    (chain : Chain) → Decidable (ChainObeys params chain)
  | [] => inferInstanceAs (Decidable True)
  | _ :: pprev =>
    have := ChainObeys.decidable params pprev
    inferInstanceAs (Decidable (_ ∧ _))

/-! ### Headers -/

/-- How a function fails: it returns false with a reject reason or without one, or it aborts. -/
inductive Fault where
  | invalid (r : Invalid)
  | systemError
  | assertion
  deriving DecidableEq

/-- What validation finds outside of the state during one call: the time, the ChainLocks, whether
the disk works, and `connectRules` for the rules of `ConnectBlock` on coins, scripts, payments and
special transactions. -/
structure CallEnv where
  adjustedTime : ℤ
  hasConflictingChainLock : ℤ → Uint256 → Bool
  connectRules : List ActiveBlock → CBlock → Except Fault Unit
  findBlockPos : Uint256 → Bool
  readBlock : Uint256 → Bool
  disconnectBlock : Uint256 → Bool
  flushState : Uint256 → Bool

def MAX_FUTURE_BLOCK_TIME : ℤ := 15 * 60

section

variable (env : Env) (call : CallEnv) (s : ChainState) (header : CBlockHeader)

def getLastCheckpoint : Option BlockIndex :=
  env.checkpoints.reverse.findSome? fun hash => s.mapBlockIndex[hash]?

def contextualCheckBlockHeader (pindexPrev : BlockIndex) : Except Invalid Unit := do
  failIf (header.nBits ≠
    Pow.getNextWorkRequired pindexPrev.chain env.pow (getAlgo header.nVersion))
    (reject 100 "bad-diffbits")
  failIf (env.fCheckpointsEnabled ∧ (getLastCheckpoint env s).any fun pcheckpoint =>
    decide (pindexPrev.index.nHeight + 1 < pcheckpoint.index.nHeight))
    ⟨100, .checkpoint, "bad-fork-prior-to-checkpoint", false⟩
  failIf (header.getBlockTime ≤ getMedianTimePast pindexPrev.chain) (reject 0 "time-too-old")
  failIf (call.adjustedTime + MAX_FUTURE_BLOCK_TIME < header.getBlockTime)
    (reject 0 "time-too-new")

def newNode : BlockNode :=
  let hash := env.getHash header
  match s.mapBlockIndex[header.hashPrevBlock]? with
  | none => ⟨hash, ⟨0, header.nVersion, header.nTime, header.nBits⟩, []⟩
  | some pprev =>
    ⟨hash, ⟨pprev.index.nHeight + 1, header.nVersion, header.nTime, header.nBits⟩,
      (pprev.hash, pprev.index) :: pprev.ancestors⟩

def newIndex (conflictChainlock : Bool) : BlockIndex :=
  let node := newNode env s header
  let prevWork := (s.mapBlockIndex[header.hashPrevBlock]?.map BlockIndex.nChainWork).getD 0
  { node with
    nChainWork := prevWork + env.getBlockProof node.chain
    nTx := 0
    nChainTx := 0
    nSequenceId := 0
    validity := BLOCK_VALID_TREE
    data := none
    failedValid := false
    failedChild := false
    conflictChainlock := conflictChainlock }

def addToBlockIndex (conflictChainlock : Bool) : ChainState :=
  let hash := env.getHash header
  if s.mapBlockIndex.contains hash then s
  else
    let pindexNew := newIndex env s header conflictChainlock
    let bestWork := (s.pindexBestHeader.bind fun best => s.mapBlockIndex[best]?).map
      BlockIndex.nChainWork
    { s with
      mapBlockIndex := s.mapBlockIndex.insert hash pindexNew
      pindexBestHeader :=
        if !conflictChainlock && bestWork.all (· < pindexNew.nChainWork) then some hash
        else s.pindexBestHeader }

/-- The checks of a new header up to the search for a failed ancestor. -/
def checkNewHeader : Except Invalid BlockIndex := do
  checkBlockHeader env header true
  let pindexPrev ← expect s.mapBlockIndex[header.hashPrevBlock]?
    ⟨10, .zero, "prev-blk-not-found", false⟩
  failIf (pindexPrev.failed = true) (reject 100 "bad-prevblk")
  failIf (pindexPrev.conflictChainlock = true) (reject 10 "bad-prevblk-chainlock")
  contextualCheckBlockHeader env call s header pindexPrev
  pure pindexPrev

def failedAncestor (pindexPrev : BlockIndex) : Option Uint256 :=
  if pindexPrev.isValid BLOCK_VALID_SCRIPTS then none
  else s.failedBlocks.find? fun failedit => pindexPrev.path.contains failedit

/-- The walk from `pindexPrev` down to the failed block. -/
def markFailedChildren (hashes : List Uint256) : ChainState :=
  hashes.foldl (fun s hash => s.update hash BlockIndex.markFailedChild) s

/-- A header that passed its checks, on top of `pindexPrev`. -/
def acceptNewHeader (pindexPrev : BlockIndex) : ChainState × Except Fault Uint256 :=
  match failedAncestor s pindexPrev with
  | some failedit =>
    if s.mapBlockIndex[failedit]?.any BlockIndex.failedValid then
      (markFailedChildren s (pindexPrev.path.takeWhile (· ≠ failedit)),
        .error (.invalid (reject 100 "bad-prevblk")))
    else (s, .error .assertion)
  | none =>
    if call.hasConflictingChainLock (pindexPrev.index.nHeight + 1) (env.getPOWHash header) then
      (addToBlockIndex env s header true, .error (.invalid (reject 10 "bad-chainlock")))
    else (addToBlockIndex env s header false, .ok (env.getHash header))

def acceptBlockHeader : ChainState × Except Fault Uint256 :=
  let hash := env.getPOWHash header
  if hash = env.hashGenesisBlock then
    (addToBlockIndex env s header false, .ok (env.getHash header))
  else
    match s.mapBlockIndex[hash]? with
    | some pindex =>
      (s, if pindex.failed then .error (.invalid ⟨0, .zero, "duplicate", false⟩) else .ok hash)
    | none =>
      match checkNewHeader env call s header with
      | .error r => (s, .error (.invalid r))
      | .ok pindexPrev => acceptNewHeader env call s header pindexPrev

end

/-! ### What a header changes -/

/-- The tree keeps its nodes, or gets one more for the header. -/
def NodeStep (env : Env) (header : CBlockHeader) (s s' : ChainState) : Prop :=
  s'.node? = s.node? ∨ s.node? (env.getHash header) = none ∧
    s'.node? = Function.update s.node? (env.getHash header) (some (newNode env s header))

def ownNode (env : Env) (s : ChainState) (header : CBlockHeader) : BlockNode :=
  (s.node? (env.getHash header)).getD (newNode env s header)

structure HeaderStep (env : Env) (header : CBlockHeader) (s s' : ChainState) : Prop where
  node : NodeStep env header s s'
  data : s'.data? = s.data?
  chainActive : s'.chainActive = s.chainActive

variable {node : BlockNode}

section

variable {env : Env} {call : CallEnv} {s : ChainState} {header : CBlockHeader}

theorem HeaderStep.refl : HeaderStep env header s s := ⟨Or.inl rfl, rfl, rfl⟩

theorem addToBlockIndex_step (conflict : Bool) :
    HeaderStep env header s (addToBlockIndex env s header conflict) := by
  unfold addToBlockIndex
  by_cases known : s.mapBlockIndex.contains (env.getHash header) = true
  · rw [if_pos known]
    exact HeaderStep.refl
  have fresh : s.mapBlockIndex[env.getHash header]? = none := by
    rw [ExtTreeMap.getElem?_eq_none]
    simpa using known
  rw [if_neg known]
  refine ⟨Or.inr ⟨by simp [ChainState.node?, fresh], ?_⟩, ?_, rfl⟩
  · funext k
    simp only [ChainState.node?, Keyed.getElem?_insert_eq, Function.update_apply]
    by_cases hk : k = env.getHash header
    · subst hk
      simp [newIndex]
    · simp [hk]
  · funext k
    simp only [ChainState.data?, Keyed.getElem?_insert_eq]
    by_cases hk : k = env.getHash header
    · subst hk
      simp [fresh, newIndex]
    · simp [hk]

theorem markFailedChildren_step (hashes : List Uint256) :
    (markFailedChildren s hashes).chainActive = s.chainActive ∧
      (markFailedChildren s hashes).node? = s.node? ∧
      (markFailedChildren s hashes).data? = s.data? := by
  unfold markFailedChildren
  induction hashes generalizing s with
  | nil => exact ⟨rfl, rfl, rfl⟩
  | cons hash hashes ih =>
    obtain ⟨hchain, hnode, hdata⟩ := ih (s := s.update hash BlockIndex.markFailedChild)
    refine ⟨hchain, hnode.trans ?_, hdata.trans ?_⟩
    · exact ChainState.node?_update fun _ => rfl
    · exact ChainState.data?_update fun _ => rfl

theorem acceptNewHeader_step (pindexPrev : BlockIndex) :
    HeaderStep env header s (acceptNewHeader env call s header pindexPrev).1 := by
  unfold acceptNewHeader
  cases failedAncestor s pindexPrev with
  | some failedit =>
    obtain ⟨hchain, hnode, hdata⟩ := markFailedChildren_step (s := s)
      (pindexPrev.path.takeWhile (· ≠ failedit))
    dsimp only
    split
    · exact ⟨Or.inl hnode, hdata, hchain⟩
    · exact HeaderStep.refl
  | none =>
    dsimp only
    split
    · exact addToBlockIndex_step true
    · exact addToBlockIndex_step false

theorem acceptBlockHeader_step :
    HeaderStep env header s (acceptBlockHeader env call s header).1 := by
  unfold acceptBlockHeader
  dsimp only
  split
  · exact addToBlockIndex_step false
  · cases s.mapBlockIndex[env.getPOWHash header]? with
    | some pindex => exact HeaderStep.refl
    | none =>
      cases checkNewHeader env call s header with
      | error r => exact HeaderStep.refl
      | ok pindexPrev => exact acceptNewHeader_step pindexPrev

variable {s' : ChainState}

theorem NodeStep.old (h : NodeStep env header s s') (hnode : s.node? hash = some node) :
    s'.node? hash = some node := by
  rcases h with h | ⟨fresh, h⟩
  · rw [h, hnode]
  · have hne : hash ≠ env.getHash header := by
      intro heq
      rw [← heq, hnode] at fresh
      exact absurd fresh (by simp)
    rw [h, Function.update_of_ne hne, hnode]

theorem NodeStep.own (h : NodeStep env header s s')
    (hnode : s'.node? (env.getHash header) = some node) : node = ownNode env s header := by
  unfold ownNode
  rcases h with h | ⟨fresh, h⟩
  · rw [h] at hnode
    rw [hnode, Option.getD_some]
  · rw [h, Function.update_self] at hnode
    rw [fresh, Option.getD_none]
    exact (Option.some.inj hnode).symm

theorem NodeStep.cases (h : NodeStep env header s s') (hnode : s'.node? hash = some node) :
    s.node? hash = some node ∨ s.node? (env.getHash header) = none ∧ hash = env.getHash header ∧
      node = newNode env s header := by
  rcases h with h | ⟨fresh, h⟩
  · exact Or.inl (h ▸ hnode)
  · rw [h, Function.update_apply] at hnode
    split at hnode
    · rename_i heq
      exact Or.inr ⟨fresh, heq, (Option.some.inj hnode).symm⟩
    · exact Or.inl hnode

theorem newNode_parent {p : Uint256 × CBlockIndex} {rest : List (Uint256 × CBlockIndex)}
    (h : (newNode env s header).ancestors = p :: rest) :
    ∃ pnode, s.node? header.hashPrevBlock = some pnode ∧ p = (pnode.hash, pnode.index) ∧
      rest = pnode.ancestors ∧ (newNode env s header).index.nHeight = pnode.index.nHeight + 1 := by
  unfold newNode at h ⊢
  cases hprev : s.mapBlockIndex[header.hashPrevBlock]? with
  | none => simp [hprev] at h
  | some pprev =>
    simp only [hprev, List.cons.injEq] at h
    exact ⟨pprev.toBlockNode, by simp [ChainState.node?, hprev], h.1.symm, h.2.symm, rfl⟩

theorem newNode_root (h : (newNode env s header).ancestors = []) :
    (newNode env s header).index.nHeight = 0 := by
  unfold newNode at h ⊢
  cases hprev : s.mapBlockIndex[header.hashPrevBlock]? with
  | none => rfl
  | some pprev => simp [hprev] at h

theorem newNode_hash : (newNode env s header).hash = env.getHash header := by
  unfold newNode
  cases s.mapBlockIndex[header.hashPrevBlock]? <;> rfl

theorem newNode_version : (newNode env s header).index.nVersion = header.nVersion := by
  unfold newNode
  cases s.mapBlockIndex[header.hashPrevBlock]? <;> rfl

/-- Keys are the hashes of their entries, heights count ancestors, and the ancestors of a block are
its parent and the ancestors of its parent. -/
structure TreeInv (s : ChainState) : Prop where
  hash : ∀ {hash node}, s.node? hash = some node → node.hash = hash
  height : ∀ {hash node}, s.node? hash = some node → node.index.nHeight = node.ancestors.length
  parent : ∀ {hash node p rest}, s.node? hash = some node → node.ancestors = p :: rest →
    ∃ pnode, s.node? p.1 = some pnode ∧ pnode.index = p.2 ∧ pnode.ancestors = rest

theorem NodeStep.treeInv (h : NodeStep env header s s') (inv : TreeInv s) :
    TreeInv s' := by
  refine ⟨?_, ?_, ?_⟩
  · intro hash node hnode
    rcases h.cases hnode with hold | ⟨-, rfl, rfl⟩
    · exact inv.hash hold
    · exact newNode_hash
  · intro hash node hnode
    rcases h.cases hnode with hold | ⟨-, -, rfl⟩
    · exact inv.height hold
    · cases hanc : (newNode env s header).ancestors with
      | nil => rw [newNode_root hanc, List.length_nil, Nat.cast_zero]
      | cons p rest =>
        obtain ⟨pnode, hp, -, rfl, hheight⟩ := newNode_parent hanc
        rw [hheight, inv.height hp, List.length_cons, Nat.cast_succ]
  · intro hash node p rest hnode hanc
    rcases h.cases hnode with hold | ⟨-, -, rfl⟩
    · obtain ⟨pnode, hp, hindex, hrest⟩ := inv.parent hold hanc
      exact ⟨pnode, h.old hp, hindex, hrest⟩
    · obtain ⟨pnode, hp, rfl, rfl, -⟩ := newNode_parent hanc
      refine ⟨pnode, h.old ?_, rfl, rfl⟩
      rw [inv.hash hp]
      exact hp

end

section

variable {s : ChainState}

theorem TreeInv.path_cases (tree : TreeInv s) (h : s.node? hash = some node) :
    node.path = [hash] ∧ node.ancestors = [] ∨
      ∃ p pnode, node.ancestors.head? = some p ∧ s.node? p.1 = some pnode ∧
        node.path = hash :: pnode.path ∧ pnode.ancestors.length < node.ancestors.length := by
  unfold BlockNode.path
  rw [tree.hash h]
  cases hanc : node.ancestors with
  | nil => exact Or.inl ⟨rfl, rfl⟩
  | cons p rest =>
    obtain ⟨pnode, hp, -, rfl⟩ := tree.parent h hanc
    refine Or.inr ⟨p, pnode, rfl, hp, ?_, Nat.lt_succ_self _⟩
    rw [tree.hash hp, List.map_cons]

theorem TreeInv.ancestor_induction (tree : TreeInv s) {P : Uint256 → BlockNode → Prop}
    (root : ∀ hash node, s.node? hash = some node → node.path = [hash] → node.ancestors = [] → P hash node)
    (child : ∀ hash node p pnode, s.node? hash = some node → node.ancestors.head? = some p → s.node? p.1 = some pnode → node.path = hash :: pnode.path → P p.1 pnode → P hash node)
    (h : s.node? hash = some node) : P hash node := by
  induction hn : node.ancestors.length using Nat.strong_induction_on generalizing hash node with
  | _ n ih =>
    rcases tree.path_cases h with ⟨hpath, hanc⟩ | ⟨p, pnode, hp, hpnode, hpath, hlt⟩
    · exact root hash node h hpath hanc
    · exact child hash node p pnode h hp hpnode hpath (ih _ (hn ▸ hlt) hpnode rfl)

theorem TreeInv.path_suffix (tree : TreeInv s) {k : Uint256} (h : s.node? hash = some node)
    (hk : k ∈ node.path) :
    ∃ knode, s.node? k = some knode ∧ knode.path <:+ node.path := by
  refine tree.ancestor_induction
    (P := fun _ node => k ∈ node.path → ∃ knode, s.node? k = some knode ∧ knode.path <:+ node.path)
    ?_ ?_ h hk
  · intro hash node hnode hpath _ hk
    rw [hpath, List.mem_singleton] at hk
    exact ⟨node, hk ▸ hnode, List.suffix_rfl⟩
  · intro hash node p pnode hnode _ _ hpath ih hk
    rw [hpath] at hk ⊢
    rcases List.mem_cons.mp hk with rfl | hk
    · exact ⟨node, hnode, hpath ▸ List.suffix_rfl⟩
    · obtain ⟨knode, hfound, hsuffix⟩ := ih hk
      exact ⟨knode, hfound, hsuffix.trans (List.suffix_cons hash pnode.path)⟩

end

end ButCore.Validation
