import ButCore.Lib.Steps
import ButCore.Validation.Runs

/-!
# Calls of the operator

The two calls that an operator may make on the block tree: `InvalidateBlock` and `PreciousBlock`.
-/
namespace ButCore.Validation

/-! ### `InvalidateBlock` -/

section

variable (call : CallEnv)

def lowerBestHeader (s : ChainState) (hash : Uint256) : ChainState :=
  if s.pindexBestHeader = some hash then
    { s with pindexBestHeader :=
        (s.mapBlockIndex[hash]?.bind fun e => e.ancestors.head?).map Prod.fst }
  else s

/-- The loop that disconnects until the block is no longer in the active chain, which is the first
argument. -/
def disconnectPast (hash : Uint256) : List ActiveBlock → ChainState → ChainState × Bool
  | [], s => (s, true)
  | tip :: below, s =>
    if s.contains hash then
      if call.disconnectBlock tip.hash then
        disconnectPast hash below (lowerBestHeader { s with chainActive := below } tip.hash)
      else (s, false)
    else (s, true)

def markInvalid (s : ChainState) (hash : Uint256) : ChainState :=
  { s.update hash BlockIndex.markFailedValid with
    failedBlocks := if s.failedBlocks.contains hash then s.failedBlocks
      else s.failedBlocks ++ [hash]
    setBlockIndexCandidates := s.setBlockIndexCandidates.erase hash }

def blocksAbove (s : ChainState) (hash : Uint256) : List Uint256 :=
  if s.contains hash then ((s.tip?.map fun tip => tip.path).getD []).takeWhile (· ≠ hash) else []

def offerCandidate (s t : ChainState) (entry : Uint256 × BlockIndex) : ChainState :=
  if entry.2.isValid BLOCK_VALID_TRANSACTIONS && decide (entry.2.nChainTx ≠ 0) &&
      !worseThanTip s entry.2 then
    insertCandidate t entry.1
  else t

def restoreCandidates (s : ChainState) : ChainState :=
  s.mapBlockIndex.toList.foldl (offerCandidate s) s

def invalidateBlock (s : ChainState) (hash : Uint256) : ChainState × Except Fault Unit :=
  let invalidWalk := blocksAbove s hash
  match disconnectPast call hash s.chainActive (lowerBestHeader s hash) with
  | (s, false) => (s, .error .systemError)
  | (s, true) =>
    let s := markInvalid (invalidWalk.foldl (discardBlock true) s) hash
    -- without a tip the comparison reads through a null pointer
    if s.chainActive = [] then (s, .error .assertion) else (restoreCandidates s, .ok ())

end

/-! ### `PreciousBlock` -/

/-- The counters of `PreciousBlock` stand beside the state of the chain. -/
structure NodeState extends ChainState where
  nBlockReverseSequenceId : ℤ
  nLastPreciousChainwork : ArithUint256

namespace NodeState

variable (n : NodeState)

/-- The counter starts anew when the chain has been extended since the last call. -/
def preciousId (tip : BlockIndex) : ℤ :=
  if n.nLastPreciousChainwork < tip.nChainWork then -1 else n.nBlockReverseSequenceId

def markPrecious (tip : BlockIndex) (hash : Uint256) (pindex : BlockIndex) : Option NodeState :=
  let id := n.preciousId tip
  let s := ({ n.toChainState with
      setBlockIndexCandidates := n.setBlockIndexCandidates.erase hash }).update hash
    fun e => { e with nSequenceId := id }
  let s := if pindex.isValid BLOCK_VALID_TRANSACTIONS && decide (pindex.nChainTx ≠ 0) then
      pruneBlockIndexCandidates (insertCandidate s hash)
    else some s
  s.map fun s => ⟨s, if -2 ^ 31 < id then id - 1 else id, tip.nChainWork⟩

def after {α : Type} (r : ChainState × Except Fault α) : NodeState × Except Fault Unit :=
  ({ n with toChainState := r.1 }, r.2.map fun _ => ())

end NodeState

/-! ### Runs -/

inductive NodeCall where
  | acceptBlockHeader (call : CallEnv) (header : CBlockHeader)
  | acceptBlock (call : CallEnv) (block : CBlock) (fRequested : Bool)
  | invalidateBlock (call : CallEnv) (hash : Uint256)
  | preciousBlock (call : CallEnv) (hash : Uint256) (rounds : ℕ)
  | activateBestChain (call : CallEnv) (pblock : Option CBlock) (rounds : ℕ)

section

variable (env : Env)

/-- A block with less work than the tip is left alone. -/
def NodeState.preciousBlock (n : NodeState) (call : CallEnv) (hash : Uint256) (rounds : ℕ) :
    NodeState × Except Fault Unit :=
  match n.tip?, n.mapBlockIndex[hash]? with
  | some tip, some pindex =>
    if pindex.nChainWork < tip.nChainWork then (n, .ok ())
    else
      match n.markPrecious tip hash pindex with
      | none => (n, .error .assertion)
      | some n => n.after (Validation.activateBestChain env call none rounds none n.toChainState)
  | _, _ => (n, .error .assertion)

def NodeState.invoke (n : NodeState) : NodeCall → NodeState × Except Fault Unit
  | .acceptBlockHeader call header => n.after (acceptBlockHeader env call n.toChainState header)
  | .acceptBlock call block fRequested =>
    n.after (acceptBlock env call n.toChainState block fRequested)
  | .invalidateBlock call hash => n.after (Validation.invalidateBlock call n.toChainState hash)
  | .preciousBlock call hash rounds => n.preciousBlock env call hash rounds
  | .activateBestChain call pblock rounds =>
    n.after (Validation.activateBestChain env call pblock rounds none n.toChainState)

/-- A run goes on after a rejection, not after a failed assertion or an I/O failure. -/
def exec (n : NodeState) (input : NodeCall) : Option (NodeState × Except Fault Unit) :=
  match n.invoke env input with
  | (_, .error .systemError) | (_, .error .assertion) => none
  | r => some r

def startNode : NodeState where
  toChainState := initial env
  nBlockReverseSequenceId := -1
  nLastPreciousChainwork := 0

end

end ButCore.Validation
