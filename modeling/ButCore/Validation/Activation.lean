import ButCore.Validation.BlockTree

/-!
# From a block to the active chain

`ProcessNewBlock` checks a block, stores it and makes the best chain active.
-/
namespace ButCore.Validation

open Checked

section

variable (env : Env) (call : CallEnv) (s : ChainState)

/-- `CBlockIndexWorkComparator`. The hash stands for the address that breaks ties. -/
def workLess (pa pb : BlockIndex) : Bool :=
  decide (pa.nChainWork < pb.nChainWork) ||
    decide (pa.nChainWork = pb.nChainWork) &&
      (decide (pb.nSequenceId < pa.nSequenceId) ||
        decide (pa.nSequenceId = pb.nSequenceId) && decide (pb.hash < pa.hash))

def worseThanTip (pindex : BlockIndex) : Bool := s.tip?.any fun tip => workLess pindex tip

def insertCandidate (hash : Uint256) : ChainState :=
  if s.setBlockIndexCandidates.contains hash then s
  else { s with setBlockIndexCandidates := hash :: s.setBlockIndexCandidates }

def linkBlock (hash : Uint256) : ChainState :=
  match s.mapBlockIndex[hash]? with
  | none => s
  | some pindex =>
    let parent := pindex.ancestors.head?.bind fun p => s.mapBlockIndex[p.1]?
    let nChainTx := (parent.map BlockIndex.nChainTx).getD 0 + pindex.nTx
    let linked := pindex.link nChainTx s.nBlockSequenceId
    let s := { s.update hash (BlockIndex.link · nChainTx s.nBlockSequenceId) with
      nBlockSequenceId := s.nBlockSequenceId + 1 }
    if worseThanTip s linked then s else insertCandidate s hash

/-- Every block of the queue but the first leaves `mapBlocksUnlinked` as it enters. -/
def linkQueue : ℕ → ChainState → List Uint256 → ChainState
  | 0, s, _ => s
  | _ + 1, s, [] => s
  | n + 1, s, hash :: queue =>
    let s := linkBlock s hash
    let children := (s.mapBlocksUnlinked.filter fun p => p.1 == hash).map Prod.snd
    let s := { s with mapBlocksUnlinked := s.mapBlocksUnlinked.filter fun p => p.1 != hash }
    linkQueue n s (queue ++ children)

def storeBlock (block : CBlock) (pindexNew : BlockIndex) : BlockIndex :=
  BlockIndex.raiseValidity
    { pindexNew with nTx := block.vtx.length, nChainTx := 0, data := some block }
    BLOCK_VALID_TRANSACTIONS

def receivedBlockTransactions (block : CBlock) (hash : Uint256) : ChainState :=
  let s := s.update hash (storeBlock block)
  let pprev := (s.mapBlockIndex[hash]?.bind fun e => e.ancestors.head?).bind fun p =>
    s.mapBlockIndex[p.1]?
  match pprev with
  | none => linkQueue (s.mapBlocksUnlinked.length + 1) s [hash]
  | some pprev =>
    if pprev.nChainTx ≠ 0 then linkQueue (s.mapBlocksUnlinked.length + 1) s [hash]
    else if pprev.isValid BLOCK_VALID_TREE then
      { s with mapBlocksUnlinked := s.mapBlocksUnlinked ++ [(pprev.hash, hash)] }
    else s

def MIN_BLOCKS_TO_KEEP : ℤ := 288

/-- Why a block that was not asked for is left alone. -/
def skipUnrequested (pindex : BlockIndex) : Bool :=
  let fHasMoreOrSameWork := s.tip?.all fun tip => decide (tip.nChainWork ≤ pindex.nChainWork)
  let fTooFarAhead := decide (s.height + MIN_BLOCKS_TO_KEEP < pindex.index.nHeight)
  decide (pindex.nTx ≠ 0) || !fHasMoreOrSameWork || fTooFarAhead ||
    decide (pindex.nChainWork < env.nMinimumChainWork)

/-- The checks of the block against its own height and parent are commented out here. -/
def acceptBlock (block : CBlock) (fRequested : Bool) : ChainState × Except Fault Unit :=
  match acceptBlockHeader env call s block.header with
  | (s, .error e) => (s, .error e)
  | (s, .ok hash) =>
    match s.mapBlockIndex[hash]? with
    | none => (s, .error .assertion)
    | some pindex =>
      if pindex.data.isSome || (!fRequested && skipUnrequested env s pindex) then (s, .ok ())
      else if call.findBlockPos hash then (receivedBlockTransactions s block hash, .ok ())
      else (s, .error .systemError)

end

section

variable (env : Env) (call : CallEnv)

/-- `fChecked` is not stored. -/
def readBlockFromDisk (s : ChainState) (hash : Uint256) : Option CBlock :=
  match s.data? hash with
  | none => none
  | some block =>
    if call.readBlock hash &&
        Pow.checkProofOfWork (env.getPOWHash block.header) block.header.nBits env.pow &&
        decide (env.getHash block.header = hash) then
      some { block with fChecked := false }
    else none

def connectBlock (s : ChainState) (block : CBlock) (pindex : BlockIndex) : Except Fault Unit := do
  failIf (pindex.hash ≠ env.getHash block.header) .assertion
  (match checkBlock env (env.isMaxCash s.tipHeight?) block pindex.index.nHeight true true with
    | .error r => .error (.invalid r)
    | .ok _ => .ok ())
  failIf (pindex.ancestors ≠ [] ∧
    call.hasConflictingChainLock pindex.index.nHeight pindex.hash = true)
    (.invalid (reject 10 "bad-chainlock"))
  (if env.getHash block.header = env.hashGenesisBlock then pure ()
    else call.connectRules s.chainActive block)

def invalidBlockFound (s : ChainState) (hash : Uint256) (r : Invalid) : ChainState :=
  if r.corruptionPossible then s
  else
    { s.update hash BlockIndex.markFailedValid with
      failedBlocks := if s.failedBlocks.contains hash then s.failedBlocks
        else s.failedBlocks ++ [hash]
      setBlockIndexCandidates := s.setBlockIndexCandidates.erase hash }

def raiseConnected (s : ChainState) (hash : Uint256) (block : CBlock) : ChainState :=
  if env.getHash block.header = env.hashGenesisBlock then s
  else s.update hash fun e => e.raiseValidity BLOCK_VALID_SCRIPTS

def connectTip (s : ChainState) (hash : Uint256) (pblock : Option CBlock) :
    ChainState × Except Fault Unit :=
  match s.mapBlockIndex[hash]? with
  | none => (s, .error .assertion)
  | some pindexNew =>
    if pindexNew.ancestors.head?.map Prod.fst ≠ s.chainActive.head?.map ActiveBlock.hash then
      (s, .error .assertion)
    else
      match pblock.or (readBlockFromDisk env call s hash) with
      | none => (s, .error .systemError)
      | some block =>
        match connectBlock env call s block pindexNew with
        | .error (.invalid r) => (invalidBlockFound s hash r, .error (.invalid r))
        | .error e => (s, .error e)
        | .ok _ =>
          let s := raiseConnected env s hash block
          if call.flushState hash then
            ({ s with chainActive := ⟨hash, block⟩ :: s.chainActive }, .ok ())
          else (s, .error .systemError)

def disconnectTips (fork : Option Uint256) : List ActiveBlock → List ActiveBlock × Bool
  | [] => ([], true)
  | tip :: pprev =>
    if fork = some tip.hash then (tip :: pprev, true)
    else if call.disconnectBlock tip.hash then disconnectTips fork pprev
    else (tip :: pprev, false)

/-- `none` is the failed assertion that a candidate is left. -/
def pruneBlockIndexCandidates (s : ChainState) : Option ChainState :=
  let candidates := s.setBlockIndexCandidates.filter fun hash =>
    !(s.mapBlockIndex[hash]?.any (worseThanTip s))
  if candidates = [] then none else some { s with setBlockIndexCandidates := candidates }

/-- The loop over `vpindexToConnect`; the result is `fInvalidFound`. The list is filled in portions
of 32, which has no effect on the order. -/
def connectTips (oldTip : Option BlockIndex) (mostWork : Uint256) (pblock : Option CBlock) :
    List Uint256 → ChainState → ChainState × Except Fault Bool
  | [], s => (s, .ok false)
  | hash :: rest, s =>
    match connectTip env call s hash (if hash = mostWork then pblock else none) with
    | (s, .error (.invalid _)) => (s, .ok true)
    | (s, .error e) => (s, .error e)
    | (s, .ok _) =>
      match pruneBlockIndexCandidates s with
      | none => (s, .error .assertion)
      | some s =>
        if oldTip.all fun old => s.tip?.any fun tip =>
            decide (old.nChainWork < tip.nChainWork) then (s, .ok false)
        else connectTips oldTip mostWork pblock rest s

def activateBestChainStep (s : ChainState) (mostWork : BlockIndex) (pblock : Option CBlock) :
    ChainState × Except Fault Bool :=
  let fork := mostWork.path.find? s.contains
  match disconnectTips call fork s.chainActive with
  | (chain, false) => ({ s with chainActive := chain }, .error .systemError)
  | (chain, true) =>
    let toConnect := (mostWork.path.takeWhile fun hash => fork ≠ some hash).reverse
    connectTips env call s.tip? mostWork.hash pblock toConnect { s with chainActive := chain }

end

section

variable (s : ChainState)

def bestCandidate : Option BlockIndex :=
  (s.setBlockIndexCandidates.filterMap fun hash => s.mapBlockIndex[hash]?).foldl
    (fun best pindex => if best.all fun b => workLess b pindex then some pindex else best) none

inductive Walk where
  | usable
  | unusable (pindexTest : BlockIndex)
  | assertion

/-- The walk from a candidate down to the active chain. -/
def walkCandidate : List Uint256 → Walk
  | [] => .usable
  | hash :: rest =>
    if s.contains hash then .usable
    else
      match s.mapBlockIndex[hash]? with
      | none => .assertion
      | some pindexTest =>
        if pindexTest.nChainTx = 0 ∧ pindexTest.index.nHeight ≠ 0 then .assertion
        else if pindexTest.failed || pindexTest.data.isNone then .unusable pindexTest
        else walkCandidate rest

/-- One round of the walk that removes a chain from the candidates. -/
def discardBlock (fFailedChain : Bool) (s : ChainState) (hash : Uint256) : ChainState :=
  let pprev := s.mapBlockIndex[hash]?.bind fun e => e.ancestors.head?
  let s := if fFailedChain then s.update hash BlockIndex.markFailedChild
    else
      { s with mapBlocksUnlinked :=
          s.mapBlocksUnlinked ++ (pprev.map fun p => (p.1, hash)).toList }
  { s with setBlockIndexCandidates := s.setBlockIndexCandidates.erase hash }

def discardCandidate (pindexNew pindexTest : BlockIndex) : ChainState :=
  let s := (pindexNew.path.takeWhile (· ≠ pindexTest.hash)).foldl
    (discardBlock pindexTest.failed) s
  { s with setBlockIndexCandidates := s.setBlockIndexCandidates.erase pindexTest.hash }

/-- Every round that does not return removes the candidate it looked at. -/
def findMostWorkChain : ℕ → ChainState → ChainState × Except Fault (Option BlockIndex)
  | 0, s => (s, .ok none)
  | n + 1, s =>
    match bestCandidate s with
    | none => (s, .ok none)
    | some pindexNew =>
      match walkCandidate s pindexNew.path with
      | .usable => (s, .ok (some pindexNew))
      | .assertion => (s, .error .assertion)
      | .unusable pindexTest => findMostWorkChain n (discardCandidate s pindexNew pindexTest)

def mostWorkChain (mostWork : Option BlockIndex) :
    ChainState × Except Fault (Option BlockIndex) :=
  match mostWork with
  | some pindex => (s, .ok (some pindex))
  | none => findMostWorkChain (s.setBlockIndexCandidates.length + 1) s

end

section

variable (env : Env) (call : CallEnv)

/-- The loop runs for `rounds` rounds at most; then a shutdown is requested. -/
def activateBestChain (pblock : Option CBlock) :
    ℕ → Option BlockIndex → ChainState → ChainState × Except Fault Unit
  | 0, _, s => (s, .ok ())
  | rounds + 1, mostWork, s =>
    match mostWorkChain s mostWork with
    | (s, .error e) => (s, .error e)
    | (s, .ok none) => (s, .ok ())
    | (s, .ok (some pindexMostWork)) =>
      if s.chainActive.head?.any fun tip => tip.hash == pindexMostWork.hash then (s, .ok ())
      else
        match activateBestChainStep env call s pindexMostWork
            (pblock.filter fun b => env.getHash b.header == pindexMostWork.hash) with
        | (s, .error e) => (s, .error e)
        | (s, .ok true) => activateBestChain pblock rounds none s
        | (s, .ok false) =>
          if s.chainActive.head?.any fun tip => tip.hash == pindexMostWork.hash then
            (s, .ok ())
          else activateBestChain pblock rounds (some pindexMostWork) s

def checkNewBlock (s : ChainState) (block : CBlock) : Except Invalid CBlock :=
  checkBlock env (env.isMaxCash s.tipHeight?) block (s.height + 1) true true

def processNewBlock (s : ChainState) (block : CBlock) (fForceProcessing : Bool) (rounds : ℕ) :
    ChainState × Except Fault Unit :=
  -- without a tip the height is read through a null pointer
  if s.chainActive = [] then (s, .error .assertion)
  else
    match checkNewBlock env s block with
    | .error r => (s, .error (.invalid r))
    | .ok block =>
      match acceptBlock env call s block fForceProcessing with
      | (s, .error e) => (s, .error e)
      | (s, .ok _) => activateBestChain env call (some block) rounds none s

inductive ReadStatus where
  | ok | invalid | failed | checkBlockFailed
  deriving DecidableEq

/-- The transactions of a compact block, with the missing ones put in their places. -/
def fillTransactions : List (Option CTransaction) → List CTransaction → Option (List CTransaction)
  | [], [] => some []
  | [], _ :: _ => none
  | some tx :: available, missing => (fillTransactions available missing).map (tx :: ·)
  | none :: _, [] => none
  | none :: available, tx :: missing => (fillTransactions available missing).map (tx :: ·)

/-- The height 0 is passed so that the founder rule is skipped. -/
def fillBlock (s : ChainState) (header : CBlockHeader) (available : List (Option CTransaction))
    (missing : List CTransaction) : ReadStatus × Option CBlock :=
  match fillTransactions available missing with
  | none => (.invalid, none)
  | some vtx =>
    let block : CBlock := ⟨header, vtx, false⟩
    match checkBlock env (env.isMaxCash s.tipHeight?) block 0 true true with
    | .ok block => (.ok, some block)
    | .error r => if r.corruptionPossible then (.failed, none) else (.checkBlockFailed, some block)

end

/-! ### What stays -/

/-- The tree keeps its nodes and its blocks, and the active chain stays. -/
structure Kept (s s' : ChainState) : Prop where
  node : s'.node? = s.node?
  data : s'.data? = s.data?
  chainActive : s'.chainActive = s.chainActive

section

variable {env : Env} {call : CallEnv} {s s' t : ChainState}

theorem Kept.refl : Kept s s := ⟨rfl, rfl, rfl⟩

theorem Kept.trans (h : Kept s s') (h' : Kept s' t) : Kept s t :=
  ⟨h'.node.trans h.node, h'.data.trans h.data, h'.chainActive.trans h.chainActive⟩

theorem update_kept {hash : Uint256} {f : BlockIndex → BlockIndex}
    (hnode : ∀ e, (f e).toBlockNode = e.toBlockNode) (hdata : ∀ e, (f e).data = e.data) :
    Kept s (s.update hash f) :=
  ⟨ChainState.node?_update hnode, ChainState.data?_update hdata, rfl⟩

theorem Kept.of_map (hmap : s'.mapBlockIndex = s.mapBlockIndex)
    (hchain : s'.chainActive = s.chainActive) : Kept s s' := by
  refine ⟨?_, ?_, hchain⟩
  · unfold ChainState.node?
    rw [hmap]
  · unfold ChainState.data?
    rw [hmap]

theorem insertCandidate_kept (hash : Uint256) : Kept s (insertCandidate s hash) := by
  unfold insertCandidate
  split
  · exact Kept.refl
  · exact Kept.of_map rfl rfl

theorem linkBlock_kept (hash : Uint256) : Kept s (linkBlock s hash) := by
  unfold linkBlock
  cases s.mapBlockIndex[hash]? with
  | none => exact Kept.refl
  | some pindex =>
    dsimp only
    generalize ((pindex.ancestors.head?.bind fun p => s.mapBlockIndex[p.1]?).map
      BlockIndex.nChainTx).getD 0 + pindex.nTx = nChainTx
    have updated : Kept s (s.update hash (BlockIndex.link · nChainTx s.nBlockSequenceId)) :=
      update_kept (fun _ => rfl) fun _ => rfl
    have counted := updated.trans (t := { s.update hash
      (BlockIndex.link · nChainTx s.nBlockSequenceId) with
      nBlockSequenceId := s.nBlockSequenceId + 1 }) (Kept.of_map rfl rfl)
    split
    · exact counted
    · exact counted.trans (insertCandidate_kept hash)

theorem linkQueue_kept (n : ℕ) (queue : List Uint256) : Kept s (linkQueue n s queue) := by
  induction n generalizing s queue with
  | zero => exact Kept.refl
  | succ n ih =>
    cases queue with
    | nil => exact Kept.refl
    | cons hash queue =>
      unfold linkQueue
      refine Kept.trans ?_ (ih _)
      exact (linkBlock_kept hash).trans (Kept.of_map rfl rfl)

theorem invalidBlockFound_kept (hash : Uint256) (r : Invalid) :
    Kept s (invalidBlockFound s hash r) := by
  unfold invalidBlockFound
  split
  · exact Kept.refl
  · have updated : Kept s (s.update hash BlockIndex.markFailedValid) :=
      update_kept (fun _ => rfl) fun _ => rfl
    exact updated.trans (Kept.of_map rfl rfl)

variable (env) in
theorem raiseConnected_kept (hash : Uint256) (block : CBlock) :
    Kept s (raiseConnected env s hash block) := by
  unfold raiseConnected
  split
  · exact Kept.refl
  · exact update_kept (fun e => e.raiseValidity_node _) fun e => e.raiseValidity_data _

theorem pruneBlockIndexCandidates_kept (h : pruneBlockIndexCandidates s = some s') : Kept s s' := by
  unfold pruneBlockIndexCandidates at h
  dsimp only at h
  split at h
  · exact absurd h (by simp)
  · obtain rfl := Option.some.inj h
    exact Kept.of_map rfl rfl

theorem discardBlock_kept (fFailedChain : Bool) (hash : Uint256) :
    Kept s (discardBlock fFailedChain s hash) := by
  unfold discardBlock
  cases fFailedChain with
  | true =>
    have updated : Kept s (s.update hash BlockIndex.markFailedChild) :=
      update_kept (fun _ => rfl) fun _ => rfl
    exact updated.trans (Kept.of_map rfl rfl)
  | false => exact Kept.of_map rfl rfl

theorem discardCandidate_kept (pindexNew pindexTest : BlockIndex) :
    Kept s (discardCandidate s pindexNew pindexTest) := by
  unfold discardCandidate
  generalize pindexNew.path.takeWhile (· ≠ pindexTest.hash) = hashes
  have walked : Kept s (hashes.foldl (discardBlock pindexTest.failed) s) := by
    induction hashes generalizing s with
    | nil => exact Kept.refl
    | cons hash hashes ih => exact (discardBlock_kept _ hash).trans ih
  exact walked.trans (Kept.of_map rfl rfl)

theorem findMostWorkChain_kept (n : ℕ) : Kept s (findMostWorkChain n s).1 := by
  induction n generalizing s with
  | zero => exact Kept.refl
  | succ n ih =>
    unfold findMostWorkChain
    cases bestCandidate s with
    | none => exact Kept.refl
    | some pindexNew =>
      dsimp only
      cases walkCandidate s pindexNew.path with
      | usable => exact Kept.refl
      | assertion => exact Kept.refl
      | unusable pindexTest => exact (discardCandidate_kept pindexNew pindexTest).trans ih

theorem mostWorkChain_kept (mostWork : Option BlockIndex) : Kept s (mostWorkChain s mostWork).1 := by
  cases mostWork with
  | some pindex => exact Kept.refl
  | none => exact findMostWorkChain_kept _

variable (call) in
theorem disconnectTips_suffix (fork : Option Uint256) (chain : List ActiveBlock) :
    (disconnectTips call fork chain).1 <:+ chain := by
  induction chain with
  | nil => exact List.suffix_refl _
  | cons tip pprev ih =>
    unfold disconnectTips
    split
    · exact List.suffix_refl _
    split
    · exact ih.trans (List.suffix_cons tip pprev)
    · exact List.suffix_refl _

theorem receivedBlockTransactions_kept (block : CBlock) (hash : Uint256) :
    Kept (s.update hash (storeBlock block)) (receivedBlockTransactions s block hash) := by
  unfold receivedBlockTransactions
  dsimp only
  split
  · exact linkQueue_kept _ _
  split
  · exact linkQueue_kept _ _
  split
  · exact Kept.of_map rfl rfl
  · exact Kept.refl

end

end ButCore.Validation
