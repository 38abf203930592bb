import ButCore.Lib.Traced
import ButCore.Validation.BestChain
import ButCore.Validation.ChainRules

/-!
# ChainLocks

The state of `CChainLocksHandler` and how a CLSIG gets into it.
-/
namespace ButCore.Llmq.ChainLocks

open Validation

variable {Sig PubKey : Type}

/-! ### The handler -/

structure CChainLockSig (Sig : Type) where
  nHeight : BitVec 32
  blockHash : Uint256
  sig : Sig

namespace CChainLockSig

def isNull (clsig : CChainLockSig Sig) : Bool :=
  decide (clsig.nHeight = -1) && decide (clsig.blockHash = 0)

def height (clsig : CChainLockSig Sig) : ℤ := clsig.nHeight.toInt

end CChainLockSig

/-- The pointer to the locked block is the node, which never changes. Of `seenChainLocks` only the
hashes are read. -/
structure Handler (Sig : Type) where
  isEnforced : Bool
  bestChainLockHash : Uint256
  bestChainLock : CChainLockSig Sig
  bestChainLockWithKnownBlock : CChainLockSig Sig
  bestChainLockBlockIndex : Option BlockNode
  seenChainLocks : List Uint256

/-- The walk down from the block; `none` is the null pointer. -/
def getAncestor (node : BlockNode) (height : ℤ) : Option Uint256 :=
  if node.index.nHeight < height ∨ height < 0 then none
  else node.path[(node.index.nHeight - height).toNat]?

namespace Handler

variable (l : Handler Sig)

def hasChainLock (nHeight : ℤ) (blockHash : Uint256) : Bool :=
  if !l.isEnforced then false
  else
    match l.bestChainLockBlockIndex with
    | none => false
    | some locked =>
      if locked.index.nHeight < nHeight then false
      else if nHeight = locked.index.nHeight then decide (blockHash = locked.hash)
      else decide (getAncestor locked nHeight = some blockHash)

/-- `none` when the assertion on the ancestor fails. -/
def hasConflictingChainLock (nHeight : ℤ) (blockHash : Uint256) : Option Bool :=
  if !l.isEnforced then some false
  else
    match l.bestChainLockBlockIndex with
    | none => some false
    | some locked =>
      if locked.index.nHeight < nHeight then some false
      else if nHeight = locked.index.nHeight then some (decide (blockHash ≠ locked.hash))
      else (getAncestor locked nHeight).map fun ancestor => decide (ancestor ≠ blockHash)

/-- The CLSIG becomes the best one; its block is locked at once if it is known at that height. -/
def adopt (s : ChainState) (clsig : CChainLockSig Sig) (hash : Uint256) : Handler Sig :=
  let l := { l with bestChainLockHash := hash, bestChainLock := clsig }
  match s.node? clsig.blockHash with
  | none => l
  | some node =>
    if node.index.nHeight ≠ clsig.height then l
    else { l with bestChainLockWithKnownBlock := clsig, bestChainLockBlockIndex := some node }

def acceptedBlockHeader (pindexNew : BlockNode) : Handler Sig :=
  if pindexNew.hash = l.bestChainLock.blockHash then
    if l.bestChainLock.height ≠ pindexNew.index.nHeight then l
    else
      { l with
        bestChainLockWithKnownBlock := l.bestChainLock
        bestChainLockBlockIndex := some pindexNew }
  else l

end Handler

/-! ### Verification -/

structure Quorum (PubKey : Type) where
  quorumHash : Uint256
  quorumPublicKey : PubKey

/-- What the signing manager reads of the quorums. `minedQuorums` is `ScanQuorums` from a block that
exists, and `score` is the number that the hash of a quorum and the selection hash give. -/
structure SigningQuorums (Sig PubKey : Type) where
  signingActiveQuorumCount : ℕ
  requestId : BitVec 32 → Uint256
  minedQuorums : Uint256 → ℕ → List (Quorum PubKey)
  score : Uint256 → Uint256 → ℕ
  buildSignHash : Uint256 → Uint256 → Uint256 → Uint256
  verifyInsecure : Sig → PubKey → Uint256 → Bool

def SIGN_HEIGHT_OFFSET : BitVec 32 := 8

def activeAt (s : ChainState) (nHeight : ℤ) : Option Uint256 :=
  if nHeight < 0 ∨ s.chainActive.length ≤ nHeight then none
  else s.chainActive.reverse[nHeight.toNat]?.map ActiveBlock.hash

section

variable (q : SigningQuorums Sig PubKey) (s : ChainState)

/-- Without a block index the first line reads through the null pointer, and the process ends. -/
def scanQuorums (pindexStart : Option Uint256) :
    Traced (Option Uint256) (Option (List (Quorum PubKey))) :=
  Traced.emit pindexStart
    (pindexStart.map fun start => q.minedQuorums start q.signingActiveQuorumCount)

/-- The subtraction is one of `int`, which wraps around. -/
def startBlockHeight (signHeight : BitVec 32) : ℤ := (signHeight - SIGN_HEIGHT_OFFSET).toInt

def getActiveQuorumSet (signHeight : BitVec 32) :
    Traced (Option Uint256) (Option (List (Quorum PubKey))) :=
  if s.height < startBlockHeight signHeight then pure (some [])
  else scanQuorums q (activeAt s (startBlockHeight signHeight))

/-- The quorum with the smallest score, the first of them on ties. -/
def selectQuorumForSigning (signHeight : BitVec 32) (selectionHash : Uint256) :
    Traced (Option Uint256) (Option (Option (Quorum PubKey))) := do
  let quorums ← getActiveQuorumSet q s signHeight
  pure (quorums.map fun quorums =>
    quorums.argmin fun quorum => q.score quorum.quorumHash selectionHash)

def verifyRecoveredSig (signedAtHeight : BitVec 32) (id msgHash : Uint256) (sig : Sig) :
    Traced (Option Uint256) (Option Bool) := do
  let selected ← selectQuorumForSigning q s signedAtHeight id
  pure (selected.map fun selected => selected.any fun quorum =>
    q.verifyInsecure sig quorum.quorumPublicKey
      (q.buildSignHash quorum.quorumHash id msgHash))

/-- A CLSIG that is verified is adopted unless it conflicts; the value is `none` when the process
ends. -/
def processNewChainLock (l : Handler Sig) (clsig : CChainLockSig Sig) (hash : Uint256) :
    Traced (Option Uint256) (Option (Handler Sig)) :=
  if hash ∈ l.seenChainLocks then pure (some l)
  else
    let l := { l with seenChainLocks := hash :: l.seenChainLocks }
    if !l.bestChainLock.isNull && decide (clsig.height ≤ l.bestChainLock.height) then
      pure (some l)
    else do
      let verified ← verifyRecoveredSig q s clsig.nHeight (q.requestId clsig.nHeight)
        clsig.blockHash clsig.sig
      pure (verified.bind fun verified =>
        if verified then
          (l.hasConflictingChainLock clsig.height clsig.blockHash).map fun conflicting =>
            if conflicting then l else l.adopt s clsig hash
        else some l)

end

/-! ### Where the search for a quorum starts -/

section

variable {q : SigningQuorums Sig PubKey} {s : ChainState}

def Active (s : ChainState) (pindex : Option Uint256) : Prop :=
  ∃ b ∈ s.chainActive, pindex = some b.hash

theorem activeAt_active {nHeight : ℤ} (lower : 0 ≤ nHeight) (upper : nHeight ≤ s.height) :
    Active s (activeAt s nHeight) := by
  unfold ChainState.height at upper
  have inside : nHeight.toNat < s.chainActive.reverse.length := by
    rw [List.length_reverse]
    omega
  have present : ¬ (nHeight < 0 ∨ s.chainActive.length ≤ nHeight) := by omega
  refine ⟨s.chainActive.reverse[nHeight.toNat],
    List.mem_reverse.mp (List.getElem_mem inside), ?_⟩
  unfold activeAt
  rw [if_neg present, List.getElem?_eq_getElem inside, Option.map_some]

theorem activeAt_negative {nHeight : ℤ} (h : nHeight < 0) : activeAt s nHeight = none := by
  unfold activeAt
  rw [if_pos (Or.inl h)]

theorem not_active_none : ¬ Active s none := by
  rintro ⟨b, -, h⟩
  cases h

theorem getActiveQuorumSet_within_iff (signHeight : BitVec 32) :
    Traced.Within (Active s) (getActiveQuorumSet q s signHeight) ↔
      0 ≤ startBlockHeight signHeight := by
  unfold getActiveQuorumSet
  split
  · next above =>
      unfold ChainState.height at above
      refine ⟨fun _ => by omega, fun _ => Traced.within_pure _⟩
  · next below =>
      constructor
      · intro h
        by_contra negative
        have scanned := h (activeAt s (startBlockHeight signHeight)) (List.mem_singleton.mpr rfl)
        rw [activeAt_negative (not_le.mp negative)] at scanned
        exact not_active_none scanned
      · intro lower
        exact Traced.within_emit _ (activeAt_active lower (not_lt.mp below))

theorem verifyRecoveredSig_trace (signHeight : BitVec 32) (id msgHash : Uint256) (sig : Sig) :
    (verifyRecoveredSig q s signHeight id msgHash sig).trace =
      (getActiveQuorumSet q s signHeight).trace := by
  change ((getActiveQuorumSet q s signHeight).trace ++ []) ++ [] = _
  rw [List.append_nil, List.append_nil]

/-- The CLSIG is dropped before it is verified. -/
def Stale (l : Handler Sig) (clsig : CChainLockSig Sig) (hash : Uint256) : Prop :=
  hash ∈ l.seenChainLocks ∨
    l.bestChainLock.isNull = false ∧ clsig.height ≤ l.bestChainLock.height

theorem processNewChainLock_trace (l : Handler Sig) (clsig : CChainLockSig Sig) (hash : Uint256) :
    Stale l clsig hash ∧ (processNewChainLock q s l clsig hash).trace = [] ∨
      ¬ Stale l clsig hash ∧ (processNewChainLock q s l clsig hash).trace =
        (getActiveQuorumSet q s clsig.nHeight).trace := by
  unfold processNewChainLock Stale
  by_cases seen : hash ∈ l.seenChainLocks
  · rw [if_pos seen]
    exact Or.inl ⟨Or.inl seen, rfl⟩
  rw [if_neg seen]
  dsimp only
  split
  · next old =>
      rw [Bool.and_eq_true, Bool.not_eq_true', decide_eq_true_eq] at old
      exact Or.inl ⟨Or.inr old, rfl⟩
  · next new =>
      rw [Bool.and_eq_true, Bool.not_eq_true', decide_eq_true_eq] at new
      refine Or.inr ⟨fun stale => stale.elim seen new, ?_⟩
      rw [← verifyRecoveredSig_trace clsig.nHeight (q.requestId clsig.nHeight) clsig.blockHash
        clsig.sig]
      exact List.append_nil _

end

/-- `ScanQuorums` is not called or starts from a block of the active chain exactly when the CLSIG is
stale or its height less eight is not negative. -/
theorem processNewChainLock_within_iff (q : SigningQuorums Sig PubKey) (s : ChainState)
    (l : Handler Sig) (clsig : CChainLockSig Sig) (hash : Uint256) :
    Traced.Within (Active s) (processNewChainLock q s l clsig hash) ↔
      Stale l clsig hash ∨ 0 ≤ startBlockHeight clsig.nHeight := by
  rw [← getActiveQuorumSet_within_iff (q := q) (s := s)]
  unfold Traced.Within
  rcases processNewChainLock_trace (q := q) (s := s) l clsig hash with
    ⟨stale, htrace⟩ | ⟨fresh, htrace⟩
  · rw [htrace]
    exact ⟨fun _ => Or.inl stale, fun _ pindex hmem => absurd hmem List.not_mem_nil⟩
  · rw [htrace]
    exact ⟨Or.inr, fun h => h.resolve_left fresh⟩

def fresh (sig : Sig) : Handler Sig where
  isEnforced := true
  bestChainLockHash := 0
  bestChainLock := ⟨-1, 0, sig⟩
  bestChainLockWithKnownBlock := ⟨-1, 0, sig⟩
  bestChainLockBlockIndex := none
  seenChainLocks := []

def toyQuorums : SigningQuorums Unit Unit where
  signingActiveQuorumCount := 1
  requestId := fun nHeight => nHeight.setWidth 256
  minedQuorums := fun start _ => [⟨start, ()⟩]
  score := fun _ _ => 0
  buildSignHash := fun quorumHash _ _ => quorumHash
  verifyInsecure := fun _ _ _ => true

/-- A CLSIG for height 3 is the first one that arrives. -/
theorem processNewChainLock_scans_null :
    (processNewChainLock toyQuorums (initial toyEnv) (fresh ()) ⟨3, 2, ()⟩ 7).trace = [none] ∧
      (processNewChainLock toyQuorums (initial toyEnv) (fresh ()) ⟨3, 2, ()⟩ 7).value.isNone =
        true := by
  decide +kernel

end ButCore.Llmq.ChainLocks
