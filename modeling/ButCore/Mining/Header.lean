import ButCore.Validation.BlockTree

/-!
# The header of a new block

The algo that was asked for is written into the version, where an algo that is not active yet is
replaced by butkscrypt.
-/
namespace ButCore.Mining

open Validation

def VERSIONBITS_TOP_BITS : BitVec 32 := 0x20000000

/-- The only deployment has bit 28; it is signalled while it is started or locked in. -/
def deploymentBits (signalled : Bool) : BitVec 32 :=
  if signalled then VERSIONBITS_TOP_BITS ||| (1 <<< 28) else VERSIONBITS_TOP_BITS

theorem deploymentBits_and_algo (signalled : Bool) :
    deploymentBits signalled &&& BLOCK_VERSION_ALGO = 0 := by
  cases signalled <;> decide

/-- The target that `UpdateTime` sets on some networks is set again right after it. -/
def updateTime (pindexPrev : Chain) (adjustedTime : ℤ) (nTime : BitVec 32) : BitVec 32 :=
  let nNewTime := max (getMedianTimePast pindexPrev + 1) adjustedTime
  if nTime.toNat < nNewTime then BitVec.ofInt 32 nNewTime else nTime

def createHeader (params : ConsensusParams) (signalled : Bool) (pindexPrev : BlockIndex) (algo : Algo)
    (adjustedTime : ℤ) : CBlockHeader where
  nVersion := computeBlockVersion params (deploymentBits signalled) algo pindexPrev.index.nHeight
  hashPrevBlock := pindexPrev.hash
  hashMerkleRoot := 0
  nTime := updateTime pindexPrev.chain adjustedTime (BitVec.ofInt 32 adjustedTime)
  nBits := Pow.getNextWorkRequired pindexPrev.chain params algo
  nNonce := 0

theorem getAlgo_computeBlockVersion_of_inactive (params : ConsensusParams) {deployments : BitVec 32}
    (h : deployments &&& BLOCK_VERSION_ALGO = 0) {algo : Algo} {prevHeight : ℤ}
    (inactive : algoActive params algo prevHeight = false) :
    getAlgo (computeBlockVersion params deployments algo prevHeight) = .butkscrypt := by
  have butkscrypt : getAlgo BLOCK_VERSION_BUTKSCRYPT = .butkscrypt := by decide
  unfold computeBlockVersion
  rw [getAlgo_or h]
  cases algo with
  | butkscrypt => cases inactive
  | sha256d => cases inactive
  | ghostrider => cases inactive
  | yespower =>
    have early : prevHeight < params.v2DiffChangeHeight := by simpa [algoActive] using inactive
    simp only [if_pos early, butkscrypt]
  | lyra2 =>
    have early : prevHeight < params.AlgoChangeHeight := by simpa [algoActive] using inactive
    simp only [if_pos early, butkscrypt]
  | scrypt =>
    have early : prevHeight < params.nSwitchHeight := by simpa [algoActive] using inactive
    simp only [if_pos early, butkscrypt]

/-- The header passes the check of its work exactly when the algo is active, or when butkscrypt has
the target that was set for the algo. -/
theorem createHeader_work_iff (params : ConsensusParams) (signalled : Bool) (pindexPrev : BlockIndex)
    (algo : Algo) (adjustedTime : ℤ) :
    (createHeader params signalled pindexPrev algo adjustedTime).nBits =
        Pow.getNextWorkRequired pindexPrev.chain params
          (getAlgo (createHeader params signalled pindexPrev algo adjustedTime).nVersion) ↔
      algoActive params algo pindexPrev.index.nHeight = true ∨
        Pow.getNextWorkRequired pindexPrev.chain params .butkscrypt =
          Pow.getNextWorkRequired pindexPrev.chain params algo := by
  have free := deploymentBits_and_algo signalled
  unfold createHeader
  cases active : algoActive params algo pindexPrev.index.nHeight with
  | true =>
    rw [(getAlgo_computeBlockVersion_iff params free algo pindexPrev.index.nHeight).mpr active]
    simp
  | false =>
    rw [getAlgo_computeBlockVersion_of_inactive params free active, eq_comm]
    simp

def evenTip (n : ℕ) : BlockIndex where
  hash := 1
  index := ⟨n, BLOCK_VERSION_BUTKSCRYPT, BitVec.ofNat 32 (90 * n), 0x1e0fffff⟩
  ancestors := (Pow.evenChain 0x1e0fffff 90 n).map (0, ·)
  nChainWork := 0
  nTx := 1
  nChainTx := n
  nSequenceId := 0
  validity := BLOCK_VALID_SCRIPTS
  data := none
  failedValid := false
  failedChild := false
  conflictChainlock := false

/-- Scrypt is asked for long before its height: the header claims butkscrypt, with the target of an
algo that has no blocks yet. -/
theorem createHeader_scrypt_wrong_target :
    (createHeader mainParams false (evenTip 60) .scrypt 6000).nBits = Pow.powWorkLimit mainParams ∧
      getAlgo (createHeader mainParams false (evenTip 60) .scrypt 6000).nVersion = .butkscrypt ∧
      Pow.getNextWorkRequired (evenTip 60).chain mainParams .butkscrypt ≠
        Pow.powWorkLimit mainParams := by
  refine ⟨?_, ?_, ?_⟩ <;> decide +kernel

end ButCore.Mining
