import Mathlib.Data.BitVec
import Mathlib.Data.List.Sort

/-!
# Block indexes and consensus parameters

A `CBlockIndex*` with its `pprev` pointers is the list of block indexes from that block down to
genesis; `nullptr` is the empty list.
-/
namespace ButCore

inductive Algo where
  | butkscrypt | sha256d | lyra2 | ghostrider | yespower | scrypt
  deriving DecidableEq, Repr

def NUM_ALGOS : ℕ := 3
def NUM_ALGOSV2 : ℕ := 4
def NUM_ALGOSV3 : ℕ := 5
def NUM_ALGOSV4 : ℕ := 6

def BLOCK_VERSION_ALGO : BitVec 32 := 15 <<< 11
def BLOCK_VERSION_BUTKSCRYPT : BitVec 32 := 1 <<< 11
def BLOCK_VERSION_SHA256D : BitVec 32 := 2 <<< 11
def BLOCK_VERSION_GHOSTRIDER : BitVec 32 := 3 <<< 11
def BLOCK_VERSION_YESPOWER : BitVec 32 := 4 <<< 11
def BLOCK_VERSION_LYRA2 : BitVec 32 := 10 <<< 11
def BLOCK_VERSION_SCRYPT : BitVec 32 := 5 <<< 11

/-- The switch of `GetAlgo`; a version without a known algo is butkscrypt. -/
def getAlgo (nVersion : BitVec 32) : Algo :=
  let v := nVersion &&& BLOCK_VERSION_ALGO
  if v = BLOCK_VERSION_SCRYPT then .scrypt
  else if v = BLOCK_VERSION_BUTKSCRYPT then .butkscrypt
  else if v = BLOCK_VERSION_SHA256D then .sha256d
  else if v = BLOCK_VERSION_LYRA2 then .lyra2
  else if v = BLOCK_VERSION_GHOSTRIDER then .ghostrider
  else if v = BLOCK_VERSION_YESPOWER then .yespower
  else .butkscrypt

structure CBlockIndex where
  nHeight : ℤ
  nVersion : BitVec 32
  nTime : BitVec 32
  nBits : BitVec 32
  deriving DecidableEq, Repr

abbrev Chain := List CBlockIndex

def CBlockIndex.getBlockTime (b : CBlockIndex) : ℤ := b.nTime.toNat

def nMedianTimeSpan : ℕ := 11

def getMedianTimePast (pindex : Chain) : ℤ :=
  let times := (pindex.take nMedianTimeSpan).map CBlockIndex.getBlockTime
  (times.insertionSort (· ≤ ·)).getD (times.length / 2) 0

/-- The parameters that the retarget rules read. The timespans they divide by are positive. -/
structure ConsensusParams where
  powLimit : BitVec 256
  nPowTargetSpacing : ℤ
  nAveragingInterval : ℕ
  nAveragingTargetTimespan : ℤ
  nAveragingTargetTimespanV2 : ℤ
  nMinActualTimespan : ℤ
  nMaxActualTimespan : ℤ
  nMinActualTimespanV2 : ℤ
  nMaxActualTimespanV2 : ℤ
  nMinActualTimespanV3 : ℤ
  nMaxActualTimespanV3 : ℤ
  v2DiffChangeHeight : ℤ
  v3DiffChangeHeight : ℤ
  AlgoChangeHeight : ℤ
  nSwitchHeight : ℤ
  nLocalTargetAdjustment : ℤ
  fPowAllowMinDifficultyBlocks : Bool
  fPowNoRetargeting : Bool
  targetTimespan_pos : 0 < nAveragingTargetTimespan
  targetTimespanV2_pos : 0 < nAveragingTargetTimespanV2
  localTargetAdjustment_nonneg : 0 ≤ nLocalTargetAdjustment

namespace MainParams

def nAveragingInterval : ℕ := 10
def multiAlgoTargetSpacing : ℤ := 90 * 3
def multiAlgoTargetSpacingV2 : ℤ := 90 * 4
def nAveragingTargetTimespan : ℤ := nAveragingInterval * multiAlgoTargetSpacing
def nAveragingTargetTimespanV2 : ℤ := nAveragingInterval * multiAlgoTargetSpacingV2
def nMaxAdjustDown : ℤ := 16
def nMaxAdjustUp : ℤ := 8
def nMaxAdjustDownV2 : ℤ := 12
def nMaxAdjustUpV2 : ℤ := 10

end MainParams

open MainParams in
/-- The values that `CMainParams` sets. The V2 clamps are derived from the V1 timespan. -/
def mainParams : ConsensusParams where
  powLimit := 0x00ffffffffffffffffffffffffffffffffffffffffffffffffffffffffffffff
  nPowTargetSpacing := 60
  nAveragingInterval := nAveragingInterval
  nAveragingTargetTimespan := nAveragingTargetTimespan
  nAveragingTargetTimespanV2 := nAveragingTargetTimespanV2
  nMinActualTimespan := (nAveragingTargetTimespan * (100 - nMaxAdjustUp)).tdiv 100
  nMaxActualTimespan := (nAveragingTargetTimespan * (100 + nMaxAdjustDown)).tdiv 100
  nMinActualTimespanV2 := (nAveragingTargetTimespan * (100 - nMaxAdjustUpV2)).tdiv 100
  nMaxActualTimespanV2 := (nAveragingTargetTimespan * (100 + nMaxAdjustDownV2)).tdiv 100
  nMinActualTimespanV3 := (nAveragingTargetTimespanV2 * (100 - nMaxAdjustUpV2)).tdiv 100
  nMaxActualTimespanV3 := (nAveragingTargetTimespanV2 * (100 + nMaxAdjustDownV2)).tdiv 100
  v2DiffChangeHeight := 5
  v3DiffChangeHeight := 10
  AlgoChangeHeight := 28
  nSwitchHeight := 150000
  nLocalTargetAdjustment := 4
  fPowAllowMinDifficultyBlocks := false
  fPowNoRetargeting := false
  targetTimespan_pos := by decide
  targetTimespanV2_pos := by decide
  localTargetAdjustment_nonneg := by decide

end ButCore
