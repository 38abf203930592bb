import Mathlib

/-! 256-bit unsigned integers as values. `BitVec 256` stands for the word array of
`base_uint<256>`: products are reduced modulo 2^256, quotients are floors, and a left
shift drops the bits that leave the array. -/
namespace ButCore

abbrev ArithUint256 := BitVec 256

namespace ArithUint256

def ofU64 (b : BitVec 64) : ArithUint256 := b.setWidth 256

def mulU32 (x : ArithUint256) (b32 : BitVec 32) : ArithUint256 := x * b32.setWidth 256

def bits (x : ArithUint256) : Nat := if x = 0 then 0 else x.toNat.log2 + 1

def getLow64 (x : ArithUint256) : BitVec 64 := x.setWidth 64

structure Compact where
  value : ArithUint256
  fNegative : Bool
  fOverflow : Bool

def setCompact (nCompact : BitVec 32) : Compact :=
  let nSize := (nCompact >>> 24).toNat
  let nWord := nCompact &&& 0x007fffff
  let shifted := nWord >>> (8 * (3 - nSize))
  let nWord' := if nSize ≤ 3 then shifted else nWord
  { value :=
      if nSize ≤ 3 then nWord'.setWidth 256
      else nWord'.setWidth 256 <<< (8 * (nSize - 3))
    fNegative := nWord' != 0 && (nCompact &&& 0x00800000) != 0
    fOverflow := nWord' != 0 && (decide (34 < nSize) ||
      (decide (0xff < nWord') && decide (33 < nSize)) ||
      (decide (0xffff < nWord') && decide (32 < nSize))) }

/-- Mantissa and exponent of the compact form, before they are packed. The first
mantissa may use the sign bit; then it is divided by 256. -/
def compactParts (x : ArithUint256) : BitVec 32 × Nat :=
  let nSize := (bits x + 7) / 8
  let nCompact : BitVec 32 :=
    if nSize ≤ 3 then (getLow64 x <<< (8 * (3 - nSize))).setWidth 32
    else (getLow64 (x >>> (8 * (nSize - 3)))).setWidth 32
  if nCompact &&& 0x00800000 != 0 then (nCompact >>> 8, nSize + 1) else (nCompact, nSize)

def getCompact (x : ArithUint256) (fNegative : Bool) : BitVec 32 :=
  let (nCompact, nSize) := compactParts x
  let nCompact := nCompact ||| BitVec.ofNat 32 nSize <<< 24
  nCompact ||| (if fNegative && (nCompact &&& 0x007fffff) != 0 then 0x00800000 else 0)

end ArithUint256
end ButCore
