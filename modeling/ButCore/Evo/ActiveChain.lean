import ButCore.Evo.MNList

/-!
# The active chain

The blocks from the tip down to genesis.
-/
namespace ButCore

def OP_RETURN : BitVec 8 := 0x6a
def MAX_SCRIPT_SIZE : ℕ := 10000

def isUnspendable (script : CScript) : Bool :=
  decide (script.head? = some OP_RETURN) || decide (MAX_SCRIPT_SIZE < script.length)

abbrev Coins := COutPoint → Option CTxOut

namespace Coins

def spendCoin (coins : Coins) (outpoint : COutPoint) : Coins := Function.update coins outpoint none

def addCoin (coins : Coins) (outpoint : COutPoint) (out : CTxOut) : Coins :=
  if isUnspendable out.scriptPubKey then coins else Function.update coins outpoint (some out)

def addCoins (coins : Coins) (tx : CTransaction) : Coins :=
  tx.vout.zipIdx.foldl (fun coins (out, i) => coins.addCoin ⟨tx.hash, BitVec.ofNat 32 i⟩ out) coins

def updateCoins (coins : Coins) (tx : CTransaction) : Coins :=
  let coins := if tx.isCoinBase then coins
    else tx.vin.foldl (fun coins txin => coins.spendCoin txin.prevout) coins
  coins.addCoins tx

end Coins

structure ConnectedBlock where
  hash : Uint256
  vtx : List CTransaction

/-- The tip is the head, genesis the last element. -/
abbrev ActiveChain := List ConnectedBlock

namespace ActiveChain

def coinsTip : ActiveChain → Coins
  | [] => fun _ => none
  | [_] => fun _ => none
  | block :: pprev => block.vtx.foldl Coins.updateCoins (coinsTip pprev)

def tipHeight (chain : ActiveChain) : ℤ := chain.length - 1

def at? (chain : ActiveChain) (nHeight : ℤ) : Option ConnectedBlock :=
  if 0 ≤ nHeight then chain.reverse[nHeight.toNat]? else none

end ActiveChain

namespace Evo

def Env.atTip (env : Env) (chain : ActiveChain) : Env :=
  { env with
    getUTXOCoin := chain.coinsTip
    tipHeight := if chain.isEmpty then 0 else chain.tipHeight }

end Evo

end ButCore
