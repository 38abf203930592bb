import ButCore.Coins.AddressIndex
import ButCore.Validation.CheckBlock

/-!
# Connecting and disconnecting a block

What `ConnectBlock` and `DisconnectBlock` do to the coins view, with the undo data that the one
records and the other reads, and the index writes that both collect. The other checks of
`ConnectBlock` only turn blocks away.
-/
namespace ButCore

open AddressIndex Checked
open Validation (Invalid reject)

def CTransaction.coins (tx : CTransaction) (nHeight : ℕ) : List (COutPoint × Coin) :=
  tx.vout.zipIdx.map fun (out, i) => (⟨tx.hash, BitVec.ofNat 32 i⟩, ⟨out, tx.isCoinBase, nHeight⟩)

structure CTxUndo where
  vprevout : List Coin
  deriving DecidableEq

inductive ConnectFault where
  | invalid (state : Invalid)
  | coins (fault : CoinsFault)
  deriving DecidableEq

inductive DisconnectFault where
  | failed
  | coins (fault : CoinsFault)
  deriving DecidableEq

inductive DisconnectResult where
  | ok
  | unclean
  deriving DecidableEq

namespace CCoinsViewCache

def haveAll (V : CCoinsViewCache) : List COutPoint → Bool × CCoinsViewCache
  | [] => (true, V)
  | o :: os =>
    let (have_, V) := V.haveCoin o
    if have_ then haveAll V os else (false, V)

def haveInputs (V : CCoinsViewCache) (tx : CTransaction) : Bool × CCoinsViewCache :=
  if tx.isCoinBase then (true, V) else V.haveAll (tx.vin.map CTxIn.prevout)

def spendInputs (V : CCoinsViewCache) :
    List COutPoint → Except CoinsFault (List Coin × CCoinsViewCache)
  | [] => .ok ([], V)
  | o :: os => do
    let coin ← expect (V.spendCoin o).1 .assertion
    let (coins, V) ← spendInputs (V.spendCoin o).2 os
    pure (coin :: coins, V)

def addCoins (V : CCoinsViewCache) (tx : CTransaction) (nHeight : ℕ) :
    Except CoinsFault CCoinsViewCache :=
  (tx.coins nHeight).foldlM (fun V created => V.addCoin created.1 created.2 tx.isCoinBase) V

def updateCoins (V : CCoinsViewCache) (tx : CTransaction) (nHeight : ℕ) :
    Except CoinsFault (CTxUndo × CCoinsViewCache) := do
  let (vprevout, V) ← (if tx.isCoinBase then pure ([], V)
    else V.spendInputs (tx.vin.map CTxIn.prevout))
  let V ← V.addCoins tx nHeight
  pure (⟨vprevout⟩, V)

def MAX_OUTPUTS_PER_BLOCK : ℕ := maxBlockSize true / 9

def accessFrom (txid : Uint256) : ℕ → ℕ → CCoinsViewCache → Coin × CCoinsViewCache
  | 0, _, V => (Coin.empty, V)
  | left + 1, n, V =>
    let (alternate, V) := V.accessCoin ⟨txid, BitVec.ofNat 32 n⟩
    if alternate.isSpent then accessFrom txid left (n + 1) V else (alternate, V)

def accessByTxid (V : CCoinsViewCache) (txid : Uint256) : Coin × CCoinsViewCache :=
  accessFrom txid MAX_OUTPUTS_PER_BLOCK 0 V

/-- The returned flag tells `DISCONNECT_OK` from `DISCONNECT_UNCLEAN`. -/
def applyTxInUndo (V : CCoinsViewCache) (undo : Coin) (out : COutPoint) :
    Except DisconnectFault (Bool × CCoinsViewCache) := do
  let (found, V) := V.haveCoin out
  let fClean := !found
  -- Height zero stands for metadata that older versions left out.
  let (undo, V) ← if undo.nHeight = 0 then do
      let (alternate, V) := V.accessByTxid out.hash
      failIf (alternate.isSpent = true) .failed
      pure ({ undo with nHeight := alternate.nHeight, fCoinBase := alternate.fCoinBase }, V)
    else pure (undo, V)
  let V ← (V.addCoin out undo (!fClean)).mapError .coins
  pure (fClean, V)

end CCoinsViewCache

section

variable (cfg : IndexConfig) (nHeight : ℕ)

def readInputs (txindex : ℕ) (txhash : Uint256) :
    List (COutPoint × ℕ) → CCoinsViewCache → IndexBatch × CCoinsViewCache
  | [], V => (.empty, V)
  | (prevout, j) :: rest, V =>
    let (coin, V) := V.accessCoin prevout
    let (batch, V) := readInputs txindex txhash rest V
    (connectInput cfg ⟨nHeight, txindex, txhash, j⟩ prevout coin ++ batch, V)

def outputBatches (entry : Place → COutPoint → CTxOut → IndexBatch) (tx : CTransaction)
    (txindex : ℕ) : List IndexBatch :=
  (tx.coins nHeight).zipIdx.map fun (created, k) =>
    entry ⟨nHeight, txindex, tx.hash, k⟩ created.1 created.2.out

def connectTx (tx : CTransaction) (txindex : ℕ) (V : CCoinsViewCache) :
    Except ConnectFault (CTxUndo × IndexBatch × CCoinsViewCache) := do
  let (found, V) := V.haveInputs tx
  require (found = true) (.invalid (reject 100 "bad-txns-inputs-missingorspent"))
  let (inputs, V) := if tx.isCoinBase = false ∧ (cfg.fAddressIndex || cfg.fSpentIndex) = true
    then readInputs cfg nHeight txindex tx.hash (tx.vin.map CTxIn.prevout).zipIdx V
    else (.empty, V)
  let outputs := IndexBatch.concat (outputBatches nHeight (connectOutput cfg) tx txindex)
  let (undo, V) ← (V.updateCoins tx nHeight).mapError .coins
  pure (undo, inputs ++ outputs, V)

def connectTxs : List (CTransaction × ℕ) → CCoinsViewCache →
    Except ConnectFault (List CTxUndo × IndexBatch × CCoinsViewCache)
  | [], V => .ok ([], .empty, V)
  | (tx, txindex) :: rest, V => do
    let (undo, batch, V) ← connectTx cfg nHeight tx txindex V
    let (undos, batches, V) ← connectTxs rest V
    pure (undo :: undos, batch ++ batches, V)

/-- The undo record of the first transaction is a dummy. -/
def connectBlock (vtx : List CTransaction) (V : CCoinsViewCache) :
    Except ConnectFault (List CTxUndo × IndexBatch × CCoinsViewCache) := do
  let (undos, batch, V) ← connectTxs cfg nHeight vtx.zipIdx V
  pure (undos.tail, batch, V)

end

section

variable (cfg : IndexConfig) (nHeight : ℕ)

structure Undoing where
  fClean : Bool
  batch : IndexBatch
  view : CCoinsViewCache

def spendOutput (s : Bool × CCoinsViewCache) (created : COutPoint × Coin) :
    Bool × CCoinsViewCache :=
  if isUnspendable created.2.out.scriptPubKey then s
  else (s.1 && decide ((s.2.spendCoin created.1).1 = some created.2), (s.2.spendCoin created.1).2)

def restoreInput (txindex : ℕ) (txhash : Uint256) (input : (COutPoint × Coin) × ℕ) (s : Undoing) :
    Except DisconnectFault Undoing := do
  let ((prevout, undo), j) := input
  let (clean, V) ← s.view.applyTxInUndo undo prevout
  let (coin, V) := if cfg.fAddressIndex then V.accessCoin prevout else (Coin.empty, V)
  pure ⟨s.fClean && clean,
    s.batch ++ disconnectInput cfg ⟨nHeight, txindex, txhash, j⟩ prevout coin undo.nHeight, V⟩

/-- One round of the loop in `DisconnectBlock`; there is no undo record for the first
transaction. -/
def disconnectTx (tx : CTransaction) (txindex : ℕ) (undo : Option CTxUndo) (s : Undoing) :
    Except DisconnectFault Undoing := do
  let outputs := IndexBatch.concat (outputBatches nHeight (disconnectOutput cfg) tx txindex).reverse
  let (fClean, V) := (tx.coins nHeight).foldl spendOutput (s.fClean, s.view)
  let s : Undoing := ⟨fClean, s.batch ++ outputs, V⟩
  match undo with
  | none => pure s
  | some undo => do
    require (undo.vprevout.length = tx.vin.length) .failed
    ((tx.vin.map CTxIn.prevout).zip undo.vprevout).zipIdx.foldrM
      (restoreInput cfg nHeight txindex tx.hash) s

def disconnectTxs (entries : List ((CTransaction × ℕ) × Option CTxUndo)) (s : Undoing) :
    Except DisconnectFault Undoing :=
  entries.foldrM (fun entry s => disconnectTx cfg nHeight entry.1.1 entry.1.2 entry.2 s) s

def disconnectBlock (vtx : List CTransaction) (vtxundo : List CTxUndo) (V : CCoinsViewCache) :
    Except DisconnectFault (DisconnectResult × IndexBatch × CCoinsViewCache) := do
  require (vtxundo.length + 1 = vtx.length) .failed
  let s ← disconnectTxs cfg nHeight (vtx.zipIdx.zip (none :: vtxundo.map some)) ⟨true, .empty, V⟩
  pure (if s.fClean then .ok else .unclean, s.batch, s.view)

end

end ButCore
