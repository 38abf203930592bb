import ButCore.Coins.ViewCache
import ButCore.Lib.Table

/-!
# The address, address-unspent and spent indexes

`ConnectBlock` and `DisconnectBlock` collect writes to the indexes while they go through the inputs
and outputs of a block, and apply them at the end.
-/
namespace ButCore.AddressIndex

/-! ### Kinds of scripts -/

def byteIs (script : CScript) (i : ℕ) (byte : BitVec 8) : Bool := decide (script[i]? = some byte)

/-- The first byte, the length of the key, is not looked at. -/
def isPayToPublicKey (script : CScript) : Bool :=
  if script.length = 35 then
    (byteIs script 1 0x02 || byteIs script 1 0x03) && byteIs script 34 OP_CHECKSIG
  else if script.length = 67 then byteIs script 1 0x04 && byteIs script 66 OP_CHECKSIG
  else false

/-- The branch a script takes in each of the loops, with the hash computed there. -/
inductive ScriptAddress where
  | scriptHash (hashBytes : BitVec 160)
  | pubKeyHash (hashBytes : BitVec 160)
  | pubKey (hashBytes : BitVec 160)
  | other
  deriving DecidableEq

namespace ScriptAddress

def addressType : ScriptAddress → ℕ
  | scriptHash _ => 2
  | pubKeyHash _ => 1
  | pubKey _ => 1
  | other => 0

def hashBytes : ScriptAddress → BitVec 160
  | scriptHash h => h
  | pubKeyHash h => h
  | pubKey h => h
  | other => 0

end ScriptAddress

/-! ### Keys and values -/

structure CAddressIndexKey where
  type : ℕ
  hashBytes : BitVec 160
  blockHeight : ℕ
  txindex : ℕ
  txhash : Uint256
  index : ℕ
  spending : Bool
  deriving DecidableEq

/-- The outpoint stands for `txhash` and `index`. -/
structure CAddressUnspentKey where
  type : ℕ
  hashBytes : BitVec 160
  outpoint : COutPoint
  deriving DecidableEq

structure CAddressUnspentValue where
  satoshis : CAmount
  script : CScript
  blockHeight : ℕ
  deriving DecidableEq

def CAddressUnspentValue.null : CAddressUnspentValue := ⟨-1, [], 0⟩

def CAddressUnspentValue.isNull (value : CAddressUnspentValue) : Bool :=
  decide (value.satoshis = -1)

structure CSpentIndexValue where
  txid : Uint256
  inputIndex : ℕ
  blockHeight : ℕ
  satoshis : CAmount
  addressType : ℕ
  addressHash : BitVec 160
  deriving DecidableEq

def CSpentIndexValue.null : CSpentIndexValue := ⟨0, 0, 0, 0, 0, 0⟩

def CSpentIndexValue.isNull (value : CSpentIndexValue) : Bool := decide (value.txid = 0)

structure IndexBatch where
  addressIndex : List (CAddressIndexKey × CAmount)
  addressUnspentIndex : List (CAddressUnspentKey × CAddressUnspentValue)
  spentIndex : List (COutPoint × CSpentIndexValue)
  deriving DecidableEq

namespace IndexBatch

def empty : IndexBatch := ⟨[], [], []⟩

instance : Append IndexBatch where
  append a b := ⟨a.addressIndex ++ b.addressIndex, a.addressUnspentIndex ++ b.addressUnspentIndex,
    a.spentIndex ++ b.spentIndex⟩

def concat (batches : List IndexBatch) : IndexBatch := batches.foldr (· ++ ·) empty

variable (a b c : IndexBatch)

theorem append_assoc : a ++ b ++ c = a ++ (b ++ c) := by
  rw [mk.injEq]
  exact ⟨List.append_assoc .., List.append_assoc .., List.append_assoc ..⟩

theorem append_empty : a ++ empty = a := by
  rw [mk.injEq]
  exact ⟨List.append_nil _, List.append_nil _, List.append_nil _⟩

theorem concat_append (l l' : List IndexBatch) : concat (l ++ l') = concat l ++ concat l' := by
  induction l with
  | nil => rfl
  | cons b l ih =>
    change b ++ concat (l ++ l') = b ++ concat l ++ concat l'
    rw [ih, append_assoc]

theorem concat_singleton : concat [a] = a := append_empty a

end IndexBatch

@[ext]
structure Indexes where
  address : CAddressIndexKey → Option CAmount
  addressUnspent : CAddressUnspentKey → Option CAddressUnspentValue
  spent : COutPoint → Option CSpentIndexValue

def unspentWrite (value : CAddressUnspentValue) : Option CAddressUnspentValue :=
  if value.isNull then none else some value

def spentWrite (value : CSpentIndexValue) : Option CSpentIndexValue :=
  if value.isNull then none else some value

namespace Indexes

def writeAddressIndex (indexes : Indexes) (vect : List (CAddressIndexKey × CAmount)) : Indexes :=
  { indexes with
    address := Table.writeAll Prod.fst (fun entry => some entry.2) vect indexes.address }

def eraseAddressIndex (indexes : Indexes) (vect : List (CAddressIndexKey × CAmount)) : Indexes :=
  { indexes with address := Table.writeAll Prod.fst (fun _ => none) vect indexes.address }

def updateAddressUnspentIndex (indexes : Indexes)
    (vect : List (CAddressUnspentKey × CAddressUnspentValue)) : Indexes :=
  { indexes with
    addressUnspent :=
      Table.writeAll Prod.fst (fun entry => unspentWrite entry.2) vect indexes.addressUnspent }

def updateSpentIndex (indexes : Indexes) (vect : List (COutPoint × CSpentIndexValue)) : Indexes :=
  { indexes with
    spent := Table.writeAll Prod.fst (fun entry => spentWrite entry.2) vect indexes.spent }

end Indexes

/-! ### What the two functions collect -/

/-- The options `-addressindex` and `-spentindex`, and `Hash160`. -/
structure IndexConfig where
  fAddressIndex : Bool
  fSpentIndex : Bool
  hash160 : List (BitVec 8) → BitVec 160

structure Place where
  nHeight : ℕ
  txindex : ℕ
  txhash : Uint256
  index : ℕ
  deriving DecidableEq

variable (cfg : IndexConfig)

def scriptAddress (script : CScript) : ScriptAddress :=
  if isPayToScriptHash script then .scriptHash (uint160 ((script.drop 2).take 20))
  else if isPayToPublicKeyHash script then .pubKeyHash (uint160 ((script.drop 3).take 20))
  else if isPayToPublicKey script then .pubKey (cfg.hash160 ((script.drop 1).dropLast))
  else .other

namespace Indexes

def connect (batch : IndexBatch) (indexes : Indexes) : Indexes :=
  let indexes := if cfg.fAddressIndex then (indexes.writeAddressIndex batch.addressIndex)
    |>.updateAddressUnspentIndex batch.addressUnspentIndex else indexes
  if cfg.fSpentIndex then indexes.updateSpentIndex batch.spentIndex else indexes

def disconnect (batch : IndexBatch) (indexes : Indexes) : Indexes :=
  let indexes := if cfg.fSpentIndex then indexes.updateSpentIndex batch.spentIndex else indexes
  if cfg.fAddressIndex then (indexes.eraseAddressIndex batch.addressIndex)
    |>.updateAddressUnspentIndex batch.addressUnspentIndex else indexes

end Indexes

def activityKey (place : Place) (address : ScriptAddress) (spending : Bool) : CAddressIndexKey :=
  ⟨address.addressType, address.hashBytes, place.nHeight, place.txindex, place.txhash,
    place.index, spending⟩

def unspentKey (address : ScriptAddress) (outpoint : COutPoint) : CAddressUnspentKey :=
  ⟨address.addressType, address.hashBytes, outpoint⟩

def connectInput (place : Place) (prevout : COutPoint) (coin : Coin) : IndexBatch :=
  let address := scriptAddress cfg coin.out.scriptPubKey
  let indexed := cfg.fAddressIndex && decide (0 < address.addressType)
  { addressIndex :=
      if indexed then [(activityKey place address true, coin.out.nValue * -1)] else []
    addressUnspentIndex :=
      if indexed then [(unspentKey address prevout, CAddressUnspentValue.null)] else []
    spentIndex :=
      if cfg.fSpentIndex then [(prevout, ⟨place.txhash, place.index, place.nHeight,
        coin.out.nValue, address.addressType, address.hashBytes⟩)] else [] }

def connectOutput (place : Place) (outpoint : COutPoint) (out : CTxOut) : IndexBatch :=
  let address := scriptAddress cfg out.scriptPubKey
  if cfg.fAddressIndex && decide (address ≠ .other) then
    { addressIndex := [(activityKey place address false, out.nValue)]
      addressUnspentIndex :=
        [(unspentKey address outpoint, ⟨out.nValue, out.scriptPubKey, place.nHeight⟩)]
      spentIndex := [] }
  else .empty

def disconnectOutput (place : Place) (outpoint : COutPoint) (out : CTxOut) : IndexBatch :=
  let address := scriptAddress cfg out.scriptPubKey
  if cfg.fAddressIndex && decide (address ≠ .other) then
    { addressIndex := [(activityKey place address false, out.nValue)]
      addressUnspentIndex := [(unspentKey address outpoint, CAddressUnspentValue.null)]
      spentIndex := [] }
  else .empty

/-- `DisconnectBlock` on one input, with the coin read back from the view and the height of the
undo record. The pay-to-public-key branch is the one for outputs: it names the output of this
transaction at the position of the input. -/
def disconnectInput (place : Place) (prevout : COutPoint) (coin : Coin) (undoHeight : ℕ) :
    IndexBatch :=
  let spentIndex := if cfg.fSpentIndex then [(prevout, CSpentIndexValue.null)] else []
  let address := scriptAddress cfg coin.out.scriptPubKey
  if cfg.fAddressIndex then
    match address with
    | .scriptHash _ | .pubKeyHash _ =>
      { addressIndex := [(activityKey place address true, coin.out.nValue * -1)]
        addressUnspentIndex :=
          [(unspentKey address prevout, ⟨coin.out.nValue, coin.out.scriptPubKey, undoHeight⟩)]
        spentIndex }
    | .pubKey _ =>
      { addressIndex := [(activityKey place address false, coin.out.nValue)]
        addressUnspentIndex :=
          [(unspentKey address ⟨place.txhash, BitVec.ofNat 32 place.index⟩,
            CAddressUnspentValue.null)]
        spentIndex }
    | .other => ⟨[], [], spentIndex⟩
  else ⟨[], [], spentIndex⟩

end ButCore.AddressIndex
