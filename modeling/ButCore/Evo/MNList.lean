import Mathlib
import ButCore.Evo.Env

/-!
# The deterministic smartnode list

The list keeps each smartnode under its registration hash, with an index by internal id and a map
of the properties that only one smartnode may have. `SerializeHash` is taken to be free of
collisions, so the property map is keyed by the property itself.
-/
namespace ButCore.Evo

open Std (ExtTreeMap)

structure CDeterministicMNState where
  nRegisteredHeight : ℤ := -1
  nLastPaidHeight : ℤ := 0
  nPoSePenalty : ℤ := 0
  nPoSeRevivedHeight : ℤ := -1
  nPoSeBanHeight : ℤ := -1
  nRevocationReason : ℕ := 0
  confirmedHash : Uint256 := 0
  confirmedHashWithProRegTxHash : Uint256 := 0
  keyIDOwner : CKeyID
  pubKeyOperator : CBLSPublicKey
  keyIDVoting : CKeyID
  addr : CService
  scriptPayout : CScript
  scriptOperatorPayout : CScript := []
  deriving DecidableEq

namespace CDeterministicMNState

def ofProRegTx (proTx : CProRegTx) : CDeterministicMNState where
  keyIDOwner := proTx.keyIDOwner
  pubKeyOperator := proTx.pubKeyOperator
  keyIDVoting := proTx.keyIDVoting
  addr := proTx.addr
  scriptPayout := proTx.scriptPayout

def resetOperatorFields (s : CDeterministicMNState) : CDeterministicMNState :=
  { s with pubKeyOperator := none, addr := CService.null, scriptOperatorPayout := [],
           nRevocationReason := 0 }

def banIfNotBanned (s : CDeterministicMNState) (height : ℤ) : CDeterministicMNState :=
  if s.nPoSeBanHeight = -1 then { s with nPoSeBanHeight := height } else s

def updateConfirmedHash (env : Env) (s : CDeterministicMNState) (proTxHash confirmedHash : Uint256) :
    CDeterministicMNState :=
  { s with confirmedHash := confirmedHash
           confirmedHashWithProRegTxHash := env.confirmedHashWith proTxHash confirmedHash }

end CDeterministicMNState

structure CDeterministicMN where
  proTxHash : Uint256
  internalId : ℕ
  collateralOutpoint : COutPoint
  nOperatorReward : ℕ
  pdmnState : CDeterministicMNState
  deriving DecidableEq

inductive UniqueProperty where
  | collateral (outpoint : COutPoint)
  | addr (service : CService)
  | keyIDOwner (id : CKeyID)
  | pubKeyOperator (key : CBLSPublicKey)
  deriving DecidableEq

def UniqueProperty.isNull : UniqueProperty → Bool
  | .collateral o => decide (o = COutPoint.null)
  | .addr a => decide (a = CService.null)
  | .keyIDOwner k => decide (k = 0)
  | .pubKeyOperator k => decide (k = none)

abbrev MnUniquePropertyMap := UniqueProperty → Option (Uint256 × ℕ)

def addUniqueProperty (m : MnUniquePropertyMap) (proTxHash : Uint256) (v : UniqueProperty) :
    Except Fault MnUniquePropertyMap := do
  assertThat (v.isNull = false) .addUniqueProperty
  match m v with
  | none => pure (Function.update m v (some (proTxHash, 1)))
  | some (holder, count) =>
    assertThat (holder = proTxHash) .addUniqueProperty
    pure (Function.update m v (some (proTxHash, count + 1)))

def deleteUniqueProperty (m : MnUniquePropertyMap) (proTxHash : Uint256) (v : UniqueProperty) :
    Except Fault MnUniquePropertyMap := do
  assertThat (v.isNull = false) .deleteUniqueProperty
  let (holder, count) ← deref (m v) .deleteUniqueProperty
  assertThat (holder = proTxHash) .deleteUniqueProperty
  if count = 1 then pure (Function.update m v none)
  else pure (Function.update m v (some (proTxHash, count - 1)))

def updateUniqueProperty (m : MnUniquePropertyMap) (proTxHash : Uint256)
    (oldValue newValue : UniqueProperty) : Except Fault MnUniquePropertyMap := do
  if oldValue = newValue then pure m
  else
    let m ← (if oldValue.isNull then pure m else deleteUniqueProperty m proTxHash oldValue)
    if newValue.isNull then pure m else addUniqueProperty m proTxHash newValue

def updateUniqueProperties (m : MnUniquePropertyMap) (proTxHash : Uint256)
    (oldState newState : CDeterministicMNState) : Except Fault MnUniquePropertyMap := do
  let m ← updateUniqueProperty m proTxHash (.addr oldState.addr) (.addr newState.addr)
  let m ← updateUniqueProperty m proTxHash
    (.keyIDOwner oldState.keyIDOwner) (.keyIDOwner newState.keyIDOwner)
  updateUniqueProperty m proTxHash
    (.pubKeyOperator oldState.pubKeyOperator) (.pubKeyOperator newState.pubKeyOperator)

/-- `Get().IsValid()` of a `CBLSLazyPublicKey`: its bytes need not be those of a key. The zero bytes
of the default key are `none`. -/
class LazyKeys where
  isValid : CBLSPublicKey → Bool

/-- The keys that transactions carry have been decoded, so all but the default are valid. -/
instance decodedKeys : LazyKeys := ⟨Option.isSome⟩

@[simp] theorem isValid_decodedKeys (key : CBLSPublicKey) : decodedKeys.isValid key = key.isSome := rfl

/-- The properties that `AddMN` adds and `RemoveMN` deletes, in their order. -/
def CDeterministicMN.uniqueProperties [LazyKeys] (dmn : CDeterministicMN) : List UniqueProperty :=
  [.collateral dmn.collateralOutpoint]
    ++ (if dmn.pdmnState.addr ≠ CService.null then [.addr dmn.pdmnState.addr] else [])
    ++ [.keyIDOwner dmn.pdmnState.keyIDOwner]
    ++ (if LazyKeys.isValid dmn.pdmnState.pubKeyOperator then
        [.pubKeyOperator dmn.pdmnState.pubKeyOperator] else [])

structure CDeterministicMNList where
  blockHash : Uint256
  nHeight : ℤ
  nTotalRegisteredCount : BitVec 32
  mnMap : ExtTreeMap Uint256 CDeterministicMN
  mnInternalIdMap : ExtTreeMap ℕ Uint256
  mnUniquePropertyMap : MnUniquePropertyMap

namespace CDeterministicMNList

def empty (blockHash : Uint256) : CDeterministicMNList := ⟨blockHash, -1, 0, ∅, ∅, fun _ => none⟩

section

variable (list : CDeterministicMNList)

def getAllMNsCount : ℕ := list.mnMap.size

def getMN (proTxHash : Uint256) : Option CDeterministicMN := list.mnMap[proTxHash]?

def hasMN (proTxHash : Uint256) : Bool := (list.getMN proTxHash).isSome

def allMNs : List CDeterministicMN := list.mnMap.toList.map Prod.snd

def isMNPoSeBanned (dmn : CDeterministicMN) : Bool := dmn.pdmnState.nPoSeBanHeight != -1

def isMNValid (env : Env) (dmn : CDeterministicMN) : Bool :=
  !isMNPoSeBanned dmn &&
    match env.getUTXOCoin dmn.collateralOutpoint with
    | none => false
    | some coin => env.isPayableCollateral env.tipHeight coin.nValue

def validMNs (env : Env) : List CDeterministicMN := list.allMNs.filter (isMNValid env)

def hasUniqueProperty (v : UniqueProperty) : Bool := (list.mnUniquePropertyMap v).isSome

def getUniquePropertyMN (v : UniqueProperty) : Option CDeterministicMN :=
  (list.mnUniquePropertyMap v).bind fun p => list.getMN p.1

def getMNByCollateral (outpoint : COutPoint) : Option CDeterministicMN :=
  list.getUniquePropertyMN (.collateral outpoint)

def getMNByInternalId (internalId : ℕ) : Option CDeterministicMN :=
  list.mnInternalIdMap[internalId]?.bind list.getMN

def compareByLastPaidHeight (dmn : CDeterministicMN) : ℤ :=
  let height := dmn.pdmnState.nLastPaidHeight
  if dmn.pdmnState.nPoSeRevivedHeight ≠ -1 ∧ dmn.pdmnState.nPoSeRevivedHeight > height then
    dmn.pdmnState.nPoSeRevivedHeight
  else if height = 0 then dmn.pdmnState.nRegisteredHeight
  else height

def compareByLastPaid (a b : CDeterministicMN) : Bool :=
  let ah := compareByLastPaidHeight a
  let bh := compareByLastPaidHeight b
  if ah = bh then decide (a.proTxHash < b.proTxHash) else decide (ah < bh)

def getMNPayee (env : Env) : Option CDeterministicMN :=
  if list.getAllMNsCount ≤ 10 then none
  else (list.validMNs env).foldl (fun best dmn =>
    match best with
    | none => some dmn
    | some b => if compareByLastPaid dmn b then some dmn else best) none

def calcMaxPoSePenalty : ℤ := max 100 list.getAllMNsCount

def calcPenalty (percent : ℤ) : Except Fault ℤ := do
  assertThat (percent > 0) .calcPenalty
  pure ((list.calcMaxPoSePenalty * percent).tdiv 100)

end

section

variable (list : CDeterministicMNList)

def addMN [LazyKeys] (dmn : CDeterministicMN) : Except Fault CDeterministicMNList := do
  assertThat (list.getMN dmn.proTxHash = none) .addMN
  let props ← dmn.uniqueProperties.foldlM (addUniqueProperty · dmn.proTxHash)
    list.mnUniquePropertyMap
  pure { list with
    mnMap := list.mnMap.insert dmn.proTxHash dmn
    mnInternalIdMap := list.mnInternalIdMap.insert dmn.internalId dmn.proTxHash
    mnUniquePropertyMap := props }

def updateMNEntry (oldDmn : CDeterministicMN) (pdmnState : CDeterministicMNState) :
    Except Fault CDeterministicMNList := do
  let props ← updateUniqueProperties list.mnUniquePropertyMap oldDmn.proTxHash
    oldDmn.pdmnState pdmnState
  pure { list with
    mnMap := list.mnMap.insert oldDmn.proTxHash { oldDmn with pdmnState := pdmnState }
    mnUniquePropertyMap := props }

def updateMN (proTxHash : Uint256) (pdmnState : CDeterministicMNState) :
    Except Fault CDeterministicMNList := do
  let oldDmn ← deref (list.getMN proTxHash) .updateMN
  list.updateMNEntry oldDmn pdmnState

def removeMN [LazyKeys] (proTxHash : Uint256) : Except Fault CDeterministicMNList := do
  let dmn ← deref (list.getMN proTxHash) .removeMN
  let props ← dmn.uniqueProperties.foldlM (deleteUniqueProperty · dmn.proTxHash)
    list.mnUniquePropertyMap
  pure { list with
    mnMap := list.mnMap.erase proTxHash
    mnInternalIdMap := list.mnInternalIdMap.erase dmn.internalId
    mnUniquePropertyMap := props }

def punishedState (st : CDeterministicMNState) (penalty : ℤ) : CDeterministicMNState :=
  let newPenalty := min list.calcMaxPoSePenalty (st.nPoSePenalty + penalty)
  { st with
    nPoSePenalty := newPenalty
    nPoSeBanHeight :=
      if newPenalty ≥ list.calcMaxPoSePenalty ∧ st.nPoSeBanHeight = -1 then list.nHeight
      else st.nPoSeBanHeight }

def poSePunish (proTxHash : Uint256) (penalty : ℤ) : Except Fault CDeterministicMNList := do
  assertThat (penalty > 0) .poSePunish
  let dmn ← deref (list.getMN proTxHash) .poSePunish
  list.updateMN proTxHash (list.punishedState dmn.pdmnState penalty)

def poSeDecrease (proTxHash : Uint256) : Except Fault CDeterministicMNList := do
  let dmn ← deref (list.getMN proTxHash) .poSeDecrease
  assertThat (dmn.pdmnState.nPoSePenalty > 0 ∧ dmn.pdmnState.nPoSeBanHeight = -1) .poSeDecrease
  list.updateMN proTxHash
    { dmn.pdmnState with nPoSePenalty := dmn.pdmnState.nPoSePenalty - 1 }

end

end CDeterministicMNList

end ButCore.Evo
