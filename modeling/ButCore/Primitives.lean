import ButCore.Amount
import Mathlib.Data.BitVec

/-!
# Transactions and their special payloads

An extra payload is kept decoded. It is only ever read as the type that `nType` names, so
`GetTxPayload` succeeds on the constructor of that type and fails on every other one.
-/
namespace ButCore

abbrev Uint256 := BitVec 256
abbrev CKeyID := BitVec 160
abbrev CScript := List (BitVec 8)

instance : Std.TransOrd Uint256 := inferInstance

instance : Std.TransOrd CKeyID := inferInstance

instance : LawfulBEq Uint256 := inferInstance

/-- A key whose `IsValid` is false is `none`; it serialises to the zero buffer. -/
abbrev CBLSPublicKey := Option (BitVec 384)
abbrev CBLSSignature := Option (BitVec 768)

structure COutPoint where
  hash : Uint256
  n : BitVec 32
  deriving DecidableEq

def COutPoint.null : COutPoint := ⟨0, BitVec.allOnes 32⟩

def COutPoint.lt (a b : COutPoint) : Bool :=
  decide (a.hash < b.hash) || decide (a.hash = b.hash ∧ a.n < b.n)

instance : Ord COutPoint := ⟨compareLex (compareOn COutPoint.hash) (compareOn COutPoint.n)⟩

theorem compare_outPoint :
    (compare : COutPoint → COutPoint → Ordering) =
      compareLex (compareOn COutPoint.hash) (compareOn COutPoint.n) := rfl

instance : Std.TransOrd COutPoint := inferInstanceAs (Std.TransCmp (compareLex _ _))

instance : Std.LawfulEqOrd COutPoint where
  eq_of_compare {a b} h := by
    simp only [compare_outPoint, compareLex_eq_eq, compareOn, Std.compare_eq_iff_eq] at h
    cases a
    cases b
    simp_all

structure CService where
  ip : BitVec 128
  port : BitVec 16
  deriving DecidableEq

def CService.null : CService := ⟨0, 0⟩

def OP_DUP : BitVec 8 := 0x76
def OP_EQUAL : BitVec 8 := 0x87
def OP_EQUALVERIFY : BitVec 8 := 0x88
def OP_HASH160 : BitVec 8 := 0xa9
def OP_CHECKSIG : BitVec 8 := 0xac

def isPayToPublicKeyHash (s : CScript) : Bool :=
  s.length == 25 && s.take 3 == [OP_DUP, OP_HASH160, 0x14] &&
    s.drop 23 == [OP_EQUALVERIFY, OP_CHECKSIG]

def isPayToScriptHash (s : CScript) : Bool :=
  s.length == 23 && s.take 2 == [OP_HASH160, 0x14] && s.drop 22 == [OP_EQUAL]

def readLE (bytes : List (BitVec 8)) : ℕ := bytes.foldr (fun b n => b.toNat + 256 * n) 0

def uint160 (vch : List (BitVec 8)) : BitVec 160 := BitVec.ofNat 160 (readLE vch)

inductive CTxDestination where
  | noDestination
  | keyID (id : CKeyID)
  | scriptID (id : BitVec 160)
  deriving DecidableEq

structure CTxIn where
  prevout : COutPoint
  scriptSig : CScript
  nSequence : BitVec 32
  deriving DecidableEq

structure CTxOut where
  nValue : CAmount
  scriptPubKey : CScript
  deriving DecidableEq

inductive TxType where
  | normal | providerRegister | providerUpdateService | providerUpdateRegistrar
  | providerUpdateRevoke | coinbase | quorumCommitment
  | other (nType : BitVec 16)
  deriving DecidableEq

structure CProRegTx where
  nVersion : ℕ
  nType : ℕ
  nMode : ℕ
  collateralOutpoint : COutPoint
  addr : CService
  keyIDOwner : CKeyID
  pubKeyOperator : CBLSPublicKey
  keyIDVoting : CKeyID
  nOperatorReward : ℕ
  scriptPayout : CScript
  inputsHash : Uint256
  vchSig : List (BitVec 8)
  deriving DecidableEq

structure CProUpServTx where
  nVersion : ℕ
  proTxHash : Uint256
  addr : CService
  scriptOperatorPayout : CScript
  inputsHash : Uint256
  sig : CBLSSignature
  deriving DecidableEq

structure CProUpRegTx where
  nVersion : ℕ
  proTxHash : Uint256
  nMode : ℕ
  pubKeyOperator : CBLSPublicKey
  keyIDVoting : CKeyID
  scriptPayout : CScript
  inputsHash : Uint256
  vchSig : List (BitVec 8)
  deriving DecidableEq

structure CProUpRevTx where
  nVersion : ℕ
  proTxHash : Uint256
  nReason : ℕ
  inputsHash : Uint256
  sig : CBLSSignature
  deriving DecidableEq

abbrev LLMQType := BitVec 8

structure CFinalCommitment where
  nVersion : ℕ
  llmqType : LLMQType
  quorumHash : Uint256
  signers : List Bool
  validMembers : List Bool
  quorumPublicKey : CBLSPublicKey
  quorumVvecHash : Uint256
  quorumSig : CBLSSignature
  membersSig : CBLSSignature
  deriving DecidableEq

structure CFinalCommitmentTxPayload where
  nVersion : ℕ
  nHeight : ℕ
  commitment : CFinalCommitment
  deriving DecidableEq

structure CCbTx where
  nVersion : ℕ
  nHeight : ℤ
  deriving DecidableEq

inductive ExtraPayload where
  | undecodable
  | proRegTx (ptx : CProRegTx)
  | proUpServTx (ptx : CProUpServTx)
  | proUpRegTx (ptx : CProUpRegTx)
  | proUpRevTx (ptx : CProUpRevTx)
  | finalCommitment (qc : CFinalCommitmentTxPayload)
  | cbTx (cbTx : CCbTx)
  deriving DecidableEq

structure CTransaction where
  hash : Uint256
  nVersion : ℤ
  nType : TxType
  vin : List CTxIn
  vout : List CTxOut
  nLockTime : BitVec 32
  extraPayload : ExtraPayload
  extraPayloadSize : ℕ
  deriving DecidableEq

def maxBlockSize (fDIP0001Active : Bool) : ℕ := if fDIP0001Active then 2000000 else 1000000

namespace CTransaction

def isCoinBase (tx : CTransaction) : Bool :=
  match tx.vin with
  | [txin] => decide (txin.prevout = COutPoint.null)
  | _ => false

def proRegPayload (tx : CTransaction) : Option CProRegTx :=
  match tx.extraPayload with
  | .proRegTx ptx => some ptx
  | _ => none

def proUpServPayload (tx : CTransaction) : Option CProUpServTx :=
  match tx.extraPayload with
  | .proUpServTx ptx => some ptx
  | _ => none

def proUpRegPayload (tx : CTransaction) : Option CProUpRegTx :=
  match tx.extraPayload with
  | .proUpRegTx ptx => some ptx
  | _ => none

def proUpRevPayload (tx : CTransaction) : Option CProUpRevTx :=
  match tx.extraPayload with
  | .proUpRevTx ptx => some ptx
  | _ => none

def finalCommitmentPayload (tx : CTransaction) : Option CFinalCommitmentTxPayload :=
  match tx.extraPayload with
  | .finalCommitment qc => some qc
  | _ => none

def cbTxPayload (tx : CTransaction) : Option CCbTx :=
  match tx.extraPayload with
  | .cbTx cbTx => some cbTx
  | _ => none

variable {tx : CTransaction}

theorem proRegPayload_eq_some {ptx : CProRegTx} :
    tx.proRegPayload = some ptx ↔ tx.extraPayload = .proRegTx ptx := by
  unfold proRegPayload
  split <;> simp_all

theorem proUpServPayload_eq_some {ptx : CProUpServTx} :
    tx.proUpServPayload = some ptx ↔ tx.extraPayload = .proUpServTx ptx := by
  unfold proUpServPayload
  split <;> simp_all

theorem proUpRegPayload_eq_some {ptx : CProUpRegTx} :
    tx.proUpRegPayload = some ptx ↔ tx.extraPayload = .proUpRegTx ptx := by
  unfold proUpRegPayload
  split <;> simp_all

theorem proUpRevPayload_eq_some {ptx : CProUpRevTx} :
    tx.proUpRevPayload = some ptx ↔ tx.extraPayload = .proUpRevTx ptx := by
  unfold proUpRevPayload
  split <;> simp_all

theorem finalCommitmentPayload_eq_some {qc : CFinalCommitmentTxPayload} :
    tx.finalCommitmentPayload = some qc ↔ tx.extraPayload = .finalCommitment qc := by
  unfold finalCommitmentPayload
  split <;> simp_all

end CTransaction

end ButCore
