import ButCore.Lib.Checked
import ButCore.Pow
import ButCore.Validation.Subsidy

/-!
# CheckBlock

The checks that are meant to need no context. Two of them do read it: the founder rule takes the
height that the caller passes, and the money limit looks at the tip of the active chain. A
successful check is remembered in the block object.
-/
namespace ButCore.Validation

open Checked

structure CBlockHeader where
  nVersion : BitVec 32
  hashPrevBlock : Uint256
  hashMerkleRoot : Uint256
  nTime : BitVec 32
  nBits : BitVec 32
  nNonce : BitVec 32
  deriving DecidableEq

def CBlockHeader.getBlockTime (header : CBlockHeader) : ℤ := header.nTime.toNat

structure CBlock where
  header : CBlockHeader
  vtx : List CTransaction
  fChecked : Bool
  deriving DecidableEq

inductive RejectCode where
  | zero | invalid | checkpoint
  deriving DecidableEq

structure Invalid where
  dos : ℕ
  code : RejectCode
  reason : String
  corruptionPossible : Bool
  deriving DecidableEq

def reject (dos : ℕ) (reason : String) : Invalid := ⟨dos, .invalid, reason, false⟩

/-- Consensus parameters, and the hashes, sizes, counts and weights of blocks. Checkpoints are
listed by height. The founder payment starts above genesis and, once it has started, is never
zero. -/
structure Env where
  pow : ConsensusParams
  genesis : CBlock
  hashDevnetGenesisBlock : Uint256
  nMaxCash : ℤ
  nMinimumChainWork : ArithUint256
  bip34Enabled : Bool
  bipCSVEnabled : Bool
  dip0001Enabled : Bool
  dip0003Enabled : Bool
  fCheckpointsEnabled : Bool
  checkpoints : List Uint256
  founder : FounderPayment
  getHash : CBlockHeader → Uint256
  hashGR : CBlockHeader → Uint256
  yespowerHash : CBlockHeader → Uint256
  lyra2Hash : CBlockHeader → Uint256
  scryptHash : CBlockHeader → Uint256
  blockMerkleRoot : List CTransaction → Uint256 × Bool
  txSize : CTransaction → ℕ
  blockSize : List CTransaction → ℕ
  getLegacySigOpCount : CTransaction → ℕ
  getBlockProof : Chain → ArithUint256
  startBlock_nonneg : 0 ≤ founder.startBlock
  due_ne_zero : ∀ nPrevHeight, founder.startBlock < nPrevHeight → founder.due nPrevHeight ≠ 0

def MAX_LEGACY_BLOCK_SIZE : ℕ := 1000000
def MAX_TX_EXTRA_PAYLOAD : ℕ := 10000

def maxBlockSigOps (fDIP0001Active : Bool) : ℕ := maxBlockSize fDIP0001Active / 50

namespace Env

variable (env : Env)

def hashGenesisBlock : Uint256 := env.getHash env.genesis.header

/-- The butkscrypt case computes a scrypt hash, drops it and returns `GetHash`. -/
def getPOWHash (header : CBlockHeader) : Uint256 :=
  match getAlgo header.nVersion with
  | .sha256d => env.getHash header
  | .ghostrider => env.hashGR header
  | .yespower => env.yespowerHash header
  | .lyra2 => env.lyra2Hash header
  | .scrypt => env.scryptHash header
  | .butkscrypt => env.getHash header

/-- `tip` is the height of the given block index, `none` the null pointer. -/
def isMaxCash (tip : Option ℤ) : Bool := decide (env.nMaxCash ≤ tip.getD 0)

end Env

def knownAlgo (nVersion : BitVec 32) : Bool :=
  [BLOCK_VERSION_BUTKSCRYPT, BLOCK_VERSION_SHA256D, BLOCK_VERSION_LYRA2,
    BLOCK_VERSION_GHOSTRIDER, BLOCK_VERSION_YESPOWER, BLOCK_VERSION_SCRYPT].contains
    (nVersion &&& BLOCK_VERSION_ALGO)

section

variable (env : Env)

def checkBlockHeader (header : CBlockHeader) (fCheckPOW : Bool) : Except Invalid Unit := do
  failIf (4 < header.nVersion.toInt ∧ ¬ knownAlgo header.nVersion) (reject 50 "unknown-algo")
  failIf (fCheckPOW ∧ ¬ Pow.checkProofOfWork (env.getPOWHash header) header.nBits env.pow)
    (reject 50 "high-hash")
  failIf (env.hashDevnetGenesisBlock ≠ 0 ∧ header.hashPrevBlock = env.hashGenesisBlock ∧
    env.getHash header ≠ env.hashDevnetGenesisBlock) (reject 100 "devnet-genesis")

def moneyLimit (ismaxcash : Bool) : CAmount := if ismaxcash then MAX_MONEY else OLD_MAX_MONEY

def checkOutput (ismaxcash : Bool) (nValueOut : CAmount) (txout : CTxOut) :
    Except Invalid CAmount := do
  failIf (txout.nValue < 0) (reject 100 "bad-txns-vout-negative")
  failIf (moneyLimit ismaxcash < txout.nValue) (reject 100 "bad-txns-vout-toolarge")
  failIf (¬ MoneyRange (nValueOut + txout.nValue) ismaxcash)
    (reject 100 "bad-txns-txouttotal-toolarge")
  pure (nValueOut + txout.nValue)

def minCbSize (tx : CTransaction) : ℕ := if tx.nType = .coinbase then 1 else 2

def cbScriptSize (tx : CTransaction) : ℕ := (tx.vin.head?.map (·.scriptSig.length)).getD 0

def checkTransactionSize (tx : CTransaction) : Except Invalid Unit := do
  failIf (tx.nType ≠ .quorumCommitment ∧ tx.vin = []) (reject 10 "bad-txns-vin-empty")
  failIf (tx.nType ≠ .quorumCommitment ∧ tx.vout = []) (reject 10 "bad-txns-vout-empty")
  failIf (MAX_LEGACY_BLOCK_SIZE < env.txSize tx) (reject 100 "bad-txns-oversize")
  failIf (MAX_TX_EXTRA_PAYLOAD < tx.extraPayloadSize) (reject 100 "bad-txns-payload-oversize")

def checkCoinbase (tx : CTransaction) (nHeight : ℤ) (blockReward : CAmount) :
    Except Invalid Unit := do
  failIf (cbScriptSize tx < minCbSize tx ∨ 100 < cbScriptSize tx) (reject 100 "bad-cb-length")
  failIf (env.founder.startBlock < nHeight ∧
    env.founder.getFounderPaymentAmount nHeight blockReward ≠ 0 ∧
    ¬ env.founder.isBlockPayeeValid tx nHeight blockReward)
    (reject 100 "bad-cb-founder-payment-not-found")

def checkTransaction (ismaxcash : Bool) (tx : CTransaction) (nHeight : ℤ)
    (blockReward : CAmount) : Except Invalid Unit := do
  checkTransactionSize env tx
  let _ ← tx.vout.foldlM (checkOutput ismaxcash) 0
  failIf (¬ (tx.vin.map CTxIn.prevout).Nodup) (reject 100 "bad-txns-inputs-duplicate")
  (if tx.isCoinBase then checkCoinbase env tx nHeight blockReward
    else failIf (∃ txin ∈ tx.vin, txin.prevout = COutPoint.null)
      (reject 10 "bad-txns-prevout-null"))

def checkMerkleRoot (block : CBlock) : Except Invalid Unit := do
  let (hashMerkleRoot2, mutated) := env.blockMerkleRoot block.vtx
  failIf (block.header.hashMerkleRoot ≠ hashMerkleRoot2)
    ⟨100, .invalid, "bad-txnmrklroot", true⟩
  failIf (mutated = true) ⟨100, .invalid, "bad-txns-duplicate", true⟩

/-- Size limits, and the first transaction is the only coinbase. -/
def checkLayout (block : CBlock) : Except Invalid Unit := do
  failIf (block.vtx = [] ∨ maxBlockSize true < block.vtx.length ∨
    maxBlockSize true < env.blockSize block.vtx) (reject 100 "bad-blk-length")
  failIf (¬ block.vtx.head?.any CTransaction.isCoinBase) (reject 100 "bad-cb-missing")
  failIf (block.vtx.tail.any CTransaction.isCoinBase) (reject 100 "bad-cb-multiple")

def sigOps (block : CBlock) : ℕ := (block.vtx.map env.getLegacySigOpCount).sum

def checkSigOps (block : CBlock) : Except Invalid Unit :=
  failIf (maxBlockSigOps true < sigOps env block) (reject 100 "bad-blk-sigops")

/-- The block that is returned carries the new `fChecked`. -/
def checkBlock (ismaxcash : Bool) (block : CBlock) (nHeight : ℤ)
    (fCheckPOW fCheckMerkleRoot : Bool) : Except Invalid CBlock :=
  if block.fChecked then pure block else do
    checkBlockHeader env block.header fCheckPOW
    (if fCheckMerkleRoot then checkMerkleRoot env block else pure ())
    checkLayout env block
    block.vtx.forM fun tx =>
      checkTransaction env ismaxcash tx (nHeight - 1) (getBlockSubsidy (nHeight - 1))
    checkSigOps env block
    pure { block with fChecked := fCheckPOW && fCheckMerkleRoot }

/-! ### Checks that need the parent -/

def LOCKTIME_THRESHOLD : ℤ := 500000000
def SEQUENCE_FINAL : BitVec 32 := 0xffffffff
def MAX_STANDARD_TX_SIZE : ℕ := 100000

def isFinalTx (tx : CTransaction) (nBlockHeight nBlockTime : ℤ) : Bool :=
  let nLockTime : ℤ := tx.nLockTime.toNat
  let limit := if nLockTime < LOCKTIME_THRESHOLD then nBlockHeight else nBlockTime
  decide (nLockTime = 0) || decide (nLockTime < limit) ||
    tx.vin.all fun txin => decide (txin.nSequence = SEQUENCE_FINAL)

def knownType (nType : TxType) : Bool :=
  match nType with
  | .other _ => false
  | _ => true

def contextualCheckTransaction (tx : CTransaction) : Except Invalid Unit := do
  failIf (env.dip0003Enabled ∧ 3 ≤ tx.nVersion ∧ ¬ knownType tx.nType)
    (reject 100 "bad-txns-type")
  failIf (env.dip0003Enabled ∧ 3 ≤ tx.nVersion ∧ tx.isCoinBase ∧ tx.nType ≠ .coinbase)
    (reject 100 "bad-txns-cb-type")
  failIf (env.dip0003Enabled ∧ tx.nVersion < 3 ∧ tx.nType ≠ .normal) (reject 100 "bad-txns-type")
  failIf (env.dip0001Enabled ∧ MAX_STANDARD_TX_SIZE < env.txSize tx)
    (reject 100 "bad-txns-oversize")

def scriptOfHeight (n : ℕ) : CScript :=
  if n = 0 then [0]
  else if n ≤ 16 then [BitVec.ofNat 8 (0x50 + n)]
  else
    let digits := (Nat.digits 256 n).map (BitVec.ofNat 8)
    let bytes := if digits.getLast?.any BitVec.msb then digits ++ [0] else digits
    BitVec.ofNat 8 bytes.length :: bytes

def contextualHeight (pindexPrev : Chain) : ℤ :=
  match pindexPrev with
  | [] => 0
  | last :: _ => last.nHeight + 1

def lockTimeCutoff (block : CBlock) (pindexPrev : Chain) : ℤ :=
  if env.bipCSVEnabled then getMedianTimePast pindexPrev else block.header.getBlockTime

def contextualCheckBlock (block : CBlock) (pindexPrev : Chain) : Except Invalid Unit := do
  let nHeight := contextualHeight pindexPrev
  let nMaxBlockSize := maxBlockSize env.dip0001Enabled
  failIf (block.vtx = [] ∨ nMaxBlockSize < block.vtx.length ∨
    nMaxBlockSize < env.blockSize block.vtx) (reject 10 "bad-blk-length")
  block.vtx.forM fun tx => do
    failIf (¬ isFinalTx tx nHeight (lockTimeCutoff env block pindexPrev))
      (reject 10 "bad-txns-nonfinal")
    contextualCheckTransaction env tx
  failIf (maxBlockSigOps env.dip0001Enabled < sigOps env block) (reject 10 "bad-blk-sigops")
  failIf (env.bip34Enabled ∧ ¬ env.dip0003Enabled ∧ ¬ (block.vtx.head?.bind fun tx =>
    tx.vin.head?).any fun txin => (scriptOfHeight nHeight.toNat).isPrefixOf txin.scriptSig)
    (reject 100 "bad-cb-height")
  failIf (env.dip0003Enabled ∧ ¬ block.vtx.head?.any fun tx => decide (tx.nType = .coinbase))
    (reject 100 "bad-cb-type")

end

/-! ### What a passed check says -/

def valueOut (vout : List CTxOut) : CAmount := (vout.map CTxOut.nValue).sum

theorem moneyRange_iff (v : CAmount) (ismaxcash : Bool) :
    MoneyRange v ismaxcash = true ↔ 0 ≤ v ∧ v ≤ moneyLimit ismaxcash := by
  cases ismaxcash <;> simp [MoneyRange, moneyLimit]

theorem checkOutput_eq_ok {ismaxcash : Bool} {v v' : CAmount} {txout : CTxOut} (nonneg : 0 ≤ v) :
    checkOutput ismaxcash v txout = .ok v' ↔
      0 ≤ txout.nValue ∧ v + txout.nValue ≤ moneyLimit ismaxcash ∧ v' = v + txout.nValue := by
  simp only [checkOutput, bind_eq_ok, failIf_eq_ok, pure_eq_ok, moneyRange_iff, exists_and_left,
    exists_const, not_lt, not_not]
  constructor
  · rintro ⟨hout, -, ⟨-, htotal⟩, rfl⟩
    exact ⟨hout, htotal, rfl⟩
  · rintro ⟨hout, htotal, rfl⟩
    refine ⟨hout, ?_, ⟨?_, htotal⟩, rfl⟩
    · linarith
    · linarith

theorem foldlM_checkOutput_eq_ok {ismaxcash : Bool} {vout : List CTxOut} {v v' : CAmount}
    (nonneg : 0 ≤ v) (within : v ≤ moneyLimit ismaxcash) :
    vout.foldlM (checkOutput ismaxcash) v = .ok v' ↔
      (∀ out ∈ vout, 0 ≤ out.nValue) ∧ v + valueOut vout ≤ moneyLimit ismaxcash ∧
        v' = v + valueOut vout := by
  induction vout generalizing v with
  | nil =>
    simp only [List.foldlM_nil, pure_eq_ok, valueOut, List.map_nil, List.sum_nil, add_zero]
    exact ⟨fun h => ⟨by simp, within, h.symm⟩, fun h => h.2.2.symm⟩
  | cons out vout ih =>
    have total : v + valueOut (out :: vout) = v + out.nValue + valueOut vout := by
      simp [valueOut, add_assoc]
    rw [foldlM_cons_ok, total, List.forall_mem_cons]
    constructor
    · rintro ⟨w, hstep, hrest⟩
      obtain ⟨hout, hle, rfl⟩ := (checkOutput_eq_ok nonneg).mp hstep
      obtain ⟨hall, hsum, hv'⟩ := (ih (by linarith) hle).mp hrest
      exact ⟨⟨hout, hall⟩, hsum, hv'⟩
    · rintro ⟨⟨hout, hall⟩, hsum, hv'⟩
      have rest_nonneg : 0 ≤ valueOut vout :=
        List.sum_nonneg (by simpa using hall)
      have hle : v + out.nValue ≤ moneyLimit ismaxcash := by linarith
      exact ⟨v + out.nValue, (checkOutput_eq_ok nonneg).mpr ⟨hout, hle, rfl⟩,
        (ih (by linarith) hle).mpr ⟨hall, hsum, hv'⟩⟩

section

variable (env : Env)

/-- The coinbase `tx` of a block above `nPrevHeight` pays the founder what is due there. -/
def PaysFounder (tx : CTransaction) (nPrevHeight : ℤ) : Prop :=
  env.founder.startBlock < nPrevHeight →
    ∃ out ∈ tx.vout, out.scriptPubKey = env.founder.founderScript ∧
      env.founder.due nPrevHeight ≤ out.nValue

/-- What `CheckTransaction` asks of `tx` whatever the tip and the height are. -/
structure TxTipFree (tx : CTransaction) : Prop where
  size : checkTransactionSize env tx = .ok ()
  values : ∀ out ∈ tx.vout, 0 ≤ out.nValue
  inputs : (tx.vin.map CTxIn.prevout).Nodup
  script : tx.isCoinBase = true → minCbSize tx ≤ cbScriptSize tx ∧ cbScriptSize tx ≤ 100
  prevouts : tx.isCoinBase = false → ∀ txin ∈ tx.vin, txin.prevout ≠ COutPoint.null

/-- What `CheckBlock` asks of `block` whatever the tip and the height are. -/
structure TipFree (block : CBlock) : Prop where
  header : checkBlockHeader env block.header true = .ok ()
  merkleRoot : checkMerkleRoot env block = .ok ()
  layout : checkLayout env block = .ok ()
  txs : ∀ tx ∈ block.vtx, TxTipFree env tx
  sigOps : checkSigOps env block = .ok ()

/-- What `CheckBlock` asks of `block` through the money limit and the height before it. -/
structure TipRules (ismaxcash : Bool) (nPrevHeight : ℤ) (block : CBlock) : Prop where
  amounts : ∀ tx ∈ block.vtx, valueOut tx.vout ≤ moneyLimit ismaxcash
  founder : ∀ tx ∈ block.vtx, tx.isCoinBase = true → PaysFounder env tx nPrevHeight

variable {env}

theorem checkCoinbase_eq_ok {tx : CTransaction} {nPrevHeight : ℤ} :
    checkCoinbase env tx nPrevHeight (getBlockSubsidy nPrevHeight) = .ok () ↔
      (minCbSize tx ≤ cbScriptSize tx ∧ cbScriptSize tx ≤ 100) ∧
        PaysFounder env tx nPrevHeight := by
  simp only [checkCoinbase, bind_eq_ok, failIf_eq_ok, exists_const, not_or, not_lt, not_and,
    not_not, FounderPayment.isBlockPayeeValid_iff, PaysFounder]
  refine and_congr Iff.rfl (forall_congr' fun started => ?_)
  exact ⟨fun h => h (env.due_ne_zero nPrevHeight started), fun h _ => h⟩

theorem moneyLimit_nonneg (ismaxcash : Bool) : 0 ≤ moneyLimit ismaxcash := by
  cases ismaxcash <;> simp [moneyLimit, MAX_MONEY, OLD_MAX_MONEY, COIN]

theorem checkTransaction_eq_ok {ismaxcash : Bool} {tx : CTransaction} {nPrevHeight : ℤ}
    {u : Unit} :
    checkTransaction env ismaxcash tx nPrevHeight (getBlockSubsidy nPrevHeight) = .ok u ↔
      TxTipFree env tx ∧ valueOut tx.vout ≤ moneyLimit ismaxcash ∧
        (tx.isCoinBase = true → PaysFounder env tx nPrevHeight) := by
  simp only [checkTransaction, bind_eq_ok, failIf_eq_ok, exists_const, not_not,
    foldlM_checkOutput_eq_ok le_rfl (moneyLimit_nonneg ismaxcash), zero_add]
  cases hcb : tx.isCoinBase with
  | true =>
    rw [if_pos rfl, checkCoinbase_eq_ok]
    constructor
    · rintro ⟨_, hsize, _, ⟨hvalues, hsum, -⟩, hinputs, hscript, hfounder⟩
      exact ⟨⟨hsize, hvalues, hinputs, fun _ => hscript, by simp [hcb]⟩, hsum, fun _ => hfounder⟩
    · rintro ⟨htx, hsum, hfounder⟩
      exact ⟨(), htx.size, _, ⟨htx.values, hsum, rfl⟩, htx.inputs, htx.script hcb,
        hfounder rfl⟩
  | false =>
    simp only [Bool.false_eq_true, if_false, failIf_eq_ok, not_exists, not_and, false_imp_iff,
      and_true]
    constructor
    · rintro ⟨_, hsize, _, ⟨hvalues, hsum, -⟩, hinputs, hprevouts⟩
      exact ⟨⟨hsize, hvalues, hinputs, by simp [hcb], fun _ => hprevouts⟩, hsum⟩
    · rintro ⟨htx, hsum⟩
      exact ⟨(), htx.size, _, ⟨htx.values, hsum, rfl⟩, htx.inputs, htx.prevouts hcb⟩

theorem checkBlock_isOk_iff {ismaxcash : Bool} {block : CBlock} {nHeight : ℤ}
    (unchecked : block.fChecked = false) :
    (∃ block', checkBlock env ismaxcash block nHeight true true = .ok block') ↔
      TipFree env block ∧ TipRules env ismaxcash (nHeight - 1) block := by
  simp only [checkBlock, unchecked, Bool.false_eq_true, if_false, if_true, bind_eq_ok, forM_eq_ok,
    checkTransaction_eq_ok, pure_eq_ok]
  constructor
  · rintro ⟨_, _, hheader, _, hmerkle, _, hlayout, _, htxs, _, hsigOps, -⟩
    exact ⟨⟨hheader, hmerkle, hlayout, fun tx htx => (htxs tx htx).1, hsigOps⟩,
      ⟨fun tx htx => (htxs tx htx).2.1, fun tx htx => (htxs tx htx).2.2⟩⟩
  · rintro ⟨hfree, hrules⟩
    refine ⟨_, (), hfree.header, (), hfree.merkleRoot, (), hfree.layout, (), ?_, (),
      hfree.sigOps, rfl⟩
    exact fun tx htx => ⟨hfree.txs tx htx, hrules.amounts tx htx, hrules.founder tx htx⟩

end

end ButCore.Validation
