import ButCore.Evo.UniqueProperties

/-!
# Checks of special transactions

`CheckSpecialTx` with the list for `pindexPrev`, which the callers in block processing always give.
-/
namespace ButCore.Evo

open Checked

def CTxDestination.getKeyID : CTxDestination → Option CKeyID
  | .keyID id => some id
  | _ => none

def rejectMissing {α : Type} (p : Option α) (dos : ℕ) (reason : String) : Except Fault α :=
  expect p (.reject ⟨dos, .invalid, reason⟩)

/-- The collateral is an outpoint of the UTXO set or an output of the registration itself. -/
def collateralOf (tx : CTransaction) (ptx : CProRegTx) : COutPoint :=
  if ptx.collateralOutpoint.hash = 0 then ⟨tx.hash, ptx.collateralOutpoint.n⟩
  else ptx.collateralOutpoint

section

variable (env : Env) (mnList : CDeterministicMNList)

def checkService (addr : CService) : Except Fault Unit := do
  rejectIf (env.isValid addr = false) 10 .invalid "bad-protx-ipaddr"
  rejectIf (env.network ≠ .regtest ∧ env.isRoutable addr = false) 10 .invalid "bad-protx-ipaddr"
  rejectIf (env.network = .main ∧ addr.port ≠ env.mainnetDefaultPort ∨
    env.network ≠ .main ∧ addr.port = env.mainnetDefaultPort) 10 .invalid "bad-protx-ipaddr-port"
  rejectIf (env.isIPv4 addr = false) 10 .invalid "bad-protx-ipaddr"

def checkInputsHash (tx : CTransaction) (inputsHash : Uint256) : Except Fault Unit :=
  rejectIf (env.calcTxInputsHash tx ≠ inputsHash) 100 .invalid "bad-protx-inputs-hash"

/-- `HasUniqueProperty(v) && bad(GetUniquePropertyMN(v))`, a rejection as duplicate. -/
def rejectHolder (v : UniqueProperty) (bad : CDeterministicMN → Bool) (dos : ℕ) (reason : String) :
    Except Fault Unit :=
  if mnList.hasUniqueProperty v then do
    let dmn ← deref (mnList.getUniquePropertyMN v) .nullPointer
    rejectIf (bad dmn = true) dos .duplicate reason
  else pure ()

def checkCollateral (tx : CTransaction) (ptx : CProRegTx) :
    Except Fault (COutPoint × CTxDestination × CKeyID) :=
  if ptx.collateralOutpoint.hash ≠ 0 then do
    let coin ← rejectMissing (env.getUTXOCoin ptx.collateralOutpoint) 10
      "bad-protx-collateral"
    rejectIf (env.isValidCollateral coin.nValue = false) 10 .invalid "bad-protx-collateral"
    let dest ← rejectMissing (env.extractDestination coin.scriptPubKey) 10
      "bad-protx-collateral-dest"
    let key ← rejectMissing (CTxDestination.getKeyID dest) 10
      "bad-protx-collateral-pkh"
    pure (ptx.collateralOutpoint, dest, key)
  else do
    let out ← rejectMissing tx.vout[ptx.collateralOutpoint.n.toNat]? 10
      "bad-protx-collateral-index"
    rejectIf (env.isValidCollateral out.nValue = false) 10 .invalid "bad-protx-collateral"
    let dest ← rejectMissing (env.extractDestination out.scriptPubKey) 10
      "bad-protx-collateral-dest"
    pure (⟨tx.hash, ptx.collateralOutpoint.n⟩, dest, 0)

def checkProRegTx (tx : CTransaction) : Except Fault Unit := do
  rejectIf (tx.nType ≠ .providerRegister) 100 .invalid "bad-protx-type"
  let ptx ← rejectMissing tx.proRegPayload 100 "bad-protx-payload"
  rejectIf (ptx.nVersion = 0 ∨ ptx.nVersion > 1) 100 .invalid "bad-protx-version"
  rejectIf (ptx.nType ≠ 0) 100 .invalid "bad-protx-type"
  rejectIf (ptx.nMode ≠ 0) 100 .invalid "bad-protx-mode"
  rejectIf (ptx.keyIDOwner = 0 ∨ ptx.pubKeyOperator = none ∨ ptx.keyIDVoting = 0) 10 .invalid
    "bad-protx-key-null"
  rejectIf (isPayToPublicKeyHash ptx.scriptPayout = false ∧ isPayToScriptHash ptx.scriptPayout = false)
    10 .invalid "bad-protx-payee"
  let payoutDest ← rejectMissing (env.extractDestination ptx.scriptPayout) 10
      "bad-protx-payee-dest"
  rejectIf (payoutDest = .keyID ptx.keyIDOwner ∨ payoutDest = .keyID ptx.keyIDVoting) 10 .invalid
    "bad-protx-payee-reuse"
  (if ptx.addr ≠ CService.null then checkService env ptx.addr else pure ())
  rejectIf (ptx.nOperatorReward > 10000) 10 .invalid "bad-protx-operator-reward"
  let (collateralOutpoint, collateralTxDest, keyForPayloadSig) ← checkCollateral env tx ptx
  rejectIf (collateralTxDest = .keyID ptx.keyIDOwner ∨ collateralTxDest = .keyID ptx.keyIDVoting)
    10 .invalid "bad-protx-collateral-reuse"
  rejectHolder mnList (.addr ptx.addr) (fun dmn => dmn.collateralOutpoint != collateralOutpoint)
    10 "bad-protx-dup-addr"
  rejectIf (mnList.hasUniqueProperty (.keyIDOwner ptx.keyIDOwner) = true ∨
    mnList.hasUniqueProperty (.pubKeyOperator ptx.pubKeyOperator) = true) 10 .duplicate
    "bad-protx-dup-key"
  rejectIf (env.dip0003Enabled = false ∧ ptx.keyIDOwner ≠ ptx.keyIDVoting) 10 .invalid
    "bad-protx-key-not-same"
  checkInputsHash env tx ptx.inputsHash
  rejectIf (keyForPayloadSig ≠ 0 ∧ env.verifyMessage keyForPayloadSig tx.extraPayload = false ∨
    keyForPayloadSig = 0 ∧ ptx.vchSig ≠ []) 100 .invalid "bad-protx-sig"

def checkProUpServTx (tx : CTransaction) : Except Fault Unit := do
  rejectIf (tx.nType ≠ .providerUpdateService) 100 .invalid "bad-protx-type"
  let ptx ← rejectMissing tx.proUpServPayload 100 "bad-protx-payload"
  rejectIf (ptx.nVersion = 0 ∨ ptx.nVersion > 1) 100 .invalid "bad-protx-version"
  checkService env ptx.addr
  let mn ← rejectMissing (mnList.getMN ptx.proTxHash) 100 "bad-protx-hash"
  rejectHolder mnList (.addr ptx.addr) (fun dmn => dmn.proTxHash != ptx.proTxHash)
    10 "bad-protx-dup-addr"
  rejectIf (ptx.scriptOperatorPayout ≠ [] ∧ (mn.nOperatorReward = 0 ∨
    isPayToPublicKeyHash ptx.scriptOperatorPayout = false ∧
      isPayToScriptHash ptx.scriptOperatorPayout = false)) 10 .invalid "bad-protx-operator-payee"
  checkInputsHash env tx ptx.inputsHash
  rejectIf (env.verifyInsecure mn.pdmnState.pubKeyOperator tx.extraPayload = false) 100 .invalid
    "bad-protx-sig"

def checkProUpRegTx (tx : CTransaction) : Except Fault Unit := do
  rejectIf (tx.nType ≠ .providerUpdateRegistrar) 100 .invalid "bad-protx-type"
  let ptx ← rejectMissing tx.proUpRegPayload 100 "bad-protx-payload"
  rejectIf (ptx.nVersion = 0 ∨ ptx.nVersion > 1) 100 .invalid "bad-protx-version"
  rejectIf (ptx.nMode ≠ 0) 100 .invalid "bad-protx-mode"
  rejectIf (ptx.pubKeyOperator = none ∨ ptx.keyIDVoting = 0) 10 .invalid "bad-protx-key-null"
  rejectIf (isPayToPublicKeyHash ptx.scriptPayout = false ∧ isPayToScriptHash ptx.scriptPayout = false)
    10 .invalid "bad-protx-payee"
  let payoutDest ← rejectMissing (env.extractDestination ptx.scriptPayout) 10
      "bad-protx-payee-dest"
  let dmn ← rejectMissing (mnList.getMN ptx.proTxHash) 100 "bad-protx-hash"
  rejectIf (payoutDest = .keyID dmn.pdmnState.keyIDOwner ∨ payoutDest = .keyID ptx.keyIDVoting)
    10 .invalid "bad-protx-payee-reuse"
  let coin ← rejectMissing (env.getUTXOCoin dmn.collateralOutpoint) 100 "bad-protx-collateral"
  let collateralTxDest ← rejectMissing (env.extractDestination coin.scriptPubKey) 100
    "bad-protx-collateral-dest"
  rejectIf (collateralTxDest = .keyID dmn.pdmnState.keyIDOwner ∨
    collateralTxDest = .keyID ptx.keyIDVoting) 10 .invalid "bad-protx-collateral-reuse"
  rejectHolder mnList (.pubKeyOperator ptx.pubKeyOperator)
    (fun otherDmn => ptx.proTxHash != otherDmn.proTxHash) 10 "bad-protx-dup-key"
  rejectIf (env.dip0003Enabled = false ∧ dmn.pdmnState.keyIDOwner ≠ ptx.keyIDVoting) 10 .invalid
    "bad-protx-key-not-same"
  checkInputsHash env tx ptx.inputsHash
  rejectIf (env.verifyHash dmn.pdmnState.keyIDOwner tx.extraPayload = false) 100 .invalid
    "bad-protx-sig"

def checkProUpRevTx (tx : CTransaction) : Except Fault Unit := do
  rejectIf (tx.nType ≠ .providerUpdateRevoke) 100 .invalid "bad-protx-type"
  let ptx ← rejectMissing tx.proUpRevPayload 100 "bad-protx-payload"
  rejectIf (ptx.nVersion = 0 ∨ ptx.nVersion > 1) 100 .invalid "bad-protx-version"
  rejectIf (ptx.nReason > 3) 100 .invalid "bad-protx-reason"
  let dmn ← rejectMissing (mnList.getMN ptx.proTxHash) 100 "bad-protx-hash"
  checkInputsHash env tx ptx.inputsHash
  rejectIf (env.verifyInsecure dmn.pdmnState.pubKeyOperator tx.extraPayload = false) 100 .invalid
    "bad-protx-sig"

def checkCbTx (tx : CTransaction) : Except Fault Unit := do
  rejectIf (tx.nType ≠ .coinbase) 100 .invalid "bad-cbtx-type"
  rejectIf (tx.isCoinBase = false) 100 .invalid "bad-cbtx-invalid"
  let cbTx ← rejectMissing tx.cbTxPayload 100 "bad-cbtx-payload"
  rejectIf (cbTx.nVersion = 0 ∨ cbTx.nVersion > 2) 100 .invalid "bad-cbtx-version"
  rejectIf (env.prevHeight + 1 ≠ cbTx.nHeight) 100 .invalid "bad-cbtx-height"
  rejectIf (env.dip0008Enabled = true ∧ cbTx.nVersion < 2) 100 .invalid "bad-cbtx-version"

def readBit (bits : List Bool) (i : ℕ) : Bool := bits.getD i (env.strayBit i)

/-- The first branch reports the wrong size of `signers` and returns true. -/
def verifySizes (qc : CFinalCommitment) (params : LLMQParams) : Bool :=
  if qc.signers.length ≠ params.size then true
  else decide (qc.validMembers.length = params.size)

def isNullCommitment (qc : CFinalCommitment) : Bool :=
  !qc.signers.any id && !qc.validMembers.any id && qc.quorumPublicKey.isNone &&
    decide (qc.quorumVvecHash = 0) && qc.membersSig.isNone && qc.quorumSig.isNone

/-- `Verify` without the signature checks, which `CheckLLMQCommitment` does not ask for. -/
def verifyCommitment (qc : CFinalCommitment) (members : List Uint256) : Bool :=
  decide (qc.nVersion = 1) &&
    match env.llmqs qc.llmqType with
    | none => false
    | some params =>
      verifySizes qc params &&
      decide (params.minSize ≤ qc.validMembers.count true) &&
      decide (params.minSize ≤ qc.signers.count true) &&
      qc.quorumPublicKey.isSome && decide (qc.quorumVvecHash ≠ 0) &&
      qc.membersSig.isSome && qc.quorumSig.isSome &&
      (List.range' members.length (params.size - members.length)).all fun i =>
        !readBit env qc.validMembers i && !readBit env qc.signers i

def checkLLMQCommitment (tx : CTransaction) : Except Fault Unit := do
  let qcTx ← rejectMissing tx.finalCommitmentPayload 100 "bad-qc-payload"
  rejectIf (qcTx.nVersion = 0 ∨ qcTx.nVersion > 1) 100 .invalid "bad-qc-version"
  rejectIf ((qcTx.nHeight : ℤ) ≠ env.prevHeight + 1) 100 .invalid "bad-qc-height"
  let quorumHeight ← rejectMissing (env.blockHeight qcTx.commitment.quorumHash) 100
    "bad-qc-quorum-hash"
  rejectIf (env.getAncestor quorumHeight ≠ some qcTx.commitment.quorumHash) 100 .invalid
    "bad-qc-quorum-hash"
  let params ← rejectMissing (env.llmqs qcTx.commitment.llmqType) 100 "bad-qc-type"
  if isNullCommitment qcTx.commitment then
    rejectIf (verifySizes qcTx.commitment params = false) 100 .invalid "bad-qc-invalid-null"
  else
    rejectIf (verifyCommitment env qcTx.commitment (env.getAllQuorumMembers qcTx.commitment.llmqType
      qcTx.commitment.quorumHash) = false) 100 .invalid "bad-qc-invalid"

def checkSpecialTx (tx : CTransaction) : Except Fault Unit :=
  if tx.nVersion ≠ 3 ∨ tx.nType = .normal then pure ()
  else do
    rejectIf (env.dip0003Enabled = false) 10 .invalid "bad-tx-type"
    match tx.nType with
    | .providerRegister => checkProRegTx env mnList tx
    | .providerUpdateService => checkProUpServTx env mnList tx
    | .providerUpdateRegistrar => checkProUpRegTx env mnList tx
    | .providerUpdateRevoke => checkProUpRevTx env mnList tx
    | .coinbase => checkCbTx env tx
    | .quorumCommitment => checkLLMQCommitment env tx
    | _ => .error (.reject ⟨10, .invalid, "bad-tx-type-check"⟩)

end

/-- What block processing relies on of a `ProRegTx` that was checked against `mnList`. -/
structure ProRegTxPassed (env : Env) (mnList : CDeterministicMNList) (tx : CTransaction)
    (ptx : CProRegTx) : Prop where
  payload : tx.proRegPayload = some ptx
  owner_ne : ptx.keyIDOwner ≠ 0
  operator_ne : ptx.pubKeyOperator ≠ none
  coin : ptx.collateralOutpoint.hash ≠ 0 →
    ∃ coin, env.getUTXOCoin ptx.collateralOutpoint = some coin ∧
      env.isValidCollateral coin.nValue = true
  addr : ∀ h dmn, mnList.getMN h = some dmn → .addr ptx.addr ∈ dmn.uniqueProperties →
    dmn.collateralOutpoint = collateralOf tx ptx
  owner_free : ∀ h dmn, mnList.getMN h = some dmn →
    .keyIDOwner ptx.keyIDOwner ∉ dmn.uniqueProperties
  operator_free : ∀ h dmn, mnList.getMN h = some dmn →
    .pubKeyOperator ptx.pubKeyOperator ∉ dmn.uniqueProperties

structure ProUpServTxPassed (mnList : CDeterministicMNList) (tx : CTransaction)
    (ptx : CProUpServTx) : Prop where
  payload : tx.proUpServPayload = some ptx
  member : ∃ dmn, mnList.getMN ptx.proTxHash = some dmn
  addr : ∀ h dmn, mnList.getMN h = some dmn → .addr ptx.addr ∈ dmn.uniqueProperties →
    h = ptx.proTxHash

structure ProUpRegTxPassed (mnList : CDeterministicMNList) (tx : CTransaction)
    (ptx : CProUpRegTx) : Prop where
  payload : tx.proUpRegPayload = some ptx
  operator_ne : ptx.pubKeyOperator ≠ none
  member : ∃ dmn, mnList.getMN ptx.proTxHash = some dmn
  operator : ∀ h dmn, mnList.getMN h = some dmn →
    .pubKeyOperator ptx.pubKeyOperator ∈ dmn.uniqueProperties → h = ptx.proTxHash

structure ProUpRevTxPassed (mnList : CDeterministicMNList) (tx : CTransaction)
    (ptx : CProUpRevTx) : Prop where
  payload : tx.proUpRevPayload = some ptx
  member : ∃ dmn, mnList.getMN ptx.proTxHash = some dmn

structure CommitmentPassed (env : Env) (tx : CTransaction) (qc : CFinalCommitmentTxPayload) :
    Prop where
  payload : tx.finalCommitmentPayload = some qc
  params : ∃ params, env.llmqs qc.commitment.llmqType = some params

section

variable {env : Env} {mnList : CDeterministicMNList} {tx : CTransaction}

theorem checkCollateral_ok {ptx : CProRegTx} {r : COutPoint × CTxDestination × CKeyID}
    (hok : checkCollateral env tx ptx = .ok r) :
    r.1 = collateralOf tx ptx ∧ (ptx.collateralOutpoint.hash ≠ 0 →
      ∃ coin, env.getUTXOCoin ptx.collateralOutpoint = some coin ∧
        env.isValidCollateral coin.nValue = true) := by
  unfold checkCollateral at hok
  unfold collateralOf
  by_cases hext : ptx.collateralOutpoint.hash = 0
  · rw [if_neg (by simp [hext])] at hok
    simp only [rejectMissing, bind_eq_ok, expect_eq_ok, rejectIf_eq_ok, pure_eq_ok] at hok
    obtain ⟨out, -, _, -, dest, -, rfl⟩ := hok
    exact ⟨(if_pos hext).symm, fun hne => absurd hext hne⟩
  · rw [if_pos hext] at hok
    simp only [rejectMissing, bind_eq_ok, expect_eq_ok, rejectIf_eq_ok, pure_eq_ok] at hok
    obtain ⟨coin, hcoin, _, hvalid, dest, -, key, -, rfl⟩ := hok
    exact ⟨(if_neg hext).symm, fun _ => ⟨coin, hcoin, by simpa using hvalid⟩⟩

section

variable {ownerOf : Uint256 → CKeyID} (inv : mnList.UniqueInvariant ownerOf)

include inv

theorem rejectHolder_eq_ok {v : UniqueProperty} {bad : CDeterministicMN → Bool} {dos : ℕ}
    {reason : String} {u : Unit} :
    rejectHolder mnList v bad dos reason = .ok u ↔
      ∀ h dmn, mnList.getMN h = some dmn → v ∈ dmn.uniqueProperties → bad dmn = false := by
  unfold rejectHolder
  by_cases hv : mnList.hasUniqueProperty v = true
  · obtain ⟨h, dmn, get, hmem⟩ := inv.hasUniqueProperty_iff.mp hv
    rw [if_pos hv, inv.getUniquePropertyMN_of_mem get hmem]
    simp only [bind_eq_ok, deref_eq_ok, Option.some.injEq, exists_eq_left', rejectIf_eq_ok,
      Bool.not_eq_true]
    constructor
    · intro hbad k dmn' get' hmem'
      cases inv.holder_unique get hmem get' hmem'
      cases get.symm.trans get'
      exact hbad
    · intro hall
      exact hall h dmn get hmem
  · rw [if_neg hv]
    simp only [pure_eq_ok, true_iff]
    intro h dmn get hmem
    exact absurd (inv.hasUniqueProperty_iff.mpr ⟨h, dmn, get, hmem⟩) hv

theorem rejectHolder_ne_assertion {v : UniqueProperty} {bad : CDeterministicMN → Bool} {dos : ℕ}
    {reason : String} {site : AssertSite} :
    rejectHolder mnList v bad dos reason ≠ .error (.assertion site) := by
  unfold rejectHolder
  by_cases hv : mnList.hasUniqueProperty v = true
  · obtain ⟨h, dmn, get, hmem⟩ := inv.hasUniqueProperty_iff.mp hv
    rw [if_pos hv, inv.getUniquePropertyMN_of_mem get hmem]
    simp
  · simp [hv]

theorem checkProRegTx_ok (hok : checkProRegTx env mnList tx = .ok ()) :
    ∃ ptx, ProRegTxPassed env mnList tx ptx := by
  simp only [checkProRegTx, rejectMissing, bind_eq_ok, expect_eq_ok, rejectIf_eq_ok] at hok
  obtain ⟨_, -, ptx, hptx, _, -, _, -, _, -, _, hkeys, _, -, _, -, _, -, _, -, _, -, r, hcoll, _, -,
    _, haddr, _, hdup, -⟩ := hok
  push Not at hkeys hdup
  obtain ⟨hr, hcoin⟩ := checkCollateral_ok hcoll
  rw [rejectHolder_eq_ok inv] at haddr
  have unheld : ∀ {q}, mnList.hasUniqueProperty q ≠ true →
      ∀ h dmn, mnList.getMN h = some dmn → q ∉ dmn.uniqueProperties :=
    fun hq h dmn get hmem => hq (inv.hasUniqueProperty_iff.mpr ⟨h, dmn, get, hmem⟩)
  refine ⟨ptx, hptx, hkeys.1, hkeys.2.1, hcoin, ?_, unheld hdup.1, unheld hdup.2⟩
  intro h dmn get hmem
  simpa [hr] using haddr h dmn get hmem

theorem checkProUpServTx_ok (hok : checkProUpServTx env mnList tx = .ok ()) :
    ∃ ptx, ProUpServTxPassed mnList tx ptx := by
  simp only [checkProUpServTx, rejectMissing, bind_eq_ok, expect_eq_ok, rejectIf_eq_ok] at hok
  obtain ⟨_, -, ptx, hptx, _, -, _, -, mn, hmn, _, haddr, -⟩ := hok
  rw [rejectHolder_eq_ok inv] at haddr
  refine ⟨ptx, hptx, ⟨mn, hmn⟩, ?_⟩
  intro h dmn get hmem
  simpa [inv.hash get] using haddr h dmn get hmem

theorem checkProUpRegTx_ok (hok : checkProUpRegTx env mnList tx = .ok ()) :
    ∃ ptx, ProUpRegTxPassed mnList tx ptx := by
  simp only [checkProUpRegTx, rejectMissing, bind_eq_ok, expect_eq_ok, rejectIf_eq_ok] at hok
  obtain ⟨_, -, ptx, hptx, _, -, _, -, _, hkey, _, -, _, -, mn, hmn, _, -, _, -, _, -, _, -, _, hdup,
    -⟩ := hok
  push Not at hkey
  rw [rejectHolder_eq_ok inv] at hdup
  refine ⟨ptx, hptx, hkey.1, ⟨mn, hmn⟩, ?_⟩
  intro h dmn get hmem
  have heq : ptx.proTxHash = dmn.proTxHash := by simpa using hdup h dmn get hmem
  exact (inv.hash get).symm.trans heq.symm

end

theorem checkProUpRevTx_ok (hok : checkProUpRevTx env mnList tx = .ok ()) :
    ∃ ptx, ProUpRevTxPassed mnList tx ptx := by
  simp only [checkProUpRevTx, rejectMissing, bind_eq_ok, expect_eq_ok, rejectIf_eq_ok] at hok
  obtain ⟨_, -, ptx, hptx, _, -, _, -, mn, hmn, -⟩ := hok
  exact ⟨ptx, hptx, mn, hmn⟩

theorem checkLLMQCommitment_ok (hok : checkLLMQCommitment env tx = .ok ()) :
    ∃ qc, CommitmentPassed env tx qc := by
  simp only [checkLLMQCommitment, rejectMissing, bind_eq_ok, expect_eq_ok, rejectIf_eq_ok] at hok
  obtain ⟨qc, hqc, _, -, _, -, _, -, _, -, params, hparams, -⟩ := hok
  exact ⟨qc, hqc, params, hparams⟩

theorem checkSpecialTx_ok (hversion : tx.nVersion = 3)
    (hok : checkSpecialTx env mnList tx = .ok ()) :
    match tx.nType with
    | .normal => True
    | .providerRegister => checkProRegTx env mnList tx = .ok ()
    | .providerUpdateService => checkProUpServTx env mnList tx = .ok ()
    | .providerUpdateRegistrar => checkProUpRegTx env mnList tx = .ok ()
    | .providerUpdateRevoke => checkProUpRevTx env mnList tx = .ok ()
    | .coinbase => checkCbTx env tx = .ok ()
    | .quorumCommitment => checkLLMQCommitment env tx = .ok ()
    | .other _ => False := by
  unfold checkSpecialTx at hok
  by_cases hnormal : tx.nType = .normal
  · rw [hnormal]
    trivial
  · rw [if_neg (by simp [hversion, hnormal]), bind_eq_ok] at hok
    obtain ⟨_, -, hok⟩ := hok
    cases htype : tx.nType <;> simp_all

end

end ButCore.Evo
