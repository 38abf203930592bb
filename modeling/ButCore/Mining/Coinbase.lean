import ButCore.Governance.BlockValue
import ButCore.Mining.PaymentProducts

/-!
# The coinbase of a new block

How `CreateNewBlock` shares out the reward of a block, and when the coinbase passes the checks that
the same node makes of it.
-/
namespace ButCore.Mining

open Checked Validation Evo Governance

/-- The node that mines. No registration with an operator share above 10000 is accepted. -/
structure NodeState where
  gov : GovernanceState
  env : Evo.Env
  getListForBlock : Uint256 → CDeterministicMNList
  tip : ConnectedBlock
  pprev : ActiveChain
  operatorShares : ∀ hash, ∀ dmn ∈ (getListForBlock hash).allMNs, dmn.nOperatorReward ≤ 10000

namespace NodeState

variable (node : NodeState)

def chain : ActiveChain := node.tip :: node.pprev

def nPrevHeight : ℤ := node.chain.tipHeight

def nHeight : ℤ := node.nPrevHeight + 1

def blockReward (nFees : CAmount) : CAmount := nFees + getBlockSubsidy node.nPrevHeight

end NodeState

/-! ### Building -/

def takeFromMiner (nValue : CAmount) : List CTxOut → List CTxOut
  | [] => []
  | out :: rest => { out with nValue := out.nValue - nValue } :: rest

section

variable (net : PaymentNetwork) (params : BudgetParams) (node : NodeState)

def getSmartnodeTxOuts (blockReward : CAmount) : Except PaymentFault (List CTxOut) := do
  match ← getBlockTxOuts node.env (net.rules node.getListForBlock) node.chain node.nHeight
      blockReward with
  | none => pure []
  | some (_, voutSmartnodePayments) => pure voutSmartnodePayments

def superblockTxOuts : List CTxOut :=
  if node.gov.superblocksEnabled && isSuperblockTriggered params node.gov node.nHeight then
    getSuperblockPayments params node.gov node.nHeight
  else []

def fillBlockPayments (vout : List CTxOut) (blockReward : CAmount) :
    Except PaymentFault (List CTxOut) := do
  let voutSuperblockPayments := superblockTxOuts params node
  let voutSmartnodePayments ← getSmartnodeTxOuts net node blockReward
  let vout := vout ++ voutSmartnodePayments ++ voutSuperblockPayments
  pure (voutSmartnodePayments.foldl (fun vout txout => takeFromMiner txout.nValue vout) vout)

def fillFounderPayment (vout : List CTxOut) (blockReward : CAmount) : List CTxOut :=
  let founderPayment := net.founder.getFounderPaymentAmount node.nHeight blockReward
  takeFromMiner founderPayment vout ++ [⟨founderPayment, net.founder.founderScript⟩]

/-- The bytes of a positive number, lowest first, with room for the sign. -/
def scriptNumBytes (n : ℕ) : CScript :=
  let bytes := (Nat.digits 256 n).map (BitVec.ofNat 8)
  if (bytes.getLast?.getD 0).msb then bytes ++ [0] else bytes

/-- `CScript() << n` for a height -/
def pushHeight (n : ℕ) : CScript :=
  if n = 0 then [0]
  else if n ≤ 16 then [BitVec.ofNat 8 (0x50 + n)]
  else BitVec.ofNat 8 (scriptNumBytes n).length :: scriptNumBytes n

def coinbaseTx (vout : List CTxOut) : CTransaction where
  hash := 0
  nVersion := if node.env.dip0003Enabled then 3 else 2
  nType := if node.env.dip0003Enabled then .coinbase else .normal
  vin := [⟨COutPoint.null,
    if node.env.dip0003Enabled then [OP_RETURN] else pushHeight node.nHeight.toNat ++ [0], 0xffffffff⟩]
  vout := vout
  nLockTime := 0
  extraPayload := if node.env.dip0003Enabled then .cbTx ⟨2, node.nHeight⟩ else .undecodable
  extraPayloadSize := if node.env.dip0003Enabled then 70 else 0

def createCoinbase (scriptPubKeyIn : CScript) (nFees : CAmount) : Except PaymentFault CTransaction := do
  let blockReward := node.blockReward nFees
  let vout ← fillBlockPayments net params node [⟨blockReward, scriptPubKeyIn⟩] blockReward
  pure (coinbaseTx node (fillFounderPayment net node vout blockReward))

end

/-! ### Checking -/

inductive PayeeFault where
  | payment (fault : PaymentFault)
  | thrown (what : String)

section

variable (net : PaymentNetwork) (params : BudgetParams) (node : NodeState)

def isBlockPayeeValid (txNew : CTransaction) (nBlockHeight : ℤ) (blockReward : CAmount) :
    Except PayeeFault Bool :=
  if node.gov.fLiteMode then pure true
  else if nBlockHeight < params.smartnodePaymentFixedBlock ∧
      nBlockHeight < params.nSuperblockStartBlock then pure true
  else do
    let valid ← (if node.gov.superblocksEnabled ∧
          isSuperblockTriggered params node.gov nBlockHeight then
        (isValidSuperblock params node.gov txNew nBlockHeight blockReward).mapError .thrown
      else pure true)
    if valid = false then pure false
    else
      (isTransactionValid node.env (net.rules node.getListForBlock) node.chain txNew nBlockHeight
        blockReward).mapError .payment

/-- What the coinbase of a new block has to satisfy; the founder check is the one that
`CheckTransaction` makes with the height and the subsidy of the block before. -/
structure CoinbaseValid (nFees : CAmount) (coinbase : CTransaction) : Prop where
  miner : ∃ out rest, coinbase.vout = out :: rest ∧ 0 ≤ out.nValue
  total : valueOut coinbase.vout = node.blockReward nFees + valueOut (superblockTxOuts params node)
  founder : ¬ (net.founder.startBlock < node.nPrevHeight ∧
    net.founder.getFounderPaymentAmount node.nPrevHeight (getBlockSubsidy node.nPrevHeight) ≠ 0 ∧
    ¬ net.founder.isBlockPayeeValid coinbase node.nPrevHeight (getBlockSubsidy node.nPrevHeight))
  value : isBlockValueValid params node.gov coinbase node.nHeight (node.blockReward nFees) = .ok ()
  payee : isBlockPayeeValid net params node coinbase node.nHeight (node.blockReward nFees) = .ok true

/-- A triggered superblock can be paid: a trigger with votes is there, and its payments keep to the
limit and to the money range. Without a trigger with votes only a lite node goes on. -/
def SuperblockPayable (nFees : CAmount) : Prop :=
  node.gov.superblocksEnabled = true → isSuperblockTriggered params node.gov node.nHeight = true →
    match getBestSuperblock params node.gov node.nHeight with
    | none => node.gov.fLiteMode = true
    | some sb => sb.getPaymentsTotalAmount ≤ getPaymentsLimit params node.nHeight ∧
        node.blockReward nFees + sb.getPaymentsTotalAmount ≤ MAX_MONEY

end

section

variable {net : PaymentNetwork} {params : BudgetParams} {node : NodeState} {blockReward : CAmount}
variable {dmnPayee : CDeterministicMN} {smartnodeReward : CAmount}

theorem operatorReward_bounds (nonneg : 0 ≤ smartnodeReward)
    (share : dmnPayee.nOperatorReward ≤ 10000) :
    0 ≤ operatorReward smartnodeReward dmnPayee ∧
      operatorReward smartnodeReward dmnPayee ≤ smartnodeReward := by
  unfold operatorReward
  split
  · have bound : (dmnPayee.nOperatorReward : ℤ) ≤ 10000 := by exact_mod_cast share
    have product := mul_le_mul_of_nonneg_left bound nonneg
    have positive : 0 ≤ smartnodeReward * (dmnPayee.nOperatorReward : ℤ) :=
      mul_nonneg nonneg (Int.natCast_nonneg _)
    rw [Int.tdiv_eq_ediv_of_nonneg positive]
    exact ⟨Int.ediv_nonneg positive (by decide), Int.ediv_le_of_le_mul (by decide) product⟩
  · exact ⟨le_rfl, nonneg⟩

theorem payeeTxOuts_spec (nonneg : 0 ≤ smartnodeReward) (share : dmnPayee.nOperatorReward ≤ 10000) :
    (∀ out ∈ payeeTxOuts smartnodeReward dmnPayee, 0 ≤ out.nValue) ∧
      valueOut (payeeTxOuts smartnodeReward dmnPayee) = smartnodeReward := by
  obtain ⟨low, high⟩ := operatorReward_bounds nonneg share
  unfold payeeTxOuts
  generalize operatorReward smartnodeReward dmnPayee = operator at low high
  dsimp only
  split_ifs with owner paid paid
  · simp [valueOut, high, paid.le]
  · have : operator = 0 := le_antisymm (not_lt.mp paid) low
    simp [valueOut, this, nonneg]
  · have : operator = smartnodeReward := by linarith
    simp [valueOut, this, nonneg]
  · have : smartnodeReward = 0 := by linarith
    simp [valueOut, this]

theorem at?_nPrevHeight (node : NodeState) : node.chain.at? (node.nHeight - 1) = some node.tip := by
  have height : node.nHeight - 1 = node.pprev.length := by
    simp [NodeState.nHeight, NodeState.nPrevHeight, NodeState.chain, ActiveChain.tipHeight]
  rw [height, ActiveChain.at?, if_pos (Int.natCast_nonneg _), NodeState.chain, Int.toNat_natCast]
  simp

theorem mem_of_getMNPayee {list : CDeterministicMNList} {env : Evo.Env} {dmn : CDeterministicMN}
    (h : list.getMNPayee env = some dmn) : dmn ∈ list.allMNs := by
  by_cases few : list.getAllMNsCount ≤ 10
  · rw [CDeterministicMNList.getMNPayee, if_pos few] at h
    cases h
  · rw [getMNPayee_eq env (not_le.mp few)] at h
    rcases Ranking.mem_of_foldl_keepFirst h with hnone | hmem
    · cases hnone
    · exact List.mem_of_mem_filter hmem

theorem getBlockTxOuts_tip (net : PaymentNetwork) (node : NodeState) (blockReward : CAmount) :
    getBlockTxOuts node.env (net.rules node.getListForBlock) node.chain node.nHeight blockReward =
      .ok (if getSmartnodePayment (net.rules node.getListForBlock) node.chain node.nHeight
            blockReward = 0 then none
        else ((node.getListForBlock node.tip.hash).getMNPayee (node.env.atTip node.chain)).map
          fun dmnPayee => (dmnPayee, payeeTxOuts (getSmartnodePayment
            (net.rules node.getListForBlock) node.chain node.nHeight blockReward) dmnPayee)) := by
  rw [getBlockTxOuts, at?_nPrevHeight]
  split <;> rfl

variable {txNew : CTransaction}

theorem isTransactionValid_of_mem {outs : List CTxOut}
    (filled : getSmartnodeTxOuts net node blockReward = .ok outs)
    (paid : ∀ out ∈ outs, out ∈ txNew.vout) :
    isTransactionValid node.env (net.rules node.getListForBlock) node.chain txNew node.nHeight
      blockReward = .ok true := by
  obtain ⟨payment, hpayment⟩ : ∃ payment, getBlockTxOuts node.env (net.rules node.getListForBlock)
      node.chain node.nHeight blockReward = .ok payment := ⟨_, getBlockTxOuts_tip net node blockReward⟩
  rw [getSmartnodeTxOuts, hpayment, ok_bind] at filled
  rw [isTransactionValid, demandedPayment, hpayment]
  cases node.env.dip0003Enabled with
  | false => rfl
  | true =>
    rw [if_pos rfl, ok_bind]
    cases payment with
    | none => rfl
    | some payment =>
      cases filled
      exact findTxOuts_eq_true.mpr paid

theorem getSmartnodeTxOuts_spec (net : PaymentNetwork) (node : NodeState) (nonneg : 0 ≤ blockReward) :
    ∃ outs, getSmartnodeTxOuts net node blockReward = .ok outs ∧
      (∀ out ∈ outs, 0 ≤ out.nValue) ∧ valueOut outs ≤ (blockReward * 20).tdiv 100 := by
  have fifth : 0 ≤ (blockReward * 20).tdiv 100 := Int.tdiv_nonneg (by linarith) (by decide)
  rw [getSmartnodeTxOuts, getBlockTxOuts_tip, ok_bind]
  rcases getSmartnodePayment_cases net node.getListForBlock node.chain with
    unpaid | ⟨-, paid⟩
  · rw [if_pos unpaid]
    exact ⟨[], rfl, by simp, fifth⟩
  · rw [paid]
    split_ifs
    · exact ⟨[], rfl, by simp, fifth⟩
    · cases hpayee : (node.getListForBlock node.tip.hash).getMNPayee (node.env.atTip node.chain) with
      | none => exact ⟨[], rfl, by simp, fifth⟩
      | some dmnPayee =>
        have share := node.operatorShares _ dmnPayee (mem_of_getMNPayee hpayee)
        obtain ⟨values, sum⟩ := payeeTxOuts_spec fifth share
        exact ⟨_, rfl, values, sum.le⟩

theorem founderPayment_bounds (net : PaymentNetwork) (nonneg : 0 ≤ blockReward) (nHeight : ℤ) :
    0 ≤ net.founder.getFounderPaymentAmount nHeight blockReward ∧
      net.founder.getFounderPaymentAmount nHeight blockReward ≤ (blockReward * 5).tdiv 100 := by
  have twentieth : 0 ≤ (blockReward * 5).tdiv 100 := Int.tdiv_nonneg (by linarith) (by decide)
  rw [getFounderPaymentAmount_eq, founderProduct_founder]
  split
  · exact ⟨le_rfl, twentieth⟩
  · exact ⟨twentieth, le_rfl⟩

theorem foldl_takeFromMiner (payments : List CTxOut) (out : CTxOut) (rest : List CTxOut) :
    payments.foldl (fun vout txout => takeFromMiner txout.nValue vout) (out :: rest) =
      { out with nValue := out.nValue - valueOut payments } :: rest := by
  induction payments generalizing out with
  | nil => simp [valueOut]
  | cons payment payments ih =>
    rw [List.foldl_cons, takeFromMiner, ih]
    simp [valueOut, sub_sub]

variable (net params node) in
def sharedOut (nFees : CAmount) (outs : List CTxOut) (scriptPubKeyIn : CScript) : List CTxOut :=
  let founderPayment := net.founder.getFounderPaymentAmount node.nHeight (node.blockReward nFees)
  ⟨node.blockReward nFees - valueOut outs - founderPayment, scriptPubKeyIn⟩ ::
    (outs ++ superblockTxOuts params node ++ [⟨founderPayment, net.founder.founderScript⟩])

variable {nFees : CAmount} {outs : List CTxOut}

theorem createCoinbase_eq (filled : getSmartnodeTxOuts net node (node.blockReward nFees) = .ok outs)
    (scriptPubKeyIn : CScript) :
    createCoinbase net params node scriptPubKeyIn nFees =
      .ok (coinbaseTx node (sharedOut net params node nFees outs scriptPubKeyIn)) := by
  rw [createCoinbase, fillBlockPayments, filled, ok_bind, pure_bind, List.append_assoc,
    List.singleton_append, foldl_takeFromMiner]
  rfl

variable {reward : ℤ}

theorem quarter_le (nonneg : 0 ≤ reward) :
    (reward * 20).tdiv 100 + (reward * 5).tdiv 100 ≤ reward := by
  rw [Int.tdiv_eq_ediv_of_nonneg (by omega), Int.tdiv_eq_ediv_of_nonneg (by omega)]
  omega

theorem miner_nonneg (nonneg : 0 ≤ node.blockReward nFees)
    (shares : valueOut outs ≤ (node.blockReward nFees * 20).tdiv 100) :
    0 ≤ node.blockReward nFees - valueOut outs -
      net.founder.getFounderPaymentAmount node.nHeight (node.blockReward nFees) := by
  have founder := (founderPayment_bounds net nonneg node.nHeight).2
  have quarter := quarter_le nonneg
  linarith

theorem valueOut_sharedOut (scriptPubKeyIn : CScript) :
    valueOut (sharedOut net params node nFees outs scriptPubKeyIn) =
      node.blockReward nFees + valueOut (superblockTxOuts params node) := by
  simp only [sharedOut, valueOut, List.map_cons, List.map_append, List.map_nil, List.sum_cons,
    List.sum_append, List.sum_nil]
  ring

theorem superblockTxOuts_nonneg : ∀ out ∈ superblockTxOuts params node, 0 ≤ out.nValue := by
  unfold superblockTxOuts getSuperblockPayments
  split
  · split
    · simp
    · intro out hout
      obtain ⟨payment, -, rfl⟩ := List.mem_map.mp hout
      exact ((moneyRange_iff _ _).mp payment.range).1
  · simp

variable (net params) in
theorem sharedOut_nonneg (nonneg : 0 ≤ node.blockReward nFees)
    (values : ∀ out ∈ outs, 0 ≤ out.nValue)
    (shares : valueOut outs ≤ (node.blockReward nFees * 20).tdiv 100) (scriptPubKeyIn : CScript) :
    ∀ out ∈ sharedOut net params node nFees outs scriptPubKeyIn, 0 ≤ out.nValue := by
  intro out hout
  rcases List.mem_cons.mp hout with rfl | hout
  · exact miner_nonneg nonneg shares
  rcases List.mem_append.mp hout with hout | hout
  · rcases List.mem_append.mp hout with hout | hout
    · exact values out hout
    · exact superblockTxOuts_nonneg out hout
  · rw [List.mem_singleton.mp hout]
    exact (founderPayment_bounds net nonneg node.nHeight).1

theorem founderPayment_mono {reward' : ℤ} (nonneg : 0 ≤ reward) (le : reward ≤ reward') :
    (reward * 5).tdiv 100 ≤ (reward' * 5).tdiv 100 := by
  rw [Int.tdiv_eq_ediv_of_nonneg (by omega), Int.tdiv_eq_ediv_of_nonneg (by omega)]
  omega

theorem sharedOut_founder (fees : 0 ≤ nFees) (scriptPubKeyIn : CScript)
    (started : net.founder.startBlock < node.nPrevHeight) :
    net.founder.isBlockPayeeValid
      (coinbaseTx node (sharedOut net params node nFees outs scriptPubKeyIn)) node.nPrevHeight
      (getBlockSubsidy node.nPrevHeight) = true := by
  have subsidy : 0 ≤ getBlockSubsidy node.nPrevHeight := le_trans (by decide) (getBlockSubsidy_ge _)
  rw [FounderPayment.isBlockPayeeValid_iff]
  refine ⟨_, List.mem_cons_of_mem _ (List.mem_append_right _ (List.mem_singleton.mpr rfl)), rfl, ?_⟩
  have before : ¬ node.nPrevHeight ≤ net.founderStart := not_le.mpr started
  have now : ¬ node.nHeight ≤ net.founderStart := by
    have : net.founderStart < node.nPrevHeight := started
    unfold NodeState.nHeight
    omega
  rw [getFounderPaymentAmount_eq, getFounderPaymentAmount_eq, founderProduct_founder,
    founderProduct_founder, if_neg before, if_neg now]
  exact founderPayment_mono subsidy (le_add_of_nonneg_left fees)

variable {nBlockHeight : ℤ}

theorem isBlockPayeeValid_eq_ok_true
    (paid : isTransactionValid node.env (net.rules node.getListForBlock) node.chain txNew nBlockHeight blockReward = .ok true) :
    isBlockPayeeValid net params node txNew nBlockHeight blockReward = .ok true ↔
      node.gov.fLiteMode = true ∨
      nBlockHeight < params.smartnodePaymentFixedBlock ∧ nBlockHeight < params.nSuperblockStartBlock ∨
      (node.gov.superblocksEnabled = true ∧
          isSuperblockTriggered params node.gov nBlockHeight = true →
        isValidSuperblock params node.gov txNew nBlockHeight blockReward = .ok true) := by
  unfold isBlockPayeeValid
  split_ifs with lite old superblock
  · simp [lite]
  · simp [old]
  · simp only [lite, old, superblock, and_self, true_implies, false_or, bind_eq_ok, mapError_eq_ok,
      Bool.false_eq_true]
    constructor
    · rintro ⟨valid, hvalid, h⟩
      cases valid with
      | false => cases h
      | true => exact hvalid
    · intro hvalid
      exact ⟨true, hvalid, by rw [paid]; rfl⟩
  · simp only [lite, old, superblock, false_implies, or_true, iff_true, pure_bind, Bool.true_eq_false,
      if_false, paid]
    rfl

theorem isValidBlockHeight_of_triggered
    (triggered : isSuperblockTriggered params node.gov node.nHeight = true) :
    isValidBlockHeight params node.nHeight = true := by
  unfold isSuperblockTriggered at triggered
  exact (Bool.and_eq_true_iff.mp triggered).1

theorem superblockTxOuts_of_regular (regular : ¬ (node.gov.superblocksEnabled = true ∧
    isSuperblockTriggered params node.gov node.nHeight = true)) : superblockTxOuts params node = [] := by
  unfold superblockTxOuts
  rw [if_neg (by simpa using regular)]

theorem superblockTxOuts_of_triggered (enabled : node.gov.superblocksEnabled = true)
    (triggered : isSuperblockTriggered params node.gov node.nHeight = true) :
    superblockTxOuts params node = getSuperblockPayments params node.gov node.nHeight := by
  unfold superblockTxOuts
  rw [if_pos (by simp [enabled, triggered])]

theorem valueOut_map_txOut (sb : CSuperblock) :
    valueOut (sb.vecPayments.map CGovernancePayment.txOut) = sb.getPaymentsTotalAmount := by
  simp [valueOut, CSuperblock.getPaymentsTotalAmount, CGovernancePayment.txOut, Function.comp_def]

theorem isValid_sharedOut {sb : CSuperblock} {scriptPubKeyIn : CScript}
    (height : isValidBlockHeight params node.nHeight = true)
    (filled : superblockTxOuts params node = sb.vecPayments.map CGovernancePayment.txOut)
    (nonneg : ∀ out ∈ sharedOut net params node nFees outs scriptPubKeyIn, 0 ≤ out.nValue) :
    sb.isValid params (coinbaseTx node (sharedOut net params node nFees outs scriptPubKeyIn))
        node.nHeight (node.blockReward nFees) = .ok true ↔
      sb.getPaymentsTotalAmount ≤ getPaymentsLimit params node.nHeight ∧
        node.blockReward nFees + sb.getPaymentsTotalAmount ≤ MAX_MONEY := by
  have value : valueOut (sharedOut net params node nFees outs scriptPubKeyIn) =
      node.blockReward nFees + sb.getPaymentsTotalAmount := by
    rw [valueOut_sharedOut, filled, valueOut_map_txOut]
  have inOrder : (sb.vecPayments.map CGovernancePayment.txOut).Sublist
      (sharedOut net params node nFees outs scriptPubKeyIn) := by
    rw [← filled]
    refine List.Sublist.cons _ ?_
    exact (List.sublist_append_right _ _).trans (List.sublist_append_left _ _)
  have found : CSuperblock.matchPayments sb.vecPayments
      (sharedOut net params node nFees outs scriptPubKeyIn) = true := by
    rw [matchPayments_eq_scan, Scan.scan_iff]
    exact (List.destutter_sublist _ _).trans inOrder
  have long : sb.vecPayments.length ≤ (sharedOut net params node nFees outs scriptPubKeyIn).length := by
    simpa using inOrder.length_le
  rw [CSuperblock.isValid_eq_ok_true]
  simp only [coinbaseTx, value, height, long, found, le_refl, true_and, and_true]
  exact ⟨fun h => ⟨h.1, h.2.2⟩, fun h => ⟨h.1, nonneg, h.2⟩⟩

theorem getPaymentsLimit_nonneg (params : BudgetParams) (nBlockHeight : ℤ) :
    0 ≤ getPaymentsLimit params nBlockHeight := by
  unfold getPaymentsLimit
  split
  · exact mul_nonneg (subsidy_nonneg _) params.cyclePositive.le
  · exact le_rfl

theorem isBlockValueValid_of_reward {coinbase : CTransaction} (summable : Summable coinbase.vout)
    (value : valueOut coinbase.vout ≤ blockReward)
    (skipped : node.gov.fLiteMode = true ∨ ¬ (node.gov.superblocksEnabled = true ∧ isSuperblockTriggered params node.gov nBlockHeight = true)) :
    isBlockValueValid params node.gov coinbase nBlockHeight blockReward = .ok () := by
  cases height : isValidBlockHeight params nBlockHeight with
  | false => exact isBlockValueValid_of_le height summable value
  | true =>
    have limit := getPaymentsLimit_nonneg params nBlockHeight
    rw [isBlockValueValid_superblock height]
    refine ⟨summable, by linarith, ?_⟩
    rcases skipped with lite | regular
    · exact Or.inl (Or.inr lite)
    · rw [if_neg regular]
      exact Or.inr value

variable (net params node) in
theorem checks_sharedOut_iff (scriptPubKeyIn : CScript)
    (filled : getSmartnodeTxOuts net node (node.blockReward nFees) = .ok outs)
    (nonneg : ∀ out ∈ sharedOut net params node nFees outs scriptPubKeyIn, 0 ≤ out.nValue)
    (small : node.blockReward nFees ≤ MAX_MONEY) :
    let coinbase := coinbaseTx node (sharedOut net params node nFees outs scriptPubKeyIn)
    isBlockValueValid params node.gov coinbase node.nHeight (node.blockReward nFees) = .ok () ∧
        isBlockPayeeValid net params node coinbase node.nHeight (node.blockReward nFees) = .ok true ↔
      SuperblockPayable params node nFees := by
  intro coinbase
  have paid : isTransactionValid node.env (net.rules node.getListForBlock) node.chain coinbase
      node.nHeight (node.blockReward nFees) = .ok true :=
    isTransactionValid_of_mem filled fun out hout => List.mem_cons_of_mem _
      (List.mem_append_left _ (List.mem_append_left _ hout))
  have value : valueOut coinbase.vout = _ := valueOut_sharedOut scriptPubKeyIn
  rw [isBlockPayeeValid_eq_ok_true paid]
  by_cases superblock : node.gov.superblocksEnabled = true ∧
      isSuperblockTriggered params node.gov node.nHeight = true
  · obtain ⟨enabled, triggered⟩ := superblock
    have height := isValidBlockHeight_of_triggered triggered
    have late := not_lt.mpr (start_le_of_isValidBlockHeight height)
    have outputs := superblockTxOuts_of_triggered enabled triggered
    unfold getSuperblockPayments at outputs
    simp only [enabled, triggered, and_self, true_implies, late, and_false, false_or,
      SuperblockPayable, isValidSuperblock_eq_ok_true]
    cases best : getBestSuperblock params node.gov node.nHeight with
    | none =>
      rw [best] at outputs
      rw [outputs] at value
      have reward : valueOut coinbase.vout = node.blockReward nFees := by
        simpa [valueOut] using value
      simp only [reduceCtorEq, false_and, exists_false, or_false]
      refine ⟨fun h => h.2, fun lite => ⟨?_, lite⟩⟩
      exact isBlockValueValid_of_reward ⟨nonneg, reward ▸ small⟩ reward.le (Or.inl lite)
    | some sb =>
      rw [best] at outputs
      rw [outputs, valueOut_map_txOut] at value
      have valid := isValid_sharedOut height outputs nonneg
      simp only [Option.some.injEq, exists_eq_left']
      constructor
      · rintro ⟨accepted, -⟩
        obtain ⟨summable, limit, -⟩ := (isBlockValueValid_superblock height).mp accepted
        exact ⟨by linarith, value ▸ summable.2⟩
      · intro payable
        refine ⟨(isBlockValueValid_superblock height).mpr ⟨⟨nonneg, ?_⟩, ?_, Or.inr ?_⟩,
          Or.inr (valid.mpr payable)⟩
        · exact value ▸ payable.2
        · have := payable.1
          linarith
        · rw [if_pos ⟨enabled, triggered⟩]
          exact isValidSuperblock_eq_ok_true.mpr ⟨sb, best, valid.mpr payable⟩
  · rw [superblockTxOuts_of_regular superblock] at value
    have reward : valueOut coinbase.vout = node.blockReward nFees := by
      simpa [valueOut] using value
    refine iff_of_true ⟨?_, Or.inr (Or.inr fun h => absurd h superblock)⟩ ?_
    · exact isBlockValueValid_of_reward ⟨nonneg, reward ▸ small⟩ reward.le (Or.inr superblock)
    · exact fun enabled triggered => absurd ⟨enabled, triggered⟩ superblock

end

/-- A node passes its own coinbase exactly when a triggered superblock can be paid. -/
theorem createCoinbase_valid_iff (net : PaymentNetwork) (params : BudgetParams) (node : NodeState)
    (scriptPubKeyIn : CScript) (nFees : CAmount) (fees : 0 ≤ nFees)
    (small : node.blockReward nFees < 900000000000000) :
    (∃ coinbase, createCoinbase net params node scriptPubKeyIn nFees = .ok coinbase ∧
        CoinbaseValid net params node nFees coinbase) ↔
      SuperblockPayable params node nFees := by
  have nonneg : 0 ≤ node.blockReward nFees := add_nonneg fees (subsidy_nonneg _)
  obtain ⟨outs, filled, values, shares⟩ := getSmartnodeTxOuts_spec net node nonneg
  have outputs := sharedOut_nonneg net params nonneg values shares scriptPubKeyIn
  have checks := checks_sharedOut_iff net params node scriptPubKeyIn filled outputs
    (small.le.trans (by decide))
  rw [createCoinbase_eq filled]
  refine Iff.trans ?_ checks
  constructor
  · rintro ⟨coinbase, built, valid⟩
    cases built
    exact ⟨valid.value, valid.payee⟩
  · rintro ⟨value, payee⟩
    refine ⟨_, rfl, ⟨_, _, rfl, miner_nonneg nonneg shares⟩, valueOut_sharedOut scriptPubKeyIn, ?_,
      value, payee⟩
    rintro ⟨started, -, missing⟩
    exact missing (sharedOut_founder fees scriptPubKeyIn started)

/-- Eleven smartnodes; the next block has the height 4200. -/
def nodeWith (gov : GovernanceState) : NodeState where
  gov := gov
  env := toyEnv
  getListForBlock _ := toyCrowd 11
  tip := ⟨1, []⟩
  pprev := List.replicate 4199 ⟨0, []⟩
  operatorShares _ := by decide +kernel

def testNetwork : PaymentNetwork where
  nMaxCash := 200
  rewardPercentages := [(200, 0), (Evo.INT_MAX, 20)]
  founderScript := [0x51]
  founderStart := 200
  rates := by decide

section

variable (gov : GovernanceState)

theorem nodeWith_nPrevHeight : (nodeWith gov).nPrevHeight = 4199 := by
  have length : (nodeWith gov).pprev.length = 4199 := List.length_replicate
  rw [NodeState.nPrevHeight, NodeState.chain, ActiveChain.tipHeight, List.length_cons, length]
  rfl

theorem nodeWith_nHeight : (nodeWith gov).nHeight = 4200 := by
  rw [NodeState.nHeight, nodeWith_nPrevHeight]
  rfl

theorem nodeWith_blockReward : (nodeWith gov).blockReward 0 = 500000000000 := by
  rw [NodeState.blockReward, nodeWith_nPrevHeight]
  decide

end

/-- The founder, a smartnode and a superblock of three coins are paid. -/
theorem createCoinbase_valid_voted :
    testNetwork.founderStart < (nodeWith votedState).nHeight ∧
      10 ≤ (toyCrowd 11).getAllMNsCount ∧
      isSuperblockTriggered CSuperblock.testParams votedState (nodeWith votedState).nHeight = true ∧
      ∃ coinbase, createCoinbase testNetwork CSuperblock.testParams (nodeWith votedState) [0x53] 0 =
          .ok coinbase ∧
        CoinbaseValid testNetwork CSuperblock.testParams (nodeWith votedState) 0 coinbase := by
  have valid := (createCoinbase_valid_iff testNetwork CSuperblock.testParams (nodeWith votedState)
    [0x53] 0 le_rfl (by rw [nodeWith_blockReward]; decide)).mpr fun _ _ => by
      rw [nodeWith_nHeight, nodeWith_blockReward]
      exact show _ ∧ _ by decide
  refine ⟨?_, by decide +kernel, ?_, valid⟩
  all_goals
    rw [nodeWith_nHeight]
    decide

/-- Payments above the limit are filled in, and the node then rejects its own block. -/
theorem createCoinbase_above_limit :
    (nodeWith costlyState).nHeight = 4200 ∧
      (nodeWith costlyState).blockReward 0 < 900000000000000 ∧
      ∃ coinbase, createCoinbase testNetwork CSuperblock.testParams (nodeWith costlyState) [0x53] 0 =
          .ok coinbase ∧
        isBlockValueValid CSuperblock.testParams costlyState coinbase 4200
          ((nodeWith costlyState).blockReward 0) ≠ .ok () := by
  have height := nodeWith_nHeight costlyState
  have reward := nodeWith_blockReward costlyState
  refine ⟨height, by rw [reward]; decide, ?_⟩
  obtain ⟨outs, filled, -, -⟩ := getSmartnodeTxOuts_spec testNetwork (nodeWith costlyState)
    (show 0 ≤ (nodeWith costlyState).blockReward 0 by rw [reward]; decide)
  refine ⟨_, createCoinbase_eq filled [0x53], ?_⟩
  rw [ne_eq, isBlockValueValid_superblock (by decide)]
  rintro ⟨-, limit, -⟩
  have paid : superblockTxOuts CSuperblock.testParams (nodeWith costlyState) =
      costlySuperblock.vecPayments.map CGovernancePayment.txOut := by
    unfold superblockTxOuts
    rw [height]
    rfl
  rw [coinbaseTx, valueOut_sharedOut, paid, reward] at limit
  exact absurd limit (by decide)

end ButCore.Mining
