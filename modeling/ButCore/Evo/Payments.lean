import ButCore.Evo.Quorum

/-!
# Smartnode payments

What `IsTransactionValid` demands of a coinbase: the payee comes from the list at the parent of the
block, the amount from the number of smartnodes at the active tip.
-/
namespace ButCore.Evo

open CDeterministicMNList

inductive PaymentFault where
  /-- `GetListForBlock` of a null pointer -/
  | nullPointer
  /-- the `assert(false)` after `ExtractDestination` -/
  | destination
  deriving DecidableEq

/-- Reward percentages with the heights they end at, and the list that the diffs of a block lead to. -/
structure PaymentRules where
  rewardPercentages : List (ℤ × ℤ)
  getListForBlock : Uint256 → CDeterministicMNList

section

variable (env : Env) (rules : PaymentRules) (chain : ActiveChain)

def PaymentRules.getRewardPercentage (height : ℤ) : ℤ :=
  match rules.rewardPercentages.find? fun it => it.1 == INT_MAX || decide (height ≤ it.1) with
  | none => 0
  | some it => it.2

def tipMNsCount : ℕ :=
  match chain.head? with
  | none => 0
  | some tip => (rules.getListForBlock tip.hash).getAllMNsCount

def getSmartnodePayment (nHeight : ℤ) (blockValue : CAmount) : CAmount :=
  if 10 ≤ tipMNsCount rules chain then (blockValue * rules.getRewardPercentage nHeight).tdiv 100
  else 0

def operatorReward (smartnodeReward : CAmount) (dmnPayee : CDeterministicMN) : CAmount :=
  if dmnPayee.nOperatorReward ≠ 0 ∧ dmnPayee.pdmnState.scriptOperatorPayout ≠ [] then
    (smartnodeReward * dmnPayee.nOperatorReward).tdiv 10000
  else 0

def payeeTxOuts (smartnodeReward : CAmount) (dmnPayee : CDeterministicMN) : List CTxOut :=
  let operatorReward := operatorReward smartnodeReward dmnPayee
  let smartnodeReward := smartnodeReward - operatorReward
  (if 0 < smartnodeReward then [⟨smartnodeReward, dmnPayee.pdmnState.scriptPayout⟩] else [])
    ++ (if 0 < operatorReward then [⟨operatorReward, dmnPayee.pdmnState.scriptOperatorPayout⟩] else [])

/-- The payee is kept beside its outputs; without a payment the source returns false. -/
def getBlockTxOuts (nBlockHeight : ℤ) (blockReward : CAmount) :
    Except PaymentFault (Option (CDeterministicMN × List CTxOut)) := do
  let smartnodeReward := getSmartnodePayment rules chain nBlockHeight blockReward
  if smartnodeReward = 0 then pure none
  else
    let pindex ← Checked.expect (chain.at? (nBlockHeight - 1)) .nullPointer
    pure (((rules.getListForBlock pindex.hash).getMNPayee (env.atTip chain)).map fun dmnPayee =>
      (dmnPayee, payeeTxOuts smartnodeReward dmnPayee))

def findTxOuts (vout : List CTxOut) : List CTxOut → Except PaymentFault Bool
  | [] => pure true
  | txout :: rest =>
    if txout ∈ vout then findTxOuts vout rest
    else do
      Checked.require (env.extractDestination txout.scriptPubKey ≠ none) .destination
      pure false

def demandedPayment (nBlockHeight : ℤ) (blockReward : CAmount) :
    Except PaymentFault (Option (CDeterministicMN × List CTxOut)) :=
  if env.dip0003Enabled then getBlockTxOuts env rules chain nBlockHeight blockReward else pure none

def isTransactionValid (txNew : CTransaction) (nBlockHeight : ℤ) (blockReward : CAmount) :
    Except PaymentFault Bool := do
  match ← demandedPayment env rules chain nBlockHeight blockReward with
  | none => pure true
  | some (_, voutSmartnodePayments) => findTxOuts env txNew.vout voutSmartnodePayments

end

variable {chain : ActiveChain} {nBlockHeight : ℤ}

section

variable {env : Env} {rules : PaymentRules} {ownerOf : Uint256 → CKeyID} {list : CDeterministicMNList}

def lastPaidKey (dmn : CDeterministicMN) : ℤ ×ₗ ℕ :=
  toLex (compareByLastPaidHeight dmn, dmn.proTxHash.toNat)

theorem compareByLastPaid_iff (a b : CDeterministicMN) :
    compareByLastPaid a b = true ↔ lastPaidKey a < lastPaidKey b := by
  rw [lastPaidKey, lastPaidKey, Prod.Lex.toLex_lt_toLex]
  by_cases hheight : compareByLastPaidHeight a = compareByLastPaidHeight b
  · simp [compareByLastPaid, hheight, BitVec.lt_def]
  · simp [compareByLastPaid, hheight]

theorem pairwise_lastPaidKey (inv : list.UniqueInvariant ownerOf) :
    list.allMNs.Pairwise fun a b => lastPaidKey a ≠ lastPaidKey b := by
  have nodup := nodup_allMNs inv
  rw [List.Nodup, List.pairwise_map] at nodup
  refine nodup.imp ?_
  intro a b hne hkey
  rw [lastPaidKey, lastPaidKey, toLex_inj, Prod.mk.injEq, BitVec.toNat_inj] at hkey
  exact hne hkey.2

theorem getMNPayee_eq (env : Env) (hcount : 10 < list.getAllMNsCount) :
    list.getMNPayee env =
      (list.allMNs.filter (isMNValid env)).foldl (Ranking.keepFirst compareByLastPaid) none := by
  rw [getMNPayee, if_neg (not_le.mpr hcount), validMNs]
  congr
  funext best dmn
  cases best <;> rfl

variable (env rules) in
def isPayable (chain : ActiveChain) (dmn : CDeterministicMN) : Bool :=
  decide (10 ≤ tipMNsCount rules chain) && isMNValid (env.atTip chain) dmn

theorem getBlockTxOuts_eq {parent : ConnectedBlock}
    (hparent : chain.at? (nBlockHeight - 1) = some parent) (blockReward : CAmount) :
    let r := (blockReward * rules.getRewardPercentage nBlockHeight).tdiv 100
    let list := rules.getListForBlock parent.hash
    getBlockTxOuts env rules chain nBlockHeight blockReward =
      .ok (if r = 0 ∨ list.getAllMNsCount ≤ 10 then none
        else ((list.allMNs.filter (isPayable env rules chain)).foldl
          (Ranking.keepFirst compareByLastPaid) none).map fun dmn => (dmn, payeeTxOuts r dmn)) := by
  intro r list
  unfold getBlockTxOuts getSmartnodePayment
  by_cases htip : 10 ≤ tipMNsCount rules chain
  · have hpayable : isPayable env rules chain = isMNValid (env.atTip chain) := by
      funext dmn
      simp [isPayable, htip]
    simp only [htip, if_true, hparent, hpayable]
    by_cases hr : r = 0
    · rw [if_pos hr, if_pos (Or.inl hr)]
      rfl
    · rw [if_neg hr]
      by_cases hcount : list.getAllMNsCount ≤ 10
      · rw [if_pos (Or.inr hcount), Checked.expect, Checked.ok_bind, getMNPayee, if_pos hcount]
        rfl
      · rw [if_neg (not_or.mpr ⟨hr, hcount⟩), Checked.expect, Checked.ok_bind,
          getMNPayee_eq _ (not_le.mp hcount)]
        rfl
  · have hpayable : isPayable env rules chain = fun _ => false := by
      funext dmn
      simp [isPayable, htip]
    rw [hpayable, List.filter_false]
    simp [htip, pure, Except.pure]

end

section

variable {env : Env}
variable {outs : List CTxOut}

theorem findTxOuts_eq_true {vout : List CTxOut} :
    findTxOuts env vout outs = .ok true ↔ ∀ txout ∈ outs, txout ∈ vout := by
  induction outs with
  | nil => simp [findTxOuts, pure, Except.pure]
  | cons txout rest ih =>
    rw [findTxOuts, List.forall_mem_cons]
    by_cases hmem : txout ∈ vout
    · rw [if_pos hmem, ih]
      exact (and_iff_right hmem).symm
    · rw [if_neg hmem]
      simp [hmem, pure, Except.pure]

theorem isTransactionValid_eq_true {rules : PaymentRules} {blockReward : CAmount}
    {payee : CDeterministicMN} (henforced : env.dip0003Enabled = true)
    (houts : getBlockTxOuts env rules chain nBlockHeight blockReward = .ok (some (payee, outs)))
    (txNew : CTransaction) :
    isTransactionValid env rules chain txNew nBlockHeight blockReward = .ok true ↔
      ∀ txout ∈ outs, txout ∈ txNew.vout := by
  rw [isTransactionValid, demandedPayment, if_pos henforced, houts, Checked.ok_bind]
  exact findTxOuts_eq_true

/-- The owner and the operator are paid the same amount to the same script. -/
structure SharesCoincide (smartnodeReward : CAmount) (dmnPayee : CDeterministicMN) : Prop where
  operator : dmnPayee.nOperatorReward ≠ 0
  payout : dmnPayee.pdmnState.scriptOperatorPayout ≠ []
  script : dmnPayee.pdmnState.scriptOperatorPayout = dmnPayee.pdmnState.scriptPayout
  reward_pos : 0 < smartnodeReward
  half : 2 * (smartnodeReward * dmnPayee.nOperatorReward).tdiv 10000 = smartnodeReward

variable {dmn : CDeterministicMN} {r : CAmount}

theorem payeeTxOuts_of_coincide (h : SharesCoincide r dmn) :
    payeeTxOuts r dmn = List.replicate 2
      ⟨(r * dmn.nOperatorReward).tdiv 10000, dmn.pdmnState.scriptPayout⟩ := by
  have hoperator : operatorReward r dmn = (r * dmn.nOperatorReward).tdiv 10000 :=
    if_pos ⟨h.operator, h.payout⟩
  have hpos := h.reward_pos
  have hhalf := h.half
  have howner : r - (r * dmn.nOperatorReward).tdiv 10000 = (r * dmn.nOperatorReward).tdiv 10000 := by
    linarith
  have hshare : 0 < (r * dmn.nOperatorReward).tdiv 10000 := by linarith
  simp only [payeeTxOuts, hoperator, howner, if_pos hshare, h.script]
  rfl

theorem nodup_payeeTxOuts (h : ¬ SharesCoincide r dmn) :
    (payeeTxOuts r dmn).Nodup := by
  simp only [payeeTxOuts]
  split
  · split
    case isTrue.isTrue howner hoperator =>
        have hpaid : dmn.nOperatorReward ≠ 0 ∧ dmn.pdmnState.scriptOperatorPayout ≠ [] := by
          by_contra hnot
          rw [operatorReward, if_neg hnot] at hoperator
          exact lt_irrefl 0 hoperator
        rw [operatorReward, if_pos hpaid] at howner hoperator ⊢
        simp only [List.cons_append, List.nil_append, List.nodup_cons, List.mem_singleton,
          CTxOut.mk.injEq, List.not_mem_nil, not_false_eq_true, List.nodup_nil, and_true]
        rintro ⟨hamount, hscript⟩
        exact h ⟨hpaid.1, hpaid.2, hscript.symm, by linarith, by linarith⟩
    case isTrue.isFalse => simp
  · split <;> simp

end

def toyPayout (h : Uint256) : CScript := [0xa9, 0x14] ++ List.replicate 20 (h.setWidth 8) ++ [0x87]

def toyPayee (h : Uint256) (id : ℕ) : CDeterministicMN :=
  { toyMN h id with
    nOperatorReward := 5000
    pdmnState := { (toyMN h id).pdmnState with
      scriptPayout := toyPayout h
      scriptOperatorPayout := toyPayout h } }

def toyCrowd : ℕ → CDeterministicMNList
  | 0 => empty 0
  | n + 1 => toyAdd (toyCrowd n) (toyPayee (BitVec.ofNat 256 (n + 1)) n)

theorem toyCrowd_inv : (toyCrowd 11).UniqueInvariant toyOwner := by
  have free : ∀ n < 11, (toyCrowd n).getMN (BitVec.ofNat 256 (n + 1)) = none ∧
      (toyPayee (BitVec.ofNat 256 (n + 1)) n).collateralOutpoint ≠ COutPoint.null ∧
      toyOwner (BitVec.ofNat 256 (n + 1)) ≠ 0 ∧
      ∀ q ∈ (toyPayee (BitVec.ofNat 256 (n + 1)) n).uniqueProperties,
        (toyCrowd n).mnUniquePropertyMap q = none := by
    decide +kernel
  have grow : ∀ n ≤ 11, (toyCrowd n).UniqueInvariant toyOwner := by
    intro n hn
    induction n with
    | zero => exact uniqueInvariant_empty toyOwner 0
    | succ n ih =>
      obtain ⟨new, hcollateral, howner, hfree⟩ := free n hn
      exact toyAdd_inv (ih (by omega)) new hcollateral howner rfl hfree
  exact grow 11 le_rfl

def toyRules : PaymentRules := ⟨[(INT_MAX, 20)], fun _ => toyCrowd 11⟩

def toyParent : ConnectedBlock :=
  ⟨1, [⟨1001, 1, .normal, [], [⟨1000, toyScript⟩], 0, .undecodable, 0⟩,
    ⟨1002, 1, .normal, [], [⟨1000, toyScript⟩], 0, .undecodable, 0⟩]⟩

def toyParentChain : ActiveChain := [toyParent, ⟨0, []⟩]

def toyLaterChain : ActiveChain :=
  ⟨3, [⟨1003, 1, .normal, [⟨⟨1001, 0⟩, [], 0⟩], [], 0, .undecodable, 0⟩]⟩ :: ⟨2, []⟩ :: toyParentChain

def toyPaying (n : ℕ) : CTransaction :=
  ⟨10, 3, .coinbase, [⟨COutPoint.null, [], 0⟩], List.replicate n ⟨500, toyPayout 1⟩, 0, .cbTx ⟨2, 2⟩, 0⟩

end ButCore.Evo
