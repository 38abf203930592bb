import ButCore.Evo.Payments
import ButCore.Validation.CheckBlock

/-!
# The products in the payment code

Shares of a block reward are products in 64 bits before they are divided.
-/
namespace ButCore.Mining

open Checked Validation Evo

/-- What a network sets for the shares of a block; smartnodes are paid nothing or 20%, the founder
5%. -/
structure PaymentNetwork where
  nMaxCash : ℤ
  rewardPercentages : List (ℤ × ℤ)
  founderScript : CScript
  founderStart : ℤ
  rates : ∀ it ∈ rewardPercentages, it.2 = 0 ∨ it.2 = 20

namespace PaymentNetwork

variable (net : PaymentNetwork)

def founder : FounderPayment := FounderPayment.fivePercent net.founderScript net.founderStart

def isMaxCash (nTipHeight : ℤ) : Bool := decide (net.nMaxCash ≤ nTipHeight)

def rules (getListForBlock : Uint256 → CDeterministicMNList) : PaymentRules :=
  ⟨net.rewardPercentages, getListForBlock⟩

def getRewardPercentage (nHeight : ℤ) : ℤ :=
  (net.rules fun _ => CDeterministicMNList.empty 0).getRewardPercentage nHeight

theorem rules_getRewardPercentage (getListForBlock : Uint256 → CDeterministicMNList) (nHeight : ℤ) :
    (net.rules getListForBlock).getRewardPercentage nHeight = net.getRewardPercentage nHeight := rfl

theorem getRewardPercentage_cases (nHeight : ℤ) :
    net.getRewardPercentage nHeight = 0 ∨ net.getRewardPercentage nHeight = 20 := by
  unfold getRewardPercentage PaymentRules.getRewardPercentage
  split
  · exact Or.inl rfl
  · rename_i it found
    exact net.rates it (List.mem_of_find?_eq_some found)

end PaymentNetwork

/-! ### The fees of a block -/

/-- One round of the loop of `ConnectBlock`, for a transaction with a fee. -/
def addFee (ismaxcash : Bool) (nFees txfee : CAmount) : Except Invalid CAmount := do
  failIf (¬ MoneyRange (nFees + txfee) ismaxcash)
    (reject 100 "bad-txns-accumulated-fee-outofrange")
  pure (nFees + txfee)

def connectFees (ismaxcash : Bool) (txfees : List CAmount) : Except Invalid CAmount :=
  txfees.foldlM (addFee ismaxcash) 0

theorem moneyRange_connectFees {ismaxcash : Bool} {txfees : List CAmount} {nFees : CAmount}
    (admitted : connectFees ismaxcash txfees = .ok nFees) : MoneyRange nFees ismaxcash = true := by
  refine foldlM_inv (addFee ismaxcash) (fun _ nFees => MoneyRange nFees ismaxcash = true) ?_ ?_ admitted
  · cases ismaxcash <;> decide
  · intro _ txfee _ nFees nFees' _ _ h
    simp only [addFee, bind_eq_ok, failIf_eq_ok, pure_eq_ok, exists_const, not_not] at h
    exact h.2 ▸ h.1

/-! ### Products -/

def smartnodeProduct (rules : PaymentRules) (chain : ActiveChain) (nHeight : ℤ) (blockValue : CAmount) :
    Option ℤ :=
  if 10 ≤ tipMNsCount rules chain then some (blockValue * rules.getRewardPercentage nHeight) else none

def operatorProduct (smartnodeReward : CAmount) (dmnPayee : CDeterministicMN) : Option ℤ :=
  if dmnPayee.nOperatorReward ≠ 0 ∧ dmnPayee.pdmnState.scriptOperatorPayout ≠ [] then
    some (smartnodeReward * dmnPayee.nOperatorReward)
  else none

def founderProduct (founder : FounderPayment) (blockHeight : ℤ) (blockReward : CAmount) : Option ℤ :=
  if blockHeight ≤ founder.startBlock then none
  else
    (founder.rewardStructures.find? fun r =>
      decide (r.blockHeight = Validation.INT_MAX) || decide (blockHeight ≤ r.blockHeight)).map
      fun r => blockReward * r.rewardPercentage

theorem getFounderPaymentAmount_eq (founder : FounderPayment) (blockHeight : ℤ) (blockReward : CAmount) :
    founder.getFounderPaymentAmount blockHeight blockReward =
      ((founderProduct founder blockHeight blockReward).getD 0).tdiv 100 := by
  unfold FounderPayment.getFounderPaymentAmount founderProduct
  split
  · rfl
  · split
    · simp [*]
    · simp [*]

def blockProducts (rules : PaymentRules) (founder : FounderPayment) (chain : ActiveChain)
    (dmnPayee : CDeterministicMN) (nBlockHeight : ℤ) (blockReward : CAmount) : List ℤ :=
  [smartnodeProduct rules chain nBlockHeight blockReward,
    operatorProduct (getSmartnodePayment rules chain nBlockHeight blockReward) dmnPayee,
    founderProduct founder nBlockHeight blockReward].reduceOption

/-- Whatever the smartnodes are, no product of the block leaves the 64 bits. -/
def ProductsFit (net : PaymentNetwork) (nBlockHeight : ℤ) (blockReward : CAmount) : Prop :=
  ∀ (getListForBlock : Uint256 → CDeterministicMNList) (chain : ActiveChain)
    (dmnPayee : CDeterministicMN), dmnPayee.nOperatorReward ≤ 10000 →
    ∀ product ∈ blockProducts (net.rules getListForBlock) net.founder chain dmnPayee nBlockHeight
      blockReward, product < 2 ^ 63

section

variable {net : PaymentNetwork} {nBlockHeight : ℤ} {blockReward : CAmount}

theorem founderProduct_founder :
    founderProduct net.founder nBlockHeight blockReward =
      if nBlockHeight ≤ net.founderStart then none else some (blockReward * 5) := by
  unfold founderProduct
  rfl

theorem smartnodeProduct_lt {rules : PaymentRules} {chain : ActiveChain} {product : ℤ}
    (computed : smartnodeProduct rules chain nBlockHeight blockReward = some product)
    (small : blockReward * rules.getRewardPercentage nBlockHeight < 2 ^ 63) : product < 2 ^ 63 := by
  unfold smartnodeProduct at computed
  split at computed
  · cases computed
    exact small
  · cases computed

theorem operatorProduct_lt {smartnodeReward : CAmount} {dmnPayee : CDeterministicMN} {product : ℤ}
    (computed : operatorProduct smartnodeReward dmnPayee = some product)
    (share : dmnPayee.nOperatorReward ≤ 10000) (nonneg : 0 ≤ smartnodeReward)
    (small : smartnodeReward * 10000 < 2 ^ 63) : product < 2 ^ 63 := by
  unfold operatorProduct at computed
  split at computed
  · cases computed
    have : (dmnPayee.nOperatorReward : ℤ) ≤ 10000 := by exact_mod_cast share
    exact lt_of_le_of_lt (mul_le_mul_of_nonneg_left this nonneg) small
  · cases computed

theorem fifth_fits {reward : ℤ} (nonneg : 0 ≤ reward) :
    (reward * 20).tdiv 100 * 10000 < 2 ^ 63 ↔ reward ≤ 4611686018427389 := by
  rw [Int.tdiv_eq_ediv_of_nonneg (by omega)]
  omega

theorem founder_fits {reward : ℤ} : reward * 5 < 2 ^ 63 ↔ reward ≤ 1844674407370955161 := by
  omega

theorem getSmartnodePayment_cases (net : PaymentNetwork)
    (getListForBlock : Uint256 → CDeterministicMNList) (chain : ActiveChain) :
    getSmartnodePayment (net.rules getListForBlock) chain nBlockHeight blockReward = 0 ∨
      net.getRewardPercentage nBlockHeight = 20 ∧
        getSmartnodePayment (net.rules getListForBlock) chain nBlockHeight blockReward =
          (blockReward * 20).tdiv 100 := by
  unfold getSmartnodePayment
  rw [net.rules_getRewardPercentage]
  split
  · rcases net.getRewardPercentage_cases nBlockHeight with rate | rate <;> rw [rate]
    · exact Or.inl (by simp)
    · exact Or.inr ⟨rfl, rfl⟩
  · exact Or.inl rfl

theorem productsFit_of_le (nonneg : 0 ≤ blockReward)
    (smartnodes : net.getRewardPercentage nBlockHeight = 20 → blockReward ≤ 4611686018427389)
    (founder : net.founderStart < nBlockHeight → blockReward ≤ 1844674407370955161) :
    ProductsFit net nBlockHeight blockReward := by
  intro getListForBlock chain dmnPayee share product hproduct
  simp only [blockProducts, List.reduceOption_mem_iff, List.mem_cons, List.not_mem_nil, or_false] at hproduct
  obtain computed | computed | computed := hproduct
  · refine smartnodeProduct_lt computed.symm ?_
    rw [net.rules_getRewardPercentage]
    rcases net.getRewardPercentage_cases nBlockHeight with rate | rate
    · rw [rate, mul_zero]
      decide
    · have := smartnodes rate
      rw [rate]
      linarith
  · rcases getSmartnodePayment_cases net getListForBlock chain with unpaid | ⟨rate, paid⟩
    · exact operatorProduct_lt computed.symm share unpaid.ge (by rw [unpaid]; decide)
    · refine operatorProduct_lt computed.symm share ?_ ?_
      · rw [paid]
        exact Int.tdiv_nonneg (by linarith) (by decide)
      · rw [paid]
        exact (fifth_fits nonneg).mpr (smartnodes rate)
  · rw [founderProduct_founder] at computed
    split at computed
    · cases computed
    · rename_i started
      cases computed
      exact founder_fits.mpr (founder (not_le.mp started))

def operatorPayee : CDeterministicMN :=
  { toyPayee 1 0 with nOperatorReward := 10000 }

theorem le_of_productsFit (nonneg : 0 ≤ blockReward) (fit : ProductsFit net nBlockHeight blockReward) :
    (net.getRewardPercentage nBlockHeight = 20 → blockReward ≤ 4611686018427389) ∧
      (net.founderStart < nBlockHeight → blockReward ≤ 1844674407370955161) := by
  have fits := fit (fun _ => toyCrowd 11) toyParentChain operatorPayee le_rfl
  simp only [blockProducts, List.reduceOption_mem_iff, List.mem_cons, List.not_mem_nil, or_false] at fits
  constructor
  · intro rate
    have enough : 10 ≤ tipMNsCount (net.rules fun _ => toyCrowd 11) toyParentChain := by
      change 10 ≤ (toyCrowd 11).getAllMNsCount
      decide +kernel
    refine (fifth_fits nonneg).mp (fits _ (Or.inr (Or.inl ?_)))
    unfold operatorProduct getSmartnodePayment
    rw [if_pos enough, net.rules_getRewardPercentage, rate, if_pos (by decide)]
    rfl
  · intro started
    refine founder_fits.mp (fits _ (Or.inr (Or.inr ?_)))
    rw [founderProduct_founder, if_neg (not_le.mpr started)]

end

/-- With the fees that the range check lets through, the products fit exactly when fees and subsidy
stay below the limits of the shares that are due. -/
theorem productsFit_iff (net : PaymentNetwork) (nPrevHeight : ℤ) (txfees : List CAmount)
    (nFees : CAmount) (admitted : connectFees (net.isMaxCash nPrevHeight) txfees = .ok nFees) :
    ProductsFit net (nPrevHeight + 1) (nFees + getBlockSubsidy nPrevHeight) ↔
      (net.getRewardPercentage (nPrevHeight + 1) = 20 →
        nFees + getBlockSubsidy nPrevHeight ≤ 4611686018427389) ∧
      (net.founderStart < nPrevHeight + 1 →
        nFees + getBlockSubsidy nPrevHeight ≤ 1844674407370955161) := by
  have fees := ((moneyRange_iff _ _).mp (moneyRange_connectFees admitted)).1
  have subsidy : 0 ≤ getBlockSubsidy nPrevHeight := le_trans (by decide) (getBlockSubsidy_ge _)
  have nonneg := add_nonneg fees subsidy
  exact ⟨le_of_productsFit nonneg, fun h => productsFit_of_le nonneg h.1 h.2⟩

def mainNetwork : PaymentNetwork where
  nMaxCash := 400000
  rewardPercentages := [(5761, 0), (Evo.INT_MAX, 20)]
  founderScript := [0x51]
  founderStart := 250
  rates := by decide

theorem productsFit_small_fees :
    connectFees (mainNetwork.isMaxCash 400000) [1000, 2500] = .ok 3500 ∧
      ProductsFit mainNetwork 400001 (3500 + getBlockSubsidy 400000) := by
  have admitted : connectFees (mainNetwork.isMaxCash 400000) [1000, 2500] = .ok 3500 := by decide
  exact ⟨admitted, (productsFit_iff mainNetwork 400000 [1000, 2500] 3500 admitted).mpr (by decide)⟩

/-- A fee of a hundred million coins is in the money range. -/
theorem operatorProduct_overflows :
    connectFees (mainNetwork.isMaxCash 400000) [10000000000000000] = .ok 10000000000000000 ∧
      operatorPayee.nOperatorReward ≤ 10000 ∧
      20001000000000000000 ∈ blockProducts (mainNetwork.rules fun _ => toyCrowd 11)
        mainNetwork.founder toyParentChain operatorPayee 400001
        (10000000000000000 + getBlockSubsidy 400000) ∧
      2 ^ 63 ≤ (20001000000000000000 : ℤ) := by
  refine ⟨?_, ?_, ?_, ?_⟩ <;> decide +kernel

end ButCore.Mining
