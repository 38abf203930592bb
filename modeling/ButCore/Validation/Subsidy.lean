import ButCore.Primitives

/-!
# Block subsidy and founder payment

`GetBlockSubsidy` reads nothing but the height of the previous block. Its amounts are exact in a
double; the last one, 0.001 coins, rounds to 100000 base units.
-/
namespace ButCore.Validation

def owlings : ℤ := 21262

def getBlockSubsidy (nPrevHeight : ℤ) : CAmount :=
  if nPrevHeight < 329 then 5000000 * COIN
  else if nPrevHeight < 721 then 4 * COIN
  else if 553531 < nPrevHeight ∧ nPrevHeight < 2105657 then
    (5000 - ((nPrevHeight - 553532) / owlings * 10 + 10)) * COIN
  else if 2105657 < nPrevHeight ∧ nPrevHeight < 5273695 then
    (5000 - ((nPrevHeight - 2105658) / owlings * 20 + 750)) * COIN
  else if 5273695 < nPrevHeight ∧ nPrevHeight < 7378633 then
    (5000 - ((nPrevHeight - 5273696) / owlings * 10 + 3720)) * COIN
  else if 7378633 < nPrevHeight ∧ nPrevHeight < 8399209 then
    (5000 - ((nPrevHeight - 7378634) / owlings * 5 + 4705)) * COIN
  else if 8399209 < nPrevHeight ∧ nPrevHeight < 14735285 then 55 * COIN
  else if 14735285 < nPrevHeight ∧ nPrevHeight < 15798385 then
    (5000 - ((nPrevHeight - 14735286) / owlings + 4946)) * COIN
  else if 15798385 < nPrevHeight ∧ nPrevHeight < 25844304 then 5 * COIN
  else if 125844304 < nPrevHeight then 100000
  -- the heights that no branch covers keep the initial amount
  else 5000 * COIN

theorem getBlockSubsidy_bounds (nPrevHeight : ℤ) :
    (100000 : ℤ) ≤ getBlockSubsidy nPrevHeight ∧ getBlockSubsidy nPrevHeight ≤ 5000000 * COIN := by
  unfold getBlockSubsidy
  repeat'
    refine iteInduction (motive := fun s : ℤ => 100000 ≤ s ∧ s ≤ 5000000 * COIN) ?_ ?_
    all_goals intro
  all_goals
    simp only [COIN, owlings]
    omega

theorem getBlockSubsidy_ge (nPrevHeight : ℤ) : (100000 : ℤ) ≤ getBlockSubsidy nPrevHeight :=
  (getBlockSubsidy_bounds nPrevHeight).1

theorem getBlockSubsidy_le_launch (nPrevHeight : ℤ) :
    getBlockSubsidy nPrevHeight ≤ 5000000 * COIN := (getBlockSubsidy_bounds nPrevHeight).2

structure FounderRewardStructure where
  blockHeight : ℤ
  rewardPercentage : ℤ

def INT_MAX : ℤ := 2147483647

/-- `founderScript` is the script of the founder address. -/
structure FounderPayment where
  founderScript : CScript
  startBlock : ℤ
  rewardStructures : List FounderRewardStructure

namespace FounderPayment

variable (founder : FounderPayment)

def getFounderPaymentAmount (blockHeight : ℤ) (blockReward : CAmount) : CAmount :=
  if blockHeight ≤ founder.startBlock then 0
  else
    match founder.rewardStructures.find? fun r =>
      decide (r.blockHeight = INT_MAX) || decide (blockHeight ≤ r.blockHeight) with
    | some r => (blockReward * r.rewardPercentage).tdiv 100
    | none => 0

def isBlockPayeeValid (txNew : CTransaction) (height : ℤ) (blockReward : CAmount) : Bool :=
  let founderReward := founder.getFounderPaymentAmount height blockReward
  txNew.vout.any fun out =>
    decide (out.scriptPubKey = founder.founderScript) && decide (founderReward ≤ out.nValue)

theorem isBlockPayeeValid_iff {txNew : CTransaction} {height : ℤ} {blockReward : CAmount} :
    founder.isBlockPayeeValid txNew height blockReward = true ↔
      ∃ out ∈ txNew.vout, out.scriptPubKey = founder.founderScript ∧
        founder.getFounderPaymentAmount height blockReward ≤ out.nValue := by
  simp [isBlockPayeeValid, List.any_eq_true]

def fivePercent (founderScript : CScript) (startBlock : ℤ) : FounderPayment :=
  ⟨founderScript, startBlock, [⟨INT_MAX, 5⟩]⟩

/-- The amount of a block is a share of the subsidy at the height before it. -/
def due (nPrevHeight : ℤ) : CAmount :=
  founder.getFounderPaymentAmount nPrevHeight (getBlockSubsidy nPrevHeight)

theorem fivePercent_due_pos {script : CScript} {start nPrevHeight : ℤ} (h : start < nPrevHeight) :
    (0 : ℤ) < (fivePercent script start).due nPrevHeight := by
  have reward : (100000 : ℤ) ≤ getBlockSubsidy nPrevHeight := getBlockSubsidy_ge nPrevHeight
  have share : (fivePercent script start).due nPrevHeight =
      (getBlockSubsidy nPrevHeight * 5).tdiv 100 := by
    have late : ¬ nPrevHeight ≤ (fivePercent script start).startBlock := not_le.mpr h
    unfold due getFounderPaymentAmount
    rw [if_neg late]
    rfl
  rw [share, Int.tdiv_eq_ediv_of_nonneg (by omega)]
  omega

end FounderPayment

end ButCore.Validation
