import ButCore.Governance.Superblock

/-!
# The value of a coinbase

Which trigger a superblock follows, and how much a coinbase may pay.
-/
namespace ButCore.Governance

open Checked Validation

/-! ### Triggers -/

structure Trigger where
  superblock : CSuperblock
  absoluteYesCount : ℤ
  fCachedFunding : Bool

/-- What a node knows when it looks at a block; `nMnCount` counts the valid smartnodes at the tip. -/
structure GovernanceState where
  isSynced : Bool
  fLiteMode : Bool
  superblocksEnabled : Bool
  nMnCount : ℕ
  triggers : List Trigger

section

variable (params : BudgetParams) (s : GovernanceState)

/-- Without valid smartnodes the flag stays as it was. -/
def Trigger.updateSentinelVariables (nMnCount : ℕ) (trigger : Trigger) : Trigger :=
  if nMnCount = 0 then trigger
  else
    let nAbsVoteReq := max params.nGovernanceMinQuorum (nMnCount / 10 : ℕ)
    { trigger with fCachedFunding := decide (nAbsVoteReq ≤ trigger.absoluteYesCount) }

def isSuperblockTriggered (nBlockHeight : ℤ) : Bool :=
  isValidBlockHeight params nBlockHeight && s.triggers.any fun trigger =>
    decide (nBlockHeight = trigger.superblock.nBlockHeight) &&
      (trigger.updateSentinelVariables params s.nMnCount).fCachedFunding

def betterTrigger (nBlockHeight : ℤ) (best : ℤ × Option CSuperblock) (trigger : Trigger) :
    ℤ × Option CSuperblock :=
  if nBlockHeight = trigger.superblock.nBlockHeight ∧ best.1 < trigger.absoluteYesCount then
    (trigger.absoluteYesCount, some trigger.superblock)
  else best

def getBestSuperblock (nBlockHeight : ℤ) : Option CSuperblock :=
  if isValidBlockHeight params nBlockHeight then
    let best := s.triggers.foldl (betterTrigger nBlockHeight) (0, none)
    if 0 < best.1 then best.2 else none
  else none

def getSuperblockPayments (nBlockHeight : ℤ) : List CTxOut :=
  match getBestSuperblock params s nBlockHeight with
  | none => []
  | some sb => sb.vecPayments.map CGovernancePayment.txOut

def isValidSuperblock (txNew : CTransaction) (nBlockHeight : ℤ) (blockReward : CAmount) :
    Except String Bool :=
  match getBestSuperblock params s nBlockHeight with
  | none => pure false
  | some sb => sb.isValid params txNew nBlockHeight blockReward

variable {params s}

theorem isValidSuperblock_eq_ok_true {txNew : CTransaction} {nBlockHeight : ℤ}
    {blockReward : CAmount} :
    isValidSuperblock params s txNew nBlockHeight blockReward = .ok true ↔
      ∃ sb, getBestSuperblock params s nBlockHeight = some sb ∧
        sb.isValid params txNew nBlockHeight blockReward = .ok true := by
  unfold isValidSuperblock
  cases getBestSuperblock params s nBlockHeight with
  | none => simp
  | some sb => simp

end

/-! ### The rule for the value -/

inductive ValueFault where
  | thrown (what : String)
  | invalid (strErrorRet : String)

def paysTooMuch (nBlockHeight : ℤ) (actual limit : CAmount) (exceeded : String) : String :=
  "coinbase pays too much at height " ++ toString nBlockHeight ++ " (actual=" ++ toString actual ++
    " vs limit=" ++ toString limit ++ "), exceeded " ++ exceeded

def checkLimit (nBlockHeight : ℤ) (actual limit : CAmount) (exceeded : String) :
    Except ValueFault Unit :=
  require (actual ≤ limit) (.invalid (paysTooMuch nBlockHeight actual limit exceeded))

section

variable (params : BudgetParams) (s : GovernanceState)

def isOldBudgetBlockValueValid (coinbase : CTransaction) (nBlockHeight : ℤ) (blockReward : CAmount) :
    Except ValueFault Unit := do
  let nValueOut ← (getValueOut coinbase.vout).mapError .thrown
  failIf (nBlockHeight < params.nBudgetPaymentsStartBlock)
    (.invalid ("Incorrect block " ++ toString nBlockHeight ++ ", old budgets are not activated yet"))
  failIf (params.nSuperblockStartBlock ≤ nBlockHeight)
    (.invalid ("Incorrect block " ++ toString nBlockHeight ++ ", old budgets are no longer active"))
  let nOffset := nBlockHeight.tmod params.nBudgetPaymentsCycleBlocks
  if params.nBudgetPaymentsStartBlock ≤ nBlockHeight ∧ nOffset < params.nBudgetPaymentsWindowBlocks then
    if s.isSynced then
      checkLimit nBlockHeight nValueOut blockReward "block reward, old budgets are disabled"
    else pure ()
  else
    checkLimit nBlockHeight nValueOut blockReward
      "block reward, block is not in old budget cycle window"

def isSuperblockValueValid (coinbase : CTransaction) (nBlockHeight : ℤ) (blockReward : CAmount)
    (nValueOut : CAmount) : Except ValueFault Unit := do
  checkLimit nBlockHeight nValueOut (blockReward + getPaymentsLimit params nBlockHeight)
    "superblock max value"
  if s.isSynced = false ∨ s.fLiteMode = true then pure ()
  else if s.superblocksEnabled = false then
    checkLimit nBlockHeight nValueOut blockReward "block reward, superblocks are disabled"
  else if isSuperblockTriggered params s nBlockHeight = false then
    checkLimit nBlockHeight nValueOut blockReward "block reward, no triggered superblock detected"
  else do
    let valid ← (isValidSuperblock params s coinbase nBlockHeight blockReward).mapError .thrown
    require (valid = true)
      (.invalid ("invalid superblock detected at height " ++ toString nBlockHeight))

def isBlockValueValid (coinbase : CTransaction) (nBlockHeight : ℤ) (blockReward : CAmount) :
    Except ValueFault Unit := do
  let nValueOut ← (getValueOut coinbase.vout).mapError .thrown
  if nBlockHeight < params.nBudgetPaymentsStartBlock then
    checkLimit nBlockHeight nValueOut blockReward "block reward, old budgets are not activated yet"
  else if nBlockHeight < params.nSuperblockStartBlock then
    isOldBudgetBlockValueValid params s coinbase nBlockHeight blockReward
  else if isValidBlockHeight params nBlockHeight = false then
    checkLimit nBlockHeight nValueOut blockReward
      "block reward, only regular blocks are allowed at this height"
  else isSuperblockValueValid params s coinbase nBlockHeight blockReward nValueOut

end

section

variable {params : BudgetParams} {s : GovernanceState} {coinbase : CTransaction} {nBlockHeight : ℤ}
  {blockReward : CAmount}

@[simp] theorem checkLimit_eq_ok {actual limit : CAmount} {exceeded : String} {u : Unit} :
    checkLimit nBlockHeight actual limit exceeded = .ok u ↔ actual ≤ limit := require_eq_ok

def Summable (vout : List CTxOut) : Prop := (∀ out ∈ vout, 0 ≤ out.nValue) ∧ valueOut vout ≤ MAX_MONEY

theorem exists_getValueOut {vout : List CTxOut} {P : CAmount → Prop} :
    (∃ nValueOut, getValueOut vout = .ok nValueOut ∧ P nValueOut) ↔
      Summable vout ∧ P (valueOut vout) := by
  constructor
  · rintro ⟨_, value, h⟩
    obtain ⟨nonneg, within, rfl⟩ := getValueOut_eq_ok.mp value
    exact ⟨⟨nonneg, within⟩, h⟩
  · rintro ⟨⟨nonneg, within⟩, h⟩
    exact ⟨_, getValueOut_eq_ok.mpr ⟨nonneg, within, rfl⟩, h⟩

theorem isOldBudgetBlockValueValid_eq_ok (synced : s.isSynced = true)
    (started : params.nBudgetPaymentsStartBlock ≤ nBlockHeight)
    (active : nBlockHeight < params.nSuperblockStartBlock) :
    isOldBudgetBlockValueValid params s coinbase nBlockHeight blockReward = .ok () ↔
      Summable coinbase.vout ∧ valueOut coinbase.vout ≤ blockReward := by
  simp only [isOldBudgetBlockValueValid, bind_eq_ok, mapError_eq_ok, failIf_eq_ok, not_lt.mpr started,
    not_le.mpr active, not_false_eq_true, exists_const, true_and, synced, if_true, exists_getValueOut]
  split_ifs <;> rw [checkLimit_eq_ok]

theorem isOldBudgetBlockValueValid_of_le (started : params.nBudgetPaymentsStartBlock ≤ nBlockHeight)
    (active : nBlockHeight < params.nSuperblockStartBlock) (summable : Summable coinbase.vout)
    (value : valueOut coinbase.vout ≤ blockReward) :
    isOldBudgetBlockValueValid params s coinbase nBlockHeight blockReward = .ok () := by
  cases synced : s.isSynced with
  | true => exact (isOldBudgetBlockValueValid_eq_ok synced started active).mpr ⟨summable, value⟩
  | false =>
    simp only [isOldBudgetBlockValueValid, bind_eq_ok, mapError_eq_ok, failIf_eq_ok,
      not_lt.mpr started, not_le.mpr active, not_false_eq_true, exists_const, true_and, synced,
      Bool.false_eq_true, if_false, exists_getValueOut]
    refine ⟨summable, ?_⟩
    split_ifs
    · rfl
    · exact checkLimit_eq_ok.mpr value

theorem isBlockValueValid_regular (synced : s.isSynced = true)
    (regular : isValidBlockHeight params nBlockHeight = false) :
    isBlockValueValid params s coinbase nBlockHeight blockReward = .ok () ↔
      Summable coinbase.vout ∧ valueOut coinbase.vout ≤ blockReward := by
  simp only [isBlockValueValid, bind_eq_ok, mapError_eq_ok, exists_getValueOut]
  refine and_congr_right fun summable => ?_
  split_ifs with early old
  · exact checkLimit_eq_ok
  · rw [isOldBudgetBlockValueValid_eq_ok synced (not_lt.mp early) old, and_iff_right summable]
  · exact checkLimit_eq_ok

theorem isBlockValueValid_of_le (regular : isValidBlockHeight params nBlockHeight = false)
    (summable : Summable coinbase.vout) (value : valueOut coinbase.vout ≤ blockReward) :
    isBlockValueValid params s coinbase nBlockHeight blockReward = .ok () := by
  simp only [isBlockValueValid, bind_eq_ok, mapError_eq_ok, exists_getValueOut]
  refine ⟨summable, ?_⟩
  split_ifs with early old
  · exact checkLimit_eq_ok.mpr value
  · exact isOldBudgetBlockValueValid_of_le (not_lt.mp early) old summable value
  · exact checkLimit_eq_ok.mpr value

theorem isSuperblockValueValid_eq_ok {nValueOut : CAmount} :
    isSuperblockValueValid params s coinbase nBlockHeight blockReward nValueOut = .ok () ↔
      nValueOut ≤ blockReward + getPaymentsLimit params nBlockHeight ∧
      ((s.isSynced = false ∨ s.fLiteMode = true) ∨
        if s.superblocksEnabled = true ∧ isSuperblockTriggered params s nBlockHeight = true then
          isValidSuperblock params s coinbase nBlockHeight blockReward = .ok true
        else nValueOut ≤ blockReward) := by
  simp only [isSuperblockValueValid, bind_eq_ok, checkLimit_eq_ok, exists_const]
  refine and_congr_right fun _ => ?_
  by_cases little : s.isSynced = false ∨ s.fLiteMode = true
  · simp only [little, true_or, iff_true]
    rfl
  · rw [if_neg little, or_iff_right little]
    cases s.superblocksEnabled with
    | false => simp
    | true => cases isSuperblockTriggered params s nBlockHeight <;> simp

theorem start_le_of_isValidBlockHeight (height : isValidBlockHeight params nBlockHeight = true) :
    params.nSuperblockStartBlock ≤ nBlockHeight := by
  simp only [isValidBlockHeight, Bool.and_eq_true, decide_eq_true_eq] at height
  exact height.1

theorem isBlockValueValid_superblock (height : isValidBlockHeight params nBlockHeight = true) :
    isBlockValueValid params s coinbase nBlockHeight blockReward = .ok () ↔
      Summable coinbase.vout ∧
      valueOut coinbase.vout ≤ blockReward + getPaymentsLimit params nBlockHeight ∧
      ((s.isSynced = false ∨ s.fLiteMode = true) ∨
        if s.superblocksEnabled = true ∧ isSuperblockTriggered params s nBlockHeight = true then
          isValidSuperblock params s coinbase nBlockHeight blockReward = .ok true
        else valueOut coinbase.vout ≤ blockReward) := by
  have started := start_le_of_isValidBlockHeight height
  rw [isBlockValueValid]
  simp only [bind_eq_ok, mapError_eq_ok, exists_getValueOut,
    if_neg (not_lt.mpr (params.budgetFirst.trans started)), if_neg (not_lt.mpr started), height,
    Bool.true_eq_false, if_false, isSuperblockValueValid_eq_ok]

end

/-! ### The value of a whole cycle -/

structure CoinbaseChain where
  coinbase : ℤ → CTransaction
  nFees : ℤ → CAmount
  feesInRange : ∀ h, MoneyRange (nFees h) true = true

section

variable (params : BudgetParams) (states : ℤ → GovernanceState)

/-- The blocks from one height to another have been let through, each in the state of its height. -/
def CoinbaseChain.Accepted (chain : CoinbaseChain) (first last : ℤ) : Prop :=
  ∀ h, first ≤ h → h ≤ last → isBlockValueValid params (states h) (chain.coinbase h) h
    (chain.nFees h + getBlockSubsidy (h - 1)) = .ok ()

def cycleSum (nBlockHeight : ℤ) (amount : ℤ → CAmount) : CAmount :=
  ∑ back ∈ Finset.range params.nSuperblockCycle.toNat, amount (nBlockHeight - back)

def CoinbaseChain.created (chain : CoinbaseChain) (nBlockHeight : ℤ) : CAmount :=
  valueOut (chain.coinbase nBlockHeight).vout - chain.nFees nBlockHeight

/-- The superblock at a height may pay more than its own reward. -/
def MayAddCoins (s : GovernanceState) (nBlockHeight : ℤ) : Prop :=
  s.fLiteMode = true ∨
    s.superblocksEnabled = true ∧ isSuperblockTriggered params s nBlockHeight = true ∧
      ∃ sb, getBestSuperblock params s nBlockHeight = some sb ∧
        0 < sb.getPaymentsTotalAmount ∧
        sb.getPaymentsTotalAmount ≤ getPaymentsLimit params nBlockHeight ∧
        sb.mergedAmount ≤ MAX_MONEY

variable {params states} {s : GovernanceState} {chain : CoinbaseChain} {nBlockHeight : ℤ}

theorem dvd_of_isValidBlockHeight (height : isValidBlockHeight params nBlockHeight = true) :
    params.nSuperblockCycle ∣ nBlockHeight := by
  simp only [isValidBlockHeight, Bool.and_eq_true, decide_eq_true_eq] at height
  exact Int.dvd_of_tmod_eq_zero height.2

theorem isValidBlockHeight_in_cycle (height : isValidBlockHeight params nBlockHeight = true) {back : ℕ}
    (positive : 0 < back) (inside : back < params.nSuperblockCycle.toNat) :
    isValidBlockHeight params (nBlockHeight - back) = false := by
  rw [Bool.eq_false_iff]
  intro other
  have hdvd := dvd_sub (dvd_of_isValidBlockHeight height) (dvd_of_isValidBlockHeight other)
  rw [sub_sub_cancel] at hdvd
  have := Int.le_of_dvd (by exact_mod_cast positive) hdvd
  omega

theorem created_le_of_regular (synced : s.isSynced = true)
    (regular : isValidBlockHeight params nBlockHeight = false)
    (accepted : isBlockValueValid params s (chain.coinbase nBlockHeight) nBlockHeight
      (chain.nFees nBlockHeight + getBlockSubsidy (nBlockHeight - 1)) = .ok ()) :
    chain.created nBlockHeight ≤ getBlockSubsidy (nBlockHeight - 1) :=
  sub_le_iff_le_add'.mpr ((isBlockValueValid_regular synced regular).mp accepted).2

theorem created_le_of_superblock (synced : s.isSynced = true)
    (height : isValidBlockHeight params nBlockHeight = true)
    (no_coins : ¬ MayAddCoins params s nBlockHeight)
    (accepted : isBlockValueValid params s (chain.coinbase nBlockHeight) nBlockHeight
      (chain.nFees nBlockHeight + getBlockSubsidy (nBlockHeight - 1)) = .ok ()) :
    chain.created nBlockHeight ≤ getBlockSubsidy (nBlockHeight - 1) := by
  obtain ⟨full, disabled⟩ := not_or.mp no_coins
  obtain ⟨-, -, (unsynced | lite) | limit⟩ := (isBlockValueValid_superblock height).mp accepted
  · rw [synced] at unsynced
    cases unsynced
  · exact absurd lite full
  refine sub_le_iff_le_add'.mpr ?_
  split_ifs at limit with triggered
  · obtain ⟨sb, best, valid⟩ := isValidSuperblock_eq_ok_true.mp limit
    obtain ⟨-, -, within, nonneg, sum, value, found⟩ := CSuperblock.isValid_eq_ok_true.mp valid
    have unpaid : sb.getPaymentsTotalAmount ≤ 0 := by
      by_contra! positive
      exact disabled ⟨triggered.1, triggered.2, sb, best, positive, within,
        (CSuperblock.mergedAmount_le nonneg found).trans sum⟩
    exact value.trans (add_le_of_nonpos_right unpaid)
  · exact limit

def payingChain (last : ℤ) (coinbase : CTransaction) : CoinbaseChain where
  coinbase h := if h = last then coinbase else coinbaseWith [⟨getBlockSubsidy (h - 1), []⟩]
  nFees _ := 0
  feesInRange _ := by decide

theorem subsidy_nonneg (nPrevHeight : ℤ) : 0 ≤ getBlockSubsidy nPrevHeight :=
  le_trans (by decide) (getBlockSubsidy_ge nPrevHeight)

theorem subsidy_le_maxMoney (nPrevHeight : ℤ) : getBlockSubsidy nPrevHeight + 1 ≤ MAX_MONEY := by
  have bounded := getBlockSubsidy_le_launch nPrevHeight
  exact (add_le_add_left bounded 1).trans (by decide)

theorem accepted_payingChain {first last : ℤ} {coinbase : CTransaction}
    (synced : ∀ h, (states h).isSynced = true)
    (regular : ∀ h, first ≤ h → h < last → isValidBlockHeight params h = false)
    (accepted : isBlockValueValid params (states last) coinbase last (getBlockSubsidy (last - 1)) =
      .ok ()) :
    (payingChain last coinbase).Accepted params states first last := by
  intro h after before
  rcases before.eq_or_lt with rfl | before
  · simpa only [payingChain, if_true, zero_add] using accepted
  · simp only [payingChain, if_neg before.ne, zero_add]
    rw [isBlockValueValid_regular (synced h) (regular h after before)]
    have bounded := subsidy_le_maxMoney (h - 1)
    simp only [Summable, coinbaseWith, valueOut, List.mem_singleton, forall_eq, List.map_cons,
      List.map_nil, List.sum_singleton, le_refl, and_true]
    exact ⟨subsidy_nonneg (h - 1), (le_add_of_nonneg_right zero_le_one).trans bounded⟩

theorem lt_cycleSum_created {last : ℤ} {coinbase : CTransaction}
    (extra : getBlockSubsidy (last - 1) < valueOut coinbase.vout) :
    cycleSum params last (fun h => getBlockSubsidy (h - 1)) <
      cycleSum params last (payingChain last coinbase).created := by
  have nonempty : 0 < params.nSuperblockCycle.toNat := by
    have := params.cyclePositive
    omega
  refine Finset.sum_lt_sum ?_ ⟨0, Finset.mem_range.mpr nonempty, ?_⟩
  · intro back _
    by_cases hback : back = 0
    · subst hback
      simpa [CoinbaseChain.created, payingChain] using extra.le
    · simp [CoinbaseChain.created, payingChain, hback, coinbaseWith, valueOut]
  · simpa [CoinbaseChain.created, payingChain] using extra

theorem one_le_getPaymentsLimit (height : isValidBlockHeight params nBlockHeight = true) :
    1 ≤ getPaymentsLimit params nBlockHeight := by
  have positive : (1 : CAmount) ≤ getBlockSubsidy (nBlockHeight - 1) :=
    le_trans (by decide) (getBlockSubsidy_ge _)
  rw [getPaymentsLimit, if_pos height]
  exact one_le_mul_of_one_le_of_one_le positive params.cyclePositive

/-- A superblock with payments accepts a coinbase above the block reward: the miner takes what the
payments leave below the reward, and one unit more. -/
theorem exists_isValid_above {sb : CSuperblock} {blockReward : CAmount}
    (height : isValidBlockHeight params nBlockHeight = true)
    (positive : 0 < sb.getPaymentsTotalAmount)
    (limit : sb.getPaymentsTotalAmount ≤ getPaymentsLimit params nBlockHeight)
    (within : sb.mergedAmount ≤ MAX_MONEY) (nonneg : 0 ≤ blockReward)
    (bounded : blockReward + 1 ≤ MAX_MONEY) :
    ∃ coinbase, sb.isValid params coinbase nBlockHeight blockReward = .ok true ∧
      blockReward < valueOut coinbase.vout := by
  let miner : CTxOut := ⟨max 0 (blockReward + 1 - sb.mergedAmount), []⟩
  let rest := miner :: List.replicate sb.vecPayments.length ⟨0, []⟩
  have value : sb.mergedAmount + valueOut rest = max sb.mergedAmount (blockReward + 1) := by
    have : valueOut rest = max 0 (blockReward + 1 - sb.mergedAmount) := by
      simp [rest, miner, valueOut]
    rw [this, ← max_add_add_left, add_zero, add_sub_cancel]
  refine ⟨sb.mergedCoinbase rest, ?_, ?_⟩
  · refine CSuperblock.isValid_mergedCoinbase height limit (by simp [rest]) ?_ ?_ ?_
    · intro out hout
      rcases List.mem_cons.mp hout with rfl | hout
      · exact le_max_left _ _
      · rw [List.eq_of_mem_replicate hout]
    · rw [value]
      exact max_le within bounded
    · have le_total := sb.mergedAmount_le_total
      rw [value]
      exact max_le (by linarith) (add_le_add_right (Order.one_le_iff_pos.mpr positive) blockReward)
  · rw [CSuperblock.valueOut_mergedCoinbase, value]
    exact lt_of_lt_of_le (lt_add_one _) (le_max_right _ _)

theorem exists_extra (height : isValidBlockHeight params nBlockHeight = true)
    (adds : MayAddCoins params s nBlockHeight) :
    ∃ coinbase, isBlockValueValid params s coinbase nBlockHeight (getBlockSubsidy (nBlockHeight - 1)) =
      .ok () ∧ getBlockSubsidy (nBlockHeight - 1) < valueOut coinbase.vout := by
  have bounded := subsidy_le_maxMoney (nBlockHeight - 1)
  have nonneg := subsidy_nonneg (nBlockHeight - 1)
  obtain lite | ⟨enabled, triggered, sb, best, positive, limit, within⟩ := adds
  · refine ⟨coinbaseWith [⟨getBlockSubsidy (nBlockHeight - 1) + 1, []⟩], ?_, ?_⟩
    · rw [isBlockValueValid_superblock height]
      have room := one_le_getPaymentsLimit height
      simp only [Summable, coinbaseWith, valueOut, List.mem_singleton, forall_eq, List.map_cons,
        List.map_nil, List.sum_singleton]
      exact ⟨⟨by linarith, bounded⟩, by linarith, .inl (.inr lite)⟩
    · simp [coinbaseWith, valueOut]
  · obtain ⟨coinbase, valid, above⟩ :=
      exists_isValid_above height positive limit within nonneg bounded
    obtain ⟨-, -, -, summable, sum, total, -⟩ := CSuperblock.isValid_eq_ok_true.mp valid
    refine ⟨coinbase, ?_, above⟩
    rw [isBlockValueValid_superblock height, if_pos ⟨enabled, triggered⟩]
    exact ⟨⟨summable, sum⟩, by linarith, .inr (isValidSuperblock_eq_ok_true.mpr ⟨sb, best, valid⟩)⟩

/-- The trigger with the most votes for height 4200 pays 200000 coins, and the limit is 120000. -/
def costlySuperblock : CSuperblock := ⟨4200, [⟨[0x51], 20000000000000, by decide⟩]⟩

def costlyState : GovernanceState := ⟨true, false, true, 10, [⟨costlySuperblock, 7, false⟩]⟩

def votedState : GovernanceState :=
  ⟨true, false, true, 10, [⟨⟨4200, [⟨[0x51], 300000000, by decide⟩]⟩, 7, false⟩]⟩

def votedCoinbase : CTransaction :=
  coinbaseWith [⟨getBlockSubsidy 4199, []⟩, ⟨300000000, [0x51]⟩]

end

end ButCore.Governance
