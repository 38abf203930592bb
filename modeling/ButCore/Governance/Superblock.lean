import ButCore.Lib.Scan
import ButCore.Validation.CheckBlock

/-!
# Superblocks

The payments of a trigger, parsed from its two texts, and the test that a coinbase makes them.
-/
namespace ButCore.Governance

open Checked Validation

/-! ### Payment schedules -/

abbrev Text := List Char

/-- What addresses mean, and which money limit is in force at the tip. -/
structure PaymentCodec where
  isValid : Text → Bool
  isScript : Text → Bool
  getScriptForDestination : Text → CScript
  isMaxCash : Bool

/-- The amount was in the money range when it was parsed. -/
structure CGovernancePayment where
  script : CScript
  nAmount : CAmount
  range : MoneyRange nAmount true = true
  deriving DecidableEq

def splitBy (strCommand : Text) : List Text := (strCommand.splitOn '|').filter (· ≠ [])

theorem moneyRange_true {nValue : CAmount} {nMaxcash : Bool} (h : MoneyRange nValue nMaxcash = true) :
    MoneyRange nValue true = true := by
  rw [moneyRange_iff] at h ⊢
  refine ⟨h.1, h.2.trans ?_⟩
  cases nMaxcash <;> decide

def UPPER_BOUND : ℤ := 1000000000000000000 - 1

/-- Zeros are counted and only multiplied in when another digit follows. -/
structure Mantissa where
  mantissa : ℤ
  mantissaTzeros : ℕ

def timesTen : ℕ → ℤ → Option ℤ
  | 0, mantissa => some mantissa
  | n + 1, mantissa =>
    if UPPER_BOUND / 10 < mantissa ∨ mantissa < -(UPPER_BOUND / 10) then none
    else timesTen n (mantissa * 10)

def digitValue (ch : Char) : ℤ := ch.toNat - '0'.toNat

def processMantissaDigit (m : Mantissa) (ch : Char) : Option Mantissa :=
  if ch = '0' then some { m with mantissaTzeros := m.mantissaTzeros + 1 }
  else (timesTen (m.mantissaTzeros + 1) m.mantissa).map fun mantissa => ⟨mantissa + digitValue ch, 0⟩

def parseDigits (m : Mantissa) (val : Text) : Option (Mantissa × Text) :=
  ((val.takeWhile Char.isDigit).foldlM processMantissaDigit m).map (·, val.dropWhile Char.isDigit)

def parseInteger : Text → Option (Mantissa × Text)
  | [] => none
  | ch :: val =>
    if ch = '0' then some (⟨0, 0⟩, val)
    else if ch.isDigit then parseDigits ⟨0, 0⟩ (ch :: val)
    else none

def parseFraction (m : Mantissa) : Text → Option (Mantissa × ℤ × Text)
  | '.' :: ch :: val =>
    if ch.isDigit then
      (parseDigits m (ch :: val)).map fun (m, rest) =>
        (m, ((ch :: val).takeWhile Char.isDigit).length, rest)
    else none
  | ['.'] => none
  | val => some (m, 0, val)

def exponentDigit (exponent : ℤ) (ch : Char) : Option ℤ :=
  if UPPER_BOUND / 10 < exponent then none else some (exponent * 10 + digitValue ch)

def parseExponentDigits : Text → Option (ℤ × Text)
  | [] => none
  | ch :: val =>
    if ch.isDigit then
      (((ch :: val).takeWhile Char.isDigit).foldlM exponentDigit 0).map
        (·, (ch :: val).dropWhile Char.isDigit)
    else none

def parseExponent : Text → Option (ℤ × Text)
  | [] => some (0, [])
  | ch :: val =>
    if ch = 'e' ∨ ch = 'E' then
      match val with
      | '+' :: val => parseExponentDigits val
      | '-' :: val => (parseExponentDigits val).map fun (exponent, rest) => (-exponent, rest)
      | val => parseExponentDigits val
    else some (0, ch :: val)

def parseUnsigned (mantissaSign : Bool) (val : Text) (decimals : ℤ) : Option ℤ := do
  let (m, val) ← parseInteger val
  let (m, pointOfs, val) ← parseFraction m val
  let (exponent, val) ← parseExponent val
  guard (val = [])
  let exponent := exponent - pointOfs + m.mantissaTzeros + decimals
  guard (0 ≤ exponent ∧ exponent < 18)
  let mantissa ← timesTen exponent.toNat (if mantissaSign then -m.mantissa else m.mantissa)
  guard (mantissa ≤ UPPER_BOUND ∧ -UPPER_BOUND ≤ mantissa)
  pure mantissa

def parseFixedPoint (val : Text) (decimals : ℤ) : Option ℤ :=
  match val with
  | '-' :: val => parseUnsigned true val decimals
  | val => parseUnsigned false val decimals

def isAmountChar (c : Char) : Bool := c.isDigit || c == '.'

section

variable (codec : PaymentCodec)

def parsePaymentAmount (strAmount : Text) :
    Except String { nAmount : CAmount // MoneyRange nAmount true = true } := do
  failIf (strAmount = []) "ParsePaymentAmount: Amount is empty"
  failIf (20 < strAmount.length) "ParsePaymentAmount: Amount string too long"
  failIf (¬ strAmount.all isAmountChar)
    "ParsePaymentAmount: Amount string contains invalid character"
  failIf (strAmount.head? = some '.')
    "ParsePaymentAmount: Invalid amount string, leading decimal point not allowed"
  failIf (1 < strAmount.count '.')
    "ParsePaymentAmount: Invalid amount string, too many decimal points"
  let nAmount ← expect (parseFixedPoint strAmount 8)
    ("ParsePaymentAmount: ParseFixedPoint failed for string: " ++ String.ofList strAmount)
  if range : MoneyRange nAmount codec.isMaxCash = true then .ok ⟨nAmount, moneyRange_true range⟩
  else .error "ParsePaymentAmount: Invalid amount string, value outside of valid money range"

def parsePayment (address strAmount : Text) : Except String CGovernancePayment := do
  failIf (¬ codec.isValid address)
    ("CSuperblock::ParsePaymentSchedule -- Invalid But Address : " ++ String.ofList address)
  failIf (codec.isScript address)
    ("CSuperblock::ParsePaymentSchedule -- Script addresses are not supported yet : " ++
      String.ofList address)
  let nAmount ← parsePaymentAmount codec strAmount
  pure ⟨codec.getScriptForDestination address, nAmount.1, nAmount.2⟩

def parsePaymentSchedule (strPaymentAddresses strPaymentAmounts : Text) :
    Except String (List CGovernancePayment) := do
  let vecParsed1 := splitBy strPaymentAddresses
  let vecParsed2 := splitBy strPaymentAmounts
  failIf (vecParsed1.length ≠ vecParsed2.length)
    "CSuperblock::ParsePaymentSchedule -- Mismatched payments and amounts"
  failIf (vecParsed1.length = 0) "CSuperblock::ParsePaymentSchedule -- Error no payments"
  (vecParsed1.zip vecParsed2).mapM fun parsed => parsePayment codec parsed.1 parsed.2

end

/-! ### The test of a coinbase -/

structure BudgetParams where
  nBudgetPaymentsStartBlock : ℤ
  nBudgetPaymentsCycleBlocks : ℤ
  nBudgetPaymentsWindowBlocks : ℤ
  nSuperblockStartBlock : ℤ
  nSuperblockCycle : ℤ
  nGovernanceMinQuorum : ℤ
  smartnodePaymentFixedBlock : ℤ
  budgetFirst : nBudgetPaymentsStartBlock ≤ nSuperblockStartBlock
  cyclePositive : 0 < nSuperblockCycle

structure CSuperblock where
  nBlockHeight : ℤ
  vecPayments : List CGovernancePayment

def CGovernancePayment.txOut (payment : CGovernancePayment) : CTxOut := ⟨payment.nAmount, payment.script⟩

def addValue (nValueOut : CAmount) (txout : CTxOut) : Except String CAmount :=
  if MoneyRange txout.nValue true && MoneyRange (nValueOut + txout.nValue) true then
    .ok (nValueOut + txout.nValue)
  else .error "GetValueOut: value out of range"

def getValueOut (vout : List CTxOut) : Except String CAmount := vout.foldlM addValue 0

section

variable (params : BudgetParams)

def isValidBlockHeight (nBlockHeight : ℤ) : Bool :=
  decide (params.nSuperblockStartBlock ≤ nBlockHeight) &&
    decide (nBlockHeight.tmod params.nSuperblockCycle = 0)

/-- The part of the subsidy that is for superblocks is the whole subsidy. -/
def getPaymentsLimit (nBlockHeight : ℤ) : CAmount :=
  if isValidBlockHeight params nBlockHeight then
    getBlockSubsidy (nBlockHeight - 1) * params.nSuperblockCycle
  else 0

namespace CSuperblock

def getPaymentsTotalAmount (sb : CSuperblock) : CAmount :=
  (sb.vecPayments.map CGovernancePayment.nAmount).sum

/-- The outputs from `nVoutIndex` on; the one that matched stays among them. -/
def matchPayments : List CGovernancePayment → List CTxOut → Bool
  | [], _ => true
  | payment :: rest, vout =>
    match vout.dropWhile fun out =>
        !(decide (payment.script = out.scriptPubKey) && decide (payment.nAmount = out.nValue)) with
    | [] => false
    | found => matchPayments rest found

def isValid (sb : CSuperblock) (txNew : CTransaction) (nBlockHeight : ℤ) (blockReward : CAmount) :
    Except String Bool :=
  if isValidBlockHeight params nBlockHeight = false then pure false
  else if txNew.vout.length < sb.vecPayments.length then pure false
  else if getPaymentsLimit params nBlockHeight < sb.getPaymentsTotalAmount then pure false
  else do
    let nBlockValue ← getValueOut txNew.vout
    if blockReward + sb.getPaymentsTotalAmount < nBlockValue then pure false
    else pure (matchPayments sb.vecPayments txNew.vout)

end CSuperblock

end

def coinbaseWith (vout : List CTxOut) : CTransaction where
  hash := 0
  nVersion := 3
  nType := .coinbase
  vin := [⟨COutPoint.null, [0, 0], 0⟩]
  vout := vout
  nLockTime := 0
  extraPayload := .undecodable
  extraPayloadSize := 0

/-- The payments have outputs of their own, in their order. -/
def PaidInOrder (payments : List CGovernancePayment) (vout : List CTxOut) : Prop :=
  ∃ position : ℕ → ℕ, StrictMono position ∧
    ∀ i payment, payments[i]? = some payment → vout[position i]? = some payment.txOut

variable {vout : List CTxOut}

theorem paidInOrder_iff {payments : List CGovernancePayment} :
    PaidInOrder payments vout ↔ (payments.map CGovernancePayment.txOut).Sublist vout := by
  constructor
  · intro ⟨position, increasing, paid⟩
    have inside (i : Fin (payments.map CGovernancePayment.txOut).length) :
        vout[position i]? = some ((payments.map CGovernancePayment.txOut).get i) := by
      obtain ⟨i, hi⟩ := i
      rw [List.length_map] at hi
      rw [paid i payments[i] (List.getElem?_eq_getElem hi)]
      simp
    rw [List.sublist_iff_exists_fin_orderEmbedding_get_eq]
    refine ⟨OrderEmbedding.ofStrictMono
      (fun i => ⟨position i, (List.getElem?_eq_some_iff.mp (inside i)).1⟩)
      (fun i j hij => increasing hij), ?_⟩
    intro i
    exact (List.getElem?_eq_some_iff.mp (inside i)).2.symm
  · intro h
    obtain ⟨position, paid⟩ := List.sublist_iff_exists_orderEmbedding_getElem?_eq.mp h
    refine ⟨position, position.strictMono, ?_⟩
    intro i payment hpayment
    rw [← paid, List.getElem?_map, hpayment]
    rfl

theorem CGovernancePayment.txOut_injective : Function.Injective CGovernancePayment.txOut := by
  intro ⟨script, nAmount, range⟩ ⟨script', nAmount', range'⟩ h
  simp only [CGovernancePayment.txOut, CTxOut.mk.injEq] at h
  simp [h.1, h.2]

theorem matchPayments_eq_scan (payments : List CGovernancePayment) (vout : List CTxOut) :
    CSuperblock.matchPayments payments vout =
      Scan.scan (payments.map CGovernancePayment.txOut) vout := by
  induction payments generalizing vout with
  | nil => rfl
  | cons payment payments ih =>
    have same : (fun out : CTxOut => !(decide (payment.script = out.scriptPubKey) &&
        decide (payment.nAmount = out.nValue))) = fun out => decide (out ≠ payment.txOut) := by
      funext ⟨nValue, scriptPubKey⟩
      rw [← Bool.decide_and, ← decide_not, decide_eq_decide, CGovernancePayment.txOut, ne_eq,
        CTxOut.mk.injEq, and_comm, eq_comm, @eq_comm _ payment.script]
    rw [CSuperblock.matchPayments, List.map_cons, Scan.scan, same]
    cases vout.dropWhile fun out => decide (out ≠ payment.txOut) with
    | nil => rfl
    | cons out found => exact ih (out :: found)

variable {v : CAmount}

theorem addValue_eq_ok {v' : CAmount} {txout : CTxOut} :
    addValue v txout = .ok v' ↔ checkOutput true v txout = .ok v' := by
  simp only [addValue, checkOutput, bind_eq_ok, failIf_eq_ok, pure_eq_ok, exists_const, not_lt,
    not_not, moneyRange_iff, Bool.and_eq_true]
  split <;> simp_all

theorem getValueOut_eq_ok :
    getValueOut vout = .ok v ↔
      (∀ out ∈ vout, 0 ≤ out.nValue) ∧ valueOut vout ≤ MAX_MONEY ∧ v = valueOut vout := by
  rw [getValueOut, foldlM_congr_ok (fun _ _ _ => addValue_eq_ok),
    foldlM_checkOutput_eq_ok le_rfl (moneyLimit_nonneg true), zero_add]
  rfl

section

variable {params : BudgetParams} {sb : CSuperblock}

namespace CSuperblock

variable {blockReward : CAmount} {nBlockHeight : ℤ}

theorem isValid_eq_ok_true {txNew : CTransaction} :
    sb.isValid params txNew nBlockHeight blockReward = .ok true ↔
      isValidBlockHeight params nBlockHeight = true ∧
      sb.vecPayments.length ≤ txNew.vout.length ∧
      sb.getPaymentsTotalAmount ≤ getPaymentsLimit params nBlockHeight ∧
      (∀ out ∈ txNew.vout, 0 ≤ out.nValue) ∧ valueOut txNew.vout ≤ MAX_MONEY ∧
      valueOut txNew.vout ≤ blockReward + sb.getPaymentsTotalAmount ∧
      matchPayments sb.vecPayments txNew.vout = true := by
  unfold isValid
  split_ifs with height outputs limit
  · simp [height]
  · simp [outputs]
  · simp [limit]
  · simp only [bind_eq_ok, getValueOut_eq_ok]
    constructor
    · rintro ⟨_, ⟨nonneg, within, rfl⟩, h⟩
      split_ifs at h with value
      · cases h
      · simp only [pure_eq_ok] at h
        exact ⟨by simpa using height, not_lt.mp outputs, not_lt.mp limit, nonneg, within,
          not_lt.mp value, h⟩
    · rintro ⟨-, -, -, nonneg, within, value, h⟩
      refine ⟨_, ⟨nonneg, within, rfl⟩, ?_⟩
      rw [if_neg (not_lt.mpr value), h]
      rfl

def mergedPayments (sb : CSuperblock) : List CGovernancePayment := sb.vecPayments.destutter (· ≠ ·)

def mergedAmount (sb : CSuperblock) : CAmount :=
  (sb.mergedPayments.map CGovernancePayment.nAmount).sum

def mergedCoinbase (sb : CSuperblock) (rest : List CTxOut) : CTransaction :=
  coinbaseWith (sb.mergedPayments.map CGovernancePayment.txOut ++ rest)

theorem mergedPayments_map :
    sb.mergedPayments.map CGovernancePayment.txOut =
      (sb.vecPayments.map CGovernancePayment.txOut).destutter (· ≠ ·) :=
  List.map_destutter_ne _ CGovernancePayment.txOut_injective

theorem valueOut_mergedCoinbase (rest : List CTxOut) :
    valueOut (sb.mergedCoinbase rest).vout = sb.mergedAmount + valueOut rest := by
  simp [valueOut, mergedCoinbase, coinbaseWith, mergedAmount, CGovernancePayment.txOut,
    Function.comp_def]

theorem isValid_mergedCoinbase {rest : List CTxOut}
    (height : isValidBlockHeight params nBlockHeight = true)
    (limit : sb.getPaymentsTotalAmount ≤ getPaymentsLimit params nBlockHeight)
    (long : sb.vecPayments.length ≤ rest.length) (nonneg : ∀ out ∈ rest, 0 ≤ out.nValue)
    (within : sb.mergedAmount + valueOut rest ≤ MAX_MONEY)
    (value : sb.mergedAmount + valueOut rest ≤ blockReward + sb.getPaymentsTotalAmount) :
    sb.isValid params (sb.mergedCoinbase rest) nBlockHeight blockReward = .ok true := by
  rw [isValid_eq_ok_true, valueOut_mergedCoinbase]
  refine ⟨height, ?_, limit, ?_, within, value, ?_⟩
  · rw [mergedCoinbase, coinbaseWith, List.length_append]
    exact le_add_left long
  · intro out hout
    rcases List.mem_append.mp hout with h | h
    · obtain ⟨payment, -, rfl⟩ := List.mem_map.mp h
      exact ((moneyRange_iff _ _).mp payment.range).1
    · exact nonneg out h
  · rw [matchPayments_eq_scan, mergedCoinbase, coinbaseWith, mergedPayments_map]
    exact Scan.scan_destutter _ _

theorem mergedAmount_le (nonneg : ∀ out ∈ vout, 0 ≤ out.nValue)
    (found : matchPayments sb.vecPayments vout = true) : sb.mergedAmount ≤ valueOut vout := by
  rw [matchPayments_eq_scan, Scan.scan_iff, ← mergedPayments_map] at found
  have values := (found.map CTxOut.nValue).sum_le_sum (by simpa using nonneg)
  rw [List.map_map] at values
  exact values

theorem mergedAmount_le_total (sb : CSuperblock) : sb.mergedAmount ≤ sb.getPaymentsTotalAmount := by
  refine ((List.destutter_sublist _ _).map _).sum_le_sum ?_
  intro nAmount h
  obtain ⟨payment, -, rfl⟩ := List.mem_map.mp h
  exact ((moneyRange_iff _ _).mp payment.range).1

def testParams : BudgetParams where
  nBudgetPaymentsStartBlock := 4100
  nBudgetPaymentsCycleBlocks := 50
  nBudgetPaymentsWindowBlocks := 10
  nSuperblockStartBlock := 4200
  nSuperblockCycle := 24
  nGovernanceMinQuorum := 1
  smartnodePaymentFixedBlock := 0
  budgetFirst := by decide
  cyclePositive := by decide

def oneAddress : PaymentCodec where
  isValid address := address == ['A']
  isScript _ := false
  getScriptForDestination _ := [0x51]
  isMaxCash := true

end CSuperblock

end

end ButCore.Governance
