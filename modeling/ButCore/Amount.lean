import Mathlib.Tactic.NormNum

/-! Amounts, their unit and the two money limits. An amount is a signed number of
base units; the limit in force is chosen by the caller. -/
namespace ButCore

abbrev CAmount := Int

def COIN : CAmount := 100000000

def MAX_MONEY : CAmount := 21000000000 * COIN

def OLD_MAX_MONEY : CAmount := 21000000 * COIN

def MoneyRange (nValue : CAmount) (nMaxcash : Bool) : Bool :=
  if nMaxcash then
    decide (0 ≤ nValue) && decide (nValue ≤ MAX_MONEY)
  else
    decide (0 ≤ nValue) && decide (nValue ≤ OLD_MAX_MONEY)

theorem MoneyRange_true_iff (nValue : CAmount) :
    MoneyRange nValue true = true ↔ 0 ≤ nValue ∧ nValue ≤ 2100000000000000000 := by
  simp only [MoneyRange, MAX_MONEY, COIN, if_true, Bool.and_eq_true, decide_eq_true_eq]
  norm_num

end ButCore
