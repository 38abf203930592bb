import ButCore.Compact
import ButCore.Lib.BitSearch
import ButCore.Pow

/-!
# The work of a block

`GetBlockProof` multiplies the roots of all algos' next targets and inverts the mean.
-/
variable {n : ℕ}

namespace ButCore.ArithUint256
open BitSearch

def nthPower (n nNext : ℕ) : ℕ := (fun nPower => nPower * nNext % 2 ^ 64)^[n - 1] nNext

def approxNthRoot (x : ArithUint256) (n : ℕ) : ArithUint256 :=
  let nLength := bits x
  let nShifts := (nLength - 1) / n + 1 - 64 / n
  let nHead := (getLow64 (x >>> (n * nShifts))).toNat
  let nRoot := bitSearch (fun nNext => nthPower n nNext ≤ nHead) (64 / n) 0
  BitVec.ofNat 256 nRoot <<< nShifts

theorem iterate_mul_mod (x j : ℕ) (hx : x < 2 ^ 64) :
    (fun nPower => nPower * x % 2 ^ 64)^[j] x = x ^ (j + 1) % 2 ^ 64 := by
  induction j with
  | zero => rw [Function.iterate_zero_apply, Nat.zero_add, Nat.pow_one, Nat.mod_eq_of_lt hx]
  | succ j ih =>
    rw [Function.iterate_succ_apply', ih, Nat.mod_mul_mod, ← Nat.pow_succ]

variable {x : ℕ}

theorem pow_lt_of_lt_root (hn : 0 < n) (hx : x < 2 ^ (64 / n)) : x ^ n < 2 ^ 64 := by
  calc x ^ n < (2 ^ (64 / n)) ^ n := Nat.pow_lt_pow_left hx hn.ne'
    _ = 2 ^ (64 / n * n) := (Nat.pow_mul _ _ _).symm
    _ ≤ 2 ^ 64 := Nat.pow_le_pow_right (by decide) (Nat.div_mul_le_self 64 n)

theorem nthPower_eq (hn : 0 < n) (hx : x < 2 ^ (64 / n)) : nthPower n x = x ^ n := by
  have hx64 : x < 2 ^ 64 :=
    lt_of_lt_of_le hx (Nat.pow_le_pow_right (by decide) (Nat.div_le_self 64 n))
  rw [nthPower, iterate_mul_mod x _ hx64, Nat.sub_add_cancel hn,
    Nat.mod_eq_of_lt (pow_lt_of_lt_root hn hx)]

theorem rootSearch_spec (hn : 0 < n) (nHead : ℕ) :
    let nRoot := bitSearch (fun nNext => nthPower n nNext ≤ nHead) (64 / n) 0
    nRoot < 2 ^ (64 / n) ∧ nRoot ^ n ≤ nHead ∧
      ∀ y < 2 ^ (64 / n), y ^ n ≤ nHead → y ≤ nRoot := by
  have hzero : nthPower n 0 ≤ nHead := by
    rw [nthPower_eq hn (Nat.two_pow_pos _), Nat.zero_pow hn]
    exact Nat.zero_le _
  have hclosed : ∀ x y, x ≤ y → y < 2 ^ (64 / n) →
      nthPower n y ≤ nHead → nthPower n x ≤ nHead := by
    intro x y hxy hy hpow
    rw [nthPower_eq hn hy] at hpow
    rw [nthPower_eq hn (lt_of_le_of_lt hxy hy)]
    exact le_trans (Nat.pow_le_pow_left hxy n) hpow
  have hlt := bitSearch_lt (p := fun nNext => nthPower n nNext ≤ nHead) (64 / n) 0
  have hspec := bitSearch_spec (p := fun nNext => nthPower n nNext ≤ nHead) hclosed (64 / n) 0
    (by simp) (by simpa using hzero)
  simp only [Nat.mul_zero, Nat.zero_add, Nat.mul_one] at hlt hspec
  obtain ⟨hroot, hgreatest⟩ := hspec
  rw [nthPower_eq hn hlt] at hroot
  refine ⟨hlt, hroot, ?_⟩
  intro y hy hpow
  apply hgreatest y hy
  rw [nthPower_eq hn hy]
  exact hpow

/-- The shifts leave at most 64 bits, but a bit of every number that has one, and the search has
enough bits for what is left. -/
theorem nShifts_bounds (hn : 0 < n) (hn64 : n ≤ 64) (nLength : ℕ) :
    let nShifts := (nLength - 1) / n + 1 - 64 / n
    nLength ≤ n * nShifts + 64 ∧ (0 < nLength → n * nShifts < nLength) ∧
      ∀ e, n * e < nLength → e < nShifts + 64 / n := by
  intro nShifts
  have hbit : 0 < 64 / n := Nat.div_pos hn64 hn
  have hceil : nLength - 1 < n * ((nLength - 1) / n + 1) := Nat.lt_mul_div_succ _ hn
  have hhead : n * (64 / n) ≤ 64 := Nat.mul_div_le 64 n
  have hshift : (nLength - 1) / n + 1 ≤ nShifts + 64 / n := by omega
  refine ⟨?_, ?_, ?_⟩
  · have hmul := Nat.mul_le_mul_left n hshift
    rw [Nat.mul_add n nShifts] at hmul
    omega
  · intro hpos
    have hle : nShifts ≤ (nLength - 1) / n :=
      Nat.sub_le_of_le_add (Nat.add_le_add_left hbit _)
    have hmul := le_trans (Nat.mul_le_mul_left n hle) (Nat.mul_div_le (nLength - 1) n)
    omega
  · intro e he
    have hquot : e ≤ (nLength - 1) / n := by
      rw [Nat.le_div_iff_mul_le hn, Nat.mul_comm]
      omega
    omega

def nShifts (x : ArithUint256) (n : ℕ) : ℕ := (bits x - 1) / n + 1 - 64 / n

theorem head_toNat (hn : 0 < n) (hn64 : n ≤ 64) (x : ArithUint256) :
    (getLow64 (x >>> (n * nShifts x n))).toNat = x.toNat / 2 ^ (n * nShifts x n) := by
  rw [getLow64, BitVec.toNat_setWidth, BitVec.toNat_ushiftRight, Nat.shiftRight_eq_div_pow]
  apply Nat.mod_eq_of_lt
  rw [Nat.div_lt_iff_lt_mul (Nat.two_pow_pos _), ← Nat.pow_add]
  refine lt_of_lt_of_le (toNat_lt_two_pow_bits x) (Nat.pow_le_pow_right (by decide) ?_)
  rw [Nat.add_comm]
  exact (nShifts_bounds hn hn64 (bits x)).1

theorem shifted_root_pow_le {r k : ℕ} (h : r ^ n ≤ x / 2 ^ (n * k)) :
    (r * 2 ^ k) ^ n ≤ x := by
  calc (r * 2 ^ k) ^ n = r ^ n * 2 ^ (n * k) := by
        rw [Nat.mul_pow, ← Nat.pow_mul, Nat.mul_comm k n]
    _ ≤ x / 2 ^ (n * k) * 2 ^ (n * k) := Nat.mul_le_mul_right _ h
    _ ≤ x := Nat.div_mul_le_self x _

theorem approxNthRoot_parts (hn : 0 < n) (hn64 : n ≤ 64) (x : ArithUint256) :
    ∃ r < 2 ^ (64 / n), (approxNthRoot x n).toNat = r * 2 ^ nShifts x n ∧
      r ^ n ≤ x.toNat / 2 ^ (n * nShifts x n) ∧
      ∀ y < 2 ^ (64 / n), y ^ n ≤ x.toNat / 2 ^ (n * nShifts x n) → y ≤ r := by
  obtain ⟨hlt, hroot, hgreatest⟩ := rootSearch_spec hn (x.toNat / 2 ^ (n * nShifts x n))
  have hval : approxNthRoot x n =
      BitVec.ofNat 256 (bitSearch (fun nNext =>
        nthPower n nNext ≤ x.toNat / 2 ^ (n * nShifts x n)) (64 / n) 0) <<< nShifts x n := by
    rw [← head_toNat hn hn64 x]
    rfl
  generalize nShifts x n = k at *
  generalize bitSearch (fun nNext => nthPower n nNext ≤ x.toNat / 2 ^ (n * k)) (64 / n) 0 = r at *
  have hfit : r * 2 ^ k < 2 ^ 256 :=
    lt_of_le_of_lt (Nat.le_self_pow hn.ne' _) (lt_of_le_of_lt (shifted_root_pow_le hroot) x.isLt)
  have hr : r < 2 ^ 256 :=
    lt_of_le_of_lt (Nat.le_mul_of_pos_right r (Nat.two_pow_pos k)) hfit
  refine ⟨r, hlt, ?_, hroot, hgreatest⟩
  rw [hval, BitVec.toNat_shiftLeft, BitVec.toNat_ofNat, Nat.mod_eq_of_lt hr, Nat.shiftLeft_eq,
    Nat.mod_eq_of_lt hfit]

/-- What the approximate root guarantees: it is a root from below, and it does not fall below a
power of two whose power fits. -/
theorem approxNthRoot_spec (hn : 0 < n) (hn64 : n ≤ 64) (x : ArithUint256) :
    (approxNthRoot x n).toNat ^ n ≤ x.toNat ∧
      ∀ e, 2 ^ (n * e) ≤ x.toNat → 2 ^ e ≤ (approxNthRoot x n).toNat := by
  obtain ⟨-, hkept, henough⟩ := nShifts_bounds hn hn64 (bits x)
  obtain ⟨r, -, htoNat, hroot, hgreatest⟩ := approxNthRoot_parts hn hn64 x
  change _ → n * nShifts x n < _ at hkept
  change ∀ e, _ → e < nShifts x n + _ at henough
  generalize nShifts x n = k at *
  rw [htoNat]
  refine ⟨shifted_root_pow_le hroot, ?_⟩
  intro e he
  have hlength := lt_bits_iff.mpr he
  -- the candidate is the part of `2 ^ e` above the shift, or one when nothing is above it
  have hcand : 2 ^ (e - k) ≤ r := by
    apply hgreatest
    · have hbit : 0 < 64 / n := Nat.div_pos hn64 hn
      have hlt := henough e hlength
      exact Nat.pow_lt_pow_right (by decide) (by omega)
    · rw [Nat.le_div_iff_mul_le (Nat.two_pow_pos _), ← Nat.pow_mul, ← Nat.pow_add]
      apply lt_bits_iff.mp
      rcases le_total k e with hke | hek
      · rw [Nat.mul_comm (e - k) n, ← Nat.mul_add, Nat.sub_add_cancel hke]
        exact hlength
      · rw [Nat.sub_eq_zero_of_le hek, Nat.zero_mul, Nat.zero_add]
        exact hkept (by omega)
  calc 2 ^ e ≤ 2 ^ (e - k + k) := Nat.pow_le_pow_right (by decide) (by omega)
    _ = 2 ^ (e - k) * 2 ^ k := Nat.pow_add _ _ _
    _ ≤ r * 2 ^ k := Nat.mul_le_mul_right _ hcand

end ButCore.ArithUint256

namespace ButCore.Pow
open ArithUint256 FixedWidth

/-! ### The proof of a block -/

def algos : List Algo := [.butkscrypt, .sha256d, .lyra2, .ghostrider, .yespower, .scrypt]

def currentAlgos (params : ConsensusParams) (nHeight : ℤ) : ℕ :=
  if params.nSwitchHeight ≤ nHeight then NUM_ALGOSV4
  else if params.AlgoChangeHeight ≤ nHeight then NUM_ALGOSV3
  else if params.v2DiffChangeHeight ≤ nHeight then NUM_ALGOSV2
  else NUM_ALGOS

def mulRoot (params : ConsensusParams) (pprev : Chain) (n : ℕ) (bnAvgTarget : ArithUint256)
    (algo : Algo) : Option ArithUint256 :=
  let bnTarget := setCompact (getNextWorkRequired pprev params algo)
  if bnTarget.fNegative || bnTarget.fOverflow || bnTarget.value == 0 then none
  else some (bnAvgTarget * approxNthRoot bnTarget.value n)

def getBlockProof (params : ConsensusParams) (block : CBlockIndex) (pprev : Chain) :
    ArithUint256 :=
  let n := currentAlgos params block.nHeight
  match (algos.take n).foldlM (mulRoot params pprev n) 1 with
  | none => 0
  | some bnAvgTarget => (~~~bnAvgTarget / (bnAvgTarget + 1) + 1) <<< 7

def chainWork (params : ConsensusParams) : Chain → ArithUint256
  | [] => 0
  | block :: pprev => chainWork params pprev + getBlockProof params block pprev

/-! ### The next targets -/

def InPowRange (params : ConsensusParams) (nBits : BitVec 32) : Prop :=
  let bnTarget := setCompact nBits
  bnTarget.fNegative = false ∧ bnTarget.value ≠ 0 ∧ bnTarget.fOverflow = false ∧
    bnTarget.value ≤ params.powLimit

instance (params : ConsensusParams) (nBits : BitVec 32) : Decidable (InPowRange params nBits) :=
  inferInstanceAs (Decidable (_ ∧ _ ∧ _ ∧ _))

def nextVersion (params : ConsensusParams) : Chain → Version
  | [] => .V1
  | last :: _ =>
    if last.nHeight < params.v2DiffChangeHeight then .V1
    else if last.nHeight < params.v3DiffChangeHeight then .V2
    else .V3

def nextRule (params : ConsensusParams) (pindexLast : Chain) : RetargetRule :=
  (nextVersion params pindexLast).rule params pindexLast

theorem getNextWorkRequired_eq_retarget (params : ConsensusParams) (pindexLast : Chain)
    (algo : Algo) :
    getNextWorkRequired pindexLast params algo =
      retarget (nextRule params pindexLast) params pindexLast algo := by
  cases pindexLast with
  | nil => rfl
  | cons last pprev =>
    simp only [getNextWorkRequired, nextRule, nextVersion]
    split_ifs <;> rfl

def nextTarget (params : ConsensusParams) (pindexLast : Chain) (algo : Algo) : ArithUint256 :=
  match retargetInputs (nextRule params pindexLast) params pindexLast algo with
  | none => params.powLimit
  | some inputs =>
    let bnOld := (setCompact inputs.nBits).value
    let rule := nextRule params pindexLast
    let bnGlobal := globalRetarget rule (clampTimespan rule inputs.medianTimespan) bnOld
    let bnNew := perAlgoRetarget params inputs.nAdjustments bnGlobal
    if params.powLimit < bnNew then params.powLimit else bnNew

theorem getNextWorkRequired_eq_getCompact (params : ConsensusParams) (pindexLast : Chain)
    (algo : Algo) :
    getNextWorkRequired pindexLast params algo =
      getCompact (nextTarget params pindexLast algo) false := by
  rw [getNextWorkRequired_eq_retarget, retarget, nextTarget]
  cases retargetInputs (nextRule params pindexLast) params pindexLast algo <;> rfl

theorem nextTarget_le (params : ConsensusParams) (pindexLast : Chain) (algo : Algo) :
    (nextTarget params pindexLast algo).toNat ≤ params.powLimit.toNat := by
  unfold nextTarget
  split
  · exact le_rfl
  · dsimp only
    split_ifs with h
    · exact le_rfl
    · exact not_lt.mp h

theorem getNextWorkRequired_decoded (params : ConsensusParams) (pindexLast : Chain)
    (algo : Algo) :
    let bnTarget := setCompact (getNextWorkRequired pindexLast params algo)
    bnTarget.fNegative = false ∧ bnTarget.fOverflow = false ∧
      bnTarget.value.toNat ≤ params.powLimit.toNat := by
  rw [getNextWorkRequired_eq_getCompact]
  obtain ⟨htrunc, hneg, hover⟩ := setCompact_getCompact (nextTarget params pindexLast algo)
  exact ⟨hneg, hover, le_trans htrunc.le (nextTarget_le params pindexLast algo)⟩

/-! ### Targets that stay above a floor -/

def floorBits : ℕ := 60

/-- The product of the old target and the timespan from which the retarget steps end at the floor
or above. -/
def leastProduct (rule : RetargetRule) (params : ConsensusParams) (nAdjustments : ℤ) : ℕ :=
  let adjusted := (100 + params.nLocalTargetAdjustment).toNat
  rule.targetTimespan.toNat *
    (if 0 < nAdjustments then leastStart 100 adjusted (2 ^ floorBits) nAdjustments.toNat
      else leastStart adjusted 100 (2 ^ floorBits) (-nAdjustments).toNat)

/-- The first product, reduced to 256 bits, is large enough for the steps that shrink it, and
small enough for the steps that raise it. -/
def KeepsFloor (rule : RetargetRule) (params : ConsensusParams) (inputs : RetargetInputs) :
    Prop :=
  let bnOld := (setCompact inputs.nBits).value.toNat
  let product := bnOld * (clampTimespan rule inputs.medianTimespan).toNat % 2 ^ 256
  leastProduct rule params inputs.nAdjustments ≤ product ∧
    (inputs.nAdjustments < 0 → product / rule.targetTimespan.toNat ≤
      stepLimit 256 (100 + params.nLocalTargetAdjustment).toNat 100
        (-inputs.nAdjustments).toNat)

instance (rule : RetargetRule) (params : ConsensusParams) (inputs : RetargetInputs) :
    Decidable (KeepsFloor rule params inputs) :=
  inferInstanceAs (Decidable (_ ∧ (_ → _)))

def KeepsTargets (params : ConsensusParams) (pindexLast : Chain) : Prop :=
  ∀ algo ∈ algos, ∀ inputs ∈ retargetInputs (nextRule params pindexLast) params pindexLast algo,
    KeepsFloor (nextRule params pindexLast) params inputs

instance (params : ConsensusParams) (pindexLast : Chain) :
    Decidable (KeepsTargets params pindexLast) :=
  List.decidableBAll _ _

structure WellFormed (params : ConsensusParams) : Prop where
  rule_inRange : ∀ pindexLast, (nextRule params pindexLast).InRange
  adjustment_lt : 100 + params.nLocalTargetAdjustment < 2 ^ 32
  floor_le : 2 ^ floorBits ≤ params.powLimit.toNat
  limit_lt : params.powLimit.toNat + 1 < 2 ^ 256

theorem mainParams_wellFormed : WellFormed mainParams where
  rule_inRange := fun pindexLast => mainRule_inRange (nextVersion mainParams pindexLast) pindexLast
  adjustment_lt := by decide
  floor_le := by decide
  limit_lt := by decide

theorem mem_algos (algo : Algo) : algo ∈ algos := by
  cases algo <;> decide

variable {rule : RetargetRule}

theorem globalRetarget_toNat_mod (h : rule.InRange) (span : ℤ) (x : ArithUint256) :
    (globalRetarget rule (clampTimespan rule span) x).toNat =
      x.toNat * (clampTimespan rule span).toNat % 2 ^ 256 / rule.targetTimespan.toNat := by
  obtain ⟨hpos, hlt⟩ := clampTimespan_bounds h span
  have hm := ofInt_setWidth_toNat (by decide) hpos.le hlt
  have hd := ofInt_setWidth_toNat (w := 64) (by decide) rule.targetTimespan_pos.le h.target_lt
  rw [globalRetarget, mulDiv, mulU32, ofU64, BitVec.toNat_udiv, BitVec.toNat_mul, hm, hd]

variable {params : ConsensusParams} {p : ℕ}

theorem exactPerAlgo_floor {n : ℤ} (h : leastProduct rule params n ≤ p) :
    2 ^ floorBits ≤ exactPerAlgo params n (p / rule.targetTimespan.toNat) := by
  have hadj := params.localTargetAdjustment_nonneg
  have hpos := rule.targetTimespan_pos
  rw [leastProduct, Nat.mul_comm] at h
  have hstart := (Nat.le_div_iff_mul_le (by omega)).mpr h
  unfold exactPerAlgo
  split_ifs at hstart ⊢ with hup hdown
  · exact (le_iterate_scale_iff (by decide) (by omega) _ _ _).mpr hstart
  · exact (le_iterate_scale_iff (by omega) (by decide) _ _ _).mpr hstart
  · obtain rfl : n = 0 := by omega
    exact hstart

theorem perAlgoFits_of_keepsFloor (h : rule.InRange) {n : ℤ} (hp : p < 2 ^ 256)
    (hgrow : n < 0 → p / rule.targetTimespan.toNat ≤ stepLimit 256 (100 + params.nLocalTargetAdjustment).toNat 100 (-n).toNat) :
    PerAlgoFits params n (p / rule.targetTimespan.toNat) := by
  by_cases hn : n < 0
  · exact (perAlgoFits_neg_iff hn _).mpr (hgrow hn)
  · have hfit := perAlgoFits_of_nonneg h params (not_lt.mp hn) 1 (x := p) (by simpa using hp)
    simpa [exactGlobal, scale] using hfit

variable {pindexLast : Chain}

theorem nextTarget_floor (hparams : WellFormed params) (h : KeepsTargets params pindexLast)
    (algo : Algo) :
    2 ^ floorBits ≤ (nextTarget params pindexLast algo).toNat := by
  have hrange := hparams.rule_inRange pindexLast
  unfold nextTarget
  split
  · exact hparams.floor_le
  · rename_i inputs hin
    obtain ⟨hleast, hgrow⟩ := h algo (mem_algos algo) inputs hin
    dsimp only
    split_ifs with hcap
    · exact hparams.floor_le
    · have hfits := perAlgoFits_of_keepsFloor hrange (Nat.mod_lt _ (Nat.two_pow_pos 256)) hgrow
      rw [← globalRetarget_toNat_mod hrange] at hfits
      rw [perAlgoRetarget_toNat hparams.adjustment_lt _ _ hfits,
        globalRetarget_toNat_mod hrange]
      exact exactPerAlgo_floor hleast

theorem decodedTarget_floor (hparams : WellFormed params) (h : KeepsTargets params pindexLast)
    (algo : Algo) :
    2 ^ floorBits ≤ (setCompact (getNextWorkRequired pindexLast params algo)).value.toNat := by
  rw [getNextWorkRequired_eq_getCompact]
  apply (setCompact_getCompact _).1.two_pow_le
  exact nextTarget_floor hparams h algo

theorem getNextWorkRequired_inPowRange (hparams : WellFormed params)
    (h : KeepsTargets params pindexLast) (algo : Algo) :
    InPowRange params (getNextWorkRequired pindexLast params algo) := by
  obtain ⟨hneg, hover, hle⟩ := getNextWorkRequired_decoded params pindexLast algo
  refine ⟨hneg, ?_, hover, hle⟩
  intro hzero
  have hfloor := decodedTarget_floor hparams h algo
  rw [hzero] at hfloor
  exact absurd hfloor (by decide)

/-! ### The mean of the targets -/

/-- After `j` rounds the `n`-th power of the product is below the `j`-th power of the limit, and
the product has kept the bits that the floor gives to each root. -/
structure MeanInv (params : ConsensusParams) (n j : ℕ) (bnAvgTarget : ArithUint256) : Prop where
  pow_le : bnAvgTarget.toNat ^ n ≤ params.powLimit.toNat ^ j
  floor_le : 2 ^ (floorBits / n * j) ≤ bnAvgTarget.toNat

variable {avg : ArithUint256} {j : ℕ}

theorem MeanInv.le (hn : 0 < n) (hj : j ≤ n) (hlimit : 0 < params.powLimit.toNat)
    (h : MeanInv params n j avg) :
    avg.toNat ≤ params.powLimit.toNat :=
  (Nat.pow_le_pow_iff_left hn.ne').mp
    (le_trans h.pow_le (Nat.pow_le_pow_right hlimit hj))

variable {pprev : Chain}

theorem MeanInv.mulRoot (hparams : WellFormed params) (hkeeps : KeepsTargets params pprev)
    (hn : 0 < n) (hn64 : n ≤ 64) (hj : j < n) (h : MeanInv params n j avg) (algo : Algo) :
    ∃ avg', mulRoot params pprev n avg algo = some avg' ∧ MeanInv params n (j + 1) avg' := by
  obtain ⟨hneg, hnonzero, hover, hle⟩ := getNextWorkRequired_inPowRange hparams hkeeps algo
  have hfloor := decodedTarget_floor hparams hkeeps algo
  have hlimit : 0 < params.powLimit.toNat := lt_of_lt_of_le (by decide) hparams.floor_le
  generalize hbits : getNextWorkRequired pprev params algo = nBits at *
  obtain ⟨hroot, hrootFloor⟩ := approxNthRoot_spec hn hn64 (setCompact nBits).value
  have hrootBits : 2 ^ (floorBits / n) ≤ (approxNthRoot (setCompact nBits).value n).toNat := by
    apply hrootFloor
    refine le_trans (Nat.pow_le_pow_right (by decide) ?_) hfloor
    exact Nat.mul_div_le floorBits n
  have hpow : (avg.toNat * (approxNthRoot (setCompact nBits).value n).toNat) ^ n ≤
      params.powLimit.toNat ^ (j + 1) := by
    rw [Nat.mul_pow, Nat.pow_succ]
    exact Nat.mul_le_mul h.pow_le (le_trans hroot hle)
  have hprod : avg.toNat * (approxNthRoot (setCompact nBits).value n).toNat ≤
      params.powLimit.toNat :=
    (Nat.pow_le_pow_iff_left hn.ne').mp (le_trans hpow (Nat.pow_le_pow_right hlimit hj))
  have htoNat : (avg * approxNthRoot (setCompact nBits).value n).toNat =
      avg.toNat * (approxNthRoot (setCompact nBits).value n).toNat := by
    rw [BitVec.toNat_mul, Nat.mod_eq_of_lt (lt_of_le_of_lt hprod params.powLimit.isLt)]
  refine ⟨avg * approxNthRoot (setCompact nBits).value n, ?_, ?_, ?_⟩
  · have hvalue : ((setCompact nBits).value == 0) = false := beq_false_of_ne hnonzero
    simp only [Pow.mulRoot, hbits, hneg, hover, hvalue, Bool.or_self, Bool.false_eq_true, if_false]
  · rw [htoNat]
    exact hpow
  · rw [htoNat, Nat.mul_succ, Nat.pow_add]
    exact Nat.mul_le_mul h.floor_le hrootBits

theorem MeanInv.foldlM (hparams : WellFormed params) (hkeeps : KeepsTargets params pprev)
    (hn : 0 < n) (hn64 : n ≤ 64) (l : List Algo) (hj : j + l.length ≤ n)
    (h : MeanInv params n j avg) :
    ∃ avg', l.foldlM (Pow.mulRoot params pprev n) avg = some avg' ∧
      MeanInv params n (j + l.length) avg' := by
  induction l generalizing j avg with
  | nil => exact ⟨avg, rfl, h⟩
  | cons algo rest ih =>
    rw [List.length_cons] at hj ⊢
    obtain ⟨avg₁, hstep, h₁⟩ := h.mulRoot hparams hkeeps hn hn64 (by omega) algo
    obtain ⟨avg', hrest, h'⟩ := ih (j := j + 1) (by omega) h₁
    refine ⟨avg', ?_, ?_⟩
    · rw [List.foldlM_cons, hstep]
      exact hrest
    · rwa [Nat.add_comm rest.length, ← Nat.add_assoc]

theorem currentAlgos_cases (params : ConsensusParams) (nHeight : ℤ) :
    currentAlgos params nHeight ∈ [3, 4, 5, 6] := by
  unfold currentAlgos NUM_ALGOS NUM_ALGOSV2 NUM_ALGOSV3 NUM_ALGOSV4
  split_ifs <;> decide

theorem meanTarget_bounds (hparams : WellFormed params) (hkeeps : KeepsTargets params pprev)
    (nHeight : ℤ) :
    let n := currentAlgos params nHeight
    ∃ avg, (algos.take n).foldlM (mulRoot params pprev n) 1 = some avg ∧
      2 ^ floorBits ≤ avg.toNat ∧ avg.toNat ≤ params.powLimit.toNat := by
  have hcases := currentAlgos_cases params nHeight
  generalize currentAlgos params nHeight = n at hcases
  have hn : 0 < n ∧ n ≤ 64 ∧ (algos.take n).length = n ∧ floorBits / n * n = floorBits := by
    fin_cases hcases <;> decide
  obtain ⟨hpos, hn64, hlength, hdiv⟩ := hn
  have hstart : MeanInv params n 0 1 := ⟨by simp, by simp⟩
  obtain ⟨avg, hfold, hinv⟩ :=
    hstart.foldlM hparams hkeeps hpos hn64 (algos.take n) (by rw [hlength, Nat.zero_add])
  rw [hlength, Nat.zero_add] at hinv
  have hlimit : 0 < params.powLimit.toNat := lt_of_lt_of_le (by decide) hparams.floor_le
  refine ⟨avg, hfold, ?_, hinv.le hpos le_rfl hlimit⟩
  have hfloor := hinv.floor_le
  rwa [hdiv] at hfloor

theorem proof_bounds (hfloor : 2 ^ floorBits ≤ avg.toNat) (hlimit : avg.toNat + 1 < 2 ^ 256) :
    0 < ((~~~avg / (avg + 1) + 1) <<< 7).toNat ∧
      ((~~~avg / (avg + 1) + 1) <<< 7).toNat ≤ 2 ^ 203 := by
  have hsucc : (avg + 1).toNat = avg.toNat + 1 := by
    rw [BitVec.toNat_add]
    exact Nat.mod_eq_of_lt hlimit
  have hquot : (~~~avg / (avg + 1)).toNat = (2 ^ 256 - 1 - avg.toNat) / (avg.toNat + 1) := by
    rw [BitVec.toNat_udiv, BitVec.toNat_not, hsucc]
  have hlt : (2 ^ 256 - 1 - avg.toNat) / (avg.toNat + 1) < 2 ^ 196 := by
    rw [Nat.div_lt_iff_lt_mul (Nat.succ_pos _)]
    calc 2 ^ 256 - 1 - avg.toNat < 2 ^ 196 * 2 ^ floorBits := by
          have : 2 ^ 196 * 2 ^ floorBits = 2 ^ 256 := by decide
          omega
      _ ≤ 2 ^ 196 * (avg.toNat + 1) := Nat.mul_le_mul_left _ (by omega)
  have hone : (~~~avg / (avg + 1) + 1).toNat = (~~~avg / (avg + 1)).toNat + 1 := by
    rw [BitVec.toNat_add]
    exact Nat.mod_eq_of_lt (by rw [hquot]; change _ + 1 < 2 ^ 256; omega)
  rw [BitVec.toNat_shiftLeft, hone, hquot, Nat.shiftLeft_eq]
  generalize (2 ^ 256 - 1 - avg.toNat) / (avg.toNat + 1) = q at hlt
  omega

theorem getBlockProof_bounds (hparams : WellFormed params) (hkeeps : KeepsTargets params pprev)
    (block : CBlockIndex) :
    0 < (getBlockProof params block pprev).toNat ∧
      (getBlockProof params block pprev).toNat ≤ 2 ^ 203 := by
  obtain ⟨avg, hfold, hfloor, hle⟩ := meanTarget_bounds hparams hkeeps block.nHeight
  simp only [getBlockProof, hfold]
  exact proof_bounds hfloor (lt_of_le_of_lt (Nat.succ_le_succ hle) hparams.limit_lt)

/-! ### The work of a chain -/

theorem chainWork_le (hparams : WellFormed params) (chain : Chain) (hlength : chain.length ≤ 2 ^ 31)
    (hkeeps : ∀ pprev, pprev <:+ chain → KeepsTargets params pprev) :
    (chainWork params chain).toNat ≤ chain.length * 2 ^ 203 := by
  induction chain with
  | nil => exact le_rfl
  | cons block pprev ih =>
    rw [List.length_cons] at hlength ⊢
    have hsuffix : pprev <:+ block :: pprev := List.suffix_cons block pprev
    have hprev := ih (by omega) fun p hp => hkeeps p (hp.trans hsuffix)
    obtain ⟨-, hproof⟩ := getBlockProof_bounds hparams (hkeeps pprev hsuffix) block
    rw [chainWork, BitVec.toNat_add]
    omega

/-- Along a chain whose blocks keep the targets, every next target is in range, the proof of every
further block is positive, and the work increases with each block. -/
theorem chainWork_increases {params : ConsensusParams} (hparams : WellFormed params)
    (chain : Chain) (hlength : chain.length ≤ 2 ^ 31)
    (hkeeps : ∀ pprev, pprev <:+ chain → KeepsTargets params pprev) :
    ∀ pprev, pprev <:+ chain →
      (∀ algo, InPowRange params (getNextWorkRequired pprev params algo)) ∧
      ∀ block, 0 < getBlockProof params block pprev ∧
        chainWork params pprev < chainWork params (block :: pprev) := by
  intro pprev hprev
  have hkeep := hkeeps pprev hprev
  refine ⟨getNextWorkRequired_inPowRange hparams hkeep, ?_⟩
  intro block
  obtain ⟨hpos, hproof⟩ := getBlockProof_bounds hparams hkeep block
  refine ⟨hpos, ?_⟩
  have hwork := chainWork_le hparams pprev (le_trans hprev.length_le hlength)
    fun p hp => hkeeps p (hp.trans hprev)
  have hshort := hprev.length_le
  rw [BitVec.lt_def, chainWork, BitVec.toNat_add]
  omega

theorem chainWork_increases_evenChain :
    0 < getBlockProof mainParams ⟨51, BLOCK_VERSION_SHA256D, 4590, 0⟩
      (evenChain 0x2000ffff 90 51) :=
  ((chainWork_increases mainParams_wellFormed (evenChain 0x2000ffff 90 51) (by decide)
    (by simp only [← List.mem_tails]; decide +kernel) _ List.suffix_rfl).2 _).1

/-! ### A chain whose next target is zero -/

def Demanded (params : ConsensusParams) : Chain → Prop
  | [] => True
  | block :: pprev =>
    (block.nBits = getNextWorkRequired pprev params (getAlgo block.nVersion) ∧
      InPowRange params block.nBits) ∧ Demanded params pprev

instance decidableDemanded (params : ConsensusParams) :
    (chain : Chain) → Decidable (Demanded params chain)
  | [] => isTrue trivial
  | _ :: pprev =>
    have := decidableDemanded params pprev
    inferInstanceAs (Decidable (_ ∧ _))

def retargetedBits : List (BitVec 32) :=
  [0x1f0a3584, 0x1f07daa3, 0x1f4e790a, 0x1f0648b4, 0x1f04d59d, 0x1f03b820, 0x1f02dc7e,
    0x1f023386, 0x1f01b188, 0x1f014d86, 0x1f010096, 0x1f00c565, 0x1f0097dc, 0x1e74d43b,
    0x1e59e11c, 0x1e452574, 0x1e353226, 0x1e28ecc3, 0x1e1f7c05, 0x1e1838c3, 0x1e12a264,
    0x1e0e55f9, 0x1e0b0765, 0x1e087c1a, 0x1e06870c, 0x1e050593, 0x1e03dd05, 0x1e02f8e0,
    0x1e02495b, 0x1e01c253, 0x1e015a71, 0x1e010a86, 0x1e00cd0a, 0x1e009dbd, 0x1d795a10,
    0x1d5d5bdc, 0x1d47d2ba, 0x1d374158, 0x1d2a8259, 0x1d20b40c, 0x1d1928d0, 0x1d135b11,
    0x1d0ee40c, 0x1d0b74b2, 0x1d08d031, 0x1d06c7bd, 0x1d053758, 0x1d04034f, 0x1d031655,
    0x1d026005, 0x1d01d3c3, 0x1d0167dc, 0x1d0114d9, 0x1d00d4fc, 0x1d00a3da, 0x1c7e0e0e,
    0x1c60fa1e, 0x1c4a9b52, 0x1c39658f, 0x1c2c281a, 0x20008000]

/-- Blocks 40 seconds apart, with one later gap. Blocks 0, 53 and 111 are sha256d blocks; the
target of the last one is `2 ^ 247`, and its product with a timespan of 3584 is a multiple of
`2 ^ 256`. -/
def wrappedChain : Chain :=
  (List.range 112).reverse.map fun height : ℕ =>
    { nHeight := height
      nVersion :=
        if height ∈ [0, 53, 111] then BLOCK_VERSION_SHA256D else BLOCK_VERSION_BUTKSCRYPT
      nTime := BitVec.ofNat 32 (40 * height + if height < 106 then 0 else 1536)
      nBits := if height < 51 then 0x2000ffff else retargetedBits.getD (height - 51) 0 }

theorem wrappedChain_target_zero :
    (setCompact (getNextWorkRequired wrappedChain mainParams .sha256d)).value = 0 := by
  decide +kernel

theorem getBlockProof_wrapped_zero :
    Demanded mainParams wrappedChain ∧
    ¬ InPowRange mainParams (getNextWorkRequired wrappedChain mainParams .sha256d) ∧
    ∀ block : CBlockIndex, block.nHeight = 112 →
      getBlockProof mainParams block wrappedChain = 0 ∧
      chainWork mainParams (block :: wrappedChain) = chainWork mainParams wrappedChain := by
  refine ⟨by decide +kernel, fun h => h.2.1 wrappedChain_target_zero, ?_⟩
  intro block hheight
  have hzero : getBlockProof mainParams block wrappedChain = 0 := by
    unfold getBlockProof
    rw [hheight]
    decide +kernel
  exact ⟨hzero, by rw [chainWork, hzero, add_zero]⟩

end ButCore.Pow
