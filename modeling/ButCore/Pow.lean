import ButCore.ArithUint256
import ButCore.Chain
import ButCore.Lib.Scale

/-!
# Difficulty retargeting

The three retarget rules run the same code with different windows, timespans and clamps; a
`RetargetRule` holds what differs.
-/
namespace ButCore.Pow
open ArithUint256 FixedWidth

/-- What distinguishes one retarget rule: how far back the averaging window starts, the number
of algos in the per-algo adjustment, the target timespan and the clamps. -/
structure RetargetRule where
  window : ℕ
  numAlgos : ℕ
  targetTimespan : ℤ
  minTimespan : ℤ
  maxTimespan : ℤ
  targetTimespan_pos : 0 < targetTimespan

def ruleV1 (params : ConsensusParams) : RetargetRule where
  window := NUM_ALGOS * params.nAveragingInterval
  numAlgos := NUM_ALGOS
  targetTimespan := params.nAveragingTargetTimespan
  minTimespan := params.nMinActualTimespan
  maxTimespan := params.nMaxActualTimespan
  targetTimespan_pos := params.targetTimespan_pos

def ruleV2 (params : ConsensusParams) : RetargetRule where
  window := NUM_ALGOSV2 * params.nAveragingInterval
  numAlgos := NUM_ALGOSV2
  targetTimespan := params.nAveragingTargetTimespanV2
  minTimespan := params.nMinActualTimespanV2
  maxTimespan := params.nMaxActualTimespanV2
  targetTimespan_pos := params.targetTimespanV2_pos

def ruleV3 (params : ConsensusParams) (nHeight : ℤ) : RetargetRule where
  window :=
    (if nHeight < params.AlgoChangeHeight then NUM_ALGOSV2 else NUM_ALGOSV3) *
      params.nAveragingInterval
  numAlgos :=
    if nHeight < params.AlgoChangeHeight then NUM_ALGOSV2
    else if nHeight < params.nSwitchHeight then NUM_ALGOSV3
    else NUM_ALGOSV4
  targetTimespan := params.nAveragingTargetTimespanV2
  minTimespan := params.nMinActualTimespanV3
  maxTimespan := params.nMaxActualTimespanV3
  targetTimespan_pos := params.targetTimespanV2_pos

/-- The `fPowAllowMinDifficultyBlocks` test on a block and its `pprev`. -/
def isMinDifficultyBlock (params : ConsensusParams) (pindex : CBlockIndex) (pprev : Chain) :
    Bool :=
  match pprev with
  | [] => false
  | prev :: _ => params.fPowAllowMinDifficultyBlocks &&
      decide (prev.getBlockTime + params.nPowTargetSpacing * 6 < pindex.getBlockTime)

def getLastBlockIndexForAlgo (params : ConsensusParams) (algo : Algo) :
    Chain → Option CBlockIndex
  | [] => none
  | pindex :: pprev =>
    if getAlgo pindex.nVersion ≠ algo then getLastBlockIndexForAlgo params algo pprev
    else if isMinDifficultyBlock params pindex pprev then
      getLastBlockIndexForAlgo params algo pprev
    else some pindex

/-- What the retarget code reads from the chain once none of its early returns is taken. -/
structure RetargetInputs where
  nBits : BitVec 32
  medianTimespan : ℤ
  nAdjustments : ℤ
  deriving DecidableEq

def retargetInputs (rule : RetargetRule) (params : ConsensusParams) (pindexLast : Chain)
    (algo : Algo) : Option RetargetInputs :=
  let pindexFirst := pindexLast.drop rule.window
  match pindexLast, getLastBlockIndexForAlgo params algo pindexLast with
  | last :: _, some pindexPrevAlgo =>
    if pindexFirst.isEmpty || params.fPowNoRetargeting then none
    else some
      { nBits := pindexPrevAlgo.nBits
        medianTimespan := getMedianTimePast pindexLast - getMedianTimePast pindexFirst
        nAdjustments := pindexPrevAlgo.nHeight + rule.numAlgos - 1 - last.nHeight }
  | _, _ => none

/-- Damping by a quarter, truncated towards zero, and then the two clamps. -/
def clampTimespan (rule : RetargetRule) (medianTimespan : ℤ) : ℤ :=
  let damped := rule.targetTimespan + (medianTimespan - rule.targetTimespan).tdiv 4
  let raised := if damped < rule.minTimespan then rule.minTimespan else damped
  if rule.maxTimespan < raised then rule.maxTimespan else raised

/-- `bnNew *= m; bnNew /= d` for signed integers `m` and `d`. -/
def mulDiv (m d : ℤ) (bnNew : ArithUint256) : ArithUint256 :=
  mulU32 bnNew (BitVec.ofInt 32 m) / ofU64 (BitVec.ofInt 64 d)

def globalRetarget (rule : RetargetRule) (nActualTimespan : ℤ) (bnNew : ArithUint256) :
    ArithUint256 :=
  mulDiv nActualTimespan rule.targetTimespan bnNew

def perAlgoRetarget (params : ConsensusParams) (nAdjustments : ℤ) (bnNew : ArithUint256) :
    ArithUint256 :=
  if 0 < nAdjustments then
    (mulDiv 100 (100 + params.nLocalTargetAdjustment))^[nAdjustments.toNat] bnNew
  else if nAdjustments < 0 then
    (mulDiv (100 + params.nLocalTargetAdjustment) 100)^[(-nAdjustments).toNat] bnNew
  else bnNew

def powWorkLimit (params : ConsensusParams) : BitVec 32 := getCompact params.powLimit false

def retarget (rule : RetargetRule) (params : ConsensusParams) (pindexLast : Chain)
    (algo : Algo) : BitVec 32 :=
  match retargetInputs rule params pindexLast algo with
  | none => powWorkLimit params
  | some inputs =>
    let bnOld := (setCompact inputs.nBits).value
    let bnGlobal := globalRetarget rule (clampTimespan rule inputs.medianTimespan) bnOld
    let bnNew := perAlgoRetarget params inputs.nAdjustments bnGlobal
    getCompact (if params.powLimit < bnNew then params.powLimit else bnNew) false

inductive Version where
  | V1 | V2 | V3
  deriving DecidableEq, Repr

def Version.rule (params : ConsensusParams) (pindexLast : Chain) : Version → RetargetRule
  | V1 => ruleV1 params
  | V2 => ruleV2 params
  | V3 => ruleV3 params ((pindexLast.head?.map CBlockIndex.nHeight).getD 0)

def getNextWorkRequiredV1 (pindexLast : Chain) (params : ConsensusParams) (algo : Algo) :
    BitVec 32 :=
  retarget (Version.rule params pindexLast .V1) params pindexLast algo

def getNextWorkRequiredV2 (pindexLast : Chain) (params : ConsensusParams) (algo : Algo) :
    BitVec 32 :=
  retarget (Version.rule params pindexLast .V2) params pindexLast algo

def getNextWorkRequiredV3 (pindexLast : Chain) (params : ConsensusParams) (algo : Algo) :
    BitVec 32 :=
  retarget (Version.rule params pindexLast .V3) params pindexLast algo

def Version.getNextWorkRequired : Version → Chain → ConsensusParams → Algo → BitVec 32
  | V1 => getNextWorkRequiredV1
  | V2 => getNextWorkRequiredV2
  | V3 => getNextWorkRequiredV3

def getNextWorkRequired (pindexLast : Chain) (params : ConsensusParams) (algo : Algo) :
    BitVec 32 :=
  match pindexLast with
  | [] => getNextWorkRequiredV1 pindexLast params algo
  | last :: _ =>
    if last.nHeight < params.v2DiffChangeHeight then
      getNextWorkRequiredV1 pindexLast params algo
    else if last.nHeight < params.v3DiffChangeHeight then
      getNextWorkRequiredV2 pindexLast params algo
    else getNextWorkRequiredV3 pindexLast params algo

def checkProofOfWork (hash : BitVec 256) (nBits : BitVec 32) (params : ConsensusParams) : Bool :=
  let bnTarget := setCompact nBits
  if bnTarget.fNegative || bnTarget.value == 0 || bnTarget.fOverflow ||
      decide (params.powLimit < bnTarget.value) then false
  else if bnTarget.value < hash then false
  else true

/-! ### Bounds of a rule -/

/-- The clamps are positive 32-bit numbers in order, and the divisor is a 64-bit number that is
not smaller than the factor 100 of the per-algo steps. -/
structure RetargetRule.InRange (rule : RetargetRule) : Prop where
  min_pos : 0 < rule.minTimespan
  min_le_max : rule.minTimespan ≤ rule.maxTimespan
  max_lt : rule.maxTimespan < 2 ^ 32
  target_ge : 100 ≤ rule.targetTimespan
  target_lt : rule.targetTimespan < 2 ^ 64

theorem mainRule_timespans (v : Version) (pindexLast : Chain) :
    ((v.rule mainParams pindexLast).targetTimespan, (v.rule mainParams pindexLast).minTimespan,
        (v.rule mainParams pindexLast).maxTimespan) =
      match v with
      | .V1 => (2700, 2484, 3132)
      | .V2 => (3600, 2430, 3024)
      | .V3 => (3600, 3240, 4032) := by
  cases v <;> rfl

theorem mainRule_inRange (v : Version) (pindexLast : Chain) :
    (v.rule mainParams pindexLast).InRange := by
  have h := mainRule_timespans v pindexLast
  cases v <;>
    · obtain ⟨htarget, hmin, hmax⟩ := by simpa only [Prod.mk.injEq] using h
      constructor <;> omega

theorem clampTimespan_bounds {rule : RetargetRule} (h : rule.InRange) (span : ℤ) :
    0 < clampTimespan rule span ∧ clampTimespan rule span < 2 ^ 32 := by
  have hpos := h.min_pos
  have hle := h.min_le_max
  have hlt := h.max_lt
  unfold clampTimespan
  dsimp only
  split_ifs <;> omega

/-! ### The retarget step over the naturals -/

def exactGlobal (rule : RetargetRule) (nActualTimespan : ℤ) (x : ℕ) : ℕ :=
  scale nActualTimespan.toNat rule.targetTimespan.toNat x

def exactPerAlgo (params : ConsensusParams) (nAdjustments : ℤ) (x : ℕ) : ℕ :=
  if 0 < nAdjustments then
    (scale 100 (100 + params.nLocalTargetAdjustment).toNat)^[nAdjustments.toNat] x
  else if nAdjustments < 0 then
    (scale (100 + params.nLocalTargetAdjustment).toNat 100)^[(-nAdjustments).toNat] x
  else x

def exactTarget (rule : RetargetRule) (params : ConsensusParams) (inputs : RetargetInputs) : ℕ :=
  exactPerAlgo params inputs.nAdjustments
    (exactGlobal rule (clampTimespan rule inputs.medianTimespan)
      (setCompact inputs.nBits).value.toNat)

def PerAlgoFits (params : ConsensusParams) (nAdjustments : ℤ) (x : ℕ) : Prop :=
  (0 < nAdjustments →
    StepsFit 256 100 (100 + params.nLocalTargetAdjustment).toNat nAdjustments.toNat x) ∧
  (nAdjustments < 0 →
    StepsFit 256 (100 + params.nLocalTargetAdjustment).toNat 100 (-nAdjustments).toNat x)

def ProductsFit (rule : RetargetRule) (params : ConsensusParams) (inputs : RetargetInputs) :
    Prop :=
  let bnOld := (setCompact inputs.nBits).value.toNat
  let nActualTimespan := clampTimespan rule inputs.medianTimespan
  bnOld * nActualTimespan.toNat < 2 ^ 256 ∧
    PerAlgoFits params inputs.nAdjustments (exactGlobal rule nActualTimespan bnOld)

theorem mulDiv_eq_scaleBV (m d : ℤ) :
    mulDiv m d = scaleBV ((BitVec.ofInt 32 m).setWidth 256) (ofU64 (BitVec.ofInt 64 d)) := rfl

theorem ofInt_setWidth_toNat {w : ℕ} {m : ℤ} (hw : w ≤ 256) (h0 : 0 ≤ m) (h : m < 2 ^ w) :
    ((BitVec.ofInt w m).setWidth 256).toNat = m.toNat := by
  have hlt : m.toNat < 2 ^ w := by
    rw [Int.toNat_lt h0]
    exact_mod_cast h
  have h256 : 2 ^ w ≤ 2 ^ 256 := Nat.pow_le_pow_right (by decide) hw
  rw [BitVec.toNat_setWidth, BitVec.toNat_ofInt, Int.emod_eq_of_lt h0 (by exact_mod_cast h)]
  exact Nat.mod_eq_of_lt (lt_of_lt_of_le hlt h256)

theorem mulDiv_iterate_toNat {m d : ℤ} (hm0 : 0 ≤ m) (hm : m < 2 ^ 32) (hd0 : 0 ≤ d)
    (hd : d < 2 ^ 64) (n : ℕ) (x : ArithUint256)
    (hfit : StepsFit 256 m.toNat d.toNat n x.toNat) :
    ((mulDiv m d)^[n] x).toNat = (scale m.toNat d.toNat)^[n] x.toNat := by
  have hmNat := ofInt_setWidth_toNat (by decide) hm0 hm
  have hdNat : (ofU64 (BitVec.ofInt 64 d)).toNat = d.toNat :=
    ofInt_setWidth_toNat (by decide) hd0 hd
  rw [← hmNat, ← hdNat] at hfit ⊢
  rw [mulDiv_eq_scaleBV]
  exact iterate_scaleBV_toNat _ _ n x hfit

theorem globalRetarget_toNat {rule : RetargetRule} (h : rule.InRange) (span : ℤ)
    (x : ArithUint256) (hfit : x.toNat * (clampTimespan rule span).toNat < 2 ^ 256) :
    (globalRetarget rule (clampTimespan rule span) x).toNat =
      exactGlobal rule (clampTimespan rule span) x.toNat := by
  obtain ⟨hpos, hlt⟩ := clampTimespan_bounds h span
  exact mulDiv_iterate_toNat hpos.le hlt rule.targetTimespan_pos.le h.target_lt 1 x
    ⟨hfit, trivial⟩

theorem perAlgoRetarget_toNat {params : ConsensusParams}
    (hadj : 100 + params.nLocalTargetAdjustment < 2 ^ 32) (n : ℤ) (x : ArithUint256)
    (hfit : PerAlgoFits params n x.toNat) :
    (perAlgoRetarget params n x).toNat = exactPerAlgo params n x.toNat := by
  have hadj0 := params.localTargetAdjustment_nonneg
  unfold perAlgoRetarget exactPerAlgo
  split_ifs with hpos hneg
  · exact mulDiv_iterate_toNat (by decide) (by decide) (by omega) (by omega) _ x (hfit.1 hpos)
  · exact mulDiv_iterate_toNat (by omega) hadj (by decide) (by decide) _ x (hfit.2 hneg)
  · rfl

theorem cap_eq_ofNat_min (powLimit x : ArithUint256) :
    (if powLimit < x then powLimit else x) = BitVec.ofNat 256 (min powLimit.toNat x.toNat) := by
  split_ifs with h
  · rw [Nat.min_eq_left (le_of_lt h), BitVec.ofNat_toNat, BitVec.setWidth_eq]
  · rw [Nat.min_eq_right (not_lt.mp h), BitVec.ofNat_toNat, BitVec.setWidth_eq]

theorem retarget_eq_of_productsFit {rule : RetargetRule} (h : rule.InRange)
    {params : ConsensusParams} (hadj : 100 + params.nLocalTargetAdjustment < 2 ^ 32)
    {pindexLast : Chain} {algo : Algo} {inputs : RetargetInputs}
    (hin : retargetInputs rule params pindexLast algo = some inputs)
    (hfit : ProductsFit rule params inputs) :
    retarget rule params pindexLast algo =
      getCompact (BitVec.ofNat 256 (min params.powLimit.toNat (exactTarget rule params inputs)))
        false := by
  obtain ⟨hglobal, hlocal⟩ := hfit
  have hg := globalRetarget_toNat h inputs.medianTimespan _ hglobal
  rw [← hg] at hlocal
  have hl := perAlgoRetarget_toNat hadj inputs.nAdjustments _ hlocal
  simp only [retarget, hin]
  rw [cap_eq_ofNat_min, hl, hg, exactTarget]

/-! ### When the products fit -/

/-- The largest decoded target for which no product of the retarget code wraps. The growing
per-algo steps pull their own limit back through the global step. -/
def targetLimit (rule : RetargetRule) (params : ConsensusParams)
    (nActualTimespan nAdjustments : ℤ) : ℕ :=
  let globalLimit := (2 ^ 256 - 1) / nActualTimespan.toNat
  if nAdjustments < 0 then
    let localLimit :=
      stepLimit 256 (100 + params.nLocalTargetAdjustment).toNat 100 (-nAdjustments).toNat
    min globalLimit
      ((rule.targetTimespan.toNat * localLimit + (rule.targetTimespan.toNat - 1)) /
        nActualTimespan.toNat)
  else globalLimit

theorem perAlgoFits_of_nonneg {rule : RetargetRule} (h : rule.InRange) (params : ConsensusParams)
    {n : ℤ} (hn : 0 ≤ n) (a : ℤ) {x : ℕ} (hfit : x * a.toNat < 2 ^ 256) :
    PerAlgoFits params n (exactGlobal rule a x) := by
  have hadj := params.localTargetAdjustment_nonneg
  have hge := h.target_ge
  refine ⟨fun _ => stepsFit_of_le (by omega) _ ?_, fun hneg => absurd hneg (by omega)⟩
  calc exactGlobal rule a x * 100
      ≤ exactGlobal rule a x * rule.targetTimespan.toNat := Nat.mul_le_mul_left _ (by omega)
    _ ≤ x * a.toNat := Nat.div_mul_le_self _ _
    _ < 2 ^ 256 := hfit

theorem perAlgoFits_neg_iff {params : ConsensusParams} {n : ℤ} (hn : n < 0) (x : ℕ) :
    PerAlgoFits params n x ↔
      x ≤ stepLimit 256 (100 + params.nLocalTargetAdjustment).toNat 100 (-n).toNat := by
  have hadj := params.localTargetAdjustment_nonneg
  obtain ⟨k, hk⟩ : ∃ k, (-n).toNat = k + 1 := ⟨(-n).toNat - 1, by omega⟩
  rw [PerAlgoFits, hk, ← stepsFit_iff_le_stepLimit (by decide) (by omega)]
  constructor
  · intro hfit
    exact hfit.2 hn
  · intro hfit
    exact ⟨fun hpos => absurd hpos (by omega), fun _ => hfit⟩

theorem productsFit_iff_le_targetLimit {rule : RetargetRule} (h : rule.InRange)
    (params : ConsensusParams) (inputs : RetargetInputs) :
    ProductsFit rule params inputs ↔
      (setCompact inputs.nBits).value.toNat ≤
        targetLimit rule params (clampTimespan rule inputs.medianTimespan)
          inputs.nAdjustments := by
  obtain ⟨hpos, -⟩ := clampTimespan_bounds h inputs.medianTimespan
  have htarget := rule.targetTimespan_pos
  simp only [ProductsFit]
  generalize clampTimespan rule inputs.medianTimespan = a at hpos ⊢
  generalize (setCompact inputs.nBits).value.toNat = x
  have haNat : 0 < a.toNat := by omega
  have hglobal : x * a.toNat < 2 ^ 256 ↔ x ≤ (2 ^ 256 - 1) / a.toNat := by
    rw [Nat.le_div_iff_mul_le haNat]
    omega
  rw [targetLimit]
  by_cases hn : inputs.nAdjustments < 0
  · rw [if_pos hn, perAlgoFits_neg_iff hn, exactGlobal, scale_le_iff haNat (by omega), hglobal]
    exact le_min_iff.symm
  · rw [if_neg hn, ← hglobal]
    exact and_iff_left_of_imp (perAlgoFits_of_nonneg h params (not_lt.mp hn) a)

/-- No product wraps, and the rule returns the compact form of the capped exact target. -/
def Version.Exact (v : Version) (params : ConsensusParams) (pindexLast : Chain) (algo : Algo)
    (inputs : RetargetInputs) : Prop :=
  ProductsFit (v.rule params pindexLast) params inputs ∧
    v.getNextWorkRequired pindexLast params algo =
      getCompact (BitVec.ofNat 256
        (min params.powLimit.toNat (exactTarget (v.rule params pindexLast) params inputs))) false

theorem Version.getNextWorkRequired_eq_retarget (v : Version) (params : ConsensusParams)
    (pindexLast : Chain) (algo : Algo) :
    v.getNextWorkRequired pindexLast params algo =
      retarget (v.rule params pindexLast) params pindexLast algo := by
  cases v <;> rfl

/-- Every mainnet retarget is exact up to the limit of its start target and wraps above it. -/
theorem getNextWorkRequired_exact_iff (v : Version) (pindexLast : Chain) (algo : Algo)
    (inputs : RetargetInputs)
    (hin : retargetInputs (v.rule mainParams pindexLast) mainParams pindexLast algo =
      some inputs) :
    v.Exact mainParams pindexLast algo inputs ↔
      (setCompact inputs.nBits).value.toNat ≤
        targetLimit (v.rule mainParams pindexLast) mainParams
          (clampTimespan (v.rule mainParams pindexLast) inputs.medianTimespan)
          inputs.nAdjustments := by
  have hrange := mainRule_inRange v pindexLast
  rw [← productsFit_iff_le_targetLimit hrange mainParams inputs]
  refine ⟨fun h => h.1, fun h => ⟨h, ?_⟩⟩
  rw [Version.getNextWorkRequired_eq_retarget]
  exact retarget_eq_of_productsFit hrange (by decide) hin h

def evenChain (nBits : BitVec 32) (spacing n : ℕ) : Chain :=
  (List.range n).reverse.map fun height : ℕ =>
    { nHeight := height
      nVersion := BLOCK_VERSION_BUTKSCRYPT
      nTime := BitVec.ofNat 32 (spacing * height)
      nBits := nBits }

theorem getNextWorkRequired_exact_evenChain :
    Version.V3.Exact mainParams (evenChain 0x1e0fffff 90 51) .butkscrypt
      ⟨0x1e0fffff, 4050, 4⟩ :=
  (getNextWorkRequired_exact_iff .V3 (evenChain 0x1e0fffff 90 51) .butkscrypt
    ⟨0x1e0fffff, 4050, 4⟩ (by decide)).mpr (by decide)

/-- A chain at the proof-of-work limit: the product with the timespan wraps, and the returned
target is not the exact one. -/
theorem getNextWorkRequired_wraps :
    let chain := evenChain 0x2000ffff 90 51
    let inputs : RetargetInputs := ⟨0x2000ffff, 4050, 4⟩
    (∀ b ∈ chain, 0 < (setCompact b.nBits).value ∧
      (setCompact b.nBits).value ≤ mainParams.powLimit) ∧
    retargetInputs (Version.V3.rule mainParams chain) mainParams chain .butkscrypt = some inputs ∧
    ¬ ProductsFit (Version.V3.rule mainParams chain) mainParams inputs ∧
    getNextWorkRequiredV3 chain mainParams .butkscrypt ≠
      getCompact (BitVec.ofNat 256 (min mainParams.powLimit.toNat
        (exactTarget (Version.V3.rule mainParams chain) mainParams inputs))) false := by
  refine ⟨by decide, by decide, fun h => ?_, by decide⟩
  exact absurd h.1 (by decide)

/-! ### Direction of the global step -/

def RetargetRule.FollowsWindow (rule : RetargetRule) (inputs : RetargetInputs) : Prop :=
  let bnOld := (setCompact inputs.nBits).value.toNat
  let bnNew := exactGlobal rule (clampTimespan rule inputs.medianTimespan) bnOld
  (rule.targetTimespan ≤ inputs.medianTimespan → bnOld ≤ bnNew) ∧
    (inputs.medianTimespan ≤ rule.targetTimespan → bnNew ≤ bnOld)

theorem le_clampTimespan {rule : RetargetRule} (hmax : rule.targetTimespan ≤ rule.maxTimespan)
    {span : ℤ} (h : rule.targetTimespan ≤ span) :
    rule.targetTimespan ≤ clampTimespan rule span := by
  have hquarter : 0 ≤ (span - rule.targetTimespan).tdiv 4 :=
    Int.tdiv_nonneg (by omega) (by decide)
  unfold clampTimespan
  dsimp only
  split_ifs <;> omega

theorem clampTimespan_le {rule : RetargetRule} (hmin : rule.minTimespan ≤ rule.targetTimespan)
    {span : ℤ} (h : span ≤ rule.targetTimespan) :
    clampTimespan rule span ≤ rule.targetTimespan := by
  have hquarter : 0 ≤ (-(span - rule.targetTimespan)).tdiv 4 :=
    Int.tdiv_nonneg (by omega) (by decide)
  rw [Int.neg_tdiv] at hquarter
  unfold clampTimespan
  dsimp only
  split_ifs <;> omega

theorem le_exactGlobal {rule : RetargetRule} {a : ℤ} (h : rule.targetTimespan ≤ a) (x : ℕ) :
    x ≤ exactGlobal rule a x := by
  have hpos := rule.targetTimespan_pos
  rw [exactGlobal, scale, Nat.le_div_iff_mul_le (by omega)]
  exact Nat.mul_le_mul_left x (by omega)

theorem exactGlobal_le {rule : RetargetRule} {a : ℤ} (h : a ≤ rule.targetTimespan) (x : ℕ) :
    exactGlobal rule a x ≤ x :=
  scale_le_self (by omega) x

theorem exactGlobal_lt {rule : RetargetRule} {a : ℤ} (h : a < rule.targetTimespan) {x : ℕ}
    (hx : 0 < x) : exactGlobal rule a x < x := by
  have hpos := rule.targetTimespan_pos
  rw [exactGlobal, scale, Nat.div_lt_iff_lt_mul (by omega)]
  exact Nat.mul_lt_mul_of_pos_left (by omega) hx

theorem followsWindow_of_clamps {rule : RetargetRule}
    (hmin : rule.minTimespan ≤ rule.targetTimespan)
    (hmax : rule.targetTimespan ≤ rule.maxTimespan) (inputs : RetargetInputs) :
    rule.FollowsWindow inputs :=
  ⟨fun h => le_exactGlobal (le_clampTimespan hmax h) _,
    fun h => exactGlobal_le (clampTimespan_le hmin h) _⟩

theorem followsWindow_iff_of_low_clamp {rule : RetargetRule}
    (hmin : rule.minTimespan ≤ rule.targetTimespan)
    (hmax : rule.maxTimespan < rule.targetTimespan) (inputs : RetargetInputs) :
    rule.FollowsWindow inputs ↔
      inputs.medianTimespan < rule.targetTimespan ∨ (setCompact inputs.nBits).value.toNat = 0 := by
  have hclamp : clampTimespan rule inputs.medianTimespan < rule.targetTimespan := by
    unfold clampTimespan
    dsimp only
    split_ifs <;> omega
  constructor
  · rintro ⟨hlong, -⟩
    by_contra hcon
    rw [not_or, not_lt] at hcon
    exact absurd (hlong hcon.1) (not_le.mpr (exactGlobal_lt hclamp (Nat.pos_of_ne_zero hcon.2)))
  · rintro (hshort | hzero)
    · exact ⟨fun h => absurd h (not_le.mpr hshort), fun _ => exactGlobal_le hclamp.le _⟩
    · exact ⟨fun _ => by simp only [hzero, Nat.zero_le], fun _ => exactGlobal_le hclamp.le _⟩

theorem mainRule_followsWindow_iff (v : Version) (pindexLast : Chain) (inputs : RetargetInputs) :
    (v.rule mainParams pindexLast).FollowsWindow inputs ↔
      v ≠ .V2 ∨ inputs.medianTimespan < 3600 ∨ (setCompact inputs.nBits).value.toNat = 0 := by
  have htimes := mainRule_timespans v pindexLast
  cases v with
  | V1 =>
    simp only [Prod.mk.injEq] at htimes
    refine iff_of_true (followsWindow_of_clamps ?_ ?_ inputs) (Or.inl (by decide))
    · omega
    · omega
  | V2 =>
    simp only [Prod.mk.injEq] at htimes
    rw [followsWindow_iff_of_low_clamp (by omega) (by omega), htimes.1]
    exact (or_iff_right (not_not.mpr rfl)).symm
  | V3 =>
    simp only [Prod.mk.injEq] at htimes
    refine iff_of_true (followsWindow_of_clamps ?_ ?_ inputs) (Or.inl (by decide))
    · omega
    · omega

/-- The law on a chain: it binds whenever the rule reaches its retarget code. -/
def Version.FollowsWindow (v : Version) (params : ConsensusParams) (pindexLast : Chain)
    (algo : Algo) : Prop :=
  ∀ inputs, retargetInputs (v.rule params pindexLast) params pindexLast algo = some inputs →
    (v.rule params pindexLast).FollowsWindow inputs

/-- The V2 clamps both lie below the V2 target timespan of 3600 seconds, so the V2 rule lowers
the target after every long window; the other two rules follow the window. -/
theorem globalRetarget_direction_iff (v : Version) (pindexLast : Chain) (algo : Algo) :
    v.FollowsWindow mainParams pindexLast algo ↔
      ∀ inputs, retargetInputs (v.rule mainParams pindexLast) mainParams pindexLast algo =
        some inputs →
      v ≠ .V2 ∨ inputs.medianTimespan < 3600 ∨ (setCompact inputs.nBits).value.toNat = 0 :=
  forall₂_congr fun inputs _ => mainRule_followsWindow_iff v pindexLast inputs

/-- Blocks two minutes apart: the window took 4200 seconds, and the V2 rule still lowers the
target. -/
theorem globalRetarget_direction_fails :
    ¬ Version.V2.FollowsWindow mainParams (evenChain 0x1e0fffff 120 41) .butkscrypt := by
  intro h
  have hlong := (h ⟨0x1e0fffff, 4200, 3⟩ (by decide)).1 (by decide)
  exact absurd hlong (by decide)

end ButCore.Pow
