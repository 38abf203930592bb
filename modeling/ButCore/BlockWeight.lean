import ButCore.BlockProof

/-!
# Harder targets weigh more

`GetBlockProof` divides by the product of the roots with the shift-and-subtract division of
`base_uint`.
-/
namespace ButCore.ArithUint256
open BitSearch

/-! ### The division -/

/-- The loop of `operator/=` from the bit below `shift` down. -/
def divLoop : ℕ → ArithUint256 → ArithUint256 → ArithUint256 → ArithUint256
  | 0, _, _, quotient => quotient
  | shift + 1, num, div, quotient =>
    if div ≤ num then
      divLoop shift (num - div) (div >>> 1) (quotient ||| (1 : ArithUint256) <<< shift)
    else divLoop shift num (div >>> 1) quotient

/-- `operator/=`; `none` is the exception for a divisor of zero. -/
def divide (num div : ArithUint256) : Option ArithUint256 :=
  if bits div = 0 then none
  else if bits num < bits div then some 0
  else
    let shift := bits num - bits div
    some (divLoop (shift + 1) num (div <<< shift) 0)

theorem or_shiftLeft_toNat {quotient : ArithUint256} {shift q : ℕ}
    (hq : quotient.toNat = 2 ^ (shift + 1) * q) (hshift : shift < 256) :
    (quotient ||| (1 : ArithUint256) <<< shift).toNat = 2 ^ shift * (2 * q + 1) := by
  have hone : ((1 : ArithUint256) <<< shift).toNat = 1 <<< shift := by
    rw [BitVec.toNat_shiftLeft, show (1 : ArithUint256).toNat = 1 from rfl, Nat.one_shiftLeft]
    exact Nat.mod_eq_of_lt (Nat.pow_lt_pow_right (by decide) hshift)
  rw [BitVec.toNat_or, hq, hone, or_one_shiftLeft]

/-- With `shift` bits to go the divisor stands below bit `shift`, the quotient so far has no bit
there, and what is left of the number is below the divisor moved up once more. -/
theorem divLoop_toNat {d : ℕ} (hd : 0 < d) (shift : ℕ) (num div quotient : ArithUint256) (q : ℕ)
    (hshift : shift ≤ 256) (hdiv : ∀ s, shift = s + 1 → div.toNat = d * 2 ^ s)
    (hnum : num.toNat < d * 2 ^ shift) (hq : quotient.toNat = 2 ^ shift * q) :
    (divLoop shift num div quotient).toNat = 2 ^ shift * q + num.toNat / d := by
  induction shift generalizing num div quotient q with
  | zero =>
    rw [divLoop, hq, Nat.div_eq_of_lt (by simpa using hnum), Nat.add_zero]
  | succ shift ih =>
    have hcur := hdiv shift rfl
    have hnext : ∀ s, shift = s + 1 → (div >>> 1).toNat = d * 2 ^ s := by
      rintro s rfl
      rw [BitVec.toNat_ushiftRight, hcur, Nat.shiftRight_one, Nat.pow_succ, ← Nat.mul_assoc,
        Nat.mul_div_cancel _ (by decide)]
    have htwice : d * 2 ^ (shift + 1) = d * 2 ^ shift + d * 2 ^ shift := by ring
    by_cases hle : div ≤ num
    · have hge : d * 2 ^ shift ≤ num.toNat := hcur ▸ hle
      have hsub : (num - div).toNat = num.toNat - d * 2 ^ shift := by
        rw [BitVec.toNat_sub_of_le hle, hcur]
      have hset := or_shiftLeft_toNat hq (by omega)
      rw [divLoop, if_pos hle,
        ih _ _ _ (2 * q + 1) (by omega) hnext (by rw [hsub]; omega) hset, hsub]
      have hdivide : num.toNat / d = 2 ^ shift + (num.toNat - d * 2 ^ shift) / d := by
        conv_lhs => rw [← Nat.add_sub_cancel' hge]
        rw [Nat.add_comm, Nat.add_mul_div_left _ _ hd, Nat.add_comm]
      rw [hdivide]
      ring
    · have hlt : num.toNat < d * 2 ^ shift := by
        rw [← hcur]
        exact not_le.mp hle
      have heven : quotient.toNat = 2 ^ shift * (2 * q) := by
        rw [hq]
        ring
      rw [divLoop, if_neg hle, ih _ _ _ (2 * q) (by omega) hnext hlt heven]
      ring

variable {x : ArithUint256}

theorem bits_eq_zero : bits x = 0 ↔ x = 0 := by
  unfold bits
  split <;> simp_all

theorem divide_eq {div : ArithUint256} (hdiv : div ≠ 0) (num : ArithUint256) :
    divide num div = some (num / div) := by
  have hpos : 0 < div.toNat := by
    rw [Nat.pos_iff_ne_zero]
    intro hzero
    exact hdiv (BitVec.eq_of_toNat_eq hzero)
  have hbits : bits div ≠ 0 := fun h => hdiv (bits_eq_zero.mp h)
  unfold divide
  rw [if_neg hbits]
  by_cases hlt : bits num < bits div
  · rw [if_pos hlt]
    -- the number has fewer bits than the divisor
    have hsmall : num.toNat < div.toNat := by
      calc num.toNat < 2 ^ bits num := toNat_lt_two_pow_bits num
        _ ≤ 2 ^ (bits div - 1) := Nat.pow_le_pow_right (by decide) (by omega)
        _ ≤ div.toNat := two_pow_le_of_lt_bits (by omega)
    congr 1
    apply BitVec.eq_of_toNat_eq
    rw [BitVec.toNat_udiv, Nat.div_eq_of_lt hsmall]
    rfl
  · rw [if_neg hlt]
    have hle := bits_le num
    have hnum := toNat_lt_two_pow_bits num
    have htop : 2 ^ (bits div - 1) ≤ div.toNat := two_pow_le_of_lt_bits (by omega)
    generalize hshift : bits num - bits div = shift at *
    have hfit : div.toNat * 2 ^ shift < 2 ^ 256 := by
      calc div.toNat * 2 ^ shift < 2 ^ bits div * 2 ^ shift :=
            Nat.mul_lt_mul_of_pos_right (toNat_lt_two_pow_bits div) (Nat.two_pow_pos shift)
        _ = 2 ^ bits num := by rw [← Nat.pow_add, ← hshift, Nat.add_sub_cancel' (not_lt.mp hlt)]
        _ ≤ 2 ^ 256 := Nat.pow_le_pow_right (by decide) hle
    have hmoved : (div <<< shift).toNat = div.toNat * 2 ^ shift := by
      rw [BitVec.toNat_shiftLeft, Nat.shiftLeft_eq, Nat.mod_eq_of_lt hfit]
    have hbelow : num.toNat < div.toNat * 2 ^ (shift + 1) := by
      calc num.toNat < 2 ^ bits num := hnum
        _ = 2 ^ (bits div - 1) * 2 ^ (shift + 1) := by
            rw [← Nat.pow_add]
            congr 1
            omega
        _ ≤ div.toNat * 2 ^ (shift + 1) := Nat.mul_le_mul_right _ htop
    dsimp only
    congr 1
    apply BitVec.eq_of_toNat_eq
    rw [divLoop_toNat hpos (shift + 1) num (div <<< shift) 0 0 (by omega)
      (fun s hs => by rw [hmoved, Nat.succ.inj hs]) hbelow rfl, BitVec.toNat_udiv,
      Nat.mul_zero, Nat.zero_add]

/-! ### The root is monotone -/

variable {y : ArithUint256}

theorem bits_mono (h : x.toNat ≤ y.toNat) : bits x ≤ bits y := by
  by_contra hlt
  have hbelow := toNat_lt_two_pow_bits y
  have habove := two_pow_le_of_lt_bits (not_le.mp hlt)
  omega

theorem approxNthRoot_mono {n : ℕ} (hn : 0 < n) (hn64 : n ≤ 64) (h : x.toNat ≤ y.toNat) : (approxNthRoot x n).toNat ≤ (approxNthRoot y n).toNat := by
  obtain ⟨rx, hlt, hx, hroot, -⟩ := approxNthRoot_parts hn hn64 x
  obtain ⟨ry, -, hy, -, hgreatest⟩ := approxNthRoot_parts hn hn64 y
  have hshift : nShifts x n ≤ nShifts y n := by
    have hquot : (bits x - 1) / n ≤ (bits y - 1) / n :=
      Nat.div_le_div_right (Nat.sub_le_sub_right (bits_mono h) 1)
    unfold nShifts
    omega
  rcases hshift.eq_or_lt with heq | hless
  · rw [hx, hy, heq]
    refine Nat.mul_le_mul_right _ (hgreatest rx hlt (le_trans hroot ?_))
    rw [heq]
    exact Nat.div_le_div_right h
  · have hexp : nShifts y n + 64 / n = (bits y - 1) / n + 1 := by
      unfold nShifts at hless ⊢
      omega
    have hpow : 2 ^ ((bits y - 1) / n) ≤ (approxNthRoot y n).toNat := by
      apply (approxNthRoot_spec hn hn64 y).2
      apply two_pow_le_of_lt_bits
      have hmul := Nat.mul_div_le (bits y - 1) n
      have hpos : bits y ≠ 0 := by
        intro hzero
        unfold nShifts at hless
        have hbit : 0 < 64 / n := Nat.div_pos hn64 hn
        rw [hzero, Nat.zero_sub, Nat.zero_div] at hless
        omega
      omega
    calc (approxNthRoot x n).toNat = rx * 2 ^ nShifts x n := hx
      _ ≤ 2 ^ (64 / n) * 2 ^ nShifts x n := Nat.mul_le_mul_right _ hlt.le
      _ = 2 ^ (64 / n + nShifts x n) := (Nat.pow_add _ _ _).symm
      _ ≤ 2 ^ ((bits y - 1) / n) := Nat.pow_le_pow_right (by decide) (by omega)
      _ ≤ (approxNthRoot y n).toNat := hpow

/-- The head has no more bits than the search. -/
theorem head_lt (hn : 0 < n) (hn64 : n ≤ 64) (x : ArithUint256) :
    x.toNat / 2 ^ (n * nShifts x n) < (2 ^ (64 / n)) ^ n := by
  obtain ⟨-, -, henough⟩ := nShifts_bounds hn hn64 (bits x)
  have hbits : bits x ≤ n * (nShifts x n + 64 / n) :=
    not_lt.mp fun h => lt_irrefl _ (henough _ h)
  rw [Nat.div_lt_iff_lt_mul (Nat.two_pow_pos _), ← Nat.pow_mul, ← Nat.pow_add]
  refine lt_of_lt_of_le (toNat_lt_two_pow_bits x) (Nat.pow_le_pow_right (by decide) ?_)
  rw [Nat.mul_comm (64 / n), ← Nat.mul_add, Nat.add_comm]
  exact hbits

theorem lt_next_root_pow (hn : 0 < n) (hn64 : n ≤ 64) (x : ArithUint256) :
    x.toNat < ((approxNthRoot x n).toNat + 2 ^ nShifts x n) ^ n := by
  obtain ⟨r, hlt, hval, -, hgreatest⟩ := approxNthRoot_parts hn hn64 x
  have hhead : x.toNat / 2 ^ (n * nShifts x n) < (r + 1) ^ n := by
    rcases Nat.lt_or_ge (r + 1) (2 ^ (64 / n)) with hfit | hfull
    · by_contra hge
      have := hgreatest (r + 1) hfit (not_lt.mp hge)
      omega
    · exact lt_of_lt_of_le (head_lt hn hn64 x) (Nat.pow_le_pow_left hfull n)
  rw [hval, ← Nat.succ_mul, Nat.mul_pow, ← Nat.pow_mul, Nat.mul_comm (nShifts x n)]
  exact (Nat.div_lt_iff_lt_mul (Nat.two_pow_pos _)).mp hhead

/-- The inner loop's products for a candidate, without the reduction to 64 bits. -/
theorem candidate_pow_lt (hn : 0 < n) {nHead nNext j : ℕ} (hj : j ≤ n)
    (h : nNext ∈ candidates (fun nNext => nthPower n nNext ≤ nHead) (64 / n) 0) :
    nNext ^ j < 2 ^ 64 := by
  have hlt : nNext < 2 ^ (64 / n) := by
    simpa using lt_of_mem_candidates (q := 0) (by simpa using h)
  rcases Nat.eq_zero_or_pos nNext with rfl | hpos
  · exact lt_of_le_of_lt (zero_pow_le_one j) (by decide)
  · exact lt_of_le_of_lt (Nat.pow_le_pow_right hpos hj) (pow_lt_of_lt_root hn hlt)

theorem approxNthRoot_brackets {n : ℕ} (hn : 1 < n) (hn64 : n < 64) (x : ArithUint256) :
    let r := (approxNthRoot x n).toNat
    let s := nShifts x n
    (∃ q, r = q * 2 ^ s) ∧ r ^ n ≤ x.toNat ∧ x.toNat < (r + 2 ^ s) ^ n ∧
      (x >>> (n * s)).toNat < 2 ^ 64 ∧
      (∀ nNext ∈ candidates (fun nNext => nthPower n nNext ≤ (x >>> (n * s)).toNat) (64 / n) 0,
        ∀ j ≤ n, nNext ^ j < 2 ^ 64) ∧
      ∀ y : ArithUint256, x.toNat ≤ y.toNat → r ≤ (approxNthRoot y n).toNat := by
  have hpos : 0 < n := by omega
  intro r s
  obtain ⟨q, -, hval, -, -⟩ := approxNthRoot_parts hpos hn64.le x
  refine ⟨⟨q, hval⟩, (approxNthRoot_spec hpos hn64.le x).1, lt_next_root_pow hpos hn64.le x, ?_,
    fun nNext h j hj => candidate_pow_lt hpos hj h,
    fun y h => approxNthRoot_mono hpos hn64.le h⟩
  rw [BitVec.toNat_ushiftRight, Nat.shiftRight_eq_div_pow, ← head_toNat hpos hn64.le x]
  exact BitVec.isLt _

theorem approxNthRoot_brackets_cube :
    (1 < 3 ∧ 3 < 64) ∧ (approxNthRoot 1000 3).toNat ^ 3 ≤ 1000 :=
  ⟨by decide, (approxNthRoot_brackets (by decide) (by decide) 1000).2.1⟩

theorem approxNthRoot_pos {n : ℕ} (hn : 0 < n) (hn64 : n ≤ 64) (h : 0 < x.toNat) : 0 < (approxNthRoot x n).toNat :=
  (approxNthRoot_spec hn hn64 x).2 0 (by rwa [Nat.mul_zero, Nat.pow_zero])

end ButCore.ArithUint256

namespace ButCore.Pow
open ArithUint256

/-! ### The product of the roots -/

def avgTarget (n : ℕ) (targets : List ArithUint256) : ArithUint256 :=
  targets.foldl (fun bnAvgTarget bnTarget => bnAvgTarget * approxNthRoot bnTarget n) 1

def unscaledProof (bnAvgTarget : ArithUint256) : Option ArithUint256 :=
  (divide (~~~bnAvgTarget) (bnAvgTarget + 1)).map (· + 1)

def nextTargets (params : ConsensusParams) (pprev : Chain) (n : ℕ) : List ArithUint256 :=
  (algos.take n).map fun algo => (setCompact (getNextWorkRequired pprev params algo)).value

def rootProduct (n : ℕ) (targets : List ArithUint256) : ℕ :=
  (targets.map fun bnTarget => (approxNthRoot bnTarget n).toNat).prod

section

variable {n : ℕ} (hn : 0 < n) (hn64 : n ≤ 64)

include hn hn64

variable {targets : List ArithUint256}

theorem rootProduct_pos (h : ∀ t ∈ targets, 0 < t.toNat) :
    0 < rootProduct n targets := by
  apply List.prod_pos
  simp only [List.mem_map]
  rintro _ ⟨t, ht, rfl⟩
  exact approxNthRoot_pos hn hn64 (h t ht)

variable {limit : ℕ}

theorem rootProduct_pow_le (h : ∀ t ∈ targets, t.toNat ≤ limit) : rootProduct n targets ^ n ≤ limit ^ targets.length := by
  induction targets with
  | nil => simp [rootProduct]
  | cons t rest ih =>
    rw [List.forall_mem_cons] at h
    rw [rootProduct, List.map_cons, List.prod_cons, Nat.mul_pow, List.length_cons,
      Nat.pow_succ, Nat.mul_comm]
    exact Nat.mul_le_mul (ih h.2) (le_trans (approxNthRoot_spec hn hn64 t).1 h.1)

theorem rootProduct_le (hlength : targets.length = n) (h : ∀ t ∈ targets, t.toNat ≤ limit) : rootProduct n targets ≤ limit := by
  rw [← Nat.pow_le_pow_iff_left hn.ne']
  exact hlength ▸ rootProduct_pow_le hn hn64 h

theorem rootProduct_mono {harder : List ArithUint256} (h : List.Forall₂ (· ≤ ·) harder targets) : rootProduct n harder ≤ rootProduct n targets := by
  induction h with
  | nil => exact le_rfl
  | cons hle _ ih => exact Nat.mul_le_mul (approxNthRoot_mono hn hn64 hle) ih

theorem foldl_mul_toNat (h : ∀ t ∈ targets, 0 < t.toNat) (bnAvgTarget : ArithUint256)
    (hfit : bnAvgTarget.toNat * rootProduct n targets < 2 ^ 256) :
    (targets.foldl (fun bnAvgTarget bnTarget => bnAvgTarget * approxNthRoot bnTarget n)
      bnAvgTarget).toNat = bnAvgTarget.toNat * rootProduct n targets := by
  induction targets generalizing bnAvgTarget with
  | nil => simp [rootProduct]
  | cons t rest ih =>
    rw [List.forall_mem_cons] at h
    rw [rootProduct, List.map_cons, List.prod_cons, ← Nat.mul_assoc] at hfit ⊢
    have hrest := rootProduct_pos hn hn64 h.2
    have hmul : (bnAvgTarget * approxNthRoot t n).toNat =
        bnAvgTarget.toNat * (approxNthRoot t n).toNat := by
      rw [BitVec.toNat_mul]
      exact Nat.mod_eq_of_lt (lt_of_le_of_lt (Nat.le_mul_of_pos_right _ hrest) hfit)
    rw [List.foldl_cons, ih h.2 _ (by rwa [hmul]), hmul]
    rfl

theorem avgTarget_toNat (h : ∀ t ∈ targets, 0 < t.toNat) (hfit : rootProduct n targets < 2 ^ 256)
    {done : List ArithUint256} (hdone : done <+: targets) :
    (avgTarget n done).toNat = rootProduct n done := by
  obtain ⟨rest, rfl⟩ := hdone
  rw [List.forall_mem_append] at h
  have hle : rootProduct n done ≤ rootProduct n (done ++ rest) := by
    simp only [rootProduct, List.map_append, List.prod_append]
    exact Nat.le_mul_of_pos_right _ (rootProduct_pos hn hn64 h.2)
  have hone : (1 : ArithUint256).toNat = 1 := rfl
  have hfold := foldl_mul_toNat hn hn64 h.1 1
    (by rw [hone, Nat.one_mul]; exact lt_of_le_of_lt hle hfit)
  rwa [hone, Nat.one_mul] at hfold

end

theorem unscaledProof_toNat {avg : ArithUint256} (hpos : 0 < avg.toNat)
    (hlimit : avg.toNat + 1 < 2 ^ 256) :
    ∃ bnRes, unscaledProof avg = some bnRes ∧ bnRes.toNat = 2 ^ 256 / (avg.toNat + 1) := by
  have hsucc : (avg + 1).toNat = avg.toNat + 1 := by
    rw [BitVec.toNat_add]
    exact Nat.mod_eq_of_lt hlimit
  have hne : avg + 1 ≠ 0 := by
    intro hzero
    rw [hzero] at hsucc
    exact absurd hsucc (Nat.succ_ne_zero _).symm
  refine ⟨~~~avg / (avg + 1) + 1, by rw [unscaledProof, divide_eq hne]; rfl, ?_⟩
  have hquot : (~~~avg / (avg + 1)).toNat + 1 = 2 ^ 256 / (avg.toNat + 1) := by
    rw [BitVec.toNat_udiv, BitVec.toNat_not, hsucc, ← Nat.add_div_right _ (Nat.succ_pos _)]
    congr 1
    omega
  have hsmall : 2 ^ 256 / (avg.toNat + 1) < 2 ^ 256 :=
    Nat.div_lt_self (Nat.two_pow_pos _) (by omega)
  rw [BitVec.toNat_add, show (1 : ArithUint256).toNat = 1 from rfl, hquot]
  exact Nat.mod_eq_of_lt hsmall

variable {params : ConsensusParams} {pprev : Chain}

theorem foldlM_mulRoot {n : ℕ} (l : List Algo)
    (h : ∀ algo ∈ l, (setCompact (getNextWorkRequired pprev params algo)).value ≠ 0)
    (bnAvgTarget : ArithUint256) :
    l.foldlM (mulRoot params pprev n) bnAvgTarget =
      some ((l.map fun algo => (setCompact (getNextWorkRequired pprev params algo)).value).foldl
        (fun bnAvgTarget bnTarget => bnAvgTarget * approxNthRoot bnTarget n) bnAvgTarget) := by
  induction l generalizing bnAvgTarget with
  | nil => rfl
  | cons algo rest ih =>
    rw [List.forall_mem_cons] at h
    obtain ⟨hneg, hover, -⟩ := getNextWorkRequired_decoded params pprev algo
    have hvalue := beq_false_of_ne h.1
    have hstep : mulRoot params pprev n bnAvgTarget algo = some (bnAvgTarget *
        approxNthRoot (setCompact (getNextWorkRequired pprev params algo)).value n) := by
      simp only [mulRoot, hneg, hover, hvalue, Bool.or_self, Bool.false_eq_true, if_false]
    rw [List.foldlM_cons, hstep]
    exact ih h.2 _

theorem getBlockProof_eq {block : CBlockIndex} {bnRes : ArithUint256}
    (hpos : ∀ t ∈ nextTargets params pprev (currentAlgos params block.nHeight), 0 < t.toNat)
    (hres : unscaledProof (avgTarget (currentAlgos params block.nHeight) (nextTargets params pprev (currentAlgos params block.nHeight))) = some bnRes) :
    getBlockProof params block pprev = bnRes <<< 7 := by
  have hvalues : ∀ algo ∈ algos.take (currentAlgos params block.nHeight),
      (setCompact (getNextWorkRequired pprev params algo)).value ≠ 0 := by
    intro algo halgo hzero
    have hlt := hpos _ (List.mem_map_of_mem halgo)
    rw [hzero] at hlt
    exact absurd hlt (lt_irrefl 0)
  have hfold := foldlM_mulRoot (n := currentAlgos params block.nHeight) _ hvalues 1
  change _ = some (avgTarget _ (nextTargets params pprev _)) at hfold
  simp only [getBlockProof, hfold]
  generalize avgTarget _ _ = avg at hres
  unfold unscaledProof at hres
  by_cases hzero : avg + 1 = 0
  · rw [hzero] at hres
    cases hres
  · rw [divide_eq hzero] at hres
    cases hres
    rfl

/-- For next targets up to the limit, the product of the roots is positive and no partial product
is reduced, the value before the shift is the quotient of `2 ^ 256`, it does not fall when targets
shrink, and `GetBlockProof` shifts it. -/
theorem getBlockProof_weighs (params : ConsensusParams)
    (hlimit : params.powLimit.toNat = 2 ^ 248 - 1) (nHeight : ℤ) (targets : List ArithUint256)
    (hlength : targets.length = currentAlgos params nHeight)
    (hrange : ∀ t ∈ targets, 0 < t ∧ t ≤ params.powLimit) :
    let n := currentAlgos params nHeight
    0 < rootProduct n targets ∧
    (∀ done, done <+: targets → (avgTarget n done).toNat = rootProduct n done) ∧
    ∃ bnRes, unscaledProof (avgTarget n targets) = some bnRes ∧
      bnRes.toNat = 2 ^ 256 / (rootProduct n targets + 1) ∧
      (∀ harder : List ArithUint256, (∀ t ∈ harder, 0 < t) → List.Forall₂ (· ≤ ·) harder targets →
        ∃ bnHarder, unscaledProof (avgTarget n harder) = some bnHarder ∧ bnRes ≤ bnHarder) ∧
      ∀ block pprev, block.nHeight = nHeight → nextTargets params pprev n = targets →
        getBlockProof params block pprev = bnRes <<< 7 := by
  have hcases := currentAlgos_cases params nHeight
  have hn : 0 < currentAlgos params nHeight ∧ currentAlgos params nHeight ≤ 64 := by
    generalize currentAlgos params nHeight = n at hcases
    fin_cases hcases <;> decide
  obtain ⟨hn, hn64⟩ := hn
  have hpositive : ∀ t ∈ targets, 0 < t.toNat := fun t ht => (hrange t ht).1
  have hbounded : ∀ t ∈ targets, t.toNat ≤ 2 ^ 248 - 1 := fun t ht => hlimit ▸ (hrange t ht).2
  have hproduct := rootProduct_le hn hn64 hlength hbounded
  have hpos := rootProduct_pos hn hn64 hpositive
  have hexact : ∀ done, done <+: targets →
      (avgTarget _ done).toNat = rootProduct _ done := fun done hdone =>
    avgTarget_toNat hn hn64 hpositive (by omega) hdone
  have hwhole := hexact targets List.prefix_rfl
  obtain ⟨bnRes, hres, hvalue⟩ := unscaledProof_toNat (by rwa [hwhole]) (by rw [hwhole]; omega)
  rw [hwhole] at hvalue
  refine ⟨hpos, hexact, bnRes, hres, hvalue, ?_, ?_⟩
  · intro harder hharder hle
    have hmono := rootProduct_mono hn hn64 hle
    have hwhole' := avgTarget_toNat hn hn64 hharder (by omega) (List.prefix_rfl (l := harder))
    have hpos' := rootProduct_pos hn hn64 hharder
    obtain ⟨bnHarder, hres', hvalue'⟩ :=
      unscaledProof_toNat (by rwa [hwhole']) (by rw [hwhole']; omega)
    refine ⟨bnHarder, hres', ?_⟩
    rw [BitVec.le_def, hvalue, hvalue', hwhole']
    exact Nat.div_le_div_left (Nat.succ_le_succ hmono) (Nat.succ_pos _)
  · rintro block pprev rfl htargets
    subst htargets
    exact getBlockProof_eq hpositive hres

theorem getBlockProof_weighs_powLimit :
    0 < rootProduct 3 [mainParams.powLimit, 1, 5] ∧
    ∃ bnRes, unscaledProof (avgTarget 3 [mainParams.powLimit, 1, 5]) = some bnRes ∧
      bnRes.toNat = 2 ^ 256 / (rootProduct 3 [mainParams.powLimit, 1, 5] + 1) := by
  have hn : currentAlgos mainParams 0 = 3 := by decide +kernel
  have hrange : ∀ t ∈ [mainParams.powLimit, 1, 5], 0 < t ∧ t ≤ mainParams.powLimit := by
    simp only [List.forall_mem_cons, List.not_mem_nil, IsEmpty.forall_iff, implies_true, and_true]
    decide +kernel
  have hweighs := getBlockProof_weighs mainParams (by decide +kernel) 0
    [mainParams.powLimit, 1, 5] (by rw [hn]; rfl) hrange
  dsimp only at hweighs
  rw [hn] at hweighs
  obtain ⟨hpos, -, bnRes, hres, hvalue, -⟩ := hweighs
  exact ⟨hpos, bnRes, hres, hvalue⟩

end ButCore.Pow
