import Mathlib
import ButCore.Amount
/-! The amount encoding of the chainstate. Both directions compute in unsigned
64-bit arithmetic; a failed assertion of the encoder is `none`. -/
namespace ButCore.Compressor

/-- The loop of the encoder: at most `k` further decimal zeros are stripped. -/
def stripZeros : Nat → UInt64 → Nat → UInt64 × Nat
  | 0, n, e => (n, e)
  | k+1, n, e => if n % 10 = 0 then stripZeros k (n / 10) (e + 1) else (n, e)

def compressAmount (n : UInt64) : Option UInt64 :=
  if n = 0 then some 0
  else
    let (n, e) := stripZeros 9 n 0
    if e < 9 then
      let d := n % 10
      if 1 ≤ d ∧ d ≤ 9 then
        let n := n / 10
        some (1 + (n * 9 + d - 1) * 10 + UInt64.ofNat e)
      else none
    else some (1 + (n - 1) * 10 + 9)

/-- The closing loop of the decoder, once for each stripped zero. -/
def restoreZeros : Nat → UInt64 → UInt64
  | 0, n => n
  | e+1, n => restoreZeros e (n * 10)

def decompressAmount (x : UInt64) : UInt64 :=
  if x = 0 then 0
  else
    let x := x - 1
    let e := (x % 10).toNat
    let x := x / 10
    let n :=
      if e < 9 then
        let d := x % 9 + 1
        let x := x / 9
        x * 10 + d
      else x + 1
    restoreZeros e n


theorem stripZeros_spec (k : Nat) (n : UInt64) (e : Nat) :
    ∃ j, j ≤ k ∧ (stripZeros k n e).2 = e + j ∧
      n.toNat = (stripZeros k n e).1.toNat * 10 ^ j ∧
      (j < k → (stripZeros k n e).1.toNat % 10 ≠ 0) := by
  induction k generalizing n e with
  | zero => exact ⟨0, le_refl 0, rfl, by simp [stripZeros], fun h => absurd h (lt_irrefl 0)⟩
  | succ k ih =>
    by_cases h : n % 10 = 0
    · obtain ⟨j, hj, he, hn, hlast⟩ := ih (n / 10) (e + 1)
      have hdiv : n.toNat = (n / 10).toNat * 10 := by
        have h' := congrArg UInt64.toNat h
        simp only [UInt64.toNat_mod, UInt64.toNat_div] at h' ⊢
        simp at h' ⊢
        omega
      refine ⟨j + 1, by omega, ?_, ?_, ?_⟩
      · simp only [stripZeros, h, if_true, he]; omega
      · simp only [stripZeros, h, if_true]
        rw [hdiv, hn, pow_succ, mul_assoc]
      · intro hlt
        simp only [stripZeros, h, if_true]
        exact hlast (by omega)
    · refine ⟨0, by omega, by simp [stripZeros, h], by simp [stripZeros, h], ?_⟩
      intro _ hz
      apply h
      simp only [stripZeros, h, if_false] at hz
      apply UInt64.toNat.inj
      simpa [UInt64.toNat_mod] using hz

theorem restoreZeros_toNat (e : Nat) (n : UInt64) :
    (restoreZeros e n).toNat = n.toNat * 10 ^ e % 2 ^ 64 := by
  induction e generalizing n with
  | zero => simp [restoreZeros, Nat.mod_eq_of_lt n.toNat_lt]
  | succ e ih =>
    rw [restoreZeros, ih, UInt64.toNat_mul, pow_succ, Nat.mod_mul_mod]
    simp only [UInt64.toNat_ofNat]
    congr 1
    ring

theorem decompressAmount_toNat (x : UInt64) (h : x ≠ 0) :
    (decompressAmount x).toNat =
      if (x.toNat - 1) % 10 < 9 then
        ((x.toNat - 1) / 10 / 9 * 10 + ((x.toNat - 1) / 10 % 9 + 1)) *
          10 ^ ((x.toNat - 1) % 10) % 2 ^ 64
      else ((x.toNat - 1) / 10 + 1) * 10 ^ ((x.toNat - 1) % 10) % 2 ^ 64 := by
  have hpos : 0 < x.toNat := by
    rcases Nat.eq_zero_or_pos x.toNat with h0 | h0
    · exact absurd (UInt64.toNat.inj h0) h
    · exact h0
  have hlt := x.toNat_lt
  have hsub : (x - 1).toNat = x.toNat - 1 := by
    rw [UInt64.toNat_sub_of_le]
    · rfl
    · exact UInt64.le_iff_toNat_le.mpr hpos
  simp only [decompressAmount, h, if_false, restoreZeros_toNat, UInt64.toNat_mod, hsub]
  have hten : (10 : UInt64).toNat = 10 := rfl
  rw [hten]
  split
  · have hq : ((x - 1) / 10 / 9 * 10 + ((x - 1) / 10 % 9 + 1)).toNat =
        (x.toNat - 1) / 10 / 9 * 10 + ((x.toNat - 1) / 10 % 9 + 1) := by
      simp only [UInt64.toNat_add, UInt64.toNat_mul, UInt64.toNat_div, UInt64.toNat_mod, hsub]
      simp only [UInt64.reduceToNat]
      omega
    rw [hq]
  · have hq : ((x - 1) / 10 + 1).toNat = (x.toNat - 1) / 10 + 1 := by
      simp only [UInt64.toNat_add, UInt64.toNat_div, hsub]
      simp only [UInt64.reduceToNat]
      omega
    rw [hq]

/-- The encoder on numbers: `m` is what is left after stripping `e` zeros. The
assertion on the last digit holds, so the encoder always returns. -/
theorem compressAmount_spec (n : UInt64) (h : n ≠ 0) :
    ∃ m e x, compressAmount n = some x ∧ 0 < m ∧ n.toNat = m * 10 ^ e ∧ e ≤ 9 ∧
      (e < 9 → m % 10 ≠ 0) ∧
      x.toNat = if e < 9 then (1 + (m / 10 * 9 + m % 10 - 1) * 10 + e) % 2 ^ 64
        else (1 + (m - 1) * 10 + 9) % 2 ^ 64 := by
  obtain ⟨j, hj, he, hn, hlast⟩ := stripZeros_spec 9 n 0
  generalize hs : stripZeros 9 n 0 = s at he hn hlast
  obtain ⟨m, e⟩ := s
  simp only [Nat.zero_add] at he hn hlast
  subst he
  have hm : 0 < m.toNat := by
    rcases Nat.eq_zero_or_pos m.toNat with h0 | h0
    · rw [h0, Nat.zero_mul] at hn
      exact absurd (UInt64.toNat.inj hn) h
    · exact h0
  have hmlt := m.toNat_lt
  by_cases hlt : e < 9
  · have hd := hlast hlt
    have hdig : 1 ≤ m % 10 ∧ m % 10 ≤ 9 := by
      simp only [UInt64.le_iff_toNat_le, UInt64.toNat_mod, UInt64.reduceToNat]
      omega
    refine ⟨m.toNat, e, 1 + (m / 10 * 9 + m % 10 - 1) * 10 + UInt64.ofNat e,
      ?_, hm, hn, hj, hlast, ?_⟩
    · simp only [compressAmount, h, if_false, hs, hlt, if_true, hdig, and_self]
    · have hofe : (UInt64.ofNat e).toNat = e := UInt64.toNat_ofNat_of_lt (by unfold UInt64.size; omega)
      have hmul : (m / 10 * 9).toNat = m.toNat / 10 * 9 := by
        rw [UInt64.toNat_mul, UInt64.toNat_div]
        exact Nat.mod_eq_of_lt (by simp only [UInt64.reduceToNat]; omega)
      have hadd : (m / 10 * 9 + m % 10).toNat = m.toNat / 10 * 9 + m.toNat % 10 := by
        rw [UInt64.toNat_add, hmul, UInt64.toNat_mod]
        exact Nat.mod_eq_of_lt (by simp only [UInt64.reduceToNat]; omega)
      have hsub : (m / 10 * 9 + m % 10 - 1).toNat = m.toNat / 10 * 9 + m.toNat % 10 - 1 := by
        rw [UInt64.toNat_sub_of_le, hadd]
        · rfl
        · rw [UInt64.le_iff_toNat_le, hadd]
          change 1 ≤ _
          omega
      rw [if_pos hlt, UInt64.toNat_add, UInt64.toNat_add, UInt64.toNat_mul, hsub, hofe]
      simp only [UInt64.reduceToNat, Nat.mod_add_mod, Nat.add_mod_mod]
  · refine ⟨m.toNat, e, 1 + (m - 1) * 10 + 9, ?_, hm, hn, hj, hlast, ?_⟩
    · simp only [compressAmount, h, if_false, hs, hlt]
    · have hsub : (m - 1).toNat = m.toNat - 1 := by
        rw [UInt64.toNat_sub_of_le]
        · rfl
        · exact UInt64.le_iff_toNat_le.mpr hm
      rw [if_neg hlt, UInt64.toNat_add, UInt64.toNat_add, UInt64.toNat_mul, hsub]
      simp only [UInt64.reduceToNat, Nat.mod_add_mod, Nat.add_mod_mod]


theorem decompressAmount_digit (q d e : Nat) (x : UInt64) (hd : 1 ≤ d) (hd9 : d ≤ 9) (he : e < 9)
    (hx : x.toNat = 1 + (q * 9 + d - 1) * 10 + e) :
    (decompressAmount x).toNat = (10 * q + d) * 10 ^ e % 2 ^ 64 := by
  have hne : x ≠ 0 := by
    rintro rfl
    change 0 = _ at hx
    omega
  have hx1 : x.toNat - 1 = (q * 9 + d - 1) * 10 + e := by omega
  have hmod : ((q * 9 + d - 1) * 10 + e) % 10 = e := by omega
  have hdiv : ((q * 9 + d - 1) * 10 + e) / 10 = q * 9 + d - 1 := by omega
  have hq : (q * 9 + d - 1) / 9 = q := by omega
  have hr : (q * 9 + d - 1) % 9 + 1 = d := by omega
  rw [decompressAmount_toNat x hne, hx1, hmod, hdiv, if_pos he, hq, hr, Nat.mul_comm q 10]

theorem decompressAmount_nine (m : Nat) (x : UInt64) (hm : 0 < m)
    (hx : x.toNat = 1 + (m - 1) * 10 + 9) :
    (decompressAmount x).toNat = m * 10 ^ 9 % 2 ^ 64 := by
  have hne : x ≠ 0 := by
    rintro rfl
    change 0 = _ at hx
    omega
  have hmod : (x.toNat - 1) % 10 = 9 := by omega
  have hdiv : (x.toNat - 1) / 10 + 1 = m := by omega
  rw [decompressAmount_toNat x hne, hmod, hdiv, if_neg (by decide)]

/-- The largest amount with a non-zero last digit whose code fits 64 bits. -/
def maxExactAmount : Nat := 2049638230412172402

theorem decode_encode_stripped (m e : Nat) (x : UInt64) (hm : 0 < m) (he : e ≤ 9) (h1 : 1 ≤ e)
    (hrange : m * 10 ^ e ≤ 2100000000000000000) (hd : e < 9 → m % 10 ≠ 0)
    (hx : x.toNat = if e < 9 then (1 + (m / 10 * 9 + m % 10 - 1) * 10 + e) % 2 ^ 64
        else (1 + (m - 1) * 10 + 9) % 2 ^ 64) :
    (decompressAmount x).toNat = m * 10 ^ e := by
  have hten : 10 ^ 1 ≤ 10 ^ e := Nat.pow_le_pow_right (by decide) h1
  have hmul : m * 10 ^ 1 ≤ m * 10 ^ e := Nat.mul_le_mul_left m hten
  have hmle : m ≤ 210000000000000000 := by omega
  have hfit : m * 10 ^ e % 2 ^ 64 = m * 10 ^ e := Nat.mod_eq_of_lt (by omega)
  clear hten hmul hrange
  by_cases hlt : e < 9
  · have hd' := hd hlt
    rw [if_pos hlt, Nat.mod_eq_of_lt (by omega)] at hx
    rw [decompressAmount_digit (m / 10) (m % 10) e x (by omega) (by omega) hlt hx,
      Nat.div_add_mod, hfit]
  · obtain rfl : e = 9 := by omega
    rw [if_neg hlt, Nat.mod_eq_of_lt (by omega)] at hx
    rw [decompressAmount_nine m x hm hx, hfit]

/-- The congruence a wrapped code would have to meet to decode to its own amount
has no solution in the money range. -/
theorem no_wrapped_residue (m c k : Nat) (hc : c = 20000 ∨ c = 30000)
    (hm : m ≤ 50361769587827600)
    (h : m * 9999 = 2049638230412172400 + c + 18446744073709551616 * k) : False := by
  have hk : k < 28 := by omega
  rcases hc with rfl | rfl <;> interval_cases k <;> omega

theorem wrapped_decode_ne (t d : Nat) (hd : 1 ≤ d) (hd9 : d ≤ 9) (hlow : 3 ≤ 9 * t + d)
    (hrange : 10 * t + d ≤ 50361769587827600) :
    ((9 * t + d - 3) / 9 * 10 + ((9 * t + d - 3) % 9 + 1)) * 10 ^ 4 % 2 ^ 64 ≠
      2049638230412172400 + (10 * t + d) := by
  obtain ⟨c, hc, hn⟩ : ∃ c, (c = 2 ∨ c = 3) ∧
      (9 * t + d - 3) / 9 * 10 + ((9 * t + d - 3) % 9 + 1) + c = 10 * t + d := by
    by_cases h3 : 3 ≤ d
    · exact ⟨2, Or.inl rfl, by omega⟩
    · exact ⟨3, Or.inr rfl, by omega⟩
  generalize (9 * t + d - 3) / 9 * 10 + ((9 * t + d - 3) % 9 + 1) = n at hn
  rw [← hn] at hrange ⊢
  intro h
  have hdm := Nat.div_add_mod (n * 10 ^ 4) (2 ^ 64)
  rw [h] at hdm
  generalize n * 10 ^ 4 / 2 ^ 64 = k at hdm
  refine no_wrapped_residue (n + c) (c * 10000) k ?_ hrange ?_
  · rcases hc with rfl | rfl
    · exact Or.inl rfl
    · exact Or.inr rfl
  · clear h hn hlow hd hd9 hrange
    omega

theorem decode_encode_digit (q d : Nat) (x : UInt64) (hd : 1 ≤ d) (hd9 : d ≤ 9)
    (hrange : 10 * q + d ≤ 2100000000000000000)
    (hx : x.toNat = (1 + (q * 9 + d - 1) * 10 + 0) % 2 ^ 64) :
    (decompressAmount x).toNat = 10 * q + d ↔ 10 * q + d ≤ maxExactAmount := by
  unfold maxExactAmount
  by_cases hfit : 10 * q + d ≤ 2049638230412172402
  · rw [Nat.mod_eq_of_lt (by omega)] at hx
    rw [decompressAmount_digit q d 0 x hd hd9 (by decide) hx, pow_zero, Nat.mul_one,
      Nat.mod_eq_of_lt (by omega)]
    exact iff_of_true rfl hfit
  · obtain ⟨t, rfl⟩ : ∃ t, q = 204963823041217240 + t := ⟨q - 204963823041217240, by omega⟩
    have hx1 : x.toNat - 1 = (9 * t + d - 3) * 10 + 4 := by omega
    have hne : x ≠ 0 := by
      rintro rfl
      change 0 - 1 = _ at hx1
      omega
    have hmod : ((9 * t + d - 3) * 10 + 4) % 10 = 4 := by omega
    have hdiv : ((9 * t + d - 3) * 10 + 4) / 10 = 9 * t + d - 3 := by omega
    rw [decompressAmount_toNat x hne, hx1, hmod, hdiv, if_pos (by decide)]
    have hwrap := wrapped_decode_ne t d hd hd9 (by omega) (by omega)
    refine iff_of_false (fun h => hwrap (h.trans ?_)) hfit
    omega

theorem ofInt_toNat_of_moneyRange (n : CAmount) (h : MoneyRange n true = true) :
    ((UInt64.ofInt n).toNat : Int) = n := by
  obtain ⟨h0, hmax⟩ := (MoneyRange_true_iff n).mp h
  have hmod : n % 2 ^ 64 = n := Int.emod_eq_of_lt h0 (by linarith)
  have hlt : n.toNat < 2 ^ 64 := by
    zify
    rw [Int.toNat_of_nonneg h0]
    linarith
  rw [UInt64.ofInt, hmod, UInt64.toNat_ofNat', Nat.mod_eq_of_lt hlt]
  exact Int.toNat_of_nonneg h0

/-- For an amount in the money range, a coin keeps its value through the chainstate
encoding exactly when a decimal zero can be stripped or the amount is small enough. -/
theorem compressAmount_roundtrip_iff (n : CAmount) (h : MoneyRange n true = true) :
    (compressAmount (UInt64.ofInt n)).map decompressAmount = some (UInt64.ofInt n) ↔
      n % 10 = 0 ∨ n ≤ maxExactAmount := by
  have hn := ofInt_toNat_of_moneyRange n h
  have hmax := ((MoneyRange_true_iff n).mp h).2
  generalize UInt64.ofInt n = u at hn
  subst hn
  by_cases h0 : u = 0
  · subst h0
    exact iff_of_true rfl (Or.inl rfl)
  · obtain ⟨m, e, x, hx, hm, hu, he, hd, hcode⟩ := compressAmount_spec u h0
    have hval : (compressAmount u).map decompressAmount = some u ↔
        (decompressAmount x).toNat = u.toNat := by
      rw [hx, Option.map_some, Option.some.injEq]
      exact ⟨congrArg UInt64.toNat, fun h => UInt64.toNat.inj h⟩
    have hrange : u.toNat ≤ 2100000000000000000 := by exact_mod_cast hmax
    rw [hval]
    rcases Nat.eq_zero_or_pos e with rfl | hpos
    · have hd' := hd (by decide)
      rw [pow_zero, Nat.mul_one] at hu
      subst hu
      have hsplit : u.toNat = 10 * (u.toNat / 10) + u.toNat % 10 := (Nat.div_add_mod _ _).symm
      have hdigit := decode_encode_digit (u.toNat / 10) (u.toNat % 10) x (by omega) (by omega)
        (by omega) (by rwa [if_pos (by decide)] at hcode)
      rw [← hsplit] at hdigit
      rw [hdigit]
      constructor
      · intro hle
        exact Or.inr (by exact_mod_cast hle)
      · rintro (hz | hle)
        · exact absurd (by exact_mod_cast hz : u.toNat % 10 = 0) hd'
        · exact_mod_cast hle
    · rw [hu] at hrange ⊢
      refine iff_of_true (decode_encode_stripped m e x hm he hpos hrange hd hcode) (Or.inl ?_)
      obtain ⟨k, rfl⟩ : ∃ k, e = k + 1 := ⟨e - 1, by omega⟩
      rw [pow_succ, ← Nat.mul_assoc]
      exact_mod_cast Nat.mul_mod_left (m * 10 ^ k) 10

theorem compressAmount_roundtrip_coin : MoneyRange MAX_MONEY true = true ∧
    ((compressAmount (UInt64.ofInt MAX_MONEY)).map decompressAmount =
        some (UInt64.ofInt MAX_MONEY) ↔ MAX_MONEY % 10 = 0 ∨ MAX_MONEY ≤ maxExactAmount) :=
  ⟨by decide, compressAmount_roundtrip_iff MAX_MONEY (by decide)⟩

theorem compressAmount_roundtrip_fails : MoneyRange 2099999999999999999 true = true ∧
    (compressAmount (UInt64.ofInt 2099999999999999999)).map decompressAmount ≠
      some (UInt64.ofInt 2099999999999999999) := by
  decide

end ButCore.Compressor
