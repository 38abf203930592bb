import ButCore.ArithUint256

/-!
# The compact form of a target

`getCompact` keeps the leading bytes of a number and `setCompact` restores it with its low bits
cleared.
-/
namespace ButCore.ArithUint256

theorem toNat_lt_two_pow_bits (x : ArithUint256) : x.toNat < 2 ^ bits x := by
  unfold bits
  split_ifs with h
  · subst h
    decide
  · exact Nat.lt_log2_self

variable {x : ArithUint256} {t : ℕ}

theorem two_pow_le_of_lt_bits (h : t < bits x) : 2 ^ t ≤ x.toNat := by
  unfold bits at h
  split_ifs at h with hx
  · omega
  · have hne : x.toNat ≠ 0 := fun h0 => hx (BitVec.eq_of_toNat_eq h0)
    exact le_trans (Nat.pow_le_pow_right (by decide) (by omega)) (Nat.log2_self_le hne)

theorem lt_bits_iff : t < bits x ↔ 2 ^ t ≤ x.toNat := by
  refine ⟨two_pow_le_of_lt_bits, fun h => ?_⟩
  have hlt := lt_of_le_of_lt h (toNat_lt_two_pow_bits x)
  exact (Nat.pow_lt_pow_iff_right (by decide)).mp hlt

theorem bits_le (x : ArithUint256) : bits x ≤ 256 := by
  by_contra h
  have hle := two_pow_le_of_lt_bits (x := x) (not_le.mp h)
  exact absurd x.isLt (not_lt.mpr hle)

/-! ### Packing -/

def decoded (nWord nSize : ℕ) : ℕ :=
  if nSize ≤ 3 then nWord / 2 ^ (8 * (3 - nSize)) else nWord * 2 ^ (8 * (nSize - 3))

def packed (nCompact : BitVec 32) (nSize : ℕ) : BitVec 32 :=
  nCompact ||| BitVec.ofNat 32 nSize <<< 24

variable {s : ℕ} {w : BitVec 32}

theorem packed_toNat (hw : w.toNat < 2 ^ 23) (hs : s < 2 ^ 8) :
    (packed w s).toNat = s * 2 ^ 24 + w.toNat := by
  have hshift : (BitVec.ofNat 32 s <<< 24).toNat = s * 2 ^ 24 := by
    rw [BitVec.toNat_shiftLeft, BitVec.toNat_ofNat, Nat.shiftLeft_eq]
    omega
  rw [packed, BitVec.toNat_or, hshift, Nat.or_comm, ← Nat.shiftLeft_eq,
    Nat.shiftLeft_add_eq_or_of_lt (lt_trans hw (by decide))]

theorem packed_size (hw : w.toNat < 2 ^ 23) (hs : s < 2 ^ 8) :
    (packed w s >>> 24).toNat = s := by
  rw [BitVec.toNat_ushiftRight, packed_toNat hw hs, Nat.shiftRight_eq_div_pow]
  omega

theorem packed_word (hw : w.toNat < 2 ^ 23) (hs : s < 2 ^ 8) :
    packed w s &&& 0x007fffff = w := by
  apply BitVec.eq_of_toNat_eq
  rw [BitVec.toNat_and, packed_toNat hw hs]
  change (s * 2 ^ 24 + w.toNat) &&& (2 ^ 23 - 1) = w.toNat
  rw [Nat.and_two_pow_sub_one_eq_mod]
  omega

theorem and_signBit_eq_zero_iff {c : BitVec 32} :
    c &&& 0x00800000 = 0 ↔ c.toNat / 2 ^ 23 % 2 = 0 := by
  rw [← BitVec.toNat_inj, BitVec.toNat_and]
  change c.toNat &&& 2 ^ 23 = 0 ↔ _
  rw [Nat.and_two_pow, Nat.testBit_eq_decide_div_mod_eq]
  simp

theorem packed_sign (hw : w.toNat < 2 ^ 23) (hs : s < 2 ^ 8) :
    packed w s &&& 0x00800000 = 0 := by
  rw [and_signBit_eq_zero_iff, packed_toNat hw hs]
  omega

/-- A packed mantissa and exponent are read back as they were: the sign is clear, and there is no
overflow when the bytes fit in 256 bits. -/
theorem setCompact_packed (hw : w.toNat < 2 ^ 23) (hs : s ≤ 33) (h33 : s = 33 → w.toNat < 2 ^ 16) :
    (setCompact (packed w s)).value.toNat = decoded w.toNat s ∧
      (setCompact (packed w s)).fNegative = false ∧
      (setCompact (packed w s)).fOverflow = false := by
  have hs8 : s < 2 ^ 8 := by omega
  simp only [setCompact, packed_size hw hs8, packed_word hw hs8, packed_sign hw hs8]
  refine ⟨?_, by simp, ?_⟩
  · unfold decoded
    split_ifs with h3
    · rw [BitVec.toNat_setWidth, BitVec.toNat_ushiftRight, Nat.shiftRight_eq_div_pow]
      apply Nat.mod_eq_of_lt
      exact lt_of_le_of_lt (Nat.div_le_self _ _) (lt_trans hw (by decide))
    · have hfit : w.toNat * 2 ^ (8 * (s - 3)) < 2 ^ 256 := by
        by_cases h : s = 33
        · subst h
          have := h33 rfl
          omega
        · calc w.toNat * 2 ^ (8 * (s - 3)) < 2 ^ 23 * 2 ^ (8 * (s - 3)) :=
              Nat.mul_lt_mul_of_pos_right hw (Nat.two_pow_pos _)
            _ = 2 ^ (23 + 8 * (s - 3)) := (Nat.pow_add _ _ _).symm
            _ ≤ 2 ^ 256 := Nat.pow_le_pow_right (by decide) (by omega)
      rw [BitVec.toNat_shiftLeft, BitVec.toNat_setWidth, Nat.shiftLeft_eq,
        Nat.mod_eq_of_lt (lt_trans hw (by decide)), Nat.mod_eq_of_lt hfit]
  · by_cases h : s = 33
    · subst h
      have hword : w ≤ 0xffff#32 := by
        rw [BitVec.le_def]
        exact Nat.le_of_lt_succ (h33 rfl)
      simp [hword]
    · have hle : s ≤ 32 := by omega
      simp [show ¬ 34 < s by omega, show ¬ 33 < s by omega, show ¬ 32 < s by omega]

/-! ### The bytes that are kept -/

def sizeInBytes (x : ArithUint256) : ℕ := (bits x + 7) / 8

def leadingBytes (x : ArithUint256) : BitVec 32 :=
  if sizeInBytes x ≤ 3 then (getLow64 x <<< (8 * (3 - sizeInBytes x))).setWidth 32
  else (getLow64 (x >>> (8 * (sizeInBytes x - 3)))).setWidth 32

theorem compactParts_eq (x : ArithUint256) :
    compactParts x =
      if leadingBytes x &&& 0x00800000 != 0 then (leadingBytes x >>> 8, sizeInBytes x + 1)
      else (leadingBytes x, sizeInBytes x) := rfl

theorem sizeInBytes_le (x : ArithUint256) : sizeInBytes x ≤ 32 := by
  have hbits := bits_le x
  unfold sizeInBytes
  omega

theorem toNat_lt_of_sizeInBytes (h : sizeInBytes x = s) :
    x.toNat < 2 ^ (8 * s) := by
  unfold sizeInBytes at h
  exact lt_of_lt_of_le (toNat_lt_two_pow_bits x) (Nat.pow_le_pow_right (by decide) (by omega))

theorem leadingBytes_small (hs : sizeInBytes x = s) (h : s ≤ 3) :
    (leadingBytes x).toNat = x.toNat * 2 ^ (8 * (3 - s)) ∧ (leadingBytes x).toNat < 2 ^ 24 := by
  have hx := toNat_lt_of_sizeInBytes hs
  have hfit : x.toNat * 2 ^ (8 * (3 - s)) < 2 ^ 24 := by
    calc x.toNat * 2 ^ (8 * (3 - s)) < 2 ^ (8 * s) * 2 ^ (8 * (3 - s)) :=
          Nat.mul_lt_mul_of_pos_right hx (Nat.two_pow_pos _)
      _ = 2 ^ (8 * s + 8 * (3 - s)) := (Nat.pow_add _ _ _).symm
      _ = 2 ^ 24 := by congr 1; omega
  have hx64 : x.toNat < 2 ^ 64 :=
    lt_of_lt_of_le hx (Nat.pow_le_pow_right (by decide) (by omega))
  have hval : (leadingBytes x).toNat = x.toNat * 2 ^ (8 * (3 - s)) := by
    rw [leadingBytes, hs, if_pos h, BitVec.toNat_setWidth, BitVec.toNat_shiftLeft, getLow64,
      BitVec.toNat_setWidth, Nat.shiftLeft_eq, Nat.mod_eq_of_lt hx64]
    omega
  exact ⟨hval, by rw [hval]; exact hfit⟩

theorem leadingBytes_large (hs : sizeInBytes x = s) (h : 3 < s) :
    (leadingBytes x).toNat = x.toNat / 2 ^ (8 * (s - 3)) ∧ (leadingBytes x).toNat < 2 ^ 24 := by
  have hx := toNat_lt_of_sizeInBytes hs
  have hfit : x.toNat / 2 ^ (8 * (s - 3)) < 2 ^ 24 := by
    rw [Nat.div_lt_iff_lt_mul (Nat.two_pow_pos _), ← Nat.pow_add]
    exact lt_of_lt_of_eq hx (by congr 1; omega)
  have hval : (leadingBytes x).toNat = x.toNat / 2 ^ (8 * (s - 3)) := by
    rw [leadingBytes, hs, if_neg (by omega), BitVec.toNat_setWidth, getLow64,
      BitVec.toNat_setWidth, BitVec.toNat_ushiftRight, Nat.shiftRight_eq_div_pow]
    generalize x.toNat / 2 ^ (8 * (s - 3)) = c at hfit
    omega
  exact ⟨hval, by rw [hval]; exact hfit⟩

theorem leadingBytes_lt (x : ArithUint256) : (leadingBytes x).toNat < 2 ^ 24 := by
  by_cases h3 : sizeInBytes x ≤ 3
  · exact (leadingBytes_small rfl h3).2
  · exact (leadingBytes_large rfl (not_le.mp h3)).2

/-- `v` is `x` with its low `t` bits cleared, and a bit of `x` is left. -/
def Truncates (x v : ℕ) : Prop :=
  ∃ t, (t = 0 ∨ 2 ^ t ≤ x) ∧ v = x / 2 ^ t * 2 ^ t

variable {v : ℕ}

theorem Truncates.le {x : ℕ} (h : Truncates x v) : v ≤ x := by
  obtain ⟨t, -, rfl⟩ := h
  exact Nat.div_mul_le_self x _

theorem Truncates.two_pow_le {x j : ℕ} (h : Truncates x v) (hj : 2 ^ j ≤ x) : 2 ^ j ≤ v := by
  obtain ⟨t, rfl | ht, rfl⟩ := h
  · simpa using hj
  · by_cases hjt : j < t
    · have hone : 1 ≤ x / 2 ^ t := Nat.div_pos ht (Nat.two_pow_pos t)
      calc 2 ^ j ≤ 1 * 2 ^ t := by rw [Nat.one_mul]; exact Nat.pow_le_pow_right (by decide) hjt.le
        _ ≤ x / 2 ^ t * 2 ^ t := Nat.mul_le_mul_right _ hone
    · have hsplit : 2 ^ j = 2 ^ (j - t) * 2 ^ t := by rw [← Nat.pow_add]; congr 1; omega
      rw [hsplit] at hj ⊢
      exact Nat.mul_le_mul_right _ ((Nat.le_div_iff_mul_le (Nat.two_pow_pos t)).mpr hj)

/-- The mantissa is short enough to be packed with the exponent, and together they are the number
with its low bits cleared. -/
structure Packs (x : ℕ) (nWord : BitVec 32) (nSize : ℕ) : Prop where
  word_lt : nWord.toNat < 2 ^ 23
  size_le : nSize ≤ 33
  word_lt_of_size : nSize = 33 → nWord.toNat < 2 ^ 16
  truncates : Truncates x (decoded nWord.toNat nSize)

theorem packs_leadingBytes (h : (leadingBytes x).toNat < 2 ^ 23) :
    Packs x.toNat (leadingBytes x) (sizeInBytes x) := by
  have hsize := sizeInBytes_le x
  refine ⟨h, by omega, fun h33 => by omega, ?_⟩
  unfold decoded
  split_ifs with h3
  · obtain ⟨hval, -⟩ := leadingBytes_small rfl h3
    refine ⟨0, .inl rfl, ?_⟩
    rw [hval, Nat.mul_div_cancel _ (Nat.two_pow_pos _)]
    simp
  · obtain ⟨hval, -⟩ := leadingBytes_large rfl (not_le.mp h3)
    have hlow : 8 * (sizeInBytes x - 3) < bits x := by
      unfold sizeInBytes at h3 ⊢
      omega
    exact ⟨_, .inr (two_pow_le_of_lt_bits hlow), by rw [hval]⟩

theorem packs_leadingBytes_shifted (h : 2 ^ 23 ≤ (leadingBytes x).toNat) :
    Packs x.toNat (leadingBytes x >>> 8) (sizeInBytes x + 1) := by
  have hsize := sizeInBytes_le x
  have hlt := leadingBytes_lt x
  have hword : (leadingBytes x >>> 8).toNat = (leadingBytes x).toNat / 2 ^ 8 := by
    rw [BitVec.toNat_ushiftRight, Nat.shiftRight_eq_div_pow]
  refine ⟨by omega, by omega, fun _ => by omega, ?_⟩
  rw [hword]
  by_cases h3 : sizeInBytes x ≤ 3
  · obtain ⟨hval, -⟩ := leadingBytes_small rfl h3
    by_cases hthree : sizeInBytes x = 3
    · rw [hthree] at hval ⊢
      rw [hval] at h ⊢
      exact ⟨8, .inr (by omega), by simp [decoded]⟩
    · refine ⟨0, .inl rfl, ?_⟩
      rw [decoded, if_pos (by omega), hval, Nat.div_div_eq_div_mul, ← Nat.pow_add,
        show 8 + 8 * (3 - (sizeInBytes x + 1)) = 8 * (3 - sizeInBytes x) by omega,
        Nat.mul_div_cancel _ (Nat.two_pow_pos _)]
      simp
  · obtain ⟨hval, -⟩ := leadingBytes_large rfl (not_le.mp h3)
    have hexp : 8 * (sizeInBytes x - 3) + 8 = 8 * (sizeInBytes x + 1 - 3) := by omega
    refine ⟨8 * (sizeInBytes x + 1 - 3), .inr ?_, ?_⟩
    · rw [hval, Nat.le_div_iff_mul_le (Nat.two_pow_pos _)] at h
      refine le_trans ?_ h
      rw [← hexp, Nat.pow_add, Nat.mul_comm]
      exact Nat.mul_le_mul_right _ (by decide)
    · rw [decoded, if_neg (by omega), hval, Nat.div_div_eq_div_mul, ← Nat.pow_add, hexp]

theorem compactParts_packs (x : ArithUint256) :
    Packs x.toNat (compactParts x).1 (compactParts x).2 := by
  rw [compactParts_eq]
  have hlt := leadingBytes_lt x
  by_cases hsign : leadingBytes x &&& 0x00800000 = 0
  · have hpos := and_signBit_eq_zero_iff.mp hsign
    simp only [hsign, bne_self_eq_false, Bool.false_eq_true, if_false]
    exact packs_leadingBytes (by omega)
  · have hneg := mt and_signBit_eq_zero_iff.mpr hsign
    simp only [bne_iff_ne, ne_eq, hsign, not_false_eq_true, if_true]
    exact packs_leadingBytes_shifted (by omega)

theorem getCompact_eq_packed (x : ArithUint256) :
    getCompact x false = packed (compactParts x).1 (compactParts x).2 := by
  simp [getCompact, packed]

theorem setCompact_getCompact (x : ArithUint256) :
    Truncates x.toNat (setCompact (getCompact x false)).value.toNat ∧
      (setCompact (getCompact x false)).fNegative = false ∧
      (setCompact (getCompact x false)).fOverflow = false := by
  have h := compactParts_packs x
  obtain ⟨hval, hneg, hover⟩ := setCompact_packed h.word_lt h.size_le h.word_lt_of_size
  rw [getCompact_eq_packed]
  exact ⟨by rw [hval]; exact h.truncates, hneg, hover⟩

end ButCore.ArithUint256
