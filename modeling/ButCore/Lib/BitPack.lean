import Mathlib.Data.BitVec
import Mathlib.Data.List.Basic
import Mathlib.Tactic.IntervalCases

/-!
# Bits packed into bytes

Bits are or-ed into zeroed bytes, least significant bit first, and read back for whole bytes: what
comes back is the bits with zeros up to the next multiple of eight.
-/
namespace BitPack

def setBits : List Bool → ℕ → List (BitVec 8) → List (BitVec 8)
  | [], _, bytes => bytes
  | bit :: rest, p, bytes =>
    setBits rest (p + 1)
      (bytes.modify (p / 8) (· ||| (BitVec.ofBool bit).setWidth 8 <<< (p % 8)))

def pack (bits : List Bool) : List (BitVec 8) :=
  setBits bits 0 (List.replicate ((bits.length + 7) / 8) 0)

def unpack (bytes : List (BitVec 8)) : List Bool :=
  (List.range (8 * bytes.length)).map fun p =>
    decide (bytes.getD (p / 8) 0 &&& (1 : BitVec 8) <<< (p % 8) ≠ 0)

def bitAt (bytes : List (BitVec 8)) (q : ℕ) : Bool := (bytes.getD (q / 8) 0).getLsbD (q % 8)

theorem length_setBits (bits : List Bool) (p : ℕ) (bytes : List (BitVec 8)) :
    (setBits bits p bytes).length = bytes.length := by
  induction bits generalizing p bytes with
  | nil => rfl
  | cons bit rest ih => rw [setBits, ih, List.length_modify]

theorem getLsbD_ofBool_shiftLeft (bit : Bool) {i j : ℕ} (hi : i < 8) (hj : j < 8) :
    ((BitVec.ofBool bit).setWidth 8 <<< i).getLsbD j = (bit && decide (j = i)) := by
  revert bit
  interval_cases i <;> interval_cases j <;> decide

theorem bitAt_modify {bytes : List (BitVec 8)} {p : ℕ} (bit : Bool) {q : ℕ}
    (hq : q < 8 * bytes.length) :
    bitAt (bytes.modify (p / 8) (· ||| (BitVec.ofBool bit).setWidth 8 <<< (p % 8))) q =
      (bitAt bytes q || (bit && decide (q = p))) := by
  have hlt : q / 8 < bytes.length := by omega
  unfold bitAt
  rw [List.getD_eq_getElem?_getD, List.getD_eq_getElem?_getD, List.getElem?_modify,
    List.getElem?_eq_getElem hlt]
  by_cases hsame : p / 8 = q / 8
  · simp only [hsame, if_true, Option.map_eq_map, Option.map_some, Option.getD_some,
      BitVec.getLsbD_or]
    rw [getLsbD_ofBool_shiftLeft bit (Nat.mod_lt _ (by decide)) (Nat.mod_lt _ (by decide))]
    congr 2
    rw [decide_eq_decide]
    omega
  · have hne : q ≠ p := by
      rintro rfl
      exact hsame rfl
    simp [hsame, hne]

theorem bitAt_setBits (bits : List Bool) (p : ℕ) (bytes : List (BitVec 8)) {q : ℕ}
    (hq : q < 8 * bytes.length) :
    bitAt (setBits bits p bytes) q =
      (bitAt bytes q || (decide (p ≤ q) && bits.getD (q - p) false)) := by
  induction bits generalizing p bytes with
  | nil => simp [setBits]
  | cons bit rest ih =>
    rw [setBits, ih _ _ (by rwa [List.length_modify]), bitAt_modify bit hq, Bool.or_assoc]
    congr 1
    rcases lt_trichotomy q p with hlt | rfl | hgt
    · simp [hlt.ne, not_le.mpr hlt, show ¬ p + 1 ≤ q by omega]
    · simp
    · obtain ⟨d, rfl⟩ := Nat.exists_eq_add_of_lt hgt
      simp [show p + d + 1 - (p + 1) = d by omega, show p + d + 1 - p = d + 1 by omega,
        show p + 1 ≤ p + d + 1 by omega, show p ≤ p + d + 1 by omega,
        show p + d + 1 ≠ p by omega]

theorem and_shiftLeft_ne_zero (x : BitVec 8) {i : ℕ} (hi : i < 8) :
    x &&& (1 : BitVec 8) <<< i ≠ 0 ↔ x.getLsbD i = true := by
  have htwo : (1 : BitVec 8) <<< i = BitVec.twoPow 8 i := rfl
  have hpow : BitVec.twoPow 8 i ≠ 0 := by
    clear htwo
    interval_cases i <;> decide
  rw [htwo, BitVec.and_twoPow]
  by_cases hbit : x.getLsbD i = true
  · rw [if_pos hbit]
    exact iff_of_true hpow hbit
  · rw [if_neg hbit]
    exact iff_of_false (fun h => h rfl) hbit

theorem unpack_pack (bits : List Bool) :
    unpack (pack bits) =
      bits ++ List.replicate (8 * ((bits.length + 7) / 8) - bits.length) false := by
  have hlength : (pack bits).length = (bits.length + 7) / 8 := by
    rw [pack, length_setBits, List.length_replicate]
  have hread : ∀ q < 8 * ((bits.length + 7) / 8),
      decide ((pack bits).getD (q / 8) 0 &&& (1 : BitVec 8) <<< (q % 8) ≠ 0) =
        bits.getD q false := by
    intro q hq
    have hset := bitAt_setBits bits 0 (List.replicate ((bits.length + 7) / 8) 0) (q := q)
      (by rwa [List.length_replicate])
    have hzero : bitAt (List.replicate ((bits.length + 7) / 8) 0) q = false := by
      rw [bitAt, List.getD_eq_getElem?_getD, List.getElem?_replicate, if_pos (by omega)]
      exact BitVec.getLsbD_zero
    rw [hzero, Bool.false_or, Nat.sub_zero, decide_eq_true (Nat.zero_le q), Bool.true_and] at hset
    rw [← hset, Bool.eq_iff_iff, decide_eq_true_iff]
    exact and_shiftLeft_ne_zero _ (Nat.mod_lt _ (by decide))
  apply List.ext_getElem?
  intro q
  unfold unpack
  rw [List.getElem?_map, hlength]
  by_cases hq : q < 8 * ((bits.length + 7) / 8)
  · rw [List.getElem?_range hq, Option.map_some, hread q hq]
    by_cases hlt : q < bits.length
    · rw [List.getElem?_append_left hlt, List.getElem?_eq_getElem hlt,
        List.getD_eq_getElem?_getD, List.getElem?_eq_getElem hlt, Option.getD_some]
    · rw [List.getElem?_append_right (not_lt.mp hlt), List.getElem?_replicate,
        if_pos (by omega), List.getD_eq_getElem?_getD,
        List.getElem?_eq_none (not_lt.mp hlt), Option.getD_none]
  · rw [List.getElem?_eq_none (by rw [List.length_range]; omega), Option.map_none,
      List.getElem?_eq_none (by
        rw [List.length_append, List.length_replicate]
        omega)]

end BitPack
