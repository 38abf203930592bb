import Mathlib.Data.Finset.Image
import Mathlib.Data.List.GetD
import Mathlib.Data.Nat.Log
import ButCore.Llmq.Params

/-!
# The connections inside a quorum

`GetQuorumConnections` walks over the ring of the members with doubling gaps. Its `continue` leaves
the variables of the loop as they are. A member is known by its `proTxHash`, and a list is never
longer than `params.size`, an `int`, so that no gap overflows.
-/
namespace ButCore.Llmq.Connections

structure Loop where
  gap : ℕ
  gapMax : ℕ
  k : ℕ
  result : Finset Uint256

section

variable (mns : List Uint256) (i : ℕ)

def memberAt (gap : ℕ) : Uint256 := mns.getD ((i + gap) % mns.length) 0

def round (s : Loop) : Option Loop :=
  let gapMax := s.gapMax / 2
  if gapMax ≠ 0 ∨ s.k ≤ 1 then
    let other := memberAt mns i s.gap
    if other = mns.getD i 0 then some { s with gapMax := gapMax }
    else some ⟨s.gap * 2, gapMax, s.k + 1, insert other s.result⟩
  else none

/-- What the loop leaves if it ends within `rounds`. -/
def runLoop : ℕ → Loop → Option (Finset Uint256)
  | 0, _ => none
  | rounds + 1, s =>
    match round mns i s with
    | none => some s.result
    | some s' => runLoop rounds s'

/-- `mns` are the members that `GetAllQuorumMembers` gives. -/
def getQuorumConnections (rounds : ℕ) (forMember : Uint256) : Option (Finset Uint256) :=
  if forMember ∈ mns then runLoop mns (mns.idxOf forMember) rounds ⟨1, mns.length - 1, 0, ∅⟩
  else some ∅

/-- The members at the gaps `2 ^ k` for `k` up to `max(1, floor(log2(n-1))-1)`. -/
def gapMembers (forMember : Uint256) : Finset Uint256 :=
  (Finset.range (max 1 (Nat.log 2 (mns.length - 1) - 1) + 1)).image fun k =>
    memberAt mns (mns.idxOf forMember) (2 ^ k)

end

section

variable {mns : List Uint256} {i : ℕ}

theorem memberAt_ne (distinct : mns.Nodup) (hi : i < mns.length) {gap : ℕ} (positive : 0 < gap)
    (short : gap < mns.length) : memberAt mns i gap ≠ mns.getD i 0 := by
  have hlt : (i + gap) % mns.length < mns.length := Nat.mod_lt _ (by omega)
  have moved : (i + gap) % mns.length ≠ i := by
    rcases lt_or_ge (i + gap) mns.length with h | h
    · rw [Nat.mod_eq_of_lt h]
      omega
    · rw [Nat.mod_eq_sub_mod h, Nat.mod_eq_of_lt (by omega)]
      omega
  rw [memberAt, List.getD_eq_getElem _ _ hlt, List.getD_eq_getElem _ _ hi]
  exact fun heq => moved ((distinct.getElem_inj_iff).mp heq)

def loopAt (mns : List Uint256) (i k : ℕ) : Loop where
  gap := 2 ^ k
  gapMax := (mns.length - 1) / 2 ^ k
  k := k
  result := (Finset.range k).image fun j => memberAt mns i (2 ^ j)

theorem continues_iff (large : 3 ≤ mns.length) (k : ℕ) :
    ((mns.length - 1) / 2 ^ k / 2 ≠ 0 ∨ k ≤ 1) ↔
      k < max 1 (Nat.log 2 (mns.length - 1) - 1) + 1 := by
  have halved : (mns.length - 1) / 2 ^ k / 2 ≠ 0 ↔ k + 1 ≤ Nat.log 2 (mns.length - 1) := by
    rw [Nat.le_log_iff_pow_le (by omega) (by omega), Nat.div_div_eq_div_mul, ← pow_succ,
      Nat.div_ne_zero_iff]
    exact and_iff_right (pow_ne_zero _ two_ne_zero)
  rw [halved]
  omega

theorem pow_lt_of_continues (large : 3 ≤ mns.length) {k : ℕ}
    (continues : (mns.length - 1) / 2 ^ k / 2 ≠ 0 ∨ k ≤ 1) : 2 ^ k < mns.length := by
  rcases continues with halved | early
  · have positive : (mns.length - 1) / 2 ^ k ≠ 0 := by
      intro h
      rw [h] at halved
      exact halved rfl
    have := (Nat.div_ne_zero_iff.mp positive).2
    omega
  · have : 2 ^ k ≤ 2 ^ 1 := Nat.pow_le_pow_right (by omega) early
    omega

theorem round_loopAt (distinct : mns.Nodup) (large : 3 ≤ mns.length) (hi : i < mns.length) (k : ℕ) :
    round mns i (loopAt mns i k) =
      if k < max 1 (Nat.log 2 (mns.length - 1) - 1) + 1 then some (loopAt mns i (k + 1))
      else none := by
  unfold round loopAt
  dsimp only
  by_cases continues : (mns.length - 1) / 2 ^ k / 2 ≠ 0 ∨ k ≤ 1
  · have other := memberAt_ne distinct hi (Nat.two_pow_pos k) (pow_lt_of_continues large continues)
    rw [if_pos continues, if_neg other, if_pos ((continues_iff large k).mp continues), pow_succ,
      Nat.div_div_eq_div_mul, Finset.range_add_one, Finset.image_insert]
  · rw [if_neg continues, if_neg (mt (continues_iff large k).mpr continues)]

theorem runLoop_loopAt (distinct : mns.Nodup) (large : 3 ≤ mns.length) (hi : i < mns.length)
    {last : ℕ} (hlast : last = max 1 (Nat.log 2 (mns.length - 1) - 1) + 1) (left k : ℕ)
    (hleft : k + left = last) :
    runLoop mns i (left + 1) (loopAt mns i k) = some (loopAt mns i last).result := by
  induction left generalizing k with
  | zero =>
    obtain rfl : k = last := hleft
    rw [runLoop, round_loopAt distinct large hi, if_neg (by omega)]
  | succ left ih =>
    rw [runLoop, round_loopAt distinct large hi, if_pos (by omega)]
    exact ih (k + 1) (by omega)

/-- When the gap leads back to the member itself and `gapMax` is used up, the round changes nothing
and is repeated for ever. -/
theorem runLoop_of_self {gap k : ℕ} {result : Finset Uint256}
    (self : memberAt mns i gap = mns.getD i 0) (early : k ≤ 1) (rounds : ℕ) :
    runLoop mns i rounds ⟨gap, 0, k, result⟩ = none := by
  have stuck : round mns i ⟨gap, 0, k, result⟩ = some ⟨gap, 0, k, result⟩ := by
    unfold round
    rw [if_pos (Or.inr early), if_pos self, Nat.zero_div]
  induction rounds with
  | zero => rfl
  | succ rounds ih =>
    rw [runLoop, stuck]
    exact ih

theorem runLoop_two {mns : List Uint256} (distinct : mns.Nodup) (two : mns.length = 2) {i : ℕ}
    (hi : i < 2) (rounds : ℕ) : runLoop mns i rounds ⟨1, 1, 0, ∅⟩ = none := by
  have other := memberAt_ne distinct (two ▸ hi) one_pos (by omega)
  have first : round mns i ⟨1, 1, 0, ∅⟩ = some ⟨2, 0, 1, {memberAt mns i 1}⟩ := by
    unfold round
    rw [if_pos (Or.inr (Nat.zero_le 1)), if_neg other]
    rfl
  have back : memberAt mns i 2 = mns.getD i 0 := by
    rw [memberAt, two, Nat.add_mod_right, Nat.mod_eq_of_lt hi]
  cases rounds with
  | zero => rfl
  | succ rounds =>
    rw [runLoop, first]
    exact runLoop_of_self back le_rfl rounds

end

/-- The call returns, with the members at the gaps, exactly when there are three members. -/
theorem getQuorumConnections_returns_iff (mns : List Uint256) (distinct : mns.Nodup)
    (forMember : Uint256) (member : forMember ∈ mns) :
    (∃ rounds, getQuorumConnections mns rounds forMember = some (gapMembers mns forMember) ∧
      ∀ m ∈ gapMembers mns forMember, m ∈ mns ∧ m ≠ forMember) ↔ 3 ≤ mns.length := by
  have hi := List.idxOf_lt_length_of_mem member
  have self : mns.getD (mns.idxOf forMember) 0 = forMember := by
    rw [List.getD_eq_getElem _ _ hi, List.getElem_idxOf]
  simp only [getQuorumConnections, if_pos member]
  constructor
  · rintro ⟨rounds, returned, -⟩
    by_contra small
    rcases (by omega : mns.length = 1 ∨ mns.length = 2) with one | two
    · obtain ⟨x, rfl⟩ := List.length_eq_one_iff.mp one
      rw [Nat.lt_one_iff.mp hi, one, runLoop_of_self (by simp [memberAt]) zero_le_one] at returned
      cases returned
    · rw [two, runLoop_two distinct two (two ▸ hi)] at returned
      cases returned
  · intro large
    refine ⟨max 1 (Nat.log 2 (mns.length - 1) - 1) + 1 + 1, ?_, ?_⟩
    · have start : loopAt mns (mns.idxOf forMember) 0 = ⟨1, mns.length - 1, 0, ∅⟩ := by
        simp [loopAt]
      rw [← start]
      exact runLoop_loopAt distinct large hi rfl _ 0 (Nat.zero_add _)
    · intro m hm
      obtain ⟨k, hk, rfl⟩ := Finset.mem_image.mp hm
      have short := pow_lt_of_continues large ((continues_iff large k).mpr (Finset.mem_range.mp hk))
      have other := memberAt_ne distinct hi (Nat.two_pow_pos k) short
      rw [self] at other
      refine ⟨?_, other⟩
      rw [memberAt, List.getD_eq_getElem _ _ (Nat.mod_lt _ (by omega))]
      exact List.getElem_mem _

theorem getQuorumConnections_returns_five :
    ∃ rounds, getQuorumConnections [10, 11, 12, 13, 14] rounds 13 =
        some (gapMembers [10, 11, 12, 13, 14] 13) ∧
      ∀ m ∈ gapMembers [10, 11, 12, 13, 14] 13, m ∈ [10, 11, 12, 13, 14] ∧ m ≠ 13 :=
  (getQuorumConnections_returns_iff [10, 11, 12, 13, 14] (by decide) 13 (by decide)).mpr (by decide)

/-- A session is initialised with two members, and the call does not return for either of them. -/
theorem getQuorumConnections_loops :
    Consensus.llmq3_60.minSize ≤ [10, 11].length ∧ [10, 11].length ≤ Consensus.llmq3_60.size ∧
      ∀ forMember ∈ [10, 11], ∀ rounds, getQuorumConnections [10, 11] rounds forMember = none := by
  refine ⟨by decide, by decide, ?_⟩
  intro forMember member rounds
  unfold getQuorumConnections
  rw [if_pos member]
  exact runLoop_two (by decide) rfl (List.idxOf_lt_length_of_mem member) rounds

end ButCore.Llmq.Connections
