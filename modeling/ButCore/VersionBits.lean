import Mathlib
import ButCore.Lib.Steps

/-!
# Version bits

The state of a deployment changes only from one period to the next. `GetStateFor` walks back to a
period that the cache knows, or that is before the start time, and forward again. A block is known by
the list of the blocks from it down to the first, so the parent of the first block is the empty list.
-/
namespace ButCore.VersionBits

inductive ThresholdState where
  | defined | started | lockedIn | active | failed
  deriving DecidableEq

/-- The functions of an `AbstractThresholdConditionChecker`, and the median time of a block. -/
structure Checker (β : Type) where
  condition : List β → Bool
  beginTime : ℤ
  endTime : ℤ
  period : ℕ
  threshold : ℕ
  medianTimePast : List β → ℤ

abbrev ThresholdConditionCache (β : Type) := List β → Option ThresholdState

section

variable {β : Type} [DecidableEq β] (c : Checker β)

def align (pindexPrev : List β) : List β := pindexPrev.drop (pindexPrev.length % c.period)

def count (pindexPrev : List β) : ℕ :=
  (List.range c.period).countP fun i => c.condition (pindexPrev.drop i)

/-- The `switch` of `GetStateFor`. -/
def stateNext (state : ThresholdState) (pindexPrev : List β) : ThresholdState :=
  match state with
  | .defined =>
    if c.medianTimePast pindexPrev ≥ c.endTime then .failed
    else if c.medianTimePast pindexPrev ≥ c.beginTime then .started
    else .defined
  | .started =>
    if c.medianTimePast pindexPrev ≥ c.endTime then .failed
    else if count c pindexPrev ≥ c.threshold then .lockedIn
    else .started
  | .lockedIn => .active
  | .failed => .failed
  | .active => .active

/-- The first loop: the block it stops at, the cache, and `vToCompute` with its back first. -/
def walkBack : ℕ → List β → ThresholdConditionCache β → List (List β) →
    List β × ThresholdConditionCache β × List (List β)
  | 0, pindexPrev, cache, vToCompute => (pindexPrev, cache, vToCompute)
  | fuel + 1, pindexPrev, cache, vToCompute =>
    if (cache pindexPrev).isSome then (pindexPrev, cache, vToCompute)
    else if pindexPrev = [] ∨ c.medianTimePast pindexPrev < c.beginTime then
      (pindexPrev, Function.update cache pindexPrev (some .defined), vToCompute)
    else walkBack fuel (pindexPrev.drop c.period) cache (pindexPrev :: vToCompute)

def walkForward : List (List β) → ThresholdState → ThresholdConditionCache β →
    ThresholdState × ThresholdConditionCache β
  | [], state, cache => (state, cache)
  | pindexPrev :: vToCompute, state, cache =>
    let state := stateNext c state pindexPrev
    walkForward vToCompute state (Function.update cache pindexPrev (some state))

def getStateFor (pindexPrev : List β) (cache : ThresholdConditionCache β) :
    ThresholdState × ThresholdConditionCache β :=
  let found := walkBack c (pindexPrev.length + 1) (align c pindexPrev) cache []
  walkForward c found.2.2 ((found.2.1 found.1).getD .defined) found.2.1

def sinceLoop (initialState : ThresholdState) : ℕ → List β → ThresholdConditionCache β →
    ℕ × ThresholdConditionCache β
  | 0, pindexPrev, cache => (pindexPrev.length, cache)
  | fuel + 1, pindexPrev, cache =>
    let previousPeriodParent := pindexPrev.drop c.period
    if previousPeriodParent = [] then (pindexPrev.length, cache)
    else
      let (state, cache) := getStateFor c previousPeriodParent cache
      if state = initialState then sinceLoop initialState fuel previousPeriodParent cache
      else (pindexPrev.length, cache)

def getStateSinceHeightFor (pindexPrev : List β) (cache : ThresholdConditionCache β) :
    ℕ × ThresholdConditionCache β :=
  let (initialState, cache) := getStateFor c pindexPrev cache
  if initialState = .defined then (0, cache)
  else sinceLoop c initialState pindexPrev.length (align c pindexPrev) cache

/-- The state machine, period by period from the first block. -/
def plainState : ℕ → List β → ThresholdState
  | 0, _ => .defined
  | k + 1, pindexPrev => stateNext c (plainState k (pindexPrev.drop c.period)) pindexPrev

def bip9State (pindexPrev : List β) : ThresholdState :=
  plainState c (pindexPrev.length / c.period) pindexPrev

inductive Query (β : Type) where
  | state (pindexPrev : List β)
  | sinceHeight (pindexPrev : List β)

def query (cache : ThresholdConditionCache β) : Query β → ThresholdConditionCache β
  | .state pindexPrev => (getStateFor c pindexPrev cache).2
  | .sinceHeight pindexPrev => (getStateSinceHeightFor c pindexPrev cache).2

end

section

variable {β : Type} [DecidableEq β] {c : Checker β} {l : List β}
variable (c) in
def Aligned (l : List β) : Prop := c.period ∣ l.length

/-- A deployment with a period, that does not end before it starts, and times that do not go back. -/
structure Regular (c : Checker β) : Prop where
  period : 0 < c.period
  ends : c.beginTime ≤ c.endTime
  times : ∀ b l, l ≠ [] → c.medianTimePast l ≤ c.medianTimePast (b :: l)

omit [DecidableEq β] in
theorem aligned_align (c : Checker β) (l : List β) : Aligned c (align c l) := by
  rw [Aligned, align, List.length_drop]
  exact Nat.dvd_sub_mod l.length

omit [DecidableEq β] in
theorem Aligned.drop (aligned : Aligned c l) : Aligned c (l.drop c.period) := by
  rw [Aligned, List.length_drop]
  exact Nat.dvd_sub aligned dvd_rfl

omit [DecidableEq β] in
theorem Aligned.period_le (aligned : Aligned c l) (nonempty : l ≠ []) : c.period ≤ l.length :=
  Nat.le_of_dvd (List.length_pos_iff.mpr nonempty) aligned

omit [DecidableEq β] in
theorem bip9State_nil (c : Checker β) : bip9State c [] = .defined := by
  simp [bip9State, plainState]

omit [DecidableEq β] in
theorem bip9State_step (positive : 0 < c.period) (aligned : Aligned c l) (nonempty : l ≠ []) :
    bip9State c l = stateNext c (bip9State c (l.drop c.period)) l := by
  have le := aligned.period_le nonempty
  have quotient : l.length / c.period = (l.drop c.period).length / c.period + 1 := by
    rw [List.length_drop, ← Nat.add_div_right _ positive, Nat.sub_add_cancel le]
  rw [bip9State, quotient, plainState, bip9State]

omit [DecidableEq β] in
theorem medianTimePast_drop (regular : Regular c) (n : ℕ) (left : l.drop n ≠ []) :
    c.medianTimePast (l.drop n) ≤ c.medianTimePast l := by
  induction n generalizing l with
  | zero => exact le_rfl
  | succ n ih =>
    cases l with
    | nil => simp at left
    | cons b l =>
      rw [List.drop_succ_cons] at left ⊢
      refine (ih left).trans (regular.times b l fun h => ?_)
      simp [h] at left

omit [DecidableEq β] in
/-- Before the start time every period is defined. -/
theorem bip9State_early (regular : Regular c) (aligned : Aligned c l)
    (early : c.medianTimePast l < c.beginTime) : bip9State c l = .defined := by
  induction h : l.length using Nat.strong_induction_on generalizing l with
  | _ n ih =>
    by_cases nonempty : l = []
    · rw [nonempty, bip9State_nil]
    · have before : bip9State c (l.drop c.period) = .defined := by
        by_cases left : l.drop c.period = []
        · rw [left, bip9State_nil]
        · have := aligned.period_le nonempty
          have := regular.period
          refine ih (l.drop c.period).length ?_ aligned.drop
            ((medianTimePast_drop regular _ left).trans_lt early) rfl
          rw [List.length_drop]
          omega
      rw [bip9State_step regular.period aligned nonempty, before, stateNext,
        if_neg (not_le.mpr (early.trans_le regular.ends)), if_neg (not_le.mpr early)]

variable (c) in
def Sound (cache : ThresholdConditionCache β) : Prop :=
  ∀ l state, cache l = some state → state = bip9State c l

variable {cache : ThresholdConditionCache β}

theorem Sound.update (sound : Sound c cache) (l : List β) :
    Sound c (Function.update cache l (some (bip9State c l))) := by
  intro l' state get
  rw [Function.update_apply] at get
  split at get
  case isTrue same => rw [same, ← Option.some.inj get]
  case isFalse => exact sound l' state get

variable {fuel : ℕ}

/-- Back and forward again is the state of the block the walk starts at. -/
theorem walk_eq (regular : Regular c) (todo : List (List β)) (enough : l.length < fuel)
    (aligned : Aligned c l) (sound : Sound c cache) : ∃ cache', Sound c cache' ∧
      walkForward c (walkBack c fuel l cache todo).2.2
          (((walkBack c fuel l cache todo).2.1 (walkBack c fuel l cache todo).1).getD .defined)
          (walkBack c fuel l cache todo).2.1 =
        walkForward c todo (bip9State c l) cache' := by
  induction fuel generalizing l todo with
  | zero => omega
  | succ fuel ih =>
    rw [walkBack]
    by_cases known : (cache l).isSome
    · obtain ⟨state, get⟩ := Option.isSome_iff_exists.mp known
      rw [if_pos known]
      refine ⟨cache, sound, ?_⟩
      dsimp only
      rw [get, Option.getD_some, sound l state get]
    · rw [if_neg known]
      by_cases early : l = [] ∨ c.medianTimePast l < c.beginTime
      · have defined : bip9State c l = .defined := by
          rcases early with rfl | early
          · exact bip9State_nil c
          · exact bip9State_early regular aligned early
        rw [if_pos early]
        refine ⟨_, sound.update l, ?_⟩
        dsimp only
        rw [Function.update_self, Option.getD_some, defined]
      · rw [if_neg early]
        have nonempty : l ≠ [] := fun h => early (Or.inl h)
        have shorter : (l.drop c.period).length < fuel := by
          have := regular.period
          have := List.length_pos_iff.mpr nonempty
          rw [List.length_drop]
          omega
        obtain ⟨cache', sound', eq⟩ := ih (l :: todo) shorter aligned.drop
        refine ⟨_, sound'.update l, eq.trans ?_⟩
        rw [walkForward, ← bip9State_step regular.period aligned nonempty]

theorem getStateFor_eq (regular : Regular c) (sound : Sound c cache) (l : List β) :
    (getStateFor c l cache).1 = bip9State c (align c l) ∧ Sound c (getStateFor c l cache).2 := by
  have enough : (align c l).length < l.length + 1 := by
    rw [align, List.length_drop]
    omega
  obtain ⟨cache', sound', eq⟩ := walk_eq regular [] enough (aligned_align c l) sound
  have : getStateFor c l cache = (bip9State c (align c l), cache') := eq
  rw [this]
  exact ⟨rfl, sound'⟩

/-! ### Since when -/

omit [DecidableEq β] in
theorem align_of_aligned (aligned : Aligned c l) : align c l = l := by
  rw [align, Nat.mod_eq_zero_of_dvd aligned, List.drop_zero]

omit [DecidableEq β] in
theorem drop_succ_mul (l : List β) (n p : ℕ) : l.drop ((n + 1) * p) = (l.drop p).drop (n * p) := by
  rw [List.drop_drop, Nat.succ_mul, add_comm]

omit [DecidableEq β] in
theorem defined_drop (positive : 0 < c.period) (aligned : Aligned c l)
    (defined : bip9State c l = .defined) (n : ℕ) :
    bip9State c (l.drop (n * c.period)) = .defined := by
  induction n generalizing l with
  | zero => simpa using defined
  | succ n ih =>
    rw [drop_succ_mul]
    refine ih aligned.drop ?_
    by_cases nonempty : l = []
    · rw [nonempty, List.drop_nil, bip9State_nil]
    · rw [bip9State_step positive aligned nonempty] at defined
      cases before : bip9State c (l.drop c.period) with
      | defined => rfl
      | started =>
        rw [before, stateNext] at defined
        split_ifs at defined
      | _ => simp [before, stateNext] at defined

variable (c) in
def RunOf (l : List β) (j : ℕ) : Prop :=
  (∀ i ≤ j, bip9State c (l.drop (i * c.period)) = bip9State c l) ∧
    (l.drop (j * c.period) = [] ∨ bip9State c (l.drop ((j + 1) * c.period)) ≠ bip9State c l)

theorem sinceLoop_eq (regular : Regular c) (enough : l.length ≤ fuel) (aligned : Aligned c l)
    (later : bip9State c l ≠ .defined) (sound : Sound c cache) :
    Sound c (sinceLoop c (bip9State c l) fuel l cache).2 ∧ ∃ j, RunOf c l j ∧
      (sinceLoop c (bip9State c l) fuel l cache).1 = (l.drop (j * c.period)).length := by
  have nonempty : l ≠ [] := fun h => later (h ▸ bip9State_nil c)
  induction fuel generalizing l cache with
  | zero => exact absurd (List.length_eq_zero_iff.mp (Nat.le_zero.mp enough)) nonempty
  | succ fuel ih =>
    have first : bip9State c (l.drop c.period) ≠ bip9State c l → RunOf c l 0 := by
      intro differs
      refine ⟨fun i hi => ?_, Or.inr ?_⟩
      · rw [Nat.le_zero.mp hi, zero_mul, List.drop_zero]
      · rwa [zero_add, one_mul]
    rw [sinceLoop]
    dsimp only
    split
    case isTrue start =>
      refine ⟨sound, 0, first ?_, by rw [zero_mul, List.drop_zero]⟩
      rw [start, bip9State_nil]
      exact later.symm
    case isFalse left =>
      obtain ⟨state, sound'⟩ := getStateFor_eq regular sound (l.drop c.period)
      rw [align_of_aligned aligned.drop] at state
      rw [state]
      split
      case isTrue same =>
        have shorter : (l.drop c.period).length ≤ fuel := by
          have := regular.period
          rw [List.length_drop]
          omega
        rw [← same]
        obtain ⟨sound'', j, ⟨run, ends⟩, height⟩ :=
          ih shorter aligned.drop (same ▸ later) sound' left
        refine ⟨sound'', j + 1, ⟨fun i hi => ?_, ?_⟩, by rw [height, drop_succ_mul]⟩
        · cases i with
          | zero => rw [zero_mul, List.drop_zero]
          | succ i => rw [drop_succ_mul, run i (by omega), same]
        · rwa [drop_succ_mul, drop_succ_mul l (j + 1), ← same]
      case isFalse differs =>
        exact ⟨sound', 0, first differs, by rw [zero_mul, List.drop_zero]⟩

theorem getStateSinceHeightFor_eq (regular : Regular c) (sound : Sound c cache) (l : List β) :
    Sound c (getStateSinceHeightFor c l cache).2 ∧ ∃ j, RunOf c (align c l) j ∧
      (getStateSinceHeightFor c l cache).1 = ((align c l).drop (j * c.period)).length := by
  obtain ⟨state, sound'⟩ := getStateFor_eq regular sound l
  have aligned := aligned_align c l
  unfold getStateSinceHeightFor
  dsimp only
  rw [state]
  split
  case isTrue defined =>
    have whole : (align c l).drop ((align c l).length / c.period * c.period) = [] := by
      rw [Nat.div_mul_cancel aligned, List.drop_length]
    refine ⟨sound', (align c l).length / c.period, ⟨fun i _ => ?_, Or.inl whole⟩, by rw [whole]; rfl⟩
    rw [defined_drop regular.period aligned defined, defined]
  case isFalse later =>
    have enough : (align c l).length ≤ l.length := by
      rw [align, List.length_drop]
      omega
    exact sinceLoop_eq regular enough aligned later sound'

/-! ### Periods -/

omit [DecidableEq β] in
theorem align_append {ext : List β} (same : (ext ++ l).length / c.period = l.length / c.period) :
    align c (ext ++ l) = align c l := by
  have h₁ := Nat.div_add_mod (ext ++ l).length c.period
  have h₂ := Nat.div_add_mod l.length c.period
  rw [same] at h₁
  rw [align, align, show (ext ++ l).length % c.period = ext.length + l.length % c.period by
    rw [List.length_append] at h₁ ⊢
    omega]
  rw [← List.drop_drop, List.drop_left]

omit [DecidableEq β] in
/-- One block more either stays in the period or ends it. -/
theorem align_cons (positive : 0 < c.period) (b : β) (l : List β) :
    align c (b :: l) = align c l ∨
      align c (b :: l) = b :: l ∧ (b :: l).drop c.period = align c l := by
  have bound := Nat.mod_lt l.length positive
  have split := Nat.div_add_mod l.length c.period
  by_cases inside : l.length % c.period + 1 < c.period
  · have next : (b :: l).length % c.period = l.length % c.period + 1 := by
      rw [List.length_cons, ← split, add_assoc, Nat.mul_add_mod, split, Nat.mod_eq_of_lt inside]
    left
    rw [align, next, List.drop_succ_cons, align]
  · have full : c.period = l.length % c.period + 1 := by omega
    have next : (b :: l).length % c.period = 0 := by
      rw [List.length_cons, ← split, add_assoc, ← full, Nat.mul_add_mod, Nat.mod_self]
    right
    refine ⟨by rw [align, next, List.drop_zero], ?_⟩
    rw [align]
    nth_rewrite 1 [full]
    rw [List.drop_succ_cons]

omit [DecidableEq β] in
theorem terminal_append (positive : 0 < c.period) {state : ThresholdState}
    (terminal : state = .active ∨ state = .failed) (h : bip9State c (align c l) = state)
    (ext : List β) : bip9State c (align c (ext ++ l)) = state := by
  induction ext with
  | nil => exact h
  | cons b ext ih =>
    rw [List.cons_append]
    rcases align_cons positive b (ext ++ l) with same | ⟨whole, before⟩
    · rw [same, ih]
    · have aligned := aligned_align c (b :: (ext ++ l))
      rw [whole] at aligned ⊢
      rw [bip9State_step positive aligned (List.cons_ne_nil _ _), before, ih]
      rcases terminal with rfl | rfl <;> rfl

theorem Sound.query (regular : Regular c) (sound : Sound c cache) (q : Query β) : Sound c (query c cache q) := by
  cases q with
  | state l => exact (getStateFor_eq regular sound l).2
  | sinceHeight l => exact (getStateSinceHeightFor_eq regular sound l).1

/-- After any queries, the answers are those of the state machine. -/
theorem run_versionBits (c : Checker β) (regular : Regular c) (queries : List (Query β))
    (l : List β) :
    (getStateFor c l (Steps.run (query c) (fun _ => none) queries)).1 = bip9State c (align c l) ∧
      (∀ ext : List β, (ext ++ l).length / c.period = l.length / c.period →
        bip9State c (align c (ext ++ l)) = bip9State c (align c l)) ∧
      (∀ state, state = .active ∨ state = .failed → bip9State c (align c l) = state →
        ∀ ext : List β, bip9State c (align c (ext ++ l)) = state) ∧
      ∃ j, RunOf c (align c l) j ∧
        (getStateSinceHeightFor c l (Steps.run (query c) (fun _ => none) queries)).1 =
          ((align c l).drop (j * c.period)).length := by
  have sound : Sound c (Steps.run (query c) (fun _ => none) queries) := by
    induction queries using List.reverseRecOn with
    | nil => exact fun _ _ get => nomatch get
    | append_singleton queries q ih =>
      rw [Steps.run, List.foldl_append]
      exact ih.query regular q
  exact ⟨(getStateFor_eq regular sound l).1, fun ext same => by rw [align_append same],
    fun state terminal h ext => terminal_append regular.period terminal h ext,
    (getStateSinceHeightFor_eq regular sound l).2⟩

def toyChecker (beginTime endTime : ℤ) : Checker Unit :=
  ⟨fun _ => true, beginTime, endTime, 2, 2, fun l => l.length⟩

theorem regular_toyChecker : Regular (toyChecker 1 100) :=
  ⟨by decide, by decide, fun b l _ => by simp [toyChecker]⟩

theorem run_versionBits_started :
    (getStateFor (toyChecker 1 100) [(), (), ()] (Steps.run (query (toyChecker 1 100))
      (fun _ => none) [.sinceHeight [()]])).1 = .started :=
  (run_versionBits (toyChecker 1 100) regular_toyChecker [.sinceHeight [()]] [(), (), ()]).1

/-- The deployment is over before it starts. The walk stops at the start time, the recursion does not. -/
theorem getStateFor_endsEarly :
    (getStateFor (toyChecker 10 5) (List.replicate 6 ()) fun _ => none).1 = .defined ∧
      bip9State (toyChecker 10 5) (align (toyChecker 10 5) (List.replicate 6 ())) = .failed := by
  decide

end

end ButCore.VersionBits
