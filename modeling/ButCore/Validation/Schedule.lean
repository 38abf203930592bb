import Mathlib
import ButCore.Lib.Staircase
import ButCore.Validation.Subsidy

/-!
# The subsidy schedule

After the launch `GetBlockSubsidy` is a staircase, but its intervals are open on both sides: the
heights between two flights get the initial amount again, and so do a hundred million heights before
the last one.
-/
namespace ButCore.Validation

open Staircase

def schedule : List Flight :=
  [⟨721, 553532, 5000 * COIN, 0⟩, ⟨553532, 2105657, 4990 * COIN, 10 * COIN⟩,
    ⟨2105658, 5273695, 4250 * COIN, 20 * COIN⟩, ⟨5273696, 7378633, 1280 * COIN, 10 * COIN⟩,
    ⟨7378634, 8399209, 295 * COIN, 5 * COIN⟩, ⟨8399210, 14735285, 55 * COIN, 0⟩,
    ⟨14735286, 15798385, 54 * COIN, 1 * COIN⟩, ⟨15798386, 25844304, 5 * COIN, 0⟩]

theorem schedule_descending : Descending owlings schedule := by decide +kernel

def Uncovered (h : ℤ) : Prop :=
  h ∈ [2105657, 5273695, 7378633, 8399209, 14735285, 15798385] ∨ 25844304 ≤ h ∧ h ≤ 125844304

instance (h : ℤ) : Decidable (Uncovered h) := inferInstanceAs (Decidable (_ ∨ _))

theorem uncovered_cases {h : ℤ} (launched : 721 ≤ h) :
    Uncovered h ∨ (∃ f ∈ schedule, f.Covers h) ∨ 125844304 < h := by
  simp only [Uncovered, schedule, Flight.Covers, List.mem_cons, List.not_mem_nil, or_false,
    exists_eq_or_imp, exists_eq_left]
  omega

theorem getBlockSubsidy_of_uncovered {h : ℤ} (uncovered : Uncovered h) :
    getBlockSubsidy h = 5000 * COIN := by
  simp only [Uncovered, List.mem_cons, List.not_mem_nil, or_false] at uncovered
  unfold getBlockSubsidy
  iterate 10 rw [if_neg (by omega)]

theorem getBlockSubsidy_of_last {h : ℤ} (late : 125844304 < h) : getBlockSubsidy h = 100000 := by
  unfold getBlockSubsidy
  iterate 9 rw [if_neg (by omega)]
  rw [if_pos late]

theorem getBlockSubsidy_of_covers {f : Flight} (hf : f ∈ schedule) {h : ℤ} (covers : f.Covers h) :
    getBlockSubsidy h = f.value owlings h := by
  simp only [schedule, List.mem_cons, List.not_mem_nil, or_false] at hf
  obtain ⟨lower, upper⟩ := covers
  unfold getBlockSubsidy Flight.value
  obtain rfl | rfl | rfl | rfl | rfl | rfl | rfl | rfl := hf <;> dsimp only at lower upper ⊢
  · iterate 10 rw [if_neg (by omega)]
    ring
  · iterate 2 rw [if_neg (by omega)]
    rw [if_pos ⟨by omega, by omega⟩]
    ring
  · iterate 3 rw [if_neg (by omega)]
    rw [if_pos ⟨by omega, by omega⟩]
    ring
  · iterate 4 rw [if_neg (by omega)]
    rw [if_pos ⟨by omega, by omega⟩]
    ring
  · iterate 5 rw [if_neg (by omega)]
    rw [if_pos ⟨by omega, by omega⟩]
    ring
  · iterate 6 rw [if_neg (by omega)]
    rw [if_pos ⟨by omega, by omega⟩]
    ring
  · iterate 7 rw [if_neg (by omega)]
    rw [if_pos ⟨by omega, by omega⟩]
    ring
  · iterate 8 rw [if_neg (by omega)]
    rw [if_pos ⟨by omega, by omega⟩]
    ring

theorem getBlockSubsidy_le_top {f : Flight} (hf : f ∈ schedule) (nonempty : f.start < f.stop) {h : ℤ}
    (hstart : f.start ≤ h) (hcovered : ∃ g ∈ schedule, g.Covers h) : getBlockSubsidy h ≤ f.top := by
  obtain ⟨g, hg, covers⟩ := hcovered
  rw [getBlockSubsidy_of_covers hg covers]
  calc
    g.value owlings h ≤ f.value owlings f.start :=
      value_le_of_descending (by decide) schedule_descending hf hg ⟨le_rfl, nonempty⟩ covers hstart
    _ ≤ f.top :=
      Flight.value_le_top (by decide) (schedule_descending.1 f hf) ⟨le_rfl, nonempty⟩

theorem stop_le_of_mem_schedule : ∀ f ∈ schedule, f.stop ≤ 25844304 := by decide

/-- The amount does not grow from one height to another exactly when the second one has a branch of
its own, or the first one has the initial amount as well. -/
theorem getBlockSubsidy_le_iff {a b : ℤ} (launched : 721 ≤ a) (hab : a ≤ b) :
    getBlockSubsidy b ≤ getBlockSubsidy a ↔ ¬ Uncovered b ∨ a ≤ 553531 ∨ Uncovered a := by
  constructor
  · intro hle
    by_contra hnot
    obtain ⟨hb, late, ha⟩ : Uncovered b ∧ 553531 < a ∧ ¬ Uncovered a := by
      simpa only [not_or, not_not, not_le] using hnot
    have lower : getBlockSubsidy a ≤ 4990 * COIN := by
      obtain uncovered | covered | last := uncovered_cases launched
      · exact absurd uncovered ha
      · exact getBlockSubsidy_le_top (f := ⟨553532, 2105657, 4990 * COIN, 10 * COIN⟩) (by decide)
          (by decide) late covered
      · rw [getBlockSubsidy_of_last last]
        decide
    rw [getBlockSubsidy_of_uncovered hb] at hle
    exact absurd (hle.trans lower) (by decide)
  · intro h
    have initial (hb : Uncovered b) : getBlockSubsidy a = 5000 * COIN := by
      obtain hb' | early | ha := h
      · exact absurd hb hb'
      · rw [getBlockSubsidy_of_covers (f := ⟨721, 553532, 5000 * COIN, 0⟩) (by decide)
          ⟨launched, Int.lt_add_one_of_le early⟩, Flight.value]
        ring
      · exact getBlockSubsidy_of_uncovered ha
    obtain uncovered | ⟨g, hg, covers⟩ | last := uncovered_cases (launched.trans hab)
    · rw [getBlockSubsidy_of_uncovered uncovered, initial uncovered]
    · obtain uncovered' | ⟨f, hf, covers'⟩ | last' := uncovered_cases launched
      · rw [getBlockSubsidy_of_uncovered uncovered']
        exact getBlockSubsidy_le_top (f := ⟨721, 553532, 5000 * COIN, 0⟩) (by decide) (by decide)
          (launched.trans hab) ⟨g, hg, covers⟩
      · rw [getBlockSubsidy_of_covers hg covers, getBlockSubsidy_of_covers hf covers']
        exact value_le_of_descending (by decide) schedule_descending hf hg covers' covers hab
      · have := stop_le_of_mem_schedule g hg
        have := covers.2
        omega
    · rw [getBlockSubsidy_of_last last]
      exact getBlockSubsidy_ge a

theorem getBlockSubsidy_le_laterFlight :
    getBlockSubsidy 2105658 ≤ getBlockSubsidy 2105656 :=
  (getBlockSubsidy_le_iff (by decide) (by decide)).mpr (.inl (by decide))

/-- The amount jumps from 4270 to 5000 coins between the second flight and the third. -/
theorem getBlockSubsidy_jumps : getBlockSubsidy 2105656 < getBlockSubsidy 2105657 := by decide +kernel

/-! ### All coins -/

def issued : ℕ → CAmount
  | 0 => 0
  | h + 1 => issued h + getBlockSubsidy h

theorem issued_lt_succ (h : ℕ) : issued h < issued (h + 1) :=
  lt_add_of_pos_right _ (lt_of_lt_of_le (by decide) (getBlockSubsidy_ge h))

theorem issued_strictMono : StrictMono issued := strictMono_nat_of_lt_succ issued_lt_succ

theorem issued_flight {f : Flight} (values : ∀ h, f.Covers h → getBlockSubsidy h = f.value owlings h)
    (start n stop : ℕ) (hstart : f.start = start) (hstop : start + n = stop) (hn : stop ≤ f.stop) :
    issued stop = issued start + (n * f.top - f.drop * floorSum 21262 n) := by
  subst hstop
  refine sum_flight (by decide) hstart ?_ (by rw [hstart]; exact_mod_cast hn)
  intro h covers
  rw [issued, values h covers]
  rfl

theorem issued_uncovered (h next : ℕ) (hnext : h + 1 = next) (uncovered : Uncovered h) :
    issued next = issued h + 5000 * COIN := by
  subst hnext
  rw [issued, getBlockSubsidy_of_uncovered uncovered]

theorem issued_launch : issued 721 = 329 * (5000000 * COIN) + 392 * (4 * COIN) := by
  have first := issued_flight (f := ⟨0, 329, 5000000 * COIN, 0⟩) (fun h covers => by
    rw [getBlockSubsidy, if_pos covers.2, Flight.value]
    ring) 0 329 329 rfl rfl le_rfl
  have second := issued_flight (f := ⟨329, 721, 4 * COIN, 0⟩) (fun h covers => by
    rw [getBlockSubsidy, if_neg (not_lt.mpr covers.1), if_pos covers.2, Flight.value]
    ring) 329 392 721 rfl rfl le_rfl
  rw [first, show issued 0 = 0 from rfl] at second
  rw [second]
  ring

theorem issued_last : issued 5817413 = 2099999965800000000 := by
  have scheduled {f : Flight} (hf : f ∈ schedule) := issued_flight fun _ =>
    getBlockSubsidy_of_covers hf
  have first := scheduled (f := ⟨721, 553532, 5000 * COIN, 0⟩) (by decide)
    721 552811 553532 rfl rfl le_rfl
  have second := scheduled (f := ⟨553532, 2105657, 4990 * COIN, 10 * COIN⟩) (by decide)
    553532 1552125 2105657 rfl rfl le_rfl
  have third := scheduled (f := ⟨2105658, 5273695, 4250 * COIN, 20 * COIN⟩) (by decide)
    2105658 3168037 5273695 rfl rfl le_rfl
  have fourth := scheduled (f := ⟨5273696, 7378633, 1280 * COIN, 10 * COIN⟩) (by decide)
    5273696 543717 5817413 rfl rfl (by decide)
  rw [fourth, issued_uncovered 5273695 5273696 rfl (by decide), third,
    issued_uncovered 2105657 2105658 rfl (by decide), second, first, issued_launch]
  decide +kernel

/-- The total stays an amount exactly up to height 5817413. -/
theorem moneyRange_issued_iff (h : ℕ) : MoneyRange (issued h) true = true ↔ h ≤ 5817413 := by
  rw [MoneyRange_true_iff]
  constructor
  · intro ⟨_, hmax⟩
    by_contra hlate
    have next : issued (5817413 + 1) = 2099999965800000000 + getBlockSubsidy 5817413 := by
      rw [issued, issued_last]
      rfl
    have amount : getBlockSubsidy 5817413 = 103000000000 := by decide +kernel
    have grown := issued_strictMono.monotone (Nat.succ_le_of_lt (not_le.mp hlate))
    rw [Nat.succ_eq_add_one, next, amount] at grown
    exact absurd (grown.trans hmax) (by decide)
  · intro hearly
    refine ⟨issued_strictMono.monotone (Nat.zero_le h), ?_⟩
    calc
      issued h ≤ issued 5817413 := issued_strictMono.monotone hearly
      _ = 2099999965800000000 := issued_last
      _ ≤ 2100000000000000000 := by decide

theorem issued_not_moneyRange : MoneyRange (issued 5817414) true = false := by
  rw [← Bool.not_eq_true]
  intro h
  rw [MoneyRange_true_iff, show 5817414 = 5817413 + 1 from rfl, issued, issued_last] at h
  exact absurd h.2 (by decide +kernel)

end ButCore.Validation
