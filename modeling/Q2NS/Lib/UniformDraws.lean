import Mathlib.MeasureTheory.Integral.IntervalIntegral.Basic
import Mathlib.Analysis.SpecialFunctions.Integrals.Basic
import Mathlib.Analysis.CStarAlgebra.Classes
import Q2NS.Lib.QuadForm

/-!
# Averages over uniform draws

Functions of a list of draws, averaged over the draws, each uniform on `[0, 1]`: a
threshold, a choice among three, and the phases of a random unitary.
-/

namespace Q2NS.UniformDraws

open MeasureTheory

/-- The average of `f` over `k` independent draws. -/
noncomputable def average : ℕ → (List ℝ → ℂ) → ℂ
  | 0, f => f []
  | k + 1, f => ∫ x in (0 : ℝ)..1, average k fun xs => f (x :: xs)

theorem average_const (k : ℕ) (A : ℂ) : average k (fun _ => A) = A := by
  induction k with
  | zero => rfl
  | succ k ih => rw [average, ih, intervalIntegral.integral_const, sub_zero, one_smul]

/-! ## Thresholds -/

/-- A draw below `p`, as a number. -/
noncomputable def below (p x : ℝ) : ℂ := if x < p then 1 else 0

theorem below_eq_indicator (p : ℝ) : below p = (Set.Iio p).indicator fun _ => (1 : ℂ) := by
  funext x
  rw [below, Set.indicator_apply]
  rfl

theorem integrable_below (p : ℝ) :
    IntervalIntegrable (below p) volume 0 1 := by
  have hfinite : volume (Set.uIoc (0 : ℝ) 1) ≠ ⊤ := by
    rw [Set.uIoc_of_le zero_le_one]
    exact measure_Ioc_lt_top.ne
  rw [below_eq_indicator, intervalIntegrable_iff]
  exact (integrableOn_const hfinite enorm_ne_top).indicator measurableSet_Iio

theorem integral_below {p : ℝ} (h0 : 0 ≤ p) (h1 : p ≤ 1) :
    ∫ x in (0 : ℝ)..1, below p x = p := by
  have hset : Set.Iio p ∩ Set.Ioc 0 1 = Set.Ioo 0 p := by
    ext x
    simp only [Set.mem_inter_iff, Set.mem_Iio, Set.mem_Ioc, Set.mem_Ioo]
    exact ⟨fun h => ⟨h.2.1, h.1⟩, fun h => ⟨h.2, h.1, h.2.le.trans h1⟩⟩
  rw [intervalIntegral.integral_of_le zero_le_one, below_eq_indicator,
    integral_indicator_const _ measurableSet_Iio, measureReal_restrict_apply measurableSet_Iio,
    hset, Real.volume_real_Ioo_of_le h0, sub_zero, Complex.real_smul, mul_one]

/-- A choice by a threshold is a mixture. -/
theorem integral_threshold {p : ℝ} (h0 : 0 ≤ p) (h1 : p ≤ 1) (A B : ℂ) :
    ∫ x in (0 : ℝ)..1, (if x < p then A else B) = p * A + (1 - p) * B := by
  have hlinear : (fun x : ℝ => if x < p then A else B) =
      fun x => below p x * (A - B) + B := by
    funext x
    rw [below]
    split_ifs <;> ring
  rw [hlinear, intervalIntegral.integral_add ((integrable_below p).mul_const _)
    intervalIntegrable_const, intervalIntegral.integral_mul_const, integral_below h0 h1,
    intervalIntegral.integral_const, sub_zero, one_smul]
  ring

/-- A choice among three by two thresholds. -/
theorem integral_thirds (A B C : ℂ) :
    ∫ x in (0 : ℝ)..1, (if x < 1 / 3 then A else if x < 2 / 3 then B else C) =
      1 / 3 * (A + B + C) := by
  have hlinear : (fun x : ℝ => if x < 1 / 3 then A else if x < 2 / 3 then B else C) =
      fun x => below (1 / 3) x * (A - B) + (below (2 / 3) x * (B - C) + C) := by
    funext x
    rw [below, below]
    split_ifs with h₁ h₂
    · ring
    · exact absurd (h₁.trans (by norm_num)) h₂
    · ring
    · ring
  rw [hlinear, intervalIntegral.integral_add ((integrable_below _).mul_const _)
      (((integrable_below _).mul_const _).add intervalIntegrable_const),
    intervalIntegral.integral_add ((integrable_below _).mul_const _) intervalIntegrable_const,
    intervalIntegral.integral_mul_const, intervalIntegral.integral_mul_const,
    integral_below (by norm_num) (by norm_num), integral_below (by norm_num) (by norm_num),
    intervalIntegral.integral_const, sub_zero, one_smul]
  push_cast
  ring

/-! ## Phases -/

/-- The point of the unit circle after `m` times the fraction `x` of a turn. -/
noncomputable def turn (m : ℤ) (x : ℝ) : ℂ :=
  Complex.exp ((2 : ℕ) * Real.pi * Complex.I * m * x)

theorem turn_mul (m k : ℤ) (x : ℝ) : turn m x * turn k x = turn (m + k) x := by
  rw [turn, turn, turn, ← Complex.exp_add]
  congr 1
  push_cast
  ring

theorem turn_eq (m : ℤ) (x : ℝ) :
    turn m x = ⟨Real.cos (2 * Real.pi * m * x), Real.sin (2 * Real.pi * m * x)⟩ := by
  have harg : (2 : ℕ) * Real.pi * Complex.I * m * x =
      ((2 * Real.pi * m * x : ℝ) : ℂ) * Complex.I := by
    push_cast
    ring
  rw [turn, harg]
  exact Complex.ext (Complex.exp_ofReal_mul_I_re _) (Complex.exp_ofReal_mul_I_im _)

theorem continuous_turn (m : ℤ) : Continuous (turn m) := by
  unfold turn
  fun_prop

theorem conj_turn (m : ℤ) (x : ℝ) : starRingEnd ℂ (turn m x) = turn (-m) x := by
  rw [turn, turn, ← Complex.exp_conj]
  congr 1
  simp only [map_mul, Complex.conj_ofReal, Complex.conj_I, map_natCast, map_intCast]
  push_cast
  ring

theorem integral_turn (m : ℤ) :
    ∫ x in (0 : ℝ)..1, turn m x = if m = 0 then 1 else 0 := by
  split_ifs with hm
  · simp [turn, hm]
  · have hc : (2 : ℕ) * (Real.pi : ℂ) * Complex.I * m ≠ 0 := by
      simp [Real.pi_ne_zero, hm]
    simp only [turn]
    rw [integral_exp_mul_complex hc]
    have hfull : Complex.exp ((2 : ℕ) * Real.pi * Complex.I * m * ((1 : ℝ) : ℂ)) = 1 := by
      rw [Complex.ofReal_one, mul_one, mul_comm, Nat.cast_ofNat]
      exact Complex.exp_int_mul_two_pi_mul_I m
    rw [hfull, Complex.ofReal_zero, mul_zero, Complex.exp_zero, sub_self, zero_div]

theorem integral_sum {ι : Type*} (s : Finset ι) {f : ι → ℝ → ℂ}
    (hf : ∀ i, Continuous (f i)) :
    ∫ x in (0 : ℝ)..1, ∑ i ∈ s, f i x = ∑ i ∈ s, ∫ x in (0 : ℝ)..1, f i x :=
  intervalIntegral.integral_finsetSum fun i _ => (hf i).intervalIntegrable 0 1

/-- Three draws, for a radius and two phases: only the terms without phases are left. -/
theorem integral_phases {ι : Type*} (s : Finset ι) (v : ι → ℂ) {r : ι → ℝ → ℂ}
    (hr : ∀ i, Continuous (r i)) (m k : ι → ℤ) :
    (∫ a in (0 : ℝ)..1, ∫ b in (0 : ℝ)..1, ∫ c in (0 : ℝ)..1,
      ∑ i ∈ s, v i * (r i a * turn (m i) b * turn (k i) c)) =
      ∑ i ∈ s, v i * if m i = 0 ∧ k i = 0 then ∫ a in (0 : ℝ)..1, r i a else 0 := by
  have hinner : ∀ a b : ℝ, (∫ c in (0 : ℝ)..1,
      ∑ i ∈ s, v i * (r i a * turn (m i) b * turn (k i) c)) =
        ∑ i ∈ s, v i * (r i a * turn (m i) b) * if k i = 0 then 1 else 0 := by
    intro a b
    refine (integral_sum s fun i => ?_).trans (Finset.sum_congr rfl fun i _ => ?_)
    · exact continuous_const.mul (continuous_const.mul (continuous_turn (k i)))
    rw [intervalIntegral.integral_const_mul, intervalIntegral.integral_const_mul,
      integral_turn]
    ring
  have hmiddle : ∀ a : ℝ, (∫ b in (0 : ℝ)..1,
      ∑ i ∈ s, v i * (r i a * turn (m i) b) * if k i = 0 then 1 else 0) =
        ∑ i ∈ s, v i * r i a * if m i = 0 ∧ k i = 0 then 1 else 0 := by
    intro a
    refine (integral_sum s fun i => ?_).trans (Finset.sum_congr rfl fun i _ => ?_)
    · exact (continuous_const.mul
        (continuous_const.mul (continuous_turn (m i)))).mul continuous_const
    rw [intervalIntegral.integral_mul_const, intervalIntegral.integral_const_mul,
      intervalIntegral.integral_const_mul, integral_turn]
    by_cases hm : m i = 0 <;> simp [hm]
  simp only [hinner, hmiddle]
  refine (integral_sum s fun i => ?_).trans (Finset.sum_congr rfl fun i _ => ?_)
  · exact (continuous_const.mul (hr i)).mul continuous_const
  rw [intervalIntegral.integral_mul_const, intervalIntegral.integral_const_mul, mul_assoc,
    mul_ite, mul_one, mul_zero]

end Q2NS.UniformDraws
