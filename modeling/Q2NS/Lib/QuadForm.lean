import Mathlib.Algebra.BigOperators.Intervals
import Mathlib.Algebra.BigOperators.ModEq
import Mathlib.Algebra.BigOperators.Ring.Finset
import Mathlib.Analysis.SpecialFunctions.Trigonometric.Basic
import Mathlib.Analysis.SpecialFunctions.Trigonometric.Bounds
import Mathlib.Data.Complex.Basic
import Mathlib.Tactic.LinearCombination
import Mathlib.Tactic.Ring

/-!
# Quadratic form expansions

A 0/1 vector `x` is given by its support `X : Finset ℕ`.  For a matrix `Q` of
naturals `quad Q X` is the integer `xᵀ Q x`, and `expansion r Q φ` is the sum of
`i ^ (xᵀ Q x) · φ x` over all `x` in `{0,1}^r`.  The exponent only matters
modulo four, so a symmetric `Q` only matters modulo four on its diagonal and
modulo two elsewhere (`quad_modEq`).

The change-of-variables rules (`expansion_subst`, `expansion_swap`) and the two
ways of summing out a variable that `φ` does not see (`expansion_odd_column`,
`expansion_even_column`) are what a simulator based on such expansions needs.
-/

namespace Q2NS.QuadForm

open Finset

/-! ## The form -/

/-- `xᵀ Q x` for the 0/1 vector with support `X`. -/
def quad (Q : ℕ → ℕ → ℕ) (X : Finset ℕ) : ℕ :=
  ∑ a ∈ X, ∑ b ∈ X, Q a b

/-- `Q` is symmetric. -/
def Symm (Q : ℕ → ℕ → ℕ) : Prop := ∀ a b, Q a b = Q b a

@[simp] theorem quad_empty (Q : ℕ → ℕ → ℕ) : quad Q ∅ = 0 := by
  simp [quad]

/-- Switching variable `c` on adds its diagonal entry and twice its row. -/
theorem quad_insert {Q : ℕ → ℕ → ℕ} (hQ : Symm Q) {c : ℕ} {X : Finset ℕ}
    (hc : c ∉ X) :
    quad Q (insert c X) = quad Q X + Q c c + 2 * ∑ a ∈ X, Q a c := by
  have hrow : ∑ b ∈ X, Q c b = ∑ a ∈ X, Q a c :=
    sum_congr rfl fun b _ => hQ c b
  simp only [quad, sum_insert hc, sum_add_distrib, hrow]
  ring

theorem quad_add (Q R : ℕ → ℕ → ℕ) (X : Finset ℕ) :
    quad (fun a b => Q a b + R a b) X = quad Q X + quad R X := by
  simp only [quad, sum_add_distrib]

theorem quad_outer (p q : ℕ → ℕ) (X : Finset ℕ) :
    quad (fun a b => p a * q b) X = (∑ a ∈ X, p a) * ∑ b ∈ X, q b := by
  rw [quad, sum_mul_sum]

theorem quad_diag (f : ℕ → ℕ) (X : Finset ℕ) :
    quad (fun a b => if a = b then f a else 0) X = ∑ a ∈ X, f a := by
  refine sum_congr rfl fun a ha => ?_
  rw [sum_ite_eq, if_pos ha]

/-- Only the diagonal modulo four and the off-diagonal modulo two matter. -/
theorem quad_modEq {Q Q' : ℕ → ℕ → ℕ} (hQ : Symm Q) (hQ' : Symm Q')
    {X : Finset ℕ} (hdiag : ∀ a ∈ X, Q a a ≡ Q' a a [MOD 4])
    (hoff : ∀ a ∈ X, ∀ b ∈ X, a ≠ b → Q a b ≡ Q' a b [MOD 2]) :
    quad Q X ≡ quad Q' X [MOD 4] := by
  induction X using Finset.induction_on with
  | empty => rfl
  | insert c X hc ih =>
      have hX := ih (fun a ha => hdiag a (mem_insert_of_mem ha))
        (fun a ha b hb => hoff a (mem_insert_of_mem ha) b (mem_insert_of_mem hb))
      have hrow : ∑ a ∈ X, Q a c ≡ ∑ a ∈ X, Q' a c [MOD 2] := by
        refine Nat.ModEq.sum fun a ha => ?_
        exact hoff a (mem_insert_of_mem ha) c (mem_insert_self c X)
          (fun h => hc (h ▸ ha))
      rw [quad_insert hQ hc, quad_insert hQ' hc]
      exact (hX.add (hdiag c (mem_insert_self c X))).add (hrow.mul_left' 2)

/-! ## Powers of `i` -/

theorem I_pow_congr {a b : ℕ} (h : a ≡ b [MOD 4]) :
    Complex.I ^ a = Complex.I ^ b := by
  rw [← Nat.div_add_mod a 4, ← Nat.div_add_mod b 4, h]
  simp only [pow_add, pow_mul, Complex.I_pow_four, one_pow]

theorem I_pow_two_mul (t : ℕ) : Complex.I ^ (2 * t) = (-1) ^ t := by
  rw [pow_mul, Complex.I_sq]

/-- `(-1)^v`. -/
def sgn (v : Bool) : ℂ := if v then -1 else 1

theorem conj_sgn (v : Bool) : starRingEnd ℂ (sgn v) = sgn v := by
  cases v <;> simp [sgn]

/-! ## The expansion -/

/-- The sum of `i ^ (xᵀ Q x) · φ x` over the 0/1 vectors of length `r`. -/
noncomputable def expansion (r : ℕ) (Q : ℕ → ℕ → ℕ) (φ : Finset ℕ → ℂ) : ℂ :=
  ∑ X ∈ (range r).powerset, Complex.I ^ quad Q X * φ X

theorem expansion_congr {r : ℕ} {Q Q' : ℕ → ℕ → ℕ} {φ φ' : Finset ℕ → ℂ}
    (h : ∀ X ⊆ range r,
      Complex.I ^ quad Q X * φ X = Complex.I ^ quad Q' X * φ' X) :
    expansion r Q φ = expansion r Q' φ' :=
  sum_congr rfl fun X hX => h X (mem_powerset.mp hX)

/-- The expansion only reads `Q` up to the congruences of `quad_modEq`. -/
theorem expansion_congr_form {r : ℕ} {Q Q' : ℕ → ℕ → ℕ} {φ φ' : Finset ℕ → ℂ}
    (hQ : Symm Q) (hQ' : Symm Q')
    (hdiag : ∀ a < r, Q a a ≡ Q' a a [MOD 4])
    (hoff : ∀ a < r, ∀ b < r, a ≠ b → Q a b ≡ Q' a b [MOD 2])
    (hφ : ∀ X ⊆ range r, φ X = φ' X) :
    expansion r Q φ = expansion r Q' φ' := by
  refine expansion_congr fun X hX => ?_
  have hlt : ∀ a ∈ X, a < r := fun a ha => mem_range.mp (hX ha)
  rw [hφ X hX, I_pow_congr (quad_modEq hQ hQ' (fun a ha => hdiag a (hlt a ha))
    (fun a ha b hb => hoff a (hlt a ha) b (hlt b hb)))]

theorem expansion_smul (r : ℕ) (Q : ℕ → ℕ → ℕ) (z : ℂ) (φ : Finset ℕ → ℂ) :
    expansion r Q (fun X => z * φ X) = z * expansion r Q φ := by
  rw [expansion, expansion, mul_sum]
  exact sum_congr rfl fun X _ => by ring

/-! ### Substituting one variable -/

/-- The support after adding variable `k` to variable `c`. -/
def flipIf (k c : ℕ) (X : Finset ℕ) : Finset ℕ :=
  if k ∈ X then (if c ∈ X then X.erase c else insert c X) else X

/-- The form in the new variables: column and row `c` are added to `k`. -/
def substGram (Q : ℕ → ℕ → ℕ) (k c : ℕ) (a b : ℕ) : ℕ :=
  Q a b + (if b = k then Q a c else 0) + (if a = k then Q c b else 0) +
    (if a = k ∧ b = k then Q c c else 0)

theorem substGram_symm {Q : ℕ → ℕ → ℕ} (hQ : Symm Q) (k c : ℕ) :
    Symm (substGram Q k c) := by
  intro a b
  simp only [substGram, hQ a b, hQ a c, hQ c b, and_comm (a := a = k)]
  ring

section Subst

variable {k c : ℕ}

theorem mem_flipIf_ne {d : ℕ} (hd : d ≠ c) (X : Finset ℕ) :
    d ∈ flipIf k c X ↔ d ∈ X := by
  unfold flipIf
  split_ifs <;> simp [hd]

theorem mem_flipIf_self (X : Finset ℕ) :
    c ∈ flipIf k c X ↔ (¬ (k ∈ X ↔ c ∈ X)) := by
  unfold flipIf
  split_ifs with hk hc <;> simp_all

theorem flipIf_flipIf (hkc : k ≠ c) (X : Finset ℕ) :
    flipIf k c (flipIf k c X) = X := by
  ext d
  by_cases hd : d = c
  · subst d
    simp only [mem_flipIf_self, mem_flipIf_ne hkc]
    tauto
  · rw [mem_flipIf_ne hd, mem_flipIf_ne hd]

theorem flipIf_subset {r : ℕ} (hc : c < r) {X : Finset ℕ} (hX : X ⊆ range r) :
    flipIf k c X ⊆ range r := by
  intro d hd
  by_cases hdc : d = c
  · exact mem_range.mpr (hdc ▸ hc)
  · exact hX ((mem_flipIf_ne hdc X).mp hd)

/-- Unreduced substitution rule: what the new form adds. -/
theorem quad_substGram {Q : ℕ → ℕ → ℕ} (hQ : Symm Q) (X : Finset ℕ) :
    quad (substGram Q k c) X =
      quad Q X + if k ∈ X then 2 * ∑ a ∈ X, Q a c + Q c c else 0 := by
  have hrow : ∑ b ∈ X, Q c b = ∑ a ∈ X, Q a c :=
    sum_congr rfl fun b _ => hQ c b
  simp only [quad, substGram, sum_add_distrib, sum_ite_eq', ite_and]
  by_cases hk : k ∈ X
  · simp only [hk, if_true, sum_ite_irrel, sum_const_zero, sum_ite_eq', hrow]
    ring
  · simp [hk, sum_ite_irrel, sum_ite_eq']

/-- The new form at `x` is the old form at the substituted vector. -/
theorem quad_substGram_modEq {Q : ℕ → ℕ → ℕ} (hQ : Symm Q)
    (X : Finset ℕ) :
    quad (substGram Q k c) X ≡ quad Q (flipIf k c X) [MOD 4] := by
  rw [quad_substGram hQ]
  by_cases hk : k ∈ X
  · by_cases hc : c ∈ X
    · have hX : insert c (X.erase c) = X := insert_erase hc
      have hq := quad_insert hQ (notMem_erase c X)
      have hs := sum_insert (f := fun a => Q a c) (notMem_erase c X)
      rw [hX] at hq hs
      have hflip : flipIf k c X = X.erase c := by simp [flipIf, hk, hc]
      rw [hflip, if_pos hk, hq, hs]
      have : quad Q (X.erase c) + Q c c + 2 * ∑ a ∈ X.erase c, Q a c +
          (2 * (Q c c + ∑ a ∈ X.erase c, Q a c) + Q c c) =
          quad Q (X.erase c) + 4 * (Q c c + ∑ a ∈ X.erase c, Q a c) := by ring
      rw [this]
      exact (Nat.ModEq.refl _).add ((Nat.modEq_zero_iff_dvd).mpr (dvd_mul_right 4 _))
    · have hflip : flipIf k c X = insert c X := by simp [flipIf, hk, hc]
      rw [hflip, quad_insert hQ hc, if_pos hk]
      exact (by ring_nf; rfl)
  · have hflip : flipIf k c X = X := by simp [flipIf, hk]
    rw [hflip, if_neg hk, add_zero]

/-- Change of variables `x_c := x_c + x_k`. -/
theorem expansion_subst {r : ℕ} {Q : ℕ → ℕ → ℕ} (hQ : Symm Q) (hkc : k ≠ c)
    (hc : c < r) (φ : Finset ℕ → ℂ) :
    expansion r (substGram Q k c) (fun X => φ (flipIf k c X)) =
      expansion r Q φ := by
  refine sum_nbij' (flipIf k c) (flipIf k c) ?_ ?_ ?_ ?_ ?_
  · intro X hX
    exact mem_powerset.mpr (flipIf_subset hc (mem_powerset.mp hX))
  · intro X hX
    exact mem_powerset.mpr (flipIf_subset hc (mem_powerset.mp hX))
  · exact fun X _ => flipIf_flipIf hkc X
  · exact fun X _ => flipIf_flipIf hkc X
  · intro X _
    simp only
    rw [I_pow_congr (quad_substGram_modEq hQ X)]

/-- A parity sum whose column `k` has absorbed column `c`. -/
theorem sum_flipIf_mod_two (f : ℕ → ℕ) {X : Finset ℕ} :
    (∑ d ∈ flipIf k c X, f d) % 2 =
      (∑ d ∈ X, f d + if k ∈ X then f c else 0) % 2 := by
  by_cases hk : k ∈ X
  · by_cases hc : c ∈ X
    · have hs := sum_insert (f := f) (notMem_erase c X)
      rw [insert_erase hc] at hs
      have hflip : flipIf k c X = X.erase c := by simp [flipIf, hk, hc]
      rw [hflip, if_pos hk, hs]
      omega
    · have hflip : flipIf k c X = insert c X := by simp [flipIf, hk, hc]
      rw [hflip, sum_insert hc, if_pos hk, add_comm]
  · simp [flipIf, hk]

end Subst

/-! ### Renaming variables -/

/-- Change of variables that exchanges `x_k` and `x_l`. -/
theorem expansion_swap {r k l : ℕ} (hk : k < r) (hl : l < r)
    (Q : ℕ → ℕ → ℕ) (φ : Finset ℕ → ℂ) :
    expansion r (fun a b => Q (Equiv.swap k l a) (Equiv.swap k l b))
        (fun X => φ (X.map (Equiv.swap k l).toEmbedding)) =
      expansion r Q φ := by
  let σ := Equiv.swap k l
  have hσ : ∀ a, a < r → σ a < r := by
    intro a ha
    simp only [σ, Equiv.swap_apply_def]
    split_ifs <;> assumption
  have hsub : ∀ X ∈ (range r).powerset,
      X.map σ.toEmbedding ∈ (range r).powerset := by
    intro X hX
    rw [mem_powerset] at hX ⊢
    intro a ha
    obtain ⟨b, hb, rfl⟩ := mem_map.mp ha
    exact mem_range.mpr (hσ b (mem_range.mp (hX hb)))
  have hinv : ∀ X : Finset ℕ,
      (X.map σ.toEmbedding).map σ.toEmbedding = X := by
    intro X
    ext a
    simp [σ]
  refine sum_nbij' (fun X => X.map σ.toEmbedding)
    (fun X => X.map σ.toEmbedding) hsub hsub ?_ ?_ ?_
  · exact fun X _ => hinv X
  · exact fun X _ => hinv X
  · intro X _
    have hquad : quad (fun a b => Q (σ a) (σ b)) X =
        quad Q (X.map σ.toEmbedding) := by
      simp only [quad, sum_map, Equiv.coe_toEmbedding]
    simp only [σ] at hquad ⊢
    rw [hquad]

/-! ### Summing out the last variable -/

theorem expansion_succ {r : ℕ} {Q : ℕ → ℕ → ℕ} (hQ : Symm Q)
    (φ : Finset ℕ → ℂ) :
    expansion (r + 1) Q φ = expansion r Q (fun X =>
      φ X + Complex.I ^ (Q r r + 2 * ∑ a ∈ X, Q a r) * φ (insert r X)) := by
  have hr : r ∉ range r := notMem_range_self
  rw [expansion, range_add_one, sum_powerset_insert hr, ← sum_add_distrib]
  refine sum_congr rfl fun X hX => ?_
  have hrX : r ∉ X := fun h => hr (mem_powerset.mp hX h)
  rw [quad_insert hQ hrX, add_assoc, pow_add]
  ring

/-- `1/√2`. -/
noncomputable def invSqrt2 : ℂ := ((Real.sqrt 2 : ℝ) : ℂ)⁻¹

theorem sqrt_two_ne_zero : ((Real.sqrt 2 : ℝ) : ℂ) ≠ 0 := by
  exact_mod_cast (Real.sqrt_pos.mpr (by norm_num : (0 : ℝ) < 2)).ne'

theorem conj_invSqrt2 : starRingEnd ℂ invSqrt2 = invSqrt2 := by
  rw [invSqrt2, map_inv₀, Complex.conj_ofReal]

theorem sqrt_two_mul_invSqrt2 : ((Real.sqrt 2 : ℝ) : ℂ) * invSqrt2 = 1 :=
  mul_inv_cancel₀ sqrt_two_ne_zero

theorem two_mul_invSqrt2 : 2 * invSqrt2 = ((Real.sqrt 2 : ℝ) : ℂ) := by
  have hs : ((Real.sqrt 2 : ℝ) : ℂ) * Real.sqrt 2 = 2 := by
    rw [← Complex.ofReal_mul, Real.mul_self_sqrt (by norm_num)]
    norm_num
  rw [← hs, mul_assoc, sqrt_two_mul_invSqrt2, mul_one]

theorem invSqrt2_mul_self : invSqrt2 * invSqrt2 = 1 / 2 := by
  have h := two_mul_invSqrt2
  have h' := sqrt_two_mul_invSqrt2
  rw [← h] at h'
  linear_combination h' / 2

/-- The primitive eighth root of unity `e ^ (i π / 4)`. -/
noncomputable def omega8 : ℂ := Complex.exp (Complex.I * Real.pi / 4)

theorem sqrt_two_mul_omega8 : (Real.sqrt 2 : ℂ) * omega8 = 1 + Complex.I := by
  have hs : (Real.sqrt 2 : ℂ) * Real.sqrt 2 = 2 := by
    rw [← Complex.ofReal_mul, Real.mul_self_sqrt (by norm_num)]
    norm_num
  have harg : Complex.I * Real.pi / 4 = ((Real.pi / 4 : ℝ) : ℂ) * Complex.I := by
    push_cast
    ring
  rw [omega8, harg, Complex.exp_mul_I, ← Complex.ofReal_cos,
    ← Complex.ofReal_sin, Real.cos_pi_div_four, Real.sin_pi_div_four]
  push_cast
  linear_combination (1 + Complex.I) / 2 * hs

theorem omega8_sq : omega8 ^ 2 = Complex.I := by
  have harg : ((2 : ℕ) : ℂ) * (Complex.I * Real.pi / 4) =
      Real.pi / 2 * Complex.I := by
    push_cast
    ring
  rw [omega8, ← Complex.exp_nat_mul, harg, Complex.exp_pi_div_two_mul_I]

theorem omega8_pow_eight : omega8 ^ 8 = 1 := by
  rw [show 8 = 2 * 4 by rfl, pow_mul, omega8_sq, Complex.I_pow_four]

theorem omega8_pow_mod (p : ℕ) : omega8 ^ (p % 8) = omega8 ^ p := by
  conv_rhs => rw [← Nat.div_add_mod p 8, pow_add, pow_mul, omega8_pow_eight,
    one_pow, one_mul]

theorem norm_omega8 : ‖omega8‖ = 1 := by
  have harg : Complex.I * Real.pi / 4 = ((Real.pi / 4 : ℝ) : ℂ) * Complex.I := by
    push_cast
    ring
  rw [omega8, harg, Complex.norm_exp_ofReal_mul_I]

/-- The Gauss sum over one variable with an odd diagonal entry. -/
theorem one_add_I_pow_odd {u : ℕ} (hu : u = 1 ∨ u = 3) (t : ℕ) :
    1 + Complex.I ^ (u + 2 * t) =
      Real.sqrt 2 * omega8 ^ (10 - u) * Complex.I ^ ((2 + u) * (t * t)) := by
  have h9 : omega8 ^ 9 = omega8 := by
    rw [show 9 = 8 + 1 by rfl, pow_add, omega8_pow_eight, one_mul, pow_one]
  have h7 : omega8 ^ 7 = omega8 * Complex.I ^ 3 := by
    rw [show 7 = 1 + 2 * 3 by rfl, pow_add, pow_mul, omega8_sq, pow_one]
  have hI3 : Complex.I ^ 3 = -Complex.I := Complex.I_pow_three
  have hI : Complex.I * Complex.I = -1 := Complex.I_mul_I
  obtain ⟨m, rfl | rfl⟩ := Nat.even_or_odd' t
  · have h1 : u + 2 * (2 * m) ≡ u [MOD 4] := by
      unfold Nat.ModEq; omega
    have h2 : (2 + u) * (2 * m * (2 * m)) ≡ 0 [MOD 4] :=
      (Nat.modEq_zero_iff_dvd).mpr ⟨(2 + u) * (m * m), by ring⟩
    rw [I_pow_congr h1, I_pow_congr h2, pow_zero, mul_one]
    rcases hu with rfl | rfl
    · rw [h9, sqrt_two_mul_omega8, pow_one]
    · rw [h7, ← mul_assoc, sqrt_two_mul_omega8, hI3]
      linear_combination hI
  · have h1 : u + 2 * (2 * m + 1) ≡ u + 2 [MOD 4] := by
      unfold Nat.ModEq; omega
    have h2 : (2 + u) * ((2 * m + 1) * (2 * m + 1)) ≡ 2 + u [MOD 4] := by
      have : (2 + u) * ((2 * m + 1) * (2 * m + 1)) =
          2 + u + 4 * ((2 + u) * (m * m + m)) := by ring
      rw [this]
      unfold Nat.ModEq; omega
    rw [I_pow_congr h1, I_pow_congr h2]
    rcases hu with rfl | rfl
    · rw [h9, sqrt_two_mul_omega8, hI3]
      linear_combination hI
    · have h5 : Complex.I ^ (3 + 2) = Complex.I := by
        rw [I_pow_congr (show 3 + 2 ≡ 1 [MOD 4] by rfl), pow_one]
      rw [h7, ← mul_assoc, sqrt_two_mul_omega8, hI3, h5]
      linear_combination (1 + Complex.I) * hI

/-- The Gauss sum over one variable with an even diagonal entry. -/
theorem one_add_I_pow_even {u : ℕ} (hu : u = 0 ∨ u = 2) (t : ℕ) :
    1 + Complex.I ^ (u + 2 * t) = if t % 2 = u / 2 then 2 else 0 := by
  have hI : Complex.I ^ 2 = -1 := Complex.I_sq
  have h01 : (u + 2 * t) % 4 = 0 ∧ t % 2 = u / 2 ∨
      (u + 2 * t) % 4 = 2 ∧ ¬ t % 2 = u / 2 := by omega
  rcases h01 with ⟨h, ht⟩ | ⟨h, ht⟩
  · rw [I_pow_congr (show u + 2 * t ≡ 0 [MOD 4] from h), if_pos ht]
    norm_num
  · rw [I_pow_congr (show u + 2 * t ≡ 2 [MOD 4] from h), if_neg ht, hI]
    norm_num

section LastColumn

variable {r : ℕ} {Q : ℕ → ℕ → ℕ} {φ : Finset ℕ → ℂ}

/-- Summing out a variable that `φ` ignores and whose diagonal entry is odd. -/
theorem expansion_odd_column (hQ : Symm Q) (hu : Q r r = 1 ∨ Q r r = 3)
    (hφ : ∀ X ⊆ range r, φ (insert r X) = φ X) :
    expansion (r + 1) Q φ = Real.sqrt 2 * omega8 ^ (10 - Q r r) *
      expansion r (fun a b => Q a b + (2 + Q r r) * (Q a r * Q b r)) φ := by
  rw [expansion_succ hQ, ← expansion_smul]
  refine expansion_congr fun X hX => ?_
  have hquad : quad (fun a b => Q a b + (2 + Q r r) * (Q a r * Q b r)) X =
      quad Q X + (2 + Q r r) * ((∑ a ∈ X, Q a r) * ∑ a ∈ X, Q a r) := by
    rw [quad_add, ← quad_outer]
    simp only [quad, mul_sum]
  have hone := one_add_I_pow_odd hu (∑ a ∈ X, Q a r)
  rw [hφ X hX, hquad, pow_add]
  linear_combination Complex.I ^ quad Q X * φ X * hone

/-- Summing out a variable that `φ` ignores and whose diagonal entry is even
leaves one parity constraint on the other variables. -/
theorem expansion_even_column (hQ : Symm Q) (hu : Q r r = 0 ∨ Q r r = 2)
    (hφ : ∀ X ⊆ range r, φ (insert r X) = φ X) :
    expansion (r + 1) Q φ = 2 * expansion r Q (fun X =>
      if (∑ a ∈ X, Q a r) % 2 = Q r r / 2 then φ X else 0) := by
  rw [expansion_succ hQ, ← expansion_smul]
  refine expansion_congr fun X hX => ?_
  have hone := one_add_I_pow_even hu (∑ a ∈ X, Q a r)
  rw [hφ X hX]
  split_ifs at hone ⊢ with ht
  · linear_combination Complex.I ^ quad Q X * φ X * hone
  · linear_combination Complex.I ^ quad Q X * φ X * hone

/-- Fixing the last variable to zero. -/
theorem expansion_fix_zero (hQ : Symm Q) :
    expansion (r + 1) Q (fun X => if r ∈ X then 0 else φ X) =
      expansion r Q φ := by
  rw [expansion_succ hQ]
  refine expansion_congr fun X hX => ?_
  have hr : r ∉ X := fun h => notMem_range_self (hX h)
  simp [hr]

/-- Fixing the last variable to one shifts the diagonal by its column. -/
theorem expansion_fix_one (hQ : Symm Q) :
    expansion (r + 1) Q (fun X => if r ∈ X then φ X else 0) =
      Complex.I ^ Q r r *
        expansion r (fun a b => Q a b + if a = b then 2 * Q a r else 0)
          (fun X => φ (insert r X)) := by
  rw [expansion_succ hQ, ← expansion_smul]
  refine expansion_congr fun X hX => ?_
  have hr : r ∉ X := fun h => notMem_range_self (hX h)
  rw [quad_add, quad_diag, ← mul_sum, pow_add]
  simp only [hr, if_false, mem_insert_self, if_true, pow_add]
  ring

end LastColumn

/-! ### Products -/

/-- The variables of a second block, moved behind the first `p` ones. -/
def shiftVars (p : ℕ) (X : Finset ℕ) : Finset ℕ := X.map (addLeftEmbedding p)

theorem sum_shiftVars {α : Type*} [AddCommMonoid α] (p : ℕ) (X : Finset ℕ)
    (f : ℕ → α) : ∑ a ∈ shiftVars p X, f a = ∑ a ∈ X, f (p + a) := by
  rw [shiftVars, sum_map]
  rfl

theorem disjoint_shiftVars {p : ℕ} {X : Finset ℕ} (hX : X ⊆ range p)
    (Y : Finset ℕ) : Disjoint X (shiftVars p Y) := by
  rw [disjoint_left]
  intro a ha hs
  obtain ⟨b, -, rfl⟩ := mem_map.mp hs
  have := mem_range.mp (hX ha)
  simp only [addLeftEmbedding_apply] at this
  omega

theorem quad_blocks {p : ℕ} {Q Q₁ Q₂ : ℕ → ℕ → ℕ} {X Y : Finset ℕ}
    (hX : X ⊆ range p) (h₁ : ∀ a < p, ∀ b < p, Q a b = Q₁ a b)
    (h₂ : ∀ a ∈ Y, ∀ b ∈ Y, Q (p + a) (p + b) = Q₂ a b)
    (h₁₂ : ∀ a < p, ∀ b ∈ Y, Q a (p + b) = 0 ∧ Q (p + b) a = 0) :
    quad Q (X ∪ shiftVars p Y) = quad Q₁ X + quad Q₂ Y := by
  have hlt : ∀ a ∈ X, a < p := fun a ha => mem_range.mp (hX ha)
  have hd := disjoint_shiftVars hX Y
  simp only [quad, sum_union hd, sum_shiftVars]
  congr 1
  · refine sum_congr rfl fun a ha => ?_
    rw [sum_eq_zero fun b hb => (h₁₂ a (hlt a ha) b hb).1, add_zero]
    exact sum_congr rfl fun b hb => h₁ a (hlt a ha) b (hlt b hb)
  · refine sum_congr rfl fun a ha => ?_
    rw [sum_eq_zero fun b hb => (h₁₂ b (hlt b hb) a ha).2, zero_add]
    exact sum_congr rfl fun b hb => h₂ a ha b hb

/-- The expansion of a block diagonal form is a product. -/
theorem expansion_blocks {p q : ℕ} {Q Q₁ Q₂ : ℕ → ℕ → ℕ}
    {φ φ₁ φ₂ : Finset ℕ → ℂ} (h₁ : ∀ a < p, ∀ b < p, Q a b = Q₁ a b)
    (h₂ : ∀ a < q, ∀ b < q, Q (p + a) (p + b) = Q₂ a b)
    (h₁₂ : ∀ a < p, ∀ b < q, Q a (p + b) = 0 ∧ Q (p + b) a = 0)
    (hφ : ∀ X ⊆ range p, ∀ Y ⊆ range q,
      φ (X ∪ shiftVars p Y) = φ₁ X * φ₂ Y) :
    expansion (p + q) Q φ = expansion p Q₁ φ₁ * expansion q Q₂ φ₂ := by
  rw [expansion, expansion, expansion, sum_mul_sum, ← sum_product']
  symm
  refine sum_nbij' (fun Z => Z.1 ∪ shiftVars p Z.2)
    (fun X => (X.filter (· < p), (range q).filter fun a => p + a ∈ X))
    ?_ ?_ ?_ ?_ ?_
  · rintro ⟨X, Y⟩ hZ
    obtain ⟨hX, hY⟩ := mem_product.mp hZ
    refine mem_powerset.mpr (union_subset ?_ ?_)
    · exact (mem_powerset.mp hX).trans
        (range_subset_range.mpr (Nat.le_add_right p q))
    · intro a ha
      obtain ⟨b, hb, rfl⟩ := mem_map.mp ha
      have := mem_range.mp (mem_powerset.mp hY hb)
      simp only [addLeftEmbedding_apply, mem_range]
      omega
  · intro X hX
    refine mem_product.mpr ⟨mem_powerset.mpr fun a ha => ?_,
      mem_powerset.mpr (filter_subset _ _)⟩
    exact mem_range.mpr (mem_filter.mp ha).2
  · rintro ⟨X, Y⟩ hZ
    obtain ⟨hX, hY⟩ := mem_product.mp hZ
    have hX' := mem_powerset.mp hX
    have hY' := mem_powerset.mp hY
    simp only [Prod.mk.injEq]
    constructor
    · ext a
      simp only [mem_filter, mem_union, shiftVars, mem_map, addLeftEmbedding_apply]
      constructor
      · rintro ⟨ha | ⟨b, -, rfl⟩, hlt⟩
        · exact ha
        · omega
      · exact fun ha => ⟨.inl ha, mem_range.mp (hX' ha)⟩
    · ext a
      simp only [mem_filter, mem_union, shiftVars, mem_map,
        addLeftEmbedding_apply, mem_range]
      constructor
      · rintro ⟨ha, hm | ⟨b, hb, he⟩⟩
        · have := mem_range.mp (hX' hm)
          omega
        · rwa [← Nat.add_left_cancel he]
      · exact fun ha => ⟨mem_range.mp (hY' ha), .inr ⟨a, ha, rfl⟩⟩
  · intro X hX
    have hX' := mem_powerset.mp hX
    ext a
    simp only [mem_filter, mem_union, shiftVars, mem_map,
      addLeftEmbedding_apply, mem_range]
    constructor
    · rintro (⟨ha, -⟩ | ⟨b, ⟨-, hb⟩, rfl⟩)
      · exact ha
      · exact hb
    · intro ha
      have hlt := mem_range.mp (hX' ha)
      by_cases hap : a < p
      · exact .inl ⟨ha, hap⟩
      · refine .inr ⟨a - p, ⟨by omega, ?_⟩, by omega⟩
        rwa [show p + (a - p) = a by omega]
  · rintro ⟨X, Y⟩ hZ
    obtain ⟨hX, hY⟩ := mem_product.mp hZ
    have hX' := mem_powerset.mp hX
    have hY' := mem_powerset.mp hY
    have hlt : ∀ a ∈ Y, a < q := fun a ha => mem_range.mp (hY' ha)
    rw [quad_blocks hX' h₁ (fun a ha b hb => h₂ a (hlt a ha) b (hlt b hb))
      (fun a ha b hb => h₁₂ a ha b (hlt b hb)), hφ X hX' Y hY', pow_add]
    ring

end Q2NS.QuadForm
