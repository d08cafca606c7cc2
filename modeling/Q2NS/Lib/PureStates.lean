import Mathlib.Analysis.Matrix.PosDef
import Mathlib.Tactic.LinearCombination
import Mathlib.Tactic.NoncommRing

/-!
# Functions of Hermitian matrices and pure density matrices

`spectral hA f` applies a real function to a Hermitian matrix, by its eigenvectors.
A pure density matrix is a projection, and of two of them everything that the spectrum
says is decided by the trace of their product: it is the square of the trace of the root
of their sandwich, and the trace norm of their difference is two times the root of what
it is short of one.
-/

namespace Q2NS.PureStates

open Matrix Finset
open scoped ComplexOrder

variable {n : Type*} [Fintype n] [DecidableEq n] {A B : Matrix n n ℂ}

/-! ## Functions of a Hermitian matrix -/

/-- `f` applied to the eigenvalues. -/
noncomputable def spectral (hA : A.IsHermitian) (f : ℝ → ℝ) : Matrix n n ℂ :=
  (hA.eigenvectorUnitary : Matrix n n ℂ) * diagonal (fun i => (f (hA.eigenvalues i) : ℂ)) *
    star (hA.eigenvectorUnitary : Matrix n n ℂ)

theorem star_mul_eigenvectors (hA : A.IsHermitian) :
    star (hA.eigenvectorUnitary : Matrix n n ℂ) * (hA.eigenvectorUnitary : Matrix n n ℂ) = 1 :=
  Unitary.coe_star_mul_self _

theorem spectral_id (hA : A.IsHermitian) : spectral hA (fun e => e) = A := by
  conv_rhs => rw [hA.spectral_theorem, Unitary.conjStarAlgAut_apply]
  rfl

theorem spectral_smul (hA : A.IsHermitian) (c : ℝ) (f : ℝ → ℝ) :
    spectral hA (fun e => c * f e) = (c : ℂ) • spectral hA f := by
  have hdiag : diagonal (fun i => ((c * f (hA.eigenvalues i) : ℝ) : ℂ)) =
      (c : ℂ) • diagonal fun i => (f (hA.eigenvalues i) : ℂ) := by
    rw [← diagonal_smul]
    congr 1
    funext i
    rw [Complex.ofReal_mul]
    rfl
  rw [spectral, spectral, hdiag, Matrix.mul_smul, Matrix.smul_mul]

theorem spectral_mul (hA : A.IsHermitian) (f g : ℝ → ℝ) :
    spectral hA f * spectral hA g = spectral hA fun e => f e * g e := by
  have hdiag : diagonal (fun i => ((f (hA.eigenvalues i) * g (hA.eigenvalues i) : ℝ) : ℂ)) =
      diagonal (fun i => (f (hA.eigenvalues i) : ℂ)) *
        diagonal fun i => (g (hA.eigenvalues i) : ℂ) := by
    rw [diagonal_mul_diagonal]
    congr 1
    funext i
    rw [Complex.ofReal_mul]
  rw [spectral, spectral, spectral, hdiag]
  simp only [Matrix.mul_assoc]
  rw [← Matrix.mul_assoc (star _) (hA.eigenvectorUnitary : Matrix n n ℂ),
    star_mul_eigenvectors, Matrix.one_mul]

theorem trace_spectral (hA : A.IsHermitian) (f : ℝ → ℝ) :
    (spectral hA f).trace = ((∑ i, f (hA.eigenvalues i) : ℝ) : ℂ) := by
  rw [spectral, trace_mul_cycle, star_mul_eigenvectors, Matrix.one_mul, trace_diagonal,
    Complex.ofReal_sum]

theorem spectral_congr (hA : A.IsHermitian) {f g : ℝ → ℝ}
    (h : ∀ i, f (hA.eigenvalues i) = g (hA.eigenvalues i)) : spectral hA f = spectral hA g := by
  rw [spectral, spectral]
  simp only [h]

/-- What a function does to the matrix it does to every eigenvalue. -/
theorem eq_of_spectral_eq (hA : A.IsHermitian) {f g : ℝ → ℝ}
    (h : spectral hA f = spectral hA g) (i : n) :
    f (hA.eigenvalues i) = g (hA.eigenvalues i) := by
  have hback : ∀ f : ℝ → ℝ, star (hA.eigenvectorUnitary : Matrix n n ℂ) * spectral hA f *
      (hA.eigenvectorUnitary : Matrix n n ℂ) =
        diagonal fun i => (f (hA.eigenvalues i) : ℂ) := by
    intro f
    rw [spectral]
    simp only [Matrix.mul_assoc]
    rw [star_mul_eigenvectors, Matrix.mul_one, ← Matrix.mul_assoc, star_mul_eigenvectors,
      Matrix.one_mul]
  have hdiag := (hback f).symm.trans ((congrArg (fun X =>
    star (hA.eigenvectorUnitary : Matrix n n ℂ) * X *
      (hA.eigenvectorUnitary : Matrix n n ℂ)) h).trans (hback g))
  exact Complex.ofReal_injective (congrFun (diagonal_injective hdiag) i)

/-- The eigenvalues of a multiple of a projection. -/
theorem eigenvalue_of_scaled (hA : A.IsHermitian) {c : ℝ} (h : A * A = (c : ℂ) • A) (i : n) :
    hA.eigenvalues i = 0 ∨ hA.eigenvalues i = c := by
  have hsquare : spectral hA (fun e => e * e) = spectral hA fun e => c * e := by
    rw [← spectral_mul hA (fun e => e) fun e => e, spectral_smul hA c fun e => e,
      spectral_id, h]
  rcases mul_eq_mul_right_iff.mp (eq_of_spectral_eq hA hsquare i) with hc | h0
  · exact .inr hc
  · exact .inl h0

/-- The root of a multiple of a projection. -/
theorem spectral_sqrt_of_scaled (hA : A.IsHermitian) {c : ℝ} (hc : 0 ≤ c)
    (h : A * A = (c : ℂ) • A) : (Real.sqrt c : ℂ) • spectral hA Real.sqrt = A := by
  rw [← spectral_smul]
  refine (spectral_congr hA fun i => ?_).trans (spectral_id hA)
  rcases eigenvalue_of_scaled hA h i with h0 | h1
  · rw [h0, Real.sqrt_zero, mul_zero]
  · rw [h1, Real.mul_self_sqrt hc]

/-! ## Pure density matrices -/

/-- A density matrix without two-by-two minors. -/
structure IsPure (A : Matrix n n ℂ) : Prop where
  posSemidef : A.PosSemidef
  trace : A.trace = 1
  minor : ∀ x y x' y', A x y * A x' y' = A x y' * A x' y

/-- The trace of the product. -/
noncomputable def overlap (A B : Matrix n n ℂ) : ℝ := (A * B).trace.re

omit [DecidableEq n] in
theorem overlap_comm (A B : Matrix n n ℂ) : overlap A B = overlap B A := by
  rw [overlap, overlap, trace_mul_comm]

namespace IsPure

omit [DecidableEq n] in
theorem sandwich (hA : IsPure A) (B : Matrix n n ℂ) : A * B * A = (A * B).trace • A := by
  ext x y
  rw [Matrix.smul_apply, smul_eq_mul, mul_apply, Matrix.trace, sum_mul]
  have hterm : ∀ k, (A * B) x k * A k y = ∑ l, A x y * (B l k * A k l) := by
    intro k
    rw [mul_apply, sum_mul]
    refine sum_congr rfl fun l _ => ?_
    linear_combination B l k * hA.minor x l k y
  rw [sum_congr rfl fun k _ => hterm k]
  refine sum_congr rfl fun k _ => ?_
  rw [diag_apply, mul_apply, sum_mul]
  exact sum_congr rfl fun l _ => by ring

theorem mul_self (hA : IsPure A) : A * A = A := by
  have h := hA.sandwich 1
  rwa [Matrix.mul_one, hA.trace, one_smul] at h

omit [DecidableEq n] in
theorem hermitian_eq (hA : IsPure A) : Aᴴ = A := hA.posSemidef.isHermitian.eq

/-- The trace of the product is a number between zero and one. -/
theorem trace_mul (hA : IsPure A) (hB : IsPure B) : (A * B).trace = overlap A B := by
  have hpos := (hB.posSemidef.mul_mul_conjTranspose_same A).trace_nonneg
  rw [hA.hermitian_eq, trace_mul_cycle, hA.mul_self] at hpos
  exact Complex.ext rfl (Complex.nonneg_iff.mp hpos).2.symm

theorem overlap_nonneg (hA : IsPure A) (hB : IsPure B) : 0 ≤ overlap A B := by
  have hpos := (hB.posSemidef.mul_mul_conjTranspose_same A).trace_nonneg
  rw [hA.hermitian_eq, trace_mul_cycle, hA.mul_self] at hpos
  exact (Complex.nonneg_iff.mp hpos).1

/-- How far two pure states are apart, squared. -/
theorem trace_sub_mul_self (hA : IsPure A) (hB : IsPure B) :
    ((A - B) * (A - B)).trace = ((2 * (1 - overlap A B) : ℝ) : ℂ) := by
  have hexpand : (A - B) * (A - B) = A * A - A * B - B * A + B * B := by noncomm_ring
  rw [hexpand, hA.mul_self, hB.mul_self, trace_add, trace_sub, trace_sub, trace_mul_comm B A,
    hA.trace_mul hB, hA.trace, hB.trace]
  push_cast
  ring

omit [DecidableEq n] in
theorem isHermitian_sub (hA : IsPure A) (hB : IsPure B) : (A - B).IsHermitian :=
  hA.posSemidef.isHermitian.sub hB.posSemidef.isHermitian

theorem overlap_le_one (hA : IsPure A) (hB : IsPure B) : overlap A B ≤ 1 := by
  have hpos := (posSemidef_conjTranspose_mul_self (A - B)).trace_nonneg
  rw [(hA.isHermitian_sub hB).eq, hA.trace_sub_mul_self hB] at hpos
  have hreal : (0 : ℝ) ≤ 2 * (1 - overlap A B) := Complex.zero_le_real.mp hpos
  linarith

theorem eq_iff_overlap (hA : IsPure A) (hB : IsPure B) : overlap A B = 1 ↔ A = B := by
  constructor
  · intro h
    have hzero : ((A - B)ᴴ * (A - B)).trace = 0 := by
      rw [(hA.isHermitian_sub hB).eq, hA.trace_sub_mul_self hB, h]
      simp
    exact sub_eq_zero.mp (trace_conjTranspose_mul_self_eq_zero_iff.mp hzero)
  · rintro rfl
    rw [overlap, hA.mul_self, hA.trace, Complex.one_re]

/-- The sandwich of one pure state by another is a multiple of a projection. -/
theorem sandwich_mul_self (hA : IsPure A) (hB : IsPure B) :
    A * B * A = (overlap A B : ℂ) • A ∧
      A * B * A * (A * B * A) = (overlap A B : ℂ) • (A * B * A) := by
  have h : A * B * A = (overlap A B : ℂ) • A := by rw [hA.sandwich, hA.trace_mul hB]
  refine ⟨h, ?_⟩
  rw [h, Matrix.smul_mul, Matrix.mul_smul, hA.mul_self]

/-- The root of the sandwich has the root of the overlap as its trace. -/
theorem trace_sqrt_sandwich (hA : IsPure A) (hB : IsPure B) (h : (A * B * A).IsHermitian) :
    (spectral h Real.sqrt).trace = (Real.sqrt (overlap A B) : ℂ) := by
  obtain ⟨hscaled, hsquare⟩ := hA.sandwich_mul_self hB
  have hroot := congrArg Matrix.trace
    (spectral_sqrt_of_scaled h (hA.overlap_nonneg hB) hsquare)
  have htrace : (A * B * A).trace = (overlap A B : ℂ) := by
    rw [hscaled, trace_smul, hA.trace, smul_eq_mul, mul_one]
  rw [trace_smul, smul_eq_mul, htrace] at hroot
  rcases (hA.overlap_nonneg hB).eq_or_lt with h0 | hpos
  · -- nothing is left of the sandwich
    rw [trace_spectral, ← h0, Real.sqrt_zero]
    refine congrArg _ (sum_eq_zero fun i _ => ?_)
    rcases eigenvalue_of_scaled h hsquare i with he | he <;> rw [he]
    · exact Real.sqrt_zero
    · rw [← h0, Real.sqrt_zero]
  · have hne : (Real.sqrt (overlap A B) : ℂ) ≠ 0 :=
      Complex.ofReal_ne_zero.mpr (Real.sqrt_ne_zero'.mpr hpos)
    refine mul_left_cancel₀ hne (hroot.trans ?_)
    rw [← Complex.ofReal_mul, Real.mul_self_sqrt hpos.le]

/-- The difference is a root of `λ³ = (1 - f) λ`. -/
theorem sub_cubed (hA : IsPure A) (hB : IsPure B) :
    (A - B) * (A - B) * (A - B) = ((1 - overlap A B : ℝ) : ℂ) • (A - B) := by
  have hexpand : (A - B) * (A - B) * (A - B) = A * A * A - A * A * B - A * B * A + A * (B * B) -
      B * (A * A) + B * A * B + B * B * A - B * B * B := by noncomm_ring
  rw [hexpand, hA.sandwich B, hB.sandwich A, hA.mul_self, hA.mul_self, hB.mul_self, hB.mul_self,
    hA.trace_mul hB, hB.trace_mul hA, overlap_comm B A]
  push_cast
  module

/-- The trace norm of the difference. -/
theorem sum_abs_eigenvalues (hA : IsPure A) (hB : IsPure B) (h : (A - B).IsHermitian) :
    ∑ i, |h.eigenvalues i| = 2 * Real.sqrt (1 - overlap A B) := by
  have hone : 0 ≤ 1 - overlap A B := sub_nonneg.mpr (hA.overlap_le_one hB)
  have hcube : spectral h (fun e => e * e * e) =
      spectral h fun e => (1 - overlap A B) * e := by
    rw [← spectral_mul h (fun e => e * e) fun e => e,
      ← spectral_mul h (fun e => e) fun e => e, spectral_smul h _ fun e => e, spectral_id,
      hA.sub_cubed hB]
  have habs : ∀ i, Real.sqrt (1 - overlap A B) * |h.eigenvalues i| =
      h.eigenvalues i * h.eigenvalues i := by
    intro i
    have hi := eq_of_spectral_eq h hcube i
    rcases eq_or_ne (h.eigenvalues i) 0 with h0 | h0
    · rw [h0, abs_zero, mul_zero, mul_zero]
    · rw [← mul_right_cancel₀ h0 hi, ← abs_mul_self, abs_mul, Real.sqrt_mul_self (abs_nonneg _)]
  have hsum : Real.sqrt (1 - overlap A B) * ∑ i, |h.eigenvalues i| =
      2 * (1 - overlap A B) := by
    have htrace := trace_spectral h fun e => e * e
    rw [← spectral_mul h (fun e => e) fun e => e, spectral_id, hA.trace_sub_mul_self hB] at htrace
    rw [mul_sum, sum_congr rfl fun i _ => habs i]
    exact (Complex.ofReal_injective htrace).symm
  rcases hone.eq_or_lt with h0 | hpos
  · -- the two states are the same
    obtain rfl := (hA.eq_iff_overlap hB).mp (by linarith)
    rw [← h0, Real.sqrt_zero, mul_zero]
    refine sum_eq_zero fun i _ => abs_eq_zero.mpr ?_
    have hi := eq_of_spectral_eq h hcube i
    rw [← h0, zero_mul] at hi
    simpa using hi
  · refine mul_left_cancel₀ (Real.sqrt_ne_zero'.mpr hpos) (hsum.trans ?_)
    rw [mul_left_comm, Real.mul_self_sqrt hone]

end IsPure

end Q2NS.PureStates
