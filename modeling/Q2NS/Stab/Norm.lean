import Q2NS.Lib.NamedTensor
import Q2NS.Stab.Measure

/-!
# Affine states denote unit vectors

The principal rows make `x ↦ A x + b` injective, so every basis vector on the
plane has exactly one term and the vector has norm one.
-/

namespace Q2NS.AffineState

open Finset QuadForm NamedTensor

/-- The principal rows read off the variables. -/
theorem RepInv.hits_unique {s : AffineState} (h : s.RepInv) {y : ℕ → Bool}
    {X X' : Finset ℕ} (hX : X ⊆ range s.r) (hX' : X' ⊆ range s.r)
    (hy : s.Hits y X) (hy' : s.Hits y X') : X = X' := by
  have hread : ∀ X ⊆ range s.r, ∀ c < s.r,
      s.rowVal X (s.piv c) = (s.b.entry (s.piv c) + if c ∈ X then 1 else 0) % 2 := by
    intro X hX c hc
    rw [rowVal, ← sum_ite_eq' X c fun _ => 1]
    congr 2
    exact sum_congr rfl fun d hd => (h.pivots c hc).2 d (mem_range.mp (hX hd))
  ext c
  by_cases hc : c < s.r
  · have hp := (h.pivots c hc).1
    have heq := (hy _ hp).trans (hy' _ hp).symm
    rw [hread X hX c hc, hread X' hX' c hc] at heq
    split_ifs at heq with h₁ h₂ h₂
    · exact iff_of_true h₁ h₂
    · omega
    · omega
    · exact iff_of_false h₁ h₂
  · exact iff_of_false (fun hm => hc (mem_range.mp (hX hm)))
      fun hm => hc (mem_range.mp (hX' hm))

/-- On the plane the amplitude is a single term. -/
theorem RepInv.den_of_hits {s : AffineState} (h : s.RepInv) {y : ℕ → Bool}
    {X : Finset ℕ} (hX : X ⊆ range s.r) (hy : s.Hits y X) :
    s.den y = invSqrt2 ^ s.r * omega8 ^ s.phase *
      Complex.I ^ quad s.Q.entry X := by
  rw [den, expansion, sum_eq_single X]
  · rw [if_pos hy, mul_one]
  · intro X' hX' hne
    rw [if_neg fun hy' => hne
      (h.hits_unique (mem_powerset.mp hX') hX hy' hy), mul_zero]
  · exact fun hno => absurd (mem_powerset.mpr hX) hno

theorem norm_invSqrt2_sq : ‖invSqrt2‖ ^ 2 = 1 / 2 := by
  rw [invSqrt2, norm_inv, Complex.norm_real,
    Real.norm_of_nonneg (Real.sqrt_nonneg _), inv_pow,
    Real.sq_sqrt (by norm_num), one_div]

theorem RepInv.norm_den_of_hits {s : AffineState} (h : s.RepInv)
    {y : ℕ → Bool} {X : Finset ℕ} (hX : X ⊆ range s.r) (hy : s.Hits y X) :
    ‖s.den y‖ ^ 2 = (1 / 2) ^ s.r := by
  rw [h.den_of_hits hX hy, norm_mul, norm_mul, norm_pow, norm_pow, norm_pow,
    norm_omega8, Complex.norm_I, one_pow, one_pow, mul_one, mul_one, ← pow_mul,
    mul_comm, pow_mul, norm_invSqrt2_sq]

/-- The basis vector that the variables `X` hit. -/
def hitBy (s : AffineState) (X : Finset ℕ) (i : ℕ) : Bool :=
  s.rowVal X i == 1

theorem hits_hitBy (s : AffineState) (X : Finset ℕ) :
    s.Hits (s.hitBy X) X := by
  intro i _
  have hlt := s.rowVal_lt X i
  rw [hitBy]
  rcases (by omega : s.rowVal X i = 0 ∨ s.rowVal X i = 1) with h | h <;>
    rw [h] <;> rfl

/-- An affine state denotes a unit vector. -/
theorem RepInv.norm_den {s : AffineState} (h : s.RepInv) :
    ∑ x : Fin s.n → Bool, ‖s.den (pad x)‖ ^ 2 = 1 := by
  have hterm : ∀ x : Fin s.n → Bool, ‖s.den (pad x)‖ ^ 2 =
      ∑ X ∈ (range s.r).powerset,
        if s.Hits (pad x) X then (1 / 2 : ℝ) ^ s.r else 0 := by
    intro x
    by_cases hex : ∃ X ⊆ range s.r, s.Hits (pad x) X
    · obtain ⟨X, hX, hy⟩ := hex
      rw [sum_eq_single X]
      · rw [if_pos hy, h.norm_den_of_hits hX hy]
      · exact fun X' hX' hne => if_neg fun hy' => hne
          (h.hits_unique (mem_powerset.mp hX') hX hy' hy)
      · exact fun hno => absurd (mem_powerset.mpr hX) hno
    · have hnot : ∀ X ∈ (range s.r).powerset, ¬ s.Hits (pad x) X :=
        fun X hX hy => hex ⟨X, mem_powerset.mp hX, hy⟩
      rw [sum_congr rfl fun X hX => if_neg (hnot X hX), sum_const_zero, den,
        expansion, sum_congr rfl fun X hX => by
          rw [if_neg (hnot X hX), mul_zero], sum_const_zero, mul_zero,
        norm_zero]
      norm_num
  have hcol : ∀ X, ∑ x : Fin s.n → Bool,
      (if s.Hits (pad x) X then (1 / 2 : ℝ) ^ s.r else 0) = (1 / 2) ^ s.r := by
    intro X
    rw [sum_eq_single fun i : Fin s.n => s.hitBy X i]
    · rw [if_pos]
      intro i hi
      rw [pad_restrict _ hi]
      exact s.hits_hitBy X i hi
    · intro x _ hne
      refine if_neg fun hy => hne (funext fun i => ?_)
      have hi := (hy i i.isLt).symm.trans (s.hits_hitBy X i i.isLt)
      rw [pad_val] at hi
      exact toNat_inj hi
    · exact fun hno => absurd (mem_univ _) hno
  rw [sum_congr rfl fun x _ => hterm x, sum_comm, sum_congr rfl fun X _ => hcol X,
    sum_const, card_powerset, card_range, nsmul_eq_mul, Nat.cast_pow, ← mul_pow]
  norm_num

/-- A qubit that shows `o` wherever the amplitude is not zero has a zero row. -/
theorem RepInv.row_of_den {s : AffineState} (h : s.RepInv) {j : ℕ}
    (hj : j < s.n) {o : Bool} (ho : ∀ y, s.den y ≠ 0 → y j = o) :
    (∀ d, s.A.entry j d = 0) ∧ s.b.entry j = o.toNat := by
  have hrow : ∀ X ⊆ range s.r, s.rowVal X j = o.toNat := by
    intro X hX
    have hne : s.den (s.hitBy X) ≠ 0 := by
      have hnorm := h.norm_den_of_hits hX (s.hits_hitBy X)
      intro hzero
      rw [hzero, norm_zero] at hnorm
      have : (0 : ℝ) < (1 / 2) ^ s.r := by positivity
      linarith [hnorm]
    rw [← ho _ hne]
    exact s.hits_hitBy X j hj
  have hb := hrow ∅ (empty_subset _)
  have hbit := h.bBit j hj
  rw [rowVal, sum_empty, add_zero, Nat.mod_eq_of_lt hbit] at hb
  refine ⟨fun d => ?_, hb⟩
  by_cases hd : d < s.r
  · have hone := hrow {d} (by simpa using hd)
    have haBit := h.aBit j hj d
    rw [rowVal, sum_singleton, ← hb] at hone
    omega
  · exact h.aZero j hj d (not_lt.mp hd)

end Q2NS.AffineState
