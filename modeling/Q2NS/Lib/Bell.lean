import Q2NS.Lib.PartialTrace
import Q2NS.Lib.QuadForm

/-!
# Bell states

`bell xx zz` is the state of two qubits on which `X ⊗ X` has the eigenvalue
`(-1) ^ xx` and `Z ⊗ Z` the eigenvalue `(-1) ^ zz`.
-/

namespace Q2NS.NamedTensor

open Finset QuadForm

/-- The Bell state with the given parities. -/
noncomputable def bell (xx zz b c : Bool) : ℂ :=
  if c = (b ^^ zz) then invSqrt2 * sgn (xx && b) else 0

theorem sgn_mul_self (b : Bool) : sgn b * sgn b = 1 := by
  cases b <;> simp [sgn]

theorem sgn_xor (b c : Bool) : sgn (b ^^ c) = sgn b * sgn c := by
  cases b <;> cases c <;> simp [sgn]

theorem conj_bell (xx zz b c : Bool) :
    starRingEnd ℂ (bell xx zz b c) = bell xx zz b c := by
  unfold bell
  split_ifs
  · rw [map_mul, conj_invSqrt2, conj_sgn]
  · exact map_zero _

/-- Bell states have norm one. -/
theorem sum_bell (xx zz : Bool) :
    ∑ b, ∑ c, bell xx zz b c * starRingEnd ℂ (bell xx zz b c) = 1 := by
  have hone : ∀ b, ∑ c, bell xx zz b c * starRingEnd ℂ (bell xx zz b c) = 1 / 2 := by
    intro b
    rw [sum_eq_single (b ^^ zz)]
    · rw [conj_bell, bell, if_pos rfl, mul_mul_mul_comm, invSqrt2_mul_self,
        sgn_mul_self, mul_one]
    · intro c _ hc
      rw [bell, if_neg hc, zero_mul]
    · exact fun h => absurd (mem_univ _) h
  rw [Fintype.sum_bool, hone, hone]
  norm_num

/-- A projection of a pure state of a pair is its overlap with the vector. -/
theorem contractPair_overlap {ι : Type*} [DecidableEq ι] {a c : ι} (hac : a ≠ c)
    (v u : Bool → Bool → ℂ) (z : ι → Bool × Bool) :
    contractPair (outerPair v) a c (density fun x => u (x a) (x c)) z =
      starRingEnd ℂ (∑ b, ∑ d, v b d * starRingEnd ℂ (u b d)) *
        ∑ b, ∑ d, v b d * starRingEnd ℂ (u b d) := by
  simp only [contractPair, outerPair, density, rowOf, colOf, Function.update_self,
    Function.update_of_ne hac, Fintype.sum_prod_type, Fintype.sum_bool, map_add, map_mul,
    Complex.conj_conj]
  ring

/-- Bell states with different parities are orthogonal. -/
theorem bell_overlap {xx zz xx' zz' : Bool} (h : (xx, zz) ≠ (xx', zz')) :
    ∑ b, ∑ d, bell xx zz b d * starRingEnd ℂ (bell xx' zz' b d) = 0 := by
  simp only [Fintype.sum_bool, bell]
  cases xx <;> cases zz <;> cases xx' <;> cases zz' <;> simp [sgn] at h ⊢

end Q2NS.NamedTensor
