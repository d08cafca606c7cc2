import Q2NS.Lib.UniformDraws
import Q2NS.Machine.Refinement
import Q2NS.Maps.QMap

/-!
# Channels on one handle

The linear maps that the noise maps stand for, on the joint density tensor of all
handles: conjugation by a matrix, and the completely mixed state.  A conjugation is a
sum over pairs of matrix entries, so the average of a conjugation by random matrices is
decided by the averages of these pairs; for the matrices of `SampleHaarSU2_` only the
squares are left.
-/

namespace Q2NS.Maps

open NamedTensor QStateRegistry UniformDraws

/-- Tensors over the handles, rows and columns. -/
abbrev Tensor := (QubitPtr → Bool × Bool) → ℂ

variable (q : QubitPtr)

/-- `F ↦ U F U†` on handle `q`. -/
noncomputable def conjugate (U : CMat) : Tensor →ₗ[ℂ] Tensor where
  toFun := actOn (conjBy (U.kernel 1)) ![q]
  map_add' F H := by
    funext z
    simp only [actOn, Pi.add_apply, mul_add, Finset.sum_add_distrib]
  map_smul' a F := by
    funext z
    simp only [actOn, Pi.smul_apply, smul_eq_mul, Finset.mul_sum, RingHom.id_apply]
    exact Finset.sum_congr rfl fun b _ => by ring

/-- Handle `q` discarded for one in the completely mixed state. -/
noncomputable def mixed : Tensor →ₗ[ℂ] Tensor where
  toFun F z := (if (z q).1 = (z q).2 then 1 / ((2 : ℕ) : ℂ) else 0) * traceOut q F z
  map_add' F H := by
    funext z
    simp only [traceOut, Pi.add_apply, Finset.sum_add_distrib, mul_add]
  map_smul' a F := by
    funext z
    simp only [traceOut, Pi.smul_apply, smul_eq_mul, ← Finset.mul_sum, RingHom.id_apply]
    ring

/-- What a gate does; a gate without a matrix does nothing that is counted. -/
noncomputable def gateChannel (gate : QGate) : Tensor →ₗ[ℂ] Tensor :=
  match gate.matrix with
  | .ok U => conjugate q U
  | .error _ => 0

/-! ## Entries -/

/-- A row and a column, each with the entries before and after. -/
abbrev EntryPair := (Bool × Bool) × (Bool × Bool)

/-- The entry `c` moved to the entry `b`. -/
noncomputable def moved (i : EntryPair) (F : Tensor) : Tensor := fun z =>
  if z q = i.1 then F (Function.update z q i.2) else 0

/-- The coefficient of a pair of entries in a conjugation. -/
noncomputable def pairOf (U : CMat) (i : EntryPair) : ℂ :=
  U.entry i.1.1.toNat i.2.1.toNat *
    starRingEnd ℂ (U.entry i.1.2.toNat i.2.2.toNat)

theorem conjugate_eq_sum (U : CMat) (F : Tensor) :
    conjugate q U F = ∑ i, pairOf U i • moved q i F := by
  funext z
  have hterm : ∀ i : EntryPair, (pairOf U i • moved q i F) z =
      if z q = i.1 then pairOf U i * F (Function.update z q i.2) else 0 := fun i => by
    rw [Pi.smul_apply, smul_eq_mul, moved, mul_ite, mul_zero]
  rw [Finset.sum_apply, Finset.sum_congr rfl fun i _ => hterm i, Fintype.sum_prod_type]
  simp only [Finset.sum_ite_irrel, Finset.sum_const_zero, Finset.sum_ite_eq, Finset.mem_univ,
    if_true]
  refine (actOn_one _ q F z).trans (Finset.sum_congr rfl fun b _ => ?_)
  rw [conjBy, kernel_one, kernel_one]
  rfl

theorem mixed_eq_sum (F : Tensor) :
    mixed q F = ∑ i : EntryPair,
      (if i.1.1 = i.1.2 ∧ i.2.1 = i.2.2 then (1 / 2 : ℂ) else 0) • moved q i F := by
  funext z
  have hterm : ∀ i : EntryPair,
      ((if i.1.1 = i.1.2 ∧ i.2.1 = i.2.2 then (1 / 2 : ℂ) else 0) • moved q i F) z =
        if z q = i.1 then (if i.1.1 = i.1.2 ∧ i.2.1 = i.2.2 then (1 / 2 : ℂ) else 0) *
          F (Function.update z q i.2) else 0 := fun i => by
    rw [Pi.smul_apply, smul_eq_mul, moved, mul_ite, mul_zero]
  rw [Finset.sum_apply, Finset.sum_congr rfl fun i _ => hterm i, Fintype.sum_prod_type]
  simp only [Finset.sum_ite_irrel, Finset.sum_const_zero, Finset.sum_ite_eq, Finset.mem_univ,
    if_true]
  rw [mixed, LinearMap.coe_mk, AddHom.coe_mk, traceOut, Fintype.sum_prod_type]
  simp only [Fintype.sum_bool]
  by_cases hz : (z q).1 = (z q).2
  · simp [hz]
    ring
  · simp [hz]

/-- A linear reading of a conjugation. -/
theorem reading_conjugate (L : Tensor →ₗ[ℂ] ℂ) (U : CMat) (F : Tensor) :
    L (conjugate q U F) = ∑ i, L (moved q i F) * pairOf U i := by
  rw [conjugate_eq_sum, map_sum]
  exact Finset.sum_congr rfl fun i _ => by rw [map_smul, smul_eq_mul, mul_comm]

/-! ## Pauli matrices -/

theorem conjugate_matrixI (F : Tensor) : conjugate q matrixI F = F := by
  funext z
  have hself : Function.update z q (z q) = z := Function.update_eq_self q z
  refine (actOn_one _ q F z).trans ?_
  rw [Fintype.sum_prod_type]
  rcases hz : z q with ⟨b, c⟩
  rw [hz] at hself
  cases b <;> cases c <;>
    simp [conjBy, kernel_one, rowOf, colOf, matrixI, makeMatrix, hself]

/-- The four Pauli matrices together leave the completely mixed state. -/
theorem pauli_twirl (F : Tensor) :
    F + (conjugate q matrixX F + conjugate q matrixY F + conjugate q matrixZ F) =
      (4 : ℂ) • mixed q F := by
  have hcoefficient : ∀ i : EntryPair, pairOf matrixI i +
      (pairOf matrixX i + pairOf matrixY i + pairOf matrixZ i) =
        4 * if i.1.1 = i.1.2 ∧ i.2.1 = i.2.2 then (1 / 2 : ℂ) else 0 := by
    rintro ⟨⟨b, c⟩, b', c'⟩
    cases b <;> cases c <;> cases b' <;> cases c' <;>
      simp [pairOf, matrixI, matrixX, matrixY, matrixZ, makeMatrix] <;> norm_num
  calc F + (conjugate q matrixX F + conjugate q matrixY F + conjugate q matrixZ F)
      = conjugate q matrixI F +
          (conjugate q matrixX F + conjugate q matrixY F + conjugate q matrixZ F) := by
        rw [conjugate_matrixI]
    _ = (4 : ℂ) • mixed q F := by
        simp only [conjugate_eq_sum, mixed_eq_sum, Finset.smul_sum,
          ← Finset.sum_add_distrib, ← add_smul, smul_smul, hcoefficient]

theorem traceOut_mixed (F : Tensor) : traceOut q (mixed q F) = traceOut q F := by
  funext z
  have hleg : ∀ c : Bool, mixed q F (Function.update z q (c, c)) = 1 / 2 * traceOut q F z := by
    intro c
    rw [mixed, LinearMap.coe_mk, AddHom.coe_mk, Function.update_self, if_pos rfl, traceOut,
      traceOut]
    simp only [Function.update_idem, Nat.cast_ofNat]
  rw [traceOut, Fintype.sum_bool, hleg, hleg]
  ring

/-- What is mixed already stays as it is. -/
theorem mixed_mixed : mixed q ∘ₗ mixed q = mixed q :=
  LinearMap.ext fun F => funext fun z =>
    congrArg ((if (z q).1 = (z q).2 then 1 / ((2 : ℕ) : ℂ) else 0) * ·)
      (congrFun (traceOut_mixed q F) z)

/-! ## Random unitaries -/

/-- The matrix of `SampleHaarSU2_` for three draws. -/
noncomputable def haar (a b c : ℝ) : CMat :=
  let s1 := Real.sqrt (1 - a)
  let s2 := Real.sqrt a
  let t1 := 2.0 * Real.pi * b
  let t2 := 2.0 * Real.pi * c
  let u0 := s2 * Real.cos t2
  let u3 := s2 * Real.sin t2
  let u2 := s1 * Real.cos t1
  let u1 := s1 * Real.sin t1
  makeMatrix [[⟨u0, u3⟩, ⟨u2, u1⟩], [⟨-u2, u1⟩, ⟨u0, -u3⟩]]

/-- The radius of an entry. -/
noncomputable def radius (i j : Bool) (a : ℝ) : ℝ :=
  if i = j then Real.sqrt a else if i then -Real.sqrt (1 - a) else Real.sqrt (1 - a)

/-- How often an entry turns with the second draw. -/
def turnsB (i j : Bool) : ℤ := if i = j then 0 else if i then -1 else 1

/-- How often an entry turns with the third draw. -/
def turnsC (i j : Bool) : ℤ := if i = j then if i then -1 else 1 else 0

theorem haar_entry (a b c : ℝ) (i j : Bool) :
    (haar a b c).entry i.toNat j.toNat =
      radius i j a * turn (turnsB i j) b * turn (turnsC i j) c := by
  have htwo : (2.0 : ℝ) = 2 := by norm_num
  cases i <;> cases j <;>
    simp [haar, makeMatrix, radius, turnsB, turnsC, turn_eq, htwo, Complex.ext_iff]

/-- Two entries turn alike only if they are the same. -/
theorem turns_injective {i j i' j' : Bool} (hB : turnsB i j = turnsB i' j')
    (hC : turnsC i j = turnsC i' j') : i = i' ∧ j = j' := by
  revert i j i' j'
  decide

theorem radius_mul_self (i j : Bool) {a : ℝ} (h0 : 0 ≤ a) (h1 : a ≤ 1) :
    radius i j a * radius i j a = if i = j then a else 1 - a := by
  have hs2 := Real.mul_self_sqrt h0
  have hs1 := Real.mul_self_sqrt (sub_nonneg.mpr h1)
  rw [radius]
  split_ifs
  · exact hs2
  · rw [neg_mul_neg, hs1]
  · exact hs1

theorem continuous_radius (i j : Bool) : Continuous (radius i j) := by
  unfold radius
  split_ifs <;> fun_prop

theorem integral_radius (i j : Bool) :
    ∫ a in (0 : ℝ)..1, (radius i j a : ℂ) * radius i j a = 1 / 2 := by
  have hsq : ∀ a ∈ Set.uIcc (0 : ℝ) 1, (radius i j a : ℂ) * radius i j a =
      ((if i = j then a else 1 - a : ℝ) : ℂ) := by
    intro a ha
    rw [Set.uIcc_of_le zero_le_one] at ha
    rw [← Complex.ofReal_mul, radius_mul_self i j ha.1 ha.2]
  rw [intervalIntegral.integral_congr hsq, intervalIntegral.integral_ofReal]
  split_ifs
  · rw [integral_id]
    norm_num
  · rw [intervalIntegral.integral_sub intervalIntegrable_const
        intervalIntegral.intervalIntegrable_id, integral_id, intervalIntegral.integral_const]
    norm_num

/-- The pairs of entries of a random unitary. -/
theorem pairOf_haar (a b c : ℝ) (i : EntryPair) :
    pairOf (haar a b c) i =
      (radius i.1.1 i.2.1 a * radius i.1.2 i.2.2 a : ℂ) *
        turn (turnsB i.1.1 i.2.1 - turnsB i.1.2 i.2.2) b *
        turn (turnsC i.1.1 i.2.1 - turnsC i.1.2 i.2.2) c := by
  rw [pairOf, haar_entry, haar_entry, map_mul, map_mul, Complex.conj_ofReal, conj_turn,
    conj_turn, sub_eq_add_neg, sub_eq_add_neg, ← turn_mul, ← turn_mul]
  ring

/-- Averaged over the draws, a conjugation by a random unitary discards the handle for
one in the completely mixed state. -/
theorem integral_haar (L : Tensor →ₗ[ℂ] ℂ) (F : Tensor) :
    (∫ a in (0 : ℝ)..1, ∫ b in (0 : ℝ)..1, ∫ c in (0 : ℝ)..1,
      L (conjugate q (haar a b c) F)) = L (mixed q F) := by
  have hcontinuous : ∀ i : EntryPair, Continuous fun a : ℝ =>
      (radius i.1.1 i.2.1 a * radius i.1.2 i.2.2 a : ℂ) := fun i =>
    (Complex.continuous_ofReal.comp (continuous_radius _ _)).mul
      (Complex.continuous_ofReal.comp (continuous_radius _ _))
  simp only [reading_conjugate, pairOf_haar]
  rw [integral_phases _ _ hcontinuous, mixed_eq_sum, map_sum]
  refine Finset.sum_congr rfl fun i _ => ?_
  rw [map_smul, smul_eq_mul, mul_comm]
  congr 1
  by_cases hi : i.1.1 = i.1.2 ∧ i.2.1 = i.2.2
  · rw [if_pos hi, hi.1, hi.2, sub_self, sub_self, if_pos ⟨rfl, rfl⟩, integral_radius]
  · rw [if_neg hi, if_neg fun h => hi
      (turns_injective (sub_eq_zero.mp h.1) (sub_eq_zero.mp h.2))]

theorem haar_unitary {a : ℝ} (h0 : 0 ≤ a) (h1 : a ≤ 1) (b c : ℝ) :
    (haar a b c).Unitary 1 := by
  refine ⟨rfl, rfl, isometric_one fun i j => ?_⟩
  have hpair : ∀ k : Bool, starRingEnd ℂ ((haar a b c).entry k.toNat i.toNat) *
      (haar a b c).entry k.toNat j.toNat = pairOf (haar a b c) ((k, k), j, i) :=
    fun k => mul_comm _ _
  have hsum : (radius true i a * radius true i a : ℂ) +
      radius false i a * radius false i a = 1 := by
    rw [← Complex.ofReal_mul, ← Complex.ofReal_mul, radius_mul_self _ _ h0 h1,
      radius_mul_self _ _ h0 h1]
    cases i <;> simp
  have hturn : ∀ x : ℝ, turn 0 x = 1 := fun x => by simp [turn]
  rw [Fintype.sum_bool, hpair, hpair, pairOf_haar, pairOf_haar]
  by_cases hij : i = j
  · subst hij
    simp only [sub_self, hturn, mul_one, if_true]
    exact hsum
  · rw [if_neg hij]
    cases i <;> cases j <;>
      first
      | exact absurd rfl hij
      | simp [radius, turnsB, turnsC]
        ring

end Q2NS.Maps
