import Q2NS.QState

/-!
# Projective measurement

`Measure` against the projection postulate.  States are compared by their
density tensors, which for pure states is equality up to a global phase.
-/

namespace Q2NS

open NamedTensor QuadForm Finset

namespace QState

/-- The state projected on outcome `o` of `basis` at qubit `t`, normalised. -/
noncomputable def projected (st : QState) (t : ℕ) (basis : Basis) (o : Bool) :
    (ℕ → Bool × Bool) → ℂ := fun z =>
  1 / st.prob t basis o *
    actOn (conjBy (projector (eigenvector basis o))) ![t] st.kernel z

/-- The density tensor of the eigenvector of `basis` for outcome `o`. -/
noncomputable def eigenstate (basis : Basis) (o : Bool) :
    (ℕ → Bool × Bool) → ℂ :=
  density fun y => eigenvector basis o (y 0)

/-- The result of measuring qubit `t` of `st` obeys the projection postulate. -/
structure Projective (st : QState) (t : ℕ) (basis : Basis)
    (r : MeasureResult QState) : Prop where
  /-- the measured qubit put back at `t` next to the survivors -/
  joint : ∀ z, r.measured.kernel (fun _ => z t) * r.survivors.kernel (z ∘ skip t) =
    st.projected t basis r.outcome z
  measured : r.measured.kernel = eigenstate basis r.outcome
  /-- measuring the measured qubit again gives the same outcome -/
  repeatable : r.measured.prob 0 basis r.outcome = 1

theorem eigenvector_norm (basis : Basis) (o : Bool) :
    ∑ b : Bool, starRingEnd ℂ (eigenvector basis o b) * eigenvector basis o b =
      1 := by
  have hsq := invSqrt2_mul_self
  rw [Fintype.sum_bool]
  cases basis with
  | Z => cases o <;> simp [eigenvector]
  | X => cases o <;> simp [eigenvector, sgn, conj_invSqrt2, hsq] <;> norm_num
  | Y =>
      cases o <;> simp [eigenvector, sgn, conj_invSqrt2, hsq] <;>
        linear_combination (-invSqrt2 * invSqrt2) * Complex.I_sq + hsq

/-- The two vectors built for `Y` are not the eigenvectors of `Y`. -/
theorem measuredVector_Y_ne (o : Bool) :
    density (fun y : ℕ → Bool => measuredVector .Y o (y 0)) ≠ eigenstate .Y o := by
  intro h
  have hsq := invSqrt2_mul_self
  have hz := congrFun h fun _ => (true, false)
  have hbuilt : density (fun y : ℕ → Bool => measuredVector .Y o (y 0))
      (fun _ => (true, false)) = sgn o / 2 := by
    cases o <;> simp [density, rowOf, colOf, measuredVector, sgn, conj_invSqrt2]
    · linear_combination hsq
    · linear_combination invSqrt2 * invSqrt2 * Complex.I_sq - hsq
  have hright : eigenstate .Y o (fun _ => (true, false)) =
      Complex.I * sgn o / 2 := by
    cases o <;>
      simp [eigenstate, density, rowOf, colOf, eigenvector, sgn, conj_invSqrt2]
    · linear_combination Complex.I * hsq
    · linear_combination -Complex.I * hsq
  rw [hbuilt, hright] at hz
  cases o <;> simp [sgn, Complex.ext_iff] at hz

theorem prob_eigenstate {st : QState} (hn : st.numQubits = 1) {basis : Basis}
    {o : Bool} (hst : st.kernel = eigenstate basis o) :
    st.prob 0 basis o = 1 := by
  have hnorm := eigenvector_norm basis o
  rw [prob, hn, hst, eigenstate, compress_density, trace_density]
  simp only [project, insertLeg_self, hnorm, norm_one, one_pow]
  simp

/-- When the measured qubit is the eigenvector, the rest of the postulate
follows. -/
theorem projective_of_measured {st : QState} {t : ℕ} {basis : Basis}
    {r : MeasureResult QState} (hn : r.measured.numQubits = 1)
    (hm : r.measured.kernel = eigenstate basis r.outcome)
    (hs : ∀ z, r.survivors.kernel z = 1 / st.prob t basis r.outcome *
      compress (eigenvector basis r.outcome) t st.kernel z) :
    Projective st t basis r where
  joint := fun z => by
    rw [hm, hs, projected, actOn_projector, eigenstate, density]
    simp only [rowOf, colOf]
    ring
  measured := hm
  repeatable := prob_eigenstate hn hm

/-- `Measure` obeys the projection postulate exactly for the stabilizer backend
and for the bases `Z` and `X`. -/
theorem measure_projective_iff {st : QState} (h : st.WellFormed) {t : ℕ}
    (ht : t < st.numQubits) (basis : Basis) (o : Bool)
    (ho : st.prob t basis o ≠ 0) :
    ∃ r st', st.measure t basis o = (.ok r, st') ∧ r.outcome = o ∧
      (Projective st t basis r ↔ st.backend = .Stab ∨ basis ≠ .Y) := by
  obtain ⟨r, st', hok, -, hdraw, -, -, hm, -, -, hs⟩ :=
    measure_ok h ht basis o
  have hout : r.outcome = o := hdraw.resolve_right ho
  have hn := ((measure_numQubits hok).2 r rfl).1
  refine ⟨r, st', hok, hout, fun hp => ?_, fun hcond => ?_⟩
  · by_contra hnot
    obtain ⟨hb, rfl⟩ : st.backend ≠ .Stab ∧ basis = .Y := by
      simpa only [not_or, ne_eq, not_not] using hnot
    have hamp : measuredAmplitude st.backend .Y r.outcome =
        measuredVector .Y r.outcome := by
      cases hst : st.backend <;> first | rfl | exact absurd hst hb
    rw [hamp] at hm
    exact measuredVector_Y_ne r.outcome ((funext hm).symm.trans hp.measured)
  · have hamp : measuredAmplitude st.backend basis r.outcome =
        eigenvector basis r.outcome := by
      cases hst : st.backend <;> cases basis <;>
        first
        | rfl
        | exact (hcond.elim (fun hb => by rw [hst] at hb; cases hb) (absurd rfl))
    rw [hamp] at hm
    exact projective_of_measured hn (funext hm) hs

/-- The one-qubit vector `|0⟩`. -/
def groundKet : Ket := ⟨1, fun x => if ∃ i, x i then 0 else 1⟩

theorem wellFormed_ground : (ket groundKet).WellFormed := by
  rw [WellFormed, Ket.norm2, groundKet,
    ← (Equiv.funUnique (Fin 1) Bool).symm.sum_comp]
  simp

theorem prob_ground (basis : Basis) (o : Bool) :
    (ket groundKet).prob 0 basis o = (‖eigenvector basis o false‖ ^ 2 : ℝ) := by
  have hproject : ∀ y, project (eigenvector basis o) 0 groundKet.eval y =
      starRingEnd ℂ (eigenvector basis o false) := by
    intro y
    simp [project, Ket.eval, onNat, groundKet, insertLeg]
  have hcard : Fintype.card (Fin (groundKet.n - 1) → Bool) = 1 := rfl
  rw [prob_ket, Ket.prob]
  simp only [hproject, RCLike.norm_conj, sum_const, card_univ, hcard, one_smul]

theorem prob_ground_ne {basis : Basis} (hb : basis ≠ .Z) (o : Bool) :
    (ket groundKet).prob 0 basis o ≠ 0 := by
  have hne : invSqrt2 ≠ 0 := inv_ne_zero sqrt_two_ne_zero
  rw [prob_ground]
  cases basis <;> simp [eigenvector, sgn, hne] at hb ⊢

theorem measure_projective_ground :
    ∃ r st', (ket groundKet).measure 0 .X true = (.ok r, st') ∧
      Projective (ket groundKet) 0 .X r := by
  obtain ⟨r, st', hok, -, hiff⟩ := measure_projective_iff wellFormed_ground
    (t := 0) Nat.zero_lt_one .X true (prob_ground_ne (by decide) true)
  exact ⟨r, st', hok, hiff.mpr (.inr (by decide))⟩

/-- Measuring `|0⟩` in `Y` returns a qubit that is not in the measured state. -/
theorem measure_ground_Y_not_projective :
    (ket groundKet).WellFormed ∧ 0 < (ket groundKet).numQubits ∧
      (ket groundKet).prob 0 .Y false ≠ 0 ∧
      ∃ r st', (ket groundKet).measure 0 .Y false = (.ok r, st') ∧
        ¬ Projective (ket groundKet) 0 .Y r := by
  obtain ⟨r, st', hok, -, -, -, -, hm, -⟩ :=
    measure_ok wellFormed_ground (t := 0) Nat.zero_lt_one .Y false
  exact ⟨wellFormed_ground, Nat.zero_lt_one, prob_ground_ne (by decide) false,
    r, st', hok, fun hp =>
      measuredVector_Y_ne r.outcome ((funext hm).symm.trans hp.measured)⟩

end QState

end Q2NS
