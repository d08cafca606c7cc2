import Mathlib.Analysis.InnerProductSpace.Positive
import Q2NS.QStateKet

/-!
# The density-matrix backend

`QStateDM` and what its operations do to the matrix entries.
-/

namespace Q2NS

open NamedTensor QuadForm Loop Finset Matrix
open scoped ComplexOrder

namespace DM

/-- The squared Frobenius norm. -/
noncomputable def frobenius2 {n : ℕ}
    (A : Matrix (Fin n → Bool) (Fin n → Bool) ℂ) : ℝ :=
  ∑ x, ∑ y, ‖A x y‖ ^ 2

theorem isHermitian_symmetrized (ρ : DM) :
    ((0.5 : ℂ) • (ρ.rho + ρ.rhoᴴ)).IsHermitian := by
  rw [IsHermitian, conjTranspose_smul, conjTranspose_add,
    conjTranspose_conjTranspose, add_comm]
  norm_num

end DM

namespace QStateDM

/-- `ValidateDensityMatrix`: a `DM` is square of dimension `2^N` by
construction, so the Hermiticity, the trace and the eigenvalues are left to
check. -/
noncomputable def validateDensityMatrix (ρ : DM) : Except Exit Unit :=
  if ¬ DM.frobenius2 (ρ.rho - ρ.rhoᴴ) ≤ 1e-12 ^ 2 *
      min (DM.frobenius2 ρ.rho) (DM.frobenius2 ρ.rhoᴴ) then
    .error (.thrown "QStateDM: density matrix must be Hermitian")
  else if |ρ.rho.trace.im| > 1e-9 then
    .error (.thrown "QStateDM: Tr(rho) must be real")
  else if |ρ.rho.trace.re - 1| > 1e-9 then
    .error (.thrown "QStateDM: Tr(rho) must be 1")
  else if ∃ i, ρ.isHermitian_symmetrized.eigenvalues i < -1e-12 then
    .error (.thrown "QStateDM: density matrix must be positive semidefinite")
  else .ok ()

/-- The constructor from an existing matrix. -/
noncomputable def ofDM (ρ : DM) : Except Exit DM := do
  validateDensityMatrix ρ
  return ρ

/-- The state `|0…0⟩⟨0…0|`. -/
noncomputable def init (numQubits : ℕ) : Except Exit DM := do
  let k ← Ket.mket (List.replicate numQubits false)
  ofDM (DM.prj k)

/-- `QStateDM::Apply`. -/
noncomputable def apply (st : DM) (g : QGate) (targets : List ℕ) :
    Except Exit DM := do
  let U ← g.matrix
  let dim := 2 ^ targets.length
  if U.rows ≠ dim ∨ U.cols ≠ dim then
    throw (.aborted "QStateDM::Apply: wrong gate dimension")
  st.apply U targets

/-- `QStateDM::MergeDisjoint` with another density matrix. -/
noncomputable def mergeDisjoint (st other : DM) : Except Exit DM :=
  ofDM (st.kron other)

/-- `QStateDM::Measure`: the result and the state object afterwards. -/
noncomputable def measure (st : DM) (target : ℕ) (basis : Basis)
    (draw : Bool) : Except Exit (MeasureResult DM) × DM :=
  if target ≥ st.n then
    (.error (.thrown "QStateDM::Measure: target out of range"), st)
  else
    match rotate DM.apply st target basis with
    | .error e => (.error e, st)
    | .ok rotated =>
        (do
          let (outcome, survivors) ← rotated.measure Qpp.gtZ target draw
          let oneQ ← measuredKet basis outcome
          let measured1q ← ofDM (DM.prj oneQ)
          let survivors ← ofDM survivors
          return ⟨outcome, measured1q, survivors⟩, rotated)

end QStateDM

/-! ## Valid density matrices -/

namespace DM

/-- A density matrix: positive semidefinite with trace one. -/
structure Valid (ρ : DM) : Prop where
  posSemidef : ρ.rho.PosSemidef
  trace : ρ.rho.trace = 1

theorem eval_dependsOn (ρ : DM) : DependsOn ρ.eval (Set.Iio ρ.n) := by
  intro x y hxy
  rw [eval, eval]
  congr 1 <;> funext i <;> rw [hxy i i.isLt]

theorem trace_eval (ρ : DM) : NamedTensor.trace ρ.n ρ.eval = ρ.rho.trace := by
  refine sum_congr rfl fun x _ => ?_
  have hx : (fun i : Fin ρ.n => pad x i) = x := funext fun i => pad_val x i
  rw [eval, hx, diag_apply]

theorem eval_prj (ψ : Ket) : (prj ψ).eval = density ψ.eval := rfl

theorem eval_kron (ρ σ : DM) (z : ℕ → Bool × Bool) :
    (ρ.kron σ).eval z = ρ.eval z * σ.eval fun i => z (ρ.n + i) := rfl

theorem eval_scale (c : ℂ) (ρ : DM) (z : ℕ → Bool × Bool) :
    (ρ.scale c).eval z = c * ρ.eval z := rfl

theorem valid_prj {ψ : Ket} (hψ : ψ.norm2 = 1) : (prj ψ).Valid := by
  refine { posSemidef := ?_, trace := ?_ }
  · exact posSemidef_vecMulVec_self_star ψ.amp
  · rw [← trace_eval, eval_prj, trace_density]
    have h := ψ.norm2_eq_inner
    rw [hψ, inner_self] at h
    exact h.symm

theorem valid_kron {ρ σ : DM} (hρ : ρ.Valid) (hσ : σ.Valid) :
    (ρ.kron σ).Valid := by
  have hrho : (ρ.kron σ).rho = (kroneckerMap (· * ·) ρ.rho σ.rho).submatrix
      (Fin.appendEquiv ρ.n σ.n).symm (Fin.appendEquiv ρ.n σ.n).symm := rfl
  refine { posSemidef := ?_, trace := ?_ }
  · rw [hrho]
    exact (hρ.posSemidef.kronecker hσ.posSemidef).submatrix _
  · have htrace : (ρ.kron σ).rho.trace =
        (kroneckerMap (· * ·) ρ.rho σ.rho).trace :=
      (Fin.appendEquiv ρ.n σ.n).symm.sum_comp
        fun p => kroneckerMap (· * ·) ρ.rho σ.rho p p
    rw [htrace, trace_kronecker, hρ.trace, hσ.trace, one_mul]

/-! ## Gates -/

/-- `sandwich` acts with `ρ ↦ U ρ U†` on the listed legs. -/
theorem eval_sandwich {ρ : DM} {U : CMat} {target : List ℕ}
    (hd : target.Nodup) (hlt : ∀ t ∈ target, t < ρ.n) :
    (ρ.sandwich U target).eval =
      actOn (conjBy (U.kernel target.length)) (Qpp.legs target) ρ.eval := by
  have hinj := Qpp.legs_injective hd
  have hleg := Qpp.legs_lt hlt
  let F : (ℕ → Bool) → (ℕ → Bool) → ℂ := fun x y =>
    ρ.rho (fun i => x i) fun i => y i
  have hpad : ∀ x : ℕ → Bool,
      pad (fun i : Fin ρ.n => x i) ∘ Qpp.legs target = x ∘ Qpp.legs target :=
    fun x => funext fun a => pad_restrict x (hleg a)
  have hpatch : ∀ (x : ℕ → Bool) u,
      (fun i : Fin ρ.n =>
        patch (Qpp.legs target) u (pad fun j : Fin ρ.n => x j) i) =
      fun i : Fin ρ.n => patch (Qpp.legs target) u x i := by
    intro x u
    funext i
    by_cases hi : ∃ a, Qpp.legs target a = i
    · obtain ⟨a, ha⟩ := hi
      rw [← ha, patch_apply hinj, patch_apply hinj]
    · have hno : ∀ a, Qpp.legs target a ≠ i := fun a ha => hi ⟨a, ha⟩
      rw [patch_other hno, patch_other hno, pad_restrict x i.isLt]
  funext z
  have hsandwich : (ρ.sandwich U target).eval z =
      ∑ u : Fin target.length → Bool, ∑ v : Fin target.length → Bool,
        U.kernel target.length
            (pad (fun i : Fin ρ.n => rowOf z i) ∘ Qpp.legs target) u *
          ρ.rho (fun i => patch (Qpp.legs target) u
              (pad fun j : Fin ρ.n => rowOf z j) i)
            (fun i => patch (Qpp.legs target) v
              (pad fun j : Fin ρ.n => colOf z j) i) *
          starRingEnd ℂ (U.kernel target.length
            (pad (fun i : Fin ρ.n => colOf z i) ∘ Qpp.legs target) v) := rfl
  have hF : ρ.eval = fun z => F (rowOf z) (colOf z) := rfl
  rw [hsandwich, hF, actOn_conjBy]
  simp only [hpad, hpatch, F]

theorem rho_eq_eval (ρ : DM) (x y : Fin ρ.n → Bool) :
    ρ.rho x y = ρ.eval fun i => (pad x i, pad y i) := by
  have hpad : ∀ x : Fin ρ.n → Bool, (fun i : Fin ρ.n => pad x i) = x :=
    fun x => funext fun i => pad_val x i
  rw [eval]
  simp only [hpad]

/-- A unitary keeps a density matrix valid: it maps a mixture of vectors to the
mixture of their images. -/
theorem valid_sandwich {ρ : DM} {U : CMat} {target : List ℕ} (hρ : ρ.Valid)
    (hU : U.Unitary target.length) (hd : target.Nodup)
    (hlt : ∀ t ∈ target, t < ρ.n) : (ρ.sandwich U target).Valid := by
  obtain ⟨m, v, hv⟩ := posSemidef_iff_eq_sum_vecMulVec.mp hρ.posSemidef
  have heval : ρ.eval = fun z => ∑ k, density (onNat (v k)) z := by
    funext z
    rw [eval, hv, Matrix.sum_apply]
    rfl
  have hact : (ρ.sandwich U target).eval = fun z => ∑ k, density
      (actOn (U.kernel target.length) (Qpp.legs target) (onNat (v k))) z := by
    rw [eval_sandwich hd hlt, heval, actOn_sum]
    simp only [actOn_density]
  refine { posSemidef := ?_, trace := ?_ }
  · refine posSemidef_iff_eq_sum_vecMulVec.mpr ⟨m, fun k => onFin ρ.n
      (actOn (U.kernel target.length) (Qpp.legs target) (onNat (v k))), ?_⟩
    ext x y
    rw [rho_eq_eval, hact, Matrix.sum_apply]
    rfl
  · have htrace := ρ.trace_eval
    rw [hρ.trace, heval, NamedTensor.trace_sum] at htrace
    have hn : (ρ.sandwich U target).n = ρ.n := rfl
    rw [← trace_eval, hact, NamedTensor.trace_sum, hn, ← htrace]
    refine sum_congr rfl fun k _ => ?_
    have hpad : ∀ x, onNat (v k) (pad x) = v k x := congrFun (onFin_onNat (v k))
    rw [trace_density, trace_density]
    simp only [hpad]
    congr 1
    exact sum_norm_actOn hU.isometric (Qpp.legs_injective hd)
      (Qpp.legs_lt hlt) (v k)

/-! ## Measuring a qubit -/

theorem eval_ptrace {ρ : DM} {t : ℕ} (ht : t < ρ.n) (z : ℕ → Bool × Bool) :
    (ρ.ptrace t).eval z = ∑ b : Bool, ρ.eval (insertLeg t (b, b) z) := by
  have hpad : ∀ (b : Bool) (x : ℕ → Bool) (i : Fin ρ.n),
      insertLeg t b (pad fun j : Fin (ρ.n - 1) => x j) i = insertLeg t b x i := by
    intro b x i
    have hi := i.isLt
    simp only [insertLeg]
    split_ifs with h₁ h₂
    · exact pad_restrict x (by omega)
    · rfl
    · exact pad_restrict x (by omega)
  have htrace : (ρ.ptrace t).eval z = ∑ b : Bool, ρ.rho
      (fun i => insertLeg t b (pad fun j : Fin (ρ.n - 1) => rowOf z j) i)
      fun i => insertLeg t b (pad fun j : Fin (ρ.n - 1) => colOf z j) i := rfl
  rw [htrace]
  refine sum_congr rfl fun b _ => ?_
  have heval : ρ.eval (insertLeg t (b, b) z) = ρ.rho
      (fun i => rowOf (insertLeg t (b, b) z) i)
      fun i => colOf (insertLeg t (b, b) z) i := rfl
  rw [heval, rowOf_insertLeg, colOf_insertLeg]
  simp only [hpad]

/-- The operator that `measure` applies for column `o` of `gt.Z`. -/
theorem entry_kraus_gtZ (o a b : Bool) :
    (kraus Qpp.gtZ o.toNat).entry a.toNat b.toNat =
      if a = o ∧ b = o then 1 else 0 := by
  cases o <;> cases a <;> cases b <;>
    simp [kraus, Qpp.gtZ, matrixZ, makeMatrix]

/-- The unnormalised state left by outcome `o` of a measurement in `Z`. -/
noncomputable def branch (ρ : DM) (t : ℕ) (o : Bool) : DM :=
  (ρ.sandwich (kraus Qpp.gtZ o.toNat) [t]).ptrace t

theorem eval_branch {ρ : DM} {t : ℕ} (ht : t < ρ.n) (o : Bool)
    (z : ℕ → Bool × Bool) :
    (ρ.branch t o).eval z = ρ.eval (insertLeg t (o, o) z) := by
  have hact := eval_sandwich (ρ := ρ) (U := kraus Qpp.gtZ o.toNat)
    (List.nodup_singleton t) (by simpa using ht)
  rw [branch, eval_ptrace (by exact ht), hact, Qpp.legs_one]
  simp only [List.length_singleton, actOn_one, insertLeg_self, update_insertLeg,
    conjBy, kernel_one, rowOf, colOf, entry_kraus_gtZ, Fintype.sum_prod_type,
    Fintype.sum_bool]
  cases o <;> simp

theorem rho_branch {ρ : DM} {t : ℕ} (ht : t < ρ.n) (o : Bool) :
    (ρ.branch t o).rho = ρ.rho.submatrix (fun x i => insertLeg t o (pad x) i)
      fun x i => insertLeg t o (pad x) i := by
  ext x y
  have heval : ρ.eval (insertLeg t (o, o) fun i => (pad x i, pad y i)) =
      ρ.rho (fun i => rowOf (insertLeg t (o, o) fun i => (pad x i, pad y i)) i)
      fun i => colOf (insertLeg t (o, o) fun i => (pad x i, pad y i)) i := rfl
  rw [rho_eq_eval, eval_branch ht, heval, rowOf_insertLeg, colOf_insertLeg]
  rfl

theorem posSemidef_branch {ρ : DM} {t : ℕ} (ht : t < ρ.n)
    (hρ : ρ.rho.PosSemidef) (o : Bool) : (ρ.branch t o).rho.PosSemidef := by
  rw [rho_branch ht]
  exact hρ.submatrix _

theorem trace_branch_add {ρ : DM} {t : ℕ} (ht : t < ρ.n) :
    (ρ.branch t false).rho.trace + (ρ.branch t true).rho.trace =
      ρ.rho.trace := by
  rw [rho_branch ht, rho_branch ht]
  obtain ⟨n, rho⟩ := ρ
  obtain ⟨m, rfl⟩ : ∃ m, n = m + 1 := ⟨n - 1, by simp only at ht; omega⟩
  have ht' : t < m + 1 := ht
  have htrace : rho.trace = ∑ b : Bool, ∑ x : Fin m → Bool,
      rho (fun i => insertLeg t b (pad x) i) fun i => insertLeg t b (pad x) i :=
    sum_insertLeg (t := t) (by omega) fun x => rho x x
  rw [htrace, Fintype.sum_bool, add_comm]
  rfl

/-- The weight of outcome `o` when qubit `t` is measured in `Z`. -/
noncomputable def weight (ρ : DM) (t : ℕ) (o : Bool) : ℝ :=
  ‖(ρ.branch t o).rho.trace‖

theorem weight_nonneg (ρ : DM) (t : ℕ) (o : Bool) : 0 ≤ ρ.weight t o :=
  norm_nonneg _

theorem trace_branch {ρ : DM} {t : ℕ} (ht : t < ρ.n) (hρ : ρ.rho.PosSemidef)
    (o : Bool) : (ρ.branch t o).rho.trace = ρ.weight t o :=
  Complex.eq_coe_norm_of_nonneg (posSemidef_branch ht hρ o).trace_nonneg

/-- `measure` in the basis of `gt.Z` on a valid density matrix. -/
theorem measure_ok {ρ : DM} {t : ℕ} (ht : t < ρ.n) (hρ : ρ.Valid)
    (draw : Bool) :
    ∃ res s, ρ.measure Qpp.gtZ t draw = .ok (res, s) ∧
      0 < ρ.weight t res ∧ (res = draw ∨ ρ.weight t draw = 0) ∧
      s.n = ρ.n - 1 ∧ s.Valid ∧
      ∀ z, s.eval z =
        (1 / (ρ.weight t res : ℝ) : ℂ) * ρ.eval (insertLeg t (res, res) z) := by
  have hadd : ρ.weight t false + ρ.weight t true = 1 := by
    have h := trace_branch_add ht
    rw [hρ.trace, trace_branch ht hρ.posSemidef,
      trace_branch ht hρ.posSemidef] at h
    exact_mod_cast h
  let res := Qpp.discrete (ρ.weight t false) (ρ.weight t true) draw
  have hres : 0 < ρ.weight t res ∧ (res = draw ∨ ρ.weight t draw = 0) :=
    Qpp.discrete_spec (w := ρ.weight t) (ρ.weight_nonneg t) hadd draw
  refine ⟨res, (ρ.branch t res).scale (1 / (ρ.weight t res : ℝ)), ?_, hres.1,
    hres.2, rfl, { posSemidef := ?_, trace := ?_ }, fun z => ?_⟩
  · have hnz : ¬ (ρ.weight t false = 0 ∧ ρ.weight t true = 0) := by
      rintro ⟨h0, h1⟩
      rw [h0, h1] at hadd
      norm_num at hadd
    rw [measure, if_neg (by omega), if_neg (not_not.mpr ht)]
    exact if_neg hnz
  · have hnn : (0 : ℂ) ≤ 1 / (ρ.weight t res : ℝ) := by
      rw [← Complex.ofReal_one, ← Complex.ofReal_div]
      exact_mod_cast (one_div_pos.mpr hres.1).le
    exact (posSemidef_branch ht hρ.posSemidef res).smul hnn
  · have hne : (ρ.weight t res : ℂ) ≠ 0 := by exact_mod_cast hres.1.ne'
    rw [scale, Matrix.trace_smul, trace_branch ht hρ.posSemidef, smul_eq_mul,
      one_div_mul_cancel hne]
  · rw [eval_scale, eval_branch ht]

theorem apply_n {ρ ρ' : DM} {U : CMat} {target : List ℕ}
    (h : ρ.apply U target = .ok ρ') : ρ'.n = ρ.n := by
  obtain ⟨_, _, h⟩ := bind_eq_ok.mp h
  rw [← Except.ok.inj h]
  rfl

theorem measure_n {ρ s : DM} {V : CMat} {t : ℕ} {draw res : Bool}
    (h : ρ.measure V t draw = .ok (res, s)) : s.n = ρ.n - 1 := by
  unfold measure at h
  dsimp only at h
  -- every branch but the last one throws
  split_ifs at h <;>
    try (obtain ⟨_, hthrow, _⟩ := bind_eq_ok.mp h; cases hthrow)
  obtain ⟨-, rfl⟩ := Prod.mk.inj (Except.ok.inj h)
  rfl

end DM

/-! ## What the operations do -/

/-- The rotation reads qubit `t` in the basis. -/
theorem rotate_dm {ρ : DM} {t : ℕ} (ht : t < ρ.n) (hρ : ρ.Valid)
    (basis : Basis) :
    ∃ ρ', rotate DM.apply ρ t basis = .ok ρ' ∧ ρ'.n = ρ.n ∧ ρ'.Valid ∧
      ∀ o z, ρ'.eval (insertLeg t (o, o) z) =
        compress (eigenvector basis o) t ρ.eval z := by
  have hchecks : ∀ {U : CMat}, U.Unitary 1 →
      Qpp.applyChecks ρ.n U [t] = .ok () := fun hU =>
    Qpp.applyChecks_ok hU (by simp) (by simp) (by simpa using ht)
  have hvalid : ∀ {σ : DM} {U : CMat}, σ.n = ρ.n → σ.Valid → U.Unitary 1 →
      (σ.sandwich U [t]).Valid := fun hn hσ hU =>
    DM.valid_sandwich hσ hU (by simp) (by simpa [hn] using ht)
  have heval : ∀ {σ : DM} {U : CMat}, σ.n = ρ.n → ∀ c z,
      (σ.sandwich U [t]).eval (insertLeg t c z) = ∑ b : Bool × Bool,
        U.entry c.1.toNat b.1.toNat * starRingEnd ℂ (U.entry c.2.toNat b.2.toNat) *
          σ.eval (insertLeg t b z) := by
    intro σ U hn c z
    rw [DM.eval_sandwich (by simp) (by simpa [hn] using ht), Qpp.legs_one]
    simp only [List.length_singleton, actOn_one, insertLeg_self,
      update_insertLeg, conjBy, kernel_one]
    rfl
  cases basis with
  | Z =>
      refine ⟨ρ, rfl, rfl, hρ, fun o z => ?_⟩
      simp only [compress, outer, eigenvector, Fintype.sum_prod_type,
        Fintype.sum_bool]
      cases o <;> simp
  | X =>
      refine ⟨ρ.sandwich Qpp.gtH [t], ?_, rfl, hvalid rfl hρ unitary_gtH,
        fun o z => ?_⟩
      · rw [rotate, DM.apply, hchecks unitary_gtH]
        rfl
      · rw [heval rfl]
        refine sum_congr rfl fun b _ => ?_
        simp only [outer, eigenvector, entry_gtH, map_mul, conj_invSqrt2,
          conj_sgn, Bool.and_comm o]
  | Y =>
      refine ⟨(ρ.sandwich Qpp.gtS.adjoint [t]).sandwich Qpp.gtH [t], ?_, rfl,
        hvalid rfl (hvalid rfl hρ unitary_gtS_adjoint) unitary_gtH,
        fun o z => ?_⟩
      · rw [rotate, DM.apply, hchecks unitary_gtS_adjoint]
        simp only [ok_bind, pure_eq_ok, DM.apply]
        exact congrArg (· >>= _) (hchecks unitary_gtH)
      · rw [heval (σ := ρ.sandwich Qpp.gtS.adjoint [t]) rfl]
        simp only [heval (σ := ρ) rfl, compress, Fintype.sum_prod_type,
          Fintype.sum_bool, entry_gtH, entry_gtS_adjoint, outer, eigenvector]
        cases o <;> simp [sgn, conj_invSqrt2] <;>
          linear_combination invSqrt2 ^ 2 *
            ρ.eval (insertLeg t (true, true) z) * Complex.I_sq

/-- The probability of outcome `o` when qubit `t` is measured in `basis`. -/
noncomputable def DM.prob (ρ : DM) (t : ℕ) (basis : Basis) (o : Bool) : ℂ :=
  NamedTensor.trace (ρ.n - 1) (compress (eigenvector basis o) t ρ.eval)

namespace QStateDM

theorem ofDM_ok {ρ : DM} (hρ : ρ.Valid) : ofDM ρ = .ok ρ := by
  have hherm : ρ.rhoᴴ = ρ.rho := hρ.posSemidef.isHermitian
  have hzero : DM.frobenius2 (ρ.rho - ρ.rhoᴴ) = 0 := by
    simp [DM.frobenius2, hherm]
  have hnn : ∀ A : Matrix (Fin ρ.n → Bool) (Fin ρ.n → Bool) ℂ,
      0 ≤ DM.frobenius2 A := fun A =>
    sum_nonneg fun x _ => sum_nonneg fun y _ => sq_nonneg _
  have happrox : DM.frobenius2 (ρ.rho - ρ.rhoᴴ) ≤ 1e-12 ^ 2 *
      min (DM.frobenius2 ρ.rho) (DM.frobenius2 ρ.rhoᴴ) := by
    rw [hzero]
    exact mul_nonneg (by norm_num) (le_min (hnn _) (hnn _))
  have hsym : ((1 / 2 : ℂ) • (ρ.rho + ρ.rhoᴴ)).PosSemidef := by
    rw [hherm, ← two_smul ℂ ρ.rho, smul_smul]
    norm_num
    exact hρ.posSemidef
  have heig : ¬ ∃ i, ρ.isHermitian_symmetrized.eigenvalues i < -1e-12 := by
    rintro ⟨i, hi⟩
    have := hsym.eigenvalues_nonneg i
    linarith
  rw [ofDM, validateDensityMatrix, hρ.trace, if_neg (not_not.mpr happrox),
    Complex.one_im, if_neg (by norm_num), Complex.one_re,
    if_neg (by norm_num), if_neg heig]
  rfl

theorem of_ofDM {ρ ρ' : DM} (h : ofDM ρ = .ok ρ') : ρ' = ρ := by
  obtain ⟨_, _, hk⟩ := bind_eq_ok.mp h
  exact (Except.ok.inj hk).symm

theorem init_ok {n : ℕ} (hn : n ≠ 0) :
    ∃ ρ, init n = .ok ρ ∧ ρ.n = n ∧ ρ.Valid := by
  obtain ⟨ψ, hψ, hψn, hψnorm, _⟩ := QStateKet.init_ok hn
  refine ⟨DM.prj ψ, ?_, hψn, DM.valid_prj hψnorm⟩
  have hmket : Ket.mket (List.replicate n false) = .ok ψ := hψ
  rw [init, hmket, ok_bind]
  exact ofDM_ok (DM.valid_prj hψnorm)

/-- A unitary gate on distinct qubits. -/
theorem apply_ok {ρ : DM} {g : QGate} {U : CMat} {targets : List ℕ}
    (hρ : ρ.Valid) (hg : g.matrix = .ok U) (hU : U.Unitary targets.length)
    (hne : targets ≠ []) (hd : targets.Nodup) (hlt : ∀ t ∈ targets, t < ρ.n) :
    ∃ ρ', apply ρ g targets = .ok ρ' ∧ ρ'.n = ρ.n ∧ ρ'.Valid ∧
      ρ'.eval = actOn (conjBy (U.kernel targets.length)) (Qpp.legs targets)
        ρ.eval := by
  have hdim : ¬ (U.rows ≠ 2 ^ targets.length ∨ U.cols ≠ 2 ^ targets.length) := by
    simp only [hU.rows, hU.cols, ne_eq, not_true_eq_false, or_self,
      not_false_eq_true]
  refine ⟨ρ.sandwich U targets, ?_, rfl, DM.valid_sandwich hρ hU hd hlt,
    DM.eval_sandwich hd hlt⟩
  simp only [apply, hg, ok_bind, if_neg hdim, DM.apply,
    Qpp.applyChecks_ok hU hne hd hlt]
  rfl

/-- Whatever the gate, a call that returns has applied its matrix. -/
theorem of_apply {ρ ρ' : DM} {g : QGate} {targets : List ℕ}
    (h : apply ρ g targets = .ok ρ') :
    ∃ U, g.matrix = .ok U ∧ targets.Nodup ∧ (∀ t ∈ targets, t < ρ.n) ∧
      ρ'.n = ρ.n ∧
      ρ'.eval = actOn (conjBy (U.kernel targets.length)) (Qpp.legs targets)
        ρ.eval := by
  obtain ⟨U, hU, h⟩ := bind_eq_ok.mp h
  dsimp only at h
  split_ifs at h with hdim
  · obtain ⟨_, habort, _⟩ := bind_eq_ok.mp h
    cases habort
  obtain ⟨_, hchecks, h⟩ := bind_eq_ok.mp h
  obtain ⟨hd, hlt⟩ := Qpp.of_applyChecks hchecks
  obtain rfl := Except.ok.inj h
  exact ⟨U, hU, hd, hlt, rfl, DM.eval_sandwich hd hlt⟩

theorem mergeDisjoint_ok {ρ σ : DM} (hρ : ρ.Valid) (hσ : σ.Valid) :
    mergeDisjoint ρ σ = .ok (ρ.kron σ) ∧ (ρ.kron σ).Valid :=
  ⟨ofDM_ok (DM.valid_kron hρ hσ), DM.valid_kron hρ hσ⟩

/-- `Measure` on a valid density matrix. -/
theorem measure_ok {ρ : DM} {t : ℕ} (ht : t < ρ.n) (hρ : ρ.Valid)
    (basis : Basis) (draw : Bool) :
    ∃ r ρ', measure ρ t basis draw = (.ok r, ρ') ∧ ρ'.n = ρ.n ∧
      ρ.prob t basis r.outcome ≠ 0 ∧
      (r.outcome = draw ∨ ρ.prob t basis draw = 0) ∧
      r.measured.n = 1 ∧ r.measured.Valid ∧
      (∀ z, r.measured.eval z = outer (fun b =>
        starRingEnd ℂ (measuredVector basis r.outcome b)) (z 0)) ∧
      r.survivors.n = ρ.n - 1 ∧ r.survivors.Valid ∧
      ∀ z, r.survivors.eval z = (1 / ρ.prob t basis r.outcome) *
        compress (eigenvector basis r.outcome) t ρ.eval z := by
  obtain ⟨ρ₁, hrot, hn₁, hvalid₁, heval₁⟩ := rotate_dm ht hρ basis
  have ht₁ : t < ρ₁.n := hn₁ ▸ ht
  have hprob : ∀ o, (ρ₁.weight t o : ℂ) = ρ.prob t basis o := by
    intro o
    have hbranch : (ρ₁.branch t o).eval =
        compress (eigenvector basis o) t ρ.eval := by
      funext z
      rw [DM.eval_branch ht₁, heval₁]
    have hbn : (ρ₁.branch t o).n = ρ.n - 1 := congrArg (· - 1) hn₁
    rw [← DM.trace_branch ht₁ hvalid₁.posSemidef, ← DM.trace_eval, hbranch, hbn,
      DM.prob]
  obtain ⟨res, s, hmeas, hpos, hdraw, hsn, hsvalid, hseval⟩ :=
    DM.measure_ok ht₁ hvalid₁ draw
  obtain ⟨m, hm, hmn, hmnorm, hmeval⟩ := measuredKet_ok basis res
  refine ⟨⟨res, DM.prj m, s⟩, ρ₁, ?_, hn₁, ?_, ?_, hmn, DM.valid_prj hmnorm,
    fun z => ?_, hsn.trans (by rw [hn₁]), hsvalid, fun z => ?_⟩
  · rw [measure, if_neg (by omega), hrot]
    simp only [hmeas, ok_bind, hm, ofDM_ok (DM.valid_prj hmnorm),
      ofDM_ok hsvalid, pure_eq_ok]
  · rw [← hprob]
    exact_mod_cast hpos.ne'
  · rw [← hprob]
    exact_mod_cast hdraw
  · rw [DM.eval_prj, density, hmeval, hmeval, outer, Complex.conj_conj]
    rfl
  · rw [hseval, heval₁, hprob]

/-! ### Numbers of qubits -/

theorem init_n {n : ℕ} {rho : DM} (h : init n = .ok rho) : rho.n = n := by
  obtain ⟨psi, hpsi, h⟩ := bind_eq_ok.mp h
  rw [of_ofDM h]
  exact QStateKet.init_n hpsi

theorem measure_n (st : DM) (t : ℕ) (basis : Basis) (draw : Bool) :
    (measure st t basis draw).2.n = st.n ∧
      ∀ r, (measure st t basis draw).1 = .ok r →
        r.measured.n = 1 ∧ r.survivors.n = st.n - 1 := by
  unfold measure
  split_ifs with ht
  · exact ⟨rfl, fun r hr => nomatch hr⟩
  · cases hrot : rotate DM.apply st t basis with
    | error e => exact ⟨rfl, fun r hr => nomatch hr⟩
    | ok rotated =>
        have hn := rotate_keeps DM.n DM.apply_n hrot
        refine ⟨hn, fun r hr => ?_⟩
        obtain ⟨⟨res, s⟩, hmeas, hr⟩ := bind_eq_ok.mp hr
        obtain ⟨oneQ, hone, hr⟩ := bind_eq_ok.mp hr
        obtain ⟨m, hm, hr⟩ := bind_eq_ok.mp hr
        obtain ⟨s', hs', hr⟩ := bind_eq_ok.mp hr
        obtain rfl := Except.ok.inj hr
        refine ⟨?_, ?_⟩
        · rw [of_ofDM hm]
          exact measuredKet_n hone
        · rw [of_ofDM hs', DM.measure_n hmeas, hn]

end QStateDM

end Q2NS
