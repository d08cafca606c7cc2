import Q2NS.Analysis

/-!
# Fidelity and trace distance

Each backend has its own way to `Fidelity`: the overlap of two vectors, the expansion of
two affine states, or roots of density matrices.  For the state objects that runs lead to
they all return the trace of the product of the two density matrices, and
`TraceDistance` is the root of what this is short of one.
-/

namespace Q2NS

open NamedTensor QuadForm Finset Matrix Loop PureStates
open scoped ComplexOrder

/-! ## Code -/

/-- The entries of a matrix as one on `n` qubits. -/
def DM.onLegs (sigma : DM) (n : ℕ) : Matrix (Fin n → Bool) (Fin n → Bool) ℂ := fun x y =>
  sigma.eval fun i => (pad x i, pad y i)

namespace Analysis

section Matrices

variable {n : ℕ}

/-- `HermitianSqrtPSD`; matrices are square by construction. -/
noncomputable def hermitianSqrtPSD (A : Matrix (Fin n → Bool) (Fin n → Bool) ℂ)
    (negEigTol : ℝ) : Except Exit (Matrix (Fin n → Bool) (Fin n → Bool) ℂ) :=
  let hH := DM.isHermitian_symmetrized ⟨n, A⟩
  if ∃ i, hH.eigenvalues i < 0 ∧ ¬ hH.eigenvalues i > -negEigTol then
    .error (.thrown "HermitianSqrtPSD: matrix is not positive semidefinite")
  else .ok (spectral hH fun e => Real.sqrt (if e < 0 then 0 else e))

/-- `HermitianTraceNorm`. -/
noncomputable def hermitianTraceNorm (A : Matrix (Fin n → Bool) (Fin n → Bool) ℂ) : ℝ :=
  ∑ i, |(DM.isHermitian_symmetrized ⟨n, A⟩).eigenvalues i|

end Matrices

/-- `UhlmannFidelity`. -/
noncomputable def uhlmannFidelity (rho sigma : DM) (negEigTol : ℝ) : Except Exit ℝ :=
  if rho.n ≠ sigma.n then .error (.thrown "UhlmannFidelity: dimension mismatch")
  else do
    let sqrtRho ← hermitianSqrtPSD rho.rho negEigTol
    let X := sqrtRho * sigma.onLegs rho.n * sqrtRho
    let sqrtX ← hermitianSqrtPSD X negEigTol
    let f := sqrtX.trace.re * sqrtX.trace.re
    let f := if f < 0 ∧ f > -1e-10 then 0 else f
    return if f > 1 ∧ f < 1 + 1e-10 then 1 else f

/-- `psi.adjoint() * phi`. -/
noncomputable def amp (psi phi : Ket) : ℂ :=
  ∑ x, starRingEnd ℂ (psi.amp x) * phi.eval (pad x)

/-- `Fidelity`. -/
noncomputable def fidelity (maxQubits : ℕ) (a b : QState) : Except Exit ℝ :=
  if a.numQubits ≠ b.numQubits then
    .error (.thrown "Fidelity: states must have the same number of qubits")
  else if a.numQubits = 0 then
    .error (.thrown "Fidelity: empty states are not supported")
  else
    match a, b with
    | .ket psi, .ket phi => .ok (clampToInterval (Complex.normSq (amp psi phi)) 0 1 1e-10)
    | .dm rho, .dm sigma => uhlmannFidelity rho sigma 1e-12
    | .stab psiS, .stab phiS => do
        let psi ← psiS.psi.toKet maxQubits
        let phi ← phiS.psi.toKet maxQubits
        return clampToInterval (Complex.normSq (amp psi phi)) 0 1 1e-10
    | _, _ => .error (.thrown ("Fidelity: mixed backends are not supported. " ++
        "Supported pairs are Ket-Ket, DM-DM, and Stab-Stab."))

/-- `TraceDistance`. -/
noncomputable def traceDistance (maxQubits : ℕ) (a b : QState) : Except Exit ℝ :=
  if a.numQubits ≠ b.numQubits then
    .error (.thrown "TraceDistance: states must have the same number of qubits")
  else if a.numQubits = 0 then
    .error (.thrown "TraceDistance: empty states are not supported")
  else if a.backend ≠ b.backend then
    .error (.thrown ("TraceDistance: mixed backends are not supported. " ++
      "Supported pairs are Ket-Ket, DM-DM, and Stab-Stab."))
  else do
    let rho ← toDensityMatrix maxQubits a
    let sigma ← toDensityMatrix maxQubits b
    let d := 0.5 * hermitianTraceNorm (rho.rho - sigma.onLegs rho.n)
    return clampToInterval d 0 1 1e-10

/-! ## Pure state objects -/

section Matrices

variable {n : ℕ} {A B : Matrix (Fin n → Bool) (Fin n → Bool) ℂ}

theorem symmetrized_eq (hA : A.IsHermitian) : (0.5 : ℂ) • (A + Aᴴ) = A := by
  rw [hA.eq]
  module

theorem hermitianSqrtPSD_ok (hA : A.IsHermitian) (hpos : ∀ i, 0 ≤ hA.eigenvalues i)
    (negEigTol : ℝ) : hermitianSqrtPSD A negEigTol = .ok (spectral hA Real.sqrt) := by
  have hsame : ∀ {A' : Matrix (Fin n → Bool) (Fin n → Bool) ℂ} (hA' : A'.IsHermitian),
      A' = A → (if ∃ i, hA'.eigenvalues i < 0 ∧ ¬ hA'.eigenvalues i > -negEigTol then
        .error (.thrown "HermitianSqrtPSD: matrix is not positive semidefinite")
      else .ok (spectral hA' fun e => Real.sqrt (if e < 0 then 0 else e))) =
        (.ok (spectral hA Real.sqrt) : Except Exit _) := by
    rintro A' hA' rfl
    rw [if_neg fun ⟨i, hi, _⟩ => (hpos i).not_gt hi]
    exact congrArg _ (spectral_congr hA fun i => by rw [if_neg (hpos i).not_gt])
  exact hsame _ (symmetrized_eq hA)

theorem hermitianTraceNorm_eq (hA : A.IsHermitian) :
    hermitianTraceNorm A = ∑ i, |hA.eigenvalues i| := by
  have hsame : ∀ {A' : Matrix (Fin n → Bool) (Fin n → Bool) ℂ} (hA' : A'.IsHermitian),
      A' = A → ∑ i, |hA'.eigenvalues i| = ∑ i, |hA.eigenvalues i| := by
    rintro A' hA' rfl
    rfl
  exact hsame _ (symmetrized_eq hA)

/-- The two roots of `UhlmannFidelity`. -/
theorem sqrt_sandwich_ok (hA : IsPure A) (hB : IsPure B) (negEigTol : ℝ) :
    hermitianSqrtPSD A negEigTol = .ok A ∧
      ∃ root, hermitianSqrtPSD (A * B * A) negEigTol = .ok root ∧
        root.trace = (Real.sqrt (overlap A B) : ℂ) := by
  have hsquare : A * A = ((1 : ℝ) : ℂ) • A := by
    rw [hA.mul_self, Complex.ofReal_one, one_smul]
  have hroot := spectral_sqrt_of_scaled hA.posSemidef.isHermitian zero_le_one hsquare
  rw [Real.sqrt_one, Complex.ofReal_one, one_smul] at hroot
  have hpos := hB.posSemidef.mul_mul_conjTranspose_same A
  rw [hA.hermitian_eq] at hpos
  refine ⟨?_, _, hermitianSqrtPSD_ok hpos.isHermitian hpos.eigenvalues_nonneg negEigTol,
    hA.trace_sqrt_sandwich hB _⟩
  rw [hermitianSqrtPSD_ok hA.posSemidef.isHermitian hA.posSemidef.eigenvalues_nonneg, hroot]

end Matrices

theorem uhlmannFidelity_ok {rho sigma : DM} (hn : rho.n = sigma.n) (hA : IsPure rho.rho)
    (hB : IsPure (sigma.onLegs rho.n)) (negEigTol : ℝ) :
    uhlmannFidelity rho sigma negEigTol = .ok (overlap rho.rho (sigma.onLegs rho.n)) := by
  have h0 := hA.overlap_nonneg hB
  have h1 := hA.overlap_le_one hB
  obtain ⟨hfirst, root, hsecond, htrace⟩ := sqrt_sandwich_ok hA hB negEigTol
  rw [uhlmannFidelity, if_neg (not_not.mpr hn), hfirst, ok_bind]
  dsimp only
  rw [hsecond, ok_bind, htrace, Complex.ofReal_re, Real.mul_self_sqrt h0]
  simp only [if_neg fun h : overlap rho.rho (sigma.onLegs rho.n) < 0 ∧ _ => h0.not_gt h.1]
  exact congrArg Except.ok (if_neg fun h => h1.not_gt h.1)

theorem clampToInterval_eq {x : ℝ} (h0 : 0 ≤ x) (h1 : x ≤ 1) (tol : ℝ) :
    clampToInterval x 0 1 tol = x := by
  rw [clampToInterval, if_neg fun h => h0.not_gt h.1, if_neg fun h => h1.not_gt h.1]

end Analysis

/-- The density matrix of a state object, on `n` qubits. -/
noncomputable def QState.matrix (s : QState) (n : ℕ) :
    Matrix (Fin n → Bool) (Fin n → Bool) ℂ := fun x y =>
  s.kernel fun i => (pad x i, pad y i)

namespace QState

variable {a b : QState}

/-- A state object without minors. -/
theorem pure_matrix (h : a.WellFormed) (hrank : RankOne a.kernel) :
    IsPure (a.matrix a.numQubits) := by
  obtain ⟨rho, -, hvalid, hn, heval⟩ := toDensityMatrix_ok h
    (show a.backend = .Stab → a.numQubits ≤ a.numQubits from fun _ => le_rfl)
  have hmatrix : a.matrix rho.n = rho.rho := by
    ext x y
    rw [DM.rho_eq_eval, heval]
    rfl
  rw [← hn, hmatrix]
  exact hvalid.isPure (heval ▸ hrank)

/-- The tensor is decided by the matrix. -/
theorem kernel_eq_iff (ha : a.WellFormed) (hb : b.WellFormed)
    (hn : a.numQubits = b.numQubits) :
    a.matrix a.numQubits = b.matrix a.numQubits ↔ a.kernel = b.kernel := by
  constructor
  · intro h
    have hread : ∀ {s : QState}, s.WellFormed → s.numQubits = a.numQubits → ∀ z,
        s.kernel z = s.matrix a.numQubits (fun i => (z i).1) fun i => (z i).2 := by
      intro s hs hsn z
      refine kernel_dependsOn hs fun i hi => ?_
      have hi' : i < a.numQubits := hsn ▸ hi
      exact Prod.ext (pad_restrict (fun i => (z i).1) hi').symm
        (pad_restrict (fun i => (z i).2) hi').symm
    funext z
    rw [hread ha rfl, hread hb hn.symm, h]
  · intro h
    ext x y
    rw [matrix, matrix, h]

end QState

namespace Analysis

variable {maxQubits : ℕ} {a b : QState}

/-- The overlap of two vectors. -/
theorem normSq_amp {psi phi : Ket} (ha : a.kernel = density psi.eval)
    (hb : b.kernel = density phi.eval) :
    Complex.normSq (amp psi phi) = overlap (a.matrix psi.n) (b.matrix psi.n) := by
  have heval : ∀ x : Fin psi.n → Bool, psi.eval (pad x) = psi.amp x := fun x =>
    congrArg psi.amp (funext fun i => pad_val x i)
  have htrace : (a.matrix psi.n * b.matrix psi.n).trace =
      amp psi phi * starRingEnd ℂ (amp psi phi) := by
    rw [amp, map_sum, sum_mul_sum, sum_comm]
    refine sum_congr rfl fun x _ => ?_
    rw [diag_apply, mul_apply]
    refine sum_congr rfl fun y _ => ?_
    have hentry : ∀ (Φ : (ℕ → Bool) → ℂ) (x y : ℕ → Bool),
        density Φ (fun i => (x i, y i)) = Φ x * starRingEnd ℂ (Φ y) := fun _ _ _ => rfl
    rw [QState.matrix, QState.matrix, ha, hb, hentry, hentry, heval, heval, map_mul,
      Complex.conj_conj]
    ring
  rw [overlap, htrace, Complex.mul_conj, Complex.ofReal_re]

section Pair

variable (ha : a.WellFormed) (hb : b.WellFormed) (hra : RankOne a.kernel)
  (hrb : RankOne b.kernel) (hn : a.numQubits = b.numQubits) (hne : a.numQubits ≠ 0)
  (hback : a.backend = b.backend) (hmax : a.backend = .Stab → a.numQubits ≤ maxQubits)

include ha hb hra hrb hn hne hback hmax

theorem fidelity_ok :
    fidelity maxQubits a b = .ok (overlap (a.matrix a.numQubits) (b.matrix a.numQubits)) := by
  have hA := QState.pure_matrix ha hra
  have hB : IsPure (b.matrix a.numQubits) := hn ▸ QState.pure_matrix hb hrb
  have hclamp := clampToInterval_eq (hA.overlap_nonneg hB) (hA.overlap_le_one hB) 1e-10
  cases a with
  | ket psi =>
      cases b with
      | ket phi =>
          have hamp : Complex.normSq (amp psi phi) =
              overlap ((QState.ket psi).matrix psi.n) ((QState.ket phi).matrix psi.n) :=
            normSq_amp rfl rfl
          rw [fidelity, if_neg (not_not.mpr hn), if_neg hne, hamp]
          exact congrArg Except.ok hclamp
      | dm sigma => cases hback
      | stab t => cases hback
  | dm rho =>
      cases b with
      | ket phi => cases hback
      | dm sigma =>
          have hmatrix : rho.rho = (QState.dm rho).matrix rho.n := by
            ext x y
            exact rho.rho_eq_eval x y
          rw [fidelity, if_neg (not_not.mpr hn), if_neg hne,
            uhlmannFidelity_ok hn (hmatrix ▸ hA) hB, hmatrix]
          rfl
      | stab t => cases hback
  | stab st =>
      cases b with
      | ket phi => cases hback
      | dm sigma => cases hback
      | stab st' =>
          obtain ⟨psi, hok, hpn, heval⟩ := AffineState.toKet_ok (ha.n.trans_le (hmax rfl))
          obtain ⟨phi, hok', -, heval'⟩ :=
            AffineState.toKet_ok (hb.n.trans_le (hn.symm.trans_le (hmax rfl)))
          have hlegs : psi.n = (QState.stab st).numQubits := hpn.trans ha.n
          have hka : (QState.stab st).kernel = density psi.eval := by
            rw [heval]
            rfl
          have hkb : (QState.stab st').kernel = density phi.eval := by
            rw [heval']
            rfl
          rw [fidelity, if_neg (not_not.mpr hn), if_neg hne, hok, ok_bind, hok', ok_bind,
            normSq_amp hka hkb, hlegs, hclamp]
          rfl

theorem traceDistance_ok :
    traceDistance maxQubits a b =
      .ok (Real.sqrt (1 - overlap (a.matrix a.numQubits) (b.matrix a.numQubits))) := by
  have hA := QState.pure_matrix ha hra
  have hB : IsPure (b.matrix a.numQubits) := hn ▸ QState.pure_matrix hb hrb
  have h0 := hA.overlap_nonneg hB
  obtain ⟨rho, hok, -, hrn, heval⟩ := toDensityMatrix_ok ha hmax
  obtain ⟨sigma, hok', -, -, heval'⟩ := toDensityMatrix_ok hb
    fun hstab => hn.symm.trans_le (hmax (hback.trans hstab))
  have hnorm : hermitianTraceNorm (rho.rho - sigma.onLegs rho.n) =
      2 * Real.sqrt (1 - overlap (a.matrix a.numQubits) (b.matrix a.numQubits)) := by
    have hmatrix : rho.rho = a.matrix rho.n := by
      ext x y
      rw [DM.rho_eq_eval, heval]
      rfl
    have hlegs : sigma.onLegs rho.n = b.matrix rho.n := by
      ext x y
      rw [DM.onLegs, heval']
      rfl
    rw [hmatrix, hlegs, hrn, hermitianTraceNorm_eq (hA.isHermitian_sub hB),
      hA.sum_abs_eigenvalues hB]
  have hhalf : (0.5 : ℝ) * (2 * Real.sqrt (1 - overlap (a.matrix a.numQubits)
      (b.matrix a.numQubits))) =
        Real.sqrt (1 - overlap (a.matrix a.numQubits) (b.matrix a.numQubits)) := by ring
  rw [traceDistance, if_neg (not_not.mpr hn), if_neg hne, if_neg (not_not.mpr hback), hok,
    ok_bind, hok', ok_bind]
  dsimp only
  rw [hnorm, hhalf, clampToInterval_eq (Real.sqrt_nonneg _)
    (Real.sqrt_le_one.mpr (sub_le_self 1 h0))]
  rfl

end Pair

end Analysis

/-! ## Runs -/

namespace QStateRegistry

variable {b : QStateBackend} {ops ops' : List Op} {rs rs' : List Reply}
  {w w' : QStateRegistry} {q q' : QubitPtr} {maxQubits : ℕ}

/-- `X` on a fresh qubit gives another state. -/
theorem flipped_kernel_ne {st : Stab}
    (hst : QStateStab.apply (QStateStab.init 1) (.builtin .X) [0] = .ok st) :
    (QState.stab (QStateStab.init 1)).kernel ≠ (QState.stab st).kernel := by
  obtain ⟨U, st', hU, hok, -, -, heval⟩ := QStateStab.apply_ok (QStateStab.init_repInv 1)
    (g := .builtin .X) (t := [0]) (by decide) rfl (by decide) (by decide)
  obtain rfl := Except.ok.inj (hst.symm.trans hok)
  obtain rfl := Except.ok.inj hU
  have hground : st.eval (fun _ => false) = 0 := by
    rw [heval, show Qpp.legs [0] = ![0] from get_one 0, actOn_one, Fintype.sum_bool]
    simp [QStateStab.init_eval, matrixX, makeMatrix, kernel_one]
  intro h
  have hz := congrFun h fun _ => (false, false)
  have hzero : density st.eval (fun _ => (false, false)) = 0 :=
    mul_eq_zero_of_left hground _
  rw [QState.kernel, QState.kernel, hzero] at hz
  simp [density, QStateStab.init_eval, rowOf, colOf] at hz

/-- The state objects of two qubits, of one run or of two: on every backend `Fidelity`
returns the trace of the product of their density matrices, either way round, and
`TraceDistance` the root of what this is short of one; it is one only for equal states. -/
theorem runs_fidelity (hops : ∀ op ∈ ops, op.Plain b) (hops' : ∀ op ∈ ops', op.Plain b)
    (hw : callAll ops (empty.setDefaultBackend b) = (.ok rs, w))
    (hw' : callAll ops' (empty.setDefaultBackend b) = (.ok rs', w')) (hq : q < w.numHandles)
    (hq' : q' < w'.numHandles) {s s' : QState}
    (hs : w.valueOf (w.qubits q).stateId = s) (hs' : w'.valueOf (w'.qubits q').stateId = s')
    (hn : s.numQubits = s'.numQubits) (hmax : b = .Stab → s.numQubits ≤ maxQubits) :
    ∃ f, f = overlap (s.matrix s.numQubits) (s'.matrix s.numQubits) ∧ 0 ≤ f ∧ f ≤ 1 ∧
      Analysis.fidelity maxQubits s s' = .ok f ∧ Analysis.fidelity maxQubits s' s = .ok f ∧
      Analysis.traceDistance maxQubits s s' = .ok (Real.sqrt (1 - f)) ∧
      (f = 1 ↔ s.kernel = s'.kernel) := by
  obtain ⟨hwf, hback, hrank, hne⟩ := hs ▸ runs_rankOne hops hw hq
  obtain ⟨hwf', hback', hrank', hne'⟩ := hs' ▸ runs_rankOne hops' hw' hq'
  have hsame : s.backend = s'.backend := hback.trans hback'.symm
  have hmaxs : s.backend = .Stab → s.numQubits ≤ maxQubits := fun h =>
    hmax (hback.symm.trans h)
  have hA := QState.pure_matrix hwf hrank
  have hB : IsPure (s'.matrix s.numQubits) := hn ▸ QState.pure_matrix hwf' hrank'
  refine ⟨_, rfl, hA.overlap_nonneg hB, hA.overlap_le_one hB,
    Analysis.fidelity_ok hwf hwf' hrank hrank' hn hne hsame hmaxs, ?_,
    Analysis.traceDistance_ok hwf hwf' hrank hrank' hn hne hsame hmaxs,
    (hA.eq_iff_overlap hB).trans (QState.kernel_eq_iff hwf hwf' hn)⟩
  rw [overlap_comm, Analysis.fidelity_ok hwf' hwf hrank' hrank hn.symm hne' hsame.symm
    fun h => hn.symm.trans_le (hmaxs (hsame.trans h)), hn]

/-- A fresh qubit, and one that has been flipped. -/
theorem runs_fidelity_pair : ∃ rs w rs' w' s s',
    callAll [.createQubit 0] (empty.setDefaultBackend .Stab) = (.ok rs, w) ∧
      callAll [.createQubit 0, .apply 0 (.builtin .X) [0]]
        (empty.setDefaultBackend .Stab) = (.ok rs', w') ∧
      w.valueOf (w.qubits 0).stateId = s ∧ w'.valueOf (w'.qubits 0).stateId = s' ∧
      ∃ f, f = overlap (s.matrix s.numQubits) (s'.matrix s.numQubits) ∧ 0 ≤ f ∧ f < 1 ∧
        Analysis.fidelity 1 s s' = .ok f ∧ Analysis.fidelity 1 s' s = .ok f ∧
        Analysis.traceDistance 1 s s' = .ok (Real.sqrt (1 - f)) := by
  have hplain : ∀ op ∈ [Op.createQubit 0, .apply 0 (.builtin .X) [0]], op.Plain .Stab := by
    simp only [List.forall_mem_cons]
    exact ⟨trivial, ⟨List.nodup_singleton 0, QState.accepts_builtin .Stab (by decide)⟩,
      List.forall_mem_nil _⟩
  have hfirst : ∀ op ∈ [Op.createQubit 0], op.Plain .Stab := fun op hop =>
    hplain op (List.mem_of_mem_head? (List.mem_singleton.mp hop ▸ rfl))
  obtain ⟨st, hst⟩ : ∃ st, QStateStab.apply (QStateStab.init 1) (.builtin .X) [0] =
      .ok st := ⟨_, rfl⟩
  have hone : st.numQubits = 1 := by
    cases hst
    rfl
  let w := ((empty.setDefaultBackend .Stab).createQubit 0).2
  let w' := w.setValue 0 (.stab st)
  have hok : callAll [.createQubit 0] (empty.setDefaultBackend .Stab) =
      (.ok [.handle (some 0)], w) := rfl
  have hgate : w.apply 0 (.builtin .X) [0] = (.ok true, w') :=
    apply_single Nat.one_pos rfl rfl (map_eq_ok.mpr ⟨st, hst, rfl⟩)
  have hok' : callAll [.createQubit 0, .apply 0 (.builtin .X) [0]]
      (empty.setDefaultBackend .Stab) = (.ok [.handle (some 0), .applied true], w') := by
    have hcall : w.call (.apply 0 (.builtin .X) [0]) = (.ok (.applied true), w') := by
      rw [call, hgate]
      rfl
    show andThen (andThen (w.call (.apply 0 (.builtin .X) [0])) _) _ = _
    rw [hcall]
    rfl
  have hs : w.valueOf (w.qubits 0).stateId = .stab (QStateStab.init 1) := rfl
  have hs' : w'.valueOf (w'.qubits 0).stateId = .stab st := rfl
  obtain ⟨f, hf, hnonneg, hle, hfid, hfid', hdist, hiff⟩ := runs_fidelity hfirst hplain
    hok hok' Nat.one_pos Nat.one_pos hs hs' hone.symm
    (show _ → (QState.stab (QStateStab.init 1)).numQubits ≤ 1 from fun _ => le_rfl)
  exact ⟨_, w, _, w', _, _, hok, hok', hs, hs', f, hf, hnonneg,
    lt_of_le_of_ne hle fun h => flipped_kernel_ne hst (hiff.mp h), hfid, hfid', hdist⟩

end QStateRegistry

end Q2NS
