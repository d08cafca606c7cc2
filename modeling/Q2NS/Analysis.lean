import Q2NS.Lib.PureStates
import Q2NS.Lib.Reduced
import Q2NS.Machine.Refinement
import Mathlib.Analysis.SpecialFunctions.Log.Base

/-!
# Purity and entropy of state objects

The analysis functions over exact numbers.  Gates and measurements of a program keep the
joint state of all qubits a vector up to a scale, and a tensor product is one only if
every factor is: so the state object of every qubit is pure in every run, on the density
matrix backend as well, although that backend could hold a mixture.
-/

namespace Q2NS

open NamedTensor QuadForm Finset Matrix Loop PureStates
open scoped ComplexOrder

/-! ## Code -/

/-- `AffineState::to_ket`; `maxQubits` is `MAX_QUBITS_STATE_VECTOR`. -/
noncomputable def AffineState.toKet (maxQubits : ℕ) (s : AffineState) : Except Exit Ket :=
  if s.n > maxQubits then
    .error (.thrown ("Maximum number of qubits for state vector representation is " ++
      toString maxQubits))
  else
    .ok ⟨s.n, fun y => (∑ X ∈ (range s.r).powerset,
      if s.Hits (pad y) X then omega8 ^ ((2 * quad s.Q.entry X + s.phase) % 8) else 0) /
        Real.sqrt (2 ^ s.r : ℕ)⟩

namespace Analysis

/-- `ToDensityMatrix`. -/
noncomputable def toDensityMatrix (maxQubits : ℕ) : QState → Except Exit DM
  | .ket psi => .ok (DM.prj psi)
  | .dm rho => .ok rho
  | .stab st => DM.prj <$> st.psi.toKet maxQubits

/-- `ClampToInterval`. -/
noncomputable def clampToInterval (x lo hi tol : ℝ) : ℝ :=
  if x < lo ∧ x > lo - tol then lo else if x > hi ∧ x < hi + tol then hi else x

/-- `Purity`. -/
noncomputable def purity (maxQubits : ℕ) (s : QState) : Except Exit ℝ :=
  if s.numQubits = 0 then .error (.thrown "Purity: empty states are not supported")
  else do
    let rho ← toDensityMatrix maxQubits s
    let tr := (rho.rho * rho.rho).trace
    return clampToInterval tr.re 0 1 1e-10

/-- `IsPure`. -/
noncomputable def isPure (maxQubits : ℕ) (s : QState) (tol : ℝ) : Except Exit Bool :=
  if tol < 0 then .error (.thrown "IsPure: tolerance must be non-negative")
  else do
    let p ← purity maxQubits s
    return decide (|p - 1| ≤ tol)

/-- The loop of `VonNeumannEntropy` over the eigenvalues. -/
noncomputable def entropyOf {n : ℕ} (evals : (Fin n → Bool) → ℝ) : Except Exit ℝ :=
  if ∃ i, evals i < 0 ∧ ¬ evals i > -1e-12 then
    .error (.thrown "VonNeumannEntropy: density matrix is not positive semidefinite")
  else
    let entropy := ∑ i, if evals i > 1e-15 then -(evals i * Real.logb 2.0 (evals i)) else 0
    .ok (if entropy < 0 ∧ entropy > -1e-10 then 0 else entropy)

/-- `VonNeumannEntropy`. -/
noncomputable def vonNeumannEntropy (maxQubits : ℕ) (s : QState) : Except Exit ℝ :=
  if s.numQubits = 0 then
    .error (.thrown "VonNeumannEntropy: empty states are not supported")
  else do
    let rho ← toDensityMatrix maxQubits s
    entropyOf rho.isHermitian_symmetrized.eigenvalues

end Analysis

/-! ## The density matrix of a state object -/

theorem inv_sqrt_two_pow (r : ℕ) : ((Real.sqrt (2 ^ r : ℕ) : ℝ) : ℂ)⁻¹ = invSqrt2 ^ r := by
  have hsqrt : Real.sqrt (2 ^ r : ℕ) = Real.sqrt 2 ^ r := by
    rw [Real.sqrt_eq_iff_mul_self_eq_of_pos (by positivity), ← mul_pow,
      Real.mul_self_sqrt zero_le_two]
    push_cast
    rfl
  rw [hsqrt, invSqrt2, Complex.ofReal_pow, inv_pow]

theorem AffineState.toKet_ok {s : AffineState} {maxQubits : ℕ} (hn : s.n ≤ maxQubits) :
    ∃ psi, s.toKet maxQubits = .ok psi ∧ psi.n = s.n ∧ psi.eval = s.den := by
  refine ⟨_, if_neg (not_lt.mpr hn), rfl, funext fun y => ?_⟩
  have hpad : s.den (pad fun i : Fin s.n => y i) = s.den y :=
    s.den_congr fun i hi => pad_restrict y hi
  have hterm : ∀ X : Finset ℕ, (if s.Hits (pad fun i : Fin s.n => y i) X then
      omega8 ^ ((2 * quad s.Q.entry X + s.phase) % 8) else 0) =
        omega8 ^ s.phase * (Complex.I ^ quad s.Q.entry X *
          if s.Hits (pad fun i : Fin s.n => y i) X then 1 else 0) := by
    intro X
    rw [omega8_pow_mod, pow_add, pow_mul, omega8_sq]
    split_ifs <;> ring
  rw [← hpad, den, expansion, mul_assoc, mul_sum, ← sum_congr rfl fun X _ => hterm X,
    ← inv_sqrt_two_pow, mul_comm, ← div_eq_mul_inv]
  rfl

theorem toDensityMatrix_ok {maxQubits : ℕ} {s : QState} (h : s.WellFormed)
    (hn : s.backend = .Stab → s.numQubits ≤ maxQubits) :
    ∃ rho, Analysis.toDensityMatrix maxQubits s = .ok rho ∧ rho.Valid ∧
      rho.n = s.numQubits ∧ rho.eval = s.kernel := by
  cases s with
  | ket psi => exact ⟨_, rfl, DM.valid_prj h, rfl, rfl⟩
  | dm rho => exact ⟨rho, rfl, h, rfl, rfl⟩
  | stab st =>
      obtain ⟨psi, hok, hpn, heval⟩ := AffineState.toKet_ok (h.n.trans_le (hn rfl))
      have hnorm : psi.norm2 = 1 := by
        have hsum : ∀ n, n = st.numQubits →
            ∑ x : Fin n → Bool, ‖st.eval (pad x)‖ ^ 2 = 1 := by
          rintro _ rfl
          exact Stab.RepInv.norm_eval h
        have hinner := psi.norm2_eq_inner
        rw [inner_self, heval] at hinner
        exact (Complex.ofReal_injective hinner).trans (hsum psi.n (hpn.trans h.n))
      refine ⟨DM.prj psi, map_eq_ok.mpr ⟨psi, hok, rfl⟩, DM.valid_prj hnorm, hpn.trans h.n, ?_⟩
      rw [DM.eval_prj, heval]
      rfl

/-! ## Matrices of rank one -/

/-- A tensor over rows and columns without two-by-two minors. -/
def RankOne {ι β : Type} (F : (ι → β × β) → ℂ) : Prop :=
  ∀ x y x' y' : ι → β, F (fun i => (x i, y i)) * F (fun i => (x' i, y' i)) =
    F (fun i => (x i, y' i)) * F fun i => (x' i, y i)

theorem DM.Valid.isPure {rho : DM} (h : rho.Valid) (hrank : RankOne rho.eval) :
    IsPure rho.rho := by
  refine ⟨h.posSemidef, h.trace, fun x y x' y' => ?_⟩
  simp only [DM.rho_eq_eval]
  exact hrank _ _ _ _

namespace Analysis

/-- What the functions return for a state without minors. -/
theorem pure_ok {maxQubits : ℕ} {s : QState} (h : s.WellFormed) (hrank : RankOne s.kernel)
    (hne : s.numQubits ≠ 0) (hn : s.backend = .Stab → s.numQubits ≤ maxQubits) :
    purity maxQubits s = .ok 1 ∧ vonNeumannEntropy maxQubits s = .ok 0 ∧
      ∀ tol ≥ 0, isPure maxQubits s tol = .ok true := by
  obtain ⟨rho, hok, hvalid, -, heval⟩ := toDensityMatrix_ok h hn
  have hproj := (hvalid.isPure (heval ▸ hrank)).mul_self
  have hpurity : purity maxQubits s = .ok 1 := by
    rw [purity, if_neg hne, hok, ok_bind]
    dsimp only
    rw [hproj, hvalid.trace, Complex.one_re, clampToInterval, if_neg (by norm_num),
      if_neg (by norm_num)]
    rfl
  refine ⟨hpurity, ?_, fun tol htol => ?_⟩
  · have hsymm : (0.5 : ℂ) • (rho.rho + rho.rhoᴴ) = rho.rho := by
      rw [hvalid.posSemidef.isHermitian.eq]
      module
    have hproj' : (0.5 : ℂ) • (rho.rho + rho.rhoᴴ) * (0.5 : ℂ) • (rho.rho + rho.rhoᴴ) =
        ((1 : ℝ) : ℂ) • (0.5 : ℂ) • (rho.rho + rho.rhoᴴ) := by
      rw [hsymm, hproj, Complex.ofReal_one, one_smul]
    have heigen := eigenvalue_of_scaled rho.isHermitian_symmetrized hproj'
    have hterm : ∀ i, (if rho.isHermitian_symmetrized.eigenvalues i > 1e-15 then
        -(rho.isHermitian_symmetrized.eigenvalues i *
          Real.logb 2.0 (rho.isHermitian_symmetrized.eigenvalues i)) else 0) = 0 := by
      intro i
      rcases heigen i with h0 | h1
      · rw [h0, zero_mul, neg_zero, ite_self]
      · rw [h1, Real.logb_one, mul_zero, neg_zero, ite_self]
    have hnone : ¬ ∃ i, rho.isHermitian_symmetrized.eigenvalues i < 0 ∧
        ¬ rho.isHermitian_symmetrized.eigenvalues i > -1e-12 := by
      rintro ⟨i, hi, -⟩
      rcases heigen i with h0 | h1
      · exact absurd hi h0.ge.not_gt
      · exact absurd hi (h1 ▸ zero_le_one).not_gt
    rw [vonNeumannEntropy, if_neg hne, hok, ok_bind, entropyOf, if_neg hnone,
      sum_congr rfl fun i _ => hterm i, sum_const_zero]
    simp
  · rw [isPure, if_neg (not_lt.mpr htol), hpurity, ok_bind, sub_self, abs_zero,
      decide_eq_true htol]
    rfl

end Analysis

/-! ## Runs -/

/-- The joint state is a vector, up to a scale. -/
def GlobalState.IsVector (G : GlobalState) : Prop :=
  ∃ (c : ℂ) (Φ : (QubitPtr → Bool) → ℂ), G.tensor = fun z => c * density Φ z

namespace GlobalState

variable {G : GlobalState}

/-- One more factor that is a vector. -/
theorem IsVector.mul {c : ℂ} {Φ Ψ : (QubitPtr → Bool) → ℂ} {F : (QubitPtr → Bool × Bool) → ℂ}
    (hF : F = fun z => c * density Φ z) :
    (fun z => F z * density Ψ z) = fun z => c * density (fun x => Φ x * Ψ x) z := by
  funext z
  rw [hF, mul_assoc, ← density_mul]

theorem IsVector.gate (h : G.IsVector) (node : NodeId) (g : QGate) (qs : List QubitPtr) :
    (G.apply node g qs).2.IsVector := by
  obtain ⟨c, Φ, hΦ⟩ := h
  rw [apply]
  split_ifs
  · exact ⟨c, Φ, hΦ⟩
  · split
    · exact ⟨c, Φ, hΦ⟩
    · next U _ =>
        refine ⟨c, actOn (U.kernel qs.length) qs.get Φ, ?_⟩
        rw [← actOn_density, hΦ]
        exact actOn_smul c (density Φ)

theorem IsVector.measure (h : G.IsVector) (b : QStateBackend) (node : NodeId) (q : QubitPtr)
    (basis : Basis) (draw : Bool) : (G.measure b node q basis draw).2.IsVector := by
  obtain ⟨c, Φ, hΦ⟩ := h
  rw [GlobalState.measure]
  split_ifs with hlocal
  swap
  · exact ⟨c, Φ, hΦ⟩
  · set o := QStateRegistry.drawn (G.prob q basis) draw
    refine ⟨1 / G.prob q basis o * c, fun x => QState.measuredAmplitude b basis o (x q) *
      contract (fun v => starRingEnd ℂ (eigenvector basis o v)) q Φ x, ?_⟩
    funext z
    have hcontract : contract (outer (eigenvector basis o)) q G.tensor z =
        c * contract (outer (eigenvector basis o)) q (density Φ) z := by
      simp only [hΦ, contract, mul_sum]
      exact sum_congr rfl fun v _ => by ring
    rw [density_mul, ← contract_density]
    refine (congrArg (fun x => QStateRegistry.measuredTensor b basis o q z *
      (1 / G.prob q basis o * x)) hcontract).trans ?_
    rw [QStateRegistry.measuredTensor]
    ring

/-- Every operation of the machine keeps it. -/
theorem IsVector.call (h : G.IsVector) (b : QStateBackend) (op : QStateRegistry.Op) :
    (G.call b op).2.IsVector := by
  have hmove : ∀ q loc, (G.moveUnlessLost q loc).IsVector := by
    intro q loc
    rw [moveUnlessLost]
    split_ifs <;> exact h
  cases op with
  | newState value => exact h
  | setDefaultBackend b => exact h
  | createQubit node =>
      obtain ⟨c, Φ, hΦ⟩ := h
      exact ⟨c, _, IsVector.mul hΦ⟩
  | createQubitFrom node state => exact h
  | createBellPair node =>
      obtain ⟨c, Φ, hΦ⟩ := h
      exact ⟨c, _, IsVector.mul hΦ⟩
  | apply node g qs => exact h.gate node g qs
  | measure node q basis draw => exact h.measure b node q basis draw
  | measureBell node p q drawA drawB =>
      rw [GlobalState.call, measureBell]
      split_ifs
      · exact h
      · exact (((h.gate node _ _).gate node _ _).measure b node p .Z drawA).measure b node q
          .Z drawB
  | adoptQubit node q => exact hmove q _
  | setLocationNode q node => exact hmove q _
  | setLocationChannel q c => exact hmove q _
  | setLocationLost q =>
      rw [GlobalState.call]
      split_ifs <;> exact h

theorem IsVector.callAll (h : G.IsVector) (b : QStateBackend) (ops : List QStateRegistry.Op) :
    (G.callAll b ops).2.IsVector := by
  induction ops generalizing G with
  | nil => exact h
  | cons op ops ih => exact ih (h.call b op)

theorem IsVector.rankOne (h : G.IsVector) : RankOne G.tensor := by
  obtain ⟨c, Φ, hΦ⟩ := h
  have hentry : ∀ x y : QubitPtr → Bool,
      density Φ (fun i => (x i, y i)) = Φ x * starRingEnd ℂ (Φ y) := fun _ _ => rfl
  intro x y x' y'
  simp only [hΦ, hentry]
  ring

end GlobalState

namespace QStateRegistry

variable {w : QStateRegistry} {b : QStateBackend}

/-- If the joint state has no minors, neither has the state of any group. -/
theorem Inv.rankOne_kernel (h : w.Inv) (hall : w.AllSound b)
    (hrank : RankOne (globalOf QState.kernel w)) {s : StateId} (hs : w.states s ≠ none) :
    RankOne (w.valueOf s).kernel := by
  -- an entry of the joint state that is not zero
  obtain ⟨z₀, hz₀⟩ : ∃ z, globalOf QState.kernel w z ≠ 0 := by
    by_contra hnone
    have hzero : globalOf QState.kernel w = fun z => 0 * globalOf QState.kernel w z :=
      funext fun z => (not_not.mp (not_exists.mp hnone z)).trans (zero_mul _).symm
    have htrace := h.traceAll_globalOf fun s p hp => (hall s p hp).1
    rw [hzero, traceAll_const_mul] at htrace
    exact zero_ne_one ((zero_mul _).symm.trans (congrFun htrace fun _ => default))
  -- the legs of the group, with the other handles as in `z₀`
  let glue : (ℕ → Bool) → (ℕ → Bool) → QubitPtr → Bool × Bool := fun x y q =>
    (if q ∈ w.order s then x ((w.order s).idxOf q) else (z₀ q).1,
      if q ∈ w.order s then y ((w.order s).idxOf q) else (z₀ q).2)
  have hreg : s ∈ w.registered := h.mem_registered.mpr hs
  have hother : ∀ x y, ∏ s' ∈ w.registered.erase s, factorOf QState.kernel w s' (glue x y) =
      ∏ s' ∈ w.registered.erase s, factorOf QState.kernel w s' z₀ := by
    intro x y
    refine prod_congr rfl fun s' hs' => ?_
    obtain ⟨hne, hs'⟩ := mem_erase.mp hs'
    rw [h.factorOf_eq QState.kernel (h.mem_registered.mp hs')]
    refine congrArg _ (named_congr fun q hq => ?_)
    have hq' : q ∉ w.order s := fun hmem => hne
      ((h.mem_qubitsOf_iff.mp (mem_sortByIndex.mp hq)).2.symm.trans
        (h.mem_qubitsOf_iff.mp (mem_sortByIndex.mp hmem)).2)
    exact Prod.ext (if_neg hq') (if_neg hq')
  have hself : ∀ x y, factorOf QState.kernel w s (glue x y) =
      (w.valueOf s).kernel fun i => (x i, y i) := by
    intro x y
    rw [h.factorOf_eq QState.kernel hs]
    refine QState.kernel_dependsOn (hall.valueOf hs).1 fun i hi => ?_
    have hlt : i < (w.order s).length := (h.length_order hs).symm ▸ hi
    have hmem := List.getElem_mem hlt
    have hidx : (w.order s).idxOf (w.order s)[i] = i := (h.nodup_order s).idxOf_getElem i hlt
    rw [named_of_lt hlt]
    exact Prod.ext ((if_pos hmem).trans (congrArg x hidx))
      ((if_pos hmem).trans (congrArg y hidx))
  have hglobal : ∀ z, globalOf QState.kernel w z = factorOf QState.kernel w s z *
      ∏ s' ∈ w.registered.erase s, factorOf QState.kernel w s' z := fun z =>
    (mul_prod_erase _ _ hreg).symm
  have hrest : ∏ s' ∈ w.registered.erase s, factorOf QState.kernel w s' z₀ ≠ 0 := by
    rw [hglobal] at hz₀
    exact right_ne_zero_of_mul hz₀
  -- the minors of the group are minors of the joint state
  intro x y x' y'
  have hminor := hrank (fun q => (glue x y q).1) (fun q => (glue x y q).2)
    (fun q => (glue x' y' q).1) fun q => (glue x' y' q).2
  have hentry : ∀ x y, globalOf QState.kernel w (glue x y) =
      (w.valueOf s).kernel (fun i => (x i, y i)) *
        ∏ s' ∈ w.registered.erase s, factorOf QState.kernel w s' z₀ := fun x y => by
    rw [hglobal, hself, hother]
  have hminor' : globalOf QState.kernel w (glue x y) * globalOf QState.kernel w (glue x' y') =
      globalOf QState.kernel w (glue x y') * globalOf QState.kernel w (glue x' y) := hminor
  simp only [hentry] at hminor'
  refine mul_right_cancel₀ (mul_ne_zero hrest hrest) ?_
  calc _ = _ := mul_mul_mul_comm _ _ _ _ |>.symm
    _ = _ := hminor'
    _ = _ := mul_mul_mul_comm _ _ _ _

/-- The state object of a qubit that a run has made. -/
theorem runs_rankOne {b : QStateBackend} {ops : List Op} (hops : ∀ op ∈ ops, op.Plain b)
    {rs : List Reply} {w : QStateRegistry}
    (hw : callAll ops (empty.setDefaultBackend b) = (.ok rs, w)) {q : QubitPtr}
    (hq : q < w.numHandles) :
    (w.valueOf (w.qubits q).stateId).WellFormed ∧
      (w.valueOf (w.qubits q).stateId).backend = b ∧
      RankOne (w.valueOf (w.qubits q).stateId).kernel ∧
      (w.valueOf (w.qubits q).stateId).numQubits ≠ 0 := by
  obtain ⟨w', hok, h⟩ := (represents_empty b).callAll hops
  obtain rfl := (Prod.mk.inj (hw.symm.trans hok)).2
  have hempty : GlobalState.empty.IsVector := ⟨1, fun _ => 1, funext fun z => by
    simp [GlobalState.empty, density]⟩
  have hs := h.inv.states_of_handle hq
  obtain ⟨hwf, hback⟩ := h.all.valueOf hs
  exact ⟨hwf, hback, h.inv.rankOne_kernel h.all
    (h.tensor ▸ (hempty.callAll b ops).rankOne) hs,
    Nat.ne_of_gt (Nat.zero_lt_of_lt (h.inv.index_lt hq))⟩

/-- In every run on every backend the state object of every qubit is pure: `Purity` returns
one, `VonNeumannEntropy` zero, and `IsPure` holds at every tolerance from zero on.  The
numbers are exact; what rounding leaves of them is not part of the model. -/
theorem runs_stay_pure {b : QStateBackend} {ops : List Op} (hops : ∀ op ∈ ops, op.Plain b)
    {rs : List Reply} {w : QStateRegistry}
    (hw : callAll ops (empty.setDefaultBackend b) = (.ok rs, w)) {q : QubitPtr}
    (hq : q < w.numHandles) {maxQubits : ℕ}
    (hmax : b = .Stab → (w.valueOf (w.qubits q).stateId).numQubits ≤ maxQubits) :
    Analysis.purity maxQubits (w.valueOf (w.qubits q).stateId) = .ok 1 ∧
      Analysis.vonNeumannEntropy maxQubits (w.valueOf (w.qubits q).stateId) = .ok 0 ∧
      ∀ tol ≥ 0, Analysis.isPure maxQubits (w.valueOf (w.qubits q).stateId) tol = .ok true := by
  obtain ⟨hwf, hback, hrank, hne⟩ := runs_rankOne hops hw hq
  exact Analysis.pure_ok hwf hrank hne fun hstab => hmax (hback.symm.trans hstab)

theorem runs_stay_pure_pair : ∃ rs w,
    callAll [.createBellPair 0] (empty.setDefaultBackend .DM) = (.ok rs, w) ∧
      (Analysis.purity 0 (w.valueOf (w.qubits 1).stateId) = .ok 1 ∧
        Analysis.vonNeumannEntropy 0 (w.valueOf (w.qubits 1).stateId) = .ok 0 ∧
        ∀ tol ≥ 0, Analysis.isPure 0 (w.valueOf (w.qubits 1).stateId) tol = .ok true) := by
  have hplain : ∀ op ∈ [Op.createBellPair 0], op.Plain .DM := by
    simp only [List.forall_mem_singleton]
    trivial
  obtain ⟨w, hok, h⟩ := (represents_empty .DM).callAll hplain
  exact ⟨_, w, hok, runs_stay_pure hplain hok (h.handles.symm ▸ Nat.one_lt_two)
    QStateBackend.noConfusion⟩

end QStateRegistry

end Q2NS
