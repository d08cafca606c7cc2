import Mathlib.Analysis.Matrix.PosDef
import Q2NS.Gate
import Q2NS.Lib.Density
import Q2NS.Lib.Loop

/-!
# The quantum library

The parts of `qpp` that the ket and density-matrix backends call, for
subsystems of dimension two and with exact arithmetic.  A vector on `n` qubits
is indexed by bit strings, qubit 0 first; targets are positions in this order.
-/

namespace Q2NS

open NamedTensor Finset

/-- A state vector on `n` qubits. -/
structure Ket where
  n : ℕ
  amp : (Fin n → Bool) → ℂ

/-- A matrix on `n` qubits. -/
structure DM where
  n : ℕ
  rho : Matrix (Fin n → Bool) (Fin n → Bool) ℂ

namespace Qpp

/-- The gates `gt.H`, `gt.S` and `gt.Z`. -/
noncomputable def gtH : CMat := matrixH

noncomputable def gtS : CMat := matrixS

noncomputable def gtZ : CMat := matrixZ

/-- The exception checks of `apply`, in their order. -/
def applyChecks (n : ℕ) (U : CMat) (target : List ℕ) : Except Exit Unit :=
  if U.rows = 0 ∨ U.cols = 0 then .error (.thrown "ZeroSize")
  else if target = [] then .error (.thrown "ZeroSize")
  else if U.rows ≠ U.cols then .error (.thrown "MatrixNotSquare")
  else if n = 0 then .error (.thrown "DimsInvalid")
  else if ¬ (target.Nodup ∧ ∀ t ∈ target, t < n) then
    .error (.thrown "SubsysMismatchDims")
  else if U.rows ≠ 2 ^ target.length then
    .error (.thrown "MatrixMismatchSubsys")
  else .ok ()

/-- The listed subsystems as a family of legs. -/
def legs (target : List ℕ) : Fin target.length → ℕ := target.get

/-- The draw of `std::discrete_distribution` with two weights: a weight of zero
is never drawn. -/
noncomputable def discrete (p₀ p₁ : ℝ) (draw : Bool) : Bool :=
  if draw then !decide (p₁ = 0) else decide (p₀ = 0)

end Qpp

/-! ## State vectors -/

namespace Ket

/-- The amplitudes as a tensor with legs `0, …, n - 1`. -/
def eval (ψ : Ket) : (ℕ → Bool) → ℂ := onNat ψ.amp

/-- The squared norm. -/
noncomputable def norm2 (ψ : Ket) : ℝ := ∑ x, ‖ψ.amp x‖ ^ 2

/-- The vector that scales `ψ` by `z`. -/
noncomputable def scale (z : ℂ) (ψ : Ket) : Ket := ⟨ψ.n, fun x => z * ψ.amp x⟩

/-- `mket(mask)`. -/
def mket (mask : List Bool) : Except Exit Ket :=
  if mask = [] then .error (.thrown "ZeroSize")
  else .ok ⟨mask.length, fun x => if x = mask.get then 1 else 0⟩

/-- `kron(ψ, φ)`. -/
def kron (ψ φ : Ket) : Ket where
  n := ψ.n + φ.n
  amp := fun x => ψ.amp (fun i => x (Fin.castAdd φ.n i)) *
    φ.amp fun i => x (Fin.natAdd ψ.n i)

/-- `apply(ψ, U, target)`. -/
noncomputable def apply (ψ : Ket) (U : CMat) (target : List ℕ) :
    Except Exit Ket := do
  Qpp.applyChecks ψ.n U target
  return ⟨ψ.n, onFin ψ.n
    (actOn (U.kernel target.length) (Qpp.legs target) ψ.eval)⟩

/-- The inner product of column `i` of `V` with qubit `t` of `ψ`. -/
noncomputable def ip (ψ : Ket) (V : CMat) (i t : ℕ) : Ket where
  n := ψ.n - 1
  amp := fun x => ∑ b : Bool, starRingEnd ℂ (V.entry b.toNat i) *
    ψ.eval (insertLeg t b (pad x))

/-- `measure(ψ, V, {t})` for a `V` with two columns: the outcome and the
normalised state of the other qubits. -/
noncomputable def measure (ψ : Ket) (V : CMat) (t : ℕ) (draw : Bool) :
    Except Exit (Bool × Ket) := do
  if ψ.n = 0 then throw (.thrown "DimsInvalid")
  if ¬ t < ψ.n then throw (.thrown "SubsysMismatchDims")
  let out := fun b : Bool => ψ.ip V b.toNat t
  if (out false).norm2 = 0 ∧ (out true).norm2 = 0 then
    throw (.aborted "assertion failed")
  let res := Qpp.discrete (out false).norm2 (out true).norm2 draw
  return (res, (out res).scale (1 / (Real.sqrt (out res).norm2 : ℝ)))

end Ket

/-! ## Density matrices -/

namespace DM

/-- The entries as a tensor with a (row bit, column bit) pair on each leg. -/
def eval (ρ : DM) : (ℕ → Bool × Bool) → ℂ := fun z =>
  ρ.rho (fun i => (z i).1) fun i => (z i).2

/-- `prj(ψ)`. -/
def prj (ψ : Ket) : DM where
  n := ψ.n
  rho := fun x y => ψ.amp x * starRingEnd ℂ (ψ.amp y)

/-- `kron(ρ, σ)`. -/
def kron (ρ σ : DM) : DM where
  n := ρ.n + σ.n
  rho := fun x y =>
    ρ.rho (fun i => x (Fin.castAdd σ.n i)) (fun i => y (Fin.castAdd σ.n i)) *
      σ.rho (fun i => x (Fin.natAdd ρ.n i)) fun i => y (Fin.natAdd ρ.n i)

/-- `U ρ U†` on the listed subsystems. -/
noncomputable def sandwich (ρ : DM) (U : CMat) (target : List ℕ) : DM where
  n := ρ.n
  rho := fun x y =>
    ∑ u : Fin target.length → Bool, ∑ v : Fin target.length → Bool,
      U.kernel target.length (pad x ∘ Qpp.legs target) u *
        ρ.rho (fun i => patch (Qpp.legs target) u (pad x) i)
          (fun i => patch (Qpp.legs target) v (pad y) i) *
        starRingEnd ℂ
          (U.kernel target.length (pad y ∘ Qpp.legs target) v)

/-- `apply(ρ, U, target)`. -/
noncomputable def apply (ρ : DM) (U : CMat) (target : List ℕ) :
    Except Exit DM := do
  Qpp.applyChecks ρ.n U target
  return ρ.sandwich U target

/-- `ptrace(ρ, {t})`. -/
def ptrace (ρ : DM) (t : ℕ) : DM where
  n := ρ.n - 1
  rho := fun x y => ∑ b : Bool,
    ρ.rho (fun i => insertLeg t b (pad x) i) fun i => insertLeg t b (pad y) i

/-- The Kraus operator of column `i` of `V`. -/
noncomputable def kraus (V : CMat) (i : ℕ) : CMat where
  rows := V.rows
  cols := V.rows
  entry := fun a b => V.entry a i * starRingEnd ℂ (V.entry b i)

/-- The matrix that scales `ρ` by `z`. -/
noncomputable def scale (z : ℂ) (ρ : DM) : DM := ⟨ρ.n, z • ρ.rho⟩

/-- `measure(ρ, V, {t}, dims)` for a `V` with two columns. -/
noncomputable def measure (ρ : DM) (V : CMat) (t : ℕ) (draw : Bool) :
    Except Exit (Bool × DM) := do
  if ρ.n = 0 then throw (.thrown "DimsInvalid")
  if ¬ t < ρ.n then throw (.thrown "SubsysMismatchDims")
  let out := fun b : Bool => (ρ.sandwich (kraus V b.toNat) [t]).ptrace t
  let prob := fun b : Bool => ‖(out b).rho.trace‖
  if prob false = 0 ∧ prob true = 0 then throw (.aborted "assertion failed")
  let res := Qpp.discrete (prob false) (prob true) draw
  return (res, (out res).scale (1 / (prob res : ℝ)))

end DM

end Q2NS
