import Q2NS.Qpp

/-!
# Measurement bases

The eigenvectors of the three bases, the result type of a measurement and the
steps that the ket and density-matrix backends share: the rotation that turns a
measurement in `basis` into one in `Z`, and the one-qubit vector that they
return for the measured qubit.
-/

namespace Q2NS

open NamedTensor QuadForm Loop

/-- `QState::MeasureResult`. -/
structure MeasureResult (σ : Type) where
  outcome : Bool
  measured : σ
  survivors : σ

/-- The eigenvector of `basis` for outcome `o`. -/
noncomputable def eigenvector (basis : Basis) (o b : Bool) : ℂ :=
  match basis with
  | .Z => if b = o then 1 else 0
  | .X => invSqrt2 * sgn (b && o)
  | .Y => if b then invSqrt2 * (Complex.I * sgn o) else invSqrt2

/-- The gates applied to `target` before the measurement in `Z`. -/
noncomputable def rotate {σ : Type}
    (apply : σ → CMat → List ℕ → Except Exit σ) (st : σ) (target : ℕ) :
    Basis → Except Exit σ
  | .Z => return st
  | .X => apply st Qpp.gtH [target]
  | .Y => do
      let st ← apply st Qpp.gtS.adjoint [target]
      apply st Qpp.gtH [target]

/-- The vector built for the measured qubit. -/
noncomputable def measuredKet (basis : Basis) (res : Bool) :
    Except Exit Ket := do
  let oneQubit ← Ket.mket [res]
  rotate Ket.apply oneQubit 0 basis

/-- The amplitudes of `measuredKet`: for `Y` the rotation into the `Z` basis is
applied once more instead of being undone. -/
noncomputable def measuredVector (basis : Basis) (o b : Bool) : ℂ :=
  match basis with
  | .Z => if b = o then 1 else 0
  | .X => invSqrt2 * sgn (b && o)
  | .Y => invSqrt2 * (if o then -Complex.I else 1) * sgn (b && o)

end Q2NS
