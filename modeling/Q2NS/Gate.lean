import Q2NS.Lib.NamedTensor
import Q2NS.Lib.QuadForm
import Q2NS.Types

/-!
# Gates

`QGate` with the matrices of the built-in kinds.  A matrix carries its size;
the row and column indices of a gate on `k` qubits are bit strings of length
`k`, the first listed qubit being the most significant bit.
-/

namespace Q2NS

open NamedTensor

/-- A complex matrix with its size. -/
structure CMat where
  rows : ℕ
  cols : ℕ
  entry : ℕ → ℕ → ℂ

/-- `MakeMatrix`. -/
def makeMatrix (rows : List (List ℂ)) : CMat where
  rows := rows.length
  cols := (rows.headD []).length
  entry := fun i j => (rows.getD i []).getD j 0

/-- The index of a bit string, first bit most significant. -/
def bitIndex {k : ℕ} (w : Fin k → Bool) : ℕ :=
  (List.ofFn w).foldl (fun acc b => 2 * acc + b.toNat) 0

/-- A matrix on `k` qubits, its indices read as bit strings. -/
def CMat.kernel (U : CMat) (k : ℕ) (v w : Fin k → Bool) : ℂ :=
  U.entry (bitIndex v) (bitIndex w)

/-- `adjoint(U)`. -/
noncomputable def CMat.adjoint (U : CMat) : CMat where
  rows := U.cols
  cols := U.rows
  entry := fun i j => starRingEnd ℂ (U.entry j i)

/-! ## Built-in matrices -/

def matrixI : CMat := makeMatrix [[1, 0], [0, 1]]

def matrixX : CMat := makeMatrix [[0, 1], [1, 0]]

noncomputable def matrixY : CMat :=
  makeMatrix [[0, -Complex.I], [Complex.I, 0]]

def matrixZ : CMat := makeMatrix [[1, 0], [0, -1]]

noncomputable def matrixH : CMat :=
  let s := QuadForm.invSqrt2
  makeMatrix [[s, s], [s, -s]]

noncomputable def matrixS : CMat := makeMatrix [[1, 0], [0, Complex.I]]

noncomputable def matrixSDG : CMat := makeMatrix [[1, 0], [0, -Complex.I]]

def matrixCNOT : CMat :=
  makeMatrix [[1, 0, 0, 0], [0, 1, 0, 0], [0, 0, 0, 1], [0, 0, 1, 0]]

def matrixCZ : CMat :=
  makeMatrix [[1, 0, 0, 0], [0, 1, 0, 0], [0, 0, 1, 0], [0, 0, 0, -1]]

def matrixSWAP : CMat :=
  makeMatrix [[1, 0, 0, 0], [0, 0, 1, 0], [0, 1, 0, 0], [0, 0, 0, 1]]

/-- `MatrixOf`; there is no built-in matrix for `Custom`. -/
noncomputable def matrixOf : QGateKind → Except Exit CMat
  | .I => .ok matrixI
  | .X => .ok matrixX
  | .Y => .ok matrixY
  | .Z => .ok matrixZ
  | .H => .ok matrixH
  | .S => .ok matrixS
  | .SDG => .ok matrixSDG
  | .CNOT => .ok matrixCNOT
  | .CZ => .ok matrixCZ
  | .SWAP => .ok matrixSWAP
  | .Custom =>
      .error (.aborted "MatrixOf: custom gates do not have a built-in matrix")

/-- A gate: its kind and, for `Custom`, its matrix. -/
structure QGate where
  kind : QGateKind
  unitary? : Option CMat := none

namespace QGate

/-- A built-in gate. -/
def builtin (kind : QGateKind) : QGate := { kind := kind }

/-- `QGate::Custom`. -/
def custom (U : CMat) : QGate := { kind := .Custom, unitary? := some U }

/-- `QGate::Unitary`. -/
def unitary (g : QGate) : Except Exit CMat :=
  match g.unitary? with
  | some U => .ok U
  | none =>
      .error (.aborted "QGate::Unitary() called for a non-custom gate")

/-- The matrix that the ket and density-matrix backends apply. -/
noncomputable def matrix (g : QGate) : Except Exit CMat :=
  if g.kind = .Custom then g.unitary else matrixOf g.kind

end QGate

/-! ## Gates as unitaries -/

/-- `U` is a unitary on `k` qubits. -/
structure CMat.Unitary (U : CMat) (k : ℕ) : Prop where
  rows : U.rows = 2 ^ k
  cols : U.cols = 2 ^ k
  isometric : Isometric (U.kernel k)

/-- The gate has a unitary matrix on `k` qubits. -/
def QGate.Unitary (g : QGate) (k : ℕ) : Prop :=
  ∃ U, g.matrix = .ok U ∧ U.Unitary k

theorem bitIndex_one (w : Fin 1 → Bool) : bitIndex w = (w 0).toNat := by
  simp [bitIndex, List.ofFn_succ]

theorem bitIndex_two (w : Fin 2 → Bool) :
    bitIndex w = 2 * (w 0).toNat + (w 1).toNat := by
  simp [bitIndex, List.ofFn_succ]

theorem kernel_one (U : CMat) (v w : Fin 1 → Bool) :
    U.kernel 1 v w = U.entry (v 0).toNat (w 0).toNat := by
  rw [CMat.kernel, bitIndex_one, bitIndex_one]

theorem kernel_two (U : CMat) (v w : Fin 2 → Bool) :
    U.kernel 2 v w = U.entry (2 * (v 0).toNat + (v 1).toNat)
      (2 * (w 0).toNat + (w 1).toNat) := by
  rw [CMat.kernel, bitIndex_two, bitIndex_two]

theorem isometric_one {U : CMat}
    (h : ∀ a b : Bool, ∑ c : Bool, starRingEnd ℂ (U.entry c.toNat a.toNat) *
      U.entry c.toNat b.toNat = if a = b then 1 else 0) :
    Isometric (U.kernel 1) := by
  intro v w
  have hvw : v = w ↔ v 0 = w 0 := by
    rw [funext_iff, Fin.forall_fin_one]
  simp only [kernel_one, hvw]
  rw [← h, ← (Equiv.funUnique (Fin 1) Bool).sum_comp]
  rfl

theorem isometric_two {U : CMat}
    (h : ∀ a b c d : Bool, ∑ e : Bool, ∑ f : Bool,
      starRingEnd ℂ (U.entry (2 * e.toNat + f.toNat) (2 * a.toNat + b.toNat)) *
        U.entry (2 * e.toNat + f.toNat) (2 * c.toNat + d.toNat) =
      if a = c ∧ b = d then 1 else 0) :
    Isometric (U.kernel 2) := by
  intro v w
  have hvw : v = w ↔ v 0 = w 0 ∧ v 1 = w 1 := by
    rw [funext_iff, Fin.forall_fin_two]
  simp only [kernel_two, hvw]
  rw [← h, ← (finTwoArrowEquiv Bool).symm.sum_comp, Fintype.sum_prod_type]
  rfl

private theorem isometric_hadamard {s : ℂ} (hreal : starRingEnd ℂ s = s)
    (hs : s * s + s * s = 1) :
    Isometric ((makeMatrix [[s, s], [s, -s]]).kernel 1) := by
  refine isometric_one fun a b => ?_
  have hneg : starRingEnd ℂ (-s) = -s := by rw [map_neg, hreal]
  cases a <;> cases b <;>
    simp only [makeMatrix, Fintype.sum_bool, Bool.toNat_true, Bool.toNat_false,
      List.getD_cons_zero, List.getD_cons_succ, hreal, hneg, reduceCtorEq,
      if_true, if_false] <;>
    first | linear_combination hs | ring

private theorem isometric_matrixCNOT : Isometric (matrixCNOT.kernel 2) := by
  refine isometric_two fun a b c d => ?_
  cases a <;> cases b <;> cases c <;> cases d <;>
    simp [matrixCNOT, makeMatrix]

private theorem isometric_matrixCZ : Isometric (matrixCZ.kernel 2) := by
  refine isometric_two fun a b c d => ?_
  cases a <;> cases b <;> cases c <;> cases d <;>
    simp [matrixCZ, makeMatrix]

private theorem isometric_matrixSWAP : Isometric (matrixSWAP.kernel 2) := by
  refine isometric_two fun a b c d => ?_
  cases a <;> cases b <;> cases c <;> cases d <;>
    simp [matrixSWAP, makeMatrix]

/-- Every built-in gate is a unitary on as many qubits as its arity. -/
theorem QGate.builtin_unitary {kind : QGateKind} (hk : kind ≠ .Custom) :
    (QGate.builtin kind).Unitary kind.arity := by
  have hmat : ∀ {U : CMat} {n}, matrixOf kind = .ok U → U.Unitary n →
      (QGate.builtin kind).Unitary n := fun h hU =>
    ⟨_, (if_neg hk).trans h, hU⟩
  cases kind with
  | Custom => exact absurd rfl hk
  | I =>
      refine hmat rfl ⟨rfl, rfl, isometric_one fun a b => ?_⟩
      cases a <;> cases b <;> simp [matrixI, makeMatrix]
  | X =>
      refine hmat rfl ⟨rfl, rfl, isometric_one fun a b => ?_⟩
      cases a <;> cases b <;> simp [matrixX, makeMatrix]
  | Y =>
      refine hmat rfl ⟨rfl, rfl, isometric_one fun a b => ?_⟩
      cases a <;> cases b <;> simp [matrixY, makeMatrix]
  | Z =>
      refine hmat rfl ⟨rfl, rfl, isometric_one fun a b => ?_⟩
      cases a <;> cases b <;> simp [matrixZ, makeMatrix]
  | H =>
      refine hmat rfl ⟨rfl, rfl, isometric_hadamard QuadForm.conj_invSqrt2 ?_⟩
      rw [QuadForm.invSqrt2_mul_self, add_halves]
  | S =>
      refine hmat rfl ⟨rfl, rfl, isometric_one fun a b => ?_⟩
      cases a <;> cases b <;> simp [matrixS, makeMatrix]
  | SDG =>
      refine hmat rfl ⟨rfl, rfl, isometric_one fun a b => ?_⟩
      cases a <;> cases b <;> simp [matrixSDG, makeMatrix]
  | CNOT =>
      exact hmat rfl ⟨rfl, rfl, isometric_matrixCNOT⟩
  | CZ =>
      exact hmat rfl ⟨rfl, rfl, isometric_matrixCZ⟩
  | SWAP =>
      exact hmat rfl ⟨rfl, rfl, isometric_matrixSWAP⟩

theorem matrixOf_unitary {kind : QGateKind} {U : CMat}
    (hU : matrixOf kind = .ok U) : U.Unitary kind.arity := by
  have hk : kind ≠ .Custom := by
    rintro rfl
    cases hU
  obtain ⟨V, hV, hunit⟩ := QGate.builtin_unitary hk
  have hVU : (QGate.builtin kind).matrix = .ok U := (if_neg hk).trans hU
  rw [hVU] at hV
  exact Except.ok.inj hV ▸ hunit

end Q2NS
