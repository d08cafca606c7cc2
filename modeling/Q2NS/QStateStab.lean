import Q2NS.KetAlgebra
import Q2NS.Stab.Norm

/-!
# The stabilizer backend

`QStateStab` and what its operations do to the affine state inside.
-/

namespace Q2NS

open NamedTensor QuadForm Loop Finset

/-- A `QStateStab` object. -/
structure Stab where
  numQubits : ℕ
  psi : AffineState

namespace QStateStab

/-- The state `|0…0⟩`. -/
def init (numQubits : ℕ) : Stab := ⟨numQubits, AffineState.init numQubits⟩

/-- The one-qubit gates. -/
def apply1 (psi : AffineState) (q : ℕ) : QGateKind → Except Exit AffineState
  | .I => return psi
  | .H => psi.H q
  | .S => psi.S q
  | .SDG => psi.SDG q
  | .X => psi.X q
  | .Y => psi.Y q
  | .Z => psi.Z q
  | _ => .error (.thrown "QStateStab supports only 1-qubit Clifford gates")

/-- The two-qubit gates. -/
def apply2 (psi : AffineState) (a b : ℕ) : QGateKind → Except Exit AffineState
  | .CNOT => psi.CX a b
  | .CZ => psi.CZ a b
  | .SWAP => psi.SWAP a b
  | _ => .error (.thrown "QStateStab supports only 2-qubit Clifford gates")

/-- `QStateStab::Apply`. -/
def apply (st : Stab) (g : QGate) (t : List ℕ) : Except Exit Stab :=
  if g.kind = .Custom then
    .error (.thrown "QStateStab does not support custom gates")
  else
    match t with
    | [q] => do return { st with psi := ← apply1 st.psi q g.kind }
    | [a, b] => do return { st with psi := ← apply2 st.psi a b g.kind }
    | _ =>
        .error (.thrown "QStateStab supports only 1-qubit and 2-qubit gates")

/-- `RotateIntoZBasis_`. -/
def rotateIntoZBasis (psi : AffineState) (j : ℕ) :
    Basis → Except Exit AffineState
  | .Z => return psi
  | .X => psi.H j
  | .Y => do
      let psi ← psi.SDG j
      psi.H j

/-- `Synth1QEigenstate_`. -/
def synth1QEigenstate (basis : Basis) (bit : Bool) : Except Exit Stab := do
  let st := init 1
  match basis with
  | .Z =>
      if bit then return { st with psi := ← st.psi.X 0 } else return st
  | .X =>
      let psi ← st.psi.H 0
      if bit then return { st with psi := ← psi.Z 0 }
      else return { st with psi := psi }
  | .Y =>
      let psi ← st.psi.H 0
      let psi ← psi.S 0
      if bit then return { st with psi := ← psi.Z 0 }
      else return { st with psi := psi }

/-- The loop of `RemoveQubit_` that swaps `target` to the end. -/
def swapToEnd (psi : AffineState) (target numQubits : ℕ) :
    Except Exit AffineState :=
  (List.range' target (numQubits - 1 - target)).foldlM
    (fun psi q => psi.SWAP q (q + 1)) psi

/-- `RemoveQubit_`. -/
def removeQubit (st : Stab) (target : ℕ) : Except Exit Stab :=
  if st.numQubits = 0 then
    .error (.thrown "QStateStab::RemoveQubit_: empty state")
  else if target ≥ st.numQubits then
    .error (.thrown "QStateStab::RemoveQubit_: target out of range")
  else do
    let psi ← swapToEnd st.psi target st.numQubits
    let psi ← psi.dropLastQubit
    return { psi := psi, numQubits := st.numQubits - 1 }

/-- The affine state once the rotation and `MeasureZ` are done. -/
def collapse (st : Stab) (target : ℕ) (basis : Basis) (draw : Bool) :
    Except Exit (Bool × AffineState) := do
  let psi ← rotateIntoZBasis st.psi target basis
  psi.measureZ target draw

/-- `QStateStab::Measure`: the result and the state object afterwards. -/
def measure (st : Stab) (target : ℕ) (basis : Basis) (draw : Bool) :
    Except Exit (MeasureResult Stab) × Stab :=
  if target ≥ st.numQubits then
    (.error (.thrown "QStateStab::Measure: target out of range"), st)
  else
    match collapse st target basis draw with
    | .error e => (.error e, st)
    | .ok (bit, psi) =>
        (do
          let survivors ← removeQubit { st with psi := psi } target
          let measured ← synth1QEigenstate basis bit
          return ⟨bit, measured, survivors⟩, { st with psi := psi })

/-- `QStateStab::MergeDisjoint` with another stabilizer state. -/
def mergeDisjoint (st other : Stab) : Except Exit Stab := do
  let mergedPsi ← st.psi.tensorProduct other.psi
  return { numQubits := st.numQubits + other.numQubits, psi := mergedPsi }

end QStateStab

/-! ## Built-in gates on amplitudes -/

section

variable (Φ : (ℕ → Bool) → ℂ)

theorem actOn_kernel_one (U : CMat) (q : ℕ) (y : ℕ → Bool) :
    actOn (U.kernel 1) ![q] Φ y =
      U.entry (y q).toNat 0 * Φ (Function.update y q false) +
        U.entry (y q).toNat 1 * Φ (Function.update y q true) := by
  rw [actOn_one, Fintype.sum_bool, add_comm, kernel_one, kernel_one]
  rfl

theorem actOn_kernel_two (U : CMat) {p q : ℕ} (hpq : p ≠ q) (y : ℕ → Bool) :
    actOn (U.kernel 2) ![p, q] Φ y = ∑ b : Bool, ∑ c : Bool,
      U.entry (2 * (y p).toNat + (y q).toNat) (2 * b.toNat + c.toNat) *
        Φ (Function.update (Function.update y p b) q c) := by
  rw [actOn_two _ hpq]
  refine sum_congr rfl fun b _ => sum_congr rfl fun c _ => ?_
  rw [kernel_two]
  rfl

/-- A diagonal one-qubit gate. -/
theorem actOn_diagonal {d e : ℂ} (q : ℕ) :
    actOn ((makeMatrix [[d, 0], [0, e]]).kernel 1) ![q] Φ =
      AffineState.phaseBy (fun y => if y q then e else d) Φ := by
  funext y
  have hself := Function.update_eq_self q y
  rw [actOn_kernel_one, AffineState.phaseBy]
  cases hq : y q <;> rw [hq] at hself <;> simp [makeMatrix, hself]

theorem actOn_matrixI (q : ℕ) : actOn (matrixI.kernel 1) ![q] Φ = Φ := by
  rw [matrixI, actOn_diagonal]
  funext y
  simp [AffineState.phaseBy]

theorem actOn_matrixX (q : ℕ) : actOn (matrixX.kernel 1) ![q] Φ =
    AffineState.permuteBy (AffineState.flipBit q) Φ := by
  funext y
  rw [actOn_kernel_one, AffineState.permuteBy, AffineState.flipBit]
  cases y q <;> simp [matrixX, makeMatrix]

theorem actOn_matrixY (q : ℕ) : actOn (matrixY.kernel 1) ![q] Φ =
    fun y => Complex.I * sgn (!y q) * Φ (AffineState.flipBit q y) := by
  funext y
  rw [actOn_kernel_one, AffineState.flipBit]
  cases y q <;> simp [matrixY, makeMatrix, sgn]

theorem actOn_matrixZ (q : ℕ) : actOn (matrixZ.kernel 1) ![q] Φ =
    AffineState.phaseBy (fun y => sgn (y q)) Φ :=
  actOn_diagonal Φ q

theorem actOn_matrixH (q : ℕ) : actOn (matrixH.kernel 1) ![q] Φ =
    AffineState.hadamard q Φ := by
  funext y
  rw [actOn_kernel_one, AffineState.hadamard]
  cases y q <;> simp [matrixH, makeMatrix, invSqrt2, sgn] <;> ring

theorem actOn_matrixS (q : ℕ) : actOn (matrixS.kernel 1) ![q] Φ =
    AffineState.phaseBy (fun y => AffineState.phaseGate false (y q)) Φ :=
  actOn_diagonal Φ q

theorem actOn_matrixSDG (q : ℕ) : actOn (matrixSDG.kernel 1) ![q] Φ =
    AffineState.phaseBy (fun y => AffineState.phaseGate true (y q)) Φ :=
  actOn_diagonal Φ q

theorem actOn_matrixCNOT {p q : ℕ} (hpq : p ≠ q) :
    actOn (matrixCNOT.kernel 2) ![p, q] Φ = AffineState.permuteBy
      (fun y => Function.update y q (y q ^^ y p)) Φ := by
  funext y
  have hself := Function.update_eq_self p y
  rw [actOn_kernel_two Φ _ hpq, AffineState.permuteBy]
  cases hp : y p <;> cases y q <;> rw [hp] at hself <;>
    simp [matrixCNOT, makeMatrix, hself]

theorem actOn_matrixCZ {p q : ℕ} (hpq : p ≠ q) :
    actOn (matrixCZ.kernel 2) ![p, q] Φ =
      AffineState.phaseBy (fun y => sgn (y p && y q)) Φ := by
  funext y
  have hp' := Function.update_eq_self p y
  have hq' := Function.update_eq_self q y
  rw [actOn_kernel_two Φ _ hpq, AffineState.phaseBy]
  cases hp : y p <;> cases hq : y q <;> rw [hp] at hp' <;> rw [hq] at hq' <;>
    simp [matrixCZ, makeMatrix, sgn, hp', hq']

theorem actOn_matrixSWAP {p q : ℕ} (hpq : p ≠ q) :
    actOn (matrixSWAP.kernel 2) ![p, q] Φ =
      AffineState.permuteBy (AffineState.swapBits p q) Φ := by
  funext y
  have hswap : AffineState.swapBits p q y =
      Function.update (Function.update y p (y q)) q (y p) := by
    funext i
    rw [AffineState.swapBits, Function.comp_apply, Equiv.swap_apply_def]
    by_cases hiq : i = q
    · subst hiq
      simp [hpq.symm]
    · by_cases hip : i = p
      · subst hip
        simp [hiq]
      · simp [hiq, hip]
  rw [actOn_kernel_two Φ _ hpq, AffineState.permuteBy, hswap]
  cases y p <;> cases y q <;> simp [matrixSWAP, makeMatrix]

end

/-! ## Well-formed states -/

/-- The affine state keeps its invariant and has as many qubits as the object
says. -/
structure Stab.RepInv (st : Stab) : Prop where
  psi : st.psi.RepInv
  n : st.psi.n = st.numQubits

/-- The amplitudes. -/
noncomputable def Stab.eval (st : Stab) : (ℕ → Bool) → ℂ := st.psi.den

theorem Stab.RepInv.eval_dependsOn {st : Stab} (h : st.RepInv) :
    DependsOn st.eval (Set.Iio st.numQubits) := fun _ _ hxy =>
  st.psi.den_congr fun i hi => hxy i (h.n ▸ hi)

/-- A stabilizer state is a unit vector. -/
theorem Stab.RepInv.norm_eval {st : Stab} (h : st.RepInv) :
    ∑ x : Fin st.numQubits → Bool, ‖st.eval (pad x)‖ ^ 2 = 1 := by
  rw [← h.n]
  exact h.psi.norm_den

/-- The probability of outcome `o` when qubit `t` is measured in `basis`. -/
noncomputable def Stab.prob (st : Stab) (t : ℕ) (basis : Basis) (o : Bool) : ℝ :=
  ∑ x : Fin (st.numQubits - 1) → Bool,
    ‖project (eigenvector basis o) t st.eval (pad x)‖ ^ 2

namespace QStateStab

open AffineState

theorem init_repInv (n : ℕ) : (init n).RepInv := by
  refine ⟨?_, rfl⟩
  refine
    { aRows := le_rfl
      aCols := le_rfl
      qRows := le_rfl
      qCols := le_rfl
      bSize := le_rfl
      pivLen := rfl
      rLe := Nat.zero_le _
      aBit := fun _ _ _ => two_pos
      aZero := fun _ _ _ _ => rfl
      bBit := fun _ _ => two_pos
      qSymm := fun _ _ => rfl
      qOff := fun _ _ _ => two_pos
      qDiag := fun _ => four_pos
      qZero := fun _ _ _ => rfl
      phaseLt := by norm_num [init, AffineState.init]
      pivots := fun c hc => absurd hc (Nat.not_lt_zero c) }

theorem init_eval (n : ℕ) (y : ℕ → Bool) :
    (init n).eval y = if ∀ i < n, y i = false then 1 else 0 := by
  have hhits : (init n).psi.Hits y ∅ ↔ ∀ i < n, y i = false := by
    refine forall₂_congr fun i _ => ?_
    have hrow : (init n).psi.rowVal ∅ i = 0 := rfl
    rw [hrow]
    cases y i <;> simp
  have hden : (init n).eval y =
      invSqrt2 ^ 0 * omega8 ^ 0 * expansion 0 (init n).psi.Q.entry
        (fun X => if (init n).psi.Hits y X then 1 else 0) := rfl
  rw [hden, expansion, range_zero, powerset_empty, sum_singleton, quad,
    sum_empty]
  simp only [pow_zero, one_mul, hhits]

/-- A call on the affine state inside the object. -/
private theorem repInv_of_acts {st : Stab} (h : st.RepInv) {psi' : AffineState}
    {T : ((ℕ → Bool) → ℂ) → (ℕ → Bool) → ℂ} (ha : Acts T st.psi psi') :
    Stab.RepInv { st with psi := psi' } :=
  ⟨ha.repInv, ha.n.trans h.n⟩

theorem apply1_ok {psi : AffineState} (h : psi.RepInv) {q : ℕ} (hq : q < psi.n)
    {kind : QGateKind} (hk : kind ≠ .Custom) (harity : kind.arity = 1) :
    ∃ U psi', matrixOf kind = .ok U ∧ apply1 psi q kind = .ok psi' ∧
      Acts (actOn (U.kernel 1) ![q]) psi psi' := by
  have hlift : ∀ {x : Except Exit AffineState}
      {T : ((ℕ → Bool) → ℂ) → (ℕ → Bool) → ℂ} {U : CMat},
      (∃ psi', x = .ok psi' ∧ Acts T psi psi') →
      actOn (U.kernel 1) ![q] psi.den = T psi.den →
      ∃ psi', x = .ok psi' ∧ Acts (actOn (U.kernel 1) ![q]) psi psi' := by
    rintro x T U ⟨psi', hok, ha⟩ hT
    exact ⟨psi', hok, ha.repInv, ha.n, ha.den.trans hT.symm⟩
  cases kind with
  | Custom => exact absurd rfl hk
  | CNOT => cases harity
  | CZ => cases harity
  | SWAP => cases harity
  | I => exact ⟨_, psi, rfl, rfl, h, rfl, (actOn_matrixI _ q).symm⟩
  | X =>
      obtain ⟨psi', hx⟩ := hlift (X_spec h hq) (actOn_matrixX _ q)
      exact ⟨_, psi', rfl, hx⟩
  | Y =>
      obtain ⟨psi', hx⟩ := hlift (Y_spec h hq) (actOn_matrixY _ q)
      exact ⟨_, psi', rfl, hx⟩
  | Z =>
      obtain ⟨psi', hx⟩ := hlift (Z_spec h hq) (actOn_matrixZ _ q)
      exact ⟨_, psi', rfl, hx⟩
  | H =>
      obtain ⟨psi', hx⟩ := hlift (H_spec h hq) (actOn_matrixH _ q)
      exact ⟨_, psi', rfl, hx⟩
  | S =>
      obtain ⟨psi', hx⟩ := hlift (sOrSdg_spec h hq false) (actOn_matrixS _ q)
      exact ⟨_, psi', rfl, hx⟩
  | SDG =>
      obtain ⟨psi', hx⟩ := hlift (sOrSdg_spec h hq true) (actOn_matrixSDG _ q)
      exact ⟨_, psi', rfl, hx⟩

theorem apply2_ok {psi : AffineState} (h : psi.RepInv) {a b : ℕ}
    (ha : a < psi.n) (hb : b < psi.n) (hab : a ≠ b) {kind : QGateKind}
    (harity : kind.arity = 2) :
    ∃ U psi', matrixOf kind = .ok U ∧ apply2 psi a b kind = .ok psi' ∧
      Acts (actOn (U.kernel 2) ![a, b]) psi psi' := by
  cases kind with
  | CNOT =>
      obtain ⟨psi', hok, hacts⟩ := CX_spec h ha hb hab
      exact ⟨_, psi', rfl, hok, hacts.repInv, hacts.n,
        hacts.den.trans (actOn_matrixCNOT _ hab).symm⟩
  | CZ =>
      obtain ⟨psi', hok, hacts⟩ := CZ_spec h ha hb
      exact ⟨_, psi', rfl, hok, hacts.repInv, hacts.n,
        hacts.den.trans (actOn_matrixCZ _ hab).symm⟩
  | SWAP =>
      obtain ⟨psi', hok, hacts⟩ := SWAP_spec h ha hb
      exact ⟨_, psi', rfl, hok, hacts.repInv, hacts.n,
        hacts.den.trans (actOn_matrixSWAP _ hab).symm⟩
  | Custom => cases harity
  | I => cases harity
  | X => cases harity
  | Y => cases harity
  | Z => cases harity
  | H => cases harity
  | S => cases harity
  | SDG => cases harity

/-- A built-in gate on as many distinct qubits as its arity. -/
theorem apply_ok {st : Stab} (h : st.RepInv) {g : QGate} {t : List ℕ}
    (hk : g.kind ≠ .Custom) (harity : g.kind.arity = t.length) (hd : t.Nodup)
    (hlt : ∀ q ∈ t, q < st.numQubits) :
    ∃ U st', matrixOf g.kind = .ok U ∧ apply st g t = .ok st' ∧ st'.RepInv ∧
      st'.numQubits = st.numQubits ∧
      st'.eval = actOn (U.kernel t.length) (Qpp.legs t) st.eval := by
  have hcases : g.kind.arity = 1 ∨ g.kind.arity = 2 := by
    cases g.kind <;> simp [QGateKind.arity]
  rw [← h.n] at hlt
  rcases hcases with h1 | h2
  · obtain ⟨q, rfl⟩ := List.length_eq_one_iff.mp (harity.symm.trans h1)
    obtain ⟨U, psi', hU, hok, ha⟩ := apply1_ok h.psi (hlt q (by simp)) hk h1
    refine ⟨U, { st with psi := psi' }, hU, ?_, repInv_of_acts h ha, rfl, ?_⟩
    · simp only [apply, if_neg hk, hok, ok_bind, pure_eq_ok]
    · rw [Qpp.legs_one]
      exact ha.den
  · obtain ⟨a, b, rfl⟩ := List.length_eq_two.mp (harity.symm.trans h2)
    have hab : a ≠ b := by simpa using hd
    obtain ⟨U, psi', hU, hok, ha⟩ := apply2_ok h.psi (hlt a (by simp))
      (hlt b (by simp)) hab h2
    refine ⟨U, { st with psi := psi' }, hU, ?_, repInv_of_acts h ha, rfl, ?_⟩
    · simp only [apply, if_neg hk, hok, ok_bind, pure_eq_ok]
    · rw [Qpp.legs_two]
      exact ha.den

theorem mergeDisjoint_ok {st other : Stab} (h : st.RepInv) (ho : other.RepInv) :
    ∃ st', mergeDisjoint st other = .ok st' ∧ st'.RepInv ∧
      st'.numQubits = st.numQubits + other.numQubits ∧
      ∀ y, st'.eval y = st.eval y * other.eval fun i => y (st.numQubits + i) := by
  obtain ⟨p, hok, hrep, hn, hden⟩ := tensorProduct_spec h.psi ho.psi
  refine ⟨⟨_, p⟩, by rw [mergeDisjoint, hok]; rfl, ⟨hrep, ?_⟩, rfl, fun y => ?_⟩
  · rw [hn, h.n, ho.n]
  · rw [Stab.eval, hden, h.n]
    rfl

/-! ## Measurement -/

/-- The rotation reads qubit `j` in the basis. -/
theorem rotateIntoZBasis_ok {psi : AffineState} (h : psi.RepInv) {j : ℕ}
    (hj : j < psi.n) (basis : Basis) :
    ∃ psi', rotateIntoZBasis psi j basis = .ok psi' ∧ psi'.RepInv ∧
      psi'.n = psi.n ∧ ∀ o y, psi'.den (insertLeg j o y) =
        project (eigenvector basis o) j psi.den y := by
  cases basis with
  | Z =>
      refine ⟨psi, rfl, h, rfl, fun o y => ?_⟩
      rw [project, Fintype.sum_bool]
      cases o <;> simp [eigenvector]
  | X =>
      obtain ⟨psi', hok, ha⟩ := H_spec h hj
      refine ⟨psi', hok, ha.repInv, ha.n, fun o y => ?_⟩
      rw [ha.den, hadamard, insertLeg_self, update_insertLeg, update_insertLeg,
        project, Fintype.sum_bool]
      cases o <;> simp [eigenvector, sgn, conj_invSqrt2] <;> ring
  | Y =>
      obtain ⟨s, hok, ha⟩ := sOrSdg_spec h hj true
      obtain ⟨psi', hok', ha'⟩ := H_spec ha.repInv (ha.n.symm ▸ hj)
      refine ⟨psi', ?_, ha'.repInv, ha'.n.trans ha.n, fun o y => ?_⟩
      · rw [rotateIntoZBasis, SDG, hok, ok_bind, hok']
      · rw [ha'.den, hadamard, ha.den, insertLeg_self, update_insertLeg,
          update_insertLeg, phaseBy, phaseBy, insertLeg_self, insertLeg_self,
          project, Fintype.sum_bool]
        cases o <;> simp [eigenvector, phaseGate, sgn, conj_invSqrt2] <;> ring

/-- The measured qubit is rebuilt as the eigenvector of its outcome. -/
theorem synth1QEigenstate_ok (basis : Basis) (bit : Bool) :
    ∃ st, synth1QEigenstate basis bit = .ok st ∧ st.RepInv ∧
      st.numQubits = 1 ∧ ∀ y, st.eval y = eigenvector basis bit (y 0) := by
  have h₀ := init_repInv 1
  have hden₀ : ∀ y, (init 1).psi.den y = if y 0 = false then 1 else 0 := by
    intro y
    have heval := init_eval 1 y
    simpa [Stab.eval] using heval
  have hlt : 0 < (init 1).psi.n := Nat.zero_lt_one
  obtain ⟨sh, hsh, hah⟩ := H_spec h₀.psi hlt
  have hlth : 0 < sh.n := hah.n.symm ▸ hlt
  cases basis with
  | Z =>
      cases bit with
      | false =>
          refine ⟨init 1, rfl, h₀, rfl, fun y => ?_⟩
          rw [Stab.eval, hden₀, eigenvector]
      | true =>
          obtain ⟨s, hs, ha⟩ := X_spec h₀.psi hlt
          refine ⟨{ init 1 with psi := s }, ?_, repInv_of_acts h₀ ha, rfl,
            fun y => ?_⟩
          · simp only [synth1QEigenstate, if_true, hs, ok_bind, pure_eq_ok]
          · rw [Stab.eval, ha.den, permuteBy, hden₀, flipBit,
              Function.update_self, eigenvector]
            cases y 0 <;> rfl
  | X =>
      cases bit with
      | false =>
          refine ⟨{ init 1 with psi := sh }, ?_, repInv_of_acts h₀ hah, rfl,
            fun y => ?_⟩
          · simp [synth1QEigenstate, hsh]
          · rw [Stab.eval, hah.den, hadamard, hden₀, hden₀]
            simp [eigenvector, sgn]
      | true =>
          obtain ⟨s, hs, ha⟩ := Z_spec hah.repInv hlth
          refine ⟨{ init 1 with psi := s }, ?_,
            ⟨ha.repInv, ha.n.trans hah.n⟩, rfl, fun y => ?_⟩
          · simp [synth1QEigenstate, hsh, hs]
          · rw [Stab.eval, ha.den, phaseBy, hah.den, hadamard, hden₀, hden₀]
            cases y 0 <;> simp [eigenvector, sgn]
  | Y =>
      obtain ⟨s, hs, ha⟩ := sOrSdg_spec hah.repInv hlth false
      cases bit with
      | false =>
          refine ⟨{ init 1 with psi := s }, ?_,
            ⟨ha.repInv, ha.n.trans hah.n⟩, rfl, fun y => ?_⟩
          · simp [synth1QEigenstate, hsh, S, hs]
          · rw [Stab.eval, ha.den, phaseBy, hah.den, hadamard, hden₀, hden₀]
            cases y 0 <;> simp [eigenvector, phaseGate, sgn, mul_comm]
      | true =>
          obtain ⟨s', hs', ha'⟩ := Z_spec ha.repInv (ha.n.symm ▸ hlth)
          refine ⟨{ init 1 with psi := s' }, ?_,
            ⟨ha'.repInv, ha'.n.trans (ha.n.trans hah.n)⟩, rfl, fun y => ?_⟩
          · simp [synth1QEigenstate, hsh, S, hs, hs']
          · rw [Stab.eval, ha'.den, phaseBy, ha.den, phaseBy, hah.den, hadamard,
              hden₀, hden₀]
            cases y 0 <;> simp [eigenvector, phaseGate, sgn, mul_comm]

/-- The loop of `RemoveQubit_` moves leg `t` behind the others. -/
theorem swapToEnd_loop {psi : AffineState} (h : psi.RepInv) (t : ℕ) :
    ∀ m, t + m < psi.n → ∃ psi', (List.range' t m).foldlM
        (fun psi q => psi.SWAP q (q + 1)) psi = .ok psi' ∧
      psi'.RepInv ∧ psi'.n = psi.n ∧ ∀ o y,
        psi'.den (insertLeg (t + m) o y) = psi.den (insertLeg t o y) := by
  intro m
  induction m with
  | zero => exact fun _ => ⟨psi, rfl, h, rfl, fun _ _ => rfl⟩
  | succ m ih =>
      intro hm
      obtain ⟨s, hs, hrep, hn, hden⟩ := ih (by omega)
      obtain ⟨s', hs', ha⟩ := SWAP_spec hrep (j := t + m) (k := t + m + 1)
        (by omega) (by omega)
      refine ⟨s', ?_, ha.repInv, ha.n.trans hn, fun o y => ?_⟩
      · rw [List.range'_concat, List.foldlM_append, hs, ok_bind]
        simp [hs']
      · have hswap : swapBits (t + m) (t + m + 1) (insertLeg (t + (m + 1)) o y) =
            insertLeg (t + m) o y := by
          funext i
          rw [swapBits, Function.comp_apply, Equiv.swap_apply_def]
          simp only [insertLeg]
          split_ifs <;> first | rfl | omega | (congr 1; omega)
        rw [ha.den, permuteBy, hswap, hden]

/-- `RemoveQubit_` on a qubit that shows `o` wherever the amplitude is not
zero.  Before the drop its row is zero and no column has it as principal row. -/
theorem removeQubit_ok {st : Stab} (h : st.RepInv) {t : ℕ}
    (ht : t < st.numQubits) {o : Bool} (ho : ∀ y, st.eval y ≠ 0 → y t = o) :
    ∃ psi' st', swapToEnd st.psi t st.numQubits = .ok psi' ∧
      psi'.RepInv ∧ psi'.n = st.numQubits ∧
      (∀ d, psi'.A.entry (st.numQubits - 1) d = 0) ∧
      st.numQubits - 1 ∉ psi'.pivots ∧
      removeQubit st t = .ok st' ∧ st'.RepInv ∧
      st'.numQubits = st.numQubits - 1 ∧
      ∀ y, st'.eval y = st.eval (insertLeg t o y) := by
  obtain ⟨m, hm⟩ : ∃ m, st.numQubits = t + m + 1 :=
    ⟨st.numQubits - 1 - t, by omega⟩
  obtain ⟨s, hs, hrep, hn, hden⟩ := swapToEnd_loop h.psi t m
    (by rw [h.n]; omega)
  rw [h.n] at hn
  have hlast : st.numQubits - 1 = t + m := by omega
  have hloop : swapToEnd st.psi t st.numQubits = .ok s := by
    rw [swapToEnd, hlast, Nat.add_sub_cancel_left, hs]
  have hsupport : ∀ y, s.den y ≠ 0 → y (t + m) = o := by
    intro y hy
    rw [← insertLeg_comp_skip (t + m) y, hden] at hy
    have := ho _ hy
    rwa [insertLeg_self] at this
  obtain ⟨hrow, hb⟩ := hrep.row_of_den (by omega) hsupport
  have hpivot : t + m ∉ s.pivots := by
    intro hp
    obtain ⟨c, hc, hpc⟩ := hrep.exists_piv hp
    have hone := (hrep.pivots c hc).self hc
    rw [hpc, hrow c] at hone
    omega
  obtain ⟨s', hs', hrep', hn', hden'⟩ :=
    dropLastQubit_spec hrep (hn.trans hm) hrow hb
  refine ⟨s, ⟨st.numQubits - 1, s'⟩, hloop, hrep, hn, hlast ▸ hrow,
    hlast ▸ hpivot, ?_, ⟨hrep', hn'.trans hlast.symm⟩, rfl, fun y => ?_⟩
  · rw [removeQubit, if_neg (by omega), if_neg (by omega), hloop, ok_bind, hs']
    rfl
  · rw [Stab.eval, hden', Stab.eval, ← hden o y]
    refine s.den_congr fun i hi => ?_
    rw [Function.update_apply, insertLeg]
    split_ifs <;> first | rfl | omega

/-- What `MeasureZ` after the rotation leaves: the part of the vector with the
reported outcome, scaled by `√2` when a bit was drawn. -/
theorem collapse_ok {st : Stab} (h : st.RepInv) {t : ℕ}
    (ht : t < st.numQubits) (basis : Basis) (draw : Bool) :
    ∃ o psi, collapse st t basis draw = .ok (o, psi) ∧ psi.RepInv ∧
      psi.n = st.numQubits ∧ (∀ y, psi.den y ≠ 0 → y t = o) ∧
      (((∀ y, psi.den (insertLeg t o y) =
          project (eigenvector basis o) t st.eval y) ∧
        ∀ y, project (eigenvector basis (!o)) t st.eval y = 0) ∨
      (o = draw ∧ ∀ y, psi.den (insertLeg t o y) = ((Real.sqrt 2 : ℝ) : ℂ) *
          project (eigenvector basis o) t st.eval y)) := by
  obtain ⟨s₁, hrot, hrep₁, hn₁, hproj⟩ :=
    rotateIntoZBasis_ok h.psi (h.n.symm ▸ ht) basis
  obtain ⟨o, s₂, hmeas, hm⟩ :=
    measureZ_spec hrep₁ (j := t) (by rw [hn₁, h.n]; exact ht) draw
  refine ⟨o, s₂, by rw [collapse, hrot, ok_bind, hmeas], hm.repInv,
    (hm.n.trans hn₁).trans h.n, ?_, ?_⟩
  · intro y hy
    by_contra hne
    refine hy (den_eq_zero_of_row (by rw [hm.n, hn₁, h.n]; exact ht) hm.rowZero ?_)
    rw [hm.bit, Nat.mod_eq_of_lt (Bool.toNat_lt o)]
    exact fun he => hne (toNat_inj he)
  · rcases hm.collapse with ⟨rfl, hsupp⟩ | ⟨hdraw, -, hden⟩
    · refine .inl ⟨fun y => hproj o y, fun y => ?_⟩
      rw [Stab.eval, ← hproj]
      exact hsupp _ (by rw [insertLeg_self]; cases o <;> decide)
    · refine .inr ⟨hdraw, fun y => ?_⟩
      rw [hden, restrictBit, if_pos (insertLeg_self t o y), hproj]
      rfl

/-- `Measure` on a well-formed stabilizer state. -/
theorem measure_ok {st : Stab} (h : st.RepInv) {t : ℕ}
    (ht : t < st.numQubits) (basis : Basis) (draw : Bool) :
    ∃ r st', measure st t basis draw = (.ok r, st') ∧ st'.RepInv ∧
      st'.numQubits = st.numQubits ∧
      ((st.prob t basis r.outcome = 1 ∧ st.prob t basis (!r.outcome) = 0) ∨
        (r.outcome = draw ∧ st.prob t basis r.outcome = 1 / 2)) ∧
      r.measured.RepInv ∧ r.measured.numQubits = 1 ∧
      (∀ y, r.measured.eval y = eigenvector basis r.outcome (y 0)) ∧
      r.survivors.RepInv ∧ r.survivors.numQubits = st.numQubits - 1 ∧
      ∀ y, r.survivors.eval y =
        (1 / (Real.sqrt (st.prob t basis r.outcome) : ℝ) : ℂ) *
          project (eigenvector basis r.outcome) t st.eval y := by
  obtain ⟨o, psi, hcol, hrep, hn, hsupp, hcases⟩ := collapse_ok h ht basis draw
  have hpost : Stab.RepInv { st with psi := psi } := ⟨hrep, hn⟩
  obtain ⟨_, sv, -, -, -, -, -, hrem, hsv, hsvn, hsveval⟩ :=
    removeQubit_ok hpost (t := t) ht hsupp
  obtain ⟨m, hm, hmrep, hmn, hmeval⟩ := synth1QEigenstate_ok basis o
  have hnorm : ∑ x : Fin (st.numQubits - 1) → Bool,
      ‖psi.den (insertLeg t o (pad x))‖ ^ 2 = 1 := by
    have hsvnorm := hsv.norm_eval
    rw [hsvn] at hsvnorm
    rw [← hsvnorm]
    exact sum_congr rfl fun x _ => by rw [hsveval]; rfl
  have hmeasure : measure st t basis draw =
      (.ok ⟨o, m, sv⟩, { st with psi := psi }) := by
    rw [measure, if_neg (not_le.mpr ht), hcol]
    simp only [hrem, ok_bind, hm, pure_eq_ok]
  refine ⟨⟨o, m, sv⟩, { st with psi := psi }, hmeasure, hpost, rfl, ?_⟩
  rcases hcases with ⟨hproj, hother⟩ | ⟨hdraw, hproj⟩
  · have hone : st.prob t basis o = 1 := by
      rw [Stab.prob, ← hnorm]
      exact sum_congr rfl fun x _ => by rw [hproj]
    have hzero : st.prob t basis (!o) = 0 :=
      sum_eq_zero fun x _ => by rw [hother, norm_zero, sq, zero_mul]
    refine ⟨.inl ⟨hone, hzero⟩, hmrep, hmn, hmeval, hsv, hsvn, fun y => ?_⟩
    rw [hsveval, hone, Real.sqrt_one, Complex.ofReal_one, div_one, one_mul]
    exact hproj y
  · have hhalf : st.prob t basis o = 1 / 2 := by
      have htwo : ∑ x : Fin (st.numQubits - 1) → Bool,
          ‖psi.den (insertLeg t o (pad x))‖ ^ 2 = 2 * st.prob t basis o := by
        rw [Stab.prob, mul_sum]
        refine sum_congr rfl fun x _ => ?_
        rw [hproj, norm_mul, mul_pow, Complex.norm_real,
          Real.norm_of_nonneg (Real.sqrt_nonneg _), Real.sq_sqrt (by norm_num)]
      rw [hnorm] at htwo
      linarith
    have hsqrt : (1 / (Real.sqrt (1 / 2) : ℝ) : ℂ) = ((Real.sqrt 2 : ℝ) : ℂ) := by
      rw [Real.sqrt_div' _ (by norm_num), Real.sqrt_one, Complex.ofReal_div,
        Complex.ofReal_one, one_div_one_div]
    refine ⟨.inr ⟨hdraw, hhalf⟩, hmrep, hmn, hmeval, hsv, hsvn, fun y => ?_⟩
    rw [hsveval, hhalf, hsqrt]
    exact hproj y

/-! ### Numbers of qubits -/

theorem apply_n {st st' : Stab} {g : QGate} {t : List ℕ}
    (h : apply st g t = .ok st') : st'.numQubits = st.numQubits := by
  unfold apply at h
  split_ifs at h
  split at h
  · obtain ⟨_, _, h⟩ := bind_eq_ok.mp h
    rw [← Except.ok.inj h]
  · obtain ⟨_, _, h⟩ := bind_eq_ok.mp h
    rw [← Except.ok.inj h]
  · cases h

theorem removeQubit_n {st st' : Stab} {t : ℕ} (h : removeQubit st t = .ok st') :
    st'.numQubits = st.numQubits - 1 := by
  unfold removeQubit at h
  split_ifs at h
  obtain ⟨_, _, h⟩ := bind_eq_ok.mp h
  obtain ⟨_, _, h⟩ := bind_eq_ok.mp h
  rw [← Except.ok.inj h]

theorem synth1QEigenstate_n {basis : Basis} {bit : Bool} {st : Stab}
    (h : synth1QEigenstate basis bit = .ok st) : st.numQubits = 1 := by
  obtain ⟨_, hok, _, hn, _⟩ := synth1QEigenstate_ok basis bit
  rw [h] at hok
  exact Except.ok.inj hok ▸ hn

theorem measure_n (st : Stab) (t : ℕ) (basis : Basis) (draw : Bool) :
    (measure st t basis draw).2.numQubits = st.numQubits ∧
      ∀ r, (measure st t basis draw).1 = .ok r →
        r.measured.numQubits = 1 ∧ r.survivors.numQubits = st.numQubits - 1 := by
  unfold measure
  split_ifs with ht
  · exact ⟨rfl, fun r hr => nomatch hr⟩
  · cases hcol : collapse st t basis draw with
    | error e => exact ⟨rfl, fun r hr => nomatch hr⟩
    | ok p =>
        refine ⟨rfl, fun r hr => ?_⟩
        obtain ⟨s, hs, hr⟩ := bind_eq_ok.mp hr
        obtain ⟨m, hm, hr⟩ := bind_eq_ok.mp hr
        obtain rfl := Except.ok.inj hr
        have hn := removeQubit_n hs
        exact ⟨synth1QEigenstate_n hm, hn⟩

end QStateStab

end Q2NS
