import Q2NS.KetAlgebra

/-!
# The ket backend

`QStateKet` and what its operations do to the amplitudes.
-/

namespace Q2NS

open NamedTensor QuadForm Loop Finset

namespace QStateKet

/-- `ValidateKet`: a `Ket` is a column vector of length `2^N` by construction,
so only the norm is left to check. -/
noncomputable def validateKet (k : Ket) : Except Exit Unit :=
  if |k.norm2 - 1| > 1e-9 then
    .error (.thrown "QStateKet: ket must be normalized")
  else .ok ()

/-- The state `|0…0⟩`. -/
def init (numQubits : ℕ) : Except Exit Ket :=
  Ket.mket (List.replicate numQubits false)

/-- The constructor from an existing ket. -/
noncomputable def ofKet (k : Ket) : Except Exit Ket := do
  validateKet k
  return k

/-- `QStateKet::Apply`. -/
noncomputable def apply (st : Ket) (g : QGate) (targets : List ℕ) :
    Except Exit Ket := do
  let U ← g.matrix
  let dim := 2 ^ targets.length
  if U.rows ≠ dim ∨ U.cols ≠ dim then
    throw (.aborted "QStateKet::Apply: wrong gate dimension")
  st.apply U targets

/-- `QStateKet::MergeDisjoint` with another ket. -/
noncomputable def mergeDisjoint (st other : Ket) : Except Exit Ket :=
  ofKet (st.kron other)

/-- `QStateKet::Measure`: the result and the state object afterwards.  The two
gates of the rotation pass or fail the same checks, so a failed rotation leaves
the object as it was. -/
noncomputable def measure (st : Ket) (target : ℕ) (basis : Basis)
    (draw : Bool) : Except Exit (MeasureResult Ket) × Ket :=
  if target ≥ st.n then
    (.error (.thrown "QStateKet::Measure: target index out of range"), st)
  else
    match rotate Ket.apply st target basis with
    | .error e => (.error e, st)
    | .ok rotated =>
        (do
          let (res, survivors) ← rotated.measure Qpp.gtZ target draw
          let oneQubit ← measuredKet basis res
          let measured1q ← ofKet oneQubit
          let survivors ← ofKet survivors
          return ⟨res, measured1q, survivors⟩, rotated)

end QStateKet

/-! ## Rotation into the `Z` basis -/

theorem unitary_gtH : Qpp.gtH.Unitary 1 := by
  obtain ⟨U, hU, hunit⟩ := QGate.builtin_unitary (show QGateKind.H ≠ .Custom by decide)
  cases hU
  exact hunit

theorem unitary_gtS_adjoint : Qpp.gtS.adjoint.Unitary 1 := by
  refine ⟨rfl, rfl, isometric_one fun a b => ?_⟩
  cases a <;> cases b <;>
    simp [Qpp.gtS, matrixS, makeMatrix, CMat.adjoint]

theorem entry_gtH (a b : Bool) :
    Qpp.gtH.entry a.toNat b.toNat = invSqrt2 * sgn (a && b) := by
  cases a <;> cases b <;>
    simp [Qpp.gtH, matrixH, makeMatrix, invSqrt2, sgn]

theorem entry_gtS_adjoint (a b : Bool) :
    Qpp.gtS.adjoint.entry a.toNat b.toNat =
      if a = b then (if a then -Complex.I else 1) else 0 := by
  cases a <;> cases b <;> simp [Qpp.gtS, matrixS, makeMatrix, CMat.adjoint]

/-- One qubit gates, entry by entry. -/
theorem Ket.apply_one {ψ : Ket} {U : CMat} (hU : U.Unitary 1) {t : ℕ}
    (ht : t < ψ.n) :
    ∃ ψ', ψ.apply U [t] = .ok ψ' ∧ ψ'.n = ψ.n ∧ ψ'.norm2 = ψ.norm2 ∧
      ∀ y, ψ'.eval y = ∑ b : Bool, U.entry (y t).toNat b.toNat *
        ψ.eval (Function.update y t b) := by
  obtain ⟨ψ', hok, hn, heval, hnorm⟩ := @Ket.apply_ok ψ U [t]
    hU (by simp) (by simp) (by simpa using ht)
  refine ⟨ψ', hok, hn, hnorm, fun y => ?_⟩
  rw [heval, Qpp.legs_one]
  simp only [List.length_singleton]
  rw [actOn_one]
  exact sum_congr rfl fun b _ => by rw [kernel_one]

/-- The rotation reads qubit `t` in the basis. -/
theorem rotate_ket {ψ : Ket} {t : ℕ} (ht : t < ψ.n) (basis : Basis) :
    ∃ ψ', rotate Ket.apply ψ t basis = .ok ψ' ∧ ψ'.n = ψ.n ∧
      ψ'.norm2 = ψ.norm2 ∧
      ∀ y, ψ'.eval y = ∑ b : Bool,
        starRingEnd ℂ (eigenvector basis (y t) b) *
          ψ.eval (Function.update y t b) := by
  cases basis with
  | Z =>
      refine ⟨ψ, rfl, rfl, rfl, fun y => ?_⟩
      rw [sum_eq_single (y t)]
      · simp [eigenvector]
      · intro b _ hb
        simp [eigenvector, hb]
      · exact fun h => absurd (mem_univ _) h
  | X =>
      obtain ⟨ψ', hok, hn, hnorm, heval⟩ := Ket.apply_one unitary_gtH ht
      refine ⟨ψ', hok, hn, hnorm, fun y => ?_⟩
      rw [heval]
      refine sum_congr rfl fun b _ => ?_
      rw [entry_gtH, eigenvector, map_mul, conj_invSqrt2, conj_sgn,
        Bool.and_comm]
  | Y =>
      obtain ⟨ψ₁, hok₁, hn₁, hnorm₁, heval₁⟩ :=
        Ket.apply_one unitary_gtS_adjoint ht
      obtain ⟨ψ', hok, hn, hnorm, heval⟩ :=
        Ket.apply_one (ψ := ψ₁) unitary_gtH (hn₁ ▸ ht)
      refine ⟨ψ', ?_, hn.trans hn₁, hnorm.trans hnorm₁, fun y => ?_⟩
      · rw [rotate, hok₁, ok_bind, hok]
      · rw [heval]
        simp only [heval₁, Function.update_self, Function.update_idem,
          entry_gtH, entry_gtS_adjoint, Fintype.sum_bool, eigenvector]
        cases y t <;> simp [sgn, conj_invSqrt2] <;> ring

theorem mket_one (res : Bool) :
    ∃ ψ, Ket.mket [res] = .ok ψ ∧ ψ.n = 1 ∧ ψ.norm2 = 1 ∧
      ∀ y, ψ.eval y = if y 0 = res then 1 else 0 := by
  refine ⟨_, rfl, rfl, ?_, fun y => ?_⟩
  · rw [Ket.norm2, sum_eq_single [res].get]
    · simp
    · intro x _ hx
      simp [hx]
    · exact fun h => absurd (mem_univ _) h
  · refine if_congr ?_ rfl rfl
    rw [funext_iff]
    refine ⟨fun h => h ⟨0, by simp⟩, fun h i => ?_⟩
    fin_cases i
    exact h

/-- The vector that is built for the measured qubit. -/
theorem measuredKet_ok (basis : Basis) (res : Bool) :
    ∃ ψ, measuredKet basis res = .ok ψ ∧ ψ.n = 1 ∧ ψ.norm2 = 1 ∧
      ∀ y, ψ.eval y = measuredVector basis res (y 0) := by
  obtain ⟨ψ₀, hok₀, hn₀, hnorm₀, heval₀⟩ := mket_one res
  obtain ⟨ψ, hok, hn, hnorm, heval⟩ :=
    rotate_ket (ψ := ψ₀) (t := 0) (by omega) basis
  refine ⟨ψ, ?_, hn.trans hn₀, hnorm.trans hnorm₀, fun y => ?_⟩
  · rw [measuredKet, hok₀, ok_bind, hok]
  · rw [heval]
    simp only [heval₀, Function.update_self, Fintype.sum_bool]
    cases basis <;> cases res <;> cases y 0 <;>
      simp [eigenvector, measuredVector, sgn, conj_invSqrt2]

/-! ## What the operations do -/

/-- The probability of outcome `o` when qubit `t` is measured in `basis`. -/
noncomputable def Ket.prob (ψ : Ket) (t : ℕ) (basis : Basis) (o : Bool) : ℝ :=
  ∑ x : Fin (ψ.n - 1) → Bool,
    ‖project (eigenvector basis o) t ψ.eval (pad x)‖ ^ 2

namespace QStateKet

theorem ofKet_ok {k : Ket} (hk : k.norm2 = 1) : ofKet k = .ok k := by
  rw [ofKet, validateKet, hk, sub_self, abs_zero, if_neg (by norm_num)]
  rfl

theorem of_ofKet {k k' : Ket} (h : ofKet k = .ok k') : k' = k := by
  obtain ⟨_, _, hk⟩ := bind_eq_ok.mp h
  exact (Except.ok.inj hk).symm

theorem init_ok {n : ℕ} (hn : n ≠ 0) :
    ∃ ψ, init n = .ok ψ ∧ ψ.n = n ∧ ψ.norm2 = 1 ∧
      ∀ y, ψ.eval y = if ∀ i < n, y i = false then 1 else 0 := by
  have hne : List.replicate n false ≠ [] := by
    rw [ne_eq, List.replicate_eq_nil_iff]
    exact hn
  refine ⟨_, if_neg hne, List.length_replicate, ?_, fun y => ?_⟩
  · rw [Ket.norm2, sum_eq_single (List.replicate n false).get]
    · simp
    · intro x _ hx
      simp [hx]
    · exact fun h => absurd (mem_univ _) h
  · refine if_congr ?_ rfl rfl
    rw [funext_iff]
    constructor
    · intro h i hi
      have := h ⟨i, by simpa using hi⟩
      simpa using this
    · intro h i
      have := h i (by simpa using i.isLt)
      simpa using this

/-- A unitary gate on distinct qubits. -/
theorem apply_ok {ψ : Ket} {g : QGate} {U : CMat} {targets : List ℕ}
    (hg : g.matrix = .ok U) (hU : U.Unitary targets.length)
    (hne : targets ≠ []) (hd : targets.Nodup) (hlt : ∀ t ∈ targets, t < ψ.n) :
    ∃ ψ', apply ψ g targets = .ok ψ' ∧ ψ'.n = ψ.n ∧
      ψ'.eval = actOn (U.kernel targets.length) (Qpp.legs targets) ψ.eval ∧
      ψ'.norm2 = ψ.norm2 := by
  obtain ⟨ψ', hok, h⟩ := Ket.apply_ok (ψ := ψ) hU hne hd hlt
  have hdim : ¬ (U.rows ≠ 2 ^ targets.length ∨ U.cols ≠ 2 ^ targets.length) := by
    simp only [hU.rows, hU.cols, ne_eq, not_true_eq_false, or_self,
      not_false_eq_true]
  refine ⟨ψ', ?_, h⟩
  simp only [apply, hg, ok_bind, if_neg hdim, hok]

/-- Whatever the gate, a call that returns has applied its matrix. -/
theorem of_apply {ψ ψ' : Ket} {g : QGate} {targets : List ℕ}
    (h : apply ψ g targets = .ok ψ') :
    ∃ U, g.matrix = .ok U ∧ targets.Nodup ∧ (∀ t ∈ targets, t < ψ.n) ∧
      ψ'.n = ψ.n ∧
      ψ'.eval = actOn (U.kernel targets.length) (Qpp.legs targets) ψ.eval := by
  obtain ⟨U, hU, h⟩ := bind_eq_ok.mp h
  dsimp only at h
  split_ifs at h with hdim
  · obtain ⟨_, habort, _⟩ := bind_eq_ok.mp h
    cases habort
  obtain ⟨_, hchecks, h⟩ := bind_eq_ok.mp h
  obtain ⟨hd, hlt⟩ := Qpp.of_applyChecks hchecks
  obtain rfl := Except.ok.inj h
  refine ⟨U, hU, hd, hlt, rfl, ?_⟩
  exact onNat_onFin (actOn_dependsOn ψ.eval_dependsOn (Qpp.legs_injective hd)
    (Qpp.legs_lt hlt))

theorem of_apply_ne_nil {ψ ψ' : Ket} {g : QGate} {targets : List ℕ}
    (h : apply ψ g targets = .ok ψ') : targets ≠ [] := by
  rintro rfl
  obtain ⟨U, -, h⟩ := bind_eq_ok.mp h
  dsimp only at h
  split_ifs at h
  · obtain ⟨_, habort, -⟩ := bind_eq_ok.mp h
    cases habort
  · obtain ⟨_, hchecks, -⟩ := bind_eq_ok.mp h
    rw [Qpp.applyChecks_nil] at hchecks
    cases hchecks

theorem mergeDisjoint_ok {ψ φ : Ket} (hψ : ψ.norm2 = 1) (hφ : φ.norm2 = 1) :
    mergeDisjoint ψ φ = .ok (ψ.kron φ) ∧ (ψ.kron φ).norm2 = 1 := by
  have hnorm : (ψ.kron φ).norm2 = 1 := by
    rw [Ket.norm2_kron, hψ, hφ, one_mul]
  exact ⟨ofKet_ok hnorm, hnorm⟩

/-- `Measure` on a unit vector: the survivors are the projection on the
eigenvector of the outcome, up to the sign that the column of `gt.Z` brings. -/
theorem measure_ok {ψ : Ket} {t : ℕ} (ht : t < ψ.n) (hψ : ψ.norm2 = 1)
    (basis : Basis) (draw : Bool) :
    ∃ r ψ', measure ψ t basis draw = (.ok r, ψ') ∧ ψ'.n = ψ.n ∧
      0 < ψ.prob t basis r.outcome ∧
      (r.outcome = draw ∨ ψ.prob t basis draw = 0) ∧
      r.measured.n = 1 ∧ r.measured.norm2 = 1 ∧
      (∀ y, r.measured.eval y = measuredVector basis r.outcome (y 0)) ∧
      r.survivors.n = ψ.n - 1 ∧ r.survivors.norm2 = 1 ∧
      ∀ y, r.survivors.eval y =
        (1 / (Real.sqrt (ψ.prob t basis r.outcome) : ℝ) : ℂ) *
          (sgn r.outcome *
            project (eigenvector basis r.outcome) t ψ.eval y) := by
  obtain ⟨ψ₁, hrot, hn₁, hnorm₁, heval₁⟩ := rotate_ket ht basis
  have hproj : ∀ o y, ψ₁.eval (insertLeg t o y) =
      project (eigenvector basis o) t ψ.eval y := by
    intro o y
    simp only [heval₁, insertLeg_self, update_insertLeg, project]
  have hweight : ∀ o, ψ₁.weight t o = ψ.prob t basis o := by
    intro o
    rw [Ket.weight, Ket.prob, hn₁]
    exact sum_congr rfl fun x _ => by rw [hproj]
  obtain ⟨res, s, hmeas, hpos, hdraw, hsn, hsnorm, hseval⟩ :=
    Ket.measure_ok (ψ := ψ₁) (hn₁ ▸ ht) (hnorm₁.trans hψ) draw
  obtain ⟨m, hm, hmn, hmnorm, hmeval⟩ := measuredKet_ok basis res
  rw [hweight] at hpos
  rw [hweight] at hdraw
  refine ⟨⟨res, m, s⟩, ψ₁, ?_, hn₁, hpos, hdraw, hmn, hmnorm, hmeval,
    hsn.trans (by rw [hn₁]), hsnorm, fun y => ?_⟩
  · rw [measure, if_neg (by omega), hrot]
    simp only [hmeas, ok_bind, hm, ofKet_ok hmnorm, ofKet_ok hsnorm,
      pure_eq_ok]
  · rw [hseval, hweight, hproj]

/-! ### Numbers of qubits -/

theorem init_n {n : ℕ} {psi : Ket} (h : init n = .ok psi) : psi.n = n := by
  unfold init Ket.mket at h
  split_ifs at h
  rw [← Except.ok.inj h]
  exact List.length_replicate

theorem measure_n (st : Ket) (t : ℕ) (basis : Basis) (draw : Bool) :
    (measure st t basis draw).2.n = st.n ∧
      ∀ r, (measure st t basis draw).1 = .ok r →
        r.measured.n = 1 ∧ r.survivors.n = st.n - 1 := by
  unfold measure
  split_ifs with ht
  · exact ⟨rfl, fun r hr => nomatch hr⟩
  · cases hrot : rotate Ket.apply st t basis with
    | error e => exact ⟨rfl, fun r hr => nomatch hr⟩
    | ok rotated =>
        have hn := rotate_keeps Ket.n Ket.apply_n hrot
        refine ⟨hn, fun r hr => ?_⟩
        obtain ⟨⟨res, s⟩, hmeas, hr⟩ := bind_eq_ok.mp hr
        obtain ⟨oneQubit, hone, hr⟩ := bind_eq_ok.mp hr
        obtain ⟨m, hm, hr⟩ := bind_eq_ok.mp hr
        obtain ⟨s', hs', hr⟩ := bind_eq_ok.mp hr
        obtain rfl := Except.ok.inj hr
        refine ⟨?_, ?_⟩
        · rw [of_ofKet hm, measuredKet_n hone]
        · rw [of_ofKet hs', Ket.measure_n hmeas, hn]

end QStateKet

end Q2NS
