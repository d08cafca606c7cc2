import Q2NS.QStateDM
import Q2NS.QStateStab

/-!
# State objects

`QState` over the three backends: the operations, dispatched as the virtual
calls are, and what each of them does to the number of qubits and to the density
tensor of a well-formed state.
-/

namespace Q2NS

open NamedTensor QuadForm Loop Finset

/-- A state object of one of the backends. -/
inductive QState where
  | ket (psi : Ket)
  | dm (rho : DM)
  | stab (st : Stab)

/-- The same result for another type of states. -/
def MeasureResult.map {σ τ : Type} (f : σ → τ) (r : MeasureResult σ) :
    MeasureResult τ where
  outcome := r.outcome
  measured := f r.measured
  survivors := f r.survivors

namespace QState

def backend : QState → QStateBackend
  | ket _ => .Ket
  | dm _ => .DM
  | stab _ => .Stab

/-- `NumQubits`. -/
def numQubits : QState → ℕ
  | ket psi => psi.n
  | dm rho => rho.n
  | stab st => st.numQubits

/-- The constructor from a number of qubits. -/
noncomputable def create (n : ℕ) : QStateBackend → Except Exit QState
  | .Ket => ket <$> QStateKet.init n
  | .DM => dm <$> QStateDM.init n
  | .Stab => .ok (stab (QStateStab.init n))

/-- `Apply`: the state object after the call, if it returns. -/
noncomputable def apply (st : QState) (g : QGate) (targets : List ℕ) :
    Except Exit QState :=
  match st with
  | ket psi => ket <$> QStateKet.apply psi g targets
  | dm rho => dm <$> QStateDM.apply rho g targets
  | stab s => stab <$> QStateStab.apply s g targets

/-- `MergeDisjoint`. -/
noncomputable def mergeDisjoint : QState → QState → Except Exit QState
  | ket psi, ket phi => ket <$> QStateKet.mergeDisjoint psi phi
  | dm rho, dm sigma => dm <$> QStateDM.mergeDisjoint rho sigma
  | stab s, stab t => stab <$> QStateStab.mergeDisjoint s t
  | ket _, _ =>
      .error (.thrown "QStateKet::MergeDisjoint: incompatible backend")
  | dm _, _ => .error (.thrown "QStateDM::MergeDisjoint: incompatible backend")
  | stab _, _ =>
      .error (.thrown "QStateStab::MergeDisjoint: incompatible backend")

/-- `Measure`: the result and the state object after the call. -/
noncomputable def measure (st : QState) (target : ℕ) (basis : Basis)
    (draw : Bool) : Except Exit (MeasureResult QState) × QState :=
  match st with
  | ket psi =>
      let (r, psi) := QStateKet.measure psi target basis draw
      (.map ket <$> r, ket psi)
  | dm rho =>
      let (r, rho) := QStateDM.measure rho target basis draw
      (.map dm <$> r, dm rho)
  | stab s =>
      let (r, s) := QStateStab.measure s target basis draw
      (.map stab <$> r, stab s)

/-! ## Numbers of qubits -/

theorem create_numQubits {n : ℕ} {b : QStateBackend} {st : QState}
    (h : create n b = .ok st) : st.numQubits = n := by
  cases b with
  | Ket =>
      obtain ⟨psi, hpsi, rfl⟩ := map_eq_ok.mp h
      exact QStateKet.init_n hpsi
  | DM =>
      obtain ⟨rho, hrho, rfl⟩ := map_eq_ok.mp h
      exact QStateDM.init_n hrho
  | Stab =>
      obtain rfl := Except.ok.inj h
      rfl

theorem apply_numQubits {st st' : QState} {g : QGate} {targets : List ℕ}
    (h : st.apply g targets = .ok st') : st'.numQubits = st.numQubits := by
  cases st with
  | ket psi =>
      obtain ⟨psi', hpsi, rfl⟩ := map_eq_ok.mp h
      obtain ⟨_, _, _, _, hn, _⟩ := QStateKet.of_apply hpsi
      exact hn
  | dm rho =>
      obtain ⟨rho', hrho, rfl⟩ := map_eq_ok.mp h
      obtain ⟨_, _, _, _, hn, _⟩ := QStateDM.of_apply hrho
      exact hn
  | stab s =>
      obtain ⟨s', hs, rfl⟩ := map_eq_ok.mp h
      exact QStateStab.apply_n hs

theorem mergeDisjoint_numQubits {st other st' : QState}
    (h : st.mergeDisjoint other = .ok st') :
    st'.numQubits = st.numQubits + other.numQubits := by
  cases st <;> cases other <;> try cases h
  case ket.ket psi phi =>
    obtain ⟨_, hok, rfl⟩ := map_eq_ok.mp h
    rw [QStateKet.of_ofKet hok]
    rfl
  case dm.dm rho sigma =>
    obtain ⟨_, hok, rfl⟩ := map_eq_ok.mp h
    rw [QStateDM.of_ofDM hok]
    rfl
  case stab.stab s t =>
    obtain ⟨_, hok, rfl⟩ := map_eq_ok.mp h
    obtain ⟨_, _, hok⟩ := bind_eq_ok.mp hok
    rw [← Except.ok.inj hok]
    rfl

/-- A measurement keeps the size of the object; a result has one measured qubit
and one qubit less in the survivors. -/
theorem measure_numQubits {st st' : QState} {t : ℕ} {basis : Basis} {draw : Bool}
    {res : Except Exit (MeasureResult QState)}
    (h : st.measure t basis draw = (res, st')) :
    st'.numQubits = st.numQubits ∧ ∀ r, res = .ok r →
      r.measured.numQubits = 1 ∧ r.survivors.numQubits = st.numQubits - 1 := by
  cases st with
  | ket psi =>
      obtain ⟨hn, hr⟩ := QStateKet.measure_n psi t basis draw
      obtain ⟨rfl, rfl⟩ := Prod.mk.inj h
      refine ⟨hn, fun r hok => ?_⟩
      obtain ⟨r', hok', rfl⟩ := map_eq_ok.mp hok
      exact hr r' hok'
  | dm rho =>
      obtain ⟨hn, hr⟩ := QStateDM.measure_n rho t basis draw
      obtain ⟨rfl, rfl⟩ := Prod.mk.inj h
      refine ⟨hn, fun r hok => ?_⟩
      obtain ⟨r', hok', rfl⟩ := map_eq_ok.mp hok
      exact hr r' hok'
  | stab s =>
      obtain ⟨hn, hr⟩ := QStateStab.measure_n s t basis draw
      obtain ⟨rfl, rfl⟩ := Prod.mk.inj h
      refine ⟨hn, fun r hok => ?_⟩
      obtain ⟨r', hok', rfl⟩ := map_eq_ok.mp hok
      exact hr r' hok'

/-! ## Backends -/

theorem create_backend {n : ℕ} {b : QStateBackend} {st : QState}
    (h : create n b = .ok st) : st.backend = b := by
  cases b with
  | Ket =>
      obtain ⟨psi, -, rfl⟩ := map_eq_ok.mp h
      rfl
  | DM =>
      obtain ⟨rho, -, rfl⟩ := map_eq_ok.mp h
      rfl
  | Stab =>
      obtain rfl := Except.ok.inj h
      rfl

theorem apply_backend {st st' : QState} {g : QGate} {targets : List ℕ}
    (h : st.apply g targets = .ok st') : st'.backend = st.backend := by
  cases st <;> obtain ⟨_, -, rfl⟩ := map_eq_ok.mp h <;> rfl

/-- Only states of one backend can be merged. -/
theorem mergeDisjoint_backend {st other st' : QState}
    (h : st.mergeDisjoint other = .ok st') :
    st.backend = other.backend ∧ st'.backend = st.backend := by
  cases st <;> cases other <;> try cases h
  all_goals
    obtain ⟨_, -, rfl⟩ := map_eq_ok.mp h
    exact ⟨rfl, rfl⟩

theorem measure_backend {st st' : QState} {t : ℕ} {basis : Basis} {draw : Bool}
    {res : Except Exit (MeasureResult QState)}
    (h : st.measure t basis draw = (res, st')) :
    st'.backend = st.backend ∧ ∀ r, res = .ok r →
      r.measured.backend = st.backend ∧ r.survivors.backend = st.backend := by
  cases st
  all_goals
    obtain ⟨rfl, rfl⟩ := Prod.mk.inj h
    refine ⟨rfl, fun r hok => ?_⟩
    obtain ⟨r', -, rfl⟩ := map_eq_ok.mp hok
    exact ⟨rfl, rfl⟩

/-! ## Well-formed states -/

/-- A normalised state in a consistent representation. -/
def WellFormed : QState → Prop
  | ket psi => psi.norm2 = 1
  | dm rho => rho.Valid
  | stab st => st.RepInv

/-- The density tensor that the object stands for. -/
noncomputable def kernel : QState → (ℕ → Bool × Bool) → ℂ
  | ket psi => density psi.eval
  | dm rho => rho.eval
  | stab st => density st.eval

/-- The probability of outcome `o` when qubit `t` is measured in `basis`. -/
noncomputable def prob (st : QState) (t : ℕ) (basis : Basis) (o : Bool) : ℂ :=
  trace (st.numQubits - 1) (compress (eigenvector basis o) t st.kernel)

theorem kernel_dependsOn {st : QState} (h : st.WellFormed) :
    DependsOn st.kernel (Set.Iio st.numQubits) := by
  cases st with
  | ket psi => exact density_dependsOn psi.eval_dependsOn
  | dm rho => exact rho.eval_dependsOn
  | stab s => exact density_dependsOn (Stab.RepInv.eval_dependsOn h)

/-- A well-formed state is normalised. -/
theorem trace_kernel {st : QState} (h : st.WellFormed) :
    trace st.numQubits st.kernel = 1 := by
  cases st with
  | ket psi =>
      have hnorm := psi.norm2_eq_inner
      rw [show psi.norm2 = 1 from h, inner_self] at hnorm
      rw [kernel, trace_density]
      exact hnorm.symm
  | dm rho => exact rho.trace_eval.trans h.trace
  | stab s =>
      rw [kernel, trace_density, numQubits, Stab.RepInv.norm_eval h,
        Complex.ofReal_one]

theorem prob_ket (psi : Ket) (t : ℕ) (basis : Basis) (o : Bool) :
    (ket psi).prob t basis o = psi.prob t basis o := by
  rw [prob, kernel, compress_density, trace_density]
  rfl

theorem prob_stab (s : Stab) (t : ℕ) (basis : Basis) (o : Bool) :
    (stab s).prob t basis o = s.prob t basis o := by
  rw [prob, kernel, compress_density, trace_density]
  rfl

theorem create_ok {n : ℕ} (hn : n ≠ 0) (b : QStateBackend) :
    ∃ st, create n b = .ok st ∧ st.WellFormed ∧ st.numQubits = n ∧
      st.backend = b := by
  cases b with
  | Ket =>
      obtain ⟨psi, hok, hpn, hnorm, _⟩ := QStateKet.init_ok hn
      exact ⟨ket psi, map_eq_ok.mpr ⟨psi, hok, rfl⟩, hnorm, hpn, rfl⟩
  | DM =>
      obtain ⟨rho, hok, hrn, hvalid⟩ := QStateDM.init_ok hn
      exact ⟨dm rho, map_eq_ok.mpr ⟨rho, hok, rfl⟩, hvalid, hrn, rfl⟩
  | Stab =>
      exact ⟨stab (QStateStab.init n), rfl, QStateStab.init_repInv n, rfl, rfl⟩

/-- A new state is the zero vector of every backend. -/
theorem create_kernel {n : ℕ} (hn : n ≠ 0) {b : QStateBackend} {st : QState}
    (h : create n b = .ok st) :
    st.kernel = density fun y => if ∀ i < n, y i = false then 1 else 0 := by
  cases b with
  | Ket =>
      obtain ⟨psi, hpsi, rfl⟩ := map_eq_ok.mp h
      obtain ⟨psi', hok, -, -, heval⟩ := QStateKet.init_ok hn
      obtain rfl := Except.ok.inj (hpsi.symm.trans hok)
      exact congrArg density (funext heval)
  | DM =>
      obtain ⟨rho, hrho, rfl⟩ := map_eq_ok.mp h
      obtain ⟨psi, hpsi, -, hnorm, heval⟩ := QStateKet.init_ok hn
      have hmket : Ket.mket (List.replicate n false) = .ok psi := hpsi
      rw [QStateDM.init, hmket, ok_bind,
        QStateDM.ofDM_ok (DM.valid_prj hnorm)] at hrho
      rw [← Except.ok.inj hrho, kernel, DM.eval_prj]
      exact congrArg density (funext heval)
  | Stab =>
      obtain rfl := Except.ok.inj h
      exact congrArg density (funext (QStateStab.init_eval n))

/-- The backend takes `g` on `k` qubits, and `U` is the matrix of `g`. -/
structure Accepts (b : QStateBackend) (g : QGate) (k : ℕ) (U : CMat) : Prop where
  matrix : g.matrix = .ok U
  unitary : U.Unitary k
  stab : b = .Stab → g.kind ≠ .Custom ∧ g.kind.arity = k

/-- A built-in gate is accepted on as many qubits as its arity. -/
theorem accepts_builtin (b : QStateBackend) {kind : QGateKind}
    (hk : kind ≠ .Custom) :
    ∃ U, Accepts b (QGate.builtin kind) kind.arity U := by
  obtain ⟨U, hU, hunit⟩ := QGate.builtin_unitary hk
  exact ⟨U, hU, hunit, fun _ => ⟨hk, rfl⟩⟩

/-- An accepted gate on distinct qubits. -/
theorem apply_ok {st : QState} (h : st.WellFormed) {g : QGate} {U : CMat}
    {targets : List ℕ} (hg : Accepts st.backend g targets.length U)
    (hne : targets ≠ []) (hd : targets.Nodup)
    (hlt : ∀ t ∈ targets, t < st.numQubits) :
    ∃ st', st.apply g targets = .ok st' ∧ st'.WellFormed ∧
      st'.backend = st.backend ∧ st'.numQubits = st.numQubits ∧
      st'.kernel = actOn (conjBy (U.kernel targets.length)) (Qpp.legs targets)
        st.kernel := by
  cases st with
  | ket psi =>
      obtain ⟨psi', hok, hn, heval, hnorm⟩ :=
        QStateKet.apply_ok (ψ := psi) hg.matrix hg.unitary hne hd hlt
      refine ⟨ket psi', map_eq_ok.mpr ⟨psi', hok, rfl⟩, hnorm.trans h, rfl, hn, ?_⟩
      rw [kernel, kernel, heval, actOn_density]
  | dm rho =>
      obtain ⟨rho', hok, hn, hvalid, heval⟩ :=
        QStateDM.apply_ok h hg.matrix hg.unitary hne hd hlt
      exact ⟨dm rho', map_eq_ok.mpr ⟨rho', hok, rfl⟩, hvalid, rfl, hn, heval⟩
  | stab s =>
      obtain ⟨hk, harity⟩ := hg.stab rfl
      obtain ⟨V, s', hV, hok, hrep, hn, heval⟩ :=
        QStateStab.apply_ok h hk harity hd hlt
      have hUV : V = U := by
        have hU := hg.matrix
        rw [QGate.matrix, if_neg hk, hV] at hU
        exact Except.ok.inj hU
      refine ⟨stab s', map_eq_ok.mpr ⟨s', hok, rfl⟩, hrep, rfl, hn, ?_⟩
      rw [kernel, kernel, heval, hUV, actOn_density]

theorem mergeDisjoint_ok {st other : QState} (h : st.WellFormed)
    (ho : other.WellFormed) (hb : st.backend = other.backend) :
    ∃ st', st.mergeDisjoint other = .ok st' ∧ st'.WellFormed ∧
      st'.backend = st.backend ∧
      st'.numQubits = st.numQubits + other.numQubits ∧
      ∀ z, st'.kernel z =
        st.kernel z * other.kernel fun i => z (st.numQubits + i) := by
  cases st <;> cases other <;> try cases hb
  case ket.ket psi phi =>
    obtain ⟨hok, hnorm⟩ := QStateKet.mergeDisjoint_ok h ho
    refine ⟨ket (psi.kron phi), map_eq_ok.mpr ⟨_, hok, rfl⟩, hnorm, rfl, rfl,
      fun z => ?_⟩
    exact density_mul psi.eval (fun y => phi.eval fun i => y (psi.n + i)) z
  case dm.dm rho sigma =>
    obtain ⟨hok, hvalid⟩ := QStateDM.mergeDisjoint_ok h ho
    exact ⟨dm (rho.kron sigma), map_eq_ok.mpr ⟨_, hok, rfl⟩, hvalid, rfl, rfl,
      fun z => rho.eval_kron sigma z⟩
  case stab.stab s t =>
    obtain ⟨p, hok, hrep, hn, heval⟩ := QStateStab.mergeDisjoint_ok h ho
    refine ⟨stab p, map_eq_ok.mpr ⟨p, hok, rfl⟩, hrep, rfl, hn, fun z => ?_⟩
    rw [kernel, funext heval]
    exact density_mul s.eval (fun y => t.eval fun i => y (s.numQubits + i)) z

/-- The amplitudes that a backend gives the measured qubit. -/
noncomputable def measuredAmplitude (b : QStateBackend) (basis : Basis)
    (o : Bool) : Bool → ℂ :=
  match b with
  | .Stab => eigenvector basis o
  | _ => measuredVector basis o

/-- `Measure` on a well-formed state. -/
theorem measure_ok {st : QState} (h : st.WellFormed) {t : ℕ}
    (ht : t < st.numQubits) (basis : Basis) (draw : Bool) :
    ∃ r st', st.measure t basis draw = (.ok r, st') ∧
      st.prob t basis r.outcome ≠ 0 ∧
      (r.outcome = draw ∨ st.prob t basis draw = 0) ∧
      r.measured.WellFormed ∧ r.measured.backend = st.backend ∧
      (∀ z, r.measured.kernel z = density
        (fun y => measuredAmplitude st.backend basis r.outcome (y 0)) z) ∧
      r.survivors.WellFormed ∧ r.survivors.backend = st.backend ∧
      ∀ z, r.survivors.kernel z = 1 / st.prob t basis r.outcome *
        compress (eigenvector basis r.outcome) t st.kernel z := by
  -- the survivors of a pure state, up to a phase `c`
  have hpure : ∀ {p : ℝ} {c : ℂ} {v : Bool → ℂ} {Φ Ψ : (ℕ → Bool) → ℂ},
      0 ≤ p → ‖c‖ = 1 →
      (∀ y, Ψ y = (1 / (Real.sqrt p : ℝ) : ℂ) * (c * project v t Φ y)) →
      ∀ z, density Ψ z = 1 / (p : ℂ) * compress v t (density Φ) z := by
    intro p c v Φ Ψ hp hc hΨ z
    rw [funext hΨ, density_smul, density_smul, hc, one_pow, Complex.ofReal_one,
      one_mul, compress_density, norm_div, norm_one, Complex.norm_real,
      Real.norm_of_nonneg (Real.sqrt_nonneg _), div_pow, one_pow,
      Real.sq_sqrt hp, Complex.ofReal_div, Complex.ofReal_one]
  cases st with
  | ket psi =>
      obtain ⟨r, psi', hok, -, hpos, hdraw, -, hmnorm, hmeval, -, hsnorm,
        hseval⟩ := QStateKet.measure_ok (ψ := psi) ht h basis draw
      refine ⟨r.map ket, ket psi', ?_, ?_, ?_, hmnorm, rfl, fun z => ?_, hsnorm,
        rfl, fun z => ?_⟩
      · rw [measure, hok]
        rfl
      · rw [prob_ket]
        exact_mod_cast hpos.ne'
      · rw [prob_ket]
        exact_mod_cast hdraw
      · exact congrFun (congrArg density (funext hmeval)) z
      · rw [prob_ket]
        exact hpure hpos.le (Ket.norm_sgn r.outcome) hseval z
  | dm rho =>
      obtain ⟨r, rho', hok, -, hpos, hdraw, -, hmvalid, hmeval, -, hsvalid,
        hseval⟩ := QStateDM.measure_ok (ρ := rho) ht h basis draw
      refine ⟨r.map dm, dm rho', ?_, hpos, hdraw, hmvalid, rfl, fun z => ?_,
        hsvalid, rfl, hseval⟩
      · rw [measure, hok]
        rfl
      · refine (hmeval z).trans ?_
        rw [outer, Complex.conj_conj]
        rfl
  | stab s =>
      obtain ⟨r, s', hok, -, -, hcases, hmrep, -, hmeval, hsrep, -, hseval⟩ :=
        QStateStab.measure_ok h ht basis draw
      have hpos : 0 < s.prob t basis r.outcome := by
        rcases hcases with ⟨hone, -⟩ | ⟨-, hhalf⟩
        · rw [hone]
          exact one_pos
        · rw [hhalf]
          exact half_pos one_pos
      refine ⟨r.map stab, stab s', ?_, ?_, ?_, hmrep, rfl, fun z => ?_, hsrep,
        rfl, fun z => ?_⟩
      · rw [measure, hok]
        rfl
      · rw [prob_stab]
        exact_mod_cast hpos.ne'
      · rw [prob_stab]
        rcases hcases with ⟨-, hzero⟩ | ⟨hdraw, -⟩
        · by_cases hd : r.outcome = draw
          · exact .inl hd
          · rw [show draw = !r.outcome by cases hr : r.outcome <;> simp_all]
            exact .inr (by exact_mod_cast hzero)
        · exact .inl hdraw
      · exact congrFun (congrArg density (funext hmeval)) z
      · rw [prob_stab]
        exact hpure (c := 1) hpos.le norm_one
          (fun y => by rw [hseval, one_mul]; rfl) z

end QState

end Q2NS
