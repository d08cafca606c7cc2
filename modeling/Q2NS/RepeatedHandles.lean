import Q2NS.BellMeasurement
import Q2NS.Isolation

/-!
# Repeated handles

Between `QProcessor::Apply` and the backends nothing checks that the handles of
a call are distinct.  The ket and density-matrix backends reject equal targets;
the stabilizer backend takes them, and `CX` then adds a row to itself.
-/

namespace Q2NS

open NamedTensor QuadForm Loop Finset

/-! ## `CX` of a row with itself -/

namespace AffineState

/-- Row `j` is principal for a column in which no other row has a one. -/
def SolePivot (s : AffineState) (j : ℕ) : Prop :=
  ∃ c < s.r, s.piv c = j ∧ ∀ i < s.n, i ≠ j → s.A.entry i c = 0

/-- The row is cleared; the columns keep their principal rows unless it was the
only row of its own column. -/
theorem CX_self {s : AffineState} (h : s.RepInv) {j : ℕ} (hj : j < s.n) :
    ∃ s', s.CX j j = .ok s' ∧ s'.n = s.n ∧ (s'.RepInv ↔ ¬ s.SolePivot j) := by
  obtain ⟨s₁, hs₁, hcode⟩ := CX_eq h.toGrid hj hj
  have hzero : ∀ d, s₁.A.entry j d = 0 := by
    intro d
    rw [hs₁.a j hj, if_pos rfl]
    omega
  have hother : ∀ i < s.n, i ≠ j → ∀ d, s₁.A.entry i d = s.A.entry i d :=
    fun i hi hij d => by rw [hs₁.a i hi, if_neg hij]
  have hkeep : ∀ d < s.r, s.piv d ≠ j → s₁.IsPivot d (s₁.piv d) :=
    fun d hd hdj => by
      rw [hs₁.piv]
      exact hs₁.isPivot (h.pivots d hd) hdj
  rw [hcode]
  cases hp : s.pivCol j with
  | none =>
      have hfree := pivCol_eq_none h.toShape hp
      refine ⟨s₁, rfl, hs₁.n, iff_of_true ?_ ?_⟩
      · refine { toGrid := hs₁.grid, pivots := fun d hd => ?_ }
        rw [hs₁.r] at hd
        exact hkeep d hd (hfree d hd)
      · rintro ⟨c, hc, hcj, -⟩
        exact hfree c hc hcj
  | some c =>
      obtain ⟨hc, hcj⟩ := pivCol_eq_some h.toShape hp
      have hexc : s₁.PivotsExcept c := by
        intro d hd hdc
        rw [hs₁.r] at hd
        exact hkeep d hd fun he => hdc (h.piv_inj hd hc (he.trans hcj.symm))
      rcases reselectPrincipalRow_spec hs₁.grid (c := c) (hs₁.r ▸ hc) (-1) with
        ⟨p, hpn, -, hAp, s', hok, hs'⟩ | ⟨hcol, hok⟩
      · -- another row of the column becomes principal
        refine ⟨s', by simp only [hok, ok_bind, pure_eq_ok], hs'.n.trans hs₁.n,
          iff_of_true (hs'.repInv hs₁.grid hexc (hs₁.r ▸ hc) hpn hAp) ?_⟩
        rintro ⟨d, hd, hdj, hsole⟩
        obtain rfl := h.piv_inj hd hc (hdj.trans hcj.symm)
        have hpj : p ≠ j := by
          rintro rfl
          exact hAp (hzero d)
        rw [hother p (hs₁.n ▸ hpn) hpj] at hAp
        exact hAp (hsole p (hs₁.n ▸ hpn) hpj)
      · -- the column is left without a one
        refine ⟨s₁, by simp only [hok, ok_bind, pure_eq_ok], hs₁.n,
          iff_of_false (fun hrep => ?_) (not_not.mpr ⟨c, hc, hcj, ?_⟩)⟩
        · have hone := (hrep.pivots c (hs₁.r ▸ hc)).self (hs₁.r ▸ hc)
          rw [hs₁.piv, hcj, hzero] at hone
          exact absurd hone zero_ne_one
        · intro i hi hij
          rw [← hother i hi hij]
          exact hcol i (hs₁.n ▸ hi) (by omega)

/-- A one-qubit state whose only row has been cleared: both columns hit `|0⟩`. -/
theorem den_cleared {s : AffineState} (hn : s.n = 1) (hr : s.r = 1)
    (hA : s.A.entry 0 0 = 0) (hb : s.b.entry 0 = 0) (hQ : s.Q.entry 0 0 = 0)
    (hphase : s.phase = 0) (y : ℕ → Bool) :
    s.den y = if y 0 then 0 else invSqrt2 * 2 := by
  have hpow : (range 1).powerset = {∅, {0}} := by decide
  have hhits : ∀ X ∈ (range 1).powerset, s.Hits y X ↔ y 0 = false := by
    intro X hX
    have hrow : s.rowVal X 0 = 0 := by
      rw [hpow, mem_insert, mem_singleton] at hX
      rcases hX with rfl | rfl
      · simp [rowVal, hb]
      · simp [rowVal, hb, hA]
    simp only [Hits, hn, Nat.lt_one_iff, forall_eq, hrow]
    cases y 0 <;> simp
  have hquad : ∀ X ∈ (range 1).powerset, quad s.Q.entry X = 0 := by
    intro X hX
    rw [hpow, mem_insert, mem_singleton] at hX
    rcases hX with rfl | rfl
    · exact quad_empty _
    · simp [quad, hQ]
  have hsum : expansion s.r s.Q.entry (fun X => if s.Hits y X then 1 else 0) =
      ∑ _X ∈ (range 1).powerset, if y 0 = false then 1 else 0 := by
    rw [expansion, hr]
    refine sum_congr rfl fun X hX => ?_
    rw [hquad X hX, pow_zero, one_mul]
    exact if_congr (hhits X hX) rfl rfl
  rw [den, hsum, hr, hphase, sum_const, card_powerset, card_range]
  cases y 0 <;> simp

/-- So it is `√2 |0⟩`, no unit vector. -/
theorem norm_cleared {s : AffineState} (hn : s.n = 1) (hr : s.r = 1)
    (hA : s.A.entry 0 0 = 0) (hb : s.b.entry 0 = 0) (hQ : s.Q.entry 0 0 = 0)
    (hphase : s.phase = 0) : ∑ x : Fin 1 → Bool, ‖s.den (pad x)‖ ^ 2 ≠ 1 := by
  simp only [den_cleared hn hr hA hb hQ hphase]
  rw [← (Equiv.funUnique (Fin 1) Bool).symm.sum_comp, Fintype.sum_bool]
  norm_num [pad, mul_pow, norm_invSqrt2_sq]

/-- `H` on `|0⟩` and then `CX` of the qubit with itself. -/
theorem CX_self_plus : ∃ plus cleared, (init 1).H 0 = .ok plus ∧
    plus.CX 0 0 = .ok cleared ∧ plus.SolePivot 0 ∧
    ∑ x : Fin 1 → Bool, ‖cleared.den (pad x)‖ ^ 2 ≠ 1 := by
  refine ⟨_, _, rfl, rfl, ⟨0, Nat.one_pos, rfl, fun i hi hne => ?_⟩,
    norm_cleared rfl rfl rfl rfl rfl rfl⟩
  exact absurd (Nat.lt_one_iff.mp hi) hne

end AffineState

/-! ## Equal targets on the backends -/

/-- Equal targets fail a check that throws. -/
theorem Qpp.applyChecks_repeated (n : ℕ) (U : CMat) {target : List ℕ}
    (hd : ¬ target.Nodup) :
    ∃ msg, Qpp.applyChecks n U target = .error (.thrown msg) := by
  have hbad : ¬ (target.Nodup ∧ ∀ t ∈ target, t < n) := fun h => hd h.1
  rw [Qpp.applyChecks, if_pos hbad]
  split_ifs <;> exact ⟨_, rfl⟩

namespace QState

/-- The gate is a `CNOT` that clears the only row of a pivot column. -/
def Loses (st : QState) (kind : QGateKind) (targets : List ℕ) : Prop :=
  kind = .CNOT ∧ ∃ s j, st = stab s ∧ targets = [j, j] ∧ s.psi.SolePivot j

theorem Loses.not_nodup {st : QState} {kind : QGateKind} {targets : List ℕ}
    (h : st.Loses kind targets) : ¬ targets.Nodup := by
  obtain ⟨-, s, j, -, rfl, -⟩ := h
  simp

/-- A built-in gate with one target twice. -/
theorem apply_repeated {st : QState} (h : st.WellFormed) {kind : QGateKind}
    (harity : kind.arity = 2) {j : ℕ} (hj : j < st.numQubits) :
    (∃ msg, st.apply (.builtin kind) [j, j] = .error (.thrown msg)) ∧
        ¬ st.Loses kind [j, j] ∨
      ∃ st', st.apply (.builtin kind) [j, j] = .ok st' ∧
        (st'.WellFormed ↔ ¬ st.Loses kind [j, j]) := by
  have hk : kind ≠ .Custom := by
    rintro rfl
    cases harity
  obtain ⟨U, hU, hunit⟩ := QGate.builtin_unitary hk
  have hd : ¬ ([j, j] : List ℕ).Nodup := by simp
  have hdim : ¬ (U.rows ≠ 2 ^ ([j, j] : List ℕ).length ∨
      U.cols ≠ 2 ^ ([j, j] : List ℕ).length) := by
    rw [hunit.rows, hunit.cols, harity]
    simp
  cases st with
  | ket psi =>
      obtain ⟨msg, hmsg⟩ := Qpp.applyChecks_repeated psi.n U hd
      refine .inl ⟨⟨msg, ?_⟩, ?_⟩
      · simp only [apply, QStateKet.apply, hU, ok_bind, if_neg hdim, Ket.apply, hmsg]
        rfl
      · rintro ⟨-, s, _, hs, -⟩
        cases hs
  | dm rho =>
      obtain ⟨msg, hmsg⟩ := Qpp.applyChecks_repeated rho.n U hd
      refine .inl ⟨⟨msg, ?_⟩, ?_⟩
      · simp only [apply, QStateDM.apply, hU, ok_bind, if_neg hdim, DM.apply, hmsg]
        rfl
      · rintro ⟨-, s, _, hs, -⟩
        cases hs
  | stab s =>
      have hrep : s.psi.RepInv := h.psi
      have hjn : j < s.psi.n := h.n.symm ▸ hj
      have hlift : ∀ {psi' : AffineState},
          QStateStab.apply2 s.psi j j kind = .ok psi' → psi'.n = s.psi.n →
          (psi'.RepInv ↔ ¬ (stab s).Loses kind [j, j]) →
          ∃ st', (stab s).apply (.builtin kind) [j, j] = .ok st' ∧
            (st'.WellFormed ↔ ¬ (stab s).Loses kind [j, j]) := by
        intro psi' hok hn hiff
        refine ⟨stab { s with psi := psi' }, ?_, ?_⟩
        · simp only [apply, QStateStab.apply, QGate.builtin, if_neg hk, hok, ok_bind]
          rfl
        · exact Iff.trans ⟨fun hst => Stab.RepInv.psi hst,
            fun hpsi => Stab.RepInv.mk hpsi (hn.trans h.n)⟩ hiff
      have hother : kind ≠ .CNOT → ¬ (stab s).Loses kind [j, j] :=
        fun hne hl => hne hl.1
      refine .inr ?_
      cases kind with
      | CNOT =>
          obtain ⟨psi', hok, hn, hiff⟩ := AffineState.CX_self hrep hjn
          refine hlift hok hn (hiff.trans (not_congr ⟨fun hs => ?_, ?_⟩))
          · exact ⟨rfl, s, j, rfl, rfl, hs⟩
          · rintro ⟨-, s', j', hs, hjj, hsole⟩
            cases hs
            cases hjj
            exact hsole
      | CZ =>
          obtain ⟨psi', hok, ha⟩ := AffineState.CZ_spec hrep hjn hjn
          exact hlift hok ha.n (iff_of_true ha.repInv (hother (by decide)))
      | SWAP =>
          obtain ⟨psi', hok, ha⟩ := AffineState.SWAP_spec hrep hjn hjn
          exact hlift hok ha.n (iff_of_true ha.repInv (hother (by decide)))
      | Custom => cases harity
      | I => cases harity
      | H => cases harity
      | X => cases harity
      | Y => cases harity
      | Z => cases harity
      | S => cases harity
      | SDG => cases harity

/-- A built-in gate on as many targets as its arity. -/
theorem apply_builtin {st : QState} (h : st.WellFormed) {kind : QGateKind}
    (hk : kind ≠ .Custom) {targets : List ℕ} (hlen : targets.length = kind.arity)
    (hlt : ∀ t ∈ targets, t < st.numQubits) :
    (∃ msg, st.apply (.builtin kind) targets = .error (.thrown msg)) ∧
        ¬ st.Loses kind targets ∨
      ∃ st', st.apply (.builtin kind) targets = .ok st' ∧
        (st'.WellFormed ↔ ¬ st.Loses kind targets) := by
  by_cases hd : targets.Nodup
  · obtain ⟨U, hU⟩ := accepts_builtin st.backend hk
    rw [← hlen] at hU
    have hne : targets ≠ [] := by
      rintro rfl
      cases kind <;> first | exact hk rfl | cases hlen
    obtain ⟨st', hok, hwf, -⟩ := apply_ok h hU hne hd hlt
    exact .inr ⟨st', hok, iff_of_true hwf fun hl => hl.not_nodup hd⟩
  · have hcases : kind.arity = 1 ∨ kind.arity = 2 := by
      cases kind <;> simp [QGateKind.arity]
    rcases hcases with h1 | h2
    · obtain ⟨q, rfl⟩ := List.length_eq_one_iff.mp (hlen.trans h1)
      exact absurd (List.nodup_singleton q) hd
    · obtain ⟨a, b, rfl⟩ := List.length_eq_two.mp (hlen.trans h2)
      obtain rfl : a = b := by simpa using hd
      exact apply_repeated h h2 (hlt a List.mem_cons_self)

/-- A built-in gate goes through on as many targets as its arity only. -/
theorem length_of_apply {st st' : QState} {kind : QGateKind} (hk : kind ≠ .Custom)
    {targets : List ℕ} (h : st.apply (.builtin kind) targets = .ok st') :
    targets.length = kind.arity := by
  obtain ⟨U, hU, hunit⟩ := QGate.builtin_unitary hk
  have hrows : U.rows = 2 ^ targets.length → targets.length = kind.arity :=
    fun he => Nat.pow_right_injective le_rfl (he.symm.trans hunit.rows)
  cases st with
  | ket psi =>
      obtain ⟨_, hpsi, -⟩ := map_eq_ok.mp h
      obtain ⟨V, hV, hpsi⟩ := bind_eq_ok.mp hpsi
      obtain rfl := Except.ok.inj (hU.symm.trans hV)
      dsimp only at hpsi
      split_ifs at hpsi with hdim
      · obtain ⟨_, habort, _⟩ := bind_eq_ok.mp hpsi
        cases habort
      · exact hrows (not_not.mp (not_or.mp hdim).1)
  | dm rho =>
      obtain ⟨_, hrho, -⟩ := map_eq_ok.mp h
      obtain ⟨V, hV, hrho⟩ := bind_eq_ok.mp hrho
      obtain rfl := Except.ok.inj (hU.symm.trans hV)
      dsimp only at hrho
      split_ifs at hrho with hdim
      · obtain ⟨_, habort, _⟩ := bind_eq_ok.mp hrho
        cases habort
      · exact hrows (not_not.mp (not_or.mp hdim).1)
  | stab s =>
      obtain ⟨_, hs, -⟩ := map_eq_ok.mp h
      unfold QStateStab.apply at hs
      rw [if_neg (show (QGate.builtin kind).kind ≠ .Custom from hk)] at hs
      split at hs
      · obtain ⟨_, hs, -⟩ := bind_eq_ok.mp hs
        cases kind <;> first | rfl | cases hs
      · obtain ⟨_, hs, -⟩ := bind_eq_ok.mp hs
        cases kind <;> first | rfl | cases hs
      · cases hs

/-- The matrix of a gate object matters for custom gates only. -/
theorem apply_kind (st : QState) {gate : QGate} (hk : gate.kind ≠ .Custom)
    (targets : List ℕ) :
    st.apply gate targets = st.apply (.builtin gate.kind) targets := by
  have hmat : gate.matrix = (QGate.builtin gate.kind).matrix := by
    rw [QGate.matrix, if_neg hk]
    exact (if_neg hk).symm
  cases st with
  | ket psi => simp only [apply, QStateKet.apply, hmat]
  | dm rho => simp only [apply, QStateDM.apply, hmat]
  | stab s => rfl

/-- A unitary custom gate keeps every state well formed. -/
theorem apply_custom {st st' : QState} (h : st.WellFormed) {gate : QGate}
    (hk : gate.kind = .Custom) {targets : List ℕ}
    (hU : ∀ U, gate.matrix = .ok U → U.Unitary targets.length)
    (hok : st.apply gate targets = .ok st') : st'.WellFormed := by
  cases st with
  | ket psi =>
      obtain ⟨psi', hpsi, rfl⟩ := map_eq_ok.mp hok
      obtain ⟨U, hmat, hd, hlt, -, -⟩ := QStateKet.of_apply hpsi
      obtain ⟨psi'', hpsi', -, -, hnorm⟩ := QStateKet.apply_ok hmat (hU U hmat)
        (QStateKet.of_apply_ne_nil hpsi) hd hlt
      obtain rfl := Except.ok.inj (hpsi.symm.trans hpsi')
      exact hnorm.trans h
  | dm rho =>
      obtain ⟨rho', hrho, rfl⟩ := map_eq_ok.mp hok
      obtain ⟨U, hmat, hd, hlt, -, -⟩ := QStateDM.of_apply hrho
      have hunit := hU U hmat
      have hne : targets ≠ [] := by
        rintro rfl
        simp only [QStateDM.apply, hmat, ok_bind, hunit.rows, hunit.cols, DM.apply,
          Qpp.applyChecks_nil] at hrho
        cases hrho
      obtain ⟨rho'', hrho', -, hvalid, -⟩ := QStateDM.apply_ok h hmat hunit hne hd hlt
      obtain rfl := Except.ok.inj (hrho.symm.trans hrho')
      exact hvalid
  | stab s =>
      obtain ⟨_, hs, -⟩ := map_eq_ok.mp hok
      unfold QStateStab.apply at hs
      rw [if_pos hk] at hs
      cases hs

/-- Well-formed states that cannot be merged make the call throw. -/
theorem mergeDisjoint_thrown {st other : QState} (h : st.WellFormed)
    (ho : other.WellFormed) {e : Exit} (he : st.mergeDisjoint other = .error e) :
    ∃ msg, e = .thrown msg := by
  by_cases hb : st.backend = other.backend
  · obtain ⟨_, hok, -⟩ := mergeDisjoint_ok h ho hb
    rw [hok] at he
    cases he
  · cases st <;> cases other <;> first
      | exact absurd rfl hb
      | exact ⟨_, (Except.error.inj he).symm⟩

end QState

/-! ## Calls with repeated handles -/

namespace QStateRegistry

variable {w w' : QStateRegistry} {qs : List QubitPtr}

/-- The call names one qubit twice, and the backend of its state loses the
state. -/
def Damages (w : QStateRegistry) (kind : QGateKind) (qs : List QubitPtr) : Prop :=
  ∃ q p, qs = [q, q] ∧ w.states (w.qubits q).stateId = some p ∧
    (w.objects p).value.Loses kind (w.targetsOf qs)

/-- One handle is in one state. -/
theorem not_several {q : QubitPtr} (hq : ∀ x ∈ qs, x = q) {s : StateId}
    {rest : List StateId} : ¬ w.Several qs s rest := by
  intro hs
  obtain ⟨s', hs'⟩ := List.exists_mem_of_ne_nil rest hs.several
  obtain ⟨a, ha, hsa⟩ := (hs.mem s).mp List.mem_cons_self
  obtain ⟨b, hb, hsb⟩ := (hs.mem s').mp (List.mem_cons_of_mem _ hs')
  rw [hq a ha] at hsa
  rw [hq b hb, hsa] at hsb
  exact (List.nodup_cons.mp hs.nodup).1 (hsb ▸ hs')

/-- The merge makes no state lose: targets are equal for equal handles only. -/
theorem Gathered.loses_iff {p : StatePtr} (hg : w.Gathered qs w' p) (h : w.Inv)
    (hqs : ∀ q ∈ qs, q < w.numHandles) (kind : QGateKind) :
    (w'.objects p).value.Loses kind (w'.targetsOf qs) ↔ w.Damages kind qs := by
  constructor
  · intro hl
    have hd : ¬ qs.Nodup := fun hd => hl.not_nodup ((hg.targets h hqs).1 hd)
    obtain ⟨-, s, j, -, htargets, -⟩ := id hl
    have hlen : qs.length = 2 := by
      rw [← length_targetsOf w' qs, htargets]
      rfl
    obtain ⟨a, b, rfl⟩ := List.length_eq_two.mp hlen
    obtain rfl : a = b := by simpa using hd
    cases hg with
    | same hall hp => exact ⟨a, p, rfl, hall a List.mem_cons_self ▸ hp, hl⟩
    | several hs hv => exact absurd hs (not_several (q := a) (by simp))
  · rintro ⟨q, p', rfl, hp', hl⟩
    cases hg with
    | same hall hp =>
        rw [hall q List.mem_cons_self, hp, Option.some.injEq] at hp'
        exact hp'.symm ▸ hl
    | several hs hv => exact absurd hs (not_several (q := q) (by simp))

/-- A gate that loses no state keeps them well formed, whatever its targets. -/
theorem Inv.undamaged_appliesOk (h : w.Inv) {gate : QGate}
    (hqs : ∀ q ∈ qs, q < w.numHandles)
    (hU : gate.kind = .Custom → ∀ U, gate.matrix = .ok U → U.Unitary qs.length)
    (hd : ¬ w.Damages gate.kind qs) :
    AppliesOk QState.WellFormed w gate qs := by
  intro w' p v hg hwf hv
  by_cases hk : gate.kind = .Custom
  · refine QState.apply_custom hwf hk (fun U hmat => ?_) hv
    rw [length_targetsOf]
    exact hU hk U hmat
  · rw [QState.apply_kind _ hk] at hv
    rcases QState.apply_builtin hwf hk (QState.length_of_apply hk hv)
      (hg.targets h hqs).2 with ⟨⟨msg, he⟩, -⟩ | ⟨v', hok, hiff⟩
    · rw [hv] at he
      cases he
    · obtain rfl := Except.ok.inj (hv.symm.trans hok)
      exact hiff.mpr fun hl => hd ((hg.loses_iff h hqs gate.kind).mp hl)

theorem mergeValues_thrown {u : QState} {vs : List QState} (hu : u.WellFormed)
    (hvs : ∀ v ∈ vs, v.WellFormed) {e : Exit} (he : mergeValues u vs = .error e) :
    ∃ msg, e = .thrown msg := by
  induction vs generalizing u with
  | nil => cases he
  | cons v vs ih =>
      rw [mergeValues, List.foldlM_cons] at he
      cases hm : u.mergeDisjoint v with
      | error e' =>
          rw [hm] at he
          obtain rfl := Except.error.inj he
          exact QState.mergeDisjoint_thrown hu (hvs v List.mem_cons_self) hm
      | ok m =>
          rw [hm] at he
          exact ih (wellFormed_closed.merge hu (hvs v List.mem_cons_self) hm)
            (fun x hx => hvs x (List.mem_cons_of_mem _ hx)) he

/-- The call has ended with an exception. -/
def Threw {α : Type} (res : Except Exit α) : Prop := ∃ msg, res = .error (.thrown msg)

theorem setValue_value (w : QStateRegistry) (p : StatePtr) (v : QState) :
    ((w.setValue p v).objects p).value = v := by
  have hself : (w.setValue p v).objects p = { w.objects p with value := v } :=
    Function.update_self _ _ _
  rw [hself]

/-- How a built-in gate ends on local handles. -/
theorem Inv.apply_builtin_ends (h : w.Inv) (hall : AllStates QState.WellFormed w)
    {node : NodeId} {kind : QGateKind} (hk : kind ≠ .Custom)
    (hlen : qs.length = kind.arity)
    (hlocal : ∀ q ∈ qs, q < w.numHandles ∧ w.IsLocal node q) :
    (Threw (w.apply node (.builtin kind) qs).1 ∧ ¬ w.Damages kind qs ∧
        globalOf QState.kernel (w.apply node (.builtin kind) qs).2 =
          globalOf QState.kernel w) ∨
      ∃ w', w.apply node (.builtin kind) qs = (.ok true, w') ∧
        (AllStates QState.WellFormed w' ↔ ¬ w.Damages kind qs) := by
  have hqs : ∀ q ∈ qs, q < w.numHandles := fun q hq => (hlocal q hq).1
  rcases h.apply_cases node (.builtin kind) qs with ⟨hbad, -⟩ | ⟨-,
    ⟨s, rest, e, hs, he, hcall⟩ | ⟨w₁, p, hg, -, hcases⟩⟩
  · rcases hbad with hnil | ⟨q, hq, hnull | hno⟩
    · rw [hnil] at hlen
      cases kind <;> first | exact absurd rfl hk | cases hlen
    · exact absurd (hqs q hq) (not_lt.mpr hnull)
    · exact absurd (hlocal q hq).2 hno
  · -- the states cannot be merged
    have hreg := hs.registered h hqs
    obtain ⟨msg, rfl⟩ := mergeValues_thrown
      (hall.valueOf (hreg s List.mem_cons_self)) (fun v hv => by
        obtain ⟨s', hs', rfl⟩ := List.mem_map.mp hv
        exact hall.valueOf (hreg s' (List.mem_cons_of_mem _ hs'))) he
    rw [hcall]
    refine .inl ⟨⟨msg, rfl⟩, ?_, rfl⟩
    rintro ⟨q, p, rfl, -⟩
    exact not_several (q := q) (by simp) hs
  · have hall₁ := hg.allStates h hqs wellFormed_closed hall
    obtain ⟨s, hp, -⟩ := hg.home h hqs
    have hloses := hg.loses_iff h hqs kind
    rcases QState.apply_builtin (hall₁ s p hp) hk
      ((length_targetsOf w₁ qs).trans hlen) (hg.targets h hqs).2 with
      ⟨⟨msg, he⟩, hno⟩ | ⟨v, hok, hiff⟩
    · rcases hcases with ⟨e, he', hcall⟩ | ⟨v, hv, -⟩
      · obtain rfl := Except.error.inj (he.symm.trans he')
        rw [hcall]
        exact .inl ⟨⟨msg, rfl⟩, fun hd => hno (hloses.mpr hd),
          hg.globalOf h hqs kernelReading hall⟩
      · rw [hv] at he
        cases he
    · rcases hcases with ⟨e, he', -⟩ | ⟨v', hv, hcall⟩
      · rw [hok] at he'
        cases he'
      · obtain rfl := Except.ok.inj (hok.symm.trans hv)
        refine .inr ⟨_, hcall, ?_⟩
        rw [← hloses, ← hiff]
        refine ⟨fun hall' => ?_, fun hwf => hall₁.setValue hwf p⟩
        have hwf := hall' s p hp
        rwa [setValue_value] at hwf

/-- A call whose handles are all the same one reaches the backend. -/
theorem Inv.apply_same (h : w.Inv) {node : NodeId} {gate : QGate} {q : QubitPtr}
    (hne : qs ≠ []) (hall : ∀ x ∈ qs, x = q)
    (hlocal : q < w.numHandles ∧ w.IsLocal node q) {p : StatePtr}
    (hp : w.states (w.qubits q).stateId = some p) {v : QState}
    (hok : (w.objects p).value.apply gate (w.targetsOf qs) = .ok v) :
    w.apply node gate qs = (.ok true, w.setValue p v) := by
  rcases h.apply_cases node gate qs with ⟨hbad, -⟩ | ⟨-,
    ⟨s, rest, e, hs, -, -⟩ | ⟨w₁, p₁, hg, -, hcases⟩⟩
  · rcases hbad with hnil | ⟨x, hx, hno⟩
    · exact absurd hnil hne
    · rw [hall x hx] at hno
      exact absurd hlocal (by rw [← not_lt] at hno; tauto)
  · exact absurd hs (not_several hall)
  · obtain ⟨x, hx⟩ := List.exists_mem_of_ne_nil qs hne
    cases hg with
    | several hs hv => exact absurd hs (not_several hall)
    | same hsame hp₁ =>
        have hid := hsame x hx
        rw [hall x hx] at hid
        rw [← hid, hp, Option.some.injEq] at hp₁
        subst hp₁
        rcases hcases with ⟨e, he, -⟩ | ⟨v', hv, hcall⟩
        · rw [hok] at he
          cases he
        · rw [hok, Except.ok.injEq] at hv
          rw [hcall, hv]

/-- A built-in gate on one local qubit. -/
theorem Inv.apply_one (h : w.Inv) (hall : AllStates QState.WellFormed w)
    {node : NodeId} {kind : QGateKind} (hk : kind ≠ .Custom) (harity : kind.arity = 1)
    {q : QubitPtr} (hlocal : q < w.numHandles ∧ w.IsLocal node q) :
    ∃ w', w.apply node (.builtin kind) [q] = (.ok true, w') ∧ w.Keeps w' ∧
      AllStates QState.WellFormed w' ∧ ∀ x, w'.getLocation x = w.getLocation x := by
  obtain ⟨p, hp⟩ := Option.ne_none_iff_exists'.mp (h.states_of_handle hlocal.1)
  have hidx := h.index_lt hlocal.1
  rw [valueOf, hp] at hidx
  obtain ⟨U, hU⟩ := QState.accepts_builtin (w.objects p).value.backend hk
  rw [harity] at hU
  obtain ⟨v, hv, -⟩ := @QState.apply_ok _ (hall _ p hp) _ U (w.targetsOf [q]) hU
    (List.cons_ne_nil _ _) (List.nodup_singleton _) (by simpa [targetsOf] using hidx)
  have hcall := h.apply_same (List.cons_ne_nil q []) (by simp) hlocal hp hv
  have hkeeps := h.apply_keeps node (.builtin kind) [q]
  have hgate : AppliesOk QState.WellFormed w (.builtin kind) [q] :=
    wellFormed_closed.appliesOk h hk harity.symm (List.nodup_singleton q)
      (by simpa using hlocal.1)
  have hwf := h.apply_allStates wellFormed_closed hall node hgate
  have hloc := h.apply_getLocation node (.builtin kind) [q]
  rw [hcall] at hkeeps hwf hloc
  exact ⟨_, hcall, hkeeps, hwf, hloc⟩

/-- A measurement of a local qubit. -/
theorem Inv.measure_ends (h : w.Inv) (hall : AllStates QState.WellFormed w)
    {node : NodeId} {q : QubitPtr} (hlocal : q < w.numHandles ∧ w.IsLocal node q)
    (basis : Basis) (draw : Bool) :
    ∃ (m : Bool) (w' : QStateRegistry),
      w.measure node q basis draw = (.ok m.toNat, w') ∧ w.Keeps w' ∧
      AllStates QState.WellFormed w' ∧ ∀ x, w'.getLocation x = w.getLocation x := by
  have hkeeps := h.measure_keeps node q basis draw
  have hwf := h.measure_allStates wellFormed_closed hall node q basis draw
  have hloc := h.measure_getLocation node q basis draw
  rcases h.measure_cases node q basis draw with ⟨hbad, -⟩ | ⟨-, p, v, hp, -, hcases⟩
  · rcases hbad with hnull | hno
    · exact absurd hlocal.1 (not_lt.mpr hnull)
    · exact absurd hlocal.2 hno
  · have hidx := h.index_lt hlocal.1
    rw [valueOf, hp] at hidx
    obtain ⟨r, v', hr, -⟩ := QState.measure_ok (hall _ p hp) hidx basis draw
    rcases hcases with ⟨e, he, -⟩ | ⟨r', -, -, -, hcall⟩
    · exact absurd (congrArg Prod.fst (hr.symm.trans he)) (by simp)
    · rw [hcall] at hkeeps hwf hloc
      exact ⟨r'.outcome, _, hcall, hkeeps, hwf, hloc⟩

/-! ## Runs -/

/-- What a caller hands over is sound, and no call damages a state: user states
are well formed, and custom gates are unitary. -/
def Undamaged (w : QStateRegistry) : Op → Prop
  | .createQubitFrom _ p => p < w.numObjects → (w.objects p).value.WellFormed
  | .apply _ gate qs =>
      (gate.kind = .Custom → ∀ U, gate.matrix = .ok U → U.Unitary qs.length) ∧
        ¬ w.Damages gate.kind qs
  | .measureBell _ a b _ _ => ¬ w.Damages .CNOT [a, b]
  | _ => True

theorem Inv.step_wellFormed (h : w.Inv) (hall : AllStates QState.WellFormed w) {op : Op}
    (hfresh : w.AdoptsFresh op) (hop : w.Undamaged op) (hs : w.step op = some w') :
    AllStates QState.WellFormed w' := by
  have hcreate : ∀ {n : ℕ}, n ≠ 0 → ∀ v, QState.create n w.defaultBackend =
      .ok v → v.WellFormed := by
    intro n hn v hv
    obtain ⟨v', hok, hwf, -⟩ := QState.create_ok hn w.defaultBackend
    rw [hv, Except.ok.injEq] at hok
    exact hok ▸ hwf
  have hstep : OpOk QState.WellFormed w op → AllStates QState.WellFormed w' :=
    fun hok => h.step_allStates wellFormed_closed hall hfresh hok hs
  -- `step` only returns the registry that `exec` leaves
  have hsame : (w.exec op).2 = w → AllStates QState.WellFormed w' := by
    intro he
    unfold step at hs
    split at hs
    · cases hs
    · next w'' hno heq =>
        rw [heq] at he
        rw [← Option.some.inj hs, show w'' = w from he]
        exact hall
  cases op with
  | createQubit node => exact hstep fun v hv => hcreate one_ne_zero v hv
  | createBellPair node => exact hstep fun v hv => hcreate two_ne_zero v hv
  | createQubitFrom node p => exact hstep hop
  | apply node gate qs =>
      by_cases hqs : ∀ q ∈ qs, q < w.numHandles
      · exact hstep (h.undamaged_appliesOk hqs hop.1 hop.2)
      · push Not at hqs
        obtain ⟨q, hq, hnull⟩ := hqs
        refine hsame ?_
        change (w.apply node gate qs).2 = w
        rw [apply, if_neg (List.ne_nil_of_mem hq), if_pos ⟨q, hq, .inl hnull⟩]
  | measureBell node a b drawA drawB =>
      by_cases hqs : ∀ q ∈ [a, b], q < w.numHandles
      · have hgate : AppliesOk QState.WellFormed w (.builtin .CNOT) [a, b] :=
          h.undamaged_appliesOk hqs (fun hk => by cases hk) hop
        exact hstep hgate
      · refine hsame ?_
        change (w.measureBell node a b drawA drawB).2 = w
        rw [measureBell, if_pos (by simpa [imp_iff_not_or] using hqs)]
  | newState value => exact hstep trivial
  | setDefaultBackend b => exact hstep trivial
  | measure node q basis draw => exact hstep trivial
  | adoptQubit node q => exact hstep trivial
  | setLocationNode q node => exact hstep trivial
  | setLocationChannel q c => exact hstep trivial
  | setLocationLost q => exact hstep trivial

theorem reachable_undamaged
    (h : Reachable (fun w op => w.AdoptsFresh op ∧ w.Undamaged op) w) :
    w.Inv ∧ AllStates QState.WellFormed w := by
  refine h.invariant (I := fun w => w.Inv ∧ AllStates QState.WellFormed w) ?_
    ⟨inv_empty, fun _ _ hp => by cases hp⟩
  rintro w op w' ⟨hinv, hall⟩ ⟨hfresh, hop⟩ hs
  exact ⟨(hinv.step_keeps hfresh hs).inv, hinv.step_wellFormed hall hfresh hop hs⟩

/-! ## No call corrupts a state -/

/-- A call has reported failure and left the global state alone, or it has
succeeded and every registered state is consistent and normalised. -/
def Uncorrupted (w w' : QStateRegistry) (failed succeeded : Prop) : Prop :=
  failed ∧ globalOf QState.kernel w' = globalOf QState.kernel w ∨
    succeeded ∧
      AllStates (fun v => v.WellFormed ∧ trace v.numQubits v.kernel = 1) w'

/-- `Apply` with a built-in gate. -/
def ApplySafe (w : QStateRegistry) (node : NodeId) (kind : QGateKind)
    (qs : List QubitPtr) : Prop :=
  w.Uncorrupted (w.apply node (.builtin kind) qs).2
    ((w.apply node (.builtin kind) qs).1 = .ok false ∨
      Threw (w.apply node (.builtin kind) qs).1)
    ((w.apply node (.builtin kind) qs).1 = .ok true)

/-- `MeasureBell`. -/
def BellSafe (w : QStateRegistry) (node : NodeId) (a b : QubitPtr)
    (drawA drawB : Bool) : Prop :=
  w.Uncorrupted (w.measureBell node a b drawA drawB).2
    ((w.measureBell node a b drawA drawB).1 = .ok (-1, -1) ∨
      Threw (w.measureBell node a b drawA drawB).1)
    (∃ m1 m2 : Bool,
      (w.measureBell node a b drawA drawB).1 = .ok (m1.toNat, m2.toNat))

theorem AllStates.normalised (h : AllStates QState.WellFormed w) :
    AllStates (fun v => v.WellFormed ∧ trace v.numQubits v.kernel = 1) w :=
  fun s p hp => ⟨h s p hp, QState.trace_kernel (h s p hp)⟩

theorem Inv.applySafe_iff (h : w.Inv) (hall : AllStates QState.WellFormed w)
    {node : NodeId} {kind : QGateKind} (hk : kind ≠ .Custom)
    (hlen : qs.length = kind.arity)
    (hlocal : ∀ q ∈ qs, q < w.numHandles ∧ w.IsLocal node q) :
    w.ApplySafe node kind qs ↔ ¬ w.Damages kind qs := by
  rcases h.apply_builtin_ends hall hk hlen hlocal with
    ⟨hthrew, hno, hglobal⟩ | ⟨w', hcall, hiff⟩
  · exact iff_of_true (.inl ⟨.inr hthrew, hglobal⟩) hno
  · rw [ApplySafe, hcall, ← hiff]
    constructor
    · rintro (⟨hfalse | ⟨msg, hmsg⟩, -⟩ | ⟨-, hwf⟩)
      · cases hfalse
      · cases hmsg
      · exact fun s p hp => (hwf s p hp).1
    · exact fun hwf => .inr ⟨rfl, hwf.normalised⟩

/-- The three calls that follow an undamaged `CNOT` go through. -/
theorem Inv.bellSafe (h : w.Inv) (hall : AllStates QState.WellFormed w)
    {node : NodeId} {a b : QubitPtr} (drawA drawB : Bool)
    (hlocal : ∀ q ∈ [a, b], q < w.numHandles ∧ w.IsLocal node q)
    (hd : ¬ w.Damages .CNOT [a, b]) : w.BellSafe node a b drawA drawB := by
  have hkeeps := h.apply_keeps node (.builtin .CNOT) [a, b]
  have hloc := h.apply_getLocation node (.builtin .CNOT) [a, b]
  have hcnot : QGateKind.CNOT ≠ .Custom := by decide
  have hH : QGateKind.H ≠ .Custom := by decide
  rcases h.apply_builtin_ends hall hcnot rfl hlocal with
    ⟨⟨msg, hmsg⟩, -, hglobal⟩ | ⟨w₁, hok₁, hiff⟩
  · -- `CNOT` throws, and so does `MeasureBell`
    have hbell : w.measureBell node a b drawA drawB =
        (.error (.thrown msg), (w.apply node (.builtin .CNOT) [a, b]).2) := by
      obtain ⟨ha, hla⟩ := hlocal a List.mem_cons_self
      obtain ⟨hb, hlb⟩ := hlocal b (List.mem_cons_of_mem _ List.mem_cons_self)
      have hfound : ∀ {q}, w.IsLocal node q → w.getLocation q ≠ .lost :=
        fun hl he => by
          rw [IsLocal, he] at hl
          cases hl
      rw [measureBell, if_neg (not_or.mpr ⟨not_le.mpr ha, not_le.mpr hb⟩),
        if_neg (hfound hla), if_neg (hfound hlb),
        if_neg (not_or.mpr ⟨not_not.mpr hla, not_not.mpr hlb⟩)]
      rw [show w.apply node (.builtin .CNOT) [a, b] =
        (.error (.thrown msg), (w.apply node (.builtin .CNOT) [a, b]).2) from
          Prod.ext hmsg rfl, andThen]
    rw [BellSafe, hbell]
    exact .inl ⟨.inr ⟨msg, rfl⟩, hglobal⟩
  · rw [hok₁] at hkeeps hloc
    have hat : ∀ q ∈ [a, b], ∀ {w₂ : QStateRegistry}, w.numHandles ≤ w₂.numHandles →
        (∀ x, w₂.getLocation x = w.getLocation x) →
        q < w₂.numHandles ∧ w₂.IsLocal node q := fun q hq w₂ hnum hsame =>
      ⟨(hlocal q hq).1.trans_le hnum, (hsame q).trans (hlocal q hq).2⟩
    have ha : a ∈ [a, b] := List.mem_cons_self
    have hb : b ∈ [a, b] := List.mem_cons_of_mem _ List.mem_cons_self
    obtain ⟨w₂, hok₂, hk₂, hall₂, hloc₂⟩ := hkeeps.inv.apply_one (hiff.mpr hd) hH rfl
      (hat a ha hkeeps.evolves.handles hloc)
    have hk₂' := hkeeps.trans hk₂
    have hloc₂' : ∀ x, w₂.getLocation x = w.getLocation x :=
      fun x => (hloc₂ x).trans (hloc x)
    obtain ⟨m1, w₃, hok₃, hk₃, hall₃, hloc₃⟩ := hk₂'.inv.measure_ends hall₂
      (hat a ha hk₂'.evolves.handles hloc₂') .Z drawA
    have hk₃' := hk₂'.trans hk₃
    obtain ⟨m2, w₄, hok₄, -, hall₄, -⟩ := hk₃'.inv.measure_ends hall₃
      (hat b hb hk₃'.evolves.handles fun x => (hloc₃ x).trans (hloc₂' x)) .Z drawB
    rw [BellSafe, measureBell_eq hlocal hok₁ hok₂ hok₃ hok₄]
    exact .inr ⟨⟨m1, m2, rfl⟩, hall₄.normalised⟩

/-- Registries reached by calls that damage nothing: a built-in gate on as many
local handles as its arity, however often they are repeated, corrupts a state
exactly if it is a `CNOT` of a stabilizer qubit with itself whose row is the only
one of its pivot column, and a Bell measurement corrupts none otherwise. -/
theorem repeated_handles_safe_iff
    (h : Reachable (fun w op => w.AdoptsFresh op ∧ w.Undamaged op) w)
    (node : NodeId) :
    (∀ kind qs, kind ≠ .Custom → qs.length = kind.arity →
      (∀ q ∈ qs, q < w.numHandles ∧ w.IsLocal node q) →
      (w.ApplySafe node kind qs ↔ ¬ w.Damages kind qs)) ∧
    ∀ a b drawA drawB, (∀ q ∈ [a, b], q < w.numHandles ∧ w.IsLocal node q) →
      ¬ w.Damages .CNOT [a, b] → w.BellSafe node a b drawA drawB := by
  obtain ⟨hinv, hall⟩ := reachable_undamaged h
  exact ⟨fun kind qs hk hlen hlocal => hinv.applySafe_iff hall hk hlen hlocal,
    fun a b drawA drawB hlocal hd => hinv.bellSafe hall drawA drawB hlocal hd⟩

/-- A qubit in `|+⟩` at node 0, next to another one, on the stabilizer backend. -/
theorem reachable_plus : ∃ w w',
    Reachable (fun w op => w.AdoptsFresh op ∧ w.Undamaged op) w ∧
      (∀ q ∈ [0, 1], q < w.numHandles ∧ w.IsLocal 0 q) ∧
      w.Damages .CNOT [0, 0] ∧
      w.apply 0 (.builtin .CNOT) [0, 0] = (.ok true, w') ∧
      ∃ s p, w'.states s = some p ∧
        trace (w'.objects p).value.numQubits (w'.objects p).value.kernel ≠ 1 := by
  obtain ⟨w, hrun, hinv, -, -, hlocal, -, hall⟩ := reachable_fresh_pair .Stab
    (P := fun w op => w.AdoptsFresh op ∧ w.Undamaged op) ⟨trivial, trivial⟩
    fun _ _ => ⟨trivial, trivial⟩
  obtain ⟨plus, cleared, hplus, hcleared, hsole, hden⟩ := AffineState.CX_self_plus
  have h0 := hlocal 0 List.mem_cons_self
  obtain ⟨p, hp⟩ := Option.ne_none_iff_exists'.mp (hinv.states_of_handle h0.1)
  have hv : (w.objects p).value = .stab (QStateStab.init 1) :=
    (Except.ok.inj (hall _ p hp)).symm
  have hidx : (w.qubits 0).indexInState = 0 := by
    have hlt := hinv.index_lt h0.1
    rw [valueOf, hp, Option.getD_some, hv] at hlt
    exact Nat.lt_one_iff.mp hlt
  have hH : (w.objects p).value.apply (.builtin .H) (w.targetsOf [0]) =
      .ok (.stab ⟨1, plus⟩) := by
    have htargets : w.targetsOf [0] = [0] := congrArg (fun i => [i]) hidx
    have hcode : (QStateStab.init 1).psi.H 0 = .ok plus := hplus
    rw [hv, htargets]
    simp only [QState.apply, QStateStab.apply, QStateStab.apply1, QGate.builtin, hcode]
    rfl
  have hcall := hinv.apply_same (List.cons_ne_nil 0 []) (by simp) h0 hp hH
  set w₁ := w.setValue p (.stab ⟨1, plus⟩) with hw₁
  have hop : w.Undamaged (.apply 0 (.builtin .H) [0]) := by
    refine ⟨fun hk => (by cases hk), ?_⟩
    rintro ⟨q, _, hqs, -⟩
    cases hqs
  have hs : w.step (.apply 0 (.builtin .H) [0]) = some w₁ := by
    rw [step, exec, ending, hcall]
    rfl
  have hinv₁ := (@Inv.step_keeps _ _ hinv (.apply 0 (.builtin .H) [0]) trivial hs).inv
  have hv₁ : (w₁.objects p).value = .stab ⟨1, plus⟩ := w.setValue_value p _
  have htargets : w₁.targetsOf [0, 0] = [0, 0] := congrArg (fun i => [i, i]) hidx
  have hCX : (w₁.objects p).value.apply (.builtin .CNOT) (w₁.targetsOf [0, 0]) =
      .ok (.stab ⟨1, cleared⟩) := by
    rw [hv₁, htargets]
    simp only [QState.apply, QStateStab.apply, QStateStab.apply2, QGate.builtin,
      hcleared]
    rfl
  refine ⟨w₁, _, hrun.tail ⟨.apply 0 (.builtin .H) [0], ⟨trivial, hop⟩, hs⟩, hlocal,
    ⟨0, p, rfl, hp, ?_⟩,
    hinv₁.apply_same (List.cons_ne_nil 0 [0]) (by simp) h0 hp hCX, _, p, hp, ?_⟩
  · rw [hv₁, htargets]
    exact ⟨rfl, _, 0, rfl, rfl, hsole⟩
  · rw [w₁.setValue_value, QState.kernel, trace_density]
    exact fun hone => hden (Complex.ofReal_eq_one.mp hone)

/-- `Apply` has returned `true` for a controlled not of a qubit with itself, and
the state that it leaves is no unit vector. -/
theorem cnot_with_itself_corrupts : ∃ w w',
    Reachable (fun w op => w.AdoptsFresh op ∧ w.Undamaged op) w ∧
      (∀ q ∈ [0, 0], q < w.numHandles ∧ w.IsLocal 0 q) ∧
      w.apply 0 (.builtin .CNOT) [0, 0] = (.ok true, w') ∧
      (∃ s p, w'.states s = some p ∧
        trace (w'.objects p).value.numQubits (w'.objects p).value.kernel ≠ 1) ∧
      ¬ w.ApplySafe 0 .CNOT [0, 0] := by
  obtain ⟨w, w', hrun, hlocal, -, hcall, s, p, hp, hne⟩ := reachable_plus
  refine ⟨w, w', hrun, by simpa using hlocal 0 List.mem_cons_self, hcall,
    ⟨s, p, hp, hne⟩, ?_⟩
  rw [ApplySafe, hcall]
  rintro (⟨hfalse | ⟨msg, hmsg⟩, -⟩ | ⟨-, hall⟩)
  · cases hfalse
  · cases hmsg
  · exact hne (hall s p hp).2

/-- There a controlled phase of the qubit with itself is harmless, and so is a
Bell measurement of the two qubits. -/
theorem repeated_handles_safe_plus : ∃ w : QStateRegistry,
    w.Damages .CNOT [0, 0] ∧ ¬ w.ApplySafe 0 .CNOT [0, 0] ∧
      w.ApplySafe 0 .CZ [0, 0] ∧ w.BellSafe 0 0 1 true true := by
  obtain ⟨w, w', hrun, hlocal, hd, -⟩ := reachable_plus
  have hsame : ∀ q ∈ [0, 0], q < w.numHandles ∧ w.IsLocal 0 q := by
    simpa using hlocal 0 List.mem_cons_self
  obtain ⟨happly, hbell⟩ := repeated_handles_safe_iff hrun 0
  refine ⟨w, hd, fun hs => ?_, ?_, hbell 0 1 true true hlocal ?_⟩
  · exact (happly .CNOT [0, 0] (by decide) rfl hsame).mp hs hd
  · refine (happly .CZ [0, 0] (by decide) rfl hsame).mpr ?_
    rintro ⟨q, p, -, -, hk, -⟩
    cases hk
  · rintro ⟨q, p, hqs, -⟩
    cases hqs

end QStateRegistry

end Q2NS
