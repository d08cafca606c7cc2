import Q2NS.Registry.Values
import Q2NS.RegistryInvariant

/-!
# Gates act on the global state

On registries whose states are all state vectors, `Apply` refines one operation
on the tensor product of these vectors: the matrix of the gate acts on the legs
named by the listed handles, in their order, wherever the handles were and
whatever was merged for them.
-/

namespace Q2NS.QStateRegistry

open NamedTensor Loop Finset

variable {w w' : QStateRegistry}

/-- The amplitudes of a state vector. -/
def ketAmplitudes : QState → (ℕ → Bool) → ℂ
  | .ket psi => psi.eval
  | _ => fun _ => 0

/-- State vectors are read by their amplitudes. -/
theorem ketReading : Reading (fun v => v.backend = .Ket) ketAmplitudes where
  dependsOn := fun {v} hv => by
    cases v with
    | ket psi => exact psi.eval_dependsOn
    | dm rho => cases hv
    | stab st => cases hv
  merge := fun {u v m} hu hv hm => by
    cases u with
    | dm rho => cases hu
    | stab st => cases hu
    | ket psi =>
        cases v with
        | dm rho => cases hv
        | stab st => cases hv
        | ket phi =>
            obtain ⟨k, hk, rfl⟩ := map_eq_ok.mp hm
            rw [QStateKet.of_ofKet hk]
            exact ⟨rfl, fun y => rfl⟩

/-- Qubits are created on the ket backend. -/
def OnKet (w : QStateRegistry) : Op → Prop
  | .createQubit _ => w.defaultBackend = .Ket
  | .createBellPair _ => w.defaultBackend = .Ket
  | .createQubitFrom _ p => p < w.numObjects → (w.objects p).value.backend = .Ket
  | _ => True

/-- An operation that keeps a registry on the ket backend. -/
def KetOp (w : QStateRegistry) (op : Op) : Prop :=
  w.AdoptsFresh op ∧ w.OnKet op

theorem OnKet.opOk {op : Op} (h : w.OnKet op) :
    OpOk (fun v => v.backend = .Ket) w op := by
  cases op with
  | createQubit node => exact fun v hv => (QState.create_backend hv).trans h
  | createBellPair node => exact fun v hv => (QState.create_backend hv).trans h
  | createQubitFrom node p => exact h
  | apply node gate qs =>
      exact fun w' p v _ hok hv => (QState.apply_backend hv).trans hok
  | measureBell node a b drawA drawB =>
      exact fun w' p v _ hok hv => (QState.apply_backend hv).trans hok
  | newState value => trivial
  | setDefaultBackend b => trivial
  | measure node q basis draw => trivial
  | adoptQubit node q => trivial
  | setLocationNode q node => trivial
  | setLocationChannel q c => trivial
  | setLocationLost q => trivial

theorem reachable_ket (h : Reachable KetOp w) :
    w.Inv ∧ AllStates (fun v => v.backend = .Ket) w :=
  run_allStates (backend_closed .Ket) (fun _ _ _ hop => ⟨hop.1, hop.2.opOk⟩) h
    ⟨inv_empty, fun _ _ hp => nomatch hp⟩

/-! ## Apply as one operation -/

/-- The names of the legs, without the detour over the indices. -/
theorem actOn_namesOf {β : Type} [Fintype β] [Inhabited β] {w : QStateRegistry}
    {qs : List QubitPtr} (K : (k : ℕ) → (Fin k → β) → (Fin k → β) → ℂ)
    (Φ : (QubitPtr → β) → ℂ) :
    actOn (K (w.targetsOf qs).length) (w.namesOf qs) Φ =
      actOn (K qs.length) qs.get Φ := by
  have hcast : ∀ {k : ℕ} (hk : k = qs.length),
      actOn (K k) (fun a => qs.get (a.cast hk)) Φ = actOn (K qs.length) qs.get Φ := by
    rintro k rfl
    rfl
  exact hcast (w.length_targetsOf qs)

/-- All registered state vectors have norm one. -/
def Normalised (w : QStateRegistry) : Prop :=
  ∀ s p psi, w.states s = some p → (w.objects p).value = .ket psi → psi.norm2 = 1

/-- User states are normalised and gates are unitary. -/
def UnitaryOp (w : QStateRegistry) : Op → Prop
  | .createQubitFrom _ p => p < w.numObjects → (w.objects p).value.WellFormed
  | .apply _ gate qs => ∀ U, gate.matrix = .ok U → U.Unitary qs.length
  | _ => True

/-- A unitary keeps the norm of a state vector, whatever the targets. -/
theorem unitary_appliesOk {gate : QGate} {qs : List QubitPtr}
    (hU : ∀ U, gate.matrix = .ok U → U.Unitary qs.length) :
    AppliesOk (fun v => v.WellFormed ∧ v.backend = .Ket) w gate qs := by
  rintro w' p v - ⟨hwf, hb⟩ hv
  refine ⟨?_, (QState.apply_backend hv).trans hb⟩
  cases hvalue : (w'.objects p).value with
  | dm rho => rw [hvalue] at hb; cases hb
  | stab st => rw [hvalue] at hb; cases hb
  | ket psi =>
      rw [hvalue] at hv hwf
      obtain ⟨psi', hpsi, rfl⟩ := map_eq_ok.mp hv
      obtain ⟨U, hmat, hnodup, hlt, -, -⟩ := QStateKet.of_apply hpsi
      have hunit := hU U hmat
      rw [← length_targetsOf w' qs] at hunit
      obtain ⟨psi'', hok, -, -, hnorm⟩ := QStateKet.apply_ok hmat hunit
        (QStateKet.of_apply_ne_nil hpsi) hnodup hlt
      rw [hpsi, Except.ok.injEq] at hok
      exact hok ▸ hnorm.trans hwf

theorem UnitaryOp.opOk {op : Op} (h : w.OnKet op) (hu : w.UnitaryOp op) :
    OpOk (fun v => v.WellFormed ∧ v.backend = .Ket) w op := by
  have hcnot : ∀ (w : QStateRegistry) (a b : QubitPtr),
      AppliesOk (fun v => v.WellFormed ∧ v.backend = .Ket) w (.builtin .CNOT)
        [a, b] := fun w a b => unitary_appliesOk fun U hmat => by
    obtain ⟨V, hV, hunit⟩ :=
      QGate.builtin_unitary (show QGateKind.CNOT ≠ .Custom by decide)
    rw [hmat, Except.ok.injEq] at hV
    exact hV ▸ hunit
  have hcreate : ∀ {n : ℕ}, n ≠ 0 → ∀ v, QState.create n w.defaultBackend =
      .ok v → w.defaultBackend = .Ket → v.WellFormed ∧ v.backend = .Ket := by
    intro n hn v hv hb
    obtain ⟨v', hok, hwf, -, hback⟩ := QState.create_ok hn w.defaultBackend
    rw [hv, Except.ok.injEq] at hok
    exact ⟨hok ▸ hwf, hok ▸ hback.trans hb⟩
  cases op with
  | createQubit node => exact fun v hv => hcreate one_ne_zero v hv h
  | createBellPair node => exact fun v hv => hcreate two_ne_zero v hv h
  | createQubitFrom node p => exact fun hp => ⟨hu hp, h hp⟩
  | apply node gate qs => exact unitary_appliesOk hu
  | measureBell node a b drawA drawB => exact hcnot w a b
  | newState value => trivial
  | setDefaultBackend b => trivial
  | measure node q basis draw => trivial
  | adoptQubit node q => trivial
  | setLocationNode q node => trivial
  | setLocationChannel q c => trivial
  | setLocationLost q => trivial

/-- Normalised user states and unitary gates keep all states sound. -/
theorem reachable_sound
    (h : Reachable (fun w op => w.KetOp op ∧ w.UnitaryOp op) w) :
    w.Inv ∧ AllStates (fun v => v.WellFormed ∧ v.backend = .Ket) w :=
  run_allStates (wellFormed_closed.and (backend_closed .Ket))
    (fun _ _ _ hop => ⟨hop.1.1, hop.2.opOk hop.1.2⟩) h
    ⟨inv_empty, fun _ _ hp => nomatch hp⟩

/-- Normalised user states and unitary gates keep all states normalised. -/
theorem reachable_normalised
    (h : Reachable (fun w op => w.KetOp op ∧ w.UnitaryOp op) w) :
    Normalised w := by
  intro s p psi hp hvalue
  have hwf := ((reachable_sound h).2 s p hp).1
  rwa [hvalue] at hwf

/-- `Apply` and `MergeStates` on state vectors refine the operation on the global
state.  Merging leaves it as it is; a call that returns true has applied the
matrix of the gate to the legs of the handles in their order; for a unitary on
distinct local handles and normalised states it does return true; and the states
that hold none of the handles are the same afterwards. -/
theorem apply_refines_global (h : Reachable KetOp w) (node : NodeId)
    (gate : QGate) {qs : List QubitPtr} (hd : qs.Nodup) :
    globalOf ketAmplitudes (w.mergeStates qs).2 = globalOf ketAmplitudes w ∧
      (∀ w', w.apply node gate qs = (.ok true, w') →
        ∃ U, gate.matrix = .ok U ∧ globalOf ketAmplitudes w' =
          actOn (U.kernel qs.length) qs.get (globalOf ketAmplitudes w)) ∧
      (∀ U, gate.matrix = .ok U → U.Unitary qs.length → Normalised w →
        qs ≠ [] → (∀ q ∈ qs, q < w.numHandles ∧ w.IsLocal node q) →
        ∃ w', w.apply node gate qs = (.ok true, w')) ∧
      ∀ s, w.states s ≠ none → (∀ q ∈ qs, (w.qubits q).stateId ≠ s) →
        w.Untouched (w.mergeStates qs).2 s ∧
          w.Untouched (w.apply node gate qs).2 s := by
  obtain ⟨hinv, hall⟩ := reachable_ket h
  refine ⟨hinv.globalOf_mergeStates ketReading hall qs, fun w' hok => ?_,
    fun U hU hunit hnorm hne hlocal => ?_, fun s hs hout =>
      ⟨hinv.mergeStates_untouched hs hout, hinv.apply_untouched node gate hs hout⟩⟩
  · rcases hinv.apply_cases node gate qs with ⟨-, hf⟩ | ⟨⟨-, hlocal⟩,
      ⟨s, rest, e, -, -, he⟩ | ⟨w₁, p, hg, -, ⟨e, -, he⟩ | ⟨v, hv, hok'⟩⟩⟩
    · rw [hf] at hok
      cases hok
    · rw [he] at hok
      cases hok
    · rw [he] at hok
      cases hok
    · have hqs : ∀ q ∈ qs, q < w.numHandles := fun q hq => (hlocal q hq).1
      rw [hok', Prod.mk.injEq] at hok
      obtain ⟨-, rfl⟩ := hok
      have hk := hg.keeps hinv hqs
      obtain ⟨s, hp, hhome⟩ := hg.home hinv hqs
      have hket := hg.allStates hinv hqs (backend_closed .Ket) hall s p hp
      cases hvalue : (w₁.objects p).value with
      | dm rho => rw [hvalue] at hket; cases hket
      | stab st => rw [hvalue] at hket; cases hket
      | ket psi =>
          rw [hvalue] at hv
          obtain ⟨psi', hpsi, rfl⟩ := map_eq_ok.mp hv
          obtain ⟨U, hU, -, -, hn, heval⟩ := QStateKet.of_apply hpsi
          refine ⟨U, hU, ?_⟩
          rw [hk.inv.globalOf_setValue (K := U.kernel _) hp hd
            (fun q hq => ⟨(hqs q hq).trans_le hk.evolves.handles, hhome q hq⟩)
            (hvalue ▸ hn) (hvalue ▸ heval), hg.globalOf hinv hqs ketReading hall]
          exact actOn_namesOf U.kernel _
  · refine hinv.apply_succeeds (b := .Ket) (fun s p hp => ?_)
      ⟨hU, hunit, fun hb => (nomatch hb)⟩ hne hd hlocal
    have hket := hall s p hp
    refine ⟨?_, hket⟩
    cases hvalue : (w.objects p).value with
    | ket psi => exact hnorm s p psi hp hvalue
    | dm rho => rw [hvalue] at hket; cases hket
    | stab st => rw [hvalue] at hket; cases hket

/-- A controlled not on two qubits that have just been created. -/
theorem apply_refines_global_two : ∃ w w' : QStateRegistry,
    Reachable KetOp w ∧ w.numHandles = 2 ∧
      w.apply 0 (.builtin .CNOT) [0, 1] = (.ok true, w') ∧
      ∃ U, matrixOf .CNOT = .ok U ∧ globalOf ketAmplitudes w' =
        actOn (U.kernel 2) [0, 1].get (globalOf ketAmplitudes w) := by
  obtain ⟨w, hrun, -, -, htwo, hlocal, -⟩ := reachable_pair .Ket
    (P := fun w op => w.KetOp op ∧ w.UnitaryOp op) ⟨⟨trivial, trivial⟩, trivial⟩
    fun w hb => ⟨⟨trivial, hb⟩, trivial⟩
  have hreach : Reachable KetOp w := Run.mono (fun _ _ hop => hop.1) hrun
  obtain ⟨U, hU, hunit⟩ :=
      QGate.builtin_unitary (show QGateKind.CNOT ≠ .Custom by decide)
  obtain ⟨-, hact, hok, -⟩ := apply_refines_global hreach 0 (.builtin .CNOT)
    (show ([0, 1] : List QubitPtr).Nodup by decide)
  obtain ⟨w', hw'⟩ := hok U hU hunit (reachable_normalised hrun)
    (List.cons_ne_nil _ _) hlocal
  obtain ⟨V, hV, hglobal⟩ := hact w' hw'
  exact ⟨w, w', hreach, htwo, hw', V, hV, hglobal⟩

end Q2NS.QStateRegistry
