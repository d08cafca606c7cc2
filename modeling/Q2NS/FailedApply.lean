import Q2NS.GlobalMeasure

/-!
# Calls of Apply that fail

`Apply` brings its targets into one state before the backend sees the gate.  A
call that the backend then rejects leaves the merge behind; every other call that
does not succeed leaves the registry as it was.
-/

namespace Q2NS.QStateRegistry

variable {w w' : QStateRegistry} {qs : List QubitPtr}

/-- The handles are in more than one state. -/
def Spread (w : QStateRegistry) (qs : List QubitPtr) : Prop :=
  ∃ a ∈ qs, ∃ b ∈ qs, (w.qubits a).stateId ≠ (w.qubits b).stateId

/-- `w'` is `w` after `MergeStates(qs)` and nothing else: the handles are in one
new state, and neither the global state, nor a location, nor a state that holds
none of the handles has changed. -/
structure MergedOnly (w w' : QStateRegistry) (qs : List QubitPtr) : Prop where
  merge : ∃ p, w.mergeStates qs = (.ok (some p), w')
  together : ∀ q ∈ qs, (w'.qubits q).stateId = w.nextStateId
  global : AllStates QState.WellFormed w →
    globalOf QState.kernel w' = globalOf QState.kernel w
  locations : ∀ q, w'.getLocation q = w.getLocation q
  untouched : ∀ s, w.states s ≠ none → (∀ q ∈ qs, (w.qubits q).stateId ≠ s) →
    w.Untouched w' s

theorem Several.spread {s : StateId} {rest : List StateId}
    (h : w.Several qs s rest) : w.Spread qs := by
  obtain ⟨s', hs'⟩ := List.exists_mem_of_ne_nil rest h.several
  obtain ⟨a, ha, hsa⟩ := (h.mem s).mp List.mem_cons_self
  obtain ⟨b, hb, hsb⟩ := (h.mem s').mp (List.mem_cons_of_mem _ hs')
  refine ⟨a, ha, b, hb, fun he => ?_⟩
  rw [hsa, hsb] at he
  exact (List.nodup_cons.mp h.nodup).1 (he ▸ hs')

/-- Handles that have been gathered were in one state before, or are in a new
one. -/
theorem Gathered.mergedOnly {p : StatePtr} (hg : w.Gathered qs w' p) (h : w.Inv)
    (hne : qs ≠ []) (hqs : ∀ q ∈ qs, q < w.numHandles)
    (hmerge : w.mergeStates qs = (.ok (some p), w')) :
    w' = w ∨ w.Spread qs ∧ w.MergedOnly w' qs := by
  have hlocations := hg.getLocation
  have hglobal := fun hall =>
    hg.globalOf h hqs kernelReading hall
  have huntouched := fun s hs hout => (hg.untouched (s := s) h hne hs hout).1
  cases hg with
  | same hall hp => exact .inl rfl
  | @several s rest v hs hv =>
      refine .inr ⟨hs.spread, ⟨_, hmerge⟩, fun q hq => ?_, hglobal, hlocations,
        huntouched⟩
      have hmem : q ∈ w.qubitsOfAll (s :: rest) :=
        h.mem_qubitsOfAll.mpr ⟨hqs q hq, (hs.mem _).mpr ⟨q, hq, rfl⟩⟩
      exact congrArg Qubit.stateId (bound_of_mem hmem)

/-- A call of `Apply` that does not succeed changes nothing, unless its targets
were in several states and the backend has rejected the gate after their merge;
then the registry is what the merge has made of it. -/
theorem failed_apply_unchanged_or_merged (h : Reachable AdoptsFresh w)
    {node : NodeId} {gate : QGate} {res : Except Exit Bool}
    (hcall : w.apply node gate qs = (res, w')) (hfail : res ≠ .ok true) :
    w' = w ∨ w.Spread qs ∧ w.MergedOnly w' qs ∧ ∃ p e, res = .error e ∧
      (w'.objects p).value.apply gate (w'.targetsOf qs) = .error e := by
  have hinv := reachable_inv h
  rcases hinv.apply_cases node gate qs with ⟨-, hf⟩ | ⟨⟨hne, hlocal⟩,
    ⟨s, rest, e, -, -, he⟩ | ⟨w₁, p, hg, hmerge, ⟨e, hv, he⟩ | ⟨v, -, hok⟩⟩⟩
  · exact .inl (Prod.mk.inj (hcall.symm.trans hf)).2
  · exact .inl (Prod.mk.inj (hcall.symm.trans he)).2
  · obtain ⟨rfl, rfl⟩ := Prod.mk.inj (hcall.symm.trans he)
    have hqs : ∀ q ∈ qs, q < w.numHandles := fun q hq => (hlocal q hq).1
    exact (hg.mergedOnly hinv hne hqs hmerge).imp_right fun ⟨hspread, honly⟩ =>
      ⟨hspread, honly, p, e, rfl, hv⟩
  · exact absurd (Prod.mk.inj (hcall.symm.trans hok)).1 hfail

/-- Two stabilizer qubits, and a matrix that their backend does not take. -/
theorem exists_rejected_gate : ∃ w w', Reachable AdoptsFresh w ∧
    (∀ q ∈ [0, 1], q < w.numHandles ∧ w.IsLocal 0 q) ∧
      (w.qubits 0).stateId ≠ (w.qubits 1).stateId ∧
      w.apply 0 (.custom matrixCNOT) [0, 1] =
        (.error (.thrown "QStateStab does not support custom gates"), w') ∧
      (w'.qubits 0).stateId = (w'.qubits 1).stateId := by
  obtain ⟨w, hrun, hinv, -, -, hlocal, hapart, hall⟩ :=
    reachable_pair .Stab (P := AdoptsFresh) trivial fun _ _ => trivial
  have hqs : ∀ q ∈ [0, 1], q < w.numHandles := fun q hq => (hlocal q hq).1
  have hC := wellFormed_closed.and (backend_closed .Stab)
  obtain ⟨w', p, hg, hcases⟩ := hinv.apply_gathers hall (.custom matrixCNOT)
    (List.cons_ne_nil _ _) hlocal
  obtain ⟨s, hp, hhome⟩ := hg.home hinv hqs
  have hreject : (w'.objects p).value.apply (.custom matrixCNOT)
      (w'.targetsOf [0, 1]) =
        .error (.thrown "QStateStab does not support custom gates") := by
    have hb := (hg.allStates hinv hqs hC hall s p hp).2
    cases hvalue : (w'.objects p).value with
    | ket psi => rw [hvalue] at hb; cases hb
    | dm rho => rw [hvalue] at hb; cases hb
    | stab st => rfl
  have hsame := (hhome 0 List.mem_cons_self).trans
    (hhome 1 (List.mem_cons_of_mem _ List.mem_cons_self)).symm
  rw [hreject] at hcases
  rcases hcases with ⟨e, he, hcall⟩ | ⟨v, hv, -⟩
  · obtain rfl := Except.error.inj he
    exact ⟨w, w', hrun, hlocal, hapart, hcall, hsame⟩
  · cases hv

theorem failed_apply_custom : ∃ w w' res, Reachable AdoptsFresh w ∧
    w.apply 0 (.custom matrixCNOT) [0, 1] = (res, w') ∧ res ≠ .ok true ∧
      w.Spread [0, 1] ∧ w.MergedOnly w' [0, 1] := by
  obtain ⟨w, w', hrun, -, hapart, hcall, hsame⟩ := exists_rejected_gate
  have hfail : (.error (.thrown "QStateStab does not support custom gates") :
      Except Exit Bool) ≠ .ok true := fun he => nomatch he
  refine ⟨w, w', _, hrun, hcall, hfail, ?_⟩
  rcases failed_apply_unchanged_or_merged hrun hcall hfail with rfl |
    ⟨hspread, honly, -⟩
  · exact absurd hsame hapart
  · exact ⟨hspread, honly⟩

/-- The rejected gate has left its two targets, which were in two states, in
one. -/
theorem rejected_gate_leaves_merge : ∃ w w', Reachable AdoptsFresh w ∧
    ([0, 1] : List QubitPtr).Nodup ∧
      (∀ q ∈ [0, 1], q < w.numHandles ∧ w.IsLocal 0 q) ∧
      w.apply 0 (.custom matrixCNOT) [0, 1] =
        (.error (.thrown "QStateStab does not support custom gates"), w') ∧
      w' ≠ w := by
  obtain ⟨w, w', hrun, hlocal, hapart, hcall, hsame⟩ := exists_rejected_gate
  exact ⟨w, w', hrun, by decide, hlocal, hcall, fun he => hapart (he ▸ hsame)⟩

end Q2NS.QStateRegistry
