import Q2NS.GlobalApply

/-!
# Measurements and the global state

`Measure` takes one qubit out of the global state.  The other qubits, whatever
state they are in and wherever they are, keep their identity: read through their
handles they are in the projected state, and nothing else in the registry moves.
-/

namespace Q2NS.QStateRegistry

open NamedTensor Loop Finset

variable {w w' : QStateRegistry} {s : StateId} {q : QubitPtr}
  {r : MeasureResult QState}

/-- The joint state of all qubits that are not in state `s`. -/
def globalBut {β : Type} [Inhabited β] (D : QState → (ℕ → β) → ℂ)
    (w : QStateRegistry) (s : StateId) : (QubitPtr → β) → ℂ := fun z =>
  ∏ s' ∈ w.registered.erase s, factorOf D w s' z

/-- The probability of outcome `o` when `q` is measured in `basis`. -/
noncomputable def outcomeProb (w : QStateRegistry) (q : QubitPtr) (basis : Basis)
    (o : Bool) : ℂ :=
  (w.valueOf (w.qubits q).stateId).prob (w.qubits q).indexInState basis o

/-- The global state projected on outcome `o` at `q`, normalised, without the
factor of `q`. -/
noncomputable def projectedGlobal (w : QStateRegistry) (q : QubitPtr)
    (basis : Basis) (o : Bool) : (QubitPtr → Bool × Bool) → ℂ := fun z =>
  1 / w.outcomeProb q basis o *
    contract (outer (eigenvector basis o)) q (globalOf QState.kernel w) z

/-- What `Measure` of a state object promises for outcome `o` of qubit `t`: the
survivors are the projected state with leg `t` taken out. -/
def ProjectsOn (v : QState) (t : ℕ) (basis : Basis) (o : Bool) : Prop :=
  ∃ r v', v.measure t basis o = (.ok r, v') ∧ r.outcome = o ∧
    ∀ z, r.survivors.kernel z =
      1 / v.prob t basis o * compress (eigenvector basis o) t v.kernel z

/-- Well-formed states keep the promise. -/
theorem projectsOn_of_wellFormed {v : QState} (h : v.WellFormed) {t : ℕ}
    (ht : t < v.numQubits) {basis : Basis} {o : Bool}
    (ho : v.prob t basis o ≠ 0) : ProjectsOn v t basis o := by
  obtain ⟨r, v', hok, -, hdraw, -, -, -, -, -, hs⟩ := QState.measure_ok h ht basis o
  have hout : r.outcome = o := hdraw.resolve_right ho
  exact ⟨r, v', hok, hout, fun z => by rw [hs z, hout]⟩

/-- `w'` is `w` after the measurement of `q` with outcome `o`. -/
structure Collapsed (w w' : QStateRegistry) (q : QubitPtr) (basis : Basis)
    (o : Bool) : Prop where
  /-- the joint state of all qubits other than `q` -/
  survivors : globalBut QState.kernel w' (w'.qubits q).stateId =
    w.projectedGlobal q basis o
  alone : w'.qubitsOf (w'.qubits q).stateId = [q]
  index : (w'.qubits q).indexInState = 0
  fresh : w.nextStateId ≤ (w'.qubits q).stateId
  single : w'.states (w'.qubits q).stateId ≠ none ∧
    (w'.valueOf (w'.qubits q).stateId).numQubits = 1
  locations : ∀ x, w'.getLocation x = w.getLocation x
  gone : w'.states (w.qubits q).stateId = none ∧
    w'.members (w.qubits q).stateId = none
  untouched : ∀ s, w.states s ≠ none → s ≠ (w.qubits q).stateId →
    w.Untouched w' s

/-! ## The measured registry -/

theorem measured_of_pos (h : 0 < r.survivors.numQubits) :
    w.measured s q r = (((((w.newObject r.measured).2.dropStates [s]).addGroup
      w.numObjects [q]).newObject r.survivors).2.addGroup (w.numObjects + 1)
        (w.survivorsOf s q)) := if_pos h

theorem measured_of_zero (h : ¬ 0 < r.survivors.numQubits) :
    w.measured s q r = ((w.newObject r.measured).2.dropStates [s]).addGroup
      w.numObjects [q] := if_neg h

theorem measured_location : (w.measured s q r).location = w.location := by
  by_cases hpos : 0 < r.survivors.numQubits
  · rw [measured_of_pos hpos]
    rfl
  · rw [measured_of_zero hpos]
    rfl

theorem measured_states : (w.measured s q r).states =
    if 0 < r.survivors.numQubits then
      Function.update (Function.update (fun s' => if s' ∈ [s] then none
        else w.states s') w.nextStateId (some w.numObjects))
        (w.nextStateId + 1) (some (w.numObjects + 1))
    else Function.update (fun s' => if s' ∈ [s] then none else w.states s')
      w.nextStateId (some w.numObjects) := by
  split_ifs with hpos
  · rw [measured_of_pos hpos]
    rfl
  · rw [measured_of_zero hpos]
    rfl

theorem measured_members : (w.measured s q r).members =
    if 0 < r.survivors.numQubits then
      Function.update (Function.update (fun s' => if s' ∈ [s] then none
        else w.members s') w.nextStateId (some [q]))
        (w.nextStateId + 1) (some (w.survivorsOf s q))
    else Function.update (fun s' => if s' ∈ [s] then none else w.members s')
      w.nextStateId (some [q]) := by
  split_ifs with hpos
  · rw [measured_of_pos hpos]
    rfl
  · rw [measured_of_zero hpos]
    rfl

theorem measured_qubitId (x : QubitPtr) :
    ((w.measured s q r).qubits x).qubitId = (w.qubits x).qubitId := by
  by_cases hpos : 0 < r.survivors.numQubits
  · rw [measured_of_pos hpos]
    exact (bound_qubitId _ _ _ _).trans (bound_qubitId _ _ _ _)
  · rw [measured_of_zero hpos]
    exact bound_qubitId _ _ _ _

/-- The measured qubit is bound to index 0 of the first new state. -/
theorem measured_self : ((w.measured s q r).qubits q).stateId = w.nextStateId ∧
    ((w.measured s q r).qubits q).indexInState = 0 := by
  have hfirst : (((w.newObject r.measured).2.dropStates [s]).addGroup
      w.numObjects [q]).qubits q =
      { w.qubits q with stateId := w.nextStateId, indexInState := 0 } := by
    refine (bound_of_mem (List.mem_singleton_self q)).trans ?_
    rw [List.idxOf_cons_self]
    rfl
  by_cases hpos : 0 < r.survivors.numQubits
  · have hout : q ∉ w.survivorsOf s q := fun hq => by
      simpa using (List.mem_filter.mp hq).2
    have hsecond := (@bound_of_not_mem ((((w.newObject
      r.measured).2.dropStates [s]).addGroup w.numObjects [q]).newObject
        r.survivors).2 (w.nextStateId + 1) 0 _ _ hout).trans hfirst
    rw [measured_of_pos hpos]
    exact ⟨congrArg Qubit.stateId hsecond, congrArg Qubit.indexInState hsecond⟩
  · rw [measured_of_zero hpos, hfirst]
    exact ⟨rfl, rfl⟩

theorem Inv.registered_measured (h : w.Inv) (hinv : Inv (w.measured s q r))
    (hs : w.states s ≠ none) :
    (w.measured s q r).registered.erase w.nextStateId =
      if 0 < r.survivors.numQubits then
        insert (w.nextStateId + 1) (w.registered.erase s)
      else w.registered.erase s := by
  obtain ⟨p, hp⟩ := Option.ne_none_iff_exists'.mp hs
  have hlt := (h.key s p hp).2
  have hfresh : ∀ n, w.nextStateId ≤ n → w.states n = none := by
    intro n hn
    by_contra hsome
    obtain ⟨p', hp'⟩ := Option.ne_none_iff_exists'.mp hsome
    exact absurd (h.key n p' hp').2 (not_lt.mpr hn)
  ext s'
  rw [mem_erase, hinv.mem_registered, measured_states]
  by_cases hnew : s' = w.nextStateId
  · have hold : s' ∉ w.registered.erase s := fun hmem =>
      h.mem_registered.mp (mem_erase.mp hmem).2 (hfresh s' hnew.ge)
    have hne : s' ≠ w.nextStateId + 1 := hnew ▸ (Nat.succ_ne_self _).symm
    refine iff_of_false (fun hmem => hmem.1 hnew) ?_
    split_ifs
    · exact fun hmem => (mem_insert.mp hmem).elim hne hold
    · exact hold
  · have hdrop : (if s' ∈ [s] then none else w.states s') ≠ none ↔
        s' ∈ w.registered.erase s := by
      rw [mem_erase, h.mem_registered]
      by_cases heq : s' = s <;> simp [heq]
    split_ifs
    · rw [mem_insert]
      by_cases hsecond : s' = w.nextStateId + 1
      · rw [hsecond, Function.update_self]
        exact iff_of_true ⟨Nat.succ_ne_self _, Option.some_ne_none _⟩ (.inl rfl)
      · rw [Function.update_of_ne hsecond, Function.update_of_ne hnew, hdrop]
        exact ⟨fun hmem => .inr hmem.2, fun hmem =>
          ⟨hnew, hmem.resolve_left hsecond⟩⟩
    · rw [Function.update_of_ne hnew, hdrop]
      exact and_iff_right hnew

/-- The value of the state of the measured qubit. -/
theorem measured_valueOf : (w.measured s q r).valueOf w.nextStateId =
    r.measured := by
  have hfirst : (((w.newObject r.measured).2.dropStates [s]).addGroup
      w.numObjects [q]).valueOf w.nextStateId = r.measured :=
    (addGroup_valueOf (w := (w.newObject r.measured).2.dropStates [s]) _ _).trans
      (congrArg StateObject.value (newObject_self r.measured))
  by_cases hpos : 0 < r.survivors.numQubits
  · rw [measured_of_pos hpos]
    refine Eq.trans ?_ hfirst
    set w₁ := ((w.newObject r.measured).2.dropStates [s]).addGroup w.numObjects
      [q] with hw₁
    have hstates : ((w₁.newObject r.survivors).2.addGroup (w.numObjects + 1)
        (w.survivorsOf s q)).states w.nextStateId = some w.numObjects :=
      (Function.update_of_ne (Nat.succ_ne_self _).symm _ _).trans
        (Function.update_self _ _ _)
    have hstates₁ : w₁.states w.nextStateId = some w.numObjects :=
      Function.update_self _ _ _
    rw [valueOf, valueOf, hstates, hstates₁, Option.getD_some, addGroup_value]
    exact congrArg StateObject.value
      (newObject_objects (w := w₁) (Nat.lt_succ_self w.numObjects))
  · rw [measured_of_zero hpos, hfirst]

/-- After the measurement the other qubits are in the survivors and in the
states that the measurement did not touch. -/
theorem Inv.globalBut_measured {β : Type} [Inhabited β] (h : w.Inv)
    (D : QState → (ℕ → β) → ℂ) (hinv : Inv (w.measured s q r))
    (hqs : (w.qubits q).stateId = s) (hs : w.states s ≠ none)
    (z : QubitPtr → β) :
    globalBut D (w.measured s q r) w.nextStateId z =
      (if 0 < r.survivors.numQubits then
        D r.survivors (named (w.survivorsOf s q) z) else 1) *
        globalBut D w s z := by
  have hrest : ∏ s' ∈ w.registered.erase s, factorOf D (w.measured s q r) s' z =
      globalBut D w s z := by
    refine prod_congr rfl fun s' hs' => ?_
    obtain ⟨hne, hmem⟩ := mem_erase.mp hs'
    have hreg := h.mem_registered.mp hmem
    rw [(h.untouched_measured hqs hreg hne r).factorOf hreg D]
  rw [globalBut, h.registered_measured hinv hs]
  split_ifs with hpos
  · have hnew : w.nextStateId + 1 ∉ w.registered.erase s := by
      intro hmem
      obtain ⟨p, hp⟩ := Option.ne_none_iff_exists'.mp
        (h.mem_registered.mp (mem_erase.mp hmem).2)
      exact absurd (h.key _ p hp).2 (Nat.le_succ _).not_gt
    rw [prod_insert hnew, hrest]
    congr 1
    rw [measured_of_pos hpos] at hinv ⊢
    set w₁ := ((w.newObject r.measured).2.dropStates [s]).addGroup w.numObjects
      [q] with hw₁
    have hfactor := factorOf_addGroup (D := D)
      (w := (w₁.newObject r.survivors).2) (p := w.numObjects + 1)
      (h.nodup_survivorsOf s q) hinv z
    have hobj : ((w₁.newObject r.survivors).2.objects
        (w.numObjects + 1)).value = r.survivors :=
      congrArg StateObject.value (newObject_self (w := w₁) r.survivors)
    exact hfactor.trans (congrArg (fun v => D v _) hobj)
  · rw [hrest, one_mul]

/-! ## The projected state -/

theorem Inv.erase_order (h : w.Inv) (s : StateId) (q : QubitPtr) :
    (w.order s).erase q = w.survivorsOf s q := by
  rw [(h.nodup_order s).erase_eq_filter, survivorsOf]
  exact List.filter_congr fun x _ => by rw [bne, decide_not, beq_eq_decide]

/-- Projecting one qubit of the global state is projecting its leg. -/
theorem Inv.contract_globalOf {β : Type} [Inhabited β] [Fintype β] (h : w.Inv)
    (D : QState → (ℕ → β × β) → ℂ) (hq : q < w.numHandles) (v : β → ℂ)
    (z : QubitPtr → β × β) :
    contract (outer v) q (globalOf D w) z =
      compress v (w.qubits q).indexInState (D (w.valueOf (w.qubits q).stateId))
        (named (w.survivorsOf (w.qubits q).stateId q) z) *
        globalBut D w (w.qubits q).stateId z := by
  have hs := h.states_of_handle hq
  have hglobal : globalOf D w = fun z =>
      D (w.valueOf (w.qubits q).stateId)
        (named (w.order (w.qubits q).stateId) z) *
      globalBut D w (w.qubits q).stateId z := by
    funext z
    rw [globalOf, ← mul_prod_erase _ _ (h.mem_registered.mpr hs),
      h.factorOf_eq D hs]
    rfl
  -- the other factors do not read `q`
  have hother : ∀ b, globalBut D w (w.qubits q).stateId (Function.update z q b) =
      globalBut D w (w.qubits q).stateId z := by
    intro b
    refine prod_congr rfl fun s' hs' => ?_
    obtain ⟨hne, hmem⟩ := mem_erase.mp hs'
    rw [h.factorOf_eq D (h.mem_registered.mp hmem)]
    refine congrArg (D (w.valueOf s')) (named_congr fun x hx => ?_)
    refine Function.update_of_ne ?_ _ _
    rintro rfl
    exact hne (h.mem_qubitsOf_iff.mp (mem_sortByIndex.mp hx)).2.symm
  rw [hglobal, contract_mul z hother,
    contract_named v (D (w.valueOf (w.qubits q).stateId)) (h.nodup_order _)
      (h.order_get hq), h.erase_order]

/-- A state on no legs that has been normalised. -/
theorem compress_of_one {v : QState} (hn : v.numQubits = 1) {t : ℕ}
    {basis : Basis} {o : Bool} (ho : v.prob t basis o ≠ 0) :
    1 / v.prob t basis o * compress (eigenvector basis o) t v.kernel
      (fun _ => default) = 1 := by
  have hprob : v.prob t basis o =
      compress (eigenvector basis o) t v.kernel fun _ => default := by
    rw [QState.prob, hn]
    refine (Fintype.sum_unique (ι := Fin 0 → Bool) _).trans (congrArg _ ?_)
    have hpad : ∀ i, pad (default : Fin 0 → Bool) i = default := fun i =>
      dif_neg (Nat.not_lt_zero i)
    exact funext fun i => Prod.ext (hpad i) (hpad i)
  rw [← hprob, one_div, inv_mul_cancel₀ ho]

/-- A measurement on a sound registry, if the state object keeps its promise for
outcome `o`: the qubit gets the object that the call returns. -/
theorem Inv.measure_yields (hinv : w.Inv) {node : NodeId} {q : QubitPtr}
    (hq : q < w.numHandles) (hlocal : w.IsLocal node q) {basis : Basis} {o : Bool}
    (ho : w.outcomeProb q basis o ≠ 0)
    (hv : ProjectsOn (w.valueOf (w.qubits q).stateId)
      (w.qubits q).indexInState basis o) :
    ∃ w' r v', w.measure node q basis o = (.ok o.toNat, w') ∧
      w.Collapsed w' q basis o ∧
      (w.valueOf (w.qubits q).stateId).measure (w.qubits q).indexInState basis o =
        (.ok r, v') ∧ r.outcome = o ∧
      w'.valueOf (w'.qubits q).stateId = r.measured := by
  rcases hinv.measure_cases node q basis o with ⟨hnot, -⟩ |
    ⟨-, p, v, hp, hn, hcases⟩
  · exact absurd hnot (not_or.mpr ⟨not_le.mpr hq, not_not.mpr hlocal⟩)
  have hval : w.valueOf (w.qubits q).stateId = (w.objects p).value := by
    rw [valueOf, hp]
    rfl
  obtain ⟨r, v', hres, hout, hproj⟩ := hv
  have hcall := hres
  rw [hval] at hres
  rcases hcases with ⟨e, he, -⟩ | ⟨r', hr, hm, hsurv, hok⟩
  · rw [hres] at he
    cases he
  obtain ⟨hr', rfl⟩ := Prod.mk.inj (hres.symm.trans hr)
  obtain rfl := Except.ok.inj hr'
  set s := (w.qubits q).stateId with hs
  have hreg : w.states s ≠ none := hp ▸ Option.some_ne_none p
  have hk := hinv.setValue_keeps hn
  have hself : ((w.setValue p v').objects p).value.numQubits =
      (w.objects p).value.numQubits := by
    rw [← hn]
    exact congrArg (fun o => o.value.numQubits)
      (Function.update_self p _ w.objects)
  have hinv' : Inv ((w.setValue p v').measured s q r) :=
    hk.inv.measured_inv (q := q) hq hp hm (hself.symm ▸ hsurv)
  have huntouched : ∀ s', w.states s' ≠ none → s' ≠ s →
      w.Untouched (w.setValue p v') s' := fun s' _ hne =>
    untouched_setValue fun hp' => hne (hinv.states_inj hp' hp)
  have hlt : s < w.nextStateId := (hinv.key s p hp).2
  obtain ⟨hsid, hidx⟩ := measured_self (w := w.setValue p v') (s := s) (q := q)
    (r := r)
  rw [hout] at hok
  refine ⟨_, r, v', hok,
    { survivors := funext fun z => ?_
      alone := ?_
      index := hidx
      fresh := hsid.ge
      single := ?_
      locations := fun x => ?_
      gone := ?_
      untouched := fun s' hreg' hne => (huntouched s' hreg' hne).trans
        (hk.inv.untouched_measured rfl hreg' hne r) }, hcall, hout,
    by rw [hsid, measured_valueOf]⟩
  · have hbut : globalBut QState.kernel (w.setValue p v') s z =
        globalBut QState.kernel w s z := by
      refine prod_congr rfl fun s' hs' => ?_
      obtain ⟨hne, hmem⟩ := mem_erase.mp hs'
      have hreg' := hinv.mem_registered.mp hmem
      rw [(huntouched s' hreg' hne).factorOf hreg' QState.kernel]
    have hsame : (w.setValue p v').survivorsOf s q = w.survivorsOf s q := rfl
    rw [hsid, hk.inv.globalBut_measured QState.kernel hinv' rfl hreg z, hbut,
      hsame, projectedGlobal, hinv.contract_globalOf QState.kernel hq, ← mul_assoc,
      outcomeProb]
    congr 1
    split_ifs with hpos
    · exact hproj _
    · have hone : (w.valueOf s).numQubits = 1 := by
        have hpop := hinv.populated s p hp
        rw [hval]
        omega
      have hnil : w.survivorsOf s q = [] := by
        have hlen := hinv.length_survivorsOf hq
        rw [← hs, hone] at hlen
        exact List.length_eq_zero_iff.mp hlen
      rw [hnil]
      exact (compress_of_one hone ho).symm
  · rw [hsid, qubitsOf, measured_members]
    split_ifs <;> simp
  · rw [hsid]
    refine ⟨?_, by rw [measured_valueOf]; exact hm⟩
    rw [measured_states]
    split_ifs <;> simp
  · rw [getLocation, getLocation, measured_location, measured_qubitId]
    rfl
  · rw [measured_states, measured_members]
    have hne : s ≠ (w.setValue p v').nextStateId := hlt.ne
    have hne' : s ≠ (w.setValue p v').nextStateId + 1 :=
      (Nat.lt_succ_of_lt hlt).ne
    have hdrop : s ∈ [s] := List.mem_singleton_self s
    split_ifs
    · rw [Function.update_of_ne hne', Function.update_of_ne hne,
        Function.update_of_ne hne', Function.update_of_ne hne]
      exact ⟨if_pos hdrop, if_pos hdrop⟩
    · rw [Function.update_of_ne hne, Function.update_of_ne hne]
      exact ⟨if_pos hdrop, if_pos hdrop⟩

theorem Inv.measure_collapses (hinv : w.Inv) {node : NodeId} {q : QubitPtr}
    (hq : q < w.numHandles) (hlocal : w.IsLocal node q) {basis : Basis} {o : Bool}
    (ho : w.outcomeProb q basis o ≠ 0)
    (hv : ProjectsOn (w.valueOf (w.qubits q).stateId)
      (w.qubits q).indexInState basis o) :
    ∃ w', w.measure node q basis o = (.ok o.toNat, w') ∧
      w.Collapsed w' q basis o := by
  obtain ⟨w', r, v', hok, hc, -⟩ := hinv.measure_yields hq hlocal ho hv
  exact ⟨w', hok, hc⟩

/-- `Measure` keeps every survivor's identity: if the state object keeps its
promise for outcome `o`, the other qubits, read through their handles, are in the
projected global state, and nothing else changes. -/
theorem measure_refines_projection (h : Reachable AdoptsFresh w) {node : NodeId}
    {q : QubitPtr} (hq : q < w.numHandles) (hlocal : w.IsLocal node q)
    {basis : Basis} {o : Bool} (ho : w.outcomeProb q basis o ≠ 0)
    (hv : ProjectsOn (w.valueOf (w.qubits q).stateId)
      (w.qubits q).indexInState basis o) :
    ∃ w', w.measure node q basis o = (.ok o.toNat, w') ∧
      w.Collapsed w' q basis o :=
  (reachable_inv h).measure_collapses hq hlocal ho hv

/-- A measurement of one of two qubits that a gate has brought together. -/
theorem measure_refines_projection_two : ∃ (w w' : QStateRegistry) (o : Bool),
    Reachable AdoptsFresh w ∧ (w.qubits 0).stateId = (w.qubits 1).stateId ∧
      w.measure 0 0 .Y o = (.ok o.toNat, w') ∧ w.Collapsed w' 0 .Y o := by
  obtain ⟨w₀, hrun, hinv₀, -, htwo, hlocal, -, hall₀⟩ :=
    reachable_pair .Stab (P := AdoptsFresh) trivial fun _ _ => trivial
  have hCNOT := show QGateKind.CNOT ≠ .Custom by decide
  obtain ⟨U, hacc⟩ := QState.accepts_builtin .Stab hCNOT
  obtain ⟨w, hw⟩ := show ∃ w, w₀.apply 0 (.builtin .CNOT) [0, 1] = (.ok true, w) from
    hinv₀.apply_succeeds hall₀ hacc (List.cons_ne_nil _ _) (by decide) hlocal
  have hstep : w₀.step (.apply 0 (.builtin .CNOT) [0, 1]) = some w := by
    rw [step, exec, hw]
    rfl
  have hreach : Reachable AdoptsFresh w :=
    hrun.tail ⟨.apply 0 (.builtin .CNOT) [0, 1], trivial, hstep⟩
  have hinv := reachable_inv hreach
  have hk := @Inv.step_keeps _ _ hinv₀ (.apply 0 (.builtin .CNOT) [0, 1]) trivial
    hstep
  have hq : 0 < w.numHandles :=
    (show 0 < w₀.numHandles from htwo ▸ Nat.two_pos).trans_le hk.evolves.handles
  have hwhere : w.IsLocal 0 0 := by
    have hsame := hinv₀.apply_getLocation 0 (.builtin .CNOT) [0, 1] 0
    rw [hw] at hsame
    exact hsame.trans (hlocal 0 List.mem_cons_self).2
  have hall := hinv₀.apply_allStates (wellFormed_closed.and (backend_closed .Stab))
    hall₀ 0 ((wellFormed_closed.and (backend_closed .Stab)).appliesOk hinv₀ hCNOT
      rfl (show ([0, 1] : List QubitPtr).Nodup by decide)
      fun q hq => (hlocal q hq).1)
  rw [hw] at hall
  have hwf := (hall.valueOf (hinv.states_of_handle hq)).1
  -- an outcome that the state allows
  obtain ⟨r, -, -, hpos, -⟩ := QState.measure_ok hwf (hinv.index_lt hq) .Y true
  obtain ⟨w', hmeasure, hcollapsed⟩ := measure_refines_projection hreach hq hwhere
    hpos (projectsOn_of_wellFormed hwf (hinv.index_lt hq) hpos)
  obtain ⟨s, hhome⟩ := hinv₀.apply_home hw
  exact ⟨w, w', r.outcome, hreach, (hhome 0 List.mem_cons_self).trans
    (hhome 1 (List.mem_cons_of_mem _ List.mem_cons_self)).symm, hmeasure, hcollapsed⟩

end Q2NS.QStateRegistry
