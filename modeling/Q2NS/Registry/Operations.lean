import Q2NS.Registry.Measuring

/-!
# The operations and the invariant

How each operation of the processor ends on a registry that satisfies the
invariant, and that the invariant holds after it.
-/

namespace Q2NS.QStateRegistry

open Loop

variable {w w' : QStateRegistry} {L : QubitPtr → Prop}

/-! ## Merged and measured registries -/

theorem Inv.merged_inv (h : w.Inv) {sids : List StateId} (hne : sids ≠ [])
    (hd : sids.Nodup) (hreg : ∀ s ∈ sids, w.states s ≠ none) {v : QState}
    (hn : v.numQubits = (w.qubitsOfAll sids).length) :
    Inv (w.merged sids v) := by
  have hpos : w.qubitsOfAll sids ≠ [] := by
    obtain ⟨s, hs⟩ := List.exists_mem_of_ne_nil sids hne
    obtain ⟨p, hp⟩ := Option.ne_none_iff_exists'.mp (hreg s hs)
    have hlen := h.length_qubitsOf (hreg s hs)
    rw [valueOf, hp] at hlen
    have hex : w.qubitsOf s ≠ [] :=
      List.length_pos_iff.mp (hlen ▸ h.populated s p hp)
    obtain ⟨q, hq⟩ := List.exists_mem_of_ne_nil _ hex
    exact List.ne_nil_of_mem (List.mem_flatMap.mpr
      ⟨s, hs, mem_sortByIndex.mpr hq⟩)
  have hdrop := (h.newObject_inv v).dropStates sids
  have hgroup := @InvExcept.addGroup _ _ hdrop w.numObjects (w.qubitsOfAll sids)
    (Nat.lt_succ_self _) (fun s => ?_) hpos (h.nodup_qubitsOfAll hd)
    (fun q hq => ⟨(h.mem_qubitsOfAll.mp hq).1,
      .inr (h.mem_qubitsOfAll.mp hq).2⟩)
    (by rw [← hn]; exact congrArg (fun o => o.value.numQubits) (newObject_self v))
  · refine hgroup.congr fun q hq => ?_
    rw [iff_false, not_and_not_right]
    rintro (hf | hs)
    · exact hf.elim
    · exact h.mem_qubitsOfAll.mpr ⟨hq, hs⟩
  · exact fun hs => absurd (h.object s _ (of_dropStates_states hs).2).1
      (lt_irrefl _)

theorem Inv.measured_inv (h : w.Inv) {q : QubitPtr} (hq : q < w.numHandles)
    {p : StatePtr} (hp : w.states (w.qubits q).stateId = some p)
    {r : MeasureResult QState} (hmeasured : r.measured.numQubits = 1)
    (hsurvivors : r.survivors.numQubits = (w.objects p).value.numQubits - 1) :
    Inv (w.measured (w.qubits q).stateId q r) := by
  set s := (w.qubits q).stateId with hs
  have hlen : r.survivors.numQubits = (w.survivorsOf s q).length := by
    rw [h.length_survivorsOf hq, hsurvivors, ← hs, valueOf, hp]
    rfl
  have hfree : ∀ p' ≥ w.numObjects, ∀ s', w.states s' ≠ some p' :=
    fun p' hp' s' hs' => absurd (h.object s' p' hs').1 (not_lt.mpr hp')
  have hdrop := (h.newObject_inv r.measured).dropStates [s]
  have hfirst := @InvExcept.addGroup _ _ hdrop w.numObjects [q]
    (Nat.lt_succ_self _)
    (fun s' hs' => hfree _ le_rfl s' (of_dropStates_states hs').2)
    (List.cons_ne_nil q []) (List.nodup_singleton q)
    (fun x hx => by
      rw [List.mem_singleton.mp hx]
      exact ⟨hq, .inr (List.mem_singleton_self s)⟩)
    ((congrArg (fun o => o.value.numQubits) (newObject_self r.measured)).trans
      hmeasured)
  have hloose : ∀ x < w.numHandles,
      ((False ∨ (w.qubits x).stateId ∈ [s]) ∧ x ∉ [q]) ↔
        x ∈ w.survivorsOf s q := by
    intro x hx
    rw [h.mem_survivorsOf, false_or, List.mem_singleton, List.mem_singleton]
    exact ⟨fun hxs => ⟨hx, hxs⟩, And.right⟩
  rw [QStateRegistry.measured]
  split_ifs with hpos
  · have hsecond := @InvExcept.addGroup _ _ (hfirst.newObject r.survivors)
      (w.numObjects + 1) (w.survivorsOf s q) (Nat.lt_succ_self _)
      (fun s' => ?_) (List.length_pos_iff.mp (hlen ▸ hpos))
      (h.nodup_survivorsOf s q)
      (fun x hx => ⟨(h.mem_survivorsOf.mp hx).1,
        (hloose x (h.mem_survivorsOf.mp hx).1).mpr hx⟩)
      ((congrArg (fun o => o.value.numQubits) (newObject_self
        (w := ((w.newObject r.measured).2.dropStates [s]).addGroup w.numObjects
          [q]) r.survivors)).trans hlen)
    · refine hsecond.congr fun x hx => ?_
      rw [iff_false, not_and_not_right]
      exact (hloose x hx).mp
    · intro hs'
      have hupd : Function.update
          ((w.newObject r.measured).2.dropStates [s]).states w.nextStateId
            (some w.numObjects) s' = some (w.numObjects + 1) := hs'
      by_cases hn : s' = w.nextStateId
      · rw [hn, Function.update_self, Option.some.injEq] at hupd
        exact absurd hupd (Nat.succ_ne_self _).symm
      · rw [Function.update_of_ne hn] at hupd
        exact hfree _ (Nat.le_succ _) s' (of_dropStates_states hupd).2
  · have hnil : w.survivorsOf s q = [] :=
      List.length_eq_zero_iff.mp (by omega)
    refine hfirst.congr fun x hx => (hloose x hx).trans ?_
    rw [hnil]
    exact iff_of_false List.not_mem_nil not_false

/-! ## What only grows -/

/-- Handles keep their ids, and an id below the next state id that is registered
was registered before, for the same object. -/
structure Evolves (w w' : QStateRegistry) : Prop where
  handles : w.numHandles ≤ w'.numHandles
  ids : ∀ q < w.numHandles, (w'.qubits q).qubitId = (w.qubits q).qubitId
  nextState : w.nextStateId ≤ w'.nextStateId
  states : ∀ s < w.nextStateId, ∀ p, w'.states s = some p → w.states s = some p

theorem Evolves.refl (w : QStateRegistry) : w.Evolves w :=
  ⟨le_rfl, fun _ _ => rfl, le_rfl, fun _ _ _ h => h⟩

theorem Evolves.trans {w'' : QStateRegistry} (h : w.Evolves w')
    (h' : w'.Evolves w'') : w.Evolves w'' where
  handles := h.handles.trans h'.handles
  ids := fun q hq => (h'.ids q (hq.trans_le h.handles)).trans (h.ids q hq)
  nextState := h.nextState.trans h'.nextState
  states := fun s hs p hp =>
    h.states s hs p (h'.states s (hs.trans_le h.nextState) p hp)

theorem evolves_newObject (v : QState) : w.Evolves (w.newObject v).2 :=
  ⟨le_rfl, fun _ _ => rfl, le_rfl, fun _ _ _ h => h⟩

theorem evolves_setValue (p : StatePtr) (v : QState) :
    w.Evolves (w.setValue p v) :=
  ⟨le_rfl, fun _ _ => rfl, le_rfl, fun _ _ _ h => h⟩

theorem evolves_setLocation (q : QubitPtr) (loc : Location) :
    w.Evolves (w.setLocation q loc) :=
  ⟨le_rfl, fun _ _ => rfl, le_rfl, fun _ _ _ h => h⟩

theorem evolves_dropStates (sids : List StateId) :
    w.Evolves (w.dropStates sids) :=
  ⟨le_rfl, fun _ _ => rfl, le_rfl, fun _ _ _ h => (of_dropStates_states h).2⟩

theorem evolves_addGroup (p : StatePtr) (qs : List QubitPtr) :
    w.Evolves (w.addGroup p qs) where
  handles := le_rfl
  ids := fun _ _ => bound_qubitId _ _ _ _
  nextState := Nat.le_succ _
  states := fun s hs p' hp' => by
    have hold : (w.addGroup p qs).states s = w.states s :=
      Function.update_of_ne hs.ne _ _
    exact hold ▸ hp'

theorem evolves_addHandle (n : NodeId) : w.Evolves (w.addHandle n) where
  handles := Nat.le_succ _
  ids := fun q hq => by
    have hold : (w.addHandle n).qubits q = w.qubits q :=
      Function.update_of_ne hq.ne _ _
    rw [hold]
  nextState := le_rfl
  states := fun _ _ _ h => h

theorem evolves_merged (sids : List StateId) (v : QState) :
    w.Evolves (w.merged sids v) :=
  ((evolves_newObject v).trans (evolves_dropStates sids)).trans
    (evolves_addGroup _ _)

theorem evolves_measured (s : StateId) (q : QubitPtr) (r : MeasureResult QState) :
    w.Evolves (w.measured s q r) := by
  have hfirst : w.Evolves (((w.newObject r.measured).2.dropStates [s]).addGroup
      w.numObjects [q]) :=
    ((evolves_newObject _).trans (evolves_dropStates _)).trans
      (evolves_addGroup _ _)
  rw [measured]
  split_ifs
  · exact (hfirst.trans (evolves_newObject _)).trans (evolves_addGroup _ _)
  · exact hfirst

/-- The registry is sound and has evolved from `w`. -/
structure Keeps (w w' : QStateRegistry) : Prop where
  inv : w'.Inv
  evolves : w.Evolves w'

theorem Inv.keeps (h : w.Inv) : w.Keeps w := ⟨h, .refl w⟩

theorem Keeps.trans {w'' : QStateRegistry} (h : w.Keeps w') (h' : w'.Keeps w'') :
    w.Keeps w'' := ⟨h'.inv, h.evolves.trans h'.evolves⟩

/-- Two calls in a row. -/
theorem andThen_keeps {α β : Type} {x : Except Exit α × QStateRegistry}
    {f : α → QStateRegistry → Except Exit β × QStateRegistry}
    (hx : w.Keeps x.2) (hf : ∀ a (w' : QStateRegistry), w'.Inv → w'.Keeps (f a w').2) :
    w.Keeps (andThen x f).2 := by
  obtain ⟨a, w'⟩ := x
  cases a with
  | error e => exact hx
  | ok a => exact hx.trans (hf a w' hx.inv)

/-! ## Apply -/

/-- `w'` is the registry once the handles `qs` are in one state, of object `p`. -/
inductive Gathered (w : QStateRegistry) (qs : List QubitPtr) :
    QStateRegistry → StatePtr → Prop where
  | same {s : StateId} {p : StatePtr} (hall : ∀ q ∈ qs, (w.qubits q).stateId = s)
      (hp : w.states s = some p) : Gathered w qs w p
  | several {s : StateId} {rest : List StateId} {v : QState}
      (hs : w.Several qs s rest)
      (hv : mergeValues (w.valueOf s) (rest.map w.valueOf) = .ok v) :
      Gathered w qs (w.merged (s :: rest) v) w.numObjects

theorem Several.registered {qs : List QubitPtr} {s : StateId}
    {rest : List StateId} (hs : w.Several qs s rest) (h : w.Inv)
    (hqs : ∀ q ∈ qs, q < w.numHandles) : ∀ s' ∈ s :: rest, w.states s' ≠ none := by
  intro s' hs'
  obtain ⟨q, hq, rfl⟩ := (hs.mem s').mp hs'
  exact h.states_of_handle (hqs q hq)

/-- Handles are gathered unless the merge of their states fails, which changes
nothing. -/
theorem Inv.mergeStates_gathered (h : w.Inv) {qs : List QubitPtr} (hne : qs ≠ [])
    (hqs : ∀ q ∈ qs, q < w.numHandles) :
    (∃ w' p, w.Gathered qs w' p ∧ w.mergeStates qs = (.ok (some p), w')) ∨
      ∃ s rest e, w.Several qs s rest ∧
        mergeValues (w.valueOf s) (rest.map w.valueOf) = .error e ∧
        w.mergeStates qs = (.error e, w) := by
  rcases h.mergeStates_cases hne hqs with ⟨s, p, hall, hp, hok⟩ |
    ⟨s, rest, hs, ⟨e, he, herr⟩ | ⟨v, hv, hok⟩⟩
  · exact .inl ⟨w, p, .same hall hp, hok⟩
  · exact .inr ⟨s, rest, e, hs, he, herr⟩
  · exact .inl ⟨_, _, .several hs hv, hok⟩

theorem Gathered.keeps {qs : List QubitPtr} {p : StatePtr}
    (hg : w.Gathered qs w' p) (h : w.Inv) (hqs : ∀ q ∈ qs, q < w.numHandles) :
    w.Keeps w' := by
  cases hg with
  | same hall hp => exact h.keeps
  | several hs hv =>
      have hreg := hs.registered h hqs
      exact ⟨h.merged_inv (List.cons_ne_nil _ _) hs.nodup hreg
        (h.mergeValues_length hreg hv), evolves_merged _ _⟩

/-- Gathered handles are in the state of the object. -/
theorem Gathered.home {qs : List QubitPtr} {p : StatePtr}
    (hg : w.Gathered qs w' p) (h : w.Inv) (hqs : ∀ q ∈ qs, q < w.numHandles) :
    ∃ s, w'.states s = some p ∧ ∀ q ∈ qs, (w'.qubits q).stateId = s := by
  cases hg with
  | same hall hp => exact ⟨_, hp, hall⟩
  | several hs hv =>
      refine ⟨w.nextStateId, Function.update_self _ _ _, fun q hq => ?_⟩
      have hmem : q ∈ w.qubitsOfAll (_ :: _) :=
        h.mem_qubitsOfAll.mpr ⟨hqs q hq, (hs.mem _).mpr ⟨q, hq, rfl⟩⟩
      exact congrArg Qubit.stateId (bound_of_mem hmem)

/-- The indices of handles, as `Apply` looks them up. -/
def targetsOf (w : QStateRegistry) (qs : List QubitPtr) : List ℕ :=
  qs.map fun q => (w.qubits q).indexInState

/-- How `Apply` ends. -/
theorem Inv.apply_cases (h : w.Inv) (node : NodeId) (gate : QGate)
    (qs : List QubitPtr) :
    ((qs = [] ∨ ∃ q ∈ qs, w.numHandles ≤ q ∨ ¬ w.IsLocal node q) ∧
      w.apply node gate qs = (.ok false, w)) ∨
    (qs ≠ [] ∧ ∀ q ∈ qs, q < w.numHandles ∧ w.IsLocal node q) ∧
      ((∃ s rest e, w.Several qs s rest ∧
        mergeValues (w.valueOf s) (rest.map w.valueOf) = .error e ∧
        w.apply node gate qs = (.error e, w)) ∨
      ∃ w' p, w.Gathered qs w' p ∧ w.mergeStates qs = (.ok (some p), w') ∧
        ((∃ e, (w'.objects p).value.apply gate (w'.targetsOf qs) = .error e ∧
          w.apply node gate qs = (.error e, w')) ∨
        ∃ v, (w'.objects p).value.apply gate (w'.targetsOf qs) = .ok v ∧
          w.apply node gate qs = (.ok true, w'.setValue p v))) := by
  by_cases hne : qs = []
  · exact .inl ⟨.inl hne, by rw [apply, if_pos hne]⟩
  by_cases hbad : ∃ q ∈ qs, w.numHandles ≤ q ∨ ¬ w.IsLocal node q
  · exact .inl ⟨.inr hbad, by rw [apply, if_neg hne, if_pos hbad]⟩
  have hqs : ∀ q ∈ qs, q < w.numHandles ∧ w.IsLocal node q := by
    intro q hq
    by_contra hno
    rw [not_and_or, not_lt] at hno
    exact hbad ⟨q, hq, hno⟩
  refine .inr ⟨⟨hne, hqs⟩, ?_⟩
  rw [apply, if_neg hne, if_neg hbad]
  rcases h.mergeStates_gathered hne fun q hq => (hqs q hq).1 with
    ⟨w', p, hg, hok⟩ | ⟨s, rest, e, hs, he, herr⟩
  · refine .inr ⟨w', p, hg, hok, ?_⟩
    rw [hok, andThen]
    dsimp only
    cases hv : (w'.objects p).value.apply gate (w'.targetsOf qs) with
    | error e =>
        refine .inl ⟨e, rfl, ?_⟩
        rw [targetsOf] at hv
        rw [hv]
    | ok v =>
        refine .inr ⟨v, rfl, ?_⟩
        rw [targetsOf] at hv
        rw [hv]
  · refine .inl ⟨s, rest, e, hs, he, ?_⟩
    rw [herr, andThen]

theorem Inv.setValue_keeps (h : w.Inv) {p : StatePtr} {v : QState}
    (hn : v.numQubits = (w.objects p).value.numQubits) :
    w.Keeps (w.setValue p v) := ⟨h.setValue hn, evolves_setValue p v⟩

/-- Merging and gates leave every qubit where it is. -/
theorem Gathered.getLocation {qs : List QubitPtr} {p : StatePtr}
    (hg : w.Gathered qs w' p) (x : QubitPtr) :
    w'.getLocation x = w.getLocation x := by
  cases hg with
  | same hall hp => rfl
  | several hs hv =>
      rw [QStateRegistry.getLocation, QStateRegistry.getLocation, merged]
      exact congrArg (fun id => (w.location id).getD .unset)
        (bound_qubitId _ _ _ _)

theorem Inv.apply_getLocation (h : w.Inv) (node : NodeId) (gate : QGate)
    (qs : List QubitPtr) (x : QubitPtr) :
    (w.apply node gate qs).2.getLocation x = w.getLocation x := by
  rcases h.apply_cases node gate qs with ⟨-, hf⟩ | ⟨-,
    ⟨s, rest, e, -, -, he⟩ | ⟨w₁, p, hg, -, ⟨e, -, he⟩ | ⟨v, -, hok⟩⟩⟩
  · rw [hf]
  · rw [he]
  · rw [he]
    exact hg.getLocation x
  · rw [hok]
    exact hg.getLocation x

theorem Inv.apply_keeps (h : w.Inv) (node : NodeId) (gate : QGate)
    (qs : List QubitPtr) : w.Keeps (w.apply node gate qs).2 := by
  rcases h.apply_cases node gate qs with ⟨-, hf⟩ | ⟨⟨-, hqs⟩,
    ⟨s, rest, e, -, -, he⟩ | ⟨w', p, hg, -, ⟨e, -, he⟩ | ⟨v, hv, hok⟩⟩⟩
  · rw [hf]
    exact h.keeps
  · rw [he]
    exact h.keeps
  · rw [he]
    exact hg.keeps h fun q hq => (hqs q hq).1
  · rw [hok]
    have hk := hg.keeps h fun q hq => (hqs q hq).1
    exact hk.trans (hk.inv.setValue_keeps (QState.apply_numQubits hv))

/-! ## Measure -/

/-- How `Measure` ends. -/
theorem Inv.measure_cases (h : w.Inv) (node : NodeId) (q : QubitPtr)
    (basis : Basis) (draw : Bool) :
    ((w.numHandles ≤ q ∨ ¬ w.IsLocal node q) ∧
      w.measure node q basis draw = (.ok (-1), w)) ∨
    (q < w.numHandles ∧ w.IsLocal node q) ∧
      ∃ p v, w.states (w.qubits q).stateId = some p ∧
        v.numQubits = (w.objects p).value.numQubits ∧
        ((∃ e, (w.objects p).value.measure (w.qubits q).indexInState basis draw =
            (.error e, v) ∧
          w.measure node q basis draw = (.error e, w.setValue p v)) ∨
        ∃ r, (w.objects p).value.measure (w.qubits q).indexInState basis draw =
            (.ok r, v) ∧
          r.measured.numQubits = 1 ∧
          r.survivors.numQubits = (w.objects p).value.numQubits - 1 ∧
          w.measure node q basis draw = (.ok r.outcome.toNat,
            (w.setValue p v).measured (w.qubits q).stateId q r)) := by
  by_cases hnull : w.numHandles ≤ q
  · exact .inl ⟨.inl hnull, by rw [measure, if_pos hnull]⟩
  by_cases hlocal : w.IsLocal node q
  · have hq := not_le.mp hnull
    refine .inr ⟨⟨hq, hlocal⟩, ?_⟩
    obtain ⟨p, hp⟩ := Option.ne_none_iff_exists'.mp (h.states_of_handle hq)
    have hobj := (h.object _ p hp).2
    have hloc : w.getLocation q = .node node := hlocal
    cases hres : (w.objects p).value.measure (w.qubits q).indexInState basis
      draw with
    | mk split v =>
        obtain ⟨hn, hr⟩ := QState.measure_numQubits hres
        refine ⟨p, v, hp, hn, ?_⟩
        cases split with
        | error e =>
            refine .inl ⟨e, hres, ?_⟩
            rw [measure, if_neg hnull, if_neg (not_not.mpr hlocal), getState, hp]
            dsimp only
            rw [hres]
        | ok r =>
            obtain ⟨hm, hsurv⟩ := hr r rfl
            have hself : ((w.setValue p v).objects p).value.numQubits =
                (w.objects p).value.numQubits := by
              rw [setValue, ← hn]
              exact congrArg (fun o => o.value.numQubits)
                (Function.update_self p _ w.objects)
            have hinv := (h.setValue_keeps hn).inv
            have hrebind := hinv.rebindMeasured_eq (q := q) hp hq rfl hm
              (hself.symm ▸ hsurv)
            have hsort : w.sortByIndex (w.qubitsOf (w.objects p).stateId) =
                (w.setValue p v).sortByIndex
                  ((w.setValue p v).qubitsOf (w.qubits q).stateId) := by
              rw [hobj]
              rfl
            have hloc' : (w.setValue p v).getLocation q = .node node := hloc
            rw [hloc'] at hrebind
            refine .inr ⟨r, hres, hm, hsurv, ?_⟩
            rw [measure, if_neg hnull, if_neg (not_not.mpr hlocal), getState, hp]
            dsimp only
            rw [hres]
            dsimp only
            rw [hsort, hrebind]
  · exact .inl ⟨.inr hlocal, by rw [measure, if_neg hnull, if_pos hlocal]⟩

theorem Inv.measure_keeps (h : w.Inv) (node : NodeId) (q : QubitPtr)
    (basis : Basis) (draw : Bool) : w.Keeps (w.measure node q basis draw).2 := by
  rcases h.measure_cases node q basis draw with ⟨-, hf⟩ | ⟨⟨hq, -⟩, p, v, hp, hn,
    ⟨e, -, he⟩ | ⟨r, -, hm, hsurv, hok⟩⟩
  · rw [hf]
    exact h.keeps
  · rw [he]
    exact h.setValue_keeps hn
  · rw [hok]
    have hk := h.setValue_keeps hn
    have hself : ((w.setValue p v).objects p).value.numQubits =
        (w.objects p).value.numQubits := by
      rw [← hn]
      exact congrArg (fun o => o.value.numQubits)
        (Function.update_self p _ w.objects)
    refine hk.trans ⟨?_, evolves_measured _ _ _⟩
    exact hk.inv.measured_inv (q := q) hq hp hm (hself.symm ▸ hsurv)

/-! ## Creating qubits -/

/-- A new handle in a state of its own, whose object was registered nowhere. -/
def withQubit (w : QStateRegistry) (n : NodeId) (p : StatePtr) :
    QStateRegistry := (w.addHandle n).addGroup p [w.numHandles]

/-- Two new handles in a new state. -/
def withPair (w : QStateRegistry) (n : NodeId) (v : QState) : QStateRegistry :=
  (((w.newObject v).2.addHandle n).addHandle n).addGroup w.numObjects
    [w.numHandles, w.numHandles + 1]

theorem Inv.createQubit_eq (h : w.Inv) (node : NodeId) :
    ∃ v, QState.create 1 w.defaultBackend = .ok v ∧ w.createQubit node =
      (.ok (some w.numHandles), (w.newObject v).2.withQubit node w.numObjects) := by
  obtain ⟨v, hv, hstate⟩ := createState_eq h Nat.one_ne_zero
  refine ⟨v, hv, ?_⟩
  rw [createQubit, hstate, andThen]
  exact bindFirst_eq (h.newObject_inv v) node rfl

/-- `CreateQubit` on an object that has a qubit. -/
theorem Inv.createQubitFrom_eq (h : w.Inv) (node : NodeId) {p : StatePtr}
    (hp : p < w.numObjects) (hn : 0 < (w.objects p).value.numQubits) :
    w.createQubitFrom node p = (.ok (some w.numHandles), w.withQubit node p) := by
  obtain ⟨k, hk⟩ := Nat.exists_eq_succ_of_ne_zero hn.ne'
  rw [createQubitFrom, if_neg (not_le.mpr hp),
    createStateFromExisting_eq h.fresh_states hp, hk, List.range_succ_eq_map]
  exact bindFirst_eq h node rfl

theorem Inv.createBellPair_eq (h : w.Inv) (node : NodeId) :
    ∃ v, QState.create 2 w.defaultBackend = .ok v ∧ w.createBellPair node =
      andThen ((w.withPair node v).apply node (.builtin .H) [w.numHandles])
        fun _ w' => andThen (w'.apply node (.builtin .CNOT)
          [w.numHandles, w.numHandles + 1]) fun _ w' =>
            (.ok (w.numHandles, w.numHandles + 1), w') := by
  obtain ⟨v, hv, hstate⟩ := createState_eq h two_ne_zero
  refine ⟨v, hv, ?_⟩
  have hpair : w.withPair node v = _ :=
    (bindPair_eq (h.newObject_inv v) (p := w.numObjects) node).symm
  rw [createBellPair, hstate, andThen, hpair]
  rfl

theorem Inv.withQubit_keeps (h : w.Inv) (n : NodeId) {p : StatePtr}
    (hp : p < w.numObjects) (hfree : ∀ s, w.states s ≠ some p)
    (hn : (w.objects p).value.numQubits = 1) : w.Keeps (w.withQubit n p) := by
  refine ⟨?_, (evolves_addHandle n).trans (evolves_addGroup _ _)⟩
  have hgroup := @InvExcept.addGroup _ _ (h.addHandle n) p [w.numHandles] hp hfree
    (List.cons_ne_nil _ _) (List.nodup_singleton _)
    (fun q hq => by
      rw [List.mem_singleton.mp hq]
      exact ⟨Nat.lt_succ_self _, .inr rfl⟩) hn
  refine hgroup.congr fun q _ => ?_
  rw [iff_false, false_or, List.mem_singleton]
  exact fun hq => hq.2 hq.1

theorem Inv.withPair_keeps (h : w.Inv) (n : NodeId) {v : QState}
    (hn : v.numQubits = 2) : w.Keeps (w.withPair n v) := by
  refine ⟨?_, (((evolves_newObject v).trans (evolves_addHandle n)).trans
    (evolves_addHandle n)).trans (evolves_addGroup _ _)⟩
  have hgroup := @InvExcept.addGroup _ _
    (((h.newObject_inv v).addHandle n).addHandle n) w.numObjects
    [w.numHandles, w.numHandles + 1]
    (Nat.lt_succ_self _)
    (fun s hs => absurd (h.object s _ hs).1 (lt_irrefl _))
    (List.cons_ne_nil _ _) (by simp)
    (fun q hq => by
      rcases List.mem_pair.mp hq with rfl | rfl
      · exact ⟨Nat.lt_succ_of_lt (Nat.lt_succ_self _), .inl (.inr rfl)⟩
      · exact ⟨Nat.lt_succ_self _, .inr rfl⟩)
    ((congrArg (fun o => o.value.numQubits) (newObject_self v)).trans hn)
  refine hgroup.congr fun q _ => ?_
  rw [iff_false, List.mem_pair]
  rintro ⟨(hf | hq) | hq, hno⟩
  · exact hf
  · exact hno (.inl hq)
  · exact hno (.inr hq)

/-! ## Steps -/

/-- `CreateQubit(state)` only gets an object that holds one qubit and is not
registered, or the null pointer. -/
def AdoptsFresh (w : QStateRegistry) : Op → Prop
  | .createQubitFrom _ p => p < w.numObjects →
      (w.objects p).value.numQubits = 1 ∧ ∀ s, w.states s ≠ some p
  | _ => True

theorem Inv.setLocationNode_keeps (h : w.Inv) {q : QubitPtr}
    (hq : q < w.numHandles) (n : NodeId) : w.Keeps (w.setLocationNode q n) := by
  rw [setLocationNode]
  split_ifs
  · exact h.keeps
  · exact ⟨h.setLocation hq _, evolves_setLocation q _⟩

theorem Inv.onHandle_keeps (h : w.Inv) {q : QubitPtr}
    (hk : q < w.numHandles → w.Keeps w') : w.Keeps (w.onHandle q w').2 := by
  rw [onHandle]
  split_ifs with hnull
  · exact h.keeps
  · exact hk (not_le.mp hnull)

theorem Inv.measureBell_keeps (h : w.Inv) (node : NodeId) (a b : QubitPtr)
    (drawA drawB : Bool) : w.Keeps (w.measureBell node a b drawA drawB).2 := by
  rw [measureBell]
  split_ifs
  case neg =>
    refine andThen_keeps (h.apply_keeps node _ _) fun ok w₁ h₁ => ?_
    split_ifs
    · exact h₁.keeps
    · refine andThen_keeps (h₁.apply_keeps node _ _) fun ok w₂ h₂ => ?_
      split_ifs
      · exact h₂.keeps
      · refine andThen_keeps (h₂.measure_keeps node _ _ _) fun _ w₃ h₃ => ?_
        exact andThen_keeps (h₃.measure_keeps node _ _ _) fun _ w₄ h₄ => h₄.keeps
  all_goals exact h.keeps

/-- Every operation keeps the invariant. -/
theorem Inv.exec_keeps (h : w.Inv) {op : Op} (hop : w.AdoptsFresh op) :
    w.Keeps (w.exec op).2 := by
  cases op with
  | newState value => exact ⟨h.newObject_inv value, evolves_newObject value⟩
  | setDefaultBackend b =>
      have htracked : ∀ q < w.numHandles, (w.setDefaultBackend b).Tracked q :=
        fun q hq => ⟨(h.tracked q hq).1, (h.tracked q hq).2, (h.tracked q hq).3,
          (h.tracked q hq).4⟩
      exact ⟨{ h with tracked := htracked, index := h.index.of_eq rfl rfl },
        ⟨le_rfl, fun _ _ => rfl, le_rfl, fun _ _ _ h => h⟩⟩
  | createQubit node =>
      obtain ⟨v, hv, heq⟩ := h.createQubit_eq node
      have hk : w.Keeps (w.newObject v).2 :=
        ⟨h.newObject_inv v, evolves_newObject v⟩
      rw [exec, ending, heq]
      refine hk.trans (hk.inv.withQubit_keeps node (Nat.lt_succ_self _)
        (fun s hs => absurd (h.object s _ hs).1 (lt_irrefl _)) ?_)
      exact (congrArg (fun o => o.value.numQubits) (newObject_self v)).trans
        (QState.create_numQubits hv)
  | createQubitFrom node p =>
      rw [exec, ending]
      by_cases hp : p < w.numObjects
      · obtain ⟨hn, hfree⟩ := hop hp
        rw [h.createQubitFrom_eq node hp (hn ▸ Nat.one_pos)]
        exact h.withQubit_keeps node hp hfree hn
      · rw [createQubitFrom, if_pos (not_lt.mp hp)]
        exact h.keeps
  | createBellPair node =>
      obtain ⟨v, hv, heq⟩ := h.createBellPair_eq node
      rw [exec, ending, heq]
      have hk := h.withPair_keeps node (QState.create_numQubits hv)
      refine andThen_keeps (hk.trans (hk.inv.apply_keeps _ _ _)) fun _ w₁ h₁ => ?_
      exact andThen_keeps (h₁.apply_keeps _ _ _) fun _ w₂ h₂ => h₂.keeps
  | apply node gate qs => exact h.apply_keeps node gate qs
  | measure node q basis draw => exact h.measure_keeps node q basis draw
  | measureBell node a b drawA drawB =>
      exact h.measureBell_keeps node a b drawA drawB
  | adoptQubit node q =>
      rw [exec, adoptQubit]
      split_ifs with hnull
      · exact h.keeps
      · exact h.keeps
      · exact h.setLocationNode_keeps (not_le.mp hnull) node
  | setLocationNode q node =>
      exact h.onHandle_keeps fun hq => h.setLocationNode_keeps hq node
  | setLocationChannel q c =>
      refine h.onHandle_keeps fun hq => ?_
      rw [setLocationChannel]
      split_ifs
      · exact h.keeps
      · exact ⟨h.setLocation hq _, evolves_setLocation q _⟩
  | setLocationLost q =>
      exact h.onHandle_keeps fun hq =>
        ⟨h.setLocation hq _, evolves_setLocation q _⟩

theorem Inv.step_keeps (h : w.Inv) {op : Op} (hop : w.AdoptsFresh op)
    (hs : w.step op = some w') : w.Keeps w' := by
  have hk := h.exec_keeps hop
  unfold step at hs
  split at hs
  · cases hs
  · next w'' heq =>
      obtain rfl := Option.some.inj hs
      rwa [heq] at hk

end Q2NS.QStateRegistry
