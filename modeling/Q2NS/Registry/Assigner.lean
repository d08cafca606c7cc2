import Q2NS.Registry.Registrations

/-!
# The calls of the stream assigner

`CreateState` and `CreateStateFromExisting` call `streamAssigner_` for the state that they
have registered.  Here the operations return these calls beside their results: they are
the ids that the operation takes, each once and in order.
-/

namespace Q2NS.QStateRegistry

open Loop

variable {w w' : QStateRegistry}

/-! ## Functions that register states -/

/-- `CreateState`, with the calls `streamAssigner_(*state)`: each is given by the id that
the state reports. -/
noncomputable def createStateAssigned (w : QStateRegistry) (n : ℕ) :
    (Except Exit CreateStateResult × QStateRegistry) × List StateId :=
  if n = 0 then ((.ok {}, w), [])
  else
    let sid := w.nextStateId
    let w := { w with nextStateId := w.nextStateId + 1 }
    match QState.create n w.defaultBackend with
    | .error e => ((.error e, w), [])
    | .ok value =>
        let (state, w) := w.newObject value
        let w := { w with states := Function.update w.states sid (some state) }
        let w := w.setStateId state sid
        let calls := [(w.objects state).stateId]
        ((.ok { stateId := sid, indices := List.range n },
          { w with
            members := Function.update w.members sid (some (w.qubitsOf sid)) }), calls)

/-- `CreateStateFromExisting`, with the calls of the assigner. -/
def createStateFromExistingAssigned (w : QStateRegistry) (state : StatePtr) :
    (CreateStateResult × QStateRegistry) × List StateId :=
  if w.numObjects ≤ state then (({}, w), [])
  else
    let newId := w.nextStateId
    let w := { w with
      nextStateId := w.nextStateId + 1
      states := if (w.states newId).isSome then w.states
        else Function.update w.states newId (some state) }
    let w := w.setStateId state newId
    let calls := [(w.objects state).stateId]
    (({ stateId := newId, indices := List.range (w.objects state).value.numQubits },
      { w with members := Function.update w.members newId (some []) }), calls)

/-- The part of `MergeStates` that follows the sorting of the buckets, with the calls of
the assigner. -/
noncomputable def mergeSortedAssigned (w : QStateRegistry) (buckets : List StateBucket) :
    (Except Exit (Option StatePtr) × QStateRegistry) × List StateId :=
  let allQs := buckets.flatMap StateBucket.members
  match w.mergeBuckets buckets with
  | .error e => ((.error e, w), [])
  | .ok none => ((.ok none, w), [])
  | .ok (some merged) =>
      let (state, w) := w.newObject merged
      let ((created, w), calls) := w.createStateFromExistingAssigned state
      match rebindAll created.stateId allQs created.indices w with
      | .error e => ((.error e, w), calls)
      | .ok w =>
          let w := w.removeEmpty (buckets.map StateBucket.sid)
          ((.ok (w.getState created.stateId), w), calls)

/-- The part of `Measure` that follows the call of the backend, with the calls of the
assigner: one for the measured qubit and one for the survivors, if there are any. -/
noncomputable def rebindMeasuredAssigned (w : QStateRegistry) (currentState : StatePtr)
    (related : List QubitPtr) (q : QubitPtr) (locQ : Location)
    (split : MeasureResult QState) : Except Exit (QStateRegistry × List StateId) :=
  let w := related.foldl (fun w r => w.unregisterEverywhere r) w
  let (measured, w) := w.newObject split.measured
  let ((newMeasured, w), callsMeasured) := w.createStateFromExistingAssigned measured
  match newMeasured.indices with
  | [] => .error (.aborted "index out of range")
  | i :: _ => do
      let w := ((w.rebind q newMeasured.stateId i).register q).setLocation q locQ
      let (w, callsSurvivors) ←
        if split.survivors.numQubits > 0 then do
          let (survivors, w) := w.newObject split.survivors
          let ((survivorsRes, w), calls) := w.createStateFromExistingAssigned survivors
          let w ← bindSurvivors survivorsRes.stateId q related survivorsRes.indices w
          pure (w, calls)
        else pure (w, [])
      let old := (w.objects currentState).stateId
      return (if w.qubitsOf old = [] then w.removeState old else w,
        callsMeasured ++ callsSurvivors)

/-! ## Whole operations -/

/-- A part of an operation that calls nothing. -/
def silent {α : Type} (y : α × QStateRegistry) : (α × QStateRegistry) × List StateId :=
  (y, [])

/-- `andThen`, with the calls of both parts. -/
def andThenAssigned {α β : Type} (x : (Except Exit α × QStateRegistry) × List StateId)
    (f : α → QStateRegistry → (Except Exit β × QStateRegistry) × List StateId) :
    (Except Exit β × QStateRegistry) × List StateId :=
  match x with
  | ((.error e, w), calls) => ((.error e, w), calls)
  | ((.ok a, w), calls) => ((f a w).1, calls ++ (f a w).2)

/-- `MergeStates`, with the calls of the assigner. -/
noncomputable def mergeStatesAssigned (w : QStateRegistry) (qs : List QubitPtr) :
    (Except Exit (Option StatePtr) × QStateRegistry) × List StateId :=
  if qs = [] then silent (.ok none, w)
  else if ∃ q ∈ qs, w.numHandles ≤ q then silent (.ok none, w)
  else
    match w.stateIdsOf qs with
    | [sid] => silent (.ok (w.getState sid), w)
    | sids =>
        match sids.mapM w.bucketOf with
        | none => silent (.ok none, w)
        | some buckets => w.mergeSortedAssigned (buckets.mergeSort StateBucket.le)

/-- `CreateQubit(label)`, with the calls of the assigner. -/
noncomputable def createQubitAssigned (w : QStateRegistry) (node : NodeId) :
    (Except Exit (Option QubitPtr) × QStateRegistry) × List StateId :=
  andThenAssigned (w.createStateAssigned 1) fun res w => silent (w.bindFirst node res)

/-- `CreateQubit(state, label)`, with the calls of the assigner. -/
def createQubitFromAssigned (w : QStateRegistry) (node : NodeId) (state : StatePtr) :
    (Except Exit (Option QubitPtr) × QStateRegistry) × List StateId :=
  if w.numObjects ≤ state then silent (.ok none, w)
  else
    let ((res, w), calls) := w.createStateFromExistingAssigned state
    (w.bindFirst node res, calls)

/-- `Apply`, with the calls of the assigner. -/
noncomputable def applyAssigned (w : QStateRegistry) (node : NodeId) (gate : QGate)
    (qs : List QubitPtr) : (Except Exit Bool × QStateRegistry) × List StateId :=
  if qs = [] then silent (.ok false, w)
  else if ∃ q ∈ qs, w.numHandles ≤ q ∨ ¬ w.IsLocal node q then silent (.ok false, w)
  else
    andThenAssigned (w.mergeStatesAssigned qs) fun st w =>
      match st with
      | none => silent (.ok false, w)
      | some st =>
          let targets := qs.map fun q => (w.qubits q).indexInState
          match (w.objects st).value.apply gate targets with
          | .error e => silent (.error e, w)
          | .ok value => silent (.ok true, w.setValue st value)

/-- `CreateBellPair`, with the calls of the assigner. -/
noncomputable def createBellPairAssigned (w : QStateRegistry) (node : NodeId) :
    (Except Exit (QubitPtr × QubitPtr) × QStateRegistry) × List StateId :=
  andThenAssigned (w.createStateAssigned 2) fun created w =>
    let (q0, w) := w.newHandle created.stateId (created.indices.getD 0 0)
    let (q1, w) := w.newHandle created.stateId (created.indices.getD 1 0)
    let w := (w.register q0).register q1
    let w := (w.setLocationNode q0 node).setLocationNode q1 node
    andThenAssigned (w.applyAssigned node (.builtin .H) [q0]) fun _ w =>
      andThenAssigned (w.applyAssigned node (.builtin .CNOT) [q0, q1]) fun _ w =>
        silent (.ok (q0, q1), w)

/-- `Measure`, with the calls of the assigner; those of a call that ends the process do
not count. -/
noncomputable def measureAssigned (w : QStateRegistry) (node : NodeId) (q : QubitPtr)
    (basis : Basis) (draw : Bool) : (Except Exit ℤ × QStateRegistry) × List StateId :=
  if w.numHandles ≤ q then silent (.ok (-1), w)
  else if ¬ w.IsLocal node q then silent (.ok (-1), w)
  else
    match w.getState (w.qubits q).stateId with
    | none => silent (.ok (-1), w)
    | some currentState =>
        let related := w.sortByIndex
          (w.qubitsOf (w.objects currentState).stateId)
        let (split, value) := (w.objects currentState).value.measure
          (w.qubits q).indexInState basis draw
        let w := w.setValue currentState value
        match split with
        | .error e => silent (.error e, w)
        | .ok split =>
            match w.rebindMeasuredAssigned currentState related q (.node node) split with
            | .error e => silent (.error e, w)
            | .ok (w, calls) => ((.ok split.outcome.toNat, w), calls)

/-- `MeasureBell`, with the calls of the assigner. -/
noncomputable def measureBellAssigned (w : QStateRegistry) (node : NodeId) (a b : QubitPtr)
    (drawA drawB : Bool) : (Except Exit (ℤ × ℤ) × QStateRegistry) × List StateId :=
  if w.numHandles ≤ a ∨ w.numHandles ≤ b then silent (.ok (-1, -1), w)
  else if w.getLocation a = .lost then silent (.ok (-1, -1), w)
  else if w.getLocation b = .lost then silent (.ok (-1, -1), w)
  else if ¬ w.IsLocal node a ∨ ¬ w.IsLocal node b then silent (.ok (-1, -1), w)
  else
    andThenAssigned (w.applyAssigned node (.builtin .CNOT) [a, b]) fun ok w =>
      if ok = false then silent (.ok (-1, -1), w)
      else
        andThenAssigned (w.applyAssigned node (.builtin .H) [a]) fun ok w =>
          if ok = false then silent (.ok (-1, -1), w)
          else
            andThenAssigned (w.measureAssigned node a .Z drawA) fun resultA w =>
              andThenAssigned (w.measureAssigned node b .Z drawB) fun resultB w =>
                silent (.ok (resultA, resultB), w)

/-- `ending`, with the calls. -/
def endingAssigned {α : Type} (x : (Except Exit α × QStateRegistry) × List StateId) :
    (Except Exit Unit × QStateRegistry) × List StateId :=
  (ending x.1, x.2)

/-- An operation, with the calls of the assigner. -/
noncomputable def execAssigned (w : QStateRegistry) :
    Op → (Except Exit Unit × QStateRegistry) × List StateId
  | .newState value => silent (.ok (), (w.newObject value).2)
  | .setDefaultBackend b => silent (.ok (), w.setDefaultBackend b)
  | .createQubit node => endingAssigned (w.createQubitAssigned node)
  | .createQubitFrom node state => endingAssigned (w.createQubitFromAssigned node state)
  | .createBellPair node => endingAssigned (w.createBellPairAssigned node)
  | .apply node gate qs => endingAssigned (w.applyAssigned node gate qs)
  | .measure node q basis draw => endingAssigned (w.measureAssigned node q basis draw)
  | .measureBell node a b drawA drawB =>
      endingAssigned (w.measureBellAssigned node a b drawA drawB)
  | .adoptQubit node q => silent (.ok (), w.adoptQubit node q)
  | .setLocationNode q node => silent (w.onHandle q (w.setLocationNode q node))
  | .setLocationChannel q c => silent (w.onHandle q (w.setLocationChannel q c))
  | .setLocationLost q => silent (w.onHandle q (w.setLocationLost q))

/-! ## The calls are the ids taken -/

/-- `x` is `y` with its calls, and these are the ids that it takes. -/
structure Logs {α : Type} (w : QStateRegistry) (y : α × QStateRegistry)
    (x : (α × QStateRegistry) × List StateId) : Prop where
  grows : w.Grows y.2
  result : x.1 = y
  calls : x.2 = taken w y.2

section

variable {α β : Type} {y : α × QStateRegistry} {x : (α × QStateRegistry) × List StateId}

theorem Logs.eq (h : w.Logs y x) : x = (y, taken w y.2) := Prod.ext h.result h.calls

theorem Quiet.logs (h : w.Quiet y.2) : w.Logs y (silent y) :=
  ⟨h.grows, rfl, h.taken_nil.symm⟩

/-- A part that takes no id, before. -/
theorem Quiet.logs_after (h : w.Quiet w') (hl : w'.Logs y x) : w.Logs y x :=
  ⟨h.grows.trans hl.grows, hl.result, hl.calls.trans (h.taken_grows hl.grows).symm⟩

/-- A part that takes no id, afterwards. -/
theorem Logs.then_quiet {z : β × QStateRegistry} (h : w.Logs y x) (hq : y.2.Quiet z.2) :
    w.Logs z (z, x.2) :=
  ⟨h.grows.trans hq.grows, rfl, h.calls.trans (h.grows.taken_quiet hq).symm⟩

theorem Logs.then_logs {z : β × QStateRegistry}
    {x' : (β × QStateRegistry) × List StateId} (h : w.Logs y x) (h' : y.2.Logs z x') :
    w.Logs z (x'.1, x.2 ++ x'.2) :=
  ⟨h.grows.trans h'.grows, h'.result, by
    rw [h.calls, h'.calls, taken_trans h.grows.next h'.grows.next]⟩

theorem Logs.andThen {y : Except Exit α × QStateRegistry}
    {x : (Except Exit α × QStateRegistry) × List StateId}
    {f : α → QStateRegistry → Except Exit β × QStateRegistry}
    {g : α → QStateRegistry → (Except Exit β × QStateRegistry) × List StateId}
    (h : w.Logs y x) (hf : ∀ a (w' : QStateRegistry), w'.Logs (f a w') (g a w')) :
    w.Logs (andThen y f) (andThenAssigned x g) := by
  obtain ⟨⟨r, w₁⟩, calls⟩ := x
  obtain rfl := h.result
  cases r with
  | error e => exact h.then_quiet (.refl w₁)
  | ok a => exact h.then_logs (hf a w₁)

theorem Logs.ending {y : Except Exit α × QStateRegistry}
    {x : (Except Exit α × QStateRegistry) × List StateId} (h : w.Logs y x) :
    w.Logs (ending y) (endingAssigned x) :=
  ⟨h.grows, congrArg QStateRegistry.ending h.result, h.calls⟩

end

theorem createState_logs (w : QStateRegistry) (n : ℕ) :
    w.Logs (w.createState n) (w.createStateAssigned n) := by
  by_cases hn : n = 0
  · rw [createStateAssigned, createState, if_pos hn, if_pos hn]
    exact (Quiet.refl w).logs
  obtain ⟨st, hst, -⟩ := QState.create_ok hn w.defaultBackend
  have htaken := taken_one (w.createState_next hn)
  refine ⟨w.createState_grows n, ?_, htaken ▸ ?_⟩
  · rw [createStateAssigned, createState, if_neg hn, if_neg hn]
    dsimp only
    rw [hst]
  · rw [createStateAssigned, if_neg hn]
    dsimp only
    rw [hst]
    dsimp only [setStateId]
    rw [Function.update_self]

theorem createStateFromExisting_logs (w : QStateRegistry) (p : StatePtr) :
    w.Logs (w.createStateFromExisting p) (w.createStateFromExistingAssigned p) := by
  by_cases hp : w.numObjects ≤ p
  · rw [createStateFromExistingAssigned, createStateFromExisting, if_pos hp, if_pos hp]
    exact (Quiet.refl w).logs
  have htaken := taken_one (w.createStateFromExisting_next (not_le.mp hp))
  refine ⟨w.createStateFromExisting_grows p, ?_, htaken ▸ ?_⟩
  · rw [createStateFromExistingAssigned, createStateFromExisting, if_neg hp, if_neg hp]
  · rw [createStateFromExistingAssigned, if_neg hp]
    dsimp only [setStateId]
    rw [Function.update_self]

theorem newState_logs (w : QStateRegistry) (v : QState) :
    w.Logs ((w.newObject v).2.createStateFromExisting (w.newObject v).1)
      ((w.newObject v).2.createStateFromExistingAssigned (w.newObject v).1) :=
  (w.newObject_quiet v).logs_after (createStateFromExisting_logs _ _)

theorem mergeSorted_logs (w : QStateRegistry) (buckets : List StateBucket) :
    w.Logs (w.mergeSorted buckets) (w.mergeSortedAssigned buckets) := by
  rw [mergeSorted, mergeSortedAssigned]
  dsimp only
  cases w.mergeBuckets buckets with
  | error e => exact (Quiet.refl w).logs
  | ok merged =>
      cases merged with
      | none => exact (Quiet.refl w).logs
      | some merged =>
          have hnew := w.newState_logs merged
          dsimp only
          generalize (w.newObject merged).2.createStateFromExisting
            (w.newObject merged).1 = created at hnew ⊢
          rw [hnew.eq]
          dsimp only
          rw [hnew.eq] at hnew
          cases hbind : rebindAll created.1.stateId (buckets.flatMap StateBucket.members)
            created.1.indices created.2 with
          | error e => exact hnew.then_quiet (.refl _)
          | ok w₁ => exact hnew.then_quiet ((rebindAll_quiet hbind).trans
              (w₁.removeEmpty_quiet (buckets.map StateBucket.sid)))

theorem mergeStates_logs (w : QStateRegistry) (qs : List QubitPtr) :
    w.Logs (w.mergeStates qs) (w.mergeStatesAssigned qs) := by
  rw [mergeStates, mergeStatesAssigned]
  split_ifs
  · exact (Quiet.refl w).logs
  · exact (Quiet.refl w).logs
  rcases w.stateIdsOf qs with _ | ⟨sid, _ | ⟨sid', sids⟩⟩
  case cons.nil => exact (Quiet.refl w).logs
  all_goals
    dsimp only
    cases List.mapM w.bucketOf _ with
    | none => exact (Quiet.refl w).logs
    | some buckets => exact w.mergeSorted_logs _

theorem apply_logs (w : QStateRegistry) (node : NodeId) (gate : QGate)
    (qs : List QubitPtr) :
    w.Logs (w.apply node gate qs) (w.applyAssigned node gate qs) := by
  rw [apply, applyAssigned]
  split_ifs
  · exact (Quiet.refl w).logs
  · exact (Quiet.refl w).logs
  refine (w.mergeStates_logs qs).andThen fun st w₁ => ?_
  cases st with
  | none => exact (Quiet.refl w₁).logs
  | some st =>
      dsimp only
      cases (w₁.objects st).value.apply gate
        (qs.map fun q => (w₁.qubits q).indexInState) with
      | error e => exact (Quiet.refl w₁).logs
      | ok value => exact (w₁.setValue_quiet st value).logs

theorem createQubit_logs (w : QStateRegistry) (node : NodeId) :
    w.Logs (w.createQubit node) (w.createQubitAssigned node) :=
  (w.createState_logs 1).andThen fun res w₁ => (w₁.bindFirst_quiet node res).logs

theorem createQubitFrom_logs (w : QStateRegistry) (node : NodeId) (p : StatePtr) :
    w.Logs (w.createQubitFrom node p) (w.createQubitFromAssigned node p) := by
  have hstate := w.createStateFromExisting_logs p
  rw [createQubitFrom, createQubitFromAssigned]
  split_ifs
  · exact (Quiet.refl w).logs
  rw [hstate.eq]
  rw [hstate.eq] at hstate
  exact hstate.then_quiet (bindFirst_quiet _ node _)

theorem createBellPair_logs (w : QStateRegistry) (node : NodeId) :
    w.Logs (w.createBellPair node) (w.createBellPairAssigned node) := by
  refine (w.createState_logs 2).andThen fun created w₁ => ?_
  have hhandles := (w₁.newHandle_quiet created.stateId (created.indices.getD 0 0)).trans
    (newHandle_quiet _ created.stateId (created.indices.getD 1 0))
  have hregistered := (hhandles.trans (register_quiet _ w₁.numHandles)).trans
    (register_quiet _ (w₁.numHandles + 1))
  have hplaced := (hregistered.trans (setLocationNode_quiet _ w₁.numHandles node)).trans
    (setLocationNode_quiet _ (w₁.numHandles + 1) node)
  exact hplaced.logs_after ((apply_logs _ node _ _).andThen fun _ w₂ =>
    (w₂.apply_logs node _ _).andThen fun _ w₃ => (Quiet.refl w₃).logs)

theorem removeIfEmpty_quiet (w : QStateRegistry) (sid : StateId) :
    w.Quiet (if w.qubitsOf sid = [] then w.removeState sid else w) := by
  split_ifs
  · exact w.removeState_quiet sid
  · exact .refl w

/-- Measuring registers the measured qubit and, where there are any, the survivors. -/
theorem rebindMeasured_logs (w : QStateRegistry) (p : StatePtr) (related : List QubitPtr)
    (q : QubitPtr) (loc : Location) (split : MeasureResult QState) :
    (∃ e, w.rebindMeasured p related q loc split = .error e ∧
      w.rebindMeasuredAssigned p related q loc split = .error e) ∨
    ∃ w' calls, w.rebindMeasured p related q loc split = .ok w' ∧
      w.rebindMeasuredAssigned p related q loc split = .ok (w', calls) ∧
      w.Logs ((), w') (((), w'), calls) := by
  have hun := w.unregisterAll_quiet related
  rw [rebindMeasuredAssigned, rebindMeasured]
  dsimp only
  generalize related.foldl (fun w r => w.unregisterEverywhere r) w = w₀ at hun ⊢
  have hmeasured := hun.logs_after (w₀.newState_logs split.measured)
  generalize (w₀.newObject split.measured).2.createStateFromExisting
    (w₀.newObject split.measured).1 = created at hmeasured ⊢
  rw [hmeasured.eq]
  rw [hmeasured.eq] at hmeasured
  obtain ⟨newMeasured, w₁⟩ := created
  dsimp only
  cases newMeasured.indices with
  | nil => exact .inl ⟨_, rfl, rfl⟩
  | cons i is =>
      have hrebind := w₁.rebindOne_quiet q newMeasured.stateId i loc
      dsimp only
      generalize ((w₁.rebind q newMeasured.stateId i).register q).setLocation q loc = w₂
        at hrebind ⊢
      have hbound := hmeasured.then_quiet (z := ((), w₂)) hrebind
      split_ifs
      · have hsurvivors := hbound.then_logs (w₂.newState_logs split.survivors)
        rw [(createStateFromExisting_logs _ _).eq] at hsurvivors ⊢
        dsimp only at hsurvivors ⊢
        cases hbind : bindSurvivors _ q related _ _ with
        | error e => exact .inl ⟨e, rfl, rfl⟩
        | ok w₃ => exact .inr ⟨_, _, rfl, rfl, hsurvivors.then_quiet (z := ((), _))
            ((bindSurvivors_quiet hbind).trans (w₃.removeIfEmpty_quiet _))⟩
      · have hlast := hbound.then_quiet (z := ((), _))
          (w₂.removeIfEmpty_quiet (w₂.objects p).stateId)
        rw [← List.append_nil (taken w w₁)] at hlast
        exact .inr ⟨_, _, rfl, rfl, hlast⟩

theorem measure_logs (w : QStateRegistry) (node : NodeId) (q : QubitPtr) (basis : Basis)
    (draw : Bool) :
    w.Logs (w.measure node q basis draw) (w.measureAssigned node q basis draw) := by
  rw [measure, measureAssigned]
  split_ifs
  · exact (Quiet.refl w).logs
  · cases w.getState (w.qubits q).stateId with
    | none => exact (Quiet.refl w).logs
    | some p =>
        dsimp only
        generalize (w.objects p).value.measure (w.qubits q).indexInState basis draw = r
        obtain ⟨r, v⟩ := r
        have hvalue := w.setValue_quiet p v
        cases r with
        | error e => exact hvalue.logs
        | ok split =>
            dsimp only
            rcases (w.setValue p v).rebindMeasured_logs p
              (w.sortByIndex (w.qubitsOf (w.objects p).stateId)) q (.node node) split with
              ⟨e, hold, hnew⟩ | ⟨w₁, calls, hold, hnew, hlogs⟩
            · rw [hold, hnew]
              exact hvalue.logs
            · rw [hold, hnew]
              exact hvalue.logs_after ⟨hlogs.grows, rfl, hlogs.calls⟩
  · exact (Quiet.refl w).logs

theorem measureBell_logs (w : QStateRegistry) (node : NodeId) (a b : QubitPtr)
    (drawA drawB : Bool) : w.Logs (w.measureBell node a b drawA drawB)
      (w.measureBellAssigned node a b drawA drawB) := by
  rw [measureBell, measureBellAssigned]
  split_ifs
  all_goals try exact (Quiet.refl w).logs
  refine (w.apply_logs node _ _).andThen fun ok w₁ => ?_
  split_ifs
  · exact (Quiet.refl w₁).logs
  refine (w₁.apply_logs node _ _).andThen fun ok w₂ => ?_
  split_ifs
  · exact (Quiet.refl w₂).logs
  exact (w₂.measure_logs node _ _ _).andThen fun _ w₃ =>
    (w₃.measure_logs node _ _ _).andThen fun _ w₄ => (Quiet.refl w₄).logs

theorem onHandle_quiet {q : QubitPtr} (h : w.Quiet w') : w.Quiet (w.onHandle q w').2 := by
  rw [onHandle]
  dsimp only
  split_ifs
  · exact .refl w
  · exact h

/-- Every operation takes ids in order and calls the assigner once for each of them. -/
theorem exec_logs (w : QStateRegistry) (op : Op) : w.Logs (w.exec op) (w.execAssigned op) := by
  cases op with
  | newState value => exact Quiet.logs (y := (Except.ok (), _)) (w.newObject_quiet value)
  | setDefaultBackend b => exact (w.setDefaultBackend_quiet b).logs
  | createQubit node => exact (w.createQubit_logs node).ending
  | createQubitFrom node state => exact (w.createQubitFrom_logs node state).ending
  | createBellPair node => exact (w.createBellPair_logs node).ending
  | apply node gate qs => exact (w.apply_logs node gate qs).ending
  | measure node q basis draw => exact (w.measure_logs node q basis draw).ending
  | measureBell node a b drawA drawB =>
      exact (w.measureBell_logs node a b drawA drawB).ending
  | adoptQubit node q => exact (w.adoptQubit_quiet node q).logs
  | setLocationNode q node => exact (onHandle_quiet (w.setLocationNode_quiet q node)).logs
  | setLocationChannel q c => exact (onHandle_quiet (w.setLocationChannel_quiet q c)).logs
  | setLocationLost q => exact (onHandle_quiet (w.setLocation_quiet q .lost)).logs

theorem step_grows {op : Op} (hs : w.step op = some w') : w.Grows w' := by
  have hgrows := (w.exec_logs op).grows
  rw [step] at hs
  split at hs
  · cases hs
  · next heq =>
    rw [heq] at hgrows
    exact Option.some.inj hs ▸ hgrows

end Q2NS.QStateRegistry
