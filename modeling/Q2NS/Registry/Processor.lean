import Q2NS.Registry.Code

/-!
# The processor of a node

The operations of `QProcessor` on the registry, and runs of them.  `node` is the
id of the owner node.  Labels only matter for lookups by label, which are not
part of the model.
-/

namespace Q2NS.QStateRegistry

variable (w : QStateRegistry) (node : NodeId)

/-- The next call, after one that may have ended early. -/
def andThen {α β : Type} (x : Except Exit α × QStateRegistry)
    (f : α → QStateRegistry → Except Exit β × QStateRegistry) :
    Except Exit β × QStateRegistry :=
  match x with
  | (.error e, w) => (.error e, w)
  | (.ok a, w) => f a w

/-- The handle is tracked at the node. -/
def IsLocal (q : QubitPtr) : Prop := w.getLocation q = .node node

instance (q : QubitPtr) : Decidable (w.IsLocal node q) :=
  inferInstanceAs (Decidable (w.getLocation q = .node node))

/-- The handle that `CreateQubit` makes for index 0 of a state just created; the
access to `res.indices` is unchecked. -/
def bindFirst (res : CreateStateResult) :
    Except Exit (Option QubitPtr) × QStateRegistry :=
  match res.indices with
  | [] => (.error (.aborted "index out of range"), w)
  | i :: _ =>
      let (q, w) := w.newHandle res.stateId i
      (.ok (some q), (w.register q).setLocationNode q node)

/-- `CreateQubit(label)`. -/
noncomputable def createQubit : Except Exit (Option QubitPtr) × QStateRegistry :=
  andThen (w.createState 1) fun res w => w.bindFirst node res

/-- `CreateQubit(state, label)`. -/
def createQubitFrom (state : StatePtr) :
    Except Exit (Option QubitPtr) × QStateRegistry :=
  if w.numObjects ≤ state then (.ok none, w)
  else
    let (res, w) := w.createStateFromExisting state
    w.bindFirst node res

/-- `AdoptQubit`. -/
def adoptQubit (q : QubitPtr) : QStateRegistry :=
  if w.numHandles ≤ q then w
  else if w.getLocation q = .lost then w
  else w.setLocationNode q node

/-- `Apply`. -/
noncomputable def apply (gate : QGate) (qs : List QubitPtr) :
    Except Exit Bool × QStateRegistry :=
  if qs = [] then (.ok false, w)
  else if ∃ q ∈ qs, w.numHandles ≤ q ∨ ¬ w.IsLocal node q then (.ok false, w)
  else
    andThen (w.mergeStates qs) fun st w =>
      match st with
      | none => (.ok false, w)
      | some st =>
          let targets := qs.map fun q => (w.qubits q).indexInState
          match (w.objects st).value.apply gate targets with
          | .error e => (.error e, w)
          | .ok value => (.ok true, w.setValue st value)

/-- `CreateBellPair`; the two accesses to `created.indices` are in range. -/
noncomputable def createBellPair :
    Except Exit (QubitPtr × QubitPtr) × QStateRegistry :=
  andThen (w.createState 2) fun created w =>
    let (q0, w) := w.newHandle created.stateId (created.indices.getD 0 0)
    let (q1, w) := w.newHandle created.stateId (created.indices.getD 1 0)
    let w := (w.register q0).register q1
    let w := (w.setLocationNode q0 node).setLocationNode q1 node
    andThen (w.apply node (.builtin .H) [q0]) fun _ w =>
      andThen (w.apply node (.builtin .CNOT) [q0, q1]) fun _ w =>
        (.ok (q0, q1), w)

/-- The loop of `Measure` that binds the survivors; the access to
`survivorsRes.indices` is unchecked. -/
def bindSurvivors (sid : StateId) (q : QubitPtr) :
    List QubitPtr → List ℕ → QStateRegistry → Except Exit QStateRegistry
  | [], _, w => return w
  | r :: rs, is, w =>
      if r = q then bindSurvivors sid q rs is w
      else
        match is with
        | [] => .error (.aborted "index out of range")
        | i :: is =>
            let l := w.getLocation r
            bindSurvivors sid q rs is
              (((w.rebind r sid i).register r).setLocation r l)

/-- The part of `Measure` that follows the call of the backend: the new states
are registered and the handles bound to them. -/
def rebindMeasured (currentState : StatePtr) (related : List QubitPtr)
    (q : QubitPtr) (locQ : Location) (split : MeasureResult QState) :
    Except Exit QStateRegistry :=
  let w := related.foldl (fun w r => w.unregisterEverywhere r) w
  let (measured, w) := w.newObject split.measured
  let (newMeasured, w) := w.createStateFromExisting measured
  match newMeasured.indices with
  | [] => .error (.aborted "index out of range")
  | i :: _ => do
      let w := ((w.rebind q newMeasured.stateId i).register q).setLocation q locQ
      let w ←
        if split.survivors.numQubits > 0 then
          let (survivors, w) := w.newObject split.survivors
          let (survivorsRes, w) := w.createStateFromExisting survivors
          bindSurvivors survivorsRes.stateId q related survivorsRes.indices w
        else pure w
      let old := (w.objects currentState).stateId
      return if w.qubitsOf old = [] then w.removeState old else w

/-- `Measure`; `draw` is the random bit that the backend gets. -/
noncomputable def measure (q : QubitPtr) (basis : Basis) (draw : Bool) :
    Except Exit ℤ × QStateRegistry :=
  if w.numHandles ≤ q then (.ok (-1), w)
  else if ¬ w.IsLocal node q then (.ok (-1), w)
  else
    match w.getState (w.qubits q).stateId with
    | none => (.ok (-1), w)
    | some currentState =>
        let related := w.sortByIndex
          (w.qubitsOf (w.objects currentState).stateId)
        let (split, value) := (w.objects currentState).value.measure
          (w.qubits q).indexInState basis draw
        let w := w.setValue currentState value
        match split with
        | .error e => (.error e, w)
        | .ok split =>
            match w.rebindMeasured currentState related q (.node node) split with
            | .error e => (.error e, w)
            | .ok w => (.ok split.outcome.toNat, w)

/-- `MeasureBell`. -/
noncomputable def measureBell (a b : QubitPtr) (drawA drawB : Bool) :
    Except Exit (ℤ × ℤ) × QStateRegistry :=
  if w.numHandles ≤ a ∨ w.numHandles ≤ b then (.ok (-1, -1), w)
  else if w.getLocation a = .lost then (.ok (-1, -1), w)
  else if w.getLocation b = .lost then (.ok (-1, -1), w)
  else if ¬ w.IsLocal node a ∨ ¬ w.IsLocal node b then (.ok (-1, -1), w)
  else
    andThen (w.apply node (.builtin .CNOT) [a, b]) fun ok w =>
      if ok = false then (.ok (-1, -1), w)
      else
        andThen (w.apply node (.builtin .H) [a]) fun ok w =>
          if ok = false then (.ok (-1, -1), w)
          else
            andThen (w.measure node a .Z drawA) fun resultA w =>
              andThen (w.measure node b .Z drawB) fun resultB w =>
                (.ok (resultA, resultB), w)

/-! ## Runs -/

/-- One call on the registry, or a state object made by the caller. -/
inductive Op where
  | newState (value : QState)
  | setDefaultBackend (b : QStateBackend)
  | createQubit (node : NodeId)
  | createQubitFrom (node : NodeId) (state : StatePtr)
  | createBellPair (node : NodeId)
  | apply (node : NodeId) (gate : QGate) (qs : List QubitPtr)
  | measure (node : NodeId) (q : QubitPtr) (basis : Basis) (draw : Bool)
  | measureBell (node : NodeId) (a b : QubitPtr) (drawA drawB : Bool)
  | adoptQubit (node : NodeId) (q : QubitPtr)
  | setLocationNode (q : QubitPtr) (node : NodeId)
  | setLocationChannel (q : QubitPtr) (channel : ChannelId)
  | setLocationLost (q : QubitPtr)

/-- How a call ends, without its value. -/
def ending {α : Type} (x : Except Exit α × QStateRegistry) :
    Except Exit Unit × QStateRegistry :=
  ((fun _ => ()) <$> x.1, x.2)

/-- A call on a handle that the caller has checked not to be null. -/
def onHandle (q : QubitPtr) (w' : QStateRegistry) :
    Except Exit Unit × QStateRegistry :=
  (.ok (), if w.numHandles ≤ q then w else w')

/-- How an operation ends, and the registry after it. -/
noncomputable def exec : Op → Except Exit Unit × QStateRegistry
  | .newState value => (.ok (), (w.newObject value).2)
  | .setDefaultBackend b => (.ok (), w.setDefaultBackend b)
  | .createQubit node => ending (w.createQubit node)
  | .createQubitFrom node state => ending (w.createQubitFrom node state)
  | .createBellPair node => ending (w.createBellPair node)
  | .apply node gate qs => ending (w.apply node gate qs)
  | .measure node q basis draw => ending (w.measure node q basis draw)
  | .measureBell node a b drawA drawB =>
      ending (w.measureBell node a b drawA drawB)
  | .adoptQubit node q => (.ok (), w.adoptQubit node q)
  | .setLocationNode q node => w.onHandle q (w.setLocationNode q node)
  | .setLocationChannel q c => w.onHandle q (w.setLocationChannel q c)
  | .setLocationLost q => w.onHandle q (w.setLocationLost q)

/-- The registry after an operation; an exception is caught by the caller, an
abort ends the run. -/
noncomputable def step (op : Op) : Option QStateRegistry :=
  match w.exec op with
  | (.error (.aborted _), _) => none
  | (_, w) => some w

/-- One operation that meets the condition `P`. -/
def Step (P : QStateRegistry → Op → Prop) (w w' : QStateRegistry) : Prop :=
  ∃ op, P w op ∧ w.step op = some w'

/-- Finitely many operations that meet `P`. -/
abbrev Run (P : QStateRegistry → Op → Prop) :
    QStateRegistry → QStateRegistry → Prop :=
  Relation.ReflTransGen (Step P)

/-- A registry reached from the empty one. -/
abbrev Reachable (P : QStateRegistry → Op → Prop) (w : QStateRegistry) : Prop :=
  Run P empty w

/-- What every step preserves holds after a run. -/
theorem Run.invariant {P : QStateRegistry → Op → Prop}
    {I : QStateRegistry → Prop}
    (hstep : ∀ w op w', I w → P w op → w.step op = some w' → I w')
    {w w' : QStateRegistry} (h : Run P w w') (hw : I w) : I w' := by
  induction h with
  | refl => exact hw
  | tail _ hs ih =>
      obtain ⟨op, hP, hop⟩ := hs
      exact hstep _ op _ ih hP hop

/-- A weaker condition allows more runs. -/
theorem Run.mono {P P' : QStateRegistry → Op → Prop}
    (hP : ∀ w op, P w op → P' w op) {w w' : QStateRegistry} (h : Run P w w') :
    Run P' w w' := by
  induction h with
  | refl => exact .refl
  | tail _ hs ih =>
      obtain ⟨op, hop, hs⟩ := hs
      exact ih.tail ⟨op, hP _ _ hop, hs⟩

end Q2NS.QStateRegistry
