import Q2NS.QState

/-!
# The state registry

`QStateRegistry` together with the objects that its pointers refer to.  A handle
(`std::shared_ptr<Qubit>`) is a position in the list of all `Qubit` objects
created so far, a state pointer a position in the list of all state objects; a
number beyond the end stands for the null pointer.  The hash maps are functions
to `Option`.  The stream assigner only touches the random engines, so it is left
to the part of the model that is about them.
-/

namespace Q2NS

abbrev QubitPtr := ℕ
abbrev StatePtr := ℕ

/-- The fields of a `Qubit` object. -/
structure Qubit where
  qubitId : QubitId := 0
  stateId : StateId
  indexInState : ℕ

/-- A state object and the id it reports. -/
structure StateObject where
  stateId : StateId := 0
  value : QState

/-- The registry and its objects. -/
@[ext]
structure QStateRegistry where
  qubits : QubitPtr → Qubit
  numHandles : ℕ
  objects : StatePtr → StateObject
  numObjects : ℕ
  defaultBackend : QStateBackend
  nextStateId : StateId
  nextQubitId : QubitId
  states : StateId → Option StatePtr
  members : StateId → Option (List QubitPtr)
  location : QubitId → Option Location
  qubitsAtNode : NodeId → Option (Finset QubitId)
  qubitById : QubitId → Option QubitPtr

/-- `CreateStateResult`. -/
structure CreateStateResult where
  stateId : StateId := 0
  indices : List ℕ := []

namespace QStateRegistry

/-- A registry as constructed, before any object exists. -/
def empty : QStateRegistry where
  qubits := fun _ => ⟨0, 0, 0⟩
  numHandles := 0
  objects := fun _ => ⟨0, .stab (QStateStab.init 0)⟩
  numObjects := 0
  defaultBackend := .Ket
  nextStateId := 1
  nextQubitId := 1
  states := fun _ => none
  members := fun _ => none
  location := fun _ => none
  qubitsAtNode := fun _ => none
  qubitById := fun _ => none

variable (w : QStateRegistry)

/-! ## Objects -/

/-- `std::make_shared<Qubit>`. -/
def newHandle (sid : StateId) (index : ℕ) : QubitPtr × QStateRegistry :=
  (w.numHandles,
    { w with
      qubits := Function.update w.qubits w.numHandles ⟨0, sid, index⟩
      numHandles := w.numHandles + 1 })

/-- A new state object. -/
def newObject (value : QState) : StatePtr × QStateRegistry :=
  (w.numObjects,
    { w with
      objects := Function.update w.objects w.numObjects ⟨0, value⟩
      numObjects := w.numObjects + 1 })

/-- `Qubit::SetQubitId`. -/
def setQubitId (q : QubitPtr) (id : QubitId) : QStateRegistry :=
  { w with qubits := Function.update w.qubits q { w.qubits q with qubitId := id } }

/-- `Qubit::SetStateId` and `Qubit::SetIndexInState`. -/
def rebind (q : QubitPtr) (sid : StateId) (index : ℕ) : QStateRegistry :=
  { w with
    qubits := Function.update w.qubits q
      { w.qubits q with stateId := sid, indexInState := index } }

/-- `QState::SetStateId`. -/
def setStateId (p : StatePtr) (sid : StateId) : QStateRegistry :=
  { w with
    objects := Function.update w.objects p { w.objects p with stateId := sid } }

/-- A state object changed in place. -/
def setValue (p : StatePtr) (value : QState) : QStateRegistry :=
  { w with
    objects := Function.update w.objects p { w.objects p with value := value } }

/-! ## Lookups -/

/-- `GetState` by id. -/
def getState (sid : StateId) : Option StatePtr := w.states sid

/-- `QubitsOf`. -/
def qubitsOf (sid : StateId) : List QubitPtr := (w.members sid).getD []

/-- `GetLocation`. -/
def getLocation (q : QubitPtr) : Location :=
  (w.location (w.qubits q).qubitId).getD .unset

/-- `GetQubitHandle`. -/
def getQubitHandle (id : QubitId) : Option QubitPtr := w.qubitById id

/-! ## Locations -/

/-- Removal of `id` from the set of a node; an empty set is erased. -/
def eraseAtNode (id : QubitId) (n : NodeId) :
    NodeId → Option (Finset QubitId) :=
  match w.qubitsAtNode n with
  | none => w.qubitsAtNode
  | some ids =>
      Function.update w.qubitsAtNode n
        (if ids.erase id = ∅ then none else some (ids.erase id))

/-- `qubitsAtNode_` once `id` has left its old location. -/
def withdrawn (id : QubitId) : NodeId → Option (Finset QubitId) :=
  match w.location id with
  | some (.node n) => w.eraseAtNode id n
  | _ => w.qubitsAtNode

/-- `SetLocation` by id. -/
def setLocationById (id : QubitId) (loc : Location) : QStateRegistry :=
  { w with
    location := Function.update w.location id (some loc)
    qubitsAtNode := match loc with
      | .node n => Function.update (w.withdrawn id) n
          (some (insert id ((w.withdrawn id n).getD ∅)))
      | _ => w.withdrawn id }

/-- `SetLocation` by handle. -/
def setLocation (q : QubitPtr) (loc : Location) : QStateRegistry :=
  let id := (w.qubits q).qubitId
  { w with qubitById := Function.update w.qubitById id (some q) }.setLocationById
    id loc

/-- `Qubit::SetLocationNode`. -/
def setLocationNode (q : QubitPtr) (n : NodeId) : QStateRegistry :=
  if w.getLocation q = .lost then w else w.setLocation q (.node n)

/-- `Qubit::SetLocationChannel`. -/
def setLocationChannel (q : QubitPtr) (c : ChannelId) : QStateRegistry :=
  if w.getLocation q = .lost then w else w.setLocation q (.channel c)

/-- `Qubit::SetLocationLost`. -/
def setLocationLost (q : QubitPtr) : QStateRegistry := w.setLocation q .lost

/-! ## States and members -/

/-- `SetDefaultBackend`. -/
def setDefaultBackend (b : QStateBackend) : QStateRegistry :=
  { w with defaultBackend := b }

/-- `CreateState`. -/
noncomputable def createState (n : ℕ) :
    Except Exit CreateStateResult × QStateRegistry :=
  if n = 0 then (.ok {}, w)
  else
    let sid := w.nextStateId
    let w := { w with nextStateId := w.nextStateId + 1 }
    match QState.create n w.defaultBackend with
    | .error e => (.error e, w)
    | .ok value =>
        let (state, w) := w.newObject value
        let w := { w with states := Function.update w.states sid (some state) }
        let w := w.setStateId state sid
        (.ok { stateId := sid, indices := List.range n },
          { w with
            members := Function.update w.members sid (some (w.qubitsOf sid)) })

/-- `CreateStateFromExisting`. -/
def createStateFromExisting (state : StatePtr) :
    CreateStateResult × QStateRegistry :=
  if w.numObjects ≤ state then ({}, w)
  else
    let newId := w.nextStateId
    let w := { w with
      nextStateId := w.nextStateId + 1
      -- `emplace` keeps an entry that is already there
      states := if (w.states newId).isSome then w.states
        else Function.update w.states newId (some state) }
    let w := w.setStateId state newId
    ({ stateId := newId, indices := List.range (w.objects state).value.numQubits },
      { w with members := Function.update w.members newId (some []) })

/-- `RemoveState`. -/
def removeState (sid : StateId) : QStateRegistry :=
  { w with
    states := Function.update w.states sid none
    members := Function.update w.members sid none }

/-- `Register`. -/
def register (q : QubitPtr) : QStateRegistry :=
  let sid := (w.qubits q).stateId
  let w := if (w.qubits q).qubitId = 0 then
      { w.setQubitId q w.nextQubitId with nextQubitId := w.nextQubitId + 1 }
    else w
  let w := if w.location (w.qubits q).qubitId = none then w.setLocation q .unset
    else w
  let vec := w.qubitsOf sid
  { w with
    members := Function.update w.members sid
      (some (if q ∈ vec then vec else vec ++ [q])) }

/-- `UnregisterEverywhere`. -/
def unregisterEverywhere (q : QubitPtr) : QStateRegistry :=
  { w with members := fun sid => (w.members sid).map (·.filter (· ≠ q)) }

/-! ## Merging -/

/-- `StateBucket`. -/
structure StateBucket where
  sid : StateId
  state : StatePtr
  leadingQubitId : QubitId
  members : List QubitPtr

/-- Handles sorted by their index. -/
def sortByIndex (qs : List QubitPtr) : List QubitPtr :=
  qs.mergeSort fun x y => (w.qubits x).indexInState ≤ (w.qubits y).indexInState

/-- The bucket of a state, if the state is there. -/
def bucketOf (sid : StateId) : Option StateBucket :=
  (w.getState sid).map fun state =>
    let members := w.sortByIndex (w.qubitsOf sid)
    { sid := sid
      state := state
      leadingQubitId := (members.head?.map fun q => (w.qubits q).qubitId).getD 0
      members := members }

/-- The order of the buckets. -/
def StateBucket.le (a b : StateBucket) : Bool :=
  if a.leadingQubitId ≠ b.leadingQubitId then
    a.leadingQubitId ≤ b.leadingQubitId
  else a.sid ≤ b.sid

/-- The fold of `MergeDisjoint` over the buckets. -/
noncomputable def mergeBuckets : List StateBucket → Except Exit (Option QState)
  | [] => return none
  | b :: bs => some <$> bs.foldlM
      (fun merged b => merged.mergeDisjoint (w.objects b.state).value)
      (w.objects b.state).value

/-- The loop of `MergeStates` that rebinds the handles; the access to
`created.indices` is unchecked. -/
def rebindAll (sid : StateId) :
    List QubitPtr → List ℕ → QStateRegistry → Except Exit QStateRegistry
  | [], _, w => return w
  | _ :: _, [], _ => .error (.aborted "index out of range")
  | q :: qs, i :: is, w =>
      let loc := w.getLocation q
      rebindAll sid qs is
        ((((w.unregisterEverywhere q).rebind q sid i).register q).setLocation q loc)

/-- Removal of the buckets that have no members any more. -/
def removeEmpty (w : QStateRegistry) (sids : List StateId) : QStateRegistry :=
  sids.foldl (fun w sid => if w.qubitsOf sid = [] then w.removeState sid else w) w

/-- The ids of the states of the handles, sorted and without repetitions. -/
def stateIdsOf (qs : List QubitPtr) : List StateId :=
  ((qs.map fun q => (w.qubits q).stateId).mergeSort (· ≤ ·)).dedup

/-- The part of `MergeStates` that follows the sorting of the buckets. -/
noncomputable def mergeSorted (buckets : List StateBucket) :
    Except Exit (Option StatePtr) × QStateRegistry :=
  let allQs := buckets.flatMap StateBucket.members
  match w.mergeBuckets buckets with
  | .error e => (.error e, w)
  | .ok none => (.ok none, w)
  | .ok (some merged) =>
      let (state, w) := w.newObject merged
      let (created, w) := w.createStateFromExisting state
      match rebindAll created.stateId allQs created.indices w with
      | .error e => (.error e, w)
      | .ok w =>
          let w := w.removeEmpty (buckets.map StateBucket.sid)
          (.ok (w.getState created.stateId), w)

/-- `MergeStates`. -/
noncomputable def mergeStates (qs : List QubitPtr) :
    Except Exit (Option StatePtr) × QStateRegistry :=
  if qs = [] then (.ok none, w)
  else if ∃ q ∈ qs, w.numHandles ≤ q then (.ok none, w)
  else
    match w.stateIdsOf qs with
    | [sid] => (.ok (w.getState sid), w)
    | sids =>
        match sids.mapM w.bucketOf with
        | none => (.ok none, w)
        | some buckets => w.mergeSorted (buckets.mergeSort StateBucket.le)

end QStateRegistry

end Q2NS
