import Q2NS.Registry.Locations

/-!
# The location index

`qubitsAtNode_` mirrors `location_` after any sequence of operations, and
`GetLocalQubits` reads it.  Nothing is assumed of the state objects, nor of the order in
which a set of ids is gone through.
-/

namespace Q2NS.QStateRegistry

variable {w w' : QStateRegistry}

/-! ## Lookups -/

/-- What `GetLocalQubits` can return: the handles of the ids at the node, in the order in
which the set is gone through. -/
def GetLocalQubits (w : QStateRegistry) (nodeId : NodeId) (out : List QubitPtr) : Prop :=
  ∃ order : List QubitId, order.Nodup ∧
    (∀ id, id ∈ order ↔ id ∈ (w.qubitsAtNode nodeId).getD ∅) ∧
    out = order.filterMap w.getQubitHandle

/-- The index mirrors the locations. -/
structure Mirrors (w : QStateRegistry) : Prop where
  ids : ∀ n id, id ∈ (w.qubitsAtNode n).getD ∅ ↔ w.location id = some (.node n)
  nonempty : ∀ n ids, w.qubitsAtNode n = some ids → ids ≠ ∅
  once : ∀ n m id, id ∈ (w.qubitsAtNode n).getD ∅ → id ∈ (w.qubitsAtNode m).getD ∅ → n = m
  locals : ∀ n out, w.GetLocalQubits n out →
    out.Nodup ∧ ∀ q, q ∈ out ↔ q < w.numHandles ∧ w.getLocation q = .node n

/-- The handle that an id at a node leads to. -/
theorem Numbered.handle_at (h : w.Numbered) {n : NodeId} {id : QubitId}
    (hid : id ∈ (w.qubitsAtNode n).getD ∅) :
    ∃ q, w.Known q ∧ (w.qubits q).qubitId = id ∧ w.getQubitHandle id = some q ∧
      w.getLocation q = .node n := by
  have hloc := (h.index.mem n id).mp hid
  obtain ⟨q, hq, hqid, hby⟩ := h.located id (by rw [hloc]; exact Option.some_ne_none _)
  refine ⟨q, hq, hqid, hby, ?_⟩
  rw [getLocation, hqid, hloc]
  rfl

theorem Registered.mirrors (h : w.Registered) : w.Mirrors where
  ids := h.index.mem
  nonempty := h.index.nonempty
  once := fun n m id hn hm => by
    have hloc := ((h.index.mem n id).mp hn).symm.trans ((h.index.mem m id).mp hm)
    exact Location.node.inj (Option.some.inj hloc)
  locals := by
    rintro n out ⟨order, hnodup, hmem, rfl⟩
    constructor
    · -- an id of the node is the id of its handle
      refine List.pairwise_filterMap.mpr (hnodup.imp_of_mem ?_)
      intro id id' hid hid' hne q hq q' hq' heq
      obtain ⟨x, -, hxid, hxby, -⟩ := h.handle_at ((hmem id).mp hid)
      obtain ⟨x', -, hxid', hxby', -⟩ := h.handle_at ((hmem id').mp hid')
      obtain rfl := Option.some.inj (hxby.symm.trans hq)
      obtain rfl := Option.some.inj (hxby'.symm.trans hq')
      exact hne (hxid.symm.trans ((congrArg (fun x => (w.qubits x).qubitId) heq).trans hxid'))
    · intro q
      rw [List.mem_filterMap]
      constructor
      · rintro ⟨id, hid, hby⟩
        obtain ⟨q', hq', -, hby', hloc⟩ := h.handle_at ((hmem id).mp hid)
        obtain rfl := Option.some.inj (hby'.symm.trans hby)
        exact ⟨hq'.1, hloc⟩
      · rintro ⟨hq, hloc⟩
        have hat : w.location (w.qubits q).qubitId = some (.node n) := by
          rw [getLocation] at hloc
          cases hl : w.location (w.qubits q).qubitId with
          | none =>
              rw [hl] at hloc
              cases hloc
          | some loc =>
              rw [hl] at hloc
              exact congrArg some hloc
        have hid := (h.index.mem n _).mpr hat
        obtain ⟨q', hq', hqid, hby, -⟩ := h.handle_at hid
        obtain rfl := h.id_inj q' q hq' (h.known q hq) hqid
        exact ⟨(w.qubits q').qubitId, (hmem _).mpr hid, hby⟩

/-! ## Runs -/

/-- What can happen to a registry: an operation of the processor or of the handles (a
send sets the channel, a delivery adopts), a merge, and `SetLocation` on a handle. -/
inductive LocationOp where
  | op (op : Op)
  | mergeStates (qs : List QubitPtr)
  | setLocation (q : QubitPtr) (loc : Location)

/-- The registry after it; `none` when the process ends. -/
noncomputable def locate (w : QStateRegistry) : LocationOp → Option QStateRegistry
  | .op op => w.step op
  | .mergeStates qs =>
      match w.mergeStates qs with
      | (.error (.aborted _), _) => none
      | (_, w) => some w
  | .setLocation q loc => some (w.onHandle q (w.setLocation q loc)).2

/-- Registries that finitely many of them lead to. -/
def Located (w : QStateRegistry) : Prop :=
  Relation.ReflTransGen (fun w w' => ∃ op, locate w op = some w') empty w

theorem Registered.locate (h : w.Registered) {op : LocationOp}
    (hs : QStateRegistry.locate w op = some w') : w'.Registered := by
  cases op with
  | op op =>
      have hmoves := h.exec op
      rw [QStateRegistry.locate, step] at hs
      split at hs
      · cases hs
      · next heq =>
        rw [heq] at hmoves
        exact Option.some.inj hs ▸ hmoves.registered
  | mergeStates qs =>
      have hmoves := (h.mergeStates qs).moves h
      rw [QStateRegistry.locate] at hs
      split at hs
      · cases hs
      · next heq =>
        rw [heq] at hmoves
        exact Option.some.inj hs ▸ hmoves.registered
  | setLocation q loc =>
      exact Option.some.inj hs ▸ (h.onHandle fun hq => h.setLocation hq loc).registered

theorem Located.registered (h : w.Located) : w.Registered := by
  induction h with
  | refl => exact empty_registered
  | tail _ hs ih =>
      obtain ⟨op, hs⟩ := hs
      exact ih.locate hs

/-- The index mirrors the locations after every run, and merges and measurements move
no qubit. -/
theorem location_index_mirrors (h : w.Located) :
    w.Mirrors ∧
    (∀ qs, ∀ q < w.numHandles, (w.mergeStates qs).2.getLocation q = w.getLocation q) ∧
    ∀ node x basis draw, ∀ q < w.numHandles,
      (w.measure node x basis draw).2.getLocation q = w.getLocation q := by
  have hreg := h.registered
  refine ⟨hreg.mirrors, fun qs q hq => ?_, fun node x basis draw q hq => ?_⟩
  · exact ((hreg.mergeStates qs).moves hreg).locations q hq List.not_mem_nil
  · exact ((hreg.measure node (hreg.known x) basis draw).moves hreg).locations q hq
      List.not_mem_nil

/-- A handle that is placed, lost, and placed again by hand. -/
theorem location_index_mirrors_one : ∃ w : QStateRegistry, w.getLocation 0 = .node 2 ∧
    w.Mirrors ∧
    (∀ qs, ∀ q < w.numHandles, (w.mergeStates qs).2.getLocation q = w.getLocation q) ∧
    ∀ node x basis draw, ∀ q < w.numHandles,
      (w.measure node x basis draw).2.getLocation q = w.getLocation q := by
  let made : QStateRegistry := ((QStateRegistry.empty.newObject
    (.stab (QStateStab.init 1))).2.createQubitFrom 0 0).2
  have hrun : Located ((made.setLocationLost 0).setLocation 0 (.node 2)) :=
    (((Relation.ReflTransGen.single
    ⟨.op (.newState (.stab (QStateStab.init 1))), rfl⟩).tail
    ⟨.op (.createQubitFrom 0 0), rfl⟩).tail
    ⟨.op (.setLocationLost 0), rfl⟩).tail
    ⟨.setLocation 0 (.node 2), rfl⟩
  exact ⟨_, getLocation_setLocation _ _, location_index_mirrors hrun⟩

end Q2NS.QStateRegistry
