import Q2NS.Machine.Outcome
import Q2NS.Swap.Pairs

/-!
# The machine behind the registry

What a program of the simulator observes, without state objects, ids, indices or
merges: the handles made so far, where each of them is, and one density tensor whose
legs are the handles.  The operations of `QProcessor` and `Qubit` act on this tensor
directly.  The machine says what the registry is for; that the registry does it is
proved in `Q2NS.Machine.Refinement`.
-/

namespace Q2NS

open NamedTensor

/-- What an operation returns to the program. -/
inductive Reply where
  | done
  | handle (q : Option QubitPtr)
  | pair (qs : QubitPtr × QubitPtr)
  | applied (ok : Bool)
  | outcome (m : ℤ)
  | outcomes (ms : ℤ × ℤ)
  deriving DecidableEq

/-- Handles, their locations, and the density tensor of all of them. -/
structure GlobalState where
  handles : ℕ
  place : QubitPtr → Location
  tensor : (QubitPtr → Bool × Bool) → ℂ

namespace GlobalState

/-- No handles. -/
def empty : GlobalState := ⟨0, fun _ => .unset, fun _ => 1⟩

variable (G : GlobalState)

/-- The handle is there, at the node. -/
def Local (node : NodeId) (q : QubitPtr) : Prop := q < G.handles ∧ G.place q = .node node

instance (node : NodeId) (q : QubitPtr) : Decidable (G.Local node q) :=
  inferInstanceAs (Decidable (_ ∧ _))

/-- The Born probability of outcome `o` at handle `q`. -/
noncomputable def prob (q : QubitPtr) (basis : Basis) (o : Bool) : ℂ :=
  traceAll ((List.range G.handles).erase q)
    (contract (outer (eigenvector basis o)) q G.tensor) fun _ => default

/-- One leg in the state zero. -/
def zeroTensor (q : QubitPtr) : (QubitPtr → Bool × Bool) → ℂ :=
  density fun x => if x q = false then 1 else 0

/-- The handle is put somewhere. -/
def move (q : QubitPtr) (loc : Location) : GlobalState :=
  { G with place := Function.update G.place q loc }

/-- Handles that are lost are not put anywhere else. -/
def moveUnlessLost (q : QubitPtr) (loc : Location) : GlobalState :=
  if q < G.handles ∧ G.place q ≠ .lost then G.move q loc else G

noncomputable def createQubit (node : NodeId) : GlobalState where
  handles := G.handles + 1
  place := Function.update G.place G.handles (.node node)
  tensor := fun z => G.tensor z * zeroTensor G.handles z

noncomputable def createBellPair (node : NodeId) : GlobalState where
  handles := G.handles + 2
  place := Function.update (Function.update G.place G.handles (.node node))
    (G.handles + 1) (.node node)
  tensor := fun z => G.tensor z *
    Swap.bellPair false false G.handles (G.handles + 1) z

noncomputable def apply (node : NodeId) (gate : QGate) (qs : List QubitPtr) :
    Bool × GlobalState :=
  if qs = [] ∨ ∃ q ∈ qs, ¬ G.Local node q then (false, G)
  else
    match gate.matrix with
    | .error _ => (false, G)
    | .ok U => (true,
        { G with tensor := actOn (conjBy (U.kernel qs.length)) qs.get G.tensor })

/-- The projection on outcome `o`, with the state that backend `b` builds for the
measured qubit. -/
noncomputable def collapse (b : QStateBackend) (q : QubitPtr) (basis : Basis)
    (o : Bool) : GlobalState :=
  { G with
    tensor := fun z => QStateRegistry.measuredTensor b basis o q z *
      (1 / G.prob q basis o * contract (outer (eigenvector basis o)) q G.tensor z) }

noncomputable def measure (b : QStateBackend) (node : NodeId) (q : QubitPtr)
    (basis : Basis) (draw : Bool) : ℤ × GlobalState :=
  if ¬ G.Local node q then (-1, G)
  else
    let o := QStateRegistry.drawn (G.prob q basis) draw
    (o.toNat, G.collapse b q basis o)

noncomputable def measureBell (b : QStateBackend) (node : NodeId) (p q : QubitPtr)
    (drawA drawB : Bool) : (ℤ × ℤ) × GlobalState :=
  if ¬ G.Local node p ∨ ¬ G.Local node q then ((-1, -1), G)
  else
    let G := (G.apply node (.builtin .CNOT) [p, q]).2
    let G := (G.apply node (.builtin .H) [p]).2
    let (resultA, G) := G.measure b node p .Z drawA
    let (resultB, G) := G.measure b node q .Z drawB
    ((resultA, resultB), G)

/-- Gates and measurements make no handles and move none. -/
theorem apply_stays (node : NodeId) (gate : QGate) (qs : List QubitPtr) :
    (G.apply node gate qs).2.handles = G.handles ∧
      (G.apply node gate qs).2.place = G.place := by
  rw [apply]
  split_ifs
  · exact ⟨rfl, rfl⟩
  · split <;> exact ⟨rfl, rfl⟩

theorem measure_stays (b : QStateBackend) (node : NodeId) (q : QubitPtr) (basis : Basis)
    (draw : Bool) : (G.measure b node q basis draw).2.handles = G.handles ∧
      (G.measure b node q basis draw).2.place = G.place := by
  rw [measure]
  split_ifs <;> exact ⟨rfl, rfl⟩

theorem measureBell_stays (b : QStateBackend) (node : NodeId) (p q : QubitPtr)
    (drawA drawB : Bool) : (G.measureBell b node p q drawA drawB).2.handles = G.handles ∧
      (G.measureBell b node p q drawA drawB).2.place = G.place := by
  rw [measureBell]
  split_ifs
  · exact ⟨rfl, rfl⟩
  · dsimp only
    rw [(measure_stays _ _ _ _ _ _).1, (measure_stays _ _ _ _ _ _).2,
      (measure_stays _ _ _ _ _ _).1, (measure_stays _ _ _ _ _ _).2,
      (apply_stays _ _ _ _).1, (apply_stays _ _ _ _).2, (apply_stays _ _ _ _).1,
      (apply_stays _ _ _ _).2]
    exact ⟨rfl, rfl⟩

open QStateRegistry (Op)

/-- An operation of the machine; state objects of a caller are not part of it. -/
noncomputable def call (b : QStateBackend) : Op → Reply × GlobalState
  | .newState _ => (.done, G)
  | .setDefaultBackend _ => (.done, G)
  | .createQubit node => (.handle (some G.handles), G.createQubit node)
  | .createQubitFrom _ _ => (.handle none, G)
  | .createBellPair node => (.pair (G.handles, G.handles + 1), G.createBellPair node)
  | .apply node gate qs => (G.apply node gate qs).map .applied id
  | .measure node q basis draw => (G.measure b node q basis draw).map .outcome id
  | .measureBell node p q drawA drawB =>
      (G.measureBell b node p q drawA drawB).map .outcomes id
  | .adoptQubit node q => (.done, G.moveUnlessLost q (.node node))
  | .setLocationNode q node => (.done, G.moveUnlessLost q (.node node))
  | .setLocationChannel q c => (.done, G.moveUnlessLost q (.channel c))
  | .setLocationLost q => (.done, if q < G.handles then G.move q .lost else G)

/-- A program without branches. -/
noncomputable def callAll (b : QStateBackend) : List Op → GlobalState →
    List Reply × GlobalState
  | [], G => ([], G)
  | op :: ops, G =>
      let (r, G) := G.call b op
      let (rs, G) := callAll b ops G
      (r :: rs, G)

end GlobalState

/-! ## The same operations of the registry -/

namespace QStateRegistry

variable (w : QStateRegistry)

/-- A call with its value as a reply. -/
def replying {α : Type} (f : α → Reply) (x : Except Exit α × QStateRegistry) :
    Except Exit Reply × QStateRegistry := (f <$> x.1, x.2)

/-- An operation, with what it returns. -/
noncomputable def call : Op → Except Exit Reply × QStateRegistry
  | .newState value => (.ok .done, (w.newObject value).2)
  | .setDefaultBackend b => (.ok .done, w.setDefaultBackend b)
  | .createQubit node => replying .handle (w.createQubit node)
  | .createQubitFrom node state => replying .handle (w.createQubitFrom node state)
  | .createBellPair node => replying .pair (w.createBellPair node)
  | .apply node gate qs => replying .applied (w.apply node gate qs)
  | .measure node q basis draw => replying .outcome (w.measure node q basis draw)
  | .measureBell node a b drawA drawB =>
      replying .outcomes (w.measureBell node a b drawA drawB)
  | .adoptQubit node q => (.ok .done, w.adoptQubit node q)
  | .setLocationNode q node =>
      replying (fun _ => .done) (w.onHandle q (w.setLocationNode q node))
  | .setLocationChannel q c =>
      replying (fun _ => .done) (w.onHandle q (w.setLocationChannel q c))
  | .setLocationLost q => replying (fun _ => .done) (w.onHandle q (w.setLocationLost q))

/-- A program without branches; an exception or an abort ends it. -/
noncomputable def callAll : List Op → QStateRegistry →
    Except Exit (List Reply) × QStateRegistry
  | [], w => (.ok [], w)
  | op :: ops, w => andThen (w.call op) fun r w =>
      andThen (callAll ops w) fun rs w => (.ok (r :: rs), w)

/-- `call` is `exec` with the values kept. -/
theorem exec_eq_call (op : Op) : w.exec op = ending (w.call op) := by
  have hsame : ∀ {α : Type} (f : α → Reply) (x : Except Exit α × QStateRegistry),
      ending (replying f x) = ending x := by
    rintro α f ⟨_ | _, w'⟩ <;> rfl
  cases op <;> first | rfl | exact (hsame _ _).symm

end QStateRegistry

end Q2NS
