import Q2NS.Maps.RandomGate
import Q2NS.Registry.Processor
import Mathlib.Analysis.SpecialFunctions.Exp
import Mathlib.Analysis.SpecialFunctions.Trigonometric.Basic

/-!
# Channel maps

The `QMap` family: `Sample` draws from the random stream of the channel when a qubit is
sent and returns what is later run at the receiver.  The handle is passed by reference,
so a user's function can replace it or set it to null, and `CompositeQMap` reads the
location through it after every stage.  The stages that run are recorded in a ghost
field, and so are the numbers that the stream hands out.
-/

namespace Q2NS.Maps

open QStateRegistry

abbrev MapId := ℕ

/-- What ends a run besides an exception or an abort: an access through a null
handle. -/
inductive Fault where
  | exit (e : Exit)
  | nullAccess
  deriving DecidableEq

/-! ## Random streams -/

/-- A `UniformRandomVariable`: the values of its stream in `[0, 1)` and how many have
been used; `drawn` is a ghost, the numbers handed out. -/
structure Rng where
  values : ℕ → ℝ
  next : ℕ := 0
  drawn : List ℝ := []

/-- `GetValue`. -/
noncomputable def Rng.getValue (u : Rng) (min max : ℝ) : ℝ × Rng :=
  let v := min + u.values u.next * (max - min)
  (v, { u with next := u.next + 1, drawn := u.drawn ++ [v] })

/-- `GetInteger`. -/
noncomputable def Rng.getInteger (u : Rng) (min max : ℕ) : ℕ × Rng :=
  let (v, u) := u.getValue min (max + 1)
  (⌊v⌋₊, u)

/-- `QMapContext`; the elapsed time in seconds. -/
structure QMapContext where
  elapsedTime : ℝ := 0

/-- The two attributes of every map. -/
structure Probability where
  p : ℝ := 0
  rate : ℝ := 0

/-- `RateToProb`. -/
noncomputable def rateToProb (rate s : ℝ) : ℝ :=
  if rate ≤ 0 ∨ s ≤ 0 then 0
  else
    let p := 1 - Real.exp (-rate * s)
    if p < 0 then 0 else if p > 1 then 1 else p

/-- `GetProb_`. -/
noncomputable def Probability.getProb (pr : Probability) (ctx : QMapContext) : ℝ :=
  if pr.rate > 0 then rateToProb pr.rate ctx.elapsedTime else pr.p

/-- `Bernoulli_`. -/
noncomputable def Probability.bernoulli (pr : Probability) (ctx : QMapContext) (u : Rng) :
    Bool × Rng :=
  let p := pr.getProb ctx
  if p ≤ 0 then (false, u)
  else if p ≥ 1 then (true, u)
  else
    let (v, u) := u.getValue 0 1
    (decide (v < p), u)

/-! ## Maps and what they sample -/

variable (U : Type)

/-- What user code can read and write: the registry, the stream of the channel and
whatever else it captures. -/
structure World where
  registry : QStateRegistry
  rng : Rng
  rest : U

/-- A user's function at the receiver; the handle it returns is what it leaves in the
reference. -/
abbrev SimpleFn :=
  NodeId → Option QubitPtr → World U → Except Exit (Option QubitPtr) × World U

/-- A user's function that also gets the stream (part of the world) and the context. -/
abbrev AdvancedFn := QMapContext → SimpleFn U

/-- `ConditionalQMap::Condition`. -/
abbrev Condition := Option QubitPtr → QMapContext → World U → Except Exit Bool × World U

/-- A pointer to a map. -/
inductive QMap where
  | null
  | dephasing (id : MapId) (pr : Probability)
  | depolarizing (id : MapId) (pr : Probability)
  | loss (id : MapId) (pr : Probability)
  | randomGate (id : MapId) (pr : Probability) (choice : RandomGateQMap ℝ)
  | randomUnitary (id : MapId) (pr : Probability)
  | lambda (id : MapId) (simple : Option (SimpleFn U)) (advanced : Option (AdvancedFn U))
  | conditional (cond : Option (Condition U)) (qmap : QMap)
  | composite (maps : List QMap)

/-- A `QMapInstance`, with what its closure captures. -/
inductive QMapInstance where
  | empty
  | gate (id : MapId) (gate : Option QGate)
  | lose (id : MapId) (lose : Bool)
  | call (id : MapId) (fn : SimpleFn U)
  | conditional (cond : Option (Condition U)) (ctx : QMapContext) (inst : QMapInstance)
  | composite (insts : List QMapInstance)

variable {U}

/-- `QMap::Compose` of a list. -/
def compose (maps : List (QMap U)) : QMap U := .composite maps

/-- `QMap::Compose` of two maps. -/
def composeTwo (a b : QMap U) : QMap U := compose [a, b]

/-- `SampleHaarSU2_`. -/
noncomputable def sampleHaarSU2 (u : Rng) : CMat × Rng :=
  let (a, u) := u.getValue 0 1
  let (b, u) := u.getValue 0 1
  let (c, u) := u.getValue 0 1
  let s1 := Real.sqrt (1 - a)
  let s2 := Real.sqrt a
  let t1 := 2.0 * Real.pi * b
  let t2 := 2.0 * Real.pi * c
  let u0 := s2 * Real.cos t2
  let u3 := s2 * Real.sin t2
  let u2 := s1 * Real.cos t1
  let u1 := s1 * Real.sin t1
  (makeMatrix [[⟨u0, u3⟩, ⟨u2, u1⟩], [⟨-u2, u1⟩, ⟨u0, -u3⟩]], u)

/-- The gate that `DepolarizingQMap` applies for a draw. -/
def pauliOf (r : ℕ) : QGate :=
  if r = 0 then .builtin .X else if r = 1 then .builtin .Y else .builtin .Z

mutual

/-- `Sample`. -/
noncomputable def QMap.sample (ctx : QMapContext) :
    QMap U → Rng → Except Exit (QMapInstance U) × Rng
  | .null, u => (.ok .empty, u)
  | .dephasing id pr, u =>
      let (flip, u) := pr.bernoulli ctx u
      (.ok (.gate id (if flip then some (.builtin .Z) else none)), u)
  | .depolarizing id pr, u =>
      let (apply, u) := pr.bernoulli ctx u
      if apply then
        let (r, u) := u.getInteger 0 2
        (.ok (.gate id (some (pauliOf r))), u)
      else (.ok (.gate id none), u)
  | .loss id pr, u =>
      let (lose, u) := pr.bernoulli ctx u
      (.ok (.lose id lose), u)
  | .randomGate id pr choice, u =>
      let (apply, u) := pr.bernoulli ctx u
      if apply then
        if choice.gates = [] then
          (.error (.aborted "RandomGateQMap: no gates configured"), u)
        else if choice.totalWeight ≤ 0 then
          (.error (.aborted "RandomGateQMap: total weight must be > 0"), u)
        else
          let (r, u) := u.getValue 0 choice.totalWeight
          ((choice.pickGate r).map fun gate => .gate id (some gate), u)
      else (.ok (.gate id none), u)
  | .randomUnitary id pr, u =>
      let (apply, u) := pr.bernoulli ctx u
      if apply then
        let (U, u) := sampleHaarSU2 u
        (.ok (.gate id (some (.custom U))), u)
      else (.ok (.gate id none), u)
  | .lambda id simple advanced, u =>
      match advanced, simple with
      | some adv, _ => (.ok (.call id (adv ctx)), u)
      | none, some simp => (.ok (.call id simp), u)
      | none, none => (.ok .empty, u)
  | .conditional cond qmap, u =>
      match qmap.sample ctx u with
      | (.error e, u) => (.error e, u)
      | (.ok inst, u) => (.ok (.conditional cond ctx inst), u)
  | .composite maps, u =>
      match sampleAll ctx maps u with
      | (.error e, u) => (.error e, u)
      | (.ok insts, u) => (.ok (.composite insts), u)

/-- The loop of `CompositeQMap::Sample`. -/
noncomputable def sampleAll (ctx : QMapContext) :
    List (QMap U) → Rng → Except Exit (List (QMapInstance U)) × Rng
  | [], u => (.ok [], u)
  | m :: maps, u =>
      match m.sample ctx u with
      | (.error e, u) => (.error e, u)
      | (.ok inst, u) =>
          match sampleAll ctx maps u with
          | (.error e, u) => (.error e, u)
          | (.ok insts, u) => (.ok (inst :: insts), u)

end

/-! ## Runs at the receiver -/

/-- A stage that has run, and the handle it left. -/
structure Entry where
  id : MapId
  left : Except Exit (Option QubitPtr)

variable (U) in
/-- The world and the ghost trace of the stages. -/
structure State where
  world : World U
  trace : List Entry := []

namespace State

variable (s : State U)

def getLocation (q : QubitPtr) : Location := s.world.registry.getLocation q

/-- A stage of a map runs and is recorded. -/
def record (id : MapId) (x : Except Exit (Option QubitPtr) × World U) :
    Except Exit (Option QubitPtr) × State U :=
  (x.1, ⟨x.2, s.trace ++ [⟨id, x.1⟩]⟩)

def setRegistry (w : QStateRegistry) : State U :=
  { s with world := { s.world with registry := w } }

end State

/-- `node.Apply(gate, {q})` in a stage; a null handle is rejected. -/
noncomputable def applyGate (gate : QGate) : SimpleFn U
  | _, none, w => (.ok none, w)
  | node, some q, w =>
      match w.registry.apply node gate [q] with
      | (.error e, r) => (.error e, { w with registry := r })
      | (.ok _, r) => (.ok (some q), { w with registry := r })

/-- A stage's exceptions and aborts. -/
def lift (x : Except Exit (Option QubitPtr) × State U) :
    Except Fault (Option QubitPtr) × State U :=
  (x.1.mapError .exit, x.2)

mutual

/-- A sampled map runs on the handle that it is given. -/
noncomputable def QMapInstance.run (node : NodeId) :
    QMapInstance U → Option QubitPtr → State U →
      Except Fault (Option QubitPtr) × State U
  | .empty, q, s => (.ok q, s)
  | .gate id none, q, s => lift (s.record id (.ok q, s.world))
  | .gate id (some gate), q, s => lift (s.record id (applyGate gate node q s.world))
  | .lose id false, q, s => lift (s.record id (.ok q, s.world))
  | .lose _ true, none, s => (.error .nullAccess, s)
  | .lose id true, some q, s =>
      lift (s.record id (.ok (some q),
        { s.world with registry := s.world.registry.setLocationLost q }))
  | .call id fn, q, s => lift (s.record id (fn node q s.world))
  | .conditional _ _ .empty, q, s => (.ok q, s)
  | .conditional none _ inst, q, s => inst.run node q s
  | .conditional (some pred) ctx inst, q, s =>
      match pred q ctx s.world with
      | (.error e, w) => (.error (.exit e), { s with world := w })
      | (.ok true, w) => inst.run node q { s with world := w }
      | (.ok false, w) => (.ok q, { s with world := w })
  | .composite insts, q, s => runSteps node insts q s

/-- The loop of a composite map: the location is read through the handle after each
stage. -/
noncomputable def runSteps (node : NodeId) :
    List (QMapInstance U) → Option QubitPtr → State U →
      Except Fault (Option QubitPtr) × State U
  | [], q, s => (.ok q, s)
  | inst :: insts, q, s =>
      match inst.run node q s with
      | (.error e, s) => (.error e, s)
      | (.ok none, s) => (.error .nullAccess, s)
      | (.ok (some q), s) =>
          if s.getLocation q = .lost then (.ok (some q), s)
          else runSteps node insts (some q) s

end

end Q2NS.Maps
