import Q2NS.Registry.Locations

/-!
# Nodes, devices and channels

`QNetworker`, `QNetDevice`, `QChannel` and the installation of links by
`NetController`.  Devices and channels are positions in the list of all objects of
their kind.  The scheduler runs the scheduled arrivals in any order, so the delays
are left out.  The ghost fields record what was sent, what arrived and which
receive callbacks ran.
-/

namespace Q2NS

open QStateRegistry

abbrev DevPtr := ℕ
abbrev CallbackId := ℕ

/-! ## Channel maps -/

/-- A sampled map: what it does at the receiver.  `user` is a user's function, seen
as the registry operations it performs. -/
inductive QMapInstance where
  | identity
  | applyGate (gate : QGate)
  | setLost
  | composite (steps : List QMapInstance)
  | conditional (pred : QStateRegistry → QubitPtr → Bool) (map : QMapInstance)
  | user (ops : List Op)

/-- The channel maps, without their probabilities. -/
inductive QMap where
  | dephasing
  | depolarizing
  | loss
  | randomGate (gates : List QGate)
  | randomUnitary (gates : List QGate)
  | conditional (pred : QStateRegistry → QubitPtr → Bool) (map : Option QMap)
  | composite (maps : List (Option QMap))
  | lambda

/-- What `Sample` can return; a null map and an empty callable are the identity. -/
inductive QMap.Sample : Option QMap → QMapInstance → Prop where
  | null : Sample none .identity
  | dephasing {inst : QMapInstance} (h : inst = .identity ∨
      inst = .applyGate (.builtin .Z)) : Sample (some .dephasing) inst
  | depolarizing {inst : QMapInstance} (h : inst = .identity ∨
      ∃ kind ∈ [QGateKind.X, .Y, .Z], inst = .applyGate (.builtin kind)) :
      Sample (some .depolarizing) inst
  | loss {inst : QMapInstance} (h : inst = .identity ∨ inst = .setLost) :
      Sample (some .loss) inst
  | randomGate {gates : List QGate} {inst : QMapInstance} (h : inst = .identity ∨
      ∃ gate ∈ gates, inst = .applyGate gate) : Sample (some (.randomGate gates)) inst
  | randomUnitary {gates : List QGate} {inst : QMapInstance} (h : inst = .identity ∨
      ∃ gate ∈ gates, inst = .applyGate gate) :
      Sample (some (.randomUnitary gates)) inst
  | conditional {pred : QStateRegistry → QubitPtr → Bool} {map : Option QMap}
      {inst : QMapInstance} (h : Sample map inst) :
      Sample (some (.conditional pred map)) (.conditional pred inst)
  | compositeNil : Sample (some (.composite [])) (.composite [])
  | compositeCons {map : Option QMap} {maps : List (Option QMap)} {inst : QMapInstance}
      {insts : List QMapInstance} (h : Sample map inst)
      (hs : Sample (some (.composite maps)) (.composite insts)) :
      Sample (some (.composite (map :: maps))) (.composite (inst :: insts))
  | lambda (ops : List Op) : Sample (some .lambda) (.user ops)

/-- Operations one after the other; the first that ends early ends the run. -/
noncomputable def runOps : List Op → QStateRegistry → Except Exit Unit × QStateRegistry
  | [], w => (.ok (), w)
  | op :: ops, w => andThen (w.exec op) fun _ w => runOps ops w

mutual

/-- A sampled map on a qubit at the receiver. -/
noncomputable def QMapInstance.run (node : NodeId) (q : QubitPtr) :
    QMapInstance → QStateRegistry → Except Exit Unit × QStateRegistry
  | .identity, w => (.ok (), w)
  | .applyGate gate, w => ending (w.apply node gate [q])
  | .setLost, w => (.ok (), w.setLocationLost q)
  | .composite steps, w => runSteps node q steps w
  | .conditional pred map, w => if pred w q then map.run node q w else (.ok (), w)
  | .user ops, w => runOps ops w

/-- The stages of a composite map; it stops once the qubit is lost. -/
noncomputable def runSteps (node : NodeId) (q : QubitPtr) :
    List QMapInstance → QStateRegistry → Except Exit Unit × QStateRegistry
  | [], w => (.ok (), w)
  | step :: steps, w => andThen (step.run node q w) fun _ w =>
      if w.getLocation q = .lost then (.ok (), w) else runSteps node q steps w

end

/-! ## Objects -/

/-- `QNetDevice`. -/
structure QNetDevice where
  networker : Option NodeId := none
  channel : Option ChannelId := none

/-- `QChannel`. -/
structure QChannel where
  aDev : Option DevPtr := none
  bDev : Option DevPtr := none
  qmapAB : Option QMap := none
  qmapBA : Option QMap := none

/-- The other end of a channel, and the map in that direction. -/
def QChannel.otherEnd (ch : QChannel) (src : DevPtr) : Option (DevPtr × Option QMap) :=
  if ch.aDev = some src then ch.bDev.map (·, ch.qmapAB)
  else if ch.bDev = some src then ch.aDev.map (·, ch.qmapBA)
  else none

/-- `QNetworker`. -/
structure QNetworker where
  ifaces : List DevPtr := []
  hostRoutes : NodeId → Option ℕ := fun _ => none
  recvCallback : Option CallbackId := none

/-- A scheduled `ReceiveFromChannel`; `serial` is the number of the send. -/
structure Arrival where
  serial : ℕ
  dst : DevPtr
  q : QubitPtr
  map : QMapInstance

/-- An arrival that has been delivered. -/
structure Delivered where
  serial : ℕ
  node : NodeId
  q : QubitPtr
  deriving DecidableEq

/-- A send that has been accepted. -/
structure Sent where
  src : NodeId
  q : QubitPtr
  dst : NodeId
  deriving DecidableEq

/-- The network; `sent`, `delivered` and `called` are ghosts. -/
structure Network where
  registry : QStateRegistry := .empty
  devices : DevPtr → QNetDevice := fun _ => {}
  numDevices : ℕ := 0
  channels : ChannelId → QChannel := fun _ => {}
  numChannels : ℕ := 0
  links : NodeId × NodeId → Option ChannelId := fun _ => none
  networkers : NodeId → QNetworker := fun _ => {}
  events : List Arrival := []
  sent : List Sent := []
  delivered : List Delivered := []
  called : List (CallbackId × QubitPtr) := []

namespace Network

variable (net : Network)

/-! ## Installing links -/

/-- The key of a link in `channels_`. -/
def linkKey (a b : NodeId) : NodeId × NodeId := (min a b, max a b)

/-- `QNetworker::AddInterface` and `QNode::AddDevice` for a device. -/
def addInterface (node : NodeId) (dev : DevPtr) : Network :=
  { net with
    devices := Function.update net.devices dev
      { net.devices dev with networker := some node }
    networkers := Function.update net.networkers node
      { net.networkers node with ifaces := (net.networkers node).ifaces ++ [dev] } }

/-- `QNetworker::AddRoute`. -/
def addRoute (node dst : NodeId) (oif : ℕ) : Network :=
  { net with
    networkers := Function.update net.networkers node
      { net.networkers node with
        hostRoutes := Function.update (net.networkers node).hostRoutes dst (some oif) } }

/-- Two new devices and a new channel that connects them. -/
def connectNew : DevPtr × DevPtr × ChannelId × Network :=
  let devA := net.numDevices
  let devB := net.numDevices + 1
  let chan := net.numChannels
  (devA, devB, chan,
    { net with
      devices := Function.update (Function.update net.devices devA
        { channel := some chan }) devB { channel := some chan }
      numDevices := net.numDevices + 2
      channels := Function.update net.channels chan
        { aDev := some devA, bDev := some devB }
      numChannels := net.numChannels + 1 })

/-- `NetController::InstallQuantumLink`; `none` is a null node. -/
def installQuantumLink : Option NodeId → Option NodeId → Network
  | some a, some b =>
      match net.links (linkKey a b) with
      | some _ => net
      | none =>
          let (devA, devB, chan, net) := net.connectNew
          let ifA := (net.networkers a).ifaces.length
          let net := net.addInterface a devA
          let ifB := (net.networkers b).ifaces.length
          let net := net.addInterface b devB
          let net := (net.addRoute a b ifA).addRoute b a ifB
          { net with links := Function.update net.links (linkKey a b) (some chan) }
  | _, _ => net

/-- `InstallQuantumLink` for a pair that the loops do not skip. -/
def installUnlessSkipped (a b : Option NodeId) : Network :=
  if a = none ∨ b = none then net
  else if a = b then net
  else net.installQuantumLink a b

/-- `NetController::InstallQuantumChain`. -/
def installQuantumChain : List (Option NodeId) → Network → Network
  | a :: b :: nodes, net => installQuantumChain (b :: nodes) (net.installUnlessSkipped a b)
  | _, net => net

/-- `NetController::InstallQuantumAllToAll`. -/
def installQuantumAllToAll : List (Option NodeId) → Network → Network
  | [], net => net
  | a :: nodes, net => installQuantumAllToAll nodes
      (nodes.foldl (fun net b => net.installUnlessSkipped a b) net)

/-! ## Sending and receiving -/

/-- `QChannel::SendFrom`; `sample` is the map that is drawn. -/
def sendFrom (chan : ChannelId) (src : DevPtr) (q : QubitPtr)
    (sample : Option QMap → QMapInstance) : Bool × Network :=
  if net.registry.numHandles ≤ q then (false, net)
  else if net.registry.getLocation q = .lost then (false, net)
  else
    match (net.channels chan).otherEnd src with
    | none => (false, net)
    | some (dst, qmap) =>
        (true, { net with
          events := net.events ++ [Arrival.mk net.sent.length dst q (sample qmap)] })

/-- `QNetworker::Send`; the ghost records a send that is accepted. -/
def send (node : NodeId) (q : QubitPtr) (dstNode : NodeId)
    (sample : Option QMap → QMapInstance) : Bool × Network :=
  if net.registry.numHandles ≤ q then (false, net)
  else if net.registry.getLocation q = .lost then (false, net)
  else if ¬ net.registry.IsLocal node q then (false, net)
  else
    match (net.networkers node).hostRoutes dstNode with
    | none => (false, net)
    | some oif =>
        match (net.networkers node).ifaces[oif]? with
        | none => (false, net)
        | some dev =>
            match (net.devices dev).channel with
            | none => (false, net)
            | some chan =>
                let net := { net with
                  registry := net.registry.setLocationChannel q chan }
                match net.sendFrom chan dev q sample with
                | (false, net) => (false, net)
                | (true, net) =>
                    (true, { net with sent := net.sent ++ [Sent.mk node q dstNode] })

/-- `QNetworker::ReceiveFromDevice`: the registry after it and the callback that
runs. -/
noncomputable def receiveFromDevice (node : NodeId) (q : QubitPtr)
    (map : QMapInstance) : Except Exit (Option CallbackId) × QStateRegistry :=
  andThen (map.run node q (net.registry.adoptQubit node q)) fun _ w =>
    (.ok (if w.getLocation q = .lost then none
      else (net.networkers node).recvCallback), w)

/-- One scheduled arrival runs; `none` when the process ends. -/
noncomputable def deliver (k : ℕ) : Option Network :=
  match net.events[k]? with
  | none => none
  | some e =>
      match (net.devices e.dst).networker with
      | none => none
      | some node =>
          let done := { net with
            events := net.events.eraseIdx k
            delivered := net.delivered ++ [Delivered.mk e.serial node e.q] }
          match net.receiveFromDevice node e.q e.map with
          | (.error (.aborted _), _) => none
          | (.error _, w) => some { done with registry := w }
          | (.ok none, w) => some { done with registry := w }
          | (.ok (some cb), w) => some { done with
              registry := w
              called := net.called ++ [(cb, e.q)] }

/-! ## Runs -/

/-- A step of a simulation program or of the scheduler. -/
inductive Action where
  | installQuantumLink (a b : Option NodeId)
  | installQuantumChain (nodes : List (Option NodeId))
  | installQuantumAllToAll (nodes : List (Option NodeId))
  | setQMaps (chan : ChannelId) (qmapAB qmapBA : Option QMap)
  | setRecvCallback (node : NodeId) (cb : CallbackId)
  | registry (op : Op)
  | mergeStates (qs : List QubitPtr)
  | send (node : NodeId) (q : QubitPtr) (dstNode : NodeId)
      (sample : Option QMap → QMapInstance)
  | deliver (k : ℕ)

/-- The network after an action; `none` when the process ends. -/
noncomputable def act : Action → Option Network
  | .installQuantumLink a b => some (net.installQuantumLink a b)
  | .installQuantumChain nodes => some (installQuantumChain nodes net)
  | .installQuantumAllToAll nodes => some (installQuantumAllToAll nodes net)
  | .setQMaps chan ab ba => some { net with
      channels := Function.update net.channels chan
        { net.channels chan with qmapAB := ab, qmapBA := ba } }
  | .setRecvCallback node cb => some { net with
      networkers := Function.update net.networkers node
        { net.networkers node with recvCallback := some cb } }
  | .registry op => (net.registry.step op).map fun w => { net with registry := w }
  | .mergeStates qs =>
      match net.registry.mergeStates qs with
      | (.error (.aborted _), _) => none
      | (_, w) => some { net with registry := w }
  | .send node q dstNode sample => some (net.send node q dstNode sample).2
  | .deliver k => net.deliver k

/-- One action that meets the condition `P`. -/
def Step (P : Network → Action → Prop) (net net' : Network) : Prop :=
  ∃ a, P net a ∧ net.act a = some net'

/-- Finitely many actions that meet `P`. -/
abbrev Run (P : Network → Action → Prop) : Network → Network → Prop :=
  Relation.ReflTransGen (Step P)

/-- What every step preserves holds after a run. -/
theorem Run.invariant {P : Network → Action → Prop} {I : Network → Prop}
    (hstep : ∀ net a net', I net → P net a → net.act a = some net' → I net')
    {net net' : Network} (h : Run P net net') (hnet : I net) : I net' := by
  induction h with
  | refl => exact hnet
  | tail _ hs ih =>
      obtain ⟨a, hP, ha⟩ := hs
      exact hstep _ a _ ih hP ha

end Network

end Q2NS
