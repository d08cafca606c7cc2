import Q2NS.Swap.Planning

/-!
# The swap application at work

The handlers of `SwapApp` and the events that call them.  What the application asks
of its `QNode` is a parameter, over some state of the quantum network.  Qubits and
control packets are on their way until they are delivered or lost.
-/

namespace Q2NS.Swap

variable {W T : Type}

/-- The two neighbours on a path. -/
inductive Side where
  | prev
  | next
  deriving DecidableEq

def Side.other : Side → Side
  | .prev => .next
  | .next => .prev

/-- Labels of qubits; `swapIn .prev sid` is `swap_in_from_prev_s` followed by the id,
and `swapIn .next sid` is `swap_in_from_next_s` followed by the id. -/
inductive Label where
  | swapIn (side : Side) (sid : SessionId)
  | other (text : String)
  deriving DecidableEq

/-- The calls on the `QNode` with an id; `none` when a call throws or fails its
assertion. -/
structure QNode (W : Type) where
  createBellPair : NodeId → W → Option ((QubitPtr × QubitPtr) × W)
  send : NodeId → QubitPtr → NodeId → W → Option W
  receive : NodeId → QubitPtr → W → Option W
  measureBell : NodeId → QubitPtr → QubitPtr → Bool × Bool → W → Option ((ℤ × ℤ) × W)
  apply : NodeId → QGate → QubitPtr → W → Option W
  lose : QubitPtr → W → Option W

/-- A qubit on its way to a node. -/
structure Flight where
  label : Label
  q : QubitPtr
  dst : NodeId
  deriving DecidableEq

inductive Address where
  | v4 (addr : BitVec 32)
  | v6 (addr : BitVec 128)
  deriving DecidableEq

/-- The address that control packets are not sent to. -/
def Address.IsAny (a : Address) : Prop := a = .v4 0 ∨ a = .v6 0

instance (a : Address) : Decidable a.IsAny := inferInstanceAs (Decidable (_ ∨ _))

/-- A control packet; `sender` is a ghost. -/
structure CtrlPacket where
  dst : Address
  port : BitVec 16
  sid : SessionId
  m1 : BitVec 8
  m2 : BitVec 8
  sender : NodeId
  deriving DecidableEq

/-- What the handlers of all nodes share; `corrected` is a ghost. -/
structure Net (W : Type) where
  world : W
  qubits : List Flight := []
  packets : List CtrlPacket := []
  corrected : List (NodeId × SessionId) := []

/-! ## Sessions -/

namespace SessionConfig

/-- `genPrev` and `genNext`. -/
def gen (cfg : SessionConfig) : Side → Bool
  | .prev => cfg.genPrev
  | .next => cfg.genNext

/-- `prevPeerId` and `nextPeerId`. -/
def peerId (cfg : SessionConfig) : Side → NodeId
  | .prev => cfg.prevPeerId
  | .next => cfg.nextPeerId

/-- The address that the bits of a Bell measurement go to. -/
def nextEnd (cfg : SessionConfig) (useIpv6 : Bool) : Address :=
  if useIpv6 then .v6 cfg.nextEndAddr6 else .v4 cfg.nextEndAddr

end SessionConfig

namespace SessionState

/-- `qPrev` and `qNext`. -/
def link (s : SessionState) : Side → Option QubitPtr
  | .prev => s.qPrev
  | .next => s.qNext

def setLink (s : SessionState) (q : QubitPtr) : Side → SessionState
  | .prev => { s with qPrev := some q }
  | .next => { s with qNext := some q }

/-- The first qubit that arrives from a neighbour is kept. -/
def takeLink (s : SessionState) (q : QubitPtr) (side : Side) : SessionState :=
  if (s.link side).isNone then s.setLink q side else s

end SessionState

/-! ## Handlers -/

section Handlers

variable (api : QNode W) (useIpv6 : Bool) (node : NodeId)

/-- `Send` of a labelled qubit. -/
def send (label : Label) (q : QubitPtr) (peer : NodeId) (net : Net W) :
    Option (Net W) :=
  (api.send node q peer net.world).map fun world =>
    { net with world := world, qubits := net.qubits ++ [⟨label, q, peer⟩] }

/-- A Bell pair for a session; the second half goes to the neighbour. -/
def generate (s : SessionState) (side : Side) (net : Net W) :
    Option (QubitPtr × Net W) := do
  let ((kept, remote), world) ← api.createBellPair node net.world
  let net ← send api node (.swapIn side.other s.cfg.sid) remote (s.cfg.peerId side)
    { net with world := world }
  return (kept, net)

/-- The control packet of a repeater. -/
def announce (s : SessionState) (m1 m2 : BitVec 8) (net : Net W) : Net W :=
  let dst := s.cfg.nextEnd useIpv6
  if dst.IsAny then net
  else { net with
    packets := net.packets ++ [⟨dst, s.cfg.ctrlPort, s.cfg.sid, m1, m2, node⟩] }

/-- `MaybeDoBsmAndAnnounce`. -/
def maybeDoBsmAndAnnounce (draws : Bool × Bool) (s : SessionState) (net : Net W) :
    Option (SessionState × Net W) :=
  match s.haveBSM, s.qPrev, s.qNext with
  | false, some a, some b => do
      let (bits, world) ← api.measureBell node a b draws net.world
      return ({ s with haveBSM := true },
        announce useIpv6 node s (BitVec.ofInt 8 bits.1) (BitVec.ofInt 8 bits.2)
          { net with world := world })
  | _, _, _ => some (s, net)

/-- A Pauli correction that is applied if its bits are not zero. -/
def correctIf (gate : QGate) (bits : BitVec 8) (q : QubitPtr) (world : W) : Option W :=
  if bits ≠ 0 then api.apply node gate q world else some world

/-- `TryApply`, without the fidelity check.  The helper turns the check on at both ends,
and it runs once, at the end that corrects, after the correction and with `done` set: if
the state of the target has two qubits, it makes a further Bell pair at the node and traces
the fidelity of the two states.  The new pair leaves every other qubit alone
(`Inv.createBellPair_keepsBut`), and nothing of the session depends on the result. -/
def tryApply (s : SessionState) (net : Net W) : Option (SessionState × Net W) :=
  if ¬ s.cfg.applyCorrections then some ({ s with done := true }, net)
  else if s.done ∨ ¬ s.haveQ ∨ ¬ s.haveF then some (s, net)
  else
    match s.targetQubit with
    | none => some (s, net)
    | some q => do
        let world ← correctIf api node (.builtin .X) s.accumM2 q net.world
        let world ← correctIf api node (.builtin .Z) s.accumM1 q world
        return ({ s with done := true }, { net with
          world := world
          corrected := net.corrected ++ [(node, s.cfg.sid)] })

/-- `OnCtrlRx` for a session of the node. -/
def onCtrlRx (m1 m2 : BitVec 8) (s : SessionState) (net : Net W) :
    Option (SessionState × Net W) :=
  let s := { s with
    accumM1 := s.accumM1 ^^^ m1, accumM2 := s.accumM2 ^^^ m2, recv := s.recv + 1 }
  if s.cfg.expectedMsgs ≤ s.recv.toNat then tryApply api node { s with haveF := true } net
  else some (s, net)

/-- A repeater that has both links measures when a qubit arrives. -/
def measureOnArrival (side : Side) (draws : Bool × Bool) (s : SessionState)
    (net : Net W) : Option (SessionState × Net W) :=
  if s.cfg.role = .repeater ∧ (s.link side.other).isSome ∧ ¬ s.haveBSM then
    maybeDoBsmAndAnnounce api useIpv6 node draws s net
  else some (s, net)

/-- The first qubit that arrives at an endpoint is its final one. -/
def keepFinalQubit (side : Side) (s : SessionState) (net : Net W) :
    Option (SessionState × Net W) :=
  if s.cfg.role ≠ .repeater ∧ ¬ s.haveQ then
    let s := { s with targetQubit := s.link side, haveQ := true }
    if s.haveF then tryApply api node s net else some (s, net)
  else some (s, net)

/-- The arrival handler for a qubit of a session that comes from a neighbour. -/
def arrive (side : Side) (q : QubitPtr) (draws : Bool × Bool) (s : SessionState)
    (net : Net W) : Option (SessionState × Net W) :=
  (measureOnArrival api useIpv6 node side draws (s.takeLink q side) net).bind fun (s, net) =>
    keepFinalQubit api node side s net

/-- The half of a link that a repeater generates, if it is told to. -/
def generateLink (side : Side) (s : SessionState) (net : Net W) :
    Option (SessionState × Net W) :=
  if s.cfg.gen side then
    (generate api node s side net).map fun (kept, net) => (s.setLink kept side, net)
  else some (s, net)

/-- `DoRepeaterRound`. -/
def doRepeaterRound (draws : Bool × Bool) (s : SessionState) (net : Net W) :
    Option (SessionState × Net W) := do
  let (s, net) ← generateLink api node .next s net
  let (s, net) ← generateLink api node .prev s net
  if s.qPrev.isSome ∧ s.qNext.isSome ∧ ¬ s.haveBSM then
    maybeDoBsmAndAnnounce api useIpv6 node draws s net
  else some (s, net)

/-- `DoEndpointStart`. -/
def doEndpointStart (s : SessionState) (net : Net W) : Option (SessionState × Net W) :=
  if s.cfg.role = .prev ∧ s.cfg.genNext then
    (generate api node s .next net).map fun (kept, net) =>
      ({ s with targetQubit := some kept, haveQ := true }, net)
  else some (s, net)

/-- The event that `ScheduleSession` schedules. -/
def startSession (draws : Bool × Bool) (s : SessionState) (net : Net W) :
    Option (SessionState × Net W) :=
  match s.cfg.role with
  | .repeater => doRepeaterRound api useIpv6 node draws s net
  | .prev | .next => doEndpointStart api node s net

end Handlers

/-! ## Events -/

/-- `it->second` of a session replaced. -/
def SwapApp.setSession (app : SwapApp) (sid : SessionId) (s : SessionState) : SwapApp :=
  { app with
    sessions := app.sessions.map fun e => if e.1 = sid then (sid, s) else e }

/-- The apps and what is on its way; `heard` is a ghost, the senders of the control
packets that have been processed. -/
structure State (W : Type) where
  net : Net W
  apps : Apps
  started : List (String × SessionId) := []
  heard : List (SessionId × NodeId) := []

/-- The state of a session at a node. -/
def State.session (st : State W) (name : String) (sid : SessionId) :
    Option SessionState :=
  (st.apps name).bind fun app => app.find sid

/-- A handler runs for a session of a node, if the node has the session. -/
def State.onSession (st : State W) (name : String) (sid : SessionId)
    (handler : SessionState → Net W → Option (SessionState × Net W)) :
    Option (State W) :=
  match st.apps name with
  | none => none
  | some app =>
      match app.find sid with
      | none => some st
      | some s => (handler s st.net).map fun (s, net) => { st with
          net := net
          apps := Function.update st.apps name (some (app.setSession sid s)) }

/-- What can happen next; `draws` are the random bits of a Bell measurement. -/
inductive Event where
  | start (name : String) (sid : SessionId) (draws : Bool × Bool)
  | qubitArrival (k : ℕ) (name : String) (draws : Bool × Bool)
  | ctrlArrival (k : ℕ) (name : String)
  | qubitLost (k : ℕ)
  | ctrlLost (k : ℕ)

section Step

variable (api : QNode W) (w : Setup T)

/-- The address of a node, as the helper looks it up. -/
def addressOf (name : String) : Address :=
  if w.useIpv6 then .v6 (w.v6 name) else .v4 (w.v4 name)

/-- The arrival handler of the app of a node. -/
def State.dispatch (st : State W) (name : String) (flight : Flight)
    (draws : Bool × Bool) : Option (State W) :=
  match flight.label with
  | .swapIn side sid => st.onSession name sid
      (arrive api w.useIpv6 (w.nodeId name) side flight.q draws)
  | .other _ => some st

/-- The state after an event, if the event is possible. -/
def State.step (st : State W) : Event → Option (State W)
  | .start name sid draws =>
      if (st.session name sid).isSome ∧ (name, sid) ∉ st.started then
        { st with started := (name, sid) :: st.started }.onSession name sid
          (startSession api w.useIpv6 (w.nodeId name) draws)
      else none
  | .qubitArrival k name draws =>
      match st.net.qubits[k]? with
      | none => none
      | some flight =>
          if w.nodeId name = flight.dst ∧ (st.apps name).isSome then do
            let world ← api.receive (w.nodeId name) flight.q st.net.world
            let net := { st.net with world := world, qubits := st.net.qubits.eraseIdx k }
            { st with net := net }.dispatch api w name flight draws
          else none
  | .ctrlArrival k name =>
      match st.net.packets[k]? with
      | none => none
      | some pkt =>
          if addressOf w name = pkt.dst ∧
              ((st.apps name).any fun app => app.Listens pkt.port) then
            let net := { st.net with packets := st.net.packets.eraseIdx k }
            { st with net := net, heard := st.heard ++ [(pkt.sid, pkt.sender)] }.onSession
              name pkt.sid (onCtrlRx api (w.nodeId name) pkt.m1 pkt.m2)
          else none
  | .qubitLost k =>
      match st.net.qubits[k]? with
      | none => none
      | some flight => (api.lose flight.q st.net.world).map fun world =>
          { st with net := { st.net with
              world := world, qubits := st.net.qubits.eraseIdx k } }
  | .ctrlLost k =>
      if k < st.net.packets.length then
        some { st with net := { st.net with packets := st.net.packets.eraseIdx k } }
      else none

/-- Finitely many events that meet a condition. -/
inductive Run (P : State W → Event → Prop) (st₀ : State W) : State W → Prop where
  | init : Run P st₀ st₀
  | step {st st' : State W} {e : Event} (h : Run P st₀ st) (hP : P st e)
      (hs : st.step api w e = some st') : Run P st₀ st'

/-- Nothing is lost. -/
def NoLoss (_ : State W) : Event → Prop
  | .qubitLost _ | .ctrlLost _ => False
  | _ => True

end Step

end Q2NS.Swap
