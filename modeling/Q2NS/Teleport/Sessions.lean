import Q2NS.Lib.InFlight
import Q2NS.Types
import Mathlib.Logic.Function.Basic

/-!
# Teleportation sessions

The sinks of `TeleportationApp` on the nodes they share: the node's one receive
callback, the control sockets, and what the handlers do with the flags of an app.
A session is corrected once when its qubit arrives while its own sink owns the
callback of the node, and nothing arrives for that sink after the correction.
-/

namespace Q2NS.Teleport

open InFlight

abbrev SessionId := BitVec 64
abbrev Port := BitVec 16
abbrev Byte := BitVec 8

/-- A qubit's label; `target sid` is `teleport_target_s` followed by the id. -/
inductive Label where
  | target (sid : SessionId)
  | other (text : String)
  deriving DecidableEq

/-- `SessionSpec`: what the helper installs a source and a sink for. -/
structure Session where
  sessionId : SessionId
  src : NodeId
  dst : NodeId
  ctrlPort : Port
  deriving DecidableEq

/-! ## The sink -/

/-- The flags and bits of a sink. -/
structure Sink where
  haveQ : Bool := false
  haveCtrl : Bool := false
  m1 : Byte := 0
  m2 : Byte := 0
  deriving DecidableEq

/-- A correction that has been applied: `X` if `x`, then `Z` if `z`, to the qubit
with the label. -/
structure Correction where
  sid : SessionId
  label : Label
  x : Bool
  z : Bool
  deriving DecidableEq

/-- `TryApplyCorrection`; `found` says whether the node has the target qubit. -/
def tryApplyCorrection (sid : SessionId) (sink : Sink) (found : Bool) :
    List Correction :=
  if sink.haveCtrl && sink.haveQ then
    if found then [⟨sid, .target sid, sink.m2 ≠ 0, sink.m1 ≠ 0⟩] else []
  else []

/-- The flag that `QubitArrivalHandler` sets, whatever the qubit. -/
def qubitArrivalHandler (sink : Sink) : Sink := { sink with haveQ := true }

/-- What `OnCtrlRx` stores of a packet of two bytes. -/
def onCtrlRx (sink : Sink) (m1 m2 : Byte) : Sink :=
  { sink with m1 := m1, m2 := m2, haveCtrl := true }

/-! ## Nodes -/

/-- A control packet on its way. -/
structure CtrlPacket where
  node : NodeId
  port : Port
  m1 : Byte
  m2 : Byte
  deriving DecidableEq

/-- The nodes, the apps and what is on its way; `sent` is a ghost, the bits that the
source of a session has sent. -/
structure State where
  recvCallback : NodeId → Option SessionId := fun _ => none
  localQubits : NodeId → List Label := fun _ => []
  sinks : SessionId → Sink := fun _ => {}
  listening : List SessionId := []
  started : List SessionId := []
  qubits : List (Label × NodeId) := []
  packets : List CtrlPacket := []
  corrections : List Correction := []
  sent : SessionId → Option (Byte × Byte) := fun _ => none

/-- What can happen next. -/
inductive Event where
  | sourceStart (s : Session) (m1 m2 : Byte)
  | sinkStart (s : Session)
  | qubitArrival (k : ℕ)
  | ctrlArrival (k : ℕ)
  | furtherArrival (node : NodeId) (label : Label)

variable (sessions : List Session)

/-- `TryApplyCorrection` of the sink of a session at its node. -/
def State.tryApply (st : State) (sid : SessionId) (node : NodeId) : State :=
  let found := decide (Label.target sid ∈ st.localQubits node)
  { st with
    corrections := st.corrections ++ tryApplyCorrection sid (st.sinks sid) found }

/-- A qubit becomes local to a node. -/
def State.place (st : State) (node : NodeId) (label : Label) : State :=
  { st with
    localQubits := Function.update st.localQubits node
      (label :: st.localQubits node) }

/-- A handler sets the flags of a sink. -/
def State.setSink (st : State) (sid : SessionId) (sink : Sink) : State :=
  { st with sinks := Function.update st.sinks sid sink }

/-- `ReceiveFromDevice` at a node: the qubit is local, then the callback runs. -/
def State.receive (st : State) (node : NodeId) (label : Label) : State :=
  match st.recvCallback node with
  | none => st.place node label
  | some sid =>
      ((st.place node label).setSink sid (qubitArrivalHandler (st.sinks sid))).tryApply
        sid node

/-- The session whose control socket is bound to a port of a node. -/
def State.bound (st : State) (pkt : CtrlPacket) : Option Session :=
  sessions.find? fun s =>
    s.dst = pkt.node ∧ s.ctrlPort = pkt.port ∧ s.sessionId ∈ st.listening

/-- The state after an event, if the event is possible: an app starts once, and a
control packet that nobody listens for would be lost. -/
def State.step (st : State) : Event → Option State
  | .sourceStart s m1 m2 =>
      if s ∈ sessions ∧ s.sessionId ∉ st.started then
        some { st with
          started := s.sessionId :: st.started
          qubits := st.qubits ++ [(.target s.sessionId, s.dst)]
          packets := st.packets ++ [⟨s.dst, s.ctrlPort, m1, m2⟩]
          sent := Function.update st.sent s.sessionId (some (m1, m2)) }
      else none
  | .sinkStart s =>
      if s ∈ sessions ∧ s.sessionId ∉ st.listening then
        some { st with
          recvCallback := Function.update st.recvCallback s.dst (some s.sessionId)
          listening := s.sessionId :: st.listening }
      else none
  | .qubitArrival k =>
      match st.qubits[k]? with
      | none => none
      | some (label, node) =>
          some ({ st with qubits := st.qubits.eraseIdx k }.receive node label)
  | .ctrlArrival k =>
      match st.packets[k]? with
      | none => none
      | some pkt =>
          match st.bound sessions pkt with
          | none => none
          | some s =>
              let sink := onCtrlRx (st.sinks s.sessionId) pkt.m1 pkt.m2
              some (({ st with packets := st.packets.eraseIdx k }.setSink
                s.sessionId sink).tryApply s.sessionId s.dst)
  | .furtherArrival node label => some (st.receive node label)

/-- Finitely many events that meet a condition. -/
inductive Run (P : State → Event → Prop) : State → Prop where
  | init : Run P {}
  | step {st st' : State} {e : Event} (h : Run P st) (hP : P st e)
      (hs : st.step sessions e = some st') : Run P st'

/-- A qubit of a session arrives when the callback of the node is its own sink's. A
further qubit has no label that a sink of its node looks for, and does not arrive
for a sink whose qubit and bits are both there. -/
def Timely (st : State) : Event → Prop
  | .qubitArrival k => ∀ label node, st.qubits[k]? = some (label, node) →
      ∃ sid, label = .target sid ∧ st.recvCallback node = some sid
  | .furtherArrival node label =>
      (∀ s ∈ sessions, s.dst = node → label ≠ .target s.sessionId) ∧
        ∀ sid, st.recvCallback node = some sid →
          ¬ ((st.sinks sid).haveCtrl ∧ .target sid ∈ st.localQubits node)
  | _ => True

/-! ## The invariant -/

variable {sessions} {st st' : State}

/-- The corrections of a session. -/
def State.correctionsOf (st : State) (sid : SessionId) : List Correction :=
  st.corrections.filter fun c => c.sid = sid

/-- What holds of each session: its qubit and its packet are on the way or there,
and it has been corrected, with its own bits, exactly when both are there. -/
structure Session.Inv (s : Session) (st : State) : Prop where
  told : s.sessionId ∈ st.started ↔ (st.sent s.sessionId).isSome
  fresh : s.sessionId ∉ st.started →
    (.target s.sessionId, s.dst) ∉ st.qubits ∧
      .target s.sessionId ∉ st.localQubits s.dst ∧
      (∀ pkt ∈ st.packets, pkt.port ≠ s.ctrlPort) ∧
      (st.sinks s.sessionId).haveCtrl = false
  qubit : s.sessionId ∈ st.started → (.target s.sessionId, s.dst) ∈ st.qubits ∨
    .target s.sessionId ∈ st.localQubits s.dst
  apart : (.target s.sessionId, s.dst) ∈ st.qubits →
    .target s.sessionId ∉ st.localQubits s.dst
  packet : s.sessionId ∈ st.started → (st.sinks s.sessionId).haveCtrl = false →
    ∃ pkt ∈ st.packets, pkt.port = s.ctrlPort
  waiting : ∀ pkt ∈ st.packets, pkt.port = s.ctrlPort →
    pkt.node = s.dst ∧ st.sent s.sessionId = some (pkt.m1, pkt.m2) ∧
      (st.sinks s.sessionId).haveCtrl = false
  bits : (st.sinks s.sessionId).haveCtrl →
    st.sent s.sessionId =
      some ((st.sinks s.sessionId).m1, (st.sinks s.sessionId).m2)
  noticed : .target s.sessionId ∈ st.localQubits s.dst → (st.sinks s.sessionId).haveQ
  corrected : st.correctionsOf s.sessionId =
    if (st.sinks s.sessionId).haveCtrl ∧ .target s.sessionId ∈ st.localQubits s.dst then
      [⟨s.sessionId, .target s.sessionId, (st.sinks s.sessionId).m2 ≠ 0,
        (st.sinks s.sessionId).m1 ≠ 0⟩]
    else []

/-- What holds of all sessions together. -/
structure Inv (sessions : List Session) (st : State) : Prop where
  each : ∀ s ∈ sessions, s.Inv st
  callbacks : ∀ node sid, st.recvCallback node = some sid →
    ∃ s ∈ sessions, s.sessionId = sid ∧ s.dst = node
  qubits : ∀ label node, (label, node) ∈ st.qubits →
    ∃ s ∈ sessions, label = .target s.sessionId ∧ node = s.dst
  qubitsNodup : st.qubits.Nodup
  packets : ∀ pkt ∈ st.packets, ∃ s ∈ sessions, pkt.port = s.ctrlPort
  packetsNodup : (st.packets.map CtrlPacket.port).Nodup

theorem inv_init (sessions : List Session) : Inv sessions {} where
  each := fun _ _ =>
    { told := ⟨fun h => absurd h List.not_mem_nil, fun h => nomatch h⟩
      fresh := fun _ => ⟨List.not_mem_nil, List.not_mem_nil,
        fun _ h => absurd h List.not_mem_nil, rfl⟩
      qubit := fun h => absurd h List.not_mem_nil
      apart := fun h => absurd h List.not_mem_nil
      packet := fun h => absurd h List.not_mem_nil
      waiting := fun _ h => absurd h List.not_mem_nil
      bits := fun h => nomatch h
      noticed := fun h => absurd h List.not_mem_nil
      corrected := rfl }
  callbacks := fun _ _ h => nomatch h
  qubits := fun _ _ h => absurd h List.not_mem_nil
  qubitsNodup := List.nodup_nil
  packets := fun _ h => absurd h List.not_mem_nil
  packetsNodup := List.nodup_nil

/-- A session that an event does not touch. -/
structure Same (st st' : State) (s : Session) : Prop where
  started : s.sessionId ∈ st'.started ↔ s.sessionId ∈ st.started
  qubits : (.target s.sessionId, s.dst) ∈ st'.qubits ↔
    (.target s.sessionId, s.dst) ∈ st.qubits
  localQubits : .target s.sessionId ∈ st'.localQubits s.dst ↔
    .target s.sessionId ∈ st.localQubits s.dst
  packets : ∀ pkt, pkt.port = s.ctrlPort → (pkt ∈ st'.packets ↔ pkt ∈ st.packets)
  haveCtrl : (st'.sinks s.sessionId).haveCtrl = (st.sinks s.sessionId).haveCtrl
  haveQ : (st.sinks s.sessionId).haveQ → (st'.sinks s.sessionId).haveQ
  m1 : (st'.sinks s.sessionId).m1 = (st.sinks s.sessionId).m1
  m2 : (st'.sinks s.sessionId).m2 = (st.sinks s.sessionId).m2
  sent : st'.sent s.sessionId = st.sent s.sessionId
  corrections : st'.correctionsOf s.sessionId = st.correctionsOf s.sessionId

theorem Session.Inv.same {s : Session} (h : s.Inv st) (e : Same st st' s) :
    s.Inv st' where
  told := by
    rw [e.started, e.sent]
    exact h.told
  fresh := fun hs => by
    obtain ⟨h₁, h₂, h₃, h₄⟩ := h.fresh fun hs' => hs (e.started.mpr hs')
    refine ⟨fun hq => h₁ (e.qubits.mp hq), fun hl => h₂ (e.localQubits.mp hl),
      fun pkt hp hport => h₃ pkt ((e.packets pkt hport).mp hp) hport, ?_⟩
    rw [e.haveCtrl]
    exact h₄
  qubit := fun hs => (h.qubit (e.started.mp hs)).imp e.qubits.mpr e.localQubits.mpr
  apart := fun hq hl => h.apart (e.qubits.mp hq) (e.localQubits.mp hl)
  packet := fun hs hc => by
    rw [e.haveCtrl] at hc
    obtain ⟨pkt, hp, hport⟩ := h.packet (e.started.mp hs) hc
    exact ⟨pkt, (e.packets pkt hport).mpr hp, hport⟩
  waiting := fun pkt hp hport => by
    rw [e.sent, e.haveCtrl]
    exact h.waiting pkt ((e.packets pkt hport).mp hp) hport
  bits := fun hc => by
    rw [e.haveCtrl] at hc
    rw [e.sent, e.m1, e.m2]
    exact h.bits hc
  noticed := fun hl => e.haveQ (h.noticed (e.localQubits.mp hl))
  corrected := by
    rw [e.corrections, h.corrected, e.haveCtrl, e.m1, e.m2]
    simp only [e.localQubits]

/-- `TryApplyCorrection` only corrects its own session. -/
theorem correctionsOf_tryApply (st : State) (sid : SessionId) (node : NodeId)
    (sid' : SessionId) : (st.tryApply sid node).correctionsOf sid' =
      st.correctionsOf sid' ++ if sid' = sid then
        tryApplyCorrection sid (st.sinks sid)
          (decide (Label.target sid ∈ st.localQubits node)) else [] := by
  have hmine : ∀ c ∈ tryApplyCorrection sid (st.sinks sid)
      (decide (Label.target sid ∈ st.localQubits node)), c.sid = sid := by
    intro c hc
    rw [tryApplyCorrection] at hc
    split_ifs at hc
    · rw [List.mem_singleton.mp hc]
    · exact absurd hc List.not_mem_nil
    · exact absurd hc List.not_mem_nil
  rw [State.tryApply, State.correctionsOf, State.correctionsOf, List.filter_append]
  congr 1
  split_ifs with hid
  · exact List.filter_eq_self.mpr fun c hc =>
      decide_eq_true ((hmine c hc).trans hid.symm)
  · exact List.filter_eq_nil_iff.mpr fun c hc he =>
      hid ((of_decide_eq_true he).symm.trans (hmine c hc))

/-- Nothing is corrected while the bits or the qubit are missing. -/
theorem tryApplyCorrection_eq_nil {sid : SessionId} {sink : Sink} {found : Bool}
    (h : ¬ (sink.haveCtrl ∧ found)) : tryApplyCorrection sid sink found = [] := by
  rw [tryApplyCorrection]
  split_ifs with hboth hfound
  · exact absurd ⟨(Bool.and_eq_true _ _ ▸ hboth).1, hfound⟩ h
  · rfl
  · rfl

theorem tryApplyCorrection_eq {sid : SessionId} {sink : Sink} {found : Bool}
    (hQ : found → sink.haveQ) : tryApplyCorrection sid sink found =
      if sink.haveCtrl ∧ found then [⟨sid, .target sid, sink.m2 ≠ 0, sink.m1 ≠ 0⟩]
      else [] := by
  split_ifs with h
  · rw [tryApplyCorrection, if_pos (by rw [h.1, hQ h.2]; rfl), if_pos h.2]
  · exact tryApplyCorrection_eq_nil h

/-- A session that has not been corrected, and whose sink has noticed its qubit if it
is there. -/
theorem correctionsOf_own {sid : SessionId} {node : NodeId}
    (hnone : st.correctionsOf sid = [])
    (hQ : .target sid ∈ st.localQubits node → (st.sinks sid).haveQ) :
    (st.tryApply sid node).correctionsOf sid =
      if (st.sinks sid).haveCtrl ∧ .target sid ∈ st.localQubits node then
        [⟨sid, .target sid, (st.sinks sid).m2 ≠ 0, (st.sinks sid).m1 ≠ 0⟩]
      else [] := by
  rw [correctionsOf_tryApply, if_pos rfl, hnone, List.nil_append,
    tryApplyCorrection_eq fun hl => hQ (of_decide_eq_true hl)]
  simp only [decide_eq_true_iff]

/-! ## Arrivals -/

/-- The labels at a node after an arrival there. -/
theorem mem_place {node node' : NodeId} {label label' : Label} :
    label' ∈ (st.place node label).localQubits node' ↔
      label' = label ∧ node' = node ∨ label' ∈ st.localQubits node' := by
  rw [State.place]
  by_cases hn : node' = node
  · subst hn
    simp only [Function.update_self, List.mem_cons, and_true]
  · simp only [Function.update_of_ne hn, hn, and_false, false_or]

/-- What arrives at a node leaves a session alone that it is not the qubit of, unless
it is noticed by the session's sink when the qubit and the bits are both there. -/
theorem same_receive {s : Session} {node : NodeId} {label : Label}
    (hlabel : label = .target s.sessionId → node ≠ s.dst)
    (hcallback : st.recvCallback node = some s.sessionId →
      ¬ ((st.sinks s.sessionId).haveCtrl ∧ .target s.sessionId ∈ st.localQubits node) ∧
        node = s.dst) :
    Same st (st.receive node label) s := by
  have hlocal : Label.target s.sessionId ∈ (st.place node label).localQubits s.dst ↔
      Label.target s.sessionId ∈ st.localQubits s.dst := by
    rw [mem_place]
    exact or_iff_right fun h => hlabel h.1.symm h.2.symm
  rw [State.receive]
  cases hc : st.recvCallback node with
  | none =>
      exact { started := Iff.rfl, qubits := Iff.rfl, localQubits := hlocal
              packets := fun _ _ => Iff.rfl, haveCtrl := rfl, haveQ := id
              m1 := rfl, m2 := rfl, sent := rfl, corrections := rfl }
  | some sid =>
      by_cases hid : s.sessionId = sid
      · subst hid
        obtain ⟨hboth, rfl⟩ := hcallback hc
        let sink := qubitArrivalHandler (st.sinks s.sessionId)
        have hsink : (((st.place s.dst label).setSink s.sessionId sink).tryApply
            s.sessionId s.dst).sinks s.sessionId = sink := Function.update_self ..
        refine { started := Iff.rfl, qubits := Iff.rfl, localQubits := hlocal
                 packets := fun _ _ => Iff.rfl, haveCtrl := ?_, haveQ := fun _ => ?_
                 m1 := ?_, m2 := ?_, sent := rfl, corrections := ?_ }
        · exact (congrArg Sink.haveCtrl hsink).trans rfl
        · exact (congrArg Sink.haveQ hsink).trans rfl
        · exact (congrArg Sink.m1 hsink).trans rfl
        · exact (congrArg Sink.m2 hsink).trans rfl
        · refine (correctionsOf_tryApply ..).trans ?_
          rw [if_pos rfl, tryApplyCorrection_eq_nil]
          · exact List.append_nil _
          · rintro ⟨hctrl, hfound⟩
            exact hboth ⟨(congrArg Sink.haveCtrl hsink).symm.trans hctrl,
              hlocal.mp (of_decide_eq_true hfound)⟩
      · have hsink : (((st.place node label).setSink sid
            (qubitArrivalHandler (st.sinks sid))).tryApply sid node).sinks s.sessionId =
            st.sinks s.sessionId := Function.update_of_ne hid ..
        refine { started := Iff.rfl, qubits := Iff.rfl, localQubits := hlocal
                 packets := fun _ _ => Iff.rfl, haveCtrl := congrArg _ hsink
                 haveQ := (congrArg Sink.haveQ hsink).trans
                 m1 := congrArg _ hsink, m2 := congrArg _ hsink
                 sent := rfl, corrections := ?_ }
        refine (correctionsOf_tryApply ..).trans ?_
        rw [if_neg hid]
        exact List.append_nil _

/-- The qubit of a session leaves the network and arrives at its own sink. -/
theorem Session.Inv.receive_own {s : Session} {qubits : List (Label × NodeId)}
    (h : s.Inv st) (hstarted : s.sessionId ∈ st.started)
    (haway : (.target s.sessionId, s.dst) ∉ qubits)
    (hnot : .target s.sessionId ∉ st.localQubits s.dst)
    (hc : st.recvCallback s.dst = some s.sessionId) :
    s.Inv ({ st with qubits := qubits }.receive s.dst (.target s.sessionId)) := by
  let sink := qubitArrivalHandler (st.sinks s.sessionId)
  let st₁ := ({ st with qubits := qubits }.place s.dst (.target s.sessionId)).setSink
    s.sessionId sink
  have hr : { st with qubits := qubits }.receive s.dst (.target s.sessionId) =
      st₁.tryApply s.sessionId s.dst := by
    simp only [State.receive, hc]
    rfl
  have hlocal : Label.target s.sessionId ∈ st₁.localQubits s.dst :=
    mem_place.mpr (.inl ⟨rfl, rfl⟩)
  have hnone : st₁.correctionsOf s.sessionId = [] := by
    refine h.corrected.trans ?_
    rw [if_neg fun hh => hnot hh.2]
  have hsink : (st₁.tryApply s.sessionId s.dst).sinks s.sessionId = sink :=
    Function.update_self ..
  have hctrl : sink.haveCtrl = (st.sinks s.sessionId).haveCtrl := rfl
  rw [hr]
  refine { told := h.told, fresh := fun hs => absurd hstarted hs
           qubit := fun _ => .inr hlocal
           apart := fun hq => absurd hq haway, packet := fun hs hh => ?_
           waiting := fun pkt hp hport => ?_, bits := fun hh => ?_
           noticed := fun _ => ?_, corrected := ?_ }
  · rw [hsink, hctrl] at hh
    exact h.packet hs hh
  · rw [hsink, hctrl]
    exact h.waiting pkt hp hport
  · rw [hsink, hctrl] at hh
    rw [hsink]
    exact h.bits hh
  · rw [hsink]
    rfl
  · refine correctionsOf_own hnone fun _ => ?_
    exact (congrArg Sink.haveQ hsink).trans rfl

/-! ## Control packets -/

/-- The sink of a session gets the packet of its session. -/
theorem Session.Inv.ctrl_own {s : Session} {k : ℕ} {pkt : CtrlPacket} (h : s.Inv st)
    (hnodup : (st.packets.map CtrlPacket.port).Nodup) (hk : st.packets[k]? = some pkt)
    (hport : pkt.port = s.ctrlPort) (hstarted : s.sessionId ∈ st.started) :
    s.Inv (({ st with packets := st.packets.eraseIdx k }.setSink s.sessionId
      (onCtrlRx (st.sinks s.sessionId) pkt.m1 pkt.m2)).tryApply s.sessionId s.dst) := by
  obtain ⟨-, hsent, hctrl⟩ := h.waiting pkt (List.mem_of_getElem? hk) hport
  have hnone : st.correctionsOf s.sessionId = [] := by
    rw [h.corrected, if_neg fun hh => Bool.false_ne_true (hctrl.symm.trans hh.1)]
  have hgone : ∀ other ∈ st.packets.eraseIdx k, other.port ≠ s.ctrlPort := by
    intro other hmem heq
    have hport' : other.port ∈ (st.packets.map CtrlPacket.port).eraseIdx k := by
      rw [List.eraseIdx_map]
      exact List.mem_map_of_mem hmem
    refine notMem_eraseIdx hnodup ?_ hport'
    rw [List.getElem?_map, hk, heq, ← hport]
    rfl
  let sink := onCtrlRx (st.sinks s.sessionId) pkt.m1 pkt.m2
  have hsink : (({ st with packets := st.packets.eraseIdx k }.setSink s.sessionId
      sink).tryApply s.sessionId s.dst).sinks s.sessionId = sink :=
    Function.update_self ..
  refine { told := h.told, fresh := fun hs => absurd hstarted hs
           qubit := h.qubit, apart := h.apart, packet := fun _ hh => ?_
           waiting := fun other hp hport' => absurd hport' (hgone other hp)
           bits := fun _ => ?_, noticed := fun hl => ?_, corrected := ?_ }
  · rw [hsink] at hh
    exact absurd hh.symm Bool.false_ne_true
  · rw [hsink]
    exact hsent
  · rw [hsink]
    exact h.noticed hl
  · refine correctionsOf_own hnone fun hl => ?_
    exact (congrArg Sink.haveQ hsink).trans (h.noticed hl)

/-- The packet of a session leaves the other sessions alone. -/
theorem same_ctrl {s s' : Session} {k : ℕ} {pkt : CtrlPacket} {sink : Sink}
    (hk : st.packets[k]? = some pkt) (hport : pkt.port ≠ s.ctrlPort)
    (hid : s.sessionId ≠ s'.sessionId) :
    Same st (({ st with packets := st.packets.eraseIdx k }.setSink s'.sessionId
      sink).tryApply s'.sessionId s'.dst) s := by
  have hsink : (({ st with packets := st.packets.eraseIdx k }.setSink s'.sessionId
      sink).tryApply s'.sessionId s'.dst).sinks s.sessionId = st.sinks s.sessionId :=
    Function.update_of_ne hid ..
  refine { started := Iff.rfl, qubits := Iff.rfl, localQubits := Iff.rfl
           packets := fun other hother => ?_, haveCtrl := congrArg _ hsink
           haveQ := (congrArg Sink.haveQ hsink).trans, m1 := congrArg _ hsink
           m2 := congrArg _ hsink, sent := rfl, corrections := ?_ }
  · refine mem_eraseIdx_of_ne hk ?_
    rintro rfl
    exact hport hother
  · rw [correctionsOf_tryApply, if_neg hid]
    exact List.append_nil _

/-! ## Starts -/

/-- The source of a session starts: its qubit and its packet leave. -/
theorem Session.Inv.start_own {s : Session} (h : s.Inv st)
    (hnew : s.sessionId ∉ st.started) (m1 m2 : Byte) :
    s.Inv { st with
      started := s.sessionId :: st.started
      qubits := st.qubits ++ [(.target s.sessionId, s.dst)]
      packets := st.packets ++ [⟨s.dst, s.ctrlPort, m1, m2⟩]
      sent := Function.update st.sent s.sessionId (some (m1, m2)) } := by
  obtain ⟨-, hlocal, hpackets, hctrl⟩ := h.fresh hnew
  refine { told := ⟨fun _ => ?_, fun _ => List.mem_cons_self⟩
           fresh := fun hs => absurd List.mem_cons_self hs
           qubit := fun _ => .inl (List.mem_append_right _ (List.mem_singleton_self _))
           apart := fun _ => hlocal
           packet := fun _ _ =>
             ⟨_, List.mem_append_right _ (List.mem_singleton_self _), rfl⟩
           waiting := fun pkt hp hport => ?_
           bits := fun hh => absurd (hctrl.symm.trans hh) Bool.false_ne_true
           noticed := h.noticed, corrected := h.corrected }
  · show (Function.update st.sent s.sessionId (some (m1, m2)) s.sessionId).isSome
    rw [Function.update_self]
    rfl
  · rcases List.mem_append.mp hp with hp | hp
    · exact absurd hport (hpackets pkt hp)
    · rw [List.mem_singleton.mp hp]
      exact ⟨rfl, Function.update_self .., hctrl⟩

/-- The start of a session leaves the other sessions alone. -/
theorem same_start {s s' : Session} {m1 m2 : Byte} (hid : s.sessionId ≠ s'.sessionId)
    (hport : s.ctrlPort ≠ s'.ctrlPort) :
    Same st { st with
      started := s'.sessionId :: st.started
      qubits := st.qubits ++ [(.target s'.sessionId, s'.dst)]
      packets := st.packets ++ [⟨s'.dst, s'.ctrlPort, m1, m2⟩]
      sent := Function.update st.sent s'.sessionId (some (m1, m2)) } s where
  started := by rw [List.mem_cons, or_iff_right hid]
  qubits := by
    rw [List.mem_append, List.mem_singleton]
    refine or_iff_left fun h => hid ?_
    exact Label.target.inj (congrArg Prod.fst h)
  localQubits := Iff.rfl
  packets := fun pkt hpkt => by
    rw [List.mem_append, List.mem_singleton]
    refine or_iff_left fun h => hport ?_
    rw [← hpkt, h]
  haveCtrl := rfl
  haveQ := id
  m1 := rfl
  m2 := rfl
  sent := Function.update_of_ne hid ..
  corrections := rfl

/-! ## Runs -/

theorem Inv.sinkStart (h : Inv sessions st) {s : Session} (hs : s ∈ sessions) :
    Inv sessions { st with
      recvCallback := Function.update st.recvCallback s.dst (some s.sessionId)
      listening := s.sessionId :: st.listening } := by
  refine { each := fun s' hs' => (h.each s' hs').same ?_
           callbacks := fun node sid hc => ?_, qubits := h.qubits
           qubitsNodup := h.qubitsNodup, packets := h.packets
           packetsNodup := h.packetsNodup }
  · exact { started := Iff.rfl, qubits := Iff.rfl, localQubits := Iff.rfl
            packets := fun _ _ => Iff.rfl, haveCtrl := rfl, haveQ := id
            m1 := rfl, m2 := rfl, sent := rfl, corrections := rfl }
  · by_cases hnode : node = s.dst
    · subst hnode
      have hc' := (Function.update_self ..).symm.trans hc
      exact ⟨s, hs, Option.some.inj hc', rfl⟩
    · exact h.callbacks node sid ((Function.update_of_ne hnode ..).symm.trans hc)

/-- What an arrival leaves as it is. -/
theorem receive_frame (st : State) (node : NodeId) (label : Label) :
    (st.receive node label).recvCallback = st.recvCallback ∧
      (st.receive node label).qubits = st.qubits ∧
      (st.receive node label).packets = st.packets := by
  rw [State.receive]
  cases st.recvCallback node with
  | none => exact ⟨rfl, rfl, rfl⟩
  | some sid => exact ⟨rfl, rfl, rfl⟩

/-- An arrival keeps what holds of all sessions together. -/
theorem Inv.receive (h : Inv sessions st) {qubits : List (Label × NodeId)}
    (hsub : qubits.Sublist st.qubits) {node : NodeId} {label : Label}
    (heach : ∀ s ∈ sessions, s.Inv ({ st with qubits := qubits }.receive node label)) :
    Inv sessions ({ st with qubits := qubits }.receive node label) := by
  obtain ⟨hc, hq, hp⟩ := receive_frame { st with qubits := qubits } node label
  refine { each := heach, callbacks := ?_, qubits := ?_, qubitsNodup := ?_
           packets := ?_, packetsNodup := ?_ }
  · rw [hc]
    exact h.callbacks
  · rw [hq]
    exact fun label node hmem => h.qubits label node (hsub.subset hmem)
  · rw [hq]
    exact h.qubitsNodup.sublist hsub
  · rw [hp]
    exact h.packets
  · rw [hp]
    exact h.packetsNodup

/-- The callback of a session's sink is at its node. -/
theorem Inv.callback_own (hids : (sessions.map Session.sessionId).Nodup)
    (h : Inv sessions st) {s : Session} (hs : s ∈ sessions)
    {node : NodeId} (hc : st.recvCallback node = some s.sessionId) : s.dst = node := by
  obtain ⟨s', hs', hid, hnode⟩ := h.callbacks node s.sessionId hc
  rwa [List.inj_on_of_nodup_map hids hs' hs hid] at hnode

section Runs

variable (hids : (sessions.map Session.sessionId).Nodup)
  (hports : (sessions.map Session.ctrlPort).Nodup)
include hids hports

/-- Two sessions share neither id nor port. -/
theorem apart_of_ne {s s' : Session} (hs : s ∈ sessions) (hs' : s' ∈ sessions)
    (hne : s ≠ s') : s.sessionId ≠ s'.sessionId ∧ s.ctrlPort ≠ s'.ctrlPort :=
  ⟨fun h => hne (List.inj_on_of_nodup_map hids hs hs' h),
    fun h => hne (List.inj_on_of_nodup_map hports hs hs' h)⟩

theorem Inv.sourceStart (h : Inv sessions st) {s : Session} (hs : s ∈ sessions)
    (hnew : s.sessionId ∉ st.started) (m1 m2 : Byte) :
    Inv sessions { st with
      started := s.sessionId :: st.started
      qubits := st.qubits ++ [(.target s.sessionId, s.dst)]
      packets := st.packets ++ [⟨s.dst, s.ctrlPort, m1, m2⟩]
      sent := Function.update st.sent s.sessionId (some (m1, m2)) } := by
  obtain ⟨hqubit, -, hpackets, -⟩ := (h.each s hs).fresh hnew
  refine { each := fun s' hs' => ?_, callbacks := h.callbacks
           qubits := fun label node hq => ?_, qubitsNodup := ?_
           packets := fun pkt hp => ?_, packetsNodup := ?_ }
  · by_cases hne : s' = s
    · subst hne
      exact (h.each s' hs').start_own hnew m1 m2
    · obtain ⟨hid, hport⟩ := apart_of_ne hids hports hs' hs hne
      exact (h.each s' hs').same (same_start hid hport)
  · rcases List.mem_append.mp hq with hq | hq
    · exact h.qubits label node hq
    · obtain ⟨rfl, rfl⟩ := Prod.mk.inj (List.mem_singleton.mp hq)
      exact ⟨s, hs, rfl, rfl⟩
  · refine List.Nodup.append h.qubitsNodup (List.nodup_singleton _) ?_
    rw [List.disjoint_singleton]
    exact hqubit
  · rcases List.mem_append.mp hp with hp | hp
    · exact h.packets pkt hp
    · exact ⟨s, hs, by rw [List.mem_singleton.mp hp]⟩
  · rw [List.map_append]
    refine List.Nodup.append h.packetsNodup (List.nodup_singleton _) ?_
    rw [List.map_singleton, List.disjoint_singleton]
    intro hport
    obtain ⟨pkt, hp, he⟩ := List.mem_map.mp hport
    exact hpackets pkt hp he

theorem Inv.qubitArrival (h : Inv sessions st) {k : ℕ} {sid : SessionId}
    {node : NodeId} (hk : st.qubits[k]? = some (.target sid, node))
    (hc : st.recvCallback node = some sid) :
    Inv sessions ({ st with qubits := st.qubits.eraseIdx k }.receive node
      (.target sid)) := by
  have hmem := List.mem_of_getElem? hk
  obtain ⟨s, hs, hid, rfl⟩ := h.qubits _ _ hmem
  obtain rfl := Label.target.inj hid
  have hstarted : s.sessionId ∈ st.started := by
    by_contra hnew
    exact ((h.each s hs).fresh hnew).1 hmem
  have haway := notMem_eraseIdx h.qubitsNodup hk
  refine h.receive (List.eraseIdx_sublist _ k) fun s' hs' => ?_
  by_cases hne : s' = s
  · subst hne
    exact (h.each s' hs').receive_own hstarted haway ((h.each s' hs').apart hmem) hc
  · obtain ⟨hid', -⟩ := apart_of_ne hids hports hs' hs hne
    have hlabel : Label.target s.sessionId ≠ .target s'.sessionId :=
      fun hl => hid' (Label.target.inj hl).symm
    have hsame : Same st { st with qubits := st.qubits.eraseIdx k } s' :=
      { started := Iff.rfl, localQubits := Iff.rfl, packets := fun _ _ => Iff.rfl
        haveCtrl := rfl, haveQ := id, m1 := rfl, m2 := rfl, sent := rfl
        corrections := rfl
        qubits := mem_eraseIdx_of_ne hk fun hq =>
          hlabel (congrArg Prod.fst hq).symm }
    refine ((h.each s' hs').same hsame).same
      (same_receive (fun hl => absurd hl hlabel) fun hc' => ?_)
    exact absurd (Option.some.inj (hc.symm.trans hc')).symm hid'

theorem Inv.ctrlArrival (h : Inv sessions st) {k : ℕ} {pkt : CtrlPacket} {s : Session}
    (hk : st.packets[k]? = some pkt) (hb : st.bound sessions pkt = some s) :
    Inv sessions (({ st with packets := st.packets.eraseIdx k }.setSink s.sessionId
      (onCtrlRx (st.sinks s.sessionId) pkt.m1 pkt.m2)).tryApply s.sessionId s.dst) := by
  have hs : s ∈ sessions := List.mem_of_find?_eq_some hb
  rw [State.bound] at hb
  have hbound := List.find?_some hb
  rw [decide_eq_true_iff] at hbound
  have hport : pkt.port = s.ctrlPort := hbound.2.1.symm
  have hmem := List.mem_of_getElem? hk
  have hstarted : s.sessionId ∈ st.started := by
    by_contra hnew
    exact ((h.each s hs).fresh hnew).2.2.1 pkt hmem hport
  refine { each := fun s' hs' => ?_, callbacks := h.callbacks, qubits := h.qubits
           qubitsNodup := h.qubitsNodup
           packets := fun other hp => h.packets other (List.mem_of_mem_eraseIdx hp)
           packetsNodup := ?_ }
  · by_cases hne : s' = s
    · subst hne
      exact (h.each s' hs').ctrl_own h.packetsNodup hk hport hstarted
    · obtain ⟨hid', hport'⟩ := apart_of_ne hids hports hs' hs hne
      exact (h.each s' hs').same
        (same_ctrl hk (fun hp => hport' (hp.symm.trans hport)) hid')
  · exact h.packetsNodup.sublist ((List.eraseIdx_sublist _ k).map _)

/-- A timely event keeps the invariant. -/
theorem Inv.step (h : Inv sessions st) {e : Event} (htimely : Timely sessions st e)
    (hstep : st.step sessions e = some st') : Inv sessions st' := by
  cases e with
  | sourceStart s m1 m2 =>
      rw [State.step] at hstep
      split_ifs at hstep with hnew
      obtain rfl := Option.some.inj hstep
      exact h.sourceStart hids hports hnew.1 hnew.2 m1 m2
  | sinkStart s =>
      rw [State.step] at hstep
      split_ifs at hstep with hnew
      obtain rfl := Option.some.inj hstep
      exact h.sinkStart hnew.1
  | qubitArrival k =>
      cases hk : st.qubits[k]? with
      | none => simp only [State.step, hk, reduceCtorEq] at hstep
      | some q =>
          obtain ⟨label, node⟩ := q
          simp only [State.step, hk, Option.some.injEq] at hstep
          subst hstep
          obtain ⟨sid, rfl, hc⟩ := htimely label node hk
          exact h.qubitArrival hids hports hk hc
  | ctrlArrival k =>
      cases hk : st.packets[k]? with
      | none => simp only [State.step, hk, reduceCtorEq] at hstep
      | some pkt =>
          cases hb : st.bound sessions pkt with
          | none => simp only [State.step, hk, hb, reduceCtorEq] at hstep
          | some s =>
              simp only [State.step, hk, hb, Option.some.injEq] at hstep
              subst hstep
              exact h.ctrlArrival hids hports hk hb
  | furtherArrival node label =>
      obtain rfl := Option.some.inj hstep
      exact h.receive (List.Sublist.refl _) fun s hs => (h.each s hs).same
        (same_receive (fun hl hn => htimely.1 s hs hn.symm hl) fun hc =>
          ⟨htimely.2 s.sessionId hc, (h.callback_own hids hs hc).symm⟩)

/-- A run of timely events keeps the invariant. -/
theorem run_inv (h : Run sessions (Timely sessions) st) : Inv sessions st := by
  induction h with
  | init => exact inv_init sessions
  | step _ htimely hstep ih => exact ih.step hids hports htimely hstep

end Runs

/-! ## Corrections -/

/-- The qubit of a session and its packet, with these bits, have arrived. -/
def Session.Arrived (s : Session) (st : State) (m1 m2 : Byte) : Prop :=
  .target s.sessionId ∈ st.localQubits s.dst ∧ st.sent s.sessionId = some (m1, m2) ∧
    ∀ pkt ∈ st.packets, pkt.port ≠ s.ctrlPort

/-- The correction that the bits of a session ask for. -/
def Session.correction (s : Session) (m1 m2 : Byte) : Correction :=
  ⟨s.sessionId, .target s.sessionId, m2 ≠ 0, m1 ≠ 0⟩

/-- The sink has the bits of a session once its packet has arrived. -/
theorem Session.Inv.haveCtrl {s : Session} (h : s.Inv st) {m1 m2 : Byte}
    (harrived : s.Arrived st m1 m2) : (st.sinks s.sessionId).haveCtrl = true ∧
      (st.sinks s.sessionId).m1 = m1 ∧ (st.sinks s.sessionId).m2 = m2 := by
  obtain ⟨-, hsent, hgone⟩ := harrived
  have hstarted : s.sessionId ∈ st.started := h.told.mpr (by rw [hsent]; rfl)
  have hctrl : (st.sinks s.sessionId).haveCtrl = true := by
    by_contra hnot
    obtain ⟨pkt, hp, hport⟩ := h.packet hstarted (Bool.eq_false_iff.mpr hnot)
    exact hgone pkt hp hport
  obtain ⟨h₁, h₂⟩ := Prod.mk.inj (Option.some.inj ((h.bits hctrl).symm.trans hsent))
  exact ⟨hctrl, h₁, h₂⟩

/-- A sink that has bits has those of its session's packet, which has arrived. -/
theorem Session.Inv.arrived {s : Session} (h : s.Inv st)
    (hctrl : (st.sinks s.sessionId).haveCtrl)
    (hlocal : .target s.sessionId ∈ st.localQubits s.dst) :
    s.Arrived st (st.sinks s.sessionId).m1 (st.sinks s.sessionId).m2 := by
  refine ⟨hlocal, h.bits hctrl, fun pkt hp hport => ?_⟩
  exact Bool.false_ne_true ((h.waiting pkt hp hport).2.2.symm.trans hctrl)

/-- In every run of timely events a session has been corrected exactly once, by the
bits of its own packet, when its qubit and its packet have arrived, and not at all
before. When nothing is on the way any more, a started session has been corrected. -/
theorem corrected_once (hids : (sessions.map Session.sessionId).Nodup)
    (hports : (sessions.map Session.ctrlPort).Nodup)
    (h : Run sessions (Timely sessions) st) {s : Session} (hs : s ∈ sessions) :
    (∀ m1 m2, s.Arrived st m1 m2 →
      st.correctionsOf s.sessionId = [s.correction m1 m2]) ∧
    ((¬ ∃ m1 m2, s.Arrived st m1 m2) → st.correctionsOf s.sessionId = []) ∧
    (s.sessionId ∈ st.started → st.qubits = [] → st.packets = [] →
      ∃ m1 m2, s.Arrived st m1 m2) := by
  have hinv := (run_inv hids hports h).each s hs
  refine ⟨fun m1 m2 harrived => ?_, fun hnone => ?_, fun hstarted hq hp => ?_⟩
  · obtain ⟨hctrl, rfl, rfl⟩ := hinv.haveCtrl harrived
    rw [hinv.corrected, if_pos ⟨hctrl, harrived.1⟩]
    rfl
  · rw [hinv.corrected, if_neg]
    rintro ⟨hctrl, hlocal⟩
    exact hnone ⟨_, _, hinv.arrived hctrl hlocal⟩
  · obtain ⟨bits, hsent⟩ := Option.isSome_iff_exists.mp (hinv.told.mp hstarted)
    refine ⟨bits.1, bits.2, (hinv.qubit hstarted).resolve_left ?_, hsent, ?_⟩
    · rw [hq]
      exact List.not_mem_nil
    · rw [hp]
      exact fun _ h => absurd h List.not_mem_nil

/-- Two sessions from different sources to one node. -/
def sharedSink : List Session := [⟨1, 0, 2, 7001⟩, ⟨2, 1, 2, 7002⟩]

theorem corrected_once_shared :
    ∃ st, Run sharedSink (Timely sharedSink) st ∧ st.qubits = [] ∧ st.packets = [] ∧
      st.correctionsOf 1 = [⟨1, .target 1, false, true⟩] := by
  have hself : ∀ {st : State} {k : ℕ} {sid : SessionId} {node : NodeId},
      st.qubits[k]? = some (.target sid, node) → st.recvCallback node = some sid →
      Timely sharedSink st (.qubitArrival k) := by
    intro st k sid node hk hc label node' hk'
    obtain ⟨rfl, rfl⟩ := Prod.mk.inj (Option.some.inj (hk.symm.trans hk'))
    exact ⟨sid, rfl, hc⟩
  have hrun : Run sharedSink (Timely sharedSink) _ :=
    .step (e := .ctrlArrival 0) (.step (e := .ctrlArrival 0)
      (.step (e := .qubitArrival 0) (.step (e := .sinkStart ⟨2, 1, 2, 7002⟩)
      (.step (e := .qubitArrival 0) (.step (e := .sourceStart ⟨2, 1, 2, 7002⟩ 0 0)
      (.step (e := .sourceStart ⟨1, 0, 2, 7001⟩ 1 0)
      (.step (e := .sinkStart ⟨1, 0, 2, 7001⟩) .init trivial rfl) trivial rfl)
      trivial rfl) (hself rfl rfl) rfl) trivial rfl) (hself rfl rfl) rfl)
      trivial rfl) trivial rfl
  exact ⟨_, hrun, rfl, rfl,
    (corrected_once (by decide) (by decide) hrun List.mem_cons_self).1 1 0
      ⟨.tail _ (.head _), rfl, fun _ h => absurd h List.not_mem_nil⟩⟩

/-- Both sinks start before the qubits arrive, so that the second sink owns the
callback: nothing is lost, and the first session is never corrected. -/
theorem shared_sink_not_corrected :
    ∃ st, Run sharedSink (fun _ _ => True) st ∧ st.qubits = [] ∧ st.packets = [] ∧
      (⟨1, 0, 2, 7001⟩ : Session).Arrived st 1 0 ∧ st.correctionsOf 1 = [] := by
  have hrun : Run sharedSink (fun _ _ => True) _ :=
    .step (e := .ctrlArrival 0) (.step (e := .ctrlArrival 0)
      (.step (e := .qubitArrival 0) (.step (e := .qubitArrival 0)
      (.step (e := .sourceStart ⟨2, 1, 2, 7002⟩ 0 0)
      (.step (e := .sourceStart ⟨1, 0, 2, 7001⟩ 1 0)
      (.step (e := .sinkStart ⟨2, 1, 2, 7002⟩)
      (.step (e := .sinkStart ⟨1, 0, 2, 7001⟩) .init trivial rfl) trivial rfl)
      trivial rfl) trivial rfl) trivial rfl) trivial rfl) trivial rfl) trivial rfl
  exact ⟨_, hrun, rfl, rfl,
    ⟨.tail _ (.head _), rfl, fun _ h => absurd h List.not_mem_nil⟩, rfl⟩

end Q2NS.Teleport
