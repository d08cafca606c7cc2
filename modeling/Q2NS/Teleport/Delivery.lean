import Q2NS.Lib.InFlight
import Q2NS.Teleport.Transfer

/-!
# What teleportation sessions deliver

The sessions of `TeleportationApp` together with the registry that their calls act
on.  All sources are given the same state object; the links are noiseless, so a
qubit that has been sent arrives as it left.
-/

namespace Q2NS.Teleport

open QStateRegistry

/-- The apps, the registry, and the handle that carries the label of a session's
target qubit. -/
structure Delivery where
  net : State := {}
  registry : QStateRegistry
  target : SessionId → Option QubitPtr := fun _ => none

/-- What can happen next; a start of a source comes with the two random draws. -/
inductive Happening where
  | sourceStart (s : Session) (drawA drawB : Bool)
  | sinkStart (s : Session)
  | qubitArrival (k : ℕ)
  | ctrlArrival (k : ℕ)

/-- A result of `MeasureBell` as the byte that is sent. -/
def byteOf (m : ℤ) : Byte := BitVec.ofInt 8 m

/-- The handle with a label. -/
def Delivery.handleOf (d : Delivery) : Label → Option QubitPtr
  | .target sid => d.target sid
  | .other _ => none

/-- A correction, on the handle that has its label. -/
noncomputable def Delivery.gates (d : Delivery) (node : NodeId) (w : QStateRegistry)
    (c : Correction) : QStateRegistry :=
  (d.handleOf c.label).elim w fun q => w.applyCorrection node q c

/-- The apps of a node go on to `net`, with the corrections that this adds. -/
noncomputable def Delivery.follow (d : Delivery) (net : State) (node : NodeId) : Delivery :=
  { d with
    net := net
    registry := (net.corrections.drop d.net.corrections.length).foldl (d.gates node)
      d.registry }

/-- A qubit is adopted by the node where it arrives. -/
def Delivery.adopt (d : Delivery) (node : NodeId) (label : Label) : Delivery :=
  { d with
    registry := (d.handleOf label).elim d.registry (d.registry.adoptQubit node) }

variable (sessions : List Session) (chan : NodeId → NodeId → ChannelId)
  (teleportState : StatePtr)

/-- The state after a happening, if it is possible. -/
noncomputable def Delivery.step (d : Delivery) : Happening → Option Delivery
  | .sourceStart s drawA drawB =>
      match d.registry.doSourceStart s.src teleportState (chan s.src s.dst) drawA
          drawB with
      | (.error _, _) => none
      | (.ok sent, w) =>
          (d.net.step sessions (.sourceStart s (byteOf sent.2.1) (byteOf sent.2.2))).map
            fun net =>
              { net := net
                registry := w
                target := Function.update d.target s.sessionId (some sent.1) }
  | .sinkStart s =>
      (d.net.step sessions (.sinkStart s)).map fun net => { d with net := net }
  | .qubitArrival k =>
      match d.net.qubits[k]? with
      | none => none
      | some arrival => (d.net.step sessions (.qubitArrival k)).map fun net =>
          (d.adopt arrival.2 arrival.1).follow net arrival.2
  | .ctrlArrival k =>
      match d.net.packets[k]? with
      | none => none
      | some pkt => (d.net.step sessions (.ctrlArrival k)).map fun net =>
          d.follow net pkt.node

/-- Finitely many happenings, from apps that have not started. -/
inductive Delivers (w₀ : QStateRegistry) : Delivery → Prop where
  | init : Delivers w₀ { registry := w₀ }
  | step {d d' : Delivery} {e : Happening} (h : Delivers w₀ d)
      (hs : d.step sessions chan teleportState e = some d') : Delivers w₀ d'

/-! ## The invariant -/

variable {sessions chan teleportState} {w₀ : QStateRegistry} {d d' : Delivery}
  {s : Session} {α : Bool → ℂ} {q : QubitPtr} {m1 m2 : Bool}

/-- A session whose source has not started. -/
structure Session.Fresh (s : Session) (d : Delivery) : Prop where
  started : s.sessionId ∉ d.net.started
  target : d.target s.sessionId = none
  qubits : ∀ label, (label, s.dst) ∉ d.net.qubits
  localQubits : .target s.sessionId ∉ d.net.localQubits s.dst
  packets : ∀ pkt ∈ d.net.packets, pkt.node ≠ s.dst
  haveQ : (d.net.sinks s.sessionId).haveQ = false
  haveCtrl : (d.net.sinks s.sessionId).haveCtrl = false
  corrections : d.net.correctionsOf s.sessionId = []

/-- A session whose source has measured `m1` and `m2` and sent `q`: the qubit and the
packet are on the way or there, and `q` is corrected once both have been noticed. -/
structure Session.Going (s : Session) (α : Bool → ℂ) (w₀ : QStateRegistry)
    (d : Delivery) (q : QubitPtr) (m1 m2 : Bool) : Prop where
  started : s.sessionId ∈ d.net.started
  target : d.target s.sessionId = some q
  new : w₀.numHandles ≤ q
  found : d.registry.getLocation q ≠ .lost
  qubit : (.target s.sessionId, s.dst) ∈ d.net.qubits ∧
      (d.net.sinks s.sessionId).haveQ = false ∧
      .target s.sessionId ∉ d.net.localQubits s.dst ∨
    (∀ label, (label, s.dst) ∉ d.net.qubits) ∧
      .target s.sessionId ∈ d.net.localQubits s.dst ∧ d.registry.IsLocal s.dst q
  packet : (d.net.sinks s.sessionId).haveCtrl = false ∨
    (∀ pkt ∈ d.net.packets, pkt.node ≠ s.dst) ∧
      (d.net.sinks s.sessionId).m1 = byteOf m1.toNat ∧
      (d.net.sinks s.sessionId).m2 = byteOf m2.toNat
  bits : ∀ pkt ∈ d.net.packets, pkt.node = s.dst →
    pkt.m1 = byteOf m1.toNat ∧ pkt.m2 = byteOf m2.toNat
  holds : (d.net.correctionsOf s.sessionId = [] ∧
      ¬ ((d.net.sinks s.sessionId).haveQ ∧ (d.net.sinks s.sessionId).haveCtrl) ∧
      d.registry.Group .Ket {q} (pure (received α m1 m2) q)) ∨
    ((d.net.sinks s.sessionId).haveQ ∧ (d.net.sinks s.sessionId).haveCtrl) ∧
      d.registry.Group .Ket {q} (pure α q)

/-- A session that a happening leaves alone. -/
structure Leaves (d d' : Delivery) (s : Session) : Prop where
  started : s.sessionId ∈ d'.net.started ↔ s.sessionId ∈ d.net.started
  target : d'.target s.sessionId = d.target s.sessionId
  qubits : ∀ label, (label, s.dst) ∈ d'.net.qubits ↔ (label, s.dst) ∈ d.net.qubits
  localQubits : d'.net.localQubits s.dst = d.net.localQubits s.dst
  packets : ∀ pkt, pkt.node = s.dst → (pkt ∈ d'.net.packets ↔ pkt ∈ d.net.packets)
  sink : d'.net.sinks s.sessionId = d.net.sinks s.sessionId
  corrections : d'.net.correctionsOf s.sessionId = d.net.correctionsOf s.sessionId
  registry : ∀ x F, d.target s.sessionId = some x → d.registry.Group .Ket {x} F →
    d'.registry.Group .Ket {x} F ∧ d'.registry.getLocation x = d.registry.getLocation x

theorem Session.Fresh.leaves (h : s.Fresh d) (e : Leaves d d' s) : s.Fresh d' where
  started := fun hs => h.started (e.started.mp hs)
  target := e.target.trans h.target
  qubits := fun label hq => h.qubits label ((e.qubits label).mp hq)
  localQubits := e.localQubits ▸ h.localQubits
  packets := fun pkt hp hnode => h.packets pkt ((e.packets pkt hnode).mp hp) hnode
  haveQ := e.sink ▸ h.haveQ
  haveCtrl := e.sink ▸ h.haveCtrl
  corrections := e.corrections.trans h.corrections

theorem Session.Going.group (h : s.Going α w₀ d q m1 m2) :
    ∃ F, d.registry.Group .Ket {q} F := by
  rcases h.holds with ⟨-, -, hg⟩ | ⟨-, hg⟩
  · exact ⟨_, hg⟩
  · exact ⟨_, hg⟩

theorem Session.Going.leaves (h : s.Going α w₀ d q m1 m2) (e : Leaves d d' s) :
    s.Going α w₀ d' q m1 m2 := by
  obtain ⟨F, hF⟩ := h.group
  have hloc := (e.registry q F h.target hF).2
  refine ⟨e.started.mpr h.started, e.target.trans h.target, h.new, hloc ▸ h.found,
    ?_, ?_, fun pkt hp hnode => h.bits pkt ((e.packets pkt hnode).mp hp) hnode, ?_⟩
  · rw [e.sink, e.localQubits]
    refine h.qubit.imp (fun hq => ⟨(e.qubits _).mpr hq.1, hq.2⟩) fun hq =>
      ⟨fun label hl => hq.1 label ((e.qubits label).mp hl), hq.2.1, ?_⟩
    exact hloc.trans hq.2.2
  · rw [e.sink]
    exact h.packet.imp id fun hp =>
      ⟨fun pkt hpkt hnode => hp.1 pkt ((e.packets pkt hnode).mp hpkt) hnode, hp.2⟩
  · rw [e.sink, e.corrections]
    exact h.holds.imp
      (fun hs => ⟨hs.1, hs.2.1, (e.registry q _ h.target hs.2.2).1⟩)
      fun hs => ⟨hs.1, (e.registry q _ h.target hs.2).1⟩

/-- What holds of all sessions together; `w₀` is the registry they began with. -/
structure Delivery.Inv (sessions : List Session) (p : StatePtr) (psi : Ket)
    (w₀ : QStateRegistry) (d : Delivery) : Prop where
  registry : d.registry.Inv
  idle : d.registry.Idle p (.ket psi)
  keeps : w₀.KeepsBut d.registry []
  callbacks : ∀ node sid, d.net.recvCallback node = some sid →
    ∃ s ∈ sessions, s.sessionId = sid ∧ s.dst = node
  qubits : ∀ label node, (label, node) ∈ d.net.qubits →
    ∃ s ∈ sessions, label = .target s.sessionId ∧ node = s.dst
  qubitsNodup : (d.net.qubits.map Prod.snd).Nodup
  packets : ∀ pkt ∈ d.net.packets, ∃ s ∈ sessions, pkt.node = s.dst
  packetsNodup : (d.net.packets.map CtrlPacket.node).Nodup
  each : ∀ s ∈ sessions,
    s.Fresh d ∨ ∃ q m1 m2, s.Going (amplitude psi) w₀ d q m1 m2
  apart : ∀ s ∈ sessions, ∀ s' ∈ sessions, s ≠ s' → ∀ q,
    d.target s.sessionId = some q → d.target s'.sessionId ≠ some q

theorem Session.Going.lt (h : s.Going α w₀ d q m1 m2) (hw : d.registry.Inv) :
    q < d.registry.numHandles := by
  obtain ⟨F, t, hF⟩ := h.group
  exact (hF.handle hw (Finset.mem_singleton_self q)).1

/-- What is confined to other handles leaves the qubit of a session alone. -/
theorem registry_leaves (hw : d.registry.Inv) {w : QStateRegistry} {l : List QubitPtr}
    (hk : d.registry.KeepsBut w l)
    (hout : ∀ x, d.target s.sessionId = some x → x ∉ l) (x : QubitPtr)
    (F : (QubitPtr → Bool × Bool) → ℂ) (hx : d.target s.sessionId = some x)
    (hg : d.registry.Group .Ket {x} F) :
    w.Group .Ket {x} F ∧ w.getLocation x = d.registry.getLocation x := by
  have hlt : x < d.registry.numHandles := by
    obtain ⟨t, ht⟩ := hg
    exact (ht.handle hw (Finset.mem_singleton_self x)).1
  refine ⟨hg.keeps hw hk fun y hy hyx => ?_, hk.confined.locations x hlt (hout x hx)⟩
  exact hout x hx (Finset.mem_singleton.mp hyx ▸ hy)

/-! ## Corrections -/

theorem byteOf_ne (b : Bool) : decide (byteOf b.toNat ≠ 0) = b := by
  cases b <;> decide

/-- What `TryApplyCorrection` of a session does to the registry. -/
theorem follow_registry {st : State} {sid : SessionId} {node : NodeId}
    (hcorr : st.corrections = d.net.corrections) (htarget : d.target sid = some q) :
    (d.follow (st.tryApply sid node) node).registry =
      if (st.sinks sid).haveCtrl ∧ (st.sinks sid).haveQ ∧
          .target sid ∈ st.localQubits node then
        d.registry.applyCorrection node q
          ⟨sid, .target sid, (st.sinks sid).m2 ≠ 0, (st.sinks sid).m1 ≠ 0⟩
      else d.registry := by
  have hgates : ∀ w (c : Correction), c.label = .target sid →
      d.gates node w c = w.applyCorrection node q c := fun w c hc => by
    rw [Delivery.gates, hc, Delivery.handleOf, htarget, Option.elim_some]
  have hdrop : (st.tryApply sid node).corrections.drop d.net.corrections.length =
      tryApplyCorrection sid (st.sinks sid)
        (decide (Label.target sid ∈ st.localQubits node)) := by
    rw [State.tryApply, ← hcorr]
    exact List.drop_left
  rw [Delivery.follow]
  dsimp only
  rw [hdrop, tryApplyCorrection]
  by_cases hctrl : (st.sinks sid).haveCtrl = true
  · by_cases hQ : (st.sinks sid).haveQ = true
    · by_cases hfound : Label.target sid ∈ st.localQubits node
      · rw [if_pos (by rw [hctrl, hQ]; rfl), if_pos (decide_eq_true hfound),
          if_pos ⟨hctrl, hQ, hfound⟩, List.foldl_cons, List.foldl_nil]
        exact hgates _ _ rfl
      · rw [if_pos (by rw [hctrl, hQ]; rfl), if_neg (by simpa using hfound),
          if_neg fun h => hfound h.2.2, List.foldl_nil]
    · rw [if_neg (by simp [hQ]), if_neg fun h => hQ h.2.1, List.foldl_nil]
  · rw [if_neg (by simp [hctrl]), if_neg fun h => hctrl h.1, List.foldl_nil]

/-- A session that has not been corrected is corrected once its qubit and its packet
have been noticed. -/
theorem notice (st : State) (sid : SessionId) (node : NodeId) {p : StatePtr} {psi : Ket}
    (hcorr : st.corrections = d.net.corrections) (hw : d.registry.Inv)
    (hidle : d.registry.Idle p (.ket psi)) (htarget : d.target sid = some q)
    (hnone : st.correctionsOf sid = [])
    (hg : d.registry.Group .Ket {q} (pure (received α m1 m2) q))
    (hbits : (st.sinks sid).haveCtrl → (st.sinks sid).m1 = byteOf m1.toNat ∧
      (st.sinks sid).m2 = byteOf m2.toNat)
    (hlocal : (st.sinks sid).haveQ → .target sid ∈ st.localQubits node ∧
      d.registry.IsLocal node q) :
    d.registry.KeepsBut (d.follow (st.tryApply sid node) node).registry [q] ∧
      (d.follow (st.tryApply sid node) node).registry.Idle p (.ket psi) ∧
      (∀ x, (d.follow (st.tryApply sid node) node).registry.getLocation x =
        d.registry.getLocation x) ∧
      (((st.tryApply sid node).correctionsOf sid = [] ∧
          ¬ ((st.sinks sid).haveQ ∧ (st.sinks sid).haveCtrl) ∧
          (d.follow (st.tryApply sid node) node).registry.Group .Ket {q}
            (pure (received α m1 m2) q)) ∨
        ((st.sinks sid).haveQ ∧ (st.sinks sid).haveCtrl) ∧
          (d.follow (st.tryApply sid node) node).registry.Group .Ket {q} (pure α q)) := by
  rw [follow_registry hcorr htarget, correctionsOf_tryApply, if_pos rfl, hnone,
    List.nil_append]
  by_cases hboth : (st.sinks sid).haveQ ∧ (st.sinks sid).haveCtrl
  · obtain ⟨hfound, hthere⟩ := hlocal hboth.1
    obtain ⟨h1, h2⟩ := hbits hboth.2
    rw [if_pos ⟨hboth.2, hboth.1, hfound⟩]
    obtain ⟨hk, hloc⟩ := hw.applyCorrection_keepsBut node q
      ⟨sid, .target sid, (st.sinks sid).m2 ≠ 0, (st.sinks sid).m1 ≠ 0⟩
    refine ⟨hk, hidle.applyCorrection hw node q _, hloc, .inr ⟨hboth, ?_⟩⟩
    refine hw.applyCorrection_pure ?_ ?_ hthere hg
    · rw [h2]
      exact byteOf_ne m2
    · rw [h1]
      exact byteOf_ne m1
  · rw [if_neg fun h => hboth ⟨h.2.1, h.1⟩]
    refine ⟨hw.keepsBut _, hidle, fun _ => rfl, .inl ⟨?_, hboth, hg⟩⟩
    rw [tryApplyCorrection, if_neg]
    rw [Bool.and_eq_true]
    exact fun h => hboth ⟨h.2, h.1⟩

/-! ## Steps -/

/-- A session that is left alone is where it was. -/
theorem each_leaves (h : s.Fresh d ∨ ∃ q m1 m2, s.Going α w₀ d q m1 m2)
    (e : Leaves d d' s) : s.Fresh d' ∨ ∃ q m1 m2, s.Going α w₀ d' q m1 m2 := by
  rcases h with h | ⟨q, m1, m2, h⟩
  · exact .inl (h.leaves e)
  · exact .inr ⟨q, m1, m2, h.leaves e⟩

/-- The source of a session has measured and sent, which has left `w`. -/
def Delivery.launch (d : Delivery) (s : Session) (q : QubitPtr) (m1 m2 : Bool)
    (w : QStateRegistry) : Delivery where
  net := { d.net with
    started := s.sessionId :: d.net.started
    qubits := d.net.qubits ++ [(.target s.sessionId, s.dst)]
    packets := d.net.packets ++ [⟨s.dst, s.ctrlPort, byteOf m1.toNat, byteOf m2.toNat⟩]
    sent := Function.update d.net.sent s.sessionId
      (some (byteOf m1.toNat, byteOf m2.toNat)) }
  registry := w
  target := Function.update d.target s.sessionId (some q)

/-- Another session is left alone. -/
theorem leaves_launch (hw : d.registry.Inv) {w : QStateRegistry}
    (hk : d.registry.KeepsBut w []) {s' : Session} (hid : s'.sessionId ≠ s.sessionId)
    (hnode : s'.dst ≠ s.dst) : Leaves d (d.launch s q m1 m2 w) s' where
  started := List.mem_cons.trans (or_iff_right hid)
  target := Function.update_of_ne hid ..
  qubits := fun label => by
    refine List.mem_append.trans (or_iff_left fun hl => hnode ?_)
    exact congrArg Prod.snd (List.mem_singleton.mp hl)
  localQubits := rfl
  packets := fun pkt hp => by
    refine List.mem_append.trans (or_iff_left fun hl => hnode ?_)
    exact hp.symm.trans (congrArg CtrlPacket.node (List.mem_singleton.mp hl))
  sink := rfl
  corrections := rfl
  registry := fun x F hx => registry_leaves hw hk (fun _ _ => List.not_mem_nil) x F hx

section Steps

variable {p : StatePtr} {psi : Ket}

theorem Delivery.Inv.sinkStart (h : d.Inv sessions p psi w₀) (hs : s ∈ sessions) :
    Delivery.Inv sessions p psi w₀ { d with
      net := { d.net with
        recvCallback := Function.update d.net.recvCallback s.dst (some s.sessionId)
        listening := s.sessionId :: d.net.listening } } where
  registry := h.registry
  idle := h.idle
  keeps := h.keeps
  callbacks := fun node sid hc => by
    by_cases hnode : node = s.dst
    · subst hnode
      have hc' := (Function.update_self s.dst _ d.net.recvCallback).symm.trans hc
      exact ⟨s, hs, Option.some.inj hc', rfl⟩
    · exact h.callbacks node sid ((Function.update_of_ne hnode ..).symm.trans hc)
  qubits := h.qubits
  qubitsNodup := h.qubitsNodup
  packets := h.packets
  packetsNodup := h.packetsNodup
  each := fun s' hs' => each_leaves (h.each s' hs')
    ⟨Iff.rfl, rfl, fun _ => Iff.rfl, rfl, fun _ _ => Iff.rfl, rfl, rfl,
      fun _ _ _ hg => ⟨hg, rfl⟩⟩
  apart := h.apart

/-- A qubit of a session is a handle of the registry. -/
theorem Delivery.Inv.target_lt (h : d.Inv sessions p psi w₀) (hs : s ∈ sessions)
    (hq : d.target s.sessionId = some q) : q < d.registry.numHandles := by
  rcases h.each s hs with hf | ⟨q', m1, m2, hg⟩
  · exact absurd (hf.target.symm.trans hq) (by simp)
  · obtain rfl := Option.some.inj (hg.target.symm.trans hq)
    exact hg.lt h.registry

variable (hw₀ : w₀.Inv) (hids : (sessions.map Session.sessionId).Nodup)
  (hdst : (sessions.map Session.dst).Nodup)
include hids hdst in
/-- Two sessions share neither id nor sink. -/
theorem apart_of_dst {s s' : Session} (hs : s ∈ sessions) (hs' : s' ∈ sessions)
    (hne : s ≠ s') : s.sessionId ≠ s'.sessionId ∧ s.dst ≠ s'.dst :=
  ⟨fun h => hne (List.inj_on_of_nodup_map hids hs hs' h),
    fun h => hne (List.inj_on_of_nodup_map hdst hs hs' h)⟩

include hw₀ hids hdst in
/-- A source measures and sends. -/
theorem Delivery.Inv.sourceStart (h : d.Inv sessions p psi w₀) (hs : s ∈ sessions)
    (hnew : s.sessionId ∉ d.net.started) {w : QStateRegistry} {c : ChannelId}
    (hq : d.registry.numHandles ≤ q) (hk : d.registry.KeepsBut w [])
    (hidle : w.Idle p (.ket psi))
    (hg : w.Group .Ket {q} (pure (received (amplitude psi) m1 m2) q))
    (hloc : w.getLocation q = .channel c) :
    Delivery.Inv sessions p psi w₀ (d.launch s q m1 m2 w) := by
  have hfresh : s.Fresh d := by
    rcases h.each s hs with hf | ⟨_, _, _, hgo⟩
    · exact hf
    · exact absurd hgo.started hnew
  have hother : ∀ s' ∈ sessions, s' ≠ s → ∀ x,
      Function.update d.target s.sessionId (some q) s'.sessionId = some x →
      d.target s'.sessionId = some x ∧ x ≠ q := by
    intro s' hs' hne x hx
    obtain ⟨hid, -⟩ := apart_of_dst hids hdst hs' hs hne
    rw [Function.update_of_ne hid] at hx
    exact ⟨hx, ((h.target_lt hs' hx).trans_le hq).ne⟩
  refine { registry := hk.keeps.inv, idle := hidle
           keeps := h.keeps.trans hw₀ hk fun x hx => absurd hx List.not_mem_nil
           callbacks := h.callbacks, qubits := fun label node hl => ?_, qubitsNodup := ?_
           packets := fun pkt hp => ?_, packetsNodup := ?_, each := fun s' hs' => ?_
           apart := fun s₁ hs₁ s₂ hs₂ hne x hx₁ hx₂ => ?_ }
  · rcases List.mem_append.mp hl with hl | hl
    · exact h.qubits label node hl
    · obtain ⟨rfl, rfl⟩ := Prod.mk.inj (List.mem_singleton.mp hl)
      exact ⟨s, hs, rfl, rfl⟩
  · simp only [Delivery.launch, List.map_append]
    refine List.Nodup.append h.qubitsNodup (List.nodup_singleton _) ?_
    rw [List.map_singleton, List.disjoint_singleton]
    intro hmem
    obtain ⟨⟨label, node⟩, hl, rfl⟩ := List.mem_map.mp hmem
    exact hfresh.qubits label hl
  · rcases List.mem_append.mp hp with hp | hp
    · exact h.packets pkt hp
    · exact ⟨s, hs, congrArg CtrlPacket.node (List.mem_singleton.mp hp)⟩
  · simp only [Delivery.launch, List.map_append]
    refine List.Nodup.append h.packetsNodup (List.nodup_singleton _) ?_
    rw [List.map_singleton, List.disjoint_singleton]
    intro hmem
    obtain ⟨pkt, hp, he⟩ := List.mem_map.mp hmem
    exact hfresh.packets pkt hp he
  · by_cases hne : s' = s
    · subst hne
      refine .inr ⟨q, m1, m2, List.mem_cons_self, Function.update_self .., ?_, ?_,
        .inl ⟨List.mem_append_right _ (List.mem_singleton_self _), hfresh.haveQ,
          hfresh.localQubits⟩, .inl hfresh.haveCtrl, fun pkt hp hnode => ?_,
        .inl ⟨hfresh.corrections, fun hboth => ?_, hg⟩⟩
      · exact h.keeps.keeps.evolves.handles.trans hq
      · exact fun hlost => Location.noConfusion (hloc.symm.trans hlost)
      · rcases List.mem_append.mp hp with hp | hp
        · exact absurd hnode (hfresh.packets pkt hp)
        · rw [List.mem_singleton.mp hp]
          exact ⟨rfl, rfl⟩
      · exact Bool.false_ne_true (hfresh.haveQ.symm.trans hboth.1)
    · obtain ⟨hid, hnode⟩ := apart_of_dst hids hdst hs' hs hne
      exact each_leaves (h.each s' hs') (leaves_launch h.registry hk hid hnode)
  · have hown : (d.launch s q m1 m2 w).target s.sessionId = some q :=
      Function.update_self ..
    by_cases h₁ : s₁ = s
    · obtain rfl := Option.some.inj (hown.symm.trans (h₁ ▸ hx₁))
      exact (hother s₂ hs₂ (fun h₂ => hne (h₁.trans h₂.symm)) q hx₂).2 rfl
    · obtain ⟨hold₁, hxq⟩ := hother s₁ hs₁ h₁ x hx₁
      by_cases h₂ : s₂ = s
      · exact hxq (Option.some.inj (hown.symm.trans (h₂ ▸ hx₂))).symm
      · exact h.apart s₁ hs₁ s₂ hs₂ hne x hold₁ (hother s₂ hs₂ h₂ x hx₂).1

include hw₀ in
/-- Something arrives for a session. -/
theorem Delivery.Inv.arrived (h : d.Inv sessions p psi w₀) (s : Session)
    (q : QubitPtr) (m1 m2 : Bool)
    (hk : d.registry.KeepsBut d'.registry [q]) (hidle : d'.registry.Idle p (.ket psi))
    (hgoing : s.Going (amplitude psi) w₀ d' q m1 m2) (htarget : d'.target = d.target)
    (hcallback : d'.net.recvCallback = d.net.recvCallback)
    (hqubits : d'.net.qubits.Sublist d.net.qubits)
    (hpackets : d'.net.packets.Sublist d.net.packets)
    (hothers : ∀ s' ∈ sessions, s' ≠ s → Leaves d d' s') :
    d'.Inv sessions p psi w₀ where
  registry := hk.keeps.inv
  idle := hidle
  keeps := h.keeps.trans hw₀ hk fun x hx hlt =>
    absurd (List.mem_singleton.mp hx ▸ hlt) (not_lt.mpr hgoing.new)
  callbacks := fun node sid hc => h.callbacks node sid (hcallback ▸ hc)
  qubits := fun label node hl => h.qubits label node (hqubits.subset hl)
  qubitsNodup := h.qubitsNodup.sublist (hqubits.map _)
  packets := fun pkt hp => h.packets pkt (hpackets.subset hp)
  packetsNodup := h.packetsNodup.sublist (hpackets.map _)
  each := fun s' hs' => by
    by_cases hne : s' = s
    · exact .inr ⟨q, m1, m2, hne ▸ hgoing⟩
    · exact each_leaves (h.each s' hs') (hothers s' hs' hne)
  apart := htarget ▸ h.apart

/-- No correction, no change. -/
theorem follow_same {net : State} {node : NodeId}
    (hcorr : net.corrections = d.net.corrections) :
    (d.follow net node).registry = d.registry := by
  rw [Delivery.follow]
  dsimp only
  rw [hcorr, List.drop_length, List.foldl_nil]

include hw₀ hids hdst in
/-- A qubit arrives. -/
theorem Delivery.Inv.qubitArrival (h : d.Inv sessions p psi w₀) {k : ℕ} {label : Label}
    {node : NodeId} (hk : d.net.qubits[k]? = some (label, node)) :
    ((d.adopt node label).follow
      ({ d.net with qubits := d.net.qubits.eraseIdx k }.receive node label)
      node).Inv sessions p psi w₀ := by
  have hmem := List.mem_of_getElem? hk
  obtain ⟨s, hs, rfl, rfl⟩ := h.qubits label node hmem
  have habsent : ∀ label, (label, s.dst) ∉ d.net.qubits.eraseIdx k := fun label hl =>
    InFlight.ne_of_mem_eraseIdx h.qubitsNodup hk hl rfl
  rcases h.each s hs with hf | ⟨q, m1, m2, g⟩
  · exact absurd hmem (hf.qubits _)
  obtain ⟨-, hQ, -⟩ | ⟨hno, -⟩ := g.qubit
  swap
  · exact absurd hmem (hno _)
  obtain ⟨hnone, -, t, ht⟩ | ⟨⟨hQ', -⟩, -⟩ := g.holds
  swap
  · exact absurd (hQ.symm.trans hQ') Bool.false_ne_true
  have hlt := g.lt h.registry
  have hadopt : d.adopt s.dst (.target s.sessionId) =
      { d with registry := d.registry.setLocation q (.node s.dst) } := by
    rw [Delivery.adopt, Delivery.handleOf, g.target, Option.elim_some, adoptQubit,
      if_neg (not_le.mpr hlt), if_neg g.found, setLocationNode, if_neg g.found]
  rw [hadopt]
  have hka := setLocation_keepsBut h.registry hlt (.node s.dst)
  have hloc : (d.registry.setLocation q (.node s.dst)).getLocation q = .node s.dst :=
    getLocation_setLocation _ _
  have hgroup : (d.registry.setLocation q (.node s.dst)).Group .Ket {q}
      (pure (received (amplitude psi) m1 m2) q) :=
    ⟨t, ht.untouched (d.registry.untouched_setLocation q (.node s.dst) t)⟩
  have hbefore : d.registry.IdleBut p (.ket psi) [] := h.idle
  have hidle : (d.registry.setLocation q (.node s.dst)).Idle p (.ket psi) :=
    ⟨hbefore.backend, hbefore.lt, hbefore.value, hbefore.free⟩
  have hout : ∀ s' ∈ sessions, s' ≠ s → ∀ x, d.target s'.sessionId = some x →
      x ∉ [q] := fun s' hs' hne x hx hxq =>
    h.apart s' hs' s hs hne x hx (List.mem_singleton.mp hxq ▸ g.target)
  have hqubits : ∀ s' : Session, s'.dst ≠ s.dst → ∀ label,
      (label, s'.dst) ∈ d.net.qubits.eraseIdx k ↔ (label, s'.dst) ∈ d.net.qubits :=
    fun s' hnode label => InFlight.mem_eraseIdx_of_ne hk fun he =>
      hnode (congrArg Prod.snd he)
  have hplaced : Label.target s.sessionId ∈
      ({ d.net with qubits := d.net.qubits.eraseIdx k }.place s.dst
        (.target s.sessionId)).localQubits s.dst := mem_place.mpr (.inl ⟨rfl, rfl⟩)
  cases hc : d.net.recvCallback s.dst with
  | none =>
      simp only [State.receive, hc]
      set st : State := { d.net with qubits := d.net.qubits.eraseIdx k }.place s.dst
        (.target s.sessionId)
      have hsame : (Delivery.follow
          { d with registry := d.registry.setLocation q (.node s.dst) } st
            s.dst).registry = d.registry.setLocation q (.node s.dst) := follow_same rfl
      rw [← hsame] at hka hidle hloc hgroup
      refine h.arrived hw₀ s q m1 m2 hka hidle ?_ rfl rfl
        (List.eraseIdx_sublist _ k) (List.Sublist.refl _) fun s' hs' hne => ?_
      · refine ⟨g.started, g.target, g.new, ?_, .inr ⟨habsent, hplaced, hloc⟩, g.packet,
          g.bits, .inl ⟨hnone, fun hb => ?_, hgroup⟩⟩
        · rw [hloc]
          exact Location.noConfusion
        · exact Bool.false_ne_true (hQ.symm.trans hb.1)
      · obtain ⟨hid, hnode⟩ := apart_of_dst hids hdst hs' hs hne
        refine ⟨Iff.rfl, rfl, hqubits s' hnode, Function.update_of_ne hnode ..,
          fun _ _ => Iff.rfl, rfl, rfl, fun x F hx => ?_⟩
        exact registry_leaves h.registry hka (hout s' hs' hne) x F hx
  | some sid =>
      obtain ⟨s₁, hs₁, hid₁, hnode₁⟩ := h.callbacks _ _ hc
      obtain rfl : s₁ = s := List.inj_on_of_nodup_map hdst hs₁ hs hnode₁
      subst hid₁
      simp only [State.receive, hc]
      set st : State := (({ d.net with qubits := d.net.qubits.eraseIdx k }.place s₁.dst
        (.target s₁.sessionId)).setSink s₁.sessionId
          (qubitArrivalHandler (d.net.sinks s₁.sessionId))) with hst
      have hsink : st.sinks s₁.sessionId =
          qubitArrivalHandler (d.net.sinks s₁.sessionId) := Function.update_self ..
      have hbits : (d.net.sinks s₁.sessionId).haveCtrl →
          (d.net.sinks s₁.sessionId).m1 = byteOf m1.toNat ∧
            (d.net.sinks s₁.sessionId).m2 = byteOf m2.toNat := fun hctrl =>
        g.packet.elim (fun hno => absurd (hno.symm.trans hctrl) Bool.false_ne_true)
          And.right
      obtain ⟨hk', hidle', hloc', hholds⟩ := notice st s₁.sessionId s₁.dst
        (d := { d with registry := d.registry.setLocation q (.node s₁.dst) }) rfl
        hka.keeps.inv hidle g.target hnone hgroup (hsink ▸ hbits)
        fun _ => ⟨hplaced, hloc⟩
      have hall := hka.trans h.registry hk' fun x hx _ => hx
      refine h.arrived hw₀ s₁ q m1 m2 hall hidle' ?_ rfl rfl
        (List.eraseIdx_sublist _ k) (List.Sublist.refl _) fun s' hs' hne => ?_
      · refine ⟨g.started, g.target, g.new, ?_,
          .inr ⟨habsent, hplaced, (hloc' q).trans hloc⟩, ?_, g.bits, hholds⟩
        · rw [hloc', hloc]
          exact Location.noConfusion
        · have hpacket := g.packet
          rwa [show ((d.net.sinks s₁.sessionId).haveCtrl = false) =
            ((st.sinks s₁.sessionId).haveCtrl = false) by rw [hsink]; rfl,
            show (d.net.sinks s₁.sessionId).m1 = (st.sinks s₁.sessionId).m1 by
              rw [hsink]; rfl,
            show (d.net.sinks s₁.sessionId).m2 = (st.sinks s₁.sessionId).m2 by
              rw [hsink]; rfl] at hpacket
      · obtain ⟨hid, hnode⟩ := apart_of_dst hids hdst hs' hs hne
        refine ⟨Iff.rfl, rfl, hqubits s' hnode, Function.update_of_ne hnode ..,
          fun _ _ => Iff.rfl, Function.update_of_ne hid .., ?_, fun x F hx => ?_⟩
        · refine (correctionsOf_tryApply st _ _ _).trans ?_
          rw [if_neg hid, List.append_nil]
          rfl
        · exact registry_leaves h.registry hall (hout s' hs' hne) x F hx

include hw₀ hids hdst in
/-- A control packet arrives. -/
theorem Delivery.Inv.ctrlArrival (h : d.Inv sessions p psi w₀) {k : ℕ}
    {pkt : CtrlPacket} (hk : d.net.packets[k]? = some pkt)
    (hb : d.net.bound sessions pkt = some s) :
    (d.follow (({ d.net with packets := d.net.packets.eraseIdx k }.setSink s.sessionId
      (onCtrlRx (d.net.sinks s.sessionId) pkt.m1 pkt.m2)).tryApply s.sessionId s.dst)
      pkt.node).Inv sessions p psi w₀ := by
  have hs : s ∈ sessions := List.mem_of_find?_eq_some hb
  have hnode : pkt.node = s.dst := by
    rw [State.bound] at hb
    have hbound := List.find?_some hb
    rw [decide_eq_true_iff] at hbound
    exact hbound.1.symm
  have hmem := List.mem_of_getElem? hk
  have habsent : ∀ other ∈ d.net.packets.eraseIdx k, other.node ≠ s.dst :=
    fun other ho => hnode ▸ InFlight.ne_of_mem_eraseIdx h.packetsNodup hk ho
  rcases h.each s hs with hf | ⟨q, m1, m2, g⟩
  · exact absurd hnode (hf.packets pkt hmem)
  obtain hctrl | ⟨hno, -⟩ := g.packet
  swap
  · exact absurd hnode (hno pkt hmem)
  obtain ⟨hnone, -, hgroup⟩ | ⟨⟨-, hctrl'⟩, -⟩ := g.holds
  swap
  · exact absurd (hctrl.symm.trans hctrl') Bool.false_ne_true
  set st : State := ({ d.net with packets := d.net.packets.eraseIdx k }.setSink
    s.sessionId (onCtrlRx (d.net.sinks s.sessionId) pkt.m1 pkt.m2)) with hst
  have hsink : st.sinks s.sessionId =
      onCtrlRx (d.net.sinks s.sessionId) pkt.m1 pkt.m2 := Function.update_self ..
  have hbits := g.bits pkt hmem hnode
  have hthere : (d.net.sinks s.sessionId).haveQ →
      .target s.sessionId ∈ d.net.localQubits s.dst ∧ d.registry.IsLocal s.dst q :=
    fun hQ => g.qubit.elim
      (fun hno => absurd (hno.2.1.symm.trans hQ) Bool.false_ne_true) And.right
  rw [hnode]
  obtain ⟨hk', hidle', hloc', hholds⟩ := notice st s.sessionId s.dst (d := d) rfl h.registry
    h.idle g.target hnone hgroup (fun _ => hsink ▸ hbits) (hsink ▸ hthere)
  refine h.arrived hw₀ s q m1 m2 hk' hidle' ?_ rfl rfl (List.Sublist.refl _)
    (List.eraseIdx_sublist _ k) fun s' hs' hne => ?_
  · refine ⟨g.started, g.target, g.new, (hloc' q).symm ▸ g.found, ?_,
      .inr ⟨habsent, ?_⟩, fun other ho hn => absurd hn (habsent other ho), hholds⟩
    · have hqubit := g.qubit
      rw [show ((d.net.sinks s.sessionId).haveQ = false) =
        ((st.sinks s.sessionId).haveQ = false) by rw [hsink]; rfl] at hqubit
      exact hqubit.imp id fun hq => ⟨hq.1, hq.2.1, (hloc' q).trans hq.2.2⟩
    · exact (show (st.sinks s.sessionId).m1 = byteOf m1.toNat ∧
        (st.sinks s.sessionId).m2 = byteOf m2.toNat from hsink ▸ hbits)
  · obtain ⟨hid, hdiff⟩ := apart_of_dst hids hdst hs' hs hne
    refine ⟨Iff.rfl, rfl, fun _ => Iff.rfl, rfl, fun other ho => ?_,
      Function.update_of_ne hid .., ?_, fun x F hx => ?_⟩
    · refine InFlight.mem_eraseIdx_of_ne hk fun he => hdiff ?_
      exact ho.symm.trans ((congrArg CtrlPacket.node he).trans hnode)
    · refine (correctionsOf_tryApply st _ _ _).trans ?_
      rw [if_neg hid, List.append_nil]
      rfl
    · refine registry_leaves h.registry hk' (fun y hy hyq => ?_) x F hx
      exact h.apart s' hs' s hs hne y hy (List.mem_singleton.mp hyq ▸ g.target)

variable (hn : psi.n = 1) (hnorm : psi.norm2 = 1)

include hw₀ hids hdst hn hnorm in
/-- Whatever happens keeps the invariant. -/
theorem Delivery.Inv.step (h : d.Inv sessions p psi w₀) {e : Happening}
    (hstep : d.step sessions chan p e = some d') : d'.Inv sessions p psi w₀ := by
  cases e with
  | sourceStart s drawA drawB =>
      obtain ⟨m1, m2, w, q, hq, hok, hk, hidle, hg, hloc⟩ :=
        h.idle.doSourceStart h.registry hn hnorm s.src (chan s.src s.dst) drawA drawB
      simp only [Delivery.step, hok, State.step] at hstep
      split_ifs at hstep with hnew
      · rw [Option.map_some] at hstep
        obtain rfl := Option.some.inj hstep
        exact h.sourceStart hw₀ hids hdst hnew.1 hnew.2 hq hk hidle hg hloc
      · exact absurd hstep (by simp)
  | sinkStart s =>
      simp only [Delivery.step, State.step] at hstep
      split_ifs at hstep with hnew
      · rw [Option.map_some] at hstep
        obtain rfl := Option.some.inj hstep
        exact h.sinkStart hnew.1
      · exact absurd hstep (by simp)
  | qubitArrival k =>
      cases hk : d.net.qubits[k]? with
      | none => simp only [Delivery.step, hk, reduceCtorEq] at hstep
      | some arrival =>
          simp only [Delivery.step, State.step, hk, Option.map_some,
            Option.some.injEq] at hstep
          subst hstep
          exact h.qubitArrival hw₀ hids hdst hk
  | ctrlArrival k =>
      cases hk : d.net.packets[k]? with
      | none => simp only [Delivery.step, hk, reduceCtorEq] at hstep
      | some pkt =>
          cases hb : d.net.bound sessions pkt with
          | none => simp only [Delivery.step, State.step, hk, hb, Option.map_none,
              reduceCtorEq] at hstep
          | some s =>
              simp only [Delivery.step, State.step, hk, hb, Option.map_some,
                Option.some.injEq] at hstep
              subst hstep
              exact h.ctrlArrival hw₀ hids hdst hk hb

include hw₀ in
theorem delivery_init (hidle : w₀.Idle p (.ket psi)) :
    Delivery.Inv sessions p psi w₀ { registry := w₀ } where
  registry := hw₀
  idle := hidle
  keeps := hw₀.keepsBut []
  callbacks := fun _ _ hc => absurd hc (by simp)
  qubits := fun _ _ hl => absurd hl List.not_mem_nil
  qubitsNodup := List.nodup_nil
  packets := fun _ hp => absurd hp List.not_mem_nil
  packetsNodup := List.nodup_nil
  each := fun _ _ => .inl
    ⟨List.not_mem_nil, rfl, fun _ => List.not_mem_nil, List.not_mem_nil,
      fun _ hp => absurd hp List.not_mem_nil, rfl, rfl, rfl⟩
  apart := fun _ _ _ _ _ _ hx => absurd hx (by simp)

include hw₀ hids hdst hn hnorm in
theorem delivers_inv (hidle : w₀.Idle p (.ket psi))
    (h : Delivers sessions chan p w₀ d) : d.Inv sessions p psi w₀ := by
  induction h with
  | init => exact delivery_init hw₀ hidle
  | step _ hstep ih => exact ih.step hw₀ hids hdst hn hnorm hstep

/-! ## Delivery -/

include hids hdst hn hnorm in
/-- Once a session has been corrected, the qubit that its source has sent is at its
sink, alone in a registered state, which is the one that the source was given; the
handles that were there before hold what they held. -/
theorem teleportation_delivers (hreach : Reachable AdoptsFresh w₀)
    (hidle : w₀.Idle p (.ket psi))
    (h : Delivers sessions chan p w₀ d) (hs : s ∈ sessions)
    (hdone : d.net.correctionsOf s.sessionId ≠ []) :
    w₀.KeepsBut d.registry [] ∧
      ∃ q, w₀.numHandles ≤ q ∧ d.target s.sessionId = some q ∧
        d.registry.IsLocal s.dst q ∧
        d.registry.Group .Ket {q} (pure (amplitude psi) q) := by
  have hinv := delivers_inv (reachable_inv hreach) hids hdst hn hnorm hidle h
  refine ⟨hinv.keeps, ?_⟩
  rcases hinv.each s hs with hf | ⟨q, m1, m2, g⟩
  · exact absurd hf.corrections hdone
  obtain ⟨hnone, -, -⟩ | ⟨⟨hQ, -⟩, hgroup⟩ := g.holds
  · exact absurd hnone hdone
  obtain ⟨-, hno, -⟩ | ⟨-, -, hlocal⟩ := g.qubit
  · exact absurd (hno.symm.trans hQ) Bool.false_ne_true
  · exact ⟨q, g.new, g.target, hlocal, hgroup⟩

theorem step_sourceStart {net : State} {w : QStateRegistry} {drawA drawB : Bool} {b b' : ℤ}
    (hok : d.registry.doSourceStart s.src p (chan s.src s.dst) drawA drawB =
      (.ok (q, b, b'), w))
    (hnet : d.net.step sessions (.sourceStart s (byteOf b) (byteOf b')) = some net) :
    d.step sessions chan p (.sourceStart s drawA drawB) = some
      { net := net
        registry := w
        target := Function.update d.target s.sessionId (some q) } := by
  simp only [Delivery.step, hok]
  rw [hnet]
  rfl

/-- Arrivals at the apps are arrivals at the apps with their registry. -/
theorem Delivers.arrivals (h : Delivers sessions chan p w₀ d) {events : List Event}
    (hevents : ∀ e ∈ events, ∃ k, e = .qubitArrival k ∨ e = .ctrlArrival k) {st : State}
    (hst : events.foldlM (State.step sessions) d.net = some st) :
    ∃ d', Delivers sessions chan p w₀ d' ∧ d'.net = st := by
  induction events generalizing d with
  | nil => exact ⟨d, h, Option.some.inj hst⟩
  | cons e events ih =>
      rw [List.foldlM_cons, Option.bind_eq_bind, Option.bind_eq_some_iff] at hst
      obtain ⟨net, hnet, hst⟩ := hst
      have hrest := fun e he => hevents e (List.mem_cons_of_mem _ he)
      obtain ⟨k, rfl | rfl⟩ := hevents e List.mem_cons_self
      · cases hk : d.net.qubits[k]? with
        | none => simp only [State.step, hk, reduceCtorEq] at hnet
        | some arrival =>
            refine ih (h.step (e := .qubitArrival k) ?_) hrest (d := Delivery.follow
              (d.adopt arrival.2 arrival.1) net arrival.2) hst
            simp only [Delivery.step, hk]
            rw [hnet, Option.map_some]
      · cases hk : d.net.packets[k]? with
        | none => simp only [State.step, hk, reduceCtorEq] at hnet
        | some pkt =>
            refine ih (h.step (e := .ctrlArrival k) ?_) hrest (d := d.follow net pkt.node)
              hst
            simp only [Delivery.step, hk]
            rw [hnet, Option.map_some]

/-- Two sessions from one source. -/
def sharedSource : List Session := [⟨1, 0, 1, 7001⟩, ⟨2, 0, 2, 7002⟩]

/-- Both run: the qubit of the second arrives before its bits, that of the first after
them. -/
theorem teleportation_delivers_shared :
    ∃ (psi : Ket) (w₀ : QStateRegistry) (d : Delivery), psi.n = 1 ∧
      Delivers sharedSource (fun _ _ => 0) 0 w₀ d ∧ w₀.KeepsBut d.registry [] ∧
      ∀ s ∈ sharedSource, ∃ q, w₀.numHandles ≤ q ∧ d.target s.sessionId = some q ∧
        d.registry.IsLocal s.dst q ∧
        d.registry.Group .Ket {q} (pure (amplitude psi) q) := by
  obtain ⟨psi, -, hn, hnorm, -⟩ := mket_one true
  set w₀ : QStateRegistry := (QStateRegistry.empty.newObject (.ket psi)).2
  have hreach : Reachable AdoptsFresh w₀ := .single ⟨.newState (.ket psi), trivial, rfl⟩
  have hidle : w₀.Idle 0 (.ket psi) :=
    ⟨rfl, Nat.one_pos, rfl, fun _ hp => absurd hp (Option.some_ne_none _).symm⟩
  obtain ⟨m1, m2, w₁, q₁, -, hok₁, hk₁, hidle₁, -⟩ :=
    hidle.doSourceStart (reachable_inv hreach) hn hnorm 0 0 false false
  obtain ⟨m1', m2', w₂, q₂, -, hok₂, -⟩ :=
    hidle₁.doSourceStart hk₁.keeps.inv hn hnorm 0 0 true false
  let d₀ : Delivery :=
    { net :=
        { recvCallback := Function.update (Function.update (fun _ => none) 1 (some 1))
            2 (some 2)
          listening := [2, 1]
          started := [2, 1]
          qubits := [(.target 1, 1), (.target 2, 2)]
          packets := [⟨1, 7001, byteOf m1.toNat, byteOf m2.toNat⟩,
            ⟨2, 7002, byteOf m1'.toNat, byteOf m2'.toNat⟩]
          sent := Function.update (Function.update (fun _ => none) 1
            (some (byteOf m1.toNat, byteOf m2.toNat))) 2
            (some (byteOf m1'.toNat, byteOf m2'.toNat)) }
      registry := w₂
      target := Function.update (Function.update (fun _ => none) 1 (some q₁)) 2 (some q₂) }
  have hsinks : Delivers sharedSource (fun _ _ => 0) 0 w₀ _ :=
    .step (e := .sinkStart ⟨2, 0, 2, 7002⟩)
      (.step (e := .sinkStart ⟨1, 0, 1, 7001⟩) .init rfl) rfl
  have hone : Delivers sharedSource (fun _ _ => 0) 0 w₀ _ :=
    hsinks.step (step_sourceStart (s := ⟨1, 0, 1, 7001⟩) hok₁ rfl)
  have hstarted : Delivers sharedSource (fun _ _ => 0) 0 w₀ d₀ :=
    hone.step (step_sourceStart (s := ⟨2, 0, 2, 7002⟩) hok₂ rfl)
  have harrivals : ∀ e ∈ [Event.qubitArrival 1, .ctrlArrival 0, .qubitArrival 0,
      .ctrlArrival 0], ∃ k, e = .qubitArrival k ∨ e = .ctrlArrival k := by simp
  have hcount : ([Event.qubitArrival 1, .ctrlArrival 0, .qubitArrival 0,
      .ctrlArrival 0].foldlM (State.step sharedSource) d₀.net).map
        (fun st => ((st.correctionsOf 1).length, (st.correctionsOf 2).length)) =
      some (1, 1) := rfl
  obtain ⟨st, hst, hlength⟩ := Option.map_eq_some_iff.mp hcount
  obtain ⟨d, hrun, rfl⟩ := hstarted.arrivals harrivals hst
  obtain ⟨hcount₁, hcount₂⟩ := Prod.mk.inj hlength
  have hdelivered := fun s hs => teleportation_delivers (s := s) (by decide) (by decide) hn
    hnorm hreach hidle hrun hs
  obtain ⟨hkeeps, hfirst⟩ := hdelivered ⟨1, 0, 1, 7001⟩ List.mem_cons_self
    (List.length_pos_iff.mp (hcount₁ ▸ Nat.one_pos))
  obtain ⟨-, hsecond⟩ := hdelivered ⟨2, 0, 2, 7002⟩
    (List.mem_cons_of_mem _ List.mem_cons_self)
    (List.length_pos_iff.mp (hcount₂ ▸ Nat.one_pos))
  refine ⟨psi, w₀, d, hn, hrun, hkeeps, fun s hs => ?_⟩
  rcases List.mem_pair.mp hs with rfl | rfl
  · exact hfirst
  · exact hsecond

end Steps

end Q2NS.Teleport
