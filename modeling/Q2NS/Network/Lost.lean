import Q2NS.BellMeasurement
import Q2NS.Network.Code

/-!
# Lost qubits

The location `Lost` is final: nothing that runs later changes it, every call that
names the qubit is rejected, and no receive callback runs with it.
-/

namespace Q2NS

open QStateRegistry NamedTensor

variable {w w' : QStateRegistry} {q : QubitPtr}

/-- Between `w` and `w'` no handle is dropped and no lost qubit comes back. -/
structure Later (w w' : QStateRegistry) : Prop where
  registered : w'.Registered
  handles : w.numHandles ≤ w'.numHandles
  lost : ∀ x < w.numHandles, w.getLocation x = .lost → w'.getLocation x = .lost

theorem Later.refl (h : w.Registered) : Later w w := ⟨h, le_rfl, fun _ _ hx => hx⟩

theorem Later.trans {w'' : QStateRegistry} (h : Later w w') (h' : Later w' w'') :
    Later w w'' where
  registered := h'.registered
  handles := h.handles.trans h'.handles
  lost := fun x hx hl => h'.lost x (hx.trans_le h.handles) (h.lost x hx hl)

theorem andThen_later {α β : Type} {x : Except Exit α × QStateRegistry}
    {f : α → QStateRegistry → Except Exit β × QStateRegistry} (hx : Later w x.2)
    (hf : ∀ a (w' : QStateRegistry), Later w w' → Later w' (f a w').2) :
    Later w (andThen x f).2 := by
  obtain ⟨a, w'⟩ := x
  cases a with
  | error e => exact hx
  | ok a => exact hx.trans (hf a w' hx)

/-! ## Operations and maps -/

theorem exec_later (h : w.Registered) (op : Op) : Later w (w.exec op).2 where
  registered := (h.exec op).registered
  handles := (h.exec op).handles
  lost := fun _ hx hl => h.exec_lost op hx hl

theorem adoptQubit_later (h : w.Registered) (node : NodeId) (q : QubitPtr) :
    Later w (w.adoptQubit node q) := exec_later h (.adoptQubit node q)

theorem setLocationChannel_later (h : w.Registered) (hq : q < w.numHandles)
    (c : ChannelId) : Later w (w.setLocationChannel q c) := by
  have := exec_later h (.setLocationChannel q c)
  rwa [exec, onHandle, if_neg (not_le.mpr hq)] at this

theorem setLocationLost_later (h : w.Registered) (hq : q < w.numHandles) :
    Later w (w.setLocationLost q) := by
  have := exec_later h (.setLocationLost q)
  rwa [exec, onHandle, if_neg (not_le.mpr hq)] at this

theorem mergeStates_later (h : w.Registered) (qs : List QubitPtr) :
    Later w (w.mergeStates qs).2 := by
  have hm := (h.mergeStates qs).moves h
  exact ⟨hm.registered, hm.handles, fun x hx hl =>
    (hm.locations x hx List.not_mem_nil).trans hl⟩

theorem step_later (h : w.Registered) {op : Op} (hs : w.step op = some w') :
    Later w w' := by
  have hexec := exec_later h op
  rw [step] at hs
  split at hs
  · cases hs
  · next heq =>
    rw [heq] at hexec
    exact Option.some.inj hs ▸ hexec

theorem runOps_later (h : w.Registered) (ops : List Op) :
    Later w (runOps ops w).2 := by
  induction ops generalizing w with
  | nil => exact .refl h
  | cons op ops ih =>
      exact andThen_later (exec_later h op) fun _ w' hw' => ih hw'.registered

mutual

/-- A sampled map brings no lost qubit back. -/
theorem run_later (node : NodeId) : ∀ (inst : QMapInstance) {w : QStateRegistry},
    w.Registered → q < w.numHandles → Later w (inst.run node q w).2
  | .identity, _, h, _ => by
      rw [QMapInstance.run]
      exact .refl h
  | .applyGate gate, _, h, _ => by
      rw [QMapInstance.run]
      exact exec_later h (.apply node gate [q])
  | .setLost, _, h, hq => by
      rw [QMapInstance.run]
      exact setLocationLost_later h hq
  | .conditional pred map, w, h, hq => by
      rw [QMapInstance.run]
      split_ifs
      · exact run_later node map h hq
      · exact .refl h
  | .composite steps, _, h, hq => by
      rw [QMapInstance.run]
      exact runSteps_later node steps h hq
  | .user ops, _, h, _ => by
      rw [QMapInstance.run]
      exact runOps_later h ops

theorem runSteps_later (node : NodeId) :
    ∀ (steps : List QMapInstance) {w : QStateRegistry},
      w.Registered → q < w.numHandles → Later w (runSteps node q steps w).2
  | [], _, h, _ => by
      rw [runSteps]
      exact .refl h
  | step :: steps, _, h, hq => by
      rw [runSteps]
      refine andThen_later (run_later node step h hq) fun _ w' hw' => ?_
      split_ifs
      · exact .refl hw'.registered
      · exact runSteps_later node steps hw'.registered (hq.trans_le hw'.handles)

end

/-! ## The network -/

namespace Network

variable {net net' : Network}

/-- Only the wiring may differ. -/
structure SameTraffic (net net' : Network) : Prop where
  registry : net'.registry = net.registry
  events : net'.events = net.events
  sent : net'.sent = net.sent
  delivered : net'.delivered = net.delivered
  called : net'.called = net.called

theorem SameTraffic.refl (net : Network) : SameTraffic net net :=
  ⟨rfl, rfl, rfl, rfl, rfl⟩

theorem SameTraffic.trans {net'' : Network} (h : SameTraffic net net')
    (h' : SameTraffic net' net'') : SameTraffic net net'' :=
  ⟨h'.registry.trans h.registry, h'.events.trans h.events, h'.sent.trans h.sent,
    h'.delivered.trans h.delivered, h'.called.trans h.called⟩

theorem sameTraffic_installQuantumLink (a b : Option NodeId) :
    SameTraffic net (net.installQuantumLink a b) := by
  rw [installQuantumLink.eq_def]
  split
  · dsimp only
    split
    · exact .refl net
    · exact ⟨rfl, rfl, rfl, rfl, rfl⟩
  · exact .refl net

theorem sameTraffic_installUnlessSkipped (a b : Option NodeId) :
    SameTraffic net (net.installUnlessSkipped a b) := by
  rw [installUnlessSkipped]
  split_ifs
  · exact .refl net
  · exact .refl net
  · exact sameTraffic_installQuantumLink a b

theorem sameTraffic_installQuantumChain (nodes : List (Option NodeId)) :
    SameTraffic net (installQuantumChain nodes net) := by
  fun_induction installQuantumChain nodes net with
  | case1 a b nodes net ih => exact (sameTraffic_installUnlessSkipped a b).trans ih
  | case2 => exact .refl _

theorem sameTraffic_installQuantumAllToAll (nodes : List (Option NodeId)) :
    SameTraffic net (installQuantumAllToAll nodes net) := by
  have hrow : ∀ (a : Option NodeId) (nodes : List (Option NodeId)) (net : Network),
      SameTraffic net (nodes.foldl (fun net b => net.installUnlessSkipped a b) net) := by
    intro a nodes
    induction nodes with
    | nil => exact fun net => .refl net
    | cons b nodes ih =>
        exact fun net => (sameTraffic_installUnlessSkipped a b).trans (ih _)
  induction nodes generalizing net with
  | nil => exact .refl net
  | cons a nodes ih => exact (hrow a nodes net).trans ih

/-- What `sendFrom` does: it is rejected, or it schedules one arrival. -/
theorem sendFrom_cases (net : Network) (chan : ChannelId) (src : DevPtr) (q : QubitPtr)
    (sample : Option QMap → QMapInstance) :
    net.sendFrom chan src q sample = (false, net) ∨
      ∃ dst qmap, (net.channels chan).otherEnd src = some (dst, qmap) ∧
        net.sendFrom chan src q sample = (true, { net with
          events := net.events ++
            [Arrival.mk net.sent.length dst q (sample qmap)] }) := by
  rw [sendFrom]
  split_ifs
  · exact .inl rfl
  · exact .inl rfl
  · split
    · exact .inl rfl
    · next dst qmap h => exact .inr ⟨dst, qmap, h, rfl⟩

/-- What `Send` leaves of the registry and the calls. -/
theorem send_later (h : net.registry.Registered) (node : NodeId) (q : QubitPtr)
    (dstNode : NodeId) (sample : Option QMap → QMapInstance) :
    Later net.registry (net.send node q dstNode sample).2.registry ∧
      (net.send node q dstNode sample).2.called = net.called := by
  rw [send]
  split_ifs with hnull
  · exact ⟨.refl h, rfl⟩
  · exact ⟨.refl h, rfl⟩
  · split
    · exact ⟨.refl h, rfl⟩
    split
    · exact ⟨.refl h, rfl⟩
    next dev _ =>
    split
    · exact ⟨.refl h, rfl⟩
    next chan _ =>
    have hset := setLocationChannel_later h (not_le.mp hnull) chan
    dsimp only
    rcases sendFrom_cases { net with
      registry := net.registry.setLocationChannel q chan } chan dev q sample with
      hs | ⟨dst, qmap, -, hs⟩
    · rw [hs]
      exact ⟨hset, rfl⟩
    · rw [hs]
      exact ⟨hset, rfl⟩
  · exact ⟨.refl h, rfl⟩

/-- A receive callback runs with a handle only when the qubit is not lost after
the map. -/
theorem receiveFromDevice_later (h : net.registry.Registered) (node : NodeId)
    (hq : q < net.registry.numHandles) (map : QMapInstance) :
    Later net.registry (net.receiveFromDevice node q map).2 ∧
      ∀ cb, (net.receiveFromDevice node q map).1 = .ok (some cb) →
        (net.receiveFromDevice node q map).2.getLocation q ≠ .lost := by
  have hadopt := adoptQubit_later h node q
  have hrun := hadopt.trans
    (run_later node map hadopt.registered (hq.trans_le hadopt.handles))
  rw [receiveFromDevice]
  cases hres : map.run node q (net.registry.adoptQubit node q) with
  | mk res w =>
      rw [hres] at hrun
      cases res with
      | error e => exact ⟨hrun, fun cb hcb => (nomatch hcb)⟩
      | ok _ =>
          refine ⟨hrun, fun cb hcb hl => ?_⟩
          rw [andThen] at hcb hl
          dsimp only at hcb hl
          rw [if_pos hl] at hcb
          cases Except.ok.inj hcb

/-- The registry is sound and the arrivals carry handles that exist. -/
structure Sound (net : Network) : Prop where
  registered : net.registry.Registered
  carried : ∀ e ∈ net.events, e.q < net.registry.numHandles

theorem sound_init : Sound {} :=
  ⟨empty_registered, fun _ he => absurd he List.not_mem_nil⟩

/-- What one step does: no lost qubit comes back, and a callback that runs gets a
qubit that is not lost. -/
structure Forward (net net' : Network) : Prop where
  sound : net'.Sound
  later : Later net.registry net'.registry
  called : net'.called = net.called ∨ ∃ cb q, net'.called = net.called ++ [(cb, q)] ∧
    q < net.registry.numHandles ∧ net'.registry.getLocation q ≠ .lost

/-- A step that changes neither the registry nor the events nor the calls. -/
theorem Sound.forward_of_eq (h : net.Sound) (hr : net'.registry = net.registry)
    (he : net'.events = net.events) (hc : net'.called = net.called) :
    Forward net net' where
  sound := ⟨hr ▸ h.registered, by rw [he, hr]; exact h.carried⟩
  later := by rw [hr]; exact .refl h.registered
  called := .inl hc

/-- A step of the registry alone. -/
theorem Sound.forward_of_later (h : net.Sound)
    {w : QStateRegistry} (hw : Later net.registry w) :
    Forward net { net with registry := w } where
  sound := ⟨hw.registered, fun e he => (h.carried e he).trans_le hw.handles⟩
  later := hw
  called := .inl rfl

theorem SameTraffic.forward (hsame : SameTraffic net net') (h : net.Sound) :
    Forward net net' := h.forward_of_eq hsame.registry hsame.events hsame.called

theorem Sound.send (h : net.Sound) (node : NodeId) (q : QubitPtr) (dstNode : NodeId)
    (sample : Option QMap → QMapInstance) :
    Forward net (net.send node q dstNode sample).2 := by
  obtain ⟨hlater, hcalled⟩ := send_later h.registered node q dstNode sample
  refine ⟨⟨hlater.registered, fun e he => ?_⟩, hlater, .inl hcalled⟩
  have hevent : e ∈ net.events ∨ e.q = q ∧ q < net.registry.numHandles := by
    rw [Network.send] at he
    split_ifs at he with hnull
    · exact .inl he
    · exact .inl he
    · split at he
      · exact .inl he
      split at he
      · exact .inl he
      next dev _ =>
      split at he
      · exact .inl he
      next chan _ =>
      dsimp only at he
      rcases sendFrom_cases { net with
        registry := net.registry.setLocationChannel q chan } chan dev q sample with
        hs | ⟨dst, qmap, -, hs⟩
      · rw [hs] at he
        exact .inl he
      · rw [hs] at he
        rcases List.mem_append.mp he with he | he
        · exact .inl he
        · rw [List.mem_singleton.mp he]
          exact .inr ⟨rfl, not_le.mp hnull⟩
    · exact .inl he
  rcases hevent with he | ⟨he, hq⟩
  · exact (h.carried e he).trans_le hlater.handles
  · exact he ▸ hq.trans_le hlater.handles

theorem Sound.deliver (h : net.Sound) {k : ℕ} (hs : net.deliver k = some net') :
    Forward net net' := by
  rw [Network.deliver] at hs
  split at hs
  · cases hs
  next e he =>
  have hq := h.carried e (List.mem_of_getElem? he)
  split at hs
  · cases hs
  next node _ =>
  obtain ⟨hlater, hcall⟩ := receiveFromDevice_later h.registered node hq e.map
  have hcarried : ∀ e' ∈ net.events.eraseIdx k, ∀ {w : QStateRegistry},
      Later net.registry w → e'.q < w.numHandles := fun e' he' w hw =>
    (h.carried e' (List.mem_of_mem_eraseIdx he')).trans_le hw.handles
  dsimp only at hs
  split at hs
  · cases hs
  · next heq =>
    rw [heq] at hlater
    rw [← Option.some.inj hs]
    exact ⟨⟨hlater.registered, fun e' he' => hcarried e' he' hlater⟩, hlater, .inl rfl⟩
  · next heq =>
    rw [heq] at hlater
    rw [← Option.some.inj hs]
    exact ⟨⟨hlater.registered, fun e' he' => hcarried e' he' hlater⟩, hlater, .inl rfl⟩
  · next cb w heq =>
    rw [heq] at hlater hcall
    rw [← Option.some.inj hs]
    exact ⟨⟨hlater.registered, fun e' he' => hcarried e' he' hlater⟩, hlater,
      .inr ⟨cb, e.q, rfl, hq, hcall cb rfl⟩⟩

/-- Every step goes forward. -/
theorem Sound.act (h : net.Sound) {a : Action} (hs : net.act a = some net') :
    Forward net net' := by
  cases a with
  | installQuantumLink a b =>
      rw [← Option.some.inj hs]
      exact (sameTraffic_installQuantumLink a b).forward h
  | installQuantumChain nodes =>
      rw [← Option.some.inj hs]
      exact (sameTraffic_installQuantumChain nodes).forward h
  | installQuantumAllToAll nodes =>
      rw [← Option.some.inj hs]
      exact (sameTraffic_installQuantumAllToAll nodes).forward h
  | setQMaps chan ab ba =>
      rw [← Option.some.inj hs]
      exact h.forward_of_eq rfl rfl rfl
  | setRecvCallback node cb =>
      rw [← Option.some.inj hs]
      exact h.forward_of_eq rfl rfl rfl
  | registry op =>
      obtain ⟨w, hw, rfl⟩ := Option.map_eq_some_iff.mp hs
      exact h.forward_of_later (step_later h.registered hw)
  | mergeStates qs =>
      have hm := mergeStates_later h.registered qs
      rw [Network.act] at hs
      split at hs
      · cases hs
      · next heq =>
        rw [heq] at hm
        rw [← Option.some.inj hs]
        exact h.forward_of_later hm
  | send node q dstNode sample =>
      rw [← Option.some.inj hs]
      exact h.send node q dstNode sample
  | deliver k => exact h.deliver hs

/-! ## Runs -/

/-- No call that names a lost qubit does anything. -/
structure Inert (net : Network) (q : QubitPtr) : Prop where
  send : ∀ node dstNode sample, net.send node q dstNode sample = (false, net)
  apply : ∀ node gate qs, q ∈ qs →
    net.registry.apply node gate qs = (.ok false, net.registry)
  measure : ∀ node basis draw,
    net.registry.measure node q basis draw = (.ok (-1), net.registry)
  measureBell : ∀ node b drawA drawB,
    net.registry.measureBell node q b drawA drawB = (.ok (-1, -1), net.registry) ∧
      net.registry.measureBell node b q drawA drawB = (.ok (-1, -1), net.registry)

theorem inert_of_not_local (hq : q < net.registry.numHandles)
    (hnot : ∀ node, ¬ net.registry.IsLocal node q) : net.Inert q where
  send := fun node dstNode sample => by
    rw [Network.send, if_neg (not_le.mpr hq)]
    split_ifs with hlost hlocal
    · rfl
    · exact absurd hlocal (hnot node)
    · rfl
  apply := fun node gate qs hmem => by
    rw [QStateRegistry.apply, if_neg (List.ne_nil_of_mem hmem),
      if_pos ⟨q, hmem, .inr (hnot node)⟩]
  measure := fun node basis draw => by
    rw [QStateRegistry.measure, if_neg (not_le.mpr hq), if_pos (hnot node)]
  measureBell := fun node b drawA drawB => by
    rw [QStateRegistry.measureBell, QStateRegistry.measureBell]
    constructor
    · split_ifs with _ _ _ hlocal
      · rfl
      · rfl
      · rfl
      · rfl
      · exact absurd (.inl (hnot node)) hlocal
    · split_ifs with _ _ _ hlocal
      · rfl
      · rfl
      · rfl
      · rfl
      · exact absurd (.inr (hnot node)) hlocal

theorem inert_of_lost (hq : q < net.registry.numHandles)
    (hlost : net.registry.getLocation q = .lost) : net.Inert q :=
  inert_of_not_local hq fun _ h => nomatch hlost.symm.trans h

/-- Two nodes with a link and a receive callback at the second, over a registry. -/
def twoNodesOver (w : QStateRegistry) : Network :=
  let net := ({} : Network).installQuantumLink (some 0) (some 1)
  { net with
    registry := w
    networkers := Function.update net.networkers 1
      { net.networkers 1 with recvCallback := some 7 } }

/-- A run of the registry is one of the network over it. -/
theorem twoNodesOver_run {P : QStateRegistry → Op → Prop}
    (h : QStateRegistry.Run P .empty w) :
    Run (fun _ _ => True) {} (twoNodesOver w) := by
  induction h with
  | refl =>
      exact (Relation.ReflTransGen.single
        ⟨.installQuantumLink (some 0) (some 1), trivial, rfl⟩).tail
        ⟨.setRecvCallback 1 7, trivial, rfl⟩
  | tail _ hs ih =>
      obtain ⟨op, -, hs⟩ := hs
      exact ih.tail ⟨.registry op, trivial, congrArg (Option.map twoNodesOver) hs⟩

theorem twoNodesOver_send (hq : 0 < w.numHandles) (hlocal : w.getLocation 0 = .node 0)
    (sample : Option QMap → QMapInstance) : ((twoNodesOver w).send 0 0 1 sample).2 =
      { twoNodesOver (w.setLocation 0 (.channel 0)) with
        events := [⟨0, 1, 0, sample none⟩]
        sent := [⟨0, 0, 1⟩] } := by
  have hne : w.getLocation 0 ≠ .lost := fun h =>
    Location.noConfusion (hlocal.symm.trans h)
  have hfly : (w.setLocation 0 (.channel 0)).getLocation 0 ≠ .lost := fun h =>
    Location.noConfusion ((getLocation_setLocation 0 (.channel 0)).symm.trans h)
  have hset : (twoNodesOver w).registry.setLocationChannel 0 0 =
    w.setLocation 0 (.channel 0) := if_neg hne
  have hfrom : Network.sendFrom { twoNodesOver w with
      registry := (twoNodesOver w).registry.setLocationChannel 0 0 } 0 0 0 sample =
      (true, { twoNodesOver (w.setLocation 0 (.channel 0)) with
        events := [⟨0, 1, 0, sample none⟩] }) := by
    have hnull : ¬ (w.setLocation 0 (.channel 0)).numHandles ≤ 0 := not_le.mpr hq
    rw [hset]
    generalize w.setLocation 0 (.channel 0) = flying at hfly hnull
    rw [sendFrom, if_neg hnull, if_neg hfly]
    rfl
  have hroute : ((twoNodesOver w).networkers 0).hostRoutes 1 = some 0 := rfl
  have hiface : ((twoNodesOver w).networkers 0).ifaces[0]? = some 0 := rfl
  have hchannel : ((twoNodesOver w).devices 0).channel = some 0 := rfl
  rw [Network.send,
    if_neg (show ¬ (twoNodesOver w).registry.numHandles ≤ 0 from not_le.mpr hq),
    if_neg (show (twoNodesOver w).registry.getLocation 0 ≠ .lost from hne),
    if_neg (show ¬ ¬ (twoNodesOver w).registry.IsLocal 0 0 from not_not.mpr hlocal), hroute]
  dsimp only
  rw [hiface]
  dsimp only
  rw [hchannel]
  dsimp only at hfrom ⊢
  rw [hfrom]
  rfl

/-- A lost qubit that arrives is not handed to the receive callback. -/
theorem deliver_lost {net : Network} (hevents : net.events = [⟨0, 1, 0, .identity⟩])
    (hnode : (net.devices 1).networker = some 1)
    (hlost : net.registry.getLocation 0 = .lost) :
    net.deliver 0 = some { net with
      events := []
      delivered := net.delivered ++ [⟨0, 1, 0⟩] } := by
  have hadopt : net.registry.adoptQubit 1 0 = net.registry := by
    rw [adoptQubit, if_pos hlost, ite_self]
  have hreceive : net.receiveFromDevice 1 0 .identity = (.ok none, net.registry) := by
    rw [receiveFromDevice, QMapInstance.run, hadopt, andThen, if_pos hlost]
  rw [deliver, hevents]
  dsimp only [List.getElem?_cons_zero]
  rw [hnode]
  dsimp only
  rw [hreceive]
  rfl

/-- A lost qubit stays lost over every run, every call that names it is rejected
without effect, and no receive callback runs with it. -/
theorem lost_stays_lost (hreach : Run (fun _ _ => True) {} net)
    (hq : q < net.registry.numHandles) (hlost : net.registry.getLocation q = .lost)
    (hrun : Run (fun _ _ => True) net net') :
    net'.registry.getLocation q = .lost ∧ net'.Inert q ∧
      ∃ calls, net'.called = net.called ++ calls ∧ ∀ c ∈ calls, c.2 ≠ q := by
  have hsound : net.Sound := hreach.invariant
    (fun _ _ _ h _ hs => (Sound.act h hs).sound) sound_init
  have hinv := hrun.invariant (I := fun net' => net'.Sound ∧
      Later net.registry net'.registry ∧
        ∃ calls, net'.called = net.called ++ calls ∧ ∀ c ∈ calls, c.2 ≠ q)
    (fun mid a last ⟨hs, hlater, calls, heq, hcalls⟩ _ hstep => by
      have hfwd := hs.act hstep
      have hl := hlater.trans hfwd.later
      refine ⟨hfwd.sound, hl, ?_⟩
      rcases hfwd.called with hsame | ⟨cb, x, hnew, -, hx⟩
      · exact ⟨calls, hsame.trans heq, hcalls⟩
      · refine ⟨calls ++ [(cb, x)], by rw [hnew, heq, List.append_assoc], fun c hc => ?_⟩
        rcases List.mem_append.mp hc with hc | hc
        · exact hcalls c hc
        · rw [List.mem_singleton.mp hc]
          intro he
          rw [show x = q from he] at hx
          exact hx (hl.lost q hq hlost))
    ⟨hsound, .refl hsound.registered, [], (List.append_nil _).symm, fun c hc =>
      absurd hc List.not_mem_nil⟩
  obtain ⟨-, hlater, hcalls⟩ := hinv
  have hlost' := hlater.lost q hq hlost
  exact ⟨hlost', inert_of_lost (hq.trans_le hlater.handles) hlost', hcalls⟩

/-- Half of a Bell pair is marked lost in flight; then the other half is measured, and
the lost one arrives. -/
theorem lost_stays_lost_one : ∃ (w : QStateRegistry) (net net' : Network),
    globalOf QState.kernel w = density (fun x => bell true false (x 0) (x 1)) ∧
      Run (fun _ _ => True) {} net ∧
      net.registry = (w.setLocation 0 (.channel 0)).setLocation 0 .lost ∧
      net.events = [⟨0, 1, 0, .identity⟩] ∧ (net.networkers 1).recvCallback = some 7 ∧
      Run (fun _ _ => True) net net' ∧ net'.delivered = [⟨0, 1, 0⟩] ∧
      net'.registry.getLocation 0 = .lost ∧ net'.Inert 0 ∧
      ∃ calls, net'.called = net.called ++ calls ∧ ∀ c ∈ calls, c.2 ≠ 0 := by
  obtain ⟨w, hreach, hlocal, -, hbell⟩ := reachable_bell
  obtain ⟨hinv, hall⟩ := reachable_sound hreach
  obtain ⟨hq₀, hlocal₀⟩ := hlocal 0 List.mem_cons_self
  obtain ⟨hq₁, hlocal₁⟩ := hlocal 1 (List.mem_cons_of_mem _ List.mem_cons_self)
  have hstart := twoNodesOver_run hreach
  have hreg : w.Registered := (hstart.invariant
    (fun _ _ _ h _ hs => (Sound.act h hs).sound) sound_init).registered
  -- the registry with the qubit in flight, and lost there
  have hmoves := hreg.setLocation hq₀ (.channel 0)
  have hmoves' := hmoves.registered.setLocation (hq₀.trans_le hmoves.handles) .lost
  set flying := w.setLocation 0 (.channel 0)
  set lost := flying.setLocation 0 .lost
  have hinv' : lost.Inv := (hinv.setLocation hq₀ _).setLocation hq₀ _
  have hall' : lost.AllSound .Ket := hall
  have hwhere : lost.IsLocal 0 1 :=
    (hmoves'.locations 1 hq₁ (by decide)).trans
      ((hmoves.locations 1 hq₁ (by decide)).trans hlocal₁)
  obtain ⟨o, w', hmeasure⟩ := hinv'.measure_succeeds hq₁ hwhere
    (hall'.valueOf (hinv'.states_of_handle hq₁)).1 .Z true
  have hmark : flying.step (.setLocationLost 0) = some lost := by
    rw [step, exec, onHandle, if_neg (show ¬ flying.numHandles ≤ 0 from not_le.mpr hq₀)]
    rfl
  have hstep : lost.step (.measure 0 1 .Z true) = some w' := by
    rw [step, exec, hmeasure]
    rfl
  let inFlight (w : QStateRegistry) : Network := { twoNodesOver w with
    events := [⟨0, 1, 0, .identity⟩]
    sent := [⟨0, 0, 1⟩] }
  have hrun : Run (fun _ _ => True) {} (inFlight lost) :=
    (hstart.tail ⟨.send 0 0 1 fun _ => .identity, trivial,
      congrArg some (twoNodesOver_send hq₀ hlocal₀ _)⟩).tail
      ⟨.registry (.setLocationLost 0), trivial, congrArg (Option.map inFlight) hmark⟩
  have hmeasured : Run (fun _ _ => True) (inFlight lost) (inFlight w') :=
    .single ⟨.registry (.measure 0 1 .Z true), trivial, congrArg (Option.map inFlight) hstep⟩
  have hgone : (inFlight lost).registry.getLocation 0 = .lost := getLocation_setLocation _ _
  have hstill := (lost_stays_lost hrun hq₀ hgone hmeasured).1
  have hdelivered := hmeasured.tail
    ⟨.deliver 0, trivial, deliver_lost rfl rfl hstill⟩
  exact ⟨w, _, _, hbell, hrun, rfl, rfl, rfl, hdelivered, rfl,
    lost_stays_lost hrun hq₀ hgone hdelivered⟩

end Network

end Q2NS
