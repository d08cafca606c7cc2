import Q2NS.Network.Lost
import Q2NS.Registry.Assigner

/-!
# The calls of the assigner in a network

An action of the network registers states through the registry alone: through a call of
a program, or through the map of a qubit that arrives.
-/

namespace Q2NS

open QStateRegistry

/-- `runOps`, with the calls of the assigner. -/
noncomputable def runOpsAssigned :
    List Op → QStateRegistry → (Except Exit Unit × QStateRegistry) × List StateId
  | [], w => silent (.ok (), w)
  | op :: ops, w => andThenAssigned (w.execAssigned op) fun _ w => runOpsAssigned ops w

mutual

/-- A sampled map on a qubit at the receiver, with the calls of the assigner. -/
noncomputable def QMapInstance.runAssigned (node : NodeId) (q : QubitPtr) :
    QMapInstance → QStateRegistry → (Except Exit Unit × QStateRegistry) × List StateId
  | .identity, w => silent (.ok (), w)
  | .applyGate gate, w => endingAssigned (w.applyAssigned node gate [q])
  | .setLost, w => silent (.ok (), w.setLocationLost q)
  | .composite steps, w => runStepsAssigned node q steps w
  | .conditional pred map, w =>
      if pred w q then map.runAssigned node q w else silent (.ok (), w)
  | .user ops, w => runOpsAssigned ops w

/-- The stages of a composite map, with the calls of the assigner. -/
noncomputable def runStepsAssigned (node : NodeId) (q : QubitPtr) :
    List QMapInstance → QStateRegistry →
      (Except Exit Unit × QStateRegistry) × List StateId
  | [], w => silent (.ok (), w)
  | step :: steps, w => andThenAssigned (step.runAssigned node q w) fun _ w =>
      if w.getLocation q = .lost then silent (.ok (), w) else runStepsAssigned node q steps w

end

theorem runOps_logs (ops : List Op) (w : QStateRegistry) :
    w.Logs (runOps ops w) (runOpsAssigned ops w) := by
  induction ops generalizing w with
  | nil => exact Quiet.logs (y := (Except.ok (), w)) (.refl w)
  | cons op ops ih => exact (w.exec_logs op).andThen fun _ w' => ih w'

mutual

theorem run_logs (node : NodeId) (q : QubitPtr) :
    ∀ (inst : QMapInstance) (w : QStateRegistry),
      w.Logs (inst.run node q w) (inst.runAssigned node q w)
  | .identity, w => by
      rw [QMapInstance.run, QMapInstance.runAssigned]
      exact (Quiet.refl w).logs
  | .applyGate gate, w => by
      rw [QMapInstance.run, QMapInstance.runAssigned]
      exact (w.apply_logs node gate [q]).ending
  | .setLost, w => by
      rw [QMapInstance.run, QMapInstance.runAssigned]
      exact (w.setLocation_quiet q .lost).logs
  | .conditional pred map, w => by
      rw [QMapInstance.run, QMapInstance.runAssigned]
      split_ifs
      · exact run_logs node q map w
      · exact (Quiet.refl w).logs
  | .composite steps, w => by
      rw [QMapInstance.run, QMapInstance.runAssigned]
      exact runSteps_logs node q steps w
  | .user ops, w => by
      rw [QMapInstance.run, QMapInstance.runAssigned]
      exact runOps_logs ops w

theorem runSteps_logs (node : NodeId) (q : QubitPtr) :
    ∀ (steps : List QMapInstance) (w : QStateRegistry),
      w.Logs (runSteps node q steps w) (runStepsAssigned node q steps w)
  | [], w => by
      rw [runSteps, runStepsAssigned]
      exact (Quiet.refl w).logs
  | step :: steps, w => by
      rw [runSteps, runStepsAssigned]
      refine (run_logs node q step w).andThen fun _ w' => ?_
      split_ifs
      · exact (Quiet.refl w').logs
      · exact runSteps_logs node q steps w'

end

namespace Network

variable {net net' : Network}

/-! ## Actions -/

/-- `QNetworker::ReceiveFromDevice`, with the calls of the assigner. -/
noncomputable def receiveFromDeviceAssigned (net : Network) (node : NodeId) (q : QubitPtr)
    (map : QMapInstance) :
    (Except Exit (Option CallbackId) × QStateRegistry) × List StateId :=
  andThenAssigned (map.runAssigned node q (net.registry.adoptQubit node q)) fun _ w =>
    silent (.ok (if w.getLocation q = .lost then none
      else (net.networkers node).recvCallback), w)

/-- One scheduled arrival, with the calls of the assigner. -/
noncomputable def deliverAssigned (net : Network) (k : ℕ) :
    Option (Network × List StateId) :=
  match net.events[k]? with
  | none => none
  | some e =>
      match (net.devices e.dst).networker with
      | none => none
      | some node =>
          let done := { net with
            events := net.events.eraseIdx k
            delivered := net.delivered ++ [Delivered.mk e.serial node e.q] }
          match net.receiveFromDeviceAssigned node e.q e.map with
          | ((.error (.aborted _), _), _) => none
          | ((.error _, w), calls) => some ({ done with registry := w }, calls)
          | ((.ok none, w), calls) => some ({ done with registry := w }, calls)
          | ((.ok (some cb), w), calls) => some ({ done with
              registry := w
              called := net.called ++ [(cb, e.q)] }, calls)

/-- An action, with the calls of the assigner; `none` when the process ends. -/
noncomputable def actAssigned (net : Network) : Action → Option (Network × List StateId)
  | .installQuantumLink a b => some (net.installQuantumLink a b, [])
  | .installQuantumChain nodes => some (installQuantumChain nodes net, [])
  | .installQuantumAllToAll nodes => some (installQuantumAllToAll nodes net, [])
  | .setQMaps chan ab ba => some ({ net with
      channels := Function.update net.channels chan
        { net.channels chan with qmapAB := ab, qmapBA := ba } }, [])
  | .setRecvCallback node cb => some ({ net with
      networkers := Function.update net.networkers node
        { net.networkers node with recvCallback := some cb } }, [])
  | .registry op =>
      match net.registry.execAssigned op with
      | ((.error (.aborted _), _), _) => none
      | ((_, w), calls) => some ({ net with registry := w }, calls)
  | .mergeStates qs =>
      match net.registry.mergeStatesAssigned qs with
      | ((.error (.aborted _), _), _) => none
      | ((_, w), calls) => some ({ net with registry := w }, calls)
  | .send node q dstNode sample => some ((net.send node q dstNode sample).2, [])
  | .deliver k => net.deliverAssigned k

theorem receiveFromDevice_logs (net : Network) (node : NodeId) (q : QubitPtr)
    (map : QMapInstance) : net.registry.Logs (net.receiveFromDevice node q map)
      (net.receiveFromDeviceAssigned node q map) :=
  ((net.registry.adoptQubit_quiet node q).logs_after (run_logs node q map _)).andThen
    fun _ w => (Quiet.refl w).logs

/-- What an action that installs no link does to the links and to the ids. -/
structure NoLink (net net' : Network) : Prop where
  links : net'.links = net.links
  numChannels : net'.numChannels = net.numChannels
  grows : net.registry.Grows net'.registry

theorem noLink_of_grows {w : QStateRegistry} (h : net.registry.Grows w) :
    NoLink net { net with registry := w } := ⟨rfl, rfl, h⟩

/-- `Send` takes no id and leaves the links. -/
theorem send_quiet (net : Network) (node : NodeId) (q : QubitPtr) (dstNode : NodeId)
    (sample : Option QMap → QMapInstance) :
    net.registry.Quiet (net.send node q dstNode sample).2.registry ∧
      (net.send node q dstNode sample).2.links = net.links ∧
      (net.send node q dstNode sample).2.numChannels = net.numChannels := by
  have hkept : net.registry.Quiet net.registry ∧ net.links = net.links ∧
    net.numChannels = net.numChannels := ⟨.refl _, rfl, rfl⟩
  rw [send]
  split_ifs
  · exact hkept
  · exact hkept
  · split
    · exact hkept
    split
    · exact hkept
    next dev _ =>
    split
    · exact hkept
    next chan _ =>
    have hset := net.registry.setLocationChannel_quiet q chan
    dsimp only
    rcases sendFrom_cases { net with
      registry := net.registry.setLocationChannel q chan } chan dev q sample with
      hs | ⟨dst, qmap, -, hs⟩
    · rw [hs]
      exact ⟨hset, rfl, rfl⟩
    · rw [hs]
      exact ⟨hset, rfl, rfl⟩
  · exact hkept

theorem noLink_send (node : NodeId) (q : QubitPtr) (dstNode : NodeId)
    (sample : Option QMap → QMapInstance) :
    NoLink net (net.send node q dstNode sample).2 :=
  have ⟨hquiet, hlinks, hchannels⟩ := net.send_quiet node q dstNode sample
  ⟨hlinks, hchannels, hquiet.grows⟩

theorem noLink_deliver {k : ℕ} (h : net.deliver k = some net') : NoLink net net' := by
  rw [deliver] at h
  split at h
  · cases h
  next e _ =>
  split at h
  · cases h
  next node _ =>
  have hgrows := (net.receiveFromDevice_logs node e.q e.map).grows
  dsimp only at h
  split at h <;> rename_i hrun <;> rw [hrun] at hgrows
  · cases h
  all_goals
    obtain rfl := Option.some.inj h
    exact ⟨rfl, rfl, hgrows⟩

theorem deliverAssigned_eq (net : Network) (k : ℕ) :
    net.deliverAssigned k =
      (net.deliver k).map fun net' => (net', taken net.registry net'.registry) := by
  rw [deliverAssigned, deliver]
  cases net.events[k]? with
  | none => rfl
  | some e =>
      dsimp only
      cases (net.devices e.dst).networker with
      | none => rfl
      | some node =>
          dsimp only
          rw [(net.receiveFromDevice_logs node e.q e.map).eq]
          rcases net.receiveFromDevice node e.q e.map with ⟨⟨_ | _⟩ | ⟨_ | _⟩, w⟩ <;> rfl

/-- The calls of the assigner that an action makes are the ids that it takes: one call
for each, in order. -/
theorem actAssigned_eq (net : Network) (a : Action) :
    net.actAssigned a =
      (net.act a).map fun net' => (net', taken net.registry net'.registry) := by
  have hnone : ∀ {net' : Network}, net.registry.Quiet net'.registry →
      some (net', []) = (some net').map fun net' =>
        (net', taken net.registry net'.registry) := fun h =>
    congrArg (fun calls => some (_, calls)) h.taken_nil.symm
  cases a with
  | installQuantumLink a b =>
      exact hnone ((sameTraffic_installQuantumLink a b).registry ▸ .refl _)
  | installQuantumChain nodes =>
      exact hnone ((sameTraffic_installQuantumChain nodes).registry ▸ .refl _)
  | installQuantumAllToAll nodes =>
      exact hnone ((sameTraffic_installQuantumAllToAll nodes).registry ▸ .refl _)
  | setQMaps chan ab ba => exact hnone (.refl _)
  | setRecvCallback node cb => exact hnone (.refl _)
  | registry op =>
      rw [actAssigned, act, step, (net.registry.exec_logs op).eq]
      rcases net.registry.exec op with ⟨⟨_ | _⟩ | _, w⟩ <;> rfl
  | mergeStates qs =>
      rw [actAssigned, act, (net.registry.mergeStates_logs qs).eq]
      rcases net.registry.mergeStates qs with ⟨⟨_ | _⟩ | _, w⟩ <;> rfl
  | send node q dstNode sample => exact hnone (net.send_quiet node q dstNode sample).1
  | deliver k => exact net.deliverAssigned_eq k

end Network

end Q2NS
