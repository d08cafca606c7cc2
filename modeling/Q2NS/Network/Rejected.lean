import Q2NS.Network.Lost

/-!
# Rejected sends

`QNetworker::Send` marks the qubit as being in the channel before the device and the
channel have accepted it.  The channel refuses when the device is none of its
endpoints, or when the other endpoint is null; then the qubit stays in the channel
although nothing will arrive.  Links as installed never refuse, so the wiring is done
by hand here.
-/

namespace Q2NS.Network

open QStateRegistry

variable {net net' : Network}

/-! ## Wiring by hand -/

/-- `QNetDevice::AttachChannel`, for an endpoint that is not null. -/
def attachChannel (net : Network) (chan : ChannelId) : Option DevPtr → Network
  | none => net
  | some dev => { net with
      devices := Function.update net.devices dev
        { net.devices dev with channel := some chan } }

/-- `QChannel::Connect`. -/
def connect (net : Network) (chan : ChannelId) (a b : Option DevPtr) : Network :=
  (({ net with
      channels := Function.update net.channels chan
        { net.channels chan with aDev := a, bDev := b } }).attachChannel chan a).attachChannel
    chan b

/-- What a program can do, wiring by hand included. -/
inductive HandAction where
  | action (a : Action)
  | newDevice
  | newChannel
  | connect (chan : ChannelId) (a b : Option DevPtr)
  | addInterface (node : NodeId) (dev : DevPtr)
  | addRoute (node dst : NodeId) (oif : ℕ)

/-- The network after an action. -/
noncomputable def handAct (net : Network) : HandAction → Option Network
  | .action a => net.act a
  | .newDevice => some { net with numDevices := net.numDevices + 1 }
  | .newChannel => some { net with numChannels := net.numChannels + 1 }
  | .connect chan a b => some (net.connect chan a b)
  | .addInterface node dev => some (net.addInterface node dev)
  | .addRoute node dst oif => some (net.addRoute node dst oif)

/-- Networks that a program can reach from the empty one. -/
def HandWired (net : Network) : Prop :=
  Relation.ReflTransGen (fun net net' => ∃ a, handAct net a = some net') {} net

/-! ## Sends -/

/-- The checks of the networker pass and lead to a device that is on a channel. -/
structure Attached (net : Network) (node : NodeId) (q : QubitPtr) (dstNode : NodeId)
    (dev : DevPtr) (chan : ChannelId) : Prop where
  handle : q < net.registry.numHandles
  isLocal : net.registry.IsLocal node q
  route : ∃ oif, (net.networkers node).hostRoutes dstNode = some oif ∧
    (net.networkers node).ifaces[oif]? = some dev
  channel : (net.devices dev).channel = some chan

/-- `Send` gets as far as the channel, and the device is no endpoint of it or the other
endpoint is null. -/
def Refused (net : Network) (node : NodeId) (q : QubitPtr) (dstNode : NodeId) : Prop :=
  ∃ dev chan, net.Attached node q dstNode dev chan ∧
    (net.channels chan).otherEnd dev = none

/-- The qubit is where it was, and the states and what is in flight are the same. -/
structure Undisturbed (net net' : Network) (q : QubitPtr) : Prop where
  location : net'.registry.getLocation q = net.registry.getLocation q
  states : net'.registry.states = net.registry.states
  objects : net'.registry.objects = net.registry.objects
  members : net'.registry.members = net.registry.members
  events : net'.events = net.events

theorem Undisturbed.refl (net : Network) (q : QubitPtr) : Undisturbed net net q :=
  ⟨rfl, rfl, rfl, rfl, rfl⟩

variable {node dstNode : NodeId} {q : QubitPtr} {sample : Option QMap → QMapInstance}

/-- A send that does not get as far as the channel. -/
theorem send_unattached (h : ∀ dev chan, ¬ net.Attached node q dstNode dev chan) :
    net.send node q dstNode sample = (false, net) := by
  rw [send]
  split_ifs with hnull hlost hlocal
  · rfl
  · rfl
  · split
    · rfl
    next oif hroute =>
    split
    · rfl
    next dev hdev =>
    split
    · rfl
    next chan hchan =>
      exact absurd ⟨not_le.mp hnull, hlocal, ⟨oif, hroute, hdev⟩, hchan⟩ (h dev chan)
  · rfl

/-- A send that gets as far as the channel. -/
theorem Attached.send {dev : DevPtr} {chan : ChannelId}
    (h : net.Attached node q dstNode dev chan) (sample : Option QMap → QMapInstance) :
    ((net.channels chan).otherEnd dev = none ∧ net.send node q dstNode sample =
        (false, { net with registry := net.registry.setLocation q (.channel chan) })) ∨
      ((net.channels chan).otherEnd dev ≠ none ∧
        (net.send node q dstNode sample).1 = true) := by
  obtain ⟨oif, hroute, hdev⟩ := h.route
  have hlost : net.registry.getLocation q ≠ .lost := by
    rw [show net.registry.getLocation q = .node node from h.isLocal]
    exact Location.noConfusion
  have hmarked : (net.registry.setLocation q (.channel chan)).getLocation q ≠ .lost := by
    rw [getLocation_setLocation]
    exact Location.noConfusion
  have hhandles : ¬ (net.registry.setLocation q (.channel chan)).numHandles ≤ q :=
    not_le.mpr h.handle
  rw [Network.send, if_neg (not_le.mpr h.handle), if_neg hlost,
    if_neg (not_not.mpr h.isLocal), hroute]
  simp only [hdev, h.channel, setLocationChannel, if_neg hlost, sendFrom, if_neg hhandles,
    if_neg hmarked]
  cases hend : (net.channels chan).otherEnd dev with
  | none => exact .inl ⟨rfl, rfl⟩
  | some e => exact .inr ⟨Option.some_ne_none e, rfl⟩

/-- What a rejected send leaves. -/
theorem send_rejected (h : (net.send node q dstNode sample).1 = false) :
    (¬ net.Refused node q dstNode ∧ (net.send node q dstNode sample).2 = net) ∨
      (net.Refused node q dstNode ∧ net.registry.IsLocal node q ∧
        ∃ chan, (net.send node q dstNode sample).2 =
          { net with registry := net.registry.setLocation q (.channel chan) }) := by
  by_cases hattached : ∃ dev chan, net.Attached node q dstNode dev chan
  · obtain ⟨dev, chan, ha⟩ := hattached
    rcases ha.send sample with ⟨hend, hsend⟩ | ⟨-, hsend⟩
    · exact .inr ⟨⟨dev, chan, ha, hend⟩, ha.isLocal, chan, congrArg Prod.snd hsend⟩
    · exact absurd (h.symm.trans hsend) Bool.false_ne_true
  · have hnone : ∀ dev chan, ¬ net.Attached node q dstNode dev chan :=
      fun dev chan ha => hattached ⟨dev, chan, ha⟩
    refine .inl ⟨?_, congrArg Prod.snd (send_unattached hnone)⟩
    rintro ⟨dev, chan, ha, -⟩
    exact hnone dev chan ha

theorem undisturbed_iff (h : (net.send node q dstNode sample).1 = false) :
    Undisturbed net (net.send node q dstNode sample).2 q ↔
      ¬ net.Refused node q dstNode := by
  rcases send_rejected h with ⟨hnot, hsame⟩ | ⟨hrefused, hlocal, chan, hmarked⟩
  · rw [hsame]
    exact iff_of_true (.refl net q) hnot
  · refine iff_of_false (fun hu => ?_) (not_not.mpr hrefused)
    have hloc := hu.location
    rw [hmarked, getLocation_setLocation,
      show net.registry.getLocation q = .node node from hlocal] at hloc
    exact Location.noConfusion hloc

/-- A rejected send disturbs nothing exactly when it is not the channel that rejects it,
and then the network is the same as before. -/
theorem rejected_send_undisturbed_iff (net : Network) (node : NodeId) (q : QubitPtr)
    (dstNode : NodeId) (sample : Option QMap → QMapInstance)
    (h : (net.send node q dstNode sample).1 = false) :
    (Undisturbed net (net.send node q dstNode sample).2 q ↔
      ¬ net.Refused node q dstNode) ∧
    (¬ net.Refused node q dstNode → (net.send node q dstNode sample).2 = net) := by
  refine ⟨undisturbed_iff h, fun hnot => ?_⟩
  rcases send_rejected h with ⟨-, hsame⟩ | ⟨hrefused, -⟩
  · exact hsame
  · exact absurd hrefused hnot

/-! ## A refused send -/

/-- A link whose far endpoint has been replaced by a null device, and a qubit at the
near one. -/
def cutLink : Network :=
  { (({} : Network).installQuantumLink (some 0) (some 1)).connect 0 (some 0) none with
    registry := ((QStateRegistry.empty.newObject
      (.stab (QStateStab.init 1))).2.createQubitFrom 0 0).2 }

theorem cutLink_handWired : HandWired cutLink :=
  (((Relation.ReflTransGen.single
    ⟨.action (.installQuantumLink (some 0) (some 1)), rfl⟩).tail
    ⟨.connect 0 (some 0) none, rfl⟩).tail
    ⟨.action (.registry (.newState (.stab (QStateStab.init 1)))), rfl⟩).tail
    ⟨.action (.registry (.createQubitFrom 0 0)), rfl⟩

theorem cutLink_refused : cutLink.Refused 0 0 1 :=
  ⟨0, 0, ⟨Nat.one_pos, rfl, ⟨0, rfl, rfl⟩, rfl⟩, rfl⟩

theorem cutLink_send_rejected (sample : Option QMap → QMapInstance) :
    (cutLink.send 0 0 1 sample).1 = false := by
  obtain ⟨dev, chan, ha, hend⟩ := cutLink_refused
  rcases ha.send sample with ⟨-, hsend⟩ | ⟨hsome, -⟩
  · exact congrArg Prod.fst hsend
  · exact absurd hend hsome

/-- The qubit is left in the channel. -/
theorem cutLink_send_disturbs :
    ¬ ∀ net : Network, HandWired net → ∀ node q dstNode sample,
      (net.send node q dstNode sample).1 = false →
        Undisturbed net (net.send node q dstNode sample).2 q := by
  intro hall
  have hsend := cutLink_send_rejected fun _ => .identity
  exact (undisturbed_iff hsend).mp (hall cutLink cutLink_handWired 0 0 1 _ hsend)
    cutLink_refused

/-- A send that the networker rejects, for want of a route. -/
theorem rejected_send_undisturbed_iff_two :
    (Undisturbed cutLink (cutLink.send 0 0 2 fun _ => .identity).2 0 ↔
      ¬ cutLink.Refused 0 0 2) ∧
    (¬ cutLink.Refused 0 0 2 → (cutLink.send 0 0 2 fun _ => .identity).2 = cutLink) :=
  rejected_send_undisturbed_iff cutLink 0 0 2 _ rfl

end Q2NS.Network
