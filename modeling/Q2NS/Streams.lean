import Q2NS.Network.Assigner

/-!
# Random streams

`NetController::AssignStreams` hands out streams to the channels and to the registered
states; after it the link installer and the registry's hook go on from `nextStream_`.
The ghost field records who got which stream.  Stream numbers are integers: an overflow
of `int64_t` is not part of the model.
-/

namespace Q2NS

open QStateRegistry

/-- Who draws from a stream: the jitter and the map of a channel, or a state. -/
inductive Consumer where
  | jitter (chan : ChannelId)
  | map (chan : ChannelId)
  | state (sid : StateId)
  deriving DecidableEq

/-- `QChannel::AssignStreams`: the streams it sets and the count it returns. -/
def QChannel.assignStreams (chan : ChannelId) (stream : ℤ) : List (Consumer × ℤ) × ℤ :=
  let used := 0
  let set := [(Consumer.jitter chan, stream + used)]
  let used := used + 1
  let set := set ++ [(Consumer.map chan, stream + used)]
  let used := used + 1
  (set, used)

/-- `AssignStreams` of a state, on every backend. -/
def QState.assignStreams (sid : StateId) (stream : ℤ) : List (Consumer × ℤ) × ℤ :=
  ([(.state sid, stream)], 1)

/-- The controller: the network it built and its fields about streams.  `keys` are the
keys of `channels_`, in the order in which they were added. -/
structure NetController where
  net : Network := {}
  nodes : List NodeId := []
  keys : List (NodeId × NodeId) := []
  streamsAssigned : Bool := false
  nextStream : ℤ := 0
  assigned : List (Consumer × ℤ) := []

namespace NetController

/-- `nextStream_ += x.AssignStreams(nextStream_)`, given what the call does. -/
def give (c : NetController) (assign : ℤ → List (Consumer × ℤ) × ℤ) : NetController :=
  { c with
    nextStream := c.nextStream + (assign c.nextStream).2
    assigned := c.assigned ++ (assign c.nextStream).1 }

/-- The hook that the constructor installs in the registry. -/
def onRegister (c : NetController) (sid : StateId) : NetController :=
  if c.streamsAssigned then c.give (QState.assignStreams sid) else c

/-- A loop of `AssignStreams`, with the count `used`. -/
def giveAll (c : NetController) (used : ℤ) :
    List (ℤ → List (Consumer × ℤ) × ℤ) → ℤ × NetController
  | [] => (used, c)
  | assign :: rest => giveAll (c.give assign) (used + (assign c.nextStream).2) rest

/-- The order of the keys of `channels_`. -/
def keyLe (k k' : NodeId × NodeId) : Bool :=
  if k.1 ≠ k'.1 then k.1 ≤ k'.1 else k.2 ≤ k'.2

/-- The channels, in the order of the keys. -/
def sortedChannels (c : NetController) : List ChannelId :=
  (c.keys.mergeSort keyLe).filterMap c.net.links

/-- `GetStatesSortedById`; `order` is the order in which `states_` is gone through. -/
def statesSortedById (order : List StateId) : List StateId := order.mergeSort (· ≤ ·)

/-- `AssignStreams`. -/
def assignStreams (c : NetController) (order : List StateId) (stream : ℤ) :
    ℤ × NetController :=
  let c := { c with streamsAssigned := true, nextStream := stream }
  let (used, c) := c.giveAll 0 (c.sortedChannels.map QChannel.assignStreams)
  c.giveAll used ((statesSortedById order).map QState.assignStreams)

/-- `EnsureStreamsAssigned_`, which runs at time 0. -/
def ensureStreamsAssigned (c : NetController) (order : List StateId) : NetController :=
  if c.streamsAssigned then c else (c.assignStreams order 0).2

/-- `InstallQuantumLink`. -/
def installQuantumLink (c : NetController) : Option NodeId → Option NodeId → NetController
  | some a, some b =>
      match c.net.links (Network.linkKey a b) with
      | some _ => c
      | none =>
          let chan := c.net.numChannels
          let c := if c.streamsAssigned then c.give (QChannel.assignStreams chan) else c
          { c with
            net := c.net.installQuantumLink (some a) (some b)
            keys := c.keys ++ [Network.linkKey a b] }
  | _, _ => c

/-- `InstallQuantumLink` for a pair that the loops do not skip. -/
def installUnlessSkipped (c : NetController) (a b : Option NodeId) : NetController :=
  if a = none ∨ b = none then c
  else if a = b then c
  else c.installQuantumLink a b

/-- `InstallQuantumChain`. -/
def installQuantumChain : List (Option NodeId) → NetController → NetController
  | a :: b :: nodes, c => installQuantumChain (b :: nodes) (c.installUnlessSkipped a b)
  | _, c => c

/-- `InstallQuantumAllToAll`. -/
def installQuantumAllToAll : List (Option NodeId) → NetController → NetController
  | [], c => c
  | a :: nodes, c => installQuantumAllToAll nodes
      (nodes.foldl (fun c b => c.installUnlessSkipped a b) c)

/-- An action of the network that installs no link; the hook runs for every state that it
registers, in turn. -/
noncomputable def perform (c : NetController) (a : Network.Action) : Option NetController :=
  (c.net.actAssigned a).map fun x => x.2.foldl onRegister { c with net := x.1 }

/-- A step of a program or of the scheduler. -/
inductive Action where
  | createNode (node : NodeId)
  | network (a : Network.Action)
  | ensureStreamsAssigned (order : List StateId)

/-- The controller after an action; `none` when the process ends. -/
noncomputable def act (c : NetController) : Action → Option NetController
  | .createNode node => some { c with nodes := c.nodes ++ [node] }
  | .network (.installQuantumLink a b) => some (c.installQuantumLink a b)
  | .network (.installQuantumChain nodes) => some (installQuantumChain nodes c)
  | .network (.installQuantumAllToAll nodes) => some (installQuantumAllToAll nodes c)
  | .network (.setQMaps chan ab ba) => c.perform (.setQMaps chan ab ba)
  | .network (.setRecvCallback node cb) => c.perform (.setRecvCallback node cb)
  | .network (.registry op) => c.perform (.registry op)
  | .network (.mergeStates qs) => c.perform (.mergeStates qs)
  | .network (.send node q dstNode sample) => c.perform (.send node q dstNode sample)
  | .network (.deliver k) => c.perform (.deliver k)
  | .ensureStreamsAssigned order => some (c.ensureStreamsAssigned order)

/-- One action. -/
def Step (c c' : NetController) : Prop := ∃ a, c.act a = some c'

/-- Finitely many actions. -/
abbrev Run : NetController → NetController → Prop := Relation.ReflTransGen Step

/-- An order in which the hash map of the registered states can be gone through. -/
def Lists (c : NetController) (order : List StateId) : Prop :=
  order.Nodup ∧ ∀ sid, sid ∈ order ↔ c.net.registry.states sid ≠ none

end NetController

namespace NetController

variable {c c' : NetController} {s : ℤ}

/-- The hook runs for the ids that the action takes. -/
theorem perform_eq (c : NetController) (a : Network.Action) :
    c.perform a = (c.net.act a).map fun net =>
      (taken c.net.registry net.registry).foldl onRegister { c with net := net } := by
  rw [perform, c.net.actAssigned_eq, Option.map_map]
  rfl

/-! ## Handing out streams -/

/-- The streams `stream, stream + 1, …`, `n` of them. -/
def span (stream : ℤ) (n : ℕ) : List ℤ := (List.range n).map fun i : ℕ => stream + i

theorem span_add (stream : ℤ) (m n : ℕ) :
    span stream (m + n) = span stream m ++ span (stream + m) n := by
  have hshift : (fun i : ℕ => stream + i) ∘ (fun i => m + i) =
      fun i : ℕ => stream + m + i := by
    funext i
    rw [Function.comp_apply, Nat.cast_add, add_assoc]
  rw [span, List.range_add, List.map_append, List.map_map, hshift]
  rfl

theorem mem_span {stream x : ℤ} {n : ℕ} :
    x ∈ span stream n ↔ stream ≤ x ∧ x < stream + n := by
  rw [span, List.mem_map]
  constructor
  · rintro ⟨i, hi, rfl⟩
    have := List.mem_range.mp hi
    omega
  · rintro ⟨hle, hlt⟩
    exact ⟨(x - stream).toNat, List.mem_range.mpr (by omega), by omega⟩

theorem nodup_span (stream : ℤ) (n : ℕ) : (span stream n).Nodup :=
  List.nodup_range.map fun i j h => by
    have : stream + (i : ℤ) = stream + j := h
    omega

/-- A call hands the streams from `stream` on to the consumers `l`, one each. -/
def Sets (assign : ℤ → List (Consumer × ℤ) × ℤ) (l : List Consumer) : Prop :=
  ∀ stream, (assign stream).1.map Prod.fst = l ∧
    (assign stream).1.map Prod.snd = span stream l.length ∧
    (assign stream).2 = l.length

theorem sets_channel (chan : ChannelId) :
    Sets (QChannel.assignStreams chan) [.jitter chan, .map chan] :=
  fun _ => ⟨rfl, rfl, rfl⟩

theorem sets_state (sid : StateId) : Sets (QState.assignStreams sid) [.state sid] :=
  fun stream => ⟨rfl, congrArg (fun i => [i]) (add_zero stream).symm, rfl⟩

/-- The streams handed out run from `s` up to `nextStream` without a gap. -/
structure Contiguous (s : ℤ) (c : NetController) : Prop where
  streams : c.assigned.map Prod.snd = span s c.assigned.length
  next : c.nextStream = s + c.assigned.length

/-- The consumers that have a stream. -/
def consumers (c : NetController) : List Consumer := c.assigned.map Prod.fst

theorem Contiguous.give (h : Contiguous s c) {assign : ℤ → List (Consumer × ℤ) × ℤ}
    {l : List Consumer} (hl : Sets assign l) :
    Contiguous s (c.give assign) ∧ (c.give assign).consumers = c.consumers ++ l := by
  obtain ⟨hfst, hsnd, hused⟩ := hl c.nextStream
  have hlen : (assign c.nextStream).1.length = l.length := by
    rw [← hfst, List.length_map]
  refine ⟨⟨?_, ?_⟩, ?_⟩
  · rw [NetController.give]
    dsimp only
    rw [List.map_append, h.streams, hsnd, List.length_append, hlen, span_add, h.next]
  · rw [NetController.give]
    dsimp only
    rw [hused, List.length_append, hlen, h.next, Nat.cast_add, add_assoc]
  · rw [consumers, NetController.give]
    dsimp only
    rw [List.map_append, hfst]
    rfl

/-- A loop of `AssignStreams` hands one stream to each consumer in turn. -/
theorem Contiguous.giveAll {α : Type} {f : α → ℤ → List (Consumer × ℤ) × ℤ}
    {l : α → List Consumer} (hf : ∀ x, Sets (f x) (l x)) (xs : List α) (used : ℤ)
    (h : Contiguous s c) :
    Contiguous s (c.giveAll used (xs.map f)).2 ∧
      (c.giveAll used (xs.map f)).2.consumers = c.consumers ++ xs.flatMap l ∧
      (c.giveAll used (xs.map f)).1 = used + (xs.flatMap l).length := by
  induction xs generalizing c used with
  | nil => exact ⟨h, (List.append_nil _).symm, (add_zero used).symm⟩
  | cons x xs ih =>
      obtain ⟨hc, hcons⟩ := h.give (hf x)
      obtain ⟨hc', hcons', hused'⟩ := ih (used + (f x c.nextStream).2) hc
      rw [List.map_cons, NetController.giveAll, List.flatMap_cons]
      refine ⟨hc', ?_, ?_⟩
      · rw [hcons', hcons, List.append_assoc]
      · rw [hused', (hf x c.nextStream).2.2, List.length_append, Nat.cast_add, add_assoc]

/-- The hook runs for some states, once streams are assigned. -/
theorem Contiguous.onRegister (h : Contiguous s c) (hflag : c.streamsAssigned = true)
    (sids : List StateId) :
    Contiguous s (sids.foldl NetController.onRegister c) ∧
      (sids.foldl NetController.onRegister c).consumers =
        c.consumers ++ sids.map .state := by
  induction sids generalizing c with
  | nil => exact ⟨h, (List.append_nil _).symm⟩
  | cons sid sids ih =>
      obtain ⟨hc, hcons⟩ := h.give (sets_state sid)
      have hone : c.onRegister sid = c.give (QState.assignStreams sid) := if_pos hflag
      obtain ⟨hc', hcons'⟩ := ih hc hflag
      rw [List.foldl_cons, hone]
      refine ⟨hc', ?_⟩
      rw [hcons', hcons, List.append_assoc]
      rfl

/-- Only the streams may differ. -/
structure SameBut (c c' : NetController) : Prop where
  net : c'.net = c.net
  keys : c'.keys = c.keys
  streamsAssigned : c'.streamsAssigned = c.streamsAssigned

theorem sameBut_giveAll (fs : List (ℤ → List (Consumer × ℤ) × ℤ)) (used : ℤ) :
    SameBut c (c.giveAll used fs).2 := by
  induction fs generalizing c used with
  | nil => exact ⟨rfl, rfl, rfl⟩
  | cons f fs ih =>
      obtain ⟨hnet, hkeys, hflag⟩ := ih (c := c.give f) (used + (f c.nextStream).2)
      exact ⟨hnet, hkeys, hflag⟩

theorem sameBut_onRegister (sids : List StateId) :
    SameBut c (sids.foldl onRegister c) := by
  induction sids generalizing c with
  | nil => exact ⟨rfl, rfl, rfl⟩
  | cons sid sids ih =>
      obtain ⟨hnet, hkeys, hflag⟩ := ih (c := c.onRegister sid)
      rw [List.foldl_cons]
      have hone : SameBut c (c.onRegister sid) := by
        rw [onRegister]
        split_ifs <;> exact ⟨rfl, rfl, rfl⟩
      exact ⟨hnet.trans hone.net, hkeys.trans hone.keys,
        hflag.trans hone.streamsAssigned⟩

/-- Before streams are assigned the hook does nothing. -/
theorem onRegister_unassigned (hflag : c.streamsAssigned = false) (sids : List StateId) :
    sids.foldl onRegister c = c := by
  induction sids with
  | nil => rfl
  | cons sid sids ih =>
      have hone : c.onRegister sid = c := by
        rw [onRegister, hflag]
        rfl
      rw [List.foldl_cons, hone, ih]

/-! ## The keys of the channels -/

/-- `channels_` holds every channel once. -/
structure Keyed (c : NetController) : Prop where
  mem : ∀ k, k ∈ c.keys ↔ c.net.links k ≠ none
  channels : c.keys.map c.net.links = (List.range c.net.numChannels).map some

theorem keyed_init : Keyed {} :=
  ⟨fun _ => iff_of_false List.not_mem_nil fun h => h rfl, rfl⟩

theorem Keyed.of_eq (h : c.Keyed) (hk : c'.keys = c.keys) (hl : c'.net.links = c.net.links)
    (hn : c'.net.numChannels = c.net.numChannels) : c'.Keyed :=
  ⟨by rw [hk, hl]; exact h.mem, by rw [hk, hl, hn]; exact h.channels⟩

/-- A link that is installed under a new key. -/
theorem Keyed.install (h : c.Keyed) {k : NodeId × NodeId} (hk : c.net.links k = none)
    (hk' : c'.keys = c.keys ++ [k])
    (hl : c'.net.links = Function.update c.net.links k (some c.net.numChannels))
    (hn : c'.net.numChannels = c.net.numChannels + 1) : c'.Keyed := by
  have hnew : k ∉ c.keys := fun hmem => (h.mem k).mp hmem hk
  refine ⟨fun k' => ?_, ?_⟩
  · rw [hk', hl, List.mem_append, List.mem_singleton, h.mem]
    by_cases hkk : k' = k
    · rw [hkk, Function.update_self]
      exact iff_of_true (.inr rfl) (Option.some_ne_none _)
    · rw [Function.update_of_ne hkk]
      exact or_iff_left hkk
  · have hold : c.keys.map (Function.update c.net.links k (some c.net.numChannels)) =
        c.keys.map c.net.links := List.map_congr_left fun k' hmem =>
      Function.update_of_ne (fun he : k' = k => hnew (he ▸ hmem)) _ _
    rw [hk', hl, hn, List.map_append, hold, h.channels, List.range_succ, List.map_append]
    exact congrArg (fun x => _ ++ [x]) (Function.update_self _ _ _)

theorem Keyed.sortedChannels (h : c.Keyed) :
    c.sortedChannels.Perm (List.range c.net.numChannels) := by
  have hperm := (List.mergeSort_perm c.keys keyLe).filterMap c.net.links
  have heq : c.keys.filterMap c.net.links = List.range c.net.numChannels := by
    have hid : c.keys.filterMap c.net.links = (c.keys.map c.net.links).filterMap id := by
      rw [List.filterMap_map]
      rfl
    rw [hid, h.channels, List.filterMap_map]
    exact List.filterMap_some
  exact heq ▸ hperm

/-! ## What every action preserves -/

/-- What `InstallQuantumLink` does: nothing, or a channel under a new key. -/
theorem installQuantumLink_cases (c : NetController) (a b : Option NodeId) :
    c.installQuantumLink a b = c ∨ ∃ k net, c.net.links k = none ∧
      net.links = Function.update c.net.links k (some c.net.numChannels) ∧
      net.numChannels = c.net.numChannels + 1 ∧ net.registry = c.net.registry ∧
      c.installQuantumLink a b =
        { (if c.streamsAssigned then c.give (QChannel.assignStreams c.net.numChannels)
            else c) with net := net, keys := c.keys ++ [k] } := by
  cases a with
  | none => exact .inl rfl
  | some a =>
      cases b with
      | none => exact .inl rfl
      | some b =>
          rw [installQuantumLink]
          cases hk : c.net.links (Network.linkKey a b) with
          | some _ => exact .inl rfl
          | none =>
              refine .inr ⟨Network.linkKey a b, c.net.installQuantumLink (some a) (some b),
                hk, ?_, ?_, (Network.sameTraffic_installQuantumLink _ _).registry, ?_⟩
              · rw [Network.installQuantumLink, hk]
                rfl
              · rw [Network.installQuantumLink, hk]
                rfl
              · dsimp only
                split_ifs <;> rfl

/-- What a single installation preserves holds after the loops over them. -/
theorem installs_invariant {I : NetController → Prop}
    (hlink : ∀ c a b, I c → I (c.installQuantumLink a b)) (hc : I c)
    (nodes : List (Option NodeId)) :
    I (installQuantumChain nodes c) ∧ I (installQuantumAllToAll nodes c) := by
  have hpair : ∀ c a b, I c → I (c.installUnlessSkipped a b) := by
    intro c a b h
    rw [installUnlessSkipped]
    split_ifs
    · exact h
    · exact h
    · exact hlink c a b h
  have hrow : ∀ (a : Option NodeId) (nodes : List (Option NodeId)) c, I c →
      I (nodes.foldl (fun c b => c.installUnlessSkipped a b) c) := by
    intro a nodes
    induction nodes with
    | nil => exact fun c h => h
    | cons b nodes ih => exact fun c h => ih _ (hpair c a b h)
  constructor
  · fun_induction installQuantumChain nodes c with
    | case1 a b nodes c ih => exact ih (hpair c a b hc)
    | case2 => exact hc
  · induction nodes generalizing c with
    | nil => exact hc
    | cons a nodes ih => exact ih (hrow a nodes c hc)

/-- An invariant is kept by every action when it is kept by the creation of nodes, by
each installation of a link, by the actions that install none and by the initializer. -/
theorem act_invariant {I : NetController → Prop}
    (hnode : ∀ (c : NetController) node, I c → I { c with nodes := c.nodes ++ [node] })
    (hlink : ∀ c a b, I c → I (c.installQuantumLink a b))
    (hother : ∀ (c : NetController) (net : Network), Network.NoLink c.net net → I c →
      I ((taken c.net.registry net.registry).foldl onRegister { c with net := net }))
    (hensure : ∀ c order, I c → I (c.ensureStreamsAssigned order))
    {a : Action} (h : c.act a = some c') (hc : I c) : I c' := by
  have hperform : ∀ {b : Network.Action}, (∀ net, c.net.act b = some net →
      Network.NoLink c.net net) → c.perform b = some c' → I c' := by
    intro b hb hp
    rw [perform_eq] at hp
    obtain ⟨net, hnet, rfl⟩ := Option.map_eq_some_iff.mp hp
    exact hother c net (hb net hnet) hc
  have hregistry : ∀ {w : QStateRegistry}, c.net.registry.Grows w →
      Network.NoLink c.net { c.net with registry := w } := Network.noLink_of_grows
  cases a with
  | createNode node => exact Option.some.inj h ▸ hnode c node hc
  | ensureStreamsAssigned order => exact Option.some.inj h ▸ hensure c order hc
  | network b =>
      cases b with
      | installQuantumLink a b => exact Option.some.inj h ▸ hlink c a b hc
      | installQuantumChain nodes =>
          exact Option.some.inj h ▸ (installs_invariant hlink hc nodes).1
      | installQuantumAllToAll nodes =>
          exact Option.some.inj h ▸ (installs_invariant hlink hc nodes).2
      | setQMaps chan ab ba =>
          refine hperform (fun net hnet => ?_) h
          exact Option.some.inj hnet ▸ ⟨rfl, rfl, .refl _⟩
      | setRecvCallback node cb =>
          refine hperform (fun net hnet => ?_) h
          exact Option.some.inj hnet ▸ ⟨rfl, rfl, .refl _⟩
      | registry op =>
          refine hperform (fun net hnet => ?_) h
          obtain ⟨w, hw, rfl⟩ := Option.map_eq_some_iff.mp hnet
          exact hregistry (step_grows hw)
      | mergeStates qs =>
          refine hperform (fun net hnet => ?_) h
          have hgrows := (c.net.registry.mergeStates_logs qs).grows
          rw [Network.act] at hnet
          split at hnet
          · cases hnet
          next heq =>
          rw [heq] at hgrows
          exact Option.some.inj hnet ▸ hregistry hgrows
      | send node q dstNode sample =>
          refine hperform (fun net hnet => ?_) h
          exact Option.some.inj hnet ▸ Network.noLink_send node q dstNode sample
      | deliver k =>
          refine hperform (fun net hnet => ?_) h
          exact Network.noLink_deliver hnet

/-- What every action preserves holds after a run. -/
theorem Run.invariant {I : NetController → Prop}
    (hact : ∀ {c c' : NetController} {a}, c.act a = some c' → I c → I c')
    (h : Run c c') (hc : I c) : I c' := by
  induction h with
  | refl => exact hc
  | tail _ hs ih =>
      obtain ⟨a, ha⟩ := hs
      exact hact ha ih

/-! ## Before the call -/

/-- The channels are keyed, the ids of the states were taken, and without
`streamsAssigned` nobody has a stream. -/
structure Unserved (c : NetController) : Prop where
  keyed : c.Keyed
  grows : empty.Grows c.net.registry
  assigned : c.streamsAssigned = false → c.assigned = []

theorem Keyed.installQuantumLink (h : c.Keyed) (a b : Option NodeId) :
    (c.installQuantumLink a b).Keyed := by
  rcases c.installQuantumLink_cases a b with heq | ⟨k, net, hk, hl, hn, -, heq⟩
  · rw [heq]
    exact h
  · rw [heq]
    exact h.install hk (by split_ifs <;> rfl) hl hn

theorem Keyed.onRegister (h : c.Keyed) {net : Network} (hnet : Network.NoLink c.net net)
    (sids : List StateId) :
    (sids.foldl NetController.onRegister { c with net := net }).Keyed := by
  obtain ⟨hsame, hkeys, -⟩ := sameBut_onRegister (c := { c with net := net }) sids
  exact h.of_eq hkeys (by rw [hsame]; exact hnet.links)
    (by rw [hsame]; exact hnet.numChannels)

theorem sameBut_assignStreams (c : NetController) (order : List StateId) (s : ℤ) :
    (c.assignStreams order s).2.net = c.net ∧ (c.assignStreams order s).2.keys = c.keys ∧
      (c.assignStreams order s).2.streamsAssigned = true := by
  rw [assignStreams]
  dsimp only
  have hchannels := sameBut_giveAll
    (c := { c with streamsAssigned := true, nextStream := s })
    (c.sortedChannels.map QChannel.assignStreams) 0
  have hstates := sameBut_giveAll (c := (giveAll
    { c with streamsAssigned := true, nextStream := s } 0
    (c.sortedChannels.map QChannel.assignStreams)).2)
    ((statesSortedById order).map QState.assignStreams)
    (giveAll { c with streamsAssigned := true, nextStream := s } 0
      (c.sortedChannels.map QChannel.assignStreams)).1
  exact ⟨hstates.net.trans hchannels.net, hstates.keys.trans hchannels.keys,
    hstates.streamsAssigned.trans hchannels.streamsAssigned⟩

theorem Unserved.act {a : Action} (h : c.act a = some c') (hc : c.Unserved) :
    c'.Unserved := by
  refine act_invariant (I := Unserved) ?_ ?_ ?_ ?_ h hc
  · exact fun c node hc => ⟨hc.keyed.of_eq rfl rfl rfl, hc.grows, hc.assigned⟩
  · intro c a b hc
    have hkeyed := hc.keyed.installQuantumLink a b
    rcases c.installQuantumLink_cases a b with heq | ⟨k, net, -, -, -, hr, heq⟩
    · rw [heq]
      exact hc
    · rw [heq] at hkeyed ⊢
      refine ⟨hkeyed, hr ▸ hc.grows, fun hflag => ?_⟩
      split_ifs at hflag ⊢ with hon
      · exact Bool.noConfusion (hflag.symm.trans hon)
      · exact hc.assigned hflag
  · intro c net hnet hc
    have hsame := sameBut_onRegister (c := { c with net := net })
      (taken c.net.registry net.registry)
    refine ⟨hc.keyed.onRegister hnet _, ?_, fun hflag => ?_⟩
    · rw [hsame.net]
      exact hc.grows.trans hnet.grows
    · have hoff : c.streamsAssigned = false := hsame.streamsAssigned.symm.trans hflag
      rw [onRegister_unassigned (c := { c with net := net }) hoff]
      exact hc.assigned hoff
  · intro c order hc
    obtain ⟨hnet, hkeys, hflag⟩ := sameBut_assignStreams c order 0
    rw [ensureStreamsAssigned]
    split_ifs
    · exact hc
    · exact ⟨hc.keyed.of_eq hkeys (by rw [hnet]) (by rw [hnet]), hnet ▸ hc.grows,
        fun hoff => Bool.noConfusion (hoff.symm.trans hflag)⟩

theorem unserved_of_run (h : Run {} c) : c.Unserved :=
  h.invariant Unserved.act ⟨keyed_init, .refl _, fun _ => rfl⟩

/-! ## From the call on -/

/-- The consumers of the channels `0, 1, …`. -/
def channelConsumers (numChannels : ℕ) : List Consumer :=
  (List.range numChannels).flatMap fun chan => [.jitter chan, .map chan]

/-- Who has streams after a call in `c₀`, when `order` lists its states: the channels, the
states that were there and those registered since. -/
structure Handed (c₀ : NetController) (order : List StateId) (s : ℤ) (c : NetController) :
    Prop where
  keyed : c.Keyed
  contiguous : Contiguous s c
  streamsAssigned : c.streamsAssigned = true
  grows : c₀.net.registry.Grows c.net.registry
  consumers : c.consumers.Perm (channelConsumers c.net.numChannels ++
    (order ++ taken c₀.net.registry c.net.registry).map .state)

theorem channelConsumers_succ (n : ℕ) :
    channelConsumers (n + 1) = channelConsumers n ++ [.jitter n, .map n] := by
  rw [channelConsumers, List.range_succ, List.flatMap_append]
  rfl

variable {c₀ c₁ c₂ : NetController} {order : List StateId}

/-- What the call itself hands out. -/
theorem Unserved.assignStreams (h : c₀.Unserved) (hoff : c₀.streamsAssigned = false)
    (order : List StateId) (s : ℤ) :
    Handed c₀ order s (c₀.assignStreams order s).2 ∧
      (c₀.assignStreams order s).1 = (c₀.assignStreams order s).2.assigned.length := by
  obtain ⟨hnet, hkeys, hflag⟩ := sameBut_assignStreams c₀ order s
  have hnone := h.assigned hoff
  have hstart : Contiguous s { c₀ with streamsAssigned := true, nextStream := s } := by
    refine ⟨?_, ?_⟩ <;> dsimp only <;> rw [hnone]
    · rfl
    · exact (add_zero s).symm
  obtain ⟨hchan, hchanCons, hchanUsed⟩ :=
    hstart.giveAll sets_channel c₀.sortedChannels 0
  obtain ⟨hstate, hstateCons, hstateUsed⟩ :=
    hchan.giveAll sets_state (statesSortedById order)
      (giveAll { c₀ with streamsAssigned := true, nextStream := s } 0
        (c₀.sortedChannels.map QChannel.assignStreams)).1
  have hcons : (c₀.assignStreams order s).2.consumers =
      c₀.sortedChannels.flatMap (fun chan => [.jitter chan, .map chan]) ++
        (statesSortedById order).map .state := by
    have hempty : consumers { c₀ with streamsAssigned := true, nextStream := s } = [] := by
      rw [NetController.consumers]
      dsimp only
      rw [hnone]
      rfl
    rw [hchanCons, hempty, List.nil_append] at hstateCons
    rw [List.map_eq_flatMap]
    exact hstateCons
  refine ⟨{
    keyed := h.keyed.of_eq hkeys (by rw [hnet]) (by rw [hnet])
    contiguous := hstate
    streamsAssigned := hflag
    grows := hnet ▸ .refl _
    consumers := ?_ }, ?_⟩
  · rw [hcons, hnet, (QStateRegistry.Quiet.refl _).taken_nil, List.append_nil]
    exact (h.keyed.sortedChannels.flatMap_right _).append
      ((List.mergeSort_perm order _).map _)
  · have hlen : (c₀.assignStreams order s).2.assigned.length =
        (c₀.assignStreams order s).2.consumers.length := (List.length_map _).symm
    rw [hlen, hcons, List.length_append, Nat.cast_add, List.map_eq_flatMap]
    refine hstateUsed.trans ?_
    rw [hchanUsed, zero_add]

theorem Handed.installQuantumLink (h : Handed c₀ order s c) (a b : Option NodeId) :
    Handed c₀ order s (c.installQuantumLink a b) := by
  have hkeyed := h.keyed.installQuantumLink a b
  rcases c.installQuantumLink_cases a b with heq | ⟨k, net, -, -, hn, hr, heq⟩
  · rw [heq]
    exact h
  · rw [heq, if_pos h.streamsAssigned] at hkeyed ⊢
    obtain ⟨hcont, hcons⟩ := h.contiguous.give (sets_channel c.net.numChannels)
    refine
      { keyed := hkeyed
        contiguous := ⟨hcont.streams, hcont.next⟩
        streamsAssigned := h.streamsAssigned
        grows := hr ▸ h.grows
        consumers := ?_ }
    dsimp only
    rw [hn, hr, channelConsumers_succ]
    have hperm := h.consumers.append_right [.jitter c.net.numChannels, .map c.net.numChannels]
    refine (List.Perm.of_eq hcons).trans (hperm.trans ?_)
    rw [List.append_assoc, List.append_assoc]
    exact List.Perm.append_left _ List.perm_append_comm

theorem Handed.onRegister (h : Handed c₀ order s c) {net : Network}
    (hnet : Network.NoLink c.net net) :
    Handed c₀ order s ((taken c.net.registry net.registry).foldl NetController.onRegister
      { c with net := net }) := by
  have hstart : Contiguous s { c with net := net } :=
    ⟨h.contiguous.streams, h.contiguous.next⟩
  obtain ⟨hcont, hcons⟩ := hstart.onRegister h.streamsAssigned
    (taken c.net.registry net.registry)
  obtain ⟨hsame, hkeys, hflag⟩ := sameBut_onRegister (c := { c with net := net })
    (taken c.net.registry net.registry)
  refine
    { keyed := h.keyed.onRegister hnet _
      contiguous := hcont
      streamsAssigned := hflag.trans h.streamsAssigned
      grows := by rw [hsame]; exact h.grows.trans hnet.grows
      consumers := ?_ }
  rw [hcons, hsame]
  dsimp only
  rw [hnet.numChannels, taken_trans h.grows.next hnet.grows.next, ← List.append_assoc order,
    List.map_append, ← List.append_assoc]
  exact h.consumers.append_right _

theorem Handed.act {a : Action} (ha : c.act a = some c') (h : Handed c₀ order s c) :
    Handed c₀ order s c' := by
  refine act_invariant (I := Handed c₀ order s) ?_ ?_ ?_ ?_ ha h
  · exact fun c node h => ⟨h.keyed.of_eq rfl rfl rfl,
      ⟨h.contiguous.streams, h.contiguous.next⟩, h.streamsAssigned, h.grows, h.consumers⟩
  · exact fun c a b h => h.installQuantumLink a b
  · exact fun c net hnet h => h.onRegister hnet
  · intro c order' h
    rw [ensureStreamsAssigned, if_pos h.streamsAssigned]
    exact h

/-- The order in which the hash map is gone through makes no difference. -/
theorem assignStreams_order {order' : List StateId} (h : c₀.Lists order)
    (h' : c₀.Lists order') (s : ℤ) :
    c₀.assignStreams order' s = c₀.assignStreams order s := by
  have hperm : order'.Perm order := (List.perm_ext_iff_of_nodup h'.1 h.1).mpr fun sid =>
    (h'.2 sid).trans (h.2 sid).symm
  have hsorted : ∀ l : List StateId, (statesSortedById l).Pairwise (· ≤ ·) := fun l => by
    have := @List.pairwise_mergeSort StateId (fun a b => decide (a ≤ b))
      (fun a b c hab hbc => by simp only [decide_eq_true_eq] at *; exact hab.trans hbc)
      (fun a b => by simpa using Nat.le_total a b) l
    rw [statesSortedById]
    simpa only [decide_eq_true_eq] using this
  have heq : statesSortedById order' = statesSortedById order :=
    List.Perm.eq_of_pairwise' (hsorted _) (hsorted _)
      (((List.mergeSort_perm _ _).trans hperm).trans (List.mergeSort_perm _ _).symm)
  rw [assignStreams, assignStreams, heq]

/-- Who is to have a stream at `c`, when the call was made in `c₀`. -/
def Served (c₀ c : NetController) : Consumer → Prop
  | .jitter chan => chan < c.net.numChannels
  | .map chan => chan < c.net.numChannels
  | .state sid => c₀.net.registry.states sid ≠ none ∨
      c₀.net.registry.nextStateId ≤ sid ∧ sid < c.net.registry.nextStateId

theorem mem_channelConsumers {n : ℕ} {x : Consumer} :
    x ∈ channelConsumers n ↔ ∃ chan < n, x = .jitter chan ∨ x = .map chan := by
  simp only [channelConsumers, List.mem_flatMap, List.mem_range, List.mem_cons,
    List.not_mem_nil, or_false]

theorem nodup_channelConsumers (n : ℕ) : (channelConsumers n).Nodup := by
  induction n with
  | zero => exact List.nodup_nil
  | succ n ih =>
      have hpair : [Consumer.jitter n, Consumer.map n].Nodup := by simp
      rw [channelConsumers_succ]
      refine ih.append hpair fun x hx hx' => ?_
      obtain ⟨chan, hlt, hchan⟩ := mem_channelConsumers.mp hx
      rcases List.mem_pair.mp hx' with rfl | rfl <;> rcases hchan with hchan | hchan <;>
        cases hchan <;> exact lt_irrefl _ hlt

/-- Nobody has two streams, and those who have one are those who are to have one. -/
theorem Handed.consumers_iff (h : Handed c₀ order s c) (h₀ : c₀.Unserved)
    (horder : c₀.Lists order) :
    c.consumers.Nodup ∧ ∀ x, x ∈ c.consumers ↔ Served c₀ c x := by
  have hold : ∀ sid ∈ order, sid < c₀.net.registry.nextStateId := by
    intro sid hsid
    rcases h₀.grows.states sid ((horder.2 sid).mp hsid) with hnone | ⟨-, hlt⟩
    · exact absurd rfl hnone
    · exact hlt
  have hstates : (order ++ taken c₀.net.registry c.net.registry).Nodup :=
    horder.1.append (nodup_taken _ _) fun sid hsid hsid' =>
      absurd (hold sid hsid) (not_lt.mpr ((mem_taken h.grows.next).mp hsid').1)
  constructor
  · refine h.consumers.nodup_iff.mpr ((nodup_channelConsumers _).append
      (hstates.map fun _ _ heq => Consumer.state.inj heq) fun x hx hx' => ?_)
    obtain ⟨sid, -, rfl⟩ := List.mem_map.mp hx'
    obtain ⟨chan, -, hchan | hchan⟩ := mem_channelConsumers.mp hx <;> cases hchan
  · intro x
    rw [h.consumers.mem_iff, List.mem_append, mem_channelConsumers, List.mem_map]
    cases x with
    | jitter chan => simp [Served]
    | map chan => simp [Served]
    | state sid =>
        simp only [List.mem_append, mem_taken h.grows.next, horder.2, Served]
        constructor
        · rintro (⟨chan, -, hchan | hchan⟩ | ⟨sid', hsid, heq⟩)
          · cases hchan
          · cases hchan
          · exact Consumer.state.inj heq ▸ hsid
        · exact fun hsid => .inr ⟨sid, hsid, rfl⟩

/-- From the call on the streams handed out are distinct and fill the range from `s` to
`nextStream`; each channel has one for the jitter and one for its map, each state that was
registered at the call or since has one, and nobody else has any.  `AssignStreams` returns
how many it handed out, and does the same for every order of the hash map. -/
theorem streams_handed_out (h₀ : Run {} c₀) (hfirst : c₀.streamsAssigned = false)
    (horder : c₀.Lists order)
    (hcall : c₁ = (c₀.assignStreams order s).2 ∨
      s = 0 ∧ c₁ = c₀.ensureStreamsAssigned order)
    (h₂ : Run c₁ c₂) :
    (c₂.assigned.map Prod.snd).Nodup ∧
      (∀ x, x ∈ c₂.assigned.map Prod.snd ↔ s ≤ x ∧ x < c₂.nextStream) ∧
      (∀ x, c₂.consumers.count x = if x ∈ c₂.consumers then 1 else 0) ∧
      (∀ x, x ∈ c₂.consumers ↔ Served c₀ c₂ x) ∧
      (∀ sid, c₂.net.registry.states sid ≠ none → .state sid ∈ c₂.consumers) ∧
      (c₀.assignStreams order s).1 = c₁.assigned.length ∧
      ∀ order', c₀.Lists order' →
        c₀.assignStreams order' s = c₀.assignStreams order s := by
  have hun := unserved_of_run h₀
  obtain ⟨hcalled, hused⟩ := hun.assignStreams hfirst order s
  have hc₁ : c₁ = (c₀.assignStreams order s).2 := by
    rcases hcall with hcall | ⟨rfl, hcall⟩
    · exact hcall
    · rw [hcall, ensureStreamsAssigned, hfirst]
      rfl
  rw [← hc₁] at hcalled hused
  have hhanded : Handed c₀ order s c₂ := h₂.invariant Handed.act hcalled
  obtain ⟨hnodup, hserved⟩ := hhanded.consumers_iff hun horder
  refine ⟨?_, fun x => ?_, fun x => hnodup.count, hserved, fun sid hsid => ?_, hused,
    fun order' horder' => assignStreams_order horder horder' s⟩
  · rw [hhanded.contiguous.streams]
    exact nodup_span _ _
  · rw [hhanded.contiguous.streams, hhanded.contiguous.next, mem_span]
  · exact (hserved _).mpr (hhanded.grows.states sid hsid)

/-- One link and one state before the call, another link after it. -/
theorem streams_handed_out_two_links :
    let w := ((empty.newObject (.stab (QStateStab.init 1))).2.createQubitFrom 0 0).2
    let c₀ : NetController :=
      { net := { ({} : Network).installQuantumLink (some 0) (some 1) with registry := w }
        keys := [(0, 1)] }
    let c₁ := (c₀.assignStreams [1] 5).2
    let c₂ := c₁.installQuantumLink (some 1) (some 2)
    (c₂.assigned.map Prod.snd).Nodup ∧
      ∀ x, x ∈ c₂.assigned.map Prod.snd ↔ 5 ≤ x ∧ x < c₂.nextStream := by
  intro w c₀ c₁ c₂
  have hlink : Step {} (({} : NetController).installQuantumLink (some 0) (some 1)) :=
    ⟨.network (.installQuantumLink (some 0) (some 1)), rfl⟩
  have hobject : Step (({} : NetController).installQuantumLink (some 0) (some 1))
      { net := { ({} : Network).installQuantumLink (some 0) (some 1) with
          registry := (empty.newObject (.stab (QStateStab.init 1))).2 }
        keys := [(0, 1)] } :=
    ⟨.network (.registry (.newState (.stab (QStateStab.init 1)))), rfl⟩
  have hqubit : Step { net := { ({} : Network).installQuantumLink (some 0) (some 1) with
      registry := (empty.newObject (.stab (QStateStab.init 1))).2 }, keys := [(0, 1)] } c₀ :=
    ⟨.network (.registry (.createQubitFrom 0 0)), rfl⟩
  have horder : c₀.Lists [1] := by
    refine ⟨List.nodup_singleton 1, fun sid => ?_⟩
    have hstates : c₀.net.registry.states = Function.update (fun _ => none) 1 (some 0) := rfl
    rw [hstates, List.mem_singleton]
    by_cases h : sid = 1
    · rw [h, Function.update_self]
      exact iff_of_true rfl (Option.some_ne_none 0)
    · rw [Function.update_of_ne h]
      exact iff_of_false h fun hne => hne rfl
  have hafter : Step c₁ c₂ := ⟨.network (.installQuantumLink (some 1) (some 2)), rfl⟩
  obtain ⟨hnodup, hrange, -⟩ := streams_handed_out
    (((Relation.ReflTransGen.single hlink).tail hobject).tail hqubit) rfl horder
    (.inl rfl) (Relation.ReflTransGen.single hafter)
  exact ⟨hnodup, hrange⟩

end NetController

end Q2NS
