import Q2NS.Swap.Chain

/-!
# What a swap session delivers

The handlers of one session together with the registry that their calls act on.  Qubits
and control packets come in any order and may be lost.
-/

namespace Q2NS.Swap

open QStateRegistry InFlight NamedTensor QuadForm

variable {T : Type}

/-- The result of a call on the registry; `none` when it throws. -/
def returned {α : Type} : Except Exit α × QStateRegistry → Option (α × QStateRegistry)
  | (.ok a, w) => some (a, w)
  | (.error _, _) => none

/-- The calls of a `QNode` on the registry; `chan` is the channel to a neighbour, which
delivers a qubit as it left or loses it. -/
noncomputable def registryNode (chan : NodeId → NodeId → ChannelId) : QNode QStateRegistry where
  createBellPair := fun node v => returned (v.createBellPair node)
  send := fun node q peer v => some (v.setLocationChannel q (chan node peer))
  receive := fun node q v => some (v.adoptQubit node q)
  measureBell := fun node a c draws v => returned (v.measureBell node a c draws.1 draws.2)
  apply := fun node gate q v => (returned (v.apply node gate [q])).map Prod.snd
  lose := fun q v => some (v.setLocationLost q)

/-! ## Bytes -/

/-- A result of `MeasureBell` as the byte that is sent. -/
def bitByte (m : Bool) : BitVec 8 := BitVec.ofInt 8 (m.toNat : ℤ)

theorem bitByte_xor (m m' : Bool) : bitByte (m ^^ m') = bitByte m ^^^ bitByte m' := by
  cases m <;> cases m' <;> decide

theorem bitByte_ne_zero (m : Bool) : bitByte m ≠ 0 ↔ m = true := by
  cases m <;> decide

/-! ## The invariant -/

/-- What holds of the session at a position of a path with `n + 2` nodes. -/
structure At (w : Setup T) (s : SwapSessionSpec T) (n : ℕ) (hop : ℕ → Option Hop)
    (bits : Outcomes) (i : ℕ) (x : SessionState) : Prop where
  config : ConfigAt w s i x.cfg
  source : i = 0 → x.targetQubit = (hop 0).map Hop.kept
  next : 0 < i → i ≤ n → x.qNext = (hop i).map Hop.kept
  prev : ∀ j, i = j + 1 → x.qPrev = (hop j).bind Hop.taken
  measured : 0 < i → i ≤ n → x.haveBSM = (bits (nodeAt w s i)).isSome

/-- The flags of the sink after the packets of the nodes in `heard`. -/
structure SinkHears (s : SwapSessionSpec T) (bits : Outcomes) (heard : List NodeId)
    (x : SessionState) : Prop where
  haveQ : x.haveQ → x.qPrev.isSome ∧ x.targetQubit = x.qPrev
  recv : x.recv.toNat = heard.length
  haveF : x.haveF → s.path.length ≤ heard.length + 2
  accumM1 : x.accumM1 = bitByte (parity (bitOf Prod.fst bits) heard)
  accumM2 : x.accumM2 = bitByte (parity (bitOf Prod.snd bits) heard)
  done : x.done → x.haveQ ∧ x.haveF

/-- What holds of a session with the sink at position `n + 1`: `node` are the states at
the positions and `heard` the senders of the packets that the sink has processed. -/
structure Chain (w : Setup T) (s : SwapSessionSpec T) (b : QStateBackend) (n : ℕ)
    (dst : Address) (node : ℕ → SessionState) (net : Net QStateRegistry)
    (heard : List NodeId) (hop : ℕ → Option Hop) (bits : Outcomes) : Prop where
  quantum : Quantum w s b hop bits (node (n + 1)).done net.world
  nodes : ∀ i ≤ n + 1, At w s n hop bits i (node i)
  flights : ∀ f ∈ net.qubits, ∃ i h, i ≤ n ∧ hop i = some h ∧ h.stage = .flying ∧
    h.sent = f.q ∧ f.label = .swapIn .prev s.sessionId ∧ f.dst = nodeAt w s (i + 1)
  flightsNodup : (net.qubits.map Flight.q).Nodup
  packets : ∀ pkt ∈ net.packets, pkt.sid = s.sessionId ∧ pkt.dst = dst ∧
    ∃ m, bits pkt.sender = some m ∧ pkt.m1 = bitByte m.1 ∧ pkt.m2 = bitByte m.2
  told : ∀ m ∈ heard, (bits m).isSome
  nodup : (net.packets.map CtrlPacket.sender ++ heard).Nodup
  sink : SinkHears s bits heard (node (n + 1))
  corrected : net.corrected ≠ [] → (node (n + 1)).done

section Session

variable {w : Setup T} {s : SwapSessionSpec T} {b : QStateBackend} {n : ℕ} {dst : Address}
  {node : ℕ → SessionState} {net net' : Net QStateRegistry} {heard : List NodeId}
  {hop hop' : ℕ → Option Hop} {bits bits' : Outcomes} {i k : ℕ} {x x' : SessionState}
  {chan : NodeId → NodeId → ChannelId} {draws : Bool × Bool}

theorem At.congr (h : At w s n hop bits i x)
    (hkept : i ≤ n → (hop' i).map Hop.kept = (hop i).map Hop.kept)
    (htaken : ∀ j, i = j + 1 → (hop' j).bind Hop.taken = (hop j).bind Hop.taken)
    (hbits : 0 < i → i ≤ n →
      (bits' (nodeAt w s i)).isSome = (bits (nodeAt w s i)).isSome) :
    At w s n hop' bits' i x where
  config := h.config
  source := fun hi => by
    subst hi
    rw [h.source rfl, hkept (Nat.zero_le n)]
  next := fun hpos hi => (h.next hpos hi).trans (hkept hi).symm
  prev := fun j hj => (h.prev j hj).trans (htaken j hj).symm
  measured := fun hpos hi => (h.measured hpos hi).trans (hbits hpos hi).symm

/-- The session at one position changes. -/
theorem update_nodes (h : ∀ j ≤ n + 1, j ≠ i → At w s n hop bits j (node j))
    (hx : At w s n hop bits i x) :
    ∀ j ≤ n + 1, At w s n hop bits j (Function.update node i x j) := by
  intro j hj
  by_cases hji : j = i
  · subst hji
    rwa [Function.update_self]
  · rw [Function.update_of_ne hji]
    exact h j hj hji

/-- The repeaters of the path. -/
def repeatersOf (w : Setup T) (s : SwapSessionSpec T) (n : ℕ) : List NodeId :=
  (List.range' 1 n).map (nodeAt w s)

theorem Chain.mem_repeatersOf (h : Chain w s b n dst node net heard hop bits)
    (hn : s.path.length = n + 2) {m : NodeId} (hm : (bits m).isSome) :
    m ∈ repeatersOf w s n := by
  obtain ⟨i, hpos, hlt, rfl⟩ := h.quantum.repeaters m hm
  exact List.mem_map_of_mem (List.mem_range'_1.mpr ⟨hpos, by omega⟩)

/-- A sink that has its frame has heard every repeater once. -/
theorem Chain.heard_perm (h : Chain w s b n dst node net heard hop bits)
    (hn : s.path.length = n + 2) (hF : (node (n + 1)).haveF) :
    heard.Perm (repeatersOf w s n) := by
  have hsub : heard ⊆ repeatersOf w s n := fun m hm => h.mem_repeatersOf hn (h.told m hm)
  refine ((List.nodup_append.mp h.nodup).2.1.subperm hsub).perm_of_length_le ?_
  have hlen := h.sink.haveF hF
  rw [repeatersOf, List.length_map, List.length_range']
  omega

/-- Then every repeater has measured. -/
theorem Chain.all_measured (h : Chain w s b n dst node net heard hop bits)
    (hn : s.path.length = n + 2) (hF : (node (n + 1)).haveF) (hpos : 0 < k)
    (hk : k ≤ n) : (bits (nodeAt w s k)).isSome := by
  refine h.told _ ((h.heard_perm hn hF).mem_iff.mpr (List.mem_map_of_mem ?_))
  exact List.mem_range'_1.mpr ⟨hpos, by omega⟩

/-- The sink's sums are those of the whole chain. -/
theorem Chain.parity_heard (h : Chain w s b n dst node net heard hop bits)
    (hn : s.path.length = n + 2) (hF : (node (n + 1)).haveF) (sel : Bool × Bool → Bool) :
    parity (bitOf sel bits) heard = frame w s sel bits 0 n := by
  rw [parity_perm (h.heard_perm hn hF), repeatersOf, parity_map]
  rfl

/-- A session that is not over has a node that has not measured. -/
theorem Chain.not_done (h : Chain w s b n dst node net heard hop bits)
    (hn : s.path.length = n + 2) (hpos : 0 < k) (hk : k ≤ n)
    (hnone : bits (nodeAt w s k) = none) : (node (n + 1)).done = false := by
  by_contra hdone
  have hF := (h.sink.done (Bool.eq_true_of_not_eq_false hdone)).2
  have := h.all_measured hn hF hpos hk
  rw [hnone] at this
  cases this

/-! ## Making a hop -/

/-- A node makes a pair with the next one; `y` is its session after that. -/
theorem Chain.generate (h : Chain w s b n dst node net heard hop bits) (hw : Distinct w s)
    (hn : s.path.length = n + 2) (hi : hop i = none) (hin : i ≤ n) {kept : QubitPtr}
    (hrun : Swap.generate (registryNode chan) (nodeAt w s i) (node i) .next net =
      some (kept, net')) {y : SessionState} (hcfg : y.cfg = (node i).cfg)
    (hprev : y.qPrev = (node i).qPrev) (hbsm : y.haveBSM = (node i).haveBSM)
    (hsource : i = 0 → y.targetQubit = some kept) (hnext : 0 < i → y.qNext = some kept) :
    ∃ g, Chain w s b n dst (Function.update node i y) net' heard
      (Function.update hop i (some g)) bits := by
  have hat := h.nodes i (by omega)
  have hlt : i + 1 < s.path.length := by omega
  obtain ⟨v₁, hcall, hq⟩ := h.quantum.generate hw hi hlt
    (chan (nodeAt w s i) (nodeAt w s (i + 1)))
  have hpeer : (node i).cfg.nextPeerId = nodeAt w s (i + 1) := by
    rw [hat.config.nextPeerId _ (List.getElem?_eq_getElem hlt), nodeAt,
      List.getD_eq_getElem?_getD, List.getElem?_eq_getElem hlt, Option.getD_some]
  have hnet : kept = net.world.numHandles ∧ net' = { net with
      world := v₁.setLocationChannel (net.world.numHandles + 1)
        (chan (nodeAt w s i) (nodeAt w s (i + 1)))
      qubits := net.qubits ++ [⟨.swapIn .prev s.sessionId, net.world.numHandles + 1,
        nodeAt w s (i + 1)⟩] } := by
    simp only [Swap.generate, registryNode, hcall, returned, Swap.send, Side.other,
      SessionConfig.peerId, hpeer, hat.config.sid, Option.map_some, Option.bind_eq_bind,
      Option.bind_some, Option.pure_def, Option.some.injEq, Prod.mk.injEq] at hrun
    exact ⟨hrun.1.symm, hrun.2.symm⟩
  obtain ⟨rfl, rfl⟩ := hnet
  refine ⟨⟨net.world.numHandles, net.world.numHandles + 1, .flying⟩, ?_⟩
  have hsink : Function.update node i y (n + 1) = node (n + 1) :=
    Function.update_of_ne (by omega) ..
  refine { quantum := hsink ▸ hq, nodes := ?_, flights := fun f hf => ?_
           flightsNodup := ?_, packets := h.packets, told := h.told, nodup := h.nodup
           sink := hsink ▸ h.sink, corrected := hsink ▸ h.corrected }
  · refine update_nodes (fun j hj hji => (h.nodes j hj).congr (fun _ => ?_) (fun k hk => ?_)
      fun _ _ => rfl) ⟨hcfg ▸ hat.config, fun hzero => ?_, fun hpos _ => ?_, fun j hj => ?_,
      fun hpos hle => hbsm.trans (hat.measured hpos hle)⟩
    · rw [Function.update_of_ne hji]
    · -- the qubit has not arrived yet
      by_cases hki : k = i
      · subst hki
        rw [Function.update_self, hi]
        rfl
      · rw [Function.update_of_ne hki]
    · subst hzero
      rw [hsource rfl, Function.update_self]
      rfl
    · rw [hnext hpos, Function.update_self]
      rfl
    · rw [hprev, hat.prev j hj, Function.update_of_ne (by omega)]
  · rcases List.mem_append.mp hf with hf | hf
    · obtain ⟨j, g, hj, hg, hrest⟩ := h.flights f hf
      refine ⟨j, g, hj, ?_, hrest⟩
      rw [Function.update_of_ne]
      · exact hg
      · rintro rfl
        rw [hi] at hg
        cases hg
    · obtain rfl := List.mem_singleton.mp hf
      exact ⟨i, _, hin, Function.update_self .., rfl, rfl, rfl, rfl⟩
  · dsimp only
    rw [List.map_append, List.map_singleton]
    refine List.Nodup.append h.flightsNodup (List.nodup_singleton _) ?_
    rw [List.disjoint_singleton]
    intro hmem
    obtain ⟨f, hf, hfq⟩ := List.mem_map.mp hmem
    obtain ⟨j, g, -, hg, -, hsent, -⟩ := h.flights f hf
    have hold := (h.quantum.lt j g hg).2
    rw [hsent, hfq] at hold
    exact absurd hold (not_lt.mpr (Nat.le_succ _))

/-! ## A Bell measurement -/

/-- A repeater measures its two qubits when it has them, and tells the sink. -/
theorem Chain.measure (h : Chain w s b n dst node net heard hop bits) (hw : Distinct w s)
    (hn : s.path.length = n + 2) (hpos : 0 < i) (hin : i ≤ n)
    (hdst : (node i).cfg.nextEnd w.useIpv6 = dst) (hany : ¬ dst.IsAny)
    (hrun : maybeDoBsmAndAnnounce (registryNode chan) w.useIpv6 (nodeAt w s i) draws
      (node i) net = some (x', net')) :
    ∃ bits', Chain w s b n dst (Function.update node i x') net' heard hop bits' := by
  have hat := h.nodes i (by omega)
  rw [maybeDoBsmAndAnnounce] at hrun
  split at hrun
  next a c hbsm ha hc =>
    obtain ⟨k, rfl⟩ : ∃ k, i = k + 1 := ⟨i - 1, by omega⟩
    have hnone : bits (nodeAt w s (k + 1)) = none := by
      rw [← Option.not_isSome_iff_eq_none, ← hat.measured hpos hin, hbsm]
      exact Bool.false_ne_true
    -- both hops are there
    obtain ⟨g, hg, htaken⟩ := Option.bind_eq_some_iff.mp ((hat.prev k rfl).symm.trans ha)
    obtain ⟨g', hg', rfl⟩ := Option.map_eq_some_iff.mp ((hat.next hpos hin).symm.trans hc)
    rw [Hop.taken] at htaken
    split_ifs at htaken with harr
    obtain rfl := Option.some.inj htaken
    have hdone := h.not_done hn hpos hin hnone
    have hquantum := h.quantum
    rw [hdone] at hquantum
    obtain ⟨m1, m2, v', hcall, hq⟩ :=
      hquantum.swap hw (by omega) hnone hg harr hg' draws.1 draws.2
    simp only [registryNode, hcall, returned, Option.bind_eq_bind, Option.bind_some,
      Option.pure_def, announce, hdst, if_neg hany, hat.config.sid, Option.some.injEq,
      Prod.mk.injEq] at hrun
    obtain ⟨rfl, rfl⟩ := hrun
    refine ⟨Function.update bits (nodeAt w s (k + 1)) (some (m1, m2)), ?_⟩
    have hsink : Function.update node (k + 1) { node (k + 1) with haveBSM := true } (n + 1) =
        node (n + 1) := Function.update_of_ne (by omega) ..
    have hold : ∀ m, (bits m).isSome →
        Function.update bits (nodeAt w s (k + 1)) (some (m1, m2)) m = bits m := by
      intro m hm
      refine Function.update_of_ne ?_ ..
      rintro rfl
      rw [hnone] at hm
      cases hm
    have hsum : ∀ sel, parity (bitOf sel (Function.update bits (nodeAt w s (k + 1))
        (some (m1, m2)))) heard = parity (bitOf sel bits) heard := fun sel =>
      parity_congr fun m hm => by rw [bitOf, bitOf, hold m (h.told m hm)]
    refine { quantum := ?_, nodes := ?_, flights := h.flights
             flightsNodup := h.flightsNodup, packets := fun pkt hp => ?_
             told := fun m hm => ?_, nodup := ?_, sink := ?_
             corrected := hsink ▸ h.corrected }
    · rw [hsink, hdone]
      exact hq
    · refine update_nodes (fun j hj hji => (h.nodes j hj).congr (fun _ => rfl)
        (fun _ _ => rfl) fun _ hle => ?_)
        ⟨hat.config, fun hzero => absurd hzero (Nat.succ_ne_zero k), hat.next, hat.prev,
          fun _ _ => ?_⟩
      · rw [update_nodeAt bits (m1, m2) hw (by omega) (by omega), if_neg hji]
      · rw [Function.update_self]
        rfl
    · rcases List.mem_append.mp hp with hp | hp
      · obtain ⟨hsid, hto, m, hm, hrest⟩ := h.packets pkt hp
        exact ⟨hsid, hto, m, (hold _ (by rw [hm]; rfl)).trans hm, hrest⟩
      · obtain rfl := List.mem_singleton.mp hp
        exact ⟨rfl, rfl, (m1, m2), Function.update_self .., rfl, rfl⟩
    · rw [hold m (h.told m hm)]
      exact h.told m hm
    · dsimp only
      rw [List.map_append, List.map_singleton]
      rw [List.append_assoc, List.singleton_append, List.perm_middle.nodup_iff]
      refine List.nodup_cons.mpr ⟨fun hmem => ?_, h.nodup⟩
      have hsome : (bits (nodeAt w s (k + 1))).isSome := by
        rcases List.mem_append.mp hmem with hmem | hmem
        · obtain ⟨pkt, hp, hsender⟩ := List.mem_map.mp hmem
          obtain ⟨-, -, m, hm, -⟩ := h.packets pkt hp
          have hsender : pkt.sender = nodeAt w s (k + 1) := hsender
          rw [← hsender, hm]
          rfl
        · exact h.told _ hmem
      rw [hnone] at hsome
      cases hsome
    · rw [hsink]
      exact ⟨h.sink.haveQ, h.sink.recv, h.sink.haveF, (hsum _).symm ▸ h.sink.accumM1,
        (hsum _).symm ▸ h.sink.accumM2, h.sink.done⟩
  next =>
    obtain ⟨rfl, rfl⟩ := Prod.mk.inj (Option.some.inj hrun)
    exact ⟨bits, (Function.update_eq_self i node).symm ▸ h⟩

/-! ## A qubit arrives or is lost -/

theorem map_kept_update {g : Hop} (hi : hop i = some g) (stage : Stage) (j : ℕ) :
    (Function.update hop i (some { g with stage := stage }) j).map Hop.kept =
      (hop j).map Hop.kept := by
  by_cases hji : j = i
  · subst hji
    rw [Function.update_self, hi]
    rfl
  · rw [Function.update_of_ne hji]

theorem isSome_update {g : Hop} (hi : hop i = some g) (stage : Stage) (j : ℕ) :
    (Function.update hop i (some { g with stage := stage }) j).isSome = (hop j).isSome := by
  have hkept := congrArg Option.isSome (map_kept_update hi stage j)
  rwa [Option.isSome_map, Option.isSome_map] at hkept

/-- A qubit is no longer on its way: what is left is to say what the nodes make of it. -/
theorem Chain.settle (h : Chain w s b n dst node net heard hop bits) {f : Flight}
    (hk : net.qubits[k]? = some f) (stage : Stage) (loc : Location)
    (hstage : stage ≠ .flying) (hloc : stage = .arrived → loc = .node f.dst) :
    ∃ i g, i ≤ n ∧ hop i = some g ∧ g.stage = .flying ∧ g.sent = f.q ∧
      f.label = .swapIn .prev s.sessionId ∧ f.dst = nodeAt w s (i + 1) ∧
      ∀ node' : ℕ → SessionState,
        (∀ j ≤ n + 1, At w s n (Function.update hop i (some { g with stage := stage })) bits
          j (node' j)) →
        (node' (n + 1)).done = (node (n + 1)).done →
        SinkHears s bits heard (node' (n + 1)) →
        Chain w s b n dst node' { net with
            world := net.world.setLocation f.q loc, qubits := net.qubits.eraseIdx k }
          heard (Function.update hop i (some { g with stage := stage })) bits := by
  obtain ⟨i, g, hin, hg, hfly, hsent, hlabel, hdst⟩ := h.flights f (List.mem_of_getElem? hk)
  refine ⟨i, g, hin, hg, hfly, hsent, hlabel, hdst, fun node' hnodes hdone hsink => ?_⟩
  have hq := h.quantum.settle hg hfly hstage fun harr => (hloc harr).trans (by rw [hdst])
  rw [← hsent]
  refine { quantum := hdone ▸ hq, nodes := hnodes, flights := fun f' hf' => ?_
           flightsNodup := ?_, packets := h.packets, told := h.told, nodup := h.nodup
           sink := hsink, corrected := fun hc => hdone ▸ h.corrected hc }
  · have hne := ne_of_mem_eraseIdx h.flightsNodup hk hf'
    obtain ⟨j, g', hj, hg', hfly', hsent', hrest⟩ := h.flights f'
      ((List.eraseIdx_sublist ..).mem hf')
    refine ⟨j, g', hj, ?_, hfly', hsent', hrest⟩
    rw [Function.update_of_ne]
    · exact hg'
    · rintro rfl
      obtain rfl := Option.some.inj (hg.symm.trans hg')
      exact hne (hsent'.symm.trans hsent)
  · exact h.flightsNodup.sublist ((List.eraseIdx_sublist ..).map _)

/-- A qubit is lost. -/
theorem Chain.lose (h : Chain w s b n dst node net heard hop bits) {f : Flight}
    (hk : net.qubits[k]? = some f) :
    ∃ hop', Chain w s b n dst node { net with
        world := net.world.setLocationLost f.q, qubits := net.qubits.eraseIdx k }
      heard hop' bits ∧ ∀ j, (hop' j).isSome = (hop j).isSome := by
  obtain ⟨i, g, -, hg, hfly, -, -, -, hchain⟩ :=
    h.settle hk .lost .lost nofun nofun
  refine ⟨_, hchain node (fun j hj => (h.nodes j hj).congr
    (fun _ => map_kept_update hg .lost j) (fun m hm => ?_) fun _ _ => rfl) rfl h.sink,
    isSome_update hg .lost⟩
  by_cases hmi : m = i
  · subst hmi
    rw [Function.update_self, hg, Option.bind_some, Option.bind_some, Hop.taken, Hop.taken,
      hfly]
    rfl
  · rw [Function.update_of_ne hmi]

/-- A qubit on its way is not lost, so the node that it reaches adopts it. -/
theorem Quantum.adopt {done : Bool} {v : QStateRegistry} (h : Quantum w s b hop bits done v)
    {g : Hop} (hg : hop i = some g) (hfly : g.stage = .flying) (m : NodeId) :
    v.adoptQubit m g.sent = v.setLocation g.sent (.node m) := by
  have hlost := h.flying i g hg hfly
  rw [adoptQubit, if_neg (not_le.mpr (h.lt i g hg).2), if_neg hlost, setLocationNode,
    if_neg hlost]

/-- A node takes a qubit that arrives. -/
theorem Chain.take (h : Chain w s b n dst node net heard hop bits) {f : Flight}
    (hk : net.qubits[k]? = some f) :
    ∃ i hop', i ≤ n ∧ f.label = .swapIn .prev s.sessionId ∧ f.dst = nodeAt w s (i + 1) ∧
      Chain w s b n dst
        (Function.update node (i + 1) ((node (i + 1)).takeLink f.q .prev)) { net with
          world := net.world.adoptQubit f.dst f.q, qubits := net.qubits.eraseIdx k }
        heard hop' bits ∧ ∀ j, (hop' j).isSome = (hop j).isSome := by
  obtain ⟨i, g, hin, hg, hfly, hsent, hlabel, hdst, hchain⟩ :=
    h.settle hk .arrived (.node f.dst) (by decide) fun _ => rfl
  have hadopt := h.quantum.adopt hg hfly f.dst
  rw [hsent] at hadopt
  have hat := h.nodes (i + 1) (by omega)
  have hprev : (node (i + 1)).qPrev = none := by
    rw [hat.prev i rfl, hg, Option.bind_some, Hop.taken, hfly]
    rfl
  have htake : (node (i + 1)).takeLink f.q .prev =
      { node (i + 1) with qPrev := some f.q } := by
    have hlink : ((node (i + 1)).link .prev).isNone := Option.isNone_iff_eq_none.mpr hprev
    rw [SessionState.takeLink, if_pos hlink]
    rfl
  refine ⟨i, Function.update hop i (some { g with stage := .arrived }), hin, hlabel, hdst,
    ?_, isSome_update hg .arrived⟩
  rw [hadopt, htake]
  refine hchain _ (update_nodes (fun j hj hji =>
    (h.nodes j hj).congr (fun _ => map_kept_update hg .arrived j) (fun m hm => ?_)
      fun _ _ => rfl) ⟨hat.config, fun hzero => absurd hzero (Nat.succ_ne_zero i),
        fun hpos hle => ?_, fun m hm => ?_, hat.measured⟩) ?_ ?_
  · rw [Function.update_of_ne (by omega)]
  · exact (hat.next hpos hle).trans (map_kept_update hg .arrived (i + 1)).symm
  · obtain rfl := Nat.succ_injective hm
    rw [Function.update_self, ← hsent]
    rfl
  · by_cases hlast : n = i
    · subst hlast
      rw [Function.update_self]
    · rw [Function.update_of_ne (by omega)]
  · by_cases hlast : n = i
    · subst hlast
      rw [Function.update_self]
      have hQ : ¬ (node (n + 1)).haveQ := fun hQ => by
        have := (h.sink.haveQ hQ).1
        rw [hprev] at this
        cases this
      exact ⟨fun hh => absurd hh hQ, h.sink.recv, h.sink.haveF, h.sink.accumM1,
        h.sink.accumM2, h.sink.done⟩
    · rw [Function.update_of_ne (by omega)]
      exact h.sink

/-! ## The correction -/

/-- A correction acts on the pair if its bit is set. -/
theorem correctIf_pair (chan : NodeId → NodeId → ChannelId) {v : QStateRegistry}
    (hv : v.Inv) (kind : QGateKind) (hkind : kind ≠ .Custom) (harity : kind.arity = 1) {U : CMat}
    (hU : matrixOf kind = .ok U) {p q : QubitPtr} {F G : (QubitPtr → Bool × Bool) → ℂ}
    (hg : v.Group b {p, q} F) {m : NodeId} (hlocal : v.IsLocal m q)
    (hact : actOn (conjBy (U.kernel 1)) ![q] F = G) (bit : Bool) :
    ∃ v', correctIf (registryNode chan) m (.builtin kind) (bitByte bit) q v = some v' ∧
      v.KeepsBut v' [q] ∧ v'.defaultBackend = v.defaultBackend ∧
      (∀ z, v'.getLocation z = v.getLocation z) ∧
      v'.Group b {p, q} (if bit then G else F) := by
  rw [correctIf]
  split_ifs with hbit hset hset
  · obtain ⟨v', hcall, hg'⟩ := hv.apply_pair hkind harity hU hg hlocal hact
    have hkeeps := hv.apply_keepsBut m (.builtin kind) [q]
    have hback := hv.apply_backend m (.builtin kind) [q]
    have hloc := hv.apply_getLocation m (.builtin kind) [q]
    rw [hcall] at hkeeps hback hloc
    refine ⟨v', ?_, hkeeps, hback, hloc, hg'⟩
    simp only [registryNode, hcall, returned, Option.map_some]
  · exact absurd ((bitByte_ne_zero bit).mp hbit) hset
  · exact absurd ((bitByte_ne_zero bit).mpr hset) hbit
  · exact ⟨v, rfl, hv.keepsBut [q], rfl, fun _ => rfl, hg⟩

/-- The last correction: every repeater has measured, and the sink has its qubit. -/
theorem Quantum.correct {v : QStateRegistry} (h : Quantum w s b hop bits false v)
    (chan : NodeId → NodeId → ChannelId)
    (hw : Distinct w s) (hn : s.path.length = n + 2)
    (hall : ∀ k, 0 < k → k ≤ n → (bits (nodeAt w s k)).isSome) {g : Hop}
    (hg : hop n = some g) (harr : g.stage = .arrived) :
    ∃ v₁ v₂, correctIf (registryNode chan) (nodeAt w s (n + 1)) (.builtin .X)
        (bitByte (frame w s Prod.snd bits 0 n)) g.sent v = some v₁ ∧
      correctIf (registryNode chan) (nodeAt w s (n + 1)) (.builtin .Z)
        (bitByte (frame w s Prod.fst bits 0 n)) g.sent v₁ = some v₂ ∧
      Quantum w s b hop bits true v₂ := by
  have hfirst := h.not_end hw (i := 0) (by omega) (.inl rfl)
  have hlast := h.not_end hw (i := n + 1) (by omega) (.inr (by omega))
  have hjoin : Joined w s bits 0 n :=
    ⟨Nat.zero_le n, by omega, hfirst, hlast, fun k hpos hk => hall k hpos hk⟩
  obtain ⟨p, hp⟩ := Option.isSome_iff_exists.mp (h.hop_left hjoin (by rw [hg]; rfl))
  have hpair := h.segments 0 n p g hjoin hp hg
  simp only [Bool.not_false, Bool.true_and] at hpair
  have hne : p.kept ≠ g.sent := (h.apart 0 n p g hp hg).1
  have hlocal := h.arrived n g hg harr hlast
  obtain ⟨v₁, hX, hk₁, hb₁, hl₁, hg₁⟩ := correctIf_pair chan h.inv .X nofun rfl rfl
    hpair hlocal (actOn_X_bellPair _ _ hne) (frame w s Prod.snd bits 0 n)
  have hg₁' : v₁.Group b {p.kept, g.sent}
      (bellPair (frame w s Prod.fst bits 0 n) false p.kept g.sent) := by
    cases hbit : frame w s Prod.snd bits 0 n <;> simpa [hbit] using hg₁
  obtain ⟨v₂, hZ, hk₂, hb₂, hl₂, hg₂⟩ := correctIf_pair chan hk₁.keeps.inv .Z nofun
    rfl rfl hg₁' ((hl₁ g.sent).trans hlocal) (actOn_Z_bellPair _ _ _ _)
    (frame w s Prod.fst bits 0 n)
  have hg₂' : v₂.Group b {p.kept, g.sent} (bellPair false false p.kept g.sent) := by
    cases hbit : frame w s Prod.fst bits 0 n <;> simpa [hbit] using hg₂
  have hloc : ∀ z, v₂.getLocation z = v.getLocation z := fun z => (hl₂ z).trans (hl₁ z)
  have hgrow := hk₁.keeps.evolves.handles.trans hk₂.keeps.evolves.handles
  refine ⟨v₁, v₂, hX, hZ, ?_⟩
  refine { inv := hk₂.keeps.inv, backend := hb₂.trans (hb₁.trans h.backend)
           lt := fun i x hx => ⟨(h.lt i x hx).1.trans_le hgrow, (h.lt i x hx).2.trans_le hgrow⟩
           apart := h.apart, kept := fun i x hx hb => (hloc _).trans (h.kept i x hx hb)
           flying := fun i x hx hfly => by
             rw [hloc]
             exact h.flying i x hx hfly
           arrived := fun i x hx harr hb => (hloc _).trans (h.arrived i x hx harr hb)
           repeaters := h.repeaters, links := h.links
           segments := fun i j x y hij hx hy => ?_ }
  -- the only segment is the whole chain
  have hle := hij.le
  have hlt := hij.lt
  have hi : i = 0 := by
    by_contra hne
    have := hall i (Nat.pos_of_ne_zero hne) (by omega)
    rw [hij.left] at this
    cases this
  have hj : j = n := by
    by_contra hne
    have := hall (j + 1) (Nat.succ_pos j) (by omega)
    rw [hij.right] at this
    cases this
  subst hi hj
  obtain rfl := Option.some.inj (hp.symm.trans hx)
  obtain rfl := Option.some.inj (hg.symm.trans hy)
  exact hg₂'

/-! ## The sink -/

theorem Chain.atSink (h : Chain w s b n dst node net heard hop bits) {y : SessionState}
    (hcfg : y.cfg = (node (n + 1)).cfg) (hprev : y.qPrev = (node (n + 1)).qPrev) :
    ∀ j ≤ n + 1, At w s n hop bits j (Function.update node (n + 1) y j) :=
  have hat := h.nodes (n + 1) le_rfl
  update_nodes (fun j hj _ => h.nodes j hj) ⟨hcfg ▸ hat.config, nofun,
    fun _ hle => absurd hle (Nat.not_succ_le_self n),
    fun j hj => hprev.trans (hat.prev j hj),
    fun _ hle => absurd hle (Nat.not_succ_le_self n)⟩

/-- The sink corrects when it has its qubit and its frame. -/
theorem Chain.tryApply (h : Chain w s b n dst node net heard hop bits) (hw : Distinct w s)
    (hn : s.path.length = n + 2)
    (hrun : Swap.tryApply (registryNode chan) (nodeAt w s (n + 1)) (node (n + 1)) net =
      some (x', net')) :
    Chain w s b n dst (Function.update node (n + 1) x') net' heard hop bits := by
  have hat := h.nodes (n + 1) le_rfl
  have hcorrects := hat.config.corrects.mpr hn.symm
  rw [Swap.tryApply, if_neg (not_not.mpr hcorrects)] at hrun
  split_ifs at hrun with hskip
  · obtain ⟨rfl, rfl⟩ := Prod.mk.inj (Option.some.inj hrun)
    rwa [Function.update_eq_self]
  · rw [not_or, not_or, not_not, not_not] at hskip
    obtain ⟨hd, hQ, hF⟩ := hskip
    have hdone : (node (n + 1)).done = false := Bool.eq_false_iff.mpr hd
    -- its qubit is the second half of the last hop
    obtain ⟨hsome, htarget⟩ := h.sink.haveQ hQ
    obtain ⟨q, hq⟩ := Option.isSome_iff_exists.mp hsome
    obtain ⟨g, hg, htaken⟩ := Option.bind_eq_some_iff.mp ((hat.prev n rfl).symm.trans hq)
    rw [Hop.taken] at htaken
    split_ifs at htaken with harr
    obtain rfl := Option.some.inj htaken
    rw [hq] at htarget
    simp only [htarget] at hrun
    obtain ⟨v₁, hX, hrun⟩ := Option.bind_eq_some_iff.mp hrun
    obtain ⟨v₂, hZ, hrun⟩ := Option.bind_eq_some_iff.mp hrun
    obtain ⟨rfl, rfl⟩ := Prod.mk.inj (Option.some.inj hrun)
    rw [h.sink.accumM2, h.parity_heard hn hF] at hX
    rw [h.sink.accumM1, h.parity_heard hn hF] at hZ
    have hquantum := h.quantum
    rw [hdone] at hquantum
    obtain ⟨u₁, u₂, hX', hZ', hcorrect⟩ := hquantum.correct chan hw hn
      (fun k hpos hk => h.all_measured hn hF hpos hk) hg harr
    obtain rfl := Option.some.inj (hX'.symm.trans hX)
    obtain rfl := Option.some.inj (hZ'.symm.trans hZ)
    refine { quantum := ?_, nodes := h.atSink rfl rfl, flights := h.flights
             flightsNodup := h.flightsNodup, packets := h.packets, told := h.told
             nodup := h.nodup, sink := ?_, corrected := fun _ => ?_ }
    · rw [Function.update_self]
      exact hcorrect
    · rw [Function.update_self]
      exact ⟨fun _ => ⟨hsome, hq.symm⟩, h.sink.recv, h.sink.haveF,
        h.sink.accumM1, h.sink.accumM2, fun _ => ⟨hQ, hF⟩⟩
    · rw [Function.update_self]

/-- The qubit that has arrived at the sink is its final one. -/
theorem Chain.keepFinalQubit (h : Chain w s b n dst node net heard hop bits)
    (hw : Distinct w s) (hn : s.path.length = n + 2) (hsome : (node (n + 1)).qPrev.isSome)
    (hrun : Swap.keepFinalQubit (registryNode chan) (nodeAt w s (n + 1)) .prev
      (node (n + 1)) net = some (x', net')) :
    Chain w s b n dst (Function.update node (n + 1) x') net' heard hop bits := by
  rw [Swap.keepFinalQubit] at hrun
  split_ifs at hrun with hguard
  · let y : SessionState := { node (n + 1) with
      targetQubit := (node (n + 1)).qPrev, haveQ := true }
    have hy : Chain w s b n dst (Function.update node (n + 1) y) net heard hop bits := by
      refine { quantum := ?_, nodes := h.atSink rfl rfl, flights := h.flights
               flightsNodup := h.flightsNodup, packets := h.packets, told := h.told
               nodup := h.nodup, sink := ?_, corrected := fun hc => ?_ }
      · rw [Function.update_self]
        exact h.quantum
      · rw [Function.update_self]
        exact ⟨fun _ => ⟨hsome, rfl⟩, h.sink.recv, h.sink.haveF, h.sink.accumM1,
          h.sink.accumM2, fun hd => ⟨rfl, (h.sink.done hd).2⟩⟩
      · rw [Function.update_self]
        exact h.corrected hc
    dsimp only at hrun
    split_ifs at hrun with hF
    · have hrun' : Swap.tryApply (registryNode chan) (nodeAt w s (n + 1))
          (Function.update node (n + 1) y (n + 1)) net = some (x', net') := by
        rw [Function.update_self]
        exact hrun
      have happly := hy.tryApply hw hn hrun'
      rwa [Function.update_idem] at happly
    · obtain ⟨rfl, rfl⟩ := Prod.mk.inj (Option.some.inj hrun)
      exact hy
  · obtain ⟨rfl, rfl⟩ := Prod.mk.inj (Option.some.inj hrun)
    rwa [Function.update_eq_self]

/-- The sink hears a repeater. -/
theorem Chain.hear (h : Chain w s b n dst node net heard hop bits) (hw : Distinct w s)
    (hn : s.path.length = n + 2) (hlong : s.path.length ≤ 2 ^ 32) {pkt : CtrlPacket}
    (hk : net.packets[k]? = some pkt)
    (hrun : onCtrlRx (registryNode chan) (nodeAt w s (n + 1)) pkt.m1 pkt.m2 (node (n + 1))
      { net with packets := net.packets.eraseIdx k } = some (x', net')) :
    Chain w s b n dst (Function.update node (n + 1) x') net' (heard ++ [pkt.sender]) hop
      bits := by
  have hat := h.nodes (n + 1) le_rfl
  obtain ⟨-, -, m, hm, hm1, hm2⟩ := h.packets pkt (List.mem_of_getElem? hk)
  have hnodup : ((net.packets.eraseIdx k).map CtrlPacket.sender ++
      (heard ++ [pkt.sender])).Nodup := by
    have hperm := (((cons_eraseIdx_perm hk).map CtrlPacket.sender).append_right heard).nodup_iff
    rw [← List.append_assoc, (List.perm_append_singleton ..).nodup_iff]
    exact hperm.mpr h.nodup
  have htold : ∀ z ∈ heard ++ [pkt.sender], (bits z).isSome := by
    intro z hz
    rcases List.mem_append.mp hz with hz | hz
    · exact h.told z hz
    · rw [List.mem_singleton.mp hz, hm]
      rfl
  have hle : heard.length + 1 ≤ n := by
    have hsub : heard ++ [pkt.sender] ⊆ repeatersOf w s n := fun z hz =>
      h.mem_repeatersOf hn (htold z hz)
    have hlen := ((List.nodup_append.mp hnodup).2.1.subperm hsub).length_le
    rwa [List.length_append, List.length_singleton, repeatersOf, List.length_map,
      List.length_range'] at hlen
  have hrecv : ((node (n + 1)).recv + 1).toNat = heard.length + 1 := by
    have hlt : heard.length + 1 < 2 ^ 32 := by omega
    rw [BitVec.toNat_add, h.sink.recv]
    exact Nat.mod_eq_of_lt hlt
  have hsum : ∀ sel, bitByte (parity (bitOf sel bits) (heard ++ [pkt.sender])) =
      bitByte (parity (bitOf sel bits) heard) ^^^ bitByte (sel m) := by
    intro sel
    rw [parity_append, parity, parity, Bool.xor_false, bitOf, hm, bitByte_xor]
    rfl
  have hcount : (heard ++ [pkt.sender]).length = heard.length + 1 :=
    List.length_append.trans rfl
  let y (f : Bool) : SessionState := { node (n + 1) with
    accumM1 := (node (n + 1)).accumM1 ^^^ pkt.m1
    accumM2 := (node (n + 1)).accumM2 ^^^ pkt.m2
    recv := (node (n + 1)).recv + 1
    haveF := f }
  have hchain : ∀ f : Bool, (f → n ≤ heard.length + 1) → ((node (n + 1)).haveF → f) →
      Chain w s b n dst (Function.update node (n + 1) (y f))
        { net with packets := net.packets.eraseIdx k } (heard ++ [pkt.sender]) hop bits := by
    intro f hf hF
    refine { quantum := ?_, nodes := h.atSink rfl rfl, flights := h.flights
             flightsNodup := h.flightsNodup, packets := fun pkt' hp => ?_, told := htold
             nodup := hnodup, sink := ?_, corrected := fun hc => ?_ }
    · rw [Function.update_self]
      exact h.quantum
    · exact h.packets pkt' ((List.eraseIdx_sublist ..).mem hp)
    · rw [Function.update_self]
      refine ⟨h.sink.haveQ, hrecv.trans hcount.symm, fun hh => ?_, ?_, ?_, fun hd =>
        ⟨(h.sink.done hd).1, hF (h.sink.done hd).2⟩⟩
      · have := hf hh
        omega
      · rw [hsum, ← hm1, ← h.sink.accumM1]
      · rw [hsum, ← hm2, ← h.sink.accumM2]
    · rw [Function.update_self]
      exact h.corrected hc
  have hexpected : (node (n + 1)).cfg.expectedMsgs = n := by
    rw [hat.config.expected hn.symm, repeaterCount, hn, Nat.add_sub_cancel]
    exact Nat.mod_eq_of_lt (by omega)
  rw [onCtrlRx] at hrun
  dsimp only at hrun
  rw [hexpected, hrecv] at hrun
  split_ifs at hrun with hall
  · have hrun' : Swap.tryApply (registryNode chan) (nodeAt w s (n + 1))
        (Function.update node (n + 1) (y true) (n + 1))
        { net with packets := net.packets.eraseIdx k } = some (x', net') := by
      rw [Function.update_self]
      exact hrun
    have happly := (hchain true (fun _ => hall) fun _ => rfl).tryApply hw hn hrun'
    rwa [Function.update_idem] at happly
  · obtain ⟨rfl, rfl⟩ := Prod.mk.inj (Option.some.inj hrun)
    refine hchain _ (fun hF => ?_) id
    have := h.sink.haveF hF
    omega

end Session

end Q2NS.Swap
