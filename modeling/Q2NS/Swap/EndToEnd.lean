import Q2NS.RegistryInvariant
import Q2NS.Swap.Delivery

/-!
# End-to-end entanglement

A session that is deployed alone on the registry: the invariant over its runs, and the
pair that is left when its sink has been corrected.
-/

namespace Q2NS.Swap

open QStateRegistry InFlight NamedTensor QuadForm

variable {T : Type} {w : Setup T} {s : SwapSessionSpec T} {b : QStateBackend} {n : ℕ}
  {dst : Address} {node : ℕ → SessionState} {net net' : Net QStateRegistry}
  {heard : List NodeId} {hop : ℕ → Option Hop} {bits : Outcomes} {i k : ℕ}
  {x x' : SessionState} {chan : NodeId → NodeId → ChannelId} {draws : Bool × Bool}

/-! ## Starts and arrivals -/

/-- A repeater or the source starts. -/
theorem Chain.start (h : Chain w s b n dst node net heard hop bits) (hw : Distinct w s)
    (hn : s.path.length = n + 2) (hi : hop i = none) (hin : i ≤ n)
    (hdst : 0 < i → (node i).cfg.nextEnd w.useIpv6 = dst) (hany : ¬ dst.IsAny)
    (hrun : startSession (registryNode chan) w.useIpv6 (nodeAt w s i) draws (node i) net =
      some (x', net')) :
    ∃ g bits', Chain w s b n dst (Function.update node i x') net' heard
      (Function.update hop i (some g)) bits' := by
  have hconfig := (h.nodes i (by omega)).config
  have hnext := hconfig.genNext (by omega)
  rcases Nat.eq_zero_or_pos i with rfl | hpos
  · have hrole : (node 0).cfg.role = .prev := hconfig.role.trans (if_pos rfl)
    obtain ⟨kept, hpair, rfl⟩ := startSession_source hrole hnext hrun
    obtain ⟨g, hg⟩ := h.generate hw hn hi hin hpair (y := { node 0 with
      targetQubit := some kept, haveQ := true }) rfl rfl rfl (fun _ => rfl) nofun
    exact ⟨g, bits, hg⟩
  · have hrole : (node i).cfg.role = .repeater := by
      rw [hconfig.role, if_neg hpos.ne', if_neg (by omega)]
    obtain ⟨kept, mid, hpair, hbsm⟩ := startSession_repeater hrole hconfig.genPrev hnext hrun
    obtain ⟨g, hg⟩ := h.generate hw hn hi hin hpair (y := (node i).setLink kept .next)
      rfl rfl rfl (fun hzero => absurd hzero hpos.ne') fun _ => rfl
    rw [← Function.update_self i ((node i).setLink kept .next) node] at hbsm
    obtain ⟨bits', hm⟩ := hg.measure hw hn hpos hin
      (by rw [Function.update_self]; exact hdst hpos) hany hbsm
    rw [Function.update_idem] at hm
    exact ⟨g, bits', hm⟩

/-- A qubit arrives at a repeater or at the sink. -/
theorem Chain.arrive (h : Chain w s b n dst node net heard hop bits)
    (chan : NodeId → NodeId → ChannelId) (draws : Bool × Bool) (hw : Distinct w s)
    (hn : s.path.length = n + 2) {f : Flight} (hk : net.qubits[k]? = some f)
    (hnextEnd : ∀ j, 0 < j → j ≤ n → (node j).cfg.nextEnd w.useIpv6 = dst)
    (hany : ¬ dst.IsAny) :
    ∃ i, i ≤ n ∧ f.label = .swapIn .prev s.sessionId ∧ f.dst = nodeAt w s (i + 1) ∧
      ∀ x' net', Swap.arrive (registryNode chan) w.useIpv6 f.dst .prev f.q draws
          (node (i + 1)) { net with
            world := net.world.adoptQubit f.dst f.q, qubits := net.qubits.eraseIdx k } =
          some (x', net') →
        ∃ hop' bits', Chain w s b n dst (Function.update node (i + 1) x') net' heard hop'
          bits' ∧ ∀ j, (hop' j).isSome = (hop j).isSome := by
  obtain ⟨i, hop', hin, hlabel, hdst, htake, hsome⟩ := h.take hk
  refine ⟨i, hin, hlabel, hdst, fun x' net' hrun => ?_⟩
  have hconfig := (h.nodes (i + 1) (by omega)).config
  by_cases hlast : i = n
  · subst hlast
    have hrole : (node (i + 1)).cfg.role = .next := by
      rw [hconfig.role, if_neg (Nat.succ_ne_zero i), if_pos hn.symm]
    rw [arrive_of_sink hrole,
      ← Function.update_self (i + 1) ((node (i + 1)).takeLink f.q .prev) node] at hrun
    rw [hdst] at htake hrun
    have hkeep := htake.keepFinalQubit hw hn
      (by rw [Function.update_self]; exact (takeLink_spec _ _).2.2.2) hrun
    rw [Function.update_idem] at hkeep
    exact ⟨hop', bits, hkeep, hsome⟩
  · have hrole : (node (i + 1)).cfg.role = .repeater := by
      rw [hconfig.role, if_neg (Nat.succ_ne_zero i), if_neg (by omega)]
    rw [arrive_of_repeater hrole,
      ← Function.update_self (i + 1) ((node (i + 1)).takeLink f.q .prev) node] at hrun
    rw [hdst] at htake hrun
    obtain ⟨bits', hm⟩ := htake.measure hw hn (Nat.succ_pos i) (by omega)
      (by rw [Function.update_self, (takeLink_spec _ _).1]
          exact hnextEnd (i + 1) (Nat.succ_pos i) (by omega)) hany hrun
    rw [Function.update_idem] at hm
    exact ⟨hop', bits', hm, hsome⟩

/-! ## States -/

/-- The session is at the nodes of its path and nowhere else. -/
structure Holds (w : Setup T) (nodes : List String) (s : SwapSessionSpec T)
    (node : ℕ → SessionState) {W : Type} (st : State W) : Prop where
  apps : ∀ name, (st.apps name).isSome → name ∈ nodes
  known : ∀ name sid, (st.session name sid).isSome → sid = s.sessionId ∧ name ∈ s.path
  held : ∀ i name, s.path[i]? = some name → st.session name s.sessionId = some (node i)

theorem nodeAt_eq {name : String} (hi : s.path[i]? = some name) :
    nodeAt w s i = w.nodeId name := by
  rw [nodeAt, List.getD_eq_getElem?_getD, hi, Option.getD_some]

/-- A handler runs for the session at a node of its path. -/
theorem Holds.onSession {W : Type} {nodes : List String} {st₀ st st' : State W}
    (h : Holds w nodes s node st₀) (hnodup : s.path.Nodup) {name : String}
    (hi : s.path[i]? = some name)
    {handler : SessionState → Net W → Option (SessionState × Net W)}
    (hs : st.onSession name s.sessionId handler = some st') (happs : st.apps = st₀.apps) :
    ∃ x', handler (node i) st.net = some (x', st'.net) ∧ st'.started = st.started ∧
      st'.heard = st.heard ∧ Holds w nodes s (Function.update node i x') st' := by
  replace h : Holds w nodes s node st :=
    ⟨happs ▸ h.apps, by simpa only [State.session, happs] using h.known,
      by simpa only [State.session, happs] using h.held⟩
  have hheld := h.held i name hi
  obtain ⟨hnone, -⟩ | ⟨x, x', hx, hrun, hstarted, hheard, hsession⟩ := onSession_cases hs
  · rw [hheld] at hnone
    cases hnone
  · obtain rfl := Option.some.inj (hheld.symm.trans hx)
    refine ⟨x', hrun, hstarted, hheard, fun name' hsome =>
      h.apps name' (onSession_apps hs name' hsome), fun name' sid' hsome => ?_,
      fun j name' hj => ?_⟩
    · rw [hsession] at hsome
      split_ifs at hsome with hsame
      · exact ⟨hsame.2, hsame.1 ▸ List.mem_of_getElem? hi⟩
      · exact h.known name' sid' hsome
    · rw [hsession]
      by_cases hji : j = i
      · subst hji
        obtain rfl := Option.some.inj (hi.symm.trans hj)
        rw [if_pos ⟨rfl, rfl⟩, Function.update_self]
      · rw [if_neg, Function.update_of_ne hji]
        · exact h.held j name' hj
        · rintro ⟨rfl, -⟩
          exact hji (position_unique hnodup hj hi)

/-! ## Runs -/

/-- The invariant of a session that is deployed alone. -/
def Alone (w : Setup T) (nodes : List String) (s : SwapSessionSpec T) (b : QStateBackend)
    (n : ℕ) (sink : String) (st : State QStateRegistry) : Prop :=
  ∃ node hop bits, Holds w nodes s node st ∧
    Chain w s b n (addressOf w sink) node st.net (st.heardOf s.sessionId) hop bits ∧
    ∀ i name, s.path[i]? = some name → i ≤ n → (hop i).isSome →
      (name, s.sessionId) ∈ st.started

section Runs

variable {nodes : List String} {sink : String} {st st' : State QStateRegistry}
  {apps : Apps}

theorem Deployed.distinct (hd : Deployed w nodes [s]) : Distinct w s := by
  have hs := List.mem_singleton_self s
  intro i hi j hj he
  have hname := List.getElem?_eq_getElem hi
  have hname' := List.getElem?_eq_getElem hj
  rw [nodeAt_eq hname, nodeAt_eq hname'] at he
  have hsame := hd.injOn hs _ (List.mem_of_getElem? hname) _ (List.mem_of_getElem? hname') he
  exact position_unique (hd.nodup s hs) hname (hsame ▸ hname')

theorem Chain.nextEnd (h : Chain w s b n dst node net heard hop bits)
    (hn : s.path.length = n + 2) (hsink : s.path.getLast? = some sink) :
    ∀ j, 0 < j → j ≤ n → (node j).cfg.nextEnd w.useIpv6 = addressOf w sink :=
  fun j hpos hj =>
    (h.nodes j (by omega)).config.nextEnd hpos.ne' (by omega) sink hsink

/-- Before the first event there is no pair. -/
theorem alone_init (hd : Deployed w nodes [s])
    (hinst : installUnifiedApps w (bindApps nodes) [s] = some apps)
    (hn : s.path.length = n + 2) {world : QStateRegistry} (hworld : world.Inv) :
    Alone w nodes s world.defaultBackend n sink
      { net := { world := world }, apps := apps } := by
  have hs := List.mem_singleton_self s
  have hfresh : ∀ i, ∃ x : SessionState, ∀ name, s.path[i]? = some name →
      State.session { net := ({ world := world } : Net QStateRegistry), apps := apps } name
        s.sessionId = some x ∧ ∃ cfg, ConfigAt w s i cfg ∧ x = { cfg := cfg } := by
    intro i
    cases hi : s.path[i]? with
    | none => exact ⟨{ cfg := prevConfig w s "" }, nofun⟩
    | some name =>
        obtain ⟨cfg, hcfg, hx⟩ := (session_of_installed hd hinst hs).1 i hi
        refine ⟨{ cfg := cfg }, fun name' hname => ?_⟩
        obtain rfl := Option.some.inj hname
        exact ⟨hx, cfg, hcfg, rfl⟩
  choose node hnode using hfresh
  have hat : ∀ i ≤ n + 1, ∃ cfg, ConfigAt w s i cfg ∧ node i = { cfg := cfg } := fun i hi =>
    (hnode i _ (List.getElem?_eq_getElem (by omega))).2
  refine ⟨node, fun _ => none, fun _ => none, ⟨fun name hname =>
      mem_nodes_of_installed hd hinst hname, fun name sid hsome => ?_,
      fun i name hi => (hnode i name hi).1⟩,
    { quantum := ?_, nodes := fun i hi => ?_, flights := nofun
      flightsNodup := List.nodup_nil, packets := nofun, told := nofun
      nodup := List.nodup_nil, sink := ?_, corrected := fun hne => absurd rfl hne },
    fun _ _ _ _ hsome => nomatch hsome⟩
  · obtain ⟨t, ht, hid, hname⟩ := known_of_installed hd hinst hsome
    obtain rfl := List.mem_singleton.mp ht
    exact ⟨hid.symm, hname⟩
  · obtain ⟨cfg, -, hx⟩ := hat (n + 1) le_rfl
    rw [hx]
    exact quantum_init hworld
  · obtain ⟨cfg, hcfg, hx⟩ := hat i hi
    rw [hx]
    exact ⟨hcfg, fun _ => rfl, fun _ _ => rfl, fun _ _ => rfl, fun _ _ => rfl⟩
  · obtain ⟨cfg, -, hx⟩ := hat (n + 1) le_rfl
    rw [hx]
    exact ⟨nofun, rfl, nofun, rfl, rfl, nofun⟩

/-- Every event keeps the invariant. -/
theorem Alone.step (h : Alone w nodes s b n sink st) (hd : Deployed w nodes [s])
    (hn : s.path.length = n + 2) (hsink : s.path.getLast? = some sink) {e : Event}
    (hstep : st.step (registryNode chan) w e = some st') :
    Alone w nodes s b n sink st' := by
  obtain ⟨node, hop, bits, hholds, hchain, hstarts⟩ := h
  have hs := List.mem_singleton_self s
  have hnodup := hd.nodup s hs
  have hw := hd.distinct
  obtain ⟨hany, haddr⟩ := hd.routed s hs sink hsink
  cases e with
  | start name sid draws =>
      rw [State.step] at hstep
      split_ifs at hstep with hguard
      obtain ⟨rfl, hname⟩ := hholds.known name sid hguard.1
      obtain ⟨i, hi⟩ := List.mem_iff_getElem?.mp hname
      have hilt := (List.getElem?_eq_some_iff.mp hi).1
      obtain ⟨x', hrun, hstarted, hheard, hholds'⟩ :=
        hholds.onSession hnodup hi hstep rfl
      have hheardOf : st'.heardOf s.sessionId = st.heardOf s.sessionId := by
        rw [State.heardOf, hheard]
        rfl
      rw [← nodeAt_eq hi] at hrun
      by_cases hlast : i = n + 1
      · subst hlast
        have hrole : (node (n + 1)).cfg.role = .next := by
          rw [(hchain.nodes (n + 1) le_rfl).config.role, if_neg (Nat.succ_ne_zero n),
            if_pos hn.symm]
        obtain ⟨rfl, hnet⟩ := start_sink hrole hrun
        rw [Function.update_eq_self] at hholds'
        refine ⟨node, hop, bits, hholds', ?_, fun j name' hj hle hsome => ?_⟩
        · rw [hnet, hheardOf]
          exact hchain
        · rw [hstarted]
          exact List.mem_cons_of_mem _ (hstarts j name' hj hle hsome)
      · have hnone : hop i = none := by
          by_contra hsome
          exact hguard.2 (hstarts i name hi (by omega) (Option.isSome_iff_ne_none.mpr hsome))
        obtain ⟨g, bits', hg⟩ := hchain.start hw hn hnone (by omega)
          (fun hpos => hchain.nextEnd hn hsink i hpos (by omega)) hany hrun
        refine ⟨_, _, bits', hholds', hheardOf.symm ▸ hg, fun j name' hj hle hsome => ?_⟩
        rw [hstarted]
        by_cases hji : j = i
        · subst hji
          obtain rfl := Option.some.inj (hi.symm.trans hj)
          exact List.mem_cons_self
        · rw [Function.update_of_ne hji] at hsome
          exact List.mem_cons_of_mem _ (hstarts j name' hj hle hsome)
  | qubitArrival k name draws =>
      cases hk : st.net.qubits[k]? with
      | none => simp only [State.step, hk, reduceCtorEq] at hstep
      | some f =>
          simp only [State.step, hk] at hstep
          split_ifs at hstep with hguard
          obtain ⟨world, hworld, hrun⟩ := Option.bind_eq_some_iff.mp hstep
          obtain rfl := Option.some.inj hworld
          obtain ⟨i, hin, hlabel, hto, harrive⟩ := hchain.arrive chan draws hw hn hk
            (hchain.nextEnd hn hsink) hany
          -- the node that the qubit is sent to
          have hi : s.path[i + 1]? = some name := by
            have hname := List.getElem?_eq_getElem (show i + 1 < s.path.length by omega)
            rw [hname]
            rw [nodeAt_eq hname] at hto
            exact congrArg some (hd.nodeIds _
              (hd.bound s hs _ (List.mem_of_getElem? hname)) name
              (hholds.apps name hguard.2) (hto.symm.trans hguard.1.symm))
          rw [State.dispatch] at hrun
          simp only [hlabel] at hrun
          obtain ⟨x', hrun, hstarted, hheard, hholds'⟩ :=
            hholds.onSession hnodup hi hrun rfl
          rw [hguard.1] at hrun
          obtain ⟨hop', bits', hchain', hsame⟩ := harrive x' st'.net hrun
          refine ⟨_, hop', bits', hholds', ?_, fun j name' hj hle hsome => ?_⟩
          · rw [State.heardOf, hheard]
            exact hchain'
          · rw [hstarted]
            exact hstarts j name' hj hle (hsame j ▸ hsome)
  | ctrlArrival k name =>
      cases hk : st.net.packets[k]? with
      | none => simp only [State.step, hk, reduceCtorEq] at hstep
      | some pkt =>
          simp only [State.step, hk] at hstep
          split_ifs at hstep with hguard
          have hname : name ∈ nodes := by
            refine hholds.apps name ?_
            cases happ : st.apps name with
            | none => rw [happ] at hguard; cases hguard.2
            | some app => rfl
          obtain ⟨hsid, hto, -⟩ := hchain.packets pkt (List.mem_of_getElem? hk)
          obtain rfl := haddr name hname (hguard.1.trans hto)
          have hi : s.path[n + 1]? = some name := by
            rw [← sink_position hsink]
            congr 1
            omega
          rw [hsid] at hstep
          obtain ⟨x', hrun, hstarted, hheard, hholds'⟩ :=
            hholds.onSession hnodup hi hstep rfl
          rw [← nodeAt_eq hi] at hrun
          have hlong := length_path_le hnodup (hd.injOn hs) fun a ha =>
            hd.nodeIdLt a (hd.bound s hs a ha)
          have hheardOf : st'.heardOf s.sessionId =
              st.heardOf s.sessionId ++ [pkt.sender] := by
            rw [State.heardOf, hheard, State.heardOf, List.filter_append, List.map_append]
            simp
          refine ⟨_, hop, bits, hholds', ?_, fun j name' hj hle hsome => ?_⟩
          · rw [hheardOf]
            exact hchain.hear hw hn hlong hk hrun
          · rw [hstarted]
            exact hstarts j name' hj hle hsome
  | qubitLost k =>
      cases hk : st.net.qubits[k]? with
      | none => simp only [State.step, hk, reduceCtorEq] at hstep
      | some f =>
          simp only [State.step, hk] at hstep
          obtain ⟨world, hworld, rfl⟩ := Option.map_eq_some_iff.mp hstep
          obtain rfl := Option.some.inj hworld
          obtain ⟨hop', hlost, hsame⟩ := hchain.lose hk
          exact ⟨node, hop', bits, ⟨hholds.apps, hholds.known, hholds.held⟩, hlost,
            fun j name' hj hle hsome => hstarts j name' hj hle (hsame j ▸ hsome)⟩
  | ctrlLost k =>
      rw [State.step] at hstep
      split_ifs at hstep
      obtain rfl := Option.some.inj hstep
      have hsub : (st.net.packets.eraseIdx k).Sublist st.net.packets :=
        List.eraseIdx_sublist ..
      exact ⟨node, hop, bits, ⟨hholds.apps, hholds.known, hholds.held⟩,
        { quantum := hchain.quantum, nodes := hchain.nodes, flights := hchain.flights
          flightsNodup := hchain.flightsNodup
          packets := fun pkt hp => hchain.packets pkt (hsub.mem hp), told := hchain.told
          nodup := hchain.nodup.sublist ((hsub.map _).append_right _), sink := hchain.sink
          corrected := hchain.corrected }, hstarts⟩

theorem run_alone (hd : Deployed w nodes [s])
    (hinst : installUnifiedApps w (bindApps nodes) [s] = some apps)
    (hn : s.path.length = n + 2) (hsink : s.path.getLast? = some sink)
    {world : QStateRegistry} (hworld : world.Inv)
    (h : Run (registryNode chan) w (fun _ _ => True)
      { net := { world := world }, apps := apps } st) :
    Alone w nodes s world.defaultBackend n sink st := by
  induction h with
  | init => exact alone_init hd hinst hn hworld
  | step _ _ hstep ih => exact ih.step hd hn hsink hstep

end Runs

/-! ## One repeater -/

section Snapshots

variable {W : Type} {st : State W} {net net' : Net W} {world : W}
  {started : List (String × SessionId)} {x : String → SessionState} {y : SessionState}
  {name : String}

/-- What is known of a state of the chain of three nodes. -/
structure Snapshot (st : State W) (net : Net W) (started : List (String × SessionId))
    (x : String → SessionState) : Prop where
  net : st.net = net
  started : st.started = started
  session : ∀ name ∈ ["A", "R", "B"], st.session name 1 = some (x name)
  sinks : (st.apps "B").map SwapApp.sinksByPort =
    (chainApps ["A", "R", "B"] "B").map SwapApp.sinksByPort

theorem Snapshot.onSession (h : Snapshot st net started x) (hname : name ∈ ["A", "R", "B"])
    {handler : SessionState → Net W → Option (SessionState × Net W)}
    (hrun : handler (x name) net = some (y, net')) :
    ∃ st', st.onSession name 1 handler = some st' ∧
      Snapshot st' net' started (Function.update x name y) := by
  have hx := h.session name hname
  obtain ⟨app, happ, hfind⟩ := Option.bind_eq_some_iff.mp hx
  have hfind : app.find 1 = some (x name) := hfind
  have hs : st.onSession name 1 handler = some { st with
      net := net', apps := Function.update st.apps name (some (app.setSession 1 y)) } := by
    simp only [State.onSession, happ, hfind, h.net, hrun, Option.map_some]
  refine ⟨_, hs, rfl, h.started, fun name' hname' => ?_, ?_⟩
  · obtain ⟨hnone, -⟩ | ⟨z, z', hz, hrun', -, -, hsession⟩ := onSession_cases hs
    · rw [hx] at hnone
      cases hnone
    · obtain rfl := Option.some.inj (hx.symm.trans hz)
      rw [h.net, hrun] at hrun'
      obtain ⟨rfl, -⟩ := Prod.mk.inj (Option.some.inj hrun')
      rw [hsession]
      by_cases hsame : name' = name
      · subst hsame
        rw [if_pos ⟨rfl, rfl⟩, Function.update_self]
      · rw [if_neg fun hh => hsame hh.1, Function.update_of_ne hsame]
        exact h.session name' hname'
  · rw [← h.sinks]
    dsimp only
    by_cases hB : "B" = name
    · subst hB
      rw [Function.update_self, happ]
      rfl
    · rw [Function.update_of_ne hB]

theorem Snapshot.start (h : Snapshot st net started x) (api : QNode W) (name : String)
    (draws : Bool × Bool) (y : SessionState) (net' : Net W) (hname : name ∈ ["A", "R", "B"])
    (hnew : (name, 1) ∉ started)
    (hrun : startSession api false (chainSetup.nodeId name) draws (x name) net =
      some (y, net')) :
    ∃ st', st.step api chainSetup (.start name 1 draws) = some st' ∧
      Snapshot st' net' ((name, 1) :: started) (Function.update x name y) := by
  have h' : Snapshot { st with started := (name, 1) :: st.started } net
      ((name, 1) :: started) x := ⟨h.net, by rw [h.started], h.session, h.sinks⟩
  obtain ⟨st', hs, hsnap⟩ := h'.onSession hname hrun
  refine ⟨st', ?_, hsnap⟩
  rw [State.step, if_pos ⟨by rw [h.session name hname]; rfl, h.started ▸ hnew⟩]
  exact hs

theorem Snapshot.arrive (h : Snapshot st net started x) (api : QNode W) (name : String)
    (draws : Bool × Bool) (y : SessionState) (net' : Net W) (hname : name ∈ ["A", "R", "B"])
    {f : Flight} {rest : List Flight} (hq : net.qubits = f :: rest)
    (hdst : chainSetup.nodeId name = f.dst) (hlabel : f.label = .swapIn .prev 1)
    (hreceive : api.receive (chainSetup.nodeId name) f.q net.world = some world)
    (hrun : Swap.arrive api false (chainSetup.nodeId name) .prev f.q draws (x name)
      { net with world := world, qubits := rest } = some (y, net')) :
    ∃ st', st.step api chainSetup (.qubitArrival 0 name draws) = some st' ∧
      Snapshot st' net' started (Function.update x name y) := by
  have hsome : (st.apps name).isSome := by
    obtain ⟨app, happ, -⟩ := Option.bind_eq_some_iff.mp (h.session name hname)
    rw [happ]
    rfl
  have h' : Snapshot { st with net := { st.net with world := world, qubits := rest } }
      { net with world := world, qubits := rest } started x :=
    ⟨by rw [h.net], h.started, h.session, h.sinks⟩
  obtain ⟨st', hs, hsnap⟩ := h'.onSession hname hrun
  refine ⟨st', ?_, hsnap⟩
  simp only [State.step, h.net, hq, List.getElem?_cons_zero, if_pos (And.intro hdst hsome),
    hreceive, List.eraseIdx_cons_zero, Option.bind_eq_bind, Option.bind_some, State.dispatch,
    hlabel]
  rw [h.net] at hs
  exact hs

theorem Snapshot.hear (h : Snapshot st net started x) (api : QNode W) (y : SessionState)
    (net' : Net W) {pkt : CtrlPacket}
    {rest : List CtrlPacket} (hp : net.packets = pkt :: rest)
    (hdst : addressOf chainSetup "B" = pkt.dst) (hsid : pkt.sid = 1)
    (hport : (chainApps ["A", "R", "B"] "B").any fun app => app.Listens pkt.port)
    (hrun : onCtrlRx api (chainSetup.nodeId "B") pkt.m1 pkt.m2 (x "B")
      { net with packets := rest } = some (y, net')) :
    ∃ st', st.step api chainSetup (.ctrlArrival 0 "B") = some st' ∧
      Snapshot st' net' started (Function.update x "B" y) := by
  have hlistens : ((st.apps "B").any fun app => app.Listens pkt.port) = true := by
    have hmap : ∀ a : Option SwapApp, (a.any fun app => app.Listens pkt.port) =
        (a.map SwapApp.sinksByPort).any fun l => pkt.port ∈ l.map Prod.fst := fun a => by
      cases a <;> rfl
    rw [hmap, h.sinks, ← hmap]
    exact hport
  have h' : Snapshot { st with
      net := { st.net with packets := rest }
      heard := st.heard ++ [(pkt.sid, pkt.sender)] } { net with packets := rest } started x :=
    ⟨by rw [h.net], h.started, h.session, h.sinks⟩
  obtain ⟨st', hs, hsnap⟩ := h'.onSession (List.mem_of_elem_eq_true rfl) hrun
  refine ⟨st', ?_, hsnap⟩
  simp only [State.step, h.net, hp, List.getElem?_cons_zero, if_pos (And.intro hdst hlistens),
    List.eraseIdx_cons_zero, hsid]
  rw [h.net, hsid] at hs
  exact hs

end Snapshots

section ChainRun

variable {W : Type} {api : QNode W} {w₀ w₁ w₂ w₃ w₄ w₅ w₆ w₇ w₈ w₉ : W}
  {p q p' q' : QubitPtr} {m1 m2 : ℤ}

/-- The sessions of the three nodes as they are installed. -/
def chainNodes (name : String) : SessionState where
  cfg :=
    let s := chainSession ["A", "R", "B"]
    if name = "A" then prevConfig chainSetup s "R"
    else if name = "R" then repeaterConfig chainSetup s "A" "B" "A" "B"
    else nextConfig chainSetup s

/-- Source and repeater start, both qubits arrive, and the sink hears the repeater. -/
theorem chain_run
    (h₁ : api.createBellPair 0 w₀ = some ((p, q), w₁)) (h₂ : api.send 0 q 1 w₁ = some w₂)
    (h₃ : api.createBellPair 1 w₂ = some ((p', q'), w₃))
    (h₄ : api.send 1 q' 2 w₃ = some w₄) (h₅ : api.receive 1 q w₄ = some w₅)
    (h₆ : api.measureBell 1 q p' (false, false) w₅ = some ((m1, m2), w₆))
    (h₇ : api.receive 2 q' w₆ = some w₇)
    (h₈ : correctIf api 2 (.builtin .X) (BitVec.ofInt 8 m2) q' w₇ = some w₈)
    (h₉ : correctIf api 2 (.builtin .Z) (BitVec.ofInt 8 m1) q' w₈ = some w₉) :
    ∃ st, Run api chainSetup (fun _ _ => True)
      { net := { world := w₀ }, apps := chainApps ["A", "R", "B"] } st ∧
      st.net.corrected = [(2, 1)] := by
  have hsnap : Snapshot { net := { world := w₀ }, apps := chainApps ["A", "R", "B"] }
      { world := w₀ } [] chainNodes := by
    refine ⟨rfl, rfl, fun name hname => ?_, rfl⟩
    simp only [List.mem_cons, List.not_mem_nil, or_false] at hname
    rcases hname with rfl | rfl | rfl <;> rfl
  obtain ⟨st₁, hs₁, hsnap₁⟩ := hsnap.start api "A" (false, false)
    { chainNodes "A" with targetQubit := some p, haveQ := true }
    { world := w₂, qubits := [⟨.swapIn .prev 1, q, 1⟩] } (by decide) (by decide) (by
      simp [startSession, doEndpointStart, generate, send, chainNodes, prevConfig,
        chainSetup, h₁, h₂, SessionConfig.peerId, Side.other, chainSession])
  obtain ⟨st₂, hs₂, hsnap₂⟩ := hsnap₁.start api "R" (false, false)
    { chainNodes "R" with qNext := some p' }
    { world := w₄, qubits := [⟨.swapIn .prev 1, q, 1⟩, ⟨.swapIn .prev 1, q', 2⟩] }
    (by decide) (by decide) (by
      simp [startSession, doRepeaterRound, generateLink, generate, send, chainNodes,
        repeaterConfig, SessionConfig.gen, chainSetup, h₃, h₄, SessionConfig.peerId,
        Side.other, chainSession, SessionState.setLink])
  obtain ⟨st₃, hs₃, hsnap₃⟩ := hsnap₂.arrive api "R" (false, false)
    { chainNodes "R" with qNext := some p', qPrev := some q, haveBSM := true }
    { world := w₆, qubits := [⟨.swapIn .prev 1, q', 2⟩]
      packets := [⟨.v4 3, portOf chainSetup (chainSession ["A", "R", "B"]), 1,
        BitVec.ofInt 8 m1, BitVec.ofInt 8 m2, 1⟩] }
    (by decide) rfl rfl rfl h₅ (by
      simp [Swap.arrive, measureOnArrival, maybeDoBsmAndAnnounce, chainNodes,
        SessionState.takeLink, SessionState.link, SessionState.setLink, Side.other,
        repeaterConfig, chainSetup, h₆, chainSession, announce, SessionConfig.nextEnd,
        keepFinalQubit, Address.IsAny])
  obtain ⟨st₄, hs₄, hsnap₄⟩ := hsnap₃.arrive api "B" (false, false)
    { chainNodes "B" with qPrev := some q', targetQubit := some q', haveQ := true }
    { world := w₇
      packets := [⟨.v4 3, portOf chainSetup (chainSession ["A", "R", "B"]), 1,
        BitVec.ofInt 8 m1, BitVec.ofInt 8 m2, 1⟩] }
    (by decide) rfl rfl rfl h₇ (by
      simp [Swap.arrive, measureOnArrival, chainNodes, SessionState.takeLink,
        SessionState.link, SessionState.setLink, Side.other, nextConfig, chainSetup,
        chainSession, keepFinalQubit])
  obtain ⟨st₅, hs₅, hsnap₅⟩ := hsnap₄.hear api
    { chainNodes "B" with
      qPrev := some q', targetQubit := some q', haveQ := true, haveF := true, done := true
      recv := 1, accumM1 := BitVec.ofInt 8 m1, accumM2 := BitVec.ofInt 8 m2 }
    { world := w₉, corrected := [(2, 1)] } rfl rfl rfl rfl (by
      simp [onCtrlRx, tryApply, chainNodes, nextConfig, chainSetup, chainSession,
        repeaterCount, h₈, h₉])
  refine ⟨st₅, .step (.step (.step (.step (.step .init trivial hs₁) trivial hs₂) trivial hs₃)
    trivial hs₄) trivial hs₅, ?_⟩
  rw [hsnap₅.net]

end ChainRun

/-! ## The pair that is left -/

section Delivered

variable {nodes : List String} {sink : String} {st : State QStateRegistry} {apps : Apps}

/-- In every run, with any order of events, any losses and any outcomes: when the sink of
a session with repeaters has been corrected, the qubit that the source has kept and the
one that the sink has received are in one state with no other qubit, the Bell pair of the
bits 0 and 0. -/
theorem corrected_bell_pair (hd : Deployed w nodes [s])
    (hinst : installUnifiedApps w (bindApps nodes) [s] = some apps)
    (hlen : 3 ≤ s.path.length) {source : String} (hsource : s.path.head? = some source)
    (hsink : s.path.getLast? = some sink) {world : QStateRegistry}
    (hworld : Reachable AdoptsFresh world)
    (h : Run (registryNode chan) w (fun _ _ => True)
      { net := { world := world }, apps := apps } st)
    (hcorrected : (w.nodeId sink, s.sessionId) ∈ st.net.corrected) :
    ∃ x y p q, st.session source s.sessionId = some x ∧ x.targetQubit = some p ∧
      st.session sink s.sessionId = some y ∧ y.targetQubit = some q ∧ p ≠ q ∧
      st.net.world.Group world.defaultBackend {p, q} (bellPair false false p q) := by
  obtain ⟨n, hn⟩ : ∃ n, s.path.length = n + 2 := ⟨s.path.length - 2, by omega⟩
  obtain ⟨node, hop, bits, hholds, hchain, -⟩ :=
    run_alone hd hinst hn hsink (reachable_inv hworld) h
  have hdone := hchain.corrected (List.ne_nil_of_mem hcorrected)
  obtain ⟨hQ, hF⟩ := hchain.sink.done hdone
  -- the last hop has arrived
  obtain ⟨hsome, htarget⟩ := hchain.sink.haveQ hQ
  obtain ⟨q, hq⟩ := Option.isSome_iff_exists.mp hsome
  obtain ⟨g, hg, htaken⟩ := Option.bind_eq_some_iff.mp
    (((hchain.nodes (n + 1) le_rfl).prev n rfl).symm.trans hq)
  rw [Hop.taken] at htaken
  split_ifs at htaken
  obtain rfl := Option.some.inj htaken
  -- and the chain has become one segment
  have hquantum := hchain.quantum
  have hw := hd.distinct
  have hjoin : Joined w s bits 0 n :=
    ⟨Nat.zero_le n, by omega, hquantum.not_end hw (by omega) (.inl rfl),
      hquantum.not_end hw (by omega) (.inr (by omega)),
      fun k hpos hk => hchain.all_measured hn hF hpos hk⟩
  obtain ⟨g₀, hg₀⟩ := Option.isSome_iff_exists.mp
    (hquantum.hop_left hjoin (by rw [hg]; rfl))
  have hpair := hquantum.segments 0 n g₀ g hjoin hg₀ hg
  rw [hdone] at hpair
  have hhead : s.path[0]? = some source := by rw [← List.head?_eq_getElem?, hsource]
  have hlast : s.path[n + 1]? = some sink := by
    rw [← sink_position hsink]
    congr 1
    omega
  refine ⟨node 0, node (n + 1), g₀.kept, g.sent, hholds.held 0 source hhead, ?_,
    hholds.held (n + 1) sink hlast, htarget.trans hq,
    (hquantum.apart 0 n g₀ g hg₀ hg).1, hpair⟩
  rw [(hchain.nodes 0 (Nat.zero_le _)).source rfl, hg₀]
  rfl

theorem corrected_bell_pair_chain : ∃ st : State QStateRegistry,
    Run (registryNode fun _ _ => 0) chainSetup (fun _ _ => True)
      { net := { world := empty }, apps := chainApps ["A", "R", "B"] } st ∧
    ∃ x y p q, st.session "A" 1 = some x ∧ x.targetQubit = some p ∧
      st.session "B" 1 = some y ∧ y.targetQubit = some q ∧ p ≠ q ∧
      st.net.world.Group empty.defaultBackend {p, q} (bellPair false false p q) := by
  let s := chainSession ["A", "R", "B"]
  let api := registryNode fun _ _ => 0
  have hd : Deployed chainSetup ["A", "R", "B"] [s] :=
    chain_deployed (by decide) (by decide) (by decide) rfl
  have hw := hd.distinct
  have hlen : s.path.length = 3 := rfl
  -- source and repeater make their pairs
  obtain ⟨v₁, hcall₁, hq₁⟩ := (quantum_init (w := chainSetup) (s := s) inv_empty).generate hw
    (i := 0) rfl (by omega) 0
  let p := empty.numHandles
  let v₂ := v₁.setLocationChannel (p + 1) 0
  have h₁ : api.createBellPair 0 empty = some ((p, p + 1), v₁) := congrArg returned hcall₁
  have h₂ : api.send 0 (p + 1) 1 v₁ = some v₂ := rfl
  obtain ⟨v₃, hcall₃, hq₃⟩ := hq₁.generate hw (i := 1) rfl (by omega) 0
  let p' := v₂.numHandles
  let v₄ := v₃.setLocationChannel (p' + 1) 0
  have h₃ : api.createBellPair 1 v₂ = some ((p', p' + 1), v₃) := congrArg returned hcall₃
  have h₄ : api.send 1 (p' + 1) 2 v₃ = some v₄ := rfl
  -- the first qubit arrives, and the repeater measures
  let v₅ := v₄.setLocation (p + 1) (.node 1)
  have h₅ : api.receive 1 (p + 1) v₄ = some v₅ :=
    congrArg some (hq₃.adopt (i := 0) (g := ⟨p, p + 1, .flying⟩) rfl rfl 1)
  let hop : ℕ → Option Hop := Function.update (Function.update (Function.update
    (fun _ => none) 0 (some ⟨p, p + 1, .flying⟩)) 1 (some ⟨p', p' + 1, .flying⟩))
    0 (some ⟨p, p + 1, .arrived⟩)
  have hq₅ : Quantum chainSetup s empty.defaultBackend hop (fun _ => none) false v₅ :=
    hq₃.settle (i := 0) (g := ⟨p, p + 1, .flying⟩) rfl rfl nofun fun _ => rfl
  obtain ⟨m1, m2, v₆, hcall₆, hq₆⟩ := hq₅.swap hw (k := 0) (by omega) rfl
    (g := ⟨p, p + 1, .arrived⟩) rfl rfl rfl false false
  have h₆ : api.measureBell 1 (p + 1) p' (false, false) v₅ =
      some (((m1.toNat : ℤ), (m2.toNat : ℤ)), v₆) := congrArg returned hcall₆
  -- the second qubit arrives, and the sink corrects
  let v₇ := v₆.setLocation (p' + 1) (.node 2)
  have h₇ : api.receive 2 (p' + 1) v₆ = some v₇ :=
    congrArg some (hq₆.adopt (i := 1) (g := ⟨p', p' + 1, .flying⟩) rfl rfl 2)
  let bits : Outcomes :=
    Function.update (fun _ => none) (nodeAt chainSetup s 1) (some (m1, m2))
  have hq₇ : Quantum chainSetup s empty.defaultBackend
      (Function.update hop 1 (some ⟨p', p' + 1, .arrived⟩)) bits false v₇ :=
    hq₆.settle (i := 1) (g := ⟨p', p' + 1, .flying⟩) rfl rfl nofun fun _ => rfl
  obtain ⟨v₈, v₉, hX, hZ, -⟩ := hq₇.correct (n := 1) (fun _ _ => 0) hw hlen
    (fun k hpos hk => by
      obtain rfl : k = 1 := by omega
      rfl) (g := ⟨p', p' + 1, .arrived⟩) rfl rfl
  have hframe : ∀ sel, frame chainSetup s sel bits 0 1 = sel (m1, m2) := fun sel => by
    simp [frame, parity, bitOf, bits]
  rw [hframe] at hX hZ
  obtain ⟨st, hrun, hcorrected⟩ := chain_run h₁ h₂ h₃ h₄ h₅ h₆ h₇ hX hZ
  exact ⟨st, hrun, corrected_bell_pair hd rfl (by decide) rfl rfl .refl hrun
    (by rw [hcorrected]; decide)⟩

end Delivered

end Q2NS.Swap
