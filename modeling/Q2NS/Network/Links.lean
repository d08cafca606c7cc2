import Q2NS.Network.Lost
import Mathlib.Data.List.Perm.Basic
import Mathlib.Data.List.Range

/-!
# Delivery over installed links

A network whose routes, devices and channels were only made by the functions that
install links delivers every accepted qubit once, at the node it was sent to.
-/

namespace Q2NS

open QStateRegistry

/-! ## Built-in maps -/

/-- The map is made of built-in maps. -/
inductive QMap.BuiltIn : Option QMap → Prop where
  | null : BuiltIn none
  | dephasing : BuiltIn (some .dephasing)
  | depolarizing : BuiltIn (some .depolarizing)
  | loss : BuiltIn (some .loss)
  | randomGate (gates : List QGate) : BuiltIn (some (.randomGate gates))
  | randomUnitary (gates : List QGate) : BuiltIn (some (.randomUnitary gates))
  | conditional {pred : QStateRegistry → QubitPtr → Bool} {map : Option QMap}
      (h : BuiltIn map) : BuiltIn (some (.conditional pred map))
  | compositeNil : BuiltIn (some (.composite []))
  | compositeCons {map : Option QMap} {maps : List (Option QMap)} (h : BuiltIn map)
      (hs : BuiltIn (some (.composite maps))) : BuiltIn (some (.composite (map :: maps)))

/-- A sampled map without code of the user. -/
inductive QMapInstance.Plain : QMapInstance → Prop where
  | identity : Plain .identity
  | applyGate (gate : QGate) : Plain (.applyGate gate)
  | setLost : Plain .setLost
  | conditional {pred : QStateRegistry → QubitPtr → Bool} {map : QMapInstance}
      (h : Plain map) : Plain (.conditional pred map)
  | compositeNil : Plain (.composite [])
  | compositeCons {step : QMapInstance} {steps : List QMapInstance} (h : Plain step)
      (hs : Plain (.composite steps)) : Plain (.composite (step :: steps))

/-- The sampled map has a stage that loses the qubit. -/
inductive QMapInstance.Drops : QMapInstance → Prop where
  | setLost : Drops .setLost
  | conditional {pred : QStateRegistry → QubitPtr → Bool} {map : QMapInstance}
      (h : Drops map) : Drops (.conditional pred map)
  | head {step : QMapInstance} {steps : List QMapInstance} (h : Drops step) :
      Drops (.composite (step :: steps))
  | tail {step : QMapInstance} {steps : List QMapInstance}
      (h : Drops (.composite steps)) : Drops (.composite (step :: steps))

theorem QMap.Sample.plain {map : Option QMap} {inst : QMapInstance}
    (h : QMap.Sample map inst) (hb : QMap.BuiltIn map) : inst.Plain := by
  induction h with
  | null => exact .identity
  | dephasing h =>
      obtain rfl | rfl := h
      · exact .identity
      · exact .applyGate _
  | depolarizing h =>
      obtain rfl | ⟨kind, -, rfl⟩ := h
      · exact .identity
      · exact .applyGate _
  | loss h =>
      obtain rfl | rfl := h
      · exact .identity
      · exact .setLost
  | randomGate h =>
      obtain rfl | ⟨gate, -, rfl⟩ := h
      · exact .identity
      · exact .applyGate _
  | randomUnitary h =>
      obtain rfl | ⟨gate, -, rfl⟩ := h
      · exact .identity
      · exact .applyGate _
  | conditional _ ih =>
      cases hb with
      | conditional hb => exact .conditional (ih hb)
  | compositeNil => exact .compositeNil
  | compositeCons _ _ ih ihs =>
      cases hb with
      | compositeCons hb hbs => exact .compositeCons (ih hb) (ihs hbs)
  | lambda ops => cases hb

theorem QMap.BuiltIn.exists_sample {map : Option QMap} (h : BuiltIn map) :
    ∃ inst, Sample map inst := by
  induction h with
  | null => exact ⟨_, .null⟩
  | dephasing => exact ⟨_, .dephasing (.inl rfl)⟩
  | depolarizing => exact ⟨_, .depolarizing (.inl rfl)⟩
  | loss => exact ⟨_, .loss (.inl rfl)⟩
  | randomGate _ => exact ⟨_, .randomGate (.inl rfl)⟩
  | randomUnitary _ => exact ⟨_, .randomUnitary (.inl rfl)⟩
  | conditional _ ih =>
      obtain ⟨_, h⟩ := ih
      exact ⟨_, .conditional h⟩
  | compositeNil => exact ⟨_, .compositeNil⟩
  | compositeCons _ _ ih ihs =>
      obtain ⟨_, h⟩ := ih
      obtain ⟨_, hs⟩ := ihs
      cases hs with
      | compositeNil => exact ⟨_, .compositeCons h .compositeNil⟩
      | compositeCons h' hs => exact ⟨_, .compositeCons h (.compositeCons h' hs)⟩

theorem QMap.Sample.eq_identity {inst : QMapInstance} (h : Sample none inst) :
    inst = .identity := by
  cases h
  rfl

/-- A way to sample every built-in map. -/
theorem QMap.exists_sampling : ∃ sample : Option QMap → QMapInstance,
    ∀ map, BuiltIn map → Sample map (sample map) := by
  have h : ∀ map, ∃ inst, BuiltIn map → Sample map inst := fun map => by
    by_cases hb : BuiltIn map
    · exact hb.exists_sample.imp fun _ hs _ => hs
    · exact ⟨.identity, fun hb' => absurd hb' hb⟩
  exact Classical.axiomOfChoice h

/-- A plain map only touches its own qubit, which it leaves where it is or loses. -/
structure Settles (w w' : QStateRegistry) (q : QubitPtr) (drops : Prop) : Prop where
  moves : w.Moves w' [q]
  location : w'.getLocation q = w.getLocation q ∨ drops ∧ w'.getLocation q = .lost

theorem QMapInstance.Plain.run {inst : QMapInstance} (hp : inst.Plain) (node : NodeId)
    {q : QubitPtr} {w : QStateRegistry} (h : w.Registered) (hq : q < w.numHandles) :
    Settles w (inst.run node q w).2 q inst.Drops := by
  induction hp generalizing w with
  | identity =>
      rw [QMapInstance.run]
      exact ⟨h.moves _, .inl rfl⟩
  | applyGate gate =>
      rw [QMapInstance.run]
      have hm := (h.apply node gate [q]).moves h
      exact ⟨(h.moves [q]).trans hm fun x hx _ => absurd hx List.not_mem_nil,
        .inl (hm.locations q hq List.not_mem_nil)⟩
  | setLost =>
      rw [QMapInstance.run]
      exact ⟨h.setLocation hq .lost, .inr ⟨.setLost, getLocation_setLocation _ _⟩⟩
  | conditional _ ih =>
      rw [QMapInstance.run]
      split_ifs
      · obtain ⟨hm, hl⟩ := ih h hq
        exact ⟨hm, hl.imp id fun hd => ⟨.conditional hd.1, hd.2⟩⟩
      · exact ⟨h.moves _, .inl rfl⟩
  | compositeNil =>
      rw [QMapInstance.run, runSteps]
      exact ⟨h.moves _, .inl rfl⟩
  | @compositeCons step steps _ _ ih ihs =>
      obtain ⟨hm, hl⟩ := ih h hq
      rw [QMapInstance.run, runSteps]
      cases hres : step.run node q w with
      | mk res w' =>
          rw [hres] at hm hl
          have hfirst : Settles w w' q (Drops (.composite (step :: steps))) :=
            ⟨hm, hl.imp id fun hd => ⟨.head hd.1, hd.2⟩⟩
          cases res with
          | error e => exact hfirst
          | ok _ =>
              rw [andThen]
              split_ifs with hlost
              · exact hfirst
              · obtain ⟨hm', hl'⟩ := ihs hm.registered (hq.trans_le hm.handles)
                rw [QMapInstance.run] at hm' hl'
                have hsame : w'.getLocation q = w.getLocation q :=
                  hl.resolve_right fun hd => hlost hd.2
                exact ⟨hm.trans hm' fun x hx _ => hx,
                  hl'.imp (·.trans hsame) fun hd => ⟨.tail hd.1, hd.2⟩⟩

namespace Network

variable {net net' : Network} {q : QubitPtr}

/-! ## Wiring -/

theorem linkKey_comm (a b : NodeId) : linkKey a b = linkKey b a := by
  rw [linkKey, linkKey, min_comm, max_comm]

theorem linkKey_eq_iff {i j a b : NodeId} :
    linkKey i j = linkKey a b ↔ i = a ∧ j = b ∨ i = b ∧ j = a := by
  have hnat : ∀ i j a b : ℕ, min i j = min a b ∧ max i j = max a b ↔
      i = a ∧ j = b ∨ i = b ∧ j = a := by
    intro i j a b
    omega
  rw [linkKey, linkKey, Prod.mk.injEq]
  exact hnat i j a b

/-- The interface `oif` of `i` leads to `j` over the channel of their link. -/
structure Leads (net : Network) (i j : NodeId) (oif : ℕ) (dev dev' : DevPtr)
    (chan : ChannelId) : Prop where
  iface : (net.networkers i).ifaces[oif]? = some dev
  attached : (net.devices dev).channel = some chan
  link : net.links (linkKey i j) = some chan
  otherEnd : ∃ map, (net.channels chan).otherEnd dev = some (dev', map) ∧
    QMap.BuiltIn map
  receiver : (net.devices dev').networker = some j
  dev_lt : dev < net.numDevices
  dev'_lt : dev' < net.numDevices
  chan_lt : chan < net.numChannels

/-- The routes are those of the links. -/
structure Wired (net : Network) : Prop where
  leads : ∀ i j oif, (net.networkers i).hostRoutes j = some oif →
    ∃ dev dev' chan, net.Leads i j oif dev dev' chan
  routed : ∀ i j chan, net.links (linkKey i j) = some chan →
    ∃ oif, (net.networkers i).hostRoutes j = some oif

theorem wired_init : Wired {} where
  leads := fun _ _ _ h => nomatch h
  routed := fun _ _ _ h => nomatch h

/-- What installing a new link between `a` and `b` changes. -/
structure Installed (net net' : Network) (a b : NodeId) : Prop where
  numDevices : net'.numDevices = net.numDevices + 2
  numChannels : net'.numChannels = net.numChannels + 1
  oldDevices : ∀ d < net.numDevices, net'.devices d = net.devices d
  oldChannels : ∀ c < net.numChannels, net'.channels c = net.channels c
  devA : net'.devices net.numDevices = ⟨some a, some net.numChannels⟩
  devB : net'.devices (net.numDevices + 1) = ⟨some b, some net.numChannels⟩
  channel : net'.channels net.numChannels =
    { aDev := some net.numDevices, bDev := some (net.numDevices + 1) }
  links : net'.links = Function.update net.links (linkKey a b) (some net.numChannels)
  ifaces : ∀ n, (net.networkers n).ifaces <+: (net'.networkers n).ifaces
  routeB : ∃ oif, (net'.networkers b).hostRoutes a = some oif ∧
    (net'.networkers b).ifaces[oif]? = some (net.numDevices + 1)
  routeA : a ≠ b → ∃ oif, (net'.networkers a).hostRoutes b = some oif ∧
    (net'.networkers a).ifaces[oif]? = some net.numDevices
  routes : ∀ i j, linkKey i j ≠ linkKey a b →
    (net'.networkers i).hostRoutes j = (net.networkers i).hostRoutes j

/-- A new link keeps the wiring. -/
theorem Wired.installed (h : net.Wired) {a b : NodeId} (hi : Installed net net' a b) :
    net'.Wired := by
  have hdev' : ∀ d, d < net.numDevices → d < net'.numDevices := fun d hd => by
    rw [hi.numDevices]
    exact Nat.lt_add_right 2 hd
  have hnewA : (net'.channels net.numChannels).otherEnd net.numDevices =
      some (net.numDevices + 1, none) := by
    rw [hi.channel, QChannel.otherEnd, if_pos rfl, Option.map_some]
  have hnewB : (net'.channels net.numChannels).otherEnd (net.numDevices + 1) =
      some (net.numDevices, none) := by
    rw [hi.channel, QChannel.otherEnd, if_neg fun he =>
      absurd (Option.some.inj he) (Nat.lt_succ_self _).ne, if_pos rfl, Option.map_some]
  have hlink : ∀ i j, linkKey i j = linkKey a b →
      net'.links (linkKey i j) = some net.numChannels := fun i j hk => by
    rw [hi.links, hk, Function.update_self]
  have hA : net.numDevices < net'.numDevices := by rw [hi.numDevices]; omega
  have hB : net.numDevices + 1 < net'.numDevices := by rw [hi.numDevices]; omega
  have hC : net.numChannels < net'.numChannels := by rw [hi.numChannels]; omega
  obtain ⟨oifB, hrB, hfB⟩ := hi.routeB
  have hleadB : net'.Leads b a oifB (net.numDevices + 1) net.numDevices
      net.numChannels :=
    ⟨hfB, by rw [hi.devB], hlink b a (linkKey_comm b a), ⟨none, hnewB, .null⟩,
      by rw [hi.devA], hB, hA, hC⟩
  constructor
  · intro i j oif hr
    by_cases hk : linkKey i j = linkKey a b
    · have hends := linkKey_eq_iff.mp hk
      by_cases hib : i = b ∧ j = a
      · obtain ⟨rfl, rfl⟩ := hib
        rw [hrB] at hr
        exact ⟨_, _, _, Option.some.inj hr ▸ hleadB⟩
      · obtain ⟨rfl, rfl⟩ := hends.resolve_right hib
        have hne : i ≠ j := fun he => hib ⟨he, he.symm⟩
        obtain ⟨oifA, hrA, hfA⟩ := hi.routeA hne
        rw [hrA] at hr
        obtain rfl := Option.some.inj hr
        exact ⟨_, _, _, hfA, by rw [hi.devA], hlink i j rfl, ⟨none, hnewA, .null⟩,
          by rw [hi.devB], hA, hB, hC⟩
    · rw [hi.routes i j hk] at hr
      obtain ⟨dev, dev', chan, hl⟩ := h.leads i j oif hr
      refine ⟨dev, dev', chan, ?_, ?_, ?_, ?_, ?_, hdev' _ hl.dev_lt,
        hdev' _ hl.dev'_lt, ?_⟩
      · obtain ⟨extra, hextra⟩ := hi.ifaces i
        rw [← hextra, List.getElem?_append_left
          (List.getElem?_eq_some_iff.mp hl.iface).1]
        exact hl.iface
      · rw [hi.oldDevices dev hl.dev_lt]
        exact hl.attached
      · rw [hi.links, Function.update_of_ne hk]
        exact hl.link
      · rw [hi.oldChannels chan hl.chan_lt]
        exact hl.otherEnd
      · rw [hi.oldDevices dev' hl.dev'_lt]
        exact hl.receiver
      · rw [hi.numChannels]
        exact Nat.lt_succ_of_lt hl.chan_lt
  · intro i j chan hl
    by_cases hk : linkKey i j = linkKey a b
    · by_cases hib : i = b ∧ j = a
      · obtain ⟨rfl, rfl⟩ := hib
        exact ⟨_, hrB⟩
      · obtain ⟨rfl, rfl⟩ := (linkKey_eq_iff.mp hk).resolve_right hib
        obtain ⟨oifA, hrA, -⟩ := hi.routeA fun he => hib ⟨he, he.symm⟩
        exact ⟨_, hrA⟩
    · rw [hi.links, Function.update_of_ne hk] at hl
      rw [hi.routes i j hk]
      exact h.routed i j chan hl

theorem networkers_connectNew : net.connectNew.2.2.2.networkers = net.networkers := rfl

theorem ifaces_addInterface (node n : NodeId) (dev : DevPtr) :
    ((net.addInterface node dev).networkers n).ifaces =
      if n = node then (net.networkers n).ifaces ++ [dev]
      else (net.networkers n).ifaces := by
  rw [addInterface]
  dsimp only
  split_ifs with hn
  · rw [hn, Function.update_self]
  · rw [Function.update_of_ne hn]

theorem hostRoutes_addInterface (node n : NodeId) (dev : DevPtr) :
    ((net.addInterface node dev).networkers n).hostRoutes =
      (net.networkers n).hostRoutes := by
  rw [addInterface]
  dsimp only
  by_cases hn : n = node
  · rw [hn, Function.update_self]
  · rw [Function.update_of_ne hn]

theorem ifaces_addRoute (node dst n : NodeId) (oif : ℕ) :
    ((net.addRoute node dst oif).networkers n).ifaces = (net.networkers n).ifaces := by
  rw [addRoute]
  dsimp only
  by_cases hn : n = node
  · rw [hn, Function.update_self]
  · rw [Function.update_of_ne hn]

theorem hostRoutes_addRoute (node dst n : NodeId) (oif : ℕ) :
    ((net.addRoute node dst oif).networkers n).hostRoutes =
      if n = node then Function.update (net.networkers n).hostRoutes dst (some oif)
      else (net.networkers n).hostRoutes := by
  rw [addRoute]
  dsimp only
  split_ifs with hn
  · rw [hn, Function.update_self]
  · rw [Function.update_of_ne hn]

/-- `InstallQuantumLink` reuses an existing link or installs a new one. -/
theorem installQuantumLink_cases (net : Network) (a b : Option NodeId) :
    net.installQuantumLink a b = net ∨ ∃ x y, a = some x ∧ b = some y ∧
      net.links (linkKey x y) = none ∧ Installed net (net.installQuantumLink a b) x y := by
  rcases a with _ | a
  · exact .inl rfl
  rcases b with _ | b
  · exact .inl rfl
  cases hl : net.links (linkKey a b) with
  | some c =>
      rw [installQuantumLink, hl]
      exact .inl rfl
  | none =>
      refine .inr ⟨a, b, rfl, rfl, hl, ?_⟩
      let netA := net.connectNew.2.2.2.addInterface a net.numDevices
      let netB := netA.addInterface b (net.numDevices + 1)
      have heq : net.installQuantumLink (some a) (some b) =
          { (netB.addRoute a b (net.networkers a).ifaces.length).addRoute b a
              (netA.networkers b).ifaces.length with
            links := Function.update net.links (linkKey a b) (some net.numChannels) } := by
        rw [installQuantumLink, hl]
        rfl
      rw [heq]
      have hdevs : net.numDevices ≠ net.numDevices + 1 := (Nat.lt_succ_self _).ne
      refine ⟨rfl, rfl, fun d hd => ?_, fun c hc => ?_, ?_, ?_, ?_, rfl, fun n => ?_,
        ?_, fun hne => ?_, fun i j hk => ?_⟩
      · have h₁ : d ≠ net.numDevices := hd.ne
        have h₂ : d ≠ net.numDevices + 1 := (Nat.lt_succ_of_lt hd).ne
        simp only [netA, netB, connectNew, addInterface, addRoute, Function.update_of_ne h₁,
          Function.update_of_ne h₂]
      · simp only [netA, netB, connectNew, addInterface, addRoute, Function.update_of_ne hc.ne]
      · simp only [netA, netB, connectNew, addInterface, addRoute, Function.update_of_ne hdevs,
          Function.update_self]
      · simp only [netA, netB, connectNew, addInterface, addRoute, Function.update_self,
          Function.update_of_ne hdevs.symm]
      · simp only [netA, netB, connectNew, addInterface, addRoute, Function.update_self]
      · simp only [netA, netB, ifaces_addRoute, ifaces_addInterface,
          networkers_connectNew]
        split_ifs
        · exact ⟨_, (List.append_assoc _ _ _).symm⟩
        · exact List.prefix_append _ _
        · exact List.prefix_append _ _
        · exact List.prefix_rfl
      · refine ⟨(netA.networkers b).ifaces.length, ?_, ?_⟩
        · simp only [hostRoutes_addRoute, if_pos, Function.update_self]
        · simp only [netB, ifaces_addRoute, ifaces_addInterface b, if_pos]
          exact List.getElem?_concat_length
      · refine ⟨(net.networkers a).ifaces.length, ?_, ?_⟩
        · simp only [hostRoutes_addRoute, if_neg hne, if_pos, Function.update_self]
        · simp only [netA, netB, ifaces_addRoute, ifaces_addInterface, if_neg hne, if_pos,
            networkers_connectNew]
          exact List.getElem?_concat_length
      · have hab : ¬ (i = a ∧ j = b) := fun h => hk (linkKey_eq_iff.mpr (.inl h))
        have hba : ¬ (i = b ∧ j = a) := fun h => hk (linkKey_eq_iff.mpr (.inr h))
        simp only [netA, netB, hostRoutes_addRoute, hostRoutes_addInterface,
          networkers_connectNew]
        split_ifs with hib hia hia
        · rw [Function.update_of_ne fun h => hba ⟨hib, h⟩,
            Function.update_of_ne fun h => hab ⟨hia, h⟩]
        · rw [Function.update_of_ne fun h => hba ⟨hib, h⟩]
        · rw [Function.update_of_ne fun h => hab ⟨hia, h⟩]
        · rfl

/-- The wiring is the same but for other built-in maps and callbacks. -/
structure SameWiring (net net' : Network) : Prop where
  ifaces : ∀ n, (net'.networkers n).ifaces = (net.networkers n).ifaces
  hostRoutes : ∀ n, (net'.networkers n).hostRoutes = (net.networkers n).hostRoutes
  devices : net'.devices = net.devices
  numDevices : net'.numDevices = net.numDevices
  numChannels : net'.numChannels = net.numChannels
  links : net'.links = net.links
  otherEnd : ∀ c dev dev' map, (net.channels c).otherEnd dev = some (dev', map) →
    QMap.BuiltIn map → ∃ map', (net'.channels c).otherEnd dev = some (dev', map') ∧
      QMap.BuiltIn map'

theorem SameWiring.wired (hsame : SameWiring net net') (h : net.Wired) :
    net'.Wired where
  leads := fun i j oif hr => by
    rw [hsame.hostRoutes] at hr
    obtain ⟨dev, dev', chan, hl⟩ := h.leads i j oif hr
    refine ⟨dev, dev', chan, ?_, ?_, ?_, ?_, ?_, ?_, ?_, ?_⟩
    · rw [hsame.ifaces]
      exact hl.iface
    · rw [hsame.devices]
      exact hl.attached
    · rw [hsame.links]
      exact hl.link
    · obtain ⟨map, hend, hb⟩ := hl.otherEnd
      exact hsame.otherEnd chan dev dev' map hend hb
    · rw [hsame.devices]
      exact hl.receiver
    · rw [hsame.numDevices]
      exact hl.dev_lt
    · rw [hsame.numDevices]
      exact hl.dev'_lt
    · rw [hsame.numChannels]
      exact hl.chan_lt
  routed := fun i j chan hl => by
    rw [hsame.links] at hl
    rw [hsame.hostRoutes]
    exact h.routed i j chan hl

theorem sameWiring_setQMaps (chan : ChannelId) {ab ba : Option QMap}
    (hab : QMap.BuiltIn ab) (hba : QMap.BuiltIn ba) :
    SameWiring net { net with
      channels := Function.update net.channels chan
        { net.channels chan with qmapAB := ab, qmapBA := ba } } where
  ifaces := fun _ => rfl
  hostRoutes := fun _ => rfl
  devices := rfl
  numDevices := rfl
  numChannels := rfl
  links := rfl
  otherEnd := fun c dev dev' map hend hb => by
    by_cases hc : c = chan
    · subst hc
      dsimp only
      rw [Function.update_self]
      rw [QChannel.otherEnd] at hend ⊢
      split_ifs at hend ⊢ with ha hb'
      · obtain ⟨d, hd, heq⟩ := Option.map_eq_some_iff.mp hend
        obtain ⟨rfl, rfl⟩ := Prod.mk.inj heq
        exact ⟨ab, by rw [hd]; rfl, hab⟩
      · obtain ⟨d, hd, heq⟩ := Option.map_eq_some_iff.mp hend
        obtain ⟨rfl, rfl⟩ := Prod.mk.inj heq
        exact ⟨ba, by rw [hd]; rfl, hba⟩
    · dsimp only
      rw [Function.update_of_ne hc]
      exact ⟨map, hend, hb⟩

theorem sameWiring_setRecvCallback (node : NodeId) (cb : CallbackId) :
    SameWiring net { net with
      networkers := Function.update net.networkers node
        { net.networkers node with recvCallback := some cb } } where
  ifaces := fun n => by
    by_cases hn : n = node
    · dsimp only
      rw [hn, Function.update_self]
    · dsimp only
      rw [Function.update_of_ne hn]
  hostRoutes := fun n => by
    by_cases hn : n = node
    · dsimp only
      rw [hn, Function.update_self]
    · dsimp only
      rw [Function.update_of_ne hn]
  devices := rfl
  numDevices := rfl
  numChannels := rfl
  links := rfl
  otherEnd := fun _ _ _ map hend hb => ⟨map, hend, hb⟩

/-! ## Which links there are -/

/-- There is a link between the nodes. -/
def Linked (net : Network) (i j : NodeId) : Prop := (net.links (linkKey i j)).isSome

/-- The two nodes are `x` and `y` in some order. -/
def Pair (x y : Option NodeId) (i j : NodeId) : Prop :=
  x = some i ∧ y = some j ∨ x = some j ∧ y = some i

/-- The links that an installation makes sure of. -/
def Action.Installs (i j : NodeId) : Action → Prop
  | .installQuantumLink a b => Pair a b i j
  | .installQuantumChain nodes => i ≠ j ∧ ∃ x y, Pair x y i j ∧ [x, y] <:+: nodes
  | .installQuantumAllToAll nodes => i ≠ j ∧ ∃ x y, Pair x y i j ∧ [x, y].Sublist nodes
  | _ => False

theorem linked_installQuantumLink (a b : Option NodeId) (i j : NodeId) :
    (net.installQuantumLink a b).Linked i j ↔ net.Linked i j ∨ Pair a b i j := by
  rcases a with _ | a
  · exact ⟨.inl, fun h => h.resolve_right fun hp => hp.elim (nomatch ·.1) (nomatch ·.1)⟩
  rcases b with _ | b
  · exact ⟨.inl, fun h => h.resolve_right fun hp => hp.elim (nomatch ·.2) (nomatch ·.2)⟩
  have hpair : Pair (some a) (some b) i j ↔ linkKey i j = linkKey a b := by
    rw [linkKey_eq_iff, Pair, Option.some_inj, Option.some_inj, Option.some_inj,
      Option.some_inj]
    exact or_congr (and_congr eq_comm eq_comm)
      (and_comm.trans (and_congr eq_comm eq_comm))
  rw [hpair]
  rcases installQuantumLink_cases net (some a) (some b) with heq |
    ⟨x, y, hx, hy, -, hi⟩
  · rw [heq]
    refine ⟨.inl, fun h => h.elim id fun hk => ?_⟩
    cases hl : net.links (linkKey a b) with
    | some c => rw [Linked, hk, hl]; rfl
    | none =>
        have := congrArg Network.numChannels heq
        rw [installQuantumLink, hl] at this
        exact absurd this (Nat.lt_succ_self _).ne'
  · obtain rfl := Option.some.inj hx
    obtain rfl := Option.some.inj hy
    rw [Linked, Linked, hi.links]
    by_cases hk : linkKey i j = linkKey a b
    · rw [hk, Function.update_self]
      exact ⟨fun _ => .inr rfl, fun _ => rfl⟩
    · rw [Function.update_of_ne hk]
      exact ⟨.inl, fun h => h.resolve_right hk⟩

theorem linked_installUnlessSkipped (a b : Option NodeId) (i j : NodeId) :
    (net.installUnlessSkipped a b).Linked i j ↔
      net.Linked i j ∨ i ≠ j ∧ Pair a b i j := by
  rw [installUnlessSkipped]
  split_ifs with hnull hself
  · refine ⟨.inl, fun h => h.resolve_right fun hp => ?_⟩
    rcases hp.2 with ⟨rfl, rfl⟩ | ⟨rfl, rfl⟩ <;>
      exact hnull.elim (Option.some_ne_none _) (Option.some_ne_none _)
  · refine ⟨.inl, fun h => h.resolve_right fun hp => hp.1 ?_⟩
    rcases hp.2 with ⟨rfl, rfl⟩ | ⟨rfl, rfl⟩
    · exact Option.some.inj hself
    · exact (Option.some.inj hself).symm
  · rw [linked_installQuantumLink]
    refine or_congr_right ⟨fun hp => ⟨fun he => hself ?_, hp⟩, And.right⟩
    rcases hp with ⟨rfl, rfl⟩ | ⟨rfl, rfl⟩
    · rw [he]
    · rw [he]

theorem linked_installQuantumChain (nodes : List (Option NodeId)) (i j : NodeId) :
    (installQuantumChain nodes net).Linked i j ↔ net.Linked i j ∨
      i ≠ j ∧ ∃ x y, Pair x y i j ∧ [x, y] <:+: nodes := by
  fun_induction installQuantumChain nodes net with
  | case1 a b nodes net ih =>
      have hadj : ∀ x y, [x, y] <:+: a :: b :: nodes ↔
          (x = a ∧ y = b) ∨ [x, y] <:+: b :: nodes := by
        intro x y
        rw [List.infix_cons_iff, List.cons_prefix_cons, List.cons_prefix_cons]
        exact or_congr_left (and_congr_right fun _ =>
          and_iff_left (List.nil_prefix))
      rw [ih, linked_installUnlessSkipped, or_assoc]
      refine or_congr_right ?_
      rw [← and_or_left]
      refine and_congr_right fun _ => ⟨?_, ?_⟩
      · rintro (hp | ⟨x, y, hp, h⟩)
        · exact ⟨a, b, hp, (hadj a b).mpr (.inl ⟨rfl, rfl⟩)⟩
        · exact ⟨x, y, hp, (hadj x y).mpr (.inr h)⟩
      · rintro ⟨x, y, hp, h⟩
        rcases (hadj x y).mp h with ⟨rfl, rfl⟩ | h
        · exact .inl hp
        · exact .inr ⟨x, y, hp, h⟩
  | case2 nodes net hshort =>
      refine ⟨.inl, fun h => h.resolve_right ?_⟩
      rintro ⟨-, x, y, -, l, r, rfl⟩
      rcases l with _ | ⟨c, l⟩
      · exact hshort x y r rfl
      · rcases l with _ | ⟨d, l⟩
        · exact hshort c x (y :: r) rfl
        · exact hshort c d (l ++ [x, y] ++ r) rfl

theorem linked_installQuantumAllToAll (nodes : List (Option NodeId)) (i j : NodeId) :
    (installQuantumAllToAll nodes net).Linked i j ↔ net.Linked i j ∨
      i ≠ j ∧ ∃ x y, Pair x y i j ∧ [x, y].Sublist nodes := by
  have hrow : ∀ (a : Option NodeId) (nodes : List (Option NodeId)) (net : Network),
      (nodes.foldl (fun net b => net.installUnlessSkipped a b) net).Linked i j ↔
        net.Linked i j ∨ i ≠ j ∧ ∃ y ∈ nodes, Pair a y i j := by
    intro a nodes
    induction nodes with
    | nil => exact fun net => ⟨.inl, fun h => h.resolve_right fun ⟨_, y, hy, _⟩ =>
        List.not_mem_nil hy⟩
    | cons b nodes ih =>
        intro net
        rw [List.foldl_cons, ih, linked_installUnlessSkipped, or_assoc, ← and_or_left]
        simp only [List.exists_mem_cons_iff]
  induction nodes generalizing net with
  | nil => exact ⟨.inl, fun h => h.resolve_right fun ⟨_, x, y, _, hs⟩ => nomatch hs⟩
  | cons a nodes ih =>
      refine Iff.trans ih ?_
      rw [hrow, or_assoc, ← and_or_left]
      refine or_congr_right (and_congr_right fun _ => ⟨?_, ?_⟩)
      · rintro (⟨y, hy, hp⟩ | ⟨x, y, hp, hs⟩)
        · exact ⟨a, y, hp, (List.singleton_sublist.mpr hy).cons_cons a⟩
        · exact ⟨x, y, hp, hs.cons a⟩
      · rintro ⟨x, y, hp, hs⟩
        rcases List.sublist_cons_iff.mp hs with hs | ⟨r, hr, hs⟩
        · exact .inr ⟨x, y, hp, hs⟩
        · obtain ⟨rfl, rfl⟩ := List.cons.inj hr
          exact .inl ⟨y, List.singleton_sublist.mp hs, hp⟩

/-! ## Sending -/

/-- `Send` accepts a qubit exactly when it is local and there is a link; the
qubit then is on the channel of that link, on its way to its other end. -/
theorem Wired.send_cases (h : net.Wired) (i : NodeId) (q : QubitPtr) (j : NodeId)
    (sample : Option QMap → QMapInstance) :
    ((q < net.registry.numHandles → net.registry.IsLocal i q →
        net.links (linkKey i j) = none) ∧ net.send i q j sample = (false, net)) ∨
      (q < net.registry.numHandles ∧ net.registry.IsLocal i q) ∧
        ∃ chan dst map, net.links (linkKey i j) = some chan ∧ QMap.BuiltIn map ∧
          (net.devices dst).networker = some j ∧ dst < net.numDevices ∧
          net.send i q j sample = (true, { net with
            registry := net.registry.setLocation q (.channel chan)
            events := net.events ++ [Arrival.mk net.sent.length dst q (sample map)]
            sent := net.sent ++ [Sent.mk i q j] }) := by
  by_cases hnull : net.registry.numHandles ≤ q
  · exact .inl ⟨fun hq => absurd hnull (not_le.mpr hq), by rw [send, if_pos hnull]⟩
  by_cases hlocal : net.registry.IsLocal i q
  swap
  · refine .inl ⟨fun _ hl => absurd hl hlocal, ?_⟩
    rw [send, if_neg hnull]
    split_ifs <;> rfl
  have hlost : net.registry.getLocation q ≠ .lost := fun he => by
    cases he.symm.trans hlocal
  cases hr : (net.networkers i).hostRoutes j with
  | none =>
      refine .inl ⟨fun _ _ => Option.eq_none_iff_forall_ne_some.mpr fun chan hl => ?_, ?_⟩
      · obtain ⟨oif, hoif⟩ := h.routed i j chan hl
        cases hr.symm.trans hoif
      · rw [send, if_neg hnull, if_neg hlost, if_neg (not_not.mpr hlocal), hr]
  | some oif =>
      obtain ⟨dev, dev', chan, hl⟩ := h.leads i j oif hr
      obtain ⟨map, hend, hb⟩ := hl.otherEnd
      refine .inr ⟨⟨not_le.mp hnull, hlocal⟩, chan, dev', map, hl.link, hb, hl.receiver,
        hl.dev'_lt, ?_⟩
      have hset : net.registry.setLocationChannel q chan =
          net.registry.setLocation q (.channel chan) := by
        rw [setLocationChannel, if_neg hlost]
      have hnum : ¬ (net.registry.setLocation q (.channel chan)).numHandles ≤ q := hnull
      have hon : (net.registry.setLocation q (.channel chan)).getLocation q ≠ .lost := by
        rw [getLocation_setLocation]
        intro he
        cases he
      rw [send, if_neg hnull, if_neg hlost, if_neg (not_not.mpr hlocal), hr]
      dsimp only
      rw [hl.iface]
      dsimp only
      rw [hl.attached]
      dsimp only
      rw [hset, sendFrom, if_neg hnum, if_neg hon, hend]

/-! ## Delivering -/

/-- What `AdoptQubit` does to the location. -/
theorem getLocation_adoptQubit {w : QStateRegistry} (hq : q < w.numHandles)
    (node : NodeId) : (w.adoptQubit node q).getLocation q =
      if w.getLocation q = .lost then .lost else .node node := by
  rw [adoptQubit, if_neg (not_le.mpr hq)]
  split_ifs with hlost
  · exact hlost
  · rw [setLocationNode, if_neg hlost, getLocation_setLocation]

/-- The registry that an arrival at `node` leads to. -/
noncomputable def arrive (net : Network) (node : NodeId) (e : Arrival) :
    Except Exit Unit × QStateRegistry :=
  e.map.run node e.q (net.registry.adoptQubit node e.q)

theorem receiveFromDevice_snd (net : Network) (node : NodeId) (e : Arrival) :
    (net.receiveFromDevice node e.q e.map).2 = (net.arrive node e).2 := by
  rw [receiveFromDevice, arrive]
  cases e.map.run node e.q (net.registry.adoptQubit node e.q) with
  | mk res w => cases res <;> rfl

/-- What a delivery does, when the process does not end in the map. -/
structure Arrives (net net' : Network) (k : ℕ) (e : Arrival) (node : NodeId) :
    Prop where
  registry : net'.registry = (net.arrive node e).2
  events : net'.events = net.events.eraseIdx k
  delivered : net'.delivered = net.delivered ++ [Delivered.mk e.serial node e.q]
  sent : net'.sent = net.sent
  wiring : SameWiring net net'

theorem deliver_arrives {k : ℕ} {e : Arrival} (he : net.events[k]? = some e)
    {node : NodeId} (hn : (net.devices e.dst).networker = some node)
    (hs : net.deliver k = some net') : Arrives net net' k e node := by
  have hreg := receiveFromDevice_snd net node e
  have hwiring : ∀ {w : QStateRegistry} {events : List Arrival}
      {delivered : List Delivered} {called : List (CallbackId × QubitPtr)},
      SameWiring net { net with
        registry := w, events := events, delivered := delivered, called := called } :=
    ⟨fun _ => rfl, fun _ => rfl, rfl, rfl, rfl, rfl, fun _ _ _ map hend hb =>
      ⟨map, hend, hb⟩⟩
  rw [deliver, he] at hs
  dsimp only at hs
  rw [hn] at hs
  dsimp only at hs
  split at hs
  · cases hs
  all_goals
    next heq =>
    rw [heq] at hreg
    rw [← Option.some.inj hs]
    exact ⟨hreg, rfl, rfl, rfl, hwiring⟩

/-- Only a map that ends the process keeps an arrival from being delivered. -/
theorem deliver_isSome {k : ℕ} {e : Arrival} (he : net.events[k]? = some e)
    {node : NodeId} (hn : (net.devices e.dst).networker = some node)
    (hmap : ∀ what, (net.arrive node e).1 ≠ .error (.aborted what)) :
    ∃ net', net.deliver k = some net' := by
  rw [deliver, he]
  dsimp only
  rw [hn]
  dsimp only
  split
  · next what w heq =>
    rw [receiveFromDevice] at heq
    rw [arrive] at hmap
    cases hres : e.map.run node e.q (net.registry.adoptQubit node e.q) with
    | mk res w' =>
        rw [hres] at heq hmap
        cases res with
        | error err =>
            have herr : err = .aborted what := Except.error.inj (congrArg Prod.fst heq)
            exact absurd (congrArg Except.error herr) (hmap what)
        | ok _ => cases congrArg Prod.fst heq
  all_goals exact ⟨_, rfl⟩

/-- A delivered qubit is local to the receiver, or lost: on the way, or in the
map. -/
theorem arrive_settles (h : net.registry.Registered) {e : Arrival}
    (hq : e.q < net.registry.numHandles) (hp : e.map.Plain) (node : NodeId) :
    net.registry.Moves (net.arrive node e).2 [e.q] ∧
      ((net.arrive node e).2.IsLocal node e.q ∨
        (net.arrive node e).2.getLocation e.q = .lost ∧
          (net.registry.getLocation e.q = .lost ∨ e.map.Drops)) := by
  have hadopt := h.adoptQubit node e.q
  obtain ⟨hm, hl⟩ := hp.run node hadopt.registered (hq.trans_le hadopt.handles)
  refine ⟨hadopt.trans hm fun x hx _ => hx, ?_⟩
  rw [getLocation_adoptQubit hq] at hl
  rcases hl with hl | ⟨hd, hl⟩
  · split_ifs at hl with hlost
    · exact .inr ⟨hl, .inl hlost⟩
    · exact .inl hl
  · exact .inr ⟨hl, .inr hd⟩

/-! ## Runs -/

/-- The actions of a simulation program on installed links: the nodes' operations,
marking a qubit lost, built-in maps; the locations are otherwise left to the
network. -/
def Allowed (_ : Network) : Action → Prop
  | .registry op => placed op = [] ∨ ∃ q, op = .setLocationLost q
  | .setQMaps _ ab ba => QMap.BuiltIn ab ∧ QMap.BuiltIn ba
  | .send _ _ _ sample => ∀ map, QMap.BuiltIn map → QMap.Sample map (sample map)
  | _ => True

/-- An arrival that is scheduled: the send it belongs to, its receiver, and the
channel its qubit is on unless it has been marked lost. -/
structure Flying (net : Network) (e : Arrival) (r : Sent) (chan : ChannelId) :
    Prop where
  sent : net.sent[e.serial]? = some r
  qubit : r.q = e.q
  dst_lt : e.dst < net.numDevices
  receiver : (net.devices e.dst).networker = some r.dst
  link : net.links (linkKey r.src r.dst) = some chan
  location : net.registry.getLocation e.q = .channel chan ∨
    net.registry.getLocation e.q = .lost
  plain : e.map.Plain

/-- Every send is on its way or has been delivered, once and where it was sent. -/
structure Traffic (net : Network) : Prop where
  sound : net.Sound
  wired : net.Wired
  serials : (net.events.map Arrival.serial ++
    net.delivered.map Delivered.serial).Perm (List.range net.sent.length)
  flying : ∀ e ∈ net.events, ∃ r chan, net.Flying e r chan
  apart : (net.events.map Arrival.q).Nodup
  arrived : ∀ d ∈ net.delivered, ∃ r, net.sent[d.serial]? = some r ∧ r.q = d.q ∧
    r.dst = d.node

theorem traffic_init : Traffic {} where
  sound := sound_init
  wired := wired_init
  serials := .refl _
  flying := fun _ he => absurd he List.not_mem_nil
  apart := List.nodup_nil
  arrived := fun _ hd => absurd hd List.not_mem_nil

/-- The wiring grows. -/
structure Extends (net net' : Network) : Prop where
  wired : net'.Wired
  numDevices : net.numDevices ≤ net'.numDevices
  devices : ∀ d < net.numDevices, net'.devices d = net.devices d
  links : ∀ key chan, net.links key = some chan → net'.links key = some chan

theorem Wired.extends_refl (h : net.Wired) : Extends net net :=
  ⟨h, le_rfl, fun _ _ => rfl, fun _ _ hl => hl⟩

theorem Extends.trans {net'' : Network} (h : Extends net net')
    (h' : Extends net' net'') : Extends net net'' :=
  ⟨h'.wired, h.numDevices.trans h'.numDevices, fun d hd =>
    (h'.devices d (hd.trans_le h.numDevices)).trans (h.devices d hd),
    fun key chan hl => h'.links key chan (h.links key chan hl)⟩

theorem SameWiring.extends (hsame : SameWiring net net') (h : net.Wired) :
    Extends net net' :=
  ⟨hsame.wired h, hsame.numDevices.ge, fun d _ => by rw [hsame.devices],
    fun key chan hl => by rw [hsame.links]; exact hl⟩

theorem Wired.installQuantumLink (h : net.Wired) (a b : Option NodeId) :
    Extends net (net.installQuantumLink a b) := by
  rcases installQuantumLink_cases net a b with heq | ⟨x, y, -, -, hnone, hi⟩
  · rw [heq]
    exact h.extends_refl
  · refine ⟨h.installed hi, hi.numDevices ▸ Nat.le_add_right _ _, hi.oldDevices,
      fun key chan hl => ?_⟩
    have hne : key ≠ linkKey x y := fun he => by
      rw [he, hnone] at hl
      cases hl
    rw [hi.links, Function.update_of_ne hne]
    exact hl

theorem Wired.installUnlessSkipped (h : net.Wired) (a b : Option NodeId) :
    Extends net (net.installUnlessSkipped a b) := by
  rw [Network.installUnlessSkipped]
  split_ifs
  · exact h.extends_refl
  · exact h.extends_refl
  · exact h.installQuantumLink a b

theorem Wired.installQuantumChain {nodes : List (Option NodeId)} (h : net.Wired) :
    Extends net (Network.installQuantumChain nodes net) := by
  fun_induction Network.installQuantumChain nodes net with
  | case1 a b nodes net ih =>
      have hone := h.installUnlessSkipped a b
      exact hone.trans (ih hone.wired)
  | case2 => exact h.extends_refl

theorem Wired.installQuantumAllToAll {nodes : List (Option NodeId)} (h : net.Wired) :
    Extends net (Network.installQuantumAllToAll nodes net) := by
  have hrow : ∀ (a : Option NodeId) (nodes : List (Option NodeId)) (net : Network),
      net.Wired → Extends net
        (nodes.foldl (fun net b => net.installUnlessSkipped a b) net) := by
    intro a nodes
    induction nodes with
    | nil => exact fun net h => h.extends_refl
    | cons b nodes ih =>
        intro net h
        have hone := h.installUnlessSkipped a b
        exact hone.trans (ih _ hone.wired)
  induction nodes generalizing net with
  | nil => exact h.extends_refl
  | cons a nodes ih =>
      have hone := hrow a nodes net h
      exact hone.trans (ih hone.wired)

theorem Flying.extend {e : Arrival} {r : Sent} {chan : ChannelId}
    (h : net.Flying e r chan) (hx : Extends net net')
    (hsent : net'.sent[e.serial]? = net.sent[e.serial]?)
    (hloc : net'.registry.getLocation e.q = net.registry.getLocation e.q ∨
      net'.registry.getLocation e.q = .lost) : net'.Flying e r chan where
  sent := hsent.trans h.sent
  qubit := h.qubit
  dst_lt := h.dst_lt.trans_le hx.numDevices
  receiver := by rw [hx.devices e.dst h.dst_lt]; exact h.receiver
  link := hx.links _ _ h.link
  location := hloc.elim (fun he => he ▸ h.location) .inr
  plain := h.plain

/-- A step that neither sends nor delivers. -/
theorem Traffic.keep (h : net.Traffic) (hx : Extends net net') (hs : net'.Sound)
    (he : net'.events = net.events) (hd : net'.delivered = net.delivered)
    (hsent : net'.sent = net.sent)
    (hloc : ∀ e ∈ net.events,
      net'.registry.getLocation e.q = net.registry.getLocation e.q ∨
        net'.registry.getLocation e.q = .lost) : net'.Traffic where
  sound := hs
  wired := hx.wired
  serials := by rw [he, hd, hsent]; exact h.serials
  flying := fun e hmem => by
    rw [he] at hmem
    obtain ⟨r, chan, hf⟩ := h.flying e hmem
    exact ⟨r, chan, hf.extend hx (by rw [hsent]) (hloc e hmem)⟩
  apart := by rw [he]; exact h.apart
  arrived := by rw [hd, hsent]; exact h.arrived

theorem SameTraffic.traffic (hsame : SameTraffic net net') (h : net.Traffic)
    (hx : Extends net net') : net'.Traffic :=
  h.keep hx (hsame.forward h.sound).sound hsame.events hsame.delivered hsame.sent
    fun e _ => .inl (by rw [hsame.registry])

/-- A scheduled qubit is not local anywhere. -/
theorem Flying.not_local {e : Arrival} {r : Sent} {chan : ChannelId}
    (h : net.Flying e r chan) (node : NodeId) :
    ¬ net.registry.IsLocal node e.q := by
  intro hl
  rcases h.location with hloc | hloc
  · cases hloc.symm.trans hl
  · cases hloc.symm.trans hl

theorem Traffic.send (h : net.Traffic) (i : NodeId) (q : QubitPtr) (j : NodeId)
    {sample : Option QMap → QMapInstance}
    (hsample : ∀ map, QMap.BuiltIn map → QMap.Sample map (sample map)) :
    (net.send i q j sample).2.Traffic := by
  have hsound := (h.sound.send i q j sample).sound
  rcases h.wired.send_cases i q j sample with ⟨-, heq⟩ | ⟨⟨hq, hlocal⟩, chan, dst, map,
    hl, hb, hrecv, hdst, heq⟩
  · rw [heq]
    exact h
  have hnew : q ∉ net.events.map Arrival.q := by
    intro hmem
    obtain ⟨e, he, rfl⟩ := List.mem_map.mp hmem
    obtain ⟨r, c, hf⟩ := h.flying e he
    exact hf.not_local i hlocal
  have hmoves := h.sound.registered.setLocation hq (.channel chan)
  rw [heq] at hsound ⊢
  have hold : ∀ e ∈ net.events, e.serial < net.sent.length := fun e he => by
    have := h.serials.mem_iff.mp (List.mem_append_left _ (List.mem_map_of_mem he))
    exact List.mem_range.mp this
  have holdd : ∀ d ∈ net.delivered, d.serial < net.sent.length := fun d hd => by
    have := h.serials.mem_iff.mp (List.mem_append_right _ (List.mem_map_of_mem hd))
    exact List.mem_range.mp this
  have hx : Extends net { net with
      registry := net.registry.setLocation q (.channel chan)
      events := net.events ++ [Arrival.mk net.sent.length dst q (sample map)]
      sent := net.sent ++ [Sent.mk i q j] } :=
    SameWiring.extends ⟨fun _ => rfl, fun _ => rfl, rfl, rfl, rfl, rfl,
      fun _ _ _ map hend hb => ⟨map, hend, hb⟩⟩ h.wired
  refine ⟨hsound, hx.wired, ?_, fun e he => ?_, ?_, fun d hd => ?_⟩
  · dsimp only
    rw [List.map_append, List.length_append, List.length_singleton, List.range_succ]
    refine List.Perm.trans ?_ (h.serials.append_right [net.sent.length])
    rw [List.append_assoc, List.append_assoc]
    exact List.perm_append_comm.append_left _
  · rcases List.mem_append.mp he with he | he
    · obtain ⟨r, c, hf⟩ := h.flying e he
      refine ⟨r, c, hf.extend hx (List.getElem?_append_left (hold e he)) (.inl ?_)⟩
      refine hmoves.locations e.q (h.sound.carried e he) fun hmem => hnew ?_
      rw [← List.mem_singleton.mp hmem]
      exact List.mem_map_of_mem he
    · rw [List.mem_singleton.mp he]
      exact ⟨⟨i, q, j⟩, chan, List.getElem?_concat_length, rfl, hdst, hrecv, hl,
        .inl (getLocation_setLocation _ _), (hsample map hb).plain hb⟩
  · dsimp only
    rw [List.map_append, List.nodup_append]
    refine ⟨h.apart, List.nodup_singleton _, fun x hmem y hy he => hnew ?_⟩
    obtain rfl : y = q := List.mem_singleton.mp hy
    exact he ▸ hmem
  · obtain ⟨r, hr, hrest⟩ := h.arrived d hd
    exact ⟨r, (List.getElem?_append_left (holdd d hd)).trans hr, hrest⟩

theorem Traffic.deliver (h : net.Traffic) {k : ℕ} (hs : net.deliver k = some net') :
    net'.Traffic := by
  have hsound := (h.sound.deliver hs).sound
  obtain ⟨e, he⟩ : ∃ e, net.events[k]? = some e := by
    cases he : net.events[k]? with
    | none => rw [Network.deliver, he] at hs; cases hs
    | some e => exact ⟨e, rfl⟩
  obtain ⟨hlt, rfl⟩ := List.getElem?_eq_some_iff.mp he
  have hmem : net.events[k] ∈ net.events := List.getElem_mem hlt
  obtain ⟨r, chan, hf⟩ := h.flying _ hmem
  have ha := deliver_arrives he hf.receiver hs
  obtain ⟨hmoves, -⟩ := arrive_settles h.sound.registered (h.sound.carried _ hmem)
    hf.plain r.dst
  have hx := ha.wiring.extends h.wired
  have hperm : (net.events[k] :: net.events.eraseIdx k).Perm net.events :=
    List.getElem_cons_eraseIdx_perm hlt
  have hapart := ((hperm.map Arrival.q).nodup_iff.mpr h.apart)
  rw [List.map_cons, List.nodup_cons] at hapart
  refine ⟨hsound, hx.wired, ?_, fun e' he' => ?_, ?_, fun d hd => ?_⟩
  · rw [ha.events, ha.delivered, ha.sent, List.map_append]
    refine List.Perm.trans ?_ (((hperm.map Arrival.serial).append_right _).trans
      h.serials)
    rw [← List.append_assoc]
    exact List.perm_append_comm
  · rw [ha.events] at he'
    obtain ⟨r', c', hf'⟩ := h.flying e' (List.mem_of_mem_eraseIdx he')
    refine ⟨r', c', hf'.extend hx (by rw [ha.sent]) (.inl ?_)⟩
    rw [ha.registry]
    refine hmoves.locations e'.q (h.sound.carried e' (List.mem_of_mem_eraseIdx he'))
      fun hq => hapart.1 ?_
    rw [← List.mem_singleton.mp hq]
    exact List.mem_map_of_mem he'
  · rw [ha.events]
    exact hapart.2
  · rw [ha.delivered] at hd
    rw [ha.sent]
    rcases List.mem_append.mp hd with hd | hd
    · exact h.arrived d hd
    · rw [List.mem_singleton.mp hd]
      exact ⟨r, hf.sent, hf.qubit, rfl⟩

/-- An operation that is allowed only loses qubits. -/
theorem step_allowed {w w' : QStateRegistry} (h : w.Registered) {op : Op}
    (hop : placed op = [] ∨ ∃ q, op = .setLocationLost q) (hs : w.step op = some w')
    {x : QubitPtr} (hx : x < w.numHandles) :
    w'.getLocation x = w.getLocation x ∨
      op = .setLocationLost x ∧ w'.getLocation x = .lost := by
  have hmoves := h.exec op
  have heq : (w.exec op).2 = w' := by
    rw [step] at hs
    split at hs
    · cases hs
    · next heq =>
      rw [heq]
      exact Option.some.inj hs
  rw [heq] at hmoves
  rcases hop with hop | ⟨q, rfl⟩
  · exact .inl (hmoves.locations x hx (by rw [hop]; exact List.not_mem_nil))
  · by_cases hq : x = q
    · subst hq
      rw [exec, onHandle, if_neg (not_le.mpr hx)] at heq
      refine .inr ⟨rfl, ?_⟩
      rw [← heq]
      exact getLocation_setLocation _ _
    · exact .inl (hmoves.locations x hx fun hmem => hq (List.mem_singleton.mp hmem))

theorem Traffic.act (h : net.Traffic) {a : Action} (ha : Allowed net a)
    (hs : net.act a = some net') : net'.Traffic := by
  have hsound := (h.sound.act hs).sound
  have hnoted : ∀ {w : QStateRegistry}, SameWiring net { net with registry := w } :=
    ⟨fun _ => rfl, fun _ => rfl, rfl, rfl, rfl, rfl,
      fun _ _ _ map hend hb => ⟨map, hend, hb⟩⟩
  cases a with
  | installQuantumLink a b =>
      rw [← Option.some.inj hs]
      exact (sameTraffic_installQuantumLink a b).traffic h (h.wired.installQuantumLink a b)
  | installQuantumChain nodes =>
      rw [← Option.some.inj hs]
      exact (sameTraffic_installQuantumChain nodes).traffic h h.wired.installQuantumChain
  | installQuantumAllToAll nodes =>
      rw [← Option.some.inj hs]
      exact (sameTraffic_installQuantumAllToAll nodes).traffic h
        h.wired.installQuantumAllToAll
  | setQMaps chan ab ba =>
      rw [← Option.some.inj hs] at hsound ⊢
      exact h.keep ((sameWiring_setQMaps chan ha.1 ha.2).extends h.wired) hsound rfl rfl
        rfl fun _ _ => .inl rfl
  | setRecvCallback node cb =>
      rw [← Option.some.inj hs] at hsound ⊢
      exact h.keep ((sameWiring_setRecvCallback node cb).extends h.wired) hsound rfl rfl
        rfl fun _ _ => .inl rfl
  | registry op =>
      obtain ⟨w, hw, rfl⟩ := Option.map_eq_some_iff.mp hs
      exact h.keep (hnoted.extends h.wired) hsound rfl rfl rfl fun e he =>
        (step_allowed h.sound.registered ha hw (h.sound.carried e he)).imp id And.right
  | mergeStates qs =>
      have hm := (h.sound.registered.mergeStates qs).moves h.sound.registered
      rw [Network.act] at hs
      split at hs
      · cases hs
      · next heq =>
        rw [heq] at hm
        rw [← Option.some.inj hs] at hsound ⊢
        exact h.keep (hnoted.extends h.wired) hsound rfl rfl rfl fun e he =>
          .inl (hm.locations e.q (h.sound.carried e he) List.not_mem_nil)
  | send node q dstNode sample =>
      rw [← Option.some.inj hs]
      exact h.send node q dstNode ha
  | deliver k => exact h.deliver hs

/-- In a network of installed links: `Send` accepts exactly the local qubits for
which there is a link, and then schedules one arrival; every accepted send is
delivered once or still scheduled, at the node it was sent to; a scheduled qubit is
on the channel of its link and out of reach of every node; a delivery runs unless
the map ends the process, and leaves the qubit local to the receiver or lost. -/
structure DeliversOnce (net : Network) : Prop where
  installs : ∀ a net', net.act a = some net' → ∀ i j,
    net'.Linked i j ↔ net.Linked i j ∨ a.Installs i j
  sends : ∀ i q j sample, q < net.registry.numHandles →
    ((net.send i q j sample).1 = true ↔ net.registry.IsLocal i q ∧ net.Linked i j)
  schedules : ∀ i q j sample, (net.send i q j sample).1 = true →
    ∃ e chan, (net.send i q j sample).2.events = net.events ++ [e] ∧
      (net.send i q j sample).2.sent = net.sent ++ [⟨i, q, j⟩] ∧
      e.serial = net.sent.length ∧ e.q = q ∧ net.links (linkKey i j) = some chan ∧
      (net.send i q j sample).2.registry.getLocation q = .channel chan
  once : (net.events.map Arrival.serial ++
    net.delivered.map Delivered.serial).Perm (List.range net.sent.length)
  arrived : ∀ d ∈ net.delivered, ∃ r, net.sent[d.serial]? = some r ∧ r.q = d.q ∧
    r.dst = d.node
  flying : ∀ e ∈ net.events, ∃ r chan, net.Flying e r chan ∧ net.Inert e.q
  delivers : ∀ k e r, net.events[k]? = some e → net.sent[e.serial]? = some r →
    (∀ what, (net.arrive r.dst e).1 ≠ .error (.aborted what)) →
      ∃ net', net.deliver k = some net' ∧
        net'.delivered = net.delivered ++ [⟨e.serial, r.dst, e.q⟩] ∧
        (net'.registry.IsLocal r.dst e.q ∨ net'.registry.getLocation e.q = .lost ∧
          (net.registry.getLocation e.q = .lost ∨ e.map.Drops))
  undisturbed : ∀ a net', Allowed net a → net.act a = some net' → ∀ e ∈ net.events,
    e ∈ net'.events → net'.registry.getLocation e.q = net.registry.getLocation e.q ∨
      a = .registry (.setLocationLost e.q)

theorem Traffic.undisturbed (h : net.Traffic) {a : Action} (ha : Allowed net a)
    (hs : net.act a = some net') {e : Arrival} (he : e ∈ net.events)
    (he' : e ∈ net'.events) :
    net'.registry.getLocation e.q = net.registry.getLocation e.q ∨
      a = .registry (.setLocationLost e.q) := by
  cases a with
  | installQuantumLink a b =>
      rw [← Option.some.inj hs, (sameTraffic_installQuantumLink a b).registry]
      exact .inl rfl
  | installQuantumChain nodes =>
      rw [← Option.some.inj hs, (sameTraffic_installQuantumChain nodes).registry]
      exact .inl rfl
  | installQuantumAllToAll nodes =>
      rw [← Option.some.inj hs, (sameTraffic_installQuantumAllToAll nodes).registry]
      exact .inl rfl
  | setQMaps chan ab ba =>
      rw [← Option.some.inj hs]
      exact .inl rfl
  | setRecvCallback node cb =>
      rw [← Option.some.inj hs]
      exact .inl rfl
  | registry op =>
      obtain ⟨w, hw, rfl⟩ := Option.map_eq_some_iff.mp hs
      exact (step_allowed h.sound.registered ha hw (h.sound.carried e he)).imp id
        fun hlost => congrArg Action.registry hlost.1
  | mergeStates qs =>
      have hm := (h.sound.registered.mergeStates qs).moves h.sound.registered
      rw [Network.act] at hs
      split at hs
      · cases hs
      · next heq =>
        rw [heq] at hm
        rw [← Option.some.inj hs]
        exact .inl (hm.locations e.q (h.sound.carried e he) List.not_mem_nil)
  | send node q dstNode sample =>
      rw [← Option.some.inj hs]
      rcases h.wired.send_cases node q dstNode sample with ⟨-, heq⟩ | ⟨⟨hq, hlocal⟩,
        chan, dst, map, -, -, -, -, heq⟩
      · rw [heq]
        exact .inl rfl
      · obtain ⟨r, c, hf⟩ := h.flying e he
        rw [heq]
        refine .inl ((h.sound.registered.setLocation hq _).locations e.q
          (h.sound.carried e he) fun hmem => hf.not_local node ?_)
        rw [List.mem_singleton.mp hmem]
        exact hlocal
  | deliver k =>
      obtain ⟨e₀, he₀⟩ : ∃ e₀, net.events[k]? = some e₀ := by
        cases he₀ : net.events[k]? with
        | none => rw [Network.act, Network.deliver, he₀] at hs; cases hs
        | some e₀ => exact ⟨e₀, rfl⟩
      obtain ⟨hlt, rfl⟩ := List.getElem?_eq_some_iff.mp he₀
      have hmem : net.events[k] ∈ net.events := List.getElem_mem hlt
      obtain ⟨r, chan, hf⟩ := h.flying _ hmem
      have ha := deliver_arrives he₀ hf.receiver hs
      obtain ⟨hmoves, -⟩ := arrive_settles h.sound.registered (h.sound.carried _ hmem)
        hf.plain r.dst
      have hapart := (((List.getElem_cons_eraseIdx_perm hlt).map
        Arrival.q).nodup_iff.mpr h.apart)
      rw [List.map_cons, List.nodup_cons] at hapart
      rw [ha.events] at he'
      rw [ha.registry]
      refine .inl (hmoves.locations e.q (h.sound.carried e he) fun hq => hapart.1 ?_)
      rw [← List.mem_singleton.mp hq]
      exact List.mem_map_of_mem he'

/-- Links are made by installations only. -/
theorem Traffic.linked_act (h : net.Traffic) {a : Action} (hs : net.act a = some net')
    (i j : NodeId) : net'.Linked i j ↔ net.Linked i j ∨ a.Installs i j := by
  have hsame : net'.links = net.links → (net'.Linked i j ↔ net.Linked i j ∨ False) := by
    intro hl
    rw [Linked, hl, or_false]
    exact Iff.rfl
  cases a with
  | installQuantumLink a b =>
      rw [← Option.some.inj hs]
      exact linked_installQuantumLink a b i j
  | installQuantumChain nodes =>
      rw [← Option.some.inj hs]
      exact linked_installQuantumChain nodes i j
  | installQuantumAllToAll nodes =>
      rw [← Option.some.inj hs]
      exact linked_installQuantumAllToAll nodes i j
  | setQMaps chan ab ba => exact hsame (by rw [← Option.some.inj hs])
  | setRecvCallback node cb => exact hsame (by rw [← Option.some.inj hs])
  | registry op =>
      obtain ⟨w, -, rfl⟩ := Option.map_eq_some_iff.mp hs
      exact hsame rfl
  | mergeStates qs =>
      rw [Network.act] at hs
      split at hs
      · cases hs
      · exact hsame (by rw [← Option.some.inj hs])
  | send node q dstNode sample =>
      obtain rfl : (net.send node q dstNode sample).2 = net' := Option.some.inj hs
      refine hsame ?_
      rcases h.wired.send_cases node q dstNode sample with ⟨-, heq⟩ | ⟨-, _, _, _, -, -,
        -, -, heq⟩
      · rw [heq]
      · rw [heq]
  | deliver k =>
      obtain ⟨e, he⟩ : ∃ e, net.events[k]? = some e := by
        cases he : net.events[k]? with
        | none => rw [Network.act, Network.deliver, he] at hs; cases hs
        | some e => exact ⟨e, rfl⟩
      obtain ⟨r, chan, hf⟩ := h.flying e (List.mem_of_getElem? he)
      exact hsame (deliver_arrives he hf.receiver hs).wiring.links

/-- Two nodes with a link, and a qubit at each. -/
def twoNodes : Network :=
  let w := (QStateRegistry.empty.newObject (.stab (QStateStab.init 1))).2
  let w := (w.createQubitFrom 0 0).2
  let w := (w.newObject (.stab (QStateStab.init 1))).2
  twoNodesOver (w.createQubitFrom 1 1).2

theorem twoNodes_run : Run Allowed {} twoNodes :=
  (((((Relation.ReflTransGen.single
    ⟨.installQuantumLink (some 0) (some 1), trivial, rfl⟩).tail
    ⟨.setRecvCallback 1 7, trivial, rfl⟩).tail
    ⟨.registry (.newState (.stab (QStateStab.init 1))), .inl rfl, rfl⟩).tail
    ⟨.registry (.createQubitFrom 0 0), .inl rfl, rfl⟩).tail
    ⟨.registry (.newState (.stab (QStateStab.init 1))), .inl rfl, rfl⟩).tail
    ⟨.registry (.createQubitFrom 1 1), .inl rfl, rfl⟩

/-- The two nodes after each has sent its qubit to the other. -/
def crossing (sample : Option QMap → QMapInstance) : Network :=
  ((twoNodes.send 0 0 1 sample).2.send 1 1 0 sample).2

theorem crossing_run {sample : Option QMap → QMapInstance}
    (hsample : ∀ map, QMap.BuiltIn map → QMap.Sample map (sample map)) :
    Run Allowed {} (crossing sample) :=
  (twoNodes_run.tail ⟨.send 0 0 1 sample, hsample, rfl⟩).tail
    ⟨.send 1 1 0 sample, hsample, rfl⟩

theorem crossing_events (sample : Option QMap → QMapInstance) :
    (crossing sample).events = [⟨0, 1, 0, sample none⟩, ⟨1, 0, 1, sample none⟩] := rfl

/-- Every network that is built by installing links, over every run. -/
theorem links_deliver_once (hrun : Run Allowed {} net) : net.DeliversOnce := by
  have h : net.Traffic := hrun.invariant
    (fun _ _ _ h ha hs => Traffic.act h ha hs) traffic_init
  refine ⟨fun a net' hs i j => h.linked_act hs i j, fun i q j sample hq => ?_,
    fun i q j sample hok => ?_, h.serials, h.arrived,
    fun e he => ?_, fun k e r he hr hmap => ?_, fun a net' ha hs e he he' =>
      h.undisturbed ha hs he he'⟩
  · rcases h.wired.send_cases i q j sample with ⟨hno, heq⟩ | ⟨⟨-, hlocal⟩, chan, dst,
      map, hl, -, -, -, heq⟩
    · rw [heq]
      refine ⟨fun hf => (nomatch hf), fun ⟨hlocal, hl⟩ => ?_⟩
      rw [Linked, hno hq hlocal] at hl
      cases hl
    · rw [heq, Linked, hl]
      exact ⟨fun _ => ⟨hlocal, rfl⟩, fun _ => rfl⟩
  · rcases h.wired.send_cases i q j sample with ⟨-, heq⟩ | ⟨⟨hq, hlocal⟩, chan, dst,
      map, hl, -, -, -, heq⟩
    · rw [heq] at hok
      cases hok
    · rw [heq]
      exact ⟨_, chan, rfl, rfl, rfl, rfl, hl, getLocation_setLocation _ _⟩
  · obtain ⟨r, chan, hf⟩ := h.flying e he
    exact ⟨r, chan, hf, inert_of_not_local (h.sound.carried e he) hf.not_local⟩
  · obtain ⟨r', chan, hf⟩ := h.flying e (List.mem_of_getElem? he)
    obtain rfl : r' = r := Option.some.inj (hf.sent.symm.trans hr)
    obtain ⟨net', hs⟩ := deliver_isSome he hf.receiver hmap
    have ha := deliver_arrives he hf.receiver hs
    refine ⟨net', hs, ha.delivered, ?_⟩
    rw [ha.registry]
    exact (arrive_settles h.sound.registered
      (h.sound.carried e (List.mem_of_getElem? he)) hf.plain r'.dst).2

/-- The two qubits in flight in opposite directions; the second arrives first. -/
theorem links_deliver_once_two : ∃ net net' : Network,
    Run Allowed {} net ∧ net.DeliversOnce ∧ net.sent = [⟨0, 0, 1⟩, ⟨1, 1, 0⟩] ∧
      net.events = [⟨0, 1, 0, .identity⟩, ⟨1, 0, 1, .identity⟩] ∧
      net.registry.getLocation 0 = .channel 0 ∧
      net.deliver 1 = some net' ∧ net'.DeliversOnce ∧
      net'.delivered = [⟨1, 0, 1⟩] ∧ net'.registry.IsLocal 0 1 ∧
      net'.events = [⟨0, 1, 0, .identity⟩] ∧ net'.registry.getLocation 0 = .channel 0 := by
  obtain ⟨sample, hsample⟩ := QMap.exists_sampling
  have hrun := crossing_run hsample
  have hevents := crossing_events sample
  rw [(hsample none .null).eq_identity] at hevents
  have hsent : (crossing sample).sent = [⟨0, 0, 1⟩, ⟨1, 1, 0⟩] := rfl
  have hdone : (crossing sample).delivered = [] := rfl
  have hfirst : (crossing sample).registry.getLocation 0 = .channel 0 := rfl
  have hsecond : (crossing sample).registry.getLocation 1 = .channel 0 := rfl
  have hnode : ((crossing sample).devices 0).networker = some 0 := rfl
  generalize crossing sample = net at hrun hevents hsent hdone hfirst hsecond hnode
  have hnet := links_deliver_once hrun
  have he : net.events[1]? = some ⟨1, 0, 1, .identity⟩ := by rw [hevents]; rfl
  obtain ⟨net', hs, hdelivered, harrived⟩ := hnet.delivers 1 _ ⟨1, 1, 0⟩ he
    (by rw [hsent]; rfl) (fun what h => by rw [arrive, QMapInstance.run] at h; cases h)
  have hevents' := (deliver_arrives he hnode hs).events
  rw [hevents] at hevents'
  rw [hdone] at hdelivered
  refine ⟨net, net', hrun, hnet, hsent, hevents, hfirst, hs,
    links_deliver_once (hrun.tail ⟨.deliver 1, trivial, hs⟩), hdelivered, ?_, hevents', ?_⟩
  · rcases harrived with hlocal | ⟨-, hlost | hdrops⟩
    · exact hlocal
    · rw [hsecond] at hlost
      cases hlost
    · cases hdrops
  · rcases hnet.undisturbed (.deliver 1) net' trivial hs ⟨0, 1, 0, .identity⟩
      (by rw [hevents]; exact .head _) (by rw [hevents']; exact .head _) with h | h
    · exact h.trans hfirst
    · cases h

end Network

end Q2NS
