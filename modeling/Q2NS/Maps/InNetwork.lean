import Q2NS.Maps.Dropped
import Q2NS.Network.Code

/-!
# Channel maps in the network

The network takes a sampled map as what it does to the registry at the receiver.  The maps
that draw from a stream come down to that: what they sample is a sample of the network's
map of the same shape, and a qubit is received through the one as it is through the other.
User code is taken with the operations that it performs.
-/

namespace Q2NS.Maps

open QStateRegistry Loop

variable {U : Type} {node : NodeId} {q : QubitPtr} {ctx : QMapContext}

/-! ## User code -/

/-- A user's function that performs operations and leaves the handle. -/
def Performs (node : NodeId) (q : QubitPtr) (fn : SimpleFn U) (ops : List Op) : Prop :=
  ∀ w : World U, (fn node (some q) w).1 = (runOps ops w.registry).1.map (fun _ => some q) ∧
    (fn node (some q) w).2.registry = (runOps ops w.registry).2

/-- A condition that only looks at the registry; none at all always holds. -/
def Looks (q : QubitPtr) (ctx : QMapContext) (pred : QStateRegistry → QubitPtr → Bool) :
    Option (Condition U) → Prop
  | none => ∀ w, pred w q = true
  | some cond => ∀ w : World U, cond (some q) ctx w = (.ok (pred w.registry q), w)

mutual

/-- The user code of a map is of this kind. -/
def QMap.Known (node : NodeId) (q : QubitPtr) (ctx : QMapContext) : QMap U → Prop
  | .lambda _ simple advanced => (∀ fn ∈ simple, ∃ ops, Performs node q fn ops) ∧
      ∀ fn ∈ advanced, ∃ ops, Performs node q (fn ctx) ops
  | .conditional cond qmap => (∃ pred, Looks q ctx pred cond) ∧ qmap.Known node q ctx
  | .composite maps => KnownAll node q ctx maps
  | _ => True

def KnownAll (node : NodeId) (q : QubitPtr) (ctx : QMapContext) : List (QMap U) → Prop
  | [] => True
  | m :: maps => m.Known node q ctx ∧ KnownAll node q ctx maps

end

/-! ## What is run -/

/-- A sampled map, and the network's. -/
inductive Models (node : NodeId) (q : QubitPtr) : QMapInstance U → Q2NS.QMapInstance → Prop
  where
  | empty : Models node q .empty .identity
  | noGate (id : MapId) : Models node q (.gate id none) .identity
  | gate (id : MapId) (g : QGate) : Models node q (.gate id (some g)) (.applyGate g)
  | kept (id : MapId) : Models node q (.lose id false) .identity
  | lost (id : MapId) : Models node q (.lose id true) .setLost
  | call {fn : SimpleFn U} {ops : List Op} (id : MapId) (h : Performs node q fn ops) :
      Models node q (.call id fn) (.user ops)
  | conditional {cond : Option (Condition U)} {ctx : QMapContext}
      {pred : QStateRegistry → QubitPtr → Bool} {inst : QMapInstance U}
      {inst' : Q2NS.QMapInstance} (hc : Looks q ctx pred cond) (h : Models node q inst inst') :
      Models node q (.conditional cond ctx inst) (.conditional pred inst')
  | compositeNil : Models node q (.composite []) (.composite [])
  | compositeCons {inst : QMapInstance U} {inst' : Q2NS.QMapInstance}
      {insts : List (QMapInstance U)} {insts' : List Q2NS.QMapInstance}
      (h : Models node q inst inst') (hs : Models node q (.composite insts) (.composite insts')) :
      Models node q (.composite (inst :: insts)) (.composite (inst' :: insts'))

/-- The same ending, with the handle left as it was, and the same registry. -/
structure Same (q : QubitPtr) (x : Except Fault (Option QubitPtr) × State U)
    (y : Except Exit Unit × QStateRegistry) : Prop where
  result : x.1 = (y.1.map fun _ => some q).mapError .exit
  registry : x.2.world.registry = y.2

theorem Models.run {inst : QMapInstance U} {inst' : Q2NS.QMapInstance}
    (h : Models node q inst inst') (s : State U) :
    Same q (inst.run node (some q) s) (inst'.run node q s.world.registry) := by
  induction h generalizing s with
  | empty => exact ⟨rfl, rfl⟩
  | noGate id => exact ⟨rfl, rfl⟩
  | gate id g =>
      rw [QMapInstance.run, Q2NS.QMapInstance.run, applyGate, ending]
      rcases s.world.registry.apply node g [q] with ⟨e | b, w⟩
      · exact ⟨rfl, rfl⟩
      · exact ⟨rfl, rfl⟩
  | kept id => exact ⟨rfl, rfl⟩
  | lost id => exact ⟨rfl, rfl⟩
  | @call fn ops id hfn =>
      obtain ⟨hresult, hregistry⟩ := hfn s.world
      rw [QMapInstance.run, Q2NS.QMapInstance.run]
      exact ⟨congrArg (Except.mapError Fault.exit) hresult, hregistry⟩
  | @conditional cond ctx pred inst inst' hc h ih =>
      rw [Q2NS.QMapInstance.run]
      by_cases hempty : inst = .empty
      · subst hempty
        cases h
        rw [Q2NS.QMapInstance.run, ite_self]
        cases cond <;> exact ⟨rfl, rfl⟩
      · cases cond with
        | none =>
            rw [if_pos (hc _), QMapInstance.run]
            · exact ih s
            · exact hempty
        | some cond =>
            rw [QMapInstance.run, hc s.world]
            · cases hp : pred s.world.registry q with
              | false => exact ⟨rfl, rfl⟩
              | true => exact ih s
            · exact hempty
  | compositeNil => exact ⟨rfl, rfl⟩
  | @compositeCons inst inst' insts insts' _ _ ih ihs =>
      obtain ⟨hresult, hregistry⟩ := ih s
      rw [QMapInstance.run, Q2NS.QMapInstance.run, runSteps, Q2NS.runSteps]
      generalize inst.run node (some q) s = ran at hresult hregistry ⊢
      generalize inst'.run node q s.world.registry = ran' at hresult hregistry ⊢
      obtain ⟨x, s'⟩ := ran
      rcases ran' with ⟨e | _, w⟩
      · obtain rfl : x = .error (.exit e) := hresult
        exact ⟨rfl, hregistry⟩
      · obtain rfl : x = .ok (some q) := hresult
        obtain rfl : s'.world.registry = w := hregistry
        have hrest := ihs s'
        rw [QMapInstance.run, Q2NS.QMapInstance.run] at hrest
        dsimp only [andThen]
        by_cases hlost : s'.world.registry.getLocation q = .lost
        · rw [if_pos (show s'.getLocation q = .lost from hlost), if_pos hlost]
          exact ⟨rfl, rfl⟩
        · rw [if_neg (show s'.getLocation q ≠ .lost from hlost), if_neg hlost]
          exact hrest

/-- A qubit is received as in the network. -/
theorem Models.receive {inst : QMapInstance U} {inst' : Q2NS.QMapInstance}
    (h : Models node q inst inst') (net : Network) {s : State U}
    (hs : s.world.registry = net.registry) :
    (receiveFromDevice (net.networkers node).recvCallback node inst q s).1 =
        ((net.receiveFromDevice node q inst').1.map fun cb => cb.map (·, q)).mapError .exit ∧
      (receiveFromDevice (net.networkers node).recvCallback node inst q s).2.world.registry =
        (net.receiveFromDevice node q inst').2 := by
  obtain ⟨hresult, hregistry⟩ := h.run (s.setRegistry (s.world.registry.adoptQubit node q))
  rw [show (s.setRegistry (s.world.registry.adoptQubit node q)).world.registry =
    net.registry.adoptQubit node q by rw [← hs]; rfl] at hresult hregistry
  rw [receiveFromDevice, Network.receiveFromDevice]
  generalize inst.run node (some q) (s.setRegistry (s.world.registry.adoptQubit node q)) =
    ran at hresult hregistry ⊢
  generalize inst'.run node q (net.registry.adoptQubit node q) = ran' at hresult hregistry ⊢
  obtain ⟨x, s'⟩ := ran
  rcases ran' with ⟨e | _, w⟩
  · obtain rfl : x = .error (.exit e) := hresult
    exact ⟨rfl, hregistry⟩
  · obtain rfl : x = .ok (some q) := hresult
    obtain rfl : s'.world.registry = w := hregistry
    refine ⟨?_, rfl⟩
    dsimp only [andThen, Except.map, Except.mapError]
    by_cases hlost : s'.world.registry.getLocation q = .lost
    · rw [if_pos (show s'.getLocation q = .lost from hlost), if_pos hlost]
      rfl
    · rw [if_neg (show s'.getLocation q ≠ .lost from hlost), if_neg hlost]

/-! ## What is sampled -/

/-- A map, and the network's map of the same shape; the gates of a `RandomUnitaryQMap` are
those that the stream can give. -/
inductive Outlines (q : QubitPtr) (ctx : QMapContext) : QMap U → Option Q2NS.QMap → Prop where
  | null : Outlines q ctx .null none
  | dephasing (id : MapId) (pr : Probability) : Outlines q ctx (.dephasing id pr) (some .dephasing)
  | depolarizing (id : MapId) (pr : Probability) :
      Outlines q ctx (.depolarizing id pr) (some .depolarizing)
  | loss (id : MapId) (pr : Probability) : Outlines q ctx (.loss id pr) (some .loss)
  | randomGate (id : MapId) (pr : Probability) (choice : RandomGateQMap ℝ) :
      Outlines q ctx (.randomGate id pr choice) (some (.randomGate choice.gates))
  | randomUnitary (id : MapId) (pr : Probability) (gates : List QGate) :
      Outlines q ctx (.randomUnitary id pr) (some (.randomUnitary gates))
  | noFn (id : MapId) : Outlines q ctx (.lambda id none none) none
  | lambda (id : MapId) (simple : Option (SimpleFn U)) (advanced : Option (AdvancedFn U)) :
      Outlines q ctx (.lambda id simple advanced) (some .lambda)
  | conditional {cond : Option (Condition U)} {pred : QStateRegistry → QubitPtr → Bool}
      {m : QMap U} {m' : Option Q2NS.QMap} (hc : Looks q ctx pred cond)
      (h : Outlines q ctx m m') : Outlines q ctx (.conditional cond m) (some (.conditional pred m'))
  | compositeNil : Outlines q ctx (.composite []) (some (.composite []))
  | compositeCons {m : QMap U} {m' : Option Q2NS.QMap} {maps : List (QMap U)}
      {maps' : List (Option Q2NS.QMap)} (h : Outlines q ctx m m')
      (hs : Outlines q ctx (.composite maps) (some (.composite maps'))) :
      Outlines q ctx (.composite (m :: maps)) (some (.composite (m' :: maps')))

mutual

theorem sample_outlines : ∀ (m : QMap U) (u : Rng), m.Known node q ctx →
    ∀ {inst : QMapInstance U} {u' : Rng}, m.sample ctx u = (.ok inst, u') →
      ∃ m' inst', Outlines q ctx m m' ∧ Q2NS.QMap.Sample m' inst' ∧ Models node q inst inst'
  | .null, u, _, inst, u', h => by
      rw [QMap.sample] at h
      obtain rfl := Except.ok.inj (Prod.mk.inj h).1
      exact ⟨none, .identity, .null, .null, .empty⟩
  | .dephasing id pr, u, _, inst, u', h => by
      rw [QMap.sample] at h
      generalize pr.bernoulli ctx u = drawn at h
      rcases drawn with ⟨_ | _, u⟩
      · obtain rfl := Except.ok.inj (Prod.mk.inj h).1
        exact ⟨_, _, .dephasing id pr, .dephasing (.inl rfl), .noGate id⟩
      · obtain rfl := Except.ok.inj (Prod.mk.inj h).1
        exact ⟨_, _, .dephasing id pr, .dephasing (.inr rfl), .gate id _⟩
  | .depolarizing id pr, u, _, inst, u', h => by
      rw [QMap.sample] at h
      dsimp only at h
      split_ifs at h
      · obtain rfl := Except.ok.inj (Prod.mk.inj h).1
        refine ⟨_, _, .depolarizing id pr, .depolarizing (.inr ?_), .gate id _⟩
        rw [pauliOf]
        split_ifs
        · exact ⟨.X, by decide, rfl⟩
        · exact ⟨.Y, by decide, rfl⟩
        · exact ⟨.Z, by decide, rfl⟩
      · obtain rfl := Except.ok.inj (Prod.mk.inj h).1
        exact ⟨_, _, .depolarizing id pr, .depolarizing (.inl rfl), .noGate id⟩
  | .loss id pr, u, _, inst, u', h => by
      rw [QMap.sample] at h
      generalize pr.bernoulli ctx u = drawn at h
      rcases drawn with ⟨_ | _, u⟩
      · obtain rfl := Except.ok.inj (Prod.mk.inj h).1
        exact ⟨_, _, .loss id pr, .loss (.inl rfl), .kept id⟩
      · obtain rfl := Except.ok.inj (Prod.mk.inj h).1
        exact ⟨_, _, .loss id pr, .loss (.inr rfl), .lost id⟩
  | .randomGate id pr choice, u, _, inst, u', h => by
      rw [QMap.sample] at h
      dsimp only at h
      split_ifs at h
      · cases (Prod.mk.inj h).1
      · cases (Prod.mk.inj h).1
      · obtain ⟨gate, hgate, rfl⟩ := map_eq_ok.mp (Prod.mk.inj h).1
        exact ⟨_, _, .randomGate id pr choice,
          .randomGate (.inr ⟨gate, RandomGateQMap.pickGate_mem hgate, rfl⟩), .gate id gate⟩
      · obtain rfl := Except.ok.inj (Prod.mk.inj h).1
        exact ⟨_, _, .randomGate id pr choice, .randomGate (.inl rfl), .noGate id⟩
  | .randomUnitary id pr, u, _, inst, u', h => by
      rw [QMap.sample] at h
      dsimp only at h
      split_ifs at h
      · obtain rfl := Except.ok.inj (Prod.mk.inj h).1
        exact ⟨_, _, .randomUnitary id pr [_],
          .randomUnitary (.inr ⟨_, List.mem_singleton_self _, rfl⟩), .gate id _⟩
      · obtain rfl := Except.ok.inj (Prod.mk.inj h).1
        exact ⟨_, _, .randomUnitary id pr [], .randomUnitary (.inl rfl), .noGate id⟩
  | .lambda id simple advanced, u, hm, inst, u', h => by
      obtain ⟨hsimple, hadvanced⟩ := hm
      cases advanced with
      | some fn =>
          obtain ⟨ops, hops⟩ := hadvanced fn rfl
          rw [QMap.sample] at h
          obtain rfl := Except.ok.inj (Prod.mk.inj h).1
          exact ⟨_, _, .lambda id simple (some fn), .lambda ops, .call id hops⟩
      | none =>
          cases simple with
          | some fn =>
              obtain ⟨ops, hops⟩ := hsimple fn rfl
              rw [QMap.sample] at h
              obtain rfl := Except.ok.inj (Prod.mk.inj h).1
              exact ⟨_, _, .lambda id (some fn) none, .lambda ops, .call id hops⟩
          | none =>
              rw [QMap.sample] at h
              obtain rfl := Except.ok.inj (Prod.mk.inj h).1
              exact ⟨_, _, .noFn id, .null, .empty⟩
  | .conditional cond qmap, u, hm, inst, u', h => by
      obtain ⟨⟨pred, hpred⟩, hm⟩ := hm
      rw [QMap.sample] at h
      cases hs : qmap.sample ctx u with
      | mk res w =>
          rw [hs] at h
          cases res with
          | error e => cases (Prod.mk.inj h).1
          | ok inst₀ =>
              obtain ⟨m', inst', ho, hsample, hmodels⟩ := sample_outlines qmap u hm hs
              obtain rfl := Except.ok.inj (Prod.mk.inj h).1
              exact ⟨_, _, .conditional hpred ho, .conditional hsample,
                .conditional hpred hmodels⟩
  | .composite maps, u, hm, inst, u', h => by
      rw [QMap.sample] at h
      cases hs : sampleAll ctx maps u with
      | mk res w =>
          rw [hs] at h
          cases res with
          | error e => cases (Prod.mk.inj h).1
          | ok insts =>
              obtain ⟨maps', insts', ho, hsample, hmodels⟩ := sampleAll_outlines maps u hm hs
              obtain rfl := Except.ok.inj (Prod.mk.inj h).1
              exact ⟨_, _, ho, hsample, hmodels⟩

theorem sampleAll_outlines : ∀ (maps : List (QMap U)) (u : Rng), KnownAll node q ctx maps →
    ∀ {insts : List (QMapInstance U)} {u' : Rng}, sampleAll ctx maps u = (.ok insts, u') →
      ∃ maps' insts', Outlines q ctx (.composite maps) (some (.composite maps')) ∧
        Q2NS.QMap.Sample (some (.composite maps')) (.composite insts') ∧
        Models node q (.composite insts) (.composite insts')
  | [], u, _, insts, u', h => by
      rw [sampleAll] at h
      obtain rfl := Except.ok.inj (Prod.mk.inj h).1
      exact ⟨[], [], .compositeNil, .compositeNil, .compositeNil⟩
  | m :: maps, u, hm, insts, u', h => by
      rw [sampleAll] at h
      cases hs : m.sample ctx u with
      | mk res u₁ =>
          rw [hs] at h
          cases res with
          | error e => cases (Prod.mk.inj h).1
          | ok inst =>
              dsimp only at h
              cases hall : sampleAll ctx maps u₁ with
              | mk res u₂ =>
                  rw [hall] at h
                  cases res with
                  | error e => cases (Prod.mk.inj h).1
                  | ok rest =>
                      obtain ⟨m', inst', ho, hsample, hmodels⟩ :=
                        sample_outlines m u hm.1 hs
                      obtain ⟨maps', insts', hos, hsamples, hmodels'⟩ :=
                        sampleAll_outlines maps u₁ hm.2 hall
                      obtain rfl := Except.ok.inj (Prod.mk.inj h).1
                      exact ⟨_, _, .compositeCons ho hos, .compositeCons hsample hsamples,
                        .compositeCons hmodels hmodels'⟩

end

/-- What a map draws from its stream is received as a sample of the network's map of the
same shape: the same callback runs or none, and the registry is left the same. -/
theorem sampled_in_network {m : QMap U} (hm : m.Known node q ctx) {u u' : Rng}
    {inst : QMapInstance U} (h : m.sample ctx u = (.ok inst, u')) :
    ∃ m' inst', Outlines q ctx m m' ∧ Q2NS.QMap.Sample m' inst' ∧
      ∀ (net : Network) (s : State U), s.world.registry = net.registry →
        (receiveFromDevice (net.networkers node).recvCallback node inst q s).1 =
            ((net.receiveFromDevice node q inst').1.map fun cb =>
              cb.map (·, q)).mapError .exit ∧
          (receiveFromDevice (net.networkers node).recvCallback node inst q
            s).2.world.registry = (net.receiveFromDevice node q inst').2 := by
  obtain ⟨m', inst', ho, hsample, hmodels⟩ := sample_outlines m u hm h
  exact ⟨m', inst', ho, hsample, fun net s hs => hmodels.receive net hs⟩

end Q2NS.Maps
