import Q2NS.Machine.NoSignalling
import Q2NS.Maps.Noise

/-!
# Qubits in transit

Noise maps on a qubit that the machine knows, from any state that a program has
reached.  The qubit survives with the product of the probabilities of its loss stages,
whatever the noise between them; if it does, the joint state is that of the channels on
average, and the other qubits cannot tell.
-/

namespace Q2NS.Maps

open NamedTensor QStateRegistry UniformDraws

variable {U : Type}

/-! ## Survival -/

mutual

/-- The probability that a map does not lose the qubit. -/
noncomputable def QMap.survival (ctx : QMapContext) : QMap U → ℝ
  | .null => 1
  | .dephasing _ _ => 1
  | .depolarizing _ _ => 1
  | .loss _ pr => 1 - pr.chance ctx
  | .randomGate _ _ _ => 1
  | .randomUnitary _ _ => 1
  | .lambda _ _ _ => 0
  | .conditional _ _ => 0
  | .composite maps => survivalAll ctx maps

noncomputable def survivalAll (ctx : QMapContext) : List (QMap U) → ℝ
  | [] => 1
  | m :: maps => m.survival ctx * survivalAll ctx maps

end

/-- The legs `l` traced out. -/
noncomputable def traced (l : List QubitPtr) : Tensor →ₗ[ℂ] Tensor where
  toFun := traceAll l
  map_add' F H := traceAll_add l F H
  map_smul' a F := traceAll_const_mul l a F

section Traced

variable {b : QStateBackend} {q : QubitPtr} {l : List QubitPtr}

theorem traced_conjugate (hq : q ∈ l) {V : CMat} (hV : V.Unitary 1) (F : Tensor) :
    traced l (conjugate q V F) = traced l F := by
  have htrace := traceAll_actOn_subset (List.nodup_singleton q)
    (List.cons_subset.mpr ⟨hq, List.nil_subset l⟩)
    (show Isometric (V.kernel [q].length) from hV.isometric) F
  exact (congrArg (fun t : Fin 1 → QubitPtr => traceAll l (actOn (conjBy (V.kernel 1)) t F))
    (get_one q)).symm.trans htrace

theorem traced_gateChannel (hq : q ∈ l) {g : QGate} {V : CMat}
    (hV : QState.Accepts b g 1 V) (F : Tensor) :
    traced l (gateChannel q g F) = traced l F := by
  rw [gateChannel, hV.matrix]
  exact traced_conjugate hq hV.unitary F

theorem traced_builtin (hq : q ∈ l) {kind : QGateKind} (hk : kind ≠ .Custom)
    (hone : kind.arity = 1) (F : Tensor) :
    traced l (gateChannel q (.builtin kind) F) = traced l F := by
  obtain ⟨V, hV⟩ := QState.accepts_builtin .Ket hk
  rw [hone] at hV
  exact traced_gateChannel hq hV F

theorem traced_mixed (hq : q ∈ l) (F : Tensor) : traced l (mixed q F) = traced l F := by
  have hperm := List.perm_cons_erase hq
  exact (traceAll_perm hperm _).trans
    ((congrArg (traceAll (l.erase q)) (traceOut_mixed q F)).trans (traceAll_perm hperm F).symm)

theorem traced_mixture (p : ℝ) {C : Tensor →ₗ[ℂ] Tensor} {F : Tensor}
    (hC : traced l (C F) = traced l F) : traced l (mixture p C F) = traced l F := by
  rw [mixture, LinearMap.add_apply, LinearMap.smul_apply, LinearMap.smul_apply, map_add,
    map_smul, map_smul, hC, LinearMap.id_apply, ← add_smul, add_sub_cancel, one_smul]

theorem traced_weighted (hq : q ∈ l) (F : Tensor) {gws : List (QGate × ℝ)}
    (hgws : ∀ gw ∈ gws, ∃ V, QState.Accepts b gw.1 1 V) :
    traced l ((gws.map fun gw => (gw.2 : ℂ) • gateChannel q gw.1).sum F) =
      ((gws.map Prod.snd).sum : ℂ) • traced l F := by
  induction gws with
  | nil => simp
  | cons gw gws ih =>
      obtain ⟨V, hV⟩ := hgws gw List.mem_cons_self
      rw [List.map_cons, List.sum_cons, LinearMap.add_apply, map_add,
        ih fun x hx => hgws x (List.mem_cons_of_mem gw hx), LinearMap.smul_apply, map_smul,
        traced_gateChannel hq hV, ← add_smul, List.map_cons, List.sum_cons, Complex.ofReal_add]

mutual

/-- Seen from the other handles, a map is its survival. -/
theorem traced_channel (ctx : QMapContext) (hq : q ∈ l) : ∀ (m : QMap U), m.Noise b →
    ∀ F, traced l (m.channel ctx q F) = (m.survival ctx : ℂ) • traced l F
  | .null, _, F => (one_smul ℂ _).symm.trans (by rw [QMap.survival, Complex.ofReal_one]; rfl)
  | .dephasing id pr, _, F => by
      rw [QMap.survival, Complex.ofReal_one, one_smul]
      exact traced_mixture _ (traced_builtin hq (by decide) rfl F)
  | .depolarizing id pr, _, F => by
      rw [QMap.survival, Complex.ofReal_one, one_smul]
      refine traced_mixture _ ?_
      rw [LinearMap.smul_apply, map_smul, LinearMap.add_apply, LinearMap.add_apply, map_add,
        map_add, traced_builtin hq (by decide) rfl, traced_builtin hq (by decide) rfl,
        traced_builtin hq (by decide) rfl]
      module
  | .loss id pr, _, F => by
      rw [QMap.survival, QMap.channel, mixture, smul_zero, zero_add, LinearMap.smul_apply,
        map_smul, Complex.ofReal_sub, Complex.ofReal_one]
      rfl
  | .randomGate id pr choice, ⟨hconf, hpos, hgates⟩, F => by
      rw [QMap.survival, Complex.ofReal_one, one_smul]
      refine traced_mixture _ ?_
      have hne : (choice.totalWeight : ℂ) ≠ 0 := Complex.ofReal_ne_zero.mpr hpos.ne'
      have hzip : (choice.gates.zip choice.weights).map Prod.snd = choice.weights :=
        List.map_snd_zip hconf.length.ge
      rw [LinearMap.smul_apply, map_smul,
        traced_weighted hq F fun gw hgw => hgates gw.1 (List.of_mem_zip hgw).1, hzip,
        ← hconf.total, smul_smul, one_div_mul_cancel hne, one_smul]
  | .randomUnitary id pr, _, F => by
      rw [QMap.survival, Complex.ofReal_one, one_smul]
      exact traced_mixture _ (traced_mixed hq F)
  | .lambda _ _ _, hm, _ => hm.elim
  | .conditional _ _, hm, _ => hm.elim
  | .composite maps, hm, F => traced_channelAll ctx hq maps hm F

theorem traced_channelAll (ctx : QMapContext) (hq : q ∈ l) : ∀ (maps : List (QMap U)),
    NoiseAll b maps → ∀ F,
      traced l (channelAll ctx q maps F) = (survivalAll ctx maps : ℂ) • traced l F
  | [], _, F => (one_smul ℂ _).symm.trans (by rw [survivalAll, Complex.ofReal_one]; rfl)
  | m :: maps, hm, F => by
      rw [channelAll, LinearMap.comp_apply, traced_channelAll ctx hq maps hm.2,
        traced_channel ctx hq m hm.1, smul_smul, survivalAll, Complex.ofReal_mul, mul_comm]

end

end Traced

/-! ## From every state that a program has reached -/

/-- What `f` reads of the registry if the run has ended and the qubit is not lost. -/
noncomputable def whenArrived (q : QubitPtr) (f : QStateRegistry → ℂ) : Reading U :=
  fun x _ => match x.1 with
    | .error _ => 0
    | .ok _ => if x.2.getLocation q = .lost then 0 else f x.2.world.registry

/-- A reading of the machine's tensor. -/
theorem reads_whenArrived {b : QStateBackend} {node : NodeId} {q : QubitPtr} {e : Frame}
    {f : QStateRegistry → ℂ} {L : Tensor →ₗ[ℂ] ℂ}
    (hf : ∀ {w : QStateRegistry} {G : GlobalState}, Represents b w G →
      (G.handles, G.place) = e → f w = L G.tensor) :
    Reads b node q e 0 (whenArrived q f : Reading U) L where
  here := by
    intro s G h hn hq u j _
    have hlocal : s.getLocation q ≠ .lost := by
      rw [State.getLocation, h.place q hq.1, hq.2]
      exact Location.noConfusion
    simp only [whenArrived, if_neg hlocal]
    rw [average_const, hf h hn]
  lost := fun hs u => if_pos hs

theorem reads_arrived (b : QStateBackend) (node : NodeId) (q : QubitPtr) (e : Frame)
    (z : QubitPtr → Bool × Bool) : Reads b node q e 0
      (whenArrived q fun w => globalOf QState.kernel w z : Reading U) (LinearMap.proj z) :=
  reads_whenArrived fun h' _ => congrFun h'.tensor z

section Represented

variable {b : QStateBackend} {node : NodeId} {q : QubitPtr} {m : QMap U} {s : State U}
  {G : GlobalState} {j : ℕ}

/-- The joint state of all qubits, over the runs in which this one arrives. -/
theorem average_arrived (h : Represents b s.world.registry G) (hq : G.Local node q)
    (hm : m.Noise b) (ctx : QMapContext) (u : Rng) (hj : m.draws ≤ j)
    (z : QubitPtr → Bool × Bool) :
    average j (fun xs => carried ctx node q s
        (whenArrived q fun w => globalOf QState.kernel w z) m (u.feed xs)) =
      m.channel ctx q G.tensor z :=
  average_carried ctx m hm (reads_arrived b node q (G.handles, G.place) z) h rfl hq u j hj

/-- The joint state of qubits in `S`, as `f` reads it, over the runs in which another one
arrives. -/
theorem average_others (h : Represents b s.world.registry G) (hq : G.Local node q)
    (hm : m.Noise b) (ctx : QMapContext) (u : Rng) (hj : m.draws ≤ j) {S : Finset QubitPtr}
    (hqS : q ∉ S) (z : QubitPtr → Bool × Bool) {f : QStateRegistry → ℂ}
    (hf : ∀ {w : QStateRegistry} {G : GlobalState}, Represents b w G → f w = reduced S w z) :
    average j (fun xs => carried ctx node q s (whenArrived q f) m (u.feed xs)) =
      m.survival ctx * reduced S s.world.registry z := by
  have hreads : Reads b node q (G.handles, G.place) 0 (whenArrived q f : Reading U)
      (LinearMap.proj z ∘ₗ traced ((List.range G.handles).filter (· ∉ S))) :=
    reads_whenArrived fun h' hn => by
      rw [hf h', h'.reduced_eq, (Prod.mk.inj hn).1]
      rfl
  rw [average_carried ctx m hm hreads h rfl hq u j hj, LinearMap.comp_apply,
    traced_channel ctx (Represents.mem_traced hq.1 hqS) m hm, map_smul, smul_eq_mul,
    h.reduced_eq]
  rfl

end Represented

section Reached

variable {b : QStateBackend} {ops : List Op} {rs : List Reply} {w : QStateRegistry}
  {node : NodeId} {q : QubitPtr} {m : QMap U} {s : State U} {j : ℕ}

/-- A noise map is its channel on average: the joint state of all qubits, over the runs in
which the qubit arrives. -/
theorem noise_is_channel (hops : ∀ op ∈ ops, op.Plain b)
    (hw : callAll ops (empty.setDefaultBackend b) = (.ok rs, w))
    (hq : q < w.numHandles ∧ w.IsLocal node q) (hm : m.Noise b) (ctx : QMapContext)
    (hs : s.world.registry = w) (u : Rng) (hj : m.draws ≤ j) (z : QubitPtr → Bool × Bool) :
    average j (fun xs => carried ctx node q s
        (whenArrived q fun w' => globalOf QState.kernel w' z) m (u.feed xs)) =
      m.channel ctx q (globalOf QState.kernel w) z := by
  obtain ⟨w', hok, h⟩ := (represents_empty b).callAll hops
  obtain rfl := (Prod.mk.inj (hw.symm.trans hok)).2
  rw [h.tensor]
  rw [← hs] at h hq
  exact average_arrived h (h.local_iff.mp hq) hm ctx u hj z

/-- Half a pair has arrived at the other node and is sent through a noisy fibre. -/
noncomputable def fibre : QMap Unit :=
  compose [.dephasing 0 { p := 0.25 }, .loss 1 { p := 0.5 }, .randomUnitary 2 { rate := 1 }]

/-- The receiver, with the registry `w`. -/
noncomputable def receiver (w : QStateRegistry) : State Unit := ⟨⟨w, ⟨fun _ => 0, 0, []⟩, ()⟩, []⟩

theorem sharedPair_local (b : QStateBackend) : ∃ rs w,
    callAll sharedPair (empty.setDefaultBackend b) = (.ok rs, w) ∧
      1 < w.numHandles ∧ w.IsLocal 1 1 := by
  obtain ⟨w, hok, h⟩ := (represents_empty b).callAll (sharedPair_plain b)
  exact ⟨_, w, hok, h.local_iff.mpr ⟨Nat.one_lt_two, rfl⟩⟩

theorem noise_is_channel_pair : ∃ rs w,
    callAll sharedPair (empty.setDefaultBackend .DM) = (.ok rs, w) ∧ ∀ u z,
      average fibre.draws (fun xs => carried ⟨2⟩ 1 1 (receiver w)
          (whenArrived 1 fun w' => globalOf QState.kernel w' z) fibre (Rng.feed u xs)) =
        fibre.channel ⟨2⟩ 1 (globalOf QState.kernel w) z := by
  obtain ⟨rs, w, hok, hlocal⟩ := sharedPair_local .DM
  refine ⟨rs, w, hok, fun u z => noise_is_channel (sharedPair_plain .DM) hok hlocal ?_ ⟨2⟩ rfl u
    le_rfl z⟩
  exact ⟨trivial, trivial, QStateBackend.noConfusion, trivial⟩

/-- The qubit survives with the probability of its map, and the joint state of any other
qubits is the same on average whether it is sent, lost or kept. -/
theorem noise_survival (hops : ∀ op ∈ ops, op.Plain b)
    (hw : callAll ops (empty.setDefaultBackend b) = (.ok rs, w))
    (hq : q < w.numHandles ∧ w.IsLocal node q) (hm : m.Noise b) (ctx : QMapContext)
    (hs : s.world.registry = w) (u : Rng) (hj : m.draws ≤ j) :
    average j (fun xs => carried ctx node q s (whenArrived q fun _ => 1) m (u.feed xs)) =
        m.survival ctx ∧
      ∀ {S : Finset QubitPtr}, q ∉ S → ∀ z,
        average j (fun xs => carried ctx node q s (whenArrived q fun w' => reduced S w' z) m
          (u.feed xs)) = m.survival ctx * reduced S w z := by
  obtain ⟨w', hok, h⟩ := (represents_empty b).callAll hops
  obtain rfl := (Prod.mk.inj (hw.symm.trans hok)).2
  rw [← hs] at h hq ⊢
  have hlocal := h.local_iff.mp hq
  refine ⟨?_, fun hqS z => average_others h hlocal hm ctx u hj hqS z fun _ => rfl⟩
  rw [average_others h hlocal hm ctx u hj (Finset.notMem_empty q) (fun _ => default) fun h' =>
    (h'.reduced_empty _).symm, h.reduced_empty, mul_one]

theorem noise_survival_pair : ∃ rs w,
    callAll sharedPair (empty.setDefaultBackend .DM) = (.ok rs, w) ∧ ∀ u,
      average fibre.draws (fun xs => carried ⟨2⟩ 1 1 (receiver w) (whenArrived 1 fun _ => 1)
          fibre (Rng.feed u xs)) = fibre.survival ⟨2⟩ ∧
        ∀ {S : Finset QubitPtr}, 1 ∉ S → ∀ z,
          average fibre.draws (fun xs => carried ⟨2⟩ 1 1 (receiver w)
            (whenArrived 1 fun w' => reduced S w' z) fibre (Rng.feed u xs)) =
              fibre.survival ⟨2⟩ * reduced S w z := by
  obtain ⟨rs, w, hok, hlocal⟩ := sharedPair_local .DM
  refine ⟨rs, w, hok, fun u => noise_survival (sharedPair_plain .DM) hok hlocal ?_ ⟨2⟩ rfl u
    le_rfl⟩
  exact ⟨trivial, trivial, QStateBackend.noConfusion, trivial⟩

/-! ## Maps that are the same on average -/

/-- A depolarizing map has the channel of a random unitary of four thirds of its
probability. -/
theorem depolarizing_channel {pr pr' : Probability} {ctx : QMapContext}
    (hp : 4 / 3 * pr.chance ctx = pr'.chance ctx) (id id' : MapId) (q : QubitPtr) :
    (QMap.depolarizing id pr : QMap U).channel ctx q =
      (QMap.randomUnitary id' pr' : QMap U).channel ctx q := by
  refine LinearMap.ext fun F => ?_
  have hX : gateChannel q (.builtin .X) = conjugate q matrixX := rfl
  have hY : gateChannel q (.builtin .Y) = conjugate q matrixY := rfl
  have hZ : gateChannel q (.builtin .Z) = conjugate q matrixZ := rfl
  rw [QMap.channel, QMap.channel, mixture, mixture, hX, hY, hZ, ← hp]
  simp only [LinearMap.add_apply, LinearMap.smul_apply, LinearMap.id_apply]
  rw [eq_sub_of_add_eq' (pauli_twirl q F)]
  push_cast
  module

/-- Nobody can tell a depolarizing map from a random unitary map of four thirds of its
probability, whatever the two draw from their streams. -/
theorem depolarizing_like_randomUnitary (hops : ∀ op ∈ ops, op.Plain b)
    (hw : callAll ops (empty.setDefaultBackend b) = (.ok rs, w))
    (hq : q < w.numHandles ∧ w.IsLocal node q) (hb : b ≠ .Stab) {pr pr' : Probability}
    {ctx : QMapContext} (hp : 4 / 3 * pr.chance ctx = pr'.chance ctx) (id id' : MapId)
    (hs : s.world.registry = w) (u u' : Rng) {j j' : ℕ} (hj : 2 ≤ j) (hj' : 4 ≤ j')
    (z : QubitPtr → Bool × Bool) :
    average j (fun xs => carried ctx node q s
        (whenArrived q fun w' => globalOf QState.kernel w' z) (.depolarizing id pr)
        (u.feed xs)) =
      average j' (fun xs => carried ctx node q s
        (whenArrived q fun w' => globalOf QState.kernel w' z) (.randomUnitary id' pr')
        (u'.feed xs)) := by
  obtain ⟨w', hok, h⟩ := (represents_empty b).callAll hops
  obtain rfl := (Prod.mk.inj (hw.symm.trans hok)).2
  rw [← hs] at h hq
  have hlocal := h.local_iff.mp hq
  have hleft : (QMap.depolarizing id pr : QMap U).Noise b := trivial
  have hright : (QMap.randomUnitary id' pr' : QMap U).Noise b := hb
  rw [average_arrived h hlocal hleft ctx u hj z,
    average_arrived h hlocal hright ctx u' hj' z, depolarizing_channel hp id id' q]

theorem depolarizing_like_randomUnitary_pair : ∃ rs w,
    callAll sharedPair (empty.setDefaultBackend .Ket) = (.ok rs, w) ∧ ∀ u u' z,
      average 2 (fun xs => carried ⟨0⟩ 1 1 (receiver w)
          (whenArrived 1 fun w' => globalOf QState.kernel w' z)
          (.depolarizing 0 { p := 3 / 8 }) (Rng.feed u xs)) =
        average 4 (fun xs => carried ⟨0⟩ 1 1 (receiver w)
          (whenArrived 1 fun w' => globalOf QState.kernel w' z)
          (.randomUnitary 1 { p := 1 / 2 }) (Rng.feed u' xs)) := by
  obtain ⟨rs, w, hok, hlocal⟩ := sharedPair_local .Ket
  refine ⟨rs, w, hok, fun u u' z => depolarizing_like_randomUnitary (sharedPair_plain .Ket) hok
    hlocal QStateBackend.noConfusion ?_ 0 1 rfl u u' le_rfl le_rfl z⟩
  norm_num [Probability.chance, Probability.getProb]

/-! ## Rates -/

/-- With a rate the probability is that of an event in the elapsed time. -/
theorem chance_of_rate {pr : Probability} (hrate : 0 < pr.rate) {t : ℝ} (ht : 0 ≤ t) :
    pr.chance ⟨t⟩ = 1 - Real.exp (-pr.rate * t) := by
  have hexp : Real.exp (-pr.rate * t) ≤ 1 := Real.exp_le_one_iff.mpr (by nlinarith)
  have hpos := Real.exp_pos (-pr.rate * t)
  have hprob : pr.getProb ⟨t⟩ = 1 - Real.exp (-pr.rate * t) := by
    rw [Probability.getProb, if_pos hrate, rateToProb]
    rcases ht.eq_or_lt with rfl | ht
    · simp
    · rw [if_neg (by simp [hrate, ht])]
      dsimp only
      rw [if_neg (by linarith), if_neg (by linarith)]
  rw [Probability.chance, hprob, min_eq_right (by linarith), max_eq_right (by linarith)]

/-- Two mixtures with one channel that is its own square. -/
theorem mixture_mixture {C : Tensor →ₗ[ℂ] Tensor} (hC : C ∘ₗ C = C) (p p' : ℝ) :
    mixture p' C ∘ₗ mixture p C = mixture (1 - (1 - p) * (1 - p')) C := by
  refine LinearMap.ext fun F => ?_
  have hF : C (C F) = C F := LinearMap.congr_fun hC F
  simp only [mixture, LinearMap.comp_apply, LinearMap.add_apply, LinearMap.smul_apply,
    LinearMap.id_apply, map_add, map_smul, hF]
  push_cast
  module

/-- The qubit that has arrived is sent on through another map. -/
noncomputable def sentOn (ctx : QMapContext) (node : NodeId) (q : QubitPtr) (m : QMap U)
    (K : Reading U) : Reading U := fun x u =>
  match x.1 with
  | .error _ => 0
  | .ok _ => if x.2.getLocation q = .lost then 0 else carried ctx node q x.2 K m u

theorem reads_sentOn (ctx : QMapContext) {e : Frame} {k : ℕ} {K : Reading U}
    {L : Tensor →ₗ[ℂ] ℂ} (hm : m.Noise b) (hK : Reads b node q e k K L) :
    Reads b node q e (m.draws + k) (sentOn ctx node q m K) (L ∘ₗ m.channel ctx q) where
  here := by
    intro s G h hn hq u j hj
    have hlocal : s.getLocation q ≠ .lost := by
      rw [State.getLocation, h.place q hq.1, hq.2]
      exact Location.noConfusion
    simp only [sentOn, if_neg hlocal]
    exact average_carried ctx m hm hK h hn hq u j hj
  lost := fun hs u => if_pos hs

/-- Maps with a rate that keep nothing of what happened before: loss, and random
unitaries. -/
inductive Memoryless (b : QStateBackend) (pr : Probability) : QMap U → Prop where
  | loss (id : MapId) : Memoryless b pr (.loss id pr)
  | randomUnitary (id : MapId) (hb : b ≠ .Stab) : Memoryless b pr (.randomUnitary id pr)

/-- A channel with such a map may be cut anywhere: what arrives after `t` and then `t'`
is on average what arrives after both at once. -/
theorem segments_like_one (hops : ∀ op ∈ ops, op.Plain b)
    (hw : callAll ops (empty.setDefaultBackend b) = (.ok rs, w))
    (hq : q < w.numHandles ∧ w.IsLocal node q) {pr : Probability} (hrate : 0 < pr.rate)
    (hm : Memoryless b pr m) {t t' : ℝ} (ht : 0 ≤ t) (ht' : 0 ≤ t')
    (hs : s.world.registry = w) (u u' : Rng) {j j' : ℕ} (hj : m.draws + m.draws ≤ j)
    (hj' : m.draws ≤ j') (z : QubitPtr → Bool × Bool) :
    average j (fun xs => carried ⟨t⟩ node q s (sentOn ⟨t'⟩ node q m
        (whenArrived q fun w' => globalOf QState.kernel w' z)) m (u.feed xs)) =
      average j' (fun xs => carried ⟨t + t'⟩ node q s
        (whenArrived q fun w' => globalOf QState.kernel w' z) m (u'.feed xs)) := by
  obtain ⟨w', hok, h⟩ := (represents_empty b).callAll hops
  obtain rfl := (Prod.mk.inj (hw.symm.trans hok)).2
  rw [← hs] at h hq
  have hlocal := h.local_iff.mp hq
  have hchance : pr.chance ⟨t + t'⟩ = 1 - (1 - pr.chance ⟨t⟩) * (1 - pr.chance ⟨t'⟩) := by
    rw [chance_of_rate hrate ht, chance_of_rate hrate ht',
      chance_of_rate hrate (add_nonneg ht ht'), mul_add, Real.exp_add]
    ring
  have hnoise : m.Noise b := by
    cases hm with
    | loss id => trivial
    | randomUnitary id hb => exact hb
  have hchannel : m.channel ⟨t'⟩ q ∘ₗ m.channel ⟨t⟩ q = m.channel ⟨t + t'⟩ q := by
    cases hm with
    | loss id =>
        rw [QMap.channel, QMap.channel, QMap.channel,
          mixture_mixture (LinearMap.comp_zero 0), hchance]
    | randomUnitary id hb =>
        rw [QMap.channel, QMap.channel, QMap.channel, mixture_mixture (mixed_mixed q), hchance]
  have hreads := reads_sentOn ⟨t'⟩ hnoise
    (reads_arrived b node q ((GlobalState.empty.callAll b ops).2.handles,
      (GlobalState.empty.callAll b ops).2.place) z)
  rw [average_carried ⟨t⟩ m hnoise hreads h rfl hlocal u j hj,
    average_arrived h hlocal hnoise ⟨t + t'⟩ u' hj' z, ← hchannel]
  rfl

theorem segments_like_one_pair : ∃ rs w,
    callAll sharedPair (empty.setDefaultBackend .Stab) = (.ok rs, w) ∧ ∀ u u' z,
      average 2 (fun xs => carried ⟨1⟩ 1 1 (receiver w)
          (sentOn ⟨2⟩ 1 1 (.loss 0 { rate := 1 / 10 })
            (whenArrived 1 fun w' => globalOf QState.kernel w' z))
          (.loss 0 { rate := 1 / 10 }) (Rng.feed u xs)) =
        average 1 (fun xs => carried ⟨1 + 2⟩ 1 1 (receiver w)
          (whenArrived 1 fun w' => globalOf QState.kernel w' z)
          (.loss 0 { rate := 1 / 10 }) (Rng.feed u' xs)) := by
  obtain ⟨rs, w, hok, hlocal⟩ := sharedPair_local .Stab
  refine ⟨rs, w, hok, fun u u' z => segments_like_one (sharedPair_plain .Stab) hok hlocal
    (show 0 < ({ rate := 1 / 10 } : Probability).rate by norm_num) (.loss 0) zero_le_one
    zero_le_two rfl u u' le_rfl le_rfl z⟩

end Reached

end Q2NS.Maps
