import Q2NS.Maps.Transit
import Q2NS.Swap.Pairs

/-!
# Pairs through noisy channels

Half of a fresh pair is sent through a map of Pauli noise, random unitaries and loss.
On average over the stream the pair that arrives is a mixture of the four Bell pairs,
whatever else there is in the network.  Each stage of the map spreads the weights of
the mixture, and loss takes some of them away.
-/

namespace Q2NS.Maps

open NamedTensor QStateRegistry UniformDraws Swap QuadForm Finset

variable {U : Type}

/-! ## Mixtures of Bell pairs -/

/-- The weight of each Bell pair. -/
abbrev Weights := Bool × Bool → ℝ

/-- The pairs with the bits of `k` flipped. -/
def Weights.shift (k : Bool × Bool) (v : Weights) : Weights := fun m =>
  v (m.1 ^^ k.1, m.2 ^^ k.2)

/-- The same weight for each pair. -/
noncomputable def Weights.even (v : Weights) : Weights := fun _ => (∑ m, v m) / ((4 : ℕ) : ℝ)

/-- Nothing flipped. -/
def ideal : Weights := Pi.single (false, false) 1

variable {p q : QubitPtr} {F : Tensor}

/-- A mixture of the states of a family. -/
noncomputable def mixtureOf (B : Bool × Bool → Tensor) (v : Weights) : Tensor :=
  ∑ m, (v m : ℂ) • B m

/-- A mixture of Bell pairs, next to other qubits. -/
noncomputable def bellMixture (p q : QubitPtr) (F : Tensor) (v : Weights) : Tensor :=
  ∑ m, (v m : ℂ) • fun z => bellPair m.1 m.2 p q z * F z

variable {B : Bool × Bool → Tensor}

theorem mixtureOf_add (v v' : Weights) :
    mixtureOf B v + mixtureOf B v' = mixtureOf B (v + v') := by
  rw [mixtureOf, mixtureOf, mixtureOf, ← sum_add_distrib]
  refine sum_congr rfl fun m _ => ?_
  rw [← add_smul, Pi.add_apply, Complex.ofReal_add]

theorem mixtureOf_smul (c : ℝ) (v : Weights) :
    (c : ℂ) • mixtureOf B v = mixtureOf B (c • v) := by
  rw [mixtureOf, mixtureOf, smul_sum]
  refine sum_congr rfl fun m _ => ?_
  rw [smul_smul, Pi.smul_apply, smul_eq_mul, Complex.ofReal_mul]

theorem mixtureOf_zero : mixtureOf B 0 = 0 :=
  sum_eq_zero fun _ _ => by rw [Pi.zero_apply, Complex.ofReal_zero, zero_smul]

/-- One state alone. -/
theorem mixtureOf_single (k : Bool × Bool) : mixtureOf B (Pi.single k 1) = B k := by
  rw [mixtureOf, sum_eq_single k]
  · rw [Pi.single_eq_same, Complex.ofReal_one, one_smul]
  · intro m _ hm
    rw [Pi.single_eq_of_ne hm, Complex.ofReal_zero, zero_smul]
  · exact fun hk => absurd (mem_univ k) hk

/-! ## Pauli gates -/

/-- The bits that a Pauli gate on one half flips. -/
def pauliShift (gate : QGate) : Bool × Bool :=
  match gate.kind with
  | .X => (false, true)
  | .Y => (true, true)
  | .Z => (true, false)
  | _ => (false, false)

theorem actOn_Y_bellPair (m1 m2 : Bool) (hpq : p ≠ q) :
    actOn (conjBy (matrixY.kernel 1)) ![q] (bellPair m1 m2 p q) =
      bellPair (m1 ^^ true) (m2 ^^ true) p q := by
  have hvector : (fun x : QubitPtr → Bool => Complex.I * sgn (!x q) *
      bell m1 m2 (AffineState.flipBit q x p) (AffineState.flipBit q x q)) =
        fun x => Complex.I * sgn m2 * bell (m1 ^^ true) (m2 ^^ true) (x p) (x q) := by
    funext x
    rw [AffineState.flipBit, Function.update_self, Function.update_of_ne hpq]
    cases x p <;> cases x q <;> cases m1 <;> cases m2 <;> simp [bell, sgn]
  rw [bellPair, actOn_density, actOn_matrixY, hvector]
  funext z
  rw [density_smul, norm_mul, Complex.norm_I, Ket.norm_sgn]
  simp [bellPair]

theorem actOn_I_bellPair (m1 m2 : Bool) :
    actOn (conjBy (matrixI.kernel 1)) ![q] (bellPair m1 m2 p q) = bellPair m1 m2 p q :=
  conjugate_matrixI q _

/-- Pauli gates on a handle permute a family. -/
def Flips (q : QubitPtr) (B : Bool × Bool → Tensor) : Prop :=
  ∀ ⦃kind⦄, kind ∈ [QGateKind.I, .X, .Y, .Z] → ∀ m : Bool × Bool,
    gateChannel q (.builtin kind) (B m) =
      B (m.1 ^^ (pauliShift (.builtin kind)).1, m.2 ^^ (pauliShift (.builtin kind)).2)

/-- Those on one half permute the Bell pairs. -/
theorem flips_bellPair (hpq : p ≠ q) (hF : Ignores q F) :
    Flips q fun m z => bellPair m.1 m.2 p q z * F z := by
  intro kind hkind m
  obtain ⟨V, hV, hact⟩ : ∃ V, (QGate.builtin kind).matrix = .ok V ∧ ∀ m1 m2,
      actOn (conjBy (V.kernel 1)) ![q] (bellPair m1 m2 p q) =
        bellPair (m1 ^^ (pauliShift (.builtin kind)).1)
          (m2 ^^ (pauliShift (.builtin kind)).2) p q := by
    simp only [List.mem_cons, List.not_mem_nil, or_false] at hkind
    rcases hkind with rfl | rfl | rfl | rfl
    · exact ⟨matrixI, rfl, fun m1 m2 => by
        rw [actOn_I_bellPair]
        exact congrArg₂ (bellPair · · p q) m1.xor_false.symm m2.xor_false.symm⟩
    · exact ⟨matrixX, rfl, fun m1 m2 => (actOn_X_bellPair m1 m2 hpq).trans
        (congrArg (bellPair · (m2 ^^ true) p q) m1.xor_false.symm)⟩
    · exact ⟨matrixY, rfl, fun m1 m2 => actOn_Y_bellPair m1 m2 hpq⟩
    · exact ⟨matrixZ, rfl, fun m1 m2 => (actOn_Z_bellPair m1 m2 p q).trans
        (congrArg (bellPair (m1 ^^ true) · p q) m2.xor_false.symm)⟩
  rw [gateChannel, hV]
  funext z
  dsimp only
  rw [← hact]
  exact actOn_mul z fun w => by rw [patch_one]; exact hF z _

/-- A Pauli gate moves the weights. -/
theorem gateChannel_mixtureOf (hB : Flips q B) {kind : QGateKind}
    (hkind : kind ∈ [QGateKind.I, .X, .Y, .Z]) (v : Weights) :
    gateChannel q (.builtin kind) (mixtureOf B v) =
      mixtureOf B (v.shift (pauliShift (.builtin kind))) := by
  have hback : ∀ m k : Bool × Bool, ((m.1 ^^ k.1) ^^ k.1, (m.2 ^^ k.2) ^^ k.2) = m := by decide
  rw [mixtureOf, mixtureOf, map_sum]
  refine sum_bij (fun m _ => (m.1 ^^ (pauliShift (.builtin kind)).1,
      m.2 ^^ (pauliShift (.builtin kind)).2)) (fun m _ => mem_univ _)
    (fun m _ m' _ he => by rw [← hback m (pauliShift (.builtin kind)),
      (Prod.mk.inj he).1, (Prod.mk.inj he).2, hback])
    (fun m _ => ⟨_, mem_univ (m.1 ^^ (pauliShift (.builtin kind)).1,
      m.2 ^^ (pauliShift (.builtin kind)).2), hback m _⟩) fun m _ => ?_
  rw [map_smul, hB hkind, Weights.shift, hback]

/-- The completely mixed state in place of the qubit. -/
theorem mixed_mixtureOf (hB : Flips q B) (v : Weights) :
    mixed q (mixtureOf B v) = mixtureOf B v.even := by
  have hX := gateChannel_mixtureOf hB (show QGateKind.X ∈ _ by decide) v
  have hY := gateChannel_mixtureOf hB (show QGateKind.Y ∈ _ by decide) v
  have hZ := gateChannel_mixtureOf hB (show QGateKind.Z ∈ _ by decide) v
  have htwirl := pauli_twirl q (mixtureOf B v)
  have hsum : v + (v.shift (false, true) + v.shift (true, true) + v.shift (true, false)) =
      (4 : ℝ) • v.even := by
    funext ⟨m1, m2⟩
    simp only [Pi.add_apply, Pi.smul_apply, Weights.shift, Weights.even, Nat.cast_ofNat,
      Fintype.sum_prod_type, Fintype.sum_bool, smul_eq_mul]
    cases m1 <;> cases m2 <;> simp <;> ring
  rw [show conjugate q matrixX _ = _ from hX, show conjugate q matrixY _ = _ from hY,
    show conjugate q matrixZ _ = _ from hZ, mixtureOf_add, mixtureOf_add, mixtureOf_add]
    at htwirl
  rw [show v + (v.shift (pauliShift (.builtin .X)) + v.shift (pauliShift (.builtin .Y)) +
    v.shift (pauliShift (.builtin .Z))) = _ from hsum, ← mixtureOf_smul,
    Complex.ofReal_ofNat] at htwirl
  exact (smul_right_injective Tensor (show (4 : ℂ) ≠ 0 by norm_num) htwirl).symm

/-! ## Pauli noise -/

mutual

/-- Pauli noise, random unitaries and loss. -/
def QMap.Pauli (b : QStateBackend) : QMap U → Prop
  | .null => True
  | .dephasing _ _ => True
  | .depolarizing _ _ => True
  | .loss _ _ => True
  | .randomGate _ _ choice => choice.Configured ∧ 0 < choice.totalWeight ∧
      ∀ gate ∈ choice.gates, ∃ kind ∈ [QGateKind.I, .X, .Y, .Z], gate = .builtin kind
  | .randomUnitary _ _ => b ≠ .Stab
  | .lambda _ _ _ => False
  | .conditional _ _ => False
  | .composite maps => PauliAll b maps

def PauliAll (b : QStateBackend) : List (QMap U) → Prop
  | [] => True
  | m :: maps => m.Pauli b ∧ PauliAll b maps

end

/-- With probability `p` the weights `v'`, otherwise the ones before. -/
noncomputable def Weights.mix (p : ℝ) (v' v : Weights) : Weights := p • v' + (1 - p) • v

mutual

/-- What a map does to the weights of a pair of which it gets one half. -/
noncomputable def QMap.spread (ctx : QMapContext) : QMap U → Weights → Weights
  | .null, v => v
  | .dephasing _ pr, v => .mix (pr.chance ctx) (v.shift (true, false)) v
  | .depolarizing _ pr, v => .mix (pr.chance ctx)
      (((3 : ℕ) : ℝ)⁻¹ • (v.shift (false, true) + v.shift (true, true) +
        v.shift (true, false))) v
  | .loss _ pr, v => .mix (pr.chance ctx) 0 v
  | .randomGate _ pr choice, v => .mix (pr.chance ctx) ((1 / choice.totalWeight) •
      ((choice.gates.zip choice.weights).map fun gw => gw.2 • v.shift (pauliShift gw.1)).sum) v
  | .randomUnitary _ pr, v => .mix (pr.chance ctx) v.even v
  | .lambda _ _ _, _ => 0
  | .conditional _ _, _ => 0
  | .composite maps, v => spreadAll ctx maps v

noncomputable def spreadAll (ctx : QMapContext) : List (QMap U) → Weights → Weights
  | [], v => v
  | m :: maps, v => spreadAll ctx maps (m.spread ctx v)

end

theorem mixture_mixtureOf {C : Tensor →ₗ[ℂ] Tensor} {v v' : Weights} (pr : ℝ)
    (hC : C (mixtureOf B v) = mixtureOf B v') :
    mixture pr C (mixtureOf B v) = mixtureOf B (.mix pr v' v) := by
  have hrest : (1 - pr : ℂ) = ((1 - pr : ℝ) : ℂ) := by push_cast; rfl
  rw [mixture, LinearMap.add_apply, LinearMap.smul_apply, LinearMap.smul_apply, hC,
    LinearMap.id_apply, hrest, mixtureOf_smul, mixtureOf_smul, mixtureOf_add]
  rfl

theorem gates_mixtureOf (hB : Flips q B) (v : Weights)
    {gws : List (QGate × ℝ)}
    (hgws : ∀ gw ∈ gws, ∃ kind ∈ [QGateKind.I, .X, .Y, .Z], gw.1 = .builtin kind) :
    (gws.map fun gw => (gw.2 : ℂ) • gateChannel q gw.1).sum (mixtureOf B v) =
      mixtureOf B (gws.map fun gw => gw.2 • v.shift (pauliShift gw.1)).sum := by
  induction gws with
  | nil => exact mixtureOf_zero.symm
  | cons gw gws ih =>
      obtain ⟨kind, hkind, hgate⟩ := hgws gw List.mem_cons_self
      rw [List.map_cons, List.map_cons, List.sum_cons, List.sum_cons, LinearMap.add_apply,
        ih fun x hx => hgws x (List.mem_cons_of_mem gw hx), LinearMap.smul_apply, hgate,
        gateChannel_mixtureOf hB hkind, mixtureOf_smul, mixtureOf_add]

mutual

/-- A map of Pauli noise keeps a mixture one, with the weights spread. -/
theorem channel_mixtureOf {b : QStateBackend} (ctx : QMapContext) (hB : Flips q B) :
    ∀ (m : QMap U), m.Pauli b → ∀ v,
      m.channel ctx q (mixtureOf B v) = mixtureOf B (m.spread ctx v)
  | .null, _, v => rfl
  | .dephasing id pr, _, v =>
      mixture_mixtureOf _ (gateChannel_mixtureOf hB (by decide) v)
  | .depolarizing id pr, _, v => by
      refine mixture_mixtureOf _ ?_
      have hthird : (1 / 3 : ℂ) = ((((3 : ℕ) : ℝ)⁻¹ : ℝ) : ℂ) := by
        push_cast
        exact one_div 3
      rw [LinearMap.smul_apply, LinearMap.add_apply, LinearMap.add_apply,
        gateChannel_mixtureOf hB (by decide), gateChannel_mixtureOf hB (by decide),
        gateChannel_mixtureOf hB (by decide), mixtureOf_add, mixtureOf_add, hthird,
        mixtureOf_smul]
      rfl
  | .loss id pr, _, v => mixture_mixtureOf _ mixtureOf_zero.symm
  | .randomGate id pr choice, ⟨_, _, hgates⟩, v => by
      refine mixture_mixtureOf _ ?_
      have hshare : (1 / choice.totalWeight : ℂ) = ((1 / choice.totalWeight : ℝ) : ℂ) := by
        push_cast
        rfl
      rw [LinearMap.smul_apply, gates_mixtureOf hB v fun gw hgw =>
        hgates gw.1 (List.of_mem_zip hgw).1, hshare, mixtureOf_smul]
  | .randomUnitary id pr, _, v => mixture_mixtureOf _ (mixed_mixtureOf hB v)
  | .lambda _ _ _, hm, _ => hm.elim
  | .conditional _ _, hm, _ => hm.elim
  | .composite maps, hm, v => channelAll_mixtureOf ctx hB maps hm v

theorem channelAll_mixtureOf {b : QStateBackend} (ctx : QMapContext) (hB : Flips q B) :
    ∀ (maps : List (QMap U)), PauliAll b maps → ∀ v,
      channelAll ctx q maps (mixtureOf B v) = mixtureOf B (spreadAll ctx maps v)
  | [], _, v => rfl
  | m :: maps, hm, v => by
      rw [channelAll, LinearMap.comp_apply, channel_mixtureOf ctx hB m hm.1,
        channelAll_mixtureOf ctx hB maps hm.2, spreadAll]

end

theorem channel_bellMixture {b : QStateBackend} (ctx : QMapContext) (hpq : p ≠ q)
    (hF : Ignores q F) (m : QMap U) (hm : m.Pauli b) (v : Weights) :
    m.channel ctx q (bellMixture p q F v) = bellMixture p q F (m.spread ctx v) :=
  channel_mixtureOf ctx (flips_bellPair hpq hF) m hm v

theorem bellMixture_ideal (p q : QubitPtr) (F : Tensor) :
    bellMixture p q F ideal = fun z => bellPair false false p q z * F z :=
  mixtureOf_single (false, false)

/-! ## The weights -/

/-- The pairs themselves are only flipped. -/
theorem Weights.sum_shift (k : Bool × Bool) (v : Weights) : ∑ m, v.shift k m = ∑ m, v m := by
  obtain ⟨k1, k2⟩ := k
  simp only [Weights.shift, Fintype.sum_prod_type, Fintype.sum_bool]
  cases k1 <;> cases k2 <;> simp <;> ring

theorem Weights.sum_mix (pr : ℝ) (v' v : Weights) :
    ∑ m, Weights.mix pr v' v m = pr * ∑ m, v' m + (1 - pr) * ∑ m, v m := by
  simp only [Weights.mix, Pi.add_apply, Pi.smul_apply, smul_eq_mul, sum_add_distrib, ← mul_sum]

theorem Weights.sum_weighted (v : Weights) (gws : List (QGate × ℝ)) :
    ∑ m, (gws.map fun gw => gw.2 • v.shift (pauliShift gw.1)).sum m =
      (gws.map Prod.snd).sum * ∑ m, v m := by
  induction gws with
  | nil => simp
  | cons gw gws ih =>
      have hshift : ∑ m, (gw.2 • v.shift (pauliShift gw.1)) m = gw.2 * ∑ m, v m := by
        rw [← Weights.sum_shift (pauliShift gw.1) v, mul_sum]
        rfl
      rw [List.map_cons, List.map_cons, List.sum_cons, List.sum_cons]
      simp only [Pi.add_apply, sum_add_distrib]
      rw [ih, hshift, add_mul]

mutual

/-- Together the weights lose what the map loses. -/
theorem sum_spread {b : QStateBackend} (ctx : QMapContext) : ∀ (m : QMap U), m.Pauli b →
    ∀ v, ∑ k, m.spread ctx v k = m.survival ctx * ∑ k, v k
  | .null, _, v => (one_mul _).symm
  | .dephasing id pr, _, v => by
      rw [QMap.spread, QMap.survival, Weights.sum_mix, Weights.sum_shift]
      ring
  | .depolarizing id pr, _, v => by
      have hthree : ∑ k, (((3 : ℕ) : ℝ)⁻¹ • (v.shift (false, true) + v.shift (true, true) +
          v.shift (true, false))) k = ∑ k, v k := by
        simp only [Pi.add_apply, Pi.smul_apply, smul_eq_mul, ← mul_sum, sum_add_distrib,
          Weights.sum_shift, Nat.cast_ofNat]
        ring
      rw [QMap.spread, QMap.survival, Weights.sum_mix, hthree]
      ring
  | .loss id pr, _, v => by
      rw [QMap.spread, QMap.survival, Weights.sum_mix]
      simp
  | .randomGate id pr choice, ⟨hconf, hpos, _⟩, v => by
      have hzip : (choice.gates.zip choice.weights).map Prod.snd = choice.weights :=
        List.map_snd_zip hconf.length.ge
      have hall : ∑ k, ((1 / choice.totalWeight) • ((choice.gates.zip choice.weights).map
          fun gw => gw.2 • v.shift (pauliShift gw.1)).sum) k = ∑ k, v k := by
        simp only [Pi.smul_apply, smul_eq_mul, ← mul_sum]
        rw [Weights.sum_weighted, hzip, ← hconf.total, ← mul_assoc,
          one_div_mul_cancel hpos.ne', one_mul]
      rw [QMap.spread, QMap.survival, Weights.sum_mix, hall]
      ring
  | .randomUnitary id pr, _, v => by
      have heven : ∑ k, v.even k = ∑ k, v k := by
        simp only [Weights.even, sum_const, card_univ, Fintype.card_prod, Fintype.card_bool,
          Nat.cast_ofNat, nsmul_eq_mul]
        norm_num
        ring
      rw [QMap.spread, QMap.survival, Weights.sum_mix, heven]
      ring
  | .lambda _ _ _, hm, _ => hm.elim
  | .conditional _ _, hm, _ => hm.elim
  | .composite maps, hm, v => sum_spreadAll ctx maps hm v

theorem sum_spreadAll {b : QStateBackend} (ctx : QMapContext) : ∀ (maps : List (QMap U)),
    PauliAll b maps → ∀ v, ∑ k, spreadAll ctx maps v k = survivalAll ctx maps * ∑ k, v k
  | [], _, v => (one_mul _).symm
  | m :: maps, hm, v => by
      rw [spreadAll, sum_spreadAll ctx maps hm.2, sum_spread ctx m hm.1, survivalAll]
      ring

end

theorem Weights.mix_nonneg {pr : ℝ} (h0 : 0 ≤ pr) (h1 : pr ≤ 1) {v' v : Weights}
    (hv' : 0 ≤ v') (hv : 0 ≤ v) : 0 ≤ Weights.mix pr v' v :=
  add_nonneg (smul_nonneg h0 hv') (smul_nonneg (sub_nonneg.mpr h1) hv)

theorem Weights.shift_nonneg (k : Bool × Bool) {v : Weights} (hv : 0 ≤ v) : 0 ≤ v.shift k :=
  fun m => hv (m.1 ^^ k.1, m.2 ^^ k.2)

theorem chance_nonneg (pr : Probability) (ctx : QMapContext) : 0 ≤ pr.chance ctx :=
  le_max_left _ _

theorem chance_le_one (pr : Probability) (ctx : QMapContext) : pr.chance ctx ≤ 1 :=
  max_le zero_le_one (min_le_left _ _)

mutual

/-- Weights stay weights. -/
theorem spread_nonneg {b : QStateBackend} (ctx : QMapContext) : ∀ (m : QMap U), m.Pauli b →
    ∀ {v}, 0 ≤ v → 0 ≤ m.spread ctx v
  | .null, _, _, hv => hv
  | .dephasing _ pr, _, _, hv => Weights.mix_nonneg (chance_nonneg pr ctx)
      (chance_le_one pr ctx) (Weights.shift_nonneg _ hv) hv
  | .depolarizing _ pr, _, _, hv => Weights.mix_nonneg (chance_nonneg pr ctx)
      (chance_le_one pr ctx) (smul_nonneg (by norm_num) (add_nonneg (add_nonneg
        (Weights.shift_nonneg _ hv) (Weights.shift_nonneg _ hv))
        (Weights.shift_nonneg _ hv))) hv
  | .loss _ pr, _, _, hv => Weights.mix_nonneg (chance_nonneg pr ctx)
      (chance_le_one pr ctx) le_rfl hv
  | .randomGate _ pr choice, ⟨hconf, hpos, _⟩, _, hv => by
      refine Weights.mix_nonneg (chance_nonneg pr ctx) (chance_le_one pr ctx) ?_ hv
      refine smul_nonneg (one_div_pos.mpr hpos).le (List.sum_nonneg fun x hx => ?_)
      obtain ⟨gw, hgw, rfl⟩ := List.mem_map.mp hx
      exact smul_nonneg (hconf.nonneg gw.2 (List.of_mem_zip hgw).2)
        (Weights.shift_nonneg _ hv)
  | .randomUnitary _ pr, _, _, hv => Weights.mix_nonneg (chance_nonneg pr ctx)
      (chance_le_one pr ctx)
      (fun _ => div_nonneg (sum_nonneg fun m _ => hv m) (by norm_num)) hv
  | .lambda _ _ _, hm, _, _ => hm.elim
  | .conditional _ _, hm, _, _ => hm.elim
  | .composite maps, hm, _, hv => spreadAll_nonneg ctx maps hm hv

theorem spreadAll_nonneg {b : QStateBackend} (ctx : QMapContext) :
    ∀ (maps : List (QMap U)), PauliAll b maps → ∀ {v}, 0 ≤ v → 0 ≤ spreadAll ctx maps v
  | [], _, _, hv => hv
  | m :: maps, hm, _, hv =>
      spreadAll_nonneg ctx maps hm.2 (spread_nonneg ctx m hm.1 hv)

end

mutual

theorem Pauli.noise {b : QStateBackend} : ∀ {m : QMap U}, m.Pauli b → m.Noise b
  | .null, _ => trivial
  | .dephasing _ _, _ => trivial
  | .depolarizing _ _, _ => trivial
  | .loss _ _, _ => trivial
  | .randomGate _ _ choice, ⟨hconf, hpos, hgates⟩ => by
      refine ⟨hconf, hpos, fun gate hgate => ?_⟩
      obtain ⟨kind, hkind, rfl⟩ := hgates gate hgate
      have hbuiltin : ∀ kind ∈ [QGateKind.I, .X, .Y, .Z],
          kind ≠ .Custom ∧ kind.arity = 1 := by decide
      obtain ⟨V, hV⟩ := QState.accepts_builtin b (hbuiltin kind hkind).1
      exact ⟨V, (hbuiltin kind hkind).2 ▸ hV⟩
  | .randomUnitary _ _, hm => hm
  | .lambda _ _ _, hm => hm.elim
  | .conditional _ _, hm => hm.elim
  | .composite _, hm => PauliAll.noise hm

theorem PauliAll.noise {b : QStateBackend} : ∀ {maps : List (QMap U)}, PauliAll b maps →
    NoiseAll b maps
  | [], _ => trivial
  | _ :: _, hm => ⟨Pauli.noise hm.1, PauliAll.noise hm.2⟩

end

/-! ## A pair that is sent -/

/-- A pair is made, and half of it sent to another node. -/
def halfSent (n : ℕ) (alice : NodeId) (c : ChannelId) (bob : NodeId) : List Op :=
  [.createBellPair alice, .setLocationChannel (n + 1) c, .adoptQubit bob (n + 1)]

section Sent

variable {b : QStateBackend} {ops : List Op} {rs rs' : List Reply} {w₀ w : QStateRegistry}
  {alice bob : NodeId} {c : ChannelId} {m : QMap U} {s : State U} {j : ℕ}

theorem represents_halfSent {G : GlobalState} (h : Represents b w₀ G) (alice : NodeId)
    (c : ChannelId) (bob : NodeId) :
    ∃ rs w G', callAll (halfSent w₀.numHandles alice c bob) w₀ = (.ok rs, w) ∧
      Represents b w G' ∧ G'.Local bob (w₀.numHandles + 1) ∧
      G'.tensor = bellMixture w₀.numHandles (w₀.numHandles + 1) G.tensor ideal ∧
      ∀ node x, x ≠ w₀.numHandles + 1 → (G.createBellPair alice).Local node x →
        G'.Local node x := by
  have hplain : ∀ op ∈ halfSent w₀.numHandles alice c bob, op.Plain b := by
    simp only [halfSent, List.forall_mem_cons]
    exact ⟨trivial, trivial, trivial, List.forall_mem_nil _⟩
  obtain ⟨w, hok, h'⟩ := h.callAll hplain
  rw [h.handles] at hok h' ⊢
  have hlast : (G.createBellPair alice).place (G.handles + 1) = .node alice :=
    Function.update_self _ _ _
  have hmove : ((G.createBellPair alice).moveUnlessLost (G.handles + 1) (.channel c)) =
      (G.createBellPair alice).move (G.handles + 1) (.channel c) :=
    if_pos ⟨Nat.lt_succ_self _, by rw [hlast]; exact Location.noConfusion⟩
  have hplace : ((G.createBellPair alice).move (G.handles + 1) (.channel c)).place
      (G.handles + 1) = .channel c := Function.update_self _ _ _
  have hadopt : (((G.createBellPair alice).move (G.handles + 1) (.channel c)).moveUnlessLost
      (G.handles + 1) (.node bob)) =
        ((G.createBellPair alice).move (G.handles + 1) (.channel c)).move (G.handles + 1)
          (.node bob) :=
    if_pos ⟨Nat.lt_succ_self _, by rw [hplace]; exact Location.noConfusion⟩
  have hend : (G.callAll b (halfSent G.handles alice c bob)).2 =
      ((G.createBellPair alice).move (G.handles + 1) (.channel c)).move (G.handles + 1)
        (.node bob) := by
    rw [← hadopt, ← hmove]
    rfl
  rw [hend] at h'
  refine ⟨_, w, _, hok, h', ⟨Nat.lt_succ_self _, Function.update_self _ _ _⟩, ?_,
    fun node x hx hlocal => ⟨hlocal.1, ?_⟩⟩
  · rw [bellMixture_ideal]
    exact funext fun z => mul_comm _ _
  · exact (Function.update_of_ne hx _ _).trans
      ((Function.update_of_ne hx _ _).trans hlocal.2)

/-- A pair of which one half is sent through Pauli noise arrives as a mixture of the four
Bell pairs on average, next to whatever else there is; the weights are those of the map,
and they add up to the probability of arrival. -/
theorem sent_pair_is_mixture (hops : ∀ op ∈ ops, op.Plain b)
    (hw₀ : callAll ops (empty.setDefaultBackend b) = (.ok rs, w₀))
    (hw : callAll (halfSent w₀.numHandles alice c bob) w₀ = (.ok rs', w)) (hm : m.Pauli b)
    (ctx : QMapContext) (hs : s.world.registry = w) (u : Rng) (hj : m.draws ≤ j) :
    (∀ z, average j (fun xs => carried ctx bob (w₀.numHandles + 1) s
        (whenArrived (w₀.numHandles + 1) fun w' => globalOf QState.kernel w' z) m
          (u.feed xs)) =
      bellMixture w₀.numHandles (w₀.numHandles + 1) (globalOf QState.kernel w₀)
        (m.spread ctx ideal) z) ∧
      0 ≤ m.spread ctx ideal ∧ ∑ k, m.spread ctx ideal k = m.survival ctx := by
  obtain ⟨w', hok, h⟩ := (represents_empty b).callAll hops
  obtain rfl := (Prod.mk.inj (hw₀.symm.trans hok)).2
  obtain ⟨rs', w', G', hok', h', hlocal, htensor, -⟩ := represents_halfSent h alice c bob
  obtain rfl := (Prod.mk.inj (hw.symm.trans hok')).2
  have hignores : Ignores (w₀.numHandles + 1) (globalOf QState.kernel w₀) := by
    rw [h.tensor]
    exact h.ignores (h.handles.symm ▸ Nat.le_succ _)
  have hideal : (0 : Weights) ≤ ideal := Pi.single_nonneg.mpr zero_le_one
  refine ⟨fun z => ?_, spread_nonneg ctx m hm hideal, ?_⟩
  · rw [← hs] at h'
    rw [average_arrived h' hlocal (Pauli.noise hm) ctx u hj z, htensor, ← h.tensor,
      channel_bellMixture ctx (Nat.lt_succ_self _).ne hignores m hm]
  · rw [sum_spread ctx m hm, ideal, Fintype.sum_pi_single', mul_one]

theorem sent_pair_is_mixture_second : ∃ rs w₀ rs' w,
    callAll sharedPair (empty.setDefaultBackend .DM) = (.ok rs, w₀) ∧
      callAll (halfSent w₀.numHandles 0 0 1) w₀ = (.ok rs', w) ∧ ∀ u,
        (∀ z, average fibre.draws (fun xs => carried ⟨2⟩ 1 (w₀.numHandles + 1) (receiver w)
            (whenArrived (w₀.numHandles + 1) fun w' => globalOf QState.kernel w' z) fibre
              (Rng.feed u xs)) =
          bellMixture w₀.numHandles (w₀.numHandles + 1) (globalOf QState.kernel w₀)
            (fibre.spread ⟨2⟩ ideal) z) ∧
          0 ≤ fibre.spread ⟨2⟩ ideal ∧
            ∑ k, fibre.spread ⟨2⟩ ideal k = fibre.survival ⟨2⟩ := by
  obtain ⟨w₀, hok₀, h₀⟩ := (represents_empty .DM).callAll (sharedPair_plain .DM)
  obtain ⟨rs', w, -, hok, -⟩ := represents_halfSent h₀ 0 0 1
  refine ⟨_, w₀, rs', w, hok₀, hok, fun u => sent_pair_is_mixture (sharedPair_plain .DM) hok₀ hok
    ?_ ⟨2⟩ rfl u le_rfl⟩
  exact ⟨trivial, trivial, QStateBackend.noConfusion, trivial⟩

end Sent

end Q2NS.Maps
