import Q2NS.Maps.NoisyTeleport

/-!
# Swapping noisy pairs

A repeater that has got one half of a pair over a noisy link makes a pair with the next
node over another one, and swaps.  The ends then share a mixture of Bell pairs, whose
weights are the convolution of those of the two links; a longer chain repeats this.
-/

namespace Q2NS.Maps

open NamedTensor QStateRegistry UniformDraws QuadForm Swap Finset

/-- The errors of two links, one after the other. -/
noncomputable def Weights.conv (v v' : Weights) : Weights := ∑ k, v' k • v.shift k

theorem Weights.sum_conv (v v' : Weights) : ∑ m, v.conv v' m = (∑ m, v m) * ∑ m, v' m := by
  simp only [Weights.conv, Finset.sum_apply, Pi.smul_apply, smul_eq_mul]
  rw [sum_comm, mul_sum]
  refine sum_congr rfl fun k _ => ?_
  rw [← mul_sum, Weights.sum_shift, mul_comm]

variable {U : Type} {b : QStateBackend} {p q r : QubitPtr} {F : Tensor}

/-- `relabelled` as a linear map. -/
noncomputable def relabelling (q r : QubitPtr) : Tensor →ₗ[ℂ] Tensor where
  toFun := relabelled q r
  map_add' _ _ := rfl
  map_smul' _ _ := rfl

theorem relabelled_bellMixture (hpq : p ≠ q) (hF : Ignores q F) (v : Weights) :
    relabelled q r (bellMixture p q F v) = bellMixture p r F v := by
  funext z
  have hpair : ∀ k : Bool × Bool, bellPair k.1 k.2 p q (Function.update z q (z r)) =
      bellPair k.1 k.2 p r z := fun k => by
    simp only [bellPair, density, rowOf, colOf, Function.update_self, Function.update_of_ne hpq]
  have hrest : F (Function.update z q (z r)) = F z := hF z _
  simp only [relabelled, bellMixture, Finset.sum_apply, Pi.smul_apply, hpair, hrest]

/-- The errors of the second link on the pairs of the first. -/
theorem sum_flipped (hpr : p ≠ r) (hF : Ignores r F) (v v' : Weights) :
    ∑ k, (v' k : ℂ) • gateChannel r (.builtin (pauliFlip k)) (bellMixture p r F v) =
      bellMixture p r F (v.conv v') := by
  have hterm : ∀ k, (v' k : ℂ) • gateChannel r (.builtin (pauliFlip k)) (bellMixture p r F v) =
      mixtureOf (fun m z => bellPair m.1 m.2 p r z * F z) (v' k • v.shift k) := by
    intro k
    rw [← mixtureOf_smul]
    refine congrArg ((v' k : ℂ) • ·) ((gateChannel_mixtureOf (flips_bellPair hpr hF)
      (pauliFlip_mem k) v).trans ?_)
    rw [pauliShift_pauliFlip]
  rw [sum_congr rfl fun k _ => hterm k]
  simp only [mixtureOf]
  rw [sum_comm, bellMixture]
  refine sum_congr rfl fun m _ => ?_
  rw [← sum_smul, Weights.conv, Finset.sum_apply, Complex.ofReal_sum]

/-- A node that has got a half makes a pair with the next one and swaps. -/
noncomputable def swapOn (ctx : QMapContext) (node next : NodeId) (c : ChannelId)
    (q : QubitPtr) (m : QMap U) (z : QubitPtr → Bool × Bool) : Reading U := fun x u =>
  match x.1 with
  | .error _ => 0
  | .ok _ => if x.2.getLocation q = .lost then 0 else
      let w := x.2.world.registry
      let n := w.numHandles
      let sent := (callAll (halfSent n node c next) w).2
      carried ctx next (n + 1) ⟨{ x.2.world with registry := sent }, x.2.trace⟩
        (whenArrived (n + 1) (QStateRegistry.expect
          (fun w' => traceAll [q, n] (globalOf QState.kernel w') z)
          (teleport node next q n (n + 1)))) m u

theorem reads_swapOn (ctx : QMapContext) (node next : NodeId) (c : ChannelId) {m : QMap U}
    (hm : m.Pauli b) (e : Frame) (z : QubitPtr → Bool × Bool) :
    Reads b node q e m.draws (swapOn ctx node next c q m z)
      (∑ k, (m.spread ctx ideal k : ℂ) • LinearMap.proj z ∘ₗ
        gateChannel (e.1 + 1) (.builtin (pauliFlip k)) ∘ₗ relabelling q (e.1 + 1)) where
  here := by
    intro s G h hn hq u j hj
    have hlocal : s.getLocation q ≠ .lost := by
      rw [State.getLocation, h.place q hq.1, hq.2]
      exact Location.noConfusion
    have hhandles : s.world.registry.numHandles = e.1 :=
      h.handles.trans (Prod.mk.inj hn).1
    obtain ⟨rs, w', -, hok, -⟩ := represents_halfSent h node c next
    simp only [swapOn, if_neg hlocal]
    rw [average_teleport h hok hm ctx (by rw [hok]) u hj hq z, hhandles]
    simp only [LinearMap.sum_apply, LinearMap.smul_apply, LinearMap.comp_apply, smul_eq_mul]
    rfl
  lost := fun hs u => if_pos hs

section Swapped

variable {ops : List Op} {rs rs' : List Reply} {w₀ w : QStateRegistry} {c c' : ChannelId}
  {alice node bob : NodeId} {m m' : QMap U} {s : State U} {j : ℕ}

/-- A pair with the repeater over one noisy link, then one with the next node over another,
and a swap: on average over the stream and the outcomes the ends share a mixture of the four
Bell pairs, next to whatever else there is, with the convolution of the weights of the two
maps; these add up to the probability that both halves arrive. -/
theorem noisy_swap (hops : ∀ op ∈ ops, op.Plain b)
    (hw₀ : callAll ops (empty.setDefaultBackend b) = (.ok rs, w₀))
    (hw : callAll (halfSent w₀.numHandles alice c node) w₀ = (.ok rs', w)) (hm : m.Pauli b)
    (hm' : m'.Pauli b) (ctx ctx' : QMapContext) (hs : s.world.registry = w) (u : Rng)
    (hj : m.draws + m'.draws ≤ j) (z : QubitPtr → Bool × Bool) :
    average j (fun xs => carried ctx node (w₀.numHandles + 1) s
        (swapOn ctx' node bob c' (w₀.numHandles + 1) m' z) m (u.feed xs)) =
      bellMixture w₀.numHandles (w.numHandles + 1) (globalOf QState.kernel w₀)
        ((m.spread ctx ideal).conv (m'.spread ctx' ideal)) z ∧
      ∑ k, (m.spread ctx ideal).conv (m'.spread ctx' ideal) k =
        m.survival ctx * m'.survival ctx' := by
  have hideal : ∑ k, ideal k = 1 := by rw [ideal, Fintype.sum_pi_single']
  refine ⟨?_, by rw [Weights.sum_conv, sum_spread ctx m hm, sum_spread ctx' m' hm', hideal,
    mul_one, mul_one]⟩
  obtain ⟨w', hok, h⟩ := (represents_empty b).callAll hops
  obtain rfl := (Prod.mk.inj (hw₀.symm.trans hok)).2
  obtain ⟨rs', w', G, hok', h', hlocal, htensor, -⟩ := represents_halfSent h alice c node
  obtain rfl := (Prod.mk.inj (hw.symm.trans hok')).2
  have hne : w₀.numHandles ≠ w₀.numHandles + 1 := (Nat.lt_succ_self _).ne
  have hignores : ∀ x ≥ w₀.numHandles, Ignores x (globalOf QState.kernel w₀) := by
    intro x hx
    rw [h.tensor]
    exact h.ignores (h.handles ▸ hx)
  have hlt : w₀.numHandles < w.numHandles + 1 := by
    rw [h'.handles]
    exact (Nat.lt_succ_self _).trans (hlocal.1.trans (Nat.lt_succ_self _))
  rw [← h.tensor] at htensor
  subst hs
  rw [average_carried ctx m (Pauli.noise hm) (reads_swapOn ctx' node bob c' hm'
    (G.handles, G.place) z) h' rfl hlocal u j hj, htensor,
    channel_bellMixture ctx hne (hignores _ (Nat.le_succ _)) m hm, ← h'.handles,
    ← sum_flipped hlt.ne (hignores _ hlt.le)]
  simp only [LinearMap.sum_apply, LinearMap.smul_apply, LinearMap.comp_apply, smul_eq_mul,
    Finset.sum_apply, Pi.smul_apply]
  refine sum_congr rfl fun k _ => congrArg (_ * ·) ?_
  exact congrArg (fun T => gateChannel _ _ T z)
    (relabelled_bellMixture hne (hignores _ (Nat.le_succ _)) _)

theorem noisy_swap_second : ∃ rs w₀ rs' w,
    callAll sharedPair (empty.setDefaultBackend .DM) = (.ok rs, w₀) ∧
      callAll (halfSent w₀.numHandles 0 0 1) w₀ = (.ok rs', w) ∧ ∀ u z,
        average (fibre.draws + fibre.draws) (fun xs =>
            carried ⟨2⟩ 1 (w₀.numHandles + 1) (receiver w)
              (swapOn ⟨3⟩ 1 2 1 (w₀.numHandles + 1) fibre z) fibre (Rng.feed u xs)) =
          bellMixture w₀.numHandles (w.numHandles + 1) (globalOf QState.kernel w₀)
            ((fibre.spread ⟨2⟩ ideal).conv (fibre.spread ⟨3⟩ ideal)) z ∧
          ∑ k, (fibre.spread ⟨2⟩ ideal).conv (fibre.spread ⟨3⟩ ideal) k =
            fibre.survival ⟨2⟩ * fibre.survival ⟨3⟩ := by
  obtain ⟨w₀, hok₀, h₀⟩ := (represents_empty .DM).callAll (sharedPair_plain .DM)
  obtain ⟨rs', w, -, hok, -⟩ := represents_halfSent h₀ 0 0 1
  have hfibre : QMap.Pauli .DM fibre := ⟨trivial, trivial, QStateBackend.noConfusion, trivial⟩
  exact ⟨_, w₀, rs', w, hok₀, hok, fun u z => noisy_swap (sharedPair_plain .DM) hok₀ hok hfibre
    hfibre ⟨2⟩ ⟨3⟩ rfl u le_rfl z⟩

end Swapped

end Q2NS.Maps
