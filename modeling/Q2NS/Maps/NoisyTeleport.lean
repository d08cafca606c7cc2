import Q2NS.Maps.Programs
import Q2NS.Teleport.Transfer

/-!
# Teleportation over a noisy pair

A qubit is teleported over a pair of which one half came through Pauli noise and loss: its
owner measures it together with the other half, and the receiver corrects by the outcomes.
The receiver's half then takes the place of the qubit, whatever the qubit was entangled
with, but for a Pauli error in the weights of the map.
-/

namespace Q2NS.Maps

open NamedTensor QStateRegistry UniformDraws QuadForm Swap Finset

variable {p q r : QubitPtr} {F A : Tensor}

theorem sgn_and_mul (a x y : Bool) : sgn (a && x) * sgn (a && y) = sgn (a && (x ^^ y)) := by
  cases a <;> cases x <;> cases y <;> simp [sgn]

/-- Factors that do not read the leg. -/
theorem flipped_mul (k : Bool × Bool) (hA : Ignores q A) (F : Tensor) :
    flipped k q (fun z => A z * F z) = fun z => A z * flipped k q F z := by
  funext z
  rw [flipped, hA, mul_left_comm]
  rfl

/-! ## The outcomes -/

/-- Leg `r` in the place of leg `q`. -/
def relabelled (q r : QubitPtr) (F : Tensor) : Tensor := fun z => F (Function.update z q (z r))

/-- Two Bell vectors that share a bit. -/
theorem sum_bell_bell (m k : Bool × Bool) (x y : Bool) :
    ∑ c, starRingEnd ℂ (bell m.1 m.2 x c) * bell k.1 k.2 c y =
      if x = (y ^^ (m.2 ^^ k.2)) then
        1 / 2 * (sgn (m.1 && x) * sgn (k.1 && (x ^^ m.2))) else 0 := by
  have hhalf := invSqrt2_mul_self
  have hiff : y = ((x ^^ m.2) ^^ k.2) ↔ x = (y ^^ (m.2 ^^ k.2)) := by
    generalize m.2 = m2
    generalize k.2 = k2
    revert x y m2 k2
    decide
  rw [sum_eq_single (x ^^ m.2)]
  · rw [bell, bell, if_pos rfl, if_congr hiff rfl rfl, map_mul, conj_invSqrt2, conj_sgn]
    split_ifs
    · linear_combination sgn (m.1 && x) * sgn (k.1 && (x ^^ m.2)) * hhalf
    · exact mul_zero _
  · intro c _ hc
    rw [bell, if_neg hc, map_zero, zero_mul]
  · exact fun h => absurd (mem_univ _) h

theorem sgn_outcome (m k : Bool × Bool) (x y s : Bool) :
    1 / 2 * (sgn (m.1 && (x ^^ s)) * sgn (k.1 && ((x ^^ s) ^^ m.2))) *
      starRingEnd ℂ (1 / 2 * (sgn (m.1 && (y ^^ s)) * sgn (k.1 && ((y ^^ s) ^^ m.2)))) =
        1 / 4 * sgn ((m.1 ^^ k.1) && (x ^^ y)) := by
  have hbits : ∀ a b c d : Bool, ((a ^^ c) ^^ (b ^^ c)) = (a ^^ b) ∧
      (((a ^^ c) ^^ d) ^^ ((b ^^ c) ^^ d)) = (a ^^ b) := by decide
  have hm := sgn_and_mul m.1 (x ^^ s) (y ^^ s)
  have hk := sgn_and_mul k.1 ((x ^^ s) ^^ m.2) ((y ^^ s) ^^ m.2)
  rw [(hbits x y s m.2).1] at hm
  rw [(hbits x y s m.2).2] at hk
  rw [← sgn_mul_and m.1 k.1 (x ^^ y), ← hm, ← hk]
  simp only [map_mul, map_div₀, map_one, Complex.conj_ofNat, conj_sgn]
  ring

/-- The same for rows and columns. -/
theorem sum_outcome (m k x y : Bool × Bool) :
    ∑ c : Bool × Bool, starRingEnd ℂ (bell m.1 m.2 x.1 c.1) * bell k.1 k.2 c.1 y.1 *
        (bell m.1 m.2 x.2 c.2 * starRingEnd ℂ (bell k.1 k.2 c.2 y.2)) =
      if x = (y.1 ^^ (m.2 ^^ k.2), y.2 ^^ (m.2 ^^ k.2)) then
        1 / 4 * sgn ((m.1 ^^ k.1) && (y.1 ^^ y.2)) else 0 := by
  have hsplit : ∀ a b : Bool → ℂ, ∑ c : Bool × Bool, a c.1 * b c.2 =
      (∑ c, a c) * ∑ c, b c := fun a b => by rw [Fintype.sum_prod_type, sum_mul_sum]
  have hconj : ∑ c, bell m.1 m.2 x.2 c * starRingEnd ℂ (bell k.1 k.2 c y.2) =
      starRingEnd ℂ (∑ c, starRingEnd ℂ (bell m.1 m.2 x.2 c) * bell k.1 k.2 c y.2) := by
    simp only [map_sum, map_mul, Complex.conj_conj]
  rw [hsplit (fun c => starRingEnd ℂ (bell m.1 m.2 x.1 c) * bell k.1 k.2 c y.1)
    fun c => bell m.1 m.2 x.2 c * starRingEnd ℂ (bell k.1 k.2 c y.2), hconj, sum_bell_bell,
    sum_bell_bell]
  rcases x with ⟨x, x'⟩
  by_cases hx : x = (y.1 ^^ (m.2 ^^ k.2)) <;> by_cases hx' : x' = (y.2 ^^ (m.2 ^^ k.2))
  · rw [if_pos hx, if_pos hx', if_pos (Prod.ext hx hx'), hx, hx', sgn_outcome]
  · rw [if_neg hx', map_zero, mul_zero, if_neg fun he => hx' (Prod.mk.inj he).2]
  · rw [if_neg hx, zero_mul, if_neg fun he => hx (Prod.mk.inj he).1]
  · rw [if_neg hx, zero_mul, if_neg fun he => hx (Prod.mk.inj he).1]

/-- The Bell vector of the outcomes against the qubit and one half of a pair: the other half
takes the place of the qubit, but for the outcomes and the error of the pair. -/
theorem contractPair_bellPair (m k : Bool × Bool) (hqr : q ≠ r) (hpr : p ≠ r) (hp : Ignores p F)
    (hr : Ignores r F) :
    contractPair (outerPair (bell m.1 m.2)) q p (fun z => bellPair k.1 k.2 p r z * F z) =
      fun z => 1 / 4 * flipped (m.1 ^^ k.1, m.2 ^^ k.2) r (relabelled q r F) z := by
  funext z
  have hread : ∀ x c : Bool × Bool, outerPair (bell m.1 m.2) x c *
      (bellPair k.1 k.2 p r (Function.update (Function.update z q x) p c) *
        F (Function.update (Function.update z q x) p c)) =
      starRingEnd ℂ (bell m.1 m.2 x.1 c.1) * bell k.1 k.2 c.1 (z r).1 *
        (bell m.1 m.2 x.2 c.2 * starRingEnd ℂ (bell k.1 k.2 c.2 (z r).2)) *
          F (Function.update z q x) := by
    intro x c
    rw [hp, outerPair, bellPair, density]
    simp only [rowOf, colOf, Function.update_self, Function.update_of_ne hpr.symm,
      Function.update_of_ne hqr.symm]
    ring
  simp only [contractPair, hread, ← sum_mul, sum_outcome, ite_mul, zero_mul, sum_ite_eq',
    mem_univ, if_true]
  rw [flipped, relabelled, Function.update_self, update_swap hqr, hr, mul_assoc]

/-! ## The protocol -/

variable {b : QStateBackend} {w : QStateRegistry} {G : GlobalState} {node alice bob : NodeId}
  {f : QStateRegistry → ℂ}

/-- The corrections by two outcomes. -/
def correct (node : NodeId) (q : QubitPtr) (m : ℤ × ℤ) : Program :=
  let last : Program :=
    if m.1 = 0 then .stop else .call (.apply node (.builtin .Z) [q]) fun _ => .stop
  if m.2 = 0 then last else .call (.apply node (.builtin .X) [q]) fun _ => last

/-- A qubit is measured together with one half of a pair, and the other half corrected. -/
def teleport (alice bob : NodeId) (psi qA qB : QubitPtr) : Program :=
  .call (.measureBell alice psi qA true true) fun r =>
    match r with
    | .outcomes m => correct bob qB m
    | _ => .stop

theorem teleport_all (b : QStateBackend) (alice bob : NodeId) {psi qA : QubitPtr}
    (qB : QubitPtr) (hne : psi ≠ qA) :
    (teleport alice bob psi qA qB).All (Op.Plain b) := by
  have hgate : ∀ {kind : QGateKind}, kind ≠ .Custom ∧ kind.arity = 1 →
      Op.Plain b (.apply bob (.builtin kind) [qB]) := fun {kind} hk =>
    ⟨List.nodup_singleton qB, by
      have haccepts := QState.accepts_builtin b hk.1
      rwa [hk.2] at haccepts⟩
  refine ⟨hne, fun r => ?_⟩
  cases r with
  | outcomes m =>
      dsimp only [correct]
      split_ifs
      · trivial
      · exact ⟨hgate (by decide), fun _ => trivial⟩
      · exact ⟨hgate (by decide), fun _ => trivial⟩
      · exact ⟨hgate (by decide), fun _ => ⟨hgate (by decide), fun _ => trivial⟩⟩
  | _ => trivial

/-- A gate in a program. -/
theorem expect_gate (h : Represents b w G) (hq : G.Local node q) {k : Bool × Bool}
    {kind : QGateKind} (hkind : pauliFlip k = kind) (next : Program) :
    QStateRegistry.expect f (.call (.apply node (.builtin kind) [q]) fun _ => next) w =
        QStateRegistry.expect f next (w.apply node (.builtin kind) [q]).2 ∧
      Represents b (w.apply node (.builtin kind) [q]).2
        ⟨G.handles, G.place, flipped k q G.tensor⟩ := by
  have hbuiltin : ∀ k, pauliFlip k ≠ .Custom ∧ (pauliFlip k).arity = 1 := by decide
  have hk := hkind ▸ hbuiltin k
  obtain ⟨w', hok, -⟩ := h.apply_builtin hk.1
    (show [q].length = kind.arity from hk.2.symm) (List.nodup_singleton q)
    (List.cons_ne_nil _ _) fun x hx => List.mem_singleton.mp hx ▸ hq
  refine ⟨?_, hkind ▸ represents_flipped h hq k⟩
  change proceed (fun _ w => QStateRegistry.expect f next w)
    (w.call (.apply node (.builtin kind) [q])) = _
  rw [QStateRegistry.call, hok]
  rfl

/-- In a program the corrections are those of `TryApplyCorrection`. -/
theorem expect_correct (h : Represents b w G) (hq : G.Local node q) {m1 m2 : Bool}
    {c : Teleport.Correction} (hx : c.x = m2) (hz : c.z = m1) :
    QStateRegistry.expect f (correct node q (m1.toNat, m2.toNat)) w =
        f (w.applyCorrection node q c) ∧
      Represents b (w.applyCorrection node q c)
        ⟨G.handles, G.place, flipped (m1, m2) q G.tensor⟩ := by
  have hlast : ∀ {w : QStateRegistry} {F : Tensor},
      Represents b w ⟨G.handles, G.place, F⟩ →
        QStateRegistry.expect f (if (m1.toNat : ℤ) = 0 then .stop else
          .call (.apply node (.builtin .Z) [q]) fun _ => .stop) w =
            f (if m1 then (w.apply node (.builtin .Z) [q]).2 else w) ∧
          Represents b (if m1 then (w.apply node (.builtin .Z) [q]).2 else w)
            ⟨G.handles, G.place, flipped (m1, false) q F⟩ := by
    intro w F h
    cases m1 with
    | false => exact ⟨rfl, (flipped_none q F).symm ▸ h⟩
    | true => exact expect_gate h hq (show pauliFlip (true, false) = .Z from rfl) .stop
  rw [applyCorrection, hx, hz]
  cases m2 with
  | false => exact hlast h
  | true =>
      obtain ⟨hstep, h'⟩ :=
        expect_gate (f := f) h hq (show pauliFlip (false, true) = .X from rfl) _
      obtain ⟨hrest, hafter⟩ := hlast h'
      rw [flipped_flipped, Bool.xor_false, Bool.false_xor] at hafter
      exact ⟨hstep.trans hrest, hafter⟩

/-! ## What arrives -/

theorem traceOut_measured (b : QStateBackend) (o : Bool) (q : QubitPtr) :
    traceOut q (measuredTensor b .Z o q) = fun _ => 1 := by
  rw [measuredTensor_eq b .Ket (.inr (by decide)), traceOut_measuredTensor]

theorem ignores_flipped (k : Bool × Bool) (hpr : p ≠ r) (hp : Ignores p F) :
    Ignores p (flipped k r F) := fun z c => by
  rw [flipped, flipped, Function.update_of_ne hpr.symm, update_swap hpr.symm, hp]

/-- Each pair of outcomes leaves the same, once it is corrected. -/
theorem traced_corrected (b : QStateBackend) (m k : Bool × Bool) (hqp : q ≠ p) (hqr : q ≠ r)
    (hpr : p ≠ r) (hp : Ignores p F) (hr : Ignores r F) (z : QubitPtr → Bool × Bool) :
    traceAll [q, p] (flipped m r (bellBranch b m.1 m.2 q p fun z =>
      bellPair k.1 k.2 p r z * F z)) z = 1 / 4 * flipped k r (relabelled q r F) z := by
  set K := flipped k r (relabelled q r F) with hK
  have hcorrected : flipped m r (bellBranch b m.1 m.2 q p fun z =>
      bellPair k.1 k.2 p r z * F z) =
        fun z => measuredTensor b .Z m.2 p z * (measuredTensor b .Z m.1 q z *
          (1 / 4 * K z)) := by
    have hbits : ∀ x y : Bool, (x ^^ (x ^^ y)) = y := by decide
    have hbranch : bellBranch b m.1 m.2 q p (fun z => bellPair k.1 k.2 p r z * F z) =
        fun z => measuredTensor b .Z m.2 p z * (measuredTensor b .Z m.1 q z *
          (1 / 4 * flipped (m.1 ^^ k.1, m.2 ^^ k.2) r (relabelled q r F) z)) :=
      funext fun z => congrArg (fun y => measuredTensor b .Z m.2 p z *
        (measuredTensor b .Z m.1 q z * y))
        (congrFun (contractPair_bellPair m k hqr hpr hp hr) z)
    rw [hbranch, flipped_mul m (measuredTensor_ignores b .Z m.2 hpr.symm),
      flipped_mul m (measuredTensor_ignores b .Z m.1 hqr.symm),
      flipped_mul m (ignores_const r _), flipped_flipped, hbits, hbits]
  have hKq : Ignores q K := ignores_flipped k hqr fun z c => by
    rw [relabelled, relabelled, Function.update_idem, Function.update_of_ne hqr.symm]
  have hKp : Ignores p K := ignores_flipped k hpr fun z c => by
    rw [relabelled, relabelled, Function.update_of_ne hpr.symm, update_swap hqp, hp]
  have hfirst : traceOut q (fun z => measuredTensor b .Z m.2 p z *
      (measuredTensor b .Z m.1 q z * (1 / 4 * K z))) =
        fun z => measuredTensor b .Z m.2 p z * (1 / 4 * K z) := by
    have hswap : (fun z => measuredTensor b .Z m.2 p z * (measuredTensor b .Z m.1 q z *
        (1 / 4 * K z))) = fun z => measuredTensor b .Z m.1 q z *
          (measuredTensor b .Z m.2 p z * (1 / 4 * K z)) := funext fun z => mul_left_comm _ _ _
    rw [hswap, traceOut_mul ((measuredTensor_ignores b .Z m.2 hqp).mul
      ((ignores_const q _).mul hKq)), traceOut_measured]
    simp only [one_mul]
  rw [hcorrected, traceAll, traceAll, traceAll, hfirst,
    traceOut_mul ((ignores_const p _).mul hKp), traceOut_measured]
  exact one_mul _

/-- A qubit is teleported over a pair with an error: the other half takes its place, with
the error. -/
theorem expect_teleport {k : Bool × Bool}
    (h : Represents b w ⟨G.handles, G.place, fun z => bellPair k.1 k.2 p r z * F z⟩)
    (hq : G.Local alice q) (hp : G.Local alice p) (hr : G.Local bob r) (hqp : q ≠ p)
    (hqr : q ≠ r) (hpr : p ≠ r) (hpF : Ignores p F) (hrF : Ignores r F)
    (z : QubitPtr → Bool × Bool) :
    QStateRegistry.expect (fun w => traceAll [q, p] (globalOf QState.kernel w) z)
      (teleport alice bob q p r) w =
        gateChannel r (.builtin (pauliFlip k)) (relabelled q r F) z := by
  have hyes := And.intro (h.local_iff.mpr hq) (h.local_iff.mpr hp)
  refine (if_pos hyes).trans ?_
  rw [sum_bellBranches h hqp hq hp
    (L := fun m1 m2 => LinearMap.proj z ∘ₗ traced [q, p] ∘ₗ
      gateChannel r (.builtin (pauliFlip (m1, m2))))]
  · have hterm : ∀ m1 m2, (LinearMap.proj z ∘ₗ traced [q, p] ∘ₗ
        gateChannel r (.builtin (pauliFlip (m1, m2)))) (bellBranch b m1 m2 q p fun z =>
          bellPair k.1 k.2 p r z * F z) = 1 / 4 * flipped k r (relabelled q r F) z := by
      intro m1 m2
      rw [LinearMap.comp_apply, LinearMap.comp_apply, gateChannel_pauliFlip]
      exact traced_corrected b (m1, m2) k hqp hqr hpr hpF hrF z
    simp only [hterm, Fintype.sum_bool, gateChannel_pauliFlip]
    ring
  · intro m1 m2 w' F' hok h'
    rw [QStateRegistry.call, hok]
    obtain ⟨hstep, hafter⟩ := expect_correct (c := ⟨0, .target 0, m2, m1⟩)
      (f := fun w => traceAll [q, p] (globalOf QState.kernel w) z) h' hr rfl rfl
    refine hstep.trans ?_
    rw [hafter.tensor, LinearMap.comp_apply, LinearMap.comp_apply, gateChannel_pauliFlip]
    rfl

section Sent

variable {U : Type} {ops : List Op} {rs rs' : List Reply} {w₀ : QStateRegistry} {c : ChannelId}
  {m : QMap U} {s : State U} {j : ℕ} {psi : QubitPtr}

/-- From any state that the machine represents. -/
theorem average_teleport {G₀ : GlobalState} (h : Represents b w₀ G₀)
    (hw : callAll (halfSent w₀.numHandles alice c bob) w₀ = (.ok rs', w)) (hm : m.Pauli b)
    (ctx : QMapContext) (hs : s.world.registry = w) (u : Rng) (hj : m.draws ≤ j)
    (hpsi : G₀.Local alice psi) (z : QubitPtr → Bool × Bool) :
    average j (fun xs => carried ctx bob (w₀.numHandles + 1) s
        (whenArrived (w₀.numHandles + 1) (QStateRegistry.expect
          (fun w' => traceAll [psi, w₀.numHandles] (globalOf QState.kernel w') z)
          (teleport alice bob psi w₀.numHandles (w₀.numHandles + 1)))) m (u.feed xs)) =
      ∑ k, (m.spread ctx ideal k : ℂ) * gateChannel (w₀.numHandles + 1)
        (.builtin (pauliFlip k)) (relabelled psi (w₀.numHandles + 1) G₀.tensor) z := by
  obtain ⟨rs', w', G, hok', h', hbob, htensor, hothers⟩ := represents_halfSent h alice c bob
  obtain rfl := (Prod.mk.inj (hw.symm.trans hok')).2
  have hlt : psi < w₀.numHandles := h.handles ▸ hpsi.1
  have hne : w₀.numHandles ≠ w₀.numHandles + 1 := (Nat.lt_succ_self _).ne
  have hignores : ∀ x ≥ w₀.numHandles, Ignores x G₀.tensor := fun x hx =>
    h.ignores (h.handles ▸ hx)
  rw [bellMixture_ideal] at htensor
  -- what `alice` has
  have hmessage : G.Local alice psi := by
    refine hothers _ _ (hlt.trans (Nat.lt_succ_self _)).ne
      ⟨Nat.lt_succ_of_lt (Nat.lt_succ_of_lt hpsi.1), ?_⟩
    exact (Function.update_of_ne (Nat.lt_succ_of_lt hpsi.1).ne _ _).trans
      ((Function.update_of_ne hpsi.1.ne _ _).trans hpsi.2)
  have hhalf : G.Local alice w₀.numHandles := by
    rw [h.handles] at hothers hne ⊢
    exact hothers _ _ hne ⟨Nat.lt_succ_of_lt (Nat.lt_succ_self _),
      (Function.update_of_ne hne _ _).trans (Function.update_self _ _ _)⟩
  have hlinear : Linear b fun w' =>
      traceAll [psi, w₀.numHandles] (globalOf QState.kernel w') z := fun e =>
    ⟨LinearMap.proj z ∘ₗ traced [psi, w₀.numHandles], fun w F h =>
      congrArg (fun T => traceAll [psi, w₀.numHandles] T z) h.tensor⟩
  subst hs
  rw [average_errors h' hbob hm ctx u hj (hlinear.expect
    (teleport_all b alice bob (w₀.numHandles + 1) hlt.ne))]
  refine sum_congr rfl fun k _ => congrArg (_ * ·) ?_
  -- the error on the half that was sent is one of the pair
  have herror : flipped k (w₀.numHandles + 1) G.tensor = fun z =>
      bellPair k.1 k.2 w₀.numHandles (w₀.numHandles + 1) z * G₀.tensor z := by
    have hflip := flips_bellPair hne (hignores _ (Nat.le_succ _)) (pauliFlip_mem k)
      (false, false)
    rw [gateChannel_pauliFlip, pauliShift_pauliFlip, Bool.false_xor, Bool.false_xor] at hflip
    rw [htensor, hflip]
  have hafter := represents_flipped h' hbob k
  rw [herror] at hafter
  exact expect_teleport hafter hmessage hhalf hbob hlt.ne
    (hlt.trans (Nat.lt_succ_self _)).ne hne (hignores _ le_rfl) (hignores _ (Nat.le_succ _)) z

/-- The weights of a map without noise give the identity. -/
theorem sum_ideal (q : QubitPtr) (F : Tensor) (z : QubitPtr → Bool × Bool) :
    ∑ k, (ideal k : ℂ) * gateChannel q (.builtin (pauliFlip k)) F z = F z := by
  rw [sum_eq_single (false, false)]
  · rw [ideal, Pi.single_eq_same, Complex.ofReal_one, one_mul, gateChannel_pauliFlip,
      flipped_none]
  · intro k _ hk
    rw [ideal, Pi.single_eq_of_ne hk, Complex.ofReal_zero, zero_mul]
  · exact fun h => absurd (mem_univ _) h

/-- Teleportation over a pair of which one half came through Pauli noise and loss is, on
average over the stream and the outcomes, a Pauli channel with the weights of the map: the
half that arrived takes the place of the qubit, next to whatever that was entangled with.
The weights add up to the chance that the half arrives; without noise the channel is the
identity. -/
theorem noisy_teleportation (hops : ∀ op ∈ ops, op.Plain b)
    (hw₀ : callAll ops (empty.setDefaultBackend b) = (.ok rs, w₀))
    (hw : callAll (halfSent w₀.numHandles alice c bob) w₀ = (.ok rs', w)) (hm : m.Pauli b)
    (ctx : QMapContext) (hs : s.world.registry = w) (u : Rng) (hj : m.draws ≤ j)
    (hpsi : psi < w₀.numHandles ∧ w₀.IsLocal alice psi) (z : QubitPtr → Bool × Bool) :
    average j (fun xs => carried ctx bob (w₀.numHandles + 1) s
        (whenArrived (w₀.numHandles + 1) (QStateRegistry.expect
          (fun w' => traceAll [psi, w₀.numHandles] (globalOf QState.kernel w') z)
          (teleport alice bob psi w₀.numHandles (w₀.numHandles + 1)))) m (u.feed xs)) =
      ∑ k, (m.spread ctx ideal k : ℂ) * gateChannel (w₀.numHandles + 1)
        (.builtin (pauliFlip k))
          (relabelled psi (w₀.numHandles + 1) (globalOf QState.kernel w₀)) z ∧
      ∑ k, m.spread ctx ideal k = m.survival ctx ∧
      ∑ k, ((QMap.null : QMap U).spread ctx ideal k : ℂ) * gateChannel (w₀.numHandles + 1)
        (.builtin (pauliFlip k))
          (relabelled psi (w₀.numHandles + 1) (globalOf QState.kernel w₀)) z =
        relabelled psi (w₀.numHandles + 1) (globalOf QState.kernel w₀) z := by
  refine ⟨?_, by rw [sum_spread ctx m hm, ideal, Fintype.sum_pi_single', mul_one],
    sum_ideal _ _ z⟩
  obtain ⟨w', hok, h⟩ := (represents_empty b).callAll hops
  obtain rfl := (Prod.mk.inj (hw₀.symm.trans hok)).2
  rw [h.tensor]
  exact average_teleport h hw hm ctx hs u hj (h.local_iff.mp hpsi) z

theorem noisy_teleportation_second : ∃ rs w₀ rs' w,
    callAll sharedPair (empty.setDefaultBackend .DM) = (.ok rs, w₀) ∧
      callAll (halfSent w₀.numHandles 0 0 1) w₀ = (.ok rs', w) ∧ ∀ u z,
        average fibre.draws (fun xs => carried ⟨2⟩ 1 (w₀.numHandles + 1) (receiver w)
            (whenArrived (w₀.numHandles + 1) (QStateRegistry.expect
              (fun w' => traceAll [0, w₀.numHandles] (globalOf QState.kernel w') z)
              (teleport 0 1 0 w₀.numHandles (w₀.numHandles + 1)))) fibre (Rng.feed u xs)) =
          ∑ k, (fibre.spread ⟨2⟩ ideal k : ℂ) * gateChannel (w₀.numHandles + 1)
            (.builtin (pauliFlip k))
              (relabelled 0 (w₀.numHandles + 1) (globalOf QState.kernel w₀)) z ∧
          ∑ k, fibre.spread ⟨2⟩ ideal k = fibre.survival ⟨2⟩ := by
  obtain ⟨w₀, hok₀, h₀⟩ := (represents_empty .DM).callAll (sharedPair_plain .DM)
  obtain ⟨rs', w, -, hok, -⟩ := represents_halfSent h₀ 0 0 1
  have hlocal : (GlobalState.empty.callAll .DM sharedPair).2.Local 0 0 :=
    ⟨Nat.zero_lt_two, rfl⟩
  have hfibre : QMap.Pauli .DM fibre := ⟨trivial, trivial, QStateBackend.noConfusion, trivial⟩
  refine ⟨_, w₀, rs', w, hok₀, hok, fun u z => ?_⟩
  obtain ⟨hchannel, hsum, -⟩ := noisy_teleportation (s := receiver w) (sharedPair_plain .DM)
    hok₀ hok hfibre ⟨2⟩ rfl u le_rfl (h₀.local_iff.mpr hlocal) z
  exact ⟨hchannel, hsum⟩

end Sent

end Q2NS.Maps
