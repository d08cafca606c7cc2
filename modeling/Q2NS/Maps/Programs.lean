import Q2NS.Maps.NoisyPairs

/-!
# Programs after noise

What an operation does to the joint state is linear on average over its replies, and so
is what a program does that decides by the replies.  A qubit that comes out of a map of
Pauli noise and loss may therefore be followed through any program as if the map had chosen
one of four gates, once and for all, or lost the qubit.
-/

namespace Q2NS.Maps

open NamedTensor QStateRegistry UniformDraws QuadForm Swap Finset

variable {U : Type} {b : QStateBackend}

/-! ## Steps on the joint state -/

/-- A matrix on some legs. -/
noncomputable def acting {k : ℕ} (K : (Fin k → Bool × Bool) → (Fin k → Bool × Bool) → ℂ)
    (t : Fin k → QubitPtr) : Tensor →ₗ[ℂ] Tensor where
  toFun := actOn K t
  map_add' F H := by
    funext z
    simp only [actOn, Pi.add_apply, mul_add, sum_add_distrib]
  map_smul' a F := actOn_smul a F

/-- The part of the joint state with outcome `o`, and the measured qubit as it is left. -/
noncomputable def branch (b : QStateBackend) (basis : Basis) (o : Bool) (q : QubitPtr) :
    Tensor →ₗ[ℂ] Tensor where
  toFun F z := measuredTensor b basis o q z * contract (outer (eigenvector basis o)) q F z
  map_add' F H := by
    funext z
    simp only [contract, Pi.add_apply, mul_add, sum_add_distrib]
  map_smul' a F := by
    funext z
    rw [show a • F = fun z => a * F z from rfl, contract_smul]
    exact mul_left_comm _ _ _

theorem apply_linear (node : NodeId) (gate : QGate) (qs : List QubitPtr) (e : Frame) :
    ∃ (ok : Bool) (T : Tensor →ₗ[ℂ] Tensor), ∀ F,
      (GlobalState.mk e.1 e.2 F).apply node gate qs = (ok, ⟨e.1, e.2, T F⟩) := by
  by_cases hrefused : qs = [] ∨ ∃ q ∈ qs, ¬ (GlobalState.mk e.1 e.2 0).Local node q
  · exact ⟨false, LinearMap.id, fun F => if_pos hrefused⟩
  · cases hgate : gate.matrix with
    | error x =>
        refine ⟨false, LinearMap.id, fun F => ?_⟩
        rw [GlobalState.apply, hgate]
        exact if_neg hrefused
    | ok V =>
        refine ⟨true, acting (conjBy (V.kernel qs.length)) qs.get, fun F => ?_⟩
        rw [GlobalState.apply, hgate]
        exact if_neg hrefused

theorem moveUnlessLost_linear (e : Frame) (q : QubitPtr) (loc : Location) :
    ∃ (r : Reply) (e' : Frame) (T : Tensor →ₗ[ℂ] Tensor), ∀ F,
      (Reply.done, (GlobalState.mk e.1 e.2 F).moveUnlessLost q loc) =
        (r, ⟨e'.1, e'.2, T F⟩) := by
  by_cases hq : q < e.1 ∧ e.2 q ≠ .lost
  · exact ⟨.done, (e.1, Function.update e.2 q loc), LinearMap.id, fun F =>
      congrArg (Prod.mk Reply.done) (if_pos hq)⟩
  · exact ⟨.done, e, LinearMap.id, fun F => congrArg (Prod.mk Reply.done) (if_neg hq)⟩

/-- An operation that measures nothing. -/
theorem call_linear {op : Op} (hop : op.Plain b) (e : Frame)
    (hm : ∀ node q basis draw, op = .measure node q basis draw →
      ¬ (GlobalState.mk e.1 e.2 0).Local node q)
    (hbell : ∀ node p q dA dB, op = .measureBell node p q dA dB →
      ¬ ((GlobalState.mk e.1 e.2 0).Local node p ∧ (GlobalState.mk e.1 e.2 0).Local node q)) :
    ∃ (r : Reply) (e' : Frame) (T : Tensor →ₗ[ℂ] Tensor), ∀ F,
      (GlobalState.mk e.1 e.2 F).call b op = (r, ⟨e'.1, e'.2, T F⟩) := by
  cases op with
  | newState value => exact hop.elim
  | createQubitFrom node state => exact hop.elim
  | setDefaultBackend b' => exact ⟨.done, e, LinearMap.id, fun F => rfl⟩
  | createQubit node =>
      exact ⟨.handle (some e.1), (e.1 + 1, Function.update e.2 e.1 (.node node)),
        LinearMap.mulRight ℂ (GlobalState.zeroTensor e.1), fun F => rfl⟩
  | createBellPair node =>
      exact ⟨.pair (e.1, e.1 + 1),
        (e.1 + 2, Function.update (Function.update e.2 e.1 (.node node)) (e.1 + 1)
          (.node node)),
        LinearMap.mulRight ℂ (bellPair false false e.1 (e.1 + 1)), fun F => rfl⟩
  | apply node gate qs =>
      obtain ⟨ok, T, hT⟩ := apply_linear node gate qs e
      exact ⟨.applied ok, e, T, fun F => congrArg (Prod.map Reply.applied id) (hT F)⟩
  | measure node q basis draw =>
      exact ⟨.outcome (-1), e, LinearMap.id, fun F =>
        congrArg (Prod.map Reply.outcome id) (if_pos (hm _ _ _ _ rfl))⟩
  | measureBell node p q dA dB =>
      exact ⟨.outcomes (-1, -1), e, LinearMap.id, fun F =>
        congrArg (Prod.map Reply.outcomes id)
          (if_pos (not_and_or.mp (hbell _ _ _ _ _ rfl)))⟩
  | adoptQubit node q => exact moveUnlessLost_linear e q (.node node)
  | setLocationNode q node => exact moveUnlessLost_linear e q (.node node)
  | setLocationChannel q c => exact moveUnlessLost_linear e q (.channel c)
  | setLocationLost q =>
      by_cases hq : q < e.1
      · exact ⟨.done, (e.1, Function.update e.2 q .lost), LinearMap.id, fun F =>
          congrArg (Prod.mk Reply.done) (if_pos hq)⟩
      · exact ⟨.done, e, LinearMap.id, fun F => congrArg (Prod.mk Reply.done) (if_neg hq)⟩

/-! ## What programs do -/

variable {f : QStateRegistry → ℂ} {w : QStateRegistry} {G : GlobalState}

/-- `f` reads the joint state of the handles linearly, wherever they are. -/
def Linear (b : QStateBackend) (f : QStateRegistry → ℂ) : Prop := ∀ e : Frame,
  ∃ L : Tensor →ₗ[ℂ] ℂ, ∀ ⦃w : QStateRegistry⦄ ⦃F : Tensor⦄,
    Represents b w ⟨e.1, e.2, F⟩ → f w = L F

theorem linear_globalOf (b : QStateBackend) (z : QubitPtr → Bool × Bool) :
    Linear b fun w => globalOf QState.kernel w z := fun _ =>
  ⟨LinearMap.proj z, fun _ _ h => congrFun h.tensor z⟩

/-- The outcomes of a measurement, each with its probability. -/
theorem sum_branches (h : Represents b w G) {node : NodeId} {q : QubitPtr}
    (hlocal : G.Local node q) (basis : Basis) {f : Bool → ℂ} {L : Bool → Tensor →ₗ[ℂ] ℂ}
    (hf : ∀ o w', w.measure node q basis o = (.ok o.toNat, w') →
      Represents b w' (G.collapse b q basis o) →
      f o = L o (G.collapse b q basis o).tensor) :
    ∑ o, w.outcomeProb q basis o * f o = ∑ o, L o (branch b basis o q G.tensor) := by
  have hlocal' := h.local_iff.mpr hlocal
  refine sum_congr rfl fun o _ => ?_
  by_cases ho : w.outcomeProb q basis o = 0
  · have hzero : branch b basis o q G.tensor = 0 := by
      funext z
      have hc := congrFun (h.inv.contract_impossible h.all hlocal'.1 ho) z
      rw [h.tensor] at hc
      exact (congrArg _ hc).trans (mul_zero _)
    rw [ho, zero_mul, hzero, map_zero]
  · obtain ⟨w', hok, h'⟩ := h.measure node q basis o
    have hprob := h.prob hlocal'.1 basis
    have hdrawn : drawn (G.prob q basis) o = o := if_neg (hprob ▸ ho)
    rw [GlobalState.measure, if_neg (not_not.mpr hlocal), hdrawn] at hok h'
    have hcollapse : (G.collapse b q basis o).tensor =
        (1 / G.prob q basis o) • branch b basis o q G.tensor :=
      funext fun z => mul_left_comm _ _ _
    rw [hf o w' hok h', hcollapse, map_smul, smul_eq_mul, ← hprob, ← mul_assoc,
      mul_one_div_cancel ho, one_mul]

/-- The part of the joint state with two outcomes of a Bell measurement. -/
noncomputable def bellBranch (b : QStateBackend) (m1 m2 : Bool) (p q : QubitPtr) :
    Tensor →ₗ[ℂ] Tensor where
  toFun F z := measuredTensor b .Z m2 q z * (measuredTensor b .Z m1 p z *
    contractPair (outerPair (bell m1 m2)) p q F z)
  map_add' F H := by
    funext z
    simp only [contractPair, Pi.add_apply, mul_add, sum_add_distrib]
  map_smul' a F := by
    funext z
    simp only [contractPair, Pi.smul_apply, smul_eq_mul, mul_sum, RingHom.id_apply]
    exact sum_congr rfl fun x _ => sum_congr rfl fun y _ => by ring

theorem branch_branch {p q : QubitPtr} (hpq : p ≠ q) (m1 m2 : Bool) {U V : CMat}
    (hU : matrixOf .CNOT = .ok U) (hV : matrixOf .H = .ok V) (F : Tensor) :
    branch b .Z m2 q (branch b .Z m1 p (actOn (conjBy (V.kernel 1)) ![p]
      (actOn (conjBy (U.kernel 2)) ![p, q] F))) = bellBranch b m1 m2 p q F := by
  funext z
  have hignores := measuredTensor_ignores b .Z m1 hpq.symm
  refine congrArg (measuredTensor b .Z m2 q z * ·) ?_
  rw [← contract_bell hpq m1 m2 hU hV F, mul_comm,
    ← contract_mul z fun d => hignores z d]
  exact congrFun (congrArg (contract _ q) (funext fun x => mul_comm _ _)) z

theorem apply_tensor {node : NodeId} {kind : QGateKind} {U : CMat}
    (hU : (QGate.builtin kind).matrix = .ok U) {qs : List QubitPtr} (hne : qs ≠ [])
    (hlocal : ∀ x ∈ qs, G.Local node x) : (G.apply node (.builtin kind) qs).2 =
      ⟨G.handles, G.place, actOn (conjBy (U.kernel qs.length)) qs.get G.tensor⟩ := by
  have hthere : ¬ ∃ x ∈ qs, ¬ G.Local node x := by
    rintro ⟨x, hx, hno⟩
    exact hno (hlocal x hx)
  rw [GlobalState.apply, hU, if_neg (not_or.mpr ⟨hne, hthere⟩)]

/-- The outcomes of a Bell measurement, each with its probability. -/
theorem sum_bellBranches (h : Represents b w G) {node : NodeId} {p q : QubitPtr}
    (hpq : p ≠ q) (hp : G.Local node p) (hq : G.Local node q) {f : Bool → Bool → ℂ}
    {L : Bool → Bool → Tensor →ₗ[ℂ] ℂ}
    (hf : ∀ m1 m2 w' F, w.measureBell node p q m1 m2 = (.ok (m1.toNat, m2.toNat), w') →
      Represents b w' ⟨G.handles, G.place, F⟩ → f m1 m2 = L m1 m2 F) :
    ∑ m1, ∑ m2, w.bellProb node p q m1 m2 * f m1 m2 =
      ∑ m1, ∑ m2, L m1 m2 (bellBranch b m1 m2 p q G.tensor) := by
  have hboth : ∀ x ∈ [p, q], G.Local node x := fun x hx => by
    rcases List.mem_pair.mp hx with rfl | rfl
    · exact hp
    · exact hq
  obtain ⟨U, hU⟩ : ∃ U, matrixOf .CNOT = .ok U := ⟨_, rfl⟩
  obtain ⟨V, hV⟩ : ∃ V, matrixOf .H = .ok V := ⟨_, rfl⟩
  obtain ⟨w₁, hok₁, h₁, -⟩ := h.apply_builtin
    (show QGateKind.CNOT ≠ .Custom by decide)
    (show [p, q].length = QGateKind.CNOT.arity from rfl)
    (List.nodup_cons.mpr ⟨fun hmem => hpq (List.mem_singleton.mp hmem),
      List.nodup_singleton q⟩) (List.cons_ne_nil _ _) hboth
  rw [apply_tensor (show (QGate.builtin .CNOT).matrix = .ok U from hU)
    (List.cons_ne_nil _ _) hboth, get_two] at h₁
  change Represents b w₁ ⟨_, _, actOn (conjBy (U.kernel 2)) ![p, q] G.tensor⟩ at h₁
  have hone : ∀ x ∈ [p], G.Local node x := fun x hx => List.mem_singleton.mp hx ▸ hp
  obtain ⟨w₂, hok₂, h₂, -⟩ := h₁.apply_builtin
    (show QGateKind.H ≠ .Custom by decide)
    (show [p].length = QGateKind.H.arity from rfl) (List.nodup_singleton p)
    (List.cons_ne_nil _ _) hone
  rw [apply_tensor (G := ⟨G.handles, G.place, actOn (conjBy (U.kernel 2)) ![p, q] G.tensor⟩)
    (show (QGate.builtin .H).matrix = .ok V from hV) (List.cons_ne_nil _ _) hone,
    get_one] at h₂
  have hrotated : w.rotated node p q = w₂ := by rw [rotated, hok₁, hok₂]
  simp only [bellProb, hrotated, mul_assoc, ← mul_sum]
  rw [sum_branches h₂ hp .Z (L := fun m1 => ∑ m2, L m1 m2 ∘ₗ branch b .Z m2 q)]
  · refine sum_congr rfl fun m1 _ => ?_
    rw [LinearMap.sum_apply]
    exact sum_congr rfl fun m2 _ => congrArg (L m1 m2) (branch_branch hpq m1 m2 hU hV _)
  · intro m1 w₃ hok₃ h₃
    rw [hok₃, LinearMap.sum_apply]
    exact sum_branches h₃ hq .Z fun m2 w₄ hok₄ h₄ => hf m1 m2 w₄ _ (measureBell_eq
      (fun x hx => h.local_iff.mpr (hboth x hx)) hok₁ hok₂ hok₃ hok₄) h₄

/-- An operation, averaged over its replies. -/
theorem Linear.outcomeAverage {op : Op} (hop : op.Plain b)
    {k : Reply → QStateRegistry → ℂ} (hk : ∀ r, Linear b (k r)) :
    Linear b fun w => w.outcomeAverage op k := by
  intro e
  -- what comes after a call that measures nothing
  have hquiet : (∀ node q basis draw, op = .measure node q basis draw →
        ¬ (GlobalState.mk e.1 e.2 0).Local node q) →
      (∀ node p q dA dB, op = .measureBell node p q dA dB →
        ¬ ((GlobalState.mk e.1 e.2 0).Local node p ∧
          (GlobalState.mk e.1 e.2 0).Local node q)) →
      ∃ L : Tensor →ₗ[ℂ] ℂ, ∀ ⦃w : QStateRegistry⦄ ⦃F : Tensor⦄,
        Represents b w ⟨e.1, e.2, F⟩ → proceed k (w.call op) = L F := by
    intro hm hbell
    obtain ⟨r, e', T, hT⟩ := call_linear hop e hm hbell
    obtain ⟨L, hL⟩ := hk r e'
    refine ⟨L ∘ₗ T, fun w F h => ?_⟩
    obtain ⟨w', hok, h'⟩ := h.call hop
    rw [hT F] at hok h'
    rw [hok]
    exact hL h'
  cases op with
  | measure node q basis draw =>
      by_cases hlocal : (GlobalState.mk e.1 e.2 0).Local node q
      · choose L hL using fun o : Bool => hk (.outcome o.toNat) e
        refine ⟨∑ o, L o ∘ₗ branch b basis o q, fun w F h => ?_⟩
        have hyes : q < w.numHandles ∧ w.IsLocal node q := h.local_iff.mpr hlocal
        rw [LinearMap.sum_apply]
        refine (if_pos hyes).trans (sum_branches h hlocal basis fun o w' hok h' => ?_)
        rw [QStateRegistry.call, hok]
        exact hL o h'
      · obtain ⟨L, hL⟩ := hquiet (fun _ _ _ _ he => by cases he; exact hlocal)
          fun _ _ _ _ _ he => Op.noConfusion he
        refine ⟨L, fun w F h => ?_⟩
        have hno : ¬ (q < w.numHandles ∧ w.IsLocal node q) := fun hyes =>
          hlocal (h.local_iff.mp hyes)
        exact (if_neg hno).trans (hL h)
  | measureBell node p q drawA drawB =>
      by_cases hlocal : (GlobalState.mk e.1 e.2 0).Local node p ∧
          (GlobalState.mk e.1 e.2 0).Local node q
      · choose L hL using fun m : Bool × Bool => hk (.outcomes (m.1.toNat, m.2.toNat)) e
        refine ⟨∑ m1, ∑ m2, L (m1, m2) ∘ₗ bellBranch b m1 m2 p q, fun w F h => ?_⟩
        have hyes := And.intro (h.local_iff.mpr hlocal.1) (h.local_iff.mpr hlocal.2)
        simp only [LinearMap.sum_apply]
        refine (if_pos hyes).trans (sum_bellBranches h hop hlocal.1 hlocal.2
          fun m1 m2 w' F hok h' => ?_)
        rw [QStateRegistry.call, hok]
        exact hL (m1, m2) h'
      · obtain ⟨L, hL⟩ := hquiet (fun _ _ _ _ he => Op.noConfusion he)
          fun _ _ _ _ _ he => by cases he; exact hlocal
        refine ⟨L, fun w F h => ?_⟩
        have hno : ¬ ((p < w.numHandles ∧ w.IsLocal node p) ∧
            q < w.numHandles ∧ w.IsLocal node q) := fun hyes =>
          hlocal ⟨h.local_iff.mp hyes.1, h.local_iff.mp hyes.2⟩
        exact (if_neg hno).trans (hL h)
  | _ =>
      exact hquiet (fun _ _ _ _ he => Op.noConfusion he) fun _ _ _ _ _ he => Op.noConfusion he

/-- A program, averaged over its runs. -/
theorem Linear.expect {prog : Program} (hf : Linear b f) (hprog : prog.All (Op.Plain b)) :
    Linear b (expect f prog) := by
  induction prog with
  | stop => exact hf
  | call op next ih => exact Linear.outcomeAverage hprog.1 fun r => ih r (hprog.2 r)

/-! ## Pauli gates -/

/-- The Pauli gate that flips the bits `k` of a Bell pair. -/
def pauliFlip : Bool × Bool → QGateKind
  | (false, false) => .I
  | (false, true) => .X
  | (true, false) => .Z
  | (true, true) => .Y

theorem pauliFlip_mem (k : Bool × Bool) : pauliFlip k ∈ [QGateKind.I, .X, .Y, .Z] := by
  revert k
  decide

theorem pauliShift_pauliFlip (k : Bool × Bool) : pauliShift (.builtin (pauliFlip k)) = k := by
  revert k
  decide

theorem pauliFlip_pauliShift {kind : QGateKind} (hkind : kind ∈ [QGateKind.I, .X, .Y, .Z]) :
    pauliFlip (pauliShift (.builtin kind)) = kind := by
  revert kind
  decide

theorem sgn_mul_and (a c x : Bool) : sgn (a && x) * sgn (c && x) = sgn ((a ^^ c) && x) := by
  cases a <;> cases c <;> cases x <;> simp [sgn]

/-- The bits of `k` say whether a leg changes signs, and whether it is flipped. -/
noncomputable def flipped (k : Bool × Bool) (q : QubitPtr) (F : Tensor) : Tensor := fun z =>
  sgn (k.1 && ((z q).1 ^^ (z q).2)) *
    F (Function.update z q ((z q).1 ^^ k.2, (z q).2 ^^ k.2))

theorem gateChannel_pauliFlip (k : Bool × Bool) (q : QubitPtr) (F : Tensor) :
    gateChannel q (.builtin (pauliFlip k)) F = flipped k q F := by
  funext z
  have hself : Function.update z q (z q) = z := Function.update_eq_self q z
  obtain ⟨V, hV, hz⟩ : ∃ V, (QGate.builtin (pauliFlip k)).matrix = .ok V ∧
      ∑ c : Bool × Bool, conjBy (V.kernel 1) (fun _ => z q) (fun _ => c) *
        F (Function.update z q c) = flipped k q F z := by
    rcases hz : z q with ⟨x, y⟩
    rw [hz] at hself
    rcases k with ⟨k1, k2⟩
    cases k1 <;> cases k2 <;> refine ⟨_, rfl, ?_⟩ <;> rw [Fintype.sum_prod_type] <;>
      cases x <;> cases y <;>
      simp [conjBy, kernel_one, rowOf, colOf, matrixI, matrixX, matrixY, matrixZ, makeMatrix,
        flipped, sgn, hz, hself]
  rw [gateChannel, hV]
  exact (actOn_one _ q F z).trans hz

/-- Two of them. -/
theorem flipped_flipped (k l : Bool × Bool) (q : QubitPtr) (F : Tensor) :
    flipped k q (flipped l q F) = flipped (k.1 ^^ l.1, k.2 ^^ l.2) q F := by
  funext z
  have hbits : ∀ x y a c : Bool, ((x ^^ a) ^^ (y ^^ a)) = (x ^^ y) ∧
      ((x ^^ a) ^^ c) = (x ^^ (a ^^ c)) := by decide
  simp only [flipped, Function.update_self, Function.update_idem]
  rw [(hbits (z q).1 (z q).2 k.2 l.2).1, (hbits (z q).1 (z q).2 k.2 l.2).2,
    (hbits (z q).2 (z q).1 k.2 l.2).2, ← mul_assoc, sgn_mul_and]

theorem flipped_none (q : QubitPtr) (F : Tensor) : flipped (false, false) q F = F := by
  funext z
  simp [flipped, sgn]

/-- Pauli gates permute what Pauli gates have made. -/
theorem flips_flipped (q : QubitPtr) (F : Tensor) : Flips q fun k => flipped k q F := by
  intro kind hkind k
  dsimp only
  rw [← pauliFlip_pauliShift hkind, gateChannel_pauliFlip, flipped_flipped,
    pauliShift_pauliFlip, Bool.xor_comm, Bool.xor_comm k.2]

/-- A map of Pauli noise on any qubit. -/
theorem channel_flipped (ctx : QMapContext) (q : QubitPtr) {m : QMap U} (hm : m.Pauli b)
    (F : Tensor) :
    m.channel ctx q F = ∑ k, (m.spread ctx ideal k : ℂ) • flipped k q F := by
  have hideal : F = mixtureOf (fun k => flipped k q F) ideal := by
    rw [ideal, mixtureOf_single, flipped_none]
  conv_lhs => rw [hideal]
  exact channel_mixtureOf ctx (flips_flipped q F) m hm ideal

/-! ## Errors chosen once and for all -/

/-- A built-in gate on one handle. -/
theorem represents_gate (h : Represents b w G) {node : NodeId} {q : QubitPtr}
    (hq : G.Local node q) {kind : QGateKind} (hk : kind ≠ .Custom) (hone : kind.arity = 1) :
    Represents b (w.apply node (.builtin kind) [q]).2
      ⟨G.handles, G.place, gateChannel q (.builtin kind) G.tensor⟩ := by
  obtain ⟨V, hV⟩ := QState.accepts_builtin b hk
  rw [hone] at hV
  obtain ⟨w', hok, h'⟩ := h.apply node (List.nodup_singleton q) hV
  rw [apply_tensor hV.matrix (List.cons_ne_nil _ _)
    (fun x hx => List.mem_singleton.mp hx ▸ hq), get_one] at h'
  rw [hok, gateChannel, hV.matrix]
  exact h'

theorem represents_flipped (h : Represents b w G) {node : NodeId} {q : QubitPtr}
    (hq : G.Local node q) (k : Bool × Bool) :
    Represents b (w.apply node (.builtin (pauliFlip k)) [q]).2
      ⟨G.handles, G.place, flipped k q G.tensor⟩ := by
  have hbuiltin : ∀ k, pauliFlip k ≠ .Custom ∧ (pauliFlip k).arity = 1 := by decide
  rw [← gateChannel_pauliFlip]
  exact represents_gate h hq (hbuiltin k).1 (hbuiltin k).2

section Errors

variable {node : NodeId} {q : QubitPtr} {m : QMap U} {s : State U} {j : ℕ}

/-- What is read linearly after the noise is the mixture of what is read of the errors. -/
theorem average_errors (h : Represents b s.world.registry G) (hq : G.Local node q)
    (hm : m.Pauli b) (ctx : QMapContext) (u : Rng) (hj : m.draws ≤ j) (hf : Linear b f) :
    average j (fun xs => carried ctx node q s (whenArrived q f) m (u.feed xs)) =
      ∑ k, (m.spread ctx ideal k : ℂ) *
        f (s.world.registry.apply node (.builtin (pauliFlip k)) [q]).2 := by
  obtain ⟨L, hL⟩ := hf (G.handles, G.place)
  have hreads : Reads b node q (G.handles, G.place) 0 (whenArrived q f : Reading U) L :=
    reads_whenArrived fun {w'} G' hG' he => by
      obtain ⟨hhandles, hplace⟩ := Prod.mk.inj he
      rw [← hhandles, ← hplace] at hL
      exact hL hG'
  rw [average_carried ctx m (Pauli.noise hm) hreads h rfl hq u j hj, channel_flipped ctx q hm,
    map_sum]
  exact sum_congr rfl fun k _ => by
    rw [hL (represents_flipped h hq k), map_smul, smul_eq_mul]

variable {ops : List Op} {rs : List Reply} {prog : Program}

/-- A qubit is sent through Pauli noise and loss, and then any program runs, which decides by
its replies.  On average over the stream and the replies this is the program after one of the
four Pauli gates on the qubit, in the weights of the map. -/
theorem program_after_noise (hops : ∀ op ∈ ops, op.Plain b)
    (hw : callAll ops (empty.setDefaultBackend b) = (.ok rs, w))
    (hq : q < w.numHandles ∧ w.IsLocal node q) (hm : m.Pauli b) (ctx : QMapContext)
    (hs : s.world.registry = w) (u : Rng) (hj : m.draws ≤ j) (hprog : prog.All (Op.Plain b))
    (hf : Linear b f) :
    average j (fun xs => carried ctx node q s (whenArrived q (expect f prog)) m
        (u.feed xs)) =
      ∑ k, (m.spread ctx ideal k : ℂ) *
        expect f prog (w.apply node (.builtin (pauliFlip k)) [q]).2 := by
  obtain ⟨w', hok, h⟩ := (represents_empty b).callAll hops
  obtain rfl := (Prod.mk.inj (hw.symm.trans hok)).2
  subst hs
  exact average_errors h (h.local_iff.mp hq) hm ctx u hj (hf.expect hprog)

theorem program_after_noise_pair : ∃ rs w,
    callAll sharedPair (empty.setDefaultBackend .DM) = (.ok rs, w) ∧ ∀ u z,
      average fibre.draws (fun xs => carried ⟨2⟩ 1 1 (receiver w)
          (whenArrived 1 (expect (fun w' => globalOf QState.kernel w' z) measuringProgram))
          fibre (Rng.feed u xs)) =
        ∑ k, (fibre.spread ⟨2⟩ ideal k : ℂ) *
          expect (fun w' => globalOf QState.kernel w' z) measuringProgram
            (w.apply 1 (.builtin (pauliFlip k)) [1]).2 := by
  obtain ⟨rs, w, hok, hlocal⟩ := sharedPair_local .DM
  refine ⟨rs, w, hok, fun u z => program_after_noise (sharedPair_plain .DM) hok hlocal ?_ ⟨2⟩
    rfl u le_rfl ((measuringProgram_all .DM).mono fun _ h => h.1) (linear_globalOf .DM z)⟩
  exact ⟨trivial, trivial, QStateBackend.noConfusion, trivial⟩

end Errors

end Q2NS.Maps
