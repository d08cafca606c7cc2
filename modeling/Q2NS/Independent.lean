import Q2NS.BellMeasurement
import Q2NS.Lib.DisjointLegs

/-!
# Independent operations commute

Two operations of nodes on disjoint handles, each a gate or a measurement whose
outcome is chosen, can be executed in either order: the joint outcome has the same
probability, the global state is the same up to a phase, and every qubit is where it
was.  The two orders run through different states, merges and indices, so they are
compared through what they do to the global state.
-/

namespace Q2NS.QStateRegistry

open NamedTensor QuadForm Loop Finset

variable {w w' : QStateRegistry} {b : QStateBackend}

/-! ## The probability of an outcome -/

/-- The global state is the factor of one state times the rest. -/
theorem globalBut_eq_prod (w : QStateRegistry) (s : StateId) :
    globalBut QState.kernel w s = fun z =>
      ((w.registered.erase s).toList.map fun s' => factorOf QState.kernel w s' z).prod :=
  funext fun _ => (prod_map_toList _ _).symm

/-- The trace of the projected state is the probability of the outcome. -/
theorem Inv.traceAll_contract (h : w.Inv) (hall : AllStates QState.WellFormed w)
    {q : QubitPtr} (hq : q < w.numHandles) (basis : Basis) (o : Bool) :
    traceAll ((List.range w.numHandles).erase q)
      (contract (outer (eigenvector basis o)) q (globalOf QState.kernel w)) =
        fun _ => w.outcomeProb q basis o := by
  set s := (w.qubits q).stateId with hs
  set rest := (w.registered.erase s).toList with hrest
  have hreg := h.states_of_handle hq
  have hmem : ∀ s', s' ∈ rest ↔ s' ≠ s ∧ w.states s' ≠ none := fun s' => by
    rw [hrest, mem_toList, mem_erase, h.mem_registered]
  have hd : rest.Nodup := nodup_toList _
  have hperm := h.range_perm (List.nodup_cons.mpr ⟨fun hm => ((hmem s).mp hm).1 rfl, hd⟩)
    fun s' => by
      rw [List.mem_cons, hmem]
      by_cases hss : s' = s
      · exact iff_of_true (.inl hss) (hss ▸ hreg)
      · exact ⟨fun hm => (hm.resolve_left hss).2, fun hm => .inr ⟨hss, hm⟩⟩
  rw [qubitsOfAll, List.flatMap_cons, ← qubitsOfAll] at hperm
  have hqmem : q ∈ w.order s := mem_sortByIndex.mpr (h.mem_qubitsOf_iff.mpr ⟨hq, rfl⟩)
  have hperm' := hperm.erase q
  rw [List.erase_append_left _ hqmem, h.erase_order] at hperm'
  -- the states other than `s` do not read the survivors
  have hother : ∀ x ∈ w.survivorsOf s q, Ignores x (globalBut QState.kernel w s) := by
    intro x hx z c
    refine prod_congr rfl fun s' hs' => ?_
    obtain ⟨hne, hreg'⟩ := mem_erase.mp hs'
    refine h.factorOf_ignores s' (h.mem_registered.mp hreg') ?_ z c
    rw [(h.mem_qubitsOf_iff.mp (mem_sortByIndex.mp (List.mem_filter.mp hx).1)).2]
    exact hne.symm
  have hcontract : contract (outer (eigenvector basis o)) q (globalOf QState.kernel w) =
      fun z => compress (eigenvector basis o) (w.qubits q).indexInState
        (w.valueOf s).kernel (named (w.survivorsOf s q) z) *
          globalBut QState.kernel w s z :=
    funext fun z => h.contract_globalOf QState.kernel hq _ z
  have hprob : traceAll (w.survivorsOf s q) (fun z =>
      compress (eigenvector basis o) (w.qubits q).indexInState (w.valueOf s).kernel
        (named (w.survivorsOf s q) z)) = fun _ => w.outcomeProb q basis o := by
    funext z
    rw [traceAll_named (h.nodup_survivorsOf s q), h.length_survivorsOf hq]
    rfl
  rw [traceAll_perm hperm', hcontract, traceAll_append, traceAll_mul hother, hprob,
    traceAll_smul, globalBut_eq_prod,
    h.traceAll_prod hall hd fun s' hs' => ((hmem s').mp hs').2]
  simp only [mul_one]

/-- The state that a backend of amplitudes builds is normalised. -/
theorem traceOut_measuredTensor (basis : Basis) (o : Bool) (q : QubitPtr) :
    traceOut q (measuredTensor .Ket basis o q) = fun _ => 1 := by
  funext z
  have hread : ∀ c : Bool × Bool, measuredTensor .Ket basis o q (Function.update z q c) =
      measuredVector basis o c.1 * starRingEnd ℂ (measuredVector basis o c.2) := by
    intro c
    simp only [measuredTensor, density, rowOf_update, colOf_update, Function.update_self]
    rfl
  have hhalf := invSqrt2_mul_self
  have hI : invSqrt2 * Complex.I * (invSqrt2 * Complex.I) = -(1 / 2) := by
    rw [mul_mul_mul_comm, hhalf, Complex.I_mul_I, mul_neg_one]
  simp only [traceOut, hread, Fintype.sum_bool]
  cases basis <;> cases o <;>
    simp [measuredVector, sgn, conj_invSqrt2, hhalf, hI] <;> norm_num

/-! ## State vectors -/

/-- On state vectors the global density is the density of the global vector. -/
theorem Inv.globalOf_ket (h : w.Inv) (hall : w.AllSound .Ket) :
    globalOf QState.kernel w = density (globalOf ketAmplitudes w) := by
  funext z
  rw [density, globalOf, globalOf, globalOf, map_prod, ← prod_mul_distrib]
  refine prod_congr rfl fun s hs => ?_
  have hreg := h.mem_registered.mp hs
  have hb := (hall.valueOf hreg).2
  rw [h.factorOf_eq QState.kernel hreg, h.factorOf_eq ketAmplitudes hreg]
  cases hvalue : w.valueOf s with
  | ket psi =>
      have hkernel : (QState.ket psi).kernel (named (w.order s) z) =
          psi.eval (rowOf (named (w.order s) z)) *
            starRingEnd ℂ (psi.eval (colOf (named (w.order s) z))) := rfl
      refine hkernel.trans ?_
      rw [rowOf_named, colOf_named]
      rfl
  | dm rho =>
      rw [hvalue] at hb
      cases hb
  | stab st =>
      rw [hvalue] at hb
      cases hb

/-! ## Operations of a node -/

/-- An operation of a node: `Apply`, or `Measure` with the outcome that is chosen. -/
inductive LocalOp where
  | apply (node : NodeId) (gate : QGate) (qs : List QubitPtr)
  | measure (node : NodeId) (q : QubitPtr) (basis : Basis) (outcome : Bool)

namespace LocalOp

/-- The node that executes the operation. -/
def node : LocalOp → NodeId
  | apply node _ _ => node
  | measure node _ _ _ => node

/-- The handles that are passed. -/
def handles : LocalOp → List QubitPtr
  | apply _ _ qs => qs
  | measure _ q _ _ => [q]

/-- The handles are distinct and the gate, built-in or custom, is a unitary on as many
qubits. -/
def Valid : LocalOp → Prop
  | apply _ gate qs => qs.Nodup ∧ gate.Unitary qs.length
  | measure _ _ _ _ => True

/-- The call, with the returned Boolean of `Apply` as a number. -/
noncomputable def call (w : QStateRegistry) :
    LocalOp → Except Exit ℤ × QStateRegistry
  | apply node gate qs =>
      ((w.apply node gate qs).1.map fun ok => (ok.toNat : ℤ), (w.apply node gate qs).2)
  | measure node q basis outcome => w.measure node q basis outcome

/-- The call is not rejected: there are handles and all are qubits of the node. -/
def Performed (w : QStateRegistry) (op : LocalOp) : Prop :=
  op.handles ≠ [] ∧ ∀ q ∈ op.handles, q < w.numHandles ∧ w.IsLocal op.node q

instance (w : QStateRegistry) (op : LocalOp) : Decidable (op.Performed w) :=
  inferInstanceAs (Decidable (_ ∧ _))

/-- What the call returns when it is performed with the chosen outcome. -/
def success : LocalOp → ℤ
  | apply _ _ _ => 1
  | measure _ _ _ outcome => outcome.toNat

/-- What the call returns when it is rejected. -/
def refusal : LocalOp → ℤ
  | apply _ _ _ => 0
  | measure _ _ _ _ => -1

/-- What the call returns with the chosen outcome. -/
def reply (w : QStateRegistry) (op : LocalOp) : ℤ :=
  if op.Performed w then op.success else op.refusal

/-- The probability of the chosen outcome; a gate and a rejected call have one. -/
noncomputable def chance (w : QStateRegistry) : LocalOp → ℂ
  | apply _ _ _ => 1
  | measure node q basis outcome =>
      if (measure node q basis outcome).Performed w then w.outcomeProb q basis outcome
      else 1

/-- What a performed operation does to a global vector, without normalisation: the
matrix of the gate acts on the legs, or the measured leg is contracted with the chosen
eigenvector and gets the vector that the backend builds. -/
noncomputable def act (op : LocalOp) (Φ : (QubitPtr → Bool) → ℂ) :
    (QubitPtr → Bool) → ℂ :=
  match op with
  | apply _ gate qs =>
      match gate.matrix with
      | .ok U => actOn (U.kernel qs.length) qs.get Φ
      | .error _ => Φ
  | measure _ q basis outcome => fun x => measuredVector basis outcome (x q) *
      contract (fun c => starRingEnd ℂ (eigenvector basis outcome c)) q Φ x

/-- What the call does to a global vector, without normalisation. -/
noncomputable def effect (w : QStateRegistry) (op : LocalOp)
    (Φ : (QubitPtr → Bool) → ℂ) : (QubitPtr → Bool) → ℂ :=
  if op.Performed w then op.act Φ else Φ

theorem Valid.nodup {op : LocalOp} (h : op.Valid) : op.handles.Nodup := by
  cases op with
  | apply node gate qs => exact h.1
  | measure node q basis outcome => exact List.nodup_singleton q

/-- Where the qubits are decides whether a call is rejected. -/
theorem performed_iff (h : w.Stays w' b) (op : LocalOp) :
    op.Performed w' ↔ op.Performed w := by
  simp only [Performed, IsLocal, h.handles, h.locations]

theorem reply_eq (h : w.Stays w' b) (op : LocalOp) : op.reply w' = op.reply w := by
  rw [reply, reply, if_congr (performed_iff h op) rfl rfl]

theorem effect_eq (h : w.Stays w' b) (op : LocalOp) : op.effect w' = op.effect w := by
  funext Φ
  rw [effect, effect, if_congr (performed_iff h op) rfl rfl]

/-- A rejected call changes nothing. -/
theorem call_of_not (h : w.Inv) {op : LocalOp} (hop : ¬ op.Performed w) :
    op.call w = (.ok op.refusal, w) := by
  cases op with
  | apply node gate qs =>
      rcases h.apply_cases node gate qs with ⟨-, hf⟩ | ⟨hyes, -⟩
      · rw [call, hf]
        rfl
      · exact absurd hyes hop
  | measure node q basis outcome =>
      rcases h.measure_cases node q basis outcome with ⟨-, hf⟩ | ⟨hyes, -⟩
      · exact hf
      · refine absurd ⟨List.cons_ne_nil _ _, fun x hx => ?_⟩ hop
        rw [List.mem_singleton.mp hx]
        exact hyes

theorem chance_of_not {op : LocalOp} (hop : ¬ op.Performed w) : op.chance w = 1 := by
  cases op with
  | apply node gate qs => rfl
  | measure node q basis outcome => exact if_neg hop

/-! ## One operation -/

/-- Both kinds of operations act on the legs of their handles. -/
theorem act_eq_actOn {op : LocalOp} (hv : op.Valid) :
    ∃ K, ∀ Φ, op.act Φ = actOn K op.handles.get Φ := by
  cases op with
  | apply node gate qs =>
      obtain ⟨-, U, hU, -⟩ := hv
      exact ⟨U.kernel qs.length, fun Φ => by simp only [act, hU, handles]⟩
  | measure node q basis o =>
      refine ⟨fun (v u : Fin 1 → Bool) =>
        measuredVector basis o (v 0) * starRingEnd ℂ (eigenvector basis o (u 0)),
        fun Φ => funext fun x => ?_⟩
      refine Eq.trans ?_ (congrFun (congrArg (actOn _ · Φ) (get_one q).symm) x)
      rw [actOn_one]
      exact (mul_sum _ _ _).trans (sum_congr rfl fun c _ => (mul_assoc _ _ _).symm)

/-- The density of a measured vector. -/
theorem density_act_measure (node : NodeId) (q : QubitPtr) (basis : Basis) (o : Bool)
    (Φ : (QubitPtr → Bool) → ℂ) :
    density ((measure node q basis o).act Φ) = fun z =>
      measuredTensor .Ket basis o q z *
        contract (outer (eigenvector basis o)) q (density Φ) z := by
  rw [contract_density]
  exact funext fun z => density_mul _ _ z

/-- The squared norm of the effect is the probability of the outcome. -/
theorem traceAll_effect (h : w.Inv) (hall : w.AllSound .Ket) {op : LocalOp}
    (hv : op.Valid) :
    traceAll (List.range w.numHandles)
      (density (op.effect w (globalOf ketAmplitudes w))) = fun _ => op.chance w := by
  have hwf : AllStates QState.WellFormed w := fun s p hp => (hall s p hp).1
  by_cases hop : op.Performed w
  · rw [effect, if_pos hop]
    cases op with
    | apply node gate qs =>
        obtain ⟨hd, U, hU, hunit⟩ := hv
        have hsub : qs ⊆ List.range w.numHandles := fun q hq =>
          List.mem_range.mpr (hop.2 q hq).1
        have hperm := (List.subperm_append_diff_self_of_count_le
          (List.subperm_ext_iff.mp (hd.subperm hsub))).symm
        have hact := traceAll_actOn hd hunit.isometric (globalOf QState.kernel w)
        simp only [act, hU]
        rw [← actOn_density, ← h.globalOf_ket hall, traceAll_perm hperm,
          traceAll_append, hact, ← traceAll_append, ← traceAll_perm hperm]
        exact h.traceAll_globalOf hwf
    | measure node q basis o =>
        have hq := (hop.2 q (List.mem_singleton_self q)).1
        have hperm := List.perm_cons_erase (List.mem_range.mpr hq)
        rw [density_act_measure, ← h.globalOf_ket hall, traceAll_perm hperm,
          traceAll, traceOut_mul (contract_ignores _ _ _), traceOut_measuredTensor, chance,
          if_pos hop]
        simp only [one_mul]
        exact h.traceAll_contract hwf hq basis o
  · rw [effect, if_neg hop, chance_of_not hop, ← h.globalOf_ket hall]
    exact h.traceAll_globalOf hwf

/-- A call whose chosen outcome is possible returns it and leaves the effect, up to a
factor. -/
theorem call_effect (h : w.Inv) (hall : w.AllSound .Ket) {op : LocalOp} (hv : op.Valid)
    (hc : op.chance w ≠ 0) :
    ∃ w', op.call w = (.ok (op.reply w), w') ∧ w.Stays w' .Ket ∧
      density (globalOf ketAmplitudes w') = fun z =>
        1 / op.chance w * density (op.effect w (globalOf ketAmplitudes w)) z := by
  by_cases hop : op.Performed w
  · rw [reply, if_pos hop, effect, if_pos hop]
    cases op with
    | apply node gate qs =>
        obtain ⟨hd, U, hU, hunit⟩ := hv
        obtain ⟨w', hok, hstays, hglobal⟩ := h.apply_accepted hall
          ⟨hU, hunit, fun hb => absurd hb (by decide)⟩ hop.1 hd hop.2
        have hcall : w.apply node gate qs = (.ok true, w') := hok
        refine ⟨w', ?_, hstays, ?_⟩
        · rw [call, hcall]
          rfl
        · rw [hstays.inv.globalOf_ket hstays.all] at hglobal
          simp only [hglobal, act, hU, h.globalOf_ket hall, actOn_density, chance, div_one,
            one_mul]
    | measure node q basis o =>
        have hlocal := hop.2 q (List.mem_singleton_self q)
        rw [chance, if_pos hop] at hc ⊢
        obtain ⟨w', hok, hstays, -, hglobal⟩ := h.measure_global hall hlocal hc
        refine ⟨w', hok, hstays, ?_⟩
        rw [← hstays.inv.globalOf_ket hstays.all, hglobal, density_act_measure,
          ← h.globalOf_ket hall]
        exact funext fun z => mul_left_comm _ _ _
  · refine ⟨w, ?_, ⟨h, hall, rfl, fun _ => rfl⟩, ?_⟩
    · rw [reply, if_neg hop, call_of_not h hop]
    · rw [effect, if_neg hop, chance_of_not hop]
      simp only [div_one, one_mul]

/-! ## Two operations -/

/-- Effects on disjoint handles commute. -/
theorem effect_comm {a c : LocalOp} (ha : a.Valid) (hc : c.Valid)
    (hdisj : ∀ q ∈ a.handles, q ∉ c.handles) (Φ : (QubitPtr → Bool) → ℂ) :
    c.effect w (a.effect w Φ) = a.effect w (c.effect w Φ) := by
  obtain ⟨K, hK⟩ := act_eq_actOn ha
  obtain ⟨L, hL⟩ := act_eq_actOn hc
  have happart : Apart c.handles.get a.handles.get := fun i j he =>
    hdisj _ (List.get_mem _ j) (he ▸ List.get_mem _ i)
  have hcomm := actOn_comm (List.nodup_iff_injective_get.mp hc.nodup)
    (List.nodup_iff_injective_get.mp ha.nodup) happart L K Φ
  by_cases hpa : a.Performed w <;> by_cases hpc : c.Performed w <;>
    simp only [effect, hpa, hpc, if_true, if_false, hK, hL, hcomm]

/-- The effect on a multiple. -/
theorem density_effect {op : LocalOp} (hv : op.Valid) {Φ Ψ : (QubitPtr → Bool) → ℂ} {k : ℂ}
    (h : density Φ = fun z => k * density Ψ z) :
    density (op.effect w Φ) = fun z => k * density (op.effect w Ψ) z := by
  obtain ⟨K, hK⟩ := act_eq_actOn hv
  by_cases hop : op.Performed w
  · simp only [effect, if_pos hop, hK]
    rw [← actOn_density, ← actOn_density, h, actOn_smul]
  · simpa only [effect, if_neg hop] using h

/-- Nothing becomes of nothing. -/
theorem effect_zero {op : LocalOp} (hv : op.Valid) :
    op.effect w (fun _ => 0) = fun _ => 0 := by
  obtain ⟨K, hK⟩ := act_eq_actOn hv
  rw [effect, hK]
  split_ifs
  · funext x
    exact sum_eq_zero fun v _ => mul_zero _
  · rfl

/-- The probability that the two operations, in this order, have their chosen
outcomes. -/
noncomputable def jointChance (w : QStateRegistry) (a c : LocalOp) : ℂ :=
  a.chance w * c.chance (a.call w).2

/-- The joint probability is the squared norm of the two effects. -/
theorem traceAll_effects (h : w.Inv) (hall : w.AllSound .Ket) {a c : LocalOp}
    (ha : a.Valid) (hc : c.Valid) :
    traceAll (List.range w.numHandles) (density (c.effect w (a.effect w
      (globalOf ketAmplitudes w)))) = fun _ => jointChance w a c := by
  have htrace := traceAll_effect h hall ha
  by_cases hzero : a.chance w = 0
  · -- a pure state that is found with probability zero is zero
    rw [hzero] at htrace
    have hnone : density (fun _ : QubitPtr → Bool => (0 : ℂ)) = fun z => 0 * 1 :=
      funext fun z => (zero_mul _).trans (zero_mul _).symm
    rw [eq_zero_of_traceAll List.nodup_range htrace, effect_zero hc, jointChance, hzero,
      hnone, traceAll_smul]
    simp only [zero_mul]
  · obtain ⟨w₁, hcall, hstays, hglobal⟩ := call_effect h hall ha hzero
    have hsecond := traceAll_effect hstays.inv hstays.all hc
    rw [effect_eq hstays, density_effect hc hglobal, traceAll_smul, hstays.handles]
      at hsecond
    rw [jointChance, hcall]
    funext z
    rw [← congrFun hsecond z, one_div, mul_inv_cancel_left₀ hzero]

/-- Both calls, when the joint outcome is possible. -/
theorem call_call (h : w.Inv) (hall : w.AllSound .Ket) {a c : LocalOp}
    (ha : a.Valid) (hc : c.Valid) (hjoint : jointChance w a c ≠ 0) :
    ∃ w₁ w₂, a.call w = (.ok (a.reply w), w₁) ∧ c.call w₁ = (.ok (c.reply w), w₂) ∧
      w.Stays w₂ .Ket ∧ density (globalOf ketAmplitudes w₂) = fun z =>
        1 / jointChance w a c * density (c.effect w (a.effect w
          (globalOf ketAmplitudes w))) z := by
  obtain ⟨ha₀, hc₀⟩ := mul_ne_zero_iff.mp hjoint
  obtain ⟨w₁, hcall, hstays, hglobal⟩ := call_effect h hall ha ha₀
  rw [hcall] at hc₀
  obtain ⟨w₂, hcall₂, hstays₂, hglobal₂⟩ := call_effect hstays.inv hstays.all hc hc₀
  refine ⟨w₁, w₂, hcall, reply_eq hstays c ▸ hcall₂, hstays.trans hstays₂, ?_⟩
  rw [hglobal₂, effect_eq hstays, density_effect hc hglobal, jointChance, hcall]
  funext z
  rw [← mul_assoc, one_div_mul_one_div_rev]

end LocalOp

/-- Two operations on disjoint handles, in either order: the joint outcome has the same
probability and, if it is possible, the calls return the same, every qubit is where it
was, and the global states are the same up to a phase. -/
theorem independent_commute
    (h : Reachable (fun w op => w.KetOp op ∧ w.UnitaryOp op) w) {a c : LocalOp}
    (ha : a.Valid) (hc : c.Valid) (hdisj : ∀ q ∈ a.handles, q ∉ c.handles) :
    LocalOp.jointChance w a c = LocalOp.jointChance w c a ∧
      (LocalOp.jointChance w a c ≠ 0 → ∃ w₁ w₂ w₃ w₄,
        (a.call w = (.ok (a.reply w), w₁) ∧ c.call w₁ = (.ok (c.reply w), w₂)) ∧
        (c.call w = (.ok (c.reply w), w₃) ∧ a.call w₃ = (.ok (a.reply w), w₄)) ∧
        w₂.numHandles = w₄.numHandles ∧
        (∀ x, w₂.getLocation x = w₄.getLocation x) ∧
        ∃ k : ℂ, ‖k‖ = 1 ∧ globalOf ketAmplitudes w₂ =
          fun z => k * globalOf ketAmplitudes w₄ z) := by
  obtain ⟨hinv, hall⟩ := reachable_sound h
  have hcomm := LocalOp.effect_comm (w := w) ha hc hdisj (globalOf ketAmplitudes w)
  have hjoint : LocalOp.jointChance w a c = LocalOp.jointChance w c a := by
    have hac := LocalOp.traceAll_effects hinv hall ha hc
    rw [hcomm, LocalOp.traceAll_effects hinv hall hc ha] at hac
    exact (congrFun hac fun _ => default).symm
  refine ⟨hjoint, fun hpos => ?_⟩
  obtain ⟨w₁, w₂, ha₁, hc₁, hstays, hglobal⟩ := LocalOp.call_call hinv hall ha hc hpos
  obtain ⟨w₃, w₄, hc₂, ha₂, hstays', hglobal'⟩ :=
    LocalOp.call_call hinv hall hc ha (hjoint ▸ hpos)
  refine ⟨w₁, w₂, w₃, w₄, ⟨ha₁, hc₁⟩, ⟨hc₂, ha₂⟩, hstays.handles.trans hstays'.handles.symm,
    fun x => (hstays.locations x).trans (hstays'.locations x).symm,
    density_eq_iff.mp ?_⟩
  rw [hglobal, hglobal', hcomm, hjoint]

/-- A gate on one qubit of a Bell pair and a measurement of the other one. -/
theorem independent_commute_bell : ∃ (w w₂ w₄ : QStateRegistry) (o : Bool) (k : ℂ),
    ((LocalOp.measure 0 1 .Y o).call ((LocalOp.apply 0 (.builtin .X) [0]).call w).2).2 = w₂ ∧
      ((LocalOp.apply 0 (.builtin .X) [0]).call ((LocalOp.measure 0 1 .Y o).call w).2).2 =
        w₄ ∧ ‖k‖ = 1 ∧ (∀ x, w₂.getLocation x = w₄.getLocation x) ∧
      globalOf ketAmplitudes w₂ = fun z => k * globalOf ketAmplitudes w₄ z := by
  obtain ⟨w, hreach, hlocal, -, -⟩ := reachable_bell
  obtain ⟨hinv, hall⟩ := reachable_sound hreach
  have hone := hlocal 1 (List.mem_cons_of_mem _ List.mem_cons_self)
  obtain ⟨o, ho⟩ := hinv.exists_outcome hall hone.1 .Y
  have hperformed : (LocalOp.measure 0 1 .Y o).Performed w :=
    ⟨List.cons_ne_nil _ _, fun q hq => List.mem_singleton.mp hq ▸ hone⟩
  obtain ⟨hjoint, hrun⟩ := independent_commute hreach
    (a := .apply 0 (.builtin .X) [0]) (c := .measure 0 1 .Y o)
    ⟨List.nodup_singleton 0, QGate.builtin_unitary (show QGateKind.X ≠ .Custom by decide)⟩
    trivial (by simp [LocalOp.handles])
  have hchance : (LocalOp.measure 0 1 .Y o).chance w = w.outcomeProb 1 .Y o :=
    if_pos hperformed
  have hpossible : LocalOp.jointChance w (.measure 0 1 .Y o)
      (.apply 0 (.builtin .X) [0]) ≠ 0 := by
    rw [LocalOp.jointChance, hchance]
    exact mul_ne_zero ho one_ne_zero
  obtain ⟨w₁, w₂, w₃, w₄, ⟨ha, hc⟩, ⟨hc', ha'⟩, -, hloc, k, hk, hglobal⟩ :=
    hrun (hjoint ▸ hpossible)
  refine ⟨w, w₂, w₄, o, k, ?_, ?_, hk, hloc, hglobal⟩
  · rw [ha, hc]
  · rw [hc', ha']

end Q2NS.QStateRegistry
