import Q2NS.Lib.Reduced
import Q2NS.Machine.Refinement

/-!
# No signalling through the registry

A program decides each operation by the replies it has seen, and every reply of a
measurement comes with its Born probability.  What such a program does at other nodes
has, on average over its replies, no influence on the joint state of the qubits at a
node, on any backend: entanglement alone does not transmit.  With no qubits at all this
says that the probabilities of the runs of a program add up to one.
-/

namespace Q2NS

open NamedTensor QuadForm Finset

/-! ## Impossible outcomes -/

/-- A pure state has no component along an outcome of probability zero. -/
theorem compress_of_trace_zero {m t : ℕ} (ht : t ≤ m) {Φ : (ℕ → Bool) → ℂ}
    (hΦ : DependsOn Φ (Set.Iio (m + 1))) {v : Bool → ℂ}
    (h : trace m (compress v t (density Φ)) = 0) :
    compress v t (density Φ) = fun _ => 0 := by
  rw [compress_density] at h ⊢
  rw [trace_density] at h
  have hsum := (sum_eq_zero_iff_of_nonneg fun x _ => sq_nonneg _).mp (Complex.ofReal_eq_zero.mp h)
  have hzero : ∀ y, project v t Φ y = 0 := by
    intro y
    have hy : project v t Φ y = project v t Φ (pad fun i : Fin m => y i) :=
      project_dependsOn hΦ ht v fun i hi => (pad_restrict y hi).symm
    rw [hy, ← norm_eq_zero, ← sq_eq_zero_iff]
    exact hsum _ (mem_univ _)
  funext z
  rw [density, hzero, zero_mul]

namespace QState

theorem compress_impossible {st : QState} (h : st.WellFormed) {t : ℕ}
    (ht : t < st.numQubits) {basis : Basis} {o : Bool} (ho : st.prob t basis o = 0) :
    compress (eigenvector basis o) t st.kernel = fun _ => 0 := by
  have hn : st.numQubits = st.numQubits - 1 + 1 := by omega
  cases st with
  | ket psi =>
      have hdep := psi.eval_dependsOn
      rw [show psi.n = psi.n - 1 + 1 from hn] at hdep
      exact compress_of_trace_zero (Nat.le_sub_one_of_lt ht) hdep ho
  | dm rho =>
      obtain ⟨rho', -, hn', hvalid, heval⟩ := rotate_dm ht h basis
      have ht' : t < rho'.n := hn' ▸ ht
      have hbranch : (rho'.branch t o).eval =
          compress (eigenvector basis o) t rho.eval := funext fun z => by
        rw [DM.eval_branch ht', heval]
      have htrace : (rho'.branch t o).rho.trace = 0 := by
        have hbn : (rho'.branch t o).n = rho.n - 1 := congrArg (· - 1) hn'
        rw [← DM.trace_eval, hbranch, hbn]
        exact ho
      have hzero := (DM.posSemidef_branch ht' hvalid.posSemidef o).trace_eq_zero_iff.mp htrace
      funext z
      rw [kernel, ← hbranch, DM.eval, hzero]
      rfl
  | stab s =>
      have hdep := Stab.RepInv.eval_dependsOn h
      rw [show s.numQubits = s.numQubits - 1 + 1 from hn] at hdep
      exact compress_of_trace_zero (Nat.le_sub_one_of_lt ht) hdep ho

end QState

/-- The eigenvectors of a basis resolve the identity. -/
theorem complete_eigenvector (basis : Basis) : Complete (eigenvector basis) := by
  intro b c
  have hhalf := invSqrt2_mul_self
  have hI : invSqrt2 * Complex.I * (invSqrt2 * Complex.I) = -(1 / 2) := by
    rw [mul_mul_mul_comm, hhalf, Complex.I_mul_I, mul_neg_one]
  rw [Fintype.sum_bool]
  cases basis <;> cases b <;> cases c <;>
    simp [eigenvector, sgn, conj_invSqrt2, hhalf, hI] <;> norm_num

namespace QStateRegistry

variable {w w' : QStateRegistry} {b : QStateBackend} {G : GlobalState} {n : NodeId}
  {S : Finset QubitPtr}

theorem Inv.contract_impossible (h : w.Inv) (hall : w.AllSound b) {q : QubitPtr}
    (hq : q < w.numHandles) {basis : Basis} {o : Bool}
    (ho : w.outcomeProb q basis o = 0) :
    contract (outer (eigenvector basis o)) q (globalOf QState.kernel w) = fun _ => 0 := by
  have hwf := (hall.valueOf (h.states_of_handle hq)).1
  funext z
  rw [h.contract_globalOf QState.kernel hq,
    QState.compress_impossible hwf (h.index_lt hq) ho, zero_mul]

/-- Handles that have not been made yet are not in the global state. -/
theorem Inv.globalOf_ignores (h : w.Inv) {q : QubitPtr} (hq : w.numHandles ≤ q) :
    Ignores q (globalOf QState.kernel w) := by
  intro z c
  refine prod_congr rfl fun s hs => ?_
  have hreg := h.mem_registered.mp hs
  rw [h.factorOf_eq QState.kernel hreg]
  exact ignores_named (fun hmem => absurd (h.mem_qubitsOf_iff.mp
    (mem_sortByIndex.mp hmem)).1 (not_lt.mpr hq)) _ z c

/-! ## Programs that branch -/

/-- A program that decides by the replies.  The draws written in its measurements are
replaced by random ones. -/
inductive Program where
  | stop
  | call (op : Op) (next : Reply → Program)

/-- All operations that the program may come to satisfy `P`. -/
def Program.All (P : Op → Prop) : Program → Prop
  | .stop => True
  | .call op next => P op ∧ ∀ r, (next r).All P

theorem Program.All.mono {P P' : Op → Prop} {prog : Program} (h : prog.All P)
    (hP : ∀ op, P op → P' op) : prog.All P' := by
  induction prog with
  | stop => trivial
  | call op next ih => exact ⟨hP op h.1, fun r => ih r (h.2 r)⟩

/-- What `k` makes of the result of a call; nothing comes after a failed one. -/
def proceed (k : Reply → QStateRegistry → ℂ) (x : Except Exit Reply × QStateRegistry) : ℂ :=
  match x with
  | (.ok r, w) => k r w
  | (.error _, _) => 0

/-- The average of `k` over the outcomes of an operation, with their Born
probabilities. -/
noncomputable def outcomeAverage (w : QStateRegistry) (op : Op)
    (k : Reply → QStateRegistry → ℂ) : ℂ :=
  match op with
  | .measure node q basis draw =>
      if q < w.numHandles ∧ w.IsLocal node q then
        ∑ o, w.outcomeProb q basis o * proceed k (w.call (.measure node q basis o))
      else proceed k (w.call (.measure node q basis draw))
  | .measureBell node p q drawA drawB =>
      if (p < w.numHandles ∧ w.IsLocal node p) ∧ q < w.numHandles ∧ w.IsLocal node q then
        ∑ m1, ∑ m2, w.bellProb node p q m1 m2 *
          proceed k (w.call (.measureBell node p q m1 m2))
      else proceed k (w.call (.measureBell node p q drawA drawB))
  | op => proceed k (w.call op)

/-- The average of `f` over the runs of a program. -/
noncomputable def expect (f : QStateRegistry → ℂ) : Program → QStateRegistry → ℂ
  | .stop, w => f w
  | .call op next, w => w.outcomeAverage op fun r w => expect f (next r) w

/-- The joint state of the handles in `S`. -/
noncomputable def reduced (S : Finset QubitPtr) (w : QStateRegistry) :
    (QubitPtr → Bool × Bool) → ℂ :=
  traceAll ((List.range w.numHandles).filter (· ∉ S)) (globalOf QState.kernel w)

/-- Node `n` lets the handles in `S` alone, and nobody moves them.  Other nodes may
list them in their calls. -/
def Op.Avoids (n : NodeId) (S : Finset QubitPtr) : Op → Prop
  | .apply node _ qs => node = n → ∀ q ∈ qs, q ∉ S
  | .measure node q _ _ => node = n → q ∉ S
  | .measureBell node p q _ _ => node = n → p ∉ S ∧ q ∉ S
  | .adoptQubit _ q => q ∉ S
  | .setLocationNode q _ => q ∉ S
  | .setLocationChannel q _ => q ∉ S
  | .setLocationLost q => q ∉ S
  | _ => True

/-! ## One operation -/

namespace Represents

theorem reduced_eq (h : Represents b w G) (S : Finset QubitPtr) :
    reduced S w = traceAll ((List.range G.handles).filter (· ∉ S)) G.tensor := by
  rw [reduced, h.handles, h.tensor]

/-- The joint state of no qubits. -/
theorem reduced_empty (h : Represents b w G) (z : QubitPtr → Bool × Bool) :
    reduced ∅ w z = 1 := by
  have hrange : (List.range w.numHandles).filter (· ∉ (∅ : Finset QubitPtr)) =
      List.range w.numHandles := List.filter_eq_self.mpr fun x _ => by simp
  rw [reduced, hrange, h.inv.traceAll_globalOf fun s p hp => (h.all s p hp).1]

theorem ignores (h : Represents b w G) {q : QubitPtr} (hq : G.handles ≤ q) :
    Ignores q G.tensor :=
  h.tensor ▸ h.inv.globalOf_ignores (h.handles ▸ hq)

/-- A qubit of a node is not in `S` if the node lets `S` alone. -/
theorem not_mem_of_local (hS : ∀ x ∈ S, G.Local n x) {node : NodeId} {q : QubitPtr}
    (hq : G.Local node q) (havoid : node = n → q ∉ S) : q ∉ S := fun hmem =>
  havoid (Location.node.inj (hq.2.symm.trans (hS q hmem).2)) hmem

theorem mem_traced {N : ℕ} {q : QubitPtr} (hq : q < N) (hS : q ∉ S) :
    q ∈ (List.range N).filter (· ∉ S) :=
  List.mem_filter.mpr ⟨List.mem_range.mpr hq, decide_eq_true hS⟩

/-- Gates on other qubits. -/
theorem reduced_apply (h : Represents b w G) (hS : ∀ x ∈ S, G.Local n x) {node : NodeId}
    {gate : QGate} {qs : List QubitPtr} (hd : qs.Nodup) {U : CMat}
    (hacc : QState.Accepts b gate qs.length U) (havoid : node = n → ∀ q ∈ qs, q ∉ S) :
    traceAll ((List.range G.handles).filter (· ∉ S)) (G.apply node gate qs).2.tensor =
      reduced S w := by
  rw [h.reduced_eq, GlobalState.apply]
  split_ifs with hrefused
  · rfl
  · have hall := (not_or.mp hrefused).2
    have hlocal : ∀ q ∈ qs, G.Local node q := fun q hq =>
      not_not.mp fun hno => hall ⟨q, hq, hno⟩
    rw [hacc.matrix]
    refine traceAll_actOn_subset hd (fun q hq => ?_) hacc.unitary.isometric _
    exact mem_traced (hlocal q hq).1
      (not_mem_of_local hS (hlocal q hq) fun hn => havoid hn q hq)

/-- A built-in gate on other qubits. -/
theorem reduced_gate (h : Represents b w G) (hS : ∀ x ∈ S, G.Local n x) {node : NodeId}
    {kind : QGateKind} (hk : kind ≠ .Custom) {qs : List QubitPtr}
    (hlen : qs.length = kind.arity) (hd : qs.Nodup) (hout : ∀ q ∈ qs, q ∉ S)
    (h' : Represents b w' (G.apply node (.builtin kind) qs).2) :
    reduced S w' = reduced S w := by
  obtain ⟨U, hU⟩ := QState.accepts_builtin b hk
  rw [← hlen] at hU
  rw [h'.reduced_eq, (G.apply_stays node (.builtin kind) qs).1]
  exact h.reduced_apply hS hd hU fun _ => hout

/-- A measurement of another qubit, averaged over its outcomes. -/
theorem sum_measure (h : Represents b w G) {node : NodeId} {q : QubitPtr}
    (hlocal : G.Local node q) (hqS : q ∉ S) (basis : Basis) (z : QubitPtr → Bool × Bool)
    {f : Bool → ℂ}
    (hf : ∀ o w', w.outcomeProb q basis o ≠ 0 →
      w.measure node q basis o = (.ok o.toNat, w') →
      Represents b w' (G.collapse b q basis o) → f o = reduced S w' z) :
    ∑ o, w.outcomeProb q basis o * f o = reduced S w z := by
  have hlocal' := h.local_iff.mpr hlocal
  have hpossible : ∀ o, w.outcomeProb q basis o ≠ 0 →
      traceOut q (measuredTensor b basis o q) = (fun _ => 1) ∧
      f o = traceAll ((List.range w.numHandles).filter (· ∉ S))
        (G.collapse b q basis o).tensor z := by
    intro o ho
    obtain ⟨w', hok, -, htrace, -⟩ := h.inv.measure_global h.all hlocal' ho
    obtain ⟨w'', hok', h'⟩ := h.measure node q basis o
    obtain rfl := (Prod.mk.inj (hok.symm.trans hok')).2
    have hdrawn : drawn (G.prob q basis) o = o :=
      if_neg (h.prob hlocal'.1 basis ▸ ho)
    rw [GlobalState.measure, if_neg (not_not.mpr hlocal), hdrawn] at h'
    refine ⟨htrace, ?_⟩
    rw [hf o w' ho hok h', h'.reduced_eq, h.handles]
    rfl
  rw [reduced]
  have hmem := mem_traced hlocal'.1 hqS
  rw [← (complete_eigenvector basis).sum_traceAll hmem (F := globalOf QState.kernel w)
    (p := w.outcomeProb q basis) (M := fun o => measuredTensor b basis o q)
    (G := fun o => (G.collapse b q basis o).tensor) (fun o ho => (hpossible o ho).1)
    (fun o _ => ?_) (fun o ho => h.inv.contract_impossible h.all hlocal'.1 ho) z]
  · refine sum_congr rfl fun o _ => ?_
    by_cases ho : w.outcomeProb q basis o = 0
    · rw [ho, zero_mul, zero_mul]
    · rw [(hpossible o ho).2]
  · rw [h.prob hlocal'.1, h.tensor]
    rfl

/-- New handles are traced out with the others. -/
theorem reduced_grown (h : Represents b w G) (hS : ∀ x ∈ S, G.Local n x) {k : ℕ}
    {F : (QubitPtr → Bool × Bool) → ℂ}
    (hF : traceAll ((List.range k).map (G.handles + ·)) F = fun _ => 1) :
    traceAll ((List.range (G.handles + k)).filter (· ∉ S)) (fun z => G.tensor z * F z) =
      reduced S w := by
  have hnew : ((List.range k).map (G.handles + ·)).filter (· ∉ S) =
      (List.range k).map (G.handles + ·) := List.filter_eq_self.mpr fun x hx => by
    obtain ⟨i, -, rfl⟩ := List.mem_map.mp hx
    exact decide_eq_true fun hmem => absurd (hS _ hmem).1 (Nat.not_lt.mpr (Nat.le_add_right _ _))
  rw [h.reduced_eq, List.range_add, List.filter_append, hnew]
  refine traceAll_grow hF fun q hq => h.ignores ?_
  obtain ⟨i, -, rfl⟩ := List.mem_map.mp hq
  exact Nat.le_add_right _ _

theorem traceAll_zeroTensor (q : QubitPtr) :
    traceAll [q] (GlobalState.zeroTensor q) = fun _ => 1 := by
  funext z
  simp [traceAll, traceOut, GlobalState.zeroTensor, density, rowOf, colOf]

/-- An operation that draws nothing. -/
theorem reduced_call (h : Represents b w G) (hS : ∀ x ∈ S, G.Local n x) {op : Op}
    (hop : op.Plain b) (havoid : op.Avoids n S)
    (hm : ∀ node q basis draw, op = .measure node q basis draw → ¬ G.Local node q)
    (hb : ∀ node p q dA dB, op = .measureBell node p q dA dB →
      ¬ (G.Local node p ∧ G.Local node q)) :
    traceAll ((List.range (G.call b op).2.handles).filter (· ∉ S)) (G.call b op).2.tensor =
      reduced S w := by
  have hsame := (h.reduced_eq S).symm
  cases op with
  | newState value => exact hop.elim
  | setDefaultBackend b' => exact hsame
  | createQubit node =>
      exact h.reduced_grown (k := 1) hS (traceAll_zeroTensor G.handles)
  | createQubitFrom node state => exact hop.elim
  | createBellPair node =>
      exact h.reduced_grown (k := 2) hS (funext fun z =>
        Swap.traceAll_bellPair false false (Nat.succ_ne_self G.handles).symm z)
  | apply node gate qs =>
      obtain ⟨hd, U, hacc⟩ := hop
      have hhandles : (G.apply node gate qs).2.handles = G.handles := by
        rw [GlobalState.apply]
        split_ifs
        · rfl
        · split <;> rfl
      have happly := h.reduced_apply hS hd hacc havoid
      rw [← hhandles] at happly
      exact happly
  | measure node q basis draw =>
      have hno := hm node q basis draw rfl
      have hcall : (G.call b (.measure node q basis draw)).2 = G := by
        rw [GlobalState.call, GlobalState.measure, if_pos hno]
        rfl
      rw [hcall]
      exact hsame
  | measureBell node p q dA dB =>
      have hno := hb node p q dA dB rfl
      have hcall : (G.call b (.measureBell node p q dA dB)).2 = G := by
        rw [GlobalState.call, GlobalState.measureBell, if_pos (not_and_or.mp hno)]
        rfl
      rw [hcall]
      exact hsame
  | adoptQubit node q =>
      simp only [GlobalState.call, GlobalState.moveUnlessLost]
      split_ifs <;> exact hsame
  | setLocationNode q node =>
      simp only [GlobalState.call, GlobalState.moveUnlessLost]
      split_ifs <;> exact hsame
  | setLocationChannel q c =>
      simp only [GlobalState.call, GlobalState.moveUnlessLost]
      split_ifs <;> exact hsame
  | setLocationLost q =>
      simp only [GlobalState.call]
      split_ifs <;> exact hsame

/-- The qubits in `S` stay at their node. -/
theorem local_call (hS : ∀ x ∈ S, G.Local n x) {op : Op} (havoid : op.Avoids n S) :
    ∀ x ∈ S, (G.call b op).2.Local n x := by
  intro x hx
  obtain ⟨hlt, hplace⟩ := hS x hx
  -- what keeps handles and places
  have hstays : ∀ {G' : GlobalState}, G'.handles = G.handles ∧ G'.place = G.place →
      G'.Local n x := fun h => ⟨h.1 ▸ hlt, h.2 ▸ hplace⟩
  have hmoved : ∀ {q : QubitPtr} {loc : Location}, q ∉ S →
      (G.move q loc).Local n x := fun {q} _ hq =>
    ⟨hlt, (Function.update_of_ne (fun he : x = q => hq (he ▸ hx)) _ _).trans hplace⟩
  cases op with
  | newState value => exact ⟨hlt, hplace⟩
  | setDefaultBackend b' => exact ⟨hlt, hplace⟩
  | createQubit node =>
      exact ⟨Nat.lt_succ_of_lt hlt, (Function.update_of_ne hlt.ne _ _).trans hplace⟩
  | createQubitFrom node state => exact ⟨hlt, hplace⟩
  | createBellPair node =>
      exact ⟨Nat.lt_succ_of_lt (Nat.lt_succ_of_lt hlt),
        (Function.update_of_ne (Nat.lt_succ_of_lt hlt).ne _ _).trans
          ((Function.update_of_ne hlt.ne _ _).trans hplace)⟩
  | apply node gate qs => exact hstays (G.apply_stays node gate qs)
  | measure node q basis draw => exact hstays (G.measure_stays b node q basis draw)
  | measureBell node p q dA dB => exact hstays (G.measureBell_stays b node p q dA dB)
  | adoptQubit node q =>
      simp only [GlobalState.call, GlobalState.moveUnlessLost]
      split_ifs
      · exact hmoved havoid
      · exact ⟨hlt, hplace⟩
  | setLocationNode q node =>
      simp only [GlobalState.call, GlobalState.moveUnlessLost]
      split_ifs
      · exact hmoved havoid
      · exact ⟨hlt, hplace⟩
  | setLocationChannel q c =>
      simp only [GlobalState.call, GlobalState.moveUnlessLost]
      split_ifs
      · exact hmoved havoid
      · exact ⟨hlt, hplace⟩
  | setLocationLost q =>
      simp only [GlobalState.call]
      split_ifs
      · exact hmoved havoid
      · exact ⟨hlt, hplace⟩

/-- A Bell measurement of two other qubits, averaged over its outcomes. -/
theorem sum_measureBell (h : Represents b w G) (hS : ∀ x ∈ S, G.Local n x) {node : NodeId}
    {p q : QubitPtr} (hpq : p ≠ q) (hp : G.Local node p) (hq : G.Local node q)
    (hpS : p ∉ S) (hqS : q ∉ S) (z : QubitPtr → Bool × Bool) {f : Bool → Bool → ℂ}
    (hf : ∀ m1 m2 w', w.measureBell node p q m1 m2 = (.ok (m1.toNat, m2.toNat), w') →
      f m1 m2 = reduced S w' z) :
    ∑ m1, ∑ m2, w.bellProb node p q m1 m2 * f m1 m2 = reduced S w z := by
  have hboth : ∀ x ∈ [p, q], G.Local node x := fun x hx => by
    rcases List.mem_pair.mp hx with rfl | rfl
    · exact hp
    · exact hq
  have hout : ∀ x ∈ [p, q], x ∉ S := fun x hx => by
    rcases List.mem_pair.mp hx with rfl | rfl
    · exact hpS
    · exact hqS
  obtain ⟨w₁, hok₁, h₁, hlocal₁⟩ := h.apply_builtin
    (show QGateKind.CNOT ≠ .Custom by decide)
    (show [p, q].length = QGateKind.CNOT.arity from rfl) (by simpa using hpq)
    (List.cons_ne_nil _ _) hboth
  set G₁ := (G.apply node (.builtin .CNOT) [p, q]).2 with hG₁
  have hstays₁ := G.apply_stays node (.builtin .CNOT) [p, q]
  obtain ⟨w₂, hok₂, h₂, hlocal₂⟩ := h₁.apply_builtin
    (show QGateKind.H ≠ .Custom by decide)
    (show [p].length = QGateKind.H.arity from rfl) (List.nodup_singleton p)
    (List.cons_ne_nil _ _) fun x hx => hlocal₁ x (List.mem_singleton.mp hx ▸ hp)
  set G₂ := (G₁.apply node (.builtin .H) [p]).2 with hG₂
  have hrotated : w.rotated node p q = w₂ := by rw [rotated, hok₁, hok₂]
  -- the gates do not reach `S`
  have hS₁ : ∀ x ∈ S, G₁.Local n x := fun x hx =>
    ⟨hstays₁.1 ▸ (hS x hx).1, hstays₁.2 ▸ (hS x hx).2⟩
  have hred₁ : reduced S w₁ = reduced S w :=
    h.reduced_gate hS (show QGateKind.CNOT ≠ .Custom by decide)
      (show [p, q].length = QGateKind.CNOT.arity from rfl) (by simpa using hpq) hout h₁
  have hred₂ : reduced S w₂ = reduced S w₁ :=
    h₁.reduced_gate hS₁ (show QGateKind.H ≠ .Custom by decide)
      (show [p].length = QGateKind.H.arity from rfl) (List.nodup_singleton p)
      (fun x hx => List.mem_singleton.mp hx ▸ hpS) h₂
  have hred : reduced S w₂ z = reduced S w z := by rw [hred₂, hred₁]
  rw [← hred, ← h₂.sum_measure (hlocal₂ p (hlocal₁ p hp)) hpS .Z z
    (f := fun m1 => ∑ m2, (w₂.measure node p .Z m1).2.outcomeProb q .Z m2 * f m1 m2)]
  · simp only [bellProb, hrotated, mul_sum, mul_assoc]
  · intro m1 w₃ hm1 hok₃ h₃
    rw [hok₃]
    refine h₃.sum_measure (hlocal₂ q (hlocal₁ q hq)) hqS .Z z fun m2 w₄ hm2 hok₄ _ => ?_
    exact hf m1 m2 w₄ (measureBell_eq (fun x hx => h.local_iff.mpr (hboth x hx)) hok₁ hok₂
      hok₃ hok₄)

/-- On average over the replies, one operation leaves the joint state of `S` as it is. -/
theorem average_reduced (h : Represents b w G) (hS : ∀ x ∈ S, G.Local n x) {op : Op}
    (hop : op.Plain b) (havoid : op.Avoids n S) (z : QubitPtr → Bool × Bool)
    {k : Reply → QStateRegistry → ℂ}
    (hk : ∀ r w' G', Represents b w' G' → (∀ x ∈ S, G'.Local n x) →
      k r w' = reduced S w' z) : w.outcomeAverage op k = reduced S w z := by
  -- what comes after a call
  have hproceed : ∀ {op : Op}, op.Plain b → op.Avoids n S →
      ∃ w' r, w.call op = (.ok r, w') ∧ Represents b w' (G.call b op).2 ∧
        proceed k (w.call op) = reduced S w' z := by
    intro op hop havoid
    obtain ⟨w', hok, h'⟩ := h.call hop
    refine ⟨w', _, hok, h', ?_⟩
    rw [hok]
    exact hk _ _ _ h' (local_call hS havoid)
  have hquiet : (∀ node q basis draw, op = .measure node q basis draw → ¬ G.Local node q) →
      (∀ node p q dA dB, op = .measureBell node p q dA dB →
        ¬ (G.Local node p ∧ G.Local node q)) →
      proceed k (w.call op) = reduced S w z := by
    intro hm hb
    obtain ⟨w', r, -, h', hp⟩ := hproceed hop havoid
    rw [hp, h'.reduced_eq, h.reduced_call hS hop havoid hm hb]
  cases op with
  | measure node q basis draw =>
      rw [outcomeAverage]
      split_ifs with hlocal
      · have hlocal' := h.local_iff.mp hlocal
        refine h.sum_measure hlocal' (not_mem_of_local hS hlocal' havoid) basis z
          fun o w' _ hok _ => ?_
        obtain ⟨w'', r, hcall, -, hp⟩ :=
          @hproceed (.measure node q basis o) trivial havoid
        have hcall' : w.call (.measure node q basis o) = (.ok (.outcome o.toNat), w') := by
          rw [QStateRegistry.call, hok]
          rfl
        obtain rfl := (Prod.mk.inj (hcall.symm.trans hcall')).2
        exact hp
      · refine hquiet (fun _ _ _ _ he => ?_) fun _ _ _ _ _ he => Op.noConfusion he
        cases he
        exact fun hl => hlocal (h.local_iff.mpr hl)
  | measureBell node p q drawA drawB =>
      rw [outcomeAverage]
      split_ifs with hlocal
      · have hp := h.local_iff.mp hlocal.1
        have hq := h.local_iff.mp hlocal.2
        refine h.sum_measureBell hS hop hp hq (not_mem_of_local hS hp fun hn => (havoid hn).1)
          (not_mem_of_local hS hq fun hn => (havoid hn).2) z fun m1 m2 w' hok => ?_
        obtain ⟨w'', r, hcall, -, hp⟩ :=
          @hproceed (.measureBell node p q m1 m2) hop havoid
        have hcall' : w.call (.measureBell node p q m1 m2) =
            (.ok (.outcomes (m1.toNat, m2.toNat)), w') := by
          rw [QStateRegistry.call, hok]
          rfl
        obtain rfl := (Prod.mk.inj (hcall.symm.trans hcall')).2
        exact hp
      · refine hquiet (fun _ _ _ _ he => Op.noConfusion he) fun _ _ _ _ _ he => ?_
        cases he
        exact fun hl => hlocal ⟨h.local_iff.mpr hl.1, h.local_iff.mpr hl.2⟩
  | _ => exact hquiet (fun _ _ _ _ he => Op.noConfusion he) fun _ _ _ _ _ he => Op.noConfusion he

/-- So does a program. -/
theorem expect_reduced {prog : Program} {f : QStateRegistry → ℂ}
    (z : QubitPtr → Bool × Bool)
    (hf : ∀ w' G', Represents b w' G' → (∀ x ∈ S, G'.Local n x) → f w' = reduced S w' z)
    (hprog : prog.All fun op => op.Plain b ∧ op.Avoids n S) (h : Represents b w G)
    (hS : ∀ x ∈ S, G.Local n x) : expect f prog w = reduced S w z := by
  induction prog generalizing w G with
  | stop => exact hf w G h hS
  | call op next ih =>
      obtain ⟨⟨hop, havoid⟩, hnext⟩ := hprog
      exact h.average_reduced hS hop havoid z fun r w' G' h' hS' => ih r (hnext r) h' hS'

end Represents

/-- What other nodes do, deciding by what they measure, does not change the joint state
of the qubits at a node on average, from any state that a program has reached. -/
theorem no_signalling (b : QStateBackend) {ops : List Op} (hops : ∀ op ∈ ops, op.Plain b)
    {rs : List Reply} (hw : callAll ops (empty.setDefaultBackend b) = (.ok rs, w))
    (hS : ∀ q ∈ S, q < w.numHandles ∧ w.IsLocal n q) {prog : Program}
    (hprog : prog.All fun op => op.Plain b ∧ op.Avoids n S) (z : QubitPtr → Bool × Bool) :
    expect (fun w' => reduced S w' z) prog w = reduced S w z := by
  obtain ⟨w', hok, h⟩ := (represents_empty b).callAll hops
  obtain rfl := (Prod.mk.inj (hw.symm.trans hok)).2
  exact Represents.expect_reduced z (fun _ _ _ _ => rfl) hprog h fun q hq =>
    h.local_iff.mp (hS q hq)

/-- The runs of a program have probabilities that add up to one, and none of them
fails. -/
theorem probabilities_add_up (b : QStateBackend) {ops : List Op}
    (hops : ∀ op ∈ ops, op.Plain b) {rs : List Reply}
    (hw : callAll ops (empty.setDefaultBackend b) = (.ok rs, w)) {prog : Program}
    (hprog : prog.All (Op.Plain b)) : expect (fun _ => 1) prog w = 1 := by
  obtain ⟨w', hok, h⟩ := (represents_empty b).callAll hops
  obtain rfl := (Prod.mk.inj (hw.symm.trans hok)).2
  have hall : prog.All fun op => op.Plain b ∧ op.Avoids 0 ∅ := hprog.mono fun op hop =>
    ⟨hop, by cases op <;> simp [Op.Avoids]⟩
  rw [Represents.expect_reduced (fun _ => default) (fun w' G' h' _ => (h'.reduced_empty _).symm)
    hall h fun q hq => absurd hq (notMem_empty q)]
  exact h.reduced_empty _

/-- A pair of which one half is at another node. -/
def sharedPair : List Op := [.createBellPair 0, .adoptQubit 1 1]

theorem sharedPair_plain (b : QStateBackend) : ∀ op ∈ sharedPair, op.Plain b := by
  simp only [sharedPair, List.forall_mem_cons]
  exact ⟨trivial, trivial, List.forall_mem_nil _⟩

/-- The first node measures its half together with a new qubit, and goes on by the
outcome. -/
def measuringProgram : Program :=
  .call (.createQubit 0) fun _ => .call (.measureBell 0 2 0 true true) fun r =>
    if r = .outcomes (1, 0) then .call (.createBellPair 0) fun _ => .stop
    else .call (.apply 0 (.builtin .X) [0]) fun _ => .call (.measure 0 1 .X true) fun _ => .stop

theorem measuringProgram_all (b : QStateBackend) : measuringProgram.All fun op =>
    op.Plain b ∧ op.Avoids 1 {1} := by
  have hX : Op.Plain b (.apply 0 (.builtin .X) [0]) :=
    ⟨List.nodup_singleton 0, QState.accepts_builtin b (by decide)⟩
  have hzero : ∀ {P : Prop}, (0 : NodeId) = 1 → P := fun he => absurd he (by decide)
  have hBell : (2 : QubitPtr) ≠ 0 := by decide
  refine ⟨⟨trivial, trivial⟩, fun _ => ⟨⟨hBell, hzero⟩, fun r => ?_⟩⟩
  dsimp only
  split_ifs
  · exact ⟨⟨trivial, trivial⟩, fun _ => trivial⟩
  · exact ⟨⟨hX, hzero⟩, fun _ => ⟨⟨trivial, hzero⟩, fun _ => trivial⟩⟩

theorem no_signalling_pair : ∃ (rs : List Reply) (w : QStateRegistry),
    callAll sharedPair (empty.setDefaultBackend .DM) = (.ok rs, w) ∧
      ∀ z, expect (fun w' => reduced {1} w' z) measuringProgram w = reduced {1} w z := by
  obtain ⟨w, hok, h⟩ := (represents_empty .DM).callAll (sharedPair_plain .DM)
  have hlocal : (GlobalState.empty.callAll .DM sharedPair).2.Local 1 1 :=
    ⟨Nat.one_lt_two, rfl⟩
  refine ⟨_, w, hok, fun z => no_signalling .DM (sharedPair_plain .DM) hok (fun q hq => ?_)
    (measuringProgram_all .DM) z⟩
  rw [mem_singleton.mp hq]
  exact h.local_iff.mpr hlocal

theorem probabilities_add_up_pair : ∃ (rs : List Reply) (w : QStateRegistry),
    callAll sharedPair (empty.setDefaultBackend .Stab) = (.ok rs, w) ∧
      expect (fun _ => 1) measuringProgram w = 1 := by
  obtain ⟨w, hok, -⟩ := (represents_empty .Stab).callAll (sharedPair_plain .Stab)
  exact ⟨_, w, hok, probabilities_add_up .Stab (sharedPair_plain .Stab) hok
    ((measuringProgram_all .Stab).mono fun _ h => h.1)⟩

end QStateRegistry

end Q2NS
