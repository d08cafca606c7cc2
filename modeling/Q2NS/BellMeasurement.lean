import Q2NS.GlobalMeasure
import Q2NS.Lib.Bell

/-!
# The parities that a Bell measurement reports

`MeasureBell` is a controlled not, a Hadamard and two measurements in `Z`.  Its
first bit is the parity of `X ⊗ X` and its second bit that of `Z ⊗ Z`, the other
way round than documented.
-/

namespace Q2NS.QStateRegistry

open NamedTensor QuadForm Loop Finset

variable {w w' : QStateRegistry} {b : QStateBackend} {node : NodeId}

/-- Every registered state is a normalised state of backend `b`. -/
abbrev AllSound (w : QStateRegistry) (b : QStateBackend) : Prop :=
  AllStates (fun v => v.WellFormed ∧ v.backend = b) w

/-! ## The global state is normalised -/

/-- A factor ignores the qubits of other states. -/
theorem Inv.factorOf_ignores (h : w.Inv) (s : StateId) {q : QubitPtr}
    (hs : w.states s ≠ none) (hq : (w.qubits q).stateId ≠ s) :
    Ignores q (factorOf QState.kernel w s) := by
  rw [h.factorOf_eq QState.kernel hs]
  exact ignores_named (fun hmem =>
    hq (h.mem_qubitsOf_iff.mp (mem_sortByIndex.mp hmem)).2) _

/-- The trace of a factor over its members. -/
theorem Inv.traceAll_factorOf (h : w.Inv) {s : StateId} (hs : w.states s ≠ none)
    (hwf : (w.valueOf s).WellFormed) :
    traceAll (w.order s) (factorOf QState.kernel w s) = fun _ => 1 := by
  funext z
  rw [h.factorOf_eq QState.kernel hs, traceAll_named (h.nodup_order s),
    h.length_order hs, QState.trace_kernel hwf]

/-- A product of factors has trace one over the members of its states. -/
theorem Inv.traceAll_prod (h : w.Inv) (hall : AllStates QState.WellFormed w)
    {sids : List StateId} (hd : sids.Nodup)
    (hreg : ∀ s ∈ sids, w.states s ≠ none) :
    traceAll (w.qubitsOfAll sids)
      (fun z => (sids.map fun s => factorOf QState.kernel w s z).prod) =
        fun _ => 1 := by
  induction sids with
  | nil => rfl
  | cons s sids ih =>
      obtain ⟨hs, hd'⟩ := List.nodup_cons.mp hd
      have hregs := hreg s List.mem_cons_self
      have hrest : ∀ q ∈ w.order s, Ignores q fun z =>
          (sids.map fun s => factorOf QState.kernel w s z).prod := by
        intro q hq z c
        refine congrArg List.prod (List.map_congr_left fun s' hs' => ?_)
        refine h.factorOf_ignores s' (hreg s' (List.mem_cons_of_mem _ hs')) ?_ z c
        rw [(h.mem_qubitsOf_iff.mp (mem_sortByIndex.mp hq)).2]
        exact fun he => hs (he ▸ hs')
      simp only [List.map_cons, List.prod_cons]
      rw [qubitsOfAll, List.flatMap_cons, ← qubitsOfAll, traceAll_append,
        traceAll_mul hrest, h.traceAll_factorOf hregs (hall.valueOf hregs)]
      simp only [one_mul]
      exact ih hd' fun s' hs' => hreg s' (List.mem_cons_of_mem _ hs')

/-- The handles are the members of the registered states, in any order of these. -/
theorem Inv.range_perm (h : w.Inv) {sids : List StateId} (hd : sids.Nodup)
    (hmem : ∀ s, s ∈ sids ↔ w.states s ≠ none) :
    (List.range w.numHandles).Perm (w.qubitsOfAll sids) := by
  refine (List.perm_ext_iff_of_nodup List.nodup_range
    (h.nodup_qubitsOfAll hd)).mpr fun q => ?_
  rw [List.mem_range, h.mem_qubitsOfAll, hmem]
  exact ⟨fun hq => ⟨hq, h.states_of_handle hq⟩, And.left⟩

/-- The global state is normalised. -/
theorem Inv.traceAll_globalOf (h : w.Inv) (hall : AllStates QState.WellFormed w) :
    traceAll (List.range w.numHandles) (globalOf QState.kernel w) = fun _ => 1 := by
  have hd := w.registered.nodup_toList
  have hmem : ∀ s, s ∈ w.registered.toList ↔ w.states s ≠ none := fun s => by
    rw [mem_toList, h.mem_registered]
  have hglobal : globalOf QState.kernel w = fun z =>
      (w.registered.toList.map fun s => factorOf QState.kernel w s z).prod :=
    funext fun z => (prod_map_toList _ _).symm
  rw [traceAll_perm (h.range_perm hd hmem), hglobal]
  exact h.traceAll_prod hall hd fun s hs => (hmem s).mp hs

/-! ## Gates and measurements on the global state -/

/-- `w'` has the handles of `w`, where they were, in sound states. -/
structure Stays (w w' : QStateRegistry) (b : QStateBackend) : Prop where
  inv : w'.Inv
  all : w'.AllSound b
  handles : w'.numHandles = w.numHandles
  locations : ∀ x, w'.getLocation x = w.getLocation x

theorem Stays.isLocal (h : w.Stays w' b) {q : QubitPtr}
    (hq : q < w.numHandles ∧ w.IsLocal node q) :
    q < w'.numHandles ∧ w'.IsLocal node q :=
  ⟨h.handles ▸ hq.1, (h.locations q).trans hq.2⟩

theorem Stays.trans {w'' : QStateRegistry} (h : w.Stays w' b)
    (h' : w'.Stays w'' b) : w.Stays w'' b :=
  ⟨h'.inv, h'.all, h'.handles.trans h.handles,
    fun x => (h'.locations x).trans (h.locations x)⟩

theorem Gathered.numHandles {qs : List QubitPtr} {p : StatePtr}
    (hg : w.Gathered qs w' p) : w'.numHandles = w.numHandles := by
  cases hg <;> rfl

/-- A gate that the backend takes acts on the global state, through distinct local
handles. -/
theorem Inv.apply_accepted (h : w.Inv) (hall : w.AllSound b) {gate : QGate}
    {U : CMat} {qs : List QubitPtr} (hacc : QState.Accepts b gate qs.length U)
    (hne : qs ≠ []) (hd : qs.Nodup)
    (hlocal : ∀ q ∈ qs, q < w.numHandles ∧ w.IsLocal node q) :
    ∃ w', w.apply node gate qs = (.ok true, w') ∧ w.Stays w' b ∧
      globalOf QState.kernel w' =
        actOn (conjBy (U.kernel qs.length)) qs.get (globalOf QState.kernel w) := by
  have hqs : ∀ q ∈ qs, q < w.numHandles := fun q hq => (hlocal q hq).1
  have hC := wellFormed_closed.and (backend_closed b)
  obtain ⟨w₁, p, hg, hcases⟩ := h.apply_gathers hall gate hne hlocal
  obtain ⟨s, hp, hhome⟩ := hg.home h hqs
  have hkeep := hg.keeps h hqs
  have hall₁ := hg.allStates h hqs hC hall
  obtain ⟨hwf, hb⟩ := hall₁ s p hp
  obtain ⟨hnodup, hlt⟩ := hg.targets h hqs
  have hacc₁ : QState.Accepts (w₁.objects p).value.backend gate
      (w₁.targetsOf qs).length U := by
    rw [hb, length_targetsOf]
    exact hacc
  obtain ⟨v, hv, hvwf, hvb, hvn, hvkernel⟩ := QState.apply_ok hwf hacc₁
    (fun hnil => hne (List.map_eq_nil_iff.mp hnil)) (hnodup hd) hlt
  rcases hcases with ⟨e, he, -⟩ | ⟨v', hv', hok⟩
  · rw [hv] at he
    cases he
  obtain rfl := Except.ok.inj (hv.symm.trans hv')
  refine ⟨_, hok, ⟨(hkeep.inv.setValue_keeps hvn).inv,
    hall₁.setValue ⟨hvwf, hvb.trans hb⟩ p, hg.numHandles, fun x =>
      hg.getLocation x⟩, ?_⟩
  rw [hkeep.inv.globalOf_setValue (K := conjBy (U.kernel _)) hp hd
    (fun q hq => ⟨(hqs q hq).trans_le hkeep.evolves.handles, hhome q hq⟩) hvn
    hvkernel, hg.globalOf h hqs kernelReading fun s p hp => (hall s p hp).1]
  exact actOn_namesOf (fun k => conjBy (U.kernel k)) _

/-- A built-in gate on distinct local handles acts on the global state. -/
theorem Inv.apply_global (h : w.Inv) (hall : w.AllSound b) {kind : QGateKind}
    (hk : kind ≠ .Custom) {U : CMat} (hU : matrixOf kind = .ok U)
    (qs : List QubitPtr) (hlen : qs.length = kind.arity) (hne : qs ≠ [])
    (hd : qs.Nodup) (hlocal : ∀ q ∈ qs, q < w.numHandles ∧ w.IsLocal node q) :
    ∃ w', w.apply node (.builtin kind) qs = (.ok true, w') ∧ w.Stays w' b ∧
      globalOf QState.kernel w' =
        actOn (conjBy (U.kernel qs.length)) qs.get (globalOf QState.kernel w) := by
  obtain ⟨V, hV⟩ := QState.accepts_builtin b hk
  have hUV : U = V := by
    have hmat := hV.matrix
    rw [QGate.matrix, if_neg (show (QGate.builtin kind).kind ≠ .Custom from hk)]
      at hmat
    exact Except.ok.inj (hU.symm.trans hmat)
  rw [← hUV, ← hlen] at hV
  exact h.apply_accepted hall hV hne hd hlocal

theorem measured_numHandles (s : StateId) (q : QubitPtr)
    (r : MeasureResult QState) : (w.measured s q r).numHandles = w.numHandles := by
  rw [measured]
  split_ifs <;> rfl

theorem Inv.measure_numHandles (h : w.Inv) (node : NodeId) (q : QubitPtr)
    (basis : Basis) (draw : Bool) :
    (w.measure node q basis draw).2.numHandles = w.numHandles := by
  rcases h.measure_cases node q basis draw with ⟨-, hf⟩ | ⟨-, p, v, -, -,
    ⟨e, -, he⟩ | ⟨r, -, -, -, hok⟩⟩
  · rw [hf]
  · rw [he]
    rfl
  · rw [hok]
    exact measured_numHandles _ _ _

/-- What backend `b` leaves `q` in after outcome `o` in `basis`. -/
noncomputable def measuredTensor (b : QStateBackend) (basis : Basis) (o : Bool)
    (q : QubitPtr) : (QubitPtr → Bool × Bool) → ℂ :=
  density fun x => QState.measuredAmplitude b basis o (x q)

theorem measuredTensor_ignores (b : QStateBackend) (basis : Basis) (o : Bool)
    {q x : QubitPtr} (hx : x ≠ q) : Ignores x (measuredTensor b basis o q) := by
  intro z c
  have hread : ∀ y : QubitPtr → Bool, ∀ d, Function.update y x d q = y q :=
    fun y d => Function.update_of_ne hx.symm d y
  simp only [measuredTensor, density, rowOf_update, colOf_update, hread]

/-- A measurement of a local qubit, for an outcome that is possible: the qubit is
in the state that the backend builds, and the rest is the projected state. -/
theorem Inv.measure_global (h : w.Inv) (hall : w.AllSound b) {q : QubitPtr}
    (hlocal : q < w.numHandles ∧ w.IsLocal node q) {basis : Basis} {o : Bool}
    (ho : w.outcomeProb q basis o ≠ 0) :
    ∃ w', w.measure node q basis o = (.ok o.toNat, w') ∧ w.Stays w' b ∧
      traceOut q (measuredTensor b basis o q) = (fun _ => 1) ∧
      globalOf QState.kernel w' = fun z => measuredTensor b basis o q z *
        (1 / w.outcomeProb q basis o *
          contract (outer (eigenvector basis o)) q (globalOf QState.kernel w) z) := by
  obtain ⟨hq, hl⟩ := hlocal
  obtain ⟨hwf, hb⟩ := hall.valueOf (h.states_of_handle hq)
  obtain ⟨w', r, v', hok, hc, hcall, hout, hmeasured⟩ := h.measure_yields hq hl ho
    (projectsOn_of_wellFormed hwf (h.index_lt hq) ho)
  have hinv := (h.measure_keeps node q basis o).inv
  have hall' := h.measure_allStates (wellFormed_closed.and (backend_closed b)) hall
    node q basis o
  have hnum := h.measure_numHandles node q basis o
  rw [hok] at hinv hall' hnum
  have hs := hc.single.1
  have horder : w'.order (w'.qubits q).stateId = [q] := by
    rw [order, hc.alone]
    exact List.mergeSort_singleton q
  -- the object of the measured qubit is the one that the call returned
  have hfactor : factorOf QState.kernel w' (w'.qubits q).stateId =
      measuredTensor b basis o q := by
    obtain ⟨r', v'', hcall', -, -, -, -, hkernel, -⟩ :=
      QState.measure_ok hwf (h.index_lt hq) basis o
    obtain rfl := Except.ok.inj (Prod.mk.inj (hcall.symm.trans hcall')).1
    rw [hinv.factorOf_eq QState.kernel hs, horder, hmeasured]
    funext z
    rw [hkernel, hout, hb]
    rfl
  have htrace := hinv.traceAll_factorOf hs (hall'.valueOf hs).1
  rw [horder, hfactor] at htrace
  refine ⟨w', hok, ⟨hinv, hall', hnum, hc.locations⟩, htrace, funext fun z => ?_⟩
  have hsurvivors := congrFun hc.survivors z
  rw [globalBut, projectedGlobal] at hsurvivors
  rw [globalOf, ← mul_prod_erase _ _ (hinv.mem_registered.mpr hs), hsurvivors,
    hfactor]

/-! ## MeasureBell -/

/-- The registry before the two measurements of `MeasureBell`. -/
noncomputable def rotated (w : QStateRegistry) (node : NodeId) (a b : QubitPtr) :
    QStateRegistry :=
  ((w.apply node (.builtin .CNOT) [a, b]).2.apply node (.builtin .H) [a]).2

/-- The probability that `MeasureBell` returns `(m1, m2)`: of outcome `m1` for the
first measurement, and of `m2` for the second one after it. -/
noncomputable def bellProb (w : QStateRegistry) (node : NodeId) (a b : QubitPtr)
    (m1 m2 : Bool) : ℂ :=
  (w.rotated node a b).outcomeProb a .Z m1 *
    ((w.rotated node a b).measure node a .Z m1).2.outcomeProb b .Z m2

/-- A matrix on each of two qubits. -/
def onBoth (U : CMat) (v w : Fin 2 → Bool) : ℂ :=
  ∏ i, U.kernel 1 (fun _ => v i) fun _ => w i

/-- The projector on the eigenvalue `(-1) ^ m` of an observable with the
eigenvalues `1` and `-1`. -/
noncomputable def eigenprojector (P : (Fin 2 → Bool) → (Fin 2 → Bool) → ℂ)
    (m : Bool) (v w : Fin 2 → Bool) : ℂ :=
  0.5 * ((if v = w then 1 else 0) + sgn m * P v w)

/-- A density tensor projected on the eigenvalues `(-1) ^ zz` of `Z ⊗ Z` and
`(-1) ^ xx` of `X ⊗ X` of two qubits. -/
noncomputable def jointly (zz xx : Bool) (a b : QubitPtr)
    (F : (QubitPtr → Bool × Bool) → ℂ) : (QubitPtr → Bool × Bool) → ℂ :=
  actOn (conjBy (eigenprojector (onBoth matrixX) xx)) ![a, b]
    (actOn (conjBy (eigenprojector (onBoth matrixZ) zz)) ![a, b] F)

/-- The probability of finding these eigenvalues jointly. -/
noncomputable def jointProb (w : QStateRegistry) (zz xx : Bool)
    (a b : QubitPtr) : ℂ :=
  traceAll (List.range w.numHandles)
    (jointly zz xx a b (globalOf QState.kernel w)) fun _ => default

/-- What the other qubits are left in, without normalisation. -/
noncomputable def jointRest (w : QStateRegistry) (zz xx : Bool)
    (a b : QubitPtr) : (QubitPtr → Bool × Bool) → ℂ :=
  traceOut a (traceOut b (jointly zz xx a b (globalOf QState.kernel w)))

/-- A result of probability `p` after which the registry is `w'` is the joint
finding of the eigenvalues: it has that probability, and the other qubits are left
in the state conditioned on it. -/
structure Reports (w w' : QStateRegistry) (p : ℂ) (zz xx : Bool)
    (a b : QubitPtr) : Prop where
  prob : p = w.jointProb zz xx a b
  remaining : traceOut a (traceOut b (globalOf QState.kernel w')) =
    fun z => 1 / w.jointProb zz xx a b * w.jointRest zz xx a b z

theorem onBoth_cons (U : CMat) (a b c d : Bool) : onBoth U ![a, b] ![c, d] =
    U.kernel 1 (fun _ => a) (fun _ => c) * U.kernel 1 (fun _ => b) fun _ => d :=
  Fin.prod_univ_two _

theorem eigenprojector_X (m : Bool) (a b c d : Bool) :
    eigenprojector (onBoth matrixX) m ![a, b] ![c, d] =
      if (a ^^ c) = (b ^^ d) then 1 / 2 * sgn (m && (a ^^ c)) else 0 := by
  have hX : ∀ a c : Bool, matrixX.kernel 1 (fun _ => a) (fun _ => c) =
      if (a ^^ c) then 1 else 0 := by
    intro a c
    rw [kernel_one]
    cases a <;> cases c <;> rfl
  have hpair : (![a, b] = ![c, d]) ↔ (a ^^ c) = false ∧ (b ^^ d) = false := by
    rw [funext_iff, Fin.forall_fin_two]
    simp
  have hhalf : (0.5 : ℂ) = 1 / 2 := by norm_num
  simp only [eigenprojector, hhalf, onBoth_cons, hX, hpair]
  generalize (a ^^ c) = e
  generalize (b ^^ d) = f
  cases e <;> cases f <;> simp [sgn]

theorem eigenprojector_Z (m : Bool) (a b c d : Bool) :
    eigenprojector (onBoth matrixZ) m ![a, b] ![c, d] =
      if (a = c ∧ b = d) ∧ d = (c ^^ m) then 1 else 0 := by
  have hZ : ∀ a c : Bool, matrixZ.kernel 1 (fun _ => a) (fun _ => c) =
      if a = c then sgn c else 0 := by
    intro a c
    rw [kernel_one]
    cases a <;> cases c <;> rfl
  have hpair : (![a, b] = ![c, d]) ↔ a = c ∧ b = d := by
    rw [funext_iff, Fin.forall_fin_two]
    simp
  have hhalf : (0.5 : ℂ) = 1 / 2 := by norm_num
  simp only [eigenprojector, hhalf, onBoth_cons, hZ, hpair]
  by_cases ha : a = c
  · by_cases hb : b = d
    · subst ha hb
      rw [if_pos ⟨rfl, rfl⟩, if_pos rfl, if_pos rfl, ← sgn_xor, ← sgn_xor]
      cases m <;> cases a <;> cases b <;> norm_num [sgn]
    · simp [hb]
  · simp [ha]

/-- The joint projector of the two parities. -/
theorem eigenprojector_bell (zz xx : Bool) (v w : Fin 2 → Bool) :
    ∑ u, eigenprojector (onBoth matrixX) xx v u *
      eigenprojector (onBoth matrixZ) zz u w = pairProjector (bell xx zz) v w := by
  have hv : v = ![v 0, v 1] := by
    funext i
    fin_cases i <;> rfl
  have hw : w = ![w 0, w 1] := by
    funext i
    fin_cases i <;> rfl
  rw [hv, hw, ← (finTwoArrowEquiv Bool).symm.sum_comp, Fintype.sum_prod_type]
  generalize v 0 = a
  generalize v 1 = b
  generalize w 0 = c
  generalize w 1 = d
  have hu : ∀ e f, (finTwoArrowEquiv Bool).symm (e, f) = ![e, f] := fun _ _ => rfl
  simp only [hu, eigenprojector_X, eigenprojector_Z, pairProjector, Matrix.cons_val_zero,
    Matrix.cons_val_one, conj_bell]
  rw [sum_eq_single c, sum_eq_single d]
  · by_cases hd : d = (c ^^ zz)
    · have hbit : ((a ^^ c) = (b ^^ d)) ↔ b = (a ^^ zz) := by
        rw [hd]
        cases a <;> cases b <;> cases c <;> cases zz <;> decide
      have hone : (if (c = c ∧ d = d) ∧ d = (c ^^ zz) then (1 : ℂ) else 0) = 1 :=
        if_pos ⟨⟨rfl, rfl⟩, hd⟩
      rw [hone, mul_one, if_congr hbit rfl rfl, bell, bell, if_pos hd]
      split_ifs
      · rw [mul_mul_mul_comm, invSqrt2_mul_self, ← sgn_xor, Bool.and_xor_distrib_left]
      · rw [zero_mul]
    · have hzero : bell xx zz c d = 0 := if_neg hd
      rw [hzero, mul_zero]
      exact mul_eq_zero_of_right _ (if_neg fun h => hd h.2)
  · exact fun f _ hf => mul_eq_zero_of_right _ (if_neg fun h => hf h.1.2)
  · exact fun h => absurd (mem_univ _) h
  · exact fun e _ he => sum_eq_zero fun f _ =>
      mul_eq_zero_of_right _ (if_neg fun h => he h.1.1)
  · exact fun h => absurd (mem_univ _) h

/-- The two gates and the two measurements in `Z` project on a Bell state. -/
theorem contract_bell {a b : QubitPtr} (hab : a ≠ b) (m1 m2 : Bool) {U V : CMat}
    (hU : matrixOf .CNOT = .ok U) (hV : matrixOf .H = .ok V) (F : (QubitPtr → Bool × Bool) → ℂ) :
    contract (outer (eigenvector .Z m2)) b (contract (outer (eigenvector .Z m1)) a
      (actOn (conjBy (V.kernel 1)) ![a] (actOn (conjBy (U.kernel 2)) ![a, b] F))) =
    contractPair (outerPair (bell m1 m2)) a b F := by
  obtain rfl := Except.ok.inj hU
  obtain rfl := Except.ok.inj hV
  rw [contract_contract hab]
  simp only [outer_mul_outer]
  rw [contractPair_actOn_one hab]
  simp only [outerPair_conjBy_one]
  rw [contractPair_actOn_two hab]
  simp only [outerPair_conjBy_two]
  congr 2
  funext c d
  have hH : ∀ x y : Bool, matrixH.kernel 1 (fun _ => x) (fun _ => y) = invSqrt2 * sgn (x && y) := by
    intro x y
    rw [kernel_one]
    cases x <;> cases y <;> simp [matrixH, makeMatrix, sgn, invSqrt2]
  have hX : ∀ x y c d : Bool, matrixCNOT.kernel 2 ![x, y] ![c, d] =
      if x = c ∧ y = (c ^^ d) then 1 else 0 := by
    intro x y c d
    rw [kernel_two]
    cases x <;> cases y <;> cases c <;> cases d <;> simp [matrixCNOT, makeMatrix]
  refine congrFun₂ (congrArg outerPair (funext fun x => funext fun y => ?_)) c d
  simp only [hH, hX, eigenvector]
  rw [sum_eq_single x, sum_eq_single (x ^^ y), sum_eq_single m1]
  · have hbit : (x ^^ y) = m2 ↔ y = (x ^^ m2) := by
      cases x <;> cases y <;> cases m2 <;> decide
    rw [if_pos ⟨rfl, rfl⟩, if_pos rfl, map_one, one_mul, one_mul, map_mul,
      conj_invSqrt2, conj_sgn, if_congr hbit rfl rfl, mul_ite, mul_one, mul_zero, bell]
  · exact fun e _ he => by rw [if_neg he, zero_mul, mul_zero]
  · exact fun h => absurd (mem_univ _) h
  · exact fun f _ hf => by rw [if_neg fun h => hf h.2, map_zero, zero_mul]
  · exact fun h => absurd (mem_univ _) h
  · exact fun e _ he => sum_eq_zero fun f _ => by
      rw [if_neg fun h => he h.1, map_zero, zero_mul]
  · exact fun h => absurd (mem_univ _) h
/-- Projecting on the two parities is projecting on their Bell state. -/
theorem jointly_eq (zz xx : Bool) {a b : QubitPtr} (hab : a ≠ b)
    (F : (QubitPtr → Bool × Bool) → ℂ) :
    jointly zz xx a b F = actOn (conjBy (pairProjector (bell xx zz))) ![a, b] F := by
  have hinj : Function.Injective ![a, b] := by
    intro i j hij
    fin_cases i <;> fin_cases j
    · rfl
    · exact absurd hij hab
    · exact absurd hij.symm hab
    · rfl
  rw [jointly, actOn_actOn hinj]
  refine congrArg (fun K => actOn K ![a, b] F) (funext fun v => funext fun x => ?_)
  rw [conjBy_comp]
  exact congrArg (fun K => conjBy K v x)
    (funext fun v => funext fun x => eigenprojector_bell zz xx v x)

theorem jointRest_eq (w : QStateRegistry) (zz xx : Bool) {a b : QubitPtr}
    (hab : a ≠ b) : w.jointRest zz xx a b =
      contractPair (outerPair (bell xx zz)) a b (globalOf QState.kernel w) := by
  rw [jointRest, jointly_eq zz xx hab]
  exact traceOut_actOn_pairProjector hab (sum_bell xx zz) _

theorem get_one (q : QubitPtr) : [q].get = ![q] := by
  funext i
  fin_cases i
  rfl

theorem get_two (p q : QubitPtr) : [p, q].get = ![p, q] := by
  funext i
  fin_cases i <;> rfl

/-- The trace over two qubits first. -/
theorem traceAll_range {n : ℕ} {a b : QubitPtr} (hab : a ≠ b) (ha : a < n)
    (hb : b < n) (F : (QubitPtr → Bool × Bool) → ℂ) :
    traceAll (List.range n) F =
      traceAll (((List.range n).erase b).erase a) (traceOut a (traceOut b F)) := by
  have hperm : (List.range n).Perm (b :: a :: ((List.range n).erase b).erase a) :=
    (List.perm_cons_erase (List.mem_range.mpr hb)).trans
      ((List.perm_cons_erase ((List.mem_erase_of_ne hab).mpr
        (List.mem_range.mpr ha))).cons b)
  exact traceAll_perm hperm F

/-- `MeasureBell` on two local qubits when none of its four calls fails. -/
theorem measureBell_eq {w₁ w₂ w₃ w₄ : QStateRegistry} {a c : QubitPtr}
    {drawA drawB : Bool} {m1 m2 : ℤ}
    (hlocal : ∀ q ∈ [a, c], q < w.numHandles ∧ w.IsLocal node q)
    (h₁ : w.apply node (.builtin .CNOT) [a, c] = (.ok true, w₁))
    (h₂ : w₁.apply node (.builtin .H) [a] = (.ok true, w₂))
    (h₃ : w₂.measure node a .Z drawA = (.ok m1, w₃))
    (h₄ : w₃.measure node c .Z drawB = (.ok m2, w₄)) :
    w.measureBell node a c drawA drawB = (.ok (m1, m2), w₄) := by
  obtain ⟨ha, hla⟩ := hlocal a List.mem_cons_self
  obtain ⟨hc, hlc⟩ := hlocal c (List.mem_cons_of_mem _ List.mem_cons_self)
  have hfound : ∀ {q}, w.IsLocal node q → w.getLocation q ≠ .lost := fun hl he => by
    rw [IsLocal, he] at hl
    cases hl
  rw [measureBell, if_neg (not_or.mpr ⟨not_le.mpr ha, not_le.mpr hc⟩),
    if_neg (hfound hla), if_neg (hfound hlc),
    if_neg (not_or.mpr ⟨not_not.mpr hla, not_not.mpr hlc⟩), h₁, andThen,
    if_neg (by decide), h₂, andThen, if_neg (by decide), h₃, andThen, h₄, andThen]

/-- What `MeasureBell` does to the global state, for a result that is possible. -/
theorem Inv.measureBell_global (h : w.Inv) (hall : w.AllSound b)
    {a c : QubitPtr} (hac : a ≠ c)
    (hlocal : ∀ q ∈ [a, c], q < w.numHandles ∧ w.IsLocal node q) {m1 m2 : Bool}
    (hp : w.bellProb node a c m1 m2 ≠ 0) :
    ∃ w', w.measureBell node a c m1 m2 = (.ok (m1.toNat, m2.toNat), w') ∧
      w.Stays w' b ∧ traceOut a (traceOut c (globalOf QState.kernel w')) =
        fun z => 1 / w.bellProb node a c m1 m2 *
          contractPair (outerPair (bell m1 m2)) a c (globalOf QState.kernel w) z := by
  have ha := hlocal a List.mem_cons_self
  have hc := hlocal c (List.mem_cons_of_mem _ List.mem_cons_self)
  have hCNOT := show QGateKind.CNOT ≠ .Custom by decide
  have hH := show QGateKind.H ≠ .Custom by decide
  obtain ⟨w₁, hok₁, h₁, hglobal₁⟩ := h.apply_global hall hCNOT rfl
    [a, c] rfl (List.cons_ne_nil _ _) (by simpa using hac) hlocal
  obtain ⟨w₂, hok₂, h₂, hglobal₂⟩ := h₁.inv.apply_global h₁.all hH rfl [a] rfl
    (List.cons_ne_nil _ _) (List.nodup_singleton a)
    (fun q hq => List.mem_singleton.mp hq ▸ h₁.isLocal ha)
  have h₁₂ := h₁.trans h₂
  have hrot : w.rotated node a c = w₂ := by
    rw [rotated, hok₁]
    exact congrArg Prod.snd hok₂
  rw [bellProb, hrot] at hp ⊢
  obtain ⟨hp₁, hp₂⟩ := mul_ne_zero_iff.mp hp
  obtain ⟨w₃, hok₃, h₃, htrace, hglobal₃⟩ :=
    h₂.inv.measure_global h₂.all (h₁₂.isLocal ha) hp₁
  rw [hok₃] at hp₂ ⊢
  obtain ⟨w₄, hok₄, h₄, htrace', hglobal₄⟩ :=
    h₃.inv.measure_global h₃.all ((h₁₂.trans h₃).isLocal hc) hp₂
  set f := measuredTensor b .Z m1 a
  set g := measuredTensor b .Z m2 c
  have hf : Ignores c f := measuredTensor_ignores b .Z m1 hac.symm
  set p₁ := w₂.outcomeProb a .Z m1 with hp₁'
  set p₂ := w₃.outcomeProb c .Z m2 with hp₂'
  have hC := contract_bell hac m1 m2 rfl rfl (globalOf QState.kernel w)
  have hcomb : contract (outer (eigenvector .Z m1)) a (globalOf QState.kernel w₂) =
      contract (outer (eigenvector .Z m1)) a (actOn (conjBy (matrixH.kernel 1)) ![a]
        (actOn (conjBy (matrixCNOT.kernel 2)) ![a, c] (globalOf QState.kernel w))) := by
    rw [hglobal₂, hglobal₁, get_one, get_two]
    rfl
  rw [← hcomb] at hC
  set C := contractPair (outerPair (bell m1 m2)) a c (globalOf QState.kernel w)
  have hglobal₃' : globalOf QState.kernel w₃ = fun z => 1 / p₁ * contract
      (outer (eigenvector .Z m1)) a (globalOf QState.kernel w₂) z * f z := by
    rw [hglobal₃]
    exact funext fun z => mul_comm _ _
  have hrest : globalOf QState.kernel w₄ =
      fun z => g z * (f z * (1 / (p₁ * p₂) * C z)) := by
    rw [hglobal₄]
    funext z
    rw [hglobal₃', contract_mul z (hf z), contract_smul, hC]
    field_simp
  refine ⟨w₄, measureBell_eq hlocal hok₁ hok₂ hok₃ hok₄, (h₁₂.trans h₃).trans h₄, ?_⟩
  have hignores := contractPair_ignores hac (outerPair (bell m1 m2))
    (globalOf QState.kernel w)
  rw [hrest, traceOut_mul (hf.mul
    ((ignores_const c _).mul hignores.2)), htrace']
  simp only [one_mul]
  rw [traceOut_mul ((ignores_const a _).mul hignores.1), htrace]
  simp only [one_mul]
  rfl

theorem traceAll_smul (l : List QubitPtr) (k : ℂ)
    (F : (QubitPtr → Bool × Bool) → ℂ) :
    traceAll l (fun z => k * F z) = fun z => k * traceAll l F z := by
  simp only [mul_comm k]
  exact traceAll_mul (fun q _ => ignores_const q k) F

/-- The two bits are the parities of `X ⊗ X` and of `Z ⊗ Z`. -/
theorem Inv.measureBell_reports (h : w.Inv) (hall : w.AllSound b)
    {a c : QubitPtr} (hac : a ≠ c)
    (hlocal : ∀ q ∈ [a, c], q < w.numHandles ∧ w.IsLocal node q) {m1 m2 : Bool}
    (hp : w.bellProb node a c m1 m2 ≠ 0) :
    ∃ w', w.measureBell node a c m1 m2 = (.ok (m1.toNat, m2.toNat), w') ∧
      w.Stays w' b ∧ w.Reports w' (w.bellProb node a c m1 m2) m2 m1 a c := by
  obtain ⟨w', hok, hstays, hrest⟩ := h.measureBell_global hall hac hlocal hp
  have ha := (hlocal a List.mem_cons_self).1
  have hc := (hlocal c (List.mem_cons_of_mem _ List.mem_cons_self)).1
  have hone := congrFun (hstays.inv.traceAll_globalOf fun s p hp' =>
    (hstays.all s p hp').1) fun _ => default
  rw [hstays.handles, traceAll_range hac ha hc, hrest,
    ← jointRest_eq w m2 m1 hac, traceAll_smul] at hone
  have hprob : w.bellProb node a c m1 m2 = w.jointProb m2 m1 a c := by
    rw [jointProb, traceAll_range hac ha hc, ← jointRest]
    field_simp at hone
    exact hone.symm
  refine ⟨w', hok, hstays, hprob, ?_⟩
  rw [hrest, ← hprob, jointRest_eq w m2 m1 hac]

/-- `MeasureBell` returns a possible result `(m1, m2)` with the probability of
finding the parity `m1` of `Z ⊗ Z` and `m2` of `X ⊗ X`, and leaves the other qubits
in the state conditioned on that, exactly when the exchange of the two parities
makes no difference to the other qubits. -/
theorem measureBell_reports_iff
    (h : Reachable (fun w op => w.KetOp op ∧ w.UnitaryOp op) w) {a c : QubitPtr}
    (hac : a ≠ c) (hlocal : ∀ q ∈ [a, c], q < w.numHandles ∧ w.IsLocal node q)
    {m1 m2 : Bool} (hp : w.bellProb node a c m1 m2 ≠ 0) :
    ∃ w', w.measureBell node a c m1 m2 = (.ok (m1.toNat, m2.toNat), w') ∧
      (w.Reports w' (w.bellProb node a c m1 m2) m1 m2 a c ↔
        w.jointRest m1 m2 a c = w.jointRest m2 m1 a c) := by
  obtain ⟨hinv, hall⟩ := reachable_sound h
  obtain ⟨w', hok, -, hr⟩ := hinv.measureBell_reports hall hac hlocal hp
  have ha := (hlocal a List.mem_cons_self).1
  have hc := (hlocal c (List.mem_cons_of_mem _ List.mem_cons_self)).1
  refine ⟨w', hok, fun hdoc => ?_, fun hsame => ?_⟩
  · have hrest := hdoc.remaining.symm.trans hr.remaining
    rw [← hdoc.prob, ← hr.prob] at hrest
    funext z
    exact mul_left_cancel₀ (one_div_ne_zero hp) (congrFun hrest z)
  · have hprob : w.jointProb m1 m2 a c = w.jointProb m2 m1 a c := by
      rw [jointProb, traceAll_range hac ha hc, ← jointRest, hsame, jointRest,
        ← traceAll_range hac ha hc, ← jointProb]
    exact ⟨hr.prob.trans hprob.symm, by rw [hr.remaining, hprob, hsame]⟩

/-- Some result of a measurement is possible. -/
theorem Inv.exists_outcome (h : w.Inv) (hall : w.AllSound b) {q : QubitPtr}
    (hq : q < w.numHandles) (basis : Basis) : ∃ o, w.outcomeProb q basis o ≠ 0 := by
  have hwf := (hall.valueOf (h.states_of_handle hq)).1
  obtain ⟨r, -, -, hpos, -⟩ := QState.measure_ok hwf (h.index_lt hq) basis true
  exact ⟨r.outcome, hpos⟩

/-- Some result of `MeasureBell` is possible. -/
theorem Inv.exists_bellProb (h : w.Inv) (hall : w.AllSound b) {a c : QubitPtr}
    (hac : a ≠ c) (hlocal : ∀ q ∈ [a, c], q < w.numHandles ∧ w.IsLocal node q) :
    ∃ m1 m2, w.bellProb node a c m1 m2 ≠ 0 := by
  have ha := hlocal a List.mem_cons_self
  have hc := hlocal c (List.mem_cons_of_mem _ List.mem_cons_self)
  have hCNOT := show QGateKind.CNOT ≠ .Custom by decide
  have hH := show QGateKind.H ≠ .Custom by decide
  obtain ⟨w₁, hok₁, h₁, -⟩ := h.apply_global hall hCNOT rfl
    [a, c] rfl (List.cons_ne_nil _ _) (by simpa using hac) hlocal
  obtain ⟨w₂, hok₂, h₂, -⟩ := h₁.inv.apply_global h₁.all hH rfl [a] rfl
    (List.cons_ne_nil _ _) (List.nodup_singleton a)
    (fun q hq => List.mem_singleton.mp hq ▸ h₁.isLocal ha)
  have hrot : w.rotated node a c = w₂ := by
    rw [rotated, hok₁]
    exact congrArg Prod.snd hok₂
  have h₁₂ := h₁.trans h₂
  obtain ⟨m1, hm1⟩ := h₂.inv.exists_outcome h₂.all (h₁₂.isLocal ha).1 .Z
  obtain ⟨w₃, hok₃, h₃, -⟩ := h₂.inv.measure_global h₂.all (h₁₂.isLocal ha) hm1
  obtain ⟨m2, hm2⟩ := h₃.inv.exists_outcome h₃.all
    ((h₁₂.trans h₃).isLocal hc).1 .Z
  refine ⟨m1, m2, ?_⟩
  rw [bellProb, hrot, hok₃]
  exact mul_ne_zero hm1 hm2

/-! ## A Bell pair whose parities differ -/

/-- The global state of two fresh qubits. -/
theorem Inv.globalOf_fresh (h : w.Inv) (htwo : w.numHandles = 2)
    (hne : (w.qubits 0).stateId ≠ (w.qubits 1).stateId)
    (hall : AllStates (fun v => QState.create 1 b = .ok v) w) :
    globalOf QState.kernel w =
      density fun x => if x 0 = false ∧ x 1 = false then 1 else 0 := by
  have hlt : ∀ q : QubitPtr, q < 2 → q = 0 ∨ q = 1 := fun q hq => by
    rcases Nat.lt_succ_iff_lt_or_eq.mp hq with hq | hq
    · exact .inl (Nat.lt_one_iff.mp hq)
    · exact .inr hq
  have hreg : ∀ q < w.numHandles, w.states (w.qubits q).stateId ≠ none := fun q hq =>
    h.states_of_handle hq
  -- a registered state has a member, which is one of the two
  have hregistered : w.registered = {(w.qubits 0).stateId, (w.qubits 1).stateId} := by
    ext s
    rw [h.mem_registered, mem_insert, mem_singleton]
    constructor
    · intro hs
      obtain ⟨p, hp⟩ := Option.ne_none_iff_exists'.mp hs
      have hlen : 0 < (w.order s).length := by
        rw [h.length_order hs, valueOf, hp]
        exact h.populated s p hp
      obtain ⟨q, hq⟩ := List.exists_mem_of_length_pos hlen
      obtain ⟨hqlt, rfl⟩ := h.mem_qubitsOf_iff.mp (mem_sortByIndex.mp hq)
      rcases hlt q (htwo ▸ hqlt) with rfl | rfl
      · exact .inl rfl
      · exact .inr rfl
    · rintro (rfl | rfl)
      · exact hreg 0 (htwo ▸ Nat.two_pos)
      · exact hreg 1 (htwo ▸ Nat.one_lt_two)
  have hfactor : ∀ q < 2, (∀ r < 2, r ≠ q → (w.qubits r).stateId ≠ (w.qubits q).stateId) →
      factorOf QState.kernel w (w.qubits q).stateId =
        density fun x => if x q = false then 1 else 0 := by
    intro q hq hother
    have hqn : q < w.numHandles := htwo ▸ hq
    have horder : w.order (w.qubits q).stateId = [q] := by
      have hmem : ∀ r, r ∈ w.order (w.qubits q).stateId ↔ r = q := fun r => by
        rw [mem_sortByIndex, h.mem_qubitsOf_iff, htwo]
        constructor
        · rintro ⟨hr, hs⟩
          by_contra hrq
          exact hother r hr hrq hs
        · rintro rfl
          exact ⟨hq, rfl⟩
      exact List.perm_singleton.mp ((List.perm_ext_iff_of_nodup (h.nodup_order _)
        (List.nodup_singleton q)).mpr fun r => by rw [hmem, List.mem_singleton])
    have hkernel := QState.create_kernel one_ne_zero (hall.valueOf (hreg q hqn))
    rw [h.factorOf_eq QState.kernel (hreg q hqn), horder, hkernel]
    funext z
    simp only [density, Nat.lt_one_iff, forall_eq]
    rfl
  funext z
  rw [globalOf, hregistered, prod_pair hne,
    hfactor 0 Nat.two_pos (fun r hr hr0 => ?_), hfactor 1 Nat.one_lt_two (fun r hr hr1 => ?_),
    ← density_mul]
  · congr 2
    funext x
    by_cases h0 : x 0 = false <;> by_cases h1 : x 1 = false <;> simp [h0, h1]
  · rcases hlt r hr with rfl | rfl
    · exact hne
    · exact absurd rfl hr1
  · rcases hlt r hr with rfl | rfl
    · exact absurd rfl hr0
    · exact hne.symm

/-- `H`, `CNOT` and `Z` turn `|00⟩` into the Bell state with the parities `true` of
`X ⊗ X` and `false` of `Z ⊗ Z`. -/
theorem gates_bell {U V Z : CMat} (hU : matrixOf .CNOT = .ok U) (hV : matrixOf .H = .ok V)
    (hZ : matrixOf .Z = .ok Z) :
    actOn (Z.kernel 1) ![(0 : QubitPtr)] (actOn (U.kernel 2) ![0, 1]
      (actOn (V.kernel 1) ![0] fun x => if x 0 = false ∧ x 1 = false then 1 else 0)) =
      fun x => bell true false (x 0) (x 1) := by
  obtain rfl := Except.ok.inj hU
  obtain rfl := Except.ok.inj hV
  obtain rfl := Except.ok.inj hZ
  have h01 : (0 : QubitPtr) ≠ 1 := Nat.zero_ne_one
  funext x
  simp only [actOn_one, actOn_two _ h01, kernel_one, kernel_two, Fintype.sum_bool,
    Function.update_self, Function.update_of_ne h01, Function.update_of_ne h01.symm,
    Function.update_idem]
  cases x 0 <;> cases x 1 <;>
    simp [matrixH, matrixCNOT, matrixZ, makeMatrix, bell, sgn, invSqrt2]

/-- A registry with two qubits at a node in the Bell state with the parities `true` of
`X ⊗ X` and `false` of `Z ⊗ Z`. -/
theorem reachable_bell : ∃ w,
    Reachable (fun w op => w.KetOp op ∧ w.UnitaryOp op) w ∧
      (∀ q ∈ [0, 1], q < w.numHandles ∧ w.IsLocal 0 q) ∧ w.numHandles = 2 ∧
      globalOf QState.kernel w = density fun x => bell true false (x 0) (x 1) := by
  obtain ⟨w₀, hrun, hinv, -, htwo, hlocal, hne, hfresh⟩ := reachable_fresh_pair .Ket
    (P := fun w op => w.KetOp op ∧ w.UnitaryOp op) ⟨⟨trivial, trivial⟩, trivial⟩
    fun w hb => ⟨⟨trivial, hb⟩, trivial⟩
  obtain ⟨-, hall⟩ := reachable_sound hrun
  have hH := show QGateKind.H ≠ .Custom by decide
  have hCNOT := show QGateKind.CNOT ≠ .Custom by decide
  have hZ := show QGateKind.Z ≠ .Custom by decide
  have hunit : ∀ {kind : QGateKind} {n : ℕ}, kind ≠ .Custom → n = kind.arity →
      ∀ U, (QGate.builtin kind).matrix = .ok U → U.Unitary n := by
    intro kind n hk hn U hU
    obtain ⟨V, hV, hVunit⟩ := QGate.builtin_unitary hk
    rw [hU, Except.ok.injEq] at hV
    exact hn ▸ hV ▸ hVunit
  have hfirst : ∀ q ∈ [(0 : QubitPtr)], q < w₀.numHandles ∧ w₀.IsLocal 0 q := fun q hq =>
    hlocal q (List.mem_cons.mpr (.inl (List.mem_singleton.mp hq)))
  obtain ⟨w₁, hok₁, h₁, hglobal₁⟩ := hinv.apply_global hall hH rfl [0] rfl
    (List.cons_ne_nil _ _) (List.nodup_singleton 0) hfirst
  obtain ⟨w₂, hok₂, h₂, hglobal₂⟩ := h₁.inv.apply_global h₁.all hCNOT rfl [0, 1] rfl
    (List.cons_ne_nil _ _) (by decide) (fun q hq => h₁.isLocal (hlocal q hq))
  obtain ⟨w₃, hok₃, h₃, hglobal₃⟩ := h₂.inv.apply_global h₂.all hZ rfl [0] rfl
    (List.cons_ne_nil _ _) (List.nodup_singleton 0)
    (fun q hq => (h₁.trans h₂).isLocal (hfirst q hq))
  have hstays := (h₁.trans h₂).trans h₃
  have hstep : ∀ {w w' : QStateRegistry} {kind : QGateKind} {qs : List QubitPtr},
      w.apply 0 (.builtin kind) qs = (.ok true, w') →
      w.step (.apply 0 (.builtin kind) qs) = some w' := fun hok => by
    rw [step, exec, hok]
    rfl
  refine ⟨w₃, ((hrun.tail
    ⟨.apply 0 (.builtin .H) [0], ⟨⟨trivial, trivial⟩, hunit hH rfl⟩, hstep hok₁⟩).tail
    ⟨.apply 0 (.builtin .CNOT) [0, 1], ⟨⟨trivial, trivial⟩, hunit hCNOT rfl⟩,
      hstep hok₂⟩).tail
    ⟨.apply 0 (.builtin .Z) [0], ⟨⟨trivial, trivial⟩, hunit hZ rfl⟩, hstep hok₃⟩,
    fun q hq => hstays.isLocal (hlocal q hq), hstays.handles.trans htwo, ?_⟩
  rw [hglobal₃, hglobal₂, hglobal₁, hinv.globalOf_fresh htwo hne hfresh, get_one, get_two]
  simp only [List.length_cons, List.length_nil, actOn_density]
  exact congrArg density (gates_bell rfl rfl rfl)

/-- On such a pair the result is not the one that is documented: the documented parities
are never found together. -/
theorem measureBell_not_documented : ∃ (w w' : QStateRegistry) (m1 m2 : Bool),
    Reachable (fun w op => w.KetOp op ∧ w.UnitaryOp op) w ∧
      (∀ q ∈ [0, 1], q < w.numHandles ∧ w.IsLocal 0 q) ∧
      w.bellProb 0 0 1 m1 m2 ≠ 0 ∧
      w.measureBell 0 0 1 m1 m2 = (.ok (m1.toNat, m2.toNat), w') ∧
      w.jointProb m1 m2 0 1 = 0 ∧
      ¬ w.Reports w' (w.bellProb 0 0 1 m1 m2) m1 m2 0 1 := by
  obtain ⟨w, hrun, hlocal, htwo, hglobal⟩ := reachable_bell
  obtain ⟨hinv, hall⟩ := reachable_sound hrun
  have h01 : (0 : QubitPtr) ≠ 1 := Nat.zero_ne_one
  have hjoint : ∀ zz xx, (xx, zz) ≠ (true, false) → w.jointProb zz xx 0 1 = 0 := by
    intro zz xx hparity
    rw [jointProb, htwo, traceAll_range h01 Nat.two_pos Nat.one_lt_two, ← jointRest,
      jointRest_eq w zz xx h01, hglobal]
    have hzero := fun z => contractPair_overlap h01 (bell xx zz) (bell true false) z
    simp only [bell_overlap hparity, mul_zero] at hzero
    exact hzero _
  obtain ⟨m1, m2, hp⟩ := hinv.exists_bellProb hall h01 hlocal
  obtain ⟨w', hok, -, hr⟩ := hinv.measureBell_reports hall h01 hlocal hp
  have hparity : (m1, m2) = (true, false) := by
    by_contra hne
    exact hp (hr.prob.trans (hjoint m2 m1 hne))
  obtain ⟨rfl, rfl⟩ := Prod.mk.inj hparity
  have hnone := hjoint true false (by decide)
  exact ⟨w, w', true, false, hrun, hlocal, hp, hok, hnone, fun hdoc =>
    hp (hdoc.prob.trans hnone)⟩

/-- The equivalence on such a pair. -/
theorem measureBell_reports_iff_bell : ∃ (w w' : QStateRegistry) (m1 m2 : Bool),
    w.bellProb 0 0 1 m1 m2 ≠ 0 ∧
      w.measureBell 0 0 1 m1 m2 = (.ok (m1.toNat, m2.toNat), w') ∧
      (w.Reports w' (w.bellProb 0 0 1 m1 m2) m1 m2 0 1 ↔
        w.jointRest m1 m2 0 1 = w.jointRest m2 m1 0 1) := by
  obtain ⟨w, hrun, hlocal, -, -⟩ := reachable_bell
  obtain ⟨hinv, hall⟩ := reachable_sound hrun
  obtain ⟨m1, m2, hp⟩ := hinv.exists_bellProb hall Nat.zero_ne_one hlocal
  obtain ⟨w', hok, hiff⟩ := measureBell_reports_iff hrun Nat.zero_ne_one hlocal hp
  exact ⟨w, w', m1, m2, hp, hok, hiff⟩

end Q2NS.QStateRegistry
