import Q2NS.Groups
import Q2NS.Teleport.Sessions

/-!
# The quantum side of a teleportation

What `DoSourceStart` leaves of the state it is given, and what the correction at
the sink makes of it.
-/

namespace Q2NS

open NamedTensor QuadForm Loop Finset

/-! ## Tensors -/

namespace Teleport

variable {ι : Type} [DecidableEq ι]

/-- One leg in the pure state with the amplitudes `α`. -/
noncomputable def pure (α : Bool → ℂ) (q : ι) : (ι → Bool × Bool) → ℂ :=
  density fun x => α (x q)

/-- What a sink receives of `α` when the Bell measurement has given `m1, m2`. -/
noncomputable def received (α : Bool → ℂ) (m1 m2 b : Bool) : ℂ :=
  sgn (m1 && (b ^^ m2)) * α (b ^^ m2)

/-- The Bell vector of the outcomes against the qubit and one half of a pair. -/
theorem contractPair_pair (α : Bool → ℂ) (m1 m2 : Bool) {p a c : ι} (hpa : p ≠ a)
    (hpc : p ≠ c) (hac : a ≠ c) :
    contractPair (outerPair (bell m1 m2)) p a (density fun x =>
      α (x p) * bell false false (x a) (x c)) =
      fun z => 1 / 4 * pure (received α m1 m2) c z := by
  have hvector : contractPair (fun b d => starRingEnd ℂ (bell m1 m2 b d)) p a
      (fun x : ι → Bool => α (x p) * bell false false (x a) (x c)) =
      fun x => 1 / 2 * received α m1 m2 (x c) := by
    funext x
    have hhalf := invSqrt2_mul_self
    simp only [contractPair, Function.update_self,
      Function.update_of_ne hpa, Function.update_of_ne hpc.symm,
      Function.update_of_ne hac.symm, Fintype.sum_bool, bell, received]
    cases m1 <;> cases m2 <;> cases x c <;> simp [sgn, conj_invSqrt2] <;>
      first
      | linear_combination α true * hhalf
      | linear_combination α false * hhalf
  rw [contractPair_density, hvector]
  funext z
  simp only [density, pure, map_mul, map_div₀, map_one]
  simp only [Complex.conj_ofNat]
  ring

theorem traceAll_pure (α : Bool → ℂ) (q : ι) (z : ι → Bool × Bool) :
    traceAll [q] (pure α q) z = ∑ b, α b * starRingEnd ℂ (α b) := by
  simp only [traceAll, traceOut, pure, density, rowOf, colOf, Function.update_self]

/-- What a sink receives is normalised. -/
theorem sum_received (α : Bool → ℂ) (m1 m2 : Bool) :
    ∑ b, received α m1 m2 b * starRingEnd ℂ (received α m1 m2 b) =
      ∑ b, α b * starRingEnd ℂ (α b) := by
  rw [Fintype.sum_bool, Fintype.sum_bool]
  cases m1 <;> cases m2 <;> simp [received, sgn] <;> ring

theorem actOn_X_pure (β : Bool → ℂ) (q : QubitPtr) :
    actOn (conjBy (matrixX.kernel 1)) ![q] (pure β q) =
      pure (fun b => β (b ^^ true)) q := by
  rw [pure, actOn_density, actOn_matrixX]
  refine congrArg density (funext fun x => ?_)
  rw [AffineState.permuteBy, AffineState.flipBit, Function.update_self]

theorem actOn_Z_pure (β : Bool → ℂ) (q : QubitPtr) :
    actOn (conjBy (matrixZ.kernel 1)) ![q] (pure β q) = pure (fun b => sgn b * β b) q := by
  rw [pure, actOn_density, actOn_matrixZ]
  rfl

/-- `X` if the second bit is set, then `Z` if the first one is. -/
theorem received_corrected (α : Bool → ℂ) (m1 m2 b : Bool) :
    (if m1 then sgn b * (if m2 then received α m1 m2 (b ^^ true) else received α m1 m2 b)
      else if m2 then received α m1 m2 (b ^^ true) else received α m1 m2 b) = α b := by
  cases m1 <;> cases m2 <;> cases b <;> simp [received, sgn]

/-- `H` and `CNOT` on two qubits in `|0⟩`. -/
theorem actOn_pair {a c : QubitPtr} (hac : a ≠ c) :
    actOn (conjBy (matrixCNOT.kernel 2)) ![a, c]
        (actOn (conjBy (matrixH.kernel 1)) ![a]
          (density fun x => if x a = false ∧ x c = false then 1 else 0)) =
      density fun x => bell false false (x a) (x c) := by
  rw [actOn_density, actOn_density, actOn_matrixH, actOn_matrixCNOT _ hac]
  refine congrArg density (funext fun x => ?_)
  simp only [AffineState.permuteBy, AffineState.hadamard, Function.update_self,
    Function.update_of_ne hac, Function.update_of_ne hac.symm, bell]
  cases x a <;> cases x c <;> simp [sgn]

end Teleport

/-! ## The object that is given to every session -/

namespace QStateRegistry

variable {w w' : QStateRegistry} {p : StatePtr} {v : QState} {node : NodeId}
  {qs : List QubitPtr}

/-- Object `p` has value `v` and is registered under ids of `sids` only; new states
are made on its backend. -/
structure IdleBut (w : QStateRegistry) (p : StatePtr) (v : QState)
    (sids : List StateId) : Prop where
  backend : w.defaultBackend = v.backend
  lt : p < w.numObjects
  value : (w.objects p).value = v
  free : ∀ s, w.states s = some p → s ∈ sids

/-- Object `p` is at hand for `CreateQubit`. -/
abbrev Idle (w : QStateRegistry) (p : StatePtr) (v : QState) : Prop := w.IdleBut p v []

theorem Idle.free (h : w.Idle p v) (s : StateId) : w.states s ≠ some p := fun hp =>
  absurd (IdleBut.free h s hp) List.not_mem_nil

theorem IdleBut.newObject {sids : List StateId} (h : w.IdleBut p v sids) (u : QState) :
    (w.newObject u).2.IdleBut p v sids :=
  ⟨h.backend, Nat.lt_succ_of_lt h.lt,
    (congrArg StateObject.value (newObject_objects h.lt)).trans h.value, h.free⟩

theorem IdleBut.dropStates {sids : List StateId} (h : w.IdleBut p v sids) :
    (w.dropStates sids).Idle p v :=
  ⟨h.backend, h.lt, h.value, fun s hp =>
    absurd (h.free s (of_dropStates_states hp).2) (of_dropStates_states hp).1⟩

theorem IdleBut.addGroup {sids : List StateId} (h : w.IdleBut p v sids) {p' : StatePtr}
    (hne : p' ≠ p) (qs : List QubitPtr) : (w.addGroup p' qs).IdleBut p v sids := by
  refine ⟨h.backend, h.lt, ?_, fun s hp => ?_⟩
  · rw [addGroup_value]
    exact h.value
  · have hupd : Function.update w.states w.nextStateId (some p') s = some p := hp
    by_cases hs : s = w.nextStateId
    · rw [hs, Function.update_self, Option.some.injEq] at hupd
      exact absurd hupd hne
    · rw [Function.update_of_ne hs] at hupd
      exact h.free s hupd

theorem IdleBut.setValue {sids : List StateId} (h : w.IdleBut p v sids) {p' : StatePtr}
    (hne : p' ≠ p) (u : QState) : (w.setValue p' u).IdleBut p v sids := by
  refine ⟨h.backend, h.lt, ?_, fun s hp => h.free s hp⟩
  have hobj : (w.setValue p' u).objects p = w.objects p :=
    Function.update_of_ne hne.symm _ _
  rw [hobj]
  exact h.value

theorem IdleBut.weaken {sids sids' : List StateId} (h : w.IdleBut p v sids)
    (hsub : ∀ s ∈ sids, s ∈ sids') : w.IdleBut p v sids' :=
  ⟨h.backend, h.lt, h.value, fun s hp => hsub s (h.free s hp)⟩

theorem IdleBut.merged {sids : List StateId} (h : w.IdleBut p v sids) (u : QState) :
    (w.merged sids u).Idle p v :=
  (h.newObject u).dropStates.addGroup h.lt.ne' _

theorem Idle.measured (h : w.Idle p v) (s : StateId) (q : QubitPtr)
    (r : MeasureResult QState) : (w.measured s q r).Idle p v := by
  have hbut : w.IdleBut p v [s] := h.weaken fun _ hs => absurd hs List.not_mem_nil
  have hfirst := (hbut.newObject r.measured).dropStates.addGroup h.lt.ne' [q]
  rw [QStateRegistry.measured]
  split_ifs
  · exact (hfirst.newObject r.survivors).addGroup (Nat.lt_succ_of_lt h.lt).ne' _
  · exact hfirst

/-- A gate that brings the object's state together with another one releases it. -/
theorem IdleBut.apply_releases {a b : QubitPtr}
    (h : w.IdleBut p v [(w.qubits a).stateId]) (hw : w.Inv) {gate : QGate}
    (hne : (w.qubits a).stateId ≠ (w.qubits b).stateId)
    (hok : w.apply node gate [a, b] = (.ok true, w')) : w'.Idle p v := by
  rcases hw.apply_cases node gate [a, b] with ⟨-, hf⟩ | ⟨-,
    ⟨s, rest, e, -, -, he⟩ | ⟨w₁, p₁, hg, -, ⟨e, -, he⟩ | ⟨u, -, hcall⟩⟩⟩
  · rw [hf] at hok
    cases hok
  · rw [he] at hok
    cases hok
  · rw [he] at hok
    cases hok
  · rw [hcall] at hok
    obtain rfl := (Prod.mk.inj hok).2
    cases hg with
    | same hall hp =>
        exact absurd ((hall a (by simp)).trans (hall b (by simp)).symm) hne
    | @several s rest m hs hm =>
        have hbut : w.IdleBut p v (s :: rest) :=
          ⟨h.backend, h.lt, h.value, fun s' hp => (hs.mem s').mpr
            ⟨a, List.mem_cons_self, (List.mem_singleton.mp (h.free s' hp)).symm⟩⟩
        exact (hbut.merged m).setValue h.lt.ne' u

/-- A gate on other states leaves the object alone. -/
theorem IdleBut.apply {sids : List StateId} (h : w.IdleBut p v sids) (hw : w.Inv)
    (node : NodeId) (gate : QGate) (hout : ∀ q ∈ qs, (w.qubits q).stateId ∉ sids) :
    (w.apply node gate qs).2.IdleBut p v sids := by
  rcases hw.apply_cases node gate qs with ⟨-, hf⟩ | ⟨⟨hne, -⟩,
    ⟨s, rest, e, -, -, he⟩ | ⟨w₁, p₁, hg, -, hcases⟩⟩
  · rw [hf]
    exact h
  · rw [he]
    exact h
  · have hgathered : w₁.IdleBut p v sids ∧ p₁ ≠ p := by
      cases hg with
      | @same s p₁ hall hp =>
          refine ⟨h, fun he => ?_⟩
          obtain ⟨q, hq⟩ := List.exists_mem_of_ne_nil qs hne
          exact hout q hq (hall q hq ▸ h.free s (he ▸ hp))
      | @several s rest m hs hm =>
          have hdrop : ((w.newObject m).2.dropStates (s :: rest)).IdleBut p v sids :=
            ⟨h.backend, Nat.lt_succ_of_lt h.lt, (h.newObject m).value,
              fun s' hp => h.free s' (of_dropStates_states hp).2⟩
          exact ⟨hdrop.addGroup h.lt.ne' _, h.lt.ne'⟩
    rcases hcases with ⟨e, -, he⟩ | ⟨u, -, hok⟩
    · rw [he]
      exact hgathered.1
    · rw [hok]
      exact hgathered.1.setValue hgathered.2 u

theorem Idle.measure (h : w.Idle p v) (hw : w.Inv) (node : NodeId) (q : QubitPtr)
    (basis : Basis) (draw : Bool) : (w.measure node q basis draw).2.Idle p v := by
  rcases hw.measure_cases node q basis draw with ⟨-, hf⟩ | ⟨-, p₁, u, hp, -, hcases⟩
  · rw [hf]
    exact h
  have hne : p₁ ≠ p := fun he => h.free _ (he ▸ hp)
  have hset : (w.setValue p₁ u).Idle p v := h.setValue hne u
  rcases hcases with ⟨e, -, he⟩ | ⟨r, -, -, -, hok⟩
  · rw [he]
    exact hset
  · rw [hok]
    exact hset.measured _ q r

/-- A call after one that keeps the invariant and the object. -/
theorem andThen_idle {α β : Type} {x : Except Exit α × QStateRegistry}
    {f : α → QStateRegistry → Except Exit β × QStateRegistry}
    (hinv : x.2.Inv) (hx : x.2.Idle p v)
    (hf : ∀ a (w' : QStateRegistry), w'.Inv → w'.Idle p v → (f a w').2.Idle p v) :
    (andThen x f).2.Idle p v := by
  obtain ⟨a, w'⟩ := x
  cases a with
  | error e => exact hx
  | ok a => exact hf a w' hinv hx

/-- A Bell measurement that brings the object's state together with another one. -/
theorem IdleBut.measureBell {a b : QubitPtr}
    (h : w.IdleBut p v [(w.qubits a).stateId]) (hw : w.Inv)
    (hne : (w.qubits a).stateId ≠ (w.qubits b).stateId)
    (hlocal : ∀ q ∈ [a, b], q < w.numHandles ∧ w.IsLocal node q)
    (hok : w.apply node (.builtin .CNOT) [a, b] = (.ok true, w')) (drawA drawB : Bool) :
    (w.measureBell node a b drawA drawB).2.Idle p v := by
  obtain ⟨ha, hla⟩ := hlocal a List.mem_cons_self
  obtain ⟨hb, hlb⟩ := hlocal b (List.mem_cons_of_mem _ List.mem_cons_self)
  have hfound : ∀ {q}, w.IsLocal node q → w.getLocation q ≠ .lost := fun hl he => by
    rw [IsLocal, he] at hl
    cases hl
  have hinv := (hw.apply_keeps node (.builtin .CNOT) [a, b]).inv
  have hidle := h.apply_releases hw hne hok
  rw [hok] at hinv
  rw [QStateRegistry.measureBell, if_neg (not_or.mpr ⟨not_le.mpr ha, not_le.mpr hb⟩),
    if_neg (hfound hla), if_neg (hfound hlb),
    if_neg (not_or.mpr ⟨not_not.mpr hla, not_not.mpr hlb⟩), hok, andThen,
    if_neg (by decide)]
  refine andThen_idle (hinv.apply_keeps _ _ _).inv
    (hidle.apply hinv _ _ fun _ _ => List.not_mem_nil) fun ok w₂ h₂ hi₂ => ?_
  split_ifs
  · exact hi₂
  · refine andThen_idle (h₂.measure_keeps _ _ _ _).inv (hi₂.measure h₂ _ _ _ _)
      fun _ w₃ h₃ hi₃ => ?_
    exact andThen_idle (h₃.measure_keeps _ _ _ _).inv (hi₃.measure h₃ _ _ _ _)
      fun _ w₄ _ hi₄ => hi₄

/-! ## The source -/

/-- `TeleportationApp::DoSourceStart` on the registry: the given state is adopted, a
pair is made, its second half leaves over the channel `chan`, and the other two
qubits are measured. -/
noncomputable def doSourceStart (w : QStateRegistry) (node : NodeId)
    (teleportState : StatePtr) (chan : ChannelId) (drawA drawB : Bool) :
    Except Exit (QubitPtr × ℤ × ℤ) × QStateRegistry :=
  andThen (w.createQubitFrom node teleportState) fun psi w =>
    andThen (w.createBellPair node) fun halves w =>
      andThen ((w.setLocationChannel halves.2 chan).measureBell node
        (psi.getD w.numHandles) halves.1 drawA drawB) fun bits w =>
          (.ok (halves.2, bits), w)

/-- The amplitudes of a one-qubit vector. -/
def amplitude (psi : Ket) (b : Bool) : ℂ := psi.eval fun _ => b

theorem IdleBut.withQubit (h : w.Idle p v) (node : NodeId) :
    (w.withQubit node p).IdleBut p v [w.nextStateId] := by
  refine ⟨h.backend, h.lt, ?_, fun s hp => ?_⟩
  · have hvalue := addGroup_value (w := w.addHandle node) p p [w.numHandles]
    exact hvalue.trans h.value
  · have hupd : Function.update w.states w.nextStateId (some p) s = some p := hp
    by_cases hs : s = w.nextStateId
    · exact List.mem_singleton.mpr hs
    · rw [Function.update_of_ne hs] at hupd
      exact absurd hupd (h.free s)

/-- The adopted qubit. -/
theorem groupAt_withQubit {psi : Ket} (h : w.Idle p (.ket psi))
    (hinv : Inv (w.withQubit node p)) (hn : psi.n = 1) (hnorm : psi.norm2 = 1) :
    (w.withQubit node p).GroupAt .Ket w.nextStateId {w.numHandles}
      (Teleport.pure (amplitude psi) w.numHandles) := by
  have hvalue : ((w.addHandle node).objects p).value = .ket psi := h.value
  have hgroup := @groupAt_addGroup (w.addHandle node) .Ket p [w.numHandles]
    (List.nodup_singleton _) hinv (by rw [hvalue]; exact hnorm) (by rw [hvalue]; rfl)
  refine ⟨hgroup.registered, hgroup.wellFormed, hgroup.backend, fun x => ?_,
    hgroup.factor.trans (funext fun z => ?_)⟩
  · exact (hgroup.members x).trans (by simp)
  · have hread : ∀ y : ℕ → Bool, psi.eval y = amplitude psi (y 0) := fun y =>
      psi.eval_dependsOn fun i hi => by
        have hi' : i < 1 := hn ▸ hi
        rw [Nat.lt_one_iff.mp hi']
    rw [hvalue, QState.kernel, density, hread, hread]
    rfl

/-- The pair before its gates. -/
theorem groupAt_withPair {node : NodeId} {b : QStateBackend} {v₂ : QState}
    (hinv : Inv (w.withPair node v₂)) (hv : QState.create 2 b = .ok v₂) :
    (w.withPair node v₂).GroupAt b w.nextStateId {w.numHandles, w.numHandles + 1}
      (density fun x => if x w.numHandles = false ∧ x (w.numHandles + 1) = false then 1
        else 0) := by
  obtain ⟨u, hu, hwf, -, hb⟩ := QState.create_ok two_ne_zero b
  obtain rfl := Except.ok.inj (hv.symm.trans hu)
  have hobj : ((((w.newObject v₂).2.addHandle node).addHandle node).objects
      w.numObjects).value = v₂ := congrArg StateObject.value (newObject_self v₂)
  have hgroup := @groupAt_addGroup (((w.newObject v₂).2.addHandle node).addHandle node)
    b w.numObjects [w.numHandles, w.numHandles + 1] (by simp) hinv
    (by rw [hobj]; exact hwf) (by rw [hobj]; exact hb)
  refine ⟨hgroup.registered, hgroup.wellFormed, hgroup.backend, fun x => ?_,
    hgroup.factor.trans (funext fun z => ?_)⟩
  · exact (hgroup.members x).trans (by simp)
  · have hground : ∀ y : ℕ → Bool, (∀ i < 2, y i = false) ↔ y 0 = false ∧ y 1 = false :=
      fun y => ⟨fun hy => ⟨hy 0 (by norm_num), hy 1 (by norm_num)⟩, fun hy i hi => by
        obtain rfl | rfl : i = 0 ∨ i = 1 := by omega
        · exact hy.1
        · exact hy.2⟩
    rw [hobj, QState.create_kernel two_ne_zero hv]
    simp only [hground]
    rfl

/-- `CreateBellPair` on the ket backend, next to an adopted object. -/
theorem Inv.createBellPair_group (hw : w.Inv) (hb : w.defaultBackend = .Ket)
    {sids : List StateId} (h : w.IdleBut p v sids) (hnew : w.nextStateId ∉ sids)
    (node : NodeId) :
    ∃ w', w.createBellPair node = (.ok (w.numHandles, w.numHandles + 1), w') ∧
      w.KeepsBut w' [] ∧ w'.IdleBut p v sids ∧
      (∀ q ∈ [w.numHandles, w.numHandles + 1], w'.IsLocal node q) ∧
      w'.GroupAt .Ket w.nextStateId {w.numHandles, w.numHandles + 1}
        (density fun x => bell false false (x w.numHandles) (x (w.numHandles + 1))) := by
  obtain ⟨v₂, hv₂, heq⟩ := hw.createBellPair_eq node
  have hkeeps := hw.createBellPair_keepsBut node
  rw [hb] at hv₂
  set w₂ := w.withPair node v₂ with hw₂
  have hinv₂ : w₂.Inv := (hw.withPair_keeps node (QState.create_numQubits hv₂)).inv
  have hlocal₂ := w.withPair_isLocal node v₂
  have hidle₂ : w₂.IdleBut p v sids := by
    have hnewObject := h.newObject v₂
    have hhandles : (((w.newObject v₂).2.addHandle node).addHandle node).IdleBut p v
        sids := ⟨hnewObject.backend, hnewObject.lt, hnewObject.value, hnewObject.free⟩
    exact hhandles.addGroup h.lt.ne' _
  have hg₂ := groupAt_withPair hinv₂ hv₂
  have hne : w.numHandles ≠ w.numHandles + 1 := (Nat.lt_succ_self _).ne
  have ha : ∀ q ∈ [w.numHandles], w₂.IsLocal node q := fun q hq =>
    hlocal₂ q (List.mem_singleton.mp hq ▸ List.mem_cons_self)
  obtain ⟨w₃, hok₃, hg₃⟩ := hinv₂.apply_group hg₂
    (show QGateKind.H ≠ .Custom by decide) rfl [w.numHandles] rfl
    (List.cons_ne_nil _ _) (List.nodup_singleton _) (by simp) ha
  have hinv₃ := (hinv₂.apply_keeps node (.builtin .H) [w.numHandles]).inv
  have hloc₃ := hinv₂.apply_getLocation node (.builtin .H) [w.numHandles]
  have hout₂ : ∀ q ∈ [w.numHandles], (w₂.qubits q).stateId ∉ sids := fun q hq => by
    rw [List.mem_singleton.mp hq, (hg₂.handle hinv₂ (by simp)).2]
    exact hnew
  have hidle₃ := hidle₂.apply hinv₂ node (.builtin .H) hout₂
  rw [hok₃] at hinv₃ hloc₃ hidle₃
  have hpair : ∀ q ∈ [w.numHandles, w.numHandles + 1],
      q ∈ ({w.numHandles, w.numHandles + 1} : Finset QubitPtr) := by simp
  obtain ⟨w₄, hok₄, hg₄⟩ := hinv₃.apply_group hg₃
    (show QGateKind.CNOT ≠ .Custom by decide) rfl [w.numHandles, w.numHandles + 1] rfl
    (List.cons_ne_nil _ _) (by simp) hpair fun q hq => (hloc₃ q).trans (hlocal₂ q hq)
  have hloc₄ := hinv₃.apply_getLocation node (.builtin .CNOT)
    [w.numHandles, w.numHandles + 1]
  have hout₃ : ∀ q ∈ [w.numHandles, w.numHandles + 1], (w₃.qubits q).stateId ∉ sids :=
    fun q hq => by
      rw [(hg₃.handle hinv₃ (hpair q hq)).2]
      exact hnew
  have hidle₄ := hidle₃.apply hinv₃ node (.builtin .CNOT) hout₃
  rw [hok₄] at hloc₄ hidle₄
  have hcall : w.createBellPair node = (.ok (w.numHandles, w.numHandles + 1), w₄) := by
    rw [heq, hok₃, andThen, hok₄, andThen]
  rw [hcall] at hkeeps
  refine ⟨w₄, hcall, hkeeps, hidle₄, fun q hq => ?_, ?_⟩
  · exact (hloc₄ q).trans ((hloc₃ q).trans (hlocal₂ q hq))
  · have htensor := Teleport.actOn_pair hne
    rw [get_one, get_two] at hg₄
    exact htensor ▸ hg₄

/-- A change of a location leaves every state alone. -/
theorem untouched_setLocation (w : QStateRegistry) (q : QubitPtr) (loc : Location)
    (s : StateId) : w.Untouched (w.setLocation q loc) s :=
  ⟨rfl, rfl, fun _ _ => rfl, fun _ _ => rfl⟩

theorem fst_notMem (n : ℕ) : n ∉ ({n + 1, n + 1 + 1} : Finset ℕ) := by
  simp only [mem_insert, mem_singleton]
  omega

/-- The second half of the pair is what is left. -/
theorem left_over (n : ℕ) :
    (({n} ∪ {n + 1, n + 1 + 1} : Finset ℕ).erase n).erase (n + 1) = {n + 1 + 1} := by
  ext x
  simp only [mem_erase, mem_union, mem_singleton, mem_insert]
  omega

/-- What a Bell measurement of the source's qubit and its half of the pair leaves. -/
theorem contract_source (α : Bool → ℂ) (k : ℂ) (m1 m2 : Bool) (n : ℕ) :
    (fun z => k * contractPair (outerPair (bell m1 m2)) n (n + 1)
      (fun z => Teleport.pure α n z *
        density (fun x => bell false false (x (n + 1)) (x (n + 1 + 1))) z) z) =
      fun z => k * (1 / 4) * Teleport.pure (Teleport.received α m1 m2) (n + 1 + 1) z := by
  have hmul : (fun z => Teleport.pure α n z *
      density (fun x => bell false false (x (n + 1)) (x (n + 1 + 1))) z) =
      density fun x => α (x n) * bell false false (x (n + 1)) (x (n + 1 + 1)) :=
    funext fun z => (density_mul _ _ z).symm
  rw [hmul, Teleport.contractPair_pair _ m1 m2 (by omega) (by omega) (by omega)]
  exact funext fun z => (mul_assoc _ _ _).symm

/-- A state of one qubit has trace one, which fixes the factor of its tensor. -/
theorem GroupAt.received {s : StateId} {q : QubitPtr} {α : Bool → ℂ} {k : ℂ}
    {m1 m2 : Bool} (hw : w.Inv) (hα : ∑ b, α b * starRingEnd ℂ (α b) = 1)
    (h : w.GroupAt .Ket s {q} fun z => k * Teleport.pure (Teleport.received α m1 m2) q z) :
    w.GroupAt .Ket s {q} (Teleport.pure (Teleport.received α m1 m2) q) := by
  have htrace := congrFun (h.trace hw (List.nodup_singleton q) (by simp))
    fun _ => (false, false)
  have hpure := Teleport.traceAll_pure (Teleport.received α m1 m2) q
    fun _ => (false, false)
  rw [Teleport.sum_received, hα] at hpure
  simp only [traceAll, traceOut, ← mul_sum] at htrace hpure
  rw [hpure, mul_one] at htrace
  rw [htrace] at h
  simpa only [one_mul] using h

/-- A session's start: the half that has left is the only qubit of a state that holds
what the source was given, up to the two gates that the outcomes name, and the
object is at hand for the next session. -/
theorem Idle.doSourceStart {psi : Ket} (h : w.Idle p (.ket psi)) (hw : w.Inv)
    (hn : psi.n = 1) (hnorm : psi.norm2 = 1) (node : NodeId) (chan : ChannelId)
    (drawA drawB : Bool) :
    ∃ (m1 m2 : Bool) (w' : QStateRegistry) (q : QubitPtr), w.numHandles ≤ q ∧
      w.doSourceStart node p chan drawA drawB = (.ok (q, m1.toNat, m2.toNat), w') ∧
      w.KeepsBut w' [] ∧ w'.Idle p (.ket psi) ∧
      w'.Group .Ket {q} (Teleport.pure (Teleport.received (amplitude psi) m1 m2) q) ∧
      w'.getLocation q = .channel chan := by
  set n := w.numHandles with hnDef
  -- `CreateQubit(state)`
  have hnum : (w.objects p).value.numQubits = 1 := by rw [h.value]; exact hn
  have hcreate : w.createQubitFrom node p = (.ok (some n), w.withQubit node p) :=
    hw.createQubitFrom_eq node h.lt (hnum ▸ Nat.one_pos)
  have hk₁ := hw.withQubit_keepsBut node h.lt (fun s => h.free s) hnum
  have hidle₁ := IdleBut.withQubit h node
  have hloc₁ : (w.withQubit node p).getLocation n = .node node := by
    rw [withQubit, addGroup_getLocation]
    exact addHandle_getLocation node
  set w₁ := w.withQubit node p with hw₁
  have hinv₁ := hk₁.keeps.inv
  have hg₁ : w₁.GroupAt .Ket w.nextStateId {n} (Teleport.pure (amplitude psi) n) :=
    groupAt_withQubit h hinv₁ hn hnorm
  have hn₁ : w₁.numHandles = n + 1 := rfl
  -- `CreateBellPair`
  have hfresh : w₁.nextStateId ∉ [w.nextStateId] := fun hmem =>
    (Nat.lt_succ_self w.nextStateId).ne' (List.mem_singleton.mp hmem)
  obtain ⟨w₂, hok₂, hk₂, hidle₂, hlocal₂, hg₂⟩ :=
    hinv₁.createBellPair_group hidle₁.backend hidle₁ hfresh node
  rw [hn₁] at hok₂ hlocal₂ hg₂
  have hinv₂ := hk₂.keeps.inv
  have hpsi₂ : w₂.GroupAt .Ket w.nextStateId {n} (Teleport.pure (amplitude psi) n) :=
    hg₁.untouched (hk₂.confined.untouched _ hg₁.registered
      fun q hq => absurd hq List.not_mem_nil)
  have hloc₂ : w₂.getLocation n = .node node :=
    (hk₂.confined.locations n (hn₁ ▸ Nat.lt_succ_self n) List.not_mem_nil).trans hloc₁
  -- the second half leaves
  have hlt₂ : n + 1 + 1 < w₂.numHandles := (hg₂.handle hinv₂ (by simp)).1
  have hsend : w₂.setLocationChannel (n + 1 + 1) chan =
      w₂.setLocation (n + 1 + 1) (.channel chan) := by
    have hhere := hlocal₂ (n + 1 + 1) (by simp)
    rw [IsLocal] at hhere
    rw [setLocationChannel, hhere, if_neg (by simp)]
  have hk₃ := setLocation_keepsBut hinv₂ hlt₂ (.channel chan)
  set w₃ := w₂.setLocation (n + 1 + 1) (.channel chan) with hw₃
  have hinv₃ := hk₃.keeps.inv
  have hpsi₃ := hpsi₂.untouched (w₂.untouched_setLocation (n + 1 + 1) (.channel chan) _)
  have hg₃ := hg₂.untouched (w₂.untouched_setLocation (n + 1 + 1) (.channel chan) _)
  have hlocal₃ : ∀ q ∈ [n, n + 1], w₃.IsLocal node q := by
    intro q hq
    have hlt : q < w₂.numHandles ∧ q ∉ [n + 1 + 1] ∧ w₂.getLocation q = .node node := by
      rcases List.mem_pair.mp hq with rfl | rfl
      · exact ⟨(hpsi₂.handle hinv₂ (by simp)).1, by simp; omega, hloc₂⟩
      · exact ⟨(hg₂.handle hinv₂ (by simp)).1, by simp, hlocal₂ _ (by simp)⟩
    exact (hk₃.confined.locations q hlt.1 hlt.2.1).trans hlt.2.2
  have hchan₃ : w₃.getLocation (n + 1 + 1) = .channel chan := getLocation_setLocation _ _
  have hidle₃ : w₃.IdleBut p (.ket psi) [w.nextStateId] :=
    ⟨hidle₂.backend, hidle₂.lt, hidle₂.value, hidle₂.free⟩
  -- `MeasureBell`
  have hne : w.nextStateId ≠ w₁.nextStateId := (Nat.lt_succ_self w.nextStateId).ne
  obtain ⟨w₄', s₄, hcnot, -⟩ := hinv₃.apply_groups hpsi₃ hg₃ hne
    (show QGateKind.CNOT ≠ .Custom by decide) rfl rfl
    (show n ∈ ({n} : Finset QubitPtr) by simp)
    (show n + 1 ∈ ({n + 1, n + 1 + 1} : Finset QubitPtr) by simp) hlocal₃
  have hrest := left_over n
  obtain ⟨m1, m2, w₄, k, hok₄, s', hg₄⟩ := hinv₃.measureBell_groups ⟨_, hpsi₃⟩ ⟨_, hg₃⟩
    (show n ∈ ({n} : Finset QubitPtr) by simp)
    (show n + 1 ∈ ({n + 1, n + 1 + 1} : Finset QubitPtr) by simp)
    (fst_notMem n) hlocal₃
    (by rw [hrest]; simp) drawA drawB
  have hk₄ := hinv₃.measureBell_keepsBut node n (n + 1) drawA drawB
  have hpsiAt : (w₃.qubits n).stateId = w.nextStateId := (hpsi₃.handle hinv₃ (by simp)).2
  have haAt : (w₃.qubits (n + 1)).stateId = w₁.nextStateId :=
    (hg₃.handle hinv₃ (by simp)).2
  have hboth : ∀ q ∈ [n, n + 1], q < w₃.numHandles ∧ w₃.IsLocal node q := by
    intro q hq
    refine ⟨?_, hlocal₃ q hq⟩
    rcases List.mem_pair.mp hq with rfl | rfl
    · exact (hpsi₃.handle hinv₃ (by simp)).1
    · exact (hg₃.handle hinv₃ (by simp)).1
  have hidle₄ := IdleBut.measureBell (hpsiAt.symm ▸ hidle₃) hinv₃
    (by rw [hpsiAt, haAt]; exact hne) hboth hcnot drawA drawB
  rw [hok₄] at hk₄ hidle₄
  refine ⟨m1, m2, w₄, n + 1 + 1, by omega, ?_, ?_, hidle₄, ⟨s', ?_⟩, ?_⟩
  · rw [QStateRegistry.doSourceStart, hcreate, andThen, hok₂, andThen, hsend,
      Option.getD_some, hok₄, andThen]
  · have hold : ∀ {l : List QubitPtr}, (∀ q ∈ l, n ≤ q) →
        ∀ q ∈ l, q < w.numHandles → q ∈ ([] : List QubitPtr) := fun hl q hq hlt =>
      absurd (hl q hq) (not_le.mpr hlt)
    have hk₁₂ : w.KeepsBut w₂ [] := hk₁.trans hw hk₂ fun q hq _ => hq
    have hk₁₃ : w.KeepsBut w₃ [] := hk₁₂.trans hw hk₃ (hold (by simp; omega))
    exact hk₁₃.trans hw hk₄ (hold (by simp))
  · -- the tensor that is left has trace one
    rw [hrest, contract_source] at hg₄
    have hone := congrFun (hpsi₃.trace hinv₃ (List.nodup_singleton n) (by simp))
      fun _ => (false, false)
    rw [Teleport.traceAll_pure] at hone
    exact hg₄.received hk₄.keeps.inv hone
  · exact (hk₄.confined.locations (n + 1 + 1)
      ((hg₃.handle hinv₃ (by simp)).1) (by simp; omega)).trans hchan₃

/-! ## The sink -/

/-- The gates of `TryApplyCorrection`. -/
noncomputable def applyCorrection (w : QStateRegistry) (node : NodeId) (q : QubitPtr)
    (c : Teleport.Correction) : QStateRegistry :=
  let w := if c.x then (w.apply node (.builtin .X) [q]).2 else w
  if c.z then (w.apply node (.builtin .Z) [q]).2 else w

/-- A one-qubit gate on a qubit that is alone in its state. -/
theorem Inv.apply_pure (hw : w.Inv) {q : QubitPtr} {β γ : Bool → ℂ} {kind : QGateKind}
    (hk : kind ≠ .Custom) (harity : kind.arity = 1) {U : CMat}
    (hU : matrixOf kind = .ok U) (hlocal : w.IsLocal node q)
    (hg : w.Group .Ket {q} (Teleport.pure β q))
    (hact : actOn (conjBy (U.kernel 1)) ![q] (Teleport.pure β q) = Teleport.pure γ q) :
    (w.apply node (.builtin kind) [q]).2.Group .Ket {q} (Teleport.pure γ q) := by
  obtain ⟨s, hs⟩ := hg
  have hone : ∀ x ∈ [q], x ∈ ({q} : Finset QubitPtr) := by simp
  obtain ⟨w', hok, hg'⟩ := hw.apply_group hs hk hU [q] harity.symm
    (List.cons_ne_nil _ _) (List.nodup_singleton q) hone
    fun x hx => List.mem_singleton.mp hx ▸ hlocal
  rw [hok]
  rw [get_one] at hg'
  exact ⟨s, hact ▸ hg'⟩

/-- The correction recovers what the source was given. -/
theorem Inv.applyCorrection_pure (hw : w.Inv) {q : QubitPtr} {α : Bool → ℂ}
    {m1 m2 : Bool} {c : Teleport.Correction} (hx : c.x = m2) (hz : c.z = m1)
    (hlocal : w.IsLocal node q)
    (hg : w.Group .Ket {q} (Teleport.pure (Teleport.received α m1 m2) q)) :
    (w.applyCorrection node q c).Group .Ket {q} (Teleport.pure α q) := by
  have hflip : (if m2 then (w.apply node (.builtin .X) [q]).2 else w).Group .Ket {q}
      (Teleport.pure (fun b => if m2 then Teleport.received α m1 m2 (b ^^ true)
        else Teleport.received α m1 m2 b) q) := by
    cases m2 with
    | false => exact hg
    | true =>
        exact hw.apply_pure (by decide) rfl rfl hlocal hg (Teleport.actOn_X_pure _ q)
  have hinv : (if m2 then (w.apply node (.builtin .X) [q]).2 else w).Inv := by
    split_ifs
    · exact (hw.apply_keeps _ _ _).inv
    · exact hw
  have hthere : (if m2 then (w.apply node (.builtin .X) [q]).2 else w).IsLocal node q := by
    split_ifs
    · exact (hw.apply_getLocation _ _ _ q).trans hlocal
    · exact hlocal
  have hall := funext fun b => Teleport.received_corrected α m1 m2 b
  rw [QStateRegistry.applyCorrection, hx, hz]
  cases m1 with
  | false => exact hall ▸ hflip
  | true =>
      have hZ := hinv.apply_pure (show QGateKind.Z ≠ .Custom by decide) rfl rfl hthere hflip
        (Teleport.actOn_Z_pure _ q)
      exact hall ▸ hZ

/-- A correction is confined to its qubit, and moves nothing. -/
theorem Inv.applyCorrection_keepsBut (hw : w.Inv) (node : NodeId) (q : QubitPtr)
    (c : Teleport.Correction) : w.KeepsBut (w.applyCorrection node q c) [q] ∧
      ∀ x, (w.applyCorrection node q c).getLocation x = w.getLocation x := by
  have hfirst : w.KeepsBut (if c.x then (w.apply node (.builtin .X) [q]).2 else w) [q] ∧
      ∀ x, (if c.x then (w.apply node (.builtin .X) [q]).2 else w).getLocation x =
        w.getLocation x := by
    split_ifs
    · exact ⟨hw.apply_keepsBut _ _ _, hw.apply_getLocation _ _ _⟩
    · exact ⟨hw.keepsBut _, fun _ => rfl⟩
  have hinv := hfirst.1.keeps.inv
  rw [QStateRegistry.applyCorrection]
  by_cases hz : c.z = true
  · rw [if_pos hz]
    exact ⟨hfirst.1.trans hw (hinv.apply_keepsBut _ _ _) fun x hx _ => hx,
      fun x => (hinv.apply_getLocation _ _ _ x).trans (hfirst.2 x)⟩
  · rw [if_neg hz]
    exact hfirst

theorem Idle.applyCorrection (h : w.Idle p v) (hw : w.Inv) (node : NodeId)
    (q : QubitPtr) (c : Teleport.Correction) : (w.applyCorrection node q c).Idle p v := by
  have hfirst : (if c.x then (w.apply node (.builtin .X) [q]).2 else w).Idle p v ∧
      (if c.x then (w.apply node (.builtin .X) [q]).2 else w).Inv := by
    split_ifs
    · exact ⟨h.apply hw _ _ fun _ _ => List.not_mem_nil, (hw.apply_keeps _ _ _).inv⟩
    · exact ⟨h, hw⟩
  rw [QStateRegistry.applyCorrection]
  by_cases hz : c.z = true
  · rw [if_pos hz]
    exact hfirst.1.apply hfirst.2 _ _ fun _ _ => List.not_mem_nil
  · rw [if_neg hz]
    exact hfirst.1

end QStateRegistry

end Q2NS
