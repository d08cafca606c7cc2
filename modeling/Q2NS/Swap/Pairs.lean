import Q2NS.Teleport.Transfer

/-!
# Entangled pairs

Two qubits that make up a registered state and are in a Bell state: how `CreateBellPair`
makes them, what `MeasureBell` leaves of two pairs, and what a Pauli gate does to one.
-/

namespace Q2NS

open NamedTensor QuadForm Loop Finset

/-! ## Tensors -/

namespace Swap

variable {ι : Type} [DecidableEq ι]

/-- Two legs in the Bell state of two bits. -/
noncomputable def bellPair (m1 m2 : Bool) (p q : ι) : (ι → Bool × Bool) → ℂ :=
  density fun x => bell m1 m2 (x p) (x q)

omit [DecidableEq ι] in
/-- A global sign is not seen. -/
theorem density_sgn (m : Bool) (Φ : (ι → Bool) → ℂ) :
    density (fun x => sgn m * Φ x) = density Φ := by
  funext z
  simp only [density, map_mul, conj_sgn]
  linear_combination Φ (rowOf z) * starRingEnd ℂ (Φ (colOf z)) * sgn_mul_self m

/-- The signs of three Bell states that meet. -/
theorem sgn_swap (α β γ m1 m2 b : Bool) :
    sgn (m1 && (b ^^ β)) * sgn (α && b) * sgn (γ && (b ^^ β ^^ m2)) =
      sgn ((m1 && β) ^^ (γ && (β ^^ m2))) * sgn ((α ^^ γ ^^ m1) && b) := by
  rw [← sgn_xor, ← sgn_xor, ← sgn_xor]
  congr 1
  revert α β γ m1 m2 b
  decide

/-- A Bell measurement of one half of each of two pairs leaves the other halves in a
Bell state. -/
theorem contractPair_bell (α β γ δ m1 m2 : Bool) {p a c q : ι} (hpa : p ≠ a)
    (hpc : p ≠ c) (hac : a ≠ c) (hqa : q ≠ a) (hqc : q ≠ c) :
    contractPair (outerPair (bell m1 m2)) a c
        (fun z => bellPair α β p a z * bellPair γ δ c q z) =
      fun z => 1 / 4 * bellPair (α ^^ γ ^^ m1) (β ^^ δ ^^ m2) p q z := by
  have hmul : (fun z => bellPair α β p a z * bellPair γ δ c q z) =
      density fun x => bell α β (x p) (x a) * bell γ δ (x c) (x q) :=
    funext fun z => (density_mul _ _ z).symm
  have hvector : contractPair (fun b d => starRingEnd ℂ (bell m1 m2 b d)) a c
      (fun x : ι → Bool => bell α β (x p) (x a) * bell γ δ (x c) (x q)) =
      fun x => sgn ((m1 && β) ^^ (γ && (β ^^ m2))) *
        (1 / 2 * bell (α ^^ γ ^^ m1) (β ^^ δ ^^ m2) (x p) (x q)) := by
    funext x
    have hhalf := invSqrt2_mul_self
    have hsign := sgn_swap α β γ m1 m2 (x p)
    have hvalue : (x q = (x p ^^ β ^^ m2 ^^ δ)) ↔ x q = (x p ^^ (β ^^ δ ^^ m2)) := by
      cases x q <;> cases x p <;> cases β <;> cases m2 <;> cases δ <;> decide
    simp only [contractPair, Function.update_self, Function.update_of_ne hpa,
      Function.update_of_ne hpc, Function.update_of_ne hac, Function.update_of_ne hqa,
      Function.update_of_ne hqc]
    rw [sum_eq_single (x p ^^ β), sum_eq_single (x p ^^ β ^^ m2)]
    · simp only [bell, if_true, hvalue, map_mul, conj_invSqrt2, conj_sgn]
      split_ifs
      · linear_combination (invSqrt2 * invSqrt2 * invSqrt2) * hsign +
          sgn ((m1 && β) ^^ (γ && (β ^^ m2))) * sgn ((α ^^ γ ^^ m1) && x p) * invSqrt2 * hhalf
      · simp
    · intro d _ hd
      simp only [bell, if_neg hd, map_zero, zero_mul]
    · exact fun h => absurd (mem_univ _) h
    · intro b _ hb
      refine sum_eq_zero fun d _ => ?_
      simp only [bell, if_neg hb, zero_mul, mul_zero]
    · exact fun h => absurd (mem_univ _) h
  rw [hmul, contractPair_density, hvector, density_sgn]
  funext z
  simp only [density, bellPair, map_mul, map_div₀, map_one]
  simp only [Complex.conj_ofNat]
  ring

/-- A pair is normalised. -/
theorem traceAll_bellPair (m1 m2 : Bool) {p q : ι} (hpq : p ≠ q) (z : ι → Bool × Bool) :
    traceAll [p, q] (bellPair m1 m2 p q) z = 1 := by
  have hhalf := invSqrt2_mul_self
  simp only [traceAll, traceOut, bellPair, density, rowOf, colOf, Function.update_self,
    Function.update_of_ne hpq.symm, Fintype.sum_bool, bell]
  cases m1 <;> cases m2 <;> simp [sgn, conj_invSqrt2] <;>
    linear_combination 2 * hhalf

theorem actOn_X_bellPair (m1 m2 : Bool) {p q : QubitPtr} (hpq : p ≠ q) :
    actOn (conjBy (matrixX.kernel 1)) ![q] (bellPair m1 m2 p q) =
      bellPair m1 (m2 ^^ true) p q := by
  rw [bellPair, actOn_density, actOn_matrixX]
  refine congrArg density (funext fun x => ?_)
  rw [AffineState.permuteBy, AffineState.flipBit, Function.update_self,
    Function.update_of_ne hpq]
  cases x p <;> cases x q <;> cases m2 <;> simp [bell]

theorem actOn_Z_bellPair (m1 m2 : Bool) (p q : QubitPtr) :
    actOn (conjBy (matrixZ.kernel 1)) ![q] (bellPair m1 m2 p q) =
      bellPair (m1 ^^ true) m2 p q := by
  rw [bellPair, actOn_density, actOn_matrixZ, bellPair, ← density_sgn m2]
  refine congrArg density (funext fun x => ?_)
  rw [AffineState.phaseBy]
  cases x p <;> cases x q <;> cases m1 <;> cases m2 <;> simp [bell, sgn]

end Swap

/-! ## Pairs of the registry -/

namespace QStateRegistry

open Swap

variable {w : QStateRegistry} {b : QStateBackend} {node : NodeId} {p a c q : QubitPtr}

/-- A call after one that keeps the invariant and the default backend. -/
theorem andThen_backend {α β : Type} {x : Except Exit α × QStateRegistry}
    {f : α → QStateRegistry → Except Exit β × QStateRegistry}
    (hinv : x.2.Inv) (hx : x.2.defaultBackend = b)
    (hf : ∀ a (w' : QStateRegistry), w'.Inv → w'.defaultBackend = b →
      (f a w').2.defaultBackend = b) : (andThen x f).2.defaultBackend = b := by
  obtain ⟨a, w'⟩ := x
  cases a with
  | error e => exact hx
  | ok a => exact hf a w' hinv hx

theorem Inv.apply_backend (hw : w.Inv) (node : NodeId) (gate : QGate)
    (qs : List QubitPtr) : (w.apply node gate qs).2.defaultBackend = w.defaultBackend := by
  rcases hw.apply_cases node gate qs with ⟨-, hf⟩ | ⟨-,
    ⟨s, rest, e, -, -, he⟩ | ⟨w₁, p₁, hg, -, hcases⟩⟩
  · rw [hf]
  · rw [he]
  · have hgathered : w₁.defaultBackend = w.defaultBackend := by
      cases hg <;> rfl
    rcases hcases with ⟨e, -, he⟩ | ⟨u, -, hok⟩
    · rw [he]
      exact hgathered
    · rw [hok]
      exact hgathered

theorem Inv.measure_backend (hw : w.Inv) (node : NodeId) (q : QubitPtr) (basis : Basis)
    (draw : Bool) : (w.measure node q basis draw).2.defaultBackend = w.defaultBackend := by
  rcases hw.measure_cases node q basis draw with ⟨-, hf⟩ | ⟨-, p₁, u, -, -,
    ⟨e, -, he⟩ | ⟨r, -, -, -, hok⟩⟩
  · rw [hf]
  · rw [he]
    rfl
  · rw [hok, measured]
    split_ifs <;> rfl

theorem Inv.measureBell_backend (hw : w.Inv) (node : NodeId) (a c : QubitPtr)
    (drawA drawB : Bool) :
    (w.measureBell node a c drawA drawB).2.defaultBackend = w.defaultBackend := by
  rw [measureBell]
  split_ifs
  case neg =>
    refine andThen_backend (hw.apply_keeps _ _ _).inv (hw.apply_backend _ _ _)
      fun ok w₁ h₁ hb₁ => ?_
    split_ifs
    · exact hb₁
    refine andThen_backend (h₁.apply_keeps _ _ _).inv ((h₁.apply_backend _ _ _).trans hb₁)
      fun ok w₂ h₂ hb₂ => ?_
    split_ifs
    · exact hb₂
    refine andThen_backend (h₂.measure_keeps _ _ _ _).inv
      ((h₂.measure_backend _ _ _ _).trans hb₂) fun _ w₃ h₃ hb₃ => ?_
    exact andThen_backend (h₃.measure_keeps _ _ _ _).inv
      ((h₃.measure_backend _ _ _ _).trans hb₃) fun _ w₄ _ hb₄ => hb₄
  all_goals rfl

/-- `CreateBellPair`. -/
theorem Inv.createBellPair_pair (hw : w.Inv) (hb : w.defaultBackend = b) (node : NodeId) :
    ∃ w', w.createBellPair node = (.ok (w.numHandles, w.numHandles + 1), w') ∧
      w.KeepsBut w' [] ∧ w'.defaultBackend = b ∧
      (∀ q ∈ [w.numHandles, w.numHandles + 1], w'.IsLocal node q) ∧
      w'.Group b {w.numHandles, w.numHandles + 1}
        (bellPair false false w.numHandles (w.numHandles + 1)) := by
  obtain ⟨v₂, hv₂, heq⟩ := hw.createBellPair_eq node
  have hkeeps := hw.createBellPair_keepsBut node
  rw [hb] at hv₂
  set w₂ := w.withPair node v₂ with hw₂
  have hinv₂ : w₂.Inv := (hw.withPair_keeps node (QState.create_numQubits hv₂)).inv
  have hlocal₂ := w.withPair_isLocal node v₂
  have hg₂ := groupAt_withPair hinv₂ hv₂
  have hne : w.numHandles ≠ w.numHandles + 1 := (Nat.lt_succ_self _).ne
  have ha : ∀ q ∈ [w.numHandles], w₂.IsLocal node q := fun q hq =>
    hlocal₂ q (List.mem_singleton.mp hq ▸ List.mem_cons_self)
  obtain ⟨w₃, hok₃, hg₃⟩ := hinv₂.apply_group hg₂
    (show QGateKind.H ≠ .Custom by decide) rfl [w.numHandles] rfl
    (List.cons_ne_nil _ _) (List.nodup_singleton _) (by simp) ha
  have hinv₃ := (hinv₂.apply_keeps node (.builtin .H) [w.numHandles]).inv
  have hloc₃ := hinv₂.apply_getLocation node (.builtin .H) [w.numHandles]
  have hb₃ := hinv₂.apply_backend node (.builtin .H) [w.numHandles]
  rw [hok₃] at hinv₃ hloc₃ hb₃
  have hpair : ∀ q ∈ [w.numHandles, w.numHandles + 1],
      q ∈ ({w.numHandles, w.numHandles + 1} : Finset QubitPtr) := by simp
  obtain ⟨w₄, hok₄, hg₄⟩ := hinv₃.apply_group hg₃
    (show QGateKind.CNOT ≠ .Custom by decide) rfl [w.numHandles, w.numHandles + 1] rfl
    (List.cons_ne_nil _ _) (by simp) hpair fun q hq => (hloc₃ q).trans (hlocal₂ q hq)
  have hloc₄ := hinv₃.apply_getLocation node (.builtin .CNOT)
    [w.numHandles, w.numHandles + 1]
  have hb₄ := hinv₃.apply_backend node (.builtin .CNOT) [w.numHandles, w.numHandles + 1]
  rw [hok₄] at hloc₄ hb₄
  have hcall : w.createBellPair node = (.ok (w.numHandles, w.numHandles + 1), w₄) := by
    rw [heq, hok₃, andThen, hok₄, andThen]
  rw [hcall] at hkeeps
  refine ⟨w₄, hcall, hkeeps, (hb₄.trans hb₃).trans hb, fun q hq => ?_, w.nextStateId, ?_⟩
  · exact (hloc₄ q).trans ((hloc₃ q).trans (hlocal₂ q hq))
  · rw [get_one, get_two] at hg₄
    rw [bellPair, ← Teleport.actOn_pair hne]
    exact hg₄

/-- `MeasureBell` joins two pairs. -/
theorem Inv.measureBell_pairs (hw : w.Inv) (hb : w.defaultBackend = b) {α β γ δ : Bool}
    (h₁ : w.Group b {p, a} (bellPair α β p a)) (h₂ : w.Group b {c, q} (bellPair γ δ c q))
    (hnodup : [p, a, c, q].Nodup) (hlocal : ∀ x ∈ [a, c], w.IsLocal node x)
    (drawA drawB : Bool) :
    ∃ (m1 m2 : Bool) (w' : QStateRegistry),
      w.measureBell node a c drawA drawB = (.ok (m1.toNat, m2.toNat), w') ∧
      w.KeepsBut w' [a, c] ∧ w'.defaultBackend = b ∧
      w'.Group b {p, q} (bellPair (α ^^ γ ^^ m1) (β ^^ δ ^^ m2) p q) := by
  simp only [List.nodup_cons, List.nodup_nil, List.mem_cons, List.not_mem_nil, not_or,
    or_false, not_false_eq_true, and_true] at hnodup
  obtain ⟨⟨hpa, hpc, hpq⟩, ⟨hac, haq⟩, hcq⟩ := hnodup
  have hrest : ((({p, a} : Finset QubitPtr) ∪ {c, q}).erase a).erase c = {p, q} := by
    ext x
    simp only [mem_erase, mem_union, mem_insert, mem_singleton]
    grind
  obtain ⟨m1, m2, w', k, hok, s, hg⟩ := hw.measureBell_groups h₁ h₂
    (show a ∈ ({p, a} : Finset QubitPtr) by simp)
    (show c ∈ ({c, q} : Finset QubitPtr) by simp) (by simp [hac, haq]) hlocal
    (by rw [hrest]; simp) drawA drawB
  have hkeeps := hw.measureBell_keepsBut node a c drawA drawB
  have hback := hw.measureBell_backend node a c drawA drawB
  rw [hok] at hkeeps hback
  refine ⟨m1, m2, w', hok, hkeeps, hback.trans hb, s, ?_⟩
  rw [hrest, contractPair_bell α β γ δ m1 m2 hpa hpc hac (Ne.symm haq) (Ne.symm hcq)] at hg
  -- the trace fixes the factor
  have hnodup : [p, q].Nodup := by simpa using hpq
  have htrace := congrFun (hg.trace hkeeps.keeps.inv hnodup (by simp)) fun _ => (false, false)
  have hone := traceAll_bellPair (α ^^ γ ^^ m1) (β ^^ δ ^^ m2) hpq fun _ => (false, false)
  simp only [traceAll, traceOut, ← mul_sum] at htrace hone
  rw [hone, mul_one] at htrace
  have hscaled : ∀ x : ℂ, k * (1 / 4 * x) = x := fun x => by
    linear_combination x * htrace
  simpa only [hscaled] using hg

/-- A one-qubit gate on the second qubit of a pair. -/
theorem Inv.apply_pair (hw : w.Inv) {kind : QGateKind} (hk : kind ≠ .Custom)
    (harity : kind.arity = 1) {U : CMat} (hU : matrixOf kind = .ok U)
    {F G : (QubitPtr → Bool × Bool) → ℂ} (hg : w.Group b {p, q} F)
    (hlocal : w.IsLocal node q)
    (hact : actOn (conjBy (U.kernel 1)) ![q] F = G) :
    ∃ w', w.apply node (.builtin kind) [q] = (.ok true, w') ∧ w'.Group b {p, q} G := by
  obtain ⟨s, hs⟩ := hg
  obtain ⟨w', hok, hg'⟩ := hw.apply_group hs hk hU [q] harity.symm
    (List.cons_ne_nil _ _) (List.nodup_singleton q) (by simp)
    fun x hx => List.mem_singleton.mp hx ▸ hlocal
  rw [get_one] at hg'
  exact ⟨w', hok, s, hact ▸ hg'⟩

end QStateRegistry

end Q2NS
