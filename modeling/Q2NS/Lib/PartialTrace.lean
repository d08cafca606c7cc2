import Q2NS.Lib.Naming

/-!
# Pairs of legs and partial traces

`contractPair v p q` sums the legs `p` and `q` out against `v`, and `traceOut q`
traces leg `q` out of a density tensor.  A measurement of two legs in an entangled
basis is a contraction with one vector on the pair, whatever gates and single-leg
measurements it is made of; what it leaves on the other legs is the partial trace
of the projected tensor.
-/

namespace Q2NS.NamedTensor

open Finset

variable {ι β : Type*} [DecidableEq ι]

/-- The tensor does not read leg `q`. -/
def Ignores (q : ι) (F : (ι → β) → ℂ) : Prop :=
  ∀ z b, F (Function.update z q b) = F z

theorem Ignores.mul {q : ι} {F G : (ι → β) → ℂ} (hF : Ignores q F)
    (hG : Ignores q G) : Ignores q fun z => F z * G z := fun z b =>
  congrArg₂ _ (hF z b) (hG z b)

theorem ignores_const (q : ι) (c : ℂ) : Ignores q fun _ : ι → β => c :=
  fun _ _ => rfl

/-- A tensor on the names `l` ignores every other name. -/
theorem ignores_named [Inhabited β] {l : List ι} {q : ι} (hq : q ∉ l)
    (Φ : (ℕ → β) → ℂ) : Ignores q fun z => Φ (named l z) := fun z b =>
  congrArg Φ (named_congr fun x hx =>
    Function.update_of_ne (fun he : x = q => hq (he ▸ hx)) b z)

theorem update_swap {p q : ι} (hpq : p ≠ q) (x : ι → β) (b c : β) :
    Function.update (Function.update x q c) p b =
      Function.update (Function.update x p b) q c :=
  Function.update_comm hpq.symm c b x

/-! ## Contracting two legs -/

section Pair

variable [Fintype β] {p q : ι}

/-- Legs `p` and `q` summed out against `v`. -/
def contractPair (v : β → β → ℂ) (p q : ι) (F : (ι → β) → ℂ) : (ι → β) → ℂ :=
  fun x => ∑ b, ∑ c, v b c * F (Function.update (Function.update x p b) q c)

theorem contract_ignores (v : β → ℂ) (q : ι) (F : (ι → β) → ℂ) :
    Ignores q (contract v q F) := fun z d => by
  simp only [contract, Function.update_idem]

theorem contract_smul (v : β → ℂ) (q : ι) (k : ℂ) (F : (ι → β) → ℂ) :
    contract v q (fun z => k * F z) = fun z => k * contract v q F z := by
  funext z
  simp only [contract, mul_sum]
  exact sum_congr rfl fun b _ => mul_left_comm _ _ _

theorem contract_contract (hpq : p ≠ q) (u v : β → ℂ) (F : (ι → β) → ℂ) :
    contract v q (contract u p F) = contractPair (fun b c => u b * v c) p q F := by
  funext x
  simp only [contract, contractPair, mul_sum]
  rw [sum_comm]
  refine sum_congr rfl fun b _ => sum_congr rfl fun c _ => ?_
  rw [update_swap hpq, mul_left_comm, mul_assoc]

theorem contractPair_ignores (hpq : p ≠ q) (v : β → β → ℂ) (F : (ι → β) → ℂ) :
    Ignores p (contractPair v p q F) ∧ Ignores q (contractPair v p q F) := by
  refine ⟨fun z d => ?_, fun z d => ?_⟩
  · simp only [contractPair, Function.update_idem]
  · refine sum_congr rfl fun b _ => sum_congr rfl fun c _ => ?_
    rw [update_swap hpq z b d, Function.update_idem]

/-- A matrix on the pair goes into the vector. -/
theorem contractPair_actOn_two (hpq : p ≠ q) (v : β → β → ℂ)
    (K : (Fin 2 → β) → (Fin 2 → β) → ℂ) (F : (ι → β) → ℂ) :
    contractPair v p q (actOn K ![p, q] F) =
      contractPair (fun b c => ∑ b', ∑ c', v b' c' * K ![b', c'] ![b, c])
        p q F := by
  have hread : ∀ (x : ι → β) b c, actOn K ![p, q] F
      (Function.update (Function.update x p b) q c) = ∑ b', ∑ c',
        K ![b, c] ![b', c'] *
          F (Function.update (Function.update x p b') q c') := by
    intro x b c
    rw [actOn_two K hpq, Function.update_of_ne hpq, Function.update_self,
      Function.update_self]
    refine sum_congr rfl fun b' _ => sum_congr rfl fun c' _ => ?_
    rw [update_swap hpq, Function.update_idem, Function.update_idem]
  funext x
  simp only [contractPair, hread, mul_sum, sum_mul]
  calc ∑ b, ∑ c, ∑ b', ∑ c', v b c * (K ![b, c] ![b', c'] *
          F (Function.update (Function.update x p b') q c'))
      = ∑ b, ∑ b', ∑ c, ∑ c', v b c * (K ![b, c] ![b', c'] *
          F (Function.update (Function.update x p b') q c')) :=
        sum_congr rfl fun b _ => sum_comm
    _ = ∑ b', ∑ b, ∑ c', ∑ c, v b c * (K ![b, c] ![b', c'] *
          F (Function.update (Function.update x p b') q c')) := by
        rw [sum_comm]
        exact sum_congr rfl fun b' _ => sum_congr rfl fun b _ => sum_comm
    _ = ∑ b', ∑ c', ∑ b, ∑ c, v b c * K ![b, c] ![b', c'] *
          F (Function.update (Function.update x p b') q c') := by
        refine sum_congr rfl fun b' _ => ?_
        rw [sum_comm]
        simp only [mul_assoc]

/-- So does a matrix on the first leg. -/
theorem contractPair_actOn_one (hpq : p ≠ q) (v : β → β → ℂ)
    (K : (Fin 1 → β) → (Fin 1 → β) → ℂ) (F : (ι → β) → ℂ) :
    contractPair v p q (actOn K ![p] F) =
      contractPair (fun b c => ∑ b', v b' c * K (fun _ => b') fun _ => b)
        p q F := by
  have hread : ∀ (x : ι → β) b c, actOn K ![p] F
      (Function.update (Function.update x p b) q c) = ∑ b',
        K (fun _ => b) (fun _ => b') *
          F (Function.update (Function.update x p b') q c) := by
    intro x b c
    rw [actOn_one, Function.update_of_ne hpq, Function.update_self]
    refine sum_congr rfl fun b' _ => ?_
    rw [update_swap hpq, Function.update_idem]
  funext x
  simp only [contractPair, hread, mul_sum, sum_mul]
  calc ∑ b, ∑ c, ∑ b', v b c * (K (fun _ => b) (fun _ => b') *
          F (Function.update (Function.update x p b') q c))
      = ∑ b, ∑ b', ∑ c, v b c * (K (fun _ => b) (fun _ => b') *
          F (Function.update (Function.update x p b') q c)) :=
        sum_congr rfl fun b _ => sum_comm
    _ = ∑ b', ∑ c, ∑ b, v b c * K (fun _ => b) (fun _ => b') *
          F (Function.update (Function.update x p b') q c) := by
        rw [sum_comm]
        refine sum_congr rfl fun b' _ => ?_
        rw [sum_comm]
        simp only [mul_assoc]

end Pair

/-! ## Vectors on a pair -/

section PairVector

variable [Fintype β] {p q : ι}

/-- `⟨v| ρ |v⟩` on two legs. -/
def outerPair (v : β → β → ℂ) (b c : β × β) : ℂ :=
  starRingEnd ℂ (v b.1 c.1) * v b.2 c.2

omit [DecidableEq ι] [Fintype β] in
theorem outer_mul_outer (u v : β → ℂ) (b c : β × β) :
    outer u b * outer v c = outerPair (fun b c => u b * v c) b c := by
  simp only [outer, outerPair, map_mul]
  ring

omit [DecidableEq ι] in
theorem sum_pairs_mul (f g : β → β → ℂ) :
    ∑ b : β × β, ∑ c : β × β, f b.1 c.1 * g b.2 c.2 =
      (∑ b, ∑ c, f b c) * ∑ b, ∑ c, g b c := by
  simp only [sum_mul_sum, Fintype.sum_prod_type]

omit [DecidableEq ι] in
/-- The adjoint of a matrix on the pair goes into the vector. -/
theorem outerPair_conjBy_two (v : β → β → ℂ)
    (K : (Fin 2 → β) → (Fin 2 → β) → ℂ) (b c : β × β) :
    (∑ b' : β × β, ∑ c' : β × β, outerPair v b' c' *
      conjBy K ![b', c'] ![b, c]) =
      outerPair (fun b c => ∑ b', ∑ c',
        starRingEnd ℂ (K ![b', c'] ![b, c]) * v b' c') b c := by
  have hrow : ∀ x y : β × β, rowOf ![x, y] = ![x.1, y.1] := fun x y => by
    funext i
    fin_cases i <;> rfl
  have hcol : ∀ x y : β × β, colOf ![x, y] = ![x.2, y.2] := fun x y => by
    funext i
    fin_cases i <;> rfl
  simp only [outerPair, map_sum, map_mul, Complex.conj_conj]
  rw [← sum_pairs_mul]
  refine sum_congr rfl fun b' _ => sum_congr rfl fun c' _ => ?_
  rw [conjBy, hrow, hrow, hcol, hcol]
  ring

omit [DecidableEq ι] in
/-- So does the adjoint of a matrix on the first leg. -/
theorem outerPair_conjBy_one (v : β → β → ℂ)
    (K : (Fin 1 → β) → (Fin 1 → β) → ℂ) (b c : β × β) :
    (∑ b' : β × β, outerPair v b' c * conjBy K (fun _ => b') fun _ => b) =
      outerPair (fun b c => ∑ b',
        starRingEnd ℂ (K (fun _ => b') fun _ => b) * v b' c) b c := by
  simp only [outerPair, map_sum, map_mul, Complex.conj_conj, sum_mul_sum,
    Fintype.sum_prod_type]
  refine sum_congr rfl fun x _ => sum_congr rfl fun y _ => ?_
  have hrow : ∀ d : β × β, rowOf (fun _ : Fin 1 => d) = fun _ => d.1 := fun _ => rfl
  have hcol : ∀ d : β × β, colOf (fun _ : Fin 1 => d) = fun _ => d.2 := fun _ => rfl
  rw [conjBy, hrow, hrow, hcol, hcol]
  ring

/-- What is left of a pure state is pure. -/
theorem contractPair_density (v : β → β → ℂ) (Φ : (ι → β) → ℂ) :
    contractPair (outerPair v) p q (density Φ) =
      density (contractPair (fun b c => starRingEnd ℂ (v b c)) p q Φ) := by
  funext z
  simp only [density, contractPair, map_sum, map_mul, Complex.conj_conj,
    rowOf_update, colOf_update]
  rw [← sum_pairs_mul]
  refine sum_congr rfl fun b _ => sum_congr rfl fun c _ => ?_
  rw [outerPair]
  ring

omit [DecidableEq ι] in
/-- Matrices that act one after the other. -/
theorem conjBy_comp {k : ℕ} (K L : (Fin k → β) → (Fin k → β) → ℂ)
    (v w : Fin k → β × β) :
    ∑ u, conjBy K v u * conjBy L u w =
      conjBy (fun v w => ∑ u, K v u * L u w) v w := by
  simp only [conjBy, map_sum, map_mul, sum_mul_sum]
  rw [← sum_pairs fun x y => K (rowOf v) x * L x (rowOf w) *
    (starRingEnd ℂ (K (colOf v) y) * starRingEnd ℂ (L y (colOf w)))]
  exact sum_congr rfl fun u _ => mul_mul_mul_comm _ _ _ _

/-- `|v⟩⟨v|` on two legs. -/
def pairProjector (v : β → β → ℂ) (a b : Fin 2 → β) : ℂ :=
  v (a 0) (a 1) * starRingEnd ℂ (v (b 0) (b 1))

/-- Projecting two legs on `v`, and contracting them and putting `v` back. -/
theorem actOn_pairProjector (hpq : p ≠ q) (v : β → β → ℂ)
    (F : (ι → β × β) → ℂ) (z : ι → β × β) :
    actOn (conjBy (pairProjector v)) ![p, q] F z =
      v (z p).1 (z q).1 * starRingEnd ℂ (v (z p).2 (z q).2) *
        contractPair (outerPair v) p q F z := by
  rw [actOn_two _ hpq, contractPair, mul_sum]
  refine sum_congr rfl fun b _ => ?_
  rw [mul_sum]
  refine sum_congr rfl fun c _ => ?_
  simp only [conjBy, pairProjector, rowOf, colOf, outerPair, map_mul,
    Complex.conj_conj, Matrix.cons_val_zero, Matrix.cons_val_one]
  ring

end PairVector

/-! ## Partial traces -/

section Trace

variable [Fintype β]

/-- Leg `q` traced out. -/
def traceOut (q : ι) (F : (ι → β × β) → ℂ) : (ι → β × β) → ℂ := fun z =>
  ∑ b, F (Function.update z q (b, b))

/-- The legs `l` traced out one after the other. -/
def traceAll : List ι → ((ι → β × β) → ℂ) → (ι → β × β) → ℂ
  | [], F => F
  | q :: l, F => traceAll l (traceOut q F)

theorem traceOut_mul {q : ι} {G : (ι → β × β) → ℂ} (hG : Ignores q G)
    (F : (ι → β × β) → ℂ) :
    traceOut q (fun z => F z * G z) = fun z => traceOut q F z * G z := by
  funext z
  simp only [traceOut, sum_mul]
  exact sum_congr rfl fun b _ => by rw [hG]

theorem traceOut_comm (p q : ι) (F : (ι → β × β) → ℂ) :
    traceOut p (traceOut q F) = traceOut q (traceOut p F) := by
  by_cases hpq : p = q
  · rw [hpq]
  funext z
  simp only [traceOut]
  rw [sum_comm]
  exact sum_congr rfl fun b _ => sum_congr rfl fun c _ => by
    rw [update_swap hpq]

/-- What a projection of two legs on a unit vector leaves on the others. -/
theorem traceOut_actOn_pairProjector {p q : ι} (hpq : p ≠ q) {v : β → β → ℂ}
    (hv : ∑ b, ∑ c, v b c * starRingEnd ℂ (v b c) = 1) (F : (ι → β × β) → ℂ) :
    traceOut p (traceOut q (actOn (conjBy (pairProjector v)) ![p, q] F)) =
      contractPair (outerPair v) p q F := by
  obtain ⟨hp, hq⟩ := contractPair_ignores hpq (outerPair v) F
  funext z
  simp only [traceOut, actOn_pairProjector hpq, hq _ _, hp _ _,
    Function.update_self, Function.update_of_ne hpq]
  simp only [← sum_mul]
  rw [hv, one_mul]

theorem traceAll_perm {l l' : List ι} (h : l.Perm l') (F : (ι → β × β) → ℂ) :
    traceAll l F = traceAll l' F := by
  induction h generalizing F with
  | nil => rfl
  | cons q _ ih => exact ih _
  | swap p q l => exact congrArg (traceAll l) (traceOut_comm p q F)
  | trans _ _ ih ih' => exact (ih F).trans (ih' F)

theorem traceAll_append (l l' : List ι) (F : (ι → β × β) → ℂ) :
    traceAll (l ++ l') F = traceAll l' (traceAll l F) := by
  induction l generalizing F with
  | nil => rfl
  | cons q l ih => exact ih _

theorem traceAll_mul {l : List ι} {G : (ι → β × β) → ℂ}
    (hG : ∀ q ∈ l, Ignores q G) (F : (ι → β × β) → ℂ) :
    traceAll l (fun z => F z * G z) = fun z => traceAll l F z * G z := by
  induction l generalizing F with
  | nil => rfl
  | cons q l ih =>
      rw [traceAll, traceOut_mul (hG q List.mem_cons_self)]
      exact ih (fun x hx => hG x (List.mem_cons_of_mem _ hx)) _

/-- Tracing out all names is the trace over all legs. -/
theorem traceAll_named [Inhabited β] {l : List ι} (hd : l.Nodup)
    (Φ : (ℕ → β × β) → ℂ) (z : ι → β × β) :
    traceAll l (fun z => Φ (named l z)) z = trace l.length Φ := by
  induction l generalizing Φ with
  | nil =>
      rw [trace, List.length_nil, Fintype.sum_unique]
      refine congrArg Φ (funext fun i => ?_)
      have hpad : ∀ x : Fin 0 → β, pad x i = default := fun x =>
        dif_neg (Nat.not_lt_zero i)
      rw [named_of_le (Nat.zero_le i)]
      exact Prod.ext (hpad default).symm (hpad default).symm
  | cons q l ih =>
      obtain ⟨hq, hd'⟩ := List.nodup_cons.mp hd
      have htrace : traceOut q (fun z => Φ (named (q :: l) z)) =
          fun z => (fun y => ∑ b, Φ (insertLeg 0 (b, b) y)) (named l z) := by
        funext z
        refine sum_congr rfl fun b _ => congrArg Φ ?_
        have hupdate := named_update hd (i := 0) rfl z (b, b)
        rwa [List.erase_cons_head] at hupdate
      rw [traceAll, htrace]
      refine (ih hd' fun y => ∑ b, Φ (insertLeg 0 (b, b) y)).trans ?_
      rw [trace, trace, List.length_cons, sum_insertLeg (Nat.zero_le _), sum_comm]
      refine sum_congr rfl fun b _ => sum_congr rfl fun x _ => congrArg Φ ?_
      have hpad : ∀ i, pad (fun j : Fin (l.length + 1) => insertLeg 0 b (pad x) j) i =
          insertLeg 0 b (pad x) i := by
        intro i
        by_cases hi : i < l.length + 1
        · exact dif_pos hi
        · have hpos : i - 1 + 1 = i := by omega
          rw [pad, dif_neg hi, insertLeg, if_neg (by omega), if_neg (by omega),
            pad, dif_neg (by omega)]
      funext i
      rw [hpad]
      unfold insertLeg
      split_ifs <;> rfl

end Trace

end Q2NS.NamedTensor
