import Q2NS.Lib.NamedTensor

/-!
# Density matrices as tensors

A density matrix over legs `ι` is a tensor with a pair (row value, column value)
on each leg.  `conjBy K` is the tensor form of `ρ ↦ K ρ K†`, `outer v` of the
partial inner product `⟨v| ρ |v⟩`, and `density Φ` of `|Φ⟩⟨Φ|`.
-/

namespace Q2NS.NamedTensor

open Finset

variable {ι β : Type*} {k : ℕ}

/-- Row values. -/
def rowOf (z : ι → β × β) : ι → β := fun i => (z i).1

/-- Column values. -/
def colOf (z : ι → β × β) : ι → β := fun i => (z i).2

/-- The density tensor of a pure state. -/
def density (Φ : (ι → β) → ℂ) (z : ι → β × β) : ℂ :=
  Φ (rowOf z) * starRingEnd ℂ (Φ (colOf z))

/-- `ρ ↦ K ρ K†` on the acted legs. -/
def conjBy (K : (Fin k → β) → (Fin k → β) → ℂ) :
    (Fin k → β × β) → (Fin k → β × β) → ℂ := fun v w =>
  K (rowOf v) (rowOf w) * starRingEnd ℂ (K (colOf v) (colOf w))

/-- `⟨v| ρ |v⟩` on one leg. -/
def outer (v : β → ℂ) (b : β × β) : ℂ := starRingEnd ℂ (v b.1) * v b.2

theorem rowOf_patch (t : Fin k → ι) (w : Fin k → β × β) (z : ι → β × β) :
    rowOf (patch t w z) = patch t (rowOf w) (rowOf z) := by
  funext i
  exact Function.apply_extend Prod.fst t z i

theorem colOf_patch (t : Fin k → ι) (w : Fin k → β × β) (z : ι → β × β) :
    colOf (patch t w z) = patch t (colOf w) (colOf z) := by
  funext i
  exact Function.apply_extend Prod.snd t z i

theorem rowOf_update [DecidableEq ι] (z : ι → β × β) (q : ι) (b : β × β) :
    rowOf (Function.update z q b) = Function.update (rowOf z) q b.1 := by
  funext i
  by_cases hi : i = q
  · subst hi
    simp [rowOf]
  · simp [rowOf, hi]

theorem colOf_update [DecidableEq ι] (z : ι → β × β) (q : ι) (b : β × β) :
    colOf (Function.update z q b) = Function.update (colOf z) q b.2 := by
  funext i
  by_cases hi : i = q
  · subst hi
    simp [colOf]
  · simp [colOf, hi]

/-- A pair of assignments is an assignment of pairs. -/
def pairEquiv : (ι → β × β) ≃ (ι → β) × (ι → β) :=
  Equiv.arrowProdEquivProdArrow ι (fun _ => β) (fun _ => β)

theorem sum_pairs {M : Type*} [AddCommMonoid M] [Fintype β]
    (F : (Fin k → β) → (Fin k → β) → M) :
    ∑ w : Fin k → β × β, F (rowOf w) (colOf w) = ∑ u, ∑ v, F u v := by
  rw [← Fintype.sum_prod_type']
  exact Fintype.sum_equiv pairEquiv _ _ fun w => rfl

section

variable [Fintype β]

/-- Acting on a density tensor, rows and columns apart. -/
theorem actOn_conjBy (K : (Fin k → β) → (Fin k → β) → ℂ) (t : Fin k → ι)
    (F : (ι → β) → (ι → β) → ℂ) (z : ι → β × β) :
    actOn (conjBy K) t (fun z => F (rowOf z) (colOf z)) z =
      ∑ u : Fin k → β, ∑ v : Fin k → β, K (rowOf z ∘ t) u *
        F (patch t u (rowOf z)) (patch t v (colOf z)) *
          starRingEnd ℂ (K (colOf z ∘ t) v) := by
  simp only [actOn, rowOf_patch, colOf_patch]
  rw [← sum_pairs fun u v => K (rowOf z ∘ t) u *
    F (patch t u (rowOf z)) (patch t v (colOf z)) *
      starRingEnd ℂ (K (colOf z ∘ t) v)]
  refine sum_congr rfl fun w _ => ?_
  have hrow : rowOf (z ∘ t) = rowOf z ∘ t := rfl
  have hcol : colOf (z ∘ t) = colOf z ∘ t := rfl
  rw [conjBy, hrow, hcol]
  ring

/-- A gate acts on a pure state and on its density tensor alike. -/
theorem actOn_density (K : (Fin k → β) → (Fin k → β) → ℂ) (t : Fin k → ι)
    (Φ : (ι → β) → ℂ) :
    actOn (conjBy K) t (density Φ) = density (actOn K t Φ) := by
  funext z
  rw [show density Φ = fun z => Φ (rowOf z) * starRingEnd ℂ (Φ (colOf z)) from rfl,
    actOn_conjBy K t fun x y => Φ x * starRingEnd ℂ (Φ y)]
  simp only [density, actOn, map_sum, map_mul, sum_mul_sum]
  exact sum_congr rfl fun u _ => sum_congr rfl fun v _ => by ring

variable [DecidableEq ι]

/-- The partial inner product of a pure state is pure. -/
theorem contract_density (v : β → ℂ) (q : ι) (Φ : (ι → β) → ℂ) :
    contract (outer v) q (density Φ) =
      density (contract (fun b => starRingEnd ℂ (v b)) q Φ) := by
  funext z
  simp only [contract, density, outer, rowOf_update, colOf_update, map_sum,
    map_mul, Complex.conj_conj, sum_mul_sum]
  rw [Fintype.sum_prod_type]
  exact sum_congr rfl fun b _ => sum_congr rfl fun c _ => by ring

end

/-! ## Vectors up to phase -/

theorem density_smul (c : ℂ) (Φ : (ι → β) → ℂ) (z : ι → β × β) :
    density (fun x => c * Φ x) z = (‖c‖ ^ 2 : ℝ) * density Φ z := by
  rw [density, density, map_mul, mul_mul_mul_comm, Complex.mul_conj',
    Complex.ofReal_pow]

theorem density_mul (Φ Ψ : (ι → β) → ℂ) (z : ι → β × β) :
    density (fun x => Φ x * Ψ x) z = density Φ z * density Ψ z := by
  rw [density, density, density, map_mul, mul_mul_mul_comm]

theorem density_dependsOn {Φ : (ι → β) → ℂ} {S : Set ι} (h : DependsOn Φ S) :
    DependsOn (density Φ) S := by
  intro x y hxy
  have hrow : Φ (rowOf x) = Φ (rowOf y) :=
    h fun i hi => congrArg Prod.fst (hxy i hi)
  have hcol : Φ (colOf x) = Φ (colOf y) :=
    h fun i hi => congrArg Prod.snd (hxy i hi)
  rw [density, density, hrow, hcol]

/-- Two vectors have the same density tensor exactly when they are equal up to
a global phase. -/
theorem density_eq_iff {Φ Ψ : (ι → β) → ℂ} :
    density Φ = density Ψ ↔ ∃ c : ℂ, ‖c‖ = 1 ∧ Φ = fun x => c * Ψ x := by
  constructor
  · intro h
    have hpair : ∀ x y, Φ x * starRingEnd ℂ (Φ y) =
        Ψ x * starRingEnd ℂ (Ψ y) := fun x y =>
      congrFun h fun i => (x i, y i)
    have hnorm : ∀ x, ‖Φ x‖ = ‖Ψ x‖ := fun x => by
      have hx := congrArg norm (hpair x x)
      simp only [norm_mul, RCLike.norm_conj, ← pow_two] at hx
      exact (sq_eq_sq₀ (norm_nonneg _) (norm_nonneg _)).mp hx
    by_cases hzero : ∀ x, Ψ x = 0
    · refine ⟨1, norm_one, funext fun x => ?_⟩
      rw [hzero, mul_zero, ← norm_eq_zero, hnorm, hzero, norm_zero]
    · obtain ⟨a, ha⟩ := not_forall.mp hzero
      have hΦa : Φ a ≠ 0 := by
        rw [← norm_ne_zero_iff, hnorm, norm_ne_zero_iff]
        exact ha
      have hconj : starRingEnd ℂ (Φ a) ≠ 0 := (map_ne_zero _).mpr hΦa
      refine ⟨starRingEnd ℂ (Ψ a) / starRingEnd ℂ (Φ a), ?_,
        funext fun x => ?_⟩
      · rw [norm_div, RCLike.norm_conj, RCLike.norm_conj, hnorm,
          div_self (norm_ne_zero_iff.mpr ha)]
      · rw [div_mul_eq_mul_div, eq_div_iff hconj, hpair, mul_comm]
  · rintro ⟨c, hc, rfl⟩
    funext z
    rw [density_smul, hc, one_pow, Complex.ofReal_one, one_mul]

/-! ## Tensors with numbered legs -/

theorem rowOf_insertLeg (t : ℕ) (b : β × β) (z : ℕ → β × β) :
    rowOf (insertLeg t b z) = insertLeg t b.1 (rowOf z) := by
  funext i
  simp only [rowOf, insertLeg]
  split_ifs <;> rfl

theorem colOf_insertLeg (t : ℕ) (b : β × β) (z : ℕ → β × β) :
    colOf (insertLeg t b z) = insertLeg t b.2 (colOf z) := by
  funext i
  simp only [colOf, insertLeg]
  split_ifs <;> rfl

section

variable [Fintype β]

/-- `⟨v| ρ |v⟩` on leg `t`, which is removed. -/
def compress (v : β → ℂ) (t : ℕ) (F : (ℕ → β × β) → ℂ) :
    (ℕ → β × β) → ℂ := fun z => ∑ b, outer v b * F (insertLeg t b z)

theorem compress_density (v : β → ℂ) (t : ℕ) (Φ : (ℕ → β) → ℂ) :
    compress v t (density Φ) = density (project v t Φ) := by
  funext z
  simp only [compress, density, outer, project, rowOf_insertLeg,
    colOf_insertLeg, map_sum, map_mul, Complex.conj_conj, sum_mul_sum]
  rw [Fintype.sum_prod_type]
  exact sum_congr rfl fun b _ => sum_congr rfl fun c _ => by ring

/-- `|v⟩⟨v|` on one leg. -/
def projector (v : β → ℂ) (a b : Fin 1 → β) : ℂ :=
  v (a 0) * starRingEnd ℂ (v (b 0))

/-- Projecting leg `t` on `v`, and taking it out and putting `v` back. -/
theorem actOn_projector (v : β → ℂ) (t : ℕ) (F : (ℕ → β × β) → ℂ)
    (z : ℕ → β × β) :
    actOn (conjBy (projector v)) ![t] F z =
      v (z t).1 * starRingEnd ℂ (v (z t).2) * compress v t F (z ∘ skip t) := by
  rw [actOn_one, compress, mul_sum]
  refine sum_congr rfl fun b _ => ?_
  have hupdate : Function.update z t b = insertLeg t b (z ∘ skip t) := by
    rw [← update_insertLeg t (z t) b, insertLeg_comp_skip]
  simp only [hupdate, conjBy, projector, rowOf, colOf, outer, map_mul,
    Complex.conj_conj]
  ring

variable [Inhabited β]

/-- The trace over the first `n` legs. -/
def trace (n : ℕ) (F : (ℕ → β × β) → ℂ) : ℂ :=
  ∑ x : Fin n → β, F fun i => (pad x i, pad x i)

theorem trace_density (n : ℕ) (Φ : (ℕ → β) → ℂ) :
    trace n (density Φ) = ((∑ x : Fin n → β, ‖Φ (pad x)‖ ^ 2 : ℝ) : ℂ) := by
  rw [trace, Complex.ofReal_sum]
  refine sum_congr rfl fun x _ => ?_
  rw [Complex.ofReal_pow, ← Complex.mul_conj']
  rfl

theorem trace_sum {κ : Type*} (s : Finset κ) (n : ℕ)
    (F : κ → (ℕ → β × β) → ℂ) :
    trace n (fun z => ∑ j ∈ s, F j z) = ∑ j ∈ s, trace n (F j) :=
  sum_comm

end

end Q2NS.NamedTensor
