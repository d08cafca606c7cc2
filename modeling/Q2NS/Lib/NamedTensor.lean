import Mathlib.Algebra.BigOperators.Pi
import Mathlib.Algebra.BigOperators.Ring.Finset
import Mathlib.Analysis.Complex.Basic
import Mathlib.Data.Fintype.BigOperators
import Mathlib.Logic.Function.DependsOn

/-!
# Tensors with named legs

A tensor is a function `Φ : (ι → β) → ℂ`: one value in `β` for each leg named in
`ι`.  `actOn K t Φ` applies the matrix `K` to the legs `t 0, t 1, …` in this
order, `contract v q Φ` sums leg `q` out against the vector `v`.

With `β = Bool` these are state vectors of qubits, with `β = Bool × Bool` (row
bit, column bit) density matrices.
-/

namespace Q2NS.NamedTensor

open Finset

variable {ι κ β : Type*} {k : ℕ}

/-! ## Overwriting legs -/

/-- `x` with the values `w` on the legs `t`. -/
noncomputable def patch (t : Fin k → ι) (w : Fin k → β) (x : ι → β) : ι → β :=
  Function.extend t w x

theorem patch_apply {t : Fin k → ι} (ht : Function.Injective t)
    (w : Fin k → β) (x : ι → β) (a : Fin k) : patch t w x (t a) = w a :=
  ht.extend_apply w x a

theorem patch_other {t : Fin k → ι} {i : ι} (hi : ∀ a, t a ≠ i)
    (w : Fin k → β) (x : ι → β) : patch t w x i = x i :=
  Function.extend_apply' w x i fun ⟨a, ha⟩ => hi a ha

theorem patch_comp {t : Fin k → ι} (ht : Function.Injective t)
    (w : Fin k → β) (x : ι → β) : patch t w x ∘ t = w :=
  Function.extend_comp ht w x

theorem patch_self {t : Fin k → ι} (ht : Function.Injective t) (x : ι → β) :
    patch t (x ∘ t) x = x := by
  funext i
  by_cases hi : ∃ a, t a = i
  · obtain ⟨a, rfl⟩ := hi
    exact patch_apply ht _ x a
  · exact patch_other (fun a ha => hi ⟨a, ha⟩) _ x

theorem patch_patch {t : Fin k → ι} (ht : Function.Injective t)
    (w v : Fin k → β) (x : ι → β) : patch t w (patch t v x) = patch t w x := by
  funext i
  by_cases hi : ∃ a, t a = i
  · obtain ⟨a, rfl⟩ := hi
    rw [patch_apply ht, patch_apply ht]
  · have hno : ∀ a, t a ≠ i := fun a ha => hi ⟨a, ha⟩
    rw [patch_other hno, patch_other hno, patch_other hno]

/-- Patching behind a renaming of the legs. -/
theorem patch_comp_rename {t : Fin k → ι} {f : ι → κ}
    (hft : Function.Injective (f ∘ t)) {i : ι}
    (hi : ∀ a, f (t a) = f i → t a = i) (w : Fin k → β) (x : κ → β) :
    patch (f ∘ t) w x (f i) = patch t w (x ∘ f) i := by
  have ht : Function.Injective t := hft.of_comp
  by_cases hex : ∃ a, t a = i
  · obtain ⟨a, rfl⟩ := hex
    rw [patch_apply ht]
    exact patch_apply hft w x a
  · rw [patch_other fun a ha => hex ⟨a, ha⟩]
    exact patch_other (fun a ha => hex ⟨a, hi a ha⟩) w x

section Few

variable [DecidableEq ι]

theorem patch_one (q : ι) (w : Fin 1 → β) (x : ι → β) :
    patch ![q] w x = Function.update x q (w 0) := by
  have hinj : Function.Injective ![q] := Function.injective_of_subsingleton _
  funext i
  by_cases hi : i = q
  · subst hi
    rw [Function.update_self]
    exact patch_apply hinj w x 0
  · rw [Function.update_of_ne hi]
    refine patch_other (fun a => ?_) w x
    rw [Matrix.cons_val_fin_one]
    exact Ne.symm hi

theorem patch_two {p q : ι} (hpq : p ≠ q) (w : Fin 2 → β) (x : ι → β) :
    patch ![p, q] w x =
      Function.update (Function.update x p (w 0)) q (w 1) := by
  have hinj : Function.Injective ![p, q] := by
    intro a b hab
    fin_cases a <;> fin_cases b
    · rfl
    · exact absurd hab hpq
    · exact absurd hab.symm hpq
    · rfl
  funext i
  by_cases hq : i = q
  · subst hq
    rw [Function.update_self]
    exact patch_apply hinj w x 1
  · rw [Function.update_of_ne hq]
    by_cases hp : i = p
    · subst hp
      rw [Function.update_self]
      exact patch_apply hinj w x 0
    · rw [Function.update_of_ne hp]
      refine patch_other (fun a => ?_) w x
      fin_cases a
      · exact Ne.symm hp
      · exact Ne.symm hq

end Few

/-! ## Acting on legs -/

section ActOn

variable [Fintype β]

/-- The matrix `K` applied to the legs `t`. -/
noncomputable def actOn (K : (Fin k → β) → (Fin k → β) → ℂ) (t : Fin k → ι)
    (Φ : (ι → β) → ℂ) : (ι → β) → ℂ := fun x =>
  ∑ w : Fin k → β, K (x ∘ t) w * Φ (patch t w x)

variable {K : (Fin k → β) → (Fin k → β) → ℂ} {t : Fin k → ι}

/-- Acting on legs that a factor does not read. -/
theorem actOn_mul {Φ G : (ι → β) → ℂ} (x : ι → β)
    (hG : ∀ w, G (patch t w x) = G x) :
    actOn K t (fun x => Φ x * G x) x = actOn K t Φ x * G x := by
  simp only [actOn, sum_mul]
  exact sum_congr rfl fun w _ => by rw [hG w, mul_assoc]

theorem actOn_smul (z : ℂ) (Φ : (ι → β) → ℂ) :
    actOn K t (fun x => z * Φ x) = fun x => z * actOn K t Φ x := by
  funext x
  simp only [actOn, mul_sum]
  exact sum_congr rfl fun w _ => mul_left_comm _ _ _

theorem actOn_sum {κ : Type*} (s : Finset κ) (Φ : κ → (ι → β) → ℂ) :
    actOn K t (fun x => ∑ j ∈ s, Φ j x) = fun x => ∑ j ∈ s, actOn K t (Φ j) x := by
  funext x
  simp only [actOn, mul_sum]
  exact sum_comm

theorem actOn_dependsOn {Φ : (ι → β) → ℂ} {S : Set ι} (hΦ : DependsOn Φ S)
    (ht : Function.Injective t) (htS : ∀ a, t a ∈ S) :
    DependsOn (actOn K t Φ) S := by
  intro x y hxy
  refine sum_congr rfl fun w _ => ?_
  have hcomp : x ∘ t = y ∘ t := funext fun a => hxy (t a) (htS a)
  rw [hcomp]
  congr 1
  refine hΦ fun i hi => ?_
  by_cases hex : ∃ a, t a = i
  · obtain ⟨a, rfl⟩ := hex
    rw [patch_apply ht, patch_apply ht]
  · have hno : ∀ a, t a ≠ i := fun a ha => hex ⟨a, ha⟩
    rw [patch_other hno, patch_other hno, hxy i hi]

/-- Renaming the legs of a tensor renames the legs that are acted on. -/
theorem actOn_rename {Φ : (ι → β) → ℂ} {S : Set ι} (hΦ : DependsOn Φ S)
    {f : ι → κ} (hf : Set.InjOn f S) (ht : Function.Injective t)
    (htS : ∀ a, t a ∈ S) (x : κ → β) :
    actOn K (f ∘ t) (fun x => Φ (x ∘ f)) x = actOn K t Φ (x ∘ f) := by
  have hft : Function.Injective (f ∘ t) := fun a b hab =>
    ht (hf (htS a) (htS b) hab)
  refine sum_congr rfl fun w _ => ?_
  congr 1
  exact hΦ fun i hi =>
    patch_comp_rename hft (fun a ha => hf (htS a) hi ha) w x

/-- Two matrices on the same legs compose. -/
theorem actOn_actOn (ht : Function.Injective t)
    (L : (Fin k → β) → (Fin k → β) → ℂ) (Φ : (ι → β) → ℂ) :
    actOn K t (actOn L t Φ) =
      actOn (fun v w => ∑ u, K v u * L u w) t Φ := by
  funext x
  simp only [actOn, patch_comp ht, patch_patch ht, mul_sum, sum_mul]
  rw [sum_comm]
  exact sum_congr rfl fun w _ => sum_congr rfl fun u _ => by ring

/-! ### One leg and two legs -/

variable [DecidableEq ι]

theorem actOn_one (K : (Fin 1 → β) → (Fin 1 → β) → ℂ) (q : ι)
    (Φ : (ι → β) → ℂ) (x : ι → β) :
    actOn K ![q] Φ x = ∑ b : β, K (fun _ => x q) (fun _ => b) *
      Φ (Function.update x q b) := by
  rw [actOn, ← (Equiv.funUnique (Fin 1) β).symm.sum_comp]
  refine sum_congr rfl fun b _ => ?_
  have hx : x ∘ ![q] = fun _ => x q := by
    funext a
    rw [Function.comp_apply, Matrix.cons_val_fin_one]
  rw [patch_one, hx]
  rfl

theorem actOn_two (K : (Fin 2 → β) → (Fin 2 → β) → ℂ) {p q : ι} (hpq : p ≠ q)
    (Φ : (ι → β) → ℂ) (x : ι → β) :
    actOn K ![p, q] Φ x = ∑ b : β, ∑ c : β, K ![x p, x q] ![b, c] *
      Φ (Function.update (Function.update x p b) q c) := by
  rw [actOn, ← (finTwoArrowEquiv β).symm.sum_comp, Fintype.sum_prod_type]
  refine sum_congr rfl fun b _ => sum_congr rfl fun c _ => ?_
  have hx : x ∘ ![p, q] = ![x p, x q] := by
    funext a
    fin_cases a <;> rfl
  rw [patch_two hpq, hx]
  rfl

end ActOn

/-! ## Contracting a leg -/

section Contract

variable [Fintype β] [DecidableEq ι]

/-- Leg `q` summed out against `v`. -/
def contract (v : β → ℂ) (q : ι) (Φ : (ι → β) → ℂ) : (ι → β) → ℂ := fun x =>
  ∑ b : β, v b * Φ (Function.update x q b)

theorem contract_mul {v : β → ℂ} {q : ι} {Φ G : (ι → β) → ℂ} (x : ι → β)
    (hG : ∀ b, G (Function.update x q b) = G x) :
    contract v q (fun x => Φ x * G x) x = contract v q Φ x * G x := by
  simp only [contract, sum_mul]
  exact sum_congr rfl fun b _ => by rw [hG b, mul_assoc]

end Contract

/-! ## Inner products -/

section Inner

variable [Fintype ι] [DecidableEq ι] [Fintype β]

/-- The inner product of two tensors with the same legs. -/
def inner (Φ Ψ : (ι → β) → ℂ) : ℂ := ∑ x, starRingEnd ℂ (Φ x) * Ψ x

theorem inner_self (Φ : (ι → β) → ℂ) :
    inner Φ Φ = ((∑ x, ‖Φ x‖ ^ 2 : ℝ) : ℂ) := by
  rw [inner, Complex.ofReal_sum]
  exact sum_congr rfl fun x _ => by rw [Complex.conj_mul', Complex.ofReal_pow]

/-- Exchanging the values on the legs `t` with a separate register. -/
theorem sum_patch {M : Type*} [AddCommMonoid M] {t : Fin k → ι}
    (ht : Function.Injective t) (F : (ι → β) → (Fin k → β) → M) :
    ∑ x, ∑ w, F (patch t w x) (x ∘ t) = ∑ x, ∑ w, F x w := by
  let σ : (ι → β) × (Fin k → β) → (ι → β) × (Fin k → β) :=
    fun z => (patch t z.2 z.1, z.1 ∘ t)
  have hσ : Function.Involutive σ := by
    rintro ⟨x, w⟩
    simp only [σ, patch_patch ht, patch_self ht, patch_comp ht]
  rw [← Fintype.sum_prod_type', ← Fintype.sum_prod_type']
  exact Fintype.sum_equiv hσ.toPerm _ _ fun z => rfl

variable [DecidableEq β]

/-- `K† K = 1`. -/
def Isometric (K : (Fin k → β) → (Fin k → β) → ℂ) : Prop :=
  ∀ v w, ∑ u, starRingEnd ℂ (K u v) * K u w = if v = w then 1 else 0

/-- A matrix with `K† K = 1` keeps inner products. -/
theorem inner_actOn [Nonempty β] {K : (Fin k → β) → (Fin k → β) → ℂ}
    (hK : Isometric K) {t : Fin k → ι} (ht : Function.Injective t)
    (Φ Ψ : (ι → β) → ℂ) :
    inner (actOn K t Φ) (actOn K t Ψ) = inner Φ Ψ := by
  have hcard : (Fintype.card (Fin k → β) : ℂ) ≠ 0 :=
    Nat.cast_ne_zero.mpr Fintype.card_ne_zero
  have hdummy : ∀ f : (ι → β) → ℂ, (Fintype.card (Fin k → β) : ℂ) * ∑ x, f x =
      ∑ x, ∑ w : Fin k → β, f (patch t w x) := by
    intro f
    rw [sum_patch ht fun x _ => f x, mul_sum]
    refine sum_congr rfl fun x _ => ?_
    rw [sum_const, card_univ, nsmul_eq_mul]
  have hcol : ∀ x, ∑ v, starRingEnd ℂ (actOn K t Φ (patch t v x)) *
      actOn K t Ψ (patch t v x) =
        ∑ w, starRingEnd ℂ (Φ (patch t w x)) * Ψ (patch t w x) := by
    intro x
    have hexpand : ∀ v, starRingEnd ℂ (actOn K t Φ (patch t v x)) *
        actOn K t Ψ (patch t v x) = ∑ u, ∑ w,
          starRingEnd ℂ (Φ (patch t u x)) * Ψ (patch t w x) *
            (starRingEnd ℂ (K v u) * K v w) := by
      intro v
      simp only [actOn, patch_comp ht, patch_patch ht, map_sum, map_mul,
        sum_mul_sum]
      exact sum_congr rfl fun u _ => sum_congr rfl fun w _ => by ring
    simp only [hexpand]
    rw [sum_comm]
    refine sum_congr rfl fun u _ => ?_
    rw [sum_comm]
    simp only [← mul_sum]
    rw [sum_eq_single u]
    · rw [hK u u, if_pos rfl, mul_one]
    · intro w _ hw
      rw [hK u w, if_neg (Ne.symm hw), mul_zero]
    · exact fun h => absurd (mem_univ u) h
  refine mul_left_cancel₀ hcard ?_
  rw [inner, inner, hdummy, hdummy]
  exact sum_congr rfl fun x _ => hcol x

end Inner

/-! ## Registers with legs `0, …, n - 1` -/

section Register

variable [Inhabited β] {n : ℕ}

/-- An assignment of the first `n` legs, continued by the default value. -/
def pad (x : Fin n → β) : ℕ → β := fun i =>
  if h : i < n then x ⟨i, h⟩ else default

/-- A tensor on `Fin n`, read on the first `n` legs. -/
def onNat (φ : (Fin n → β) → ℂ) : (ℕ → β) → ℂ := fun y => φ fun i => y i

/-- A tensor on `ℕ`, read with the default value on the legs from `n` on. -/
def onFin (n : ℕ) (Φ : (ℕ → β) → ℂ) : (Fin n → β) → ℂ := fun x => Φ (pad x)

theorem pad_val (x : Fin n → β) (i : Fin n) : pad x i = x i :=
  dif_pos i.isLt

theorem pad_of_lt (x : Fin n → β) {i : ℕ} (hi : i < n) :
    pad x i = x ⟨i, hi⟩ := dif_pos hi

theorem pad_restrict (y : ℕ → β) {i : ℕ} (hi : i < n) :
    pad (fun j : Fin n => y j) i = y i := dif_pos hi

omit [Inhabited β] in
theorem onNat_dependsOn (φ : (Fin n → β) → ℂ) :
    DependsOn (onNat φ) (Set.Iio n) := fun _ _ h =>
  congrArg φ (funext fun i => h i i.isLt)

theorem onFin_onNat (φ : (Fin n → β) → ℂ) : onFin n (onNat φ) = φ := by
  funext x
  exact congrArg φ (funext fun i => pad_val x i)

theorem onNat_onFin {Φ : (ℕ → β) → ℂ} (h : DependsOn Φ (Set.Iio n)) :
    onNat (onFin n Φ) = Φ := by
  funext y
  exact h fun i hi => pad_restrict y hi

/-- Acting on the first `n` legs, seen from `Fin n`. -/
theorem onFin_actOn [Fintype β] {K : (Fin k → β) → (Fin k → β) → ℂ}
    {t : Fin k → Fin n} (ht : Function.Injective t) (φ : (Fin n → β) → ℂ) :
    onFin n (actOn K (fun a => (t a : ℕ)) (onNat φ)) = actOn K t φ := by
  funext x
  have hren := actOn_rename (K := K) (dependsOn_univ φ)
    (f := fun i : Fin n => (i : ℕ)) (Fin.val_injective.injOn) ht
    (fun _ => Set.mem_univ _) (pad x)
  have hx : (pad x ∘ fun i : Fin n => (i : ℕ)) = x :=
    funext fun i => pad_val x i
  rw [hx] at hren
  exact hren

/-- A matrix with `K† K = 1` keeps the norm. -/
theorem sum_norm_actOn [Fintype β] [DecidableEq β]
    {K : (Fin k → β) → (Fin k → β) → ℂ} (hK : Isometric K) {t : Fin k → ℕ}
    (ht : Function.Injective t) (hlt : ∀ a, t a < n) (φ : (Fin n → β) → ℂ) :
    ∑ x, ‖onFin n (actOn K t (onNat φ)) x‖ ^ 2 = ∑ x, ‖φ x‖ ^ 2 := by
  have hinj : Function.Injective fun a => (⟨t a, hlt a⟩ : Fin n) :=
    fun a b hab => ht (Fin.val_eq_of_eq hab)
  have hact : onFin n (actOn K t (onNat φ)) =
      actOn K (fun a => (⟨t a, hlt a⟩ : Fin n)) φ :=
    onFin_actOn hinj φ
  have hinner := inner_actOn hK hinj φ φ
  rw [inner_self, inner_self, ← hact] at hinner
  exact_mod_cast hinner

/-! ### Removing a leg -/

/-- The assignment `y` with the value `b` put in at leg `t`. -/
def insertLeg (t : ℕ) (b : β) (y : ℕ → β) : ℕ → β := fun i =>
  if i < t then y i else if i = t then b else y (i - 1)

/-- Where leg `i` sat before leg `t` was removed. -/
def skip (t i : ℕ) : ℕ := if i < t then i else i + 1

omit [Inhabited β]

theorem insertLeg_self (t : ℕ) (b : β) (y : ℕ → β) :
    insertLeg t b y t = b := by
  simp [insertLeg]

theorem insertLeg_skip (t : ℕ) (b : β) (y : ℕ → β) (i : ℕ) :
    insertLeg t b y (skip t i) = y i := by
  by_cases hi : i < t
  · simp [insertLeg, skip, hi]
  · have h₁ : ¬ i + 1 < t := by omega
    have h₂ : ¬ i + 1 = t := by omega
    simp [insertLeg, skip, hi, h₁, h₂]

theorem exists_skip {t i : ℕ} (hi : i ≠ t) : ∃ j, skip t j = i := by
  by_cases hlt : i < t
  · exact ⟨i, if_pos hlt⟩
  · exact ⟨i - 1, by rw [skip, if_neg (by omega)]; omega⟩

theorem skip_lt {t i m : ℕ} (hi : i < m) : skip t i < m + 1 := by
  unfold skip
  split_ifs <;> omega

/-- Putting back what was there. -/
theorem insertLeg_comp_skip (t : ℕ) (x : ℕ → β) :
    insertLeg t (x t) (x ∘ skip t) = x := by
  funext i
  by_cases hi : i = t
  · subst hi
    exact insertLeg_self i _ _
  · obtain ⟨j, rfl⟩ := exists_skip hi
    rw [insertLeg_skip, Function.comp_apply]

theorem update_insertLeg (t : ℕ) (b c : β) (y : ℕ → β) :
    Function.update (insertLeg t b y) t c = insertLeg t c y := by
  funext i
  by_cases hi : i = t
  · subst hi
    rw [Function.update_self, insertLeg_self]
  · rw [Function.update_of_ne hi]
    obtain ⟨j, rfl⟩ := exists_skip hi
    rw [insertLeg_skip, insertLeg_skip]

theorem insertLeg_dependsOn {Φ : (ℕ → β) → ℂ} {m : ℕ}
    (h : DependsOn Φ (Set.Iio (m + 1))) (t : ℕ) (ht : t ≤ m) (b : β) :
    DependsOn (fun y => Φ (insertLeg t b y)) (Set.Iio m) := by
  intro x y hxy
  refine h fun i hi => ?_
  have hi' : i < m + 1 := hi
  by_cases hit : i = t
  · rw [hit, insertLeg_self, insertLeg_self]
  · obtain ⟨j, rfl⟩ := exists_skip hit
    rw [insertLeg_skip, insertLeg_skip]
    refine hxy j ?_
    unfold skip at hi' hit
    show j < m
    split_ifs at hi' hit <;> omega

/-- `⟨v|` applied to leg `t`, which is removed. -/
noncomputable def project [Fintype β] (v : β → ℂ) (t : ℕ) (Φ : (ℕ → β) → ℂ) :
    (ℕ → β) → ℂ := fun y =>
  ∑ b, starRingEnd ℂ (v b) * Φ (insertLeg t b y)

theorem project_dependsOn [Fintype β] {Φ : (ℕ → β) → ℂ} {m t : ℕ}
    (h : DependsOn Φ (Set.Iio (m + 1))) (ht : t ≤ m) (v : β → ℂ) :
    DependsOn (project v t Φ) (Set.Iio m) := fun _ _ hxy =>
  sum_congr rfl fun b _ =>
    congrArg (starRingEnd ℂ (v b) * ·) (insertLeg_dependsOn h t ht b hxy)

/-- A sum over `n + 1` legs, leg `t` taken out. -/
theorem sum_insertLeg [Inhabited β] [Fintype β] {M : Type*} [AddCommMonoid M]
    {m t : ℕ} (ht : t ≤ m) (F : (Fin (m + 1) → β) → M) :
    ∑ z, F z = ∑ b, ∑ x : Fin m → β, F fun i => insertLeg t b (pad x) i := by
  rw [← Fintype.sum_prod_type']
  let e : (Fin (m + 1) → β) ≃ β × (Fin m → β) :=
    { toFun := fun z => (z ⟨t, by omega⟩, fun i => z ⟨skip t i, skip_lt i.isLt⟩)
      invFun := fun p => fun i => insertLeg t p.1 (pad p.2) i
      left_inv := fun z => by
        funext i
        by_cases hi : (i : ℕ) = t
        · simp only [hi, insertLeg_self]
          exact congrArg z (Fin.ext hi.symm)
        · obtain ⟨j, hj⟩ := exists_skip hi
          have hjm : j < m := by
            have := i.isLt
            unfold skip at hj
            split_ifs at hj <;> omega
          simp only [← hj, insertLeg_skip, pad_of_lt _ hjm]
          exact congrArg z (Fin.ext hj)
      right_inv := fun p => by
        refine Prod.ext (insertLeg_self t _ _) (funext fun i => ?_)
        exact (insertLeg_skip t _ _ _).trans (pad_val _ i) }
  exact Fintype.sum_equiv e _ _ fun z => congrArg F (e.left_inv z).symm

end Register

end Q2NS.NamedTensor
