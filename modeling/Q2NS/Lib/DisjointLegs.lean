import Q2NS.Lib.PartialTrace

/-!
# Disjoint legs

Operators on disjoint legs commute, whatever the tensor.  An isometry on some legs keeps
the trace over them, and a pure state whose trace is zero is zero.
-/

namespace Q2NS.NamedTensor

open Finset

variable {ι β : Type*} {j k : ℕ}

/-- Two families of legs have none in common. -/
def Apart (s : Fin j → ι) (t : Fin k → ι) : Prop := ∀ a b, s a ≠ t b

theorem Apart.symm {s : Fin j → ι} {t : Fin k → ι} (h : Apart s t) : Apart t s :=
  fun b a he => h a b he.symm

theorem patch_comp_of_apart {s : Fin j → ι} {t : Fin k → ι} (h : Apart s t)
    (w : Fin k → β) (x : ι → β) : patch t w x ∘ s = x ∘ s :=
  funext fun a => patch_other (fun b => (h a b).symm) w x

theorem patch_comm {s : Fin j → ι} {t : Fin k → ι} (hs : Function.Injective s)
    (ht : Function.Injective t) (h : Apart s t) (v : Fin j → β) (w : Fin k → β)
    (x : ι → β) : patch s v (patch t w x) = patch t w (patch s v x) := by
  funext i
  by_cases his : ∃ a, s a = i
  · obtain ⟨a, rfl⟩ := his
    rw [patch_apply hs, patch_other (fun b => (h a b).symm), patch_apply hs]
  · have hno : ∀ a, s a ≠ i := fun a ha => his ⟨a, ha⟩
    rw [patch_other hno]
    by_cases hit : ∃ b, t b = i
    · obtain ⟨b, rfl⟩ := hit
      rw [patch_apply ht, patch_apply ht]
    · have hno' : ∀ b, t b ≠ i := fun b hb => hit ⟨b, hb⟩
      rw [patch_other hno', patch_other hno', patch_other hno]

variable [Fintype β]

/-- Operators on disjoint legs commute. -/
theorem actOn_comm {s : Fin j → ι} {t : Fin k → ι} (hs : Function.Injective s)
    (ht : Function.Injective t) (h : Apart s t) (K : (Fin j → β) → (Fin j → β) → ℂ)
    (L : (Fin k → β) → (Fin k → β) → ℂ) (Φ : (ι → β) → ℂ) :
    actOn K s (actOn L t Φ) = actOn L t (actOn K s Φ) := by
  funext x
  simp only [actOn, patch_comp_of_apart h, patch_comp_of_apart h.symm, mul_sum]
  rw [sum_comm]
  refine sum_congr rfl fun w _ => sum_congr rfl fun v _ => ?_
  rw [patch_comm hs ht h, mul_left_comm]

variable [DecidableEq ι]

/-! ## Traces -/

/-- Tracing out a list sums over its assignments. -/
theorem traceAll_eq_sum {l : List ι} (hd : l.Nodup) (F : (ι → β × β) → ℂ)
    (z : ι → β × β) :
    traceAll l F z = ∑ v : Fin l.length → β, F (patch l.get (fun a => (v a, v a)) z) := by
  induction l generalizing F with
  | nil =>
      refine ((Fintype.sum_unique fun v : Fin 0 → β => F (patch ([] : List ι).get
        (fun a => (v a, v a)) z)).trans (congrArg F ?_)).symm
      exact funext fun i => patch_other (fun a => a.elim0) _ _
  | cons q l ih =>
      obtain ⟨hq, hd'⟩ := List.nodup_cons.mp hd
      have hinj := List.nodup_iff_injective_get.mp hd
      have hinj' := List.nodup_iff_injective_get.mp hd'
      have hpatch : ∀ (b : β) (v : Fin l.length → β),
          patch (q :: l).get (fun a => (Fin.cons (α := fun _ => β) b v a,
            Fin.cons (α := fun _ => β) b v a)) z =
          Function.update (patch l.get (fun a => (v a, v a)) z) q (b, b) := by
        intro b v
        funext i
        by_cases hi : i = q
        · rw [hi, Function.update_self]
          exact patch_apply hinj _ _ 0
        · rw [Function.update_of_ne hi]
          by_cases hex : ∃ a, l.get a = i
          · obtain ⟨a, rfl⟩ := hex
            rw [patch_apply hinj']
            exact patch_apply hinj _ _ a.succ
          · have hno : ∀ a, l.get a ≠ i := fun a ha => hex ⟨a, ha⟩
            rw [patch_other hno, patch_other]
            exact Fin.cases (Ne.symm hi) hno
      rw [traceAll, ih hd']
      refine Eq.trans ?_ ((Fin.consEquiv fun _ => β).sum_comp fun v : Fin (l.length + 1) → β =>
        F (patch (q :: l).get (fun a => (v a, v a)) z))
      rw [Fintype.sum_prod_type, sum_comm]
      refine sum_congr rfl fun v _ => sum_congr rfl fun b _ => ?_
      exact congrArg F (hpatch b v).symm

/-- An isometry keeps the trace over its legs. -/
theorem traceAll_actOn [DecidableEq β] {l : List ι} (hd : l.Nodup)
    {K : (Fin l.length → β) → (Fin l.length → β) → ℂ} (hK : Isometric K)
    (F : (ι → β × β) → ℂ) : traceAll l (actOn (conjBy K) l.get F) = traceAll l F := by
  have hinj := List.nodup_iff_injective_get.mp hd
  funext z
  have hread : ∀ v : Fin l.length → β,
      actOn (conjBy K) l.get F (patch l.get (fun a => (v a, v a)) z) =
        ∑ w : Fin l.length → β × β, starRingEnd ℂ (K v (colOf w)) * K v (rowOf w) *
          F (patch l.get w z) := by
    intro v
    simp only [actOn, patch_comp hinj, patch_patch hinj]
    refine sum_congr rfl fun w _ => ?_
    rw [mul_comm (starRingEnd ℂ _)]
    rfl
  rw [traceAll_eq_sum hd, traceAll_eq_sum hd]
  calc ∑ v : Fin l.length → β,
        actOn (conjBy K) l.get F (patch l.get (fun a => (v a, v a)) z)
      = ∑ w : Fin l.length → β × β,
          (if colOf w = rowOf w then 1 else 0) * F (patch l.get w z) := by
        simp only [hread]
        rw [sum_comm]
        refine sum_congr rfl fun w _ => ?_
        rw [← sum_mul, hK]
    _ = ∑ u : Fin l.length → β, ∑ v : Fin l.length → β,
          (if v = u then 1 else 0) * F (patch l.get (fun a => (u a, v a)) z) :=
        sum_pairs fun u v => (if v = u then 1 else 0) *
          F (patch l.get (fun a => (u a, v a)) z)
    _ = ∑ u : Fin l.length → β, F (patch l.get (fun a => (u a, u a)) z) := by
        refine sum_congr rfl fun u _ => ?_
        rw [sum_eq_single u]
        · rw [if_pos rfl, one_mul]
        · exact fun v _ hv => by rw [if_neg hv, zero_mul]
        · exact fun h => absurd (mem_univ u) h

/-- The trace of a pure state is its squared norm. -/
theorem traceAll_density {l : List ι} (hd : l.Nodup) (Φ : (ι → β) → ℂ) (y : ι → β) :
    traceAll l (density Φ) (fun i => (y i, y i)) =
      ((∑ v : Fin l.length → β, ‖Φ (patch l.get v y)‖ ^ 2 : ℝ) : ℂ) := by
  rw [traceAll_eq_sum hd, Complex.ofReal_sum]
  refine sum_congr rfl fun v _ => ?_
  rw [density, rowOf_patch, colOf_patch]
  exact (Complex.mul_conj' _).trans (Complex.ofReal_pow _ 2).symm

/-- A pure state whose trace is zero is zero. -/
theorem eq_zero_of_traceAll {l : List ι} (hd : l.Nodup) {Φ : (ι → β) → ℂ}
    (h : traceAll l (density Φ) = fun _ => 0) : Φ = fun _ => 0 := by
  have hinj := List.nodup_iff_injective_get.mp hd
  funext y
  have hsum := congrFun h fun i => (y i, y i)
  rw [traceAll_density hd, Complex.ofReal_eq_zero,
    sum_eq_zero_iff_of_nonneg fun v _ => sq_nonneg _] at hsum
  have hy := hsum (y ∘ l.get) (mem_univ _)
  rwa [patch_self hinj, sq_eq_zero_iff, norm_eq_zero] at hy

end Q2NS.NamedTensor
