import Q2NS.Lib.DisjointLegs

/-!
# Reduced states

The reduced state of some legs is what is left when all other legs are traced out.  It
does not see what happens to the legs that are traced out: an isometry on them, a
factor that appears on new legs, and a complete measurement of one of them, weighted
over its outcomes, leave it as it is.
-/

namespace Q2NS.NamedTensor

open Finset

variable {ι β : Type*} [DecidableEq ι] [Fintype β]

theorem traceAll_sum {κ : Type*} (s : Finset κ) (l : List ι)
    (F : κ → (ι → β × β) → ℂ) :
    traceAll l (fun z => ∑ j ∈ s, F j z) = fun z => ∑ j ∈ s, traceAll l (F j) z := by
  induction l generalizing F with
  | nil => rfl
  | cons q l ih =>
      have hsum : traceOut q (fun z => ∑ j ∈ s, F j z) =
          fun z => ∑ j ∈ s, traceOut q (F j) z := funext fun z => sum_comm
      rw [traceAll, hsum]
      exact ih fun j => traceOut q (F j)

theorem traceAll_add (l : List ι) (F H : (ι → β × β) → ℂ) :
    traceAll l (fun z => F z + H z) = fun z => traceAll l F z + traceAll l H z := by
  induction l generalizing F H with
  | nil => rfl
  | cons q l ih =>
      have hsum : traceOut q (fun z => F z + H z) =
          fun z => traceOut q F z + traceOut q H z := funext fun z => sum_add_distrib
      rw [traceAll, hsum, ih]
      rfl

theorem traceAll_const_mul (l : List ι) (k : ℂ) (F : (ι → β × β) → ℂ) :
    traceAll l (fun z => k * F z) = fun z => k * traceAll l F z := by
  simp only [mul_comm k]
  exact traceAll_mul (fun q _ => ignores_const q k) F

/-- An isometry on legs that are traced out. -/
theorem traceAll_actOn_subset [DecidableEq β] {l t : List ι} (hd : l.Nodup)
    (hsub : l ⊆ t) {K : (Fin l.length → β) → (Fin l.length → β) → ℂ}
    (hK : Isometric K) (F : (ι → β × β) → ℂ) :
    traceAll t (actOn (conjBy K) l.get F) = traceAll t F := by
  have hperm := (List.subperm_append_diff_self_of_count_le
    (List.subperm_ext_iff.mp (hd.subperm hsub))).symm
  rw [traceAll_perm hperm, traceAll_append, traceAll_actOn hd hK, ← traceAll_append,
    ← traceAll_perm hperm]

/-- A factor of trace one on new legs, which are traced out with the others. -/
theorem traceAll_grow {l t : List ι} {E : (ι → β × β) → ℂ}
    (hE : traceAll l E = fun _ => 1) {F : (ι → β × β) → ℂ}
    (hF : ∀ q ∈ l, Ignores q F) :
    traceAll (t ++ l) (fun z => F z * E z) = traceAll t F := by
  have hcomm : (fun z => F z * E z) = fun z => E z * F z :=
    funext fun z => mul_comm _ _
  rw [traceAll_perm List.perm_append_comm, traceAll_append, hcomm, traceAll_mul hF, hE]
  simp only [one_mul]

/-! ## Complete measurements -/

/-- The vectors resolve the identity. -/
def Complete {κ : Type*} [Fintype κ] [DecidableEq β] (e : κ → β → ℂ) : Prop :=
  ∀ b c, ∑ o, starRingEnd ℂ (e o b) * e o c = if b = c then 1 else 0

section Complete

variable {κ : Type*} [Fintype κ] [DecidableEq β] {e : κ → β → ℂ} {q : ι}

/-- Over all outcomes the contractions of a leg add up to its trace. -/
theorem Complete.sum_contract (he : Complete e) (q : ι) (F : (ι → β × β) → ℂ) :
    (fun z => ∑ o, contract (outer (e o)) q F z) = traceOut q F := by
  funext z
  calc ∑ o, contract (outer (e o)) q F z
      = ∑ b : β × β, (∑ o, starRingEnd ℂ (e o b.1) * e o b.2) *
          F (Function.update z q b) := by
        simp only [contract, outer, sum_mul]
        exact sum_comm
    _ = ∑ b : β, ∑ c : β, if b = c then F (Function.update z q (b, c)) else 0 := by
        rw [Fintype.sum_prod_type]
        simp only [he _ _, ite_mul, one_mul, zero_mul]
    _ = traceOut q F z := by
        simp only [sum_ite_eq, mem_univ, if_true]
        rfl

/-- A complete measurement of a leg that is traced out, weighted over the outcomes,
whatever the leg is left in. -/
theorem Complete.sum_traceAll (he : Complete e) {t : List ι} (hq : q ∈ t)
    {F : (ι → β × β) → ℂ} {p : κ → ℂ} {M G : κ → (ι → β × β) → ℂ}
    (hM : ∀ o, p o ≠ 0 → traceOut q (M o) = fun _ => 1)
    (hG : ∀ o, p o ≠ 0 → G o = fun z => M o z * (1 / p o * contract (outer (e o)) q F z))
    (hzero : ∀ o, p o = 0 → contract (outer (e o)) q F = fun _ => 0) (z : ι → β × β) :
    ∑ o, p o * traceAll t (G o) z = traceAll t F z := by
  have hperm := List.perm_cons_erase hq
  have hbranch : ∀ o, p o * traceAll t (G o) z =
      traceAll (t.erase q) (contract (outer (e o)) q F) z := by
    intro o
    by_cases hp : p o = 0
    · rw [hp, zero_mul, hzero o hp]
      have hconst := congrFun (traceAll_const_mul (t.erase q) 0 fun _ : ι → β × β => 0) z
      simp only [zero_mul] at hconst
      exact hconst.symm
    · have hrest : Ignores q fun z => 1 / p o * contract (outer (e o)) q F z :=
        (ignores_const q _).mul (contract_ignores _ _ _)
      rw [hG o hp, traceAll_perm hperm, traceAll, traceOut_mul hrest, hM o hp]
      simp only [one_mul]
      rw [traceAll_const_mul, ← mul_assoc, mul_one_div_cancel hp, one_mul]
  calc ∑ o, p o * traceAll t (G o) z
      = ∑ o, traceAll (t.erase q) (contract (outer (e o)) q F) z :=
        sum_congr rfl fun o _ => hbranch o
    _ = traceAll (t.erase q) (traceOut q F) z := by
        rw [← he.sum_contract q F, traceAll_sum]
    _ = traceAll t F z := (congrFun (traceAll_perm hperm F) z).symm

end Complete

end Q2NS.NamedTensor
