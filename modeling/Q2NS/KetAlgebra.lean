import Q2NS.Measurement

/-!
# State vectors as tensors

What `kron`, `apply` and `measure` do to the amplitudes of a state vector.
-/

namespace Q2NS

open NamedTensor QuadForm Loop Finset

/-! ## Legs -/

theorem Qpp.legs_injective {target : List ℕ} (h : target.Nodup) :
    Function.Injective (Qpp.legs target) :=
  List.nodup_iff_injective_get.mp h

theorem Qpp.legs_one (t : ℕ) : Qpp.legs [t] = ![t] := by
  funext a
  fin_cases a
  rfl

theorem Qpp.legs_two (s t : ℕ) : Qpp.legs [s, t] = ![s, t] := by
  funext a
  fin_cases a <;> rfl

theorem Qpp.legs_lt {target : List ℕ} {n : ℕ} (h : ∀ t ∈ target, t < n)
    (a : Fin target.length) : Qpp.legs target a < n :=
  h _ (List.get_mem target a)

/-- The checks of `apply` pass for a unitary on distinct subsystems. -/
theorem Qpp.applyChecks_ok {n : ℕ} {U : CMat} {target : List ℕ}
    (hU : U.Unitary target.length) (hne : target ≠ []) (hd : target.Nodup)
    (hlt : ∀ t ∈ target, t < n) : Qpp.applyChecks n U target = .ok () := by
  have hpos : 0 < 2 ^ target.length := by positivity
  have hn : n ≠ 0 := by
    obtain ⟨t, ht⟩ := List.exists_mem_of_ne_nil target hne
    have := hlt t ht
    omega
  have hrows := hU.rows
  have hcols := hU.cols
  rw [Qpp.applyChecks, if_neg (by omega), if_neg hne,
    if_neg (not_not.mpr (hrows.trans hcols.symm)), if_neg hn,
    if_neg (not_not.mpr ⟨hd, hlt⟩), if_neg (not_not.mpr hrows)]

/-- What a passed check says. -/
theorem Qpp.of_applyChecks {n : ℕ} {U : CMat} {target : List ℕ}
    (h : Qpp.applyChecks n U target = .ok ()) :
    target.Nodup ∧ ∀ t ∈ target, t < n := by
  unfold Qpp.applyChecks at h
  split_ifs at h with _ _ _ _ hv
  exact hv

/-- An empty list of subsystems is rejected. -/
theorem Qpp.applyChecks_nil (n : ℕ) (U : CMat) :
    Qpp.applyChecks n U [] = .error (.thrown "ZeroSize") := by
  rw [Qpp.applyChecks, if_pos rfl]
  split_ifs <;> rfl

/-- An outcome of positive weight is drawn, and it is the one asked for unless
that one has weight zero. -/
theorem Qpp.discrete_spec {w : Bool → ℝ} (hw : ∀ o, 0 ≤ w o)
    (hsum : w false + w true = 1) (draw : Bool) :
    0 < w (discrete (w false) (w true) draw) ∧
      (discrete (w false) (w true) draw = draw ∨ w draw = 0) := by
  cases draw with
  | false =>
      by_cases h0 : w false = 0
      · have hd : discrete (w false) (w true) false = true := by
          simp [discrete, h0]
        rw [hd]
        exact ⟨by linarith, .inr h0⟩
      · have hd : discrete (w false) (w true) false = false := by
          simp [discrete, h0]
        rw [hd]
        exact ⟨lt_of_le_of_ne (hw false) (Ne.symm h0), .inl rfl⟩
  | true =>
      by_cases h1 : w true = 0
      · have hd : discrete (w false) (w true) true = false := by
          simp [discrete, h1]
        rw [hd]
        exact ⟨by linarith, .inr h1⟩
      · have hd : discrete (w false) (w true) true = true := by
          simp [discrete, h1]
        rw [hd]
        exact ⟨lt_of_le_of_ne (hw true) (Ne.symm h1), .inl rfl⟩

namespace Ket

theorem eval_dependsOn (ψ : Ket) : DependsOn ψ.eval (Set.Iio ψ.n) :=
  onNat_dependsOn ψ.amp

theorem eval_kron (ψ φ : Ket) (y : ℕ → Bool) :
    (ψ.kron φ).eval y = ψ.eval y * φ.eval fun i => y (ψ.n + i) := rfl

theorem norm2_eq_inner (ψ : Ket) :
    (ψ.norm2 : ℂ) = inner (onFin ψ.n ψ.eval) (onFin ψ.n ψ.eval) := by
  rw [inner_self, eval, onFin_onNat, norm2]

theorem norm2_kron (ψ φ : Ket) :
    (ψ.kron φ).norm2 = ψ.norm2 * φ.norm2 := by
  rw [norm2, norm2, norm2, sum_mul_sum, ← Fintype.sum_prod_type']
  refine Fintype.sum_equiv (Fin.appendEquiv ψ.n φ.n).symm _ _ fun x => ?_
  simp only [kron, norm_mul, mul_pow]
  rfl

/-- A unitary on distinct subsystems. -/
theorem apply_ok {ψ : Ket} {U : CMat} {target : List ℕ}
    (hU : U.Unitary target.length) (hne : target ≠ []) (hd : target.Nodup)
    (hlt : ∀ t ∈ target, t < ψ.n) :
    ∃ ψ', ψ.apply U target = .ok ψ' ∧ ψ'.n = ψ.n ∧
      ψ'.eval = actOn (U.kernel target.length) (Qpp.legs target) ψ.eval ∧
      ψ'.norm2 = ψ.norm2 := by
  have hinj := Qpp.legs_injective hd
  let φ := actOn (U.kernel target.length) (Qpp.legs target) ψ.eval
  have hdep : DependsOn φ (Set.Iio ψ.n) :=
    actOn_dependsOn ψ.eval_dependsOn hinj (Qpp.legs_lt hlt)
  have heval : eval ⟨ψ.n, onFin ψ.n φ⟩ = φ := onNat_onFin hdep
  refine ⟨⟨ψ.n, onFin ψ.n φ⟩, ?_, rfl, heval, ?_⟩
  · rw [apply, Qpp.applyChecks_ok hU hne hd hlt]
    rfl
  · exact sum_norm_actOn hU.isometric hinj (Qpp.legs_lt hlt) ψ.amp

/-! ## Measuring a qubit -/

theorem eval_scale (z : ℂ) (ψ : Ket) (y : ℕ → Bool) :
    (ψ.scale z).eval y = z * ψ.eval y := rfl

theorem norm2_scale (z : ℂ) (ψ : Ket) :
    (ψ.scale z).norm2 = ‖z‖ ^ 2 * ψ.norm2 := by
  rw [norm2, norm2, mul_sum]
  refine sum_congr rfl fun x _ => ?_
  rw [← mul_pow, ← norm_mul]
  rfl

/-- The weight of outcome `o` when qubit `t` is measured in `Z`. -/
noncomputable def weight (ψ : Ket) (t : ℕ) (o : Bool) : ℝ :=
  ∑ x : Fin (ψ.n - 1) → Bool, ‖ψ.eval (insertLeg t o (pad x))‖ ^ 2

theorem eval_ip {ψ : Ket} {t : ℕ} (ht : t < ψ.n) (V : CMat) (i : ℕ)
    (y : ℕ → Bool) : (ψ.ip V i t).eval y =
      ∑ b : Bool, starRingEnd ℂ (V.entry b.toNat i) *
        ψ.eval (insertLeg t b y) := by
  have hn : ψ.n = ψ.n - 1 + 1 := by omega
  have hdep : DependsOn ψ.eval (Set.Iio (ψ.n - 1 + 1)) :=
    hn ▸ ψ.eval_dependsOn
  have hip : (ψ.ip V i t).eval y = ∑ b : Bool,
      starRingEnd ℂ (V.entry b.toNat i) *
        ψ.eval (insertLeg t b (pad fun j : Fin (ψ.n - 1) => y j)) := rfl
  rw [hip]
  refine sum_congr rfl fun b _ => ?_
  congr 1
  exact insertLeg_dependsOn hdep t (by omega) b fun i hi => pad_restrict y hi

/-- Column `o` of `gt.Z` picks the part with outcome `o`. -/
theorem eval_ip_gtZ {ψ : Ket} {t : ℕ} (ht : t < ψ.n) (o : Bool)
    (y : ℕ → Bool) : (ψ.ip Qpp.gtZ o.toNat t).eval y =
      sgn o * ψ.eval (insertLeg t o y) := by
  rw [eval_ip ht, Fintype.sum_bool]
  cases o <;> simp [Qpp.gtZ, matrixZ, makeMatrix, sgn]

theorem norm_sgn (o : Bool) : ‖sgn o‖ = 1 := by
  cases o <;> simp [sgn]

theorem norm2_ip_gtZ {ψ : Ket} {t : ℕ} (ht : t < ψ.n) (o : Bool) :
    (ψ.ip Qpp.gtZ o.toNat t).norm2 = ψ.weight t o := by
  refine sum_congr rfl fun x _ => ?_
  have heval := eval_ip_gtZ ht o (pad x)
  have hamp : (ψ.ip Qpp.gtZ o.toNat t).eval (pad x) =
      (ψ.ip Qpp.gtZ o.toNat t).amp x :=
    congrFun (onFin_onNat _) x
  rw [← hamp, heval, norm_mul, norm_sgn, one_mul]
  rfl

theorem weight_add {ψ : Ket} {t : ℕ} (ht : t < ψ.n) :
    ψ.weight t false + ψ.weight t true = ψ.norm2 := by
  obtain ⟨n, amp⟩ := ψ
  obtain ⟨m, rfl⟩ : ∃ m, n = m + 1 := ⟨n - 1, by simp only at ht; omega⟩
  have ht' : t < m + 1 := ht
  rw [norm2, sum_insertLeg (t := t) (by omega), Fintype.sum_bool, add_comm]
  rfl

theorem weight_nonneg (ψ : Ket) (t : ℕ) (o : Bool) : 0 ≤ ψ.weight t o :=
  sum_nonneg fun _ _ => sq_nonneg _

/-- `measure` in the basis of `gt.Z` on a unit vector. -/
theorem measure_ok {ψ : Ket} {t : ℕ} (ht : t < ψ.n) (hψ : ψ.norm2 = 1)
    (draw : Bool) :
    ∃ res s, ψ.measure Qpp.gtZ t draw = .ok (res, s) ∧
      0 < ψ.weight t res ∧ (res = draw ∨ ψ.weight t draw = 0) ∧
      s.n = ψ.n - 1 ∧ s.norm2 = 1 ∧
      ∀ y, s.eval y = (1 / (Real.sqrt (ψ.weight t res) : ℝ) : ℂ) *
        (sgn res * ψ.eval (insertLeg t res y)) := by
  have hadd := weight_add ht
  rw [hψ] at hadd
  let res := Qpp.discrete (ψ.weight t false) (ψ.weight t true) draw
  have hres : 0 < ψ.weight t res ∧ (res = draw ∨ ψ.weight t draw = 0) :=
    Qpp.discrete_spec (ψ.weight_nonneg t) hadd draw
  refine ⟨res, (ψ.ip Qpp.gtZ res.toNat t).scale
    (1 / (Real.sqrt (ψ.ip Qpp.gtZ res.toNat t).norm2 : ℝ)), ?_, hres.1,
    hres.2, rfl, ?_, ?_⟩
  · have hnz : ¬ (ψ.weight t false = 0 ∧ ψ.weight t true = 0) := by
      rintro ⟨h0, h1⟩
      rw [h0, h1] at hadd
      norm_num at hadd
    simp only [measure, norm2_ip_gtZ ht]
    rw [if_neg (by omega), if_neg (not_not.mpr ht), if_neg hnz]
    rfl
  · rw [norm2_scale, norm2_ip_gtZ ht, norm_div, norm_one, Complex.norm_real,
      Real.norm_of_nonneg (Real.sqrt_nonneg _), div_pow, one_pow,
      Real.sq_sqrt hres.1.le]
    exact one_div_mul_cancel hres.1.ne'
  · intro y
    rw [eval_scale, eval_ip_gtZ ht, norm2_ip_gtZ ht]

theorem apply_n {ψ ψ' : Ket} {U : CMat} {target : List ℕ}
    (h : ψ.apply U target = .ok ψ') : ψ'.n = ψ.n := by
  obtain ⟨_, _, h⟩ := bind_eq_ok.mp h
  rw [← Except.ok.inj h]

theorem measure_n {ψ s : Ket} {V : CMat} {t : ℕ} {draw res : Bool}
    (h : ψ.measure V t draw = .ok (res, s)) : s.n = ψ.n - 1 := by
  unfold measure at h
  dsimp only at h
  -- every branch but the last one throws
  split_ifs at h <;>
    try (obtain ⟨_, hthrow, _⟩ := bind_eq_ok.mp h; cases hthrow)
  obtain ⟨-, rfl⟩ := Prod.mk.inj (Except.ok.inj h)
  rfl

end Ket

/-- The rotation keeps what a gate keeps. -/
theorem rotate_keeps {σ α : Type} (f : σ → α)
    {apply : σ → CMat → List ℕ → Except Exit σ}
    (hkeep : ∀ {st st' U target}, apply st U target = .ok st' → f st' = f st)
    {st st' : σ} {target : ℕ} {basis : Basis}
    (h : rotate apply st target basis = .ok st') : f st' = f st := by
  cases basis with
  | Z => rw [← Except.ok.inj h]
  | X => exact hkeep h
  | Y =>
      obtain ⟨st₁, h₁, h₂⟩ := bind_eq_ok.mp h
      exact (hkeep h₂).trans (hkeep h₁)

theorem measuredKet_n {basis : Basis} {res : Bool} {ψ : Ket}
    (h : measuredKet basis res = .ok ψ) : ψ.n = 1 := by
  obtain ⟨oneQubit, hone, h⟩ := bind_eq_ok.mp h
  rw [rotate_keeps Ket.n Ket.apply_n h, ← Except.ok.inj hone]
  rfl

end Q2NS
