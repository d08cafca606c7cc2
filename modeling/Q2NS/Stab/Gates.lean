import Q2NS.Stab.Elimination

/-!
# The gates of the stabilizer backend

Each gate succeeds on a state that satisfies `RepInv`, keeps `RepInv` and acts
on the amplitudes as the gate's matrix does.
-/

namespace Q2NS.AffineState

open Finset QuadForm Loop

/-! ## The Hadamard gate -/

/-- What steps 3 to 6 of the Hadamard gate do to the active part. -/
structure AddedColumn (s : AffineState) (j : ℕ) (s' : AffineState) :
    Prop where
  grid : s'.Grid
  n : s'.n = s.n
  r : s'.r = s.r + 1
  pivots : s'.pivots = s.pivots ++ [j]
  a : ∀ i < s.n, ∀ d, s'.A.entry i d =
    if i = j then (if d = s.r then 1 else 0) else s.A.entry i d
  q : ∀ c < s.r, s'.Q.entry c s.r = s.A.entry j c
  den : ∀ y, s'.den y = invSqrt2 *
    (s.den (Function.update y j false) +
      sgn (y j) * s.den (Function.update y j true))

/-- All rows but `j` agree with `y`. -/
private def HitsExcept (s : AffineState) (y : ℕ → Bool) (j : ℕ)
    (X : Finset ℕ) : Prop :=
  ∀ i < s.n, i ≠ j → s.rowVal X i = (y i).toNat

private instance (s : AffineState) (y : ℕ → Bool) (j : ℕ) (X : Finset ℕ) :
    Decidable (HitsExcept s y j X) := by
  unfold HitsExcept
  infer_instance

private theorem hits_update {s : AffineState} {j : ℕ} (hj : j < s.n)
    (y : ℕ → Bool) (v : Bool) (X : Finset ℕ) :
    s.Hits (Function.update y j v) X ↔
      HitsExcept s y j X ∧ s.rowVal X j = v.toNat := by
  constructor
  · intro h
    refine ⟨fun i hi hij => ?_, ?_⟩
    · rw [h i hi, Function.update_of_ne hij]
    · rw [h j hj, Function.update_self]
  · rintro ⟨h, hv⟩ i hi
    by_cases hij : i = j
    · subst hij
      rw [hv, Function.update_self]
    · rw [h i hi hij, Function.update_of_ne hij]

private theorem addColumn_den {s s' : AffineState} (h : s.Grid) {j : ℕ}
    (hj : j < s.n) (hn : s'.n = s.n) (hr : s'.r = s.r + 1)
    (hphase : s'.phase = s.phase)
    (hA : ∀ i < s.n, ∀ d, s'.A.entry i d =
      if i = j then (if d = s.r then 1 else 0) else s.A.entry i d)
    (hb : ∀ i < s.n, s'.b.entry i = if i = j then 0 else s.b.entry i)
    (hQ : ∀ a b, s'.Q.entry a b =
      if a = s.r then (if b = s.r then 2 * s.b.entry j else s.A.entry j b)
      else if b = s.r then s.A.entry j a else s.Q.entry a b)
    (y : ℕ → Bool) :
    s'.den y = invSqrt2 * (s.den (Function.update y j false) +
      sgn (y j) * s.den (Function.update y j true)) := by
  have hsymm : Symm s'.Q.entry := by
    intro a b
    rw [hQ, hQ]
    by_cases ha : a = s.r <;> by_cases hb' : b = s.r <;>
      simp [ha, hb', h.qSymm a b]
  -- the new variable is read by row `j` only
  have hother : ∀ i < s.n, i ≠ j → ∀ X ⊆ range s.r,
      s'.rowVal X i = s.rowVal X i ∧
        s'.rowVal (insert s.r X) i = s.rowVal X i := by
    intro i hi hij X hX
    have hnot : s.r ∉ X := fun hmem => notMem_range_self (hX hmem)
    have hsum : ∑ d ∈ X, s'.A.entry i d = ∑ d ∈ X, s.A.entry i d :=
      sum_congr rfl fun d _ => by rw [hA i hi, if_neg hij]
    simp only [rowVal, sum_insert hnot, hsum]
    rw [hA i hi, if_neg hij, h.aZero i hi _ le_rfl, hb i hi, if_neg hij,
      zero_add]
    exact ⟨rfl, rfl⟩
  have hrow : ∀ X ⊆ range s.r,
      s'.rowVal X j = 0 ∧ s'.rowVal (insert s.r X) j = 1 := by
    intro X hX
    have hnot : s.r ∉ X := fun hmem => notMem_range_self (hX hmem)
    have hsum : ∑ d ∈ X, s'.A.entry j d = 0 := by
      refine sum_eq_zero fun d hd => ?_
      have hlt : d < s.r := mem_range.mp (hX hd)
      rw [hA j hj, if_pos rfl, if_neg hlt.ne]
    simp only [rowVal, sum_insert hnot, hsum]
    rw [hA j hj, if_pos rfl, if_pos rfl, hb j hj, if_pos rfl]
    exact ⟨rfl, rfl⟩
  have hhits : ∀ X ⊆ range s.r,
      (s'.Hits y X ↔ HitsExcept s y j X ∧ y j = false) ∧
        (s'.Hits y (insert s.r X) ↔ HitsExcept s y j X ∧ y j = true) := by
    intro X hX
    constructor
    · constructor
      · intro hy
        refine ⟨fun i hi hij => ?_, ?_⟩
        · rw [← (hother i hi hij X hX).1, hy i (hn ▸ hi)]
        · have hyj := hy j (hn ▸ hj)
          rw [(hrow X hX).1] at hyj
          exact Bool.toNat_eq_zero.mp hyj.symm
      · rintro ⟨hy, hv⟩ i hi
        rw [hn] at hi
        by_cases hij : i = j
        · subst hij
          rw [(hrow X hX).1, hv]
          rfl
        · rw [(hother i hi hij X hX).1, hy i hi hij]
    · constructor
      · intro hy
        refine ⟨fun i hi hij => ?_, ?_⟩
        · rw [← (hother i hi hij X hX).2, hy i (hn ▸ hi)]
        · have hyj := hy j (hn ▸ hj)
          rw [(hrow X hX).2] at hyj
          exact Bool.toNat_eq_one.mp hyj.symm
      · rintro ⟨hy, hv⟩ i hi
        rw [hn] at hi
        by_cases hij : i = j
        · subst hij
          rw [(hrow X hX).2, hv]
          rfl
        · rw [(hother i hi hij X hX).2, hy i hi hij]
  have hphaseX : ∀ X ⊆ range s.r,
      Complex.I ^ (s'.Q.entry s.r s.r + 2 * ∑ a ∈ X, s'.Q.entry a s.r) =
        (-1) ^ (s.rowVal X j) := by
    intro X hX
    have hsum : ∑ a ∈ X, s'.Q.entry a s.r = ∑ a ∈ X, s.A.entry j a := by
      refine sum_congr rfl fun a ha => ?_
      have hlt : a < s.r := mem_range.mp (hX ha)
      rw [hQ, if_neg hlt.ne, if_pos rfl]
    rw [hsum, hQ, if_pos rfl, if_pos rfl, ← mul_add, I_pow_two_mul, rowVal,
      ← neg_one_pow_eq_pow_mod_two]
  have hexp : expansion (s.r + 1) s'.Q.entry
      (fun X => if s'.Hits y X then (1 : ℂ) else 0) =
      expansion s.r s.Q.entry (fun X =>
        (if s.Hits (Function.update y j false) X then 1 else 0) +
          sgn (y j) * if s.Hits (Function.update y j true) X then 1 else 0) := by
    rw [expansion_succ hsymm]
    refine expansion_congr_form hsymm h.qSymm ?_ ?_ fun X hX => ?_
    · intro a ha
      rw [hQ, if_neg ha.ne, if_neg ha.ne]
    · intro a ha b hb' _
      rw [hQ, if_neg ha.ne, if_neg hb'.ne]
    · rw [hphaseX X hX]
      simp only [(hhits X hX).1, (hhits X hX).2, hits_update hj]
      have hval : s.rowVal X j = 0 ∨ s.rowVal X j = 1 := by
        have := s.rowVal_lt X j
        omega
      by_cases hx : HitsExcept s y j X <;> cases hy : y j <;>
        rcases hval with hv | hv <;> simp [hx, hv, sgn]
  have hsplit : ∀ φ ψ : Finset ℕ → ℂ, ∀ z : ℂ,
      expansion s.r s.Q.entry (fun X => φ X + z * ψ X) =
        expansion s.r s.Q.entry φ + z * expansion s.r s.Q.entry ψ := by
    intro φ ψ z
    rw [← expansion_smul]
    simp only [expansion, mul_add, sum_add_distrib]
  simp only [den, hr, hphase]
  rw [hexp, hsplit, pow_succ]
  ring

/-- A row has a one where `rowOnes` says so. -/
private theorem rowOnes_entry {s : AffineState} (h : s.Grid) {j : ℕ} (hj : j < s.n)
    (a : ℕ) : (if a ∈ s.rowOnes j then 1 else 0) = s.A.entry j a := by
  have hbit := h.aBit j hj a
  split_ifs with hmem
  · have := (mem_rowOnes.mp hmem).2
    omega
  · by_contra hne
    have hlt : a < s.r := by
      by_contra hge
      exact hne (h.aZero j hj a (not_lt.mp hge)).symm
    exact hmem (mem_rowOnes.mpr ⟨hlt, Ne.symm hne⟩)

/-- The loop that clears row `j` of `A`, and the one in its new column. -/
private theorem setRow_ok {s : AffineState} (h : s.Grid) {j : ℕ} (hj : j < s.n)
    (hr : s.r ≤ s.n) :
    ∃ A₀ A' : UMatrix,
      (s.rowOnes j).foldlM (fun A col => A.set j col 0) s.A = .ok A₀ ∧
      A₀.set j s.r 1 = .ok A' ∧ A'.rows = s.A.rows ∧ A'.cols = s.A.cols ∧
      ∀ i < s.n, ∀ d, A'.entry i d =
        if i = j then (if d = s.r then 1 else 0) else s.A.entry i d := by
  have har := h.aRows
  have hac := h.aCols
  obtain ⟨hok, hrows, hcols⟩ := UMatrix.foldlM_eq_ok (M := s.A)
    (l := s.rowOnes j) (f := fun A col => A.set j col 0)
    (g := fun A col => A.update j col fun _ => 0)
    (fun c hc M hMr hMc => by
      have hc' := (mem_rowOnes.mp hc).1
      exact ⟨UMatrix.modify_eq_ok (by omega) (by omega) _, hMr, hMc⟩)
  refine ⟨_, _, hok, UMatrix.modify_eq_ok (by omega) (by omega) _, hrows, hcols,
    fun i hi d => ?_⟩
  rw [UMatrix.update_entry, UMatrix.foldl_entry (g := fun x a b v =>
    if a = j ∧ b = x then 0 else v) (fun M x a b => rfl)]
  by_cases hij : i = j
  · subst hij
    simp only [true_and, if_true]
    rw [foldl_ite_eq (s.rowOnes_nodup i) d (fun _ => 0)]
    by_cases hd : d = s.r
    · simp [hd]
    · rw [if_neg hd, if_neg hd]
      split_ifs with hmem
      · rfl
      · rw [← rowOnes_entry h hi, if_neg hmem]
  · simp only [hij, false_and, if_false]
    exact foldl_fixed fun _ _ => rfl

/-- The loop that writes the new row and column of `Q`, and their last entry. -/
private theorem newColumn_ok {s : AffineState} (h : s.Grid) {j : ℕ} (hj : j < s.n)
    (hr : s.r ≤ s.n) :
    ∃ Q₀ Q' : UMatrix,
      (s.rowOnes j).foldlM (fun Q rowcol => do
        let Q ← Q.set rowcol s.r 1
        Q.set s.r rowcol 1) s.Q = .ok Q₀ ∧
      Q₀.set s.r s.r (2 * s.b.entry j) = .ok Q' ∧
      Q'.rows = s.Q.rows ∧ Q'.cols = s.Q.cols ∧
      ∀ a b, Q'.entry a b =
        if a = s.r then (if b = s.r then 2 * s.b.entry j else s.A.entry j b)
        else if b = s.r then s.A.entry j a else s.Q.entry a b := by
  have hqr := h.qRows
  have hqc := h.qCols
  obtain ⟨hok, hrows, hcols⟩ := UMatrix.foldlM_eq_ok (M := s.Q)
    (l := s.rowOnes j) (f := fun Q rowcol => do
      let Q ← Q.set rowcol s.r 1
      Q.set s.r rowcol 1)
    (g := fun Q rowcol =>
      (Q.update rowcol s.r fun _ => 1).update s.r rowcol fun _ => 1)
    (fun c hc M hMr hMc => by
      have hc' := (mem_rowOnes.mp hc).1
      refine ⟨?_, hMr, hMc⟩
      simp only [UMatrix.set]
      rw [UMatrix.modify_eq_ok (by omega) (by omega), ok_bind,
        UMatrix.modify_eq_ok (by simp; omega) (by simp; omega)])
  refine ⟨_, _, hok, UMatrix.modify_eq_ok (by omega) (by omega) _, hrows, hcols,
    fun a b => ?_⟩
  rw [UMatrix.update_entry, UMatrix.foldl_entry (g := fun x a b v =>
    if a = s.r ∧ b = x then 1 else if a = x ∧ b = s.r then 1 else v)
    (fun M x a b => by simp only [UMatrix.update_entry])]
  by_cases ha : a = s.r
  · by_cases hb : b = s.r
    · simp [ha, hb]
    · have hz : s.Q.entry a b = 0 := h.qZero a b ha.ge
      simp only [ha, hb, true_and, and_false, if_false, if_true]
      rw [← ha, hz, foldl_ite_eq (s.rowOnes_nodup j) b (fun _ => 1)]
      exact rowOnes_entry h hj b
  · by_cases hb : b = s.r
    · have hz : s.Q.entry a b = 0 := h.qZero' hb.ge
      simp only [ha, hb, false_and, and_true, if_false, if_true]
      rw [← hb, hz, foldl_ite_eq (s.rowOnes_nodup j) a (fun _ => 1)]
      exact rowOnes_entry h hj a
    · simp only [ha, hb, false_and, and_false, if_false]
      exact foldl_fixed fun _ _ => rfl

/-- The state with the new column is a `Grid`. -/
private theorem addedColumn_grid {s : AffineState} (h : s.Grid) {j : ℕ} (hj : j < s.n)
    (hr : s.r ≤ s.n) {A' Q' : UMatrix}
    (hArows : A'.rows = s.A.rows) (hAcols : A'.cols = s.A.cols)
    (hA : ∀ i < s.n, ∀ d, A'.entry i d =
      if i = j then (if d = s.r then 1 else 0) else s.A.entry i d)
    (hQrows : Q'.rows = s.Q.rows) (hQcols : Q'.cols = s.Q.cols)
    (hQ : ∀ a b, Q'.entry a b =
      if a = s.r then (if b = s.r then 2 * s.b.entry j else s.A.entry j b)
      else if b = s.r then s.A.entry j a else s.Q.entry a b) :
    Grid { s with
      A := A', Q := Q', b := s.b.update j fun _ => 0
      pivots := s.pivots ++ [j], r := s.r + 1 } := by
  have hbit := h.bBit j hj
  have hAj := h.aBit j hj
  refine
    { aRows := hArows ▸ h.aRows
      aCols := hAcols ▸ h.aCols
      qRows := hQrows ▸ h.qRows
      qCols := hQcols ▸ h.qCols
      bSize := h.bSize
      pivLen := by simp [h.pivLen]
      rLe := Nat.succ_le_succ hr
      aBit := fun i hi d => ?_
      aZero := fun i hi d hd => ?_
      bBit := fun i hi => ?_
      qSymm := fun a b => ?_
      qOff := fun a b hab => ?_
      qDiag := fun a => ?_
      qZero := fun a b ha => ?_
      phaseLt := h.phaseLt }
  · simp only [hA i hi d]
    split_ifs
    · norm_num
    · norm_num
    · exact h.aBit i hi d
  · have hd' : s.r + 1 ≤ d := hd
    simp only [hA i hi d]
    rw [if_neg (by omega : ¬ d = s.r), h.aZero i hi d (by omega), ite_self]
  · simp only [UVector.update_entry]
    split_ifs
    · norm_num
    · exact h.bBit i hi
  · simp only [hQ]
    by_cases ha : a = s.r <;> by_cases hb : b = s.r <;> simp [ha, hb, h.qSymm a b]
  · simp only [hQ]
    split_ifs with ha hb hb
    · exact absurd (ha.trans hb.symm) hab
    · exact hAj b
    · exact hAj a
    · exact h.qOff a b hab
  · simp only [hQ]
    split_ifs with ha
    · omega
    · exact h.qDiag a
  · have ha' : s.r + 1 ≤ a := ha
    simp only [hQ]
    rw [if_neg (by omega), h.aZero j hj a (by omega), h.qZero a b (by omega),
      ite_self]

theorem addColumn_spec {s : AffineState} (h : s.Grid) {j : ℕ} (hj : j < s.n)
    (hr : s.r ≤ s.n) :
    ∃ s', s.addColumn j = .ok s' ∧ AddedColumn s j s' := by
  have hbs := h.bSize
  obtain ⟨A₀, A', hA₀, hA', hArows, hAcols, hAe⟩ := setRow_ok h hj hr
  obtain ⟨Q₀, Q', hQ₀, hQ', hQrows, hQcols, hQe⟩ := newColumn_ok h hj hr
  have hcode : s.addColumn j = .ok { s with
      A := A', Q := Q', b := s.b.update j fun _ => 0
      pivots := s.pivots ++ [j], r := s.r + 1 } := by
    simp only [addColumn, aRowNonzeros_ok h.toShape hj, ok_bind, hA₀, hA',
      Nat.add_sub_cancel, hQ₀, UVector.get_eq_ok (by omega : j < s.b.size),
      hQ', UVector.set, UVector.modify_eq_ok (by omega : j < s.b.size),
      pure_eq_ok]
  rw [hcode]
  refine ⟨_, rfl, ?_⟩
  refine
    { grid := addedColumn_grid h hj hr hArows hAcols hAe hQrows hQcols hQe
      n := rfl
      r := rfl
      pivots := rfl
      a := hAe
      q := fun c hc => ?_
      den := fun y => ?_ }
  · simp only [hQe]
    rw [if_neg (by omega), if_pos trivial]
  · exact @addColumn_den s { s with
      A := A', Q := Q', b := s.b.update j fun _ => 0
      pivots := s.pivots ++ [j], r := s.r + 1 } h j hj rfl rfl rfl hAe
      (fun i _ => rfl) hQe y

theorem pivCol_eq_none {s : AffineState} (h : s.Shape) {j : ℕ}
    (hp : s.pivCol j = none) : ∀ d < s.r, s.piv d ≠ j := by
  intro d hd he
  have hmem := h.piv_mem hd
  rw [pivCol, List.findIdx?_eq_none_iff] at hp
  have := hp _ hmem
  rw [he] at this
  simp at this

theorem pivCol_eq_some {s : AffineState} (h : s.Shape) {j c : ℕ}
    (hp : s.pivCol j = some c) : c < s.r ∧ s.piv c = j := by
  rw [pivCol, List.findIdx?_eq_some_iff_getElem] at hp
  obtain ⟨hlt, he, -⟩ := hp
  refine ⟨h.pivLen ▸ hlt, piv_eq_of_getElem? ?_⟩
  rw [List.getElem?_eq_getElem hlt]
  simpa using he

/-- Row `j` is the principal row of the new column, and the other principal
rows stay. -/
theorem AddedColumn.isPivot {s s' : AffineState} {j d : ℕ} (h : s.Grid)
    (hj : j < s.n) (hs : AddedColumn s j s') (hd : d < s'.r)
    (hp : d < s.r → s.IsPivot d (s.piv d) ∧ s.piv d ≠ j) :
    s'.IsPivot d (s'.piv d) := by
  have hr := hs.r
  have hlen := h.pivLen
  by_cases hdr : d < s.r
  · obtain ⟨hpd, hne⟩ := hp hdr
    have hpiv : s'.piv d = s.piv d := by
      simp only [piv, hs.pivots, List.getD_eq_getElem?_getD]
      rw [List.getElem?_append_left (by omega)]
    rw [hpiv]
    refine ⟨hs.n ▸ hpd.1, fun e he => ?_⟩
    rw [hs.a _ hpd.1, if_neg hne]
    by_cases her : e < s.r
    · exact hpd.2 e her
    · rw [h.aZero _ hpd.1 e (by omega), if_neg (by omega)]
  · have hd' : d = s.r := by omega
    have hpiv : s'.piv d = j := by
      simp only [piv, hs.pivots, List.getD_eq_getElem?_getD]
      rw [List.getElem?_append_right (by omega), hd', ← hlen, Nat.sub_self]
      rfl
    rw [hpiv]
    refine ⟨hs.n ▸ hj, fun e _ => ?_⟩
    rw [hs.a j hj, if_pos rfl, hd']

/-- The amplitudes after a Hadamard gate on qubit `j`. -/
noncomputable def hadamard (j : ℕ) (Φ : (ℕ → Bool) → ℂ) (y : ℕ → Bool) : ℂ :=
  invSqrt2 * (Φ (Function.update y j false) +
    sgn (y j) * Φ (Function.update y j true))

/-- A call that keeps the invariant and acts on the vector as `T`. -/
structure Acts (T : ((ℕ → Bool) → ℂ) → (ℕ → Bool) → ℂ) (s s' : AffineState) :
    Prop where
  repInv : s'.RepInv
  n : s'.n = s.n
  den : s'.den = T s.den

theorem H_spec {s : AffineState} (h : s.RepInv) {j : ℕ} (hj : j < s.n) :
    ∃ s', s.H j = .ok s' ∧ Acts (hadamard j) s s' := by
  have hrle := h.r_le
  cases hp : s.pivCol j with
  | none =>
      obtain ⟨s', hok, hs⟩ := addColumn_spec h.toGrid hj hrle
      refine ⟨s', by simp only [H, hp, hok], ?_, hs.n, funext hs.den⟩
      refine { toGrid := hs.grid, pivots := fun d hd => ?_ }
      exact hs.isPivot h.toGrid hj hd fun hdr =>
        ⟨h.pivots d hdr, pivCol_eq_none h.toShape hp d hdr⟩
  | some c =>
      obtain ⟨hc, hcj⟩ := pivCol_eq_some h.toShape hp
      have hne : ∀ d < s.r, d ≠ c → s.piv d ≠ j := fun d hd hdc he =>
        hdc (h.piv_inj hd hc (he.trans hcj.symm))
      rcases reselectPrincipalRow_spec h.toGrid hc j with
        ⟨p, hpn, hpj, hAp, s₁, hok₁, hs₁⟩ | ⟨hzero, hok₁⟩
      · -- another row takes over, so `j` is free
        have hrep₁ := hs₁.repInv h.toGrid (h.except c) hc hpn hAp
        obtain ⟨s', hok, hs⟩ := addColumn_spec hrep₁.toGrid (j := j)
          (by rw [hs₁.n]; exact hj) hrep₁.r_le
        refine ⟨s', ?_, ?_, hs.n.trans hs₁.n, ?_⟩
        · simp only [H, hp, hok₁, ok_bind, hok, if_true, pure_eq_ok]
        · refine { toGrid := hs.grid, pivots := fun d hd => ?_ }
          refine hs.isPivot hrep₁.toGrid (hs₁.n ▸ hj) hd fun hdr =>
            ⟨hrep₁.pivots d hdr, ?_⟩
          rw [hs₁.piv h.toShape hc]
          split_ifs with hdc
          · exact_mod_cast hpj
          · exact hne d (hs₁.r ▸ hdr) hdc
        · funext y
          rw [hs.den y, hs₁.den, hs₁.den, hadamard]
      · -- column `c` loses its only one
        obtain ⟨s₁, hok, hs⟩ := addColumn_spec h.toGrid hj hrle
        have hzc : s₁.ZeroCol c := by
          intro i hi
          rw [hs.n] at hi
          rw [hs.a i hi]
          split_ifs with hij hcr
          · exact absurd hcr hc.ne
          · rfl
          · exact hzero i hi (by exact_mod_cast hij)
        have hexc : s₁.PivotsExcept c := fun d hd hdc =>
          hs.isPivot h.toGrid hj hd fun hdr =>
            ⟨h.pivots d hdr, hne d hdr hdc⟩
        have hAjc : s.A.entry j c = 1 := by
          have := (h.pivots c hc).self hc
          rwa [hcj] at this
        have hel : s₁.Eliminable c := by
          refine .inr ⟨s.r, hc.ne', ?_⟩
          rw [hs.grid.qSymm, hs.q c hc, hAjc]
          norm_num
        obtain ⟨s', hok', hs'⟩ := zeroColumnElim_spec hs.grid
          (by rw [hs.r]; omega) hzc hexc hel
        refine ⟨s', ?_, hs'.repInv, hs'.n.trans hs.n, ?_⟩
        · simp only [H, hp, hok₁, ok_bind, hok, hok', Bool.false_eq_true,
            if_false]
        · funext y
          rw [hs'.den y, hs.den y, hadamard]

end Q2NS.AffineState
