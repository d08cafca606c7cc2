import Q2NS.Stab.Columns

/-!
# Fixing the last variable and eliminating a zero column
-/

namespace Q2NS.AffineState

open Finset QuadForm Loop

theorem Shape.has_column {s : AffineState} (h : s.Shape) (hr : s.r ≠ 0) :
    ¬ (s.pivots = [] ∨ s.r = 0) := by
  rintro (hnil | h0)
  · have hlen := h.pivLen
    rw [hnil] at hlen
    exact hr hlen.symm
  · exact hr h0

/-! ## Clearing the last row and column of `Q` -/

/-- `Q'` is `Q` with its last active row and column cleared. -/
structure ClearedLast (s : AffineState) (Q' : UMatrix) : Prop where
  rows : Q'.rows = s.Q.rows
  cols : Q'.cols = s.Q.cols
  entry : ∀ a b, Q'.entry a b =
    if a = s.r - 1 ∨ b = s.r - 1 then 0 else s.Q.entry a b

theorem clearLast_ok {s : AffineState} (h : s.Grid) :
    ∃ Q₀ Q' : UMatrix,
      s.qOnes.foldlM (fun Q rowcol => do
        let Q ← Q.set rowcol (s.r - 1) 0
        Q.set (s.r - 1) rowcol 0) s.Q = .ok Q₀ ∧
      Q₀.set (s.r - 1) (s.r - 1) 0 = .ok Q' ∧ s.ClearedLast Q' := by
  have hqr := h.qRows
  have hqc := h.qCols
  have hrn := h.rLe
  set last := s.r - 1 with hlast
  obtain ⟨hok, hrows, hcols⟩ := UMatrix.foldlM_eq_ok (M := s.Q) (l := s.qOnes)
    (f := fun Q rowcol => do
      let Q ← Q.set rowcol last 0
      Q.set last rowcol 0)
    (g := fun Q rowcol =>
      (Q.update rowcol last fun _ => 0).update last rowcol fun _ => 0)
    (fun a ha M hMr hMc => by
      have ha' := (mem_qOnes.mp ha).1
      refine ⟨?_, hMr, hMc⟩
      simp only [UMatrix.set]
      rw [UMatrix.modify_eq_ok (by omega) (by omega), ok_bind,
        UMatrix.modify_eq_ok (by simp; omega) (by simp; omega)])
  refine ⟨_, _, hok, UMatrix.modify_eq_ok (by omega) (by omega) _,
    ⟨hrows, hcols, fun a b => ?_⟩⟩
  simp only [← hlast]
  rw [UMatrix.update_entry, UMatrix.foldl_entry (g := fun x a b v =>
    if a = last ∧ b = x then 0 else if a = x ∧ b = last then 0 else v)
    (fun M x a b => by simp only [UMatrix.update_entry])]
  by_cases ha : a = last
  · by_cases hb : b = last
    · simp [ha, hb]
    · have hzero : b ∉ s.qOnes → s.Q.entry last b = 0 := by
        intro hnot
        by_contra hne
        have hbr : b < s.r := by
          by_contra hge
          exact hne (h.qZero' (not_lt.mp hge))
        exact hnot (mem_qOnes.mpr ⟨by omega, by rwa [← h.qSymm]⟩)
      simp only [ha, hb, true_and, and_false, if_false, true_or, if_true]
      rw [foldl_ite_eq s.qOnes_nodup b (fun _ => 0)]
      split_ifs with hmem
      · rfl
      · exact hzero hmem
  · by_cases hb : b = last
    · have hzero : a ∉ s.qOnes → s.Q.entry a last = 0 := by
        intro hnot
        by_contra hne
        have har : a < s.r := by
          by_contra hge
          exact hne (h.qZero a _ (not_lt.mp hge))
        exact hnot (mem_qOnes.mpr ⟨by omega, hne⟩)
      simp only [ha, hb, false_and, and_true, if_false, or_true, if_true]
      rw [foldl_ite_eq s.qOnes_nodup a (fun _ => 0)]
      split_ifs with hmem
      · rfl
      · exact hzero hmem
    · simp only [ha, hb, false_and, and_false, if_false, or_self]
      exact foldl_fixed fun _ _ => rfl

/-! ## Fixing the last variable -/

/-- What `FixFinalBit` does to the active part. -/
structure FixedFinal (s : AffineState) (z : ℕ) (s' : AffineState) : Prop where
  grid : s'.Grid
  n : s'.n = s.n
  r : s'.r + 1 = s.r
  pivots : s'.pivots = s.pivots.dropLast
  a : ∀ i < s.n, ∀ d,
    s'.A.entry i d = if d = s.r - 1 then 0 else s.A.entry i d
  b : ∀ i < s.n, s'.b.entry i =
    (s.b.entry i + z * s.A.entry i (s.r - 1)) % 2
  den : ∀ y, s'.den y = ((Real.sqrt 2 : ℝ) : ℂ) *
    s.denW (fun d => if d = s.r - 1 then 1 else 0) z y

theorem FixedFinal.isPivot {s s' : AffineState} {z d p : ℕ}
    (hs : FixedFinal s z s') (hp : s.IsPivot d p) : s'.IsPivot d p := by
  have hr := hs.r
  refine ⟨hs.n ▸ hp.1, fun e he => ?_⟩
  rw [hs.a p hp.1, if_neg (by omega : e ≠ s.r - 1), hp.2 e (by omega)]

theorem piv_dropLast {s s' : AffineState} (h : s.Shape)
    (hp : s'.pivots = s.pivots.dropLast) {d : ℕ} (hd : d < s.r - 1) :
    s'.piv d = s.piv d := by
  have hlen := h.pivLen
  simp only [piv, hp, List.getD_eq_getElem?_getD, List.getElem?_dropLast]
  rw [if_pos (by omega)]

theorem FixedFinal.repInv {s s' : AffineState} {z : ℕ} (h : s.Grid)
    (hp : s.PivotsExcept (s.r - 1)) (hs : FixedFinal s z s') : s'.RepInv := by
  refine { toGrid := hs.grid, pivots := fun d hd => ?_ }
  have hr := hs.r
  rw [piv_dropLast h.toShape hs.pivots (by omega)]
  exact hs.isPivot (hp d (by omega) (by omega))

/-- The loops that run when the last variable is fixed to one. -/
private theorem shiftDiag_ok {s : AffineState} (h : s.Grid) {M : UMatrix}
    (hM : M.rows = s.Q.rows) (hM' : M.cols = s.Q.cols) :
    ∃ Q' : UMatrix,
      s.qOnes.foldlM (fun Q i => Q.modify i i fun q => (q + 2) % 4) M =
        .ok Q' ∧
      Q'.rows = s.Q.rows ∧ Q'.cols = s.Q.cols ∧
      ∀ a b, Q'.entry a b = if a = b ∧ a ∈ s.qOnes then
        (M.entry a b + 2) % 4 else M.entry a b := by
  have hqr := h.qRows
  have hqc := h.qCols
  have hrn := h.rLe
  obtain ⟨hok, hrows, hcols⟩ := UMatrix.foldlM_eq_ok (M := M) (l := s.qOnes)
    (f := fun Q i => Q.modify i i fun q => (q + 2) % 4)
    (g := fun Q i => Q.update i i fun q => (q + 2) % 4)
    (fun a ha N hNr hNc => by
      have ha' := (mem_qOnes.mp ha).1
      exact ⟨UMatrix.modify_eq_ok (by omega) (by omega) _, hNr, hNc⟩)
  refine ⟨_, hok, hrows.trans hM, hcols.trans hM', fun a b => ?_⟩
  rw [UMatrix.foldl_entry (g := fun x a b v =>
    if a = x ∧ b = x then (v + 2) % 4 else v) (fun M x a b => rfl)]
  by_cases hab : a = b
  · subst hab
    simp only [and_self, true_and]
    exact foldl_ite_eq s.qOnes_nodup a (fun v => (v + 2) % 4) _
  · rw [if_neg (fun h => hab h.1)]
    exact foldl_fixed fun x _ => if_neg fun h => hab (h.1.trans h.2.symm)

private theorem flipShift_ok {s : AffineState} (h : s.Grid) (c : ℕ) :
    ∃ b' : UVector,
      (s.colOnes c).foldlM (fun b row => b.modify row (· ^^^ 1)) s.b =
        .ok b' ∧ b'.size = s.b.size ∧
      ∀ i < s.n, b'.entry i = (s.b.entry i + s.A.entry i c) % 2 := by
  have hb := h.bSize
  obtain ⟨hok, hsize⟩ := UVector.foldlM_eq_ok (v := s.b) (l := s.colOnes c)
    (f := fun b row => b.modify row (· ^^^ 1))
    (g := fun b row => b.update row (· ^^^ 1))
    (fun i hi v hv => by
      have hi' := (mem_colOnes.mp hi).1
      exact ⟨UVector.modify_eq_ok (by omega) _, hv⟩)
  refine ⟨_, hok, hsize, fun i hi => ?_⟩
  rw [UVector.foldl_entry (g := fun x a v => if a = x then v ^^^ 1 else v)
    (fun v x a => rfl), foldl_ite_eq (s.colOnes_nodup c) i (· ^^^ 1)]
  have hbit := h.bBit i hi
  have hA := h.aBit i hi c
  by_cases hone : s.A.entry i c = 1
  · rw [if_pos (mem_colOnes.mpr ⟨hi, hone⟩), hone, xor_one_of_bit hbit]
  · have hzero : s.A.entry i c = 0 := by omega
    rw [if_neg fun hm => hone (mem_colOnes.mp hm).2, hzero, add_zero,
      Nat.mod_eq_of_lt hbit]

private theorem clearCol_ok {s : AffineState} (h : s.Grid) :
    ∃ A' : UMatrix,
      (s.colOnes (s.r - 1)).foldlM (fun A row => A.set row (s.r - 1) 0) s.A =
        .ok A' ∧
      A'.rows = s.A.rows ∧ A'.cols = s.A.cols ∧
      ∀ i < s.n, ∀ d,
        A'.entry i d = if d = s.r - 1 then 0 else s.A.entry i d := by
  have har := h.aRows
  have hac := h.aCols
  have hrn := h.rLe
  obtain ⟨hok, hrows, hcols⟩ := UMatrix.foldlM_eq_ok (M := s.A)
    (l := s.colOnes (s.r - 1)) (f := fun A row => A.set row (s.r - 1) 0)
    (g := fun A row => A.update row (s.r - 1) fun _ => 0)
    (fun i hi N hNr hNc => by
      have hi' := (mem_colOnes.mp hi).1
      exact ⟨UMatrix.modify_eq_ok (by omega) (by omega) _, hNr, hNc⟩)
  refine ⟨_, hok, hrows, hcols, fun i hi d => ?_⟩
  rw [UMatrix.foldl_entry (g := fun x a b v =>
    if a = x ∧ b = s.r - 1 then 0 else v) (fun M x a b => rfl)]
  by_cases hd : d = s.r - 1
  · subst hd
    simp only [and_true, if_true]
    rw [foldl_ite_eq (s.colOnes_nodup _) i (fun _ => 0)]
    split_ifs with hmem
    · rfl
    · have hA := h.aBit i hi (s.r - 1)
      by_contra hne
      exact hmem (mem_colOnes.mpr ⟨hi, by omega⟩)
  · simp only [hd, and_false, if_false]
    exact foldl_fixed fun _ _ => rfl

/-- Dropping the last column leaves a `Grid`. -/
private theorem popped_grid {s : AffineState} (h : s.Grid) {A' Q' : UMatrix}
    (hArows : A'.rows = s.A.rows) (hAcols : A'.cols = s.A.cols)
    (hA : ∀ i < s.n, ∀ d,
      A'.entry i d = if d = s.r - 1 then 0 else s.A.entry i d)
    (hQ : s.ClearedLast Q') : Grid { s with
      A := A', Q := Q', pivots := s.pivots.dropLast, r := s.r - 1 } := by
  have hge : ∀ d, s.r - 1 ≤ d → ¬ d = s.r - 1 → s.r ≤ d := by omega
  refine
    { aRows := hArows ▸ h.aRows
      aCols := hAcols ▸ h.aCols
      qRows := hQ.rows ▸ h.qRows
      qCols := hQ.cols ▸ h.qCols
      bSize := h.bSize
      pivLen := by simp [h.pivLen]
      rLe := (Nat.sub_le _ _).trans h.rLe
      aBit := fun i hi d => ?_
      aZero := fun i hi d hd => ?_
      bBit := h.bBit
      qSymm := fun a b => ?_
      qOff := fun a b hab => ?_
      qDiag := fun a => ?_
      qZero := fun a b ha => ?_
      phaseLt := h.phaseLt }
  · change A'.entry i d < 2
    rw [hA i hi]
    split_ifs
    · norm_num
    · exact h.aBit i hi d
  · change A'.entry i d = 0
    rw [hA i hi]
    split_ifs with hlast
    · rfl
    · exact h.aZero i hi d (hge d hd hlast)
  · change Q'.entry a b = Q'.entry b a
    simp only [hQ.entry, h.qSymm a b, or_comm (a := a = s.r - 1)]
  · change Q'.entry a b < 2
    rw [hQ.entry]
    split_ifs
    · norm_num
    · exact h.qOff a b hab
  · change Q'.entry a a < 4
    rw [hQ.entry]
    split_ifs
    · norm_num
    · exact h.qDiag a
  · change Q'.entry a b = 0
    rw [hQ.entry]
    split_ifs with hlast
    · rfl
    · exact h.qZero a b (hge a ha fun e => hlast (.inl e))

/-- The weight of the last column alone. -/
theorem sum_last_mod_two (l : ℕ) (X : Finset ℕ) :
    (∑ d ∈ X, if d = l then 1 else 0) % 2 = if l ∈ X then 1 else 0 := by
  rw [sum_ite_eq']
  split_ifs <;> rfl

/-- A sum over earlier columns does not see the last one. -/
private theorem sum_clearCol {s : AffineState} {A' : UMatrix} {r : ℕ}
    (hA : ∀ i < s.n, ∀ d, A'.entry i d = if d = r then 0 else s.A.entry i d)
    {i : ℕ} (hi : i < s.n) {X : Finset ℕ} (hX : X ⊆ range r) :
    ∑ d ∈ X, A'.entry i d = ∑ d ∈ X, s.A.entry i d := by
  refine sum_congr rfl fun d hd => ?_
  have hdr : d < r := mem_range.mp (hX hd)
  rw [hA i hi, if_neg hdr.ne]

private theorem scale_fixed (r : ℕ) :
    invSqrt2 ^ r = ((Real.sqrt 2 : ℝ) : ℂ) * invSqrt2 ^ (r + 1) := by
  rw [pow_succ', ← mul_assoc, sqrt_two_mul_invSqrt2, one_mul]

/-- The last variable is fixed to zero: its row and column are dropped. -/
private theorem fixedFinal_zero {s : AffineState} (h : s.Grid) (hr : s.r ≠ 0)
    {A' Q' : UMatrix} (hArows : A'.rows = s.A.rows) (hAcols : A'.cols = s.A.cols)
    (hA : ∀ i < s.n, ∀ d,
      A'.entry i d = if d = s.r - 1 then 0 else s.A.entry i d)
    (hQ : s.ClearedLast Q') : FixedFinal s 0 { s with
      A := A', Q := Q', pivots := s.pivots.dropLast, r := s.r - 1 } := by
  have hgrid := popped_grid h hArows hAcols hA hQ
  obtain ⟨r, hr'⟩ : ∃ r, s.r = r + 1 := ⟨s.r - 1, by omega⟩
  have hlast : s.r - 1 = r := by omega
  have hinner : ∀ a < r, ∀ b < r, Q'.entry a b = s.Q.entry a b := by
    intro a ha b hb'
    rw [hQ.entry, if_neg (by omega)]
  refine
    { grid := hgrid
      n := rfl
      r := by simp only; omega
      pivots := rfl
      a := hA
      b := fun i hi => by
        rw [zero_mul, add_zero, Nat.mod_eq_of_lt (h.bBit i hi)]
      den := fun y => ?_ }
  rw [hlast] at hA
  have hexp := expansion_fix_zero (r := r)
    (φ := fun X => if s.Hits y X then 1 else 0) h.qSymm
  simp only [den, denW, hr', Nat.add_sub_cancel, sum_last_mod_two]
  rw [scale_fixed, mul_assoc, mul_assoc, mul_assoc]
  congr 3
  refine Eq.trans ?_ (hexp.symm.trans (congrArg _ ?_))
  · refine expansion_congr_form hgrid.qSymm h.qSymm
      (fun a ha => by rw [hinner a ha a ha])
      (fun a ha b hb' _ => by rw [hinner a ha b hb']) fun X hX => ?_
    refine if_congr (forall₂_congr fun i hi => ?_) rfl rfl
    simp only [rowVal, sum_clearCol hA hi hX]
  · funext X
    by_cases hmem : r ∈ X <;> simp [hmem]

/-- What the loop over `q` does to the form when the last variable is one: twice the
entry in the last column is added to the diagonal. -/
private theorem shiftDiag_modEq {s : AffineState} (h : s.Grid) {Q₁ Q₂ : UMatrix}
    (hQ : s.ClearedLast Q₁)
    (hQ₂ : ∀ a b, Q₂.entry a b =
      if a = b ∧ a ∈ s.qOnes then (Q₁.entry a b + 2) % 4 else Q₁.entry a b)
    {a : ℕ} (ha : a < s.r - 1) :
    Q₂.entry a a ≡ s.Q.entry a a + 2 * s.Q.entry a (s.r - 1) [MOD 4] := by
  have hbit := h.qOff a (s.r - 1) (by omega)
  have hinner : Q₁.entry a a = s.Q.entry a a := by
    rw [hQ.entry, if_neg (by omega)]
  rw [hQ₂, hinner]
  by_cases hmem : a ∈ s.qOnes
  · have hne := (mem_qOnes.mp hmem).2
    have hone : s.Q.entry a (s.r - 1) = 1 := by omega
    rw [if_pos ⟨rfl, hmem⟩, hone]
    exact Nat.mod_modEq _ 4
  · have hz : s.Q.entry a (s.r - 1) = 0 := by
      by_contra hne
      exact hmem (mem_qOnes.mpr ⟨by omega, hne⟩)
    rw [if_neg fun e => hmem e.2, hz]
    rfl

/-- The state in which the last variable is one is a `Grid`. -/
private theorem shifted_grid {s : AffineState} {A' Q₁ Q₂ : UMatrix} {b' : UVector}
    (hgrid : Grid { s with
      A := A', Q := Q₁, pivots := s.pivots.dropLast, r := s.r - 1 })
    (hQrows : Q₂.rows = Q₁.rows) (hQcols : Q₂.cols = Q₁.cols)
    (hQ₂ : ∀ a b, Q₂.entry a b =
      if a = b ∧ a ∈ s.qOnes then (Q₁.entry a b + 2) % 4 else Q₁.entry a b)
    (hbsize : b'.size = s.b.size) (hb : ∀ i < s.n, b'.entry i < 2) (phase : ℕ) :
    Grid { s with
      A := A', Q := Q₂, b := b'
      phase := phase % 8
      pivots := s.pivots.dropLast, r := s.r - 1 } := by
  refine
    { aRows := hgrid.aRows
      aCols := hgrid.aCols
      qRows := hQrows ▸ hgrid.qRows
      qCols := hQcols ▸ hgrid.qCols
      bSize := hbsize ▸ hgrid.bSize
      pivLen := hgrid.pivLen
      rLe := hgrid.rLe
      aBit := hgrid.aBit
      aZero := hgrid.aZero
      bBit := hb
      qSymm := fun a b => ?_
      qOff := fun a b hab => ?_
      qDiag := fun a => ?_
      qZero := fun a b ha => ?_
      phaseLt := Nat.mod_lt _ (by norm_num) }
  · change Q₂.entry a b = Q₂.entry b a
    have hsymm : Q₁.entry a b = Q₁.entry b a := hgrid.qSymm a b
    by_cases hab : a = b
    · rw [hab]
    · rw [hQ₂, hQ₂, if_neg (fun e => hab e.1), if_neg (fun e => hab e.1.symm), hsymm]
  · change Q₂.entry a b < 2
    rw [hQ₂, if_neg fun e => hab e.1]
    exact hgrid.qOff a b hab
  · change Q₂.entry a a < 4
    rw [hQ₂]
    split_ifs
    · exact Nat.mod_lt _ (by norm_num)
    · exact hgrid.qDiag a
  · have hones : a ∉ s.qOnes := fun hmem => by
      have hlt := (mem_qOnes.mp hmem).1
      have hge : s.r - 1 ≤ a := ha
      omega
    change Q₂.entry a b = 0
    rw [hQ₂, if_neg fun e => hones e.2]
    exact hgrid.qZero a b ha

/-- The last variable is fixed to one: its row goes to the diagonal, its column to the
shift and its diagonal entry to the phase. -/
private theorem fixedFinal_one {s : AffineState} (h : s.Grid) (hr : s.r ≠ 0)
    {A' Q₁ Q₂ : UMatrix} {b' : UVector}
    (hArows : A'.rows = s.A.rows) (hAcols : A'.cols = s.A.cols)
    (hA : ∀ i < s.n, ∀ d,
      A'.entry i d = if d = s.r - 1 then 0 else s.A.entry i d)
    (hQ : s.ClearedLast Q₁) (hQrows : Q₂.rows = s.Q.rows) (hQcols : Q₂.cols = s.Q.cols)
    (hQ₂ : ∀ a b, Q₂.entry a b =
      if a = b ∧ a ∈ s.qOnes then (Q₁.entry a b + 2) % 4 else Q₁.entry a b)
    (hbsize : b'.size = s.b.size)
    (hb : ∀ i < s.n, b'.entry i = (s.b.entry i + s.A.entry i (s.r - 1)) % 2) :
    FixedFinal s 1 { s with
      A := A', Q := Q₂, b := b'
      phase := (s.phase + 2 * (s.Q.entry (s.r - 1) (s.r - 1) % 4)) % 8
      pivots := s.pivots.dropLast, r := s.r - 1 } := by
  have hgrid := shifted_grid (popped_grid h hArows hAcols hA hQ)
    (hQrows.trans hQ.rows.symm) (hQcols.trans hQ.cols.symm) hQ₂ hbsize
    (fun i hi => hb i hi ▸ Nat.mod_lt _ (by norm_num))
    (s.phase + 2 * (s.Q.entry (s.r - 1) (s.r - 1) % 4))
  obtain ⟨r, hr'⟩ : ∃ r, s.r = r + 1 := ⟨s.r - 1, by omega⟩
  have hlast : s.r - 1 = r := by omega
  have hnot : ∀ X ⊆ range r, r ∉ X := fun X hX hmem =>
    notMem_range_self (hX hmem)
  refine
    { grid := hgrid
      n := rfl
      r := by simp only; omega
      pivots := rfl
      a := hA
      b := fun i hi => by rw [one_mul]; exact hb i hi
      den := fun y => ?_ }
  have hdiag := fun a ha => shiftDiag_modEq h hQ hQ₂ (a := a) ha
  have hQe := hQ.entry
  rw [hlast] at hA hb hdiag hQe
  have hexp := expansion_fix_one (r := r)
    (φ := fun X => if s.Hits y X then 1 else 0) h.qSymm
  have hu : omega8 ^ ((s.phase + 2 * (s.Q.entry r r % 4)) % 8) =
      omega8 ^ s.phase * Complex.I ^ s.Q.entry r r := by
    rw [omega8_pow_mod, pow_add, pow_mul, omega8_sq,
      I_pow_congr (Nat.mod_modEq _ 4)]
  simp only [den, denW, hr', Nat.add_sub_cancel, sum_last_mod_two]
  rw [scale_fixed, hu, mul_assoc, mul_assoc, mul_assoc, mul_assoc]
  congr 3
  refine Eq.trans (congrArg _ ?_) (hexp.symm.trans (congrArg _ ?_))
  · refine expansion_congr_form hgrid.qSymm ?_ (fun a ha => ?_)
      (fun a ha b hb' hab => ?_) fun X hX => ?_
    · intro a b
      by_cases hab : a = b
      · rw [hab]
      · simp only [hab, Ne.symm hab, if_false, h.qSymm a b]
    · simp only [if_true]
      exact hdiag a ha
    · simp only [hab, if_false, false_and, hQ₂, hQe, if_neg (by omega : ¬ (a = r ∨ b = r))]
      rfl
    · refine if_congr (forall₂_congr fun i hi => ?_) rfl rfl
      simp only [rowVal, sum_clearCol hA hi hX, sum_insert (hnot X hX)]
      rw [hb i hi, Nat.mod_add_mod, add_assoc]
  · funext X
    by_cases hmem : r ∈ X <;> simp [hmem]

theorem fixFinalBit_spec {s : AffineState} (h : s.Grid) (hr : s.r ≠ 0)
    {z : ℕ} (hz : z < 2) :
    ∃ s', s.fixFinalBit z = .ok s' ∧ FixedFinal s z s' := by
  have hqr := h.qRows
  have hqc := h.qCols
  have hrn := h.rLe
  obtain ⟨A', hA, hArows, hAcols, hAe⟩ := clearCol_ok h
  obtain ⟨Q₀, Q₁, hQ₀, hQ₁, hQ⟩ := clearLast_ok h
  obtain ⟨Q₂, hQ₂, hQ₂rows, hQ₂cols, hQ₂e⟩ := shiftDiag_ok h hQ.rows hQ.cols
  obtain ⟨b', hb, hbsize, hbe⟩ := flipShift_ok h (s.r - 1)
  have hpop := h.toShape.has_column hr
  have hcode : s.fixFinalBit z = .ok (if z = 1 then
      { s with
        A := A', Q := Q₂, b := b'
        phase := (s.phase + 2 * (s.Q.entry (s.r - 1) (s.r - 1) % 4)) % 8
        pivots := s.pivots.dropLast, r := s.r - 1 }
      else
      { s with
        A := A', Q := Q₁, pivots := s.pivots.dropLast, r := s.r - 1 }) := by
    simp only [fixFinalBit, assert, if_pos hr, ok_bind,
      aColNonzeros_ok h.toShape (by omega : s.r - 1 < s.r),
      qNonzeros_ok h.toShape hr,
      UMatrix.get_eq_ok (by omega : s.r - 1 < s.Q.rows)
        (by omega : s.r - 1 < s.Q.cols), hA, hQ₀, hQ₁]
    by_cases hz1 : z = 1
    · simp only [hz1, if_true, hQ₂, ok_bind, hb, pure_eq_ok, popColumn,
        if_neg hpop]
    · simp only [hz1, if_false, ok_bind, pure_eq_ok, popColumn, if_neg hpop]
  refine ⟨_, hcode, ?_⟩
  obtain rfl | rfl : z = 0 ∨ z = 1 := by omega
  · rw [if_neg (by norm_num)]
    exact fixedFinal_zero h hr hArows hAcols hAe hQ
  · rw [if_pos rfl]
    exact fixedFinal_one h hr hArows hAcols hAe hQ hQ₂rows hQ₂cols hQ₂e hbsize hbe

/-! ## Eliminating a zero column -/

/-- A column that no row of the state reads. -/
def ZeroCol (s : AffineState) (c : ℕ) : Prop := ∀ i < s.n, s.A.entry i c = 0

/-- The state after the last column, which is zero, has been dropped. -/
def popZero (s : AffineState) (Q : UMatrix) : AffineState :=
  { s with Q := Q, pivots := s.pivots.dropLast, r := s.r - 1 }

section PopZero

variable {s : AffineState} {Q' : UMatrix}

theorem popZero_grid (h : s.Grid) (hz : s.ZeroCol (s.r - 1))
    (hQ : s.ClearedLast Q') : (s.popZero Q').Grid := by
  refine popped_grid h rfl rfl (fun i hi d => ?_) hQ
  split_ifs with hd
  · rw [hd, hz i hi]
  · rfl

theorem popZero_repInv (h : s.Grid) (hz : s.ZeroCol (s.r - 1))
    (hQ : s.ClearedLast Q') (hp : s.PivotsExcept (s.r - 1)) :
    (s.popZero Q').RepInv := by
  refine { toGrid := popZero_grid h hz hQ, pivots := fun d hd => ?_ }
  have hd' : d < s.r - 1 := hd
  have hpd := hp d (by omega) hd'.ne
  rw [piv_dropLast h.toShape rfl hd']
  exact ⟨hpd.1, fun e he => hpd.2 e (by simp only [popZero] at he; omega)⟩

/-- The rows do not see the dropped variable. -/
theorem hits_insert_zero (hz : s.ZeroCol (s.r - 1)) (y : ℕ → Bool)
    {X : Finset ℕ} (hX : s.r - 1 ∉ X) :
    s.Hits y (insert (s.r - 1) X) ↔ s.Hits y X := by
  refine forall₂_congr fun i hi => ?_
  rw [rowVal, rowVal, sum_insert hX, hz i hi, zero_add]

theorem ClearedLast.inner (hQ : s.ClearedLast Q') {a b : ℕ} (ha : a < s.r - 1)
    (hb : b < s.r - 1) : Q'.entry a b = s.Q.entry a b := by
  rw [hQ.entry, if_neg (by omega)]

/-- An even diagonal entry leaves a parity constraint on the other columns. -/
theorem den_eq_popZero_even (h : s.Grid) (hr : s.r ≠ 0)
    (hz : s.ZeroCol (s.r - 1)) (hQ : s.ClearedLast Q')
    (hu : s.Q.entry (s.r - 1) (s.r - 1) % 2 = 0) (y : ℕ → Bool) :
    s.den y = ((Real.sqrt 2 : ℝ) : ℂ) *
      (s.popZero Q').denW (fun a => s.Q.entry a (s.r - 1))
        (s.Q.entry (s.r - 1) (s.r - 1) / 2) y := by
  have hgrid := popZero_grid h hz hQ
  obtain ⟨r, hr'⟩ : ∃ r, s.r = r + 1 := ⟨s.r - 1, by omega⟩
  have hlast : s.r - 1 = r := by omega
  have hdiag := h.qDiag r
  have hnot : ∀ X ⊆ range r, r ∉ X := fun X hX hmem =>
    notMem_range_self (hX hmem)
  have hins : ∀ X ⊆ range r, s.Hits y (insert r X) ↔ s.Hits y X := by
    intro X hX
    have hi := hits_insert_zero hz y (X := X) (by rw [hlast]; exact hnot X hX)
    rwa [hlast] at hi
  rw [hlast] at hu
  have hexp := expansion_even_column (r := r)
    (φ := fun X => if s.Hits y X then 1 else 0) h.qSymm (by omega)
    (fun X hX => by simp only [hins X hX])
  have hcongr : expansion r s.Q.entry (fun X =>
      if (∑ a ∈ X, s.Q.entry a r) % 2 = s.Q.entry r r / 2 then
        (if s.Hits y X then (1 : ℂ) else 0) else 0) =
      expansion r Q'.entry (fun X =>
        if (∑ a ∈ X, s.Q.entry a r) % 2 = s.Q.entry r r / 2 ∧
          (s.popZero Q').Hits y X then 1 else 0) := by
    refine expansion_congr_form h.qSymm hgrid.qSymm
      (fun a ha => by rw [hQ.inner (by omega) (by omega)])
      (fun a ha b hb _ => by rw [hQ.inner (by omega) (by omega)])
      fun X _ => ?_
    rw [← ite_and]
    rfl
  have hpr : (s.popZero Q').r = r := hlast
  have hpQ : (s.popZero Q').Q = Q' := rfl
  have hpp : (s.popZero Q').phase = s.phase := rfl
  simp only [den, denW, hpr, hpQ, hpp, hr', Nat.add_sub_cancel]
  rw [hexp, hcongr, pow_succ, ← two_mul_invSqrt2]
  ring

/-- An odd diagonal entry turns into a phase on the other columns. -/
theorem den_eq_popZero_odd (h : s.Grid) (hr : s.r ≠ 0)
    (hz : s.ZeroCol (s.r - 1)) {E : UMatrix} (hE : Symm E.entry)
    (hu : s.Q.entry (s.r - 1) (s.r - 1) % 2 = 1)
    (hEdiag : ∀ a < s.r - 1, E.entry a a ≡ s.Q.entry a a +
      (2 + s.Q.entry (s.r - 1) (s.r - 1)) *
        (s.Q.entry a (s.r - 1) * s.Q.entry a (s.r - 1)) [MOD 4])
    (hEoff : ∀ a < s.r - 1, ∀ b < s.r - 1, a ≠ b → E.entry a b ≡
      s.Q.entry a b + (2 + s.Q.entry (s.r - 1) (s.r - 1)) *
        (s.Q.entry a (s.r - 1) * s.Q.entry b (s.r - 1)) [MOD 2])
    (y : ℕ → Bool) :
    den { s.popZero E with
      phase := (s.phase + 2 + 8 - s.Q.entry (s.r - 1) (s.r - 1)) % 8 } y =
      s.den y := by
  obtain ⟨r, hr'⟩ : ∃ r, s.r = r + 1 := ⟨s.r - 1, by omega⟩
  have hlast : s.r - 1 = r := by omega
  have hdiag := h.qDiag r
  have hins : ∀ X ⊆ range r, s.Hits y (insert r X) ↔ s.Hits y X := by
    intro X hX
    have hi := hits_insert_zero hz y (X := X)
      (by rw [hlast]; exact fun hmem => notMem_range_self (hX hmem))
    rwa [hlast] at hi
  rw [hlast] at hu hEdiag hEoff
  have hexp := expansion_odd_column (r := r)
    (φ := fun X => if s.Hits y X then 1 else 0) h.qSymm (by omega)
    (fun X hX => by simp only [hins X hX])
  have hcongr := @expansion_congr_form r _ (fun a b => s.Q.entry a b +
      (2 + s.Q.entry r r) * (s.Q.entry a r * s.Q.entry b r))
    (fun X => if s.Hits y X then 1 else 0) _ hE
    (fun a b => by
      simp only [h.qSymm a b, mul_comm (s.Q.entry a r)])
    hEdiag hEoff fun X _ => rfl
  have hphase : omega8 ^ ((s.phase + 2 + 8 - s.Q.entry r r) % 8) =
      omega8 ^ s.phase * omega8 ^ (10 - s.Q.entry r r) := by
    rw [omega8_pow_mod, ← pow_add]
    congr 1
    omega
  have hhits : ∀ X, Hits { s.popZero E with
      phase := (s.phase + 2 + 8 - s.Q.entry r r) % 8 } y X ↔ s.Hits y X :=
    fun _ => Iff.rfl
  simp only [den, hhits, hlast]
  simp only [popZero, hr', Nat.add_sub_cancel]
  rw [hexp, hphase, hcongr, pow_succ]
  linear_combination (-(invSqrt2 ^ r * omega8 ^ s.phase *
    omega8 ^ (10 - s.Q.entry r r) * expansion r (fun a b => s.Q.entry a b +
      (2 + s.Q.entry r r) * (s.Q.entry a r * s.Q.entry b r))
      (fun X => if s.Hits y X then 1 else 0))) * sqrt_two_mul_invSqrt2

end PopZero

/-- The state after column `ell` has been added to the columns of `pre`, which
takes them out of the constraint `w · x = v`. -/
private structure ElimLoop (s : AffineState) (ell : ℕ) (w : ℕ → ℕ) (v : ℕ)
    (pre : List ℕ) (s' : AffineState) : Prop where
  grid : s'.Grid
  n : s'.n = s.n
  r : s'.r = s.r
  col : ∀ i < s.n, s'.A.entry i ell = s.A.entry i ell
  except : s'.PivotsExcept ell
  denW : ∀ y, s'.denW (fun d => if d ∈ pre ∧ d ≠ ell then 0 else w d) v y =
    s.denW w v y

private theorem ElimLoop.step {s s' : AffineState} {ell k v : ℕ} {w : ℕ → ℕ}
    {pre : List ℕ} (hs : ElimLoop s ell w v pre s') (hell : ell < s.r)
    (hk : k < s.r) (hwell : w ell = 1) (hwk : w k = 1) (hpre : k ∉ pre) :
    ∃ s'', (if k ≠ ell then s'.reindexSubtColumn k ell (s.colOnes ell)
      else return s' : Except Exit AffineState) = .ok s'' ∧
      ElimLoop s ell w v (pre ++ [k]) s'' := by
  have hr := hs.r
  by_cases hkl : k = ell
  · rw [if_neg (not_not.mpr hkl)]
    refine ⟨s', rfl, { hs with denW := fun y => ?_ }⟩
    rw [← hs.denW y]
    congr 1
    funext d
    by_cases hd : d = ell <;> simp [hd, hkl]
  · rw [if_pos hkl]
    obtain ⟨s'', hok, hre⟩ := reindexSubtColumn_spec hs.grid (k := k)
      (c := ell) (by omega) (by omega) (Ne.symm hkl)
    rw [colOnes_congr hs.n hs.col] at hok
    refine ⟨s'', hok, ?_⟩
    refine
      { grid := hre.grid
        n := hre.n.trans hs.n
        r := hre.r.trans hr
        col := fun i hi => ?_
        except := fun d hd hde => ?_
        denW := fun y => ?_ }
    · rw [hre.a i (hs.n ▸ hi), if_neg (Ne.symm hkl), hs.col i hi]
    · have hpd := hs.except d (hre.r ▸ hd) hde
      have hpiv : s''.piv d = s'.piv d := by rw [piv, piv, hre.pivots]
      rw [hpiv]
      exact hre.isPivot hs.grid hpd (hpd.other (by omega) (Ne.symm hde))
    · rw [← hs.denW y, ← hre.denW hs.grid (by omega) (Ne.symm hkl)]
      refine denW_congr _ (fun d _ => ?_) v y
      by_cases hdk : d = k
      · subst hdk
        simp [hkl, hpre, hwell, hwk, Nat.ModEq]
      · simp only [List.mem_append, List.mem_singleton, hdk, or_false,
          if_false]
        rfl

/-- The even case after the constraint has been written down: the constraint is
moved to one column, which is then fixed. -/
private theorem eliminate_ok {s : AffineState} (h : s.RepInv) {v ell : ℕ}
    (hv : v < 2) {w : ℕ → ℕ} {l : List ℕ} (hl : l.Nodup) (hell : ell ∈ l)
    (hlr : ∀ d ∈ l, d < s.r) (hw : ∀ d ∈ l, w d = 1)
    (hw' : ∀ d < s.r, d ∉ l → w d = 0) :
    ∃ s₁ s₂ s₃ : AffineState,
      l.foldlM (fun s' col =>
        if col ≠ ell then s'.reindexSubtColumn col ell (s.colOnes ell)
        else return s' : AffineState → ℕ → Except Exit AffineState) s =
          .ok s₁ ∧
      s₁.reindexSwapColumns ell = .ok s₂ ∧ s₂.fixFinalBit v = .ok s₃ ∧
      s₃.RepInv ∧ s₃.n = s.n ∧
      ∀ y, s₃.den y = ((Real.sqrt 2 : ℝ) : ℂ) * s.denW w v y := by
  have hellr := hlr ell hell
  obtain ⟨s₁, hok₁, hs₁⟩ := foldlM_prefix (l := l)
    (f := fun s' col =>
      if col ≠ ell then s'.reindexSubtColumn col ell (s.colOnes ell)
      else return s')
    (I := fun pre s' => ElimLoop s ell w v pre s')
    (by
      intro pre k post hsplit s' hs'
      have hk : k ∈ l := by simp [hsplit]
      have hpre : k ∉ pre := by
        rw [hsplit] at hl
        exact fun hmem =>
          (List.disjoint_of_nodup_append hl) hmem List.mem_cons_self
      exact hs'.step hellr (hlr k hk) (hw ell hell) (hw k hk) hpre)
    { grid := h.toGrid, n := rfl, r := rfl, col := fun _ _ => rfl
      except := h.except ell, denW := fun y => by simp }
  have hr₁ := hs₁.r
  obtain ⟨s₂, hok₂, hs₂⟩ := reindexSwapColumns_spec hs₁.grid (k := ell)
    (by omega)
  have hr₂ := hs₂.r
  obtain ⟨s₃, hok₃, hs₃⟩ := fixFinalBit_spec hs₂.grid (by omega) hv
  have hexc : s₂.PivotsExcept (s₂.r - 1) := by
    refine hs₂.pivotsExcept (by omega) ?_
    rw [hr₂, Equiv.swap_apply_right]
    exact hs₁.except
  refine ⟨s₁, s₂, s₃, hok₁, hok₂, hok₃, hs₃.repInv hs₂.grid hexc, ?_, ?_⟩
  · rw [hs₃.n, hs₂.n, hs₁.n]
  · intro y
    rw [hs₃.den y, ← hs₁.denW y, ← hs₂.denW (by omega)]
    congr 1
    refine denW_congr _ (fun d hd => ?_) v y
    rw [hr₂]
    have hsw : Equiv.swap ell (s₁.r - 1) d = ell ↔ d = s₁.r - 1 := by
      rw [Equiv.swap_apply_eq_iff, Equiv.swap_apply_left]
    have hlt : Equiv.swap ell (s₁.r - 1) d < s.r := by
      rw [hr₂] at hd
      rw [Equiv.swap_apply_def]
      split_ifs <;> omega
    by_cases hd' : d = s₁.r - 1
    · rw [if_pos hd', hsw.mpr hd', if_neg (fun e => e.2 rfl), hw ell hell]
    · rw [if_neg hd']
      by_cases hmem : Equiv.swap ell (s₁.r - 1) d ∈ l
      · rw [if_pos ⟨hmem, fun e => hd' (hsw.mp e)⟩]
      · rw [if_neg fun e => hmem e.1, hw' _ hlt hmem]

/-- The condition under which `ZeroColumnElim` can remove column `c`: its Gauss
sum does not vanish identically. -/
def Eliminable (s : AffineState) (c : ℕ) : Prop :=
  s.Q.entry c c % 2 = 1 ∨ ∃ a, a ≠ c ∧ s.Q.entry a c ≠ 0

/-- What a call keeps that only changes the description of a state. -/
structure SameVector (s s' : AffineState) : Prop where
  repInv : s'.RepInv
  n : s'.n = s.n
  den : ∀ y, s'.den y = s.den y

private theorem eliminateOdd_ok {s : AffineState} (h : s.Grid) (hr : s.r ≠ 0)
    (hz : s.ZeroCol (s.r - 1)) (hp : s.PivotsExcept (s.r - 1)) {Q₁ : UMatrix}
    (hQ : s.ClearedLast Q₁) {u : ℕ} (hu : s.Q.entry (s.r - 1) (s.r - 1) = u)
    (hodd : u % 2 = 1) :
    ∃ E : UMatrix,
      s.qOnes.foldlM (fun Q row => s.qOnes.foldlM (fun Q col =>
        if row = col then Q.modify row col fun q => (q + 2 + u) % 4
        else Q.modify row col (· ^^^ 1)) Q) Q₁ = .ok E ∧
      SameVector s { s.popZero E with phase := (s.phase + 2 + 8 - u) % 8 } := by
  have hqr := h.qRows
  have hqc := h.qCols
  have hrn := h.rLe
  have hu4 := h.qDiag (s.r - 1)
  have hgrid := popZero_grid h hz hQ
  have hrep := popZero_repInv h hz hQ hp
  obtain ⟨E, hok, hErows, hEcols, hE⟩ := UMatrix.foldlM_grid (M := Q₁)
    (f := fun row col q => if row = col then (q + 2 + u) % 4 else q ^^^ 1)
    (B := fun Q row col =>
      if row = col then Q.modify row col fun q => (q + 2 + u) % 4
      else Q.modify row col (· ^^^ 1))
    s.qOnes_nodup s.qOnes_nodup
    (fun a ha b hb M hMr hMc => by
      have ha' := (mem_qOnes.mp ha).1
      have hb' := (mem_qOnes.mp hb).1
      have hrows := hQ.rows
      have hcols := hQ.cols
      by_cases hab : a = b
      · simp only [hab, if_true]
        exact UMatrix.modify_eq_ok (by omega) (by omega) _
      · simp only [hab, if_false]
        exact UMatrix.modify_eq_ok (by omega) (by omega) _)
  refine ⟨E, hok, ?_⟩
  have hone : ∀ a ∈ s.qOnes, s.Q.entry a (s.r - 1) = 1 := by
    intro a ha
    obtain ⟨hlt, hne⟩ := mem_qOnes.mp ha
    have := h.qOff a (s.r - 1) (by omega)
    omega
  have hzero : ∀ a < s.r - 1, a ∉ s.qOnes → s.Q.entry a (s.r - 1) = 0 := by
    intro a ha hmem
    by_contra hne
    exact hmem (mem_qOnes.mpr ⟨ha, hne⟩)
  have hlt : ∀ a, a ∈ s.qOnes → a < s.r - 1 := fun a ha => (mem_qOnes.mp ha).1
  have hEsymm : Symm E.entry := by
    intro a b
    have hsymm : Q₁.entry a b = Q₁.entry b a := hgrid.qSymm a b
    rw [hE, hE, hsymm]
    simp only [and_comm (a := a ∈ s.qOnes), eq_comm (a := a)]
  have hEoff : ∀ a b, a ≠ b → E.entry a b < 2 := by
    intro a b hab
    have hbit : Q₁.entry a b < 2 := hgrid.qOff a b hab
    rw [hE, if_neg hab]
    split_ifs
    · rw [xor_one_of_bit hbit]
      exact Nat.mod_lt _ (by norm_num)
    · exact hbit
  have hEdiag : ∀ a, E.entry a a < 4 := by
    intro a
    have hbit : Q₁.entry a a < 4 := hgrid.qDiag a
    rw [hE, if_pos rfl]
    split_ifs
    · exact Nat.mod_lt _ (by norm_num)
    · exact hbit
  refine
    { repInv := ?_
      n := rfl
      den := fun y => ?_ }
  · refine
      { aRows := hgrid.aRows
        aCols := hgrid.aCols
        qRows := hErows ▸ hgrid.qRows
        qCols := hEcols ▸ hgrid.qCols
        bSize := hgrid.bSize
        pivLen := hgrid.pivLen
        rLe := hgrid.rLe
        aBit := hgrid.aBit
        aZero := hgrid.aZero
        bBit := hgrid.bBit
        qSymm := hEsymm
        qOff := hEoff
        qDiag := hEdiag
        qZero := fun a b ha => ?_
        phaseLt := Nat.mod_lt _ (by norm_num)
        pivots := hrep.pivots }
    have hlast : s.r - 1 ≤ a := ha
    change E.entry a b = 0
    rw [hE, if_neg fun e => absurd (hlt a e.1) (by omega)]
    exact hgrid.qZero a b ha
  · subst hu
    refine den_eq_popZero_odd h hr hz hEsymm hodd ?_ ?_ y
    · intro a ha
      rw [hE, hQ.inner ha ha, if_pos rfl]
      by_cases hmem : a ∈ s.qOnes
      · rw [if_pos ⟨hmem, hmem⟩, hone a hmem, mul_one, mul_one, ← add_assoc]
        exact Nat.mod_modEq _ 4
      · rw [if_neg fun e => hmem e.1, hzero a ha hmem, mul_zero, mul_zero]
        rfl
    · intro a ha b hb hab
      have hbit := h.qOff a b hab
      rw [hE, hQ.inner ha hb, if_neg hab]
      by_cases hma : a ∈ s.qOnes
      · by_cases hmb : b ∈ s.qOnes
        · rw [if_pos ⟨hma, hmb⟩, hone a hma, hone b hmb, xor_one_of_bit hbit]
          unfold Nat.ModEq
          omega
        · rw [if_neg fun e => hmb e.2, hzero b hb hmb]
          rfl
      · rw [if_neg fun e => hma e.1, hzero a ha hma, zero_mul, mul_zero]
        rfl

private theorem qOnes_ne_nil {s : AffineState} (h : s.Grid)
    {c : ℕ} (hne : c ≠ s.r - 1) (hq : s.Q.entry c (s.r - 1) ≠ 0) :
    s.qOnes ≠ [] := by
  have hlt : c < s.r := by
    by_contra hge
    exact hq (h.qZero c _ (not_lt.mp hge))
  exact List.ne_nil_of_mem (mem_qOnes.mpr ⟨by omega, hq⟩)

theorem Swapped.zeroCol {s s' : AffineState} {k : ℕ} (hs : Swapped s k s')
    (hz : s.ZeroCol k) : s'.ZeroCol (s'.r - 1) := by
  intro i hi
  rw [hs.a, hs.r, Equiv.swap_apply_right]
  exact hz i (hs.n ▸ hi)

theorem Swapped.eliminable {s s' : AffineState} {k : ℕ} (hs : Swapped s k s') :
    s'.Eliminable (s'.r - 1) ↔ s.Eliminable k := by
  simp only [Eliminable, hs.q, hs.r, Equiv.swap_apply_right]
  refine or_congr Iff.rfl ⟨?_, ?_⟩
  · rintro ⟨a, ha, hne⟩
    refine ⟨_, fun e => ha ?_, hne⟩
    rw [Equiv.swap_apply_eq_iff, Equiv.swap_apply_left] at e
    exact e
  · rintro ⟨a, ha, hne⟩
    refine ⟨Equiv.swap k (s.r - 1) a, fun e => ha ?_, ?_⟩
    · rw [Equiv.swap_apply_eq_iff, Equiv.swap_apply_right] at e
      exact e
    · rwa [Equiv.swap_apply_self]

theorem zeroColumnElim_spec {s : AffineState} (h : s.Grid) {c : ℕ}
    (hc : c < s.r) (hz : s.ZeroCol c) (hp : s.PivotsExcept c)
    (hq : s.Eliminable c) :
    ∃ s', s.zeroColumnElim c = .ok s' ∧ SameVector s s' := by
  obtain ⟨t, hswap, hs⟩ := reindexSwapColumns_spec h hc
  have hr := hs.r
  have hgrid := hs.grid
  have hr0 : t.r ≠ 0 := by omega
  have hzt := hs.zeroCol hz
  have hpt : t.PivotsExcept (t.r - 1) := hs.pivotsExcept hc (by
    rw [hr, Equiv.swap_apply_right]
    exact hp)
  have hqt := hs.eliminable.mpr hq
  have hqr := hgrid.qRows
  have hqc := hgrid.qCols
  have hrn := hgrid.rLe
  have hpop := hgrid.toShape.has_column hr0
  obtain ⟨Q₀, Q₁, hQ₀, hQ₁, hQ⟩ := clearLast_ok hgrid
  obtain ⟨u, hu⟩ : ∃ u, t.Q.entry (t.r - 1) (t.r - 1) = u := ⟨_, rfl⟩
  have hu4 : u < 4 := hu ▸ hgrid.qDiag _
  have hget : t.Q.get (t.r - 1) (t.r - 1) = .ok u := by
    rw [UMatrix.get_eq_ok (by omega) (by omega), hu]
  suffices hv : ∃ s', s.zeroColumnElim c = .ok s' ∧ SameVector t s' by
    obtain ⟨s', hok, hv⟩ := hv
    exact ⟨s', hok, hv.repInv, hv.n.trans hs.n,
      fun y => (hv.den y).trans (hs.den hc y)⟩
  simp only [zeroColumnElim, hswap, ok_bind, qNonzeros_ok hgrid.toShape hr0,
    hget, Nat.mod_eq_of_lt hu4, hQ₀, hQ₁, popColumn, if_neg hpop]
  by_cases hodd : u % 2 = 1
  · obtain ⟨E, hE, hv⟩ := eliminateOdd_ok hgrid hr0 hzt hpt hQ hu hodd
    simp only [hodd, if_true, hE, ok_bind]
    exact ⟨_, rfl, hv⟩
  · have hne : t.qOnes ≠ [] := by
      rcases hqt with hu1 | ⟨a, ha, hqa⟩
      · omega
      · exact qOnes_ne_nil hgrid ha hqa
    obtain ⟨ell, rest, hones⟩ := List.exists_cons_of_ne_nil hne
    have hrep := popZero_repInv hgrid hzt hQ hpt
    have hmem : ∀ d, d ∈ ell :: rest ↔ d < t.r - 1 ∧
        t.Q.entry d (t.r - 1) ≠ 0 := fun d => by rw [← hones]; exact mem_qOnes
    obtain ⟨s₁, s₂, s₃, hok₁, hok₂, hok₃, hrep₃, hn₃, hden₃⟩ :=
      @eliminate_ok _ hrep (u / 2) ell (by omega)
        (fun a => t.Q.entry a (t.r - 1)) (ell :: rest)
        (hones ▸ t.qOnes_nodup) List.mem_cons_self
        (fun d hd => ((hmem d).mp hd).1)
        (fun d hd => by
          obtain ⟨hlt, hne⟩ := (hmem d).mp hd
          have := hgrid.qOff d (t.r - 1) (by omega)
          omega)
        (fun d hd hnot => by
          by_contra hne
          exact hnot ((hmem d).mpr ⟨hd, hne⟩))
    have hell := (hmem ell).mp List.mem_cons_self
    refine ⟨s₃, ?_, hrep₃, hn₃, fun y => ?_⟩
    · simp only [hodd, if_false, hones]
      have hcol := aColNonzeros_ok hrep.toShape (c := ell) hell.1
      simp only [popZero] at hcol hok₁
      simp only [hcol, ok_bind, hok₁, hok₂, hok₃]
    · rw [hden₃, den_eq_popZero_even hgrid hr0 hzt hQ (by omega), hu]

/-- Without the condition the search for `ell` fails its assertion. -/
theorem zeroColumnElim_fails {s : AffineState} (h : s.Grid) {c : ℕ}
    (hc : c < s.r) (hq : ¬ s.Eliminable c) :
    s.zeroColumnElim c = .error assertFailed := by
  obtain ⟨t, hswap, hs⟩ := reindexSwapColumns_spec h hc
  have hr := hs.r
  have hgrid := hs.grid
  have hr0 : t.r ≠ 0 := by omega
  have hqt := hs.eliminable.not.mpr hq
  have hqr := hgrid.qRows
  have hqc := hgrid.qCols
  have hrn := hgrid.rLe
  have hpop := hgrid.toShape.has_column hr0
  obtain ⟨Q₀, Q₁, hQ₀, hQ₁, hQ⟩ := clearLast_ok hgrid
  have hget : t.Q.get (t.r - 1) (t.r - 1) =
      .ok (t.Q.entry (t.r - 1) (t.r - 1)) :=
    UMatrix.get_eq_ok (by omega) (by omega)
  have hodd : ¬ t.Q.entry (t.r - 1) (t.r - 1) % 2 = 1 := fun e => hqt (.inl e)
  have hnil : t.qOnes = [] := by
    rw [List.eq_nil_iff_forall_not_mem]
    intro a ha
    obtain ⟨hlt, hne⟩ := mem_qOnes.mp ha
    exact hqt (.inr ⟨a, by omega, hne⟩)
  rw [hnil] at hQ₀
  simp only [zeroColumnElim, hswap, ok_bind, qNonzeros_ok hgrid.toShape hr0,
    hget, Nat.mod_eq_of_lt (hgrid.qDiag _), hQ₀, hQ₁, popColumn, if_neg hpop,
    hodd, if_false, hnil]
  rfl

end Q2NS.AffineState
