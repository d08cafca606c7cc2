import Q2NS.Stab.Denotation

/-!
# Column operations

One lemma for each subroutine: on a `Grid` the call succeeds, the result is a
`Grid` again, and the vector is the same (or, for `FixFinalBit`, the part of it
that the fixed bit selects).
-/

namespace Q2NS.AffineState

open Finset QuadForm Loop

/-! ## Lists of nonzeros -/

/-- The rows with a one in column `c`. -/
def colOnes (s : AffineState) (c : ℕ) : List ℕ :=
  (List.range s.n).filter fun i => s.A.entry i c == 1

/-- The columns with a nonzero in row `i`. -/
def rowOnes (s : AffineState) (i : ℕ) : List ℕ :=
  (List.range s.r).filter fun c => s.A.entry i c != 0

/-- The columns joined to the last one by `Q`. -/
def qOnes (s : AffineState) : List ℕ :=
  (List.range (s.r - 1)).filter fun a => s.Q.entry a (s.r - 1) != 0

theorem colOnes_nodup (s : AffineState) (c : ℕ) : (s.colOnes c).Nodup :=
  List.nodup_range.filter _

theorem rowOnes_nodup (s : AffineState) (i : ℕ) : (s.rowOnes i).Nodup :=
  List.nodup_range.filter _

theorem qOnes_nodup (s : AffineState) : s.qOnes.Nodup :=
  List.nodup_range.filter _

theorem mem_colOnes {s : AffineState} {i c : ℕ} :
    i ∈ s.colOnes c ↔ i < s.n ∧ s.A.entry i c = 1 := by
  simp [colOnes]

theorem mem_rowOnes {s : AffineState} {i c : ℕ} :
    c ∈ s.rowOnes i ↔ c < s.r ∧ s.A.entry i c ≠ 0 := by
  simp [rowOnes]

theorem mem_qOnes {s : AffineState} {a : ℕ} :
    a ∈ s.qOnes ↔ a < s.r - 1 ∧ s.Q.entry a (s.r - 1) ≠ 0 := by
  simp [qOnes]

theorem aColNonzeros_ok {s : AffineState} (h : s.Shape) {c : ℕ}
    (hc : c < s.r) : s.aColNonzeros c = .ok (s.colOnes c) := by
  refine filterM_eq_ok fun i hi => ?_
  have hi' := List.mem_range.mp hi
  have hr := h.aRows
  have hcl := h.aCols
  have hrn := h.rLe
  rw [UMatrix.get_eq_ok (by omega) (by omega)]
  rfl

theorem aRowNonzeros_ok {s : AffineState} (h : s.Shape) {i : ℕ}
    (hi : i < s.n) : s.aRowNonzeros i = .ok (s.rowOnes i) := by
  refine filterM_eq_ok fun c hc => ?_
  have hc' := List.mem_range.mp hc
  have hr := h.aRows
  have hcl := h.aCols
  have hrn := h.rLe
  rw [UMatrix.get_eq_ok (by omega) (by omega)]
  rfl

theorem qNonzeros_ok {s : AffineState} (h : s.Shape) (hr : s.r ≠ 0) :
    s.qNonzeros = .ok s.qOnes := by
  rw [qNonzeros, if_neg hr]
  refine filterM_eq_ok fun a ha => ?_
  have ha' := List.mem_range.mp ha
  have hqr := h.qRows
  have hqc := h.qCols
  have hrn := h.rLe
  rw [UMatrix.get_eq_ok (by omega) (by omega)]
  rfl

/-! ## Adding a column to another -/

/-- What `ReindexSubtColumn` does to the active part. -/
structure Reindexed (s : AffineState) (k c : ℕ) (s' : AffineState) : Prop where
  grid : s'.Grid
  n : s'.n = s.n
  r : s'.r = s.r
  phase : s'.phase = s.phase
  b : s'.b = s.b
  pivots : s'.pivots = s.pivots
  a : ∀ i < s.n, ∀ d, s'.A.entry i d =
    if d = k then (s.A.entry i k + s.A.entry i c) % 2 else s.A.entry i d
  qMod4 : ∀ a, s'.Q.entry a a ≡ substGram s.Q.entry k c a a [MOD 4]
  qMod2 : ∀ a b, s'.Q.entry a b ≡ substGram s.Q.entry k c a b [MOD 2]

theorem xor_one_of_bit {x : ℕ} (hx : x < 2) : x ^^^ 1 = (x + 1) % 2 := by
  obtain rfl | rfl : x = 0 ∨ x = 1 := by omega
  · rfl
  · rfl

/-- The state with new entries in `Q`. -/
def setQ (s : AffineState) (E : ℕ → ℕ → ℕ) : AffineState :=
  { s with Q := ⟨s.Q.rows, s.Q.cols, E⟩ }

theorem reduceGramRowCol_ok {s : AffineState} {c : ℕ} (hr : c < s.Q.rows)
    (hc : c < s.Q.cols) :
    s.reduceGramRowCol c = .ok (s.setQ fun a b =>
      if a = c ∧ b = c then s.Q.entry c c % 4
      else if a = c ∨ b = c then s.Q.entry a b % 2 else s.Q.entry a b) := by
  simp only [reduceGramRowCol, UMatrix.get_eq_ok hr hc, ok_bind,
    UMatrix.reduceRowMod2, UMatrix.reduceColMod2, UMatrix.set, UMatrix.modify, hr, hc,
    and_self, if_true, pure_eq_ok, UMatrix.update, setQ]
  congr 3
  funext a b
  by_cases ha : a = c <;> by_cases hb : b = c <;> simp [ha, hb]

/-- The vector sees a column addition as a change of variables. -/
theorem Reindexed.denW {s s' : AffineState} {k c : ℕ} (h : s.Grid)
    (hs : Reindexed s k c s') (hc : c < s.r) (hne : c ≠ k)
    (w : ℕ → ℕ) (v : ℕ) (y : ℕ → Bool) :
    s'.denW (fun d => if d = k then w k + w c else w d) v y = s.denW w v y := by
  have hweight : ∀ f g : ℕ → ℕ, (∀ d, g d ≡ (if d = k then f k + f c else f d) [MOD 2]) →
      ∀ X : Finset ℕ, (∑ d ∈ X, g d) % 2 = (∑ d ∈ flipIf k c X, f d) % 2 := by
    intro f g hg X
    have hsum : ∑ d ∈ X, (if d = k then f k + f c else f d) =
        ∑ d ∈ X, f d + if k ∈ X then f c else 0 := by
      rw [← sum_ite_eq' X k (fun _ => f c), ← sum_add_distrib]
      refine sum_congr rfl fun d _ => ?_
      by_cases hd : d = k <;> simp [hd]
    rw [sum_flipIf_mod_two, ← hsum]
    exact Nat.ModEq.sum fun d _ => hg d
  have hhits : ∀ X, s'.Hits y X ↔ s.Hits y (flipIf k c X) := by
    intro X
    unfold Hits
    rw [hs.n]
    refine forall₂_congr fun i hi => ?_
    have hrow := hweight (s.A.entry i) (s'.A.entry i) (fun d => by
      rw [hs.a i hi d]
      by_cases hd : d = k
      · simp only [hd, if_true]
        exact Nat.mod_modEq _ 2
      · simp only [hd, if_false]
        rfl) X
    have hval : s'.rowVal X i = s.rowVal (flipIf k c X) i := by
      rw [rowVal, rowVal, hs.b, Nat.add_mod, hrow, ← Nat.add_mod]
    rw [hval]
  unfold AffineState.denW
  rw [hs.r, hs.phase]
  congr 1
  rw [← expansion_subst h.qSymm (Ne.symm hne) hc]
  refine expansion_congr_form hs.grid.qSymm (substGram_symm h.qSymm k c)
    (fun a _ => hs.qMod4 a) (fun a _ b _ _ => hs.qMod2 a b) fun X _ => ?_
  have hwX := hweight w _ (fun d => Nat.ModEq.refl _) X
  simp only [hhits X, hwX]

theorem Reindexed.den {s s' : AffineState} {k c : ℕ} (h : s.Grid)
    (hs : Reindexed s k c s') (hc : c < s.r) (hne : c ≠ k)
    (y : ℕ → Bool) : s'.den y = s.den y := by
  have hden := hs.denW h hc hne (fun _ => 0) 0 y
  simp only [add_zero, ite_self] at hden
  rw [den_eq_denW, den_eq_denW, hden]

/-- Rows with a zero in column `c` are unchanged. -/
theorem Reindexed.isPivot {s s' : AffineState} {k c d p : ℕ} (h : s.Grid)
    (hs : Reindexed s k c s') (hp : s.IsPivot d p) (hz : s.A.entry p c = 0) :
    s'.IsPivot d p := by
  refine ⟨hs.n ▸ hp.1, fun e he => ?_⟩
  rw [hs.r] at he
  rw [hs.a p hp.1 e, hz, add_zero, ← hp.2 e he]
  by_cases hek : e = k
  · subst hek
    rw [if_pos rfl, Nat.mod_eq_of_lt (h.aBit p hp.1 e)]
  · rw [if_neg hek]

/-- The loop over the ones of column `c` adds it to column `k`. -/
private theorem addColOnes_ok {s : AffineState} (h : s.Grid) {k c : ℕ} (hk : k < s.r) :
    ∃ A' : UMatrix,
      (s.colOnes c).foldlM (fun A row => A.modify row k (· ^^^ 1)) s.A = .ok A' ∧
      A'.rows = s.A.rows ∧ A'.cols = s.A.cols ∧
      ∀ i < s.n, ∀ d, A'.entry i d =
        if d = k then (s.A.entry i k + s.A.entry i c) % 2 else s.A.entry i d := by
  have har := h.aRows
  have hac := h.aCols
  have hrn := h.rLe
  obtain ⟨hok, hrows, hcols⟩ := UMatrix.foldlM_eq_ok (M := s.A)
    (l := s.colOnes c) (f := fun A row => A.modify row k (· ^^^ 1))
    (g := fun A row => A.update row k (· ^^^ 1))
    (fun i hi M hr hcl => by
      have := (mem_colOnes.mp hi).1
      exact ⟨UMatrix.modify_eq_ok (by omega) (by omega) _, hr, hcl⟩)
  refine ⟨_, hok, hrows, hcols, fun i hi d => ?_⟩
  rw [UMatrix.foldl_entry (g := fun row a b v =>
    if a = row ∧ b = k then v ^^^ 1 else v) (fun M x a b => rfl)]
  by_cases hd : d = k
  · subst hd
    simp only [and_true, if_true]
    rw [foldl_ite_eq (s.colOnes_nodup c) i (· ^^^ 1)]
    have hk' := h.aBit i hi d
    have hc' := h.aBit i hi c
    by_cases hone : s.A.entry i c = 1
    · rw [if_pos (mem_colOnes.mpr ⟨hi, hone⟩), hone, xor_one_of_bit hk']
    · have hzero : s.A.entry i c = 0 := by omega
      rw [if_neg fun hm => hone (mem_colOnes.mp hm).2, hzero, add_zero,
        Nat.mod_eq_of_lt hk']
  · simp only [hd, and_false, if_false]
    exact foldl_fixed fun _ _ => rfl

/-- Adding the column and then the row makes exactly the substituted form. -/
private theorem addColRow_eq (Q : ℕ → ℕ → ℕ) (k c : ℕ) :
    (fun a b => if a = k then
      (if b = k then Q a b + Q a c else Q a b) + (if b = k then Q c b + Q c c else Q c b)
      else if b = k then Q a b + Q a c else Q a b) = substGram Q k c := by
  funext a b
  unfold substGram
  by_cases ha : a = k <;> by_cases hb : b = k <;> simp [ha, hb]
  omega

private theorem substGram_off (Q : ℕ → ℕ → ℕ) {k c a b : ℕ} (ha : a ≠ k) (hb : b ≠ k) :
    substGram Q k c a b = Q a b := by
  simp [substGram, ha, hb]

/-- A form and its reduction, with the new columns, are a `Grid`. -/
private theorem reindexed_grid {s : AffineState} (h : s.Grid) {k c : ℕ} (hk : k < s.r)
    {A' : UMatrix} (hArows : A'.rows = s.A.rows) (hAcols : A'.cols = s.A.cols)
    (hA : ∀ i < s.n, ∀ d, A'.entry i d =
      if d = k then (s.A.entry i k + s.A.entry i c) % 2 else s.A.entry i d)
    {G : ℕ → ℕ → ℕ} (hG : G = substGram s.Q.entry k c) :
    Grid (setQ { s with A := A' } fun a b =>
      if a = k ∧ b = k then G k k % 4
      else if a = k ∨ b = k then G a b % 2 else G a b) := by
  have hGsymm : Symm G := hG ▸ substGram_symm h.qSymm k c
  have hGoff : ∀ a b, a ≠ k → b ≠ k → G a b = s.Q.entry a b := by
    intro a b ha hb
    rw [hG, substGram_off _ ha hb]
  have hGzero : ∀ a b, s.r ≤ a → G a b = 0 := by
    intro a b ha
    have hak : a ≠ k := by omega
    simp [hG, substGram, hak, h.qZero a _ ha]
  refine
    { aRows := by simpa [setQ, hArows] using h.aRows
      aCols := by simpa [setQ, hAcols] using h.aCols
      qRows := h.qRows
      qCols := h.qCols
      bSize := h.bSize
      pivLen := h.pivLen
      rLe := h.rLe
      aBit := ?_
      aZero := ?_
      bBit := h.bBit
      qSymm := ?_
      qOff := ?_
      qDiag := ?_
      qZero := ?_
      phaseLt := h.phaseLt }
  · intro i hi d
    change A'.entry i d < 2
    rw [hA i hi d]
    split_ifs
    · exact Nat.mod_lt _ (by norm_num)
    · exact h.aBit i hi d
  · intro i hi d hd
    have hdr : s.r ≤ d := hd
    have hdk : d ≠ k := by omega
    change A'.entry i d = 0
    rw [hA i hi d, if_neg hdk]
    exact h.aZero i hi d hdr
  · intro a b
    simp only [setQ, and_comm (a := a = k), or_comm (a := a = k), hGsymm a b]
  · intro a b hab
    simp only [setQ]
    split_ifs with h1 h2
    · exact absurd (h1.1.trans h1.2.symm) hab
    · exact Nat.mod_lt _ (by norm_num)
    · rw [hGoff a b (fun e => h2 (.inl e)) (fun e => h2 (.inr e))]
      exact h.qOff a b hab
  · intro a
    simp only [setQ, and_self, or_self]
    split_ifs with h1
    · exact Nat.mod_lt _ (by norm_num)
    · rw [hGoff a a h1 h1]
      exact h.qDiag a
  · intro a b ha
    have har' : s.r ≤ a := ha
    have hak : a ≠ k := by omega
    simp only [setQ, hak, false_and, false_or, if_false, hGzero a b har']
    split_ifs <;> rfl

theorem reindexSubtColumn_spec {s : AffineState} (h : s.Grid) {k c : ℕ}
    (hk : k < s.r) (hc : c < s.r) (hne : c ≠ k) :
    ∃ s', s.reindexSubtColumn k c (s.colOnes c) = .ok s' ∧
      Reindexed s k c s' := by
  have hqr := h.qRows
  have hqc := h.qCols
  have hrn := h.rLe
  obtain ⟨A', hA, hArows, hAcols, hAe⟩ := addColOnes_ok h (c := c) hk
  set G := substGram s.Q.entry k c with hG
  have hcode : s.reindexSubtColumn k c (s.colOnes c) =
      reduceGramRowCol { s with A := A', Q := ⟨s.Q.rows, s.Q.cols, G⟩ } k := by
    simp only [reindexSubtColumn, assert, if_pos hne, ok_bind, hA,
      UMatrix.addCol, UMatrix.addRow]
    rw [if_pos ⟨by omega, by omega⟩, ok_bind,
      if_pos ⟨by simp; omega, by simp; omega⟩, ok_bind]
    simp only [addColRow_eq s.Q.entry k c, ← hG]
  rw [hcode, reduceGramRowCol_ok (by simp; omega) (by simp; omega)]
  refine ⟨_, rfl, ?_⟩
  refine
    { grid := reindexed_grid h hk hArows hAcols hAe hG
      n := rfl
      r := rfl
      phase := rfl
      b := rfl
      pivots := rfl
      a := hAe
      qMod4 := ?_
      qMod2 := ?_ }
  · intro a
    simp only [setQ, and_self, or_self]
    split_ifs with h1
    · subst h1
      exact Nat.mod_modEq _ 4
    · rfl
  · intro a b
    simp only [setQ]
    split_ifs with h1 h2
    · obtain ⟨rfl, rfl⟩ := h1
      exact (Nat.mod_mod_of_dvd _ (by norm_num : 2 ∣ 4))
    · exact Nat.mod_modEq _ 2
    · rfl

/-! ## Exchanging a column with the last one -/

/-- What `ReindexSwapColumns` does to the active part. -/
structure Swapped (s : AffineState) (k : ℕ) (s' : AffineState) : Prop where
  grid : s'.Grid
  n : s'.n = s.n
  r : s'.r = s.r
  phase : s'.phase = s.phase
  b : s'.b = s.b
  a : ∀ i d, s'.A.entry i d = s.A.entry i (Equiv.swap k (s.r - 1) d)
  q : ∀ a b, s'.Q.entry a b =
    s.Q.entry (Equiv.swap k (s.r - 1) a) (Equiv.swap k (s.r - 1) b)
  piv : ∀ d < s.r, s'.piv d = s.piv (Equiv.swap k (s.r - 1) d)

private theorem swap_lt {k l r d : ℕ} (hk : k < r) (hl : l < r) (hd : d < r) :
    Equiv.swap k l d < r := by
  rw [Equiv.swap_apply_def]
  split_ifs <;> assumption

private theorem swap_ge {k l r d : ℕ} (hk : k < r) (hl : l < r) (hd : r ≤ d) :
    Equiv.swap k l d = d :=
  Equiv.swap_apply_of_ne_of_ne (by omega) (by omega)

theorem reindexSwapColumns_spec {s : AffineState} (h : s.Grid) {k : ℕ}
    (hk : k < s.r) :
    ∃ s', s.reindexSwapColumns k = .ok s' ∧ Swapped s k s' := by
  have hr0 : s.r ≠ 0 := by omega
  by_cases hlast : k = s.r - 1
  · refine ⟨s, by simp [reindexSwapColumns, hr0, hlast], ?_⟩
    refine
      { grid := h
        n := rfl
        r := rfl
        phase := rfl
        b := rfl
        a := fun i d => by simp [hlast]
        q := fun a b => by simp [hlast]
        piv := fun d _ => by simp [hlast] }
  · have hac := h.aCols
    have hqr := h.qRows
    have hqc := h.qCols
    have hrn := h.rLe
    have hl : s.r - 1 < s.r := by omega
    have hpk := h.toShape.getElem?_pivots hk
    have hpl := h.toShape.getElem?_pivots hl
    refine ⟨{ s with
      A := ⟨s.A.rows, s.A.cols, fun i d =>
        s.A.entry i (Equiv.swap k (s.r - 1) d)⟩
      Q := ⟨s.Q.rows, s.Q.cols, fun a b =>
        s.Q.entry (Equiv.swap k (s.r - 1) a) (Equiv.swap k (s.r - 1) b)⟩
      pivots := (s.pivots.set k (s.piv (s.r - 1))).set (s.r - 1) (s.piv k) },
      ?_, ?_⟩
    · simp only [reindexSwapColumns, if_neg hr0, ne_eq, hlast,
        not_false_eq_true, if_true, UMatrix.swapCols, UMatrix.swapRows, hpk, hpl]
      rw [if_pos ⟨by omega, by omega⟩, ok_bind, if_pos ⟨by omega, by omega⟩,
        ok_bind, if_pos ⟨by simp; omega, by simp; omega⟩]
      rfl
    · refine
        { grid := ?_
          n := rfl
          r := rfl
          phase := rfl
          b := rfl
          a := fun i d => rfl
          q := fun a b => rfl
          piv := ?_ }
      · refine
          { aRows := h.aRows
            aCols := h.aCols
            qRows := h.qRows
            qCols := h.qCols
            bSize := h.bSize
            pivLen := by simpa using h.pivLen
            rLe := h.rLe
            aBit := fun i hi d => h.aBit i hi _
            aZero := fun i hi d hd => ?_
            bBit := h.bBit
            qSymm := fun a b => h.qSymm _ _
            qOff := fun a b hab => h.qOff _ _ (by simpa using hab)
            qDiag := fun a => h.qDiag _
            qZero := fun a b ha => ?_
            phaseLt := h.phaseLt }
        · have hd' : s.r ≤ d := hd
          simp only [swap_ge hk hl hd']
          exact h.aZero i hi d hd'
        · have ha' : s.r ≤ a := ha
          simp only [swap_ge hk hl ha']
          exact h.qZero a _ ha'
      · intro d hd
        have hlenk : k < s.pivots.length := h.pivLen ▸ hk
        have hlenl : s.r - 1 < s.pivots.length := h.pivLen ▸ hl
        simp only [piv, List.getD_eq_getElem?_getD, List.getElem?_set,
          List.length_set, hlenk, hlenl, if_true, Equiv.swap_apply_def]
        by_cases hdk : d = k
        · subst hdk
          simp [Ne.symm hlast]
        · by_cases hdl : d = s.r - 1
          · subst hdl
            simp [hdk]
          · simp [hdk, hdl, Ne.symm hdk, Ne.symm hdl]

theorem Swapped.denW {s s' : AffineState} {k : ℕ} (hs : Swapped s k s')
    (hk : k < s.r) (w : ℕ → ℕ) (v : ℕ) (y : ℕ → Bool) :
    s'.denW (fun d => w (Equiv.swap k (s.r - 1) d)) v y = s.denW w v y := by
  have hmap : ∀ (f : ℕ → ℕ) (X : Finset ℕ),
      ∑ d ∈ X, f (Equiv.swap k (s.r - 1) d) =
        ∑ d ∈ X.map (Equiv.swap k (s.r - 1)).toEmbedding, f d := by
    intro f X
    rw [sum_map]
    rfl
  have hhits : ∀ X, s'.Hits y X ↔
      s.Hits y (X.map (Equiv.swap k (s.r - 1)).toEmbedding) := by
    intro X
    simp only [Hits, rowVal, hs.n, hs.b, hs.a, hmap]
  unfold AffineState.denW
  rw [hs.r, hs.phase]
  congr 1
  refine Eq.trans ?_ (expansion_swap hk (by omega : s.r - 1 < s.r) _ _)
  refine expansion_congr fun X _ => ?_
  have hq : s'.Q.entry = fun a b => s.Q.entry (Equiv.swap k (s.r - 1) a)
      (Equiv.swap k (s.r - 1) b) := by
    funext a b
    exact hs.q a b
  simp only [hq, hhits, hmap]

theorem Swapped.den {s s' : AffineState} {k : ℕ} (hs : Swapped s k s')
    (hk : k < s.r) (y : ℕ → Bool) : s'.den y = s.den y := by
  rw [den_eq_denW, den_eq_denW]
  exact hs.denW hk (fun _ => 0) 0 y

theorem Swapped.isPivot {s s' : AffineState} {k d p : ℕ} (hs : Swapped s k s')
    (hk : k < s.r) (hp : s.IsPivot (Equiv.swap k (s.r - 1) d) p) :
    s'.IsPivot d p := by
  refine ⟨hs.n ▸ hp.1, fun e he => ?_⟩
  rw [hs.r] at he
  rw [hs.a, hp.2 _ (swap_lt hk (by omega) he)]
  simp only [EmbeddingLike.apply_eq_iff_eq]

theorem Swapped.pivotsExcept {s s' : AffineState} {k c : ℕ}
    (hs : Swapped s k s') (hk : k < s.r)
    (hp : s.PivotsExcept (Equiv.swap k (s.r - 1) c)) : s'.PivotsExcept c := by
  intro d hd hdc
  rw [hs.r] at hd
  rw [hs.piv d hd]
  exact hs.isPivot hk (hp _ (swap_lt hk (by omega) hd)
    (by simpa using hdc))

theorem Swapped.repInv {s s' : AffineState} {k : ℕ} (hs : Swapped s k s')
    (hk : k < s.r) (h : s.RepInv) : s'.RepInv := by
  refine { toGrid := hs.grid, pivots := fun d hd => ?_ }
  rw [hs.r] at hd
  rw [hs.piv d hd]
  exact hs.isPivot hk (h.pivots _ (swap_lt hk (by omega) hd))

/-! ## Choosing a principal row -/

/-- What `MakePrincipal` does to the active part. -/
structure MadePrincipal (s : AffineState) (c j : ℕ) (s' : AffineState) :
    Prop where
  grid : s'.Grid
  n : s'.n = s.n
  r : s'.r = s.r
  phase : s'.phase = s.phase
  b : s'.b = s.b
  pivots : s'.pivots = s.pivots.set c j
  a : ∀ i < s.n, ∀ d, s'.A.entry i d =
    if d ≠ c ∧ s.A.entry j d ≠ 0 then (s.A.entry i d + s.A.entry i c) % 2
    else s.A.entry i d
  den : ∀ y, s'.den y = s.den y

/-- The state after the columns below `m` have been treated. -/
private structure PrincipalLoop (s : AffineState) (c j m : ℕ)
    (s' : AffineState) : Prop where
  grid : s'.Grid
  n : s'.n = s.n
  r : s'.r = s.r
  phase : s'.phase = s.phase
  b : s'.b = s.b
  pivots : s'.pivots = s.pivots
  a : ∀ i < s.n, ∀ d, s'.A.entry i d =
    if d < m ∧ d ≠ c ∧ s.A.entry j d ≠ 0 then
      (s.A.entry i d + s.A.entry i c) % 2
    else s.A.entry i d
  den : ∀ y, s'.den y = s.den y

theorem colOnes_congr {s s' : AffineState} {c : ℕ} (hn : s'.n = s.n)
    (h : ∀ i < s.n, s'.A.entry i c = s.A.entry i c) :
    s'.colOnes c = s.colOnes c := by
  unfold colOnes
  rw [hn]
  exact List.filter_congr fun i hi => by rw [h i (List.mem_range.mp hi)]

private theorem PrincipalLoop.step {s s' : AffineState} {c j k : ℕ}
    (hc : c < s.r) (hj : j < s.n) (hk : k < s.r)
    (hs : PrincipalLoop s c j k s') :
    ∃ s'', (do
      if (← s'.A.get j k) ≠ 0 ∧ k ≠ c then
        s'.reindexSubtColumn k c (s.colOnes c)
      else
        return s' : Except Exit AffineState) = .ok s'' ∧
      PrincipalLoop s c j (k + 1) s'' := by
  have har := hs.grid.aRows
  have hac := hs.grid.aCols
  have hrn := hs.grid.rLe
  have hn := hs.n
  have hr := hs.r
  have hget : s'.A.get j k = .ok (s.A.entry j k) := by
    rw [UMatrix.get_eq_ok (by omega) (by omega), hs.a j hj k]
    simp
  rw [hget, ok_bind]
  by_cases hone : s.A.entry j k ≠ 0 ∧ k ≠ c
  · rw [if_pos hone]
    have hones : s'.colOnes c = s.colOnes c :=
      colOnes_congr hn fun i hi => by rw [hs.a i hi c]; simp
    obtain ⟨s'', hok, hre⟩ := reindexSubtColumn_spec hs.grid (k := k) (c := c)
      (by omega) (by omega) (Ne.symm hone.2)
    rw [hones] at hok
    refine ⟨s'', hok, ?_⟩
    refine
      { grid := hre.grid
        n := hre.n.trans hn
        r := hre.r.trans hr
        phase := hre.phase.trans hs.phase
        b := hre.b.trans hs.b
        pivots := hre.pivots.trans hs.pivots
        a := ?_
        den := fun y => by
          rw [hre.den hs.grid (by omega) (Ne.symm hone.2), hs.den] }
    intro i hi d
    rw [hre.a i (by omega) d, hs.a i hi k, hs.a i hi c, hs.a i hi d]
    by_cases hdk : d = k
    · subst hdk
      simp [hone.1, hone.2]
    · have hlt : d < k + 1 ↔ d < k := by omega
      simp [hdk, hlt]
  · rw [if_neg hone]
    refine ⟨s', rfl, ?_⟩
    refine
      { grid := hs.grid
        n := hn
        r := hr
        phase := hs.phase
        b := hs.b
        pivots := hs.pivots
        a := ?_
        den := hs.den }
    intro i hi d
    rw [hs.a i hi d]
    by_cases hdk : d = k
    · subst hdk
      have : ¬ (d ≠ c ∧ s.A.entry j d ≠ 0) := fun h => hone ⟨h.2, h.1⟩
      simp [this]
    · have hlt : d < k + 1 ↔ d < k := by omega
      simp [hlt]

theorem makePrincipal_spec {s : AffineState} (h : s.Grid) {c j : ℕ}
    (hc : c < s.r) (hj : j < s.n) (hA : s.A.entry j c ≠ 0) :
    ∃ s', s.makePrincipal c j = .ok s' ∧ MadePrincipal s c j s' := by
  have har := h.aRows
  have hac := h.aCols
  have hrn := h.rLe
  have h0 : PrincipalLoop s c j 0 s := by
    refine
      { grid := h, n := rfl, r := rfl, phase := rfl, b := rfl, pivots := rfl
        a := fun i _ d => by simp
        den := fun _ => rfl }
  obtain ⟨t, hloop, ht⟩ := foldlM_prefix (l := List.range s.r)
    (f := fun (s' : AffineState) k => do
      if (← s'.A.get j k) ≠ 0 ∧ k ≠ c then
        s'.reindexSubtColumn k c (s.colOnes c)
      else
        return s')
    (I := fun pre s' => PrincipalLoop s c j pre.length s')
    (by
      intro pre k post hl s' hs'
      have hlen : pre.length < (List.range s.r).length := by simp [hl]
      have hk : k = pre.length := by
        have hget := List.getElem_range (n := s.r) (j := pre.length) (by simpa using hlen)
        have hget' : (List.range s.r)[pre.length] = k := by simp [hl]
        rw [← hget', hget]
      rw [List.length_append, List.length_singleton, ← hk]
      exact PrincipalLoop.step hc hj (by simpa [hk] using hlen) (hk ▸ hs'))
    h0
  rw [List.length_range] at ht
  refine ⟨{ t with pivots := t.pivots.set c j }, ?_, ?_⟩
  · have hlen : c < t.pivots.length := by
      rw [ht.pivots, h.pivLen]
      exact hc
    simp only [makePrincipal, UMatrix.get_eq_ok (M := s.A) (by omega : j < s.A.rows)
      (by omega : c < s.A.cols), ok_bind, assert, if_pos hA,
      aColNonzeros_ok h.toShape hc]
    rw [hloop, ok_bind, setPivot, if_pos hlen]
  · refine
      { grid := ?_
        n := ht.n
        r := ht.r
        phase := ht.phase
        b := ht.b
        pivots := by simp only [ht.pivots]
        a := ?_
        den := ht.den }
    · exact { ht.grid with pivLen := by simpa using ht.grid.pivLen }
    · intro i hi d
      have hd := ht.a i hi d
      by_cases hdr : d < s.r
      · simpa [hdr] using hd
      · have hz : s.A.entry j d = 0 := h.aZero j hj d (by omega)
        simpa [hdr, hz] using hd

theorem MadePrincipal.isPivot_self {s s' : AffineState} {c j : ℕ}
    (h : s.Grid) (hs : MadePrincipal s c j s') (hj : j < s.n)
    (hA : s.A.entry j c ≠ 0) : s'.IsPivot c j := by
  refine ⟨hs.n ▸ hj, fun d _ => ?_⟩
  have hone := h.aEq hj hA
  rw [hs.a j hj d]
  by_cases hdc : d = c
  · subst hdc
    simp [hone]
  · by_cases hz : s.A.entry j d = 0
    · simp [hdc, hz]
    · simp [hdc, h.aEq hj hz, hone]

theorem MadePrincipal.isPivot_other {s s' : AffineState} {c d j p : ℕ}
    (h : s.Grid) (hs : MadePrincipal s c j s') (hp : s.IsPivot d p)
    (hz : s.A.entry p c = 0) : s'.IsPivot d p := by
  refine ⟨hs.n ▸ hp.1, fun e he => ?_⟩
  rw [hs.r] at he
  rw [hs.a p hp.1 e, hz, add_zero, ← hp.2 e he,
    Nat.mod_eq_of_lt (h.aBit p hp.1 e), ite_self]

theorem MadePrincipal.piv {s s' : AffineState} {c j : ℕ} (h : s.Shape)
    (hs : MadePrincipal s c j s') (hc : c < s.r) (d : ℕ) :
    s'.piv d = if d = c then j else s.piv d := by
  have hlen : c < s.pivots.length := h.pivLen ▸ hc
  simp only [AffineState.piv, hs.pivots, List.getD_eq_getElem?_getD,
    List.getElem?_set]
  by_cases hdc : d = c
  · subst hdc
    simp [hlen]
  · simp [hdc, Ne.symm hdc]

/-- After `MakePrincipal` every column has its principal row again. -/
theorem MadePrincipal.repInv {s s' : AffineState} {c j : ℕ} (h : s.Grid)
    (hp : s.PivotsExcept c) (hs : MadePrincipal s c j s') (hc : c < s.r)
    (hj : j < s.n) (hA : s.A.entry j c ≠ 0) : s'.RepInv := by
  refine { toGrid := hs.grid, pivots := fun d hd => ?_ }
  rw [hs.r] at hd
  rw [hs.piv h.toShape hc]
  by_cases hdc : d = c
  · subst hdc
    rw [if_pos rfl]
    exact hs.isPivot_self h hj hA
  · rw [if_neg hdc]
    have hpd := hp d hd hdc
    exact hs.isPivot_other h hpd (hpd.other hc (Ne.symm hdc))

/-- Either another row was made principal, or column `c` has no other one. -/
theorem reselectPrincipalRow_spec {s : AffineState} (h : s.Grid) {c : ℕ}
    (hc : c < s.r) (j : ℤ) :
    (∃ p < s.n, (p : ℤ) ≠ j ∧ s.A.entry p c ≠ 0 ∧
      ∃ s', s.reselectPrincipalRow j c = .ok (true, s') ∧
        MadePrincipal s c p s') ∨
    ((∀ p < s.n, (p : ℤ) ≠ j → s.A.entry p c = 0) ∧
      s.reselectPrincipalRow j c = .ok (false, s)) := by
  have har := h.aRows
  have hac := h.aCols
  have hrn := h.rLe
  suffices hl : ∀ l : List ℕ, (∀ p ∈ l, p < s.n) →
      (∃ p ∈ l, (p : ℤ) ≠ j ∧ s.A.entry p c ≠ 0 ∧
        ∃ s', s.reselectLoop j c l = .ok (true, s') ∧ MadePrincipal s c p s') ∨
      ((∀ p ∈ l, (p : ℤ) ≠ j → s.A.entry p c = 0) ∧
        s.reselectLoop j c l = .ok (false, s)) by
    simpa only [reselectPrincipalRow, List.mem_range] using
      hl (List.range s.n) fun p hp => List.mem_range.mp hp
  intro l
  induction l with
  | nil => exact fun _ => .inr ⟨by simp, rfl⟩
  | cons p l ih =>
      intro hl
      have hp : p < s.n := hl p List.mem_cons_self
      rw [reselectLoop, UMatrix.get_eq_ok (by omega) (by omega), ok_bind]
      by_cases hsel : s.A.entry p c ≠ 0 ∧ (p : ℤ) ≠ j
      · obtain ⟨s', hok, hs'⟩ := makePrincipal_spec h hc hp hsel.1
        rw [if_pos hsel, hok]
        exact .inl ⟨p, List.mem_cons_self, hsel.2, hsel.1, s', rfl, hs'⟩
      · rw [if_neg hsel]
        rcases ih fun q hq => hl q (List.mem_cons_of_mem p hq) with
          ⟨q, hq, hqj, hA, hs'⟩ | ⟨hz, hok⟩
        · exact .inl ⟨q, List.mem_cons_of_mem p hq, hqj, hA, hs'⟩
        · refine .inr ⟨fun q hq hqj => ?_, hok⟩
          rcases List.mem_cons.mp hq with rfl | hq
          · by_contra hne
            exact hsel ⟨hne, hqj⟩
          · exact hz q hq hqj

end Q2NS.AffineState
