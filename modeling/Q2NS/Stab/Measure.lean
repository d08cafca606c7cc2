import Q2NS.Stab.Permutation

/-!
# Measurement, removal and tensor product of affine states
-/

namespace Q2NS.AffineState

open Finset QuadForm Loop

theorem toNat_inj {a b : Bool} (h : a.toNat = b.toNat) : a = b := by
  cases a <;> cases b <;> first | rfl | exact absurd h (by decide)

/-! ## Measurement in the computational basis -/

/-- The part of `Φ` with bit `j` equal to `o`. -/
def restrictBit (j : ℕ) (o : Bool) (Φ : (ℕ → Bool) → ℂ) (y : ℕ → Bool) : ℂ :=
  if y j = o then Φ y else 0

/-- What `MeasureZ` does when it reports `o`.  The random bit decides unless
the state has no part on which qubit `j` shows it. -/
structure Measured (s : AffineState) (j : ℕ) (randomBit o : Bool)
    (s' : AffineState) : Prop where
  repInv : s'.RepInv
  n : s'.n = s.n
  rowZero : ∀ d, s'.A.entry j d = 0
  bit : s'.b.entry j = o.toNat
  collapse : (s' = s ∧ ∀ y, y j ≠ o → s.den y = 0) ∨
    (o = randomBit ∧ s'.r + 1 = s.r ∧ ∀ y, s'.den y =
      ((Real.sqrt 2 : ℝ) : ℂ) * restrictBit j o s.den y)

theorem rowIsZero_ok {s : AffineState} (h : s.Grid) {j : ℕ} (hj : j < s.n) :
    ∃ z, s.A.rowIsZero j = .ok z ∧
      (z = true ↔ ∀ d, s.A.entry j d = 0) := by
  have har := h.aRows
  have hac := h.aCols
  have hrn := h.rLe
  refine ⟨_, if_pos (by omega), ?_⟩
  rw [List.all_eq_true]
  constructor
  · intro hall d
    by_cases hd : d < s.r
    · have := hall d (List.mem_range.mpr (by omega))
      simpa using this
    · exact h.aZero j hj d (not_lt.mp hd)
  · intro hz d _
    simp [hz d]

theorem den_eq_zero_of_row {s : AffineState} {j : ℕ} (hj : j < s.n)
    (hz : ∀ d, s.A.entry j d = 0) {y : ℕ → Bool}
    (hy : (y j).toNat ≠ s.b.entry j % 2) : s.den y = 0 := by
  have hnot : ∀ X, ¬ s.Hits y X := by
    intro X hX
    have hrow := hX j hj
    rw [rowVal, sum_eq_zero fun d _ => hz d, add_zero] at hrow
    exact hy hrow.symm
  simp [den, hnot, expansion]

/-- The loop moves the first column that row `j` reads to the end. -/
theorem moveFirstNonzero_spec {s : AffineState} (h : s.Grid) {j : ℕ}
    (hj : j < s.n) :
    ∀ l : List ℕ, (∀ d ∈ l, d < s.r) → (∃ d ∈ l, s.A.entry j d ≠ 0) →
      ∃ k < s.r, s.A.entry j k ≠ 0 ∧
        s.moveFirstNonzero j l = s.reindexSwapColumns k := by
  intro l
  have har := h.aRows
  have hac := h.aCols
  have hrn := h.rLe
  induction l with
  | nil => rintro - ⟨d, hd, -⟩; simp at hd
  | cons k l ih =>
      intro hl hex
      have hk : k < s.r := hl k List.mem_cons_self
      by_cases hA : s.A.entry j k = 0
      · obtain ⟨d, hd, hne⟩ := hex
        have hdl : d ∈ l := by
          rcases List.mem_cons.mp hd with rfl | hdl
          · exact absurd hA hne
          · exact hdl
        obtain ⟨k', hk', hA', hok⟩ :=
          ih (fun d hd => hl d (List.mem_cons_of_mem k hd)) ⟨d, hdl, hne⟩
        refine ⟨k', hk', hA', ?_⟩
        rw [moveFirstNonzero, UMatrix.get_eq_ok (by omega) (by omega), ok_bind,
          if_neg (not_not.mpr hA), hok]
      · refine ⟨k, hk, hA, ?_⟩
        rw [moveFirstNonzero, UMatrix.get_eq_ok (by omega) (by omega), ok_bind,
          if_pos hA]

/-- When row `j` reads the last variable only, fixing that variable fixes bit
`j`. -/
theorem denW_pivot {s : AffineState} (h : s.Grid) {j v : ℕ}
    (hp : s.IsPivot (s.r - 1) j) (hj : j < s.n) (hv : v < 2) (y : ℕ → Bool) :
    s.denW (fun d => if d = s.r - 1 then 1 else 0) v y =
      if (y j).toNat = (s.b.entry j + v) % 2 then s.den y else 0 := by
  have hbit := h.bBit j hj
  have hrow : ∀ X ⊆ range s.r, s.Hits y X →
      (y j).toNat = (s.b.entry j + if s.r - 1 ∈ X then 1 else 0) % 2 := by
    intro X hX hy
    rw [← hy j hj, rowVal]
    congr 2
    rw [← sum_ite_eq' X (s.r - 1) fun _ => 1]
    exact sum_congr rfl fun d hd => hp.2 d (mem_range.mp (hX hd))
  have hcond : ∀ X ⊆ range s.r,
      ((∑ d ∈ X, if d = s.r - 1 then 1 else 0) % 2 = v ∧ s.Hits y X ↔
        (y j).toNat = (s.b.entry j + v) % 2 ∧ s.Hits y X) := by
    intro X hX
    refine and_congr_left fun hy => ?_
    rw [sum_last_mod_two, hrow X hX hy]
    split_ifs <;> omega
  have hexp : expansion s.r s.Q.entry (fun X =>
      if (∑ d ∈ X, if d = s.r - 1 then 1 else 0) % 2 = v ∧ s.Hits y X then
        (1 : ℂ) else 0) =
      expansion s.r s.Q.entry (fun X =>
        if (y j).toNat = (s.b.entry j + v) % 2 ∧ s.Hits y X then 1 else 0) :=
    expansion_congr fun X hX => by simp only [hcond X hX]
  rw [denW, hexp]
  split_ifs with hyj
  · simp only [hyj, true_and, den]
  · simp [hyj, expansion]

theorem measureZ_spec {s : AffineState} (h : s.RepInv) {j : ℕ} (hj : j < s.n)
    (randomBit : Bool) :
    ∃ o s', s.measureZ j randomBit = .ok (o, s') ∧
      Measured s j randomBit o s' := by
  have hbs := h.bSize
  have hbit := h.bBit j hj
  obtain ⟨z, hz, hziff⟩ := rowIsZero_ok h.toGrid hj
  cases z with
  | true =>
      have hrow := hziff.mp rfl
      refine ⟨s.b.entry j == 1, s, ?_, ?_⟩
      · rw [measureZ, hz, ok_bind]
        simp only [if_true, UVector.get_eq_ok (by omega : j < s.b.size), ok_bind,
          pure_eq_ok]
      · have ho : s.b.entry j = (s.b.entry j == 1).toNat := by
          obtain hb | hb : s.b.entry j = 0 ∨ s.b.entry j = 1 := by omega
          · rw [hb]; rfl
          · rw [hb]; rfl
        refine
          { repInv := h, n := rfl, rowZero := hrow, bit := ho
            collapse := .inl ⟨rfl, fun y hy => ?_⟩ }
        refine den_eq_zero_of_row hj hrow fun he => hy ?_
        rw [Nat.mod_eq_of_lt hbit, ho] at he
        exact toNat_inj he
  | false =>
      have hne : ∃ d < s.r, s.A.entry j d ≠ 0 := by
        by_contra hnone
        push Not at hnone
        refine Bool.false_ne_true (hziff.mpr fun d => ?_)
        by_cases hd : d < s.r
        · exact hnone d hd
        · exact h.aZero j hj d (not_lt.mp hd)
      obtain ⟨d, hd, hAd⟩ := hne
      obtain ⟨k, hk, hAk, hmove⟩ := moveFirstNonzero_spec h.toGrid hj
        (List.range s.r) (fun d hd => List.mem_range.mp hd)
        ⟨d, List.mem_range.mpr hd, hAd⟩
      obtain ⟨s₁, hok₁, hs₁⟩ := reindexSwapColumns_spec h.toGrid hk
      have hrep₁ := hs₁.repInv hk h
      have hr₁ := hs₁.r
      have hA₁ : s₁.A.entry j (s₁.r - 1) ≠ 0 := by
        rw [hs₁.a, hr₁, Equiv.swap_apply_right]
        exact hAk
      obtain ⟨s₂, hok₂, hs₂⟩ := makePrincipal_spec hrep₁.toGrid
        (c := s₁.r - 1) (j := j) (by omega) (hs₁.n ▸ hj) hA₁
      have hrep₂ := hs₂.repInv hrep₁.toGrid (hrep₁.except _) (by omega)
        (hs₁.n ▸ hj) hA₁
      have hr₂ := hs₂.r
      have hb₂ : s₂.b.entry j = s.b.entry j := by rw [hs₂.b, hs₁.b]
      have hn₂ : s₂.n = s.n := hs₂.n.trans hs₁.n
      have hbs₂ := hrep₂.bSize
      have hpj : s₂.IsPivot (s₂.r - 1) j := by
        rw [hr₂]
        exact hs₂.isPivot_self hrep₁.toGrid (hs₁.n ▸ hj) hA₁
      obtain ⟨v, hv, hvlt, hvsum⟩ : ∃ v, v = randomBit.toNat ^^^ s.b.entry j ∧
          v < 2 ∧ (s.b.entry j + v) % 2 = randomBit.toNat := by
        refine ⟨_, rfl, ?_, ?_⟩ <;>
          obtain hb | hb : s.b.entry j = 0 ∨ s.b.entry j = 1 := by omega
        all_goals rw [hb]; cases randomBit <;> decide
      obtain ⟨s₃, hok₃, hs₃⟩ := fixFinalBit_spec hrep₂.toGrid (by omega) hvlt
      have hr₃ := hs₃.r
      refine ⟨randomBit, s₃, ?_, ?_⟩
      · rw [measureZ, hz, ok_bind]
        simp only [Bool.false_eq_true, if_false, hmove, hok₁, ok_bind,
          if_neg (by omega : ¬ s₁.r = 0), hok₂,
          UVector.get_eq_ok (by omega : j < s₂.b.size), hb₂, ← hv, hok₃,
          pure_eq_ok]
      · refine
          { repInv := hs₃.repInv hrep₂.toGrid (hrep₂.except _)
            n := hs₃.n.trans hn₂
            rowZero := fun d => ?_
            bit := ?_
            collapse := .inr ⟨rfl, by omega, fun y => ?_⟩ }
        · have hA := hs₃.a j (hn₂ ▸ hj) d
          rw [hA]
          split_ifs with hdl
          · rfl
          · by_cases hdr : d < s₂.r
            · exact hpj.other hdr hdl
            · exact hrep₂.aZero j (hn₂ ▸ hj) d (not_lt.mp hdr)
        · rw [hs₃.b j (hn₂ ▸ hj), hb₂, hpj.self (by omega), mul_one, hvsum]
        · rw [hs₃.den y]
          rw [denW_pivot hrep₂.toGrid hpj (hn₂ ▸ hj) hvlt, hs₂.den,
            hs₁.den hk, hb₂, hvsum, restrictBit]
          congr 2
          exact propext ⟨toNat_inj, congrArg _⟩

/-! ## Removing the last qubit -/

private theorem dropPivots_ok {s : AffineState} (h : s.Shape) {dropped : ℕ}
    (hp : ∀ c < s.r, s.piv c ≠ dropped) :
    ∀ fuel c, s.dropPivots dropped fuel c = .ok s := by
  intro fuel
  induction fuel with
  | zero => exact fun _ => rfl
  | succ fuel ih =>
      intro c
      rw [dropPivots]
      by_cases hc : c < s.r
      · rw [if_pos hc, h.getElem?_pivots hc]
        simp only [hp c hc, if_false, ih]
      · rw [if_neg hc]
        rfl

/-- Removing a last qubit whose row is zero keeps the part of the vector on
which that qubit shows its bit. -/
theorem dropLastQubit_spec {s : AffineState} (h : s.RepInv) {m : ℕ}
    (hn : s.n = m + 1) (hz : ∀ d, s.A.entry m d = 0) {o : Bool}
    (ho : s.b.entry m = o.toNat) :
    ∃ s', s.dropLastQubit = .ok s' ∧ s'.RepInv ∧ s'.n = m ∧
      ∀ y, s'.den y = s.den (Function.update y m o) := by
  have har := h.aRows
  have hac := h.aCols
  have hbs := h.bSize
  have hpm : ∀ c < s.r, s.piv c ≠ m := by
    intro c hc he
    have hone := (h.pivots c hc).self hc
    rw [he, hz c] at hone
    omega
  have hpn : ∀ c < s.r, s.piv c < m := by
    intro c hc
    have hlt := (h.pivots c hc).1
    have hne := hpm c hc
    omega
  have hr : s.r ≤ m := by
    have hcard := card_le_card_of_injOn (s := range s.r) (t := range m) s.piv
      (fun c hc => by simpa using hpn c (by simpa using hc))
      (fun c hc d hd he => h.piv_inj (by simpa using hc) (by simpa using hd) he)
    simpa using hcard
  obtain ⟨hA, hArows, hAcols⟩ := UMatrix.foldlM_eq_ok (M := s.A)
    (l := List.range s.r) (f := fun A c => A.set m c 0)
    (g := fun A c => A.update m c fun _ => 0)
    (fun c hc M hMr hMc => by
      have hc' := List.mem_range.mp hc
      exact ⟨UMatrix.modify_eq_ok (by omega) (by omega) _, hMr, hMc⟩)
  obtain ⟨A', hA', hAe⟩ : ∃ A', A' = (List.range s.r).foldl
      (fun A c => A.update m c fun _ => 0) s.A ∧
      ∀ i < m, ∀ d, A'.entry i d = s.A.entry i d := by
    refine ⟨_, rfl, fun i hi d => ?_⟩
    rw [UMatrix.foldl_entry (g := fun x a b v =>
      if a = m ∧ b = x then 0 else v) (fun M x a b => rfl)]
    exact foldl_fixed fun x _ => if_neg fun e => hi.ne e.1
  rw [← hA'] at hA hArows hAcols
  obtain ⟨b', hb', hbsize, hbe⟩ : ∃ b', s.b.set m 0 = .ok b' ∧
      b'.size = s.b.size ∧ ∀ i < m, b'.entry i = s.b.entry i :=
    ⟨_, UVector.modify_eq_ok (by omega) _, rfl, fun i hi => if_neg hi.ne⟩
  have hcode : s.dropLastQubit = .ok { s with A := A', b := b', n := m } := by
    have hsub : s.n - 1 = m := by omega
    rw [dropLastQubit, if_neg (by omega : ¬ s.n = 0)]
    simp only [pure_eq_ok, ok_bind, hsub,
      @dropPivots_ok _ h.toShape m hpm, hA, hb']
  refine ⟨_, hcode, ?_, rfl, fun y => ?_⟩
  · refine
      { aRows := by simp only [hArows]; omega
        aCols := by simp only [hAcols]; omega
        qRows := le_trans (by simp only; omega) h.qRows
        qCols := le_trans (by simp only; omega) h.qCols
        bSize := by simp only [hbsize]; omega
        pivLen := h.pivLen
        rLe := le_trans hr (Nat.le_succ m)
        aBit := fun i hi d => ?_
        aZero := fun i hi d hd => ?_
        bBit := fun i hi => ?_
        qSymm := h.qSymm
        qOff := h.qOff
        qDiag := h.qDiag
        qZero := h.qZero
        phaseLt := h.phaseLt
        pivots := fun c hc => ?_ }
    · have hi' : i < m := hi
      rw [hAe i hi']
      exact h.aBit i (by omega) d
    · have hi' : i < m := hi
      rw [hAe i hi']
      exact h.aZero i (by omega) d hd
    · have hi' : i < m := hi
      rw [hbe i hi']
      exact h.bBit i (by omega)
    · have hp := h.pivots c hc
      have hlt : s.piv c < m := hpn c hc
      exact ⟨hlt, fun d hd => (hAe _ hlt d).trans (hp.2 d hd)⟩
  · refine @den_permute s { s with A := A', b := b', n := m } rfl rfl rfl y
      (Function.update y m o) fun X _ => ?_
    have hrow : ∀ i < m, rowVal { s with A := A', b := b', n := m } X i =
        s.rowVal X i := by
      intro i hi
      simp only [rowVal, hbe i hi, hAe i hi]
    have hlast : s.rowVal X m = o.toNat := by
      rw [rowVal, sum_eq_zero fun d _ => hz d, add_zero, ho]
      cases o <;> rfl
    constructor
    · intro hy i hi
      by_cases him : i = m
      · rw [him, Function.update_self, hlast]
      · rw [Function.update_of_ne him, ← hrow i (by omega)]
        exact hy i (by simp only; omega)
    · intro hy i hi
      have hi' : i < m := hi
      rw [hrow i hi', hy i (by omega), Function.update_of_ne hi'.ne]

/-! ## Tensor product -/

/-- What `TensorProduct` writes, block by block. -/
structure Joined (s t p : AffineState) : Prop where
  shape : p.Shape
  n : p.n = s.n + t.n
  r : p.r = s.r + t.r
  phase : p.phase = (s.phase + t.phase) % 8
  piv : ∀ c < p.r,
    p.piv c = if c < s.r then s.piv c else t.piv (c - s.r) + s.n
  a : ∀ i d, p.A.entry i d =
    if s.n ≤ i ∧ i < s.n + t.n ∧ s.r ≤ d ∧ d < s.r + t.r then
      t.A.entry (i - s.n) (d - s.r)
    else if i < s.n ∧ d < s.r then s.A.entry i d else 0
  q : ∀ i d, p.Q.entry i d =
    if s.r ≤ i ∧ i < s.r + t.r ∧ s.r ≤ d ∧ d < s.r + t.r then
      t.Q.entry (i - s.r) (d - s.r)
    else if i < s.r ∧ d < s.r then s.Q.entry i d else 0
  b : ∀ i, p.b.entry i =
    if s.n ≤ i ∧ i < s.n + t.n then t.b.entry (i - s.n)
    else if i < s.n then s.b.entry i else 0

private theorem getD_append_map {l l' : List ℕ} {n c : ℕ}
    (hc : c < l.length + l'.length) :
    (l ++ l'.map (· + n)).getD c 0 =
      if c < l.length then l.getD c 0 else l'.getD (c - l.length) 0 + n := by
  simp only [List.getD_eq_getElem?_getD]
  split_ifs with hlt
  · rw [List.getElem?_append_left hlt]
  · have hlt' : c - l.length < l'.length := by omega
    rw [List.getElem?_append_right (not_lt.mp hlt), List.getElem?_map,
      List.getElem?_eq_getElem hlt']
    rfl

theorem tensorProduct_ok {s t : AffineState} (hs : s.RepInv) (ht : t.RepInv) :
    ∃ p, s.tensorProduct t = .ok p ∧ Joined s t p := by
  have hrs := hs.r_le
  have hrt := ht.r_le
  have hps : s.pivotPrefix = .ok s.pivots := by
    rw [pivotPrefix, if_pos hs.pivLen.ge, ← hs.pivLen, List.take_length]
  have hpt : t.pivotPrefix = .ok t.pivots := by
    rw [pivotPrefix, if_pos ht.pivLen.ge, ← ht.pivLen, List.take_length]
  have hblock : ∀ {u : AffineState}, u.RepInv →
      u.Q.block u.r u.r = .ok u.Q.entry ∧ u.A.block u.n u.r = .ok u.A.entry ∧
        u.b.segment u.n = .ok u.b.entry := by
    intro u hu
    have h₁ := hu.aCols
    have h₂ := hu.qRows
    have h₃ := hu.qCols
    have hr := hu.r_le
    exact ⟨if_pos ⟨by omega, by omega⟩, if_pos ⟨hu.aRows, by omega⟩,
      if_pos hu.bSize⟩
  obtain ⟨hsQ, hsA, hsb⟩ := hblock hs
  obtain ⟨htQ, htA, htb⟩ := hblock ht
  obtain ⟨Q₀, Q₁, hQ₀, hQ₁, hQrows, hQcols, hQe⟩ := UMatrix.setBlock_twice
    (R := s.n + t.n + 1) (C := s.n + t.n + 1) (p := s.r) (q := s.r)
    (u := t.r) (v := t.r) s.Q.entry t.Q.entry (by omega) (by omega)
  obtain ⟨A₀, A₁, hA₀, hA₁, hArows, hAcols, hAe⟩ := UMatrix.setBlock_twice
    (R := s.n + t.n) (C := s.n + t.n + 1) (p := s.n) (q := s.r)
    (u := t.n) (v := t.r) s.A.entry t.A.entry (by omega) (by omega)
  obtain ⟨b₀, b₁, hb₀, hb₁, hbsize, hbe⟩ := UVector.setSegment_twice
    (R := s.n + t.n) (p := s.n) (u := t.n) s.b.entry t.b.entry le_rfl
  refine ⟨{
    n := s.n + t.n
    phase := (s.phase + t.phase) % 8
    r := s.r + t.r
    Q := Q₁
    A := A₁
    b := b₁
    pivots := s.pivots ++ t.pivots.map (· + s.n) }, ?_, ?_⟩
  · simp only [tensorProduct, hsQ, htQ, hsA, htA, hsb, htb, ok_bind, hQ₀, hQ₁,
      hA₀, hA₁, hb₀, hb₁, hps, hpt, pure_eq_ok]
  · have hlen : (s.pivots ++ t.pivots.map (· + s.n)).length = s.r + t.r := by
      rw [List.length_append, List.length_map, hs.pivLen, ht.pivLen]
    refine
      { shape := ⟨hArows.ge, hAcols.ge, hQrows.ge, hQcols.ge, hbsize.ge, hlen,
          by simp only; omega⟩
        n := rfl
        r := rfl
        phase := rfl
        piv := fun c hc => ?_
        a := hAe
        q := hQe
        b := hbe }
    rw [piv, getD_append_map (by rw [hs.pivLen, ht.pivLen]; exact hc),
      hs.pivLen]
    rfl

section Joined

variable {s t p : AffineState}

theorem Joined.a_left (hp : Joined s t p) {i d : ℕ} (hi : i < s.n) :
    p.A.entry i d = if d < s.r then s.A.entry i d else 0 := by
  rw [hp.a, if_neg (by omega)]
  simp only [hi, true_and]

theorem Joined.a_right (hp : Joined s t p) (ht : t.Grid) {i d : ℕ}
    (hi : i < t.n) :
    p.A.entry (s.n + i) d = if d < s.r then 0 else t.A.entry i (d - s.r) := by
  rw [hp.a, if_neg (by omega : ¬ (s.n + i < s.n ∧ d < s.r))]
  by_cases hd : d < s.r
  · rw [if_pos hd, if_neg (by omega)]
  · rw [if_neg hd, Nat.add_sub_cancel_left]
    by_cases hd' : d < s.r + t.r
    · rw [if_pos (by omega)]
    · rw [if_neg (by omega), ht.aZero i hi _ (by omega)]

theorem Joined.grid (hp : Joined s t p) (hs : s.Grid) (ht : t.Grid) :
    p.Grid := by
  have hn := hp.n
  have hr := hp.r
  have hsplit : ∀ i < p.n, i < s.n ∨ ∃ j < t.n, i = s.n + j := by
    intro i hi
    by_cases hlt : i < s.n
    · exact .inl hlt
    · exact .inr ⟨i - s.n, by omega, by omega⟩
  refine
    { hp.shape with
      aBit := fun i hi d => ?_
      aZero := fun i hi d hd => ?_
      bBit := fun i hi => ?_
      qSymm := fun a b => ?_
      qOff := fun a b hab => ?_
      qDiag := fun a => ?_
      qZero := fun a b ha => ?_
      phaseLt := hp.phase ▸ Nat.mod_lt _ (by norm_num) }
  · rcases hsplit i hi with hlt | ⟨j, hj, rfl⟩
    · rw [hp.a_left hlt]
      split_ifs
      · exact hs.aBit i hlt d
      · norm_num
    · rw [hp.a_right ht hj]
      split_ifs
      · norm_num
      · exact ht.aBit j hj _
  · rcases hsplit i hi with hlt | ⟨j, hj, rfl⟩
    · rw [hp.a_left hlt, if_neg (by omega)]
    · rw [hp.a_right ht hj, if_neg (by omega), ht.aZero j hj _ (by omega)]
  · rw [hp.b]
    split_ifs with h₁ h₂
    · exact ht.bBit _ (by omega)
    · exact hs.bBit i h₂
    · norm_num
  · rw [hp.q, hp.q, hs.qSymm a b, ht.qSymm (a - s.r)]
    by_cases h₁ : s.r ≤ a ∧ a < s.r + t.r <;>
      by_cases h₂ : s.r ≤ b ∧ b < s.r + t.r <;>
      by_cases h₃ : a < s.r <;> by_cases h₄ : b < s.r <;>
      simp [h₁, h₂, h₃, h₄]
  · rw [hp.q]
    split_ifs with h₁
    · exact ht.qOff _ _ (by omega)
    · exact hs.qOff a b hab
    · norm_num
  · rw [hp.q]
    split_ifs
    · exact ht.qDiag _
    · exact hs.qDiag a
    · norm_num
  · rw [hp.q, if_neg (by omega), if_neg (by omega)]

theorem Joined.repInv (hp : Joined s t p) (hs : s.RepInv) (ht : t.RepInv) :
    p.RepInv := by
  have hn := hp.n
  have hr := hp.r
  refine { toGrid := hp.grid hs.toGrid ht.toGrid, pivots := fun c hc => ?_ }
  rw [hp.piv c hc]
  split_ifs with hlt
  · have hpc := hs.pivots c hlt
    refine ⟨by have := hpc.1; omega, fun d _ => ?_⟩
    rw [hp.a_left hpc.1]
    by_cases hd : d < s.r
    · rw [if_pos hd, hpc.2 d hd]
    · rw [if_neg hd, if_neg (by omega)]
  · have hpc := ht.pivots (c - s.r) (by omega)
    refine ⟨by have := hpc.1; omega, fun d hd => ?_⟩
    rw [Nat.add_comm, hp.a_right ht.toGrid hpc.1]
    by_cases hds : d < s.r
    · rw [if_pos hds, if_neg (by omega)]
    · rw [if_neg hds, hpc.2 (d - s.r) (by omega)]
      exact if_congr (by omega) rfl rfl

/-- The vector of the product is the product of the vectors. -/
theorem Joined.den (hp : Joined s t p) (ht : t.Grid)
    (y : ℕ → Bool) : p.den y = s.den y * t.den fun i => y (s.n + i) := by
  have hn := hp.n
  have hrowL : ∀ i < s.n, ∀ X ⊆ range s.r, ∀ Y,
      p.rowVal (X ∪ shiftVars s.r Y) i = s.rowVal X i := by
    intro i hi X hX Y
    rw [rowVal, rowVal, sum_union (disjoint_shiftVars hX Y), sum_shiftVars,
      hp.b, if_neg (by omega), if_pos hi]
    have hz : ∑ d ∈ Y, p.A.entry i (s.r + d) = 0 :=
      sum_eq_zero fun d _ => by rw [hp.a_left hi, if_neg (by omega)]
    have hx : ∑ d ∈ X, p.A.entry i d = ∑ d ∈ X, s.A.entry i d :=
      sum_congr rfl fun d hd => by
        rw [hp.a_left hi, if_pos (mem_range.mp (hX hd))]
    rw [hz, hx, add_zero]
  have hrowR : ∀ i < t.n, ∀ X ⊆ range s.r, ∀ Y,
      p.rowVal (X ∪ shiftVars s.r Y) (s.n + i) = t.rowVal Y i := by
    intro i hi X hX Y
    rw [rowVal, rowVal, sum_union (disjoint_shiftVars hX Y), sum_shiftVars,
      hp.b, if_pos (by omega), Nat.add_sub_cancel_left]
    have hz : ∑ d ∈ X, p.A.entry (s.n + i) d = 0 :=
      sum_eq_zero fun d hd => by
        rw [hp.a_right ht hi, if_pos (mem_range.mp (hX hd))]
    have hy : ∑ d ∈ Y, p.A.entry (s.n + i) (s.r + d) =
        ∑ d ∈ Y, t.A.entry i d :=
      sum_congr rfl fun d _ => by
        rw [hp.a_right ht hi, if_neg (by omega), Nat.add_sub_cancel_left]
    rw [hz, hy, zero_add]
  have hhits : ∀ X ⊆ range s.r, ∀ Y,
      (p.Hits y (X ∪ shiftVars s.r Y) ↔
        s.Hits y X ∧ t.Hits (fun i => y (s.n + i)) Y) := by
    intro X hX Y
    constructor
    · intro hy
      refine ⟨fun i hi => ?_, fun i hi => ?_⟩
      · rw [← hrowL i hi X hX Y, hy i (by omega)]
      · rw [← hrowR i hi X hX Y, hy _ (by omega)]
    · rintro ⟨hl, hr⟩ i hi
      by_cases hlt : i < s.n
      · rw [hrowL i hlt X hX, hl i hlt]
      · obtain ⟨j, rfl⟩ := Nat.exists_eq_add_of_le (not_lt.mp hlt)
        rw [hrowR j (by omega) X hX, hr j (by omega)]
  have hexp := @expansion_blocks s.r t.r p.Q.entry s.Q.entry t.Q.entry
    (fun X => if p.Hits y X then 1 else 0)
    (fun X => if s.Hits y X then 1 else 0)
    (fun Y => if t.Hits (fun i => y (s.n + i)) Y then 1 else 0)
    (fun a ha b hb => by
      rw [hp.q, if_neg (by omega), if_pos ⟨ha, hb⟩])
    (fun a ha b hb => by
      rw [hp.q, if_pos (by omega), Nat.add_sub_cancel_left,
        Nat.add_sub_cancel_left])
    (fun a ha b hb => by
      rw [hp.q, hp.q, if_neg (by omega), if_neg (by omega), if_neg (by omega),
        if_neg (by omega)]
      exact ⟨rfl, rfl⟩)
    (fun X hX Y hY => by
      simp only [hhits X hX Y, ite_and, mul_ite, mul_one, mul_zero]
      split_ifs <;> rfl)
  rw [AffineState.den, AffineState.den, AffineState.den, hp.r, hp.phase, hexp,
    omega8_pow_mod, pow_add, pow_add]
  ring

end Joined

theorem tensorProduct_spec {s t : AffineState} (hs : s.RepInv)
    (ht : t.RepInv) :
    ∃ p, s.tensorProduct t = .ok p ∧ p.RepInv ∧ p.n = s.n + t.n ∧
      ∀ y, p.den y = s.den y * t.den fun i => y (s.n + i) := by
  obtain ⟨p, hok, hp⟩ := tensorProduct_ok hs ht
  exact ⟨p, hok, hp.repInv hs ht, hp.n, hp.den ht.toGrid⟩

end Q2NS.AffineState
