import Q2NS.Stab.Diagonal

/-!
# The gates of the stabilizer backend that permute basis vectors

`X`, `Y`, `CX` and `SWAP`.
-/

namespace Q2NS.AffineState

open Finset QuadForm Loop

/-- The gate that sends the basis vector `π y` to `y`. -/
def permuteBy (π : (ℕ → Bool) → ℕ → Bool) (Φ : (ℕ → Bool) → ℂ)
    (y : ℕ → Bool) : ℂ :=
  Φ (π y)

/-- States with the same form and phase whose rows hit `y` together. -/
theorem den_permute {s s' : AffineState} (hr : s'.r = s.r) (hQ : s'.Q = s.Q)
    (hp : s'.phase = s.phase) {y y' : ℕ → Bool}
    (hhits : ∀ X ⊆ range s.r, s'.Hits y X ↔ s.Hits y' X) :
    s'.den y = s.den y' := by
  rw [den, den, hr, hQ, hp]
  congr 1
  refine expansion_congr fun X hX => ?_
  simp only [hhits X hX]

private theorem eq_toNat_xor {v : ℕ} (hv : v < 2) (a b : Bool) :
    v = (a ^^ b).toNat ↔ (v + b.toNat) % 2 = a.toNat := by
  cases a <;> cases b <;> simp <;> omega

/-! ## `X` and `Y` -/

/-- `y` with bit `j` flipped. -/
def flipBit (j : ℕ) (y : ℕ → Bool) : ℕ → Bool :=
  Function.update y j (y j ^^ true)

/-- The invariant only asks for bits in the shift. -/
theorem RepInv.withShift {s : AffineState} (h : s.RepInv) {b' : UVector}
    (hsize : b'.size = s.b.size) (hbit : ∀ i < s.n, b'.entry i < 2) :
    RepInv { s with b := b' } :=
  { h with bSize := hsize ▸ h.bSize, bBit := hbit }

theorem X_spec {s : AffineState} (h : s.RepInv) {j : ℕ} (hj : j < s.n) :
    ∃ s', s.X j = .ok s' ∧ Acts (permuteBy (flipBit j)) s s' := by
  have hbs := h.bSize
  have hcode : s.X j = .ok { s with b := s.b.update j (· ^^^ 1) } := by
    rw [X, UVector.modify_eq_ok (by omega), ok_bind, pure_eq_ok]
  have hb : ∀ i < s.n, (s.b.update j (· ^^^ 1)).entry i =
      if i = j then (s.b.entry i + 1) % 2 else s.b.entry i := by
    intro i hi
    rw [UVector.update_entry]
    by_cases hij : i = j
    · rw [if_pos hij, if_pos hij, xor_one_of_bit (h.bBit i hi)]
    · rw [if_neg hij, if_neg hij]
  refine ⟨_, hcode, ?_, rfl, funext fun y => ?_⟩
  · refine h.withShift rfl fun i hi => ?_
    have hbit := h.bBit i hi
    rw [hb i hi]
    split_ifs <;> omega
  · refine @den_permute s { s with b := s.b.update j (· ^^^ 1) } rfl rfl rfl y
      (flipBit j y) fun X _ => forall₂_congr fun i hi => ?_
    rw [rowVal, rowVal]
    simp only [hb i hi]
    by_cases hij : i = j
    · subst hij
      rw [if_pos rfl, flipBit, Function.update_self,
        eq_toNat_xor (Nat.mod_lt _ (by norm_num))]
      simp only [Bool.toNat_true]
      omega
    · rw [if_neg hij, flipBit, Function.update_of_ne hij]

theorem Y_spec {s : AffineState} (h : s.RepInv) {j : ℕ} (hj : j < s.n) :
    ∃ s', s.Y j = .ok s' ∧ Acts (fun Φ y =>
      (Complex.I * sgn (!y j)) * Φ (flipBit j y)) s s' := by
  have hrep : RepInv { s with phase := (s.phase + 2) % 8 } :=
    { h with phaseLt := Nat.mod_lt _ (by norm_num) }
  obtain ⟨s₁, hok₁, hs₁⟩ := Z_spec hrep (j := j) hj
  obtain ⟨s₂, hok₂, hs₂⟩ := X_spec hs₁.repInv (j := j) (by rw [hs₁.n]; exact hj)
  have hden : ∀ y, den { s with phase := (s.phase + 2) % 8 } y =
      Complex.I * s.den y := by
    intro y
    have hplane : SamePlane s { s with phase := (s.phase + 2) % 8 } :=
      ⟨rfl, rfl, rfl, rfl, rfl⟩
    refine hplane.den fun X _ _ => ?_
    rw [omega8_pow_mod, pow_add, omega8_sq]
    ring
  refine ⟨s₂, by rw [Y, hok₁, ok_bind, hok₂], hs₂.repInv,
    hs₂.n.trans hs₁.n, funext fun y => ?_⟩
  rw [hs₂.den, hs₁.den, permuteBy, phaseBy, hden, flipBit,
    Function.update_self, Bool.xor_true]
  ring

/-! ## `CX` -/

/-- What `CX` does to the rows before it looks for a new principal row. -/
structure AddedRow (s : AffineState) (j k : ℕ) (s' : AffineState) : Prop where
  grid : s'.Grid
  n : s'.n = s.n
  r : s'.r = s.r
  pivots : s'.pivots = s.pivots
  phase : s'.phase = s.phase
  q : s'.Q = s.Q
  a : ∀ i < s.n, ∀ d, s'.A.entry i d =
    if i = k then (s.A.entry k d + s.A.entry j d) % 2 else s.A.entry i d
  b : ∀ i < s.n, s'.b.entry i =
    if i = k then (s.b.entry k + s.b.entry j) % 2 else s.b.entry i

private theorem xor_of_bits {x y : ℕ} (hx : x < 2) (hy : y < 2) :
    x ^^^ y = (x + y) % 2 := by
  obtain rfl | rfl : x = 0 ∨ x = 1 := by omega
  · obtain rfl | rfl : y = 0 ∨ y = 1 := by omega
    · rfl
    · rfl
  · obtain rfl | rfl : y = 0 ∨ y = 1 := by omega
    · rfl
    · rfl

/-- `CX` is the row addition followed by the search for a principal row. -/
theorem CX_eq {s : AffineState} (h : s.Grid) {j k : ℕ} (hj : j < s.n)
    (hk : k < s.n) :
    ∃ s₁, AddedRow s j k s₁ ∧ s.CX j k = (match s.pivCol k with
      | none => .ok s₁
      | some c => do return (← s₁.reselectPrincipalRow (-1) c).2) := by
  have har := h.aRows
  have hac := h.aCols
  have hrn := h.rLe
  have hbs := h.bSize
  have hbj := UVector.get_eq_ok (v := s.b) (i := j) (by omega)
  obtain ⟨hA, hArows, hAcols⟩ := UMatrix.foldlM_eq_ok (M := s.A)
    (l := s.rowOnes j) (f := fun A col => A.modify k col (· ^^^ 1))
    (g := fun A col => A.update k col (· ^^^ 1))
    (fun c hc M hMr hMc => by
      have hc' := (mem_rowOnes.mp hc).1
      exact ⟨UMatrix.modify_eq_ok (by omega) (by omega) _, hMr, hMc⟩)
  set A' := (s.rowOnes j).foldl (fun A col => A.update k col (· ^^^ 1)) s.A
  have hA' : ∀ i < s.n, ∀ d, A'.entry i d =
      if i = k then (s.A.entry k d + s.A.entry j d) % 2
      else s.A.entry i d := by
    intro i hi d
    rw [UMatrix.foldl_entry (g := fun x a b v =>
      if a = k ∧ b = x then v ^^^ 1 else v) (fun M x a b => rfl)]
    by_cases hik : i = k
    · subst hik
      simp only [true_and, if_true]
      rw [foldl_ite_eq (s.rowOnes_nodup j) d (· ^^^ 1)]
      have hbi := h.aBit i hi d
      have hbj := h.aBit j hj d
      by_cases hone : s.A.entry j d = 0
      · rw [if_neg fun hm => (mem_rowOnes.mp hm).2 hone, hone, add_zero,
          Nat.mod_eq_of_lt hbi]
      · have hlt : d < s.r := by
          by_contra hge
          exact hone (h.aZero j hj d (not_lt.mp hge))
        have hone' : s.A.entry j d = 1 := by omega
        rw [if_pos (mem_rowOnes.mpr ⟨hlt, hone⟩), xor_one_of_bit hbi, hone']
    · simp only [hik, false_and, if_false]
      exact foldl_fixed fun _ _ => rfl
  have hb' : ∀ i < s.n, (s.b.update k (· ^^^ s.b.entry j)).entry i =
      if i = k then (s.b.entry k + s.b.entry j) % 2 else s.b.entry i := by
    intro i hi
    rw [UVector.update_entry]
    by_cases hik : i = k
    · rw [if_pos hik, if_pos hik, hik, xor_of_bits (h.bBit k hk) (h.bBit j hj)]
    · rw [if_neg hik, if_neg hik]
  refine ⟨{ s with A := A', b := s.b.update k (· ^^^ s.b.entry j) }, ?_, ?_⟩
  · refine
      { grid := ?_
        n := rfl
        r := rfl
        pivots := rfl
        phase := rfl
        q := rfl
        a := hA'
        b := hb' }
    refine
      { h with
        aRows := hArows ▸ h.aRows
        aCols := hAcols ▸ h.aCols
        aBit := fun i hi d => ?_
        aZero := fun i hi d hd => ?_
        bBit := fun i hi => ?_ }
    · simp only [hA' i hi d]
      split_ifs
      · exact Nat.mod_lt _ (by norm_num)
      · exact h.aBit i hi d
    · have hd' : s.r ≤ d := hd
      simp only [hA' i hi d]
      rw [h.aZero k hk d hd', h.aZero j hj d hd', h.aZero i hi d hd', ite_self]
    · simp only [hb' i hi]
      split_ifs
      · exact Nat.mod_lt _ (by norm_num)
      · exact h.bBit i hi
  · rw [CX, aRowNonzeros_ok h.toShape hj]
    simp only [ok_bind]
    rw [hA, ok_bind, hbj, ok_bind, UVector.modify_eq_ok (by omega), ok_bind]
    rfl

/-- Row `k` becomes the sum of rows `k` and `j`. -/
theorem AddedRow.den {s s' : AffineState} {j k : ℕ} (hs : AddedRow s j k s')
    (hj : j < s.n) (hjk : j ≠ k) (y : ℕ → Bool) :
    s'.den y = s.den (Function.update y k (y k ^^ y j)) := by
  refine den_permute hs.r hs.q hs.phase fun X _ => ?_
  have hrow : ∀ i < s.n, s'.rowVal X i =
      if i = k then (s.rowVal X k + s.rowVal X j) % 2 else s.rowVal X i := by
    intro i hi
    simp only [rowVal, hs.b i hi, hs.a i hi]
    split_ifs with hik
    · have hsum : ∑ d ∈ X, (s.A.entry k d + s.A.entry j d) % 2 ≡
          ∑ d ∈ X, s.A.entry k d + ∑ d ∈ X, s.A.entry j d [MOD 2] := by
        rw [← sum_add_distrib]
        exact Nat.ModEq.sum fun d _ => Nat.mod_modEq _ 2
      unfold Nat.ModEq at hsum
      omega
    · rfl
  have hjrow := hrow j hj
  rw [if_neg hjk] at hjrow
  constructor
  · intro hy i hi
    have hyi := hy i (hs.n ▸ hi)
    have hyj := hy j (hs.n ▸ hj)
    rw [hjrow] at hyj
    rw [hrow i hi] at hyi
    by_cases hik : i = k
    · subst hik
      rw [if_pos rfl, hyj] at hyi
      rw [Function.update_self, eq_toNat_xor (s.rowVal_lt X i), hyi]
    · rw [if_neg hik] at hyi
      rw [Function.update_of_ne hik, hyi]
  · intro hy i hi
    rw [hs.n] at hi
    have hyi := hy i hi
    have hyj := hy j hj
    rw [Function.update_of_ne hjk] at hyj
    rw [hrow i hi]
    by_cases hik : i = k
    · subst hik
      rw [Function.update_self, eq_toNat_xor (s.rowVal_lt X i)] at hyi
      rw [if_pos rfl, hyj, hyi]
    · rw [Function.update_of_ne hik] at hyi
      rw [if_neg hik, hyi]

theorem AddedRow.isPivot {s s' : AffineState} {j k d p : ℕ}
    (hs : AddedRow s j k s') (hp : s.IsPivot d p) (hpk : p ≠ k) :
    s'.IsPivot d p := by
  refine ⟨hs.n ▸ hp.1, fun e he => ?_⟩
  rw [hs.a p hp.1, if_neg hpk]
  exact hp.2 e (hs.r ▸ he)

theorem AddedRow.piv {s s' : AffineState} {j k : ℕ} (hs : AddedRow s j k s')
    (d : ℕ) : s'.piv d = s.piv d := by
  rw [AffineState.piv, AffineState.piv, hs.pivots]

theorem CX_spec {s : AffineState} (h : s.RepInv) {j k : ℕ} (hj : j < s.n)
    (hk : k < s.n) (hjk : j ≠ k) :
    ∃ s', s.CX j k = .ok s' ∧
      Acts (permuteBy fun y => Function.update y k (y k ^^ y j)) s s' := by
  obtain ⟨s₁, hs₁, hcode⟩ := CX_eq h.toGrid hj hk
  have hden : s₁.den = permuteBy (fun y => Function.update y k (y k ^^ y j))
      s.den := funext fun y => hs₁.den hj hjk y
  rw [hcode]
  cases hp : s.pivCol k with
  | none =>
      refine ⟨s₁, rfl, ?_, hs₁.n, hden⟩
      refine { toGrid := hs₁.grid, pivots := fun d hd => ?_ }
      rw [hs₁.r] at hd
      rw [hs₁.piv]
      exact hs₁.isPivot (h.pivots d hd) (pivCol_eq_none h.toShape hp d hd)
  | some c =>
      obtain ⟨hc, hck⟩ := pivCol_eq_some h.toShape hp
      have hexc : s₁.PivotsExcept c := by
        intro d hd hdc
        rw [hs₁.r] at hd
        rw [hs₁.piv]
        exact hs₁.isPivot (h.pivots d hd) fun he =>
          hdc (h.piv_inj hd hc (he.trans hck.symm))
      rcases reselectPrincipalRow_spec hs₁.grid (c := c) (hs₁.r ▸ hc) (-1) with
        ⟨p, hpn, -, hAp, s', hok, hs'⟩ | ⟨hzero, -⟩
      · refine ⟨s', ?_, hs'.repInv hs₁.grid hexc (hs₁.r ▸ hc) hpn hAp,
          hs'.n.trans hs₁.n, ?_⟩
        · simp only [hok, ok_bind, pure_eq_ok]
        · rw [← hden]
          exact funext hs'.den
      · -- rows `j` and `k` cannot both vanish in column `c`
        have hAk : s.A.entry k c = 1 := by
          have := (h.pivots c hc).self hc
          rwa [hck] at this
        have hzj := hzero j (hs₁.n ▸ hj) (by omega)
        have hzk := hzero k (hs₁.n ▸ hk) (by omega)
        rw [hs₁.a j hj, if_neg hjk] at hzj
        rw [hs₁.a k hk, if_pos rfl, hAk, hzj] at hzk
        omega

/-! ## `SWAP` -/

theorem length_replaceFirst (l : List ℕ) (x : Option ℕ) (v : ℕ) :
    (replaceFirst l x v).length = l.length := by
  cases x with
  | none => rfl
  | some i => exact List.length_set

theorem getD_replaceFirst {l : List ℕ} (x : Option ℕ) (v : ℕ) {c : ℕ}
    (hc : c < l.length) :
    (replaceFirst l x v).getD c 0 = if x = some c then v else l.getD c 0 := by
  cases x with
  | none => simp [replaceFirst]
  | some i =>
      by_cases hic : i = c
      · subst hic
        simp [replaceFirst, List.getD_eq_getElem?_getD, hc]
      · simp [replaceFirst, List.getD_eq_getElem?_getD, hic]

theorem RepInv.pivCol_eq_some_iff {s : AffineState} (h : s.RepInv) {j c : ℕ}
    (hc : c < s.r) : s.pivCol j = some c ↔ s.piv c = j := by
  refine ⟨fun hp => (pivCol_eq_some h.toShape hp).2, fun he => ?_⟩
  cases hp : s.pivCol j with
  | none => exact absurd he (pivCol_eq_none h.toShape hp c hc)
  | some d =>
      obtain ⟨hd, hdj⟩ := pivCol_eq_some h.toShape hp
      rw [h.piv_inj hd hc (hdj.trans he.symm)]

/-- `y` with bits `j` and `k` exchanged. -/
def swapBits (j k : ℕ) (y : ℕ → Bool) : ℕ → Bool := y ∘ Equiv.swap j k

private theorem swap_lt_n {j k n i : ℕ} (hj : j < n) (hk : k < n) (hi : i < n) :
    Equiv.swap j k i < n := by
  rw [Equiv.swap_apply_def]
  split_ifs <;> assumption

theorem SWAP_spec {s : AffineState} (h : s.RepInv) {j k : ℕ} (hj : j < s.n)
    (hk : k < s.n) :
    ∃ s', s.SWAP j k = .ok s' ∧ Acts (permuteBy (swapBits j k)) s s' := by
  have har := h.aRows
  have hbs := h.bSize
  have hlt : ∀ {i}, i < s.n → Equiv.swap j k i < s.n := swap_lt_n hj hk
  obtain ⟨A', hA', hArows, hAcols, hAe⟩ : ∃ A', s.A.swapRows j k = .ok A' ∧
      A'.rows = s.A.rows ∧ A'.cols = s.A.cols ∧
      ∀ a b, A'.entry a b = s.A.entry (Equiv.swap j k a) b :=
    ⟨_, if_pos ⟨by omega, by omega⟩, rfl, rfl, fun _ _ => rfl⟩
  obtain ⟨b', hb', hbsize, hbe⟩ : ∃ b', s.b.swap j k = .ok b' ∧
      b'.size = s.b.size ∧ ∀ a, b'.entry a = s.b.entry (Equiv.swap j k a) :=
    ⟨_, if_pos ⟨by omega, by omega⟩, rfl, fun _ => rfl⟩
  let s' : AffineState := { s with
    A := A', b := b'
    pivots := replaceFirst (replaceFirst s.pivots (s.pivCol j) k)
      (s.pivCol k) j }
  have hcode : s.SWAP j k = .ok s' := by
    rw [SWAP, hA', ok_bind, hb', ok_bind, pure_eq_ok]
  have hlen : s'.pivots.length = s.r := by
    rw [length_replaceFirst, length_replaceFirst, h.pivLen]
  have hpiv : ∀ c < s.r, s'.piv c = Equiv.swap j k (s.piv c) := by
    intro c hc
    have hlc : c < s.pivots.length := h.pivLen ▸ hc
    rw [piv, getD_replaceFirst _ _ (by rwa [length_replaceFirst]),
      getD_replaceFirst _ _ hlc]
    simp only [h.pivCol_eq_some_iff hc]
    change _ = Equiv.swap j k (s.piv c)
    rw [Equiv.swap_apply_def]
    by_cases hcj : s.piv c = j
    · by_cases hck : s.piv c = k
      · simp [← hcj, ← hck]
      · simp [hcj, hcj ▸ hck]
    · by_cases hck : s.piv c = k
      · simp [hck, hck ▸ hcj]
      · simp only [hcj, hck, if_false]
        rfl
  have hgrid : s'.Grid := by
    refine
      { h with
        aRows := hArows ▸ h.aRows
        aCols := hAcols ▸ h.aCols
        bSize := hbsize ▸ h.bSize
        pivLen := hlen
        aBit := fun i hi c => ?_
        aZero := fun i hi c hc => ?_
        bBit := fun i hi => ?_ }
    · rw [hAe]
      exact h.aBit _ (hlt hi) c
    · rw [hAe]
      exact h.aZero _ (hlt hi) c hc
    · rw [hbe]
      exact h.bBit _ (hlt hi)
  refine ⟨s', hcode, { toGrid := hgrid, pivots := fun c hc => ?_ }, rfl,
    funext fun y => ?_⟩
  · have hpc := h.pivots c hc
    rw [hpiv c hc]
    refine ⟨hlt hpc.1, fun d hd => ?_⟩
    change A'.entry _ d = _
    rw [hAe, Equiv.swap_apply_self]
    exact hpc.2 d hd
  · refine @den_permute s s' rfl rfl rfl y (swapBits j k y) fun X _ => ?_
    have hrow : ∀ i, s'.rowVal X i = s.rowVal X (Equiv.swap j k i) := by
      intro i
      simp only [rowVal, s', hAe, hbe]
    constructor
    · intro hy i hi
      have hyi := hy _ (hlt hi)
      rw [hrow, Equiv.swap_apply_self] at hyi
      exact hyi
    · intro hy i hi
      have hyi := hy _ (hlt hi)
      rw [hrow, hyi, swapBits, Function.comp_apply, Equiv.swap_apply_self]

end Q2NS.AffineState
