import Q2NS.Lib.QuadForm
import Q2NS.Stab.AffineState

/-!
# Invariants and meaning of an affine state

`Grid` says that the matrices are large enough, that their entries are in range
and that nothing lives outside the active blocks.  `RepInv` adds the principal
rows.  `den s y` is the amplitude of the basis vector `y` in the vector
`2^{-r/2} e^{iπ phase/4} ∑_x i^{xᵀQx} |Ax + b⟩` that `s` stands for; only the
bits of `y` below `n` are read.

`denW s w v` is the same sum restricted to the `x` with `w · x = v` modulo two:
the weight `w` behaves as one more row of `A`, which is how a parity constraint
is carried through the column operations.
-/

namespace Q2NS.AffineState

open Finset QuadForm

/-! ## Representation invariant -/

/-- Allocated sizes. -/
structure Shape (s : AffineState) : Prop where
  aRows : s.n ≤ s.A.rows
  aCols : s.n + 1 ≤ s.A.cols
  qRows : s.n + 1 ≤ s.Q.rows
  qCols : s.n + 1 ≤ s.Q.cols
  bSize : s.n ≤ s.b.size
  pivLen : s.pivots.length = s.r
  rLe : s.r ≤ s.n + 1

/-- Entries in range, `Q` symmetric, inactive entries zero. -/
structure Grid (s : AffineState) : Prop extends Shape s where
  aBit : ∀ i < s.n, ∀ c, s.A.entry i c < 2
  aZero : ∀ i < s.n, ∀ c, s.r ≤ c → s.A.entry i c = 0
  bBit : ∀ i < s.n, s.b.entry i < 2
  qSymm : Symm s.Q.entry
  qOff : ∀ a b, a ≠ b → s.Q.entry a b < 2
  qDiag : ∀ a, s.Q.entry a a < 4
  qZero : ∀ a b, s.r ≤ a → s.Q.entry a b = 0
  phaseLt : s.phase < 8

/-- Row `p` has its only one among the active columns in column `c`. -/
def IsPivot (s : AffineState) (c p : ℕ) : Prop :=
  p < s.n ∧ ∀ d < s.r, s.A.entry p d = if d = c then 1 else 0

/-- The principal row of column `c`. -/
def piv (s : AffineState) (c : ℕ) : ℕ := s.pivots.getD c 0

/-- Every column but `c` has its principal row. -/
def PivotsExcept (s : AffineState) (c : ℕ) : Prop :=
  ∀ d < s.r, d ≠ c → s.IsPivot d (s.piv d)

/-- The representation invariant between two calls. -/
structure RepInv (s : AffineState) : Prop extends Grid s where
  pivots : ∀ c < s.r, s.IsPivot c (s.piv c)

theorem IsPivot.self {s : AffineState} {c p : ℕ} (h : s.IsPivot c p)
    (hc : c < s.r) : s.A.entry p c = 1 := by
  rw [h.2 c hc, if_pos rfl]

theorem IsPivot.other {s : AffineState} {c d p : ℕ} (h : s.IsPivot c p)
    (hd : d < s.r) (hne : d ≠ c) : s.A.entry p d = 0 := by
  rw [h.2 d hd, if_neg hne]

/-- A row is principal for at most one column. -/
theorem IsPivot.col_unique {s : AffineState} {c d p : ℕ} (h : s.IsPivot c p)
    (h' : s.IsPivot d p) (hc : c < s.r) : c = d := by
  by_contra hne
  have h1 := h.self hc
  rw [h'.other hc hne] at h1
  omega

theorem RepInv.except {s : AffineState} (h : s.RepInv) (c : ℕ) :
    s.PivotsExcept c := fun d hd _ => h.pivots d hd

theorem RepInv.piv_inj {s : AffineState} (h : s.RepInv) {c d : ℕ}
    (hc : c < s.r) (hd : d < s.r) (he : s.piv c = s.piv d) : c = d :=
  (h.pivots c hc).col_unique (he ▸ h.pivots d hd) hc

/-- The columns are independent, so there are at most `n` of them. -/
theorem RepInv.r_le {s : AffineState} (h : s.RepInv) : s.r ≤ s.n := by
  have hcard := card_le_card_of_injOn (s := range s.r) (t := range s.n) s.piv
    (fun c hc => by
      simpa using (h.pivots c (by simpa using hc)).1)
    (fun c hc d hd he => h.piv_inj (by simpa using hc) (by simpa using hd) he)
  simpa using hcard

theorem piv_eq_of_getElem? {s : AffineState} {c p : ℕ}
    (h : s.pivots[c]? = some p) : s.piv c = p := by
  simp [piv, List.getD_eq_getElem?_getD, h]

theorem Shape.getElem?_pivots {s : AffineState} (h : s.Shape) {c : ℕ}
    (hc : c < s.r) : s.pivots[c]? = some (s.piv c) := by
  have hlt : c < s.pivots.length := h.pivLen ▸ hc
  rw [piv, List.getD_eq_getElem?_getD, List.getElem?_eq_getElem hlt,
    Option.getD_some]

theorem Shape.piv_mem {s : AffineState} (h : s.Shape) {c : ℕ} (hc : c < s.r) :
    s.piv c ∈ s.pivots :=
  List.mem_of_getElem? (h.getElem?_pivots hc)

theorem Shape.exists_piv {s : AffineState} (h : s.Shape) {p : ℕ}
    (hp : p ∈ s.pivots) : ∃ c < s.r, s.piv c = p := by
  obtain ⟨c, hc, hget⟩ := List.mem_iff_getElem.mp hp
  refine ⟨c, h.pivLen ▸ hc, piv_eq_of_getElem? ?_⟩
  rw [List.getElem?_eq_getElem hc, hget]

theorem Grid.aEq {s : AffineState} (h : s.Grid) {i c : ℕ} (hi : i < s.n)
    (hne : s.A.entry i c ≠ 0) : s.A.entry i c = 1 := by
  have := h.aBit i hi c
  omega

theorem Grid.qZero' {s : AffineState} (h : s.Grid) {a b : ℕ} (hb : s.r ≤ b) :
    s.Q.entry a b = 0 := by
  rw [h.qSymm]
  exact h.qZero b a hb

/-! ## The vector of a state -/

/-- Bit `i` of `A x + b` for the `x` with support `X`. -/
def rowVal (s : AffineState) (X : Finset ℕ) (i : ℕ) : ℕ :=
  (s.b.entry i + ∑ c ∈ X, s.A.entry i c) % 2

/-- `A x + b` is the basis vector `y`. -/
def Hits (s : AffineState) (y : ℕ → Bool) (X : Finset ℕ) : Prop :=
  ∀ i < s.n, s.rowVal X i = (y i).toNat

instance (s : AffineState) (y : ℕ → Bool) (X : Finset ℕ) :
    Decidable (s.Hits y X) := by
  unfold Hits
  infer_instance

/-- The part of the amplitude of `y` with `w · x = v` modulo two. -/
noncomputable def denW (s : AffineState) (w : ℕ → ℕ) (v : ℕ)
    (y : ℕ → Bool) : ℂ :=
  invSqrt2 ^ s.r * omega8 ^ s.phase * expansion s.r s.Q.entry
    (fun X => if (∑ a ∈ X, w a) % 2 = v ∧ s.Hits y X then 1 else 0)

/-- The amplitude of the basis vector `y`. -/
noncomputable def den (s : AffineState) (y : ℕ → Bool) : ℂ :=
  invSqrt2 ^ s.r * omega8 ^ s.phase * expansion s.r s.Q.entry
    (fun X => if s.Hits y X then 1 else 0)

theorem den_eq_denW (s : AffineState) (y : ℕ → Bool) :
    s.den y = s.denW (fun _ => 0) 0 y := by
  simp [den, denW]

/-- The weight only matters modulo two on the active columns. -/
theorem denW_congr (s : AffineState) {w w' : ℕ → ℕ}
    (h : ∀ a < s.r, w a ≡ w' a [MOD 2]) (v : ℕ) (y : ℕ → Bool) :
    s.denW w v y = s.denW w' v y := by
  unfold denW
  congr 1
  refine expansion_congr fun X hX => ?_
  have hsum : (∑ a ∈ X, w a) % 2 = (∑ a ∈ X, w' a) % 2 :=
    Nat.ModEq.sum fun a ha => h a (mem_range.mp (hX ha))
  rw [hsum]

/-- The amplitude only reads the bits below `n`. -/
theorem den_congr (s : AffineState) {y y' : ℕ → Bool}
    (h : ∀ i < s.n, y i = y' i) : s.den y = s.den y' := by
  have hiff : ∀ X, s.Hits y X ↔ s.Hits y' X := by
    intro X
    refine forall₂_congr fun i hi => ?_
    rw [h i hi]
  simp only [den, hiff]

theorem rowVal_lt (s : AffineState) (X : Finset ℕ) (i : ℕ) :
    s.rowVal X i < 2 := Nat.mod_lt _ (by norm_num)

/-- States that differ only in `Q` and `phase`. -/
structure SamePlane (s s' : AffineState) : Prop where
  n : s'.n = s.n
  r : s'.r = s.r
  A : s'.A = s.A
  b : s'.b = s.b
  pivots : s'.pivots = s.pivots

/-- A diagonal gate multiplies the amplitude of `y` by `f`. -/
theorem SamePlane.den {s s' : AffineState} (h : SamePlane s s')
    {y : ℕ → Bool} {f : ℂ}
    (hX : ∀ X ⊆ range s.r, s.Hits y X →
      omega8 ^ s'.phase * Complex.I ^ quad s'.Q.entry X =
        f * (omega8 ^ s.phase * Complex.I ^ quad s.Q.entry X)) :
    s'.den y = f * s.den y := by
  have hhits : ∀ X, s'.Hits y X ↔ s.Hits y X := by
    intro X
    simp only [Hits, rowVal, h.n, h.A, h.b]
  simp only [AffineState.den, h.r, hhits, expansion, mul_sum]
  refine sum_congr rfl fun X hX' => ?_
  by_cases hy : s.Hits y X
  · have := hX X (mem_powerset.mp hX') hy
    simp only [hy, if_true]
    linear_combination invSqrt2 ^ s.r * this
  · simp [hy]

end Q2NS.AffineState
