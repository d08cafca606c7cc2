import Mathlib.Algebra.Field.ZMod
import Mathlib.LinearAlgebra.Matrix.Rank
import Q2NS.QStateStab

/-!
# The affine state over whole runs

The states that gates, merges and measurements reach from `|0…0⟩` keep the
representation invariant, and no operation on them runs into a failed assertion
or outside an allocated matrix.
-/

namespace Q2NS

open Loop Finset

namespace QStateStab

/-- The gates that the backend supports. -/
def Supports (g : QGate) (t : List ℕ) : Prop :=
  g.kind ≠ .Custom ∧ g.kind.arity = t.length

/-- The objects reached from `QStateStab(n)`. -/
inductive Reachable : Stab → Prop where
  | init (n : ℕ) : Reachable (init n)
  | apply {st st' g t} : Reachable st → Supports g t → t.Nodup →
      (∀ q ∈ t, q < st.numQubits) → apply st g t = .ok st' → Reachable st'
  | merge {st other st'} : Reachable st → Reachable other →
      mergeDisjoint st other = .ok st' → Reachable st'
  | remaining {st st' t basis draw r} : Reachable st → t < st.numQubits →
      measure st t basis draw = (.ok r, st') → Reachable st'
  | measured {st st' t basis draw r} : Reachable st → t < st.numQubits →
      measure st t basis draw = (.ok r, st') → Reachable r.measured
  | survivors {st st' t basis draw r} : Reachable st → t < st.numQubits →
      measure st t basis draw = (.ok r, st') → Reachable r.survivors

theorem Reachable.repInv {st : Stab} (h : Reachable st) : st.RepInv := by
  induction h with
  | init n => exact init_repInv n
  | apply _ hg hd hlt hok ih =>
      obtain ⟨_, _, _, hok', hrep, -⟩ := apply_ok ih hg.1 hg.2 hd hlt
      rw [hok] at hok'
      exact Except.ok.inj hok' ▸ hrep
  | merge _ _ hok ih ih' =>
      obtain ⟨_, hok', hrep, -⟩ := mergeDisjoint_ok ih ih'
      rw [hok] at hok'
      exact Except.ok.inj hok' ▸ hrep
  | remaining _ ht hok ih =>
      obtain ⟨_, _, hok', hrep, -⟩ := measure_ok ih ht _ _
      rw [hok, Prod.mk.injEq] at hok'
      exact hok'.2 ▸ hrep
  | measured _ ht hok ih =>
      obtain ⟨_, _, hok', -, -, -, hrep, -⟩ := measure_ok ih ht _ _
      rw [hok, Prod.mk.injEq] at hok'
      exact Except.ok.inj hok'.1 ▸ hrep
  | survivors _ ht hok ih =>
      obtain ⟨_, _, hok', -, -, -, -, -, -, hrep, -⟩ := measure_ok ih ht _ _
      rw [hok, Prod.mk.injEq] at hok'
      exact Except.ok.inj hok'.1 ▸ hrep

end QStateStab

namespace AffineState

/-- The active block of `A` over the field with two elements. -/
def activeBlock (s : AffineState) : Matrix (Fin s.n) (Fin s.r) (ZMod 2) :=
  Matrix.of fun i c => (s.A.entry i c : ZMod 2)

/-- The representation of an affine state is consistent. -/
structure Consistent (s : AffineState) : Prop where
  inactiveA : ∀ i < s.n, ∀ c, s.r ≤ c → s.A.entry i c = 0
  inactiveQ : ∀ a b, s.r ≤ a ∨ s.r ≤ b → s.Q.entry a b = 0
  bitA : ∀ i < s.n, ∀ c, s.A.entry i c = 0 ∨ s.A.entry i c = 1
  bitB : ∀ i < s.n, s.b.entry i = 0 ∨ s.b.entry i = 1
  pivotCount : s.pivots.length = s.r
  pivotsDistinct : s.pivots.Nodup
  pivotRow : ∀ c < s.r, s.piv c < s.n ∧
    ∀ d, s.A.entry (s.piv c) d = if d = c then 1 else 0
  rank : s.activeBlock.rank = s.r
  symmQ : ∀ a b, s.Q.entry a b = s.Q.entry b a
  offDiagonalQ : ∀ a b, a ≠ b → s.Q.entry a b = 0 ∨ s.Q.entry a b = 1
  diagonalQ : ∀ a, s.Q.entry a a ≤ 3
  phaseRange : s.phase ≤ 7

theorem RepInv.pivotRow {s : AffineState} (h : s.RepInv) {c : ℕ}
    (hc : c < s.r) (d : ℕ) :
    s.A.entry (s.piv c) d = if d = c then 1 else 0 := by
  obtain ⟨hlt, hrow⟩ := h.pivots c hc
  by_cases hd : d < s.r
  · exact hrow d hd
  · rw [h.aZero _ hlt d (not_lt.mp hd), if_neg (by omega)]

theorem RepInv.pivots_nodup {s : AffineState} (h : s.RepInv) :
    s.pivots.Nodup := by
  rw [List.nodup_iff_injective_getElem]
  intro a b hab
  have hlen := h.pivLen
  have hpiv : ∀ c : Fin s.pivots.length, s.piv c = s.pivots[c] := fun c => by
    rw [piv, List.getD_eq_getElem?_getD, List.getElem?_eq_getElem c.isLt]
    rfl
  refine Fin.ext (h.piv_inj (by omega) (by omega) ?_)
  rw [hpiv, hpiv]
  exact hab

/-- The principal rows form an identity block, so the columns are independent. -/
theorem RepInv.rank_activeBlock {s : AffineState} (h : s.RepInv) :
    s.activeBlock.rank = s.r := by
  refine le_antisymm (Matrix.rank_le_width _) ?_
  let rows : Fin s.r → Fin s.n := fun c => ⟨s.piv c, (h.pivots c c.isLt).1⟩
  have hid : s.activeBlock.submatrix rows id = 1 := by
    ext c d
    rw [Matrix.submatrix_apply, activeBlock, Matrix.of_apply, Matrix.one_apply,
      h.pivotRow c.isLt]
    simp [Fin.ext_iff, eq_comm]
  calc s.r = (s.activeBlock.submatrix rows id).rank := by
        rw [hid, Matrix.rank_one, Fintype.card_fin]
    _ ≤ s.activeBlock.rank := Matrix.rank_submatrix_le _ _ _

theorem RepInv.consistent {s : AffineState} (h : s.RepInv) : s.Consistent where
  inactiveA := h.aZero
  inactiveQ := fun a b hab => hab.elim (h.qZero a b) h.qZero'
  bitA := fun i hi c => by have := h.aBit i hi c; omega
  bitB := fun i hi => by have := h.bBit i hi; omega
  pivotCount := h.pivLen
  pivotsDistinct := h.pivots_nodup
  pivotRow := fun c hc => ⟨(h.pivots c hc).1, h.pivotRow hc⟩
  rank := h.rank_activeBlock
  symmQ := h.qSymm
  offDiagonalQ := fun a b hab => by have := h.qOff a b hab; omega
  diagonalQ := fun a => Nat.le_of_lt_succ (h.qDiag a)
  phaseRange := Nat.le_of_lt_succ h.phaseLt

end AffineState

namespace QStateStab

/-- A Bell pair and a qubit in `|+⟩` in one object, of which the second half of the
pair is measured. -/
def measuredPair (draw : Bool) : Except Exit (MeasureResult Stab) := do
  let pair ← apply (init 2) (.builtin .H) [0]
  let pair ← apply pair (.builtin .CNOT) [0, 1]
  let plus ← apply (init 1) (.builtin .H) [0]
  let st ← mergeDisjoint pair plus
  (measure st 1 .X draw).1

/-- In every reachable object the affine state is consistent; supported gates,
merges and measurements return, so no assertion fails and no access is out of
range; and the qubit that a measurement drops has a zero row and is no
principal row. -/
theorem reachable_consistent {st : Stab} (h : Reachable st) :
    st.psi.Consistent ∧ st.psi.n = st.numQubits ∧
      (∀ g t, Supports g t → t.Nodup → (∀ q ∈ t, q < st.numQubits) →
        ∃ st', apply st g t = .ok st') ∧
      (∀ other, Reachable other → ∃ st', mergeDisjoint st other = .ok st') ∧
      ∀ t basis draw, t < st.numQubits →
        (∃ r st', measure st t basis draw = (.ok r, st')) ∧
        ∃ o psi psi' dropped, collapse st t basis draw = .ok (o, psi) ∧
          swapToEnd psi t st.numQubits = .ok psi' ∧
          psi'.n = st.numQubits ∧
          (∀ d, psi'.A.entry (st.numQubits - 1) d = 0) ∧
          st.numQubits - 1 ∉ psi'.pivots ∧ psi'.dropLastQubit = .ok dropped := by
  have hrep := h.repInv
  refine ⟨hrep.psi.consistent, hrep.n, fun g t hg hd hlt => ?_,
    fun other ho => ?_, fun t basis draw ht => ⟨?_, ?_⟩⟩
  · obtain ⟨_, st', _, hok, _⟩ := apply_ok hrep hg.1 hg.2 hd hlt
    exact ⟨st', hok⟩
  · obtain ⟨st', hok, _⟩ := mergeDisjoint_ok hrep ho.repInv
    exact ⟨st', hok⟩
  · obtain ⟨r, st', hok, _⟩ := measure_ok hrep ht basis draw
    exact ⟨r, st', hok⟩
  · obtain ⟨o, psi, hcol, hpsi, hn, hsupp, _⟩ := collapse_ok hrep ht basis draw
    obtain ⟨psi', st', hswap, _, hn', hrow, hpiv, hrem, _⟩ :=
      @removeQubit_ok { st with psi := psi } ⟨hpsi, hn⟩ t ht o hsupp
    rw [removeQubit, if_neg (by simp only; omega),
      if_neg (by simp only; omega)] at hrem
    obtain ⟨_, hswap', hrem⟩ := bind_eq_ok.mp hrem
    obtain ⟨dropped, hdrop, _⟩ := bind_eq_ok.mp hrem
    rw [hswap] at hswap'
    obtain rfl := Except.ok.inj hswap'
    exact ⟨o, psi, psi', dropped, hcol, hswap, hn', hrow, hpiv, hdrop⟩

/-- The survivors have two active columns, and a further measurement runs through. -/
theorem reachable_consistent_two :
    ∃ r, measuredPair true = .ok r ∧ r.outcome = true ∧ r.survivors.psi.r = 2 ∧
      r.survivors.psi.Consistent ∧
      ∃ r' st', measure r.survivors 0 .Y true = (.ok r', st') := by
  have hpair := Reachable.init 2
  obtain ⟨stH, hH⟩ := (reachable_consistent hpair).2.2.1 (.builtin .H) [0]
    ⟨by decide, rfl⟩ (by decide) (by decide)
  have hpair := hpair.apply ⟨by decide, rfl⟩ (by decide) (by decide) hH
  obtain ⟨pair, hC⟩ := (reachable_consistent hpair).2.2.1 (.builtin .CNOT) [0, 1]
    ⟨by decide, rfl⟩ (by decide) (by cases hH; decide)
  have hpair := hpair.apply ⟨by decide, rfl⟩ (by decide) (by cases hH; decide) hC
  obtain ⟨plus, hplus⟩ := (reachable_consistent (.init 1)).2.2.1 (.builtin .H) [0]
    ⟨by decide, rfl⟩ (by decide) (by decide)
  have hone := (Reachable.init 1).apply ⟨by decide, rfl⟩ (by decide) (by decide) hplus
  obtain ⟨st, hst⟩ := (reachable_consistent hpair).2.2.2.1 plus hone
  have hmerged := hpair.merge hone hst
  have hlt : 1 < st.numQubits := by
    cases hH; cases hC; cases hplus; cases hst
    decide
  obtain ⟨r, st', hr⟩ := ((reachable_consistent hmerged).2.2.2.2 1 .X true hlt).1
  have hrun : measuredPair true = .ok r := by
    rw [measuredPair, hH, ok_bind, hC, ok_bind, hplus, ok_bind, hst, ok_bind, hr]
  have hvalues : (fun r : MeasureResult Stab =>
      (r.outcome, r.survivors.psi.r, r.survivors.numQubits)) <$> measuredPair true =
      .ok (true, 2, 2) := rfl
  rw [hrun] at hvalues
  obtain ⟨ho, hr₂, hn⟩ := by simpa using Except.ok.inj hvalues
  have h := reachable_consistent (hmerged.survivors hlt hr)
  exact ⟨r, hrun, ho, hr₂, h.1, (h.2.2.2.2 0 .Y true (hn ▸ by decide)).1⟩

end QStateStab

end Q2NS
