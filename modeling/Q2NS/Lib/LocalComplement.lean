import Mathlib.Combinatorics.SimpleGraph.DeleteEdges
import Mathlib.Order.SymmDiff
import Mathlib.Tactic.Tauto

/-!
# Local complementation

Local complementation of a simple graph at a vertex, the pivot on an edge, and how both
act on the graph without one of its vertices.
-/

namespace Q2NS.LocalComplement

variable {V : Type*}

open scoped symmDiff

/-- The complete graph on a set. -/
def clique (S : Set V) : SimpleGraph V where
  Adj x y := x ≠ y ∧ x ∈ S ∧ y ∈ S
  symm := ⟨fun _ _ h => ⟨h.1.symm, h.2.2, h.2.1⟩⟩
  loopless := ⟨fun _ h => h.1 rfl⟩

theorem symmDiff_adj (G H : SimpleGraph V) (x y : V) :
    (G ∆ H).Adj x y ↔ ¬ (G.Adj x y ↔ H.Adj x y) := by
  rw [symmDiff_def, SimpleGraph.sup_adj, SimpleGraph.sdiff_adj, SimpleGraph.sdiff_adj]
  tauto

/-- Local complementation: what is between the neighbours of a vertex is complemented. -/
def lc (G : SimpleGraph V) (v : V) : SimpleGraph V := G ∆ clique {x | G.Adj v x}

/-- The pivot on an edge. -/
def pivot (G : SimpleGraph V) (a b : V) : SimpleGraph V := lc (lc (lc G a) b) a

theorem lc_adj {G : SimpleGraph V} {v x y : V} :
    (lc G v).Adj x y ↔ ¬ (G.Adj x y ↔ x ≠ y ∧ G.Adj v x ∧ G.Adj v y) :=
  symmDiff_adj _ _ _ _

/-- The neighbours of the vertex stay what they are. -/
theorem lc_adj_self {G : SimpleGraph V} {v x : V} : (lc G v).Adj v x ↔ G.Adj v x := by
  rw [lc_adj]
  have hv := G.irrefl (v := v)
  tauto

/-- Local complementation is its own inverse. -/
theorem lc_lc (G : SimpleGraph V) (v : V) : lc (lc G v) v = G := by
  have hsame : {x | (lc G v).Adj v x} = {x | G.Adj v x} := Set.ext fun x => lc_adj_self
  rw [lc, hsame, lc, symmDiff_symmDiff_cancel_right]

/-- A vertex that is not the one at which it is done can be left out before or after. -/
theorem lc_deleteIncidenceSet (G : SimpleGraph V) {v t : V} (hne : v ≠ t) :
    (lc G v).deleteIncidenceSet t = lc (G.deleteIncidenceSet t) v := by
  ext x y
  simp only [SimpleGraph.deleteIncidenceSet_adj, lc_adj]
  tauto

/-! ## Pivots -/

theorem lc_adj_ne {G : SimpleGraph V} {v x y : V} (hxy : x ≠ y) :
    (lc G v).Adj x y ↔ ¬ (G.Adj x y ↔ G.Adj v x ∧ G.Adj v y) := by
  rw [lc_adj, and_iff_right hxy]

section Pivot

variable {G : SimpleGraph V} {a b x y : V}

/-- The ends of the edge stay adjacent. -/
theorem pivot_adj_edge (hab : G.Adj a b) : (pivot G a b).Adj a b := by
  have h₁ : (lc G a).Adj b a := (lc_adj_self.mpr hab).symm
  exact lc_adj_self.mpr (lc_adj_self.mpr h₁).symm

/-- After the first two steps the first end has the neighbours of the second. -/
theorem lc_lc_adj (hab : G.Adj a b) (hxa : x ≠ a) (hxb : x ≠ b) :
    (lc (lc G a) b).Adj a x ↔ G.Adj b x := by
  have h₁ : (lc G a).Adj b a := (lc_adj_self.mpr hab).symm
  rw [lc_adj_ne hxa.symm, lc_adj_self, lc_adj_ne hxb.symm, and_iff_right h₁,
    and_iff_right hab]
  tauto

/-- A pivot exchanges the neighbours of the two ends. -/
theorem pivot_adj_left (hab : G.Adj a b) (hxa : x ≠ a) (hxb : x ≠ b) :
    (pivot G a b).Adj a x ↔ G.Adj b x := by
  rw [pivot, lc_adj_self, lc_lc_adj hab hxa hxb]

theorem pivot_adj_right (hab : G.Adj a b) (hxa : x ≠ a) (hxb : x ≠ b) :
    (pivot G a b).Adj b x ↔ G.Adj a x := by
  have h₁ : (lc G a).Adj b a := (lc_adj_self.mpr hab).symm
  have h₂ : (lc (lc G a) b).Adj a b := (lc_adj_self.mpr h₁).symm
  rw [pivot, lc_adj_ne hxb.symm, lc_lc_adj hab hxa hxb, and_iff_right h₂, lc_adj_self,
    lc_adj_ne hxb.symm, and_iff_right hab]
  tauto

/-- What a pivot does away from its edge. -/
theorem pivot_adj (hab : G.Adj a b) (hxy : x ≠ y) (hxa : x ≠ a) (hxb : x ≠ b) (hya : y ≠ a)
    (hyb : y ≠ b) : (pivot G a b).Adj x y ↔ ¬ (G.Adj x y ↔
      ¬ (G.Adj a x ∧ G.Adj b y ↔ G.Adj b x ∧ G.Adj a y)) := by
  rw [pivot, lc_adj_ne hxy, lc_lc_adj hab hxa hxb, lc_lc_adj hab hya hyb, lc_adj_ne hxy,
    lc_adj_ne hxy, lc_adj_ne hxb.symm, lc_adj_ne hyb.symm, and_iff_right hab,
    and_iff_right hab]
  by_cases hax : G.Adj a x <;> by_cases hay : G.Adj a y <;> by_cases hbx : G.Adj b x <;>
    by_cases hby : G.Adj b y <;> simp [hax, hay, hbx, hby]

end Pivot

/-- Two graphs are equal when they are equal at two vertices and away from them. -/
theorem ext_of_two {G H : SimpleGraph V} {a b : V} (hab : G.Adj a b ↔ H.Adj a b)
    (ha : ∀ x, x ≠ a → x ≠ b → (G.Adj a x ↔ H.Adj a x))
    (hb : ∀ x, x ≠ a → x ≠ b → (G.Adj b x ↔ H.Adj b x))
    (haway : ∀ x y, x ≠ y → x ≠ a → x ≠ b → y ≠ a → y ≠ b → (G.Adj x y ↔ H.Adj x y)) :
    G = H := by
  have hrowA : ∀ x, G.Adj a x ↔ H.Adj a x := by
    intro x
    by_cases hxa : x = a
    · rw [hxa]
      exact iff_of_false G.irrefl H.irrefl
    · by_cases hxb : x = b
      · rw [hxb]
        exact hab
      · exact ha x hxa hxb
  have hrowB : ∀ x, G.Adj b x ↔ H.Adj b x := by
    intro x
    by_cases hxa : x = a
    · rw [hxa, G.adj_comm, H.adj_comm]
      exact hab
    · by_cases hxb : x = b
      · rw [hxb]
        exact iff_of_false G.irrefl H.irrefl
      · exact hb x hxa hxb
  ext x y
  by_cases hxa : x = a
  · exact hxa ▸ hrowA y
  · by_cases hxb : x = b
    · exact hxb ▸ hrowB y
    · by_cases hya : y = a
      · rw [G.adj_comm, H.adj_comm, hya]
        exact hrowA x
      · by_cases hyb : y = b
        · rw [G.adj_comm, H.adj_comm, hyb]
          exact hrowB x
        · by_cases hxy : x = y
          · rw [hxy]
            exact iff_of_false G.irrefl H.irrefl
          · exact haway x y hxy hxa hxb hya hyb

/-- It does not matter at which end of the edge a pivot starts. -/
theorem pivot_comm {G : SimpleGraph V} {a b : V} (hab : G.Adj a b) :
    pivot G a b = pivot G b a := by
  refine ext_of_two (a := a) (b := b) ?_ (fun x hxa hxb => ?_) (fun x hxa hxb => ?_)
    fun x y hxy hxa hxb hya hyb => ?_
  · exact iff_of_true (pivot_adj_edge hab) (pivot_adj_edge hab.symm).symm
  · rw [pivot_adj_left hab hxa hxb, pivot_adj_right hab.symm hxb hxa]
  · rw [pivot_adj_right hab hxa hxb, pivot_adj_left hab.symm hxb hxa]
  · rw [pivot_adj hab hxy hxa hxb hya hyb, pivot_adj hab.symm hxy hxb hxa hyb hya,
      iff_comm (a := G.Adj a x ∧ G.Adj b y)]

theorem pivot_deleteIncidenceSet (G : SimpleGraph V) {a b t : V} (hat : a ≠ t)
    (hbt : b ≠ t) :
    (pivot G a b).deleteIncidenceSet t = pivot (G.deleteIncidenceSet t) a b := by
  rw [pivot, lc_deleteIncidenceSet _ hat, lc_deleteIncidenceSet _ hbt,
    lc_deleteIncidenceSet _ hat, pivot]

/-- Pivots on two edges of a vertex differ by a pivot on their other ends. -/
theorem pivot_pivot {G : SimpleGraph V} {t b c : V} (hb : G.Adj t b) (hc : G.Adj t c)
    (hbc : b ≠ c) : (pivot (pivot G t b) b c).deleteIncidenceSet t =
      (pivot G t c).deleteIncidenceSet t := by
  have hedge : (pivot G t b).Adj b c := (pivot_adj_right hb hc.ne' hbc.symm).mpr hc
  -- The row of `c` in the first pivot.
  have hrow : ∀ x, x ≠ t → x ≠ b → x ≠ c → ((pivot G t b).Adj c x ↔
      ¬ (G.Adj c x ↔ ¬ (G.Adj b x ↔ G.Adj b c ∧ G.Adj t x))) := by
    intro x hxt hxb hxc
    rw [pivot_adj hb hxc.symm hc.ne' hbc.symm hxt hxb, and_iff_right hc]
  have hdelete : ∀ {H K : SimpleGraph V} {x y : V},
      (x ≠ t → y ≠ t → (H.Adj x y ↔ K.Adj x y)) →
        ((H.deleteIncidenceSet t).Adj x y ↔ (K.deleteIncidenceSet t).Adj x y) := by
    intro H K x y h
    rw [SimpleGraph.deleteIncidenceSet_adj, SimpleGraph.deleteIncidenceSet_adj]
    tauto
  refine ext_of_two (a := b) (b := c) (hdelete fun _ _ => ?_)
    (fun x hxb hxc => hdelete fun _ hxt => ?_) (fun x hxb hxc => hdelete fun _ hxt => ?_)
    fun x y hxy hxb hxc hyb hyc => hdelete fun hxt hyt => ?_
  · exact iff_of_true (pivot_adj_edge hedge)
      ((pivot_adj_right hc hb.ne' hbc).mpr hb).symm
  · rw [pivot_adj_left hedge hxb hxc, hrow x hxt hxb hxc,
      pivot_adj hc hxb.symm hb.ne' hbc hxt hxc, and_iff_right hb, G.adj_comm c b]
    tauto
  · rw [pivot_adj_right hedge hxb hxc, pivot_adj_right hb hxt hxb, pivot_adj_right hc hxt hxc]
  · rw [pivot_adj hedge hxy hxb hxc hyb hyc, pivot_adj hb hxy hxt hxb hyt hyb,
      pivot_adj_right hb hxt hxb, pivot_adj_right hb hyt hyb, hrow x hxt hxb hxc,
      hrow y hyt hyb hyc, pivot_adj hc hxy hxt hxc hyt hyc]
    by_cases htx : G.Adj t x <;> by_cases hty : G.Adj t y <;>
      simp only [htx, hty, true_and, and_true, false_and, and_false]
    · by_cases hbx : G.Adj b x <;> by_cases hby : G.Adj b y <;>
        by_cases hbc : G.Adj b c <;> simp only [hbx, hby, hbc] <;> grind
    · grind
    · grind
    · grind

end Q2NS.LocalComplement
