import Q2NS.Lib.LocalComplement
import Mathlib.Data.List.Sort
import Mathlib.Combinatorics.SimpleGraph.Operations

/-!
# Graph states in the viewer

`entanglementGraph` and the rules for measuring a qubit of a graph state, against local
complementation and deletion of simple graphs.
-/

namespace Q2NS.Viz

open LocalComplement
open scoped symmDiff

/-- A label, in the code units of a string. -/
abbrev Label := List UInt16

/-- Labels are equal when their code units are. -/
instance : LawfulBEq Label := inferInstance

/-- `Map` of `Set`s. -/
abbrev EntanglementGraph := Label → Option (List Label)

/-! ## The code -/

/-- `add` of a `Set`. -/
def setAdd (s : List Label) (v : Label) : List Label := if v ∈ s then s else s ++ [v]

/-- `entanglementGraph.get(u).add(v)`. -/
def addTo (g : EntanglementGraph) (u v : Label) : EntanglementGraph :=
  Function.update g u ((g u).map (setAdd · v))

/-- `entanglementGraph.get(u).delete(v)`. -/
def deleteFrom (g : EntanglementGraph) (u v : Label) : EntanglementGraph :=
  Function.update g u ((g u).map (·.erase v))

/-- A new `Set` for a label that has none. -/
def ensure (g : EntanglementGraph) (u : Label) : EntanglementGraph :=
  if (g u).isSome then g else Function.update g u (some [])

/-- `addEntanglementLink`. -/
def addEntanglementLink (g : EntanglementGraph) (qubit1 qubit2 : Label) :
    EntanglementGraph :=
  addTo (addTo (ensure (ensure g qubit1) qubit2) qubit1 qubit2) qubit2 qubit1

/-- `removeQubitFromGraph`. -/
def removeQubitFromGraph (g : EntanglementGraph) (qubit : Label) : EntanglementGraph :=
  match g qubit with
  | none => g
  | some connectedQubits => Function.update
      (connectedQubits.foldl (fun g connected => deleteFrom g connected qubit) g) qubit none

/-- The body of the loops of `localComplementation`. -/
def toggle (g : EntanglementGraph) (neighbor1 neighbor2 : Label) : EntanglementGraph :=
  if neighbor2 ∈ (g neighbor1).getD [] then
    deleteFrom (deleteFrom g neighbor1 neighbor2) neighbor2 neighbor1
  else addEntanglementLink g neighbor1 neighbor2

/-- The loops over `i` and `j`, from `i` on. -/
def togglePairs : List Label → EntanglementGraph → EntanglementGraph
  | [], g => g
  | neighbor1 :: neighbors, g =>
      togglePairs neighbors (neighbors.foldl (fun g neighbor2 => toggle g neighbor1 neighbor2) g)

/-- `localComplementation`. -/
def localComplementation (g : EntanglementGraph) (target : Label) : EntanglementGraph :=
  match g target with
  | none => g
  | some neighbors => togglePairs neighbors g

/-- `graphZMeasurement`. -/
def graphZMeasurement (g : EntanglementGraph) (target : Label) : EntanglementGraph :=
  removeQubitFromGraph g target

/-- `graphYMeasurement`. -/
def graphYMeasurement (g : EntanglementGraph) (target : Label) : EntanglementGraph :=
  removeQubitFromGraph (localComplementation g target) target

/-- `sort`, by code units. -/
def sortLabels (s : List Label) : List Label := s.mergeSort fun a b => decide (a ≤ b)

/-- The support node: the one that is asked for if it is a neighbour, else the first. -/
def chooseSupport (supportNode : Option Label) (neighbors : List Label) (first : Label) :
    Label :=
  match supportNode with
  | none => first
  | some b => if b ∈ neighbors then b else first

/-- `graphXMeasurement`. -/
def graphXMeasurement (g : EntanglementGraph) (target : Label) (supportNode : Option Label) :
    EntanglementGraph :=
  match g target with
  | none => g
  | some s =>
      match sortLabels s with
      | [] => removeQubitFromGraph g target
      | first :: rest =>
          let b := chooseSupport supportNode (first :: rest) first
          localComplementation (removeQubitFromGraph
            (localComplementation (localComplementation g b) target) target) b

/-! ## The graph that a map holds -/

/-- The neighbours of a label. -/
def neighborsOf (g : EntanglementGraph) (u : Label) : List Label := (g u).getD []

/-- The map holds a simple graph on a set of vertices. -/
structure Holds (g : EntanglementGraph) (V : Set Label) (G : SimpleGraph Label) : Prop where
  vertices : ∀ u, (g u).isSome ↔ u ∈ V
  nodup : ∀ u, (neighborsOf g u).Nodup
  adj : ∀ u v, v ∈ neighborsOf g u ↔ G.Adj u v

section Sets

variable {g : EntanglementGraph} {V : Set Label} {G : SimpleGraph Label} {u v t : Label}

theorem Holds.left_mem (h : Holds g V G) (hadj : G.Adj u v) : u ∈ V := by
  rw [← h.vertices]
  have hmem := (h.adj u v).mpr hadj
  cases hu : g u with
  | none =>
      rw [neighborsOf, hu] at hmem
      exact absurd hmem List.not_mem_nil
  | some s => rfl

theorem isSome_addTo (g : EntanglementGraph) (u v x : Label) :
    (addTo g u v x).isSome = (g x).isSome := by
  rw [addTo, Function.update_apply]
  split_ifs with hx
  · rw [Option.isSome_map, hx]
  · rfl

theorem isSome_deleteFrom (g : EntanglementGraph) (u v x : Label) :
    (deleteFrom g u v x).isSome = (g x).isSome := by
  rw [deleteFrom, Function.update_apply]
  split_ifs with hx
  · rw [Option.isSome_map, hx]
  · rfl

theorem neighborsOf_addTo (hu : (g u).isSome) (v x : Label) :
    neighborsOf (addTo g u v) x =
      if x = u then setAdd (neighborsOf g u) v else neighborsOf g x := by
  rw [neighborsOf, addTo, Function.update_apply]
  obtain ⟨s, hs⟩ := Option.isSome_iff_exists.mp hu
  split_ifs
  · rw [hs, neighborsOf, hs]
    rfl
  · rfl

theorem neighborsOf_deleteFrom (g : EntanglementGraph) (u v x : Label) :
    neighborsOf (deleteFrom g u v) x =
      if x = u then (neighborsOf g u).erase v else neighborsOf g x := by
  rw [neighborsOf, deleteFrom, Function.update_apply, neighborsOf]
  split_ifs
  · cases g u with
    | none => rfl
    | some s => rfl
  · rfl

theorem nodup_setAdd {s : List Label} (hs : s.Nodup) (v : Label) : (setAdd s v).Nodup := by
  rw [setAdd]
  split_ifs with hv
  · exact hs
  · rw [List.nodup_append]
    refine ⟨hs, List.nodup_singleton v, fun a ha b hb hab => hv ?_⟩
    rwa [← List.mem_singleton.mp hb, ← hab]

theorem mem_setAdd {s : List Label} {v x : Label} : x ∈ setAdd s v ↔ x ∈ s ∨ x = v := by
  rw [setAdd]
  split_ifs with hv
  · exact (or_iff_left_of_imp fun hx => hx ▸ hv).symm
  · rw [List.mem_append, List.mem_singleton]

/-- The edges after labels have been deleted from a set. -/
theorem mem_deleteFrom (hnodup : ∀ x, (neighborsOf g x).Nodup) {x y : Label} :
    y ∈ neighborsOf (deleteFrom g u v) x ↔ y ∈ neighborsOf g x ∧ ¬ (x = u ∧ y = v) := by
  rw [neighborsOf_deleteFrom]
  split_ifs with hx
  · rw [(hnodup u).mem_erase_iff, hx]
    tauto
  · tauto

theorem nodup_deleteFrom (hnodup : ∀ x, (neighborsOf g x).Nodup) (u v x : Label) :
    (neighborsOf (deleteFrom g u v) x).Nodup := by
  rw [neighborsOf_deleteFrom]
  split_ifs
  · exact (hnodup u).erase v
  · exact hnodup x

/-! ## Links -/

theorem isSome_ensure (g : EntanglementGraph) (u x : Label) :
    (ensure g u x).isSome ↔ x = u ∨ (g x).isSome := by
  rw [ensure]
  split_ifs with hu
  · exact (or_iff_right_of_imp fun hx => hx ▸ hu).symm
  · rw [Function.update_apply]
    split_ifs with hx
    · exact ⟨fun _ => .inl hx, fun _ => rfl⟩
    · exact (or_iff_right hx).symm

theorem neighborsOf_ensure (g : EntanglementGraph) (u x : Label) :
    neighborsOf (ensure g u) x = neighborsOf g x := by
  rw [ensure]
  split_ifs with hu
  · rfl
  · rw [neighborsOf, Function.update_apply]
    split_ifs with hx
    · rw [neighborsOf, hx, Option.not_isSome_iff_eq_none.mp hu]
      rfl
    · rfl

theorem isSome_addEntanglementLink (g : EntanglementGraph) (u v x : Label) :
    (addEntanglementLink g u v x).isSome ↔ x = v ∨ x = u ∨ (g x).isSome := by
  rw [addEntanglementLink, isSome_addTo, isSome_addTo, isSome_ensure, isSome_ensure]

/-- A link makes the two labels each other's neighbours. -/
theorem mem_addEntanglementLink {x y : Label} :
    y ∈ neighborsOf (addEntanglementLink g u v) x ↔
      y ∈ neighborsOf g x ∨ x = u ∧ y = v ∨ x = v ∧ y = u := by
  have hu : (ensure (ensure g u) v u).isSome := by
    rw [isSome_ensure, isSome_ensure]
    exact .inr (.inl rfl)
  have hv : (addTo (ensure (ensure g u) v) u v v).isSome := by
    rw [isSome_addTo, isSome_ensure]
    exact .inl rfl
  rw [addEntanglementLink, neighborsOf_addTo hv]
  split_ifs with hxv
  · subst hxv
    rw [mem_setAdd, neighborsOf_addTo hu]
    split_ifs with hxu
    · subst hxu
      rw [mem_setAdd, neighborsOf_ensure, neighborsOf_ensure]
      tauto
    · rw [neighborsOf_ensure, neighborsOf_ensure]
      tauto
  · rw [neighborsOf_addTo hu]
    split_ifs with hxu
    · subst hxu
      rw [mem_setAdd, neighborsOf_ensure, neighborsOf_ensure]
      tauto
    · rw [neighborsOf_ensure, neighborsOf_ensure]
      tauto

theorem nodup_addEntanglementLink (hnodup : ∀ x, (neighborsOf g x).Nodup) (u v x : Label) :
    (neighborsOf (addEntanglementLink g u v) x).Nodup := by
  have hadd : ∀ {g : EntanglementGraph}, (∀ x, (neighborsOf g x).Nodup) → ∀ (u v x : Label),
      (neighborsOf (addTo g u v) x).Nodup := by
    intro g hg u v x
    rw [neighborsOf, addTo, Function.update_apply]
    split_ifs
    · cases hu : g u with
      | none => exact List.nodup_nil
      | some s =>
          have hs := hg u
          rw [neighborsOf, hu] at hs
          exact nodup_setAdd hs v
    · exact hg x
  refine hadd (hadd (fun y => ?_) u v) v u x
  rw [neighborsOf_ensure, neighborsOf_ensure]
  exact hnodup y

/-- Two vertices are linked or, if they are, taken apart. -/
theorem Holds.toggle (h : Holds g V G) (hu : u ∈ V) (hv : v ∈ V) (hne : u ≠ v) :
    Holds (toggle g u v) V (G ∆ SimpleGraph.edge u v) := by
  have hedge : ∀ x y, (SimpleGraph.edge u v).Adj x y ↔ x = u ∧ y = v ∨ x = v ∧ y = u := by
    intro x y
    rw [SimpleGraph.edge_adj]
    constructor
    · exact And.left
    · rintro (⟨rfl, rfl⟩ | ⟨rfl, rfl⟩)
      · exact ⟨.inl ⟨rfl, rfl⟩, hne⟩
      · exact ⟨.inr ⟨rfl, rfl⟩, hne.symm⟩
  have hlinked : ∀ x y, x = u ∧ y = v ∨ x = v ∧ y = u → (G.Adj x y ↔ G.Adj u v) := by
    rintro x y (⟨rfl, rfl⟩ | ⟨rfl, rfl⟩)
    · exact Iff.rfl
    · exact G.adj_comm _ _
  rw [Viz.toggle]
  split_ifs with hmem
  · have hmem : G.Adj u v := (h.adj u v).mp hmem
    refine ⟨fun x => ?_, nodup_deleteFrom (nodup_deleteFrom h.nodup u v) v u,
      fun x y => ?_⟩
    · rw [isSome_deleteFrom, isSome_deleteFrom, h.vertices]
    · rw [mem_deleteFrom (nodup_deleteFrom h.nodup u v), mem_deleteFrom h.nodup, h.adj,
        symmDiff_adj, hedge]
      have hxy := hlinked x y
      tauto
  · have hmem : ¬ G.Adj u v := fun hadj => hmem ((h.adj u v).mpr hadj)
    refine ⟨fun x => ?_, nodup_addEntanglementLink h.nodup u v, fun x y => ?_⟩
    · rw [isSome_addEntanglementLink, h.vertices]
      constructor
      · rintro (rfl | rfl | hx)
        · exact hv
        · exact hu
        · exact hx
      · exact fun hx => .inr (.inr hx)
    · rw [mem_addEntanglementLink, h.adj, symmDiff_adj, hedge]
      have hxy := hlinked x y
      tauto

/-! ## Local complementation -/

/-- All links between a label and others. -/
def star (u : Label) (vs : List Label) : SimpleGraph Label where
  Adj x y := x ≠ y ∧ (x = u ∧ y ∈ vs ∨ y = u ∧ x ∈ vs)
  symm := ⟨fun _ _ h => ⟨h.1.symm, h.2.symm⟩⟩
  loopless := ⟨fun _ h => h.1 rfl⟩

theorem Holds.toggleAll (hu : u ∈ V) {vs : List Label} (hvs : ∀ v ∈ vs, v ∈ V)
    (hnodup : (u :: vs).Nodup) (h : Holds g V G) :
    Holds (vs.foldl (fun g v => Viz.toggle g u v) g) V (G ∆ star u vs) := by
  induction vs generalizing g G with
  | nil =>
      have hbot : star u [] = ⊥ := by
        ext x y
        simp [star]
      rwa [hbot, symmDiff_bot]
  | cons v vs ih =>
      obtain ⟨hu', hvs'⟩ := List.nodup_cons.mp hnodup
      obtain ⟨hv', hvs'⟩ := List.nodup_cons.mp hvs'
      obtain ⟨huv, huvs⟩ : u ≠ v ∧ u ∉ vs := by
        rwa [List.mem_cons, not_or] at hu'
      have hstep := ih (fun w hw => hvs w (List.mem_cons_of_mem v hw))
        (List.nodup_cons.mpr ⟨huvs, hvs'⟩) (h.toggle hu (hvs v List.mem_cons_self) huv)
      have hstar : SimpleGraph.edge u v ∆ star u vs = star u (v :: vs) := by
        ext x y
        rw [symmDiff_adj, SimpleGraph.edge_adj]
        simp only [star, List.mem_cons]
        grind
      rwa [symmDiff_assoc, hstar] at hstep

/-- The two loops complement what is between the labels of a list. -/
theorem Holds.togglePairs {vs : List Label} (hvs : ∀ v ∈ vs, v ∈ V) (hnodup : vs.Nodup)
    (h : Holds g V G) : Holds (Viz.togglePairs vs g) V (G ∆ clique {x | x ∈ vs}) := by
  induction vs generalizing g G with
  | nil =>
      have hbot : clique {x : Label | x ∈ ([] : List Label)} = ⊥ := by
        ext x y
        simp [clique]
      rwa [hbot, symmDiff_bot]
  | cons u vs ih =>
      have hvs' : ∀ v ∈ vs, v ∈ V := fun v hv => hvs v (List.mem_cons_of_mem u hv)
      obtain ⟨hu, hnodup'⟩ := List.nodup_cons.mp hnodup
      have hstep := ih hvs' hnodup' (h.toggleAll (hvs u List.mem_cons_self) hvs' hnodup)
      have hclique : star u vs ∆ clique {x | x ∈ vs} = clique {x | x ∈ u :: vs} := by
        ext x y
        rw [symmDiff_adj]
        simp only [star, clique, Set.mem_ofPred_eq, List.mem_cons]
        grind
      rwa [symmDiff_assoc, hclique] at hstep

/-- `localComplementation` complements what is between the neighbours of the target. -/
theorem Holds.localComplementation (h : Holds g V G) (t : Label) :
    Holds (localComplementation g t) V (lc G t) := by
  rw [Viz.localComplementation, lc]
  have hset : {x | G.Adj t x} = {x | x ∈ neighborsOf g t} :=
    Set.ext fun x => (h.adj t x).symm
  rw [hset]
  cases ht : g t with
  | none =>
      have hempty : clique {x | x ∈ neighborsOf g t} = ⊥ := by
        ext x y
        simp [clique, neighborsOf, ht]
      rwa [hempty, symmDiff_bot]
  | some vs =>
      have hvs : neighborsOf g t = vs := by
        rw [neighborsOf, ht]
        rfl
      rw [hvs]
      refine h.togglePairs (fun v hv => ?_) (hvs ▸ h.nodup t)
      exact h.left_mem ((h.adj t v).mp (hvs ▸ hv)).symm

/-! ## Deletion -/

theorem deleteAll (hnodup : ∀ x, (neighborsOf g x).Nodup) (vs : List Label) (t : Label) :
    (∀ x, (neighborsOf (vs.foldl (fun g v => deleteFrom g v t) g) x).Nodup) ∧
      ∀ x y, y ∈ neighborsOf (vs.foldl (fun g v => deleteFrom g v t) g) x ↔
        y ∈ neighborsOf g x ∧ ¬ (x ∈ vs ∧ y = t) := by
  induction vs generalizing g with
  | nil => exact ⟨hnodup, fun x y => by simp⟩
  | cons v vs ih =>
      obtain ⟨hnodup', hmem⟩ := ih (nodup_deleteFrom hnodup v t)
      refine ⟨hnodup', fun x y => ?_⟩
      rw [List.foldl_cons, hmem, mem_deleteFrom hnodup, List.mem_cons]
      tauto

theorem removeQubitFromGraph_of_none (ht : g t = none) : removeQubitFromGraph g t = g := by
  rw [removeQubitFromGraph, ht]

theorem removeQubitFromGraph_of_some {vs : List Label} (ht : g t = some vs) :
    removeQubitFromGraph g t =
      Function.update (vs.foldl (fun g v => deleteFrom g v t) g) t none := by
  rw [removeQubitFromGraph, ht]

theorem isSome_removeQubitFromGraph (g : EntanglementGraph) (t x : Label) :
    (removeQubitFromGraph g t x).isSome ↔ x ≠ t ∧ (g x).isSome := by
  have hsome : ∀ (vs : List Label) (g : EntanglementGraph),
      (vs.foldl (fun g v => deleteFrom g v t) g x).isSome = (g x).isSome := by
    intro vs
    induction vs with
    | nil => exact fun _ => rfl
    | cons v vs ih => exact fun g => (ih _).trans (isSome_deleteFrom g v t x)
  cases ht : g t with
  | none =>
      rw [removeQubitFromGraph_of_none ht]
      refine (and_iff_right_of_imp fun hx => ?_).symm
      rintro rfl
      rw [ht] at hx
      exact absurd hx (by simp)
  | some vs =>
      rw [removeQubitFromGraph_of_some ht, Function.update_apply]
      split_ifs with hx
      · simp [hx]
      · rw [hsome, and_iff_right hx]

/-- What is left of the neighbours when a qubit is removed. -/
theorem neighborsOf_removeQubitFromGraph (hnodup : ∀ x, (neighborsOf g x).Nodup)
    (t x : Label) : (neighborsOf (removeQubitFromGraph g t) x).Nodup ∧
      ∀ y, y ∈ neighborsOf (removeQubitFromGraph g t) x ↔
        y ∈ neighborsOf g x ∧ x ≠ t ∧ ¬ (x ∈ neighborsOf g t ∧ y = t) := by
  cases ht : g t with
  | none =>
      have hempty : neighborsOf g t = [] := by
        rw [neighborsOf, ht]
        rfl
      rw [removeQubitFromGraph_of_none ht]
      refine ⟨hnodup x, fun y => (and_iff_left_of_imp fun hy => ⟨?_, fun h => ?_⟩).symm⟩
      · rintro rfl
        rw [hempty] at hy
        exact absurd hy List.not_mem_nil
      · rw [hempty] at h
        exact absurd h.1 List.not_mem_nil
  | some vs =>
      have hvs : neighborsOf g t = vs := by
        rw [neighborsOf, ht]
        rfl
      obtain ⟨hnodup', hmem⟩ := deleteAll hnodup vs t
      have hneighbors : neighborsOf (removeQubitFromGraph g t) x =
          if x = t then [] else neighborsOf (vs.foldl (fun g v => deleteFrom g v t) g) x := by
        rw [removeQubitFromGraph_of_some ht, neighborsOf, Function.update_apply]
        split_ifs <;> rfl
      rw [hneighbors, hvs]
      split_ifs with hx
      · exact ⟨List.nodup_nil, fun y => by simp [hx]⟩
      · refine ⟨hnodup' x, fun y => ?_⟩
        rw [hmem, and_iff_right hx]

/-- `removeQubitFromGraph` removes the qubit and its edges, and nothing else. -/
theorem Holds.removeQubitFromGraph (h : Holds g V G) (t : Label) :
    Holds (removeQubitFromGraph g t) (V \ {t}) (G.deleteIncidenceSet t) := by
  refine ⟨fun x => ?_, fun x => (neighborsOf_removeQubitFromGraph h.nodup t x).1,
    fun x y => ?_⟩
  · rw [isSome_removeQubitFromGraph, h.vertices, Set.mem_sdiff, Set.mem_singleton_iff, and_comm]
  · rw [(neighborsOf_removeQubitFromGraph h.nodup t x).2, h.adj, h.adj,
      SimpleGraph.deleteIncidenceSet_adj]
    have hxy : y = t → G.Adj x y → G.Adj t x := fun hy hadj => hy ▸ hadj.symm
    tauto

/-! ## Measurements -/

theorem Holds.localComplementations (h : Holds g V G) (a b : Label) :
    Holds (Viz.localComplementation (Viz.localComplementation
      (Viz.localComplementation g a) b) a) V (pivot G a b) :=
  ((h.localComplementation a).localComplementation b).localComplementation a

/-- What the X rule does with a neighbour as its support. -/
theorem graphXMeasurement_of_adj (h : Holds g V G) {b : Label} (hb : G.Adj t b) :
    graphXMeasurement g t (some b) = localComplementation (removeQubitFromGraph
      (localComplementation (localComplementation g b) t) t) b := by
  have hmem := (h.adj t b).mpr hb
  rw [graphXMeasurement]
  cases ht : g t with
  | none =>
      rw [neighborsOf, ht] at hmem
      exact absurd hmem List.not_mem_nil
  | some s =>
      rw [neighborsOf, ht, Option.getD_some] at hmem
      have hsorted : b ∈ sortLabels s := (List.mergeSort_perm s _).mem_iff.mpr hmem
      cases hs : sortLabels s with
      | nil =>
          rw [hs] at hsorted
          exact absurd hsorted List.not_mem_nil
      | cons first rest =>
          rw [hs] at hsorted
          simp only [hs, chooseSupport, if_pos hsorted]

/-- The X rule deletes a qubit without neighbours, and takes one of its neighbours as
the support of any other. -/
theorem graphXMeasurement_cases (h : Holds g V G) (t : Label) (supportNode : Option Label) :
    (∀ x, ¬ G.Adj t x) ∧ graphXMeasurement g t supportNode = removeQubitFromGraph g t ∨
      ∃ b, G.Adj t b ∧ graphXMeasurement g t supportNode = graphXMeasurement g t (some b) := by
  cases ht : g t with
  | none =>
      refine .inl ⟨fun x hadj => ?_, ?_⟩
      · rw [← h.adj, neighborsOf, ht] at hadj
        exact absurd hadj List.not_mem_nil
      · rw [graphXMeasurement, removeQubitFromGraph, ht]
  | some s =>
      have hs : ∀ x, x ∈ sortLabels s ↔ G.Adj t x := by
        intro x
        rw [← h.adj, neighborsOf, ht, sortLabels, (List.mergeSort_perm s _).mem_iff]
        rfl
      cases hsort : sortLabels s with
      | nil =>
          refine .inl ⟨fun x hadj => ?_, ?_⟩
          · rw [← hs, hsort] at hadj
            exact absurd hadj List.not_mem_nil
          · simp only [graphXMeasurement, ht, hsort]
      | cons first rest =>
          have hchosen : chooseSupport supportNode (first :: rest) first ∈ first :: rest := by
            cases supportNode with
            | none => exact List.mem_cons_self
            | some b =>
                rw [chooseSupport]
                split_ifs with hb
                · exact hb
                · exact List.mem_cons_self
          have hadj := hs (chooseSupport supportNode (first :: rest) first)
          rw [hsort] at hadj
          refine .inr ⟨_, hadj.mp hchosen, ?_⟩
          rw [graphXMeasurement_of_adj h (hadj.mp hchosen)]
          simp only [graphXMeasurement, ht, hsort]

/-- The X rule is a pivot and a deletion. -/
theorem Holds.graphXMeasurement (h : Holds g V G) {b : Label} (hb : G.Adj t b) :
    Holds (graphXMeasurement g t (some b)) (V \ {t}) ((pivot G b t).deleteIncidenceSet t) := by
  rw [graphXMeasurement_of_adj h hb, pivot, lc_deleteIncidenceSet _ hb.ne']
  exact (((h.localComplementation b).localComplementation t).removeQubitFromGraph
    t).localComplementation b

/-- The support of the X rule matters up to a pivot only. -/
theorem Holds.change_support (h : Holds g V G) {b b' : Label} (hb : G.Adj t b)
    (hb' : G.Adj t b') (hne : b ≠ b') :
    ((pivot G b t).deleteIncidenceSet t).Adj b b' ∧
      Holds (Viz.localComplementation (Viz.localComplementation (Viz.localComplementation
        (Viz.graphXMeasurement g t (some b)) b) b') b) (V \ {t})
          ((pivot G b' t).deleteIncidenceSet t) := by
  refine ⟨?_, ?_⟩
  · rw [SimpleGraph.deleteIncidenceSet_adj]
    exact ⟨(pivot_adj_left hb.symm hne.symm hb'.ne').mpr hb', hb.ne', hb'.ne'⟩
  · have hpivot := (h.graphXMeasurement hb).localComplementations b b'
    rwa [← pivot_deleteIncidenceSet _ hb.ne' hb'.ne', pivot_comm hb.symm,
      pivot_pivot hb hb' hne, pivot_comm hb'] at hpivot

/-- The rules obey the laws of vertex-minors: local complementation and the measurements
leave a simple graph, local complementation is its own inverse, a measurement removes its
target and nothing else, the X rule is the pivot on the edge to its support and the
deletion of the target, and a pivot on two neighbours turns the result with one of them as
the support into the result with the other. -/
theorem vertex_minor_laws (h : Holds g V G) (t : Label) :
    Holds (localComplementation g t) V (lc G t) ∧
      Holds (localComplementation (localComplementation g t) t) V G ∧
      Holds (graphZMeasurement g t) (V \ {t}) (G.deleteIncidenceSet t) ∧
      Holds (graphYMeasurement g t) (V \ {t}) ((lc G t).deleteIncidenceSet t) ∧
      (∀ supportNode, ∃ G', Holds (graphXMeasurement g t supportNode) (V \ {t}) G') ∧
      (∀ b, G.Adj t b → ∃ G', Holds (graphXMeasurement g t (some b)) (V \ {t}) G' ∧
        Holds (removeQubitFromGraph (localComplementation (localComplementation
          (localComplementation g b) t) b) t) (V \ {t}) G') ∧
      ∀ b b', G.Adj t b → G.Adj t b' → b ≠ b' →
        b' ∈ neighborsOf (graphXMeasurement g t (some b)) b ∧
        ∃ G', Holds (graphXMeasurement g t (some b')) (V \ {t}) G' ∧
          Holds (localComplementation (localComplementation (localComplementation
            (graphXMeasurement g t (some b)) b) b') b) (V \ {t}) G' := by
  refine ⟨h.localComplementation t, ?_, h.removeQubitFromGraph t,
    (h.localComplementation t).removeQubitFromGraph t, fun supportNode => ?_, fun b hb => ?_,
    fun b b' hb hb' hne => ?_⟩
  · have htwice := (h.localComplementation t).localComplementation t
    rwa [lc_lc] at htwice
  · obtain ⟨-, heq⟩ | ⟨b, hb, heq⟩ := graphXMeasurement_cases h t supportNode
    · exact ⟨_, heq ▸ h.removeQubitFromGraph t⟩
    · exact ⟨_, heq ▸ h.graphXMeasurement hb⟩
  · exact ⟨_, h.graphXMeasurement hb, (h.localComplementations b t).removeQubitFromGraph t⟩
  · obtain ⟨hadj, hholds⟩ := h.change_support hb hb' hne
    exact ⟨((h.graphXMeasurement hb).adj b b').mpr hadj, _, h.graphXMeasurement hb', hholds⟩

/-! ## A small graph -/

theorem holds_empty : Holds (fun _ => none) ∅ ⊥ :=
  ⟨fun _ => ⟨fun h => absurd h (by simp), fun h => absurd h (Set.notMem_empty _)⟩,
    fun _ => List.nodup_nil, fun _ _ => ⟨fun h => absurd h List.not_mem_nil, False.elim⟩⟩

theorem Holds.addEntanglementLink (h : Holds g V G) (hne : u ≠ v) :
    Holds (addEntanglementLink g u v) (insert v (insert u V)) (G ⊔ SimpleGraph.edge u v) := by
  refine ⟨fun x => ?_, nodup_addEntanglementLink h.nodup u v, fun x y => ?_⟩
  · rw [isSome_addEntanglementLink, h.vertices]
    rfl
  · rw [mem_addEntanglementLink, h.adj, SimpleGraph.sup_adj, SimpleGraph.edge_adj]
    refine or_congr_right ⟨fun hxy => ⟨hxy, ?_⟩, And.left⟩
    rintro rfl
    obtain ⟨rfl, rfl⟩ | ⟨rfl, rfl⟩ := hxy
    · exact hne rfl
    · exact hne rfl

end Sets

/-- A path of three qubits whose middle one is measured. -/
theorem vertex_minor_laws_path : ∃ V G,
    Holds (addEntanglementLink (addEntanglementLink (fun _ => none) [98] [97]) [98] [99]) V G ∧
      ∃ G', Holds (graphXMeasurement (addEntanglementLink (addEntanglementLink (fun _ => none)
        [98] [97]) [98] [99]) [98] (some [97])) (V \ {[98]}) G' := by
  have h := (holds_empty.addEntanglementLink (u := [98]) (v := [97])
    (by decide)).addEntanglementLink (u := [98]) (v := [99]) (by decide)
  exact ⟨_, _, h, (vertex_minor_laws h [98]).2.2.2.2.1 (some [97])⟩

end Q2NS.Viz
