import Q2NS.Viz.GraphState
import Q2NS.Lib.UnionFind

/-!
# Entanglement groups in the viewer

The two replays of the events: `entangleGroupsAtTime`, with union and find and a set of
measured bits, and `reduceTo`, with the entanglement graph.
-/

namespace Q2NS.Viz

open UnionFind

/-! ## The code -/

/-- What happens to bits in an event. -/
inductive EventKind where
  | createBit (label : Label)
  | entangle (bits : List Label)
  | measure (bit : Label)
  | graphMeasure (bit : Label) (base : String) (supportNode : Option Label)

structure Event where
  t_ns : ℕ
  kind : EventKind

/-- What `reduceTo` builds: the keys of `state.bits`, and `state.entanglementGraph`. -/
structure State where
  bits : List Label := []
  graph : EntanglementGraph := fun _ => none

/-- The loops over `i` and `j` in the case `entangle`. -/
def linkPairs : List Label → EntanglementGraph → EntanglementGraph
  | [], g => g
  | qubit :: qubits, g =>
      linkPairs qubits (qubits.foldl (fun g other => addEntanglementLink g qubit other) g)

/-- The switch over the measurement basis; any other one is Z. -/
def graphMeasurement (g : EntanglementGraph) (target : Label) (measurementBasis : String)
    (supportNode : Option Label) : EntanglementGraph :=
  if measurementBasis = "Y" ∨ measurementBasis = "y" then graphYMeasurement g target
  else if measurementBasis = "X" ∨ measurementBasis = "x" then
    graphXMeasurement g target supportNode
  else graphZMeasurement g target

/-- The body of the loop of `reduceTo`. -/
def applyEvent (st : State) : EventKind → State
  | .createBit label => { st with bits := setAdd st.bits label }
  | .entangle qubits => { st with graph := linkPairs qubits st.graph }
  | .measure target => { st with graph := removeQubitFromGraph st.graph target }
  | .graphMeasure target base supportNode =>
      { st with graph := graphMeasurement st.graph target base supportNode }

/-- `reduceTo`. -/
def reduceTo (events : List Event) (t_ns : ℕ) : State :=
  events.foldl (fun st e => if e.t_ns ≤ t_ns then applyEvent st e.kind else st) {}

/-- The unions of an event. -/
def unionAll (fuel : ℕ) : List Label → UF Label → Option (UF Label)
  | [], uf => some uf
  | first :: rest, uf => rest.foldlM (fun uf b => UF.union fuel uf first b) uf

/-- The loop over the events, which ends at the first entanglement after the time. -/
def unionEvents (fuel t_ns : ℕ) : List Event → UF Label → Option (UF Label)
  | [], uf => some uf
  | e :: events, uf =>
      match e.kind with
      | .entangle bits =>
          if t_ns < e.t_ns then some uf
          else (unionAll fuel bits uf).bind (unionEvents fuel t_ns events)
      | _ => unionEvents fuel t_ns events uf

/-- The bits that `measure` events up to the time are about. -/
def measuredAt (t_ns : ℕ) (events : List Event) : List Label :=
  events.filterMap fun e =>
    match e.kind with
    | .measure bit => if e.t_ns ≤ t_ns then some bit else none
    | _ => none

/-- `Map` of groups. -/
abbrev GroupMap := Label → Option (List Label)

/-- The body of the loop over the raw groups: those of its members that have not been
measured stay together, under the root if it has not been measured either. -/
def splitGroup (measured : List Label) (groups : GroupMap) (raw : Label × List Label) :
    GroupMap :=
  let kept := raw.2.filter (· ∉ measured)
  let cut := raw.2.filter (· ∈ measured)
  let groups := match kept with
    | [] => groups
    | first :: rest =>
        Function.update groups (if raw.1 ∈ measured then first else raw.1)
          (some (first :: rest))
  cut.foldl (fun groups b => Function.update groups b (some [b])) groups

/-- `entangleGroupsAtTime`, with the bits of the state; `none` when the fuel for `find`
does not suffice. -/
def entangleGroupsAtTime (fuel : ℕ) (bits : List Label) (events : List Event) (t_ns : ℕ) :
    Option GroupMap :=
  (bits.foldlM (fun uf b => (UF.find fuel uf b).map Prod.snd) {}).bind fun uf =>
    (unionEvents fuel t_ns events uf).bind fun uf =>
      (UF.groups fuel uf).map fun raw =>
        raw.foldl (splitGroup (measuredAt t_ns events)) fun _ => none

/-! ## Groups and components -/

/-- The groups of two or more. -/
def IsGroup (groups : GroupMap) (S : Set Label) : Prop :=
  ∃ k members, groups k = some members ∧ 2 ≤ members.length ∧ S = {x | x ∈ members}

/-- The links of the entanglement graph. -/
def linkGraph (g : EntanglementGraph) : SimpleGraph Label :=
  SimpleGraph.fromRel fun u v => v ∈ neighborsOf g u

/-- The connected components of two or more. -/
def IsComponent (g : EntanglementGraph) (S : Set Label) : Prop :=
  S.Nontrivial ∧ ∃ v, S = {x | (linkGraph g).Reachable v x}

/-! ## When the two agree -/

/-- An entanglement has no bits that have been measured, or only one bit; a measured bit
leaves what else is in its component connected; a bit of a graph measurement has no
links. -/
def Meets (measured : List Label) (g : EntanglementGraph) : EventKind → Prop
  | .createBit _ => True
  | .entangle bits => (∀ b ∈ bits, b ∉ measured) ∨ ∀ b ∈ bits, ∀ c ∈ bits, b = c
  | .measure bit => ∀ x y, x ≠ bit → y ≠ bit → (linkGraph g).Reachable x y →
      ((linkGraph g).deleteIncidenceSet bit).Reachable x y
  | .graphMeasure bit _ _ => ∀ x, ¬ (linkGraph g).Adj bit x

/-- The bits that have been measured after an event. -/
def nextMeasured (measured : List Label) : EventKind → List Label
  | .measure bit => bit :: measured
  | _ => measured

/-- Every event of a run meets the condition in the state before it. -/
def AllMeet (measured : List Label) (st : State) : List EventKind → Prop
  | [] => True
  | e :: es => Meets measured st.graph e ∧
      AllMeet (nextMeasured measured e) (applyEvent st e) es

/-! ## The links of the graph -/

/-- The map has the links of a graph; a label may be linked to itself. -/
structure Linked (g : EntanglementGraph) (G : SimpleGraph Label) : Prop where
  nodup : ∀ u, (neighborsOf g u).Nodup
  adj : ∀ u v, u ≠ v → (v ∈ neighborsOf g u ↔ G.Adj u v)

section Links

variable {g : EntanglementGraph} {G H : SimpleGraph Label} {t u v x y : Label}
  {M : List Label}

theorem linked_empty : Linked (fun _ => none) ⊥ :=
  ⟨fun _ => List.nodup_nil, fun _ _ _ => ⟨fun h => absurd h List.not_mem_nil, False.elim⟩⟩

theorem Linked.linkGraph_eq (h : Linked g G) : linkGraph g = G := by
  ext u v
  rw [linkGraph, SimpleGraph.fromRel_adj]
  constructor
  · rintro ⟨hne, huv | hvu⟩
    · exact (h.adj u v hne).mp huv
    · exact ((h.adj v u hne.symm).mp hvu).symm
  · exact fun hadj => ⟨hadj.ne, .inl ((h.adj u v hadj.ne).mpr hadj)⟩

theorem Linked.addEntanglementLink (h : Linked g G) (u v : Label) :
    Linked (addEntanglementLink g u v) (G ⊔ SimpleGraph.edge u v) := by
  refine ⟨nodup_addEntanglementLink h.nodup u v, fun x y hxy => ?_⟩
  rw [mem_addEntanglementLink, h.adj x y hxy, SimpleGraph.sup_adj, SimpleGraph.edge_adj,
    and_iff_left hxy]

theorem Linked.removeQubitFromGraph (h : Linked g G) (t : Label) :
    Linked (removeQubitFromGraph g t) (G.deleteIncidenceSet t) := by
  refine ⟨fun x => (neighborsOf_removeQubitFromGraph h.nodup t x).1, fun x y hxy => ?_⟩
  rw [(neighborsOf_removeQubitFromGraph h.nodup t x).2, h.adj x y hxy,
    SimpleGraph.deleteIncidenceSet_adj]
  have hback : x ≠ t → y = t → G.Adj x y → x ∈ neighborsOf g t := fun hx hy hadj =>
    (h.adj t x (Ne.symm hx)).mpr (hy ▸ hadj.symm)
  tauto

/-- All labels of a list linked to one. -/
def starLinks (first : Label) (rest : List Label) (G : SimpleGraph Label) :
    SimpleGraph Label :=
  rest.foldl (fun G b => G ⊔ SimpleGraph.edge first b) G

/-- All labels of a list linked to each other. -/
def pairLinks : List Label → SimpleGraph Label → SimpleGraph Label
  | [], G => G
  | qubit :: qubits, G => pairLinks qubits (starLinks qubit qubits G)

theorem Linked.linkPairs (h : Linked g G) (qubits : List Label) :
    Linked (linkPairs qubits g) (pairLinks qubits G) := by
  have hstar : ∀ (qubit : Label) (others : List Label) {g : EntanglementGraph}
      {G : SimpleGraph Label}, Linked g G → Linked
        (others.foldl (fun g other => Viz.addEntanglementLink g qubit other) g)
        (starLinks qubit others G) := by
    intro qubit others
    induction others with
    | nil => exact fun h => h
    | cons other others ih => exact fun h => ih (h.addEntanglementLink qubit other)
  induction qubits generalizing g G with
  | nil => exact h
  | cons qubit qubits ih => exact ih (hstar qubit qubits h)

/-- A graph measurement of a bit without links does nothing but remove it. -/
theorem graphMeasurement_of_isolated (h : Linked g G) (hisolated : ∀ x, ¬ G.Adj t x)
    (base : String) (supportNode : Option Label) :
    graphMeasurement g t base supportNode = removeQubitFromGraph g t := by
  have honly : ∀ x ∈ neighborsOf g t, x = t := by
    intro x hx
    by_contra hne
    exact hisolated x ((h.adj t x (Ne.symm hne)).mp hx)
  have hlist : ∀ s, g t = some s → s = [] ∨ s = [t] := by
    intro s hs
    have hmem : ∀ x ∈ s, x = t := fun x hx => honly x (by rw [neighborsOf, hs]; exact hx)
    have hnodup := h.nodup t
    rw [neighborsOf, hs, Option.getD_some] at hnodup
    cases s with
    | nil => exact .inl rfl
    | cons a s =>
        obtain rfl := hmem a List.mem_cons_self
        cases s with
        | nil => exact .inr rfl
        | cons b s =>
            obtain rfl := hmem b (List.mem_cons_of_mem _ List.mem_cons_self)
            exact absurd List.mem_cons_self (List.nodup_cons.mp hnodup).1
  have hlc : localComplementation g t = g := by
    rw [localComplementation]
    cases ht : g t with
    | none => rfl
    | some s =>
        obtain rfl | rfl := hlist s ht
        · rfl
        · rfl
  have hgone : removeQubitFromGraph g t t = none := by
    cases ht : g t with
    | none => rw [removeQubitFromGraph_of_none ht, ht]
    | some s => rw [removeQubitFromGraph_of_some ht, Function.update_self]
  have hx : graphXMeasurement g t supportNode = removeQubitFromGraph g t := by
    rw [graphXMeasurement]
    cases ht : g t with
    | none => rw [removeQubitFromGraph_of_none ht]
    | some s =>
        obtain rfl | rfl := hlist s ht
        · have hsort : sortLabels [] = [] := List.mergeSort_nil
          simp only [hsort]
        · have hsort : sortLabels [t] = [t] := List.mergeSort_singleton t
          have hchoose : chooseSupport supportNode [t] t = t := by
            cases supportNode with
            | none => rfl
            | some b =>
                rw [chooseSupport]
                split_ifs with hb
                · exact List.mem_singleton.mp hb
                · rfl
          simp only [hsort, hchoose, hlc]
          rw [localComplementation, hgone]
  rw [graphMeasurement, graphYMeasurement, hlc, hx, graphZMeasurement]
  split_ifs <;> rfl

/-! ## Connections -/

theorem starLinks_mono (first : Label) (rest : List Label) (G : SimpleGraph Label) :
    G ≤ starLinks first rest G := by
  induction rest generalizing G with
  | nil => exact le_rfl
  | cons b rest ih => exact le_sup_left.trans (ih _)

theorem starLinks_reachable {first b : Label} {rest : List Label} (hb : b ∈ rest)
    (G : SimpleGraph Label) : (starLinks first rest G).Reachable first b := by
  induction rest generalizing G with
  | nil => exact absurd hb List.not_mem_nil
  | cons c rest ih =>
      rcases List.mem_cons.mp hb with rfl | hb
      · refine SimpleGraph.Reachable.mono (starLinks_mono first rest _) ?_
        exact (reachable_sup_edge ..).mpr (.inr (.inl ⟨.refl _, .refl _⟩))
      · exact ih hb _

theorem starLinks_of_reachable {first : Label} {rest : List Label}
    (hrest : ∀ b ∈ rest, G.Reachable first b) (x y : Label) :
    (starLinks first rest G).Reachable x y ↔ G.Reachable x y := by
  induction rest generalizing G with
  | nil => exact Iff.rfl
  | cons c rest ih =>
      have hc := reachable_sup_edge_of_reachable (hrest c List.mem_cons_self)
      rw [starLinks, List.foldl_cons]
      refine (ih fun b hb => ?_).trans (hc x y)
      exact (hc first b).mpr (hrest b (List.mem_cons_of_mem c hb))

/-- What all pairs connect, the links to the first one connect. -/
theorem pairLinks_reachable (first : Label) (rest : List Label) (G : SimpleGraph Label)
    (x y : Label) : (pairLinks (first :: rest) G).Reachable x y ↔
      (starLinks first rest G).Reachable x y := by
  have hconnected : ∀ (qubits : List Label) {G : SimpleGraph Label},
      (∀ b ∈ qubits, ∀ c ∈ qubits, G.Reachable b c) → ∀ x y,
        ((pairLinks qubits G).Reachable x y ↔ G.Reachable x y) := by
    intro qubits
    induction qubits with
    | nil => exact fun _ _ _ => Iff.rfl
    | cons q qubits ih =>
        intro G hall x y
        have hstar : ∀ x y, (starLinks q qubits G).Reachable x y ↔ G.Reachable x y :=
          starLinks_of_reachable
            fun b hb => hall q List.mem_cons_self b (List.mem_cons_of_mem q hb)
        refine (ih (fun b hb c hc => ?_) x y).trans (hstar x y)
        exact (hstar b c).mpr
          (hall b (List.mem_cons_of_mem q hb) c (List.mem_cons_of_mem q hc))
  exact hconnected rest (fun b hb c hc =>
    (starLinks_reachable hb G).symm.trans (starLinks_reachable hc G)) x y

/-! ## One event -/

/-- The graph of the unions after an event. -/
def withUnions (H : SimpleGraph Label) : EventKind → SimpleGraph Label
  | .entangle (first :: rest) => starLinks first rest H
  | _ => H

/-- Two bits are connected by links when they are by unions and have not been measured. -/
def Agree (M : List Label) (G H : SimpleGraph Label) : Prop :=
  ∀ x y, x ≠ y → (G.Reachable x y ↔ x ∉ M ∧ y ∉ M ∧ H.Reachable x y)

theorem Agree.reachable (h : Agree M G H) (hy : y ∉ M) :
    G.Reachable x y ↔ x ∉ M ∧ H.Reachable x y := by
  by_cases hxy : x = y
  · subst hxy
    exact ⟨fun _ => ⟨hy, .refl _⟩, fun _ => .refl _⟩
  · rw [h x y hxy, and_iff_right hy]

/-- One more edge between bits that have not been measured. -/
theorem Agree.sup_edge (h : Agree M G H) (hu : u ∉ M) (hv : v ∉ M) :
    Agree M (G ⊔ SimpleGraph.edge u v) (H ⊔ SimpleGraph.edge u v) := by
  intro x y hxy
  rw [reachable_sup_edge, reachable_sup_edge, h x y hxy, h.reachable hu, h.reachable hv,
    G.reachable_comm (u := v), G.reachable_comm (u := u), h.reachable hu, h.reachable hv,
    H.reachable_comm (u := v), H.reachable_comm (u := u)]
  tauto

theorem Agree.starLinks {first : Label} {rest : List Label} (h : Agree M G H)
    (hfirst : first ∉ M) (hrest : ∀ b ∈ rest, b ∉ M) :
    Agree M (starLinks first rest G) (starLinks first rest H) := by
  induction rest generalizing G H with
  | nil => exact h
  | cons b rest ih =>
      exact ih (h.sup_edge hfirst (hrest b List.mem_cons_self))
        fun c hc => hrest c (List.mem_cons_of_mem b hc)

/-- An event that meets the condition keeps the agreement. -/
theorem Agree.step {st : State} (h : Agree M G H) (hg : Linked st.graph G) {e : EventKind}
    (hmeets : Meets M st.graph e) : ∃ G', Linked (applyEvent st e).graph G' ∧
      Agree (nextMeasured M e) G' (withUnions H e) := by
  cases e with
  | createBit label => exact ⟨G, hg, h⟩
  | entangle bits =>
      refine ⟨_, hg.linkPairs bits, ?_⟩
      cases bits with
      | nil => exact h
      | cons first rest =>
          have hstar : Agree M (Viz.starLinks first rest G) (Viz.starLinks first rest H) := by
            obtain hnew | hone := hmeets
            · exact h.starLinks (hnew first List.mem_cons_self)
                fun b hb => hnew b (List.mem_cons_of_mem first hb)
            · -- One bit alone is linked to itself.
              have hself : ∀ (K : SimpleGraph Label) (x y : Label),
                  (Viz.starLinks first rest K).Reachable x y ↔ K.Reachable x y := by
                intro K
                refine starLinks_of_reachable fun b hb => ?_
                rw [hone b (List.mem_cons_of_mem first hb) first List.mem_cons_self]
              intro x y hxy
              rw [hself, hself]
              exact h x y hxy
          intro x y hxy
          rw [pairLinks_reachable]
          exact hstar x y hxy
  | measure bit =>
      refine ⟨_, hg.removeQubitFromGraph bit, fun x y hxy => ?_⟩
      rw [Meets, hg.linkGraph_eq] at hmeets
      have hisolated : ∀ z, z ≠ bit → ¬ (G.deleteIncidenceSet bit).Reachable bit z := by
        rintro z hz ⟨w⟩
        cases w with
        | nil => exact hz rfl
        | cons hadj _ => exact (SimpleGraph.deleteIncidenceSet_adj.mp hadj).2.1 rfl
      rw [nextMeasured, List.mem_cons, List.mem_cons, not_or, not_or]
      constructor
      · intro hreach
        have hx : x ≠ bit := by
          rintro rfl
          exact hisolated y hxy.symm hreach
        have hy : y ≠ bit := by
          rintro rfl
          exact hisolated x hxy hreach.symm
        obtain ⟨hxM, hyM, hH⟩ := (h x y hxy).mp (hreach.mono (G.deleteIncidenceSet_le bit))
        exact ⟨⟨hx, hxM⟩, ⟨hy, hyM⟩, hH⟩
      · rintro ⟨⟨hx, hxM⟩, ⟨hy, hyM⟩, hH⟩
        exact hmeets x y hx hy ((h x y hxy).mpr ⟨hxM, hyM, hH⟩)
  | graphMeasure bit base supportNode =>
      rw [Meets, hg.linkGraph_eq] at hmeets
      refine ⟨G.deleteIncidenceSet bit, ?_, ?_⟩
      · show Linked (graphMeasurement st.graph bit base supportNode) _
        rw [graphMeasurement_of_isolated hg hmeets]
        exact hg.removeQubitFromGraph bit
      · have hsame : G.deleteIncidenceSet bit = G := by
          ext x y
          rw [SimpleGraph.deleteIncidenceSet_adj]
          refine ⟨And.left, fun hadj => ⟨hadj, ?_, ?_⟩⟩
          · rintro rfl
            exact hmeets y hadj
          · rintro rfl
            exact hmeets x hadj.symm
        rw [hsame]
        exact h

/-! ## Whole runs -/

/-- A run whose events meet the condition keeps the agreement. -/
theorem Agree.run {st : State} (h : Agree M G H) (hg : Linked st.graph G)
    {es : List EventKind} (hmeet : AllMeet M st es) :
    ∃ G', Linked (es.foldl applyEvent st).graph G' ∧
      Agree (es.foldl nextMeasured M) G' (es.foldl withUnions H) := by
  induction es generalizing st G H M with
  | nil => exact ⟨G, hg, h⟩
  | cons e es ih =>
      obtain ⟨hfirst, hrest⟩ := hmeet
      obtain ⟨G', hg', h'⟩ := h.step hg hfirst
      exact ih h' hg' hrest

/-- The kinds of the events up to a time. -/
def kindsUntil (t_ns : ℕ) (events : List Event) : List EventKind :=
  (events.filter fun e => e.t_ns ≤ t_ns).map Event.kind

theorem reduceTo_eq (events : List Event) (t_ns : ℕ) :
    reduceTo events t_ns = (kindsUntil t_ns events).foldl applyEvent {} := by
  rw [kindsUntil, List.foldl_map, List.foldl_filter, reduceTo]
  simp only [decide_eq_true_eq]

theorem mem_measuredAt (t_ns : ℕ) (events : List Event) (b : Label) :
    b ∈ measuredAt t_ns events ↔ b ∈ (kindsUntil t_ns events).foldl nextMeasured [] := by
  have hfold : ∀ (es : List EventKind) (M : List Label),
      b ∈ es.foldl nextMeasured M ↔ b ∈ M ∨ .measure b ∈ es := by
    intro es
    induction es with
    | nil => exact fun M => (or_iff_left List.not_mem_nil).symm
    | cons e es ih =>
        intro M
        rw [List.foldl_cons, ih, List.mem_cons, ← or_assoc]
        refine or_congr_left ?_
        cases e with
        | measure bit =>
            rw [nextMeasured, List.mem_cons, or_comm, EventKind.measure.injEq]
        | _ => exact (or_iff_left (by simp)).symm
  rw [hfold, or_iff_right List.not_mem_nil, kindsUntil, measuredAt, List.mem_filterMap,
    List.mem_map]
  refine exists_congr fun e => ?_
  rw [List.mem_filter, decide_eq_true_eq, and_assoc]
  refine and_congr_right fun _ => ?_
  cases e.kind with
  | measure bit =>
      simp only [Option.ite_none_right_eq_some, Option.some.injEq, EventKind.measure.injEq]
  | _ => simp

end Links

/-! ## Unions -/

section Unions

variable {uf : UF Label} {H : SimpleGraph Label} {R fuel t : ℕ}

/-- How many unions an event makes, at most. -/
def unionCount : EventKind → ℕ
  | .entangle bits => bits.length
  | _ => 0

/-- How many unions events make, at most. -/
def unionsIn : List EventKind → ℕ
  | [] => 0
  | e :: es => unionCount e + unionsIn es

theorem unionAll_represents (h : Represents uf H R) (first : Label) {rest : List Label}
    (hfuel : R + rest.length < fuel) :
    ∃ uf', unionAll fuel (first :: rest) uf = some uf' ∧
      Represents uf' (starLinks first rest H) (R + rest.length) := by
  rw [unionAll]
  induction rest generalizing uf H R with
  | nil => exact ⟨uf, rfl, h⟩
  | cons b rest ih =>
      rw [List.length_cons] at hfuel ⊢
      obtain ⟨uf₁, hunion, h₁, -⟩ := h.union (show R < fuel by omega) first b
      obtain ⟨uf', hrest, h'⟩ := ih h₁ (by omega)
      refine ⟨uf', ?_, by rwa [Nat.add_right_comm, Nat.add_assoc] at h'⟩
      rw [List.foldlM_cons, hunion]
      exact hrest

/-- The unions of the events up to a time, when the events are in the order of time. -/
theorem unionEvents_represents {events : List Event}
    (hsorted : events.Pairwise fun a b => a.t_ns ≤ b.t_ns) (h : Represents uf H R)
    (hfuel : R + unionsIn (kindsUntil t events) < fuel) :
    ∃ uf' R', unionEvents fuel t events uf = some uf' ∧ R' < fuel ∧
      Represents uf' ((kindsUntil t events).foldl withUnions H) R' := by
  induction events generalizing uf H R with
  | nil => exact ⟨uf, R, rfl, by omega, h⟩
  | cons e events ih =>
      obtain ⟨hlate, hsorted⟩ := List.pairwise_cons.mp hsorted
      have hkinds : kindsUntil t (e :: events) =
          if e.t_ns ≤ t then e.kind :: kindsUntil t events else kindsUntil t events := by
        rw [kindsUntil, List.filter_cons]
        simp only [decide_eq_true_eq]
        split_ifs <;> rfl
      have hnone : t < e.t_ns → kindsUntil t events = [] := by
        intro ht
        rw [kindsUntil, List.map_eq_nil_iff, List.filter_eq_nil_iff]
        intro d hd hdt
        have hle := hlate d hd
        have hdt := of_decide_eq_true hdt
        omega
      rw [hkinds] at hfuel ⊢
      by_cases ht : e.t_ns ≤ t
      · rw [if_pos ht, unionsIn] at hfuel
        rw [if_pos ht, List.foldl_cons, unionEvents]
        cases hkind : e.kind with
        | entangle bits =>
            simp only [if_neg (Nat.not_lt.mpr ht)]
            rw [hkind, unionCount] at hfuel
            cases bits with
            | nil => exact ih hsorted h (by simpa using hfuel)
            | cons first rest =>
                rw [List.length_cons] at hfuel
                obtain ⟨uf₁, hunion, h₁⟩ := unionAll_represents h first
                  (show R + rest.length < fuel by omega)
                rw [hunion]
                exact ih hsorted h₁ (by omega)
        | createBit label => exact ih hsorted h (by omega)
        | measure bit => exact ih hsorted h (by omega)
        | graphMeasure bit base supportNode => exact ih hsorted h (by omega)
      · have ht := Nat.not_le.mp ht
        rw [if_neg (Nat.not_le.mpr ht)] at hfuel ⊢
        rw [hnone ht] at hfuel ⊢
        rw [unionEvents]
        cases hkind : e.kind with
        | entangle bits =>
            simp only [if_pos ht]
            exact ⟨uf, R, rfl, by omega, h⟩
        | _ =>
            obtain ⟨uf', R', hunion, hR', h'⟩ := ih hsorted h (by rw [hnone ht]; exact hfuel)
            rw [hnone ht] at h'
            exact ⟨uf', R', hunion, hR', h'⟩

/-- The bits of the state are there from the start. -/
theorem findBits_represents (h : Represents uf H R) (hfuel : R < fuel) (bits : List Label) :
    ∃ uf', bits.foldlM (fun uf b => (UF.find fuel uf b).map Prod.snd) uf = some uf' ∧
      Represents uf' H R := by
  induction bits generalizing uf with
  | nil => exact ⟨uf, rfl, h⟩
  | cons b bits ih =>
      obtain ⟨rep, hinv, hrep⟩ := h
      obtain ⟨uf₁, hfind, hinv₁, -⟩ :=
        hinv.find (x := b) (hfuel.trans_le (Nat.le_add_right _ _))
      obtain ⟨uf', hrest, h'⟩ := ih ⟨rep, hinv₁, hrep⟩
      refine ⟨uf', ?_, h'⟩
      rw [List.foldlM_cons, hfind]
      exact hrest

end Unions

/-! ## Split groups -/

/-- An entry that a raw group gives rise to. -/
def EntryOf (M : List Label) (raw : Label × List Label) (k : Label) (ms : List Label) :
    Prop :=
  (k ∈ raw.2 ∧ k ∈ M ∧ ms = [k]) ∨
    ms = raw.2.filter (· ∉ M) ∧ ∃ first rest, ms = first :: rest ∧
      k = if raw.1 ∈ M then first else raw.1

theorem isolate_apply (cut : List Label) (groups : GroupMap) (k : Label) :
    cut.foldl (fun groups b => Function.update groups b (some [b])) groups k =
      if k ∈ cut then some [k] else groups k := by
  induction cut generalizing groups with
  | nil => rfl
  | cons b cut ih =>
      rw [List.foldl_cons, ih, Function.update_apply]
      by_cases hk : k = b
      · subst hk
        simp
      · simp [hk]

/-- The entries of a raw group are under its members. -/
theorem EntryOf.mem {M : List Label} {raw : Label × List Label} (hroot : raw.1 ∈ raw.2)
    {k : Label} {ms : List Label} (h : EntryOf M raw k ms) : k ∈ raw.2 := by
  obtain ⟨hk, -⟩ | ⟨hms, first, rest, hcons, rfl⟩ := h
  · exact hk
  · split_ifs
    · have hfirst : first ∈ raw.2.filter (· ∉ M) := by
        rw [← hms, hcons]
        exact List.mem_cons_self
      exact (List.mem_filter.mp hfirst).1
    · exact hroot

/-- What one raw group adds to groups that have nothing under its members. -/
theorem splitGroup_apply {M : List Label} {groups : GroupMap} {raw : Label × List Label}
    (hroot : raw.1 ∈ raw.2) (hnew : ∀ x ∈ raw.2, groups x = none) (k : Label)
    (ms : List Label) : splitGroup M groups raw k = some ms ↔
      EntryOf M raw k ms ∨ groups k = some ms := by
  have hold : k ∈ raw.2 → groups k ≠ some ms := fun hk he => by
    rw [hnew k hk] at he
    exact absurd he (by simp)
  rw [splitGroup]
  simp only [isolate_apply, List.mem_filter, decide_eq_true_eq]
  by_cases hcut : k ∈ raw.2 ∧ k ∈ M
  · rw [if_pos hcut, Option.some.injEq, or_iff_left (hold hcut.1), EntryOf, eq_comm,
      and_iff_right hcut.1, and_iff_right hcut.2]
    refine (or_iff_left ?_).symm
    rintro ⟨hms, first, rest, hcons, hk⟩
    have hfirst : first ∈ raw.2.filter (· ∉ M) := by
      rw [← hms, hcons]
      exact List.mem_cons_self
    have hfirstM := of_decide_eq_true (List.mem_filter.mp hfirst).2
    split_ifs at hk with hrootM
    · exact hfirstM (hk ▸ hcut.2)
    · exact hrootM (hk ▸ hcut.2)
  · rw [if_neg hcut, EntryOf, ← and_assoc,
      or_iff_right (a := (k ∈ raw.2 ∧ k ∈ M) ∧ ms = [k]) fun h => hcut h.1]
    cases hkept : raw.2.filter (· ∉ M) with
    | nil =>
        refine (or_iff_right ?_).symm
        rintro ⟨rfl, first, rest, hcons, -⟩
        exact absurd hcons (by simp)
    | cons first rest =>
        have hentry : ms = first :: rest → EntryOf M raw
            (if raw.1 ∈ M then first else raw.1) ms := fun he =>
          .inr ⟨he.trans hkept.symm, first, rest, he, rfl⟩
        show Function.update groups _ (some (first :: rest)) k = some ms ↔ _
        rw [Function.update_apply]
        by_cases hk : k = if raw.1 ∈ M then first else raw.1
        · rw [if_pos hk, Option.some.injEq]
          constructor
          · rintro rfl
            exact .inl ⟨rfl, first, rest, rfl, hk⟩
          · rintro (⟨he, -⟩ | he)
            · exact he.symm
            · exact absurd he (hold (hk ▸ (EntryOf.mem hroot
                (.inr ⟨hkept.symm, first, rest, rfl, rfl⟩))))
        · rw [if_neg hk]
          refine (or_iff_right ?_).symm
          rintro ⟨rfl, f, r, hcons, he⟩
          obtain ⟨rfl, rfl⟩ := List.cons.inj hcons
          exact hk he

/-- The groups at the end are the entries of the raw groups, which are disjoint. -/
theorem splitGroups_apply {M : List Label} {raw : List (Label × List Label)}
    (hroot : ∀ e ∈ raw, e.1 ∈ e.2) (hdisjoint : raw.Pairwise fun a b => a.2.Disjoint b.2)
    (k : Label) (ms : List Label) :
    raw.foldl (splitGroup M) (fun _ => none) k = some ms ↔ ∃ e ∈ raw, EntryOf M e k ms := by
  have hfold : ∀ (raw : List (Label × List Label)) (groups : GroupMap),
      (∀ e ∈ raw, e.1 ∈ e.2) → (raw.Pairwise fun a b => a.2.Disjoint b.2) →
        (∀ e ∈ raw, ∀ x ∈ e.2, groups x = none) →
          (raw.foldl (splitGroup M) groups k = some ms ↔
            (∃ e ∈ raw, EntryOf M e k ms) ∨ groups k = some ms) := by
    intro raw
    induction raw with
    | nil => exact fun groups _ _ _ => by simp
    | cons e raw ih =>
        intro groups hroot hdisjoint hnew
        obtain ⟨he, hdisjoint⟩ := List.pairwise_cons.mp hdisjoint
        have hone := splitGroup_apply (hroot e List.mem_cons_self)
          (hnew e List.mem_cons_self) (M := M)
        rw [List.foldl_cons, ih _ (fun d hd => hroot d (List.mem_cons_of_mem e hd)) hdisjoint,
          hone, List.exists_mem_cons_iff, ← or_assoc, or_comm (a := ∃ d ∈ raw, _)]
        intro d hd x hx
        have hxe : x ∉ e.2 := fun hxe => he d hd hxe hx
        by_contra hsome
        obtain ⟨ms', hms'⟩ := Option.ne_none_iff_exists'.mp hsome
        rcases (hone x ms').mp hms' with hentry | hold
        · exact hxe (hentry.mem (hroot e List.mem_cons_self))
        · rw [hnew d (List.mem_cons_of_mem e hd) x hx] at hold
          exact absurd hold (by simp)
  have hall := hfold raw (fun _ => none) hroot hdisjoint fun _ _ _ _ => rfl
  rwa [or_iff_left (by simp)] at hall

theorem two_le_length_iff {ms : List Label} (hms : ms.Nodup) :
    2 ≤ ms.length ↔ {x | x ∈ ms}.Nontrivial := by
  rw [← List.toFinset_card_of_nodup hms, ← List.coe_toFinset]
  exact Finset.one_lt_card_iff_nontrivial

/-- What is left of the group of a key. -/
theorem setOf_kept {uf : UF Label} {rep : Label → Label} {R : ℕ} (h : Inv uf rep R)
    {raw : List (Label × List Label)} (hraw : Grouped rep uf.keys raw) (M : List Label)
    {e : Label × List Label} (he : e ∈ raw) {v : Label} (hv : v ∈ uf.keys)
    (hrep : rep v = e.1) :
    {x | x ∈ e.2.filter (· ∉ M)} = {x | x ∉ M ∧ rep x = rep v} := by
  ext x
  show x ∈ e.2.filter (· ∉ M) ↔ x ∉ M ∧ rep x = rep v
  rw [List.mem_filter, decide_eq_true_eq, hraw.mem_iff he, hrep]
  constructor
  · rintro ⟨⟨-, hx⟩, hxM⟩
    exact ⟨hxM, hx⟩
  · rintro ⟨hxM, hx⟩
    exact ⟨⟨h.mem_of_rep_eq hv (hx.trans hrep.symm), hx⟩, hxM⟩

/-- The groups of two or more are what is left of the trees. -/
theorem isGroup_iff {uf : UF Label} {rep : Label → Label} {R : ℕ} (h : Inv uf rep R)
    {raw : List (Label × List Label)} (hraw : Grouped rep uf.keys raw) (M : List Label)
    (S : Set Label) : IsGroup (raw.foldl (splitGroup M) fun _ => none) S ↔
      S.Nontrivial ∧ ∃ v, v ∉ M ∧ S = {x | x ∉ M ∧ rep x = rep v} := by
  have happly := splitGroups_apply (M := M) (fun _ he => hraw.root_mem h he)
    hraw.pairwise_disjoint
  have hnodup : ∀ e ∈ raw, (e.2.filter (· ∉ M)).Nodup := by
    intro e he
    rw [(hraw.members e he).1]
    exact (h.nodup.filter _).filter _
  constructor
  · rintro ⟨k, ms, hk, hlen, rfl⟩
    obtain ⟨e, he, ⟨-, -, rfl⟩ | ⟨rfl, -⟩⟩ := (happly k ms).mp hk
    · exact absurd hlen (by simp)
    · have hnontrivial := (two_le_length_iff (hnodup e he)).mp hlen
      obtain ⟨v, hv⟩ := hnontrivial.nonempty
      obtain ⟨hve, hvM⟩ := List.mem_filter.mp hv
      obtain ⟨hvkeys, hrep⟩ := (hraw.mem_iff he v).mp hve
      exact ⟨hnontrivial, v, of_decide_eq_true hvM, setOf_kept h hraw M he hvkeys hrep⟩
  · rintro ⟨hnontrivial, v, hvM, rfl⟩
    have hvkeys : v ∈ uf.keys := by
      by_contra hv
      obtain ⟨x, ⟨-, hx⟩, y, ⟨-, hy⟩, hxy⟩ := hnontrivial
      exact hxy ((h.eq_of_rep_eq hv hx).trans (h.eq_of_rep_eq hv hy).symm)
    obtain ⟨e, he, hrep⟩ := List.mem_map.mp (hraw.complete v hvkeys)
    have heq := setOf_kept h hraw M he hvkeys hrep.symm
    have hv : v ∈ e.2.filter (· ∉ M) := by
      have hv : v ∈ {x | x ∉ M ∧ rep x = rep v} := ⟨hvM, rfl⟩
      rw [← heq] at hv
      exact hv
    obtain ⟨first, rest, hcons⟩ := List.exists_cons_of_ne_nil (List.ne_nil_of_mem hv)
    refine ⟨_, e.2.filter (· ∉ M), (happly _ _).mpr ⟨e, he, .inr ⟨rfl, first, rest, hcons, rfl⟩⟩,
      ?_, heq.symm⟩
    rw [two_le_length_iff (hnodup e he), heq]
    exact hnontrivial

/-- Measuring a bit with at most one link meets the condition. -/
theorem meets_measure_leaf {M : List Label} {g : EntanglementGraph} {bit : Label}
    (hleaf : ∀ u v, (linkGraph g).Adj bit u → (linkGraph g).Adj bit v → u = v) :
    Meets M g (.measure bit) := by
  -- a walk that starts at the bit goes on from its only neighbour
  have hwalk : ∀ {x y : Label}, (linkGraph g).Walk x y → y ≠ bit →
      (x ≠ bit → ((linkGraph g).deleteIncidenceSet bit).Reachable x y) ∧
      (x = bit → ∀ u, (linkGraph g).Adj bit u →
        ((linkGraph g).deleteIncidenceSet bit).Reachable u y) := by
    intro x y w hy
    induction w with
    | nil => exact ⟨fun _ => .rfl, fun h => absurd h hy⟩
    | @cons x z y hadj _ ih =>
        obtain ⟨hother, hbit⟩ := ih hy
        constructor
        · intro hx
          by_cases hz : z = bit
          · exact hbit hz x (hz ▸ hadj.symm)
          · exact (SimpleGraph.Adj.reachable
              (SimpleGraph.deleteIncidenceSet_adj.mpr ⟨hadj, hx, hz⟩)).trans (hother hz)
        · rintro rfl u hu
          rw [hleaf u z hu hadj]
          exact hother hadj.ne'
  rintro x y hx hy ⟨w⟩
  exact (hwalk w hy).1 hx

/-! ## Both replays -/

/-- When every event up to a time meets the condition, the groups of two or more at that
time are the connected components of two or more. -/
theorem groups_eq_components {events : List Event}
    (hsorted : events.Pairwise fun a b => a.t_ns ≤ b.t_ns) (t_ns : ℕ)
    (hmeet : AllMeet [] {} (kindsUntil t_ns events)) :
    ∃ enough, ∀ fuel ≥ enough, ∃ groups,
      entangleGroupsAtTime fuel (reduceTo events t_ns).bits events t_ns = some groups ∧
      ∀ S, IsGroup groups S ↔ IsComponent (reduceTo events t_ns).graph S := by
  obtain ⟨G, hlinked, hagree⟩ := Agree.run (H := ⊥)
    (fun x y _ => ⟨fun h => ⟨List.not_mem_nil, List.not_mem_nil, h⟩, fun h => h.2.2⟩)
    linked_empty hmeet
  rw [← reduceTo_eq] at hlinked
  refine ⟨unionsIn (kindsUntil t_ns events) + 1, fun fuel hfuel => ?_⟩
  obtain ⟨uf₀, hfind, h₀⟩ := findBits_represents represents_empty (show 0 < fuel by omega)
    (reduceTo events t_ns).bits
  obtain ⟨uf, R, hunion, hR, rep, hinv, hrep⟩ := unionEvents_represents hsorted h₀
    (show 0 + unionsIn (kindsUntil t_ns events) < fuel by omega)
  obtain ⟨raw, hgroups, hraw⟩ := hinv.groups hR
  refine ⟨raw.foldl (splitGroup (measuredAt t_ns events)) fun _ => none, ?_, fun S => ?_⟩
  · rw [entangleGroupsAtTime, hfind, Option.bind_some, hunion, Option.bind_some, hgroups,
      Option.map_some]
  · rw [isGroup_iff hinv hraw, IsComponent, hlinked.linkGraph_eq]
    have hsame : ∀ v, v ∉ measuredAt t_ns events →
        {x | x ∉ measuredAt t_ns events ∧ rep x = rep v} = {x | G.Reachable v x} := by
      intro v hv
      rw [mem_measuredAt] at hv
      ext x
      show x ∉ measuredAt t_ns events ∧ rep x = rep v ↔ G.Reachable v x
      rw [mem_measuredAt, G.reachable_comm, hagree.reachable hv, hrep]
    refine and_congr_right fun hS => ⟨?_, ?_⟩
    · rintro ⟨v, hv, rfl⟩
      exact ⟨v, hsame v hv⟩
    · rintro ⟨v, rfl⟩
      obtain ⟨x, hx, hne⟩ := hS.exists_ne v
      have hv := ((hagree v x hne.symm).mp hx).1
      rw [← mem_measuredAt] at hv
      exact ⟨v, hv, (hsame v hv).symm⟩

/-! ## Small logs -/

/-- A bit that is measured at the end of a chain. -/
def endMeasured : List Event :=
  [⟨0, .createBit [97]⟩, ⟨0, .createBit [98]⟩, ⟨0, .createBit [99]⟩,
    ⟨1, .entangle [[97], [98]]⟩, ⟨2, .entangle [[98], [99]]⟩, ⟨3, .measure [99]⟩]

theorem endMeasured_groups : ∃ enough, ∀ fuel ≥ enough, ∃ groups,
    entangleGroupsAtTime fuel (reduceTo endMeasured 3).bits endMeasured 3 = some groups ∧
      ∀ S, IsGroup groups S ↔ IsComponent (reduceTo endMeasured 3).graph S := by
  refine groups_eq_components (by decide) 3 ⟨trivial, trivial, trivial,
    .inl fun b _ => List.not_mem_nil, .inl fun b _ => List.not_mem_nil,
    meets_measure_leaf ?_, trivial⟩
  have hlinked : Linked (reduceTo endMeasured 2).graph
      ((⊥ ⊔ SimpleGraph.edge [97] [98]) ⊔ SimpleGraph.edge [98] [99]) :=
    (linked_empty.linkPairs [[97], [98]]).linkPairs [[98], [99]]
  have hneighbor : ∀ u, (linkGraph (reduceTo endMeasured 2).graph).Adj [99] u →
      u = [98] := by
    rw [hlinked.linkGraph_eq]
    rintro u ((hbot | hfirst) | hsecond)
    · exact absurd hbot id
    · obtain ⟨⟨he, -⟩ | ⟨he, -⟩, -⟩ := (SimpleGraph.edge_adj ..).mp hfirst
      · exact absurd he (by decide)
      · exact absurd he (by decide)
    · obtain ⟨⟨he, -⟩ | ⟨-, he⟩, -⟩ := (SimpleGraph.edge_adj ..).mp hsecond
      · exact absurd he (by decide)
      · exact he
  exact fun u v hu hv => (hneighbor u hu).trans (hneighbor v hv).symm

/-- A bit that is measured between two others. -/
def middleMeasured : List Event :=
  [⟨0, .createBit [97]⟩, ⟨0, .createBit [98]⟩, ⟨0, .createBit [99]⟩,
    ⟨1, .entangle [[97], [98]]⟩, ⟨2, .entangle [[98], [99]]⟩, ⟨3, .measure [98]⟩]

/-- The two others stay a group, but nothing links them. -/
theorem middleMeasured_groups : ∃ groups,
    entangleGroupsAtTime 4 (reduceTo middleMeasured 3).bits middleMeasured 3 = some groups ∧
      IsGroup groups {[97], [99]} ∧
      ¬ IsComponent (reduceTo middleMeasured 3).graph {[97], [99]} := by
  have hlinked : Linked (reduceTo middleMeasured 3).graph
      (((⊥ ⊔ SimpleGraph.edge [97] [98]) ⊔ SimpleGraph.edge [98] [99]).deleteIncidenceSet
        [98]) :=
    ((linked_empty.linkPairs [[97], [98]]).linkPairs [[98], [99]]).removeQubitFromGraph [98]
  refine ⟨_, rfl, ⟨[97], [[97], [99]], by decide, le_rfl, ?_⟩, ?_⟩
  · ext x
    simp
  · rintro ⟨-, v, hv⟩
    rw [hlinked.linkGraph_eq] at hv
    have hfirst : SimpleGraph.Reachable _ v [97] :=
      hv ▸ (show [97] ∈ ({[97], [99]} : Set Label) from .inl rfl)
    have hsecond : SimpleGraph.Reachable _ v [99] :=
      hv ▸ (show [99] ∈ ({[97], [99]} : Set Label) from .inr rfl)
    obtain ⟨w⟩ := hfirst.symm.trans hsecond
    cases w with
    | cons hadj _ =>
        obtain ⟨hedge, -, hne⟩ := SimpleGraph.deleteIncidenceSet_adj.mp hadj
        rcases hedge with (hbot | hedge) | hedge
        · exact hbot
        · obtain ⟨⟨-, he⟩ | ⟨he, -⟩, -⟩ := (SimpleGraph.edge_adj ..).mp hedge
          · exact hne he
          · exact absurd he (by decide)
        · obtain ⟨⟨he, -⟩ | ⟨he, -⟩, -⟩ := (SimpleGraph.edge_adj ..).mp hedge
          · exact absurd he (by decide)
          · exact absurd he (by decide)

end Q2NS.Viz
