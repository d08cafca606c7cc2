import Q2NS.Maps.QMap

/-!
# Composition flattens

A composite of composites samples the same numbers and runs the same stages as the
composite of all its parts in a row: an inner composite that stops at a lost qubit
leaves it lost, and then the outer one stops at the same qubit.
-/

namespace Q2NS.Maps

open QStateRegistry

variable {U : Type}

/-! ## Flattening -/

mutual

/-- The parts of a map. -/
def QMap.flatten : QMap U → List (QMap U)
  | .null => []
  | .composite maps => flattenAll maps
  | m => [m]

/-- The parts of a list of maps, nested composites opened and null entries dropped. -/
def flattenAll : List (QMap U) → List (QMap U)
  | [] => []
  | m :: maps => m.flatten ++ flattenAll maps

end

mutual

/-- The parts of a sampled map. -/
def QMapInstance.flatten : QMapInstance U → List (QMapInstance U)
  | .empty => []
  | .composite insts => flattenSteps insts
  | inst => [inst]

def flattenSteps : List (QMapInstance U) → List (QMapInstance U)
  | [] => []
  | inst :: insts => inst.flatten ++ flattenSteps insts

end

theorem flattenAll_append (a b : List (QMap U)) :
    flattenAll (a ++ b) = flattenAll a ++ flattenAll b := by
  induction a with
  | nil => rfl
  | cons m a ih => rw [List.cons_append, flattenAll, flattenAll, ih, List.append_assoc]

mutual

/-- The parts have no parts of their own. -/
theorem flattenAll_flatten : ∀ m : QMap U, flattenAll m.flatten = m.flatten
  | .null => rfl
  | .composite maps => flattenAll_idem maps
  | .dephasing .. => rfl
  | .depolarizing .. => rfl
  | .loss .. => rfl
  | .randomGate .. => rfl
  | .randomUnitary .. => rfl
  | .lambda .. => rfl
  | .conditional .. => rfl

theorem flattenAll_idem : ∀ maps : List (QMap U),
    flattenAll (flattenAll maps) = flattenAll maps
  | [] => rfl
  | m :: maps => by
      rw [flattenAll, flattenAll_append, flattenAll_flatten m, flattenAll_idem maps]

end

/-! ## Sampling -/

/-- What sampling gives for a list and then for another one. -/
noncomputable def joined (x : Except Exit (List (QMapInstance U)) × Rng)
    (f : Rng → Except Exit (List (QMapInstance U)) × Rng) :
    Except Exit (List (QMapInstance U)) × Rng :=
  match x with
  | (.error e, u) => (.error e, u)
  | (.ok as, u) =>
      match f u with
      | (.error e, u) => (.error e, u)
      | (.ok bs, u) => (.ok (as ++ bs), u)

theorem joined_assoc (x : Except Exit (List (QMapInstance U)) × Rng)
    (f g : Rng → Except Exit (List (QMapInstance U)) × Rng) :
    joined (joined x f) g = joined x fun u => joined (f u) g := by
  rcases x with ⟨e | as, u⟩
  · rfl
  · simp only [joined]
    rcases f u with ⟨e | bs, u⟩
    · rfl
    · dsimp only
      rcases g u with ⟨e | cs, u⟩
      · rfl
      · simp only [List.append_assoc]

theorem joined_nil (x : Except Exit (List (QMapInstance U)) × Rng) :
    joined x (fun u => (.ok [], u)) = x := by
  rcases x with ⟨e | as, u⟩
  · rfl
  · simp only [joined, List.append_nil]

/-- A sampled list, flattened. -/
noncomputable def sampled (ctx : QMapContext) (maps : List (QMap U)) (u : Rng) :
    Except Exit (List (QMapInstance U)) × Rng :=
  ((sampleAll ctx maps u).1.map flattenSteps, (sampleAll ctx maps u).2)

/-- A sampled map, flattened. -/
noncomputable def sampledOne (ctx : QMapContext) (m : QMap U) (u : Rng) :
    Except Exit (List (QMapInstance U)) × Rng :=
  ((m.sample ctx u).1.map QMapInstance.flatten, (m.sample ctx u).2)

theorem sampled_cons (ctx : QMapContext) (m : QMap U) (maps : List (QMap U)) (u : Rng) :
    sampled ctx (m :: maps) u = joined (sampledOne ctx m u) (sampled ctx maps) := by
  rw [sampled, sampleAll, sampledOne]
  rcases m.sample ctx u with ⟨e | inst, u⟩
  · rfl
  · simp only [Except.map, joined, sampled]
    rcases sampleAll ctx maps u with ⟨e | insts, u⟩
    · rfl
    · simp only [flattenSteps]

theorem sampled_append (ctx : QMapContext) (a b : List (QMap U)) (u : Rng) :
    sampled ctx (a ++ b) u = joined (sampled ctx a u) (sampled ctx b) := by
  induction a generalizing u with
  | nil =>
      rw [List.nil_append]
      simp only [sampled, sampleAll, Except.map, joined, flattenSteps]
      rcases sampleAll ctx b u with ⟨_ | _, _⟩ <;> rfl
  | cons m a ih =>
      rw [List.cons_append, sampled_cons, sampled_cons, joined_assoc]
      congr 1
      funext u
      exact ih u

theorem sampled_singleton (ctx : QMapContext) (m : QMap U) (u : Rng) :
    sampled ctx [m] u = sampledOne ctx m u := by
  rw [sampled_cons]
  exact joined_nil _

theorem sampledOne_composite (ctx : QMapContext) (maps : List (QMap U)) (u : Rng) :
    sampledOne ctx (.composite maps) u = sampled ctx maps u := by
  rw [sampledOne, QMap.sample, sampled]
  rcases sampleAll ctx maps u with ⟨e | insts, u⟩
  · rfl
  · simp only [Except.map, QMapInstance.flatten]

mutual

/-- Sampling the parts of a map in a row is sampling the map. -/
theorem sampled_flatten (ctx : QMapContext) : ∀ (m : QMap U) (u : Rng),
    sampled ctx m.flatten u = sampledOne ctx m u
  | .null, _ => by
      simp only [QMap.flatten, sampled, sampleAll, sampledOne, QMap.sample, Except.map,
        flattenSteps, QMapInstance.flatten]
  | .composite maps, u => by
      rw [QMap.flatten, sampledOne_composite]
      exact sampled_flattenAll ctx maps u
  | .dephasing .., u => sampled_singleton ctx _ u
  | .depolarizing .., u => sampled_singleton ctx _ u
  | .loss .., u => sampled_singleton ctx _ u
  | .randomGate .., u => sampled_singleton ctx _ u
  | .randomUnitary .., u => sampled_singleton ctx _ u
  | .lambda .., u => sampled_singleton ctx _ u
  | .conditional .., u => sampled_singleton ctx _ u

theorem sampled_flattenAll (ctx : QMapContext) : ∀ (maps : List (QMap U)) (u : Rng),
    sampled ctx (flattenAll maps) u = sampled ctx maps u
  | [], _ => rfl
  | m :: maps, u => by
      rw [flattenAll, sampled_append, sampled_cons, sampled_flatten ctx m u]
      congr 1
      funext u
      exact sampled_flattenAll ctx maps u

end

/-! ## Runs -/

/-- The loop after stages that have run: it reads the location and goes on. -/
noncomputable def goOn (node : NodeId) (insts : List (QMapInstance U))
    (x : Except Fault (Option QubitPtr) × State U) :
    Except Fault (Option QubitPtr) × State U :=
  match x with
  | (.error e, s) => (.error e, s)
  | (.ok none, s) => (.error .nullAccess, s)
  | (.ok (some q), s) =>
      if s.getLocation q = .lost then (.ok (some q), s)
      else runSteps node insts (some q) s

theorem runSteps_cons (node : NodeId) (inst : QMapInstance U)
    (insts : List (QMapInstance U)) (q : Option QubitPtr) (s : State U) :
    runSteps node (inst :: insts) q s = goOn node insts (inst.run node q s) := by
  rw [runSteps]
  rfl

/-- Stages in two parts, for a qubit that is not lost before them. -/
theorem runSteps_append (node : NodeId) (a b : List (QMapInstance U)) {q : QubitPtr}
    {s : State U} (hq : s.getLocation q ≠ .lost) :
    runSteps node (a ++ b) (some q) s = goOn node b (runSteps node a (some q) s) := by
  induction a generalizing q s with
  | nil => rw [List.nil_append, runSteps, goOn, if_neg hq]
  | cons i a ih =>
      rw [List.cons_append, runSteps_cons, runSteps_cons]
      rcases i.run node (some q) s with ⟨e | _ | q', s'⟩
      · rfl
      · rfl
      · simp only [goOn]
        by_cases hlost : s'.getLocation q' = .lost
        · rw [if_pos hlost, if_pos hlost]
          simp only [if_pos hlost]
        · rw [if_neg hlost, if_neg hlost]
          exact ih hlost

mutual

/-- Running a sampled map between other stages is running its parts. -/
theorem goOn_flatten (node : NodeId) (rest : List (QMapInstance U)) :
    ∀ (inst : QMapInstance U) {q : QubitPtr} {s : State U}, s.getLocation q ≠ .lost →
      goOn node rest (inst.run node (some q) s) =
        runSteps node (inst.flatten ++ rest) (some q) s
  | .empty, q, s, hq => by
      rw [QMapInstance.run, QMapInstance.flatten, List.nil_append, goOn, if_neg hq]
  | .composite insts, q, s, hq => by
      rw [QMapInstance.run, QMapInstance.flatten, runSteps_flatten node insts hq,
        runSteps_append node _ rest hq]
  | .gate .., _, _, _ => (runSteps_cons ..).symm
  | .lose .., _, _, _ => (runSteps_cons ..).symm
  | .call .., _, _, _ => (runSteps_cons ..).symm
  | .conditional .., _, _, _ => (runSteps_cons ..).symm

/-- Stages run as their parts do, for a qubit that is not lost before them. -/
theorem runSteps_flatten (node : NodeId) :
    ∀ (insts : List (QMapInstance U)) {q : QubitPtr} {s : State U},
      s.getLocation q ≠ .lost → runSteps node insts (some q) s =
        runSteps node (flattenSteps insts) (some q) s
  | [], q, s, _ => rfl
  | inst :: insts, q, s, hq => by
      rw [runSteps_cons, flattenSteps, ← goOn_flatten node (flattenSteps insts) inst hq]
      rcases inst.run node (some q) s with ⟨e | _ | q', s'⟩
      · rfl
      · rfl
      · simp only [goOn]
        by_cases hlost : s'.getLocation q' = .lost
        · rw [if_pos hlost, if_pos hlost]
        · rw [if_neg hlost, if_neg hlost]
          exact runSteps_flatten node insts hlost

end

/-! ## Maps that cannot be told apart -/

/-- The maps draw the same numbers, and what they sample runs alike on every qubit that
is not lost: the same stages with the same effects and the same end. -/
structure QMap.Same (m m' : QMap U) : Prop where
  draws : ∀ ctx u, (m.sample ctx u).2 = (m'.sample ctx u).2
  aborts : ∀ ctx u e, (m.sample ctx u).1 = .error e ↔ (m'.sample ctx u).1 = .error e
  runs : ∀ ctx u inst inst', (m.sample ctx u).1 = .ok inst →
    (m'.sample ctx u).1 = .ok inst' → ∀ node q s, s.getLocation q ≠ .lost →
      inst.run node (some q) s = inst'.run node (some q) s

theorem sample_compose (ctx : QMapContext) (maps : List (QMap U)) (u : Rng) :
    (compose maps).sample ctx u =
      ((sampleAll ctx maps u).1.map .composite, (sampleAll ctx maps u).2) := by
  rw [compose, QMap.sample]
  rcases sampleAll ctx maps u with ⟨e | insts, u⟩ <;> rfl

theorem map_eq_error {α β : Type} {x : Except Exit α} (f : α → β) {e : Exit} :
    x.map f = .error e ↔ x = .error e := by
  cases x <;> simp [Except.map]

/-- Composites with the same parts. -/
theorem compose_same_of_flatten {a b : List (QMap U)} (h : flattenAll a = flattenAll b) :
    (compose a).Same (compose b) := by
  have hsampled : ∀ ctx u, sampled ctx a u = sampled ctx b u := by
    intro ctx u
    rw [← sampled_flattenAll ctx a, h, sampled_flattenAll]
  have hparts : ∀ ctx u, (sampleAll ctx a u).1.map flattenSteps =
      (sampleAll ctx b u).1.map flattenSteps :=
    fun ctx u => congrArg Prod.fst (hsampled ctx u)
  refine ⟨fun ctx u => ?_, fun ctx u e => ?_, fun ctx u inst inst' hi hi' => ?_⟩
  · rw [sample_compose, sample_compose]
    exact (congrArg Prod.snd (hsampled ctx u) :)
  · rw [sample_compose, sample_compose, map_eq_error, map_eq_error,
      ← map_eq_error flattenSteps, hparts, map_eq_error]
  · have hab := hparts ctx u
    rw [sample_compose] at hi hi'
    cases ha : (sampleAll ctx a u).1 with
    | error e =>
        rw [ha] at hi
        cases hi
    | ok insts =>
        cases hb : (sampleAll ctx b u).1 with
        | error e =>
            rw [hb] at hi'
            cases hi'
        | ok insts' =>
            rw [ha] at hi hab
            rw [hb] at hi' hab
            obtain rfl := Except.ok.inj hi
            obtain rfl := Except.ok.inj hi'
            intro node q s hq
            rw [QMapInstance.run, QMapInstance.run, runSteps_flatten node insts hq,
              Except.ok.inj hab, ← runSteps_flatten node insts' hq]

/-- Composition is associative, a nested composite can be opened, and null entries make
no difference. -/
theorem compose_flattens :
    (∀ a b c : QMap U,
      (composeTwo (composeTwo a b) c).Same (compose [a, b, c]) ∧
      (composeTwo a (composeTwo b c)).Same (compose [a, b, c]) ∧
      (composeTwo (composeTwo a b) c).Same (composeTwo a (composeTwo b c))) ∧
    (∀ before maps after : List (QMap U),
      (compose (before ++ compose maps :: after)).Same
        (compose (before ++ maps ++ after))) ∧
    (∀ before after : List (QMap U),
      (compose (before ++ .null :: after)).Same (compose (before ++ after))) ∧
    ∀ maps : List (QMap U), (compose maps).Same (compose (flattenAll maps)) := by
  have hflat : ∀ before maps after : List (QMap U),
      flattenAll (before ++ compose maps :: after) =
        flattenAll (before ++ maps ++ after) := by
    intro before maps after
    rw [List.append_assoc, flattenAll_append, flattenAll_append, flattenAll_append,
      flattenAll, compose, QMap.flatten]
  refine ⟨fun a b c => ⟨?_, ?_, ?_⟩, fun before maps after => ?_, fun before after => ?_,
    fun maps => ?_⟩
  · exact compose_same_of_flatten (hflat [] [a, b] [c])
  · exact compose_same_of_flatten (hflat [a] [b, c] [])
  · exact compose_same_of_flatten ((hflat [] [a, b] [c]).trans (hflat [a] [b, c] []).symm)
  · exact compose_same_of_flatten (hflat before maps after)
  · apply compose_same_of_flatten
    rw [flattenAll_append, flattenAll_append, flattenAll, QMap.flatten, List.nil_append]
  · exact compose_same_of_flatten (flattenAll_idem maps).symm

end Q2NS.Maps
