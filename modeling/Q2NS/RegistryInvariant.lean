import Q2NS.Registry.Operations

/-!
# The registry invariant over runs

What `Inv` says about the containers of a registry, in their own terms, and that
it holds in every registry reached from the empty one as long as
`CreateQubit(state)` only gets objects of one qubit that are not registered.
-/

namespace Q2NS.QStateRegistry

/-- The containers of the registry and the fields of the handles agree. -/
structure ContainersAgree (w : QStateRegistry) : Prop where
  keys : ∀ s, (w.states s).isSome ↔ (w.members s).isSome
  /-- A handle is once in the list of its own state and in no other list. -/
  home : ∀ q < w.numHandles, ∀ s l, w.members s = some l →
    l.count q = if s = (w.qubits q).stateId then 1 else 0
  homeExists : ∀ q < w.numHandles, (w.members (w.qubits q).stateId).isSome
  onlyHandles : ∀ s l, w.members s = some l → ∀ q ∈ l, q < w.numHandles
  /-- The indices of the members number the qubits of the state. -/
  indices : ∀ s p l, w.states s = some p → w.members s = some l →
    Set.BijOn (fun q => (w.qubits q).indexInState) {q | q ∈ l}
      (Set.Iio (w.objects p).value.numQubits)
  notEmpty : ∀ s p, w.states s = some p → 0 < (w.objects p).value.numQubits
  ownKey : ∀ s p, w.states s = some p →
    p < w.numObjects ∧ (w.objects p).stateId = s
  idNonzero : ∀ q < w.numHandles, (w.qubits q).qubitId ≠ 0
  idDistinct : ∀ q < w.numHandles, ∀ q' < w.numHandles,
    (w.qubits q).qubitId = (w.qubits q').qubitId → q = q'
  byId : ∀ q < w.numHandles, w.getQubitHandle (w.qubits q).qubitId = some q
  atNode : ∀ n id, id ∈ (w.qubitsAtNode n).getD ∅ ↔ w.location id = some (.node n)

theorem Inv.containersAgree {w : QStateRegistry} (h : w.Inv) :
    w.ContainersAgree where
  keys := fun s => by
    rw [← not_iff_not, Option.not_isSome_iff_eq_none,
      Option.not_isSome_iff_eq_none]
    exact h.keys s
  home := fun q hq s l hl => by
    have hmem := h.member s l hl q
    split_ifs with hs
    · exact List.count_eq_one_of_mem (h.nodup s l hl)
        (hmem.mpr ⟨hq, not_false, hs.symm⟩)
    · exact List.count_eq_zero.mpr fun hql => hs (hmem.mp hql).2.2.symm
  homeExists := fun q hq =>
    Option.isSome_iff_ne_none.mpr (h.home q hq not_false)
  onlyHandles := fun s l hl q hq => ((h.member s l hl q).mp hq).1
  indices := fun s p l hp hl => by
    have hperm := h.indices s p l hp hl
    have hinj : (l.map fun q => (w.qubits q).indexInState).Nodup :=
      hperm.nodup_iff.mpr List.nodup_range
    refine ⟨fun q hq => ?_, fun q hq q' hq' he => ?_, fun i hi => ?_⟩
    · exact List.mem_range.mp (hperm.mem_iff.mp (List.mem_map_of_mem hq))
    · exact List.inj_on_of_nodup_map hinj hq hq' he
    · obtain ⟨q, hq, rfl⟩ := List.mem_map.mp
        (hperm.mem_iff.mpr (List.mem_range.mpr hi))
      exact ⟨q, hq, rfl⟩
  notEmpty := h.populated
  ownKey := h.object
  idNonzero := fun q hq => (h.tracked q hq).id_pos.ne'
  idDistinct := fun q hq q' hq' he => h.id_inj hq hq' he
  byId := fun q hq => (h.tracked q hq).byId
  atNode := h.index.mem

theorem reachable_inv {w : QStateRegistry} (h : Reachable AdoptsFresh w) :
    w.Inv :=
  h.invariant (I := Inv) (fun _ _ _ hw hop hs => (hw.step_keeps hop hs).inv)
    inv_empty

theorem run_evolves {w w' : QStateRegistry} (hw : w.Inv)
    (h : Run AdoptsFresh w w') : w.Keeps w' :=
  h.invariant (I := w.Keeps)
    (fun _ _ _ hk hop hs => hk.trans (hk.inv.step_keeps hop hs)) hw.keeps

/-- What a later registry has to do with an earlier one: handles and their ids
stay, and a state id is never taken by a second object. -/
structure Persists (w w' : QStateRegistry) : Prop where
  handles : w.numHandles ≤ w'.numHandles
  ids : ∀ q < w.numHandles, (w'.qubits q).qubitId = (w.qubits q).qubitId
  handleOf : ∀ q < w.numHandles,
    w'.getQubitHandle (w.qubits q).qubitId = some q
  sameObject : ∀ s p, w.states s = some p →
    w'.states s = none ∨ w'.states s = some p
  neverReused : ∀ s < w.nextStateId, w.states s = none → w'.states s = none

theorem Keeps.persists {w w' : QStateRegistry} (hw : w.Inv) (h : w.Keeps w') :
    w.Persists w' where
  handles := h.evolves.handles
  ids := h.evolves.ids
  handleOf := fun q hq => by
    rw [← h.evolves.ids q hq]
    exact (h.inv.tracked q (hq.trans_le h.evolves.handles)).byId
  sameObject := fun s p hp => by
    cases hs : w'.states s with
    | none => exact .inl rfl
    | some p' =>
        have hold := h.evolves.states s (hw.key s p hp).2 p' hs
        exact .inr (hold.symm.trans hp)
  neverReused := fun s hlt hs => by
    cases hs' : w'.states s with
    | none => rfl
    | some p' =>
        have hold := h.evolves.states s hlt p' hs'
        exact absurd (hold.symm.trans hs) (Option.some_ne_none p')

/-- The registry invariant: after any run the containers agree, every id handed
out is below `nextStateId`, and any later run keeps the ids of the handles and
never uses a state id again. -/
theorem registry_invariant {w : QStateRegistry} (h : Reachable AdoptsFresh w) :
    w.ContainersAgree ∧
      (∀ s p, w.states s = some p → 0 < s ∧ s < w.nextStateId) ∧
      ∀ w', Run AdoptsFresh w w' → w.Persists w' :=
  have hw := reachable_inv h
  ⟨hw.containersAgree, hw.key, fun _ hrun => (run_evolves hw hrun).persists hw⟩

/-- A state object of the caller and a fresh qubit next to it. -/
theorem registry_invariant_two : ∃ w, Reachable AdoptsFresh w ∧
    w.numHandles = 2 ∧ w.ContainersAgree ∧
    (∀ s p, w.states s = some p → 0 < s ∧ s < w.nextStateId) ∧
    ∀ w', Run AdoptsFresh w w' → w.Persists w' := by
  let w₁ := (empty.newObject (.stab (QStateStab.init 1))).2
  have h₁ : w₁.Inv := inv_empty.newObject_inv _
  have hn : (w₁.objects 0).value.numQubits = 1 := rfl
  have hfrom := h₁.createQubitFrom_eq 0 Nat.one_pos (hn ▸ Nat.one_pos)
  have hop : w₁.AdoptsFresh (.createQubitFrom 0 0) :=
    fun _ => ⟨hn, fun s => nofun⟩
  have hs₂ : w₁.step (.createQubitFrom 0 0) = some (w₁.withQubit 0 0) := by
    rw [step, exec, hfrom]
    rfl
  have h₂ := (h₁.step_keeps hop hs₂).inv
  obtain ⟨v, -, hcreate⟩ := h₂.createQubit_eq 0
  have hs₃ : (w₁.withQubit 0 0).step (.createQubit 0) =
      some (((w₁.withQubit 0 0).newObject v).2.withQubit 0 1) := by
    rw [step, exec, hcreate]
    rfl
  have hreach : Reachable AdoptsFresh
      (((w₁.withQubit 0 0).newObject v).2.withQubit 0 1) :=
    .tail (.tail (.single ⟨.newState (.stab (QStateStab.init 1)), trivial, rfl⟩)
      ⟨_, hop, hs₂⟩) ⟨.createQubit 0, trivial, hs₃⟩
  exact ⟨_, hreach, rfl, registry_invariant hreach⟩

end Q2NS.QStateRegistry
