import Q2NS.Registry.Processor

/-!
# The registry invariant

`Inv w` says that the containers and the handles agree.  `InvExcept w L` is the
same while the handles in `L` belong to no state.  The operations of the registry
are compositions of a few moves: states are dropped, which leaves their handles
loose, and groups of loose handles are bound to a new state.  Each move is shown
to keep `InvExcept`, with the loose handles accounted for.
-/

namespace Q2NS.QStateRegistry

variable {w : QStateRegistry} {L : QubitPtr → Prop}

/-- The handle has its id, a location and an entry in `qubitById_`. -/
structure Tracked (w : QStateRegistry) (q : QubitPtr) : Prop where
  id_pos : 0 < (w.qubits q).qubitId
  id_lt : (w.qubits q).qubitId < w.nextQubitId
  located : w.location (w.qubits q).qubitId ≠ none
  byId : w.qubitById (w.qubits q).qubitId = some q

/-- `qubitsAtNode_` mirrors `location_` and has no empty set. -/
structure IndexOk (w : QStateRegistry) : Prop where
  nonempty : ∀ n ids, w.qubitsAtNode n = some ids → ids ≠ ∅
  mem : ∀ n id, id ∈ (w.qubitsAtNode n).getD ∅ ↔ w.location id = some (.node n)

/-- The registry invariant, where the handles in `L` are in no state. -/
structure InvExcept (w : QStateRegistry) (L : QubitPtr → Prop) : Prop where
  nextState : 0 < w.nextStateId
  nextQubit : 0 < w.nextQubitId
  tracked : ∀ q < w.numHandles, w.Tracked q
  freshId : ∀ id, w.nextQubitId ≤ id → w.location id = none
  index : w.IndexOk
  key : ∀ s p, w.states s = some p → 0 < s ∧ s < w.nextStateId
  object : ∀ s p, w.states s = some p →
    p < w.numObjects ∧ (w.objects p).stateId = s
  keys : ∀ s, w.states s = none ↔ w.members s = none
  member : ∀ s l, w.members s = some l → ∀ q,
    q ∈ l ↔ q < w.numHandles ∧ ¬ L q ∧ (w.qubits q).stateId = s
  nodup : ∀ s l, w.members s = some l → l.Nodup
  home : ∀ q < w.numHandles, ¬ L q → w.members (w.qubits q).stateId ≠ none
  indices : ∀ s p l, w.states s = some p → w.members s = some l →
    (l.map fun q => (w.qubits q).indexInState).Perm
      (List.range (w.objects p).value.numQubits)
  populated : ∀ s p, w.states s = some p → 0 < (w.objects p).value.numQubits

/-- The registry invariant. -/
abbrev Inv (w : QStateRegistry) : Prop := w.InvExcept fun _ => False

theorem InvExcept.congr {L' : QubitPtr → Prop} (h : w.InvExcept L)
    (hL : ∀ q < w.numHandles, L q ↔ L' q) : w.InvExcept L' :=
  { h with
    member := fun s l hl q => by
      rw [h.member s l hl]
      exact and_congr_right fun hq => and_congr_left' (not_congr (hL q hq))
    home := fun q hq hLq => h.home q hq fun hl => hLq ((hL q hq).mp hl) }

/-- A key of `states_` is its object. -/
theorem InvExcept.states_inj (h : w.InvExcept L) {s s' : StateId} {p : StatePtr}
    (hs : w.states s = some p) (hs' : w.states s' = some p) : s = s' :=
  (h.object s p hs).2.symm.trans (h.object s' p hs').2

/-- Ids tell handles apart. -/
theorem InvExcept.id_inj (h : w.InvExcept L) {q q' : QubitPtr}
    (hq : q < w.numHandles) (hq' : q' < w.numHandles)
    (he : (w.qubits q).qubitId = (w.qubits q').qubitId) : q = q' := by
  have hby := (h.tracked q hq).byId
  rw [he, (h.tracked q' hq').byId] at hby
  exact (Option.some.inj hby).symm

theorem inv_empty : empty.Inv where
  nextState := Nat.zero_lt_one
  nextQubit := Nat.zero_lt_one
  tracked := fun q hq => absurd hq (Nat.not_lt_zero q)
  freshId := fun _ _ => rfl
  index := ⟨fun n ids h => (nomatch h), fun n id => by simp [empty]⟩
  key := fun s p h => nomatch h
  object := fun s p h => nomatch h
  keys := fun s => iff_of_true rfl rfl
  member := fun s l h => nomatch h
  nodup := fun s l h => nomatch h
  home := fun q hq => absurd hq (Nat.not_lt_zero q)
  indices := fun s p l h => nomatch h
  populated := fun s p h => nomatch h

/-! ## Moves on locations -/

theorem IndexOk.of_eq {w' : QStateRegistry} (h : w.IndexOk)
    (hloc : w'.location = w.location)
    (hat : w'.qubitsAtNode = w.qubitsAtNode) : w'.IndexOk where
  nonempty := hat ▸ h.nonempty
  mem := by
    rw [hat, hloc]
    exact h.mem

theorem IndexOk.eraseAtNode (h : w.IndexOk) {id : QubitId} {m : NodeId}
    (hloc : w.location id = some (.node m)) :
    (∀ n ids, w.eraseAtNode id m n = some ids → ids ≠ ∅) ∧
      ∀ n id', id' ∈ (w.eraseAtNode id m n).getD ∅ ↔
        id' ≠ id ∧ w.location id' = some (.node n) := by
  obtain ⟨ids, hids⟩ : ∃ ids, w.qubitsAtNode m = some ids := by
    cases hm : w.qubitsAtNode m with
    | some ids => exact ⟨ids, rfl⟩
    | none =>
        have hmem := (h.mem m id).mpr hloc
        rw [hm] at hmem
        simp at hmem
  have hother : ∀ n ≠ m, ∀ id', w.location id' = some (.node n) → id' ≠ id := by
    rintro n hn id' hid' rfl
    rw [hloc] at hid'
    injection hid' with hid'
    injection hid' with hid'
    exact hn hid'.symm
  have hat : w.eraseAtNode id m = Function.update w.qubitsAtNode m
      (if ids.erase id = ∅ then none else some (ids.erase id)) := by
    rw [QStateRegistry.eraseAtNode, hids]
  have hm := h.mem m
  rw [hids] at hm
  rw [hat]
  constructor
  · intro n ids' hn
    by_cases hnm : n = m
    · subst hnm
      rw [Function.update_self] at hn
      split_ifs at hn with he
      exact Option.some.inj hn ▸ he
    · rw [Function.update_of_ne hnm] at hn
      exact h.nonempty n ids' hn
  · intro n id'
    by_cases hnm : n = m
    · subst hnm
      rw [Function.update_self, ← hm, Option.getD_some, ← Finset.mem_erase]
      split_ifs with he
      · rw [he, Option.getD_none]
      · rw [Option.getD_some]
    · rw [Function.update_of_ne hnm, h.mem]
      exact ⟨fun hl => ⟨hother n hnm id' hl, hl⟩, And.right⟩

theorem IndexOk.withdrawn (h : w.IndexOk) (id : QubitId) :
    (∀ n ids, w.withdrawn id n = some ids → ids ≠ ∅) ∧
      ∀ n id', id' ∈ (w.withdrawn id n).getD ∅ ↔
        id' ≠ id ∧ w.location id' = some (.node n) := by
  by_cases hex : ∃ n, w.location id = some (.node n)
  · obtain ⟨n, hn⟩ := hex
    have hw : w.withdrawn id = w.eraseAtNode id n := by
      rw [QStateRegistry.withdrawn, hn]
    rw [hw]
    exact h.eraseAtNode hn
  · have hw : w.withdrawn id = w.qubitsAtNode := by
      unfold QStateRegistry.withdrawn
      split
      · next n hn => exact absurd ⟨n, hn⟩ hex
      · rfl
    rw [hw]
    refine ⟨h.nonempty, fun n id' => ?_⟩
    rw [h.mem]
    refine ⟨fun hl => ⟨?_, hl⟩, And.right⟩
    rintro rfl
    exact hex ⟨n, hl⟩

theorem IndexOk.setLocationById (h : w.IndexOk) (id : QubitId) (loc : Location) :
    (w.setLocationById id loc).IndexOk := by
  obtain ⟨hne, hmem⟩ := h.withdrawn id
  have hloc : (w.setLocationById id loc).location =
      Function.update w.location id (some loc) := rfl
  -- a location other than a node only withdraws `id`
  have hstay : (∀ n, loc ≠ .node n) →
      (w.setLocationById id loc).qubitsAtNode = w.withdrawn id →
      (w.setLocationById id loc).IndexOk := by
    intro hno hat
    refine ⟨fun n ids hn => hne n ids (hat ▸ hn), fun n id' => ?_⟩
    rw [hat, hmem, hloc]
    by_cases hid : id' = id
    · subst hid
      simp [hno n]
    · simp [hid]
  cases loc with
  | channel c => exact hstay (fun n h => (nomatch h)) rfl
  | lost => exact hstay (fun n h => (nomatch h)) rfl
  | unset => exact hstay (fun n h => (nomatch h)) rfl
  | node n =>
      have hat : (w.setLocationById id (.node n)).qubitsAtNode =
          Function.update (w.withdrawn id) n
            (some (insert id ((w.withdrawn id n).getD ∅))) := rfl
      constructor
      · intro m ids hm
        rw [hat] at hm
        by_cases hmn : m = n
        · subst hmn
          rw [Function.update_self] at hm
          exact Option.some.inj hm ▸ Finset.insert_ne_empty _ _
        · rw [Function.update_of_ne hmn] at hm
          exact hne m ids hm
      · intro m id'
        rw [hat, hloc]
        by_cases hid : id' = id
        · subst hid
          rw [Function.update_self, Option.some.injEq, Location.node.injEq]
          by_cases hmn : m = n
          · subst hmn
            simp
          · rw [Function.update_of_ne hmn, hmem]
            exact iff_of_false (fun hx => hx.1 rfl) (Ne.symm hmn)
        · rw [Function.update_of_ne hid]
          by_cases hmn : m = n
          · subst hmn
            rw [Function.update_self, Option.getD_some, Finset.mem_insert, hmem]
            simp [hid]
          · rw [Function.update_of_ne hmn, hmem]
            simp [hid]

theorem IndexOk.setLocation (h : w.IndexOk) (q : QubitPtr) (loc : Location) :
    (w.setLocation q loc).IndexOk := by
  refine IndexOk.setLocationById ?_ _ _
  exact h.of_eq rfl rfl

/-- Setting the location that is already there changes nothing. -/
theorem setLocation_self (h : w.IndexOk) {q : QubitPtr} {loc : Location}
    (hby : w.qubitById (w.qubits q).qubitId = some q)
    (hloc : w.location (w.qubits q).qubitId = some loc) :
    w.setLocation q loc = w := by
  have hbyself : Function.update w.qubitById (w.qubits q).qubitId (some q) =
      w.qubitById := Function.update_eq_self_iff.mpr hby.symm
  have hlocself : Function.update w.location (w.qubits q).qubitId (some loc) =
      w.location := Function.update_eq_self_iff.mpr hloc.symm
  cases loc with
  | node n =>
      have hmem := (h.mem n (w.qubits q).qubitId).mpr hloc
      cases hn : w.qubitsAtNode n with
      | none =>
          rw [hn] at hmem
          simp at hmem
      | some ids =>
          rw [hn, Option.getD_some] at hmem
          have hins : insert (w.qubits q).qubitId
              ((if ids.erase (w.qubits q).qubitId = ∅ then none
                else some (ids.erase (w.qubits q).qubitId)).getD ∅) = ids := by
            conv_rhs => rw [← Finset.insert_erase hmem]
            split_ifs with he
            · rw [he, Option.getD_none]
            · rw [Option.getD_some]
          simp only [setLocation, QStateRegistry.setLocationById,
            QStateRegistry.withdrawn, hloc, hbyself, hlocself,
            QStateRegistry.eraseAtNode, hn, Function.update_self, hins,
            Function.update_idem]
          rw [← hn, Function.update_eq_self]
  | channel c =>
      simp only [setLocation, QStateRegistry.setLocationById,
        QStateRegistry.withdrawn, hloc, hbyself, hlocself]
  | lost =>
      simp only [setLocation, QStateRegistry.setLocationById,
        QStateRegistry.withdrawn, hloc, hbyself, hlocself]
  | unset =>
      simp only [setLocation, QStateRegistry.setLocationById,
        QStateRegistry.withdrawn, hloc, hbyself, hlocself]

end Q2NS.QStateRegistry
