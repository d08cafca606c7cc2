import Q2NS.Registry.Invariant

/-!
# Moves

The few changes that the operations of the registry are made of, and that each
of them keeps the invariant.
-/

namespace Q2NS.QStateRegistry

variable {w : QStateRegistry} {L : QubitPtr → Prop}

/-- The states `sids` and their member lists are removed. -/
def dropStates (w : QStateRegistry) (sids : List StateId) : QStateRegistry :=
  { w with
    states := fun s => if s ∈ sids then none else w.states s
    members := fun s => if s ∈ sids then none else w.members s }

/-- The handles once `qs` are bound to the indices `k, k + 1, …` of `sid`. -/
def bound (w : QStateRegistry) (sid : StateId) (k : ℕ) (qs : List QubitPtr) :
    QubitPtr → Qubit := fun q =>
  if q ∈ qs then
    { w.qubits q with stateId := sid, indexInState := k + qs.idxOf q }
  else w.qubits q

/-- The object `p` is registered under a new id, with the members `qs` in the
order of its qubits. -/
def addGroup (w : QStateRegistry) (p : StatePtr) (qs : List QubitPtr) :
    QStateRegistry :=
  { w with
    qubits := w.bound w.nextStateId 0 qs
    objects := Function.update w.objects p
      { w.objects p with stateId := w.nextStateId }
    nextStateId := w.nextStateId + 1
    states := Function.update w.states w.nextStateId (some p)
    members := Function.update w.members w.nextStateId (some qs) }

/-- A new handle at a node, in no state yet. -/
def addHandle (w : QStateRegistry) (n : NodeId) : QStateRegistry :=
  { w with
    qubits := Function.update w.qubits w.numHandles ⟨w.nextQubitId, 0, 0⟩
    numHandles := w.numHandles + 1
    nextQubitId := w.nextQubitId + 1 }.setLocation w.numHandles (.node n)

theorem bound_qubitId (sid : StateId) (k : ℕ) (qs : List QubitPtr)
    (q : QubitPtr) : (w.bound sid k qs q).qubitId = (w.qubits q).qubitId := by
  unfold bound
  split_ifs <;> rfl

theorem bound_of_mem {sid : StateId} {k : ℕ} {qs : List QubitPtr} {q : QubitPtr}
    (hq : q ∈ qs) : w.bound sid k qs q =
      { w.qubits q with stateId := sid, indexInState := k + qs.idxOf q } :=
  if_pos hq

theorem bound_of_not_mem {sid : StateId} {k : ℕ} {qs : List QubitPtr}
    {q : QubitPtr} (hq : q ∉ qs) : w.bound sid k qs q = w.qubits q :=
  if_neg hq

/-! ## Preservation -/

theorem of_dropStates_states {sids : List StateId} {s : StateId} {p : StatePtr}
    (hs : (w.dropStates sids).states s = some p) :
    s ∉ sids ∧ w.states s = some p := by
  unfold dropStates at hs
  dsimp only at hs
  split_ifs at hs with hmem
  exact ⟨hmem, hs⟩

theorem of_dropStates_members {sids : List StateId} {s : StateId}
    {l : List QubitPtr} (hs : (w.dropStates sids).members s = some l) :
    s ∉ sids ∧ w.members s = some l := by
  unfold dropStates at hs
  dsimp only at hs
  split_ifs at hs with hmem
  exact ⟨hmem, hs⟩

theorem InvExcept.dropStates (h : w.InvExcept L) (sids : List StateId) :
    (w.dropStates sids).InvExcept
      fun q => L q ∨ (w.qubits q).stateId ∈ sids := by
  refine
    { nextState := h.nextState
      nextQubit := h.nextQubit
      tracked := fun q hq => ⟨(h.tracked q hq).1, (h.tracked q hq).2,
        (h.tracked q hq).3, (h.tracked q hq).4⟩
      freshId := h.freshId
      index := ⟨h.index.1, h.index.2⟩
      key := fun s p hs => h.key s p (of_dropStates_states hs).2
      object := fun s p hs => h.object s p (of_dropStates_states hs).2
      keys := fun s => ?_
      member := fun s l hl q => ?_
      nodup := fun s l hl => h.nodup s l (of_dropStates_members hl).2
      home := fun q hq hL => ?_
      indices := fun s p l hs hl => h.indices s p l
        (of_dropStates_states hs).2 (of_dropStates_members hl).2
      populated := fun s p hs => h.populated s p (of_dropStates_states hs).2 }
  · have hk := h.keys s
    unfold QStateRegistry.dropStates
    dsimp only
    split_ifs
    · exact iff_of_true rfl rfl
    · exact hk
  · obtain ⟨hs, hl⟩ := of_dropStates_members hl
    rw [h.member s l hl]
    refine and_congr_right fun _ => ?_
    constructor
    · rintro ⟨hLq, hst⟩
      exact ⟨fun hor => hor.elim hLq fun hin => hs (hst ▸ hin), hst⟩
    · rintro ⟨hor, hst⟩
      exact ⟨fun hLq => hor (.inl hLq), hst⟩
  · obtain ⟨hLq, hs⟩ := not_or.mp hL
    have hhome := h.home q hq hLq
    unfold QStateRegistry.dropStates
    dsimp only
    rw [if_neg hs]
    exact hhome

theorem InvExcept.newObject (h : w.InvExcept L) (value : QState) :
    (w.newObject value).2.InvExcept L := by
  have hobject : ∀ p < w.numObjects,
      (w.newObject value).2.objects p = w.objects p := fun p hp =>
    Function.update_of_ne hp.ne _ _
  refine
    { nextState := h.nextState
      nextQubit := h.nextQubit
      tracked := fun q hq => ⟨(h.tracked q hq).1, (h.tracked q hq).2,
        (h.tracked q hq).3, (h.tracked q hq).4⟩
      freshId := h.freshId
      index := ⟨h.index.1, h.index.2⟩
      key := h.key
      object := fun s p hs => ?_
      keys := h.keys
      member := h.member
      nodup := h.nodup
      home := h.home
      indices := fun s p l hs hl => ?_
      populated := fun s p hs => ?_ }
  · obtain ⟨hp, hid⟩ := h.object s p hs
    exact ⟨Nat.lt_succ_of_lt hp, by rw [hobject p hp, hid]⟩
  · rw [hobject p (h.object s p hs).1]
    exact h.indices s p l hs hl
  · rw [hobject p (h.object s p hs).1]
    exact h.populated s p hs

/-- A change of the value that keeps the number of qubits. -/
theorem InvExcept.setValue (h : w.InvExcept L) {p : StatePtr} {value : QState}
    (hn : value.numQubits = (w.objects p).value.numQubits) :
    (w.setValue p value).InvExcept L := by
  have hsame : ∀ p', ((w.setValue p value).objects p').stateId =
      (w.objects p').stateId ∧ ((w.setValue p value).objects p').value.numQubits =
        (w.objects p').value.numQubits := by
    intro p'
    by_cases hp : p' = p
    · subst hp
      simp [QStateRegistry.setValue, hn]
    · simp [QStateRegistry.setValue, hp]
  exact
    { nextState := h.nextState
      nextQubit := h.nextQubit
      tracked := fun q hq => ⟨(h.tracked q hq).1, (h.tracked q hq).2,
        (h.tracked q hq).3, (h.tracked q hq).4⟩
      freshId := h.freshId
      index := ⟨h.index.1, h.index.2⟩
      key := h.key
      object := fun s p' hs => by
        rw [(hsame p').1]
        exact h.object s p' hs
      keys := h.keys
      member := h.member
      nodup := h.nodup
      home := h.home
      indices := fun s p' l hs hl => by
        rw [(hsame p').2]
        exact h.indices s p' l hs hl
      populated := fun s p' hs => by
        rw [(hsame p').2]
        exact h.populated s p' hs }

theorem InvExcept.setLocation (h : w.InvExcept L) {q : QubitPtr}
    (hq : q < w.numHandles) (loc : Location) :
    (w.setLocation q loc).InvExcept L := by
  have hby : Function.update w.qubitById (w.qubits q).qubitId (some q) =
      w.qubitById := Function.update_eq_self_iff.mpr (h.tracked q hq).byId.symm
  have hset : w.setLocation q loc =
      w.setLocationById (w.qubits q).qubitId loc := by
    rw [QStateRegistry.setLocation]
    simp only [hby]
  have hupd : (w.setLocationById (w.qubits q).qubitId loc).location =
      Function.update w.location (w.qubits q).qubitId (some loc) := rfl
  rw [hset]
  refine
    { nextState := h.nextState
      nextQubit := h.nextQubit
      tracked := fun q' hq' => ?_
      freshId := fun id hid => ?_
      index := h.index.setLocationById _ _
      key := h.key
      object := h.object
      keys := h.keys
      member := h.member
      nodup := h.nodup
      home := h.home
      indices := h.indices
      populated := h.populated }
  · obtain ⟨hpos, hlt, hloc, hby'⟩ := h.tracked q' hq'
    refine ⟨hpos, hlt, ?_, hby'⟩
    rw [hupd, Function.update_apply]
    split_ifs
    · exact Option.some_ne_none _
    · exact hloc
  · have hlt := (h.tracked q hq).id_lt
    rw [hupd, Function.update_of_ne (lt_of_lt_of_le hlt hid).ne']
    exact h.freshId id hid

theorem InvExcept.addHandle (h : w.InvExcept L) (n : NodeId) :
    (w.addHandle n).InvExcept fun q => L q ∨ q = w.numHandles := by
  have hqubits : ∀ q < w.numHandles, (w.addHandle n).qubits q = w.qubits q :=
    fun q hq => Function.update_of_ne hq.ne _ _
  have hnew : (w.addHandle n).qubits w.numHandles = ⟨w.nextQubitId, 0, 0⟩ :=
    Function.update_self _ _ _
  have hloc : (w.addHandle n).location =
      Function.update w.location w.nextQubitId (some (.node n)) := by
    simp only [QStateRegistry.addHandle, QStateRegistry.setLocation,
      QStateRegistry.setLocationById, Function.update_self]
  have hby : (w.addHandle n).qubitById =
      Function.update w.qubitById w.nextQubitId (some w.numHandles) := by
    simp only [QStateRegistry.addHandle, QStateRegistry.setLocation,
      QStateRegistry.setLocationById, Function.update_self]
  have hold : ∀ q, q < w.numHandles + 1 → q ≠ w.numHandles → q < w.numHandles :=
    fun q hq hne => by omega
  have hmem : ∀ s l, w.members s = some l → ∀ q ∈ l, q < w.numHandles :=
    fun s l hl q hq => ((h.member s l hl q).mp hq).1
  refine
    { nextState := h.nextState
      nextQubit := Nat.succ_pos _
      tracked := fun q hq => ?_
      freshId := fun id hid => by
        rw [hloc, Function.update_of_ne (Nat.lt_of_succ_le hid).ne']
        exact h.freshId id (Nat.le_of_succ_le hid)
      index := by
        refine IndexOk.setLocation ?_ _ _
        exact h.index.of_eq rfl rfl
      key := h.key
      object := h.object
      keys := h.keys
      member := fun s l hl q => ?_
      nodup := h.nodup
      home := fun q hq hL => ?_
      indices := fun s p l hs hl => ?_
      populated := h.populated }
  · by_cases hne : q = w.numHandles
    · subst hne
      refine ⟨?_, ?_, ?_, ?_⟩
      · rw [hnew]
        exact h.nextQubit
      · rw [hnew]
        exact Nat.lt_succ_self _
      · rw [hnew, hloc, Function.update_self]
        exact Option.some_ne_none _
      · rw [hnew, hby, Function.update_self]
    · obtain ⟨hpos, hlt, hl, hb⟩ := h.tracked q (hold q hq hne)
      refine ⟨?_, ?_, ?_, ?_⟩ <;> rw [hqubits q (hold q hq hne)]
      · exact hpos
      · exact Nat.lt_succ_of_lt hlt
      · rw [hloc, Function.update_of_ne hlt.ne]
        exact hl
      · rw [hby, Function.update_of_ne hlt.ne]
        exact hb
  · have hml := h.member s l hl q
    by_cases hne : q = w.numHandles
    · refine iff_of_false (fun hq => ?_) fun hx => hx.2.1 (.inr hne)
      exact absurd (hmem s l hl q hq) (hne ▸ lt_irrefl _)
    · rw [hml]
      constructor
      · rintro ⟨hq, hL, hst⟩
        exact ⟨Nat.lt_succ_of_lt hq, fun hor => hor.elim hL hne,
          by rw [hqubits q hq, hst]⟩
      · rintro ⟨hq, hor, hst⟩
        have hq := hold q hq hne
        exact ⟨hq, fun hL => hor (.inl hL), by rw [← hqubits q hq, hst]⟩
  · obtain ⟨hLq, hne⟩ := not_or.mp hL
    have hq := hold q hq hne
    rw [hqubits q hq]
    exact h.home q hq hLq
  · have hmap : (l.map fun q => ((w.addHandle n).qubits q).indexInState) =
        l.map fun q => (w.qubits q).indexInState :=
      List.map_congr_left fun q hq => by rw [hqubits q (hmem s l hl q hq)]
    rw [hmap]
    exact h.indices s p l hs hl

/-- Bound handles are numbered in order. -/
theorem map_bound {sid : StateId} {qs : List QubitPtr} (hd : qs.Nodup) :
    (qs.map fun q => (w.bound sid 0 qs q).indexInState) =
      List.range qs.length := by
  refine List.ext_getElem (by simp) fun i hi _ => ?_
  rw [List.getElem_map, bound_of_mem (List.getElem_mem _), List.getElem_range,
    hd.idxOf_getElem, Nat.zero_add]

/-- Loose handles become the members of a state that is registered nowhere. -/
theorem InvExcept.addGroup (h : w.InvExcept L) {p : StatePtr}
    {qs : List QubitPtr} (hp : p < w.numObjects)
    (hfree : ∀ s, w.states s ≠ some p) (hne : qs ≠ []) (hd : qs.Nodup)
    (hqs : ∀ q ∈ qs, q < w.numHandles ∧ L q)
    (hn : (w.objects p).value.numQubits = qs.length) :
    (w.addGroup p qs).InvExcept fun q => L q ∧ q ∉ qs := by
  have hfresh : w.members w.nextStateId = none := by
    rw [← h.keys]
    cases hs : w.states w.nextStateId with
    | none => rfl
    | some p' => exact absurd (h.key _ p' hs).2 (lt_irrefl _)
  have hstate : ∀ {s p'}, (w.addGroup p qs).states s = some p' →
      (s = w.nextStateId ∧ p' = p) ∨ (s ≠ w.nextStateId ∧ w.states s = some p') := by
    intro s p' hs
    have hs' : Function.update w.states w.nextStateId (some p) s = some p' := hs
    by_cases hsid : s = w.nextStateId
    · rw [hsid, Function.update_self] at hs'
      exact .inl ⟨hsid, (Option.some.inj hs').symm⟩
    · rw [Function.update_of_ne hsid] at hs'
      exact .inr ⟨hsid, hs'⟩
  have hmember : ∀ {s l}, (w.addGroup p qs).members s = some l →
      (s = w.nextStateId ∧ l = qs) ∨
        (s ≠ w.nextStateId ∧ w.members s = some l) := by
    intro s l hs
    have hs' : Function.update w.members w.nextStateId (some qs) s = some l := hs
    by_cases hsid : s = w.nextStateId
    · rw [hsid, Function.update_self] at hs'
      exact .inl ⟨hsid, (Option.some.inj hs').symm⟩
    · rw [Function.update_of_ne hsid] at hs'
      exact .inr ⟨hsid, hs'⟩
  have hself : (w.addGroup p qs).objects p =
      { w.objects p with stateId := w.nextStateId } := Function.update_self _ _ _
  have hother : ∀ {s p'}, w.states s = some p' →
      (w.addGroup p qs).objects p' = w.objects p' := fun hs =>
    Function.update_of_ne (fun he => hfree _ (he ▸ hs)) _ _
  have hin : ∀ {q}, q ∈ qs → (w.addGroup p qs).qubits q =
      { w.qubits q with stateId := w.nextStateId, indexInState := 0 + qs.idxOf q } :=
    fun hq => bound_of_mem hq
  have hout : ∀ {q}, q ∉ qs → (w.addGroup p qs).qubits q = w.qubits q :=
    fun hq => bound_of_not_mem hq
  refine
    { nextState := Nat.succ_pos _
      nextQubit := h.nextQubit
      tracked := fun q hq => ?_
      freshId := h.freshId
      index := ⟨h.index.1, h.index.2⟩
      key := fun s p' hs => ?_
      object := fun s p' hs => ?_
      keys := fun s => ?_
      member := fun s l hl q => ?_
      nodup := fun s l hl => ?_
      home := fun q hq hL => ?_
      indices := fun s p' l hs hl => ?_
      populated := fun s p' hs => ?_ }
  · obtain ⟨hpos, hlt, hl, hb⟩ := h.tracked q hq
    have hid : ((w.addGroup p qs).qubits q).qubitId = (w.qubits q).qubitId :=
      bound_qubitId _ _ _ _
    exact ⟨hid ▸ hpos, hid ▸ hlt, hid ▸ hl, hid ▸ hb⟩
  · rcases hstate hs with ⟨rfl, -⟩ | ⟨-, hs⟩
    · exact ⟨h.nextState, Nat.lt_succ_self _⟩
    · exact ⟨(h.key s p' hs).1, Nat.lt_succ_of_lt (h.key s p' hs).2⟩
  · rcases hstate hs with ⟨rfl, rfl⟩ | ⟨-, hs⟩
    · exact ⟨hp, by rw [hself]⟩
    · rw [hother hs]
      exact h.object s p' hs
  · by_cases hsid : s = w.nextStateId
    · subst hsid
      exact iff_of_false (by simp [QStateRegistry.addGroup])
        (by simp [QStateRegistry.addGroup])
    · have hk := h.keys s
      simpa [QStateRegistry.addGroup, hsid] using hk
  · rcases hmember hl with ⟨rfl, rfl⟩ | ⟨hsid, hl⟩
    · constructor
      · intro hq
        exact ⟨(hqs q hq).1, fun hx => hx.2 hq, by rw [hin hq]⟩
      · rintro ⟨hq, hL, hst⟩
        by_contra hno
        rw [hout hno] at hst
        exact h.home q hq (fun hLq => hL ⟨hLq, hno⟩) (hst ▸ hfresh)
    · rw [h.member s l hl]
      constructor
      · rintro ⟨hq, hL, hst⟩
        have hno : q ∉ qs := fun hq => hL (hqs q hq).2
        exact ⟨hq, fun hx => hL hx.1, by rw [hout hno, hst]⟩
      · rintro ⟨hq, hL, hst⟩
        have hno : q ∉ qs := by
          intro hq
          rw [hin hq] at hst
          exact hsid hst.symm
        exact ⟨hq, fun hLq => hL ⟨hLq, hno⟩, by rw [← hout hno, hst]⟩
  · rcases hmember hl with ⟨-, rfl⟩ | ⟨-, hl⟩
    · exact hd
    · exact h.nodup s l hl
  · by_cases hmem : q ∈ qs
    · rw [hin hmem]
      simp [QStateRegistry.addGroup]
    · have hhome := h.home q hq fun hLq => hL ⟨hLq, hmem⟩
      rw [hout hmem]
      by_cases hsid : (w.qubits q).stateId = w.nextStateId
      · rw [hsid] at hhome
        exact absurd hfresh hhome
      · simpa [QStateRegistry.addGroup, hsid] using hhome
  · rcases hstate hs with ⟨rfl, rfl⟩ | ⟨hsid, hs⟩
    · obtain ⟨-, rfl⟩ | ⟨hsid, -⟩ := hmember hl
      · rw [hself, hn]
        exact .of_eq (map_bound hd)
      · exact absurd rfl hsid
    · obtain ⟨he, -⟩ | ⟨-, hl⟩ := hmember hl
      · exact absurd he hsid
      · have hmap : (l.map fun q => ((w.addGroup p qs).qubits q).indexInState) =
            l.map fun q => (w.qubits q).indexInState := by
          refine List.map_congr_left fun q hq => ?_
          have hL := ((h.member s l hl q).mp hq).2.1
          rw [hout fun hmem => hL (hqs q hmem).2]
        rw [hother hs, hmap]
        exact h.indices s p' l hs hl
  · rcases hstate hs with ⟨rfl, rfl⟩ | ⟨-, hs⟩
    · rw [hself, hn]
      exact List.length_pos_iff.mpr hne
    · rw [hother hs]
      exact h.populated s p' hs

end Q2NS.QStateRegistry
