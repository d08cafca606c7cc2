import Q2NS.Registry.Merging

/-!
# Measuring as moves

The part of `Measure` that follows the call of the backend: the old state is
dropped, the measured qubit becomes the only member of a new state, and the other
members, in the order they had, those of another.
-/

namespace Q2NS.QStateRegistry

open Loop

variable {w : QStateRegistry} {L : QubitPtr → Prop}

/-- The members of `s` other than `q`, in the order of their indices. -/
def survivorsOf (w : QStateRegistry) (s : StateId) (q : QubitPtr) :
    List QubitPtr :=
  (w.sortByIndex (w.qubitsOf s)).filter (· ≠ q)

/-- The state `s` is replaced by a state of `q` alone and, if there are
survivors, one of the other members. -/
def measured (w : QStateRegistry) (s : StateId) (q : QubitPtr)
    (r : MeasureResult QState) : QStateRegistry :=
  let w₁ := ((w.newObject r.measured).2.dropStates [s]).addGroup w.numObjects [q]
  if r.survivors.numQubits > 0 then
    (w₁.newObject r.survivors).2.addGroup (w.numObjects + 1)
      (w.survivorsOf s q)
  else w₁

theorem Inv.mem_survivorsOf (h : w.Inv) {s : StateId} {q x : QubitPtr} :
    x ∈ w.survivorsOf s q ↔
      x < w.numHandles ∧ (w.qubits x).stateId = s ∧ x ≠ q := by
  rw [survivorsOf, List.mem_filter, mem_sortByIndex, h.mem_qubitsOf_iff,
    decide_eq_true_eq, and_assoc]

theorem Inv.nodup_survivorsOf (h : w.Inv) (s : StateId) (q : QubitPtr) :
    (w.survivorsOf s q).Nodup :=
  ((List.mergeSort_perm _ _).nodup_iff.mpr (h.nodup_qubitsOf s)).filter _

theorem Inv.length_survivorsOf (h : w.Inv) {q : QubitPtr}
    (hq : q < w.numHandles) : (w.survivorsOf (w.qubits q).stateId q).length =
      (w.valueOf (w.qubits q).stateId).numQubits - 1 := by
  have hd := h.nodup_qubitsOf (w.qubits q).stateId
  have hperm : (w.sortByIndex (w.qubitsOf (w.qubits q).stateId)).Perm
      (w.qubitsOf (w.qubits q).stateId) := List.mergeSort_perm _ _
  have herase : (w.qubitsOf (w.qubits q).stateId).filter (· ≠ q) =
      (w.qubitsOf (w.qubits q).stateId).erase q := by
    rw [hd.erase_eq_filter]
    exact List.filter_congr fun x _ => by rw [bne, decide_not, beq_eq_decide]
  rw [survivorsOf, (hperm.filter _).length_eq, herase,
    List.length_erase_of_mem (h.mem_qubitsOf_iff.mpr ⟨hq, rfl⟩),
    h.length_qubitsOf (h.states_of_handle hq)]

theorem unregisterEverywhere_eq (q : QubitPtr) :
    w.unregisterEverywhere q = w.unregistered [q] := by
  have hf : ∀ l : List QubitPtr, l.filter (· ≠ q) = l.filter (· ∉ [q]) :=
    fun l => List.filter_congr fun x _ => by simp
  rw [unregisterEverywhere, unregistered]
  simp only [hf]

theorem foldl_unregister (qs : List QubitPtr) :
    qs.foldl (fun w r => w.unregisterEverywhere r) w = w.unregistered qs := by
  induction qs generalizing w with
  | nil => exact (unregistered_of_not_mem fun _ _ _ _ h => absurd h List.not_mem_nil).symm
  | cons q qs ih =>
      have hf : ∀ l : List QubitPtr, (l.filter (· ≠ q)).filter (· ∉ qs) =
          l.filter (· ∉ q :: qs) := by
        intro l
        rw [List.filter_filter]
        refine List.filter_congr fun x _ => ?_
        by_cases hx : x = q <;> simp [hx]
      rw [List.foldl_cons, ih, unregistered, unregistered]
      simp only [unregisterEverywhere, Option.map_map, Function.comp_def, hf]

/-- Binding a handle that is in no list does not have to unregister it first. -/
theorem rebind_loose {q : QubitPtr} (h : w.Tracked q) (hindex : w.IndexOk)
    {sid : StateId} {pre : List QubitPtr} (hpre : w.members sid = some pre)
    (hout : ∀ s l, w.members s = some l → q ∉ l) (i : ℕ) :
    ((w.rebind q sid i).register q).setLocation q (w.getLocation q) =
      w.rebound sid i pre [q] := by
  have hself : w.unregisterEverywhere q = w := by
    rw [unregisterEverywhere_eq, unregistered_of_not_mem]
    intro s l hl x hx
    rw [List.mem_singleton.mp hx]
    exact hout s l hl
  have hone := rebind_eq h hindex hpre (hout sid pre hpre) i
  rwa [hself] at hone

theorem not_mem_rebound {sid : StateId} {k : ℕ} {pre qs : List QubitPtr}
    {x : QubitPtr} (hpre : w.members sid = some pre) (hx : x ∉ qs)
    (hout : ∀ s l, w.members s = some l → x ∉ l) (s : StateId)
    (l : List QubitPtr) (hl : (w.rebound sid k pre qs).members s = some l) :
    x ∉ l := by
  by_cases hs : s = sid
  · subst hs
    have hself : (w.rebound s k pre qs).members s = some (pre ++ qs) :=
      Function.update_self _ _ _
    obtain rfl := Option.some.inj (hself.symm.trans hl)
    simpa [hx] using hout s pre hpre
  · have hother : (w.rebound sid k pre qs).members s =
        (w.unregistered qs).members s := Function.update_of_ne hs _ _
    rw [hother] at hl
    obtain ⟨l', hl', rfl⟩ := Option.map_eq_some_iff.mp hl
    exact fun hmem => hout s l' hl' (List.mem_filter.mp hmem).1

/-- The loop of `Measure`, for handles that have been unregistered before. -/
theorem bindSurvivors_eq {sid : StateId} {q : QubitPtr} {qs : List QubitPtr}
    (hd : qs.Nodup) {pre : List QubitPtr} (htracked : ∀ r ∈ qs, w.Tracked r)
    (hindex : w.IndexOk) (hpre : w.members sid = some pre)
    (hout : ∀ r ∈ qs, r ≠ q → ∀ s l, w.members s = some l → r ∉ l) (k : ℕ) :
    bindSurvivors sid q qs (List.range' k (qs.filter (· ≠ q)).length) w =
      .ok (w.rebound sid k pre (qs.filter (· ≠ q))) := by
  induction qs generalizing w pre k with
  | nil =>
      rw [List.filter_nil, rebound_nil hpre]
      rfl
  | cons r qs ih =>
      obtain ⟨hr, hd⟩ := List.nodup_cons.mp hd
      by_cases hrq : r = q
      · subst hrq
        have hf : (r :: qs).filter (· ≠ r) = qs.filter (· ≠ r) := by simp
        simp only [hf, bindSurvivors, if_true]
        exact ih hd (fun x hx => htracked x (List.mem_cons_of_mem _ hx)) hindex
          hpre (fun x hx => hout x (List.mem_cons_of_mem _ hx)) k
      · have hf : (r :: qs).filter (· ≠ q) = r :: qs.filter (· ≠ q) := by
          simp [hrq]
        have hrf : r ∉ qs.filter (· ≠ q) := fun hx => hr (List.mem_filter.mp hx).1
        simp only [hf, List.length_cons, List.range'_succ, bindSurvivors,
          if_neg hrq, rebind_loose (htracked r List.mem_cons_self) hindex hpre
            (hout r List.mem_cons_self hrq)]
        rw [ih hd (fun x hx => rebound_tracked
          (htracked x (List.mem_cons_of_mem _ hx)) _ _ _ _)
          (hindex.of_eq rfl rfl) (Function.update_self _ _ _) ?_ (k + 1),
          rebound_cons hrf]
        intro x hx hxq
        have hne : x ≠ r := fun he => hr (he ▸ hx)
        exact not_mem_rebound hpre (by simpa using hne)
          (hout x (List.mem_cons_of_mem _ hx) hxq)

/-- A state object becomes a state of loose handles: the steps of `Measure` for
each of its two results. -/
theorem bindLoose_eq {p : StatePtr} {qs : List QubitPtr}
    (hout : ∀ q ∈ qs, ∀ s l, w.members s = some l → q ∉ l) :
    (w.addGroup p []).rebound w.nextStateId 0 [] qs = w.addGroup p qs := by
  rw [rebound_addGroup, unregistered_of_not_mem]
  exact fun s l hl q hq => hout q hq s l hl

theorem not_mem_addGroup {p : StatePtr} {qs : List QubitPtr} {x : QubitPtr}
    (hx : x ∉ qs) (hout : ∀ s l, w.members s = some l → x ∉ l) (s : StateId)
    (l : List QubitPtr) (hl : (w.addGroup p qs).members s = some l) : x ∉ l := by
  have hupd : (w.addGroup p qs).members =
      Function.update w.members w.nextStateId (some qs) := rfl
  rw [hupd] at hl
  by_cases hs : s = w.nextStateId
  · rw [hs, Function.update_self] at hl
    exact Option.some.inj hl ▸ hx
  · rw [Function.update_of_ne hs] at hl
    exact hout s l hl

/-- One handle bound to a new state of its own. -/
theorem bindOne_eq {p : StatePtr} {q : QubitPtr} (h : w.Tracked q)
    (hindex : w.IndexOk) (hout : ∀ s l, w.members s = some l → q ∉ l) :
    (((w.addGroup p []).rebind q w.nextStateId 0).register q).setLocation q
      (w.getLocation q) = w.addGroup p [q] := by
  have hloc : (w.addGroup p []).getLocation q = w.getLocation q := by
    have hid : ((w.addGroup p []).qubits q).qubitId = (w.qubits q).qubitId :=
      bound_qubitId _ _ _ _
    have hsame : (w.addGroup p []).location = w.location := rfl
    rw [getLocation, getLocation, hid, hsame]
  rw [← hloc, rebind_loose (h.addGroup p []) (hindex.of_eq rfl rfl)
    (Function.update_self _ _ _) (not_mem_addGroup List.not_mem_nil hout),
    bindLoose_eq]
  intro x hx
  rw [List.mem_singleton.mp hx]
  exact hout

theorem addGroup_qubitsOf {p : StatePtr} {qs : List QubitPtr} {s : StateId}
    (hs : s ≠ w.nextStateId) : (w.addGroup p qs).qubitsOf s = w.qubitsOf s := by
  have hother : (w.addGroup p qs).members s = w.members s :=
    Function.update_of_ne hs _ _
  rw [qubitsOf, qubitsOf, hother]

/-- At the end of `Measure` the old state has no members and is removed. -/
theorem Inv.removeEmpty_measured (h : w.Inv) {s : StateId} (q : QubitPtr)
    (hs : w.states s ≠ none) (r : MeasureResult QState) :
    (let related := w.sortByIndex (w.qubitsOf s)
      let w₁ := ((w.unregistered related).newObject r.measured).2.addGroup
        w.numObjects [q]
      if r.survivors.numQubits > 0 then
        (w₁.newObject r.survivors).2.addGroup (w.numObjects + 1)
          (related.filter (· ≠ q))
      else w₁).removeEmpty [s] = w.measured s q r := by
  obtain ⟨p, hp⟩ := Option.ne_none_iff_exists'.mp hs
  have hlt := (h.key s p hp).2
  have hin : ∀ s' ∈ [s], ∀ l, w.members s' = some l →
      ∀ x ∈ l, x ∈ w.sortByIndex (w.qubitsOf s) := by
    intro s' hs' l hl x hx
    obtain rfl := List.mem_singleton.mp hs'
    rw [mem_sortByIndex, qubitsOf, hl]
    exact hx
  have hother : ∀ s' ∉ [s], ∀ l, w.members s' = some l →
      ∀ x ∈ w.sortByIndex (w.qubitsOf s), x ∉ l := by
    intro s' hs' l hl x hx hxl
    rw [mem_sortByIndex] at hx
    have hst := ((h.member s' l hl x).mp hxl).2.2
    exact hs' (List.mem_singleton.mpr
      (hst.symm.trans (h.mem_qubitsOf hx).2.2))
  have hempty := unregistered_empty (List.mem_singleton_self s) hin
  have hdrop := unregistered_dropStates hother
  have hne : w.nextStateId ∉ [s] := fun he =>
    absurd (List.mem_singleton.mp he) hlt.ne'
  have hne' : w.nextStateId + 1 ∉ [s] := fun he =>
    absurd (List.mem_singleton.mp he) (Nat.lt_succ_of_lt hlt).ne'
  set w₀ := w.unregistered (w.sortByIndex (w.qubitsOf s)) with hw₀
  have hfirst : ((w₀.newObject r.measured).2.addGroup w.numObjects
      [q]).dropStates [s] =
      ((w.newObject r.measured).2.dropStates [s]).addGroup w.numObjects [q] := by
    have hcomm : ∀ w' : QStateRegistry, (w'.newObject r.measured).2.dropStates [s] =
        ((w'.dropStates [s]).newObject r.measured).2 := fun _ => rfl
    rw [addGroup_dropStates (w := (w₀.newObject r.measured).2) hne, hcomm, hdrop,
      hcomm]
  rw [measured]
  dsimp only
  split_ifs with hpos
  · rw [removeEmpty_eq, addGroup_dropStates (w := (((w₀.newObject
      r.measured).2.addGroup w.numObjects [q]).newObject r.survivors).2) hne',
      ← hfirst]
    · rfl
    · intro s' hs'
      obtain rfl := List.mem_singleton.mp hs'
      rw [addGroup_qubitsOf (w := (((w₀.newObject
        r.measured).2.addGroup w.numObjects [q]).newObject r.survivors).2)
          (Nat.lt_succ_of_lt hlt).ne]
      exact (addGroup_qubitsOf (w := (w₀.newObject r.measured).2)
        (p := w.numObjects) hlt.ne).trans hempty
  · rw [removeEmpty_eq, hfirst]
    intro s' hs'
    obtain rfl := List.mem_singleton.mp hs'
    exact (addGroup_qubitsOf (w := (w₀.newObject r.measured).2)
      (p := w.numObjects) hlt.ne).trans hempty

/-- The part of `Measure` after the call of the backend. -/
theorem Inv.rebindMeasured_eq (h : w.Inv) {s : StateId} {p : StatePtr}
    {q : QubitPtr} (hp : w.states s = some p) (hq : q < w.numHandles)
    (hqs : (w.qubits q).stateId = s) {r : MeasureResult QState}
    (hmeasured : r.measured.numQubits = 1)
    (hsurvivors : r.survivors.numQubits = (w.objects p).value.numQubits - 1) :
    w.rebindMeasured p (w.sortByIndex (w.qubitsOf s)) q (w.getLocation q) r =
      .ok (w.measured s q r) := by
  obtain ⟨hlt, hobj⟩ := h.object s p hp
  set related := w.sortByIndex (w.qubitsOf s) with hrelated
  have hmem : ∀ {x}, x ∈ related ↔ x < w.numHandles ∧ (w.qubits x).stateId = s :=
    mem_sortByIndex.trans h.mem_qubitsOf_iff
  have hd : related.Nodup :=
    (List.mergeSort_perm _ _).nodup_iff.mpr (h.nodup_qubitsOf s)
  have hlen : (related.filter (· ≠ q)).length = r.survivors.numQubits := by
    have hl := h.length_survivorsOf hq
    rw [hqs, valueOf, hp] at hl
    exact hl.trans hsurvivors.symm
  -- the handles of the old state are in no list
  set w₁ := ((w.unregistered related).newObject r.measured).2 with hw₁
  have hout₁ : ∀ x ∈ related, ∀ s' l, w₁.members s' = some l → x ∉ l := by
    intro x hx s' l hl hxl
    obtain ⟨l', -, rfl⟩ := Option.map_eq_some_iff.mp hl
    simpa [hx] using (List.mem_filter.mp hxl).2
  have htracked₁ : ∀ x ∈ related, w₁.Tracked x := fun x hx =>
    ⟨(h.tracked x (hmem.mp hx).1).1, (h.tracked x (hmem.mp hx).1).2,
      (h.tracked x (hmem.mp hx).1).3, (h.tracked x (hmem.mp hx).1).4⟩
  have hindex₁ : w₁.IndexOk := h.index.of_eq rfl rfl
  have hqrel := hmem.mpr ⟨hq, hqs⟩
  have hcreate₁ := createStateFromExisting_eq (w := w₁) h.fresh_states
    (Nat.lt_succ_self w.numObjects)
  have hnew₁ : w₁.objects w.numObjects = ⟨0, r.measured⟩ :=
    Function.update_self _ _ _
  rw [hnew₁, hmeasured] at hcreate₁
  have hbind₁ := bindOne_eq (p := w.numObjects) (htracked₁ q hqrel) hindex₁
    (hout₁ q hqrel)
  have hptr₁ : ((w.unregistered related).newObject r.measured).1 =
      w.numObjects := rfl
  have hloc₁ : w₁.getLocation q = w.getLocation q := rfl
  rw [hloc₁] at hbind₁
  -- and the survivors are bound to the second new state
  set w₂ := ((w₁.addGroup w.numObjects [q]).newObject r.survivors).2 with hw₂
  have hfresh₂ : w₂.states w₂.nextStateId = none := by
    have hnone : w.states (w.nextStateId + 1) = none := by
      cases hs : w.states (w.nextStateId + 1) with
      | none => rfl
      | some p' => exact absurd (h.key _ p' hs).2 (Nat.le_succ _).not_gt
    exact (Function.update_of_ne (Nat.succ_ne_self _) _ _).trans hnone
  have hcreate₂ := createStateFromExisting_eq (p := w.numObjects + 1) hfresh₂
    (Nat.lt_succ_self (w.numObjects + 1))
  have hnew₂ : w₂.objects (w.numObjects + 1) = ⟨0, r.survivors⟩ :=
    Function.update_self _ _ _
  rw [hnew₂] at hcreate₂
  have hout₂ : ∀ x ∈ related, x ≠ q → ∀ s' l, w₂.members s' = some l → x ∉ l :=
    fun x hx hxq => not_mem_addGroup (w := w₁) (p := w.numObjects)
      (by simpa using hxq) (hout₁ x hx)
  have hbind₂ := @bindSurvivors_eq (w₂.addGroup (w.numObjects + 1) [])
    w₂.nextStateId q related hd []
    (fun x hx => (((htracked₁ x hx).addGroup w.numObjects [q]).newObject
      r.survivors).addGroup (w.numObjects + 1) [])
    (hindex₁.of_eq rfl rfl) (Function.update_self _ _ _)
    (fun x hx hxq => not_mem_addGroup List.not_mem_nil (hout₂ x hx hxq)) 0
  rw [bindLoose_eq fun x hx => hout₂ x (List.mem_filter.mp hx).1
    (by simpa using (List.mem_filter.mp hx).2), ← List.range_eq_range', hlen]
    at hbind₂
  have hend := h.removeEmpty_measured q (hp ▸ Option.some_ne_none p) r
  rw [rebindMeasured, foldl_unregister]
  dsimp only
  rw [hptr₁, ← hw₁, hcreate₁]
  simp only [List.range_one, hbind₁]
  have hptr₂ : ((w₁.addGroup w.numObjects [q]).newObject r.survivors).1 =
      w.numObjects + 1 := rfl
  have hobj₁ : ((w₁.addGroup w.numObjects [q]).objects p).stateId = s := by
    rw [addGroup_objects hlt.ne, hw₁,
      newObject_objects (w := w.unregistered related) hlt]
    exact hobj
  have hobj₂ : ((w₂.addGroup (w.numObjects + 1)
      (related.filter (· ≠ q))).objects p).stateId = s := by
    rw [addGroup_objects (Nat.lt_succ_of_lt hlt).ne, hw₂,
      newObject_objects (w := w₁.addGroup w.numObjects [q])
        (Nat.lt_succ_of_lt hlt)]
    exact hobj₁
  rw [hptr₂, ← hw₂, hcreate₂, ← hend]
  dsimp only
  split_ifs with hpos
  · rw [hbind₂, ok_bind, hobj₂]
    rfl
  · rw [pure_eq_ok, ok_bind, hobj₁]
    rfl

end Q2NS.QStateRegistry
