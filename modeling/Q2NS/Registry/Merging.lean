import Q2NS.Registry.Effects

/-!
# Merging as moves

`MergeStates` on existing handles: nothing happens when they are in one state;
otherwise their states are dropped and their members become the members of one
new state, in the order of the buckets.
-/

namespace Q2NS.QStateRegistry

open Loop

variable {w : QStateRegistry} {L : QubitPtr → Prop}

/-- The value of the state `s`. -/
def valueOf (w : QStateRegistry) (s : StateId) : QState :=
  (w.objects ((w.states s).getD 0)).value

/-- The members of the states `sids`, each in the order of its qubits. -/
def qubitsOfAll (w : QStateRegistry) (sids : List StateId) : List QubitPtr :=
  sids.flatMap fun s => w.sortByIndex (w.qubitsOf s)

/-- The states `sids` are replaced by one state of value `v`. -/
def merged (w : QStateRegistry) (sids : List StateId) (v : QState) :
    QStateRegistry :=
  ((w.newObject v).2.dropStates sids).addGroup w.numObjects (w.qubitsOfAll sids)

theorem mem_sortByIndex {qs : List QubitPtr} {q : QubitPtr} :
    q ∈ w.sortByIndex qs ↔ q ∈ qs := List.mem_mergeSort

theorem InvExcept.mem_qubitsOf (h : w.InvExcept L) {s : StateId} {q : QubitPtr}
    (hq : q ∈ w.qubitsOf s) : q < w.numHandles ∧ ¬ L q ∧ (w.qubits q).stateId = s := by
  unfold qubitsOf at hq
  cases hl : w.members s with
  | none =>
      rw [hl] at hq
      cases hq
  | some l =>
      rw [hl] at hq
      exact (h.member s l hl q).mp hq

theorem Inv.mem_qubitsOf_iff (h : w.Inv) {s : StateId} {q : QubitPtr} :
    q ∈ w.qubitsOf s ↔ q < w.numHandles ∧ (w.qubits q).stateId = s := by
  constructor
  · intro hq
    exact ⟨(h.mem_qubitsOf hq).1, (h.mem_qubitsOf hq).2.2⟩
  · rintro ⟨hq, rfl⟩
    obtain ⟨l, hl⟩ := Option.ne_none_iff_exists'.mp (h.home q hq not_false)
    rw [qubitsOf, hl, Option.getD_some]
    exact (h.member _ l hl q).mpr ⟨hq, not_false, rfl⟩

theorem Inv.mem_qubitsOfAll (h : w.Inv) {sids : List StateId} {q : QubitPtr} :
    q ∈ w.qubitsOfAll sids ↔ q < w.numHandles ∧ (w.qubits q).stateId ∈ sids := by
  simp only [qubitsOfAll, List.mem_flatMap, mem_sortByIndex, h.mem_qubitsOf_iff]
  constructor
  · rintro ⟨s, hs, hq, rfl⟩
    exact ⟨hq, hs⟩
  · rintro ⟨hq, hs⟩
    exact ⟨_, hs, hq, rfl⟩

theorem Inv.nodup_qubitsOf (h : w.Inv) (s : StateId) : (w.qubitsOf s).Nodup := by
  cases hl : w.members s with
  | none => simp [qubitsOf, hl]
  | some l =>
      rw [qubitsOf, hl]
      exact h.nodup s l hl

theorem Inv.nodup_qubitsOfAll (h : w.Inv) {sids : List StateId}
    (hd : sids.Nodup) : (w.qubitsOfAll sids).Nodup := by
  refine List.nodup_flatMap.mpr ⟨fun s _ =>
    (List.mergeSort_perm _ _).nodup_iff.mpr (h.nodup_qubitsOf s), ?_⟩
  refine hd.imp fun hne q hq hq' => ?_
  rw [mem_sortByIndex] at hq hq'
  exact hne ((h.mem_qubitsOf hq).2.2.symm.trans (h.mem_qubitsOf hq').2.2)

/-- A registered state has as many members as qubits. -/
theorem InvExcept.length_qubitsOf (h : w.InvExcept L) {s : StateId}
    (hs : w.states s ≠ none) :
    (w.qubitsOf s).length = (w.valueOf s).numQubits := by
  obtain ⟨p, hp⟩ := Option.ne_none_iff_exists'.mp hs
  obtain ⟨l, hl⟩ := Option.ne_none_iff_exists'.mp (mt (h.keys s).mpr hs)
  have hlen := (h.indices s p l hp hl).length_eq
  rw [List.length_map, List.length_range] at hlen
  rw [qubitsOf, valueOf, hp, hl]
  exact hlen

/-- The fold of `MergeDisjoint` over values. -/
noncomputable def mergeValues (v : QState) (vs : List QState) :
    Except Exit QState := vs.foldlM QState.mergeDisjoint v

theorem mergeValues_numQubits {v v' : QState} {vs : List QState}
    (h : mergeValues v vs = .ok v') :
    v'.numQubits = v.numQubits + (vs.map QState.numQubits).sum := by
  induction vs generalizing v with
  | nil =>
      cases h
      simp
  | cons u vs ih =>
      rw [mergeValues, List.foldlM_cons] at h
      obtain ⟨m, hm, h⟩ := bind_eq_ok.mp h
      rw [ih h, QState.mergeDisjoint_numQubits hm, List.map_cons, List.sum_cons,
        Nat.add_assoc]

theorem mapM_some {α β : Type} {f : α → Option β} {g : α → β} {l : List α}
    (h : ∀ x ∈ l, f x = some (g x)) : l.mapM f = some (l.map g) := by
  induction l with
  | nil => rfl
  | cons x l ih =>
      rw [List.mapM_cons, h x List.mem_cons_self,
        ih fun y hy => h y (List.mem_cons_of_mem _ hy)]
      rfl

/-- The bucket of a registered state. -/
def bucket (w : QStateRegistry) (s : StateId) : StateBucket where
  sid := s
  state := (w.states s).getD 0
  leadingQubitId := ((w.sortByIndex (w.qubitsOf s)).head?.map fun q =>
    (w.qubits q).qubitId).getD 0
  members := w.sortByIndex (w.qubitsOf s)

theorem bucketOf_eq {s : StateId} (hs : w.states s ≠ none) :
    w.bucketOf s = some (w.bucket s) := by
  obtain ⟨p, hp⟩ := Option.ne_none_iff_exists'.mp hs
  rw [bucketOf, bucket, getState, hp]
  rfl

theorem mergeBuckets_eq (s : StateId) (sids : List StateId) :
    w.mergeBuckets ((s :: sids).map w.bucket) =
      some <$> mergeValues (w.valueOf s) (sids.map w.valueOf) := by
  rw [List.map_cons, mergeBuckets, mergeValues, List.foldlM_map, List.foldlM_map]
  rfl

theorem Inv.states_of_handle (h : w.Inv) {q : QubitPtr} (hq : q < w.numHandles) :
    w.states (w.qubits q).stateId ≠ none :=
  mt (h.keys _).mp (h.home q hq not_false)

theorem mem_stateIdsOf {qs : List QubitPtr} {s : StateId} :
    s ∈ w.stateIdsOf qs ↔ ∃ q ∈ qs, (w.qubits q).stateId = s := by
  rw [stateIdsOf, List.mem_dedup, List.mem_mergeSort, List.mem_map]

theorem Tracked.addGroup {q : QubitPtr} (h : w.Tracked q) (p : StatePtr)
    (qs : List QubitPtr) : (w.addGroup p qs).Tracked q := by
  have hid : ((w.addGroup p qs).qubits q).qubitId = (w.qubits q).qubitId :=
    bound_qubitId _ _ _ _
  exact ⟨hid ▸ h.id_pos, hid ▸ h.id_lt, hid ▸ h.located, hid ▸ h.byId⟩

theorem Tracked.newObject {q : QubitPtr} (h : w.Tracked q) (v : QState) :
    (w.newObject v).2.Tracked q := ⟨h.id_pos, h.id_lt, h.located, h.byId⟩

/-- Binding handles to a state without members. -/
theorem bindGroup_eq {p : StatePtr} {qs : List QubitPtr} (hd : qs.Nodup)
    (htracked : ∀ q ∈ qs, w.Tracked q) (hindex : w.IndexOk) :
    rebindAll w.nextStateId qs (List.range qs.length) (w.addGroup p []) =
      .ok ((w.unregistered qs).addGroup p qs) := by
  rw [List.range_eq_range', rebindAll_eq hd
    (fun q hq => (htracked q hq).addGroup p []) (hindex.of_eq rfl rfl)
    (Function.update_self _ _ _) (fun _ _ => List.not_mem_nil) 0,
    rebound_addGroup]

/-- The states whose members have been bound elsewhere are removed. -/
theorem Inv.removeEmpty_addGroup (h : w.Inv) {sids : List StateId}
    {qs : List QubitPtr} (hreg : ∀ s ∈ sids, w.states s ≠ none)
    (hqs : ∀ q, q ∈ qs ↔ q < w.numHandles ∧ (w.qubits q).stateId ∈ sids)
    (p : StatePtr) :
    ((w.unregistered qs).addGroup p qs).removeEmpty sids =
      (w.dropStates sids).addGroup p qs := by
  have hnew : w.nextStateId ∉ sids := fun hs => hreg _ hs h.fresh_states
  have hin : ∀ s ∈ sids, ∀ l, w.members s = some l → ∀ q ∈ l, q ∈ qs := by
    intro s hs l hl q hq
    obtain ⟨hq, -, rfl⟩ := (h.member s l hl q).mp hq
    exact (hqs q).mpr ⟨hq, hs⟩
  have hother : ∀ s ∉ sids, ∀ l, w.members s = some l → ∀ q ∈ qs, q ∉ l := by
    intro s hs l hl q hq hql
    exact hs (((h.member s l hl q).mp hql).2.2 ▸ ((hqs q).mp hq).2)
  have hempty : ∀ s ∈ sids,
      ((w.unregistered qs).addGroup p qs).qubitsOf s = [] := by
    intro s hs
    have hne : s ≠ w.nextStateId := fun he => hnew (he ▸ hs)
    have hsame : ((w.unregistered qs).addGroup p qs).members s =
        (w.unregistered qs).members s := Function.update_of_ne hne _ _
    rw [qubitsOf, hsame]
    exact unregistered_empty hs hin
  rw [removeEmpty_eq hempty, addGroup_dropStates (w := w.unregistered qs) hnew,
    unregistered_dropStates hother]

theorem Inv.length_qubitsOfAll (h : w.Inv) {sids : List StateId}
    (hreg : ∀ s ∈ sids, w.states s ≠ none) :
    (w.qubitsOfAll sids).length =
      (sids.map fun s => (w.valueOf s).numQubits).sum := by
  rw [qubitsOfAll, List.length_flatMap]
  refine congrArg List.sum (List.map_congr_left fun s hs => ?_)
  rw [sortByIndex, List.length_mergeSort, h.length_qubitsOf (hreg s hs)]

/-- Sorted buckets are the buckets of some order of the states. -/
theorem sorted_buckets (sids : List StateId) :
    ∃ order : List StateId, order.Perm sids ∧
      (sids.map w.bucket).mergeSort StateBucket.le = order.map w.bucket := by
  have hperm : ((sids.map w.bucket).mergeSort StateBucket.le).Perm
      (sids.map w.bucket) := List.mergeSort_perm _ _
  refine ⟨((sids.map w.bucket).mergeSort StateBucket.le).map StateBucket.sid,
    (hperm.map _).trans (.of_eq ?_), ?_⟩
  · rw [List.map_map]
    exact List.map_id _
  · rw [List.map_map]
    refine (List.map_id _).symm.trans (List.map_congr_left fun b hb => ?_)
    obtain ⟨s, -, rfl⟩ := List.mem_map.mp (hperm.mem_iff.mp hb)
    rfl

/-- `s :: rest` are the states of the handles `qs`, of which there are several. -/
structure Several (w : QStateRegistry) (qs : List QubitPtr)
    (s : StateId) (rest : List StateId) : Prop where
  nodup : (s :: rest).Nodup
  several : rest ≠ []
  mem : ∀ s', s' ∈ s :: rest ↔ ∃ q ∈ qs, (w.qubits q).stateId = s'

theorem Inv.newObject_inv (h : w.Inv) (v : QState) : Inv (w.newObject v).2 :=
  InvExcept.newObject h v

theorem newObject_objects {v : QState} {p : StatePtr} (hp : p < w.numObjects) :
    (w.newObject v).2.objects p = w.objects p := Function.update_of_ne hp.ne _ _

theorem addGroup_objects {p p' : StatePtr} {qs : List QubitPtr} (hne : p' ≠ p) :
    (w.addGroup p qs).objects p' = w.objects p' := Function.update_of_ne hne _ _

theorem newObject_self (v : QState) :
    (w.newObject v).2.objects w.numObjects = ⟨0, v⟩ := Function.update_self _ _ _

/-- A merged value has a qubit for each member. -/
theorem Inv.mergeValues_length (h : w.Inv) {s : StateId} {rest : List StateId}
    (hreg : ∀ s' ∈ s :: rest, w.states s' ≠ none) {v : QState}
    (hv : mergeValues (w.valueOf s) (rest.map w.valueOf) = .ok v) :
    v.numQubits = (w.qubitsOfAll (s :: rest)).length := by
  rw [mergeValues_numQubits hv, h.length_qubitsOfAll hreg, List.map_cons,
    List.sum_cons, List.map_map]
  rfl

/-- Once the buckets are sorted, the merge of the values decides. -/
theorem Inv.mergeSorted_cases (h : w.Inv) {s : StateId} {rest : List StateId}
    (hd : (s :: rest).Nodup) (hreg : ∀ s' ∈ s :: rest, w.states s' ≠ none) :
    (∃ e, mergeValues (w.valueOf s) (rest.map w.valueOf) = .error e ∧
      w.mergeSorted ((s :: rest).map w.bucket) = (.error e, w)) ∨
    ∃ v, mergeValues (w.valueOf s) (rest.map w.valueOf) = .ok v ∧
      w.mergeSorted ((s :: rest).map w.bucket) =
        (.ok (some w.numObjects), w.merged (s :: rest) v) := by
  have hsid : ((s :: rest).map w.bucket).map StateBucket.sid = s :: rest := by
    rw [List.map_map]
    exact List.map_id _
  have hmembers : ((s :: rest).map w.bucket).flatMap StateBucket.members =
      w.qubitsOfAll (s :: rest) := List.flatMap_map _ _ _
  cases hv : mergeValues (w.valueOf s) (rest.map w.valueOf) with
  | error e =>
      refine .inl ⟨e, rfl, ?_⟩
      rw [mergeSorted, mergeBuckets_eq, hv]
      rfl
  | ok v =>
      refine .inr ⟨v, rfl, ?_⟩
      have hn := h.mergeValues_length hreg hv
      have hinv := h.newObject_inv v
      have hqs : ∀ q, q ∈ w.qubitsOfAll (s :: rest) ↔
          q < w.numHandles ∧ (w.qubits q).stateId ∈ s :: rest :=
        fun q => h.mem_qubitsOfAll
      have hcreate := createStateFromExisting_eq hinv.fresh_states
        (Nat.lt_succ_self w.numObjects)
      have hptr : (w.newObject v).1 = w.numObjects := rfl
      have hbind := bindGroup_eq (p := w.numObjects) (h.nodup_qubitsOfAll hd)
        (fun q hq => hinv.tracked q ((hqs q).mp hq).1) hinv.index
      have hremove := hinv.removeEmpty_addGroup hreg hqs w.numObjects
      rw [newObject_self, hn] at hcreate
      rw [mergeSorted, mergeBuckets_eq, hv, hsid, hmembers]
      dsimp only [Functor.map, Except.map]
      rw [hptr, hcreate]
      dsimp only
      rw [hbind]
      dsimp only
      rw [hremove]
      refine congrArg (fun x => (Except.ok x, w.merged (s :: rest) v)) ?_
      exact Function.update_self _ _ _

theorem Inv.mergeStates_cases (h : w.Inv) {qs : List QubitPtr} (hne : qs ≠ [])
    (hqs : ∀ q ∈ qs, q < w.numHandles) :
    (∃ s p, (∀ q ∈ qs, (w.qubits q).stateId = s) ∧ w.states s = some p ∧
      w.mergeStates qs = (.ok (some p), w)) ∨
    ∃ s rest, w.Several qs s rest ∧
      ((∃ e, mergeValues (w.valueOf s) (rest.map w.valueOf) = .error e ∧
        w.mergeStates qs = (.error e, w)) ∨
      ∃ v, mergeValues (w.valueOf s) (rest.map w.valueOf) = .ok v ∧
        w.mergeStates qs = (.ok (some w.numObjects), w.merged (s :: rest) v)) := by
  have hnull : ¬ ∃ q ∈ qs, w.numHandles ≤ q := by
    rintro ⟨q, hq, hle⟩
    exact absurd (hqs q hq) (not_lt.mpr hle)
  have hreg : ∀ s ∈ w.stateIdsOf qs, w.states s ≠ none := by
    intro s hs
    obtain ⟨q, hq, rfl⟩ := mem_stateIdsOf.mp hs
    exact h.states_of_handle (hqs q hq)
  obtain ⟨q₀, hq₀⟩ := List.exists_mem_of_ne_nil qs hne
  have hmem₀ : (w.qubits q₀).stateId ∈ w.stateIdsOf qs :=
    mem_stateIdsOf.mpr ⟨q₀, hq₀, rfl⟩
  by_cases hone : ∃ s, w.stateIdsOf qs = [s]
  · left
    obtain ⟨s, hs⟩ := hone
    have hall : ∀ q ∈ qs, (w.qubits q).stateId = s := by
      intro q hq
      have hin : (w.qubits q).stateId ∈ w.stateIdsOf qs :=
        mem_stateIdsOf.mpr ⟨q, hq, rfl⟩
      rwa [hs, List.mem_singleton] at hin
    obtain ⟨p, hp⟩ := Option.ne_none_iff_exists'.mp
      (hreg s (hs ▸ List.mem_singleton_self s))
    refine ⟨s, p, hall, hp, ?_⟩
    rw [mergeStates, if_neg hne, if_neg hnull, hs]
    simp only [getState, hp]
  · right
    obtain ⟨order, horder, hsorted⟩ := sorted_buckets (w := w) (w.stateIdsOf qs)
    have hmerge : w.mergeStates qs = w.mergeSorted (order.map w.bucket) := by
      rw [mergeStates, if_neg hne, if_neg hnull]
      split
      · next s hs => exact absurd ⟨s, hs⟩ hone
      · rw [mapM_some fun s hs => bucketOf_eq (hreg s hs)]
        exact congrArg w.mergeSorted hsorted
    have hmem : ∀ s', s' ∈ order ↔ ∃ q ∈ qs, (w.qubits q).stateId = s' :=
      fun s' => horder.mem_iff.trans mem_stateIdsOf
    have hlen := horder.length_eq
    have hd : order.Nodup := horder.nodup_iff.mpr (List.nodup_dedup _)
    match order, hmem, hlen, hd, hmerge with
    | [], hmem, _, _, _ => exact absurd ((hmem _).mpr ⟨q₀, hq₀, rfl⟩) List.not_mem_nil
    | [s], _, hlen, _, _ =>
        exact absurd (List.length_eq_one_iff.mp hlen.symm) hone
    | s :: s' :: rest, hmem, _, hd, hmerge =>
        have hcases := h.mergeSorted_cases hd fun x hx =>
          hreg x (mem_stateIdsOf.mpr ((hmem x).mp hx))
        rw [← hmerge] at hcases
        exact ⟨s, s' :: rest, ⟨hd, List.cons_ne_nil _ _, hmem⟩, hcases⟩

end Q2NS.QStateRegistry
