import Q2NS.Registry.Values
import Q2NS.RegistryInvariant

/-!
# The order of merging

`MergeStates` sorts the states by the id of the qubit at index 0 before it merges them.
The ids tell the states apart, so the result depends on the set of the states alone: on
no order of the handles, in the call or in the member lists, and on no handle that is
named twice.
-/

namespace Q2NS.QStateRegistry

open Loop

variable {w : QStateRegistry}

/-! ## Member lists in another order -/

/-- The member lists `m` have the members of `w` in another order. -/
def Reordered (w : QStateRegistry) (m : StateId → Option (List QubitPtr)) : Prop :=
  ∀ s, Option.Rel List.Perm (m s) (w.members s)

/-- The registry with other member lists. -/
def withMembers (w : QStateRegistry) (m : StateId → Option (List QubitPtr)) :
    QStateRegistry := { w with members := m }

variable {m : StateId → Option (List QubitPtr)}

theorem Reordered.none_iff (hm : w.Reordered m) (s : StateId) :
    m s = none ↔ w.members s = none := by
  have h := hm s
  generalize m s = x at h ⊢
  generalize w.members s = y at h ⊢
  cases h with
  | some _ => exact iff_of_false (Option.some_ne_none _) (Option.some_ne_none _)
  | none => exact iff_of_true rfl rfl

theorem Reordered.perm (hm : w.Reordered m) {s : StateId} {l : List QubitPtr}
    (hl : m s = some l) : ∃ l', w.members s = some l' ∧ l.Perm l' := by
  have h := hm s
  rw [hl] at h
  generalize w.members s = y at h
  cases h with
  | some hp => exact ⟨_, rfl, hp⟩

theorem Reordered.qubitsOf (hm : w.Reordered m) (s : StateId) :
    ((w.withMembers m).qubitsOf s).Perm (w.qubitsOf s) := by
  have h := hm s
  rw [QStateRegistry.qubitsOf, QStateRegistry.qubitsOf]
  change ((m s).getD []).Perm _
  generalize m s = x at h ⊢
  generalize w.members s = y at h ⊢
  cases h with
  | some hp => exact hp
  | none => exact .refl _

theorem Inv.reordered (h : w.Inv) (hm : w.Reordered m) : (w.withMembers m).Inv where
  nextState := h.nextState
  nextQubit := h.nextQubit
  tracked := fun q hq => ⟨(h.tracked q hq).id_pos, (h.tracked q hq).id_lt,
    (h.tracked q hq).located, (h.tracked q hq).byId⟩
  freshId := h.freshId
  index := h.index.of_eq rfl rfl
  key := h.key
  object := h.object
  keys := fun s => (h.keys s).trans (hm.none_iff s).symm
  member := fun s l hl q => by
    obtain ⟨l', hl', hp⟩ := hm.perm hl
    exact hp.mem_iff.trans (h.member s l' hl' q)
  nodup := fun s l hl => by
    obtain ⟨l', hl', hp⟩ := hm.perm hl
    exact hp.nodup_iff.mpr (h.nodup s l' hl')
  home := fun q hq hL => mt (hm.none_iff _).mp (h.home q hq hL)
  indices := fun s p l hs hl => by
    obtain ⟨l', hl', hp⟩ := hm.perm hl
    exact (hp.map _).trans (h.indices s p l' hs hl')
  populated := h.populated

/-- Sorted by index, the members come in one order. -/
theorem Inv.order_reordered (h : w.Inv) (hm : w.Reordered m) {s : StateId}
    (hs : w.states s ≠ none) : (w.withMembers m).order s = w.order s := by
  have hsorted : ∀ {w' : QStateRegistry}, w'.Inv → w'.states s ≠ none →
      w'.qubits = w.qubits → (w'.order s).Pairwise fun x y =>
        (w.qubits x).indexInState < (w.qubits y).indexInState := by
    intro w' hinv hs' hq
    rw [← hq, ← List.pairwise_map (f := fun x => (w'.qubits x).indexInState),
      hinv.map_order hs']
    exact List.pairwise_lt_range
  have hperm : ((w.withMembers m).order s).Perm (w.order s) :=
    ((List.mergeSort_perm _ _).trans (hm.qubitsOf s)).trans (List.mergeSort_perm _ _).symm
  exact hperm.eq_of_pairwise (fun _ _ _ _ hlt hgt => absurd hlt hgt.asymm)
    (hsorted (h.reordered hm) hs rfl) (hsorted h hs rfl)

/-! ## The order of the states -/

/-- A handle at index 0 of a registered state leads it. -/
theorem Inv.leading (h : w.Inv) {s : StateId} (hs : w.states s ≠ none) :
    ∃ q < w.numHandles, (w.qubits q).stateId = s ∧ (w.qubits q).indexInState = 0 ∧
      (w.bucket s).leadingQubitId = (w.qubits q).qubitId := by
  obtain ⟨p, hp⟩ := Option.ne_none_iff_exists'.mp hs
  have hvalue : w.valueOf s = (w.objects p).value := by
    rw [valueOf, hp]
    rfl
  have hmap := h.map_order hs
  have hpos : 0 < (w.valueOf s).numQubits := hvalue ▸ h.populated s p hp
  cases horder : w.order s with
  | nil =>
      rw [horder, List.map_nil] at hmap
      have hlen := congrArg List.length hmap
      rw [List.length_nil, List.length_range] at hlen
      exact absurd hlen.symm hpos.ne'
  | cons q qs =>
      have hq : q ∈ w.qubitsOf s := mem_sortByIndex.mp (horder ▸ List.mem_cons_self)
      obtain ⟨hlt, hstate⟩ := h.mem_qubitsOf_iff.mp hq
      refine ⟨q, hlt, hstate, ?_, ?_⟩
      · rw [horder, List.map_cons, ← Nat.succ_pred_eq_of_pos hpos,
          List.range_succ_eq_map] at hmap
        exact (List.cons.inj hmap).1
      · rw [bucket, show w.sortByIndex (w.qubitsOf s) = q :: qs from horder]
        rfl

/-- It is the only one. -/
theorem Inv.leading_eq (h : w.Inv) {x : QubitPtr} (hx : x < w.numHandles)
    (hzero : (w.qubits x).indexInState = 0) :
    (w.bucket (w.qubits x).stateId).leadingQubitId = (w.qubits x).qubitId := by
  obtain ⟨q, hq, hstate, hindex, hid⟩ := h.leading (h.states_of_handle hx)
  have hgetx := h.order_get hx
  have hgetq := h.order_get hq
  rw [hzero] at hgetx
  rw [hstate, hindex, hgetx] at hgetq
  rw [hid, Option.some.inj hgetq]

/-- The leading ids of two states differ. -/
theorem Inv.leading_inj (h : w.Inv) {s t : StateId} (hs : w.states s ≠ none)
    (ht : w.states t ≠ none)
    (he : (w.bucket s).leadingQubitId = (w.bucket t).leadingQubitId) : s = t := by
  obtain ⟨x, hx, hxs, -, hxid⟩ := h.leading hs
  obtain ⟨y, hy, hyt, -, hyid⟩ := h.leading ht
  have hxy := h.id_inj hx hy (hxid.symm.trans (he.trans hyid))
  rw [← hxs, ← hyt, hxy]

theorem StateBucket.le_iff {a b : StateBucket} : StateBucket.le a b = true ↔
    a.leadingQubitId < b.leadingQubitId ∨
      a.leadingQubitId = b.leadingQubitId ∧ a.sid ≤ b.sid := by
  rw [StateBucket.le]
  split_ifs with hne
  · rw [decide_eq_true_eq]
    exact ⟨fun hle => .inl (lt_of_le_of_ne hle hne),
      Or.rec le_of_lt fun h => absurd h.1 hne⟩
  · rw [decide_eq_true_eq, not_not.mp hne]
    exact ⟨fun hle => .inr ⟨rfl, hle⟩, Or.rec (fun h => absurd h (lt_irrefl _)) And.right⟩

theorem StateBucket.le_trans {a b c : StateBucket} (hab : StateBucket.le a b = true)
    (hbc : StateBucket.le b c = true) : StateBucket.le a c = true := by
  rw [StateBucket.le_iff] at hab hbc ⊢
  rcases hab with hab | ⟨hab, hsid⟩
  · rcases hbc with hbc | ⟨hbc, -⟩
    · exact .inl (hab.trans hbc)
    · exact .inl (hab.trans_eq hbc)
  · rcases hbc with hbc | ⟨hbc, hsid'⟩
    · exact .inl (hab.trans_lt hbc)
    · exact .inr ⟨hab.trans hbc, hsid.trans hsid'⟩

theorem StateBucket.le_total (a b : StateBucket) :
    (StateBucket.le a b || StateBucket.le b a) = true := by
  rw [Bool.or_eq_true, StateBucket.le_iff, StateBucket.le_iff]
  rcases lt_trichotomy a.leadingQubitId b.leadingQubitId with hlt | heq | hgt
  · exact .inl (.inl hlt)
  · rcases Nat.le_total a.sid b.sid with hle | hle
    · exact .inl (.inr ⟨heq, hle⟩)
    · exact .inr (.inr ⟨heq.symm, hle⟩)
  · exact .inr (.inl hgt)

/-- `order` lists the states of the handles `qs`, by the ids of the qubits at index
0. -/
structure MergesIn (w : QStateRegistry) (qs : List QubitPtr) (order : List StateId) :
    Prop where
  nodup : order.Nodup
  mem : ∀ s, s ∈ order ↔ ∃ q ∈ qs, (w.qubits q).stateId = s
  sorted : order.Pairwise fun s t => ∀ x < w.numHandles, ∀ y < w.numHandles,
    (w.qubits x).stateId = s → (w.qubits x).indexInState = 0 →
      (w.qubits y).stateId = t → (w.qubits y).indexInState = 0 →
        (w.qubits x).qubitId < (w.qubits y).qubitId

/-- What `MergeStates` does once the states are in order. -/
noncomputable def mergeInto (w : QStateRegistry) (order : List StateId) :
    Except Exit (Option StatePtr) × QStateRegistry :=
  match order with
  | [s] => (.ok (w.getState s), w)
  | order => w.mergeSorted (order.map w.bucket)

theorem Inv.sorted_order (h : w.Inv) {sids : List StateId} (hd : sids.Nodup)
    (hreg : ∀ s ∈ sids, w.states s ≠ none) :
    ∃ order : List StateId, order.Perm sids ∧
      (sids.map w.bucket).mergeSort StateBucket.le = order.map w.bucket ∧
      order.Pairwise fun s t => ∀ x < w.numHandles, ∀ y < w.numHandles,
        (w.qubits x).stateId = s → (w.qubits x).indexInState = 0 →
          (w.qubits y).stateId = t → (w.qubits y).indexInState = 0 →
            (w.qubits x).qubitId < (w.qubits y).qubitId := by
  obtain ⟨order, hperm, hsorted⟩ := sorted_buckets (w := w) sids
  refine ⟨order, hperm, hsorted, ?_⟩
  have hle := @List.pairwise_mergeSort _ StateBucket.le
    (fun _ _ _ => StateBucket.le_trans) StateBucket.le_total (sids.map w.bucket)
  rw [hsorted, List.pairwise_map] at hle
  refine (hle.and (hperm.nodup_iff.mpr hd)).imp_of_mem fun hs ht hst => ?_
  rintro x hx y hy rfl hxzero rfl hyzero
  rw [← h.leading_eq hx hxzero, ← h.leading_eq hy hyzero]
  rcases StateBucket.le_iff.mp hst.1 with hlt | ⟨heq, -⟩
  · exact hlt
  · exact absurd (h.leading_inj (hreg _ (hperm.mem_iff.mp hs))
      (hreg _ (hperm.mem_iff.mp ht)) heq) hst.2

/-- `MergeStates` on existing handles. -/
theorem Inv.mergeStates_eq (h : w.Inv) {qs : List QubitPtr} (hne : qs ≠ [])
    (hqs : ∀ q ∈ qs, q < w.numHandles) :
    ∃ order, w.MergesIn qs order ∧ w.mergeStates qs = w.mergeInto order := by
  have hnull : ¬ ∃ q ∈ qs, w.numHandles ≤ q := by
    rintro ⟨q, hq, hle⟩
    exact absurd (hqs q hq) (not_lt.mpr hle)
  have hreg : ∀ s ∈ w.stateIdsOf qs, w.states s ≠ none := by
    intro s hs
    obtain ⟨q, hq, rfl⟩ := mem_stateIdsOf.mp hs
    exact h.states_of_handle (hqs q hq)
  have hd : (w.stateIdsOf qs).Nodup := List.nodup_dedup _
  obtain ⟨order, hperm, hbuckets, hsorted⟩ := h.sorted_order hd hreg
  refine ⟨order, ⟨hperm.nodup_iff.mpr hd,
    fun s => hperm.mem_iff.trans mem_stateIdsOf, hsorted⟩, ?_⟩
  rw [mergeStates, if_neg hne, if_neg hnull]
  split
  · next s hs =>
    rw [hs] at hperm
    rw [List.perm_singleton.mp hperm]
    rfl
  · next hmany =>
    have hfold : w.mergeInto order = w.mergeSorted (order.map w.bucket) := by
      unfold mergeInto
      split
      · next s => exact absurd (List.perm_singleton.mp hperm.symm) (hmany s)
      · rfl
    rw [mapM_some fun s hs => bucketOf_eq (hreg s hs), hfold]
    exact congrArg w.mergeSorted hbuckets

theorem MergesIn.registered (h : w.Inv) {qs : List QubitPtr} {order : List StateId}
    (ho : w.MergesIn qs order) (hqs : ∀ q ∈ qs, q < w.numHandles) :
    ∀ s ∈ order, w.states s ≠ none := by
  intro s hs
  obtain ⟨q, hq, rfl⟩ := (ho.mem s).mp hs
  exact h.states_of_handle (hqs q hq)

/-- The set of the states decides on their order. -/
theorem MergesIn.unique (h : w.Inv) {qs qs' : List QubitPtr} {order order' : List StateId}
    (hqs : ∀ q ∈ qs, q < w.numHandles) (ho : w.MergesIn qs order)
    (ho' : w.MergesIn qs' order')
    (hsame : ∀ s, (∃ q ∈ qs', (w.qubits q).stateId = s) ↔
      ∃ q ∈ qs, (w.qubits q).stateId = s) : order' = order := by
  have hmem : ∀ s, s ∈ order' ↔ s ∈ order :=
    fun s => (ho'.mem s).trans ((hsame s).trans (ho.mem s).symm)
  have hperm : order'.Perm order := (List.perm_ext_iff_of_nodup ho'.nodup ho.nodup).mpr hmem
  refine hperm.eq_of_pairwise (fun s t hs ht hst hts => ?_) ho'.sorted ho.sorted
  obtain ⟨x, hx, hxs, hxzero, -⟩ := h.leading (ho.registered h hqs s ((hmem s).mp hs))
  obtain ⟨y, hy, hyt, hyzero, -⟩ := h.leading (ho.registered h hqs t ht)
  exact absurd (hst x hx y hy hxs hxzero hyt hyzero)
    (hts y hy x hx hyt hyzero hxs hxzero).asymm

/-! ## Indices -/

/-- The qubits of the states before `s`. -/
def offset (w : QStateRegistry) (order : List StateId) (s : StateId) : ℕ :=
  ((order.takeWhile (· ≠ s)).map fun t => (w.valueOf t).numQubits).sum

/-- A member stands in its own state's place, at its old index there. -/
theorem Inv.idxOf_qubitsOfAll (h : w.Inv) {q : QubitPtr} (hq : q < w.numHandles)
    {order : List StateId} (hreg : ∀ s ∈ order, w.states s ≠ none)
    (hmem : (w.qubits q).stateId ∈ order) :
    (w.qubitsOfAll order).idxOf q =
      w.offset order (w.qubits q).stateId + (w.qubits q).indexInState := by
  induction order with
  | nil => exact absurd hmem List.not_mem_nil
  | cons s order ih =>
      have hcons : w.qubitsOfAll (s :: order) = w.order s ++ w.qubitsOfAll order :=
        List.flatMap_cons
      rw [hcons, offset, List.takeWhile_cons]
      by_cases hs : s = (w.qubits q).stateId
      · have hin : q ∈ w.order s :=
          mem_sortByIndex.mpr (h.mem_qubitsOf_iff.mpr ⟨hq, hs.symm⟩)
        have hget := h.order_get hq
        rw [← hs] at hget
        obtain ⟨hlt, hget⟩ := List.getElem?_eq_some_iff.mp hget
        have hidx : (w.order s).idxOf q = (w.qubits q).indexInState := by
          conv_lhs => rw [← hget]
          exact (h.nodup_order s).idxOf_getElem _ hlt
        rw [List.idxOf_append_of_mem hin, hidx, if_neg (by simp [hs]), List.map_nil,
          List.sum_nil, Nat.zero_add]
      · have hout : q ∉ w.order s := fun hin =>
          hs (h.mem_qubitsOf_iff.mp (mem_sortByIndex.mp hin)).2.symm
        have hin := (List.mem_cons.mp hmem).resolve_left (Ne.symm hs)
        rw [List.idxOf_append_of_notMem hout, ih (fun t ht => hreg t
          (List.mem_cons_of_mem _ ht)) hin, h.length_order (hreg s List.mem_cons_self),
          if_pos (by simp [hs]), List.map_cons, List.sum_cons, Nat.add_assoc]
        rfl

/-! ## The merged state -/

/-- What merging the states `s :: rest`, in this order, makes of the registry: the
backends refuse, or the state that is returned is the merge of the values in this
order, with each member in its own state's place. -/
def Concatenates (w : QStateRegistry) (s : StateId) (rest : List StateId)
    (x : Except Exit (Option StatePtr) × QStateRegistry) : Prop :=
  (∃ e, mergeValues (w.valueOf s) (rest.map w.valueOf) = .error e ∧ x = (.error e, w)) ∨
  ∃ v p, mergeValues (w.valueOf s) (rest.map w.valueOf) = .ok v ∧ x.1 = .ok (some p) ∧
    (x.2.objects p).value = v ∧
    ∀ q < w.numHandles, (w.qubits q).stateId ∈ s :: rest →
      x.2.states (x.2.qubits q).stateId = some p ∧
      (x.2.qubits q).indexInState =
        w.offset (s :: rest) (w.qubits q).stateId + (w.qubits q).indexInState

theorem Inv.mergeInto_concatenates (h : w.Inv) {s : StateId} {rest : List StateId}
    (hd : (s :: rest).Nodup) (hreg : ∀ t ∈ s :: rest, w.states t ≠ none) :
    w.Concatenates s rest (w.mergeInto (s :: rest)) := by
  cases rest with
  | nil =>
      obtain ⟨p, hp⟩ := Option.ne_none_iff_exists'.mp (hreg s List.mem_cons_self)
      have hvalue : (w.objects p).value = w.valueOf s := by
        rw [valueOf, hp]
        rfl
      refine .inr ⟨w.valueOf s, p, rfl, ?_, hvalue, fun q _ hmem => ?_⟩
      · rw [mergeInto, getState, hp]
      · have hs := List.mem_singleton.mp hmem
        refine ⟨by rw [mergeInto, hs, hp], ?_⟩
        rw [offset, hs, List.takeWhile_cons, if_neg (by simp), List.map_nil, List.sum_nil,
          Nat.zero_add]
        rfl
  | cons t rest =>
      rcases h.mergeSorted_cases hd hreg with ⟨e, hv, hsorted⟩ | ⟨v, hv, hsorted⟩
      · exact .inl ⟨e, hv, hsorted⟩
      · have hall : w.mergeInto (s :: t :: rest) =
            (.ok (some w.numObjects), w.merged (s :: t :: rest) v) := hsorted
        rw [hall]
        refine .inr ⟨v, w.numObjects, hv, rfl, ?_, fun q hq hmem => ?_⟩
        · have hobject : (w.merged (s :: t :: rest) v).objects w.numObjects =
              { ((w.newObject v).2.dropStates (s :: t :: rest)).objects w.numObjects with
                stateId := w.nextStateId } := Function.update_self ..
          rw [hobject]
          exact congrArg StateObject.value (newObject_self v)
        · have hbound : w.bound w.nextStateId 0 (w.qubitsOfAll (s :: t :: rest)) q = _ :=
            bound_of_mem (h.mem_qubitsOfAll.mpr ⟨hq, hmem⟩)
          have hqubit : (w.merged (s :: t :: rest) v).qubits q =
              w.bound w.nextStateId 0 (w.qubitsOfAll (s :: t :: rest)) q := rfl
          rw [hqubit, hbound]
          exact ⟨Function.update_self .., (Nat.zero_add _).trans
            (h.idxOf_qubitsOfAll hq hreg hmem)⟩

/-! ## Calls that name the same states -/

/-- The same result, with the same registry up to the order of the member lists. -/
def SameMerge (x y : Except Exit (Option StatePtr) × QStateRegistry) : Prop :=
  y.1 = x.1 ∧ ∃ m, x.2.Reordered m ∧ y.2 = x.2.withMembers m

theorem Inv.qubitsOfAll_reordered (h : w.Inv) (hm : w.Reordered m) {sids : List StateId}
    (hreg : ∀ s ∈ sids, w.states s ≠ none) :
    (w.withMembers m).qubitsOfAll sids = w.qubitsOfAll sids :=
  List.flatMap_congr fun s hs => h.order_reordered hm (hreg s hs)

theorem Inv.merged_reordered (h : w.Inv) (hm : w.Reordered m) {sids : List StateId}
    (hreg : ∀ s ∈ sids, w.states s ≠ none) (v : QState) :
    ∃ m', (w.merged sids v).Reordered m' ∧
      (w.withMembers m).merged sids v = (w.merged sids v).withMembers m' := by
  refine ⟨Function.update (fun s => if s ∈ sids then none else m s) w.nextStateId
    (some (w.qubitsOfAll sids)), fun s => ?_, ?_⟩
  · have hmembers : (w.merged sids v).members =
        Function.update (fun s => if s ∈ sids then none else w.members s) w.nextStateId
          (some (w.qubitsOfAll sids)) := rfl
    rw [hmembers]
    by_cases hs : s = w.nextStateId
    · rw [hs, Function.update_self, Function.update_self]
      exact .some (.refl _)
    · rw [Function.update_of_ne hs, Function.update_of_ne hs]
      split_ifs
      · exact .none
      · exact hm s
  · rw [merged, addGroup, h.qubitsOfAll_reordered hm hreg]
    rfl

theorem Inv.mergeInto_reordered (h : w.Inv) (hm : w.Reordered m) {s : StateId}
    {rest : List StateId} (hd : (s :: rest).Nodup)
    (hreg : ∀ t ∈ s :: rest, w.states t ≠ none) :
    SameMerge (w.mergeInto (s :: rest)) ((w.withMembers m).mergeInto (s :: rest)) := by
  cases rest with
  | nil => exact ⟨rfl, m, hm, rfl⟩
  | cons t rest =>
      have hsame : SameMerge (w.mergeSorted ((s :: t :: rest).map w.bucket))
          ((w.withMembers m).mergeSorted
            ((s :: t :: rest).map (w.withMembers m).bucket)) := by
        rcases h.mergeSorted_cases hd hreg with ⟨e, hv, hsorted⟩ | ⟨v, hv, hsorted⟩ <;>
          rcases (h.reordered hm).mergeSorted_cases hd hreg with
            ⟨e', hv', hsorted'⟩ | ⟨v', hv', hsorted'⟩
        · obtain rfl := Except.error.inj (hv.symm.trans hv')
          rw [hsorted, hsorted']
          exact ⟨rfl, m, hm, rfl⟩
        · cases hv.symm.trans hv'
        · cases hv.symm.trans hv'
        · obtain rfl := Except.ok.inj (hv.symm.trans hv')
          rw [hsorted, hsorted']
          exact ⟨rfl, h.merged_reordered hm hreg v⟩
      exact hsame

/-- The result of a merge is a function of the set of the states. -/
theorem merge_order_independent {qs : List QubitPtr} (h : Reachable AdoptsFresh w)
    (hne : qs ≠ []) (hqs : ∀ q ∈ qs, q < w.numHandles) :
    (∃ s rest, w.MergesIn qs (s :: rest) ∧ w.Concatenates s rest (w.mergeStates qs)) ∧
    ∀ m qs', w.Reordered m → qs' ≠ [] → (∀ q ∈ qs', q < w.numHandles) →
      (∀ s, (∃ q ∈ qs', (w.qubits q).stateId = s) ↔ ∃ q ∈ qs, (w.qubits q).stateId = s) →
        SameMerge (w.mergeStates qs) ((w.withMembers m).mergeStates qs') := by
  have hinv := reachable_inv h
  obtain ⟨order, ho, hmerge⟩ := hinv.mergeStates_eq hne hqs
  obtain ⟨q₀, hq₀⟩ := List.exists_mem_of_ne_nil qs hne
  obtain ⟨s, rest, rfl⟩ := List.exists_cons_of_ne_nil
    (List.ne_nil_of_mem ((ho.mem _).mpr ⟨q₀, hq₀, rfl⟩))
  have hreg := ho.registered hinv hqs
  refine ⟨⟨s, rest, ho, hmerge ▸ hinv.mergeInto_concatenates ho.nodup hreg⟩, ?_⟩
  intro m qs' hm hne' hqs' hsame
  obtain ⟨order', ho', hmerge'⟩ := (hinv.reordered hm).mergeStates_eq hne' hqs'
  have ho'' : w.MergesIn qs' order' := ⟨ho'.nodup, ho'.mem, ho'.sorted⟩
  obtain rfl := ho.unique hinv hqs ho'' hsame
  rw [hmerge, hmerge']
  exact hinv.mergeInto_reordered hm ho.nodup hreg

/-- Two qubits in two states, one of them named twice. -/
theorem merge_order_independent_two : ∃ w : QStateRegistry,
    (w.qubits 0).stateId ≠ (w.qubits 1).stateId ∧
    (∃ s rest, w.MergesIn [1, 0, 1] (s :: rest) ∧
      w.Concatenates s rest (w.mergeStates [1, 0, 1])) ∧
    ∀ m qs', w.Reordered m → qs' ≠ [] → (∀ q ∈ qs', q < w.numHandles) →
      (∀ s, (∃ q ∈ qs', (w.qubits q).stateId = s) ↔
        ∃ q ∈ [1, 0, 1], (w.qubits q).stateId = s) →
        SameMerge (w.mergeStates [1, 0, 1]) ((w.withMembers m).mergeStates qs') := by
  obtain ⟨w, hrun, -, -, htwo, -, hapart, -⟩ :=
    reachable_pair .Stab (P := AdoptsFresh) trivial fun _ _ => trivial
  refine ⟨w, hapart, merge_order_independent hrun (List.cons_ne_nil _ _) fun q hq => ?_⟩
  rw [htwo]
  revert q
  decide

end Q2NS.QStateRegistry
