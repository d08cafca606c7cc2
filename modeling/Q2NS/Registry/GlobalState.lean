import Q2NS.Lib.Naming
import Q2NS.Registry.Operations

/-!
# The global state

The product of all registered states, with each leg named by the handle whose
`stateId` and `indexInState` point at it.  `D` says how a state object is read as
a tensor on its qubits.
-/

namespace Q2NS.QStateRegistry

open NamedTensor Loop Finset

variable {w w' : QStateRegistry} {β : Type} [Inhabited β]

/-- The ids of the registered states. -/
def registered (w : QStateRegistry) : Finset StateId :=
  (range w.nextStateId).filter fun s => (w.states s).isSome

/-- The handle in state `s` with index `i`. -/
def ownerOf (w : QStateRegistry) (s : StateId) (i : ℕ) : Option QubitPtr :=
  (w.qubitsOf s).find? fun q => (w.qubits q).indexInState = i

/-- The legs of state `s`, read through their owners. -/
def legsOf (w : QStateRegistry) (s : StateId) (z : QubitPtr → β) : ℕ → β :=
  fun i => ((w.ownerOf s i).map z).getD default

/-- The factor of state `s`. -/
def factorOf (D : QState → (ℕ → β) → ℂ) (w : QStateRegistry) (s : StateId)
    (z : QubitPtr → β) : ℂ := D (w.valueOf s) (w.legsOf s z)

/-- The tensor product of all registered states. -/
def globalOf (D : QState → (ℕ → β) → ℂ) (w : QStateRegistry) :
    (QubitPtr → β) → ℂ := fun z => ∏ s ∈ w.registered, factorOf D w s z

/-! ## Members in the order of their indices -/

/-- The members of `s` in the order of their indices. -/
abbrev order (w : QStateRegistry) (s : StateId) : List QubitPtr :=
  w.sortByIndex (w.qubitsOf s)

theorem Inv.mem_registered (h : w.Inv) {s : StateId} :
    s ∈ w.registered ↔ w.states s ≠ none := by
  rw [registered, mem_filter, mem_range, Option.isSome_iff_ne_none]
  refine ⟨And.right, fun hs => ⟨?_, hs⟩⟩
  obtain ⟨p, hp⟩ := Option.ne_none_iff_exists'.mp hs
  exact (h.key s p hp).2

theorem Inv.map_order (h : w.Inv) {s : StateId} (hs : w.states s ≠ none) :
    (w.order s).map (fun q => (w.qubits q).indexInState) =
      List.range (w.valueOf s).numQubits := by
  obtain ⟨p, hp⟩ := Option.ne_none_iff_exists'.mp hs
  obtain ⟨l, hl⟩ := Option.ne_none_iff_exists'.mp (mt (h.keys s).mpr hs)
  have hperm : (w.order s).Perm (w.qubitsOf s) := List.mergeSort_perm _ _
  have hindices := h.indices s p l hp hl
  have hval : w.valueOf s = (w.objects p).value := by
    rw [valueOf, hp]
    rfl
  have hl' : w.qubitsOf s = l := by
    rw [qubitsOf, hl]
    rfl
  rw [hval]
  rw [hl'] at hperm
  refine ((hperm.map _).trans hindices).eq_of_pairwise'
    (r := (· ≤ ·)) ?_ List.pairwise_le_range
  rw [List.pairwise_map]
  have hsorted := @List.pairwise_mergeSort _
    (fun x y => decide ((w.qubits x).indexInState ≤ (w.qubits y).indexInState))
    (fun a b c hab hbc => by
      simp only [decide_eq_true_eq] at hab hbc ⊢
      exact hab.trans hbc)
    (fun a b => by
      simp only [Bool.or_eq_true, decide_eq_true_eq]
      exact le_total _ _) (w.qubitsOf s)
  exact hsorted.imp fun hle => by simpa using hle

theorem Inv.nodup_order (h : w.Inv) (s : StateId) : (w.order s).Nodup :=
  (List.mergeSort_perm _ _).nodup_iff.mpr (h.nodup_qubitsOf s)

theorem Inv.length_order (h : w.Inv) {s : StateId} (hs : w.states s ≠ none) :
    (w.order s).length = (w.valueOf s).numQubits := by
  rw [order, sortByIndex, List.length_mergeSort, h.length_qubitsOf hs]

/-- A handle sits at its index. -/
theorem Inv.order_get (h : w.Inv) {q : QubitPtr} (hq : q < w.numHandles) :
    (w.order (w.qubits q).stateId)[(w.qubits q).indexInState]? = some q := by
  have hs := h.states_of_handle hq
  have hmap := h.map_order hs
  have hmem : q ∈ w.order (w.qubits q).stateId :=
    mem_sortByIndex.mpr (h.mem_qubitsOf_iff.mpr ⟨hq, rfl⟩)
  obtain ⟨i, hi, hget⟩ := List.getElem_of_mem hmem
  have hidx : (w.qubits q).indexInState = i := by
    have hi' : ((w.order (w.qubits q).stateId).map
        fun q => (w.qubits q).indexInState)[i]? = some i := by
      rw [hmap, List.getElem?_range (by rw [← h.length_order hs]; exact hi)]
    rw [List.getElem?_map, List.getElem?_eq_getElem hi, hget, Option.map_some,
      Option.some.injEq] at hi'
    exact hi'
  rw [hidx, List.getElem?_eq_getElem hi, hget]

theorem Inv.index_lt (h : w.Inv) {q : QubitPtr} (hq : q < w.numHandles) :
    (w.qubits q).indexInState < (w.valueOf (w.qubits q).stateId).numQubits := by
  rw [← h.length_order (h.states_of_handle hq)]
  exact (List.getElem?_eq_some_iff.mp (h.order_get hq)).1

/-- The owners of the legs are the members in order. -/
theorem Inv.ownerOf_eq (h : w.Inv) {s : StateId} (hs : w.states s ≠ none)
    (i : ℕ) : w.ownerOf s i = (w.order s)[i]? := by
  have hmem : ∀ {q}, q ∈ w.order s ↔ q ∈ w.qubitsOf s := mem_sortByIndex
  have hget : ∀ q ∈ w.qubitsOf s,
      (w.order s)[(w.qubits q).indexInState]? = some q := by
    intro q hq
    obtain ⟨hlt, rfl⟩ := h.mem_qubitsOf_iff.mp hq
    exact h.order_get hlt
  cases hfind : w.ownerOf s i with
  | some q =>
      have hq := List.mem_of_find?_eq_some hfind
      have hi := List.find?_some hfind
      rw [decide_eq_true_eq] at hi
      rw [← hi, hget q hq]
  | none =>
      have hno := List.find?_eq_none.mp hfind
      cases hget' : (w.order s)[i]? with
      | none => rfl
      | some q =>
          have hq : q ∈ w.qubitsOf s := hmem.mp (List.mem_of_getElem? hget')
          have hlt := (List.getElem?_eq_some_iff.mp hget').1
          have hsame := (hget q hq).trans hget'.symm
          have hidx : (w.qubits q).indexInState = i :=
            (List.getElem?_inj (List.getElem?_eq_some_iff.mp (hget q hq)).1
              (h.nodup_order s)).mp hsame
          exact absurd (decide_eq_true hidx) (hno q hq)

theorem Inv.legsOf_eq (h : w.Inv) {s : StateId} (hs : w.states s ≠ none) :
    (w.legsOf s : (QubitPtr → β) → ℕ → β) = named (w.order s) := by
  funext z i
  rw [legsOf, h.ownerOf_eq hs, named]

theorem Inv.factorOf_eq (h : w.Inv) (D : QState → (ℕ → β) → ℂ) {s : StateId}
    (hs : w.states s ≠ none) :
    factorOf D w s = fun z => D (w.valueOf s) (named (w.order s) z) := by
  funext z
  rw [factorOf, h.legsOf_eq hs]

/-! ## States that an operation does not touch -/

/-- State `s` is the same in both registries, with its object, its members and
their indices. -/
structure Untouched (w w' : QStateRegistry) (s : StateId) : Prop where
  states : w'.states s = w.states s
  members : w'.members s = w.members s
  object : ∀ p, w.states s = some p → w'.objects p = w.objects p
  handles : ∀ q ∈ w.qubitsOf s, w'.qubits q = w.qubits q

theorem Untouched.refl (w : QStateRegistry) (s : StateId) : w.Untouched w s :=
  ⟨rfl, rfl, fun _ _ => rfl, fun _ _ => rfl⟩

theorem Untouched.qubitsOf {s : StateId} (h : w.Untouched w' s) :
    w'.qubitsOf s = w.qubitsOf s := by
  rw [QStateRegistry.qubitsOf, h.members, QStateRegistry.qubitsOf]

theorem Untouched.trans {w'' : QStateRegistry} {s : StateId}
    (h : w.Untouched w' s) (h' : w'.Untouched w'' s) : w.Untouched w'' s where
  states := h'.states.trans h.states
  members := h'.members.trans h.members
  object := fun p hp => (h'.object p (h.states ▸ hp)).trans (h.object p hp)
  handles := fun q hq => (h'.handles q (h.qubitsOf ▸ hq)).trans (h.handles q hq)

theorem Untouched.valueOf {s : StateId} (h : w.Untouched w' s)
    (hs : w.states s ≠ none) : w'.valueOf s = w.valueOf s := by
  obtain ⟨p, hp⟩ := Option.ne_none_iff_exists'.mp hs
  have hobj := h.object p hp
  rw [QStateRegistry.valueOf, QStateRegistry.valueOf, h.states, hp]
  exact congrArg StateObject.value hobj

theorem Untouched.ownerOf {s : StateId} (h : w.Untouched w' s) (i : ℕ) :
    w'.ownerOf s i = w.ownerOf s i := by
  rw [QStateRegistry.ownerOf, QStateRegistry.ownerOf, h.qubitsOf]
  exact List.find?_congr fun q hq => by rw [h.handles q hq]

theorem Untouched.factorOf {s : StateId} (h : w.Untouched w' s)
    (hs : w.states s ≠ none) (D : QState → (ℕ → β) → ℂ) :
    factorOf D w' s = factorOf D w s := by
  funext z
  have hlegs : w'.legsOf s z = w.legsOf s z := by
    funext i
    rw [legsOf, legsOf, h.ownerOf]
  rw [QStateRegistry.factorOf, QStateRegistry.factorOf, h.valueOf hs, hlegs]

theorem untouched_newObject {v : QState} {s : StateId}
    (hs : ∀ p, w.states s = some p → p < w.numObjects) :
    w.Untouched (w.newObject v).2 s :=
  ⟨rfl, rfl, fun p hp => newObject_objects (hs p hp), fun _ _ => rfl⟩

theorem untouched_setValue {p : StatePtr} {v : QState} {s : StateId}
    (hs : w.states s ≠ some p) : w.Untouched (w.setValue p v) s :=
  ⟨rfl, rfl, fun p' hp' => Function.update_of_ne
    (fun he : p' = p => hs (he ▸ hp')) _ _, fun _ _ => rfl⟩

theorem untouched_dropStates {sids : List StateId} {s : StateId}
    (hs : s ∉ sids) : w.Untouched (w.dropStates sids) s :=
  ⟨if_neg hs, if_neg hs, fun _ _ => rfl, fun _ _ => rfl⟩

theorem untouched_addGroup {p : StatePtr} {qs : List QubitPtr} {s : StateId}
    (hs : s ≠ w.nextStateId) (hp : w.states s ≠ some p)
    (hqs : ∀ q ∈ w.qubitsOf s, q ∉ qs) : w.Untouched (w.addGroup p qs) s :=
  ⟨Function.update_of_ne hs _ _, Function.update_of_ne hs _ _,
    fun _ hp' => addGroup_objects fun he => hp (he ▸ hp'),
    fun q hq => bound_of_not_mem (hqs q hq)⟩

theorem Inv.untouched_merged (h : w.Inv) {sids : List StateId} {s : StateId}
    (hreg : w.states s ≠ none) (hs : s ∉ sids) (v : QState) :
    w.Untouched (w.merged sids v) s := by
  obtain ⟨p, hp⟩ := Option.ne_none_iff_exists'.mp hreg
  have hlt := (h.object s p hp).1
  have hdrop : w.Untouched ((w.newObject v).2.dropStates sids) s :=
    (untouched_newObject fun p' hp' => (h.object s p' hp').1).trans
      (untouched_dropStates hs)
  refine hdrop.trans (untouched_addGroup (h.key s p hp).2.ne ?_ fun q hq => ?_)
  · rw [hdrop.states, hp, ne_eq, Option.some.injEq]
    exact hlt.ne
  · rw [hdrop.qubitsOf, h.mem_qubitsOf_iff] at hq
    intro hqs
    exact hs (hq.2 ▸ (h.mem_qubitsOfAll.mp hqs).2)

theorem Inv.untouched_measured (h : w.Inv) {s s' : StateId} {q : QubitPtr}
    (hqs : (w.qubits q).stateId = s)
    (hreg : w.states s' ≠ none) (hs : s' ≠ s) (r : MeasureResult QState) :
    w.Untouched (w.measured s q r) s' := by
  obtain ⟨p, hp⟩ := Option.ne_none_iff_exists'.mp hreg
  have hlt := (h.object s' p hp).1
  have hkey := (h.key s' p hp).2
  have hout : ∀ x ∈ w.qubitsOf s', (w.qubits x).stateId ≠ s := fun x hx he =>
    hs ((h.mem_qubitsOf_iff.mp hx).2.symm.trans he)
  have hdrop : w.Untouched ((w.newObject r.measured).2.dropStates [s]) s' :=
    (untouched_newObject fun p' hp' => (h.object s' p' hp').1).trans
      (untouched_dropStates (mt List.mem_singleton.mp hs))
  have hfirst : w.Untouched (((w.newObject r.measured).2.dropStates
      [s]).addGroup w.numObjects [q]) s' := by
    refine hdrop.trans (untouched_addGroup hkey.ne ?_ fun x hx => ?_)
    · rw [hdrop.states, hp, ne_eq, Option.some.injEq]
      exact hlt.ne
    · rw [hdrop.qubitsOf] at hx
      intro hxq
      exact hout x hx (List.mem_singleton.mp hxq ▸ hqs)
  rw [measured]
  split_ifs
  · have hsecond := hfirst.trans (untouched_newObject (v := r.survivors)
      fun p' hp' => Nat.lt_succ_of_lt (h.object s' p' (hfirst.states ▸ hp')).1)
    refine hsecond.trans (untouched_addGroup (Nat.lt_succ_of_lt hkey).ne ?_
      fun x hx => ?_)
    · rw [hsecond.states, hp, ne_eq, Option.some.injEq]
      exact (Nat.lt_succ_of_lt hlt).ne
    · rw [hsecond.qubitsOf] at hx
      exact fun hxs => hout x hx (h.mem_survivorsOf.mp hxs).2.1
  · exact hfirst

/-! ## Merging does not change the global state -/

/-- Objects that satisfy `Ok` are read by `D` as tensors on their qubits, and a
merge is read as the tensor product. -/
structure Reading (Ok : QState → Prop) (D : QState → (ℕ → β) → ℂ) : Prop where
  dependsOn : ∀ {v}, Ok v → DependsOn (D v) (Set.Iio v.numQubits)
  merge : ∀ {u v m}, Ok u → Ok v → u.mergeDisjoint v = .ok m →
    Ok m ∧ ∀ y, D m y = D u y * D v fun i => y (u.numQubits + i)

/-- All registered states satisfy `Ok`. -/
def AllStates (Ok : QState → Prop) (w : QStateRegistry) : Prop :=
  ∀ s p, w.states s = some p → Ok (w.objects p).value

theorem AllStates.valueOf {Ok : QState → Prop} (h : AllStates Ok w) {s : StateId}
    (hs : w.states s ≠ none) : Ok (w.valueOf s) := by
  obtain ⟨p, hp⟩ := Option.ne_none_iff_exists'.mp hs
  rw [QStateRegistry.valueOf, hp]
  exact h s p hp

variable {Ok : QState → Prop} {D : QState → (ℕ → β) → ℂ}

/-- A merged value, read on the names of its parts one after the other. -/
theorem Reading.mergeValues (hD : Reading Ok D) {u m : QState}
    {l : List QubitPtr} {rest : List StateId} (hu : Ok u)
    (hl : l.length = u.numQubits)
    (hrest : ∀ s ∈ rest, Ok (w.valueOf s) ∧
      (w.order s).length = (w.valueOf s).numQubits)
    (hm : QStateRegistry.mergeValues u (rest.map w.valueOf) = .ok m)
    (z : QubitPtr → β) :
    Ok m ∧ D m (named (l ++ w.qubitsOfAll rest) z) = D u (named l z) *
      (rest.map fun s => D (w.valueOf s) (named (w.order s) z)).prod := by
  induction rest generalizing u l with
  | nil =>
      obtain rfl := Except.ok.inj hm
      refine ⟨hu, ?_⟩
      rw [qubitsOfAll, List.flatMap_nil, List.append_nil, List.map_nil,
        List.prod_nil, mul_one]
  | cons s rest ih =>
      rw [QStateRegistry.mergeValues, List.map_cons, List.foldlM_cons] at hm
      obtain ⟨m₁, hm₁, hm⟩ := bind_eq_ok.mp hm
      obtain ⟨hs, hlen⟩ := hrest s List.mem_cons_self
      obtain ⟨hok₁, hread⟩ := hD.merge hu hs hm₁
      have hl₁ : (l ++ w.order s).length = m₁.numQubits := by
        rw [List.length_append, hl, hlen, QState.mergeDisjoint_numQubits hm₁]
      obtain ⟨hok, hall⟩ := ih hok₁ hl₁
        (fun s' hs' => hrest s' (List.mem_cons_of_mem _ hs')) hm
      refine ⟨hok, ?_⟩
      have hu' := hD.dependsOn hu
      rw [← hl] at hu'
      rw [List.append_assoc] at hall
      rw [qubitsOfAll, List.flatMap_cons, ← qubitsOfAll, hall, hread,
        apply_named_append hu', ← hl, List.map_cons, List.prod_cons, mul_assoc]
      simp only [named_append_right]

/-- The members of a new group are its qubits in order. -/
theorem addGroup_order {p : StatePtr} {qs : List QubitPtr} (hd : qs.Nodup) :
    (w.addGroup p qs).order w.nextStateId = qs := by
  have hmembers : (w.addGroup p qs).qubitsOf w.nextStateId = qs := by
    have hself : (w.addGroup p qs).members w.nextStateId = some qs :=
      Function.update_self _ _ _
    rw [qubitsOf, hself, Option.getD_some]
  rw [order, hmembers]
  refine List.mergeSort_of_pairwise ?_
  have hsorted : (qs.map fun q =>
      ((w.addGroup p qs).qubits q).indexInState).Pairwise (· ≤ ·) :=
    (map_bound (w := w) hd).symm ▸ List.pairwise_le_range
  rw [List.pairwise_map] at hsorted
  exact hsorted.imp fun hle => by simpa using hle

theorem addGroup_value (p p' : StatePtr) (qs : List QubitPtr) :
    ((w.addGroup p qs).objects p').value = (w.objects p').value := by
  by_cases hne : p' = p
  · have hself : (w.addGroup p qs).objects p =
        { w.objects p with stateId := w.nextStateId } := Function.update_self _ _ _
    rw [hne, hself]
  · rw [addGroup_objects hne]

theorem addGroup_valueOf (p : StatePtr) (qs : List QubitPtr) :
    (w.addGroup p qs).valueOf w.nextStateId = (w.objects p).value := by
  have hself : (w.addGroup p qs).states w.nextStateId = some p :=
    Function.update_self _ _ _
  rw [QStateRegistry.valueOf, hself, Option.getD_some, addGroup_value]

/-- The factor of a new state. -/
theorem factorOf_addGroup {p : StatePtr} {qs : List QubitPtr} (hd : qs.Nodup)
    (h : Inv (w.addGroup p qs)) (z : QubitPtr → β) :
    QStateRegistry.factorOf D (w.addGroup p qs) w.nextStateId z =
      D (w.objects p).value (named qs z) := by
  have hs : (w.addGroup p qs).states w.nextStateId ≠ none := by
    have hself : (w.addGroup p qs).states w.nextStateId = some p :=
      Function.update_self _ _ _
    rw [hself]
    exact Option.some_ne_none p
  rw [h.factorOf_eq D hs, addGroup_order hd, addGroup_valueOf]

theorem Inv.registered_merged (h : w.Inv) {sids : List StateId} {v : QState}
    (hinv : Inv (w.merged sids v)) :
    (w.merged sids v).registered =
      insert w.nextStateId (w.registered \ sids.toFinset) := by
  ext s
  have hstates : (w.merged sids v).states =
      Function.update (fun s => if s ∈ sids then none else w.states s)
        w.nextStateId (some w.numObjects) := rfl
  rw [hinv.mem_registered, mem_insert, mem_sdiff, h.mem_registered,
    List.mem_toFinset, hstates]
  by_cases hs : s = w.nextStateId
  · subst hs
    simp
  · rw [Function.update_of_ne hs]
    by_cases hmem : s ∈ sids <;> simp [hs, hmem]

/-- Replacing states by their merge leaves the global state as it is. -/
theorem Inv.globalOf_merged (h : w.Inv) (hD : Reading Ok D)
    (hall : AllStates Ok w) {s : StateId} {rest : List StateId}
    (hd : (s :: rest).Nodup) (hreg : ∀ s' ∈ s :: rest, w.states s' ≠ none)
    {v : QState}
    (hv : QStateRegistry.mergeValues (w.valueOf s) (rest.map w.valueOf) = .ok v) :
    globalOf D (w.merged (s :: rest) v) = globalOf D w := by
  have hlen := h.mergeValues_length hreg hv
  have hinv := h.merged_inv (List.cons_ne_nil s rest) hd hreg hlen
  have hsub : (s :: rest).toFinset ⊆ w.registered := fun s' hs' =>
    h.mem_registered.mpr (hreg s' (List.mem_toFinset.mp hs'))
  have hnew : w.nextStateId ∉ w.registered \ (s :: rest).toFinset := fun hs =>
    h.mem_registered.mp (mem_sdiff.mp hs).1 h.fresh_states
  funext z
  rw [globalOf, globalOf, h.registered_merged hinv, prod_insert hnew,
    ← prod_sdiff hsub, mul_comm]
  congr 1
  · refine prod_congr rfl fun s' hs' => ?_
    obtain ⟨hin, hout⟩ := mem_sdiff.mp hs'
    have hreg' := h.mem_registered.mp hin
    rw [(h.untouched_merged hreg' (fun hx => hout (List.mem_toFinset.mpr hx))
      v).factorOf hreg' D]
  · have hparts := (hD.mergeValues (l := w.order s)
      (hall.valueOf (hreg s List.mem_cons_self))
      (h.length_order (hreg s List.mem_cons_self))
      (fun s' hs' => ⟨hall.valueOf (hreg s' (List.mem_cons_of_mem _ hs')),
        h.length_order (hreg s' (List.mem_cons_of_mem _ hs'))⟩) hv z).2
    have hnext := factorOf_addGroup (D := D)
      (w := (w.newObject v).2.dropStates (s :: rest)) (p := w.numObjects)
      (h.nodup_qubitsOfAll hd) hinv z
    have hobj : (((w.newObject v).2.dropStates (s :: rest)).objects
        w.numObjects).value = v := congrArg StateObject.value (newObject_self v)
    rw [hobj] at hnext
    rw [List.prod_toFinset _ hd, List.map_cons, List.prod_cons]
    refine hnext.trans (hparts.trans ?_)
    congr 1
    · rw [h.factorOf_eq D (hreg s List.mem_cons_self)]
    · refine congrArg List.prod (List.map_congr_left fun s' hs' => ?_)
      rw [h.factorOf_eq D (hreg s' (List.mem_cons_of_mem _ hs'))]

/-! ## Changing one state in place -/

theorem length_targetsOf (w : QStateRegistry) (qs : List QubitPtr) :
    (w.targetsOf qs).length = qs.length := List.length_map _

/-- The handles `qs` as names of the legs that `Apply` acts on. -/
def namesOf (w : QStateRegistry) (qs : List QubitPtr)
    (a : Fin (w.targetsOf qs).length) : QubitPtr :=
  qs.get (a.cast (w.length_targetsOf qs))

theorem Inv.order_targets (h : w.Inv) {s : StateId} {qs : List QubitPtr}
    (hqs : ∀ q ∈ qs, q < w.numHandles ∧ (w.qubits q).stateId = s)
    (a : Fin (w.targetsOf qs).length) :
    (w.order s)[Qpp.legs (w.targetsOf qs) a]? = some (w.namesOf qs a) := by
  have hmem : w.namesOf qs a ∈ qs := List.get_mem _ _
  obtain ⟨hlt, rfl⟩ := hqs _ hmem
  have hidx : Qpp.legs (w.targetsOf qs) a =
      (w.qubits (w.namesOf qs a)).indexInState := by
    rw [Qpp.legs, List.get_eq_getElem]
    simp only [targetsOf, List.getElem_map]
    rfl
  rw [hidx]
  exact h.order_get hlt

/-- Different handles of a state have different indices. -/
theorem Inv.targets_nodup (h : w.Inv) {s : StateId} {qs : List QubitPtr}
    (hd : qs.Nodup)
    (hqs : ∀ q ∈ qs, q < w.numHandles ∧ (w.qubits q).stateId = s) :
    (w.targetsOf qs).Nodup := by
  refine List.Nodup.map_on (fun q hq q' hq' he => ?_) hd
  obtain ⟨hlt, hs⟩ := hqs q hq
  obtain ⟨hlt', hs'⟩ := hqs q' hq'
  have hget := h.order_get hlt
  rw [hs, he, ← hs', h.order_get hlt'] at hget
  exact (Option.some.inj hget).symm

theorem Inv.targets_lt (h : w.Inv) {s : StateId} {p : StatePtr}
    (hp : w.states s = some p) {qs : List QubitPtr}
    (hqs : ∀ q ∈ qs, q < w.numHandles ∧ (w.qubits q).stateId = s) :
    ∀ t ∈ w.targetsOf qs, t < (w.objects p).value.numQubits := by
  intro t ht
  obtain ⟨q, hq, rfl⟩ := List.mem_map.mp ht
  obtain ⟨hlt, rfl⟩ := hqs q hq
  have hidx := h.index_lt hlt
  rwa [valueOf, hp] at hidx

/-- An operator on some legs of one state is the operator on the names of these
legs in the global state. -/
theorem Inv.globalOf_setValue [Fintype β] (h : w.Inv) {s : StateId}
    {p : StatePtr} (hp : w.states s = some p) {qs : List QubitPtr}
    (hd : qs.Nodup)
    (hqs : ∀ q ∈ qs, q < w.numHandles ∧ (w.qubits q).stateId = s)
    {K : (Fin (w.targetsOf qs).length → β) →
      (Fin (w.targetsOf qs).length → β) → ℂ} {v : QState}
    (hn : v.numQubits = (w.objects p).value.numQubits)
    (hv : D v = actOn K (Qpp.legs (w.targetsOf qs)) (D (w.objects p).value)) :
    globalOf D (w.setValue p v) = actOn K (w.namesOf qs) (globalOf D w) := by
  have hs : w.states s ≠ none := hp ▸ Option.some_ne_none p
  have hinv := (h.setValue_keeps (p := p) hn).inv
  have hmem : s ∈ w.registered := h.mem_registered.mpr hs
  have hinj := Qpp.legs_injective (h.targets_nodup hd hqs)
  have hvalue : (w.setValue p v).valueOf s = v := by
    have hstates : (w.setValue p v).states s = some p := hp
    have hobj : (w.setValue p v).objects p = { w.objects p with value := v } :=
      Function.update_self _ _ _
    rw [QStateRegistry.valueOf, hstates, Option.getD_some, hobj]
  have hold : w.valueOf s = (w.objects p).value := by
    rw [QStateRegistry.valueOf, hp]
    rfl
  -- the other factors do not read the names
  have hother : ∀ z u, ∏ s' ∈ w.registered.erase s,
      factorOf D w s' (patch (w.namesOf qs) u z) =
      ∏ s' ∈ w.registered.erase s, factorOf D w s' z := by
    intro z u
    refine prod_congr rfl fun s' hs' => ?_
    obtain ⟨hne, hin⟩ := mem_erase.mp hs'
    rw [h.factorOf_eq D (h.mem_registered.mp hin)]
    refine congrArg (D (w.valueOf s')) (named_congr fun q hq => patch_other ?_ u z)
    intro a ha
    have hq' := (h.mem_qubitsOf_iff.mp (mem_sortByIndex.mp hq)).2
    have ha' := (hqs (w.namesOf qs a) (List.get_mem _ _)).2
    rw [ha, hq'] at ha'
    exact hne ha'
  have hglobal : globalOf D w = fun z => factorOf D w s z *
      ∏ s' ∈ w.registered.erase s, factorOf D w s' z :=
    funext fun z => (mul_prod_erase _ _ hmem).symm
  funext z
  rw [hglobal, actOn_mul z (hother z)]
  have hreg : (w.setValue p v).registered = w.registered := rfl
  rw [globalOf, hreg, ← mul_prod_erase _ _ hmem]
  congr 1
  · rw [hinv.factorOf_eq D hs, h.factorOf_eq D hs, hvalue, hold]
    have hact := actOn_named (K := K) (D (w.objects p).value) (h.nodup_order s)
      hinj (h.order_targets hqs) z
    rw [← hv] at hact
    exact hact.symm
  · refine prod_congr rfl fun s' hs' => ?_
    obtain ⟨hne, hin⟩ := mem_erase.mp hs'
    have hsame : w.Untouched (w.setValue p v) s' :=
      untouched_setValue fun hp' => hne (h.states_inj hp' hp)
    rw [hsame.factorOf (h.mem_registered.mp hin) D]

end Q2NS.QStateRegistry
