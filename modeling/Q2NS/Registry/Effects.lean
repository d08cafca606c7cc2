import Q2NS.Registry.Moves

/-!
# The operations as moves

What the functions of the registry and of the processor do to a registry that
satisfies its invariant, written with the moves.
-/

namespace Q2NS.QStateRegistry

open Loop

variable {w : QStateRegistry} {L : QubitPtr → Prop}

/-! ## Creating states and handles -/

theorem InvExcept.fresh_states (h : w.InvExcept L) :
    w.states w.nextStateId = none := by
  cases hs : w.states w.nextStateId with
  | none => rfl
  | some p => exact absurd (h.key _ p hs).2 (lt_irrefl _)

theorem InvExcept.fresh_members (h : w.InvExcept L) :
    w.members w.nextStateId = none := (h.keys _).mp h.fresh_states

theorem bound_nil (sid : StateId) (k : ℕ) : w.bound sid k [] = w.qubits :=
  funext fun _ => if_neg List.not_mem_nil

theorem createStateFromExisting_eq (hfresh : w.states w.nextStateId = none)
    {p : StatePtr} (hp : p < w.numObjects) :
    w.createStateFromExisting p =
      (⟨w.nextStateId, List.range (w.objects p).value.numQubits⟩,
        w.addGroup p []) := by
  rw [createStateFromExisting, if_neg (not_le.mpr hp)]
  simp only [hfresh, Option.isSome_none, Bool.false_eq_true, if_false,
    setStateId, Function.update_self, addGroup, bound_nil]

theorem createState_eq (h : w.InvExcept L) {n : ℕ} (hn : n ≠ 0) :
    ∃ v, QState.create n w.defaultBackend = .ok v ∧ w.createState n =
      (.ok ⟨w.nextStateId, List.range n⟩,
        (w.newObject v).2.addGroup w.numObjects []) := by
  obtain ⟨v, hv, -⟩ := QState.create_ok hn w.defaultBackend
  refine ⟨v, hv, ?_⟩
  have hfresh : w.qubitsOf w.nextStateId = [] := by
    rw [qubitsOf, h.fresh_members, Option.getD_none]
  have hnext : (w.newObject v).2.bound (w.newObject v).2.nextStateId 0 [] =
      w.qubits := bound_nil _ _
  rw [createState, if_neg hn, addGroup, hnext]
  simp only [hv, newObject, setStateId, qubitsOf, h.fresh_members,
    Option.getD_none, Function.update_self]

/-- Registering a handle that has its id and a location. -/
theorem register_tracked {q : QubitPtr} (h : w.Tracked q) :
    w.register q = { w with
      members := Function.update w.members (w.qubits q).stateId
        (some (if q ∈ w.qubitsOf (w.qubits q).stateId then
          w.qubitsOf (w.qubits q).stateId
          else w.qubitsOf (w.qubits q).stateId ++ [q])) } := by
  rw [register, if_neg h.id_pos.ne']
  simp only [if_neg h.located]

/-- A handle created for a state without members. -/
theorem bindFirst_eq (h : w.InvExcept L) {p : StatePtr} (n : NodeId) {i : ℕ}
    {is : List ℕ} (hi : i = 0) :
    (w.addGroup p []).bindFirst n ⟨w.nextStateId, i :: is⟩ =
      (.ok (some w.numHandles), (w.addHandle n).addGroup p [w.numHandles]) := by
  subst hi
  have hloc : w.location w.nextQubitId = none := h.freshId _ le_rfl
  have hmem : w.numHandles ∉ ([] : List QubitPtr) := List.not_mem_nil
  have hbound : ∀ f : QubitPtr → Qubit, (fun q =>
      if q ∈ [w.numHandles] then
        { Function.update f w.numHandles ⟨w.nextQubitId, 0, 0⟩ q with
          stateId := w.nextStateId
          indexInState := 0 + [w.numHandles].idxOf q }
      else Function.update f w.numHandles ⟨w.nextQubitId, 0, 0⟩ q) =
      Function.update f w.numHandles ⟨w.nextQubitId, w.nextStateId, 0⟩ := by
    intro f
    funext q
    by_cases hq : q = w.numHandles
    · subst hq
      simp
    · simp [hq]
  rw [bindFirst]
  simp only [newHandle, register, setQubitId, setLocationNode, getLocation,
    setLocation, setLocationById, withdrawn, addGroup, addHandle, bound_nil,
    Function.update_self, Function.update_idem, hloc, if_true, qubitsOf,
    Option.getD_some, hmem, if_false, List.nil_append, reduceCtorEq]
  unfold bound
  simp only [hbound]

/-- Two entries written twice. -/
theorem update_pair {α β : Type} [DecidableEq α] (f : α → β) {a b : α}
    (x y x' y' : β) :
    Function.update (Function.update
      (Function.update (Function.update f a x') b y') a x) b y =
      Function.update (Function.update f a x) b y := by
  funext c
  simp only [Function.update_apply]
  split_ifs <;> rfl

/-- The two handles of `CreateBellPair`. -/
theorem bindPair_eq (h : w.InvExcept L) {p : StatePtr} (n : NodeId) :
    ((((((w.addGroup p []).newHandle w.nextStateId 0).2.newHandle
      w.nextStateId 1).2.register w.numHandles).register
        (w.numHandles + 1)).setLocationNode w.numHandles n).setLocationNode
          (w.numHandles + 1) n =
      ((w.addHandle n).addHandle n).addGroup p
        [w.numHandles, w.numHandles + 1] := by
  have hloc₀ : w.location w.nextQubitId = none := h.freshId _ le_rfl
  have hloc₁ : w.location (w.nextQubitId + 1) = none :=
    h.freshId _ (Nat.le_succ _)
  have hbound : ∀ f : QubitPtr → Qubit, (fun q =>
      if q ∈ [w.numHandles, w.numHandles + 1] then
        { f q with
          stateId := w.nextStateId
          indexInState := 0 + [w.numHandles, w.numHandles + 1].idxOf q }
      else f q) =
      Function.update (Function.update f w.numHandles
        ⟨(f w.numHandles).qubitId, w.nextStateId, 0⟩) (w.numHandles + 1)
        ⟨(f (w.numHandles + 1)).qubitId, w.nextStateId, 1⟩ := by
    intro f
    funext q
    by_cases hq₁ : q = w.numHandles + 1
    · subst hq₁
      simp
    · by_cases hq₀ : q = w.numHandles
      · subst hq₀
        simp
      · simp [hq₀, hq₁]
  simp only [newHandle, register, setQubitId, setLocationNode, getLocation,
    setLocation, setLocationById, withdrawn, addGroup, addHandle, bound_nil,
    qubitsOf, hloc₀, hloc₁, Function.update_of_ne, Function.update_self,
    Function.update_idem, ne_eq, Nat.left_eq_add, Nat.add_eq_left, one_ne_zero,
    not_false_eq_true, ↓reduceIte, Option.getD_some, List.not_mem_nil,
    List.nil_append, List.mem_cons, or_self, List.cons_append, reduceCtorEq,
    mk.injEq, true_and]
  refine ⟨?_, update_pair _ _ _ _ _, update_pair _ _ _ _ _⟩
  unfold bound
  rw [hbound, update_pair, update_pair]
  simp

/-! ## Rebinding handles -/

/-- The handles `qs` have been taken out of every member list. -/
def unregistered (w : QStateRegistry) (qs : List QubitPtr) : QStateRegistry :=
  { w with members := fun s => (w.members s).map (·.filter (· ∉ qs)) }

/-- The handles `qs` have moved to the end of the list of `sid`, which was
`pre`. -/
def rebound (w : QStateRegistry) (sid : StateId) (k : ℕ)
    (pre qs : List QubitPtr) : QStateRegistry :=
  { w with
    qubits := w.bound sid k qs
    members := Function.update (w.unregistered qs).members sid (some (pre ++ qs)) }

theorem rebound_tracked {q : QubitPtr} (h : w.Tracked q) (sid : StateId) (k : ℕ)
    (pre qs : List QubitPtr) : (w.rebound sid k pre qs).Tracked q := by
  have hid : ((w.rebound sid k pre qs).qubits q).qubitId =
      (w.qubits q).qubitId := bound_qubitId _ _ _ _
  exact ⟨hid ▸ h.id_pos, hid ▸ h.id_lt, hid ▸ h.located, hid ▸ h.byId⟩

/-- One pass of the loop of `MergeStates`. -/
theorem rebind_eq {q : QubitPtr} (h : w.Tracked q) (hindex : w.IndexOk)
    {sid : StateId} {pre : List QubitPtr} (hpre : w.members sid = some pre)
    (hq : q ∉ pre) (i : ℕ) :
    (((w.unregisterEverywhere q).rebind q sid i).register q).setLocation q
      (w.getLocation q) = w.rebound sid i pre [q] := by
  have hmem : ∀ l : List QubitPtr, l.filter (· ≠ q) = l.filter (· ∉ [q]) :=
    fun l => List.filter_congr fun x _ => by simp
  have hstay : pre.filter (· ≠ q) = pre :=
    List.filter_eq_self.mpr fun x hx => by
      simp only [decide_eq_true_eq]
      rintro rfl
      exact hq hx
  have hself : ((w.unregisterEverywhere q).rebind q sid i).qubits q =
      { w.qubits q with stateId := sid, indexInState := i } :=
    Function.update_self _ _ _
  have htracked : ((w.unregisterEverywhere q).rebind q sid i).Tracked q := by
    refine ⟨?_, ?_, ?_, ?_⟩ <;> rw [hself]
    · exact h.id_pos
    · exact h.id_lt
    · exact h.located
    · exact h.byId
  have hmembers : ((w.unregisterEverywhere q).rebind q sid i).qubitsOf sid =
      pre := by
    have hf : ((w.unregisterEverywhere q).rebind q sid i).members sid =
        (w.members sid).map (·.filter (· ≠ q)) := rfl
    rw [qubitsOf, hf, hpre, Option.map_some, hstay, Option.getD_some]
  have hbound : Function.update w.qubits q
      { w.qubits q with stateId := sid, indexInState := i } =
      w.bound sid i [q] := by
    funext x
    by_cases hx : x = q
    · subst hx
      rw [Function.update_self, bound_of_mem (List.mem_singleton_self _)]
      simp
    · rw [Function.update_of_ne hx, bound_of_not_mem (by simpa using hx)]
  have hregister : ((w.unregisterEverywhere q).rebind q sid i).register q =
      w.rebound sid i pre [q] := by
    have hfun : (fun s => (w.members s).map (·.filter (· ≠ q))) =
        (w.unregistered [q]).members := by
      funext s
      refine congrArg (fun f => (w.members s).map f) (funext fun l => ?_)
      exact hmem l
    rw [register_tracked htracked, hself, hmembers, if_neg hq, rebound,
      ← hbound, ← hfun]
    rfl
  rw [hregister]
  obtain ⟨loc, hloc⟩ := Option.ne_none_iff_exists'.mp h.located
  have hget : w.getLocation q = loc := by
    rw [getLocation, hloc, Option.getD_some]
  have hid : ((w.rebound sid i pre [q]).qubits q).qubitId =
      (w.qubits q).qubitId := bound_qubitId _ _ _ _
  have hindex' : (w.rebound sid i pre [q]).IndexOk := hindex.of_eq rfl rfl
  rw [hget]
  refine setLocation_self hindex' ?_ ?_
  · rw [hid]
    exact h.byId
  · rw [hid]
    exact hloc

/-- Rebinding the first handle and then the others. -/
theorem rebound_cons {sid : StateId} {k : ℕ} {pre qs : List QubitPtr}
    {q : QubitPtr} (hq : q ∉ qs) :
    (w.rebound sid k pre [q]).rebound sid (k + 1) (pre ++ [q]) qs =
      w.rebound sid k pre (q :: qs) := by
  have hqubits : (w.rebound sid k pre [q]).bound sid (k + 1) qs =
      w.bound sid k (q :: qs) := by
    funext x
    by_cases hx : x ∈ qs
    · have hne : q ≠ x := fun he => hq (he ▸ hx)
      rw [bound_of_mem hx, bound_of_mem (List.mem_cons_of_mem _ hx),
        List.idxOf_cons_ne _ hne]
      have hother : (w.rebound sid k pre [q]).qubits x = w.qubits x :=
        bound_of_not_mem (by simpa using hne.symm)
      rw [hother, Nat.succ_eq_add_one, Nat.add_right_comm, Nat.add_assoc]
    · rw [bound_of_not_mem hx]
      by_cases hxq : x = q
      · subst hxq
        have hself : (w.rebound sid k pre [x]).qubits x =
            w.bound sid k [x] x := rfl
        rw [hself, bound_of_mem (List.mem_singleton_self _),
          bound_of_mem List.mem_cons_self, List.idxOf_cons_self,
          List.idxOf_cons_self]
      · have hother : (w.rebound sid k pre [q]).qubits x = w.bound sid k [q] x :=
          rfl
        rw [hother, bound_of_not_mem (by simpa using hxq),
          bound_of_not_mem (by simp [hxq, hx])]
  have hmembers : Function.update
      ((w.rebound sid k pre [q]).unregistered qs).members sid
        (some (pre ++ [q] ++ qs)) =
      Function.update (w.unregistered (q :: qs)).members sid
        (some (pre ++ q :: qs)) := by
    funext s
    by_cases hs : s = sid
    · subst hs
      simp
    · rw [Function.update_of_ne hs, Function.update_of_ne hs]
      have hone : (w.rebound sid k pre [q]).members s =
          (w.members s).map (·.filter (· ∉ [q])) := Function.update_of_ne hs _ _
      simp only [unregistered, hone, Option.map_map]
      refine congrArg (fun f => (w.members s).map f) (funext fun l => ?_)
      rw [Function.comp_apply, List.filter_filter]
      refine List.filter_congr fun x _ => ?_
      by_cases hx : x = q <;> simp [hx]
  rw [rebound, hqubits, hmembers]
  rfl

theorem rebound_nil {sid : StateId} {k : ℕ} {pre : List QubitPtr}
    (hpre : w.members sid = some pre) : w.rebound sid k pre [] = w := by
  have hfun : (w.unregistered []).members = w.members := by
    funext s
    cases hs : w.members s <;> simp [unregistered, hs]
  rw [rebound, bound_nil, hfun, List.append_nil, ← hpre, Function.update_eq_self]

/-- The loop of `MergeStates`. -/
theorem rebindAll_eq {sid : StateId} {qs : List QubitPtr} (hd : qs.Nodup)
    {pre : List QubitPtr} (htracked : ∀ q ∈ qs, w.Tracked q)
    (hindex : w.IndexOk) (hpre : w.members sid = some pre)
    (hdisj : ∀ q ∈ qs, q ∉ pre) (k : ℕ) :
    rebindAll sid qs (List.range' k qs.length) w =
      .ok (w.rebound sid k pre qs) := by
  induction qs generalizing w pre k with
  | nil =>
      rw [rebound_nil hpre]
      rfl
  | cons q qs ih =>
      obtain ⟨hq, hd⟩ := List.nodup_cons.mp hd
      have hone := rebind_eq (htracked q List.mem_cons_self) hindex hpre
        (hdisj q List.mem_cons_self) k
      rw [List.length_cons, List.range'_succ, rebindAll, hone,
        ih hd (fun x hx => rebound_tracked
          (htracked x (List.mem_cons_of_mem _ hx)) _ _ _ _)
          (hindex.of_eq rfl rfl) (Function.update_self _ _ _) ?_ (k + 1),
        rebound_cons hq]
      intro x hx
      rw [List.mem_append, List.mem_singleton]
      rintro (hpre' | rfl)
      · exact hdisj x (List.mem_cons_of_mem _ hx) hpre'
      · exact hq hx

/-! ## Dropped states -/

theorem removeEmpty_eq {sids : List StateId}
    (hempty : ∀ s ∈ sids, w.qubitsOf s = []) :
    w.removeEmpty sids = w.dropStates sids := by
  induction sids generalizing w with
  | nil => simp [removeEmpty, dropStates]
  | cons s sids ih =>
      have hempty' : ∀ s' ∈ sids, (w.removeState s).qubitsOf s' = [] := by
        intro s' hs'
        have hupd : (w.removeState s).members =
            Function.update w.members s none := rfl
        rw [qubitsOf, hupd]
        by_cases he : s' = s
        · rw [he, Function.update_self, Option.getD_none]
        · rw [Function.update_of_ne he]
          exact hempty s' (List.mem_cons_of_mem _ hs')
      have hfold : w.removeEmpty (s :: sids) =
          (w.removeState s).removeEmpty sids := by
        rw [removeEmpty, List.foldl_cons, if_pos (hempty s List.mem_cons_self)]
        rfl
      have hupd : ∀ {α : Type} (f : StateId → Option α), (fun s' =>
          if s' ∈ sids then none else Function.update f s none s') =
          fun s' => if s' ∈ s :: sids then none else f s' := by
        intro α f
        funext s'
        by_cases he : s' = s
        · simp [he]
        · simp [he]
      rw [hfold, ih hempty', dropStates, dropStates]
      simp only [removeState, hupd]

theorem unregistered_members {qs : List QubitPtr} {s : StateId}
    (hout : ∀ l, w.members s = some l → ∀ q ∈ qs, q ∉ l) :
    (w.unregistered qs).members s = w.members s := by
  cases hl : w.members s with
  | none => simp [unregistered, hl]
  | some l =>
      have hf : l.filter (· ∉ qs) = l := List.filter_eq_self.mpr fun x hx => by
        simpa using fun hq => hout l hl x hq hx
      rw [unregistered]
      simp only [hl, Option.map_some, hf]

theorem unregistered_of_not_mem {qs : List QubitPtr}
    (hout : ∀ s l, w.members s = some l → ∀ q ∈ qs, q ∉ l) :
    w.unregistered qs = w := by
  have hmembers : (w.unregistered qs).members = w.members :=
    funext fun s => unregistered_members (hout s)
  exact congrArg (fun m => { w with members := m }) hmembers

/-- Once the members of `sids` are out of every list, the lists of `sids` are
empty and the others as before. -/
theorem unregistered_dropStates {sids : List StateId} {qs : List QubitPtr}
    (hother : ∀ s ∉ sids, ∀ l, w.members s = some l → ∀ q ∈ qs, q ∉ l) :
    (w.unregistered qs).dropStates sids = w.dropStates sids := by
  rw [dropStates, dropStates]
  congr 1
  funext s
  by_cases hs : s ∈ sids
  · rw [if_pos hs, if_pos hs]
  · rw [if_neg hs, if_neg hs, unregistered_members fun l hl => hother s hs l hl]

theorem unregistered_empty {sids : List StateId} {qs : List QubitPtr} {s : StateId}
    (hs : s ∈ sids)
    (hin : ∀ s ∈ sids, ∀ l, w.members s = some l → ∀ q ∈ l, q ∈ qs) :
    (w.unregistered qs).qubitsOf s = [] := by
  cases hl : w.members s with
  | none => simp [qubitsOf, unregistered, hl]
  | some l =>
      have hf : l.filter (· ∉ qs) = [] := List.filter_eq_nil_iff.mpr fun x hx => by
        simpa using hin s hs l hl x hx
      rw [qubitsOf, unregistered]
      simp only [hl, Option.map_some, hf, Option.getD_some]

theorem addGroup_dropStates {sids : List StateId} (hs : w.nextStateId ∉ sids)
    (p : StatePtr) (qs : List QubitPtr) :
    (w.addGroup p qs).dropStates sids = (w.dropStates sids).addGroup p qs := by
  have hupd : ∀ {α : Type} (f : StateId → Option α) (x : Option α), (fun s =>
      if s ∈ sids then none else Function.update f w.nextStateId x s) =
      Function.update (fun s => if s ∈ sids then none else f s)
        w.nextStateId x := by
    intro α f x
    funext s
    by_cases he : s = w.nextStateId
    · subst he
      rw [if_neg hs, Function.update_self, Function.update_self]
    · rw [Function.update_of_ne he, Function.update_of_ne he]
  rw [addGroup, dropStates]
  simp only [hupd]
  rfl

theorem rebound_addGroup {p : StatePtr} (qs : List QubitPtr) :
    (w.addGroup p []).rebound w.nextStateId 0 [] qs =
      (w.unregistered qs).addGroup p qs := by
  have hmembers : Function.update ((w.addGroup p []).unregistered qs).members
      w.nextStateId (some ([] ++ qs)) =
      Function.update (w.unregistered qs).members w.nextStateId (some qs) := by
    funext s
    by_cases he : s = w.nextStateId
    · subst he
      simp
    · rw [Function.update_of_ne he, Function.update_of_ne he]
      have hsame : (w.addGroup p []).members s = w.members s :=
        Function.update_of_ne he _ _
      simp only [unregistered, hsame]
  have hqubits : (w.addGroup p []).bound w.nextStateId 0 qs =
      (w.unregistered qs).bound w.nextStateId 0 qs := by
    have hsame : (w.addGroup p []).qubits = w.qubits :=
      bound_nil w.nextStateId 0
    unfold bound
    rw [hsame]
    rfl
  rw [rebound, hmembers, hqubits]
  rfl

end Q2NS.QStateRegistry
