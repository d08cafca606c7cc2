import Q2NS.Registry.Locations

/-!
# Registrations

Every registration of a state takes the next id.  Here are the ids that the functions of
the registry take, and the functions that take none.
-/

namespace Q2NS.QStateRegistry

open Loop

variable {w w' : QStateRegistry}

/-! ## Ids -/

/-- No id is taken, and no state appears. -/
structure Quiet (w w' : QStateRegistry) : Prop where
  next : w'.nextStateId = w.nextStateId
  states : ∀ s, w'.states s ≠ none → w.states s ≠ none

/-- Ids are taken in order, and a state that appears has one that was taken. -/
structure Grows (w w' : QStateRegistry) : Prop where
  next : w.nextStateId ≤ w'.nextStateId
  states : ∀ s, w'.states s ≠ none →
    w.states s ≠ none ∨ w.nextStateId ≤ s ∧ s < w'.nextStateId

/-- The ids taken between `w` and `w'`, in order. -/
def taken (w w' : QStateRegistry) : List StateId :=
  List.range' w.nextStateId (w'.nextStateId - w.nextStateId)

theorem Quiet.of_eq (hn : w'.nextStateId = w.nextStateId) (hs : w'.states = w.states) :
    w.Quiet w' :=
  ⟨hn, fun _ h => hs ▸ h⟩

theorem Quiet.refl (w : QStateRegistry) : w.Quiet w := .of_eq rfl rfl

theorem Quiet.trans {w'' : QStateRegistry} (h : w.Quiet w') (h' : w'.Quiet w'') :
    w.Quiet w'' :=
  ⟨h'.next.trans h.next, fun s hs => h.states s (h'.states s hs)⟩

theorem Quiet.grows (h : w.Quiet w') : w.Grows w' :=
  ⟨h.next.ge, fun s hs => .inl (h.states s hs)⟩

theorem Grows.refl (w : QStateRegistry) : w.Grows w := (Quiet.refl w).grows

theorem Grows.trans {w'' : QStateRegistry} (h : w.Grows w') (h' : w'.Grows w'') :
    w.Grows w'' where
  next := h.next.trans h'.next
  states := fun s hs => by
    rcases h'.states s hs with hs | ⟨hle, hlt⟩
    · exact (h.states s hs).imp_right fun hs => ⟨hs.1, hs.2.trans_le h'.next⟩
    · exact .inr ⟨h.next.trans hle, hlt⟩

theorem mem_taken {s : StateId} (h : w.nextStateId ≤ w'.nextStateId) :
    s ∈ taken w w' ↔ w.nextStateId ≤ s ∧ s < w'.nextStateId := by
  rw [taken, List.mem_range'_1, Nat.add_sub_cancel' h]

theorem nodup_taken (w w' : QStateRegistry) : (taken w w').Nodup :=
  List.nodup_range'

theorem Quiet.taken_nil (h : w.Quiet w') : taken w w' = [] := by
  rw [taken, h.next, Nat.sub_self, List.range'_zero]

theorem taken_one (h : w'.nextStateId = w.nextStateId + 1) :
    taken w w' = [w.nextStateId] := by
  rw [taken, h, Nat.add_sub_cancel_left, List.range'_one]

theorem taken_trans {w'' : QStateRegistry} (h : w.nextStateId ≤ w'.nextStateId)
    (h' : w'.nextStateId ≤ w''.nextStateId) :
    taken w w'' = taken w w' ++ taken w' w'' := by
  have hsplit : w''.nextStateId - w.nextStateId =
      (w'.nextStateId - w.nextStateId) + (w''.nextStateId - w'.nextStateId) := by
    rw [Nat.add_comm, Nat.sub_add_sub_cancel h' h]
  rw [taken, hsplit, ← List.range'_append_1, Nat.add_sub_cancel' h]
  rfl

/-- A step that registers nothing, before or after. -/
theorem Quiet.taken_grows {w'' : QStateRegistry} (h : w.Quiet w')
    (h' : w'.Grows w'') : taken w w'' = taken w' w'' := by
  rw [taken_trans h.grows.next h'.next, h.taken_nil, List.nil_append]

theorem Grows.taken_quiet {w'' : QStateRegistry} (h : w.Grows w')
    (h' : w'.Quiet w'') : taken w w'' = taken w w' := by
  rw [taken_trans h.next h'.grows.next, h'.taken_nil, List.append_nil]

/-! ## Functions that register nothing -/

theorem newObject_quiet (w : QStateRegistry) (v : QState) : w.Quiet (w.newObject v).2 :=
  .of_eq rfl rfl

theorem setValue_quiet (w : QStateRegistry) (p : StatePtr) (v : QState) :
    w.Quiet (w.setValue p v) := .of_eq rfl rfl

theorem newHandle_quiet (w : QStateRegistry) (sid : StateId) (i : ℕ) :
    w.Quiet (w.newHandle sid i).2 := .of_eq rfl rfl

theorem rebind_quiet (w : QStateRegistry) (q : QubitPtr) (sid : StateId) (i : ℕ) :
    w.Quiet (w.rebind q sid i) := .of_eq rfl rfl

theorem setDefaultBackend_quiet (w : QStateRegistry) (b : QStateBackend) :
    w.Quiet (w.setDefaultBackend b) := .of_eq rfl rfl

theorem setLocation_quiet (w : QStateRegistry) (q : QubitPtr) (loc : Location) :
    w.Quiet (w.setLocation q loc) := .of_eq rfl rfl

theorem setLocationNode_quiet (w : QStateRegistry) (q : QubitPtr) (n : NodeId) :
    w.Quiet (w.setLocationNode q n) := by
  rw [setLocationNode]
  split_ifs
  · exact .refl w
  · exact w.setLocation_quiet q _

theorem setLocationChannel_quiet (w : QStateRegistry) (q : QubitPtr) (c : ChannelId) :
    w.Quiet (w.setLocationChannel q c) := by
  rw [setLocationChannel]
  split_ifs
  · exact .refl w
  · exact w.setLocation_quiet q _

theorem adoptQubit_quiet (w : QStateRegistry) (node : NodeId) (q : QubitPtr) :
    w.Quiet (w.adoptQubit node q) := by
  rw [adoptQubit]
  split_ifs
  · exact .refl w
  · exact .refl w
  · exact w.setLocationNode_quiet q node

theorem register_quiet (w : QStateRegistry) (q : QubitPtr) : w.Quiet (w.register q) := by
  rw [register]
  dsimp only
  split_ifs <;> exact .of_eq rfl rfl

theorem unregisterEverywhere_quiet (w : QStateRegistry) (q : QubitPtr) :
    w.Quiet (w.unregisterEverywhere q) := .of_eq rfl rfl

theorem removeState_quiet (w : QStateRegistry) (sid : StateId) :
    w.Quiet (w.removeState sid) := by
  refine ⟨rfl, fun s hs => ?_⟩
  rw [removeState] at hs
  dsimp only at hs
  by_cases h : s = sid
  · rw [h, Function.update_self] at hs
    exact absurd rfl hs
  · rwa [Function.update_of_ne h] at hs

theorem removeEmpty_quiet (w : QStateRegistry) (sids : List StateId) :
    w.Quiet (w.removeEmpty sids) := by
  induction sids generalizing w with
  | nil => exact .refl w
  | cons sid sids ih =>
      rw [removeEmpty, List.foldl_cons]
      split_ifs
      · exact (w.removeState_quiet sid).trans (ih _)
      · exact ih w

/-- One turn of the loops that rebind handles. -/
theorem rebindOne_quiet (w : QStateRegistry) (q : QubitPtr) (sid : StateId) (i : ℕ)
    (loc : Location) : w.Quiet (((w.rebind q sid i).register q).setLocation q loc) :=
  ((w.rebind_quiet q sid i).trans (register_quiet _ q)).trans (setLocation_quiet _ q loc)

theorem rebindAll_quiet {sid : StateId} {qs : List QubitPtr} {is : List ℕ}
    (hok : rebindAll sid qs is w = .ok w') : w.Quiet w' := by
  induction qs generalizing is w with
  | nil => exact Except.ok.inj hok ▸ .refl w
  | cons q qs ih =>
      cases is with
      | nil => cases hok
      | cons i is =>
          exact ((w.unregisterEverywhere_quiet q).trans
            (rebindOne_quiet _ q sid i _)).trans (ih hok)

theorem bindSurvivors_quiet {sid : StateId} {q : QubitPtr} {rs : List QubitPtr}
    {is : List ℕ} (hok : bindSurvivors sid q rs is w = .ok w') : w.Quiet w' := by
  induction rs generalizing is w with
  | nil => exact Except.ok.inj hok ▸ .refl w
  | cons r rs ih =>
      unfold bindSurvivors at hok
      split_ifs at hok
      · exact ih hok
      · cases is with
        | nil => cases hok
        | cons i is => exact (w.rebindOne_quiet r sid i _).trans (ih hok)

theorem unregisterAll_quiet (w : QStateRegistry) (rs : List QubitPtr) :
    w.Quiet (rs.foldl (fun w r => w.unregisterEverywhere r) w) := by
  induction rs generalizing w with
  | nil => exact .refl w
  | cons r rs ih => exact (w.unregisterEverywhere_quiet r).trans (ih _)

theorem bindFirst_quiet (w : QStateRegistry) (node : NodeId) (res : CreateStateResult) :
    w.Quiet (w.bindFirst node res).2 := by
  rw [bindFirst]
  split
  · exact .refl w
  next i is _ =>
  exact ((w.newHandle_quiet res.stateId i).trans (register_quiet _ _)).trans
    (setLocationNode_quiet _ _ _)

/-! ## Functions that register states -/

theorem createState_next (w : QStateRegistry) {n : ℕ} (hn : n ≠ 0) :
    (w.createState n).2.nextStateId = w.nextStateId + 1 := by
  rw [createState, if_neg hn]
  dsimp only
  cases QState.create n w.defaultBackend with
  | error e => rfl
  | ok value => rfl

theorem createStateFromExisting_next (w : QStateRegistry) {p : StatePtr}
    (hp : p < w.numObjects) :
    (w.createStateFromExisting p).2.nextStateId = w.nextStateId + 1 := by
  rw [createStateFromExisting, if_neg (not_le.mpr hp)]
  rfl

/-- A state that was put under the id that was taken. -/
theorem grows_of_update (hn : w'.nextStateId = w.nextStateId + 1)
    (hs : ∀ s, s ≠ w.nextStateId → w'.states s = w.states s) : w.Grows w' := by
  refine ⟨hn ▸ Nat.le_succ _, fun s hne => ?_⟩
  by_cases h : s = w.nextStateId
  · exact .inr ⟨h.ge, by rw [h, hn]; exact Nat.lt_succ_self _⟩
  · exact .inl (hs s h ▸ hne)

theorem createState_grows (w : QStateRegistry) (n : ℕ) : w.Grows (w.createState n).2 := by
  by_cases hn : n = 0
  · rw [createState, if_pos hn]
    exact .refl w
  refine grows_of_update (w.createState_next hn) fun s hs => ?_
  rw [createState, if_neg hn]
  dsimp only
  cases QState.create n w.defaultBackend with
  | error e => rfl
  | ok value => exact Function.update_of_ne hs _ _

theorem createStateFromExisting_grows (w : QStateRegistry) (p : StatePtr) :
    w.Grows (w.createStateFromExisting p).2 := by
  by_cases hp : w.numObjects ≤ p
  · rw [createStateFromExisting, if_pos hp]
    exact .refl w
  refine grows_of_update (w.createStateFromExisting_next (not_le.mp hp)) fun s hs => ?_
  rw [createStateFromExisting, if_neg hp]
  dsimp only [setStateId]
  split_ifs
  · rfl
  · exact Function.update_of_ne hs _ _

end Q2NS.QStateRegistry
