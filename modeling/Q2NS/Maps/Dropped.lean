import Q2NS.Maps.QMap
import Q2NS.Network.Code

/-!
# Dropped handles

A stage may set the handle to null, and the receive path takes that as a dropped qubit.
`CompositeQMap` reads the location through the handle after every stage, before it has
looked whether there is one.
-/

namespace Q2NS.Maps

open QStateRegistry

variable {U : Type}

/-! ## Receiving -/

/-- `QNetworker::ReceiveFromDevice`: the callback that runs and the handle it gets. -/
noncomputable def receiveFromDevice (recvCallback : Option CallbackId) (node : NodeId)
    (map : QMapInstance U) (q : QubitPtr) (s : State U) :
    Except Fault (Option (CallbackId × QubitPtr)) × State U :=
  match map.run node (some q) (s.setRegistry (s.world.registry.adoptQubit node q)) with
  | (.error e, s) => (.error e, s)
  | (.ok none, s) => (.ok none, s)
  | (.ok (some q), s) =>
      (.ok (if s.getLocation q = .lost then none else recvCallback.map (·, q)), s)

/-- The stages that have run between two states. -/
def ranSince (before after : State U) : List Entry := after.trace.drop before.trace.length

/-- What is expected of a delivery: no access through a null handle, nothing runs after
the stage that nulls it, and then no callback runs. -/
structure DropSafe (before : State U)
    (x : Except Fault (Option (CallbackId × QubitPtr)) × State U) : Prop where
  noNullAccess : x.1 ≠ .error .nullAccess
  nothingAfter : ∀ e ∈ (ranSince before x.2).dropLast, e.left ≠ .ok none
  noCallback : (∃ e ∈ ranSince before x.2, e.left = .ok none) → x.1 = .ok none

/-! ## The stages in a row -/

/-- How a row of stages ends: by an exception or an abort, with the handle set to null,
or with a handle. -/
inductive Followed where
  | left (e : Exit)
  | dropped
  | carries (q : QubitPtr)

/-- How a single stage ends. -/
def settle (x : Except Exit (Option QubitPtr) × State U) : Followed × State U :=
  match x with
  | (.error e, s) => (.left e, s)
  | (.ok none, s) => (.dropped, s)
  | (.ok (some q), s) => (.carries q, s)

mutual

/-- The stages of a map in a row, up to the first that loses or drops the qubit. -/
noncomputable def QMapInstance.follow (node : NodeId) :
    QMapInstance U → QubitPtr → State U → Followed × State U
  | .empty, q, s => (.carries q, s)
  | .gate id none, q, s => settle (s.record id (.ok (some q), s.world))
  | .gate id (some gate), q, s =>
      settle (s.record id (applyGate gate node (some q) s.world))
  | .lose id false, q, s => settle (s.record id (.ok (some q), s.world))
  | .lose id true, q, s =>
      settle (s.record id (.ok (some q),
        { s.world with registry := s.world.registry.setLocationLost q }))
  | .call id fn, q, s => settle (s.record id (fn node (some q) s.world))
  | .conditional _ _ .empty, q, s => (.carries q, s)
  | .conditional none _ inst, q, s => inst.follow node q s
  | .conditional (some pred) ctx inst, q, s =>
      match pred (some q) ctx s.world with
      | (.error e, w) => (.left e, { s with world := w })
      | (.ok true, w) => inst.follow node q { s with world := w }
      | (.ok false, w) => (.carries q, { s with world := w })
  | .composite insts, q, s => followAll node insts q s

noncomputable def followAll (node : NodeId) :
    List (QMapInstance U) → QubitPtr → State U → Followed × State U
  | [], q, s => (.carries q, s)
  | inst :: insts, q, s =>
      match inst.follow node q s with
      | (.carries q, s) =>
          if s.getLocation q = .lost then (.carries q, s) else followAll node insts q s
      | (.left e, s) => (.left e, s)
      | (.dropped, s) => (.dropped, s)

end

/-- What the loop of a composite makes of a row of stages. -/
def Followed.run (x : Followed × State U) : Except Fault (Option QubitPtr) × State U :=
  match x with
  | (.left e, s) => (.error (.exit e), s)
  | (.dropped, s) => (.error .nullAccess, s)
  | (.carries q, s) => (.ok (some q), s)

/-- A map runs as its row of stages, except that outside a composite a null handle is
returned and not read. -/
def Runs (x : Except Fault (Option QubitPtr) × State U) (f : Followed × State U) : Prop :=
  x = Followed.run f ∨ f.1 = .dropped ∧ x = (.ok none, f.2)

theorem runs_settle (x : Except Exit (Option QubitPtr) × State U) :
    Runs (lift x) (settle x) := by
  rcases x with ⟨e | _ | q, s⟩
  · exact .inl rfl
  · exact .inr ⟨rfl, rfl⟩
  · exact .inl rfl

mutual

theorem run_follow (node : NodeId) : ∀ (inst : QMapInstance U) (q : QubitPtr) (s : State U),
    Runs (inst.run node (some q) s) (inst.follow node q s)
  | .empty, _, _ => .inl rfl
  | .gate _ none, _, _ => runs_settle _
  | .gate _ (some _), _, _ => runs_settle _
  | .lose _ false, _, _ => runs_settle _
  | .lose _ true, _, _ => runs_settle _
  | .call _ _, _, _ => runs_settle _
  | .conditional cond ctx inst, q, s => by
      by_cases hempty : inst = .empty
      · subst hempty
        cases cond <;> exact .inl rfl
      · cases cond with
        | none =>
            rw [QMapInstance.run, QMapInstance.follow]
            · exact run_follow node inst q s
            · exact hempty
            · exact hempty
        | some pred =>
            rw [QMapInstance.run, QMapInstance.follow]
            · rcases pred (some q) ctx s.world with ⟨e | _ | _, w⟩
              · exact .inl rfl
              · exact .inl rfl
              · exact run_follow node inst q { s with world := w }
            · exact hempty
            · exact hempty
  | .composite insts, q, s => .inl (runSteps_follow node insts q s)

/-- The loop of a composite faults exactly when a stage that runs nulls the handle. -/
theorem runSteps_follow (node : NodeId) :
    ∀ (insts : List (QMapInstance U)) (q : QubitPtr) (s : State U),
      runSteps node insts (some q) s = Followed.run (followAll node insts q s)
  | [], _, _ => rfl
  | inst :: insts, q, s => by
      rw [runSteps, followAll]
      rcases hf : inst.follow node q s with ⟨e | _ | q', s'⟩
      all_goals
        have hrun := run_follow node inst q s
        rw [hf] at hrun
      · obtain hx | ⟨hd, -⟩ := hrun
        · rw [hx]
          rfl
        · cases hd
      · obtain hx | ⟨-, hx⟩ := hrun
        · rw [hx]
          rfl
        · rw [hx]
          rfl
      · obtain hx | ⟨hd, -⟩ := hrun
        · rw [hx]
          simp only [Followed.run]
          split_ifs
          · rfl
          · exact runSteps_follow node insts q' s'
        · cases hd

end

/-! ## What has run -/

/-- The stages that run from `s` to `s'` leave a handle. -/
def Keeps (s s' : State U) : Prop :=
  ∃ ran, s'.trace = s.trace ++ ran ∧ ∀ e ∈ ran, e.left ≠ .ok none

theorem ok_ne_error {α ε : Type} (a : α) (e : ε) : Except.ok a ≠ .error e := by
  intro h
  cases h

theorem keeps_of_eq {s s' : State U} (h : s'.trace = s.trace) : Keeps s s' :=
  ⟨[], h.trans (List.append_nil _).symm, fun _ he => absurd he List.not_mem_nil⟩

theorem Keeps.trans {s s' s'' : State U} (h : Keeps s s') (h' : Keeps s' s'') :
    Keeps s s'' := by
  obtain ⟨ran, htrace, hran⟩ := h
  obtain ⟨ran', htrace', hran'⟩ := h'
  refine ⟨ran ++ ran', by rw [htrace', htrace, List.append_assoc], fun e he => ?_⟩
  rcases List.mem_append.mp he with he | he
  · exact hran e he
  · exact hran' e he

theorem keeps_record (s : State U) (id : MapId)
    {x : Except Exit (Option QubitPtr) × World U} (h : x.1 ≠ .ok none) :
    Keeps s (s.record id x).2 := by
  refine ⟨[⟨id, x.1⟩], rfl, fun e he => ?_⟩
  rw [List.mem_singleton.mp he]
  exact h

theorem keeps_settle (s : State U) (id : MapId)
    (x : Except Exit (Option QubitPtr) × World U)
    (h : (settle (s.record id x)).1 ≠ .dropped) : Keeps s (settle (s.record id x)).2 := by
  have hstate : (settle (s.record id x)).2 = (s.record id x).2 := by
    rcases x with ⟨e | _ | q, w⟩ <;> rfl
  rw [hstate]
  refine keeps_record s id fun hx => h ?_
  rw [State.record, hx]
  rfl

mutual

theorem follow_keeps (node : NodeId) :
    ∀ (inst : QMapInstance U) (q : QubitPtr) (s : State U),
      (inst.follow node q s).1 ≠ .dropped → Keeps s (inst.follow node q s).2
  | .empty, _, _, _ => keeps_of_eq rfl
  | .gate _ none, _, _, h => keeps_settle _ _ _ h
  | .gate _ (some _), _, _, h => keeps_settle _ _ _ h
  | .lose _ false, _, _, h => keeps_settle _ _ _ h
  | .lose _ true, _, _, h => keeps_settle _ _ _ h
  | .call _ _, _, _, h => keeps_settle _ _ _ h
  | .conditional cond ctx inst, q, s, h => by
      by_cases hempty : inst = .empty
      · subst hempty
        cases cond <;> exact keeps_of_eq rfl
      · cases cond with
        | none =>
            rw [QMapInstance.follow] at h ⊢
            · exact follow_keeps node inst q s h
            · exact hempty
            · exact hempty
        | some pred =>
            rw [QMapInstance.follow] at h ⊢
            · revert h
              rcases pred (some q) ctx s.world with ⟨e | _ | _, w⟩
              · exact fun _ => keeps_of_eq rfl
              · exact fun _ => keeps_of_eq rfl
              · exact follow_keeps node inst q { s with world := w }
            · exact hempty
            · exact hempty
  | .composite insts, q, s, h => followAll_keeps node insts q s h

theorem followAll_keeps (node : NodeId) :
    ∀ (insts : List (QMapInstance U)) (q : QubitPtr) (s : State U),
      (followAll node insts q s).1 ≠ .dropped → Keeps s (followAll node insts q s).2
  | [], _, _, _ => keeps_of_eq rfl
  | inst :: insts, q, s, h => by
      have hinst := follow_keeps node inst q s
      rw [followAll] at h ⊢
      rcases hf : inst.follow node q s with ⟨e | _ | q', s'⟩
      all_goals
        rw [hf] at h hinst
      · exact hinst Followed.noConfusion
      · exact absurd rfl h
      · have hfirst := hinst Followed.noConfusion
        simp only at h ⊢
        split_ifs at h ⊢
        · exact hfirst
        · exact hfirst.trans (followAll_keeps node insts q' s' h)

end

/-- Where the stages leave a handle, a delivery is safe if it does not fault. -/
theorem dropSafe_of_keeps {before : State U}
    {x : Except Fault (Option (CallbackId × QubitPtr)) × State U}
    (hfault : x.1 ≠ .error .nullAccess) (h : Keeps before x.2) : DropSafe before x := by
  obtain ⟨ran, htrace, hran⟩ := h
  have hsince : ranSince before x.2 = ran := by
    rw [ranSince, htrace, List.drop_left]
  refine ⟨hfault, fun e he => hran e ?_, fun ⟨e, he, hleft⟩ => absurd hleft (hran e ?_)⟩
  · rw [← hsince]
    exact List.mem_of_mem_dropLast he
  · rw [← hsince]
    exact he

/-- The delivery of a qubit through a composite map is safe exactly when no stage that
runs nulls the handle. -/
theorem composite_dropSafe_iff (recvCallback : Option CallbackId) (node : NodeId)
    (insts : List (QMapInstance U)) (q : QubitPtr) (s : State U) :
    DropSafe s (receiveFromDevice recvCallback node (.composite insts) q s) ↔
      (followAll node insts q
        (s.setRegistry (s.world.registry.adoptQubit node q))).1 ≠ .dropped := by
  have hkeeps := followAll_keeps node insts q
    (s.setRegistry (s.world.registry.adoptQubit node q))
  rw [receiveFromDevice, QMapInstance.run, runSteps_follow]
  rcases hf : followAll node insts q
    (s.setRegistry (s.world.registry.adoptQubit node q)) with ⟨e | _ | q', s'⟩
  all_goals
    rw [hf] at hkeeps
  · exact iff_of_true
      (dropSafe_of_keeps (fun h => Fault.noConfusion (Except.error.inj h))
        (hkeeps Followed.noConfusion)) Followed.noConfusion
  · exact iff_of_false (fun h => h.noNullAccess rfl) fun h => h rfl
  · exact iff_of_true (dropSafe_of_keeps (ok_ne_error _ _) (hkeeps Followed.noConfusion))
      Followed.noConfusion

/-- A user's function on its own is safe whatever it does: the receive path looks whether
there is a handle. -/
theorem call_dropSafe (recvCallback : Option CallbackId) (node : NodeId) (id : MapId)
    (fn : SimpleFn U) (q : QubitPtr) (s : State U) :
    DropSafe s (receiveFromDevice recvCallback node (.call id fn) q s) := by
  have hkeeps := keeps_record (s.setRegistry (s.world.registry.adoptQubit node q)) id
    (x := fn node (some q) (s.setRegistry (s.world.registry.adoptQubit node q)).world)
  have hran : ∀ x : Except Exit (Option QubitPtr) × World U,
      ranSince s ((s.setRegistry (s.world.registry.adoptQubit node q)).record id x).2 =
        [⟨id, x.1⟩] := fun x => List.drop_left
  rw [receiveFromDevice, QMapInstance.run]
  rcases hx : fn node (some q) (s.setRegistry (s.world.registry.adoptQubit node q)).world
    with ⟨e | _ | q', w⟩
  all_goals
    rw [hx] at hkeeps
  · exact dropSafe_of_keeps (fun h => Fault.noConfusion (Except.error.inj h))
      (hkeeps (ok_ne_error _ _).symm)
  · refine ⟨ok_ne_error _ _, fun e he => ?_, fun _ => rfl⟩
    have hlast : e ∈ [(⟨id, .ok none⟩ : Entry)].dropLast := hran (.ok none, w) ▸ he
    exact absurd hlast List.not_mem_nil
  · refine dropSafe_of_keeps (ok_ne_error _ _) (hkeeps fun h => ?_)
    cases h

/-- A stage that nulls the handle. -/
def nulling : QMapInstance Unit := .call 0 fun _ _ w => (.ok none, w)

/-- The delivery through a composite of it reads a location through a null handle. -/
theorem nulling_not_dropSafe :
    ¬ ∀ (recvCallback : Option CallbackId) (node : NodeId)
      (insts : List (QMapInstance Unit)) (q : QubitPtr) (s : State Unit),
      q < s.world.registry.numHandles →
        DropSafe s (receiveFromDevice recvCallback node (.composite insts) q s) := by
  intro hall
  let made : QStateRegistry := ((QStateRegistry.empty.newObject
    (.stab (QStateStab.init 1))).2.createQubitFrom 0 0).2
  have hsafe := hall none 1 [nulling] 0
    ⟨⟨made, ⟨fun _ => 0, 0, []⟩, ()⟩, []⟩ Nat.one_pos
  exact hsafe.noNullAccess rfl

end Q2NS.Maps
