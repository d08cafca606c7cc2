import Q2NS.Registry.Invariant

/-!
# Locations over any run

What an operation does to the ids and the locations of the handles.  Nothing is
assumed of the state objects that the handles are bound to, so the results hold in
every registry that calls can lead to, also where one object is registered twice.
-/

namespace Q2NS.QStateRegistry

open Loop

variable {w w' : QStateRegistry} {l l' : List QubitPtr} {k k' : ℕ}

/-- A handle that has been registered. -/
def Known (w : QStateRegistry) (q : QubitPtr) : Prop :=
  q < w.numHandles ∧ (w.qubits q).qubitId ≠ 0

/-- Qubit ids tell the known handles apart, only known handles are members, and the
index of the nodes and the handles of the ids agree with the locations. -/
structure Numbered (w : QStateRegistry) : Prop where
  nextId : 0 < w.nextQubitId
  bound : ∀ q < w.numHandles, (w.qubits q).qubitId < w.nextQubitId
  id_inj : ∀ q r, w.Known q → w.Known r →
    (w.qubits q).qubitId = (w.qubits r).qubitId → q = r
  members : ∀ s, ∀ q ∈ w.qubitsOf s, w.Known q
  index : w.IndexOk
  located : ∀ id, w.location id ≠ none →
    ∃ q, w.Known q ∧ (w.qubits q).qubitId = id ∧ w.qubitById id = some q

/-- Between `w` and `w'` known handles keep their ids, and those outside `l` their
locations; `k` handles are made. -/
structure Carries (w w' : QStateRegistry) (l : List QubitPtr) (k : ℕ := 0) :
    Prop where
  numbered : w'.Numbered
  numHandles : w'.numHandles = w.numHandles + k
  ids : ∀ x, w.Known x → (w'.qubits x).qubitId = (w.qubits x).qubitId
  locations : ∀ x, w.Known x → x ∉ l → w'.getLocation x = w.getLocation x

theorem Numbered.carries (h : w.Numbered) (l : List QubitPtr) : w.Carries w l :=
  ⟨h, rfl, fun _ _ => rfl, fun _ _ _ => rfl⟩

theorem Carries.known (h : w.Carries w' l k) {x : QubitPtr} (hx : w.Known x) :
    w'.Known x :=
  ⟨hx.1.trans_le (h.numHandles ▸ Nat.le_add_right _ _), by
    rw [h.ids x hx]
    exact hx.2⟩

theorem Carries.trans {w'' : QStateRegistry} (h : w.Carries w' l k)
    (h' : w'.Carries w'' l' k') (hl : ∀ x ∈ l', w.Known x → x ∈ l) :
    w.Carries w'' l (k + k') where
  numbered := h'.numbered
  numHandles := by rw [h'.numHandles, h.numHandles, Nat.add_assoc]
  ids := fun x hx => (h'.ids x (h.known hx)).trans (h.ids x hx)
  locations := fun x hx hxl =>
    (h'.locations x (h.known hx) fun hx' => hxl (hl x hx' hx)).trans
      (h.locations x hx hxl)

/-- Two calls in a row. -/
theorem andThen_carries {α β : Type} {x : Except Exit α × QStateRegistry}
    {f : α → QStateRegistry → Except Exit β × QStateRegistry}
    (hx : w.Carries x.2 l)
    (hf : ∀ a (w' : QStateRegistry), w'.Numbered → w.Carries w' l →
      w'.Carries (f a w').2 l') (hl : ∀ x ∈ l', w.Known x → x ∈ l) :
    w.Carries (andThen x f).2 l := by
  obtain ⟨a, w'⟩ := x
  cases a with
  | error e => exact hx
  | ok a => exact hx.trans (hf a w' hx.numbered hx) hl

/-! ## Parts of the operations -/

/-- A change that is not about handles, ids or locations, and adds no member. -/
theorem Numbered.carries_of_eq (h : w.Numbered) (hq : w'.qubits = w.qubits)
    (hn : w'.numHandles = w.numHandles) (hid : w'.nextQubitId = w.nextQubitId)
    (hloc : w'.location = w.location) (hat : w'.qubitsAtNode = w.qubitsAtNode)
    (hby : w'.qubitById = w.qubitById)
    (hmem : ∀ s, ∀ q ∈ w'.qubitsOf s, ∃ s', q ∈ w.qubitsOf s') :
    w.Carries w' [] := by
  have hknown : ∀ x, w'.Known x ↔ w.Known x := fun x => by rw [Known, Known, hq, hn]
  refine ⟨⟨?_, ?_, ?_, ?_, h.index.of_eq hloc hat, ?_⟩, hn, ?_, ?_⟩
  · rw [hid]
    exact h.nextId
  · rw [hq, hn, hid]
    exact h.bound
  · intro q r hqk hrk
    rw [hq]
    exact h.id_inj q r ((hknown q).mp hqk) ((hknown r).mp hrk)
  · intro s q hmemq
    obtain ⟨s', hs'⟩ := hmem s q hmemq
    exact (hknown q).mpr (h.members s' q hs')
  · intro id hne
    rw [hloc] at hne
    obtain ⟨q, hqk, hqid, hqby⟩ := h.located id hne
    exact ⟨q, (hknown q).mpr hqk, by rwa [hq], by rwa [hby]⟩
  · intro x _
    rw [hq]
  · intro x _ _
    rw [getLocation, getLocation, hq, hloc]

theorem Numbered.rebind (h : w.Numbered) (q : QubitPtr) (sid : StateId) (i : ℕ) :
    w.Carries (w.rebind q sid i) [] := by
  have hids : ∀ x, ((w.rebind q sid i).qubits x).qubitId = (w.qubits x).qubitId := by
    intro x
    by_cases hx : x = q
    · rw [QStateRegistry.rebind, hx]
      dsimp only
      rw [Function.update_self]
    · rw [QStateRegistry.rebind]
      dsimp only
      rw [Function.update_of_ne hx]
  have hknown : ∀ x, (w.rebind q sid i).Known x ↔ w.Known x := fun x => by
    rw [Known, Known, hids]
    rfl
  refine ⟨⟨h.nextId, ?_, ?_, ?_, h.index.of_eq rfl rfl, ?_⟩, rfl, fun x _ => hids x, ?_⟩
  · intro x hx
    rw [hids]
    exact h.bound x hx
  · intro x y hx hy
    rw [hids, hids]
    exact h.id_inj x y ((hknown x).mp hx) ((hknown y).mp hy)
  · intro s x hx
    exact (hknown x).mpr (h.members s x hx)
  · intro id hne
    obtain ⟨x, hx, hxid, hxby⟩ := h.located id hne
    exact ⟨x, (hknown x).mpr hx, (hids x).trans hxid, hxby⟩
  · intro x _ _
    rw [getLocation, hids]
    rfl

theorem Numbered.setLocation (h : w.Numbered) {q : QubitPtr} (hq : w.Known q)
    (loc : Location) : w.Carries (w.setLocation q loc) [q] := by
  refine ⟨⟨h.nextId, h.bound, h.id_inj, h.members, h.index.setLocation q loc, ?_⟩, rfl,
    fun _ _ => rfl, ?_⟩
  · intro id hne
    by_cases hid : id = (w.qubits q).qubitId
    · exact ⟨q, hq, hid.symm, by rw [hid]; exact Function.update_self ..⟩
    · have hloc : (w.setLocation q loc).location id = w.location id :=
        Function.update_of_ne hid ..
      rw [hloc] at hne
      obtain ⟨x, hx, hxid, hxby⟩ := h.located id hne
      exact ⟨x, hx, hxid, (Function.update_of_ne hid ..).trans hxby⟩
  intro x hx hne
  have hid : (w.qubits x).qubitId ≠ (w.qubits q).qubitId := fun he =>
    hne (List.mem_singleton.mpr (h.id_inj x q hx hq he))
  have hother : (w.setLocation q loc).location (w.qubits x).qubitId =
      w.location (w.qubits x).qubitId := Function.update_of_ne hid _ _
  rw [getLocation, getLocation, ← hother]
  rfl

theorem getLocation_setLocation (q : QubitPtr) (loc : Location) :
    (w.setLocation q loc).getLocation q = loc := by
  have hself : (w.setLocation q loc).location (w.qubits q).qubitId = some loc :=
    Function.update_self _ _ _
  exact congrArg (·.getD .unset) hself

/-- Writing back the location that a handle has. -/
theorem Carries.setLocation_same {q : QubitPtr} (h : w.Carries w' l k)
    (hq : w.Known q) : w.Carries (w'.setLocation q (w.getLocation q)) l k := by
  have hset := h.numbered.setLocation (h.known hq) (w.getLocation q)
  refine ⟨hset.numbered, hset.numHandles.trans h.numHandles,
    fun x hx => (hset.ids x (h.known hx)).trans (h.ids x hx), fun x hx hxl => ?_⟩
  by_cases hxq : x = q
  · rw [hxq, getLocation_setLocation]
  · rw [hset.locations x (h.known hx) fun hx' => hxq (List.mem_singleton.mp hx')]
    exact h.locations x hx hxl

/-- A new handle, not yet registered. -/
theorem Numbered.newHandle (h : w.Numbered) (sid : StateId) (i : ℕ) :
    w.Carries (w.newHandle sid i).2 [] 1 := by
  have hold : ∀ x < w.numHandles, (w.newHandle sid i).2.qubits x = w.qubits x :=
    fun x hx => Function.update_of_ne hx.ne _ _
  have hnew : ((w.newHandle sid i).2.qubits w.numHandles).qubitId = 0 := by
    rw [QStateRegistry.newHandle]
    dsimp only
    rw [Function.update_self]
  have hknown : ∀ x, (w.newHandle sid i).2.Known x → w.Known x := by
    intro x hx
    have hlt : x < w.numHandles := by
      refine lt_of_le_of_ne (Nat.lt_succ_iff.mp hx.1) fun he => hx.2 ?_
      rw [he, hnew]
    exact ⟨hlt, by rw [← hold x hlt]; exact hx.2⟩
  refine ⟨⟨h.nextId, ?_, ?_, ?_, h.index.of_eq rfl rfl, ?_⟩, rfl, ?_, ?_⟩
  · intro x hx
    by_cases hlt : x < w.numHandles
    · rw [hold x hlt]
      exact h.bound x hlt
    · obtain rfl : x = w.numHandles :=
        Nat.le_antisymm (Nat.lt_succ_iff.mp hx) (not_lt.mp hlt)
      rw [hnew]
      exact h.nextId
  · intro x y hx hy
    rw [hold x (hknown x hx).1, hold y (hknown y hy).1]
    exact h.id_inj x y (hknown x hx) (hknown y hy)
  · intro s x hx
    have hx := h.members s x hx
    exact ⟨Nat.lt_succ_of_lt hx.1, by rw [hold x hx.1]; exact hx.2⟩
  · intro id hne
    obtain ⟨x, hx, hxid, hxby⟩ := h.located id hne
    refine ⟨x, ⟨Nat.lt_succ_of_lt hx.1, ?_⟩, ?_, hxby⟩ <;> rw [hold x hx.1]
    · exact hx.2
    · exact hxid
  · intro x hx
    rw [hold x hx.1]
  · intro x hx _
    rw [getLocation, getLocation, hold x hx.1]
    rfl

/-- The first half of `Register`: an id for a handle that has none. -/
theorem Numbered.assignId (h : w.Numbered) {q : QubitPtr}
    (hzero : (w.qubits q).qubitId = 0) :
    w.Carries { w.setQubitId q w.nextQubitId with
      nextQubitId := w.nextQubitId + 1 } [] := by
  have hold : ∀ x, x ≠ q → (w.setQubitId q w.nextQubitId).qubits x = w.qubits x :=
    fun x hx => Function.update_of_ne hx _ _
  have hself : ((w.setQubitId q w.nextQubitId).qubits q).qubitId = w.nextQubitId := by
    rw [setQubitId]
    dsimp only
    rw [Function.update_self]
  have hne : ∀ x, w.Known x → x ≠ q := fun x hx he => hx.2 (he ▸ hzero)
  have hknown : ∀ x, x ≠ q → ({ w.setQubitId q w.nextQubitId with
      nextQubitId := w.nextQubitId + 1 } : QStateRegistry).Known x → w.Known x :=
    fun x hxq hx => ⟨hx.1, by
      have := hx.2
      dsimp only at this
      rwa [hold x hxq] at this⟩
  have hsep : ∀ x, w.Known x → (w.qubits x).qubitId ≠ w.nextQubitId := fun x hx =>
    (h.bound x hx.1).ne
  refine ⟨⟨Nat.succ_pos _, ?_, ?_, ?_, h.index.of_eq rfl rfl, ?_⟩, rfl, ?_, ?_⟩
  · intro x hx
    dsimp only
    by_cases hxq : x = q
    · rw [hxq, hself]
      exact Nat.lt_succ_self _
    · rw [hold x hxq]
      exact Nat.lt_succ_of_lt (h.bound x hx)
  · intro x y hx hy he
    dsimp only at he
    by_cases hxq : x = q <;> by_cases hyq : y = q
    · rw [hxq, hyq]
    · rw [hxq, hself, hold y hyq] at he
      exact absurd he.symm (hsep y (hknown y hyq hy))
    · rw [hyq, hself, hold x hxq] at he
      exact absurd he (hsep x (hknown x hxq hx))
    · rw [hold x hxq, hold y hyq] at he
      exact h.id_inj x y (hknown x hxq hx) (hknown y hyq hy) he
  · intro s x hx
    have hx := h.members s x hx
    exact ⟨hx.1, by dsimp only; rw [hold x (hne x hx)]; exact hx.2⟩
  · intro id hloc
    obtain ⟨x, hx, hxid, hxby⟩ := h.located id hloc
    refine ⟨x, ⟨hx.1, ?_⟩, ?_, hxby⟩ <;> dsimp only <;> rw [hold x (hne x hx)]
    · exact hx.2
    · exact hxid
  · intro x hx
    dsimp only
    rw [hold x (hne x hx)]
  · intro x hx _
    rw [getLocation, getLocation]
    dsimp only
    rw [hold x (hne x hx)]
    rfl

/-- A registered handle is known, and nothing else changes. -/
theorem Numbered.register (h : w.Numbered) {q : QubitPtr} (hq : q < w.numHandles) :
    w.Carries (w.register q) [] ∧ (w.register q).Known q := by
  -- after the id
  obtain ⟨w₁, hw₁, hcarry₁, hknown₁⟩ : ∃ w₁ : QStateRegistry,
      w₁ = (if (w.qubits q).qubitId = 0 then
        { w.setQubitId q w.nextQubitId with nextQubitId := w.nextQubitId + 1 }
        else w) ∧ w.Carries w₁ [] ∧ w₁.Known q := by
    refine ⟨_, rfl, ?_⟩
    split_ifs with hzero
    · refine ⟨h.assignId hzero, hq, ?_⟩
      rw [setQubitId]
      dsimp only
      rw [Function.update_self]
      exact h.nextId.ne'
    · exact ⟨h.carries [], hq, hzero⟩
  -- after the location
  obtain ⟨w₂, hw₂, hcarry₂, hknown₂⟩ : ∃ w₂ : QStateRegistry,
      w₂ = (if w₁.location (w₁.qubits q).qubitId = none then w₁.setLocation q .unset
        else w₁) ∧ w.Carries w₂ [] ∧ w₂.Known q := by
    refine ⟨_, rfl, ?_⟩
    split_ifs with hnone
    · have hunset : w₁.getLocation q = .unset := by rw [getLocation, hnone]; rfl
      have hset := (hcarry₁.numbered.carries []).setLocation_same hknown₁
      rw [hunset] at hset
      exact ⟨hcarry₁.trans hset fun _ hx _ => hx, hset.known hknown₁⟩
    · exact ⟨hcarry₁, hknown₁⟩
  have heq : w.register q = { w₂ with
      members := Function.update w₂.members (w.qubits q).stateId
        (some (if q ∈ w₂.qubitsOf (w.qubits q).stateId then
          w₂.qubitsOf (w.qubits q).stateId
          else w₂.qubitsOf (w.qubits q).stateId ++ [q])) } := by
    rw [QStateRegistry.register, hw₂, hw₁]
  have hlast : w₂.Carries (w.register q) [] := by
    rw [heq]
    refine ⟨⟨hcarry₂.numbered.nextId, hcarry₂.numbered.bound, hcarry₂.numbered.id_inj,
      fun s x hx => ?_, hcarry₂.numbered.index.of_eq rfl rfl, hcarry₂.numbered.located⟩,
      rfl, fun _ _ => rfl, fun _ _ _ => rfl⟩
    rw [qubitsOf] at hx
    dsimp only at hx
    by_cases hs : s = (w.qubits q).stateId
    · rw [hs, Function.update_self, Option.getD_some] at hx
      split_ifs at hx
      · exact hcarry₂.numbered.members _ x hx
      · rcases List.mem_append.mp hx with hx | hx
        · exact hcarry₂.numbered.members _ x hx
        · rw [List.mem_singleton.mp hx]
          exact hknown₂
    · rw [Function.update_of_ne hs] at hx
      exact hcarry₂.numbered.members s x hx
  exact ⟨hcarry₂.trans hlast fun _ hx _ => hx, hlast.known hknown₂⟩

theorem Numbered.unregisterEverywhere (h : w.Numbered) (q : QubitPtr) :
    w.Carries (w.unregisterEverywhere q) [] := by
  refine h.carries_of_eq rfl rfl rfl rfl rfl rfl fun s x hx => ⟨s, ?_⟩
  rw [QStateRegistry.unregisterEverywhere, qubitsOf] at hx
  dsimp only at hx
  rw [qubitsOf]
  cases hm : w.members s with
  | none => rw [hm] at hx; exact hx
  | some l =>
      rw [hm, Option.map_some, Option.getD_some] at hx
      exact List.mem_of_mem_filter hx

theorem Numbered.removeState (h : w.Numbered) (sid : StateId) :
    w.Carries (w.removeState sid) [] := by
  refine h.carries_of_eq rfl rfl rfl rfl rfl rfl fun s x hx => ⟨s, ?_⟩
  rw [QStateRegistry.removeState, qubitsOf] at hx
  dsimp only at hx
  by_cases hs : s = sid
  · rw [hs, Function.update_self, Option.getD_none] at hx
    exact absurd hx List.not_mem_nil
  · rw [Function.update_of_ne hs] at hx
    exact hx

theorem Numbered.removeEmpty (h : w.Numbered) (sids : List StateId) :
    w.Carries (w.removeEmpty sids) [] := by
  induction sids generalizing w with
  | nil => exact h.carries []
  | cons sid sids ih =>
      rw [QStateRegistry.removeEmpty, List.foldl_cons]
      split_ifs
      · have hone := h.removeState sid
        exact hone.trans (ih hone.numbered) fun _ hx _ => hx
      · exact ih h

theorem Numbered.createStateFromExisting (h : w.Numbered) (p : StatePtr) :
    w.Carries (w.createStateFromExisting p).2 [] := by
  rw [QStateRegistry.createStateFromExisting]
  split_ifs
  · exact h.carries []
  all_goals
    refine h.carries_of_eq rfl rfl rfl rfl rfl rfl fun s x hx => ⟨s, ?_⟩
    rw [qubitsOf] at hx
    dsimp only [setStateId] at hx
    by_cases hs : s = w.nextStateId
    · rw [hs, Function.update_self] at hx
      exact absurd hx List.not_mem_nil
    · rw [Function.update_of_ne hs] at hx
      exact hx

theorem Numbered.createState (h : w.Numbered) (n : ℕ) :
    w.Carries (w.createState n).2 [] := by
  rw [QStateRegistry.createState]
  split_ifs
  · exact h.carries []
  dsimp only
  cases QState.create n w.defaultBackend with
  | error e => exact h.carries_of_eq rfl rfl rfl rfl rfl rfl fun s x hx => ⟨s, hx⟩
  | ok value =>
      refine h.carries_of_eq rfl rfl rfl rfl rfl rfl fun s x hx => ?_
      rw [qubitsOf] at hx
      dsimp only [setStateId, newObject] at hx
      by_cases hs : s = w.nextStateId
      · rw [hs, Function.update_self, Option.getD_some] at hx
        exact ⟨_, hx⟩
      · rw [Function.update_of_ne hs] at hx
        exact ⟨s, hx⟩

theorem Numbered.setValue (h : w.Numbered) (p : StatePtr) (v : QState) :
    w.Carries (w.setValue p v) [] :=
  h.carries_of_eq rfl rfl rfl rfl rfl rfl fun s _ hx => ⟨s, hx⟩

theorem Numbered.newObject (h : w.Numbered) (v : QState) :
    w.Carries (w.newObject v).2 [] :=
  h.carries_of_eq rfl rfl rfl rfl rfl rfl fun s _ hx => ⟨s, hx⟩

/-- A new object that is registered at once. -/
theorem Numbered.newState (h : w.Numbered) (v : QState) :
    w.Carries ((w.newObject v).2.createStateFromExisting (w.newObject v).1).2 [] :=
  (h.newObject v).trans ((h.newObject v).numbered.createStateFromExisting _)
    fun _ hx _ => hx

/-! ## Merging -/

/-- One turn of the loops that rebind handles: each keeps its location. -/
theorem Numbered.rebindOne (h : w.Numbered) {q : QubitPtr} (hq : w.Known q)
    (sid : StateId) (i : ℕ) :
    w.Carries (((w.rebind q sid i).register q).setLocation q (w.getLocation q)) [] := by
  have hbind := h.rebind q sid i
  have hreg := (hbind.numbered.register (hbind.known hq).1).1
  exact (hbind.trans hreg fun _ hx _ => hx).setLocation_same hq

theorem Numbered.rebindAll (h : w.Numbered) (sid : StateId) {qs : List QubitPtr}
    {is : List ℕ} (hqs : ∀ q ∈ qs, w.Known q)
    (hok : QStateRegistry.rebindAll sid qs is w = .ok w') : w.Carries w' [] := by
  induction qs generalizing is w with
  | nil =>
      obtain rfl := Except.ok.inj hok
      exact h.carries []
  | cons q qs ih =>
      cases is with
      | nil => exact nomatch hok
      | cons i is =>
          rw [QStateRegistry.rebindAll] at hok
          have hq := hqs q List.mem_cons_self
          have hun := h.unregisterEverywhere q
          have hone := hun.trans (hun.numbered.rebindOne (hun.known hq) sid i)
            fun _ hx _ => hx
          exact hone.trans (ih hone.numbered
            (fun r hr => hone.known (hqs r (List.mem_cons_of_mem _ hr))) hok)
            fun _ hx _ => hx

theorem mem_of_mapM_bucketOf {sids : List StateId} {buckets : List StateBucket}
    (hb : sids.mapM w.bucketOf = some buckets) {b : StateBucket} (hmem : b ∈ buckets)
    {q : QubitPtr} (hq : q ∈ b.members) : ∃ s, q ∈ w.qubitsOf s := by
  induction sids generalizing buckets with
  | nil =>
      obtain rfl := Option.some.inj hb
      exact absurd hmem List.not_mem_nil
  | cons sid sids ih =>
      rw [List.mapM_cons] at hb
      obtain ⟨b', hb', hb⟩ := Option.bind_eq_some_iff.mp hb
      obtain ⟨bs, hbs, hb⟩ := Option.bind_eq_some_iff.mp hb
      obtain rfl := Option.some.inj hb
      rcases List.mem_cons.mp hmem with rfl | hmem
      · obtain ⟨p, -, rfl⟩ := Option.map_eq_some_iff.mp hb'
        exact ⟨sid, List.mem_mergeSort.mp hq⟩
      · exact ih hbs hmem

theorem Numbered.mergeSorted (h : w.Numbered) {buckets : List StateBucket}
    (hb : ∀ b ∈ buckets, ∀ q ∈ b.members, w.Known q) :
    w.Carries (w.mergeSorted buckets).2 [] := by
  rw [QStateRegistry.mergeSorted]
  dsimp only
  rcases w.mergeBuckets buckets with e | _ | merged
  · exact h.carries []
  · exact h.carries []
  dsimp only
  have hreg := h.newState merged
  split
  · exact hreg
  · next w₁ hok =>
    have hall := hreg.trans (hreg.numbered.rebindAll _ (fun q hq => by
      obtain ⟨b, hbm, hq⟩ := List.mem_flatMap.mp hq
      exact hreg.known (hb b hbm q hq)) hok) fun _ hx _ => hx
    exact hall.trans (hall.numbered.removeEmpty _) fun _ hx _ => hx

theorem Numbered.mergeStates (h : w.Numbered) (qs : List QubitPtr) :
    w.Carries (w.mergeStates qs).2 [] := by
  rw [QStateRegistry.mergeStates]
  split_ifs
  · exact h.carries []
  · exact h.carries []
  split
  · exact h.carries []
  · split
    · exact h.carries []
    · next buckets hb =>
      refine h.mergeSorted fun b hbm q hq => ?_
      obtain ⟨s, hs⟩ := mem_of_mapM_bucketOf hb (List.mem_mergeSort.mp hbm) hq
      exact h.members s q hs

/-! ## Measuring -/

theorem Numbered.bindSurvivors (h : w.Numbered) (sid : StateId) (q : QubitPtr)
    {rs : List QubitPtr} {is : List ℕ} (hrs : ∀ r ∈ rs, w.Known r)
    (hok : QStateRegistry.bindSurvivors sid q rs is w = .ok w') : w.Carries w' [] := by
  induction rs generalizing is w with
  | nil =>
      obtain rfl := Except.ok.inj hok
      exact h.carries []
  | cons r rs ih =>
      rw [QStateRegistry.bindSurvivors.eq_def] at hok
      dsimp only at hok
      split_ifs at hok
      · exact ih h (fun x hx => hrs x (List.mem_cons_of_mem _ hx)) hok
      · cases is with
        | nil => exact nomatch hok
        | cons i is =>
            have hone := h.rebindOne (hrs r List.mem_cons_self) sid i
            exact hone.trans (ih hone.numbered
              (fun x hx => hone.known (hrs x (List.mem_cons_of_mem _ hx))) hok)
              fun _ hx _ => hx

theorem Numbered.unregisterAll (h : w.Numbered) (rs : List QubitPtr) :
    w.Carries (rs.foldl (fun w r => w.unregisterEverywhere r) w) [] := by
  induction rs generalizing w with
  | nil => exact h.carries []
  | cons r rs ih =>
      have hone := h.unregisterEverywhere r
      exact hone.trans (ih hone.numbered) fun _ hx _ => hx

theorem Numbered.rebindMeasured (h : w.Numbered) (p : StatePtr) {related : List QubitPtr}
    (hrel : ∀ r ∈ related, w.Known r) {q : QubitPtr} (hq : w.Known q)
    {split : MeasureResult QState}
    (hok : w.rebindMeasured p related q (w.getLocation q) split = .ok w') :
    w.Carries w' [] := by
  rw [QStateRegistry.rebindMeasured] at hok
  dsimp only at hok
  have hun := h.unregisterAll related
  have hst := hun.trans (hun.numbered.newState split.measured) fun _ hx _ => hx
  split at hok
  · exact nomatch hok
  · next i is hi =>
    have hlocq := hst.locations q hq List.not_mem_nil
    have hone := fun sid => hst.numbered.rebindOne (hst.known hq) sid i
    rw [hlocq] at hone
    have hmeasured := fun sid => hst.trans (hone sid) fun _ hx _ => hx
    have hlast : ∀ (w₂ : QStateRegistry) (sid : StateId), w.Carries w₂ [] →
        w.Carries (if w₂.qubitsOf sid = [] then w₂.removeState sid else w₂) [] := by
      intro w₂ sid h₂
      split_ifs
      · exact h₂.trans (h₂.numbered.removeState _) fun _ hx _ => hx
      · exact h₂
    split_ifs at hok
    · obtain ⟨w₂, hw₂, hok⟩ := bind_eq_ok.mp hok
      obtain rfl := Except.ok.inj hok
      have hst' := fun sid => (hmeasured sid).trans
        ((hmeasured sid).numbered.newState split.survivors) fun _ hx _ => hx
      have hrest := (hst' _).numbered.bindSurvivors _ q
        (fun r hr => (hst' _).known (hrel r hr)) hw₂
      exact hlast _ _ ((hst' _).trans hrest fun _ hx _ => hx)
    · obtain ⟨w₂, hw₂, hok⟩ := bind_eq_ok.mp hok
      obtain rfl := Except.ok.inj hok
      obtain rfl := Except.ok.inj hw₂
      exact hlast _ _ (hmeasured _)

/-! ## The processor -/

theorem Numbered.apply (h : w.Numbered) (node : NodeId) (gate : QGate)
    (qs : List QubitPtr) : w.Carries (w.apply node gate qs).2 [] := by
  rw [QStateRegistry.apply]
  split_ifs
  · exact h.carries []
  · exact h.carries []
  refine andThen_carries (h.mergeStates qs) (fun st w₁ h₁ _ => ?_) fun _ hx _ => hx
  cases st with
  | none => exact h₁.carries []
  | some st =>
      dsimp only
      cases (w₁.objects st).value.apply gate
          (qs.map fun q => (w₁.qubits q).indexInState) with
      | error e => exact h₁.carries []
      | ok value => exact h₁.setValue st value

theorem Numbered.measure (h : w.Numbered) (node : NodeId) {q : QubitPtr}
    (hq : q < w.numHandles → w.Known q) (basis : Basis) (draw : Bool) :
    w.Carries (w.measure node q basis draw).2 [] := by
  by_cases hnull : w.numHandles ≤ q
  · rw [QStateRegistry.measure, if_pos hnull]
    exact h.carries []
  by_cases hlocal : w.IsLocal node q
  swap
  · rw [QStateRegistry.measure, if_neg hnull, if_pos hlocal]
    exact h.carries []
  rw [QStateRegistry.measure, if_neg hnull, if_neg (not_not.mpr hlocal)]
  split
  · exact h.carries []
  next p hp =>
  dsimp only
  have hset := h.setValue p ((w.objects p).value.measure
    (w.qubits q).indexInState basis draw).2
  split
  · exact hset
  next split hsplit =>
  split
  · exact hset
  next w₁ hre =>
  have hlocq : (w.setValue p ((w.objects p).value.measure
      (w.qubits q).indexInState basis draw).2).getLocation q = .node node := hlocal
  refine hset.trans (hset.numbered.rebindMeasured p (fun r hr => ?_)
    (hset.known (hq (not_le.mp hnull))) (hlocq ▸ hre)) fun _ hx _ => hx
  exact hset.known (h.members _ r (List.mem_mergeSort.mp hr))

theorem Numbered.measureBell (h : w.Numbered) (node : NodeId) {a b : QubitPtr}
    (ha : a < w.numHandles → w.Known a) (hb : b < w.numHandles → w.Known b)
    (drawA drawB : Bool) :
    w.Carries (w.measureBell node a b drawA drawB).2 [] := by
  have hsame : ∀ x ∈ ([] : List QubitPtr), w.Known x → x ∈ ([] : List QubitPtr) :=
    fun _ hx _ => hx
  rw [QStateRegistry.measureBell]
  split_ifs with hnull hlosta hlostb hlocal
  · exact h.carries []
  · exact h.carries []
  · exact h.carries []
  · exact h.carries []
  obtain ⟨hna, hnb⟩ := not_or.mp hnull
  have hka := ha (not_le.mp hna)
  have hkb := hb (not_le.mp hnb)
  refine andThen_carries (h.apply node _ _) (fun ok w₁ h₁ hc₁ => ?_) hsame
  split_ifs
  · exact h₁.carries []
  refine andThen_carries (h₁.apply node _ _) (fun ok w₂ h₂ hc₂ => ?_) fun _ hx _ => hx
  split_ifs
  · exact h₂.carries []
  refine andThen_carries (h₂.measure node (fun _ => hc₂.known (hc₁.known hka)) _ _)
    (fun _ w₃ h₃ hc₃ => ?_) fun _ hx _ => hx
  exact andThen_carries
    (h₃.measure node (fun _ => hc₃.known (hc₂.known (hc₁.known hkb))) _ _)
    (fun _ w₄ h₄ _ => h₄.carries []) fun _ hx _ => hx

/-- Placing a handle that has just been made. -/
theorem Carries.place {q : QubitPtr} (h : w.Carries w' [] k)
    (hq : w.numHandles ≤ q) (hknown : w'.Known q) (node : NodeId) :
    w.Carries (w'.setLocationNode q node) [] k ∧
      ∀ x, w'.Known x → (w'.setLocationNode q node).Known x := by
  rw [setLocationNode]
  split_ifs
  · exact ⟨h, fun _ hx => hx⟩
  · have hset := h.numbered.setLocation hknown (.node node)
    exact ⟨h.trans hset fun x hx hx' =>
      absurd hq (not_le.mpr (List.mem_singleton.mp hx ▸ hx'.1)), fun x => hset.known⟩

/-- Every handle that has been made is known. -/
structure Registered (w : QStateRegistry) : Prop extends Numbered w where
  known : ∀ q < w.numHandles, w.Known q

theorem empty_registered : empty.Registered where
  nextId := Nat.one_pos
  bound := fun q hq => absurd hq (Nat.not_lt_zero q)
  id_inj := fun q _ hq => absurd hq.1 (Nat.not_lt_zero q)
  members := fun _ _ hq => absurd hq List.not_mem_nil
  index := inv_empty.index
  located := fun _ hne => absurd rfl hne
  known := fun q hq => absurd hq (Nat.not_lt_zero q)

/-- What a whole operation does: at the end every handle is known. -/
structure Moves (w w' : QStateRegistry) (l : List QubitPtr) : Prop where
  registered : w'.Registered
  handles : w.numHandles ≤ w'.numHandles
  locations : ∀ x < w.numHandles, x ∉ l → w'.getLocation x = w.getLocation x

theorem Registered.moves (h : w.Registered) (l : List QubitPtr) : w.Moves w l :=
  ⟨h, le_rfl, fun _ _ _ => rfl⟩

theorem Carries.moves_of_new (h : w.Carries w' l k) (hw : w.Registered)
    (hnew : ∀ i < k, w'.Known (w.numHandles + i)) : w.Moves w' l where
  registered := ⟨h.numbered, fun q hq => by
    by_cases hold : q < w.numHandles
    · exact h.known (hw.known q hold)
    · have hlt := h.numHandles ▸ hq
      have hsplit : w.numHandles + (q - w.numHandles) = q :=
        Nat.add_sub_cancel' (not_lt.mp hold)
      exact hsplit ▸ hnew (q - w.numHandles) (by omega)⟩
  handles := h.numHandles ▸ Nat.le_add_right _ _
  locations := fun x hx hxl => h.locations x (hw.known x hx) hxl

theorem Carries.moves (h : w.Carries w' l) (hw : w.Registered) : w.Moves w' l :=
  h.moves_of_new hw fun _ hi => absurd hi (Nat.not_lt_zero _)

theorem Moves.trans {w'' : QStateRegistry} (h : w.Moves w' l) (h' : w'.Moves w'' l')
    (hl : ∀ x ∈ l', x < w.numHandles → x ∈ l) : w.Moves w'' l where
  registered := h'.registered
  handles := h.handles.trans h'.handles
  locations := fun x hx hxl =>
    (h'.locations x (hx.trans_le h.handles) fun hx' => hxl (hl x hx' hx)).trans
      (h.locations x hx hxl)

theorem andThen_moves {α β : Type} {x : Except Exit α × QStateRegistry}
    {f : α → QStateRegistry → Except Exit β × QStateRegistry} (hx : w.Moves x.2 l)
    (hf : ∀ a (w' : QStateRegistry), w'.Registered → w'.Moves (f a w').2 l')
    (hl : ∀ x ∈ l', x < w.numHandles → x ∈ l) : w.Moves (andThen x f).2 l := by
  obtain ⟨a, w'⟩ := x
  cases a with
  | error e => exact hx
  | ok a => exact hx.trans (hf a w' hx.registered) hl

/-- One handle is made and placed. -/
theorem Registered.bindFirst (h : w.Registered) (node : NodeId)
    (res : CreateStateResult) : w.Moves (w.bindFirst node res).2 [] := by
  rw [QStateRegistry.bindFirst]
  split
  · exact h.moves []
  next i is hi =>
  have hnew := h.newHandle res.stateId i
  obtain ⟨hreg, hknown⟩ := hnew.numbered.register (Nat.lt_succ_self w.numHandles)
  have hcarry := hnew.trans hreg fun _ hx _ => hx
  obtain ⟨hplace, hkeep⟩ := hcarry.place le_rfl hknown node
  refine hplace.moves_of_new h fun j hj => ?_
  obtain rfl := Nat.lt_one_iff.mp hj
  exact hkeep _ hknown

theorem Registered.createQubit (h : w.Registered) (node : NodeId) :
    w.Moves (w.createQubit node).2 [] :=
  andThen_moves ((h.createState 1).moves h) (fun res _ h₁ => h₁.bindFirst node res)
    fun _ hx _ => hx

theorem Registered.createQubitFrom (h : w.Registered) (node : NodeId) (p : StatePtr) :
    w.Moves (w.createQubitFrom node p).2 [] := by
  rw [QStateRegistry.createQubitFrom]
  split_ifs
  · exact h.moves []
  · have hst := (h.createStateFromExisting p).moves h
    exact hst.trans (hst.registered.bindFirst node _) fun _ hx _ => hx

/-- Two handles are made and placed, then only gates run. -/
theorem Registered.createBellPair (h : w.Registered) (node : NodeId) :
    w.Moves (w.createBellPair node).2 [] := by
  refine andThen_moves ((h.createState 2).moves h) (fun created w h => ?_)
    fun _ hx _ => hx
  have hfirst := h.newHandle created.stateId (created.indices.getD 0 0)
  have hsecond := hfirst.trans (hfirst.numbered.newHandle created.stateId
    (created.indices.getD 1 0)) fun _ hx _ => hx
  have hnum := hsecond.numHandles
  obtain ⟨hreg₀, hknown₀⟩ := hsecond.numbered.register
    (hnum ▸ Nat.lt_add_of_pos_right Nat.two_pos)
  obtain ⟨hreg₁, hknown₁⟩ := hreg₀.numbered.register
    (q := w.numHandles + 1) (hreg₀.numHandles.trans hnum ▸ Nat.lt_succ_self _)
  have hregs := (hsecond.trans hreg₀ fun _ hx _ => hx).trans hreg₁ fun _ hx _ => hx
  obtain ⟨hplace₀, hkeep₀⟩ := hregs.place le_rfl (hreg₁.known hknown₀) node
  obtain ⟨hplace₁, hkeep₁⟩ := hplace₀.place (Nat.le_succ _) (hkeep₀ _ hknown₁) node
  have hplaced := hplace₁.moves_of_new h fun j hj => by
    match j, hj with
    | 0, _ => exact hkeep₁ _ (hkeep₀ _ (hreg₁.known hknown₀))
    | 1, _ => exact hkeep₁ _ (hkeep₀ _ hknown₁)
  refine andThen_moves (hplaced.trans
    ((hplaced.registered.apply node (.builtin .H) [w.numHandles]).moves
      hplaced.registered) fun _ hx _ => hx) (fun _ w₁ h₁ => ?_) fun _ hx _ => hx
  exact andThen_moves ((h₁.apply node _ _).moves h₁) (fun _ w₂ h₂ => h₂.moves [])
    fun _ hx _ => hx

/-! ## Runs -/

/-- The handles whose location an operation sets. -/
def placed : Op → List QubitPtr
  | .adoptQubit _ q => [q]
  | .setLocationNode q _ => [q]
  | .setLocationChannel q _ => [q]
  | .setLocationLost q => [q]
  | _ => []

theorem Registered.setLocation (h : w.Registered) {q : QubitPtr}
    (hq : q < w.numHandles) (loc : Location) : w.Moves (w.setLocation q loc) [q] :=
  (h.toNumbered.setLocation (h.known q hq) loc).moves h

theorem Registered.onHandle (h : w.Registered) {q : QubitPtr}
    (hw' : q < w.numHandles → w.Moves w' l) : w.Moves (w.onHandle q w').2 l := by
  rw [QStateRegistry.onHandle]
  split_ifs with hnull
  · exact h.moves l
  · exact hw' (not_le.mp hnull)

theorem Registered.setLocationNode (h : w.Registered) {q : QubitPtr}
    (hq : q < w.numHandles) (n : NodeId) : w.Moves (w.setLocationNode q n) [q] := by
  rw [QStateRegistry.setLocationNode]
  split_ifs
  · exact h.moves _
  · exact h.setLocation hq _

theorem Registered.setLocationChannel (h : w.Registered) {q : QubitPtr}
    (hq : q < w.numHandles) (c : ChannelId) :
    w.Moves (w.setLocationChannel q c) [q] := by
  rw [QStateRegistry.setLocationChannel]
  split_ifs
  · exact h.moves _
  · exact h.setLocation hq _

theorem Registered.adoptQubit (h : w.Registered) (node : NodeId) (q : QubitPtr) :
    w.Moves (w.adoptQubit node q) [q] := by
  rw [QStateRegistry.adoptQubit]
  split_ifs with hnull
  · exact h.moves _
  · exact h.moves _
  · exact h.setLocationNode (not_le.mp hnull) node

/-- What one operation does to the locations. -/
theorem Registered.exec (h : w.Registered) (op : Op) :
    w.Moves (w.exec op).2 (placed op) := by
  cases op with
  | newState value => exact (h.newObject value).moves h
  | setDefaultBackend b =>
      exact (@Numbered.carries_of_eq w (w.setDefaultBackend b) h.toNumbered rfl rfl rfl
        rfl rfl rfl fun s _ hx => ⟨s, hx⟩).moves h
  | createQubit node => exact h.createQubit node
  | createQubitFrom node state => exact h.createQubitFrom node state
  | createBellPair node => exact h.createBellPair node
  | apply node gate qs => exact (h.apply node gate qs).moves h
  | measure node q basis draw => exact (h.measure node (h.known q) basis draw).moves h
  | measureBell node a b drawA drawB =>
      exact (h.measureBell node (h.known a) (h.known b) drawA drawB).moves h
  | adoptQubit node q => exact h.adoptQubit node q
  | setLocationNode q node => exact h.onHandle fun hq => h.setLocationNode hq node
  | setLocationChannel q c => exact h.onHandle fun hq => h.setLocationChannel hq c
  | setLocationLost q => exact h.onHandle fun hq => h.setLocation hq .lost

/-- No operation brings a lost qubit back. -/
theorem Registered.exec_lost (h : w.Registered) (op : Op) {x : QubitPtr}
    (hx : x < w.numHandles) (hlost : w.getLocation x = .lost) :
    (w.exec op).2.getLocation x = .lost := by
  have hkeep : x ∉ placed op → (w.exec op).2.getLocation x = .lost := fun hout =>
    ((h.exec op).locations x hx hout).trans hlost
  by_cases hout : x ∈ placed op
  swap
  · exact hkeep hout
  cases op with
  | adoptQubit node q =>
      obtain rfl := List.mem_singleton.mp hout
      rw [QStateRegistry.exec, QStateRegistry.adoptQubit, if_neg (not_le.mpr hx),
        if_pos hlost]
      exact hlost
  | setLocationNode q node =>
      obtain rfl := List.mem_singleton.mp hout
      rw [QStateRegistry.exec, QStateRegistry.onHandle, if_neg (not_le.mpr hx),
        QStateRegistry.setLocationNode, if_pos hlost]
      exact hlost
  | setLocationChannel q c =>
      obtain rfl := List.mem_singleton.mp hout
      rw [QStateRegistry.exec, QStateRegistry.onHandle, if_neg (not_le.mpr hx),
        QStateRegistry.setLocationChannel, if_pos hlost]
      exact hlost
  | setLocationLost q =>
      obtain rfl := List.mem_singleton.mp hout
      rw [QStateRegistry.exec, QStateRegistry.onHandle, if_neg (not_le.mpr hx)]
      exact getLocation_setLocation _ _
  | _ => exact absurd hout List.not_mem_nil

end Q2NS.QStateRegistry
