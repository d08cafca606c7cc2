import Q2NS.FailedApply

/-!
# Operations are confined to the handles they name

An operation leaves every registered state as it is that holds none of the
handles it names, and every location but theirs.  This rests on the invariant,
which in turn rests on what `CreateQubit(state)` is given: an object that holds
one qubit and is not registered.
-/

namespace Q2NS.QStateRegistry

variable {w w' : QStateRegistry} {l l' : List QubitPtr}

/-- The handles that an operation names. -/
def named : Op → List QubitPtr
  | .apply _ _ qs => qs
  | .measure _ q _ _ => [q]
  | .measureBell _ a b _ _ => [a, b]
  | .adoptQubit _ q => [q]
  | .setLocationNode q _ => [q]
  | .setLocationChannel q _ => [q]
  | .setLocationLost q => [q]
  | _ => []

/-- What happens between `w` and `w'` is confined to the handles in `l` and the
states that hold them. -/
structure Confined (w w' : QStateRegistry) (l : List QubitPtr) : Prop where
  untouched : ∀ s, w.states s ≠ none →
    (∀ q ∈ l, q < w.numHandles → (w.qubits q).stateId ≠ s) → w.Untouched w' s
  locations : ∀ x < w.numHandles, x ∉ l → w'.getLocation x = w.getLocation x

theorem Confined.refl (w : QStateRegistry) (l : List QubitPtr) :
    w.Confined w l := ⟨fun s _ _ => .refl w s, fun _ _ _ => rfl⟩

/-- Steps that name handles of `l`, or handles made on the way. -/
theorem Confined.trans {w'' : QStateRegistry} (h : w.Confined w' l)
    (hw : w.Inv) (hk : w.Keeps w') (h' : w'.Confined w'' l')
    (hl : ∀ q ∈ l', q < w.numHandles → q ∈ l) : w.Confined w'' l where
  untouched := fun s hs hout => by
    have hsame := h.untouched s hs hout
    refine hsame.trans (h'.untouched s (hsame.states ▸ hs) fun q hq hlt he => ?_)
    have hmem : q ∈ w'.qubitsOf s := hk.inv.mem_qubitsOf_iff.mpr ⟨hlt, he⟩
    rw [hsame.qubitsOf, hw.mem_qubitsOf_iff] at hmem
    exact hout q (hl q hq hmem.1) hmem.1 hmem.2
  locations := fun x hx hxl => by
    have hxl' : x ∉ l' := fun hx' => hxl (hl x hx' hx)
    exact (h'.locations x (hx.trans_le hk.evolves.handles) hxl').trans
      (h.locations x hx hxl)

/-- The registry is sound, and what happened is confined to `l`. -/
structure KeepsBut (w w' : QStateRegistry) (l : List QubitPtr) : Prop where
  keeps : w.Keeps w'
  confined : w.Confined w' l

theorem Inv.keepsBut (h : w.Inv) (l : List QubitPtr) : w.KeepsBut w l :=
  ⟨h.keeps, .refl w l⟩

theorem KeepsBut.trans {w'' : QStateRegistry} (h : w.KeepsBut w' l)
    (hw : w.Inv) (h' : w'.KeepsBut w'' l')
    (hl : ∀ q ∈ l', q < w.numHandles → q ∈ l) : w.KeepsBut w'' l :=
  ⟨h.keeps.trans h'.keeps, h.confined.trans hw h.keeps h'.confined hl⟩

/-- Two calls in a row. -/
theorem andThen_keepsBut {α β : Type} {x : Except Exit α × QStateRegistry}
    {f : α → QStateRegistry → Except Exit β × QStateRegistry}
    (l' : List QubitPtr) (hw : w.Inv)
    (hx : w.KeepsBut x.2 l)
    (hf : ∀ a (w' : QStateRegistry), w'.Inv → w'.KeepsBut (f a w').2 l')
    (hl : ∀ q ∈ l', q < w.numHandles → q ∈ l) :
    w.KeepsBut (andThen x f).2 l := by
  obtain ⟨a, w'⟩ := x
  cases a with
  | error e => exact hx
  | ok a => exact hx.trans hw (hf a w' hx.keeps.inv) hl

/-! ## The operations -/

theorem Inv.apply_keepsBut (h : w.Inv) (node : NodeId) (gate : QGate)
    (qs : List QubitPtr) : w.KeepsBut (w.apply node gate qs).2 qs := by
  refine ⟨h.apply_keeps node gate qs, fun s hs hout => ?_, fun x _ _ =>
    h.apply_getLocation node gate qs x⟩
  by_cases hnull : ∃ q ∈ qs, w.numHandles ≤ q
  · obtain ⟨q, hq, hle⟩ := hnull
    have hne : qs ≠ [] := List.ne_nil_of_mem hq
    rw [apply, if_neg hne, if_pos ⟨q, hq, .inl hle⟩]
    exact .refl w s
  · exact h.apply_untouched node gate hs fun q hq => hout q hq
      (not_le.mp fun hle => hnull ⟨q, hq, hle⟩)

theorem measured_getLocation {s : StateId} {q : QubitPtr}
    {r : MeasureResult QState} (x : QubitPtr) :
    (w.measured s q r).getLocation x = w.getLocation x := by
  rw [getLocation, getLocation, measured_location, measured_qubitId]

/-- A measurement moves nothing. -/
theorem Inv.measure_getLocation (h : w.Inv) (node : NodeId) (q : QubitPtr)
    (basis : Basis) (draw : Bool) (x : QubitPtr) :
    (w.measure node q basis draw).2.getLocation x = w.getLocation x := by
  rcases h.measure_cases node q basis draw with ⟨-, hf⟩ | ⟨-, p, v, -, -,
    ⟨e, -, he⟩ | ⟨r, -, -, -, hok⟩⟩
  · rw [hf]
  · rw [he]
    rfl
  · rw [hok]
    exact measured_getLocation x

theorem Inv.measure_keepsBut (h : w.Inv) (node : NodeId) (q : QubitPtr)
    (basis : Basis) (draw : Bool) :
    w.KeepsBut (w.measure node q basis draw).2 [q] := by
  refine ⟨h.measure_keeps node q basis draw, fun s hs hout => ?_, fun x _ _ =>
    h.measure_getLocation node q basis draw x⟩
  rcases h.measure_cases node q basis draw with ⟨-, hf⟩ | ⟨⟨hq, -⟩, p, v, hp, hn,
    hcases⟩
  · rw [hf]
    exact .refl w s
  have hne : s ≠ (w.qubits q).stateId :=
    (hout q (List.mem_singleton_self q) hq).symm
  have hsame : w.Untouched (w.setValue p v) s :=
    untouched_setValue fun hp' => hne (h.states_inj hp' hp)
  rcases hcases with ⟨e, -, he⟩ | ⟨r, -, -, -, hok⟩
  · rw [he]
    exact hsame
  · rw [hok]
    exact hsame.trans ((h.setValue_keeps hn).inv.untouched_measured rfl hs hne r)

/-- A change of a location. -/
theorem setLocation_keepsBut (h : w.Inv) {q : QubitPtr} (hq : q < w.numHandles)
    (loc : Location) : w.KeepsBut (w.setLocation q loc) [q] := by
  refine ⟨⟨h.setLocation hq _, evolves_setLocation q _⟩, fun s _ _ =>
    ⟨rfl, rfl, fun _ _ => rfl, fun _ _ => rfl⟩, fun x hx hxq => ?_⟩
  have hid : (w.qubits x).qubitId ≠ (w.qubits q).qubitId := fun he =>
    hxq (List.mem_singleton.mpr (h.id_inj hx hq he))
  have hother : (w.setLocation q loc).location (w.qubits x).qubitId =
      w.location (w.qubits x).qubitId := Function.update_of_ne hid _ _
  rw [getLocation, getLocation, ← hother]
  rfl

theorem newObject_keepsBut (h : w.Inv) (v : QState) :
    w.KeepsBut (w.newObject v).2 [] :=
  ⟨⟨h.newObject_inv v, evolves_newObject v⟩, fun s _ _ =>
    untouched_newObject fun p hp => (h.object s p hp).1, fun _ _ _ => rfl⟩

theorem getLocation_of_eq {x : QubitPtr} (h : w'.location (w'.qubits x).qubitId =
    w.location (w.qubits x).qubitId) : w'.getLocation x = w.getLocation x := by
  rw [getLocation, getLocation, h]

/-- A new handle, before it is in a state. -/
theorem Inv.addHandle_confined (h : w.Inv) (n : NodeId) :
    w.Confined (w.addHandle n) [] := by
  have hqubits : ∀ x < w.numHandles, (w.addHandle n).qubits x = w.qubits x :=
    fun x hx => Function.update_of_ne hx.ne _ _
  refine ⟨fun s _ _ => ⟨rfl, rfl, fun _ _ => rfl, fun q hq =>
    hqubits q (h.mem_qubitsOf_iff.mp hq).1⟩, fun x hx _ => ?_⟩
  have hnew : (Function.update w.qubits w.numHandles ⟨w.nextQubitId, 0, 0⟩
      w.numHandles).qubitId = w.nextQubitId := by
    rw [Function.update_self]
  have hid : (w.qubits x).qubitId ≠ w.nextQubitId := (h.tracked x hx).id_lt.ne
  refine getLocation_of_eq ?_
  rw [hqubits x hx]
  exact Function.update_of_ne (fun he => hid (he.trans hnew)) _ _

/-- A state that is made of handles that were in no state. -/
theorem Inv.addGroup_untouched (h : w.Inv) {p : StatePtr} {qs : List QubitPtr}
    {w₁ : QStateRegistry} {s : StateId} (hs : w.states s ≠ none)
    (h₁ : w.Untouched w₁ s) (hnext : w₁.nextStateId = w.nextStateId)
    (hfree : ∀ s, w.states s ≠ some p) (hqs : ∀ q ∈ qs, w.numHandles ≤ q) :
    w.Untouched (w₁.addGroup p qs) s := by
  obtain ⟨p', hp'⟩ := Option.ne_none_iff_exists'.mp hs
  refine h₁.trans (untouched_addGroup (hnext ▸ (h.key s p' hp').2.ne)
    (h₁.states ▸ hfree s) fun q hq hmem => ?_)
  rw [h₁.qubitsOf, h.mem_qubitsOf_iff] at hq
  exact absurd hq.1 (not_lt.mpr (hqs q hmem))

theorem addGroup_getLocation (p : StatePtr) (qs : List QubitPtr) (x : QubitPtr) :
    (w.addGroup p qs).getLocation x = w.getLocation x := by
  have hid : ((w.addGroup p qs).qubits x).qubitId = (w.qubits x).qubitId :=
    bound_qubitId _ _ _ _
  rw [getLocation, getLocation, hid]
  rfl

theorem Inv.withQubit_keepsBut (h : w.Inv) (n : NodeId) {p : StatePtr}
    (hp : p < w.numObjects) (hfree : ∀ s, w.states s ≠ some p)
    (hn : (w.objects p).value.numQubits = 1) :
    w.KeepsBut (w.withQubit n p) [] := by
  have hadd := h.addHandle_confined n
  refine ⟨h.withQubit_keeps n hp hfree hn, fun s hs hout =>
    h.addGroup_untouched hs (hadd.untouched s hs hout) rfl hfree fun q hq =>
      (List.mem_singleton.mp hq).ge, fun x hx hxl => ?_⟩
  exact (addGroup_getLocation _ _ x).trans (hadd.locations x hx hxl)

theorem Inv.withPair_keepsBut (h : w.Inv) (n : NodeId) {v : QState}
    (hn : v.numQubits = 2) : w.KeepsBut (w.withPair n v) [] := by
  have hobj := newObject_keepsBut h v
  have hfirst := h.newObject_inv v |>.addHandle_confined n
  have hfree : ∀ s, w.states s ≠ some w.numObjects := fun s hs =>
    absurd (h.object s _ hs).1 (lt_irrefl _)
  -- the second handle is added while the first is in no state
  have hsecond : ∀ x < w.numHandles, (((w.newObject v).2.addHandle n).addHandle
      n).qubits x = w.qubits x := fun x hx =>
    (Function.update_of_ne (Nat.lt_succ_of_lt hx).ne _ _).trans
      (Function.update_of_ne hx.ne _ _)
  have hloc : ∀ x < w.numHandles, (((w.newObject v).2.addHandle n).addHandle
      n).getLocation x = w.getLocation x := by
    intro x hx
    have hsame := hfirst.locations x hx List.not_mem_nil
    have hid : (w.qubits x).qubitId ≠ w.nextQubitId + 1 :=
      (Nat.lt_succ_of_lt (h.tracked x hx).id_lt).ne
    have hfirstq : ((w.newObject v).2.addHandle n).qubits x = w.qubits x :=
      Function.update_of_ne hx.ne _ _
    have hnew : (Function.update ((w.newObject v).2.addHandle n).qubits
        (w.numHandles + 1) ⟨w.nextQubitId + 1, 0, 0⟩ (w.numHandles + 1)).qubitId =
        w.nextQubitId + 1 := by
      rw [Function.update_self]
    refine Eq.trans (getLocation_of_eq ?_) hsame
    rw [hsecond x hx, hfirstq]
    exact Function.update_of_ne (fun he => hid (he.trans hnew)) _ _
  refine ⟨h.withPair_keeps n hn, fun s hs hout => ?_, fun x hx _ =>
    (addGroup_getLocation _ _ x).trans (hloc x hx)⟩
  have hsame := hobj.confined.untouched s hs fun _ hq => absurd hq List.not_mem_nil
  have hadd : w.Untouched (((w.newObject v).2.addHandle n).addHandle n) s :=
    ⟨rfl, rfl, hsame.object, fun q hq => hsecond q (h.mem_qubitsOf_iff.mp hq).1⟩
  refine h.addGroup_untouched hs hadd rfl hfree fun q hq => ?_
  rcases List.mem_pair.mp hq with rfl | rfl
  · exact le_rfl
  · exact Nat.le_succ _

theorem Inv.createBellPair_keepsBut (h : w.Inv) (node : NodeId) :
    w.KeepsBut (w.createBellPair node).2 [] := by
  obtain ⟨v, hv, heq⟩ := h.createBellPair_eq node
  rw [heq]
  have hpair := h.withPair_keepsBut node (QState.create_numQubits hv)
  have hnew : ∀ {l' : List QubitPtr}, (∀ q ∈ l', w.numHandles ≤ q) →
      ∀ q ∈ l', q < w.numHandles → q ∈ ([] : List QubitPtr) :=
    fun hl q hq hlt => absurd hlt (not_lt.mpr (hl q hq))
  have hH := hpair.trans h (hpair.keeps.inv.apply_keepsBut node (.builtin .H)
    [w.numHandles]) (hnew fun q hq => (List.mem_singleton.mp hq).ge)
  refine andThen_keepsBut [w.numHandles, w.numHandles + 1] h hH
    (fun _ w₁ h₁ => ?_) (hnew fun q hq => ?_)
  · exact andThen_keepsBut _ h₁ (h₁.apply_keepsBut _ _ _)
      (fun _ w₂ h₂ => h₂.keepsBut []) fun q hq => absurd hq List.not_mem_nil
  · rcases List.mem_pair.mp hq with rfl | rfl
    · exact le_rfl
    · exact Nat.le_succ _

theorem Inv.measureBell_keepsBut (h : w.Inv) (node : NodeId) (a b : QubitPtr)
    (drawA drawB : Bool) :
    w.KeepsBut (w.measureBell node a b drawA drawB).2 [a, b] := by
  have ha : ∀ {w : QStateRegistry}, ∀ q ∈ [a], q < w.numHandles → q ∈ [a, b] :=
    fun q hq _ => List.mem_singleton.mp hq ▸ List.mem_cons_self
  have hb : ∀ {w : QStateRegistry}, ∀ q ∈ [b], q < w.numHandles → q ∈ [a, b] :=
    fun q hq _ => List.mem_singleton.mp hq ▸
      List.mem_cons_of_mem _ List.mem_cons_self
  have hall : ∀ {w : QStateRegistry}, ∀ q ∈ [a, b], q < w.numHandles → q ∈ [a, b] :=
    fun q hq _ => hq
  rw [measureBell]
  split_ifs
  case neg =>
    refine andThen_keepsBut [a, b] h (h.apply_keepsBut node _ _)
      (fun ok w₁ h₁ => ?_) hall
    split_ifs
    · exact h₁.keepsBut _
    have hH : w₁.KeepsBut (w₁.apply node (.builtin .H) [a]).2 [a, b] :=
      (h₁.keepsBut [a, b]).trans h₁ (h₁.apply_keepsBut node _ _) ha
    refine andThen_keepsBut [a, b] h₁ hH (fun ok w₂ h₂ => ?_) hall
    split_ifs
    · exact h₂.keepsBut _
    have hA : w₂.KeepsBut (w₂.measure node a .Z drawA).2 [a, b] :=
      (h₂.keepsBut [a, b]).trans h₂ (h₂.measure_keepsBut node _ _ _) ha
    refine andThen_keepsBut [b] h₂ hA (fun _ w₃ h₃ => ?_) hb
    exact andThen_keepsBut [] h₃ (h₃.measure_keepsBut node _ _ _)
      (fun _ w₄ h₄ => h₄.keepsBut _) fun q hq => absurd hq List.not_mem_nil
  all_goals exact h.keepsBut _

theorem Inv.onHandle_keepsBut (h : w.Inv) {q : QubitPtr}
    (hk : q < w.numHandles → w.KeepsBut w' l) : w.KeepsBut (w.onHandle q w').2 l := by
  rw [onHandle]
  split_ifs with hnull
  · exact h.keepsBut l
  · exact hk (not_le.mp hnull)

theorem Inv.setLocationNode_keepsBut (h : w.Inv) {q : QubitPtr}
    (hq : q < w.numHandles) (n : NodeId) :
    w.KeepsBut (w.setLocationNode q n) [q] := by
  rw [setLocationNode]
  split_ifs
  · exact h.keepsBut _
  · exact setLocation_keepsBut h hq _

/-- Every operation keeps the invariant and is confined to what it names. -/
theorem Inv.exec_keepsBut (h : w.Inv) {op : Op} (hop : w.AdoptsFresh op) :
    w.KeepsBut (w.exec op).2 (named op) := by
  cases op with
  | newState value => exact newObject_keepsBut h value
  | setDefaultBackend b =>
      exact ⟨@Inv.exec_keeps w h (.setDefaultBackend b) trivial,
        fun s _ _ => ⟨rfl, rfl, fun _ _ => rfl, fun _ _ => rfl⟩, fun _ _ _ => rfl⟩
  | createQubit node =>
      obtain ⟨v, hv, heq⟩ := h.createQubit_eq node
      rw [exec, ending, heq]
      have hobj := newObject_keepsBut h v
      refine hobj.trans h (hobj.keeps.inv.withQubit_keepsBut node
        (Nat.lt_succ_self _) (fun s hs => absurd (h.object s _ hs).1 (lt_irrefl _))
        ?_) fun q hq => absurd hq List.not_mem_nil
      exact (congrArg (fun o => o.value.numQubits) (newObject_self v)).trans
        (QState.create_numQubits hv)
  | createQubitFrom node p =>
      rw [exec, ending]
      by_cases hp : p < w.numObjects
      · obtain ⟨hn, hfree⟩ := hop hp
        rw [h.createQubitFrom_eq node hp (hn ▸ Nat.one_pos)]
        exact h.withQubit_keepsBut node hp hfree hn
      · rw [createQubitFrom, if_pos (not_lt.mp hp)]
        exact h.keepsBut _
  | createBellPair node => exact h.createBellPair_keepsBut node
  | apply node gate qs => exact h.apply_keepsBut node gate qs
  | measure node q basis draw => exact h.measure_keepsBut node q basis draw
  | measureBell node a b drawA drawB =>
      exact h.measureBell_keepsBut node a b drawA drawB
  | adoptQubit node q =>
      rw [exec, adoptQubit]
      split_ifs with hnull
      · exact h.keepsBut _
      · exact h.keepsBut _
      · exact h.setLocationNode_keepsBut (not_le.mp hnull) node
  | setLocationNode q node =>
      exact h.onHandle_keepsBut fun hq => h.setLocationNode_keepsBut hq node
  | setLocationChannel q c =>
      refine h.onHandle_keepsBut fun hq => ?_
      rw [setLocationChannel]
      split_ifs
      · exact h.keepsBut _
      · exact setLocation_keepsBut h hq _
  | setLocationLost q =>
      exact h.onHandle_keepsBut fun hq => setLocation_keepsBut h hq _

theorem Inv.step_keepsBut (h : w.Inv) {op : Op} (hop : w.AdoptsFresh op)
    (hs : w.step op = some w') : w.KeepsBut w' (named op) := by
  have hk := h.exec_keepsBut hop
  unfold step at hs
  split at hs
  · cases hs
  · next w'' heq =>
      obtain rfl := Option.some.inj hs
      rwa [heq] at hk

/-! ## Objects of the caller -/

/-- An object that holds no qubit leaves `CreateQubit` without an index. -/
theorem Inv.createQubitFrom_zero (h : w.Inv) (node : NodeId) {p : StatePtr}
    (hp : p < w.numObjects) (hn : (w.objects p).value.numQubits = 0) :
    w.step (.createQubitFrom node p) = none := by
  rw [step, exec, ending, createQubitFrom, if_neg (not_le.mpr hp),
    createStateFromExisting_eq h.fresh_states hp, hn]
  rfl

/-- Once `CreateQubit(state)` has adopted an object that holds a qubit, the
containers agree only if it held one qubit and was not registered. -/
theorem Inv.fresh_of_agree (h : w.Inv) (node : NodeId) {p : StatePtr}
    (hw : (w.withQubit node p).ContainersAgree) :
    (w.objects p).value.numQubits = 1 ∧ ∀ s, w.states s ≠ some p := by
  have hstates : (w.withQubit node p).states w.nextStateId = some p :=
    Function.update_self _ _ _
  have hmembers : (w.withQubit node p).members w.nextStateId =
      some [w.numHandles] := Function.update_self _ _ _
  have hobj : (w.withQubit node p).objects p =
      { w.objects p with stateId := w.nextStateId } := Function.update_self _ _ _
  have hindex : ((w.withQubit node p).qubits w.numHandles).indexInState = 0 := by
    have hbound := @bound_of_mem (w.addHandle node) w.nextStateId 0 _ _
      (List.mem_singleton_self w.numHandles)
    refine (congrArg Qubit.indexInState hbound).trans ?_
    rw [List.idxOf_cons_self]
  constructor
  · have hbij := hw.indices _ p _ hstates hmembers
    rw [hobj] at hbij
    have hpos : 0 < (w.objects p).value.numQubits := by
      have := hbij.mapsTo (List.mem_singleton_self w.numHandles)
      rw [hindex] at this
      exact this
    by_contra hne
    obtain ⟨x, hx, hx1⟩ := hbij.surjOn
      (show 1 ∈ Set.Iio (w.objects p).value.numQubits by
        rw [Set.mem_Iio]
        omega)
    rw [List.mem_singleton.mp hx] at hx1
    exact absurd (hindex.symm.trans hx1) Nat.zero_ne_one
  · intro s hs
    have hne : s ≠ w.nextStateId := (h.key s p hs).2.ne
    have hs' : (w.withQubit node p).states s = some p :=
      (Function.update_of_ne hne _ _).trans hs
    have hown := (hw.ownKey s p hs').2
    rw [hobj] at hown
    exact hne hown.symm

theorem Inv.createQubitFrom_agrees_iff (h : w.Inv) (node : NodeId) {p : StatePtr}
    (hp : p < w.numObjects) :
    (∃ w', w.step (.createQubitFrom node p) = some w' ∧ w'.ContainersAgree) ↔
      w.AdoptsFresh (.createQubitFrom node p) := by
  have hstep : 0 < (w.objects p).value.numQubits →
      w.step (.createQubitFrom node p) = some (w.withQubit node p) := by
    intro hpos
    rw [step, exec, ending, h.createQubitFrom_eq node hp hpos]
    rfl
  constructor
  · rintro ⟨w', hs, hagree⟩
    rcases Nat.eq_zero_or_pos (w.objects p).value.numQubits with hn | hpos
    · rw [h.createQubitFrom_zero node hp hn] at hs
      cases hs
    · obtain rfl := Option.some.inj ((hstep hpos).symm.trans hs)
      exact fun _ => h.fresh_of_agree node hagree
  · intro hop
    obtain ⟨hn, hfree⟩ := hop hp
    exact ⟨_, hstep (hn ▸ Nat.one_pos),
      (h.withQubit_keeps node hp hfree hn).inv.containersAgree⟩

/-- An object of one qubit is made and adopted. -/
theorem Inv.adopt (h : w.Inv) {v : QState} (hn : v.numQubits = 1) (node : NodeId) :
    Run AdoptsFresh w ((w.newObject v).2.withQubit node w.numObjects) ∧
      ((w.newObject v).2.withQubit node w.numObjects).Inv := by
  have hnew := h.newObject_inv v
  have hvalue : (((w.newObject v).2.objects w.numObjects).value).numQubits = 1 := by
    rw [show (w.newObject v).2.objects w.numObjects = _ from Function.update_self _ _ _]
    exact hn
  have hfree : ∀ s, (w.newObject v).2.states s ≠ some w.numObjects := fun s hs =>
    (h.object s _ hs).1.ne rfl
  refine ⟨.tail (.single ⟨.newState v, trivial, rfl⟩)
    ⟨.createQubitFrom node w.numObjects, fun _ => ⟨hvalue, hfree⟩, ?_⟩,
    (hnew.withQubit_keeps node (Nat.lt_succ_self _) hfree hvalue).inv⟩
  rw [step, exec, hnew.createQubitFrom_eq node (Nat.lt_succ_self _) (hvalue ▸ Nat.one_pos)]
  rfl

/-- In runs in which `CreateQubit(state)` only gets unregistered objects of one
qubit, the containers agree in every registry reached, and an operation neither
moves a handle that it does not name nor changes anything about one that is in no
state of a handle it names.  No other object can be adopted without breaking the
containers. -/
theorem adopted_states_isolated (h : Reachable AdoptsFresh w) :
    w.ContainersAgree ∧
      (∀ op w', w.AdoptsFresh op → w.step op = some w' →
        ∀ x < w.numHandles, x ∉ named op →
          w'.getLocation x = w.getLocation x ∧
          ((∀ q ∈ named op, q < w.numHandles →
              (w.qubits q).stateId ≠ (w.qubits x).stateId) →
            w'.qubits x = w.qubits x ∧
              w.Untouched w' (w.qubits x).stateId)) ∧
      ∀ node p, p < w.numObjects →
        ((∃ w', w.step (.createQubitFrom node p) = some w' ∧
          w'.ContainersAgree) ↔ w.AdoptsFresh (.createQubitFrom node p)) := by
  have hinv := reachable_inv h
  refine ⟨hinv.containersAgree, fun op w' hop hs x hx hxl => ?_,
    fun node p hp => hinv.createQubitFrom_agrees_iff node hp⟩
  have hconf := (hinv.step_keepsBut hop hs).confined
  refine ⟨hconf.locations x hx hxl, fun hout => ?_⟩
  have hsame := hconf.untouched _ (hinv.states_of_handle hx) hout
  exact ⟨hsame.handles x (hinv.mem_qubitsOf_iff.mpr ⟨hx, rfl⟩), hsame⟩

/-- A gate on one of two adopted objects leaves the other alone. -/
theorem adopted_states_isolated_two : ∃ w w', Reachable AdoptsFresh w ∧
    (w.states (w.qubits 0).stateId = some 0 ∧ w.states (w.qubits 1).stateId = some 1 ∧
      ∀ p < 2, (w.objects p).value = .stab (QStateStab.init 1)) ∧
    w.step (.apply 0 (.builtin .X) [0]) = some w' ∧ 1 < w.numHandles ∧
      w.ContainersAgree ∧ w'.qubits 1 = w.qubits 1 ∧
      w.Untouched w' (w.qubits 1).stateId := by
  obtain ⟨hrun₁, h₁⟩ := inv_empty.adopt (v := .stab (QStateStab.init 1)) rfl 0
  obtain ⟨hrun₂, h₂⟩ := h₁.adopt (v := .stab (QStateStab.init 1)) rfl 0
  obtain ⟨U, hacc⟩ := QState.accepts_builtin .Stab
    (show QGateKind.X ≠ .Custom by decide)
  set w := (((empty.newObject (.stab (QStateStab.init 1))).2.withQubit 0 0).newObject
    (.stab (QStateStab.init 1))).2.withQubit 0 1
  have hvalue : ∀ p < 2, (w.objects p).value = .stab (QStateStab.init 1) := by
    intro p hp
    interval_cases p <;> rfl
  have hall : AllStates (fun v => v.WellFormed ∧ v.backend = .Stab) w := fun s p hp => by
    rw [hvalue p (h₂.object s p hp).1]
    exact ⟨QStateStab.init_repInv 1, rfl⟩
  obtain ⟨w', hw'⟩ := show ∃ w', w.apply 0 (.builtin .X) [0] = (.ok true, w') from
    h₂.apply_succeeds hall hacc (List.cons_ne_nil _ _) (List.nodup_singleton _)
      fun q hq => by
        rw [List.mem_singleton.mp hq]
        exact ⟨Nat.two_pos, rfl⟩
  have hstep : w.step (.apply 0 (.builtin .X) [0]) = some w' := by
    rw [step, exec, hw']
    rfl
  have hreach : Reachable AdoptsFresh w := hrun₁.trans hrun₂
  obtain ⟨hagree, hiso, -⟩ := adopted_states_isolated hreach
  obtain ⟨-, hsame⟩ := hiso (.apply 0 (.builtin .X) [0]) w' trivial hstep 1
    Nat.one_lt_two (show 1 ∉ [0] by decide)
  have hout : ∀ q ∈ named (.apply 0 (.builtin .X) [0]), q < w.numHandles →
      (w.qubits q).stateId ≠ (w.qubits 1).stateId := fun q hq _ =>
    List.mem_singleton.mp hq ▸ show (1 : ℕ) ≠ 2 by decide
  exact ⟨w, w', hreach, ⟨rfl, rfl, hvalue⟩, hstep, Nat.one_lt_two, hagree, hsame hout⟩

/-- `CreateQubit` takes a two-qubit object, and an object that is registered
already, and the containers do not agree afterwards. -/
theorem shared_state_not_isolated : ∃ w w₁ w₂ w₃ : QStateRegistry,
    Reachable AdoptsFresh w ∧
      (w.createQubitFrom 0 0 = (.ok (some 0), w₁) ∧
        (w.objects 0).value.numQubits = 2 ∧ ¬ w₁.ContainersAgree) ∧
      (w.createQubitFrom 0 1 = (.ok (some 0), w₂) ∧ w₂.ContainersAgree) ∧
      (w₂.createQubitFrom 0 1 = (.ok (some 1), w₃) ∧ ¬ w₃.ContainersAgree) := by
  let w := ((empty.newObject (.stab (QStateStab.init 2))).2.newObject
    (.stab (QStateStab.init 1))).2
  have hw : w.Inv := (inv_empty.newObject_inv _).newObject_inv _
  have hreach : Reachable AdoptsFresh w :=
    .tail (.single ⟨.newState (.stab (QStateStab.init 2)), trivial, rfl⟩)
      ⟨.newState (.stab (QStateStab.init 1)), trivial, rfl⟩
  have htwo : (w.objects 0).value.numQubits = 2 := rfl
  have hone : (w.objects 1).value.numQubits = 1 := rfl
  have hkeep := hw.withQubit_keeps 0 (p := 1) Nat.one_lt_two (fun s => nofun) hone
  have hone' : ((w.withQubit 0 1).objects 1).value.numQubits = 1 := rfl
  refine ⟨w, w.withQubit 0 0, w.withQubit 0 1, (w.withQubit 0 1).withQubit 0 1,
    hreach, ⟨hw.createQubitFrom_eq 0 Nat.two_pos (htwo ▸ Nat.two_pos), htwo,
      fun hagree => ?_⟩,
    ⟨hw.createQubitFrom_eq 0 Nat.one_lt_two (hone ▸ Nat.one_pos),
      hkeep.inv.containersAgree⟩,
    hkeep.inv.createQubitFrom_eq 0 Nat.one_lt_two (hone' ▸ Nat.one_pos),
    fun hagree => ?_⟩
  · exact absurd ((hw.fresh_of_agree 0 hagree).1) (by rw [htwo]; decide)
  · exact (hkeep.inv.fresh_of_agree 0 hagree).2 1 rfl

end Q2NS.QStateRegistry
