import Q2NS.Registry.GlobalState

/-!
# The values of the registered states

A property of state objects that the backends keep holds of all registered
states, and merging for `Apply` changes neither the global state nor the states
that hold none of the listed handles.
-/

namespace Q2NS.QStateRegistry

open NamedTensor Loop Finset

variable {w w' : QStateRegistry} {Ok : QState → Prop}

/-- What the calls of the backends do to `Ok`. -/
structure Closed (Ok : QState → Prop) : Prop where
  merge : ∀ {u v m}, Ok u → Ok v → u.mergeDisjoint v = .ok m → Ok m
  gate : ∀ {v v' kind ts}, Ok v → kind ≠ .Custom → ts.length = kind.arity →
    ts.Nodup → (∀ t ∈ ts, t < v.numQubits) →
    v.apply (.builtin kind) ts = .ok v' → Ok v'
  measure : ∀ {v v' t basis draw res}, Ok v → t < v.numQubits →
    v.measure t basis draw = (res, v') →
    (∀ e, res = .error e → Ok v') ∧
      ∀ r, res = .ok r → Ok r.measured ∧ Ok r.survivors

theorem Closed.and {Ok' : QState → Prop} (h : Closed Ok) (h' : Closed Ok') :
    Closed fun v => Ok v ∧ Ok' v where
  merge := fun hu hv hm => ⟨h.merge hu.1 hv.1 hm, h'.merge hu.2 hv.2 hm⟩
  gate := fun hv hk hlen hd hlt hok =>
    ⟨h.gate hv.1 hk hlen hd hlt hok, h'.gate hv.2 hk hlen hd hlt hok⟩
  measure := fun hv ht hres =>
    ⟨fun e he => ⟨(h.measure hv.1 ht hres).1 e he, (h'.measure hv.2 ht hres).1 e he⟩,
      fun r hr => ⟨⟨((h.measure hv.1 ht hres).2 r hr).1,
        ((h'.measure hv.2 ht hres).2 r hr).1⟩,
        ((h.measure hv.1 ht hres).2 r hr).2, ((h'.measure hv.2 ht hres).2 r hr).2⟩⟩

/-- The backends never change the backend. -/
theorem backends_closed (P : QStateBackend → Prop) : Closed fun v => P v.backend where
  merge := fun hu _ hm => (QState.mergeDisjoint_backend hm).2.symm ▸ hu
  gate := fun hv _ _ _ _ hok => (QState.apply_backend hok).symm ▸ hv
  measure := fun hv _ hres =>
    ⟨fun _ _ => (QState.measure_backend hres).1.symm ▸ hv,
      fun r hr => ⟨((QState.measure_backend hres).2 r hr).1.symm ▸ hv,
        ((QState.measure_backend hres).2 r hr).2.symm ▸ hv⟩⟩

theorem backend_closed (b : QStateBackend) : Closed fun v => v.backend = b :=
  backends_closed (· = b)

/-- Built-in gates on distinct qubits, merges and measurements keep states
well formed. -/
theorem wellFormed_closed : Closed QState.WellFormed where
  merge := fun {u v m} hu hv hm => by
    obtain ⟨m', hok, hwf, -⟩ :=
      QState.mergeDisjoint_ok hu hv (QState.mergeDisjoint_backend hm).1
    rw [hm, Except.ok.injEq] at hok
    exact hok ▸ hwf
  gate := fun {v v' kind ts} hv hk hlen hd hlt happly => by
    obtain ⟨U, hU⟩ := QState.accepts_builtin v.backend hk
    rw [← hlen] at hU
    have hne : ts ≠ [] := by
      rintro rfl
      cases kind <;> first | exact hk rfl | cases hlen
    obtain ⟨v'', hok, hwf, -⟩ := QState.apply_ok hv hU hne hd hlt
    rw [happly, Except.ok.injEq] at hok
    exact hok ▸ hwf
  measure := fun {v v' t basis draw res} hv ht hres => by
    obtain ⟨r, v'', hok, -, -, hm, -, -, hs, -⟩ :=
      QState.measure_ok hv ht basis draw
    rw [hres, Prod.mk.injEq] at hok
    obtain ⟨rfl, -⟩ := hok
    refine ⟨fun e he => (nomatch he), fun r' hr => ?_⟩
    rw [← Except.ok.inj hr]
    exact ⟨hm, hs⟩

/-- Well-formed states are read by their density tensors. -/
theorem kernelReading : Reading QState.WellFormed QState.kernel where
  dependsOn := QState.kernel_dependsOn
  merge := fun {u v m} hu hv hm => by
    obtain ⟨m', hm', hwf, -, -, hkernel⟩ :=
      QState.mergeDisjoint_ok hu hv (QState.mergeDisjoint_backend hm).1
    rw [hm, Except.ok.injEq] at hm'
    exact hm' ▸ ⟨hwf, hkernel⟩

/-! ## Moves -/

/-- All states but those in `sids` satisfy `Ok`. -/
def AllStatesBut (Ok : QState → Prop) (w : QStateRegistry) (sids : List StateId) :
    Prop := ∀ s p, w.states s = some p → s ∉ sids → Ok (w.objects p).value

theorem AllStates.but (h : AllStates Ok w) (sids : List StateId) :
    AllStatesBut Ok w sids := fun s p hp _ => h s p hp

theorem AllStatesBut.dropStates {sids : List StateId}
    (h : AllStatesBut Ok w sids) : AllStates Ok (w.dropStates sids) :=
  fun s p hp => h s p (of_dropStates_states hp).2 (of_dropStates_states hp).1

theorem AllStates.newObject (h : AllStates Ok w)
    (hw : ∀ s p, w.states s = some p → p < w.numObjects) (v : QState) :
    AllStates Ok (w.newObject v).2 := fun s p hp => by
  rw [newObject_objects (hw s p hp)]
  exact h s p hp

theorem AllStates.addGroup (h : AllStates Ok w) {p : StatePtr}
    (hp : Ok (w.objects p).value) (qs : List QubitPtr) :
    AllStates Ok (w.addGroup p qs) := by
  intro s p' hs
  rw [addGroup_value]
  have hupd : Function.update w.states w.nextStateId (some p) s = some p' := hs
  by_cases hn : s = w.nextStateId
  · rw [hn, Function.update_self, Option.some.injEq] at hupd
    exact hupd ▸ hp
  · rw [Function.update_of_ne hn] at hupd
    exact h s p' hupd

theorem AllStatesBut.setValue {s : StateId} {p : StatePtr} (hw : w.Inv)
    (hp : w.states s = some p) (h : AllStates Ok w) (v : QState) :
    AllStatesBut Ok (w.setValue p v) [s] := by
  intro s' p' hp' hs'
  have hp'' : w.states s' = some p' := hp'
  have hne : p' ≠ p := by
    rintro rfl
    exact hs' (List.mem_singleton.mpr (hw.states_inj hp'' hp))
  have hobj : (w.setValue p v).objects p' = w.objects p' :=
    Function.update_of_ne hne _ _
  rw [hobj]
  exact h s' p' hp'

theorem AllStates.setValue (h : AllStates Ok w) {v : QState} (hv : Ok v)
    (p : StatePtr) : AllStates Ok (w.setValue p v) := by
  intro s p' hp'
  by_cases hne : p' = p
  · have hobj : (w.setValue p v).objects p = { w.objects p with value := v } :=
      Function.update_self _ _ _
    rw [hne, hobj]
    exact hv
  · have hobj : (w.setValue p v).objects p' = w.objects p' :=
      Function.update_of_ne hne _ _
    rw [hobj]
    exact h s p' hp'

theorem AllStates.merged (h : AllStates Ok w) (hw : w.Inv) {v : QState}
    (hv : Ok v) (sids : List StateId) : AllStates Ok (w.merged sids v) := by
  have hdrop := ((h.newObject (fun s p hp => (hw.object s p hp).1) v).but
    sids).dropStates
  refine hdrop.addGroup ?_ _
  exact (congrArg StateObject.value (newObject_self v)).symm ▸ hv

theorem AllStatesBut.measured {s : StateId} (h : AllStatesBut Ok w [s])
    (hw : w.Inv) {r : MeasureResult QState} (hm : Ok r.measured)
    (hs : Ok r.survivors) (q : QubitPtr) :
    AllStates Ok (w.measured s q r) := by
  have hnew : AllStatesBut Ok (w.newObject r.measured).2 [s] := by
    intro s' p' hp' hs'
    rw [newObject_objects (hw.object s' p' hp').1]
    exact h s' p' hp' hs'
  have hfirst := hnew.dropStates.addGroup (p := w.numObjects)
    ((congrArg StateObject.value (newObject_self r.measured)).symm ▸ hm) [q]
  rw [QStateRegistry.measured]
  split_ifs
  · refine (hfirst.newObject (fun s' p' hp' => ?_) r.survivors).addGroup
      ((congrArg StateObject.value (newObject_self
        (w := ((w.newObject r.measured).2.dropStates [s]).addGroup w.numObjects
          [q]) r.survivors)).symm ▸ hs) _
    have hupd : Function.update
        ((w.newObject r.measured).2.dropStates [s]).states w.nextStateId
          (some w.numObjects) s' = some p' := hp'
    by_cases hn : s' = w.nextStateId
    · rw [hn, Function.update_self, Option.some.injEq] at hupd
      exact hupd ▸ Nat.lt_succ_self _
    · rw [Function.update_of_ne hn] at hupd
      exact Nat.lt_succ_of_lt (hw.object s' p' (of_dropStates_states hupd).2).1
  · exact hfirst

theorem AllStates.withQubit (h : AllStates Ok w) (n : NodeId) {p : StatePtr}
    (hp : Ok (w.objects p).value) : AllStates Ok (w.withQubit n p) :=
  AllStates.addGroup (w := w.addHandle n) h hp _

/-! ## Gathering -/

theorem mergeValues_ok (hC : Closed Ok) {u m : QState} {vs : List QState}
    (hu : Ok u) (hvs : ∀ v ∈ vs, Ok v) (hm : mergeValues u vs = .ok m) : Ok m := by
  induction vs generalizing u with
  | nil => exact Except.ok.inj hm ▸ hu
  | cons v vs ih =>
      rw [mergeValues, List.foldlM_cons] at hm
      obtain ⟨m₁, hm₁, hm⟩ := bind_eq_ok.mp hm
      exact ih (hC.merge hu (hvs v List.mem_cons_self) hm₁)
        (fun x hx => hvs x (List.mem_cons_of_mem _ hx)) hm

theorem Gathered.allStates {qs : List QubitPtr} {p : StatePtr}
    (hg : w.Gathered qs w' p) (h : w.Inv) (hqs : ∀ q ∈ qs, q < w.numHandles)
    (hC : Closed Ok) (hall : AllStates Ok w) : AllStates Ok w' := by
  cases hg with
  | same => exact hall
  | several hs hv =>
      have hreg := hs.registered h hqs
      refine hall.merged h (mergeValues_ok hC
        (hall.valueOf (hreg _ List.mem_cons_self)) (fun v hv => ?_) hv) _
      obtain ⟨s', hs', rfl⟩ := List.mem_map.mp hv
      exact hall.valueOf (hreg s' (List.mem_cons_of_mem _ hs'))

theorem Gathered.globalOf {β : Type} [Inhabited β]
    {D : QState → (ℕ → β) → ℂ} {qs : List QubitPtr} {p : StatePtr}
    (hg : w.Gathered qs w' p) (h : w.Inv) (hqs : ∀ q ∈ qs, q < w.numHandles)
    (hD : Reading Ok D) (hall : AllStates Ok w) :
    QStateRegistry.globalOf D w' = QStateRegistry.globalOf D w := by
  cases hg with
  | same => rfl
  | several hs hv =>
      exact h.globalOf_merged hD hall hs.nodup (hs.registered h hqs) hv

/-- Gathering leaves a state alone that holds none of the handles. -/
theorem Gathered.untouched {qs : List QubitPtr} {p : StatePtr}
    (hg : w.Gathered qs w' p) (h : w.Inv) (hne : qs ≠ []) {s : StateId}
    (hs : w.states s ≠ none) (hout : ∀ q ∈ qs, (w.qubits q).stateId ≠ s) :
    w.Untouched w' s ∧ w'.states s ≠ some p := by
  cases hg with
  | same hall hp =>
      obtain ⟨q, hq⟩ := List.exists_mem_of_ne_nil qs hne
      refine ⟨.refl _ _, fun hp' => hout q hq ?_⟩
      rw [hall q hq, h.states_inj hp hp']
  | @several s₁ rest v hsev hv =>
      have hmem : s ∉ s₁ :: rest := fun hmem => by
        obtain ⟨q, hq, rfl⟩ := (hsev.mem s).mp hmem
        exact hout q hq rfl
      have hsame := h.untouched_merged hs hmem v
      refine ⟨hsame, fun hp' => ?_⟩
      exact absurd (h.object s _ (hsame.states ▸ hp')).1 (lt_irrefl _)

/-- Merging on its own, whether it succeeds or not. -/
theorem Inv.globalOf_mergeStates {β : Type} [Inhabited β] {Ok : QState → Prop}
    {D : QState → (ℕ → β) → ℂ} (h : w.Inv) (hD : Reading Ok D)
    (hall : AllStates Ok w) (qs : List QubitPtr) :
    globalOf D (w.mergeStates qs).2 = globalOf D w := by
  by_cases hne : qs = []
  · rw [mergeStates, if_pos hne]
  by_cases hnull : ∃ q ∈ qs, w.numHandles ≤ q
  · rw [mergeStates, if_neg hne, if_pos hnull]
  have hqs : ∀ q ∈ qs, q < w.numHandles := fun q hq =>
    not_le.mp fun hle => hnull ⟨q, hq, hle⟩
  rcases h.mergeStates_gathered hne hqs with ⟨w', p, hg, hok⟩ |
    ⟨s, rest, e, -, -, he⟩
  · rw [hok]
    exact hg.globalOf h hqs hD hall
  · rw [he]

/-- Merging leaves a state alone that holds none of the handles. -/
theorem Inv.mergeStates_untouched (h : w.Inv) {qs : List QubitPtr} {s : StateId}
    (hs : w.states s ≠ none) (hout : ∀ q ∈ qs, (w.qubits q).stateId ≠ s) :
    w.Untouched (w.mergeStates qs).2 s := by
  by_cases hne : qs = []
  · rw [mergeStates, if_pos hne]
    exact .refl _ _
  by_cases hnull : ∃ q ∈ qs, w.numHandles ≤ q
  · rw [mergeStates, if_neg hne, if_pos hnull]
    exact .refl _ _
  have hqs : ∀ q ∈ qs, q < w.numHandles := fun q hq =>
    not_le.mp fun hle => hnull ⟨q, hq, hle⟩
  rcases h.mergeStates_gathered hne hqs with ⟨w', p, hg, hok⟩ |
    ⟨s', rest, e, -, -, he⟩
  · rw [hok]
    exact (hg.untouched h hne hs hout).1
  · rw [he]
    exact .refl _ _

/-- So does a gate, however its call ends. -/
theorem Inv.apply_untouched (h : w.Inv) (node : NodeId) (gate : QGate)
    {qs : List QubitPtr} {s : StateId} (hs : w.states s ≠ none)
    (hout : ∀ q ∈ qs, (w.qubits q).stateId ≠ s) :
    w.Untouched (w.apply node gate qs).2 s := by
  rcases h.apply_cases node gate qs with ⟨-, hf⟩ | ⟨⟨hne, -⟩,
    ⟨s', rest, e, -, -, he⟩ | ⟨w', p, hg, -, ⟨e, -, he⟩ | ⟨v, -, hok⟩⟩⟩
  · rw [hf]
    exact .refl _ _
  · rw [he]
    exact .refl _ _
  · rw [he]
    exact (hg.untouched h hne hs hout).1
  · rw [hok]
    obtain ⟨hsame, hp⟩ := hg.untouched h hne hs hout
    exact hsame.trans (untouched_setValue hp)

/-! ## Operations -/

/-- Wherever the handles are gathered, the gate keeps `Ok`. -/
def AppliesOk (Ok : QState → Prop) (w : QStateRegistry) (gate : QGate)
    (qs : List QubitPtr) : Prop :=
  ∀ w' p v, w.Gathered qs w' p → Ok (w'.objects p).value →
    (w'.objects p).value.apply gate (w'.targetsOf qs) = .ok v → Ok v

theorem Gathered.targets {qs : List QubitPtr} {p : StatePtr}
    (hg : w.Gathered qs w' p) (h : w.Inv) (hqs : ∀ q ∈ qs, q < w.numHandles) :
    (qs.Nodup → (w'.targetsOf qs).Nodup) ∧
      ∀ t ∈ w'.targetsOf qs, t < (w'.objects p).value.numQubits := by
  have hk := hg.keeps h hqs
  obtain ⟨s, hp, hhome⟩ := hg.home h hqs
  have hin : ∀ q ∈ qs, q < w'.numHandles ∧ (w'.qubits q).stateId = s :=
    fun q hq => ⟨(hqs q hq).trans_le hk.evolves.handles, hhome q hq⟩
  exact ⟨fun hd => hk.inv.targets_nodup hd hin, hk.inv.targets_lt hp hin⟩

theorem Closed.appliesOk (hC : Closed Ok) (h : w.Inv) {kind : QGateKind}
    (hk : kind ≠ .Custom) {qs : List QubitPtr} (hlen : qs.length = kind.arity)
    (hd : qs.Nodup) (hqs : ∀ q ∈ qs, q < w.numHandles) :
    AppliesOk Ok w (.builtin kind) qs := by
  intro w' p v hg hok hv
  obtain ⟨hnodup, hlt⟩ := hg.targets h hqs
  exact hC.gate hok hk ((length_targetsOf w' qs).trans hlen) (hnodup hd) hlt hv

theorem Inv.apply_allStates (h : w.Inv) (hC : Closed Ok) (hall : AllStates Ok w)
    (node : NodeId) {gate : QGate} {qs : List QubitPtr}
    (hgate : AppliesOk Ok w gate qs) :
    AllStates Ok (w.apply node gate qs).2 := by
  rcases h.apply_cases node gate qs with ⟨-, hf⟩ | ⟨⟨-, hqs⟩,
    ⟨s, rest, e, -, -, he⟩ | ⟨w', p, hg, -, ⟨e, -, he⟩ | ⟨v, hv, hok⟩⟩⟩
  · rw [hf]
    exact hall
  · rw [he]
    exact hall
  · rw [he]
    exact hg.allStates h (fun q hq => (hqs q hq).1) hC hall
  · rw [hok]
    have hall' := hg.allStates h (fun q hq => (hqs q hq).1) hC hall
    obtain ⟨s, hp, -⟩ := hg.home h fun q hq => (hqs q hq).1
    exact hall'.setValue (hgate w' p v hg (hall' s p hp) hv) p

theorem Inv.measure_allStates (h : w.Inv) (hC : Closed Ok) (hall : AllStates Ok w)
    (node : NodeId) (q : QubitPtr) (basis : Basis) (draw : Bool) :
    AllStates Ok (w.measure node q basis draw).2 := by
  rcases h.measure_cases node q basis draw with ⟨-, hf⟩ | ⟨⟨hq, -⟩, p, v, hp, hn,
    ⟨e, hv, he⟩ | ⟨r, hv, -, -, hok⟩⟩
  · rw [hf]
    exact hall
  · rw [he]
    have hidx := h.index_lt hq
    rw [valueOf, hp] at hidx
    exact hall.setValue ((hC.measure (hall _ p hp) hidx hv).1 e rfl) p
  · rw [hok]
    have hidx := h.index_lt hq
    rw [valueOf, hp] at hidx
    obtain ⟨hm, hs⟩ := (hC.measure (hall _ p hp) hidx hv).2 r rfl
    exact (AllStatesBut.setValue h hp hall v).measured
      (h.setValue_keeps hn).inv hm hs q

theorem andThen_allStates {α β : Type} {x : Except Exit α × QStateRegistry}
    {f : α → QStateRegistry → Except Exit β × QStateRegistry}
    (hx : w.Keeps x.2) (hall : AllStates Ok x.2)
    (hf : ∀ a (w' : QStateRegistry), x = (.ok a, w') → w.Keeps w' →
      AllStates Ok w' → AllStates Ok (f a w').2) :
    AllStates Ok (andThen x f).2 := by
  obtain ⟨a, w'⟩ := x
  cases a with
  | error e => exact hall
  | ok a => exact hf a w' rfl hx hall

/-- What an operation is given satisfies `Ok`, and so does what it makes of it. -/
def OpOk (Ok : QState → Prop) (w : QStateRegistry) : Op → Prop
  | .createQubit _ => ∀ v, QState.create 1 w.defaultBackend = .ok v → Ok v
  | .createBellPair _ => ∀ v, QState.create 2 w.defaultBackend = .ok v → Ok v
  | .createQubitFrom _ p => p < w.numObjects → Ok (w.objects p).value
  | .apply _ gate qs => AppliesOk Ok w gate qs
  | .measureBell _ a b _ _ => AppliesOk Ok w (.builtin .CNOT) [a, b]
  | _ => True

theorem Inv.exec_allStates (h : w.Inv) (hC : Closed Ok) (hall : AllStates Ok w)
    {op : Op} (hop : w.AdoptsFresh op) (hok : OpOk Ok w op) :
    AllStates Ok (w.exec op).2 := by
  have hobjects : ∀ s p, w.states s = some p → p < w.numObjects :=
    fun s p hp => (h.object s p hp).1
  have hsame : ∀ {v : QState}, Ok v →
      Ok ((w.newObject v).2.objects w.numObjects).value := fun hv =>
    (congrArg StateObject.value (newObject_self _)).symm ▸ hv
  cases op with
  | newState value => exact hall.newObject hobjects value
  | setDefaultBackend b => exact hall
  | createQubit node =>
      obtain ⟨v, hv, heq⟩ := h.createQubit_eq node
      rw [exec, ending, heq]
      exact (hall.newObject hobjects v).withQubit node (hsame (hok v hv))
  | createQubitFrom node p =>
      rw [exec, ending]
      by_cases hp : p < w.numObjects
      · obtain ⟨hn, -⟩ := hop hp
        rw [h.createQubitFrom_eq node hp (hn ▸ Nat.one_pos)]
        exact hall.withQubit node (hok hp)
      · rw [createQubitFrom, if_pos (not_lt.mp hp)]
        exact hall
  | createBellPair node =>
      obtain ⟨v, hv, heq⟩ := h.createBellPair_eq node
      have hk := h.withPair_keeps node (QState.create_numQubits hv)
      have hpair : AllStates Ok (w.withPair node v) :=
        AllStates.addGroup (w := ((w.newObject v).2.addHandle node).addHandle
          node) (hall.newObject hobjects v) (hsame (hok v hv)) _
      have hnum : (w.withPair node v).numHandles = w.numHandles + 2 := rfl
      have hgate : ∀ {w' : QStateRegistry} {kind qs}, w'.Inv → kind ≠ .Custom →
          qs.length = kind.arity → qs.Nodup → (∀ q ∈ qs, q < w.numHandles + 2) →
          w.numHandles + 2 ≤ w'.numHandles →
          AppliesOk Ok w' (.builtin kind) qs := fun h' hkind hlen hd hqs hnum =>
        hC.appliesOk h' hkind hlen hd fun q hq => (hqs q hq).trans_le hnum
      rw [exec, ending, heq]
      refine andThen_allStates (hk.inv.apply_keeps _ _ _)
        (hk.inv.apply_allStates hC hpair _ (hgate hk.inv (by decide) rfl (by simp)
          (by simp) hnum.ge)) fun _ w₁ _ h₁ hall₁ => ?_
      refine andThen_allStates (h₁.inv.apply_keeps _ _ _)
        (h₁.inv.apply_allStates hC hall₁ _ (hgate h₁.inv (by decide) rfl (by simp)
          (by simp) (hnum ▸ h₁.evolves.handles))) fun _ w₂ _ _ hall₂ => hall₂
  | apply node gate qs => exact h.apply_allStates hC hall node hok
  | measure node q basis draw => exact h.measure_allStates hC hall node q basis draw
  | measureBell node a b drawA drawB =>
      rw [exec, ending, measureBell]
      split_ifs with hnull
      case neg =>
        have ha : a < w.numHandles := not_le.mp (not_or.mp hnull).1
        refine andThen_allStates (h.apply_keeps node _ _)
          (h.apply_allStates hC hall node hok) fun ok w₁ _ h₁ hall₁ => ?_
        split_ifs
        · exact hall₁
        · refine andThen_allStates (h₁.inv.apply_keeps node _ _)
            (h₁.inv.apply_allStates hC hall₁ node
              (hC.appliesOk h₁.inv (by decide) rfl (by simp)
                (by simpa using ha.trans_le h₁.evolves.handles)))
            fun ok w₂ _ h₂ hall₂ => ?_
          split_ifs
          · exact hall₂
          · refine andThen_allStates (h₂.inv.measure_keeps node _ _ _)
              (h₂.inv.measure_allStates hC hall₂ node _ _ _)
              fun _ w₃ _ h₃ hall₃ => ?_
            exact andThen_allStates (h₃.inv.measure_keeps node _ _ _)
              (h₃.inv.measure_allStates hC hall₃ node _ _ _)
              fun _ w₄ _ _ hall₄ => hall₄
      all_goals exact hall
  | adoptQubit node q =>
      rw [exec, adoptQubit, setLocationNode]
      split_ifs <;> exact hall
  | setLocationNode q node =>
      rw [exec, onHandle, setLocationNode]
      split_ifs <;> exact hall
  | setLocationChannel q c =>
      rw [exec, onHandle, setLocationChannel]
      split_ifs <;> exact hall
  | setLocationLost q =>
      rw [exec, onHandle]
      split_ifs <;> exact hall

theorem Inv.step_allStates (h : w.Inv) (hC : Closed Ok) (hall : AllStates Ok w) {op : Op}
    (hop : w.AdoptsFresh op) (hok : OpOk Ok w op) (hs : w.step op = some w') :
    AllStates Ok w' := by
  have hexec := h.exec_allStates hC hall hop hok
  unfold step at hs
  split at hs
  · cases hs
  · next w'' heq =>
      obtain rfl := Option.some.inj hs
      rwa [heq] at hexec

/-- A property that every operation keeps in all states, over runs. -/
theorem run_allStates {Ok : QState → Prop} (hC : Closed Ok)
    {P : QStateRegistry → Op → Prop}
    (hP : ∀ w op, w.Inv → P w op → w.AdoptsFresh op ∧ OpOk Ok w op)
    (h : Run P w w') (hw : w.Inv ∧ AllStates Ok w) : w'.Inv ∧ AllStates Ok w' := by
  refine h.invariant (I := fun w => w.Inv ∧ AllStates Ok w) ?_ hw
  rintro w op w' ⟨hinv, hall⟩ hop hs
  obtain ⟨hfresh, hok⟩ := hP w op hinv hop
  exact ⟨(hinv.step_keeps hfresh hs).inv, hinv.step_allStates hC hall hfresh hok hs⟩

/-- `MergeStates` keeps the invariant and what merging keeps in all states. -/
theorem Inv.mergeStates_allStates (h : w.Inv) (hC : Closed Ok) (hall : AllStates Ok w)
    (qs : List QubitPtr) :
    (w.mergeStates qs).2.Inv ∧ AllStates Ok (w.mergeStates qs).2 := by
  by_cases hne : qs = []
  · rw [mergeStates, if_pos hne]
    exact ⟨h, hall⟩
  by_cases hnull : ∃ q ∈ qs, w.numHandles ≤ q
  · rw [mergeStates, if_neg hne, if_pos hnull]
    exact ⟨h, hall⟩
  have hqs : ∀ q ∈ qs, q < w.numHandles := fun q hq =>
    not_le.mp fun hle => hnull ⟨q, hq, hle⟩
  rcases h.mergeStates_gathered hne hqs with ⟨w', p, hg, hok⟩ |
    ⟨s', rest, e, -, -, he⟩
  · rw [hok]
    exact ⟨(hg.keeps h hqs).inv, hg.allStates h hqs hC hall⟩
  · rw [he]
    exact ⟨h, hall⟩

/-! ## Gates that go through -/

/-- Well-formed states of one backend can be merged. -/
theorem mergeValues_succeeds {b : QStateBackend} {u : QState} {vs : List QState}
    (hu : u.WellFormed ∧ u.backend = b)
    (hvs : ∀ v ∈ vs, v.WellFormed ∧ v.backend = b) :
    ∃ m, mergeValues u vs = .ok m := by
  induction vs generalizing u with
  | nil => exact ⟨u, rfl⟩
  | cons v vs ih =>
      obtain ⟨hv, hb⟩ := hvs v List.mem_cons_self
      obtain ⟨m₁, hm₁, hwf, hb₁, -⟩ :=
        QState.mergeDisjoint_ok hu.1 hv (hu.2.trans hb.symm)
      obtain ⟨m, hm⟩ := ih ⟨hwf, hb₁.trans hu.2⟩
        fun x hx => hvs x (List.mem_cons_of_mem _ hx)
      refine ⟨m, ?_⟩
      rw [mergeValues, List.foldlM_cons, hm₁, ok_bind]
      exact hm

/-- On well-formed states of one backend the handles are gathered, and the
backend decides. -/
theorem Inv.apply_gathers (h : w.Inv) {b : QStateBackend}
    (hall : AllStates (fun v => v.WellFormed ∧ v.backend = b) w) {node : NodeId}
    (gate : QGate) {qs : List QubitPtr} (hne : qs ≠ [])
    (hlocal : ∀ q ∈ qs, q < w.numHandles ∧ w.IsLocal node q) :
    ∃ w' p, w.Gathered qs w' p ∧
      ((∃ e, (w'.objects p).value.apply gate (w'.targetsOf qs) = .error e ∧
        w.apply node gate qs = (.error e, w')) ∨
      ∃ v, (w'.objects p).value.apply gate (w'.targetsOf qs) = .ok v ∧
        w.apply node gate qs = (.ok true, w'.setValue p v)) := by
  have hqs : ∀ q ∈ qs, q < w.numHandles := fun q hq => (hlocal q hq).1
  rcases h.apply_cases node gate qs with ⟨hbad, -⟩ | ⟨-,
    ⟨s, rest, e, hs, he, -⟩ | ⟨w', p, hg, -, hcases⟩⟩
  · rcases hbad with hnil | ⟨q, hq, hnull | hno⟩
    · exact absurd hnil hne
    · exact absurd (hqs q hq) (not_lt.mpr hnull)
    · exact absurd (hlocal q hq).2 hno
  · have hreg := hs.registered h hqs
    obtain ⟨m, hm⟩ := mergeValues_succeeds
      (hall.valueOf (hreg s List.mem_cons_self)) fun v hv => by
        obtain ⟨s', hs', rfl⟩ := List.mem_map.mp hv
        exact hall.valueOf (hreg s' (List.mem_cons_of_mem _ hs'))
    rw [hm] at he
    cases he
  · exact ⟨w', p, hg, hcases⟩

/-- On well-formed states of one backend an accepted gate on distinct local
handles goes through. -/
theorem Inv.apply_succeeds (h : w.Inv) {b : QStateBackend}
    (hall : AllStates (fun v => v.WellFormed ∧ v.backend = b) w) {node : NodeId}
    {gate : QGate} {U : CMat} {qs : List QubitPtr}
    (hacc : QState.Accepts b gate qs.length U) (hne : qs ≠ []) (hd : qs.Nodup)
    (hlocal : ∀ q ∈ qs, q < w.numHandles ∧ w.IsLocal node q) :
    ∃ w', w.apply node gate qs = (.ok true, w') := by
  have hqs : ∀ q ∈ qs, q < w.numHandles := fun q hq => (hlocal q hq).1
  have hC := wellFormed_closed.and (backend_closed b)
  obtain ⟨w', p, hg, ⟨e, he, -⟩ | ⟨v, -, hok⟩⟩ :=
    h.apply_gathers hall gate hne hlocal
  · obtain ⟨s, hp, -⟩ := hg.home h hqs
    obtain ⟨hwf, hb⟩ := hg.allStates h hqs hC hall s p hp
    obtain ⟨hnodup, hlt⟩ := hg.targets h hqs
    have hacc' : QState.Accepts (w'.objects p).value.backend gate
        (w'.targetsOf qs).length U := by
      rw [hb, length_targetsOf]
      exact hacc
    have hne' : w'.targetsOf qs ≠ [] := fun hnil =>
      hne (List.map_eq_nil_iff.mp hnil)
    obtain ⟨v, hv, -⟩ := QState.apply_ok hwf hacc' hne' (hnodup hd) hlt
    rw [he] at hv
    cases hv
  · exact ⟨_, hok⟩

/-- After a gate has gone through, its handles are in one state. -/
theorem Inv.apply_home (h : w.Inv) {node : NodeId} {gate : QGate}
    {qs : List QubitPtr} (hok : w.apply node gate qs = (.ok true, w')) :
    ∃ s, ∀ q ∈ qs, (w'.qubits q).stateId = s := by
  rcases h.apply_cases node gate qs with ⟨-, hf⟩ | ⟨⟨-, hlocal⟩,
    ⟨s, rest, e, -, -, he⟩ | ⟨w₁, p, hg, -, ⟨e, -, he⟩ | ⟨v, -, hok'⟩⟩⟩
  · rw [hf] at hok
    cases hok
  · rw [he] at hok
    cases hok
  · rw [he] at hok
    cases hok
  · obtain ⟨s, -, hhome⟩ := hg.home h fun q hq => (hlocal q hq).1
    rw [hok', Prod.mk.injEq] at hok
    exact ⟨s, hok.2 ▸ hhome⟩

/-- A gate on one qubit acts on its state in place. -/
theorem apply_single {node : NodeId} {q : QubitPtr} {p : StatePtr} {gate : QGate} {v : QState}
    (hq : q < w.numHandles) (hlocal : w.IsLocal node q)
    (hp : w.states (w.qubits q).stateId = some p)
    (hv : (w.objects p).value.apply gate [(w.qubits q).indexInState] = .ok v) :
    w.apply node gate [q] = (.ok true, w.setValue p v) := by
  have hids : w.stateIdsOf [q] = [(w.qubits q).stateId] := by
    rw [stateIdsOf, List.map_singleton, List.mergeSort_singleton]
    rfl
  have hmerge : w.mergeStates [q] = (.ok (some p), w) := by
    rw [mergeStates, if_neg (List.cons_ne_nil _ _), if_neg, hids]
    · exact congrArg (fun x => (Except.ok x, w)) hp
    · rintro ⟨x, hx, hnull⟩
      exact absurd hq (not_lt.mpr (List.mem_singleton.mp hx ▸ hnull))
  rw [QStateRegistry.apply, if_neg (List.cons_ne_nil _ _), if_neg, hmerge, andThen]
  · dsimp only
    rw [List.map_singleton, hv]
  · rintro ⟨x, hx, hnot⟩
    obtain rfl := List.mem_singleton.mp hx
    exact hnot.elim (not_le.mpr hq) (not_not.mpr hlocal)

/-- A local qubit in a well-formed state can be measured. -/
theorem Inv.measure_succeeds (h : w.Inv) {node : NodeId} {q : QubitPtr}
    (hq : q < w.numHandles) (hlocal : w.IsLocal node q)
    (hwf : (w.valueOf (w.qubits q).stateId).WellFormed) (basis : Basis) (draw : Bool) :
    ∃ (o : Bool) (w' : QStateRegistry), w.measure node q basis draw = (.ok o.toNat, w') := by
  rcases h.measure_cases node q basis draw with ⟨hnot | hnot, -⟩ | ⟨-, p, v, hp, -,
    ⟨e, he, -⟩ | ⟨r, -, -, -, hok⟩⟩
  · exact absurd hq (not_lt.mpr hnot)
  · exact absurd hlocal hnot
  · obtain ⟨r, _, hok, -⟩ := QState.measure_ok hwf (h.index_lt hq) basis draw
    rw [QStateRegistry.valueOf, hp] at hok
    cases he.symm.trans hok
  · exact ⟨r.outcome, _, hok⟩

/-! ## Two fresh qubits -/

/-- Two qubits that have just been created at a node, on backend `b`. -/
theorem reachable_fresh_pair (b : QStateBackend) {P : QStateRegistry → Op → Prop}
    (hset : P empty (.setDefaultBackend b))
    (hnew : ∀ w, w.defaultBackend = b → P w (.createQubit 0)) :
    ∃ w, Reachable P w ∧ w.Inv ∧ w.defaultBackend = b ∧ w.numHandles = 2 ∧
      (∀ q ∈ [0, 1], q < w.numHandles ∧ w.IsLocal 0 q) ∧
      (w.qubits 0).stateId ≠ (w.qubits 1).stateId ∧
      AllStates (fun v => QState.create 1 b = .ok v) w := by
  set w₀ := empty.setDefaultBackend b with hw₀
  have h₀ : w₀.Inv :=
    (@Inv.exec_keeps _ inv_empty (.setDefaultBackend b) trivial).inv
  obtain ⟨v, hv, hcreate⟩ := h₀.createQubit_eq 0
  have hs₁ : w₀.step (.createQubit 0) =
      some ((w₀.newObject v).2.withQubit 0 0) := by
    rw [step, exec, hcreate]
    rfl
  have h₁ := (@Inv.step_keeps _ _ h₀ (.createQubit 0) trivial hs₁).inv
  set w₁ := (w₀.newObject v).2.withQubit 0 0 with hw₁
  obtain ⟨v', hv', hcreate'⟩ := h₁.createQubit_eq 0
  have hs₂ : w₁.step (.createQubit 0) =
      some ((w₁.newObject v').2.withQubit 0 1) := by
    rw [step, exec, hcreate']
    rfl
  have h₂ := (@Inv.step_keeps _ _ h₁ (.createQubit 0) trivial hs₂).inv
  have hnone : ∀ s p, (w₀.newObject v).2.states s ≠ some p := fun s p hp => by cases hp
  have hall₁ : AllStates (fun v => QState.create 1 b = .ok v) w₁ :=
    AllStates.withQubit (fun s p hp => absurd hp (hnone s p)) 0 hv
  have hall₂ := (hall₁.newObject (fun s p hp => (h₁.object s p hp).1) v').withQubit
    0 (p := 1) hv'
  refine ⟨_, .tail (.tail (.single ⟨_, hset, rfl⟩)
    ⟨_, hnew _ rfl, hs₁⟩) ⟨_, hnew _ rfl, hs₂⟩, h₂, rfl, rfl, fun q hq => ?_,
    show (1 : ℕ) ≠ 2 by decide, hall₂⟩
  rcases List.mem_pair.mp hq with rfl | rfl
  · exact ⟨Nat.two_pos, rfl⟩
  · exact ⟨Nat.one_lt_two, rfl⟩

/-- They are in sound states of the backend. -/
theorem reachable_pair (b : QStateBackend) {P : QStateRegistry → Op → Prop}
    (hset : P empty (.setDefaultBackend b))
    (hnew : ∀ w, w.defaultBackend = b → P w (.createQubit 0)) :
    ∃ w, Reachable P w ∧ w.Inv ∧ w.defaultBackend = b ∧ w.numHandles = 2 ∧
      (∀ q ∈ [0, 1], q < w.numHandles ∧ w.IsLocal 0 q) ∧
      (w.qubits 0).stateId ≠ (w.qubits 1).stateId ∧
      AllStates (fun v => v.WellFormed ∧ v.backend = b) w := by
  obtain ⟨w, hrun, hinv, hb, htwo, hlocal, hne, hall⟩ := reachable_fresh_pair b hset hnew
  refine ⟨w, hrun, hinv, hb, htwo, hlocal, hne, fun s p hp => ?_⟩
  obtain ⟨u, hu, hwf, -, hub⟩ := QState.create_ok one_ne_zero b
  rw [hall s p hp, Except.ok.injEq] at hu
  exact ⟨hu ▸ hwf, hu ▸ hub⟩

end Q2NS.QStateRegistry
