import Q2NS.BellMeasurement
import Q2NS.Isolation
import Q2NS.Registry.Locations

/-!
# Groups of qubits

A group is a set of handles that are together in one registered state, with the
tensor that this state has on them.  Operations on a group change it alone; a group
that holds none of the named handles is kept.
-/

namespace Q2NS.QStateRegistry

open NamedTensor QuadForm Loop Finset

variable {w w' : QStateRegistry} {b : QStateBackend} {node : NodeId}
  {s s₁ s₂ : StateId} {l l₁ l₂ : Finset QubitPtr}
  {F F₁ F₂ : (QubitPtr → Bool × Bool) → ℂ}

/-- State `s` is registered, sound and on backend `b`; it holds the handles `l`,
and `F` is its tensor. -/
structure GroupAt (w : QStateRegistry) (b : QStateBackend) (s : StateId)
    (l : Finset QubitPtr) (F : (QubitPtr → Bool × Bool) → ℂ) : Prop where
  registered : w.states s ≠ none
  wellFormed : (w.valueOf s).WellFormed
  backend : (w.valueOf s).backend = b
  members : ∀ x, x ∈ w.qubitsOf s ↔ x ∈ l
  factor : factorOf QState.kernel w s = F

/-- The handles `l` make up one registered state, whose tensor is `F`. -/
def Group (w : QStateRegistry) (b : QStateBackend) (l : Finset QubitPtr)
    (F : (QubitPtr → Bool × Bool) → ℂ) : Prop := ∃ s, w.GroupAt b s l F

theorem GroupAt.untouched (h : w.GroupAt b s l F) (hu : w.Untouched w' s) :
    w'.GroupAt b s l F where
  registered := hu.states ▸ h.registered
  wellFormed := hu.valueOf h.registered ▸ h.wellFormed
  backend := (congrArg QState.backend (hu.valueOf h.registered)).trans h.backend
  members := fun x => hu.qubitsOf ▸ h.members x
  factor := (hu.factorOf h.registered _).trans h.factor

theorem GroupAt.handle (h : w.GroupAt b s l F) (hw : w.Inv) {q : QubitPtr}
    (hq : q ∈ l) : q < w.numHandles ∧ (w.qubits q).stateId = s :=
  hw.mem_qubitsOf_iff.mp ((h.members q).mpr hq)

theorem GroupAt.disjoint (h₁ : w.GroupAt b s₁ l₁ F₁) (h₂ : w.GroupAt b s₂ l₂ F₂)
    (hw : w.Inv) (hs : s₁ ≠ s₂) {q : QubitPtr} (hq : q ∈ l₁) : q ∉ l₂ := fun hq' =>
  hs ((h₁.handle hw hq).2.symm.trans (h₂.handle hw hq').2)

/-- What is confined to other handles keeps the group. -/
theorem Group.keeps (h : w.Group b l F) (hw : w.Inv) {qs : List QubitPtr}
    (hk : w.KeepsBut w' qs) (hout : ∀ q ∈ qs, q ∉ l) : w'.Group b l F := by
  obtain ⟨s, hs⟩ := h
  refine ⟨s, hs.untouched (hk.confined.untouched s hs.registered
    fun q hq hlt he => hout q hq ?_)⟩
  exact (hs.members q).mp (hw.mem_qubitsOf_iff.mpr ⟨hlt, he⟩)

/-- The tensor of a group has trace one. -/
theorem GroupAt.trace (h : w.GroupAt b s l F) (hw : w.Inv) {qs : List QubitPtr}
    (hd : qs.Nodup) (hqs : ∀ x, x ∈ qs ↔ x ∈ l) : traceAll qs F = fun _ => 1 := by
  have hperm : qs.Perm (w.order s) :=
    (List.perm_ext_iff_of_nodup hd (hw.nodup_order s)).mpr fun x => by
      rw [hqs, mem_sortByIndex, h.members]
  rw [traceAll_perm hperm, ← h.factor]
  exact hw.traceAll_factorOf h.registered h.wellFormed

/-! ## Gates -/

/-- A gate on the object of a group. -/
theorem GroupAt.setValue (hg : w.GroupAt b s l F) (hw : w.Inv) {p : StatePtr}
    (hp : w.states s = some p) {qs : List QubitPtr} (hd : qs.Nodup)
    (hmem : ∀ q ∈ qs, q ∈ l) {U : CMat} {v : QState}
    (hn : v.numQubits = (w.objects p).value.numQubits) (hwf : v.WellFormed)
    (hb : v.backend = b)
    (hv : v.kernel = actOn (conjBy (U.kernel (w.targetsOf qs).length))
      (Qpp.legs (w.targetsOf qs)) (w.objects p).value.kernel) :
    (w.setValue p v).GroupAt b s l
      (actOn (conjBy (U.kernel qs.length)) qs.get F) := by
  have hqs : ∀ q ∈ qs, q < w.numHandles ∧ (w.qubits q).stateId = s :=
    fun q hq => hg.handle hw (hmem q hq)
  have hs : (w.setValue p v).states s ≠ none := hg.registered
  have hinv := (hw.setValue_keeps (p := p) hn).inv
  have hvalue : (w.setValue p v).valueOf s = v := by
    have hstates : (w.setValue p v).states s = some p := hp
    have hobj : (w.setValue p v).objects p = { w.objects p with value := v } :=
      Function.update_self _ _ _
    rw [valueOf, hstates, Option.getD_some, hobj]
  have hold : w.valueOf s = (w.objects p).value := by
    rw [valueOf, hp]
    rfl
  refine ⟨hs, by rw [hvalue]; exact hwf, by rw [hvalue]; exact hb, hg.members,
    funext fun z => ?_⟩
  have hact := actOn_named (K := conjBy (U.kernel (w.targetsOf qs).length))
    (w.objects p).value.kernel (hw.nodup_order s)
    (Qpp.legs_injective (hw.targets_nodup hd hqs)) (hw.order_targets hqs) z
  rw [← actOn_namesOf (w := w) (fun k => conjBy (U.kernel k)), ← hg.factor,
    hinv.factorOf_eq QState.kernel hs, hw.factorOf_eq QState.kernel hg.registered,
    hvalue, hold, hact, ← hv]
  rfl

/-- The gate that `Apply` looks up is accepted by every backend. -/
theorem accepts_of_matrix {kind : QGateKind} (hk : kind ≠ .Custom) {U : CMat}
    (hU : matrixOf kind = .ok U) {n : ℕ} (hn : n = kind.arity) :
    QState.Accepts b (.builtin kind) n U := by
  obtain ⟨V, hV⟩ := QState.accepts_builtin b hk
  have hmat := hV.matrix
  rw [QGate.matrix, if_neg (show (QGate.builtin kind).kind ≠ .Custom from hk)]
    at hmat
  rw [Except.ok.inj (hU.symm.trans hmat), hn]
  exact hV

/-- Once the handles are gathered in a sound group, a built-in gate goes through. -/
theorem GroupAt.apply (hg : w.GroupAt b s l F) (hw : w.Inv) {p : StatePtr}
    (hp : w.states s = some p) {kind : QGateKind} (hk : kind ≠ .Custom) {U : CMat}
    (hU : matrixOf kind = .ok U) (qs : List QubitPtr) (hlen : qs.length = kind.arity)
    (hne : qs ≠ []) (hd : qs.Nodup) (hmem : ∀ q ∈ qs, q ∈ l) :
    ∃ v, (w.objects p).value.apply (.builtin kind) (w.targetsOf qs) = .ok v ∧
      (w.setValue p v).GroupAt b s l
        (actOn (conjBy (U.kernel qs.length)) qs.get F) := by
  have hold : w.valueOf s = (w.objects p).value := by
    rw [valueOf, hp]
    rfl
  have hqs : ∀ q ∈ qs, q < w.numHandles ∧ (w.qubits q).stateId = s :=
    fun q hq => hg.handle hw (hmem q hq)
  have hacc : QState.Accepts (w.objects p).value.backend (.builtin kind)
      (w.targetsOf qs).length U :=
    accepts_of_matrix hk hU ((length_targetsOf w qs).trans hlen)
  obtain ⟨v, hv, hwf, hvb, hn, hkernel⟩ := QState.apply_ok
    (hold ▸ hg.wellFormed) hacc (fun hnil => hne (List.map_eq_nil_iff.mp hnil))
    (hw.targets_nodup hd hqs) (hw.targets_lt hp hqs)
  exact ⟨v, hv, hg.setValue hw hp hd hmem hn hwf
    (hvb.trans ((congrArg QState.backend hold).symm.trans hg.backend)) hkernel⟩

/-- A built-in gate on local qubits of one group. -/
theorem Inv.apply_group (h : w.Inv) (hg : w.GroupAt b s l F) {kind : QGateKind}
    (hk : kind ≠ .Custom) {U : CMat} (hU : matrixOf kind = .ok U)
    (qs : List QubitPtr) (hlen : qs.length = kind.arity) (hne : qs ≠ [])
    (hd : qs.Nodup) (hmem : ∀ q ∈ qs, q ∈ l) (hlocal : ∀ q ∈ qs, w.IsLocal node q) :
    ∃ w', w.apply node (.builtin kind) qs = (.ok true, w') ∧
      w'.GroupAt b s l (actOn (conjBy (U.kernel qs.length)) qs.get F) := by
  have hqs : ∀ q ∈ qs, (w.qubits q).stateId = s := fun q hq =>
    (hg.handle h (hmem q hq)).2
  have hone : ∀ s' rest, ¬ w.Several qs s' rest := by
    intro s' rest hs
    have hall : ∀ x ∈ s' :: rest, x = s := fun x hx => by
      obtain ⟨q, hq, rfl⟩ := (hs.mem x).mp hx
      exact hqs q hq
    obtain ⟨s'', hs''⟩ := List.exists_mem_of_ne_nil rest hs.several
    refine (List.nodup_cons.mp hs.nodup).1 ?_
    rw [hall s' List.mem_cons_self, ← hall s'' (List.mem_cons_of_mem _ hs'')]
    exact hs''
  rcases h.apply_cases node (.builtin kind) qs with ⟨hbad, -⟩ | ⟨-,
    ⟨s', rest, e, hs, -, -⟩ | ⟨w₁, p, hgath, -, hcases⟩⟩
  · rcases hbad with hnil | ⟨q, hq, hnull | hno⟩
    · exact absurd hnil hne
    · exact absurd (hg.handle h (hmem q hq)).1 (not_lt.mpr hnull)
    · exact absurd (hlocal q hq) hno
  · exact absurd hs (hone s' rest)
  · cases hgath with
    | several hs hv => exact absurd hs (hone _ _)
    | @same s' p hall hp =>
        obtain ⟨q, hq⟩ := List.exists_mem_of_ne_nil qs hne
        have hs' : w.states s = some p := (hqs q hq).symm.trans (hall q hq) ▸ hp
        obtain ⟨v, hv, hnew⟩ := hg.apply h hs' hk hU qs hlen hne hd hmem
        rcases hcases with ⟨e, he, -⟩ | ⟨v', hv', hok⟩
        · rw [hv] at he
          cases he
        · obtain rfl := Except.ok.inj (hv.symm.trans hv')
          exact ⟨_, hok, hnew⟩

/-- A new state, as a group. -/
theorem groupAt_addGroup {p : StatePtr} {qs : List QubitPtr} (hd : qs.Nodup)
    (hinv : Inv (w.addGroup p qs)) (hwf : (w.objects p).value.WellFormed)
    (hb : (w.objects p).value.backend = b) :
    (w.addGroup p qs).GroupAt b w.nextStateId qs.toFinset
      fun z => (w.objects p).value.kernel (NamedTensor.named qs z) := by
  have hstates : (w.addGroup p qs).states w.nextStateId = some p :=
    Function.update_self _ _ _
  have hmembers : (w.addGroup p qs).qubitsOf w.nextStateId = qs := by
    have hself : (w.addGroup p qs).members w.nextStateId = some qs :=
      Function.update_self _ _ _
    rw [qubitsOf, hself, Option.getD_some]
  refine ⟨hstates ▸ Option.some_ne_none p, ?_, ?_, fun x => ?_, funext fun z =>
    factorOf_addGroup hd hinv z⟩
  · rw [addGroup_valueOf]
    exact hwf
  · rw [addGroup_valueOf]
    exact hb
  · rw [hmembers, List.mem_toFinset]

/-- The merge of two groups. -/
theorem GroupAt.merged (h₁ : w.GroupAt b s₁ l₁ F₁) (h₂ : w.GroupAt b s₂ l₂ F₂)
    (hw : w.Inv) (hs : s₁ ≠ s₂) {v : QState}
    (hv : mergeValues (w.valueOf s₁) ([s₂].map w.valueOf) = .ok v) :
    (w.merged [s₁, s₂] v).GroupAt b w.nextStateId (l₁ ∪ l₂)
      (fun z => F₁ z * F₂ z) := by
  have hd : [s₁, s₂].Nodup := by simpa using hs
  have hreg : ∀ s ∈ [s₁, s₂], w.states s ≠ none := fun s hs => by
    rcases List.mem_pair.mp hs with rfl | rfl
    · exact h₁.registered
    · exact h₂.registered
  have hinv := hw.merged_inv (List.cons_ne_nil _ _) hd hreg
    (hw.mergeValues_length hreg hv)
  obtain ⟨hwf, hb⟩ := mergeValues_ok (wellFormed_closed.and (backend_closed b))
    ⟨h₁.wellFormed, h₁.backend⟩ (fun u hu => by
      obtain rfl := List.mem_singleton.mp hu
      exact ⟨h₂.wellFormed, h₂.backend⟩) hv
  have hobj : (((w.newObject v).2.dropStates [s₁, s₂]).objects
      w.numObjects).value = v := congrArg StateObject.value (newObject_self v)
  have hgroup := groupAt_addGroup (b := b)
    (w := (w.newObject v).2.dropStates [s₁, s₂]) (p := w.numObjects)
    (hw.nodup_qubitsOfAll hd) hinv (by rw [hobj]; exact hwf) (by rw [hobj]; exact hb)
  refine ⟨hgroup.registered, hgroup.wellFormed, hgroup.backend, fun x => ?_,
    hgroup.factor.trans (funext fun z => ?_)⟩
  · refine (hgroup.members x).trans ?_
    rw [List.mem_toFinset, hw.mem_qubitsOfAll, mem_union, ← h₁.members,
      ← h₂.members, hw.mem_qubitsOf_iff, hw.mem_qubitsOf_iff, List.mem_pair]
    exact and_or_left
  · have hparts := (kernelReading.mergeValues (l := w.order s₁) h₁.wellFormed
      (hw.length_order h₁.registered) (fun s hs => by
        obtain rfl := List.mem_singleton.mp hs
        exact ⟨h₂.wellFormed, hw.length_order h₂.registered⟩) hv z).2
    rw [hobj, ← h₁.factor, ← h₂.factor, hw.factorOf_eq _ h₁.registered,
      hw.factorOf_eq _ h₂.registered]
    exact hparts.trans (congrArg _ (mul_one _))

/-- Two groups that a gate brings together. -/
theorem Inv.apply_groups (h : w.Inv) (h₁ : w.GroupAt b s₁ l₁ F₁)
    (h₂ : w.GroupAt b s₂ l₂ F₂) (hs : s₁ ≠ s₂) {kind : QGateKind}
    (hk : kind ≠ .Custom) {U : CMat} (hU : matrixOf kind = .ok U)
    (harity : kind.arity = 2) {a c : QubitPtr} (ha : a ∈ l₁) (hc : c ∈ l₂)
    (hlocal : ∀ q ∈ [a, c], w.IsLocal node q) :
    ∃ w' s, w.apply node (.builtin kind) [a, c] = (.ok true, w') ∧
      w'.GroupAt b s (l₁ ∪ l₂) (actOn (conjBy (U.kernel 2)) ![a, c]
        fun z => F₁ z * F₂ z) := by
  have hsa := h₁.handle h ha
  have hsc := h₂.handle h hc
  have hne : a ≠ c := fun he => h₁.disjoint h₂ h hs ha (he ▸ hc)
  have hd : [a, c].Nodup := by simpa using hne
  -- the states that are merged
  have hcases' : ∀ s rest, w.Several [a, c] s rest →
      (s = s₁ ∧ rest = [s₂]) ∨ (s = s₂ ∧ rest = [s₁]) := by
    intro s rest hsev
    have hmem : ∀ x, x ∈ s :: rest ↔ x ∈ [s₁, s₂] := fun x => by
      rw [hsev.mem, List.mem_pair]
      simp only [List.mem_pair, exists_eq_or_imp, exists_eq_left, hsa.2, hsc.2]
      exact or_congr eq_comm eq_comm
    have hperm : (s :: rest).Perm [s₁, s₂] :=
      (List.perm_ext_iff_of_nodup hsev.nodup (by simpa using hs)).mpr hmem
    obtain ⟨x, rfl⟩ := List.length_eq_one_iff.mp
      (Nat.succ_injective hperm.length_eq)
    have hsx : s ≠ x := by simpa using hsev.nodup
    rcases List.mem_pair.mp ((hmem s).mp List.mem_cons_self) with rfl | rfl
    · rcases List.mem_pair.mp ((hmem x).mp (List.mem_cons_of_mem _
        List.mem_cons_self)) with rfl | rfl
      · exact absurd rfl hsx
      · exact .inl ⟨rfl, rfl⟩
    · rcases List.mem_pair.mp ((hmem x).mp (List.mem_cons_of_mem _
        List.mem_cons_self)) with rfl | rfl
      · exact .inr ⟨rfl, rfl⟩
      · exact absurd rfl hsx
  have hgather : ∀ w₁ p, w.Gathered [a, c] w₁ p → w₁.Inv ∧ ∃ s,
      w₁.states s = some p ∧
        w₁.GroupAt b s (l₁ ∪ l₂) fun z => F₁ z * F₂ z := by
    intro w₁ p hg
    refine ⟨(hg.keeps h fun q hq => ?_).inv, ?_⟩
    · rcases List.mem_pair.mp hq with rfl | rfl
      · exact hsa.1
      · exact hsc.1
    cases hg with
    | same hall hp =>
        refine absurd ?_ hs
        rw [← hsa.2, ← hsc.2, hall a List.mem_cons_self,
          hall c (List.mem_cons_of_mem _ List.mem_cons_self)]
    | several hsev hv =>
        refine ⟨w.nextStateId, Function.update_self _ _ _, ?_⟩
        rcases hcases' _ _ hsev with ⟨rfl, rfl⟩ | ⟨rfl, rfl⟩
        · exact h₁.merged h₂ h hs hv
        · have hmerged := h₂.merged h₁ h hs.symm hv
          rw [union_comm] at hmerged
          simpa only [mul_comm] using hmerged
  have hmem : ∀ q ∈ [a, c], q ∈ l₁ ∪ l₂ := fun q hq => by
    rcases List.mem_pair.mp hq with rfl | rfl
    · exact mem_union_left _ ha
    · exact mem_union_right _ hc
  rcases h.apply_cases node (.builtin kind) [a, c] with ⟨hbad, -⟩ | ⟨-,
    ⟨s, rest, e, hsev, he, -⟩ | ⟨w₁, p, hgath, -, hcases⟩⟩
  · rcases hbad with hnil | ⟨q, hq, hnull | hno⟩
    · exact absurd hnil (List.cons_ne_nil _ _)
    · rcases List.mem_pair.mp hq with rfl | rfl
      · exact absurd hsa.1 (not_lt.mpr hnull)
      · exact absurd hsc.1 (not_lt.mpr hnull)
    · exact absurd (hlocal q hq) hno
  · have hsucceeds : ∀ {s s' : StateId} {l l' F F'}, w.GroupAt b s l F →
        w.GroupAt b s' l' F' →
        mergeValues (w.valueOf s) ([s'].map w.valueOf) ≠ .error e := by
      intro s s' l l' F F' hg hg' herr
      have hvs : ∀ v ∈ [s'].map w.valueOf, v.WellFormed ∧ v.backend = b := by
        intro v hv
        obtain rfl := List.mem_singleton.mp hv
        exact ⟨hg'.wellFormed, hg'.backend⟩
      obtain ⟨m, hm⟩ := mergeValues_succeeds ⟨hg.wellFormed, hg.backend⟩ hvs
      rw [hm] at herr
      cases herr
    rcases hcases' s rest hsev with ⟨rfl, rfl⟩ | ⟨rfl, rfl⟩
    · exact absurd he (hsucceeds h₁ h₂)
    · exact absurd he (hsucceeds h₂ h₁)
  · obtain ⟨hinv₁, s, hp, hg⟩ := hgather w₁ p hgath
    obtain ⟨v, hv, hnew⟩ := hg.apply hinv₁ hp hk hU [a, c] harity.symm
      (List.cons_ne_nil _ _) hd hmem
    rcases hcases with ⟨e, he, -⟩ | ⟨v', hv', hok⟩
    · rw [hv] at he
      cases he
    · obtain rfl := Except.ok.inj (hv.symm.trans hv')
      rw [get_two] at hnew
      exact ⟨_, s, hok, hnew⟩

/-! ## Measurements -/

/-- What a measurement leaves of the group of the measured qubit. -/
theorem Inv.measure_group (h : w.Inv) (hg : w.GroupAt b s l F) {q : QubitPtr}
    (hq : q ∈ l) (hlocal : w.IsLocal node q) (basis : Basis) (draw : Bool) :
    ∃ (o : Bool) (w' : QStateRegistry),
      w.measure node q basis draw = (.ok o.toNat, w') ∧
      (l.erase q ≠ ∅ → ∃ s' k, k ≠ 0 ∧ w'.GroupAt b s' (l.erase q)
        fun z => k * contract (outer (eigenvector basis o)) q F z) := by
  obtain ⟨hlt, rfl⟩ := hg.handle h hq
  set s := (w.qubits q).stateId with hs
  rcases h.measure_cases node q basis draw with ⟨hnot, -⟩ | ⟨-, p, v, hp, hn, hcases⟩
  · exact absurd hnot (not_or.mpr ⟨not_le.mpr hlt, not_not.mpr hlocal⟩)
  have hold : w.valueOf s = (w.objects p).value := by
    rw [valueOf, hp]
    rfl
  obtain ⟨r, v', hres, hprob, -, -, -, -, hswf, hsb, hsurv⟩ :=
    QState.measure_ok hg.wellFormed (h.index_lt hlt) basis draw
  rw [hold] at hres hprob hsb hsurv
  rcases hcases with ⟨e, he, -⟩ | ⟨r', hr, hm, hsn, hok⟩
  · rw [hres] at he
    cases he
  obtain ⟨hr', rfl⟩ := Prod.mk.inj (hres.symm.trans hr)
  obtain rfl := Except.ok.inj hr'
  refine ⟨r.outcome, _, hok, fun hne => ?_⟩
  have hk := h.setValue_keeps hn
  have hself : ((w.setValue p v').objects p).value.numQubits =
      (w.objects p).value.numQubits := by
    rw [← hn]
    exact congrArg (fun o => o.value.numQubits)
      (Function.update_self p _ w.objects)
  have hinv := hk.inv.measured_inv (q := q) hlt hp hm (hself.symm ▸ hsn)
  have hsame : (w.setValue p v').survivorsOf s q = w.survivorsOf s q := rfl
  have hmem : ∀ x, x ∈ w.survivorsOf s q ↔ x ∈ l.erase q := by
    intro x
    rw [h.mem_survivorsOf, ← and_assoc, ← h.mem_qubitsOf_iff, hg.members, mem_erase,
      and_comm]
  have hpos : 0 < r.survivors.numQubits := by
    obtain ⟨x, hx⟩ := nonempty_iff_ne_empty.mpr hne
    have hlen := List.length_pos_of_mem ((hmem x).mpr hx)
    rw [h.length_survivorsOf hlt, ← hs, hold, ← hsn] at hlen
    exact hlen
  rw [measured_of_pos hpos] at hinv ⊢
  set w₁ := (((w.setValue p v').newObject r.measured).2.dropStates [s]).addGroup
    (w.setValue p v').numObjects [q] with hw₁
  have hobj : ((w₁.newObject r.survivors).2.objects
      ((w.setValue p v').numObjects + 1)).value = r.survivors :=
    congrArg StateObject.value (newObject_self (w := w₁) r.survivors)
  have hgroup := groupAt_addGroup (b := b) (w := (w₁.newObject r.survivors).2)
    (p := (w.setValue p v').numObjects + 1) (h.nodup_survivorsOf s q) hinv
    (by rw [hobj]; exact hswf)
    (by rw [hobj, hsb, ← hold]; exact hg.backend)
  refine ⟨_, _, one_div_ne_zero hprob, hgroup.registered, hgroup.wellFormed,
    hgroup.backend, fun x => ?_, hgroup.factor.trans (funext fun z => ?_)⟩
  · exact (hgroup.members x).trans (List.mem_toFinset.trans (hmem x))
  · rw [hobj, hsurv, ← hold, ← h.erase_order, ← contract_named _ _ (h.nodup_order _)
      (h.order_get hlt), ← hg.factor, h.factorOf_eq _ hg.registered]

/-- `MeasureBell` on two groups leaves their other qubits in one group. -/
theorem Inv.measureBell_groups (h : w.Inv) (h₁ : w.Group b l₁ F₁)
    (h₂ : w.Group b l₂ F₂) {a c : QubitPtr} (ha : a ∈ l₁) (hc : c ∈ l₂)
    (hapart : a ∉ l₂) (hlocal : ∀ q ∈ [a, c], w.IsLocal node q)
    (hrest : ((l₁ ∪ l₂).erase a).erase c ≠ ∅) (drawA drawB : Bool) :
    ∃ (m1 m2 : Bool) (w' : QStateRegistry) (k : ℂ),
      w.measureBell node a c drawA drawB = (.ok (m1.toNat, m2.toNat), w') ∧
      w'.Group b (((l₁ ∪ l₂).erase a).erase c)
        fun z => k * contractPair (outerPair (bell m1 m2)) a c
          (fun z => F₁ z * F₂ z) z := by
  obtain ⟨s₁, h₁⟩ := h₁
  obtain ⟨s₂, h₂⟩ := h₂
  have hac : a ≠ c := fun he => hapart (he ▸ hc)
  have hs : s₁ ≠ s₂ := by
    rintro rfl
    exact hapart ((h₂.members a).mp ((h₁.members a).mpr ha))
  have hla := hlocal a List.mem_cons_self
  have hlc := hlocal c (List.mem_cons_of_mem _ List.mem_cons_self)
  have hloc : ∀ q ∈ [a, c], q < w.numHandles ∧ w.IsLocal node q := by
    intro q hq
    refine ⟨?_, hlocal q hq⟩
    rcases List.mem_pair.mp hq with rfl | rfl
    · exact (h₁.handle h ha).1
    · exact (h₂.handle h hc).1
  obtain ⟨w₁, s, hok₁, hg₁⟩ := h.apply_groups h₁ h₂ hs
    (show QGateKind.CNOT ≠ .Custom by decide) rfl rfl ha hc hlocal
  have hinv₁ := (h.apply_keeps node (.builtin .CNOT) [a, c]).inv
  have hloc₁ := h.apply_getLocation node (.builtin .CNOT) [a, c]
  rw [hok₁] at hinv₁ hloc₁
  have hlocal₁ : ∀ q ∈ [a], w₁.IsLocal node q := fun q hq =>
    List.mem_singleton.mp hq ▸ (hloc₁ a).trans hla
  obtain ⟨w₂, hok₂, hg₂⟩ := hinv₁.apply_group hg₁
    (show QGateKind.H ≠ .Custom by decide) rfl [a] rfl
    (List.cons_ne_nil _ _) (List.nodup_singleton a)
    (fun q hq => List.mem_singleton.mp hq ▸ mem_union_left _ ha) hlocal₁
  have hinv₂ := (hinv₁.apply_keeps node (.builtin .H) [a]).inv
  have hloc₂ := hinv₁.apply_getLocation node (.builtin .H) [a]
  rw [hok₂] at hinv₂ hloc₂
  obtain ⟨m1, w₃, hok₃, hsplit₃⟩ := hinv₂.measure_group hg₂ (mem_union_left _ ha)
    ((hloc₂ a).trans ((hloc₁ a).trans hla)) .Z drawA
  have hca : c ∈ (l₁ ∪ l₂).erase a :=
    mem_erase.mpr ⟨hac.symm, mem_union_right _ hc⟩
  obtain ⟨s₃, k₁, -, hg₃⟩ := hsplit₃ (ne_empty_of_mem hca)
  have hinv₃ := (hinv₂.measure_keeps node a .Z drawA).inv
  have hloc₃ := hinv₂.measure_getLocation node a .Z drawA
  rw [hok₃] at hinv₃ hloc₃
  obtain ⟨m2, w₄, hok₄, hsplit₄⟩ := hinv₃.measure_group hg₃ hca
    ((hloc₃ c).trans ((hloc₂ c).trans ((hloc₁ c).trans hlc))) .Z drawB
  obtain ⟨s₄, k₂, -, hg₄⟩ := hsplit₄ hrest
  refine ⟨m1, m2, w₄, k₂ * k₁, measureBell_eq hloc hok₁ hok₂ hok₃ hok₄, s₄, ?_⟩
  have hC := contract_bell hac m1 m2 rfl rfl fun z => F₁ z * F₂ z
  have htensor : (fun z => k₂ * contract (outer (eigenvector .Z m2)) c
      (fun z => k₁ * contract (outer (eigenvector .Z m1)) a
        (actOn (conjBy (matrixH.kernel 1)) [a].get
          (actOn (conjBy (matrixCNOT.kernel 2)) ![a, c] fun z => F₁ z * F₂ z)) z) z) =
      fun z => k₂ * k₁ * contractPair (outerPair (bell m1 m2)) a c
        (fun z => F₁ z * F₂ z) z := by
    rw [get_one, contract_smul, hC]
    exact funext fun z => (mul_assoc _ _ _).symm
  exact htensor ▸ hg₄

/-! ## New groups -/

theorem addHandle_getLocation (node : NodeId) :
    (w.addHandle node).getLocation w.numHandles = .node node :=
  getLocation_setLocation _ _

/-- The two handles of a new pair are at their node. -/
theorem withPair_isLocal (w : QStateRegistry) (node : NodeId) (v : QState) :
    ∀ q ∈ [w.numHandles, w.numHandles + 1], (w.withPair node v).IsLocal node q := by
  intro q hq
  rw [IsLocal, withPair, addGroup_getLocation]
  rcases List.mem_pair.mp hq with rfl | rfl
  · simp [addHandle, newObject, setLocation, setLocationById, getLocation, Function.update]
  · exact addHandle_getLocation (w := (w.newObject v).2.addHandle node) node

end Q2NS.QStateRegistry
