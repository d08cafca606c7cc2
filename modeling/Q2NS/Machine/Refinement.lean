import Q2NS.Independent
import Q2NS.Machine.Code

/-!
# The registry refines the machine

Whatever a program without branches does, on any backend, the registry gives the
replies of the machine and ends in the machine's state: the tensor product of its
states, read through the handles, is the tensor of the machine.  States that are
created, merged and split on the way, their ids and the indices of the handles leave
no trace.  So two backends that agree on the operations of a program cannot be told
apart by it.
-/

namespace Q2NS.QStateRegistry

open NamedTensor Finset

variable {w w' : QStateRegistry} {b : QStateBackend} {G : GlobalState}

/-- The registry, with every state sound and on backend `b`, is in the state `G`. -/
structure Represents (b : QStateBackend) (w : QStateRegistry) (G : GlobalState) :
    Prop where
  inv : w.Inv
  all : w.AllSound b
  backend : w.defaultBackend = b
  handles : w.numHandles = G.handles
  place : ∀ q < G.handles, w.getLocation q = G.place q
  tensor : globalOf QState.kernel w = G.tensor

/-- An operation that the machine describes: no state objects of the caller, one
backend, and gates that the backend takes on distinct handles. -/
def Op.Plain (b : QStateBackend) : Op → Prop
  | .newState _ => False
  | .setDefaultBackend b' => b' = b
  | .createQubitFrom _ _ => False
  | .apply _ gate qs => qs.Nodup ∧ ∃ U, QState.Accepts b gate qs.length U
  | .measureBell _ p q _ _ => p ≠ q
  | _ => True

theorem represents_empty (b : QStateBackend) :
    Represents b (empty.setDefaultBackend b) .empty where
  inv := (@Inv.exec_keeps _ inv_empty (.setDefaultBackend b) trivial).inv
  all := fun s p hp => nomatch hp
  backend := rfl
  handles := rfl
  place := fun q hq => absurd hq (Nat.not_lt_zero q)
  tensor := by
    have hnone : (empty.setDefaultBackend b).registered = ∅ :=
      filter_false_of_mem fun s _ => Bool.false_ne_true
    funext z
    rw [globalOf, hnone, prod_empty]
    rfl

namespace Represents

theorem local_iff (h : Represents b w G) {node : NodeId} {q : QubitPtr} :
    (q < w.numHandles ∧ w.IsLocal node q) ↔ G.Local node q := by
  rw [GlobalState.Local, ← h.handles]
  refine and_congr_right fun hq => ?_
  rw [IsLocal, h.place q (h.handles ▸ hq)]

theorem prob (h : Represents b w G) {q : QubitPtr} (hq : q < w.numHandles)
    (basis : Basis) : w.outcomeProb q basis = G.prob q basis := by
  funext o
  have htrace := h.inv.traceAll_contract (fun s p hp => (h.all s p hp).1) hq basis o
  rw [GlobalState.prob, ← h.handles, ← h.tensor, htrace]

/-- The handles stay where they were, and the tensor changes. -/
theorem stays (h : Represents b w G) (hs : w.Stays w' b)
    (hb : w'.defaultBackend = w.defaultBackend) {F : (QubitPtr → Bool × Bool) → ℂ}
    (hF : globalOf QState.kernel w' = F) : Represents b w' { G with tensor := F } where
  inv := hs.inv
  all := hs.all
  backend := hb.trans h.backend
  handles := hs.handles.trans h.handles
  place := fun q hq => (hs.locations q).trans (h.place q hq)
  tensor := hF

/-! ## Gates and measurements -/

theorem apply (h : Represents b w G) (node : NodeId) {gate : QGate}
    {qs : List QubitPtr} (hd : qs.Nodup) {U : CMat}
    (hacc : QState.Accepts b gate qs.length U) :
    ∃ w', w.apply node gate qs = (.ok (G.apply node gate qs).1, w') ∧
      Represents b w' (G.apply node gate qs).2 := by
  by_cases hrefused : qs = [] ∨ ∃ q ∈ qs, ¬ G.Local node q
  · refine ⟨w, ?_, ?_⟩
    · rcases h.inv.apply_cases node gate qs with ⟨-, hf⟩ | ⟨⟨hne, hlocal⟩, -⟩
      · rw [hf, GlobalState.apply, if_pos hrefused]
      · rcases hrefused with hnil | ⟨q, hq, hno⟩
        · exact absurd hnil hne
        · exact absurd (h.local_iff.mp (hlocal q hq)) hno
    · rw [GlobalState.apply, if_pos hrefused]
      exact h
  · obtain ⟨hne, hall⟩ := not_or.mp hrefused
    have hlocal : ∀ q ∈ qs, q < w.numHandles ∧ w.IsLocal node q := fun q hq =>
      h.local_iff.mpr (not_not.mp fun hno => hall ⟨q, hq, hno⟩)
    obtain ⟨w', hok, hs, hF⟩ := h.inv.apply_accepted h.all hacc hne hd hlocal
    have hb := h.inv.apply_backend node gate qs
    rw [hok] at hb
    rw [GlobalState.apply, if_neg hrefused, hacc.matrix]
    exact ⟨w', hok, h.stays hs hb (h.tensor ▸ hF)⟩

theorem measure (h : Represents b w G) (node : NodeId) (q : QubitPtr) (basis : Basis)
    (draw : Bool) :
    ∃ w', w.measure node q basis draw = (.ok (G.measure b node q basis draw).1, w') ∧
      Represents b w' (G.measure b node q basis draw).2 := by
  by_cases hlocal : G.Local node q
  · rw [GlobalState.measure, if_neg (not_not.mpr hlocal)]
    have hlocal' := h.local_iff.mpr hlocal
    obtain ⟨hpos, hsame⟩ := h.inv.measure_drawn h.all node hlocal'.1 basis draw
    obtain ⟨w', hok, hs, -, hF⟩ := h.inv.measure_global h.all hlocal' hpos
    have hb := h.inv.measure_backend node q basis (drawn (w.outcomeProb q basis) draw)
    rw [hok] at hb
    rw [h.prob hlocal'.1] at hsame hok hF
    rw [h.tensor] at hF
    exact ⟨w', hsame.trans hok, h.stays hs hb hF⟩
  · rw [GlobalState.measure, if_pos hlocal]
    refine ⟨w, ?_, h⟩
    rcases h.inv.measure_cases node q basis draw with ⟨-, hf⟩ | ⟨hyes, -⟩
    · exact hf
    · exact absurd (h.local_iff.mp hyes) hlocal

/-- A built-in gate of a node on its handles. -/
theorem apply_builtin (h : Represents b w G) {node : NodeId} {kind : QGateKind}
    (hk : kind ≠ .Custom) {qs : List QubitPtr} (hlen : qs.length = kind.arity)
    (hd : qs.Nodup) (hne : qs ≠ []) (hlocal : ∀ q ∈ qs, G.Local node q) :
    ∃ w', w.apply node (.builtin kind) qs = (.ok true, w') ∧
      Represents b w' (G.apply node (.builtin kind) qs).2 ∧
      ∀ x, G.Local node x → (G.apply node (.builtin kind) qs).2.Local node x := by
  obtain ⟨U, hU⟩ := QState.accepts_builtin b hk
  rw [← hlen] at hU
  obtain ⟨w', hok, h'⟩ := h.apply node hd hU
  have hperformed : ¬ (qs = [] ∨ ∃ q ∈ qs, ¬ G.Local node q) := not_or.mpr
    ⟨hne, fun ⟨q, hq, hno⟩ => hno (hlocal q hq)⟩
  rw [GlobalState.apply, if_neg hperformed, hU.matrix] at hok h' ⊢
  exact ⟨w', hok, h', fun x hx => hx⟩

theorem measureBell (h : Represents b w G) (node : NodeId) {p q : QubitPtr}
    (hpq : p ≠ q) (drawA drawB : Bool) :
    ∃ w', w.measureBell node p q drawA drawB =
        (.ok (G.measureBell b node p q drawA drawB).1, w') ∧
      Represents b w' (G.measureBell b node p q drawA drawB).2 := by
  by_cases hrefused : ¬ G.Local node p ∨ ¬ G.Local node q
  · rw [GlobalState.measureBell, if_pos hrefused]
    refine ⟨w, ?_, h⟩
    rw [QStateRegistry.measureBell]
    split_ifs with hnull _ _ hno
    · rfl
    · rfl
    · rfl
    · rfl
    · obtain ⟨hp, hq⟩ := not_or.mp hnull
      obtain ⟨hlp, hlq⟩ := not_or.mp hno
      rcases hrefused with hno | hno
      · exact absurd (h.local_iff.mp ⟨not_le.mp hp, not_not.mp hlp⟩) hno
      · exact absurd (h.local_iff.mp ⟨not_le.mp hq, not_not.mp hlq⟩) hno
  · obtain ⟨hp, hq⟩ := not_or.mp hrefused
    have hboth : ∀ x ∈ [p, q], G.Local node x := fun x hx => by
      rcases List.mem_pair.mp hx with rfl | rfl
      · exact not_not.mp hp
      · exact not_not.mp hq
    rw [GlobalState.measureBell, if_neg hrefused]
    dsimp only
    obtain ⟨w₁, hok₁, h₁, hlocal₁⟩ := h.apply_builtin
      (show QGateKind.CNOT ≠ .Custom by decide)
      (show [p, q].length = QGateKind.CNOT.arity from rfl) (by simpa using hpq)
      (List.cons_ne_nil _ _) hboth
    obtain ⟨w₂, hok₂, h₂, -⟩ := h₁.apply_builtin
      (show QGateKind.H ≠ .Custom by decide)
      (show [p].length = QGateKind.H.arity from rfl) (List.nodup_singleton p)
      (List.cons_ne_nil _ _) fun x hx =>
        hlocal₁ x (hboth x (List.mem_singleton.mp hx ▸ List.mem_cons_self))
    obtain ⟨w₃, hok₃, h₃⟩ := h₂.measure node p .Z drawA
    obtain ⟨w₄, hok₄, h₄⟩ := h₃.measure node q .Z drawB
    exact ⟨w₄, measureBell_eq (fun x hx => h.local_iff.mpr (hboth x hx)) hok₁ hok₂ hok₃ hok₄,
      h₄⟩

end Represents

/-! ## New handles -/

/-- When all that happened is that new handles make up a state, their tensor is a
factor of its own. -/
theorem GroupAt.grown {s : StateId} {l : Finset QubitPtr}
    {F : (QubitPtr → Bool × Bool) → ℂ} (hg : w'.GroupAt b s l F) (h : w.Inv)
    (hall : w.AllSound b) (hk : w.KeepsBut w' [])
    (hl : ∀ x, x ∈ l ↔ w.numHandles ≤ x ∧ x < w'.numHandles) (hnew : l.Nonempty) :
    w'.AllSound b ∧
      globalOf QState.kernel w' = fun z => globalOf QState.kernel w z * F z := by
  have hinv' := hk.keeps.inv
  have hsame : ∀ s', w.states s' ≠ none → w.Untouched w' s' := fun s' hs' =>
    hk.confined.untouched s' hs' fun q hq => absurd hq List.not_mem_nil
  -- the states of old handles are the old states
  have hmember : ∀ s', w'.states s' ≠ none → ∃ x, x ∈ w'.qubitsOf s' := by
    intro s' hs'
    obtain ⟨p, hp⟩ := Option.ne_none_iff_exists'.mp hs'
    have hpos := hinv'.populated s' p hp
    have hlen := hinv'.length_qubitsOf hs'
    rw [valueOf, hp, Option.getD_some] at hlen
    exact List.exists_mem_of_length_pos (hlen ▸ hpos)
  have hold : ∀ s', w'.states s' ≠ none → s' ≠ s → w.states s' ≠ none := by
    intro s' hs' hne
    obtain ⟨x, hx⟩ := hmember s' hs'
    obtain ⟨hlt, hxs⟩ := hinv'.mem_qubitsOf_iff.mp hx
    have hxw : x < w.numHandles := by
      by_contra hge
      have hxl := (hl x).mpr ⟨not_lt.mp hge, hlt⟩
      exact hne (hxs.symm.trans (hg.handle hinv' hxl).2)
    have hreg := h.states_of_handle hxw
    have hin : x ∈ w'.qubitsOf (w.qubits x).stateId := by
      rw [(hsame _ hreg).qubitsOf, h.mem_qubitsOf_iff]
      exact ⟨hxw, rfl⟩
    rw [← hxs, (hinv'.mem_qubitsOf_iff.mp hin).2]
    exact hreg
  have hfresh : w.states s = none := by
    by_contra hs
    obtain ⟨x, hx⟩ := hnew
    have hin := hinv'.mem_qubitsOf_iff.mpr (hg.handle hinv' hx)
    rw [(hsame s hs).qubitsOf, h.mem_qubitsOf_iff] at hin
    exact absurd hin.1 (not_lt.mpr ((hl x).mp hx).1)
  refine ⟨fun s' p hp => ?_, funext fun z => ?_⟩
  · have hs' : w'.states s' ≠ none := hp ▸ Option.some_ne_none p
    have hval : (w'.objects p).value = w'.valueOf s' := by
      rw [valueOf, hp]
      rfl
    rw [hval]
    by_cases hne : s' = s
    · exact hne ▸ ⟨hg.wellFormed, hg.backend⟩
    · have hreg := hold s' hs' hne
      rw [(hsame s' hreg).valueOf hreg]
      exact hall.valueOf hreg
  · have hregistered : w'.registered = insert s w.registered := by
      ext s'
      rw [hinv'.mem_registered, mem_insert, h.mem_registered]
      constructor
      · exact fun hs' => or_iff_not_imp_left.mpr (hold s' hs')
      · rintro (rfl | hs')
        · exact hg.registered
        · exact (hsame s' hs').states ▸ hs'
    have hnot : s ∉ w.registered := fun hs => h.mem_registered.mp hs hfresh
    have hrest : ∏ s' ∈ w.registered, factorOf QState.kernel w' s' z =
        globalOf QState.kernel w z := prod_congr rfl fun s' hs' => by
      have hreg := h.mem_registered.mp hs'
      rw [(hsame s' hreg).factorOf hreg]
    rw [globalOf, hregistered, prod_insert hnot, hrest, hg.factor, mul_comm]

theorem Inv.apply_numHandles (h : w.Inv) (node : NodeId) (gate : QGate)
    (qs : List QubitPtr) : (w.apply node gate qs).2.numHandles = w.numHandles := by
  rcases h.apply_cases node gate qs with ⟨-, hf⟩ | ⟨-,
    ⟨s, rest, e, -, -, he⟩ | ⟨w₁, p, hg, -, ⟨e, -, he⟩ | ⟨v, -, hok⟩⟩⟩
  · rw [hf]
  · rw [he]
  · rw [he]
    exact hg.numHandles
  · rw [hok]
    exact hg.numHandles

namespace Represents

/-- A registry that has grown by one group of handles. -/
theorem grown (h : Represents b w G) {s : StateId} {l : Finset QubitPtr} {n : ℕ}
    {F : (QubitPtr → Bool × Bool) → ℂ} {place : QubitPtr → Location}
    (hg : w'.GroupAt b s l F) (hk : w.KeepsBut w' [])
    (hb : w'.defaultBackend = b) (hn : w'.numHandles = n)
    (hl : ∀ x, x ∈ l ↔ w.numHandles ≤ x ∧ x < w'.numHandles) (hnew : l.Nonempty)
    (hplace : ∀ q < n, w'.getLocation q = place q) :
    Represents b w' ⟨n, place, fun z => G.tensor z * F z⟩ := by
  obtain ⟨hall, hglobal⟩ := hg.grown h.inv h.all hk hl hnew
  exact ⟨hk.keeps.inv, hall, hb, hn, hplace, h.tensor ▸ hglobal⟩

/-- A new handle at the node, next to what was there. -/
theorem place_new (h : Represents b w G) (hk : w.KeepsBut w' []) {node : NodeId}
    (hnew : w'.getLocation w.numHandles = .node node) :
    ∀ q < G.handles + 1, w'.getLocation q = Function.update G.place G.handles (.node node) q := by
  intro q hq
  by_cases he : q = G.handles
  · rw [he, Function.update_self, ← h.handles]
    exact hnew
  · have hlt := lt_of_le_of_ne (Nat.lt_succ_iff.mp hq) he
    rw [Function.update_of_ne he, ← h.place q hlt]
    exact hk.confined.locations q (h.handles ▸ hlt) List.not_mem_nil

theorem createQubit (h : Represents b w G) (node : NodeId) :
    ∃ w', w.createQubit node = (.ok (some G.handles), w') ∧
      Represents b w' (G.createQubit node) := by
  obtain ⟨v, hv, hok⟩ := h.inv.createQubit_eq node
  have hk := h.inv.exec_keepsBut (show w.AdoptsFresh (.createQubit node) from trivial)
  rw [exec, hok] at hk
  have hk : w.KeepsBut ((w.newObject v).2.withQubit node w.numObjects) [] := hk
  obtain ⟨v', hv', hwf, -, hback⟩ := QState.create_ok one_ne_zero w.defaultBackend
  obtain rfl := Except.ok.inj (hv.symm.trans hv')
  have hval : (((w.newObject v).2.addHandle node).objects w.numObjects).value = v :=
    congrArg StateObject.value (newObject_self v)
  have hg := groupAt_addGroup (b := b) (List.nodup_singleton w.numHandles) hk.keeps.inv
    (hval.symm ▸ hwf) (hval.symm ▸ hback.trans h.backend)
  -- the tensor of the new state
  have hzero : (fun z => (((w.newObject v).2.addHandle node).objects
      w.numObjects).value.kernel (NamedTensor.named [w.numHandles] z)) =
      GlobalState.zeroTensor w.numHandles := by
    funext z
    have hall : ∀ y : ℕ → Bool, (∀ i < 1, y i = false) ↔ y 0 = false := fun y =>
      ⟨fun hy => hy 0 Nat.one_pos, fun hy i hi => Nat.lt_one_iff.mp hi ▸ hy⟩
    rw [hval, QState.create_kernel one_ne_zero hv]
    simp only [density, hall]
    rfl
  rw [hzero] at hg
  have hmachine : G.createQubit node = ⟨w.numHandles + 1,
      Function.update G.place G.handles (.node node),
      fun z => G.tensor z * GlobalState.zeroTensor w.numHandles z⟩ := by
    rw [GlobalState.createQubit, h.handles]
  refine ⟨_, h.handles ▸ hok, ?_⟩
  rw [hmachine]
  refine h.grown hg hk h.backend rfl (fun x => ?_) ⟨w.numHandles, by simp⟩ fun q hq =>
    h.place_new hk ?_ q (h.handles ▸ hq)
  · have hnum : ((w.newObject v).2.withQubit node w.numObjects).numHandles =
        w.numHandles + 1 := rfl
    have hrange : ∀ x n : ℕ, x = n ↔ n ≤ x ∧ x < n + 1 := fun x n => by omega
    rw [List.mem_toFinset, List.mem_singleton, hnum]
    exact hrange x _
  · exact (addGroup_getLocation _ _ _).trans
      (addHandle_getLocation (w := (w.newObject v).2) node)

theorem createBellPair (h : Represents b w G) (node : NodeId) :
    ∃ w', w.createBellPair node = (.ok (G.handles, G.handles + 1), w') ∧
      Represents b w' (G.createBellPair node) := by
  obtain ⟨w', hok, hk, hback, hlocal, s, hg⟩ := h.inv.createBellPair_pair h.backend node
  have hnum : w'.numHandles = w.numHandles + 2 := by
    obtain ⟨v, hv, heq⟩ := h.inv.createBellPair_eq node
    have h₁ := (h.inv.withPair_keeps node (QState.create_numQubits hv)).inv
    have hH := h₁.apply_numHandles node (.builtin .H) [w.numHandles]
    cases hw₁ : (w.withPair node v).apply node (.builtin .H) [w.numHandles] with
    | mk r₁ w₁ =>
        have h₂ := (h₁.apply_keeps node (.builtin .H) [w.numHandles]).inv
        rw [hw₁] at hH h₂
        rw [heq, hw₁] at hok
        cases r₁ with
        | error e => cases (Prod.mk.inj hok).1
        | ok a =>
            have hCNOT := h₂.apply_numHandles node (.builtin .CNOT)
              [w.numHandles, w.numHandles + 1]
            cases hw₂ : w₁.apply node (.builtin .CNOT) [w.numHandles, w.numHandles + 1] with
            | mk r₂ w₂ =>
                rw [hw₂] at hCNOT
                have hok : andThen (w₁.apply node (.builtin .CNOT)
                  [w.numHandles, w.numHandles + 1]) _ = _ := hok
                rw [hw₂] at hok
                cases r₂ with
                | error e => cases (Prod.mk.inj hok).1
                | ok a' =>
                    obtain rfl : w₂ = w' := (Prod.mk.inj hok).2
                    exact hCNOT.trans hH
  rw [h.handles] at hok hg hlocal hnum
  refine ⟨w', hok, h.grown hg hk hback hnum (fun x => ?_) ⟨G.handles, by simp⟩
    fun q hq => ?_⟩
  · have hrange : ∀ x n : ℕ, x = n ∨ x = n + 1 ↔ n ≤ x ∧ x < n + 2 := fun x n => by omega
    rw [mem_insert, mem_singleton, hnum, h.handles]
    exact hrange x _
  · by_cases he : q = G.handles + 1
    · rw [he, Function.update_self]
      exact hlocal _ (by simp)
    · rw [Function.update_of_ne he]
      exact h.place_new hk (h.handles ▸ hlocal _ (by simp)) q (by omega)

/-! ## Moves -/

/-- A handle that is put somewhere. -/
theorem move (h : Represents b w G) {q : QubitPtr} (hq : q < G.handles) (loc : Location) :
    Represents b (w.setLocation q loc) (G.move q loc) := by
  have hk := setLocation_keepsBut h.inv (h.handles ▸ hq) loc
  have hplace : (G.move q loc).place = Function.update G.place q loc := rfl
  refine ⟨hk.keeps.inv, h.all, h.backend, h.handles, fun x hx => ?_, h.tensor⟩
  by_cases he : x = q
  · rw [he, getLocation_setLocation, hplace, Function.update_self]
  · have hx' : x < w.numHandles := h.handles.symm ▸ hx
    rw [hplace, Function.update_of_ne he, ← h.place x hx]
    exact hk.confined.locations x hx' fun hmem => he (List.mem_singleton.mp hmem)

theorem moveUnlessLost (h : Represents b w G) (q : QubitPtr) (loc : Location) :
    Represents b (if w.numHandles ≤ q then w else
      if w.getLocation q = .lost then w else w.setLocation q loc)
      (G.moveUnlessLost q loc) := by
  rw [GlobalState.moveUnlessLost]
  by_cases hq : q < G.handles
  · rw [if_neg (not_le.mpr (h.handles.symm ▸ hq)), h.place q hq]
    by_cases hlost : G.place q = .lost
    · rw [if_pos hlost, if_neg (not_and_not_right.mpr fun _ => hlost)]
      exact h
    · rw [if_neg hlost, if_pos ⟨hq, hlost⟩]
      exact h.move hq loc
  · rw [if_pos (h.handles.symm ▸ not_lt.mp hq), if_neg fun hand => hq hand.1]
    exact h

/-! ## Programs -/

/-- One operation: it does not fail, and the reply and the next state are those of the
machine. -/
theorem call (h : Represents b w G) {op : Op} (hop : op.Plain b) :
    ∃ w', w.call op = (.ok (G.call b op).1, w') ∧ Represents b w' (G.call b op).2 := by
  cases op with
  | newState value => exact hop.elim
  | setDefaultBackend b' =>
      obtain rfl := hop
      exact ⟨_, rfl, ⟨(@Inv.exec_keeps w h.inv (.setDefaultBackend b') trivial).inv, h.all,
        rfl, h.handles, h.place, h.tensor⟩⟩
  | createQubit node =>
      obtain ⟨w', hok, h'⟩ := h.createQubit node
      exact ⟨w', by rw [QStateRegistry.call, hok]; rfl, h'⟩
  | createQubitFrom node state => exact hop.elim
  | createBellPair node =>
      obtain ⟨w', hok, h'⟩ := h.createBellPair node
      exact ⟨w', by rw [QStateRegistry.call, hok]; rfl, h'⟩
  | apply node gate qs =>
      obtain ⟨hd, U, hacc⟩ := hop
      obtain ⟨w', hok, h'⟩ := h.apply node hd hacc
      exact ⟨w', by rw [QStateRegistry.call, hok]; rfl, h'⟩
  | measure node q basis draw =>
      obtain ⟨w', hok, h'⟩ := h.measure node q basis draw
      exact ⟨w', by rw [QStateRegistry.call, hok]; rfl, h'⟩
  | measureBell node p q drawA drawB =>
      obtain ⟨w', hok, h'⟩ := h.measureBell node hop drawA drawB
      exact ⟨w', by rw [QStateRegistry.call, hok]; rfl, h'⟩
  | adoptQubit node q =>
      refine ⟨_, rfl, ?_⟩
      have hsame : w.adoptQubit node q = if w.numHandles ≤ q then w else
          if w.getLocation q = .lost then w else w.setLocation q (.node node) := by
        rw [adoptQubit, setLocationNode]
        split_ifs <;> rfl
      rw [hsame]
      exact h.moveUnlessLost q _
  | setLocationNode q node => exact ⟨_, rfl, h.moveUnlessLost q _⟩
  | setLocationChannel q c => exact ⟨_, rfl, h.moveUnlessLost q _⟩
  | setLocationLost q =>
      refine ⟨_, rfl, ?_⟩
      have hcall : (G.call b (.setLocationLost q)).2 =
          if q < G.handles then G.move q .lost else G := rfl
      have hwrite : (w.onHandle q (w.setLocationLost q)).2 =
          if w.numHandles ≤ q then w else w.setLocation q .lost := rfl
      rw [hcall, hwrite]
      by_cases hq : q < G.handles
      · rw [if_pos hq, if_neg (not_le.mpr (h.handles.symm ▸ hq))]
        exact h.move hq _
      · rw [if_neg hq, if_pos (h.handles.symm ▸ not_lt.mp hq)]
        exact h

theorem callAll (h : Represents b w G) {ops : List Op} (hops : ∀ op ∈ ops, op.Plain b) :
    ∃ w', QStateRegistry.callAll ops w = (.ok (G.callAll b ops).1, w') ∧
      Represents b w' (G.callAll b ops).2 := by
  induction ops generalizing w G with
  | nil => exact ⟨w, rfl, h⟩
  | cons op ops ih =>
      obtain ⟨w₁, hok₁, h₁⟩ := h.call (hops op List.mem_cons_self)
      obtain ⟨w₂, hok₂, h₂⟩ := ih h₁ fun op hop => hops op (List.mem_cons_of_mem _ hop)
      refine ⟨w₂, ?_, h₂⟩
      rw [QStateRegistry.callAll, hok₁, andThen, hok₂, andThen]
      rfl

end Represents

/-- Every program of plain operations runs to its end on every backend, with the replies
of the machine, and leaves the registry in the machine's state. -/
theorem registry_refines_machine (b : QStateBackend) {ops : List Op}
    (hops : ∀ op ∈ ops, op.Plain b) :
    ∃ w, callAll ops (empty.setDefaultBackend b) =
        (.ok (GlobalState.empty.callAll b ops).1, w) ∧
      Represents b w (GlobalState.empty.callAll b ops).2 :=
  (represents_empty b).callAll hops

/-- A pair is made, sent to another node, and measured at both ends. -/
def pairProgram (basis : Basis) : List Op :=
  [.createBellPair 0, .setLocationChannel 1 0, .apply 0 (.builtin .H) [1],
    .adoptQubit 1 1, .measure 0 0 basis true, .apply 1 (.builtin .H) [1],
    .measure 1 1 basis false]

theorem pairProgram_plain (b : QStateBackend) (basis : Basis) :
    ∀ op ∈ pairProgram basis, op.Plain b := by
  have hH : Op.Plain b (.apply 0 (.builtin .H) [1]) :=
    ⟨List.nodup_singleton 1, QState.accepts_builtin b (by decide)⟩
  simp only [pairProgram, List.forall_mem_cons]
  exact ⟨trivial, trivial, hH, trivial, trivial, hH, trivial, List.forall_mem_nil _⟩

theorem registry_refines_machine_pair :
    ∃ w, callAll (pairProgram .Y) (empty.setDefaultBackend .Stab) =
        (.ok (GlobalState.empty.callAll .Stab (pairProgram .Y)).1, w) ∧
      Represents .Stab w (GlobalState.empty.callAll .Stab (pairProgram .Y)).2 :=
  registry_refines_machine .Stab (pairProgram_plain .Stab .Y)

/-! ## Backends -/

/-- Not a measurement in the basis `Y`. -/
def Op.NotInY : Op → Prop
  | .measure _ _ basis _ => basis ≠ .Y
  | _ => True

/-- Both kinds of backends leave a measured qubit in the same state, but in `Y`. -/
theorem measuredTensor_eq (b b' : QStateBackend) {basis : Basis}
    (hY : (b = .Stab ↔ b' = .Stab) ∨ basis ≠ .Y) (o : Bool) (q : QubitPtr) :
    measuredTensor b basis o q = measuredTensor b' basis o q := by
  have hamp : QState.measuredAmplitude b basis o = QState.measuredAmplitude b' basis o := by
    rcases hY with hiff | hne
    · cases b <;> cases b' <;> first | rfl | simp at hiff
    · have hsame : eigenvector basis o = measuredVector basis o := by
        cases basis with
        | Y => exact absurd rfl hne
        | X => rfl
        | Z => rfl
      cases b <;> cases b' <;> simp only [QState.measuredAmplitude, hsame]
  rw [measuredTensor, measuredTensor, hamp]

theorem machine_measure_eq (G : GlobalState) (b b' : QStateBackend) {basis : Basis}
    (hY : (b = .Stab ↔ b' = .Stab) ∨ basis ≠ .Y) (node : NodeId) (q : QubitPtr)
    (draw : Bool) : G.measure b node q basis draw = G.measure b' node q basis draw := by
  simp only [GlobalState.measure, GlobalState.collapse, measuredTensor_eq b b' hY]

/-- The machine is the same for both backends. -/
theorem machine_eq {b b' : QStateBackend} {ops : List Op}
    (hY : (b = .Stab ↔ b' = .Stab) ∨ ∀ op ∈ ops, op.NotInY) (G : GlobalState) :
    G.callAll b ops = G.callAll b' ops := by
  induction ops generalizing G with
  | nil => rfl
  | cons op ops ih =>
      have hcall : G.call b op = G.call b' op := by
        have hop := hY.imp_right fun h => h op List.mem_cons_self
        cases op with
        | measure node q basis draw =>
            exact congrArg (Prod.map Reply.outcome id)
              (machine_measure_eq G b b' hop node q draw)
        | measureBell node p q drawA drawB =>
            have hZ := fun G node q draw => machine_measure_eq G b b'
              (.inr (show Basis.Z ≠ .Y by decide)) node q draw
            simp only [GlobalState.call, GlobalState.measureBell, hZ]
        | _ => rfl
      have hrest := ih (hY.imp_right fun h op hop => h op (List.mem_cons_of_mem _ hop))
      simp only [GlobalState.callAll, hcall, hrest]

/-- A program of plain operations cannot tell two backends apart, unless it measures in
`Y` and one of them is the stabilizer backend: the replies, the places of the qubits,
the joint state of all of them and the probabilities of every further measurement are
the same. -/
theorem backends_agree {b b' : QStateBackend} {ops : List Op}
    (hops : ∀ op ∈ ops, op.Plain b) (hops' : ∀ op ∈ ops, op.Plain b')
    (hY : (b = .Stab ↔ b' = .Stab) ∨ ∀ op ∈ ops, op.NotInY) :
    ∃ rs w w', callAll ops (empty.setDefaultBackend b) = (.ok rs, w) ∧
      callAll ops (empty.setDefaultBackend b') = (.ok rs, w') ∧
      w'.numHandles = w.numHandles ∧
      globalOf QState.kernel w' = globalOf QState.kernel w ∧
      ∀ q < w.numHandles, w'.getLocation q = w.getLocation q ∧
        w'.outcomeProb q = w.outcomeProb q := by
  obtain ⟨w, hok, h⟩ := (represents_empty b).callAll hops
  obtain ⟨w', hok', h'⟩ := (represents_empty b').callAll hops'
  rw [← machine_eq hY] at hok' h'
  refine ⟨_, w, w', hok, hok', h'.handles.trans h.handles.symm,
    h'.tensor.trans h.tensor.symm, fun q hq => ⟨?_, funext fun basis => ?_⟩⟩
  · have hq' := h.handles ▸ hq
    exact (h'.place q hq').trans (h.place q hq').symm
  · have hq' : q < w'.numHandles := by rwa [h'.handles, ← h.handles]
    exact (h'.prob hq' basis).trans (h.prob hq basis).symm

theorem backends_agree_pair : ∃ rs w w',
    callAll (pairProgram .X) (empty.setDefaultBackend .Ket) = (.ok rs, w) ∧
      callAll (pairProgram .X) (empty.setDefaultBackend .Stab) = (.ok rs, w') ∧
      w'.numHandles = w.numHandles ∧
      globalOf QState.kernel w' = globalOf QState.kernel w ∧
      ∀ q < w.numHandles, w'.getLocation q = w.getLocation q ∧
        w'.outcomeProb q = w.outcomeProb q :=
  backends_agree (pairProgram_plain .Ket .X) (pairProgram_plain .Stab .X) (.inr (by
    simp only [pairProgram, List.forall_mem_cons]
    exact ⟨trivial, trivial, trivial, trivial, (by decide : Basis.X ≠ .Y), trivial,
      (by decide : Basis.X ≠ .Y), List.forall_mem_nil _⟩))

end Q2NS.QStateRegistry
