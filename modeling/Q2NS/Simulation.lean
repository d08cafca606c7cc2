import Q2NS.QState
import Q2NS.StabInvariant

/-!
# The stabilizer backend simulates the ket backend

A `QStateStab` and a `QStateKet` that go through the same operations, with the
same measurement outcomes, stand for the same vector up to a global phase.
-/

namespace Q2NS

open NamedTensor QuadForm Loop Finset

namespace QStateStab

/-- Whether a measurement draws a random bit: `MeasureZ` does when the row of
the target is not zero after the rotation. -/
def drawsBit (st : Stab) (t : ℕ) (basis : Basis) : Except Exit Bool := do
  let psi ← rotateIntoZBasis st.psi t basis
  return !(← psi.A.rowIsZero t)

/-- The chance of outcome `o` when the random bit is fair. -/
noncomputable def outcomeProb (st : Stab) (t : ℕ) (basis : Basis) (o : Bool) : ℝ :=
  ∑ draw : Bool, if MeasureResult.outcome <$> (measure st t basis draw).1 = .ok o
    then 0.5 else 0

/-- The bit is the outcome when it is drawn, and has no influence when it is
not. -/
theorem measure_outcome {st : Stab} (h : st.RepInv) {t : ℕ}
    (ht : t < st.numQubits) (basis : Basis) :
    ∃ d, drawsBit st t basis = .ok d ∧
      ((d = true ∧ ∀ draw r st', measure st t basis draw = (.ok r, st') →
        r.outcome = draw) ∨
      (d = false ∧ ∃ o, ∀ draw r st', measure st t basis draw = (.ok r, st') →
        r.outcome = o)) := by
  obtain ⟨psi, hrot, hrep, hn, -⟩ :=
    rotateIntoZBasis_ok h.psi (h.n.symm ▸ ht) basis
  have htn : t < psi.n := by rw [hn, h.n]; exact ht
  obtain ⟨z, hz, -⟩ := AffineState.rowIsZero_ok hrep.toGrid htn
  have hout : ∀ draw r st', measure st t basis draw = (.ok r, st') →
      ∃ s, psi.measureZ t draw = .ok (r.outcome, s) := by
    intro draw r st' hm
    rw [measure, if_neg (not_le.mpr ht), collapse, hrot, ok_bind] at hm
    cases hmz : psi.measureZ t draw with
    | error e =>
        rw [hmz] at hm
        cases hm
    | ok p =>
        rw [hmz, Prod.mk.injEq] at hm
        obtain ⟨_, _, hr⟩ := bind_eq_ok.mp hm.1
        obtain ⟨_, _, hr⟩ := bind_eq_ok.mp hr
        obtain rfl := Except.ok.inj hr
        exact ⟨p.2, rfl⟩
  refine ⟨!z, by rw [drawsBit, hrot, ok_bind, hz]; rfl, ?_⟩
  cases z with
  | true =>
      refine .inr ⟨rfl, psi.b.entry t == 1, fun draw r st' hm => ?_⟩
      obtain ⟨s, hs⟩ := hout draw r st' hm
      rw [AffineState.measureZ, hz, ok_bind, if_pos rfl] at hs
      obtain ⟨bj, hb, hs⟩ := bind_eq_ok.mp hs
      have hbj : bj = psi.b.entry t := by
        have hget := UVector.get_eq_ok (v := psi.b) (i := t)
          (lt_of_lt_of_le htn hrep.bSize)
        rw [hget] at hb
        exact (Except.ok.inj hb).symm
      rw [← hbj]
      exact (Prod.mk.inj (Except.ok.inj hs)).1.symm
  | false =>
      refine .inl ⟨rfl, fun draw r st' hm => ?_⟩
      obtain ⟨s, hs⟩ := hout draw r st' hm
      rw [AffineState.measureZ, hz, ok_bind, if_neg Bool.false_ne_true] at hs
      dsimp only at hs
      obtain ⟨_, _, hs⟩ := bind_eq_ok.mp hs
      split_ifs at hs
      · obtain ⟨_, hthrow, _⟩ := bind_eq_ok.mp hs
        cases hthrow
      · obtain ⟨_, _, hs⟩ := bind_eq_ok.mp hs
        obtain ⟨_, _, hs⟩ := bind_eq_ok.mp hs
        obtain ⟨_, _, hs⟩ := bind_eq_ok.mp hs
        exact (Prod.mk.inj (Except.ok.inj hs)).1.symm

/-- The chances of the outcomes are the Born probabilities, and a bit is drawn
exactly when they are one half. -/
theorem outcomeProb_eq {st : Stab} (h : st.RepInv) {t : ℕ}
    (ht : t < st.numQubits) (basis : Basis) :
    (∀ o, outcomeProb st t basis o = st.prob t basis o ∧
      (st.prob t basis o = 0 ∨ st.prob t basis o = 1 / 2 ∨
        st.prob t basis o = 1)) ∧
    ∃ d, drawsBit st t basis = .ok d ∧
      ∀ o, d = true ↔ st.prob t basis o = 1 / 2 := by
  have hmeas := measure_ok h ht basis
  choose r st' hok _ _ hcases _ using hmeas
  have hmap : ∀ draw o, (MeasureResult.outcome <$> (measure st t basis draw).1 =
      .ok o ↔ (r draw).outcome = o) := by
    intro draw o
    rw [hok]
    exact ⟨fun h => Except.ok.inj h, fun h => congrArg Except.ok h⟩
  obtain ⟨d, hd, ⟨rfl, hout⟩ | ⟨rfl, o₀, hout⟩⟩ := measure_outcome h ht basis
  · have hr : ∀ draw, (r draw).outcome = draw := fun draw =>
      hout draw _ _ (hok draw)
    have hhalf : ∀ o, st.prob t basis o = 1 / 2 := by
      intro o
      have ho := hcases o
      have hno := hcases (!o)
      rw [hr] at ho hno
      rw [Bool.not_not] at hno
      rcases ho with ⟨hone, hzero⟩ | ⟨-, hhalf⟩
      · rcases hno with ⟨hone', -⟩ | ⟨-, hhalf'⟩ <;> linarith
      · exact hhalf
    refine ⟨fun o => ⟨?_, .inr (.inl (hhalf o))⟩, true, hd,
      fun o => iff_of_true rfl (hhalf o)⟩
    rw [outcomeProb, hhalf, Fintype.sum_bool]
    simp only [hmap, hr]
    cases o <;> norm_num
  · have hr : ∀ draw, (r draw).outcome = o₀ := fun draw =>
      hout draw _ _ (hok draw)
    have hval : st.prob t basis o₀ = 1 ∧ st.prob t basis (!o₀) = 0 := by
      rcases hcases (!o₀) with hone | ⟨hno, -⟩
      · rwa [hr] at hone
      · rw [hr] at hno
        cases o₀ <;> cases hno
    have hprob : ∀ o, st.prob t basis o = if o₀ = o then 1 else 0 := by
      intro o
      by_cases ho : o₀ = o
      · rw [if_pos ho, ← ho, hval.1]
      · rw [if_neg ho, show o = !o₀ by cases o <;> cases o₀ <;> simp_all, hval.2]
    refine ⟨fun o => ⟨?_, ?_⟩, false, hd, fun o => ?_⟩
    · rw [outcomeProb, hprob, Fintype.sum_bool]
      simp only [hmap, hr]
      split_ifs <;> norm_num
    · rw [hprob]
      split_ifs <;> norm_num
    · rw [hprob]
      split_ifs <;> norm_num

end QStateStab

/-! ## Runs in parallel -/

/-- A stabilizer object and a ket object in step. -/
inductive Parallel : Stab → Ket → Prop where
  | init {n psi} : QStateKet.init n = .ok psi →
      Parallel (QStateStab.init n) psi
  | apply {st st' psi psi' g t} : Parallel st psi → QStateStab.Supports g t →
      t.Nodup → (∀ q ∈ t, q < st.numQubits) →
      QStateStab.apply st g t = .ok st' → QStateKet.apply psi g t = .ok psi' →
      Parallel st' psi'
  | merge {st psi other phi st' psi'} : Parallel st psi → Parallel other phi →
      QStateStab.mergeDisjoint st other = .ok st' →
      QStateKet.mergeDisjoint psi phi = .ok psi' → Parallel st' psi'
  | measure {st psi t basis draw draw' r r' st' psi'} : Parallel st psi →
      t < st.numQubits →
      QStateStab.measure st t basis draw = (.ok r, st') →
      QStateKet.measure psi t basis draw' = (.ok r', psi') →
      r.outcome = r'.outcome → Parallel r.survivors r'.survivors

/-- The two objects stand for one vector. -/
structure SameVector (st : Stab) (psi : Ket) : Prop where
  repInv : st.RepInv
  norm : psi.norm2 = 1
  numQubits : st.numQubits = psi.n
  vector : density st.eval = density psi.eval

namespace SameVector

variable {st : Stab} {psi : Ket}

theorem kernel (h : SameVector st psi) :
    (QState.stab st).kernel = (QState.ket psi).kernel := h.vector

theorem prob (h : SameVector st psi) (t : ℕ) (basis : Basis) (o : Bool) :
    st.prob t basis o = psi.prob t basis o := by
  have heq : (QState.stab st).prob t basis o = (QState.ket psi).prob t basis o := by
    rw [QState.prob, QState.prob, h.kernel]
    exact congrArg (fun n => trace (n - 1) _) h.numQubits
  rw [QState.prob_stab, QState.prob_ket] at heq
  exact_mod_cast heq

/-- A gate acts on both in the same way. -/
theorem apply (h : SameVector st psi) {g : QGate} {t : List ℕ}
    (hg : QStateStab.Supports g t) (hd : t.Nodup)
    (hlt : ∀ q ∈ t, q < st.numQubits) :
    ∃ st' psi', QStateStab.apply st g t = .ok st' ∧
      QStateKet.apply psi g t = .ok psi' ∧ SameVector st' psi' := by
  obtain ⟨U, st', hU, hok, hrep, hn, heval⟩ :=
    QStateStab.apply_ok h.repInv hg.1 hg.2 hd hlt
  have hmatrix : g.matrix = .ok U := (if_neg hg.1).trans hU
  have hunit : U.Unitary t.length := hg.2 ▸ matrixOf_unitary hU
  have hne : t ≠ [] := by
    rintro rfl
    have harity := hg.2
    cases hk : g.kind <;> rw [hk] at harity <;> cases harity
  obtain ⟨psi', hok', hn', heval', hnorm⟩ := QStateKet.apply_ok hmatrix hunit hne
    hd fun q hq => h.numQubits ▸ hlt q hq
  refine ⟨st', psi', hok, hok', hrep, hnorm.trans h.norm,
    hn.trans (h.numQubits.trans hn'.symm), ?_⟩
  rw [heval, heval', ← actOn_density, ← actOn_density, h.vector]

theorem merge {other : Stab} {phi : Ket} (h : SameVector st psi)
    (ho : SameVector other phi) :
    ∃ st' psi', QStateStab.mergeDisjoint st other = .ok st' ∧
      QStateKet.mergeDisjoint psi phi = .ok psi' ∧ SameVector st' psi' := by
  obtain ⟨st', hok, hrep, hn, heval⟩ :=
    QStateStab.mergeDisjoint_ok h.repInv ho.repInv
  obtain ⟨hok', hnorm⟩ := QStateKet.mergeDisjoint_ok h.norm ho.norm
  refine ⟨st', psi.kron phi, hok, hok', hrep, hnorm, ?_, ?_⟩
  · rw [hn, h.numQubits, ho.numQubits]
    rfl
  · funext z
    rw [funext heval, funext (psi.eval_kron phi), density_mul st.eval,
      density_mul psi.eval, h.vector, h.numQubits]
    exact congrArg (density psi.eval z * ·)
      (congrFun ho.vector fun i => z (psi.n + i))

/-- The same outcome leaves the same survivors. -/
theorem measure (h : SameVector st psi) {t : ℕ} (ht : t < st.numQubits)
    {basis : Basis} {draw draw' : Bool} {r : MeasureResult Stab}
    {r' : MeasureResult Ket} {st' : Stab} {psi' : Ket}
    (hr : QStateStab.measure st t basis draw = (.ok r, st'))
    (hr' : QStateKet.measure psi t basis draw' = (.ok r', psi'))
    (ho : r.outcome = r'.outcome) : SameVector r.survivors r'.survivors := by
  have ht' : t < psi.n := h.numQubits ▸ ht
  obtain ⟨r₁, _, hok, -, -, -, -, -, hrep, -, hkernel⟩ :=
    @QState.measure_ok (.stab st) h.repInv t ht basis draw
  obtain ⟨r₂, _, hok', -, -, -, -, -, hnorm, -, hkernel'⟩ :=
    @QState.measure_ok (.ket psi) h.norm t ht' basis draw'
  have hr₁ : r.map QState.stab = r₁ := by
    rw [QState.measure, hr] at hok
    exact Except.ok.inj (Prod.mk.inj hok).1
  have hr₂ : r'.map QState.ket = r₂ := by
    rw [QState.measure, hr'] at hok'
    exact Except.ok.inj (Prod.mk.inj hok').1
  subst hr₁ hr₂
  have hn := ((QStateStab.measure_n st t basis draw).2 r (by rw [hr])).2
  have hn' := ((QStateKet.measure_n psi t basis draw').2 r' (by rw [hr'])).2
  refine ⟨hrep, hnorm, by rw [hn, hn', h.numQubits], funext fun z => ?_⟩
  have hprob : (QState.stab st).prob t basis r'.outcome =
      (QState.ket psi).prob t basis r'.outcome := by
    rw [QState.prob_stab, QState.prob_ket, h.prob]
  have hst := hkernel z
  have hpsi := hkernel' z
  simp only [MeasureResult.map, ho, hprob, h.kernel] at hst
  exact hst.trans hpsi.symm

end SameVector

theorem Parallel.sameVector {st : Stab} {psi : Ket} (h : Parallel st psi) :
    SameVector st psi := by
  induction h with
  | @init n psi hok =>
      have hn : n ≠ 0 := by
        rintro rfl
        cases hok
      obtain ⟨psi', hok', hpn, hnorm, heval⟩ := QStateKet.init_ok hn
      rw [hok] at hok'
      obtain rfl := Except.ok.inj hok'
      refine ⟨QStateStab.init_repInv n, hnorm, hpn.symm, ?_⟩
      congr 1
      funext y
      rw [QStateStab.init_eval, heval]
  | apply _ hg hd hlt hok hok' ih =>
      obtain ⟨_, _, hs, hp, hsame⟩ := ih.apply hg hd hlt
      rw [hok] at hs
      rw [hok'] at hp
      exact Except.ok.inj hs ▸ Except.ok.inj hp ▸ hsame
  | merge _ _ hok hok' ih ih' =>
      obtain ⟨_, _, hs, hp, hsame⟩ := ih.merge ih'
      rw [hok] at hs
      rw [hok'] at hp
      exact Except.ok.inj hs ▸ Except.ok.inj hp ▸ hsame
  | measure _ ht hok hok' ho ih => exact ih.measure ht hok hok' ho

/-- A Bell pair merged with a third qubit, on the stabilizer backend. -/
def pairAndThirdStab : Except Exit Stab := do
  let pair ← QStateStab.apply (QStateStab.init 2) (.builtin .H) [0]
  let pair ← QStateStab.apply pair (.builtin .CNOT) [0, 1]
  let third ← QStateStab.apply (QStateStab.init 1) (.builtin .SDG) [0]
  QStateStab.mergeDisjoint pair third

/-- The same on the ket backend. -/
noncomputable def pairAndThirdKet : Except Exit Ket := do
  let pair ← QStateKet.apply (← QStateKet.init 2) (.builtin .H) [0]
  let pair ← QStateKet.apply pair (.builtin .CNOT) [0, 1]
  let third ← QStateKet.apply (← QStateKet.init 1) (.builtin .SDG) [0]
  QStateKet.mergeDisjoint pair third

theorem Parallel.exists_init {n : ℕ} (hn : n ≠ 0) :
    ∃ psi, QStateKet.init n = .ok psi ∧ Parallel (QStateStab.init n) psi := by
  obtain ⟨psi, hok, -⟩ := QStateKet.init_ok hn
  exact ⟨psi, hok, .init hok⟩

theorem Parallel.exists_apply {st : Stab} {psi : Ket} (h : Parallel st psi)
    {k : QGateKind} {t : List ℕ} (hg : QStateStab.Supports (.builtin k) t)
    (hd : t.Nodup) (hlt : ∀ q ∈ t, q < st.numQubits) :
    ∃ st' psi', QStateStab.apply st (.builtin k) t = .ok st' ∧
      QStateKet.apply psi (.builtin k) t = .ok psi' ∧
      st'.numQubits = st.numQubits ∧ Parallel st' psi' := by
  obtain ⟨st', psi', hok, hok', -⟩ := h.sameVector.apply hg hd hlt
  obtain ⟨_, _, _, hok₁, -, hn, -⟩ :=
    QStateStab.apply_ok h.sameVector.repInv hg.1 hg.2 hd hlt
  rw [hok] at hok₁
  exact ⟨st', psi', hok, hok', Except.ok.inj hok₁ ▸ hn, h.apply hg hd hlt hok hok'⟩

theorem pairAndThird_parallel : ∃ st psi, pairAndThirdStab = .ok st ∧
    pairAndThirdKet = .ok psi ∧ Parallel st psi := by
  obtain ⟨two, htwo, h⟩ := Parallel.exists_init two_ne_zero
  obtain ⟨one, hone, ho⟩ := Parallel.exists_init one_ne_zero
  obtain ⟨stH, psiH, hH, hH', hnH, h⟩ :=
    h.exists_apply (k := .H) (t := [0]) ⟨by decide, rfl⟩ (by decide) (by decide)
  obtain ⟨stC, psiC, hC, hC', -, h⟩ :=
    h.exists_apply (k := .CNOT) (t := [0, 1]) ⟨by decide, rfl⟩ (by decide)
      (hnH ▸ (by decide))
  obtain ⟨stS, psiS, hS, hS', -, ho⟩ :=
    ho.exists_apply (k := .SDG) (t := [0]) ⟨by decide, rfl⟩ (by decide) (by decide)
  obtain ⟨st, psi, hm, hm', -⟩ := h.sameVector.merge ho.sameVector
  refine ⟨st, psi, ?_, ?_, h.merge ho hm hm'⟩
  · rw [pairAndThirdStab, hH, ok_bind, hC, ok_bind, hS, ok_bind, hm]
  · rw [pairAndThirdKet, htwo, ok_bind, hH', ok_bind, hC', ok_bind, hone, ok_bind, hS',
      ok_bind, hm']

/-- After every step of a parallel run the two vectors are equal up to a global
phase, every operation can be done on both sides, the outcomes have the same
probabilities, which are `0`, `1/2` or `1`, and a random bit is drawn exactly
when they are `1/2`. -/
theorem parallel_simulation {st : Stab} {psi : Ket} (h : Parallel st psi) :
    st.numQubits = psi.n ∧
      (∃ c : ℂ, ‖c‖ = 1 ∧ st.eval = fun y => c * psi.eval y) ∧
      (∀ g t, QStateStab.Supports g t → t.Nodup → (∀ q ∈ t, q < st.numQubits) →
        ∃ st' psi', QStateStab.apply st g t = .ok st' ∧
          QStateKet.apply psi g t = .ok psi') ∧
      (∀ other phi, Parallel other phi →
        ∃ st' psi', QStateStab.mergeDisjoint st other = .ok st' ∧
          QStateKet.mergeDisjoint psi phi = .ok psi') ∧
      ∀ t basis, t < st.numQubits →
        (∀ o, QStateStab.outcomeProb st t basis o = psi.prob t basis o ∧
          (psi.prob t basis o = 0 ∨ psi.prob t basis o = 1 / 2 ∨
            psi.prob t basis o = 1)) ∧
        (∃ d, QStateStab.drawsBit st t basis = .ok d ∧
          ∀ o, d = true ↔ psi.prob t basis o = 1 / 2) ∧
        ∀ o, psi.prob t basis o ≠ 0 → ∃ r st' r' psi',
          QStateStab.measure st t basis o = (.ok r, st') ∧ r.outcome = o ∧
          QStateKet.measure psi t basis o = (.ok r', psi') ∧ r'.outcome = o := by
  have hs := h.sameVector
  refine ⟨hs.numQubits, density_eq_iff.mp hs.vector, fun g t hg hd hlt => ?_,
    fun other phi ho => ?_, fun t basis ht => ?_⟩
  · obtain ⟨st', psi', hok, hok', -⟩ := hs.apply hg hd hlt
    exact ⟨st', psi', hok, hok'⟩
  · obtain ⟨st', psi', hok, hok', -⟩ := hs.merge ho.sameVector
    exact ⟨st', psi', hok, hok'⟩
  · have hprob := QStateStab.outcomeProb_eq hs.repInv ht basis
    simp only [hs.prob] at hprob
    refine ⟨hprob.1, hprob.2, fun o ho => ?_⟩
    obtain ⟨r, st', hok, -, -, hcases, -⟩ :=
      QStateStab.measure_ok hs.repInv ht basis o
    obtain ⟨r', psi', hok', -, -, hdraw', -⟩ :=
      QStateKet.measure_ok (hs.numQubits ▸ ht) hs.norm basis o
    refine ⟨r, st', r', psi', hok, ?_, hok', hdraw'.resolve_right ho⟩
    rcases hcases with ⟨-, hzero⟩ | ⟨hdraw, -⟩
    · by_contra hne
      rw [show (!r.outcome) = o by cases hr : r.outcome <;> simp_all,
        hs.prob] at hzero
      exact ho hzero
    · exact hdraw

/-- The second half of the pair is measured in basis `Y`, with outcome 1 on both. -/
theorem parallel_simulation_two :
    ∃ st psi r st' r' psi', pairAndThirdStab = .ok st ∧ pairAndThirdKet = .ok psi ∧
      psi.prob 1 .Y true = 1 / 2 ∧
      QStateStab.measure st 1 .Y true = (.ok r, st') ∧
      QStateKet.measure psi 1 .Y true = (.ok r', psi') ∧
      r.outcome = true ∧ r'.outcome = true ∧ r.survivors.numQubits = 2 ∧
      ∃ c : ℂ, ‖c‖ = 1 ∧ r.survivors.eval = fun y => c * r'.survivors.eval y := by
  obtain ⟨st, psi, hst, hpsi, h⟩ := pairAndThird_parallel
  have hn : Stab.numQubits <$> pairAndThirdStab = .ok 3 := rfl
  have hdraws : (pairAndThirdStab >>= fun st => QStateStab.drawsBit st 1 .Y) =
      .ok true := rfl
  rw [hst] at hn hdraws
  have hn : st.numQubits = 3 := Except.ok.inj hn
  obtain ⟨-, ⟨d, hd, hhalf⟩, hboth⟩ :=
    (parallel_simulation h).2.2.2.2 1 .Y (hn ▸ (by decide))
  rw [ok_bind, hd] at hdraws
  have hprob := (hhalf true).mp (Except.ok.inj hdraws)
  obtain ⟨r, st', r', psi', hok, ho, hok', ho'⟩ :=
    hboth true (hprob ▸ one_div_ne_zero two_ne_zero)
  have hsurv := h.measure (hn ▸ (by decide)) hok hok' (ho.trans ho'.symm)
  have hcount := ((QStateStab.measure_n st 1 .Y true).2 r (by rw [hok])).2
  rw [hn] at hcount
  exact ⟨st, psi, r, st', r', psi', hst, hpsi, hprob, hok, hok', ho, ho', hcount,
    (parallel_simulation hsurv).2.1⟩

end Q2NS
