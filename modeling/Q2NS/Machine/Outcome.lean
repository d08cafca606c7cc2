import Q2NS.BellMeasurement

/-!
# Draws that are not possible

The backends never report an outcome of probability zero: when the draw is such an
outcome, `Measure` does exactly what it does for the other draw.  So a call of
`Measure` is decided by the outcome it reports.
-/

namespace Q2NS

open Loop

/-! ## The backends -/

/-- The library reads the draw through `std::discrete_distribution` only. -/
theorem Ket.measure_congr (ψ : Ket) (V : CMat) (t : ℕ) {d d' res res' : Bool} {s s' : Ket}
    (h : ψ.measure V t d = .ok (res, s)) (h' : ψ.measure V t d' = .ok (res', s'))
    (hres : res = res') : ψ.measure V t d = ψ.measure V t d' := by
  have hread : ∀ {d res s}, ψ.measure V t d = .ok (res, s) →
      s = (ψ.ip V res.toNat t).scale (1 / (Real.sqrt (ψ.ip V res.toNat t).norm2 : ℝ)) := by
    intro d res s h
    rw [measure] at h
    dsimp only at h
    split_ifs at h
    all_goals first
      | (obtain ⟨_, hthrow, _⟩ := bind_eq_ok.mp h; cases hthrow)
      | skip
    obtain ⟨rfl, rfl⟩ := Prod.mk.inj (Except.ok.inj h)
    rfl
  rw [h, h', hread h, hread h', hres]

theorem DM.measure_congr (ρ : DM) (V : CMat) (t : ℕ) {d d' res res' : Bool} {s s' : DM}
    (h : ρ.measure V t d = .ok (res, s)) (h' : ρ.measure V t d' = .ok (res', s'))
    (hres : res = res') : ρ.measure V t d = ρ.measure V t d' := by
  have hread : ∀ {d res s}, ρ.measure V t d = .ok (res, s) →
      s = ((ρ.sandwich (kraus V res.toNat) [t]).ptrace t).scale
        (1 / (‖((ρ.sandwich (kraus V res.toNat) [t]).ptrace t).rho.trace‖ : ℝ)) := by
    intro d res s h
    rw [measure] at h
    dsimp only at h
    split_ifs at h
    all_goals first
      | (obtain ⟨_, hthrow, _⟩ := bind_eq_ok.mp h; cases hthrow)
      | skip
    obtain ⟨rfl, rfl⟩ := Prod.mk.inj (Except.ok.inj h)
    rfl
  rw [h, h', hread h, hread h', hres]

/-- The stabilizer library reads the draw only when it is the outcome. -/
theorem AffineState.measureZ_congr (s : AffineState) (j : ℕ) {d d' res res' : Bool}
    {t t' : AffineState} (h : s.measureZ j d = .ok (res, t))
    (h' : s.measureZ j d' = .ok (res', t')) (hres : res = res') :
    s.measureZ j d = s.measureZ j d' := by
  cases hz : s.A.rowIsZero j with
  | error e =>
      rw [measureZ, hz] at h
      cases h
  | ok zero =>
      have hout : ∀ {d res t}, zero = false → s.measureZ j d = .ok (res, t) → res = d := by
        intro d res t hzero h
        rw [measureZ, hz, ok_bind, hzero, if_neg Bool.false_ne_true] at h
        dsimp only at h
        obtain ⟨_, _, h⟩ := bind_eq_ok.mp h
        split_ifs at h
        · obtain ⟨_, hthrow, _⟩ := bind_eq_ok.mp h
          cases hthrow
        · obtain ⟨_, _, h⟩ := bind_eq_ok.mp h
          obtain ⟨_, _, h⟩ := bind_eq_ok.mp h
          obtain ⟨_, _, h⟩ := bind_eq_ok.mp h
          exact (Prod.mk.inj (Except.ok.inj h)).1.symm
      cases zero with
      | true => simp only [measureZ, hz, ok_bind, if_true]
      | false => rw [← hout rfl h, ← hout rfl h', hres]

theorem QStateKet.measure_congr {ψ v v' : Ket} {t : ℕ} {basis : Basis} {d d' : Bool}
    {r r' : MeasureResult Ket} (h : measure ψ t basis d = (.ok r, v))
    (h' : measure ψ t basis d' = (.ok r', v')) (hres : r.outcome = r'.outcome) :
    measure ψ t basis d = measure ψ t basis d' := by
  rw [measure] at h h' ⊢
  rw [measure]
  split_ifs at h h' ⊢ with ht
  · rfl
  cases hrot : rotate Ket.apply ψ t basis with
  | error e => rfl
  | ok rotated =>
      rw [hrot] at h h'
      obtain ⟨⟨res, s⟩, hm, hr⟩ := bind_eq_ok.mp (Prod.mk.inj h).1
      obtain ⟨⟨res', s'⟩, hm', hr'⟩ := bind_eq_ok.mp (Prod.mk.inj h').1
      obtain ⟨_, -, hr⟩ := bind_eq_ok.mp hr
      obtain ⟨_, -, hr⟩ := bind_eq_ok.mp hr
      obtain ⟨_, -, hr⟩ := bind_eq_ok.mp hr
      obtain ⟨_, -, hr'⟩ := bind_eq_ok.mp hr'
      obtain ⟨_, -, hr'⟩ := bind_eq_ok.mp hr'
      obtain ⟨_, -, hr'⟩ := bind_eq_ok.mp hr'
      rw [← Except.ok.inj hr, ← Except.ok.inj hr'] at hres
      dsimp only
      rw [rotated.measure_congr _ _ hm hm' hres]

theorem QStateDM.measure_congr {ρ v v' : DM} {t : ℕ} {basis : Basis} {d d' : Bool}
    {r r' : MeasureResult DM} (h : measure ρ t basis d = (.ok r, v))
    (h' : measure ρ t basis d' = (.ok r', v')) (hres : r.outcome = r'.outcome) :
    measure ρ t basis d = measure ρ t basis d' := by
  rw [measure] at h h' ⊢
  rw [measure]
  split_ifs at h h' ⊢ with ht
  · rfl
  cases hrot : rotate DM.apply ρ t basis with
  | error e => rfl
  | ok rotated =>
      rw [hrot] at h h'
      obtain ⟨⟨res, s⟩, hm, hr⟩ := bind_eq_ok.mp (Prod.mk.inj h).1
      obtain ⟨⟨res', s'⟩, hm', hr'⟩ := bind_eq_ok.mp (Prod.mk.inj h').1
      obtain ⟨_, -, hr⟩ := bind_eq_ok.mp hr
      obtain ⟨_, -, hr⟩ := bind_eq_ok.mp hr
      obtain ⟨_, -, hr⟩ := bind_eq_ok.mp hr
      obtain ⟨_, -, hr'⟩ := bind_eq_ok.mp hr'
      obtain ⟨_, -, hr'⟩ := bind_eq_ok.mp hr'
      obtain ⟨_, -, hr'⟩ := bind_eq_ok.mp hr'
      rw [← Except.ok.inj hr, ← Except.ok.inj hr'] at hres
      dsimp only
      rw [rotated.measure_congr _ _ hm hm' hres]

theorem QStateStab.measure_congr {s v v' : Stab} {t : ℕ} {basis : Basis} {d d' : Bool}
    {r r' : MeasureResult Stab} (h : measure s t basis d = (.ok r, v))
    (h' : measure s t basis d' = (.ok r', v')) (hres : r.outcome = r'.outcome) :
    measure s t basis d = measure s t basis d' := by
  have hcollapse : ∀ {d r v}, measure s t basis d = (.ok r, v) →
      ∃ psi, collapse s t basis d = .ok (r.outcome, psi) := by
    intro d r v h
    rw [measure] at h
    split_ifs at h
    · cases (Prod.mk.inj h).1
    cases hc : collapse s t basis d with
    | error e =>
        rw [hc] at h
        cases h
    | ok p =>
        rw [hc] at h
        obtain ⟨_, -, hr⟩ := bind_eq_ok.mp (Prod.mk.inj h).1
        obtain ⟨_, -, hr⟩ := bind_eq_ok.mp hr
        rw [← Except.ok.inj hr]
        exact ⟨p.2, rfl⟩
  obtain ⟨psi, hc⟩ := hcollapse h
  obtain ⟨psi', hc'⟩ := hcollapse h'
  have hsame : collapse s t basis d = collapse s t basis d' := by
    obtain ⟨rotated, hrot, hm⟩ := bind_eq_ok.mp hc
    obtain ⟨rotated', hrot', hm'⟩ := bind_eq_ok.mp hc'
    obtain rfl := Except.ok.inj (hrot.symm.trans hrot')
    rw [collapse, collapse, hrot, ok_bind, ok_bind]
    exact rotated.measureZ_congr t hm hm' hres
  rw [measure, measure, hsame]

namespace QState

/-- Two draws with the same outcome. -/
theorem measure_congr {st v v' : QState} {t : ℕ} {basis : Basis} {d d' : Bool}
    {r r' : MeasureResult QState} (h : st.measure t basis d = (.ok r, v))
    (h' : st.measure t basis d' = (.ok r', v')) (hres : r.outcome = r'.outcome) :
    st.measure t basis d = st.measure t basis d' := by
  cases st with
  | ket psi =>
      obtain ⟨k, hk, rfl⟩ := map_eq_ok.mp (Prod.mk.inj h).1
      obtain ⟨k', hk', rfl⟩ := map_eq_ok.mp (Prod.mk.inj h').1
      rw [measure, measure, QStateKet.measure_congr (Prod.ext hk rfl) (Prod.ext hk' rfl) hres]
  | dm rho =>
      obtain ⟨k, hk, rfl⟩ := map_eq_ok.mp (Prod.mk.inj h).1
      obtain ⟨k', hk', rfl⟩ := map_eq_ok.mp (Prod.mk.inj h').1
      rw [measure, measure, QStateDM.measure_congr (Prod.ext hk rfl) (Prod.ext hk' rfl) hres]
  | stab s =>
      obtain ⟨k, hk, rfl⟩ := map_eq_ok.mp (Prod.mk.inj h).1
      obtain ⟨k', hk', rfl⟩ := map_eq_ok.mp (Prod.mk.inj h').1
      rw [measure, measure, QStateStab.measure_congr (Prod.ext hk rfl) (Prod.ext hk' rfl) hres]

/-- A draw of probability zero is read as the other one. -/
theorem measure_impossible {st : QState} (h : st.WellFormed) {t : ℕ} (ht : t < st.numQubits)
    {basis : Basis} {d : Bool} (hd : st.prob t basis d = 0) :
    st.prob t basis (!d) ≠ 0 ∧ st.measure t basis d = st.measure t basis (!d) := by
  obtain ⟨r, v, hok, hpos, -⟩ := measure_ok h ht basis d
  obtain ⟨r', v', hok', hpos', -⟩ := measure_ok h ht basis (!d)
  -- both calls report the outcome that is left
  have hleft : ∀ {o}, st.prob t basis o ≠ 0 → o = !d := fun ho =>
    Bool.eq_not_of_ne fun he => ho (he ▸ hd)
  exact ⟨hleft hpos ▸ hpos, measure_congr hok hok' ((hleft hpos).trans (hleft hpos').symm)⟩

end QState

/-! ## The registry -/

namespace QStateRegistry

variable {w : QStateRegistry} {b : QStateBackend}

/-- The outcome that a draw leads to. -/
noncomputable def drawn (p : Bool → ℂ) (draw : Bool) : Bool :=
  if p draw = 0 then !draw else draw

/-- `Measure` does what it does for the outcome that it reports, which is possible. -/
theorem Inv.measure_drawn (h : w.Inv) (hall : w.AllSound b) (node : NodeId) {q : QubitPtr}
    (hq : q < w.numHandles) (basis : Basis) (draw : Bool) :
    w.outcomeProb q basis (drawn (w.outcomeProb q basis) draw) ≠ 0 ∧
      w.measure node q basis draw =
        w.measure node q basis (drawn (w.outcomeProb q basis) draw) := by
  by_cases hd : w.outcomeProb q basis draw = 0
  · rw [drawn, if_pos hd]
    have hs := h.states_of_handle hq
    obtain ⟨hpos, hsame⟩ := QState.measure_impossible (hall.valueOf hs).1 (h.index_lt hq) hd
    refine ⟨hpos, ?_⟩
    obtain ⟨p, hp⟩ := Option.ne_none_iff_exists'.mp hs
    have hval : w.valueOf (w.qubits q).stateId = (w.objects p).value := by
      rw [valueOf, hp]
      rfl
    rw [hval] at hsame
    have hget : w.getState (w.qubits q).stateId = some p := hp
    rw [measure, measure, hget]
    simp only [hsame]
  · rw [drawn, if_neg hd]
    exact ⟨hd, rfl⟩

end QStateRegistry

end Q2NS
