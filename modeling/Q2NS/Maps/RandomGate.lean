import Mathlib.Algebra.BigOperators.Group.List.Basic
import Mathlib.Algebra.Order.BigOperators.Group.List
import Mathlib.MeasureTheory.Measure.Lebesgue.Basic
import Q2NS.Gate

/-!
# The weighted choice of a gate

`RandomGateQMap` over exact weights.  The loop returns the first index at which the
draw is at most the sum of the weights so far, so a draw that is such a sum, the
draw `0` with a weight of zero in front included, goes to the gate before it.
-/

namespace Q2NS

variable {K : Type}

/-- The gates and weights of a `RandomGateQMap`. -/
structure RandomGateQMap (K : Type) where
  gates : List QGate
  weights : List K
  totalWeight : K

namespace RandomGateQMap

section Code

variable [AddCommMonoid K] [LinearOrder K]

/-- `Clear`, and a map as constructed. -/
def clear : RandomGateQMap K := ⟨[], [], 0⟩

/-- `AddGate`. -/
def addGate (m : RandomGateQMap K) (gate : QGate) (weight : K) :
    Except Exit (RandomGateQMap K) :=
  if weight < 0 then .error (.aborted "RandomGateQMap: weight must be >= 0")
  else .ok ⟨m.gates ++ [gate], m.weights ++ [weight], m.totalWeight + weight⟩

/-- The loop of `SetDistribution` over the weights. -/
def sumWeights : List K → K → Except Exit K
  | [], total => .ok total
  | w :: ws, total =>
      if w < 0 then .error (.aborted "RandomGateQMap: weight must be >= 0")
      else sumWeights ws (total + w)

/-- `SetDistribution`. -/
def setDistribution (gates : List QGate) (weights : List K) :
    Except Exit (RandomGateQMap K) :=
  if gates.length ≠ weights.length then
    .error (.aborted "RandomGateQMap: gates and weights must have the same length")
  else (sumWeights weights 0).map fun total => ⟨gates, weights, total⟩

/-- The loop of `PickIndex_` from index `i` on; `acc` is the sum so far. -/
def pickLoop (r : K) : K → ℕ → List K → Option ℕ
  | _, _, [] => none
  | acc, i, w :: ws => if r ≤ acc + w then some i else pickLoop r (acc + w) (i + 1) ws

/-- `PickIndex_` for the draw `r`. -/
def pickIndex (m : RandomGateQMap K) (r : K) : Except Exit ℕ :=
  if m.gates = [] then .error (.aborted "RandomGateQMap: no gates configured")
  else if m.totalWeight ≤ 0 then
    .error (.aborted "RandomGateQMap: total weight must be > 0")
  else .ok ((pickLoop r 0 0 m.weights).getD (m.weights.length - 1))

/-- The gate that `Sample` applies when the map is applied at all. -/
def pickGate (m : RandomGateQMap K) (r : K) : Except Exit QGate :=
  (m.pickIndex r).bind fun i =>
    match m.gates[i]? with
    | some gate => .ok gate
    | none => .error (.aborted "index out of range")

end Code

/-! ## Configured maps -/

variable [AddCommMonoid K] [LinearOrder K] [IsOrderedCancelAddMonoid K]

/-- What the setters guarantee. -/
structure Configured (m : RandomGateQMap K) : Prop where
  length : m.gates.length = m.weights.length
  nonneg : ∀ w ∈ m.weights, 0 ≤ w
  total : m.totalWeight = m.weights.sum

omit [IsOrderedCancelAddMonoid K] in
theorem clear_configured : (clear : RandomGateQMap K).Configured :=
  ⟨rfl, fun _ hw => absurd hw List.not_mem_nil, rfl⟩

omit [IsOrderedCancelAddMonoid K] in
theorem Configured.addGate {m m' : RandomGateQMap K} (h : m.Configured)
    {gate : QGate} {weight : K} (hm : m.addGate gate weight = .ok m') :
    m'.Configured := by
  rw [RandomGateQMap.addGate] at hm
  split_ifs at hm with hneg
  obtain rfl := Except.ok.inj hm
  refine ⟨?_, fun w hw => ?_, ?_⟩
  · rw [List.length_append, List.length_append, h.length, List.length_singleton,
      List.length_singleton]
  · rcases List.mem_append.mp hw with hw | hw
    · exact h.nonneg w hw
    · exact List.mem_singleton.mp hw ▸ not_lt.mp hneg
  · rw [List.sum_append, List.sum_singleton, h.total]

omit [IsOrderedCancelAddMonoid K] in
theorem sumWeights_ok {ws : List K} {acc total : K}
    (h : sumWeights ws acc = .ok total) :
    (∀ w ∈ ws, 0 ≤ w) ∧ total = acc + ws.sum := by
  induction ws generalizing acc with
  | nil =>
      obtain rfl := Except.ok.inj h
      exact ⟨fun _ hw => absurd hw List.not_mem_nil, (add_zero _).symm⟩
  | cons w ws ih =>
      rw [sumWeights] at h
      split_ifs at h with hneg
      obtain ⟨hws, rfl⟩ := ih h
      refine ⟨fun x hx => ?_, by rw [List.sum_cons, add_assoc]⟩
      rcases List.mem_cons.mp hx with rfl | hx
      · exact not_lt.mp hneg
      · exact hws x hx

omit [IsOrderedCancelAddMonoid K] in
theorem setDistribution_configured {gates : List QGate} {weights : List K}
    {m : RandomGateQMap K} (h : setDistribution gates weights = .ok m) :
    m.Configured ∧ m.weights = weights := by
  rw [setDistribution] at h
  split_ifs at h with hlen
  cases hsum : sumWeights weights 0 with
  | error e =>
      rw [hsum] at h
      cases h
  | ok total =>
      rw [hsum] at h
      obtain rfl := Except.ok.inj h
      obtain ⟨hnonneg, htotal⟩ := sumWeights_ok hsum
      exact ⟨⟨not_not.mp hlen, hnonneg, by rw [htotal, zero_add]⟩, rfl⟩

/-! ## The loop -/

/-- `w_0 + … + w_(i-1)`. -/
def prefixSum (m : RandomGateQMap K) (i : ℕ) : K := (m.weights.take i).sum

omit [IsOrderedCancelAddMonoid K] in
/-- The loop returns the first index that the draw does not exceed. -/
theorem pickLoop_spec {r : K} {ws : List K} {acc : K} {k : ℕ}
    (hr : r ≤ acc + ws.sum) (hws : ws ≠ []) :
    ∃ i < ws.length, pickLoop r acc k ws = some (k + i) ∧
      r ≤ acc + (ws.take (i + 1)).sum ∧
      (i ≠ 0 → acc + (ws.take i).sum < r) := by
  induction ws generalizing acc k with
  | nil => exact absurd rfl hws
  | cons w ws ih =>
      rw [pickLoop]
      split_ifs with hle
      · refine ⟨0, Nat.succ_pos _, rfl, ?_, fun h => absurd rfl h⟩
        rwa [List.take_succ_cons, List.take_zero, List.sum_singleton]
      · rw [List.sum_cons, ← add_assoc] at hr
        have hne : ws ≠ [] := by
          rintro rfl
          rw [List.sum_nil, add_zero] at hr
          exact hle hr
        obtain ⟨i, hi, hloop, hupper, hlower⟩ := ih (k := k + 1) hr hne
        refine ⟨i + 1, Nat.succ_lt_succ hi, ?_, ?_, fun _ => ?_⟩
        · rw [hloop, Nat.add_assoc, Nat.add_comm 1]
        · rwa [List.take_succ_cons, List.sum_cons, ← add_assoc]
        · rw [List.take_succ_cons, List.sum_cons, ← add_assoc]
          by_cases hzero : i = 0
          · rw [hzero, List.take_zero, List.sum_nil, add_zero]
            exact not_le.mp hle
          · exact hlower hzero

omit [IsOrderedCancelAddMonoid K] in
/-- `PickIndex_` on a configured map. -/
theorem Configured.pickIndex_spec {m : RandomGateQMap K} (h : m.Configured)
    (hpos : 0 < m.totalWeight) {r : K} (hr : r < m.totalWeight) :
    ∃ i < m.weights.length, m.pickIndex r = .ok i ∧ r ≤ m.prefixSum (i + 1) ∧
      (i ≠ 0 → m.prefixSum i < r) := by
  have hne : m.weights ≠ [] := by
    intro hnil
    rw [h.total, hnil] at hpos
    exact absurd hpos (lt_irrefl _)
  have hgates : m.gates ≠ [] := fun hnil => hne
    (List.length_eq_zero_iff.mp (h.length ▸ congrArg List.length hnil))
  have hsum : r ≤ 0 + m.weights.sum := by
    rw [zero_add, ← h.total]
    exact hr.le
  obtain ⟨i, hi, hloop, hupper, hlower⟩ := pickLoop_spec (k := 0) hsum hne
  refine ⟨i, hi, ?_, by rwa [zero_add] at hupper, fun hzero => ?_⟩
  · rw [pickIndex, if_neg hgates, if_neg (not_le.mpr hpos), hloop, Nat.zero_add]
    rfl
  · have hprefix := hlower hzero
    rwa [zero_add] at hprefix

omit [IsOrderedCancelAddMonoid K] in
/-- The gate chosen is one of the map's. -/
theorem pickGate_mem {m : RandomGateQMap K} {r : K} {gate : QGate}
    (h : m.pickGate r = .ok gate) : gate ∈ m.gates := by
  rw [pickGate] at h
  cases hi : m.pickIndex r with
  | error e =>
      rw [hi] at h
      cases h
  | ok i =>
      rw [hi] at h
      cases hg : m.gates[i]? with
      | none => simp only [Except.bind, hg, reduceCtorEq] at h
      | some g =>
          simp only [Except.bind, hg, Except.ok.injEq] at h
          exact h ▸ List.mem_of_getElem? hg

/-- The prefix sums grow. -/
theorem Configured.prefixSum_mono {m : RandomGateQMap K} (h : m.Configured) {i j : ℕ}
    (hij : i ≤ j) : m.prefixSum i ≤ m.prefixSum j := by
  obtain ⟨k, rfl⟩ := Nat.exists_eq_add_of_le hij
  rw [prefixSum, prefixSum, List.take_add, List.sum_append]
  refine le_add_of_nonneg_right (List.sum_nonneg fun w hw => h.nonneg w ?_)
  exact List.mem_of_mem_drop (List.mem_of_mem_take hw)

omit [LinearOrder K] [IsOrderedCancelAddMonoid K] in
@[simp]
theorem prefixSum_zero (m : RandomGateQMap K) : m.prefixSum 0 = 0 := by
  rw [prefixSum, List.take_zero, List.sum_nil]

omit [LinearOrder K] [IsOrderedCancelAddMonoid K] in
theorem prefixSum_succ (m : RandomGateQMap K) {i : ℕ} {w : K}
    (hw : m.weights[i]? = some w) : m.prefixSum (i + 1) = m.prefixSum i + w := by
  rw [prefixSum, List.take_add_one, hw, List.sum_append, prefixSum, Option.toList_some,
    List.sum_singleton]

omit [IsOrderedCancelAddMonoid K] in
/-- The index chosen for a draw bounds it by the prefix sums around it. -/
theorem Configured.pickIndex_bounds {m : RandomGateQMap K} (h : m.Configured)
    (hpos : 0 < m.totalWeight) {r : K} (hr0 : 0 ≤ r) (hr : r < m.totalWeight) {i : ℕ}
    (hi : m.pickIndex r = .ok i) :
    i < m.weights.length ∧ m.prefixSum i ≤ r ∧ r ≤ m.prefixSum (i + 1) ∧
      (i ≠ 0 → m.prefixSum i < r) := by
  obtain ⟨j, hj, hpick, hupper, hlower⟩ := h.pickIndex_spec hpos hr
  obtain rfl : i = j := Except.ok.inj (hi.symm.trans hpick)
  refine ⟨hj, ?_, hupper, hlower⟩
  by_cases hzero : i = 0
  · rw [hzero, prefixSum_zero]
    exact hr0
  · exact (hlower hzero).le

/-- A draw strictly between two prefix sums goes to the index between them. -/
theorem Configured.pickIndex_between {m : RandomGateQMap K} (h : m.Configured)
    (hpos : 0 < m.totalWeight) {r : K} (hr : r < m.totalWeight) {i : ℕ}
    (hlo : m.prefixSum i < r) (hhi : r < m.prefixSum (i + 1)) :
    m.pickIndex r = .ok i := by
  obtain ⟨j, -, hpick, hupper, hlower⟩ := h.pickIndex_spec hpos hr
  rcases lt_trichotomy j i with hlt | rfl | hgt
  · exact absurd (hupper.trans (h.prefixSum_mono hlt)) (not_le.mpr hlo)
  · exact hpick
  · have hbelow := (h.prefixSum_mono hgt).trans_lt (hlower (Nat.ne_zero_of_lt hgt))
    exact absurd hhi hbelow.asymm

/-- The interval of the chosen index is half open at the top exactly for the draws
that are no prefix sum. -/
theorem Configured.pickIndex_halfOpen {m : RandomGateQMap K} (h : m.Configured)
    (hpos : 0 < m.totalWeight) {r : K} (hr0 : 0 ≤ r) (hr : r < m.totalWeight) {i : ℕ}
    (hi : m.pickIndex r = .ok i) :
    (m.prefixSum i ≤ r ∧ r < m.prefixSum (i + 1)) ↔
      ∀ j < m.weights.length, r ≠ m.prefixSum (j + 1) := by
  obtain ⟨hlen, hlo, hhi, hstrict⟩ := h.pickIndex_bounds hpos hr0 hr hi
  constructor
  · rintro ⟨-, hlt⟩ j - rfl
    rcases lt_or_ge j i with hji | hij
    · have hbelow := hstrict (Nat.ne_zero_of_lt hji)
      exact absurd (h.prefixSum_mono hji) (not_le.mpr hbelow)
    · exact absurd (h.prefixSum_mono (Nat.succ_le_succ hij)) (not_le.mpr hlt)
  · intro hne
    exact ⟨hlo, lt_of_le_of_ne hhi (hne i hlen)⟩

/-- A gate of weight zero is chosen for the draw `0` only, and only in front. -/
theorem Configured.pickIndex_weightless {m : RandomGateQMap K} (h : m.Configured)
    (hpos : 0 < m.totalWeight) {r : K} (hr0 : 0 ≤ r) (hr : r < m.totalWeight) :
    (∃ i, m.pickIndex r = .ok i ∧ m.weights[i]? = some 0) ↔
      r = 0 ∧ m.weights[0]? = some 0 := by
  constructor
  · rintro ⟨i, hi, hw⟩
    obtain ⟨-, -, hhi, hstrict⟩ := h.pickIndex_bounds hpos hr0 hr hi
    rw [m.prefixSum_succ hw, add_zero] at hhi
    obtain rfl : i = 0 := by
      by_contra hzero
      exact absurd hhi (not_le.mpr (hstrict hzero))
    rw [prefixSum_zero] at hhi
    exact ⟨le_antisymm hhi hr0, hw⟩
  · rintro ⟨rfl, hw⟩
    obtain ⟨i, -, hi, -, hlower⟩ := h.pickIndex_spec hpos hr
    obtain rfl : i = 0 := by
      by_contra hzero
      have hneg := hlower hzero
      have hmono := h.prefixSum_mono (Nat.zero_le i)
      rw [prefixSum_zero] at hmono
      exact absurd hmono (not_le.mpr hneg)
    exact ⟨0, hi, hw⟩

/-! ## Lengths -/

/-- The draws for which a weight's index is chosen have the weight as their length. -/
theorem Configured.volume_pickIndex {m : RandomGateQMap ℝ} (h : m.Configured)
    (hpos : 0 < m.totalWeight) {i : ℕ} {w : ℝ} (hw : m.weights[i]? = some w) :
    MeasureTheory.volume
      {r | 0 ≤ r ∧ r < m.totalWeight ∧ m.pickIndex r = .ok i} = ENNReal.ofReal w := by
  have hlen : m.prefixSum (i + 1) - m.prefixSum i = w := by
    rw [m.prefixSum_succ hw, add_sub_cancel_left]
  apply le_antisymm
  · rw [← hlen, ← Real.volume_Icc]
    apply MeasureTheory.measure_mono
    rintro r ⟨hr0, hr, hi⟩
    obtain ⟨-, hlo, hhi, -⟩ := h.pickIndex_bounds hpos hr0 hr hi
    exact ⟨hlo, hhi⟩
  · rw [← hlen, ← Real.volume_Ioo]
    apply MeasureTheory.measure_mono
    rintro r ⟨hlo, hhi⟩
    have hr0 := h.prefixSum_mono (Nat.zero_le i)
    rw [prefixSum_zero] at hr0
    have hall : m.prefixSum (i + 1) ≤ m.totalWeight := by
      have hmono := h.prefixSum_mono (Nat.le_max_left (i + 1) m.weights.length)
      rwa [prefixSum, prefixSum, List.take_of_length_le (Nat.le_max_right _ _),
        ← h.total] at hmono
    exact ⟨hr0.trans hlo.le, hhi.trans_le hall,
      h.pickIndex_between hpos (hhi.trans_le hall) hlo hhi⟩

/-- The choice agrees with the weights at every draw that is no sum of leading
weights; every gate is chosen for draws of its weight's length, and one of weight zero
for the draw `0` alone. -/
theorem pickIndex_matches_weights (m : RandomGateQMap ℝ) (h : m.Configured)
    (hpos : 0 < m.totalWeight) :
    (∀ r, 0 ≤ r → r < m.totalWeight →
      ∃ i, m.pickIndex r = .ok i ∧
        ((m.prefixSum i ≤ r ∧ r < m.prefixSum (i + 1)) ↔
          ∀ j < m.weights.length, r ≠ m.prefixSum (j + 1)) ∧
        (m.weights[i]? = some 0 ↔ r = 0 ∧ m.weights[0]? = some 0)) ∧
    ∀ i w, m.weights[i]? = some w →
      MeasureTheory.volume
        {r | 0 ≤ r ∧ r < m.totalWeight ∧ m.pickIndex r = .ok i} = ENNReal.ofReal w := by
  refine ⟨fun r hr0 hr => ?_, fun i w hw => h.volume_pickIndex hpos hw⟩
  obtain ⟨i, -, hi, -⟩ := h.pickIndex_spec hpos hr
  refine ⟨i, hi, h.pickIndex_halfOpen hpos hr0 hr hi, ?_⟩
  rw [← h.pickIndex_weightless hpos hr0 hr]
  constructor
  · exact fun hw => ⟨i, hi, hw⟩
  · rintro ⟨j, hj, hw⟩
    obtain rfl : i = j := Except.ok.inj (hi.symm.trans hj)
    exact hw

/-- A map with a gate of weight zero in front of one of weight one. -/
noncomputable def zeroFirst : RandomGateQMap ℝ := ⟨[.builtin .X, .builtin .Z], [0, 1], 1⟩

theorem zeroFirst_configured : zeroFirst.Configured where
  length := rfl
  nonneg := by
    intro w hw
    rcases List.mem_cons.mp hw with rfl | hw
    · exact le_refl _
    · exact List.mem_singleton.mp hw ▸ zero_le_one
  total := by
    rw [zeroFirst, List.sum_cons, List.sum_singleton, zero_add]

/-- The draw `0` goes to the gate of weight zero. -/
theorem zeroFirst_picks_weightless :
    ¬ ∀ m : RandomGateQMap ℝ, m.Configured → 0 < m.totalWeight →
      ∀ r, 0 ≤ r → r < m.totalWeight → ∃ i, m.pickIndex r = .ok i ∧
        m.prefixSum i ≤ r ∧ r < m.prefixSum (i + 1) ∧ m.weights[i]? ≠ some 0 := by
  intro hall
  obtain ⟨i, hi, -, -, hweight⟩ :=
    hall zeroFirst zeroFirst_configured zero_lt_one 0 le_rfl zero_lt_one
  obtain ⟨j, hj, hw⟩ := (zeroFirst_configured.pickIndex_weightless zero_lt_one le_rfl
    zero_lt_one).mpr ⟨rfl, rfl⟩
  obtain rfl : i = j := Except.ok.inj (hi.symm.trans hj)
  exact hweight hw

theorem zeroFirst_matches_weights :
    (∀ r, 0 ≤ r → r < zeroFirst.totalWeight →
      ∃ i, zeroFirst.pickIndex r = .ok i ∧
        ((zeroFirst.prefixSum i ≤ r ∧ r < zeroFirst.prefixSum (i + 1)) ↔
          ∀ j < zeroFirst.weights.length, r ≠ zeroFirst.prefixSum (j + 1)) ∧
        (zeroFirst.weights[i]? = some 0 ↔ r = 0 ∧ zeroFirst.weights[0]? = some 0)) ∧
    ∀ i w, zeroFirst.weights[i]? = some w →
      MeasureTheory.volume
        {r | 0 ≤ r ∧ r < zeroFirst.totalWeight ∧ zeroFirst.pickIndex r = .ok i} =
          ENNReal.ofReal w :=
  pickIndex_matches_weights zeroFirst zeroFirst_configured zero_lt_one

end RandomGateQMap

end Q2NS
