import Q2NS.Maps.Channels
import Q2NS.Maps.Compose

/-!
# Noise, averaged over the random stream

What a noise map does to a qubit in transit depends on what the stream of the channel
hands out when the qubit is sent.  Averaged over the stream, the joint state of all
qubits in the runs in which this one is not lost is a fixed linear map of the state
before: a channel for each map of the family, and for a composite the channels of its
stages one after the other.
-/

namespace Q2NS.Maps

open NamedTensor QStateRegistry UniformDraws

variable {U : Type}

/-! ## Streams -/

/-- The stream that hands out `xs` next. -/
noncomputable def Rng.feed (u : Rng) (xs : List ℝ) : Rng :=
  { u with values := fun i => if i < u.next then u.values i else xs.getD (i - u.next) 0 }

/-- The stream after it has handed out `v` for the draw `x`. -/
noncomputable def Rng.after (u : Rng) (x v : ℝ) : Rng where
  values := Function.update u.values u.next x
  next := u.next + 1
  drawn := u.drawn ++ [v]

theorem Rng.getValue_feed (u : Rng) (x : ℝ) (xs : List ℝ) (min max : ℝ) :
    (u.feed (x :: xs)).getValue min max =
      (min + x * (max - min), (u.after x (min + x * (max - min))).feed xs) := by
  have hnow : (u.feed (x :: xs)).values u.next = x := by
    rw [feed]
    simp
  have hrest : (u.feed (x :: xs)).values =
      ((u.after x (min + x * (max - min))).feed xs).values := by
    funext i
    rw [feed, feed, after]
    dsimp only
    rcases Nat.lt_trichotomy i u.next with hi | rfl | hi
    · rw [if_pos hi, if_pos (Nat.lt_succ_of_lt hi), Function.update_of_ne hi.ne]
    · rw [if_neg (lt_irrefl _), if_pos (Nat.lt_succ_self _), Function.update_self, Nat.sub_self]
      rfl
    · obtain ⟨d, rfl⟩ := Nat.exists_eq_add_of_lt hi
      rw [if_neg (by omega), if_neg (by omega)]
      have h1 : u.next + d + 1 - u.next = d + 1 := by omega
      have h2 : u.next + d + 1 - (u.next + 1) = d := by omega
      rw [h1, h2]
      rfl
  rw [getValue, show (u.feed (x :: xs)).next = u.next from rfl, hnow, hrest]
  rfl

/-- The probability that `Bernoulli_` decides with. -/
noncomputable def Probability.chance (pr : Probability) (ctx : QMapContext) : ℝ :=
  max 0 (min 1 (pr.getProb ctx))

theorem average_bernoulli (pr : Probability) (ctx : QMapContext) {f : Bool × Rng → ℂ}
    {a b : ℂ} {k : ℕ}
    (ha : ∀ u, ∀ j ≥ k, average j (fun xs => f (true, Rng.feed u xs)) = a)
    (hb : ∀ u, ∀ j ≥ k, average j (fun xs => f (false, Rng.feed u xs)) = b) (u : Rng)
    {j : ℕ} (hj : k + 1 ≤ j) :
    average j (fun xs => f (pr.bernoulli ctx (u.feed xs))) =
      pr.chance ctx * a + (1 - pr.chance ctx) * b := by
  obtain ⟨i, rfl⟩ : ∃ i, j = i + 1 := ⟨j - 1, by omega⟩
  have hi : k ≤ i := by omega
  by_cases hlow : pr.getProb ctx ≤ 0
  · have hp : pr.chance ctx = 0 := max_eq_left ((min_le_right _ _).trans hlow)
    simp only [Probability.bernoulli, if_pos hlow]
    rw [hb u _ (hi.trans (Nat.le_succ i)), hp]
    simp
  · by_cases hhigh : pr.getProb ctx ≥ 1
    · have hp : pr.chance ctx = 1 := by
        rw [Probability.chance, min_eq_left hhigh, max_eq_right zero_le_one]
      simp only [Probability.bernoulli, if_neg hlow, if_pos hhigh]
      rw [ha u _ (hi.trans (Nat.le_succ i)), hp]
      simp
    · have hp : pr.chance ctx = pr.getProb ctx := by
        rw [Probability.chance, min_eq_right (not_le.mp hhigh).le,
          max_eq_right (not_le.mp hlow).le]
      have hdraw : ∀ x : ℝ, average i (fun xs => f (pr.bernoulli ctx (u.feed (x :: xs)))) =
          if x < pr.getProb ctx then a else b := by
        intro x
        have hvalue : (0 : ℝ) + x * (1 - 0) = x := by ring
        simp only [Probability.bernoulli, if_neg hlow, if_neg hhigh, Rng.getValue_feed, hvalue]
        by_cases hx : x < pr.getProb ctx
        · simp only [hx, decide_true, if_true]
          exact ha _ i hi
        · simp only [hx, decide_false, if_false]
          exact hb _ i hi
      rw [average]
      simp only [hdraw]
      rw [integral_threshold (not_le.mp hlow).le (not_le.mp hhigh).le, hp]

/-- `GetInteger(0, 2)`, read by a function that takes all numbers from two on as one. -/
theorem average_integer {f : ℕ × Rng → ℂ} {v : ℕ → ℂ} {k : ℕ}
    (hf : ∀ r u, ∀ j ≥ k, average j (fun xs => f (r, Rng.feed u xs)) = v r)
    (hv : ∀ r ≥ 2, v r = v 2) (u : Rng) {j : ℕ} (hj : k + 1 ≤ j) :
    average j (fun xs => f ((u.feed xs).getInteger 0 2)) = 1 / 3 * (v 0 + v 1 + v 2) := by
  obtain ⟨i, rfl⟩ : ∃ i, j = i + 1 := ⟨j - 1, by omega⟩
  have hi : k ≤ i := by omega
  have hdraw : ∀ x ∈ Set.uIcc (0 : ℝ) 1,
      average i (fun xs => f ((u.feed (x :: xs)).getInteger 0 2)) =
        if x < 1 / 3 then v 0 else if x < 2 / 3 then v 1 else v 2 := by
    intro x hx
    rw [Set.uIcc_of_le zero_le_one] at hx
    have hvalue : ((0 : ℕ) : ℝ) + x * (((2 : ℕ) : ℝ) + 1 - ((0 : ℕ) : ℝ)) = 3 * x := by
      push_cast
      ring
    simp only [Rng.getInteger, Rng.getValue_feed, hvalue]
    rw [hf _ _ i hi]
    split_ifs with h1 h2
    · rw [Nat.floor_eq_zero.mpr (by linarith)]
    · have hone : ⌊3 * x⌋₊ = 1 :=
        (Nat.floor_eq_iff (by linarith [hx.1])).mpr
          ⟨by push_cast; linarith, by push_cast; linarith⟩
      rw [hone]
    · exact hv _ (Nat.le_floor (by push_cast; linarith))
  rw [average, intervalIntegral.integral_congr hdraw, integral_thirds]

/-- The loop of `PickIndex_` over a draw spends on every weight its length. -/
theorem integral_pickLoop (v : QGate → ℂ) (d : ℂ) {ws : List ℝ} (hnonneg : ∀ w ∈ ws, 0 ≤ w) :
    ∀ {gs : List QGate}, gs.length = ws.length → ∀ (acc : ℝ) (k : ℕ) {f : ℕ → ℂ},
      (∀ i g, gs[i]? = some g → f (k + i) = v g) →
      IntervalIntegrable (fun r => (RandomGateQMap.pickLoop r acc k ws).elim d f)
          MeasureTheory.volume acc (acc + ws.sum) ∧
        ∫ r in acc..acc + ws.sum, (RandomGateQMap.pickLoop r acc k ws).elim d f =
          ((gs.zip ws).map fun gw => (gw.2 : ℂ) * v gw.1).sum := by
  induction ws with
  | nil =>
      intro gs hlen acc k f _
      rw [List.length_eq_zero_iff.mp hlen, List.sum_nil, add_zero]
      exact ⟨intervalIntegrable_const, intervalIntegral.integral_same⟩
  | cons w ws ih =>
      rintro (_ | ⟨g, gs⟩) hlen acc k f hf
      · cases hlen
      have hw : acc ≤ acc + w := le_add_of_nonneg_right (hnonneg w List.mem_cons_self)
      have hws : acc + w ≤ acc + w + ws.sum := le_add_of_nonneg_right
        (List.sum_nonneg fun x hx => hnonneg x (List.mem_cons_of_mem w hx))
      obtain ⟨hint, hval⟩ := ih (fun x hx => hnonneg x (List.mem_cons_of_mem w hx))
        (Nat.succ_injective hlen) (acc + w) (k + 1) (f := f) fun i g' hg' => by
          rw [Nat.add_assoc, Nat.add_comm 1]
          exact hf (i + 1) g' hg'
      -- the first weight, and the others
      have hfirst : Set.EqOn (fun _ => v g)
          (fun r => (RandomGateQMap.pickLoop r acc k (w :: ws)).elim d f)
          (Set.uIoc acc (acc + w)) := by
        intro r hr
        rw [Set.uIoc_of_le hw] at hr
        dsimp only
        rw [RandomGateQMap.pickLoop, if_pos hr.2]
        exact (hf 0 g rfl).symm
      have hothers : Set.EqOn
          (fun r => (RandomGateQMap.pickLoop r (acc + w) (k + 1) ws).elim d f)
          (fun r => (RandomGateQMap.pickLoop r acc k (w :: ws)).elim d f)
          (Set.uIoc (acc + w) (acc + w + ws.sum)) := by
        intro r hr
        rw [Set.uIoc_of_le hws] at hr
        dsimp only
        rw [RandomGateQMap.pickLoop, if_neg (not_le.mpr hr.1)]
      have hconst : IntervalIntegrable (fun _ => v g) MeasureTheory.volume acc (acc + w) :=
        intervalIntegrable_const
      have hint₁ := hconst.congr hfirst
      have hint₂ := hint.congr hothers
      rw [List.sum_cons, ← add_assoc]
      refine ⟨hint₁.trans hint₂, ?_⟩
      rw [← intervalIntegral.integral_add_adjacent_intervals hint₁ hint₂,
        ← intervalIntegral.integral_congr_ae (MeasureTheory.ae_of_all _ hfirst),
        ← intervalIntegral.integral_congr_ae (MeasureTheory.ae_of_all _ hothers), hval,
        intervalIntegral.integral_const, add_sub_cancel_left, List.zip_cons_cons,
        List.map_cons, List.sum_cons, Complex.real_smul]

/-- The choice of `RandomGateQMap`: each gate with its share of the weight. -/
theorem average_pick {choice : RandomGateQMap ℝ} (hconf : choice.Configured)
    (hpos : 0 < choice.totalWeight) {f : Except Exit QGate × Rng → ℂ} {v : QGate → ℂ} {k : ℕ}
    (hf : ∀ g ∈ choice.gates, ∀ u, ∀ j ≥ k,
      average j (fun xs => f (.ok g, Rng.feed u xs)) = v g) (u : Rng) {j : ℕ}
    (hj : k + 1 ≤ j) :
    average j (fun xs => f (choice.pickGate
        ((u.feed xs).getValue 0 choice.totalWeight).1,
        ((u.feed xs).getValue 0 choice.totalWeight).2)) =
      1 / choice.totalWeight *
        ((choice.gates.zip choice.weights).map fun gw => (gw.2 : ℂ) * v gw.1).sum := by
  obtain ⟨i, rfl⟩ : ∃ i, j = i + 1 := ⟨j - 1, by omega⟩
  have hi : k ≤ i := by omega
  have hne : choice.weights ≠ [] := by
    intro hnil
    rw [hconf.total, hnil] at hpos
    exact lt_irrefl _ hpos
  have hgates : choice.gates ≠ [] := fun hnil => hne
    (List.length_eq_zero_iff.mp (hconf.length ▸ congrArg List.length hnil))
  -- the value of each index
  obtain ⟨value, hvalue⟩ : ∃ value : ℕ → ℂ,
      ∀ i g, choice.gates[i]? = some g → value i = v g :=
    ⟨fun i => (choice.gates[i]?.map v).getD 0, fun i g hg => by
      dsimp only
      rw [hg]
      rfl⟩
  have hdraw : ∀ x ∈ Set.uIcc (0 : ℝ) 1,
      average i (fun xs => f (choice.pickGate
        ((u.feed (x :: xs)).getValue 0 choice.totalWeight).1,
        ((u.feed (x :: xs)).getValue 0 choice.totalWeight).2)) =
      (RandomGateQMap.pickLoop (x * choice.totalWeight) 0 0 choice.weights).elim 0 value := by
    intro x hx
    rw [Set.uIcc_of_le zero_le_one] at hx
    have hle : x * choice.totalWeight ≤ 0 + choice.weights.sum := by
      rw [zero_add, ← hconf.total]
      exact mul_le_of_le_one_left hpos.le hx.2
    obtain ⟨n, hn, hloop, -⟩ := RandomGateQMap.pickLoop_spec (k := 0) hle hne
    rw [Nat.zero_add] at hloop
    have hget : choice.gates[n]? = some (choice.gates.get ⟨n, hconf.length ▸ hn⟩) :=
      List.getElem?_eq_getElem _
    have hpick : choice.pickGate (x * choice.totalWeight) =
        .ok (choice.gates.get ⟨n, hconf.length ▸ hn⟩) := by
      rw [RandomGateQMap.pickGate, RandomGateQMap.pickIndex, if_neg hgates,
        if_neg (not_le.mpr hpos), hloop]
      simp only [Except.bind, Option.getD_some, hget]
    have harg : 0 + x * (choice.totalWeight - 0) = x * choice.totalWeight := by ring
    simp only [Rng.getValue_feed, harg, hpick]
    rw [hf _ (List.get_mem _ _) _ i hi, hloop]
    exact (hvalue n _ hget).symm
  obtain ⟨-, hval⟩ := integral_pickLoop v 0 hconf.nonneg hconf.length 0 0 (f := value)
    fun i g hg => hvalue _ g (by rwa [Nat.zero_add])
  rw [zero_add, ← hconf.total] at hval
  rw [average, intervalIntegral.integral_congr hdraw,
    intervalIntegral.integral_comp_mul_right
      (fun r => (RandomGateQMap.pickLoop r 0 0 choice.weights).elim 0 value) hpos.ne',
    zero_mul, one_mul, hval, Complex.real_smul, Complex.ofReal_inv, one_div]

theorem average_haar (q : QubitPtr) (L : Tensor →ₗ[ℂ] ℂ) (F : Tensor) {f : CMat × Rng → ℂ}
    {k : ℕ} (hf : ∀ {V : CMat}, V.Unitary 1 → ∀ u, ∀ j ≥ k,
      average j (fun xs => f (V, Rng.feed u xs)) = L (conjugate q V F)) (u : Rng) {j : ℕ}
    (hj : k + 3 ≤ j) :
    average j (fun xs => f (sampleHaarSU2 (u.feed xs))) = L (mixed q F) := by
  obtain ⟨i, rfl⟩ : ∃ i, j = i + 3 := ⟨j - 3, by omega⟩
  have hi : k ≤ i := by omega
  have hdraw : ∀ a ∈ Set.uIcc (0 : ℝ) 1, ∀ b c : ℝ,
      average i (fun xs => f (sampleHaarSU2 (u.feed (a :: b :: c :: xs)))) =
        L (conjugate q (haar a b c) F) := by
    intro a ha b c
    rw [Set.uIcc_of_le zero_le_one] at ha
    have hvalue : ∀ x : ℝ, 0 + x * (1 - 0) = x := fun x => by ring
    simp only [sampleHaarSU2, Rng.getValue_feed, hvalue]
    exact hf (haar_unitary ha.1 ha.2 b c) _ i hi
  rw [← integral_haar]
  refine intervalIntegral.integral_congr fun a ha => ?_
  dsimp only
  simp only [average, hdraw a ha]

/-! ## Channels of the maps -/

/-- With probability `p` the channel `C`, otherwise nothing. -/
noncomputable def mixture (p : ℝ) (C : Tensor →ₗ[ℂ] Tensor) : Tensor →ₗ[ℂ] Tensor :=
  (p : ℂ) • C + (1 - p : ℂ) • LinearMap.id

mutual

/-- What a map does to the joint state, averaged over the stream; the runs in which the
qubit is lost are left out.  Maps with a user's function have none. -/
noncomputable def QMap.channel (ctx : QMapContext) (q : QubitPtr) :
    QMap U → (Tensor →ₗ[ℂ] Tensor)
  | .null => LinearMap.id
  | .dephasing _ pr => mixture (pr.chance ctx) (gateChannel q (.builtin .Z))
  | .depolarizing _ pr => mixture (pr.chance ctx) ((1 / 3 : ℂ) •
      (gateChannel q (.builtin .X) + gateChannel q (.builtin .Y) +
        gateChannel q (.builtin .Z)))
  | .loss _ pr => mixture (pr.chance ctx) 0
  | .randomGate _ pr choice => mixture (pr.chance ctx) ((1 / choice.totalWeight : ℂ) •
      ((choice.gates.zip choice.weights).map fun gw => (gw.2 : ℂ) • gateChannel q gw.1).sum)
  | .randomUnitary _ pr => mixture (pr.chance ctx) (mixed q)
  | .lambda _ _ _ => 0
  | .conditional _ _ => 0
  | .composite maps => channelAll ctx q maps

noncomputable def channelAll (ctx : QMapContext) (q : QubitPtr) :
    List (QMap U) → (Tensor →ₗ[ℂ] Tensor)
  | [] => LinearMap.id
  | m :: maps => channelAll ctx q maps ∘ₗ m.channel ctx q

end

mutual

/-- Maps without user's functions whose gates the backend takes. -/
def QMap.Noise (b : QStateBackend) : QMap U → Prop
  | .null => True
  | .dephasing _ _ => True
  | .depolarizing _ _ => True
  | .loss _ _ => True
  | .randomGate _ _ choice => choice.Configured ∧ 0 < choice.totalWeight ∧
      ∀ gate ∈ choice.gates, ∃ V, QState.Accepts b gate 1 V
  | .randomUnitary _ _ => b ≠ .Stab
  | .lambda _ _ _ => False
  | .conditional _ _ => False
  | .composite maps => NoiseAll b maps

def NoiseAll (b : QStateBackend) : List (QMap U) → Prop
  | [] => True
  | m :: maps => m.Noise b ∧ NoiseAll b maps

end

mutual

/-- How many numbers a map takes from the stream at most. -/
def QMap.draws : QMap U → ℕ
  | .null => 0
  | .dephasing _ _ => 1
  | .depolarizing _ _ => 2
  | .loss _ _ => 1
  | .randomGate _ _ _ => 2
  | .randomUnitary _ _ => 4
  | .lambda _ _ _ => 0
  | .conditional _ _ => 0
  | .composite maps => drawsAll maps

def drawsAll : List (QMap U) → ℕ
  | [] => 0
  | m :: maps => m.draws + drawsAll maps

end

/-! ## From the stream to the receiver -/

/-- What is read of a run at the receiver, and of the stream after the sampling. -/
abbrev Reading (U : Type) := Except Fault (Option QubitPtr) × State U → Rng → ℂ

section Carried

variable (ctx : QMapContext) (node : NodeId) (q : QubitPtr) (s : State U) (K : Reading U)

/-- A map is sampled and run; nothing is read of a sampling that fails. -/
noncomputable def carried (m : QMap U) (u : Rng) : ℂ :=
  match m.sample ctx u with
  | (.error _, _) => 0
  | (.ok inst, u) => K (inst.run node (some q) s) u

noncomputable def carriedAll (maps : List (QMap U)) (u : Rng) : ℂ :=
  match sampleAll ctx maps u with
  | (.error _, _) => 0
  | (.ok insts, u) => K (runSteps node insts (some q) s) u

/-- `DepolarizingQMap` after its first decision. -/
noncomputable def depolarize (id : MapId) (x : Bool × Rng) : ℂ :=
  if x.1 then
    K ((QMapInstance.gate id (some (pauliOf (x.2.getInteger 0 2).1))).run node (some q) s)
      (x.2.getInteger 0 2).2
  else K ((QMapInstance.gate id none).run node (some q) s) x.2

/-- `RandomGateQMap` after its first decision. -/
noncomputable def choose (id : MapId) (choice : RandomGateQMap ℝ) (x : Bool × Rng) : ℂ :=
  if x.1 then
    match choice.pickGate (x.2.getValue 0 choice.totalWeight).1 with
    | .error _ => 0
    | .ok g => K ((QMapInstance.gate id (some g)).run node (some q) s)
        (x.2.getValue 0 choice.totalWeight).2
  else K ((QMapInstance.gate id none).run node (some q) s) x.2

/-- `RandomUnitaryQMap` after its first decision. -/
noncomputable def scramble (id : MapId) (x : Bool × Rng) : ℂ :=
  if x.1 then
    K ((QMapInstance.gate id (some (.custom (sampleHaarSU2 x.2).1))).run node (some q) s)
      (sampleHaarSU2 x.2).2
  else K ((QMapInstance.gate id none).run node (some q) s) x.2

end Carried

/-- The number of handles, and where they are. -/
abbrev Frame := ℕ × (QubitPtr → Location)

/-- Averaged over what follows in the stream, `K` reads the joint state of the handles in
frame `e` by `L` while the qubit is at the node, and nothing once it is lost. -/
structure Reads (b : QStateBackend) (node : NodeId) (q : QubitPtr) (e : Frame) (k : ℕ)
    (K : Reading U) (L : Tensor →ₗ[ℂ] ℂ) : Prop where
  here : ∀ {s : State U} {G : GlobalState}, Represents b s.world.registry G →
    (G.handles, G.place) = e → G.Local node q → ∀ u, ∀ j ≥ k,
      average j (fun xs => K (.ok (some q), s) (Rng.feed u xs)) = L G.tensor
  lost : ∀ {s : State U}, s.getLocation q = .lost → ∀ u, K (.ok (some q), s) u = 0

namespace Reads

variable {b : QStateBackend} {ctx : QMapContext} {node : NodeId} {q : QubitPtr}
  {e : Frame} {k : ℕ} {K : Reading U} {L : Tensor →ₗ[ℂ] ℂ} {s : State U} {G : GlobalState}

/-- After an instance that leaves the world as it is. -/
theorem idle (hK : Reads b node q e k K L) (h : Represents b s.world.registry G)
    (hn : (G.handles, G.place) = e) (hq : G.Local node q) {i : QMapInstance U} {id : MapId}
    (hrun : i.run node (some q) s =
      (.ok (some q), ⟨s.world, s.trace ++ [⟨id, .ok (some q)⟩]⟩)) (u : Rng) {j : ℕ}
    (hj : k ≤ j) :
    average j (fun xs => K (i.run node (some q) s) (Rng.feed u xs)) = L G.tensor := by
  rw [hrun]
  exact hK.here (s := ⟨s.world, s.trace ++ [⟨id, .ok (some q)⟩]⟩) h hn hq u j hj

theorem same (hK : Reads b node q e k K L) (h : Represents b s.world.registry G)
    (hn : (G.handles, G.place) = e) (hq : G.Local node q) (id : MapId) (u : Rng) {j : ℕ}
    (hj : k ≤ j) :
    average j (fun xs => K ((QMapInstance.gate id none).run node (some q) s)
      (Rng.feed u xs)) = L G.tensor :=
  hK.idle h hn hq (by rw [QMapInstance.run]; rfl) u hj

/-- After an instance that applies a gate. -/
theorem gate (hK : Reads b node q e k K L) (h : Represents b s.world.registry G)
    (hn : (G.handles, G.place) = e) (hq : G.Local node q) {g : QGate} {V : CMat}
    (hV : QState.Accepts b g 1 V) (id : MapId)
    (u : Rng) {j : ℕ} (hj : k ≤ j) :
    average j (fun xs => K ((QMapInstance.gate id (some g)).run node (some q) s)
      (Rng.feed u xs)) = L (conjugate q V G.tensor) := by
  obtain ⟨w', hok, h'⟩ := h.apply node (List.nodup_singleton q) hV
  have hperformed : ¬ ([q] = [] ∨ ∃ x ∈ [q], ¬ G.Local node x) := not_or.mpr
    ⟨List.cons_ne_nil q [], fun ⟨x, hx, hno⟩ => hno (List.mem_singleton.mp hx ▸ hq)⟩
  rw [GlobalState.apply, if_neg hperformed, hV.matrix] at hok h'
  have hrun : (QMapInstance.gate id (some g)).run node (some q) s =
      (.ok (some q), ⟨{ s.world with registry := w' }, s.trace ++ [⟨id, .ok (some q)⟩]⟩) := by
    rw [QMapInstance.run, applyGate, hok]
    rfl
  rw [hrun, hK.here (s := ⟨{ s.world with registry := w' }, _⟩) h' hn hq u j hj]
  exact congrArg (fun t : Fin 1 → QubitPtr => L (actOn (conjBy (V.kernel 1)) t G.tensor))
    (get_one q)

theorem builtin (hK : Reads b node q e k K L) (h : Represents b s.world.registry G)
    (hn : (G.handles, G.place) = e) (hq : G.Local node q) {kind : QGateKind}
    (hk : kind ≠ .Custom) (hone : kind.arity = 1) (id : MapId) (u : Rng) {j : ℕ} (hj : k ≤ j) :
    average j (fun xs => K ((QMapInstance.gate id (some (.builtin kind))).run node (some q) s)
      (Rng.feed u xs)) = L (gateChannel q (.builtin kind) G.tensor) := by
  obtain ⟨V, hV⟩ := QState.accepts_builtin b hk
  rw [hone] at hV
  rw [hK.gate h hn hq hV id u hj, gateChannel, hV.matrix]

theorem kept (hK : Reads b node q e k K L) (h : Represents b s.world.registry G)
    (hn : (G.handles, G.place) = e) (hq : G.Local node q) (id : MapId) (u : Rng) {j : ℕ}
    (hj : k ≤ j) :
    average j (fun xs => K ((QMapInstance.lose id false).run node (some q) s)
      (Rng.feed u xs)) = L G.tensor :=
  hK.idle h hn hq (by rw [QMapInstance.run]; rfl) u hj

/-- After an instance that loses the qubit. -/
theorem lose (hK : Reads b node q e k K L) (h : Represents b s.world.registry G)
    (hq : G.Local node q) (id : MapId) (u : Rng) :
    K ((QMapInstance.lose id true).run node (some q) s) u = 0 := by
  refine hK.lost (s := ⟨{ s.world with registry := s.world.registry.setLocationLost q },
    s.trace ++ [⟨id, .ok (some q)⟩]⟩) ?_ u
  exact ((h.move hq.1 .lost).place q hq.1).trans (Function.update_self _ _ _)

theorem average_depolarize (hK : Reads b node q e k K L) (h : Represents b s.world.registry G)
    (hn : (G.handles, G.place) = e) (hq : G.Local node q) (id : MapId) (u : Rng) {j : ℕ}
    (hj : 1 + k ≤ j) :
    average j (fun xs => depolarize node q s K id (true, Rng.feed u xs)) =
      L (((1 / 3 : ℂ) • (gateChannel q (.builtin .X) + gateChannel q (.builtin .Y) +
        gateChannel q (.builtin .Z))) G.tensor) := by
  have hpauli : ∀ r u, ∀ j ≥ k, average j (fun xs => K ((QMapInstance.gate id
      (some (pauliOf r))).run node (some q) s) (Rng.feed u xs)) =
        L (gateChannel q (pauliOf r) G.tensor) := by
    intro r u j hj
    rw [pauliOf]
    split_ifs <;> exact hK.builtin h hn hq (by decide) rfl id u hj
  have htwo : ∀ r ≥ 2, L (gateChannel q (pauliOf r) G.tensor) =
      L (gateChannel q (pauliOf 2) G.tensor) := fun r hr => by
    rw [pauliOf, if_neg (by omega), if_neg (by omega)]
    rfl
  refine (average_integer (f := fun x => K ((QMapInstance.gate id
    (some (pauliOf x.1))).run node (some q) s) x.2) hpauli htwo u (by omega)).trans ?_
  rw [LinearMap.smul_apply, map_smul, LinearMap.add_apply, LinearMap.add_apply, map_add,
    map_add]
  rfl

theorem average_choose (hK : Reads b node q e k K L) (h : Represents b s.world.registry G)
    (hn : (G.handles, G.place) = e) (hq : G.Local node q) {choice : RandomGateQMap ℝ}
    (hconf : choice.Configured) (hpos : 0 < choice.totalWeight)
    (hgates : ∀ g ∈ choice.gates, ∃ V, QState.Accepts b g 1 V) (id : MapId) (u : Rng) {j : ℕ}
    (hj : 1 + k ≤ j) :
    average j (fun xs => choose node q s K id choice (true, Rng.feed u xs)) =
      L (((1 / choice.totalWeight : ℂ) • ((choice.gates.zip choice.weights).map fun gw =>
        (gw.2 : ℂ) • gateChannel q gw.1).sum) G.tensor) := by
  have hgate : ∀ g ∈ choice.gates, ∀ u, ∀ j ≥ k, average j (fun xs =>
      K ((QMapInstance.gate id (some g)).run node (some q) s) (Rng.feed u xs)) =
        L (gateChannel q g G.tensor) := by
    intro g hg u j hj
    obtain ⟨V, hV⟩ := hgates g hg
    rw [hK.gate h hn hq hV id u hj, gateChannel, hV.matrix]
  have hsum : ∀ l : List (QGate × ℝ),
      (l.map fun gw => (gw.2 : ℂ) * L (gateChannel q gw.1 G.tensor)).sum =
        L ((l.map fun gw => (gw.2 : ℂ) • gateChannel q gw.1).sum G.tensor) := by
    intro l
    induction l with
    | nil => exact (map_zero L).symm
    | cons gw l ih =>
        rw [List.map_cons, List.map_cons, List.sum_cons, List.sum_cons, ih,
          LinearMap.add_apply, map_add, LinearMap.smul_apply, map_smul]
        rfl
  refine (average_pick hconf hpos (f := fun x => match x.1 with
    | .error _ => 0
    | .ok g => K ((QMapInstance.gate id (some g)).run node (some q) s) x.2) hgate u
    (by omega)).trans ?_
  rw [hsum, LinearMap.smul_apply, map_smul]
  rfl

theorem average_scramble (hK : Reads b node q e k K L) (h : Represents b s.world.registry G)
    (hn : (G.handles, G.place) = e) (hq : G.Local node q) (hb : b ≠ .Stab) (id : MapId) (u : Rng)
    {j : ℕ} (hj : 3 + k ≤ j) :
    average j (fun xs => scramble node q s K id (true, Rng.feed u xs)) = L (mixed q G.tensor) := by
  have hgate : ∀ {V : CMat}, V.Unitary 1 → ∀ u, ∀ j ≥ k, average j (fun xs =>
      K ((QMapInstance.gate id (some (.custom V))).run node (some q) s) (Rng.feed u xs)) =
        L (conjugate q V G.tensor) := fun hV u j hj =>
    hK.gate h hn hq ⟨rfl, hV, fun hstab => absurd hstab hb⟩ id u hj
  simp only [scramble, if_true]
  exact average_haar q L G.tensor (f := fun x => K ((QMapInstance.gate id
    (some (.custom x.1))).run node (some q) s) x.2) hgate u (Nat.add_comm 3 k ▸ hj)

/-- The rest of a composite map, as a reading of one of its stages. -/
theorem rest (hK : Reads b node q e k K L) {maps : List (QMap U)}
    (hmaps : ∀ {s : State U} {G : GlobalState}, Represents b s.world.registry G →
      (G.handles, G.place) = e → G.Local node q → ∀ u, ∀ j ≥ drawsAll maps + k,
        average j (fun xs => carriedAll ctx node q s K maps (Rng.feed u xs)) =
          L (channelAll ctx q maps G.tensor)) :
    Reads b node q e (drawsAll maps + k)
      (fun x u => match sampleAll ctx maps u with
        | (.error _, _) => 0
        | (.ok insts, u) => K (goOn node insts x) u)
      (L ∘ₗ channelAll ctx q maps) where
  here := by
    intro s G h hn hq u j hj
    have hlocal : s.getLocation q ≠ .lost := by
      rw [State.getLocation, h.place q hq.1, hq.2]
      exact Location.noConfusion
    rw [LinearMap.comp_apply, ← hmaps h hn hq u j hj]
    simp only [goOn, if_neg hlocal]
    rfl
  lost := by
    intro s hs u
    rcases sampleAll ctx maps u with ⟨_ | insts, u'⟩
    · rfl
    · dsimp only
      rw [goOn, if_pos hs]
      exact hK.lost hs u'

end Reads

section Averages

variable {b : QStateBackend} (ctx : QMapContext) {node : NodeId} {q : QubitPtr} {e : Frame}

/-- A map that decides by `Bernoulli_` before anything else. -/
theorem average_mixture {k d j : ℕ} {L : Tensor →ₗ[ℂ] ℂ} {F : Tensor}
    {C : Tensor →ₗ[ℂ] Tensor} {f : Bool × Rng → ℂ} (pr : Probability)
    (hyes : ∀ u, ∀ j ≥ d + k, average j (fun xs => f (true, Rng.feed u xs)) = L (C F))
    (hno : ∀ u, ∀ j ≥ k, average j (fun xs => f (false, Rng.feed u xs)) = L F) (u : Rng)
    (hj : d + 1 + k ≤ j) :
    average j (fun xs => f (pr.bernoulli ctx (u.feed xs))) =
      L (mixture (pr.chance ctx) C F) := by
  rw [average_bernoulli pr ctx hyes (fun u j hj => hno u j (by omega)) u (by omega),
    mixture, LinearMap.add_apply, LinearMap.smul_apply, LinearMap.smul_apply, map_add,
    map_smul, map_smul]
  rfl

mutual

/-- A map, averaged over the stream, is its channel, whatever is done after it. -/
theorem average_carried : ∀ (m : QMap U), m.Noise b → ∀ {k : ℕ} {K : Reading U}
    {L : Tensor →ₗ[ℂ] ℂ}, Reads b node q e k K L → ∀ {s : State U} {G : GlobalState},
    Represents b s.world.registry G → (G.handles, G.place) = e → G.Local node q →
    ∀ u, ∀ j ≥ m.draws + k,
      average j (fun xs => carried ctx node q s K m (Rng.feed u xs)) =
        L (m.channel ctx q G.tensor)
  | .null, _, k, K, L, hK, s, G, h, hn, hq, u, j, hj => by
      rw [QMap.draws, Nat.zero_add] at hj
      exact hK.here h hn hq u j hj
  | .dephasing id pr, _, k, K, L, hK, s, G, h, hn, hq, u, j, hj => by
      rw [QMap.draws] at hj
      exact average_mixture ctx pr (d := 0) (f := fun x => K ((QMapInstance.gate id
          (if x.1 then some (.builtin .Z) else none)).run node (some q) s) x.2)
        (fun u j hj => hK.builtin h hn hq (by decide) rfl id u (by omega))
        (fun u j hj => hK.same h hn hq id u hj) u (by omega)
  | .depolarizing id pr, _, k, K, L, hK, s, G, h, hn, hq, u, j, hj => by
      rw [QMap.draws] at hj
      have hsame : ∀ u, carried ctx node q s K (.depolarizing id pr) u =
          depolarize node q s K id (pr.bernoulli ctx u) := by
        intro u
        rw [carried, QMap.sample]
        rcases pr.bernoulli ctx u with ⟨_ | _, u'⟩ <;> rfl
      simp only [hsame]
      exact average_mixture ctx pr (d := 1) (fun u j hj => hK.average_depolarize h hn hq id u hj)
        (fun u j hj => hK.same h hn hq id u hj) u (by omega)
  | .loss id pr, _, k, K, L, hK, s, G, h, hn, hq, u, j, hj => by
      rw [QMap.draws] at hj
      refine average_mixture ctx pr (d := 0) (f := fun x => K ((QMapInstance.lose id
          x.1).run node (some q) s) x.2) (fun u j _ => ?_)
        (fun u j hj => hK.kept h hn hq id u hj) u (by omega)
      simp only [hK.lose h hq]
      rw [average_const, LinearMap.zero_apply, map_zero]
  | .randomGate id pr choice, ⟨hconf, hpos, hgates⟩, k, K, L, hK, s, G, h, hn, hq, u, j, hj => by
      rw [QMap.draws] at hj
      have hne : choice.gates ≠ [] := by
        intro hnil
        have hnone : choice.weights = [] := List.length_eq_zero_iff.mp
          (hconf.length ▸ congrArg List.length hnil)
        rw [hconf.total, hnone] at hpos
        exact lt_irrefl _ hpos
      have hsame : ∀ u, carried ctx node q s K (.randomGate id pr choice) u =
          choose node q s K id choice (pr.bernoulli ctx u) := by
        intro u
        rw [carried, QMap.sample]
        rcases pr.bernoulli ctx u with ⟨_ | _, u'⟩
        · rfl
        · dsimp only
          rw [if_neg hne, if_neg (not_le.mpr hpos), choose, if_pos rfl]
          rcases choice.pickGate (u'.getValue 0 choice.totalWeight).1 with _ | gate <;> rfl
      simp only [hsame]
      exact average_mixture ctx pr (d := 1)
        (fun u j hj => hK.average_choose h hn hq hconf hpos hgates id u hj)
        (fun u j hj => hK.same h hn hq id u hj) u (by omega)
  | .randomUnitary id pr, hm, k, K, L, hK, s, G, h, hn, hq, u, j, hj => by
      rw [QMap.draws] at hj
      have hsame : ∀ u, carried ctx node q s K (.randomUnitary id pr) u =
          scramble node q s K id (pr.bernoulli ctx u) := by
        intro u
        rw [carried, QMap.sample]
        rcases pr.bernoulli ctx u with ⟨_ | _, u'⟩ <;> rfl
      simp only [hsame]
      exact average_mixture ctx pr (d := 3)
        (fun u j hj => hK.average_scramble h hn hq hm id u hj)
        (fun u j hj => hK.same h hn hq id u hj) u (by omega)
  | .lambda _ _ _, hm, _, _, _, _, _, _, _, _, _, _, _, _ => hm.elim
  | .conditional _ _, hm, _, _, _, _, _, _, _, _, _, _, _, _ => hm.elim
  | .composite maps, hm, k, K, L, hK, s, G, h, hn, hq, u, j, hj => by
      have hsame : ∀ u, carried ctx node q s K (.composite maps) u =
          carriedAll ctx node q s K maps u := by
        intro u
        rw [carried, carriedAll, QMap.sample]
        rcases sampleAll ctx maps u with ⟨_ | insts, u'⟩ <;> rfl
      simp only [hsame]
      exact average_carriedAll maps hm hK h hn hq u j hj

theorem average_carriedAll : ∀ (maps : List (QMap U)), NoiseAll b maps → ∀ {k : ℕ}
    {K : Reading U} {L : Tensor →ₗ[ℂ] ℂ}, Reads b node q e k K L → ∀ {s : State U}
    {G : GlobalState}, Represents b s.world.registry G → (G.handles, G.place) = e →
    G.Local node q →
    ∀ u, ∀ j ≥ drawsAll maps + k,
      average j (fun xs => carriedAll ctx node q s K maps (Rng.feed u xs)) =
        L (channelAll ctx q maps G.tensor)
  | [], _, k, K, L, hK, s, G, h, hn, hq, u, j, hj => by
      rw [drawsAll, Nat.zero_add] at hj
      exact hK.here h hn hq u j hj
  | m :: maps, hm, k, K, L, hK, s, G, h, hn, hq, u, j, hj => by
      have hrest := hK.rest fun h hn hq u j hj =>
        average_carriedAll maps hm.2 hK h hn hq u j hj
      have hsame : ∀ u, carriedAll ctx node q s K (m :: maps) u =
          carried ctx node q s (fun x u => match sampleAll ctx maps u with
            | (.error _, _) => 0
            | (.ok insts, u) => K (goOn node insts x) u) m u := by
        intro u
        rw [carried, carriedAll, sampleAll]
        rcases m.sample ctx u with ⟨_ | inst, u'⟩
        · rfl
        · dsimp only
          rcases sampleAll ctx maps u' with ⟨_ | insts, u''⟩
          · rfl
          · exact congrArg (K · u'') (runSteps_cons node inst insts (some q) s)
      simp only [hsame]
      rw [drawsAll, Nat.add_assoc] at hj
      exact average_carried m hm.1 hrest h hn hq u j hj

end

end Averages

end Q2NS.Maps
