import Q2NS.Stab.Gates

/-!
# The diagonal gates of the stabilizer backend

`CZ`, `S`, `S†` and `Z` only add to the phase matrix and the global phase.
`PhaseAdd Q Q' D` says that `Q'` is `Q + D` with the diagonal reduced modulo
four and the other entries modulo two; the loops of these gates build `D` up
one term at a time.
-/

namespace Q2NS.AffineState

open Finset QuadForm Loop

/-! ## Additions to the phase matrix -/

/-- The matrix with the one entry `v` at `(i, k)`. -/
def single (i k v : ℕ) : ℕ → ℕ → ℕ := fun a b => if a = i ∧ b = k then v else 0

theorem quad_single (i k v : ℕ) (X : Finset ℕ) :
    quad (single i k v) X = if i ∈ X ∧ k ∈ X then v else 0 := by
  have hrow : ∀ a, ∑ b ∈ X, single i k v a b =
      if a = i then (if k ∈ X then v else 0) else 0 := by
    intro a
    by_cases ha : a = i
    · simp [single, ha]
    · simp [single, ha]
  simp only [quad, hrow, sum_ite_eq']
  by_cases hi : i ∈ X <;> simp [hi]

theorem quad_list_sum {α : Type} (l : List α) (F : α → ℕ → ℕ → ℕ)
    (X : Finset ℕ) :
    quad (fun a b => (l.map fun x => F x a b).sum) X =
      (l.map fun x => quad (F x) X).sum := by
  induction l with
  | nil => simp [quad]
  | cons x l ih =>
      simp only [List.map_cons, List.sum_cons]
      rw [quad_add, ih]

structure PhaseAdd (Q Q' : UMatrix) (D : ℕ → ℕ → ℕ) : Prop where
  rows : Q'.rows = Q.rows
  cols : Q'.cols = Q.cols
  symm : Symm D
  entry : ∀ a b,
    Q'.entry a b = (Q.entry a b + D a b) % (if a = b then 4 else 2)

theorem PhaseAdd.refl {Q : UMatrix} (hoff : ∀ a b, a ≠ b → Q.entry a b < 2)
    (hdiag : ∀ a, Q.entry a a < 4) : PhaseAdd Q Q fun _ _ => 0 := by
  refine ⟨rfl, rfl, fun _ _ => rfl, fun a b => ?_⟩
  by_cases hab : a = b
  · subst hab
    rw [if_pos rfl, add_zero, Nat.mod_eq_of_lt (hdiag a)]
  · rw [if_neg hab, add_zero, Nat.mod_eq_of_lt (hoff a b hab)]

/-- `Q(i, i) = (Q(i, i) + v) % 4`. -/
theorem PhaseAdd.diag {Q Q' : UMatrix} {D : ℕ → ℕ → ℕ} (h : PhaseAdd Q Q' D)
    {i : ℕ} (hr : i < Q.rows) (hc : i < Q.cols) {v : ℕ} {f : ℕ → ℕ}
    (hf : ∀ q, f q = (q + v) % 4) :
    ∃ Q'', Q'.modify i i f = .ok Q'' ∧
      PhaseAdd Q Q'' fun a b => D a b + single i i v a b := by
  refine ⟨_, UMatrix.modify_eq_ok (h.rows ▸ hr) (h.cols ▸ hc) _, h.rows,
    h.cols, fun a b => ?_, fun a b => ?_⟩
  · simp only [single, h.symm a b, and_comm (a := a = i)]
  · rw [UMatrix.update_entry, hf, h.entry]
    by_cases hab : a = i ∧ b = i
    · obtain ⟨rfl, rfl⟩ := hab
      simp [single, add_assoc]
    · rw [if_neg hab, single, if_neg hab, add_zero]

/-- `Q(i, k) ^= 1; Q(k, i) ^= 1`. -/
theorem PhaseAdd.pair {Q Q' : UMatrix} {D : ℕ → ℕ → ℕ} (h : PhaseAdd Q Q' D)
    {i k : ℕ} (hir : i < Q.rows) (hic : i < Q.cols) (hkr : k < Q.rows)
    (hkc : k < Q.cols) (hik : i ≠ k) :
    ∃ Q'', (do
        let Q ← Q'.modify i k (· ^^^ 1)
        Q.modify k i (· ^^^ 1) : Except Exit UMatrix) = .ok Q'' ∧
      PhaseAdd Q Q'' fun a b => D a b + (single i k 1 a b + single k i 1 a b)
        := by
  have hrows := h.rows
  have hcols := h.cols
  refine ⟨(Q'.update i k (· ^^^ 1)).update k i (· ^^^ 1), ?_, h.rows, h.cols,
    fun a b => ?_, fun a b => ?_⟩
  · rw [UMatrix.modify_eq_ok (by omega) (by omega), ok_bind,
      UMatrix.modify_eq_ok (by simp; omega) (by simp; omega)]
  · simp only [single, h.symm a b, and_comm (a := a = i),
      and_comm (a := a = k), add_comm]
  · rw [UMatrix.update_entry, UMatrix.update_entry, h.entry]
    have hflip : ∀ q, q % 2 ^^^ 1 = (q + 1) % 2 := by
      intro q
      rw [xor_one_of_bit (Nat.mod_lt _ (by norm_num)), Nat.mod_add_mod]
    by_cases h1 : a = i ∧ b = k
    · obtain ⟨rfl, rfl⟩ := h1
      simp [single, hik, Ne.symm hik, hflip, add_assoc]
    · by_cases h2 : a = k ∧ b = i
      · obtain ⟨rfl, rfl⟩ := h2
        simp [single, hik, Ne.symm hik, hflip, add_assoc]
      · rw [if_neg h2, if_neg h1, single, if_neg h1, single, if_neg h2]
        rfl

/-- A loop whose body adds `F x`. -/
theorem PhaseAdd.foldlM {Q : UMatrix} {l : List ℕ} {F : ℕ → ℕ → ℕ → ℕ}
    {B : UMatrix → ℕ → Except Exit UMatrix}
    (hbody : ∀ x ∈ l, ∀ Q' D, PhaseAdd Q Q' D → ∃ Q'', B Q' x = .ok Q'' ∧
      PhaseAdd Q Q'' fun a b => D a b + F x a b) :
    ∀ {Q' : UMatrix} {D : ℕ → ℕ → ℕ}, PhaseAdd Q Q' D →
      ∃ Q'', l.foldlM B Q' = .ok Q'' ∧
        PhaseAdd Q Q'' fun a b => D a b + (l.map fun x => F x a b).sum := by
  induction l with
  | nil => exact fun {Q' D} h => ⟨Q', rfl, by simpa using h⟩
  | cons x l ih =>
      intro Q' D h
      obtain ⟨Q₁, hok, h₁⟩ := hbody x List.mem_cons_self Q' D h
      obtain ⟨Q₂, hok', h₂⟩ :=
        ih (fun z hz => hbody z (List.mem_cons_of_mem x hz)) h₁
      refine ⟨Q₂, ?_, ?_⟩
      · rw [List.foldlM_cons, hok, ok_bind, hok']
      · simpa only [List.map_cons, List.sum_cons, add_assoc] using h₂

/-- The new form is the old one plus `D`, modulo four. -/
theorem PhaseAdd.quad {Q Q' : UMatrix} {D : ℕ → ℕ → ℕ} (h : PhaseAdd Q Q' D)
    (hQ : Symm Q.entry) (X : Finset ℕ) :
    quad Q'.entry X ≡ quad Q.entry X + quad D X [MOD 4] := by
  rw [← quad_add]
  refine quad_modEq (fun a b => ?_) (fun a b => ?_) (fun a _ => ?_)
    fun a _ b _ hab => ?_
  · simp only [h.entry, hQ a b, h.symm a b, eq_comm (a := a)]
  · simp only [hQ a b, h.symm a b]
  · rw [h.entry, if_pos rfl]
    exact Nat.mod_modEq _ 4
  · rw [h.entry, if_neg hab]
    exact Nat.mod_modEq _ 2

/-- A diagonal gate keeps the invariant. -/
theorem PhaseAdd.repInv {s : AffineState} (h : s.RepInv) {Q' : UMatrix}
    {D : ℕ → ℕ → ℕ} (hQ : PhaseAdd s.Q Q' D)
    (hD : ∀ a b, s.r ≤ a → D a b = 0) {p : ℕ} (hp : p < 8) :
    RepInv { s with Q := Q', phase := p } := by
  refine
    { h with
      qRows := hQ.rows ▸ h.qRows
      qCols := hQ.cols ▸ h.qCols
      qSymm := fun a b => ?_
      qOff := fun a b hab => ?_
      qDiag := fun a => ?_
      qZero := fun a b ha => ?_
      phaseLt := hp }
  · simp only [hQ.entry, h.qSymm a b, hQ.symm a b, eq_comm (a := a)]
  · simp only [hQ.entry, if_neg hab]
    exact Nat.mod_lt _ (by norm_num)
  · simp only [hQ.entry, if_true]
    exact Nat.mod_lt _ (by norm_num)
  · have ha' : s.r ≤ a := ha
    simp only [hQ.entry, h.qZero a b ha', hD a b ha']
    exact Nat.zero_mod _

/-- A gate that multiplies the amplitude of `y` by `f y`. -/
def phaseBy (f : (ℕ → Bool) → ℂ) (Φ : (ℕ → Bool) → ℂ) (y : ℕ → Bool) : ℂ :=
  f y * Φ y

theorem PhaseAdd.acts {s : AffineState} (h : s.RepInv) {Q' : UMatrix}
    {D : ℕ → ℕ → ℕ} (hQ : PhaseAdd s.Q Q' D)
    (hD : ∀ a b, s.r ≤ a → D a b = 0) {p : ℕ} (hp : p < 8)
    {f : (ℕ → Bool) → ℂ}
    (hf : ∀ y, ∀ X ⊆ range s.r, s.Hits y X →
      omega8 ^ p * Complex.I ^ QuadForm.quad D X = f y * omega8 ^ s.phase) :
    Acts (phaseBy f) s { s with Q := Q', phase := p } := by
  refine ⟨hQ.repInv h hD hp, rfl, funext fun y => ?_⟩
  have hplane : SamePlane s { s with Q := Q', phase := p } :=
    ⟨rfl, rfl, rfl, rfl, rfl⟩
  refine hplane.den fun X hX hy => ?_
  rw [I_pow_congr (hQ.quad h.qSymm X), pow_add, ← mul_assoc (f y),
    ← hf y X hX hy]
  ring

/-! ## Sums over the ones of a row -/

/-- Row `j` of `A` applied to the vector with support `X`. -/
def rowSum (s : AffineState) (j : ℕ) (X : Finset ℕ) : ℕ :=
  ∑ c ∈ X, s.A.entry j c

theorem sum_rowOnes {s : AffineState} (h : s.Grid) {j : ℕ} (hj : j < s.n)
    {X : Finset ℕ} (hX : X ⊆ range s.r) (v : ℕ) :
    ((s.rowOnes j).map fun c => if c ∈ X then v else 0).sum =
      v * s.rowSum j X := by
  rw [← List.sum_toFinset _ (s.rowOnes_nodup j), sum_ite_mem, inter_comm,
    ← sum_ite_mem, rowSum, mul_sum]
  refine sum_congr rfl fun c hc => ?_
  have hlt : c < s.r := mem_range.mp (hX hc)
  have hbit := h.aBit j hj c
  by_cases hone : s.A.entry j c = 0
  · simp [mem_rowOnes, hone]
  · have hone' : s.A.entry j c = 1 := by omega
    simp [mem_rowOnes, hlt, hone']

theorem hits_rowSum {s : AffineState} {j : ℕ} (hj : j < s.n) {y : ℕ → Bool}
    {X : Finset ℕ} (hy : s.Hits y X) :
    (s.b.entry j + s.rowSum j X) % 2 = (y j).toNat := hy j hj

theorem single_zero {i k v a b r : ℕ} (hi : i < r) (ha : r ≤ a) :
    single i k v a b = 0 := by
  rw [single, if_neg (by omega)]

/-! ## The gates -/

/-- The term that one pair of ones contributes to `CZ`. -/
private def pairTerm (i k : ℕ) : ℕ → ℕ → ℕ := fun a b =>
  if i = k then single i k 2 a b else single i k 1 a b + single k i 1 a b

private theorem quad_pairTerm (i k : ℕ) (X : Finset ℕ) :
    quad (pairTerm i k) X = if i ∈ X then (if k ∈ X then 2 else 0) else 0 := by
  by_cases hik : i = k
  · subst hik
    have hterm : pairTerm i i = single i i 2 := by
      funext a b
      exact if_pos rfl
    rw [hterm, quad_single]
    by_cases hi : i ∈ X <;> simp [hi]
  · have hterm : pairTerm i k = fun a b => single i k 1 a b + single k i 1 a b := by
      funext a b
      exact if_neg hik
    rw [hterm, quad_add, quad_single, quad_single]
    by_cases hi : i ∈ X <;> by_cases hk : k ∈ X <;> simp [hi, hk]

private theorem pairTerm_zero {i k a b r : ℕ} (hi : i < r) (hk : k < r)
    (ha : r ≤ a) : pairTerm i k a b = 0 := by
  simp only [pairTerm, single_zero hi ha, single_zero hk ha, ite_self]

theorem CZ_spec {s : AffineState} (h : s.RepInv) {j k : ℕ} (hj : j < s.n)
    (hk : k < s.n) :
    ∃ s', s.CZ j k = .ok s' ∧ Acts (phaseBy fun y => sgn (y j && y k)) s s' := by
  have hqr := h.qRows
  have hqc := h.qCols
  have hrn := h.rLe
  have hbs := h.bSize
  have hlt : ∀ i, ∀ c ∈ s.rowOnes i, c < s.r := fun i c hc =>
    (mem_rowOnes.mp hc).1
  have hbj := UVector.get_eq_ok (v := s.b) (i := j) (by omega)
  have hbk := UVector.get_eq_ok (v := s.b) (i := k) (by omega)
  obtain ⟨Q₁, hok₁, h₁⟩ := PhaseAdd.foldlM (Q := s.Q) (l := s.rowOnes j)
    (F := fun jj a b => ((s.rowOnes k).map fun kk => pairTerm jj kk a b).sum +
      single jj jj (2 * s.b.entry k) a b)
    (B := fun Q jj => do
      let Q ← (s.rowOnes k).foldlM (fun Q kk =>
        if jj = kk then Q.modify jj kk fun q => (q + 2) % 4
        else do
          let Q ← Q.modify jj kk (· ^^^ 1)
          Q.modify kk jj (· ^^^ 1)) Q
      let bk ← s.b.get k
      Q.modify jj jj fun q => (q + 2 * bk) % 4)
    (fun jj hjj Q' D hD => by
      have hjj' := hlt j jj hjj
      obtain ⟨Q₁, hok₁, h₁⟩ := PhaseAdd.foldlM (Q := s.Q) (l := s.rowOnes k)
        (F := fun kk => pairTerm jj kk)
        (B := fun Q kk =>
          if jj = kk then Q.modify jj kk fun q => (q + 2) % 4
          else do
            let Q ← Q.modify jj kk (· ^^^ 1)
            Q.modify kk jj (· ^^^ 1))
        (fun kk hkk Q' D hD => by
          have hkk' := hlt k kk hkk
          by_cases hjk : jj = kk
          · subst hjk
            simp only [pairTerm, if_true]
            exact hD.diag (by omega) (by omega) fun _ => rfl
          · simp only [pairTerm, hjk, if_false]
            exact hD.pair (by omega) (by omega) (by omega) (by omega) hjk) hD
      obtain ⟨Q₂, hok₂, h₂⟩ := h₁.diag (i := jj) (v := 2 * s.b.entry k)
        (f := fun q => (q + 2 * s.b.entry k) % 4) (by omega) (by omega)
        fun _ => rfl
      refine ⟨Q₂, ?_, by simpa only [add_assoc] using h₂⟩
      rw [hok₁, ok_bind, hbk, ok_bind, hok₂])
    (PhaseAdd.refl h.qOff h.qDiag)
  obtain ⟨Q₂, hok₂, h₂⟩ := PhaseAdd.foldlM (Q := s.Q) (l := s.rowOnes k)
    (F := fun kk => single kk kk (2 * s.b.entry j))
    (B := fun Q kk => do
      let bj ← s.b.get j
      Q.modify kk kk fun q => (q + 2 * bj) % 4)
    (fun kk hkk Q' D hD => by
      have hkk' := hlt k kk hkk
      rw [hbj, ok_bind]
      exact hD.diag (by omega) (by omega) fun _ => rfl) h₁
  have hcode : s.CZ j k = .ok { s with
      Q := Q₂
      phase := (s.phase + 4 * s.b.entry j * s.b.entry k) % 8 } := by
    rw [CZ, aRowNonzeros_ok h.toShape hj, ok_bind,
      aRowNonzeros_ok h.toShape hk, ok_bind, hok₁, ok_bind, hok₂, ok_bind,
      hbj, ok_bind, hbk, ok_bind, pure_eq_ok]
  refine ⟨_, hcode, h₂.acts h ?_ (Nat.mod_lt _ (by norm_num)) ?_⟩
  · intro a b ha
    have hz₁ : ((s.rowOnes j).map fun jj =>
        ((s.rowOnes k).map fun kk => pairTerm jj kk a b).sum +
          single jj jj (2 * s.b.entry k) a b).sum = 0 := by
      refine List.sum_eq_zero fun v hv => ?_
      obtain ⟨jj, hjj, rfl⟩ := List.mem_map.mp hv
      rw [single_zero (hlt j jj hjj) ha, add_zero]
      refine List.sum_eq_zero fun v hv => ?_
      obtain ⟨kk, hkk, rfl⟩ := List.mem_map.mp hv
      exact pairTerm_zero (hlt j jj hjj) (hlt k kk hkk) ha
    have hz₂ : ((s.rowOnes k).map fun kk =>
        single kk kk (2 * s.b.entry j) a b).sum = 0 := by
      refine List.sum_eq_zero fun v hv => ?_
      obtain ⟨kk, hkk, rfl⟩ := List.mem_map.mp hv
      exact single_zero (hlt k kk hkk) ha
    rw [hz₁, hz₂]
  · intro y X hX hy
    have hjy := hits_rowSum hj hy
    have hky := hits_rowSum hk hy
    have hinner : ∀ jj,
        quad (fun a b => ((s.rowOnes k).map fun kk => pairTerm jj kk a b).sum +
          single jj jj (2 * s.b.entry k) a b) X =
        if jj ∈ X then 2 * s.rowSum k X + 2 * s.b.entry k else 0 := by
      intro jj
      rw [quad_add, quad_list_sum, quad_single]
      simp only [quad_pairTerm, and_self]
      by_cases hjj : jj ∈ X
      · simp only [hjj, if_true]
        rw [sum_rowOnes h.toGrid hk hX]
      · simp [hjj]
    have hquad : quad (fun a b => 0 + ((s.rowOnes j).map fun jj =>
        ((s.rowOnes k).map fun kk => pairTerm jj kk a b).sum +
          single jj jj (2 * s.b.entry k) a b).sum +
        ((s.rowOnes k).map fun kk =>
          single kk kk (2 * s.b.entry j) a b).sum) X =
        2 * (s.rowSum k X + s.b.entry k) * s.rowSum j X +
          2 * s.b.entry j * s.rowSum k X := by
      simp only [zero_add]
      rw [quad_add, quad_list_sum, quad_list_sum]
      simp only [hinner, quad_single, and_self]
      rw [sum_rowOnes h.toGrid hj hX, sum_rowOnes h.toGrid hk hX, mul_add]
    have hphase : ∀ t : ℕ, omega8 ^ (4 * t) = (-1) ^ t := by
      intro t
      rw [show 4 * t = 2 * (2 * t) by ring, pow_mul, omega8_sq, I_pow_two_mul]
    have hsgn : sgn (y j && y k) =
        (-1) ^ ((s.b.entry j + s.rowSum j X) * (s.b.entry k + s.rowSum k X)) := by
      rw [neg_one_pow_eq_pow_mod_two, Nat.mul_mod, hjy, hky]
      cases y j <;> cases y k <;> simp [sgn]
    rw [hquad, hsgn, omega8_pow_mod, pow_add, mul_assoc 4, hphase,
      mul_assoc 2, mul_assoc 2, ← mul_add, I_pow_two_mul]
    ring

/-- `i` or `-i` on the basis vectors with bit `j` set. -/
noncomputable def phaseGate (dg : Bool) (v : Bool) : ℂ :=
  if v then (if dg then -Complex.I else Complex.I) else 1

/-- What `S` and `S†` add to the diagonal, modulo four. -/
private def sWeight (dg : Bool) (b : ℕ) : ℕ :=
  if dg then 3 + 2 * b else 1 + 2 * b

private theorem sWeight_eq (dg : Bool) {b : ℕ} (hb : b < 2) (q : ℕ) :
    (((q : ℤ) + (4 + (if dg then -1 else 1) * (1 - 2 * (b : ℤ)))) % 4).toNat =
      (q + sWeight dg b) % 4 := by
  obtain rfl | rfl : b = 0 ∨ b = 1 := by omega
  · cases dg <;> simp [sWeight] <;> omega
  · cases dg <;> simp [sWeight] <;> omega

private theorem sPhase_eq (dg : Bool) {b : ℕ} (hb : b < 2) (p : ℕ) :
    (((p : ℤ) + (if dg then -1 else 1) * 2 * (b : ℤ) + 8) % 8).toNat =
      (p + 2 * if dg then 3 * b else b) % 8 := by
  obtain rfl | rfl : b = 0 ∨ b = 1 := by omega
  · cases dg <;> simp <;> omega
  · cases dg <;> simp <;> omega

private theorem phaseGate_eq (dg : Bool) {b m : ℕ} (hb : b < 2) {v : Bool}
    (hv : (b + m) % 2 = v.toNat) :
    Complex.I ^ (if dg then 3 * b else b) *
      Complex.I ^ (sWeight dg b * (m * m)) = phaseGate dg v := by
  have hsq : m * m % 4 = m % 2 := by
    obtain ⟨t, rfl | rfl⟩ := Nat.even_or_odd' m
    · have : 2 * t * (2 * t) = 4 * (t * t) := by ring
      omega
    · have : (2 * t + 1) * (2 * t + 1) = 4 * (t * t + t) + 1 := by ring
      omega
  have hm : sWeight dg b * (m * m) ≡ sWeight dg b * (m % 2) [MOD 4] :=
    Nat.ModEq.mul_left _ (by rw [← hsq]; exact (Nat.mod_modEq _ 4).symm)
  have hexp : (if dg then 3 * b else b) + sWeight dg b * (m % 2) ≡
      (if v then (if dg then 3 else 1) else 0) [MOD 4] := by
    unfold Nat.ModEq sWeight
    obtain rfl | rfl : b = 0 ∨ b = 1 := by omega
    · cases v <;> cases dg <;> simp at hv ⊢ <;> omega
    · cases v <;> cases dg <;> simp at hv ⊢ <;> omega
  rw [← pow_add, I_pow_congr ((hm.add_left _).trans hexp)]
  cases v <;> cases dg <;> simp [phaseGate]

theorem sOrSdg_spec {s : AffineState} (h : s.RepInv) {j : ℕ} (hj : j < s.n)
    (dg : Bool) :
    ∃ s', s.sOrSdg j dg = .ok s' ∧
      Acts (phaseBy fun y => phaseGate dg (y j)) s s' := by
  have hqr := h.qRows
  have hqc := h.qCols
  have hrn := h.rLe
  have hbs := h.bSize
  have hbit := h.bBit j hj
  have hbj := UVector.get_eq_ok (v := s.b) (i := j) (by omega)
  have hlt : ∀ c ∈ s.rowOnes j, c < s.r := fun c hc => (mem_rowOnes.mp hc).1
  set w := sWeight dg (s.b.entry j) with hw
  obtain ⟨Q', hok, hrows, hcols, hQ⟩ := UMatrix.foldlM_grid (M := s.Q)
    (f := fun row col q => if row = col then (q + w) % 4 else q ^^^ 1)
    (B := fun Q row col =>
      if row = col then do
        let bj ← s.b.get j
        Q.modify row col fun q =>
          ((q + (4 + (if dg then -1 else 1) * (1 - 2 * (bj : ℤ)))) % 4).toNat
      else Q.modify row col (· ^^^ 1))
    (s.rowOnes_nodup j) (s.rowOnes_nodup j)
    (fun a ha b hb M hMr hMc => by
      have ha' := hlt a ha
      have hb' := hlt b hb
      by_cases hab : a = b
      · simp only [hab, if_true, hbj, ok_bind, sWeight_eq dg hbit]
        exact UMatrix.modify_eq_ok (by omega) (by omega) _
      · simp only [hab, if_false]
        exact UMatrix.modify_eq_ok (by omega) (by omega) _)
  have hcode : s.sOrSdg j dg = .ok { s with
      Q := Q'
      phase := (s.phase + 2 * if dg then 3 * s.b.entry j else s.b.entry j) % 8
      } := by
    rw [sOrSdg]
    simp only [aRowNonzeros_ok h.toShape hj, ok_bind]
    rw [hok, ok_bind, hbj, ok_bind, sPhase_eq dg hbit, pure_eq_ok]
  have hadd : PhaseAdd s.Q Q' fun a b =>
      w * (s.A.entry j a * s.A.entry j b) := by
    refine ⟨hrows, hcols, fun a b => by rw [mul_comm (s.A.entry j a)],
      fun a b => ?_⟩
    have hmem : ∀ c, c ∈ s.rowOnes j ∧ s.A.entry j c = 1 ∨
        c ∉ s.rowOnes j ∧ s.A.entry j c = 0 := by
      intro c
      have hbitc := h.aBit j hj c
      by_cases hc : s.A.entry j c = 0
      · exact .inr ⟨fun hm => (mem_rowOnes.mp hm).2 hc, hc⟩
      · refine .inl ⟨mem_rowOnes.mpr ⟨?_, hc⟩, by omega⟩
        by_contra hge
        exact hc (h.aZero j hj c (not_lt.mp hge))
    have hodd : w % 2 = 1 := by
      rw [hw, sWeight]
      split_ifs <;> omega
    have hkeep : s.Q.entry a b % (if a = b then 4 else 2) = s.Q.entry a b := by
      by_cases hab : a = b
      · subst hab
        rw [if_pos rfl, Nat.mod_eq_of_lt (h.qDiag a)]
      · rw [if_neg hab, Nat.mod_eq_of_lt (h.qOff a b hab)]
    rw [hQ]
    rcases hmem a with ⟨ha, hAa⟩ | ⟨ha, hAa⟩
    · rcases hmem b with ⟨hb, hAb⟩ | ⟨hb, hAb⟩
      · rw [if_pos ⟨ha, hb⟩, hAa, hAb, mul_one, mul_one]
        by_cases hab : a = b
        · rw [if_pos hab, if_pos hab]
        · rw [if_neg hab, if_neg hab, xor_one_of_bit (h.qOff a b hab)]
          omega
      · rw [if_neg fun e => hb e.2, hAb, mul_zero, mul_zero, add_zero, hkeep]
    · rw [if_neg fun e => ha e.1, hAa, zero_mul, mul_zero, add_zero, hkeep]
  refine ⟨_, hcode, hadd.acts h ?_ (Nat.mod_lt _ (by norm_num)) ?_⟩
  · intro a b ha
    rw [h.aZero j hj a ha, zero_mul, mul_zero]
  · intro y X _ hy
    have hquad : quad (fun a b => w * (s.A.entry j a * s.A.entry j b)) X =
        w * (s.rowSum j X * s.rowSum j X) := by
      rw [rowSum, ← quad_outer]
      simp only [quad, mul_sum]
    rw [hquad, omega8_pow_mod, pow_add, pow_mul, omega8_sq, mul_assoc,
      phaseGate_eq dg hbit (hits_rowSum hj hy), mul_comm]

theorem Z_spec {s : AffineState} (h : s.RepInv) {j : ℕ} (hj : j < s.n) :
    ∃ s', s.Z j = .ok s' ∧ Acts (phaseBy fun y => sgn (y j)) s s' := by
  have har := h.aRows
  have hac := h.aCols
  have hqr := h.qRows
  have hqc := h.qCols
  have hrn := h.rLe
  have hbs := h.bSize
  have hbj := UVector.get_eq_ok (v := s.b) (i := j) (by omega)
  obtain ⟨Q', hok, hQ⟩ := PhaseAdd.foldlM (Q := s.Q) (l := List.range s.r)
    (F := fun i => single i i (2 * s.A.entry j i))
    (B := fun Q i => do
      if (← s.A.get j i) ≠ 0 then Q.modify i i fun q => (q + 2) % 4
      else return Q)
    (fun i hi Q' D hD => by
      have hi' := List.mem_range.mp hi
      have hbit := h.aBit j hj i
      rw [UMatrix.get_eq_ok (by omega) (by omega), ok_bind]
      by_cases hone : s.A.entry j i = 0
      · refine ⟨Q', if_neg (not_not.mpr hone), ?_⟩
        simpa only [hone, single, mul_zero, ite_self, add_zero] using hD
      · have hone' : s.A.entry j i = 1 := by omega
        rw [if_pos hone, hone']
        exact hD.diag (by omega) (by omega) fun _ => rfl)
    (PhaseAdd.refl h.qOff h.qDiag)
  have hcode : s.Z j = .ok { s with
      Q := Q', phase := (s.phase + 4 * s.b.entry j) % 8 } := by
    rw [Z, hbj, ok_bind, hok, ok_bind, pure_eq_ok]
  refine ⟨_, hcode, hQ.acts h ?_ (Nat.mod_lt _ (by norm_num)) ?_⟩
  · intro a b ha
    rw [zero_add]
    refine List.sum_eq_zero fun v hv => ?_
    obtain ⟨i, hi, rfl⟩ := List.mem_map.mp hv
    exact single_zero (List.mem_range.mp hi) ha
  · intro y X hX hy
    have hquad : quad (fun a b => 0 + ((List.range s.r).map fun i =>
        single i i (2 * s.A.entry j i) a b).sum) X = 2 * s.rowSum j X := by
      simp only [zero_add]
      rw [quad_list_sum]
      simp only [quad_single, and_self]
      rw [← List.sum_toFinset _ List.nodup_range, List.toFinset_range,
        sum_ite_mem, inter_eq_right.mpr hX, rowSum, mul_sum]
    have hsgn : sgn (y j) = (-1) ^ (s.b.entry j + s.rowSum j X) := by
      rw [neg_one_pow_eq_pow_mod_two, hits_rowSum hj hy]
      cases y j <;> simp [sgn]
    have hphase : omega8 ^ (4 * s.b.entry j) = (-1) ^ s.b.entry j := by
      rw [show 4 * s.b.entry j = 2 * (2 * s.b.entry j) by ring, pow_mul,
        omega8_sq, I_pow_two_mul]
    rw [hquad, hsgn, omega8_pow_mod, pow_add, hphase, I_pow_two_mul]
    ring

end Q2NS.AffineState
