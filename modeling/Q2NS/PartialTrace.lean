import Q2NS.QStateDM

/-!
# Partial traces

`QStateDM::PartialTrace` splits a density matrix into the reduced states of a list of
qubits and of the others; applied to a product it gives the factors back.
-/

namespace Q2NS

open NamedTensor Loop Finset Matrix
open scoped ComplexOrder

namespace Qpp

/-- `complement(subsys, n)`. -/
def complement (subsys : List ℕ) (n : ℕ) : List ℕ :=
  (List.range n).filter fun i => i ∉ subsys

end Qpp

namespace DM

variable (ρ : DM)

/-- The multi-index that reads `x` on the legs `bar` and `a` on the legs `target`. -/
noncomputable def multiIndex (n : ℕ) (target bar : List ℕ) (a : Fin target.length → Bool)
    (x : Fin bar.length → Bool) : Fin n → Bool := fun i =>
  patch (Qpp.legs target) a (patch (Qpp.legs bar) x fun _ => false) i

/-- `ptrace(ρ, target, dims)`. -/
noncomputable def ptraceAll (target : List ℕ) : Except Exit DM :=
  if ρ.n = 0 then .error (.thrown "DimsInvalid")
  else if ¬ (target.Nodup ∧ ∀ t ∈ target, t < ρ.n) then
    .error (.thrown "SubsysMismatchDims")
  else if target.length = ρ.n then .ok ⟨0, fun _ _ => ρ.rho.trace⟩
  else if target = [] then .ok ρ
  else
    let bar := Qpp.complement target ρ.n
    .ok ⟨bar.length, fun x y => ∑ a : Fin target.length → Bool,
      ρ.rho (multiIndex ρ.n target bar a x) (multiIndex ρ.n target bar a y)⟩

/-- The reduced state on the qubits `keep`: the column index differs from the row index
on these qubits only. -/
noncomputable def reduced {m : ℕ} (keep : Fin m → ℕ) : DM where
  n := m
  rho := fun x y => ∑ z : Fin ρ.n → Bool,
    if ∀ k, pad z (keep k) = x k then ρ.rho z fun i => patch keep y (pad z) i else 0

end DM

namespace QStateDM

/-- The loop of `PartialTrace` over the indices; `used` marks those seen. -/
def markUsed (n : ℕ) : List ℕ → (ℕ → Bool) → Except Exit (ℕ → Bool)
  | [], used => .ok used
  | idxUser :: rest, used =>
      if idxUser ≥ n then .error (.thrown "QStateDM::PartialTrace: index out of range")
      else if used idxUser then .error (.thrown "QStateDM::PartialTrace: duplicate index")
      else markUsed n rest (Function.update used idxUser true)

/-- `QStateDM::PartialTrace`: the result and the state object afterwards. -/
noncomputable def partialTrace (st : DM) (subsystemA : List ℕ) : Except Exit DM × DM :=
  let n := st.n
  if n = 0 then (.error (.thrown "QStateDM::PartialTrace: empty state"), st)
  else if subsystemA = [] ∨ subsystemA.length ≥ n then
    (.error (.thrown
      "QStateDM::PartialTrace: subsystemA must be a non-empty proper subset"), st)
  else
    match markUsed n subsystemA fun _ => false with
    | .error e => (.error e, st)
    | .ok used =>
        let A := subsystemA
        let B := (List.range n).filter fun i => !used i
        match st.ptraceAll B with
        | .error e => (.error e, st)
        | .ok rhoA =>
            match st.ptraceAll A with
            | .error e => (.error e, st)
            | .ok rhoB =>
                -- the matrix is replaced before it is validated
                match validateDensityMatrix rhoB with
                | .error e => (.error e, rhoB)
                | .ok () => (ofDM rhoA, rhoB)

/-! ## Validation -/

/-- The index lists that `PartialTrace` accepts. -/
structure Splits (n : ℕ) (l : List ℕ) : Prop where
  nonempty : l ≠ []
  nodup : l.Nodup
  inRange : ∀ i ∈ l, i < n
  proper : ∃ i < n, i ∉ l

theorem markUsed_ok {n : ℕ} {l : List ℕ} {used : ℕ → Bool} (hd : l.Nodup)
    (hlt : ∀ i ∈ l, i < n) (hfresh : ∀ i ∈ l, used i = false) :
    markUsed n l used = .ok fun i => used i || decide (i ∈ l) := by
  induction l generalizing used with
  | nil => simp [markUsed]
  | cons i l ih =>
      obtain ⟨hi, hd⟩ := List.nodup_cons.mp hd
      rw [markUsed, if_neg (not_le.mpr (hlt i List.mem_cons_self)),
        hfresh i List.mem_cons_self, if_neg Bool.false_ne_true]
      rw [ih hd (fun j hj => hlt j (List.mem_cons_of_mem _ hj))]
      · refine congrArg Except.ok (funext fun j => ?_)
        by_cases hj : j = i
        · rw [hj, Function.update_self]
          simp
        · rw [Function.update_of_ne hj]
          simp [hj]
      · intro j hj
        rw [Function.update_of_ne fun he : j = i => hi (he ▸ hj)]
        exact hfresh j (List.mem_cons_of_mem _ hj)

/-- A list that passes the loop is in range and free of duplicates. -/
theorem of_markUsed {n : ℕ} {l : List ℕ} {used used' : ℕ → Bool}
    (h : markUsed n l used = .ok used') :
    l.Nodup ∧ (∀ i ∈ l, i < n) ∧ ∀ i ∈ l, used i = false := by
  induction l generalizing used with
  | nil => exact ⟨List.nodup_nil, by simp, by simp⟩
  | cons i l ih =>
      rw [markUsed] at h
      split_ifs at h with hge hused
      obtain ⟨hd, hlt, hfresh⟩ := ih h
      have hnot : i ∉ l := fun hi => by simpa using hfresh i hi
      refine ⟨List.nodup_cons.mpr ⟨hnot, hd⟩, List.forall_mem_cons.mpr ⟨not_le.mp hge, hlt⟩,
        List.forall_mem_cons.mpr ⟨Bool.not_eq_true _ ▸ hused, fun j hj => ?_⟩⟩
      rw [← hfresh j hj, Function.update_of_ne fun he : j = i => hnot (he ▸ hj)]

theorem markUsed_thrown {n : ℕ} {l : List ℕ} {used : ℕ → Bool} {e : Exit}
    (h : markUsed n l used = .error e) : ∃ msg, e = .thrown msg := by
  induction l generalizing used with
  | nil => cases h
  | cons i l ih =>
      rw [markUsed] at h
      split_ifs at h
      · exact ⟨_, (Except.error.inj h).symm⟩
      · exact ⟨_, (Except.error.inj h).symm⟩
      · exact ih h

theorem Splits.length_lt {n : ℕ} {l : List ℕ} (h : Splits n l) : l.length < n := by
  obtain ⟨i, hi, hil⟩ := h.proper
  have hsub : i :: l ⊆ List.range n := List.cons_subset.mpr
    ⟨List.mem_range.mpr hi, fun j hj => List.mem_range.mpr (h.inRange j hj)⟩
  have hlen := ((List.nodup_cons.mpr ⟨hil, h.nodup⟩).subperm hsub).length_le
  rwa [List.length_range] at hlen

/-- Every other list is refused before anything is changed. -/
theorem partialTrace_refused {ρ : DM} {l : List ℕ} (h : ¬ Splits ρ.n l) :
    ∃ msg, partialTrace ρ l = (.error (.thrown msg), ρ) := by
  unfold partialTrace
  dsimp only
  split_ifs with hn hlist
  · exact ⟨_, rfl⟩
  · exact ⟨_, rfl⟩
  obtain ⟨hne, hlen⟩ := not_or.mp hlist
  cases hmark : markUsed ρ.n l fun _ => false with
  | error e =>
      obtain ⟨msg, rfl⟩ := markUsed_thrown hmark
      exact ⟨msg, rfl⟩
  | ok used =>
      obtain ⟨hd, hlt, -⟩ := of_markUsed hmark
      refine absurd ⟨hne, hd, hlt, ?_⟩ h
      by_contra hall
      have hsub : List.range ρ.n ⊆ l := fun i hi => by
        by_contra hil
        exact hall ⟨i, List.mem_range.mp hi, hil⟩
      have := (List.nodup_range.subperm hsub).length_le
      rw [List.length_range] at this
      exact hlen this

end QStateDM

/-! ## Reduced states -/

namespace DM

variable {ρ σ : DM} {target : List ℕ}

theorem mem_complement {l : List ℕ} {n i : ℕ} :
    i ∈ Qpp.complement l n ↔ i < n ∧ i ∉ l := by
  simp [Qpp.complement]

theorem nodup_complement (l : List ℕ) (n : ℕ) : (Qpp.complement l n).Nodup :=
  List.nodup_range.filter _

/-- A listed leg is one of the family. -/
theorem exists_leg {l : List ℕ} {i : ℕ} (h : i ∈ l) : ∃ k, Qpp.legs l k = i :=
  List.mem_iff_get.mp h

theorem leg_mem {l : List ℕ} (k : Fin l.length) : Qpp.legs l k ∈ l := List.get_mem _ _

section Split

variable {n : ℕ} {a : Fin target.length → Bool}
  {x y : Fin (Qpp.complement target n).length → Bool}

theorem multiIndex_target (hd : target.Nodup) (k : Fin target.length) {i : Fin n}
    (hi : Qpp.legs target k = i) :
    multiIndex n target (Qpp.complement target n) a x i = a k := by
  rw [multiIndex, ← hi, patch_apply (Qpp.legs_injective hd)]

theorem multiIndex_bar (k : Fin (Qpp.complement target n).length) {i : Fin n}
    (hi : Qpp.legs (Qpp.complement target n) k = i) :
    multiIndex n target (Qpp.complement target n) a x i = x k := by
  have hbar := (mem_complement.mp (leg_mem k)).2
  have hother : ∀ b, Qpp.legs target b ≠ i := fun b hb =>
    hbar (hi ▸ hb ▸ leg_mem b)
  rw [multiIndex, patch_other hother, ← hi,
    patch_apply (Qpp.legs_injective (nodup_complement target n))]

/-- The columns that a row is paired with. -/
theorem patch_multiIndex (hd : target.Nodup) (i : Fin n) :
    patch (Qpp.legs (Qpp.complement target n)) y
        (pad (multiIndex n target (Qpp.complement target n) a x)) i =
      multiIndex n target (Qpp.complement target n) a y i := by
  by_cases hi : (i : ℕ) ∈ target
  · obtain ⟨k, hk⟩ := exists_leg hi
    have hother : ∀ b, Qpp.legs (Qpp.complement target n) b ≠ i := fun b hb =>
      (mem_complement.mp (leg_mem b)).2 (hb ▸ hi)
    rw [patch_other hother, pad_val, multiIndex_target hd k hk, multiIndex_target hd k hk]
  · obtain ⟨k, hk⟩ := exists_leg (mem_complement.mpr ⟨i.isLt, hi⟩)
    rw [multiIndex_bar k hk, ← hk,
      patch_apply (Qpp.legs_injective (nodup_complement target n))]

end Split

/-- The sum of `ptrace` runs over the rows that agree with `x` outside `target`. -/
theorem sum_multiIndex {n : ℕ} (hd : target.Nodup) (hlt : ∀ t ∈ target, t < n)
    (x : Fin (Qpp.complement target n).length → Bool) (f : (Fin n → Bool) → ℂ) :
    ∑ a : Fin target.length → Bool,
        f (multiIndex n target (Qpp.complement target n) a x) =
      ∑ z : Fin n → Bool,
        if ∀ k, pad z (Qpp.legs (Qpp.complement target n) k) = x k then f z else 0 := by
  have hleg : ∀ k, Qpp.legs target k < n := fun k => hlt _ (leg_mem k)
  rw [← sum_filter]
  refine sum_bij' (fun a _ => multiIndex n target (Qpp.complement target n) a x)
    (fun z _ k => z ⟨Qpp.legs target k, hleg k⟩) ?_ (fun _ _ => mem_univ _) ?_ ?_
    fun _ _ => rfl
  · intro a _
    refine mem_filter.mpr ⟨mem_univ _, fun k => ?_⟩
    have hk := (mem_complement.mp (leg_mem k)).1
    rw [pad_of_lt _ hk, multiIndex_bar k rfl]
  · intro a _
    funext k
    exact multiIndex_target hd k rfl
  · intro z hz
    have hx := (mem_filter.mp hz).2
    funext i
    by_cases hi : (i : ℕ) ∈ target
    · obtain ⟨k, hk⟩ := exists_leg hi
      rw [multiIndex_target hd k hk]
      exact congrArg z (Fin.ext hk)
    · obtain ⟨k, hk⟩ := exists_leg (mem_complement.mpr ⟨i.isLt, hi⟩)
      rw [multiIndex_bar k hk, ← hx k, hk, pad_val]

/-- The reduced state of the qubits outside `target` is the sum that `ptrace` computes. -/
theorem reduced_complement (hd : target.Nodup) (hlt : ∀ t ∈ target, t < ρ.n) :
    ρ.reduced (Qpp.legs (Qpp.complement target ρ.n)) =
      ⟨_, fun x y => ∑ a : Fin target.length → Bool,
        ρ.rho (multiIndex ρ.n target (Qpp.complement target ρ.n) a x)
          (multiIndex ρ.n target (Qpp.complement target ρ.n) a y)⟩ := by
  rw [reduced]
  refine congrArg (DM.mk _) ?_
  funext x y
  rw [← sum_multiIndex hd hlt x fun z => ρ.rho z fun i =>
    patch (Qpp.legs (Qpp.complement target ρ.n)) y (pad z) i]
  refine sum_congr rfl fun a _ => congrArg (ρ.rho _) ?_
  funext i
  exact patch_multiIndex hd i

/-- `ptrace` leaves the reduced state of the other qubits, in increasing order. -/
theorem ptraceAll_eq (hne : target ≠ []) (hd : target.Nodup) (hlt : ∀ t ∈ target, t < ρ.n)
    (hproper : target.length ≠ ρ.n) :
    ρ.ptraceAll target = .ok (ρ.reduced (Qpp.legs (Qpp.complement target ρ.n))) := by
  have hn : ρ.n ≠ 0 := by
    obtain ⟨t, ht⟩ := List.exists_mem_of_ne_nil _ hne
    exact Nat.ne_of_gt (Nat.zero_lt_of_lt (hlt t ht))
  rw [ptraceAll, if_neg hn, if_neg (not_not.mpr ⟨hd, hlt⟩), if_neg hproper, if_neg hne,
    reduced_complement hd hlt]

theorem valid_reduced (hρ : ρ.Valid) (hd : target.Nodup) (hlt : ∀ t ∈ target, t < ρ.n) :
    (ρ.reduced (Qpp.legs (Qpp.complement target ρ.n))).Valid := by
  rw [reduced_complement hd hlt]
  refine { posSemidef := ?_, trace := ?_ }
  · have hsum : (Matrix.of fun x y => ∑ a : Fin target.length → Bool,
        ρ.rho (multiIndex ρ.n target (Qpp.complement target ρ.n) a x)
          (multiIndex ρ.n target (Qpp.complement target ρ.n) a y)) =
        ∑ a : Fin target.length → Bool,
          ρ.rho.submatrix (multiIndex ρ.n target (Qpp.complement target ρ.n) a)
            (multiIndex ρ.n target (Qpp.complement target ρ.n) a) := by
      ext x y
      rw [Matrix.sum_apply]
      rfl
    have hpos : (∑ a : Fin target.length → Bool,
        ρ.rho.submatrix (multiIndex ρ.n target (Qpp.complement target ρ.n) a)
          (multiIndex ρ.n target (Qpp.complement target ρ.n) a)).PosSemidef :=
      Matrix.posSemidef_sum _ fun a _ => hρ.posSemidef.submatrix _
    rw [← hsum] at hpos
    exact hpos
  · -- each basis vector agrees with exactly one `x` on the qubits that are kept
    have hone : ∀ z : Fin ρ.n → Bool, (∑ x : Fin (Qpp.complement target ρ.n).length → Bool,
        if ∀ k, pad z (Qpp.legs (Qpp.complement target ρ.n) k) = x k
          then ρ.rho z z else 0) = ρ.rho z z := by
      intro z
      simp only [← funext_iff]
      exact sum_ite_eq_of_mem _ _ _ (mem_univ _)
    have hdiag : ∀ x : Fin (Qpp.complement target ρ.n).length → Bool,
        ∑ a : Fin target.length → Bool,
          ρ.rho (multiIndex ρ.n target (Qpp.complement target ρ.n) a x)
            (multiIndex ρ.n target (Qpp.complement target ρ.n) a x) =
          ∑ z : Fin ρ.n → Bool,
            if ∀ k, pad z (Qpp.legs (Qpp.complement target ρ.n) k) = x k
              then ρ.rho z z else 0 := fun x => sum_multiIndex hd hlt x fun z => ρ.rho z z
    calc ∑ x : Fin (Qpp.complement target ρ.n).length → Bool,
          ∑ a : Fin target.length → Bool,
            ρ.rho (multiIndex ρ.n target (Qpp.complement target ρ.n) a x)
              (multiIndex ρ.n target (Qpp.complement target ρ.n) a x)
        = ∑ z : Fin ρ.n → Bool, ∑ x : Fin (Qpp.complement target ρ.n).length → Bool,
            if ∀ k, pad z (Qpp.legs (Qpp.complement target ρ.n) k) = x k
              then ρ.rho z z else 0 :=
          (sum_congr rfl fun x _ => hdiag x).trans sum_comm
      _ = ∑ z : Fin ρ.n → Bool, ρ.rho z z := sum_congr rfl fun z _ => hone z
      _ = 1 := hρ.trace

end DM

namespace QStateDM

variable {ρ σ : DM} {l : List ℕ}

/-- The qubits of the list, in increasing order. -/
def listed (n : ℕ) (l : List ℕ) : List ℕ := (List.range n).filter fun i => i ∈ l

theorem complement_complement (n : ℕ) (l : List ℕ) :
    Qpp.complement (Qpp.complement l n) n = listed n l := by
  refine List.filter_congr fun i hi => ?_
  have : i < n := List.mem_range.mp hi
  simp [DM.mem_complement, this]

/-- What `PartialTrace` does on a list that it accepts. -/
theorem partialTrace_splits (hρ : ρ.Valid) (h : Splits ρ.n l) :
    partialTrace ρ l = (.ok (ρ.reduced (Qpp.legs (listed ρ.n l))),
      ρ.reduced (Qpp.legs (Qpp.complement l ρ.n))) := by
  have hmark := @markUsed_ok ρ.n l (fun _ => false) h.nodup h.inRange fun _ _ => rfl
  have hlen := h.length_lt
  have hB : ((List.range ρ.n).filter fun i => !(false || decide (i ∈ l))) =
      Qpp.complement l ρ.n := List.filter_congr fun i _ => by simp
  obtain ⟨j, hj, hjl⟩ := h.proper
  have hjB : j ∈ Qpp.complement l ρ.n := DM.mem_complement.mpr ⟨hj, hjl⟩
  have hBlt : ∀ i ∈ Qpp.complement l ρ.n, i < ρ.n := fun i hi =>
    (DM.mem_complement.mp hi).1
  have hBlen : (Qpp.complement l ρ.n).length ≠ ρ.n := by
    intro heq
    obtain ⟨i, hi⟩ := List.exists_mem_of_ne_nil _ h.nonempty
    have hsub := (DM.nodup_complement l ρ.n).subperm
      (fun i hi => List.mem_range.mpr (hBlt i hi) : Qpp.complement l ρ.n ⊆ List.range ρ.n)
    have hperm := hsub.perm_of_length_le (by rw [List.length_range, heq])
    exact (DM.mem_complement.mp
      (hperm.mem_iff.mpr (List.mem_range.mpr (h.inRange i hi)))).2 hi
  have hA : ρ.ptraceAll (Qpp.complement l ρ.n) =
      .ok (ρ.reduced (Qpp.legs (listed ρ.n l))) := by
    rw [DM.ptraceAll_eq (List.ne_nil_of_mem hjB) (DM.nodup_complement l ρ.n) hBlt hBlen,
      complement_complement]
  have hvalidA : (ρ.reduced (Qpp.legs (listed ρ.n l))).Valid := by
    rw [← complement_complement]
    exact DM.valid_reduced hρ (DM.nodup_complement l ρ.n) hBlt
  have hvalidB := DM.valid_reduced hρ h.nodup h.inRange
  have hcheck : validateDensityMatrix (ρ.reduced (Qpp.legs (Qpp.complement l ρ.n))) =
      .ok () := by
    obtain ⟨_, hok, -⟩ := bind_eq_ok.mp (ofDM_ok hvalidB)
    exact hok
  unfold partialTrace
  dsimp only
  rw [if_neg (Nat.ne_of_gt (Nat.zero_lt_of_lt hj)),
    if_neg (not_or.mpr ⟨h.nonempty, not_le.mpr hlen⟩), hmark]
  dsimp only
  rw [hB, hA]
  dsimp only
  rw [DM.ptraceAll_eq h.nonempty h.nodup h.inRange hlen.ne]
  dsimp only
  rw [hcheck, ofDM_ok hvalidA]

end QStateDM

/-! ## Products -/

namespace DM

variable {ρ σ : DM}

theorem rho_kron_append (a c : Fin ρ.n → Bool) (b d : Fin σ.n → Bool) :
    (ρ.kron σ).rho (Fin.append a b) (Fin.append c d) = ρ.rho a c * σ.rho b d := by
  simp only [kron, Fin.append_left, Fin.append_right]

theorem sum_append {m n : ℕ} (f : (Fin (m + n) → Bool) → ℂ) :
    ∑ z, f z = ∑ a : Fin m → Bool, ∑ b : Fin n → Bool, f (Fin.append a b) := by
  rw [← (Fin.appendEquiv m n).sum_comp f, Fintype.sum_prod_type]
  rfl

/-- The first factor is the reduced state of the first qubits. -/
theorem reduced_kron_left (hσ : σ.rho.trace = 1) :
    (ρ.kron σ).reduced (fun i : Fin ρ.n => (i : ℕ)) = ρ := by
  have hinj : Function.Injective fun i : Fin ρ.n => (i : ℕ) := Fin.val_injective
  have hpad : ∀ (a : Fin ρ.n → Bool) (b : Fin σ.n → Bool) (k : Fin ρ.n),
      pad (Fin.append a b) k = a k := fun a b k => by
    rw [pad_of_lt _ (k.isLt.trans_le (Nat.le_add_right _ _))]
    exact Fin.append_left a b k
  have hcol : ∀ (a y : Fin ρ.n → Bool) (b : Fin σ.n → Bool),
      (fun i : Fin (ρ.n + σ.n) => patch (fun i : Fin ρ.n => (i : ℕ)) y
        (pad (Fin.append a b)) i) = Fin.append y b := by
    intro a y b
    funext i
    refine Fin.addCases (fun i => ?_) (fun i => ?_) i
    · rw [Fin.append_left]
      exact patch_apply hinj y _ i
    · have hother : ∀ k : Fin ρ.n, (k : ℕ) ≠ (Fin.natAdd ρ.n i : Fin (ρ.n + σ.n)) :=
        fun k => Nat.ne_of_lt (k.isLt.trans_le (Nat.le_add_right _ _))
      rw [Fin.append_right, patch_other hother, pad_val, Fin.append_right]
  have hrow : ∀ (a x : Fin ρ.n → Bool) (b : Fin σ.n → Bool),
      (∀ k : Fin ρ.n, pad (Fin.append a b) k = x k) ↔ a = x := fun a x b => by
    simp only [hpad, funext_iff]
  refine congrArg (DM.mk ρ.n) ?_
  funext x y
  calc ∑ z : Fin (ρ.n + σ.n) → Bool, (if ∀ k : Fin ρ.n, pad z k = x k then
        (ρ.kron σ).rho z fun i => patch (fun i : Fin ρ.n => (i : ℕ)) y (pad z) i else 0)
      = ∑ a : Fin ρ.n → Bool, ∑ b : Fin σ.n → Bool,
          if ∀ k : Fin ρ.n, pad (Fin.append a b) k = x k then
            (ρ.kron σ).rho (Fin.append a b) fun i =>
              patch (fun i : Fin ρ.n => (i : ℕ)) y (pad (Fin.append a b)) i else 0 :=
        sum_append _
    _ = ∑ a : Fin ρ.n → Bool, ∑ b : Fin σ.n → Bool,
          if a = x then ρ.rho a y * σ.rho b b else 0 := by
        refine sum_congr rfl fun a _ => sum_congr rfl fun b _ => ?_
        refine if_congr (hrow a x b) ?_ rfl
        exact (congrArg ((ρ.kron σ).rho _) (hcol a y b)).trans (rho_kron_append a y b b)
    _ = ∑ b : Fin σ.n → Bool, ρ.rho x y * σ.rho b b := by
        rw [sum_comm]
        exact sum_congr rfl fun b _ => sum_ite_eq_of_mem' _ _ _ (mem_univ x)
    _ = ρ.rho x y := by
        rw [← mul_sum]
        exact (congrArg (ρ.rho x y * ·) hσ).trans (mul_one _)

/-- The second factor is the reduced state of the last qubits. -/
theorem reduced_kron_right (hρ : ρ.rho.trace = 1) :
    (ρ.kron σ).reduced (fun i : Fin σ.n => ρ.n + (i : ℕ)) = σ := by
  have hinj : Function.Injective fun i : Fin σ.n => ρ.n + (i : ℕ) := fun i j h =>
    Fin.ext (Nat.add_left_cancel h)
  have hpad : ∀ (a : Fin ρ.n → Bool) (b : Fin σ.n → Bool) (k : Fin σ.n),
      pad (Fin.append a b) (ρ.n + k) = b k := fun a b k => by
    rw [pad_of_lt _ (Nat.add_lt_add_left k.isLt _)]
    exact Fin.append_right a b k
  have hcol : ∀ (a : Fin ρ.n → Bool) (b y : Fin σ.n → Bool),
      (fun i : Fin (ρ.n + σ.n) => patch (fun i : Fin σ.n => ρ.n + (i : ℕ)) y
        (pad (Fin.append a b)) i) = Fin.append a y := by
    intro a b y
    funext i
    refine Fin.addCases (fun i => ?_) (fun i => ?_) i
    · have hother : ∀ k : Fin σ.n,
          ρ.n + (k : ℕ) ≠ (Fin.castAdd σ.n i : Fin (ρ.n + σ.n)) := fun k =>
        Nat.ne_of_gt (i.isLt.trans_le (Nat.le_add_right _ _))
      rw [Fin.append_left, patch_other hother, pad_val, Fin.append_left]
    · rw [Fin.append_right]
      exact patch_apply hinj y _ i
  have hrow : ∀ (a : Fin ρ.n → Bool) (b x : Fin σ.n → Bool),
      (∀ k : Fin σ.n, pad (Fin.append a b) (ρ.n + k) = x k) ↔ b = x := fun a b x => by
    simp only [hpad, funext_iff]
  refine congrArg (DM.mk σ.n) ?_
  funext x y
  calc ∑ z : Fin (ρ.n + σ.n) → Bool, (if ∀ k : Fin σ.n, pad z (ρ.n + k) = x k then
        (ρ.kron σ).rho z fun i => patch (fun i : Fin σ.n => ρ.n + (i : ℕ)) y (pad z) i
        else 0)
      = ∑ a : Fin ρ.n → Bool, ∑ b : Fin σ.n → Bool,
          if ∀ k : Fin σ.n, pad (Fin.append a b) (ρ.n + k) = x k then
            (ρ.kron σ).rho (Fin.append a b) fun i =>
              patch (fun i : Fin σ.n => ρ.n + (i : ℕ)) y (pad (Fin.append a b)) i else 0 :=
        sum_append _
    _ = ∑ a : Fin ρ.n → Bool, ∑ b : Fin σ.n → Bool,
          if b = x then ρ.rho a a * σ.rho b y else 0 := by
        refine sum_congr rfl fun a _ => sum_congr rfl fun b _ => ?_
        refine if_congr (hrow a b x) ?_ rfl
        exact (congrArg ((ρ.kron σ).rho _) (hcol a b y)).trans (rho_kron_append a a b y)
    _ = ∑ a : Fin ρ.n → Bool, ρ.rho a a * σ.rho x y :=
        sum_congr rfl fun a _ => sum_ite_eq_of_mem' _ _ _ (mem_univ x)
    _ = σ.rho x y := by
        rw [← sum_mul]
        exact (congrArg (· * σ.rho x y) hρ).trans (one_mul _)

/-- Only the qubits that are kept matter, not how they are listed. -/
theorem reduced_congr {m m' : ℕ} {keep : Fin m → ℕ} {keep' : Fin m' → ℕ} (hm : m = m')
    (hkeep : ∀ i : Fin m, keep i = keep' (Fin.cast hm i)) :
    ρ.reduced keep = ρ.reduced keep' := by
  subst hm
  exact congrArg (fun k => ρ.reduced k) (funext hkeep)

end DM

namespace QStateDM

variable {ρ σ : DM} {l : List ℕ}

/-- The indices of the first factor of a product. -/
theorem splits_first (hl : l.Nodup) (hmem : ∀ i, i ∈ l ↔ i < ρ.n) (hρ : ρ.n ≠ 0)
    (hσ : σ.n ≠ 0) : Splits (ρ.kron σ).n l where
  nonempty := List.ne_nil_of_mem ((hmem 0).mpr (Nat.pos_of_ne_zero hρ))
  nodup := hl
  inRange := fun i hi => ((hmem i).mp hi).trans_le (Nat.le_add_right _ _)
  proper := ⟨ρ.n, Nat.lt_add_of_pos_right (Nat.pos_of_ne_zero hσ),
    fun h => lt_irrefl _ ((hmem _).mp h)⟩

theorem range_filter {m n : ℕ} (hmem : ∀ i, i ∈ l ↔ i < m) :
    listed (m + n) l = List.range m ∧
      Qpp.complement l (m + n) = (List.range n).map (m + ·) := by
  have hlow : ∀ i ∈ List.range m, i ∈ l := fun i hi => (hmem i).mpr (List.mem_range.mp hi)
  have hhigh : ∀ i ∈ (List.range n).map (m + ·), i ∉ l := by
    intro i hi hil
    obtain ⟨j, -, rfl⟩ := List.mem_map.mp hi
    exact absurd ((hmem _).mp hil) (not_lt.mpr (Nat.le_add_right m j))
  constructor
  · rw [listed, List.range_add, List.filter_append,
      List.filter_eq_self.mpr fun i hi => decide_eq_true (hlow i hi),
      List.filter_eq_nil_iff.mpr fun i hi => by simpa using hhigh i hi, List.append_nil]
  · rw [Qpp.complement, List.range_add, List.filter_append,
      List.filter_eq_nil_iff.mpr fun i hi => by simpa using hlow i hi,
      List.filter_eq_self.mpr fun i hi => decide_eq_true (hhigh i hi), List.nil_append]

/-- A product is split into its factors. -/
theorem partialTrace_kron (hρ : ρ.Valid) (hσ : σ.Valid) (hl : l.Nodup)
    (hmem : ∀ i, i ∈ l ↔ i < ρ.n) (hρn : ρ.n ≠ 0) (hσn : σ.n ≠ 0) :
    partialTrace (ρ.kron σ) l = (.ok ρ, σ) := by
  obtain ⟨hlow, hhigh⟩ := range_filter (n := σ.n) hmem
  have hkron : (ρ.kron σ).n = ρ.n + σ.n := rfl
  rw [partialTrace_splits (DM.valid_kron hρ hσ) (splits_first hl hmem hρn hσn), hkron,
    hlow, hhigh]
  have hfirst : (ρ.kron σ).reduced (Qpp.legs (List.range ρ.n)) = ρ :=
    (DM.reduced_congr List.length_range fun i => by simp [Qpp.legs]).trans
      (DM.reduced_kron_left hσ.trace)
  have hsecond : (ρ.kron σ).reduced (Qpp.legs ((List.range σ.n).map (ρ.n + ·))) = σ :=
    (DM.reduced_congr (by rw [List.length_map, List.length_range])
      fun i => by simp [Qpp.legs]).trans (DM.reduced_kron_right hρ.trace)
  rw [hfirst, hsecond]

/-- `PartialTrace` on a density matrix: a list that splits the register leaves the reduced
state of the other qubits in the object and returns that of the listed ones, in increasing
order; every other list throws and changes nothing; and the factors of a merged state come
back when the indices of the first are traced out. -/
theorem partialTrace_law {ρ : DM} (hρ : ρ.Valid) :
    (∀ l, Splits ρ.n l → partialTrace ρ l =
      (.ok (ρ.reduced (Qpp.legs (listed ρ.n l))),
        ρ.reduced (Qpp.legs (Qpp.complement l ρ.n)))) ∧
    (∀ l, ¬ Splits ρ.n l → ∃ msg, partialTrace ρ l = (.error (.thrown msg), ρ)) ∧
    ∀ σ : DM, σ.Valid → ∃ merged, mergeDisjoint ρ σ = .ok merged ∧
      ∀ l, l.Nodup → (∀ i, i ∈ l ↔ i < ρ.n) → Splits merged.n l →
        partialTrace merged l = (.ok ρ, σ) := by
  refine ⟨fun l hl => partialTrace_splits hρ hl, fun l hl => partialTrace_refused hl,
    fun σ hσ => ⟨ρ.kron σ, (mergeDisjoint_ok hρ hσ).1, fun l hl hmem hsplits => ?_⟩⟩
  have hρn : ρ.n ≠ 0 := fun hzero => by
    obtain ⟨i, hi⟩ := List.exists_mem_of_ne_nil _ hsplits.nonempty
    exact absurd ((hmem i).mp hi) (by rw [hzero]; exact Nat.not_lt_zero i)
  have hσn : σ.n ≠ 0 := fun hzero => by
    obtain ⟨i, hi, hil⟩ := hsplits.proper
    have hlt : i < ρ.n + σ.n := hi
    rw [hzero, Nat.add_zero] at hlt
    exact hil ((hmem i).mpr hlt)
  exact partialTrace_kron hρ hσ hl hmem hρn hσn

/-- Two fresh qubits are split into one and one. -/
theorem partialTrace_law_two : ∃ ρ, init 2 = .ok ρ ∧
    partialTrace ρ [1] = (.ok (ρ.reduced (Qpp.legs [1])), ρ.reduced (Qpp.legs [0])) := by
  obtain ⟨ρ, hinit, hn, hρ⟩ := init_ok two_ne_zero
  have hsplits : Splits ρ.n [1] := by
    rw [hn]
    exact ⟨by decide, by decide, by decide, ⟨0, by decide, by decide⟩⟩
  have hlaw := (partialTrace_law hρ).1 [1] hsplits
  have hlisted : listed ρ.n [1] = [1] := by
    rw [hn]
    decide
  have hrest : Qpp.complement [1] ρ.n = [0] := by
    rw [hn]
    decide
  rw [hlisted, hrest] at hlaw
  exact ⟨ρ, hinit, hlaw⟩

end QStateDM

end Q2NS
