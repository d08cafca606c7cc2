import Q2NS.Swap.Completion
import Q2NS.Swap.Pairs

/-!
# A partially swapped chain

The qubits of one session along its path.  A hop is a pair that the node at a position
has made with the next one; where a repeater has measured, the two hops that meet there
have become one, in the Bell state of the sum of the bits measured on the way.
-/

namespace Q2NS.Swap

open QStateRegistry

variable {T : Type}

/-! ## Sums of bits -/

/-- The sum of bits. -/
def parity {α : Type} (f : α → Bool) : List α → Bool
  | [] => false
  | x :: l => f x ^^ parity f l

section Parity

variable {α β : Type} {f g : α → Bool} {l l' : List α}

theorem parity_append (f : α → Bool) (l l' : List α) :
    parity f (l ++ l') = (parity f l ^^ parity f l') := by
  induction l with
  | nil => rw [List.nil_append, parity, Bool.false_xor]
  | cons x l ih => rw [List.cons_append, parity, parity, ih, Bool.xor_assoc]

theorem parity_congr (h : ∀ x ∈ l, f x = g x) : parity f l = parity g l := by
  induction l with
  | nil => rfl
  | cons x l ih =>
      rw [parity, parity, h x List.mem_cons_self,
        ih fun y hy => h y (List.mem_cons_of_mem x hy)]

theorem parity_perm (h : l.Perm l') : parity f l = parity f l' := by
  induction h with
  | nil => rfl
  | cons x _ ih => rw [parity, parity, ih]
  | swap x y l => rw [parity, parity, parity, parity, Bool.xor_left_comm]
  | trans _ _ ih ih' => exact ih.trans ih'

theorem parity_map (f : α → Bool) (e : β → α) (l : List β) :
    parity f (l.map e) = parity (f ∘ e) l := by
  induction l with
  | nil => rfl
  | cons x l ih => rw [List.map_cons, parity, parity, ih, Function.comp_apply]

end Parity

/-! ## Hops -/

/-- Where the second half of a pair is. -/
inductive Stage where
  | flying
  | arrived
  | lost
  deriving DecidableEq

/-- A pair between a node and the next one. -/
structure Hop where
  kept : QubitPtr
  sent : QubitPtr
  stage : Stage

/-- The half that the next node has got. -/
def Hop.taken (h : Hop) : Option QubitPtr := if h.stage = .arrived then some h.sent else none

/-- The bits that the repeaters have measured. -/
abbrev Outcomes := NodeId → Option (Bool × Bool)

/-- One of the bits of a node. -/
def bitOf (sel : Bool × Bool → Bool) (bits : Outcomes) (n : NodeId) : Bool :=
  (bits n).elim false sel

section Chain

variable (w : Setup T) (s : SwapSessionSpec T)

/-- The id of the node at a position. -/
def nodeAt (i : ℕ) : NodeId := w.nodeId (s.path.getD i "")

/-- The nodes after `i` up to `j` have measured, `i` and the one after `j` have not. -/
structure Joined (bits : Outcomes) (i j : ℕ) : Prop where
  le : i ≤ j
  lt : j + 1 < s.path.length
  left : bits (nodeAt w s i) = none
  right : bits (nodeAt w s (j + 1)) = none
  inner : ∀ k, i < k → k ≤ j → (bits (nodeAt w s k)).isSome

/-- The sum of the bits of the nodes after `i` up to `j`. -/
def frame (sel : Bool × Bool → Bool) (bits : Outcomes) (i j : ℕ) : Bool :=
  parity (fun k => bitOf sel bits (nodeAt w s k)) (List.range' (i + 1) (j - i))

/-- The pairs of a session in a registry; `done` says that the last correction has been
made. -/
structure Quantum (b : QStateBackend) (hop : ℕ → Option Hop) (bits : Outcomes) (done : Bool)
    (v : QStateRegistry) : Prop where
  inv : v.Inv
  backend : v.defaultBackend = b
  lt : ∀ i h, hop i = some h → h.kept < v.numHandles ∧ h.sent < v.numHandles
  apart : ∀ i j h h', hop i = some h → hop j = some h' →
    h.kept ≠ h'.sent ∧ (h.kept = h'.kept → i = j) ∧ (h.sent = h'.sent → i = j)
  kept : ∀ i h, hop i = some h → bits (nodeAt w s i) = none →
    v.IsLocal (nodeAt w s i) h.kept
  flying : ∀ i h, hop i = some h → h.stage = .flying → v.getLocation h.sent ≠ .lost
  arrived : ∀ i h, hop i = some h → h.stage = .arrived → bits (nodeAt w s (i + 1)) = none →
    v.IsLocal (nodeAt w s (i + 1)) h.sent
  repeaters : ∀ n, (bits n).isSome →
    ∃ i, 0 < i ∧ i + 1 < s.path.length ∧ n = nodeAt w s i
  links : ∀ i, i + 2 < s.path.length → (bits (nodeAt w s (i + 1))).isSome →
    (∃ h, hop i = some h ∧ h.stage = .arrived) ∧ (hop (i + 1)).isSome
  segments : ∀ i j h h', Joined w s bits i j → hop i = some h → hop j = some h' →
    v.Group b {h.kept, h'.sent} (bellPair (!done && frame w s Prod.fst bits i j)
      (!done && frame w s Prod.snd bits i j) h.kept h'.sent)

end Chain

variable {w : Setup T} {s : SwapSessionSpec T} {b : QStateBackend}
  {hop hop' : ℕ → Option Hop} {bits : Outcomes} {done : Bool} {v v' : QStateRegistry}

/-- Positions of the path with different nodes. -/
def Distinct (w : Setup T) (s : SwapSessionSpec T) : Prop :=
  ∀ i < s.path.length, ∀ j < s.path.length, nodeAt w s i = nodeAt w s j → i = j

/-- Nothing has happened yet. -/
theorem quantum_init (hv : v.Inv) :
    Quantum w s v.defaultBackend (fun _ => none) (fun _ => none) false v where
  inv := hv
  backend := rfl
  lt := fun _ _ h => nomatch h
  apart := fun _ _ _ _ h => nomatch h
  kept := fun _ _ h => nomatch h
  flying := fun _ _ h => nomatch h
  arrived := fun _ _ h => nomatch h
  repeaters := fun _ h => nomatch h
  links := fun _ _ h => nomatch h
  segments := fun _ _ _ _ _ h => nomatch h

theorem Quantum.not_end (h : Quantum w s b hop bits done v) (hw : Distinct w s) {i : ℕ}
    (hi : i < s.path.length) (hend : i = 0 ∨ i + 1 = s.path.length) :
    bits (nodeAt w s i) = none := by
  by_contra hsome
  obtain ⟨k, hpos, hlt, hk⟩ := h.repeaters _ (Option.isSome_iff_ne_none.mpr hsome)
  have := hw i hi k (by omega) hk
  omega

/-! ## Segments -/

theorem Joined.left_unique {i i' j : ℕ} (h : Joined w s bits i j)
    (h' : Joined w s bits i' j) : i = i' := by
  rcases Nat.lt_trichotomy i i' with hlt | heq | hlt
  · have := h.inner i' hlt h'.le
    rw [h'.left] at this
    cases this
  · exact heq
  · have := h'.inner i hlt h.le
    rw [h.left] at this
    cases this

theorem Joined.right_unique {i j j' : ℕ} (h : Joined w s bits i j)
    (h' : Joined w s bits i j') : j = j' := by
  rcases Nat.lt_trichotomy j j' with hlt | heq | hlt
  · have := h'.inner (j + 1) (Nat.lt_succ_of_le h.le) hlt
    rw [h.right] at this
    cases this
  · exact heq
  · have := h.inner (j' + 1) (Nat.lt_succ_of_le h'.le) hlt
    rw [h'.right] at this
    cases this

/-- There is a segment that ends before a node that has not measured. -/
theorem Quantum.exists_left (h : Quantum w s b hop bits done v) (hw : Distinct w s) {k : ℕ}
    (hk : k + 1 < s.path.length) (hnone : bits (nodeAt w s (k + 1)) = none) :
    ∃ i, Joined w s bits i k := by
  have hdown : ∀ n ≤ k, (∀ m, n < m → m ≤ k → (bits (nodeAt w s m)).isSome) →
      ∃ i, Joined w s bits i k := by
    intro n
    induction n with
    | zero => exact fun _ hall =>
        ⟨0, Nat.zero_le k, hk, h.not_end hw (by omega) (.inl rfl), hnone, hall⟩
    | succ n ih =>
        intro hn hall
        cases hbits : bits (nodeAt w s (n + 1)) with
        | none => exact ⟨n + 1, hn, hk, hbits, hnone, hall⟩
        | some m =>
            refine ih (by omega) fun m' hm' hle => ?_
            rcases Nat.lt_or_eq_of_le hm' with hlt | heq
            · exact hall m' hlt hle
            · rw [← heq]
              exact Option.isSome_iff_exists.mpr ⟨m, hbits⟩
  exact hdown k le_rfl fun m hm hle => absurd hm (not_lt.mpr hle)

/-- There is a segment that starts at a node that has not measured. -/
theorem Quantum.exists_right (h : Quantum w s b hop bits done v) (hw : Distinct w s) {k : ℕ}
    (hk : k + 1 < s.path.length) (hnone : bits (nodeAt w s k) = none) :
    ∃ j, Joined w s bits k j := by
  have hup : ∀ d n, n + d + 2 = s.path.length → k ≤ n →
      (∀ m, k < m → m ≤ n → (bits (nodeAt w s m)).isSome) → ∃ j, Joined w s bits k j := by
    intro d
    induction d with
    | zero => exact fun n hd hn hall =>
        ⟨n, hn, by omega, hnone, h.not_end hw (by omega) (.inr (by omega)), hall⟩
    | succ d ih =>
        intro n hd hn hall
        cases hbits : bits (nodeAt w s (n + 1)) with
        | none => exact ⟨n, hn, by omega, hnone, hbits, hall⟩
        | some m =>
            refine ih (n + 1) (by omega) (by omega) fun m' hm' hle => ?_
            rcases Nat.lt_or_eq_of_le hle with hlt | heq
            · exact hall m' hm' (Nat.lt_succ_iff.mp hlt)
            · rw [heq]
              exact Option.isSome_iff_exists.mpr ⟨m, hbits⟩
  exact hup (s.path.length - 2 - k) k (by omega) le_rfl
    fun m hm hle => absurd hm (not_lt.mpr hle)

/-- The first hop of a segment is there when its last one is. -/
theorem Quantum.hop_left (h : Quantum w s b hop bits done v) {i j : ℕ}
    (hj : Joined w s bits i j) (hhop : (hop j).isSome) : (hop i).isSome := by
  rcases Nat.eq_or_lt_of_le hj.le with rfl | hlt
  · exact hhop
  · obtain ⟨⟨g, hg, -⟩, -⟩ := h.links i (by have := hj.lt; omega)
      (hj.inner (i + 1) (Nat.lt_succ_self i) hlt)
    rw [hg]
    rfl

/-- The last hop of a segment is there when its first one is. -/
theorem Quantum.hop_right (h : Quantum w s b hop bits done v) {i j : ℕ}
    (hj : Joined w s bits i j) (hhop : (hop i).isSome) : (hop j).isSome := by
  rcases Nat.eq_or_lt_of_le hj.le with rfl | hlt
  · exact hhop
  · have := hj.lt
    obtain ⟨k, rfl⟩ : ∃ k, j = k + 1 := ⟨j - 1, by omega⟩
    exact (h.links k (by omega) (hj.inner (k + 1) hlt le_rfl)).2

/-! ## A hop goes on -/

/-- The second half of a pair has arrived or is lost. -/
theorem Quantum.settle (h : Quantum w s b hop bits done v) {i : ℕ} {g : Hop}
    (hi : hop i = some g) (hflying : g.stage = .flying) {stage : Stage} {loc : Location}
    (hstage : stage ≠ .flying) (hloc : stage = .arrived → loc = .node (nodeAt w s (i + 1))) :
    Quantum w s b (Function.update hop i (some { g with stage := stage })) bits done
      (v.setLocation g.sent loc) := by
  have hlt := (h.lt i g hi).2
  have hk := setLocation_keepsBut h.inv hlt loc
  have hold : ∀ {j h'}, Function.update hop i (some { g with stage := stage }) j = some h' →
      ∃ h₀, hop j = some h₀ ∧ h'.kept = h₀.kept ∧ h'.sent = h₀.sent ∧
        (j ≠ i → h' = h₀) ∧ (j = i → h'.stage = stage) := by
    intro j h' hj
    by_cases hji : j = i
    · subst hji
      rw [Function.update_self, Option.some.injEq] at hj
      subst hj
      exact ⟨g, hi, rfl, rfl, fun hne => absurd rfl hne, fun _ => rfl⟩
    · rw [Function.update_of_ne hji] at hj
      exact ⟨h', hj, rfl, rfl, fun _ => rfl, fun he => absurd he hji⟩
  have hother : ∀ x, x < v.numHandles → x ≠ g.sent →
      (v.setLocation g.sent loc).getLocation x = v.getLocation x := fun x hx hne =>
    hk.confined.locations x hx fun hmem => hne (List.mem_singleton.mp hmem)
  refine { inv := hk.keeps.inv, backend := h.backend, lt := fun j h' hj => ?_
           apart := fun j k h₁ h₂ hj hk' => ?_, kept := fun j h' hj hb => ?_
           flying := fun j h' hj hfly => ?_, arrived := fun j h' hj harr hb => ?_
           repeaters := h.repeaters, links := fun j hj hb => ?_
           segments := fun j k h₁ h₂ hjoin hj hk' => ?_ }
  · obtain ⟨h₀, hj, hkept, hsent, -⟩ := hold hj
    rw [hkept, hsent]
    exact h.lt j h₀ hj
  · obtain ⟨h₀, hj, hkept, hsent, -⟩ := hold hj
    obtain ⟨h₀', hk', hkept', hsent', -⟩ := hold hk'
    rw [hkept, hsent, hkept', hsent']
    exact h.apart j k h₀ h₀' hj hk'
  · obtain ⟨h₀, hj, hkept, -⟩ := hold hj
    rw [hkept]
    exact (hother _ (h.lt j h₀ hj).1 (h.apart j i h₀ g hj hi).1).trans (h.kept j h₀ hj hb)
  · obtain ⟨h₀, hj, -, hsent, hsame, hthis⟩ := hold hj
    have hji : j ≠ i := fun he => hstage ((hthis he).symm.trans hfly)
    obtain rfl := hsame hji
    rw [hother _ (h.lt j h' hj).2 fun he => hji ((h.apart j i h' g hj hi).2.2 he)]
    exact h.flying j h' hj hfly
  · obtain ⟨h₀, hj₀, -, hsent, hsame, hthis⟩ := hold hj
    by_cases hji : j = i
    · subst hji
      have hsent' : h'.sent = g.sent := hsent.trans (congrArg Hop.sent
        (Option.some.inj (hj₀.symm.trans hi)))
      have hnode := hloc ((hthis rfl).symm.trans harr)
      rw [IsLocal, hsent', getLocation_setLocation, hnode]
    · obtain rfl := hsame hji
      have hne : h'.sent ≠ g.sent := fun he => hji ((h.apart j i h' g hj₀ hi).2.2 he)
      exact (hother _ (h.lt j h' hj₀).2 hne).trans (h.arrived j h' hj₀ harr hb)
  · obtain ⟨⟨h₀, hprev, harr⟩, hnext⟩ := h.links j hj hb
    refine ⟨⟨h₀, ?_, harr⟩, ?_⟩
    · rw [Function.update_of_ne]
      · exact hprev
      · rintro rfl
        obtain rfl := Option.some.inj (hprev.symm.trans hi)
        rw [hflying] at harr
        cases harr
    · by_cases hji : j + 1 = i
      · rw [hji, Function.update_self]
        rfl
      · rw [Function.update_of_ne hji]
        exact hnext
  · obtain ⟨h₀, hj, hkept, -⟩ := hold hj
    obtain ⟨h₀', hk', -, hsent', -⟩ := hold hk'
    rw [hkept, hsent']
    obtain ⟨t, ht⟩ := h.segments j k h₀ h₀' hjoin hj hk'
    exact ⟨t, ht.untouched (v.untouched_setLocation g.sent loc t)⟩

/-! ## A new hop -/

/-- A node whose hop is not there has not measured, and neither has the next one. -/
theorem Quantum.unmeasured (h : Quantum w s b hop bits done v) (hw : Distinct w s) {i : ℕ}
    (hi : hop i = none) (hlt : i + 1 < s.path.length) :
    bits (nodeAt w s i) = none ∧ bits (nodeAt w s (i + 1)) = none := by
  constructor
  · by_contra hsome
    have hsome := Option.isSome_iff_ne_none.mpr hsome
    obtain ⟨k, hpos, hk, heq⟩ := h.repeaters _ hsome
    obtain rfl := hw i (by omega) k (by omega) heq
    obtain ⟨m, rfl⟩ : ∃ m, i = m + 1 := ⟨i - 1, by omega⟩
    have hhop := (h.links m hk hsome).2
    rw [hi] at hhop
    cases hhop
  · by_contra hsome
    have hsome := Option.isSome_iff_ne_none.mpr hsome
    obtain ⟨k, hpos, hk, heq⟩ := h.repeaters _ hsome
    obtain rfl := hw (i + 1) (by omega) k (by omega) heq
    obtain ⟨⟨g, hg, -⟩, -⟩ := h.links i hk hsome
    rw [hi] at hg
    cases hg

/-- A node makes a pair and sends one half of it to the next node. -/
theorem Quantum.generate (h : Quantum w s b hop bits done v) (hw : Distinct w s) {i : ℕ}
    (hi : hop i = none) (hlt : i + 1 < s.path.length) (chan : ChannelId) :
    ∃ v₁, v.createBellPair (nodeAt w s i) = (.ok (v.numHandles, v.numHandles + 1), v₁) ∧
      Quantum w s b
        (Function.update hop i (some ⟨v.numHandles, v.numHandles + 1, .flying⟩)) bits done
        (v₁.setLocationChannel (v.numHandles + 1) chan) := by
  obtain ⟨v₁, hcall, hk₁, hb₁, hlocal₁, hg⟩ :=
    h.inv.createBellPair_pair h.backend (nodeAt w s i)
  refine ⟨v₁, hcall, ?_⟩
  obtain ⟨hbits, hbits'⟩ := h.unmeasured hw hi hlt
  set n := v.numHandles with hn
  obtain ⟨t, ht⟩ := hg
  have hinv₁ := hk₁.keeps.inv
  have hlt₁ : n + 1 < v₁.numHandles := (ht.handle hinv₁ (by simp)).1
  have hchan : v₁.setLocationChannel (n + 1) chan =
      v₁.setLocation (n + 1) (.channel chan) := by
    have hhere := hlocal₁ (n + 1) (by simp)
    rw [IsLocal] at hhere
    rw [setLocationChannel, hhere, if_neg (by simp)]
  rw [hchan]
  have hk₂ := setLocation_keepsBut hinv₁ hlt₁ (.channel chan)
  set v₂ := v₁.setLocation (n + 1) (.channel chan) with hv₂
  have hlt₂ : n + 1 < v₂.numHandles := hlt₁.trans_le hk₂.keeps.evolves.handles
  have hk : v.KeepsBut v₂ [] := hk₁.trans h.inv hk₂ fun q hq hold => by
    rw [List.mem_singleton.mp hq] at hold
    exact absurd hold (not_lt.mpr (Nat.le_succ n))
  have hloc : ∀ x < n, v₂.getLocation x = v.getLocation x := fun x hx =>
    hk.confined.locations x hx List.not_mem_nil
  have hcases : ∀ {j h'}, Function.update hop i (some ⟨n, n + 1, .flying⟩) j = some h' →
      j = i ∧ h' = ⟨n, n + 1, .flying⟩ ∨ j ≠ i ∧ hop j = some h' := by
    intro j h' hj
    by_cases hji : j = i
    · subst hji
      rw [Function.update_self, Option.some.injEq] at hj
      exact .inl ⟨rfl, hj.symm⟩
    · rw [Function.update_of_ne hji] at hj
      exact .inr ⟨hji, hj⟩
  refine { inv := hk.keeps.inv, backend := hb₁, lt := fun j h' hj => ?_
           apart := fun j k h₁ h₂ hj hk' => ?_, kept := fun j h' hj hb => ?_
           flying := fun j h' hj hfly => ?_, arrived := fun j h' hj harr hb => ?_
           repeaters := h.repeaters, links := fun j hj hb => ?_
           segments := fun j k h₁ h₂ hjoin hj hk' => ?_ }
  · rcases hcases hj with ⟨rfl, rfl⟩ | ⟨-, hj⟩
    · exact ⟨(Nat.lt_succ_self n).trans hlt₂, hlt₂⟩
    · have hle := hk.keeps.evolves.handles
      exact (h.lt j h' hj).imp (fun hx => hx.trans_le hle) fun hx => hx.trans_le hle
  · rcases hcases hj with ⟨hji, rfl⟩ | ⟨-, hj⟩
    · rcases hcases hk' with ⟨hki, rfl⟩ | ⟨-, hk'⟩
      · exact ⟨(Nat.lt_succ_self n).ne, fun _ => hji.trans hki.symm,
          fun _ => hji.trans hki.symm⟩
      · have hold := h.lt k h₂ hk'
        exact ⟨hold.2.ne', fun he => absurd he hold.1.ne',
          fun he => absurd he (hold.2.trans (Nat.lt_succ_self n)).ne'⟩
    · have hold := h.lt j h₁ hj
      rcases hcases hk' with ⟨-, rfl⟩ | ⟨-, hk'⟩
      · exact ⟨(hold.1.trans (Nat.lt_succ_self n)).ne, fun he => absurd he hold.1.ne,
          fun he => absurd he (hold.2.trans (Nat.lt_succ_self n)).ne⟩
      · exact h.apart j k h₁ h₂ hj hk'
  · rcases hcases hj with ⟨rfl, rfl⟩ | ⟨-, hj⟩
    · have hne : n ∉ [n + 1] := by simp
      exact (hk₂.confined.locations n (by omega) hne).trans (hlocal₁ n (by simp))
    · exact (hloc _ (h.lt j h' hj).1).trans (h.kept j h' hj hb)
  · rcases hcases hj with ⟨rfl, rfl⟩ | ⟨-, hj⟩
    · rw [show v₂.getLocation (n + 1) = .channel chan from getLocation_setLocation _ _]
      simp
    · rw [hloc _ (h.lt j h' hj).2]
      exact h.flying j h' hj hfly
  · rcases hcases hj with ⟨rfl, rfl⟩ | ⟨-, hj⟩
    · cases harr
    · exact (hloc _ (h.lt j h' hj).2).trans (h.arrived j h' hj harr hb)
  · obtain ⟨⟨h₀, hprev, harr⟩, hnext⟩ := h.links j hj hb
    have hji : j ≠ i := by
      rintro rfl
      rw [hi] at hprev
      cases hprev
    have hji' : j + 1 ≠ i := by
      rintro rfl
      rw [hi] at hnext
      cases hnext
    rw [Function.update_of_ne hji, Function.update_of_ne hji']
    exact ⟨⟨h₀, hprev, harr⟩, hnext⟩
  · -- the new hop is a segment by itself
    have hself : j = i ↔ k = i := by
      constructor
      · rintro rfl
        by_contra hne
        have := hjoin.inner (j + 1) (Nat.lt_succ_self j) (by have := hjoin.le; omega)
        rw [hbits'] at this
        cases this
      · rintro rfl
        by_contra hne
        have := hjoin.inner k (by have := hjoin.le; omega) le_rfl
        rw [hbits] at this
        cases this
    rcases hcases hj with ⟨rfl, rfl⟩ | ⟨hji, hj⟩
    · obtain rfl := hself.mp rfl
      obtain ⟨-, rfl⟩ | ⟨hne, -⟩ := hcases hk'
      · have hzero : ∀ sel, frame w s sel bits k k = false := fun sel => by
          rw [frame, Nat.sub_self]
          rfl
        rw [hzero, hzero, Bool.and_false]
        exact ⟨t, ht.untouched (v₁.untouched_setLocation (n + 1) (.channel chan) t)⟩
      · exact absurd rfl hne
    · obtain ⟨hk', -⟩ | ⟨-, hk'⟩ := hcases hk'
      · exact absurd (hself.mpr hk') hji
      · exact (h.segments j k h₁ h₂ hjoin hj hk').keeps h.inv hk
          fun q hq => absurd hq List.not_mem_nil

/-! ## Two segments meet -/

section Meet

variable {k : ℕ} {m : Bool × Bool}

/-- The outcomes after the node at a position has measured. -/
theorem update_nodeAt (bits : Outcomes) (m : Bool × Bool) (hw : Distinct w s)
    (hk : k + 2 < s.path.length) {x : ℕ} (hx : x < s.path.length) :
    Function.update bits (nodeAt w s (k + 1)) (some m) (nodeAt w s x) =
      if x = k + 1 then some m else bits (nodeAt w s x) := by
  split_ifs with hxk
  · rw [hxk, Function.update_self]
  · exact Function.update_of_ne (fun he => hxk (hw x hx (k + 1) (by omega) he)) ..

/-- A segment after the measurement is a new one, or one that was there before. -/
theorem Joined.of_update (hw : Distinct w s) (hk : k + 2 < s.path.length) {i j : ℕ}
    (hnone : bits (nodeAt w s (k + 1)) = none)
    (h : Joined w s (Function.update bits (nodeAt w s (k + 1)) (some m)) i j) :
    Joined w s bits i k ∧ Joined w s bits (k + 1) j ∨
      Joined w s bits i j ∧ i ≠ k + 1 ∧ j ≠ k ∧ ∀ x, i < x → x ≤ j → x ≠ k + 1 := by
  have hat := fun x (hx : x < s.path.length) => update_nodeAt bits m hw hk hx
  obtain ⟨hle, hlt, hleft, hright, hinner⟩ := h
  rw [hat i (by omega)] at hleft
  rw [hat (j + 1) hlt] at hright
  split_ifs at hleft hright with hi hj
  have hrest : ∀ x, i < x → x ≤ j → x ≠ k + 1 → (bits (nodeAt w s x)).isSome := by
    intro x hx hxj hne
    have := hinner x hx hxj
    rwa [hat x (by omega), if_neg hne] at this
  by_cases hin : i < k + 1 ∧ k + 1 ≤ j
  · refine .inl ⟨⟨by omega, by omega, hleft, hnone, fun x hx hxk => ?_⟩,
      ⟨hin.2, hlt, hnone, hright, fun x hx hxj => ?_⟩⟩
    · exact hrest x hx (by omega) (by omega)
    · exact hrest x (by omega) hxj (by omega)
  · have hout : ∀ x, i < x → x ≤ j → x ≠ k + 1 := fun x hx hxj => by omega
    exact .inr ⟨⟨hle, hlt, hleft, hright, fun x hx hxj => hrest x hx hxj (hout x hx hxj)⟩,
      hi, by omega, hout⟩

/-- The sum over a segment that the measurement is not part of. -/
theorem frame_update_of_ne (bits : Outcomes) (m : Bool × Bool) (hw : Distinct w s)
    (hk : k + 2 < s.path.length) (sel : Bool × Bool → Bool) {i j : ℕ}
    (hj : j < s.path.length) (hout : ∀ x, i < x → x ≤ j → x ≠ k + 1) :
    frame w s sel (Function.update bits (nodeAt w s (k + 1)) (some m)) i j =
      frame w s sel bits i j := by
  refine parity_congr fun x hx => ?_
  have hmem := List.mem_range'_1.mp hx
  rw [bitOf, bitOf, update_nodeAt bits m hw hk (by omega),
    if_neg (hout x (by omega) (by omega))]

/-- The sum over the new segment. -/
theorem frame_join (hw : Distinct w s) (hk : k + 2 < s.path.length)
    (sel : Bool × Bool → Bool) {i j : ℕ} (hik : i ≤ k) (hkj : k + 1 ≤ j)
    (hj : j < s.path.length) :
    frame w s sel (Function.update bits (nodeAt w s (k + 1)) (some m)) i j =
      (frame w s sel bits i k ^^ frame w s sel bits (k + 1) j ^^ sel m) := by
  have hsplit : List.range' (i + 1) (j - i) =
      List.range' (i + 1) (k - i) ++ (k + 1) :: List.range' (k + 2) (j - (k + 1)) := by
    have htail : (k + 1) :: List.range' (k + 2) (j - (k + 1)) =
        List.range' (i + 1 + (k - i)) (j - k) := by
      rw [show j - k = j - (k + 1) + 1 by omega, List.range'_succ]
      congr 1
      · omega
      · congr 1
        omega
    rw [htail, List.range'_append_1]
    congr 1
    omega
  have hleft := frame_update_of_ne bits m hw hk sel (i := i) (j := k)
    (by omega) fun x _ hx => by omega
  have hright := frame_update_of_ne bits m hw hk sel (i := k + 1) (j := j)
    hj fun x hx _ => by omega
  rw [frame] at hleft hright
  rw [frame, hsplit, parity_append, parity, hleft, hright, bitOf, Function.update_self,
    Option.elim_some, Bool.xor_comm (sel m), Bool.xor_assoc]

/-- A repeater measures: the segments on its two sides become one. -/
theorem Quantum.swap (h : Quantum w s b hop bits false v) (hw : Distinct w s)
    (hk : k + 2 < s.path.length) (hnone : bits (nodeAt w s (k + 1)) = none) {g g' : Hop}
    (hg : hop k = some g) (harr : g.stage = .arrived) (hg' : hop (k + 1) = some g')
    (drawA drawB : Bool) :
    ∃ (m1 m2 : Bool) (v' : QStateRegistry),
      v.measureBell (nodeAt w s (k + 1)) g.sent g'.kept drawA drawB =
        (.ok (m1.toNat, m2.toNat), v') ∧
      Quantum w s b hop (Function.update bits (nodeAt w s (k + 1)) (some (m1, m2))) false
        v' := by
  -- the segments that meet
  obtain ⟨i₀, hleft⟩ := h.exists_left hw (by omega) hnone
  obtain ⟨j₀, hright⟩ := h.exists_right hw hk hnone
  obtain ⟨p, hp⟩ := Option.isSome_iff_exists.mp (h.hop_left hleft (by rw [hg]; rfl))
  obtain ⟨q, hq⟩ := Option.isSome_iff_exists.mp (h.hop_right hright (by rw [hg']; rfl))
  have hgroup₁ := h.segments i₀ k p g hleft hp hg
  have hgroup₂ := h.segments (k + 1) j₀ g' q hright hg' hq
  simp only [Bool.not_false, Bool.true_and] at hgroup₁ hgroup₂
  have hle₁ := hleft.le
  have hle₂ := hright.le
  have hnodup : [p.kept, g.sent, g'.kept, q.sent].Nodup := by
    have h₁ := h.apart i₀ k p g hp hg
    have h₂ := h.apart i₀ (k + 1) p g' hp hg'
    have h₃ := h.apart i₀ j₀ p q hp hq
    have h₄ := h.apart (k + 1) k g' g hg' hg
    have h₅ := h.apart k j₀ g q hg hq
    have h₆ := h.apart (k + 1) j₀ g' q hg' hq
    have hpg' : p.kept ≠ g'.kept := fun he => by have := h₂.2.1 he; omega
    have hgq : g.sent ≠ q.sent := fun he => by have := h₅.2.2 he; omega
    simp only [List.nodup_cons, List.nodup_nil, List.mem_cons, List.not_mem_nil, not_or,
      or_false, not_false_eq_true, and_true]
    exact ⟨⟨h₁.1, hpg', h₃.1⟩, ⟨h₄.1.symm, hgq⟩, h₆.1⟩
  have hlocal : ∀ x ∈ [g.sent, g'.kept], v.IsLocal (nodeAt w s (k + 1)) x := by
    intro x hx
    rcases List.mem_pair.mp hx with rfl | rfl
    · exact h.arrived k g hg harr hnone
    · exact h.kept (k + 1) g' hg' hnone
  obtain ⟨m1, m2, v', hcall, hkeeps, hback, hjoined⟩ :=
    h.inv.measureBell_pairs h.backend hgroup₁ hgroup₂ hnodup hlocal drawA drawB
  refine ⟨m1, m2, v', hcall, ?_⟩
  have hat := fun x (hx : x < s.path.length) => update_nodeAt bits (m1, m2) hw hk hx
  have hloc : ∀ x < v.numHandles, x ≠ g.sent → x ≠ g'.kept →
      v'.getLocation x = v.getLocation x := by
    intro x hx hne hne'
    refine hkeeps.confined.locations x hx fun hmem => ?_
    rcases List.mem_pair.mp hmem with he | he
    · exact hne he
    · exact hne' he
  have hnone' : ∀ {n}, Function.update bits (nodeAt w s (k + 1)) (some (m1, m2)) n = none →
      n ≠ nodeAt w s (k + 1) ∧ bits n = none := by
    intro n hn
    by_cases hne : n = nodeAt w s (k + 1)
    · rw [hne, Function.update_self] at hn
      cases hn
    · rw [Function.update_of_ne hne] at hn
      exact ⟨hne, hn⟩
  have hgrow := hkeeps.keeps.evolves.handles
  refine { inv := hkeeps.keeps.inv, backend := hback
           lt := fun i x hx => (h.lt i x hx).imp (·.trans_le hgrow) (·.trans_le hgrow)
           apart := h.apart, kept := fun i x hx hb => ?_, flying := fun i x hx hfly => ?_
           arrived := fun i x hx ha hb => ?_, repeaters := fun n hn => ?_
           links := fun i hi hb => ?_, segments := fun i j x y hjoin hx hy => ?_ }
  · obtain ⟨hne, hb⟩ := hnone' hb
    have hkept : x.kept ≠ g'.kept := fun he =>
      hne (congrArg (nodeAt w s) ((h.apart i (k + 1) x g' hx hg').2.1 he))
    exact (hloc _ (h.lt i x hx).1 (h.apart i k x g hx hg).1 hkept).trans (h.kept i x hx hb)
  · have hsent : x.sent ≠ g.sent := by
      intro he
      obtain rfl := (h.apart i k x g hx hg).2.2 he
      obtain rfl := Option.some.inj (hx.symm.trans hg)
      rw [hfly] at harr
      cases harr
    rw [hloc _ (h.lt i x hx).2 hsent (h.apart (k + 1) i g' x hg' hx).1.symm]
    exact h.flying i x hx hfly
  · obtain ⟨hne, hb⟩ := hnone' hb
    have hsent : x.sent ≠ g.sent := by
      intro he
      obtain rfl := (h.apart i k x g hx hg).2.2 he
      exact hne rfl
    exact (hloc _ (h.lt i x hx).2 hsent (h.apart (k + 1) i g' x hg' hx).1.symm).trans
      (h.arrived i x hx ha hb)
  · by_cases hne : n = nodeAt w s (k + 1)
    · exact ⟨k + 1, Nat.succ_pos k, hk, hne⟩
    · rw [Function.update_of_ne hne] at hn
      exact h.repeaters n hn
  · rw [hat (i + 1) (by omega)] at hb
    split_ifs at hb with hik
    · obtain rfl : i = k := by omega
      exact ⟨⟨g, hg, harr⟩, by rw [hg']; rfl⟩
    · exact h.links i hi hb
  · have hlt := hjoin.lt
    simp only [Bool.not_false, Bool.true_and]
    rcases hjoin.of_update hw hk hnone with ⟨hik, hkj⟩ | ⟨hold, hi, hj, hout⟩
    · obtain rfl := hik.left_unique hleft
      obtain rfl := hkj.right_unique hright
      obtain rfl := Option.some.inj (hx.symm.trans hp)
      obtain rfl := Option.some.inj (hy.symm.trans hq)
      rw [frame_join hw hk Prod.fst hik.le hkj.le (by omega),
        frame_join hw hk Prod.snd hik.le hkj.le (by omega)]
      exact hjoined
    · rw [frame_update_of_ne _ _ hw hk Prod.fst (by omega) hout,
        frame_update_of_ne _ _ hw hk Prod.snd (by omega) hout]
      have hseg := h.segments i j x y hold hx hy
      simp only [Bool.not_false, Bool.true_and] at hseg
      refine hseg.keeps h.inv hkeeps fun z hz => ?_
      rw [Finset.mem_insert, Finset.mem_singleton, not_or]
      rcases List.mem_pair.mp hz with rfl | rfl
      · exact ⟨(h.apart i k x g hx hg).1.symm,
          fun he => hj ((h.apart k j g y hg hy).2.2 he).symm⟩
      · exact ⟨fun he => hi ((h.apart (k + 1) i g' x hg' hx).2.1 he).symm,
          (h.apart (k + 1) j g' y hg' hy).1⟩

end Meet

end Q2NS.Swap
