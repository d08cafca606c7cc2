import Mathlib.Data.List.Basic
import Mathlib.Order.Lattice

/-!
# Maps in the order of their keys

A map is the list of its entries in the order of the keys, as a loop over it meets
them.
-/

namespace Q2NS.OrderedMap

variable {κ β : Type} [LinearOrder κ]

/-- The value of a key is set. -/
def insert (k : κ) (v : β) : List (κ × β) → List (κ × β)
  | [] => [(k, v)]
  | e :: m =>
      if k < e.1 then (k, v) :: e :: m
      else if k = e.1 then (k, v) :: m
      else e :: insert k v m

/-- The value of a key, which is created if it is missing, is changed. -/
def modify [Inhabited β] (k : κ) (f : β → β) (m : List (κ × β)) : List (κ × β) :=
  insert k (f ((m.lookup k).getD default)) m

theorem lookup_cons (k : κ) (e : κ × β) (m : List (κ × β)) :
    (e :: m).lookup k = if k = e.1 then some e.2 else m.lookup k := by
  rw [List.lookup_cons]
  by_cases hk : k = e.1
  · rw [if_pos hk, hk, beq_self_eq_true]
  · rw [if_neg hk, beq_eq_false_iff_ne.mpr hk]

theorem lookup_insert (k : κ) (v : β) (m : List (κ × β)) (k' : κ) :
    (insert k v m).lookup k' = if k' = k then some v else m.lookup k' := by
  induction m with
  | nil => rw [insert, lookup_cons]
  | cons e m ih =>
      rw [insert]
      by_cases hlt : k < e.1
      · rw [if_pos hlt, lookup_cons]
      · by_cases heq : k = e.1
        · rw [if_neg hlt, if_pos heq, lookup_cons, lookup_cons]
          split_ifs with hk hk'
          · rfl
          · exact absurd (hk'.trans heq.symm) hk
          · rfl
        · rw [if_neg hlt, if_neg heq, lookup_cons, ih, lookup_cons]
          split_ifs with he hk
          · exact absurd (hk.symm.trans he) heq
          · rfl
          · rfl
          · rfl

theorem lookup_modify [Inhabited β] (k : κ) (f : β → β) (m : List (κ × β)) (k' : κ) :
    (modify k f m).lookup k' =
      if k' = k then some (f ((m.lookup k).getD default)) else m.lookup k' :=
  lookup_insert ..

/-- A key has a value exactly when it is met. -/
theorem lookup_isSome {m : List (κ × β)} {k : κ} :
    (m.lookup k).isSome ↔ k ∈ m.map Prod.fst := by
  rw [List.lookup_isSome_iff, List.mem_map]
  simp only [beq_iff_eq]
  exact exists_congr fun e => and_congr_right fun _ => eq_comm

theorem mem_of_lookup {m : List (κ × β)} {k : κ} {v : β} (h : m.lookup k = some v) :
    (k, v) ∈ m := by
  obtain ⟨m₁, m₂, rfl, -⟩ := List.lookup_eq_some_iff.mp h
  exact List.mem_append_right _ List.mem_cons_self

/-! ## Grouping -/

/-- Pairs are grouped by their first component. -/
def collect {γ : Type} (ps : List (κ × γ)) (m : List (κ × List γ)) : List (κ × List γ) :=
  ps.foldl (fun m p => modify p.1 (· ++ [p.2]) m) m

variable {γ : Type} {ps : List (κ × γ)} {m : List (κ × List γ)}

theorem collect_append (ps qs : List (κ × γ)) (m : List (κ × List γ)) :
    collect (ps ++ qs) m = collect qs (collect ps m) := List.foldl_append

theorem mem_collect {k : κ} {x : γ} : x ∈ ((collect ps m).lookup k).getD [] ↔
    x ∈ (m.lookup k).getD [] ∨ (k, x) ∈ ps := by
  induction ps generalizing m with
  | nil => exact (or_iff_left List.not_mem_nil).symm
  | cons p ps ih =>
      rw [collect, List.foldl_cons, ← collect, ih, lookup_modify, List.mem_cons]
      split_ifs with hk
      · rw [hk, Option.getD_some, List.mem_append, List.mem_singleton, or_assoc]
        have hp : x = p.2 ↔ (p.1, x) = p := by
          rw [Prod.ext_iff]
          exact (and_iff_right rfl).symm
        rw [hp]
        rfl
      · have hp : (k, x) ≠ p := fun he => hk (congrArg Prod.fst he)
        rw [or_iff_right hp]

theorem mem_collect_nil {k : κ} {x : γ} :
    x ∈ ((collect ps []).lookup k).getD [] ↔ (k, x) ∈ ps :=
  mem_collect.trans (or_iff_right List.not_mem_nil)

theorem mem_of_insert {β : Type} {k : κ} {v : β} {m : List (κ × β)} {e : κ × β}
    (h : e ∈ insert k v m) : e = (k, v) ∨ e ∈ m := by
  induction m with
  | nil => exact .inl (List.mem_singleton.mp h)
  | cons e' m ih =>
      rw [insert] at h
      split_ifs at h
      · exact List.mem_cons.mp h
      · exact (List.mem_cons.mp h).imp id (List.mem_cons_of_mem _)
      · rcases List.mem_cons.mp h with h | h
        · exact .inr (h ▸ List.mem_cons_self)
        · exact (ih h).imp id (List.mem_cons_of_mem _)

theorem of_mem_collect {e : κ × List γ} {x : γ} (h : e ∈ collect ps []) (hx : x ∈ e.2) :
    (e.1, x) ∈ ps := by
  have hall : ∀ (qs : List (κ × γ)) (m : List (κ × List γ)), (∀ p ∈ qs, p ∈ ps) →
      (∀ e ∈ m, ∀ x ∈ e.2, (e.1, x) ∈ ps) → ∀ e ∈ collect qs m, ∀ x ∈ e.2, (e.1, x) ∈ ps := by
    intro qs
    induction qs with
    | nil => exact fun m _ hm => hm
    | cons p qs ih =>
        intro m hqs hm
        refine ih _ (fun q hq => hqs q (List.mem_cons_of_mem _ hq)) fun e he x hx => ?_
        rcases mem_of_insert he with rfl | he
        · rcases List.mem_append.mp hx with hx | hx
          · cases hlookup : m.lookup p.1 with
            | none =>
                rw [hlookup] at hx
                exact absurd hx List.not_mem_nil
            | some l =>
                rw [hlookup] at hx
                exact hm (p.1, l) (mem_of_lookup hlookup) x hx
          · rw [List.mem_singleton.mp hx]
            exact hqs p List.mem_cons_self
        · exact hm e he x hx
  exact hall ps [] (fun _ hp => hp) (fun _ he => absurd he List.not_mem_nil) e h x hx

end Q2NS.OrderedMap
