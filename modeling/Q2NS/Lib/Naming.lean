import Q2NS.Lib.Density

/-!
# Legs named by a list

A tensor on numbered legs is read on a set of names through a list: leg `i` is
the `i`-th name, and legs beyond the end of the list hold the default value.
Products of such tensors over disjoint lists are states of several registers.
-/

namespace Q2NS.NamedTensor

open Finset

variable {ι β : Type*} [Inhabited β] {k : ℕ}

/-- The values of the names in `l`, in order. -/
def named (l : List ι) (z : ι → β) : ℕ → β := fun i => (l[i]?.map z).getD default

theorem named_of_lt {l : List ι} {i : ℕ} (hi : i < l.length) (z : ι → β) :
    named l z i = z l[i] := by
  rw [named, List.getElem?_eq_getElem hi]
  rfl

theorem named_of_le {l : List ι} {i : ℕ} (hi : l.length ≤ i) (z : ι → β) :
    named l z i = default := by
  rw [named, List.getElem?_eq_none hi]
  rfl

theorem named_congr {l : List ι} {z z' : ι → β} (h : ∀ q ∈ l, z q = z' q) :
    named l z = named l z' := by
  funext i
  by_cases hi : i < l.length
  · rw [named_of_lt hi, named_of_lt hi]
    exact h _ (List.getElem_mem hi)
  · rw [named_of_le (not_lt.mp hi), named_of_le (not_lt.mp hi)]

theorem named_append_left {l l' : List ι} {i : ℕ} (hi : i < l.length)
    (z : ι → β) : named (l ++ l') z i = named l z i := by
  rw [named, named, List.getElem?_append_left hi]

theorem named_append_right (l l' : List ι) (i : ℕ) (z : ι → β) :
    named (l ++ l') z (l.length + i) = named l' z i := by
  rw [named, named, List.getElem?_append_right (Nat.le_add_right _ _),
    Nat.add_sub_cancel_left]

/-- A tensor on the legs of `l` does not read what is appended. -/
theorem apply_named_append {Φ : (ℕ → β) → ℂ} {l l' : List ι}
    (h : DependsOn Φ (Set.Iio l.length)) (z : ι → β) :
    Φ (named (l ++ l') z) = Φ (named l z) :=
  h fun _ hi => named_append_left hi z

/-- Changing names at positions `t` changes the legs `t`. -/
theorem named_patch {l : List ι} (hd : l.Nodup) {t : Fin k → ℕ}
    (ht : Function.Injective t) {names : Fin k → ι}
    (hnames : ∀ a, l[t a]? = some (names a)) (w : Fin k → β) (z : ι → β) :
    named l (patch names w z) = patch t w (named l z) := by
  have hlt : ∀ a, t a < l.length := fun a =>
    (List.getElem?_eq_some_iff.mp (hnames a)).1
  have hget : ∀ a (_ : t a < l.length), l[t a] = names a := fun a _ =>
    (List.getElem?_eq_some_iff.mp (hnames a)).2
  have hinj : Function.Injective names := by
    intro a b hab
    refine ht ((@List.Nodup.getElem_inj_iff _ _ hd _ (hlt a) _ (hlt b)).mp ?_)
    rw [hget, hget, hab]
  funext i
  by_cases hex : ∃ a, t a = i
  · obtain ⟨a, rfl⟩ := hex
    rw [patch_apply ht, named_of_lt (hlt a), hget, patch_apply hinj]
  · have hno : ∀ a, t a ≠ i := fun a ha => hex ⟨a, ha⟩
    rw [patch_other hno]
    by_cases hi : i < l.length
    · rw [named_of_lt hi, named_of_lt hi, patch_other]
      intro a ha
      rw [← hget a (hlt a)] at ha
      exact hno a (hd.getElem_inj_iff.mp ha)
    · rw [named_of_le (not_lt.mp hi), named_of_le (not_lt.mp hi)]

/-- Acting on names is acting on their legs. -/
theorem actOn_named [Fintype β] {K : (Fin k → β) → (Fin k → β) → ℂ}
    (Φ : (ℕ → β) → ℂ) {l : List ι} (hd : l.Nodup) {t : Fin k → ℕ}
    (ht : Function.Injective t) {names : Fin k → ι}
    (hnames : ∀ a, l[t a]? = some (names a)) (z : ι → β) :
    actOn K names (fun z => Φ (named l z)) z = actOn K t Φ (named l z) := by
  refine sum_congr rfl fun w _ => ?_
  have hcomp : z ∘ names = named l z ∘ t := by
    funext a
    rw [Function.comp_apply, Function.comp_apply, named, hnames]
    rfl
  dsimp only
  rw [named_patch hd ht hnames, hcomp]

/-- Setting one name, seen from the list without it. -/
theorem named_update [DecidableEq ι] {l : List ι} (hd : l.Nodup) {i : ℕ}
    {q : ι} (hq : l[i]? = some q) (z : ι → β) (b : β) :
    named l (Function.update z q b) = insertLeg i b (named (l.erase q) z) := by
  obtain ⟨hi, rfl⟩ := List.getElem?_eq_some_iff.mp hq
  have herase : l.erase l[i] = l.eraseIdx i := hd.erase_getElem i hi
  have hother : ∀ {j} (hj : j < l.length), j ≠ i →
      Function.update z l[i] b l[j] = z l[j] := fun hj hne =>
    Function.update_of_ne (fun he => hne (hd.getElem_inj_iff.mp he)) _ _
  rw [herase]
  funext j
  by_cases hj : j < l.length
  · rw [named_of_lt hj]
    by_cases hji : j = i
    · subst hji
      rw [Function.update_self, insertLeg_self]
    · rw [hother hj hji, insertLeg]
      split_ifs with hlt
      · rw [named, List.getElem?_eraseIdx_of_lt hlt, List.getElem?_eq_getElem hj]
        rfl
      · have hge : i ≤ j - 1 := by omega
        have hsucc : j - 1 + 1 = j := by omega
        rw [named, List.getElem?_eraseIdx_of_ge hge, hsucc,
          List.getElem?_eq_getElem hj]
        rfl
  · have hlen := List.length_eraseIdx_of_lt hi
    rw [named_of_le (not_lt.mp hj), insertLeg, if_neg (by omega),
      if_neg (by omega), named_of_le (by omega)]

/-- Projecting the leg of a name. -/
theorem contract_named [DecidableEq ι] {γ : Type*} [Inhabited γ] [Fintype γ]
    (v : γ → ℂ) (Φ : (ℕ → γ × γ) → ℂ) {l : List ι} (hd : l.Nodup) {i : ℕ}
    {q : ι} (hq : l[i]? = some q) (z : ι → γ × γ) :
    contract (outer v) q (fun z => Φ (named l z)) z =
      compress v i Φ (named (l.erase q) z) :=
  sum_congr rfl fun b _ =>
    congrArg (fun y => outer v b * Φ y) (named_update hd hq z b)

theorem rowOf_named {γ : Type*} [Inhabited γ] (l : List ι) (z : ι → γ × γ) :
    rowOf (named l z) = named l (rowOf z) := by
  funext i
  cases hi : l[i]? <;> simp only [rowOf, named, hi, Option.map_none, Option.map_some] <;> rfl

theorem colOf_named {γ : Type*} [Inhabited γ] (l : List ι) (z : ι → γ × γ) :
    colOf (named l z) = named l (colOf z) := by
  funext i
  cases hi : l[i]? <;> simp only [colOf, named, hi, Option.map_none, Option.map_some] <;> rfl

end Q2NS.NamedTensor
