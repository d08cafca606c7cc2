import Mathlib.Data.List.InsertIdx
import Mathlib.Data.List.Nodup
import Mathlib.Data.List.Perm.Basic

/-!
# Items in flight

A list of items that are on their way; any of them may be the next to be taken out.
-/

namespace Q2NS.InFlight

variable {α : Type*} {l : List α} {k : ℕ} {x y : α}

/-- The other items stay. -/
theorem mem_eraseIdx_of_ne (hk : l[k]? = some y) (hne : x ≠ y) :
    x ∈ l.eraseIdx k ↔ x ∈ l := by
  rw [List.mem_eraseIdx_iff_getElem?]
  constructor
  · rintro ⟨i, -, hi⟩
    exact List.mem_of_getElem? hi
  · intro hx
    obtain ⟨i, hi⟩ := List.mem_iff_getElem?.mp hx
    refine ⟨i, ?_, hi⟩
    rintro rfl
    exact hne (Option.some.inj (hi.symm.trans hk))

/-- An item that is there once is gone. -/
theorem notMem_eraseIdx (hl : l.Nodup) (hk : l[k]? = some y) : y ∉ l.eraseIdx k := by
  rw [List.mem_eraseIdx_iff_getElem?]
  rintro ⟨i, hne, hi⟩
  have hlt := (List.getElem?_eq_some_iff.mp hi).1
  exact hne ((List.getElem?_inj hlt hl).mp (hi.trans hk.symm))

/-- The item that is taken out and the rest are all the items. -/
theorem cons_eraseIdx_perm (hk : l[k]? = some y) : (y :: l.eraseIdx k).Perm l := by
  obtain ⟨hlt, rfl⟩ := List.getElem?_eq_some_iff.mp hk
  exact List.getElem_cons_eraseIdx_perm hlt

/-- The rest differ from the item that is taken out in what tells the items apart. -/
theorem ne_of_mem_eraseIdx {β : Type*} {f : α → β} (hl : (l.map f).Nodup)
    (hk : l[k]? = some y) (hx : x ∈ l.eraseIdx k) : f x ≠ f y := by
  have hperm := (cons_eraseIdx_perm hk).map f
  rw [List.map_cons] at hperm
  have hnew := (List.nodup_cons.mp (hperm.nodup_iff.mpr hl)).1
  exact fun he => hnew (he ▸ List.mem_map_of_mem hx)

end Q2NS.InFlight
