import Mathlib.Combinatorics.SimpleGraph.Connectivity.Connected
import Mathlib.Combinatorics.SimpleGraph.Operations

/-!
# Union and find

A forest of parents with path compression and union by rank over any type, against the
connected components of the graph of the unions.
-/

namespace Q2NS.UnionFind

/-- Parents and ranks of the elements that are there, in the order in which they came. -/
structure UF (α : Type) where
  p : α → Option α := fun _ => none
  r : α → ℕ := fun _ => 0
  keys : List α := []

namespace UF

variable {α : Type} [DecidableEq α]

/-- An element that is new is its own parent. -/
def ensure (u : UF α) (x : α) : UF α :=
  if (u.p x).isSome then u
  else { p := Function.update u.p x (some x), r := Function.update u.r x 0,
         keys := u.keys ++ [x] }

/-- `x` points to its root from now on. -/
def compress (u : UF α) (x root : α) : UF α :=
  { u with p := Function.update u.p x (some root) }

/-- The root of an element; `none` when the fuel does not suffice. -/
def find : ℕ → UF α → α → Option (α × UF α)
  | 0, _, _ => none
  | fuel + 1, u, x =>
      let u := u.ensure x
      let px := (u.p x).getD x
      if px ≠ x then (find fuel u px).map fun found => (found.1, found.2.compress x found.1)
      else some (px, u)

/-- Links two roots. -/
def link (u : UF α) (a b : α) : UF α :=
  if u.r a < u.r b then { u with p := Function.update u.p a (some b) }
  else if u.r b < u.r a then { u with p := Function.update u.p b (some a) }
  else { u with p := Function.update u.p b (some a), r := Function.update u.r a (u.r a + 1) }

/-- Merges the trees of two elements. -/
def union (fuel : ℕ) (u : UF α) (a b : α) : Option (UF α) :=
  (find fuel u a).bind fun fa => (find fuel fa.2 b).bind fun fb =>
    if fa.1 = fb.1 then some fb.2 else some (link fb.2 fa.1 fb.1)

/-- A member more for a group. -/
def push (k x : α) : List (α × List α) → List (α × List α)
  | [] => [(k, [x])]
  | g :: gs => if g.1 = k then (k, g.2 ++ [x]) :: gs else g :: push k x gs

/-- The loop over the elements that puts each into the group of its root. -/
def groupsFrom (fuel : ℕ) : List α → UF α → List (α × List α) → Option (List (α × List α))
  | [], _, g => some g
  | x :: xs, u, g => (find fuel u x).bind fun found =>
      groupsFrom fuel xs found.2 (push found.1 x g)

/-- The groups, each under its root. -/
def groups (fuel : ℕ) (u : UF α) : Option (List (α × List α)) :=
  groupsFrom fuel u.keys u []

end UF

/-! ## The invariant -/

/-- A forest whose roots are given by `rep`, with ranks up to `R`. -/
structure Inv {α : Type} (u : UF α) (rep : α → α) (R : ℕ) : Prop where
  nodup : u.keys.Nodup
  keys : ∀ x, (u.p x).isSome ↔ x ∈ u.keys
  absent : ∀ x, x ∉ u.keys → rep x = x ∧ u.r x = 0
  parent : ∀ x y, u.p x = some y → rep y = rep x ∧ y ∈ u.keys ∧ (y ≠ x → u.r x < u.r y)
  root : ∀ x, u.p x = some x → rep x = x
  idem : ∀ x, rep (rep x) = rep x
  mem : ∀ x ∈ u.keys, rep x ∈ u.keys
  rank : ∀ x, rep x ≠ x → u.r x < u.r (rep x)
  bound : ∀ x, u.r x ≤ R

theorem inv_empty {α : Type} : Inv ({} : UF α) id 0 where
  nodup := List.nodup_nil
  keys := fun _ => ⟨fun h => absurd h (by simp), fun h => absurd h List.not_mem_nil⟩
  absent := fun _ _ => ⟨rfl, rfl⟩
  parent := fun _ _ h => absurd h (by simp)
  root := fun _ _ => rfl
  idem := fun _ => rfl
  mem := fun _ h => h
  rank := fun _ h => absurd rfl h
  bound := fun _ => le_rfl

section Forest

variable {α : Type} [DecidableEq α] {u : UF α} {rep : α → α} {R : ℕ} {x : α}

/-- A tree with a key has keys only. -/
theorem Inv.mem_of_rep_eq (h : Inv u rep R) {y : α} (hy : y ∈ u.keys) (hxy : rep x = rep y) :
    x ∈ u.keys := by
  by_contra hx
  rw [(h.absent x hx).1] at hxy
  exact hx (hxy ▸ h.mem y hy)

/-- What is not a key is a tree by itself. -/
theorem Inv.eq_of_rep_eq (h : Inv u rep R) {y : α} (hx : x ∉ u.keys) (hyx : rep y = rep x) :
    y = x := by
  have hy : y ∉ u.keys := fun hy => hx (h.mem_of_rep_eq hy hyx.symm)
  rwa [(h.absent y hy).1, (h.absent x hx).1] at hyx

theorem ensure_of_isSome (hx : (u.p x).isSome) : u.ensure x = u := if_pos hx

theorem p_ensure (hx : ¬ (u.p x).isSome) (y : α) :
    (u.ensure x).p y = if y = x then some x else u.p y := by
  rw [UF.ensure, if_neg hx]
  exact Function.update_apply ..

theorem keys_ensure (hx : ¬ (u.p x).isSome) : (u.ensure x).keys = u.keys ++ [x] := by
  rw [UF.ensure, if_neg hx]

theorem Inv.r_ensure (h : Inv u rep R) (x : α) : (u.ensure x).r = u.r := by
  rw [UF.ensure]
  split_ifs with hx
  · rfl
  · have hr := (h.absent x fun hmem => hx ((h.keys x).mpr hmem)).2
    show Function.update u.r x 0 = u.r
    rw [← hr, Function.update_eq_self]

theorem Inv.mem_ensure (h : Inv u rep R) (x y : α) :
    y ∈ (u.ensure x).keys ↔ y ∈ u.keys ∨ y = x := by
  by_cases hx : (u.p x).isSome
  · rw [ensure_of_isSome hx]
    exact (or_iff_left_of_imp fun hy => hy ▸ (h.keys x).mp hx).symm
  · rw [keys_ensure hx, List.mem_append, List.mem_singleton]

theorem p_compress (u : UF α) (x root y : α) :
    (u.compress x root).p y = if y = x then some root else u.p y :=
  Function.update_apply ..

/-- A new element is a tree of its own. -/
theorem Inv.ensure (h : Inv u rep R) (x : α) : Inv (u.ensure x) rep R := by
  by_cases hx : (u.p x).isSome
  · rwa [ensure_of_isSome hx]
  · have hmem : x ∉ u.keys := fun hmem => hx ((h.keys x).mpr hmem)
    have hrep := (h.absent x hmem).1
    refine ⟨?_, fun y => ?_, fun y hy => ?_, fun y z hyz => ?_, fun y hy => ?_, h.idem,
      fun y hy => ?_, fun y hy => ?_, fun y => ?_⟩
    · rw [keys_ensure hx, List.nodup_append]
      refine ⟨h.nodup, List.nodup_singleton x, fun a ha b hb hab => hmem ?_⟩
      rwa [← List.mem_singleton.mp hb, ← hab]
    · rw [p_ensure hx, h.mem_ensure]
      split_ifs with hyx
      · exact ⟨fun _ => .inr hyx, fun _ => rfl⟩
      · rw [h.keys]
        exact (or_iff_left hyx).symm
    · rw [h.mem_ensure, not_or] at hy
      rw [h.r_ensure]
      exact h.absent y hy.1
    · rw [h.mem_ensure, h.r_ensure]
      rw [p_ensure hx] at hyz
      split_ifs at hyz with hyx
      · obtain rfl := Option.some.inj hyz
        exact ⟨hyx ▸ rfl, .inr rfl, fun hne => absurd hyx.symm hne⟩
      · obtain ⟨hrep', hz, hrank⟩ := h.parent y z hyz
        exact ⟨hrep', .inl hz, hrank⟩
    · rw [p_ensure hx] at hy
      split_ifs at hy with hyx
      · exact hyx ▸ hrep
      · exact h.root y hy
    · rw [h.mem_ensure] at hy ⊢
      rcases hy with hy | rfl
      · exact .inl (h.mem y hy)
      · exact .inr hrep
    · rw [h.r_ensure]
      exact h.rank y hy
    · rw [h.r_ensure]
      exact h.bound y

/-- Compression keeps the roots. -/
theorem Inv.compress (h : Inv u rep R) (hx : x ∈ u.keys) :
    Inv (u.compress x (rep x)) rep R := by
  refine ⟨h.nodup, fun y => ?_, h.absent, fun y z hyz => ?_, fun y hy => ?_, h.idem, h.mem,
    h.rank, h.bound⟩
  · rw [p_compress]
    split_ifs with hyx
    · exact ⟨fun _ => hyx ▸ hx, fun _ => rfl⟩
    · exact h.keys y
  · rw [p_compress] at hyz
    split_ifs at hyz with hyx
    · obtain rfl := Option.some.inj hyz
      subst hyx
      exact ⟨h.idem y, h.mem y hx, h.rank y⟩
    · exact h.parent y z hyz
  · rw [p_compress] at hy
    split_ifs at hy with hyx
    · rw [hyx]
      exact (Option.some.inj hy).trans hyx
    · exact h.root y hy

/-- `find` finds the root; the ranks go up along the parents. -/
theorem Inv.find (h : Inv u rep R) {fuel : ℕ} (hfuel : R < fuel + u.r x) :
    ∃ u', UF.find fuel u x = some (rep x, u') ∧ Inv u' rep R ∧
      u'.keys = (u.ensure x).keys := by
  induction fuel generalizing u x with
  | zero =>
      have hbound := h.bound x
      omega
  | succ fuel ih =>
      have hens := h.ensure x
      have hx : x ∈ (u.ensure x).keys := (h.mem_ensure x x).mpr (.inr rfl)
      obtain ⟨px, hpx⟩ := Option.isSome_iff_exists.mp ((hens.keys x).mpr hx)
      obtain ⟨hrep, hmem, hrank⟩ := hens.parent x px hpx
      rw [UF.find]
      simp only [hpx, Option.getD_some]
      split_ifs with hne
      · have hlt := hrank hne
        rw [h.r_ensure] at hlt
        obtain ⟨u', hfind, hinv, hkeys⟩ := ih hens (x := px) (by rw [h.r_ensure]; omega)
        rw [ensure_of_isSome ((hens.keys px).mpr hmem)] at hkeys
        refine ⟨u'.compress x (rep x), ?_, hinv.compress (hkeys ▸ hx), hkeys⟩
        rw [hfind, Option.map_some, hrep]
      · rw [not_not] at hne
        exact ⟨_, by rw [hens.root x (hne ▸ hpx), hne], hens, rfl⟩

/-! ## Unions -/

/-- The parent of a root is the root itself. -/
theorem Inv.parent_root (h : Inv u rep R) {y : α} (hroot : rep x = x)
    (hxy : u.p x = some y) : y = x := by
  by_contra hne
  obtain ⟨hrep, -, hrank⟩ := h.parent x y hxy
  have hback := h.rank y (by rw [hrep, hroot]; exact Ne.symm hne)
  rw [hrep, hroot] at hback
  exact absurd (hrank hne) hback.asymm

/-- The root `lose` hangs below the root `win` from now on, whose rank may go up. -/
theorem Inv.hang (h : Inv u rep R) {lose win : α} {r : α → ℕ} (hlose : lose ∈ u.keys)
    (hwin : win ∈ u.keys) (hrl : rep lose = lose) (hrw : rep win = win) (hne : lose ≠ win)
    (hr : ∀ z, z ≠ win → r z = u.r z) (hgrow : u.r win ≤ r win) (hbound : r win ≤ R + 1)
    (hlt : r lose < r win) : ∃ rep',
      Inv { u with p := Function.update u.p lose (some win), r := r } rep' (R + 1) ∧
        ∀ x y, rep' x = rep' y ↔ rep x = rep y ∨ rep x = lose ∧ rep y = win ∨
          rep x = win ∧ rep y = lose := by
  have hle : ∀ z, u.r z ≤ r z := by
    intro z
    by_cases hz : z = win
    · exact hz ▸ hgrow
    · exact (hr z hz).ge
  have hmono : ∀ {y z : α}, u.r y < u.r z → y ≠ win → r y < r z := by
    intro y z hyz hy
    rw [hr y hy]
    exact hyz.trans_le (hle z)
  have hp : ∀ y, (Function.update u.p lose (some win)) y =
      if y = lose then some win else u.p y := fun y => Function.update_apply ..
  refine ⟨fun z => if rep z = lose then win else rep z, ⟨h.nodup, fun y => ?_, fun y hy => ?_,
    fun y z hyz => ?_, fun y hy => ?_, fun y => ?_, fun y hy => ?_, fun y hy => ?_,
    fun y => ?_⟩, fun x y => ?_⟩
  · show ((Function.update u.p lose (some win)) y).isSome ↔ y ∈ u.keys
    rw [hp]
    split_ifs with hyl
    · exact ⟨fun _ => hyl ▸ hlose, fun _ => rfl⟩
    · exact h.keys y
  · obtain ⟨hrep, hzero⟩ := h.absent y hy
    have hyl : y ≠ lose := fun he => hy (he ▸ hlose)
    have hyw : y ≠ win := fun he => hy (he ▸ hwin)
    refine ⟨?_, (hr y hyw).trans hzero⟩
    rw [hrep, if_neg hyl]
  · have hyz' : (Function.update u.p lose (some win)) y = some z := hyz
    rw [hp] at hyz'
    split_ifs at hyz' with hyl
    · obtain rfl := Option.some.inj hyz'
      subst hyl
      exact ⟨by rw [hrl, hrw, if_pos rfl, if_neg hne.symm], hwin, fun _ => hlt⟩
    · obtain ⟨hrep, hz, hrank⟩ := h.parent y z hyz'
      refine ⟨by rw [hrep], hz, fun hzy => hmono (hrank hzy) ?_⟩
      rintro rfl
      exact hzy (h.parent_root hrw hyz')
  · have hy : (Function.update u.p lose (some win)) y = some y := hy
    rw [hp] at hy
    split_ifs at hy with hyl
    · exact absurd ((Option.some.inj hy).trans hyl).symm hne
    · rw [h.root y hy, if_neg hyl]
  · by_cases hyl : rep y = lose
    · simp only [if_pos hyl, hrw, if_neg hne.symm]
    · simp only [if_neg hyl, h.idem]
  · show (if rep y = lose then win else rep y) ∈ u.keys
    split_ifs
    · exact hwin
    · exact h.mem y hy
  · show r y < r (if rep y = lose then win else rep y)
    have hy' : (if rep y = lose then win else rep y) ≠ y := hy
    split_ifs at hy' ⊢ with hyl
    · by_cases heq : y = lose
      · exact heq ▸ hlt
      · have hrank := h.rank y (by rw [hyl]; exact Ne.symm heq)
        rw [hyl] at hrank
        exact (hmono hrank hy'.symm).trans hlt
    · refine hmono (h.rank y hy') ?_
      rintro rfl
      exact hy' hrw
  · show r y ≤ R + 1
    by_cases hyw : y = win
    · exact hyw ▸ hbound
    · rw [hr y hyw]
      exact (h.bound y).trans (Nat.le_succ R)
  · show (if rep x = lose then win else rep x) = (if rep y = lose then win else rep y) ↔ _
    split_ifs with hx hy hy
    · exact ⟨fun _ => .inl (hx.trans hy.symm), fun _ => rfl⟩
    · rw [hx]
      grind
    · rw [hy]
      grind
    · grind

/-- Two roots become one; the ranks go up to `R + 1` when theirs are equal. -/
theorem Inv.link (h : Inv u rep R) {a b : α} (ha : a ∈ u.keys) (hb : b ∈ u.keys)
    (hra : rep a = a) (hrb : rep b = b) (hne : a ≠ b) : ∃ rep',
      Inv (UF.link u a b) rep' (R + 1) ∧ ∀ x y, rep' x = rep' y ↔ rep x = rep y ∨
        rep x = a ∧ rep y = b ∨ rep x = b ∧ rep y = a := by
  rw [UF.link]
  split_ifs with hab hba
  · exact h.hang ha hb hra hrb hne (fun _ _ => rfl) le_rfl
      ((h.bound b).trans (Nat.le_succ R)) hab
  · obtain ⟨rep', hinv, hrep'⟩ := h.hang hb ha hrb hra hne.symm (fun _ _ => rfl) le_rfl
      ((h.bound a).trans (Nat.le_succ R)) hba
    exact ⟨rep', hinv, fun x y => (hrep' x y).trans (or_congr_right or_comm)⟩
  · obtain ⟨rep', hinv, hrep'⟩ := h.hang (r := Function.update u.r a (u.r a + 1)) hb ha hrb hra
      hne.symm (fun z hz => Function.update_of_ne hz ..)
      (by rw [Function.update_self]; exact Nat.le_succ _)
      (by rw [Function.update_self]; exact Nat.succ_le_succ (h.bound a))
      (by rw [Function.update_self, Function.update_of_ne hne.symm]; omega)
    exact ⟨rep', hinv, fun x y => (hrep' x y).trans (or_congr_right or_comm)⟩

/-- What a union merges. -/
theorem Inv.union (h : Inv u rep R) {fuel : ℕ} (hfuel : R < fuel) (a b : α) : ∃ u' rep',
    UF.union fuel u a b = some u' ∧ Inv u' rep' (R + 1) ∧
      (∀ x, x ∈ u'.keys ↔ x ∈ u.keys ∨ x = a ∨ x = b) ∧
      ∀ x y, rep' x = rep' y ↔ rep x = rep y ∨ rep x = rep a ∧ rep y = rep b ∨
        rep x = rep b ∧ rep y = rep a := by
  obtain ⟨ua, hfa, ha, hka⟩ := h.find (x := a) (hfuel.trans_le (Nat.le_add_right _ _))
  obtain ⟨ub, hfb, hb, hkb⟩ := ha.find (x := b) (hfuel.trans_le (Nat.le_add_right _ _))
  have hkeys : ∀ x, x ∈ ub.keys ↔ x ∈ u.keys ∨ x = a ∨ x = b := by
    intro x
    rw [hkb, ha.mem_ensure, hka, h.mem_ensure, or_assoc]
  rw [UF.union, hfa, Option.bind_some, hfb, Option.bind_some]
  by_cases heq : rep a = rep b
  · simp only [if_pos heq]
    refine ⟨ub, rep, rfl, ⟨hb.nodup, hb.keys, hb.absent, hb.parent, hb.root, hb.idem, hb.mem,
      hb.rank, fun x => (hb.bound x).trans (Nat.le_succ R)⟩, hkeys, fun x y => ?_⟩
    rw [heq]
    grind
  · simp only [if_neg heq]
    obtain ⟨rep', hinv, hrep'⟩ := hb.link (hb.mem a ((hkeys a).mpr (.inr (.inl rfl))))
      (hb.mem b ((hkeys b).mpr (.inr (.inr rfl)))) (hb.idem a) (hb.idem b) heq
    refine ⟨_, rep', rfl, hinv, fun x => ?_, hrep'⟩
    rw [← hkeys, UF.link]
    split_ifs <;> rfl

/-! ## Groups -/

theorem keys_push (k x : α) (g : List (α × List α)) :
    (UF.push k x g).map Prod.fst =
      if k ∈ g.map Prod.fst then g.map Prod.fst else g.map Prod.fst ++ [k] := by
  induction g with
  | nil => rfl
  | cons e g ih =>
      rw [UF.push]
      by_cases hk : e.1 = k
      · rw [if_pos hk, if_pos (List.mem_map.mpr ⟨e, List.mem_cons_self, hk⟩), List.map_cons,
          List.map_cons, hk]
      · rw [if_neg hk, List.map_cons, ih, List.map_cons]
        simp only [List.mem_cons, or_iff_right (Ne.symm hk)]
        split_ifs <;> rfl

theorem mem_push {k x : α} {g : List (α × List α)} (hnodup : (g.map Prod.fst).Nodup)
    (e : α × List α) : e ∈ UF.push k x g ↔ e ∈ g ∧ e.1 ≠ k ∨
      e.1 = k ∧ ((∃ ms, (k, ms) ∈ g ∧ e.2 = ms ++ [x]) ∨
        k ∉ g.map Prod.fst ∧ e.2 = [x]) := by
  induction g with
  | nil =>
      rw [UF.push, List.mem_singleton, Prod.ext_iff]
      simp
  | cons d g ih =>
      obtain ⟨hd, hnodup⟩ := List.nodup_cons.mp hnodup
      have ih := ih hnodup
      rw [UF.push]
      by_cases hk : d.1 = k
      · have hkg : ∀ ms, (k, ms) ∉ g := fun ms hms =>
          hd (List.mem_map.mpr ⟨_, hms, hk.symm⟩)
        have hrest : ∀ c ∈ g, c.1 ≠ k := fun c hc he => hkg c.2 (he ▸ hc)
        rw [if_pos hk, List.mem_cons, List.mem_cons]
        constructor
        · rintro (rfl | he)
          · exact .inr ⟨rfl, .inl ⟨d.2, List.mem_cons.mpr (.inl (Prod.ext hk.symm rfl)), rfl⟩⟩
          · exact .inl ⟨.inr he, hrest e he⟩
        · rintro (⟨rfl | he, hne⟩ | ⟨he, ⟨ms, hms, heq⟩ | ⟨hnot, -⟩⟩)
          · exact absurd hk hne
          · exact .inr he
          · rcases List.mem_cons.mp hms with hms | hms
            · exact .inl (Prod.ext he (heq.trans (by rw [← hms])))
            · exact absurd hms (hkg ms)
          · exact absurd (List.mem_map.mpr ⟨d, List.mem_cons_self, hk⟩) hnot
      · rw [if_neg hk, List.mem_cons, ih, List.mem_cons, List.map_cons, List.mem_cons, not_or]
        have hms : ∀ ms, (k, ms) ∈ d :: g ↔ (k, ms) ∈ g := fun ms => by
          rw [List.mem_cons]
          exact or_iff_right fun he => hk (congrArg Prod.fst he).symm
        simp only [hms]
        grind

/-- The elements of a list in the groups of their roots. -/
structure Grouped (rep : α → α) (xs : List α) (g : List (α × List α)) : Prop where
  nodup : (g.map Prod.fst).Nodup
  members : ∀ e ∈ g, e.2 = xs.filter (fun x => rep x = e.1) ∧ e.2 ≠ []
  complete : ∀ x ∈ xs, rep x ∈ g.map Prod.fst

theorem Grouped.mem_iff {rep : α → α} {xs : List α} {g : List (α × List α)}
    (h : Grouped rep xs g) {e : α × List α} (he : e ∈ g) (x : α) :
    x ∈ e.2 ↔ x ∈ xs ∧ rep x = e.1 := by
  rw [(h.members e he).1, List.mem_filter, decide_eq_true_eq]

/-- Different groups have no element in common. -/
theorem Grouped.pairwise_disjoint {rep : α → α} {xs : List α} {g : List (α × List α)}
    (h : Grouped rep xs g) : g.Pairwise fun a b => a.2.Disjoint b.2 := by
  have hpair := List.pairwise_map.mp h.nodup
  refine List.Pairwise.imp_of_mem (fun {a b} ha hb hne x hxa hxb => hne ?_) hpair
  exact ((h.mem_iff ha x).mp hxa).2.symm.trans ((h.mem_iff hb x).mp hxb).2

/-- The root of a tree is in its group. -/
theorem Grouped.root_mem {u : UF α} {rep : α → α} {R : ℕ} {g : List (α × List α)}
    (h : Grouped rep u.keys g) (hu : Inv u rep R) {e : α × List α} (he : e ∈ g) :
    e.1 ∈ e.2 := by
  obtain ⟨x, hx⟩ := List.exists_mem_of_ne_nil _ (h.members e he).2
  obtain ⟨hkeys, hrep⟩ := (h.mem_iff he x).mp hx
  rw [h.mem_iff he, ← hrep]
  exact ⟨hu.mem x hkeys, hu.idem x⟩

theorem Grouped.push {rep : α → α} {xs : List α} {g : List (α × List α)}
    (h : Grouped rep xs g) (x : α) :
    Grouped rep (xs ++ [x]) (UF.push (rep x) x g) := by
  have hkeys := keys_push (rep x) x g
  refine ⟨?_, fun e he => ?_, fun y hy => ?_⟩
  · rw [hkeys]
    split_ifs with hx
    · exact h.nodup
    · rw [List.nodup_append]
      refine ⟨h.nodup, List.nodup_singleton _, fun a ha b hb hab => hx ?_⟩
      rwa [← List.mem_singleton.mp hb, ← hab]
  · rw [List.filter_append]
    obtain ⟨he, hne⟩ | ⟨hk, ⟨ms, hms, heq⟩ | ⟨hnew, heq⟩⟩ := (mem_push h.nodup e).mp he
    · rw [List.filter_singleton, decide_eq_false (Ne.symm hne), cond_false, List.append_nil]
      exact h.members e he
    · rw [List.filter_singleton, hk, decide_eq_true rfl, cond_true, heq]
      exact ⟨congrArg (· ++ [x]) (h.members _ hms).1, by simp⟩
    · have hnone : xs.filter (fun y => rep y = e.1) = [] := by
        rw [List.filter_eq_nil_iff]
        intro y hy hrep
        exact hnew ((hk ▸ of_decide_eq_true hrep) ▸ h.complete y hy)
      rw [hnone, List.filter_singleton, hk, decide_eq_true rfl, cond_true, heq]
      exact ⟨rfl, List.cons_ne_nil x []⟩
  · rw [hkeys]
    rcases List.mem_append.mp hy with hy | hy
    · split_ifs
      · exact h.complete y hy
      · exact List.mem_append_left _ (h.complete y hy)
    · rw [List.mem_singleton.mp hy]
      split_ifs with hx
      · exact hx
      · exact List.mem_append_right _ (List.mem_singleton_self _)

/-- The groups are the elements with one root each. -/
theorem Inv.groups (h : Inv u rep R) {fuel : ℕ} (hfuel : R < fuel) :
    ∃ g, UF.groups fuel u = some g ∧ Grouped rep u.keys g := by
  have hloop : ∀ (xs done : List α) (u' : UF α) (g : List (α × List α)), Inv u' rep R →
      (∀ x ∈ xs, x ∈ u'.keys) → Grouped rep done g →
        ∃ g', UF.groupsFrom fuel xs u' g = some g' ∧ Grouped rep (done ++ xs) g' := by
    intro xs
    induction xs with
    | nil => exact fun done u' g _ _ hg => ⟨g, rfl, (List.append_nil done).symm ▸ hg⟩
    | cons x xs ih =>
        intro done u' g hu' hxs hg
        obtain ⟨u'', hfind, hinv, hkeys⟩ :=
          hu'.find (x := x) (hfuel.trans_le (Nat.le_add_right _ _))
        rw [ensure_of_isSome ((hu'.keys x).mpr (hxs x List.mem_cons_self))] at hkeys
        rw [UF.groupsFrom, hfind, Option.bind_some, List.append_cons]
        exact ih _ u'' _ hinv (fun y hy => hkeys ▸ hxs y (List.mem_cons_of_mem x hy))
          (hg.push x)
  exact hloop u.keys [] u [] h (fun _ hx => hx)
    ⟨List.nodup_nil, fun _ he => absurd he List.not_mem_nil,
      fun _ hx => absurd hx List.not_mem_nil⟩

/-! ## Connected components -/

/-- A way through one more edge. -/
theorem reachable_sup_edge {V : Type*} (H : SimpleGraph V) (a b x y : V) :
    (H ⊔ SimpleGraph.edge a b).Reachable x y ↔ H.Reachable x y ∨
      H.Reachable x a ∧ H.Reachable b y ∨ H.Reachable x b ∧ H.Reachable a y := by
  constructor
  · rintro ⟨w⟩
    induction w with
    | nil => exact .inl (SimpleGraph.Reachable.refl _)
    | cons hadj _ ih =>
        rcases hadj with hold | hnew
        · exact ih.imp hold.reachable.trans (Or.imp (And.imp_left hold.reachable.trans)
            (And.imp_left hold.reachable.trans))
        · obtain ⟨⟨rfl, rfl⟩ | ⟨rfl, rfl⟩, -⟩ := (SimpleGraph.edge_adj ..).mp hnew
          · obtain h | ⟨-, h⟩ | ⟨-, h⟩ := ih
            · exact .inr (.inl ⟨.refl _, h⟩)
            · exact .inr (.inl ⟨.refl _, h⟩)
            · exact .inl h
          · obtain h | ⟨-, h⟩ | ⟨-, h⟩ := ih
            · exact .inr (.inr ⟨.refl _, h⟩)
            · exact .inl h
            · exact .inr (.inr ⟨.refl _, h⟩)
  · have hle : ∀ {u v : V}, H.Reachable u v → (H ⊔ SimpleGraph.edge a b).Reachable u v :=
      fun h => h.mono le_sup_left
    have hedge : (H ⊔ SimpleGraph.edge a b).Reachable a b := by
      by_cases hab : a = b
      · rw [hab]
      · exact SimpleGraph.Adj.reachable
          (.inr ((SimpleGraph.edge_adj ..).mpr ⟨.inl ⟨rfl, rfl⟩, hab⟩))
    rintro (h | ⟨hxa, hby⟩ | ⟨hxb, hay⟩)
    · exact hle h
    · exact ((hle hxa).trans hedge).trans (hle hby)
    · exact ((hle hxb).trans hedge.symm).trans (hle hay)

/-- An edge between connected vertices connects nothing more. -/
theorem reachable_sup_edge_of_reachable {V : Type*} {H : SimpleGraph V} {a b : V}
    (hab : H.Reachable a b) (x y : V) :
    (H ⊔ SimpleGraph.edge a b).Reachable x y ↔ H.Reachable x y := by
  rw [reachable_sup_edge]
  refine or_iff_left_of_imp ?_
  rintro (⟨hxa, hby⟩ | ⟨hxb, hay⟩)
  · exact (hxa.trans hab).trans hby
  · exact (hxb.trans hab.symm).trans hay

/-- A forest whose trees are the connected components of a graph. -/
def Represents {α : Type} (u : UF α) (H : SimpleGraph α) (R : ℕ) : Prop :=
  ∃ rep, Inv u rep R ∧ ∀ x y, rep x = rep y ↔ H.Reachable x y

/-- A union is one more edge. -/
theorem Represents.union {H : SimpleGraph α} (h : Represents u H R) {fuel : ℕ}
    (hfuel : R < fuel) (a b : α) : ∃ u', UF.union fuel u a b = some u' ∧
      Represents u' (H ⊔ SimpleGraph.edge a b) (R + 1) ∧
      ∀ x, x ∈ u'.keys ↔ x ∈ u.keys ∨ x = a ∨ x = b := by
  obtain ⟨rep, hinv, hrep⟩ := h
  obtain ⟨u', rep', hunion, hinv', hkeys, hrep'⟩ := hinv.union hfuel a b
  refine ⟨u', hunion, ⟨rep', hinv', fun x y => ?_⟩, hkeys⟩
  rw [hrep', reachable_sup_edge]
  simp only [hrep]
  exact or_congr_right (or_congr (and_congr_right fun _ => H.reachable_comm)
    (and_congr_right fun _ => H.reachable_comm))

end Forest

theorem represents_empty {α : Type} : Represents ({} : UF α) ⊥ 0 :=
  ⟨id, inv_empty, fun _ _ => SimpleGraph.reachable_bot.symm⟩

end Q2NS.UnionFind
