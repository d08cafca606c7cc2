import Mathlib.Data.List.Basic

/-!
# Loops that can fail

Rules for `List.foldlM` and `List.filterM` in `Except ε`: a loop whose body
succeeds on every state that satisfies an invariant is a pure fold.
-/

namespace Q2NS.Loop

variable {ε σ α : Type}

@[simp] theorem ok_bind {β : Type} (a : α) (f : α → Except ε β) :
    (Except.ok a >>= f) = f a := rfl

@[simp] theorem error_bind {β : Type} (e : ε) (f : α → Except ε β) :
    (Except.error e >>= f) = Except.error e := rfl

@[simp] theorem pure_eq_ok (a : α) : (pure a : Except ε α) = Except.ok a := rfl

/-- A successful bind splits into its two successful parts. -/
theorem bind_eq_ok {β : Type} {x : Except ε α} {f : α → Except ε β} {b : β} :
    x >>= f = .ok b ↔ ∃ a, x = .ok a ∧ f a = .ok b := by
  cases x with
  | error e => simp
  | ok a => simp

theorem map_eq_ok {β : Type} {f : α → β} {x : Except ε α} {b : β} :
    f <$> x = .ok b ↔ ∃ a, x = .ok a ∧ f a = b := by
  cases x with
  | error e => simp [Functor.map, Except.map]
  | ok a => simp [Functor.map, Except.map]

/-- Invariant rule: a loop whose body acts as `g` wherever `P` holds. -/
theorem foldlM_eq_ok {P : σ → Prop} {f : σ → α → Except ε σ}
    {g : σ → α → σ} {l : List α}
    (hstep : ∀ x ∈ l, ∀ s, P s → f s x = .ok (g s x) ∧ P (g s x)) :
    ∀ {s : σ}, P s →
      l.foldlM f s = .ok (l.foldl g s) ∧ P (l.foldl g s) := by
  induction l with
  | nil => exact fun hs => ⟨rfl, hs⟩
  | cons x l ih =>
      intro s hs
      obtain ⟨hx, hP⟩ := hstep x (List.mem_cons_self) s hs
      rw [List.foldlM_cons, hx]
      exact ih (fun y hy => hstep y (List.mem_cons_of_mem x hy)) hP

/-- Prefix rule: `I pre s` describes the state after the elements `pre`. -/
theorem foldlM_prefix {f : σ → α → Except ε σ} {l : List α}
    (I : List α → σ → Prop)
    (hstep : ∀ pre x post, l = pre ++ x :: post → ∀ s, I pre s →
      ∃ s', f s x = .ok s' ∧ I (pre ++ [x]) s') {s : σ} (h0 : I [] s) :
    ∃ s', l.foldlM f s = .ok s' ∧ I l s' := by
  suffices h : ∀ post pre s, l = pre ++ post → I pre s →
      ∃ s', post.foldlM f s = .ok s' ∧ I l s' from h l [] s rfl h0
  intro post
  induction post with
  | nil =>
      intro pre s hl hI
      rw [List.append_nil] at hl
      exact ⟨s, rfl, hl ▸ hI⟩
  | cons x post ih =>
      intro pre s hl hI
      obtain ⟨s', hx, hI'⟩ := hstep pre x post hl s hI
      rw [List.foldlM_cons, hx]
      exact ih (pre ++ [x]) s' (by simp [hl]) hI'

/-- A pure loop that touches a value only at the element `a`. -/
theorem foldl_ite_eq [DecidableEq α] {l : List α} (hl : l.Nodup) (a : α)
    (f : σ → σ) (v : σ) :
    l.foldl (fun v x => if a = x then f v else v) v =
      if a ∈ l then f v else v := by
  induction l generalizing v with
  | nil => simp
  | cons x l ih =>
      obtain ⟨hx, hl⟩ := List.nodup_cons.mp hl
      rw [List.foldl_cons, ih hl]
      by_cases ha : a = x
      · subst ha
        simp [hx]
      · simp [ha]

/-- A pure loop that leaves a value alone. -/
theorem foldl_fixed {l : List α} {f : σ → α → σ} {v : σ}
    (h : ∀ x ∈ l, f v x = v) : l.foldl f v = v := by
  induction l with
  | nil => rfl
  | cons x l ih =>
      rw [List.foldl_cons, h x List.mem_cons_self]
      exact ih fun y hy => h y (List.mem_cons_of_mem x hy)

theorem filterM_eq_ok {p : α → Except ε Bool} {q : α → Bool} {l : List α}
    (h : ∀ x ∈ l, p x = .ok (q x)) : l.filterM p = .ok (l.filter q) := by
  have haux : ∀ (m : List α) (acc : List α), (∀ x ∈ m, p x = .ok (q x)) →
      m.filterAuxM p acc = .ok ((m.filter q).reverse ++ acc) := by
    intro m
    induction m with
    | nil => intro acc _; rfl
    | cons x m ih =>
        intro acc hm
        rw [List.filterAuxM, hm x (List.mem_cons_self), ok_bind,
          ih _ (fun y hy => hm y (List.mem_cons_of_mem x hy))]
        cases hq : q x <;> simp [hq]
  rw [List.filterM, haux l [] h, ok_bind]
  simp

/-- A loop that gathers lists ends when its body does for each element. -/
theorem mapM_flatten {β : Type} {l : List α} {f : α → Option (List β)}
    (h : ∀ a ∈ l, (f a).isSome) : ∃ bs, (l.mapM f).map List.flatten = some bs ∧
      ∀ b, b ∈ bs ↔ ∃ a ∈ l, ∃ c, f a = some c ∧ b ∈ c := by
  induction l with
  | nil => exact ⟨[], rfl, fun b => by simp⟩
  | cons a l ih =>
      obtain ⟨bs, hbs, hmem⟩ := ih fun x hx => h x (List.mem_cons_of_mem a hx)
      obtain ⟨c, hc⟩ := Option.isSome_iff_exists.mp (h a List.mem_cons_self)
      obtain ⟨cs, hcs, rfl⟩ := Option.map_eq_some_iff.mp hbs
      refine ⟨c ++ cs.flatten, ?_, fun b => ?_⟩
      · rw [List.mapM_cons, hc, hcs]
        rfl
      · rw [List.mem_append, hmem, List.exists_mem_cons_iff, hc]
        exact or_congr_left ⟨fun hb => ⟨c, rfl, hb⟩, fun ⟨c', he, hb⟩ =>
          Option.some.inj he ▸ hb⟩

end Q2NS.Loop
