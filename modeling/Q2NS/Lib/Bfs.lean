import Mathlib.Combinatorics.SimpleGraph.Metric
import Mathlib.Data.List.Nodup

/-!
# Breadth-first search

A search over adjacency lists that keeps for each vertex it has met the vertex it was
met from.  Ghost depths `δ` show that these parents are one step nearer the source, in
the distance of the graph.
-/

namespace Q2NS.Bfs

variable {α : Type} [DecidableEq α]

/-- The queue, and the parents of the vertices that have been met. -/
structure Search (α : Type) where
  queue : List α
  parent : α → Option α

/-- A neighbour of `u` is met. -/
def visit (u : α) (st : Search α) (v : α) : Search α :=
  if (st.parent v).isSome then st
  else ⟨st.queue ++ [v], Function.update st.parent v (some u)⟩

/-- The front vertex is taken out and its neighbours are met, until the queue is empty
or the rounds are used up. -/
def search (adj : α → List α) : ℕ → Search α → Option (α → Option α)
  | _, ⟨[], parent⟩ => some parent
  | 0, ⟨_ :: _, _⟩ => none
  | rounds + 1, ⟨u :: queue, parent⟩ =>
      search adj rounds ((adj u).foldl (visit u) ⟨queue, parent⟩)

/-- The source, whose parent is the mark `root`. -/
def start (root src : α) : Search α :=
  ⟨[src], Function.update (fun _ => none) src (some root)⟩

variable {adj : α → List α} {root src : α} {δ : α → ℕ} {st : Search α}

/-! ## The invariant -/

/-- What holds of the search between the visits of neighbours of `u`, of which those
in `rest` are still to come. -/
structure Inv (adj : α → List α) (root src : α) (δ : α → ℕ) (st : Search α) : Prop where
  source : st.parent src = some root ∧ δ src = 0
  met : ∀ u ∈ st.queue, (st.parent u).isSome
  sorted : st.queue.Pairwise fun a b => δ a ≤ δ b
  near : ∀ u, (st.parent u).isSome → ∀ v ∈ st.queue, δ u ≤ δ v + 1
  tree : ∀ v, v ≠ src → (st.parent v).isSome → ∃ u, st.parent v = some u ∧
    (st.parent u).isSome ∧ v ∈ adj u ∧ δ v = δ u + 1

/-- The neighbours of a vertex have been met, at most one step further. -/
def Done (adj : α → List α) (δ : α → ℕ) (st : Search α) (u : α) : Prop :=
  ∀ v ∈ adj u, (st.parent v).isSome ∧ δ v ≤ δ u + 1

theorem start_parent (root src v : α) :
    (start root src).parent v = if v = src then some root else none := by
  show Function.update (fun _ => none) src (some root) v = _
  by_cases hv : v = src
  · rw [if_pos hv, hv, Function.update_self]
  · rw [if_neg hv, Function.update_of_ne hv]

theorem inv_start (adj : α → List α) (root src : α) :
    Inv adj root src (fun _ => 0) (start root src) where
  source := ⟨(start_parent ..).trans (if_pos rfl), rfl⟩
  met := fun u hu => by
    rw [start_parent, if_pos (List.mem_singleton.mp hu)]
    rfl
  sorted := List.pairwise_singleton ..
  near := fun _ _ _ _ => Nat.zero_le _
  tree := fun v hv hmet => by
    rw [start_parent, if_neg hv] at hmet
    exact absurd hmet Bool.false_ne_true

/-- The invariant while the neighbours of `u`, which has been taken out, are met. -/
structure Expanding (adj : α → List α) (root src : α) (δ : α → ℕ) (st : Search α)
    (u : α) : Prop extends Inv adj root src δ st where
  front : (st.parent u).isSome
  low : ∀ v ∈ st.queue, δ u ≤ δ v
  high : ∀ v, (st.parent v).isSome → δ v ≤ δ u + 1

/-- What has been met stays as it is, and what is new is in the queue. -/
structure Extends (δ δ' : α → ℕ) (st st' : Search α) : Prop where
  parent : ∀ v, (st.parent v).isSome → st'.parent v = st.parent v
  depth : ∀ v, (st.parent v).isSome → δ' v = δ v
  queue : ∀ v ∈ st.queue, v ∈ st'.queue
  new : ∀ v, (st'.parent v).isSome → (st.parent v).isSome ∨ v ∈ st'.queue

omit [DecidableEq α] in
theorem Extends.refl (δ : α → ℕ) (st : Search α) : Extends δ δ st st :=
  ⟨fun _ _ => rfl, fun _ _ => rfl, fun _ => id, fun _ => .inl⟩

omit [DecidableEq α] in
theorem Extends.met {δ' : α → ℕ} {st' : Search α} (h : Extends δ δ' st st') {v : α}
    (hv : (st.parent v).isSome) : (st'.parent v).isSome := by
  rwa [h.parent v hv]

omit [DecidableEq α] in
theorem Extends.trans {δ' δ'' : α → ℕ} {st' st'' : Search α} (h : Extends δ δ' st st')
    (h' : Extends δ' δ'' st' st'') : Extends δ δ'' st st'' where
  parent := fun v hv => (h'.parent v (h.met hv)).trans (h.parent v hv)
  depth := fun v hv => (h'.depth v (h.met hv)).trans (h.depth v hv)
  queue := fun v hv => h'.queue v (h.queue v hv)
  new := fun v hv => by
    rcases h'.new v hv with hv' | hv'
    · exact (h.new v hv').imp id (h'.queue v)
    · exact .inr hv'

omit [DecidableEq α] in
/-- What was done stays done. -/
theorem Extends.done {δ' : α → ℕ} {st' : Search α} (h : Extends δ δ' st st') {u : α}
    (hu : (st.parent u).isSome) (hdone : Done adj δ st u) : Done adj δ' st' u := by
  intro v hv
  obtain ⟨hmet, hle⟩ := hdone v hv
  exact ⟨h.met hmet, by rwa [h.depth v hmet, h.depth u hu]⟩

/-! ## One round -/

omit [DecidableEq α] in
/-- The front vertex is taken out. -/
theorem Inv.pop {u : α} {queue : List α} {parent : α → Option α}
    (h : Inv adj root src δ ⟨u :: queue, parent⟩) :
    Expanding adj root src δ ⟨queue, parent⟩ u where
  source := h.source
  met := fun v hv => h.met v (List.mem_cons_of_mem _ hv)
  sorted := (List.pairwise_cons.mp h.sorted).2
  near := fun v hv w hw => h.near v hv w (List.mem_cons_of_mem _ hw)
  tree := h.tree
  front := h.met u List.mem_cons_self
  low := (List.pairwise_cons.mp h.sorted).1
  high := fun v hv => h.near v hv u List.mem_cons_self

/-- A neighbour is met. -/
theorem Expanding.visit {u v : α} (h : Expanding adj root src δ st u) (hv : v ∈ adj u) :
    ∃ δ', Expanding adj root src δ' (visit u st v) u ∧ Extends δ δ' st (visit u st v) ∧
      ((visit u st v).parent v).isSome := by
  by_cases hmet : (st.parent v).isSome
  · rw [Bfs.visit, if_pos hmet]
    exact ⟨δ, h, .refl δ st, hmet⟩
  have hne : ∀ w, (st.parent w).isSome → w ≠ v := fun w hw he => hmet (he ▸ hw)
  have hparent : ∀ w, w ≠ v → Function.update st.parent v (some u) w = st.parent w :=
    fun w hw => Function.update_of_ne hw ..
  have hself : Function.update st.parent v (some u) v = some u := Function.update_self ..
  have hdepth : ∀ w, w ≠ v → Function.update δ v (δ u + 1) w = δ w :=
    fun w hw => Function.update_of_ne hw ..
  have hdepth' : Function.update δ v (δ u + 1) v = δ u + 1 := Function.update_self ..
  have hu := hdepth u (hne u h.front)
  have hsrc : src ≠ v := hne src (by rw [h.source.1]; rfl)
  have hmet' : ∀ w, (Function.update st.parent v (some u) w).isSome →
      w = v ∨ (st.parent w).isSome ∧ w ≠ v := by
    intro w hw
    by_cases hwv : w = v
    · exact .inl hwv
    · exact .inr ⟨hparent w hwv ▸ hw, hwv⟩
  rw [Bfs.visit, if_neg hmet]
  refine ⟨Function.update δ v (δ u + 1), ⟨⟨?_, ?_, ?_, ?_, ?_⟩, ?_, ?_, ?_⟩,
    ⟨?_, ?_, ?_, ?_⟩, ?_⟩
  · exact ⟨(hparent src hsrc).trans h.source.1, (hdepth src hsrc).trans h.source.2⟩
  · intro w hw
    rcases List.mem_append.mp hw with hw | hw
    · exact (congrArg Option.isSome (hparent w (hne w (h.met w hw)))).trans (h.met w hw)
    · rw [List.mem_singleton.mp hw]
      exact congrArg Option.isSome hself
  · refine List.pairwise_append.mpr ⟨?_, List.pairwise_singleton .., fun a ha b hb => ?_⟩
    · refine h.sorted.imp_of_mem fun {a b} ha hb hab => ?_
      rwa [hdepth a (hne a (h.met a ha)), hdepth b (hne b (h.met b hb))]
    · rw [List.mem_singleton.mp hb, hdepth', hdepth a (hne a (h.met a ha))]
      exact h.high a (h.met a ha)
  · intro w hw y hy
    rcases List.mem_append.mp hy with hold | hnew
    · rw [hdepth y (hne y (h.met y hold))]
      rcases hmet' w hw with rfl | ⟨hw, hwv⟩
      · rw [hdepth']
        exact Nat.succ_le_succ (h.low y hold)
      · rw [hdepth w hwv]
        exact h.near w hw y hold
    · rw [List.mem_singleton.mp hnew, hdepth']
      rcases hmet' w hw with rfl | ⟨hw, hwv⟩
      · rw [hdepth']
        exact Nat.le_succ _
      · rw [hdepth w hwv]
        exact (h.high w hw).trans (Nat.le_succ _)
  · intro w hw hwmet
    rcases hmet' w hwmet with rfl | ⟨hwmet, hwv⟩
    · refine ⟨u, hself, ?_, hv, hdepth'.trans (congrArg (· + 1) hu.symm)⟩
      exact (congrArg Option.isSome (hparent u (hne u h.front))).trans h.front
    · obtain ⟨x, hx, hxmet, hmem, hd⟩ := h.tree w hw hwmet
      refine ⟨x, (hparent w hwv).trans hx, ?_, hmem, ?_⟩
      · exact (congrArg Option.isSome (hparent x (hne x hxmet))).trans hxmet
      · rw [hdepth w hwv, hdepth x (hne x hxmet), hd]
  · exact (congrArg Option.isSome (hparent u (hne u h.front))).trans h.front
  · intro w hw
    rw [hu]
    rcases List.mem_append.mp hw with hw | hw
    · rw [hdepth w (hne w (h.met w hw))]
      exact h.low w hw
    · rw [List.mem_singleton.mp hw, hdepth']
      exact Nat.le_succ _
  · intro w hw
    rw [hu]
    rcases hmet' w hw with rfl | ⟨hw, hwv⟩
    · exact hdepth'.le
    · rw [hdepth w hwv]
      exact h.high w hw
  · exact fun w hw => hparent w (hne w hw)
  · exact fun w hw => hdepth w (hne w hw)
  · exact fun w hw => List.mem_append_left _ hw
  · intro w hw
    rcases hmet' w hw with rfl | ⟨hw, -⟩
    · exact .inr (List.mem_append_right _ List.mem_cons_self)
    · exact .inl hw
  · exact congrArg Option.isSome hself

/-- All neighbours are met. -/
theorem Expanding.visitAll {u : α} {l : List α} : ∀ {δ : α → ℕ} {st : Search α},
    Expanding adj root src δ st u → (∀ v ∈ l, v ∈ adj u) →
      ∃ δ', Expanding adj root src δ' (l.foldl (Bfs.visit u) st) u ∧
        Extends δ δ' st (l.foldl (Bfs.visit u) st) ∧
        ∀ v ∈ l, ((l.foldl (Bfs.visit u) st).parent v).isSome := by
  induction l with
  | nil => exact fun h _ => ⟨_, h, .refl _ _, fun v hv => absurd hv List.not_mem_nil⟩
  | cons v l ih =>
      intro δ st h hl
      obtain ⟨δ₁, h₁, hext₁, hmet₁⟩ := h.visit (hl v List.mem_cons_self)
      obtain ⟨δ₂, h₂, hext₂, hmet₂⟩ := ih h₁ fun w hw => hl w (List.mem_cons_of_mem _ hw)
      refine ⟨δ₂, h₂, hext₁.trans hext₂, fun w hw => ?_⟩
      rcases List.mem_cons.mp hw with rfl | hw
      · exact hext₂.met hmet₁
      · exact hmet₂ w hw

/-! ## The whole search -/

/-- All vertices that have been met are done when the search ends. -/
theorem search_done {rounds : ℕ} : ∀ {δ : α → ℕ} {st : Search α} {parent : α → Option α},
    Inv adj root src δ st →
    (∀ u, (st.parent u).isSome → u ∉ st.queue → Done adj δ st u) →
    search adj rounds st = some parent →
      ∃ δ', Inv adj root src δ' ⟨[], parent⟩ ∧
        ∀ u, (parent u).isSome → Done adj δ' ⟨[], parent⟩ u := by
  induction rounds with
  | zero =>
      intro δ st parent h hdone hsearch
      obtain ⟨queue, p⟩ := st
      cases queue with
      | nil =>
          obtain rfl := Option.some.inj hsearch
          exact ⟨δ, h, fun u hu => hdone u hu List.not_mem_nil⟩
      | cons u queue => exact absurd hsearch (Option.some_ne_none _).symm
  | succ rounds ih =>
      intro δ st parent h hdone hsearch
      obtain ⟨queue, p⟩ := st
      cases queue with
      | nil =>
          obtain rfl := Option.some.inj hsearch
          exact ⟨δ, h, fun u hu => hdone u hu List.not_mem_nil⟩
      | cons u queue =>
          obtain ⟨δ₁, h₁, hext, hmet⟩ := h.pop.visitAll (l := adj u) fun _ hv => hv
          refine ih h₁.toInv (fun w hw hout => ?_) hsearch
          rcases hext.new w hw with hw | hw
          · by_cases hwu : w = u
            · subst hwu
              exact fun v hv => ⟨hmet v hv, h₁.high v (hmet v hv)⟩
            · refine hext.done hw (hdone w hw fun hq => ?_)
              rcases List.mem_cons.mp hq with hq | hq
              · exact hwu hq
              · exact hout (hext.queue w hq)
          · exact absurd hw hout

/-! ## The rounds -/

/-- The vertices that have not been met, and those in the queue. -/
def workLeft (V : Finset α) (st : Search α) : ℕ :=
  (V.filter fun v => st.parent v = none).card + st.queue.length

theorem workLeft_visit {V : Finset α} {u v : α} (hv : v ∈ V) (st : Search α) :
    workLeft V (visit u st v) ≤ workLeft V st := by
  rw [visit]
  split_ifs with hmet
  · exact le_rfl
  · have hnone : st.parent v = none := Option.not_isSome_iff_eq_none.mp hmet
    have hfewer : (V.filter fun w => Function.update st.parent v (some u) w = none) ⊂
        V.filter fun w => st.parent w = none := by
      refine Finset.ssubset_iff_subset_ne.mpr ⟨fun w hw => ?_, fun he => ?_⟩
      · rw [Finset.mem_filter] at hw ⊢
        refine ⟨hw.1, ?_⟩
        by_cases hwv : w = v
        · rw [hwv, hnone]
        · exact (Function.update_of_ne hwv ..).symm.trans hw.2
      · have hmem : v ∈ V.filter fun w => st.parent w = none :=
          Finset.mem_filter.mpr ⟨hv, hnone⟩
        rw [← he, Finset.mem_filter, Function.update_self] at hmem
        exact absurd hmem.2 (Option.some_ne_none u)
    have hcard := Finset.card_lt_card hfewer
    rw [workLeft, workLeft, List.length_append, List.length_singleton]
    dsimp only
    omega

theorem workLeft_visitAll {V : Finset α} {u : α} {l : List α} (hl : ∀ v ∈ l, v ∈ V) :
    ∀ st, workLeft V (l.foldl (visit u) st) ≤ workLeft V st := by
  induction l with
  | nil => exact fun st => le_rfl
  | cons v l ih =>
      intro st
      exact (ih (fun w hw => hl w (List.mem_cons_of_mem _ hw)) _).trans
        (workLeft_visit (hl v List.mem_cons_self) st)

theorem queue_visitAll {V : Finset α} {u : α} {l : List α} (hl : ∀ v ∈ l, v ∈ V) :
    ∀ st : Search α, (∀ v ∈ st.queue, v ∈ V) →
      ∀ v ∈ (l.foldl (visit u) st).queue, v ∈ V := by
  induction l with
  | nil => exact fun st h => h
  | cons v l ih =>
      intro st h
      refine ih (fun w hw => hl w (List.mem_cons_of_mem _ hw)) _ fun w hw => ?_
      rw [visit] at hw
      split_ifs at hw
      · exact h w hw
      · rcases List.mem_append.mp hw with hw | hw
        · exact h w hw
        · exact List.mem_singleton.mp hw ▸ hl v List.mem_cons_self

/-- A search ends within as many rounds as there is work left. -/
theorem search_ends {V : Finset α} (hV : ∀ u ∈ V, ∀ v ∈ adj u, v ∈ V) {rounds : ℕ} :
    ∀ {st : Search α}, (∀ v ∈ st.queue, v ∈ V) → workLeft V st ≤ rounds →
      (search adj rounds st).isSome := by
  induction rounds with
  | zero =>
      intro st _ hleft
      obtain ⟨queue, p⟩ := st
      cases queue with
      | nil => rfl
      | cons u queue =>
          rw [workLeft, List.length_cons] at hleft
          omega
  | succ rounds ih =>
      intro st hq hleft
      obtain ⟨queue, p⟩ := st
      cases queue with
      | nil => rfl
      | cons u queue =>
          have hadj := hV u (hq u List.mem_cons_self)
          refine ih (queue_visitAll hadj _ fun v hv =>
            hq v (List.mem_cons_of_mem _ hv)) ?_
          have hless := workLeft_visitAll (u := u) hadj ⟨queue, p⟩
          have hstep : workLeft V ⟨u :: queue, p⟩ = workLeft V ⟨queue, p⟩ + 1 := rfl
          omega

/-! ## Distances

The lists may also hold the vertex itself, which a graph does not. -/

/-- The parents are those of a breadth-first tree of the graph. -/
structure Tree (G : SimpleGraph α) (root src : α) (parent : α → Option α) : Prop where
  source : parent src = some root
  met : ∀ v, (parent v).isSome ↔ G.Reachable src v
  step : ∀ v, v ≠ src → ∀ u, parent v = some u →
    G.Adj u v ∧ (parent u).isSome ∧ G.dist src v = G.dist src u + 1

/-- A vertex that has been met is at its depth. -/
theorem Inv.walk {G : SimpleGraph α} (hadj : ∀ u v, u ≠ v → (v ∈ adj u ↔ G.Adj u v))
    (h : Inv adj root src δ st) : ∀ n v, δ v = n → (st.parent v).isSome →
      ∃ w : G.Walk src v, w.length = n := by
  intro n
  induction n with
  | zero =>
      intro v hv hmet
      by_cases hsrc : v = src
      · subst hsrc
        exact ⟨.nil, rfl⟩
      · obtain ⟨u, -, -, -, hd⟩ := h.tree v hsrc hmet
        omega
  | succ n ih =>
      intro v hv hmet
      have hsrc : v ≠ src := by
        rintro rfl
        rw [h.source.2] at hv
        omega
      obtain ⟨u, -, humet, hmem, hd⟩ := h.tree v hsrc hmet
      obtain ⟨w, hw⟩ := ih u (by omega) humet
      have huv : u ≠ v := by
        rintro rfl
        omega
      refine ⟨w.concat ((hadj u v huv).mp hmem), ?_⟩
      rw [SimpleGraph.Walk.length_concat, hw]

omit [DecidableEq α] in
/-- A walk from a vertex that has been met only meets such vertices. -/
theorem walk_met {G : SimpleGraph α} (st : Search α) (hadj : ∀ u v, u ≠ v → (v ∈ adj u ↔ G.Adj u v))
    (hdone : ∀ u, (st.parent u).isSome → Done adj δ st u) {u v : α} (w : G.Walk u v) :
    (st.parent u).isSome → (st.parent v).isSome ∧ δ v ≤ δ u + w.length := by
  induction w with
  | nil => exact fun hu => ⟨hu, le_rfl⟩
  | cons huv w ih =>
      intro hu
      obtain ⟨hmet, hle⟩ := hdone _ hu _ ((hadj _ _ huv.ne).mpr huv)
      obtain ⟨hmet', hle'⟩ := ih hmet
      rw [SimpleGraph.Walk.length_cons]
      exact ⟨hmet', by omega⟩

/-- The search finds a breadth-first tree. -/
theorem search_tree {G : SimpleGraph α} (hadj : ∀ u v, u ≠ v → (v ∈ adj u ↔ G.Adj u v))
    {rounds : ℕ} {parent : α → Option α}
    (hsearch : search adj rounds (start root src) = some parent) :
    Tree G root src parent := by
  obtain ⟨δ, h, hdone⟩ := search_done (inv_start adj root src) (fun u hu hout => by
    rw [start_parent] at hu
    split_ifs at hu with hsrc
    · exact absurd (hsrc ▸ List.mem_cons_self) hout
    · exact absurd hu Bool.false_ne_true) hsearch
  have hsource : (parent src).isSome := (congrArg Option.isSome h.source.1).trans rfl
  have hmet : ∀ v, (parent v).isSome ↔ G.Reachable src v := by
    refine fun v => ⟨fun hv => ?_, fun ⟨w⟩ => (walk_met ⟨[], parent⟩ hadj hdone w hsource).1⟩
    obtain ⟨w, -⟩ := h.walk hadj _ v rfl hv
    exact ⟨w⟩
  have hdist : ∀ v, (parent v).isSome → G.dist src v = δ v := by
    intro v hv
    obtain ⟨w, hw⟩ := h.walk hadj _ v rfl hv
    obtain ⟨w', hw'⟩ := ((hmet v).mp hv).exists_walk_length_eq_dist
    have hle := (walk_met ⟨[], parent⟩ hadj hdone w' hsource).2
    rw [h.source.2, Nat.zero_add, hw'] at hle
    exact le_antisymm (hw ▸ SimpleGraph.dist_le w) hle
  refine ⟨h.source.1, hmet, fun v hv u hu => ?_⟩
  have hvmet : (parent v).isSome := by
    rw [hu]
    rfl
  obtain ⟨u', hu', humet, hmem, hd⟩ := h.tree v hv hvmet
  obtain rfl := Option.some.inj (hu.symm.trans hu')
  have huv : u ≠ v := by
    rintro rfl
    omega
  exact ⟨(hadj u v huv).mp hmem, humet, by rw [hdist v hvmet, hdist u humet, hd]⟩

end Q2NS.Bfs
