import Mathlib.Logic.Equiv.Basic
import Q2NS.Lib.Loop
import Q2NS.Types

/-!
# Dynamic matrices of unsigned entries

The parts of `Eigen::Matrix<unsigned, Dynamic, Dynamic>` that the stabilizer
simulator uses.  A matrix carries its allocated size, and every access outside
it ends the process, as `eigen_assert` does.  Entries stay tiny, so unsigned
wrap-around never shows.
-/

namespace Q2NS

open Loop

/-- A matrix with its allocated size.  Values of `entry` outside the size are
never read. -/
structure UMatrix where
  rows : ℕ
  cols : ℕ
  entry : ℕ → ℕ → ℕ

/-- A vector with its allocated size. -/
structure UVector where
  size : ℕ
  entry : ℕ → ℕ

/-- The access that `eigen_assert` refuses. -/
def outOfRange : Exit := .aborted "index out of range"

namespace UMatrix

/-- `M.setZero(rows, cols)`. -/
def setZero (rows cols : ℕ) : UMatrix := ⟨rows, cols, fun _ _ => 0⟩

/-- Reading `M(i, j)`. -/
def get (M : UMatrix) (i j : ℕ) : Except Exit ℕ :=
  if i < M.rows ∧ j < M.cols then .ok (M.entry i j) else .error outOfRange

/-- The matrix with `f` applied to the entry at `(i, j)`. -/
def update (M : UMatrix) (i j : ℕ) (f : ℕ → ℕ) : UMatrix :=
  { M with entry := fun a b =>
      if a = i ∧ b = j then f (M.entry a b) else M.entry a b }

/-- `M(i, j) = f(M(i, j))`. -/
def modify (M : UMatrix) (i j : ℕ) (f : ℕ → ℕ) : Except Exit UMatrix :=
  if i < M.rows ∧ j < M.cols then .ok (M.update i j f) else .error outOfRange

/-- `M(i, j) = v`. -/
def set (M : UMatrix) (i j v : ℕ) : Except Exit UMatrix :=
  M.modify i j fun _ => v

/-- `M.row(i).swap(M.row(k))`. -/
def swapRows (M : UMatrix) (i k : ℕ) : Except Exit UMatrix :=
  if i < M.rows ∧ k < M.rows then
    .ok { M with entry := fun a b => M.entry (Equiv.swap i k a) b }
  else .error outOfRange

/-- `M.col(j).swap(M.col(k))`. -/
def swapCols (M : UMatrix) (j k : ℕ) : Except Exit UMatrix :=
  if j < M.cols ∧ k < M.cols then
    .ok { M with entry := fun a b => M.entry a (Equiv.swap j k b) }
  else .error outOfRange

/-- `M.col(k) += M.col(c)`. -/
def addCol (M : UMatrix) (k c : ℕ) : Except Exit UMatrix :=
  if k < M.cols ∧ c < M.cols then
    .ok { M with entry := fun a b =>
      if b = k then M.entry a b + M.entry a c else M.entry a b }
  else .error outOfRange

/-- `M.row(k) += M.row(c)`. -/
def addRow (M : UMatrix) (k c : ℕ) : Except Exit UMatrix :=
  if k < M.rows ∧ c < M.rows then
    .ok { M with entry := fun a b =>
      if a = k then M.entry a b + M.entry c b else M.entry a b }
  else .error outOfRange

/-- `M.row(c) = ReduceMod2(M.row(c))`. -/
def reduceRowMod2 (M : UMatrix) (c : ℕ) : Except Exit UMatrix :=
  if c < M.rows then
    .ok { M with entry := fun a b =>
      if a = c then M.entry a b % 2 else M.entry a b }
  else .error outOfRange

/-- `M.col(c) = ReduceMod2(M.col(c))`. -/
def reduceColMod2 (M : UMatrix) (c : ℕ) : Except Exit UMatrix :=
  if c < M.cols then
    .ok { M with entry := fun a b =>
      if b = c then M.entry a b % 2 else M.entry a b }
  else .error outOfRange

/-- `M.row(i).isZero()`: the whole allocated row. -/
def rowIsZero (M : UMatrix) (i : ℕ) : Except Exit Bool :=
  if i < M.rows then .ok ((List.range M.cols).all fun j => M.entry i j == 0)
  else .error outOfRange

/-- `M.block(0, 0, p, q)`: the entries of the leading block. -/
def block (M : UMatrix) (p q : ℕ) : Except Exit (ℕ → ℕ → ℕ) :=
  if p ≤ M.rows ∧ q ≤ M.cols then .ok M.entry else .error outOfRange

/-- `M.block(i, j, p, q) = B`. -/
def setBlock (M : UMatrix) (i j p q : ℕ) (B : ℕ → ℕ → ℕ) :
    Except Exit UMatrix :=
  if i + p ≤ M.rows ∧ j + q ≤ M.cols then
    .ok { M with entry := fun a b =>
      if i ≤ a ∧ a < i + p ∧ j ≤ b ∧ b < j + q then B (a - i) (b - j)
      else M.entry a b }
  else .error outOfRange

/-! ## Accesses within the allocated size -/

section InRange

variable {M : UMatrix} {i j k : ℕ}

theorem get_eq_ok (hi : i < M.rows) (hj : j < M.cols) :
    M.get i j = .ok (M.entry i j) := if_pos ⟨hi, hj⟩

theorem modify_eq_ok (hi : i < M.rows) (hj : j < M.cols) (f : ℕ → ℕ) :
    M.modify i j f = .ok (M.update i j f) := if_pos ⟨hi, hj⟩

@[simp] theorem update_rows (f : ℕ → ℕ) : (M.update i j f).rows = M.rows := rfl

@[simp] theorem update_cols (f : ℕ → ℕ) : (M.update i j f).cols = M.cols := rfl

theorem update_entry (f : ℕ → ℕ) (a b : ℕ) :
    (M.update i j f).entry a b =
      if a = i ∧ b = j then f (M.entry a b) else M.entry a b := rfl

end InRange

/-- A fold of updates acts on every entry by itself. -/
theorem foldl_entry {α : Type} {step : UMatrix → α → UMatrix}
    {g : α → ℕ → ℕ → ℕ → ℕ} (h : ∀ M x a b,
      (step M x).entry a b = g x a b (M.entry a b))
    (l : List α) (M : UMatrix) (a b : ℕ) :
    (l.foldl step M).entry a b =
      l.foldl (fun v x => g x a b v) (M.entry a b) := by
  induction l generalizing M with
  | nil => rfl
  | cons x l ih => rw [List.foldl_cons, ih, h, List.foldl_cons]

/-- A loop whose body stays within the allocated size of the matrix. -/
theorem foldlM_eq_ok {α : Type} {M : UMatrix} {l : List α}
    {f : UMatrix → α → Except Exit UMatrix} {g : UMatrix → α → UMatrix}
    (h : ∀ x ∈ l, ∀ M' : UMatrix, M'.rows = M.rows → M'.cols = M.cols →
      f M' x = .ok (g M' x) ∧ (g M' x).rows = M.rows ∧
        (g M' x).cols = M.cols) :
    l.foldlM f M = .ok (l.foldl g M) ∧ (l.foldl g M).rows = M.rows ∧
      (l.foldl g M).cols = M.cols :=
  Loop.foldlM_eq_ok
    (P := fun M' : UMatrix => M'.rows = M.rows ∧ M'.cols = M.cols)
    (fun x hx M' hM' => h x hx M' hM'.1 hM'.2) ⟨rfl, rfl⟩

/-- A double loop that updates every entry of a grid once. -/
theorem foldlM_grid {M : UMatrix} {l l' : List ℕ} {f : ℕ → ℕ → ℕ → ℕ}
    {B : UMatrix → ℕ → ℕ → Except Exit UMatrix} (hl : l.Nodup)
    (hl' : l'.Nodup)
    (hbody : ∀ x ∈ l, ∀ x' ∈ l', ∀ M' : UMatrix, M'.rows = M.rows →
      M'.cols = M.cols → B M' x x' = .ok (M'.update x x' (f x x'))) :
    ∃ M' : UMatrix,
      l.foldlM (fun M x => l'.foldlM (fun M x' => B M x x') M) M = .ok M' ∧
      M'.rows = M.rows ∧ M'.cols = M.cols ∧
      ∀ a b, M'.entry a b =
        if a ∈ l ∧ b ∈ l' then f a b (M.entry a b) else M.entry a b := by
  obtain ⟨hok, hrows, hcols⟩ := foldlM_eq_ok (M := M) (l := l)
    (f := fun M x => l'.foldlM (fun M x' => B M x x') M)
    (g := fun M x => l'.foldl (fun M x' => M.update x x' (f x x')) M)
    (fun x hx N hNr hNc => by
      obtain ⟨hin, hinr, hinc⟩ := foldlM_eq_ok (M := N) (l := l')
        (f := fun M x' => B M x x')
        (g := fun M x' => M.update x x' (f x x'))
        (fun x' hx' N' hr hc =>
          ⟨hbody x hx x' hx' N' (hr.trans hNr) (hc.trans hNc), hr, hc⟩)
      exact ⟨hin, hinr.trans hNr, hinc.trans hNc⟩)
  have hrow : ∀ (N : UMatrix) (x a b : ℕ),
      (l'.foldl (fun M x' => M.update x x' (f x x')) N).entry a b =
        if a = x then (if b ∈ l' then f a b (N.entry a b) else N.entry a b)
        else N.entry a b := by
    intro N x a b
    rw [foldl_entry (g := fun x' a b v =>
      if a = x ∧ b = x' then f x x' v else v) (fun M x' a b => rfl)]
    by_cases ha : a = x
    · subst ha
      simp only [true_and, if_true]
      rw [← foldl_ite_eq hl' b (f a b)]
      refine List.foldl_ext _ _ _ fun v x' _ => ?_
      by_cases hb : b = x' <;> simp [hb]
    · simp only [ha, false_and, if_false]
      exact foldl_fixed fun _ _ => rfl
  refine ⟨_, hok, hrows, hcols, fun a b => ?_⟩
  rw [foldl_entry (g := fun x a b v =>
    if a = x then (if b ∈ l' then f a b v else v) else v) hrow,
    foldl_ite_eq hl a]
  by_cases ha : a ∈ l <;> by_cases hb : b ∈ l' <;> simp [ha, hb]

/-- Two blocks along the diagonal of a zero matrix. -/
theorem setBlock_twice {R C p q u v : ℕ} (B B' : ℕ → ℕ → ℕ)
    (hR : p + u ≤ R) (hC : q + v ≤ C) :
    ∃ M M' : UMatrix, (setZero R C).setBlock 0 0 p q B = .ok M ∧
      M.setBlock p q u v B' = .ok M' ∧ M'.rows = R ∧ M'.cols = C ∧
      ∀ i j, M'.entry i j =
        if p ≤ i ∧ i < p + u ∧ q ≤ j ∧ j < q + v then B' (i - p) (j - q)
        else if i < p ∧ j < q then B i j else 0 := by
  refine ⟨_, _, if_pos ⟨by simp only [setZero]; omega,
    by simp only [setZero]; omega⟩, if_pos ⟨hR, hC⟩, rfl, rfl, fun i j => ?_⟩
  simp only [setZero, Nat.zero_le, Nat.zero_add, true_and, Nat.sub_zero]

end UMatrix

namespace UVector

/-- `v.setZero(size)`. -/
def setZero (size : ℕ) : UVector := ⟨size, fun _ => 0⟩

/-- Reading `v(i)`. -/
def get (v : UVector) (i : ℕ) : Except Exit ℕ :=
  if i < v.size then .ok (v.entry i) else .error outOfRange

/-- The vector with `f` applied to entry `i`. -/
def update (v : UVector) (i : ℕ) (f : ℕ → ℕ) : UVector :=
  { v with entry := fun a => if a = i then f (v.entry a) else v.entry a }

/-- `v(i) = f(v(i))`. -/
def modify (v : UVector) (i : ℕ) (f : ℕ → ℕ) : Except Exit UVector :=
  if i < v.size then .ok (v.update i f) else .error outOfRange

/-- `v(i) = x`. -/
def set (v : UVector) (i x : ℕ) : Except Exit UVector :=
  v.modify i fun _ => x

/-- `v.row(i).swap(v.row(k))`. -/
def swap (v : UVector) (i k : ℕ) : Except Exit UVector :=
  if i < v.size ∧ k < v.size then
    .ok { v with entry := fun a => v.entry (Equiv.swap i k a) }
  else .error outOfRange

/-- `v.segment(0, p)`: the leading entries. -/
def segment (v : UVector) (p : ℕ) : Except Exit (ℕ → ℕ) :=
  if p ≤ v.size then .ok v.entry else .error outOfRange

/-- `v.segment(i, p) = w`. -/
def setSegment (v : UVector) (i p : ℕ) (w : ℕ → ℕ) : Except Exit UVector :=
  if i + p ≤ v.size then
    .ok { v with entry := fun a =>
      if i ≤ a ∧ a < i + p then w (a - i) else v.entry a }
  else .error outOfRange

section InRange

variable {v : UVector} {i : ℕ}

theorem get_eq_ok (hi : i < v.size) : v.get i = .ok (v.entry i) := if_pos hi

theorem modify_eq_ok (hi : i < v.size) (f : ℕ → ℕ) :
    v.modify i f = .ok (v.update i f) := if_pos hi

theorem update_entry (f : ℕ → ℕ) (a : ℕ) :
    (v.update i f).entry a = if a = i then f (v.entry a) else v.entry a := rfl

end InRange

/-- A fold of updates acts on every entry by itself. -/
theorem foldl_entry {α : Type} {step : UVector → α → UVector}
    {g : α → ℕ → ℕ → ℕ} (h : ∀ v x a, (step v x).entry a = g x a (v.entry a))
    (l : List α) (v : UVector) (a : ℕ) :
    (l.foldl step v).entry a = l.foldl (fun y x => g x a y) (v.entry a) := by
  induction l generalizing v with
  | nil => rfl
  | cons x l ih => rw [List.foldl_cons, ih, h, List.foldl_cons]

/-- A loop whose body stays within the allocated size of the vector. -/
theorem foldlM_eq_ok {α : Type} {v : UVector} {l : List α}
    {f : UVector → α → Except Exit UVector} {g : UVector → α → UVector}
    (h : ∀ x ∈ l, ∀ v' : UVector, v'.size = v.size →
      f v' x = .ok (g v' x) ∧ (g v' x).size = v.size) :
    l.foldlM f v = .ok (l.foldl g v) ∧ (l.foldl g v).size = v.size :=
  Loop.foldlM_eq_ok (P := fun v' : UVector => v'.size = v.size)
    (fun x hx v' hv' => h x hx v' hv') rfl

/-- Two segments of a zero vector. -/
theorem setSegment_twice {R p u : ℕ} (w w' : ℕ → ℕ) (hR : p + u ≤ R) :
    ∃ v v' : UVector, (setZero R).setSegment 0 p w = .ok v ∧
      v.setSegment p u w' = .ok v' ∧ v'.size = R ∧
      ∀ i, v'.entry i = if p ≤ i ∧ i < p + u then w' (i - p)
        else if i < p then w i else 0 := by
  refine ⟨_, _, if_pos (by simp only [setZero]; omega), if_pos hR, rfl,
    fun i => ?_⟩
  simp only [setZero, Nat.zero_le, Nat.zero_add, true_and, Nat.sub_zero]

end UVector

end Q2NS
