import Q2NS.UMatrix

/-!
# The affine state of the stabilizer backend

`AffineState` holds a stabilizer state as a quadratic form expansion: `n`
qubits, `r` active columns of the generating matrix `A`, the shift `b`, the
phase matrix `Q`, the global phase in units of `π/4`, and the principal index
map `pivots`.  Only the leading `n × r` block of `A` and `r × r` block of `Q`
are active; the allocated matrices are larger.

The functions follow the source statement by statement.  Each access is checked
against the allocated size and each `assert` is kept, so a result `.ok` means
that the call ran without leaving its matrices.
-/

namespace Q2NS

/-- A stabilizer state in quadratic form expansion. -/
structure AffineState where
  n : ℕ
  phase : ℕ
  r : ℕ
  Q : UMatrix
  A : UMatrix
  b : UVector
  pivots : List ℕ

namespace AffineState

/-- A failed `assert`. -/
def assertFailed : Exit := .aborted "assertion failed"

/-- `assert(p)`. -/
def assert (p : Prop) [Decidable p] : Except Exit Unit :=
  if p then .ok () else .error assertFailed

/-- The state `|0^n⟩`. -/
def init (n : ℕ) : AffineState where
  n := n
  phase := 0
  r := 0
  Q := UMatrix.setZero (n + 1) (n + 1)
  A := UMatrix.setZero n (n + 1)
  b := UVector.setZero n
  pivots := []

/-! ## Subroutines -/

/-- Locations of the ones in column `col` of `A`. -/
def aColNonzeros (s : AffineState) (col : ℕ) : Except Exit (List ℕ) :=
  (List.range s.n).filterM fun row => do
    let a ← s.A.get row col
    return a == 1

/-- Locations of the nonzeros in the last column of `Q`, without the diagonal.
For `r = 0` the source reserves a negative size. -/
def qNonzeros (s : AffineState) : Except Exit (List ℕ) := do
  if s.r = 0 then throw (.thrown "vector::reserve")
  (List.range (s.r - 1)).filterM fun row => do
    let q ← s.Q.get row (s.r - 1)
    return q != 0

/-- Locations of the nonzeros in row `row` of `A`. -/
def aRowNonzeros (s : AffineState) (row : ℕ) : Except Exit (List ℕ) :=
  (List.range s.r).filterM fun col => do
    let a ← s.A.get row col
    return a != 0

/-- Row and column `c` of `Q` modulo two, the diagonal entry modulo four. -/
def reduceGramRowCol (s : AffineState) (c : ℕ) : Except Exit AffineState := do
  let newQcc := (← s.Q.get c c) % 4
  let Q ← s.Q.reduceRowMod2 c
  let Q ← Q.reduceColMod2 c
  let Q ← Q.set c c newQcc
  return { s with Q := Q }

/-- Column `k` of `A` becomes column `k` minus column `c`. -/
def reindexSubtColumn (s : AffineState) (k c : ℕ) (colCNonzeros : List ℕ) :
    Except Exit AffineState := do
  assert (c ≠ k)
  let A ← colCNonzeros.foldlM (fun A row => A.modify row k (· ^^^ 1)) s.A
  let Q ← s.Q.addCol k c
  let Q ← Q.addRow k c
  reduceGramRowCol { s with A := A, Q := Q } k

/-- Swaps columns `k` and `r - 1`. -/
def reindexSwapColumns (s : AffineState) (k : ℕ) :
    Except Exit AffineState := do
  -- with `r = 0` the source compares with `-1` and swaps column `-1`
  if s.r = 0 then throw outOfRange
  if k ≠ s.r - 1 then
    let A ← s.A.swapCols k (s.r - 1)
    let Q ← s.Q.swapCols k (s.r - 1)
    let Q ← Q.swapRows k (s.r - 1)
    match s.pivots[k]?, s.pivots[s.r - 1]? with
    | some pk, some pr =>
        return { s with
          A := A
          Q := Q
          pivots := (s.pivots.set k pr).set (s.r - 1) pk }
    | _, _ => throw outOfRange
  else
    return s

/-- `pivots_[c] = j`. -/
def setPivot (s : AffineState) (c j : ℕ) : Except Exit AffineState :=
  if c < s.pivots.length then .ok { s with pivots := s.pivots.set c j }
  else .error outOfRange

/-- Makes row `j` the principal row of column `c`. -/
def makePrincipal (s : AffineState) (c j : ℕ) : Except Exit AffineState := do
  assert ((← s.A.get j c) ≠ 0)
  let colCNonzeros ← s.aColNonzeros c
  let s ← (List.range s.r).foldlM (fun s k => do
    if (← s.A.get j k) ≠ 0 ∧ k ≠ c then
      s.reindexSubtColumn k c colCNonzeros
    else
      return s) s
  s.setPivot c j

/-- The search of `ReselectPrincipalRow` over the remaining rows. -/
def reselectLoop (s : AffineState) (j : ℤ) (c : ℕ) :
    List ℕ → Except Exit (Bool × AffineState)
  | [] => return (false, s)
  | jStar :: rest => do
      if (← s.A.get jStar c) ≠ 0 ∧ (jStar : ℤ) ≠ j then
        return (true, ← s.makePrincipal c jStar)
      else
        s.reselectLoop j c rest

/-- Selects a principal row other than `j` for column `c` if there is one. -/
def reselectPrincipalRow (s : AffineState) (j : ℤ) (c : ℕ) :
    Except Exit (Bool × AffineState) :=
  s.reselectLoop j c (List.range s.n)

/-- `pivots_.pop_back(); --r_`. -/
def popColumn (s : AffineState) : Except Exit AffineState :=
  if s.pivots = [] ∨ s.r = 0 then .error outOfRange
  else .ok { s with pivots := s.pivots.dropLast, r := s.r - 1 }

/-- Fixes the last variable of the expansion to `z` and removes its column. -/
def fixFinalBit (s : AffineState) (z : ℕ) : Except Exit AffineState := do
  assert (s.r ≠ 0)
  let last := s.r - 1
  let aOnes ← s.aColNonzeros last
  let qOnes ← s.qNonzeros
  let u := (← s.Q.get last last) % 4
  let A ← aOnes.foldlM (fun A row => A.set row last 0) s.A
  let Q ← qOnes.foldlM (fun Q rowcol => do
    let Q ← Q.set rowcol last 0
    Q.set last rowcol 0) s.Q
  let Q ← Q.set last last 0
  let s := { s with A := A, Q := Q }
  let s ← (if z = 1 then do
      let Q ← qOnes.foldlM (fun Q i => Q.modify i i fun q => (q + 2) % 4) s.Q
      let b ← aOnes.foldlM (fun b row => b.modify row (· ^^^ 1)) s.b
      return { s with Q := Q, b := b, phase := (s.phase + 2 * u) % 8 }
    else
      return s : Except Exit AffineState)
  s.popColumn

/-- Eliminates column `c` of `A` when it is zero. -/
def zeroColumnElim (s : AffineState) (c : ℕ) : Except Exit AffineState := do
  let s ← s.reindexSwapColumns c
  let last := s.r - 1
  let qOnes ← s.qNonzeros
  let u := (← s.Q.get last last) % 4
  let Q ← qOnes.foldlM (fun Q rowcol => do
    let Q ← Q.set rowcol last 0
    Q.set last rowcol 0) s.Q
  let Q ← Q.set last last 0
  let s ← popColumn { s with Q := Q }
  if u % 2 = 1 then
    let Q ← qOnes.foldlM (fun Q row =>
      qOnes.foldlM (fun Q col =>
        if row = col then Q.modify row col fun q => (q + 2 + u) % 4
        else Q.modify row col (· ^^^ 1)) Q) s.Q
    return { s with Q := Q, phase := (s.phase + 2 + 8 - u) % 8 }
  else
    match qOnes with
    | [] => throw assertFailed
    | ell :: _ =>
        let colEllNonzeros ← s.aColNonzeros ell
        let s ← qOnes.foldlM (fun s col =>
          if col ≠ ell then s.reindexSubtColumn col ell colEllNonzeros
          else return s) s
        let s ← s.reindexSwapColumns ell
        s.fixFinalBit (u / 2)

/-- The column in which row `rowNumber` has its pivot. -/
def pivCol (s : AffineState) (rowNumber : ℕ) : Option ℕ :=
  s.pivots.findIdx? (· == rowNumber)

/-! ## Gates -/

/-- Steps 3 to 6 of the Hadamard gate: row `j` gets a new column of its own. -/
def addColumn (s : AffineState) (j : ℕ) : Except Exit AffineState := do
  let atildeOnes ← s.aRowNonzeros j
  let A ← atildeOnes.foldlM (fun A col => A.set j col 0) s.A
  let A ← A.set j s.r 1
  let s := { s with A := A, pivots := s.pivots ++ [j], r := s.r + 1 }
  let last := s.r - 1
  let Q ← atildeOnes.foldlM (fun Q rowcol => do
    let Q ← Q.set rowcol last 1
    Q.set last rowcol 1) s.Q
  let bj ← s.b.get j
  let Q ← Q.set last last (2 * bj)
  let b ← s.b.set j 0
  return { s with Q := Q, b := b }

/-- The Hadamard gate. -/
def H (s : AffineState) (j : ℕ) : Except Exit AffineState := do
  match s.pivCol j with
  | none => s.addColumn j
  | some c =>
      let (reselected, s) ← s.reselectPrincipalRow j c
      let s ← s.addColumn j
      if reselected then return s else s.zeroColumnElim c

/-- The controlled-`Z` gate. -/
def CZ (s : AffineState) (j k : ℕ) : Except Exit AffineState := do
  let ajOnes ← s.aRowNonzeros j
  let akOnes ← s.aRowNonzeros k
  let Q ← ajOnes.foldlM (fun Q jj => do
    let Q ← akOnes.foldlM (fun Q kk =>
      if jj = kk then Q.modify jj kk fun q => (q + 2) % 4
      else do
        let Q ← Q.modify jj kk (· ^^^ 1)
        Q.modify kk jj (· ^^^ 1)) Q
    let bk ← s.b.get k
    Q.modify jj jj fun q => (q + 2 * bk) % 4) s.Q
  let Q ← akOnes.foldlM (fun Q kk => do
    let bj ← s.b.get j
    Q.modify kk kk fun q => (q + 2 * bj) % 4) Q
  let bj ← s.b.get j
  let bk ← s.b.get k
  return { s with Q := Q, phase := (s.phase + 4 * bj * bk) % 8 }

/-- The controlled-`X` gate with control `j` and target `k`. -/
def CX (s : AffineState) (j k : ℕ) : Except Exit AffineState := do
  let c := s.pivCol k
  let A ← (← s.aRowNonzeros j).foldlM (fun A col => A.modify k col (· ^^^ 1)) s.A
  let bj ← s.b.get j
  let b ← s.b.modify k (· ^^^ bj)
  let s := { s with A := A, b := b }
  match c with
  | none => return s
  | some c => return (← s.reselectPrincipalRow (-1) c).2

/-- `*it = v` at the first position that holds `x`. -/
def replaceFirst (pivots : List ℕ) (x : Option ℕ) (v : ℕ) : List ℕ :=
  match x with
  | none => pivots
  | some i => pivots.set i v

/-- The swap gate: both rows and the pivots that name them. -/
def SWAP (s : AffineState) (j k : ℕ) : Except Exit AffineState := do
  let A ← s.A.swapRows j k
  let b ← s.b.swap j k
  let itJ := s.pivCol j
  let itK := s.pivCol k
  return { s with
    A := A
    b := b
    pivots := replaceFirst (replaceFirst s.pivots itJ k) itK j }

/-- `S` (`dg = false`) and `S†` (`dg = true`).  The unsigned arithmetic of the
source is read modulo four and eight, which divide its word size. -/
def sOrSdg (s : AffineState) (j : ℕ) (dg : Bool) : Except Exit AffineState := do
  let sign : ℤ := if dg then -1 else 1
  let ajOnes ← s.aRowNonzeros j
  let Q ← ajOnes.foldlM (fun Q row =>
    ajOnes.foldlM (fun Q col =>
      if row = col then do
        let bj ← s.b.get j
        Q.modify row col fun q =>
          ((q + (4 + sign * (1 - 2 * (bj : ℤ)))) % 4).toNat
      else Q.modify row col (· ^^^ 1)) Q) s.Q
  let bj ← s.b.get j
  return { s with
    Q := Q
    phase := (((s.phase : ℤ) + sign * 2 * bj + 8) % 8).toNat }

def S (s : AffineState) (j : ℕ) : Except Exit AffineState := s.sOrSdg j false

def SDG (s : AffineState) (j : ℕ) : Except Exit AffineState := s.sOrSdg j true

/-- The Pauli `X` gate. -/
def X (s : AffineState) (j : ℕ) : Except Exit AffineState := do
  let b ← s.b.modify j (· ^^^ 1)
  return { s with b := b }

/-- The Pauli `Z` gate. -/
def Z (s : AffineState) (j : ℕ) : Except Exit AffineState := do
  let bj ← s.b.get j
  let Q ← (List.range s.r).foldlM (fun Q i => do
    if (← s.A.get j i) ≠ 0 then Q.modify i i fun q => (q + 2) % 4
    else return Q) s.Q
  return { s with Q := Q, phase := (s.phase + 4 * bj) % 8 }

/-- The Pauli `Y` gate. -/
def Y (s : AffineState) (j : ℕ) : Except Exit AffineState := do
  let s ← Z { s with phase := (s.phase + 2) % 8 } j
  s.X j

/-! ## Measurement, removal and tensor product -/

/-- The loop of `MeasureZ` that moves the first column seen by row `j` to the
end. -/
def moveFirstNonzero (s : AffineState) (j : ℕ) :
    List ℕ → Except Exit AffineState
  | [] => return s
  | k :: rest => do
      if (← s.A.get j k) ≠ 0 then s.reindexSwapColumns k
      else s.moveFirstNonzero j rest

/-- Measurement of qubit `j` in the computational basis; `randomBit` is drawn
only when the row of `j` is not zero. -/
def measureZ (s : AffineState) (j : ℕ) (randomBit : Bool) :
    Except Exit (Bool × AffineState) := do
  if ← s.A.rowIsZero j then
    let bj ← s.b.get j
    return (bj == 1, s)
  else
    let beta := randomBit
    let s ← s.moveFirstNonzero j (List.range s.r)
    if s.r = 0 then throw outOfRange
    let s ← s.makePrincipal (s.r - 1) j
    let bj ← s.b.get j
    let s ← s.fixFinalBit (beta.toNat ^^^ bj)
    return (beta, s)

/-- The pivot clean-up loop of `DropLastQubit` from column `c` on; `fuel`
bounds the columns that are left. -/
def dropPivots (s : AffineState) (dropped : ℕ) : ℕ → ℕ → Except Exit AffineState
  | 0, _ => return s
  | fuel + 1, c => do
      if c < s.r then
        match s.pivots[c]? with
        | none => throw outOfRange
        | some p =>
            if p = dropped then
              let (reselected, s) ← s.reselectPrincipalRow dropped c
              if reselected then s.dropPivots dropped fuel (c + 1)
              else (← s.zeroColumnElim c).dropPivots dropped fuel (c + 1)
            else
              s.dropPivots dropped fuel (c + 1)
      else
        return s

/-- Removes the last qubit. -/
def dropLastQubit (s : AffineState) : Except Exit AffineState := do
  if s.n = 0 then throw (.thrown "DropLastQubit on empty state")
  let dropped := s.n - 1
  -- `r` never grows in the loop, so `r` iterations reach its end
  let s ← s.dropPivots dropped s.r 0
  let A ← (List.range s.r).foldlM (fun A c => A.set dropped c 0) s.A
  let b ← s.b.set dropped 0
  return { s with A := A, b := b, n := s.n - 1 }

/-- The `pivots_[c]` for `c < r`. -/
def pivotPrefix (s : AffineState) : Except Exit (List ℕ) :=
  if s.r ≤ s.pivots.length then .ok (s.pivots.take s.r) else .error outOfRange

/-- The tensor product, the qubits of `a` first. -/
def tensorProduct (a b : AffineState) : Except Exit AffineState := do
  let n := a.n + b.n
  let Q ← (UMatrix.setZero (n + 1) (n + 1)).setBlock 0 0 a.r a.r
    (← a.Q.block a.r a.r)
  let Q ← Q.setBlock a.r a.r b.r b.r (← b.Q.block b.r b.r)
  let A ← (UMatrix.setZero n (n + 1)).setBlock 0 0 a.n a.r
    (← a.A.block a.n a.r)
  let A ← A.setBlock a.n a.r b.n b.r (← b.A.block b.n b.r)
  let v ← (UVector.setZero n).setSegment 0 a.n (← a.b.segment a.n)
  let v ← v.setSegment a.n b.n (← b.b.segment b.n)
  return {
    n := n
    phase := (a.phase + b.phase) % 8
    r := a.r + b.r
    Q := Q
    A := A
    b := v
    pivots := (← a.pivotPrefix) ++ (← b.pivotPrefix).map (· + a.n) }

end AffineState

end Q2NS
