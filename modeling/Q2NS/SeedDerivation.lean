import Q2NS.Types
import Mathlib.Data.Fintype.EquivFin
import Mathlib.Tactic.Common

/-!
# Backend seeds

`DeriveSeed64` folds the global seed, the run, the stream and the salt of a
backend into one word by exclusive or and mixes it with `SplitMix64`.  The mixer
is injective, so two calls give the same seed exactly when the folded words are
the same.
-/

namespace Q2NS

/-! ## The code -/

/-- `QState::SplitMix64`. -/
def splitMix64 (x : BitVec 64) : BitVec 64 :=
  let x := x + 0x9e3779b97f4a7c15#64
  let x := (x ^^^ (x >>> 30)) * 0xbf58476d1ce4e5b9#64
  let x := (x ^^^ (x >>> 27)) * 0x94d049bb133111eb#64
  x ^^^ (x >>> 31)

/-- The word that `DeriveSeed64` mixes. -/
def foldedWord (seed run : BitVec 32) (stream salt : BitVec 64) : BitVec 64 :=
  (seed.setWidth 64 <<< 32) ^^^ run.setWidth 64 ^^^ stream ^^^ salt

/-- `QState::DeriveSeed64`; the stream is the signed argument read as a word. -/
def deriveSeed64 (seed run : BitVec 32) (stream salt : BitVec 64) : BitVec 64 :=
  splitMix64 (foldedWord seed run stream salt)

/-- The salts of the backends. -/
def saltOf : QStateBackend → BitVec 64
  | .Ket => 0x5150504B#64
  | .DM => 0x51505044#64
  | .Stab => 0x53544142#64

/-! ## The mixer is injective -/

/-- A word that is its own shift is zero. -/
theorem shift_fixed {d : BitVec 64} {k : ℕ} (hk : 0 < k) (h : d >>> k = d) :
    d = 0#64 := by
  have hall : ∀ n, d >>> (n * k) = d := by
    intro n
    induction n with
    | zero => rw [Nat.zero_mul, BitVec.ushiftRight_zero]
    | succ n ih =>
        rw [Nat.succ_mul, BitVec.shiftRight_add, ih, h]
  have hzero : d >>> (64 * k) = 0#64 :=
    BitVec.ushiftRight_eq_zero (Nat.le_mul_of_pos_right 64 hk)
  exact (hall 64).symm.trans hzero

/-- The shift-and-xor step loses nothing. -/
theorem xorShift_injective {k : ℕ} (hk : 0 < k) :
    Function.Injective fun x : BitVec 64 => x ^^^ (x >>> k) := by
  intro x y hxy
  have hshift : (x ^^^ y) >>> k = x ^^^ y := by
    rw [BitVec.ushiftRight_xor_distrib]
    have hcancel : (x ^^^ x >>> k) ^^^ (y ^^^ y >>> k) = 0#64 := by
      rw [show x ^^^ x >>> k = y ^^^ y >>> k from hxy, BitVec.xor_self]
    have hswap : (x ^^^ x >>> k) ^^^ (y ^^^ y >>> k) =
        (x ^^^ y) ^^^ (x >>> k ^^^ y >>> k) := by
      ac_rfl
    rw [hswap, BitVec.xor_eq_zero_iff] at hcancel
    exact hcancel.symm
  exact BitVec.xor_eq_zero_iff.mp (shift_fixed hk hshift)

/-- Neither does the product with a unit. -/
theorem mul_unit_injective {c d : BitVec 64} (h : c * d = 1#64) :
    Function.Injective fun x : BitVec 64 => x * c := by
  intro x y hxy
  have hmul : x * c * d = y * c * d := congrArg (· * d) hxy
  rwa [BitVec.mul_assoc, BitVec.mul_assoc, h, BitVec.mul_one, BitVec.mul_one]
    at hmul

theorem splitMix64_injective : Function.Injective splitMix64 := by
  intro x y hxy
  have hfirst := mul_unit_injective (c := 0xbf58476d1ce4e5b9#64)
    (d := 0x96de1b173f119089#64) (by decide)
  have hsecond := mul_unit_injective (c := 0x94d049bb133111eb#64)
    (d := 0x319642b2d24d8ec3#64) (by decide)
  have h31 := xorShift_injective (k := 31) (by decide) hxy
  have h27 := xorShift_injective (k := 27) (by decide) (hsecond h31)
  have h30 := xorShift_injective (k := 30) (by decide) (hfirst h27)
  exact (BitVec.add_left_inj _).mp h30

/-- A word keeps what is in a shorter one. -/
theorem setWidth_injective : Function.Injective fun r : BitVec 32 => r.setWidth 64 := by
  intro r r' hr
  have hback := congrArg (BitVec.setWidth 32) hr
  simpa using hback

/-- The mixer permutes the words, and each of run, stream and salt is recovered from
the seed when the other arguments are known. -/
theorem deriveSeed64_loses_nothing : Function.Bijective splitMix64 ∧
    (∀ seed run salt, Function.Injective fun stream => deriveSeed64 seed run stream salt) ∧
    (∀ seed stream salt, Function.Injective fun run => deriveSeed64 seed run stream salt) ∧
    ∀ seed run stream, Function.Injective fun salt => deriveSeed64 seed run stream salt := by
  have hfold : ∀ {seed run run' stream stream' salt salt'},
      deriveSeed64 seed run stream salt = deriveSeed64 seed run' stream' salt' →
        run.setWidth 64 ^^^ stream ^^^ salt = run'.setWidth 64 ^^^ stream' ^^^ salt' := by
    intro seed run run' stream stream' salt salt' h
    have hword := splitMix64_injective h
    rw [foldedWord, foldedWord, BitVec.xor_assoc, BitVec.xor_assoc, BitVec.xor_assoc,
      BitVec.xor_assoc, BitVec.xor_right_inj] at hword
    rwa [BitVec.xor_assoc, BitVec.xor_assoc]
  have hfinite : Finite (BitVec 64) :=
    Finite.of_injective BitVec.toFin fun _ _ h => BitVec.eq_of_toFin_eq h
  refine ⟨Finite.injective_iff_bijective.mp splitMix64_injective,
    fun seed run salt stream stream' h => ?_, fun seed stream salt run run' h => ?_,
    fun seed run stream salt salt' h => ?_⟩
  · have hword := hfold h
    rwa [BitVec.xor_left_inj, BitVec.xor_right_inj] at hword
  · have hword := hfold h
    rw [BitVec.xor_left_inj, BitVec.xor_left_inj] at hword
    exact setWidth_injective hword
  · have hword := hfold h
    rwa [BitVec.xor_right_inj] at hword

/-! ## Replications -/

/-- What distinguishes the seeds that one global seed is turned into. -/
@[ext]
structure Replication where
  run : BitVec 32
  stream : BitVec 64
  backend : QStateBackend
  deriving DecidableEq

/-- The seed that a backend gets. -/
def Replication.seed64 (t : Replication) (seed : BitVec 32) : BitVec 64 :=
  deriveSeed64 seed t.run t.stream (saltOf t.backend)

/-- The part of the folded word that depends on the replication. -/
def Replication.word (t : Replication) : BitVec 64 :=
  t.run.setWidth 64 ^^^ t.stream ^^^ saltOf t.backend

theorem Replication.foldedWord_eq (t : Replication) (seed : BitVec 32) :
    foldedWord seed t.run t.stream (saltOf t.backend) =
      (seed.setWidth 64 <<< 32) ^^^ t.word := by
  rw [foldedWord, word, BitVec.xor_assoc, BitVec.xor_assoc, BitVec.xor_assoc]

/-- Two replications get different seeds exactly when run, stream and salt do not
cancel to the same word. -/
theorem seeds_distinct_iff (seed : BitVec 32) (t t' : Replication) :
    t.seed64 seed ≠ t'.seed64 seed ↔ t.word ≠ t'.word := by
  refine not_congr ⟨fun h => ?_, fun h => ?_⟩
  · have hword := splitMix64_injective h
    rw [t.foldedWord_eq, t'.foldedWord_eq] at hword
    exact (BitVec.xor_right_inj _).mp hword
  · rw [Replication.seed64, Replication.seed64, deriveSeed64, deriveSeed64,
      t.foldedWord_eq, t'.foldedWord_eq, h]

/-- A sweep over one of the three arguments alone never meets a seed twice. -/
theorem Replication.word_ne {t t' : Replication} (hne : t ≠ t')
    (h : (t.run = t'.run ∧ t.stream = t'.stream) ∨
      (t.run = t'.run ∧ t.backend = t'.backend) ∨
      (t.stream = t'.stream ∧ t.backend = t'.backend)) : t.word ≠ t'.word := by
  have hsalt : Function.Injective saltOf := by
    intro b b' hb
    cases b <;> cases b' <;> first | rfl | exact absurd hb (by decide)
  intro heq
  have hw : t.run.setWidth 64 ^^^ t.stream ^^^ saltOf t.backend =
      t'.run.setWidth 64 ^^^ t'.stream ^^^ saltOf t'.backend := heq
  rcases h with ⟨hr, hs⟩ | ⟨hr, hb⟩ | ⟨hs, hb⟩
  · rw [hr, hs, BitVec.xor_right_inj] at hw
    exact hne (Replication.ext hr hs (hsalt hw))
  · rw [hr, hb, BitVec.xor_left_inj, BitVec.xor_right_inj] at hw
    exact hne (Replication.ext hr hw hb)
  · rw [hs, hb, BitVec.xor_left_inj, BitVec.xor_left_inj] at hw
    exact hne (Replication.ext (setWidth_injective hw) hs hb)

/-- Stream 2 of run 1 and stream 1 of run 2 are the same random numbers. -/
theorem seeds_collide : ∃ t t' : Replication, t ≠ t' ∧
    t.backend = .Ket ∧ t'.backend = .Ket ∧
      ∀ seed, t.seed64 seed = t'.seed64 seed := by
  refine ⟨⟨1#32, 2#64, .Ket⟩, ⟨2#32, 1#64, .Ket⟩, by decide, rfl, rfl,
    fun seed => ?_⟩
  have hword : (⟨1#32, 2#64, .Ket⟩ : Replication).word =
      (⟨2#32, 1#64, .Ket⟩ : Replication).word := by decide
  rw [Replication.seed64, Replication.seed64, deriveSeed64, deriveSeed64,
    Replication.foldedWord_eq ⟨1#32, 2#64, .Ket⟩,
    Replication.foldedWord_eq ⟨2#32, 1#64, .Ket⟩, hword]

end Q2NS
