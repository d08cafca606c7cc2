import Q2NS.GlobalMeasure
import Q2NS.SeedDerivation
import Q2NS.Simulation
import Q2NS.Streams

/-!
# Reproducible outcomes

The qpp engine, the engine of the stabilizer library and the guards of `ShouldReseed`
belong to the process.  A state reseeds the engine of its backend when it gets a stream,
unless the guard of its salt has seen the same seed, run and stream last.  A program is a
strategy: what `MeasureBell`, a channel map or a callback does are calls that it makes.
-/

namespace Q2NS

open QStateRegistry

/-! ## The generators of the process -/

/-- `Key` of `ShouldReseed`. -/
structure ReseedKey where
  seed : BitVec 32
  run : BitVec 32
  stream : ℤ
  deriving DecidableEq

/-- Seed and run of ns-3; `CheckSeedRunNonZero` aborts when one of them is zero. -/
structure RngSetting where
  seed : BitVec 32
  run : BitVec 32
  seed_ne : seed ≠ 0
  run_ne : run ≠ 0

/-- The key of a stream. -/
def RngSetting.key (cfg : RngSetting) (stream : ℤ) : ReseedKey := ⟨cfg.seed, cfg.run, stream⟩

/-- The two generators: how qpp's engine is seeded and sampled with the probabilities of
the outcomes, and how the stabilizer library's is seeded and gives a bit. -/
structure Generators (Engine Bits : Type) where
  seedQpp : List (BitVec 32) → Engine
  sample : Engine → (Bool → ℂ) → Bool × Engine
  seedStab : BitVec 64 → Bits
  randomBit : Bits → Bool × Bits

/-- `MakeSeedSeq`. -/
def makeSeedSeq (s64 : BitVec 64) : List (BitVec 32) :=
  [s64.setWidth 32, (s64 >>> 32).setWidth 32, 0x13579bd, 0x2468ace0]

/-- What the process keeps: both engines and, for every salt, the last key. -/
structure Process (Engine Bits : Type) where
  qpp : Engine
  stab : Bits
  last : QStateBackend → Option ReseedKey := fun _ => none

variable {Engine Bits : Type} (gen : Generators Engine Bits) (cfg : RngSetting)

namespace Process

/-- `ShouldReseed` with the salt of a backend. -/
def shouldReseed (p : Process Engine Bits) (b : QStateBackend) (key : ReseedKey) :
    Bool × Process Engine Bits :=
  if p.last b = some key then (false, p)
  else (true, { p with last := Function.update p.last b (some key) })

/-- The callback that a backend passes: ket and density-matrix states seed qpp's engine. -/
def reseed (p : Process Engine Bits) (b : QStateBackend) (s64 : BitVec 64) :
    Process Engine Bits :=
  match b with
  | .Stab => { p with stab := gen.seedStab s64 }
  | _ => { p with qpp := gen.seedQpp (makeSeedSeq s64) }

/-- `AssignStreamsGlobal`, as called by `AssignStreams` of a state. -/
def assignStreams (p : Process Engine Bits) (b : QStateBackend) (stream : ℤ) :
    Process Engine Bits :=
  match p.shouldReseed b (cfg.key stream) with
  | (false, p) => p
  | (true, p) => p.reseed gen b
      (deriveSeed64 cfg.seed cfg.run (BitVec.ofInt 64 stream) (saltOf b))

/-- The draw of a measurement: qpp samples one of the outcomes, and the stabilizer
library draws a bit when the outcome is not determined. -/
noncomputable def draw (p : Process Engine Bits) (v : QState) (t : ℕ) (basis : Basis) :
    Bool × Process Engine Bits :=
  match v with
  | .stab st =>
      match QStateStab.drawsBit st t basis with
      | .ok true => ((gen.randomBit p.stab).1, { p with stab := (gen.randomBit p.stab).2 })
      | _ => (false, p)
  | v => ((gen.sample p.qpp (v.prob t basis)).1,
      { p with qpp := (gen.sample p.qpp (v.prob t basis)).2 })

end Process

/-! ## Programs -/

/-- A controller in a process; the ghost field lists the streams that its states got,
with the backends of the states. -/
structure Simulation (Engine Bits : Type) where
  ctl : NetController
  process : Process Engine Bits
  given : List (QStateBackend × ℤ) := []

namespace Simulation

/-- The registry of the controller. -/
def registry (s : Simulation Engine Bits) : QStateRegistry := s.ctl.net.registry

/-- `nextStream_ += st.AssignStreams(nextStream_)` for a state of backend `b`. -/
def assignState (s : Simulation Engine Bits) (x : StateId × QStateBackend) :
    Simulation Engine Bits where
  ctl := s.ctl.give (QState.assignStreams x.1)
  process := s.process.assignStreams gen cfg x.2 s.ctl.nextStream
  given := s.given ++ [(x.2, s.ctl.nextStream)]

/-- The registered states with their backends. -/
noncomputable def backends (w : QStateRegistry) (sids : List StateId) :
    List (StateId × QStateBackend) :=
  sids.map fun sid => (sid, (w.valueOf sid).backend)

/-- `NetController::AssignStreams`: the channels and then the states in the order of
their ids. -/
noncomputable def assignStreams (s : Simulation Engine Bits) (stream : ℤ) :
    Simulation Engine Bits :=
  let ctl := { s.ctl with streamsAssigned := true, nextStream := stream }
  let ctl := (ctl.giveAll 0 (ctl.sortedChannels.map QChannel.assignStreams)).2
  (backends s.registry (s.registry.registered.sort (· ≤ ·))).foldl
    (assignState gen cfg) { s with ctl := ctl }

/-- The registry becomes `w`, and the hook has run for the states `sids`, which `exec_logs`
says are the ids taken; no call draws after it has registered a state. -/
def registered (s : Simulation Engine Bits) (w : QStateRegistry)
    (sids : List (StateId × QStateBackend)) : Simulation Engine Bits :=
  let s := { s with ctl := { s.ctl with net := { s.ctl.net with registry := w } } }
  if s.ctl.streamsAssigned then sids.foldl (assignState gen cfg) s else s

/-- A call of a program. -/
inductive Call where
  | assignStreams (stream : ℤ)
  | installQuantumLink (a b : Option NodeId)
  | setQStateBackend (b : QStateBackend)
  | createQubit (node : NodeId)
  | createBellPair (node : NodeId)
  | apply (node : NodeId) (gate : QGate) (qs : List QubitPtr)
  | mergeStates (qs : List QubitPtr)
  | measure (node : NodeId) (q : QubitPtr) (basis : Basis)
  | adoptQubit (node : NodeId) (q : QubitPtr)
  | setLocationNode (q : QubitPtr) (node : NodeId)
  | setLocationChannel (q : QubitPtr) (c : ChannelId)
  | setLocationLost (q : QubitPtr)

/-- What a call returns, as far as it is random. -/
abbrev Reply := Option (Except Exit ℤ)

/-- A call that makes states of the default backend. -/
noncomputable def create (s : Simulation Engine Bits) (op : Op) :
    Option (Reply × Simulation Engine Bits) :=
  (s.registry.step op).map fun w => (none, s.registered gen cfg w
    ((taken s.registry w).map fun sid => (sid, s.registry.defaultBackend)))

/-- A call that makes no state, or merges some. -/
noncomputable def perform (s : Simulation Engine Bits) (op : Op) :
    Option (Reply × Simulation Engine Bits) :=
  (s.registry.step op).map fun w => (none, s.registered gen cfg w
    (backends w (taken s.registry w)))

/-- What is drawn for `Measure`: nothing for a call that is rejected. -/
noncomputable def drawFor (s : Simulation Engine Bits) (node : NodeId) (q : QubitPtr)
    (basis : Basis) : Bool × Process Engine Bits :=
  if s.registry.numHandles ≤ q ∨ ¬ s.registry.IsLocal node q then (false, s.process)
  else s.process.draw gen (s.registry.valueOf (s.registry.qubits q).stateId)
    (s.registry.qubits q).indexInState basis

/-- The end of `Measure`. -/
noncomputable def returned (s : Simulation Engine Bits)
    (x : Except Exit ℤ × QStateRegistry) : Option (Reply × Simulation Engine Bits) :=
  match x with
  | (.error (.aborted _), _) => none
  | (r, w) => some (some r, s.registered gen cfg w (backends w (taken s.registry w)))

/-- `Measure`. -/
noncomputable def measure (s : Simulation Engine Bits) (node : NodeId) (q : QubitPtr)
    (basis : Basis) : Option (Reply × Simulation Engine Bits) :=
  let drawn := s.drawFor gen node q basis
  { s with process := drawn.2 }.returned gen cfg (s.registry.measure node q basis drawn.1)

/-- The simulation after a call; `none` when the process ends. -/
noncomputable def step (s : Simulation Engine Bits) :
    Call → Option (Reply × Simulation Engine Bits)
  | .assignStreams stream => some (none, s.assignStreams gen cfg stream)
  | .installQuantumLink a b =>
      some (none, { s with ctl := s.ctl.installQuantumLink a b })
  | .setQStateBackend b => s.perform gen cfg (.setDefaultBackend b)
  | .createQubit node => s.create gen cfg (.createQubit node)
  | .createBellPair node => s.create gen cfg (.createBellPair node)
  | .apply node gate qs => s.perform gen cfg (.apply node gate qs)
  | .mergeStates qs =>
      match s.registry.mergeStates qs with
      | (.error (.aborted _), _) => none
      | (_, w) => some (none, s.registered gen cfg w (backends w (taken s.registry w)))
  | .measure node q basis => s.measure gen cfg node q basis
  | .adoptQubit node q => s.perform gen cfg (.adoptQubit node q)
  | .setLocationNode q node => s.perform gen cfg (.setLocationNode q node)
  | .setLocationChannel q c => s.perform gen cfg (.setLocationChannel q c)
  | .setLocationLost q => s.perform gen cfg (.setLocationLost q)

/-- A program decides its next call from the results so far, one for every call, and from
the controller. -/
abbrev Program := List Reply → NetController → Option Call

/-- The next call of a program; it ends when there is none or the process ends. -/
noncomputable def advance (prog : Program) (x : List Reply × Simulation Engine Bits) :
    List Reply × Simulation Engine Bits :=
  match (prog x.1 x.2.ctl).bind (x.2.step gen cfg) with
  | none => x
  | some (r, s) => (x.1 ++ [r], s)

/-- A program on its own controller, after at most `n` calls. -/
noncomputable def run (prog : Program) (p : Process Engine Bits) :
    ℕ → List Reply × Simulation Engine Bits
  | 0 => ([], { ctl := {}, process := p })
  | n + 1 => advance gen cfg prog (run prog p n)

/-! ## Two processes -/

variable {gen cfg} {p₁ p₂ : Process Engine Bits} {s s₁ s₂ : Simulation Engine Bits}

/-- A state of backend `b` has got a stream. -/
def Given (s : Simulation Engine Bits) (b : QStateBackend) : Prop := b ∈ s.given.map Prod.fst

/-- The first stream of a state of backend `b`. -/
def firstStream (s : Simulation Engine Bits) (b : QStateBackend) : Option ℤ :=
  (s.given.find? fun x => x.1 = b).map Prod.snd

/-- The guards that were left over in `p` do not suppress a first reseed. -/
def Reseeds (cfg : RngSetting) (p : Process Engine Bits) (s : Simulation Engine Bits) : Prop :=
  ∀ b stream, s.firstStream b = some stream → p.last b ≠ some (cfg.key stream)

/-- Two runs that began in `p₁` and `p₂` differ in nothing that a state with a stream
reads. -/
structure Related (p₁ p₂ : Process Engine Bits) (s₁ s₂ : Simulation Engine Bits) :
    Prop where
  ctl : s₁.ctl = s₂.ctl
  given : s₁.given = s₂.given
  last : ∀ b, s₁.Given b → s₁.process.last b = s₂.process.last b
  leftover : ∀ b, ¬ s₁.Given b →
    s₁.process.last b = p₁.last b ∧ s₂.process.last b = p₂.last b
  qpp : ∀ b, s₁.Given b → b ≠ .Stab → s₁.process.qpp = s₂.process.qpp
  stab : s₁.Given .Stab → s₁.process.stab = s₂.process.stab

/-- Every registered state has got a stream, once streams are assigned. -/
structure Covered (s : Simulation Engine Bits) : Prop where
  inv : s.registry.Inv
  backends : s.ctl.streamsAssigned = true →
    AllStates (fun v => s.Given v.backend) s.registry

theorem Process.assignStreams_of_eq {p : Process Engine Bits} {b : QStateBackend} {stream : ℤ}
    (h : p.last b = some (cfg.key stream)) : p.assignStreams gen cfg b stream = p := by
  rw [Process.assignStreams, Process.shouldReseed, if_pos h]

theorem Process.assignStreams_of_ne {p : Process Engine Bits} {b : QStateBackend} {stream : ℤ}
    (h : p.last b ≠ some (cfg.key stream)) : p.assignStreams gen cfg b stream =
      { p with last := Function.update p.last b (some (cfg.key stream)) }.reseed gen b
        (deriveSeed64 cfg.seed cfg.run (BitVec.ofInt 64 stream) (saltOf b)) := by
  rw [Process.assignStreams, Process.shouldReseed, if_neg h]

theorem Process.reseed_last (p : Process Engine Bits) (b : QStateBackend) (s64 : BitVec 64) :
    (p.reseed gen b s64).last = p.last := by
  cases b <;> rfl

theorem given_assignState (s : Simulation Engine Bits) (x : StateId × QStateBackend)
    (b : QStateBackend) :
    (s.assignState gen cfg x).Given b ↔ s.Given b ∨ b = x.2 := by
  simp [Given, assignState]

/-- The first stream of a backend stays its first stream. -/
theorem firstStream_append {given rest : List (QStateBackend × ℤ)}
    (h : s₁.given = given ∧ s₂.given = given ++ rest) {b : QStateBackend} {stream : ℤ}
    (hfirst : s₁.firstStream b = some stream) : s₂.firstStream b = some stream := by
  obtain ⟨x, hx, rfl⟩ := Option.map_eq_some_iff.mp hfirst
  rw [h.1] at hx
  rw [firstStream, h.2, List.find?_append, hx]
  rfl

theorem Reseeds.of_append (hr : Reseeds cfg p₁ s₂) {rest : List (QStateBackend × ℤ)}
    (h : s₂.given = s₁.given ++ rest) : Reseeds cfg p₁ s₁ := fun b stream hfirst =>
  hr b stream (firstStream_append ⟨rfl, h⟩ hfirst)

/-- A state that is the first of its backend gets the first stream. -/
theorem firstStream_assignState (s : Simulation Engine Bits) (x : StateId × QStateBackend)
    (h : ¬ s.Given x.2) :
    (s.assignState gen cfg x).firstStream x.2 = some s.ctl.nextStream := by
  have hnone : s.given.find? (fun y => y.1 = x.2) = none := by
    rw [List.find?_eq_none]
    intro y hy he
    exact h (List.mem_map.mpr ⟨y, hy, of_decide_eq_true he⟩)
  simp [firstStream, assignState, List.find?_append, hnone]

/-- Giving the same state its stream in both runs. -/
theorem Related.assignState (h : Related p₁ p₂ s₁ s₂) (x : StateId × QStateBackend)
    (hr₁ : Reseeds cfg p₁ (s₁.assignState gen cfg x))
    (hr₂ : Reseeds cfg p₂ (s₂.assignState gen cfg x)) :
    Related p₁ p₂ (s₁.assignState gen cfg x) (s₂.assignState gen cfg x) := by
  obtain ⟨sid, b⟩ := x
  have hgiven : ∀ c, s₂.Given c ↔ s₁.Given c := fun c => by rw [Given, Given, h.given]
  have hnext : s₁.ctl.nextStream = s₂.ctl.nextStream := congrArg NetController.nextStream h.ctl
  have hgiven' : ∀ c, (s₁.assignState gen cfg (sid, b)).Given c ↔ s₁.Given c ∨ c = b :=
    fun c => given_assignState s₁ (sid, b) c
  have hctl : (s₁.assignState gen cfg (sid, b)).ctl = (s₂.assignState gen cfg (sid, b)).ctl :=
    congrArg (NetController.give · (QState.assignStreams sid)) h.ctl
  have hlist : (s₁.assignState gen cfg (sid, b)).given =
      (s₂.assignState gen cfg (sid, b)).given := by
    rw [Simulation.assignState, Simulation.assignState, h.given, hnext]
  set key := cfg.key s₁.ctl.nextStream with hkey
  have hprocess₁ : (s₁.assignState gen cfg (sid, b)).process =
      s₁.process.assignStreams gen cfg b s₁.ctl.nextStream := rfl
  have hprocess₂ : (s₂.assignState gen cfg (sid, b)).process =
      s₂.process.assignStreams gen cfg b s₁.ctl.nextStream := by
    rw [hnext]
    rfl
  by_cases hskip : s₁.process.last b = some key
  · -- only a backend that has a stream can be skipped, and both runs skip it
    have hb : s₁.Given b := by
      by_contra hb
      refine hr₁ b _ (firstStream_assignState s₁ (sid, b) hb) ?_
      rw [← (h.leftover b hb).1, hskip]
    have hskip₂ : s₂.process.last b = some key := (h.last b hb) ▸ hskip
    rw [Process.assignStreams_of_eq hskip] at hprocess₁
    rw [Process.assignStreams_of_eq hskip₂] at hprocess₂
    have hsame : ∀ c, (s₁.assignState gen cfg (sid, b)).Given c → s₁.Given c := fun c hc =>
      ((hgiven' c).mp hc).elim id fun he => he ▸ hb
    refine ⟨hctl, hlist, fun c hc => ?_, fun c hc => ?_, fun c hc hne => ?_, fun hc => ?_⟩
    all_goals rw [hprocess₁, hprocess₂]
    · exact h.last c (hsame c hc)
    · exact h.leftover c fun hg => hc ((hgiven' c).mpr (.inl hg))
    · exact h.qpp c (hsame c hc) hne
    · exact h.stab (hsame _ hc)
  · have hskip₂ : s₂.process.last b ≠ some key := by
      by_cases hb : s₁.Given b
      · rwa [← h.last b hb]
      · rw [(h.leftover b hb).2, hkey, hnext]
        exact hr₂ b _ (firstStream_assignState s₂ (sid, b) (mt (hgiven b).mp hb))
    rw [Process.assignStreams_of_ne hskip] at hprocess₁
    rw [Process.assignStreams_of_ne hskip₂] at hprocess₂
    refine ⟨hctl, hlist, fun c hc => ?_, fun c hc => ?_, fun c hc hne => ?_, fun hc => ?_⟩
    all_goals rw [hprocess₁, hprocess₂]
    · rw [Process.reseed_last, Process.reseed_last]
      by_cases hcb : c = b
      · rw [hcb]
        simp only [Function.update_self]
      · have hold := ((hgiven' c).mp hc).resolve_right hcb
        exact (Function.update_of_ne hcb ..).trans
          ((h.last c hold).trans (Function.update_of_ne hcb ..).symm)
    · rw [Process.reseed_last, Process.reseed_last]
      have hcb : c ≠ b := fun he => hc ((hgiven' c).mpr (.inr he))
      have hold := h.leftover c fun hg => hc ((hgiven' c).mpr (.inl hg))
      exact ⟨(Function.update_of_ne hcb ..).trans hold.1,
        (Function.update_of_ne hcb ..).trans hold.2⟩
    · cases b with
      | Stab => exact h.qpp c (((hgiven' c).mp hc).resolve_right hne) hne
      | Ket => rfl
      | DM => rfl
    · cases b with
      | Stab => rfl
      | Ket => exact h.stab (((hgiven' _).mp hc).resolve_right (by decide))
      | DM => exact h.stab (((hgiven' _).mp hc).resolve_right (by decide))

variable (gen cfg) in
theorem foldl_given (s : Simulation Engine Bits) (xs : List (StateId × QStateBackend)) :
    ∃ rest, (xs.foldl (assignState gen cfg) s).given = s.given ++ rest ∧
      ∀ b, b ∈ rest.map Prod.fst ↔ b ∈ xs.map Prod.snd := by
  induction xs generalizing s with
  | nil => exact ⟨[], (List.append_nil _).symm, fun b => Iff.rfl⟩
  | cons x xs ih =>
      obtain ⟨rest, hrest, hmem⟩ := ih (s.assignState gen cfg x)
      refine ⟨(x.2, s.ctl.nextStream) :: rest, ?_, fun b => ?_⟩
      · rw [List.foldl_cons, hrest, assignState, List.append_assoc, List.singleton_append]
      · simp only [List.map_cons, List.mem_cons, hmem]

variable (gen cfg) in
theorem foldl_registry (s : Simulation Engine Bits) (xs : List (StateId × QStateBackend)) :
    (xs.foldl (assignState gen cfg) s).registry = s.registry ∧
      (xs.foldl (assignState gen cfg) s).ctl.streamsAssigned = s.ctl.streamsAssigned := by
  induction xs generalizing s with
  | nil => exact ⟨rfl, rfl⟩
  | cons x xs ih => exact ih (s.assignState gen cfg x)

theorem Related.foldl (h : Related p₁ p₂ s₁ s₂) (xs : List (StateId × QStateBackend))
    (hr₁ : Reseeds cfg p₁ (xs.foldl (Simulation.assignState gen cfg) s₁))
    (hr₂ : Reseeds cfg p₂ (xs.foldl (Simulation.assignState gen cfg) s₂)) :
    Related p₁ p₂ (xs.foldl (Simulation.assignState gen cfg) s₁)
      (xs.foldl (Simulation.assignState gen cfg) s₂) := by
  induction xs generalizing s₁ s₂ with
  | nil => exact h
  | cons x xs ih =>
      obtain ⟨rest₁, hrest₁, -⟩ := foldl_given gen cfg
        (s₁.assignState gen cfg x) xs
      obtain ⟨rest₂, hrest₂, -⟩ := foldl_given gen cfg
        (s₂.assignState gen cfg x) xs
      exact ih (h.assignState x (hr₁.of_append hrest₁) (hr₂.of_append hrest₂)) hr₁ hr₂

/-! ## One call in both -/

variable {w : QStateRegistry} {sids : List (StateId × QStateBackend)}

variable (gen cfg) in
theorem registered_registry (s : Simulation Engine Bits) (w : QStateRegistry)
    (sids : List (StateId × QStateBackend)) :
    (s.registered gen cfg w sids).registry = w ∧
      (s.registered gen cfg w sids).ctl.streamsAssigned = s.ctl.streamsAssigned := by
  rw [registered]
  split_ifs
  · exact foldl_registry gen cfg _ sids
  · exact ⟨rfl, rfl⟩

/-- Once streams are assigned, the states that are registered get one, and no stream is
taken back. -/
theorem registered_given (s : Simulation Engine Bits) (w : QStateRegistry)
    (sids : List (StateId × QStateBackend)) (h : s.ctl.streamsAssigned = true)
    (b : QStateBackend) :
    (s.registered gen cfg w sids).Given b ↔ s.Given b ∨ b ∈ sids.map Prod.snd := by
  obtain ⟨rest, hrest, hmem⟩ := foldl_given gen cfg
    { s with ctl := { s.ctl with net := { s.ctl.net with registry := w } } } sids
  rw [registered, if_pos h, Given, hrest, List.map_append, List.mem_append, hmem, Given]

theorem Related.registered (h : Related p₁ p₂ s₁ s₂) (w : QStateRegistry)
    (sids : List (StateId × QStateBackend))
    (hr₁ : Reseeds cfg p₁ (s₁.registered gen cfg w sids))
    (hr₂ : Reseeds cfg p₂ (s₂.registered gen cfg w sids)) :
    Related p₁ p₂ (s₁.registered gen cfg w sids) (s₂.registered gen cfg w sids) := by
  have hset : Related p₁ p₂
      { s₁ with ctl := { s₁.ctl with net := { s₁.ctl.net with registry := w } } }
      { s₂ with ctl := { s₂.ctl with net := { s₂.ctl.net with registry := w } } } :=
    ⟨by rw [h.ctl], h.given, h.last, h.leftover, h.qpp, h.stab⟩
  by_cases hflag : s₁.ctl.streamsAssigned = true
  · have hflag₂ : s₂.ctl.streamsAssigned = true := h.ctl ▸ hflag
    rw [Simulation.registered, if_pos hflag] at hr₁ ⊢
    rw [Simulation.registered, if_pos hflag₂] at hr₂ ⊢
    exact hset.foldl sids hr₁ hr₂
  · have hflag₂ : ¬ s₂.ctl.streamsAssigned = true := h.ctl ▸ hflag
    rw [Simulation.registered, if_neg hflag, Simulation.registered, if_neg hflag₂]
    exact hset

/-- Both runs make the step, and what they reach is related again. -/
def Together (cfg : RngSetting) (p₁ p₂ : Process Engine Bits)
    (x₁ x₂ : Option (Reply × Simulation Engine Bits)) : Prop :=
  x₁ = none ∧ x₂ = none ∨ ∃ r s₁ s₂, x₁ = some (r, s₁) ∧ x₂ = some (r, s₂) ∧ s₁.Covered ∧
    (Reseeds cfg p₁ s₁ → Reseeds cfg p₂ s₂ → Related p₁ p₂ s₁ s₂)

theorem Covered.mono (hinv : w.Inv) (hall : s.ctl.streamsAssigned = true →
      AllStates (fun v => (s.registered gen cfg w sids).Given v.backend) w) :
    (s.registered gen cfg w sids).Covered := by
  obtain ⟨hw, hflag⟩ := registered_registry gen cfg s w sids
  exact ⟨hw.symm ▸ hinv, fun h => hw.symm ▸ hall (hflag ▸ h)⟩

/-- A registry that both runs reach, in which nothing is on a new backend. -/
theorem Related.together (h : Related p₁ p₂ s₁ s₂) (r : Reply) (hinv : w.Inv)
    (hall : s₁.ctl.streamsAssigned = true →
      AllStates (fun v => (s₁.registered gen cfg w sids).Given v.backend) w) :
    Together cfg p₁ p₂ (some (r, s₁.registered gen cfg w sids))
      (some (r, s₂.registered gen cfg w sids)) :=
  .inr ⟨r, _, _, rfl, rfl, .mono hinv hall, h.registered w sids⟩

theorem Related.registry (h : Related p₁ p₂ s₁ s₂) : s₂.registry = s₁.registry :=
  congrArg (fun c : NetController => c.net.registry) h.ctl.symm

theorem appliesOk_backend (P : QStateBackend → Prop) (w : QStateRegistry) (gate : QGate)
    (qs : List QubitPtr) : AppliesOk (fun v => P v.backend) w gate qs :=
  fun _ _ _ _ hok hv => (congrArg P (QState.apply_backend hv)).mpr hok

/-- A call that makes no state of a new backend. -/
theorem Related.perform (h : Related p₁ p₂ s₁ s₂) (hc : s₁.Covered) {op : Op}
    (hfresh : s₁.registry.AdoptsFresh op)
    (hok : OpOk (fun v => s₁.Given v.backend) s₁.registry op) :
    Together cfg p₁ p₂ (s₁.perform gen cfg op) (s₂.perform gen cfg op) := by
  rw [Simulation.perform, Simulation.perform, h.registry]
  cases hs : s₁.registry.step op with
  | none => exact .inl ⟨rfl, rfl⟩
  | some w =>
      refine h.together none (hc.inv.step_keeps hfresh hs).inv fun hflag s p hp => ?_
      have hall := hc.inv.step_allStates (backends_closed s₁.Given) (hc.backends hflag)
        hfresh hok hs
      exact (registered_given s₁ w _ hflag _).mpr (.inl (hall s p hp))

/-- A call that makes a state of the default backend. -/
theorem Related.create (h : Related p₁ p₂ s₁ s₂) (hc : s₁.Covered) {op : Op}
    (hfresh : s₁.registry.AdoptsFresh op)
    (hok : ∀ P : QStateBackend → Prop, P s₁.registry.defaultBackend →
      OpOk (fun v => P v.backend) s₁.registry op)
    (hnew : ∀ w, s₁.registry.step op = some w → s₁.registry.nextStateId < w.nextStateId) :
    Together cfg p₁ p₂ (s₁.create gen cfg op) (s₂.create gen cfg op) := by
  rw [Simulation.create, Simulation.create, h.registry]
  cases hs : s₁.registry.step op with
  | none => exact .inl ⟨rfl, rfl⟩
  | some w =>
      refine h.together none (hc.inv.step_keeps hfresh hs).inv fun hflag => ?_
      have hlt := hnew w hs
      have hmem : s₁.registry.nextStateId ∈ taken s₁.registry w :=
        (mem_taken hlt.le).mpr ⟨le_rfl, hlt⟩
      refine hc.inv.step_allStates (backends_closed _) (fun s p hp => ?_) hfresh (hok _ ?_) hs
      · exact (registered_given s₁ w _ hflag _).mpr (.inl (hc.backends hflag s p hp))
      · refine (registered_given s₁ w _ hflag _).mpr (.inr ?_)
        rw [List.map_map]
        exact List.mem_map.mpr ⟨_, hmem, rfl⟩

theorem lt_of_createQubit {w w' : QStateRegistry} (h : w.Inv) {node : NodeId}
    (hs : w.step (.createQubit node) = some w') : w.nextStateId < w'.nextStateId := by
  obtain ⟨v, -, heq⟩ := h.createQubit_eq node
  rw [QStateRegistry.step, exec, heq] at hs
  obtain rfl := Option.some.inj hs
  exact Nat.lt_succ_self _

theorem lt_of_createBellPair {w w' : QStateRegistry} (h : w.Inv) {node : NodeId}
    (hs : w.step (.createBellPair node) = some w') : w.nextStateId < w'.nextStateId := by
  obtain ⟨v, -, heq⟩ := h.createBellPair_eq node
  have hgrows : (w.withPair node v).Grows (w.createBellPair node).2 := by
    rw [heq]
    exact ((apply_logs _ node _ _).andThen fun _ w₂ =>
      (w₂.apply_logs node _ _).andThen fun _ w₃ => (Quiet.refl w₃).logs).grows
  have hend : w' = (w.createBellPair node).2 := by
    rw [QStateRegistry.step] at hs
    split at hs
    · cases hs
    · next w'' hexec =>
        obtain rfl := Option.some.inj hs
        exact (congrArg Prod.snd hexec).symm
  rw [hend]
  exact (Nat.lt_succ_self _).trans_le hgrows.next

/-- The draws for a state whose backend has a stream are the same. -/
theorem Related.draw (h : Related p₁ p₂ s₁ s₂) {v : QState} (hv : s₁.Given v.backend)
    (t : ℕ) (basis : Basis) :
    (s₁.process.draw gen v t basis).1 = (s₂.process.draw gen v t basis).1 ∧
      Related p₁ p₂ { s₁ with process := (s₁.process.draw gen v t basis).2 }
        { s₂ with process := (s₂.process.draw gen v t basis).2 } := by
  have hqpp : ∀ b, b ≠ .Stab → v.backend = b → s₁.process.qpp = s₂.process.qpp :=
    fun b hb hvb => h.qpp b (hvb ▸ hv) hb
  cases v with
  | stab st =>
      have hstab := h.stab hv
      rw [Process.draw, Process.draw]
      split
      · rw [hstab]
        exact ⟨rfl, h.ctl, h.given, h.last, h.leftover, h.qpp, fun _ => rfl⟩
      · exact ⟨rfl, h⟩
  | ket psi =>
      have heq := hqpp .Ket (by decide) rfl
      simp only [Process.draw, heq]
      exact ⟨trivial, h.ctl, h.given, h.last, h.leftover, fun _ _ _ => rfl, h.stab⟩
  | dm rho =>
      have heq := hqpp .DM (by decide) rfl
      simp only [Process.draw, heq]
      exact ⟨trivial, h.ctl, h.given, h.last, h.leftover, fun _ _ _ => rfl, h.stab⟩

variable (gen) in
/-- The chosen draw, and the generators after it. -/
theorem Related.drawFor (h : Related p₁ p₂ s₁ s₂) (hc : s₁.Covered)
    (hflag : s₁.ctl.streamsAssigned = true) (node : NodeId) (q : QubitPtr) (basis : Basis) :
    (s₁.drawFor gen node q basis).1 = (s₂.drawFor gen node q basis).1 ∧
      Related p₁ p₂ { s₁ with process := (s₁.drawFor gen node q basis).2 }
        { s₂ with process := (s₂.drawFor gen node q basis).2 } := by
  rw [Simulation.drawFor, Simulation.drawFor, h.registry]
  split_ifs with hrejected
  · exact ⟨rfl, h⟩
  · have hq := not_le.mp (not_or.mp hrejected).1
    exact h.draw ((hc.backends hflag).valueOf (hc.inv.states_of_handle hq)) _ basis

theorem Related.returned (h : Related p₁ p₂ s₁ s₂) (hflag : s₁.ctl.streamsAssigned = true)
    {x : Except Exit ℤ × QStateRegistry} (hinv : x.2.Inv)
    (hall : AllStates (fun v => s₁.Given v.backend) x.2) :
    Together cfg p₁ p₂ (s₁.returned gen cfg x) (s₂.returned gen cfg x) := by
  rw [Simulation.returned.eq_def, Simulation.returned.eq_def, h.registry]
  split
  · exact .inl ⟨rfl, rfl⟩
  · next r w _ =>
      exact h.together (some r) hinv fun _ s p hs =>
        (registered_given s₁ w _ hflag _).mpr (.inl (hall s p hs))

theorem Related.measure (h : Related p₁ p₂ s₁ s₂) (hc : s₁.Covered)
    (hflag : s₁.ctl.streamsAssigned = true) (node : NodeId) (q : QubitPtr) (basis : Basis) :
    Together cfg p₁ p₂ (s₁.measure gen cfg node q basis)
      (s₂.measure gen cfg node q basis) := by
  obtain ⟨hdraw, hrelated⟩ := h.drawFor gen hc hflag node q basis
  rw [Simulation.measure, Simulation.measure, h.registry, ← hdraw]
  exact hrelated.returned hflag (hc.inv.measure_keeps node q basis _).inv
    (hc.inv.measure_allStates (backends_closed s₁.Given) (hc.backends hflag) node q basis _)

theorem Related.mergeStates (h : Related p₁ p₂ s₁ s₂) (hc : s₁.Covered)
    (qs : List QubitPtr) :
    Together cfg p₁ p₂ (s₁.step gen cfg (.mergeStates qs))
      (s₂.step gen cfg (.mergeStates qs)) := by
  obtain ⟨hinv, -⟩ := hc.inv.mergeStates_allStates (backends_closed fun _ => True)
    (fun _ _ _ => trivial) qs
  have hall := fun hflag => (hc.inv.mergeStates_allStates (backends_closed s₁.Given)
    (hc.backends hflag) qs).2
  rw [Simulation.step, Simulation.step, h.registry]
  split
  · exact .inl ⟨rfl, rfl⟩
  · next w _ heq =>
      rw [heq] at hinv hall
      exact h.together none hinv fun hflag s p hs =>
        (registered_given s₁ w _ hflag _).mpr (.inl (hall hflag s p hs))

/-- `AssignStreams` gives every registered state a stream. -/
theorem Related.assignStreams (h : Related p₁ p₂ s₁ s₂) (hc : s₁.Covered) (stream : ℤ) :
    Together cfg p₁ p₂ (s₁.step gen cfg (.assignStreams stream))
      (s₂.step gen cfg (.assignStreams stream)) := by
  set start := { s₁.ctl with streamsAssigned := true, nextStream := stream } with hstart
  set ctl := (start.giveAll 0 (start.sortedChannels.map QChannel.assignStreams)).2 with hctl
  set xs := backends s₁.registry (s₁.registry.registered.sort (· ≤ ·)) with hxs
  have hnet : ctl.net = s₁.ctl.net := (NetController.sameBut_giveAll _ 0).net
  have h₁ : s₁.assignStreams gen cfg stream =
      xs.foldl (Simulation.assignState gen cfg) { s₁ with ctl := ctl } := rfl
  have h₂ : s₂.assignStreams gen cfg stream =
      xs.foldl (Simulation.assignState gen cfg) { s₂ with ctl := ctl } := by
    rw [Simulation.assignStreams, h.registry, ← h.ctl]
  have hset : Related p₁ p₂ { s₁ with ctl := ctl } { s₂ with ctl := ctl } :=
    ⟨rfl, h.given, h.last, h.leftover, h.qpp, h.stab⟩
  obtain ⟨hregistry, -⟩ := foldl_registry gen cfg { s₁ with ctl := ctl } xs
  obtain ⟨rest, hgiven, hmem⟩ := foldl_given gen cfg { s₁ with ctl := ctl } xs
  have hsame : (s₁.assignStreams gen cfg stream).registry = s₁.registry := by
    rw [h₁, hregistry, Simulation.registry, hnet]
    rfl
  refine .inr ⟨none, _, _, rfl, rfl, ⟨hsame.symm ▸ hc.inv, fun _ => ?_⟩, fun hr₁ hr₂ => ?_⟩
  · rw [hsame]
    intro sid p hp
    have hvalue : s₁.registry.valueOf sid = (s₁.registry.objects p).value := by
      rw [valueOf, hp]
      rfl
    rw [h₁, Given, hgiven, List.map_append, List.mem_append, hmem, ← hvalue]
    refine .inr (List.mem_map.mpr ⟨(sid, _), List.mem_map.mpr ⟨sid, ?_, rfl⟩, rfl⟩)
    rw [Finset.mem_sort, hc.inv.mem_registered, hp]
    exact Option.some_ne_none p
  · rw [h₁] at hr₁ ⊢
    rw [h₂] at hr₂ ⊢
    exact hset.foldl xs hr₁ hr₂

theorem Related.installQuantumLink (h : Related p₁ p₂ s₁ s₂) (hc : s₁.Covered)
    (a b : Option NodeId) :
    Together cfg p₁ p₂ (s₁.step gen cfg (.installQuantumLink a b))
      (s₂.step gen cfg (.installQuantumLink a b)) := by
  have hsame : (s₁.ctl.installQuantumLink a b).net.registry = s₁.registry ∧
      (s₁.ctl.installQuantumLink a b).streamsAssigned = s₁.ctl.streamsAssigned := by
    rcases s₁.ctl.installQuantumLink_cases a b with heq | ⟨k, net, -, -, -, hnet, heq⟩
    · rw [heq]
      exact ⟨rfl, rfl⟩
    · rw [heq]
      refine ⟨hnet, ?_⟩
      dsimp only
      split_ifs <;> rfl
  refine .inr ⟨none, _, _, rfl, rfl, ⟨?_, fun hflag => ?_⟩, fun _ _ => ?_⟩
  · exact (congrArg QStateRegistry.Inv hsame.1).mpr hc.inv
  · have hall := hc.backends (hsame.2 ▸ hflag)
    rwa [← hsame.1] at hall
  · exact ⟨congrArg (NetController.installQuantumLink · a b) h.ctl, h.given, h.last,
      h.leftover, h.qpp, h.stab⟩

/-- One call, in both runs. -/
theorem Related.step (h : Related p₁ p₂ s₁ s₂) (hc : s₁.Covered) (call : Call)
    (hflag : ∀ node q basis, call = .measure node q basis →
      s₁.ctl.streamsAssigned = true) :
    Together cfg p₁ p₂ (s₁.step gen cfg call) (s₂.step gen cfg call) := by
  have hcreate : ∀ (P : QStateBackend → Prop) (n : ℕ), P s₁.registry.defaultBackend →
      ∀ v, QState.create n s₁.registry.defaultBackend = .ok v → P v.backend :=
    fun P n hP v hv => (congrArg P (QState.create_backend hv)).mpr hP
  cases call with
  | assignStreams stream => exact h.assignStreams hc stream
  | installQuantumLink a b => exact h.installQuantumLink hc a b
  | setQStateBackend b => exact h.perform hc trivial trivial
  | createQubit node =>
      exact h.create hc trivial (fun P hP => hcreate P 1 hP) fun w hs =>
        lt_of_createQubit hc.inv hs
  | createBellPair node =>
      exact h.create hc trivial (fun P hP => hcreate P 2 hP) fun w hs =>
        lt_of_createBellPair hc.inv hs
  | apply node gate qs => exact h.perform hc trivial (appliesOk_backend _ _ gate qs)
  | mergeStates qs => exact h.mergeStates hc qs
  | measure node q basis => exact h.measure hc (hflag node q basis rfl) node q basis
  | adoptQubit node q => exact h.perform hc trivial trivial
  | setLocationNode q node => exact h.perform hc trivial trivial
  | setLocationChannel q c => exact h.perform hc trivial trivial
  | setLocationLost q => exact h.perform hc trivial trivial

/-! ## Whole runs -/

/-- The program measures only when it has called `AssignStreams`. -/
def AssignsFirst (gen : Generators Engine Bits) (cfg : RngSetting) (prog : Program) : Prop :=
  ∀ (p : Process Engine Bits) n node q basis,
    prog (run gen cfg prog p n).1 (run gen cfg prog p n).2.ctl =
      some (.measure node q basis) → (run gen cfg prog p n).2.ctl.streamsAssigned = true

/-- The next call, in both runs. -/
theorem Related.advance {prog : Program} (h : Related p₁ p₂ s₁ s₂) (hc : s₁.Covered)
    {hist : List Reply} (hflag : ∀ node q basis,
      prog hist s₁.ctl = some (.measure node q basis) → s₁.ctl.streamsAssigned = true)
    (hr₁ : Reseeds cfg p₁ (Simulation.advance gen cfg prog (hist, s₁)).2)
    (hr₂ : Reseeds cfg p₂ (Simulation.advance gen cfg prog (hist, s₂)).2) :
    (Simulation.advance gen cfg prog (hist, s₁)).1 =
        (Simulation.advance gen cfg prog (hist, s₂)).1 ∧
      Related p₁ p₂ (Simulation.advance gen cfg prog (hist, s₁)).2
        (Simulation.advance gen cfg prog (hist, s₂)).2 ∧
      (Simulation.advance gen cfg prog (hist, s₁)).2.Covered := by
  simp only [Simulation.advance, ← h.ctl] at hr₁ hr₂ ⊢
  cases hcall : prog hist s₁.ctl with
  | none => exact ⟨rfl, h, hc⟩
  | some call =>
      rw [hcall] at hr₁ hr₂
      rw [Option.bind_some] at hr₁ hr₂ ⊢
      rw [Option.bind_some]
      have hstep : Together cfg p₁ p₂ (s₁.step gen cfg call) (s₂.step gen cfg call) :=
        h.step hc call fun node q basis he =>
          hflag node q basis (hcall.trans (congrArg some he))
      rcases hstep with ⟨hn₁, hn₂⟩ |
        ⟨r, s₁', s₂', hs₁, hs₂, hcovered, hrelated⟩
      · rw [hn₁, hn₂]
        exact ⟨rfl, h, hc⟩
      · rw [hs₁] at hr₁ ⊢
        rw [hs₂] at hr₂ ⊢
        exact ⟨rfl, hrelated hr₁ hr₂, hcovered⟩

theorem run_related {prog : Program} (hprog : AssignsFirst gen cfg prog)
    (h₁ : ∀ n, Reseeds cfg p₁ (run gen cfg prog p₁ n).2)
    (h₂ : ∀ n, Reseeds cfg p₂ (run gen cfg prog p₂ n).2) (n : ℕ) :
    (run gen cfg prog p₁ n).1 = (run gen cfg prog p₂ n).1 ∧
      Related p₁ p₂ (run gen cfg prog p₁ n).2 (run gen cfg prog p₂ n).2 ∧
      (run gen cfg prog p₁ n).2.Covered := by
  induction n with
  | zero =>
      refine ⟨rfl, ⟨rfl, rfl, fun b hb => ?_, fun b _ => ⟨rfl, rfl⟩, fun b hb _ => ?_,
        fun hb => ?_⟩, inv_empty, fun _ s p hp => ?_⟩
      · exact absurd hb List.not_mem_nil
      · exact absurd hb List.not_mem_nil
      · exact absurd hb List.not_mem_nil
      · cases hp
  | succ n ih =>
      obtain ⟨hhist, hrelated, hcovered⟩ := ih
      have hr₁ := h₁ (n + 1)
      have hr₂ := h₂ (n + 1)
      have hflag := hprog p₁ n
      rw [run] at hr₁ hr₂ ⊢
      rw [run]
      have hsplit : run gen cfg prog p₂ n =
          ((run gen cfg prog p₁ n).1, (run gen cfg prog p₂ n).2) := Prod.ext hhist.symm rfl
      rw [hsplit] at hr₂ ⊢
      exact hrelated.advance hcovered hflag hr₁ hr₂

/-- A program that assigns streams before it measures returns the same results, call by
call, from any two states of the process in which no guard that was left over suppresses
the first reseed of a backend. -/
theorem reproducible {prog : Program} (hprog : AssignsFirst gen cfg prog)
    (h₁ : ∀ n, Reseeds cfg p₁ (run gen cfg prog p₁ n).2)
    (h₂ : ∀ n, Reseeds cfg p₂ (run gen cfg prog p₂ n).2) (n : ℕ) :
    (run gen cfg prog p₁ n).1 = (run gen cfg prog p₂ n).1 :=
  (run_related hprog h₁ h₂ n).1

/-! ## A guard that was left over -/

/-- A generator that gives back its seed, and one bit that tells one seed from all
others. -/
def telling (seq : List (BitVec 32)) : Generators (List (BitVec 32)) Unit where
  seedQpp := id
  sample := fun e _ => (decide (e = seq), e)
  seedStab := fun _ => ()
  randomBit := fun _ => (false, ())

/-- Seed 7 and run 3. -/
def sevenThree : RngSetting := ⟨7, 3, by decide, by decide⟩

/-- `AssignStreams(0)`, and then a fresh qubit is measured in `X`. -/
def oneShot : Program := fun _ c =>
  if c.streamsAssigned = false then some (.assignStreams 0)
  else if c.net.registry.numHandles = 0 then some (.createQubit 0)
  else some (.measure 0 0 .X)

theorem oneShot_assignsFirst : AssignsFirst gen cfg oneShot := by
  intro p n node q basis h
  rw [oneShot] at h
  by_contra hflag
  rw [if_pos (Bool.eq_false_of_not_eq_true hflag)] at h
  cases h

/-- A fresh qubit has both outcomes in `X`. -/
theorem prob_fresh_ne {v : QState} (hv : QState.create 1 .Ket = .ok v) (o : Bool) :
    v.prob 0 .X o ≠ 0 := by
  obtain ⟨v', hv', -, hn, -⟩ := QState.create_ok one_ne_zero .Ket
  obtain rfl := Except.ok.inj (hv'.symm.trans hv)
  have hne : QuadForm.invSqrt2 ≠ 0 := inv_ne_zero QuadForm.sqrt_two_ne_zero
  rw [QState.prob, QState.create_kernel one_ne_zero hv', NamedTensor.compress_density,
    NamedTensor.trace_density, hn]
  simp [NamedTensor.project, NamedTensor.insertLeg, eigenvector, QuadForm.sgn,
    QuadForm.conj_invSqrt2, hne]

/-- The program returns the first sample of the engine that it finds. -/
theorem oneShot_run (seq : List (BitVec 32)) (p : Process (List (BitVec 32)) Unit) :
    (run (telling seq) sevenThree oneShot p 3).1 = [none, none, some (.ok
      ((decide ((p.assignStreams (telling seq) sevenThree .Ket 0).qpp = seq)).toNat :
        ℤ))] := by
  set gen := telling seq with hgen
  set p' := p.assignStreams gen sevenThree .Ket 0 with hp'
  obtain ⟨v, hv, hcreate⟩ := inv_empty.createQubit_eq 0
  set w := (empty.newObject v).2.withQubit 0 0 with hw
  have hs : empty.step (.createQubit 0) = some w := by
    rw [QStateRegistry.step, exec, hcreate]
    rfl
  have hinv : w.Inv := (@Inv.step_keeps _ _ inv_empty (.createQubit 0) trivial hs).inv
  set s₁ : Simulation (List (BitVec 32)) Unit :=
    { ctl := { net := {}, streamsAssigned := true }, process := p } with hs₁
  set s₂ : Simulation (List (BitVec 32)) Unit := assignState gen sevenThree
    { s₁ with ctl := { s₁.ctl with net := { s₁.ctl.net with registry := w } } }
    (empty.nextStateId, .Ket) with hs₂
  have h₁ : run gen sevenThree oneShot p 1 = ([none], s₁) := by
    have hassign : ({ ctl := {}, process := p } : Simulation _ Unit).assignStreams gen
        sevenThree 0 = s₁ := by
      have hnone : (({ ctl := {}, process := p } : Simulation _ Unit).registry).registered =
          ∅ := rfl
      rw [Simulation.assignStreams, hnone]
      simp [backends, NetController.sortedChannels, NetController.giveAll, hs₁]
    rw [← hassign]
    rfl
  have h₂ : run gen sevenThree oneShot p 2 = ([none, none], s₂) := by
    have hcreated : s₁.step gen sevenThree (.createQubit 0) = some (none, s₂) := by
      rw [Simulation.step, Simulation.create, show s₁.registry = empty from rfl, hs,
        Option.map_some, taken_one rfl]
      rfl
    have hnext : oneShot [none] s₁.ctl = some (.createQubit 0) := rfl
    rw [run, h₁, advance, hnext, Option.bind_some, hcreated]
    rfl
  -- the fresh qubit has both outcomes
  have hvalue : w.valueOf (w.qubits 0).stateId = v := rfl
  have hindex : (w.qubits 0).indexInState = 0 := rfl
  have hlocal : 0 < w.numHandles ∧ w.IsLocal 0 0 := ⟨Nat.one_pos, rfl⟩
  have hbit : (decide (p'.qpp = seq)) = (s₂.drawFor gen 0 0 .X).1 := by
    have hrejected : ¬ (s₂.registry.numHandles ≤ 0 ∨ ¬ s₂.registry.IsLocal 0 0) :=
      not_or.mpr ⟨not_le.mpr hlocal.1, not_not.mpr hlocal.2⟩
    rw [drawFor, if_neg hrejected]
    have hket := QState.create_backend hv
    cases v with
    | ket psi => rfl
    | dm rho => cases hket
    | stab st => cases hket
  obtain ⟨v', hv', hwf, -, -⟩ := QState.create_ok one_ne_zero empty.defaultBackend
  obtain rfl := Except.ok.inj (hv'.symm.trans hv)
  have hpossible : w.outcomeProb 0 .X (decide (p'.qpp = seq)) ≠ 0 := prob_fresh_ne hv _
  obtain ⟨w', hok, -⟩ := hinv.measure_collapses hlocal.1 hlocal.2 hpossible
    (projectsOn_of_wellFormed hwf (hinv.index_lt hlocal.1) hpossible)
  have hnext : oneShot [none, none] s₂.ctl = some (.measure 0 0 .X) := rfl
  have hregistry : s₂.registry = w := rfl
  rw [run, h₂, advance, hnext, Option.bind_some, Simulation.step, Simulation.measure,
    ← hbit, hregistry, hok]
  rfl

/-- An earlier program in the same process assigned the streams 0 and 1 to a ket and a
density-matrix state: the guard of the ket salt then holds the first key of `oneShot`, but
the engine that both backends share has been seeded by the other one. -/
theorem oneShot_not_reproducible :
    ∃ (gen : Generators (List (BitVec 32)) Unit) (p₁ p₂ : Process (List (BitVec 32)) Unit),
      AssignsFirst gen sevenThree oneShot ∧
      p₂ = (p₁.assignStreams gen sevenThree .Ket 0).assignStreams gen sevenThree .DM 1 ∧
      (run gen sevenThree oneShot p₁ 3).1 ≠ (run gen sevenThree oneShot p₂ 3).1 := by
  set seq := makeSeedSeq (deriveSeed64 7 3 0 (saltOf .Ket)) with hseq
  refine ⟨telling seq, { qpp := [], stab := () }, _, oneShot_assignsFirst, rfl, ?_⟩
  have hfresh : (({ qpp := [], stab := () } : Process (List (BitVec 32)) Unit).assignStreams
      (telling seq) sevenThree .Ket 0).qpp = seq := rfl
  have hskipped : (((({ qpp := [], stab := () } : Process (List (BitVec 32)) Unit).assignStreams
      (telling seq) sevenThree .Ket 0).assignStreams (telling seq) sevenThree .DM
        1).assignStreams (telling seq) sevenThree .Ket 0).qpp =
      makeSeedSeq (deriveSeed64 7 3 1 (saltOf .DM)) := rfl
  have hne : makeSeedSeq (deriveSeed64 7 3 1 (saltOf .DM)) ≠ seq := by decide
  rw [oneShot_run, oneShot_run, hfresh, hskipped, decide_eq_true rfl, decide_eq_false hne]
  decide

/-- Two processes with different engines, one with guards from another seed. -/
theorem reproducible_oneShot :
    ∃ p₁ p₂ : Process (List (BitVec 32)) Unit, p₁.qpp ≠ p₂.qpp ∧ p₁.last ≠ p₂.last ∧
      (run (telling []) sevenThree oneShot p₁ 3).1 =
        (run (telling []) sevenThree oneShot p₂ 3).1 := by
  refine ⟨{ qpp := [], stab := () },
    { qpp := [1], stab := (), last := fun _ => some ⟨1, 1, 0⟩ }, by decide, fun h => ?_,
    reproducible oneShot_assignsFirst (fun n b stream _ h => ?_) (fun n b stream _ h => ?_) 3⟩
  · cases congrFun h .Ket
  · cases h
  · have hseed : (1 : BitVec 32) = 7 := congrArg ReseedKey.seed (Option.some.inj h)
    exact absurd hseed (by decide)

end Simulation

end Q2NS
