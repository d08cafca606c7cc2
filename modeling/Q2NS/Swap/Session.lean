import Q2NS.Registry.Code
import Mathlib.Data.Int.Notation
import Mathlib.Data.List.Basic

/-!
# Sessions of the swap application

The per-node table of `SwapApp`: one `SessionState` for each session id, added by
`AddSession` and scheduled by `StartApplication`.  Times are ns-3 time steps.
-/

namespace Q2NS.Swap

abbrev SessionId := BitVec 64

/-- Time steps of the simulator. -/
abbrev Time := ℤ

/-- `SwapApp::Role`. -/
inductive Role where
  | prev
  | repeater
  | next
  deriving DecidableEq

/-- `SwapApp::SessionConfig`, without `verifyFidelity` and `verifyThreshold`, which only
the fidelity check at the end of `TryApply` reads. -/
structure SessionConfig where
  sid : SessionId := 0
  role : Role := .repeater
  start : Time := 0
  proto : String := "udp"
  ctrlPort : BitVec 16 := 7000
  prevPeerId : NodeId := 0
  nextPeerId : NodeId := 0
  prevEndAddr : BitVec 32 := 0
  nextEndAddr : BitVec 32 := 0
  prevEndAddr6 : BitVec 128 := 0
  nextEndAddr6 : BitVec 128 := 0
  expectedMsgs : ℕ := 1
  genPrev : Bool := false
  genNext : Bool := false
  applyCorrections : Bool := false
  deriving DecidableEq

/-- `SwapApp::SessionState`. -/
structure SessionState where
  cfg : SessionConfig
  targetQubit : Option QubitPtr := none
  haveQ : Bool := false
  haveF : Bool := false
  done : Bool := false
  accumM1 : BitVec 8 := 0
  accumM2 : BitVec 8 := 0
  recv : BitVec 32 := 0
  qPrev : Option QubitPtr := none
  qNext : Option QubitPtr := none
  haveBSM : Bool := false
  deriving DecidableEq

/-- The tables of a `SwapApp`. -/
structure SwapApp where
  sessions : List (SessionId × SessionState) := []
  sinksByPort : List (BitVec 16 × String) := []

namespace SwapApp

/-- `m_sessions.find`. -/
def find (app : SwapApp) (sid : SessionId) : Option SessionState :=
  app.sessions.lookup sid

/-- There is a sink on the port. -/
def Listens (app : SwapApp) (port : BitVec 16) : Prop :=
  port ∈ app.sinksByPort.map Prod.fst

instance (app : SwapApp) (port : BitVec 16) : Decidable (app.Listens port) :=
  inferInstanceAs (Decidable (port ∈ app.sinksByPort.map Prod.fst))

/-- `EnsureSink`. -/
def ensureSink (app : SwapApp) (port : BitVec 16) (proto : String) : SwapApp :=
  if app.Listens port then app
  else { app with sinksByPort := app.sinksByPort ++ [(port, proto)] }

/-- `AddSession`; `emplace` keeps the state of a key that is already there. -/
def addSession (app : SwapApp) (cfg : SessionConfig) : SwapApp :=
  let app :=
    if cfg.sid ∈ app.sessions.map Prod.fst then app
    else { app with sessions := app.sessions ++ [(cfg.sid, { cfg := cfg })] }
  if cfg.role ≠ .repeater then app.ensureSink cfg.ctrlPort cfg.proto else app

/-- `StartApplication`: one event for each session, after its start delay; the
scheduler aborts on a negative delay. -/
def startApplication (app : SwapApp) : Option (List (SessionId × Time)) :=
  app.sessions.mapM fun (sid, s) =>
    if s.cfg.start < 0 then none else some (sid, s.cfg.start)

@[simp] theorem sessions_ensureSink (app : SwapApp) (port : BitVec 16)
    (proto : String) : (app.ensureSink port proto).sessions = app.sessions := by
  rw [ensureSink]
  split_ifs <;> rfl

theorem sessions_addSession (app : SwapApp) (cfg : SessionConfig) :
    (app.addSession cfg).sessions =
      if cfg.sid ∈ app.sessions.map Prod.fst then app.sessions
      else app.sessions ++ [(cfg.sid, { cfg := cfg })] := by
  rw [addSession]
  split_ifs <;> first | rfl | exact sessions_ensureSink _ _ _

/-- Of several sessions with one new id only the first is added. -/
theorem sessions_addAll {sid : SessionId} (app : SwapApp)
    (hnew : sid ∉ app.sessions.map Prod.fst) {cfgs : List SessionConfig}
    (hsid : ∀ cfg ∈ cfgs, cfg.sid = sid) :
    (cfgs.foldl addSession app).sessions =
      app.sessions ++ (cfgs.head?.map fun cfg => (sid, { cfg := cfg })).toList := by
  have hold : ∀ cfgs : List SessionConfig, (∀ cfg ∈ cfgs, cfg.sid = sid) →
      ∀ app : SwapApp, sid ∈ app.sessions.map Prod.fst →
        (cfgs.foldl addSession app).sessions = app.sessions := by
    intro cfgs
    induction cfgs with
    | nil => intros; rfl
    | cons cfg cfgs ih =>
        intro hsid app hmem
        have hsame : (app.addSession cfg).sessions = app.sessions := by
          rw [sessions_addSession, hsid cfg List.mem_cons_self, if_pos hmem]
        rw [List.foldl_cons, ih (fun c hc => hsid c (List.mem_cons_of_mem _ hc)) _
          (by rwa [hsame]), hsame]
  cases cfgs with
  | nil => exact (List.append_nil _).symm
  | cons cfg cfgs =>
      have hcfg := hsid cfg List.mem_cons_self
      have hadd : (app.addSession cfg).sessions = app.sessions ++ [(sid, { cfg := cfg })] := by
        rw [sessions_addSession, hcfg, if_neg hnew]
      rw [List.foldl_cons, hold cfgs (fun c hc => hsid c (List.mem_cons_of_mem _ hc)),
        hadd]
      · rfl
      · rw [hadd, List.map_append]
        exact List.mem_append_right _ List.mem_cons_self

/-- The start events are those of the sessions when no delay is negative. -/
theorem startApplication_eq_some (app : SwapApp) (events : List (SessionId × Time)) :
    app.startApplication = some events ↔
      (∀ e ∈ app.sessions, 0 ≤ e.2.cfg.start) ∧
        events = app.sessions.map fun e => (e.1, e.2.cfg.start) := by
  rw [startApplication]
  induction app.sessions generalizing events with
  | nil => simp [eq_comm]
  | cons e es ih =>
      rw [List.mapM_cons, List.map_cons]
      by_cases hneg : e.2.cfg.start < 0
      · simp only [if_pos hneg]
        refine ⟨fun h => (nomatch h), fun h => ?_⟩
        exact absurd (h.1 e List.mem_cons_self) (Int.not_le.mpr hneg)
      · simp only [if_neg hneg, Option.bind_eq_bind, Option.bind_some,
          Option.bind_eq_some_iff, Option.pure_def, Option.some.injEq, ih,
          List.forall_mem_cons]
        constructor
        · rintro ⟨es', ⟨hes, rfl⟩, rfl⟩
          exact ⟨⟨Int.not_lt.mp hneg, hes⟩, rfl⟩
        · rintro ⟨⟨-, hes⟩, rfl⟩
          exact ⟨_, ⟨hes, rfl⟩, rfl⟩

end SwapApp

end Q2NS.Swap
