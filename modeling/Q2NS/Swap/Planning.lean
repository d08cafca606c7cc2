import Q2NS.Swap.Session
import Mathlib.Data.List.Nodup
import Mathlib.Data.Int.Basic
import Mathlib.Logic.Function.Basic

/-!
# Planning and installing swap sessions

`AllAtOncePolicy::PlanSessions` copies the session specifications over the rounds
and `InstallUnifiedApps` adds one session for each planned copy to the apps on its
path.  A copy keeps the session id of its specification, and the apps keep one
session for each id, so a second round of a session is dropped.
-/

namespace Q2NS.Swap

variable {T : Type}

/-- `SwapSessionSpec`; `T` is the type of times in seconds. -/
structure SwapSessionSpec (T : Type) where
  path : List String
  start_s : T
  sessionId : SessionId
  ctrlPort : BitVec 16 := 0
  protocol : String := "udp"

/-- `RoundsConfig`, without the stream of the jitter draws. -/
structure RoundsConfig (T : Type) where
  rounds : ℕ
  period_s : T
  jitter_s : T

/-- `SwapTopologySpec`: what planning and installing sessions read of it. -/
structure SwapTopologySpec (T : Type) where
  nodes : List String
  sessions : List (SwapSessionSpec T)
  rounds : RoundsConfig T

/-- The helper's settings: the nodes of `SetNodes` with the addresses of the
classical network, and the time steps of a number of seconds. -/
structure Setup (T : Type) where
  nodeId : String → NodeId
  v4 : String → BitVec 32
  v6 : String → BitVec 128
  portBase : BitVec 16 := 7000
  useIpv6 : Bool := false
  seconds : T → Time

section Plan

variable [Add T] [Mul T] [Zero T] [NatCast T] [LT T] [DecidableLT T]

/-- `RoundsConfig::Enabled`. -/
def RoundsConfig.Enabled (c : RoundsConfig T) : Prop := 0 < c.rounds ∧ 0 < c.period_s

instance (c : RoundsConfig T) : Decidable c.Enabled :=
  inferInstanceAs (Decidable (_ ∧ _))

/-- The jitter of session `i` in round `r`; the draws are taken one after the
other. -/
def jitterOf (topo : SwapTopologySpec T) (draws : ℕ → T) (r i : ℕ) : T :=
  if 0 < topo.rounds.jitter_s then draws (r * topo.sessions.length + i) else 0

/-- The start time of a specification in round `r`. -/
def roundStart (topo : SwapTopologySpec T) (draws : ℕ → T) (r i : ℕ)
    (s : SwapSessionSpec T) : T :=
  s.start_s + r * topo.rounds.period_s + jitterOf topo draws r i

/-- The copies that one round adds to the plan. -/
def roundSessions (topo : SwapTopologySpec T) (draws : ℕ → T) (r : ℕ) :
    List (SwapSessionSpec T) :=
  topo.sessions.mapIdx fun i s => { s with start_s := roundStart topo draws r i s }

/-- `AllAtOncePolicy::PlanSessions`. -/
def planSessions (topo : SwapTopologySpec T) (draws : ℕ → T) :
    List (SwapSessionSpec T) :=
  if topo.rounds.Enabled then
    (List.range topo.rounds.rounds).flatMap (roundSessions topo draws)
  else topo.sessions

end Plan

section Install

variable (w : Setup T)

/-- `AllocatePort`. -/
def allocatePort (sid : SessionId) : BitVec 16 :=
  let p := w.portBase + BitVec.ofNat 16 (sid.toNat % 10000)
  if p = 0 then w.portBase + 1 else p

/-- The control port of a session. -/
def portOf (s : SwapSessionSpec T) : BitVec 16 :=
  if s.ctrlPort = 0 then allocatePort w s.sessionId else s.ctrlPort

/-- The repeaters between the endpoints; the source counts them in 32 bits. -/
def repeaterCount (path : List String) : ℕ := (path.length - 2) % 2 ^ 32

/-- The configuration of the source. -/
def prevConfig (s : SwapSessionSpec T) (peer : String) : SessionConfig where
  sid := s.sessionId
  role := .prev
  applyCorrections := false
  start := w.seconds s.start_s
  proto := s.protocol
  ctrlPort := portOf w s
  expectedMsgs := repeaterCount s.path
  genNext := true
  nextPeerId := w.nodeId peer

/-- The configuration of the sink. -/
def nextConfig (s : SwapSessionSpec T) : SessionConfig where
  sid := s.sessionId
  role := .next
  applyCorrections := true
  start := w.seconds s.start_s
  proto := s.protocol
  ctrlPort := portOf w s
  expectedMsgs := repeaterCount s.path

/-- The configuration of a repeater between `prev` and `next`, for the endpoints
`a` and `b`. -/
def repeaterConfig (s : SwapSessionSpec T) (a b prev next : String) :
    SessionConfig where
  sid := s.sessionId
  role := .repeater
  applyCorrections := false
  start := w.seconds s.start_s
  proto := s.protocol
  ctrlPort := portOf w s
  prevPeerId := w.nodeId prev
  nextPeerId := w.nodeId next
  genNext := true
  prevEndAddr := if w.useIpv6 then 0 else w.v4 a
  nextEndAddr := if w.useIpv6 then 0 else w.v4 b
  prevEndAddr6 := if w.useIpv6 then w.v6 a else 0
  nextEndAddr6 := if w.useIpv6 then w.v6 b else 0

/-- The repeaters of a path that starts with `prev`. -/
def repeaterConfigs (s : SwapSessionSpec T) (a b : String) :
    String → List String → List (String × SessionConfig)
  | prev, name :: next :: rest =>
      (name, repeaterConfig w s a b prev next) :: repeaterConfigs s a b name (next :: rest)
  | _, _ => []

/-- The calls of `AddSession` for one planned session: source, sink, then the
repeaters along the path. -/
def sessionConfigs (s : SwapSessionSpec T) : List (String × SessionConfig) :=
  match s.path with
  | a :: r :: rest =>
      let b := (r :: rest).getLast (List.cons_ne_nil _ _)
      (a, prevConfig w s r) :: (b, nextConfig w s) ::
        repeaterConfigs w s a b a (r :: rest)
  | _ => []

/-- The apps by node name. -/
abbrev Apps := String → Option SwapApp

/-- `BindAppsOnProvidedNodes`. -/
def bindApps (nodes : List String) : Apps := fun name =>
  if name ∈ nodes then some {} else none

/-- `m_appByNode.at(name)->AddSession(cfg)`; `none` when `at` throws. -/
def addSessionAt (apps : Apps) (call : String × SessionConfig) : Option Apps :=
  (apps call.1).map fun app => Function.update apps call.1 (app.addSession call.2)

/-- `InstallUnifiedApps`. -/
def installUnifiedApps (apps : Apps) (planned : List (SwapSessionSpec T)) :
    Option Apps :=
  planned.foldlM (fun apps s => (sessionConfigs w s).foldlM addSessionAt apps) apps

end Install

/-- Each planned session has a `SessionState` of its own at every node on its
path, with a start event at its planned time, and there are no further ones. -/
structure Executed (w : Setup T) (planned : List (SwapSessionSpec T)) (apps : Apps)
    (key : ℕ → String → SessionId) : Prop where
  held : ∀ i s name, planned[i]? = some s → name ∈ s.path →
    ∃ app st, apps name = some app ∧ app.find (key i name) = some st ∧
      (name, st.cfg) ∈ sessionConfigs w s
  own : ∀ i j s t name, planned[i]? = some s → planned[j]? = some t →
    name ∈ s.path → name ∈ t.path → key i name = key j name → i = j
  started : ∀ i s name, planned[i]? = some s → name ∈ s.path →
    ∃ app events, apps name = some app ∧ app.startApplication = some events ∧
      (key i name, w.seconds s.start_s) ∈ events
  notNegative : ∀ s ∈ planned, 0 ≤ w.seconds s.start_s
  counted : ∀ name app, apps name = some app →
    app.sessions.length = (planned.filter fun s => name ∈ s.path).length

section Proofs

variable (w : Setup T) (s : SwapSessionSpec T)

/-! ## The calls for one session -/

theorem map_fst_repeaterConfigs (a b prev : String) (path : List String) :
    (repeaterConfigs w s a b prev path).map Prod.fst = path.dropLast := by
  induction path generalizing prev with
  | nil => rfl
  | cons name path ih =>
      cases path with
      | nil => rfl
      | cons next rest =>
          rw [repeaterConfigs, List.map_cons, ih, List.dropLast_cons_cons]

/-- The helper adds a session exactly at the nodes on the path. -/
theorem mem_map_fst_sessionConfigs (hpath : 2 ≤ s.path.length) (name : String) :
    name ∈ (sessionConfigs w s).map Prod.fst ↔ name ∈ s.path := by
  rw [sessionConfigs]
  split
  next a r rest heq =>
    have hmem : name ∈ r :: rest ↔ name ∈ (r :: rest).dropLast ∨
        name = (r :: rest).getLast (List.cons_ne_nil _ _) := by
      conv_lhs => rw [← List.dropLast_append_getLast (List.cons_ne_nil r rest)]
      rw [List.mem_append, List.mem_singleton]
    rw [List.map_cons, List.map_cons, map_fst_repeaterConfigs, heq, List.mem_cons,
      List.mem_cons, List.mem_cons, hmem, or_comm (b := name = List.getLast _ _)]
  next hne =>
    match hs : s.path with
    | [] => rw [hs] at hpath; exact absurd hpath (by decide)
    | [_] => rw [hs] at hpath; exact absurd hpath (Nat.not_succ_le_self 1)
    | a :: r :: rest => exact (hne a r rest hs).elim

theorem repeaterConfigs_spec (a b prev : String) (path : List String) :
    ∀ c ∈ repeaterConfigs w s a b prev path,
      c.2.sid = s.sessionId ∧ c.2.start = w.seconds s.start_s := by
  induction path generalizing prev with
  | nil => intro c hc; exact absurd hc List.not_mem_nil
  | cons name path ih =>
      cases path with
      | nil => intro c hc; exact absurd hc List.not_mem_nil
      | cons next rest =>
          intro c hc
          rw [repeaterConfigs, List.mem_cons] at hc
          rcases hc with rfl | hc
          · exact ⟨rfl, rfl⟩
          · exact ih name c hc

/-- Every call for a session carries its id and its start. -/
theorem sessionConfigs_spec : ∀ c ∈ sessionConfigs w s,
    c.2.sid = s.sessionId ∧ c.2.start = w.seconds s.start_s := by
  intro c hc
  rw [sessionConfigs] at hc
  split at hc
  · rw [List.mem_cons, List.mem_cons] at hc
    rcases hc with rfl | rfl | hc
    · exact ⟨rfl, rfl⟩
    · exact ⟨rfl, rfl⟩
    · exact repeaterConfigs_spec w s _ _ _ _ c hc
  · exact absurd hc List.not_mem_nil

/-- The calls at one node. -/
def callsAt (name : String) (calls : List (String × SessionConfig)) :
    List SessionConfig :=
  (calls.filter fun c => c.1 = name).map Prod.snd

/-- The entry that a planned session makes in the table of a node. -/
def entryOf (name : String) : Option (SessionId × SessionState) :=
  (callsAt name (sessionConfigs w s)).head?.map fun cfg => (s.sessionId, { cfg := cfg })

theorem entryOf_spec {name : String} {e : SessionId × SessionState}
    (h : entryOf w s name = some e) :
    e.1 = s.sessionId ∧ (name, e.2.cfg) ∈ sessionConfigs w s := by
  obtain ⟨cfg, hcfg, rfl⟩ := Option.map_eq_some_iff.mp h
  obtain ⟨c, hc, rfl⟩ := List.mem_map.mp (List.mem_of_mem_head? hcfg)
  obtain ⟨hc, hname⟩ := List.mem_filter.mp hc
  exact ⟨rfl, of_decide_eq_true hname ▸ hc⟩

theorem entryOf_isSome (hpath : 2 ≤ s.path.length) (name : String) :
    (entryOf w s name).isSome ↔ name ∈ s.path := by
  rw [← mem_map_fst_sessionConfigs w s hpath, entryOf, Option.isSome_map,
    List.isSome_head?, callsAt, Ne, List.map_eq_nil_iff, List.filter_eq_nil_iff,
    List.mem_map]
  constructor
  · intro h
    by_contra hno
    exact h fun c hc hname => hno ⟨c, hc, of_decide_eq_true hname⟩
  · rintro ⟨c, hc, rfl⟩ h
    exact h c hc (decide_eq_true rfl)

/-! ## The tables after the installation -/

/-- A run of calls changes the table of each node by its own calls. -/
theorem foldlM_addSessionAt (calls : List (String × SessionConfig)) (apps : Apps)
    (hbound : ∀ c ∈ calls, (apps c.1).isSome) :
    ∃ apps', calls.foldlM addSessionAt apps = some apps' ∧ ∀ name,
      apps' name = (apps name).map fun app =>
        (callsAt name calls).foldl SwapApp.addSession app := by
  induction calls generalizing apps with
  | nil => exact ⟨apps, rfl, fun name => Option.map_id'.symm⟩
  | cons c calls ih =>
      obtain ⟨app, happ⟩ := Option.isSome_iff_exists.mp (hbound c List.mem_cons_self)
      have hstep : addSessionAt apps c =
          some (Function.update apps c.1 (app.addSession c.2)) := by
        rw [addSessionAt, happ, Option.map_some]
      obtain ⟨apps', hrun, hat⟩ := ih (Function.update apps c.1 (app.addSession c.2))
        (by
          intro d hd
          by_cases hdc : d.1 = c.1
          · rw [hdc, Function.update_self]; rfl
          · rw [Function.update_of_ne hdc]; exact hbound d (List.mem_cons_of_mem _ hd))
      refine ⟨apps', by rw [List.foldlM_cons, hstep]; exact hrun, fun name => ?_⟩
      rw [hat]
      by_cases hname : c.1 = name
      · subst hname
        have hcalls : callsAt c.1 (c :: calls) = c.2 :: callsAt c.1 calls := by
          rw [callsAt, List.filter_cons, if_pos (decide_eq_true rfl), List.map_cons]
          rfl
        rw [Function.update_self, happ, hcalls]
        rfl
      · have hcalls : callsAt name (c :: calls) = callsAt name calls := by
          rw [callsAt, List.filter_cons, if_neg (by rwa [decide_eq_true_eq])]
          rfl
        rw [Function.update_of_ne (Ne.symm hname), hcalls]

/-- Installing sessions with new ids adds the entries of each to the tables of the
nodes on its path. -/
theorem installUnifiedApps_spec (planned : List (SwapSessionSpec T)) (apps : Apps)
    (hpath : ∀ s ∈ planned, 2 ≤ s.path.length)
    (hbound : ∀ s ∈ planned, ∀ name ∈ s.path, (apps name).isSome)
    (hids : (planned.map SwapSessionSpec.sessionId).Nodup)
    (hnew : ∀ s ∈ planned, ∀ name app, apps name = some app →
      s.sessionId ∉ app.sessions.map Prod.fst) :
    ∃ apps', installUnifiedApps w apps planned = some apps' ∧ ∀ name,
      (apps' name).map SwapApp.sessions = (apps name).map fun app =>
        app.sessions ++ planned.filterMap fun s => entryOf w s name := by
  induction planned generalizing apps with
  | nil =>
      refine ⟨apps, rfl, fun name => ?_⟩
      simp only [List.filterMap_nil, List.append_nil]
  | cons s planned ih =>
      rw [List.map_cons, List.nodup_cons] at hids
      have hs : s ∈ s :: planned := List.mem_cons_self
      obtain ⟨mid, hrun, hmid⟩ := foldlM_addSessionAt (sessionConfigs w s) apps (by
        intro c hc
        exact hbound s hs _ ((mem_map_fst_sessionConfigs w s (hpath s hs) _).mp
          (List.mem_map_of_mem hc)))
      have hsessions : ∀ name app, apps name = some app →
          ((callsAt name (sessionConfigs w s)).foldl SwapApp.addSession app).sessions =
            app.sessions ++ (entryOf w s name).toList := by
        intro name app happ
        refine SwapApp.sessions_addAll app (hnew s hs name app happ) fun cfg hcfg => ?_
        obtain ⟨c, hc, rfl⟩ := List.mem_map.mp hcfg
        exact (sessionConfigs_spec w s c (List.mem_of_mem_filter hc)).1
      obtain ⟨apps', hrest, hat⟩ := ih mid
        (fun t ht => hpath t (List.mem_cons_of_mem _ ht))
        (by
          intro t ht name hname
          rw [hmid, Option.isSome_map]
          exact hbound t (List.mem_cons_of_mem _ ht) name hname)
        hids.2
        (by
          intro t ht name app happ
          rw [hmid] at happ
          obtain ⟨old, hold, rfl⟩ := Option.map_eq_some_iff.mp happ
          rw [hsessions name old hold, List.map_append, List.mem_append, not_or]
          refine ⟨hnew t (List.mem_cons_of_mem _ ht) name old hold, fun hmem => ?_⟩
          obtain ⟨e, he, heq⟩ := List.mem_map.mp hmem
          have := (entryOf_spec w s (Option.mem_toList.mp he)).1
          exact hids.1 (List.mem_map.mpr ⟨t, ht, heq.symm.trans this⟩))
      refine ⟨apps', ?_, fun name => ?_⟩
      · rw [installUnifiedApps, List.foldlM_cons, hrun]
        exact hrest
      · rw [hat, hmid, Option.map_map]
        refine Option.map_congr fun app happ => ?_
        rw [Function.comp_apply, hsessions name app happ, List.append_assoc,
          List.filterMap_cons]
        cases entryOf w s name <;> rfl

/-- The key of an entry is the id in its configuration. -/
def Keyed (apps : Apps) : Prop :=
  ∀ name app, apps name = some app → ∀ e ∈ app.sessions, e.2.cfg.sid = e.1

theorem addSessionAt_keyed {apps apps' : Apps} {call : String × SessionConfig}
    (h : addSessionAt apps call = some apps') (hkeyed : Keyed apps) : Keyed apps' := by
  obtain ⟨app, happ, rfl⟩ := Option.map_eq_some_iff.mp h
  intro name app' happ' e he
  by_cases hname : name = call.1
  · subst hname
    rw [Function.update_self] at happ'
    obtain rfl := Option.some.inj happ'
    rw [SwapApp.sessions_addSession] at he
    split_ifs at he
    · exact hkeyed _ app happ e he
    · rcases List.mem_append.mp he with he | he
      · exact hkeyed _ app happ e he
      · rw [List.mem_singleton.mp he]
  · rw [Function.update_of_ne hname] at happ'
    exact hkeyed name app' happ' e he

/-- What each step of a fold keeps holds after the fold. -/
theorem foldlM_keeps {α β : Type} {I : β → Prop} {f : β → α → Option β}
    (hf : ∀ b a b', f b a = some b' → I b → I b') :
    ∀ {l : List α} {b b' : β}, l.foldlM f b = some b' → I b → I b'
  | [], b, b', h, hb => Option.some.inj h ▸ hb
  | a :: l, b, b', h, hb => by
      rw [List.foldlM_cons] at h
      obtain ⟨c, hc, h⟩ := Option.bind_eq_some_iff.mp h
      exact foldlM_keeps hf h (hf b a c hc hb)

theorem installUnifiedApps_keyed {apps apps' : Apps}
    {planned : List (SwapSessionSpec T)}
    (h : installUnifiedApps w apps planned = some apps') (hkeyed : Keyed apps) :
    Keyed apps' :=
  foldlM_keeps (fun _ _ _ h hk => foldlM_keeps (fun _ _ _ => addSessionAt_keyed) h hk)
    h hkeyed

theorem bindApps_keyed (nodes : List String) : Keyed (bindApps nodes) := by
  intro name app happ e he
  rw [bindApps] at happ
  split_ifs at happ
  rw [← Option.some.inj happ] at he
  exact absurd he List.not_mem_nil

/-! ## Plans -/

/-- With distinct ids the entry of a session is the one found under its id. -/
theorem lookup_entries {planned : List (SwapSessionSpec T)} {name : String}
    (hids : (planned.map SwapSessionSpec.sessionId).Nodup) {s : SwapSessionSpec T}
    (hs : s ∈ planned) {e : SessionId × SessionState} (he : entryOf w s name = some e) :
    (planned.filterMap fun s => entryOf w s name).lookup s.sessionId = some e.2 := by
  induction planned with
  | nil => exact absurd hs List.not_mem_nil
  | cons t planned ih =>
      rw [List.map_cons, List.nodup_cons] at hids
      rcases List.mem_cons.mp hs with rfl | hs
      · rw [List.filterMap_cons, he]
        dsimp only
        rw [← (entryOf_spec w s he).1]
        exact List.lookup_cons_self
      · have hne : s.sessionId ≠ t.sessionId := fun heq =>
          hids.1 (heq ▸ List.mem_map_of_mem hs)
        rw [List.filterMap_cons]
        split
        · exact ih hids.2 hs
        · next e' he' =>
          rw [List.lookup_cons, (entryOf_spec w t he').1, beq_eq_false_iff_ne.mpr hne]
          exact ih hids.2 hs

/-- Sessions with distinct ids are all executed when no start is negative. -/
theorem executed_of_nodup {planned : List (SwapSessionSpec T)} {nodes : List String}
    (hpath : ∀ s ∈ planned, 2 ≤ s.path.length)
    (hbound : ∀ s ∈ planned, ∀ name ∈ s.path, name ∈ nodes)
    (hids : (planned.map SwapSessionSpec.sessionId).Nodup)
    (hstart : ∀ s ∈ planned, 0 ≤ w.seconds s.start_s) :
    ∃ apps key, installUnifiedApps w (bindApps nodes) planned = some apps ∧
      Executed w planned apps key := by
  obtain ⟨apps, hrun, hat⟩ := installUnifiedApps_spec w planned (bindApps nodes) hpath
    (fun s hs name hname => by rw [bindApps, if_pos (hbound s hs name hname)]; rfl)
    hids
    (by
      intro s _ name app happ
      rw [bindApps] at happ
      split_ifs at happ
      rw [← Option.some.inj happ]
      exact List.not_mem_nil)
  have htable : ∀ name app, apps name = some app →
      app.sessions = planned.filterMap fun s => entryOf w s name := by
    intro name app happ
    have h := hat name
    rw [bindApps, happ, Option.map_some] at h
    split_ifs at h
    · exact Option.some.inj h
    · cases h
  -- the entry of a planned session at a node on its path
  have hentry : ∀ s ∈ planned, ∀ name ∈ s.path, ∃ app st, apps name = some app ∧
      (s.sessionId, st) ∈ app.sessions ∧ app.find s.sessionId = some st ∧
      (name, st.cfg) ∈ sessionConfigs w s := by
    intro s hs name hname
    obtain ⟨e, he⟩ := Option.isSome_iff_exists.mp
      ((entryOf_isSome w s (hpath s hs) name).mpr hname)
    have h := hat name
    rw [bindApps, if_pos (hbound s hs name hname)] at h
    obtain ⟨app, happ, -⟩ := Option.map_eq_some_iff.mp h
    obtain ⟨hid, hcfg⟩ := entryOf_spec w s he
    refine ⟨app, e.2, happ, ?_, ?_, hcfg⟩
    · rw [htable name app happ, ← hid]
      exact List.mem_filterMap.mpr ⟨s, hs, he⟩
    · rw [SwapApp.find, htable name app happ]
      exact lookup_entries w hids hs he
  refine ⟨apps, fun i _ => ((planned[i]?).map SwapSessionSpec.sessionId).getD 0, hrun,
    ?_, ?_, ?_, hstart, ?_⟩
  · intro i s name hi hname
    obtain ⟨app, st, happ, -, hfind, hcfg⟩ :=
      hentry s (List.mem_of_getElem? hi) name hname
    exact ⟨app, st, happ, by rwa [hi], hcfg⟩
  · intro i j s t name hi hj _ _ hkey
    have hlt : i < (planned.map SwapSessionSpec.sessionId).length := by
      rw [List.length_map]
      exact (List.getElem?_eq_some_iff.mp hi).1
    refine (List.getElem?_inj hlt hids).mp ?_
    rw [hi, hj] at hkey
    rw [List.getElem?_map, List.getElem?_map, hi, hj]
    exact congrArg some hkey
  · intro i s name hi hname
    obtain ⟨app, st, happ, hmem, -, hcfg⟩ :=
      hentry s (List.mem_of_getElem? hi) name hname
    refine ⟨app, _, happ, (app.startApplication_eq_some _).mpr ⟨?_, rfl⟩, ?_⟩
    · intro e he
      rw [htable name app happ] at he
      obtain ⟨t, ht, he⟩ := List.mem_filterMap.mp he
      rw [(sessionConfigs_spec w t _ (entryOf_spec w t he).2).2]
      exact hstart t ht
    · rw [hi, ← (sessionConfigs_spec w s _ hcfg).2]
      exact List.mem_map_of_mem hmem
  · intro name app happ
    rw [htable name app happ, List.length_filterMap_eq_countP,
      ← List.countP_eq_length_filter]
    refine List.countP_congr fun s hs => ?_
    rw [entryOf_isSome w s (hpath s hs), decide_eq_true_eq]

/-- An executed plan has no two sessions with one id that share a node. -/
theorem Executed.sessionId_ne {planned : List (SwapSessionSpec T)}
    {apps : Apps} {key : ℕ → String → SessionId} (h : Executed w planned apps key)
    (hkeyed : Keyed apps) {i j : ℕ} {s t : SwapSessionSpec T} {name : String}
    (hi : planned[i]? = some s) (hj : planned[j]? = some t) (hs : name ∈ s.path)
    (ht : name ∈ t.path) (hid : s.sessionId = t.sessionId) : i = j := by
  have hkey : ∀ i s, planned[i]? = some s → name ∈ s.path →
      key i name = s.sessionId := by
    intro i s hi hs
    obtain ⟨app, st, happ, hfind, hcfg⟩ := h.held i s name hi hs
    obtain ⟨l, r, hsplit, -⟩ := List.lookup_eq_some_iff.mp hfind
    have := hkeyed name app happ (key i name, st)
      (hsplit ▸ List.mem_append_right _ List.mem_cons_self)
    exact this.symm.trans (sessionConfigs_spec w s _ hcfg).1
  refine h.own i j s t name hi hj hs ht ?_
  rw [hkey i s hi hs, hkey j t hj ht, hid]

end Proofs

section Plans

variable [Add T] [Mul T] [Zero T] [NatCast T] [LT T] [DecidableLT T]

theorem map_sessionId_roundSessions (topo : SwapTopologySpec T) (draws : ℕ → T)
    (r : ℕ) : (roundSessions topo draws r).map SwapSessionSpec.sessionId =
      topo.sessions.map SwapSessionSpec.sessionId := by
  refine List.ext_getElem? fun i => ?_
  rw [roundSessions, List.getElem?_map, List.getElem?_map, List.getElem?_mapIdx,
    Option.map_map]
  rfl

/-- The sessions of a round keep the path of their specification. -/
theorem mem_roundSessions {topo : SwapTopologySpec T} {draws : ℕ → T} {r : ℕ}
    {t : SwapSessionSpec T} : t ∈ roundSessions topo draws r ↔
      ∃ i, ∃ s : SwapSessionSpec T, topo.sessions[i]? = some s ∧
        t = { s with start_s := roundStart topo draws r i s } := by
  rw [roundSessions, List.mem_mapIdx]
  constructor
  · rintro ⟨i, hi, rfl⟩
    exact ⟨i, _, List.getElem?_eq_getElem hi, rfl⟩
  · rintro ⟨i, s, hi, rfl⟩
    obtain ⟨hlt, rfl⟩ := List.getElem?_eq_some_iff.mp hi
    exact ⟨i, hlt, rfl⟩

/-- Every planned round of every session is executed exactly when there is one
round only, or no session, and no start time is negative. -/
theorem all_rounds_executed_iff (w : Setup T) (topo : SwapTopologySpec T)
    (draws : ℕ → T) (henabled : topo.rounds.Enabled)
    (hids : (topo.sessions.map SwapSessionSpec.sessionId).Nodup)
    (hpath : ∀ s ∈ topo.sessions, 2 ≤ s.path.length)
    (hbound : ∀ s ∈ topo.sessions, ∀ name ∈ s.path, name ∈ topo.nodes) :
    (∃ apps key,
      installUnifiedApps w (bindApps topo.nodes) (planSessions topo draws) = some apps ∧
        Executed w (planSessions topo draws) apps key) ↔
      (topo.rounds.rounds = 1 ∨ topo.sessions = []) ∧
        ∀ r < topo.rounds.rounds, ∀ i s, topo.sessions[i]? = some s →
          0 ≤ w.seconds (roundStart topo draws r i s) := by
  have hplan : planSessions topo draws =
      (List.range topo.rounds.rounds).flatMap (roundSessions topo draws) :=
    if_pos henabled
  have hmem : ∀ t, t ∈ planSessions topo draws ↔ ∃ r < topo.rounds.rounds,
      ∃ i, ∃ s : SwapSessionSpec T, topo.sessions[i]? = some s ∧
        t = { s with start_s := roundStart topo draws r i s } := by
    intro t
    rw [hplan, List.mem_flatMap]
    refine exists_congr fun r => ?_
    rw [List.mem_range, mem_roundSessions]
  constructor
  · rintro ⟨apps, key, hrun, hexec⟩
    refine ⟨?_, fun r hr i s hi => ?_⟩
    · by_contra hboth
      obtain ⟨hone, hne⟩ := not_or.mp hboth
      obtain ⟨n, hn⟩ : ∃ n, topo.rounds.rounds = n + 2 :=
        ⟨topo.rounds.rounds - 2, by have := henabled.1; omega⟩
      obtain ⟨s, hs⟩ : ∃ s, topo.sessions[0]? = some s := by
        obtain ⟨s, rest, hsessions⟩ := List.exists_cons_of_ne_nil hne
        exact ⟨s, by rw [hsessions]; rfl⟩
      -- the copies of the first session in the first two rounds
      have hround : ∀ r, (roundSessions topo draws r)[0]? =
          some { s with start_s := roundStart topo draws r 0 s } := by
        intro r
        rw [roundSessions, List.getElem?_mapIdx, hs]
        rfl
      have hsplit : planSessions topo draws = roundSessions topo draws 0 ++
          (roundSessions topo draws 1 ++ ((List.range n).map (· + 2)).flatMap
            (roundSessions topo draws)) := by
        rw [hplan, hn, List.range_succ_eq_map, List.range_succ_eq_map, List.map_cons,
          List.map_map, List.flatMap_cons, List.flatMap_cons]
        rfl
      have hlen : 0 < (roundSessions topo draws 0).length :=
        (List.getElem?_eq_some_iff.mp (hround 0)).1
      have hlen1 : 0 < (roundSessions topo draws 1).length :=
        (List.getElem?_eq_some_iff.mp (hround 1)).1
      have h0 : (planSessions topo draws)[0]? =
          some { s with start_s := roundStart topo draws 0 0 s } := by
        rw [hsplit, List.getElem?_append_left hlen, hround]
      have h1 : (planSessions topo draws)[(roundSessions topo draws 0).length]? =
          some { s with start_s := roundStart topo draws 1 0 s } := by
        rw [hsplit, List.getElem?_append_right (Nat.le_refl _), Nat.sub_self,
          List.getElem?_append_left hlen1, hround]
      obtain ⟨name, hname⟩ : ∃ name, name ∈ s.path :=
        List.exists_mem_of_length_pos
          (Nat.lt_of_lt_of_le (by decide) (hpath s (List.mem_of_getElem? hs)))
      have hkeyed := installUnifiedApps_keyed w hrun (bindApps_keyed topo.nodes)
      exact hlen.ne (hexec.sessionId_ne w hkeyed h0 h1 hname hname rfl)
    · exact hexec.notNegative _ ((hmem _).mpr ⟨r, hr, i, s, hi, rfl⟩)
  · rintro ⟨honce, hstart⟩
    have hnodup : ((planSessions topo draws).map SwapSessionSpec.sessionId).Nodup := by
      rcases honce with hone | hnil
      · rw [hplan, hone, List.range_one, List.flatMap_singleton,
          map_sessionId_roundSessions]
        exact hids
      · have hempty : planSessions topo draws = [] := by
          refine List.eq_nil_iff_forall_not_mem.mpr fun t ht => ?_
          obtain ⟨r, -, i, s, hi, -⟩ := (hmem t).mp ht
          rw [hnil] at hi
          cases hi
        rw [hempty]
        exact List.nodup_nil
    refine executed_of_nodup w ?_ ?_ hnodup ?_
    · intro t ht
      obtain ⟨r, -, i, s, hi, rfl⟩ := (hmem t).mp ht
      exact hpath s (List.mem_of_getElem? hi)
    · intro t ht
      obtain ⟨r, -, i, s, hi, rfl⟩ := (hmem t).mp ht
      exact hbound s (List.mem_of_getElem? hi)
    · intro t ht
      obtain ⟨r, hr, i, s, hi, rfl⟩ := (hmem t).mp ht
      exact hstart r hr i s hi

end Plans

/-! ## Two nodes and one session -/

/-- Nanoseconds. -/
def exampleSetup : Setup ℤ where
  nodeId := fun name => if name = "A" then 0 else 1
  v4 := fun _ => 0
  v6 := fun _ => 0
  seconds := fun t => t * 1000000000

/-- One session from `A` to `B` with a period of one second. -/
def exampleTopology (rounds : ℕ) : SwapTopologySpec ℤ where
  nodes := ["A", "B"]
  sessions := [{ path := ["A", "B"], start_s := 1, sessionId := 1 }]
  rounds := { rounds, period_s := 1, jitter_s := 0 }

theorem single_round_executed : ∃ apps key,
    installUnifiedApps exampleSetup (bindApps ["A", "B"])
        (planSessions (exampleTopology 1) fun _ => 0) = some apps ∧
      Executed exampleSetup (planSessions (exampleTopology 1) fun _ => 0) apps key :=
  (all_rounds_executed_iff exampleSetup (exampleTopology 1) (fun _ => 0) (by decide)
    (by decide) (by decide) (by decide)).mpr
    ⟨.inl rfl, by
      intro r hr i s hi
      obtain rfl := Nat.lt_one_iff.mp hr
      match i with
      | 0 => obtain rfl := Option.some.inj hi; decide
      | _ + 1 => exact nomatch hi⟩

/-- With two rounds the second session of the plan is dropped. -/
theorem second_round_dropped : ¬ ∃ apps key,
    installUnifiedApps exampleSetup (bindApps ["A", "B"])
        (planSessions (exampleTopology 2) fun _ => 0) = some apps ∧
      Executed exampleSetup (planSessions (exampleTopology 2) fun _ => 0) apps key := by
  intro h
  have := ((all_rounds_executed_iff exampleSetup (exampleTopology 2) (fun _ => 0)
    (by decide) (by decide) (by decide) (by decide)).mp h).1
  exact absurd this (by decide)

end Q2NS.Swap
