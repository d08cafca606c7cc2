import Q2NS.Swap.Session

/-!
# Where the sinks of the swap application listen

`EnsureSink` installs a packet sink for the port and the protocol of a session,
unless there is one on the port.  The repeaters of the session choose the socket from
its own protocol.
-/

namespace Q2NS.Swap

/-- The socket factories. -/
inductive Transport where
  | udp
  | tcp
  deriving DecidableEq

/-- The factory in `EnsureSink`. -/
def sinkTransport (proto : String) : Transport :=
  if proto = "tcp" ∨ proto = "TCP" then .tcp else .udp

/-- The socket in `MaybeDoBsmAndAnnounce`. -/
def sendTransport (proto : String) : Transport :=
  if proto = "udp" ∨ proto = "UDP" then .udp else .tcp

/-- A control protocol as it is configured. -/
def IsProtocol (proto : String) : Prop := proto ∈ ["udp", "UDP", "tcp", "TCP"]

instance (proto : String) : Decidable (IsProtocol proto) :=
  inferInstanceAs (Decidable (_ ∈ _))

/-- Both ends read a protocol alike. -/
theorem sinkTransport_eq {proto : String} (h : IsProtocol proto) :
    sinkTransport proto = sendTransport proto := by
  simp only [IsProtocol, List.mem_cons, List.not_mem_nil, or_false] at h
  rcases h with rfl | rfl | rfl | rfl <;> decide

namespace SwapApp

/-- A packet sink is bound to the port and the transport, and connected to
`OnCtrlRx`. -/
def BoundTo (app : SwapApp) (port : BitVec 16) (transport : Transport) : Prop :=
  ∃ e ∈ app.sinksByPort, e.1 = port ∧ sinkTransport e.2 = transport

/-- A control packet for a session that is sent to a port of the node over a transport
reaches `OnCtrlRx`, which finds the session. -/
def Processes (app : SwapApp) (port : BitVec 16) (transport : Transport)
    (sid : SessionId) : Prop :=
  app.BoundTo port transport ∧ (app.find sid).isSome

/-! ## Adding sessions -/

/-- What holds of the tables after the sessions of a list have been added. -/
structure Added (app : SwapApp) (cfgs : List SessionConfig) : Prop where
  ports : (app.sinksByPort.map Prod.fst).Nodup
  origin : ∀ e ∈ app.sinksByPort, ∃ cfg ∈ cfgs, cfg.role ≠ .repeater ∧
    e = (cfg.ctrlPort, cfg.proto)
  listens : ∀ cfg ∈ cfgs, cfg.role ≠ .repeater → app.Listens cfg.ctrlPort
  known : ∀ cfg ∈ cfgs, cfg.sid ∈ app.sessions.map Prod.fst

theorem added_nil : Added {} [] where
  ports := List.nodup_nil
  origin := fun _ he => absurd he List.not_mem_nil
  listens := fun _ hc => absurd hc List.not_mem_nil
  known := fun _ hc => absurd hc List.not_mem_nil

/-- A sink is installed unless there is one on the port. -/
theorem mem_ensureSink {app : SwapApp} {port : BitVec 16} {proto : String}
    {e : BitVec 16 × String} : e ∈ (app.ensureSink port proto).sinksByPort ↔
      e ∈ app.sinksByPort ∨ e = (port, proto) ∧ ¬ app.Listens port := by
  rw [ensureSink]
  split_ifs with hport
  · exact ⟨.inl, fun h => h.elim id fun hnew => absurd hport hnew.2⟩
  · rw [List.mem_append, List.mem_singleton]
    exact or_congr_right (and_iff_left hport).symm

theorem listens_ensureSink (app : SwapApp) (port : BitVec 16) (proto : String) :
    (app.ensureSink port proto).Listens port := by
  rw [ensureSink]
  split_ifs with hport
  · exact hport
  · rw [Listens, List.map_append]
    exact List.mem_append_right _ List.mem_cons_self

theorem listens_mono {app : SwapApp} {port port' : BitVec 16} {proto : String}
    (h : app.Listens port') : (app.ensureSink port proto).Listens port' := by
  obtain ⟨e, he, rfl⟩ := List.mem_map.mp h
  exact List.mem_map.mpr ⟨e, mem_ensureSink.mpr (.inl he), rfl⟩

theorem nodup_ensureSink {app : SwapApp} (h : (app.sinksByPort.map Prod.fst).Nodup)
    (port : BitVec 16) (proto : String) :
    ((app.ensureSink port proto).sinksByPort.map Prod.fst).Nodup := by
  rw [ensureSink]
  split_ifs with hport
  · exact h
  · rw [List.map_append]
    refine List.Nodup.append h (List.nodup_singleton _) ?_
    rw [List.map_singleton, List.disjoint_singleton]
    exact hport

/-- The table of sinks after `AddSession`. -/
theorem sinksByPort_addSession (app : SwapApp) (cfg : SessionConfig) :
    (app.addSession cfg).sinksByPort =
      if cfg.role ≠ .repeater then (app.ensureSink cfg.ctrlPort cfg.proto).sinksByPort
      else app.sinksByPort := by
  rw [addSession]
  split_ifs
  · rfl
  · rw [ensureSink, ensureSink]
    by_cases hport : app.Listens cfg.ctrlPort
    · rw [if_pos hport, if_pos (by exact hport)]
    · rw [if_neg hport, if_neg (by exact hport)]
  · rfl
  · rfl

/-- One more session. -/
theorem Added.addSession {app : SwapApp} {cfgs : List SessionConfig}
    (h : app.Added cfgs) (cfg : SessionConfig) :
    (app.addSession cfg).Added (cfgs ++ [cfg]) := by
  have hsids : ∀ sid, sid ∈ (app.addSession cfg).sessions.map Prod.fst ↔
      sid ∈ app.sessions.map Prod.fst ∨ sid = cfg.sid := by
    intro sid
    rw [sessions_addSession]
    split_ifs with hold
    · exact ⟨.inl, fun hs => hs.elim id fun he => he ▸ hold⟩
    · rw [List.map_append, List.mem_append, List.map_singleton, List.mem_singleton]
  have hknown : ∀ c ∈ cfgs ++ [cfg],
      c.sid ∈ (app.addSession cfg).sessions.map Prod.fst := by
    intro c hc
    rcases List.mem_append.mp hc with hc | hc
    · exact (hsids _).mpr (.inl (h.known c hc))
    · exact (hsids _).mpr (.inr (congrArg SessionConfig.sid (List.mem_singleton.mp hc)))
  have hsinks := sinksByPort_addSession app cfg
  by_cases hrole : cfg.role ≠ .repeater
  · rw [if_pos hrole] at hsinks
    refine ⟨hsinks ▸ nodup_ensureSink h.ports _ _, fun e he => ?_, fun c hc hr => ?_,
      hknown⟩
    · rw [hsinks] at he
      rcases mem_ensureSink.mp he with he | ⟨he, -⟩
      · obtain ⟨c, hc, horigin⟩ := h.origin e he
        exact ⟨c, List.mem_append_left _ hc, horigin⟩
      · exact ⟨cfg, List.mem_append_right _ List.mem_cons_self, hrole, he⟩
    · rw [Listens, hsinks]
      rcases List.mem_append.mp hc with hc | hc
      · exact listens_mono (h.listens c hc hr)
      · rw [List.mem_singleton.mp hc]
        exact listens_ensureSink app _ _
  · rw [if_neg hrole] at hsinks
    refine ⟨hsinks ▸ h.ports, fun e he => ?_, fun c hc hr => ?_, hknown⟩
    · obtain ⟨c, hc, horigin⟩ := h.origin e (hsinks ▸ he)
      exact ⟨c, List.mem_append_left _ hc, horigin⟩
    · rw [Listens, hsinks]
      rcases List.mem_append.mp hc with hc | hc
      · exact h.listens c hc hr
      · exact absurd hr (List.mem_singleton.mp hc ▸ hrole)

/-- All sessions of a list, in its order. -/
theorem added_foldl (cfgs : List SessionConfig) :
    (cfgs.foldl addSession {}).Added cfgs := by
  induction cfgs using List.reverseRecOn with
  | nil => exact added_nil
  | append_singleton cfgs cfg ih =>
      rw [List.foldl_append]
      exact ih.addSession cfg

/-! ## Sinks of one port -/

/-- A port has one transport. -/
theorem Added.boundTo_unique {app : SwapApp} {cfgs : List SessionConfig}
    (h : app.Added cfgs) {port : BitVec 16} {a b : Transport}
    (ha : app.BoundTo port a) (hb : app.BoundTo port b) : a = b := by
  obtain ⟨e, he, hport, rfl⟩ := ha
  obtain ⟨e', he', hport', rfl⟩ := hb
  rw [List.inj_on_of_nodup_map h.ports he he' (hport.trans hport'.symm)]

/-- The transport of a port is that of one of its sessions. -/
theorem Added.boundTo {app : SwapApp} {cfgs : List SessionConfig} (h : app.Added cfgs)
    {cfg : SessionConfig} (hc : cfg ∈ cfgs) (hrole : cfg.role ≠ .repeater) :
    ∃ c ∈ cfgs, c.role ≠ .repeater ∧ c.ctrlPort = cfg.ctrlPort ∧
      app.BoundTo cfg.ctrlPort (sinkTransport c.proto) := by
  obtain ⟨e, he, hport⟩ := List.mem_map.mp (h.listens cfg hc hrole)
  obtain ⟨c, hc, hr, rfl⟩ := h.origin e he
  exact ⟨c, hc, hr, hport, _, he, hport, rfl⟩

theorem Added.find_isSome {app : SwapApp} {cfgs : List SessionConfig}
    (h : app.Added cfgs) {cfg : SessionConfig} (hc : cfg ∈ cfgs) :
    (app.find cfg.sid).isSome := by
  obtain ⟨e, he, hsid⟩ := List.mem_map.mp (h.known cfg hc)
  rw [find, List.lookup_isSome_iff]
  exact ⟨e, he, beq_iff_eq.mpr hsid.symm⟩

/-- Every session of a node is heard on its port over its protocol exactly when the
sessions of one port have one protocol. -/
theorem sinks_listen_iff (cfgs : List SessionConfig)
    (hproto : ∀ cfg ∈ cfgs, IsProtocol cfg.proto) :
    (∀ cfg ∈ cfgs, cfg.role ≠ .repeater →
      (cfgs.foldl addSession {}).Processes cfg.ctrlPort (sendTransport cfg.proto)
        cfg.sid) ↔
    ∀ c ∈ cfgs, ∀ c' ∈ cfgs, c.role ≠ .repeater → c'.role ≠ .repeater →
      c.ctrlPort = c'.ctrlPort → sendTransport c.proto = sendTransport c'.proto := by
  have h := added_foldl cfgs
  constructor
  · intro hall c hc c' hc' hr hr' hport
    exact h.boundTo_unique (hport ▸ (hall c hc hr).1) (hall c' hc' hr').1
  · intro hsame cfg hc hr
    obtain ⟨c, hc', hr', hport, hbound⟩ := h.boundTo hc hr
    rw [sinkTransport_eq (hproto c hc'), hsame c hc' cfg hc hr' hr hport] at hbound
    exact ⟨hbound, h.find_isSome hc⟩

/-- A session over UDP and one over TCP to the same port of one node. -/
def sharedPort : List SessionConfig :=
  [{ sid := 1, role := .next, proto := "udp" }, { sid := 2, role := .next, proto := "tcp" }]

theorem sharedPort_listens_iff :
    (∀ cfg ∈ sharedPort, cfg.role ≠ .repeater →
      (sharedPort.foldl addSession {}).Processes cfg.ctrlPort (sendTransport cfg.proto)
        cfg.sid) ↔
    ∀ c ∈ sharedPort, ∀ c' ∈ sharedPort, c.role ≠ .repeater → c'.role ≠ .repeater →
      c.ctrlPort = c'.ctrlPort → sendTransport c.proto = sendTransport c'.proto :=
  sinks_listen_iff sharedPort (by decide)

/-- The sink of the second session is missing: its control packets go to a port that
only a UDP sink is bound to. -/
theorem sharedPort_tcp_unheard :
    (sharedPort.map SessionConfig.sid).Nodup ∧
      (∀ cfg ∈ sharedPort, cfg.role ≠ .repeater ∧ IsProtocol cfg.proto) ∧
      ∃ cfg ∈ sharedPort, ¬ (sharedPort.foldl addSession {}).Processes cfg.ctrlPort
        (sendTransport cfg.proto) cfg.sid := by
  refine ⟨by decide, by decide, _, List.mem_cons_of_mem _ List.mem_cons_self, ?_⟩
  rintro ⟨⟨e, he, -, htransport⟩, -⟩
  have hsinks : (sharedPort.foldl addSession {}).sinksByPort = [(7000, "udp")] := by decide
  rw [hsinks, List.mem_singleton] at he
  exact absurd (he ▸ htransport) (by decide)

end SwapApp

end Q2NS.Swap
