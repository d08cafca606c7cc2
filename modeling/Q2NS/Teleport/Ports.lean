import Q2NS.Teleport.Sessions
import Mathlib.Data.List.Pairwise

/-!
# Control ports

How `TeleportationHelper` chooses the control port of a session: the given one, or the
port base plus the residue of the session's id modulo 10000, in 16 bits.  A sum of zero
is replaced by the base plus one, which is the port of the residue one, and the ports
that are given are not looked at when one is chosen.
-/

namespace Q2NS.Teleport

/-- `SessionSpec`; a control port of `0` is to be chosen. -/
structure SessionSpec where
  sessionId : SessionId
  src : String
  dst : String
  ctrlPort : Port := 0
  deriving DecidableEq

/-! ## Nodes -/

/-- `m_name2node`, with the number of nodes that exist. -/
structure NameMap where
  entries : List (String × NodeId)
  nodeCount : ℕ
  below : ∀ e ∈ entries, e.2 < nodeCount
  apart : (entries.map Prod.snd).Nodup

namespace NameMap

/-- No names yet, with the nodes that exist. -/
def empty (nodeCount : ℕ) : NameMap where
  entries := []
  nodeCount := nodeCount
  below := fun _ he => absurd he List.not_mem_nil
  apart := List.nodup_nil

/-- The node with a name. -/
def node (names : NameMap) (name : String) : Option NodeId := names.entries.lookup name

/-- One pass of the loop of `BuildNodes`: `CreateNode` takes the next id. -/
def buildNode (names : NameMap) (name : String) : NameMap :=
  if (names.node name).isSome then names
  else
    { entries := names.entries ++ [(name, names.nodeCount)]
      nodeCount := names.nodeCount + 1
      below := by
        intro e he
        rcases List.mem_append.mp he with he | he
        · exact Nat.lt_succ_of_lt (names.below e he)
        · rw [List.mem_singleton.mp he]
          exact Nat.lt_succ_self _
      apart := by
        rw [List.map_append, List.nodup_append]
        refine ⟨names.apart, List.nodup_singleton _, fun a ha b hb hab => ?_⟩
        obtain ⟨e, he, rfl⟩ := List.mem_map.mp ha
        have hlt := names.below e he
        rw [hab, List.mem_singleton.mp hb] at hlt
        exact absurd hlt (Nat.lt_irrefl _) }

/-- `BuildNodes`. -/
def buildNodes (names : NameMap) (nodes : List String) : NameMap :=
  nodes.foldl buildNode names

/-- Two names of one node are the same. -/
theorem node_injective (names : NameMap) {a b : String} {n : NodeId}
    (ha : names.node a = some n) (hb : names.node b = some n) : a = b := by
  obtain ⟨l₁, l₂, h₁, -⟩ := List.lookup_eq_some_iff.mp ha
  have hmema : (a, n) ∈ names.entries := h₁ ▸ List.mem_append_right _ List.mem_cons_self
  obtain ⟨l₃, l₄, h₂, -⟩ := List.lookup_eq_some_iff.mp hb
  have hmemb : (b, n) ∈ names.entries := h₂ ▸ List.mem_append_right _ List.mem_cons_self
  exact congrArg Prod.fst (List.inj_on_of_nodup_map names.apart hmema hmemb rfl)

end NameMap

/-! ## Ports -/

/-- `AllocatePort`. -/
def allocatePort (portBase : Port) (sessionId : SessionId) : Port :=
  let p := portBase + (sessionId % 10000#64).truncate 16
  if p = 0 then portBase + 1 else p

/-- What `InstallSessionApps` has done: the given ports it has seen, the destinations
and ports it has warned about, and the sessions that have their two apps. -/
structure Installation where
  usedPortKey : List (NodeId × Port) := []
  warnings : List (String × Port) := []
  sessions : List Session := []

/-- `ctrlPort` of a session. -/
def ctrlPortOf (portBase : Port) (s : SessionSpec) : Port :=
  if s.ctrlPort ≠ 0 then s.ctrlPort else allocatePort portBase s.sessionId

/-- One pass of the loop of `InstallSessionApps`. -/
def installSession (portBase : Port) (names : NameMap) (done : Installation)
    (s : SessionSpec) : Installation :=
  match names.node s.src, names.node s.dst with
  | some src, some dst =>
      let ctrlPort := ctrlPortOf portBase s
      let installed : Session := ⟨s.sessionId, src, dst, ctrlPort⟩
      if s.ctrlPort = 0 then { done with sessions := done.sessions ++ [installed] }
      else if (dst, ctrlPort) ∈ done.usedPortKey then
        { done with
          warnings := done.warnings ++ [(s.dst, ctrlPort)]
          sessions := done.sessions ++ [installed] }
      else
        { done with
          usedPortKey := (dst, ctrlPort) :: done.usedPortKey
          sessions := done.sessions ++ [installed] }
  | _, _ => done

/-- `InstallSessionApps`. -/
def installSessionApps (portBase : Port) (names : NameMap) (specs : List SessionSpec) :
    Installation :=
  specs.foldl (installSession portBase names) {}

variable {portBase : Port} {names : NameMap}

/-- The session whose apps a specification becomes, unless a name is unknown. -/
def sessionOf (portBase : Port) (names : NameMap) (s : SessionSpec) : Option Session :=
  match names.node s.src, names.node s.dst with
  | some src, some dst => some ⟨s.sessionId, src, dst, ctrlPortOf portBase s⟩
  | _, _ => none

theorem installSession_sessions (done : Installation) (s : SessionSpec) :
    (installSession portBase names done s).sessions =
      done.sessions ++ (sessionOf portBase names s).toList := by
  rw [installSession, sessionOf]
  split
  · dsimp only
    split_ifs <;> rfl
  · rw [Option.toList_none, List.append_nil]

theorem installSessionApps_sessions (specs : List SessionSpec) :
    (installSessionApps portBase names specs).sessions =
      specs.filterMap (sessionOf portBase names) := by
  suffices h : ∀ done : Installation,
      (specs.foldl (installSession portBase names) done).sessions =
        done.sessions ++ specs.filterMap (sessionOf portBase names) from h {}
  induction specs with
  | nil => exact fun done => (List.append_nil _).symm
  | cons s specs ih =>
      intro done
      rw [List.foldl_cons, ih, installSession_sessions, List.append_assoc,
        List.filterMap_cons]
      cases sessionOf portBase names s <;> rfl

/-! ## When ports collide -/

/-- `sessionId % 10000`. -/
def SessionSpec.residue (s : SessionSpec) : ℕ := s.sessionId.toNat % 10000

/-- A port that is chosen in 16 bits. -/
theorem allocatePort_toNat (portBase : Port) (s : SessionSpec) :
    (allocatePort portBase s.sessionId).toNat =
      if (portBase.toNat + s.residue) % 65536 = 0 then (portBase.toNat + 1) % 65536
      else (portBase.toNat + s.residue) % 65536 := by
  have hsum : (portBase + (s.sessionId % 10000#64).truncate 16).toNat =
      (portBase.toNat + s.residue) % 65536 := by
    rw [BitVec.toNat_add, BitVec.truncate_eq_setWidth, BitVec.toNat_setWidth,
      BitVec.toNat_umod, SessionSpec.residue, Nat.add_mod_mod]
    rfl
  have hzero : portBase + (s.sessionId % 10000#64).truncate 16 = 0 ↔
      (portBase.toNat + s.residue) % 65536 = 0 := by
    rw [← hsum, ← BitVec.toNat_inj]
    rfl
  rw [allocatePort]
  simp only [hzero]
  split_ifs
  · rw [BitVec.toNat_add]
    rfl
  · exact hsum

/-- The residue of one session leads to the port of another one that is given, or to
the same chosen port. -/
def Clash (portBase : Port) (s t : SessionSpec) : Prop :=
  if t.ctrlPort = 0 then
    s.residue = t.residue ∨
      (s.residue = 1 ∧ (portBase.toNat + t.residue) % 65536 = 0) ∨
      (t.residue = 1 ∧ (portBase.toNat + s.residue) % 65536 = 0)
  else
    t.ctrlPort.toNat = (portBase.toNat + s.residue) % 65536 ∨
      t.ctrlPort.toNat = portBase.toNat + 1 ∧
        (portBase.toNat + s.residue) % 65536 = 0

/-- The condition on the base and the specifications. -/
structure PortsApart (portBase : Port) (names : NameMap) (specs : List SessionSpec) :
    Prop where
  nonzero : ∀ s ∈ specs, (sessionOf portBase names s).isSome → s.ctrlPort = 0 →
    ¬ (portBase.toNat = 65535 ∧ s.residue = 1)
  apart : specs.Pairwise fun s t => (sessionOf portBase names s).isSome →
    (sessionOf portBase names t).isSome → s.dst = t.dst →
      (s.ctrlPort = 0 → ¬ Clash portBase s t) ∧ (t.ctrlPort = 0 → ¬ Clash portBase t s)

theorem ctrlPortOf_eq_zero_iff (portBase : Port) (s : SessionSpec) :
    ctrlPortOf portBase s = 0 ↔
      s.ctrlPort = 0 ∧ portBase.toNat = 65535 ∧ s.residue = 1 := by
  have hbase : portBase.toNat < 65536 := portBase.isLt
  have hresidue : s.residue < 10000 := Nat.mod_lt _ (by decide)
  rw [ctrlPortOf]
  split_ifs with hgiven
  · exact iff_of_false hgiven fun h => hgiven h.1
  · have hauto : s.ctrlPort = 0 := not_not.mp hgiven
    have hzero : (0 : Port).toNat = 0 := rfl
    rw [← BitVec.toNat_inj, allocatePort_toNat, hzero]
    simp only [hauto, true_and]
    split_ifs <;> omega

/-- A chosen port is the port of another session exactly when they clash. -/
theorem allocatePort_eq_iff (portBase : Port) (s t : SessionSpec) :
    allocatePort portBase s.sessionId = ctrlPortOf portBase t ↔ Clash portBase s t := by
  have hbase : portBase.toNat < 65536 := portBase.isLt
  have hs : s.residue < 10000 := Nat.mod_lt _ (by decide)
  have ht : t.residue < 10000 := Nat.mod_lt _ (by decide)
  have hgiven : t.ctrlPort.toNat < 65536 := t.ctrlPort.isLt
  rw [ctrlPortOf, Clash]
  by_cases hauto : t.ctrlPort = 0
  · rw [if_neg (not_not.mpr hauto), if_pos hauto, ← BitVec.toNat_inj, allocatePort_toNat,
      allocatePort_toNat]
    split_ifs <;> omega
  · have hne : t.ctrlPort.toNat ≠ 0 := fun h => hauto (BitVec.eq_of_toNat_eq h)
    rw [if_pos hauto, if_neg hauto, ← BitVec.toNat_inj, allocatePort_toNat]
    split_ifs <;> omega

/-- Two ports of which one at least is chosen. -/
theorem ctrlPortOf_ne_iff {s t : SessionSpec}
    (hgiven : s.ctrlPort ≠ 0 → s.ctrlPort ≠ t.ctrlPort) :
    ctrlPortOf portBase s ≠ ctrlPortOf portBase t ↔
      (s.ctrlPort = 0 → ¬ Clash portBase s t) ∧
        (t.ctrlPort = 0 → ¬ Clash portBase t s) := by
  rw [← allocatePort_eq_iff, ← allocatePort_eq_iff]
  by_cases hs : s.ctrlPort = 0
  · have hport : ctrlPortOf portBase s = allocatePort portBase s.sessionId :=
      if_neg (not_not.mpr hs)
    rw [hport]
    constructor
    · intro hne
      refine ⟨fun _ => hne, fun ht heq => hne (heq.symm.trans ?_)⟩
      exact (if_neg (not_not.mpr ht)).symm
    · exact fun h => h.1 hs
  · by_cases ht : t.ctrlPort = 0
    · have hport : ctrlPortOf portBase t = allocatePort portBase t.sessionId :=
        if_neg (not_not.mpr ht)
      rw [hport]
      constructor
      · exact fun hne => ⟨fun h => absurd h hs, fun _ => hne.symm⟩
      · exact fun h heq => h.2 ht heq.symm
    · rw [ctrlPortOf, ctrlPortOf, if_pos hs, if_pos ht]
      exact iff_of_true (hgiven hs) ⟨fun h => absurd h hs, fun h => absurd h ht⟩

theorem sessionOf_eq_some {s : SessionSpec} {x : Session}
    (h : sessionOf portBase names s = some x) :
    names.node s.dst = some x.dst ∧ x.ctrlPort = ctrlPortOf portBase s := by
  rw [sessionOf] at h
  split at h
  · rename_i hdst
    obtain rfl := Option.some.inj h
    exact ⟨hdst, rfl⟩
  · cases h

/-- The same of the sessions that two specifications become. -/
theorem sessionOf_apart_iff {s t : SessionSpec}
    (hgiven : s.dst = t.dst → s.ctrlPort ≠ 0 → s.ctrlPort ≠ t.ctrlPort) :
    (∀ x, sessionOf portBase names s = some x → ∀ y, sessionOf portBase names t = some y →
        x.dst = y.dst → x.ctrlPort ≠ y.ctrlPort) ↔
      ((sessionOf portBase names s).isSome → (sessionOf portBase names t).isSome →
        s.dst = t.dst → (s.ctrlPort = 0 → ¬ Clash portBase s t) ∧
          (t.ctrlPort = 0 → ¬ Clash portBase t s)) := by
  constructor
  · intro h hs ht hdst
    obtain ⟨x, hx⟩ := Option.isSome_iff_exists.mp hs
    obtain ⟨y, hy⟩ := Option.isSome_iff_exists.mp ht
    obtain ⟨hxdst, hxport⟩ := sessionOf_eq_some hx
    obtain ⟨hydst, hyport⟩ := sessionOf_eq_some hy
    rw [← ctrlPortOf_ne_iff (hgiven hdst), ← hxport, ← hyport]
    rw [hdst, hydst] at hxdst
    exact h x hx y hy (Option.some.inj hxdst).symm
  · intro h x hx y hy hdst
    obtain ⟨hxdst, hxport⟩ := sessionOf_eq_some hx
    obtain ⟨hydst, hyport⟩ := sessionOf_eq_some hy
    rw [hdst] at hxdst
    have hname := names.node_injective hxdst hydst
    rw [hxport, hyport, ctrlPortOf_ne_iff (hgiven hname)]
    exact h (Option.isSome_of_mem hx) (Option.isSome_of_mem hy) hname

/-- What the helper is to ensure of the installed sessions: no port is zero, and the
sessions of one destination have different ports, so that the sink bound to the port of
a control packet is its own session's. -/
structure PortsDoNotCollide (sessions : List Session) : Prop where
  nonzero : ∀ s ∈ sessions, s.ctrlPort ≠ 0
  apart : sessions.Pairwise fun s t => s.dst = t.dst → s.ctrlPort ≠ t.ctrlPort

/-- A control packet reaches no other session's sink. -/
theorem PortsDoNotCollide.bound {sessions : List Session}
    (h : PortsDoNotCollide sessions) (st : State) {s t : Session} (hs : s ∈ sessions)
    {m1 m2 : Byte} (ht : st.bound sessions ⟨s.dst, s.ctrlPort, m1, m2⟩ = some t) :
    t = s := by
  rw [State.bound] at ht
  have hmem := List.mem_of_find?_eq_some ht
  have hfound := List.find?_some ht
  have hkeys : t.dst = s.dst ∧ t.ctrlPort = s.ctrlPort ∧ t.sessionId ∈ st.listening :=
    of_decide_eq_true hfound
  by_contra hne
  have : Std.Symm fun s t : Session => s.dst = t.dst → s.ctrlPort ≠ t.ctrlPort :=
    ⟨fun _ _ h he hport => h he.symm hport.symm⟩
  exact h.apart.forall hmem hs hne hkeys.1 hkeys.2.1

/-- Where no two sessions of a destination are given the same port, the ports collide
exactly when the condition fails. -/
theorem portsDoNotCollide_iff (portBase : Port) (names : NameMap)
    (specs : List SessionSpec)
    (hgiven : specs.Pairwise fun s t =>
      s.dst = t.dst → s.ctrlPort ≠ 0 → s.ctrlPort ≠ t.ctrlPort) :
    PortsDoNotCollide (installSessionApps portBase names specs).sessions ↔
      PortsApart portBase names specs := by
  constructor
  · rintro ⟨hnonzero, hapart⟩
    rw [installSessionApps_sessions] at hnonzero hapart
    refine ⟨fun s hs hknown hauto hwrap => ?_, ?_⟩
    · obtain ⟨x, hx⟩ := Option.isSome_iff_exists.mp hknown
      apply hnonzero x (List.mem_filterMap.mpr ⟨s, hs, hx⟩)
      rw [(sessionOf_eq_some hx).2, ctrlPortOf_eq_zero_iff]
      exact ⟨hauto, hwrap⟩
    · exact (hgiven.and (List.pairwise_filterMap.mp hapart)).imp fun h =>
        (sessionOf_apart_iff h.1).mp h.2
  · rintro ⟨hnonzero, hapart⟩
    refine ⟨?_, ?_⟩ <;> rw [installSessionApps_sessions]
    · intro x hmem hzero
      obtain ⟨s, hs, hx⟩ := List.mem_filterMap.mp hmem
      rw [(sessionOf_eq_some hx).2, ctrlPortOf_eq_zero_iff] at hzero
      exact hnonzero s hs (Option.isSome_of_mem hx) hzero.1 hzero.2
    · exact List.pairwise_filterMap.mpr ((hgiven.and hapart).imp fun h =>
        (sessionOf_apart_iff h.1).mpr h.2)

/-- The ports of the installed sessions under the condition, and the sink that a control
packet reaches. -/
theorem installSessionApps_ports_iff (portBase : Port) (names : NameMap)
    (specs : List SessionSpec)
    (hgiven : specs.Pairwise fun s t =>
      s.dst = t.dst → s.ctrlPort ≠ 0 → s.ctrlPort ≠ t.ctrlPort) :
    (PortsDoNotCollide (installSessionApps portBase names specs).sessions ↔
      PortsApart portBase names specs) ∧
    (PortsApart portBase names specs →
      ∀ (st : State) (s t : Session) (m1 m2 : Byte),
        s ∈ (installSessionApps portBase names specs).sessions →
        st.bound (installSessionApps portBase names specs).sessions
          ⟨s.dst, s.ctrlPort, m1, m2⟩ = some t → t = s) := by
  have hiff := portsDoNotCollide_iff portBase names specs hgiven
  exact ⟨hiff, fun h st _ _ _ _ hs ht => (hiff.mpr h).bound st hs ht⟩

/-- Two sessions between the same nodes whose ids have one residue. -/
def sameResidue : List SessionSpec := [⟨1, "A", "B", 0⟩, ⟨10001, "A", "B", 0⟩]

/-- Their sinks get one port. -/
theorem sameResidue_ports_collide :
    ¬ ∀ (portBase : Port) (nodes : List String) (specs : List SessionSpec),
      (specs.map SessionSpec.sessionId).Nodup →
      (∀ dst, (specs.filter fun s => s.dst = dst).length < 10000) →
      (specs.Pairwise fun s t =>
        s.dst = t.dst → s.ctrlPort ≠ 0 → s.ctrlPort ≠ t.ctrlPort) →
      PortsDoNotCollide (installSessionApps portBase
        ((NameMap.empty 0).buildNodes nodes) specs).sessions := by
  intro hall
  have hports := hall 7000 ["A", "B"] sameResidue (by decide)
    (fun dst => Nat.lt_of_le_of_lt (List.length_filter_le _ _) (by decide)) (by decide)
  exact absurd hports.apart (by decide)

/-- A given port beside a chosen one. -/
def givenAndChosen : List SessionSpec := [⟨1, "A", "B", 9000⟩, ⟨2, "A", "B", 0⟩]

theorem givenAndChosen_ports_iff :
    let names := (NameMap.empty 0).buildNodes ["A", "B"]
    let sessions := (installSessionApps 7000 names givenAndChosen).sessions
    (PortsDoNotCollide sessions ↔ PortsApart 7000 names givenAndChosen) ∧
    (PortsApart 7000 names givenAndChosen →
      ∀ (st : State) (s t : Session) (m1 m2 : Byte), s ∈ sessions →
        st.bound sessions ⟨s.dst, s.ctrlPort, m1, m2⟩ = some t → t = s) :=
  installSessionApps_ports_iff _ _ _ (by decide)

end Q2NS.Teleport
