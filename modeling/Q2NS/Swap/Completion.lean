import Q2NS.Lib.InFlight
import Q2NS.Swap.App

/-!
# Completion of swap sessions

Every session of at least one repeater is completed: when nothing is on its way any
more, its sink is done, and it has been corrected once, after one control packet of
each repeater and after its qubit.  A session without repeaters never gets there,
since only a control packet completes its frame.
-/

namespace Q2NS.Swap

open InFlight

variable {W T : Type}

/-! ## Configurations along a path -/

/-- What the node at a position of a path is told. -/
structure ConfigAt (w : Setup T) (s : SwapSessionSpec T) (i : ℕ) (cfg : SessionConfig) :
    Prop where
  sid : cfg.sid = s.sessionId
  role : cfg.role = if i = 0 then .prev else if i + 1 = s.path.length then .next
    else .repeater
  genPrev : cfg.genPrev = false
  genNext : i + 1 < s.path.length → cfg.genNext = true
  nextPeerId : ∀ name, s.path[i + 1]? = some name → cfg.nextPeerId = w.nodeId name
  corrects : cfg.applyCorrections = true ↔ i + 1 = s.path.length
  expected : i + 1 = s.path.length → cfg.expectedMsgs = repeaterCount s.path
  nextEnd : i ≠ 0 → i + 1 < s.path.length → ∀ name, s.path.getLast? = some name →
    cfg.nextEnd w.useIpv6 = addressOf w name

variable {w : Setup T} {s : SwapSessionSpec T}

/-- The repeaters are the inner nodes of the path. -/
theorem mem_repeaterConfigs {a b : String} {c : String × SessionConfig} :
    ∀ (before : List String) {prev : String} {rest : List String},
      c ∈ repeaterConfigs w s a b prev rest → ∃ i left right,
        (before ++ prev :: rest)[i]? = some left ∧
          (before ++ prev :: rest)[i + 1]? = some c.1 ∧
          (before ++ prev :: rest)[i + 2]? = some right ∧
          c.2 = repeaterConfig w s a b left right := by
  intro before prev rest
  induction rest generalizing before prev with
  | nil => intro hc; exact absurd hc List.not_mem_nil
  | cons name rest ih =>
      intro hc
      cases rest with
      | nil => exact absurd hc List.not_mem_nil
      | cons next rest =>
          rw [repeaterConfigs, List.mem_cons] at hc
          rcases hc with rfl | hc
          · refine ⟨before.length, prev, next, ?_, ?_, ?_, rfl⟩
            · rw [List.getElem?_append_right le_rfl, Nat.sub_self]
              rfl
            · rw [List.getElem?_append_right (Nat.le_add_right _ 1), Nat.add_sub_cancel_left]
              rfl
            · rw [List.getElem?_append_right (Nat.le_add_right _ 2),
                Nat.add_sub_cancel_left]
              rfl
          · obtain ⟨i, left, right, h⟩ := ih (before ++ [prev]) hc
            refine ⟨i, left, right, ?_⟩
            rwa [List.append_assoc] at h

/-- A position of a path without repetitions. -/
theorem position_unique {path : List String} (h : path.Nodup) {i j : ℕ} {name : String}
    (hi : path[i]? = some name) (hj : path[j]? = some name) : i = j :=
  (List.getElem?_inj (List.getElem?_eq_some_iff.mp hi).1 h).mp (hi.trans hj.symm)

/-- The call of `AddSession` for a node on the path is about its position. -/
theorem configAt_of_mem (hnodup : s.path.Nodup) {i : ℕ} {name : String}
    {cfg : SessionConfig} (hi : s.path[i]? = some name)
    (hmem : (name, cfg) ∈ sessionConfigs w s) : ConfigAt w s i cfg := by
  rw [sessionConfigs] at hmem
  split at hmem
  next a r rest hpath =>
    have hlen : s.path.length = rest.length + 2 := by rw [hpath]; rfl
    have hlast : s.path.getLast? = some ((r :: rest).getLast (List.cons_ne_nil _ _)) := by
      rw [hpath, List.getLast?_cons_cons, List.getLast?_eq_some_getLast]
    rw [List.mem_cons, List.mem_cons] at hmem
    rcases hmem with heq | heq | hmem
    · obtain ⟨rfl, rfl⟩ := Prod.mk.inj heq
      obtain rfl : i = 0 := position_unique hnodup hi (by rw [hpath]; rfl)
      exact { sid := rfl, role := rfl, genPrev := rfl, genNext := fun _ => rfl
              nextPeerId := fun name hname => by
                rw [hpath] at hname
                rw [← Option.some.inj hname]
                rfl
              corrects := ⟨fun h => (by cases h), fun h => by omega⟩
              expected := fun _ => rfl
              nextEnd := fun h => absurd rfl h }
    · obtain ⟨rfl, rfl⟩ := Prod.mk.inj heq
      obtain rfl : i = rest.length + 1 := by
        refine position_unique hnodup hi ?_
        rw [List.getLast?_eq_getElem?, hlen] at hlast
        exact hlast
      have hend : rest.length + 1 + 1 = s.path.length := hlen.symm
      exact { sid := rfl
              role := by rw [if_neg (Nat.succ_ne_zero _), if_pos hend]; rfl
              genPrev := rfl, genNext := fun h => by omega
              nextPeerId := fun name hname => by
                have := (List.getElem?_eq_some_iff.mp hname).1
                omega
              corrects := ⟨fun _ => hend, fun _ => rfl⟩
              expected := fun _ => rfl
              nextEnd := fun _ h => by omega }
    · obtain ⟨j, left, right, -, hj, hnext, hcfg⟩ :=
        mem_repeaterConfigs [] hmem
      rw [List.nil_append, ← hpath] at hj hnext
      obtain rfl : i = j + 1 := position_unique hnodup hi hj
      have hlt := (List.getElem?_eq_some_iff.mp hnext).1
      obtain rfl : cfg = _ := hcfg
      exact { sid := rfl
              role := by
                rw [if_neg (Nat.succ_ne_zero _), if_neg (by omega)]
                rfl
              genPrev := rfl, genNext := fun _ => rfl
              nextPeerId := fun name hname => by
                rw [Option.some.inj (hname.symm.trans hnext)]
                rfl
              corrects := ⟨fun h => (by cases h), fun h => by omega⟩
              expected := fun h => by omega
              nextEnd := fun _ _ name hname => by
                rw [Option.some.inj (hname.symm.trans hlast)]
                cases h : w.useIpv6
                · simp only [SessionConfig.nextEnd, repeaterConfig, addressOf, h,
                    Bool.false_eq_true, if_false]
                · simp only [SessionConfig.nextEnd, repeaterConfig, addressOf, h, if_true] }
  next => exact absurd hmem List.not_mem_nil

/-! ## The deployment -/

/-- The nodes and addresses that the sessions are installed on: nodes of a path differ,
have different ids, and the control packets of a session are routed to its sink. -/
structure Deployed (w : Setup T) (nodes : List String)
    (planned : List (SwapSessionSpec T)) : Prop where
  long : ∀ s ∈ planned, 2 ≤ s.path.length
  nodup : ∀ s ∈ planned, s.path.Nodup
  bound : ∀ s ∈ planned, ∀ name ∈ s.path, name ∈ nodes
  ids : (planned.map SwapSessionSpec.sessionId).Nodup
  nodeIds : ∀ a ∈ nodes, ∀ b ∈ nodes, w.nodeId a = w.nodeId b → a = b
  nodeIdLt : ∀ a ∈ nodes, w.nodeId a < 2 ^ 32
  routed : ∀ s ∈ planned, ∀ b, s.path.getLast? = some b → ¬ (addressOf w b).IsAny ∧
    ∀ a ∈ nodes, addressOf w a = addressOf w b → a = b

section Installed

variable {nodes : List String} {planned : List (SwapSessionSpec T)} {apps : Apps}

theorem isSome_of_installed (hd : Deployed w nodes planned)
    (hinst : installUnifiedApps w (bindApps nodes) planned = some apps) :
    ∀ name, (apps name).map SwapApp.sessions = (bindApps nodes name).map fun _ =>
      planned.filterMap fun s => entryOf w s name := by
  obtain ⟨apps', hrun, hat⟩ := installUnifiedApps_spec w planned (bindApps nodes) hd.long
    (fun s hs name hname => by
      rw [bindApps, if_pos (hd.bound s hs name hname)]
      rfl)
    hd.ids
    (by
      intro s _ name app happ
      rw [bindApps] at happ
      split_ifs at happ
      rw [← Option.some.inj happ]
      exact List.not_mem_nil)
  obtain rfl := Option.some.inj (hrun.symm.trans hinst)
  intro name
  rw [hat name, bindApps]
  split_ifs
  · rfl
  · rfl

/-- The apps are on the nodes. -/
theorem mem_nodes_of_installed (hd : Deployed w nodes planned)
    (hinst : installUnifiedApps w (bindApps nodes) planned = some apps) {name : String}
    (h : (apps name).isSome) : name ∈ nodes := by
  have hat := isSome_of_installed hd hinst name
  obtain ⟨app, happ⟩ := Option.isSome_iff_exists.mp h
  rw [happ, bindApps] at hat
  by_contra hno
  rw [if_neg hno] at hat
  cases hat

/-- The sessions of the apps are planned, and at the nodes on their paths. -/
theorem known_of_installed (hd : Deployed w nodes planned)
    (hinst : installUnifiedApps w (bindApps nodes) planned = some apps) {net : Net W}
    {name : String} {sid : SessionId}
    (h : (State.session { net := net, apps := apps } name sid).isSome) :
    ∃ s ∈ planned, s.sessionId = sid ∧ name ∈ s.path := by
  obtain ⟨x, hx⟩ := Option.isSome_iff_exists.mp h
  obtain ⟨app, happ, hfind⟩ := Option.bind_eq_some_iff.mp hx
  have happ : apps name = some app := happ
  have hat := isSome_of_installed hd hinst name
  have hnode : name ∈ nodes := mem_nodes_of_installed hd hinst (by rw [happ]; rfl)
  rw [happ, bindApps, if_pos hnode] at hat
  have hsessions : app.sessions = planned.filterMap fun s => entryOf w s name :=
    Option.some.inj hat
  rw [SwapApp.find, hsessions] at hfind
  obtain ⟨before, after, heq, -⟩ := List.lookup_eq_some_iff.mp hfind
  have hmem : (sid, x) ∈ planned.filterMap fun s => entryOf w s name := by
    rw [heq]
    exact List.mem_append_right _ List.mem_cons_self
  obtain ⟨t, ht, he⟩ := List.mem_filterMap.mp hmem
  exact ⟨t, ht, (entryOf_spec w t he).1.symm,
    (entryOf_isSome w t (hd.long t ht) name).mp (by rw [he]; rfl)⟩

/-- A session starts out fresh at the nodes on its path, and is nowhere else. -/
theorem session_of_installed (hd : Deployed w nodes planned)
    (hinst : installUnifiedApps w (bindApps nodes) planned = some apps)
    (hs : s ∈ planned) {net : Net W} {name : String} :
    (∀ i, s.path[i]? = some name → ∃ cfg, ConfigAt w s i cfg ∧
      State.session { net := net, apps := apps } name s.sessionId =
        some { cfg := cfg }) ∧
    ((State.session { net := net, apps := apps } name s.sessionId).isSome →
      name ∈ s.path) := by
  have hat := isSome_of_installed hd hinst name
  refine ⟨fun i hi => ?_, fun hsome => ?_⟩
  · have hname := List.mem_of_getElem? hi
    obtain ⟨e, he⟩ := Option.isSome_iff_exists.mp
      ((entryOf_isSome w s (hd.long s hs) name).mpr hname)
    obtain ⟨cfg, -, hcfg⟩ := Option.map_eq_some_iff.mp he
    rw [bindApps, if_pos (hd.bound s hs name hname), Option.map_some] at hat
    obtain ⟨app, happ, hsessions⟩ := Option.map_eq_some_iff.mp hat
    have hmem := (entryOf_spec w s he).2
    rw [← hcfg] at hmem
    refine ⟨cfg, configAt_of_mem (hd.nodup s hs) hi hmem, ?_⟩
    show (apps name).bind (SwapApp.find · s.sessionId) = _
    rw [happ, Option.bind_some, SwapApp.find, hsessions, lookup_entries w hd.ids hs he,
      ← hcfg]
  · obtain ⟨t, ht, hid, hmem⟩ := known_of_installed hd hinst hsome
    rwa [← List.inj_on_of_nodup_map hd.ids ht hs hid]

end Installed

/-! ## Handlers -/

section Handlers

variable {api : QNode W} {useIpv6 : Bool} {node : NodeId} {draws : Bool × Bool}
  {x x' : SessionState} {net net' : Net W}

theorem send_spec {label : Label} {q : QubitPtr} {peer : NodeId}
    (h : send api node label q peer net = some net') :
    net'.qubits = net.qubits ++ [⟨label, q, peer⟩] ∧ net'.packets = net.packets ∧
      net'.corrected = net.corrected := by
  obtain ⟨_, -, rfl⟩ := Option.map_eq_some_iff.mp h
  exact ⟨rfl, rfl, rfl⟩

theorem generate_spec {side : Side} {kept : QubitPtr}
    (h : generate api node x side net = some (kept, net')) :
    ∃ q, net'.qubits = net.qubits ++
        [⟨.swapIn side.other x.cfg.sid, q, x.cfg.peerId side⟩] ∧
      net'.packets = net.packets ∧ net'.corrected = net.corrected := by
  obtain ⟨⟨⟨_, remote⟩, world⟩, -, h⟩ := Option.bind_eq_some_iff.mp h
  obtain ⟨_, hsend, h⟩ := Option.bind_eq_some_iff.mp h
  obtain ⟨-, rfl⟩ := Prod.mk.inj (Option.some.inj h)
  have hspec := send_spec hsend
  exact ⟨remote, hspec⟩

/-- A Bell measurement is made and announced when both links are there. -/
theorem maybeDoBsm_spec (hdst : ¬ (x.cfg.nextEnd useIpv6).IsAny)
    (h : maybeDoBsmAndAnnounce api useIpv6 node draws x net = some (x', net')) :
    net'.qubits = net.qubits ∧ net'.corrected = net.corrected ∧
      (x' = x ∧ net'.packets = net.packets ∧
          (x.qPrev.isSome → x.qNext.isSome → x.haveBSM) ∨
        x.haveBSM = false ∧ x' = { x with haveBSM := true } ∧
          ∃ m1 m2, net'.packets = net.packets ++
            [⟨x.cfg.nextEnd useIpv6, x.cfg.ctrlPort, x.cfg.sid, m1, m2, node⟩]) := by
  rw [maybeDoBsmAndAnnounce] at h
  split at h
  next a b hbsm _ _ =>
    obtain ⟨⟨bits, world⟩, -, h⟩ := Option.bind_eq_some_iff.mp h
    obtain ⟨rfl, rfl⟩ := Prod.mk.inj (Option.some.inj h)
    rw [announce, if_neg hdst]
    exact ⟨rfl, rfl, .inr ⟨hbsm, rfl, _, _, rfl⟩⟩
  next hno =>
    obtain ⟨rfl, rfl⟩ := Prod.mk.inj (Option.some.inj h)
    refine ⟨rfl, rfl, .inl ⟨rfl, rfl, fun hprev hnext => ?_⟩⟩
    obtain ⟨a, ha⟩ := Option.isSome_iff_exists.mp hprev
    obtain ⟨b, hb⟩ := Option.isSome_iff_exists.mp hnext
    by_contra hbsm
    exact hno a b (Bool.eq_false_iff.mpr hbsm) ha hb

/-- What a handler does at a node that corrects nothing: it keeps its links, and makes
and announces its Bell measurement when it has both. -/
structure Relays (useIpv6 : Bool) (node : NodeId) (x x' : SessionState)
    (net net' : Net W) : Prop where
  cfg : x'.cfg = x.cfg
  corrected : net'.corrected = net.corrected
  qPrev : x.qPrev.isSome → x'.qPrev.isSome
  qNext : x.qNext.isSome → x'.qNext.isSome
  measured : x'.qPrev.isSome → x'.qNext.isSome → x'.haveBSM
  packets : x'.haveBSM = x.haveBSM ∧ net'.packets = net.packets ∨
    x.haveBSM = false ∧ x'.haveBSM = true ∧ ∃ m1 m2, net'.packets = net.packets ++
      [⟨x.cfg.nextEnd useIpv6, x.cfg.ctrlPort, x.cfg.sid, m1, m2, node⟩]

/-- A repeater may have got links before it looks whether it can measure. -/
theorem relays_of_maybeDoBsm {y : SessionState} {mid : Net W}
    (hdst : ¬ (x.cfg.nextEnd useIpv6).IsAny) (hcfg : y.cfg = x.cfg)
    (hbsm : y.haveBSM = x.haveBSM) (hprev : x.qPrev.isSome → y.qPrev.isSome)
    (hnext : x.qNext.isSome → y.qNext.isSome) (hpackets : mid.packets = net.packets)
    (hcorrected : mid.corrected = net.corrected)
    (h : maybeDoBsmAndAnnounce api useIpv6 node draws y mid = some (x', net')) :
    Relays useIpv6 node x x' net net' ∧ net'.qubits = mid.qubits ∧
      x'.qPrev = y.qPrev ∧ x'.qNext = y.qNext := by
  rw [← hcfg] at hdst
  obtain ⟨hq, hc, ⟨rfl, hp, hmeasured⟩ | ⟨hfalse, rfl, m1, m2, hp⟩⟩ :=
    maybeDoBsm_spec hdst h
  · exact ⟨⟨hcfg, hc.trans hcorrected, hprev, hnext, hmeasured,
      .inl ⟨hbsm, hp.trans hpackets⟩⟩, hq, rfl, rfl⟩
  · refine ⟨⟨hcfg, hc.trans hcorrected, hprev, hnext, fun _ _ => rfl,
      .inr ⟨hbsm.symm.trans hfalse, rfl, m1, m2, ?_⟩⟩, hq, rfl, rfl⟩
    rw [hp, hpackets, hcfg]

theorem maybeDoBsm_cfg {r : SessionState × Net W}
    (h : maybeDoBsmAndAnnounce api useIpv6 node draws x net = some r) :
    r.1.cfg = x.cfg := by
  rw [maybeDoBsmAndAnnounce] at h
  split at h
  next =>
    obtain ⟨⟨bits, world⟩, -, h⟩ := Option.bind_eq_some_iff.mp h
    obtain rfl := Option.some.inj h
    rfl
  next =>
    obtain rfl := Option.some.inj h
    rfl

/-- The guards around `MaybeDoBsmAndAnnounce` repeat its own. -/
theorem maybeDoBsm_of_not (h : ¬ (x.qPrev.isSome ∧ x.qNext.isSome ∧ ¬ x.haveBSM)) :
    maybeDoBsmAndAnnounce api useIpv6 node draws x net = some (x, net) := by
  rw [maybeDoBsmAndAnnounce]
  split
  next a b hbsm ha hb =>
    refine absurd ⟨?_, ?_, ?_⟩ h
    · rw [ha]
      rfl
    · rw [hb]
      rfl
    · rw [hbsm]
      exact Bool.false_ne_true
  next => rfl

/-- The start of a repeater generates its link to the next node; then it may measure. -/
theorem startSession_repeater (hrole : x.cfg.role = .repeater)
    (hprev : x.cfg.genPrev = false) (hnext : x.cfg.genNext = true)
    (h : startSession api useIpv6 node draws x net = some (x', net')) :
    ∃ kept mid, generate api node x .next net = some (kept, mid) ∧
      maybeDoBsmAndAnnounce api useIpv6 node draws (x.setLink kept .next) mid =
        some (x', net') := by
  rw [startSession, hrole] at h
  obtain ⟨⟨y, mid⟩, hgen, h⟩ := Option.bind_eq_some_iff.mp h
  rw [generateLink, SessionConfig.gen, if_pos hnext] at hgen
  obtain ⟨⟨kept, mid'⟩, hpair, heq⟩ := Option.map_eq_some_iff.mp hgen
  obtain ⟨rfl, rfl⟩ := Prod.mk.inj heq
  obtain ⟨⟨z, mid⟩, hskip, h⟩ := Option.bind_eq_some_iff.mp h
  have hno : (x.setLink kept .next).cfg.gen .prev ≠ true := by
    rw [show (x.setLink kept .next).cfg.gen .prev = x.cfg.genPrev from rfl, hprev]
    exact Bool.false_ne_true
  rw [generateLink, if_neg hno] at hskip
  obtain ⟨rfl, rfl⟩ := Prod.mk.inj (Option.some.inj hskip)
  refine ⟨kept, mid', hpair, ?_⟩
  dsimp only at h
  split_ifs at h with hguard
  · exact h
  · rw [maybeDoBsm_of_not hguard]
    exact h

/-- The start of a repeater: its link to the next node is generated. -/
theorem start_repeater (hrole : x.cfg.role = .repeater) (hprev : x.cfg.genPrev = false)
    (hnext : x.cfg.genNext = true) (hdst : ¬ (x.cfg.nextEnd useIpv6).IsAny)
    (h : startSession api useIpv6 node draws x net = some (x', net')) :
    Relays useIpv6 node x x' net net' ∧ x'.qNext.isSome ∧ ∃ q, net'.qubits =
      net.qubits ++ [⟨.swapIn .prev x.cfg.sid, q, x.cfg.nextPeerId⟩] := by
  obtain ⟨kept, mid, hpair, hbsm⟩ := startSession_repeater hrole hprev hnext h
  obtain ⟨q, hq, hp, hc⟩ := generate_spec hpair
  obtain ⟨hrelays, hqubits, -, hlink⟩ := relays_of_maybeDoBsm (x := x)
    (y := x.setLink kept .next) hdst rfl rfl id (fun _ => rfl) hp hc hbsm
  refine ⟨hrelays, ?_, q, hqubits.trans hq⟩
  rw [hlink]
  rfl

/-- The start of the source generates its link to the next node and keeps one half. -/
theorem startSession_source (hrole : x.cfg.role = .prev) (hnext : x.cfg.genNext = true)
    (h : startSession api useIpv6 node draws x net = some (x', net')) :
    ∃ kept, generate api node x .next net = some (kept, net') ∧
      x' = { x with targetQubit := some kept, haveQ := true } := by
  rw [startSession, hrole] at h
  dsimp only at h
  rw [doEndpointStart, if_pos ⟨hrole, hnext⟩] at h
  obtain ⟨⟨kept, mid⟩, hpair, heq⟩ := Option.map_eq_some_iff.mp h
  obtain ⟨rfl, rfl⟩ := Prod.mk.inj heq
  exact ⟨kept, hpair, rfl⟩

/-- The start of the source: its link to the next node is generated. -/
theorem start_source (hrole : x.cfg.role = .prev) (hnext : x.cfg.genNext = true)
    (h : startSession api useIpv6 node draws x net = some (x', net')) :
    x'.cfg = x.cfg ∧ x'.qPrev = x.qPrev ∧ net'.packets = net.packets ∧
      net'.corrected = net.corrected ∧ ∃ q, net'.qubits =
        net.qubits ++ [⟨.swapIn .prev x.cfg.sid, q, x.cfg.nextPeerId⟩] := by
  obtain ⟨kept, hpair, rfl⟩ := startSession_source hrole hnext h
  obtain ⟨q, hq, hp, hc⟩ := generate_spec hpair
  exact ⟨rfl, rfl, hp, hc, q, hq⟩

/-- The start of the sink does nothing. -/
theorem start_sink (hrole : x.cfg.role = .next)
    (h : startSession api useIpv6 node draws x net = some (x', net')) :
    x' = x ∧ net' = net := by
  rw [startSession, hrole] at h
  dsimp only at h
  rw [doEndpointStart, if_neg fun hh => by rw [hrole] at hh; cases hh.1] at h
  obtain ⟨rfl, rfl⟩ := Prod.mk.inj (Option.some.inj h)
  exact ⟨rfl, rfl⟩

theorem takeLink_spec (x : SessionState) (q : QubitPtr) :
    (x.takeLink q .prev).cfg = x.cfg ∧ (x.takeLink q .prev).haveBSM = x.haveBSM ∧
      (x.takeLink q .prev).qNext = x.qNext ∧ (x.takeLink q .prev).qPrev.isSome := by
  rw [SessionState.takeLink]
  split_ifs with hnone
  · exact ⟨rfl, rfl, rfl, rfl⟩
  · refine ⟨rfl, rfl, rfl, ?_⟩
    exact Option.isSome_iff_ne_none.mpr fun h => hnone (Option.isNone_iff_eq_none.mpr h)

/-- A repeater may measure when a qubit arrives. -/
theorem arrive_of_repeater {q : QubitPtr} (hrole : x.cfg.role = .repeater) :
    arrive api useIpv6 node .prev q draws x net =
      maybeDoBsmAndAnnounce api useIpv6 node draws (x.takeLink q .prev) net := by
  have hrole' := (congrArg SessionConfig.role (takeLink_spec x q).1).trans hrole
  have hmeasure : measureOnArrival api useIpv6 node .prev draws (x.takeLink q .prev) net =
      maybeDoBsmAndAnnounce api useIpv6 node draws (x.takeLink q .prev) net := by
    rw [measureOnArrival]
    split_ifs with hguard
    · rfl
    · exact (maybeDoBsm_of_not fun hh => hguard ⟨hrole', hh.2⟩).symm
  rw [arrive, hmeasure]
  cases hrun : maybeDoBsmAndAnnounce api useIpv6 node draws (x.takeLink q .prev) net with
  | none => rfl
  | some r =>
      have hcfg : r.1.cfg = (x.takeLink q .prev).cfg := maybeDoBsm_cfg hrun
      rw [Option.bind_some]
      dsimp only
      rw [keepFinalQubit, if_neg fun hh => hh.1 (by rw [hcfg, hrole'])]

/-- A qubit arrives at a repeater from the previous node. -/
theorem arrive_repeater {q : QubitPtr} (hrole : x.cfg.role = .repeater)
    (hdst : ¬ (x.cfg.nextEnd useIpv6).IsAny)
    (h : arrive api useIpv6 node .prev q draws x net = some (x', net')) :
    Relays useIpv6 node x x' net net' ∧ x'.qPrev.isSome ∧ net'.qubits = net.qubits := by
  obtain ⟨hcfg, hbsm, hnext, hprev⟩ := takeLink_spec x q
  rw [arrive_of_repeater hrole] at h
  obtain ⟨hrelays, hqubits, hlink, -⟩ := relays_of_maybeDoBsm (x := x) hdst hcfg
    hbsm (fun _ => hprev) (fun hs => by rwa [hnext]) rfl rfl h
  refine ⟨hrelays, ?_, hqubits⟩
  rw [hlink]
  exact hprev

/-- A sink looks whether the qubit that arrives is its final one. -/
theorem arrive_of_sink {q : QubitPtr} (hrole : x.cfg.role = .next) :
    arrive api useIpv6 node .prev q draws x net =
      keepFinalQubit api node .prev (x.takeLink q .prev) net := by
  have hskip : measureOnArrival api useIpv6 node .prev draws (x.takeLink q .prev) net =
      some (x.takeLink q .prev, net) := by
    rw [measureOnArrival, if_neg]
    rintro ⟨hrepeater, -⟩
    rw [(takeLink_spec x q).1, hrole] at hrepeater
    cases hrepeater
  rw [arrive, hskip, Option.bind_some]

/-! ## The sink -/

/-- The flags of a sink after `n` control packets of `k` repeaters, when it has been
corrected `c` times. -/
structure SinkInv (k n c : ℕ) (x : SessionState) : Prop where
  haveQ : x.haveQ = x.qPrev.isSome
  target : x.haveQ → x.targetQubit.isSome
  recv : x.recv.toNat = n
  haveF : x.haveF = true ↔ k ≤ n ∧ 0 < n
  done : x.done = true ↔ x.haveQ ∧ x.haveF
  corrected : c = if x.done then 1 else 0

/-- `TryApply` completes a session when the qubit and the frame are there. -/
theorem tryApply_spec (hcorrects : x.cfg.applyCorrections = true)
    (htarget : x.haveQ → x.targetQubit.isSome)
    (hdone : x.done → x.haveQ ∧ x.haveF) (h : tryApply api node x net = some (x', net')) :
    net'.qubits = net.qubits ∧ net'.packets = net.packets ∧
      (∃ d, x' = { x with done := d } ∧ (d = true ↔ x.haveQ ∧ x.haveF)) ∧
      net'.corrected = net.corrected ++
        if x.done = false ∧ x'.done then [(node, x.cfg.sid)] else [] := by
  rw [tryApply, if_neg (not_not.mpr hcorrects)] at h
  split_ifs at h with hskip
  · obtain ⟨rfl, rfl⟩ := Prod.mk.inj (Option.some.inj h)
    have hsame : x.done = true ↔ x.haveQ ∧ x.haveF := by
      refine ⟨hdone, fun hboth => ?_⟩
      rcases hskip with hd | hq | hf
      · exact hd
      · exact absurd hboth.1 hq
      · exact absurd hboth.2 hf
    refine ⟨rfl, rfl, ⟨x.done, rfl, hsame⟩, ?_⟩
    rw [if_neg fun hh => Bool.false_ne_true (hh.1.symm.trans hh.2), List.append_nil]
  · rw [not_or, not_or, not_not, not_not] at hskip
    obtain ⟨hd, hq, hf⟩ := hskip
    obtain ⟨q, hq'⟩ := Option.isSome_iff_exists.mp (htarget hq)
    simp only [hq'] at h
    obtain ⟨world, -, h⟩ := Option.bind_eq_some_iff.mp h
    obtain ⟨world', -, h⟩ := Option.bind_eq_some_iff.mp h
    obtain ⟨rfl, rfl⟩ := Prod.mk.inj (Option.some.inj h)
    refine ⟨rfl, rfl, ⟨true, by rw [← hq'], fun _ => ⟨hq, hf⟩, fun _ => rfl⟩, ?_⟩
    rw [if_pos ⟨Bool.eq_false_iff.mpr hd, rfl⟩]

/-- What a handler of the sink leaves as it is. -/
structure AtSink (k n : ℕ) (node : NodeId) (x x' : SessionState) (net net' : Net W) :
    Prop where
  cfg : x'.cfg = x.cfg
  qubits : net'.qubits = net.qubits
  packets : net'.packets = net.packets
  others : ∀ c, c ≠ (node, x.cfg.sid) → net'.corrected.count c = net.corrected.count c
  inv : SinkInv k n (net'.corrected.count (node, x.cfg.sid)) x'

/-- `TryApply` after one of the flags has been set. -/
theorem atSink_of_tryApply {k n : ℕ} (hcorrects : x.cfg.applyCorrections = true)
    (hQ : x.haveQ = x.qPrev.isSome) (htarget : x.haveQ → x.targetQubit.isSome)
    (hrecv : x.recv.toNat = n) (hF : x.haveF = true ↔ k ≤ n ∧ 0 < n)
    (hdone : x.done → x.haveQ ∧ x.haveF)
    (hcount : net.corrected.count (node, x.cfg.sid) = if x.done then 1 else 0)
    (h : tryApply api node x net = some (x', net')) : AtSink k n node x x' net net' := by
  obtain ⟨hq, hp, ⟨d, rfl, hd⟩, hc⟩ := tryApply_spec hcorrects htarget hdone h
  refine ⟨rfl, hq, hp, fun c hne => ?_, ⟨hQ, htarget, hrecv, hF, hd, ?_⟩⟩
  · rw [hc, List.count_append]
    split_ifs
    · rw [List.count_singleton, if_neg (by rw [beq_iff_eq]; exact Ne.symm hne)]
      rfl
    · rfl
  · rw [hc, List.count_append, hcount]
    cases hx : x.done with
    | false =>
        cases d with
        | false => rfl
        | true =>
            simp only [and_self, if_true, List.count_singleton_self, Bool.false_eq_true,
              if_false]
    | true =>
        rw [hd.mpr (hdone hx)]
        simp only [Bool.true_eq_false, false_and, if_false, if_true, List.count_nil]

/-- The qubit of a session arrives at its sink. -/
theorem arrive_sink {q : QubitPtr} {k n : ℕ} (hrole : x.cfg.role = .next)
    (hcorrects : x.cfg.applyCorrections = true)
    (hinv : SinkInv k n (net.corrected.count (node, x.cfg.sid)) x)
    (h : arrive api useIpv6 node .prev q draws x net = some (x', net')) :
    AtSink k n node x x' net net' ∧ x'.qPrev.isSome := by
  rw [arrive_of_sink hrole] at h
  by_cases hQ : x.haveQ
  · -- the sink has its qubit already
    have hkeep : x.takeLink q .prev = x := by
      rw [SessionState.takeLink, if_neg]
      intro hnone
      have hsome : x.qPrev.isSome := hinv.haveQ.symm.trans hQ
      exact Option.isSome_iff_ne_none.mp hsome (Option.isNone_iff_eq_none.mp hnone)
    rw [hkeep, keepFinalQubit, if_neg fun hh => hh.2 hQ] at h
    obtain ⟨rfl, rfl⟩ := Prod.mk.inj (Option.some.inj h)
    exact ⟨⟨rfl, rfl, rfl, fun _ _ => rfl, hinv⟩, hinv.haveQ.symm.trans hQ⟩
  · have hnone : x.qPrev = none := by
      by_contra hsome
      exact hQ (hinv.haveQ.trans (Option.isSome_iff_ne_none.mpr hsome))
    have htake : x.takeLink q .prev = x.setLink q .prev := by
      have hlink : (x.link .prev).isNone := Option.isNone_iff_eq_none.mpr hnone
      rw [SessionState.takeLink, if_pos hlink]
    have hdone : ¬ x.done := fun hd => hQ (hinv.done.mp hd).1
    let y : SessionState := { x with qPrev := some q, targetQubit := some q, haveQ := true }
    have happly : tryApply api node y net = some (x', net') := by
      have hrole' : (x.setLink q .prev).cfg.role ≠ .repeater := by
        rw [show (x.setLink q .prev).cfg = x.cfg from rfl, hrole]
        exact nofun
      rw [htake, keepFinalQubit, if_pos ⟨hrole', hQ⟩] at h
      dsimp only at h
      split_ifs at h with hF
      · exact h
      · rw [tryApply, if_neg (not_not.mpr hcorrects), if_pos (.inr (.inr hF))]
        exact h
    have hat := atSink_of_tryApply (x := y) (k := k) (n := n) hcorrects rfl
      (fun _ => rfl) hinv.recv hinv.haveF (fun hd => absurd hd hdone) hinv.corrected
      happly
    refine ⟨⟨hat.cfg, hat.qubits, hat.packets, hat.others, hat.inv⟩, ?_⟩
    obtain ⟨-, -, ⟨d, rfl, -⟩, -⟩ := tryApply_spec (x := y) hcorrects (fun _ => rfl)
      (fun hd => absurd hd hdone) happly
    rfl

/-- A control packet of a session arrives at its sink. -/
theorem onCtrlRx_sink {m1 m2 : BitVec 8} {k n : ℕ}
    (hcorrects : x.cfg.applyCorrections = true) (hk : x.cfg.expectedMsgs = k)
    (hlt : n + 1 < 2 ^ 32)
    (hinv : SinkInv k n (net.corrected.count (node, x.cfg.sid)) x)
    (h : onCtrlRx api node m1 m2 x net = some (x', net')) :
    AtSink k (n + 1) node x x' net net' ∧ x'.qPrev = x.qPrev := by
  have hrecv : (x.recv + 1).toNat = n + 1 := by
    rw [BitVec.toNat_add, hinv.recv]
    exact Nat.mod_eq_of_lt hlt
  rw [onCtrlRx] at h
  dsimp only at h
  rw [hk, hrecv] at h
  split_ifs at h with hall
  · let y : SessionState := { x with
      accumM1 := x.accumM1 ^^^ m1
      accumM2 := x.accumM2 ^^^ m2
      recv := x.recv + 1
      haveF := true }
    have hdone : y.done → y.haveQ ∧ y.haveF := fun hd => ⟨(hinv.done.mp hd).1, rfl⟩
    have hat := atSink_of_tryApply (x := y) (k := k) (n := n + 1) hcorrects hinv.haveQ
      hinv.target hrecv ⟨fun _ => ⟨hall, Nat.succ_pos n⟩, fun _ => rfl⟩ hdone
      hinv.corrected h
    refine ⟨⟨hat.cfg, hat.qubits, hat.packets, hat.others, hat.inv⟩, ?_⟩
    obtain ⟨-, -, ⟨d, rfl, -⟩, -⟩ := tryApply_spec (x := y) hcorrects hinv.target hdone h
    rfl
  · obtain ⟨rfl, rfl⟩ := Prod.mk.inj (Option.some.inj h)
    refine ⟨⟨rfl, rfl, rfl, fun _ _ => rfl, hinv.haveQ, hinv.target, hrecv, ?_, hinv.done,
      hinv.corrected⟩, rfl⟩
    rw [hinv.haveF]
    omega

end Handlers

/-! ## Sessions of a state -/

theorem find_setSession (app : SwapApp) (sid sid' : SessionId) (x : SessionState) :
    (app.setSession sid x).find sid' =
      if sid' = sid then (app.find sid).map fun _ => x else app.find sid' := by
  rw [SwapApp.setSession, SwapApp.find, SwapApp.find, SwapApp.find]
  induction app.sessions with
  | nil => split_ifs <;> rfl
  | cons e es ih =>
      rw [List.map_cons]
      by_cases hid : e.1 = sid
      · subst hid
        rw [if_pos rfl, List.lookup_cons, List.lookup_cons, List.lookup_cons, ih]
        by_cases hid' : sid' = e.1
        · rw [if_pos hid', if_pos hid', hid', beq_self_eq_true]
          rfl
        · rw [if_neg hid', if_neg hid', beq_eq_false_iff_ne.mpr hid']
      · rw [if_neg hid, List.lookup_cons, List.lookup_cons, List.lookup_cons, ih]
        by_cases hid' : sid' = sid
        · subst hid'
          rw [if_pos rfl, if_pos rfl, beq_eq_false_iff_ne.mpr (Ne.symm hid)]
        · rw [if_neg hid', if_neg hid']

variable {st st' : State W}

/-- A handler changes one session of one node. -/
theorem onSession_cases {name : String} {sid : SessionId}
    {handler : SessionState → Net W → Option (SessionState × Net W)}
    (h : st.onSession name sid handler = some st') :
    st.session name sid = none ∧ st' = st ∨
      ∃ x x', st.session name sid = some x ∧ handler x st.net = some (x', st'.net) ∧
        st'.started = st.started ∧ st'.heard = st.heard ∧
        ∀ name' sid', st'.session name' sid' =
          if name' = name ∧ sid' = sid then some x' else st.session name' sid' := by
  rw [State.onSession] at h
  cases happ : st.apps name with
  | none => rw [happ] at h; cases h
  | some app =>
      simp only [happ] at h
      cases hfind : app.find sid with
      | none =>
          simp only [hfind, Option.some.injEq] at h
          refine .inl ⟨?_, h.symm⟩
          rw [State.session, happ, Option.bind_some, hfind]
      | some x =>
          simp only [hfind] at h
          obtain ⟨⟨x', net⟩, hrun, rfl⟩ := Option.map_eq_some_iff.mp h
          refine .inr ⟨x, x', ?_, hrun, rfl, rfl, fun name' sid' => ?_⟩
          · rw [State.session, happ, Option.bind_some, hfind]
          · show (Function.update st.apps name (some (app.setSession sid x')) name').bind
              (SwapApp.find · sid') = _
            by_cases hname : name' = name
            · subst hname
              rw [Function.update_self, Option.bind_some, find_setSession, hfind]
              by_cases hsid : sid' = sid
              · rw [if_pos hsid, if_pos ⟨rfl, hsid⟩]
                rfl
              · rw [if_neg hsid, if_neg fun hh => hsid hh.2, State.session, happ,
                  Option.bind_some]
            · rw [Function.update_of_ne hname, if_neg fun hh => hname hh.1]
              rfl

theorem onSession_apps {name : String} {sid : SessionId}
    {handler : SessionState → Net W → Option (SessionState × Net W)}
    (h : st.onSession name sid handler = some st') (name' : String)
    (hsome : (st'.apps name').isSome) : (st.apps name').isSome := by
  rw [State.onSession] at h
  cases happ : st.apps name with
  | none => rw [happ] at h; cases h
  | some app =>
      simp only [happ] at h
      cases hfind : app.find sid with
      | none =>
          simp only [hfind, Option.some.injEq] at h
          rwa [h]
      | some x =>
          simp only [hfind] at h
          obtain ⟨⟨x', net⟩, -, rfl⟩ := Option.map_eq_some_iff.mp h
          by_cases hname : name' = name
          · rw [hname, happ]
            rfl
          · rwa [show ({ st with net := net, apps := _ } : State W).apps name' = _ from
              Function.update_of_ne hname ..] at hsome

/-- The senders of the control packets of a session that its sink has processed. -/
def State.heardOf (st : State W) (sid : SessionId) : List NodeId :=
  (st.heard.filter fun e => e.1 = sid).map Prod.snd

/-- The senders of all control packets of a session. -/
def State.sendersOf (st : State W) (sid : SessionId) : List NodeId :=
  (st.net.packets.filter fun pkt => pkt.sid = sid).map CtrlPacket.sender ++ st.heardOf sid

/-- A session that an event does not touch. -/
structure Same (sid : SessionId) (st st' : State W) : Prop where
  session : ∀ name, st'.session name sid = st.session name sid
  started : ∀ name, (name, sid) ∈ st'.started ↔ (name, sid) ∈ st.started
  qubits : ∀ f side, f.label = .swapIn side sid →
    (f ∈ st'.net.qubits ↔ f ∈ st.net.qubits)
  packets : ∀ pkt, pkt.sid = sid → (pkt ∈ st'.net.packets ↔ pkt ∈ st.net.packets)
  senders : (st'.sendersOf sid).Perm (st.sendersOf sid)
  heard : st'.heardOf sid = st.heardOf sid
  corrected : ∀ node, st'.net.corrected.count (node, sid) =
    st.net.corrected.count (node, sid)

/-- What holds of a session in every state. -/
structure SessionInv (w : Setup T) (s : SwapSessionSpec T) (sink : String)
    (st : State W) : Prop where
  held : ∀ i name, s.path[i]? = some name →
    ∃ x, st.session name s.sessionId = some x ∧ ConfigAt w s i x.cfg
  only : ∀ name, (st.session name s.sessionId).isSome → name ∈ s.path
  flights : ∀ f ∈ st.net.qubits, ∀ side, f.label = .swapIn side s.sessionId →
    side = .prev ∧ ∃ i name, s.path[i + 1]? = some name ∧ f.dst = w.nodeId name
  hop : ∀ i a c x, s.path[i]? = some a → s.path[i + 1]? = some c →
    (a, s.sessionId) ∈ st.started → st.session c s.sessionId = some x →
    x.qPrev.isSome ∨
      ∃ f ∈ st.net.qubits, f.label = .swapIn .prev s.sessionId ∧ f.dst = w.nodeId c
  repeater : ∀ i a x, 0 < i → i + 1 < s.path.length → s.path[i]? = some a →
    st.session a s.sessionId = some x →
    ((a, s.sessionId) ∈ st.started → x.qNext.isSome) ∧
      (x.qPrev.isSome → x.qNext.isSome → x.haveBSM) ∧
      (x.haveBSM = true ↔ w.nodeId a ∈ st.sendersOf s.sessionId)
  nodup : (st.sendersOf s.sessionId).Nodup
  senders : ∀ n ∈ st.sendersOf s.sessionId,
    ∃ i a, 0 < i ∧ i + 1 < s.path.length ∧ s.path[i]? = some a ∧ n = w.nodeId a
  packets : ∀ pkt ∈ st.net.packets, pkt.sid = s.sessionId → pkt.dst = addressOf w sink
  sink : ∀ x, st.session sink s.sessionId = some x →
    SinkInv (s.path.length - 2) (st.heardOf s.sessionId).length
      (st.net.corrected.count (w.nodeId sink, s.sessionId)) x

theorem SessionInv.same {sink : String} (h : SessionInv w s sink st)
    (e : Same s.sessionId st st') : SessionInv w s sink st' where
  held := fun i name hi => by
    rw [e.session]
    exact h.held i name hi
  only := fun name hname => by
    rw [e.session] at hname
    exact h.only name hname
  flights := fun f hf side hlabel => h.flights f ((e.qubits f side hlabel).mp hf) side hlabel
  hop := fun i a c x ha hc hstarted hx => by
    rw [e.session] at hx
    refine (h.hop i a c x ha hc ((e.started a).mp hstarted) hx).imp id ?_
    rintro ⟨f, hf, hlabel, hdst⟩
    exact ⟨f, (e.qubits f _ hlabel).mpr hf, hlabel, hdst⟩
  repeater := fun i a x hi hlt ha hx => by
    rw [e.session] at hx
    rw [e.started, e.senders.mem_iff]
    exact h.repeater i a x hi hlt ha hx
  nodup := e.senders.nodup_iff.mpr h.nodup
  senders := fun n hn => h.senders n (e.senders.mem_iff.mp hn)
  packets := fun pkt hp hsid => h.packets pkt ((e.packets pkt hsid).mp hp) hsid
  sink := fun x hx => by
    rw [e.session] at hx
    rw [e.heard, e.corrected]
    exact h.sink x hx

/-! ## Other sessions -/

/-- What a handler adds for its own session. -/
structure Adds (sid : SessionId) (net net' : Net W) : Prop where
  qubits : ∃ qs, net'.qubits = net.qubits ++ qs ∧
    ∀ f ∈ qs, ∃ side, f.label = .swapIn side sid
  packets : ∃ ps, net'.packets = net.packets ++ ps ∧ ∀ pkt ∈ ps, pkt.sid = sid
  corrected : ∀ node sid', sid' ≠ sid →
    net'.corrected.count (node, sid') = net.corrected.count (node, sid')

theorem Adds.of_eq {sid : SessionId} {net net' : Net W}
    (hq : net'.qubits = net.qubits) (hp : net'.packets = net.packets)
    (hc : ∀ node sid', sid' ≠ sid →
      net'.corrected.count (node, sid') = net.corrected.count (node, sid')) :
    Adds sid net net' where
  qubits := ⟨[], by rw [hq, List.append_nil], fun _ h => absurd h List.not_mem_nil⟩
  packets := ⟨[], by rw [hp, List.append_nil], fun _ h => absurd h List.not_mem_nil⟩
  corrected := hc

theorem Relays.adds {useIpv6 : Bool} {node : NodeId} {x x' : SessionState}
    {net net' : Net W} (h : Relays useIpv6 node x x' net net') {qs : List Flight}
    (hq : net'.qubits = net.qubits ++ qs)
    (hqs : ∀ f ∈ qs, ∃ side, f.label = .swapIn side x.cfg.sid) :
    Adds x.cfg.sid net net' where
  qubits := ⟨qs, hq, hqs⟩
  packets := by
    rcases h.packets with ⟨-, hp⟩ | ⟨-, -, m1, m2, hp⟩
    · exact ⟨[], by rw [hp, List.append_nil], fun _ h => absurd h List.not_mem_nil⟩
    · exact ⟨_, hp, fun pkt hpkt => by rw [List.mem_singleton.mp hpkt]⟩
  corrected := fun _ _ _ => by rw [h.corrected]

theorem Same.trans {sid : SessionId} {st₁ st₂ st₃ : State W} (h : Same sid st₁ st₂)
    (h' : Same sid st₂ st₃) : Same sid st₁ st₃ where
  session := fun name => (h'.session name).trans (h.session name)
  started := fun name => (h'.started name).trans (h.started name)
  qubits := fun f side hf => (h'.qubits f side hf).trans (h.qubits f side hf)
  packets := fun pkt hp => (h'.packets pkt hp).trans (h.packets pkt hp)
  senders := h'.senders.trans h.senders
  heard := h'.heard.trans h.heard
  corrected := fun node => (h'.corrected node).trans (h.corrected node)

/-- Another session is not touched by what a handler adds. -/
theorem same_of_adds {sid sid' : SessionId} {name : String} {x' : SessionState}
    (hne : sid' ≠ sid)
    (hsession : ∀ name' sid', st'.session name' sid' =
      if name' = name ∧ sid' = sid then some x' else st.session name' sid')
    (hstarted : st'.started = st.started) (hheard : st'.heard = st.heard)
    (h : Adds sid st.net st'.net) : Same sid' st st' := by
  obtain ⟨qs, hq, hqs⟩ := h.qubits
  obtain ⟨ps, hp, hps⟩ := h.packets
  have hpne : ∀ pkt ∈ ps, pkt.sid ≠ sid' := fun pkt hpkt heq =>
    hne (heq.symm.trans (hps pkt hpkt))
  have hfilter : ps.filter (fun pkt => pkt.sid = sid') = [] :=
    List.filter_eq_nil_iff.mpr fun pkt hpkt he => hpne pkt hpkt (of_decide_eq_true he)
  have hheard' : st'.heardOf sid' = st.heardOf sid' := by
    rw [State.heardOf, State.heardOf, hheard]
  refine { session := fun name' => ?_, started := fun _ => by rw [hstarted]
           qubits := fun f side hf => ?_, packets := fun pkt hpkt => ?_
           senders := ?_, heard := hheard'
           corrected := fun node => h.corrected node sid' hne }
  · rw [hsession, if_neg fun hh => hne hh.2]
  · rw [hq, List.mem_append]
    refine or_iff_left fun hmem => hne ?_
    obtain ⟨side', hlabel⟩ := hqs f hmem
    exact (Label.swapIn.inj (hf.symm.trans hlabel)).2
  · rw [hp, List.mem_append]
    exact or_iff_left fun hmem => hpne pkt hmem hpkt
  · rw [State.sendersOf, State.sendersOf, hheard', hp, List.filter_append, hfilter,
      List.append_nil]

/-! ## Events -/

section Events

variable {sink : String}

/-- A session changes at one node of its path. -/
theorem SessionInv.held_update (h : SessionInv w s sink st) {name : String}
    {x x' : SessionState} (hx : st.session name s.sessionId = some x)
    (hcfg : x'.cfg = x.cfg)
    (hsession : ∀ name', st'.session name' s.sessionId =
      if name' = name then some x' else st.session name' s.sessionId) :
    (∀ i name', s.path[i]? = some name' →
      ∃ y, st'.session name' s.sessionId = some y ∧ ConfigAt w s i y.cfg) ∧
    ∀ name', (st'.session name' s.sessionId).isSome → name' ∈ s.path := by
  refine ⟨fun i name' hi => ?_, fun name' hname => ?_⟩
  · obtain ⟨y, hy, hconfig⟩ := h.held i name' hi
    rw [hsession]
    split_ifs with heq
    · subst heq
      obtain rfl := Option.some.inj (hy.symm.trans hx)
      exact ⟨x', rfl, by rwa [hcfg]⟩
    · exact ⟨y, hy, hconfig⟩
  · rw [hsession] at hname
    split_ifs at hname with heq
    · subst heq
      exact h.only name' (by rw [hx]; rfl)
    · exact h.only name' hname

/-- The node at a position of the path starts: the next hop is under way. -/
theorem SessionInv.hop_start (h : SessionInv w s sink st) (hnodup : s.path.Nodup)
    {i : ℕ} {name next : String} {q : QubitPtr} {x x' : SessionState}
    (hi : s.path[i]? = some name) (hnext : s.path[i + 1]? = some next)
    (hx : st.session name s.sessionId = some x)
    (hsession : ∀ name', st'.session name' s.sessionId =
      if name' = name then some x' else st.session name' s.sessionId)
    (hprev : x.qPrev.isSome → x'.qPrev.isSome)
    (hstarted : st'.started = (name, s.sessionId) :: st.started)
    (hq : st'.net.qubits =
      st.net.qubits ++ [⟨.swapIn .prev s.sessionId, q, w.nodeId next⟩]) :
    (∀ f ∈ st'.net.qubits, ∀ side, f.label = .swapIn side s.sessionId →
      side = .prev ∧ ∃ i name, s.path[i + 1]? = some name ∧ f.dst = w.nodeId name) ∧
    ∀ j a c y, s.path[j]? = some a → s.path[j + 1]? = some c →
      (a, s.sessionId) ∈ st'.started → st'.session c s.sessionId = some y →
      y.qPrev.isSome ∨ ∃ f ∈ st'.net.qubits,
        f.label = .swapIn .prev s.sessionId ∧ f.dst = w.nodeId c := by
  rw [hstarted, hq]
  refine ⟨fun f hf side hlabel => ?_, fun j a c y ha hc hmem hy => ?_⟩
  · rcases List.mem_append.mp hf with hf | hf
    · exact h.flights f hf side hlabel
    · obtain rfl := List.mem_singleton.mp hf
      exact ⟨(Label.swapIn.inj hlabel).1.symm, i, next, hnext, rfl⟩
  · rcases List.mem_cons.mp hmem with heq | hmem
    · obtain rfl := (Prod.mk.inj heq).1
      obtain rfl : j = i := position_unique hnodup ha hi
      obtain rfl := Option.some.inj (hc.symm.trans hnext)
      exact .inr ⟨_, List.mem_append_right _ (List.mem_singleton_self _), rfl, rfl⟩
    · have hold : ∀ y, st.session c s.sessionId = some y → y.qPrev.isSome ∨
          ∃ f ∈ st.net.qubits ++ [⟨.swapIn .prev s.sessionId, q, w.nodeId next⟩],
            f.label = .swapIn .prev s.sessionId ∧ f.dst = w.nodeId c := by
        intro y hy
        refine (h.hop j a c y ha hc hmem hy).imp id ?_
        rintro ⟨f, hf, hspec⟩
        exact ⟨f, List.mem_append_left _ hf, hspec⟩
      rw [hsession] at hy
      split_ifs at hy with heq
      · subst heq
        obtain rfl := Option.some.inj hy
        exact (hold x hx).imp hprev id
      · exact hold y hy

/-- A qubit arrives at a node of the path: its hop is done. -/
theorem SessionInv.hop_arrive (h : SessionInv w s sink st) {nodes : List String}
    (hnodes : ∀ name ∈ s.path, name ∈ nodes)
    (hinj : ∀ a ∈ nodes, ∀ b ∈ nodes, w.nodeId a = w.nodeId b → a = b)
    {k : ℕ} {name : String} {flight : Flight} {x' : SessionState}
    (hk : st.net.qubits[k]? = some flight) (hdst : flight.dst = w.nodeId name)
    (hname : name ∈ s.path)
    (hsession : ∀ name', st'.session name' s.sessionId =
      if name' = name then some x' else st.session name' s.sessionId)
    (hprev : x'.qPrev.isSome) (hstarted : st'.started = st.started)
    (hq : st'.net.qubits = st.net.qubits.eraseIdx k) :
    (∀ f ∈ st'.net.qubits, ∀ side, f.label = .swapIn side s.sessionId →
      side = .prev ∧ ∃ i name, s.path[i + 1]? = some name ∧ f.dst = w.nodeId name) ∧
    ∀ j a c y, s.path[j]? = some a → s.path[j + 1]? = some c →
      (a, s.sessionId) ∈ st'.started → st'.session c s.sessionId = some y →
      y.qPrev.isSome ∨ ∃ f ∈ st'.net.qubits,
        f.label = .swapIn .prev s.sessionId ∧ f.dst = w.nodeId c := by
  rw [hstarted, hq]
  refine ⟨fun f hf => h.flights f (List.mem_of_mem_eraseIdx hf),
    fun j a c y ha hc hmem hy => ?_⟩
  rw [hsession] at hy
  split_ifs at hy with heq
  · obtain rfl := Option.some.inj hy
    exact .inl hprev
  · refine (h.hop j a c y ha hc hmem hy).imp id ?_
    rintro ⟨f, hf, hlabel, hfdst⟩
    refine ⟨f, (mem_eraseIdx_of_ne hk ?_).mpr hf, hlabel, hfdst⟩
    rintro rfl
    exact heq (hinj c (hnodes c (List.mem_of_getElem? hc)) name (hnodes name hname)
      (hfdst.symm.trans hdst))

/-- The sink is the last node of the path. -/
theorem sink_position (hsink : s.path.getLast? = some sink) :
    s.path[s.path.length - 1]? = some sink := by
  rw [← List.getLast?_eq_getElem?, hsink]

theorem sink_ne (hnodup : s.path.Nodup) (hsink : s.path.getLast? = some sink) {i : ℕ}
    {name : String} (hi : s.path[i]? = some name) (hlt : i + 1 < s.path.length) :
    sink ≠ name := by
  rintro rfl
  have := position_unique hnodup hi (sink_position hsink)
  omega

/-- A repeater starts or gets its qubit; the hops are given. -/
theorem SessionInv.relay (h : SessionInv w s sink st) (hnodup : s.path.Nodup)
    (hinj : ∀ a ∈ s.path, ∀ b ∈ s.path, w.nodeId a = w.nodeId b → a = b)
    (hsink : s.path.getLast? = some sink) {i : ℕ} {name : String}
    {x x' : SessionState} {net : Net W} (hpos : 0 < i) (hlt : i + 1 < s.path.length)
    (hi : s.path[i]? = some name) (hx : st.session name s.sessionId = some x)
    (hsession : ∀ name', st'.session name' s.sessionId =
      if name' = name then some x' else st.session name' s.sessionId)
    (hpackets : net.packets = st.net.packets)
    (hcorrected : net.corrected = st.net.corrected)
    (hrelays : Relays w.useIpv6 (w.nodeId name) x x' net st'.net)
    (hheard : st'.heard = st.heard)
    (hstarted : ∀ a, (a, s.sessionId) ∈ st'.started →
      a = name ∨ (a, s.sessionId) ∈ st.started)
    (hnext : (name, s.sessionId) ∈ st'.started → x'.qNext.isSome)
    (hflights : ∀ f ∈ st'.net.qubits, ∀ side, f.label = .swapIn side s.sessionId →
      side = .prev ∧ ∃ i name, s.path[i + 1]? = some name ∧ f.dst = w.nodeId name)
    (hhop : ∀ j a c y, s.path[j]? = some a → s.path[j + 1]? = some c →
      (a, s.sessionId) ∈ st'.started → st'.session c s.sessionId = some y →
      y.qPrev.isSome ∨ ∃ f ∈ st'.net.qubits,
        f.label = .swapIn .prev s.sessionId ∧ f.dst = w.nodeId c) :
    SessionInv w s sink st' := by
  obtain ⟨hheld, honly⟩ := h.held_update hx hrelays.cfg hsession
  obtain ⟨x₀, hx₀, hconfig⟩ := h.held i name hi
  obtain rfl := Option.some.inj (hx₀.symm.trans hx)
  have hheardOf : st'.heardOf s.sessionId = st.heardOf s.sessionId := by
    rw [State.heardOf, State.heardOf, hheard]
  obtain ⟨-, -, hold⟩ := h.repeater i name x₀ hpos hlt hi hx
  have hname := List.mem_of_getElem? hi
  have hone : ∀ pkt : CtrlPacket, pkt.sid = s.sessionId →
      [pkt].filter (fun pkt => pkt.sid = s.sessionId) = [pkt] := fun pkt hsid =>
    List.filter_eq_self.mpr fun pkt' hmem => by
      rw [List.mem_singleton.mp hmem]
      exact decide_eq_true hsid
  -- the senders are as before, or the repeater is a new one
  have hsenders : x'.haveBSM = x₀.haveBSM ∧
      st'.sendersOf s.sessionId = st.sendersOf s.sessionId ∨
      x₀.haveBSM = false ∧ x'.haveBSM = true ∧
        (st'.sendersOf s.sessionId).Perm (w.nodeId name :: st.sendersOf s.sessionId) := by
    rcases hrelays.packets with ⟨hbsm, hp⟩ | ⟨hfalse, htrue, m1, m2, hp⟩
    · refine .inl ⟨hbsm, ?_⟩
      rw [State.sendersOf, State.sendersOf, hheardOf, hp, hpackets]
    · refine .inr ⟨hfalse, htrue, ?_⟩
      rw [State.sendersOf, State.sendersOf, hheardOf, hp, hpackets, List.filter_append,
        hone _ hconfig.sid, List.map_append, List.append_assoc]
      exact List.perm_middle
  refine { held := hheld, only := honly, flights := hflights, hop := hhop
           repeater := fun j a y hj hjlt ha hy => ?_, nodup := ?_
           senders := fun n hn => ?_, packets := fun pkt hpkt hsid => ?_
           sink := fun y hy => ?_ }
  · rw [hsession] at hy
    split_ifs at hy with heq
    · subst heq
      obtain rfl := Option.some.inj hy
      refine ⟨hnext, hrelays.measured, ?_⟩
      rcases hsenders with ⟨hbsm, hs⟩ | ⟨-, htrue, hs⟩
      · rw [hbsm, hs]
        exact hold
      · rw [hs.mem_iff]
        exact ⟨fun _ => List.mem_cons_self, fun _ => htrue⟩
    · obtain ⟨hnext', hmeasured, hmem⟩ := h.repeater j a y hj hjlt ha hy
      refine ⟨fun hs => hnext' ((hstarted a hs).resolve_left heq), hmeasured, ?_⟩
      rw [hmem]
      rcases hsenders with ⟨-, hs⟩ | ⟨-, -, hs⟩
      · rw [hs]
      · rw [hs.mem_iff, List.mem_cons]
        refine (or_iff_right fun hid => heq ?_).symm
        exact hinj a (List.mem_of_getElem? ha) name hname hid
  · rcases hsenders with ⟨-, hs⟩ | ⟨hfalse, -, hs⟩
    · rw [hs]
      exact h.nodup
    · rw [hs.nodup_iff, List.nodup_cons]
      refine ⟨fun hmem => ?_, h.nodup⟩
      exact Bool.false_ne_true (hfalse.symm.trans (hold.mpr hmem))
  · rcases hsenders with ⟨-, hs⟩ | ⟨-, -, hs⟩
    · rw [hs] at hn
      exact h.senders n hn
    · rcases List.mem_cons.mp (hs.mem_iff.mp hn) with rfl | hn
      · exact ⟨i, name, hpos, hlt, hi, rfl⟩
      · exact h.senders n hn
  · rcases hrelays.packets with ⟨-, hp⟩ | ⟨-, -, m1, m2, hp⟩
    · rw [hp, hpackets] at hpkt
      exact h.packets pkt hpkt hsid
    · rw [hp, hpackets] at hpkt
      rcases List.mem_append.mp hpkt with hpkt | hpkt
      · exact h.packets pkt hpkt hsid
      · rw [List.mem_singleton.mp hpkt]
        exact hconfig.nextEnd (Nat.pos_iff_ne_zero.mp hpos) hlt sink hsink
  · rw [hsession, if_neg (sink_ne hnodup hsink hi hlt)] at hy
    rw [hheardOf, hrelays.corrected, hcorrected]
    exact h.sink y hy

/-- The sink handles something; the senders are the same people as before. -/
theorem SessionInv.atSink (h : SessionInv w s sink st) (hnodup : s.path.Nodup)
    (hsink : s.path.getLast? = some sink) {x x' : SessionState} {net : Net W}
    (hx : st.session sink s.sessionId = some x)
    (hsession : ∀ name', st'.session name' s.sessionId =
      if name' = sink then some x' else st.session name' s.sessionId)
    (hat : AtSink (s.path.length - 2) (st'.heardOf s.sessionId).length (w.nodeId sink)
      x x' net st'.net)
    (hsenders : (st'.sendersOf s.sessionId).Perm (st.sendersOf s.sessionId))
    (hpackets : ∀ pkt ∈ net.packets, pkt.sid = s.sessionId → pkt ∈ st.net.packets)
    (hstarted : st'.started = st.started)
    (hflights : ∀ f ∈ st'.net.qubits, ∀ side, f.label = .swapIn side s.sessionId →
      side = .prev ∧ ∃ i name, s.path[i + 1]? = some name ∧ f.dst = w.nodeId name)
    (hhop : ∀ j a c y, s.path[j]? = some a → s.path[j + 1]? = some c →
      (a, s.sessionId) ∈ st'.started → st'.session c s.sessionId = some y →
      y.qPrev.isSome ∨ ∃ f ∈ st'.net.qubits,
        f.label = .swapIn .prev s.sessionId ∧ f.dst = w.nodeId c) :
    SessionInv w s sink st' := by
  obtain ⟨hheld, honly⟩ := h.held_update hx hat.cfg hsession
  obtain ⟨x₀, hx₀, hconfig⟩ := h.held _ sink (sink_position hsink)
  obtain rfl := Option.some.inj (hx₀.symm.trans hx)
  refine { held := hheld, only := honly, flights := hflights, hop := hhop
           repeater := fun j a y hj hjlt ha hy => ?_
           nodup := hsenders.nodup_iff.mpr h.nodup
           senders := fun n hn => h.senders n (hsenders.mem_iff.mp hn)
           packets := fun pkt hpkt hsid => ?_, sink := fun y hy => ?_ }
  · rw [hsession, if_neg (sink_ne hnodup hsink ha hjlt).symm] at hy
    rw [hstarted, hsenders.mem_iff]
    exact h.repeater j a y hj hjlt ha hy
  · rw [hat.packets] at hpkt
    exact h.packets pkt (hpackets pkt hpkt hsid) hsid
  · rw [hsession, if_pos rfl] at hy
    obtain rfl := Option.some.inj hy
    have hinv := hat.inv
    rwa [hconfig.sid] at hinv

/-- The source or the sink does something that sends and corrects nothing. -/
theorem SessionInv.quiet (h : SessionInv w s sink st) {name : String}
    {x x' : SessionState} (hx : st.session name s.sessionId = some x)
    (hcfg : x'.cfg = x.cfg)
    (hsession : ∀ name', st'.session name' s.sessionId =
      if name' = name then some x' else st.session name' s.sessionId)
    (hends : ∀ j, 0 < j → j + 1 < s.path.length → s.path[j]? ≠ some name)
    (hsame : name = sink → x' = x)
    (hpackets : st'.net.packets = st.net.packets)
    (hcorrected : st'.net.corrected = st.net.corrected) (hheard : st'.heard = st.heard)
    (hstarted : ∀ a, (a, s.sessionId) ∈ st'.started →
      a = name ∨ (a, s.sessionId) ∈ st.started)
    (hflights : ∀ f ∈ st'.net.qubits, ∀ side, f.label = .swapIn side s.sessionId →
      side = .prev ∧ ∃ i name, s.path[i + 1]? = some name ∧ f.dst = w.nodeId name)
    (hhop : ∀ j a c y, s.path[j]? = some a → s.path[j + 1]? = some c →
      (a, s.sessionId) ∈ st'.started → st'.session c s.sessionId = some y →
      y.qPrev.isSome ∨ ∃ f ∈ st'.net.qubits,
        f.label = .swapIn .prev s.sessionId ∧ f.dst = w.nodeId c) :
    SessionInv w s sink st' := by
  obtain ⟨hheld, honly⟩ := h.held_update hx hcfg hsession
  have hheardOf : st'.heardOf s.sessionId = st.heardOf s.sessionId := by
    rw [State.heardOf, State.heardOf, hheard]
  have hsenders : st'.sendersOf s.sessionId = st.sendersOf s.sessionId := by
    rw [State.sendersOf, State.sendersOf, hheardOf, hpackets]
  refine { held := hheld, only := honly, flights := hflights, hop := hhop
           repeater := fun j a y hj hjlt ha hy => ?_, nodup := hsenders ▸ h.nodup
           senders := hsenders ▸ h.senders, packets := hpackets ▸ h.packets
           sink := fun y hy => ?_ }
  · have hne : a ≠ name := fun heq => hends j hj hjlt (heq ▸ ha)
    rw [hsession, if_neg hne] at hy
    obtain ⟨hnext, hrest⟩ := h.repeater j a y hj hjlt ha hy
    rw [hsenders]
    exact ⟨fun hs => hnext ((hstarted a hs).resolve_left hne), hrest⟩
  · rw [hheardOf, hcorrected]
    rw [hsession] at hy
    split_ifs at hy with heq
    · obtain rfl := Option.some.inj hy
      rw [hsame heq.symm]
      rw [← heq] at hx
      exact h.sink x hx
    · exact h.sink y hy

/-- A start event at a node of the path. -/
theorem SessionInv.start {api : QNode W} (h : SessionInv w s sink st)
    (hlen : 2 ≤ s.path.length) (hnodup : s.path.Nodup)
    (hinj : ∀ a ∈ s.path, ∀ b ∈ s.path, w.nodeId a = w.nodeId b → a = b)
    (hsink : s.path.getLast? = some sink) (haddr : ¬ (addressOf w sink).IsAny)
    {name : String} {draws : Bool × Bool} {x x' : SessionState}
    (hx : st.session name s.sessionId = some x)
    (hrun : startSession api w.useIpv6 (w.nodeId name) draws x st.net = some (x', st'.net))
    (hstarted : st'.started = (name, s.sessionId) :: st.started)
    (hheard : st'.heard = st.heard)
    (hsession : ∀ name', st'.session name' s.sessionId =
      if name' = name then some x' else st.session name' s.sessionId) :
    SessionInv w s sink st' ∧ Adds s.sessionId st.net st'.net := by
  have hname := h.only name (by rw [hx]; rfl)
  obtain ⟨i, hi⟩ := List.mem_iff_getElem?.mp hname
  obtain ⟨x₀, hx₀, hconfig⟩ := h.held i name hi
  obtain rfl := Option.some.inj (hx₀.symm.trans hx)
  have hilt := (List.getElem?_eq_some_iff.mp hi).1
  have hstarted' : ∀ a, (a, s.sessionId) ∈ st'.started →
      a = name ∨ (a, s.sessionId) ∈ st.started := by
    intro a ha
    rw [hstarted] at ha
    exact (List.mem_cons.mp ha).imp (fun he => (Prod.mk.inj he).1) id
  by_cases hlast : i + 1 = s.path.length
  · -- the sink
    have hrole : x₀.cfg.role = .next := by
      rw [hconfig.role, if_neg (by omega), if_pos hlast]
    obtain ⟨rfl, hnet⟩ := start_sink hrole hrun
    obtain rfl : i = s.path.length - 1 := by omega
    obtain rfl := Option.some.inj ((sink_position hsink).symm.trans hi)
    refine ⟨h.quiet hx rfl hsession (fun j hj hjlt ha => ?_) (fun _ => rfl) (by rw [hnet])
      (by rw [hnet]) hheard hstarted' ?_ fun j a c y ha hc hs hy => ?_,
      .of_eq (by rw [hnet]) (by rw [hnet]) fun _ _ _ => by rw [hnet]⟩
    · have := position_unique hnodup ha hi
      omega
    · rw [hnet]
      exact h.flights
    · have hj := (List.getElem?_eq_some_iff.mp hc).1
      rw [hnet]
      refine h.hop j a c y ha hc ((hstarted' a hs).resolve_left ?_) ?_
      · exact (sink_ne hnodup hsink ha hj).symm
      · rw [hsession] at hy
        split_ifs at hy with heq
        · rwa [heq, hx]
        · exact hy
  · have hlt : i + 1 < s.path.length := by omega
    obtain ⟨next, hnext⟩ : ∃ next, s.path[i + 1]? = some next :=
      ⟨_, List.getElem?_eq_getElem hlt⟩
    have hpeer := hconfig.nextPeerId next hnext
    have hgen := hconfig.genNext hlt
    by_cases hzero : i = 0
    · -- the source
      have hrole : x₀.cfg.role = .prev := by rw [hconfig.role, if_pos hzero]
      obtain ⟨hcfg, hprev, hp, hc, q, hq⟩ := start_source hrole hgen hrun
      rw [hconfig.sid, hpeer] at hq
      obtain ⟨hflights, hhop⟩ := h.hop_start hnodup hi hnext hx hsession
        (fun hs => by rwa [hprev]) hstarted hq
      refine ⟨h.quiet hx hcfg hsession (fun j hj hjlt ha => ?_) (fun heq => ?_) hp hc hheard
        hstarted' hflights hhop, ?_⟩
      · have := position_unique hnodup ha hi
        omega
      · exact absurd heq.symm (sink_ne hnodup hsink hi hlt)
      · exact ⟨⟨_, hq, fun f hf => ⟨.prev, by rw [List.mem_singleton.mp hf]⟩⟩,
          ⟨[], by rw [hp, List.append_nil], fun _ h => absurd h List.not_mem_nil⟩,
          fun _ _ _ => by rw [hc]⟩
    · have hrole : x₀.cfg.role = .repeater := by
        rw [hconfig.role, if_neg hzero, if_neg hlast]
      have hdst : ¬ (x₀.cfg.nextEnd w.useIpv6).IsAny := by
        rw [hconfig.nextEnd hzero hlt sink hsink]
        exact haddr
      obtain ⟨hrelays, hsome, q, hq⟩ :=
        start_repeater hrole hconfig.genPrev hgen hdst hrun
      rw [hconfig.sid, hpeer] at hq
      obtain ⟨hflights, hhop⟩ := h.hop_start hnodup hi hnext hx hsession hrelays.qPrev
        hstarted hq
      refine ⟨h.relay hnodup hinj hsink (Nat.pos_of_ne_zero hzero) hlt hi hx hsession rfl rfl
        hrelays hheard hstarted' (fun _ => hsome) hflights hhop, ?_⟩
      have hadds := hrelays.adds hq fun f hf =>
        ⟨.prev, by rw [List.mem_singleton.mp hf, hconfig.sid]⟩
      rwa [hconfig.sid] at hadds

/-- A qubit of the session arrives at a node. -/
theorem SessionInv.arrive {api : QNode W} (h : SessionInv w s sink st)
    (hnodup : s.path.Nodup) {nodes : List String}
    (hnodes : ∀ name ∈ s.path, name ∈ nodes)
    (hinj : ∀ a ∈ nodes, ∀ b ∈ nodes, w.nodeId a = w.nodeId b → a = b)
    (hsink : s.path.getLast? = some sink) (haddr : ¬ (addressOf w sink).IsAny)
    {k : ℕ} {name : String} {flight : Flight} {world : W} {side : Side}
    {draws : Bool × Bool} {x x' : SessionState}
    (hk : st.net.qubits[k]? = some flight) (hdst : w.nodeId name = flight.dst)
    (hlabel : flight.label = .swapIn side s.sessionId)
    (hx : st.session name s.sessionId = some x) {net : Net W}
    (hnet : net = { st.net with world := world, qubits := st.net.qubits.eraseIdx k })
    (hrun : Swap.arrive api w.useIpv6 (w.nodeId name) side flight.q draws x net =
      some (x', st'.net))
    (hstarted : st'.started = st.started) (hheard : st'.heard = st.heard)
    (hsession : ∀ name', st'.session name' s.sessionId =
      if name' = name then some x' else st.session name' s.sessionId) :
    SessionInv w s sink st' ∧ Adds s.sessionId net st'.net := by
  have hqubits : net.qubits = st.net.qubits.eraseIdx k := by rw [hnet]
  have hpackets : net.packets = st.net.packets := by rw [hnet]
  have hcorrected : net.corrected = st.net.corrected := by rw [hnet]
  have hname := h.only name (by rw [hx]; rfl)
  obtain ⟨rfl, i, name', hi, hdst'⟩ := h.flights flight (List.mem_of_getElem? hk) side hlabel
  obtain rfl := hinj name (hnodes name hname) name' (hnodes _ (List.mem_of_getElem? hi))
    (hdst.trans hdst')
  obtain ⟨x₀, hx₀, hconfig⟩ := h.held (i + 1) name hi
  obtain rfl := Option.some.inj (hx₀.symm.trans hx)
  have hilt := (List.getElem?_eq_some_iff.mp hi).1
  have hinj' : ∀ a ∈ s.path, ∀ b ∈ s.path, w.nodeId a = w.nodeId b → a = b :=
    fun a ha b hb => hinj a (hnodes a ha) b (hnodes b hb)
  by_cases hlast : i + 1 + 1 = s.path.length
  · -- the sink
    obtain rfl : sink = name := by
      refine Option.some.inj ((sink_position hsink).symm.trans ?_)
      rw [← hi, ← hlast]
      rfl
    have hrole : x₀.cfg.role = .next := by
      rw [hconfig.role, if_neg (Nat.succ_ne_zero i), if_pos hlast]
    have hinv : SinkInv (s.path.length - 2) (st.heardOf s.sessionId).length
        (net.corrected.count (w.nodeId sink, x₀.cfg.sid)) x₀ := by
      rw [hconfig.sid, hcorrected]
      exact h.sink x₀ hx
    obtain ⟨hat, hsome⟩ := arrive_sink hrole (hconfig.corrects.mpr hlast) hinv hrun
    obtain ⟨hflights, hhop⟩ := h.hop_arrive hnodes hinj hk hdst.symm hname hsession hsome
      hstarted (hat.qubits.trans hqubits)
    have hheardOf : st'.heardOf s.sessionId = st.heardOf s.sessionId := by
      rw [State.heardOf, State.heardOf, hheard]
    have hsenders : st'.sendersOf s.sessionId = st.sendersOf s.sessionId := by
      rw [State.sendersOf, State.sendersOf, hheardOf, hat.packets, hpackets]
    rw [← hheardOf] at hat
    refine ⟨h.atSink hnodup hsink hx hsession hat (hsenders ▸ .refl _)
      (fun _ hp _ => hpackets ▸ hp) hstarted hflights hhop, ?_⟩
    refine .of_eq hat.qubits hat.packets fun node sid' hne => hat.others _ fun heq => hne ?_
    rw [(Prod.mk.inj heq).2, hconfig.sid]
  · have hlt : i + 1 + 1 < s.path.length := by omega
    have hrole : x₀.cfg.role = .repeater := by
      rw [hconfig.role, if_neg (Nat.succ_ne_zero i), if_neg hlast]
    have hdst' : ¬ (x₀.cfg.nextEnd w.useIpv6).IsAny := by
      rw [hconfig.nextEnd (Nat.succ_ne_zero i) hlt sink hsink]
      exact haddr
    obtain ⟨hrelays, hsome, hq⟩ := arrive_repeater hrole hdst' hrun
    obtain ⟨hflights, hhop⟩ := h.hop_arrive hnodes hinj hk hdst.symm hname hsession hsome
      hstarted (hq.trans hqubits)
    obtain ⟨hnext, -, -⟩ := h.repeater (i + 1) name x₀ (Nat.succ_pos i) hlt hi hx
    refine ⟨h.relay hnodup hinj' hsink (Nat.succ_pos i) hlt hi hx hsession hpackets
      hcorrected hrelays hheard (fun a ha => .inr (hstarted ▸ ha)) (fun hs => ?_) hflights
      hhop, ?_⟩
    · rw [hstarted] at hs
      exact hrelays.qNext (hnext hs)
    · have hnone : net.qubits ++ [] = net.qubits := List.append_nil _
      have hadds := hrelays.adds (hq.trans hnone.symm) fun _ hf =>
        absurd hf List.not_mem_nil
      rwa [hconfig.sid] at hadds

/-- The ids of the repeaters of a path. -/
def repeaterIds (w : Setup T) (s : SwapSessionSpec T) : List NodeId :=
  s.path.tail.dropLast.map w.nodeId

theorem length_repeaterIds (w : Setup T) (s : SwapSessionSpec T) :
    (repeaterIds w s).length = s.path.length - 2 := by
  rw [repeaterIds, List.length_map, List.length_dropLast, List.length_tail]
  rfl

theorem mem_repeaterIds {i : ℕ} {name : String} (hpos : 0 < i)
    (hlt : i + 1 < s.path.length) (hi : s.path[i]? = some name) :
    w.nodeId name ∈ repeaterIds w s := by
  refine List.mem_map_of_mem (List.mem_iff_getElem?.mpr ⟨i - 1, ?_⟩)
  rw [List.getElem?_dropLast, List.length_tail, if_pos (by omega), List.getElem?_tail,
    Nat.sub_add_cancel hpos, hi]

/-- All senders are repeaters. -/
theorem SessionInv.senders_subset (h : SessionInv w s sink st) :
    st.sendersOf s.sessionId ⊆ repeaterIds w s := by
  intro n hn
  obtain ⟨i, a, hpos, hlt, hi, rfl⟩ := h.senders n hn
  exact mem_repeaterIds hpos hlt hi

theorem SessionInv.length_senders_le (h : SessionInv w s sink st) :
    (st.sendersOf s.sessionId).length ≤ s.path.length - 2 := by
  rw [← length_repeaterIds w s]
  exact (h.nodup.subperm h.senders_subset).length_le

/-- There are fewer nodes than ids. -/
theorem length_path_le (hnodup : s.path.Nodup)
    (hinj : ∀ a ∈ s.path, ∀ b ∈ s.path, w.nodeId a = w.nodeId b → a = b)
    (hlt : ∀ a ∈ s.path, w.nodeId a < 2 ^ 32) : s.path.length ≤ 2 ^ 32 := by
  have hmap : (s.path.map w.nodeId).Nodup := hnodup.map_on hinj
  have hsub : s.path.map w.nodeId ⊆ List.range (2 ^ 32) := by
    intro n hn
    obtain ⟨a, ha, rfl⟩ := List.mem_map.mp hn
    exact List.mem_range.mpr (hlt a ha)
  have hle := (hmap.subperm hsub).length_le
  rwa [List.length_map, List.length_range] at hle

/-- A packet in flight becomes one that has been heard. -/
theorem senders_hear {k : ℕ} {pkt : CtrlPacket} (hk : st.net.packets[k]? = some pkt)
    (hpackets : st'.net.packets = st.net.packets.eraseIdx k)
    (hheard : st'.heard = st.heard ++ [(pkt.sid, pkt.sender)]) (sid : SessionId) :
    (st'.sendersOf sid).Perm (st.sendersOf sid) ∧
      st'.heardOf sid = st.heardOf sid ++ if pkt.sid = sid then [pkt.sender] else [] := by
  have hperm := ((cons_eraseIdx_perm hk).filter fun pkt => pkt.sid = sid).map
    CtrlPacket.sender
  have hheardOf : st'.heardOf sid =
      st.heardOf sid ++ if pkt.sid = sid then [pkt.sender] else [] := by
    rw [State.heardOf, State.heardOf, hheard, List.filter_append, List.map_append]
    congr 1
    split_ifs with hsid
    · rw [List.filter_cons_of_pos]
      · rfl
      · exact decide_eq_true hsid
    · rw [List.filter_cons_of_neg]
      · rfl
      · exact fun he => hsid (of_decide_eq_true he)
  refine ⟨?_, hheardOf⟩
  rw [State.sendersOf, State.sendersOf, hheardOf, hpackets]
  refine List.Perm.trans ?_ (hperm.append_right _)
  split_ifs with hsid
  · rw [List.filter_cons_of_pos, List.map_cons, ← List.append_assoc]
    · exact List.perm_append_singleton _ _
    · exact decide_eq_true hsid
  · rw [List.filter_cons_of_neg, List.append_nil]
    exact fun he => hsid (of_decide_eq_true he)

/-- A control packet of the session arrives at its sink. -/
theorem SessionInv.hear {api : QNode W} (h : SessionInv w s sink st)
    (hlen : 2 ≤ s.path.length) (hnodup : s.path.Nodup)
    (hinj : ∀ a ∈ s.path, ∀ b ∈ s.path, w.nodeId a = w.nodeId b → a = b)
    (hidlt : ∀ a ∈ s.path, w.nodeId a < 2 ^ 32)
    (hsink : s.path.getLast? = some sink) {k : ℕ} {pkt : CtrlPacket}
    {x x' : SessionState} (hk : st.net.packets[k]? = some pkt)
    (hsid : pkt.sid = s.sessionId) (hx : st.session sink s.sessionId = some x)
    {net : Net W} (hnet : net = { st.net with packets := st.net.packets.eraseIdx k })
    (hrun : onCtrlRx api (w.nodeId sink) pkt.m1 pkt.m2 x net = some (x', st'.net))
    (hstarted : st'.started = st.started)
    (hheard : st'.heard = st.heard ++ [(pkt.sid, pkt.sender)])
    (hsession : ∀ name', st'.session name' s.sessionId =
      if name' = sink then some x' else st.session name' s.sessionId) :
    SessionInv w s sink st' ∧ Adds s.sessionId net st'.net := by
  have hqubits : net.qubits = st.net.qubits := by rw [hnet]
  have hpackets : net.packets = st.net.packets.eraseIdx k := by rw [hnet]
  have hcorrected : net.corrected = st.net.corrected := by rw [hnet]
  obtain ⟨x₀, hx₀, hconfig⟩ := h.held _ sink (sink_position hsink)
  obtain rfl := Option.some.inj (hx₀.symm.trans hx)
  have hend : s.path.length - 1 + 1 = s.path.length := by omega
  -- this packet has not been heard yet, so that the counter does not overflow
  have hcount : (st.heardOf s.sessionId).length + 1 ≤ s.path.length - 2 := by
    refine le_trans ?_ h.length_senders_le
    rw [State.sendersOf, List.length_append, List.length_map, Nat.add_comm]
    have hmem : pkt ∈ st.net.packets.filter fun pkt => pkt.sid = s.sessionId :=
      List.mem_filter.mpr ⟨List.mem_of_getElem? hk, decide_eq_true hsid⟩
    exact Nat.add_le_add_right (List.length_pos_of_mem hmem) _
  have hlt : (st.heardOf s.sessionId).length + 1 < 2 ^ 32 := by
    have := length_path_le hnodup hinj hidlt
    omega
  have hinv : SinkInv (s.path.length - 2) (st.heardOf s.sessionId).length
      (net.corrected.count (w.nodeId sink, x₀.cfg.sid)) x₀ := by
    rw [hconfig.sid, hcorrected]
    exact h.sink x₀ hx
  have hexpected : x₀.cfg.expectedMsgs = s.path.length - 2 := by
    have := length_path_le hnodup hinj hidlt
    rw [hconfig.expected hend, repeaterCount, Nat.mod_eq_of_lt (by omega)]
  obtain ⟨hat, hprev⟩ := onCtrlRx_sink (hconfig.corrects.mpr hend) hexpected hlt hinv hrun
  obtain ⟨hsenders, hheardOf⟩ := senders_hear hk (hat.packets.trans hpackets) hheard
    s.sessionId
  have hlength : (st'.heardOf s.sessionId).length =
      (st.heardOf s.sessionId).length + 1 := by
    rw [hheardOf, if_pos hsid, List.length_append]
    rfl
  rw [← hlength] at hat
  refine ⟨h.atSink hnodup hsink hx hsession hat hsenders (fun pkt' hp _ => ?_) hstarted ?_
    fun j a c y ha hc hs hy => ?_, ?_⟩
  · rw [hpackets] at hp
    exact List.mem_of_mem_eraseIdx hp
  · rw [hat.qubits, hqubits]
    exact h.flights
  · rw [hstarted] at hs
    rw [hat.qubits, hqubits]
    rw [hsession] at hy
    split_ifs at hy with heq
    · obtain rfl := Option.some.inj hy
      rw [hprev]
      exact h.hop j a c x₀ ha hc hs (heq ▸ hx)
    · exact h.hop j a c y ha hc hs hy
  · refine .of_eq hat.qubits hat.packets fun node sid' hne => hat.others _ fun heq => hne ?_
    rw [(Prod.mk.inj heq).2, hconfig.sid]

end Events

/-! ## Runs -/

/-- What holds of all sessions in every state. -/
structure Inv (w : Setup T) (nodes : List String) (planned : List (SwapSessionSpec T))
    (st : State W) : Prop where
  apps : ∀ name, (st.apps name).isSome → name ∈ nodes
  known : ∀ name sid, (st.session name sid).isSome → ∃ s ∈ planned, s.sessionId = sid
  each : ∀ s ∈ planned, ∀ sink, s.path.getLast? = some sink → SessionInv w s sink st

section Runs

variable {nodes : List String} {planned : List (SwapSessionSpec T)} {apps : Apps}
  {api : QNode W}

theorem Deployed.injOn (hd : Deployed w nodes planned) (hs : s ∈ planned) :
    ∀ a ∈ s.path, ∀ b ∈ s.path, w.nodeId a = w.nodeId b → a = b := fun a ha b hb =>
  hd.nodeIds a (hd.bound s hs a ha) b (hd.bound s hs b hb)

theorem Deployed.exists_sink (hd : Deployed w nodes planned) (hs : s ∈ planned) :
    ∃ sink, s.path.getLast? = some sink := by
  have hne : s.path ≠ [] := by
    intro hnil
    have := hd.long s hs
    rw [hnil] at this
    exact absurd this (by decide)
  exact ⟨_, List.getLast?_eq_some_getLast hne⟩

/-- Before the first event no session has done anything. -/
theorem inv_init (hd : Deployed w nodes planned)
    (hinst : installUnifiedApps w (bindApps nodes) planned = some apps) (world : W) :
    Inv w nodes planned { net := { world := world }, apps := apps } where
  apps := fun name h => mem_nodes_of_installed hd hinst h
  known := fun name sid h => by
    obtain ⟨s, hs, hid, -⟩ := known_of_installed hd hinst h
    exact ⟨s, hs, hid⟩
  each := fun s hs sink hsink => by
    have hfresh : ∀ name x, State.session
        { net := ({ world := world } : Net W), apps := apps } name s.sessionId = some x →
          ∃ cfg, x = { cfg := cfg } := by
      intro name x hx
      have hname := (session_of_installed hd hinst hs).2 (by rw [hx]; rfl)
      obtain ⟨i, hi⟩ := List.mem_iff_getElem?.mp hname
      obtain ⟨cfg, -, hcfg⟩ := (session_of_installed hd hinst hs).1 i hi
      exact ⟨cfg, Option.some.inj (hx.symm.trans hcfg)⟩
    refine { held := fun i name hi => ?_, only := fun name h => ?_
             flights := fun _ h => absurd h List.not_mem_nil
             hop := fun _ _ _ _ _ _ h => absurd h List.not_mem_nil
             repeater := fun i a x _ _ _ hx => ?_, nodup := List.nodup_nil
             senders := fun _ h => absurd h List.not_mem_nil
             packets := fun _ h => absurd h List.not_mem_nil, sink := fun x hx => ?_ }
    · obtain ⟨cfg, hconfig, hcfg⟩ := (session_of_installed hd hinst hs).1 i hi
      exact ⟨_, hcfg, hconfig⟩
    · exact (session_of_installed hd hinst hs).2 h
    · obtain ⟨cfg, rfl⟩ := hfresh a x hx
      exact ⟨fun h => absurd h List.not_mem_nil, fun h => (nomatch h),
        fun h => (nomatch h), fun h => absurd h List.not_mem_nil⟩
    · obtain ⟨cfg, rfl⟩ := hfresh sink x hx
      exact ⟨rfl, fun h => (nomatch h), rfl,
        ⟨fun h => (nomatch h), fun h => absurd h.2 (Nat.lt_irrefl 0)⟩,
        ⟨fun h => (nomatch h), fun h => (nomatch h.1)⟩, rfl⟩

theorem Inv.same (h : Inv w nodes planned st) (happs : st'.apps = st.apps)
    (hsame : ∀ s ∈ planned, Same s.sessionId st st') : Inv w nodes planned st' where
  apps := fun name hname => h.apps name (happs ▸ hname)
  known := fun name sid hsome => h.known name sid (by
    rw [State.session] at hsome ⊢
    rwa [happs] at hsome)
  each := fun s hs sink hsink => (h.each s hs sink hsink).same (hsame s hs)

/-- A handler of a session keeps the invariant when it does so for its own session. -/
theorem Inv.onSession (h : Inv w nodes planned st) (hd : Deployed w nodes planned)
    {st₁ : State W} {name : String}
    {handler : SessionState → Net W → Option (SessionState × Net W)}
    {s : SwapSessionSpec T} (hs : s ∈ planned)
    (hrun : st₁.onSession name s.sessionId handler = some st')
    (happs : st₁.apps = st.apps)
    (hother : ∀ sid, sid ≠ s.sessionId → Same sid st st₁)
    (hsome : (st.session name s.sessionId).isSome)
    (hown : ∀ x x' sink, s.path.getLast? = some sink →
      st.session name s.sessionId = some x → handler x st₁.net = some (x', st'.net) →
      st'.started = st₁.started → st'.heard = st₁.heard →
      (∀ name', st'.session name' s.sessionId =
        if name' = name then some x' else st.session name' s.sessionId) →
      SessionInv w s sink st' ∧ Adds s.sessionId st₁.net st'.net) :
    Inv w nodes planned st' := by
  have hlook : ∀ name sid, st₁.session name sid = st.session name sid := by
    intro name sid
    rw [State.session, State.session, happs]
  rcases onSession_cases hrun with ⟨hnone, -⟩ | ⟨x, x', hx, hhandler, hst, hhe, hsession⟩
  · rw [hlook] at hnone
    rw [hnone] at hsome
    cases hsome
  · rw [hlook] at hx
    have hmine : ∀ name', st'.session name' s.sessionId =
        if name' = name then some x' else st.session name' s.sessionId := by
      intro name'
      rw [hsession, hlook]
      by_cases hname : name' = name
      · rw [if_pos hname, if_pos ⟨hname, rfl⟩]
      · rw [if_neg hname, if_neg fun hh => hname hh.1]
    have hown' := fun sink hsink => hown x x' sink hsink hx hhandler hst hhe hmine
    refine { apps := fun name' hname' => ?_, known := fun name' sid hknown => ?_
             each := fun s' hs' sink hsink => ?_ }
    · have := onSession_apps hrun name' hname'
      rw [happs] at this
      exact h.apps name' this
    · rw [hsession, hlook] at hknown
      split_ifs at hknown with heq
      · exact ⟨s, hs, heq.2.symm⟩
      · exact h.known name' sid hknown
    · by_cases hid : s'.sessionId = s.sessionId
      · obtain rfl := List.inj_on_of_nodup_map hd.ids hs' hs hid
        exact (hown' sink hsink).1
      · obtain ⟨last, hlast⟩ := hd.exists_sink hs
        have hsame := (hother _ hid).trans
          (same_of_adds hid hsession hst hhe (hown' last hlast).2)
        exact (h.each s' hs' sink hsink).same hsame

/-- An event that concerns none of the planned sessions, after which a handler may
run for one. -/
theorem Inv.onSession_or (h : Inv w nodes planned st) {st₁ : State W} {name : String}
    {sid : SessionId} {handler : SessionState → Net W → Option (SessionState × Net W)}
    (hrun : st₁.onSession name sid handler = some st') (happs : st₁.apps = st.apps) :
    st.session name sid = none ∧ st' = st₁ ∨
      (st.session name sid).isSome ∧ ∃ s ∈ planned, s.sessionId = sid := by
  cases hx : st.session name sid with
  | none =>
      have hlook : st₁.session name sid = none := by
        rw [State.session, happs]
        exact hx
      rcases onSession_cases hrun with ⟨-, rfl⟩ | ⟨x, -, hsome, -⟩
      · exact .inl ⟨rfl, rfl⟩
      · cases hlook.symm.trans hsome
  | some x =>
      have hsome : (st.session name sid).isSome := by rw [hx]; rfl
      exact .inr ⟨rfl, h.known name sid hsome⟩

theorem same_start {name : String} {sid sid' : SessionId} (hne : sid' ≠ sid) :
    Same sid' st { st with started := (name, sid) :: st.started } where
  session := fun _ => rfl
  started := fun a => by
    rw [List.mem_cons]
    exact or_iff_right fun heq => hne (Prod.mk.inj heq).2
  qubits := fun _ _ _ => Iff.rfl
  packets := fun _ _ => Iff.rfl
  senders := .refl _
  heard := rfl
  corrected := fun _ => rfl

theorem same_take {k : ℕ} {flight : Flight} {world : W} {sid : SessionId}
    (hk : st.net.qubits[k]? = some flight)
    (hlabel : ∀ side, flight.label ≠ .swapIn side sid) :
    Same sid st { st with
      net := { st.net with world := world, qubits := st.net.qubits.eraseIdx k } } where
  session := fun _ => rfl
  started := fun _ => Iff.rfl
  qubits := fun _ side hf => mem_eraseIdx_of_ne hk fun heq =>
    hlabel side (heq ▸ hf)
  packets := fun _ _ => Iff.rfl
  senders := .refl _
  heard := rfl
  corrected := fun _ => rfl

theorem same_hear {k : ℕ} {pkt : CtrlPacket} {sid : SessionId}
    (hk : st.net.packets[k]? = some pkt) (hne : pkt.sid ≠ sid) :
    Same sid st { st with
      net := { st.net with packets := st.net.packets.eraseIdx k }
      heard := st.heard ++ [(pkt.sid, pkt.sender)] } := by
  let st₁ : State W := { st with
    net := { st.net with packets := st.net.packets.eraseIdx k }
    heard := st.heard ++ [(pkt.sid, pkt.sender)] }
  have hspec : (st₁.sendersOf sid).Perm (st.sendersOf sid) ∧ st₁.heardOf sid =
      st.heardOf sid ++ if pkt.sid = sid then [pkt.sender] else [] :=
    senders_hear hk rfl rfl sid
  exact {
    session := fun _ => rfl
    started := fun _ => Iff.rfl
    qubits := fun _ _ _ => Iff.rfl
    packets := fun pkt' hp => mem_eraseIdx_of_ne hk fun heq => hne (heq ▸ hp)
    senders := hspec.1
    heard := by rw [hspec.2, if_neg hne, List.append_nil]
    corrected := fun _ => rfl }

/-- An event without loss keeps the invariant. -/
theorem Inv.step (h : Inv w nodes planned st) (hd : Deployed w nodes planned) {e : Event}
    (hloss : NoLoss st e) (hstep : st.step api w e = some st') :
    Inv w nodes planned st' := by
  cases e with
  | start name sid draws =>
      rw [State.step] at hstep
      split_ifs at hstep with hguard
      obtain ⟨s, hs, rfl⟩ := h.known name sid hguard.1
      refine h.onSession hd hs hstep rfl (fun sid hne => same_start hne) hguard.1 ?_
      intro x x' sink hsink hx hrun hstarted hheard hsession
      exact (h.each s hs sink hsink).start (hd.long s hs) (hd.nodup s hs) (hd.injOn hs)
        hsink (hd.routed s hs sink hsink).1 hx hrun hstarted hheard hsession
  | qubitArrival k name draws =>
      cases hk : st.net.qubits[k]? with
      | none => simp only [State.step, hk, reduceCtorEq] at hstep
      | some flight =>
          simp only [State.step, hk] at hstep
          split_ifs at hstep with hguard
          obtain ⟨world, -, hrun⟩ := Option.bind_eq_some_iff.mp hstep
          rw [State.dispatch] at hrun
          cases hlabel : flight.label with
          | other text =>
              simp only [hlabel, Option.some.injEq] at hrun
              subst hrun
              exact h.same rfl fun s _ => same_take hk fun side heq =>
                nomatch hlabel.symm.trans heq
          | swapIn side sid =>
              simp only [hlabel] at hrun
              have hother : ∀ sid', sid' ≠ sid → Same sid' st { st with
                  net := { st.net with
                    world := world, qubits := st.net.qubits.eraseIdx k } } :=
                fun sid' hne => same_take hk fun side' heq =>
                  hne (Label.swapIn.inj (hlabel.symm.trans heq)).2.symm
              rcases h.onSession_or hrun rfl with ⟨hnone, rfl⟩ | ⟨hsome, s, hs, rfl⟩
              · -- a planned session would be known where its qubit arrives
                refine h.same rfl fun s hs => hother _ ?_
                rintro rfl
                obtain ⟨sink, hsink⟩ := hd.exists_sink hs
                obtain ⟨-, i, name', hi, hdst⟩ := (h.each s hs sink hsink).flights flight
                  (List.mem_of_getElem? hk) side hlabel
                have hname : name = name' := hd.nodeIds name (h.apps name hguard.2) name'
                  (hd.bound s hs name' (List.mem_of_getElem? hi)) (hguard.1.trans hdst)
                obtain ⟨x, hx, -⟩ := (h.each s hs sink hsink).held (i + 1) name' hi
                rw [hname, hx] at hnone
                cases hnone
              · refine h.onSession hd hs hrun rfl hother hsome ?_
                intro x x' sink hsink hx hrun hstarted hheard hsession
                exact (h.each s hs sink hsink).arrive (hd.nodup s hs) (hd.bound s hs)
                  hd.nodeIds hsink (hd.routed s hs sink hsink).1 hk hguard.1 hlabel hx rfl
                  hrun hstarted hheard hsession
  | ctrlArrival k name =>
      cases hk : st.net.packets[k]? with
      | none => simp only [State.step, hk, reduceCtorEq] at hstep
      | some pkt =>
          simp only [State.step, hk] at hstep
          split_ifs at hstep with hguard
          have hname : name ∈ nodes := by
            refine h.apps name ?_
            cases happ : st.apps name with
            | none => rw [happ] at hguard; cases hguard.2
            | some app => rfl
          -- a packet of a planned session arrives at its sink
          have hsink : ∀ s ∈ planned, pkt.sid = s.sessionId → ∀ sink,
              s.path.getLast? = some sink → name = sink := by
            intro s hs hsid sink hsink
            refine (hd.routed s hs sink hsink).2 name hname (hguard.1.trans ?_)
            exact (h.each s hs sink hsink).packets pkt (List.mem_of_getElem? hk) hsid
          rcases h.onSession_or hstep rfl with ⟨hnone, rfl⟩ | ⟨hsome, s, hs, hsid⟩
          · refine h.same rfl fun s hs => same_hear hk fun hsid => ?_
            obtain ⟨sink, hlast⟩ := hd.exists_sink hs
            obtain ⟨x, hx, -⟩ := (h.each s hs sink hlast).held _ sink
              (sink_position hlast)
            rw [hsink s hs hsid sink hlast, hsid, hx] at hnone
            cases hnone
          · rw [← hsid] at hstep hsome
            refine h.onSession hd hs hstep rfl (fun sid hne => ?_) hsome ?_
            · have hsame := same_hear hk (hsid ▸ hne.symm : pkt.sid ≠ sid)
              rwa [← hsid] at hsame
            · intro x x' sink hlast hx hrun hstarted hheard hsession
              obtain rfl := hsink s hs hsid.symm sink hlast
              exact (h.each s hs name hlast).hear (hd.long s hs) (hd.nodup s hs) (hd.injOn hs)
                (fun a ha => hd.nodeIdLt a (hd.bound s hs a ha)) hlast hk hsid.symm hx rfl
                hrun hstarted (hheard.trans (by rw [hsid])) hsession
  | qubitLost k => exact hloss.elim
  | ctrlLost k => exact hloss.elim

/-- A run without loss keeps the invariant. -/
theorem run_inv (hd : Deployed w nodes planned)
    (hinst : installUnifiedApps w (bindApps nodes) planned = some apps) {world : W}
    (h : Run api w NoLoss { net := { world := world }, apps := apps } st) :
    Inv w nodes planned st := by
  induction h with
  | init => exact inv_init hd hinst world
  | step _ hloss hstep ih => exact ih.step hd hloss hstep

/-! ## Completion -/

end Runs

/-! ## One repeater and none -/

/-- The nodes `A`, `R` and `B` with the addresses 1, 2 and 3. -/
def chainSetup : Setup ℤ where
  nodeId := fun name => if name = "A" then 0 else if name = "R" then 1 else 2
  v4 := fun name => if name = "A" then 1 else if name = "R" then 2 else 3
  v6 := fun _ => 0
  seconds := fun t => t

def chainSession (path : List String) : SwapSessionSpec ℤ where
  path := path
  start_s := 0
  sessionId := 1

theorem chain_deployed {path : List String} (hlong : 2 ≤ path.length)
    (hnodup : path.Nodup) (hsub : ∀ name ∈ path, name ∈ ["A", "R", "B"])
    (hlast : path.getLast? = some "B") :
    Deployed chainSetup ["A", "R", "B"] [chainSession path] where
  long := List.forall_mem_singleton.mpr hlong
  nodup := List.forall_mem_singleton.mpr hnodup
  bound := List.forall_mem_singleton.mpr hsub
  ids := List.nodup_singleton _
  nodeIds := by decide
  nodeIdLt := by decide
  routed := List.forall_mem_singleton.mpr fun sink hsink => by
    obtain rfl := Option.some.inj (hlast.symm.trans hsink)
    exact ⟨by decide, by decide⟩

/-- The apps on the three nodes. -/
def chainApps (path : List String) : Apps :=
  (installUnifiedApps chainSetup (bindApps ["A", "R", "B"]) [chainSession path]).getD
    fun _ => none

end Q2NS.Swap
