import Q2NS.Classical.Addresses
import Q2NS.Classical.Interfaces
import Q2NS.Lib.Bfs

/-!
# Static shortest paths

`InstallStaticShortestPaths`: a breadth-first search from every node, and a host route
from the node to every other one over the first hop of a path in the tree.
-/

namespace Q2NS.Classical

open OrderedMap Bfs Loop

/-! ## The code -/

/-- A host route of a node. -/
structure Route where
  stack : Stack
  node : NodeName
  destination : Address
  nextHop : Address
  interface : ℕ
  deriving DecidableEq

namespace NetworkHandle

/-- `segMembers`. -/
def segMembers (h : NetworkHandle) : List (SegmentId × List NodeName) :=
  h.names.foldl (fun ms name => (h.entry name).segIf.foldl
    (fun ms kv => modify kv.1 (· ++ [name]) ms) ms) []

/-- Two members of a segment are each other's neighbours. -/
def connect (u v : NodeName) (adj : List (NodeName × List NodeName)) :
    List (NodeName × List NodeName) :=
  modify v (· ++ [u]) (modify u (· ++ [v]) adj)

/-- All pairs of members of a segment. -/
def connectAll : List NodeName → List (NodeName × List NodeName) →
    List (NodeName × List NodeName)
  | [], adj => adj
  | u :: members, adj => connectAll members (members.foldl (fun adj v => connect u v adj) adj)

/-- `adj`; a segment with less than two members has no pairs. -/
def adj (h : NetworkHandle) : List (NodeName × List NodeName) :=
  h.segMembers.foldl (fun adj s => connectAll s.2 adj) []

/-- `adj[u]`. -/
def neighbours (h : NetworkHandle) (u : NodeName) : List NodeName :=
  (h.adj.lookup u).getD []

/-- `parent`, after the search from a node. -/
def parents (h : NetworkHandle) (rounds : ℕ) (src : NodeName) :
    Option (NodeName → Option NodeName) :=
  search h.neighbours rounds (start "" src)

end NetworkHandle

/-- The loop of `firstHop`; `none` when the rounds are used up or `at` throws. -/
def walkBack (parent : NodeName → Option NodeName) (src : NodeName) :
    ℕ → NodeName → NodeName → Option NodeName
  | rounds, cur, prev =>
      if prev = "" then some ""
      else if prev = src then some cur
      else
        match rounds with
        | 0 => none
        | rounds + 1 =>
            match parent prev with
            | none => none
            | some p => walkBack parent src rounds prev p

/-- `firstHop`. -/
def firstHop (parent : NodeName → Option NodeName) (rounds : ℕ) (src dst : NodeName) :
    Option NodeName :=
  if dst = src then some src
  else
    match parent dst with
    | none => some ""
    | some p => walkBack parent src rounds dst p

namespace NetworkHandle

/-- The first segment of the source that the next hop is on as well. -/
def sharedSegment (h : NetworkHandle) (src nh : NodeName) : SegmentId :=
  (((h.entry src).segIf.find? fun kv =>
    ((h.entry nh).segIf.lookup kv.1).isSome).map Prod.fst).getD ""

/-- `AddHostRouteTo` on a stack, if there is an address and both interfaces are there. -/
def hostRoute (h : NetworkHandle) (src dst : NodeName) (meSeg nhSeg : IfaceInfo)
    (st : Stack) : List Route :=
  match (h.entry dst).addrs st with
  | [] => []
  | a :: _ =>
      if h.has st ∧ meSeg.ifIndex st ≠ uint32Max ∧ nhSeg.ifIndex st ≠ uint32Max then
        [⟨st, src, a, nhSeg.gateway st, meSeg.ifIndex st⟩]
      else []

/-- The routes to a node over a next hop; nothing when a check fails. -/
def routesVia (h : NetworkHandle) (src dst nh : NodeName) : List Route :=
  if nh = "" then []
  else
    let seg := h.sharedSegment src nh
    if seg = "" then []
    else
      let meSeg := ((h.entry src).segIf.lookup seg).getD {}
      let nhSeg := ((h.entry nh).segIf.lookup seg).getD {}
      h.hostRoute src dst meSeg nhSeg .v4 ++ h.hostRoute src dst meSeg nhSeg .v6

/-- The body of the loop over the destinations. -/
def routesTo (h : NetworkHandle) (parent : NodeName → Option NodeName) (rounds : ℕ)
    (src dst : NodeName) : Option (List Route) :=
  if dst = src then some []
  else (firstHop parent rounds src dst).map fun nh => h.routesVia src dst nh

/-- The body of the loop over the sources. -/
def routesFrom (h : NetworkHandle) (rounds : ℕ) (src : NodeName) : Option (List Route) :=
  (h.parents rounds src).bind fun parent =>
    (h.names.mapM fun dst => h.routesTo parent rounds src dst).map List.flatten

/-- `InstallStaticShortestPaths`; `none` when a loop does not end within its rounds. -/
def installStaticShortestPaths (h : NetworkHandle) (rounds : ℕ) : Option (List Route) :=
  (h.names.mapM fun src => h.routesFrom rounds src).map List.flatten

end NetworkHandle

/-! ## Following the routes -/

namespace NetworkHandle

/-- The first address of a node on a stack. -/
def firstAddress (h : NetworkHandle) (st : Stack) (name : NodeName) : Option Address :=
  ((h.entry name).addrs st).head?

/-- The node that neighbours reach at an address. -/
def owner (h : NetworkHandle) (st : Stack) (nextHop : Address) : Option NodeName :=
  (h.interfaces.find? fun f => f.stack = st ∧ f.addr.2 = nextHop).map Interface.node

/-- The node that a packet for the first address of `dst` goes to next. -/
def forward (h : NetworkHandle) (routes : List Route) (st : Stack) (dst u : NodeName) :
    Option NodeName :=
  (h.firstAddress st dst).bind fun a =>
    (routes.find? fun r => r.stack = st ∧ r.node = u ∧ r.destination = a).bind fun r =>
      h.owner st r.nextHop

/-- The nodes that it visits within a number of hops. -/
def follow (h : NetworkHandle) (routes : List Route) (st : Stack) (dst : NodeName) :
    ℕ → NodeName → List NodeName
  | 0, u => [u]
  | hops + 1, u =>
      if u = dst then [u]
      else
        match h.forward routes st dst u with
        | none => [u]
        | some v => u :: follow h routes st dst hops v

end NetworkHandle

/-! ## Neighbours -/

namespace NetworkHandle

variable {h : NetworkHandle}

/-- The node is on the segment. -/
def OnSegment (h : NetworkHandle) (name : NodeName) (seg : SegmentId) : Prop :=
  ((h.entry name).segIf.lookup seg).isSome

theorem segMembers_eq (h : NetworkHandle) : h.segMembers =
    collect (h.names.flatMap fun name => (h.entry name).segIf.map fun kv => (kv.1, name))
      [] := by
  rw [collect, List.foldl_flatMap, segMembers]
  simp only [List.foldl_map]

/-- The pairs that `connectAll` connects. -/
def pairsOf : List NodeName → List (NodeName × NodeName)
  | [] => []
  | u :: members => members.flatMap (fun v => [(u, v), (v, u)]) ++ pairsOf members

theorem connectAll_eq (members : List NodeName) (adj : List (NodeName × List NodeName)) :
    connectAll members adj = collect (pairsOf members) adj := by
  induction members generalizing adj with
  | nil => rfl
  | cons u members ih =>
      rw [connectAll, ih, pairsOf, collect_append]
      congr 1
      rw [collect, List.foldl_flatMap]
      rfl

theorem mem_pairsOf {members : List NodeName} {u v : NodeName} (huv : u ≠ v) :
    (u, v) ∈ pairsOf members ↔ u ∈ members ∧ v ∈ members := by
  induction members with
  | nil => simp [pairsOf]
  | cons w members ih =>
      simp only [pairsOf, List.mem_append, List.mem_flatMap, List.mem_cons,
        List.not_mem_nil, or_false, Prod.mk.injEq, ih]
      constructor
      · rintro (⟨x, hx, ⟨rfl, rfl⟩ | ⟨rfl, rfl⟩⟩ | ⟨hu, hv⟩)
        · exact ⟨.inl rfl, .inr hx⟩
        · exact ⟨.inr hx, .inl rfl⟩
        · exact ⟨.inr hu, .inr hv⟩
      · rintro ⟨rfl | hu, rfl | hv⟩
        · exact absurd rfl huv
        · exact .inl ⟨v, hv, .inl ⟨rfl, rfl⟩⟩
        · exact .inl ⟨u, hu, .inr ⟨rfl, rfl⟩⟩
        · exact .inr ⟨hu, hv⟩

/-- Two different nodes are neighbours when they share a segment. -/
theorem mem_neighbours {u v : NodeName} (huv : u ≠ v) : v ∈ h.neighbours u ↔
    u ∈ h.names ∧ v ∈ h.names ∧ ∃ seg, h.OnSegment u seg ∧ h.OnSegment v seg := by
  have hadj : h.adj = collect (h.segMembers.flatMap fun s => pairsOf s.2) [] := by
    rw [collect, List.foldl_flatMap, adj]
    simp only [connectAll_eq]
    rfl
  have hpairs : v ∈ h.neighbours u ↔ ∃ s ∈ h.segMembers, u ∈ s.2 ∧ v ∈ s.2 := by
    rw [neighbours, hadj, mem_collect_nil, List.mem_flatMap]
    exact exists_congr fun s => and_congr_right fun _ => mem_pairsOf huv
  have hon : ∀ seg name, (seg, name) ∈ (h.names.flatMap fun name =>
      (h.entry name).segIf.map fun kv => (kv.1, name)) ↔
        name ∈ h.names ∧ h.OnSegment name seg := by
    intro seg name
    rw [OnSegment, lookup_isSome]
    simp only [List.mem_flatMap, List.mem_map, Prod.mk.injEq]
    constructor
    · rintro ⟨n, hn, kv, hkv, rfl, rfl⟩
      exact ⟨hn, kv, hkv, rfl⟩
    · rintro ⟨hn, kv, hkv, rfl⟩
      exact ⟨name, hn, kv, hkv, rfl, rfl⟩
  rw [hpairs]
  constructor
  · rintro ⟨s, hs, hu, hv⟩
    rw [segMembers_eq] at hs
    obtain ⟨hun, hus⟩ := (hon _ _).mp (of_mem_collect hs hu)
    obtain ⟨hvn, hvs⟩ := (hon _ _).mp (of_mem_collect hs hv)
    exact ⟨hun, hvn, s.1, hus, hvs⟩
  · rintro ⟨hun, hvn, seg, hus, hvs⟩
    have hu := mem_collect_nil.mpr ((hon seg u).mpr ⟨hun, hus⟩)
    have hv := mem_collect_nil.mpr ((hon seg v).mpr ⟨hvn, hvs⟩)
    rw [← segMembers_eq] at hu hv
    cases hlookup : h.segMembers.lookup seg with
    | none =>
        rw [hlookup] at hu
        exact absurd hu List.not_mem_nil
    | some members =>
        rw [hlookup] at hu hv
        exact ⟨(seg, members), mem_of_lookup hlookup, hu, hv⟩

end NetworkHandle

/-! ## The graph of a network -/

/-- Two nodes are adjacent when they are on a common segment. -/
def graph (links : List Link) (lans : List Lan) : SimpleGraph NodeName where
  Adj u v := u ≠ v ∧ ∃ s ∈ segments links lans, u ∈ s.2 ∧ v ∈ s.2
  symm := ⟨fun _ _ h => ⟨h.1.symm, h.2.imp fun _ hs => ⟨hs.1, hs.2.2, hs.2.1⟩⟩⟩
  loopless := ⟨fun _ h => h.1 rfl⟩

/-- Going on to `nh` is a step on a shortest path. -/
structure Nearer (G : SimpleGraph NodeName) (src dst nh : NodeName) : Prop where
  adj : G.Adj src nh
  reachable : G.Reachable nh dst
  dist : G.dist nh dst + 1 = G.dist src dst

/-! ## First hops -/

section FirstHop

variable {G : SimpleGraph NodeName} {src : NodeName} {parent : NodeName → Option NodeName}

/-- Walking back from a node ends at a neighbour of the source. -/
theorem walkBack_eq (htree : Tree G "" src parent) (hnames : ∀ v, G.Reachable src v → v ≠ "") :
    ∀ {rounds : ℕ} {cur prev : NodeName}, cur ≠ src → parent cur = some prev →
      G.dist src cur ≤ rounds + 1 → ∃ nh, walkBack parent src rounds cur prev = some nh ∧
        G.Adj src nh ∧ ∃ w : G.Walk nh cur, w.length + 1 = G.dist src cur := by
  intro rounds
  induction rounds with
  | zero =>
      intro cur prev hcur hprev hdist
      obtain ⟨hadj, hmet, hd⟩ := htree.step cur hcur prev hprev
      have hreach := (htree.met prev).mp hmet
      have hsrc : src = prev := hreach.dist_eq_zero_iff.mp (by omega)
      subst hsrc
      rw [walkBack, if_neg (hnames src hreach), if_pos rfl]
      refine ⟨cur, rfl, hadj, .nil, ?_⟩
      rw [hd, SimpleGraph.dist_self]
      rfl
  | succ rounds ih =>
      intro cur prev hcur hprev hdist
      obtain ⟨hadj, hmet, hd⟩ := htree.step cur hcur prev hprev
      have hreach := (htree.met prev).mp hmet
      rw [walkBack, if_neg (hnames prev hreach)]
      by_cases hsrc : prev = src
      · subst hsrc
        rw [if_pos rfl]
        refine ⟨cur, rfl, hadj, .nil, ?_⟩
        rw [hd, SimpleGraph.dist_self]
        rfl
      · rw [if_neg hsrc]
        obtain ⟨p, hp⟩ := Option.isSome_iff_exists.mp hmet
        obtain ⟨nh, hwalk, hfirst, w, hw⟩ := ih hsrc hp (by omega)
        refine ⟨nh, by simp only [hp]; exact hwalk, hfirst, w.concat hadj, ?_⟩
        rw [SimpleGraph.Walk.length_concat, hd, hw]

/-- The first hop is nearer, and there is one exactly for what can be reached. -/
theorem firstHop_eq (htree : Tree G "" src parent)
    (hnames : ∀ v, G.Reachable src v → v ≠ "") {rounds : ℕ} {dst : NodeName}
    (hne : dst ≠ src) (hrounds : G.dist src dst ≤ rounds + 1) :
    (G.Reachable src dst ∧ ∃ nh, firstHop parent rounds src dst = some nh ∧
      Nearer G src dst nh) ∨
    ¬ G.Reachable src dst ∧ firstHop parent rounds src dst = some "" := by
  rw [firstHop, if_neg hne]
  cases hprev : parent dst with
  | none =>
      refine .inr ⟨fun hreach => ?_, rfl⟩
      rw [← htree.met, hprev] at hreach
      exact Bool.false_ne_true hreach
  | some prev =>
      have hreach : G.Reachable src dst := (htree.met dst).mp (by rw [hprev]; rfl)
      obtain ⟨nh, hwalk, hadj, w, hw⟩ := walkBack_eq htree hnames hne hprev hrounds
      have hnext : G.Reachable nh dst := ⟨w⟩
      refine .inl ⟨hreach, nh, hwalk, hadj, hnext, ?_⟩
      have hle := SimpleGraph.dist_le w
      obtain ⟨w', hw'⟩ := hnext.exists_walk_length_eq_dist
      have hge := SimpleGraph.dist_le (SimpleGraph.Walk.cons hadj w')
      rw [SimpleGraph.Walk.length_cons] at hge
      omega

end FirstHop

/-! ## The network that has been built -/

/-- A network that has been built of segments with ids of their own; names and ids are
not empty, and ns-3 numbers no interface `UINT32_MAX`. -/
structure Wired (ns3 : Ns3) (version : IpVersion) (attached : List NodeName)
    (links : List Link) (lans : List Lan) (h : NetworkHandle) : Prop where
  built : build ns3 version attached links lans = .ok h
  ids : ((segments links lans).map Prod.fst).Nodup
  idsNonempty : "" ∉ (segments links lans).map Prod.fst
  namesNonempty : "" ∉ attached
  ifIndex : ∀ st seg i, ns3.interfaceForDevice st seg i ≠ uint32Max

section Network

variable {ns3 : Ns3} {version : IpVersion} {attached : List NodeName} {links : List Link}
  {lans : List Lan} {h : NetworkHandle} {src dst nh : NodeName} {st : Stack}

theorem Wired.recorded (hw : Wired ns3 version attached links lans h) :
    Recorded ns3 version.has attached
      ((segments links lans).flatMap (onStacks version.has)) h := recorded_build hw.built

theorem Wired.onSegment (hw : Wired ns3 version attached links lans h) {seg : SegmentId} :
    h.OnSegment src seg ↔ ∃ s ∈ segments links lans, s.1 = seg ∧ src ∈ s.2 :=
  hw.recorded.onSegment

/-- The members of the segments are nodes. -/
theorem Wired.member (hw : Wired ns3 version attached links lans h)
    {s : SegmentId × List NodeName} (hs : s ∈ segments links lans) (hsrc : src ∈ s.2) :
    src ∈ attached := by
  obtain ⟨st, hst⟩ := version.exists_has
  exact hw.recorded.members (st, s)
    (List.mem_flatMap.mpr ⟨s, hs, mem_onStacks.mpr ⟨hst, rfl⟩⟩) src hsrc

theorem Wired.adj_attached (hw : Wired ns3 version attached links lans h)
    (hadj : (graph links lans).Adj src dst) : src ∈ attached ∧ dst ∈ attached := by
  obtain ⟨-, s, hs, hsrc, hdst⟩ := hadj
  exact ⟨hw.member hs hsrc, hw.member hs hdst⟩

/-- What can be reached from a node is a node. -/
theorem Wired.reachable_attached (hw : Wired ns3 version attached links lans h)
    (hsrc : src ∈ attached) (hreach : (graph links lans).Reachable src dst) :
    dst ∈ attached := by
  obtain ⟨w⟩ := hreach
  induction w with
  | nil => exact hsrc
  | cons hadj _ ih => exact ih (hw.adj_attached hadj).2

theorem Wired.neighbours (hw : Wired ns3 version attached links lans h) {u v : NodeName}
    (huv : u ≠ v) : v ∈ h.neighbours u ↔ (graph links lans).Adj u v := by
  rw [NetworkHandle.mem_neighbours huv]
  constructor
  · rintro ⟨-, -, seg, hu, hv⟩
    obtain ⟨s, hs, hid, hu⟩ := hw.onSegment.mp hu
    obtain ⟨s', hs', hid', hv⟩ := hw.onSegment.mp hv
    obtain rfl := List.inj_on_of_nodup_map hw.ids hs hs' (hid.trans hid'.symm)
    exact ⟨huv, s, hs, hu, hv⟩
  · rintro ⟨-, s, hs, hu, hv⟩
    exact ⟨(hw.recorded.names u).mpr (hw.member hs hu),
      (hw.recorded.names v).mpr (hw.member hs hv), s.1,
      hw.onSegment.mpr ⟨s, hs, rfl, hu⟩, hw.onSegment.mpr ⟨s, hs, rfl, hv⟩⟩

/-- A shortest path has no more hops than there are other nodes. -/
theorem Wired.dist_lt (hw : Wired ns3 version attached links lans h)
    (hsrc : src ∈ attached) (hreach : (graph links lans).Reachable src dst) :
    (graph links lans).dist src dst < attached.toFinset.card := by
  obtain ⟨w, hpath, hw'⟩ := hreach.exists_path_of_dist
  have hsub : w.support.toFinset ⊆ attached.toFinset := by
    intro v hv
    rw [List.mem_toFinset] at hv ⊢
    exact hw.reachable_attached hsrc ⟨w.takeUntil v hv⟩
  have hcard := Finset.card_le_card hsub
  rw [List.toFinset_card_of_nodup hpath.support_nodup, SimpleGraph.Walk.length_support] at hcard
  omega

/-- The search from a node ends with a breadth-first tree. -/
theorem Wired.parents (hw : Wired ns3 version attached links lans h)
    (hsrc : src ∈ attached) {rounds : ℕ} (hrounds : attached.toFinset.card ≤ rounds) :
    ∃ parent, h.parents rounds src = some parent ∧
      Tree (graph links lans) "" src parent := by
  have hclosed : ∀ u ∈ attached.toFinset, ∀ v ∈ h.neighbours u, v ∈ attached.toFinset := by
    intro u hu v hv
    by_cases huv : u = v
    · exact huv ▸ hu
    · exact List.mem_toFinset.mpr (hw.adj_attached ((hw.neighbours huv).mp hv)).2
  have hqueue : ∀ v ∈ (start "" src).queue, v ∈ attached.toFinset := fun v hv =>
    List.mem_toFinset.mpr (List.mem_singleton.mp hv ▸ hsrc)
  have hwork : workLeft attached.toFinset (start "" src) ≤ attached.toFinset.card := by
    have hfilter : (attached.toFinset.filter fun v => (start "" src).parent v = none) =
        attached.toFinset.erase src := by
      ext v
      rw [Finset.mem_filter, Finset.mem_erase, start_parent, and_comm]
      refine and_congr_left fun _ => ?_
      split_ifs with hv
      · simp [hv]
      · simp [hv]
    have hmem : src ∈ attached.toFinset := List.mem_toFinset.mpr hsrc
    have hpos := Finset.card_pos.mpr ⟨src, hmem⟩
    rw [workLeft, hfilter, Finset.card_erase_of_mem hmem]
    exact (Nat.sub_add_cancel hpos).le
  obtain ⟨parent, hparent⟩ := Option.isSome_iff_exists.mp
    (search_ends hclosed hqueue (hwork.trans hrounds))
  exact ⟨parent, hparent, search_tree (fun u v huv => hw.neighbours huv) hparent⟩

/-! ## Routes -/

/-- Two neighbours share the segment that is found. -/
theorem Wired.sharedSegment (hw : Wired ns3 version attached links lans h)
    (hadj : (graph links lans).Adj src nh) : ∃ s ∈ segments links lans,
      h.sharedSegment src nh = s.1 ∧ src ∈ s.2 ∧ nh ∈ s.2 := by
  obtain ⟨-, s, hs, hsrc, hnh⟩ := hadj
  have hkey := lookup_isSome.mp (hw.onSegment.mpr ⟨s, hs, rfl, hsrc⟩)
  obtain ⟨kv, hkv, hid⟩ := List.mem_map.mp hkey
  have hfound : ((h.entry src).segIf.find? fun kv =>
      ((h.entry nh).segIf.lookup kv.1).isSome).isSome := by
    rw [List.find?_isSome]
    exact ⟨kv, hkv, hid ▸ hw.onSegment.mpr ⟨s, hs, rfl, hnh⟩⟩
  obtain ⟨kv', hkv'⟩ := Option.isSome_iff_exists.mp hfound
  have hmem := List.mem_of_find?_eq_some hkv'
  have hcond := List.find?_some hkv'
  have hnh' : h.OnSegment nh kv'.1 := hcond
  have hsrc' : h.OnSegment src kv'.1 :=
    lookup_isSome.mpr (List.mem_map.mpr ⟨kv', hmem, rfl⟩)
  obtain ⟨t, ht, hid, hsrct⟩ := hw.onSegment.mp hsrc'
  obtain ⟨t', ht', hid', hnht⟩ := hw.onSegment.mp hnh'
  obtain rfl := List.inj_on_of_nodup_map hw.ids ht ht' (hid.trans hid'.symm)
  refine ⟨t, ht, ?_, hsrct, hnht⟩
  rw [NetworkHandle.sharedSegment, hkv', hid]
  rfl

/-- The interface of a node on a segment, as it is recorded. -/
theorem Wired.info (hw : Wired ns3 version attached links lans h)
    {s : SegmentId × List NodeName} (hs : s ∈ segments links lans) (hsrc : src ∈ s.2)
    (hst : version.has st) : ∃ f ∈ h.interfaces, f.stack = st ∧ f.id = s.1 ∧ f.node = src ∧
      (((h.entry src).segIf.lookup s.1).getD {}).gateway st = f.addr.2 ∧
      (((h.entry src).segIf.lookup s.1).getD {}).ifIndex st =
        ns3.interfaceForDevice st s.1 f.index := by
  obtain ⟨info, hinfo⟩ := Option.isSome_iff_exists.mp
    (hw.onSegment.mpr ⟨s, hs, rfl, hsrc⟩)
  obtain ⟨f, hf, hfst, hid, hnode, -, hgateway, hindex⟩ :=
    hw.recorded.recorded.info src s.1 info hinfo st
      (hw.recorded.mem_interfaces.mpr ⟨hst, s, hs, rfl, hsrc⟩)
  rw [hinfo]
  exact ⟨f, hf, hfst, hid, hnode, hgateway, hindex⟩

/-- A node that is connected to another one has an address. -/
theorem Wired.firstAddress (hw : Wired ns3 version attached links lans h)
    (hst : version.has st) (hne : src ≠ dst) (hreach : (graph links lans).Reachable src dst) :
    ∃ a, h.firstAddress st dst = some a := by
  obtain ⟨w⟩ := hreach.symm
  cases w with
  | nil => exact absurd rfl hne
  | cons hadj _ =>
      obtain ⟨-, s, hs, hdst, -⟩ := hadj
      obtain ⟨f, hf, hfst, -, hnode, -⟩ := hw.info hs hdst hst
      have hsome := hw.recorded.recorded.someAddr f hf
      rw [hfst, hnode] at hsome
      exact ⟨_, List.head?_eq_some_head hsome⟩

/-- A route of a node to a destination over a next hop. -/
structure Via (ns3 : Ns3) (h : NetworkHandle) (st : Stack) (src dst nh : NodeName)
    (r : Route) : Prop where
  stack : r.stack = st
  node : r.node = src
  destination : h.firstAddress st dst = some r.destination
  interfaces : ∃ f ∈ h.interfaces, ∃ g ∈ h.interfaces, f.stack = st ∧ g.stack = st ∧
    f.node = nh ∧ g.node = src ∧ f.id = g.id ∧ r.nextHop = f.addr.2 ∧
    r.interface = ns3.interfaceForDevice st g.id g.index

theorem mem_hostRoute {meSeg nhSeg : IfaceInfo} {r : Route} :
    r ∈ h.hostRoute src dst meSeg nhSeg st ↔ ∃ a, h.firstAddress st dst = some a ∧
      (h.has st ∧ meSeg.ifIndex st ≠ uint32Max ∧ nhSeg.ifIndex st ≠ uint32Max) ∧
      r = ⟨st, src, a, nhSeg.gateway st, meSeg.ifIndex st⟩ := by
  rw [NetworkHandle.hostRoute, NetworkHandle.firstAddress]
  cases (h.entry dst).addrs st with
  | nil => simp
  | cons a rest =>
      simp only [List.head?_cons, Option.some.injEq, exists_eq_left']
      split_ifs with hcond
      · rw [List.mem_singleton]
        exact (and_iff_right hcond).symm
      · exact ⟨fun hr => absurd hr List.not_mem_nil, fun hr => absurd hr.1 hcond⟩

/-- The routes over a neighbour. -/
theorem Wired.mem_routesVia (hw : Wired ns3 version attached links lans h)
    (hst : version.has st) (hadj : (graph links lans).Adj src nh) :
    (∀ r ∈ h.routesVia src dst nh, r.stack = st → Via ns3 h st src dst nh r) ∧
      ∀ a, h.firstAddress st dst = some a →
        ∃ r ∈ h.routesVia src dst nh, Via ns3 h st src dst nh r := by
  obtain ⟨s, hs, hseg, hsrc, hnh⟩ := hw.sharedSegment hadj
  obtain ⟨f, hf, hfst, hfid, hfnode, hgateway, hfindex⟩ := hw.info hs hnh hst
  obtain ⟨g, hg, hgst, hgid, hgnode, -, hgindex⟩ := hw.info hs hsrc hst
  have hname : nh ≠ "" := fun he => hw.namesNonempty (he ▸ hw.member hs hnh)
  have hid : s.1 ≠ "" := fun he => hw.idsNonempty (he ▸ List.mem_map_of_mem hs)
  have hmem : ∀ r, r.stack = st → (r ∈ h.routesVia src dst nh ↔
      r ∈ h.hostRoute src dst (((h.entry src).segIf.lookup s.1).getD {})
        (((h.entry nh).segIf.lookup s.1).getD {}) st) := by
    intro r hr
    have hother : ∀ st', r ∈ h.hostRoute src dst (((h.entry src).segIf.lookup s.1).getD {})
        (((h.entry nh).segIf.lookup s.1).getD {}) st' → st' = st := by
      intro st' hr'
      obtain ⟨a, -, -, rfl⟩ := mem_hostRoute.mp hr'
      exact hr
    rw [NetworkHandle.routesVia, if_neg hname]
    simp only [hseg, if_neg hid, List.mem_append]
    constructor
    · rintro (hr' | hr')
      · exact hother _ hr' ▸ hr'
      · exact hother _ hr' ▸ hr'
    · intro hr'
      cases st with
      | v4 => exact .inl hr'
      | v6 => exact .inr hr'
  have hvia : ∀ a, h.firstAddress st dst = some a → Via ns3 h st src dst nh
      ⟨st, src, a, (((h.entry nh).segIf.lookup s.1).getD {}).gateway st,
        (((h.entry src).segIf.lookup s.1).getD {}).ifIndex st⟩ := fun a ha =>
    ⟨rfl, rfl, ha, f, hf, g, hg, hfst, hgst, hfnode, hgnode, hfid.trans hgid.symm, hgateway,
      by rw [hgid]; exact hgindex⟩
  refine ⟨fun r hr hrst => ?_, fun a ha => ?_⟩
  · obtain ⟨a, ha, -, rfl⟩ := mem_hostRoute.mp ((hmem r hrst).mp hr)
    exact hvia a ha
  · refine ⟨_, (hmem _ rfl).mpr (mem_hostRoute.mpr ⟨a, ha, ⟨?_, ?_, ?_⟩, rfl⟩), hvia a ha⟩
    · rw [hw.recorded.has_eq]
      exact hst
    · rw [hgindex]
      exact hw.ifIndex st _ _
    · rw [hfindex]
      exact hw.ifIndex st _ _

/-- What is installed at a node towards another one. -/
theorem Wired.routesTo (hw : Wired ns3 version attached links lans h)
    (hsrc : src ∈ attached) {rounds : ℕ} (hrounds : attached.toFinset.card ≤ rounds)
    {parent : NodeName → Option NodeName} (htree : Tree (graph links lans) "" src parent)
    (dst : NodeName) : ∃ c, h.routesTo parent rounds src dst = some c ∧
      (dst ≠ src ∧ (graph links lans).Reachable src dst ∧
        (∃ nh, Nearer (graph links lans) src dst nh ∧ c = h.routesVia src dst nh) ∨
      (dst = src ∨ ¬ (graph links lans).Reachable src dst) ∧ c = []) := by
  rw [NetworkHandle.routesTo]
  by_cases hdst : dst = src
  · rw [if_pos hdst]
    exact ⟨[], rfl, .inr ⟨.inl hdst, rfl⟩⟩
  · rw [if_neg hdst]
    have hnames : ∀ v, (graph links lans).Reachable src v → v ≠ "" := fun v hv he =>
      hw.namesNonempty (he ▸ hw.reachable_attached hsrc hv)
    have hdist : (graph links lans).dist src dst ≤ rounds + 1 := by
      by_cases hreach : (graph links lans).Reachable src dst
      · have hlt := hw.dist_lt hsrc hreach
        omega
      · rw [SimpleGraph.dist_eq_zero_of_not_reachable hreach]
        exact Nat.zero_le _
    obtain ⟨hreach, nh, hfirst, hnearer⟩ | ⟨hreach, hfirst⟩ :=
      firstHop_eq htree hnames hdst hdist
    · exact ⟨_, by rw [hfirst]; rfl, .inl ⟨hdst, hreach, nh, hnearer, rfl⟩⟩
    · refine ⟨[], ?_, .inr ⟨.inr hreach, rfl⟩⟩
      rw [hfirst, Option.map_some, NetworkHandle.routesVia, if_pos rfl]

/-- The routes of a whole network. -/
theorem Wired.installed (hw : Wired ns3 version attached links lans h) {rounds : ℕ}
    (hrounds : attached.toFinset.card ≤ rounds) :
    ∃ routes, h.installStaticShortestPaths rounds = some routes ∧
      (∀ r ∈ routes, ∃ src dst nh, Nearer (graph links lans) src dst nh ∧
        r ∈ h.routesVia src dst nh) ∧
      ∀ src ∈ attached, ∀ dst, dst ≠ src → (graph links lans).Reachable src dst →
        ∃ nh, Nearer (graph links lans) src dst nh ∧
          ∀ r ∈ h.routesVia src dst nh, r ∈ routes := by
  have hfrom : ∀ src ∈ h.names, ∃ bs, h.routesFrom rounds src = some bs ∧
      (∀ r ∈ bs, ∃ dst nh, Nearer (graph links lans) src dst nh ∧
        r ∈ h.routesVia src dst nh) ∧
      ∀ dst, dst ≠ src → (graph links lans).Reachable src dst →
        ∃ nh, Nearer (graph links lans) src dst nh ∧
          ∀ r ∈ h.routesVia src dst nh, r ∈ bs := by
    intro src hsrc
    have hsrc' := (hw.recorded.names src).mp hsrc
    obtain ⟨parent, hparent, htree⟩ := hw.parents hsrc' hrounds
    have hto := hw.routesTo hsrc' hrounds htree
    obtain ⟨bs, hbs, hmem⟩ := mapM_flatten (l := h.names)
      (f := fun dst => h.routesTo parent rounds src dst) fun dst _ => by
        obtain ⟨c, hc, -⟩ := hto dst
        exact hc ▸ rfl
    refine ⟨bs, by rw [NetworkHandle.routesFrom, hparent]; exact hbs, fun r hr => ?_,
      fun dst hdst hreach => ?_⟩
    · obtain ⟨dst, -, c, hc, hrc⟩ := (hmem r).mp hr
      obtain ⟨c', hc', hcase⟩ := hto dst
      obtain rfl := Option.some.inj (hc.symm.trans hc')
      obtain ⟨-, -, nh, hnearer, rfl⟩ | ⟨-, rfl⟩ := hcase
      · exact ⟨dst, nh, hnearer, hrc⟩
      · exact absurd hrc List.not_mem_nil
    · obtain ⟨c, hc, hcase⟩ := hto dst
      obtain ⟨-, -, nh, hnearer, rfl⟩ | ⟨hnot | hnot, -⟩ := hcase
      · refine ⟨nh, hnearer, fun r hr => (hmem r).mpr ⟨dst, ?_, _, hc, hr⟩⟩
        exact (hw.recorded.names dst).mpr (hw.reachable_attached hsrc' hreach)
      · exact absurd hnot hdst
      · exact absurd hreach hnot
  obtain ⟨routes, hroutes, hmem⟩ := mapM_flatten (l := h.names)
    (f := fun src => h.routesFrom rounds src) fun src hsrc => by
      obtain ⟨bs, hbs, -⟩ := hfrom src hsrc
      exact hbs ▸ rfl
  refine ⟨routes, hroutes, fun r hr => ?_, fun src hsrc dst hdst hreach => ?_⟩
  · obtain ⟨src, hsrc, c, hc, hrc⟩ := (hmem r).mp hr
    obtain ⟨bs, hbs, hsound, -⟩ := hfrom src hsrc
    obtain rfl := Option.some.inj (hc.symm.trans hbs)
    exact ⟨src, hsound r hrc⟩
  · have hname := (hw.recorded.names src).mpr hsrc
    obtain ⟨bs, hbs, -, hcomplete⟩ := hfrom src hname
    obtain ⟨nh, hnearer, hall⟩ := hcomplete dst hdst hreach
    exact ⟨nh, hnearer, fun r hr => (hmem r).mpr ⟨src, hname, bs, hbs, hall r hr⟩⟩

/-! ## Paths -/

/-- The interfaces of a stack have addresses of their own. -/
structure Distinct (h : NetworkHandle) (st : Stack) : Prop where
  address : ∀ f ∈ h.interfaces, ∀ g ∈ h.interfaces, f.stack = st → g.stack = st →
    f.addr.1 = g.addr.1 → f = g
  gateway : ∀ f ∈ h.interfaces, ∀ g ∈ h.interfaces, f.stack = st → g.stack = st →
    f.addr.2 = g.addr.2 → f = g

/-- An address belongs to one node. -/
theorem Wired.firstAddress_injective (hw : Wired ns3 version attached links lans h)
    (hdistinct : Distinct h st) {u v : NodeName} {a : Address}
    (hu : h.firstAddress st u = some a) (hv : h.firstAddress st v = some a) : u = v := by
  obtain ⟨f, hf, hfst, hfnode, hfa⟩ :=
    hw.recorded.recorded.addrs u st a (List.mem_of_mem_head? hu)
  obtain ⟨g, hg, hgst, hgnode, hga⟩ :=
    hw.recorded.recorded.addrs v st a (List.mem_of_mem_head? hv)
  obtain rfl := hdistinct.address f hf g hg hfst hgst (hfa.trans hga.symm)
  exact hfnode.symm.trans hgnode

/-- The next hop of a route is the node that owns the address. -/
theorem Via.owner (hdistinct : Distinct h st) {r : Route}
    (hr : Via ns3 h st src dst nh r) : h.owner st r.nextHop = some nh := by
  obtain ⟨f, hf, -, -, hfst, -, hfnode, -, -, hnext, -⟩ := hr.interfaces
  have hfound : (h.interfaces.find? fun f => f.stack = st ∧ f.addr.2 = r.nextHop).isSome :=
    List.find?_isSome.mpr ⟨f, hf, decide_eq_true ⟨hfst, hnext.symm⟩⟩
  obtain ⟨g, hg⟩ := Option.isSome_iff_exists.mp hfound
  have hcond := List.find?_some hg
  obtain ⟨hgst, hga⟩ := of_decide_eq_true hcond
  obtain rfl := hdistinct.gateway f hf g (List.mem_of_find?_eq_some hg) hfst hgst
    (hnext.symm.trans hga.symm)
  rw [NetworkHandle.owner, hg, Option.map_some, hfnode]

/-- Routes that go nearer to every destination that can be reached. -/
structure Complete (ns3 : Ns3) (G : SimpleGraph NodeName) (h : NetworkHandle) (st : Stack)
    (attached : List NodeName) (routes : List Route) : Prop where
  sound : ∀ r ∈ routes, r.stack = st → ∃ src dst nh, Nearer G src dst nh ∧
    Via ns3 h st src dst nh r
  complete : ∀ src ∈ attached, ∀ dst, dst ≠ src → G.Reachable src dst →
    ∃ nh, ∃ r ∈ routes, Via ns3 h st src dst nh r

theorem Wired.complete (hw : Wired ns3 version attached links lans h)
    (hst : version.has st) {rounds : ℕ} (hrounds : attached.toFinset.card ≤ rounds) :
    ∃ routes, h.installStaticShortestPaths rounds = some routes ∧
      Complete ns3 (graph links lans) h st attached routes := by
  obtain ⟨routes, hroutes, hsound, hcomplete⟩ := hw.installed hrounds
  refine ⟨routes, hroutes, fun r hr hrst => ?_, fun src hsrc dst hdst hreach => ?_⟩
  · obtain ⟨src, dst, nh, hnearer, hvia⟩ := hsound r hr
    exact ⟨src, dst, nh, hnearer, (hw.mem_routesVia hst hnearer.adj).1 r hvia hrst⟩
  · obtain ⟨nh, hnearer, hall⟩ := hcomplete src hsrc dst hdst hreach
    obtain ⟨a, ha⟩ := hw.firstAddress hst hdst.symm hreach
    obtain ⟨r, hr, hvia⟩ := (hw.mem_routesVia hst hnearer.adj).2 a ha
    exact ⟨nh, r, hall r hr, hvia⟩

/-- A packet is forwarded to a node that is nearer. -/
theorem Wired.forward (hw : Wired ns3 version attached links lans h)
    (hdistinct : Distinct h st) {routes : List Route}
    (hroutes : Complete ns3 (graph links lans) h st attached routes)
    (hsrc : src ∈ attached) (hne : dst ≠ src) (hreach : (graph links lans).Reachable src dst) :
    ∃ nh, h.forward routes st dst src = some nh ∧ Nearer (graph links lans) src dst nh := by
  obtain ⟨_, r, hr, hvia⟩ := hroutes.complete src hsrc dst hne hreach
  have hfound : (routes.find? fun r' => r'.stack = st ∧ r'.node = src ∧
      r'.destination = r.destination).isSome :=
    List.find?_isSome.mpr ⟨r, hr, decide_eq_true ⟨hvia.stack, hvia.node, rfl⟩⟩
  obtain ⟨r', hr'⟩ := Option.isSome_iff_exists.mp hfound
  have hcond := List.find?_some hr'
  obtain ⟨hst', hnode', hdest'⟩ := of_decide_eq_true hcond
  obtain ⟨src', dst', nh, hnearer, hvia'⟩ :=
    hroutes.sound r' (List.mem_of_find?_eq_some hr') hst'
  obtain rfl : src' = src := hvia'.node.symm.trans hnode'
  obtain rfl : dst' = dst :=
    hw.firstAddress_injective hdistinct hvia'.destination (hdest' ▸ hvia.destination)
  refine ⟨nh, ?_, hnearer⟩
  rw [NetworkHandle.forward, hvia.destination, Option.bind_some, hr', Option.bind_some,
    hvia'.owner hdistinct]

/-- What following the next hops visits; `d` is the distance. -/
theorem Wired.follow (hw : Wired ns3 version attached links lans h)
    (hdistinct : Distinct h st) {routes : List Route}
    (hroutes : Complete ns3 (graph links lans) h st attached routes) (dst : NodeName) :
    ∀ (d : ℕ) {u : NodeName}, u ∈ attached → (graph links lans).Reachable u dst →
      (graph links lans).dist u dst = d → ∃ p,
        (∀ hops, d ≤ hops → h.follow routes st dst hops u = u :: p) ∧ p.length = d ∧
        (u :: p).IsChain (graph links lans).Adj ∧ (u :: p).getLast? = some dst ∧
        (u :: p).Nodup ∧ ∀ v ∈ p, (graph links lans).dist v dst < d := by
  intro d
  induction d with
  | zero =>
      intro u hu hreach hdist
      obtain rfl := hreach.dist_eq_zero_iff.mp hdist
      refine ⟨[], fun hops _ => ?_, rfl, .singleton u, rfl, List.nodup_singleton u,
        fun v hv => absurd hv List.not_mem_nil⟩
      cases hops with
      | zero => rfl
      | succ hops => rw [NetworkHandle.follow, if_pos rfl]
  | succ d ih =>
      intro u hu hreach hdist
      have hne : dst ≠ u := by
        rintro rfl
        rw [SimpleGraph.dist_self] at hdist
        exact absurd hdist (by simp)
      obtain ⟨nh, hforward, hnearer⟩ := hw.forward hdistinct hroutes hu hne hreach
      have hdist' : (graph links lans).dist nh dst = d :=
        Nat.succ.inj (hnearer.dist.trans hdist)
      obtain ⟨p, hfollow, hlength, hchain, hlast, hnodup, hless⟩ :=
        ih (hw.adj_attached hnearer.adj).2 hnearer.reachable hdist'
      have hall : ∀ v ∈ nh :: p, (graph links lans).dist v dst < d + 1 := by
        intro v hv
        rcases List.mem_cons.mp hv with rfl | hv
        · exact hdist' ▸ Nat.lt_succ_self _
        · exact (hless v hv).trans (Nat.lt_succ_self d)
      refine ⟨nh :: p, fun hops hhops => ?_, congrArg (· + 1) hlength,
        List.isChain_cons_cons.mpr ⟨hnearer.adj, hchain⟩, ?_, ?_, hall⟩
      · cases hops with
        | zero => exact absurd hhops (Nat.not_succ_le_zero d)
        | succ hops =>
            rw [NetworkHandle.follow, if_neg hne.symm, hforward]
            exact congrArg (u :: ·) (hfollow hops (Nat.le_of_succ_le_succ hhops))
      · rw [List.getLast?_cons_cons]
        exact hlast
      · refine List.nodup_cons.mpr ⟨fun hmem => ?_, hnodup⟩
        exact absurd (hall u hmem) (hdist ▸ lt_irrefl _)

/-- The routes are shortest, without loops and complete: a node has one to the first
address of another node when the two are connected, its next hop is an interface of a
node on a segment that both are on, and a packet takes as many hops as the graph has
between the two and visits no node twice. -/
theorem static_routes_shortest (hw : Wired ns3 version attached links lans h)
    (hst : version.has st) (hdistinct : Distinct h st) {rounds : ℕ}
    (hrounds : attached.toFinset.card ≤ rounds) :
    ∃ routes, h.installStaticShortestPaths rounds = some routes ∧
      (∀ src ∈ attached, ∀ dst, dst ≠ src →
        ((∃ r ∈ routes, r.stack = st ∧ r.node = src ∧
          h.firstAddress st dst = some r.destination) ↔
            (graph links lans).Reachable src dst)) ∧
      (∀ r ∈ routes, r.stack = st → ∃ nh, nh ≠ r.node ∧ h.owner st r.nextHop = some nh ∧
        ∃ s ∈ segments links lans, r.node ∈ s.2 ∧ nh ∈ s.2) ∧
      ∀ src ∈ attached, ∀ dst, (graph links lans).Reachable src dst → ∃ p,
        (∀ hops, (graph links lans).dist src dst ≤ hops →
          h.follow routes st dst hops src = src :: p) ∧
        p.length = (graph links lans).dist src dst ∧
        (src :: p).IsChain (graph links lans).Adj ∧
        (src :: p).getLast? = some dst ∧ (src :: p).Nodup := by
  obtain ⟨routes, hinstall, hroutes⟩ := hw.complete hst hrounds
  refine ⟨routes, hinstall, fun src hsrc dst hne => ⟨?_, fun hreach => ?_⟩,
    fun r hr hrst => ?_, fun src hsrc dst hreach => ?_⟩
  · rintro ⟨r, hr, hrst, rfl, hdest⟩
    obtain ⟨src', dst', nh, hnearer, hvia⟩ := hroutes.sound r hr hrst
    obtain rfl := hw.firstAddress_injective hdistinct hdest hvia.destination
    rw [hvia.node]
    exact hnearer.adj.reachable.trans hnearer.reachable
  · obtain ⟨nh, r, hr, hvia⟩ := hroutes.complete src hsrc dst hne hreach
    exact ⟨r, hr, hvia.stack, hvia.node, hvia.destination⟩
  · obtain ⟨src, dst, nh, hnearer, hvia⟩ := hroutes.sound r hr hrst
    refine ⟨nh, ?_, hvia.owner hdistinct, ?_⟩
    · rw [hvia.node]
      exact hnearer.adj.ne'
    · rw [hvia.node]
      exact hnearer.adj.2
  · obtain ⟨p, hfollow, hlength, hchain, hlast, hnodup, -⟩ :=
      hw.follow hdistinct hroutes dst _ hsrc hreach rfl
    exact ⟨p, hfollow, hlength, hchain, hlast, hnodup⟩

end Network

/-! ## Two links in a row -/

/-- The middle node has a device on `l1` and then one on `l2`. -/
def rowNs3 : Ns3 :=
  { countingNs3 with
    interfaceForDevice := fun _ seg i => if seg = "l2" ∧ i = 0 then 2 else 1 }

/-- A route over the middle node. -/
theorem static_route_over_middle : ∃ h routes,
    build rowNs3 .V4 ["A", "B", "C"] [⟨"l1", "A", "B"⟩, ⟨"l2", "B", "C"⟩] [] = .ok h ∧
      h.installStaticShortestPaths 3 = some routes ∧
      ∃ r ∈ routes, r.stack = .v4 ∧ r.node = "A" ∧
        h.firstAddress .v4 "C" = some r.destination := by
  have hbuild : build rowNs3 .V4 ["A", "B", "C"] [⟨"l1", "A", "B"⟩, ⟨"l2", "B", "C"⟩] [] =
    .ok _ := rfl
  have hindex : ∀ st seg i, rowNs3.interfaceForDevice st seg i ≠ uint32Max := by
    intro st seg i
    show (if seg = "l2" ∧ i = 0 then 2 else 1) ≠ uint32Max
    split_ifs
    · decide
    · decide
  have hAB : (graph [⟨"l1", "A", "B"⟩, ⟨"l2", "B", "C"⟩] []).Adj "A" "B" :=
    ⟨by decide, ("l1", ["A", "B"]), by decide, by decide, by decide⟩
  have hBC : (graph [⟨"l1", "A", "B"⟩, ⟨"l2", "B", "C"⟩] []).Adj "B" "C" :=
    ⟨by decide, ("l2", ["B", "C"]), by decide, by decide, by decide⟩
  obtain ⟨routes, hroutes, hiff, -⟩ := static_routes_shortest
    ⟨hbuild, by decide, by decide, by decide, hindex⟩ (show IpVersion.V4.has .v4 from rfl)
    ⟨by decide, by decide⟩ (show ["A", "B", "C"].toFinset.card ≤ 3 by decide)
  exact ⟨_, routes, hbuild, hroutes, (hiff "A" (by decide) "C" (by decide)).mpr
    (hAB.reachable.trans hBC.reachable)⟩

/-- A node without a name is taken for no next hop, and a segment without a name for no
shared segment. -/
theorem nameless_middle_no_route :
    (∃ h routes,
      build rowNs3 .V4 ["A", "", "C"] [⟨"l1", "A", ""⟩, ⟨"l2", "", "C"⟩] [] = .ok h ∧
        Distinct h .v4 ∧ h.installStaticShortestPaths 3 = some routes ∧
        (graph [⟨"l1", "A", ""⟩, ⟨"l2", "", "C"⟩] []).Reachable "A" "C" ∧
        ¬ ∃ r ∈ routes, r.stack = .v4 ∧ r.node = "A" ∧
          h.firstAddress .v4 "C" = some r.destination) ∧
    ∃ h routes, build rowNs3 .V4 ["A", "B"] [⟨"", "A", "B"⟩] [] = .ok h ∧
      Distinct h .v4 ∧ h.installStaticShortestPaths 2 = some routes ∧
      (graph [⟨"", "A", "B"⟩] []).Reachable "A" "B" ∧
      ¬ ∃ r ∈ routes, r.stack = .v4 ∧ r.node = "A" ∧
        h.firstAddress .v4 "B" = some r.destination := by
  have hfirst : (graph [⟨"l1", "A", ""⟩, ⟨"l2", "", "C"⟩] []).Adj "A" "" :=
    ⟨by decide, ("l1", ["A", ""]), by decide, by decide, by decide⟩
  have hsecond : (graph [⟨"l1", "A", ""⟩, ⟨"l2", "", "C"⟩] []).Adj "" "C" :=
    ⟨by decide, ("l2", ["", "C"]), by decide, by decide, by decide⟩
  have hsegment : (graph [⟨"", "A", "B"⟩] []).Adj "A" "B" :=
    ⟨by decide, ("", ["A", "B"]), by decide, by decide, by decide⟩
  exact ⟨⟨_, _, rfl, ⟨by decide, by decide⟩, rfl,
      hfirst.reachable.trans hsecond.reachable, by decide⟩,
    _, _, rfl, ⟨by decide, by decide⟩, rfl, hsegment.reachable, by decide⟩

end Q2NS.Classical
