import Q2NS.Classical.Builder
import Mathlib.Data.List.Zip

/-!
# What the builder records

The entries of a `NetworkHandle` against the interfaces that have been installed.
-/

namespace Q2NS.Classical

open OrderedMap

variable {ns3 : Ns3}

/-- An interface of a node on a segment. -/
structure Interface where
  stack : Stack
  id : SegmentId
  node : NodeName
  index : ℕ
  addr : Address × Address
  deriving DecidableEq

/-- The interfaces of a segment. -/
def Installed.interfaces (x : Installed) : List Interface :=
  x.members.zipIdx.map fun m => ⟨x.stack, x.id, m.1, m.2, x.address m.2⟩

namespace NetworkHandle

/-- The interfaces of the network. -/
def interfaces (h : NetworkHandle) : List Interface :=
  h.installed.flatMap Installed.interfaces

/-- The names of the nodes, in order. -/
def names (h : NetworkHandle) : List NodeName := h.nodes.map Prod.fst

/-- `h.nodes.at`. -/
def entry (h : NetworkHandle) (name : NodeName) : NodeEntry :=
  (h.nodes.lookup name).getD {}

end NetworkHandle

/-! ## One interface after the other -/

/-- The entries are those of the interfaces in a list. -/
structure RecordedBy (ns3 : Ns3) (fs : List Interface)
    (nodes : List (NodeName × NodeEntry)) : Prop where
  seg : ∀ name seg, ((((nodes.lookup name).getD {}).segIf).lookup seg).isSome ↔
    ∃ f ∈ fs, f.id = seg ∧ f.node = name
  info : ∀ name seg info, (((nodes.lookup name).getD {}).segIf).lookup seg = some info →
    ∀ st, (∃ f ∈ fs, f.stack = st ∧ f.id = seg ∧ f.node = name) →
      ∃ f ∈ fs, f.stack = st ∧ f.id = seg ∧ f.node = name ∧
        info.address st = f.addr.1 ∧ info.gateway st = f.addr.2 ∧
        info.ifIndex st = ns3.interfaceForDevice st seg f.index
  addrs : ∀ name st, ∀ a ∈ ((nodes.lookup name).getD {}).addrs st,
    ∃ f ∈ fs, f.stack = st ∧ f.node = name ∧ f.addr.1 = a
  someAddr : ∀ f ∈ fs, ((nodes.lookup f.node).getD {}).addrs f.stack ≠ []

theorem addrs_addInterface (st : Stack) (seg : SegmentId) (i : ℕ) (addr : Address × Address)
    (entry : NodeEntry) (st' : Stack) :
    (entry.addInterface st seg i addr).addrs st' =
      if st' = st then entry.addrs st ++ [addr.1] else entry.addrs st' := by
  show Function.update entry.addrs st _ st' = _
  by_cases hst : st' = st
  · rw [if_pos hst, hst, Function.update_self]
  · rw [if_neg hst, Function.update_of_ne hst]

/-- One more interface. -/
theorem RecordedBy.add {fs : List Interface} {nodes : List (NodeName × NodeEntry)}
    (h : RecordedBy ns3 fs nodes) (f : Interface) :
    RecordedBy ns3 (fs ++ [f]) (modify f.node (NodeEntry.addInterface f.stack f.id
      (ns3.interfaceForDevice f.stack f.id f.index) f.addr) nodes) := by
  have hlookup : ∀ name, ((modify f.node (NodeEntry.addInterface f.stack f.id
      (ns3.interfaceForDevice f.stack f.id f.index) f.addr) nodes).lookup name).getD {} =
        if name = f.node then NodeEntry.addInterface f.stack f.id
          (ns3.interfaceForDevice f.stack f.id f.index) f.addr
          ((nodes.lookup f.node).getD {})
        else (nodes.lookup name).getD {} := by
    intro name
    rw [lookup_modify]
    split_ifs <;> rfl
  have hmem : ∀ {P : Interface → Prop}, (∃ g ∈ fs ++ [f], P g) ↔ (∃ g ∈ fs, P g) ∨ P f := by
    intro P
    simp only [List.mem_append, List.mem_singleton, or_and_right, exists_or, exists_eq_left]
  refine ⟨fun name seg => ?_, fun name seg info hinfo st hst => ?_, fun name st a ha => ?_,
    fun g hg => ?_⟩
  · rw [hlookup, hmem]
    split_ifs with hname
    · rw [NodeEntry.addInterface, lookup_modify]
      split_ifs with hseg
      · exact ⟨fun _ => .inr ⟨hseg.symm, hname.symm⟩, fun _ => rfl⟩
      · rw [h.seg, ← hname]
        exact (or_iff_left fun hf => hseg hf.1.symm).symm
    · rw [h.seg]
      exact (or_iff_left fun hf => hname hf.2.symm).symm
  · rw [hlookup] at hinfo
    rw [hmem] at hst ⊢
    split_ifs at hinfo with hname
    · rw [NodeEntry.addInterface, lookup_modify] at hinfo
      split_ifs at hinfo with hseg
      · obtain rfl := Option.some.inj hinfo
        by_cases hstack : st = f.stack
        · subst hstack
          refine .inr ⟨rfl, hseg.symm, hname.symm, ?_, ?_, ?_⟩
          · exact Function.update_self ..
          · exact Function.update_self ..
          · exact (Function.update_self ..).trans (by rw [hseg])
        · have hold : ∃ g ∈ fs, g.stack = st ∧ g.id = seg ∧ g.node = name :=
            hst.resolve_right fun hf => hstack hf.1.symm
          obtain ⟨g, hg, hgst, hgid, hgnode⟩ := hold
          have hsome := (h.seg name seg).mpr ⟨g, hg, hgid, hgnode⟩
          obtain ⟨old, hold⟩ := Option.isSome_iff_exists.mp hsome
          obtain ⟨g', hg', hst', hid', hnode', haddr, hgw, hidx⟩ :=
            h.info name seg old hold st ⟨g, hg, hgst, hgid, hgnode⟩
          have hgetD : ((((nodes.lookup f.node).getD {}).segIf).lookup f.id).getD
              default = old := by
            rw [← hname, ← hseg, hold]
            rfl
          refine .inl ⟨g', hg', hst', hid', hnode', ?_, ?_, ?_⟩
          · exact (Function.update_of_ne hstack ..).trans (hgetD ▸ haddr)
          · exact (Function.update_of_ne hstack ..).trans (hgetD ▸ hgw)
          · exact (Function.update_of_ne hstack ..).trans (hgetD ▸ hidx)
      · refine .inl (h.info name seg info (hname ▸ hinfo) st ?_)
        exact hst.resolve_right fun hf => hseg hf.2.1.symm
    · refine .inl (h.info name seg info hinfo st ?_)
      exact hst.resolve_right fun hf => hname hf.2.2.symm
  · rw [hlookup] at ha
    rw [hmem]
    split_ifs at ha with hname
    · rw [addrs_addInterface] at ha
      split_ifs at ha with hstack
      · rcases List.mem_append.mp ha with ha | ha
        · exact .inl (hstack ▸ h.addrs name _ a (hname ▸ ha))
        · exact .inr ⟨hstack.symm, hname.symm, (List.mem_singleton.mp ha).symm⟩
      · exact .inl (h.addrs name st a (hname ▸ ha))
    · exact .inl (h.addrs name st a ha)
  · rw [hlookup]
    split_ifs with hname
    · rw [addrs_addInterface]
      split_ifs with hstack
      · exact List.append_ne_nil_of_right_ne_nil _ (List.cons_ne_nil _ _)
      · rcases List.mem_append.mp hg with hg | hg
        · exact hname ▸ h.someAddr g hg
        · exact absurd (congrArg Interface.stack (List.mem_singleton.mp hg)) hstack
    · rcases List.mem_append.mp hg with hg | hg
      · exact h.someAddr g hg
      · exact absurd (congrArg Interface.node (List.mem_singleton.mp hg)) hname

/-- All interfaces of a segment. -/
theorem RecordedBy.install {h : NetworkHandle} (hrec : RecordedBy ns3 h.interfaces h.nodes)
    (st : Stack) (seg : SegmentId) (members : List NodeName)
    (address : ℕ → Address × Address) :
    RecordedBy ns3 (h.install ns3 st seg members address).interfaces
      (h.install ns3 st seg members address).nodes := by
  have hall : ∀ (ms : List (NodeName × ℕ)) (fs : List Interface)
      (nodes : List (NodeName × NodeEntry)), RecordedBy ns3 fs nodes →
        RecordedBy ns3 (fs ++ ms.map fun m => ⟨st, seg, m.1, m.2, address m.2⟩)
          (ms.foldl (fun nodes m => modify m.1 (NodeEntry.addInterface st seg
            (ns3.interfaceForDevice st seg m.2) (address m.2)) nodes) nodes) := by
    intro ms
    induction ms with
    | nil =>
        intro fs nodes h
        rwa [List.map_nil, List.append_nil]
    | cons m ms ih =>
        intro fs nodes h
        have hnext := ih _ _ (h.add ⟨st, seg, m.1, m.2, address m.2⟩)
        rwa [List.append_assoc, List.singleton_append] at hnext
  have hmore := hall members.zipIdx _ _ hrec
  have hfs : (h.install ns3 st seg members address).interfaces = h.interfaces ++
      members.zipIdx.map fun m => ⟨st, seg, m.1, m.2, address m.2⟩ := by
    rw [NetworkHandle.interfaces, NetworkHandle.install, List.flatMap_append,
      List.flatMap_singleton]
    rfl
  rw [hfs]
  exact hmore

/-! ## The whole network -/

/-- The segments and their members. -/
def segments (links : List Link) (lans : List Lan) : List (SegmentId × List NodeName) :=
  links.map (fun l => (l.id, [l.nodeA, l.nodeB])) ++ lans.map fun lan => (lan.id, lan.members)

/-- A segment on the stacks that are there. -/
def onStacks (has : Stack → Bool) (s : SegmentId × List NodeName) :
    List (Stack × SegmentId × List NodeName) :=
  (if has .v4 then [(.v4, s)] else []) ++ if has .v6 then [(.v6, s)] else []

theorem mem_onStacks {has : Stack → Bool} {s : SegmentId × List NodeName}
    {x : Stack × SegmentId × List NodeName} : x ∈ onStacks has s ↔ has x.1 ∧ x.2 = s := by
  obtain ⟨st, y⟩ := x
  rw [onStacks, List.mem_append]
  cases st <;> split_ifs <;> simp [*]

/-- What holds of a network while segments are installed; `done` are those that have
been. -/
structure Recorded (ns3 : Ns3) (has : Stack → Bool) (attached : List NodeName)
    (done : List (Stack × SegmentId × List NodeName)) (h : NetworkHandle) : Prop where
  has_eq : h.has = has
  names : ∀ name, name ∈ h.names ↔ name ∈ attached
  recorded : RecordedBy ns3 h.interfaces h.nodes
  shape : (h.installed.map fun x => (x.stack, x.id, x.members)) = done
  members : ∀ x ∈ done, ∀ m ∈ x.2.2, m ∈ attached

theorem names_modify (nodes : List (NodeName × NodeEntry)) (k : NodeName)
    (f : NodeEntry → NodeEntry) (name : NodeName) :
    name ∈ (modify k f nodes).map Prod.fst ↔ name = k ∨ name ∈ nodes.map Prod.fst := by
  rw [← lookup_isSome, ← lookup_isSome, lookup_modify]
  split_ifs with hk
  · exact ⟨fun _ => .inl hk, fun _ => rfl⟩
  · exact (or_iff_right hk).symm

theorem names_install {h : NetworkHandle} {members : List NodeName}
    (hmembers : ∀ m ∈ members, m ∈ h.names) (st : Stack) (seg : SegmentId)
    (address : ℕ → Address × Address) (name : NodeName) :
    name ∈ (h.install ns3 st seg members address).names ↔ name ∈ h.names := by
  have hall : ∀ (ms : List (NodeName × ℕ)) (nodes : List (NodeName × NodeEntry)),
      (∀ m ∈ ms, m.1 ∈ nodes.map Prod.fst) → ∀ name,
        name ∈ (ms.foldl (fun nodes m => modify m.1 (NodeEntry.addInterface st seg
          (ns3.interfaceForDevice st seg m.2) (address m.2)) nodes) nodes).map Prod.fst ↔
        name ∈ nodes.map Prod.fst := by
    intro ms
    induction ms with
    | nil => exact fun _ _ _ => Iff.rfl
    | cons m ms ih =>
        intro nodes hms name
        have hm := hms m List.mem_cons_self
        rw [List.foldl_cons, ih _ fun m' hm' => (names_modify ..).mpr
          (.inr (hms m' (List.mem_cons_of_mem _ hm'))), names_modify]
        exact or_iff_right_of_imp fun he => he ▸ hm
  exact hall _ _ (fun m hm => hmembers m.1 (List.fst_mem_of_mem_zipIdx hm)) name

/-- A segment on a stack, if it is there. -/
theorem Recorded.installOn {has : Stack → Bool} {attached : List NodeName}
    {done : List (Stack × SegmentId × List NodeName)} {h : NetworkHandle}
    (hrec : Recorded ns3 has attached done h) (seg : SegmentId) {members : List NodeName}
    (hmembers : ∀ m ∈ members, m ∈ attached) (st : Stack)
    (address : ℕ → Address × Address) :
    Recorded ns3 has attached (done ++ if has st then [(st, seg, members)] else [])
      (if h.has st then h.install ns3 st seg members address else h) := by
  rw [hrec.has_eq]
  split_ifs
  · refine ⟨hrec.has_eq, fun name => ?_, hrec.recorded.install st seg members address, ?_,
      fun x hx => ?_⟩
    · refine (names_install (fun m hm => ?_) st seg address name).trans (hrec.names name)
      exact (hrec.names m).mpr (hmembers m hm)
    · rw [NetworkHandle.install, List.map_append, hrec.shape]
      rfl
    · rcases List.mem_append.mp hx with hx | hx
      · exact hrec.members x hx
      · rw [List.mem_singleton.mp hx]
        exact hmembers
  · rwa [List.append_nil]

theorem nodesAt_ok {h : NetworkHandle} {members : List NodeName} {u : Unit}
    (hok : h.nodesAt members = .ok u) : ∀ m ∈ members, m ∈ h.names := by
  rw [NetworkHandle.nodesAt] at hok
  split_ifs at hok with hall
  exact hall

theorem Recorded.buildLink {has : Stack → Bool} {attached : List NodeName}
    {done : List (Stack × SegmentId × List NodeName)} {acc acc' : NetworkHandle × Helpers ns3}
    (hrec : Recorded ns3 has attached done acc.1) {l : Link}
    (hbuild : Classical.buildLink ns3 acc l = .ok acc') :
    Recorded ns3 has attached (done ++ onStacks has (l.id, [l.nodeA, l.nodeB])) acc'.1 := by
  obtain ⟨u, hat, hacc⟩ := Loop.bind_eq_ok.mp hbuild
  obtain rfl := Except.ok.inj hacc
  have hmembers : ∀ m ∈ [l.nodeA, l.nodeB], m ∈ attached := fun m hm =>
    (hrec.names m).mp (nodesAt_ok hat m hm)
  have hone : ∀ (st : Stack) (a : NetworkHandle × Helpers ns3), (linkOn ns3 l a st).1 =
      if a.1.has st then a.1.install ns3 st l.id [l.nodeA, l.nodeB]
        (ns3.assign st 2 (ns3.newNetwork st (a.2 st))).1 else a.1 := by
    intro st a
    rw [linkOn]
    split_ifs <;> rfl
  rw [List.foldl_cons, List.foldl_cons, List.foldl_nil, hone .v6, onStacks,
    ← List.append_assoc]
  refine Recorded.installOn ?_ l.id hmembers .v6 _
  rw [hone .v4]
  exact hrec.installOn l.id hmembers .v4 _

theorem Recorded.buildLan {has : Stack → Bool} {attached : List NodeName}
    {done : List (Stack × SegmentId × List NodeName)} {h h' : NetworkHandle}
    (hrec : Recorded ns3 has attached done h) {lan : Lan}
    (hbuild : Classical.buildLan ns3 h lan = .ok h') :
    Recorded ns3 has attached (done ++ onStacks has (lan.id, lan.members)) h' := by
  obtain ⟨u, hat, hacc⟩ := Loop.bind_eq_ok.mp hbuild
  obtain rfl := Except.ok.inj hacc
  have hmembers : ∀ m ∈ lan.members, m ∈ attached := fun m hm =>
    (hrec.names m).mp (nodesAt_ok hat m hm)
  rw [List.foldl_cons, List.foldl_cons, List.foldl_nil, onStacks, ← List.append_assoc]
  exact (hrec.installOn lan.id hmembers .v4 _).installOn lan.id hmembers .v6 _

theorem names_attachNodes (attached : List NodeName) (name : NodeName) :
    name ∈ (attachNodes attached).map Prod.fst ↔ name ∈ attached := by
  have hall : ∀ (l : List NodeName) (nodes : List (NodeName × NodeEntry)),
      name ∈ (l.foldl (fun nodes n => insert n {} nodes) nodes).map Prod.fst ↔
        name ∈ l ∨ name ∈ nodes.map Prod.fst := by
    intro l
    induction l with
    | nil => exact fun nodes => (or_iff_right List.not_mem_nil).symm
    | cons n l ih =>
        intro nodes
        rw [List.foldl_cons, ih, ← lookup_isSome, lookup_insert, List.mem_cons,
          ← lookup_isSome]
        split_ifs with hn
        · simp [hn]
        · simp [hn]
  exact (hall attached []).trans (or_iff_left List.not_mem_nil)

theorem entry_attachNodes (attached : List NodeName) (name : NodeName) :
    ((attachNodes attached).lookup name).getD {} = {} := by
  have hall : ∀ (l : List NodeName) (nodes : List (NodeName × NodeEntry)),
      (nodes.lookup name).getD {} = {} →
        ((l.foldl (fun nodes n => insert n {} nodes) nodes).lookup name).getD {} = {} := by
    intro l
    induction l with
    | nil => exact fun nodes h => h
    | cons n l ih =>
        intro nodes h
        refine ih _ ?_
        rw [lookup_insert]
        split_ifs
        · rfl
        · exact h
  exact hall attached [] rfl

/-- The entries of a network are those of its interfaces. -/
theorem recorded_build {version : IpVersion} {attached : List NodeName}
    {links : List Link} {lans : List Lan} {h : NetworkHandle}
    (hbuild : build ns3 version attached links lans = .ok h) :
    Recorded ns3 version.has attached
      ((segments links lans).flatMap (onStacks version.has)) h := by
  obtain ⟨h₁, hfirst, hlans⟩ := Loop.bind_eq_ok.mp hbuild
  obtain ⟨acc, hlinks, hh₁⟩ := Loop.bind_eq_ok.mp hfirst
  obtain rfl := Except.ok.inj hh₁
  have hstart : Recorded ns3 version.has attached []
      { has := version.has, nodes := attachNodes attached } := by
    refine ⟨rfl, names_attachNodes attached, ⟨fun name seg => ?_, fun name seg info hinfo => ?_,
      fun name st a ha => ?_, fun f hf => absurd hf List.not_mem_nil⟩, rfl,
      fun x hx => absurd hx List.not_mem_nil⟩
    · rw [entry_attachNodes]
      refine ⟨fun hs => absurd hs Bool.false_ne_true, ?_⟩
      rintro ⟨f, hf, -⟩
      exact absurd hf List.not_mem_nil
    · rw [entry_attachNodes] at hinfo
      exact absurd hinfo (Option.some_ne_none info).symm
    · rw [entry_attachNodes] at ha
      exact absurd ha List.not_mem_nil
  have hlinkLoop : ∀ (links : List Link) done (acc acc' : NetworkHandle × Helpers ns3),
      Recorded ns3 version.has attached done acc.1 →
      links.foldlM (Classical.buildLink ns3) acc = .ok acc' →
        Recorded ns3 version.has attached (done ++ links.flatMap fun l =>
          onStacks version.has (l.id, [l.nodeA, l.nodeB])) acc'.1 := by
    intro links
    induction links with
    | nil =>
        intro done acc acc' hrec hacc
        obtain rfl := Except.ok.inj hacc
        rwa [List.flatMap_nil, List.append_nil]
    | cons l links ih =>
        intro done acc acc' hrec hacc
        rw [List.foldlM_cons] at hacc
        obtain ⟨acc₁, hfirst, hrest⟩ := Loop.bind_eq_ok.mp hacc
        rw [List.flatMap_cons, ← List.append_assoc]
        exact ih _ _ _ (hrec.buildLink hfirst) hrest
  have hlanLoop : ∀ (lans : List Lan) done (g g' : NetworkHandle),
      Recorded ns3 version.has attached done g →
      lans.foldlM (Classical.buildLan ns3) g = .ok g' →
        Recorded ns3 version.has attached (done ++ lans.flatMap fun lan =>
          onStacks version.has (lan.id, lan.members)) g' := by
    intro lans
    induction lans with
    | nil =>
        intro done g g' hrec hg
        obtain rfl := Except.ok.inj hg
        rwa [List.flatMap_nil, List.append_nil]
    | cons lan lans ih =>
        intro done g g' hrec hg
        rw [List.foldlM_cons] at hg
        obtain ⟨g₁, hfirst, hrest⟩ := Loop.bind_eq_ok.mp hg
        rw [List.flatMap_cons, ← List.append_assoc]
        exact ih _ _ _ (hrec.buildLan hfirst) hrest
  have hall := hlanLoop lans _ _ _ (hlinkLoop links _ _ _ hstart hlinks) hlans
  rw [segments, List.flatMap_append, List.flatMap_map, List.flatMap_map]
  exact hall

/-- The interfaces are those of the members of the segments on the stacks. -/
theorem Recorded.mem_interfaces {has : Stack → Bool} {attached : List NodeName}
    {segs : List (SegmentId × List NodeName)} {h : NetworkHandle}
    (hrec : Recorded ns3 has attached (segs.flatMap (onStacks has)) h) {st : Stack}
    {seg : SegmentId} {name : NodeName} :
    (∃ f ∈ h.interfaces, f.stack = st ∧ f.id = seg ∧ f.node = name) ↔
      has st ∧ ∃ s ∈ segs, s.1 = seg ∧ name ∈ s.2 := by
  have hshape : ∀ y, (∃ x ∈ h.installed, (x.stack, x.id, x.members) = y) ↔
      has y.1 ∧ y.2 ∈ segs := by
    intro y
    rw [← List.mem_map, hrec.shape, List.mem_flatMap]
    simp only [mem_onStacks]
    exact ⟨fun ⟨s, hs, hst, he⟩ => ⟨hst, he ▸ hs⟩, fun ⟨hst, hs⟩ => ⟨_, hs, hst, rfl⟩⟩
  constructor
  · rintro ⟨f, hf, rfl, rfl, rfl⟩
    obtain ⟨x, hx, hfx⟩ := List.mem_flatMap.mp hf
    obtain ⟨m, hm, rfl⟩ := List.mem_map.mp hfx
    obtain ⟨hst, hs⟩ := (hshape _).mp ⟨x, hx, rfl⟩
    exact ⟨hst, _, hs, rfl, List.fst_mem_of_mem_zipIdx hm⟩
  · rintro ⟨hst, s, hs, rfl, hname⟩
    obtain ⟨x, hx, he⟩ := (hshape (st, s)).mpr ⟨hst, hs⟩
    obtain ⟨rfl, hid, hmembers⟩ : x.stack = st ∧ x.id = s.1 ∧ x.members = s.2 :=
      ⟨congrArg Prod.fst he, congrArg (fun y => y.2.1) he, congrArg (fun y => y.2.2) he⟩
    obtain ⟨i, hi⟩ := List.mem_iff_getElem?.mp hname
    rw [← hmembers] at hi
    exact ⟨_, List.mem_flatMap.mpr ⟨x, hx, List.mem_map.mpr
      ⟨(name, i), List.mk_mem_zipIdx_iff_getElem?.mpr hi, rfl⟩⟩, rfl, hid, rfl⟩

theorem IpVersion.exists_has (version : IpVersion) : ∃ st, version.has st := by
  cases version
  · exact ⟨.v4, rfl⟩
  · exact ⟨.v6, rfl⟩
  · exact ⟨.v4, rfl⟩

/-- A node has an entry for a segment when it is a member. -/
theorem Recorded.onSegment {version : IpVersion} {attached : List NodeName}
    {segs : List (SegmentId × List NodeName)} {h : NetworkHandle}
    (hrec : Recorded ns3 version.has attached (segs.flatMap (onStacks version.has)) h)
    {seg : SegmentId} {name : NodeName} :
    (((h.entry name).segIf).lookup seg).isSome ↔ ∃ s ∈ segs, s.1 = seg ∧ name ∈ s.2 := by
  have hseg := hrec.recorded.seg name seg
  rw [NetworkHandle.entry, hseg]
  constructor
  · rintro ⟨f, hf, hid, hnode⟩
    exact (hrec.mem_interfaces.mp ⟨f, hf, rfl, hid, hnode⟩).2
  · intro hs
    obtain ⟨st, hst⟩ := version.exists_has
    obtain ⟨f, hf, -, hid, hnode⟩ := hrec.mem_interfaces.mpr ⟨hst, hs⟩
    exact ⟨f, hf, hid, hnode⟩

end Q2NS.Classical
