import Q2NS.Lib.Loop
import Q2NS.Lib.OrderedMap
import Q2NS.Types
import Mathlib.Data.String.Basic

/-!
# The classical network builder

`ClassicalNetworkBuilder` installs point-to-point links and LANs between named nodes
and numbers their interfaces.  The devices, channels, rates and delays are left out;
what ns-3 does is a parameter.
-/

namespace Q2NS.Classical

open OrderedMap

abbrev NodeName := String

abbrev SegmentId := String

/-- An IP address as a number. -/
abbrev Address := ℕ

/-- The two IP stacks. -/
inductive Stack where
  | v4
  | v6
  deriving DecidableEq

/-- `ClassicalNetworkBuilder::IpVersion`. -/
inductive IpVersion where
  | V4
  | V6
  | Dual
  deriving DecidableEq

/-- `hasIpv4` and `hasIpv6`. -/
def IpVersion.has : IpVersion → Stack → Bool
  | .V4, .v4 | .V6, .v6 | .Dual, _ => true
  | .V4, .v6 | .V6, .v4 => false

/-- `ClassicalNetworkBuilder::Link`. -/
structure Link where
  id : SegmentId
  nodeA : NodeName
  nodeB : NodeName
  deriving DecidableEq

/-- `ClassicalNetworkBuilder::Lan`. -/
structure Lan where
  id : SegmentId
  members : List NodeName
  deriving DecidableEq

/-- `UINT32_MAX`. -/
def uint32Max : ℕ := 4294967295

/-- `NetworkHandle::NodeEntry::IfaceInfo`: `ifIndexV4` and `ifIndexV6`, `v4` and `v6`,
and the address that neighbours route to, `v4` and `v6ll`. -/
structure IfaceInfo where
  ifIndex : Stack → ℕ := fun _ => uint32Max
  address : Stack → Address := fun _ => 0
  gateway : Stack → Address := fun st => if st = .v4 then 0 else 1

instance : Inhabited IfaceInfo := ⟨{}⟩

/-- `NetworkHandle::NodeEntry`: `v4Addrs` and `v6Addrs`, and `segIf`. -/
structure NodeEntry where
  addrs : Stack → List Address := fun _ => []
  segIf : List (SegmentId × IfaceInfo) := []

instance : Inhabited NodeEntry := ⟨{}⟩

/-- A segment that has been installed on a stack, and the address and the gateway of
each of its interfaces. -/
structure Installed where
  stack : Stack
  id : SegmentId
  members : List NodeName
  address : ℕ → Address × Address

/-- The addresses of the interfaces. -/
def Installed.addresses (x : Installed) : List Address :=
  (List.range x.members.length).map fun i => (x.address i).1

/-- `ClassicalNetworkBuilder::NetworkHandle`; `installed` is a ghost. -/
structure NetworkHandle where
  has : Stack → Bool
  nodes : List (NodeName × NodeEntry)
  installed : List Installed := []

/-- What `SetBase` is given: the number of the network and how many bits it has. -/
structure Base where
  network : ℕ
  length : ℕ

/-- What is used of ns-3: `Ipv4AddressHelper` and `Ipv6AddressHelper`, where the
addresses of a device are the one that is kept and the one that neighbours route to,
and the interface index of a device of a segment. -/
structure Ns3 where
  Helper : Stack → Type
  setBase : ∀ st, Base → Helper st
  newNetwork : ∀ st, Helper st → Helper st
  assign : ∀ st, ℕ → Helper st → (ℕ → Address × Address) × Helper st
  interfaceForDevice : Stack → SegmentId → ℕ → ℕ

variable (ns3 : Ns3)

/-- The nodes, in the order of their names, after `AttachNode` for each of these. -/
def attachNodes (attached : List NodeName) : List (NodeName × NodeEntry) :=
  attached.foldl (fun nodes name => insert name {} nodes) []

/-- The entries of an interface. -/
def NodeEntry.addInterface (st : Stack) (seg : SegmentId) (ifIndex : ℕ)
    (addr : Address × Address) (entry : NodeEntry) : NodeEntry where
  addrs := Function.update entry.addrs st (entry.addrs st ++ [addr.1])
  segIf := modify seg (fun info =>
    { ifIndex := Function.update info.ifIndex st ifIndex
      address := Function.update info.address st addr.1
      gateway := Function.update info.gateway st addr.2 }) entry.segIf

/-- The interfaces of a segment on one stack. -/
def NetworkHandle.install (h : NetworkHandle) (st : Stack) (seg : SegmentId)
    (members : List NodeName) (address : ℕ → Address × Address) : NetworkHandle :=
  { h with
    nodes := members.zipIdx.foldl (fun nodes m => modify m.1
      (NodeEntry.addInterface st seg (ns3.interfaceForDevice st seg m.2) (address m.2))
      nodes) h.nodes
    installed := h.installed ++ [⟨st, seg, members, address⟩] }

/-- `m_nodes.at` for each member. -/
def NetworkHandle.nodesAt (h : NetworkHandle) (members : List NodeName) :
    Except Exit Unit :=
  if ∀ m ∈ members, m ∈ h.nodes.map Prod.fst then .ok ()
  else .error (.thrown "map::at")

/-- The helpers of a loop over the segments. -/
abbrev Helpers := ∀ st, ns3.Helper st

/-- A link on one stack, in a network of its own. -/
def linkOn (l : Link) (acc : NetworkHandle × Helpers ns3) (st : Stack) :
    NetworkHandle × Helpers ns3 :=
  if acc.1.has st then
    let assigned := ns3.assign st 2 (ns3.newNetwork st (acc.2 st))
    (acc.1.install ns3 st l.id [l.nodeA, l.nodeB] assigned.1,
      Function.update acc.2 st assigned.2)
  else acc

/-- The body of the loop of `BuildLinks`. -/
def buildLink (acc : NetworkHandle × Helpers ns3) (l : Link) :
    Except Exit (NetworkHandle × Helpers ns3) := do
  acc.1.nodesAt [l.nodeA, l.nodeB]
  return [Stack.v4, Stack.v6].foldl (linkOn ns3 l) acc

/-- The bases in `BuildLinks`: 10.1.0.0/16 and 2001:db8::/64. -/
def linkBase : Stack → Base
  | .v4 => ⟨0x0a01, 16⟩
  | .v6 => ⟨0x20010db800000000, 64⟩

/-- The bases in `BuildLans`: 10.1.0.0/16 and 2001:db8:1::/64. -/
def lanBase : Stack → Base
  | .v4 => ⟨0x0a01, 16⟩
  | .v6 => ⟨0x20010db800010000, 64⟩

/-- `BuildLinks`. -/
def buildLinks (links : List Link) (h : NetworkHandle) : Except Exit NetworkHandle := do
  let acc ← links.foldlM (buildLink ns3) (h, fun st => ns3.setBase st (linkBase st))
  return acc.1

/-- A LAN on one stack; the helper is a new one. -/
def lanOn (lan : Lan) (h : NetworkHandle) (st : Stack) : NetworkHandle :=
  if h.has st then
    h.install ns3 st lan.id lan.members
      (ns3.assign st lan.members.length (ns3.setBase st (lanBase st))).1
  else h

/-- The body of the loop of `BuildLans`. -/
def buildLan (h : NetworkHandle) (lan : Lan) : Except Exit NetworkHandle := do
  h.nodesAt lan.members
  return [Stack.v4, Stack.v6].foldl (lanOn ns3 lan) h

/-- `BuildLans`. -/
def buildLans (lans : List Lan) (h : NetworkHandle) : Except Exit NetworkHandle :=
  lans.foldlM (buildLan ns3) h

/-- `Build`, up to the routing. -/
def build (version : IpVersion) (attached : List NodeName) (links : List Link)
    (lans : List Lan) : Except Exit NetworkHandle := do
  let h ← buildLinks ns3 links { has := version.has, nodes := attachNodes attached }
  buildLans ns3 lans h

end Q2NS.Classical
