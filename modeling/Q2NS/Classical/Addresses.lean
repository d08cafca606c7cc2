import Q2NS.Classical.Builder
import Mathlib.Data.List.Nodup
import Mathlib.Data.List.Pairwise
import Mathlib.Tactic.Ring

/-!
# IPv4 addresses of a classical network

`BuildLinks` moves on to a new network before every link.  `BuildLans` sets the base
again for every LAN, so that all LANs are numbered from host 1 of the same network.
-/

namespace Q2NS.Classical

variable {ns3 : Ns3}

/-! ## The helper of ns-3 -/

/-- The network that an `Ipv4AddressHelper` is at, how many bits its number has, and
the next host. -/
structure Position where
  network : ℕ
  length : ℕ
  host : ℕ

/-- How an `Ipv4AddressHelper` numbers interfaces while networks and hosts last:
from host 1 of the base, consecutively, and again from host 1 in the next network. -/
structure Ipv4Numbering (ns3 : Ns3) where
  position : ns3.Helper .v4 → Position
  setBase : ∀ b, position (ns3.setBase .v4 b) = ⟨b.network, b.length, 1⟩
  newNetwork : ∀ h, (position h).network + 1 < 2 ^ (position h).length →
    position (ns3.newNetwork .v4 h) =
      ⟨(position h).network + 1, (position h).length, 1⟩
  assign : ∀ n h, (position h).host + n < 2 ^ (32 - (position h).length) →
    position (ns3.assign .v4 n h).2 = { position h with host := (position h).host + n }
  address : ∀ n h, (position h).host + n < 2 ^ (32 - (position h).length) →
    ∀ i < n, ((ns3.assign .v4 n h).1 i).1 =
      (position h).network * 2 ^ (32 - (position h).length) + (position h).host + i

/-! ## Segments and their networks -/

/-- The segments that have been installed on a stack. -/
def NetworkHandle.on (h : NetworkHandle) (st : Stack) : List Installed :=
  h.installed.filter fun x => x.stack = st

/-- The subnets of two segments, with 16 bits, do not overlap. -/
def SubnetsApart (x y : Installed) : Prop :=
  ∀ a ∈ x.addresses, ∀ b ∈ y.addresses, a / 2 ^ 16 ≠ b / 2 ^ 16

/-- The interfaces of a segment are the first hosts of a network. -/
structure Installed.InNetwork (x : Installed) (network : ℕ) : Prop where
  size : x.members.length + 1 < 2 ^ 16
  address : ∀ i < x.members.length, (x.address i).1 = network * 2 ^ 16 + 1 + i

theorem Installed.InNetwork.subnet {x : Installed} {network : ℕ}
    (h : x.InNetwork network) {a : Address} (ha : a ∈ x.addresses) :
    a / 2 ^ 16 = network := by
  obtain ⟨i, hi, rfl⟩ := List.mem_map.mp ha
  have hlt := List.mem_range.mp hi
  have hsize := h.size
  rw [h.address i hlt]
  omega

theorem Installed.InNetwork.nodup {x : Installed} {network : ℕ}
    (h : x.InNetwork network) : x.addresses.Nodup := by
  refine List.Nodup.map_on (fun i hi j hj hij => ?_) List.nodup_range
  rw [h.address i (List.mem_range.mp hi), h.address j (List.mem_range.mp hj)] at hij
  exact Nat.add_left_cancel hij

theorem apart_of_ne {x y : Installed} {m n : ℕ} (hx : x.InNetwork m)
    (hy : y.InNetwork n) (hne : m ≠ n) : SubnetsApart x y := fun a ha b hb h =>
  hne (by rw [← hx.subnet ha, ← hy.subnet hb, h])

/-- Segments of one network are apart only if one of them is empty. -/
theorem apart_iff {x y : Installed} {n : ℕ} (hx : x.InNetwork n) (hy : y.InNetwork n) :
    SubnetsApart x y ↔ x.members = [] ∨ y.members = [] := by
  have hnone : ∀ {z : Installed}, z.addresses = [] ↔ z.members = [] := by
    intro z
    rw [Installed.addresses, List.map_eq_nil_iff, List.range_eq_nil, List.length_eq_zero_iff]
  rw [← hnone, ← hnone]
  constructor
  · intro h
    by_contra hboth
    obtain ⟨hx', hy'⟩ := not_or.mp hboth
    obtain ⟨a, ha⟩ := List.exists_mem_of_ne_nil _ hx'
    obtain ⟨b, hb⟩ := List.exists_mem_of_ne_nil _ hy'
    exact h a ha b hb ((hx.subnet ha).trans (hy.subnet hb).symm)
  · rintro (h | h) a ha b hb
    · exact absurd (h ▸ ha) List.not_mem_nil
    · exact absurd (h ▸ hb) List.not_mem_nil

theorem on_install (h : NetworkHandle) (st st' : Stack) (seg : SegmentId)
    (members : List NodeName) (address : ℕ → Address × Address) :
    (h.install ns3 st seg members address).on st' =
      h.on st' ++ if st = st' then [⟨st, seg, members, address⟩] else [] := by
  rw [NetworkHandle.on, NetworkHandle.install, List.filter_append, NetworkHandle.on]
  congr 1
  split_ifs with hst
  · exact List.filter_eq_self.mpr fun x hx => by
      rw [List.mem_singleton.mp hx]
      exact decide_eq_true hst
  · exact List.filter_eq_nil_iff.mpr fun x hx => by
      rw [List.mem_singleton.mp hx]
      exact fun he => hst (of_decide_eq_true he)

/-! ## Links -/

@[simp] theorem has_linkOn (l : Link) (acc : NetworkHandle × Helpers ns3) (st : Stack) :
    (linkOn ns3 l acc st).1.has = acc.1.has := by
  rw [linkOn]
  split_ifs <;> rfl

/-- The second stack of a link leaves the numbering of the first alone. -/
theorem on_linkOn_v6 (l : Link) (acc : NetworkHandle × Helpers ns3) :
    (linkOn ns3 l acc .v6).1.on .v4 = acc.1.on .v4 ∧
      (linkOn ns3 l acc .v6).2 .v4 = acc.2 .v4 := by
  rw [linkOn]
  split_ifs
  · dsimp only
    refine ⟨(on_install ..).trans (List.append_nil _), ?_⟩
    exact Function.update_of_ne (show Stack.v4 ≠ .v6 by decide) _ _
  · exact ⟨rfl, rfl⟩

/-- A link takes the first two hosts of the next network. -/
theorem on_linkOn_v4 (num : Ipv4Numbering ns3) (l : Link)
    (acc : NetworkHandle × Helpers ns3) (hv4 : acc.1.has .v4) {n host : ℕ}
    (hat : num.position (acc.2 .v4) = ⟨n, 16, host⟩) (hn : n + 1 < 2 ^ 16) :
    ∃ x : Installed, x.InNetwork (n + 1) ∧
      (linkOn ns3 l acc .v4).1.on .v4 = acc.1.on .v4 ++ [x] ∧
      ∃ host', num.position ((linkOn ns3 l acc .v4).2 .v4) = ⟨n + 1, 16, host'⟩ := by
  have hnew : num.position (ns3.newNetwork .v4 (acc.2 .v4)) = ⟨n + 1, 16, 1⟩ := by
    rw [num.newNetwork _ (by rw [hat]; exact hn), hat]
  have hcapacity : (num.position (ns3.newNetwork .v4 (acc.2 .v4))).host + 2 <
      2 ^ (32 - (num.position (ns3.newNetwork .v4 (acc.2 .v4))).length) := by
    rw [hnew]
    exact show 1 + 2 < 2 ^ (32 - 16) by decide
  have haddress := num.address 2 _ hcapacity
  have hassign := num.assign 2 _ hcapacity
  rw [hnew] at haddress hassign
  rw [linkOn, if_pos hv4]
  refine ⟨⟨.v4, l.id, [l.nodeA, l.nodeB], _⟩, ⟨show 2 + 1 < 2 ^ 16 by decide, haddress⟩,
    on_install .., 3, ?_⟩
  dsimp only
  rw [Function.update_self]
  exact hassign

/-- One link. -/
theorem on_buildLink (num : Ipv4Numbering ns3) (l : Link)
    {acc acc' : NetworkHandle × Helpers ns3} (hbuild : buildLink ns3 acc l = .ok acc')
    (hv4 : acc.1.has .v4) {n host : ℕ}
    (hat : num.position (acc.2 .v4) = ⟨n, 16, host⟩) (hn : n + 1 < 2 ^ 16) :
    acc'.1.has = acc.1.has ∧ ∃ x : Installed, x.InNetwork (n + 1) ∧
      acc'.1.on .v4 = acc.1.on .v4 ++ [x] ∧
      ∃ host', num.position (acc'.2 .v4) = ⟨n + 1, 16, host'⟩ := by
  obtain ⟨-, -, hacc⟩ := Loop.bind_eq_ok.mp hbuild
  obtain rfl := Except.ok.inj hacc
  obtain ⟨x, hx, hon, host', hat'⟩ := on_linkOn_v4 num l acc hv4 hat hn
  obtain ⟨hon', hhelper⟩ := on_linkOn_v6 l (linkOn ns3 l acc .v4)
  refine ⟨(has_linkOn ..).trans (has_linkOn ..), x, hx, hon'.trans hon, host', ?_⟩
  exact (congrArg num.position hhelper).trans hat'

/-- The links are in consecutive networks. -/
theorem on_buildLinks (num : Ipv4Numbering ns3) {links : List Link} :
    ∀ {acc acc' : NetworkHandle × Helpers ns3} {n host : ℕ},
      links.foldlM (buildLink ns3) acc = .ok acc' → acc.1.has .v4 →
      num.position (acc.2 .v4) = ⟨n, 16, host⟩ → n + links.length < 2 ^ 16 →
      acc'.1.has = acc.1.has ∧ ∃ xs, acc'.1.on .v4 = acc.1.on .v4 ++ xs ∧
        xs.Pairwise SubnetsApart ∧ ∀ x ∈ xs, ∃ k, n < k ∧ x.InNetwork k := by
  induction links with
  | nil =>
      intro acc acc' n host hbuild _ _ _
      obtain rfl := Except.ok.inj hbuild
      exact ⟨rfl, [], (List.append_nil _).symm, List.Pairwise.nil,
        fun x hx => absurd hx List.not_mem_nil⟩
  | cons l links ih =>
      intro acc acc' n host hbuild hv4 hat hn
      rw [List.length_cons] at hn
      rw [List.foldlM_cons] at hbuild
      obtain ⟨acc₁, hfirst, hrest⟩ := Loop.bind_eq_ok.mp hbuild
      obtain ⟨hhas, x, hx, hon, host', hat'⟩ :=
        on_buildLink num l hfirst hv4 hat (by omega)
      obtain ⟨hhas', xs, hon', hapart, hnet⟩ :=
        ih hrest (hhas ▸ hv4) hat' (by omega)
      refine ⟨hhas'.trans hhas, x :: xs, ?_, ?_, fun y hy => ?_⟩
      · rw [hon', hon, List.append_assoc, List.singleton_append]
      · refine List.pairwise_cons.mpr ⟨fun y hy => ?_, hapart⟩
        obtain ⟨k, hk, hy'⟩ := hnet y hy
        exact apart_of_ne hx hy' hk.ne
      · rcases List.mem_cons.mp hy with rfl | hy
        · exact ⟨n + 1, Nat.lt_succ_self n, hx⟩
        · obtain ⟨k, hk, hy'⟩ := hnet y hy
          exact ⟨k, (Nat.lt_succ_self n).trans hk, hy'⟩

/-! ## LANs -/

/-- What `BuildLans` installs of a LAN. -/
def installedLan (ns3 : Ns3) (lan : Lan) : Installed :=
  ⟨.v4, lan.id, lan.members, (ns3.assign .v4 lan.members.length
    (ns3.setBase .v4 (lanBase .v4))).1⟩

/-- Every LAN is numbered from host 1 of 10.1.0.0. -/
theorem installedLan_inNetwork (num : Ipv4Numbering ns3) {lan : Lan}
    (hsize : lan.members.length + 1 < 2 ^ 16) : (installedLan ns3 lan).InNetwork 0x0a01 := by
  have hat := num.setBase (lanBase .v4)
  have haddress := num.address lan.members.length (ns3.setBase .v4 (lanBase .v4)) (by
    rw [hat]
    exact (Nat.add_comm 1 _).trans_lt hsize)
  rw [hat] at haddress
  exact ⟨hsize, haddress⟩

theorem on_buildLan {h h' : NetworkHandle} {lan : Lan}
    (hbuild : buildLan ns3 h lan = .ok h') : h'.has = h.has ∧
      h'.on .v4 = h.on .v4 ++ if h.has .v4 then [installedLan ns3 lan] else [] := by
  obtain ⟨-, -, hacc⟩ := Loop.bind_eq_ok.mp hbuild
  obtain rfl := Except.ok.inj hacc
  have hv6 : ∀ g : NetworkHandle, (lanOn ns3 lan g .v6).has = g.has ∧
      (lanOn ns3 lan g .v6).on .v4 = g.on .v4 := by
    intro g
    rw [lanOn]
    split_ifs
    · exact ⟨rfl, (on_install ..).trans (List.append_nil _)⟩
    · exact ⟨rfl, rfl⟩
  obtain ⟨hhas, hon⟩ := hv6 (lanOn ns3 lan h .v4)
  rw [List.foldl_cons, List.foldl_cons, List.foldl_nil, hhas, hon, lanOn]
  split_ifs
  · exact ⟨rfl, on_install ..⟩
  · exact ⟨rfl, (List.append_nil _).symm⟩

theorem on_buildLans {lans : List Lan} : ∀ {h h' : NetworkHandle},
    buildLans ns3 lans h = .ok h' →
      h'.on .v4 = h.on .v4 ++ if h.has .v4 then lans.map (installedLan ns3) else [] := by
  induction lans with
  | nil =>
      intro h h' hbuild
      obtain rfl := Except.ok.inj hbuild
      rw [List.map_nil, ite_self, List.append_nil]
  | cons lan lans ih =>
      intro h h' hbuild
      rw [buildLans, List.foldlM_cons] at hbuild
      obtain ⟨h₁, hfirst, hrest⟩ := Loop.bind_eq_ok.mp hbuild
      obtain ⟨hhas, hon⟩ := on_buildLan hfirst
      rw [ih hrest, hon, hhas, List.append_assoc]
      split_ifs
      · rfl
      · rfl

/-! ## The whole network -/

/-- Neither links nor LANs are installed on a stack that is not there. -/
theorem on_build_without {version : IpVersion} (hv4 : version.has .v4 = false)
    {attached : List NodeName} {links : List Link} {lans : List Lan} {h : NetworkHandle}
    (hbuild : build ns3 version attached links lans = .ok h) : h.on .v4 = [] := by
  obtain ⟨h₁, hlinks, hlans⟩ := Loop.bind_eq_ok.mp hbuild
  obtain ⟨acc, hacc, hh₁⟩ := Loop.bind_eq_ok.mp hlinks
  obtain rfl := Except.ok.inj hh₁
  have hall : ∀ (links : List Link) (acc acc' : NetworkHandle × Helpers ns3),
      links.foldlM (buildLink ns3) acc = .ok acc' → acc.1.has .v4 = false →
        acc'.1.has .v4 = false ∧ acc'.1.on .v4 = acc.1.on .v4 := by
    intro links
    induction links with
    | nil =>
        intro acc acc' hacc hhas
        obtain rfl := Except.ok.inj hacc
        exact ⟨hhas, rfl⟩
    | cons l links ih =>
        intro acc acc' hacc hhas
        rw [List.foldlM_cons] at hacc
        obtain ⟨acc₁, hfirst, hrest⟩ := Loop.bind_eq_ok.mp hacc
        obtain ⟨-, -, hacc₁⟩ := Loop.bind_eq_ok.mp hfirst
        obtain rfl := Except.ok.inj hacc₁
        have hsame : linkOn ns3 l acc .v4 = acc := by
          rw [linkOn, hhas]
          exact if_neg Bool.false_ne_true
        obtain ⟨hon, -⟩ := on_linkOn_v6 l acc
        rw [List.foldl_cons, List.foldl_cons, List.foldl_nil, hsame] at hrest
        obtain ⟨hhas', hon'⟩ := ih _ _ hrest ((congrFun (has_linkOn ..) _).trans hhas)
        exact ⟨hhas', hon'.trans hon⟩
  obtain ⟨hhas, hon⟩ := hall links _ _ hacc hv4
  rw [on_buildLans hlans, hhas, hon]
  rfl

/-- The segments of a network: the links, each in a network of its own above 10.1.0.0,
and the LANs, all in that one. -/
theorem on_build (num : Ipv4Numbering ns3) {version : IpVersion}
    (hv4 : version.has .v4) {attached : List NodeName} {links : List Link}
    {lans : List Lan} (hlinks : 0x0a01 + links.length < 2 ^ 16) {h : NetworkHandle}
    (hbuild : build ns3 version attached links lans = .ok h) :
    ∃ xs, h.on .v4 = xs ++ lans.map (installedLan ns3) ∧ xs.Pairwise SubnetsApart ∧
      ∀ x ∈ xs, ∃ k, 0x0a01 < k ∧ x.InNetwork k := by
  obtain ⟨h₁, hfirst, hlans⟩ := Loop.bind_eq_ok.mp hbuild
  obtain ⟨acc, hacc, hh₁⟩ := Loop.bind_eq_ok.mp hfirst
  obtain rfl := Except.ok.inj hh₁
  obtain ⟨hhas, xs, hon, hapart, hnet⟩ :=
    on_buildLinks num hacc hv4 (num.setBase (linkBase .v4)) hlinks
  refine ⟨xs, ?_, hapart, hnet⟩
  rw [on_buildLans hlans, hhas, if_pos hv4, hon]
  rfl

/-- Within the capacity of the address space, all IPv4 addresses are different and all
subnets apart exactly when there is at most one LAN with members, or no IPv4. -/
theorem addresses_unique_iff (num : Ipv4Numbering ns3) {version : IpVersion}
    {attached : List NodeName} {links : List Link} {lans : List Lan}
    (hlinks : 0x0a01 + links.length < 2 ^ 16)
    (hlans : ∀ lan ∈ lans, lan.members.length + 1 < 2 ^ 16) {h : NetworkHandle}
    (hbuild : build ns3 version attached links lans = .ok h) :
    ((h.on .v4).flatMap Installed.addresses).Nodup ∧ (h.on .v4).Pairwise SubnetsApart ↔
      version.has .v4 = false ∨
        lans.Pairwise fun a b => a.members = [] ∨ b.members = [] := by
  by_cases hv4 : version.has .v4 = true
  · obtain ⟨xs, hon, hapart, hnet⟩ := on_build num hv4 hlinks hbuild
    have hlan : ∀ lan ∈ lans, (installedLan ns3 lan).InNetwork 0x0a01 := fun lan hl =>
      installedLan_inNetwork num (hlans lan hl)
    have hlocal : ∀ x ∈ h.on .v4, x.addresses.Nodup := by
      intro x hx
      rw [hon] at hx
      rcases List.mem_append.mp hx with hx | hx
      · obtain ⟨k, -, hk⟩ := hnet x hx
        exact hk.nodup
      · obtain ⟨lan, hl, rfl⟩ := List.mem_map.mp hx
        exact (hlan lan hl).nodup
    have hpairwise : (h.on .v4).Pairwise SubnetsApart ↔
        lans.Pairwise fun a b => a.members = [] ∨ b.members = [] := by
      rw [hon, List.pairwise_append, List.pairwise_map]
      have hboth : lans.Pairwise (fun a b => SubnetsApart (installedLan ns3 a)
          (installedLan ns3 b)) ↔ lans.Pairwise fun a b =>
            a.members = [] ∨ b.members = [] :=
        List.Pairwise.iff_of_mem fun ha hb => apart_iff (hlan _ ha) (hlan _ hb)
      rw [hboth]
      refine ⟨fun hall => hall.2.1, fun hall => ⟨hapart, hall, fun x hx y hy => ?_⟩⟩
      obtain ⟨k, hk, hx'⟩ := hnet x hx
      obtain ⟨lan, hl, rfl⟩ := List.mem_map.mp hy
      exact apart_of_ne hx' (hlan lan hl) hk.ne'
    rw [hpairwise, hv4, or_iff_right (by decide), and_iff_right_iff_imp]
    intro hall
    refine List.nodup_flatMap.mpr ⟨hlocal, (hpairwise.mpr hall).imp fun hsub => ?_⟩
    exact fun a ha hb => hsub a ha a hb rfl
  · have hnone := on_build_without (Bool.eq_false_iff.mpr hv4) hbuild
    rw [hnone]
    exact ⟨fun _ => .inl (Bool.eq_false_iff.mpr hv4), fun _ =>
      ⟨List.nodup_nil, List.Pairwise.nil⟩⟩

/-! ## Two LANs -/

/-- Helpers that are a position, with one number for both addresses of a device. -/
def countingNs3 : Ns3 where
  Helper := fun _ => Position
  setBase := fun _ b => ⟨b.network, b.length, 1⟩
  newNetwork := fun _ p => ⟨p.network + 1, p.length, 1⟩
  assign := fun _ n p =>
    (fun i => (p.network * 2 ^ (32 - p.length) + p.host + i,
      p.network * 2 ^ (32 - p.length) + p.host + i), { p with host := p.host + n })
  interfaceForDevice := fun _ _ i => i + 1

def countingNumbering : Ipv4Numbering countingNs3 where
  position := id
  setBase := fun _ => rfl
  newNetwork := fun _ _ => rfl
  assign := fun _ _ _ => rfl
  address := fun _ _ _ _ _ => rfl

/-- A link and a LAN. -/
theorem addresses_unique_link_lan : ∃ h,
    build countingNs3 .Dual ["A", "B"] [⟨"link", "A", "B"⟩] [⟨"lan", ["A", "B"]⟩] = .ok h ∧
      (((h.on .v4).flatMap Installed.addresses).Nodup ∧
        (h.on .v4).Pairwise SubnetsApart ↔
      IpVersion.Dual.has .v4 = false ∨ [(⟨"lan", ["A", "B"]⟩ : Lan)].Pairwise
        fun a b => a.members = [] ∨ b.members = []) := by
  have hbuild : build countingNs3 .Dual ["A", "B"] [⟨"link", "A", "B"⟩]
      [⟨"lan", ["A", "B"]⟩] = .ok _ := rfl
  exact ⟨_, hbuild, addresses_unique_iff countingNumbering (by decide) (by decide) hbuild⟩

/-- The first members of two LANs have one address. -/
theorem two_lans_collide : ∃ h,
    build countingNs3 .V4 ["A", "B", "C", "D"] [] [⟨"lan1", ["A", "B"]⟩,
      ⟨"lan2", ["C", "D"]⟩] = .ok h ∧
      ¬ ((h.on .v4).flatMap Installed.addresses).Nodup ∧
      ¬ (h.on .v4).Pairwise SubnetsApart := by
  refine ⟨_, rfl, by decide, fun h => ?_⟩
  have hfirst := (List.pairwise_cons.mp h).1 _ List.mem_cons_self
  exact hfirst 0x0a010001 (by decide) 0x0a010001 (by decide) rfl

end Q2NS.Classical
