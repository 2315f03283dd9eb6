import Diynamo.Coordinator.Roster
import Mathlib.Data.List.Sort
import Mathlib.Data.String.Basic

/-! # Rings that agree

Every process builds its rings by itself: the coordinator's and the one of the handoff task, each
from the roster of its own configuration file. `from_roster` collects the members in a hash map,
which lists them in an order of its own in every process (`Builds`). If the hash ring does not
depend on the order in which nodes are added (`OrderFree`), two rings give one key the same ring
order if and only if their rosters have the same members, in any order (`agree_iff`); and then they
agree on all keys. -/

namespace Diynamo.Cluster.Agreement

open Diynamo.Lib.Utf8 Diynamo.Store.Hints Diynamo.Cluster.Ring Diynamo.Coordinator.Roster

/-- **The order in which nodes are added does not matter**: the ring sorts them by their hashes. -/
def OrderFree (h : HashRing) : Prop :=
  ∀ (r v : ℕ) (k : String) {ns ns' : List NodeId}, ns.Nodup → ns.Perm ns' →
    h.get r v ns k = h.get r v ns' k

/-- **A ring that a process may build** from a roster: the one of `fromRoster`, with the members by
id in any order. -/
def Builds (roster : List ClusterMember) (n vnodes : ℕ) (ring : CoordinatorRing) : Prop :=
  ∃ ring0, fromRoster roster n vnodes = .ok ring0 ∧ ring.membersById.Perm ring0.membersById ∧
    ring.replicas = ring0.replicas ∧ ring.vnodes = ring0.vnodes ∧ ring.n = ring0.n

variable {h : HashRing} {ring ring' : CoordinatorRing} {key : Bytes}

/-! ### The members of a ring -/

/-- The member of an id is the only one. -/
theorem find?_eq_some_iff {ms : List MemberInfo} (hnd : (ms.map MemberInfo.id).Nodup) {id : NodeId}
    {m : MemberInfo} : (ms.find? fun x => x.id = id) = some m ↔ m ∈ ms ∧ m.id = id := by
  constructor
  · intro hf
    exact ⟨List.mem_of_find?_eq_some hf, by simpa using List.find?_some hf⟩
  · rintro ⟨hm, hid⟩
    cases hf : ms.find? fun x => x.id = id with
    | none => exact absurd hid (by simpa using List.find?_eq_none.mp hf m hm)
    | some m' =>
      have hm' : m' ∈ ms := List.mem_of_find?_eq_some hf
      have hid' : m'.id = id := by simpa using List.find?_some hf
      rw [List.inj_on_of_nodup_map hnd hm' hm (hid'.trans hid.symm)]

/-- The order of the members does not matter to a lookup. -/
theorem members_congr (hp : ring.membersById.Perm ring'.membersById) :
    ∀ ids : List NodeId, ring.members ids = ring'.members ids
  | [] => rfl
  | id :: ids => by
    have hfind : (ring.membersById.find? fun m => m.id = id) =
        ring'.membersById.find? fun m => m.id = id := by
      refine Option.ext fun m => ?_
      rw [find?_eq_some_iff ring.nodup, find?_eq_some_iff ring'.nodup, hp.mem_iff]
    rw [CoordinatorRing.members, CoordinatorRing.members, hfind, members_congr hp ids]

/-- The owners of a key do not depend on the order of the nodes. -/
theorem owners_congr (hfree : OrderFree h) (hp : ring.membersById.Perm ring'.membersById)
    (hr : ring.replicas = ring'.replicas) (hv : ring.vnodes = ring'.vnodes) (key : Bytes) :
    ring.owners h key = ring'.owners h key := by
  have hnodes : ring.nodes.Perm ring'.nodes := hp.map _
  have hnd : ring.nodes.Nodup := ring.nodup
  unfold CoordinatorRing.owners
  cases fromUtf8 key with
  | none => rfl
  | some k => simp only [hr, hv, hfree _ _ k hnd hnodes]

/-- **Rings of the same members** give every key the same ring order. -/
theorem ringOrderForKey_congr (hfree : OrderFree h)
    (hp : ring.membersById.Perm ring'.membersById) (hr : ring.replicas = ring'.replicas)
    (hv : ring.vnodes = ring'.vnodes) (key : Bytes) :
    ring.ringOrderForKey h key = ring'.ringOrderForKey h key := by
  unfold CoordinatorRing.ringOrderForKey
  rw [owners_congr hfree hp hr hv]
  cases ring'.owners h key with
  | error e => rfl
  | ok ids => exact members_congr hp ids

theorem preferenceListForKey_congr (hfree : OrderFree h)
    (hp : ring.membersById.Perm ring'.membersById) (hr : ring.replicas = ring'.replicas)
    (hv : ring.vnodes = ring'.vnodes) (key : Bytes) (n : ℕ) :
    ring.preferenceListForKey h key n = ring'.preferenceListForKey h key n := by
  unfold CoordinatorRing.preferenceListForKey
  rw [owners_congr hfree hp hr hv]
  cases ring'.owners h key with
  | error e => rfl
  | ok ids => exact members_congr hp (ids.take n)

/-- **The ring order of a key** has all members of the ring. -/
theorem ringOrderForKey_perm (hv : 0 < ring.vnodes)
    (hlen : 0 < ring.nodes.length ∧ ring.nodes.length ≤ ring.replicas + 1) {keyStr : String}
    (hk : fromUtf8 key = some keyStr) :
    ∃ order, ring.ringOrderForKey h key = .ok order ∧ order.Perm ring.membersById := by
  have hnd : ring.nodes.Nodup := ring.nodup
  have hget : (h.get ring.replicas ring.vnodes ring.nodes keyStr).length = ring.nodes.length := by
    rw [h.length hv hnd]
    exact min_eq_right hlen.2
  have hall : (h.get ring.replicas ring.vnodes ring.nodes keyStr).Perm ring.nodes :=
    ((h.nodup hnd keyStr).subperm (h.subset keyStr)).perm_of_length_le hget.ge
  obtain ⟨order, ho, hids, hsub⟩ := CoordinatorRing.members_of_subset hall.subset
  have hnodup : order.Nodup := (hids ▸ h.nodup hnd keyStr : (order.map MemberInfo.id).Nodup).of_map
  have hcount : order.length = ring.membersById.length := by
    rw [← List.length_map (f := MemberInfo.id), hids, hget]
    exact List.length_map _
  refine ⟨order, ?_, (hnodup.subperm hsub).perm_of_length_le hcount.ge⟩
  unfold CoordinatorRing.ringOrderForKey CoordinatorRing.owners
  rw [hk]
  cases hg : h.get ring.replicas ring.vnodes ring.nodes keyStr with
  | nil =>
    rw [hg, List.length_nil] at hget
    omega
  | cons owner rest =>
    rw [hg] at ho
    simp only [hg]
    exact ho

/-! ### The rings of a roster -/

/-- Distinct ids are collected as they come. -/
theorem collectById_of_nodup {roster : List ClusterMember}
    (hd : (roster.map ClusterMember.id).Nodup) :
    collectById roster = roster.map MemberInfo.ofClusterMember := by
  have key : ∀ (l ms : List MemberInfo), ((ms ++ l).map MemberInfo.id).Nodup →
      l.foldl insertMember ms = ms ++ l := by
    intro l
    induction l with
    | nil => intro ms _; exact (List.append_nil ms).symm
    | cons m l ih =>
      intro ms hnd
      have hm : m.id ∉ ms.map MemberInfo.id := by
        rw [List.map_append, List.nodup_append] at hnd
        exact fun hin => hnd.2.2 _ hin _ List.mem_cons_self rfl
      rw [List.foldl_cons, insertMember, if_neg hm, ih _ (by simpa using hnd), List.append_assoc]
      rfl
  refine key _ [] ?_
  rw [List.nil_append, List.map_map]
  exact hd

theorem ofClusterMember_injective : Function.Injective MemberInfo.ofClusterMember := by
  rintro ⟨_, _, _⟩ ⟨_, _, _⟩ he
  cases he
  rfl

variable {roster roster' : List ClusterMember} {n n' vnodes : ℕ}

/-- A ring of distinct ids lists the roster, in some order. -/
theorem builds_spec (hb : Builds roster n vnodes ring) (hd : (roster.map ClusterMember.id).Nodup) :
    ring.membersById.Perm (roster.map MemberInfo.ofClusterMember) ∧
      ring.replicas + 1 = roster.length ∧ ring.vnodes = vnodes ∧ roster ≠ [] := by
  obtain ⟨ring0, h0, hp, hr, hv, -⟩ := hb
  obtain ⟨hrep, hvn, -⟩ := fromRoster_spec h0
  obtain ⟨hne, -, rfl⟩ := fromRoster_eq_ok.mp h0
  rw [← collectById_of_nodup hd]
  exact ⟨hp, by rw [hr, hrep], hv.trans hvn, hne⟩

theorem length_nodes_of_builds (hb : Builds roster n vnodes ring)
    (hd : (roster.map ClusterMember.id).Nodup) :
    0 < ring.nodes.length ∧ ring.nodes.length ≤ ring.replicas + 1 := by
  obtain ⟨hp, hrep, -, hne⟩ := builds_spec hb hd
  have hlen : ring.nodes.length = roster.length := by
    rw [CoordinatorRing.nodes, List.length_map, hp.length_eq, List.length_map]
  rw [hlen, hrep]
  exact ⟨List.length_pos_of_ne_nil hne, le_rfl⟩

/-- **Two processes agree on a key** if and only if their rosters have the same members, in any
order, for distinct ids and the same number of virtual nodes, at least one. The two values of `n` do
not matter, nor does the key: agreeing on one key is agreeing on all. -/
theorem agree_iff (hfree : OrderFree h) (hd : (roster.map ClusterMember.id).Nodup)
    (hd' : (roster'.map ClusterMember.id).Nodup) (hv : 0 < vnodes)
    (hb : Builds roster n vnodes ring) (hb' : Builds roster' n' vnodes ring') {keyStr : String}
    (hk : fromUtf8 key = some keyStr) :
    ring.ringOrderForKey h key = ring'.ringOrderForKey h key ↔ roster.Perm roster' := by
  obtain ⟨hp, hrep, hvn, -⟩ := builds_spec hb hd
  obtain ⟨hp', hrep', hvn', -⟩ := builds_spec hb' hd'
  constructor
  · intro he
    obtain ⟨order, ho, hperm⟩ :=
      ringOrderForKey_perm (h := h) (hvn.symm ▸ hv) (length_nodes_of_builds hb hd) hk
    obtain ⟨order', ho', hperm'⟩ :=
      ringOrderForKey_perm (h := h) (hvn'.symm ▸ hv) (length_nodes_of_builds hb' hd') hk
    obtain rfl := Except.ok.inj (ho.symm.trans (he.trans ho'))
    refine (List.map_perm_map_iff ofClusterMember_injective).mp ?_
    exact (hperm.trans hp).symm.trans (hperm'.trans hp')
  · intro hroster
    have hlen := hroster.length_eq
    refine ringOrderForKey_congr hfree ?_ (by omega) (hvn.trans hvn'.symm) key
    exact (hp.trans (hroster.map _)).trans hp'.symm

/-- A hash ring that lists the owners of every key by their ids. -/
def hashRingById : HashRing where
  get replicas _ nodes _ := (nodes.insertionSort (· ≤ ·)).take (replicas + 1)
  nodup := fun {_ _ ns} h _ =>
    ((List.perm_insertionSort _ ns).nodup_iff.mpr h).sublist (List.take_sublist _ _)
  subset := fun {_ _ ns} _ x hx => (List.perm_insertionSort _ ns).subset (List.mem_of_mem_take hx)
  length := fun {_ _ _} _ _ _ => by rw [List.length_take, List.length_insertionSort]
  zero := fun _ => rfl

theorem orderFree_hashRingById : OrderFree hashRingById := by
  intro r v k ns ns' _ hp
  have hsort : ns.insertionSort (· ≤ ·) = ns'.insertionSort (· ≤ ·) :=
    List.Perm.eq_of_pairwise' (List.pairwise_insertionSort _ _) (List.pairwise_insertionSort _ _)
      (((List.perm_insertionSort _ ns).trans hp).trans (List.perm_insertionSort _ ns').symm)
  simp only [hashRingById, hsort]

theorem builds_of_fromRoster (h : fromRoster roster n vnodes = .ok ring) :
    Builds roster n vnodes ring := ⟨ring, h, .refl _, rfl, rfl, rfl⟩

/-- The same two members in another order, for another `n`. -/
theorem agree_iff_shuffled : ∃ ring ring',
    fromRoster [.loopback "b" 2, .loopback "c" 3] 1 1 = .ok ring ∧
    fromRoster [.loopback "c" 3, .loopback "b" 2] 2 1 = .ok ring' ∧
    ring.ringOrderForKey hashRingById [107] = ring'.ringOrderForKey hashRingById [107] := by
  have hk : fromUtf8 [107] = some "k" := by decide
  obtain ⟨ring, hr⟩ : ∃ ring,
      fromRoster [.loopback "b" 2, .loopback "c" 3] 1 1 = .ok ring := ⟨_, rfl⟩
  obtain ⟨ring', hr'⟩ : ∃ ring,
      fromRoster [.loopback "c" 3, .loopback "b" 2] 2 1 = .ok ring := ⟨_, rfl⟩
  exact ⟨ring, ring', hr, hr', (agree_iff orderFree_hashRingById (by decide) (by decide)
    Nat.one_pos (builds_of_fromRoster hr) (builds_of_fromRoster hr') hk).mpr (by decide)⟩

end Diynamo.Cluster.Agreement
