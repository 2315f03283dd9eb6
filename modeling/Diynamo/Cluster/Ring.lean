import Diynamo.Store.Hints
import Mathlib.Data.List.Nodup
import Mathlib.Data.List.Basic

/-! # The coordinator's ring

`CoordinatorRing` is built from the static roster: the members by id, and a consistent hash ring
over the ids with as many replicas as needed to return the whole roster in ring order. The hash ring
is a library; `HashRing` is its interface, with what its documentation promises as fields.

`ringOrderForKey` returns the members in ring order, without repetition (`nodup_ringOrderForKey`),
and `preferenceListForKey` its first `n` (`preferenceListForKey_eq_take`). -/

namespace Diynamo.Cluster.Ring

open Diynamo.Lib.Utf8 Diynamo.Store.Hints

/-- An IP address, by its bytes in network order. -/
inductive IpAddr where
  | v4 (octets : Vector UInt8 4)
  | v6 (octets : Vector UInt8 16)
deriving DecidableEq

structure SocketAddr where
  ip : IpAddr
  port : UInt16
deriving DecidableEq

/-- A roster entry of the configuration. -/
structure ClusterMember where
  id : NodeId
  gossipAddr : SocketAddr
  forwardPort : UInt16
deriving DecidableEq

/-- A member of the cluster; the startup UUID is zero for roster entries. -/
structure MemberInfo where
  id : NodeId
  gossipAddr : SocketAddr
  forwardPort : UInt16
  uuid : Vector UInt8 16
deriving DecidableEq

def MemberInfo.ofClusterMember (m : ClusterMember) : MemberInfo :=
  ⟨m.id, m.gossipAddr, m.forwardPort, Vector.replicate 16 0⟩

/-- The address of the loopback interface. -/
def localhost : Vector UInt8 4 := #v[127, 0, 0, 1]

/-- A roster entry on the loopback interface, as in a cluster on one machine. -/
def ClusterMember.loopback (id : NodeId) (port : UInt16) : ClusterMember :=
  ⟨id, ⟨.v4 localhost, port + 1⟩, port⟩

/-- **The hash ring library**: the owners of a key, for a number of replicas, a number of virtual
nodes per node, and the nodes added. Without virtual nodes every node has one. -/
structure HashRing where
  get : (replicas vnodes : ℕ) → (nodes : List NodeId) → (key : String) → List NodeId
  nodup : ∀ {r v ns}, ns.Nodup → ∀ k, (get r v ns k).Nodup
  subset : ∀ {r v ns} k, get r v ns k ⊆ ns
  length : ∀ {r v ns}, 0 < v → ns.Nodup → ∀ k, (get r v ns k).length = min (r + 1) ns.length
  zero : ∀ {r ns} k, get r 0 ns k = get r 1 ns k

/-- A hash ring that lists the owners of every key in the order in which the nodes were added. -/
def HashRing.inOrder : HashRing where
  get replicas _ nodes _ := nodes.take (replicas + 1)
  nodup := fun h _ => h.sublist (List.take_sublist _ _)
  subset := fun _ => List.take_subset _ _
  length := fun _ _ _ => List.length_take
  zero := fun _ => rfl

inductive RingError where
  | rosterEmpty
  | rosterTooSmall (members n : ℕ)
  | keyNotUtf8
  | noNodes
  | missingFromRoster (id : NodeId)
deriving DecidableEq, Repr

/-- The ring; `membersById` holds one member per id. -/
structure CoordinatorRing where
  membersById : List MemberInfo
  replicas : ℕ
  vnodes : ℕ
  n : ℕ
  nodup : (membersById.map MemberInfo.id).Nodup

/-- Insertion into the map by id: a later member with the same id replaces the earlier one. -/
def insertMember (ms : List MemberInfo) (m : MemberInfo) : List MemberInfo :=
  if m.id ∈ ms.map MemberInfo.id then ms.map fun x => if x.id = m.id then m else x else ms ++ [m]

/-- The members of a roster by id. -/
def collectById (roster : List ClusterMember) : List MemberInfo :=
  (roster.map MemberInfo.ofClusterMember).foldl insertMember []

theorem map_id_insertMember (ms : List MemberInfo) (m : MemberInfo) :
    (insertMember ms m).map MemberInfo.id =
      if m.id ∈ ms.map MemberInfo.id then ms.map MemberInfo.id
      else ms.map MemberInfo.id ++ [m.id] := by
  unfold insertMember
  split_ifs with h
  · rw [List.map_map]
    refine List.map_congr_left fun x _ => ?_
    rw [Function.comp_apply]
    split_ifs with hx
    · exact hx.symm
    · rfl
  · simp

theorem nodup_insertMember {ms : List MemberInfo} (m : MemberInfo)
    (h : (ms.map MemberInfo.id).Nodup) : ((insertMember ms m).map MemberInfo.id).Nodup := by
  rw [map_id_insertMember]
  split_ifs with hm
  · exact h
  · exact List.nodup_append.mpr ⟨h, List.nodup_singleton _, fun a ha b hb hab =>
      hm (by rwa [← List.mem_singleton.mp hb, ← hab])⟩

theorem nodup_collectById (roster : List ClusterMember) :
    ((collectById roster).map MemberInfo.id).Nodup := by
  have key : ∀ (l ms : List MemberInfo), (ms.map MemberInfo.id).Nodup →
      ((l.foldl insertMember ms).map MemberInfo.id).Nodup := by
    intro l
    induction l with
    | nil => intro ms h; exact h
    | cons m l ih => intro ms h; exact ih _ (nodup_insertMember m h)
  exact key _ [] List.nodup_nil

/-- **Build the ring**, if the roster has at least one member and at least `n`. -/
def fromRoster (roster : List ClusterMember) (n vnodes : ℕ) : Except RingError CoordinatorRing :=
  if roster = [] then .error .rosterEmpty
  else if roster.length < n then .error (.rosterTooSmall roster.length n)
  else .ok ⟨collectById roster, roster.length - 1, vnodes, n, nodup_collectById roster⟩

namespace CoordinatorRing

variable (h : HashRing) (ring : CoordinatorRing)

/-- The ids in the hash ring. -/
def nodes : List NodeId := ring.membersById.map MemberInfo.id

/-- The owners of a key in ring order. -/
def owners (key : Bytes) : Except RingError (List NodeId) :=
  match fromUtf8 key with
  | none => .error .keyNotUtf8
  | some keyStr =>
    match h.get ring.replicas ring.vnodes ring.nodes keyStr with
    | [] => .error .noNodes
    | owner :: rest => .ok (owner :: rest)

/-- The members of some ids. -/
def members : List NodeId → Except RingError (List MemberInfo)
  | [] => .ok []
  | id :: ids =>
    match ring.membersById.find? fun m => m.id = id with
    | none => .error (.missingFromRoster id)
    | some m => (members ids).map (m :: ·)

/-- **Up to `n` members in ring order.** -/
def preferenceListForKey (key : Bytes) (n : ℕ) : Except RingError (List MemberInfo) :=
  match ring.owners h key with
  | .error e => .error e
  | .ok owners => ring.members (owners.take n)

/-- **All members in ring order.** -/
def ringOrderForKey (key : Bytes) : Except RingError (List MemberInfo) :=
  match ring.owners h key with
  | .error e => .error e
  | .ok owners => ring.members owners

variable {h ring}

theorem members_of_subset : ∀ {ids : List NodeId}, ids ⊆ ring.nodes →
    ∃ l, ring.members ids = .ok l ∧ l.map MemberInfo.id = ids ∧ l ⊆ ring.membersById
  | [], _ => ⟨[], rfl, rfl, List.nil_subset _⟩
  | id :: ids, hsub => by
    obtain ⟨m, hm, hid⟩ := List.mem_map.mp (hsub List.mem_cons_self)
    obtain ⟨l, hl, hids, hlm⟩ := members_of_subset fun x hx => hsub (List.mem_cons_of_mem _ hx)
    rw [members]
    cases hf : ring.membersById.find? fun m => m.id = id with
    | none => exact absurd hid (by simpa using List.find?_eq_none.mp hf m hm)
    | some m' =>
      have hm' : m'.id = id := by simpa using List.find?_some hf
      refine ⟨m' :: l, by rw [hl]; rfl, by rw [List.map_cons, hm', hids], ?_⟩
      exact List.cons_subset.mpr ⟨List.mem_of_find?_eq_some hf, hlm⟩

theorem owners_spec {key : Bytes} {ids : List NodeId} (ho : ring.owners h key = .ok ids) :
    ids.Nodup ∧ ids ⊆ ring.nodes ∧
      (0 < ring.vnodes → ids.length = min (ring.replicas + 1) ring.nodes.length) := by
  unfold owners at ho
  split at ho
  · cases ho
  · split at ho
    · cases ho
    · next keyStr _ owner rest hget =>
      rw [← Except.ok.inj ho, ← hget]
      exact ⟨h.nodup ring.nodup _, h.subset _, fun hv => h.length hv ring.nodup _⟩

theorem members_vnodes (v : ℕ) :
    ∀ ids, { ring with vnodes := v }.members ids = ring.members ids
  | [] => rfl
  | id :: ids => by
    rw [members, members, members_vnodes v ids]

/-- The ring order is the same for one virtual node and for none. -/
theorem ringOrderForKey_zero (hv : ring.vnodes = 0) (key : Bytes) :
    ring.ringOrderForKey h key = { ring with vnodes := 1 }.ringOrderForKey h key := by
  have howners : ring.owners h key = { ring with vnodes := 1 }.owners h key := by
    unfold owners
    rw [hv]
    simp only [h.zero]
    rfl
  unfold ringOrderForKey
  rw [howners]
  split
  · rfl
  · exact (members_vnodes 1 _).symm

theorem members_take : ∀ (n : ℕ) {ids : List NodeId} {l : List MemberInfo},
    ring.members ids = .ok l → ring.members (ids.take n) = .ok (l.take n)
  | 0, ids, l, _ => by rw [List.take_zero, List.take_zero]; rfl
  | n + 1, [], l, hl => by
    rw [← Except.ok.inj hl]; rfl
  | n + 1, id :: ids, l, hl => by
    rw [members] at hl
    split at hl
    · cases hl
    · next m hm =>
      cases hr : ring.members ids with
      | error e => rw [hr] at hl; cases hl
      | ok l' =>
        rw [hr] at hl
        rw [← Except.ok.inj hl, List.take_succ_cons, List.take_succ_cons, members, hm,
          members_take n hr]
        rfl

/-- **The preference list is the first `n` of the ring order.** -/
theorem preferenceListForKey_eq_take {key : Bytes} {order : List MemberInfo} (n : ℕ)
    (ho : ring.ringOrderForKey h key = .ok order) :
    ring.preferenceListForKey h key n = .ok (order.take n) := by
  unfold ringOrderForKey at ho
  unfold preferenceListForKey
  split at ho
  · cases ho
  · exact members_take n ho

/-- The ring order exists for a key exactly if a preference list does. -/
theorem ringOrderForKey_of_preferenceListForKey {key : Bytes} {n : ℕ} {pref : List MemberInfo}
    (hp : ring.preferenceListForKey h key n = .ok pref) :
    ∃ order, ring.ringOrderForKey h key = .ok order ∧ pref = order.take n := by
  unfold preferenceListForKey at hp
  split at hp
  · cases hp
  · next owners hown =>
    obtain ⟨-, hsub, -⟩ := owners_spec hown
    obtain ⟨order, hord, -, -⟩ := members_of_subset hsub
    have hro : ring.ringOrderForKey h key = .ok order := by
      unfold ringOrderForKey; rw [hown]; exact hord
    refine ⟨order, hro, Except.ok.inj (hp.symm.trans ?_)⟩
    exact members_take n hord

/-- **The ring order has no repetition.** -/
theorem nodup_ringOrderForKey {key : Bytes} {order : List MemberInfo}
    (ho : ring.ringOrderForKey h key = .ok order) : (order.map MemberInfo.id).Nodup := by
  unfold ringOrderForKey at ho
  split at ho
  · cases ho
  · next owners hown =>
    obtain ⟨hnd, hsub, -⟩ := owners_spec hown
    obtain ⟨l, hl, hids, -⟩ := members_of_subset hsub
    rw [Except.ok.inj (ho.symm.trans hl), hids]
    exact hnd

end CoordinatorRing

end Diynamo.Cluster.Ring
