import Diynamo.Coordinator.Put
import Mathlib.Data.List.Dedup
import Mathlib.Data.List.Perm.Subperm

/-! # The ring of a roster

`fromRoster` compares the number of roster entries with `n`, but the ring holds every id once. Over
at least one virtual node, the ring order of a key is a permutation of the distinct ids
(`ringOrder_perm`), so the ring serves a roster that it accepts exactly if the roster has at least
`n` distinct ids (`serves_iff`). With fewer the preference lists are too short, and every `put`
panics at its slices. -/

namespace Diynamo.Coordinator.Roster

open Diynamo.Lib.Utf8 Diynamo.Store.Hints Diynamo.Cluster.Ring Diynamo.Coordinator.Put

variable {h : HashRing} {roster : List ClusterMember} {n vnodes : ℕ} {ring : CoordinatorRing}
  {key : Bytes}

/-! ### Accepted rosters -/

/-- The ids of a roster, each once. -/
def distinctIds (roster : List ClusterMember) : List NodeId := (roster.map ClusterMember.id).dedup

theorem fromRoster_eq_ok : fromRoster roster n vnodes = .ok ring ↔
    roster ≠ [] ∧ n ≤ roster.length ∧
      ring = ⟨collectById roster, roster.length - 1, vnodes, n, nodup_collectById roster⟩ := by
  unfold fromRoster
  split_ifs with hne hn
  · simp [hne]
  · simp [hne, hn]
  · simp [hne, not_lt.mp hn, eq_comm]

theorem mem_map_id_insertMember {ms : List MemberInfo} {m : MemberInfo} {id : NodeId} :
    id ∈ (insertMember ms m).map MemberInfo.id ↔ id ∈ ms.map MemberInfo.id ∨ id = m.id := by
  rw [map_id_insertMember]
  split_ifs with hm
  · constructor
    · exact Or.inl
    · rintro (hid | rfl)
      · exact hid
      · exact hm
  · simp

/-- The map by id has the ids of the roster. -/
theorem mem_map_id_collectById {id : NodeId} :
    id ∈ (collectById roster).map MemberInfo.id ↔ id ∈ roster.map ClusterMember.id := by
  have key : ∀ (l ms : List MemberInfo), id ∈ (l.foldl insertMember ms).map MemberInfo.id ↔
      id ∈ ms.map MemberInfo.id ∨ id ∈ l.map MemberInfo.id := by
    intro l
    induction l with
    | nil => intro ms; simp
    | cons m l ih =>
      intro ms
      rw [List.foldl_cons, ih, mem_map_id_insertMember, List.map_cons, List.mem_cons, or_assoc]
  unfold collectById
  rw [key, List.map_map]
  simp only [List.map_nil, List.not_mem_nil, false_or]
  rfl

theorem nodes_perm_distinctIds (hr : fromRoster roster n vnodes = .ok ring) :
    ring.nodes.Perm (distinctIds roster) := by
  obtain ⟨-, -, rfl⟩ := fromRoster_eq_ok.mp hr
  refine (List.perm_ext_iff_of_nodup (nodup_collectById roster) (List.nodup_dedup _)).mpr
    fun id => ?_
  rw [List.mem_dedup]
  exact mem_map_id_collectById

/-- A ring asks for as many owners as the roster has entries, and has a node. -/
theorem fromRoster_spec (hr : fromRoster roster n vnodes = .ok ring) :
    ring.replicas + 1 = roster.length ∧ ring.vnodes = vnodes ∧ 0 < ring.nodes.length := by
  have hperm := nodes_perm_distinctIds hr
  obtain ⟨hne, -, rfl⟩ := fromRoster_eq_ok.mp hr
  refine ⟨Nat.sub_add_cancel (List.length_pos_of_ne_nil hne), rfl, ?_⟩
  obtain ⟨m, hm⟩ := List.exists_mem_of_ne_nil roster hne
  have hid : m.id ∈ distinctIds roster := List.mem_dedup.mpr (List.mem_map_of_mem hm)
  exact List.length_pos_of_mem (hperm.mem_iff.mpr hid)

/-! ### Ring orders -/

/-- **The owners of a key** are all the nodes of the ring. -/
theorem owners_of_fromRoster (hr : fromRoster roster n vnodes = .ok ring) (hv : 0 < vnodes)
    {keyStr : String} (hk : fromUtf8 key = some keyStr) :
    ∃ ids, ring.owners h key = .ok ids ∧ ids.Perm (distinctIds roster) := by
  have hperm := nodes_perm_distinctIds hr
  obtain ⟨hrep, hvn, hnodes⟩ := fromRoster_spec hr
  have hle : ring.nodes.length ≤ roster.length := by
    rw [hperm.length_eq]
    exact (List.dedup_sublist _).length_le.trans (by simp)
  have hlen : (h.get ring.replicas ring.vnodes ring.nodes keyStr).length = ring.nodes.length := by
    have hnd : ring.nodes.Nodup := ring.nodup
    rw [h.length (hvn ▸ hv) hnd, hrep]
    exact min_eq_right hle
  -- as many distinct nodes as there are
  have hall : (h.get ring.replicas ring.vnodes ring.nodes keyStr).Perm ring.nodes :=
    ((h.nodup ring.nodup keyStr).subperm (h.subset keyStr)).perm_of_length_le hlen.ge
  refine ⟨_, ?_, hall.trans hperm⟩
  unfold CoordinatorRing.owners
  rw [hk]
  cases hg : h.get ring.replicas ring.vnodes ring.nodes keyStr with
  | nil =>
    rw [hg, List.length_nil] at hlen
    omega
  | cons owner rest => simp only [hg]

/-- **The ring order of a key** has every distinct id of the roster exactly once. -/
theorem ringOrder_perm (hr : fromRoster roster n vnodes = .ok ring) (hv : 0 < vnodes)
    {keyStr : String} (hk : fromUtf8 key = some keyStr) :
    ∃ order, ring.ringOrderForKey h key = .ok order ∧
      (order.map MemberInfo.id).Perm (distinctIds roster) := by
  obtain ⟨ids, hids, hperm⟩ := owners_of_fromRoster (h := h) hr hv hk
  obtain ⟨order, ho, hmap, -⟩ := CoordinatorRing.members_of_subset
    (fun id hid => (nodes_perm_distinctIds hr).mem_iff.mpr (hperm.mem_iff.mp hid))
  refine ⟨order, ?_, by rwa [hmap]⟩
  unfold CoordinatorRing.ringOrderForKey
  rw [hids]
  exact ho

/-- Without virtual nodes the ring order is the one of a ring with one. -/
theorem ringOrder_perm_of_any (hr : fromRoster roster n vnodes = .ok ring) {keyStr : String}
    (hk : fromUtf8 key = some keyStr) : ∃ order, ring.ringOrderForKey h key = .ok order ∧
      (order.map MemberInfo.id).Perm (distinctIds roster) := by
  rcases Nat.eq_zero_or_pos vnodes with rfl | hv
  · obtain ⟨hne, hn, rfl⟩ := fromRoster_eq_ok.mp hr
    obtain ⟨order, ho, hperm⟩ :=
      ringOrder_perm (h := h) (fromRoster_eq_ok.mpr ⟨hne, hn, rfl⟩) Nat.one_pos hk
    exact ⟨order, (CoordinatorRing.ringOrderForKey_zero rfl key).trans ho, hperm⟩
  · exact ringOrder_perm hr hv hk

/-- **The ring serves its roster** for a key: the ring order has every distinct id exactly once and
at least `n` of them, so that no `put` panics at its slices; the preference list is its first `n`,
and the other members, the hint candidates, are not in it. -/
def Serves (h : HashRing) (ring : CoordinatorRing) (roster : List ClusterMember) (n : ℕ)
    (key : Bytes) : Prop :=
  ∃ order, ring.ringOrderForKey h key = .ok order ∧
    (order.map MemberInfo.id).Perm (distinctIds roster) ∧ n ≤ order.length ∧
    (∀ joined accepts, (put n order joined accepts).isSome = true) ∧
    ∃ pref, ring.preferenceListForKey h key n = .ok pref ∧ pref.length = n ∧
      pref = order.take n ∧ ∀ m ∈ order.drop n, m.id ∉ pref.map MemberInfo.id

/-- **The ring serves an accepted roster** exactly if the roster has at least `n` distinct ids. -/
theorem serves_iff (h : HashRing) (hr : fromRoster roster n vnodes = .ok ring) (hv : 0 < vnodes)
    {keyStr : String} (hk : fromUtf8 key = some keyStr) :
    Serves h ring roster n key ↔ n ≤ (distinctIds roster).length := by
  constructor
  · rintro ⟨order, -, hperm, hn, -⟩
    rwa [← hperm.length_eq, List.length_map]
  · intro hn
    obtain ⟨order, ho, hperm⟩ := ringOrder_perm (h := h) hr hv hk
    have hlen : n ≤ order.length := by rwa [← hperm.length_eq, List.length_map] at hn
    refine ⟨order, ho, hperm, hlen, fun joined accepts => by rw [put_eq_some hlen]; rfl,
      order.take n, CoordinatorRing.preferenceListForKey_eq_take n ho, ?_, rfl, fun m hm hid => ?_⟩
    · rw [List.length_take, min_eq_left hlen]
    · have hnd := CoordinatorRing.nodup_ringOrderForKey ho
      rw [← List.take_append_drop n order, List.map_append] at hnd
      obtain ⟨-, -, hdisj⟩ := List.nodup_append.mp hnd
      exact hdisj _ hid _ (List.mem_map_of_mem hm) rfl

/-- A roster that lists one of its three ids twice, for `n = 3`. -/
theorem serves_repeated_id : ∃ ring,
    fromRoster [.loopback "b" 1, .loopback "c" 2, .loopback "b" 3, .loopback "a" 4] 3 1 =
      .ok ring ∧
    Serves .inOrder ring [.loopback "b" 1, .loopback "c" 2, .loopback "b" 3, .loopback "a" 4] 3
      [107] := by
  have hk : fromUtf8 [107] = some "k" := by decide
  exact ⟨_, rfl, (serves_iff .inOrder rfl Nat.one_pos hk).mpr (by decide)⟩

/-- **A roster of two entries with one id** is accepted for `n = 2`, and every `put` panics. -/
theorem repeated_id_not_served : ∃ ring order,
    fromRoster [.loopback "a" 1, .loopback "a" 2] 2 1 = .ok ring ∧
    ring.ringOrderForKey .inOrder [107] = .ok order ∧
    (∀ joined accepts, put 2 order joined accepts = none) ∧
    ¬ Serves .inOrder ring [.loopback "a" 1, .loopback "a" 2] 2 [107] := by
  have hk : fromUtf8 [107] = some "k" := by decide
  have hone : ¬ 2 ≤ (distinctIds [.loopback "a" 1, .loopback "a" 2]).length := by decide
  refine ⟨_, _, rfl, rfl, fun joined accepts => rfl, ?_⟩
  rintro ⟨order, ho, hperm, hn, -⟩
  rw [← hperm.length_eq, List.length_map] at hone
  exact hone hn

end Diynamo.Coordinator.Roster
