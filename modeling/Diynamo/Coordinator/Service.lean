import Diynamo.Coordinator.Roster

/-! # What an accepted configuration can serve

`ReplicatedStore::new` compares the size of the roster with `n`. The quorums `w` and `r` are only
looked at when acks and responses are counted, and the number of virtual nodes is passed on to the
hash ring, which takes none for one. So an accepted configuration serves every request when all goes
well, and answers none that no node has answered, if and only if both quorums lie between one and
`n` (`canServe_iff`). -/

namespace Diynamo.Coordinator.Service

open Diynamo.Lib.Utf8 Diynamo.Store.RocksDb Diynamo.Store.Hints Diynamo.Cluster.Ring
  Diynamo.Coordinator.Get Diynamo.Coordinator.Put Diynamo.Coordinator.Roster

structure ReplicatedStore where
  ring : CoordinatorRing
  n : ℕ
  w : ℕ
  r : ℕ

inductive StoreError where
  | ring (e : RingError)
  | quorumFailed (e : QuorumFailed)
deriving DecidableEq, Repr

namespace ReplicatedStore

/-- **The constructor** makes no check but those of the ring. -/
def new (roster : List ClusterMember) (n w r vnodes : ℕ) : Except RingError ReplicatedStore :=
  match fromRoster roster n vnodes with
  | .error e => .error e
  | .ok ring => .ok ⟨ring, n, w, r⟩

section Operations

variable (h : HashRing) (s : ReplicatedStore)

/-- **`put`**, for the outcomes of the preferred writes in order of completion and those of the hint
attempts. `none` is the panic at the slices of the ring order. -/
def put (key : Bytes) (joined : List (NodeId × WriteOutcome))
    (accepts : ℕ → NodeId → NodeId → Bool) : Option (Except StoreError PutTrace) :=
  match s.ring.ringOrderForKey h key with
  | .error e => some (.error (.ring e))
  | .ok allInOrder =>
    match Put.put s.n allInOrder joined accepts with
    | none => none
    | some tr =>
      match tr.result s.w with
      | .error e => some (.error (.quorumFailed e))
      | .ok () => some (.ok tr)

/-- **`get`**, for the successful responses in order of completion. -/
def get (key : Bytes) (responses : List (NodeId × Option VersionedValue)) :
    Except StoreError (Option VersionedValue) :=
  match s.ring.preferenceListForKey h key s.n with
  | .error e => .error (.ring e)
  | .ok _ =>
    match Get.get s.r responses with
    | .error e => .error (.quorumFailed e)
    | .ok (winner, _) => .ok winner

/-- One outcome from each preferred node. -/
def Writes (key : Bytes) (joined : List (NodeId × WriteOutcome)) : Prop :=
  ∀ pref, s.ring.preferenceListForKey h key s.n = .ok pref →
    (joined.map Prod.fst).Perm (pref.map MemberInfo.id)

/-- At most one response from each preferred node. -/
def Reads (key : Bytes) (responses : List (NodeId × Option VersionedValue)) : Prop :=
  ∀ pref, s.ring.preferenceListForKey h key s.n = .ok pref →
    (responses.map Prod.fst).Subperm (pref.map MemberInfo.id)

/-- A response from each preferred node. -/
def AllRead (key : Bytes) (responses : List (NodeId × Option VersionedValue)) : Prop :=
  ∀ pref, s.ring.preferenceListForKey h key s.n = .ok pref →
    (responses.map Prod.fst).Perm (pref.map MemberInfo.id)

/-- **The store can serve requests**: a put or get of a UTF-8 key returns `Ok` when all its writes
or reads succeed, and whatever fails, one that returns `Ok` has an ack or a response. -/
structure CanServe : Prop where
  put_ok : ∀ key keyStr, fromUtf8 key = some keyStr → ∀ joined accepts, s.Writes h key joined →
    (∀ x ∈ joined, x.2 = .ok) → ∃ tr, s.put h key joined accepts = some (.ok tr)
  get_ok : ∀ key keyStr, fromUtf8 key = some keyStr → ∀ responses, s.AllRead h key responses →
    ∃ v, s.get h key responses = .ok v
  put_backed : ∀ key joined accepts tr, s.Writes h key joined →
    s.put h key joined accepts = some (.ok tr) → tr.ackNodes ≠ []
  get_backed : ∀ key responses v, s.Reads h key responses →
    s.get h key responses = .ok v → responses ≠ []

end Operations

variable {h : HashRing} {s : ReplicatedStore} {roster : List ClusterMember} {n w r vnodes : ℕ}
  {key : Bytes}

/-! ### Puts and gets -/

theorem acks_eq_length (tr : PutTrace) : tr.acks = tr.ackNodes.length := by
  simp only [PutTrace.acks, PutTrace.realAcks, PutTrace.hintAcks, PutTrace.ackNodes, phase1_eq,
    List.length_append, List.length_map]

/-- Without an errored write there is no hint. -/
theorem put_of_no_error {order : List MemberInfo} {joined : List (NodeId × WriteOutcome)}
    {accepts : ℕ → NodeId → NodeId → Bool} (ho : s.ring.ringOrderForKey h key = .ok order)
    (hlen : s.n ≤ order.length) (hne : nodesWith .error joined = []) :
    s.put h key joined accepts =
      if s.w ≤ (nodesWith .ok joined).length then some (.ok ⟨joined, []⟩)
      else some (.error (.quorumFailed ⟨(nodesWith .ok joined).length, s.w⟩)) := by
  have hacks : PutTrace.acks ⟨joined, []⟩ = (nodesWith .ok joined).length := by
    simp only [PutTrace.acks, PutTrace.realAcks, PutTrace.hintAcks, phase1_eq, acceptedHints,
      List.filter_nil, List.length_nil, Nat.add_zero]
  unfold put
  rw [ho]
  simp only [put_eq_some hlen, hne, hintRun_nil_targets, PutTrace.result, hacks]
  split_ifs <;> rfl

/-- A put that returns `Ok` has reached its quorum. -/
theorem le_acks_of_put {joined : List (NodeId × WriteOutcome)}
    {accepts : ℕ → NodeId → NodeId → Bool} {tr : PutTrace}
    (hp : s.put h key joined accepts = some (.ok tr)) : s.w ≤ tr.acks := by
  unfold put at hp
  split at hp
  · cases hp
  · split at hp
    · cases hp
    · next tr' _ =>
      unfold PutTrace.result at hp
      split_ifs at hp with hw
      · cases hp
        exact hw
      · cases hp

theorem get_eq_ok_iff {responses : List (NodeId × Option VersionedValue)} {pref : List MemberInfo}
    (hp : s.ring.preferenceListForKey h key s.n = .ok pref) :
    (∃ v, s.get h key responses = .ok v) ↔ s.r ≤ responses.length := by
  unfold get
  rw [hp]
  simp only [Get.get]
  split_ifs with hr
  · simpa using hr
  · simpa using hr

/-- A get that returns `Ok` has reached its quorum. -/
theorem le_length_of_get {responses : List (NodeId × Option VersionedValue)}
    {v : Option VersionedValue} (hg : s.get h key responses = .ok v) : s.r ≤ responses.length := by
  cases hp : s.ring.preferenceListForKey h key s.n with
  | error e =>
    unfold get at hg
    rw [hp] at hg
    cases hg
  | ok pref => exact (get_eq_ok_iff hp).mp ⟨v, hg⟩

/-! ### Accepted configurations -/

theorem new_eq_ok : new roster n w r vnodes = .ok s ↔
    ∃ ring, fromRoster roster n vnodes = .ok ring ∧ s = ⟨ring, n, w, r⟩ := by
  unfold new
  cases fromRoster roster n vnodes with
  | error e => simp
  | ok ring => simp [eq_comm]

/-- **A key has a ring order** with at least `n` members, the first `n` of them preferred. -/
structure HasOrder (h : HashRing) (s : ReplicatedStore) (key : Bytes) (order : List MemberInfo) :
    Prop where
  order_eq : s.ring.ringOrderForKey h key = .ok order
  le_length : s.n ≤ order.length
  pref_eq : s.ring.preferenceListForKey h key s.n = .ok (order.take s.n)
  length_pref : (order.take s.n).length = s.n

/-- **An accepted roster of distinct ids** gives every UTF-8 key a ring order. -/
theorem hasOrder_of_new (hd : (roster.map ClusterMember.id).Nodup)
    (hs : new roster n w r vnodes = .ok s) {keyStr : String} (hk : fromUtf8 key = some keyStr) :
    ∃ order, HasOrder h s key order := by
  obtain ⟨ring, hr, rfl⟩ := new_eq_ok.mp hs
  obtain ⟨order, ho, hperm⟩ := ringOrder_perm_of_any (h := h) hr hk
  have hlen : order.length = roster.length := by
    rw [← List.length_map MemberInfo.id, hperm.length_eq, distinctIds, hd.dedup, List.length_map]
  have hn : n ≤ order.length := hlen ▸ (fromRoster_eq_ok.mp hr).2.1
  refine ⟨order, ho, hn, CoordinatorRing.preferenceListForKey_eq_take n ho, ?_⟩
  rw [List.length_take, min_eq_left hn]

/-- The outcomes of the preferred writes if all end in the same way. -/
def allEnd (o : WriteOutcome) (pref : List MemberInfo) : List (NodeId × WriteOutcome) :=
  pref.map fun m => (m.id, o)

theorem map_fst_allEnd (o : WriteOutcome) (pref : List MemberInfo) :
    (allEnd o pref).map Prod.fst = pref.map MemberInfo.id := by
  rw [allEnd, List.map_map]
  rfl

theorem nodesWith_allEnd (o o' : WriteOutcome) (pref : List MemberInfo) :
    nodesWith o' (allEnd o pref) = if o = o' then pref.map MemberInfo.id else [] := by
  unfold nodesWith allEnd
  split_ifs with he
  · rw [List.filter_eq_self.mpr (by simp [he]), List.map_map]
    rfl
  · rw [List.filter_eq_nil_iff.mpr (by simp [he]), List.map_nil]

theorem snd_of_mem_allEnd {o : WriteOutcome} {pref : List MemberInfo} :
    ∀ x ∈ allEnd o pref, x.2 = o := by
  intro x hx
  obtain ⟨m, -, rfl⟩ := List.mem_map.mp hx
  rfl

section Order

variable {order : List MemberInfo} (ho : HasOrder h s key order)

include ho

theorem writes_allEnd (o : WriteOutcome) : s.Writes h key (allEnd o (order.take s.n)) := by
  intro pref hp
  rw [ho.pref_eq] at hp
  cases hp
  rw [map_fst_allEnd]

theorem length_of_allRead {responses : List (NodeId × Option VersionedValue)}
    (hreads : s.AllRead h key responses) : responses.length = s.n := by
  have hlen := (hreads _ ho.pref_eq).length_eq
  rwa [List.length_map, List.length_map, ho.length_pref] at hlen

/-- **A put whose writes all succeed** has `n` acks. -/
theorem put_of_all_ok {joined : List (NodeId × WriteOutcome)} (hwrites : s.Writes h key joined)
    (hall : ∀ x ∈ joined, x.2 = .ok) (accepts : ℕ → NodeId → NodeId → Bool) :
    s.put h key joined accepts =
      if s.w ≤ s.n then some (.ok ⟨joined, []⟩)
      else some (.error (.quorumFailed ⟨s.n, s.w⟩)) := by
  have hok : nodesWith .ok joined = joined.map Prod.fst := by
    unfold nodesWith
    rw [List.filter_eq_self.mpr fun x hx => by simpa using hall x hx]
  have herror : nodesWith .error joined = [] := by
    unfold nodesWith
    rw [List.filter_eq_nil_iff.mpr fun x hx => by simp [hall x hx], List.map_nil]
  have hcount : (nodesWith .ok joined).length = s.n := by
    rw [hok, (hwrites _ ho.pref_eq).length_eq, List.length_map]
    exact ho.length_pref
  rw [put_of_no_error ho.order_eq ho.le_length herror, hcount]

/-- If all writes panic, a put without a quorum would succeed. -/
theorem pos_w_of_canServe (hc : s.CanServe h) : 1 ≤ s.w := by
  by_contra hw
  have hz : s.w = 0 := by omega
  have herror : nodesWith .error (allEnd .panicked (order.take s.n)) = [] := by
    rw [nodesWith_allEnd, if_neg nofun]
  have hp : s.put h key (allEnd .panicked (order.take s.n)) (fun _ _ _ => false) = _ :=
    put_of_no_error ho.order_eq ho.le_length herror
  rw [hz, if_pos (Nat.zero_le _)] at hp
  refine hc.put_backed key _ _ _ (writes_allEnd ho .panicked) hp ?_
  simp [PutTrace.ackNodes, nodesWith_allEnd, acceptedHints]

/-- If all writes succeed, a put with a larger quorum would fail. -/
theorem w_le_of_canServe (hc : s.CanServe h) {keyStr : String}
    (hk : fromUtf8 key = some keyStr) : s.w ≤ s.n := by
  have hwrites := writes_allEnd ho .ok
  obtain ⟨tr, htr⟩ := hc.put_ok key keyStr hk _ (fun _ _ _ => false) hwrites snd_of_mem_allEnd
  rw [put_of_all_ok ho hwrites snd_of_mem_allEnd] at htr
  by_contra hw
  rw [if_neg hw] at htr
  cases htr

/-- If no node responds, a get without a quorum would succeed. -/
theorem pos_r_of_canServe (hc : s.CanServe h) : 1 ≤ s.r := by
  by_contra hr
  have hle : s.r ≤ ([] : List (NodeId × Option VersionedValue)).length := by simpa using hr
  obtain ⟨v, hg⟩ := (get_eq_ok_iff ho.pref_eq).mpr hle
  exact hc.get_backed key [] v (fun _ _ => List.nil_subperm) hg rfl

/-- If all nodes respond, a get with a larger quorum would fail. -/
theorem r_le_of_canServe (hc : s.CanServe h) {keyStr : String}
    (hk : fromUtf8 key = some keyStr) : s.r ≤ s.n := by
  have hreads : s.AllRead h key ((order.take s.n).map fun m => (m.id, none)) := by
    intro pref hp
    rw [ho.pref_eq] at hp
    cases hp
    rw [List.map_map]
    rfl
  rw [← length_of_allRead ho hreads]
  exact (get_eq_ok_iff ho.pref_eq).mp (hc.get_ok key keyStr hk _ hreads)

end Order

/-- **If all goes well** and the quorums are at most `n`, puts and gets succeed. -/
theorem canServe_of_bounds (hd : (roster.map ClusterMember.id).Nodup)
    (hs : new roster n w r vnodes = .ok s) (hw : 1 ≤ w) (hwn : w ≤ n) (hr : 1 ≤ r) (hrn : r ≤ n) :
    s.CanServe h := by
  have horder : ∀ {key : Bytes} {keyStr : String}, fromUtf8 key = some keyStr →
      ∃ order, HasOrder h s key order := fun hk => hasOrder_of_new hd hs hk
  obtain ⟨ring, hring, rfl⟩ := new_eq_ok.mp hs
  constructor
  · intro key keyStr hk joined accepts hwrites hall
    obtain ⟨order, ho⟩ := horder hk
    rw [put_of_all_ok ho hwrites hall, if_pos hwn]
    exact ⟨_, rfl⟩
  · intro key keyStr hk responses hreads
    obtain ⟨order, ho⟩ := horder hk
    exact (get_eq_ok_iff ho.pref_eq).mpr (hrn.trans_eq (length_of_allRead ho hreads).symm)
  · intro key joined accepts tr _ hp
    have hle : w ≤ tr.acks := le_acks_of_put hp
    rw [acks_eq_length] at hle
    exact List.ne_nil_of_length_pos (hw.trans hle)
  · intro key responses v _ hg
    have hle : r ≤ responses.length := le_length_of_get hg
    exact List.ne_nil_of_length_pos (hr.trans hle)

/-- The empty key is UTF-8. -/
theorem fromUtf8_nil : fromUtf8 [] = some "" := by decide

/-- **A configuration that can serve requests** has quorums between one and `n`. -/
theorem bounds_of_canServe (hd : (roster.map ClusterMember.id).Nodup)
    (hs : new roster n w r vnodes = .ok s) (hc : s.CanServe h) :
    (1 ≤ w ∧ w ≤ n) ∧ 1 ≤ r ∧ r ≤ n := by
  obtain ⟨order, ho⟩ := hasOrder_of_new (h := h) hd hs fromUtf8_nil
  obtain ⟨ring, hring, rfl⟩ := new_eq_ok.mp hs
  exact ⟨⟨pos_w_of_canServe ho hc, w_le_of_canServe ho hc fromUtf8_nil⟩,
    pos_r_of_canServe ho hc, r_le_of_canServe ho hc fromUtf8_nil⟩

/-- **An accepted configuration** with distinct ids can serve requests if and only if both quorums
are between one and `n`. -/
theorem canServe_iff (h : HashRing) (hd : (roster.map ClusterMember.id).Nodup)
    (hs : new roster n w r vnodes = .ok s) :
    s.CanServe h ↔ (1 ≤ w ∧ w ≤ n) ∧ 1 ≤ r ∧ r ≤ n :=
  ⟨bounds_of_canServe hd hs, fun ⟨⟨hw, hwn⟩, hr, hrn⟩ =>
    canServe_of_bounds hd hs hw hwn hr hrn⟩

/-- Three nodes, `n = 3` and both quorums 2. -/
theorem canServe_three : ∃ s,
    new [.loopback "b" 2, .loopback "c" 3, .loopback "a" 1] 3 2 2 1 = .ok s ∧
      s.CanServe .inOrder := by
  have hd : ([.loopback "b" 2, .loopback "c" 3, .loopback "a" 1].map ClusterMember.id).Nodup := by
    decide
  obtain ⟨s, hs⟩ : ∃ s, new [.loopback "b" 2, .loopback "c" 3, .loopback "a" 1] 3 2 2 1 = .ok s :=
    ⟨_, rfl⟩
  exact ⟨s, hs, (canServe_iff .inOrder hd hs).mpr (by decide)⟩

/-- **Three nodes, `n = 3` and `w = 4`**: the configuration is accepted, and a put fails though all
three writes succeed. -/
theorem oversized_quorum_fails : ∃ s,
    new [.loopback "b" 2, .loopback "c" 3, .loopback "a" 1] 3 4 2 1 = .ok s ∧
      (∀ accepts, s.put .inOrder [107] [("b", .ok), ("c", .ok), ("a", .ok)] accepts =
        some (.error (.quorumFailed ⟨3, 4⟩))) ∧
      ¬ s.CanServe .inOrder := by
  have hk : fromUtf8 [107] = some "k" := by decide
  have hput : ∀ s, new [.loopback "b" 2, .loopback "c" 3, .loopback "a" 1] 3 4 2 1 = .ok s →
      ∀ accepts, s.put .inOrder [107] [("b", .ok), ("c", .ok), ("a", .ok)] accepts =
        some (.error (.quorumFailed ⟨3, 4⟩)) := by
    intro s hs accepts
    cases hs
    rfl
  refine ⟨_, rfl, hput _ rfl, fun hc => ?_⟩
  obtain ⟨tr, htr⟩ := hc.put_ok [107] "k" hk [("b", .ok), ("c", .ok), ("a", .ok)]
    (fun _ _ _ => false) (fun pref hp => by cases hp; rfl) (by decide)
  rw [hput _ rfl] at htr
  cases htr

end ReplicatedStore

end Diynamo.Coordinator.Service
