import Diynamo.Cluster.Ring
import Diynamo.Coordinator.Get

/-! # Sloppy-quorum writes

`put` attempts the write on the first `n` nodes of the ring order (phase 1) and, for every write
that failed, walks the remaining nodes until one accepts a hint (phase 2). The outcomes come from
outside: `joined` lists the outcomes of the preferred writes in the order in which the tasks
complete, and `accepts k t c` tells whether the attempt after `k` others, with target `t` at
candidate `c`, succeeds.

Phase 2 is written as in the source, a loop over the failed nodes (`hintSlots`) around a loop over
the candidates (`trySlot`) with one cursor for both. `hintRun` is the same walk as a single loop
over the candidates (`hintSlots_eq_hintRun`), on which the accounting is proved. -/

namespace Diynamo.Coordinator.Put

open Diynamo.Store.Hints Diynamo.Cluster.Ring Diynamo.Coordinator.Get

/-- How the task of a preferred write ends: `Ok`, an error or a timeout, or a panic. -/
inductive WriteOutcome where
  | ok
  | error
  | panicked
deriving DecidableEq, Repr

/-- One hint request and its outcome. -/
structure Attempt where
  target : NodeId
  candidate : NodeId
  accepted : Bool
deriving DecidableEq, Repr

/-! ### Phase 1 -/

/-- The counters after the next task has completed; a panicked task does not tell its node. -/
def joinNext (s : ℕ × List NodeId) : NodeId × WriteOutcome → ℕ × List NodeId
  | (_, .ok) => (s.1 + 1, s.2)
  | (nodeId, .error) => (s.1, s.2 ++ [nodeId])
  | (_, .panicked) => s

/-- `(real_acks, failed_node_ids)`. -/
def phase1 (joined : List (NodeId × WriteOutcome)) : ℕ × List NodeId :=
  joined.foldl joinNext (0, [])

/-- The nodes with a given outcome, in order of completion. -/
def nodesWith (o : WriteOutcome) (joined : List (NodeId × WriteOutcome)) : List NodeId :=
  (joined.filter fun x => x.2 = o).map Prod.fst

theorem phase1_eq (joined : List (NodeId × WriteOutcome)) :
    phase1 joined = ((nodesWith .ok joined).length, nodesWith .error joined) := by
  have key : ∀ (l : List (NodeId × WriteOutcome)) (s : ℕ × List NodeId), l.foldl joinNext s =
      (s.1 + (nodesWith .ok l).length, s.2 ++ nodesWith .error l) := by
    intro l
    induction l with
    | nil => intro s; simp [nodesWith]
    | cons x l ih =>
      intro s
      rw [List.foldl_cons, ih]
      obtain ⟨i, o⟩ := x
      cases o <;> simp [joinNext, nodesWith, Nat.add_assoc, Nat.add_comm]
  rw [phase1, key]
  simp

/-! ### Phase 2 -/

section Hints

variable (prefIds : List NodeId) (accepts : ℕ → NodeId → NodeId → Bool)

/-- **The candidates for one failed node**: those tried, and the rest behind the cursor. A preferred
node among the candidates is skipped. -/
def trySlot (target : NodeId) : ℕ → List NodeId → List Attempt × List NodeId
  | _, [] => ([], [])
  | k, c :: cs =>
    if c ∈ prefIds then trySlot target k cs
    else if accepts k target c then ([⟨target, c, true⟩], cs)
    else
      let (attempts, rest) := trySlot target (k + 1) cs
      (⟨target, c, false⟩ :: attempts, rest)

/-- **The loop over the failed nodes.** The cursor is not reset between them. -/
def hintSlots : ℕ → List NodeId → List NodeId → List Attempt
  | _, [], _ => []
  | k, target :: targets, cands =>
    let (attempts, rest) := trySlot prefIds accepts target k cands
    attempts ++ hintSlots (k + attempts.length) targets rest

/-- The next attempt: the target, the candidate and the candidates behind it. -/
def nextHint : (targets cands : List NodeId) → Option (NodeId × NodeId × List NodeId)
  | [], _ => none
  | _ :: _, [] => none
  | target :: targets, c :: cs =>
    if c ∈ prefIds then nextHint (target :: targets) cs else some (target, c, cs)

/-- The failed nodes that are left after an attempt. -/
def targetsAfter (targets : List NodeId) (accepted : Bool) : List NodeId :=
  if accepted then targets.tail else targets

/-- Phase 2 as one walk over the candidates. -/
def hintRun : ℕ → List NodeId → List NodeId → List Attempt
  | _, _, [] => []
  | _, [], _ :: _ => []
  | k, target :: targets, c :: cs =>
    if c ∈ prefIds then hintRun k (target :: targets) cs
    else
      ⟨target, c, accepts k target c⟩ ::
        hintRun (k + 1) (targetsAfter (target :: targets) (accepts k target c)) cs

variable {prefIds accepts}

@[simp] theorem hintRun_nil_cands (k : ℕ) (targets : List NodeId) :
    hintRun prefIds accepts k targets [] = [] := by
  cases targets <;> rfl

@[simp] theorem hintRun_nil_targets (k : ℕ) (cands : List NodeId) :
    hintRun prefIds accepts k [] cands = [] := by
  cases cands <;> rfl

/-- **The nested loops are one walk over the candidates.** -/
theorem hintSlots_eq_hintRun : ∀ (cands targets : List NodeId) (k : ℕ),
    hintSlots prefIds accepts k targets cands = hintRun prefIds accepts k targets cands := by
  intro cands
  induction cands with
  | nil =>
    intro targets
    induction targets with
    | nil => intro k; rfl
    | cons t ts ih => intro k; simpa [hintSlots, trySlot] using ih k
  | cons c cs ih =>
    intro targets k
    cases targets with
    | nil => rfl
    | cons t ts =>
      have ih' := ih (t :: ts)
      simp only [hintSlots] at ih'
      rw [hintSlots, hintRun, trySlot]
      split_ifs with hc ha
      · exact ih' k
      · simp only [targetsAfter, ha, if_true, List.tail_cons, List.length_singleton,
          List.singleton_append, ih]
      · rw [Bool.not_eq_true] at ha
        simp only [targetsAfter, ha, List.length_cons, List.cons_append]
        rw [← Nat.add_assoc, Nat.add_right_comm, ih' (k + 1)]
        rfl

/-- The next attempt of the walk is the one `nextHint` finds. -/
theorem hintRun_eq_nextHint (k : ℕ) : ∀ (cands targets : List NodeId),
    hintRun prefIds accepts k targets cands =
      match nextHint prefIds targets cands with
      | none => []
      | some (target, c, cs) =>
        ⟨target, c, accepts k target c⟩ ::
          hintRun prefIds accepts (k + 1) (targetsAfter targets (accepts k target c)) cs
  | [], targets => by cases targets <;> rfl
  | c :: cs, [] => rfl
  | c :: cs, t :: ts => by
    rw [hintRun, nextHint]
    split_ifs with hc
    · exact hintRun_eq_nextHint k cs (t :: ts)
    · rfl

/-- The next attempt is for the first failed node, at a candidate that is not preferred. -/
theorem nextHint_spec {target c : NodeId} {cs : List NodeId} : ∀ {targets cands : List NodeId},
    nextHint prefIds targets cands = some (target, c, cs) →
      targets.head? = some target ∧ c ∉ prefIds ∧ c ∈ cands ∧ cs ⊆ cands
  | [], _, h => by simp [nextHint] at h
  | _ :: _, [], h => by simp [nextHint] at h
  | t :: ts, d :: ds, h => by
    rw [nextHint] at h
    split_ifs at h with hd
    · obtain ⟨h1, h2, h3, h4⟩ := nextHint_spec h
      exact ⟨h1, h2, List.mem_cons_of_mem _ h3, List.subset_cons_of_subset _ h4⟩
    · cases h
      exact ⟨rfl, hd, List.mem_cons_self, List.subset_cons_self _ _⟩

variable (prefIds accepts) in
/-- Every attempt takes the next candidate. -/
theorem map_candidate_sublist : ∀ (cands targets : List NodeId) (k : ℕ),
    ((hintRun prefIds accepts k targets cands).map Attempt.candidate).Sublist cands
  | [], targets, k => by simp
  | c :: cs, [], k => by simp
  | c :: cs, t :: ts, k => by
    rw [hintRun]
    split_ifs with hc
    · exact (map_candidate_sublist cs (t :: ts) k).cons c
    · exact (map_candidate_sublist cs _ (k + 1)).cons_cons c

/-- The accepted hints of an attempt list. -/
def acceptedHints (attempts : List Attempt) : List Attempt := attempts.filter Attempt.accepted

variable (prefIds accepts) in
/-- Every accepted hint takes the next failed node. -/
theorem map_target_sublist : ∀ (cands targets : List NodeId) (k : ℕ),
    ((acceptedHints (hintRun prefIds accepts k targets cands)).map Attempt.target).Sublist targets
  | [], targets, k => by simp [acceptedHints]
  | c :: cs, [], k => by simp [acceptedHints]
  | c :: cs, t :: ts, k => by
    rw [hintRun]
    split_ifs with hc
    · exact map_target_sublist cs (t :: ts) k
    · cases ha : accepts k t c with
      | true =>
        simp only [acceptedHints, List.filter_cons_of_pos, List.map_cons]
        exact (map_target_sublist cs ts (k + 1)).cons_cons t
      | false =>
        simp only [acceptedHints]
        rw [List.filter_cons_of_neg (by simp)]
        exact map_target_sublist cs (t :: ts) (k + 1)

/-- **If acceptance does not depend on the target**, the hints go to the first accepting candidates,
one for each failed node as long as there are some. -/
theorem accepted_candidates {acc : NodeId → Bool} (hacc : ∀ k t c, accepts k t c = acc c) :
    ∀ (cands targets : List NodeId) (k : ℕ), (∀ c ∈ cands, c ∉ prefIds) →
      (acceptedHints (hintRun prefIds accepts k targets cands)).map Attempt.candidate =
        (cands.filter acc).take targets.length
  | [], targets, k, _ => by simp [acceptedHints]
  | c :: cs, [], k, _ => by simp [acceptedHints]
  | c :: cs, t :: ts, k, hp => by
    have hcs : ∀ c ∈ cs, c ∉ prefIds := fun x hx => hp x (List.mem_cons_of_mem _ hx)
    rw [hintRun, if_neg (hp c List.mem_cons_self), hacc]
    cases ha : acc c with
    | true =>
      have ih := accepted_candidates hacc cs ts (k + 1) hcs
      rw [List.filter_cons_of_pos ha, List.length_cons, List.take_succ_cons, ← ih]
      rfl
    | false =>
      have ih := accepted_candidates hacc cs (t :: ts) (k + 1) hcs
      rw [List.filter_cons_of_neg (by simp [ha]), ← ih, acceptedHints,
        List.filter_cons_of_neg (by simp)]
      rfl

end Hints

/-! ### The whole operation -/

/-- What a `put` did. -/
structure PutTrace where
  joined : List (NodeId × WriteOutcome)
  attempts : List Attempt
deriving DecidableEq, Repr

namespace PutTrace

variable (tr : PutTrace)

def realAcks : ℕ := (phase1 tr.joined).1
def hintAcks : ℕ := (acceptedHints tr.attempts).length
def acks : ℕ := tr.realAcks + tr.hintAcks

/-- The nodes counted as acks: preferred nodes that answered `Ok`, candidates that took a hint. -/
def ackNodes : List NodeId :=
  nodesWith .ok tr.joined ++ (acceptedHints tr.attempts).map Attempt.candidate

/-- **The result** of the operation, for the write quorum `w`. -/
def result (w : ℕ) : Except QuorumFailed Unit :=
  if w ≤ tr.acks then .ok () else .error ⟨tr.acks, w⟩

end PutTrace

/-- **`put`**, for the ring order of the key. `none` is the panic of the slice `all_in_order[..n]`.
-/
def put (n : ℕ) (allInOrder : List MemberInfo) (joined : List (NodeId × WriteOutcome))
    (accepts : ℕ → NodeId → NodeId → Bool) : Option PutTrace :=
  if allInOrder.length < n then none
  else
    let prefIds := (allInOrder.take n).map MemberInfo.id
    let hintCandidates := (allInOrder.drop n).map MemberInfo.id
    some ⟨joined, hintSlots prefIds accepts 0 (phase1 joined).2 hintCandidates⟩

/-- What a `put` with preferred nodes `prefIds` and hint candidates `cands` accounts for. -/
structure PutTrace.Accounted (prefIds cands : List NodeId) (tr : PutTrace) : Prop where
  /-- Every node is contacted at most once, as a preferred node or as a candidate. -/
  contacted_once : (prefIds ++ tr.attempts.map Attempt.candidate).Nodup
  candidates_mem : ∀ a ∈ tr.attempts, a.candidate ∈ cands
  /-- At most one accepted hint for each errored node, and none for another one. -/
  targets_nodup : ((acceptedHints tr.attempts).map Attempt.target).Nodup
  targets_errored : ∀ a ∈ tr.attempts, a.target ∈ nodesWith .error tr.joined
  /-- The acks are distinct nodes. -/
  ackNodes_nodup : tr.ackNodes.Nodup
  acks_eq : tr.acks = tr.ackNodes.length
  acks_eq_add : tr.acks = (nodesWith .ok tr.joined).length + (acceptedHints tr.attempts).length
  acks_le : tr.acks ≤ prefIds.length

variable {n : ℕ} {allInOrder : List MemberInfo} {joined : List (NodeId × WriteOutcome)}
  {accepts : ℕ → NodeId → NodeId → Bool}

theorem put_eq_some (hlen : n ≤ allInOrder.length) :
    put n allInOrder joined accepts = some ⟨joined,
      hintRun ((allInOrder.take n).map MemberInfo.id) accepts 0 (nodesWith .error joined)
        ((allInOrder.drop n).map MemberInfo.id)⟩ := by
  simp only [put, not_lt.mpr hlen, if_false, phase1_eq, hintSlots_eq_hintRun]

/-- Every attempt is for a failed node. -/
theorem target_mem {prefIds : List NodeId} : ∀ (cands targets : List NodeId) (k : ℕ),
    ∀ a ∈ hintRun prefIds accepts k targets cands, a.target ∈ targets
  | [], targets, k, a, ha => by simp at ha
  | c :: cs, [], k, a, ha => by simp at ha
  | c :: cs, t :: ts, k, a, ha => by
    rw [hintRun] at ha
    split_ifs at ha with hc
    · exact target_mem cs (t :: ts) k a ha
    · rcases List.mem_cons.mp ha with rfl | ha
      · exact List.mem_cons_self
      · have := target_mem cs _ (k + 1) a ha
        unfold targetsAfter at this
        split_ifs at this
        · exact List.mem_cons_of_mem _ this
        · exact this

theorem nodesWith_subset (o : WriteOutcome) : nodesWith o joined ⊆ joined.map Prod.fst :=
  List.map_subset _ (List.filter_subset_self _)

theorem nodup_nodesWith (o : WriteOutcome) (hnd : (joined.map Prod.fst).Nodup) :
    (nodesWith o joined).Nodup :=
  hnd.sublist (List.filter_sublist.map _)

/-- At most one outcome for each node. -/
theorem length_ok_add_error (joined : List (NodeId × WriteOutcome)) :
    (nodesWith .ok joined).length + (nodesWith .error joined).length ≤ joined.length := by
  induction joined with
  | nil => simp [nodesWith]
  | cons x l ih =>
    obtain ⟨i, o⟩ := x
    simp only [nodesWith, List.length_map] at ih ⊢
    cases o <;> simp <;> omega

theorem length_acceptedHints_le (prefIds : List NodeId) (accepts : ℕ → NodeId → NodeId → Bool)
    (k : ℕ) (cands targets : List NodeId) :
    (acceptedHints (hintRun prefIds accepts k targets cands)).length ≤ targets.length := by
  have h := (map_target_sublist prefIds accepts cands targets k).length_le
  rwa [List.length_map] at h

/-- The accounting of a `put`, on the walk over the candidates. -/
theorem accounted_hintRun (accepts : ℕ → NodeId → NodeId → Bool) {prefIds cands : List NodeId}
    (hnd : (prefIds ++ cands).Nodup)
    (hj : (joined.map Prod.fst).Perm prefIds) :
    PutTrace.Accounted prefIds cands
      ⟨joined, hintRun prefIds accepts 0 (nodesWith .error joined) cands⟩ := by
  obtain ⟨hpn, hcn, hdisj⟩ := List.nodup_append.mp hnd
  have hcand := map_candidate_sublist prefIds accepts cands (nodesWith .error joined) 0
  have hjn : (joined.map Prod.fst).Nodup := hj.nodup_iff.mpr hpn
  have hok : nodesWith .ok joined ⊆ prefIds := fun x hx => hj.subset (nodesWith_subset _ hx)
  have hacc : ((acceptedHints (hintRun prefIds accepts 0 (nodesWith .error joined) cands)).map
      Attempt.candidate).Sublist cands := (List.filter_sublist.map _).trans hcand
  have hlen : joined.length = prefIds.length := by rw [← hj.length_eq, List.length_map]
  constructor
  · exact hnd.sublist (hcand.append_left prefIds)
  · exact fun a ha => hcand.subset (List.mem_map_of_mem ha)
  · exact (nodup_nodesWith _ hjn).sublist (map_target_sublist prefIds accepts cands _ 0)
  · exact fun a ha => target_mem cands _ 0 a ha
  · refine List.nodup_append.mpr ⟨nodup_nodesWith _ hjn, ?_, fun a ha b hb => ?_⟩
    · exact hcn.sublist hacc
    · exact hdisj a (hok ha) b (hacc.subset hb)
  · simp only [PutTrace.acks, PutTrace.realAcks, PutTrace.hintAcks, PutTrace.ackNodes, phase1_eq,
      List.length_append, List.length_map]
  · simp only [PutTrace.acks, PutTrace.realAcks, PutTrace.hintAcks, phase1_eq]
  · have h1 := length_ok_add_error joined
    have h2 := length_acceptedHints_le prefIds accepts 0 cands (nodesWith .error joined)
    simp only [PutTrace.acks, PutTrace.realAcks, PutTrace.hintAcks, phase1_eq]
    omega

/-- The number of acks when acceptance does not depend on the target. -/
theorem acks_of_target_independent (joined : List (NodeId × WriteOutcome))
    {prefIds cands : List NodeId} {acc : NodeId → Bool} (hacc : ∀ k t c, accepts k t c = acc c)
    (hp : ∀ c ∈ cands, c ∉ prefIds) :
    PutTrace.acks ⟨joined, hintRun prefIds accepts 0 (nodesWith .error joined) cands⟩ =
      (nodesWith .ok joined).length +
        min (nodesWith .error joined).length (cands.filter acc).length := by
  have h := congrArg List.length (accepted_candidates hacc cands (nodesWith .error joined) 0 hp)
  rw [List.length_map, List.length_take] at h
  simp only [PutTrace.acks, PutTrace.realAcks, PutTrace.hintAcks, phase1_eq, h]

theorem length_nodesWith_perm {joined' : List (NodeId × WriteOutcome)} (o : WriteOutcome)
    (h : joined'.Perm joined) : (nodesWith o joined').length = (nodesWith o joined).length :=
  ((h.filter _).map _).length_eq

/-- **Sloppy-quorum accounting.** For a ring order without repetition, any outcomes of the preferred
writes in any order of completion, and any outcomes of the hint attempts: the contacts, the targets
and the acks are distinct, the result compares the number of acks with `w`, and if acceptance does
not depend on the target, the first accepting candidates take the hints and the result does not
depend on the order of completion. -/
theorem put_accounted (hlen : n ≤ allInOrder.length)
    (hnd : (allInOrder.map MemberInfo.id).Nodup)
    (hj : (joined.map Prod.fst).Perm ((allInOrder.take n).map MemberInfo.id)) :
    ∃ tr, put n allInOrder joined accepts = some tr ∧ tr.joined = joined ∧
      tr.Accounted ((allInOrder.take n).map MemberInfo.id)
        ((allInOrder.drop n).map MemberInfo.id) ∧
      tr.acks ≤ n ∧
      (∀ w, (tr.result w = .ok () ↔ w ≤ tr.acks) ∧
        (tr.acks < w → tr.result w = .error ⟨tr.acks, w⟩)) ∧
      ∀ acc : NodeId → Bool, (∀ k t c, accepts k t c = acc c) →
        (acceptedHints tr.attempts).map Attempt.candidate =
          (((allInOrder.drop n).map MemberInfo.id).filter acc).take
            (min (nodesWith .error joined).length
              (((allInOrder.drop n).map MemberInfo.id).filter acc).length) ∧
        ∀ joined' accepts', joined'.Perm joined → (∀ k t c, accepts' k t c = acc c) →
          ∃ tr', put n allInOrder joined' accepts' = some tr' ∧ tr'.acks = tr.acks ∧
            ∀ w, tr'.result w = tr.result w := by
  have hsplit : ((allInOrder.take n).map MemberInfo.id ++
      (allInOrder.drop n).map MemberInfo.id).Nodup := by
    rwa [← List.map_append, List.take_append_drop]
  obtain ⟨-, -, hdisj⟩ := List.nodup_append.mp hsplit
  have hp : ∀ c ∈ (allInOrder.drop n).map MemberInfo.id,
      c ∉ (allInOrder.take n).map MemberInfo.id := fun c hc hc' => hdisj c hc' c hc rfl
  have hA := accounted_hintRun accepts hsplit hj
  refine ⟨_, put_eq_some hlen, rfl, hA, ?_, fun w => ?_, fun acc hacc => ⟨?_, ?_⟩⟩
  · exact hA.acks_le.trans (by simp)
  · unfold PutTrace.result
    split_ifs with hw
    · exact ⟨iff_of_true rfl hw, fun h => absurd hw (not_le.mpr h)⟩
    · exact ⟨iff_of_false (by simp) hw, fun _ => rfl⟩
  · rw [accepted_candidates hacc _ _ _ hp, List.take_eq_take_min]
  · intro joined' accepts' hperm hacc'
    have hacks : PutTrace.acks ⟨joined', _⟩ = PutTrace.acks ⟨joined, _⟩ :=
      (acks_of_target_independent joined' hacc' hp).trans <| by
        rw [length_nodesWith_perm .ok hperm, length_nodesWith_perm .error hperm,
          ← acks_of_target_independent joined hacc hp]
    refine ⟨_, put_eq_some hlen, hacks, fun w => ?_⟩
    simp only [PutTrace.result, hacks]

/-- A write on four nodes with `n = 2`: one preferred node fails, the first candidate refuses the
hint and the second takes it. -/
theorem put_accounted_failover :
    ∃ tr, put 2 ([.loopback "a" 1, .loopback "b" 2, .loopback "c" 3, .loopback "d" 4].map
        MemberInfo.ofClusterMember) [("b", .error), ("a", .ok)] (fun _ _ c => c = "d") = some tr ∧
      tr.Accounted ["a", "b"] ["c", "d"] ∧ tr.acks ≤ 2 := by
  obtain ⟨tr, htr, -, hA, hle, -⟩ := @put_accounted 2
    ([.loopback "a" 1, .loopback "b" 2, .loopback "c" 3, .loopback "d" 4].map
      MemberInfo.ofClusterMember)
    [("b", .error), ("a", .ok)] (fun _ _ c => c = "d") (by decide) (by decide) (by decide)
  exact ⟨tr, htr, hA, hle⟩

end Diynamo.Coordinator.Put
