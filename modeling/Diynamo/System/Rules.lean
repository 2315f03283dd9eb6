import Diynamo.Lib.Run
import Diynamo.System.Step

/-! # What a step does to stores, processes and messages

Every request reads a key, writes a version conditionally or stores a hint (`Job.reads`,
`Job.writes`, `Job.hints`). One lemma for each part of the state says what a step can change in it:
`node_step`, `localStore_step`, `hint_step`, `proc_step`, `net_step`, `checked_step`,
`replies_step`. A conditional write that is served as a whole is its check and its write in a row
(`check_write_eq_serve`). -/

namespace Diynamo.System.Rules

open Diynamo.Lib.LastWrite Diynamo.Lib.Ordered Diynamo.Lib.Run Diynamo.Lib.Utf8
  Diynamo.Store.RocksDb Diynamo.Store.Hints Diynamo.Cluster.Ring Diynamo.Server.Router
  Diynamo.Coordinator.Get Diynamo.Coordinator.Put Diynamo.Coordinator.Handoff Diynamo.System.Step

variable {cfg : Cluster} {w w' : World} {a : Act}

/-! ### Jobs -/

/-- The key that a job reads. -/
def Job.reads : Job → Option Bytes
  | .localGet key => some key
  | .getInternal key => some (utf8 key)
  | _ => none

/-- The target, key and entry of a job that stores a hint. -/
def Job.hints : Job → Option (NodeId × Bytes × HintEntry)
  | .putHint targetId key value timestamp => some (targetId, utf8 key, ⟨timestamp, utf8 value⟩)
  | _ => none

theorem job_cases (job : Job) :
    (∃ key v, Job.writes job = some (key, v)) ∨ (∃ key, Job.reads job = some key) ∨
      ∃ t key e, Job.hints job = some (t, key, e) := by
  cases job <;> simp [Job.writes, Job.reads, Job.hints]

theorem hints_of_writes {job : Job} {x : Bytes × VersionedValue} (h : Job.writes job = some x) :
    Job.hints job = none := by
  cases job <;> first | rfl | cases h

theorem writes_of_hints {job : Job} {x : NodeId × Bytes × HintEntry} (h : Job.hints job = some x) :
    Job.writes job = none := by
  cases job <;> first | rfl | cases h

theorem writes_hints_of_reads {job : Job} {key : Bytes} (h : Job.reads job = some key) :
    Job.writes job = none ∧ Job.hints job = none := by
  cases job <;> first | exact ⟨rfl, rfl⟩ | cases h

/-- A write is done, or blocked, and then nothing has changed. -/
theorem perform_writes (s : Node) {job : Job} {key : Bytes} {v : VersionedValue}
    (h : Job.writes job = some (key, v)) :
    perform s job =
        ({ s with localStore := s.localStore.putIfNewer key v.data v.timestamp }, .done) ∨
      (s.faults.blockInternal = true ∧ perform s job = (s, .failed)) := by
  cases job with
  | localPut k val ts =>
    cases h
    exact Or.inl rfl
  | putVersioned k val ts =>
    cases h
    rw [perform, Node.putKvInternalVersioned]
    split_ifs with hf
    · exact Or.inr ⟨hf, rfl⟩
    · exact Or.inl rfl
  | _ => cases h

/-- A read answers with what the store holds, or fails. -/
theorem perform_reads (s : Node) {job : Job} {key : Bytes} (h : Job.reads job = some key) :
    perform s job = (s, .value (s.localStore.get key)) ∨ perform s job = (s, .failed) := by
  cases job with
  | localGet k =>
    cases h
    exact Or.inl rfl
  | getInternal k =>
    cases h
    rw [perform, Node.getKvInternal]
    split_ifs
    · exact Or.inr rfl
    · cases hv : s.localStore.get (utf8 k) with
      | none => exact Or.inl rfl
      | some v =>
        cases hd : fromUtf8 v.data with
        | none => right; simp only [hd]
        | some value => left; simp only [hd, fromUtf8_eq_some.mp hd]
  | _ => cases h

/-- A hint is stored, or nothing has changed. -/
theorem perform_hints (s : Node) {job : Job} {t : NodeId} {key : Bytes} {e : HintEntry}
    (h : Job.hints job = some (t, key, e)) :
    ('/' ∉ t.toList ∧
      perform s job = ({ s with hints := ⟨s.hints.db.put (hintKey t key) e⟩ }, .done)) ∨
      perform s job = (s, .failed) := by
  cases job with
  | putHint t' k val ts =>
    cases h
    rw [perform, Node.putHintInternal]
    split_ifs
    · exact Or.inr rfl
    · cases hs : s.hints.storeHint t (utf8 k) (utf8 val) ts with
      | error err => exact Or.inr rfl
      | ok hints =>
        obtain ⟨ht, rfl⟩ := HintStore.storeHint_eq_ok.mp hs
        exact Or.inl ⟨ht, rfl⟩
  | _ => cases h

/-- **What a request does to the node** that serves it. -/
theorem perform_node (s : Node) (job : Job) :
    (perform s job).1 = s ∨
      (∃ key v, Job.writes job = some (key, v) ∧ (perform s job).1 =
        { s with localStore := s.localStore.putIfNewer key v.data v.timestamp }) ∨
      ∃ t key e, Job.hints job = some (t, key, e) ∧ '/' ∉ t.toList ∧ (perform s job).1 =
        { s with hints := ⟨s.hints.db.put (hintKey t key) e⟩ } := by
  rcases job_cases job with ⟨key, v, hj⟩ | ⟨key, hj⟩ | ⟨t, key, e, hj⟩
  · rcases perform_writes s hj with hp | ⟨-, hp⟩
    · exact Or.inr (Or.inl ⟨key, v, hj, by rw [hp]⟩)
    · exact Or.inl (by rw [hp])
  · rcases perform_reads s hj with hp | hp <;> exact Or.inl (by rw [hp])
  · rcases perform_hints s hj with ⟨ht, hp⟩ | hp
    · exact Or.inr (Or.inr ⟨t, key, e, hj, ht, by rw [hp]⟩)
    · exact Or.inl (by rw [hp])

/-! ### Requests of processes -/

theorem mem_requests {tag : Option ℕ} {dst : NodeId} {job : Option Job} {req : Request} :
    req ∈ requests tag dst job ↔ ∃ j, job = some j ∧ req = ⟨tag, dst, j⟩ := by
  simp [requests, eq_comm]

theorem withUtf8_eq_some {key value : Bytes} {job : String → String → Job} {j : Job} :
    withUtf8 key value job = some j ↔ ∃ k v, utf8 k = key ∧ utf8 v = value ∧ job k v = j := by
  unfold withUtf8
  constructor
  · intro h
    split at h
    · next k v hk hv =>
      exact ⟨k, v, fromUtf8_eq_some.mp hk, fromUtf8_eq_some.mp hv, Option.some.inj h⟩
    · cases h
  · rintro ⟨k, v, rfl, rfl, rfl⟩
    rw [fromUtf8_utf8, fromUtf8_utf8]

theorem writes_of_versionedJob {key value : Bytes} {timestamp : ℕ} {j : Job}
    (h : versionedJob key value timestamp = some j) :
    Job.writes j = some (key, ⟨timestamp, value⟩) := by
  obtain ⟨k, v, rfl, rfl, rfl⟩ := withUtf8_eq_some.mp h
  rfl

theorem writes_of_writeJob {self dst : NodeId} {key value : Bytes} {timestamp : ℕ} {j : Job}
    (h : writeJob self dst key value timestamp = some j) :
    Job.writes j = some (key, ⟨timestamp, value⟩) := by
  unfold writeJob at h
  split_ifs at h
  · cases h; rfl
  · exact writes_of_versionedJob h

theorem hints_of_hintJob {targetId : NodeId} {key value : Bytes} {timestamp : ℕ} {j : Job}
    (h : hintJob targetId key value timestamp = some j) :
    Job.hints j = some (targetId, key, ⟨timestamp, value⟩) := by
  obtain ⟨k, v, rfl, rfl, rfl⟩ := withUtf8_eq_some.mp h
  rfl

theorem reads_of_readJob {self dst : NodeId} {key : Bytes} {j : Job}
    (h : readJob self dst key = some j) : Job.reads j = some key := by
  unfold readJob at h
  split_ifs at h
  · cases h; rfl
  · obtain ⟨k, hk, rfl⟩ := Option.map_eq_some_iff.mp h
    rw [← fromUtf8_eq_some.mp hk]
    rfl

/-- **What a put waits for**: its write at a preferred node, or a hint for a failed one. -/
theorem expects_put {tag : ℕ} {p : PutProc} {req : Request}
    (h : req ∈ (Proc.put p).expects tag) : req.tag = some tag ∧
      ((req.dst ∈ p.waiting ∧ Job.writes req.job = some (p.key, ⟨p.timestamp, p.value⟩)) ∨
        (p.asked = some req.dst ∧ ∃ t, p.targets.head? = some t ∧
          Job.hints req.job = some (t, p.key, ⟨p.timestamp, p.value⟩))) := by
  rw [Proc.expects, List.mem_append] at h
  rcases h with h | h
  · obtain ⟨x, hx, hr⟩ := List.mem_flatMap.mp h
    obtain ⟨j, hj, rfl⟩ := mem_requests.mp hr
    exact ⟨rfl, Or.inl ⟨hx, writes_of_writeJob hj⟩⟩
  · split at h
    · next c t ts hasked htargets =>
      obtain ⟨j, hj, rfl⟩ := mem_requests.mp h
      exact ⟨rfl, Or.inr ⟨hasked, t, by rw [htargets]; rfl, hints_of_hintJob hj⟩⟩
    · cases h

theorem expects_get {tag : ℕ} {g : GetProc} {req : Request} (h : req ∈ (Proc.get g).expects tag) :
    req.tag = some tag ∧ req.dst ∈ g.waiting ∧ Job.reads req.job = some g.key := by
  obtain ⟨x, hx, hr⟩ := List.mem_flatMap.mp h
  obtain ⟨j, hj, rfl⟩ := mem_requests.mp hr
  exact ⟨rfl, hx, reads_of_readJob hj⟩

theorem expects_deliver {tag : ℕ} {self : NodeId} {d : DeliverTask} {req : Request}
    (h : req ∈ (Proc.deliver self d).expects tag) : req.tag = some tag ∧ d.stage = .awaiting ∧
      req.dst = d.nodeId ∧ ∃ x, d.pending.head? = some x ∧
        Job.writes req.job = some (x.1, ⟨x.2.2, x.2.1⟩) := by
  rw [Proc.expects] at h
  split at h
  · next key value timestamp rest hstage hpending =>
    obtain ⟨j, hj, rfl⟩ := mem_requests.mp h
    exact ⟨rfl, hstage, rfl, _, by rw [hpending]; rfl, writes_of_versionedJob hj⟩
  · cases h

theorem expects_reconcile {tag : ℕ} {q : ReconcileProc} {req : Request}
    (h : req ∈ (Proc.reconcile q).expects tag) : req.tag = some tag ∧ q.awaiting = true ∧
      req.dst = q.nodeId ∧ ∃ x, q.pending.head? = some x ∧ Job.writes req.job = some x := by
  rw [Proc.expects] at h
  split at h
  · next key vv rest hawait hpending =>
    obtain ⟨j, hj, rfl⟩ := mem_requests.mp h
    exact ⟨rfl, hawait, rfl, _, by rw [hpending]; rfl, writes_of_versionedJob hj⟩
  · cases h

/-- **A repair** carries the winner of the get to a node that has answered. -/
theorem mem_sends {g : GetProc} {req : Request} (h : req ∈ (Proc.get g).sends cfg) :
    req.tag = none ∧ req.dst ∈ g.responses.map Prod.fst ∧
      ∃ v, winner g.responses = some v ∧ Job.writes req.job = some (g.key, v) := by
  rw [Proc.sends, GetProc.sends] at h
  split at h
  · next o sent hget =>
    obtain ⟨⟨x, v⟩, hx, hr⟩ := List.mem_flatMap.mp h
    obtain ⟨j, hj, rfl⟩ := mem_requests.mp hr
    obtain ⟨-, hpair⟩ := get_eq_ok.mp hget
    obtain ⟨-, rfl⟩ := Prod.mk.inj hpair
    obtain ⟨hw, o', ho', -⟩ := mem_repairs.mp hx
    exact ⟨rfl, List.mem_map_of_mem ho', v, hw, writes_of_versionedJob hj⟩
  · cases h

theorem expects_tag {tag : ℕ} {p : Proc} {req : Request} (h : req ∈ p.expects tag) :
    req.tag = some tag := by
  cases p with
  | put p => exact (expects_put h).1
  | get g => exact (expects_get h).1
  | deliver self d => exact (expects_deliver h).1
  | reconcile q => exact (expects_reconcile h).1

/-! ### The parts of the state -/

@[simp] theorem node_setNode (x y : NodeId) (s : Node) :
    (w.setNode x s).node y = if y = x then s else w.node y :=
  Function.update_apply _ _ _ _

theorem node_serve (i : ℕ) (req : Request) (x : NodeId) : (w.serve i req).node x =
    if x = req.dst then (perform (w.node req.dst) req.job).1 else w.node x :=
  node_setNode _ _ _

theorem procs_deleteHint (d : Option (NodeId × NodeId × Bytes)) :
    (w.deleteHint d).procs = w.procs := by
  cases d <;> rfl

theorem replies_deleteHint (d : Option (NodeId × NodeId × Bytes)) :
    (w.deleteHint d).replies = w.replies := by
  cases d <;> rfl

/-- **A node** is as before, or has served a request, or has written for a checked one, or a
delivery task has deleted one of its hints, or its fault flags were set. -/
theorem node_step (h : Effect cfg w a w') (x : NodeId) :
    w'.node x = w.node x ∨
      (∃ i req, a = .serve i ∧ w.net[i]? = some req ∧ req.dst = x ∧
        w'.node x = (perform (w.node x) req.job).1) ∨
      (∃ (i : ℕ) (d : DeliverTask) (y : Bytes × Bytes × ℕ), w.procs[i]? = some (.deliver x d) ∧
        d.toDelete = some y ∧
        w'.node x = { w.node x with hints := (w.node x).hints.deleteHint d.nodeId y.1 }) ∨
      (∃ f, a = .setFaults x f ∧ w'.node x = { w.node x with faults := f }) ∨
      ∃ i req key v, a = .write i ∧ req ∈ w.checked ∧ req.dst = x ∧
        Job.writes req.job = some (key, v) ∧ w'.node x =
          { w.node x with localStore := (w.node x).localStore.write key v.data v.timestamp } := by
  cases h with
  | serve hi =>
    next i req =>
    rw [node_serve]
    by_cases hx : x = req.dst
    · subst hx
      exact Or.inr (Or.inl ⟨i, req, rfl, hi, rfl, if_pos rfl⟩)
    · exact Or.inl (if_neg hx)
  | advance hp hs =>
    next i proc proc' =>
    change (w.deleteHint proc.deletes).node x = _ ∨ _ ∨ _ ∨ _
    cases hd : proc.deletes with
    | none => exact Or.inl rfl
    | some d =>
      cases proc with
      | deliver self t =>
        obtain ⟨y, hy, rfl⟩ := Option.map_eq_some_iff.mp hd
        rw [World.deleteHint, node_setNode]
        by_cases hx : x = self
        · subst hx
          exact Or.inr (Or.inr (Or.inl ⟨i, t, y, hp, hy, if_pos rfl⟩))
        · exact Or.inl (if_neg hx)
      | _ => cases hd
  | setFaults =>
    next y f =>
    rw [node_setNode]
    by_cases hx : x = y
    · subst hx
      exact Or.inr (Or.inr (Or.inr (Or.inl ⟨f, rfl, if_pos rfl⟩)))
    · exact Or.inl (if_neg hx)
  | write hi hj =>
    next i req key v =>
    change (w.setNode _ _).node x = _ ∨ _
    rw [node_setNode]
    by_cases hx : x = req.dst
    · subst hx
      exact Or.inr (Or.inr (Or.inr (Or.inr
        ⟨i, req, key, v, rfl, List.mem_of_getElem? hi, rfl, hj, if_pos rfl⟩)))
    · exact Or.inl (if_neg hx)
  | _ => exact Or.inl rfl

/-- **A local store** changes only when a write is served, or when a checked one is done. -/
theorem localStore_step (h : Effect cfg w a w') (x : NodeId) :
    (w'.node x).localStore = (w.node x).localStore ∨
      (∃ i req key v, a = .serve i ∧ w.net[i]? = some req ∧ req.dst = x ∧
        Job.writes req.job = some (key, v) ∧
        (w'.node x).localStore = (w.node x).localStore.putIfNewer key v.data v.timestamp) ∨
      ∃ i req key v, a = .write i ∧ req ∈ w.checked ∧ req.dst = x ∧
        Job.writes req.job = some (key, v) ∧
        (w'.node x).localStore = (w.node x).localStore.write key v.data v.timestamp := by
  rcases node_step h x with hn | ⟨i, req, ha, hi, hd, hn⟩ | ⟨_, _, _, _, _, hn⟩ | ⟨_, _, hn⟩ |
    ⟨i, req, key, v, ha, hi, hd, hj, hn⟩
  · exact Or.inl (by rw [hn])
  · rcases perform_node (w.node x) req.job with hp | ⟨key, v, hj, hp⟩ | ⟨_, _, _, _, _, hp⟩
    · exact Or.inl (by rw [hn, hp])
    · exact Or.inr (Or.inl ⟨i, req, key, v, ha, hi, hd, hj, by rw [hn, hp]⟩)
    · exact Or.inl (by rw [hn, hp])
  · exact Or.inl (by rw [hn])
  · exact Or.inl (by rw [hn])
  · exact Or.inr (Or.inr ⟨i, req, key, v, ha, hi, hd, hj, by rw [hn]⟩)

/-- **A hint store** changes only when a hint is served, or when a delivery task of its node deletes
one. -/
theorem hints_step (h : Effect cfg w a w') (x : NodeId) :
    (w'.node x).hints = (w.node x).hints ∨
      (∃ i req t key e, a = .serve i ∧ w.net[i]? = some req ∧ req.dst = x ∧
        Job.hints req.job = some (t, key, e) ∧ (perform (w.node x) req.job).2 = .done ∧
        '/' ∉ t.toList ∧ (w'.node x).hints = ⟨(w.node x).hints.db.put (hintKey t key) e⟩) ∨
      ∃ (i : ℕ) (d : DeliverTask) (y : Bytes × Bytes × ℕ), a = .advance i ∧
        w.procs[i]? = some (.deliver x d) ∧ d.toDelete = some y ∧
        (w'.node x).hints = (w.node x).hints.deleteHint d.nodeId y.1 := by
  cases h with
  | serve hi =>
    next i req =>
    rw [node_serve]
    by_cases hx : x = req.dst
    · subst hx
      rw [if_pos rfl]
      rcases job_cases req.job with ⟨key, v, hj⟩ | ⟨key, hj⟩ | ⟨t, key, e, hj⟩
      · rcases perform_writes (w.node req.dst) hj with hp | ⟨-, hp⟩ <;> exact Or.inl (by rw [hp])
      · rcases perform_reads (w.node req.dst) hj with hp | hp <;> exact Or.inl (by rw [hp])
      · rcases perform_hints (w.node req.dst) hj with ⟨ht, hp⟩ | hp
        · exact Or.inr (Or.inl ⟨i, req, t, key, e, rfl, hi, rfl, hj, by rw [hp], ht, by rw [hp]⟩)
        · exact Or.inl (by rw [hp])
    · exact Or.inl (by rw [if_neg hx])
  | advance hp hs =>
    next i proc proc' =>
    change ((w.deleteHint proc.deletes).node x).hints = _ ∨ _ ∨ ∃ _ _ _, _ ∧ _ ∧ _ ∧
      ((w.deleteHint proc.deletes).node x).hints = _
    cases hd : proc.deletes with
    | none => exact Or.inl rfl
    | some d =>
      cases proc with
      | deliver self t =>
        obtain ⟨y, hy, rfl⟩ := Option.map_eq_some_iff.mp hd
        rw [World.deleteHint, node_setNode]
        by_cases hx : x = self
        · subst hx
          exact Or.inr (Or.inr ⟨i, t, y, rfl, hp, hy, by rw [if_pos rfl]⟩)
        · exact Or.inl (by rw [if_neg hx])
      | _ => cases hd
  | setFaults =>
    rw [node_setNode]
    split_ifs with hx
    · exact Or.inl (by rw [hx])
    · exact Or.inl rfl
  | write hi hj =>
    change ((w.setNode _ _).node x).hints = _ ∨ _
    rw [node_setNode]
    split_ifs with hx
    · exact Or.inl (by rw [hx])
    · exact Or.inl rfl
  | _ => exact Or.inl rfl

/-- The action does not write for a request checked earlier: conditional writes are atomic. -/
def Atomic : Act → Prop
  | .write _ => False
  | _ => True

instance : ∀ a, Decidable (Atomic a)
  | .write _ => isFalse id
  | .put .. | .get .. | .deliver .. | .reconcile .. | .serve _ | .check _ | .refuse _
  | .loseRequest _ | .loseReply _ | .answer _ | .fail .. | .advance _ | .abort _
  | .setFaults .. => isTrue trivial

/-- **No timestamp in a local store decreases**, as long as the conditional writes are atomic. -/
theorem stored_le_step (h : Effect cfg w a w') (ha : Atomic a) (x : NodeId) (key : Bytes) :
    (w.node x).localStore.stored key ≤ (w'.node x).localStore.stored key := by
  rcases localStore_step h x with h | ⟨-, -, k, v, -, -, -, -, h⟩ | ⟨i, -, -, -, rfl, -⟩
  · rw [h]
  · rw [h]; exact RocksDbStore.stored_le_putIfNewer _ _ _ _ _
  · exact absurd ha id

/-- **A stored hint** was there before, or has just arrived. -/
theorem hint_step (h : Effect cfg w a w') {x : NodeId} {k : Bytes} {e : HintEntry}
    (he : (w'.node x).hints.db.get k = some e) :
    (w.node x).hints.db.get k = some e ∨
      ∃ req ∈ w.net, ∃ t key, req.dst = x ∧ Job.hints req.job = some (t, key, e) ∧
        '/' ∉ t.toList ∧ k = hintKey t key := by
  rcases node_step h x with hn | ⟨i, req, -, hi, hd, hn⟩ | ⟨i, d, y, _, _, hn⟩ | ⟨_, _, hn⟩ |
    ⟨_, _, _, _, _, _, _, _, hn⟩
  · exact Or.inl (by rwa [hn] at he)
  · rcases perform_node (w.node x) req.job with hp | ⟨_, _, _, hp⟩ | ⟨t, key, e', hj, ht, hp⟩
    · exact Or.inl (by rwa [hn, hp] at he)
    · exact Or.inl (by rwa [hn, hp] at he)
    · rw [hn, hp] at he
      dsimp only at he
      rw [OrdMap.get_put] at he
      split_ifs at he with hk
      · rw [Option.some.inj he] at hj
        exact Or.inr ⟨req, List.mem_of_getElem? hi, t, key, hd, hj, ht, hk⟩
      · exact Or.inl he
  · rw [hn] at he
    dsimp only at he
    unfold HintStore.deleteHint at he
    rw [OrdMap.get_delete] at he
    split_ifs at he
    exact Or.inl he
  · exact Or.inl (by rwa [hn] at he)
  · exact Or.inl (by rwa [hn] at he)

/-- **A stored hint stays** until a delivery task of its node deletes it, unless another hint
arrives. -/
theorem hint_stays_step (h : Effect cfg w a w') {x : NodeId} {k : Bytes} {e : HintEntry}
    (he : (w.node x).hints.db.get k = some e) (hnone : ∀ req ∈ w.net, Job.hints req.job = none) :
    (w'.node x).hints.db.get k = some e ∨
      ∃ (i : ℕ) (d : DeliverTask) (y : Bytes × Bytes × ℕ), w.procs[i]? = some (.deliver x d) ∧
        d.toDelete = some y ∧ k = hintKey d.nodeId y.1 := by
  rcases node_step h x with hn | ⟨i, req, -, hi, hd, hn⟩ | ⟨i, d, y, hp, hy, hn⟩ | ⟨_, _, hn⟩ |
    ⟨_, _, _, _, _, _, _, _, hn⟩
  · exact Or.inl (by rwa [hn])
  · rcases perform_node (w.node x) req.job with hp | ⟨_, _, _, hp⟩ | ⟨t, key, e', hj, _, _⟩
    · exact Or.inl (by rwa [hn, hp])
    · exact Or.inl (by rwa [hn, hp])
    · simp [hnone req (List.mem_of_getElem? hi)] at hj
  · by_cases hk : k = hintKey d.nodeId y.1
    · exact Or.inr ⟨i, d, y, hp, hy, hk⟩
    · left
      rw [hn]
      dsimp only
      unfold HintStore.deleteHint
      rwa [OrdMap.get_delete, if_neg hk]
  · exact Or.inl (by rwa [hn])
  · exact Or.inl (by rwa [hn])

theorem faults_step (h : Effect cfg w a w') {x : NodeId} (ha : ∀ f, a ≠ .setFaults x f) :
    (w'.node x).faults = (w.node x).faults := by
  rcases node_step h x with hn | ⟨i, req, -, -, -, hn⟩ | ⟨_, _, _, _, _, hn⟩ | ⟨f, rfl, _⟩ |
    ⟨_, _, _, _, _, _, _, _, hn⟩
  · rw [hn]
  · rcases perform_node (w.node x) req.job with hp | ⟨_, _, _, hp⟩ | ⟨_, _, _, _, _, hp⟩ <;>
      rw [hn, hp]
  · rw [hn]
  · exact absurd rfl (ha f)
  · rw [hn]

/-- How process `j` goes on in a step: with an answer that it waits for, with a failure, by a step
of its own, or aborted. -/
inductive Moves (cfg : Cluster) (w : World) : Act → ℕ → Proc → Proc → Prop where
  | answered {i j p p' req a} (hr : (req, a) ∈ w.replies) (he : req ∈ p.expects j)
    (hs : Proc.settle req.dst (.answered a) p = some p') : Moves cfg w (.answer i) j p p'
  | failed {j p p' x o b} (ho : o = .panicked ∨ o = .error)
    (hs : Proc.settle x o p = some p') : Moves cfg w (.fail j x b) j p p'
  | advance {j p p'} (hs : Proc.advance cfg p = some p') : Moves cfg w (.advance j) j p p'
  | abort {j q} : Moves cfg w (.abort j) j (.reconcile q) (.reconcile q.abort)

theorem getElem?_setProc {i j : ℕ} {q q' : Proc} (h : (w.procs.set i q)[j]? = some q') :
    w.procs[j]? = some q' ∨ (i = j ∧ q' = q) := by
  by_cases hij : i = j
  · subst hij
    obtain ⟨hlt, he⟩ := List.getElem?_eq_some_iff.mp h
    rw [List.getElem_set_self] at he
    exact Or.inr ⟨rfl, he.symm⟩
  · rw [List.getElem?_set_ne hij] at h
    exact Or.inl h

/-- **The processes** are as before, or a new one has been added, or one of them has moved. -/
theorem procs_step (h : Effect cfg w a w') :
    w'.procs = w.procs ∨ (∃ p, Starts cfg w a p ∧ w'.procs = w.procs ++ [p]) ∨
      ∃ i p p', w.procs[i]? = some p ∧ Moves cfg w a i p p' ∧ w'.procs = w.procs.set i p' := by
  cases h with
  | spawn hs => exact Or.inr (Or.inl ⟨_, hs, rfl⟩)
  | answer hi ht hp he hs =>
    exact Or.inr (Or.inr ⟨_, _, _, hp, .answered (List.mem_of_getElem? hi) he hs, rfl⟩)
  | fail ho hp hs => exact Or.inr (Or.inr ⟨_, _, _, hp, .failed ho hs, rfl⟩)
  | advance hp hs =>
    refine Or.inr (Or.inr ⟨_, _, _, hp, .advance hs, ?_⟩)
    change (w.deleteHint _).procs.set _ _ = _
    rw [procs_deleteHint]
  | abort hp => exact Or.inr (Or.inr ⟨_, _, _, hp, .abort, rfl⟩)
  | _ => exact Or.inl rfl

section Select

variable {β : Type} {f : Proc → Option β} {p p' : Proc}

/-- What `f` takes of the processes stays if it takes the same of the one that goes on. -/
theorem filterMap_set_of_eq (h : f p' = f p) : ∀ {l : List Proc} {i : ℕ}, l[i]? = some p →
    (l.set i p').filterMap f = l.filterMap f
  | [], _, hp => by simp at hp
  | q :: l, 0, hp => by
    obtain rfl : q = p := by simpa using hp
    rw [List.set_cons_zero, List.filterMap_cons, List.filterMap_cons, h]
  | q :: l, i + 1, hp => by
    have ih := filterMap_set_of_eq h (l := l) (i := i) (by simpa using hp)
    rw [List.set_cons_succ, List.filterMap_cons, List.filterMap_cons, ih]

/-- It changes as the process does. -/
theorem filterMap_set_of_some {b : β} {g : β → β} (hb : f p = some b) (h : f p' = some (g b)) :
    ∀ {l : List Proc} {i : ℕ}, l[i]? = some p → ∃ j, (l.filterMap f)[j]? = some b ∧
      (l.set i p').filterMap f = (l.filterMap f).modify j g
  | [], _, hp => by simp at hp
  | q :: l, 0, hp => by
    obtain rfl : q = p := by simpa using hp
    exact ⟨0, by simp [hb], by simp [hb, h]⟩
  | q :: l, i + 1, hp => by
    obtain ⟨j, hj, hset⟩ := filterMap_set_of_some hb h (l := l) (i := i) (by simpa using hp)
    cases hq : f q with
    | none => exact ⟨j, by simpa [hq] using hj, by simpa [hq] using hset⟩
    | some c => exact ⟨j + 1, by simpa [hq] using hj, by simpa [hq] using hset⟩

end Select

/-- **A process** is as before, or new, or has moved. -/
theorem proc_step (h : Effect cfg w a w') {j : ℕ} {q' : Proc} (hq : w'.procs[j]? = some q') :
    w.procs[j]? = some q' ∨ (j = w.procs.length ∧ Starts cfg w a q') ∨
      ∃ q, w.procs[j]? = some q ∧ Moves cfg w a j q q' := by
  rcases procs_step h with he | ⟨p, hs, he⟩ | ⟨i, p, p', hp, hm, he⟩
  · exact Or.inl (he ▸ hq)
  · rw [he] at hq
    rcases Nat.lt_or_ge j w.procs.length with hj | hj
    · exact Or.inl ((List.getElem?_append_left hj).symm.trans hq)
    · rw [List.getElem?_append_right hj] at hq
      obtain ⟨hlt, rfl⟩ := List.getElem?_eq_some_iff.mp hq
      have hj' : j = w.procs.length := by
        rw [List.length_singleton] at hlt; omega
      exact Or.inr (Or.inl ⟨hj', by simpa using hs⟩)
  · rw [he] at hq
    rcases getElem?_setProc hq with hq | ⟨rfl, rfl⟩
    · exact Or.inl hq
    · exact Or.inr (Or.inr ⟨p, hp, hm⟩)

/-- **A request in flight** was there before, is of a process that has just started or gone on, or
is a repair of a get that returns. -/
theorem net_step (h : Effect cfg w a w') {req : Request} (hr : req ∈ w'.net) :
    req ∈ w.net ∨ (∃ (i : ℕ) (p : Proc), w'.procs[i]? = some p ∧ req ∈ p.expects i) ∨
      ∃ (i : ℕ) (g : GetProc), w.procs[i]? = some (.get g) ∧ req ∈ (Proc.get g).sends cfg := by
  cases h with
  | spawn hs =>
    next p =>
    rcases List.mem_append.mp hr with hr | hr
    · exact Or.inl hr
    · exact Or.inr (Or.inl ⟨w.procs.length, p, by simp [World.spawn], hr⟩)
  | serve hi => exact Or.inl (List.mem_of_mem_eraseIdx hr)
  | check hi => exact Or.inl (List.mem_of_mem_eraseIdx hr)
  | refuse hi => exact Or.inl (List.mem_of_mem_eraseIdx hr)
  | loseRequest => exact Or.inl (List.mem_of_mem_eraseIdx hr)
  | advance hp hs =>
    next i p p' =>
    rcases List.mem_append.mp hr with hr | hr
    · rcases List.mem_append.mp hr with hr | hr
      · exact Or.inl hr
      · refine Or.inr (Or.inl ⟨i, p', ?_, hr⟩)
        obtain ⟨hlt, -⟩ := List.getElem?_eq_some_iff.mp hp
        change ((w.deleteHint _).procs.set i p')[i]? = some p'
        rw [procs_deleteHint, List.getElem?_set_self hlt]
    · cases p with
      | get g => exact Or.inr (Or.inr ⟨i, g, hp, hr⟩)
      | _ => cases hr
  | _ => exact Or.inl hr

theorem checked_deleteHint (d : Option (NodeId × NodeId × Bytes)) :
    (w.deleteHint d).checked = w.checked := by
  cases d <;> rfl

/-- **A checked request** was checked before, or was on the way. -/
theorem checked_step (h : Effect cfg w a w') {req : Request} (hr : req ∈ w'.checked) :
    req ∈ w.checked ∨ req ∈ w.net := by
  cases h with
  | check hi =>
    rcases List.mem_append.mp hr with hr | hr
    · exact Or.inl hr
    · rw [List.mem_singleton.mp hr]
      exact Or.inr (List.mem_of_getElem? hi)
  | write hi => exact Or.inl (List.mem_of_mem_eraseIdx hr)
  | advance => exact Or.inl (by rwa [← checked_deleteHint (w := w)])
  | _ => exact Or.inl hr

/-- **An answer on the way** was there before, or its request has just been served, has just
written, or was refused. -/
theorem replies_step (h : Effect cfg w a w') {r : Request × Answer} (hr : r ∈ w'.replies) :
    r ∈ w.replies ∨ (∃ i, a = .serve i ∧ w.net[i]? = some r.1 ∧
      r.2 = (perform (w.node r.1.dst) r.1.job).2 ∧
      w'.node r.1.dst = (perform (w.node r.1.dst) r.1.job).1) ∨
      (∃ i, a = .write i ∧ r.1 ∈ w.checked ∧ r.2 = .done) ∨
      ∃ i, a = .refuse i ∧ w.net[i]? = some r.1 ∧ r.2 = .failed := by
  cases h with
  | serve hi =>
    next i req =>
    rcases List.mem_append.mp hr with hr | hr
    · exact Or.inl hr
    · rw [List.mem_singleton.mp hr]
      exact Or.inr (Or.inl ⟨i, rfl, hi, rfl, (node_setNode _ _ _).trans (if_pos rfl)⟩)
  | write hi hj =>
    next i _ _ _ =>
    rcases List.mem_append.mp hr with hr | hr
    · exact Or.inl hr
    · rw [List.mem_singleton.mp hr]
      exact Or.inr (Or.inr (Or.inl ⟨i, rfl, List.mem_of_getElem? hi, rfl⟩))
  | refuse hi =>
    next i req =>
    rcases List.mem_append.mp hr with hr | hr
    · exact Or.inl hr
    · rw [List.mem_singleton.mp hr]
      exact Or.inr (Or.inr (Or.inr ⟨i, rfl, hi, rfl⟩))
  | loseReply => exact Or.inl (List.mem_of_mem_eraseIdx hr)
  | answer => exact Or.inl (List.mem_of_mem_eraseIdx hr)
  | advance => exact Or.inl (by rwa [← replies_deleteHint (w := w)])
  | _ => exact Or.inl hr

theorem length_procs_step (h : Effect cfg w a w') : w.procs.length ≤ w'.procs.length := by
  rcases procs_step h with he | ⟨p, -, he⟩ | ⟨i, p, p', -, -, he⟩ <;> simp [he]

/-! ### The two steps of a conditional write -/

/-- A conditional write that passes its check writes. -/
theorem perform_of_passes {s : Node} {job : Job} (h : Passes s job) : ∃ key v,
    Job.writes job = some (key, v) ∧ perform s job =
      ({ s with localStore := s.localStore.write key v.data v.timestamp }, .done) := by
  obtain ⟨hdone, hany⟩ := h
  obtain ⟨⟨key, v⟩, hj, hfresh⟩ := (Option.any_eq_true _ _).mp hany
  rcases perform_writes s hj with hp | ⟨-, hp⟩
  · have hstale : s.localStore.isFresh key v.timestamp = false := by simpa using hfresh
    refine ⟨key, v, hj, ?_⟩
    rw [hp, RocksDbStore.putIfNewer, hstale, if_neg Bool.false_ne_true]
  · simp [hp] at hdone

/-- **A conditional write served as a whole is its two steps in a row.** -/
theorem check_write_eq_serve {i : ℕ} {req : Request} (hi : w.net[i]? = some req)
    (hp : Passes (w.node req.dst) req.job) :
    run (step cfg) [.check i, .write w.checked.length] w = step cfg w (.serve i) := by
  obtain ⟨key, v, hj, hperf⟩ := perform_of_passes hp
  have hcheck : step cfg w (.check i) = some (w.check i req) := by
    simp only [step, hi, if_pos hp]
  have hlast : (w.check i req).checked[w.checked.length]? = some req := by
    simp [World.check]
  have hwrite : step cfg (w.check i req) (.write w.checked.length) =
      some (w.serve i req) := by
    have herase : (w.checked ++ [req]).eraseIdx w.checked.length = w.checked := by
      rw [List.eraseIdx_append_of_length_le le_rfl]
      simp
    simp only [step, hlast, hj, Option.map_some]
    simp only [World.write, World.serve, World.check, World.setNode, hperf, herase]
  simp only [run, hcheck, Option.bind_some, hwrite]
  simp only [step, hi, Option.map_some]

/-! ### Runs -/

/-- **Invariant rule** for the runs of the system whose actions all meet `C`. -/
theorem invariant_run {I : World → Prop} {C : Act → Prop}
    (hI : ∀ w a w', I w → C a → Effect cfg w a w' → I w') {acts : List Act} (hC : ∀ a ∈ acts, C a)
    (h : run (step cfg) acts w = some w') (hw : I w) : I w' :=
  run_invariant_mem (fun w a w' hw ha hs => hI w a w' hw ha (effect_of_step hs)) hC h hw

end Diynamo.System.Rules
