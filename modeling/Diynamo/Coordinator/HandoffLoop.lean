import Diynamo.Cluster.Delegate
import Diynamo.Cluster.Ring
import Diynamo.Coordinator.Handoff
import Diynamo.Lib.Run

/-! # The event loop of the handoff task

`HandoffTask::run` takes the gossip events one by one. A `Join` or `Update` with metadata spawns a
hint delivery, and if it announces another UUID than the one recorded for its node, the
reconciliation of the node in progress is aborted and a new one is spawned; at the end of the
iteration the handles of finished reconciliations are dropped. The spawned tasks go on between any
two of these steps: a task scans the local store once and pushes its keys one by one, each with or
without success.

What the events so far say about a node is `lastUuid` and `introductions`; what a step of a task and
of the loop can do is `taskStep_cases` and `step_cases`. -/

namespace Diynamo.Coordinator.HandoffLoop

open Diynamo.Lib.Run Diynamo.Lib.Utf8 Diynamo.Store.RocksDb Diynamo.Store.Hints
  Diynamo.Cluster.Ring Diynamo.Cluster.Delegate Diynamo.Coordinator.Handoff

/-! ### Events -/

inductive EventKind where
  | join
  | leave
  | update
  | other
deriving DecidableEq, Repr

/-- A gossip event: the node that it is about, its gossip address and its raw metadata. -/
structure Event where
  kind : EventKind
  nodeId : NodeId
  addr : SocketAddr
  metadata : Bytes
deriving DecidableEq

/-- The base URL `http://{ip}:{port}`. -/
structure BaseUrl where
  ip : IpAddr
  port : UInt16
deriving DecidableEq

/-- What the loop takes from an event. -/
structure Announcement where
  nodeId : NodeId
  uuid : Uuid
  url : BaseUrl
deriving DecidableEq

/-- Only a `Join` or `Update` with metadata announces something. -/
def Event.announcement (e : Event) : Option Announcement :=
  match e.kind with
  | .leave | .other => none
  | .join | .update => (NodeMeta.fromBytes e.metadata).map fun m =>
    ⟨e.nodeId, m.uuid, ⟨e.addr.ip, m.httpPort⟩⟩

/-- The event of a node on the loopback interface with HTTP port 8080. -/
def eventOf (kind : EventKind) (nodeId : NodeId) (uuid : Uuid) : Event :=
  ⟨kind, nodeId, (ClusterMember.loopback nodeId 8080).gossipAddr, (NodeMeta.mk uuid 8080).toBytes⟩

/-! ### Reconciliations -/

/-- The scan of a reconciliation: the keys that it found this node to be the designated sender of,
and how their pushes have ended so far, in order. -/
structure Scan where
  designated : List (Bytes × VersionedValue)
  outcomes : List Bool
deriving DecidableEq

/-- What the returning node has acknowledged. -/
def Scan.acked (sc : Scan) : List (Bytes × VersionedValue) :=
  ((sc.designated.zip sc.outcomes).filter Prod.snd).map Prod.fst

inductive Status where
  | running
  | finished
  | aborted
deriving DecidableEq, Repr

/-- **A `reconcile_keys` task**, with the position of the event that spawned it. -/
structure Task where
  event : ℕ
  announcement : Announcement
  status : Status
  scan : Option Scan
deriving DecidableEq

namespace Task

def nodeId (t : Task) : NodeId := t.announcement.nodeId

/-- The event that spawned the task, with what it announced. -/
def origin (t : Task) : ℕ × Announcement := (t.event, t.announcement)

def new (event : ℕ) (a : Announcement) : Task := ⟨event, a, .running, none⟩

/-- A finished task cannot be aborted any more. -/
def abort (t : Task) : Task := if t.status = .running then { t with status := .aborted } else t

end Task

/-- A step of a task. -/
inductive TaskAct where
  /-- the online snapshot is taken, the client is built or not, and the local store is scanned -/
  | start (onlineIds : List NodeId) (clientOk : Bool) (s : RocksDbStore)
  | push (isOk : Bool)
  | finish

/-- **One step of a reconciliation.** Without a client it returns before the scan; how a push ends
is not looked at. -/
def taskStep (preferred : Bytes → List NodeId) (selfId : NodeId) (t : Task) :
    TaskAct → Option Task
  | .start onlineIds clientOk s =>
    if t.status = .running ∧ t.scan = none then
      some { t with
        scan := some ⟨reconcileKeys preferred selfId t.nodeId onlineIds s, []⟩
        status := if clientOk then .running else .finished }
    else none
  | .push isOk =>
    match t.scan with
    | none => none
    | some sc =>
      if t.status = .running ∧ sc.outcomes.length < sc.designated.length then
        some { t with scan := some { sc with outcomes := sc.outcomes ++ [isOk] } }
      else none
  | .finish =>
    match t.scan with
    | none => none
    | some sc =>
      if t.status = .running ∧ sc.outcomes.length = sc.designated.length then
        some { t with status := .finished }
      else none

/-! ### The loop -/

/-- **The state of the loop**: the events so far, its two maps (a handle is the position of its task
in the list of all reconciliations), the reconciliations and the hint deliveries spawned; `pruning`
before the end of an iteration. -/
structure State where
  history : List Event
  knownUuids : NodeId → Option Uuid
  activeReconciliations : NodeId → Option ℕ
  tasks : List Task
  deliveries : List (NodeId × BaseUrl)
  pruning : Bool

def State.start : State := ⟨[], fun _ => none, fun _ => none, [], [], false⟩

inductive Act where
  | event (e : Event)
  | prune
  | task (i : ℕ) (a : TaskAct)

def Act.received : Act → Option Event
  | .event e => some e
  | _ => none

/-- Abort the task of a handle, if there is one. -/
def abortAt : Option ℕ → List Task → List Task
  | none, tasks => tasks
  | some i, tasks => tasks.modify i Task.abort

/-- **The body of an iteration**, for an event that announces `a`. -/
def receive (s : State) (a : Announcement) : State :=
  let deliveries := s.deliveries ++ [(a.nodeId, a.url)]
  let knownUuids := Function.update s.knownUuids a.nodeId (some a.uuid)
  if s.knownUuids a.nodeId = some a.uuid then
    { s with knownUuids := knownUuids, deliveries := deliveries, pruning := true }
  else
    { s with
      knownUuids := knownUuids
      deliveries := deliveries
      tasks := abortAt (s.activeReconciliations a.nodeId) s.tasks ++ [.new s.history.length a]
      activeReconciliations :=
        Function.update s.activeReconciliations a.nodeId (some s.tasks.length)
      pruning := true }

/-- The handle says that its task runs no more. -/
def State.isFinished (s : State) (i : ℕ) : Bool :=
  s.tasks[i]?.any fun t => t.status ≠ .running

/-- **One step of the loop, or of one of its tasks.** An event that announces nothing ends the
iteration at once. -/
def step (preferred : Bytes → List NodeId) (selfId : NodeId) (s : State) : Act → Option State
  | .event e =>
    if s.pruning then none
    else
      match e.announcement with
      | none => some { s with history := s.history ++ [e] }
      | some a => some { receive s a with history := s.history ++ [e] }
  | .prune =>
    if s.pruning then
      some { s with
        activeReconciliations := fun x =>
          (s.activeReconciliations x).filter fun i => !s.isFinished i
        pruning := false }
    else none
  | .task i a =>
    match s.tasks[i]? with
    | none => none
    | some t => (taskStep preferred selfId t a).map fun t' => { s with tasks := s.tasks.set i t' }

/-! ### What the history says -/

/-- The last UUID that `x` has announced. -/
def lastUuid (h : List Event) (x : NodeId) : Option Uuid :=
  ((h.filterMap Event.announcement).filter fun a => a.nodeId = x).getLast?.map Announcement.uuid

/-- The announcement of an event after `h`, if its UUID is not the last one of its node. -/
def introduced (h : List Event) (e : Event) : Option Announcement :=
  e.announcement.filter fun a => lastUuid h a.nodeId ≠ some a.uuid

/-- **The events that announce another UUID** than the last one of their node, by position. -/
def introductions (h : List Event) : List (ℕ × Announcement) :=
  (List.range h.length).filterMap fun k =>
    (h[k]?.bind (introduced (h.take k))).map fun a => (k, a)

/-- Entry `i` is the last one of its node. -/
def IsLast (l : List (ℕ × Announcement)) (i : ℕ) (o : ℕ × Announcement) : Prop :=
  l[i]? = some o ∧ ∀ j o', l[j]? = some o' → o'.2.nodeId = o.2.nodeId → j ≤ i

theorem lastUuid_concat (h : List Event) (e : Event) (x : NodeId) :
    lastUuid (h ++ [e]) x =
      match e.announcement with
      | none => lastUuid h x
      | some a => if a.nodeId = x then some a.uuid else lastUuid h x := by
  unfold lastUuid
  rw [List.filterMap_append, List.filter_append]
  cases he : e.announcement with
  | none => simp [he]
  | some a =>
    by_cases hx : a.nodeId = x
    · simp [he, hx]
    · simp [he, hx]

theorem introductions_concat (h : List Event) (e : Event) :
    introductions (h ++ [e]) =
      introductions h ++ ((introduced h e).map fun a => (h.length, a)).toList := by
  unfold introductions
  rw [List.length_append, List.length_singleton, List.range_succ, List.filterMap_append]
  congr 1
  · refine List.filterMap_congr fun k hk => ?_
    have hlt : k < h.length := List.mem_range.mp hk
    rw [List.getElem?_append_left hlt, List.take_append_of_le_length hlt.le]
  · simp only [List.filterMap_cons, List.filterMap_nil, List.getElem?_concat_length,
      List.take_left, Option.bind_some]
    cases introduced h e <;> rfl

theorem isLast_concat {l : List (ℕ × Announcement)} {i : ℕ} {o n : ℕ × Announcement} :
    IsLast (l ++ [n]) i o ↔
      (i = l.length ∧ o = n) ∨ (IsLast l i o ∧ o.2.nodeId ≠ n.2.nodeId) := by
  have hlt : ∀ {l : List (ℕ × Announcement)} {j o}, l[j]? = some o → j < l.length :=
    fun h => (List.getElem?_eq_some_iff.mp h).1
  have hlast : (l ++ [n])[l.length]? = some n := List.getElem?_concat_length
  constructor
  · rintro ⟨hi, hmax⟩
    have hi' := hlt hi
    rw [List.length_append, List.length_singleton] at hi'
    rcases Nat.lt_succ_iff_lt_or_eq.mp hi' with hil | rfl
    · rw [List.getElem?_append_left hil] at hi
      refine Or.inr ⟨⟨hi, fun j o' hj he => hmax j o' ?_ he⟩, fun he => ?_⟩
      · rwa [List.getElem?_append_left (hlt hj)]
      · exact absurd (hmax _ n hlast he.symm) (not_le.mpr hil)
    · exact Or.inl ⟨rfl, Option.some.inj (hi.symm.trans hlast)⟩
  · rintro (⟨rfl, rfl⟩ | ⟨⟨hi, hmax⟩, hne⟩)
    · refine ⟨hlast, fun j o' hj _ => ?_⟩
      have hj' := hlt hj
      rw [List.length_append, List.length_singleton] at hj'
      omega
    · refine ⟨by rwa [List.getElem?_append_left (hlt hi)], fun j o' hj he => ?_⟩
      rcases Nat.lt_or_ge j l.length with hjl | hjl
      · rw [List.getElem?_append_left hjl] at hj
        exact hmax j o' hj he
      · rw [List.getElem?_append_right hjl] at hj
        have hz : j - l.length = 0 := by
          have := hlt hj
          rw [List.length_singleton] at this
          omega
        rw [hz] at hj
        cases hj
        exact absurd he.symm hne

/-- **The last introduction of a node** announces its last UUID. -/
theorem lastUuid_of_isLast {h : List Event} : ∀ {i : ℕ} {o : ℕ × Announcement},
    IsLast (introductions h) i o → lastUuid h o.2.nodeId = some o.2.uuid := by
  induction h using List.reverseRecOn with
  | nil => intro i o ho; simp [IsLast, introductions] at ho
  | append_singleton h e ih =>
    intro i o ho
    rw [introductions_concat] at ho
    rw [lastUuid_concat]
    cases he : e.announcement with
    | none =>
      have hn : introduced h e = none := by rw [introduced, he]; rfl
      rw [hn, Option.map_none, Option.toList_none, List.append_nil] at ho
      exact ih ho
    | some a =>
      dsimp only
      by_cases hnew : lastUuid h a.nodeId = some a.uuid
      · have hn : introduced h e = none := by simp [introduced, he, hnew]
        rw [hn, Option.map_none, Option.toList_none, List.append_nil] at ho
        split_ifs with ha
        · rw [← hnew, ha]
          exact ih ho
        · exact ih ho
      · have hn : introduced h e = some a := by simp [introduced, he, hnew]
        rw [hn, Option.map_some, Option.toList_some, isLast_concat] at ho
        rcases ho with ⟨-, rfl⟩ | ⟨ho, hne⟩
        · exact if_pos rfl
        · rw [if_neg (Ne.symm hne)]
          exact ih ho

/-! ### Tasks -/

/-- **What a step of a task does.** -/
theorem taskStep_cases {preferred : Bytes → List NodeId} {selfId : NodeId} {t t' : Task}
    {a : TaskAct} (h : taskStep preferred selfId t a = some t') : t.status = .running ∧
      ((∃ onlineIds clientOk s, a = .start onlineIds clientOk s ∧ t.scan = none ∧
          t' = { t with
            scan := some ⟨reconcileKeys preferred selfId t.nodeId onlineIds s, []⟩
            status := if clientOk then .running else .finished }) ∨
        (∃ sc isOk, a = .push isOk ∧ t.scan = some sc ∧
          t' = { t with scan := some { sc with outcomes := sc.outcomes ++ [isOk] } }) ∨
        ∃ sc, a = .finish ∧ t.scan = some sc ∧ sc.outcomes.length = sc.designated.length ∧
          t' = { t with status := .finished }) := by
  cases a with
  | start onlineIds clientOk s =>
    by_cases hc : t.status = .running ∧ t.scan = none
    · rw [taskStep, if_pos hc] at h
      exact ⟨hc.1, Or.inl ⟨onlineIds, clientOk, s, rfl, hc.2, (Option.some.inj h).symm⟩⟩
    · rw [taskStep, if_neg hc] at h
      cases h
  | push isOk =>
    rw [taskStep] at h
    split at h
    · cases h
    · next sc hsc =>
      split_ifs at h with hc
      exact ⟨hc.1, Or.inr (Or.inl ⟨sc, isOk, rfl, hsc, (Option.some.inj h).symm⟩)⟩
  | finish =>
    rw [taskStep] at h
    split at h
    · cases h
    · next sc hsc =>
      split_ifs at h with hc
      exact ⟨hc.1, Or.inr (Or.inr ⟨sc, rfl, hsc, hc.2, (Option.some.inj h).symm⟩)⟩

/-- **A step of a task** runs it on or finishes it, and does not change what it is for. -/
theorem taskStep_spec {preferred : Bytes → List NodeId} {selfId : NodeId} {t t' : Task}
    {a : TaskAct} (h : taskStep preferred selfId t a = some t') :
    t.status = .running ∧ t'.status ≠ .aborted ∧ t'.origin = t.origin := by
  obtain ⟨hrun, ⟨_, clientOk, _, -, -, rfl⟩ | ⟨_, _, -, -, rfl⟩ | ⟨_, -, -, -, rfl⟩⟩ :=
    taskStep_cases h
  · exact ⟨hrun, by cases clientOk <;> simp, rfl⟩
  · exact ⟨hrun, by simp [hrun], rfl⟩
  · exact ⟨hrun, by simp, rfl⟩

theorem origin_abort (t : Task) : t.abort.origin = t.origin := by
  unfold Task.abort
  split_ifs <;> rfl

theorem scan_abort (t : Task) : t.abort.scan = t.scan := by
  unfold Task.abort
  split_ifs <;> rfl

theorem status_abort (t : Task) : t.abort.status ≠ .running := by
  unfold Task.abort
  split_ifs with h
  · simp
  · exact h

theorem getElem?_abortAt (o : Option ℕ) (tasks : List Task) (j : ℕ) :
    (abortAt o tasks)[j]? = tasks[j]?.map fun t => if o = some j then t.abort else t := by
  cases o with
  | none => simp [abortAt]
  | some i =>
    rw [abortAt, List.getElem?_modify]
    simp

theorem length_abortAt (o : Option ℕ) (tasks : List Task) :
    (abortAt o tasks).length = tasks.length := by
  cases o with
  | none => rfl
  | some i => exact List.length_modify _ _ _

theorem map_origin_abortAt (o : Option ℕ) (tasks : List Task) :
    (abortAt o tasks).map Task.origin = tasks.map Task.origin := by
  refine List.ext_getElem? fun j => ?_
  rw [List.getElem?_map, List.getElem?_map, getElem?_abortAt, Option.map_map]
  cases tasks[j]? with
  | none => rfl
  | some t =>
    simp only [Option.map_some, Function.comp_apply]
    split_ifs
    · rw [origin_abort]
    · rfl

/-- A task after an abort is as before, or was the one of the handle and is not running any more. -/
theorem abortAt_cases {o : Option ℕ} {tasks : List Task} {j : ℕ} {t' : Task}
    (h : (abortAt o tasks)[j]? = some t') :
    (tasks[j]? = some t' ∧ o ≠ some j) ∨ ∃ t, tasks[j]? = some t ∧ o = some j ∧ t' = t.abort := by
  rw [getElem?_abortAt] at h
  obtain ⟨t, ht, rfl⟩ := Option.map_eq_some_iff.mp h
  split_ifs with ho
  · exact Or.inr ⟨t, ht, ho, rfl⟩
  · exact Or.inl ⟨ht, ho⟩

/-- A task after a spawn is the new one, or one from before. -/
theorem spawn_cases {o : Option ℕ} {tasks : List Task} {n t : Task} {j : ℕ}
    (h : (abortAt o tasks ++ [n])[j]? = some t) :
    (j = tasks.length ∧ t = n) ∨ (j < tasks.length ∧ (abortAt o tasks)[j]? = some t) := by
  rcases Nat.lt_or_ge j tasks.length with hj | hj
  · rw [List.getElem?_append_left (by rwa [length_abortAt])] at h
    exact Or.inr ⟨hj, h⟩
  · rw [List.getElem?_append_right (by rwa [length_abortAt]), length_abortAt] at h
    obtain ⟨hlt, heq⟩ := List.getElem?_eq_some_iff.mp h
    rw [List.length_singleton] at hlt
    rw [List.getElem_singleton] at heq
    exact Or.inl ⟨by omega, heq.symm⟩

/-! ### Steps -/

theorem receive_of_eq {s : State} {a : Announcement} (hk : s.knownUuids a.nodeId = some a.uuid) :
    receive s a = { s with
      knownUuids := Function.update s.knownUuids a.nodeId (some a.uuid)
      deliveries := s.deliveries ++ [(a.nodeId, a.url)]
      pruning := true } := if_pos hk

theorem receive_of_ne {s : State} {a : Announcement} (hk : s.knownUuids a.nodeId ≠ some a.uuid) :
    receive s a = { s with
      knownUuids := Function.update s.knownUuids a.nodeId (some a.uuid)
      deliveries := s.deliveries ++ [(a.nodeId, a.url)]
      tasks := abortAt (s.activeReconciliations a.nodeId) s.tasks ++ [.new s.history.length a]
      activeReconciliations :=
        Function.update s.activeReconciliations a.nodeId (some s.tasks.length)
      pruning := true } := if_neg hk

/-- A step of the loop for a task is a step of the task. -/
theorem step_task_eq_some {preferred : Bytes → List NodeId} {selfId : NodeId} {s s' : State} {i : ℕ}
    {b : TaskAct} : step preferred selfId s (.task i b) = some s' ↔
      ∃ t t', s.tasks[i]? = some t ∧ taskStep preferred selfId t b = some t' ∧
        s' = { s with tasks := s.tasks.set i t' } := by
  rw [step]
  constructor
  · intro h
    split at h
    · cases h
    · next t ht =>
      obtain ⟨t', ht', he⟩ := Option.map_eq_some_iff.mp h
      exact ⟨t, t', ht, ht', he.symm⟩
  · rintro ⟨t, t', ht, ht', rfl⟩
    simp only [ht, ht', Option.map_some]

/-- **What a step does.** -/
theorem step_cases {preferred : Bytes → List NodeId} {selfId : NodeId} {s s' : State} {a : Act}
    (h : step preferred selfId s a = some s') :
    (∃ e, a = .event e ∧ e.announcement = none ∧ s' = { s with history := s.history ++ [e] }) ∨
    (∃ e n, a = .event e ∧ e.announcement = some n ∧
      s' = { receive s n with history := s.history ++ [e] }) ∨
    (a = .prune ∧ s' = { s with
      activeReconciliations := fun x =>
        (s.activeReconciliations x).filter fun i => !s.isFinished i
      pruning := false }) ∨
    ∃ i b t t', a = .task i b ∧ s.tasks[i]? = some t ∧ taskStep preferred selfId t b = some t' ∧
      s' = { s with tasks := s.tasks.set i t' } := by
  cases a with
  | event e =>
    rw [step] at h
    split_ifs at h with hp
    split at h
    · next he => exact Or.inl ⟨e, rfl, he, (Option.some.inj h).symm⟩
    · next n he => exact Or.inr (Or.inl ⟨e, n, rfl, he, (Option.some.inj h).symm⟩)
  | prune =>
    rw [step] at h
    split_ifs at h with hp
    exact Or.inr (Or.inr (Or.inl ⟨rfl, (Option.some.inj h).symm⟩))
  | task i b =>
    obtain ⟨t, t', ht, ht', he⟩ := step_task_eq_some.mp h
    exact Or.inr (Or.inr (Or.inr ⟨i, b, t, t', rfl, ht, ht', he⟩))

/-- A task after a step was there before, or was aborted, or is new, or has taken the step. -/
theorem mem_tasks_step {preferred : Bytes → List NodeId} {selfId : NodeId} {s s' : State} {a : Act}
    (h : step preferred selfId s a = some s')
    {t' : Task} (ht' : t' ∈ s'.tasks) :
    t' ∈ s.tasks ∨ (∃ t ∈ s.tasks, t' = t.abort) ∨ (∃ k n, t' = .new k n) ∨
      ∃ i b t, a = .task i b ∧ s.tasks[i]? = some t ∧ taskStep preferred selfId t b = some t' := by
  rcases step_cases h with ⟨e, -, -, rfl⟩ | ⟨e, n, -, -, rfl⟩ | ⟨-, rfl⟩ |
    ⟨i, b, t, t1, rfl, ht, hs, rfl⟩
  · exact Or.inl ht'
  · by_cases hk : s.knownUuids n.nodeId = some n.uuid
    · rw [receive_of_eq hk] at ht'
      exact Or.inl ht'
    · rw [receive_of_ne hk] at ht'
      obtain ⟨j, hj⟩ := List.mem_iff_getElem?.mp ht'
      rcases spawn_cases hj with ⟨-, rfl⟩ | ⟨-, hj⟩
      · exact Or.inr (Or.inr (Or.inl ⟨_, _, rfl⟩))
      · rcases abortAt_cases hj with ⟨hj, -⟩ | ⟨t, ht, -, rfl⟩
        · exact Or.inl (List.mem_of_getElem? hj)
        · exact Or.inr (Or.inl ⟨t, List.mem_of_getElem? ht, rfl⟩)
  · exact Or.inl ht'
  · rcases List.mem_or_eq_of_mem_set ht' with hmem | rfl
    · exact Or.inl hmem
    · exact Or.inr (Or.inr (Or.inr ⟨i, b, t, rfl, ht, hs⟩))

/-- **A task stays where it is**, aborted or one step further at most. -/
theorem getElem?_tasks_step {preferred : Bytes → List NodeId} {selfId : NodeId} {s s' : State}
    {a : Act} (h : step preferred selfId s a = some s') {i : ℕ} {t : Task}
    (ht : s.tasks[i]? = some t) : ∃ t', s'.tasks[i]? = some t' ∧
      (t' = t ∨ t' = t.abort ∨ ∃ b, taskStep preferred selfId t b = some t') := by
  have hlt := (List.getElem?_eq_some_iff.mp ht).1
  rcases step_cases h with ⟨e, -, -, rfl⟩ | ⟨e, n, -, -, rfl⟩ | ⟨-, rfl⟩ |
    ⟨j, b, u, u', rfl, hu, hs, rfl⟩
  · exact ⟨t, ht, Or.inl rfl⟩
  · by_cases hk : s.knownUuids n.nodeId = some n.uuid
    · rw [receive_of_eq hk]
      exact ⟨t, ht, Or.inl rfl⟩
    · rw [receive_of_ne hk]
      dsimp only
      rw [List.getElem?_append_left (by rwa [length_abortAt]), getElem?_abortAt, ht,
        Option.map_some]
      split_ifs
      · exact ⟨_, rfl, Or.inr (Or.inl rfl)⟩
      · exact ⟨_, rfl, Or.inl rfl⟩
  · exact ⟨t, ht, Or.inl rfl⟩
  · by_cases hij : j = i
    · subst hij
      cases ht.symm.trans hu
      exact ⟨u', List.getElem?_set_self hlt, Or.inr (Or.inr ⟨b, hs⟩)⟩
    · exact ⟨t, by rw [List.getElem?_set_ne hij, ht], Or.inl rfl⟩

theorem history_step {preferred : Bytes → List NodeId} {selfId : NodeId} {s s' : State} {a : Act}
    (h : step preferred selfId s a = some s') :
    s'.history = s.history ++ a.received.toList := by
  rcases step_cases h with ⟨e, rfl, -, rfl⟩ | ⟨e, n, rfl, -, rfl⟩ | ⟨rfl, rfl⟩ |
    ⟨i, b, t, t', rfl, -, -, rfl⟩
  · rfl
  · rfl
  · exact (List.append_nil _).symm
  · exact (List.append_nil _).symm

theorem history_run {preferred : Bytes → List NodeId} {selfId : NodeId} :
    ∀ {acts : List Act} {s s' : State}, run (step preferred selfId) acts s = some s' →
      s'.history = s.history ++ acts.filterMap Act.received
  | [], s, s', h => by
    rw [← Option.some.inj h]
    exact (List.append_nil _).symm
  | a :: acts, s, s', h => by
    obtain ⟨s1, h1, hr⟩ := run_cons_eq_some.mp h
    rw [history_run hr, history_step h1, List.append_assoc, List.filterMap_cons]
    cases a.received <;> rfl

theorem nodeId_announcement {e : Event} {a : Announcement} (h : e.announcement = some a) :
    a.nodeId = e.nodeId := by
  rw [Event.announcement] at h
  split at h
  · cases h
  · cases h
  · obtain ⟨m, -, rfl⟩ := Option.map_eq_some_iff.mp h
    rfl
  · obtain ⟨m, -, rfl⟩ := Option.map_eq_some_iff.mp h
    rfl

end Diynamo.Coordinator.HandoffLoop
