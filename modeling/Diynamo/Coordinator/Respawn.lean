import Diynamo.Client.Http
import Diynamo.Coordinator.Convergence
import Diynamo.Coordinator.UuidMachine

/-! # Abort and respawn

The reconciliations of one returning node, over the event loop: their pushes are requests to that
node, to which nobody else writes, and the sender's own store grows in between by conditional
writes. A reconciliation can be aborted at any await. The request in flight may then have landed,
may land later, or never.

What an earlier reconciliation has pushed is below what the last one scans, or the same version
(`Below`), so it makes no difference to a node that gets all of the last scan: if every selected key
is written under itself (`WritesOwnEntry`), a complete last reconciliation leaves the store that it
would have left alone (`respawn_harmless`). A key such as `a?b` is written under another key, and
there two versions with the same timestamp can meet (`abort_keeps_other_version`). -/

namespace Diynamo.Coordinator.Respawn

open Diynamo.Lib.LastWrite Diynamo.Lib.Ordered Diynamo.Lib.Run Diynamo.Lib.Utf8
  Diynamo.Store.RocksDb Diynamo.Store.Hints Diynamo.Cluster.Ring Diynamo.Cluster.Delegate
  Diynamo.Server.Router Diynamo.Server.Handlers Diynamo.Client.Http
  Diynamo.Coordinator.Convergence Diynamo.Coordinator.Handoff Diynamo.Coordinator.HandoffLoop

/-! ### The system -/

/-- What stays the same: the URL library, this node's client for the returning node, what the
coordinator of the returning node does to its node, the ring, and the ids of this node and of the
returning one. -/
structure Setup where
  lib : UrlLibrary
  client : KvClient
  coordinator : Coordinator Node
  preferred : Bytes → List NodeId
  selfId : NodeId
  nodeId : NodeId

/-- **The sender with its event loop and its store, and the returning node**, with the requests that
are still on their way to it. -/
structure State where
  loop : HandoffLoop.State
  sender : RocksDbStore
  target : Node
  inFlight : List WriteCall

def State.start (sender : RocksDbStore) (target : Node) : State := ⟨.start, sender, target, []⟩

/-- How a push ends: the node handles the request and the answer arrives, or does not arrive; the
request is still on its way when the task gives up or is aborted; or it is lost. A node that takes
its own time for a write reads it off its clock. -/
inductive Fate where
  | answered (nowMillis : ℕ)
  | unanswered (nowMillis : ℕ)
  | late
  | lost
deriving DecidableEq, Repr

inductive Act where
  /-- the sender's own store takes a conditional write -/
  | grow (c : WriteCall)
  | event (e : Event)
  | prune
  /-- a task takes its online snapshot, builds its client and scans the sender's store -/
  | start (i : ℕ) (onlineIds : List NodeId)
  /-- a task cannot build its client and returns before the scan -/
  | noClient (i : ℕ)
  /-- a task of the returning node pushes its next key -/
  | push (i : ℕ) (fate : Fate)
  /-- a task of another node pushes its next key -/
  | pushElsewhere (i : ℕ) (isOk : Bool)
  | finish (i : ℕ)
  /-- a request that was still on its way arrives -/
  | land (k : ℕ) (nowMillis : ℕ)

/-- The write that the push of an item asks for. -/
def itemCall (item : Bytes × VersionedValue) : WriteCall := ⟨item.1, item.2.data, item.2.timestamp⟩

/-- The next push of a task, if it is one of `nodeId`. -/
def State.toPush (s : State) (nodeId : NodeId) (i : ℕ) : Option WriteCall :=
  match s.loop.tasks[i]? with
  | none => none
  | some t =>
    match t.scan with
    | none => none
    | some sc =>
      if t.nodeId = nodeId then (sc.designated[sc.outcomes.length]?).map itemCall else none

namespace Setup

variable (P : Setup)

/-- The request of a push at the returning node, and whether it is answered with a success. -/
def deliver (n : Node) (c : WriteCall) (nowMillis : ℕ) : Node × Bool :=
  match putInternalVersionedBytes P.lib P.client P.coordinator.onNode n c.key c.value c.timestamp
    nowMillis with
  | (.ok (), n') => (n', true)
  | (.error _, n') => (n', false)

/-- A push, with what the task hears of it. -/
def pushed (s : State) (c : WriteCall) : Fate → State × Bool
  | .answered nowMillis =>
    ({ s with target := (P.deliver s.target c nowMillis).1 }, (P.deliver s.target c nowMillis).2)
  | .unanswered nowMillis => ({ s with target := (P.deliver s.target c nowMillis).1 }, false)
  | .late => ({ s with inFlight := s.inFlight ++ [c] }, false)
  | .lost => (s, false)

/-- A step of the event loop or of one of its tasks. -/
def onLoop (s : State) (a : HandoffLoop.Act) : Option State :=
  (HandoffLoop.step P.preferred P.selfId s.loop a).map fun l => { s with loop := l }

/-- **One step** of the system. -/
def step (s : State) : Act → Option State
  | .grow c => some { s with sender := s.sender.putIfNewer c.key c.value c.timestamp }
  | .event e => P.onLoop s (.event e)
  | .prune => P.onLoop s .prune
  | .start i onlineIds => P.onLoop s (.task i (.start onlineIds true s.sender))
  | .noClient i => P.onLoop s (.task i (.start [] false .empty))
  | .push i fate =>
    match s.toPush P.nodeId i with
    | none => none
    | some c => P.onLoop (P.pushed s c fate).1 (.task i (.push (P.pushed s c fate).2))
  | .pushElsewhere i isOk =>
    match s.toPush P.nodeId i with
    | none => P.onLoop s (.task i (.push isOk))
    | some _ => none
  | .finish i => P.onLoop s (.task i .finish)
  | .land k nowMillis =>
    match s.inFlight[k]? with
    | none => none
    | some c => some { s with
        target := (P.deliver s.target c nowMillis).1
        inFlight := s.inFlight.eraseIdx k }

/-- With this online snapshot the sender is the designated sender of the key. -/
def Selects (onlineIds : List NodeId) (key : Bytes) : Prop :=
  designated (P.preferred key) P.nodeId onlineIds = some P.selfId

instance (onlineIds : List NodeId) (key : Bytes) : Decidable (P.Selects onlineIds key) :=
  inferInstanceAs (Decidable (_ = _))

/-- **The same designated-sender decisions**: a reconciliation of the returning node that starts now
decides on the sender's keys as one with the snapshot `onlineIds`. -/
def SameDecisions (onlineIds : List NodeId) (s : State) : Act → Prop
  | .start i ids => ∀ t, s.loop.tasks[i]? = some t → t.nodeId = P.nodeId →
      ∀ item ∈ s.sender.iterAll, P.Selects ids item.1 ↔ P.Selects onlineIds item.1
  | _ => True

/-- **The key is written under itself** at the returning node. -/
def WritesOwnEntry (key : Bytes) : Prop := Client.Http.WritesOwnEntry P.lib P.client key

/-- **A complete last reconciliation.** After the steps `before`, task `i` of the returning node
scans the sender's store with the snapshot `onlineIds`; after the steps `after` all its pushes have
succeeded, and it is the last task of its node. -/
structure Completes (sender : RocksDbStore) (target : Node) (before : List Act) (i : ℕ)
    (onlineIds : List NodeId) (after : List Act) (s₁ s₂ : State) : Prop where
  before : run P.step before (State.start sender target) = some s₁
  after : run P.step (.start i onlineIds :: after) s₁ = some s₂
  succeeded : ∃ t sc, s₂.loop.tasks[i]? = some t ∧ t.nodeId = P.nodeId ∧ t.scan = some sc ∧
    sc.outcomes = List.replicate sc.designated.length true
  last : ∀ j t, s₂.loop.tasks[j]? = some t → t.nodeId = P.nodeId → j ≤ i

/-- A reconciliation of the returning node has selected the key. -/
def Selected (s : State) (key : Bytes) : Prop :=
  ∃ t ∈ s.loop.tasks, t.nodeId = P.nodeId ∧ ∃ sc, t.scan = some sc ∧
    key ∈ sc.designated.map Prod.fst

/-- **Aborting and respawning is harmless**: a run ends with the store that the last task would have
left alone, and with the old entries of the keys that no task has selected. -/
def Harmless (target : Node) (s₂ alone : State) : Prop :=
  s₂.target.localStore = alone.target.localStore ∧
    ∀ key, ¬ P.Selected s₂ key → s₂.target.localStore.get key = target.localStore.get key

variable {P}

/-! ### Steps -/

/-- A key that is written under itself is written by a conditional write. -/
theorem deliver_cases {c : WriteCall} (hc : P.WritesOwnEntry c.key) (n : Node) (nowMillis : ℕ) :
    P.deliver n c nowMillis = (n, false) ∨ ((P.deliver n c nowMillis).2 = true ∧
      (P.deliver n c nowMillis).1.localStore =
        n.localStore.putIfNewer c.key c.value c.timestamp) := by
  unfold deliver
  rcases hc.push_cases P.coordinator.onNode n c.value c.timestamp nowMillis with ⟨e, he⟩ | he
  · rw [he]
    exact Or.inl rfl
  · rw [he]
    exact Or.inr ⟨rfl, rfl⟩

theorem loop_pushed (s : State) (c : WriteCall) (fate : Fate) :
    (P.pushed s c fate).1.loop = s.loop := by
  cases fate <;> rfl

theorem sender_pushed (s : State) (c : WriteCall) (fate : Fate) :
    (P.pushed s c fate).1.sender = s.sender := by
  cases fate <;> rfl

/-- **What a push does**: its write arrives, or it has failed and the write may be on its way. -/
theorem pushed_cases {c : WriteCall} (hc : P.WritesOwnEntry c.key) (s : State) (fate : Fate) :
    ((P.pushed s c fate).1.inFlight = s.inFlight ∧ (P.pushed s c fate).1.target.localStore =
        s.target.localStore.putIfNewer c.key c.value c.timestamp) ∨
      ((P.pushed s c fate).2 = false ∧
        (P.pushed s c fate).1.target.localStore = s.target.localStore ∧
        ∀ d ∈ (P.pushed s c fate).1.inFlight, d = c ∨ d ∈ s.inFlight) := by
  cases fate with
  | answered nowMillis =>
    rcases deliver_cases hc s.target nowMillis with he | ⟨-, he⟩
    · exact Or.inr ⟨congrArg Prod.snd he, congrArg (fun r => r.1.localStore) he,
        fun d hd => Or.inr hd⟩
    · exact Or.inl ⟨rfl, he⟩
  | unanswered nowMillis =>
    rcases deliver_cases hc s.target nowMillis with he | ⟨-, he⟩
    · exact Or.inr ⟨rfl, congrArg (fun r => r.1.localStore) he, fun d hd => Or.inr hd⟩
    · exact Or.inl ⟨rfl, he⟩
  | late =>
    refine Or.inr ⟨rfl, rfl, fun d hd => ?_⟩
    rcases List.mem_append.mp hd with hd | hd
    · exact Or.inr hd
    · exact Or.inl (List.mem_singleton.mp hd)
  | lost => exact Or.inr ⟨rfl, rfl, fun d hd => Or.inr hd⟩

theorem toPush_eq_some {s : State} {nodeId : NodeId} {i : ℕ} {c : WriteCall}
    (h : s.toPush nodeId i = some c) : ∃ t sc item, s.loop.tasks[i]? = some t ∧
      t.nodeId = nodeId ∧ t.scan = some sc ∧ sc.designated[sc.outcomes.length]? = some item ∧
      itemCall item = c := by
  unfold State.toPush at h
  split at h
  · cases h
  · next t ht =>
    split at h
    · cases h
    · next sc hsc =>
      split_ifs at h with hn
      obtain ⟨item, hitem, hc⟩ := Option.map_eq_some_iff.mp h
      exact ⟨t, sc, item, ht, hn, hsc, hitem, hc⟩

/-- What a step of the loop is, if it is not a push to the returning node. -/
def Elsewhere (P : Setup) (s : State) (a : Act) : HandoffLoop.Act → Prop
  | .task i (.start onlineIds _ store) =>
    store = .empty ∨ (a = .start i onlineIds ∧ store = s.sender)
  | .task i (.push _) => s.toPush P.nodeId i = none
  | _ => True

/-- **What a step does.** -/
theorem step_cases {s s' : State} {a : Act} (h : P.step s a = some s') :
    (∃ c, a = .grow c ∧
      s' = { s with sender := s.sender.putIfNewer c.key c.value c.timestamp }) ∨
    (∃ k nowMillis c, a = .land k nowMillis ∧ s.inFlight[k]? = some c ∧
      s' = { s with
        target := (P.deliver s.target c nowMillis).1
        inFlight := s.inFlight.eraseIdx k }) ∨
    (∃ i fate c, a = .push i fate ∧ s.toPush P.nodeId i = some c ∧
      P.onLoop (P.pushed s c fate).1 (.task i (.push (P.pushed s c fate).2)) = some s') ∨
    ∃ b l, HandoffLoop.step P.preferred P.selfId s.loop b = some l ∧ Elsewhere P s a b ∧
      s' = { s with loop := l } := by
  have hloop : ∀ {b : HandoffLoop.Act}, P.onLoop s b = some s' → Elsewhere P s a b → ∃ b l,
      HandoffLoop.step P.preferred P.selfId s.loop b = some l ∧ Elsewhere P s a b ∧
        s' = { s with loop := l } := by
    intro b hb he
    obtain ⟨l, hl, hs'⟩ := Option.map_eq_some_iff.mp hb
    exact ⟨b, l, hl, he, hs'.symm⟩
  cases a with
  | grow c => exact Or.inl ⟨c, rfl, (Option.some.inj h).symm⟩
  | event e => exact Or.inr (Or.inr (Or.inr (hloop h trivial)))
  | prune => exact Or.inr (Or.inr (Or.inr (hloop h trivial)))
  | start i onlineIds => exact Or.inr (Or.inr (Or.inr (hloop h (Or.inr ⟨rfl, rfl⟩))))
  | noClient i => exact Or.inr (Or.inr (Or.inr (hloop h (Or.inl rfl))))
  | push i fate =>
    simp only [step] at h
    split at h
    · cases h
    · next c hc => exact Or.inr (Or.inr (Or.inl ⟨i, fate, c, rfl, hc, h⟩))
  | pushElsewhere i isOk =>
    simp only [step] at h
    split at h
    · next hc => exact Or.inr (Or.inr (Or.inr (hloop h hc)))
    · cases h
  | finish i => exact Or.inr (Or.inr (Or.inr (hloop h trivial)))
  | land k nowMillis =>
    simp only [step] at h
    split at h
    · cases h
    · next c hc => exact Or.inr (Or.inl ⟨k, nowMillis, c, rfl, hc, (Option.some.inj h).symm⟩)

/-- The step of a push in the event loop. -/
theorem onLoop_push {s s' : State} {i : ℕ} {c : WriteCall} {fate : Fate} {t : Task} {sc : Scan}
    (ht : s.loop.tasks[i]? = some t) (hsc : t.scan = some sc)
    (h : P.onLoop (P.pushed s c fate).1 (.task i (.push (P.pushed s c fate).2)) = some s') :
    s' = { (P.pushed s c fate).1 with
      loop := { s.loop with
        tasks := s.loop.tasks.set i { t with
          scan := some { sc with outcomes := sc.outcomes ++ [(P.pushed s c fate).2] } } } } := by
  obtain ⟨l, hl, rfl⟩ := Option.map_eq_some_iff.mp h
  rw [loop_pushed] at hl
  obtain ⟨u, u', hu, hs, rfl⟩ := step_task_eq_some.mp hl
  cases ht.symm.trans hu
  obtain ⟨-, ⟨_, _, _, he, -⟩ | ⟨sc', isOk, he, hsc', rfl⟩ | ⟨_, he, -⟩⟩ := taskStep_cases hs
  · cases he
  · cases he
    cases hsc.symm.trans hsc'
    rfl
  · cases he

theorem loop_step {s s' : State} {a : Act} (h : P.step s a = some s') :
    s'.loop = s.loop ∨ ∃ b, HandoffLoop.step P.preferred P.selfId s.loop b = some s'.loop := by
  rcases step_cases h with ⟨c, -, rfl⟩ | ⟨_, _, _, -, -, rfl⟩ | ⟨i, fate, c, -, -, hs⟩ |
    ⟨b, l, hl, -, rfl⟩
  · exact Or.inl rfl
  · exact Or.inl rfl
  · obtain ⟨l, hl, rfl⟩ := Option.map_eq_some_iff.mp hs
    rw [loop_pushed] at hl
    exact Or.inr ⟨_, hl⟩
  · exact Or.inr ⟨b, hl⟩

theorem advances_step {s s' : State} {a : Act} (h : P.step s a = some s') :
    s.sender.Advances s'.sender := by
  rcases step_cases h with ⟨c, -, rfl⟩ | ⟨_, _, _, -, -, rfl⟩ | ⟨i, fate, c, -, -, hs⟩ |
    ⟨b, l, hl, -, rfl⟩
  · exact RocksDbStore.advances_putIfNewer _ _ _ _
  · exact RocksDbStore.Advances.refl _
  · obtain ⟨l, -, rfl⟩ := Option.map_eq_some_iff.mp hs
    change s.sender.Advances (P.pushed s c fate).1.sender
    rw [sender_pushed]
    exact RocksDbStore.Advances.refl _
  · exact RocksDbStore.Advances.refl _

theorem advances_run {acts : List Act} {s s' : State} (h : run P.step acts s = some s') :
    s.sender.Advances s'.sender :=
  run_invariant (I := fun s' => s.sender.Advances s'.sender)
    (fun _ _ _ hi hs => hi.trans (advances_step hs)) h (RocksDbStore.Advances.refl _)

theorem inv_loop_step {s s' : State} {a : Act} (h : P.step s a = some s')
    (hi : UuidMachine.Inv s.loop) : UuidMachine.Inv s'.loop := by
  rcases loop_step h with he | ⟨b, hb⟩
  · rw [he]
    exact hi
  · exact UuidMachine.inv_step hi hb

theorem inv_loop_run {acts : List Act} {s s' : State} (h : run P.step acts s = some s')
    (hi : UuidMachine.Inv s.loop) : UuidMachine.Inv s'.loop :=
  run_invariant (I := fun s => UuidMachine.Inv s.loop) (fun _ _ _ hi hs => inv_loop_step hs hi) h hi

/-! ### Tasks -/

/-- A task keeps its node and, once it has scanned, what it has found. -/
def Keeps (t t' : Task) : Prop :=
  t'.nodeId = t.nodeId ∧ ∀ sc, t.scan = some sc →
    ∃ sc', t'.scan = some sc' ∧ sc'.designated = sc.designated

theorem Keeps.refl (t : Task) : Keeps t t := ⟨rfl, fun sc hsc => ⟨sc, hsc, rfl⟩⟩

theorem Keeps.trans {t t' t'' : Task} (h : Keeps t t') (h' : Keeps t' t'') : Keeps t t'' := by
  refine ⟨h'.1.trans h.1, fun sc hsc => ?_⟩
  obtain ⟨sc', hsc', he⟩ := h.2 sc hsc
  obtain ⟨sc'', hsc'', he'⟩ := h'.2 sc' hsc'
  exact ⟨sc'', hsc'', he'.trans he⟩

theorem keeps_taskStep {preferred : Bytes → List NodeId} {selfId : NodeId} {t t' : Task}
    {a : TaskAct} (h : taskStep preferred selfId t a = some t') : Keeps t t' := by
  obtain ⟨-, ⟨_, _, _, -, hnone, rfl⟩ | ⟨sc, _, -, hsc, rfl⟩ | ⟨sc, -, -, -, rfl⟩⟩ :=
    taskStep_cases h
  · exact ⟨rfl, fun sc hsc => by rw [hnone] at hsc; cases hsc⟩
  · refine ⟨rfl, fun sc' hsc' => ?_⟩
    cases hsc.symm.trans hsc'
    exact ⟨_, rfl, rfl⟩
  · exact ⟨rfl, fun sc' hsc' => ⟨sc', hsc', rfl⟩⟩

theorem keeps_abort (t : Task) : Keeps t t.abort :=
  ⟨congrArg (fun o => o.2.nodeId) (origin_abort t),
    fun sc hsc => ⟨sc, (scan_abort t).trans hsc, rfl⟩⟩

theorem keeps_step {s s' : State} {a : Act} (h : P.step s a = some s') {i : ℕ} {t : Task}
    (ht : s.loop.tasks[i]? = some t) : ∃ t', s'.loop.tasks[i]? = some t' ∧ Keeps t t' := by
  rcases loop_step h with he | ⟨b, hb⟩
  · exact ⟨t, by rw [he, ht], Keeps.refl t⟩
  · obtain ⟨t', ht', rfl | rfl | ⟨b', hs⟩⟩ := getElem?_tasks_step hb ht
    · exact ⟨t', ht', Keeps.refl t'⟩
    · exact ⟨_, ht', keeps_abort t⟩
    · exact ⟨t', ht', keeps_taskStep hs⟩

theorem keeps_run {acts : List Act} {s s' : State} (h : run P.step acts s = some s') {i : ℕ}
    {t : Task} (ht : s.loop.tasks[i]? = some t) :
    ∃ t', s'.loop.tasks[i]? = some t' ∧ Keeps t t' := by
  refine run_invariant (I := fun s' => ∃ t', s'.loop.tasks[i]? = some t' ∧ Keeps t t')
    (fun _ _ _ hi hs => ?_) h ⟨t, ht, Keeps.refl t⟩
  obtain ⟨t', ht', hk⟩ := hi
  obtain ⟨t'', ht'', hk'⟩ := keeps_step hs ht'
  exact ⟨t'', ht'', hk.trans hk'⟩

/-! ### What a scan finds, and what has arrived -/

variable {onlineIds : List NodeId} {start S : RocksDbStore} {calls : List WriteCall}

variable (P onlineIds S) in
/-- **A write that is not above the store** `S`: its key is selected and stored, with a larger
timestamp or with the same version. -/
def Below (c : WriteCall) : Prop :=
  P.Selects onlineIds c.key ∧ ∃ v, S.get c.key = some v ∧ c.timestamp ≤ v.timestamp ∧
    (c.timestamp = v.timestamp → c.value = v.data)

/-- What is below a store stays below it as it grows. -/
theorem Below.mono {S' : RocksDbStore} (h : S.Advances S') {c : WriteCall}
    (hc : Below P onlineIds S c) : Below P onlineIds S' c := by
  obtain ⟨hsel, v, hv, hle, heq⟩ := hc
  refine ⟨hsel, ?_⟩
  rcases h c.key with he | hlt
  · exact ⟨v, he.trans hv, hle, heq⟩
  · unfold RocksDbStore.stored at hlt
    rw [hv, rank_some] at hlt
    cases hv' : S'.get c.key with
    | none => rw [hv'] at hlt; simp at hlt
    | some v' =>
      rw [hv', rank_some, WithBot.coe_lt_coe] at hlt
      exact ⟨v', rfl, by omega, fun he => by omega⟩

variable (P onlineIds S calls) in
/-- All that a scan has found is below `S`, and what was acknowledged of it has arrived. -/
structure ScanSound (sc : Scan) : Prop where
  below : ∀ item ∈ sc.designated, Below P onlineIds S (itemCall item)
  acked : ∀ (n : ℕ) item, sc.designated[n]? = some item → sc.outcomes[n]? = some true →
    itemCall item ∈ calls

variable (P onlineIds start S calls) in
/-- **The returning node has got the writes of `calls`, and all of them are below `S`**, like those
on their way and those that a reconciliation may still push. -/
structure Sound (s : State) : Prop where
  target : s.target.localStore = applyAll start calls
  arrived : ∀ c ∈ calls, Below P onlineIds S c
  inFlight : ∀ c ∈ s.inFlight, Below P onlineIds S c
  scans : ∀ t ∈ s.loop.tasks, t.nodeId = P.nodeId → ∀ sc, t.scan = some sc →
    ScanSound P onlineIds S calls sc

theorem Sound.mono {S' : RocksDbStore} {s : State} (h : S.Advances S')
    (hs : Sound P onlineIds start S calls s) : Sound P onlineIds start S' calls s where
  target := hs.target
  arrived := fun c hc => (hs.arrived c hc).mono h
  inFlight := fun c hc => (hs.inFlight c hc).mono h
  scans := fun t ht hn sc hsc =>
    ⟨fun item hi => ((hs.scans t ht hn sc hsc).below item hi).mono h,
      (hs.scans t ht hn sc hsc).acked⟩

theorem ScanSound.concat {sc : Scan} (h : ScanSound P onlineIds S calls sc) (c : WriteCall) :
    ScanSound P onlineIds S (calls ++ [c]) sc :=
  ⟨h.below, fun n item hd ho => List.mem_append_left _ (h.acked n item hd ho)⟩

/-- The next outcome of a scan. -/
theorem ScanSound.push {sc : Scan} (h : ScanSound P onlineIds S calls sc)
    {item : Bytes × VersionedValue} (hd : sc.designated[sc.outcomes.length]? = some item)
    {isOk : Bool} (hok : isOk = true → itemCall item ∈ calls) :
    ScanSound P onlineIds S calls { sc with outcomes := sc.outcomes ++ [isOk] } := by
  refine ⟨h.below, fun n item' hd' ho => ?_⟩
  rcases Nat.lt_or_ge n sc.outcomes.length with hn | hn
  · rw [List.getElem?_append_left hn] at ho
    exact h.acked n item' hd' ho
  · obtain ⟨hlt, -⟩ := List.getElem?_eq_some_iff.mp ho
    rw [List.length_append, List.length_singleton] at hlt
    obtain rfl : n = sc.outcomes.length := by omega
    rw [List.getElem?_concat_length] at ho
    rw [← Option.some.inj (hd.symm.trans hd')]
    exact hok (Option.some.inj ho)

/-- A write that is below the store arrives. -/
theorem Sound.arrive {s : State} (hs : Sound P onlineIds start S calls s) {c : WriteCall}
    (hc : Below P onlineIds S c) {target : Node} (ht : target.localStore =
      s.target.localStore.putIfNewer c.key c.value c.timestamp) {inFlight : List WriteCall}
    (hf : ∀ d ∈ inFlight, d ∈ s.inFlight) :
    Sound P onlineIds start S (calls ++ [c])
      { s with target := target, inFlight := inFlight } where
  target := by rw [ht, hs.target, applyAll_concat]
  arrived := fun d hd => (List.mem_append.mp hd).elim (hs.arrived d) fun hd =>
    List.mem_singleton.mp hd ▸ hc
  inFlight := fun d hd => hs.inFlight d (hf d hd)
  scans := fun t ht hn sc hsc => (hs.scans t ht hn sc hsc).concat c

theorem sound_land {s : State} (hs : Sound P onlineIds start S calls s)
    (hown : ∀ c, Below P onlineIds S c → P.WritesOwnEntry c.key) {k nowMillis : ℕ} {c : WriteCall}
    (hc : s.inFlight[k]? = some c) : ∃ calls', Sound P onlineIds start S calls'
      { s with
        target := (P.deliver s.target c nowMillis).1
        inFlight := s.inFlight.eraseIdx k } := by
  have hb := hs.inFlight c (List.mem_of_getElem? hc)
  have hf : ∀ d ∈ s.inFlight.eraseIdx k, d ∈ s.inFlight := fun d hd => List.mem_of_mem_eraseIdx hd
  rcases deliver_cases (hown c hb) s.target nowMillis with he | ⟨-, he⟩
  · refine ⟨calls, ?_, hs.arrived, fun d hd => hs.inFlight d (hf d hd), hs.scans⟩
    rw [he]
    exact hs.target
  · exact ⟨_, hs.arrive hb he hf⟩

theorem sound_push {s s' : State} (hs : Sound P onlineIds start S calls s)
    (hown : ∀ c, Below P onlineIds S c → P.WritesOwnEntry c.key) {i : ℕ} {fate : Fate}
    {c : WriteCall} (hc : s.toPush P.nodeId i = some c)
    (h : P.onLoop (P.pushed s c fate).1 (.task i (.push (P.pushed s c fate).2)) = some s') :
    ∃ calls', Sound P onlineIds start S calls' s' := by
  obtain ⟨t, sc, item, ht, hn, hsc, hitem, rfl⟩ := toPush_eq_some hc
  have hscan := hs.scans t (List.mem_of_getElem? ht) hn sc hsc
  have hb := hscan.below item (List.mem_of_getElem? hitem)
  rw [onLoop_push ht hsc h]
  -- the tasks after the step, for the writes that have arrived then
  have htasks : ∀ {calls' : List WriteCall} {isOk : Bool},
      (∀ u ∈ s.loop.tasks, u.nodeId = P.nodeId → ∀ sc', u.scan = some sc' →
        ScanSound P onlineIds S calls' sc') → (isOk = true → itemCall item ∈ calls') →
      ∀ u ∈ s.loop.tasks.set i { t with
          scan := some { sc with outcomes := sc.outcomes ++ [isOk] } },
        u.nodeId = P.nodeId → ∀ sc', u.scan = some sc' → ScanSound P onlineIds S calls' sc' := by
    intro calls' isOk hscans hok u hu hun sc' hsc'
    rcases List.mem_or_eq_of_mem_set hu with hu | rfl
    · exact hscans u hu hun sc' hsc'
    · cases hsc'
      exact (hscans t (List.mem_of_getElem? ht) hn sc hsc).push hitem hok
  rcases pushed_cases (hown _ hb) s fate with ⟨hf, he⟩ | ⟨hfalse, he, hf⟩
  · have harr := hs.arrive hb he (fun d (hd : d ∈ s.inFlight) => hd)
    refine ⟨_, harr.target, harr.arrived, fun d hd => hs.inFlight d (hf ▸ hd), ?_⟩
    exact htasks harr.scans fun _ => by simp
  · refine ⟨calls, he.trans hs.target, hs.arrived, fun d hd => ?_, ?_⟩
    · exact (hf d hd).elim (fun hd => hd ▸ hb) (hs.inFlight d)
    · exact htasks hs.scans fun hok => absurd (hfalse.symm.trans hok) (by decide)

/-- **A scan that starts in this step** finds nothing above `S` for the returning node. -/
def StartsBelow (P : Setup) (onlineIds : List NodeId) (S : RocksDbStore) (s : State) (a : Act) :
    Prop :=
  ∀ i ids t, a = .start i ids → s.loop.tasks[i]? = some t → t.nodeId = P.nodeId →
    t.status = .running → t.scan = none →
      ∀ item ∈ reconcileKeys P.preferred P.selfId P.nodeId ids s.sender,
        Below P onlineIds S (itemCall item)

theorem sound_elsewhere {s : State} {a : Act} (hs : Sound P onlineIds start S calls s)
    (hstart : StartsBelow P onlineIds S s a) {b : HandoffLoop.Act} {l : HandoffLoop.State}
    (hl : HandoffLoop.step P.preferred P.selfId s.loop b = some l) (hb : Elsewhere P s a b) :
    Sound P onlineIds start S calls { s with loop := l } := by
  refine ⟨hs.target, hs.arrived, hs.inFlight, fun t ht hn sc hsc => ?_⟩
  rcases mem_tasks_step hl ht with ht | ⟨u, hu, rfl⟩ | ⟨_, _, rfl⟩ | ⟨i, b', u, rfl, hu, hstep⟩
  · exact hs.scans t ht hn sc hsc
  · have hun : u.nodeId = P.nodeId := (keeps_abort u).1.symm.trans hn
    exact hs.scans u hu hun sc ((scan_abort u).symm.trans hsc)
  · cases hsc
  · have hun : u.nodeId = P.nodeId := (keeps_taskStep hstep).1.symm.trans hn
    obtain ⟨hrun, ⟨ids, clientOk, store, rfl, hnone, rfl⟩ | ⟨sc', isOk, rfl, hsc', rfl⟩ |
      ⟨sc', rfl, -, -, rfl⟩⟩ := taskStep_cases hstep
    · cases hsc
      refine ⟨fun item hitem => ?_, fun n item _ ho => by cases ho⟩
      rcases hb with rfl | ⟨rfl, rfl⟩
      · cases hitem
      · refine hstart i ids u rfl hu hun hrun hnone item ?_
        rwa [← hun]
    · -- a push of the returning node is a step of its own
      have hlt : sc'.outcomes.length < sc'.designated.length := by
        by_contra hge
        simp [taskStep, hsc', hge] at hstep
      have hp : s.toPush P.nodeId i =
          (sc'.designated[sc'.outcomes.length]?).map itemCall := by
        simp only [State.toPush, hu, hsc', if_pos hun]
      rw [hb, List.getElem?_eq_getElem hlt] at hp
      cases hp
    · exact hs.scans u (List.mem_of_getElem? hu) hun sc hsc

/-- **Step lemma.** What has arrived and what can still arrive stays below `S`. -/
theorem sound_step {s s' : State} {a : Act} (hs : Sound P onlineIds start S calls s)
    (hown : ∀ c, Below P onlineIds S c → P.WritesOwnEntry c.key)
    (hstart : StartsBelow P onlineIds S s a) (h : P.step s a = some s') :
    ∃ calls', Sound P onlineIds start S calls' s' := by
  rcases step_cases h with ⟨c, -, rfl⟩ | ⟨k, nowMillis, c, -, hc, rfl⟩ | ⟨i, fate, c, -, hc, hl⟩ |
    ⟨b, l, hl, hb, rfl⟩
  · exact ⟨calls, hs.target, hs.arrived, hs.inFlight, hs.scans⟩
  · exact sound_land hs hown hc
  · exact sound_push hs hown hc hl
  · exact ⟨calls, sound_elsewhere hs hstart hl hb⟩

/-- What a reconciliation selects is below the store it scans. -/
theorem below_of_mem_reconcileKeys {ids : List NodeId} (hsame : ∀ item ∈ S.iterAll,
      P.Selects ids item.1 ↔ P.Selects onlineIds item.1) {item : Bytes × VersionedValue}
    (h : item ∈ reconcileKeys P.preferred P.selfId P.nodeId ids S) :
    Below P onlineIds S (itemCall item) := by
  obtain ⟨hget, hdes⟩ := mem_reconcileKeys.mp h
  exact ⟨(hsame item (RocksDbStore.mem_iterAll.mpr hget)).mp hdes, item.2, hget, le_rfl,
    fun _ => rfl⟩

/-- **Before the last scan** nothing gets above the sender's store. -/
theorem sound_before : ∀ {acts : List Act} {s s₁ : State} {calls : List WriteCall},
    run P.step acts s = some s₁ → Along P.step (P.SameDecisions onlineIds) acts s →
    (∀ c, Below P onlineIds s₁.sender c → P.WritesOwnEntry c.key) →
    Sound P onlineIds start s.sender calls s →
      ∃ calls', Sound P onlineIds start s₁.sender calls' s₁
  | [], _, _, calls, hr, _, _, hs => by
    rw [← Option.some.inj hr]
    exact ⟨calls, hs⟩
  | a :: acts, s, s₁, calls, hr, hsame, hown, hs => by
    obtain ⟨s', h, hr'⟩ := run_cons_eq_some.mp hr
    have hstart : StartsBelow P onlineIds s.sender s a := by
      rintro i ids t rfl ht hn - - item hitem
      exact below_of_mem_reconcileKeys (hsame.1 t ht hn) hitem
    obtain ⟨calls', hs'⟩ := sound_step hs (fun c hc => hown c (hc.mono (advances_run hr))) hstart h
    exact sound_before hr' (hsame.2 s' h) hown (hs'.mono (advances_step h))

theorem start_spec {s s' : State} {i : ℕ} {ids : List NodeId}
    (h : P.step s (.start i ids) = some s') : ∃ t t', s.loop.tasks[i]? = some t ∧ t.scan = none ∧
      s'.loop.tasks[i]? = some t' ∧ t'.nodeId = t.nodeId ∧
      t'.scan = some ⟨reconcileKeys P.preferred P.selfId t.nodeId ids s.sender, []⟩ := by
  obtain ⟨l, hl, rfl⟩ := Option.map_eq_some_iff.mp h
  obtain ⟨t, t', ht, hs, rfl⟩ := step_task_eq_some.mp hl
  have hlt := (List.getElem?_eq_some_iff.mp ht).1
  obtain ⟨-, ⟨_, _, _, he, hnone, rfl⟩ | ⟨_, _, he, -⟩ | ⟨_, he, -⟩⟩ := taskStep_cases hs
  · cases he
    exact ⟨t, _, ht, hnone, List.getElem?_set_self hlt, rfl, rfl⟩
  · cases he
  · cases he

/-- **After the last scan** no other task of the node starts: only its last one can run. -/
theorem sound_after {i : ℕ} : ∀ {acts : List Act} {s s₂ : State} {calls : List WriteCall},
    run P.step acts s = some s₂ → UuidMachine.Inv s.loop →
    (∀ j t, s₂.loop.tasks[j]? = some t → t.nodeId = P.nodeId → j ≤ i) →
    (∃ t sc, s.loop.tasks[i]? = some t ∧ t.nodeId = P.nodeId ∧ t.scan = some sc) →
    (∀ c, Below P onlineIds S c → P.WritesOwnEntry c.key) →
    Sound P onlineIds start S calls s → ∃ calls', Sound P onlineIds start S calls' s₂
  | [], _, _, calls, hr, _, _, _, _, hs => by
    rw [← Option.some.inj hr]
    exact ⟨calls, hs⟩
  | a :: acts, s, s₂, calls, hr, hi, hlast, ⟨t, sc, ht, hn, hsc⟩, hown, hs => by
    obtain ⟨s', h, hr'⟩ := run_cons_eq_some.mp hr
    have hstart : StartsBelow P onlineIds S s a := by
      rintro j ids u rfl hu hun hrun hnone
      obtain ⟨-, -, -, hmax⟩ := hi.running hu hrun
      obtain ⟨u', hu', hk⟩ := keeps_run hr hu
      have hij : i ≤ j := hmax i t.origin (hi.getElem?_origin ht) (hn.trans hun.symm)
      have hji : j ≤ i := hlast j u' hu' (hk.1.trans hun)
      obtain rfl : i = j := le_antisymm hij hji
      rw [Option.some.inj (hu.symm.trans ht), hsc] at hnone
      cases hnone
    obtain ⟨calls', hs'⟩ := sound_step hs hown hstart h
    obtain ⟨t', ht', hk⟩ := keeps_step h ht
    obtain ⟨sc', hsc', -⟩ := hk.2 sc hsc
    have hi' : UuidMachine.Inv s'.loop := inv_loop_step h hi
    exact sound_after hr' hi' hlast ⟨t', sc', ht', hk.1.trans hn, hsc'⟩ hown hs'

/-! ### A complete last reconciliation -/

/-- What a scan of `S` finds under a key. -/
def found (P : Setup) (onlineIds : List NodeId) (S : RocksDbStore) (key : Bytes) :
    Option VersionedValue :=
  if P.Selects onlineIds key then S.get key else none

theorem mem_reconcileKeys_iff_found {key : Bytes} {v : VersionedValue} :
    (key, v) ∈ reconcileKeys P.preferred P.selfId P.nodeId onlineIds S ↔
      found P onlineIds S key = some v := by
  rw [mem_reconcileKeys, found]
  split_ifs with h
  · exact and_iff_left h
  · exact iff_of_false (fun hv => h hv.2) (by simp)

theorem mem_versionsOf {key : Bytes} {v : VersionedValue} :
    v ∈ versionsOf key calls ↔ itemCall (key, v) ∈ calls := by
  simp only [versionsOf, List.mem_map, List.mem_filter, decide_eq_true_eq]
  constructor
  · rintro ⟨c, ⟨hc, rfl⟩, rfl⟩
    exact hc
  · intro hc
    exact ⟨_, ⟨hc, rfl⟩, rfl⟩

/-- **All that the scan found has arrived**: a key of the scan is the newer one of the two versions,
the others are as before. -/
theorem Sound.get {s : State} (hs : Sound P onlineIds start S calls s)
    (hall : ∀ item ∈ reconcileKeys P.preferred P.selfId P.nodeId onlineIds S,
      itemCall item ∈ calls) (key : Bytes) :
    s.target.localStore.get key = (found P onlineIds S key).elim (start.get key)
      (absorb VersionedValue.timestamp (start.get key)) := by
  have hfound : ∀ v ∈ versionsOf key calls, ∃ w, found P onlineIds S key = some w ∧
      v.timestamp ≤ w.timestamp ∧ (v.timestamp = w.timestamp → v = w) := by
    intro v hv
    obtain ⟨hsel, w, hw, hle, heq⟩ := hs.arrived _ (mem_versionsOf.mp hv)
    exact ⟨w, (if_pos hsel).trans hw, hle, fun he => VersionedValue.ext he (heq he)⟩
  rw [hs.target, get_applyAll]
  cases hf : found P onlineIds S key with
  | none =>
    have hnil : versionsOf key calls = [] := List.eq_nil_iff_forall_not_mem.mpr fun v hv => by
      obtain ⟨w, hw, -⟩ := hfound v hv
      rw [hf] at hw
      cases hw
    rw [hnil]
    rfl
  | some v =>
    have hv : v ∈ versionsOf key calls :=
      mem_versionsOf.mpr (hall (key, v) (mem_reconcileKeys_iff_found.mpr hf))
    refine absorbAll_eq_absorb_of_newest _ hv fun w hw => ?_
    obtain ⟨v', hv', hmax⟩ := hfound w hw
    rwa [Option.some.inj (hf.symm.trans hv')]

theorem sound_start (sender : RocksDbStore) (target : Node) :
    Sound P onlineIds target.localStore sender [] (State.start sender target) where
  target := rfl
  arrived := fun _ hc => by cases hc
  inFlight := fun _ hc => by cases hc
  scans := fun _ ht => by cases ht

section Complete

variable {sender sender' : RocksDbStore} {target : Node} {before after before' after' : List Act}
  {i i' : ℕ} {s₁ s₂ s₁' s₂' : State}

/-- **Run lemma.** At the end of a complete last reconciliation its scan is the one of the sender's
store at its start, and all of it has arrived. -/
theorem Completes.sound (h : P.Completes sender target before i onlineIds after s₁ s₂)
    (hsame : Along P.step (P.SameDecisions onlineIds) before (State.start sender target))
    (hown : ∀ item ∈ reconcileKeys P.preferred P.selfId P.nodeId onlineIds s₁.sender,
      P.WritesOwnEntry item.1) :
    ∃ calls t sc, Sound P onlineIds target.localStore s₁.sender calls s₂ ∧
      t ∈ s₂.loop.tasks ∧ t.nodeId = P.nodeId ∧ t.scan = some sc ∧
      sc.designated = reconcileKeys P.preferred P.selfId P.nodeId onlineIds s₁.sender ∧
      ∀ item ∈ sc.designated, itemCall item ∈ calls := by
  have hown' : ∀ c, Below P onlineIds s₁.sender c → P.WritesOwnEntry c.key := by
    rintro c ⟨hsel, v, hv, -⟩
    exact hown (c.key, v) (mem_reconcileKeys.mpr ⟨hv, hsel⟩)
  obtain ⟨s, hstep, hr⟩ := run_cons_eq_some.mp h.after
  obtain ⟨t, sc, ht, hn, hsc, hok⟩ := h.succeeded
  obtain ⟨u, u', -, -, hu', hnode, hscan⟩ := start_spec hstep
  -- the task that scans is the one of the returning node
  obtain ⟨t', ht', hk⟩ := keeps_run hr hu'
  obtain rfl : t = t' := Option.some.inj (ht.symm.trans ht')
  have hun : u.nodeId = P.nodeId := hnode.symm.trans (hk.1.symm.trans hn)
  obtain ⟨sc', hsc', hdes⟩ := hk.2 _ hscan
  obtain rfl : sc = sc' := Option.some.inj (hsc.symm.trans hsc')
  have hi : UuidMachine.Inv s₁.loop := inv_loop_run h.before UuidMachine.inv_start
  have hi' : UuidMachine.Inv s.loop := inv_loop_step hstep hi
  obtain ⟨calls₁, hs₁⟩ := sound_before h.before hsame hown' (sound_start sender target)
  have hstart : StartsBelow P onlineIds s₁.sender s₁ (.start i onlineIds) := by
    intro j ids t he _ _ _ _ item hitem
    cases he
    exact below_of_mem_reconcileKeys (fun _ _ => Iff.rfl) hitem
  obtain ⟨calls, hs⟩ := sound_step hs₁ hown' hstart hstep
  obtain ⟨calls₂, hs₂⟩ := sound_after hr hi' h.last ⟨u', _, hu', hnode.trans hun, hscan⟩ hown' hs
  refine ⟨calls₂, t, sc, hs₂, List.mem_of_getElem? ht, hn, hsc, by rw [hdes, hun], ?_⟩
  intro item hitem
  obtain ⟨n, hd⟩ := List.mem_iff_getElem?.mp hitem
  refine (hs₂.scans t (List.mem_of_getElem? ht) hn sc hsc).acked n item hd ?_
  rw [hok, List.getElem?_replicate, if_pos (List.getElem?_eq_some_iff.mp hd).1]

/-- Scans with the same online snapshot make the same decisions. -/
theorem sameDecisions_of_forall_start (hids : ∀ j ids, .start j ids ∈ before → ids = onlineIds)
    (s : State) : Along P.step (P.SameDecisions onlineIds) before s := by
  have hids' : ∀ a ∈ before, ∀ j ids, a = .start j ids → ids = onlineIds := by
    rintro a ha j ids rfl
    exact hids j ids ha
  refine along_of_invariant (I := fun _ => True)
    (G := fun _ a => ∀ j ids, a = .start j ids → ids = onlineIds)
    (fun _ _ _ _ _ _ => trivial) (fun s a _ ha => ?_) trivial (along_of_forall_mem s hids')
  cases a with
  | start j ids =>
    intro t _ _ item _
    rw [ha j ids rfl]
  | _ => trivial

/-- **Abort and respawn.** After a complete last reconciliation, with the same decisions as the
earlier ones and for keys that are written under themselves, the returning node has the store that
the last reconciliation would have left alone, and the keys that none has selected are untouched. -/
theorem respawn_harmless (h : P.Completes sender target before i onlineIds after s₁ s₂)
    (hsame : Along P.step (P.SameDecisions onlineIds) before (State.start sender target))
    (hown : ∀ item ∈ reconcileKeys P.preferred P.selfId P.nodeId onlineIds s₁.sender,
      P.WritesOwnEntry item.1)
    (halone : P.Completes sender' target before' i' onlineIds after' s₁' s₂')
    (honly : ∀ j ids, .start j ids ∉ before') (hscan : s₁'.sender = s₁.sender) :
    P.Harmless target s₂ s₂' := by
  obtain ⟨calls, t, sc, hs, ht, hn, hsc, hdes, hall⟩ := h.sound hsame hown
  obtain ⟨calls', t', sc', hs', -, -, -, hdes', hall'⟩ :=
    halone.sound (sameDecisions_of_forall_start (fun j ids hm => absurd hm (honly j ids)) _)
      (by rwa [hscan])
  rw [hdes] at hall
  rw [hdes'] at hall'
  rw [hscan] at hs' hall'
  refine ⟨?_, fun key hkey => ?_⟩
  · have hdb : s₂.target.localStore.db = s₂'.target.localStore.db :=
      OrdMap.ext_get fun key => (hs.get hall key).trans (hs'.get hall' key).symm
    exact congrArg RocksDbStore.mk hdb
  · have hf : found P onlineIds s₁.sender key = none := by
      cases hf : found P onlineIds s₁.sender key with
      | none => rfl
      | some v =>
        have hmem := mem_reconcileKeys_iff_found.mpr hf
        rw [← hdes] at hmem
        exact absurd ⟨t, ht, hn, sc, hsc, List.mem_map_of_mem hmem⟩ hkey
    rw [hs.get hall key, hf]
    rfl

theorem Completes.run_eq (h : P.Completes sender target before i onlineIds after s₁ s₂) :
    run P.step (before ++ .start i onlineIds :: after) (State.start sender target) = some s₂ :=
  run_append_eq_some.mpr ⟨s₁, h.before, h.after⟩

/-- The store that the last task scans. -/
theorem Completes.sender_eq (h : P.Completes sender target before i onlineIds after s₁ s₂)
    {store : RocksDbStore}
    (hr : (run P.step before (State.start sender target)).map State.sender = some store) :
    s₁.sender = store := by
  rw [h.before] at hr
  exact Option.some.inj hr

/-- A run whose last task is one of the returning node, with all its pushes answered. -/
theorem exists_completes (pre : List (NodeId × Option Scan))
    (items : List (Bytes × VersionedValue))
    (h : (run P.step (before ++ .start i onlineIds :: after) (State.start sender target)).map
      (fun s => s.loop.tasks.map fun t => (t.nodeId, t.scan)) =
        some (pre ++ [(P.nodeId, some ⟨items, List.replicate items.length true⟩)]))
    (hi : pre.length = i) : ∃ s₁ s₂, P.Completes sender target before i onlineIds after s₁ s₂ := by
  obtain ⟨s₂, hr, htasks⟩ := Option.map_eq_some_iff.mp h
  obtain ⟨s₁, h₁, h₂⟩ := run_append_eq_some.mp hr
  have hlen : s₂.loop.tasks.length = i + 1 := by
    have hl := congrArg List.length htasks
    simpa [hi] using hl
  have hi₂ : (s₂.loop.tasks.map fun t => (t.nodeId, t.scan))[i]? =
      some (P.nodeId, some ⟨items, List.replicate items.length true⟩) := by
    rw [htasks, ← hi, List.getElem?_concat_length]
  rw [List.getElem?_map] at hi₂
  obtain ⟨t, ht, he⟩ := Option.map_eq_some_iff.mp hi₂
  obtain ⟨hn, hsc⟩ := Prod.mk.inj he
  refine ⟨s₁, s₂, h₁, h₂, ⟨t, _, ht, hn, hsc, rfl⟩, fun j u hu _ => ?_⟩
  have hj := (List.getElem?_eq_some_iff.mp hu).1
  omega

end Complete

end Setup

/-! ### Runs -/

/-- Two nodes that replicate every key, `a` with its client for `c`. -/
def pair : Setup :=
  ⟨urlLibrary .ascii, .withHttp privateNode.baseUrl, .idle, fun _ => ["a", "c"], "a", "c"⟩

/-- `c` is back with a first, then with a second UUID. -/
def back : Act := .event (eventOf .join "c" (Vector.replicate 16 1))

def backAgain : Act := .event (eventOf .update "c" (Vector.replicate 16 2))

/-- A store with one entry. -/
def single (key : String) (data : String) (timestamp : ℕ) : RocksDbStore :=
  RocksDbStore.empty.putIfNewer (utf8 key) (utf8 data) timestamp

/-- The entry gets another version between two scans. -/
def regrown (data : String) (timestamp : ℕ) : RocksDbStore :=
  (single "k" "old" 5).putIfNewer (utf8 "k") (utf8 data) timestamp

/-- The push of the first task is under way when the task is aborted, the entry gets a newer
version, and the old one lands after the push of the second task. -/
theorem respawn_harmless_late : ∃ s₂ alone : State, pair.Harmless .empty s₂ alone ∧
    s₂.target.localStore.get (utf8 "k") = some ⟨9, utf8 "new"⟩ := by
  let before : List Act := [back, .prune, .start 0 ["a"], .push 0 .late, backAgain, .prune,
    .grow ⟨utf8 "k", utf8 "new", 9⟩]
  let after : List Act := [.push 1 (.answered 0), .land 0 0, .finish 1]
  obtain ⟨s₁, s₂, h⟩ : ∃ s₁ s₂,
      pair.Completes (single "k" "old" 5) .empty before 1 ["a"] after s₁ s₂ :=
    Setup.exists_completes [("c", some ⟨[(utf8 "k", ⟨5, utf8 "old"⟩)], [false]⟩)]
      [(utf8 "k", ⟨9, utf8 "new"⟩)] (by decide) rfl
  obtain ⟨s₁', s₂', h'⟩ : ∃ s₁' s₂', pair.Completes (regrown "new" 9) .empty [back, .prune] 0 ["a"]
      [.push 0 (.answered 0), .finish 0] s₁' s₂' :=
    Setup.exists_completes [] [(utf8 "k", ⟨9, utf8 "new"⟩)] (by decide) rfl
  have hs : s₁.sender = regrown "new" 9 := h.sender_eq rfl
  have hs' : s₁'.sender = regrown "new" 9 := h'.sender_eq rfl
  have hkeys : reconcileKeys pair.preferred pair.selfId pair.nodeId ["a"] (regrown "new" 9) =
      [(utf8 "k", ⟨9, utf8 "new"⟩)] := by decide
  have hget : (run pair.step (before ++ .start 1 ["a"] :: after)
      (State.start (single "k" "old" 5) .empty)).map
        (fun s => s.target.localStore.get (utf8 "k")) = some (some ⟨9, utf8 "new"⟩) := by decide
  rw [h.run_eq] at hget
  refine ⟨s₂, s₂', Setup.respawn_harmless h ?_ ?_ h' ?_ (hs'.trans hs.symm),
    Option.some.inj hget⟩
  · exact Setup.sameDecisions_of_forall_start (by simp [before, back, backAgain]) _
  · rw [hs, hkeys]
    intro item hitem
    rw [List.mem_singleton.mp hitem]
    exact writesOwnEntry_of_keySafe (a := privateNode) (by decide) (by decide) rfl
  · simp [back]

/-- **A key with a question mark**: the push of `a?b` writes `a`, and its task is aborted after the
push has landed. Then the sender gets a version of `a` with the same timestamp. The second task
pushes it first, but the node keeps what it has, while alone the second task would have left that
version. -/
theorem abort_keeps_other_version :
    let store := single "a?b" "x" 5
    let grown := store.putIfNewer (utf8 "a") (utf8 "y") 5
    let before : List Act := [back, .prune, .start 0 ["a"], .push 0 (.unanswered 0), backAgain,
      .prune, .grow ⟨utf8 "a", utf8 "y", 5⟩]
    let pushes (i : ℕ) : List Act := [.push i (.answered 0), .push i (.answered 0), .finish i]
    ∃ s₁ s₂ s₁' s₂', pair.Completes store .empty before 1 ["a"] (pushes 1) s₁ s₂ ∧
      Along pair.step (pair.SameDecisions ["a"]) before (State.start store .empty) ∧
      pair.Completes grown .empty [back, .prune] 0 ["a"] (pushes 0) s₁' s₂' ∧
      (∀ j ids, .start j ids ∉ [back, .prune]) ∧ s₁'.sender = s₁.sender ∧
      ¬ pair.Harmless .empty s₂ s₂' := by
  intro store grown before pushes
  have hscan : (run pair.step (before ++ .start 1 ["a"] :: pushes 1)
      (State.start store .empty)).map (fun s => s.loop.tasks.map fun t => (t.nodeId, t.scan)) =
        some ([("c", some ⟨[(utf8 "a?b", ⟨5, utf8 "x"⟩)], [false]⟩)] ++
          [("c", some ⟨[(utf8 "a", ⟨5, utf8 "y"⟩), (utf8 "a?b", ⟨5, utf8 "x"⟩)],
            [true, true]⟩)]) := by decide
  have hscan' : (run pair.step ([back, .prune] ++ .start 0 ["a"] :: pushes 0)
      (State.start grown .empty)).map (fun s => s.loop.tasks.map fun t => (t.nodeId, t.scan)) =
        some ([] ++ [("c", some ⟨[(utf8 "a", ⟨5, utf8 "y"⟩), (utf8 "a?b", ⟨5, utf8 "x"⟩)],
          [true, true]⟩)]) := by decide
  obtain ⟨s₁, s₂, h⟩ := Setup.exists_completes _ _ hscan rfl
  obtain ⟨s₁', s₂', h'⟩ := Setup.exists_completes _ _ hscan' rfl
  have hs : s₁.sender = grown := h.sender_eq rfl
  have hs' : s₁'.sender = grown := h'.sender_eq rfl
  have hget : (run pair.step (before ++ .start 1 ["a"] :: pushes 1)
      (State.start store .empty)).map (fun s => s.target.localStore.get (utf8 "a")) =
        some (some ⟨5, utf8 "x"⟩) := by decide
  have hget' : (run pair.step ([back, .prune] ++ .start 0 ["a"] :: pushes 0)
      (State.start grown .empty)).map (fun s => s.target.localStore.get (utf8 "a")) =
        some (some ⟨5, utf8 "y"⟩) := by decide
  rw [h.run_eq] at hget
  rw [h'.run_eq] at hget'
  refine ⟨s₁, s₂, s₁', s₂', h, ?_, h', by simp [back], hs'.trans hs.symm, fun hh => ?_⟩
  · exact Setup.sameDecisions_of_forall_start (by simp [before, back, backAgain]) _
  · have he := congrArg (fun s => s.get (utf8 "a")) hh.1
    have hxy := (Option.some.inj hget).symm.trans (he.trans (Option.some.inj hget'))
    exact absurd hxy (by decide)

end Diynamo.Coordinator.Respawn
