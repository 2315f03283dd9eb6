import Diynamo.Coordinator.Handoff
import Diynamo.Coordinator.Put
import Diynamo.Server.Router

/-! # The cluster as a system

All nodes with their stores, the processes that run on them, and the messages between them. A
process is a coordinator's `put` or `get`, a `deliver_hints` task or a `reconcile_keys` task; it is
known by its index, which tags the requests it waits for. Requests are served in any order, can be
refused, lost, or served after the process has given up, and so can the answers. A conditional write
is served as a whole or in two steps, the check and the write, between which others may be served
(`Act.check`, `Act.write`). The action carries every choice: which message is next, what the clock
reads, which nodes a gossip snapshot shows as online.

A request carries its key and value unchanged (`Client.Http` says for which keys that is so); a
branch for the coordinator's own store is a request to itself that no fault flag blocks. -/

namespace Diynamo.System.Step

open Diynamo.Lib.Utf8 Diynamo.Store.RocksDb Diynamo.Store.Hints Diynamo.Cluster.Ring
  Diynamo.Server.Router Diynamo.Coordinator.Get Diynamo.Coordinator.Put
  Diynamo.Coordinator.Handoff

/-- **The configuration that all nodes share**, with the ring built from it. -/
structure Cluster where
  hashRing : HashRing
  roster : List ClusterMember
  n : ℕ
  w : ℕ
  r : ℕ
  vnodes : ℕ
  ring : CoordinatorRing
  built : fromRoster roster n vnodes = .ok ring

namespace Cluster

/-- The cluster of a roster with at least `n` members. -/
def ofRoster (hashRing : HashRing) (roster : List ClusterMember) (n w r vnodes : ℕ)
    (hne : roster ≠ []) (hn : n ≤ roster.length) : Cluster where
  hashRing := hashRing
  roster := roster
  n := n
  w := w
  r := r
  vnodes := vnodes
  ring := ⟨collectById roster, roster.length - 1, vnodes, n, nodup_collectById roster⟩
  built := by rw [fromRoster, if_neg hne, if_neg (not_lt.mpr hn)]

/-- Three nodes on one machine, of which the first `n` are preferred for every key; for the key `k`
it is the order of the ring. -/
def onOneMachine (n w r : ℕ) (hn : n ≤ 3) : Cluster :=
  .ofRoster .inOrder [.loopback "b" 2, .loopback "c" 3, .loopback "a" 1] n w r 1
    (List.cons_ne_nil _ _) hn

variable (cfg : Cluster)

/-- The ids of all members in ring order, if there is one for the key. -/
def ringOrder (key : Bytes) : Option (List NodeId) :=
  match cfg.ring.ringOrderForKey cfg.hashRing key with
  | .ok order => some (order.map MemberInfo.id)
  | .error _ => none

/-- The ids of the preference list of a key, if there is one. -/
def preferenceList (key : Bytes) : Option (List NodeId) :=
  match cfg.ring.preferenceListForKey cfg.hashRing key cfg.n with
  | .ok pref => some (pref.map MemberInfo.id)
  | .error _ => none

/-- The preferred nodes of a key; a key without a preference list has none. -/
def preferred (key : Bytes) : List NodeId := (cfg.preferenceList key).getD []

end Cluster

/-! ### Messages -/

/-- What a request asks for. -/
inductive Job where
  | localGet (key : Bytes)
  | localPut (key value : Bytes) (timestamp : ℕ)
  | getInternal (key : String)
  | putVersioned (key value : String) (timestamp : ℕ)
  | putHint (targetId : NodeId) (key value : String) (timestamp : ℕ)
deriving DecidableEq, Repr

/-- A request to the node `dst`. Nobody waits for the answer to a read repair, which has no tag. -/
structure Request where
  tag : Option ℕ
  dst : NodeId
  job : Job
deriving DecidableEq, Repr

inductive Answer where
  | done
  | value (o : Option VersionedValue)
  | failed
deriving DecidableEq, Repr

/-- **What a node does with a request.** -/
def perform (s : Node) : Job → Node × Answer
  | .localGet key => (s, .value (s.localStore.get key))
  | .localPut key value timestamp =>
    ({ s with localStore := s.localStore.putIfNewer key value timestamp }, .done)
  | .getInternal key =>
    match s.getKvInternal key with
    | .ok body => (s, .value (some ⟨body.timestamp, utf8 body.value⟩))
    | .error .notFound => (s, .value none)
    | .error _ => (s, .failed)
  | .putVersioned key value timestamp =>
    match s.putKvInternalVersioned key ⟨value, timestamp⟩ with
    | .ok s' => (s', .done)
    | .error _ => (s, .failed)
  | .putHint targetId key value timestamp =>
    match s.putHintInternal targetId key ⟨value, timestamp⟩ with
    | .ok s' => (s', .done)
    | .error _ => (s, .failed)

/-- The key and version that a job offers to the local store. -/
def Job.writes : Job → Option (Bytes × VersionedValue)
  | .localPut key value timestamp => some (key, ⟨timestamp, value⟩)
  | .putVersioned key value timestamp => some (utf8 key, ⟨timestamp, utf8 value⟩)
  | _ => none

/-- A client call with a key and a value: not sent unless both are UTF-8. -/
def withUtf8 (key value : Bytes) (job : String → String → Job) : Option Job :=
  match fromUtf8 key, fromUtf8 value with
  | some k, some v => some (job k v)
  | _, _ => none

def versionedJob (key value : Bytes) (timestamp : ℕ) : Option Job :=
  withUtf8 key value fun k v => .putVersioned k v timestamp

def hintJob (targetId : NodeId) (key value : Bytes) (timestamp : ℕ) : Option Job :=
  withUtf8 key value fun k v => .putHint targetId k v timestamp

/-- The write of a coordinator to a preferred node: its own store directly, another one by RPC. -/
def writeJob (self dst : NodeId) (key value : Bytes) (timestamp : ℕ) : Option Job :=
  if dst = self then some (.localPut key value timestamp) else versionedJob key value timestamp

/-- The read of a coordinator from a preferred node. -/
def readJob (self dst : NodeId) (key : Bytes) : Option Job :=
  if dst = self then some (.localGet key) else (fromUtf8 key).map .getInternal

def requests (tag : Option ℕ) (dst : NodeId) (job : Option Job) : List Request :=
  (job.map fun j => ⟨tag, dst, j⟩).toList

/-! ### Processes -/

/-- A coordinator's `put`: the preferred writes still running, the outcomes of the others, and for
phase 2 the failed nodes without a hint, the candidates behind the cursor and the one asked. -/
structure PutProc where
  coordinator : NodeId
  key : Bytes
  value : Bytes
  timestamp : ℕ
  order : List NodeId
  waiting : List NodeId
  joined : List (NodeId × WriteOutcome)
  targets : List NodeId
  cands : List NodeId
  hintAcks : ℕ
  asked : Option NodeId
  result : Option (Except QuorumFailed Unit)
deriving DecidableEq

/-- A coordinator's `get`. -/
structure GetProc where
  coordinator : NodeId
  key : Bytes
  waiting : List NodeId
  responses : List (NodeId × Option VersionedValue)
  result : Option (Except QuorumFailed (Option VersionedValue))
deriving DecidableEq

/-- A `reconcile_keys` task on node `self` for the returning node `nodeId`: the online snapshot, the
rest of the local keys, and whether some of them were given up. -/
structure ReconcileProc where
  self : NodeId
  nodeId : NodeId
  onlineIds : List NodeId
  pending : List (Bytes × VersionedValue)
  awaiting : Bool
  aborted : Bool
deriving DecidableEq

inductive Proc where
  | put (p : PutProc)
  | get (g : GetProc)
  | deliver (self : NodeId) (d : DeliverTask)
  | reconcile (q : ReconcileProc)
deriving DecidableEq

/-- The requests that process `tag` is waiting for. -/
def Proc.expects (tag : ℕ) : Proc → List Request
  | .put p =>
    (p.waiting.flatMap fun x =>
      requests (some tag) x (writeJob p.coordinator x p.key p.value p.timestamp)) ++
    match p.asked, p.targets with
    | some c, target :: _ => requests (some tag) c (hintJob target p.key p.value p.timestamp)
    | _, _ => []
  | .get g => g.waiting.flatMap fun x => requests (some tag) x (readJob g.coordinator x g.key)
  | .deliver _ d =>
    match d.stage, d.pending with
    | .awaiting, (key, value, timestamp) :: _ =>
      requests (some tag) d.nodeId (versionedJob key value timestamp)
    | _, _ => []
  | .reconcile q =>
    match q.awaiting, q.pending with
    | true, (key, vv) :: _ => requests (some tag) q.nodeId (versionedJob key vv.data vv.timestamp)
    | _, _ => []

/-- How a request ends for the process that waits for it: with an answer, with an error or a
timeout, or with a panic of the task. -/
inductive Outcome where
  | answered (a : Answer)
  | error
  | panicked
deriving DecidableEq

def Outcome.toWrite : Outcome → WriteOutcome
  | .answered .done => .ok
  | .answered _ => .error
  | .error => .error
  | .panicked => .panicked

def Outcome.isOk : Outcome → Bool
  | .answered .done => true
  | _ => false

/-- The next preferred write of a put completes. -/
def PutProc.join (p : PutProc) (x : NodeId) (o : WriteOutcome) : PutProc :=
  { p with
    waiting := p.waiting.erase x
    joined := p.joined ++ [(x, o)]
    targets := if o = .error then p.targets ++ [x] else p.targets }

/-- The candidate has answered. -/
def PutProc.hinted (p : PutProc) (isOk : Bool) : PutProc :=
  { p with
    asked := none
    targets := targetsAfter p.targets isOk
    hintAcks := if isOk then p.hintAcks + 1 else p.hintAcks }

/-- A read of a get completes; errors are discarded. -/
def GetProc.join (g : GetProc) (x : NodeId) (o : Outcome) : GetProc :=
  { g with
    waiting := g.waiting.erase x
    responses :=
      match o with
      | .answered (.value v) => g.responses ++ [(x, v)]
      | _ => g.responses }

/-- A reconciliation is aborted; one that has nothing left is not. -/
def ReconcileProc.abort (q : ReconcileProc) : ReconcileProc :=
  { q with
    pending := []
    awaiting := false
    aborted := q.aborted || !q.pending.isEmpty }

/-- **A process takes the end of its request to `x`**; the request to the own hint store is the
deletion, which a delivery task does not wait for unless it fails. -/
def Proc.settle (x : NodeId) (o : Outcome) : Proc → Option Proc
  | .put p =>
    if x ∈ p.waiting then some (.put (p.join x o.toWrite))
    else if p.asked = some x then some (.put (p.hinted o.isOk))
    else none
  | .get g => if x ∈ g.waiting then some (.get (g.join x o)) else none
  | .deliver self d =>
    if d.stage = .awaiting ∧ d.nodeId = x then some (.deliver self (d.answered o.isOk))
    else if d.stage = .deleting ∧ self = x ∧ o = .error then some (.deliver self d.next)
    else none
  | .reconcile q =>
    if q.awaiting ∧ q.nodeId = x then
      some (.reconcile { q with awaiting := false, pending := q.pending.tail })
    else none

variable (cfg : Cluster)

/-- The acks of a put. -/
def PutProc.acks (p : PutProc) : ℕ := (phase1 p.joined).1 + p.hintAcks

/-- Phase 2: the next candidate is asked, or the put returns. -/
def PutProc.advance (p : PutProc) : PutProc :=
  match nextHint (p.order.take cfg.n) p.targets p.cands with
  | some (_, c, cs) => { p with asked := some c, cands := cs }
  | none =>
    { p with result := some (if cfg.w ≤ p.acks then .ok () else .error ⟨p.acks, cfg.w⟩) }

/-- The get returns. -/
def GetProc.advance (g : GetProc) : GetProc :=
  { g with
    result := some (match get cfg.r g.responses with
      | .ok (o, _) => .ok o
      | .error e => .error e) }

/-- The repairs that a get sends when it returns. -/
def GetProc.sends (g : GetProc) : List Request :=
  match get cfg.r g.responses with
  | .ok (_, sent) =>
    sent.flatMap fun e => requests none e.1 (versionedJob g.key e.2.data e.2.timestamp)
  | .error _ => []

/-- A reconciliation looks at its next key. -/
def ReconcileProc.advance (q : ReconcileProc) : Option ReconcileProc :=
  match q.pending with
  | [] => none
  | (key, _) :: rest =>
    if designated (cfg.preferred key) q.nodeId q.onlineIds = some q.self then
      some { q with awaiting := true }
    else some { q with pending := rest }

/-- **The next step of a process** that is not waiting for an answer. -/
def Proc.advance : Proc → Option Proc
  | .put p =>
    if p.waiting = [] ∧ p.asked = none ∧ p.result.isNone then some (.put (p.advance cfg)) else none
  | .get g => if g.waiting = [] ∧ g.result.isNone then some (.get (g.advance cfg)) else none
  | .deliver self d =>
    match d.stage, d.pending with
    | .sending, _ :: _ => some (.deliver self { d with stage := .awaiting })
    | .deleting, _ => some (.deliver self d.next)
    | _, _ => none
  | .reconcile q => if q.awaiting then none else (q.advance cfg).map .reconcile

/-- The requests of a step that nobody waits for. -/
def Proc.sends : Proc → List Request
  | .get g => g.sends cfg
  | _ => []

/-- The hint that a step of the process deletes. -/
def Proc.deletes : Proc → Option (NodeId × NodeId × Bytes)
  | .deliver self d => d.toDelete.map fun h => (self, d.nodeId, h.1)
  | _ => none

/-! ### The system -/

/-- The nodes, the processes, the requests on the way, those whose conditional write has passed its
check, and the answers on the way. -/
structure World where
  node : NodeId → Node
  procs : List Proc
  net : List Request
  checked : List Request
  replies : List (Request × Answer)

/-- Empty stores, no processes, no messages. -/
def World.empty : World := ⟨fun _ => Node.empty, [], [], [], []⟩

inductive Act where
  | put (c : NodeId) (key value : Bytes) (nowMillis : ℕ)
  | get (c : NodeId) (key : Bytes)
  | deliver (x nodeId : NodeId)
  | reconcile (x nodeId : NodeId) (onlineIds : List NodeId)
  | serve (i : ℕ)
  /-- the conditional write of the `i`-th request finds nothing as fresh -/
  | check (i : ℕ)
  /-- the `i`-th of the checked requests writes -/
  | write (i : ℕ)
  /-- the `i`-th request is answered with an error, before or after it reaches its node -/
  | refuse (i : ℕ)
  | loseRequest (i : ℕ)
  | loseReply (i : ℕ)
  /-- the `i`-th answer on the way reaches the process that waits for it -/
  | answer (i : ℕ)
  /-- a request of process `p` to `x` ends with an error or a timeout, or its task panics -/
  | fail (p : ℕ) (x : NodeId) (panicked : Bool)
  | advance (p : ℕ)
  /-- a reconciliation is aborted -/
  | abort (p : ℕ)
  | setFaults (x : NodeId) (f : FaultFlags)

namespace World

variable (w : World)

/-- A new process sends its requests. -/
def spawn (p : Proc) : World :=
  { w with procs := w.procs ++ [p], net := w.net ++ p.expects w.procs.length }

/-- Process `i` goes on as `p`. -/
def setProc (i : ℕ) (p : Proc) : World := { w with procs := w.procs.set i p }

def setNode (x : NodeId) (s : Node) : World := { w with node := Function.update w.node x s }

/-- The deletion of a hint at a node. -/
def deleteHint : Option (NodeId × NodeId × Bytes) → World
  | none => w
  | some (x, targetId, key) =>
    w.setNode x { w.node x with hints := (w.node x).hints.deleteHint targetId key }

/-- A request is served. -/
def serve (i : ℕ) (req : Request) : World :=
  { w.setNode req.dst (perform (w.node req.dst) req.job).1 with
    net := w.net.eraseIdx i
    replies := w.replies ++ [(req, (perform (w.node req.dst) req.job).2)] }

/-- A request ends with an error and has no effect. -/
def refuse (i : ℕ) (req : Request) : World :=
  { w with net := w.net.eraseIdx i, replies := w.replies ++ [(req, .failed)] }

/-- A conditional write passes its check. -/
def check (i : ℕ) (req : Request) : World :=
  { w with net := w.net.eraseIdx i, checked := w.checked ++ [req] }

/-- A checked request writes, whatever is stored by now. -/
def write (i : ℕ) (req : Request) (key : Bytes) (v : VersionedValue) : World :=
  { w.setNode req.dst { w.node req.dst with
      localStore := (w.node req.dst).localStore.write key v.data v.timestamp } with
    checked := w.checked.eraseIdx i
    replies := w.replies ++ [(req, .done)] }

end World

/-- A request is a conditional write that passes its check. -/
def Passes (s : Node) (job : Job) : Prop :=
  (perform s job).2 = .done ∧
    (Job.writes job).any (fun x => !s.localStore.isFresh x.1 x.2.timestamp) = true

instance (s : Node) (job : Job) : Decidable (Passes s job) := by unfold Passes; infer_instance

/-- A put starts, for its ring order. -/
def startPut (c : NodeId) (key value : Bytes) (now : ℕ) (order : List NodeId) : PutProc where
  coordinator := c
  key := key
  value := value
  timestamp := now
  order := order
  waiting := order.take cfg.n
  joined := []
  targets := []
  cands := order.drop cfg.n
  hintAcks := 0
  asked := none
  result := none

/-- **One step of the system.** A put whose key has no ring order fails at once, as does a get
without a preference list. -/
def step (w : World) : Act → Option World
  | .put c key value now =>
    match cfg.ringOrder key with
    | none => some w
    | some order =>
      if order.length < cfg.n then some w
      else some (w.spawn (.put (startPut cfg c key value now order)))
  | .get c key =>
    match cfg.preferenceList key with
    | none => some w
    | some pref => some (w.spawn (.get ⟨c, key, pref, [], none⟩))
  | .deliver x nodeId => some (w.spawn (.deliver x (.scan (w.node x).hints nodeId)))
  | .reconcile x nodeId onlineIds =>
    some (w.spawn (.reconcile ⟨x, nodeId, onlineIds, (w.node x).localStore.iterAll, false, false⟩))
  | .serve i => w.net[i]?.map (w.serve i)
  | .check i =>
    match w.net[i]? with
    | none => none
    | some req => if Passes (w.node req.dst) req.job then some (w.check i req) else none
  | .write i =>
    match w.checked[i]? with
    | none => none
    | some req => (Job.writes req.job).map fun x => w.write i req x.1 x.2
  | .refuse i => w.net[i]?.map (w.refuse i)
  | .loseRequest i => some { w with net := w.net.eraseIdx i }
  | .loseReply i => some { w with replies := w.replies.eraseIdx i }
  | .answer i =>
    match w.replies[i]? with
    | none => none
    | some (req, a) =>
      match req.tag with
      | none => none
      | some p =>
        match w.procs[p]? with
        | none => none
        | some proc =>
          if req ∈ proc.expects p then
            (proc.settle req.dst (.answered a)).map fun proc' =>
              { w.setProc p proc' with replies := w.replies.eraseIdx i }
          else none
  | .fail p x panicked =>
    match w.procs[p]? with
    | none => none
    | some proc =>
      (proc.settle x (if panicked then .panicked else .error)).map fun proc' => w.setProc p proc'
  | .advance p =>
    match w.procs[p]? with
    | none => none
    | some proc =>
      (proc.advance cfg).map fun proc' =>
        { (w.deleteHint proc.deletes).setProc p proc' with
          net := w.net ++ proc'.expects p ++ proc.sends cfg }
  | .abort p =>
    match w.procs[p]? with
    | some (.reconcile q) =>
      some (w.setProc p (.reconcile q.abort))
    | _ => none
  | .setFaults x f => some (w.setNode x { w.node x with faults := f })

/-! ### What a step does -/

/-- The process that an action starts. -/
inductive Starts (w : World) : Act → Proc → Prop where
  | put {c key value now order} (ho : cfg.ringOrder key = some order) (hn : cfg.n ≤ order.length) :
    Starts w (.put c key value now) (.put (startPut cfg c key value now order))
  | get {c key pref} (hp : cfg.preferenceList key = some pref) :
    Starts w (.get c key) (.get ⟨c, key, pref, [], none⟩)
  | deliver {x nodeId} :
    Starts w (.deliver x nodeId) (.deliver x (.scan (w.node x).hints nodeId))
  | reconcile {x nodeId onlineIds} :
    Starts w (.reconcile x nodeId onlineIds)
      (.reconcile ⟨x, nodeId, onlineIds, (w.node x).localStore.iterAll, false, false⟩)

/-- **The effects of the actions**, with what each of them requires. -/
inductive Effect (w : World) : Act → World → Prop where
  | idle {a} (hn : ∀ p, ¬ Starts cfg w a p) : Effect w a w
  | spawn {a p} (hs : Starts cfg w a p) : Effect w a (w.spawn p)
  | serve {i req} (hi : w.net[i]? = some req) : Effect w (.serve i) (w.serve i req)
  | check {i req} (hi : w.net[i]? = some req) (hp : Passes (w.node req.dst) req.job) :
    Effect w (.check i) (w.check i req)
  | write {i req key v} (hi : w.checked[i]? = some req) (hj : Job.writes req.job = some (key, v)) :
    Effect w (.write i) (w.write i req key v)
  | refuse {i req} (hi : w.net[i]? = some req) : Effect w (.refuse i) (w.refuse i req)
  | loseRequest {i} : Effect w (.loseRequest i) { w with net := w.net.eraseIdx i }
  | loseReply {i} : Effect w (.loseReply i) { w with replies := w.replies.eraseIdx i }
  | answer {i req a p proc proc'} (hi : w.replies[i]? = some (req, a)) (ht : req.tag = some p)
    (hp : w.procs[p]? = some proc) (he : req ∈ proc.expects p)
    (hs : proc.settle req.dst (.answered a) = some proc') :
    Effect w (.answer i) { w.setProc p proc' with replies := w.replies.eraseIdx i }
  | fail {p x o panicked proc proc'} (ho : o = .panicked ∨ o = .error)
    (hp : w.procs[p]? = some proc) (hs : proc.settle x o = some proc') :
    Effect w (.fail p x panicked) (w.setProc p proc')
  | advance {p proc proc'} (hp : w.procs[p]? = some proc) (hs : proc.advance cfg = some proc') :
    Effect w (.advance p) { (w.deleteHint proc.deletes).setProc p proc' with
      net := w.net ++ proc'.expects p ++ proc.sends cfg }
  | abort {p q} (hp : w.procs[p]? = some (.reconcile q)) :
    Effect w (.abort p) (w.setProc p (.reconcile q.abort))
  | setFaults {x f} : Effect w (.setFaults x f) (w.setNode x { w.node x with faults := f })

variable {cfg}

theorem starts_unique {w : World} {a : Act} {p q : Proc} (hp : Starts cfg w a p)
    (hq : Starts cfg w a q) : p = q := by
  cases hp with
  | put ho =>
    cases hq with
    | put ho' => cases ho.symm.trans ho'; rfl
  | get hp =>
    cases hq with
    | get hp' => cases hp.symm.trans hp'; rfl
  | deliver => cases hq; rfl
  | reconcile => cases hq; rfl

theorem effect_of_step {w w' : World} {a : Act} (h : step cfg w a = some w') :
    Effect cfg w a w' := by
  cases a with
  | put c key value now =>
    simp only [step] at h
    split at h
    · next ho =>
      rw [← Option.some.inj h]
      refine .idle fun p hs => ?_
      cases hs with
      | put ho' => simp [ho] at ho'
    · next order ho =>
      split_ifs at h with hn
      · rw [← Option.some.inj h]
        refine .idle fun p hs => ?_
        cases hs with
        | put ho' hn' =>
          cases ho.symm.trans ho'
          exact absurd hn (not_lt.mpr hn')
      · rw [← Option.some.inj h]; exact .spawn (.put ho (not_lt.mp hn))
  | get c key =>
    simp only [step] at h
    split at h
    · next hp =>
      rw [← Option.some.inj h]
      refine .idle fun p hs => ?_
      cases hs with
      | get hp' => simp [hp] at hp'
    · next pref hp => rw [← Option.some.inj h]; exact .spawn (.get hp)
  | deliver x nodeId => rw [← Option.some.inj h]; exact .spawn .deliver
  | reconcile x nodeId onlineIds => rw [← Option.some.inj h]; exact .spawn .reconcile
  | serve i =>
    obtain ⟨req, hi, rfl⟩ := Option.map_eq_some_iff.mp h
    exact .serve hi
  | check i =>
    simp only [step] at h
    split at h
    · cases h
    · next req hi =>
      split_ifs at h with hp
      rw [← Option.some.inj h]
      exact .check hi hp
  | write i =>
    simp only [step] at h
    split at h
    · cases h
    · next req hi =>
      obtain ⟨⟨key, v⟩, hj, rfl⟩ := Option.map_eq_some_iff.mp h
      exact .write hi hj
  | refuse i =>
    obtain ⟨req, hi, rfl⟩ := Option.map_eq_some_iff.mp h
    exact .refuse hi
  | loseRequest i => rw [← Option.some.inj h]; exact .loseRequest
  | loseReply i => rw [← Option.some.inj h]; exact .loseReply
  | answer i =>
    simp only [step] at h
    split at h
    · cases h
    · next req a hi =>
      split at h
      · cases h
      · next p ht =>
        split at h
        · cases h
        · next proc hp =>
          split_ifs at h with he
          obtain ⟨proc', hs, rfl⟩ := Option.map_eq_some_iff.mp h
          exact .answer hi ht hp he hs
  | fail p x panicked =>
    simp only [step] at h
    split at h
    · cases h
    · next proc hp =>
      obtain ⟨proc', hs, rfl⟩ := Option.map_eq_some_iff.mp h
      exact .fail (by cases panicked <;> simp) hp hs
  | advance p =>
    simp only [step] at h
    split at h
    · cases h
    · next proc hp =>
      obtain ⟨proc', hs, rfl⟩ := Option.map_eq_some_iff.mp h
      exact .advance hp hs
  | abort p =>
    simp only [step] at h
    split at h
    · next q hp => rw [← Option.some.inj h]; exact .abort hp
    · cases h
  | setFaults x f => rw [← Option.some.inj h]; exact .setFaults

end Diynamo.System.Step
