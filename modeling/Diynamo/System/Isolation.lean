import Diynamo.System.PublicApi

/-! # A node without HTTP

`FaultFlags` block the routes of a node: `killHttp` the internal and the public ones, but not the
hint route, and `killRpc` all of them. From then on, in every run that leaves the flags alone, the
node is out of the cluster (`killed_node_isolated`): its local store stays as it is, and no put or
get that starts meanwhile is one of its own, counts it as an ack or hears from it. Such a node takes
no call (`without_starts`), and a request to it fails unless it is a hint (`perform_blocked`). So
the invariant `CutOff` speaks of the requests, of the answers to the later processes, and of these
processes. -/

namespace Diynamo.System.Isolation

open Diynamo.Lib.Run Diynamo.Lib.Utf8 Diynamo.Store.RocksDb Diynamo.Store.Hints
  Diynamo.Server.Router Diynamo.Coordinator.Get Diynamo.Coordinator.Put Diynamo.Coordinator.Handoff
  Diynamo.System.Step Diynamo.System.Rules Diynamo.System.WellFormed Diynamo.System.Provenance
  Diynamo.System.Transport Diynamo.System.PublicApi

variable {cfg : Cluster} {w w' : World} {a : Act} {x : NodeId}

/-! ### Flags -/

section Flags

variable (f : FaultFlags)

def setBlockInternal (on : Bool) : FaultFlags := { f with blockInternal := on }

def setBlockPublic (on : Bool) : FaultFlags := { f with blockPublic := on }

/-- Block all client-facing and replica HTTP (hints still accepted). -/
def killHttp : FaultFlags := setBlockPublic (setBlockInternal f true) true

/-- Block every route. -/
def killRpc : FaultFlags := ⟨true, true, true⟩

end Flags

/-- The calls that take a node down. -/
inductive Kills (f : FaultFlags) : FaultFlags → Prop where
  | http : Kills f (killHttp f)
  | rpc : Kills f killRpc

theorem Kills.blocked {f f' : FaultFlags} (h : Kills f f') :
    f'.blockInternal = true ∧ f'.blockPublic = true := by
  cases h <;> exact ⟨rfl, rfl⟩

/-- The action leaves the flags of `x` alone. -/
def KeepsFlags (x : NodeId) : Act → Prop
  | .setFaults y _ => y ≠ x
  | _ => True

instance (x : NodeId) : ∀ a, Decidable (KeepsFlags x a)
  | .setFaults y _ => inferInstanceAs (Decidable (y ≠ x))
  | .put .. | .get .. | .deliver .. | .reconcile .. | .serve _ | .check _ | .write _ | .refuse _
  | .loseRequest _ | .loseReply _ | .answer _ | .fail .. | .advance _ | .abort _ => isTrue trivial

theorem KeepsFlags.ne_setFaults (h : KeepsFlags x a) (f : FaultFlags) : a ≠ .setFaults x f := by
  rintro rfl
  exact h rfl

/-- A branch for the coordinator's own store. -/
def isLocal : Job → Bool
  | .localGet _ | .localPut .. => true
  | _ => false

/-- **A blocked node** fails every request but those for its own store and hints. -/
theorem perform_blocked {s : Node} {job : Job} (hs : s.faults.blockInternal = true)
    (hl : isLocal job = false) (hh : Job.hints job = none) : perform s job = (s, .failed) := by
  cases job with
  | getInternal key => rw [perform, Node.getKvInternal, if_pos hs]
  | putVersioned key value timestamp => rw [perform, Node.putKvInternalVersioned, if_pos hs]
  | putHint => cases hh
  | _ => cases hl

theorem localStore_perform_blocked {s : Node} {job : Job} (hs : s.faults.blockInternal = true)
    (hl : isLocal job = false) : (perform s job).1.localStore = s.localStore := by
  cases hh : Job.hints job with
  | none => rw [perform_blocked hs hl hh]
  | some e =>
    obtain ⟨t, key, e⟩ := e
    rcases perform_hints s hh with ⟨-, hp⟩ | hp <;> rw [hp]

theorem not_passes_blocked {s : Node} {job : Job} (hs : s.faults.blockInternal = true)
    (hl : isLocal job = false) : ¬ Passes s job := by
  intro hp
  obtain ⟨key, v, hj, -⟩ := perform_of_passes hp
  have hdone := hp.1
  rw [perform_blocked hs hl (hints_of_writes hj)] at hdone
  cases hdone

theorem isLocal_of_versionedJob {key value : Bytes} {timestamp : ℕ} {j : Job}
    (h : versionedJob key value timestamp = some j) : isLocal j = false := by
  obtain ⟨k, v, -, -, rfl⟩ := withUtf8_eq_some.mp h
  rfl

/-- The process waits for the store of its own node `x`. -/
def WaitsForOwn (x : NodeId) : Proc → Prop
  | .put p => p.coordinator = x ∧ x ∈ p.waiting
  | .get g => g.coordinator = x ∧ x ∈ g.waiting
  | _ => False

instance (x : NodeId) : ∀ p, Decidable (WaitsForOwn x p)
  | .put p => inferInstanceAs (Decidable (p.coordinator = x ∧ x ∈ p.waiting))
  | .get g => inferInstanceAs (Decidable (g.coordinator = x ∧ x ∈ g.waiting))
  | .deliver .. | .reconcile _ => isFalse id

theorem isLocal_of_expects {tag : ℕ} {p : Proc} {req : Request} (hp : ¬ WaitsForOwn req.dst p)
    (h : req ∈ p.expects tag) : isLocal req.job = false := by
  cases p with
  | put p =>
    rw [Proc.expects, List.mem_append] at h
    rcases h with h | h
    · obtain ⟨y, hy, hr⟩ := List.mem_flatMap.mp h
      obtain ⟨j, hj, rfl⟩ := mem_requests.mp hr
      unfold writeJob at hj
      split_ifs at hj with he
      · exact absurd ⟨he.symm, hy⟩ hp
      · exact isLocal_of_versionedJob hj
    · split at h
      · obtain ⟨j, hj, rfl⟩ := mem_requests.mp h
        obtain ⟨k, v, -, -, rfl⟩ := withUtf8_eq_some.mp hj
        rfl
      · cases h
  | get g =>
    obtain ⟨y, hy, hr⟩ := List.mem_flatMap.mp h
    obtain ⟨j, hj, rfl⟩ := mem_requests.mp hr
    unfold readJob at hj
    split_ifs at hj with he
    · exact absurd ⟨he.symm, hy⟩ hp
    · obtain ⟨k, -, rfl⟩ := Option.map_eq_some_iff.mp hj
      rfl
  | deliver self d =>
    rw [Proc.expects] at h
    split at h
    · obtain ⟨j, hj, rfl⟩ := mem_requests.mp h
      exact isLocal_of_versionedJob hj
    · cases h
  | reconcile q =>
    rw [Proc.expects] at h
    split at h
    · obtain ⟨j, hj, rfl⟩ := mem_requests.mp h
      exact isLocal_of_versionedJob hj
    · cases h

theorem isLocal_of_sends {g : GetProc} {req : Request} (h : req ∈ (Proc.get g).sends cfg) :
    isLocal req.job = false := by
  rw [Proc.sends, GetProc.sends] at h
  split at h
  · obtain ⟨y, -, hr⟩ := List.mem_flatMap.mp h
    obtain ⟨j, hj, rfl⟩ := mem_requests.mp hr
    exact isLocal_of_versionedJob hj
  · cases h

/-- A checked request was checked before, or has just passed. -/
theorem checked_passes (h : Effect cfg w a w') {req : Request} (hr : req ∈ w'.checked) :
    req ∈ w.checked ∨ (req ∈ w.net ∧ Passes (w.node req.dst) req.job) := by
  cases h with
  | check hi hp =>
    rcases List.mem_append.mp hr with hr | hr
    · exact Or.inl hr
    · rw [List.mem_singleton.mp hr]
      exact Or.inr ⟨List.mem_of_getElem? hi, hp⟩
  | write hi => exact Or.inl (List.mem_of_mem_eraseIdx hr)
  | advance => exact Or.inl (by rwa [← checked_deleteHint (w := w)])
  | _ => exact Or.inl hr

/-! ### Processes -/

/-- The node that coordinates a put or a get. -/
def coordinatorOf : Proc → Option NodeId
  | .put p => some p.coordinator
  | .get g => some g.coordinator
  | _ => none

/-- The nodes that a put or a get waits for. -/
def waitingOf : Proc → List NodeId
  | .put p => p.waiting
  | .get g => g.waiting
  | _ => []

theorem waitsForOwn_iff {p : Proc} :
    WaitsForOwn x p ↔ coordinatorOf p = some x ∧ x ∈ waitingOf p := by
  cases p <;> simp [WaitsForOwn, coordinatorOf, waitingOf]

/-- **A process keeps its coordinator**, and waits for no other nodes than before. -/
theorem coordinator_moves {j : ℕ} {p p' : Proc} (h : Moves cfg w a j p p') :
    coordinatorOf p' = coordinatorOf p ∧ waitingOf p' ⊆ waitingOf p := by
  have hsettle : ∀ {y o}, Proc.settle y o p = some p' →
      coordinatorOf p' = coordinatorOf p ∧ waitingOf p' ⊆ waitingOf p := by
    intro y o hs
    cases p with
    | put p =>
      rw [Proc.settle] at hs
      split_ifs at hs <;> cases hs
      · exact ⟨rfl, List.erase_subset⟩
      · exact ⟨rfl, List.Subset.refl _⟩
    | get g =>
      rw [Proc.settle] at hs
      split_ifs at hs
      cases hs
      exact ⟨rfl, List.erase_subset⟩
    | deliver self d =>
      rcases settle_deliver hs with ⟨-, -, rfl⟩ | ⟨-, rfl⟩ <;> exact ⟨rfl, List.Subset.refl _⟩
    | reconcile q => obtain ⟨-, rfl⟩ := settle_reconcile hs; exact ⟨rfl, List.Subset.refl _⟩
  cases h with
  | answered _ _ hs => exact hsettle hs
  | failed _ hs => exact hsettle hs
  | advance hs =>
    cases p with
    | put p =>
      rw [Proc.advance] at hs
      split_ifs at hs
      cases hs
      unfold PutProc.advance
      split <;> exact ⟨rfl, List.Subset.refl _⟩
    | get g =>
      rw [Proc.advance] at hs
      split_ifs at hs
      cases hs
      exact ⟨rfl, List.Subset.refl _⟩
    | deliver self d =>
      rcases advance_deliver hs with ⟨-, -, rfl⟩ | ⟨-, rfl⟩ <;> exact ⟨rfl, List.Subset.refl _⟩
    | reconcile q =>
      rcases advance_reconcile hs with ⟨_, _, _, _, _, rfl⟩ | ⟨_, _, _, _, _, rfl⟩ <;>
        exact ⟨rfl, List.Subset.refl _⟩
  | abort => exact ⟨rfl, List.Subset.refl _⟩

/-- **The process goes without `x`**: it is not coordinated there, and has neither an ack of a write
nor a response from it. -/
def Without (x : NodeId) : Proc → Prop
  | .put p => p.coordinator ≠ x ∧ (x, .ok) ∉ p.joined
  | .get g => g.coordinator ≠ x ∧ ∀ o, (x, o) ∉ g.responses
  | _ => True

/-- **A blocked node takes no call**, so it starts no put or get. -/
theorem without_starts (hx : (w.node x).faults.blockPublic = true) (ha : Taken w a) {p : Proc}
    (h : Starts cfg w a p) : coordinatorOf p ≠ some x ∧ Without x p := by
  have hne : ∀ c, (w.node c).faults.blockPublic = false → c ≠ x := by
    rintro c hc rfl
    rw [hx] at hc
    cases hc
  cases h with
  | put =>
    have hc := hne _ ha
    exact ⟨fun he => hc (Option.some.inj he), hc, List.not_mem_nil⟩
  | get =>
    have hc := hne _ ha
    exact ⟨fun he => hc (Option.some.inj he), hc, fun _ => List.not_mem_nil⟩
  | _ => exact ⟨nofun, trivial⟩

/-! ### The invariant -/

/-- **The node `x` is cut off**, with the store `s`, for the processes from tag `i0` on. -/
structure CutOff (cfg : Cluster) (i0 : ℕ) (x : NodeId) (f : FaultFlags) (s : RocksDbStore)
    (w : World) : Prop where
  wf : AllWF cfg w
  blocked : f.blockInternal = true ∧ f.blockPublic = true
  faults : (w.node x).faults = f
  store : (w.node x).localStore = s
  net : ∀ req ∈ w.net, req.dst = x → isLocal req.job = false
  checked : ∀ req ∈ w.checked, req.dst ≠ x
  replies : ∀ r ∈ w.replies, r.1.dst = x → Job.hints r.1.job = none →
    ∀ i, r.1.tag = some i → i0 ≤ i → r.2 = .failed
  own : ∀ (i : ℕ) (p : Proc), w.procs[i]? = some p → ¬ WaitsForOwn x p
  later : ∀ (i : ℕ) (p : Proc), i0 ≤ i → w.procs[i]? = some p → Without x p

section Step

variable {i0 : ℕ} {f : FaultFlags} {s : RocksDbStore} (hw : CutOff cfg i0 x f s w)

include hw

theorem CutOff.blockInternal : (w.node x).faults.blockInternal = true := by
  rw [hw.faults]
  exact hw.blocked.1

theorem CutOff.blockPublic : (w.node x).faults.blockPublic = true := by
  rw [hw.faults]
  exact hw.blocked.2

theorem CutOff.store_step (h : Effect cfg w a w') : (w'.node x).localStore = s := by
  rw [← hw.store]
  rcases node_step h x with hn | ⟨i, req, -, hi, hd, hn⟩ | ⟨_, _, _, _, _, hn⟩ | ⟨_, _, hn⟩ |
    ⟨_, req, _, _, _, hr, hd, _, _⟩
  · rw [hn]
  · rw [hn]
    exact localStore_perform_blocked hw.blockInternal (hw.net req (List.mem_of_getElem? hi) hd)
  · rw [hn]
  · rw [hn]
  · exact absurd hd (hw.checked req hr)

/-- No later put is acknowledged by the node, and no later get hears from it. -/
theorem CutOff.without_moves (h : Effect cfg w a w') {i : ℕ} (hi : i0 ≤ i) {q q' : Proc}
    (hq : w.procs[i]? = some q) (hq' : w'.procs[i]? = some q') (hm : Moves cfg w a i q q') :
    Without x q' := by
  have hco := (coordinator_moves hm).1
  have hlater := hw.later i q hi hq
  cases q' with
  | put p' =>
    obtain ⟨p, rfl⟩ := eq_put_of_moves hm
    refine ⟨fun he => hlater.1 ((Option.some.inj hco).symm.trans he), fun hx => ?_⟩
    obtain ⟨p1, hp1, -, -, hack⟩ := put_ack_step h hq' hx
    cases hq.symm.trans hp1
    rcases hack with hx | ⟨req, hr, hd, hwait, he⟩
    · exact hlater.2 hx
    · obtain ⟨htag, hj⟩ := expects_put he
      rcases hj with ⟨-, hj⟩ | ⟨hasked, -⟩
      · cases hw.replies _ hr hd (hints_of_writes hj) i htag hi
      · -- a put that asks for a hint waits for no write
        have hwf : PutWF cfg p := hw.wf i _ hq
        rw [(hwf.asked _ hasked).1] at hwait
        cases hwait
  | get g' =>
    obtain ⟨g, rfl⟩ := eq_get_of_moves hm
    refine ⟨fun he => hlater.1 ((Option.some.inj hco).symm.trans he), fun o hx => ?_⟩
    obtain ⟨g1, hg1, -, hresp⟩ := get_response_step h hq' hx
    cases hq.symm.trans hg1
    rcases hresp with hx | ⟨req, hr, hd, he⟩
    · exact hlater.2 o hx
    · obtain ⟨htag, -, hj⟩ := expects_get he
      cases hw.replies _ hr hd (writes_hints_of_reads hj).2 i htag hi
  | _ => trivial

/-- **One step** leaves the node cut off. -/
theorem cutOff_step (hk : KeepsFlags x a) (ha : Taken w a) (h : Effect cfg w a w') :
    CutOff cfg i0 x f s w' := by
  have hown : ∀ (i : ℕ) (p : Proc), w'.procs[i]? = some p → ¬ WaitsForOwn x p := by
    intro i p hp
    rcases proc_step h hp with hp | ⟨-, hs⟩ | ⟨q, hq, hm⟩
    · exact hw.own i p hp
    · rw [waitsForOwn_iff]
      exact fun hc => (without_starts hw.blockPublic ha hs).1 hc.1
    · have hq' := hw.own i q hq
      obtain ⟨hco, hsub⟩ := coordinator_moves hm
      rw [waitsForOwn_iff] at hq' ⊢
      exact fun hc => hq' ⟨hco.symm.trans hc.1, hsub hc.2⟩
  refine ⟨allWF_step hw.wf h, hw.blocked, (faults_step h hk.ne_setFaults).trans hw.faults,
    hw.store_step h, fun req hr hd => ?_, fun req hr hd => ?_, fun r hr hd hh i ht hi => ?_, hown,
    fun i p hi hp => ?_⟩
  · rcases net_step h hr with hr | ⟨i, p, hp, hr⟩ | ⟨i, g, -, hr⟩
    · exact hw.net req hr hd
    · exact isLocal_of_expects (hd ▸ hown i p hp) hr
    · exact isLocal_of_sends hr
  · rcases checked_passes h hr with hr | ⟨hr, hp⟩
    · exact hw.checked req hr hd
    · subst hd
      exact not_passes_blocked hw.blockInternal (hw.net req hr rfl) hp
  · rcases replies_step h hr with hr | ⟨_, -, hi', hans, -⟩ | ⟨_, -, hr, -⟩ |
      ⟨_, -, -, hans⟩
    · exact hw.replies r hr hd hh i ht hi
    · have hl := hw.net r.1 (List.mem_of_getElem? hi') hd
      rw [hans, hd, perform_blocked hw.blockInternal hl hh]
    · exact absurd hd (hw.checked r.1 hr)
    · exact hans
  · rcases proc_step h hp with hp' | ⟨-, hs⟩ | ⟨q, hq, hm⟩
    · exact hw.later i p hi hp'
    · exact (without_starts hw.blockPublic ha hs).2
    · exact hw.without_moves h hi hq hp hm

end Step

/-! ### Runs -/

/-- The node has no request of its own on the way: its coordinator waits for none, and no checked
write is left. -/
structure Idle (x : NodeId) (w : World) : Prop where
  net : ∀ req ∈ w.net, req.dst = x → isLocal req.job = false
  checked : ∀ req ∈ w.checked, req.dst ≠ x
  own : ∀ p ∈ w.procs, ¬ WaitsForOwn x p

/-- An idle node that is killed is cut off. -/
theorem cutOff_kill (hwf : AllWF cfg w) (ht : TagsBelow w) (hidle : Idle x w) {f : FaultFlags}
    (hkill : Kills (w.node x).faults f) :
    CutOff cfg w.procs.length x f (w.node x).localStore
      (w.setNode x { w.node x with faults := f }) where
  wf := hwf
  blocked := hkill.blocked
  faults := by rw [node_setNode, if_pos rfl]
  store := by rw [node_setNode, if_pos rfl]
  net := hidle.net
  checked := hidle.checked
  replies r hr _ _ i hti hi := absurd (ht.replies r hr i hti) (not_lt.mpr hi)
  own _ p hp := hidle.own p (List.mem_of_getElem? hp)
  later _ _ hi hp := absurd (List.getElem?_eq_some_iff.mp hp).1 (not_lt.mpr hi)

/-- The invariants of a run from the empty cluster. -/
theorem carried_tagsBelow_run (d : Deployment cfg) {acts : List Act}
    (hc : ∀ a ∈ acts, CarriedAct cfg a) (h : run (publicStep d) acts World.empty = some w) :
    AllCarried cfg w ∧ TagsBelow w := by
  refine run_invariant_mem (I := fun w => AllCarried cfg w ∧ TagsBelow w)
    (fun w a w' hw ha hs => ?_) hc h ⟨allCarried_empty, nofun, nofun, nofun⟩
  rcases publicStep_cases d hw.1 ha hs with rfl | ⟨-, he, hw'⟩
  · exact hw
  · exact ⟨hw', tagsBelow_step hw.2 he⟩

/-- **A run leaves the node cut off.** -/
theorem cutOff_run (d : Deployment cfg) {i0 : ℕ} {f : FaultFlags} {s : RocksDbStore}
    {acts : List Act} (hc : ∀ a ∈ acts, CarriedAct cfg a ∧ KeepsFlags x a)
    (h : run (publicStep d) acts w = some w') (hw : AllCarried cfg w)
    (hcut : CutOff cfg i0 x f s w) : CutOff cfg i0 x f s w' := by
  refine (run_invariant_mem (I := fun w => AllCarried cfg w ∧ CutOff cfg i0 x f s w)
    (fun w a w' hw ha hs => ?_) hc h ⟨hw, hcut⟩).2
  rcases publicStep_cases d hw.1 ha.1 hs with rfl | ⟨ht, he, hw'⟩
  · exact hw
  · exact ⟨hw', cutOff_step hw.2 ha.2 ht he⟩

/-- A put while `c` is down: `a` takes the hint, a later get misses `c`, and a call at `c` starts
nothing. -/
def whileDown : List Act :=
  [.put "b" [107] [1] 100, .serve 0, .serve 0, .answer 0, .answer 0, .advance 0, .serve 0,
    .answer 0, .advance 0, .get "b" [107], .serve 0, .serve 0, .answer 0, .answer 0, .advance 1,
    .get "c" [107]]

end Diynamo.System.Isolation
