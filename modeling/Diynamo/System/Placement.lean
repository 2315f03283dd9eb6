import Diynamo.System.Transport

/-! # Placement

Every node is to hold only keys that it replicates. Puts, repairs and hint deliveries write a key to
its preferred nodes only, but a reconciliation never asks whether the returning node is one of them:
it pushes every local key with this node as its designated sender, and outside the range of the
returning node that is the first online node of the preference list (`pushes_in_range_iff`). So
placement is kept by the runs of a deployment, over keys that a path carries, whose reconciliations
find no such key (`placement`), and lost in others (`pushed_outside_range`). -/

namespace Diynamo.System.Placement

open Diynamo.Lib.Run Diynamo.Lib.Utf8 Diynamo.Store.RocksDb Diynamo.Store.Hints
  Diynamo.Coordinator.Get Diynamo.Coordinator.Handoff Diynamo.System.Step Diynamo.System.Rules
  Diynamo.System.WellFormed Diynamo.System.Quorum Diynamo.System.Provenance
  Diynamo.System.Transport

variable {cfg : Cluster} {w w' : World} {a : Act}

/-! ### What a reconciliation pushes -/

variable (cfg) in
/-- Node `x` holds no key outside the range of `nodeId` for which it is the first online node of the
preference list. -/
def InRange (x nodeId : NodeId) (onlineIds : List NodeId) (s : RocksDbStore) : Prop :=
  ∀ item ∈ s.iterAll, nodeId ∉ cfg.preferred item.1 →
    (cfg.preferred item.1).find? (fun id => id ∈ onlineIds) ≠ some x

instance (x nodeId : NodeId) (onlineIds : List NodeId) (s : RocksDbStore) :
    Decidable (InRange cfg x nodeId onlineIds s) := by unfold InRange; infer_instance

/-- **Every pushed key belongs to the returning node** exactly if this node is nowhere else the
first online node. -/
theorem pushes_in_range_iff (x nodeId : NodeId) (onlineIds : List NodeId) (s : RocksDbStore) :
    (∀ key v, (key, v) ∈ reconcileKeys cfg.preferred x nodeId onlineIds s →
      nodeId ∈ cfg.preferred key) ↔ InRange cfg x nodeId onlineIds s := by
  constructor
  · rintro h ⟨key, v⟩ hm hnot hfirst
    refine hnot (h key v (mem_reconcileKeys.mpr ⟨RocksDbStore.mem_iterAll.mp hm, ?_⟩))
    rw [designated_of_not_mem hnot]
    exact hfirst
  · intro h key v hm
    obtain ⟨hget, hdes⟩ := mem_reconcileKeys.mp hm
    by_contra hnot
    rw [designated_of_not_mem hnot] at hdes
    exact h (key, v) (RocksDbStore.mem_iterAll.mpr hget) hnot hdes

/-! ### Placement -/

variable (cfg)

/-- A request writes a key to a node that replicates it, or parks it for such a node. -/
def JobPlaced (dst : NodeId) (job : Job) : Prop :=
  (∀ key v, Job.writes job = some (key, v) → dst ∈ cfg.preferred key) ∧
    ∀ t key e, Job.hints job = some (t, key, e) → t ∈ cfg.preferred key

/-- A delivery has scanned, and a reconciliation pushes, only keys of the node it works for. -/
def ProcPlaced : Proc → Prop
  | .deliver _ d => ∀ y ∈ d.pending, d.nodeId ∈ cfg.preferred y.1
  | .reconcile q => ∀ item ∈ pushes cfg q, q.nodeId ∈ cfg.preferred item.1
  | _ => True

/-- **Every node holds only keys that it replicates**, and hints for nodes that replicate theirs. -/
structure StoresPlaced (w : World) : Prop where
  stores : ∀ x key v, (w.node x).localStore.get key = some v → x ∈ cfg.preferred key
  hints : ∀ x k e, (w.node x).hints.db.get k = some e → ∃ t key, '/' ∉ t.toList ∧
    k = hintKey t key ∧ t ∈ cfg.preferred key

/-- All parts of the system are placed. -/
structure Placed (w : World) : Prop extends StoresPlaced cfg w where
  net : ∀ req ∈ w.net, JobPlaced cfg req.dst req.job
  checked : ∀ req ∈ w.checked, JobPlaced cfg req.dst req.job
  procs : ∀ (i : ℕ) (p : Proc), w.procs[i]? = some p → ProcPlaced cfg p

/-- **The condition on a step**: the key of a put or a get is one that a path carries, a
reconciliation that starts finds only keys in the range of the returning node, and a delivery for an
id with `/`, for which no hint is ever stored, finds nothing. -/
def Safe (w : World) : Act → Prop
  | .put _ key _ _ | .get _ key => SafeKey key
  | .reconcile x nodeId onlineIds => InRange cfg x nodeId onlineIds (w.node x).localStore
  | .deliver x nodeId => '/' ∈ nodeId.toList → (w.node x).hints.hintsForNode nodeId = []
  | _ => True

instance (w : World) : ∀ a, Decidable (Safe cfg w a)
  | .put _ key _ _ | .get _ key => inferInstanceAs (Decidable (SafeKey key))
  | .reconcile x nodeId onlineIds =>
    inferInstanceAs (Decidable (InRange cfg x nodeId onlineIds (w.node x).localStore))
  | .deliver x nodeId => inferInstanceAs (Decidable
      ('/' ∈ nodeId.toList → (w.node x).hints.hintsForNode nodeId = []))
  | .serve _ | .check _ | .write _ | .refuse _ | .loseRequest _ | .loseReply _ | .answer _
  | .fail .. | .advance _ | .abort _ | .setFaults .. => isTrue trivial

variable {cfg}

theorem jobPlaced_of_writes {dst : NodeId} {job : Job} {key : Bytes} {v : VersionedValue}
    (hj : Job.writes job = some (key, v)) (hd : dst ∈ cfg.preferred key) :
    JobPlaced cfg dst job := by
  constructor
  · intro key' v' hj'
    cases hj.symm.trans hj'
    exact hd
  · intro t key' e hj'
    simp [hints_of_writes hj] at hj'

/-- What a process asks for is placed. -/
theorem jobPlaced_expects {tag : ℕ} {p : Proc} (ht : ProcPlaced cfg p) (hwf : WF cfg p)
    {req : Request} (h : req ∈ p.expects tag) : JobPlaced cfg req.dst req.job := by
  cases p with
  | put p =>
    have hwf' : PutWF cfg p := hwf
    have hpref := preferred_of_ringOrder hwf'.ringOrder
    rcases (expects_put h).2 with ⟨hwait, hj⟩ | ⟨-, t, htgt, hj⟩
    · refine jobPlaced_of_writes hj ?_
      rw [hpref]
      exact hwf'.perm.subset (List.mem_append_right _ hwait)
    · constructor
      · intro key v hj'
        simp [writes_of_hints hj] at hj'
      · intro t' key e hj'
        cases hj.symm.trans hj'
        rw [hpref]
        exact hwf'.targets (List.mem_of_mem_head? htgt)
  | get g =>
    obtain ⟨hw, hh⟩ := writes_hints_of_reads (expects_get h).2.2
    refine ⟨fun key v hj => ?_, fun t key e hj => ?_⟩
    · simp [hw] at hj
    · simp [hh] at hj
  | deliver self d =>
    obtain ⟨-, -, hdst, y, hy, hj⟩ := expects_deliver h
    rw [hdst]
    exact jobPlaced_of_writes hj (ht y (List.mem_of_mem_head? hy))
  | reconcile q =>
    obtain ⟨-, hawait, hdst, item, hitem, hj⟩ := expects_reconcile h
    rw [hdst]
    have hwf' : ReconcileWF cfg q := hwf
    exact jobPlaced_of_writes hj (ht item (hwf' hawait item hitem))

/-- A repair goes to a preferred node. -/
theorem jobPlaced_sends {g : GetProc} (hwf : GetWF cfg g) {req : Request}
    (h : req ∈ (Proc.get g).sends cfg) : JobPlaced cfg req.dst req.job := by
  obtain ⟨-, hresp, v, -, hj⟩ := mem_sends h
  exact jobPlaced_of_writes hj (hwf.preferred (List.mem_append_left _ hresp))

/-! ### Processes -/

/-- **A delivery finds** only hints of keys that its target replicates. -/
theorem preferred_of_scanned (hw : Placed cfg w) {x nodeId : NodeId}
    (ha : Safe cfg w (.deliver x nodeId)) {y : Bytes × Bytes × ℕ}
    (hy : y ∈ (w.node x).hints.hintsForNode nodeId) : nodeId ∈ cfg.preferred y.1 := by
  have hentry : (w.node x).hints.entry nodeId y.1 = some ⟨y.2.2, y.2.1⟩ :=
    HintStore.mem_hintsForNode.mp hy
  obtain ⟨t, key, ht, hk, hpl⟩ := hw.hints x _ _ hentry
  by_cases hs : '/' ∈ nodeId.toList
  · have hnil : (w.node x).hints.hintsForNode nodeId = [] := ha hs
    rw [hnil] at hy
    cases hy
  · obtain ⟨rfl, rfl⟩ := (hintKey_inj hs ht).mp hk
    exact hpl

theorem procPlaced_starts (hw : Placed cfg w) (ha : Safe cfg w a) {p : Proc}
    (h : Starts cfg w a p) : ProcPlaced cfg p := by
  cases h with
  | put => trivial
  | get => trivial
  | deliver => exact fun y hy => preferred_of_scanned hw ha hy
  | reconcile =>
    next x nodeId onlineIds =>
    intro item hm
    rw [pushes_start] at hm
    exact (pushes_in_range_iff x nodeId onlineIds _).mpr ha item.1 item.2 hm

/-- A task for a node that replicates nothing has nothing to send. -/
theorem carriedIn_of_safe (hw : Placed cfg w) (ha : Safe cfg w a) : CarriedIn cfg w a := by
  cases a with
  | put => exact ha
  | get => exact ha
  | deliver x nodeId =>
    intro hm
    refine List.eq_nil_iff_forall_not_mem.mpr fun y hy => hm ?_
    exact preferred_subset _ (preferred_of_scanned hw ha hy)
  | reconcile x nodeId onlineIds =>
    intro hm
    refine List.eq_nil_iff_forall_not_mem.mpr fun item hitem => hm ?_
    have hpref := (pushes_in_range_iff x nodeId onlineIds _).mpr ha item.1 item.2 hitem
    exact preferred_subset _ hpref
  | _ => trivial

/-- **A process that goes on** stays placed. -/
theorem procPlaced_moves {j : ℕ} {p p' : Proc} (hp : ProcPlaced cfg p)
    (h : Moves cfg w a j p p') : ProcPlaced cfg p' := by
  cases p with
  | put p =>
    obtain ⟨p', rfl, -⟩ := moves_put h
    trivial
  | get g =>
    obtain ⟨g', rfl, -⟩ := moves_get h
    trivial
  | deliver self d =>
    obtain ⟨d', rfl, hid, hsub⟩ := moves_deliver h
    intro y hy
    rw [hid]
    exact hp y (hsub hy)
  | reconcile q =>
    obtain ⟨q', rfl, hid, hsub⟩ := moves_reconcile h
    intro item hitem
    rw [hid]
    exact hp item (hsub hitem)

/-! ### Runs -/

/-- **One step** keeps the placement. -/
theorem placed_step (hwf : AllWF cfg w) (hw : Placed cfg w) (ha : Safe cfg w a)
    (h : Effect cfg w a w') : Placed cfg w' := by
  have hprocs : ∀ (i : ℕ) (p : Proc), w'.procs[i]? = some p → ProcPlaced cfg p := by
    intro i p hp
    rcases proc_step h hp with hp | ⟨-, hs⟩ | ⟨q, hq, hm⟩
    · exact hw.procs i p hp
    · exact procPlaced_starts hw ha hs
    · exact procPlaced_moves (hw.procs i q hq) hm
  refine ⟨⟨fun x key v hv => ?_, fun x k e he => ?_⟩, fun req hr => ?_,
    fun req hr => (checked_step h hr).elim (hw.checked req) (hw.net req), hprocs⟩
  · rcases localStore_step h x with hs | ⟨i, req, k, u, -, hi, rfl, hj, hs⟩ |
      ⟨i, req, k, u, -, hi, rfl, hj, hs⟩
    · rw [hs] at hv; exact hw.stores x key v hv
    · rw [hs] at hv
      rcases RocksDbStore.get_putIfNewer_cases hv with hv | ⟨rfl, rfl⟩
      · exact hw.stores _ key v hv
      · exact (hw.net req (List.mem_of_getElem? hi)).1 _ _ hj
    · rw [hs, RocksDbStore.get_write] at hv
      split_ifs at hv with hk
      · rw [hk]
        exact (hw.checked req hi).1 _ _ hj
      · exact hw.stores _ key v hv
  · rcases hint_step h he with he | ⟨req, hm, t, key, rfl, hj, ht, hk⟩
    · exact hw.hints x k e he
    · exact ⟨t, key, ht, hk, (hw.net req hm).2 t key e hj⟩
  · rcases net_step h hr with hr | ⟨i, p, hp, hr⟩ | ⟨i, g, hg, hr⟩
    · exact hw.net req hr
    · exact jobPlaced_expects (hprocs i p hp) (allWF_step hwf h i p hp) hr
    · exact jobPlaced_sends (hwf i _ hg) hr

theorem placed_of_quiet (hq : Quiet w) (hs : StoresPlaced cfg w) : Placed cfg w := by
  obtain ⟨hp, hn, hc, -⟩ := hq
  exact ⟨hs, by rw [hn]; exact nofun, by rw [hc]; exact nofun, by rw [hp]; exact nofun⟩

/-- **Placement.** A reconciliation pushes only keys of the returning node exactly if it finds no
key outside the range of that node for which its own node is the first online node of the preference
list. And from stores where every node holds only keys that it replicates (and only hints for nodes
that replicate theirs), all of them keys that a path carries, every run of a deployment whose steps
all meet the condition leads to such stores again. -/
theorem placement (d : Deployment cfg) :
    (∀ x nodeId onlineIds s,
      (∀ key v, (key, v) ∈ reconcileKeys cfg.preferred x nodeId onlineIds s →
        nodeId ∈ cfg.preferred key) ↔ InRange cfg x nodeId onlineIds s) ∧
    ∀ w0 acts w1, Quiet w0 → StoresPlaced cfg w0 → StoresCarried cfg w0 →
      Along d.step (Safe cfg) acts w0 → run d.step acts w0 = some w1 → StoresPlaced cfg w1 := by
  refine ⟨pushes_in_range_iff, fun w0 acts w1 hq hs hc hsafe hrun => ?_⟩
  have hstart : AllCarried cfg w0 ∧ Placed cfg w0 :=
    ⟨allCarried_of_quiet hq hc, placed_of_quiet hq hs⟩
  have hinv := run_invariant_along (I := fun w => AllCarried cfg w ∧ Placed cfg w)
    (fun w a w' hw ha hstep => ?_) hsafe hrun hstart
  · exact hinv.2.toStoresPlaced
  · have he := effect_of_step ((deployment_step_iff d hw.1).mp hstep).1
    exact ⟨allCarried_step d hw.1 (carriedIn_of_safe hw.2 ha) he, placed_step hw.1.wf hw.2 ha he⟩

/-- A put to the preferred nodes `b` and `c`, and then `c` comes back and is sent the key. -/
def reconcileReplica : List Act :=
  [.put "b" [107] [1] 100, .serve 0, .serve 0, .reconcile "b" "c" ["b", "c", "a"], .advance 1,
    .serve 0]

/-- The same for `a`, which does not replicate the key. -/
def reconcileOutsider : List Act :=
  [.put "b" [107] [1] 100, .serve 0, .serve 0, .reconcile "b" "a" ["b", "c", "a"], .advance 1,
    .serve 0]

theorem storesPlaced_empty (cfg : Cluster) : StoresPlaced cfg World.empty := ⟨nofun, nofun⟩

/-- A replica that comes back gets its key, and nobody else holds it. -/
theorem placement_replica :
    ∃ w, run twoOnLoopback.step reconcileReplica World.empty = some w ∧
      StoresPlaced twoOfThree w := by
  have h : ((run twoOnLoopback.step reconcileReplica World.empty).isSome) = true := by
    decide +kernel
  obtain ⟨w, hw⟩ := Option.isSome_iff_exists.mp h
  have hsafe : Along twoOnLoopback.step (Safe twoOfThree) reconcileReplica World.empty := by
    decide +kernel
  exact ⟨w, hw, (placement twoOnLoopback).2 _ _ _ ⟨rfl, rfl, rfl, rfl⟩ (storesPlaced_empty _)
    storesCarried_empty hsafe hw⟩

/-- **A node that comes back is sent a key that it does not replicate.** -/
theorem pushed_outside_range :
    (∃ key v, (key, v) ∈ reconcileKeys twoOfThree.preferred "b" "a" ["b", "c", "a"]
      (RocksDbStore.empty.write [107] [1] 100) ∧ "a" ∉ twoOfThree.preferred key) ∧
    ∃ w, run twoOnLoopback.step reconcileOutsider World.empty = some w ∧
      ¬ StoresPlaced twoOfThree w := by
  constructor
  · exact ⟨[107], ⟨100, [1]⟩, by decide, by decide⟩
  · have h : ((run twoOnLoopback.step reconcileOutsider World.empty).any fun w =>
        (w.node "a").localStore.get [107] = some ⟨100, [1]⟩) = true := by decide +kernel
    obtain ⟨w, hr, hc⟩ := (Option.any_eq_true _ _).mp h
    refine ⟨w, hr, fun hw => ?_⟩
    exact absurd (hw.stores "a" [107] _ (of_decide_eq_true hc)) (by decide)

end Diynamo.System.Placement
