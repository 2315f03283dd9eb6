import Diynamo.Coordinator.HintDelivery
import Diynamo.System.Quorum

/-! # The hint deliveries of a node

`Coordinator.HintDelivery` has one hint store and the delivery tasks of one target, which answers at
once. For any node `x` and target `t` of the system, where requests are on the way for a while and
get lost, the tasks of `x` for `t` and its hints for `t` go through a run of `HintDelivery`
(`deliveries_run`): what is acknowledged there is stored at `t`. So the hint that a task is about to
delete is at its target, in the version that the task has scanned or a newer one
(`stored_of_toDelete`). -/

namespace Diynamo.System.Deliveries

open Diynamo.Lib.Run Diynamo.Lib.Utf8 Diynamo.Lib.Ordered Diynamo.Store.RocksDb Diynamo.Store.Hints
  Diynamo.Store.HintArrivals Diynamo.Coordinator Diynamo.Coordinator.Handoff Diynamo.System.Step
  Diynamo.System.Rules Diynamo.System.WellFormed Diynamo.System.Quorum

variable {cfg : Cluster} {w w' : World} {a : Act} {x t : NodeId} {s : HintDelivery.State}

/-! ### Tasks -/

/-- A delivery task is for an id without `/`, and awaits or deletes a pending hint. -/
structure TaskWF (d : DeliverTask) : Prop where
  noSlash : '/' ∉ d.nodeId.toList
  pending : d.stage ≠ .sending → ∃ z, d.pending.head? = some z

def AllTaskWF (w : World) : Prop :=
  ∀ (i : ℕ) (self : NodeId) (d : DeliverTask), w.procs[i]? = some (.deliver self d) → TaskWF d

theorem taskWF_next {d : DeliverTask} (h : TaskWF d) : TaskWF d.next :=
  ⟨h.noSlash, fun hne => absurd rfl hne⟩

theorem taskWF_answered {d : DeliverTask} (h : TaskWF d) (hs : d.stage = .awaiting) (isOk : Bool) :
    TaskWF (d.answered isOk) := by
  have hpend := h.pending (by simp [hs])
  unfold DeliverTask.answered
  split_ifs
  · exact ⟨h.noSlash, fun _ => hpend⟩
  · exact taskWF_next h

/-- The ids of the delivery tasks that an action starts have no `/`. -/
def NoSlashTask : Act → Prop
  | .deliver _ nodeId => '/' ∉ nodeId.toList
  | _ => True

theorem allTaskWF_step (hw : AllTaskWF w) (h : Effect cfg w a w') (ha : NoSlashTask a) :
    AllTaskWF w' := by
  intro i self d' hp
  rcases proc_step h hp with hp | ⟨-, hs⟩ | ⟨p, hp0, hm⟩
  · exact hw i self d' hp
  · cases hs with
    | deliver => exact ⟨ha, fun hne => absurd rfl hne⟩
  · obtain ⟨y, d, rfl⟩ := eq_deliver_of_moves hm
    have hd := hw i y d hp0
    have hsettle : ∀ z o, Proc.settle z o (.deliver y d) = some (.deliver self d') → TaskWF d' := by
      intro z o hs
      rcases settle_deliver hs with ⟨hst, -, he⟩ | ⟨-, he⟩
      · obtain ⟨-, rfl⟩ := Proc.deliver.inj he
        exact taskWF_answered hd hst _
      · obtain ⟨-, rfl⟩ := Proc.deliver.inj he
        exact taskWF_next hd
    cases hm with
    | answered _ _ hs => exact hsettle _ _ hs
    | failed _ hs => exact hsettle _ _ hs
    | advance hs =>
      rcases advance_deliver hs with ⟨-, hpend, he⟩ | ⟨-, he⟩
      · obtain ⟨-, rfl⟩ := Proc.deliver.inj he
        obtain ⟨z, zs, hz⟩ := List.exists_cons_of_ne_nil hpend
        exact ⟨hd.noSlash, fun _ => ⟨z, by simp [hz]⟩⟩
      · obtain ⟨-, rfl⟩ := Proc.deliver.inj he
        exact taskWF_next hd

/-! ### The mirror -/

/-- The task without its wait: a hint whose request is on the way counts as not sent. -/
def unsent (d : DeliverTask) : DeliverTask :=
  { d with stage := if d.stage = .awaiting then .sending else d.stage }

/-- A delivery task of `x` for `t`. -/
def taskOf (x t : NodeId) : Proc → Option DeliverTask
  | .deliver self d => if self = x ∧ d.nodeId = t then some (unsent d) else none
  | _ => none

/-- **The state `s` shows** the tasks of `x` for `t`, the hints of `x` for `t`, and as acknowledged
only what `t` stores, in that version or a newer one. -/
structure Mirrors (x t : NodeId) (w : World) (s : HintDelivery.State) : Prop where
  tasks : s.tasks = w.procs.filterMap (taskOf x t)
  hints : ∀ key, s.hints.entry t key = (w.node x).hints.entry t key
  acked : ∀ a ∈ s.acked, WithBot.some a.2 ≤ (w.node t).localStore.stored a.1

theorem taskOf_deliver (d : DeliverTask) (h : d.nodeId = t) :
    taskOf x t (.deliver x d) = some (unsent d) :=
  if_pos ⟨rfl, h⟩

theorem taskOf_of_ne {self : NodeId} {d : DeliverTask} (h : ¬ (self = x ∧ d.nodeId = t)) :
    taskOf x t (.deliver self d) = none :=
  if_neg h

theorem taskOf_of_kind {p : Proc} (h : kind p ≠ .deliver) : taskOf x t p = none := by
  cases p with
  | deliver self d => exact absurd rfl h
  | _ => rfl

theorem unsent_answered {d : DeliverTask} (isOk : Bool) :
    unsent (d.answered isOk) = (unsent d).answered isOk := by
  cases isOk <;> rfl

/-- What neither the tasks nor the hints notice. -/
theorem Mirrors.unnoticed (hm : Mirrors x t w s)
    (hstored : ∀ key, (w.node t).localStore.stored key ≤ (w'.node t).localStore.stored key)
    (htasks : w'.procs.filterMap (taskOf x t) = w.procs.filterMap (taskOf x t))
    (hhints : ∀ key, (w'.node x).hints.entry t key = (w.node x).hints.entry t key) :
    ∃ acts s', run (HintDelivery.step t) acts s = some s' ∧ Mirrors x t w' s' := by
  refine ⟨[], s, rfl, hm.tasks.trans htasks.symm, fun key => ?_, fun b hb => ?_⟩
  · rw [hm.hints, hhints]
  · exact (hm.acked b hb).trans (hstored b.1)

/-! ### The steps -/

section Steps

variable (hm : Mirrors x t w s)
  (hstored : ∀ key, (w.node t).localStore.stored key ≤ (w'.node t).localStore.stored key)

include hm hstored

/-- A hint arrives. -/
theorem mirrors_putHint (ht : '/' ∉ t.toList) {t' : NodeId} (ht' : '/' ∉ t'.toList) {k : Bytes}
    {e : HintEntry} (hprocs : w'.procs = w.procs)
    (hhints : (w'.node x).hints = ⟨(w.node x).hints.db.put (hintKey t' k) e⟩) :
    ∃ acts s', run (HintDelivery.step t) acts s = some s' ∧ Mirrors x t w' s' := by
  refine ⟨[.putHint ⟨t', k, e.data, e.timestamp⟩], _, rfl, ?_, fun key => ?_, fun b hb => ?_⟩
  · rw [hprocs]
    exact hm.tasks
  · have hnow : (w'.node x).hints.entry t key =
        if t = t' ∧ key = k then some e else (w.node x).hints.entry t key := by
      rw [hhints]
      unfold HintStore.entry
      rw [OrdMap.get_put]
      by_cases hk : t = t' ∧ key = k
      · rw [if_pos ((hintKey_inj ht ht').mpr hk), if_pos hk]
      · rw [if_neg fun h => hk ((hintKey_inj ht ht').mp h), if_neg hk]
    dsimp only
    rw [entry_handle ht, hnow, hm.hints]
    refine if_congr ?_ rfl rfl
    rw [isFor_iff]
    exact and_congr eq_comm eq_comm
  · exact (hm.acked b hb).trans (hstored b.1)

/-- A task starts. -/
theorem mirrors_spawn
    (hprocs : w'.procs = w.procs ++ [.deliver x (.scan (w.node x).hints t)])
    (hhints : (w'.node x).hints = (w.node x).hints) :
    ∃ acts s', run (HintDelivery.step t) acts s = some s' ∧ Mirrors x t w' s' := by
  have hscan : s.hints.hintsForNode t = (w.node x).hints.hintsForNode t :=
    HintStore.hintsForNode_congr hm.hints
  refine ⟨[.spawn], _, rfl, ?_, fun key => ?_, fun b hb => ?_⟩
  · have hnew : taskOf x t (.deliver x (.scan (w.node x).hints t)) = some (.scan s.hints t) := by
      rw [taskOf_deliver (t := t) _ rfl, DeliverTask.scan, DeliverTask.scan, hscan]
      rfl
    dsimp only
    rw [hm.tasks, hprocs, List.filterMap_append, List.filterMap_cons, hnew]
    rfl
  · rw [hhints]
    exact hm.hints key
  · exact (hm.acked b hb).trans (hstored b.1)

variable {i : ℕ} {d : DeliverTask} {z : Bytes × Bytes × ℕ} (hp : w.procs[i]? = some (.deliver x d))
  (hd : d.nodeId = t) (hz : d.pending.head? = some z)

include hp hd hz

/-- A request of a task ends. -/
theorem mirrors_answered (isOk : Bool) (hst : d.stage = .awaiting)
    (hprocs : w'.procs = w.procs.set i (.deliver x (d.answered isOk)))
    (hhints : (w'.node x).hints = (w.node x).hints)
    (hack : isOk = true → WithBot.some z.2.2 ≤ (w.node t).localStore.stored z.1) :
    ∃ acts s', run (HintDelivery.step t) acts s = some s' ∧ Mirrors x t w' s' := by
  have hd' : (d.answered isOk).nodeId = t := by rw [DeliverTask.nodeId_answered, hd]
  have hnew : taskOf x t (.deliver x (d.answered isOk)) = some ((unsent d).answered isOk) := by
    rw [taskOf_deliver _ hd', unsent_answered]
  obtain ⟨j, hj, hset⟩ := filterMap_set_of_some (g := (·.answered isOk)) (taskOf_deliver d hd)
    hnew hp
  have hsend : s.toSend j = some z := by
    have hun : (unsent d).toSend = some z :=
      DeliverTask.toSend_eq_some.mpr ⟨by simp [unsent, hst], hz⟩
    rw [HintDelivery.State.toSend, hm.tasks, hj]
    exact hun
  refine ⟨[.deliver j isOk], _, by simp [run, HintDelivery.step, hsend]; rfl, ?_, fun key => ?_,
    fun b hb => ?_⟩
  · rw [hprocs, hset, ← hm.tasks]
  · rw [hhints]
    exact hm.hints key
  · dsimp only at hb
    split_ifs at hb with hok
    · rcases List.mem_cons.mp hb with rfl | hb
      · exact (hack hok).trans (hstored z.1)
      · exact (hm.acked b hb).trans (hstored b.1)
    · exact (hm.acked b hb).trans (hstored b.1)

/-- A deletion of a task succeeds or fails. -/
theorem mirrors_deleted (isOk : Bool) (ht : '/' ∉ t.toList) (hst : d.stage = .deleting)
    (hprocs : w'.procs = w.procs.set i (.deliver x d.next))
    (hhints : (w'.node x).hints =
      if isOk then (w.node x).hints.deleteHint t z.1 else (w.node x).hints) :
    ∃ acts s', run (HintDelivery.step t) acts s = some s' ∧ Mirrors x t w' s' := by
  have hnew : taskOf x t (.deliver x d.next) = some (unsent d).next := taskOf_deliver d.next hd
  obtain ⟨j, hj, hset⟩ := filterMap_set_of_some (g := DeliverTask.next) (taskOf_deliver d hd)
    hnew hp
  have hdel : s.toDelete j = some z := by
    have hun : (unsent d).toDelete = some z :=
      DeliverTask.toDelete_eq_some.mpr ⟨by simp [unsent, hst], hz⟩
    rw [HintDelivery.State.toDelete, hm.tasks, hj]
    exact hun
  refine ⟨[.delete j isOk], _, by simp [run, HintDelivery.step, hdel]; rfl, ?_, fun key => ?_,
    fun b hb => ?_⟩
  · rw [hprocs, hset, ← hm.tasks]
  · rw [hhints]
    cases isOk with
    | false => exact hm.hints key
    | true =>
      simp only [if_true]
      rw [HintStore.entry_deleteHint ht ht, HintStore.entry_deleteHint ht ht, hm.hints]
  · exact (hm.acked b hb).trans (hstored b.1)

end Steps

/-- The end of a request, for any process. -/
theorem mirrors_settle (ht : '/' ∉ t.toList) (hwf : AllTaskWF w) (hm : Mirrors x t w s)
    (hstored : ∀ key, (w.node t).localStore.stored key ≤ (w'.node t).localStore.stored key)
    {i : ℕ} {p p' : Proc} {y : NodeId} {o : Outcome} (hp : w.procs[i]? = some p)
    (hs : Proc.settle y o p = some p') (hprocs : w'.procs = w.procs.set i p')
    (hnode : w'.node x = w.node x)
    (hack : ∀ d z, p = .deliver x d → d.nodeId = t → d.pending.head? = some z →
      o.isOk = true → WithBot.some z.2.2 ≤ (w.node t).localStore.stored z.1) :
    ∃ acts s', run (HintDelivery.step t) acts s = some s' ∧ Mirrors x t w' s' := by
  have hother : taskOf x t p' = taskOf x t p →
      ∃ acts s', run (HintDelivery.step t) acts s = some s' ∧ Mirrors x t w' s' := fun he =>
    hm.unnoticed hstored (by rw [hprocs, filterMap_set_of_eq he hp]) fun _ => by rw [hnode]
  cases p with
  | deliver self d =>
    by_cases hfor : self = x ∧ d.nodeId = t
    · obtain ⟨rfl, hd⟩ := hfor
      have hpend := (hwf i self d hp).pending
      rcases settle_deliver hs with ⟨hst, -, rfl⟩ | ⟨hst, rfl⟩
      · obtain ⟨z, hz⟩ := hpend (by simp [hst])
        exact mirrors_answered hm hstored hp hd hz _ hst hprocs (by rw [hnode])
          (hack d z rfl hd hz)
      · obtain ⟨z, hz⟩ := hpend (by simp [hst])
        exact mirrors_deleted hm hstored hp hd hz false ht hst hprocs (by rw [hnode]; rfl)
    · refine hother ?_
      rcases settle_deliver hs with ⟨-, -, rfl⟩ | ⟨-, rfl⟩
      · rw [taskOf_of_ne hfor, taskOf_of_ne (by rwa [DeliverTask.nodeId_answered])]
      · rw [taskOf_of_ne hfor, taskOf_of_ne (d := d.next) hfor]
  | _ =>
    have hk := kind_settle hs
    refine hother ?_
    rw [taskOf_of_kind (by rw [hk]; exact Kind.noConfusion), taskOf_of_kind Kind.noConfusion]

/-- A process goes on by itself. -/
theorem mirrors_advance (ht : '/' ∉ t.toList) (hwf : AllTaskWF w) (hm : Mirrors x t w s)
    (hstored : ∀ key, (w.node t).localStore.stored key ≤ (w'.node t).localStore.stored key)
    {i : ℕ} {p p' : Proc} (hp : w.procs[i]? = some p) (hs : p.advance cfg = some p')
    (hprocs : w'.procs = w.procs.set i p')
    (hnode : w'.node x = (w.deleteHint p.deletes).node x) :
    ∃ acts s', run (HintDelivery.step t) acts s = some s' ∧ Mirrors x t w' s' := by
  cases p with
  | deliver self d =>
    rcases advance_deliver hs with ⟨hst, -, rfl⟩ | ⟨hst, rfl⟩
    · -- the request is on the way, which counts as not sent
      have hsame : taskOf x t (.deliver self { d with stage := .awaiting }) =
          taskOf x t (.deliver self d) := by
        simp [taskOf, unsent, hst]
      have hdel : (Proc.deliver self d).deletes = none := by
        simp [Proc.deletes, DeliverTask.toDelete, hst]
      rw [hdel] at hnode
      exact hm.unnoticed hstored (by rw [hprocs, filterMap_set_of_eq hsame hp]) fun _ => by
        rw [hnode]; rfl
    · have hd := hwf i self d hp
      obtain ⟨z, hz⟩ := hd.pending (by simp [hst])
      have hdel : (Proc.deliver self d).deletes = some (self, d.nodeId, z.1) := by
        simp [Proc.deletes, DeliverTask.toDelete_eq_some.mpr ⟨hst, hz⟩]
      rw [hdel, World.deleteHint, node_setNode] at hnode
      by_cases hfor : self = x ∧ d.nodeId = t
      · obtain ⟨rfl, rfl⟩ := hfor
        refine mirrors_deleted hm hstored hp rfl hz true ht hst hprocs ?_
        rw [hnode, if_pos rfl]
        rfl
      · have hsame : taskOf x t (.deliver self d.next) = taskOf x t (.deliver self d) :=
          (taskOf_of_ne (d := d.next) hfor).trans (taskOf_of_ne hfor).symm
        refine hm.unnoticed hstored (by rw [hprocs, filterMap_set_of_eq hsame hp]) fun key => ?_
        rw [hnode]
        split_ifs with hx
        · subst hx
          have hne : t ≠ d.nodeId := fun h => hfor ⟨rfl, h.symm⟩
          dsimp only
          rw [HintStore.entry_deleteHint hd.noSlash ht, if_neg fun h => hne h.1]
        · rfl
  | _ =>
    have hk := kind_advance hs
    have hsame : taskOf x t p' = none := taskOf_of_kind (by rw [hk]; exact Kind.noConfusion)
    refine hm.unnoticed hstored ?_ fun _ => by rw [hnode]; rfl
    rw [hprocs, filterMap_set_of_eq (hsame.trans (taskOf_of_kind Kind.noConfusion).symm) hp]

/-- **Every step of the system** is answered by steps of `HintDelivery`, at most one. -/
theorem mirrors_step (ht : '/' ∉ t.toList) (hi : Inv cfg w) (hwf : AllTaskWF w)
    (hm : Mirrors x t w s) (h : Effect cfg w a w') (ha : Atomic a) :
    ∃ acts s', run (HintDelivery.step t) acts s = some s' ∧ Mirrors x t w' s' := by
  have hstored : ∀ key, (w.node t).localStore.stored key ≤ (w'.node t).localStore.stored key :=
    fun key => stored_le_step h ha t key
  cases h with
  | spawn hs =>
    cases hs with
    | deliver =>
      next y nodeId =>
      by_cases hfor : y = x ∧ nodeId = t
      · obtain ⟨rfl, rfl⟩ := hfor
        exact mirrors_spawn hm hstored rfl rfl
      · refine hm.unnoticed hstored ?_ fun _ => rfl
        simp [World.spawn, taskOf, DeliverTask.scan, hfor]
    | _ =>
      refine hm.unnoticed hstored ?_ fun _ => rfl
      simp [World.spawn, taskOf]
  | serve hr =>
    next i req =>
    have hnode := node_serve (w := w) i req x
    split_ifs at hnode with hx
    · subst hx
      rcases perform_node (w.node req.dst) req.job with hp | ⟨_, _, _, hp⟩ | ⟨t', k, e, _, ht', hp⟩
      · exact hm.unnoticed hstored rfl fun _ => by rw [hnode, hp]
      · exact hm.unnoticed hstored rfl fun _ => by rw [hnode, hp]
      · exact mirrors_putHint hm hstored ht ht' rfl (by rw [hnode, hp])
    · exact hm.unnoticed hstored rfl fun _ => by rw [hnode]
  | write hr hj => exact absurd ha id
  | answer hr htag hp he hs =>
    refine mirrors_settle ht hwf hm hstored hp hs rfl rfl fun d z hd hn hz hok => ?_
    subst hd
    next i req ans j proc' =>
    have hdone : ans = .done := by
      cases ans with
      | done => rfl
      | _ => cases hok
    subst hdone
    -- the answer is `Ok`, so the hint is stored at its target
    obtain ⟨-, -, hdst, y, hy, hj⟩ := expects_deliver he
    have hyz : y = z := Option.some.inj (hy.symm.trans hz)
    have hthere := hi.answers req (List.mem_of_getElem? hr) _ _ hj
    rw [hdst, hn, hyz] at hthere
    exact hthere
  | fail ho hp hs =>
    refine mirrors_settle ht hwf hm hstored hp hs rfl rfl fun d z _ _ _ hok => ?_
    rcases ho with rfl | rfl <;> cases hok
  | advance hp hs => exact mirrors_advance ht hwf hm hstored hp hs (by
      change (w.deleteHint _).procs.set _ _ = _
      rw [procs_deleteHint]) rfl
  | abort hp =>
    refine hm.unnoticed hstored ?_ fun _ => rfl
    exact filterMap_set_of_eq (by rfl) hp
  | setFaults =>
    refine hm.unnoticed hstored rfl fun _ => ?_
    rw [node_setNode]
    split_ifs with hx
    · rw [hx]
    · rfl
  | _ => exact hm.unnoticed hstored rfl fun _ => rfl

/-! ### Runs -/

/-- **The deliveries of a node for a target refine `HintDelivery`.** In every run with atomic
conditional writes, for ids without `/`: some run of `HintDelivery` from the hints of `x` ends with
the tasks of `x` for `t`, with the hints of `x` for `t`, and with what `t` has acknowledged. -/
theorem deliveries_run {w0 : World} (h0 : Quiet w0) (x : NodeId) (ht : '/' ∉ t.toList)
    {acts : List Act} (ha : ∀ a ∈ acts, Atomic a ∧ NoSlashTask a)
    (h : run (step cfg) acts w0 = some w) :
    ∃ acts' s, run (HintDelivery.step t) acts' (HintDelivery.start (w0.node x).hints) = some s ∧
      Mirrors x t w s := by
  have hstart : Inv cfg w0 ∧ AllTaskWF w0 ∧
      Mirrors x t w0 (HintDelivery.start (w0.node x).hints) := by
    refine ⟨inv_of_quiet h0, fun i self d hp => ?_, ?_, fun _ => rfl, fun b hb => ?_⟩
    · simp [h0.1] at hp
    · simp [h0.1, HintDelivery.start]
    · simp [HintDelivery.start] at hb
  obtain ⟨acts', s, hs, -, -, hm⟩ := run_simulates
    (R := fun w s => Inv cfg w ∧ AllTaskWF w ∧ Mirrors x t w s)
    (C := fun a => Atomic a ∧ NoSlashTask a)
    (fun w a w' s hw ha hstep => by
      have he := effect_of_step hstep
      obtain ⟨acts', s', hrun, hm⟩ := mirrors_step ht hw.1 hw.2.1 hw.2.2 he ha.1
      exact ⟨acts', s', hrun, inv_step hw.1 he ha.1, allTaskWF_step hw.2.1 he ha.2, hm⟩)
    ha h hstart
  exact ⟨acts', s, hs, hm⟩

/-- **The hint that a task is about to delete is at its target**, in the version that the task has
scanned or a newer one. -/
theorem stored_of_toDelete {w0 : World} (h0 : Quiet w0) {acts : List Act}
    (ha : ∀ a ∈ acts, Atomic a ∧ NoSlashTask a) (h : run (step cfg) acts w0 = some w) {i : ℕ}
    {d : DeliverTask} (hp : w.procs[i]? = some (.deliver x d)) {y : Bytes × Bytes × ℕ}
    (hy : d.toDelete = some y) :
    WithBot.some y.2.2 ≤ (w.node d.nodeId).localStore.stored y.1 := by
  have hwf : AllTaskWF w :=
    invariant_run (C := fun a => Atomic a ∧ NoSlashTask a)
      (fun _ _ _ hw ha hs => allTaskWF_step hw hs ha.2) ha h fun i self d hp => by
        simp [h0.1] at hp
  obtain ⟨acts', s, hs, hm⟩ := deliveries_run h0 x (hwf i x d hp).noSlash ha h
  have hinv : HintDelivery.Inv s :=
    run_invariant (HintDelivery.inv_step d.nodeId) hs fun d hd => by
      simp [HintDelivery.start] at hd
  have hmem : unsent d ∈ s.tasks := by
    rw [hm.tasks]
    exact List.mem_filterMap.mpr ⟨_, List.mem_of_getElem? hp, taskOf_deliver d rfl⟩
  have hun : (unsent d).toDelete = some y := by
    obtain ⟨hst, hhead⟩ := DeliverTask.toDelete_eq_some.mp hy
    exact DeliverTask.toDelete_eq_some.mpr ⟨by simp [unsent, hst], hhead⟩
  exact hm.acked _ (hinv _ hmem y hun)

end Diynamo.System.Deliveries
