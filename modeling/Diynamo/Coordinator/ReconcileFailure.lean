import Diynamo.Coordinator.UuidMachine

/-! # Reconciliations that fail

A reconciliation does not look at how its pushes end, and the loop of `HandoffLoop` spawns no other
one until the node announces another UUID. So the keys of a failed reconciliation are pushed again
only if it was still running when that happened: in every state of a run either all that was found
for the recorded UUID is acknowledged or the next event tries again, if and only if no
reconciliation ended with a failed push, or without a client and with keys to push
(`not_forgotten_iff`). -/

namespace Diynamo.Coordinator.ReconcileFailure

open Diynamo.Lib.Run Diynamo.Lib.Utf8 Diynamo.Store.RocksDb Diynamo.Store.Hints
  Diynamo.Cluster.Ring Diynamo.Cluster.Delegate Diynamo.Coordinator.Handoff
  Diynamo.Coordinator.HandoffLoop Diynamo.Coordinator.UuidMachine

/-- The last scan for `x` was for UUID `u`, and `x` has acknowledged all that it found. -/
def Acknowledged (s : State) (x : NodeId) (u : Uuid) : Prop :=
  ∃ i t sc, s.tasks[i]? = some t ∧ IsLast (s.tasks.map Task.origin) i t.origin ∧ t.nodeId = x ∧
    t.announcement.uuid = u ∧ t.scan = some sc ∧ ∀ item ∈ sc.designated, item ∈ sc.acked

/-- The next event of `x` with UUID `u` starts a reconciliation. -/
def Retried (s : State) (x : NodeId) (u : Uuid) : Prop :=
  ∀ e a, Event.announcement e = some a → a.nodeId = x → a.uuid = u →
    ∃ t ∈ (receive s a).tasks, t.nodeId = x ∧ t.status = .running

/-- **No reconciliation is forgotten**: if none is running for a node, then the one for its recorded
UUID is complete or is tried again. -/
def NotForgotten (s : State) : Prop :=
  ∀ x u, s.knownUuids x = some u → (∀ t ∈ s.tasks, t.nodeId = x → t.status ≠ .running) →
    Acknowledged s x u ∨ Retried s x u

/-- **A reconciliation that ends in this step has pushed all it has found**: it has a client or
nothing to push, and none of its pushes has failed. -/
def EndsClean (preferred : Bytes → List NodeId) (selfId : NodeId) (s : State) : Act → Prop
  | .task i (.start onlineIds clientOk store) => ∀ t, s.tasks[i]? = some t →
    t.status = .running → t.scan = none →
      clientOk = true ∨ reconcileKeys preferred selfId t.nodeId onlineIds store = []
  | .task i .finish => ∀ t sc, s.tasks[i]? = some t → t.status = .running → t.scan = some sc →
    sc.outcomes.length = sc.designated.length → ∀ b ∈ sc.outcomes, b = true
  | _ => True

/-! ### Scans -/

/-- **All is acknowledged** if and only if every push has succeeded. -/
theorem acked_iff {sc : Scan} (hnd : sc.designated.Nodup)
    (hlen : sc.outcomes.length = sc.designated.length) :
    (∀ item ∈ sc.designated, item ∈ sc.acked) ↔ ∀ b ∈ sc.outcomes, b = true := by
  unfold Scan.acked
  constructor
  · intro h b hb
    obtain ⟨k, hk, rfl⟩ := List.mem_iff_getElem.mp hb
    have hkd : k < sc.designated.length := by omega
    obtain ⟨⟨item, c⟩, hp, he⟩ := List.mem_map.mp (h _ (List.getElem_mem hkd))
    obtain ⟨hmem, hc⟩ := List.mem_filter.mp hp
    obtain ⟨j, hj, hzip⟩ := List.mem_iff_getElem.mp hmem
    rw [List.getElem_zip, Prod.mk.injEq] at hzip
    -- the pair is the one at `k`, since no item is there twice
    have hjk : j = k := (List.Nodup.getElem_inj_iff hnd).mp (hzip.1.trans he)
    subst hjk
    exact hzip.2.trans hc
  · intro h item hitem
    have hall : (sc.designated.zip sc.outcomes).filter Prod.snd = sc.designated.zip sc.outcomes :=
      List.filter_eq_self.mpr fun p hp => h p.2 (List.of_mem_zip hp).2
    rw [hall, List.map_fst_zip hlen.ge]
    exact hitem

theorem nodup_reconcileKeys (preferred : Bytes → List NodeId) (selfId nodeId : NodeId)
    (onlineIds : List NodeId) (s : RocksDbStore) :
    (reconcileKeys preferred selfId nodeId onlineIds s).Nodup := by
  refine List.Nodup.filter _ (s.db.increasing.imp fun {a b} hab => ?_)
  rintro rfl
  exact lt_irrefl _ hab

/-! ### What a step does to the tasks -/

variable {preferred : Bytes → List NodeId} {selfId : NodeId}

/-- No scan has an item twice. -/
theorem nodup_step {s s' : State} {a : Act} (h : step preferred selfId s a = some s')
    (hnd : ∀ t ∈ s.tasks, ∀ sc, t.scan = some sc → sc.designated.Nodup) :
    ∀ t ∈ s'.tasks, ∀ sc, t.scan = some sc → sc.designated.Nodup := by
  intro t' ht' sc' hsc'
  rcases mem_tasks_step h ht' with ht | ⟨t, ht, rfl⟩ | ⟨k, n, rfl⟩ | ⟨i, b, t, -, ht, hs⟩
  · exact hnd t' ht sc' hsc'
  · exact hnd t ht sc' ((scan_abort t).symm.trans hsc')
  · cases hsc'
  · have hmem := List.mem_of_getElem? ht
    obtain ⟨-, ⟨_, _, _, -, -, rfl⟩ | ⟨sc, _, -, hsc, rfl⟩ | ⟨sc, -, hsc, -, rfl⟩⟩ :=
      taskStep_cases hs
    · cases hsc'
      exact nodup_reconcileKeys _ _ _ _ _
    · cases hsc'
      exact hnd t hmem sc hsc
    · exact hnd t hmem sc' hsc'

/-- All that a finished task has found is acknowledged. -/
def Complete (t : Task) : Prop :=
  t.status = .finished → ∃ sc, t.scan = some sc ∧ ∀ item ∈ sc.designated, item ∈ sc.acked

/-- **A clean step** leaves all finished tasks complete. -/
theorem complete_step {s s' : State} {a : Act} (h : step preferred selfId s a = some s')
    (hnd : ∀ t ∈ s.tasks, ∀ sc, t.scan = some sc → sc.designated.Nodup)
    (hclean : EndsClean preferred selfId s a) (hc : ∀ t ∈ s.tasks, Complete t) :
    ∀ t ∈ s'.tasks, Complete t := by
  intro t' ht' hfin
  rcases mem_tasks_step h ht' with ht | ⟨t, ht, rfl⟩ | ⟨k, n, rfl⟩ | ⟨i, b, t, rfl, ht, hs⟩
  · exact hc t' ht hfin
  · unfold Task.abort at hfin ⊢
    split_ifs at hfin ⊢
    exact hc t ht hfin
  · cases hfin
  · obtain ⟨hrun, ⟨onlineIds, clientOk, store, rfl, hnone, rfl⟩ | ⟨sc, _, -, -, rfl⟩ |
      ⟨sc, rfl, hsc, hlen, rfl⟩⟩ := taskStep_cases hs
    · rcases hclean t ht hrun hnone with rfl | hnil
      · cases hfin
      · refine ⟨_, rfl, ?_⟩
        rw [hnil]
        exact nofun
    · rw [hrun] at hfin
      cases hfin
    · exact ⟨sc, hsc, (acked_iff (hnd t (List.mem_of_getElem? ht) sc hsc) hlen).mpr
        (hclean t sc ht hrun hsc hlen)⟩

/-! ### States -/

/-- A node with a UUID has introduced one. -/
theorem exists_isLast {h : List Event} {x : NodeId} : ∀ {u : Uuid}, lastUuid h x = some u →
    ∃ i o, IsLast (introductions h) i o ∧ o.2.nodeId = x := by
  induction h using List.reverseRecOn with
  | nil => intro u hu; simp [lastUuid] at hu
  | append_singleton h e ih =>
    intro u hu
    rw [lastUuid_concat] at hu
    cases he : e.announcement with
    | none =>
      rw [he] at hu
      rw [introductions_of_none (by rw [introduced, he]; rfl)]
      exact ih hu
    | some a =>
      rw [he] at hu
      dsimp only at hu
      by_cases hold : lastUuid h a.nodeId = some a.uuid
      · rw [introductions_of_none (by simp [introduced, he, hold])]
        split_ifs at hu with ha
        · rw [ha] at hold
          exact ih hold
        · exact ih hu
      · have hn : introduced h e = some a := by simp [introduced, he, hold]
        rw [introductions_concat, hn, Option.map_some, Option.toList_some]
        split_ifs at hu with ha
        · exact ⟨_, _, isLast_concat.mpr (Or.inl ⟨rfl, rfl⟩), ha⟩
        · obtain ⟨i, o, hlast, ho⟩ := ih hu
          exact ⟨i, o, isLast_concat.mpr (Or.inr ⟨hlast, fun hoa => ha (hoa.symm.trans ho)⟩), ho⟩

/-- If all finished tasks are complete, nothing is forgotten. -/
theorem notForgotten_of_complete {s : State} (hi : Inv s) (hc : ∀ t ∈ s.tasks, Complete t) :
    NotForgotten s := by
  intro x u hk hnone
  rw [hi.known] at hk
  obtain ⟨i, o, hlast, ho⟩ := exists_isLast hk
  have huuid : o.2.uuid = u := by
    have := lastUuid_of_isLast hlast
    rw [ho, hk] at this
    exact (Option.some.inj this).symm
  have hmap : (s.tasks.map Task.origin)[i]? = some o := by
    rw [hi.spawned]
    exact hlast.1
  rw [List.getElem?_map] at hmap
  obtain ⟨t, ht, rfl⟩ := Option.map_eq_some_iff.mp hmap
  have hmem := List.mem_of_getElem? ht
  have hfin : t.status = .finished := by
    cases hst : t.status with
    | finished => rfl
    | running => exact absurd hst (hnone t hmem ho)
    | aborted => exact absurd hst (hi.notAborted i t ht hlast)
  obtain ⟨sc, hsc, hall⟩ := hc t hmem hfin
  exact Or.inl ⟨i, t, sc, ht, hi.spawned ▸ hlast, ho, huuid, hsc, hall⟩

/-- The event of a node that repeats its recorded UUID spawns nothing. -/
theorem not_retried {s : State} {x : NodeId} {u : Uuid} (hk : s.knownUuids x = some u)
    (hnone : ∀ t ∈ s.tasks, t.nodeId = x → t.status ≠ .running) : ¬ Retried s x u := by
  intro h
  obtain ⟨t, ht, htx, hrun⟩ := h
    (eventOf .update x u) ⟨x, u, ⟨.v4 localhost, 8080⟩⟩
    (by simp [eventOf, Event.announcement, NodeMeta.fromBytes_toBytes, ClusterMember.loopback])
    rfl rfl
  rw [receive_of_eq hk] at ht
  exact hnone t ht htx hrun

/-- **A task that ends with something missing is forgotten.** -/
theorem forgotten_of_ends {s : State} (hi : Inv s) {i : ℕ} {t t' : Task} {b : TaskAct}
    (ht : s.tasks[i]? = some t) (hs : taskStep preferred selfId t b = some t')
    (hfin : t'.status = .finished) {sc : Scan} (hsc : t'.scan = some sc)
    (hmiss : ¬ ∀ item ∈ sc.designated, item ∈ sc.acked) :
    ¬ NotForgotten { s with tasks := s.tasks.set i t' } := by
  obtain ⟨hrun, -, horigin⟩ := taskStep_spec hs
  obtain ⟨hreg, hk, hlast⟩ := hi.running ht hrun
  have hi' := inv_task hi ht hs
  have hlt := (List.getElem?_eq_some_iff.mp ht).1
  have ht' : (s.tasks.set i t')[i]? = some t' := List.getElem?_set_self hlt
  have hnode : t'.nodeId = t.nodeId := congrArg (fun o => o.2.nodeId) horigin
  -- the task was the only one of its node that was running
  have hnone : ∀ u ∈ s.tasks.set i t', u.nodeId = t.nodeId → u.status ≠ .running := by
    intro u hu hun hru
    obtain ⟨j, hj⟩ := List.mem_iff_getElem?.mp hu
    have hji : j = i := by
      have hact := hi'.registered j u hj hru
      rw [hun] at hact
      exact Option.some.inj (hact.symm.trans hreg)
    rw [hji, ht'] at hj
    rw [← Option.some.inj hj, hfin] at hru
    cases hru
  intro h
  rcases h t.nodeId t.announcement.uuid hk hnone with ⟨j, u, sc', hu, hlu, hun, -, hsc', hall⟩ | hr
  · rw [hi'.spawned] at hlu
    change IsLast (introductions s.history) j u.origin at hlu
    have hji : j = i := le_antisymm
      (hlast.2 j u.origin hlu.1 hun) (hlu.2 i t.origin hlast.1 hun.symm)
    subst hji
    change (s.tasks.set j t')[j]? = some u at hu
    rw [ht'] at hu
    cases hu
    rw [hsc] at hsc'
    cases hsc'
    exact hmiss hall
  · exact not_retried (s := { s with tasks := s.tasks.set i t' }) hk hnone hr

/-- **A step that is not clean** ends a reconciliation that is forgotten. -/
theorem forgotten_of_not_clean {s : State} {a : Act} (hi : Inv s)
    (hnd : ∀ t ∈ s.tasks, ∀ sc, t.scan = some sc → sc.designated.Nodup)
    (hne : ¬ EndsClean preferred selfId s a) :
    ∃ s', step preferred selfId s a = some s' ∧ ¬ NotForgotten s' := by
  have hstep : ∀ {i : ℕ} {t t' : Task} {b : TaskAct}, s.tasks[i]? = some t →
      taskStep preferred selfId t b = some t' →
      step preferred selfId s (.task i b) = some { s with tasks := s.tasks.set i t' } :=
    fun ht hs => step_task_eq_some.mpr ⟨_, _, ht, hs, rfl⟩
  unfold EndsClean at hne
  split at hne
  · next i onlineIds clientOk store =>
    push Not at hne
    obtain ⟨t, ht, hrun, hnone, hok, hsome⟩ := hne
    have hs : taskStep preferred selfId t (.start onlineIds clientOk store) = some { t with
        scan := some ⟨reconcileKeys preferred selfId t.nodeId onlineIds store, []⟩
        status := .finished } := by
      rw [taskStep, if_pos ⟨hrun, hnone⟩, if_neg hok]
    refine ⟨_, hstep ht hs, forgotten_of_ends hi ht hs rfl rfl fun hall => ?_⟩
    obtain ⟨item, hitem⟩ := List.exists_mem_of_ne_nil _ hsome
    have := hall item hitem
    simp [Scan.acked] at this
  · next i =>
    push Not at hne
    obtain ⟨t, sc, ht, hrun, hsc, hlen, b, hb, hbf⟩ := hne
    have hs : taskStep preferred selfId t .finish = some { t with status := .finished } := by
      rw [taskStep, hsc]
      exact if_pos ⟨hrun, hlen⟩
    refine ⟨_, hstep ht hs, forgotten_of_ends hi ht hs rfl hsc fun hall => ?_⟩
    exact hbf ((acked_iff (hnd t (List.mem_of_getElem? ht) sc hsc) hlen).mp hall b hb)
  · exact absurd trivial hne

/-! ### Runs -/

theorem nodup_of_run {acts : List Act} {s : State}
    (h : run (step preferred selfId) acts State.start = some s) :
    ∀ t ∈ s.tasks, ∀ sc, t.scan = some sc → sc.designated.Nodup :=
  run_invariant (I := fun s => ∀ t ∈ s.tasks, ∀ sc, t.scan = some sc → sc.designated.Nodup)
    (fun _ _ _ hnd hs => nodup_step hs hnd) h nofun

/-- **No reconciliation is forgotten** in any state on the way if and only if every reconciliation
that ends in the run has a client, unless there is nothing to push, and all its pushes succeed. -/
theorem not_forgotten_iff (preferred : Bytes → List NodeId) (selfId : NodeId) (acts : List Act) :
    (∀ bs s, bs <+: acts → run (step preferred selfId) bs State.start = some s →
      NotForgotten s) ↔
    Along (step preferred selfId) (EndsClean preferred selfId) acts State.start := by
  constructor
  · intro h
    refine along_iff.mpr fun bs a s hpre hr => ?_
    by_contra hne
    obtain ⟨s', hs', hforgotten⟩ :=
      forgotten_of_not_clean (inv_of_run hr) (nodup_of_run hr) hne
    refine hforgotten (h (bs ++ [a]) s' hpre (run_append_eq_some.mpr ⟨s, hr, ?_⟩))
    exact run_cons_eq_some.mpr ⟨s', hs', rfl⟩
  · intro h bs s hpre hr
    have hbs : Along (step preferred selfId) (EndsClean preferred selfId) bs State.start :=
      along_iff.mpr fun cs a s' hcs hr' => along_iff.mp h cs a s' (hcs.trans hpre) hr'
    have hinv := run_invariant_along
      (I := fun s => Inv s ∧ (∀ t ∈ s.tasks, ∀ sc, t.scan = some sc → sc.designated.Nodup) ∧
        ∀ t ∈ s.tasks, Complete t)
      (fun s a s' hI hG hs => ⟨inv_step hI.1 hs, nodup_step hs hI.2.1,
        complete_step hs hI.2.1 hG hI.2.2⟩)
      hbs hr ⟨inv_start, nofun, nofun⟩
    exact notForgotten_of_complete hinv.1 hinv.2.2

/-- The only push to `b` fails, and no event with the same UUID pushes its key again. -/
theorem failed_push_forgotten :
    let u : Uuid := Vector.replicate 16 1
    let store := RocksDbStore.empty.put [107] [1] 5
    let acts : List Act := [.event (eventOf .join "b" u), .prune,
      .task 0 (.start ["a", "b"] true store), .task 0 (.push false), .task 0 .finish]
    ∃ s, run (step (fun _ => ["a", "b"]) "a") acts State.start = some s ∧ ¬ NotForgotten s := by
  intro u store acts
  obtain ⟨s, hs⟩ : ∃ s, run (step (fun _ => ["a", "b"]) "a") acts State.start = some s :=
    Option.isSome_iff_exists.mp (by decide)
  have hknown : (run (step (fun _ => ["a", "b"]) "a") acts State.start).map
      (fun s => s.knownUuids "b") = some (some u) := by decide
  have htasks : (run (step (fun _ => ["a", "b"]) "a") acts State.start).map State.tasks =
      some [⟨0, ⟨"b", u, ⟨.v4 #v[127, 0, 0, 1], 8080⟩⟩, .finished,
        some ⟨[([107], ⟨5, [1]⟩)], [false]⟩⟩] := by decide
  rw [hs] at hknown htasks
  have hknown := Option.some.inj hknown
  have htasks := Option.some.inj htasks
  refine ⟨s, hs, fun h => ?_⟩
  have hnone : ∀ t ∈ s.tasks, t.nodeId = "b" → t.status ≠ .running := by
    rw [htasks]
    simp
  rcases h "b" u hknown hnone with ⟨i, t, sc, ht, -, -, -, hsc, hall⟩ | hr
  · rw [htasks] at ht
    have ht := List.mem_singleton.mp (List.mem_of_getElem? ht)
    subst ht
    cases hsc
    exact absurd (hall ([107], ⟨5, [1]⟩) List.mem_cons_self) (by decide)
  · exact not_retried hknown hnone hr

end Diynamo.Coordinator.ReconcileFailure
