import Diynamo.Coordinator.HandoffLoop

/-! # The UUIDs of the handoff loop

In every state of the event loop the recorded UUIDs are the last ones announced, the reconciliations
were spawned at exactly the events that announced another UUID, and only the last one of a node can
be running (`uuid_state_machine`). The invariant `Inv` is kept by every step, whatever the tasks do
in between (`inv_step`). -/

namespace Diynamo.Coordinator.UuidMachine

open Diynamo.Lib.Run Diynamo.Lib.Utf8 Diynamo.Store.Hints Diynamo.Cluster.Delegate
  Diynamo.Coordinator.HandoffLoop

/-! ### The invariant -/

/-- **The maps and the tasks follow the history**: the recorded UUIDs are the last ones, a task was
spawned for every introduction, only registered tasks run, the registered task of a node is its last
one, and that was not aborted. -/
structure Inv (s : State) : Prop where
  known : ∀ x, s.knownUuids x = lastUuid s.history x
  spawned : s.tasks.map Task.origin = introductions s.history
  registered : ∀ i t, s.tasks[i]? = some t → t.status = .running →
    s.activeReconciliations t.nodeId = some i
  newest : ∀ x i, s.activeReconciliations x = some i →
    ∃ o, IsLast (introductions s.history) i o ∧ o.2.nodeId = x
  notAborted : ∀ i t, s.tasks[i]? = some t → IsLast (introductions s.history) i t.origin →
    t.status ≠ .aborted

theorem inv_start : Inv State.start := ⟨fun _ => rfl, rfl, nofun, nofun, nofun⟩

/-- An event that introduces no UUID leaves the introductions. -/
theorem introductions_of_none {h : List Event} {e : Event} (hn : introduced h e = none) :
    introductions (h ++ [e]) = introductions h := by
  rw [introductions_concat, hn]
  exact List.append_nil _

theorem inv_skip {s : State} (hi : Inv s) {e : Event} (he : e.announcement = none) :
    Inv { s with history := s.history ++ [e] } := by
  have hn : introductions (s.history ++ [e]) = introductions s.history :=
    introductions_of_none (by rw [introduced, he]; rfl)
  refine ⟨fun x => ?_, ?_, hi.registered, ?_, ?_⟩
  · rw [lastUuid_concat, he]
    exact hi.known x
  · exact hi.spawned.trans hn.symm
  · simpa only [hn] using hi.newest
  · simpa only [hn] using hi.notAborted

theorem known_receive {s : State} (hi : Inv s) {e : Event} {a : Announcement}
    (he : e.announcement = some a) (x : NodeId) :
    Function.update s.knownUuids a.nodeId (some a.uuid) x = lastUuid (s.history ++ [e]) x := by
  rw [lastUuid_concat, he, Function.update_apply]
  dsimp only
  by_cases hx : x = a.nodeId
  · rw [if_pos hx, if_pos hx.symm]
  · rw [if_neg hx, if_neg (Ne.symm hx)]
    exact hi.known x

/-- The event repeats the UUID of its node. -/
theorem inv_repeat {s : State} (hi : Inv s) {e : Event} {a : Announcement}
    (he : e.announcement = some a) (hk : s.knownUuids a.nodeId = some a.uuid) :
    Inv { receive s a with history := s.history ++ [e] } := by
  have hn : introductions (s.history ++ [e]) = introductions s.history := by
    refine introductions_of_none ?_
    rw [hi.known] at hk
    simp [introduced, he, hk]
  rw [receive_of_eq hk]
  refine ⟨known_receive hi he, hi.spawned.trans hn.symm, hi.registered, ?_, ?_⟩
  · simpa only [hn] using hi.newest
  · simpa only [hn] using hi.notAborted

/-- **The event announces another UUID**: the task in progress is aborted and a new one spawned. -/
theorem inv_spawn {s : State} (hi : Inv s) {e : Event} {a : Announcement}
    (he : e.announcement = some a) (hk : s.knownUuids a.nodeId ≠ some a.uuid) :
    Inv { receive s a with history := s.history ++ [e] } := by
  have hintro : introduced s.history e = some a := by
    rw [hi.known] at hk
    simp [introduced, he, hk]
  have hnew : introductions (s.history ++ [e]) =
      introductions s.history ++ [(s.history.length, a)] := by
    rw [introductions_concat, hintro]
    rfl
  have hlen : (introductions s.history).length = s.tasks.length := by
    rw [← hi.spawned, List.length_map]
  rw [receive_of_ne hk]
  refine ⟨known_receive hi he, ?_, fun j t ht hrun => ?_, fun x i hx => ?_, fun j t ht hlast => ?_⟩
  · rw [hnew, List.map_append, map_origin_abortAt, hi.spawned]
    rfl
  · rcases spawn_cases ht with ⟨rfl, rfl⟩ | ⟨hj, ht⟩
    · exact Function.update_self _ _ _
    · rcases abortAt_cases ht with ⟨ht, hne⟩ | ⟨t0, -, -, rfl⟩
      · have hreg := hi.registered j t ht hrun
        have hnode : t.nodeId ≠ a.nodeId := fun hn => hne (hn ▸ hreg)
        exact (Function.update_of_ne hnode _ _).trans hreg
      · exact absurd hrun (status_abort t0)
  · rw [hnew]
    change Function.update s.activeReconciliations a.nodeId (some s.tasks.length) x = some i at hx
    by_cases hxa : x = a.nodeId
    · subst hxa
      rw [Function.update_self] at hx
      refine ⟨(s.history.length, a), isLast_concat.mpr (Or.inl ⟨?_, rfl⟩), rfl⟩
      rw [hlen]
      exact (Option.some.inj hx).symm
    · rw [Function.update_of_ne hxa] at hx
      obtain ⟨o, ho, hox⟩ := hi.newest x i hx
      exact ⟨o, isLast_concat.mpr (Or.inr ⟨ho, fun hn => hxa (hox.symm.trans hn)⟩), hox⟩
  · rw [hnew, isLast_concat, hlen] at hlast
    rcases spawn_cases ht with ⟨rfl, rfl⟩ | ⟨hj, ht⟩
    · simp [Task.new]
    · rcases hlast with ⟨rfl, -⟩ | ⟨hlast, hne⟩
      · exact absurd hj (lt_irrefl _)
      · rcases abortAt_cases ht with ⟨ht, -⟩ | ⟨t0, ht0, hact, rfl⟩
        · exact hi.notAborted j t ht hlast
        · -- the task in progress was one of the node of the event
          obtain ⟨o, ho, hon⟩ := hi.newest _ j hact
          have heq : o = t0.abort.origin := Option.some.inj (ho.1.symm.trans hlast.1)
          exact absurd (heq ▸ hon) hne

theorem inv_prune {s : State} (hi : Inv s) : Inv { s with
    activeReconciliations := fun x =>
      (s.activeReconciliations x).filter fun i => !s.isFinished i
    pruning := false } := by
  refine ⟨hi.known, hi.spawned, fun i t ht hrun => ?_, fun x i hx => ?_, hi.notAborted⟩
  · have hnf : s.isFinished i = false := by simp [State.isFinished, ht, hrun]
    dsimp only
    rw [hi.registered i t ht hrun]
    simp [Option.filter, hnf]
  · exact hi.newest x i (Option.filter_eq_some_iff.mp hx).1

theorem inv_task {preferred : Bytes → List NodeId} {selfId : NodeId} {s : State} (hi : Inv s)
    {i : ℕ} {t t' : Task} {a : TaskAct} (ht : s.tasks[i]? = some t)
    (h : taskStep preferred selfId t a = some t') : Inv { s with tasks := s.tasks.set i t' } := by
  obtain ⟨hrun, hna, horigin⟩ := taskStep_spec h
  have hcases : ∀ {j : ℕ} {u : Task}, (s.tasks.set i t')[j]? = some u →
      (j = i ∧ u = t') ∨ s.tasks[j]? = some u := by
    intro j u hu
    by_cases hij : i = j
    · subst hij
      obtain ⟨hlt, he⟩ := List.getElem?_eq_some_iff.mp hu
      rw [List.getElem_set_self] at he
      exact Or.inl ⟨rfl, he.symm⟩
    · rw [List.getElem?_set_ne hij] at hu
      exact Or.inr hu
  refine ⟨hi.known, ?_, fun j u hu hr => ?_, hi.newest, fun j u hu hlast => ?_⟩
  · rw [List.map_set, horigin, ← hi.spawned]
    refine List.ext_getElem? fun j => ?_
    by_cases hij : i = j
    · subst hij
      have hlt := (List.getElem?_eq_some_iff.mp ht).1
      rw [List.getElem?_set_self (by rwa [List.length_map]), List.getElem?_map, ht]
      rfl
    · rw [List.getElem?_set_ne hij]
  · rcases hcases hu with ⟨rfl, rfl⟩ | hu
    · have hnode : u.nodeId = t.nodeId := congrArg (fun o => o.2.nodeId) horigin
      exact (congrArg s.activeReconciliations hnode).trans (hi.registered j t ht hrun)
    · exact hi.registered j u hu hr
  · rcases hcases hu with ⟨rfl, rfl⟩ | hu
    · exact hna
    · exact hi.notAborted j u hu hlast

theorem inv_step {preferred : Bytes → List NodeId} {selfId : NodeId} {s s' : State} {a : Act}
    (hi : Inv s) (h : step preferred selfId s a = some s') : Inv s' := by
  rcases step_cases h with ⟨e, -, he, rfl⟩ | ⟨e, n, -, he, rfl⟩ | ⟨-, rfl⟩ |
    ⟨i, b, t, t', -, ht, hs, rfl⟩
  · exact inv_skip hi he
  · by_cases hk : s.knownUuids n.nodeId = some n.uuid
    · exact inv_repeat hi he hk
    · exact inv_spawn hi he hk
  · exact inv_prune hi
  · exact inv_task hi ht hs

theorem inv_of_run {preferred : Bytes → List NodeId} {selfId : NodeId} {acts : List Act}
    {s : State} (h : run (step preferred selfId) acts State.start = some s) : Inv s :=
  run_invariant (fun _ _ _ hi hs => inv_step hi hs) h inv_start

/-! ### The state machine -/

theorem Inv.getElem?_origin {s : State} (hi : Inv s) {i : ℕ} {t : Task}
    (ht : s.tasks[i]? = some t) : (introductions s.history)[i]? = some t.origin := by
  rw [← hi.spawned, List.getElem?_map, ht]
  rfl

/-- **A running task** is the registered one of its node, and its last one, for the recorded UUID.
-/
theorem Inv.running {s : State} (hi : Inv s) {i : ℕ} {t : Task} (ht : s.tasks[i]? = some t)
    (hrun : t.status = .running) :
    s.activeReconciliations t.nodeId = some i ∧
      s.knownUuids t.nodeId = some t.announcement.uuid ∧
      IsLast (introductions s.history) i t.origin := by
  have hreg := hi.registered i t ht hrun
  have horigin := hi.getElem?_origin ht
  obtain ⟨o, ho, -⟩ := hi.newest _ i hreg
  have hlast : IsLast (introductions s.history) i t.origin := by
    rwa [← Option.some.inj (ho.1.symm.trans horigin)]
  exact ⟨hreg, (hi.known _).trans (lastUuid_of_isLast hlast), hlast⟩

/-- **Frame.** An event leaves the UUID, the handle and the tasks of every other node. -/
theorem event_frame {preferred : Bytes → List NodeId} {selfId : NodeId} {s s' : State} {e : Event}
    (hi : Inv s) (h : step preferred selfId s (.event e) = some s') {x : NodeId}
    (hx : x ≠ e.nodeId) :
    s'.knownUuids x = s.knownUuids x ∧ s'.activeReconciliations x = s.activeReconciliations x ∧
      ∀ (i : ℕ) (t : Task), s.tasks[i]? = some t → t.nodeId = x → s'.tasks[i]? = some t := by
  rcases step_cases h with ⟨e', he', -, rfl⟩ | ⟨e', n, he', hn, rfl⟩ | ⟨he', -⟩ |
    ⟨i, b, t, t', he', -⟩
  · exact ⟨rfl, rfl, fun _ _ ht _ => ht⟩
  · cases he'
    have hxn : x ≠ n.nodeId := fun hx' => hx (hx'.trans (nodeId_announcement hn))
    by_cases hk : s.knownUuids n.nodeId = some n.uuid
    · rw [receive_of_eq hk]
      exact ⟨Function.update_of_ne hxn _ _, rfl, fun _ _ ht _ => ht⟩
    · rw [receive_of_ne hk]
      refine ⟨Function.update_of_ne hxn _ _, Function.update_of_ne hxn _ _, fun i t ht htx => ?_⟩
      have hlt := (List.getElem?_eq_some_iff.mp ht).1
      have hne : s.activeReconciliations n.nodeId ≠ some i := fun hact => by
        obtain ⟨o, ho, hon⟩ := hi.newest _ i hact
        rw [Option.some.inj (ho.1.symm.trans (hi.getElem?_origin ht))] at hon
        exact hxn (htx.symm.trans hon)
      dsimp only
      rw [List.getElem?_append_left (by rwa [length_abortAt]), getElem?_abortAt, ht,
        Option.map_some, if_neg hne]
  · cases he'
  · cases he'

/-- **The UUID state machine**, in every state of every run. The recorded UUID of a node is the last
one it has announced. The reconciliations were spawned at the events that announced another UUID
than the one before, each for what its event announced. A task that runs is the registered one of
its node, was spawned for the recorded UUID by the last event that introduced one, and is the only
one of its node. An event changes nothing that is of another node. -/
theorem uuid_state_machine {preferred : Bytes → List NodeId} {selfId : NodeId} {acts : List Act}
    {s : State} (h : run (step preferred selfId) acts State.start = some s) :
    s.history = acts.filterMap Act.received ∧
    (∀ x, s.knownUuids x = lastUuid s.history x) ∧
    s.tasks.map Task.origin = introductions s.history ∧
    (∀ (i : ℕ) (t : Task), s.tasks[i]? = some t → t.status = .running →
      s.activeReconciliations t.nodeId = some i ∧
      s.knownUuids t.nodeId = some t.announcement.uuid ∧
      IsLast (introductions s.history) i t.origin) ∧
    (∀ (i j : ℕ) (t u : Task), s.tasks[i]? = some t → s.tasks[j]? = some u → t.status = .running →
      u.status = .running → t.nodeId = u.nodeId → i = j) ∧
    ∀ e s', step preferred selfId s (.event e) = some s' → ∀ x, x ≠ e.nodeId →
      s'.knownUuids x = s.knownUuids x ∧ s'.activeReconciliations x = s.activeReconciliations x ∧
      ∀ (i : ℕ) (t : Task), s.tasks[i]? = some t → t.nodeId = x → s'.tasks[i]? = some t := by
  have hi := inv_of_run h
  refine ⟨history_run h, hi.known, hi.spawned, fun i t ht hrun => hi.running ht hrun, ?_,
    fun e s' hs x hx => event_frame hi hs hx⟩
  intro i j t u ht hu hrt hru hn
  have hreg := hi.registered i t ht hrt
  rw [hn] at hreg
  exact Option.some.inj (hreg.symm.trans (hi.registered j u hu hru))

/-- A node that flaps between two UUIDs: of its three tasks only the last one runs, for the recorded
UUID. -/
theorem uuid_state_machine_flapping :
    let u1 : Uuid := Vector.replicate 16 1
    let u2 : Uuid := Vector.replicate 16 2
    let acts : List Act := [.event (eventOf .join "b" u1), .prune,
      .task 0 (.start ["a"] true .empty), .event (eventOf .update "b" u2), .prune,
      .event (eventOf .update "b" u1)]
    ∃ s, run (step (fun _ => ["a", "b"]) "a") acts State.start = some s ∧
      s.tasks.map Task.status = [.aborted, .aborted, .running] ∧
      s.tasks.map Task.origin = introductions s.history ∧
      ∀ (i : ℕ) (t : Task), s.tasks[i]? = some t → t.status = .running →
        s.activeReconciliations t.nodeId = some i ∧
        s.knownUuids t.nodeId = some t.announcement.uuid ∧
        IsLast (introductions s.history) i t.origin := by
  intro u1 u2 acts
  obtain ⟨s, hs⟩ : ∃ s, run (step (fun _ => ["a", "b"]) "a") acts State.start = some s :=
    Option.isSome_iff_exists.mp (by decide)
  have hst : (run (step (fun _ => ["a", "b"]) "a") acts State.start).map
      (fun s => s.tasks.map Task.status) = some [.aborted, .aborted, .running] := by decide
  rw [hs] at hst
  obtain ⟨-, -, horigin, hrunning, -⟩ := uuid_state_machine hs
  exact ⟨s, hs, Option.some.inj hst, horigin, hrunning⟩

end Diynamo.Coordinator.UuidMachine
