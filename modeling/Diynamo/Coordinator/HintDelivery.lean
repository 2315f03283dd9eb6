import Diynamo.Coordinator.Handoff
import Diynamo.Lib.Run
import Diynamo.Store.HintArrivals

/-! # Hint delivery under concurrent hints

A `deliver_hints` task works on the scan taken at its start: for each hint it awaits the delivery
and, if the target acknowledged it, deletes the hint *by target and key*. `DeliverTask` is such a
task between two steps. The system of this file is one node's hint store and one target: any number
of delivery tasks (the handoff loop spawns one per `Join` or `Update` event) and any number of
incoming `put_hint_internal` requests, in any order, where every scan, put, delete and delivery is a
step.

A delete can remove a hint that nobody delivered, if a newer hint for the same key arrived after the
scan (`newer_hint_deleted_undelivered`). It removes only acknowledged writes in every run in which
the entry is not newer than the delivered hint when a delete runs (`along_deletesAcknowledged`),
and such are the runs in which no newer hint arrives for a key that a task still has to process
(`along_scannedIsCurrent_of_quiet`). -/

namespace Diynamo.Coordinator.HintDelivery

open Diynamo.Lib.Run Diynamo.Lib.Utf8 Diynamo.Store.Hints Diynamo.Store.HintArrivals
  Diynamo.Coordinator.Handoff

/-! ### The system -/

/-- One hint store with the delivery tasks of one target, and the `(key, timestamp)` of the writes
that the target has acknowledged. -/
structure State where
  hints : HintStore
  tasks : List DeliverTask
  acked : List (Bytes × ℕ)

inductive Act where
  /-- an incoming `put_hint_internal`, for any target -/
  | putHint (c : Call)
  /-- a `Join` or `Update` of the target: a new task scans the store -/
  | spawn
  /-- the delivery by task `i` succeeds or fails -/
  | deliver (i : ℕ) (isOk : Bool)
  /-- the deletion by task `i` succeeds or fails -/
  | delete (i : ℕ) (isOk : Bool)

/-- The hint that task `i` is about to delete. -/
def State.toDelete (s : State) (i : ℕ) : Option (Bytes × Bytes × ℕ) :=
  s.tasks[i]?.bind DeliverTask.toDelete

/-- The hint that task `i` is about to send. -/
def State.toSend (s : State) (i : ℕ) : Option (Bytes × Bytes × ℕ) :=
  s.tasks[i]?.bind DeliverTask.toSend

/-- **One step** of the system of target `t`. -/
def step (t : NodeId) (s : State) : Act → Option State
  | .putHint c => some { s with hints := handle s.hints c }
  | .spawn => some { s with tasks := s.tasks ++ [.scan s.hints t] }
  | .deliver i isOk =>
    (s.toSend i).map fun h =>
      { s with
        tasks := s.tasks.modify i (·.answered isOk)
        acked := if isOk then (h.1, h.2.2) :: s.acked else s.acked }
  | .delete i isOk =>
    (s.toDelete i).map fun h =>
      { s with
        hints := if isOk then s.hints.deleteHint t h.1 else s.hints
        tasks := s.tasks.modify i DeliverTask.next }

/-- A hint store before any task. -/
def start (hints : HintStore) : State := ⟨hints, [], []⟩

/-- **No undelivered write is deleted** in this step: the target has acknowledged a write of the key
that is at least as new as the entry the delete removes. -/
def DeletesAcknowledged (t : NodeId) (s : State) : Act → Prop
  | .delete i _ => ∀ h ∈ s.toDelete i, ∀ e ∈ s.hints.entry t h.1,
      ∃ a ∈ s.acked, a.1 = h.1 ∧ e.timestamp ≤ a.2
  | _ => True

/-- A delete runs on an entry that is not newer than the scanned hint. -/
def ScannedIsCurrent (t : NodeId) (s : State) : Act → Prop
  | .delete i _ => ∀ h ∈ s.toDelete i, ∀ e ∈ s.hints.entry t h.1, e.timestamp ≤ h.2.2
  | _ => True

instance (t : NodeId) (s : State) : ∀ a, Decidable (DeletesAcknowledged t s a)
  | .delete i _ => inferInstanceAs (Decidable (∀ h ∈ s.toDelete i, ∀ e ∈ s.hints.entry t h.1,
      ∃ a ∈ s.acked, a.1 = h.1 ∧ e.timestamp ≤ a.2))
  | .putHint _ | .spawn | .deliver _ _ => isTrue trivial

instance (t : NodeId) (s : State) : ∀ a, Decidable (ScannedIsCurrent t s a)
  | .delete i _ => inferInstanceAs (Decidable (∀ h ∈ s.toDelete i, ∀ e ∈ s.hints.entry t h.1,
      e.timestamp ≤ h.2.2))
  | .putHint _ | .spawn | .deliver _ _ => isTrue trivial

/-! ### What a delete removes -/

/-- What a task deletes next, the target has acknowledged. -/
def Inv (s : State) : Prop := ∀ d ∈ s.tasks, ∀ h ∈ d.toDelete, (h.1, h.2.2) ∈ s.acked

/-- After an answer a task deletes exactly the hint it sent, and only if it was acknowledged. -/
theorem toDelete_answered {d : DeliverTask} {isOk : Bool} {h h' : Bytes × Bytes × ℕ}
    (hs : d.toSend = some h) (hd : (d.answered isOk).toDelete = some h') :
    isOk = true ∧ h' = h := by
  unfold DeliverTask.answered at hd
  split_ifs at hd with hok
  · have hhead : d.pending.head? = some h := (DeliverTask.toSend_eq_some.mp hs).2
    have hhead' : d.pending.head? = some h' := (DeliverTask.toDelete_eq_some.mp hd).2
    exact ⟨hok, Option.some.inj (hhead'.symm.trans hhead)⟩
  · simp [DeliverTask.toDelete_next] at hd

/-- An element of a list after one of them was changed. -/
theorem mem_modify {α : Type} {l : List α} {i : ℕ} {f : α → α} {d : α}
    (h : d ∈ l.modify i f) : d ∈ l ∨ ∃ d0, l[i]? = some d0 ∧ d = f d0 := by
  obtain ⟨j, hj⟩ := List.mem_iff_getElem?.mp h
  by_cases hij : i = j
  · subst hij
    rw [List.getElem?_modify_eq] at hj
    obtain ⟨d0, h0, rfl⟩ := Option.map_eq_some_iff.mp hj
    exact Or.inr ⟨d0, h0, rfl⟩
  · rw [List.getElem?_modify_ne f l hij] at hj
    exact Or.inl (List.mem_of_getElem? hj)

theorem inv_step (t : NodeId) (s : State) (a : Act) (s' : State) (hi : Inv s)
    (hs : step t s a = some s') : Inv s' := by
  cases a with
  | putHint c => rw [← Option.some.inj hs]; exact hi
  | spawn =>
    rw [← Option.some.inj hs]
    intro d hd h hh
    rcases List.mem_append.mp hd with hd | hd
    · exact hi d hd h hh
    · rw [List.mem_singleton.mp hd] at hh
      cases hh
  | deliver i isOk =>
    obtain ⟨h, hsend, rfl⟩ := Option.map_eq_some_iff.mp hs
    intro d hd h' hh
    rcases mem_modify hd with hd | ⟨d0, h0, rfl⟩
    · have := hi d hd h' hh
      dsimp only
      split_ifs
      · exact List.mem_cons_of_mem _ this
      · exact this
    · have hsend0 : d0.toSend = some h := by
        rw [State.toSend, h0] at hsend; exact hsend
      obtain ⟨rfl, rfl⟩ := toDelete_answered hsend0 hh
      exact List.mem_cons_self
  | delete i isOk =>
    obtain ⟨h, -, rfl⟩ := Option.map_eq_some_iff.mp hs
    intro d hd h' hh
    rcases mem_modify hd with hd | ⟨d0, -, rfl⟩
    · exact hi d hd h' hh
    · simp [DeliverTask.toDelete_next] at hh

/-- **Deletes remove only acknowledged writes**, in every run whose deletes find no entry newer than
the scanned hint. -/
theorem along_deletesAcknowledged (t : NodeId) (hints : HintStore) (acts : List Act)
    (h : Along (step t) (ScannedIsCurrent t) acts (start hints)) :
    Along (step t) (DeletesAcknowledged t) acts (start hints) := by
  refine along_of_invariant (I := Inv) (fun s a s' hi _ hs => inv_step t s a s' hi hs) ?_
    (by intro d hd; cases hd) h
  intro s a hi hcur
  cases a with
  | delete i isOk =>
    intro x hx e he
    obtain ⟨d, hd, hdx⟩ := Option.bind_eq_some_iff.mp hx
    exact ⟨_, hi d (List.mem_of_getElem? hd) x hdx, rfl, hcur x hx e he⟩
  | _ => trivial

/-- Without concurrent hints the condition holds: a task that delivers its scan, first with a
failure and then again, while hints for other keys arrive. -/
theorem along_deletesAcknowledged_retry :
    Along (step "n2") (DeletesAcknowledged "n2")
      [.putHint ⟨"n2", [107], [1], 100⟩, .spawn, .deliver 0 false, .spawn,
        .putHint ⟨"n2", [108], [3], 300⟩, .deliver 1 true, .delete 1 true]
      (start HintStore.empty) :=
  along_deletesAcknowledged "n2" HintStore.empty _ (by decide)

/-- **A newer hint is deleted undelivered**: it arrives after the scan, and the delete that follows
the acknowledgement of the older version removes it. -/
theorem newer_hint_deleted_undelivered :
    ¬ Along (step "n2") (DeletesAcknowledged "n2")
      [.putHint ⟨"n2", [107], [1], 100⟩, .spawn, .putHint ⟨"n2", [107], [2], 200⟩,
        .deliver 0 true, .delete 0 true]
      (start HintStore.empty) := by
  decide

/-! ### Runs without a newer hint in the meantime -/

/-- No hint arrives that is newer than a scanned one of its key that still has to be processed. -/
def NoNewerArrival (t : NodeId) (s : State) : Act → Prop
  | .putHint c => c.targetId = t →
      ∀ d ∈ s.tasks, ∀ h ∈ d.pending, h.1 = c.key → c.timestamp ≤ h.2.2
  | _ => True

/-- No stored entry is newer than a scanned hint of its key. -/
def Current (t : NodeId) (s : State) : Prop :=
  ∀ d ∈ s.tasks, ∀ h ∈ d.pending, ∀ e ∈ s.hints.entry t h.1, e.timestamp ≤ h.2.2

theorem current_step {t : NodeId} (ht : '/' ∉ t.toList) (s : State) (a : Act) (s' : State)
    (hc : Current t s) (hn : NoNewerArrival t s a) (hs : step t s a = some s') : Current t s' := by
  cases a with
  | putHint c =>
    rw [← Option.some.inj hs]
    intro d hd h hh e he
    rw [Option.mem_def, entry_handle ht] at he
    split_ifs at he with hf
    · obtain ⟨hct, hck⟩ := isFor_iff.mp hf
      rw [← Option.some.inj he]
      exact hn hct d hd h hh hck.symm
    · exact hc d hd h hh e he
  | spawn =>
    rw [← Option.some.inj hs]
    intro d hd h hh e he
    rcases List.mem_append.mp hd with hd | hd
    · exact hc d hd h hh e he
    · rw [List.mem_singleton.mp hd] at hh
      have hentry : s.hints.entry t h.1 = some ⟨h.2.2, h.2.1⟩ := HintStore.mem_hintsForNode.mp hh
      rw [Option.mem_def, hentry] at he
      rw [← Option.some.inj he]
  | deliver i isOk =>
    obtain ⟨h0, -, rfl⟩ := Option.map_eq_some_iff.mp hs
    intro d hd h hh e he
    rcases mem_modify hd with hd | ⟨d0, hd0, rfl⟩
    · exact hc d hd h hh e he
    · exact hc d0 (List.mem_of_getElem? hd0) h (d0.pending_answered_subset _ hh) e he
  | delete i isOk =>
    obtain ⟨h0, -, rfl⟩ := Option.map_eq_some_iff.mp hs
    intro d hd h hh e he
    have hpend : ∃ d0 ∈ s.tasks, h ∈ d0.pending := by
      rcases mem_modify hd with hd | ⟨d0, hd0, rfl⟩
      · exact ⟨d, hd, hh⟩
      · exact ⟨d0, List.mem_of_getElem? hd0, d0.pending_next_subset hh⟩
    obtain ⟨d0, hd0, hh0⟩ := hpend
    refine hc d0 hd0 h hh0 e ?_
    dsimp only at he
    split_ifs at he with hok
    · exact HintStore.entry_of_deleteHint he
    · exact he

/-- **If no newer hint arrives for a key that a task still has to process**, every delete finds the
scanned hint or an older one. -/
theorem along_scannedIsCurrent_of_quiet {t : NodeId} (ht : '/' ∉ t.toList) {hints : HintStore}
    {acts : List Act} (h : Along (step t) (NoNewerArrival t) acts (start hints)) :
    Along (step t) (ScannedIsCurrent t) acts (start hints) := by
  refine along_of_invariant (I := Current t) (current_step ht) ?_ (by intro d hd; cases hd) h
  intro s a hc _
  cases a with
  | delete i isOk =>
    intro x hx e he
    obtain ⟨d, hd, hdx⟩ := Option.bind_eq_some_iff.mp hx
    have hhead : d.pending.head? = some x := (DeliverTask.toDelete_eq_some.mp hdx).2
    exact hc d (List.mem_of_getElem? hd) x (List.mem_of_mem_head? hhead) e he
  | _ => trivial

end Diynamo.Coordinator.HintDelivery
