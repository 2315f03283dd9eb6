import Diynamo.Coordinator.Handoff
import Diynamo.Lib.Run
import Diynamo.Store.HintArrivals
import Diynamo.Store.Raw

/-! # Handoff over entries that cannot be read

The two tasks of handoff treat an entry that cannot be read differently. `reconcile_keys` reports
the item and goes on with the next one, so it sends what it would send of the entries that can be
read (`reconcileKeysRaw_eq`). `deliver_hints` returns if its scan fails, and the scan of a target
fails on the first such hint: nothing at all is delivered to that target, in any interleaving of
requests and tasks, until a new hint for the same key replaces the entry (`blocked_target`). The
hints for the target pile up meanwhile, and the other targets are served. -/

namespace Diynamo.Coordinator.CorruptHints

open Diynamo.Lib.Binary Diynamo.Lib.Ordered Diynamo.Lib.Run Diynamo.Lib.Utf8
open Diynamo.Store.HintArrivals Diynamo.Store.Hints Diynamo.Store.Raw Diynamo.Store.RocksDb
open Diynamo.Coordinator.Handoff

/-! ### Reconciliation -/

/-- `reconcile_keys` over the store of bytes: an item that is an error is skipped. -/
def reconcileKeysRaw (c : Codec VersionedValue) (preferred : Bytes → List NodeId)
    (selfId nodeId : NodeId) (onlineIds : List NodeId) (s : RawStore) :
    List (Bytes × VersionedValue) :=
  (s.iterAll c).filterMap fun item =>
    match item with
    | .error _ => none
    | .ok (key, vv) =>
      if designated (preferred key) nodeId onlineIds = some selfId then some (key, vv) else none

/-- **Reconciliation sends the entries that can be read**, as if the others were not there. -/
theorem reconcileKeysRaw_eq (c : Codec VersionedValue) (preferred : Bytes → List NodeId)
    (selfId nodeId : NodeId) (onlineIds : List NodeId) (s : RawStore) :
    reconcileKeysRaw c preferred selfId nodeId onlineIds s =
      reconcileKeys preferred selfId nodeId onlineIds (s.view c) := by
  unfold reconcileKeysRaw reconcileKeys
  rw [← RawStore.filterMap_iterAll, List.filter_filterMap]
  refine List.filterMap_congr fun item _ => ?_
  cases item with
  | error e => rfl
  | ok x => simp [Except.toOption, Option.filter]

/-! ### Delivery -/

/-- One hint store with the delivery tasks of all targets. -/
structure State where
  hints : RawHints
  tasks : List DeliverTask

inductive Act where
  /-- an incoming `put_hint_internal` -/
  | putHint (call : Call)
  /-- a `Join` or `Update` of a node: a new task scans the store -/
  | spawn (nodeId : NodeId)
  /-- the delivery by task `i` succeeds or fails -/
  | deliver (i : ℕ) (isOk : Bool)
  /-- the deletion by task `i` succeeds or fails -/
  | delete (i : ℕ) (isOk : Bool)
deriving DecidableEq

variable (c : Codec HintEntry)

/-- The store after a request: a refused request changes nothing. -/
def handle (s : RawHints) (call : Call) : RawHints :=
  match s.storeHint c call.targetId call.key call.value call.timestamp with
  | .ok s' => s'
  | .error _ => s

/-- **One step.** A task whose scan fails returns at once. -/
def step (s : State) : Act → Option State
  | .putHint call => some { s with hints := handle c s.hints call }
  | .spawn nodeId =>
    match s.hints.hintsForNode c nodeId with
    | .error _ => some s
    | .ok pending => some { s with tasks := s.tasks ++ [⟨nodeId, pending, .sending⟩] }
  | .deliver i isOk =>
    s.tasks[i]?.bind fun d => d.toSend.map fun _ =>
      { s with tasks := s.tasks.set i (d.answered isOk) }
  | .delete i isOk =>
    s.tasks[i]?.bind fun d => d.toDelete.map fun h =>
      { hints := if isOk then s.hints.deleteHint d.nodeId h.1 else s.hints
        tasks := s.tasks.set i d.next }

/-- The requests of a run, in order of arrival. -/
def calls (acts : List Act) : List Call :=
  acts.filterMap fun
    | .putHint call => some call
    | _ => none

/-- **The target is blocked** after these actions: one of its hints could not be read at the start,
and no request has replaced it. -/
def Blocked (hints : RawHints) (acts : List Act) (t : NodeId) : Prop :=
  ∃ key, hints.Corrupt c t key ∧ ∀ call ∈ calls acts, isFor t key call = false

variable {c}

/-! ### What a step does -/

theorem hints_step {s s' : State} {a : Act} (hs : step c s a = some s') :
    (∃ call, a = .putHint call ∧ s'.hints = handle c s.hints call) ∨
      (∀ call, a ≠ .putHint call) ∧
        (s'.hints = s.hints ∨ ∃ d ∈ s.tasks, ∃ h, s'.hints = s.hints.deleteHint d.nodeId h) := by
  cases a with
  | putHint call =>
    rw [← Option.some.inj hs]
    exact Or.inl ⟨call, rfl, rfl⟩
  | spawn nodeId =>
    refine Or.inr ⟨fun _ => nofun, Or.inl ?_⟩
    simp only [step] at hs
    split at hs <;> rw [← Option.some.inj hs]
  | deliver i isOk =>
    obtain ⟨d, -, hs⟩ := Option.bind_eq_some_iff.mp hs
    obtain ⟨-, -, rfl⟩ := Option.map_eq_some_iff.mp hs
    exact Or.inr ⟨fun _ => nofun, Or.inl rfl⟩
  | delete i isOk =>
    obtain ⟨d, hd, hs⟩ := Option.bind_eq_some_iff.mp hs
    obtain ⟨h, -, rfl⟩ := Option.map_eq_some_iff.mp hs
    refine Or.inr ⟨fun _ => nofun, ?_⟩
    cases isOk with
    | false => exact Or.inl rfl
    | true => exact Or.inr ⟨d, List.mem_of_getElem? hd, h.1, rfl⟩

/-- **The tasks after a step** are the ones before, or one whose scan succeeded. -/
theorem tasks_step {s s' : State} {a : Act} (hs : step c s a = some s') {d' : DeliverTask}
    (hd' : d' ∈ s'.tasks) : (∃ d ∈ s.tasks, d'.nodeId = d.nodeId) ∨
      ∃ pending, a = .spawn d'.nodeId ∧ s.hints.hintsForNode c d'.nodeId = .ok pending := by
  cases a with
  | putHint call =>
    rw [← Option.some.inj hs] at hd'
    exact Or.inl ⟨d', hd', rfl⟩
  | spawn nodeId =>
    cases he : s.hints.hintsForNode c nodeId with
    | error e =>
      simp only [step, he] at hs
      rw [← Option.some.inj hs] at hd'
      exact Or.inl ⟨d', hd', rfl⟩
    | ok pending =>
      simp only [step, he] at hs
      rw [← Option.some.inj hs] at hd'
      rcases List.mem_append.mp hd' with hd' | hd'
      · exact Or.inl ⟨d', hd', rfl⟩
      · rw [List.mem_singleton.mp hd']
        exact Or.inr ⟨pending, rfl, he⟩
  | deliver i isOk =>
    obtain ⟨d, hd, hs⟩ := Option.bind_eq_some_iff.mp hs
    obtain ⟨-, -, rfl⟩ := Option.map_eq_some_iff.mp hs
    rcases List.mem_or_eq_of_mem_set hd' with hd' | rfl
    · exact Or.inl ⟨d', hd', rfl⟩
    · exact Or.inl ⟨d, List.mem_of_getElem? hd, DeliverTask.nodeId_answered d isOk⟩
  | delete i isOk =>
    obtain ⟨d, hd, hs⟩ := Option.bind_eq_some_iff.mp hs
    obtain ⟨h, -, rfl⟩ := Option.map_eq_some_iff.mp hs
    rcases List.mem_or_eq_of_mem_set hd' with hd' | rfl
    · exact Or.inl ⟨d', hd', rfl⟩
    · exact Or.inl ⟨d, List.mem_of_getElem? hd, rfl⟩

/-! ### One entry -/

theorem get_handle {t : NodeId} (ht : '/' ∉ t.toList) (s : RawHints) (call : Call) (key : Bytes) :
    (handle c s call).db.get (hintKey t key) =
      if isFor t key call then some (c.serialize ⟨call.timestamp, call.value⟩)
      else s.db.get (hintKey t key) := by
  unfold handle RawHints.storeHint
  by_cases hc : '/' ∈ call.targetId.toList
  · rw [if_pos hc, if_neg]
    intro h
    exact ht ((isFor_iff.mp h).1 ▸ hc)
  · rw [if_neg hc]
    by_cases hf : isFor t key call = true
    · obtain ⟨rfl, rfl⟩ := isFor_iff.mp hf
      rw [if_pos hf]
      exact OrdMap.get_put_self _ _ _
    · rw [if_neg hf]
      refine OrdMap.get_put_of_ne _ _ fun he => hf ?_
      obtain ⟨h1, h2⟩ := (hintKey_inj ht hc).mp he
      exact isFor_iff.mpr ⟨h1.symm, h2.symm⟩

theorem corrupt_handle {t : NodeId} (ht : '/' ∉ t.toList) {s : RawHints} {call : Call}
    (hfit : c.Fits ⟨call.timestamp, call.value⟩) {key : Bytes}
    (h : (handle c s call).Corrupt c t key) :
    s.Corrupt c t key ∧ isFor t key call = false := by
  obtain ⟨bytes, hg, hd⟩ := h
  rw [get_handle ht] at hg
  split_ifs at hg with hf
  · rw [← Option.some.inj hg, c.deserialize_serialize hfit] at hd
    cases hd
  · exact ⟨⟨bytes, hg, hd⟩, Bool.eq_false_iff.mpr hf⟩

/-- No step makes an entry unreadable. -/
theorem corrupt_step {t : NodeId} (ht : '/' ∉ t.toList) {s s' : State} {a : Act}
    (hs : step c s a = some s')
    (hfit : ∀ call, a = .putHint call → c.Fits ⟨call.timestamp, call.value⟩) {key : Bytes}
    (h : s'.hints.Corrupt c t key) :
    s.hints.Corrupt c t key ∧ ∀ call, a = .putHint call → isFor t key call = false := by
  rcases hints_step hs with ⟨call, rfl, he⟩ | ⟨hne, he⟩
  · rw [he] at h
    obtain ⟨h1, h2⟩ := corrupt_handle ht (hfit call rfl) h
    exact ⟨h1, fun call' hc => by cases hc; exact h2⟩
  · refine ⟨?_, fun call hc => absurd hc (hne call)⟩
    rcases he with he | ⟨d, -, k, he⟩
    · rwa [he] at h
    · rw [he] at h
      obtain ⟨bytes, hg, hb⟩ := h
      rw [RawHints.deleteHint, OrdMap.get_delete] at hg
      split_ifs at hg
      exact ⟨bytes, hg, hb⟩

/-- The tasks of nodes whose ids have no `/`. -/
def IdsOk (s : State) : Prop := ∀ d ∈ s.tasks, '/' ∉ d.nodeId.toList

theorem idsOk_step {s s' : State} {a : Act} (hs : step c s a = some s')
    (hid : ∀ id, a = .spawn id → '/' ∉ id.toList) (h : IdsOk s) : IdsOk s' := by
  intro d' hd'
  rcases tasks_step hs hd' with ⟨d, hd, he⟩ | ⟨pending, rfl, -⟩
  · rw [he]
    exact h d hd
  · exact hid _ rfl

/-- No task of the target has started, and one of its hints cannot be read. -/
structure Stuck (c : Codec HintEntry) (t : NodeId) (key : Bytes) (s : State) : Prop where
  corrupt : s.hints.Corrupt c t key
  idle : ∀ d ∈ s.tasks, d.nodeId ≠ t

/-- The hints of the target after a step in which none of its tasks runs. -/
theorem get_step {t : NodeId} (ht : '/' ∉ t.toList) {s s' : State} {a : Act}
    (hs : step c s a = some s') (hids : IdsOk s) (hidle : ∀ d ∈ s.tasks, d.nodeId ≠ t)
    (key : Bytes) : s'.hints.db.get (hintKey t key) =
      ((calls [a]).foldl (handle c) s.hints).db.get (hintKey t key) := by
  rcases hints_step hs with ⟨call, rfl, he⟩ | ⟨hne, he⟩
  · rw [he]
    rfl
  · have hcalls : calls [a] = [] := by
      cases a with
      | putHint call => exact absurd rfl (hne call)
      | spawn _ | deliver _ _ | delete _ _ => rfl
    rw [hcalls, List.foldl_nil]
    rcases he with he | ⟨d, hd, k, he⟩
    · rw [he]
    · have hk : hintKey t key ≠ hintKey d.nodeId k := fun h =>
        hidle d hd ((hintKey_inj ht (hids d hd)).mp h).1.symm
      rw [he, RawHints.deleteHint, OrdMap.get_delete, if_neg hk]

/-- **A blocked target stays blocked** through every step but a new hint for the key. -/
theorem stuck_step {t : NodeId} (ht : '/' ∉ t.toList) {key : Bytes} {s s' : State} {a : Act}
    (hs : step c s a = some s') (hids : IdsOk s)
    (hcall : ∀ call ∈ calls [a], isFor t key call = false) (h : Stuck c t key s) :
    Stuck c t key s' := by
  constructor
  · obtain ⟨bytes, hg, hb⟩ := h.corrupt
    refine ⟨bytes, ?_, hb⟩
    rw [get_step ht hs hids h.idle]
    cases a with
    | putHint call =>
      refine (get_handle ht s.hints call key).trans ?_
      rw [if_neg (Bool.eq_false_iff.mp (hcall call List.mem_cons_self)), hg]
    | spawn _ | deliver _ _ | delete _ _ => exact hg
  · intro d' hd'
    rcases tasks_step hs hd' with ⟨d, hd, he⟩ | ⟨pending, -, he⟩
    · rw [he]
      exact h.idle d hd
    · rintro rfl
      have herr := RawHints.hintsForNode_eq_error.mpr ⟨rfl, key, h.corrupt⟩
      rw [herr] at he
      cases he

/-! ### Runs -/

theorem calls_cons (a : Act) (acts : List Act) : calls (a :: acts) = calls [a] ++ calls acts := by
  rw [← List.singleton_append]
  exact List.filterMap_append

theorem mem_calls {acts : List Act} {call : Call} :
    call ∈ calls acts ↔ Act.putHint call ∈ acts := by
  unfold calls
  rw [List.mem_filterMap]
  constructor
  · rintro ⟨a, ha, he⟩
    cases a with
    | putHint call' => rwa [← Option.some.inj he]
    | spawn _ | deliver _ _ | delete _ _ => cases he
  · intro h
    exact ⟨_, h, rfl⟩

theorem corrupt_run {t : NodeId} (ht : '/' ∉ t.toList) {key : Bytes} :
    ∀ {acts : List Act} {s s' : State}, run (step c) acts s = some s' →
      (∀ call ∈ calls acts, c.Fits ⟨call.timestamp, call.value⟩) → s'.hints.Corrupt c t key →
        s.hints.Corrupt c t key ∧ ∀ call ∈ calls acts, isFor t key call = false
  | [], _, _, hr, _, h => by
    rw [← Option.some.inj hr] at h
    exact ⟨h, nofun⟩
  | a :: acts, s, s', hr, hfit, h => by
    obtain ⟨s1, h1, hr⟩ := run_cons_eq_some.mp hr
    rw [calls_cons, List.forall_mem_append] at hfit ⊢
    obtain ⟨hc, hcalls⟩ := corrupt_run ht hr hfit.2 h
    obtain ⟨hc0, hcall⟩ := corrupt_step ht h1
      (fun call he => hfit.1 call (mem_calls.mpr (he ▸ List.mem_cons_self))) hc
    refine ⟨hc0, fun call hm => hcall call ?_, hcalls⟩
    exact (List.mem_singleton.mp (mem_calls.mp hm)).symm

/-- Requests act on the hints of a target alike, whatever the other hints are. -/
theorem get_foldl_handle {t : NodeId} (ht : '/' ∉ t.toList) : ∀ {l : List Call} {s r : RawHints},
    (∀ key, s.db.get (hintKey t key) = r.db.get (hintKey t key)) → ∀ key,
      (l.foldl (handle c) s).db.get (hintKey t key) = (l.foldl (handle c) r).db.get (hintKey t key)
  | [], _, _, h => h
  | call :: l, s, r, h => by
    rw [List.foldl_cons, List.foldl_cons]
    refine get_foldl_handle ht fun key => ?_
    rw [get_handle ht, get_handle ht, h]

theorem stuck_run {t : NodeId} (ht : '/' ∉ t.toList) {key : Bytes} :
    ∀ {acts : List Act} {s s' : State}, run (step c) acts s = some s' →
      (∀ id, Act.spawn id ∈ acts → '/' ∉ id.toList) → IdsOk s →
        (∀ call ∈ calls acts, isFor t key call = false) → Stuck c t key s →
          Stuck c t key s' ∧ ∀ k, s'.hints.db.get (hintKey t k) =
            ((calls acts).foldl (handle c) s.hints).db.get (hintKey t k)
  | [], _, _, hr, _, _, _, h => by
    rw [← Option.some.inj hr]
    exact ⟨h, fun _ => rfl⟩
  | a :: acts, s, s', hr, hspawn, hids, hcalls, h => by
    obtain ⟨s1, h1, hr⟩ := run_cons_eq_some.mp hr
    rw [calls_cons, List.forall_mem_append] at hcalls
    have hids1 : IdsOk s1 := idsOk_step h1 (fun id he => hspawn id (he ▸ List.mem_cons_self)) hids
    obtain ⟨hstuck, hget⟩ := stuck_run ht hr
      (fun id hm => hspawn id (List.mem_cons_of_mem _ hm)) hids1 hcalls.2
      (stuck_step ht h1 hids hcalls.1 h)
    refine ⟨hstuck, fun k => (hget k).trans ?_⟩
    rw [calls_cons, List.foldl_append]
    exact get_foldl_handle ht (get_step ht h1 hids h.idle) k

/-- **One hint that cannot be read blocks its target**: in every run in which no request replaces
it, each scan of the target fails, no task of the target is ever started, and its hints are those it
had with every request of the run applied. Once all such hints are replaced, its scan is the scan of
what is stored. -/
theorem blocked_target {hints : RawHints} {acts : List Act} {s : State}
    (hfit : ∀ call ∈ calls acts, c.Fits ⟨call.timestamp, call.value⟩)
    (hids : ∀ id, Act.spawn id ∈ acts → '/' ∉ id.toList)
    (hr : run (step c) acts ⟨hints, []⟩ = some s) {t : NodeId} (ht : '/' ∉ t.toList) :
    (Blocked c hints acts t →
      s.hints.hintsForNode c t = .error "failed to deserialize hint entry" ∧
      (∀ d ∈ s.tasks, d.nodeId ≠ t) ∧
      ∀ key, s.hints.db.get (hintKey t key) =
        ((calls acts).foldl (handle c) hints).db.get (hintKey t key)) ∧
    (¬ Blocked c hints acts t →
      s.hints.hintsForNode c t = .ok ((s.hints.view c).hintsForNode t)) := by
  constructor
  · rintro ⟨key, hc, hcalls⟩
    obtain ⟨hstuck, hget⟩ := stuck_run ht hr hids nofun hcalls ⟨hc, nofun⟩
    exact ⟨RawHints.hintsForNode_eq_error.mpr ⟨rfl, key, hstuck.corrupt⟩, hstuck.idle, hget⟩
  · intro hb
    refine RawHints.hintsForNode_eq_ok ?_
    rintro ⟨key, hc⟩
    exact hb ⟨key, corrupt_run ht hr hfit hc⟩

/-- The hint of `b` for the key `x` is two stray bytes: the hint for `y` that arrives then is not
delivered when `b` comes back. -/
theorem blocked_target_b :
    ∃ s ∈ run (step hintEntry) [.putHint ⟨"b", [121], [1], 5⟩, .spawn "b"]
        ⟨⟨OrdMap.empty.put (hintKey "b" [120]) [0, 0]⟩, []⟩,
      s.hints.hintsForNode hintEntry "b" = .error "failed to deserialize hint entry" ∧
      s.hints.db.get (hintKey "b" [121]) = some (hintEntry.serialize ⟨5, [1]⟩) := by
  have hrun : run (step hintEntry) [.putHint ⟨"b", [121], [1], 5⟩, .spawn "b"]
      ⟨⟨OrdMap.empty.put (hintKey "b" [120]) [0, 0]⟩, []⟩ =
        some ⟨handle hintEntry ⟨OrdMap.empty.put (hintKey "b" [120]) [0, 0]⟩
          ⟨"b", [121], [1], 5⟩, []⟩ := by
    have herr : (handle hintEntry ⟨OrdMap.empty.put (hintKey "b" [120]) [0, 0]⟩
        ⟨"b", [121], [1], 5⟩).hintsForNode hintEntry "b" =
          .error "failed to deserialize hint entry" :=
      RawHints.hintsForNode_eq_error.mpr ⟨rfl, [120], [0, 0], by
        rw [get_handle (by decide), if_neg (by simp [isFor]), OrdMap.get_put_self], rfl⟩
    simp only [run, step, Option.bind_some, herr]
  obtain ⟨herr, -, hget⟩ := (blocked_target (by simp [calls, hintEntry, fixedWidth, FitsTimed])
    (by simp) hrun (t := "b") (by decide)).1
      ⟨[120], ⟨[0, 0], OrdMap.get_put_self _ _ _, rfl⟩, by simp [calls, isFor]⟩
  refine ⟨_, hrun, herr, (hget [121]).trans ?_⟩
  exact (get_handle (t := "b") (by decide) _ ⟨"b", [121], [1], 5⟩ [121]).trans (if_pos rfl)

end Diynamo.Coordinator.CorruptHints
