import Diynamo.Store.Hints
import Diynamo.Store.RocksDb
import Mathlib.Data.List.Find

/-! # Handoff

What a node does for another one that joins or comes back. A `deliver_hints` task scans the hints of
the node and sends them one by one, and a `reconcile_keys` task sends the local keys for which this
node is the designated sender. `DeliverTask` is a delivery task between two steps. -/

namespace Diynamo.Coordinator.Handoff

open Diynamo.Lib.Utf8 Diynamo.Store.Hints Diynamo.Store.RocksDb

/-- Where a delivery task stands with the first of its pending hints: it is to be sent, the answer
is awaited, or it was acknowledged and is to be deleted. -/
inductive Stage where
  | sending
  | awaiting
  | deleting
deriving DecidableEq, Repr

/-- **A `deliver_hints` task**: the rest of its scan, as `(key, value, timestamp)`. -/
structure DeliverTask where
  nodeId : NodeId
  pending : List (Bytes × Bytes × ℕ)
  stage : Stage
deriving DecidableEq, Repr

namespace DeliverTask

/-- The task after its scan. -/
def scan (hints : HintStore) (nodeId : NodeId) : DeliverTask :=
  ⟨nodeId, hints.hintsForNode nodeId, .sending⟩

/-- On to the next hint. -/
def next (d : DeliverTask) : DeliverTask := { d with pending := d.pending.tail, stage := .sending }

/-- The delivery was acknowledged or failed; a failed one leaves the hint in the store. -/
def answered (d : DeliverTask) (isOk : Bool) : DeliverTask :=
  if isOk then { d with stage := .deleting } else d.next

/-- The hint the task is about to send. -/
def toSend (d : DeliverTask) : Option (Bytes × Bytes × ℕ) :=
  if d.stage = .sending then d.pending.head? else none

/-- The hint the task is about to delete. -/
def toDelete (d : DeliverTask) : Option (Bytes × Bytes × ℕ) :=
  if d.stage = .deleting then d.pending.head? else none

/-! ### Tasks -/

variable {d : DeliverTask}

theorem toDelete_of_ne (h : d.stage ≠ .deleting) : d.toDelete = none := if_neg h

theorem toDelete_next (d : DeliverTask) : d.next.toDelete = none := rfl

theorem toDelete_eq_some {y : Bytes × Bytes × ℕ} :
    d.toDelete = some y ↔ d.stage = .deleting ∧ d.pending.head? = some y := by
  unfold toDelete
  split_ifs with h <;> simp [h]

theorem toSend_eq_some {y : Bytes × Bytes × ℕ} :
    d.toSend = some y ↔ d.stage = .sending ∧ d.pending.head? = some y := by
  unfold toSend
  split_ifs with h <;> simp [h]

theorem nodeId_answered (d : DeliverTask) (isOk : Bool) : (d.answered isOk).nodeId = d.nodeId := by
  unfold answered
  split_ifs <;> rfl

theorem pending_next_subset (d : DeliverTask) : d.next.pending ⊆ d.pending :=
  fun _ hy => List.mem_of_mem_tail hy

/-- A task never has more to do than what it scanned. -/
theorem pending_answered_subset (d : DeliverTask) (isOk : Bool) :
    (d.answered isOk).pending ⊆ d.pending := by
  unfold answered
  split_ifs
  · exact List.Subset.refl _
  · exact d.pending_next_subset

end DeliverTask

/-- **The designated sender** of a key to a returning node: the first preferred node that is online
and not the returning node. -/
def designated (pref : List NodeId) (nodeId : NodeId) (onlineIds : List NodeId) : Option NodeId :=
  pref.find? fun id => id ≠ nodeId ∧ id ∈ onlineIds

/-- **What `reconcile_keys` pushes** to a returning node: the local keys with this node as their
designated sender. A key without a preference list is skipped, as is one without preferred nodes. -/
def reconcileKeys (preferred : Bytes → List NodeId) (selfId nodeId : NodeId)
    (onlineIds : List NodeId) (s : RocksDbStore) : List (Bytes × VersionedValue) :=
  s.iterAll.filter fun item => designated (preferred item.1) nodeId onlineIds = some selfId

theorem mem_reconcileKeys {preferred : Bytes → List NodeId} {selfId nodeId : NodeId}
    {onlineIds : List NodeId} {s : RocksDbStore} {key : Bytes} {v : VersionedValue} :
    (key, v) ∈ reconcileKeys preferred selfId nodeId onlineIds s ↔
      s.get key = some v ∧ designated (preferred key) nodeId onlineIds = some selfId := by
  rw [reconcileKeys, List.mem_filter, RocksDbStore.mem_iterAll, decide_eq_true_eq]

/-- If the returning node is not preferred, the designated sender is the first online node. -/
theorem designated_of_not_mem {pref : List NodeId} {nodeId : NodeId} (h : nodeId ∉ pref)
    (onlineIds : List NodeId) :
    designated pref nodeId onlineIds = pref.find? fun id => id ∈ onlineIds := by
  refine List.find?_congr fun id hid => ?_
  have hne : id ≠ nodeId := fun e => h (e ▸ hid)
  simp [hne]

end Diynamo.Coordinator.Handoff
