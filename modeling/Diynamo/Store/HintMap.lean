import Diynamo.Store.HintArrivals

/-! # The hint store as a map of maps

What the hint store is for: a map from keys to entries for each target (`TwoLevel`). The flat key
space refines it (`scan_eq`): after any operations, the scan of a target without `/` lists exactly
the map of the target, whatever bytes the keys have and whichever targets are prefixes of one
another. -/

namespace Diynamo.Store.HintMap

open Diynamo.Lib.Ordered Diynamo.Lib.Utf8 Diynamo.Store.Hints Diynamo.Store.HintArrivals

/-- An operation that changes the hint store. -/
inductive HintOp where
  | store (c : Call)
  | delete (targetId : NodeId) (key : Bytes)
deriving DecidableEq, Repr

/-- The hint store after an operation. -/
def apply (s : HintStore) : HintOp → HintStore
  | .store c => handle s c
  | .delete targetId key => s.deleteHint targetId key

/-- **The abstract hint store**: for each target the entries by key. -/
abbrev TwoLevel : Type := NodeId → OrdMap Bytes HintEntry

namespace TwoLevel

def empty : TwoLevel := fun _ => OrdMap.empty

/-- The abstract store after an operation; targets with `/` are refused. -/
def apply (m : TwoLevel) : HintOp → TwoLevel
  | .store c =>
    if '/' ∈ c.targetId.toList then m
    else Function.update m c.targetId ((m c.targetId).put c.key ⟨c.timestamp, c.value⟩)
  | .delete targetId key => Function.update m targetId ((m targetId).delete key)

/-- The entries of a target in key order, as `(key, value, timestamp)`. -/
def hintsForNode (m : TwoLevel) (targetId : NodeId) : List (Bytes × Bytes × ℕ) :=
  (m targetId).entries.map fun e => (e.1, e.2.data, e.2.timestamp)

theorem mem_hintsForNode {m : TwoLevel} {t : NodeId} {k v : Bytes} {ts : ℕ} :
    (k, v, ts) ∈ m.hintsForNode t ↔ (m t).get k = some ⟨ts, v⟩ := by
  unfold hintsForNode
  rw [← OrdMap.mem_entries, List.mem_map]
  constructor
  · rintro ⟨⟨k', e⟩, he, heq⟩
    obtain ⟨rfl, rfl, rfl⟩ := by simpa using heq
    exact he
  · intro h
    exact ⟨_, h, rfl⟩

theorem pairwise_hintsForNode (m : TwoLevel) (t : NodeId) :
    (m.hintsForNode t).Pairwise fun a b => a.1 < b.1 :=
  List.pairwise_map.mpr (m t).increasing

end TwoLevel

/-- **The abstraction**: the entries of all targets without `/` agree. -/
def Refines (s : HintStore) (m : TwoLevel) : Prop :=
  ∀ t, '/' ∉ t.toList → ∀ k, s.entry t k = (m t).get k

theorem refines_empty : Refines HintStore.empty TwoLevel.empty := fun _ _ _ => rfl

/-- **One operation.** -/
theorem refines_apply {s : HintStore} {m : TwoLevel} (h : Refines s m) (op : HintOp)
    (hd : ∀ t k, op = .delete t k → '/' ∉ t.toList) : Refines (apply s op) (m.apply op) := by
  intro t ht k
  cases op with
  | store c =>
    rw [apply, entry_handle ht, TwoLevel.apply]
    by_cases hs : '/' ∈ c.targetId.toList
    · have hne : isFor t k c ≠ true := by
        rw [ne_eq, isFor_iff]
        rintro ⟨rfl, -⟩
        exact ht hs
      rw [if_neg hne, if_pos hs]
      exact h t ht k
    · rw [if_neg hs, Function.update_apply]
      by_cases hct : t = c.targetId
      · subst hct
        rw [if_pos rfl, OrdMap.get_put, h _ ht]
        by_cases hck : k = c.key
        · rw [if_pos (isFor_iff.mpr ⟨rfl, hck.symm⟩), if_pos hck]
        · rw [if_neg fun hf => hck (isFor_iff.mp hf).2.symm, if_neg hck]
      · rw [if_neg fun hf => hct (isFor_iff.mp hf).1.symm, if_neg hct]
        exact h t ht k
  | delete t' k' =>
    have ht' : '/' ∉ t'.toList := hd t' k' rfl
    rw [apply, HintStore.entry_deleteHint ht' ht, TwoLevel.apply, Function.update_apply]
    by_cases hct : t = t'
    · subst hct
      rw [if_pos rfl, OrdMap.get_delete, h _ ht]
      simp
    · rw [if_neg fun hc => hct hc.1, if_neg hct]
      exact h t ht k

theorem refines_foldl {ops : List HintOp}
    (hd : ∀ t k, HintOp.delete t k ∈ ops → '/' ∉ t.toList) :
    ∀ {s : HintStore} {m : TwoLevel}, Refines s m →
      Refines (ops.foldl apply s) (ops.foldl TwoLevel.apply m) := by
  induction ops with
  | nil => exact fun h => h
  | cons op ops ih =>
    intro s m h
    refine ih (fun t k hm => hd t k (List.mem_cons_of_mem _ hm)) (refines_apply h op ?_)
    exact fun t k he => hd t k (he ▸ List.mem_cons_self)

/-- **A scan lists the map of its target.** -/
theorem scan_eq {s : HintStore} {m : TwoLevel} (h : Refines s m) {t : NodeId}
    (ht : '/' ∉ t.toList) : s.hintsForNode t = m.hintsForNode t := by
  refine HintStore.eq_of_keyOrder (s.pairwise_hintsForNode t) (m.pairwise_hintsForNode t) ?_
  rintro ⟨k, v, ts⟩
  rw [HintStore.mem_hintsForNode, TwoLevel.mem_hintsForNode, h t ht]

/-- **The flat key space refines the map of maps.** After any sequence of operations, deletions
being for targets without `/`, the scan of a target without `/` is the list of its entries in the
abstract store, each once and in key order. A hint for a target with `/` is refused and changes
nothing. -/
theorem hintStore_refines_twoLevel (ops : List HintOp)
    (hd : ∀ t k, HintOp.delete t k ∈ ops → '/' ∉ t.toList) :
    (∀ t, '/' ∉ t.toList →
      (ops.foldl apply HintStore.empty).hintsForNode t =
        (ops.foldl TwoLevel.apply TwoLevel.empty).hintsForNode t ∧
      ((ops.foldl apply HintStore.empty).hintsForNode t).Pairwise fun a b => a.1 < b.1) ∧
    ∀ (s : HintStore) (c : Call), '/' ∈ c.targetId.toList →
      s.storeHint c.targetId c.key c.value c.timestamp = .error (.slashInTarget c.targetId) ∧
        apply s (.store c) = s := by
  refine ⟨fun t ht => ⟨scan_eq (refines_foldl hd refines_empty) ht, ?_⟩, fun s c hc => ?_⟩
  · exact HintStore.pairwise_hintsForNode _ t
  · have he : s.storeHint c.targetId c.key c.value c.timestamp =
        .error (.slashInTarget c.targetId) := if_pos hc
    exact ⟨he, by simp only [apply, handle, he]⟩

/-- Neighbouring ids, a key with `/`, an empty key, an overwritten and a deleted one. -/
theorem hintStore_refines_twoLevel_neighbours :
    ([.store ⟨"n1", [47, 120], [1], 10⟩, .store ⟨"n10", [], [2], 20⟩, .store ⟨"n1-", [97], [3], 30⟩,
      .store ⟨"n1", [], [4], 40⟩, .store ⟨"n1", [], [5], 5⟩, .store ⟨"n1", [98], [6], 60⟩,
      .delete "n1" [98]].foldl apply HintStore.empty).hintsForNode "n1" =
        [([], [5], 5), ([47, 120], [1], 10)] := by
  refine ((hintStore_refines_twoLevel _ fun t k hm => ?_).1 "n1" (by decide)).1.trans (by decide)
  simp only [List.mem_cons, HintOp.delete.injEq, reduceCtorEq, List.not_mem_nil, or_false,
    false_or] at hm
  rw [hm.1]
  decide

end Diynamo.Store.HintMap
