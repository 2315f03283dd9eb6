import Diynamo.Coordinator.PartialDelivery
import Diynamo.Store.HintMap

/-! # Isolation of the hints of one target

`storeHint` refuses targets with `/`, but a scan or a deletion takes any id, and the handoff loop
passes on the ids that it hears of by gossip. An id `T/P` reads and deletes the hints of `T` for the
keys that begin with `P/`, each under the rest of its key (`hint_leaks_to_slash_id`). So the hints
of the other targets are isolated from an id exactly if none of them was stored under such a key
(`isolated_iff`), in particular from every id without `/`. -/

namespace Diynamo.Coordinator.HintIsolation

open Diynamo.Lib.Ordered Diynamo.Lib.Utf8 Diynamo.Store.RocksDb Diynamo.Store.Hints
  Diynamo.Store.HintArrivals Diynamo.Store.HintMap Diynamo.Coordinator.PartialDelivery

/-- What was stored by a sequence of requests, by target and key. -/
def storedFor (calls : List Call) : TwoLevel :=
  (calls.map HintOp.store).foldl TwoLevel.apply TwoLevel.empty

/-- **The hints of other targets are isolated from the id `x`**: a scan for `x` returns only hints
stored for `x`, a deletion for `x` removes no others, and a delivery task for `x` sends only hints
stored for `x` and removes no others. -/
structure Isolated (calls : List Call) (x : NodeId) : Prop where
  scan : ∀ h ∈ (afterCalls calls).hintsForNode x, h ∈ (storedFor calls).hintsForNode x
  delete : ∀ k t, '/' ∉ t.toList → t ≠ x →
    ((afterCalls calls).deleteHint x k).hintsForNode t = (afterCalls calls).hintsForNode t
  sent : ∀ T outcome target,
    ∀ h ∈ (deliverHints T x outcome (.start (afterCalls calls) target)).sent,
      h ∈ (storedFor calls).hintsForNode x
  kept : ∀ T outcome target t, '/' ∉ t.toList → t ≠ x →
    (deliverHints T x outcome (.start (afterCalls calls) target)).hints.hintsForNode t =
      (afterCalls calls).hintsForNode t

/-- The target is the part of the id before a `/`, and the key begins with the rest of the id and
another `/`. -/
def Collides (x : NodeId) (c : Call) : Prop :=
  ∃ rest key, utf8 x = utf8 c.targetId ++ slash :: rest ∧ c.key = rest ++ slash :: key

variable {calls : List Call} {x : NodeId}

/-! ### What is in the store -/

theorem storedFor_concat (calls : List Call) (c : Call) :
    storedFor (calls ++ [c]) = (storedFor calls).apply (.store c) := by
  simp only [storedFor, List.map_append, List.map_cons, List.map_nil, List.foldl_append,
    List.foldl_cons, List.foldl_nil]

theorem refines_storedFor (calls : List Call) : Refines (afterCalls calls) (storedFor calls) := by
  induction calls using List.reverseRecOn with
  | nil => exact refines_empty
  | append_singleton calls c ih =>
    rw [storedFor_concat, afterCalls, List.foldl_concat, ← afterCalls]
    exact refines_apply ih (.store c) fun _ _ he => HintOp.noConfusion he

/-- Nothing is stored for an id with `/`. -/
theorem storedFor_of_slash (hx : '/' ∈ x.toList) (calls : List Call) :
    storedFor calls x = OrdMap.empty := by
  induction calls using List.reverseRecOn with
  | nil => rfl
  | append_singleton calls c ih =>
    rw [storedFor_concat, TwoLevel.apply]
    split_ifs with hc
    · exact ih
    · have hne : x ≠ c.targetId := fun he => hc (he ▸ hx)
      rw [Function.update_of_ne hne]
      exact ih

/-- **Every key of the store** is that of an accepted request. -/
theorem exists_call_of_get {k : Bytes} {e : HintEntry} (h : (afterCalls calls).db.get k = some e) :
    ∃ c ∈ calls, '/' ∉ c.targetId.toList ∧ k = hintKey c.targetId c.key := by
  induction calls using List.reverseRecOn generalizing e with
  | nil => simp [afterCalls, HintStore.empty] at h
  | append_singleton calls c ih =>
    rw [afterCalls, List.foldl_concat, ← afterCalls] at h
    have hold : (afterCalls calls).db.get k = some e → ∃ c' ∈ calls ++ [c],
        '/' ∉ c'.targetId.toList ∧ k = hintKey c'.targetId c'.key := fun h => by
      obtain ⟨c', hc', hs⟩ := ih h
      exact ⟨c', List.mem_append_left _ hc', hs⟩
    unfold handle at h
    split at h
    · next s' hs =>
      obtain ⟨ht, rfl⟩ := HintStore.storeHint_eq_ok.mp hs
      rw [OrdMap.get_put] at h
      split_ifs at h with hk
      · exact ⟨c, by simp, ht, hk⟩
      · exact hold h
    · exact hold h

/-- An accepted request left an entry. -/
theorem entry_isSome_of_mem {c : Call} (hc : c ∈ calls) (hs : '/' ∉ c.targetId.toList) :
    ∃ e, (afterCalls calls).entry c.targetId c.key = some e := by
  have hmem : c ∈ arrivals calls c.targetId c.key :=
    List.mem_filter.mpr ⟨hc, isFor_iff.mpr ⟨rfl, rfl⟩⟩
  rw [entry_afterCalls hs]
  cases hlast : (arrivals calls c.targetId c.key).getLast? with
  | none =>
    rw [List.getLast?_eq_none_iff.mp hlast] at hmem
    cases hmem
  | some d => exact ⟨_, rfl⟩

/-! ### Collisions -/

/-- A colliding request is stored under a key of the id. -/
theorem hintKey_of_collides {c : Call} (h : Collides x c) :
    ∃ key, hintKey c.targetId c.key = hintKey x key := by
  obtain ⟨rest, key, hx, hk⟩ := h
  refine ⟨key, ?_⟩
  simp only [hintKey, hx, hk, List.append_assoc, List.cons_append]

theorem slash_of_collides {c : Call} (h : Collides x c) : '/' ∈ x.toList := by
  obtain ⟨rest, key, hx, -⟩ := h
  rw [← slash_mem_utf8, hx]
  simp

/-- **A request collides** with an id with `/` if it is stored under a key of the id. -/
theorem collides_of_hintKey {c : Call} (hx : '/' ∈ x.toList) (hc : '/' ∉ c.targetId.toList)
    {key : Bytes} (h : hintKey c.targetId c.key = hintKey x key) : Collides x c := by
  obtain ⟨p, rest, hp, hns⟩ := List.eq_append_cons_of_mem (slash_mem_utf8.mpr hx)
  have hcut : utf8 c.targetId ++ slash :: c.key = p ++ slash :: (rest ++ slash :: key) := by
    rw [hintKey, hintKey, hp] at h
    simpa using h
  obtain ⟨ht, hk⟩ := cut_inj (fun hm => hc (slash_mem_utf8.mp hm)) hns hcut
  exact ⟨rest, key, by rw [ht, hp], hk⟩

/-- If no accepted request collides with an id with `/`, no key of the id is in the store. -/
theorem get_eq_none (hx : '/' ∈ x.toList)
    (hn : ∀ c ∈ calls, '/' ∉ c.targetId.toList → ¬ Collides x c) (key : Bytes) :
    (afterCalls calls).db.get (hintKey x key) = none := by
  cases he : (afterCalls calls).db.get (hintKey x key) with
  | none => rfl
  | some e =>
    obtain ⟨c, hc, hs, hk⟩ := exists_call_of_get he
    exact absurd (collides_of_hintKey hx hs hk.symm) (hn c hc hs)

/-- An id without `/` sees only its own hints. -/
theorem isolated_of_noSlash (hx : '/' ∉ x.toList) (calls : List Call) : Isolated calls x := by
  have hscan := scan_eq (refines_storedFor calls) hx
  refine ⟨fun h hh => hscan ▸ hh, fun k t ht hne => ?_, fun T outcome target h hh => ?_,
    fun T outcome target t ht hne => hintsForNode_deliverHints_of_ne hx ht hne _ _⟩
  · refine HintStore.hintsForNode_congr fun k' => ?_
    rw [HintStore.entry_deleteHint hx ht, if_neg fun hc => hne hc.1]
  · rw [sent_deliverHints] at hh
    exact hscan ▸ hh

/-- An id with `/` sees nothing if no accepted request collides with it. -/
theorem isolated_of_slash (hx : '/' ∈ x.toList)
    (hn : ∀ c ∈ calls, '/' ∉ c.targetId.toList → ¬ Collides x c) : Isolated calls x := by
  have hnil : (afterCalls calls).hintsForNode x = [] := by
    refine List.eq_nil_iff_forall_not_mem.mpr fun ⟨k, v, ts⟩ hh => ?_
    have hentry : (afterCalls calls).entry x k = some ⟨ts, v⟩ := HintStore.mem_hintsForNode.mp hh
    simp [HintStore.entry, get_eq_none hx hn] at hentry
  refine ⟨fun h hh => ?_, fun k t ht hne => ?_, fun T outcome target h hh => ?_,
    fun T outcome target t ht hne => ?_⟩
  · rw [hnil] at hh; cases hh
  · refine HintStore.hintsForNode_congr fun k' => ?_
    unfold HintStore.entry HintStore.deleteHint
    rw [OrdMap.get_delete]
    split_ifs with hk
    · rw [hk, get_eq_none hx hn]
    · rfl
  · rw [deliverHints, Delivery.start, hnil, List.foldl_nil] at hh; cases hh
  · rw [deliverHints, Delivery.start, hnil, List.foldl_nil]

/-- **The hints of the other targets are isolated from an id** exactly if no accepted request was
for a target that is the part of the id before a `/`, under a key that begins with the rest of the
id and another `/`. -/
theorem isolated_iff (calls : List Call) (x : NodeId) :
    Isolated calls x ↔ ∀ c ∈ calls, '/' ∉ c.targetId.toList → ¬ Collides x c := by
  constructor
  · intro h c hc hs hcol
    obtain ⟨key, hk⟩ := hintKey_of_collides hcol
    obtain ⟨e, he⟩ := entry_isSome_of_mem hc hs
    -- the scan of the id finds the hint of the other target
    have hscan : (key, e.data, e.timestamp) ∈ (afterCalls calls).hintsForNode x := by
      refine HintStore.mem_hintsForNode.mpr ?_
      rw [HintStore.entry, ← hk]
      exact he
    have hmem := TwoLevel.mem_hintsForNode.mp (h.scan _ hscan)
    rw [storedFor_of_slash (slash_of_collides hcol)] at hmem
    cases hmem
  · intro hn
    by_cases hx : '/' ∈ x.toList
    · exact isolated_of_slash hx hn
    · exact isolated_of_noSlash hx calls

/-- **A hint leaks to an id with `/`**: the hint for `a` under the key `b/k` is returned to `a/b`
under the key `k`, and deleted for it. -/
theorem hint_leaks_to_slash_id :
    let calls : List Call := [⟨"a", utf8 "b/k", [1], 100⟩]
    (afterCalls calls).hintsForNode "a/b" = [(utf8 "k", [1], 100)] ∧
    ((afterCalls calls).deleteHint "a/b" (utf8 "k")).hintsForNode "a" = [] ∧
    ¬ Isolated calls "a/b" := by
  intro calls
  have hscan : (afterCalls calls).hintsForNode "a/b" = [(utf8 "k", [1], 100)] := by decide
  refine ⟨hscan, by decide, fun h => ?_⟩
  have hmem := h.scan (utf8 "k", [1], 100) (by rw [hscan]; exact List.mem_cons_self)
  exact absurd hmem (by decide)

end Diynamo.Coordinator.HintIsolation
