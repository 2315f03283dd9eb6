import Diynamo.Lib.Ordered
import Diynamo.Lib.Utf8

/-! # The hint store

`HintStore` keeps the writes parked for nodes that were offline, in a RocksDB database of its own
with the flat key layout `{target_node_id}/{original_key}` (`hintKey`). `storeHint` overwrites the
entry of its target and key, `hintsForNode` scans the prefix of a target, `deleteHint` removes the
entry of a target and key.

The layout is injective on targets without `/` (`hintKey_inj`), so the scan of such a target returns
exactly the hints stored for it (`mem_hintsForNode`). -/

namespace Diynamo.Store.Hints

open Diynamo.Lib.Ordered Diynamo.Lib.Utf8

/-- A node id. -/
abbrev NodeId : Type := String

/-- On-disk representation of a hinted write (stored as its bincode, which reads back as itself). -/
@[ext] structure HintEntry where
  timestamp : ℕ
  data : Bytes
deriving DecidableEq, Repr

structure HintStore where
  db : OrdMap Bytes HintEntry

/-- The compound RocksDB key of a hint. -/
def hintKey (targetId : NodeId) (key : Bytes) : Bytes := utf8 targetId ++ slash :: key

/-- The bytes `{target_id}/` that a scan looks for. -/
def prefixBytes (targetId : NodeId) : Bytes := utf8 targetId ++ [slash]

/-- Why `storeHint` refuses: the target id contains `/`. -/
inductive StoreHintError where
  | slashInTarget (targetId : NodeId)
deriving DecidableEq, Repr

namespace HintStore

/-- A new, empty hint database. -/
def empty : HintStore := ⟨OrdMap.empty⟩

/-- **Persist a hint**, replacing the one stored for the same target and key. -/
def storeHint (s : HintStore) (targetId : NodeId) (key value : Bytes) (timestamp : ℕ) :
    Except StoreHintError HintStore :=
  if '/' ∈ targetId.toList then .error (.slashInTarget targetId)
  else .ok ⟨s.db.put (hintKey targetId key) ⟨timestamp, value⟩⟩

/-- **All pending hints of a target**, as `(original_key, value, timestamp)`: the entries from the
first key `{target_id}/…` on, up to the first key without that prefix. -/
def hintsForNode (s : HintStore) (targetId : NodeId) : List (Bytes × Bytes × ℕ) :=
  (s.db.scan (prefixBytes targetId)).map fun e =>
    (e.1.drop (prefixBytes targetId).length, e.2.data, e.2.timestamp)

/-- Delete a hint after successful delivery. -/
def deleteHint (s : HintStore) (targetId : NodeId) (key : Bytes) : HintStore :=
  ⟨s.db.delete (hintKey targetId key)⟩

/-- The entry stored for a target and a key. -/
def entry (s : HintStore) (targetId : NodeId) (key : Bytes) : Option HintEntry :=
  s.db.get (hintKey targetId key)

end HintStore

/-! ### The key layout -/

theorem slash_mem_utf8 {t : NodeId} : slash ∈ utf8 t ↔ '/' ∈ t.toList :=
  mem_utf8_iff (c := '/') (by decide)

theorem hintKey_eq_append (t : NodeId) (k : Bytes) : hintKey t k = prefixBytes t ++ k := by
  simp [hintKey, prefixBytes]

/-- Two byte strings cut at their first `/` agree before and after it. -/
theorem cut_inj : ∀ {p q k l : Bytes}, slash ∉ p → slash ∉ q → p ++ slash :: k = q ++ slash :: l →
    p = q ∧ k = l
  | [], [], _, _, _, _, h => ⟨rfl, (List.cons.inj h).2⟩
  | [], b :: q, _, _, _, hq, h => absurd (List.cons.inj h).1 fun e => hq (e ▸ List.mem_cons_self)
  | a :: p, [], _, _, hp, _, h =>
    absurd (List.cons.inj h).1 fun e => hp (e ▸ List.mem_cons_self)
  | a :: p, b :: q, k, l, hp, hq, h => by
    obtain ⟨hab, h'⟩ := List.cons.inj h
    obtain ⟨hpq, hkl⟩ := cut_inj (fun hm => hp (List.mem_cons_of_mem _ hm))
      (fun hm => hq (List.mem_cons_of_mem _ hm)) h'
    exact ⟨by rw [hab, hpq], hkl⟩

/-- **The key layout is injective** on targets without `/`. -/
theorem hintKey_inj {t t' : NodeId} {k k' : Bytes} (ht : '/' ∉ t.toList) (ht' : '/' ∉ t'.toList) :
    hintKey t k = hintKey t' k' ↔ t = t' ∧ k = k' := by
  constructor
  · intro h
    obtain ⟨h1, h2⟩ := cut_inj (fun hm => ht (slash_mem_utf8.mp hm))
      (fun hm => ht' (slash_mem_utf8.mp hm)) h
    exact ⟨utf8_injective h1, h2⟩
  · rintro ⟨rfl, rfl⟩; rfl

/-! ### The operations -/

namespace HintStore

theorem storeHint_eq_ok {s s' : HintStore} {t : NodeId} {k v : Bytes} {ts : ℕ} :
    s.storeHint t k v ts = .ok s' ↔
      '/' ∉ t.toList ∧ s' = ⟨s.db.put (hintKey t k) ⟨ts, v⟩⟩ := by
  unfold storeHint
  split_ifs with h
  · simp [h]
  · simp [h, eq_comm]

/-- **The scan of a target** returns the entries with its prefix, each under the rest of its key. -/
theorem mem_hintsForNode {s : HintStore} {t : NodeId} {k v : Bytes} {ts : ℕ} :
    (k, v, ts) ∈ s.hintsForNode t ↔ s.entry t k = some ⟨ts, v⟩ := by
  unfold hintsForNode entry
  rw [OrdMap.scan_eq_filter, ← OrdMap.mem_entries, List.mem_map]
  constructor
  · rintro ⟨⟨ck, e⟩, he, heq⟩
    obtain ⟨hm, hp⟩ := List.mem_filter.mp he
    obtain ⟨r, rfl⟩ := List.isPrefixOf_iff_prefix.mp hp
    simp only [List.drop_left, Prod.mk.injEq] at heq
    obtain ⟨rfl, rfl, rfl⟩ := heq
    rwa [hintKey_eq_append]
  · intro h
    refine ⟨_, List.mem_filter.mpr ⟨h, ?_⟩, ?_⟩
    · rw [hintKey_eq_append]
      exact List.isPrefixOf_iff_prefix.mpr (List.prefix_append _ _)
    · simp only [hintKey_eq_append, List.drop_left]

/-- A scan lists every key once, in key order. -/
theorem pairwise_hintsForNode (s : HintStore) (t : NodeId) :
    (s.hintsForNode t).Pairwise fun a b => a.1 < b.1 := by
  unfold hintsForNode
  rw [OrdMap.scan_eq_filter, List.pairwise_map]
  refine (s.db.increasing.filter _).imp_of_mem fun {a b} ha hb hab => ?_
  obtain ⟨r, hr⟩ := List.isPrefixOf_iff_prefix.mp (List.mem_filter.mp ha).2
  obtain ⟨r', hr'⟩ := List.isPrefixOf_iff_prefix.mp (List.mem_filter.mp hb).2
  rw [← hr, ← hr'] at hab ⊢
  simp only [List.drop_left]
  exact append_lt_append_left.mp hab

theorem nodup_hintsForNode (s : HintStore) (t : NodeId) : (s.hintsForNode t).Nodup :=
  (s.pairwise_hintsForNode t).imp fun hab he => absurd (congrArg Prod.fst he) hab.ne

/-- Two lists in strict key order with the same hints are the same. -/
theorem eq_of_keyOrder {l l' : List (Bytes × Bytes × ℕ)} (hl : l.Pairwise fun a b => a.1 < b.1)
    (hl' : l'.Pairwise fun a b => a.1 < b.1) (hmem : ∀ x, x ∈ l ↔ x ∈ l') : l = l' := by
  have hnd : ∀ {l : List (Bytes × Bytes × ℕ)}, l.Pairwise (fun a b => a.1 < b.1) → l.Nodup :=
    fun h => h.imp fun hab he => absurd (congrArg Prod.fst he) hab.ne
  have hperm : l.Perm l' := (List.perm_ext_iff_of_nodup (hnd hl) (hnd hl')).mpr hmem
  refine List.Perm.eq_of_pairwise (fun a b _ _ hab hba => ?_) hl hl' hperm
  exact absurd hba hab.asymm

/-- **The scan of a target** depends on its entries only. -/
theorem hintsForNode_congr {s s' : HintStore} {t : NodeId} (h : ∀ k, s.entry t k = s'.entry t k) :
    s.hintsForNode t = s'.hintsForNode t := by
  refine eq_of_keyOrder (s.pairwise_hintsForNode t) (s'.pairwise_hintsForNode t) ?_
  rintro ⟨k, v, ts⟩
  rw [mem_hintsForNode, mem_hintsForNode, h]

/-- The hints of one key in a scan: the stored entry, if any. -/
theorem filter_hintsForNode (s : HintStore) (t : NodeId) (k : Bytes) :
    (s.hintsForNode t).filter (fun e => e.1 = k) =
      ((s.entry t k).map fun e => (k, e.data, e.timestamp)).toList := by
  have hmem : ∀ x, x ∈ (s.hintsForNode t).filter (fun e => e.1 = k) ↔
      ∃ e, s.entry t k = some e ∧ x = (k, e.data, e.timestamp) := by
    rintro ⟨k', v, ts⟩
    rw [List.mem_filter, mem_hintsForNode]
    constructor
    · rintro ⟨h, hk⟩
      obtain rfl : k' = k := by simpa using hk
      exact ⟨_, h, rfl⟩
    · rintro ⟨e, he, hx⟩
      obtain ⟨rfl, rfl, rfl⟩ := by simpa using hx
      exact ⟨he, by simp⟩
  cases he : s.entry t k with
  | none =>
    refine List.eq_nil_iff_forall_not_mem.mpr fun x hx => ?_
    obtain ⟨e, h, -⟩ := (hmem x).mp hx
    simp [he] at h
  | some e =>
    have hnd : ((s.hintsForNode t).filter fun e => e.1 = k).Nodup :=
      (s.nodup_hintsForNode t).filter _
    refine List.perm_singleton.mp ((List.perm_ext_iff_of_nodup hnd (List.nodup_singleton _)).mpr ?_)
    intro x
    rw [hmem, he, List.mem_singleton]
    constructor
    · rintro ⟨e', h, rfl⟩
      rw [Option.some.inj h]
    · intro h
      exact ⟨e, rfl, h⟩

theorem entry_deleteHint {t t' : NodeId} (ht : '/' ∉ t.toList) (ht' : '/' ∉ t'.toList)
    (s : HintStore) (k k' : Bytes) :
    (s.deleteHint t k).entry t' k' = if t' = t ∧ k' = k then none else s.entry t' k' := by
  unfold entry deleteHint
  rw [OrdMap.get_delete]
  by_cases hk : t' = t ∧ k' = k
  · rw [if_pos ((hintKey_inj ht' ht).mpr hk), if_pos hk]
  · rw [if_neg fun h => hk ((hintKey_inj ht' ht).mp h), if_neg hk]

/-- A deletion leaves the other entries, and no new ones. -/
theorem entry_of_deleteHint {s : HintStore} {t t' : NodeId} {k k' : Bytes} {e : HintEntry}
    (h : (s.deleteHint t k).entry t' k' = some e) : s.entry t' k' = some e := by
  unfold entry deleteHint at h
  rw [OrdMap.get_delete] at h
  split_ifs at h
  exact h

end HintStore

end Diynamo.Store.Hints
