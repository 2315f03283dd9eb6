import Diynamo.Lib.Binary
import Diynamo.Store.Hints
import Diynamo.Store.RocksDb

/-! # The stores as bytes

RocksDB holds byte strings: `RocksDbStore` and `HintStore` write the bincode of an entry and read it
back. Here both are over a map of byte strings, with the binary format a parameter, so that the
branches in which an entry cannot be read appear. The maps of entries that the rest of the
development works with are their views (`RawStore.view`, `RawHints.view`).

An entry that cannot be read stays as it is until an unconditional write or `clear_all` replaces it:
every read and every conditional write of its key fails. All the other keys are as in the store of
entries (`store_run`). A scan of the hint store fails if one of the hints of its target cannot be
read, and else is the scan of the view (`hintsForNode_eq_ok`). -/

namespace Diynamo.Store.Raw

open Diynamo.Lib.Binary Diynamo.Lib.LastWrite Diynamo.Lib.Ordered Diynamo.Lib.Utf8
open Diynamo.Store.Hints Diynamo.Store.RocksDb

/-- The `StoredEntry` of a value, as bincode writes it. -/
def storedEntry : Codec VersionedValue :=
  fixedWidth ⟨fun v => (v.timestamp, v.data), fun x => ⟨x.1, x.2⟩, fun _ => rfl, fun _ => rfl⟩

/-- A `HintEntry`, as bincode writes it. -/
def hintEntry : Codec HintEntry :=
  fixedWidth ⟨fun e => (e.timestamp, e.data), fun x => ⟨x.1, x.2⟩, fun _ => rfl, fun _ => rfl⟩

/-! ### The local store -/

structure RawStore where
  db : OrdMap Bytes Bytes

namespace RawStore

variable (c : Codec VersionedValue)

def get (s : RawStore) (key : Bytes) : Except String (Option VersionedValue) :=
  match s.db.get key with
  | none => .ok none
  | some bytes =>
    match c.deserialize bytes with
    | none => .error "failed to deserialize stored entry"
    | some entry => .ok (some entry)

/-- The unconditional write; `nowMillis` is the reading of the store's clock. -/
def put (s : RawStore) (key value : Bytes) (nowMillis : ℕ) : RawStore :=
  ⟨s.db.put key (c.serialize ⟨nowMillis, value⟩)⟩

/-- Write only above the stored timestamp. -/
def putIfNewer (s : RawStore) (key value : Bytes) (timestamp : ℕ) : Except String RawStore :=
  match s.db.get key with
  | none => .ok ⟨s.db.put key (c.serialize ⟨timestamp, value⟩)⟩
  | some bytes =>
    match c.deserialize bytes with
    | none => .error "failed to deserialize entry in put_if_newer"
    | some current =>
      if timestamp ≤ current.timestamp then .ok s
      else .ok ⟨s.db.put key (c.serialize ⟨timestamp, value⟩)⟩

/-- Every key in key order, with its value or the error of reading it. -/
def iterAll (s : RawStore) : List (Except String (Bytes × VersionedValue)) :=
  s.db.entries.map fun e =>
    match c.deserialize e.2 with
    | none => .error "failed to deserialize entry in iter_all"
    | some entry => .ok (e.1, entry)

/-- Delete every key in the store; the values are not looked at. -/
def clearAll (s : RawStore) : RawStore := ⟨(s.db.entries.map Prod.fst).foldl OrdMap.delete s.db⟩

/-- The store of the entries that can be read. -/
def view (s : RawStore) : RocksDbStore := ⟨decoded c s.db⟩

/-- **The entry of the key cannot be read.** -/
def Corrupt (s : RawStore) (key : Bytes) : Prop :=
  ∃ bytes, s.db.get key = some bytes ∧ c.deserialize bytes = none

variable {c}

theorem get_view (s : RawStore) (key : Bytes) :
    (s.view c).get key = (s.db.get key).bind c.deserialize :=
  get_decoded c s.db key

theorem get_of_corrupt {s : RawStore} {key : Bytes} (h : s.Corrupt c key) :
    s.get c key = .error "failed to deserialize stored entry" := by
  obtain ⟨bytes, hg, hd⟩ := h
  simp only [get, hg, hd]

theorem get_of_not_corrupt {s : RawStore} {key : Bytes} (h : ¬ s.Corrupt c key) :
    s.get c key = .ok ((s.view c).get key) := by
  rw [get_view]
  unfold get
  cases hg : s.db.get key with
  | none => rfl
  | some bytes =>
    cases hd : c.deserialize bytes with
    | none => exact absurd ⟨bytes, hg, hd⟩ h
    | some entry => simp only [Option.bind_some, hd]

theorem putIfNewer_of_corrupt {s : RawStore} {key : Bytes} (h : s.Corrupt c key) (value : Bytes)
    (timestamp : ℕ) : s.putIfNewer c key value timestamp =
      .error "failed to deserialize entry in put_if_newer" := by
  obtain ⟨bytes, hg, hd⟩ := h
  simp only [putIfNewer, hg, hd]

/-- A conditional write of a key that can be read. -/
theorem putIfNewer_of_not_corrupt {s : RawStore} {key : Bytes} (h : ¬ s.Corrupt c key)
    (value : Bytes) (timestamp : ℕ) : s.putIfNewer c key value timestamp =
      .ok (if (s.view c).isFresh key timestamp then s
        else ⟨s.db.put key (c.serialize ⟨timestamp, value⟩)⟩) := by
  have hv : (s.view c).db.get key = (s.db.get key).bind c.deserialize := get_view s key
  unfold putIfNewer RocksDbStore.isFresh
  rw [hv]
  cases hg : s.db.get key with
  | none => rfl
  | some bytes =>
    cases hd : c.deserialize bytes with
    | none => exact absurd ⟨bytes, hg, hd⟩ h
    | some current =>
      simp only [Option.bind_some, hd, decide_eq_true_eq]
      split_ifs <;> rfl

/-- What can be read of an iteration is the iteration of the view. -/
theorem filterMap_iterAll (s : RawStore) :
    (s.iterAll c).filterMap Except.toOption = (s.view c).iterAll := by
  have h : ∀ l : List (Bytes × Bytes),
      (l.map fun e =>
        match c.deserialize e.2 with
        | none => (.error "failed to deserialize entry in iter_all" : Except String _)
        | some entry => .ok (e.1, entry)).filterMap Except.toOption =
      filterMapEntries c.deserialize l := by
    intro l
    induction l with
    | nil => rfl
    | cons e l ih =>
      rw [List.map_cons, filterMapEntries, List.filterMap_cons, List.filterMap_cons, ih]
      cases c.deserialize e.2 <;> rfl
  exact h s.db.entries

end RawStore

/-! ### Any sequence of operations -/

inductive StoreOp where
  | put (key value : Bytes) (nowMillis : ℕ)
  | putIfNewer (key value : Bytes) (timestamp : ℕ)
  | clearAll
deriving DecidableEq, Repr

namespace StoreOp

/-- The operation on the store of bytes; one that fails changes nothing. -/
def onRaw (c : Codec VersionedValue) (s : RawStore) : StoreOp → RawStore
  | put key value nowMillis => s.put c key value nowMillis
  | putIfNewer key value timestamp => (s.putIfNewer c key value timestamp).toOption.getD s
  | clearAll => s.clearAll

/-- The operation on the store of entries. -/
def onEntries (s : RocksDbStore) : StoreOp → RocksDbStore
  | put key value nowMillis => s.put key value nowMillis
  | putIfNewer key value timestamp => s.putIfNewer key value timestamp
  | clearAll => s.clearAll

/-- The written entry fits the format. -/
def Fits (c : Codec VersionedValue) : StoreOp → Prop
  | put _ value timestamp | putIfNewer _ value timestamp => c.Fits ⟨timestamp, value⟩
  | clearAll => True

/-- The operation replaces whatever is stored for the key. -/
def Resets (j : Bytes) : StoreOp → Prop
  | put key _ _ => key = j
  | putIfNewer _ _ _ => False
  | clearAll => True

end StoreOp

namespace RawStore

variable {c : Codec VersionedValue}

/-- **An operation that resets the key** leaves an entry that can be read. -/
theorem not_corrupt_of_resets {op : StoreOp} (hfit : op.Fits c) {j : Bytes} (h : op.Resets j)
    (s : RawStore) : ¬ (op.onRaw c s).Corrupt c j := by
  rintro ⟨bytes, hg, hd⟩
  cases op with
  | put key value nowMillis =>
    obtain rfl : key = j := h
    rw [StoreOp.onRaw, put, OrdMap.get_put_self] at hg
    rw [← Option.some.inj hg, c.deserialize_serialize hfit] at hd
    cases hd
  | putIfNewer key value timestamp => exact h
  | clearAll =>
    rw [StoreOp.onRaw, clearAll, OrdMap.get_foldl_delete_entries] at hg
    cases hg

/-- What a conditional write leaves of the other keys, whether it fails or not. -/
theorem db_get_putIfNewer_of_ne {key j : Bytes} (h : j ≠ key) (s : RawStore) (value : Bytes)
    (timestamp : ℕ) :
    ((StoreOp.putIfNewer key value timestamp).onRaw c s).db.get j = s.db.get j := by
  simp only [StoreOp.onRaw]
  by_cases hk : s.Corrupt c key
  · rw [putIfNewer_of_corrupt hk]
    rfl
  · rw [putIfNewer_of_not_corrupt hk]
    simp only [Except.toOption, Option.getD_some]
    split_ifs
    · rfl
    · exact OrdMap.get_put_of_ne _ _ h

/-- **The operations that do not reset the key** keep an entry that cannot be read. -/
theorem db_get_onRaw {op : StoreOp} {j : Bytes} (h : ¬ op.Resets j) {s : RawStore}
    (hc : s.Corrupt c j) : (op.onRaw c s).db.get j = s.db.get j := by
  cases op with
  | put key value nowMillis => exact OrdMap.get_put_of_ne _ _ fun e => h e.symm
  | putIfNewer key value timestamp =>
    by_cases hj : j = key
    · simp only [StoreOp.onRaw, putIfNewer_of_corrupt (hj ▸ hc)]
      rfl
    · exact db_get_putIfNewer_of_ne hj s value timestamp
  | clearAll => exact absurd trivial h

theorem corrupt_congr {s s' : RawStore} {j : Bytes} (h : s'.db.get j = s.db.get j) :
    s'.Corrupt c j ↔ s.Corrupt c j := by
  unfold Corrupt
  rw [h]

/-- **One operation**: the keys that cannot be read. -/
theorem corrupt_onRaw {op : StoreOp} (hfit : op.Fits c) (s : RawStore) (j : Bytes) :
    (op.onRaw c s).Corrupt c j ↔ s.Corrupt c j ∧ ¬ op.Resets j := by
  by_cases hres : op.Resets j
  · exact ⟨fun h => absurd h (not_corrupt_of_resets hfit hres s), fun h => absurd hres h.2⟩
  · refine ⟨fun h => ⟨?_, hres⟩, fun h => (corrupt_congr (db_get_onRaw hres h.1)).mpr h.1⟩
    by_contra hc
    cases op with
    | put key value nowMillis =>
      exact hc ((corrupt_congr (OrdMap.get_put_of_ne _ _ fun e => hres e.symm)).mp h)
    | putIfNewer key value timestamp =>
      by_cases hj : j = key
      · subst hj
        simp only [StoreOp.onRaw, putIfNewer_of_not_corrupt hc, Except.toOption,
          Option.getD_some] at h
        split_ifs at h
        · exact hc h
        · have hput : (StoreOp.put j value timestamp).Fits c := hfit
          exact not_corrupt_of_resets hput rfl s h
      · exact hc ((corrupt_congr (db_get_putIfNewer_of_ne hj s value timestamp)).mp h)
    | clearAll => exact hres trivial

/-- **One operation**: the keys that can be read, next to a store of entries. -/
theorem view_onRaw {op : StoreOp} (hfit : op.Fits c) {s : RawStore} {m : RocksDbStore} {j : Bytes}
    (h : ¬ (op.onRaw c s).Corrupt c j) (hm : ¬ s.Corrupt c j → (s.view c).get j = m.get j) :
    ((op.onRaw c s).view c).get j = (op.onEntries m).get j := by
  cases op with
  | put key value nowMillis =>
    have hview : ((StoreOp.put key value nowMillis).onRaw c s).view c =
        (s.view c).put key value nowMillis :=
      congrArg RocksDbStore.mk (decoded_put c s.db key hfit)
    rw [hview, StoreOp.onEntries]
    by_cases hj : j = key
    · subst hj
      exact (OrdMap.get_put_self _ _ _).trans (OrdMap.get_put_self _ _ _).symm
    · refine (OrdMap.get_put_of_ne _ _ hj).trans (Eq.trans ?_ (OrdMap.get_put_of_ne _ _ hj).symm)
      exact hm fun hs => h ((corrupt_onRaw hfit s j).mpr ⟨hs, fun he => hj he.symm⟩)
  | putIfNewer key value timestamp =>
    have hs : ¬ s.Corrupt c j := fun hs => h ((corrupt_onRaw hfit s j).mpr ⟨hs, id⟩)
    by_cases hj : j = key
    · subst hj
      have hfresh : (s.view c).isFresh j timestamp = m.isFresh j timestamp := by
        have : (s.view c).db.get j = m.db.get j := hm hs
        unfold RocksDbStore.isFresh
        rw [this]
      simp only [StoreOp.onRaw, putIfNewer_of_not_corrupt hs, Except.toOption, Option.getD_some,
        StoreOp.onEntries, RocksDbStore.putIfNewer, hfresh]
      split_ifs
      · exact hm hs
      · rw [RawStore.view, decoded_put c s.db j hfit]
        exact (OrdMap.get_put_self _ _ _).trans (OrdMap.get_put_self _ _ _).symm
    · rw [get_view, db_get_putIfNewer_of_ne hj, ← get_view, hm hs, StoreOp.onEntries,
        RocksDbStore.get_putIfNewer_of_ne _ _ _ hj]
  | clearAll =>
    rw [get_view]
    simp only [StoreOp.onRaw, StoreOp.onEntries, clearAll, RocksDbStore.get_clearAll,
      OrdMap.get_foldl_delete_entries, Option.bind_none]

theorem corrupt_foldl : ∀ {ops : List StoreOp}, (∀ op ∈ ops, op.Fits c) → ∀ (s : RawStore)
    (j : Bytes), (ops.foldl (StoreOp.onRaw c) s).Corrupt c j ↔
      s.Corrupt c j ∧ ∀ op ∈ ops, ¬ op.Resets j
  | [], _, s, j => by simp
  | op :: ops, hfit, s, j => by
    obtain ⟨hop, hops⟩ := List.forall_mem_cons.mp hfit
    rw [List.foldl_cons, corrupt_foldl hops, corrupt_onRaw hop, List.forall_mem_cons, and_assoc]

theorem db_get_foldl {j : Bytes} : ∀ {ops : List StoreOp}, (∀ op ∈ ops, ¬ op.Resets j) →
    ∀ {s : RawStore}, s.Corrupt c j → (ops.foldl (StoreOp.onRaw c) s).db.get j = s.db.get j
  | [], _, _, _ => rfl
  | op :: ops, h, s, hc => by
    obtain ⟨hop, hops⟩ := List.forall_mem_cons.mp h
    have he := db_get_onRaw hop hc
    rw [List.foldl_cons, db_get_foldl hops ((corrupt_congr he).mpr hc), he]

theorem view_foldl {j : Bytes} : ∀ {ops : List StoreOp}, (∀ op ∈ ops, op.Fits c) →
    ∀ {s : RawStore} {m : RocksDbStore}, (¬ s.Corrupt c j → (s.view c).get j = m.get j) →
      ¬ (ops.foldl (StoreOp.onRaw c) s).Corrupt c j →
        ((ops.foldl (StoreOp.onRaw c) s).view c).get j = (ops.foldl StoreOp.onEntries m).get j
  | [], _, _, _, hm, h => hm h
  | op :: ops, hfit, s, m, hm, h => by
    obtain ⟨hop, hops⟩ := List.forall_mem_cons.mp hfit
    rw [List.foldl_cons, List.foldl_cons]
    exact view_foldl hops (fun hc => view_onRaw hop hc hm) h

/-- **An entry that cannot be read** stays, byte for byte, until an unconditional write or a
`clear_all`; every read and every conditional write of its key fails meanwhile. Every other key
reads as in the store of entries after the same operations. -/
theorem store_run {ops : List StoreOp} (hfit : ∀ op ∈ ops, op.Fits c) (s : RawStore)
    (key : Bytes) :
    ((s.Corrupt c key ∧ ∀ op ∈ ops, ¬ op.Resets key) →
      (ops.foldl (StoreOp.onRaw c) s).db.get key = s.db.get key ∧
      (ops.foldl (StoreOp.onRaw c) s).get c key =
        .error "failed to deserialize stored entry" ∧
      ∀ value timestamp, (ops.foldl (StoreOp.onRaw c) s).putIfNewer c key value timestamp =
        .error "failed to deserialize entry in put_if_newer") ∧
    (¬ (s.Corrupt c key ∧ ∀ op ∈ ops, ¬ op.Resets key) →
      (ops.foldl (StoreOp.onRaw c) s).get c key =
        .ok ((ops.foldl StoreOp.onEntries (s.view c)).get key)) := by
  constructor
  · intro h
    have hc := (corrupt_foldl hfit s key).mpr h
    exact ⟨db_get_foldl h.2 h.1, get_of_corrupt hc, putIfNewer_of_corrupt hc⟩
  · intro h
    have hc : ¬ (ops.foldl (StoreOp.onRaw c) s).Corrupt c key :=
      fun hc => h ((corrupt_foldl hfit s key).mp hc)
    rw [get_of_not_corrupt hc, view_foldl hfit (fun _ => rfl) hc]

/-- Two stored bytes are no entry: a conditional write leaves them, a plain one replaces them. -/
theorem store_run_two_bytes :
    ((StoreOp.putIfNewer [97] [1] 7).onRaw storedEntry ⟨OrdMap.empty.put [97] [0, 0]⟩).get
        storedEntry [97] = .error "failed to deserialize stored entry" ∧
      ([StoreOp.putIfNewer [97] [1] 7, .put [97] [2] 9].foldl (StoreOp.onRaw storedEntry)
        ⟨OrdMap.empty.put [97] [0, 0]⟩).get storedEntry [97] = .ok (some ⟨9, [2]⟩) := by
  have hc : (⟨OrdMap.empty.put [97] [0, 0]⟩ : RawStore).Corrupt storedEntry [97] :=
    ⟨[0, 0], rfl, rfl⟩
  have hfit : ∀ op ∈ [StoreOp.putIfNewer [97] [1] 7], op.Fits storedEntry := by
    simp [StoreOp.Fits, storedEntry, fixedWidth, FitsTimed]
  refine ⟨((store_run hfit _ [97]).1 ⟨hc, ?_⟩).2.1, ((store_run ?_ _ [97]).2 ?_).trans ?_⟩
  · simp [StoreOp.Resets]
  · simp [StoreOp.Fits, storedEntry, fixedWidth, FitsTimed]
  · simp [StoreOp.Resets]
  · rfl

end RawStore

/-! ### The hint store -/

structure RawHints where
  db : OrdMap Bytes Bytes

namespace RawHints

variable (c : Codec HintEntry)

/-- Persist a hint. -/
def storeHint (s : RawHints) (targetId : NodeId) (key value : Bytes) (timestamp : ℕ) :
    Except StoreHintError RawHints :=
  if '/' ∈ targetId.toList then .error (.slashInTarget targetId)
  else .ok ⟨s.db.put (hintKey targetId key) (c.serialize ⟨timestamp, value⟩)⟩

/-- The loop of the scan: the rest of each key after `skip` bytes with its hint, up to the first
entry that cannot be read. -/
def readHints (skip : ℕ) : List (Bytes × Bytes) → Except String (List (Bytes × Bytes × ℕ))
  | [] => .ok []
  | (k, v) :: entries =>
    match c.deserialize v with
    | none => .error "failed to deserialize hint entry"
    | some hint => (readHints skip entries).map ((k.drop skip, hint.data, hint.timestamp) :: ·)

/-- All pending hints of a target; one that cannot be read fails the scan. -/
def hintsForNode (s : RawHints) (targetId : NodeId) : Except String (List (Bytes × Bytes × ℕ)) :=
  readHints c (prefixBytes targetId).length (s.db.scan (prefixBytes targetId))

/-- Delete a hint after successful delivery. -/
def deleteHint (s : RawHints) (targetId : NodeId) (key : Bytes) : RawHints :=
  ⟨s.db.delete (hintKey targetId key)⟩

/-- The store of the hints that can be read. -/
def view (s : RawHints) : HintStore := ⟨decoded c s.db⟩

/-- **The hint of the target and key cannot be read.** -/
def Corrupt (s : RawHints) (targetId : NodeId) (key : Bytes) : Prop :=
  ∃ bytes, s.db.get (hintKey targetId key) = some bytes ∧ c.deserialize bytes = none

variable {c}

theorem readHints_eq_error {skip : ℕ} : ∀ {l : List (Bytes × Bytes)} {err : String},
    readHints c skip l = .error err ↔
      err = "failed to deserialize hint entry" ∧ ∃ e ∈ l, c.deserialize e.2 = none
  | [], _ => by simp [readHints]
  | (k, v) :: l, err => by
    have ih : readHints c skip l = .error err ↔ _ := readHints_eq_error
    simp only [readHints, List.mem_cons, exists_eq_or_imp]
    cases hv : c.deserialize v with
    | none => simp [eq_comm]
    | some hint =>
      cases hr : readHints c skip l with
      | error e => simpa [Except.map, hr] using ih
      | ok results => simpa [Except.map, hr] using ih

theorem readHints_of_forall {skip : ℕ} : ∀ {l : List (Bytes × Bytes)},
    (∀ e ∈ l, c.deserialize e.2 ≠ none) →
      readHints c skip l = .ok ((filterMapEntries c.deserialize l).map fun e =>
        (e.1.drop skip, e.2.data, e.2.timestamp))
  | [], _ => rfl
  | (k, v) :: l, h => by
    obtain ⟨hv, hl⟩ := List.forall_mem_cons.mp h
    obtain ⟨hint, he⟩ := Option.ne_none_iff_exists'.mp hv
    have he' : c.deserialize v = some hint := he
    simp only [readHints, he', readHints_of_forall hl, Except.map, filterMapEntries,
      List.filterMap_cons, Option.map_some, List.map_cons]

theorem mem_scan {s : RawHints} {t : NodeId} {e : Bytes × Bytes} :
    e ∈ s.db.scan (prefixBytes t) ↔ ∃ key, e.1 = hintKey t key ∧ s.db.get e.1 = some e.2 := by
  rw [OrdMap.scan_eq_filter, List.mem_filter, List.isPrefixOf_iff_prefix, ← OrdMap.mem_entries]
  constructor
  · rintro ⟨hm, key, hk⟩
    exact ⟨key, by rw [hintKey_eq_append, hk], hm⟩
  · rintro ⟨key, hk, hm⟩
    exact ⟨hm, key, by rw [← hintKey_eq_append, hk]⟩

theorem exists_mem_scan {s : RawHints} {t : NodeId} :
    (∃ e ∈ s.db.scan (prefixBytes t), c.deserialize e.2 = none) ↔
      ∃ key, s.Corrupt c t key := by
  constructor
  · rintro ⟨e, he, hd⟩
    obtain ⟨key, hk, hg⟩ := mem_scan.mp he
    exact ⟨key, e.2, hk ▸ hg, hd⟩
  · rintro ⟨key, bytes, hg, hd⟩
    exact ⟨(hintKey t key, bytes), mem_scan.mpr ⟨key, rfl, hg⟩, hd⟩

/-- **A scan fails** exactly if a hint of its target cannot be read. -/
theorem hintsForNode_eq_error {s : RawHints} {t : NodeId} {err : String} :
    s.hintsForNode c t = .error err ↔
      err = "failed to deserialize hint entry" ∧ ∃ key, s.Corrupt c t key := by
  unfold hintsForNode
  rw [readHints_eq_error, exists_mem_scan]

/-- **Else it is the scan of the hints.** -/
theorem hintsForNode_eq_ok {s : RawHints} {t : NodeId} (h : ¬ ∃ key, s.Corrupt c t key) :
    s.hintsForNode c t = .ok ((s.view c).hintsForNode t) := by
  have hscan : (s.view c).db.scan (prefixBytes t) =
      filterMapEntries c.deserialize (s.db.scan (prefixBytes t)) := by
    rw [OrdMap.scan_eq_filter, OrdMap.scan_eq_filter]
    exact filter_filterMapEntries _ (fun k => (prefixBytes t).isPrefixOf k) _
  unfold hintsForNode HintStore.hintsForNode
  rw [hscan, readHints_of_forall]
  intro e he hd
  exact h (exists_mem_scan.mp ⟨e, he, hd⟩)

end RawHints

end Diynamo.Store.Raw
