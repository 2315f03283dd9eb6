import Diynamo.Lib.LastWrite
import Diynamo.Lib.Ordered
import Diynamo.Lib.Utf8

/-! # The local store

`RocksDbStore` is one RocksDB database: a byte-ordered map from keys to versioned values (an entry
is stored as the bincode of its timestamp and data, which reads back as itself, so the map holds the
entries). `put` stamps the write with the node's own clock, whose reading is a parameter.
`putIfNewer` writes only above the stored timestamp: on every key it is the register of
`Lib.LastWrite` (`get_putIfNewer`). -/

namespace Diynamo.Store.RocksDb

open Diynamo.Lib.LastWrite Diynamo.Lib.Ordered Diynamo.Lib.Utf8

/-- A stored value with the timestamp of the write that produced it. -/
@[ext] structure VersionedValue where
  timestamp : ℕ
  data : Bytes
deriving DecidableEq, Repr

structure RocksDbStore where
  db : OrdMap Bytes VersionedValue

namespace RocksDbStore

/-- A new, empty database. -/
def empty : RocksDbStore := ⟨OrdMap.empty⟩

def get (s : RocksDbStore) (key : Bytes) : Option VersionedValue := s.db.get key

/-- The unconditional write; `nowMillis` is the reading of the store's clock. -/
def put (s : RocksDbStore) (key value : Bytes) (nowMillis : ℕ) : RocksDbStore :=
  ⟨s.db.put key ⟨nowMillis, value⟩⟩

/-- The check of `putIfNewer`: the stored entry is at least as fresh, do not overwrite. -/
def isFresh (s : RocksDbStore) (key : Bytes) (timestamp : ℕ) : Bool :=
  match s.db.get key with
  | some current => timestamp ≤ current.timestamp
  | none => false

/-- The write of `putIfNewer`. -/
def write (s : RocksDbStore) (key value : Bytes) (timestamp : ℕ) : RocksDbStore :=
  ⟨s.db.put key ⟨timestamp, value⟩⟩

/-- **Write only above the stored timestamp.** -/
def putIfNewer (s : RocksDbStore) (key value : Bytes) (timestamp : ℕ) : RocksDbStore :=
  if s.isFresh key timestamp then s else s.write key value timestamp

/-- Every key with its value, in key order. -/
def iterAll (s : RocksDbStore) : List (Bytes × VersionedValue) := s.db.entries

/-- Delete every key in the store. -/
def clearAll (s : RocksDbStore) : RocksDbStore :=
  ⟨(s.iterAll.map Prod.fst).foldl OrdMap.delete s.db⟩

@[simp] theorem get_empty (key : Bytes) : empty.get key = none := rfl

theorem get_write (s : RocksDbStore) (key value : Bytes) (timestamp : ℕ) (j : Bytes) :
    (s.write key value timestamp).get j =
      if j = key then some ⟨timestamp, value⟩ else s.get j := by
  split_ifs with h
  · rw [h]; exact OrdMap.get_put_self _ _ _
  · exact OrdMap.get_put_of_ne _ _ h

theorem mem_iterAll {s : RocksDbStore} {key : Bytes} {v : VersionedValue} :
    (key, v) ∈ s.iterAll ↔ s.get key = some v :=
  OrdMap.mem_entries

/-- **Nothing is left.** -/
theorem get_clearAll (s : RocksDbStore) (j : Bytes) : s.clearAll.get j = none :=
  s.db.get_foldl_delete_entries j

theorem isFresh_iff {s : RocksDbStore} {key : Bytes} {timestamp : ℕ} :
    s.isFresh key timestamp = true ↔
      WithBot.some timestamp ≤ rank VersionedValue.timestamp (s.get key) := by
  unfold isFresh get
  cases s.db.get key with
  | none => simp
  | some current => simp

/-- **A key is a last-write-wins register**, and the other keys keep their value. -/
theorem get_putIfNewer (s : RocksDbStore) (key value : Bytes) (timestamp : ℕ) (j : Bytes) :
    (s.putIfNewer key value timestamp).get j =
      if j = key then absorb VersionedValue.timestamp (s.get key) ⟨timestamp, value⟩
      else s.get j := by
  unfold putIfNewer
  split_ifs with hf hj hj
  · rw [hj, absorb_of_le (isFresh_iff.mp hf)]
  · rfl
  · rw [get_write, if_pos hj, absorb_of_lt (not_le.mp fun h => hf (isFresh_iff.mpr h))]
  · rw [get_write, if_neg hj]

@[simp] theorem get_putIfNewer_self (s : RocksDbStore) (key value : Bytes) (timestamp : ℕ) :
    (s.putIfNewer key value timestamp).get key =
      absorb VersionedValue.timestamp (s.get key) ⟨timestamp, value⟩ := by
  rw [get_putIfNewer, if_pos rfl]

theorem get_putIfNewer_of_ne (s : RocksDbStore) {key j : Bytes} (value : Bytes) (timestamp : ℕ)
    (h : j ≠ key) : (s.putIfNewer key value timestamp).get j = s.get j := by
  rw [get_putIfNewer, if_neg h]

/-- The timestamp stored for a key, `⊥` if it is absent. -/
def stored (s : RocksDbStore) (key : Bytes) : WithBot ℕ := rank VersionedValue.timestamp (s.get key)

/-- The unconditional write takes the time of the clock, whatever is stored. -/
theorem stored_put (s : RocksDbStore) (key value : Bytes) (nowMillis : ℕ) :
    (s.put key value nowMillis).stored key = WithBot.some nowMillis := by
  rw [stored, get, put, OrdMap.get_put_self]
  rfl

/-- **No conditional write lowers a timestamp.** -/
theorem stored_le_putIfNewer (s : RocksDbStore) (key value : Bytes) (timestamp : ℕ) (j : Bytes) :
    s.stored j ≤ (s.putIfNewer key value timestamp).stored j := by
  unfold stored
  rw [get_putIfNewer]
  split_ifs with h
  · rw [h]; exact rank_le_absorb _ _
  · exact le_rfl

/-- The written timestamp is reached, whether the store took the write or declined it. -/
theorem le_stored_putIfNewer (s : RocksDbStore) (key value : Bytes) (timestamp : ℕ) :
    WithBot.some timestamp ≤ (s.putIfNewer key value timestamp).stored key := by
  unfold stored
  rw [get_putIfNewer_self]
  exact le_rank_absorb VersionedValue.timestamp _ ⟨timestamp, value⟩

/-- An entry after a conditional write was there before, or is the one written. -/
theorem get_putIfNewer_cases {s : RocksDbStore} {key value : Bytes} {timestamp : ℕ} {j : Bytes}
    {v : VersionedValue} (h : (s.putIfNewer key value timestamp).get j = some v) :
    s.get j = some v ∨ (j = key ∧ v = ⟨timestamp, value⟩) := by
  rw [get_putIfNewer] at h
  split_ifs at h with hj
  · rcases absorb_cases VersionedValue.timestamp (s.get key) ⟨timestamp, value⟩ with
      ⟨-, e⟩ | ⟨-, e⟩
    · rw [e] at h
      exact Or.inl (hj ▸ h)
    · rw [e] at h
      exact Or.inr ⟨hj, (Option.some.inj h).symm⟩
  · exact Or.inl h

/-- Every key keeps its entry, or has one with a larger timestamp. -/
def Advances (s s' : RocksDbStore) : Prop := ∀ j, s'.get j = s.get j ∨ s.stored j < s'.stored j

theorem Advances.refl (s : RocksDbStore) : Advances s s := fun _ => Or.inl rfl

theorem Advances.stored_le {s s' : RocksDbStore} (h : Advances s s') (j : Bytes) :
    s.stored j ≤ s'.stored j := by
  rcases h j with he | hlt
  · unfold stored; rw [he]
  · exact hlt.le

theorem Advances.trans {s s' s'' : RocksDbStore} (h : Advances s s') (h' : Advances s' s'') :
    Advances s s'' := by
  intro j
  rcases h' j with he | hlt
  · rcases h j with he' | hlt'
    · exact Or.inl (he.trans he')
    · right
      unfold stored at hlt' ⊢
      rwa [he]
  · exact Or.inr ((h.stored_le j).trans_lt hlt)

/-- Data changes only with the timestamp. -/
theorem Advances.get_eq {s s' : RocksDbStore} (h : Advances s s') {j : Bytes}
    (he : s'.stored j = s.stored j) : s'.get j = s.get j :=
  (h j).resolve_right he.not_gt

/-- **A conditional write advances the store.** -/
theorem advances_putIfNewer (s : RocksDbStore) (key value : Bytes) (timestamp : ℕ) :
    Advances s (s.putIfNewer key value timestamp) := by
  intro j
  unfold stored
  rw [get_putIfNewer]
  split_ifs with hj
  · subst hj
    rcases absorb_cases VersionedValue.timestamp (s.get j) ⟨timestamp, value⟩ with
      ⟨-, e⟩ | ⟨hlt, e⟩
    · exact Or.inl e
    · right
      rw [e]
      exact hlt
  · exact Or.inl rfl

end RocksDbStore

end Diynamo.Store.RocksDb
