import Diynamo.Coordinator.Get
import Diynamo.Store.Hints
import Mathlib.Data.List.MinMax

/-! # Convergence of the replicas of a key

Every write of a key reaches every preferred replica at least once, in any order and any number of
times, among the writes of other keys. The replicas then agree on the timestamp, which is the
largest one written, and on the version if only one version carries that timestamp (`converges`). Of
two versions with the same timestamp a replica keeps the first to arrive, so two coordinators that
read the same millisecond can leave the replicas apart (`same_millisecond_diverges`), and as a
repair needs a strictly smaller timestamp, no read heals them. -/

namespace Diynamo.Coordinator.Convergence

open Diynamo.Lib.LastWrite Diynamo.Lib.Utf8 Diynamo.Store.RocksDb Diynamo.Store.Hints
  Diynamo.Coordinator.Get

/-- A versioned write that arrives at a replica. -/
structure WriteCall where
  key : Bytes
  value : Bytes
  timestamp : ℕ
deriving DecidableEq, Repr

/-- The store after the conditional writes of a list, in order. -/
def applyAll (s : RocksDbStore) (calls : List WriteCall) : RocksDbStore :=
  calls.foldl (fun s c => s.putIfNewer c.key c.value c.timestamp) s

theorem applyAll_concat (s : RocksDbStore) (calls : List WriteCall) (c : WriteCall) :
    applyAll s (calls ++ [c]) = (applyAll s calls).putIfNewer c.key c.value c.timestamp := by
  simp only [applyAll, List.foldl_append, List.foldl_cons, List.foldl_nil]

/-- The versions of a key in a list of writes, in order. -/
def versionsOf (key : Bytes) (calls : List WriteCall) : List VersionedValue :=
  (calls.filter fun c => c.key = key).map fun c => ⟨c.timestamp, c.value⟩

/-- **On one key** the writes of the other keys do not matter. -/
theorem get_applyAll (key : Bytes) : ∀ (calls : List WriteCall) (s : RocksDbStore),
    (applyAll s calls).get key =
      absorbAll VersionedValue.timestamp (s.get key) (versionsOf key calls)
  | [], _ => rfl
  | c :: calls, s => by
    rw [applyAll, List.foldl_cons, ← applyAll, get_applyAll key calls, RocksDbStore.get_putIfNewer]
    unfold versionsOf
    by_cases h : key = c.key
    · rw [if_pos h, List.filter_cons_of_pos (by simp [h]), List.map_cons, absorbAll, absorbAll,
        List.foldl_cons, h]
    · rw [if_neg h, List.filter_cons_of_neg (by simpa using Ne.symm h)]

/-- The replication of one key: the versions written, the preferred replicas, their stores before,
and the writes that arrive at each. The requests for the key carry it unchanged, so a get reads the
entries that the replicas themselves have of it. -/
structure Replication where
  key : Bytes
  writes : List VersionedValue
  pref : List NodeId
  before : NodeId → RocksDbStore
  calls : NodeId → List WriteCall

namespace Replication

variable (R : Replication)

/-- The store of a replica after its calls. -/
def after (x : NodeId) : RocksDbStore := applyAll (R.before x) (R.calls x)

/-- **Every write arrives everywhere**, and there are no others for the key. -/
structure Delivered : Prop where
  before_mem : ∀ x ∈ R.pref, ∀ v, (R.before x).get R.key = some v → v ∈ R.writes
  mem_iff : ∀ x ∈ R.pref, ∀ v, v ∈ versionsOf R.key (R.calls x) ↔ v ∈ R.writes

/-- What a replica may answer from now on: further copies of the writes may have arrived. -/
def Answers (x : NodeId) (o : Option VersionedValue) : Prop :=
  ∃ more, (∀ v ∈ versionsOf R.key more, v ∈ R.writes) ∧ o = (applyAll (R.after x) more).get R.key

/-- The responses of a get, from at least one preferred replica, in any order. -/
def Responses (responses : List (NodeId × Option VersionedValue)) : Prop :=
  responses ≠ [] ∧ ∀ a ∈ responses, a.1 ∈ R.pref ∧ R.Answers a.1 a.2

/-- **The replicas agree**, and every later get returns what they agree on. -/
def Converged : Prop :=
  ∃ o, (∀ x ∈ R.pref, (R.after x).get R.key = o) ∧
    ∀ r responses, R.Responses responses → r ≤ responses.length →
      ∃ sent, get r responses = .ok (o, sent)

/-- The largest timestamp written. -/
def highest : WithBot ℕ := (R.writes.map VersionedValue.timestamp).maximum

/-- No two versions carry the largest timestamp. -/
def HighestUnique : Prop :=
  ∀ v ∈ R.writes, ∀ w ∈ R.writes, WithBot.some v.timestamp = R.highest →
    w.timestamp = v.timestamp → w = v

instance : Decidable R.HighestUnique := by unfold HighestUnique; infer_instance

variable {R}

theorem le_highest {v : VersionedValue} (hv : v ∈ R.writes) :
    WithBot.some v.timestamp ≤ R.highest :=
  List.le_maximum_of_mem' (List.mem_map_of_mem hv)

theorem highest_le {r : WithBot ℕ} (h : ∀ v ∈ R.writes, WithBot.some v.timestamp ≤ r) :
    R.highest ≤ r := by
  refine List.maximum_le_of_forall_le fun t ht => ?_
  obtain ⟨v, hv, rfl⟩ := List.mem_map.mp ht
  exact h v hv

/-- A register to which the writes, and nothing else, were offered. -/
theorem mem_writes_of_absorbAll {cur : Option VersionedValue} {vs : List VersionedValue}
    {v : VersionedValue} (hcur : ∀ v, cur = some v → v ∈ R.writes) (hvs : ∀ v ∈ vs, v ∈ R.writes)
    (h : absorbAll VersionedValue.timestamp cur vs = some v) : v ∈ R.writes :=
  (absorbAll_mem h).elim (hcur v) (hvs v)

theorem mem_writes_of_after (h : R.Delivered) {x : NodeId} (hx : x ∈ R.pref) {v : VersionedValue}
    (hv : (R.after x).get R.key = some v) : v ∈ R.writes := by
  rw [after, get_applyAll] at hv
  exact mem_writes_of_absorbAll (h.before_mem x hx) (fun w => (h.mem_iff x hx w).mp) hv

/-- **The timestamps agree.** -/
theorem stored_after (h : R.Delivered) {x : NodeId} (hx : x ∈ R.pref) :
    (R.after x).stored R.key = R.highest := by
  unfold RocksDbStore.stored
  refine le_antisymm ?_ (highest_le fun v hv => ?_)
  · cases hv : (R.after x).get R.key with
    | none => exact bot_le
    | some v => exact le_highest (mem_writes_of_after h hx hv)
  · rw [after, get_applyAll]
    exact rank_absorbAll.2 v ((h.mem_iff x hx v).mpr hv)

/-- Further copies change nothing: every answer is what the replica holds now. -/
theorem answer_eq (h : R.Delivered) {x : NodeId} (hx : x ∈ R.pref) {o : Option VersionedValue}
    (ho : R.Answers x o) : o = (R.after x).get R.key := by
  obtain ⟨more, hmore, rfl⟩ := ho
  rw [get_applyAll]
  refine absorbAll_of_le fun v hv => ?_
  calc WithBot.some v.timestamp ≤ R.highest := le_highest (hmore v hv)
    _ = rank VersionedValue.timestamp ((R.after x).get R.key) := (stored_after h hx).symm

/-- With a unique newest version, every replica holds it. -/
theorem after_eq_of_highestUnique (h : R.Delivered) (hu : R.HighestUnique) {x y : NodeId}
    (hx : x ∈ R.pref) (hy : y ∈ R.pref) : (R.after x).get R.key = (R.after y).get R.key := by
  have hsx := stored_after h hx
  have hsy := stored_after h hy
  unfold RocksDbStore.stored at hsx hsy
  cases hv : (R.after x).get R.key with
  | none =>
    cases hw : (R.after y).get R.key with
    | none => rfl
    | some w => rw [hv] at hsx; rw [hw, ← hsx] at hsy; simp at hsy
  | some v =>
    cases hw : (R.after y).get R.key with
    | none => rw [hw] at hsy; rw [hv, ← hsy] at hsx; simp at hsx
    | some w =>
      rw [hv, rank_some] at hsx
      rw [hw, rank_some, ← hsx, WithBot.coe_inj] at hsy
      rw [hu v (mem_writes_of_after h hx hv) w (mem_writes_of_after h hy hw) hsx hsy]

theorem converged_of_highestUnique (h : R.Delivered) (hu : R.HighestUnique) : R.Converged := by
  have key : ∃ o, ∀ x ∈ R.pref, (R.after x).get R.key = o := by
    cases hp : R.pref with
    | nil => exact ⟨none, fun x hx => by cases hx⟩
    | cons y ys =>
      have hy : y ∈ R.pref := by rw [hp]; exact List.mem_cons_self
      exact ⟨_, fun x hx => after_eq_of_highestUnique h hu (by rw [hp]; exact hx) hy⟩
  obtain ⟨o, ho⟩ := key
  refine ⟨o, ho, fun r responses hr hle => ⟨repairs responses, ?_⟩⟩
  rw [get_of_le hle, winner_eq_of_forall hr.1 fun a ha => ?_]
  rw [answer_eq h (hr.2 a ha).1 (hr.2 a ha).2, ho _ (hr.2 a ha).1]

/-- **Convergence.** After every write has arrived everywhere, the replicas agree on the timestamp,
every later get that hears from a replica returns a version written with it and repairs nobody, and
if only one version carries the largest timestamp, the replicas and all later gets agree on it. -/
theorem converges (h : R.Delivered) :
    (∀ x ∈ R.pref, (R.after x).stored R.key = R.highest) ∧
    (∀ r responses, R.Responses responses → r ≤ responses.length →
      ∃ o, get r responses = .ok (o, []) ∧ rank VersionedValue.timestamp o = R.highest ∧
        ∀ v, o = some v → v ∈ R.writes) ∧
    (R.HighestUnique → R.Converged) := by
  refine ⟨fun x hx => stored_after h hx, fun r responses hr hle => ?_,
    converged_of_highestUnique h⟩
  have hrank : ∀ a ∈ responses, rank VersionedValue.timestamp a.2 = R.highest := fun a ha => by
    rw [answer_eq h (hr.2 a ha).1 (hr.2 a ha).2]
    exact stored_after h (hr.2 a ha).1
  have hmem : ∀ v, winner responses = some v → v ∈ R.writes := fun v hv => by
    obtain ⟨x, hx⟩ := winner_mem hv
    exact mem_writes_of_after h (hr.2 _ hx).1 (answer_eq h (hr.2 _ hx).1 (hr.2 _ hx).2).symm
  have hwin : rank VersionedValue.timestamp (winner responses) = R.highest := by
    refine le_antisymm ?_ ?_
    · cases hw : winner responses with
      | none => exact bot_le
      | some v => exact le_highest (hmem v hw)
    · obtain ⟨a, ha⟩ := List.exists_mem_of_ne_nil _ hr.1
      rw [← hrank a ha]
      exact rank_le_winner ha
  have hnone : repairs responses = [] := by
    refine List.eq_nil_iff_forall_not_mem.mpr fun ⟨x, v⟩ hx => ?_
    obtain ⟨hw, o, ho, hlt⟩ := mem_repairs.mp hx
    rw [hrank _ ho, ← hwin, hw, rank_some] at hlt
    exact lt_irrefl _ hlt
  exact ⟨winner responses, by rw [get_of_le hle, hnone], hwin, hmem⟩

/-- Two versions arrive in opposite orders at two replicas, and once more at one of them. -/
def twoVersions (ts ts' : ℕ) : Replication where
  key := [107]
  writes := [⟨ts, [1]⟩, ⟨ts', [2]⟩]
  pref := ["a", "b"]
  before := fun _ => RocksDbStore.empty
  calls := fun x =>
    if x = "a" then [⟨[107], [1], ts⟩, ⟨[107], [2], ts'⟩]
    else [⟨[107], [2], ts'⟩, ⟨[108], [3], 500⟩, ⟨[107], [1], ts⟩, ⟨[107], [2], ts'⟩]

theorem delivered_twoVersions (ts ts' : ℕ) : (twoVersions ts ts').Delivered where
  before_mem := fun _ _ _ hv => by cases hv
  mem_iff := fun x _ v => by
    by_cases hx : x = "a"
    · simp [twoVersions, versionsOf, hx]
    · simp [twoVersions, versionsOf, hx]
      exact Or.inr

/-- With different timestamps the two replicas end with the later version. -/
theorem converges_twoVersions :
    (∀ x ∈ ["a", "b"], ((twoVersions 100 200).after x).stored [107] = WithBot.some 200) ∧
      (twoVersions 100 200).Converged := by
  obtain ⟨h1, -, h2⟩ := converges (delivered_twoVersions 100 200)
  exact ⟨h1, h2 (by decide)⟩

/-- **Two writes of the same millisecond** leave the replicas apart, although both reached both
replicas; and with `r = 0` a get that nobody answers returns none of the versions. -/
theorem same_millisecond_diverges :
    (twoVersions 100 100).Delivered ∧ ¬ (twoVersions 100 100).Converged ∧
      get 0 ([] : List (NodeId × Option VersionedValue)) = .ok (none, []) := by
  refine ⟨delivered_twoVersions 100 100, ?_, rfl⟩
  rintro ⟨o, ho, -⟩
  have ha := ho "a" (by decide)
  have hb := ho "b" (by decide)
  exact absurd (ha.trans hb.symm) (by decide)

end Replication

end Diynamo.Coordinator.Convergence
