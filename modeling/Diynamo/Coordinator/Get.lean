import Diynamo.Store.RocksDb

/-! # Quorum reads

`get` collects the answers of the preferred nodes that respond, in the order in which they complete,
and returns the last one of the largest timestamp. The responders that lack the key or hold a
strictly smaller timestamp are sent the returned version (`repairs`). Responders are known by the
base URL they were asked under; here they are of any type. -/

namespace Diynamo.Coordinator.Get

open Diynamo.Lib.LastWrite Diynamo.Lib.Utf8 Diynamo.Store.RocksDb

/-- A quorum of acks could not be reached. -/
structure QuorumFailed where
  acks : ℕ
  required : ℕ
deriving DecidableEq, Repr

variable {ρ : Type}

/-- **The winner**: the last response with the highest timestamp. -/
def winner (responses : List (ρ × Option VersionedValue)) : Option VersionedValue :=
  maxByKey VersionedValue.timestamp (responses.filterMap Prod.snd)

/-- A response that is missing or stale. -/
def needsRepair (winnerTs : ℕ) : Option VersionedValue → Bool
  | none => true
  | some v => v.timestamp < winnerTs

/-- The repairs, as the responder to write to and the version it is sent. -/
def repairs (responses : List (ρ × Option VersionedValue)) : List (ρ × VersionedValue) :=
  match winner responses with
  | none => []
  | some winnerVal =>
    (responses.filter fun x => needsRepair winnerVal.timestamp x.2).map fun x => (x.1, winnerVal)

/-- **`get`**, for the read quorum `r`: the value returned, and the repairs sent. -/
def get (r : ℕ) (responses : List (ρ × Option VersionedValue)) :
    Except QuorumFailed (Option VersionedValue × List (ρ × VersionedValue)) :=
  if responses.length < r then .error ⟨responses.length, r⟩
  else .ok (winner responses, repairs responses)

/-- The store of responder `x` once the repairs sent to it have arrived. -/
def afterRepairs [DecidableEq ρ] (key : Bytes) (sent : List (ρ × VersionedValue)) (x : ρ)
    (s : RocksDbStore) : RocksDbStore :=
  (sent.filter fun e => e.1 = x).foldl (fun s e => s.putIfNewer key e.2.data e.2.timestamp) s

theorem get_of_le {r : ℕ} {responses : List (ρ × Option VersionedValue)}
    (h : r ≤ responses.length) : get r responses = .ok (winner responses, repairs responses) :=
  if_neg (not_lt.mpr h)

theorem get_eq_ok {r : ℕ} {responses : List (ρ × Option VersionedValue)}
    {res : Option VersionedValue × List (ρ × VersionedValue)} :
    get r responses = .ok res ↔
      r ≤ responses.length ∧ res = (winner responses, repairs responses) := by
  unfold get
  split_ifs with h
  · simp [h]
  · simp [not_lt.mp h, eq_comm]

theorem needsRepair_iff {ts : ℕ} {o : Option VersionedValue} :
    needsRepair ts o = true ↔ rank VersionedValue.timestamp o < WithBot.some ts := by
  cases o with
  | none => simp [needsRepair]
  | some v => simp [needsRepair]

/-- **The repairs** carry the winner to the responders whose answer has a smaller timestamp. -/
theorem mem_repairs {responses : List (ρ × Option VersionedValue)} {x : ρ} {v : VersionedValue} :
    (x, v) ∈ repairs responses ↔ winner responses = some v ∧
      ∃ o, (x, o) ∈ responses ∧ rank VersionedValue.timestamp o < WithBot.some v.timestamp := by
  unfold repairs
  cases winner responses with
  | none => simp
  | some w =>
    simp only [List.mem_map, List.mem_filter, needsRepair_iff, Option.some.injEq, Prod.mk.injEq,
      Prod.exists]
    constructor
    · rintro ⟨y, o, ⟨hm, ho⟩, rfl, rfl⟩
      exact ⟨rfl, o, hm, ho⟩
    · rintro ⟨rfl, o, hm, ho⟩
      exact ⟨x, o, ⟨hm, ho⟩, rfl, rfl⟩

/-- The winner is one of the answers. -/
theorem winner_mem {responses : List (ρ × Option VersionedValue)} {v : VersionedValue}
    (h : winner responses = some v) : ∃ x, (x, some v) ∈ responses := by
  obtain ⟨⟨x, o⟩, hm, ho⟩ := List.mem_filterMap.mp (maxByKey_mem h)
  obtain rfl : o = some v := ho
  exact ⟨x, hm⟩

/-- **No answer is above the winner.** -/
theorem rank_le_winner {responses : List (ρ × Option VersionedValue)} {x : ρ}
    {o : Option VersionedValue} (h : (x, o) ∈ responses) :
    rank VersionedValue.timestamp o ≤ rank VersionedValue.timestamp (winner responses) := by
  cases o with
  | none => exact bot_le
  | some v =>
    have hv : v ∈ responses.filterMap Prod.snd := List.mem_filterMap.mpr ⟨_, h, rfl⟩
    cases hw : winner responses with
    | none =>
      rw [maxByKey_eq_none.mp hw] at hv
      cases hv
    | some w => exact WithBot.coe_le_coe.mpr (le_maxByKey hw hv)

/-- If all answers are the same, so is the winner. -/
theorem winner_eq_of_forall {responses : List (ρ × Option VersionedValue)}
    {o : Option VersionedValue} (hne : responses ≠ []) (h : ∀ x ∈ responses, x.2 = o) :
    winner responses = o := by
  cases o with
  | none =>
    refine maxByKey_eq_none.mpr (List.eq_nil_iff_forall_not_mem.mpr fun v hv => ?_)
    obtain ⟨x, hx, hxv⟩ := List.mem_filterMap.mp hv
    rw [h x hx] at hxv
    cases hxv
  | some v =>
    refine maxByKey_eq_of_forall ?_ fun w hw => ?_
    · obtain ⟨x, hx⟩ := List.exists_mem_of_ne_nil _ hne
      exact List.ne_nil_of_mem (List.mem_filterMap.mpr ⟨x, hx, h x hx⟩)
    · obtain ⟨x, hx, hxw⟩ := List.mem_filterMap.mp hw
      rw [h x hx] at hxw
      exact (Option.some.inj hxw).symm

/-- An answer that every other answer is below, or equal to, is the winner. -/
theorem winner_eq_of_newest {responses : List (ρ × Option VersionedValue)} {x : ρ}
    {v : VersionedValue} (hv : (x, some v) ∈ responses)
    (hmax : ∀ y w, (y, some w) ∈ responses → w = v ∨ w.timestamp < v.timestamp) :
    winner responses = some v := by
  have hle := rank_le_winner hv
  cases hw : winner responses with
  | none => rw [hw] at hle; simp at hle
  | some w =>
    rw [hw, rank_some, rank_some, WithBot.coe_le_coe] at hle
    obtain ⟨y, hy⟩ := winner_mem hw
    rcases hmax y w hy with rfl | hlt
    · rfl
    · exact absurd hle (not_le.mpr hlt)

/-- What a responder is sent is the winner. -/
theorem winner_of_mem_sent [DecidableEq ρ] {responses : List (ρ × Option VersionedValue)} {x : ρ}
    {v : VersionedValue}
    (h : v ∈ ((repairs responses).filter fun e => e.1 = x).map Prod.snd) :
    winner responses = some v := by
  obtain ⟨⟨y, w⟩, hyw, rfl⟩ := List.mem_map.mp h
  have hrep : (y, w) ∈ repairs responses := (List.mem_filter.mp hyw).1
  exact (mem_repairs.mp hrep).1

/-- At the responder, the repairs are offered to the register of the key. -/
theorem get_afterRepairs [DecidableEq ρ] (key : Bytes) (sent : List (ρ × VersionedValue)) (x : ρ)
    (s : RocksDbStore) : (afterRepairs key sent x s).get key =
      absorbAll VersionedValue.timestamp (s.get key)
        ((sent.filter fun e => e.1 = x).map Prod.snd) := by
  unfold afterRepairs
  induction sent.filter fun e => e.1 = x generalizing s with
  | nil => rfl
  | cons e l ih =>
    rw [List.foldl_cons, ih, RocksDbStore.get_putIfNewer_self, List.map_cons]
    rfl

end Diynamo.Coordinator.Get
