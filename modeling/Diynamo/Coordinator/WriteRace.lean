import Diynamo.Coordinator.Get
import Diynamo.Lib.Run
import Diynamo.Store.Hints

/-! # The window between the check and the write of `put_if_newer`

`put_if_newer` first reads the stored entry and then writes, without a transaction, so calls that
run at the same time on one store can interleave between the two steps. Several puts of one key with
distinct timestamps race on every preferred replica, and all of them finish with `Ok`.

On a replica, the newest version is overwritten exactly if another call is between its check and its
write at the moment when the newest version is written (`replica_cases`). The puts are healed, that
is, a read of all replicas returns the newest version and repairs the rest, exactly if on one
replica no other call is in its window at that moment, and no replica held something newer before
(`healed_iff`). Otherwise an acknowledged write can be lost on every replica at once, and there is
nothing left for a read to repair (`newest_lost_everywhere`). -/

namespace Diynamo.Coordinator.WriteRace

open Diynamo.Lib.LastWrite Diynamo.Lib.Run Diynamo.Lib.Utf8 Diynamo.Store.RocksDb
  Diynamo.Store.Hints
  Diynamo.Coordinator.Get

/-- A replica with its calls of `put_if_newer`: those that have not started, and those that have
passed the check and not yet written. -/
structure Replica where
  store : RocksDbStore
  waiting : List VersionedValue
  checked : List VersionedValue

inductive Act where
  /-- the `db.get` of a call, and its return if the stored entry is at least as fresh -/
  | check (v : VersionedValue)
  /-- the `db.put` of a call -/
  | write (v : VersionedValue)
deriving DecidableEq

/-- **One step** on a replica, for the key of the puts. -/
def step (key : Bytes) (s : Replica) : Act → Option Replica
  | .check v =>
    if v ∈ s.waiting then
      if s.store.isFresh key v.timestamp then some { s with waiting := s.waiting.erase v }
      else some { s with waiting := s.waiting.erase v, checked := v :: s.checked }
    else none
  | .write v =>
    if v ∈ s.checked then
      some { s with store := s.store.write key v.data v.timestamp, checked := s.checked.erase v }
    else none

/-- A replica before the calls. -/
def start (store : RocksDbStore) (puts : List VersionedValue) : Replica := ⟨store, puts, []⟩

/-- When the version `v` is written, no other call is between its check and its write. -/
def WritesAlone (v : VersionedValue) (s : Replica) (a : Act) : Prop :=
  a = .write v → s.checked = [v]

instance (v : VersionedValue) (s : Replica) (a : Act) : Decidable (WritesAlone v s a) := by
  unfold WritesAlone; infer_instance

/-- **What a step does.** -/
theorem step_cases {key : Bytes} {s s' : Replica} {a : Act} (h : step key s a = some s') :
    (∃ v ∈ s.waiting, a = .check v ∧
      WithBot.some v.timestamp ≤ rank VersionedValue.timestamp (s.store.get key) ∧
      s' = { s with waiting := s.waiting.erase v }) ∨
    (∃ v ∈ s.waiting, a = .check v ∧
      rank VersionedValue.timestamp (s.store.get key) < WithBot.some v.timestamp ∧
      s' = { s with waiting := s.waiting.erase v, checked := v :: s.checked }) ∨
    (∃ v ∈ s.checked, a = .write v ∧
      s' = { s with
        store := s.store.write key v.data v.timestamp
        checked := s.checked.erase v }) := by
  cases a with
  | check v =>
    simp only [step] at h
    split_ifs at h with hw hf
    · exact Or.inl ⟨v, hw, rfl, RocksDbStore.isFresh_iff.mp hf, (Option.some.inj h).symm⟩
    · refine Or.inr (Or.inl ⟨v, hw, rfl, ?_, (Option.some.inj h).symm⟩)
      exact not_le.mp fun hle => hf (RocksDbStore.isFresh_iff.mpr hle)
  | write v =>
    simp only [step] at h
    split_ifs at h with hw
    exact Or.inr (Or.inr ⟨v, hw, rfl, (Option.some.inj h).symm⟩)

theorem get_written (s : RocksDbStore) (key : Bytes) (v : VersionedValue) :
    (s.write key v.data v.timestamp).get key = some v := by
  rw [RocksDbStore.get_write, if_pos rfl]

/-! ### One replica -/

variable {key : Bytes} {v : VersionedValue}

/-- The stored entry stays: no call is in its window, and none that waits is newer. -/
def Kept (key : Bytes) (e : VersionedValue) (s : Replica) : Prop :=
  s.store.get key = some e ∧ s.checked = [] ∧ ∀ w ∈ s.waiting, w.timestamp ≤ e.timestamp

theorem kept_step {e : VersionedValue} {s s' : Replica} {a : Act} (hk : Kept key e s)
    (h : step key s a = some s') : WritesAlone v s a ∧ Kept key e s' := by
  obtain ⟨he, hc, hw⟩ := hk
  rcases step_cases h with ⟨w, hm, rfl, -, rfl⟩ | ⟨w, hm, rfl, hlt, rfl⟩ | ⟨w, hm, rfl, rfl⟩
  · exact ⟨nofun, he, hc, fun u hu => hw u (List.mem_of_mem_erase hu)⟩
  · rw [he, rank_some, WithBot.coe_lt_coe] at hlt
    exact absurd (hw w hm) (not_le.mpr hlt)
  · simp [hc] at hm

theorem kept_run {e : VersionedValue} {acts : List Act} {s s' : Replica} (hk : Kept key e s)
    (hr : run (step key) acts s = some s') :
    Along (step key) (WritesAlone v) acts s ∧ s'.store.get key = some e := by
  have hI : ∀ s a s', Kept key e s → step key s a = some s' → WritesAlone v s a ∧ Kept key e s' :=
    fun _ _ _ hk h => kept_step hk h
  exact ⟨along_of_run (C := fun _ => True) (fun s a s' hk _ h => hI s a s' hk h)
    (fun _ _ => trivial) hr hk, (run_invariant (fun s a s' hk h => (hI s a s' hk h).2) hr hk).1⟩

/-- The newest version was written, but is overwritten already or will be. -/
def Doomed (key : Bytes) (v : VersionedValue) (s : Replica) : Prop :=
  (∀ w ∈ s.waiting ++ s.checked, w.timestamp < v.timestamp) ∧
    (s.checked = [] → rank VersionedValue.timestamp (s.store.get key) < WithBot.some v.timestamp)

theorem doomed_step {s s' : Replica} {a : Act} (hd : Doomed key v s)
    (h : step key s a = some s') : Doomed key v s' := by
  obtain ⟨hw, hc⟩ := hd
  simp only [List.mem_append] at hw
  rcases step_cases h with ⟨w, hm, rfl, -, rfl⟩ | ⟨w, hm, rfl, hlt, rfl⟩ | ⟨w, hm, rfl, rfl⟩
  · refine ⟨fun u hu => ?_, hc⟩
    rcases List.mem_append.mp hu with hu | hu
    · exact hw u (Or.inl (List.mem_of_mem_erase hu))
    · exact hw u (Or.inr hu)
  · refine ⟨fun u hu => ?_, nofun⟩
    rcases List.mem_append.mp hu with hu | hu
    · exact hw u (Or.inl (List.mem_of_mem_erase hu))
    · rcases List.mem_cons.mp hu with rfl | hu
      · exact hw _ (Or.inl hm)
      · exact hw u (Or.inr hu)
  · refine ⟨fun u hu => ?_, fun _ => ?_⟩
    · rcases List.mem_append.mp hu with hu | hu
      · exact hw u (Or.inl hu)
      · exact hw u (Or.inr (List.mem_of_mem_erase hu))
    · dsimp only
      rw [get_written, rank_some, WithBot.coe_lt_coe]
      exact hw w (Or.inr hm)

theorem doomed_run {acts : List Act} {s : Replica} {fin : RocksDbStore} (hd : Doomed key v s)
    (hr : run (step key) acts s = some ⟨fin, [], []⟩) :
    rank VersionedValue.timestamp (fin.get key) < WithBot.some v.timestamp :=
  (run_invariant (fun _ _ _ hd h => doomed_step hd h) hr hd).2 rfl

/-- The newest version still has to be written. -/
structure Before (key : Bytes) (v : VersionedValue) (s : Replica) : Prop where
  older : rank VersionedValue.timestamp (s.store.get key) < WithBot.some v.timestamp
  mem : v ∈ s.waiting ++ s.checked
  nodup : (s.waiting ++ s.checked).Nodup
  newest : ∀ w ∈ s.waiting ++ s.checked, w ≠ v → w.timestamp < v.timestamp

/-- **A step before the newest version is written**: it still has to be, or it is written now, alone
or not. -/
theorem before_step {s s' : Replica} {a : Act} (hb : Before key v s) (h : step key s a = some s') :
    (WritesAlone v s a ∧ (Before key v s' ∨ Kept key v s')) ∨
      (¬ WritesAlone v s a ∧ Doomed key v s') := by
  obtain ⟨hold, hmem, hnd, hnew⟩ := hb
  rcases step_cases h with ⟨w, hm, rfl, hle, rfl⟩ | ⟨w, hm, rfl, hlt, rfl⟩ | ⟨w, hm, rfl, rfl⟩
  · -- a declined call is not the newest one
    have hne : v ≠ w := by
      rintro rfl
      exact absurd hle (not_le.mpr hold)
    have hsub : (s.waiting.erase w ++ s.checked).Sublist (s.waiting ++ s.checked) :=
      List.erase_sublist.append_right _
    refine Or.inl ⟨nofun, Or.inl ⟨hold, ?_, hnd.sublist hsub, fun u hu =>
      hnew u (hsub.subset hu)⟩⟩
    rcases List.mem_append.mp hmem with hv | hv
    · exact List.mem_append_left _ ((List.mem_erase_of_ne hne).mpr hv)
    · exact List.mem_append_right _ hv
  · have hperm : (s.waiting.erase w ++ w :: s.checked).Perm (s.waiting ++ s.checked) :=
      List.perm_middle.trans ((List.perm_cons_erase hm).symm.append_right s.checked)
    exact Or.inl ⟨nofun, Or.inl ⟨hold, hperm.mem_iff.mpr hmem,
      hperm.nodup_iff.mpr hnd, fun u hu => hnew u (hperm.mem_iff.mp hu)⟩⟩
  · have hsub : (s.waiting ++ s.checked.erase w).Sublist (s.waiting ++ s.checked) :=
      List.erase_sublist.append_left _
    have hnd' : (s.waiting ++ s.checked.erase w).Nodup := hnd.sublist hsub
    by_cases hwv : w = v
    · subst hwv
      -- the newest version is written
      obtain ⟨-, hcnd, hdisj⟩ := List.nodup_append.mp hnd
      have hw : w ∉ s.waiting ++ s.checked.erase w := fun hmem => by
        rcases List.mem_append.mp hmem with hw | hw
        · exact hdisj w hw w hm rfl
        · exact hcnd.not_mem_erase hw
      have hnw : ∀ u ∈ s.waiting ++ s.checked.erase w, u.timestamp < w.timestamp := fun u hu =>
        hnew u (hsub.subset hu) fun he => hw (he ▸ hu)
      by_cases hc : s.checked.erase w = []
      · have halone : s.checked = [w] := by
          have hperm := List.perm_cons_erase hm
          rw [hc] at hperm
          exact List.perm_singleton.mp hperm
        exact Or.inl ⟨fun _ => halone, Or.inr ⟨get_written _ _ _, hc, fun u hu =>
          (hnw u (List.mem_append_left _ hu)).le⟩⟩
      · refine Or.inr ⟨fun h => ?_, hnw, fun h => absurd h hc⟩
        rw [h rfl] at hc
        exact hc (by simp)
    · refine Or.inl ⟨fun h => absurd (Act.write.inj h) hwv, Or.inl ⟨?_, ?_, hnd',
        fun u hu => hnew u (hsub.subset hu)⟩⟩
      · dsimp only
        rw [get_written, rank_some, WithBot.coe_lt_coe]
        exact hnew w (List.mem_append_right _ hm) hwv
      · rcases List.mem_append.mp hmem with hv | hv
        · exact List.mem_append_left _ hv
        · exact List.mem_append_right _ ((List.mem_erase_of_ne (Ne.symm hwv)).mpr hv)

theorem before_run : ∀ {acts : List Act} {s : Replica} {fin : RocksDbStore}, Before key v s →
    run (step key) acts s = some ⟨fin, [], []⟩ →
    (Along (step key) (WritesAlone v) acts s ∧ fin.get key = some v) ∨
      (¬ Along (step key) (WritesAlone v) acts s ∧
        rank VersionedValue.timestamp (fin.get key) < WithBot.some v.timestamp)
  | [], s, fin, hb, hr => by
    have := hb.mem
    rw [Option.some.inj hr] at this
    cases this
  | a :: acts, s, fin, hb, hr => by
    obtain ⟨s1, h1, hr1⟩ := run_cons_eq_some.mp hr
    have hstep : ∀ {G}, G s a → (Along (step key) G (a :: acts) s ↔ Along (step key) G acts s1) :=
      fun hG => ⟨fun h => h.2 s1 h1, fun h => ⟨hG, fun s2 h2 => by
        rwa [← Option.some.inj (h1.symm.trans h2)]⟩⟩
    rcases before_step hb h1 with ⟨hG, hb1 | hk⟩ | ⟨hG, hd⟩
    · rw [hstep hG]
      exact before_run hb1 hr1
    · rw [hstep hG]
      exact Or.inl (kept_run hk hr1)
    · exact Or.inr ⟨fun h => hG h.1, doomed_run hd hr1⟩

/-- **One replica.** An entry that is at least as new as all puts stays. Otherwise the newest
version ends in the store exactly if it is written alone, and an older one does if not. -/
theorem replica_cases {puts : List VersionedValue} {acts : List Act} {store fin : RocksDbStore}
    (hd : (puts.map VersionedValue.timestamp).Nodup) (hv : v ∈ puts)
    (hmax : ∀ w ∈ puts, w.timestamp ≤ v.timestamp)
    (hr : run (step key) acts (start store puts) = some ⟨fin, [], []⟩) :
    (Along (step key) (WritesAlone v) acts (start store puts) ∧
      (WithBot.some v.timestamp ≤ rank VersionedValue.timestamp (store.get key) ∧
        fin.get key = store.get key ∨
      rank VersionedValue.timestamp (store.get key) < WithBot.some v.timestamp ∧
        fin.get key = some v)) ∨
    (¬ Along (step key) (WritesAlone v) acts (start store puts) ∧
      rank VersionedValue.timestamp (store.get key) < WithBot.some v.timestamp ∧
      rank VersionedValue.timestamp (fin.get key) < WithBot.some v.timestamp) := by
  rcases le_or_gt (WithBot.some v.timestamp) (rank VersionedValue.timestamp (store.get key)) with
    hle | hlt
  · cases he : store.get key with
    | none => rw [he] at hle; simp at hle
    | some e =>
      rw [he, rank_some, WithBot.coe_le_coe] at hle
      obtain ⟨hA, hfin⟩ := kept_run (v := v) (s := start store puts)
        ⟨he, rfl, fun w hw => (hmax w hw).trans hle⟩ hr
      exact Or.inl ⟨hA, Or.inl ⟨WithBot.coe_le_coe.mpr hle, hfin⟩⟩
  · have hb : Before key v (start store puts) := by
      refine ⟨hlt, by simpa [start] using hv, by simpa [start] using hd.of_map _, ?_⟩
      intro w hw hne
      rw [start, List.append_nil] at hw
      exact lt_of_le_of_ne (hmax w hw) fun h => hne (List.inj_on_of_nodup_map hd hw hv h)
    rcases before_run hb hr with ⟨hA, hfin⟩ | ⟨hA, hfin⟩
    · exact Or.inl ⟨hA, Or.inr ⟨hlt, hfin⟩⟩
    · exact Or.inr ⟨hA, hlt, hfin⟩

/-! ### All preferred replicas -/

/-- **Concurrent puts of one key**: their versions, and on every preferred replica the store before,
the schedule of the calls, and the store after all of them have finished. -/
structure Race where
  key : Bytes
  puts : List VersionedValue
  pref : List NodeId
  before : NodeId → RocksDbStore
  schedule : NodeId → List Act
  after : NodeId → RocksDbStore
  finished : ∀ x ∈ pref,
    run (step key) (schedule x) (start (before x) puts) = some ⟨after x, [], []⟩

namespace Race

variable (R : Race)

/-- The answers of all replicas to a read. -/
def answers : List (NodeId × Option VersionedValue) :=
  R.pref.map fun x => (x, (R.after x).get R.key)

/-- **Healed**: a replica stores the newest timestamp, and a get that hears from all replicas, in
any order, returns the newest version and its repairs bring every replica to it. -/
structure Healed (v : VersionedValue) : Prop where
  stored : ∃ x ∈ R.pref, ∃ w, (R.after x).get R.key = some w ∧ w.timestamp = v.timestamp
  read : ∀ responses : List (NodeId × Option VersionedValue), responses.Perm R.answers →
    ∀ r ≤ R.pref.length, ∃ sent, get r responses = .ok (some v, sent) ∧
      ∀ x ∈ R.pref, (afterRepairs R.key sent x (R.after x)).get R.key = some v

/-- No replica held something newer than the puts before. -/
def NothingNewer (v : VersionedValue) : Prop :=
  ∀ x ∈ R.pref, rank VersionedValue.timestamp ((R.before x).get R.key) < WithBot.some v.timestamp ∨
    (R.before x).get R.key = some v

/-- On some replica the newest version is written while no other call is in its window. -/
def WrittenAlone (v : VersionedValue) : Prop :=
  ∃ x ∈ R.pref, Along (step R.key) (WritesAlone v) (R.schedule x) (start (R.before x) R.puts)

variable {R} {v : VersionedValue}

theorem mem_answers {x : NodeId} {o : Option VersionedValue} :
    (x, o) ∈ R.answers ↔ x ∈ R.pref ∧ o = (R.after x).get R.key := by
  simp [answers, eq_comm]

/-- If a replica has the newest version and no other has anything as new, a read heals the rest. -/
theorem healed_of_after {x : NodeId} (hx : x ∈ R.pref) (hxv : (R.after x).get R.key = some v)
    (hall : ∀ y ∈ R.pref, (R.after y).get R.key = some v ∨
      rank VersionedValue.timestamp ((R.after y).get R.key) < WithBot.some v.timestamp) :
    R.Healed v := by
  refine ⟨⟨x, hx, v, hxv, rfl⟩, fun responses hperm r hr => ?_⟩
  have hmem : ∀ y o, (y, o) ∈ responses ↔ y ∈ R.pref ∧ o = (R.after y).get R.key := fun y o =>
    hperm.mem_iff.trans mem_answers
  have hwin : winner responses = some v := by
    refine winner_eq_of_newest ((hmem x _).mpr ⟨hx, hxv.symm⟩) fun y w hyw => ?_
    obtain ⟨hy, hw⟩ := (hmem y _).mp hyw
    rcases hall y hy with h | h
    · rw [h] at hw
      exact Or.inl (Option.some.inj hw)
    · rw [← hw, rank_some, WithBot.coe_lt_coe] at h
      exact Or.inr h
  have hlen : responses.length = R.pref.length := by rw [hperm.length_eq, answers, List.length_map]
  refine ⟨repairs responses, by rw [get_of_le (hr.trans hlen.ge), hwin], fun y hy => ?_⟩
  rw [get_afterRepairs]
  refine absorbAll_eq_of_newest ?_ ?_
  · rcases hall y hy with h | h
    · exact Or.inl h
    · refine Or.inr (List.mem_map.mpr ⟨(y, v), List.mem_filter.mpr ⟨?_, by simp⟩, rfl⟩)
      exact mem_repairs.mpr ⟨hwin, _, (hmem y _).mpr ⟨hy, rfl⟩, h⟩
  · rintro w (hw | hw)
    · rcases hall y hy with h | h
      · have hwv : w = v := Option.some.inj (hw.symm.trans h)
        rw [hwv]
        exact ⟨le_rfl, fun _ => rfl⟩
      · rw [hw, rank_some, WithBot.coe_lt_coe] at h
        exact ⟨h.le, fun he => absurd he h.ne⟩
    · have hwv : w = v := Option.some.inj ((winner_of_mem_sent hw).symm.trans hwin)
      rw [hwv]
      exact ⟨le_rfl, fun _ => rfl⟩

/-- A healed race began with nothing newer. -/
theorem nothingNewer_of_healed (hd : (R.puts.map VersionedValue.timestamp).Nodup) (hv : v ∈ R.puts)
    (hmax : ∀ w ∈ R.puts, w.timestamp ≤ v.timestamp) (h : R.Healed v) : R.NothingNewer v := by
  intro x hx
  rcases replica_cases hd hv hmax (R.finished x hx) with ⟨-, ⟨hle, hkept⟩ | ⟨hlt, -⟩⟩ | ⟨-, hlt, -⟩
  · -- the read repairs nothing here, so what the replica kept is the version returned
    obtain ⟨sent, hget, hrep⟩ := h.read R.answers (List.Perm.refl _) 0 (Nat.zero_le _)
    obtain ⟨hw, rfl⟩ := Prod.mk.inj (get_eq_ok.mp hget).2
    have hrx := hrep x hx
    rw [get_afterRepairs, absorbAll_of_le, hkept] at hrx
    · exact Or.inr hrx
    · intro w hwm
      have hwv : v = w := Option.some.inj (hw.trans (winner_of_mem_sent hwm))
      rw [← hwv, hkept]
      exact hle
  · exact Or.inl hlt
  · exact Or.inl hlt

/-- **When the window is healed.** Concurrent puts with distinct timestamps, of which `v` is the
newest, are healed exactly if no replica held something newer before, and on some replica no other
call is between its check and its write at the moment when `v` is written. -/
theorem healed_iff (hd : (R.puts.map VersionedValue.timestamp).Nodup) (hv : v ∈ R.puts)
    (hmax : ∀ w ∈ R.puts, w.timestamp ≤ v.timestamp) :
    R.Healed v ↔ R.NothingNewer v ∧ R.WrittenAlone v := by
  constructor
  · intro h
    refine ⟨nothingNewer_of_healed hd hv hmax h, ?_⟩
    obtain ⟨x, hx, w, hw, hwv⟩ := h.stored
    refine ⟨x, hx, ?_⟩
    rcases replica_cases hd hv hmax (R.finished x hx) with ⟨hA, -⟩ | ⟨-, -, hlt⟩
    · exact hA
    · rw [hw, rank_some, hwv] at hlt
      exact absurd hlt (lt_irrefl _)
  · rintro ⟨hn, x, hx, hA⟩
    have hkept : ∀ y ∈ R.pref, WithBot.some v.timestamp ≤
        rank VersionedValue.timestamp ((R.before y).get R.key) →
        (R.before y).get R.key = some v := fun y hy hle =>
      (hn y hy).resolve_left (not_lt.mpr hle)
    refine healed_of_after hx ?_ fun y hy => ?_
    · rcases replica_cases hd hv hmax (R.finished x hx) with ⟨-, ⟨hle, hk⟩ | ⟨-, hf⟩⟩ | ⟨hnA, -⟩
      · rw [hk, hkept x hx hle]
      · exact hf
      · exact absurd hA hnA
    · rcases replica_cases hd hv hmax (R.finished y hy) with ⟨-, ⟨hle, hk⟩ | ⟨-, hf⟩⟩ | ⟨-, -, hlt⟩
      · rw [hk, hkept y hy hle]; exact Or.inl rfl
      · exact Or.inl hf
      · exact Or.inr hlt

/-- Two puts whose windows overlap on the replicas outside `alone`, where the newer one is written
first. -/
def overlapping (alone : List NodeId) : Race where
  key := [107]
  puts := [⟨100, [1]⟩, ⟨200, [2]⟩]
  pref := ["a", "b", "c"]
  before := fun _ => RocksDbStore.empty
  schedule := fun x =>
    if x ∈ alone then [.check ⟨200, [2]⟩, .write ⟨200, [2]⟩, .check ⟨100, [1]⟩]
    else [.check ⟨100, [1]⟩, .check ⟨200, [2]⟩, .write ⟨200, [2]⟩, .write ⟨100, [1]⟩]
  after := fun x =>
    if x ∈ alone then RocksDbStore.empty.write [107] [2] 200
    else (RocksDbStore.empty.write [107] [2] 200).write [107] [1] 100
  finished := fun x _ => by split_ifs <;> rfl

/-- One replica without the overlap is enough. -/
theorem healed_by_one_replica : (overlapping ["b"]).Healed ⟨200, [2]⟩ :=
  (healed_iff (by decide) (by decide) (by decide)).mpr
    ⟨fun _ _ => Or.inl (WithBot.bot_lt_coe _), "b", by decide, by decide⟩

/-- **The newest write is lost everywhere**: on all three replicas both calls pass the check, and
the older version is written last. -/
theorem newest_lost_everywhere : ¬ (overlapping []).Healed ⟨200, [2]⟩ := by
  rintro ⟨⟨x, -, w, hw, hwv⟩, -⟩
  rw [← Option.some.inj hw] at hwv
  exact absurd hwv (by decide)

end Race

end Diynamo.Coordinator.WriteRace
