import Diynamo.System.Transport

/-! # Calls through the public API

The handlers `put_kv` and `get_kv` take keys and values as strings, and start nothing at a node
whose public routes are blocked; `publicStep` is a deployment with these handlers in front. So
everything in it is UTF-8, although the stores and the coordinator are made for any bytes
(`allText_run`), and no conversion back fails: over keys that a path carries, no handler answers
with an internal error, no client call fails on its UTF-8 checks, and every value that a get returns
is one that its handler can put in a body (`no_internal_error`). -/

namespace Diynamo.System.PublicApi

open Diynamo.Lib.Run Diynamo.Lib.Utf8 Diynamo.Store.RocksDb Diynamo.Store.Hints
  Diynamo.Cluster.Ring Diynamo.Server.Router Diynamo.Server.Handlers Diynamo.Coordinator.Get
  Diynamo.Coordinator.Roster Diynamo.System.Step Diynamo.System.Rules Diynamo.System.WellFormed
  Diynamo.System.Provenance Diynamo.System.Transport

variable {cfg : Cluster} {w w' : World} {a : Act}

/-! ### Calls -/

/-- The bytes of a string. -/
def IsUtf8 (bs : Bytes) : Prop := ∃ s, utf8 s = bs

instance (bs : Bytes) : Decidable (IsUtf8 bs) :=
  decidable_of_iff ((fromUtf8 bs).isSome = true) (by
    rw [Option.isSome_iff_exists, IsUtf8]
    exact exists_congr fun _ => fromUtf8_eq_some)

/-- A put or a get is taken: the public routes of its node are not blocked. -/
def Taken (w : World) : Act → Prop
  | .put c _ _ _ | .get c _ => (w.node c).faults.blockPublic = false
  | _ => True

instance (w : World) : ∀ a, Decidable (Taken w a)
  | .put c _ _ _ | .get c _ =>
    inferInstanceAs (Decidable ((w.node c).faults.blockPublic = false))
  | .deliver .. | .reconcile .. | .serve _ | .check _ | .write _ | .refuse _ | .loseRequest _
  | .loseReply _ | .answer _ | .fail .. | .advance _ | .abort _ | .setFaults .. => isTrue trivial

/-- **One step with the public handlers**: a call that is not taken is answered at once. -/
def publicStep (d : Deployment cfg) (w : World) (a : Act) : Option World :=
  if Taken w a then d.step w a else some w

/-- A call with strings. -/
def TextAct : Act → Prop
  | .put _ key value _ => IsUtf8 key ∧ IsUtf8 value
  | .get _ key => IsUtf8 key
  | _ => True

instance : ∀ a, Decidable (TextAct a)
  | .put _ key value _ => inferInstanceAs (Decidable (IsUtf8 key ∧ IsUtf8 value))
  | .get _ key => inferInstanceAs (Decidable (IsUtf8 key))
  | .deliver .. | .reconcile .. | .serve _ | .check _ | .write _ | .refuse _ | .loseRequest _
  | .loseReply _ | .answer _ | .fail .. | .advance _ | .abort _ | .setFaults .. => isTrue trivial

/-- **What a step does**: nothing, or a step of the system with a call that is taken. -/
theorem publicStep_cases (d : Deployment cfg) (hw : AllCarried cfg w) (ha : CarriedAct cfg a)
    (h : publicStep d w a = some w') :
    w' = w ∨ Taken w a ∧ Effect cfg w a w' ∧ AllCarried cfg w' := by
  unfold publicStep at h
  split_ifs at h with ht
  · obtain ⟨hs, hw'⟩ := d.refines w a w' hw ha h
    exact Or.inr ⟨ht, effect_of_step hs, hw'⟩
  · exact Or.inl (Option.some.inj h).symm

/-! ### Strings -/

/-- A key and a version are strings. -/
def TextVersion (key : Bytes) (v : VersionedValue) : Prop := IsUtf8 key ∧ IsUtf8 v.data

/-- **The invariant**: all keys and values are strings, and the keys ones that a path carries. -/
structure AllText (cfg : Cluster) (w : World) : Prop where
  carried : AllCarried cfg w
  traced : Traced cfg TextVersion w
  gets : ∀ (i : ℕ) (g : GetProc), w.procs[i]? = some (.get g) → IsUtf8 g.key

theorem allText_step (d : Deployment cfg) (hw : AllText cfg w) (ha : CarriedAct cfg a)
    (ht : TextAct a) (h : Effect cfg w a w') (hw' : AllCarried cfg w') : AllText cfg w' := by
  refine ⟨hw', traced_step hw.carried.wf hw.traced ⟨fun p hp => ?_, fun x nodeId he => ?_⟩ h,
    fun i g' hg => ?_⟩
  · cases hp with
    | put => exact ht
  · subst he
    exact d.slash_not_mem ha
  · rcases proc_step h hg with hg | ⟨-, hs⟩ | ⟨q, hq, hm⟩
    · exact hw.gets i g' hg
    · cases hs with
      | get => exact ht
    · obtain ⟨g, rfl⟩ := eq_get_of_moves hm
      obtain ⟨g1, he, hk⟩ := moves_get hm
      cases he
      rw [hk]
      exact hw.gets i g hq

theorem allText_run (d : Deployment cfg) {acts : List Act}
    (hc : ∀ a ∈ acts, CarriedAct cfg a ∧ TextAct a)
    (h : run (publicStep d) acts World.empty = some w) : AllText cfg w := by
  refine run_invariant_mem (C := fun a => CarriedAct cfg a ∧ TextAct a) (fun w a w' hw ha hs => ?_)
    hc h ⟨allCarried_empty, ⟨nofun, nofun, nofun, nofun, nofun, nofun⟩, nofun⟩
  rcases publicStep_cases d hw.carried ha.1 hs with rfl | ⟨-, he, hw'⟩
  · exact hw
  · exact allText_step d hw ha.1 ha.2 he hw'

/-! ### Handlers -/

def errorOf {α : Type} : Except StatusCode α → Option StatusCode
  | .error code => some code
  | .ok _ => none

/-- The error status that a node answers a request with. -/
def handlerError (s : Node) : Job → Option StatusCode
  | .getInternal key => errorOf (s.getKvInternal key)
  | .putVersioned key value timestamp => errorOf (s.putKvInternalVersioned key ⟨value, timestamp⟩)
  | .putHint targetId key value timestamp =>
    errorOf (s.putHintInternal targetId key ⟨value, timestamp⟩)
  | .localGet _ | .localPut .. => none

/-- A handler fails internally only on data that is not UTF-8, and on a target id with `/`. -/
theorem handlerError_ne {s : Node} {job : Job}
    (hdata : ∀ key v, s.localStore.get key = some v → IsUtf8 v.data)
    (htarget : ∀ t key e, Job.hints job = some (t, key, e) → '/' ∉ t.toList) :
    handlerError s job ≠ some .internalServerError := by
  cases job with
  | getInternal key =>
    rw [handlerError, Node.getKvInternal]
    split_ifs
    · simp [errorOf]
    · cases hv : s.localStore.get (utf8 key) with
      | none => simp [errorOf]
      | some v =>
        obtain ⟨value, hval⟩ := hdata _ v hv
        simp [errorOf, ← hval]
  | putVersioned key value timestamp =>
    rw [handlerError, Node.putKvInternalVersioned]
    split_ifs <;> simp [errorOf]
  | putHint t key value timestamp =>
    have ht : '/' ∉ t.toList := htarget _ _ _ rfl
    rw [handlerError, Node.putHintInternal, HintStore.storeHint, if_neg ht]
    split_ifs <;> simp [errorOf]
  | _ => simp [handlerError]

/-! ### Processes -/

theorem isSome_versionedJob {key value : Bytes} (timestamp : ℕ) (hk : IsUtf8 key)
    (hv : IsUtf8 value) : (versionedJob key value timestamp).isSome = true := by
  obtain ⟨k, rfl⟩ := hk
  obtain ⟨v, rfl⟩ := hv
  simp [versionedJob, withUtf8]

theorem isSome_hintJob {key value : Bytes} (targetId : NodeId) (timestamp : ℕ) (hk : IsUtf8 key)
    (hv : IsUtf8 value) : (hintJob targetId key value timestamp).isSome = true := by
  obtain ⟨k, rfl⟩ := hk
  obtain ⟨v, rfl⟩ := hv
  simp [hintJob, withUtf8]

/-- **No call of the process fails on a UTF-8 check** of the client. -/
def Sendable : Proc → Prop
  | .put p => (∀ x, (writeJob p.coordinator x p.key p.value p.timestamp).isSome = true) ∧
    ∀ t, (hintJob t p.key p.value p.timestamp).isSome = true
  | .get g => (∀ x, (readJob g.coordinator x g.key).isSome = true) ∧
    ∀ x v, (x, some v) ∈ g.responses → (versionedJob g.key v.data v.timestamp).isSome = true
  | .deliver _ d => ∀ h ∈ d.pending, (versionedJob h.1 h.2.1 h.2.2).isSome = true
  | .reconcile q => ∀ x ∈ q.pending, (versionedJob x.1 x.2.data x.2.timestamp).isSome = true

theorem sendable_of_traced {p : Proc} (ht : ProcTraced TextVersion p)
    (hg : ∀ g, p = .get g → IsUtf8 g.key) : Sendable p := by
  cases p with
  | put p =>
    obtain ⟨hk, hv⟩ := ht
    refine ⟨fun x => ?_, fun t => isSome_hintJob t _ hk hv⟩
    unfold writeJob
    split_ifs
    · rfl
    · exact isSome_versionedJob _ hk hv
  | get g =>
    have hk := hg g rfl
    refine ⟨fun x => ?_, fun x v hx => isSome_versionedJob _ hk (ht x v hx).2⟩
    obtain ⟨k, hk⟩ := hk
    unfold readJob
    split_ifs
    · rfl
    · simp [← hk]
  | deliver self d => exact fun h hh => isSome_versionedJob _ (ht h hh).1 (ht h hh).2
  | reconcile q => exact fun x hx => isSome_versionedJob _ (ht x hx).1 (ht x hx).2

/-- What a get returns is one of its responses. -/
theorem mem_of_readResult {responses : List (NodeId × Option VersionedValue)} {v : VersionedValue}
    (h : readResult cfg responses = .ok (some v)) : ∃ x, (x, some v) ∈ responses := by
  unfold readResult at h
  split at h
  · next o sent hget =>
    obtain ⟨-, hpair⟩ := get_eq_ok.mp hget
    obtain ⟨rfl, -⟩ := Prod.mk.inj hpair
    exact winner_mem (Except.ok.inj h)
  · cases h

/-- A string has a ring order, of at least `n` members. -/
theorem exists_ringOrder (hnd : (cfg.roster.map ClusterMember.id).Nodup) {key : Bytes}
    (hk : IsUtf8 key) : ∃ order, cfg.ringOrder key = some order ∧ cfg.n ≤ order.length := by
  obtain ⟨k, rfl⟩ := hk
  obtain ⟨order, ho, hperm⟩ := ringOrder_perm_of_any (h := cfg.hashRing) cfg.built (fromUtf8_utf8 k)
  refine ⟨_, ringOrder_eq_some.mpr ⟨order, ho, rfl⟩, ?_⟩
  rw [hperm.length_eq, distinctIds, hnd.dedup, List.length_map]
  exact (fromRoster_eq_ok.mp cfg.built).2.1

/-- **A request reaches its own handler**, which does not answer it with an internal error, or its
body or URL is too large. -/
theorem arrival_of_allText (d : Deployment cfg) (hw : AllText cfg w) {req : Request}
    (hr : req ∈ w.net) : d.arrival cfg w req = .refused .failed ∨
      d.arrival cfg w req = .arrives req.dst req.job ∧
        handlerError (w.node req.dst) req.job ≠ some .internalServerError := by
  obtain ⟨hdst, hsafe⟩ := hw.carried.net req hr
  have hjob := carriedJob_of_safe d hsafe
  by_cases hs : d.Sendable cfg w req
  · refine Or.inr ⟨(arrival_iff d hdst).mpr ⟨hjob, hs⟩, ?_⟩
    refine handlerError_ne (fun key v hval => (hw.traced.stores _ key v hval).2) ?_
    exact fun t key e hj => d.slash_not_mem (hsafe.hints t key e hj).2
  · exact Or.inl (arrival_of_carried d hdst hjob hs)

/-- **No internal error.** In every run of a deployment of distinct ids whose puts and gets come
through the public API, for keys that a path carries, and whose tasks are for members: every request
on the way arrives as it was sent at a handler that does not answer it with an internal error, or
ends with another error since its URL or its body is too large; no client call of a process fails on
its UTF-8 checks; every value that a get returns fits a response body; and no call fails for want of
a ring order. What is left are blocked routes, missing keys, missed quorums and such requests. -/
theorem no_internal_error (d : Deployment cfg) (hnd : (cfg.roster.map ClusterMember.id).Nodup)
    {acts : List Act} (hc : ∀ a ∈ acts, CarriedAct cfg a ∧ TextAct a)
    (h : run (publicStep d) acts World.empty = some w) :
    (∀ req ∈ w.net, d.arrival cfg w req = .refused .failed ∨
      d.arrival cfg w req = .arrives req.dst req.job ∧
        handlerError (w.node req.dst) req.job ≠ some .internalServerError) ∧
    (∀ (i : ℕ) (p : Proc), w.procs[i]? = some p → Sendable p) ∧
    (∀ (i : ℕ) (g : GetProc) (o : Option VersionedValue), w.procs[i]? = some (.get g) →
      g.result = some (.ok o) → getBody o ≠ .error .internalServerError) ∧
    ∀ key, IsUtf8 key → ∃ order, cfg.ringOrder key = some order ∧ cfg.n ≤ order.length := by
  have hw := allText_run d hc h
  refine ⟨fun req hr => arrival_of_allText d hw hr, fun i p hi => ?_, fun i g o hi ho => ?_,
    fun key hk => exists_ringOrder hnd hk⟩
  · refine sendable_of_traced (hw.traced.procs i p hi) ?_
    rintro g rfl
    exact hw.gets i g hi
  · cases o with
    | none => simp [getBody]
    | some v =>
      obtain ⟨-, hres⟩ := (hw.carried.wf i _ hi).result _ ho
      obtain ⟨x, hx⟩ := mem_of_readResult hres.symm
      obtain ⟨value, hval⟩ := (hw.traced.procs i _ hi x v hx).2
      simp [getBody, ← hval]

/-- A get after a hinted put. -/
def hintThenGet : List Act := hintForC ++ [.get "c" [107]]

/-- The processes of that run send all their requests. -/
theorem no_internal_error_hint : ∃ w,
    run (publicStep twoOnLoopback) hintThenGet World.empty = some w ∧
      ∀ (i : ℕ) (p : Proc), w.procs[i]? = some p → Sendable p := by
  have hr : (run (publicStep twoOnLoopback) hintThenGet World.empty).isSome = true := by
    decide +kernel
  obtain ⟨w, hr⟩ := Option.isSome_iff_exists.mp hr
  have hc : ∀ a ∈ hintThenGet, CarriedAct twoOfThree a ∧ TextAct a := by decide +kernel
  exact ⟨w, hr, (no_internal_error twoOnLoopback (by decide) hc hr).2.1⟩

end Diynamo.System.PublicApi
