import Diynamo.Server.Router

/-! # What requests do to the local store

The requests that a node handles, one at a time. Hints do not touch the local store, a `PUT
/internal/kv-versioned` and the local write of a public put never lower a timestamp, but a `PUT
/internal/kv` stamps its key with the clock of the node, whatever is stored. So the stored
timestamps never go back if and only if that clock has always reached the stored timestamp of the
key (`never_backwards_iff`). -/

namespace Diynamo.Server.Requests

open Diynamo.Lib.Utf8 Diynamo.Lib.LastWrite Diynamo.Api.Types Diynamo.Store.RocksDb
  Diynamo.Store.Hints Diynamo.Server.Router

/-- A request with the raw segments of its path, the body that its handler has read, and the clock
of the node when it is handled. The handlers of a `PutBody` do not look at a timestamp in the body;
a request whose body is not read is answered before its handler runs. -/
structure Request where
  method : Method
  path : List Bytes
  body : PutVersionedBody
  nowMillis : ℕ
deriving DecidableEq

section Serve

variable (preferred : Bytes → List NodeId) (selfId : NodeId)

/-- A public put, as far as this node is concerned: the coordinator writes to the local store if the
node is preferred, whatever comes of the other writes. -/
def putKvLocal (s : Node) (key : String) (body : PutBody) (nowMillis : ℕ) : Node :=
  if s.faults.blockPublic then s
  else if selfId ∈ preferred (utf8 key) then
    { s with localStore := s.localStore.putIfNewer (utf8 key) (utf8 body.value) nowMillis }
  else s

/-- An error leaves the node as it is. -/
def stateAfter (s : Node) : Except StatusCode Node → Node
  | .error _ => s
  | .ok s' => s'

/-- The node after a handler. -/
def handle (s : Node) (r : Request) : Handler → Node
  | .getKv _ | .getKvInternal _ => s
  | .putKv key => putKvLocal preferred selfId s key ⟨r.body.value⟩ r.nowMillis
  | .putKvInternal key => stateAfter s (s.putKvInternal key ⟨r.body.value⟩ r.nowMillis)
  | .putKvInternalVersioned key => stateAfter s (s.putKvInternalVersioned key r.body)
  | .putHintInternal targetId key => stateAfter s (s.putHintInternal targetId key r.body)

/-- **The node after a request.** -/
def serve (s : Node) (r : Request) : Node :=
  match route r.method r.path with
  | .error _ => s
  | .ok h => handle preferred selfId s r h

def serveAll (s : Node) (reqs : List Request) : Node := reqs.foldl (serve preferred selfId) s

end Serve

/-- **The clock of the node is not behind**: a `PUT /internal/kv` that is not blocked finds at most
the reading of the clock stored for its key. -/
def ClockReached (s : Node) (r : Request) : Prop :=
  ∀ key, route r.method r.path = .ok (.putKvInternal key) → s.faults.blockInternal = false →
    s.localStore.stored (utf8 key) ≤ WithBot.some r.nowMillis

variable {preferred : Bytes → List NodeId} {selfId : NodeId}

/-! ### One request -/

/-- An unconditional write lowers no timestamp if and only if it does not lower its own. -/
theorem stored_le_put_iff (s : RocksDbStore) (key value : Bytes) (nowMillis : ℕ) :
    (∀ j, s.stored j ≤ (s.put key value nowMillis).stored j) ↔
      s.stored key ≤ WithBot.some nowMillis := by
  have hget : ∀ j, (s.put key value nowMillis).get j =
      if j = key then some ⟨nowMillis, value⟩ else s.get j := s.get_write key value nowMillis
  have hself := s.stored_put key value nowMillis
  constructor
  · intro h
    rw [← hself]
    exact h key
  · intro h j
    by_cases hj : j = key
    · rw [hj, hself]
      exact h
    · rw [RocksDbStore.stored, RocksDbStore.stored, hget, if_neg hj]

theorem advances_putKvLocal (s : Node) (key : String) (body : PutBody) (nowMillis : ℕ) :
    s.localStore.Advances (putKvLocal preferred selfId s key body nowMillis).localStore := by
  unfold putKvLocal
  split_ifs
  · exact RocksDbStore.Advances.refl _
  · exact RocksDbStore.advances_putIfNewer _ _ _ _
  · exact RocksDbStore.Advances.refl _

theorem advances_putKvInternalVersioned (s : Node) (key : String) (body : PutVersionedBody) :
    s.localStore.Advances (stateAfter s (s.putKvInternalVersioned key body)).localStore := by
  unfold Node.putKvInternalVersioned
  split_ifs
  · exact RocksDbStore.Advances.refl _
  · exact RocksDbStore.advances_putIfNewer _ _ _ _

/-- Hints are not in the local store. -/
theorem localStore_putHintInternal (s : Node) (targetId key : String) (body : PutVersionedBody) :
    (stateAfter s (s.putHintInternal targetId key body)).localStore = s.localStore := by
  unfold Node.putHintInternal
  split_ifs
  · rfl
  · cases s.hints.storeHint targetId (utf8 key) (utf8 body.value) body.timestamp <;> rfl

/-- **Every request but a `PUT /internal/kv`** advances the local store. -/
theorem advances_serve {s : Node} {r : Request}
    (h : ∀ key, route r.method r.path ≠ .ok (.putKvInternal key)) :
    s.localStore.Advances (serve preferred selfId s r).localStore := by
  unfold serve
  cases hr : route r.method r.path with
  | error e => exact RocksDbStore.Advances.refl _
  | ok handler =>
    cases handler with
    | getKv key => exact RocksDbStore.Advances.refl _
    | getKvInternal key => exact RocksDbStore.Advances.refl _
    | putKv key => exact advances_putKvLocal s key _ _
    | putKvInternal key => exact absurd hr (h key)
    | putKvInternalVersioned key => exact advances_putKvInternalVersioned s key _
    | putHintInternal targetId key =>
      have he := localStore_putHintInternal s targetId key r.body
      exact fun j => Or.inl (congrArg (fun st => st.get j) he)

variable (preferred selfId) in
/-- **One request** lowers no timestamp if and only if the clock has reached it. -/
theorem stored_le_serve_iff (s : Node) (r : Request) :
    (∀ j, s.localStore.stored j ≤ (serve preferred selfId s r).localStore.stored j) ↔
      ClockReached s r := by
  by_cases hput : ∃ key, route r.method r.path = .ok (.putKvInternal key)
  · obtain ⟨key, hr⟩ := hput
    have hserve : serve preferred selfId s r =
        stateAfter s (s.putKvInternal key ⟨r.body.value⟩ r.nowMillis) := by
      rw [serve, hr]
      rfl
    rw [hserve, Node.putKvInternal]
    split_ifs with hb
    · refine iff_of_true (fun j => le_rfl) fun _ _ hf => ?_
      rw [hb] at hf
      cases hf
    · refine (stored_le_put_iff s.localStore (utf8 key) (utf8 r.body.value) r.nowMillis).trans ?_
      constructor
      · intro h key' hr' _
        have hkey : key' = key := by
          rw [hr] at hr'
          exact (Handler.putKvInternal.inj (Except.ok.inj hr')).symm
        rw [hkey]
        exact h
      · exact fun h => h key hr (by simpa using hb)
  · refine iff_of_true (fun j => ?_) fun key hr => absurd ⟨key, hr⟩ hput
    exact (advances_serve fun key hr => hput ⟨key, hr⟩).stored_le j

/-! ### Sequences of requests -/

theorem serveAll_concat (s : Node) (reqs : List Request) (r : Request) :
    serveAll preferred selfId s (reqs ++ [r]) =
      serve preferred selfId (serveAll preferred selfId s reqs) r :=
  List.foldl_concat _ _ _ _

/-- **Stored timestamps never go back** while a sequence of requests is handled if and only if every
`PUT /internal/kv` of it that is not blocked comes when the clock of the node has reached the
timestamp stored for its key. -/
theorem never_backwards_iff (preferred : Bytes → List NodeId) (selfId : NodeId) (s : Node)
    (reqs : List Request) :
    (∀ bs cs, bs ++ cs <+: reqs → ∀ j,
      (serveAll preferred selfId s bs).localStore.stored j ≤
        (serveAll preferred selfId s (bs ++ cs)).localStore.stored j) ↔
    ∀ bs r, bs ++ [r] <+: reqs → ClockReached (serveAll preferred selfId s bs) r := by
  constructor
  · intro h bs r hpre
    refine (stored_le_serve_iff preferred selfId _ r).mp fun j => ?_
    rw [← serveAll_concat]
    exact h bs [r] hpre j
  · intro h bs cs
    induction cs using List.reverseRecOn with
    | nil =>
      intro _ j
      rw [List.append_nil]
    | append_singleton cs r ih =>
      intro hpre j
      rw [← List.append_assoc] at hpre ⊢
      have hstep := (stored_le_serve_iff preferred selfId _ r).mpr
        (h (bs ++ cs) r hpre)
      rw [serveAll_concat]
      exact (ih ((List.prefix_append _ _).trans hpre) j).trans (hstep j)

/-- A versioned write with timestamp 200, then a `PUT /internal/kv` when the clock says 100: the
newer data is replaced by the older. -/
theorem clock_behind_goes_back :
    let first : Request :=
      ⟨.put, [utf8 "internal", utf8 "kv-versioned", utf8 "k"], ⟨"new", 200⟩, 90⟩
    let second : Request := ⟨.put, [utf8 "internal", utf8 "kv", utf8 "k"], ⟨"old", 0⟩, 100⟩
    let serveAll := serveAll (fun _ => []) "n1" Node.empty
    (serveAll [first]).localStore.get (utf8 "k") = some ⟨200, utf8 "new"⟩ ∧
      (serveAll [first, second]).localStore.get (utf8 "k") = some ⟨100, utf8 "old"⟩ ∧
      ¬ ∀ bs cs, bs ++ cs <+: [first, second] → ∀ j,
        (serveAll bs).localStore.stored j ≤ (serveAll (bs ++ cs)).localStore.stored j := by
  intro first second serveAll
  have hfirst : (serveAll [first]).localStore.get (utf8 "k") = some ⟨200, utf8 "new"⟩ := by decide
  have hsecond : (serveAll [first, second]).localStore.get (utf8 "k") =
      some ⟨100, utf8 "old"⟩ := by decide
  refine ⟨hfirst, hsecond, fun h => ?_⟩
  have hle := h [first] [second] (List.prefix_refl _) (utf8 "k")
  rw [List.singleton_append, RocksDbStore.stored, RocksDbStore.stored, hfirst, hsecond] at hle
  exact absurd (WithBot.coe_le_coe.mp hle) (by decide)

end Diynamo.Server.Requests
