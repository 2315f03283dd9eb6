import Diynamo.Coordinator.Service
import Diynamo.Server.Router

/-! # The handlers of a node

A request that is routed has its body read, and then its handler runs. The internal handlers act on
the node (`Server.Router`); `put_kv` and `get_kv` call the coordinator, which acts on the cluster,
and turn its errors into a status. A node is an `AppState` over any state of the cluster. -/

namespace Diynamo.Server.Handlers

open Diynamo.Lib.Utf8 Diynamo.Api.Types Diynamo.Store.RocksDb Diynamo.Store.Hints
  Diynamo.Server.Router Diynamo.Coordinator.Service

/-- The operations of a coordinator on a state of the cluster. -/
structure Coordinator (σ : Type) where
  put : (key value : Bytes) → σ → Except StoreError Unit × σ
  get : (key : Bytes) → σ → Except StoreError (Option VersionedValue) × σ

/-- **What the handlers reach**: the coordinator, and the node with its stores and flags. -/
structure AppState (σ : Type) extends Coordinator σ where
  node : σ → Node
  setNode : σ → Node → σ
  node_setNode : ∀ s n, node (setNode s n) = n

/-- A node whose coordinator is seen for what it does to this node. -/
def Coordinator.onNode (c : Coordinator Node) : AppState Node where
  toCoordinator := c
  node s := s
  setNode _ n := n
  node_setNode _ _ := rfl

/-- A coordinator that has nothing to do. -/
def Coordinator.idle {σ : Type} : Coordinator σ :=
  ⟨fun _ _ s => (.ok (), s), fun _ s => (.ok none, s)⟩

/-- A missed quorum is temporary, every other error is internal. -/
def mapStoreError : StoreError → StatusCode
  | .quorumFailed _ => .serviceUnavailable
  | .ring _ => .internalServerError

/-- The body of a get: the data must be UTF-8. -/
def getBody : Option VersionedValue → Except StatusCode GetResponse
  | some v =>
    match fromUtf8 v.data with
    | none => .error .internalServerError
    | some value => .ok ⟨value, v.timestamp⟩
  | none => .error .notFound

/-- A body read for `PutBody`. -/
def readPutBody (body : SentBody) : Except StatusCode PutBody :=
  if Fits body then .ok ⟨body.value⟩ else .error .payloadTooLarge

/-- A body read for `PutVersionedBody`. -/
def readPutVersionedBody (body : SentBody) : Except StatusCode PutVersionedBody :=
  if Fits body then
    match body with
    | .put _ => .error .unprocessableEntity
    | .putVersioned b => .ok b
  else .error .payloadTooLarge

section Bodies

variable {body : SentBody}

theorem readPutBody_of_fits (h : Fits body) : readPutBody body = .ok ⟨body.value⟩ := if_pos h

theorem readPutBody_of_not_fits (h : ¬ Fits body) :
    readPutBody body = .error .payloadTooLarge := if_neg h

theorem readPutVersionedBody_of_fits {b : PutVersionedBody} (h : Fits (.putVersioned b)) :
    readPutVersionedBody (.putVersioned b) = .ok b := if_pos h

theorem readPutVersionedBody_of_not_fits (h : ¬ Fits body) :
    readPutVersionedBody body = .error .payloadTooLarge := if_neg h

end Bodies

namespace AppState

variable {σ : Type} (sv : AppState σ) (s : σ)

def putKv (key : String) (body : PutBody) : Except StatusCode Unit × σ :=
  if (sv.node s).faults.blockPublic then (.error .serviceUnavailable, s)
  else
    match sv.put (utf8 key) (utf8 body.value) s with
    | (.error e, s') => (.error (mapStoreError e), s')
    | (.ok (), s') => (.ok (), s')

def getKv (key : String) : Except StatusCode GetResponse × σ :=
  if (sv.node s).faults.blockPublic then (.error .serviceUnavailable, s)
  else
    match sv.get (utf8 key) s with
    | (.error e, s') => (.error (mapStoreError e), s')
    | (.ok versioned, s') => (getBody versioned, s')

/-- The end of an internal handler. -/
def finish : Except StatusCode Node → Except StatusCode Unit × σ
  | .error code => (.error code, s)
  | .ok n => (.ok (), sv.setNode s n)

/-- **A put at the handler that it is routed to.** -/
def handlePut (body : SentBody) (nowMillis : ℕ) : Handler → Except StatusCode Unit × σ
  | .putKv key =>
    match readPutBody body with
    | .error code => (.error code, s)
    | .ok b => sv.putKv s key b
  | .putKvInternal key =>
    match readPutBody body with
    | .error code => (.error code, s)
    | .ok b => sv.finish s ((sv.node s).putKvInternal key b nowMillis)
  | .putKvInternalVersioned key =>
    match readPutVersionedBody body with
    | .error code => (.error code, s)
    | .ok b => sv.finish s ((sv.node s).putKvInternalVersioned key b)
  | .putHintInternal targetId key =>
    match readPutVersionedBody body with
    | .error code => (.error code, s)
    | .ok b => sv.finish s ((sv.node s).putHintInternal targetId key b)
  -- the router gives a put none of these
  | .getKv _ | .getKvInternal _ => (.error .methodNotAllowed, s)

/-- A body that is too large is not read. -/
theorem handlePut_of_not_fits {body : SentBody} (now : ℕ) (hfits : ¬ Fits body) {h : Handler}
    (hm : .put = h.method) : sv.handlePut s body now h = (.error .payloadTooLarge, s) := by
  cases h with
  | getKv key => cases hm
  | getKvInternal key => cases hm
  | putKv key => rw [handlePut, readPutBody_of_not_fits hfits]
  | putKvInternal key => rw [handlePut, readPutBody_of_not_fits hfits]
  | putKvInternalVersioned key => rw [handlePut, readPutVersionedBody_of_not_fits hfits]
  | putHintInternal targetId key => rw [handlePut, readPutVersionedBody_of_not_fits hfits]

/-- **A get at the handler that it is routed to.** -/
def handleGet : Handler → Except StatusCode GetResponse × σ
  | .getKv key => sv.getKv s key
  | .getKvInternal key => ((sv.node s).getKvInternal key, s)
  -- the router gives a get none of these
  | .putKv _ | .putKvInternal _ | .putKvInternalVersioned _ | .putHintInternal .. =>
    (.error .methodNotAllowed, s)

/-- **A put for the raw segments of a path.** -/
def servePut (segs : List Bytes) (body : SentBody) (nowMillis : ℕ) : Except StatusCode Unit × σ :=
  match route .put segs with
  | .error code => (.error code, s)
  | .ok h => sv.handlePut s body nowMillis h

/-- **A get for the raw segments of a path.** -/
def serveGet (segs : List Bytes) : Except StatusCode GetResponse × σ :=
  match route .get segs with
  | .error code => (.error code, s)
  | .ok h => sv.handleGet s h

end AppState

end Diynamo.Server.Handlers
