import Diynamo.Client.Http

/-! # The public client

The public calls of `KvClient` go to the handlers `put_kv` and `get_kv` of a node and turn the
status into what the caller is told. The node is any `AppState`, over any state of the cluster. A
call acts on the key of the caller and reports how the coordinator has fared with it if and only if
the key is one that a URL carries (`faithful_iff`); a put with a value that is too large is refused.
-/

namespace Diynamo.Client.Public

open Diynamo.Lib.Utf8 Diynamo.Api.Types Diynamo.Store.RocksDb Diynamo.Server.Router
  Diynamo.Server.Handlers Diynamo.Client.Http Diynamo.Coordinator.Get Diynamo.Coordinator.Service

def kvUrl (c : KvClient) (key : String) : String := c.baseUrl ++ "/kv/" ++ key

/-- What the caller of `put` or `get` is told. -/
inductive CallError where
  | keyNotFound (key : String)
  | failed (code : StatusCode)
  | notSent
deriving DecidableEq, Repr

/-- A put reports every error. -/
def putError : ClientError → CallError
  | .status code => .failed code
  | .keyNotUtf8 | .valueNotUtf8 | .notSent => .notSent

/-- `get` reads a missing route like a missing key. -/
def getError (key : String) : StatusCode → CallError
  | .notFound => .keyNotFound key
  | code => .failed code

section Calls

variable {σ : Type} (lib : UrlLibrary) (c : KvClient) (sv : AppState σ) (s : σ)

/-- **`put`**. -/
def put (key value : String) (nowMillis : ℕ) : Except CallError Unit × σ :=
  match sendPut lib sv s (kvUrl c key) (.put ⟨value⟩) nowMillis with
  | (.error e, s') => (.error (putError e), s')
  | (.ok (), s') => (.ok (), s')

/-- **`get`**. -/
def get (key : String) : Except CallError GetResponse × σ :=
  match lib.request (kvUrl c key) with
  | none => (.error .notSent, s)
  | some segs =>
    match sv.serveGet s segs with
    | (.error code, s') => (.error (getError key code), s')
    | (.ok body, s') => (.ok body, s')

end Calls

theorem snd_put {σ : Type} {lib : UrlLibrary} {c : KvClient} {sv : AppState σ} {s : σ}
    {key value : String} {now : ℕ} :
    (put lib c sv s key value now).2 = (sendPut lib sv s (kvUrl c key) (.put ⟨value⟩) now).2 := by
  unfold put
  rcases sendPut lib sv s (kvUrl c key) (.put ⟨value⟩) now with ⟨_ | _, s'⟩ <;> rfl

/-! ### What the caller is told -/

/-- The report of a put. -/
def putTold : Except StoreError Unit → Except CallError Unit
  | .ok () => .ok ()
  | .error (.quorumFailed _) => .error (.failed .serviceUnavailable)
  | .error (.ring _) => .error (.failed .internalServerError)

/-- The report of a get. -/
def getTold (key : String) :
    Except StoreError (Option VersionedValue) → Except CallError GetResponse
  | .ok none => .error (.keyNotFound key)
  | .ok (some v) =>
    match fromUtf8 v.data with
    | some value => .ok ⟨value, v.timestamp⟩
    | none => .error (.failed .internalServerError)
  | .error (.quorumFailed _) => .error (.failed .serviceUnavailable)
  | .error (.ring _) => .error (.failed .internalServerError)

/-- **The calls for a key are faithful**: whatever the coordinator does, they do it for exactly this
key, leave the cluster as it does, and report how it has ended. A put whose body is too large is
refused and changes nothing. -/
structure Faithful (lib : UrlLibrary) (c : KvClient) (key : String) : Prop where
  put : ∀ {σ : Type} (sv : AppState σ) (s : σ) (value : String) (now : ℕ),
    Fits (.put ⟨value⟩) → (sv.node s).faults.blockPublic = false →
    put lib c sv s key value now =
      (putTold (sv.put (utf8 key) (utf8 value) s).1, (sv.put (utf8 key) (utf8 value) s).2)
  tooLarge : ∀ {σ : Type} (sv : AppState σ) (s : σ) (value : String) (now : ℕ),
    ¬ Fits (.put ⟨value⟩) →
    Public.put lib c sv s key value now = (.error (.failed .payloadTooLarge), s)
  get : ∀ {σ : Type} (sv : AppState σ) (s : σ), (sv.node s).faults.blockPublic = false →
    get lib c sv s key = (getTold key (sv.get (utf8 key) s).1, (sv.get (utf8 key) s).2)

/-- A coordinator that succeeds, and remembers the last put. -/
def recording : AppState (Node × Option (Bytes × Bytes)) where
  put k v s := (.ok (), s.1, some (k, v))
  get _ s := (.ok none, s)
  node s := s.1
  setNode s node := (node, s.2)
  node_setNode _ _ := rfl

section Routed

variable {lib : UrlLibrary} {a : Authority} {key : String}

theorem handler_kvUrl (hk : key ≠ "") (h : Handler) (hpath : h.path = [utf8 "kv", utf8 key])
    (hkey : h.key = key) :
    lib.handler h.method (kvUrl (.withHttp a.baseUrl) key) = some h ↔
      a.UrlFits ("/kv/" ++ key) ∧ KeySafe key :=
  handler_key_url hk h [utf8 "kv"] (by decide) hpath hkey (by decide) (by decide)

/-- **The calls for a safe key are faithful.** -/
theorem faithful_of_safe (hk : key ≠ "") (hs : KeySafe key) (hu : a.UrlFits ("/kv/" ++ key)) :
    Faithful lib (.withHttp a.baseUrl) key := by
  have hput : lib.handler .put (kvUrl (.withHttp a.baseUrl) key) = some (.putKv key) :=
    (handler_kvUrl hk (.putKv key) rfl rfl).mpr ⟨hu, hs⟩
  have hget : lib.handler .get (kvUrl (.withHttp a.baseUrl) key) = some (.getKv key) :=
    (handler_kvUrl hk (.getKv key) rfl rfl).mpr ⟨hu, hs⟩
  obtain ⟨segs, hsegs, hroute⟩ := handler_eq_some.mp hget
  constructor
  · intro σ sv s value now hfits hf
    simp only [put, sendPut_of_handler hput, AppState.handlePut, readPutBody_of_fits hfits,
      SentBody.value, AppState.putKv, hf, Bool.false_eq_true, if_false]
    rcases sv.put (utf8 key) (utf8 value) s with ⟨e | _, s'⟩
    · cases e <;> rfl
    · rfl
  · intro σ sv s value now hfits
    simp only [put, sendPut_of_handler hput, AppState.handlePut, readPutBody_of_not_fits hfits,
      putError]
  · intro σ sv s hf
    simp only [get, hsegs, AppState.serveGet, hroute, AppState.handleGet,
      AppState.getKv, hf, Bool.false_eq_true, if_false]
    rcases sv.get (utf8 key) s with ⟨e | _ | v, s'⟩
    · cases e <;> rfl
    · rfl
    · cases hv : fromUtf8 v.data <;> simp [getBody, getTold, getError, hv]

/-- **A put that the coordinator is asked for** is routed to `put_kv`, and its body is read. -/
theorem handler_of_recorded {url : String} {body : SentBody} {now : ℕ} {k v : Bytes}
    (h : (sendPut lib recording (Node.empty, none) url body now).2.2 = some (k, v)) :
    ∃ key, lib.handler .put url = some (.putKv key) ∧ k = utf8 key ∧ v = utf8 body.value ∧
      Fits body := by
  unfold sendPut AppState.servePut at h
  cases hr : lib.request url with
  | none => simp [hr] at h
  | some segs =>
    rw [hr] at h
    cases hroute : route .put segs with
    | error code => simp [hroute] at h
    | ok handler =>
      simp only [hroute] at h
      cases handler with
      | putKv key =>
        by_cases hfits : Fits body
        · simp only [AppState.handlePut, readPutBody_of_fits hfits, AppState.putKv, recording,
            Node.empty, Bool.false_eq_true, if_false] at h
          obtain ⟨hk, hv⟩ := Prod.mk.inj (Option.some.inj h)
          exact ⟨key, handler_eq_some.mpr ⟨segs, hr, hroute⟩, hk.symm, hv.symm, hfits⟩
        · simp [AppState.handlePut, readPutBody_of_not_fits hfits] at h
      -- the others do not ask the coordinator
      | putKvInternal key =>
        cases hbody : readPutBody body <;>
          simp [AppState.handlePut, hbody, AppState.finish, Node.putKvInternal, Node.empty,
            recording] at h
      | putKvInternalVersioned key =>
        cases hbody : readPutVersionedBody body <;>
          simp [AppState.handlePut, hbody, AppState.finish, Node.putKvInternalVersioned,
            Node.empty, recording] at h
      | putHintInternal targetId key =>
        cases hbody : readPutVersionedBody body with
        | error code => simp [AppState.handlePut, hbody] at h
        | ok b =>
          cases hhint : Node.empty.putHintInternal targetId key b <;>
            simp [AppState.handlePut, hbody, AppState.finish, recording, hhint] at h
      | getKv key => simp [AppState.handlePut] at h
      | getKvInternal key => simp [AppState.handlePut] at h

end Routed

/-- **Which keys the public API serves.** The calls of a client for a key are faithful if and only
if the key is not empty and is one that a URL carries. -/
theorem faithful_iff (lib : UrlLibrary) (a : Authority) (key : String) :
    Faithful lib (.withHttp a.baseUrl) key ↔
      key ≠ "" ∧ KeySafe key ∧ a.UrlFits ("/kv/" ++ key) := by
  constructor
  · intro hf
    have hfits : Fits (.put ⟨""⟩) := by decide
    have hput := hf.put recording (Node.empty, none) "" 0 hfits rfl
    have hrec : (sendPut lib recording (Node.empty, none) (kvUrl (.withHttp a.baseUrl) key)
        (.put ⟨""⟩) 0).2.2 = some (utf8 key, utf8 "") := by
      rw [← snd_put, hput]
      rfl
    obtain ⟨k, hr, hkey, -⟩ := handler_of_recorded hrec
    obtain rfl := utf8_injective hkey
    obtain ⟨segs, -, hroute⟩ := handler_eq_some.mp hr
    have hk : key ≠ "" := (path_of_route hroute).2.2
    have h := (handler_kvUrl hk (.putKv key) rfl rfl).mp hr
    exact ⟨hk, h.2, h.1⟩
  · rintro ⟨hk, hs, hu⟩
    exact faithful_of_safe hk hs hu

/-- A put of `../internal/kv/a` goes past the coordinator. -/
example : (urlLibrary .ascii).handler .put
    (kvUrl (.withHttp privateNode.baseUrl) "../internal/kv/a") = some (.putKvInternal "a") := by
  decide +kernel

end Diynamo.Client.Public
