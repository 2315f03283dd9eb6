import Diynamo.Lib.Url
import Diynamo.Server.Handlers

/-! # The client of the internal routes

`KvClient` formats the key of a request into a URL without encoding it. The URL is read by a library
(`UrlLibrary`), which parses it as the URL standard says and sends no request for one that is too
long; the receiving node routes the path, decodes the parameters and reads a body that is not too
large. The handler gets exactly the key and the target of the request if and only if the key is not
empty and both lose nothing on the way (`routedExactly_iff`), and then an exchange with another node
has the effect that the coordinator's branch for its own store has (`remote_is_local`). A key with a
`?`, a `#`, a `/`, an escape and the like reaches another key, another handler, or none. -/

namespace Diynamo.Client.Http

open Diynamo.Lib.Utf8 Diynamo.Lib.Percent Diynamo.Lib.UrlPath Diynamo.Lib.Url Diynamo.Api.Types
  Diynamo.Store.RocksDb Diynamo.Store.Hints Diynamo.Server.Router Diynamo.Server.Handlers

/-- The IPv4 address and port of a node. -/
structure Authority where
  octets : Vector UInt8 4
  port : UInt16

/-- The decimal digits of a number. -/
def decimal (n : ℕ) : String := n.repr

namespace Authority

variable (a : Authority)

/-- The address in dotted decimal. -/
def dottedIp : String :=
  decimal a.octets[0].toNat ++ "." ++ decimal a.octets[1].toNat ++ "." ++
    decimal a.octets[2].toNat ++ "." ++ decimal a.octets[3].toNat

/-- The base URL `http://{ip}:{port}` of a node. -/
def baseUrl : String := "http://" ++ (a.dottedIp ++ ":" ++ decimal a.port.toNat)

/-- The start of the serialized URL, which leaves out the default port. -/
def origin : Bytes :=
  utf8 ("http://" ++ a.dottedIp) ++ if a.port = 80 then [] else utf8 (":" ++ decimal a.port.toNat)

end Authority

/-- The length of the longest URL that a request is sent for. -/
def maxUrlLen : ℕ := 65534

/-- **The URL for a path is short enough** to be sent. -/
def Authority.UrlFits (a : Authority) (path : String) : Prop :=
  (a.origin ++ serializeRest (utf8 path)).length ≤ maxUrlLen

instance (a : Authority) (path : String) : Decidable (a.UrlFits path) :=
  inferInstanceAs (Decidable ((a.origin ++ serializeRest (utf8 path)).length ≤ maxUrlLen))

/-- **The URL library and the server's view of a request**: the raw segments of the path that the
request for a URL asks for, if it is sent. For an `http` URL they are those of the URL standard. -/
structure UrlLibrary where
  request : (url : String) → Option (List Bytes)
  standard : ∀ (a : Authority) (path : String), path.toList.head? = some '/' →
    request (a.baseUrl ++ path) = if a.UrlFits path then some (pathSegments (utf8 path)) else none

/-- The handler that takes the request for a URL, if one does. -/
def UrlLibrary.handler (lib : UrlLibrary) (m : Method) (url : String) : Option Handler :=
  (lib.request url).bind fun segs => (route m segs).toOption

/-- A client of one node. -/
structure KvClient where
  baseUrl : String

/-- `trim_end_matches`, for one character. -/
def trimEndMatches (s : String) (c : Char) : String := String.ofList (s.toList.rdropWhile (· = c))

namespace KvClient

def withHttp (baseUrl : String) : KvClient := ⟨trimEndMatches baseUrl '/'⟩

variable (c : KvClient)

def internalKvUrl (key : String) : String := c.baseUrl ++ "/internal/kv/" ++ key

def internalKvVersionedUrl (key : String) : String := c.baseUrl ++ "/internal/kv-versioned/" ++ key

def hintUrl (targetId key : String) : String :=
  c.baseUrl ++ "/internal/hint/" ++ targetId ++ "/" ++ key

end KvClient

/-! ### Exchanges with a node -/

/-- Why a call of the client fails: an argument is not UTF-8, the URL is none or too long, or the
answer is not a success. -/
inductive ClientError where
  | keyNotUtf8
  | valueNotUtf8
  | notSent
  | status (code : StatusCode)
deriving DecidableEq, Repr

section Exchange

variable {σ : Type} (lib : UrlLibrary) (c : KvClient) (sv : AppState σ) (s : σ)

/-- A put at the node, with its effect on the cluster: the handler that the router picks decides. -/
def sendPut (url : String) (body : SentBody) (nowMillis : ℕ) : Except ClientError Unit × σ :=
  match lib.request url with
  | none => (.error .notSent, s)
  | some segs =>
    match sv.servePut s segs body nowMillis with
    | (.error code, s') => (.error (.status code), s')
    | (.ok (), s') => (.ok (), s')

/-- **`put_internal_versioned_bytes`**. -/
def putInternalVersionedBytes (key value : Bytes) (timestamp nowMillis : ℕ) :
    Except ClientError Unit × σ :=
  match fromUtf8 key, fromUtf8 value with
  | none, _ => (.error .keyNotUtf8, s)
  | some _, none => (.error .valueNotUtf8, s)
  | some k, some v =>
    sendPut lib sv s (c.internalKvVersionedUrl k) (.putVersioned ⟨v, timestamp⟩) nowMillis

/-- **`put_hint_versioned_bytes`**. -/
def putHintVersionedBytes (targetId : String) (key value : Bytes) (timestamp nowMillis : ℕ) :
    Except ClientError Unit × σ :=
  match fromUtf8 key, fromUtf8 value with
  | none, _ => (.error .keyNotUtf8, s)
  | some _, none => (.error .valueNotUtf8, s)
  | some k, some v =>
    sendPut lib sv s (c.hintUrl targetId k) (.putVersioned ⟨v, timestamp⟩) nowMillis

/-- **`get_internal_versioned`**: a missing key is not an error. -/
def getInternalVersioned (key : Bytes) : Except ClientError (Option VersionedValue) × σ :=
  match fromUtf8 key with
  | none => (.error .keyNotUtf8, s)
  | some k =>
    match lib.request (c.internalKvUrl k) with
    | none => (.error .notSent, s)
    | some segs =>
      match sv.serveGet s segs with
      | (.ok body, s') => (.ok (some ⟨body.timestamp, utf8 body.value⟩), s')
      | (.error .notFound, s') => (.ok none, s')
      | (.error code, s') => (.error (.status code), s')

end Exchange

/-! ### When the key survives -/

/-- **The key and the target arrive**: the request for each URL of the client is sent, and routed to
its handler with exactly the key and the target as parameters. -/
def RoutedExactly (lib : UrlLibrary) (c : KvClient) (targetId key : String) : Prop :=
  lib.handler .get (c.internalKvUrl key) = some (.getKvInternal key) ∧
  lib.handler .put (c.internalKvUrl key) = some (.putKvInternal key) ∧
  lib.handler .put (c.internalKvVersionedUrl key) = some (.putKvInternalVersioned key) ∧
  lib.handler .put (c.hintUrl targetId key) = some (.putHintInternal targetId key)

/-- A key that a URL carries at its end: no `/`, `\`, `?`, `#`, tab or newline, no `%` before two
hexadecimal digits, not a dot segment, and no space or control at the end. -/
def KeySafe (key : String) : Prop := Plain (utf8 key) ∧ EndsVisibly (utf8 key)

/-- A target id that a URL carries between two `/`; it may be empty. -/
def TargetSafe (targetId : String) : Prop := Plain (utf8 targetId)

/-- **No URL for the key and the target is too long.** -/
def UrlsFit (a : Authority) (targetId key : String) : Prop :=
  ∀ path ∈ ["/internal/kv/" ++ key, "/internal/kv-versioned/" ++ key,
    "/internal/hint/" ++ (targetId ++ ("/" ++ key))], a.UrlFits path

instance (key : String) : Decidable (KeySafe key) := by unfold KeySafe; infer_instance

instance (targetId : String) : Decidable (TargetSafe targetId) := by
  unfold TargetSafe; infer_instance

instance (a : Authority) (targetId key : String) : Decidable (UrlsFit a targetId key) :=
  inferInstanceAs (Decidable (∀ path ∈ _, a.UrlFits path))

theorem trimEndMatches_eq_self {s : String} {c d : Char} (hs : s.toList.getLast? = some d)
    (hd : d ≠ c) : trimEndMatches s c = s := by
  obtain ⟨l, hs⟩ := List.getLast?_eq_some_iff.mp hs
  unfold trimEndMatches
  rw [hs, List.rdropWhile_concat, if_neg (by simpa using hd), ← hs, String.ofList_toList]

theorem isDigit_of_mem_decimal {n : ℕ} {c : Char} (h : c ∈ (decimal n).toList) : c.isDigit := by
  rw [decimal, Nat.toList_repr] at h
  exact Nat.isDigit_of_mem_toDigits (by decide) (by decide) h

/-- A URL that ends in a number has no `/` at its end to trim. -/
theorem trimEndMatches_append_decimal (s : String) (n : ℕ) :
    trimEndMatches (s ++ decimal n) '/' = s ++ decimal n := by
  have hne : (decimal n).toList ≠ [] := by
    rw [decimal, Nat.toList_repr, ← List.length_pos_iff]
    exact Nat.length_toDigits_pos
  obtain ⟨l, d, hl⟩ := (List.eq_nil_or_concat _).resolve_left hne
  rw [List.concat_eq_append] at hl
  have hd : d ≠ '/' := by
    rintro rfl
    have hm : '/' ∈ (decimal n).toList := by rw [hl]; simp
    exact absurd (isDigit_of_mem_decimal hm) (by decide)
  refine trimEndMatches_eq_self (d := d) ?_ hd
  rw [String.toList_append, hl, ← List.append_assoc, List.getLast?_concat]

theorem Authority.withHttp_baseUrl (a : Authority) :
    (KvClient.withHttp a.baseUrl).baseUrl = a.baseUrl := by
  unfold KvClient.withHttp Authority.baseUrl
  rw [← String.append_assoc]
  exact trimEndMatches_append_decimal _ _

theorem literal_plain : ∀ s ∈ literals, Plain s := by decide

/-- Literal segments, then a parameter. -/
theorem lossless_literals {lits : List Bytes} (hl : lits ⊆ literals) {key : String}
    (hk : key ≠ "") : Lossless (lits ++ [utf8 key]) ↔ KeySafe key := by
  have hne : utf8 key ≠ [] := fun h => hk (utf8_eq_nil.mp h)
  unfold Lossless KeySafe
  rw [endsVisibly_joinPath_concat lits hne]
  refine and_congr_left fun _ => ⟨fun h => h _ (by simp), fun h s hs => ?_⟩
  rcases List.mem_append.mp hs with hs | hs
  · exact literal_plain s (hl hs)
  · rwa [List.mem_singleton.mp hs]

theorem toOption_eq_some {α ε : Type} {r : Except ε α} {a : α} :
    r.toOption = some a ↔ r = .ok a := by
  cases r <;> simp [Except.toOption]

theorem handler_eq_some {lib : UrlLibrary} {m : Method} {url : String} {h : Handler} :
    lib.handler m url = some h ↔ ∃ segs, lib.request url = some segs ∧ route m segs = .ok h := by
  simp only [UrlLibrary.handler, Option.bind_eq_some_iff, toOption_eq_some]

/-- **The request for a handler's own URL**, for any handler. -/
theorem handler_baseUrl (lib : UrlLibrary) (a : Authority) (h : Handler) (path : String)
    (hp : path.toList.head? = some '/') (hj : utf8 path = joinPath h.path) :
    lib.handler h.method (a.baseUrl ++ path) = some h ↔
      a.UrlFits path ∧ h.key ≠ "" ∧ Lossless h.path := by
  rw [handler_eq_some, lib.standard a path hp, ← route_pathSegments_iff, ← hj]
  split_ifs with hfits
  · simp [hfits]
  · simp [hfits]

section Routed

variable {lib : UrlLibrary} {a : Authority} {targetId key : String}

/-- The URLs whose only parameter is the key. -/
theorem handler_key_url (hk : key ≠ "") (h : Handler) (lits : List Bytes) {pre : String}
    (hl : lits ⊆ literals) (hpath : h.path = lits ++ [utf8 key]) (hkey : h.key = key)
    (hpre : pre.toList.head? = some '/') (hj : utf8 pre = joinPath lits ++ [slash]) :
    lib.handler h.method ((KvClient.withHttp a.baseUrl).baseUrl ++ pre ++ key) = some h ↔
      a.UrlFits (pre ++ key) ∧ KeySafe key := by
  rw [a.withHttp_baseUrl, String.append_assoc, handler_baseUrl lib a h _
    (by rw [String.toList_append]; simp [hpre])
    (by rw [utf8_append, hj, hpath, joinPath_concat, List.append_assoc]; rfl), hpath,
    lossless_literals hl hk, hkey]
  exact and_congr_right fun _ => and_iff_right hk

theorem handler_internalKvUrl_get (hk : key ≠ "") :
    lib.handler .get ((KvClient.withHttp a.baseUrl).internalKvUrl key) =
      some (.getKvInternal key) ↔ a.UrlFits ("/internal/kv/" ++ key) ∧ KeySafe key :=
  handler_key_url hk (.getKvInternal key) [utf8 "internal", utf8 "kv"] (by decide) rfl rfl
    (by decide) (by decide)

theorem handler_internalKvUrl_put (hk : key ≠ "") :
    lib.handler .put ((KvClient.withHttp a.baseUrl).internalKvUrl key) =
      some (.putKvInternal key) ↔ a.UrlFits ("/internal/kv/" ++ key) ∧ KeySafe key :=
  handler_key_url hk (.putKvInternal key) [utf8 "internal", utf8 "kv"] (by decide) rfl rfl
    (by decide) (by decide)

theorem handler_internalKvVersionedUrl (hk : key ≠ "") :
    lib.handler .put ((KvClient.withHttp a.baseUrl).internalKvVersionedUrl key) =
      some (.putKvInternalVersioned key) ↔
        a.UrlFits ("/internal/kv-versioned/" ++ key) ∧ KeySafe key :=
  handler_key_url hk (.putKvInternalVersioned key) [utf8 "internal", utf8 "kv-versioned"]
    (by decide) rfl rfl (by decide) (by decide)

theorem handler_hintUrl (hk : key ≠ "") :
    lib.handler .put ((KvClient.withHttp a.baseUrl).hintUrl targetId key) =
      some (.putHintInternal targetId key) ↔
        a.UrlFits ("/internal/hint/" ++ (targetId ++ ("/" ++ key))) ∧ TargetSafe targetId ∧
          KeySafe key := by
  have hkne : utf8 key ≠ [] := fun h => hk (utf8_eq_nil.mp h)
  have hurl : (KvClient.withHttp a.baseUrl).hintUrl targetId key =
      a.baseUrl ++ ("/internal/hint/" ++ (targetId ++ ("/" ++ key))) := by
    rw [KvClient.hintUrl, a.withHttp_baseUrl]
    simp only [String.append_assoc]
  have hsplit : (Handler.putHintInternal targetId key).path =
      [utf8 "internal", utf8 "hint"] ++ [utf8 targetId] ++ [utf8 key] := rfl
  have hj : utf8 ("/internal/hint/" ++ (targetId ++ ("/" ++ key))) =
      joinPath (Handler.putHintInternal targetId key).path := by
    have hpre : utf8 "/internal/hint/" = joinPath [utf8 "internal", utf8 "hint"] ++ [slash] := by
      decide
    have hsep : utf8 "/" = [slash] := by decide
    rw [utf8_append, utf8_append, utf8_append, hpre, hsep, hsplit, joinPath_concat, joinPath_concat]
    simp only [List.append_assoc, List.cons_append, List.nil_append]
  have hhandler := handler_baseUrl lib a (.putHintInternal targetId key)
    ("/internal/hint/" ++ (targetId ++ ("/" ++ key))) (by rw [String.toList_append]; rfl) hj
  rw [hurl]
  refine hhandler.trans (and_congr_right fun _ => ?_)
  unfold Lossless TargetSafe KeySafe
  rw [hsplit, endsVisibly_joinPath_concat _ hkne]
  have hi := literal_plain (utf8 "internal") (by decide)
  have hh := literal_plain (utf8 "hint") (by decide)
  simp only [Handler.key, List.cons_append, List.nil_append, List.forall_mem_cons, List.not_mem_nil,
    false_implies, implies_true, and_true, hi, hh, hk, ne_eq, not_false_eq_true, true_and,
    and_assoc]

/-- What an exchange with another node does to a key, compared to the branch of the coordinator for
its own store: the same write, the same read, and a hint for the same target and key. A body that is
too large is refused, and changes nothing. -/
structure RemoteIsLocal (lib : UrlLibrary) (c : KvClient) (targetId key : String) : Prop where
  put : ∀ {σ : Type} (sv : AppState σ) (s : σ) (value : String) (timestamp now : ℕ),
    Fits (.putVersioned ⟨value, timestamp⟩) → (sv.node s).faults.blockInternal = false →
    putInternalVersionedBytes lib c sv s (utf8 key) (utf8 value) timestamp now =
      (.ok (), sv.setNode s { sv.node s with
        localStore := (sv.node s).localStore.putIfNewer (utf8 key) (utf8 value) timestamp })
  get : ∀ {σ : Type} (sv : AppState σ) (s : σ), (sv.node s).faults.blockInternal = false →
    (∀ v, (sv.node s).localStore.get (utf8 key) = some v → (fromUtf8 v.data).isSome) →
    getInternalVersioned lib c sv s (utf8 key) = (.ok ((sv.node s).localStore.get (utf8 key)), s)
  hint : ∀ {σ : Type} (sv : AppState σ) (s : σ) (hints : HintStore) (value : String)
    (timestamp now : ℕ), Fits (.putVersioned ⟨value, timestamp⟩) →
    (sv.node s).faults.blockHints = false →
    (sv.node s).hints.storeHint targetId (utf8 key) (utf8 value) timestamp = .ok hints →
    putHintVersionedBytes lib c sv s targetId (utf8 key) (utf8 value) timestamp now =
      (.ok (), sv.setNode s { sv.node s with hints := hints })
  tooLarge : ∀ {σ : Type} (sv : AppState σ) (s : σ) (value : String) (timestamp now : ℕ),
    ¬ Fits (.putVersioned ⟨value, timestamp⟩) →
    putInternalVersionedBytes lib c sv s (utf8 key) (utf8 value) timestamp now =
      (.error (.status .payloadTooLarge), s) ∧
    putHintVersionedBytes lib c sv s targetId (utf8 key) (utf8 value) timestamp now =
      (.error (.status .payloadTooLarge), s)

/-- **The key is written under itself**: no handler but its own takes the request of its push. -/
def WritesOwnEntry (lib : UrlLibrary) (c : KvClient) (key : Bytes) : Prop :=
  ∀ k h, fromUtf8 key = some k → lib.handler .put (c.internalKvVersionedUrl k) = some h →
    h = .putKvInternalVersioned k

theorem sendPut_of_handler {σ : Type} {url : String} {h : Handler}
    (hh : lib.handler .put url = some h) (sv : AppState σ) (s : σ) (body : SentBody) (now : ℕ) :
    sendPut lib sv s url body now =
      match sv.handlePut s body now h with
      | (.error code, s') => (.error (.status code), s')
      | (.ok (), s') => (.ok (), s') := by
  obtain ⟨segs, hsegs, hroute⟩ := handler_eq_some.mp hh
  simp only [sendPut, hsegs, AppState.servePut, hroute]

/-- A request that no handler takes changes nothing. -/
theorem sendPut_of_handler_eq_none {σ : Type} {url : String} (hh : lib.handler .put url = none)
    (sv : AppState σ) (s : σ) (body : SentBody) (now : ℕ) :
    ∃ e, sendPut lib sv s url body now = (.error e, s) := by
  unfold sendPut
  cases hr : lib.request url with
  | none => exact ⟨_, rfl⟩
  | some segs =>
    cases hroute : route .put segs with
    | error code => exact ⟨.status code, by simp only [AppState.servePut, hroute]⟩
    | ok h =>
      rw [handler_eq_some.mpr ⟨segs, hr, hroute⟩] at hh
      cases hh

/-- The push of a versioned entry is handled: its key and its value are UTF-8, its body is not too
large, and the router picks a handler. -/
def PushedTo (lib : UrlLibrary) (c : KvClient) (key value : Bytes) (timestamp : ℕ) (h : Handler) :
    Prop :=
  ∃ k v, utf8 k = key ∧ utf8 v = value ∧ Fits (.putVersioned ⟨v, timestamp⟩) ∧
    lib.handler .put (c.internalKvVersionedUrl k) = some h

/-- **A push that is handled** is what its handler does. -/
theorem PushedTo.push_eq {c : KvClient} {key value : Bytes} {timestamp : ℕ} {h : Handler}
    (hp : PushedTo lib c key value timestamp h) {σ : Type} (sv : AppState σ) (s : σ) (now : ℕ) :
    ∃ v, utf8 v = value ∧ Fits (.putVersioned ⟨v, timestamp⟩) ∧
      putInternalVersionedBytes lib c sv s key value timestamp now =
        match sv.handlePut s (.putVersioned ⟨v, timestamp⟩) now h with
        | (.error code, s') => (.error (.status code), s')
        | (.ok (), s') => (.ok (), s') := by
  obtain ⟨k, v, rfl, rfl, hfits, hh⟩ := hp
  refine ⟨v, rfl, hfits, ?_⟩
  simp only [putInternalVersionedBytes, fromUtf8_utf8, sendPut_of_handler hh]

/-- A push that is not handled fails and changes nothing. -/
theorem pushedTo_or_error (c : KvClient) {σ : Type} (sv : AppState σ) (s : σ) (key value : Bytes)
    (timestamp now : ℕ) :
    (∃ h, PushedTo lib c key value timestamp h) ∨
      ∃ e, putInternalVersionedBytes lib c sv s key value timestamp now = (.error e, s) := by
  unfold putInternalVersionedBytes
  cases hk : fromUtf8 key with
  | none => exact Or.inr ⟨_, rfl⟩
  | some k =>
    cases hv : fromUtf8 value with
    | none => exact Or.inr ⟨_, rfl⟩
    | some v =>
      dsimp only
      cases hh : lib.handler .put (c.internalKvVersionedUrl k) with
      | none => exact Or.inr (sendPut_of_handler_eq_none hh sv s _ now)
      | some h =>
        by_cases hfits : Fits (.putVersioned ⟨v, timestamp⟩)
        · exact Or.inl ⟨h, k, v, fromUtf8_eq_some.mp hk, fromUtf8_eq_some.mp hv, hfits, hh⟩
        · -- the router gives a put no handler that reads no body
          refine Or.inr ⟨.status .payloadTooLarge, ?_⟩
          obtain ⟨segs, -, hroute⟩ := handler_eq_some.mp hh
          rw [sendPut_of_handler hh, AppState.handlePut_of_not_fits sv s now hfits
            (path_of_route hroute).1]

/-- **A push at its own handler** is a conditional write. -/
theorem PushedTo.push_own_of_open {c : KvClient} {k : String} {value : Bytes} {timestamp : ℕ}
    (hp : PushedTo lib c (utf8 k) value timestamp (.putKvInternalVersioned k)) {σ : Type}
    (sv : AppState σ) (s : σ) (now : ℕ) (hf : (sv.node s).faults.blockInternal = false) :
    putInternalVersionedBytes lib c sv s (utf8 k) value timestamp now =
      (.ok (), sv.setNode s { sv.node s with
        localStore := (sv.node s).localStore.putIfNewer (utf8 k) value timestamp }) := by
  obtain ⟨v, rfl, hfits, he⟩ := hp.push_eq sv s now
  rw [he, AppState.handlePut, readPutVersionedBody_of_fits hfits]
  simp only [Node.putKvInternalVersioned, hf, Bool.false_eq_true, if_false, AppState.finish]

/-- It is a conditional write, or it is blocked. -/
theorem PushedTo.push_own {c : KvClient} {k : String} {value : Bytes} {timestamp : ℕ}
    (hp : PushedTo lib c (utf8 k) value timestamp (.putKvInternalVersioned k)) {σ : Type}
    (sv : AppState σ) (s : σ) (now : ℕ) :
    (∃ e, putInternalVersionedBytes lib c sv s (utf8 k) value timestamp now = (.error e, s)) ∨
      putInternalVersionedBytes lib c sv s (utf8 k) value timestamp now =
        (.ok (), sv.setNode s { sv.node s with
          localStore := (sv.node s).localStore.putIfNewer (utf8 k) value timestamp }) := by
  cases hf : (sv.node s).faults.blockInternal
  · exact Or.inr (hp.push_own_of_open sv s now hf)
  · obtain ⟨v, rfl, hfits, he⟩ := hp.push_eq sv s now
    refine Or.inl ⟨.status .serviceUnavailable, ?_⟩
    rw [he, AppState.handlePut, readPutVersionedBody_of_fits hfits]
    simp only [Node.putKvInternalVersioned, hf, if_true, AppState.finish]

/-- A read at its own handler returns the entry of the node, or it fails. -/
theorem getInternalVersioned_own {c : KvClient} {k : String}
    (hh : lib.handler .get (c.internalKvUrl k) = some (.getKvInternal k)) {σ : Type}
    (sv : AppState σ) (s : σ) :
    (∃ e, getInternalVersioned lib c sv s (utf8 k) = (.error e, s)) ∨
      getInternalVersioned lib c sv s (utf8 k) =
        (.ok ((sv.node s).localStore.get (utf8 k)), s) := by
  obtain ⟨segs, hsegs, hroute⟩ := handler_eq_some.mp hh
  simp only [getInternalVersioned, fromUtf8_utf8, hsegs, AppState.serveGet, hroute,
    AppState.handleGet, Node.getKvInternal]
  split_ifs
  · exact Or.inl ⟨_, rfl⟩
  · cases (sv.node s).localStore.get (utf8 k) with
    | none => exact Or.inr rfl
    | some v =>
      cases hv : fromUtf8 v.data with
      | none => exact Or.inl ⟨.status .internalServerError, by simp only [hv]⟩
      | some value =>
        refine Or.inr ?_
        simp only [hv, fromUtf8_eq_some.mp hv]

/-- What a read returns is a string. -/
theorem exists_utf8_of_getInternalVersioned {c : KvClient} {σ : Type} {sv : AppState σ} {s : σ}
    {key : Bytes} {v : VersionedValue}
    (h : (getInternalVersioned lib c sv s key).1 = .ok (some v)) : ∃ w, utf8 w = v.data := by
  unfold getInternalVersioned at h
  split at h
  · cases h
  · split at h
    · cases h
    · split at h
      · obtain rfl := Option.some.inj (Except.ok.inj h)
        exact ⟨_, rfl⟩
      · cases h
      · cases h

/-- **A push of a key that is written under itself** is a conditional write, or it fails and changes
nothing. -/
theorem WritesOwnEntry.push_cases {c : KvClient} {key : Bytes} (hown : WritesOwnEntry lib c key)
    {σ : Type} (sv : AppState σ) (s : σ) (value : Bytes) (timestamp now : ℕ) :
    (∃ e, putInternalVersionedBytes lib c sv s key value timestamp now = (.error e, s)) ∨
      putInternalVersionedBytes lib c sv s key value timestamp now =
        (.ok (), sv.setNode s { sv.node s with
          localStore := (sv.node s).localStore.putIfNewer key value timestamp }) := by
  rcases pushedTo_or_error c sv s key value timestamp now with ⟨h, hp⟩ | he
  · obtain ⟨k, v, rfl, -, -, hh⟩ := id hp
    obtain rfl := hown k h (fromUtf8_utf8 k) hh
    exact hp.push_own sv s now
  · exact Or.inl he

/-- **A key that the URL carries** is written under itself. -/
theorem writesOwnEntry_of_keySafe {c : KvClient} (hk : key ≠ "") (hs : KeySafe key)
    (hc : c = .withHttp a.baseUrl) : WritesOwnEntry lib c (utf8 key) := by
  intro k h hkey hh
  rw [fromUtf8_utf8] at hkey
  obtain rfl := Option.some.inj hkey
  by_cases hu : a.UrlFits ("/internal/kv-versioned/" ++ key)
  · rw [hc, (handler_internalKvVersionedUrl hk).mpr ⟨hu, hs⟩] at hh
    exact (Option.some.inj hh).symm
  · -- the request is not sent
    rw [hc, KvClient.internalKvVersionedUrl, a.withHttp_baseUrl, String.append_assoc,
      handler_eq_some] at hh
    obtain ⟨segs, hsegs, -⟩ := hh
    rw [lib.standard a _ (by rw [String.toList_append]; rfl), if_neg hu] at hsegs
    cases hsegs

theorem remote_is_local {c : KvClient} (h : RoutedExactly lib c targetId key) :
    RemoteIsLocal lib c targetId key := by
  obtain ⟨hget, -, hput, hhint⟩ := h
  constructor
  · intro σ sv s value timestamp now hfits hf
    simp only [putInternalVersionedBytes, fromUtf8_utf8, sendPut_of_handler hput,
      AppState.handlePut, readPutVersionedBody_of_fits hfits, Node.putKvInternalVersioned, hf,
      Bool.false_eq_true, if_false, AppState.finish]
  · intro σ sv s hf hutf
    obtain ⟨segs, hsegs, hroute⟩ := handler_eq_some.mp hget
    simp only [getInternalVersioned, fromUtf8_utf8, hsegs, AppState.serveGet, hroute,
      AppState.handleGet, Node.getKvInternal, hf, Bool.false_eq_true, if_false]
    cases hv : (sv.node s).localStore.get (utf8 key) with
    | none => rfl
    | some v =>
      obtain ⟨value, hval⟩ := Option.isSome_iff_exists.mp (hutf v hv)
      simp only [hval, fromUtf8_eq_some.mp hval]
  · intro σ sv s hints value timestamp now hfits hf hstore
    simp only [putHintVersionedBytes, fromUtf8_utf8, sendPut_of_handler hhint, AppState.handlePut,
      readPutVersionedBody_of_fits hfits, Node.putHintInternal, hf, Bool.false_eq_true, if_false,
      hstore, AppState.finish]
  · intro σ sv s value timestamp now hfits
    simp only [putInternalVersionedBytes, putHintVersionedBytes, fromUtf8_utf8,
      sendPut_of_handler hput, sendPut_of_handler hhint, AppState.handlePut,
      readPutVersionedBody_of_not_fits hfits, and_self]

/-- **Which keys survive.** The URLs that a client formats for a key and a target are routed to
their handlers with exactly the key and the target if and only if both are safe and no URL is too
long, and then the exchanges act on the entry of the key. -/
theorem routedExactly_iff (lib : UrlLibrary) (a : Authority) (targetId : String) {key : String}
    (hk : key ≠ "") :
    (RoutedExactly lib (.withHttp a.baseUrl) targetId key ∧
      RemoteIsLocal lib (.withHttp a.baseUrl) targetId key) ↔
      KeySafe key ∧ TargetSafe targetId ∧ UrlsFit a targetId key := by
  have hiff : RoutedExactly lib (.withHttp a.baseUrl) targetId key ↔
      KeySafe key ∧ TargetSafe targetId ∧ UrlsFit a targetId key := by
    unfold RoutedExactly UrlsFit
    rw [handler_internalKvUrl_get hk, handler_internalKvUrl_put hk,
      handler_internalKvVersionedUrl hk, handler_hintUrl hk]
    simp only [List.forall_mem_cons, List.not_mem_nil, false_implies, implies_true, and_true]
    constructor
    · rintro ⟨⟨h1, hsafe⟩, -, ⟨h2, -⟩, h3, ht, -⟩
      exact ⟨hsafe, ht, h1, h2, h3⟩
    · rintro ⟨hsafe, ht, h1, h2, h3⟩
      exact ⟨⟨h1, hsafe⟩, ⟨h1, hsafe⟩, ⟨h2, hsafe⟩, h3, ht, hsafe⟩
  exact ⟨fun h => hiff.mp h.1, fun h => ⟨hiff.mpr h, remote_is_local (hiff.mpr h)⟩⟩

end Routed

/-! ### The parser of the URL standard -/

section Parser

variable (lib : HostLibrary) (a : Authority)

namespace Authority

/-- The address and the port as a URL has them. -/
def hostPort : Bytes := utf8 a.dottedIp ++ colon :: utf8 (decimal a.port.toNat)

/-- The host that the address is. -/
def host : Host :=
  .ipv4 (ipv4Value [a.octets[0].toNat, a.octets[1].toNat, a.octets[2].toNat, a.octets[3].toNat])

/-- The port, if it is not the default one. -/
def portOrNone : Option ℕ := if a.port.toNat = 80 then none else some a.port.toNat

theorem utf8_dottedIp : utf8 a.dottedIp =
    dotted a.octets[0].toNat a.octets[1].toNat a.octets[2].toNat a.octets[3].toNat := by
  have hdot : utf8 "." = [dot] := by decide
  simp only [dottedIp, dotted, decimal, utf8_append, hdot, List.append_assoc, List.cons_append,
    List.nil_append]

theorem utf8_baseUrl : utf8 a.baseUrl = utf8 "http://" ++ a.hostPort := by
  have hcolon : utf8 ":" = [colon] := by decide
  rw [baseUrl, utf8_append, utf8_append, utf8_append, hcolon, List.append_assoc]
  rfl

theorem mem_hostPort {b : UInt8} (hb : b ∈ a.hostPort) : b ∈ colon :: dot :: digits := by
  rw [hostPort, utf8_dottedIp] at hb
  rcases List.mem_append.mp hb with hb | hb
  · exact List.mem_cons_of_mem _ (mem_dotted hb)
  · rcases List.mem_cons.mp hb with rfl | hb
    · exact List.mem_cons_self
    · exact List.mem_cons_of_mem _ (List.mem_cons_of_mem _ (mem_digits_of_mem_repr b hb))

/-- **An address and a port** are read back. -/
theorem parseAuthority_hostPort :
    parseAuthority lib a.hostPort = some (a.host, a.portOrNone) := by
  have hbyte : ∀ n : UInt8, n.toNat ≤ 255 := fun n => Nat.le_of_lt_succ n.toNat_lt
  have hport : a.port.toNat ≤ 65535 := Nat.le_of_lt_succ a.port.toNat_lt
  have hcolon : colon ∉ dot :: digits := by decide
  have hbracket : leftBracket ∉ dot :: digits := by decide
  have hat : atSign ∉ a.hostPort := fun h => absurd (a.mem_hostPort h) (by decide)
  rw [hostPort, utf8_dottedIp] at hat ⊢
  rw [parseAuthority_append hat (fun h => hcolon (mem_dotted h)) (fun h => hbracket (mem_dotted h)),
    if_neg (by simp [dotted]), parseHost_dotted (hbyte _) (hbyte _) (hbyte _) (hbyte _),
    Option.bind_some, decimal, parsePort_repr hport, Option.map_some]
  rfl

/-- A base URL and a path are parsed as the address, the port and the path. -/
theorem parse_baseUrl {path : Bytes} (hp : path.head? = some slash) :
    parse lib (utf8 a.baseUrl ++ path) =
      some ⟨a.host, a.portOrNone, pathSegments path, suffixOf path⟩ := by
  have hbyte : ∀ b ∈ colon :: dot :: digits, inAuthority b = true := by decide +kernel
  rw [utf8_baseUrl, List.append_assoc,
    parse_http (by simp [hostPort]) (fun b hb => hbyte b (a.mem_hostPort hb)) hp,
    parseAuthority_hostPort, Option.map_some]

/-- The URL is written out with its origin. -/
theorem serialize_baseUrl (path : Bytes) :
    (HttpUrl.mk a.host a.portOrNone (pathSegments path) (suffixOf path)).serialize lib =
      a.origin ++ serializeRest path := by
  have hbyte : ∀ n : UInt8, n.toNat ≤ 255 := fun n => Nat.le_of_lt_succ n.toNat_lt
  have hcolon : utf8 ":" = [colon] := by decide
  have hport : serializePort a.portOrNone =
      if a.port = 80 then [] else utf8 (":" ++ decimal a.port.toNat) := by
    have hiff : a.port.toNat = 80 ↔ a.port = 80 := UInt16.toNat_inj (b := 80)
    rw [portOrNone]
    by_cases h : a.port = 80
    · rw [if_pos h, if_pos (hiff.mpr h), serializePort]
    · rw [if_neg h, if_neg fun h' => h (hiff.mp h'), utf8_append, hcolon]
      rfl
  rw [HttpUrl.serialize, host, serialize_dotted lib (hbyte _) (hbyte _) (hbyte _), ← utf8_dottedIp,
    hport, origin, serializeRest, utf8_append "http://"]

end Authority

/-- The URL that a request is sent for, unless it is none or too long. -/
def requestUrl (url : String) : Option HttpUrl :=
  (parse lib (utf8 url)).bind fun u =>
    if (u.serialize lib).length ≤ maxUrlLen then some u else none

theorem Authority.requestUrl_baseUrl {path : String} (hp : path.toList.head? = some '/') :
    requestUrl lib (a.baseUrl ++ path) = if a.UrlFits path then
      some ⟨a.host, a.portOrNone, pathSegments (utf8 path), suffixOf (utf8 path)⟩ else none := by
  rw [requestUrl, utf8_append, a.parse_baseUrl lib (head?_utf8 hp (by decide)),
    Option.bind_some, a.serialize_baseUrl lib]
  rfl

/-- **The parser of the URL standard is a URL library** of the client. -/
def urlLibrary : UrlLibrary where
  request url := (requestUrl lib url).map HttpUrl.path
  standard a path hp := by
    rw [a.requestUrl_baseUrl lib hp]
    split_ifs <;> rfl

end Parser

/-- The address of a node in a private network. -/
def privateNode : Authority := ⟨#v[10, 0, 0, 2], 8080⟩

/-- A key with a dash, a space and a percent sign survives. -/
theorem routedExactly_lone_percent :
    RoutedExactly (urlLibrary .ascii) (.withHttp privateNode.baseUrl) "node-2" "user-1 10% é" :=
  ((routedExactly_iff (urlLibrary .ascii) privateNode "node-2" (by decide)).mpr (by decide)).1

/-- **A key with a question mark reaches another key**: the write of `a?b` writes `a` at the other
node. -/
theorem question_mark_cuts_key :
    ¬ RoutedExactly (urlLibrary .ascii) (.withHttp privateNode.baseUrl) "node-2" "a?b" ∧
      (urlLibrary .ascii).handler .put
        ((KvClient.withHttp privateNode.baseUrl).internalKvVersionedUrl "a?b") =
          some (.putKvInternalVersioned "a") := by
  constructor
  · rintro ⟨h, -⟩
    exact absurd h (by decide +kernel)
  · decide +kernel

end Diynamo.Client.Http
