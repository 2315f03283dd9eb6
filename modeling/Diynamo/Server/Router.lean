import Diynamo.Api.Types
import Diynamo.Lib.UrlPath
import Diynamo.Store.Hints
import Diynamo.Store.RocksDb

/-! # The server of a node

The routes of a node and the handlers of its internal ones. `route` matches the raw segments of a
path against the routes, one segment for each parameter, of which the last is not empty, and
percent-decodes the parameters. The public handlers call the coordinator (`Server.Handlers`). -/

namespace Diynamo.Server.Router

open Diynamo.Lib.Utf8 Diynamo.Lib.Percent Diynamo.Lib.UrlPath Diynamo.Api.Types
  Diynamo.Store.RocksDb Diynamo.Store.Hints

/-- Fault injection flags of a node. -/
structure FaultFlags where
  blockInternal : Bool
  blockPublic : Bool
  blockHints : Bool
deriving DecidableEq, Repr

/-- **What the handlers of a node share.** -/
structure Node where
  localStore : RocksDbStore
  hints : HintStore
  faults : FaultFlags

def Node.empty : Node := ⟨RocksDbStore.empty, HintStore.empty, ⟨false, false, false⟩⟩

inductive StatusCode where
  | badRequest
  | notFound
  | methodNotAllowed
  | payloadTooLarge
  | unprocessableEntity
  | internalServerError
  | serviceUnavailable
deriving DecidableEq, Repr

/-! ### The internal handlers -/

namespace Node

variable (s : Node)

def putKvInternal (key : String) (body : PutBody) (nowMillis : ℕ) : Except StatusCode Node :=
  if s.faults.blockInternal then .error .serviceUnavailable
  else .ok { s with localStore := s.localStore.put (utf8 key) (utf8 body.value) nowMillis }

def putKvInternalVersioned (key : String) (body : PutVersionedBody) : Except StatusCode Node :=
  if s.faults.blockInternal then .error .serviceUnavailable
  else .ok { s with
    localStore := s.localStore.putIfNewer (utf8 key) (utf8 body.value) body.timestamp }

def putHintInternal (targetId key : String) (body : PutVersionedBody) : Except StatusCode Node :=
  if s.faults.blockHints then .error .serviceUnavailable
  else
    match s.hints.storeHint targetId (utf8 key) (utf8 body.value) body.timestamp with
    | .error _ => .error .internalServerError
    | .ok hints => .ok { s with hints := hints }

def getKvInternal (key : String) : Except StatusCode GetResponse :=
  if s.faults.blockInternal then .error .serviceUnavailable
  else
    match s.localStore.get (utf8 key) with
    | none => .error .notFound
    | some v =>
      match fromUtf8 v.data with
      | none => .error .internalServerError
      | some value => .ok ⟨value, v.timestamp⟩

/-- A hint for an id with `/` is refused. -/
theorem putHintInternal_of_slash {targetId : String} (h : '/' ∈ targetId.toList) (key : String)
    (body : PutVersionedBody) : ∃ code, s.putHintInternal targetId key body = .error code := by
  have hstore : ∀ value timestamp,
      s.hints.storeHint targetId (utf8 key) value timestamp = .error (.slashInTarget targetId) :=
    fun _ _ => if_pos h
  unfold putHintInternal
  split_ifs
  · exact ⟨_, rfl⟩
  · rw [hstore]
    exact ⟨_, rfl⟩

end Node

/-! ### Routes -/

inductive Method where
  | get
  | put
deriving DecidableEq, Repr

/-- A handler with its path parameters. -/
inductive Handler where
  | getKv (key : String)
  | putKv (key : String)
  | getKvInternal (key : String)
  | putKvInternal (key : String)
  | putKvInternalVersioned (key : String)
  | putHintInternal (targetId key : String)
deriving DecidableEq, Repr

/-- A path parameter: the segment, percent-decoded. -/
def param (segment : Bytes) : Except StatusCode String :=
  match fromUtf8 (percentDecode segment) with
  | none => .error .badRequest
  | some s => .ok s

/-- **The router**, on the raw segments of a path. A parameter is not empty if it comes last. -/
def route (m : Method) : List Bytes → Except StatusCode Handler
  | [s1, key] =>
    if s1 = utf8 "kv" ∧ key ≠ [] then
      match m with
      | .get => (param key).map .getKv
      | .put => (param key).map .putKv
    else .error .notFound
  | [s1, s2, key] =>
    if s1 = utf8 "internal" ∧ s2 = utf8 "kv" ∧ key ≠ [] then
      match m with
      | .get => (param key).map .getKvInternal
      | .put => (param key).map .putKvInternal
    else if s1 = utf8 "internal" ∧ s2 = utf8 "kv-versioned" ∧ key ≠ [] then
      match m with
      | .get => .error .methodNotAllowed
      | .put => (param key).map .putKvInternalVersioned
    else .error .notFound
  | [s1, s2, targetId, key] =>
    if s1 = utf8 "internal" ∧ s2 = utf8 "hint" ∧ key ≠ [] then
      match m with
      | .get => .error .methodNotAllowed
      | .put =>
        match param targetId with
        | .error e => .error e
        | .ok t => (param key).map (.putHintInternal t)
    else .error .notFound
  | _ => .error .notFound

theorem param_eq_ok {segment : Bytes} {s : String} :
    param segment = .ok s ↔ percentDecode segment = utf8 s := by
  unfold param
  constructor
  · intro h
    split at h
    · cases h
    · next t ht => rw [← Except.ok.inj h]; exact (fromUtf8_eq_some.mp ht).symm
  · intro h
    rw [h, fromUtf8_utf8]

/-- The path that a handler is called under, with its parameters as they are. -/
def Handler.path : Handler → List Bytes
  | .getKv key | .putKv key => [utf8 "kv", utf8 key]
  | .getKvInternal key | .putKvInternal key => [utf8 "internal", utf8 "kv", utf8 key]
  | .putKvInternalVersioned key => [utf8 "internal", utf8 "kv-versioned", utf8 key]
  | .putHintInternal targetId key => [utf8 "internal", utf8 "hint", utf8 targetId, utf8 key]

/-- The parameter that comes last. -/
def Handler.key : Handler → String
  | .getKv key | .putKv key | .getKvInternal key | .putKvInternal key
  | .putKvInternalVersioned key | .putHintInternal _ key => key

def Handler.method : Handler → Method
  | .getKv _ | .getKvInternal _ => .get
  | _ => .put

theorem percentDecode_ne_nil {s : Bytes} (h : s ≠ []) : percentDecode s ≠ [] := by
  fun_cases percentDecode s with
  | case1 => exact absurd rfl h
  | _ => exact List.cons_ne_nil _ _

theorem percentEncode_ne_nil {s : Bytes} (h : s ≠ []) : percentEncode s ≠ [] := by
  obtain ⟨a, s, rfl⟩ := List.exists_cons_of_ne_nil h
  rw [percentEncode_cons, encodeByte]
  split_ifs <;> exact List.cons_ne_nil _ _

theorem map_param_eq_ok {segment : Bytes} {f : String → Handler} {h : Handler} :
    (param segment).map f = .ok h ↔ ∃ s, percentDecode segment = utf8 s ∧ f s = h := by
  cases hp : param segment with
  | error e =>
    refine iff_of_false (by simp [Except.map]) ?_
    rintro ⟨s, hs, -⟩
    simp [param_eq_ok.mpr hs] at hp
  | ok s =>
    have hs := param_eq_ok.mp hp
    constructor
    · intro h; exact ⟨s, hs, Except.ok.inj h⟩
    · rintro ⟨t, ht, rfl⟩
      rw [utf8_injective (hs.symm.trans ht)]; rfl

/-- A literal segment of a route. -/
def literals : List Bytes := [utf8 "kv", utf8 "internal", utf8 "kv-versioned", utf8 "hint"]

theorem percentDecode_literal : ∀ s ∈ literals, percentDecode s = s := by decide

theorem percentEncode_literal : ∀ s ∈ literals, percentEncode s = s := by decide

/-- Literal segments and a parameter, decoded. -/
theorem map_percentDecode_concat {lits : List Bytes} (hl : lits ⊆ literals) {segment : Bytes}
    {s : String} (hs : percentDecode segment = utf8 s) :
    (lits ++ [segment]).map percentDecode = lits ++ [utf8 s] := by
  rw [List.map_append, List.map_singleton, hs]
  congr 1
  exact (List.map_congr_left fun t ht => percentDecode_literal t (hl ht)).trans (List.map_id lits)

theorem ne_empty_of_param {segment : Bytes} {s : String} (hne : segment ≠ [])
    (hs : percentDecode segment = utf8 s) : s ≠ "" := by
  rintro rfl
  exact percentDecode_ne_nil hne (hs.trans (utf8_eq_nil.mpr rfl))

/-- **The router calls a handler** only under its own path. -/
theorem path_of_route {m : Method} {segs : List Bytes} {h : Handler} (hr : route m segs = .ok h) :
    m = h.method ∧ segs.map percentDecode = h.path ∧ h.key ≠ "" := by
  unfold route at hr
  split at hr
  · next s1 key =>
    split_ifs at hr with hc
    obtain ⟨rfl, hne⟩ := hc
    have hl : [utf8 "kv"] ⊆ literals := by decide
    cases m <;> obtain ⟨k, hk, rfl⟩ := map_param_eq_ok.mp hr <;>
      exact ⟨rfl, map_percentDecode_concat hl hk, ne_empty_of_param hne hk⟩
  · next s1 s2 key =>
    split_ifs at hr with hc hc
    · obtain ⟨rfl, rfl, hne⟩ := hc
      have hl : [utf8 "internal", utf8 "kv"] ⊆ literals := by decide
      cases m <;> obtain ⟨k, hk, rfl⟩ := map_param_eq_ok.mp hr <;>
        exact ⟨rfl, map_percentDecode_concat hl hk, ne_empty_of_param hne hk⟩
    · obtain ⟨rfl, rfl, hne⟩ := hc
      have hl : [utf8 "internal", utf8 "kv-versioned"] ⊆ literals := by decide
      cases m with
      | get => cases hr
      | put =>
        obtain ⟨k, hk, rfl⟩ := map_param_eq_ok.mp hr
        exact ⟨rfl, map_percentDecode_concat hl hk, ne_empty_of_param hne hk⟩
  · next s1 s2 targetId key =>
    split_ifs at hr with hc
    obtain ⟨rfl, rfl, hne⟩ := hc
    have hl : [utf8 "internal", utf8 "hint"] ⊆ literals := by decide
    cases m with
    | get => cases hr
    | put =>
      cases hp : param targetId with
      | error e => simp [hp] at hr
      | ok t =>
        rw [hp] at hr
        have ht := param_eq_ok.mp hp
        obtain ⟨k, hk, rfl⟩ := map_param_eq_ok.mp hr
        refine ⟨rfl, ?_, ne_empty_of_param hne hk⟩
        have hlits : [utf8 "internal", utf8 "hint"].map percentDecode =
            [utf8 "internal", utf8 "hint"] :=
          (List.map_congr_left fun t ht => percentDecode_literal t (hl ht)).trans (List.map_id _)
        rw [Handler.path, ← hk, ← ht]
        exact congrArg (· ++ [percentDecode targetId, percentDecode key]) hlits
  · cases hr

theorem param_percentEncode {s : String} (h : hasEscape (utf8 s) = false) :
    param (percentEncode (utf8 s)) = .ok s := by
  rw [param_eq_ok, percentDecode_percentEncode, percentDecode_eq_self h]

/-- **Every handler is called** under its own path, encoded. -/
theorem route_path {h : Handler} (hne : h.key ≠ "") (hesc : ∀ s ∈ h.path, hasEscape s = false) :
    route h.method (h.path.map percentEncode) = .ok h := by
  have hlit : ∀ s ∈ literals, percentEncode s = s := percentEncode_literal
  simp only [literals, List.mem_cons, List.not_mem_nil, or_false, forall_eq_or_imp,
    forall_eq] at hlit
  obtain ⟨h1, h2, h3, h4⟩ := hlit
  have hv : utf8 "kv-versioned" ≠ utf8 "kv" := by decide
  have e : percentEncode (utf8 h.key) ≠ [] := percentEncode_ne_nil fun hk => hne (utf8_eq_nil.mp hk)
  cases h with
  | putHintInternal targetId key =>
    have p1 := param_percentEncode (hesc (utf8 targetId) (by simp [Handler.path]))
    have p2 := param_percentEncode (hesc (utf8 key) (by simp [Handler.path]))
    simp only [Handler.key] at e
    simp only [Handler.path, Handler.method, List.map_cons, List.map_nil, h2, h4, route, e, p1, p2,
      ne_eq, not_false_eq_true, and_self, if_true, Except.map]
  | _ key =>
    have p := param_percentEncode (hesc (utf8 key) (by simp [Handler.path]))
    simp only [Handler.key] at e
    simp only [Handler.path, Handler.method, List.map_cons, List.map_nil, h1, h2, h3, route, e, p,
      hv, ne_eq, not_false_eq_true, false_and, and_false, and_self, if_true, if_false, Except.map]

/-- **A request reaches a handler with its parameters** exactly if the last one is not empty and the
path is lossless. -/
theorem route_pathSegments_iff (h : Handler) :
    route h.method (pathSegments (joinPath h.path)) = .ok h ↔ h.key ≠ "" ∧ Lossless h.path := by
  have hpath : h.path ≠ [] := by cases h <;> simp [Handler.path]
  constructor
  · intro hr
    obtain ⟨-, hdec, hne⟩ := path_of_route hr
    exact ⟨hne, (decoded_pathSegments_joinPath_iff hpath).mp hdec⟩
  · rintro ⟨hne, hl⟩
    rw [pathSegments_of_lossless hpath hl]
    exact route_path hne fun s hs => (hl.1 s hs).2.1

/-- A hint for the empty target id has a route, an empty key has none. -/
example : route .put [utf8 "internal", utf8 "hint", [], utf8 "k"] =
      .ok (.putHintInternal "" "k") ∧
    route .put [utf8 "internal", utf8 "hint", utf8 "t", []] = .error .notFound := by
  decide

end Diynamo.Server.Router
