import Diynamo.Coordinator.NodeUrl
import Diynamo.System.Provenance
import Diynamo.System.Quorum

/-! # The messages over HTTP

`System.Step` carries a request to its node unchanged. In the program it is a URL with a body: the
client formats the address of the node, the key and the target id into it, the URL library reads it,
the node that listens at that address routes the path, decodes the parameters and reads the body. A
coordinator takes the address from the roster, a delivery or a reconciliation from the gossip state
it was started with. `Deployment.step` is the system with this transport.

A request whose key, and for a hint whose target id, are ones that a path carries arrives as it was
sent, or is answered with an error since its URL or its body is too large (`arrival_iff`,
`arrival_of_carried`). So over such keys the system over HTTP does only what the system does
(`run_refines`), and all of it that fits (`http_run`). -/

namespace Diynamo.System.Transport

open Diynamo.Lib.Run Diynamo.Lib.Utf8 Diynamo.Lib.UrlPath Diynamo.Lib.Url Diynamo.Api.Types
  Diynamo.Store.RocksDb Diynamo.Store.Hints Diynamo.Cluster.Ring Diynamo.Cluster.Delegate
  Diynamo.Server.Router Diynamo.Server.Handlers Diynamo.Client.Http Diynamo.Coordinator.NodeUrl
  Diynamo.Coordinator.Get Diynamo.Coordinator.Put Diynamo.Coordinator.Handoff Diynamo.System.Step
  Diynamo.System.Rules Diynamo.System.WellFormed Diynamo.System.Quorum
  Diynamo.System.Provenance

/-! ### One request -/

/-- The path and the key in the URL of a job, if it goes over HTTP. -/
def jobPath : Job → Option (InternalPath × String)
  | .getInternal key => some (.kv, key)
  | .putVersioned key _ _ => some (.kvVersioned, key)
  | .putHint targetId key _ _ => some (.hint targetId, key)
  | .localGet _ | .localPut .. => none

def jobMethod : Job → Method
  | .getInternal _ | .localGet _ => .get
  | .putVersioned .. | .putHint .. | .localPut .. => .put

def jobBody : Job → Option SentBody
  | .putVersioned _ value timestamp | .putHint _ _ value timestamp =>
    some (.putVersioned ⟨value, timestamp⟩)
  | .getInternal _ | .localGet _ | .localPut .. => none

/-- The body of the request is not too large. -/
def BodyFits (job : Job) : Prop := ∀ body ∈ jobBody job, Fits body

instance (job : Job) : Decidable (BodyFits job) :=
  inferInstanceAs (Decidable (∀ body ∈ jobBody job, Fits body))

/-- What an internal handler does, as a job, with the body of the request. -/
def handlerJob (job : Job) : Handler → Option Job
  | .getKvInternal key => some (.getInternal key)
  | .putKvInternalVersioned key =>
    match job with
    | .putVersioned _ value timestamp | .putHint _ _ value timestamp =>
      some (.putVersioned key value timestamp)
    | _ => none
  | .putHintInternal targetId key =>
    match job with
    | .putVersioned _ value timestamp | .putHint _ _ value timestamp =>
      some (.putHint targetId key value timestamp)
    | _ => none
  | _ => none

/-- What becomes of a request. -/
inductive Arrival where
  /-- the node `y` does `job` -/
  | arrives (y : NodeId) (job : Job)
  /-- nobody does it, and the client makes `a` of that -/
  | refused (a : Answer)
  /-- a handler takes it that the client does not mean -/
  | elsewhere
deriving DecidableEq

/-- **What the client makes of an error status**: a missing route reads like a missing key. -/
def refusal : Job → StatusCode → Answer
  | .getInternal _, .notFound => .value none
  | _, _ => .failed

/-- **Where the nodes are reached**: the hosts of the URL library, the node that listens at a host
and a port, and the gossip state of a node that a task was started with, by the index of the
task. -/
structure Network where
  lib : HostLibrary
  listener : Host → ℕ → Option NodeId
  announced : ℕ → NodeId → SocketAddr × NodeMeta

/-- A delivery or a reconciliation. -/
def isTask : Proc → Bool
  | .deliver .. | .reconcile _ => true
  | .put _ | .get _ => false

/-- The task that sends a request, if one does. -/
def taskOf (w : World) (req : Request) : Option ℕ :=
  req.tag.filter fun i => w.procs[i]?.any isTask

namespace Network

variable (net : Network) (cfg : Cluster) (w : World) (req : Request)

/-- **The client for a request**: a task has the address that gossip gave it, a coordinator that of
the roster. -/
def clientOf : Option KvClient :=
  match taskOf w req with
  | some i =>
    some (.withHttp (nodeUrl (net.announced i req.dst).1 (net.announced i req.dst).2))
  | none =>
    (cfg.ring.membersById.find? fun m => m.id = req.dst).map fun m => .withHttp (internalBaseUrl m)

/-- The URL of a request, if it goes over HTTP. -/
def url : Option String :=
  (jobPath req.job).bind fun x => (net.clientOf cfg w req).map fun c => x.1.url c x.2

/-- **The request for a URL.** -/
def arrivalAt (url : String) (job : Job) : Arrival :=
  match requestUrl net.lib url with
  | none => .refused .failed
  | some u =>
    match net.listener u.host u.portOrDefault with
    | none => .refused .failed
    | some y =>
      match route (jobMethod job) u.path with
      | .error code => .refused (refusal job code)
      | .ok h =>
        match handlerJob job h with
        | none => .elsewhere
        | some job' => if BodyFits job then .arrives y job' else .refused .failed

/-- **What becomes of a request**; the branch for the own store is not sent. -/
def arrival : Arrival :=
  match jobPath req.job with
  | none => .arrives req.dst req.job
  | some _ =>
    match net.url cfg w req with
    | none => .refused .failed
    | some url => net.arrivalAt url req.job

/-- **The request can be sent**: its URL is one, and not too long, and its body is not too large. -/
def Sendable : Prop :=
  BodyFits req.job ∧ ∀ url ∈ net.url cfg w req, (requestUrl net.lib url).isSome = true

instance : Decidable (net.Sendable cfg w req) := by unfold Sendable; infer_instance

/-- **One step of the system over HTTP**: a request is served by the node where it arrives, with the
parameters that arrive, and the answer is one to the request as it was sent. A request that another
handler takes has no step here. -/
def step (w : World) : Act → Option World
  | .serve i =>
    match w.net[i]? with
    | none => none
    | some req =>
      match net.arrival cfg w req with
      | .arrives y job => some { w.setNode y (perform (w.node y) job).1 with
          net := w.net.eraseIdx i
          replies := w.replies ++ [(req, (perform (w.node y) job).2)] }
      | .refused _ | .elsewhere => none
  | .check i =>
    match w.net[i]? with
    | none => none
    | some req =>
      match net.arrival cfg w req with
      | .arrives y job => if Passes (w.node y) job then some (w.check i req) else none
      | .refused _ | .elsewhere => none
  | .write i =>
    match w.checked[i]? with
    | none => none
    | some req =>
      match net.arrival cfg w req with
      | .arrives y job => (Job.writes job).map fun x =>
        { w.setNode y { w.node y with
            localStore := (w.node y).localStore.write x.1 x.2.data x.2.timestamp } with
          checked := w.checked.eraseIdx i
          replies := w.replies ++ [(req, .done)] }
      | .refused _ | .elsewhere => none
  | .refuse i =>
    match w.net[i]? with
    | none => none
    | some req =>
      match net.arrival cfg w req with
      | .arrives _ _ => some (w.refuse i req)
      | .refused a =>
        some { w with net := w.net.eraseIdx i, replies := w.replies ++ [(req, a)] }
      | .elsewhere => none
  | a => Step.step cfg w a

end Network

/-! ### The calls of the client -/

section Calls

variable {net : Network} {url : String} {job job' : Job} {y : NodeId} {σ : Type}

/-- A request that arrives is one that the URL library and the router let through. -/
theorem arrivalAt_eq_arrives : net.arrivalAt url job = .arrives y job' ↔
    ∃ u h, requestUrl net.lib url = some u ∧ net.listener u.host u.portOrDefault = some y ∧
      route (jobMethod job) u.path = .ok h ∧ handlerJob job h = some job' ∧ BodyFits job := by
  unfold Network.arrivalAt
  cases hu : requestUrl net.lib url with
  | none => simp
  | some u =>
    cases hl : net.listener u.host u.portOrDefault with
    | none => simp [hl]
    | some z =>
      cases hr : route (jobMethod job) u.path with
      | error code => simp [hl, hr]
      | ok h =>
        cases hj : handlerJob job h with
        | none => simp [hl, hr, hj]
        | some j => by_cases hf : BodyFits job <;> simp [hl, hr, hj, hf]

/-- The body of a put goes to the handler that takes it. -/
theorem handlerJob_of_body {b : PutVersionedBody} (hb : jobBody job = some (.putVersioned b))
    (key : String) :
    handlerJob job (.putKvInternalVersioned key) = some (.putVersioned key b.value b.timestamp) ∧
      ∀ t, handlerJob job (.putHintInternal t key) = some (.putHint t key b.value b.timestamp) := by
  cases job with
  | putVersioned => cases hb; exact ⟨rfl, fun _ => rfl⟩
  | putHint => cases hb; exact ⟨rfl, fun _ => rfl⟩
  | _ => cases hb

/-- **A put of the client** has the effect that `perform` has where the request arrives. -/
theorem sendPut_of_arrives (h : net.arrivalAt url job = .arrives y job') {b : PutVersionedBody}
    (hb : jobBody job = some (.putVersioned b)) (sv : AppState σ) (s : σ) (now : ℕ) :
    ((perform (sv.node s) job').2 = .done ∧
      sendPut (urlLibrary net.lib) sv s url (.putVersioned b) now =
        (.ok (), sv.setNode s (perform (sv.node s) job').1)) ∨
      (perform (sv.node s) job' = (sv.node s, .failed) ∧
        ∃ e, sendPut (urlLibrary net.lib) sv s url (.putVersioned b) now = (.error e, s)) := by
  obtain ⟨u, hd, hu, -, hr, hjob, hfits⟩ := arrivalAt_eq_arrives.mp h
  have hm : jobMethod job = .put := by
    cases job with
    | putVersioned => rfl
    | putHint => rfl
    | _ => cases hb
  rw [hm] at hr
  have hfits' : Fits (.putVersioned b) := hfits _ hb
  have hhandler : (urlLibrary net.lib).handler .put url = some hd :=
    handler_eq_some.mpr ⟨u.path, by simp only [urlLibrary, hu, Option.map_some], hr⟩
  rw [sendPut_of_handler hhandler]
  cases hd with
  | putKvInternalVersioned key =>
    obtain rfl := Option.some.inj (hjob.symm.trans ((handlerJob_of_body hb key).1))
    simp only [AppState.handlePut, readPutVersionedBody_of_fits hfits', perform]
    cases hs : (sv.node s).putKvInternalVersioned key b with
    | error code => exact Or.inr ⟨rfl, _, rfl⟩
    | ok n => exact Or.inl ⟨rfl, rfl⟩
  | putHintInternal targetId key =>
    obtain rfl := Option.some.inj (hjob.symm.trans ((handlerJob_of_body hb key).2 targetId))
    simp only [AppState.handlePut, readPutVersionedBody_of_fits hfits', perform]
    cases hs : (sv.node s).putHintInternal targetId key b with
    | error code => exact Or.inr ⟨rfl, _, rfl⟩
    | ok n => exact Or.inl ⟨rfl, rfl⟩
  | getKvInternal key =>
    -- a put is not routed to a reader
    cases (path_of_route hr).1
  | _ => cases hjob

/-- **A get of the client** reads what `perform` answers where the request arrives. -/
theorem getInternalVersioned_of_arrives {c : KvClient} {key : String}
    (h : net.arrivalAt (c.internalKvUrl key) (.getInternal key) = .arrives y job')
    (sv : AppState σ) (s : σ) :
    (∃ o, perform (sv.node s) job' = (sv.node s, .value o) ∧
      getInternalVersioned (urlLibrary net.lib) c sv s (utf8 key) = (.ok o, s)) ∨
      (perform (sv.node s) job' = (sv.node s, .failed) ∧
        ∃ e, getInternalVersioned (urlLibrary net.lib) c sv s (utf8 key) = (.error e, s)) := by
  obtain ⟨u, hd, hu, -, hr, hjob, -⟩ := arrivalAt_eq_arrives.mp h
  cases hd with
  | getKvInternal k =>
    cases hjob
    have hr' : route .get u.path = .ok (.getKvInternal k) := hr
    simp only [getInternalVersioned, fromUtf8_utf8, urlLibrary, hu, Option.map_some,
      AppState.serveGet, hr', AppState.handleGet, perform]
    cases hk : (sv.node s).getKvInternal k with
    | ok body => exact Or.inl ⟨_, rfl, rfl⟩
    | error code =>
      cases code with
      | notFound => exact Or.inl ⟨_, rfl, rfl⟩
      | _ => exact Or.inr ⟨rfl, _, rfl⟩
  | _ => cases hjob

end Calls

/-! ### Deployments -/

/-- **The node listens** at the address and the port; a URL of an IPv6 address is not sent at all.
-/
def Network.Reaches (net : Network) (ip : IpAddr) (port : UInt16) (x : NodeId) : Prop :=
  isIpv4 ip = true → net.listener (hostOf ip) port.toNat = some x

/-- **A cluster on a network**: every member listens at its address in the roster and at those that
gossip announces for it, and its id is one that a path carries. -/
structure Deployment (cfg : Cluster) extends Network where
  roster : ∀ m ∈ cfg.ring.membersById, toNetwork.Reaches m.gossipAddr.ip m.forwardPort m.id
  announces : ∀ i, ∀ x ∈ cfg.ring.nodes,
    toNetwork.Reaches (announced i x).1.ip (announced i x).2.httpPort x
  targets : ∀ x ∈ cfg.ring.nodes, TargetSafe x

/-- **One step of a deployment.** -/
def Deployment.step {cfg : Cluster} (d : Deployment cfg) : World → Act → Option World :=
  d.toNetwork.step cfg

variable {cfg : Cluster} {w w' : World} {a : Act} {req : Request} (d : Deployment cfg)

/-- **What is sent from a base URL reaches the node**, if it is sent at all. -/
def Network.LeadsTo (net : Network) (base : String) (x : NodeId) : Prop :=
  (∃ o port, base = formatBaseUrl (.v6 o) port) ∨
    ∃ a : Authority, base = a.baseUrl ∧ net.listener a.host (a.portOrNone.getD 80) = some x

theorem Network.Reaches.leadsTo {net : Network} {ip : IpAddr} {port : UInt16} {x : NodeId}
    (h : net.Reaches ip port x) : net.LeadsTo (formatBaseUrl ip port) x := by
  cases ip with
  | v6 o => exact Or.inl ⟨o, port, rfl⟩
  | v4 o =>
    refine Or.inr ⟨⟨o, port⟩, rfl, ?_⟩
    have hport : (Authority.portOrNone ⟨o, port⟩).getD 80 = port.toNat := by
      rw [Authority.portOrNone]
      split_ifs with h
      · rw [Option.getD_none]
        exact h.symm
      · rfl
    rw [hport]
    exact h rfl

/-- **The client for a request to a member** has an address where the member listens. -/
theorem Deployment.exists_client (hdst : req.dst ∈ cfg.ring.nodes) : ∃ base : String,
    d.clientOf cfg w req = some (.withHttp base) ∧ d.LeadsTo base req.dst := by
  unfold Network.clientOf
  cases taskOf w req with
  | some i => exact ⟨_, rfl, (d.announces i _ hdst).leadsTo⟩
  | none =>
    obtain ⟨m, hm, hid⟩ := List.mem_map.mp hdst
    have hfind : cfg.ring.membersById.find? (fun m' => m'.id = req.dst) = some m := by
      obtain ⟨m', hm'⟩ : ∃ m', cfg.ring.membersById.find? (fun m' => m'.id = req.dst) = some m' :=
        Option.isSome_iff_exists.mp (List.find?_isSome.mpr ⟨m, hm, by simp [hid]⟩)
      have hid' : m'.id = req.dst := by simpa using List.find?_some hm'
      rw [hm', List.inj_on_of_nodup_map cfg.ring.nodup (List.mem_of_find?_eq_some hm') hm
        (hid'.trans hid.symm)]
    have hleads := (d.roster m hm).leadsTo
    rw [hid] at hleads
    exact ⟨_, by simp only [hfind, Option.map_some]; rfl, hleads⟩

/-! ### When a request arrives as it was sent -/

/-- The handler that a job means. -/
def jobHandler : Job → Option Handler
  | .getInternal key => some (.getKvInternal key)
  | .putVersioned key _ _ => some (.putKvInternalVersioned key)
  | .putHint targetId key _ _ => some (.putHintInternal targetId key)
  | .localGet _ | .localPut .. => none

/-- **A path carries the parameters of the job.** -/
def CarriedJob : Job → Prop
  | .getInternal key | .putVersioned key _ _ => key ≠ "" ∧ KeySafe key
  | .putHint targetId key _ _ => key ≠ "" ∧ KeySafe key ∧ TargetSafe targetId
  | .localGet _ | .localPut .. => True

instance : ∀ job, Decidable (CarriedJob job)
  | .getInternal key | .putVersioned key _ _ => inferInstanceAs (Decidable (key ≠ "" ∧ KeySafe key))
  | .putHint targetId key _ _ =>
    inferInstanceAs (Decidable (key ≠ "" ∧ KeySafe key ∧ TargetSafe targetId))
  | .localGet _ | .localPut .. => isTrue trivial

/-- Only the handler that is meant does the job. -/
theorem handlerJob_eq_self {job : Job} {h : Handler} (hp : jobPath job ≠ none) :
    handlerJob job h = some job ↔ jobHandler job = some h := by
  cases job <;> cases h <;> simp [handlerJob, jobHandler, eq_comm] at hp ⊢

/-- A URL that is sent is short enough, and has the address of the client. -/
theorem authority_of_requestUrl {lib : HostLibrary} {a : Authority} {p : InternalPath}
    {key : String} {u : HttpUrl}
    (hu : requestUrl lib (p.url (.withHttp a.baseUrl) key) = some u) :
    a.UrlFits (p.text key) ∧ u.host = a.host ∧ u.port = a.portOrNone := by
  rw [p.url_eq, a.withHttp_baseUrl, a.requestUrl_baseUrl lib (p.head?_toList_text key)] at hu
  split_ifs at hu with hfits
  cases hu
  exact ⟨hfits, rfl, rfl⟩

/-- **The request of a job** is routed to its handler exactly if a path carries its parameters. -/
theorem route_job_iff {lib : HostLibrary} (a : Authority) {job : Job} {h : Handler}
    {p : InternalPath} {key : String} (hh : jobHandler job = some h)
    (hp : jobPath job = some (p, key)) {u : HttpUrl}
    (hu : requestUrl lib (p.url (.withHttp a.baseUrl) key) = some u) :
    route (jobMethod job) u.path = .ok h ↔ CarriedJob job := by
  have hfits : a.UrlFits (p.text key) := (authority_of_requestUrl hu).1
  have hroute : route (jobMethod job) u.path = .ok h ↔
      (urlLibrary lib).handler (jobMethod job) (p.url (.withHttp a.baseUrl) key) = some h := by
    rw [handler_eq_some]
    simp [urlLibrary, hu]
  have hempty : ∀ {k}, h.key = k → route (jobMethod job) u.path = .ok h → k ≠ "" :=
    fun hk hr => hk ▸ (path_of_route hr).2.2
  cases job with
  | getInternal k =>
    obtain ⟨rfl, rfl⟩ := Prod.mk.inj (Option.some.inj hp)
    cases hh
    by_cases hk : k = ""
    · exact iff_of_false (fun hr => hempty rfl hr hk) fun hc => hc.1 hk
    · exact ((hroute.trans (handler_internalKvUrl_get hk)).trans (and_iff_right hfits)).trans
        (and_iff_right hk).symm
  | putVersioned k v ts =>
    obtain ⟨rfl, rfl⟩ := Prod.mk.inj (Option.some.inj hp)
    cases hh
    by_cases hk : k = ""
    · exact iff_of_false (fun hr => hempty rfl hr hk) fun hc => hc.1 hk
    · exact ((hroute.trans (handler_internalKvVersionedUrl hk)).trans (and_iff_right hfits)).trans
        (and_iff_right hk).symm
  | putHint t k v ts =>
    obtain ⟨rfl, rfl⟩ := Prod.mk.inj (Option.some.inj hp)
    cases hh
    by_cases hk : k = ""
    · exact iff_of_false (fun hr => hempty rfl hr hk) fun hc => hc.1 hk
    · exact (((hroute.trans (handler_hintUrl hk)).trans (and_iff_right hfits)).trans and_comm).trans
        (and_iff_right hk).symm
  | _ => cases hh

/-- The URL of a request to a member, if it goes over HTTP. -/
theorem Deployment.url_cases (w : World) (hdst : req.dst ∈ cfg.ring.nodes) :
    (jobPath req.job = none ∧ d.url cfg w req = none) ∨
      ∃ (p : InternalPath) (key url : String), jobPath req.job = some (p, key) ∧
        d.url cfg w req = some url ∧ (requestUrl d.lib url = none ∨
          ∃ a : Authority, url = p.url (.withHttp a.baseUrl) key ∧
            ∀ u, requestUrl d.lib url = some u →
              d.listener u.host u.portOrDefault = some req.dst) := by
  obtain ⟨base, hclient, hleads⟩ := d.exists_client (w := w) hdst
  unfold Network.url
  cases hp : jobPath req.job with
  | none => exact Or.inl ⟨rfl, rfl⟩
  | some x =>
    refine Or.inr ⟨x.1, x.2, x.1.url (.withHttp base) x.2, rfl, by rw [hclient]; rfl, ?_⟩
    rcases hleads with ⟨o, port, rfl⟩ | ⟨a, rfl, hlisten⟩
    · left
      rw [x.1.url_eq, withHttp_formatBaseUrl]
      exact requestUrl_ipv6 o port (x.1.head?_toList_text x.2)
    · refine Or.inr ⟨a, rfl, fun u hu => ?_⟩
      obtain ⟨-, hhost, hport⟩ := authority_of_requestUrl hu
      rw [HttpUrl.portOrDefault, hhost, hport]
      exact hlisten

/-- A job that goes over HTTP is done by its own handler. -/
theorem exists_handler (job : Job) (hp : jobPath job ≠ none) :
    ∃ h, jobHandler job = some h ∧ ∀ h', handlerJob job h' = some job ↔ h' = h := by
  obtain ⟨h, hh⟩ : ∃ h, jobHandler job = some h := by
    cases job <;> first | exact ⟨_, rfl⟩ | exact absurd rfl hp
  refine ⟨h, hh, fun h' => ?_⟩
  rw [handlerJob_eq_self hp, hh, Option.some.injEq, eq_comm]

/-- **A request to a member arrives as it was sent** exactly if a path carries its parameters and it
can be sent. -/
theorem arrival_iff (hdst : req.dst ∈ cfg.ring.nodes) :
    d.arrival cfg w req = .arrives req.dst req.job ↔
      CarriedJob req.job ∧ d.Sendable cfg w req := by
  unfold Network.arrival Network.Sendable
  rcases d.url_cases w hdst with ⟨hp, hurl⟩ | ⟨p, key, url, hp, hurl, hnone | ⟨a, rfl, hlisten⟩⟩
  · have hc : CarriedJob req.job ∧ BodyFits req.job := by
      cases hj : req.job with
      | localGet => exact ⟨trivial, nofun⟩
      | localPut => exact ⟨trivial, nofun⟩
      | _ => rw [hj] at hp; cases hp
    simp [hp, hurl, hc]
  · simp [hp, hurl, hnone, Network.arrivalAt]
  · obtain ⟨h, hh, hself⟩ := exists_handler req.job (by simp [hp])
    simp only [hp, hurl, Option.mem_some_iff, forall_eq']
    rw [arrivalAt_eq_arrives]
    constructor
    · rintro ⟨u, h', hu, -, hr, hj, hfits⟩
      rw [(hself h').mp hj] at hr
      exact ⟨(route_job_iff a hh hp hu).mp hr, hfits, by rw [hu]; rfl⟩
    · rintro ⟨hc, hfits, hsome⟩
      obtain ⟨u, hu⟩ := Option.isSome_iff_exists.mp hsome
      exact ⟨u, h, hu, hlisten u hu, (route_job_iff a hh hp hu).mpr hc, (hself h).mpr rfl, hfits⟩

/-- **One that cannot be sent** ends with an error. -/
theorem arrival_of_carried (hdst : req.dst ∈ cfg.ring.nodes) (hc : CarriedJob req.job)
    (hs : ¬ d.Sendable cfg w req) : d.arrival cfg w req = .refused .failed := by
  rcases d.url_cases w hdst with ⟨hp, -⟩ | ⟨p, key, url, hp, hurl, hnone | ⟨a, rfl, hlisten⟩⟩
  · refine absurd ((arrival_iff d hdst).mp ?_).2 hs
    simp only [Network.arrival, hp]
  · simp only [Network.arrival, hp, hurl, Network.arrivalAt, hnone]
  · obtain ⟨h, hh, hself⟩ := exists_handler req.job (by simp [hp])
    simp only [Network.arrival, hp, hurl, Network.arrivalAt]
    cases hu : requestUrl d.lib (p.url (.withHttp a.baseUrl) key) with
    | none => rfl
    | some u =>
      have hbody : ¬ BodyFits req.job := fun hf => by
        refine hs ⟨hf, ?_⟩
        simp [hurl, hu]
      simp only [hlisten u hu, (route_job_iff a hh hp hu).mpr hc, (hself h).mpr rfl, if_neg hbody]

/-! ### Runs -/

/-- A key that a path carries, if it is sent at all. -/
def SafeKey (key : Bytes) : Prop := ∀ k ∈ fromUtf8 key, k ≠ "" ∧ KeySafe k

instance (key : Bytes) : Decidable (SafeKey key) :=
  inferInstanceAs (Decidable (∀ k ∈ fromUtf8 key, k ≠ "" ∧ KeySafe k))

/-- **The condition on an action**: the key of a put or a get is one that a path carries, and a task
is for a member. -/
def CarriedAct (cfg : Cluster) : Act → Prop
  | .put _ key _ _ | .get _ key => SafeKey key
  | .deliver _ nodeId | .reconcile _ nodeId _ => nodeId ∈ cfg.ring.nodes
  | _ => True

instance : ∀ a, Decidable (CarriedAct cfg a)
  | .put _ key _ _ | .get _ key => inferInstanceAs (Decidable (SafeKey key))
  | .deliver _ nodeId | .reconcile _ nodeId _ =>
    inferInstanceAs (Decidable (nodeId ∈ cfg.ring.nodes))
  | .serve _ | .check _ | .write _ | .refuse _ | .loseRequest _ | .loseReply _ | .answer _
  | .fail .. | .advance _ | .abort _ | .setFaults .. => isTrue trivial

/-- The same in a state: a task that finds nothing to send can be for any node. -/
def CarriedIn (cfg : Cluster) (w : World) : Act → Prop
  | .put _ key _ _ | .get _ key => SafeKey key
  | .deliver x nodeId => nodeId ∉ cfg.ring.nodes → (w.node x).hints.hintsForNode nodeId = []
  | .reconcile x nodeId onlineIds => nodeId ∉ cfg.ring.nodes →
    reconcileKeys cfg.preferred x nodeId onlineIds (w.node x).localStore = []
  | _ => True

/-- The keys of a job are ones that a path carries, and a hint is for a member. -/
structure JobSafe (cfg : Cluster) (job : Job) : Prop where
  writes : ∀ key v, Job.writes job = some (key, v) → SafeKey key
  reads : ∀ key, Job.reads job = some key → SafeKey key
  hints : ∀ t key e, Job.hints job = some (t, key, e) → SafeKey key ∧ t ∈ cfg.ring.nodes

/-- A request is one to a member, with parameters that a path carries. -/
def Carried (cfg : Cluster) (req : Request) : Prop :=
  req.dst ∈ cfg.ring.nodes ∧ JobSafe cfg req.job

/-- The keys of a process are ones that a path carries, and a task with something to send is for a
member. -/
def ProcCarried (cfg : Cluster) : Proc → Prop
  | .put p => SafeKey p.key
  | .get g => SafeKey g.key
  | .deliver _ d => ∀ y ∈ d.pending, d.nodeId ∈ cfg.ring.nodes ∧ SafeKey y.1
  | .reconcile q => ∀ x ∈ pushes cfg q, q.nodeId ∈ cfg.ring.nodes ∧ SafeKey x.1

/-- **The stores hold only keys that a path carries**, the hint stores only such ones for members.
-/
structure StoresCarried (cfg : Cluster) (w : World) : Prop where
  stores : ∀ x key v, (w.node x).localStore.get key = some v → SafeKey key
  hints : ∀ x, ∀ t ∈ cfg.ring.nodes, ∀ key e, (w.node x).hints.entry t key = some e → SafeKey key

/-- **The invariant**: all keys in the system are ones that a path carries. -/
structure AllCarried (cfg : Cluster) (w : World) : Prop extends StoresCarried cfg w where
  wf : AllWF cfg w
  procs : ∀ (i : ℕ) (p : Proc), w.procs[i]? = some p → ProcCarried cfg p
  net : ∀ req ∈ w.net, Carried cfg req
  checked : ∀ req ∈ w.checked, Carried cfg req

theorem allCarried_of_quiet (h0 : Quiet w) (hs : StoresCarried cfg w) : AllCarried cfg w := by
  obtain ⟨hp, hn, hc, -⟩ := h0
  refine ⟨hs, fun i p hi => ?_, fun i p hi => ?_, fun req hr => ?_, fun req hr => ?_⟩
  · simp [hp] at hi
  · simp [hp] at hi
  · simp [hn] at hr
  · simp [hc] at hr

include d in
theorem carriedJob_of_safe {job : Job} (h : JobSafe cfg job) : CarriedJob job := by
  have hself : ∀ {k : String}, SafeKey (utf8 k) → k ≠ "" ∧ KeySafe k :=
    fun h => h _ (fromUtf8_utf8 _)
  cases job with
  | getInternal k => exact hself (h.reads _ rfl)
  | putVersioned k v ts => exact hself (h.writes _ _ rfl)
  | putHint t k v ts =>
    obtain ⟨hk, ht⟩ := h.hints _ _ _ rfl
    exact ⟨(hself hk).1, (hself hk).2, d.targets t ht⟩
  | _ => trivial

/-! ### What a step keeps -/

theorem jobSafe_of_writes {job : Job} {key : Bytes} {v : VersionedValue}
    (hj : Job.writes job = some (key, v)) (hk : SafeKey key) : JobSafe cfg job where
  writes := fun k u h => by
    obtain ⟨rfl, -⟩ := Prod.mk.inj (Option.some.inj (hj.symm.trans h))
    exact hk
  reads := fun k h => by
    rw [(writes_hints_of_reads h).1] at hj
    cases hj
  hints := fun t k e h => by
    rw [hints_of_writes hj] at h
    cases h

/-- What a process asks for is carried. -/
theorem carried_expects {tag : ℕ} {p : Proc} (hwf : WF cfg p) (hc : ProcCarried cfg p)
    (h : req ∈ p.expects tag) : Carried cfg req := by
  cases p with
  | put p =>
    have hwf' : PutWF cfg p := hwf
    have horder := ringOrder_subset hwf'.ringOrder
    rcases (expects_put h).2 with ⟨hwait, hj⟩ | ⟨hasked, t, htgt, hj⟩
    · have hm : req.dst ∈ p.order.take cfg.n := hwf'.perm.subset (List.mem_append_right _ hwait)
      exact ⟨horder (List.mem_of_mem_take hm), jobSafe_of_writes hj hc⟩
    · refine ⟨horder (List.mem_of_mem_drop (hwf'.asked _ hasked).2), fun k u hw => ?_,
        fun k hr => ?_, fun t' k e hh => ?_⟩
      · rw [hints_of_writes hw] at hj
        cases hj
      · rw [(writes_hints_of_reads hr).2] at hj
        cases hj
      · cases hj.symm.trans hh
        exact ⟨hc, horder (List.mem_of_mem_take (hwf'.targets (List.mem_of_mem_head? htgt)))⟩
  | get g =>
    have hwf' : GetWF cfg g := hwf
    obtain ⟨-, hwait, hj⟩ := expects_get h
    obtain ⟨hw, hh⟩ := writes_hints_of_reads hj
    refine ⟨preferred_subset _ (hwf'.preferred (List.mem_append_right _ hwait)), fun k u hw' => ?_,
      fun k hr => ?_, fun t k e hh' => ?_⟩
    · rw [hw] at hw'
      cases hw'
    · cases hj.symm.trans hr
      exact hc
    · rw [hh] at hh'
      cases hh'
  | deliver self d =>
    obtain ⟨-, -, hdst, y, hy, hj⟩ := expects_deliver h
    obtain ⟨hm, hk⟩ := hc y (List.mem_of_mem_head? hy)
    exact ⟨hdst ▸ hm, jobSafe_of_writes hj hk⟩
  | reconcile q =>
    have hwf' : ReconcileWF cfg q := hwf
    obtain ⟨-, hawait, hdst, y, hy, hj⟩ := expects_reconcile h
    obtain ⟨hm, hk⟩ := hc y (hwf' hawait y hy)
    exact ⟨hdst ▸ hm, jobSafe_of_writes hj hk⟩

theorem carried_sends {g : GetProc} (hwf : GetWF cfg g) (hc : SafeKey g.key)
    (h : req ∈ (Proc.get g).sends cfg) : Carried cfg req := by
  obtain ⟨-, hresp, v, -, hj⟩ := mem_sends h
  exact ⟨preferred_subset _ (hwf.preferred (List.mem_append_left _ hresp)), jobSafe_of_writes hj hc⟩

theorem slash_not_mem_of_targetSafe {t : NodeId} (h : TargetSafe t) : '/' ∉ t.toList := fun hm => by
  have hsep := (h.1 slash (slash_mem_utf8.mpr hm)).1
  exact absurd hsep (by decide)

theorem CarriedAct.carriedIn (ha : CarriedAct cfg a) (w : World) : CarriedIn cfg w a := by
  cases a with
  | put => exact ha
  | get => exact ha
  | deliver => exact fun h => absurd ha h
  | reconcile => exact fun h => absurd ha h
  | _ => trivial

theorem procCarried_starts (hw : AllCarried cfg w) (ha : CarriedIn cfg w a) {p : Proc}
    (h : Starts cfg w a p) : ProcCarried cfg p := by
  cases h with
  | put => exact ha
  | get => exact ha
  | deliver =>
    next x nodeId =>
    intro y hy
    by_cases hm : nodeId ∈ cfg.ring.nodes
    · exact ⟨hm, hw.hints _ _ hm y.1 _ (HintStore.mem_hintsForNode.mp hy)⟩
    · have hnil : (w.node x).hints.hintsForNode nodeId = [] := ha hm
      have hmem : y ∈ (w.node x).hints.hintsForNode nodeId := hy
      rw [hnil] at hmem
      cases hmem
  | reconcile =>
    next x nodeId onlineIds =>
    intro y hy
    rw [pushes_start] at hy
    by_cases hm : nodeId ∈ cfg.ring.nodes
    · exact ⟨hm, hw.stores _ y.1 y.2 (mem_reconcileKeys.mp hy).1⟩
    · have hnil : reconcileKeys cfg.preferred x nodeId onlineIds (w.node x).localStore = [] := ha hm
      rw [hnil] at hy
      cases hy

theorem procCarried_moves {j : ℕ} {p p' : Proc} (hp : ProcCarried cfg p)
    (h : Moves cfg w a j p p') : ProcCarried cfg p' := by
  cases p with
  | put p =>
    obtain ⟨p', rfl, hk, -⟩ := moves_put h
    rw [ProcCarried, hk]
    exact hp
  | get g =>
    obtain ⟨g', rfl, hk⟩ := moves_get h
    rw [ProcCarried, hk]
    exact hp
  | deliver self d =>
    obtain ⟨d', rfl, hid, hsub⟩ := moves_deliver h
    rw [ProcCarried, hid]
    exact fun y hy => hp y (hsub hy)
  | reconcile q =>
    obtain ⟨q', rfl, hid, hsub⟩ := moves_reconcile h
    rw [ProcCarried, hid]
    exact fun x hx => hp x (hsub hx)

include d in
/-- **The stores** take only keys that a path carries. -/
theorem storesCarried_step (hw : AllCarried cfg w) (h : Effect cfg w a w') :
    StoresCarried cfg w' := by
  refine ⟨fun x key v hv => ?_, fun x t ht key e he => ?_⟩
  · rcases localStore_step h x with hs | ⟨i, req, k, u, -, hi, -, hj, hs⟩ |
      ⟨i, req, k, u, -, hi, -, hj, hs⟩
    · rw [hs] at hv
      exact hw.stores x key v hv
    · rw [hs] at hv
      rcases RocksDbStore.get_putIfNewer_cases hv with hv | ⟨rfl, rfl⟩
      · exact hw.stores x key v hv
      · exact (hw.net req (List.mem_of_getElem? hi)).2.writes _ _ hj
    · rw [hs, RocksDbStore.get_write] at hv
      split_ifs at hv with hk
      · rw [hk]
        exact (hw.checked req hi).2.writes _ _ hj
      · exact hw.stores x key v hv
  · rcases hint_step h he with he | ⟨req, hr, t', key', -, hj, hslash, hk⟩
    · exact hw.hints x t ht key e he
    · obtain ⟨-, rfl⟩ :=
        (hintKey_inj (slash_not_mem_of_targetSafe (d.targets t ht)) hslash).mp hk
      exact ((hw.net req hr).2.hints _ _ _ hj).1

include d in
/-- **One step** keeps everything carried. -/
theorem allCarried_step (hw : AllCarried cfg w) (ha : CarriedIn cfg w a) (h : Effect cfg w a w') :
    AllCarried cfg w' := by
  have hwf := allWF_step hw.wf h
  have hprocs : ∀ (i : ℕ) (p : Proc), w'.procs[i]? = some p → ProcCarried cfg p := by
    intro i p hp
    rcases proc_step h hp with hp | ⟨-, hs⟩ | ⟨q, hq, hm⟩
    · exact hw.procs i p hp
    · exact procCarried_starts hw ha hs
    · exact procCarried_moves (hw.procs i q hq) hm
  refine ⟨storesCarried_step d hw h, hwf, hprocs, fun req hr => ?_, fun req hr => ?_⟩
  · rcases net_step h hr with hr | ⟨i, p, hp, hr⟩ | ⟨i, g, hg, hr⟩
    · exact hw.net req hr
    · exact carried_expects (hwf i p hp) (hprocs i p hp) hr
    · exact carried_sends (hw.wf i _ hg) (hw.procs i _ hg) hr
  · exact (checked_step h hr).elim (hw.checked req) (hw.net req)

/-- **The requests that an action serves can be sent.** -/
def Network.SendableAct (net : Network) (cfg : Cluster) (w : World) : Act → Prop
  | .serve i | .check i => ∀ req ∈ w.net[i]?, net.Sendable cfg w req
  | .write i => ∀ req ∈ w.checked[i]?, net.Sendable cfg w req
  | _ => True

instance (net : Network) (cfg : Cluster) (w : World) : ∀ a, Decidable (net.SendableAct cfg w a)
  | .serve i | .check i => inferInstanceAs (Decidable (∀ req ∈ w.net[i]?, net.Sendable cfg w req))
  | .write i => inferInstanceAs (Decidable (∀ req ∈ w.checked[i]?, net.Sendable cfg w req))
  | .put .. | .get .. | .deliver .. | .reconcile .. | .refuse _ | .loseRequest _ | .loseReply _
  | .answer _ | .fail .. | .advance _ | .abort _ | .setFaults .. => isTrue trivial

/-- **The steps of a deployment** are those of the system, where the requests can be sent. -/
theorem deployment_step_iff (hw : AllCarried cfg w) :
    d.step w a = some w' ↔ Step.step cfg w a = some w' ∧ d.SendableAct cfg w a := by
  have harr : ∀ req, Carried cfg req → d.arrival cfg w req =
      if d.Sendable cfg w req then .arrives req.dst req.job else .refused .failed := by
    intro req hc
    have hjob := carriedJob_of_safe d hc.2
    split_ifs with hs
    · exact (arrival_iff d hc.1).mpr ⟨hjob, hs⟩
    · exact arrival_of_carried d hc.1 hjob hs
  unfold Deployment.step
  cases a with
  | serve i =>
    simp only [Network.step, Step.step, Network.SendableAct]
    cases hi : w.net[i]? with
    | none => simp
    | some req =>
      have hr := harr req (hw.net req (List.mem_of_getElem? hi))
      by_cases hs : d.Sendable cfg w req <;> simp [hr, hs, World.serve]
  | check i =>
    simp only [Network.step, Step.step, Network.SendableAct]
    cases hi : w.net[i]? with
    | none => simp
    | some req =>
      have hr := harr req (hw.net req (List.mem_of_getElem? hi))
      by_cases hs : d.Sendable cfg w req <;> simp [hr, hs]
  | write i =>
    simp only [Network.step, Step.step, Network.SendableAct]
    cases hi : w.checked[i]? with
    | none => simp
    | some req =>
      have hr := harr req (hw.checked req (List.mem_of_getElem? hi))
      by_cases hs : d.Sendable cfg w req <;> simp [hr, hs, World.write]
  | refuse i =>
    simp only [Network.step, Step.step, Network.SendableAct, and_true]
    cases hi : w.net[i]? with
    | none => simp
    | some req =>
      have hr := harr req (hw.net req (List.mem_of_getElem? hi))
      by_cases hs : d.Sendable cfg w req <;> simp [hr, hs, World.refuse]
  | _ => simp only [Network.step, Network.SendableAct, and_true]

/-- A step of a deployment is one of the system, and keeps everything carried. -/
theorem Deployment.refines (w : World) (a : Act) (w' : World) (hw : AllCarried cfg w)
    (ha : CarriedAct cfg a) (h : d.step w a = some w') :
    Step.step cfg w a = some w' ∧ AllCarried cfg w' := by
  have hs := ((deployment_step_iff d hw).mp h).1
  exact ⟨hs, allCarried_step d hw (ha.carriedIn w) (effect_of_step hs)⟩

/-- **The runs of a deployment** over keys that a path carries are runs of the system. -/
theorem Deployment.run_step {acts : List Act} (hc : ∀ a ∈ acts, CarriedAct cfg a)
    (hw : AllCarried cfg w) (h : run d.step acts w = some w') :
    run (Step.step cfg) acts w = some w' ∧ AllCarried cfg w' :=
  run_refines d.refines hc hw h

/-- A condition along such a run is one along the run of the system. -/
theorem Deployment.along_step {G : World → Act → Prop} {acts : List Act}
    (hc : ∀ a ∈ acts, CarriedAct cfg a) (hw : AllCarried cfg w) (h : run d.step acts w = some w')
    (hG : Along d.step G acts w) : Along (Step.step cfg) G acts w :=
  along_refines d.refines hc hw h hG

include d in
/-- The ids of members have no `/`. -/
theorem Deployment.slash_not_mem {x : NodeId} (hx : x ∈ cfg.ring.nodes) : '/' ∉ x.toList :=
  slash_not_mem_of_targetSafe (d.targets x hx)

include d in
theorem Deployment.noSlash {acts : List Act} (hc : ∀ a ∈ acts, CarriedAct cfg a) : NoSlash acts :=
  fun _ _ hm => d.slash_not_mem (hc _ hm)

/-- **The system over HTTP does what the system does**, in every run from a state with such keys
whose puts and gets are of keys that a path carries and whose tasks are for members: its runs are
those of the system in which all requests that are served can be sent. -/
theorem http_run {acts : List Act} (hc : ∀ a ∈ acts, CarriedAct cfg a) (hw : AllCarried cfg w) :
    run d.step acts w = some w' ↔
      run (Step.step cfg) acts w = some w' ∧ Along (Step.step cfg) (d.SendableAct cfg) acts w := by
  constructor
  · intro h
    refine ⟨(d.run_step hc hw h).1, along_refines d.refines hc hw h ?_⟩
    refine along_of_run (I := AllCarried cfg) (fun w a w' hw ha hs => ⟨?_, ?_⟩) hc h hw
    · exact ((deployment_step_iff d hw).mp hs).2
    · exact (d.refines w a w' hw ha hs).2
  · rintro ⟨h, hs⟩
    rw [← h]
    refine run_congr (I := AllCarried cfg)
      (G := fun w a => d.SendableAct cfg w a ∧ CarriedAct cfg a) ?_ ?_
      (along_and hs (along_of_forall_mem w hc)) hw
    · exact fun w a w' hw ha hs => allCarried_step d hw (ha.2.carriedIn w) (effect_of_step hs)
    · intro w a hw ha
      ext w'
      exact (deployment_step_iff d hw).trans (and_iff_left ha.1)

/-- The port of a node of `onOneMachine`. -/
def portOf (x : NodeId) : UInt16 := if x = "b" then 2 else if x = "c" then 3 else 1

/-- The nodes of `onOneMachine` listen at the ports of the roster, and announce them. -/
def onLoopback (n w r : ℕ) (hn : n ≤ 3) : Deployment (.onOneMachine n w r hn) where
  lib := .ascii
  listener host port :=
    if host = hostOf (.v4 localhost) then
      ["b", "c", "a"].find? fun x => (portOf x).toNat = port
    else none
  announced _ x := (⟨.v4 localhost, portOf x + 1⟩, ⟨Vector.replicate 16 0, portOf x⟩)
  roster := by
    have hm : (Cluster.onOneMachine n w r hn).ring.membersById =
        [.ofClusterMember (.loopback "b" 2), .ofClusterMember (.loopback "c" 3),
          .ofClusterMember (.loopback "a" 1)] := rfl
    rw [hm]
    simp only [List.forall_mem_cons, List.not_mem_nil, false_implies, implies_true, and_true]
    exact ⟨fun _ => by decide, fun _ => by decide, fun _ => by decide⟩
  announces := by
    intro i x hx
    have hx : x ∈ ["b", "c", "a"] := hx
    simp only [List.mem_cons, List.not_mem_nil, or_false] at hx
    rcases hx with rfl | rfl | rfl <;> exact fun _ => by decide
  targets := by
    intro x hx
    have hx : x ∈ ["b", "c", "a"] := hx
    simp only [List.mem_cons, List.not_mem_nil, or_false] at hx
    rcases hx with rfl | rfl | rfl <;> decide +kernel

/-- The two nodes of `twoOfThree` and the three of `threeNodes` on one machine. -/
def twoOnLoopback : Deployment twoOfThree := onLoopback 2 1 1 _

def threeOnLoopback : Deployment threeNodes := onLoopback 3 2 2 _

theorem storesCarried_empty : StoresCarried cfg World.empty := ⟨nofun, nofun⟩

theorem allCarried_empty : AllCarried cfg World.empty :=
  allCarried_of_quiet ⟨rfl, rfl, rfl, rfl⟩ storesCarried_empty

/-- Over HTTP, a write that fails at `c` leaves a hint at `a` too. -/
theorem http_run_hint : ∃ w,
    run twoOnLoopback.step hintForC World.empty = some w ∧
      (w.node "a").hints.entry "c" [107] = some ⟨100, [1]⟩ := by
  have hc : ((run (Step.step twoOfThree) hintForC World.empty).any fun w =>
      (w.node "a").hints.entry "c" [107] = some ⟨100, [1]⟩) = true := by decide
  obtain ⟨w, hr, he⟩ := (Option.any_eq_true _ _).mp hc
  have hcarried : ∀ a ∈ hintForC, CarriedAct twoOfThree a := by decide +kernel
  have hsend : Along (Step.step twoOfThree)
      (twoOnLoopback.SendableAct twoOfThree) hintForC World.empty := by
    decide +kernel
  exact ⟨w, (http_run twoOnLoopback hcarried allCarried_empty).mpr ⟨hr, hsend⟩,
    of_decide_eq_true he⟩

/-- A write of `a?b` arrives as one of `a`. -/
example : twoOnLoopback.arrival twoOfThree World.empty
    ⟨none, "c", .putVersioned "a?b" "v" 1⟩ = .arrives "c" (.putVersioned "a" "v" 1) := by
  decide +kernel

end Diynamo.System.Transport
