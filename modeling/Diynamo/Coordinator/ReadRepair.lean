import Diynamo.Client.Http
import Diynamo.Coordinator.Convergence
import Mathlib.Data.Finset.Card
import Mathlib.Data.Finset.Dedup

/-! # Reads that repair

Versioned writes arrive at the replicas of a key one by one, in any order; a get reads its
responders at moments of such a history and sends the repairs into what follows. A replica is read
and repaired over HTTP, with the key in the URL, except for the coordinator's own store, which it
reads itself.

If the URLs carry the key to every replica that is asked, the get returns the newest entry of the
responders, no timestamp decreases along a history, and once the repairs have been acknowledged
every responder holds at least what was returned, so that a later get whose quorum meets the first
one returns nothing older (`read_repair`). The read of `a?b` is answered with the entry of `a`
(`question_mark_reads_other_key`). -/

namespace Diynamo.Coordinator.ReadRepair

open Diynamo.Lib.LastWrite Diynamo.Lib.Utf8 Diynamo.Api.Types Diynamo.Store.RocksDb
  Diynamo.Store.Hints Diynamo.Cluster.Ring Diynamo.Server.Router Diynamo.Server.Handlers
  Diynamo.Client.Http Diynamo.Coordinator.Get Diynamo.Coordinator.Convergence

/-! ### Histories -/

/-- The replicas: the URL library, the client for each node, and what the coordinator of a node does
to all of them. -/
structure Replicas where
  lib : UrlLibrary
  client : NodeId → KvClient
  coordinator : NodeId → Coordinator (NodeId → Node)

/-- What happens at a replica: a versioned write, of a put, a hint delivery or a reconciliation; the
read of a get; or the repair of one, at this time of the replica's clock. -/
inductive Event where
  | write (dst : NodeId) (call : WriteCall)
  | read (dst : NodeId)
  | repair (dst : NodeId) (v : VersionedValue) (nowMillis : ℕ)
deriving DecidableEq, Repr

/-- The timestamp that an event brings to a key at `x`. -/
def Event.brings (key : Bytes) (x : NodeId) : Event → WithBot ℕ
  | .write dst call => if dst = x ∧ call.key = key then WithBot.some call.timestamp else ⊥
  | .read _ => ⊥
  | .repair dst v _ => if dst = x then WithBot.some v.timestamp else ⊥

namespace Replicas

variable (P : Replicas) (key : Bytes)

/-- The node `x` among the others. -/
def server (x : NodeId) : AppState (NodeId → Node) where
  toCoordinator := P.coordinator x
  node s := s x
  setNode s n := Function.update s x n
  node_setNode _ _ := Function.update_self ..

/-- The read of the key at `x`. -/
def readAt (x : NodeId) (s : NodeId → Node) :
    Except ClientError (Option VersionedValue) × (NodeId → Node) :=
  getInternalVersioned P.lib (P.client x) (P.server x) s key

/-- The push of a version of the key to `x`. -/
def pushTo (x : NodeId) (v : VersionedValue) (nowMillis : ℕ) (s : NodeId → Node) :
    Except ClientError Unit × (NodeId → Node) :=
  putInternalVersionedBytes P.lib (P.client x) (P.server x) s key v.data v.timestamp nowMillis

/-- The nodes after the next event of the key. -/
def arrive (s : NodeId → Node) : Event → NodeId → Node
  | .write dst call => Function.update s dst { s dst with
      localStore := (s dst).localStore.putIfNewer call.key call.value call.timestamp }
  | .read dst => (P.readAt key dst s).2
  | .repair dst v nowMillis => (P.pushTo key dst v nowMillis s).2

/-- The nodes after a history. -/
def after (s : NodeId → Node) (hist : List Event) : NodeId → Node := hist.foldl (P.arrive key) s

/-- The store of a replica after a history. -/
def storeAfter (s : NodeId → Node) (hist : List Event) (x : NodeId) : RocksDbStore :=
  (P.after key s hist x).localStore

/-- **The URLs carry the key** to its handlers at `x`. -/
def Carries (x : NodeId) : Prop :=
  ∃ k, utf8 k = key ∧ P.lib.handler .get ((P.client x).internalKvUrl k) = some (.getKvInternal k) ∧
    P.lib.handler .put ((P.client x).internalKvVersionedUrl k) = some (.putKvInternalVersioned k)

/-- Every replica that is read or repaired in the history is one that the URLs carry the key to. -/
def CarriesAll (hist : List Event) : Prop :=
  ∀ e ∈ hist, ∀ x, (e = .read x ∨ ∃ v now, e = .repair x v now) → P.Carries key x

/-! ### Gets -/

/-- The response is one that the replica gives during a history: the coordinator `selfId` reads its
own store, the others are asked. -/
def Answers (selfId : NodeId) (s : NodeId → Node) (hist : List Event) (x : NodeId)
    (o : Option VersionedValue) : Prop :=
  if x = selfId then ∃ pre, pre <+: hist ∧ o = (P.storeAfter key s pre x).get key
  else ∃ pre, pre ++ [.read x] <+: hist ∧ (P.readAt key x (P.after key s pre)).1 = .ok o

/-- **The responses of a get** during a history, in order of completion, from different preferred
nodes. -/
structure Heard (selfId : NodeId) (pref : List NodeId) (s : NodeId → Node) (hist : List Event)
    (responses : List (NodeId × Option VersionedValue)) : Prop where
  nodup : (responses.map Prod.fst).Nodup
  subset : responses.map Prod.fst ⊆ pref
  answers : ∀ x o, (x, o) ∈ responses → P.Answers key selfId s hist x o

/-- **A push is a conditional write** of the version under the key, if its body is not too large and
the internal routes are not blocked. -/
def Writes (x : NodeId) (v : VersionedValue) : Prop :=
  ∃ w, utf8 w = v.data ∧ (Fits (.putVersioned ⟨w, v.timestamp⟩) → ∀ s now,
    (s x).faults.blockInternal = false → P.pushTo key x v now s =
      (.ok (), Function.update s x { s x with
        localStore := (s x).localStore.putIfNewer key v.data v.timestamp }))

/-- All repairs of a get have been acknowledged in the history `more` after `s`. -/
def Delivered (sent : List (NodeId × VersionedValue)) (s : NodeId → Node) (more : List Event) :
    Prop :=
  ∀ x v, (x, v) ∈ sent → ∃ pre now, pre ++ [.repair x v now] <+: more ∧
    (P.pushTo key x v now (P.after key s pre)).1 = .ok ()

end Replicas

/-- `o` is what a get is to return: nothing if every responder lacks the key, else the value of a
responder whose timestamp no responder exceeds. -/
def IsNewest (responses : List (NodeId × Option VersionedValue)) (o : Option VersionedValue) :
    Prop :=
  (o = none ↔ ∀ x a, (x, a) ∈ responses → a = none) ∧
  ∀ v, o = some v → (∃ x, (x, some v) ∈ responses) ∧
    ∀ x w, (x, some w) ∈ responses → w.timestamp ≤ v.timestamp

/-- The responders that lack the key or hold something strictly older are sent `o`, once each, and
nobody else is sent anything. -/
def RepairsStale (responses : List (NodeId × Option VersionedValue)) (o : Option VersionedValue)
    (sent : List (NodeId × VersionedValue)) : Prop :=
  (sent.map Prod.fst).Nodup ∧ ∀ x v, (x, v) ∈ sent ↔ o = some v ∧
    ((x, none) ∈ responses ∨ ∃ w, (x, some w) ∈ responses ∧ w.timestamp < v.timestamp)

theorem isNewest_winner (responses : List (NodeId × Option VersionedValue)) :
    IsNewest responses (winner responses) := by
  refine ⟨⟨fun h x a ha => ?_, fun h => ?_⟩, fun v hv => ⟨winner_mem hv, fun x w hw => ?_⟩⟩
  · have hle := rank_le_winner ha
    rw [h, rank_none, le_bot_iff] at hle
    cases a with
    | none => rfl
    | some w => simp at hle
  · cases hw : winner responses with
    | none => rfl
    | some v =>
      obtain ⟨x, hx⟩ := winner_mem hw
      exact absurd (h x _ hx) (Option.some_ne_none v)
  · have hle := rank_le_winner hw
    rwa [hv, rank_some, rank_some, WithBot.coe_le_coe] at hle

theorem repairsStale_repairs {responses : List (NodeId × Option VersionedValue)}
    (h : (responses.map Prod.fst).Nodup) :
    RepairsStale responses (winner responses) (repairs responses) := by
  constructor
  · unfold repairs
    split
    · exact List.nodup_nil
    · rw [List.map_map]
      exact h.sublist (List.filter_sublist.map Prod.fst)
  · intro x v
    rw [mem_repairs]
    refine and_congr_right fun _ => ⟨?_, ?_⟩
    · rintro ⟨o, ho, hlt⟩
      cases o with
      | none => exact Or.inl ho
      | some w => exact Or.inr ⟨w, ho, by simpa using hlt⟩
    · rintro (ho | ⟨w, ho, hlt⟩)
      · exact ⟨none, ho, by simp⟩
      · exact ⟨some w, ho, by simpa using hlt⟩

/-- **A quorum read with read repair**, for the responses heard during a history from `s`. Too few
responses fail the get. Otherwise every response is what the responder held, the get returns the
newest of them and sends it to the stale responders, as conditional writes. In every history that
follows no timestamp decreases, and after one in which the repairs are acknowledged every responder
stores the returned timestamp or a larger one (the returned one if nothing newer has arrived), and
every get that together with the first hears from more than `n` nodes returns a timestamp that is at
least the one returned before. -/
structure QuorumRead (P : Replicas) (key : Bytes) (pref : List NodeId) (n r : ℕ)
    (s : NodeId → Node) (hist : List Event) (responses : List (NodeId × Option VersionedValue)) :
    Prop where
  failed : responses.length < r → get r responses = .error ⟨responses.length, r⟩
  held : ∀ x o, (x, o) ∈ responses →
    ∃ pre, pre <+: hist ∧ o = (P.storeAfter key s pre x).get key
  answered : r ≤ responses.length → ∃ o sent, get r responses = .ok (o, sent) ∧
    IsNewest responses o ∧ RepairsStale responses o sent ∧
    (∀ x v, (x, v) ∈ sent → P.Carries key x → P.Writes key x v) ∧
    ∀ more, P.CarriesAll key more → ∀ v, o = some v →
      P.Delivered key sent (P.after key s hist) more →
      (∀ x ∈ responses.map Prod.fst,
        WithBot.some v.timestamp ≤ (P.storeAfter key s (hist ++ more) x).stored key ∧
        ((∀ e ∈ hist ++ more, e.brings key x ≤ WithBot.some v.timestamp) →
          (P.storeAfter key s (hist ++ more) x).stored key = WithBot.some v.timestamp)) ∧
      ∀ selfId' later responses',
        P.Heard key selfId' pref (P.after key s (hist ++ more)) later responses' →
        P.CarriesAll key later → r ≤ responses'.length →
        n < responses.length + responses'.length →
        ∃ v' sent', get r responses' = .ok (some v', sent') ∧ v.timestamp ≤ v'.timestamp
  monotone : ∀ more, P.CarriesAll key more →
    ∀ pre, pre <+: hist ++ more → ∀ pre', pre' <+: pre → ∀ x k,
      (P.storeAfter key s pre' x).stored k ≤ (P.storeAfter key s pre x).stored k

namespace Replicas

variable {P : Replicas} {key : Bytes}

/-! ### One event -/

theorem readAt_cases {x : NodeId} (hc : P.Carries key x) (s : NodeId → Node) :
    (∃ e, P.readAt key x s = (.error e, s)) ∨
      P.readAt key x s = (.ok ((s x).localStore.get key), s) := by
  obtain ⟨k, rfl, hget, -⟩ := hc
  exact getInternalVersioned_own hget (P.server x) s

theorem writesOwnEntry_of_carries {x : NodeId} (hc : P.Carries key x) :
    WritesOwnEntry P.lib (P.client x) key := by
  obtain ⟨k, rfl, -, hput⟩ := hc
  intro k' h hk' hh
  rw [fromUtf8_utf8] at hk'
  obtain rfl := Option.some.inj hk'
  exact Option.some.inj (hh.symm.trans hput)

theorem pushTo_cases {x : NodeId} (hc : P.Carries key x) (v : VersionedValue) (now : ℕ)
    (s : NodeId → Node) : (∃ e, P.pushTo key x v now s = (.error e, s)) ∨
      P.pushTo key x v now s = (.ok (), Function.update s x { s x with
        localStore := (s x).localStore.putIfNewer key v.data v.timestamp }) :=
  (writesOwnEntry_of_carries hc).push_cases (P.server x) s v.data v.timestamp now

/-- A write at one replica, seen at another. -/
theorem localStore_update (s : NodeId → Node) (dst x : NodeId) (store : RocksDbStore) :
    (Function.update s dst { s dst with localStore := store } x).localStore =
      if x = dst then store else (s x).localStore := by
  rw [Function.update_apply]
  split_ifs <;> rfl

/-- **What an event does to a replica**: nothing, or a conditional write of what it brings. -/
theorem arrive_cases {e : Event}
    (hc : ∀ x, (e = .read x ∨ ∃ v now, e = .repair x v now) → P.Carries key x)
    (s : NodeId → Node) (x : NodeId) :
    (P.arrive key s e x).localStore = (s x).localStore ∨ ∃ c : WriteCall,
      (P.arrive key s e x).localStore =
        (s x).localStore.putIfNewer c.key c.value c.timestamp ∧
      (c.key = key → e.brings key x = WithBot.some c.timestamp) := by
  cases e with
  | write dst call =>
    have hstore := localStore_update s dst x
      ((s dst).localStore.putIfNewer call.key call.value call.timestamp)
    by_cases hx : x = dst
    · rw [if_pos hx] at hstore
      exact Or.inr ⟨call, hx ▸ hstore, fun hk => if_pos ⟨hx.symm, hk⟩⟩
    · exact Or.inl (hstore.trans (if_neg hx))
  | read dst =>
    rcases readAt_cases (hc dst (Or.inl rfl)) s with ⟨_, he⟩ | he
    · exact Or.inl (by rw [arrive, he])
    · exact Or.inl (by rw [arrive, he])
  | repair dst v now =>
    rcases pushTo_cases (hc dst (Or.inr ⟨v, now, rfl⟩)) v now s with ⟨_, he⟩ | he
    · exact Or.inl (by rw [arrive, he])
    · have hstore := localStore_update s dst x
        ((s dst).localStore.putIfNewer key v.data v.timestamp)
      rw [arrive, he]
      by_cases hx : x = dst
      · rw [if_pos hx] at hstore
        exact Or.inr ⟨⟨key, v.data, v.timestamp⟩, hx ▸ hstore, fun _ => if_pos hx.symm⟩
      · exact Or.inl (hstore.trans (if_neg hx))

/-! ### Histories -/

theorem after_append (s : NodeId → Node) (hist more : List Event) :
    P.after key s (hist ++ more) = P.after key (P.after key s hist) more :=
  List.foldl_append

theorem storeAfter_append (s : NodeId → Node) (hist more : List Event) (x : NodeId) :
    P.storeAfter key s (hist ++ more) x = P.storeAfter key (P.after key s hist) more x := by
  unfold storeAfter
  rw [after_append]

theorem CarriesAll.append {hist more : List Event} (h : P.CarriesAll key hist)
    (h' : P.CarriesAll key more) : P.CarriesAll key (hist ++ more) := fun e he =>
  (List.mem_append.mp he).elim (h e) (h' e)

theorem CarriesAll.of_isPrefix {pre hist : List Event} (h : P.CarriesAll key hist)
    (hp : pre <+: hist) : P.CarriesAll key pre := fun e he => h e (hp.subset he)

theorem advances_after : ∀ {hist : List Event} {s : NodeId → Node}, P.CarriesAll key hist →
    ∀ x, (s x).localStore.Advances (P.storeAfter key s hist x)
  | [], _, _, _ => RocksDbStore.Advances.refl _
  | e :: hist, s, hc, x => by
    have hstep : (s x).localStore.Advances (P.arrive key s e x).localStore := by
      rcases arrive_cases (hc e List.mem_cons_self) s x with he | ⟨c, he, -⟩
      · rw [he]; exact RocksDbStore.Advances.refl _
      · rw [he]; exact RocksDbStore.advances_putIfNewer _ _ _ _
    exact hstep.trans
      (advances_after (s := P.arrive key s e) (fun e' he' => hc e' (List.mem_cons_of_mem _ he')) x)

/-- Along a history the timestamps only grow. -/
theorem stored_mono {s : NodeId → Node} {pre hist : List Event} (h : pre <+: hist)
    (hc : P.CarriesAll key hist) (x : NodeId) (k : Bytes) :
    (P.storeAfter key s pre x).stored k ≤ (P.storeAfter key s hist x).stored k := by
  obtain ⟨more, rfl⟩ := h
  rw [storeAfter_append]
  exact (advances_after (fun e he => hc e (List.mem_append_right _ he)) x).stored_le k

/-- The timestamp of a key stays below what bounds the start and everything that arrives. -/
theorem stored_after_le {r : WithBot ℕ} {x : NodeId} : ∀ {hist : List Event} {s : NodeId → Node},
    P.CarriesAll key hist → (s x).localStore.stored key ≤ r →
    (∀ e ∈ hist, e.brings key x ≤ r) → (P.storeAfter key s hist x).stored key ≤ r
  | [], _, _, hs, _ => hs
  | e :: hist, s, hc, hs, hb => by
    have hstep : (P.arrive key s e x).localStore.stored key ≤ r := by
      rcases arrive_cases (hc e List.mem_cons_self) s x with he | ⟨c, he, hbr⟩
      · rw [he]; exact hs
      · rw [he, RocksDbStore.stored, RocksDbStore.get_putIfNewer]
        split_ifs with hk
        · have hle := hb e List.mem_cons_self
          rw [hbr hk.symm] at hle
          rw [← hk, rank_absorb]
          exact max_le hs hle
        · exact hs
    exact stored_after_le (s := P.arrive key s e)
      (fun e' he' => hc e' (List.mem_cons_of_mem _ he')) hstep
      fun e' he' => hb e' (List.mem_cons_of_mem _ he')

/-! ### What holds once the repairs have arrived -/

variable {selfId : NodeId} {pref : List NodeId} {s : NodeId → Node} {hist more : List Event}
  {responses : List (NodeId × Option VersionedValue)} {x : NodeId} {v : VersionedValue}

/-- **A response is what the responder held.** -/
theorem Heard.held (h : P.Heard key selfId pref s hist responses) (hc : P.CarriesAll key hist)
    {o : Option VersionedValue} (hx : (x, o) ∈ responses) :
    ∃ pre, pre <+: hist ∧ o = (P.storeAfter key s pre x).get key := by
  have hans := h.answers x o hx
  unfold Answers at hans
  split_ifs at hans with hself
  · exact hans
  · obtain ⟨pre, hpre, hread⟩ := hans
    have hcx : P.Carries key x := hc (.read x) (hpre.subset (by simp)) x (Or.inl rfl)
    refine ⟨pre, (List.prefix_append _ _).trans hpre, ?_⟩
    rcases readAt_cases hcx (P.after key s pre) with ⟨e, he⟩ | he
    · rw [he] at hread
      cases hread
    · rw [he] at hread
      exact (Except.ok.inj hread).symm

/-- A responder holds at least what it has answered from then on. -/
theorem answer_le_stored (h : P.Heard key selfId pref s hist responses) (hc : P.CarriesAll key hist)
    {o : Option VersionedValue} (hx : (x, o) ∈ responses) :
    rank VersionedValue.timestamp o ≤ (P.storeAfter key s hist x).stored key := by
  obtain ⟨pre, hpre, rfl⟩ := h.held hc hx
  exact stored_mono hpre hc x key

/-- A repair that is acknowledged has brought the version. -/
theorem le_stored_of_delivered {sent : List (NodeId × VersionedValue)} {s' : NodeId → Node}
    (hd : P.Delivered key sent s' more) (hc : P.CarriesAll key more) (hx : (x, v) ∈ sent) :
    WithBot.some v.timestamp ≤ (P.storeAfter key s' more x).stored key := by
  obtain ⟨pre, now, hpre, hok⟩ := hd x v hx
  have hmem : Event.repair x v now ∈ more := hpre.subset (by simp)
  have hpush := pushTo_cases (hc _ hmem x (Or.inr ⟨v, now, rfl⟩)) v now (P.after key s' pre)
  have hdone : WithBot.some v.timestamp ≤
      (P.storeAfter key s' (pre ++ [.repair x v now]) x).stored key := by
    rw [storeAfter_append]
    change _ ≤ ((P.pushTo key x v now (P.after key s' pre)).2 x).localStore.stored key
    rcases hpush with ⟨e, he⟩ | he
    · rw [he] at hok
      cases hok
    · rw [he]
      dsimp only
      rw [Function.update_self]
      exact RocksDbStore.le_stored_putIfNewer _ _ _ _
  exact hdone.trans (stored_mono hpre hc x key)

/-- **Every responder reaches the winner**: it had it, or was sent it. -/
theorem winner_le_stored (h : P.Heard key selfId pref s hist responses) (hc : P.CarriesAll key hist)
    (hc' : P.CarriesAll key more) (hv : winner responses = some v)
    (hd : P.Delivered key (repairs responses) (P.after key s hist) more)
    (hx : x ∈ responses.map Prod.fst) :
    WithBot.some v.timestamp ≤ (P.storeAfter key s (hist ++ more) x).stored key := by
  obtain ⟨⟨x, o⟩, hxo, rfl⟩ := List.mem_map.mp hx
  rcases lt_or_ge (rank VersionedValue.timestamp o) (WithBot.some v.timestamp) with hlt | hge
  · have hsent : (x, v) ∈ repairs responses := mem_repairs.mpr ⟨hv, o, hxo, hlt⟩
    rw [storeAfter_append]
    exact le_stored_of_delivered hd hc' hsent
  · calc WithBot.some v.timestamp ≤ rank VersionedValue.timestamp o := hge
      _ ≤ (P.storeAfter key s hist x).stored key := answer_le_stored h hc hxo
      _ ≤ (P.storeAfter key s (hist ++ more) x).stored key :=
        stored_mono (List.prefix_append _ _) (hc.append hc') x key

/-- Nothing newer than the winner was stored at a responder when the history began. -/
theorem stored_le_winner (h : P.Heard key selfId pref s hist responses) (hc : P.CarriesAll key hist)
    (hv : winner responses = some v) (hx : x ∈ responses.map Prod.fst) :
    (s x).localStore.stored key ≤ WithBot.some v.timestamp := by
  obtain ⟨⟨x, o⟩, hxo, rfl⟩ := List.mem_map.mp hx
  have hle := rank_le_winner hxo
  obtain ⟨pre, hpre, rfl⟩ := h.held hc hxo
  rw [hv, rank_some] at hle
  exact ((advances_after (hc.of_isPrefix hpre) x).stored_le key).trans hle

/-- Two sets of responders that are together more than `n` have one in common. -/
theorem exists_common_responder {selfId' : NodeId} {s' : NodeId → Node} {hist' : List Event}
    {responses' : List (NodeId × Option VersionedValue)} {n : ℕ} (hn : pref.length ≤ n)
    (h : P.Heard key selfId pref s hist responses)
    (h' : P.Heard key selfId' pref s' hist' responses')
    (hlt : n < responses.length + responses'.length) :
    ∃ x ∈ responses.map Prod.fst, x ∈ responses'.map Prod.fst := by
  have hcard : pref.toFinset.card <
      (responses.map Prod.fst).toFinset.card + (responses'.map Prod.fst).toFinset.card := by
    rw [List.toFinset_card_of_nodup h.nodup, List.toFinset_card_of_nodup h'.nodup, List.length_map,
      List.length_map]
    exact (pref.toFinset_card_le.trans hn).trans_lt hlt
  obtain ⟨x, hx⟩ := Finset.inter_nonempty_of_card_lt_card_add_card
    (fun x hx => List.mem_toFinset.mpr (h.subset (List.mem_toFinset.mp hx)))
    (fun x hx => List.mem_toFinset.mpr (h'.subset (List.mem_toFinset.mp hx))) hcard
  obtain ⟨hx1, hx2⟩ := Finset.mem_inter.mp hx
  exact ⟨x, List.mem_toFinset.mp hx1, List.mem_toFinset.mp hx2⟩

/-- A get that hears from a node that stores `ts` or more returns `ts` or more. -/
theorem get_of_stored {ts r : ℕ} (h : P.Heard key selfId pref s hist responses)
    (hc : P.CarriesAll key hist) (hx : x ∈ responses.map Prod.fst)
    (hts : WithBot.some ts ≤ (s x).localStore.stored key) (hr : r ≤ responses.length) :
    ∃ v sent, get r responses = .ok (some v, sent) ∧ ts ≤ v.timestamp := by
  obtain ⟨⟨x, o⟩, hxo, rfl⟩ := List.mem_map.mp hx
  have hle := rank_le_winner hxo
  obtain ⟨pre, hpre, rfl⟩ := h.held hc hxo
  have hts' := (hts.trans ((advances_after (hc.of_isPrefix hpre) x).stored_le key)).trans hle
  cases hw : winner responses with
  | none => simp [hw] at hts'
  | some v =>
    rw [hw, rank_some, WithBot.coe_le_coe] at hts'
    exact ⟨v, repairs responses, by rw [get_of_le hr, hw], hts'⟩

/-- The winner is a string if the coordinator's own entry is one. -/
theorem exists_utf8_of_winner (h : P.Heard key selfId pref s hist responses)
    (hself : ∀ w, (selfId, some w) ∈ responses → ∃ value, utf8 value = w.data)
    (hv : winner responses = some v) : ∃ value, utf8 value = v.data := by
  obtain ⟨x, hx⟩ := winner_mem hv
  by_cases hxs : x = selfId
  · exact hself v (hxs ▸ hx)
  · have hans := h.answers x _ hx
    rw [Answers, if_neg hxs] at hans
    obtain ⟨pre, -, hread⟩ := hans
    exact exists_utf8_of_getInternalVersioned hread

/-- A string under a key that the URLs carry is written. -/
theorem writes_of_carries (hc : P.Carries key x) (hv : ∃ value, utf8 value = v.data) :
    P.Writes key x v := by
  obtain ⟨k, rfl, -, hput⟩ := hc
  obtain ⟨w, hw⟩ := hv
  refine ⟨w, hw, fun hfits s now hb => ?_⟩
  have hp : PushedTo P.lib (P.client x) (utf8 k) v.data v.timestamp (.putKvInternalVersioned k) :=
    ⟨k, w, rfl, hw, hfits, hput⟩
  exact hp.push_own_of_open (P.server x) s now hb

/-- **A key without anything special** is carried to every IPv4 address whose URLs for it are not
too long. -/
theorem carries_of_keySafe {a : Authority} {k : String} (hk : k ≠ "") (hs : KeySafe k)
    (hget : a.UrlFits ("/internal/kv/" ++ k)) (hput : a.UrlFits ("/internal/kv-versioned/" ++ k))
    (hx : P.client x = .withHttp a.baseUrl) : P.Carries (utf8 k) x := by
  refine ⟨k, rfl, ?_, ?_⟩
  · rw [hx]
    exact (handler_internalKvUrl_get hk).mpr ⟨hget, hs⟩
  · rw [hx]
    exact (handler_internalKvVersionedUrl hk).mpr ⟨hput, hs⟩

end Replicas

open Replicas in
/-- **Quorum read with read repair**, for the preference list of the key: it is as it should be in
every history in which the replicas are read and repaired under URLs that carry the key, if the data
that the coordinator has of its own is a string. -/
theorem read_repair {P : Replicas} {key : Bytes} {selfId : NodeId} {h : HashRing}
    {ring : CoordinatorRing} {n : ℕ} {members : List MemberInfo}
    (hp : ring.preferenceListForKey h key n = .ok members) (r : ℕ) {s : NodeId → Node}
    {hist : List Event} {responses : List (NodeId × Option VersionedValue)}
    (hh : P.Heard key selfId (members.map MemberInfo.id) s hist responses)
    (hc : P.CarriesAll key hist)
    (hself : ∀ w, (selfId, some w) ∈ responses → ∃ value, utf8 value = w.data) :
    QuorumRead P key (members.map MemberInfo.id) n r s hist responses where
  failed hlt := if_pos hlt
  held _ _ hx := hh.held hc hx
  answered hr := by
    obtain ⟨order, -, rfl⟩ := CoordinatorRing.ringOrderForKey_of_preferenceListForKey hp
    have hn : ((order.take n).map MemberInfo.id).length ≤ n := by
      rw [List.length_map, List.length_take]; exact min_le_left _ _
    refine ⟨_, _, get_of_le hr, isNewest_winner responses, repairsStale_repairs hh.nodup,
      fun x v hx hcx => ?_, fun more hc' v hv hd => ⟨fun x hx => ?_, ?_⟩⟩
    · exact writes_of_carries hcx (exists_utf8_of_winner hh hself (mem_repairs.mp hx).1)
    · have hle := winner_le_stored hh hc hc' hv hd hx
      refine ⟨hle, fun hnew => le_antisymm ?_ hle⟩
      exact stored_after_le (hc.append hc') (stored_le_winner hh hc hv hx) hnew
    · intro selfId' later responses' hh' hc'' hr' hlt
      obtain ⟨x, hx, hx'⟩ := exists_common_responder hn hh hh' hlt
      exact get_of_stored hh' hc'' hx' (winner_le_stored hh hc hc' hv hd hx) hr'
  monotone more hc' pre hpre pre' hpre' x k :=
    stored_mono hpre' ((hc.append hc').of_isPrefix hpre) x k

/-! ### Three replicas -/

/-- Three nodes on one machine that all hold every key, in the order of the ring for the key `k`. -/
def threeRing : CoordinatorRing :=
  ⟨collectById [.loopback "b" 2, .loopback "c" 3, .loopback "a" 1], 2, 1, 3, nodup_collectById _⟩

/-- The addresses of the three nodes. -/
def addressOf (x : NodeId) : Authority :=
  ⟨localhost, if x = "a" then 1 else if x = "b" then 2 else 3⟩

def three : Replicas :=
  ⟨urlLibrary .ascii, fun x => .withHttp (addressOf x).baseUrl, fun _ => .idle⟩

/-- `a` holds a version of the key with timestamp 200, `b` one with 100, and `c` nothing. -/
def staleNodes (x : NodeId) : Node :=
  if x = "a" then { Node.empty with localStore := RocksDbStore.empty.write [107] [2] 200 }
  else if x = "b" then { Node.empty with localStore := RocksDbStore.empty.write [107] [1] 100 }
  else Node.empty

theorem carries_k (x : NodeId) : three.Carries [107] x := by
  have hk : utf8 "k" = [107] := by decide
  have hfits : ∀ port : UInt16, port = 1 ∨ port = 2 ∨ port = 3 →
      (Authority.mk localhost port).UrlFits ("/internal/kv/" ++ "k") ∧
        (Authority.mk localhost port).UrlFits ("/internal/kv-versioned/" ++ "k") := by
    rintro port (rfl | rfl | rfl) <;> decide +kernel
  have hport : (addressOf x).port = 1 ∨ (addressOf x).port = 2 ∨ (addressOf x).port = 3 := by
    unfold addressOf
    dsimp only
    split_ifs <;> simp
  rw [← hk]
  exact Replicas.carries_of_keySafe (a := addressOf x) (by decide) (by decide)
    (hfits _ hport).1 (hfits _ hport).2 rfl

/-- A get of `c` hears from `b` and `a` and repairs `b`, an old write arrives at `c`, and a get of
`b` hears from `b` and `c`. -/
theorem read_repair_pairs :
    ∃ v sent, get 2 [("b", some ⟨200, [2]⟩), ("c", some ⟨50, [5]⟩)] = .ok (some v, sent) ∧
      200 ≤ v.timestamp := by
  have hp : ∃ members, threeRing.preferenceListForKey .inOrder [107] 3 = .ok members ∧
      members.map MemberInfo.id = ["b", "c", "a"] := ⟨_, rfl, rfl⟩
  obtain ⟨members, hp, hids⟩ := hp
  have hall : ∀ hist, three.CarriesAll [107] hist := fun _ _ _ x _ => carries_k x
  have h1 : three.Heard [107] "c" (members.map MemberInfo.id) staleNodes [.read "b", .read "a"]
      [("b", some ⟨100, [1]⟩), ("a", some ⟨200, [2]⟩)] := by
    rw [hids]
    refine ⟨by decide, by decide, fun x o hx => ?_⟩
    rcases List.mem_cons.mp hx with he | hx
    · cases he
      exact ⟨[], by decide, by decide +kernel⟩
    · cases List.mem_singleton.mp hx
      exact ⟨[.read "b"], by decide, by decide +kernel⟩
  have hq := read_repair hp 2 h1 (hall _) (by simp)
  obtain ⟨o, sent, hget, -, -, -, hmore⟩ := hq.answered (by decide)
  obtain ⟨rfl, rfl⟩ : o = some ⟨200, [2]⟩ ∧ sent = [("b", ⟨200, [2]⟩)] := by
    obtain ⟨-, hpair⟩ := get_eq_ok.mp hget
    exact Prod.mk.inj hpair
  obtain ⟨-, hlater⟩ := hmore [.write "c" ⟨[107], [5], 50⟩, .repair "b" ⟨200, [2]⟩ 0] (hall _)
    ⟨200, [2]⟩ rfl (by
      intro x v hxv
      cases List.mem_singleton.mp hxv
      exact ⟨[.write "c" ⟨[107], [5], 50⟩], 0, by decide, by decide +kernel⟩)
  refine hlater "b" [.read "c"] _ ?_ (hall _) (by decide) (by decide)
  rw [hids]
  refine ⟨by decide, by decide, fun x o hx => ?_⟩
  rcases List.mem_cons.mp hx with he | hx
  · cases he
    exact ⟨[], by decide, by decide +kernel⟩
  · cases List.mem_singleton.mp hx
    exact ⟨[], by decide, by decide +kernel⟩

/-- `a` holds an entry of the key `a`, and the others nothing. -/
def nodesOfA (x : NodeId) : Node :=
  if x = "a" then
    { Node.empty with localStore := RocksDbStore.empty.write (utf8 "a") (utf8 "x") 100 }
  else Node.empty

/-- **A key with a question mark**: no replica has an entry of `a?b`, but a get of `c` that asks `a`
is answered with the entry of `a`, returns it, and repairs `c` with it. -/
theorem question_mark_reads_other_key :
    three.Heard (utf8 "a?b") "c" ["b", "c", "a"] nodesOfA [.read "a"]
      [("c", none), ("a", some ⟨100, utf8 "x"⟩)] ∧
    get 2 [("c", none), ("a", some ⟨100, utf8 "x"⟩)] =
      .ok (some ⟨100, utf8 "x"⟩, [("c", ⟨100, utf8 "x"⟩)]) ∧
    ¬ QuorumRead three (utf8 "a?b") ["b", "c", "a"] 3 2 nodesOfA [.read "a"]
      [("c", none), ("a", some ⟨100, utf8 "x"⟩)] := by
  refine ⟨⟨by decide, by decide, fun x o hx => ?_⟩, by decide, fun h => ?_⟩
  · rcases List.mem_cons.mp hx with he | hx
    · cases he
      exact ⟨[], by decide, by decide +kernel⟩
    · cases List.mem_singleton.mp hx
      exact ⟨[], by decide, by decide +kernel⟩
  · obtain ⟨pre, hpre, ho⟩ := h.held "a" (some ⟨100, utf8 "x"⟩) (by simp)
    have hnone : ∀ pre ∈ [[], [Event.read "a"]],
        (three.storeAfter (utf8 "a?b") nodesOfA pre "a").get (utf8 "a?b") = none := by
      decide +kernel
    have hmem : pre ∈ [[], [Event.read "a"]] := by
      have h := (List.mem_inits pre [Event.read "a"]).mpr hpre
      exact h
    rw [hnone pre hmem] at ho
    cases ho

end Diynamo.Coordinator.ReadRepair
