import Diynamo.Client.Http
import Diynamo.Coordinator.HintDelivery

/-! # Hint delivery with failures

One `deliver_hints` task after another, while no new hint is stored. `deliverHints` is the loop of
the source over the scan: every hint is pushed to the target, and deleted if the push is answered
with a success; each push and each deletion can fail. The push is a request for a URL that has the
key in it, and the handler that the target's router picks decides what it does.

What stays in the store is exactly what failed, the target never goes back, and the next task sends
what is still there, if and only if no push of a hint reaches another entry or handler
(`deliversPartially_iff`). The hint for `../kv/x` is an unversioned put of `x` (`push_climbs`).

The loop is a run of the task of `HintDelivery` with nothing in between (`run_deliverHints`). -/

namespace Diynamo.Coordinator.PartialDelivery

open Diynamo.Lib.Run Diynamo.Lib.Utf8 Diynamo.Api.Types Diynamo.Store.RocksDb Diynamo.Store.Hints
  Diynamo.Server.Router Diynamo.Server.Handlers Diynamo.Client.Http Diynamo.Coordinator.Handoff
  Diynamo.Store

/-- How the push of a hint ends: there is no client or the request is lost; it is handled, at this
time of the target's clock, but the answer does not arrive; or the answer arrives, and the deletion
that follows a success succeeds or fails. -/
inductive Outcome where
  | lost
  | unanswered (nowMillis : ℕ)
  | answered (nowMillis : ℕ) (deleted : Bool)
deriving DecidableEq, Repr

/-- A deletion would succeed. -/
def Outcome.deletes : Outcome → Bool
  | .answered _ deleted => deleted
  | _ => false

/-- The way to the target: the URL library, the client, and what the target's coordinator does to
its node. -/
structure Target where
  lib : UrlLibrary
  client : KvClient
  coordinator : Coordinator Node

/-- The hint store of the sender and the target, with the hints sent and those acknowledged by the
task, as `(key, value, timestamp)`. -/
structure Delivery where
  hints : HintStore
  target : Node
  sent : List (Bytes × Bytes × ℕ)
  acked : List (Bytes × Bytes × ℕ)

def Delivery.start (hints : HintStore) (target : Node) : Delivery := ⟨hints, target, [], []⟩

variable (T : Target) (t : NodeId) (outcome : Bytes → Outcome)

/-- The push of a hint. -/
def Target.push (n : Node) (x : Bytes × Bytes × ℕ) (nowMillis : ℕ) :
    Except ClientError Unit × Node :=
  putInternalVersionedBytes T.lib T.client T.coordinator.onNode n x.1 x.2.1 x.2.2 nowMillis

/-- **The body of the loop**, for the next hint of the scan. -/
def deliverHint (w : Delivery) (x : Bytes × Bytes × ℕ) : Delivery :=
  match outcome x.1 with
  | .lost => { w with sent := w.sent ++ [x] }
  | .unanswered nowMillis =>
    { w with
      target := (T.push w.target x nowMillis).2
      sent := w.sent ++ [x] }
  | .answered nowMillis deleted =>
    match T.push w.target x nowMillis with
    | (.error _, target) => { w with target := target, sent := w.sent ++ [x] }
    | (.ok (), target) =>
      { hints := if deleted then w.hints.deleteHint t x.1 else w.hints
        target := target
        sent := w.sent ++ [x]
        acked := w.acked ++ [x] }

/-- **`deliver_hints`**; a scan has every key once, so the outcomes are given by key. -/
def deliverHints (w : Delivery) : Delivery :=
  (w.hints.hintsForNode t).foldl (deliverHint T t outcome) w

/-- Several tasks one after another, each with a record of its own. -/
def deliverAll (outcomes : List (Bytes → Outcome)) (w : Delivery) : Delivery :=
  outcomes.foldl (fun w outcome => deliverHints T t outcome (.start w.hints w.target)) w

/-- **What a task leaves**: it sends the hints of its target, and those whose push or deletion
failed stay, with the hints of the other targets. Every hint that is gone was acknowledged, and the
target has reached its timestamp. -/
structure LeavesUndelivered (hints : HintStore) (target : Node) (w : Delivery) : Prop where
  sent : w.sent = hints.hintsForNode t
  remaining : w.hints.hintsForNode t =
    (hints.hintsForNode t).filter fun x => !(decide (x ∈ w.acked) && (outcome x.1).deletes)
  others : ∀ t', '/' ∉ t'.toList → t' ≠ t → w.hints.hintsForNode t' = hints.hintsForNode t'
  acknowledged : ∀ x ∈ hints.hintsForNode t, x ∉ w.hints.hintsForNode t →
    x ∈ w.acked ∧ WithBot.some x.2.2 ≤ w.target.localStore.stored x.1

/-- **Partial delivery.** Each task, after any number of earlier ones, leaves what it does not
deliver; and over any number of them the timestamps of the target only grow, and its data changes
only with them. -/
structure DeliversPartially (hints : HintStore) : Prop where
  task : ∀ (earlier : List (Bytes → Outcome)) (outcome : Bytes → Outcome) (target : Node),
    let w := deliverAll T t earlier (.start hints target)
    LeavesUndelivered t outcome w.hints w.target
      (deliverHints T t outcome (.start w.hints w.target))
  advances : ∀ (outcomes : List (Bytes → Outcome)) (target : Node) (k : Bytes),
    let w := deliverAll T t outcomes (.start hints target)
    target.localStore.stored k ≤ w.target.localStore.stored k ∧
      (w.target.localStore.stored k = target.localStore.stored k →
        w.target.localStore.get k = target.localStore.get k)

/-- **The push of a hint writes its own entry or nothing**: a handler that takes it is the versioned
put of exactly its key, or the one of a hint for an id with `/`, which is refused. -/
def Carried (lib : UrlLibrary) (c : KvClient) (x : Bytes × Bytes × ℕ) : Prop :=
  ∀ h, PushedTo lib c x.1 x.2.1 x.2.2 h →
    (∃ k, h = .putKvInternalVersioned k ∧ utf8 k = x.1) ∨
      ∃ t' k, h = .putHintInternal t' k ∧ '/' ∈ t'.toList

/-! ### One hint -/

variable {T t outcome}

variable (T t outcome) in
/-- **What the body of the loop does.** -/
theorem deliverHint_cases (w : Delivery) (x : Bytes × Bytes × ℕ) :
    (∃ target, deliverHint T t outcome w x = { w with target := target, sent := w.sent ++ [x] } ∧
      (target = w.target ∨ ∃ now, target = (T.push w.target x now).2)) ∨
    ∃ now deleted target, outcome x.1 = .answered now deleted ∧
      T.push w.target x now = (.ok (), target) ∧
      deliverHint T t outcome w x =
        ⟨if deleted then w.hints.deleteHint t x.1 else w.hints, target, w.sent ++ [x],
          w.acked ++ [x]⟩ := by
  unfold deliverHint
  cases outcome x.1 with
  | lost => exact Or.inl ⟨_, rfl, Or.inl rfl⟩
  | unanswered now => exact Or.inl ⟨_, rfl, Or.inr ⟨now, rfl⟩⟩
  | answered now deleted =>
    rcases hp : T.push w.target x now with ⟨e | _, target⟩
    · exact Or.inl ⟨target, by simp only [hp], Or.inr ⟨now, by rw [hp]⟩⟩
    · exact Or.inr ⟨now, deleted, target, rfl, hp, by simp only [hp]⟩

theorem sent_deliverHint (w : Delivery) (x : Bytes × Bytes × ℕ) :
    (deliverHint T t outcome w x).sent = w.sent ++ [x] := by
  rcases deliverHint_cases T t outcome w x with
    ⟨_, he, -⟩ | ⟨_, _, _, -, -, he⟩ <;> rw [he]

variable (T t outcome) in
theorem acked_deliverHint (w : Delivery) (x : Bytes × Bytes × ℕ) :
    (deliverHint T t outcome w x).acked = w.acked ∨
      (deliverHint T t outcome w x).acked = w.acked ++ [x] := by
  rcases deliverHint_cases T t outcome w x with
    ⟨_, he, -⟩ | ⟨_, _, _, -, -, he⟩
  · rw [he]; exact Or.inl rfl
  · rw [he]; exact Or.inr rfl

/-- A hint that is not yet acknowledged is deleted if the task gets an acknowledgement for it. -/
theorem entry_deliverHint (ht : '/' ∉ t.toList) {t' : NodeId} (ht' : '/' ∉ t'.toList) (k : Bytes)
    {w : Delivery} {x : Bytes × Bytes × ℕ} (hx : x ∉ w.acked) :
    (deliverHint T t outcome w x).hints.entry t' k =
      if t' = t ∧ k = x.1 ∧ x ∈ (deliverHint T t outcome w x).acked ∧ (outcome k).deletes = true
      then none else w.hints.entry t' k := by
  rcases deliverHint_cases T t outcome w x with
    ⟨_, he, -⟩ | ⟨now, deleted, _, ho, -, he⟩
  · rw [he, if_neg fun hc => hx hc.2.2.1]
  · rw [he]
    cases deleted with
    | false =>
      refine (if_neg ?_).symm
      rintro ⟨-, rfl, -, hd⟩
      rw [ho] at hd
      cases hd
    | true =>
      change (w.hints.deleteHint t x.1).entry t' k = _
      rw [HintStore.entry_deleteHint ht ht']
      by_cases hk : k = x.1
      · simp [hk, ho, Outcome.deletes]
      · simp [hk]

/-! ### The loop -/

theorem sent_foldl : ∀ (l : List (Bytes × Bytes × ℕ)) (w : Delivery),
    (l.foldl (deliverHint T t outcome) w).sent = w.sent ++ l
  | [], w => (List.append_nil _).symm
  | x :: l, w => by
    rw [List.foldl_cons, sent_foldl l, sent_deliverHint, List.append_assoc]
    rfl

variable (T t outcome) in
/-- The acknowledged hints are some of those that were sent. -/
theorem acked_foldl : ∀ (l : List (Bytes × Bytes × ℕ)) (w : Delivery),
    ∃ a, a.Sublist l ∧ (l.foldl (deliverHint T t outcome) w).acked = w.acked ++ a
  | [], w => ⟨[], List.Sublist.refl _, (List.append_nil _).symm⟩
  | x :: l, w => by
    obtain ⟨a, ha, he⟩ := acked_foldl l (deliverHint T t outcome w x)
    rw [List.foldl_cons, he]
    rcases acked_deliverHint T t outcome w x with hx | hx
    · exact ⟨a, ha.cons x, by rw [hx]⟩
    · exact ⟨x :: a, ha.cons_cons x, by rw [hx, List.append_assoc]; rfl⟩

/-- A hint of another key is acknowledged before or after the others. -/
theorem mem_acked_foldl {l : List (Bytes × Bytes × ℕ)} {x : Bytes × Bytes × ℕ}
    (hx : x.1 ∉ l.map Prod.fst) (w : Delivery) :
    x ∈ (l.foldl (deliverHint T t outcome) w).acked ↔ x ∈ w.acked := by
  obtain ⟨a, ha, he⟩ := acked_foldl T t outcome l w
  rw [he, List.mem_append]
  exact or_iff_left fun hm => hx (List.mem_map_of_mem (ha.subset hm))

/-- **What the loop leaves** of an entry: nothing if it got an acknowledgement and deleted the
hint. -/
theorem entry_foldl (ht : '/' ∉ t.toList) {t' : NodeId} (ht' : '/' ∉ t'.toList) (k : Bytes) :
    ∀ (l : List (Bytes × Bytes × ℕ)) (w : Delivery), (l.map Prod.fst).Nodup →
      (∀ y ∈ w.acked, y.1 ∉ l.map Prod.fst) →
      (l.foldl (deliverHint T t outcome) w).hints.entry t' k =
        if t' = t ∧ (outcome k).deletes = true ∧
          (∃ y ∈ l, y.1 = k ∧ y ∈ (l.foldl (deliverHint T t outcome) w).acked)
        then none else w.hints.entry t' k
  | [], w, _, _ => by simp
  | x :: l, w, hnd, hacked => by
    rw [List.map_cons, List.nodup_cons] at hnd
    have hx : x ∉ w.acked := fun hm => hacked x hm List.mem_cons_self
    have hacked' : ∀ y ∈ (deliverHint T t outcome w x).acked, y.1 ∉ l.map Prod.fst := by
      intro y hy
      rcases acked_deliverHint T t outcome w x with he | he
      · rw [he] at hy
        exact fun hm => hacked y hy (List.mem_cons_of_mem _ hm)
      · rw [he] at hy
        rcases List.mem_append.mp hy with hy | hy
        · exact fun hm => hacked y hy (List.mem_cons_of_mem _ hm)
        · rw [List.mem_singleton.mp hy]
          exact hnd.1
    rw [List.foldl_cons, entry_foldl ht ht' k l _ hnd.2 hacked', entry_deliverHint ht ht' k hx]
    have hmem : x ∈ (l.foldl (deliverHint T t outcome) (deliverHint T t outcome w x)).acked ↔
        x ∈ (deliverHint T t outcome w x).acked := mem_acked_foldl hnd.1 _
    by_cases hk : k = x.1
    · -- the key of this hint is not one of the others
      have hl : ¬ ∃ y ∈ l, y.1 = k ∧
          y ∈ (l.foldl (deliverHint T t outcome) (deliverHint T t outcome w x)).acked := by
        rintro ⟨y, hy, hyk, -⟩
        exact hnd.1 (hk ▸ hyk ▸ List.mem_map_of_mem hy)
      rw [if_neg fun hc => hl hc.2.2]
      refine if_congr ?_ rfl rfl
      rw [← hmem]
      constructor
      · rintro ⟨rfl, -, hm, hd⟩
        exact ⟨rfl, hd, x, List.mem_cons_self, hk.symm, hm⟩
      · rintro ⟨rfl, hd, y, hy, hyk, hm⟩
        rcases List.mem_cons.mp hy with rfl | hy
        · exact ⟨rfl, hk, hm, hd⟩
        · exact absurd ⟨y, hy, hyk, hm⟩ hl
    · have hne : ¬ (t' = t ∧ k = x.1 ∧ x ∈ (deliverHint T t outcome w x).acked ∧
          (outcome k).deletes = true) := fun hc => hk hc.2.1
      rw [if_neg hne]
      refine if_congr (and_congr_right fun _ => and_congr_right fun _ => ?_) rfl rfl
      constructor
      · rintro ⟨y, hy, hyk, hm⟩
        exact ⟨y, List.mem_cons_of_mem _ hy, hyk, hm⟩
      · rintro ⟨y, hy, hyk, hm⟩
        rcases List.mem_cons.mp hy with rfl | hy
        · exact absurd hyk.symm hk
        · exact ⟨y, hy, hyk, hm⟩

/-! ### The loop as a run -/

variable (T t outcome) in
/-- The body of the loop is one or two steps of the only task of `HintDelivery`. -/
theorem run_deliverHint (w : Delivery) (x : Bytes × Bytes × ℕ) (l : List (Bytes × Bytes × ℕ))
    (acked : List (Bytes × ℕ)) : ∃ acts acked',
      run (HintDelivery.step t) acts ⟨w.hints, [⟨t, x :: l, .sending⟩], acked⟩ =
        some ⟨(deliverHint T t outcome w x).hints, [⟨t, l, .sending⟩], acked'⟩ := by
  rcases deliverHint_cases T t outcome w x with
    ⟨_, he, -⟩ | ⟨now, deleted, _, -, -, he⟩
  · rw [he]
    exact ⟨[.deliver 0 false], acked, rfl⟩
  · rw [he]
    exact ⟨[.deliver 0 true, .delete 0 deleted], (x.1, x.2.2) :: acked, rfl⟩

theorem run_foldl : ∀ (l : List (Bytes × Bytes × ℕ)) (w : Delivery) (acked : List (Bytes × ℕ)),
    ∃ acts acked', run (HintDelivery.step t) acts ⟨w.hints, [⟨t, l, .sending⟩], acked⟩ =
      some ⟨(l.foldl (deliverHint T t outcome) w).hints, [⟨t, [], .sending⟩], acked'⟩
  | [], w, acked => ⟨[], acked, rfl⟩
  | x :: l, w, acked => by
    obtain ⟨acts1, acked1, h1⟩ := run_deliverHint T t outcome w x l acked
    obtain ⟨acts2, acked2, h2⟩ := run_foldl l (deliverHint T t outcome w x) acked1
    exact ⟨acts1 ++ acts2, acked2, run_append_eq_some.mpr ⟨_, h1, h2⟩⟩

/-- **The loop is a run** of one delivery task with nothing in between. -/
theorem run_deliverHints (T : Target) (t : NodeId) (outcome : Bytes → Outcome) (w : Delivery) :
    ∃ acts acked, run (HintDelivery.step t) (.spawn :: acts) (HintDelivery.start w.hints) =
      some ⟨(deliverHints T t outcome w).hints, [⟨t, [], .sending⟩], acked⟩ :=
  run_foldl (w.hints.hintsForNode t) w []

/-! ### Tasks -/

/-- A scan has every key once. -/
theorem nodup_keys (hints : HintStore) (t : NodeId) :
    ((hints.hintsForNode t).map Prod.fst).Nodup :=
  List.pairwise_map.mpr ((hints.pairwise_hintsForNode t).imp fun h => ne_of_lt h)

theorem entry_deliverHints (ht : '/' ∉ t.toList) {t' : NodeId} (ht' : '/' ∉ t'.toList) (k : Bytes)
    (hints : HintStore) (target : Node) :
    (deliverHints T t outcome (.start hints target)).hints.entry t' k =
      if t' = t ∧ (outcome k).deletes = true ∧ (∃ y ∈ hints.hintsForNode t, y.1 = k ∧
        y ∈ (deliverHints T t outcome (.start hints target)).acked)
      then none else hints.entry t' k := by
  have hacked : ∀ y ∈ (Delivery.start hints target).acked,
      y.1 ∉ (hints.hintsForNode t).map Prod.fst := by
    intro y hy
    cases hy
  exact entry_foldl ht ht' k _ _ (nodup_keys hints t) hacked

theorem sent_deliverHints (hints : HintStore) (target : Node) :
    (deliverHints T t outcome (.start hints target)).sent = hints.hintsForNode t :=
  sent_foldl _ _

variable (T outcome) in
/-- **What stays for the target** is what was not acknowledged or not deleted. -/
theorem hintsForNode_deliverHints (ht : '/' ∉ t.toList) (hints : HintStore) (target : Node) :
    (deliverHints T t outcome (.start hints target)).hints.hintsForNode t =
      (hints.hintsForNode t).filter fun x =>
        !(decide (x ∈ (deliverHints T t outcome (.start hints target)).acked) &&
          (outcome x.1).deletes) := by
  refine HintStore.eq_of_keyOrder (HintStore.pairwise_hintsForNode _ t)
    ((hints.pairwise_hintsForNode t).filter _) ?_
  rintro ⟨k, v, ts⟩
  rw [HintStore.mem_hintsForNode, entry_deliverHints ht ht, List.mem_filter]
  have hmem : (k, v, ts) ∈ hints.hintsForNode t ↔ hints.entry t k = some ⟨ts, v⟩ :=
    HintStore.mem_hintsForNode
  rw [hmem]
  -- a scan has the key once
  have huniq : ∀ y ∈ hints.hintsForNode t, y.1 = k → hints.entry t k = some ⟨ts, v⟩ →
      y = (k, v, ts) := by
    rintro ⟨k', v', ts'⟩ hy rfl he
    cases (HintStore.mem_hintsForNode.mp hy).symm.trans he
    rfl
  split_ifs with hc
  · obtain ⟨-, hd, y, hy, hyk, hack⟩ := hc
    refine iff_of_false (by simp) ?_
    rintro ⟨he, hn⟩
    rw [huniq y hy hyk he] at hack
    simp [hack, hd] at hn
  · refine (and_iff_left_of_imp fun he => ?_).symm
    by_contra hn
    simp only [Bool.not_eq_true', Bool.and_eq_false_iff, decide_eq_false_iff_not, not_or,
      not_not, Bool.not_eq_false] at hn
    exact hc ⟨rfl, hn.2, (k, v, ts), hmem.mpr he, rfl, hn.1⟩

/-- The hints of other targets stay. -/
theorem hintsForNode_deliverHints_of_ne (ht : '/' ∉ t.toList) {t' : NodeId}
    (ht' : '/' ∉ t'.toList) (hne : t' ≠ t) (hints : HintStore) (target : Node) :
    (deliverHints T t outcome (.start hints target)).hints.hintsForNode t' =
      hints.hintsForNode t' :=
  HintStore.hintsForNode_congr fun k => by
    rw [entry_deliverHints ht ht', if_neg fun hc => hne hc.1]

/-! ### Hints that are carried -/

/-- **A push of a carried hint** is a conditional write of its entry, or it fails and changes
nothing. -/
theorem push_cases {x : Bytes × Bytes × ℕ} (hc : Carried T.lib T.client x) (n : Node) (now : ℕ) :
    (∃ e, T.push n x now = (.error e, n)) ∨
      T.push n x now =
        (.ok (), { n with localStore := n.localStore.putIfNewer x.1 x.2.1 x.2.2 }) := by
  obtain ⟨key, value, ts⟩ := x
  unfold Target.push
  rcases pushedTo_or_error T.client T.coordinator.onNode n key value ts now with ⟨h, hp⟩ | he
  · rcases hc h hp with ⟨k, rfl, rfl⟩ | ⟨t', k, rfl, ht'⟩
    · exact hp.push_own T.coordinator.onNode n now
    · -- the hint store refuses the id
      obtain ⟨v, rfl, hfits, he⟩ := hp.push_eq T.coordinator.onNode n now
      refine Or.inl ?_
      obtain ⟨code, hcode⟩ := Node.putHintInternal_of_slash n ht' k ⟨v, ts⟩
      have hnode : (T.coordinator.onNode.node n).putHintInternal t' k ⟨v, ts⟩ = .error code := hcode
      rw [he, AppState.handlePut, readPutVersionedBody_of_fits hfits]
      dsimp only
      rw [hnode]
      exact ⟨_, rfl⟩
  · exact Or.inl he

/-- The target has reached the timestamps of the acknowledged hints. -/
def AckedStored (w : Delivery) : Prop :=
  ∀ y ∈ w.acked, WithBot.some y.2.2 ≤ w.target.localStore.stored y.1

variable (t outcome) in
theorem carried_step {x : Bytes × Bytes × ℕ} (hc : Carried T.lib T.client x) {w : Delivery}
    (hi : AckedStored w) :
    w.target.localStore.Advances (deliverHint T t outcome w x).target.localStore ∧
      AckedStored (deliverHint T t outcome w x) := by
  have hpush : ∀ now, w.target.localStore.Advances (T.push w.target x now).2.localStore := by
    intro now
    rcases push_cases hc w.target now with ⟨e, he⟩ | he
    · rw [he]; exact RocksDbStore.Advances.refl _
    · rw [he]; exact RocksDbStore.advances_putIfNewer _ _ _ _
  rcases deliverHint_cases T t outcome w x with
    ⟨target, he, ht⟩ | ⟨now, deleted, target, -, hp, he⟩
  · have hadv : w.target.localStore.Advances target.localStore := by
      rcases ht with rfl | ⟨now, rfl⟩
      · exact RocksDbStore.Advances.refl _
      · exact hpush now
    rw [he]
    exact ⟨hadv, fun y hy => (hi y hy).trans (hadv.stored_le _)⟩
  · have hadv : w.target.localStore.Advances target.localStore := by
      have h := hpush now
      rwa [hp] at h
    rw [he]
    refine ⟨hadv, fun y hy => ?_⟩
    rcases List.mem_append.mp hy with hy | hy
    · exact (hi y hy).trans (hadv.stored_le _)
    · rw [List.mem_singleton.mp hy]
      rcases push_cases hc w.target now with ⟨e, he'⟩ | he'
      · rw [hp] at he'
        cases he'
      · rw [hp] at he'
        rw [(Prod.mk.inj he').2]
        exact RocksDbStore.le_stored_putIfNewer _ _ _ _

theorem carried_foldl : ∀ {l : List (Bytes × Bytes × ℕ)} {w : Delivery},
    (∀ x ∈ l, Carried T.lib T.client x) → AckedStored w →
    w.target.localStore.Advances (l.foldl (deliverHint T t outcome) w).target.localStore ∧
      AckedStored (l.foldl (deliverHint T t outcome) w)
  | [], _, _, hi => ⟨RocksDbStore.Advances.refl _, hi⟩
  | x :: l, w, hc, hi => by
    have h1 := carried_step t outcome (hc x List.mem_cons_self) hi
    have h2 := carried_foldl (fun y hy => hc y (List.mem_cons_of_mem _ hy)) h1.2
    exact ⟨h1.1.trans h2.1, h2.2⟩

variable (outcome) in
/-- A task advances the target, and its acknowledgements are true. -/
theorem carried_deliverHints {hints : HintStore}
    (hc : ∀ x ∈ hints.hintsForNode t, Carried T.lib T.client x) (target : Node) :
    target.localStore.Advances
        (deliverHints T t outcome (.start hints target)).target.localStore ∧
      AckedStored (deliverHints T t outcome (.start hints target)) :=
  carried_foldl hc fun _ hy => absurd hy List.not_mem_nil

/-- **Earlier tasks** leave only hints that were there, and advance the target. -/
theorem carried_deliverAll (ht : '/' ∉ t.toList) : ∀ (outcomes : List (Bytes → Outcome))
    (w : Delivery), (∀ x ∈ w.hints.hintsForNode t, Carried T.lib T.client x) →
    w.target.localStore.Advances (deliverAll T t outcomes w).target.localStore ∧
      ∀ x ∈ (deliverAll T t outcomes w).hints.hintsForNode t, Carried T.lib T.client x
  | [], _, hc => ⟨RocksDbStore.Advances.refl _, hc⟩
  | outcome :: outcomes, w, hc => by
    have h1 := carried_deliverHints outcome hc w.target
    have h2 := carried_deliverAll ht outcomes
      (deliverHints T t outcome (.start w.hints w.target)) fun x hx => by
        rw [hintsForNode_deliverHints _ _ ht] at hx
        exact hc x (List.mem_of_mem_filter hx)
    exact ⟨h1.1.trans h2.1, h2.2⟩

theorem deliversPartially_of_carried (ht : '/' ∉ t.toList) {hints : HintStore}
    (hc : ∀ x ∈ hints.hintsForNode t, Carried T.lib T.client x) : DeliversPartially T t hints := by
  constructor
  · intro earlier outcome target w
    have hw := (carried_deliverAll ht earlier (.start hints target) hc).2
    have hremaining := hintsForNode_deliverHints T outcome ht w.hints w.target
    refine ⟨sent_deliverHints _ _, hremaining,
      fun t' ht' hne => hintsForNode_deliverHints_of_ne ht ht' hne _ _, fun x hx hgone => ?_⟩
    have hack : x ∈ (deliverHints T t outcome (.start w.hints w.target)).acked := by
      rw [hremaining, List.mem_filter] at hgone
      by_contra hn
      exact hgone ⟨hx, by simp [hn]⟩
    exact ⟨hack, (carried_deliverHints outcome hw w.target).2 x hack⟩
  · intro outcomes target k w
    have hadv := (carried_deliverAll ht outcomes (.start hints target) hc).1
    exact ⟨hadv.stored_le k, hadv.get_eq⟩

/-! ### Hints that are not -/

/-- Only the push of this key arrives, at time 0, and its hint is deleted. -/
def only (k : Bytes) : Bytes → Outcome := fun k' => if k' = k then .answered 0 true else .lost

theorem foldl_lost : ∀ {l : List (Bytes × Bytes × ℕ)} (w : Delivery),
    (∀ y ∈ l, outcome y.1 = .lost) →
    l.foldl (deliverHint T t outcome) w = { w with sent := w.sent ++ l }
  | [], w, _ => by rw [List.append_nil]; rfl
  | y :: l, w, h => by
    have hy : deliverHint T t outcome w y = { w with sent := w.sent ++ [y] } := by
      simp only [deliverHint, h y List.mem_cons_self]
    rw [List.foldl_cons, hy, foldl_lost _ fun z hz => h z (List.mem_cons_of_mem _ hz)]
    simp only [List.append_assoc, List.cons_append, List.nil_append]

/-- **One push alone**: if it is answered with a success, its hint is gone. -/
theorem deliverHints_only (ht : '/' ∉ t.toList) {hints : HintStore} {x : Bytes × Bytes × ℕ}
    (hx : x ∈ hints.hintsForNode t) {target target' : Node}
    (hp : T.push target x 0 = (.ok (), target')) :
    (deliverHints T t (only x.1) (.start hints target)).target = target' ∧
      x ∉ (deliverHints T t (only x.1) (.start hints target)).hints.hintsForNode t := by
  have hself : only x.1 x.1 = .answered 0 true := if_pos rfl
  have hnd := nodup_keys hints t
  obtain ⟨pre, post, hl⟩ := List.append_of_mem hx
  rw [hl, List.map_append, List.map_cons] at hnd
  have hne : ∀ y ∈ pre ++ post, only x.1 y.1 = .lost := by
    intro y hy
    refine if_neg fun he => ?_
    have hnot := (List.nodup_middle.mp hnd).notMem
    rw [← List.map_append, ← he] at hnot
    exact hnot (List.mem_map_of_mem hy)
  have hdone : deliverHints T t (only x.1) (.start hints target) =
      ⟨hints.deleteHint t x.1, target', pre ++ [x] ++ post, [x]⟩ := by
    have hbody : ∀ sent, deliverHint T t (only x.1) ⟨hints, target, sent, []⟩ x =
        ⟨hints.deleteHint t x.1, target', sent ++ [x], [x]⟩ := by
      intro sent
      simp only [deliverHint, hself, hp, if_true, List.nil_append]
    rw [deliverHints, Delivery.start, hl, List.foldl_append, List.foldl_cons,
      foldl_lost _ fun y hy => hne y (List.mem_append_left _ hy), List.nil_append, hbody,
      foldl_lost _ fun y hy => hne y (List.mem_append_right _ hy)]
  refine ⟨by rw [hdone], fun hm => ?_⟩
  rw [hintsForNode_deliverHints _ _ ht, List.mem_filter, hdone] at hm
  simp [hself, Outcome.deletes] at hm

/-- **A hint that is not carried** goes wrong: for some coordinator and some node its push succeeds
without the entry, or takes an entry back. -/
theorem exists_push_of_not_carried {lib : UrlLibrary} {c : KvClient} {x : Bytes × Bytes × ℕ}
    (hc : ¬ Carried lib c x) : ∃ target target' : Node,
      Target.push ⟨lib, c, .idle⟩ target x 0 = (.ok (), target') ∧
      (target'.localStore.stored x.1 = ⊥ ∨ ∃ k,
        ¬ target.localStore.stored k ≤ target'.localStore.stored k) := by
  obtain ⟨key, value, ts⟩ := x
  unfold Carried at hc
  push Not at hc
  obtain ⟨h, hp, hown, hhint⟩ := hc
  have hm : .put = h.method := by
    obtain ⟨_, _, _, _, _, hh⟩ := hp
    obtain ⟨segs, -, hroute⟩ := handler_eq_some.mp hh
    exact (path_of_route hroute).1
  have hpush := hp.push_eq (Coordinator.idle (σ := Node)).onNode
  unfold Target.push
  cases h with
  | getKv k => cases hm
  | getKvInternal k => cases hm
  | putKv k =>
    obtain ⟨v, rfl, hfits, he⟩ := hpush Node.empty 0
    rw [AppState.handlePut, readPutBody_of_fits hfits] at he
    exact ⟨_, _, he, Or.inl rfl⟩
  | putKvInternal k =>
    -- the clock of the target is behind
    let target : Node := { Node.empty with localStore := RocksDbStore.empty.put (utf8 k) [] 1 }
    obtain ⟨v, rfl, hfits, he⟩ := hpush target 0
    rw [AppState.handlePut, readPutBody_of_fits hfits] at he
    refine ⟨target, _, he, Or.inr ⟨utf8 k, ?_⟩⟩
    change ¬ (RocksDbStore.empty.put (utf8 k) [] 1).stored (utf8 k) ≤
      ((RocksDbStore.empty.put (utf8 k) [] 1).put (utf8 k) (utf8 v) 0).stored (utf8 k)
    rw [RocksDbStore.stored_put, RocksDbStore.stored_put]
    decide
  | putKvInternalVersioned k =>
    obtain ⟨v, rfl, hfits, he⟩ := hpush Node.empty 0
    rw [AppState.handlePut, readPutVersionedBody_of_fits hfits] at he
    refine ⟨_, _, he, Or.inl ?_⟩
    change (RocksDbStore.empty.putIfNewer (utf8 k) (utf8 v) ts).stored key = ⊥
    have hne : key ≠ utf8 k := fun h => hown k rfl h.symm
    rw [RocksDbStore.stored, RocksDbStore.get_putIfNewer_of_ne _ _ _ hne]
    rfl
  | putHintInternal t' k =>
    have ht' := hhint t' k rfl
    obtain ⟨v, rfl, hfits, he⟩ := hpush Node.empty 0
    have hnode : (Coordinator.idle.onNode.node Node.empty).putHintInternal t' k ⟨v, ts⟩ =
        .ok { Node.empty with
          hints := ⟨HintStore.empty.db.put (hintKey t' (utf8 k)) ⟨ts, utf8 v⟩⟩ } := by
      change Node.empty.putHintInternal t' k ⟨v, ts⟩ = _
      have hstore : Node.empty.hints.storeHint t' (utf8 k) (utf8 v) ts =
          .ok ⟨HintStore.empty.db.put (hintKey t' (utf8 k)) ⟨ts, utf8 v⟩⟩ :=
        HintStore.storeHint_eq_ok.mpr ⟨ht', rfl⟩
      rw [Node.putHintInternal, hstore]
      rfl
    rw [AppState.handlePut, readPutVersionedBody_of_fits hfits] at he
    dsimp only at he
    rw [hnode] at he
    exact ⟨_, _, he, Or.inl rfl⟩

/-- **When delivery leaves exactly what it does not deliver.** Whatever the coordinator of the
target does, the tasks for `t` leave the hints that they do not deliver, and never take the target
back, if and only if no push of a hint reaches anything but the entry of its key. -/
theorem deliversPartially_iff (lib : UrlLibrary) (c : KvClient) {t : NodeId} (ht : '/' ∉ t.toList)
    (hints : HintStore) :
    (∀ co : Coordinator Node, DeliversPartially ⟨lib, c, co⟩ t hints) ↔
      ∀ x ∈ hints.hintsForNode t, Carried lib c x := by
  constructor
  · intro h x hx
    by_contra hc
    obtain ⟨target, target', hp, hbad⟩ := exists_push_of_not_carried hc
    obtain ⟨hfinal, hgone⟩ := deliverHints_only ht hx hp
    rcases hbad with hbad | ⟨k, hbad⟩
    · have hack := (((h .idle).task [] (only x.1) target).acknowledged x hx hgone).2
      change _ ≤ (deliverHints _ t (only x.1) (.start hints target)).target.localStore.stored x.1
        at hack
      rw [hfinal, hbad] at hack
      exact absurd hack (by simp)
    · have hadv := ((h .idle).advances [only x.1] target k).1
      change _ ≤ (deliverHints _ t (only x.1) (.start hints target)).target.localStore.stored k
        at hadv
      rw [hfinal] at hadv
      exact hbad hadv
  · exact fun hc co => deliversPartially_of_carried ht hc

/-- A key that is written under itself has hints that are carried. -/
theorem carried_of_writesOwnEntry {lib : UrlLibrary} {c : KvClient} {x : Bytes × Bytes × ℕ}
    (hown : WritesOwnEntry lib c x.1) : Carried lib c x := by
  rintro h ⟨k, v, hk, -, -, hh⟩
  refine Or.inl ⟨k, hown k h ?_ hh, hk⟩
  rw [← hk, fromUtf8_utf8]

/-- The node `n2`, with its address and a coordinator that is not asked. -/
def remote : Target := ⟨urlLibrary .ascii, .withHttp privateNode.baseUrl, .idle⟩

/-- A hint for a plain key is delivered as it should be, whatever fails. -/
theorem deliversPartially_plain :
    DeliversPartially remote "n2"
      (HintArrivals.afterCalls [⟨"n2", utf8 "k1", utf8 "v", 50⟩]) := by
  refine (deliversPartially_iff _ _ (by decide) _).mpr (fun x hx => ?_) .idle
  have hscan : (HintArrivals.afterCalls [⟨"n2", utf8 "k1", utf8 "v", 50⟩]).hintsForNode "n2" =
      [(utf8 "k1", utf8 "v", 50)] := by decide
  rw [hscan, List.mem_singleton] at hx
  rw [hx]
  exact carried_of_writesOwnEntry
    (writesOwnEntry_of_keySafe (a := privateNode) (by decide) (by decide) rfl)

/-- **The push of `../kv/x` climbs** out of its route: it is an unversioned put of `x`, which takes
the time of the target's clock, 100, over the entry of time 200; it is answered with a success, and
the hint is deleted. -/
theorem push_climbs :
    let hints := HintArrivals.afterCalls [⟨"n2", utf8 "../kv/x", utf8 "v", 50⟩]
    let target : Node :=
      { Node.empty with localStore := RocksDbStore.empty.putIfNewer (utf8 "x") (utf8 "w") 200 }
    let w := deliverAll remote "n2" [fun _ => .answered 100 true] (.start hints target)
    w.target.localStore.get (utf8 "x") = some ⟨100, utf8 "v"⟩ ∧ w.hints.hintsForNode "n2" = [] ∧
      ¬ DeliversPartially remote "n2" hints := by
  intro hints target w
  have hget : w.target.localStore.get (utf8 "x") = some ⟨100, utf8 "v"⟩ := by decide +kernel
  refine ⟨hget, by decide +kernel, fun h => ?_⟩
  have hadv := (h.advances [fun _ => .answered 100 true] target (utf8 "x")).1
  change target.localStore.stored (utf8 "x") ≤ w.target.localStore.stored (utf8 "x") at hadv
  rw [RocksDbStore.stored, RocksDbStore.stored, hget] at hadv
  exact absurd hadv (by decide +kernel)

end Diynamo.Coordinator.PartialDelivery
