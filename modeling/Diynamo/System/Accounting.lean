import Diynamo.System.Quorum

/-! # The puts of the system are those of the coordinator

A put process of the system takes its outcomes from the messages, one at a time, while
`Coordinator.Put.put` runs its two phases for outcomes that are given. A process that has returned
did what `put` does for some outcomes of the hint attempts (`put_refines`): it made the same
attempts, counted the same acks and returned the same result, so that its acks are distinct nodes
and at most `n`, and no node was contacted twice.

The invariant `Walked` says which attempts a process has made, and that the rest of the walk over
the candidates starts where the process stands. -/

namespace Diynamo.System.Accounting

open Diynamo.Lib.Run Diynamo.Store.Hints Diynamo.Cluster.Ring Diynamo.Coordinator.Get
  Diynamo.Coordinator.Put Diynamo.System.Step Diynamo.System.Rules Diynamo.System.WellFormed
  Diynamo.System.Quorum

variable {cfg : Cluster} {w w' : World} {a : Act} {p : PutProc} {made : List Attempt}
  {accepts : ℕ → NodeId → NodeId → Bool}

/-! ### Attempts -/

/-- The outcomes are those of the attempts made. -/
def Agrees (accepts : ℕ → NodeId → NodeId → Bool) (made : List Attempt) : Prop :=
  ∀ k a, made[k]? = some a → accepts k a.target a.candidate = a.accepted

/-- The outcomes of a list of attempts; all further ones fail. -/
def outcomesOf (made : List Attempt) (k : ℕ) (_ _ : NodeId) : Bool :=
  made[k]?.any Attempt.accepted

theorem agrees_outcomesOf (made : List Attempt) : Agrees (outcomesOf made) made := by
  intro k a ha
  simp [outcomesOf, ha]

/-- One more attempt was made, with the next outcome. -/
theorem agrees_concat {a : Attempt} (h : Agrees accepts (made ++ [a])) :
    Agrees accepts made ∧ accepts made.length a.target a.candidate = a.accepted := by
  constructor
  · intro k b hb
    have hk : k < made.length := (List.getElem?_eq_some_iff.mp hb).1
    refine h k b ?_
    rwa [List.getElem?_append_left hk]
  · exact h made.length a (by simp)

theorem length_acceptedHints_concat (made : List Attempt) (a : Attempt) :
    (acceptedHints (made ++ [a])).length =
      (acceptedHints made).length + if a.accepted then 1 else 0 := by
  cases h : a.accepted <;> simp [acceptedHints, h]

theorem nodesWith_concat (o o' : WriteOutcome) (joined : List (NodeId × WriteOutcome))
    (x : NodeId) :
    nodesWith o (joined ++ [(x, o')]) = nodesWith o joined ++ if o' = o then [x] else [] := by
  by_cases h : o' = o <;> simp [nodesWith, h]

/-! ### Processes -/

/-- The attempts of a process from here on, where `k` were made before. -/
def toCome (cfg : Cluster) (p : PutProc) (accepts : ℕ → NodeId → NodeId → Bool) (k : ℕ) :
    List Attempt :=
  match p.asked, p.targets with
  | some c, t :: ts =>
    ⟨t, c, accepts k t c⟩ ::
      hintRun (p.order.take cfg.n) accepts (k + 1) (targetsAfter (t :: ts) (accepts k t c)) p.cands
  | _, targets => hintRun (p.order.take cfg.n) accepts k targets p.cands

theorem toCome_of_none (h : p.asked = none) (k : ℕ) : toCome cfg p accepts k =
    hintRun (p.order.take cfg.n) accepts k p.targets p.cands := by
  unfold toCome
  rw [h]

theorem toCome_of_some {c t : NodeId} {ts : List NodeId} (h : p.asked = some c)
    (ht : p.targets = t :: ts) (k : ℕ) : toCome cfg p accepts k = ⟨t, c, accepts k t c⟩ ::
      hintRun (p.order.take cfg.n) accepts (k + 1) (targetsAfter p.targets (accepts k t c))
        p.cands := by
  unfold toCome
  rw [h, ht]

/-- **The process has made the attempts `made`** of the walk over the candidates, and the rest of
the walk is to come. -/
structure Walked (cfg : Cluster) (p : PutProc) (made : List Attempt) : Prop where
  wf : PutWF cfg p
  enough : cfg.n ≤ p.order.length
  acks : p.hintAcks = (acceptedHints made).length
  phase1 : p.waiting ≠ [] → made = [] ∧ p.targets = nodesWith .error p.joined ∧
    p.cands = p.order.drop cfg.n
  walk : ∀ accepts, Agrees accepts made →
    hintRun (p.order.take cfg.n) accepts 0 (nodesWith .error p.joined) (p.order.drop cfg.n) =
      made ++ toCome cfg p accepts made.length
  asked : ∀ c, p.asked = some c → ∃ t ts, p.targets = t :: ts
  result : ∀ res, p.result = some res → p.waiting = [] ∧ p.asked = none ∧
    nextHint (p.order.take cfg.n) p.targets p.cands = none ∧
      res = if cfg.w ≤ p.acks then .ok () else .error ⟨p.acks, cfg.w⟩

theorem walked_start {c : NodeId} {key value : Diynamo.Lib.Utf8.Bytes} {now : ℕ}
    {order : List NodeId} (hwf : PutWF cfg (startPut cfg c key value now order))
    (hn : cfg.n ≤ order.length) : Walked cfg (startPut cfg c key value now order) [] where
  wf := hwf
  enough := hn
  acks := rfl
  phase1 := fun _ => ⟨rfl, rfl, rfl⟩
  walk := fun accepts _ => by rw [toCome_of_none rfl]; rfl
  asked := nofun
  result := nofun

/-- In phase 1 the failed nodes are collected. -/
theorem walked_join (h : Walked cfg p made) {x : NodeId} (hx : x ∈ p.waiting) (o : WriteOutcome) :
    Walked cfg (p.join x o) made := by
  have hne : p.waiting ≠ [] := List.ne_nil_of_mem hx
  obtain ⟨rfl, htgt, hcands⟩ := h.phase1 hne
  have hasked : p.asked = none := by
    cases hc : p.asked with
    | none => rfl
    | some c => exact absurd (h.wf.asked c hc).1 hne
  have htgt' : (p.join x o).targets = nodesWith .error (p.join x o).joined := by
    simp only [PutProc.join, nodesWith_concat, htgt]
    split_ifs <;> simp
  refine ⟨putWF_join h.wf hx o, h.enough, h.acks, fun _ => ⟨rfl, htgt', hcands⟩,
    fun accepts _ => ?_, fun c hc => ?_, fun res hr => ?_⟩
  · have hasked' : (p.join x o).asked = none := hasked
    rw [toCome_of_none hasked', htgt', List.nil_append]
    simp only [PutProc.join, hcands, List.length_nil]
  · have hc' : p.asked = some c := hc
    simp [hasked] at hc'
  · exact absurd (h.result res hr).1 hne

/-- The candidate's answer ends the attempt. -/
theorem walked_hinted (h : Walked cfg p made) {c : NodeId} (hc : p.asked = some c) (isOk : Bool) :
    ∃ t, Walked cfg (p.hinted isOk) (made ++ [⟨t, c, isOk⟩]) := by
  obtain ⟨t, ts, ht⟩ := h.asked c hc
  have hw : p.waiting = [] := (h.wf.asked c hc).1
  refine ⟨t, putWF_hinted h.wf isOk, h.enough, ?_, fun hne => absurd hw hne,
    fun accepts hag => ?_, nofun, fun res hr => ?_⟩
  · rw [length_acceptedHints_concat, ← h.acks]
    cases isOk <;> rfl
  · obtain ⟨hag, hlast⟩ := agrees_concat hag
    have hlast' : accepts made.length t c = isOk := hlast
    have hwalk := h.walk accepts hag
    rw [toCome_of_some hc ht, hlast'] at hwalk
    rw [toCome_of_none rfl, List.length_append, List.length_singleton, List.append_assoc]
    exact hwalk
  · have hnone := (h.result res hr).2.1
    simp [hc] at hnone

/-- The next candidate is asked, or the walk is over. -/
theorem walked_advance (h : Walked cfg p made) (hw : p.waiting = []) (hasked : p.asked = none) :
    Walked cfg (p.advance cfg) made := by
  have hwf := putWF_advance h.wf hw
  have hstep : ∀ accepts, toCome cfg p accepts made.length = _ := fun accepts =>
    (toCome_of_none hasked _).trans (hintRun_eq_nextHint made.length p.cands p.targets)
  unfold PutProc.advance at hwf ⊢
  cases hnext : nextHint (p.order.take cfg.n) p.targets p.cands with
  | none =>
    simp only [hnext] at hwf ⊢
    refine ⟨hwf, h.enough, h.acks, h.phase1, h.walk, h.asked, fun res hr => ?_⟩
    exact ⟨hw, hasked, hnext, (Option.some.inj hr).symm⟩
  | some x =>
    obtain ⟨t, c, cs⟩ := x
    simp only [hnext] at hwf ⊢
    obtain ⟨hhead, -⟩ := nextHint_spec hnext
    obtain ⟨ts, ht⟩ := List.head?_eq_some_iff.mp hhead
    refine ⟨hwf, h.enough, h.acks, fun hne => absurd hw hne, fun accepts hag => ?_,
      fun _ _ => ⟨t, ts, ht⟩, fun res hr => ?_⟩
    · have hcome := hstep accepts
      simp only [hnext] at hcome
      rw [h.walk accepts hag, hcome,
        toCome_of_some (p := { p with asked := some c, cands := cs }) rfl ht]
    · obtain ⟨-, -, hover, -⟩ := h.result res hr
      simp [hnext] at hover

/-! ### Runs -/

/-- Every put process has made some attempts of its walk. -/
def AllWalked (cfg : Cluster) (w : World) : Prop :=
  ∀ (i : ℕ) (p : PutProc), w.procs[i]? = some (.put p) → ∃ made, Walked cfg p made

theorem walked_settle {x : NodeId} {o : Outcome} {q : PutProc} (h : Walked cfg p made)
    (hs : Proc.settle x o (.put p) = some (.put q)) : ∃ made', Walked cfg q made' := by
  rw [Proc.settle] at hs
  split_ifs at hs with hx hc
  · obtain rfl := Proc.put.inj (Option.some.inj hs)
    exact ⟨made, walked_join h hx _⟩
  · obtain rfl := Proc.put.inj (Option.some.inj hs)
    obtain ⟨t, h'⟩ := walked_hinted h hc o.isOk
    exact ⟨_, h'⟩

theorem allWalked_step (hw : AllWalked cfg w) (h : Effect cfg w a w') : AllWalked cfg w' := by
  intro i q hq
  rcases proc_step h hq with hq | ⟨-, hs⟩ | ⟨p, hp, hm⟩
  · exact hw i q hq
  · have hwf : PutWF cfg q := wf_starts hs
    cases hs with
    | put ho hn => exact ⟨[], walked_start hwf hn⟩
  · obtain ⟨p, rfl⟩ := eq_put_of_moves hm
    obtain ⟨made, hmade⟩ := hw i p hp
    cases hm with
    | answered _ _ hs => exact walked_settle hmade hs
    | failed _ hs => exact walked_settle hmade hs
    | advance hs =>
      rw [Proc.advance] at hs
      split_ifs at hs with hc
      obtain rfl := Proc.put.inj (Option.some.inj hs)
      exact ⟨made, walked_advance hmade hc.1 hc.2.1⟩

/-- **The puts of the system refine `put`.** In every run, a put process that has returned did what
`put` does on the ring order of its key, for the outcomes of its preferred writes and some outcomes
of the hint attempts: it counted the same acks, all accounted for, and returned the same result. -/
theorem put_refines {w0 : World} (h0 : Quiet w0) {acts : List Act}
    (h : run (step cfg) acts w0 = some w) {i : ℕ} (hp : w.procs[i]? = some (.put p))
    {res : Except QuorumFailed Unit} (hres : p.result = some res) :
    ∃ order accepts tr, cfg.ring.ringOrderForKey cfg.hashRing p.key = .ok order ∧
      put cfg.n order p.joined accepts = some tr ∧
      tr.Accounted ((order.take cfg.n).map MemberInfo.id) ((order.drop cfg.n).map MemberInfo.id) ∧
      tr.acks = p.acks ∧ tr.result cfg.w = res := by
  have hall : AllWalked cfg w :=
    run_invariant (fun _ _ _ hw hs => allWalked_step hw (effect_of_step hs)) h fun i p hi => by
      simp [h0.1] at hi
  obtain ⟨made, hmade⟩ := hall i p hp
  obtain ⟨hw, hasked, hover, hresult⟩ := hmade.result res hres
  obtain ⟨order, horder, hids⟩ := ringOrder_eq_some.mp hmade.wf.ringOrder
  have hlen : cfg.n ≤ order.length := by
    have := hmade.enough
    rwa [← hids, List.length_map] at this
  have htake : (order.take cfg.n).map MemberInfo.id = p.order.take cfg.n := by
    rw [List.map_take, hids]
  have hdrop : (order.drop cfg.n).map MemberInfo.id = p.order.drop cfg.n := by
    rw [List.map_drop, hids]
  -- nothing is to come, so the walk with these outcomes is what the process has made
  have hwalk : hintRun (p.order.take cfg.n) (outcomesOf made) 0 (nodesWith .error p.joined)
      (p.order.drop cfg.n) = made := by
    rw [hmade.walk _ (agrees_outcomesOf made), toCome_of_none hasked, hintRun_eq_nextHint, hover,
      List.append_nil]
  have hacks : PutTrace.acks ⟨p.joined, made⟩ = p.acks := by
    simp only [PutTrace.acks, PutTrace.realAcks, PutTrace.hintAcks, PutProc.acks, hmade.acks]
  have hnd : (p.order.take cfg.n ++ p.order.drop cfg.n).Nodup := by
    rw [List.take_append_drop]
    exact (preferenceList_of_ringOrder hmade.wf.ringOrder).2
  have hperm : (p.joined.map Prod.fst).Perm (p.order.take cfg.n) := by
    simpa [hw] using hmade.wf.perm
  have hacc := accounted_hintRun (outcomesOf made) hnd hperm
  refine ⟨order, outcomesOf made, ⟨p.joined, made⟩, horder, ?_, ?_, hacks, ?_⟩
  · rw [put_eq_some hlen, htake, hdrop, hwalk]
  · rw [htake, hdrop]
    rwa [hwalk] at hacc
  · rw [PutTrace.result, hacks, hresult]

/-- The write to `c` fails, `a` takes the hint, and the put returns. -/
def hintedPut : List Act :=
  [.put "b" [107] [1] 100, .serve 0, .answer 0, .fail 0 "c" false, .advance 0, .serve 1, .answer 0,
    .advance 0]

/-- A put with one ack of phase 1 and one hint. -/
theorem put_refines_hinted :
    ∃ order accepts tr, put 2 order [("b", .ok), ("c", .error)] accepts = some tr ∧
      tr.Accounted ((order.take 2).map MemberInfo.id) ((order.drop 2).map MemberInfo.id) ∧
      tr.acks = 2 ∧ tr.result 2 = .ok () := by
  have hc : ((run (step (.onOneMachine 2 2 2 (by decide))) hintedPut World.empty).any fun w =>
      w.procs[0]? = some (.put ⟨"b", [107], [1], 100, ["b", "c", "a"], [],
        [("b", .ok), ("c", .error)], [], [], 1, none, some (.ok ())⟩)) = true := by decide
  obtain ⟨w, hr, hp⟩ := (Option.any_eq_true _ _).mp hc
  obtain ⟨order, accepts, tr, -, hput, hacc, hacks, hres⟩ :=
    put_refines ⟨rfl, rfl, rfl, rfl⟩ hr (of_decide_eq_true hp) rfl
  exact ⟨order, accepts, tr, hput, hacc, hacks, hres⟩

end Diynamo.System.Accounting
