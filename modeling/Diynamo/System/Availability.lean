import Diynamo.System.Accounting

/-! # Availability

Which puts and gets succeed when some nodes cannot be reached. If a process hears from the nodes of
a set and from no other one, its put succeeds if and only if `w` of the nodes in the ring order of
the key are in the set and `w ≤ n`, whichever nodes these are: every failed preferred write finds
another node for its hint as long as there is one. Its get succeeds if and only if `r` of the
preferred nodes are in the set, since a read has no fallback (`available_iff`).

The invariant `Counted` follows the outcomes that a process has seen. -/

namespace Diynamo.System.Availability

open Diynamo.Lib.Run Diynamo.Lib.Utf8 Diynamo.Store.RocksDb Diynamo.Store.Hints
  Diynamo.Server.Router Diynamo.Coordinator.Get Diynamo.Coordinator.Put Diynamo.System.Step
  Diynamo.System.Rules Diynamo.System.WellFormed Diynamo.System.Quorum Diynamo.System.Accounting

variable {cfg : Cluster} {up : NodeId → Bool} {i : ℕ} {w w' : World} {a : Act} {p : PutProc}
  {made : List Attempt}

/-- **Process `i` hears from the nodes of `up`, and only from them**: they do not refuse what it
asks, and its requests to the other ones fail. -/
def HearsFrom (up : NodeId → Bool) (i : ℕ) (w : World) : Act → Prop
  | .answer j => ∀ r ∈ w.replies[j]?, r.1.tag = some i → up r.1.dst = true ∧ r.2 ≠ .failed
  | .fail p x panicked => p = i → up x = false ∧ panicked = false
  | _ => True

instance (up : NodeId → Bool) (i : ℕ) (w : World) : ∀ a, Decidable (HearsFrom up i w a)
  | .answer j => inferInstanceAs (Decidable (∀ r ∈ w.replies[j]?, r.1.tag = some i →
      up r.1.dst = true ∧ r.2 ≠ .failed))
  | .fail p x panicked => inferInstanceAs (Decidable (p = i → up x = false ∧ panicked = false))
  | .put _ _ _ _ | .get _ _ | .deliver _ _ | .reconcile _ _ _ | .serve _ | .check _ | .write _
  | .refuse _ | .loseRequest _ | .loseReply _ | .advance _ | .abort _
  | .setFaults _ _ => isTrue trivial

/-! ### Answers -/

/-- An answer that is no refusal is of the kind of its request. -/
def Fitting (r : Request × Answer) : Prop :=
  r.2 ≠ .failed → (Job.reads r.1.job = none → r.2 = .done) ∧
    (Job.reads r.1.job ≠ none → ∃ v, r.2 = .value v)

theorem reads_of_writes {job : Job} {x : Bytes × VersionedValue} (h : Job.writes job = some x) :
    Job.reads job = none := by
  cases job <;> first | rfl | cases h

theorem reads_of_hints {job : Job} {x : NodeId × Bytes × HintEntry} (h : Job.hints job = some x) :
    Job.reads job = none := by
  cases job <;> first | rfl | cases h

theorem fitting_perform (s : Node) (req : Request) : Fitting (req, (perform s req.job).2) := by
  intro hne
  rcases job_cases req.job with ⟨key, v, hj⟩ | ⟨key, hj⟩ | ⟨t, key, e, hj⟩
  · rcases perform_writes s hj with hp | ⟨-, hp⟩
    · exact ⟨fun _ => by rw [hp], fun h => absurd (reads_of_writes hj) h⟩
    · exact absurd (by rw [hp]) hne
  · rcases perform_reads s hj with hp | hp
    · exact ⟨fun h => by simp [hj] at h, fun _ => ⟨_, by rw [hp]⟩⟩
    · exact absurd (by rw [hp]) hne
  · rcases perform_hints s hj with ⟨-, hp⟩ | hp
    · exact ⟨fun _ => by rw [hp], fun h => absurd (reads_of_hints hj) h⟩
    · exact absurd (by rw [hp]) hne

/-- The answers on the way are of the kinds of their requests. -/
def AllFitting (w : World) : Prop := ∀ r ∈ w.replies, Fitting r

theorem allFitting_step (hw : AllFitting w) (h : Effect cfg w a w') : AllFitting w' := by
  intro r hr
  cases h with
  | idle hn => exact hw r hr
  | spawn hs => exact hw r hr
  | serve hi =>
    rcases List.mem_append.mp hr with hr | hr
    · exact hw r hr
    · rw [List.mem_singleton.mp hr]
      exact fitting_perform _ _
  | check hi hp => exact hw r hr
  | write hi hj =>
    rcases List.mem_append.mp hr with hr | hr
    · exact hw r hr
    · rw [List.mem_singleton.mp hr]
      exact fun _ => ⟨fun _ => rfl, fun h => absurd (reads_of_writes hj) h⟩
  | refuse hi =>
    rcases List.mem_append.mp hr with hr | hr
    · exact hw r hr
    · rw [List.mem_singleton.mp hr]
      exact fun hne => absurd rfl hne
  | loseRequest => exact hw r hr
  | loseReply => exact hw r (List.mem_of_mem_eraseIdx hr)
  | answer hi ht hp he hs => exact hw r (List.mem_of_mem_eraseIdx hr)
  | fail ho hp hs => exact hw r hr
  | advance hp hs =>
    refine hw r ?_
    rwa [← replies_deleteHint]
  | abort hp => exact hw r hr
  | setFaults => exact hw r hr

/-! ### What a process has heard -/

/-- The write of a preferred node has the outcome that the set gives it. -/
def outcomeOf (up : NodeId → Bool) (x : NodeId) : WriteOutcome := if up x then .ok else .error

/-- **A put has heard from the nodes of `up` only.** -/
structure PutCounted (cfg : Cluster) (up : NodeId → Bool) (p : PutProc) (made : List Attempt) :
    Prop where
  walked : Walked cfg p made
  joined : ∀ x ∈ p.joined, x.2 = outcomeOf up x.1
  made : ∀ a ∈ made, a.accepted = up a.candidate

/-- **A get has heard from the nodes of `up` only.** -/
structure GetCounted (cfg : Cluster) (up : NodeId → Bool) (g : GetProc) : Prop where
  wf : GetWF cfg g
  heard : (g.responses.map Prod.fst ++ g.waiting.filter up).Perm ((cfg.preferred g.key).filter up)

def Counted (cfg : Cluster) (up : NodeId → Bool) : Proc → Prop
  | .put p => ∃ made, PutCounted cfg up p made
  | .get g => GetCounted cfg up g
  | _ => True

theorem counted_starts {q : Proc} (h : Starts cfg w a q) : Counted cfg up q := by
  have hwf := wf_starts h
  cases h with
  | put ho hn => exact ⟨[], walked_start hwf hn, nofun, nofun⟩
  | get hp =>
    refine ⟨hwf, ?_⟩
    rw [preferred_of_preferenceList hp]
    exact List.Perm.refl _
  | deliver => trivial
  | reconcile => trivial

theorem putCounted_settle (h : PutCounted cfg up p made) {x : NodeId} {o : Outcome} {q : Proc}
    (hs : Proc.settle x o (.put p) = some q)
    (ho : (up x = true ∧ o = .answered .done) ∨ (up x = false ∧ o = .error)) :
    Counted cfg up q := by
  have hwrite : o.toWrite = outcomeOf up x := by
    rcases ho with ⟨hx, rfl⟩ | ⟨hx, rfl⟩ <;> simp [outcomeOf, hx, Outcome.toWrite]
  have hok : o.isOk = up x := by
    rcases ho with ⟨hx, rfl⟩ | ⟨hx, rfl⟩ <;> simp [hx, Outcome.isOk]
  rw [Proc.settle] at hs
  split_ifs at hs with hx hc
  · rw [← Option.some.inj hs]
    refine ⟨made, walked_join h.walked hx _, fun y hy => ?_, h.made⟩
    rcases List.mem_append.mp hy with hy | hy
    · exact h.joined y hy
    · rw [List.mem_singleton.mp hy]
      exact hwrite
  · rw [← Option.some.inj hs]
    obtain ⟨t, hw⟩ := walked_hinted h.walked hc o.isOk
    refine ⟨_, hw, h.joined, fun y hy => ?_⟩
    rcases List.mem_append.mp hy with hy | hy
    · exact h.made y hy
    · rw [List.mem_singleton.mp hy]
      exact hok

theorem getCounted_settle {g : GetProc} (h : GetCounted cfg up g) {x : NodeId} {o : Outcome}
    {q : Proc} (hs : Proc.settle x o (.get g) = some q)
    (ho : (up x = true ∧ ∃ v, o = .answered (.value v)) ∨ (up x = false ∧ o = .error)) :
    Counted cfg up q := by
  have hwf := wf_settle (p := .get g) h.wf hs
  rw [Proc.settle] at hs
  split_ifs at hs with hx
  obtain rfl := Option.some.inj hs
  refine ⟨hwf, List.Perm.trans ?_ h.heard⟩
  have hperm := ((List.perm_cons_erase hx).filter up).symm
  rcases ho with ⟨hup, v, rfl⟩ | ⟨hup, rfl⟩
  · rw [List.filter_cons_of_pos hup] at hperm
    simp only [GetProc.join, List.map_append, List.append_assoc]
    exact hperm.append_left _
  · rw [List.filter_cons_of_neg (by simp [hup])] at hperm
    exact hperm.append_left _

theorem counted_advance {q q' : Proc} (h : Counted cfg up q) (hs : q.advance cfg = some q') :
    Counted cfg up q' := by
  cases q with
  | put p =>
    obtain ⟨made, hc⟩ := h
    rw [Proc.advance] at hs
    split_ifs at hs with hcond
    obtain rfl := Option.some.inj hs
    refine ⟨made, walked_advance hc.walked hcond.1 hcond.2.1, ?_, hc.made⟩
    unfold PutProc.advance
    split <;> exact hc.joined
  | get g =>
    have hwf := wf_advance (p := .get g) h.wf hs
    rw [Proc.advance] at hs
    split_ifs at hs with hcond
    obtain rfl := Option.some.inj hs
    exact ⟨hwf, h.heard⟩
  | deliver self d =>
    rcases advance_deliver hs with ⟨-, -, rfl⟩ | ⟨-, rfl⟩ <;> trivial
  | reconcile r =>
    rcases advance_reconcile hs with ⟨_, _, _, -, -, rfl⟩ | ⟨_, _, _, -, -, rfl⟩ <;> trivial

/-! ### Counting -/

theorem length_nodesWith {joined : List (NodeId × WriteOutcome)}
    (h : ∀ x ∈ joined, x.2 = outcomeOf up x.1) :
    (nodesWith .ok joined).length = (joined.map Prod.fst).countP up ∧
      (nodesWith .error joined).length + (joined.map Prod.fst).countP up = joined.length := by
  induction joined with
  | nil => simp [nodesWith]
  | cons x l ih =>
    obtain ⟨ih1, ih2⟩ := ih fun y hy => h y (List.mem_cons_of_mem _ hy)
    have hx := h x List.mem_cons_self
    simp only [nodesWith, List.length_map] at ih1 ih2 ⊢
    rw [List.map_cons, List.countP_cons, List.length_cons, ← ih2, ← ih1]
    cases hup : up x.1 with
    | true =>
      have hx' : x.2 = .ok := by rw [hx, outcomeOf, hup, if_pos rfl]
      simp [hx', Nat.add_assoc]
    | false =>
      have hx' : x.2 = .error := by rw [hx, outcomeOf, hup]; rfl
      simp [hx', Nat.add_right_comm]

/-- **The acks of a put** that has returned: one for each reachable node, up to `n`. -/
theorem acks_of_counted (h : PutCounted cfg up p made) {res : Except QuorumFailed Unit}
    (hres : p.result = some res) : p.acks = min cfg.n (p.order.countP up) := by
  obtain ⟨hw, hasked, hover, -⟩ := h.walked.result res hres
  have hagrees : Agrees (fun _ _ c => up c) made := fun k b hb =>
    (h.made b (List.mem_of_getElem? hb)).symm
  -- nothing is to come, so the attempts are those of the walk over all candidates
  have hmade : hintRun (p.order.take cfg.n) (fun _ _ c => up c) 0 (nodesWith .error p.joined)
      (p.order.drop cfg.n) = made := by
    rw [h.walked.walk _ hagrees, toCome_of_none hasked, hintRun_eq_nextHint, hover, List.append_nil]
  have hnd := (preferenceList_of_ringOrder h.walked.wf.ringOrder).2
  rw [← List.take_append_drop cfg.n p.order] at hnd
  have hdisj : ∀ c ∈ p.order.drop cfg.n, c ∉ p.order.take cfg.n := fun c hc hc' =>
    List.disjoint_of_nodup_append hnd hc' hc
  have haccepts : ∀ k t c, (fun (_ : ℕ) (_ c : NodeId) => up c) k t c = up c := fun _ _ _ => rfl
  have hhints := congrArg List.length
    (accepted_candidates haccepts (p.order.drop cfg.n) (nodesWith .error p.joined) 0 hdisj)
  rw [hmade, List.length_map, List.length_take, ← List.countP_eq_length_filter] at hhints
  have hperm : (p.joined.map Prod.fst).Perm (p.order.take cfg.n) := by
    simpa [hw] using h.walked.wf.perm
  obtain ⟨hok, herr⟩ := length_nodesWith h.joined
  rw [hperm.countP_eq] at hok herr
  have hlen : p.joined.length = cfg.n := by
    rw [← List.length_map (f := Prod.fst), hperm.length_eq, List.length_take,
      min_eq_left h.walked.enough]
  have hsum : p.order.countP up =
      (p.order.take cfg.n).countP up + (p.order.drop cfg.n).countP up := by
    rw [← List.countP_append, List.take_append_drop]
  rw [PutProc.acks, phase1_eq, h.walked.acks, hhints, hok, hsum]
  omega

/-- **The responses of a get** that waits for no more: one for each reachable preferred node. -/
theorem responses_of_counted {g : GetProc} (h : GetCounted cfg up g) (hw : g.waiting = []) :
    g.responses.length = (cfg.preferred g.key).countP up := by
  have hlen := h.heard.length_eq
  rw [hw, List.filter_nil, List.append_nil, List.length_map] at hlen
  rw [hlen, List.countP_eq_length_filter]

/-! ### Runs -/

theorem step_fail {j : ℕ} {x : NodeId} {panicked : Bool}
    (hs : step cfg w (.fail j x panicked) = some w') :
    ∃ q q', w.procs[j]? = some q ∧
      q.settle x (if panicked then .panicked else .error) = some q' ∧ w' = w.setProc j q' := by
  simp only [step] at hs
  split at hs
  · cases hs
  · next q hq =>
    obtain ⟨q', hset, rfl⟩ := Option.map_eq_some_iff.mp hs
    exact ⟨q, q', hq, hset, rfl⟩

theorem counted_answered {q q' : Proc} (h : Counted cfg up q) {req : Request} {ans : Answer}
    (he : req ∈ q.expects i) (hs : q.settle req.dst (.answered ans) = some q')
    (hup : up req.dst = true) (hne : ans ≠ .failed) (hf : Fitting (req, ans)) :
    Counted cfg up q' := by
  obtain ⟨hdone, hvalue⟩ := hf hne
  cases q with
  | put p =>
    obtain ⟨made, hc⟩ := h
    have hreads : Job.reads req.job = none := by
      rcases (expects_put he).2 with ⟨-, hj⟩ | ⟨-, t, -, hj⟩
      · exact reads_of_writes hj
      · exact reads_of_hints hj
    exact putCounted_settle hc hs (Or.inl ⟨hup, congrArg _ (hdone hreads)⟩)
  | get g =>
    obtain ⟨v, hv⟩ := hvalue (by simp [(expects_get he).2.2])
    exact getCounted_settle h hs (Or.inl ⟨hup, v, congrArg _ hv⟩)
  | deliver self d => rcases settle_deliver hs with ⟨-, -, rfl⟩ | ⟨-, rfl⟩ <;> trivial
  | reconcile r => obtain ⟨-, rfl⟩ := settle_reconcile hs; trivial

theorem counted_failed {q q' : Proc} (h : Counted cfg up q) {x : NodeId}
    (hs : q.settle x .error = some q') (hup : up x = false) : Counted cfg up q' := by
  cases q with
  | put p => obtain ⟨made, hc⟩ := h; exact putCounted_settle hc hs (Or.inr ⟨hup, rfl⟩)
  | get g => exact getCounted_settle h hs (Or.inr ⟨hup, rfl⟩)
  | deliver self d => rcases settle_deliver hs with ⟨-, -, rfl⟩ | ⟨-, rfl⟩ <;> trivial
  | reconcile r => obtain ⟨-, rfl⟩ := settle_reconcile hs; trivial

theorem counted_moves {q q' : Proc} (h : Counted cfg up q) (hm : Moves cfg w a i q q')
    (hans : ∀ j, a ≠ .answer j) (hfail : ∀ j x b, a ≠ .fail j x b) : Counted cfg up q' := by
  cases hm with
  | answered => exact absurd rfl (hans _)
  | failed => exact absurd rfl (hfail _ _ _)
  | advance hs => exact counted_advance h hs
  | abort => trivial

/-- **One step** in which process `i` hears from the nodes of `up`. -/
theorem counted_step (hi : ∀ q, w.procs[i]? = some q → Counted cfg up q) (hf : AllFitting w)
    (ha : HearsFrom up i w a) (hs : step cfg w a = some w') :
    ∀ q, w'.procs[i]? = some q → Counted cfg up q := by
  intro q' hq'
  have heff := effect_of_step hs
  cases a with
  | answer j =>
    cases heff with
    | idle => exact hi q' hq'
    | spawn hst => cases hst
    | answer hj ht hp he hset =>
      rcases getElem?_setProc hq' with hq | ⟨rfl, rfl⟩
      · exact hi q' hq
      · obtain ⟨hup, hne⟩ := ha _ hj ht
        exact counted_answered (hi _ hp) he hset hup hne (hf _ (List.mem_of_getElem? hj))
  | fail j x panicked =>
    obtain ⟨q, q1, hp, hset, rfl⟩ := step_fail hs
    rcases getElem?_setProc hq' with hq | ⟨rfl, rfl⟩
    · exact hi q' hq
    · obtain ⟨hup, rfl⟩ := ha rfl
      exact counted_failed (hi _ hp) hset hup
  | _ =>
    rcases proc_step heff hq' with hq | ⟨-, hst⟩ | ⟨q, hq, hm⟩
    · exact hi q' hq
    · exact counted_starts hst
    · exact counted_moves (hi q hq) hm nofun nofun

theorem counted_run {w0 : World} (h0 : Quiet w0) {acts : List Act}
    (hup : Along (step cfg) (HearsFrom up i) acts w0) (h : run (step cfg) acts w0 = some w) :
    ∀ q, w.procs[i]? = some q → Counted cfg up q :=
  (run_invariant_along
    (I := fun w => AllFitting w ∧ ∀ q, w.procs[i]? = some q → Counted cfg up q)
    (fun _ _ _ hw ha hs => ⟨allFitting_step hw.1 (effect_of_step hs), counted_step hw.2 hw.1 ha hs⟩)
    hup h ⟨fun r hr => by simp [h0.2.2.2] at hr, fun q hq => by simp [h0.1] at hq⟩).2

/-- **Which requests are served** when process `i` hears from the nodes of `up` only: its put
succeeds if and only if `w` nodes of the whole ring order are in `up` and `w ≤ n`; its get succeeds
if and only if `r` of the preferred nodes are. -/
theorem available_iff {w0 : World} (h0 : Quiet w0) {acts : List Act}
    (hup : Along (step cfg) (HearsFrom up i) acts w0) (h : run (step cfg) acts w0 = some w) :
    (∀ p res, w.procs[i]? = some (.put p) → p.result = some res →
      (res = .ok () ↔ cfg.w ≤ min cfg.n (p.order.countP up))) ∧
    ∀ g res, w.procs[i]? = some (.get g) → g.result = some res →
      ((∃ v, res = .ok v) ↔ cfg.r ≤ (cfg.preferred g.key).countP up) := by
  have hall := counted_run h0 hup h
  constructor
  · intro p res hp hres
    obtain ⟨made, hc⟩ := hall _ hp
    obtain ⟨-, -, -, rfl⟩ := hc.walked.result res hres
    rw [← acks_of_counted hc hres]
    split_ifs with hw
    · exact iff_of_true rfl hw
    · exact iff_of_false nofun hw
  · intro g res hg hres
    have hc : GetCounted cfg up g := hall _ hg
    obtain ⟨hw, rfl⟩ := hc.wf.result res hres
    rw [← responses_of_counted hc hw]
    simp only [readResult, Coordinator.Get.get]
    split_ifs with hlt
    · refine iff_of_false ?_ (not_le.mpr hlt)
      rintro ⟨v, hv⟩
      cases hv
    · exact iff_of_true ⟨_, rfl⟩ (not_lt.mp hlt)

/-- The preferred node `c` is down: the put succeeds with a hint at `a`. -/
theorem available_iff_hinted : (∃ w, run (step (.onOneMachine 2 2 2 (by decide))) hintedPut
      World.empty = some w) ∧
    ∀ w ∈ run (step (.onOneMachine 2 2 2 (by decide))) hintedPut World.empty,
      ∀ p res, w.procs[0]? = some (.put p) → p.result = some res →
        (res = .ok () ↔ 2 ≤ min 2 (p.order.countP (· ≠ "c"))) := by
  refine ⟨Option.isSome_iff_exists.mp (by decide), fun w h => ?_⟩
  have hup : Along (step (.onOneMachine 2 2 2 (by decide))) (HearsFrom (· ≠ "c") 0) hintedPut
      World.empty := by decide
  exact (available_iff ⟨rfl, rfl, rfl, rfl⟩ hup h).1

end Diynamo.System.Availability
