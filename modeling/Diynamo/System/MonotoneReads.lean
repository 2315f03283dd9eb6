import Diynamo.System.Transport

/-! # Reads after reads

Two gets of a key that both reach `r` nodes need not agree on a write in progress: the second one
may hear from nodes that the write has not reached, and return less. What helps is the read repair
of the first get. Once its repairs have been served, every node it heard from stores what it
returned or something newer, so that a get which starts then and hears from one of them cannot
return less; with `n < 2 * r` every get does (`reads_monotone`). A get that does not wait for them
can (`reads_not_monotone`).

A repair is followed from the step that sends it: it is on the way, or its node has reached the
timestamp (`Repairing`). -/

namespace Diynamo.System.MonotoneReads

open Diynamo.Lib.LastWrite Diynamo.Lib.Run Diynamo.Lib.Utf8 Diynamo.Store.RocksDb
  Diynamo.Store.Hints Diynamo.Coordinator.Get Diynamo.Coordinator.Put Diynamo.System.Step
  Diynamo.System.Rules Diynamo.System.WellFormed Diynamo.System.Quorum Diynamo.System.Transport

variable {cfg : Cluster} {w w' : World} {a : Act} {key : Bytes} {v : VersionedValue}

/-! ### Answers to reads -/

/-- **What a get was told is still in the store**, or something newer is. -/
structure ReadsTrue (w : World) : Prop where
  replies : ∀ req o, (req, Answer.value o) ∈ w.replies → ∀ key, Job.reads req.job = some key →
    rank VersionedValue.timestamp o ≤ (w.node req.dst).localStore.stored key
  responses : ∀ (i : ℕ) (g : GetProc), w.procs[i]? = some (.get g) → ∀ x o, (x, o) ∈ g.responses →
    rank VersionedValue.timestamp o ≤ (w.node x).localStore.stored g.key

theorem readsTrue_step (hw : ReadsTrue w) (h : Effect cfg w a w') (ha : Atomic a) :
    ReadsTrue w' := by
  refine ⟨fun req o hr key hj => ?_, fun i g hg x o hx => ?_⟩
  · rcases replies_step h hr with hr | ⟨-, -, -, hans, hnode⟩ |
      ⟨-, -, -, hans⟩ | ⟨-, -, -, hans⟩
    · exact (hw.replies req o hr key hj).trans (stored_le_step h ha _ _)
    · rcases perform_reads (w.node req.dst) hj with hp | hp
      · rw [hp] at hans hnode
        cases hans
        rw [hnode]
        exact le_rfl
      · simp [hp] at hans
    · cases hans
    · cases hans
  · obtain ⟨g0, hg0, hk0, hx⟩ := get_response_step h hg hx
    rw [← hk0]
    refine le_trans ?_ (stored_le_step h ha _ _)
    rcases hx with hx | ⟨req, hr, rfl, he⟩
    · exact hw.responses i g0 hg0 x o hx
    · exact hw.replies req o hr _ (expects_get he).2.2

theorem readsTrue_run {w0 : World} (h0 : Quiet w0) {acts : List Act} (ha : ∀ a ∈ acts, Atomic a)
    (h : run (step cfg) acts w0 = some w) : ReadsTrue w := by
  refine invariant_run (C := Atomic) (fun _ _ _ hw ha hs => readsTrue_step hw hs ha) ha h ?_
  exact ⟨fun req o hr => by simp [h0.2.2.2] at hr, fun i g hg => by simp [h0.1] at hg⟩

/-! ### Repairs -/

/-- A read repair that carries the version: nobody waits for its answer. -/
def IsRepair (key : Bytes) (v : VersionedValue) (req : Request) : Prop :=
  req.tag = none ∧ Job.writes req.job = some (key, v)

instance (key : Bytes) (v : VersionedValue) (req : Request) : Decidable (IsRepair key v req) := by
  unfold IsRepair; infer_instance

/-- **The repairs arrive**: none of them is lost, refused, or blocked where it is served. -/
def RepairsArrive (key : Bytes) (v : VersionedValue) (w : World) : Act → Prop
  | .loseRequest i | .refuse i => ∀ req ∈ w.net[i]?, ¬ IsRepair key v req
  | .serve i => ∀ req ∈ w.net[i]?, IsRepair key v req →
      (w.node req.dst).faults.blockInternal = false
  | _ => True

instance (key : Bytes) (v : VersionedValue) (w : World) : ∀ a, Decidable (RepairsArrive key v w a)
  | .loseRequest i | .refuse i =>
    inferInstanceAs (Decidable (∀ req ∈ w.net[i]?, ¬ IsRepair key v req))
  | .serve i => inferInstanceAs (Decidable (∀ req ∈ w.net[i]?, IsRepair key v req →
      (w.node req.dst).faults.blockInternal = false))
  | .put _ _ _ _ | .get _ _ | .deliver _ _ | .reconcile _ _ _ | .check _ | .write _
  | .answer _ | .loseReply _ | .fail _ _ _ | .advance _ | .abort _
  | .setFaults _ _ => isTrue trivial

/-- No repair is on the way. -/
def Repaired (key : Bytes) (v : VersionedValue) (w : World) : Prop :=
  ∀ req ∈ w.net ++ w.checked, ¬ IsRepair key v req

instance (key : Bytes) (v : VersionedValue) (w : World) : Decidable (Repaired key v w) :=
  inferInstanceAs (Decidable (∀ req ∈ w.net ++ w.checked, ¬ IsRepair key v req))

/-- **The repair of a node** is on the way, or the node stores its timestamp or a larger one. -/
def Repairing (key : Bytes) (v : VersionedValue) (x : NodeId) (w : World) : Prop :=
  WithBot.some v.timestamp ≤ (w.node x).localStore.stored key ∨
    ∃ req ∈ w.net ++ w.checked, req.dst = x ∧ IsRepair key v req

/-- An element of a list is still there after a removal, or was removed. -/
theorem mem_eraseIdx_or {α : Type} {x : α} : ∀ {l : List α} (i : ℕ), x ∈ l →
    x ∈ l.eraseIdx i ∨ l[i]? = some x
  | _ :: l, 0, h => by
    rcases List.mem_cons.mp h with rfl | h
    · exact Or.inr rfl
    · exact Or.inl h
  | y :: l, i + 1, h => by
    rcases List.mem_cons.mp h with rfl | h
    · exact Or.inl List.mem_cons_self
    · rcases mem_eraseIdx_or i h with h | h
      · exact Or.inl (List.mem_cons_of_mem _ h)
      · exact Or.inr h

/-- **A repair on the way** is still on the way after a step, or has been served. -/
theorem repair_step (h : Effect cfg w a w') (ha : Atomic a) (harr : RepairsArrive key v w a)
    {req : Request} (hr : req ∈ w.net ++ w.checked) (hrep : IsRepair key v req) :
    req ∈ w'.net ++ w'.checked ∨
      WithBot.some v.timestamp ≤ (w'.node req.dst).localStore.stored key := by
  rw [List.mem_append] at hr ⊢
  cases h with
  | idle => exact Or.inl hr
  | spawn => exact Or.inl (hr.imp_left (List.mem_append_left _))
  | serve hi =>
    next i req' =>
    rcases hr with hr | hr
    · rcases mem_eraseIdx_or i hr with hr | hr
      · exact Or.inl (Or.inl hr)
      · obtain rfl := Option.some.inj (hi.symm.trans hr)
        have hblock := harr req' hi hrep
        rcases perform_writes (w.node req'.dst) hrep.2 with hp | ⟨hb, -⟩
        · right
          rw [node_serve, if_pos rfl, hp]
          exact RocksDbStore.le_stored_putIfNewer _ _ _ _
        · rw [hblock] at hb
          cases hb
    · exact Or.inl (Or.inr hr)
  | check hi hp =>
    next i req' =>
    rcases hr with hr | hr
    · rcases mem_eraseIdx_or i hr with hr | hr
      · exact Or.inl (Or.inl hr)
      · obtain rfl := Option.some.inj (hi.symm.trans hr)
        exact Or.inl (Or.inr (List.mem_append_right _ List.mem_cons_self))
    · exact Or.inl (Or.inr (List.mem_append_left _ hr))
  | write => exact absurd ha id
  | refuse hi =>
    next i req' =>
    rcases hr with hr | hr
    · rcases mem_eraseIdx_or i hr with hr | hr
      · exact Or.inl (Or.inl hr)
      · exact absurd hrep (harr req hr)
    · exact Or.inl (Or.inr hr)
  | loseRequest =>
    next i =>
    rcases hr with hr | hr
    · rcases mem_eraseIdx_or i hr with hr | hr
      · exact Or.inl (Or.inl hr)
      · exact absurd hrep (harr req hr)
    · exact Or.inl (Or.inr hr)
  | loseReply => exact Or.inl hr
  | answer => exact Or.inl hr
  | fail => exact Or.inl hr
  | advance hp hs =>
    refine Or.inl (hr.imp (fun hr => ?_) fun hr => ?_)
    · exact List.mem_append_left _ (List.mem_append_left _ hr)
    · rwa [← checked_deleteHint] at hr
  | abort => exact Or.inl hr
  | setFaults => exact Or.inl hr

theorem repairing_step {x : NodeId} (hw : Repairing key v x w) (h : Effect cfg w a w')
    (ha : Atomic a) (harr : RepairsArrive key v w a) : Repairing key v x w' := by
  rcases hw with hst | ⟨req, hr, rfl, hrep⟩
  · exact Or.inl (hst.trans (stored_le_step h ha x key))
  · rcases repair_step h ha harr hr hrep with hr | hst
    · exact Or.inr ⟨req, hr, rfl, hrep⟩
    · exact Or.inl hst

/-- **A get that returns** sends a repair to every node it has heard less from. -/
theorem repairing_of_returns {i : ℕ} {g : GetProc} (hg : w.procs[i]? = some (.get g))
    (h : step cfg w (.advance i) = some w') (hw : ReadsTrue w) (hr : cfg.r ≤ g.responses.length)
    (hwin : winner g.responses = some v) {k d : String} (hk : fromUtf8 g.key = some k)
    (hd : fromUtf8 v.data = some d) {x : NodeId} {o : Option VersionedValue}
    (hx : (x, o) ∈ g.responses) : Repairing g.key v x w' := by
  simp only [step, hg] at h
  obtain ⟨q, -, rfl⟩ := Option.map_eq_some_iff.mp h
  rcases lt_or_ge (rank VersionedValue.timestamp o) (WithBot.some v.timestamp) with hlt | hge
  · have hrep : (x, v) ∈ repairs g.responses := mem_repairs.mpr ⟨hwin, o, hx, hlt⟩
    have hjob : versionedJob g.key v.data v.timestamp = some (.putVersioned k d v.timestamp) := by
      rw [versionedJob, withUtf8, hk, hd]
    have hsend : (⟨none, x, .putVersioned k d v.timestamp⟩ : Request) ∈
        (Proc.get g).sends cfg := by
      simp only [Proc.sends, GetProc.sends, get_of_le hr]
      exact List.mem_flatMap.mpr ⟨_, hrep, mem_requests.mpr ⟨_, hjob, rfl⟩⟩
    refine Or.inr ⟨_, List.mem_append_left _ (List.mem_append_right _ hsend), rfl, rfl, ?_⟩
    exact writes_of_versionedJob hjob
  · exact Or.inl (hge.trans (hw.responses i g hg x o hx))

/-! ### Two gets, one after the other -/

/-- A get that starts when the repairs of another one have been served, and shares a node with it,
returns a version that is at least as new. -/
theorem readResult_of_repaired {w0 w1 w2 w3 w4 : World} {before during after : List Act}
    (h0 : Quiet w0) (ha : ∀ a ∈ before ++ during ++ after, Atomic a)
    (h1 : run (step cfg) before w0 = some w1) {i : ℕ} {g : GetProc}
    (hg : w1.procs[i]? = some (.get g)) (hret : step cfg w1 (.advance i) = some w2)
    (hr : cfg.r ≤ g.responses.length) (hwin : winner g.responses = some v)
    (hk : fromUtf8 g.key ≠ none) (hd : fromUtf8 v.data ≠ none)
    (h3 : run (step cfg) during w2 = some w3)
    (harr : Along (step cfg) (RepairsArrive g.key v) during w2) (hrep : Repaired g.key v w3)
    (h4 : run (step cfg) after w3 = some w4) {j : ℕ} {g' : GetProc} (hj : w3.procs.length ≤ j)
    (hg' : w4.procs[j]? = some (.get g')) (hkey : g'.key = g.key)
    (hr' : cfg.r ≤ g'.responses.length) (hcard : cfg.n < g.responses.length + g'.responses.length) :
    ∃ v', readResult cfg g'.responses = .ok (some v') ∧ v.timestamp ≤ v'.timestamp ∧
      ∀ res, g'.result = some res → res = .ok (some v') := by
  obtain ⟨k, hk⟩ := Option.ne_none_iff_exists'.mp hk
  obtain ⟨d, hd⟩ := Option.ne_none_iff_exists'.mp hd
  simp only [List.forall_mem_append] at ha
  obtain ⟨⟨ha1, ha2⟩, ha3⟩ := ha
  have hi1 := inv_run ha1 (inv_of_quiet h0) h1
  have hi2 : Inv cfg w2 := inv_step hi1 (effect_of_step hret) trivial
  have hi3 := inv_run ha2 hi2 h3
  have hi4 := inv_run ha3 hi3 h4
  have hwf : GetWF cfg g := hi1.wf i _ hg
  have hwf' : GetWF cfg g' := hi4.wf j _ hg'
  -- a node that both gets have heard from
  have hsub : ∀ x ∈ heardFrom g, x ∈ cfg.preferred g.key := fun x hx =>
    hwf.preferred (List.mem_append_left _ (List.mem_toFinset.mp hx))
  have hsub' : ∀ x ∈ heardFrom g', x ∈ cfg.preferred g.key := fun x hx =>
    hkey ▸ hwf'.preferred (List.mem_append_left _ (List.mem_toFinset.mp hx))
  have hmeet : cfg.n < (heardFrom g).card + (heardFrom g').card := by
    rwa [card_heardFrom hwf, card_heardFrom hwf']
  obtain ⟨x, hx, hx'⟩ := exists_mem_inter hsub hsub' hmeet
  obtain ⟨⟨x, o⟩, hxo, rfl⟩ := List.mem_map.mp (List.mem_toFinset.mp hx)
  obtain ⟨⟨x', o'⟩, hxo', rfl⟩ := List.mem_map.mp (List.mem_toFinset.mp hx')
  have hstart := repairing_of_returns hg hret (readsTrue_run h0 ha1 h1) hr hwin hk hd hxo
  have hend : Repairing g.key v x' w3 :=
    run_invariant_along (I := Repairing g.key v x')
      (fun _ _ _ hw ha hs => repairing_step hw (effect_of_step hs) ha.1 ha.2)
      (along_and (along_of_forall_mem _ ha2) harr) h3 hstart
  have hst : WithBot.some v.timestamp ≤ (w3.node x').localStore.stored g.key :=
    hend.resolve_right fun ⟨req, hreq, _, hr⟩ => hrep req hreq hr
  have hle := (heard_run hi3.tags ha3 h4).responses j g' hg' hj hkey x' o' hxo'
  obtain ⟨v', hv', hts⟩ := readResult_of_response hr' hxo' (hst.trans hle)
  exact ⟨v', hv', hts, fun res hres => ((hwf'.result res hres).2).trans hv'⟩

/-- **Reads do not go backwards once the repairs are served**, in every run of a deployment with
atomic conditional writes, over keys that a path carries. Let a get return a version, and let no
repair of it be lost, refused or blocked. Then a get of the key that starts when they have been
served, and hears from so many nodes that the two have one in common, returns a version that is at
least as new. -/
theorem reads_monotone (net : Deployment cfg) {w0 w1 w2 w3 w4 : World}
    {before during after : List Act} (h0 : Quiet w0) (hs : StoresCarried cfg w0)
    (hc : ∀ a ∈ before ++ during ++ after, CarriedAct cfg a)
    (ha : ∀ a ∈ before ++ during ++ after, Atomic a) (h1 : run net.step before w0 = some w1)
    {i : ℕ} {g : GetProc} (hg : w1.procs[i]? = some (.get g))
    (hret : net.step w1 (.advance i) = some w2) (hr : cfg.r ≤ g.responses.length)
    (hwin : winner g.responses = some v) (hk : fromUtf8 g.key ≠ none) (hd : fromUtf8 v.data ≠ none)
    (h3 : run net.step during w2 = some w3)
    (harr : Along net.step (RepairsArrive g.key v) during w2)
    (hrep : Repaired g.key v w3) (h4 : run net.step after w3 = some w4) {j : ℕ} {g' : GetProc}
    (hj : w3.procs.length ≤ j) (hg' : w4.procs[j]? = some (.get g')) (hkey : g'.key = g.key)
    (hr' : cfg.r ≤ g'.responses.length) (hcard : cfg.n < g.responses.length + g'.responses.length) :
    ∃ v', readResult cfg g'.responses = .ok (some v') ∧ v.timestamp ≤ v'.timestamp ∧
      ∀ res, g'.result = some res → res = .ok (some v') := by
  simp only [List.forall_mem_append] at hc
  obtain ⟨⟨hc1, hc2⟩, hc3⟩ := hc
  obtain ⟨h1, hw1⟩ := net.run_step hc1 (allCarried_of_quiet h0 hs) h1
  obtain ⟨hret, hw2⟩ := net.refines w1 (.advance i) w2 hw1 trivial hret
  have harr := net.along_step hc2 hw2 h3 harr
  obtain ⟨h3, hw3⟩ := net.run_step hc2 hw2 h3
  obtain ⟨h4, -⟩ := net.run_step hc3 hw3 h4
  exact readResult_of_repaired h0 ha h1 hg hret hr hwin hk hd h3 harr hrep h4 hj hg' hkey hr' hcard

/-- A put that reaches `b` alone, and a get that hears from `b` and `c`. -/
def firstRead : List Act :=
  [.put "b" [107] [1] 100, .serve 0, .loseRequest 0, .loseRequest 0, .get "c" [107], .serve 0,
    .serve 0, .answer 1, .answer 1, .loseRequest 0, .fail 1 "a" false]

/-- A get that starts after the repair of `c`, and hears from `c` and `a`. -/
def secondRead : List Act :=
  [.get "a" [107], .serve 1, .serve 1, .answer 2, .answer 2]

/-- The second get returns what the first one has returned. -/
theorem reads_monotone_repaired :
    ∃ w4 v', run threeOnLoopback.step (firstRead ++ (.advance 1 :: .serve 0 :: secondRead))
        World.empty = some w4 ∧
      readResult threeNodes [("c", some ⟨100, [1]⟩), ("a", none)] = .ok (some v') ∧
      100 ≤ v'.timestamp := by
  have h1 : ((run threeOnLoopback.step firstRead World.empty).any fun w =>
      w.procs[1]? = some (.get ⟨"c", [107], [], [("b", some ⟨100, [1]⟩), ("c", none)], none⟩)) =
        true := by decide +kernel
  have h2 : ((run threeOnLoopback.step (firstRead ++ [.advance 1]) World.empty).any fun w =>
      Along threeOnLoopback.step (RepairsArrive [107] ⟨100, [1]⟩) [.serve 0] w) = true := by
    decide +kernel
  have h3 : ((run threeOnLoopback.step (firstRead ++ [.advance 1] ++ [.serve 0]) World.empty).any
      fun w => w.procs.length ≤ 2 ∧ Repaired [107] ⟨100, [1]⟩ w) = true := by decide +kernel
  have h4 : ((run threeOnLoopback.step (firstRead ++ [.advance 1] ++ [.serve 0] ++ secondRead)
      World.empty).any fun w =>
      w.procs[2]? = some (.get ⟨"a", [107], ["b"], [("c", some ⟨100, [1]⟩), ("a", none)],
        none⟩)) = true := by decide +kernel
  obtain ⟨w1, hr1, hp1⟩ := (Option.any_eq_true _ _).mp h1
  obtain ⟨w2, hr2, hp2⟩ := (Option.any_eq_true _ _).mp h2
  obtain ⟨w3, hr3, hp3⟩ := (Option.any_eq_true _ _).mp h3
  obtain ⟨w4, hr4, hp4⟩ := (Option.any_eq_true _ _).mp h4
  have hall : run threeOnLoopback.step (firstRead ++ (.advance 1 :: .serve 0 :: secondRead))
      World.empty = some w4 := by simpa using hr4
  rw [run_append_eq_some] at hr4
  obtain ⟨w3', hr3', hr4⟩ := hr4
  obtain rfl := Option.some.inj (hr3'.symm.trans hr3)
  rw [run_append_eq_some] at hr3
  obtain ⟨w2', hr2', hr3⟩ := hr3
  obtain rfl := Option.some.inj (hr2'.symm.trans hr2)
  rw [run_append_eq_some] at hr2
  obtain ⟨w1', hr1', hr2⟩ := hr2
  obtain rfl := Option.some.inj (hr1'.symm.trans hr1)
  have hstep : threeOnLoopback.step w1' (.advance 1) = some w2' := by simpa [run] using hr2
  have hlen := (of_decide_eq_true hp3)
  obtain ⟨v', hv', hts, -⟩ := reads_monotone threeOnLoopback ⟨rfl, rfl, rfl, rfl⟩
    storesCarried_empty (by decide +kernel) (by decide) hr1 (of_decide_eq_true hp1) hstep
    (by decide) (by decide) (by decide) (by decide) hr3 (of_decide_eq_true hp2) hlen.2 hr4 hlen.1
    (of_decide_eq_true hp4) rfl (by decide) (by decide)
  exact ⟨w4, v', hall, hv', hts⟩

/-- **A get that does not wait for the repair** finds nothing where the get before it has returned a
version. -/
theorem reads_not_monotone :
    ((run (step threeNodes) (firstRead ++ [.advance 1, .get "a" [107], .serve 2, .serve 2,
        .answer 1, .answer 1, .loseRequest 1, .fail 2 "b" false, .advance 2]) World.empty).any
      fun w => w.procs.drop 1 =
        [.get ⟨"c", [107], [], [("b", some ⟨100, [1]⟩), ("c", none)],
          some (.ok (some ⟨100, [1]⟩))⟩,
        .get ⟨"a", [107], [], [("c", none), ("a", none)], some (.ok none)⟩]) = true := by
  decide

end Diynamo.System.MonotoneReads
