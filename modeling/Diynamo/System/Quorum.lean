import Diynamo.System.WellFormed
import Mathlib.Data.Finset.Card
import Mathlib.Data.Finset.Dedup

/-! # Quorum intersection

In every run with atomic conditional writes, whatever is lost, late or out of order: a node that
acknowledged a write stores a timestamp at least as large from then on (`acked_run`), and a get that
starts later and hears from so many preferred nodes that one of them acknowledged the write returns
it or something newer (`quorum_intersection`). The second part rests on what a get can hear: only
what a store held after the get had started (`Heard`). -/

namespace Diynamo.System.Quorum

open Diynamo.Lib.LastWrite Diynamo.Lib.Run Diynamo.Lib.Utf8 Diynamo.Store.RocksDb
  Diynamo.Store.Hints
  Diynamo.Coordinator.Get Diynamo.Coordinator.Put Diynamo.System.Step Diynamo.System.Rules
  Diynamo.System.WellFormed

variable {cfg : Cluster} {w w' : World} {a : Act}

/-! ### Acks -/

/-- A write that was answered `Ok` is in the store, or something newer is. -/
def AnswersTrue (w : World) : Prop :=
  ∀ req, (req, Answer.done) ∈ w.replies → ∀ key v, Job.writes req.job = some (key, v) →
    WithBot.some v.timestamp ≤ (w.node req.dst).localStore.stored key

theorem answersTrue_step (hw : AnswersTrue w) (h : Effect cfg w a w') (ha : Atomic a) :
    AnswersTrue w' := by
  intro req hr key v hj
  rcases replies_step h hr with hr | ⟨i, -, -, hans, hnode⟩ |
    ⟨i, rfl, -⟩ | ⟨-, -, -, hans⟩
  · exact (hw req hr key v hj).trans (stored_le_step h ha _ _)
  · rcases perform_writes (w.node req.dst) hj with hp | ⟨-, hp⟩
    · rw [hnode, hp]
      exact RocksDbStore.le_stored_putIfNewer _ _ _ _
    · simp [hp] at hans
  · exact absurd ha id
  · cases hans

/-- A preferred node that acknowledged a put stores its timestamp or a larger one. -/
def Acked (w : World) : Prop :=
  ∀ (i : ℕ) (p : PutProc), w.procs[i]? = some (.put p) → ∀ x, (x, .ok) ∈ p.joined →
    WithBot.some p.timestamp ≤ (w.node x).localStore.stored p.key

theorem acked_step (hwf : AllWF cfg w) (ht : AnswersTrue w) (hw : Acked w)
    (h : Effect cfg w a w') (ha : Atomic a) : Acked w' := by
  intro i p' hp x hx
  obtain ⟨p, hq, hk, hts, hx⟩ := put_ack_step h hp hx
  rw [← hk, ← hts]
  refine le_trans ?_ (stored_le_step h ha x p.key)
  rcases hx with hx | ⟨req, hr, rfl, hwait, he⟩
  · exact hw i p hq x hx
  · rcases (expects_put he).2 with ⟨-, hj⟩ | ⟨hasked, -⟩
    · exact ht req hr _ _ hj
    · -- a candidate is asked only when no preferred write is running
      have hwf' : PutWF cfg p := hwf i _ hq
      rw [(hwf'.asked _ hasked).1] at hwait
      cases hwait

/-- What holds in every reachable state. -/
structure Inv (cfg : Cluster) (w : World) : Prop where
  wf : AllWF cfg w
  tags : TagsBelow w
  answers : AnswersTrue w
  acked : Acked w

theorem inv_step (hw : Inv cfg w) (h : Effect cfg w a w') (ha : Atomic a) : Inv cfg w' :=
  ⟨allWF_step hw.wf h, tagsBelow_step hw.tags h, answersTrue_step hw.answers h ha,
    acked_step hw.wf hw.answers hw.acked h ha⟩

/-- Nothing runs and nothing is on the way; the stores hold anything. -/
def Quiet (w : World) : Prop := w.procs = [] ∧ w.net = [] ∧ w.checked = [] ∧ w.replies = []

theorem inv_of_quiet (h : Quiet w) : Inv cfg w := by
  obtain ⟨hp, hn, hc, hr⟩ := h
  constructor
  · intro i p hi; simp [hp] at hi
  · exact ⟨by rw [hn]; exact nofun, by rw [hc]; exact nofun, by rw [hr]; exact nofun⟩
  · intro req hreq; simp [hr] at hreq
  · intro i p hi; simp [hp] at hi

theorem inv_run {acts : List Act} (ha : ∀ a ∈ acts, Atomic a) (hw : Inv cfg w)
    (h : run (step cfg) acts w = some w') : Inv cfg w' :=
  invariant_run (C := Atomic) (fun _ _ _ hw ha hs => inv_step hw hs ha) ha h hw

/-- **No timestamp in a local store decreases** along a run. -/
theorem stored_le_run {acts : List Act} (ha : ∀ a ∈ acts, Atomic a)
    (h : run (step cfg) acts w = some w') (x : NodeId) (key : Bytes) :
    (w.node x).localStore.stored key ≤ (w'.node x).localStore.stored key :=
  invariant_run (C := Atomic)
    (I := fun w' => (w.node x).localStore.stored key ≤ (w'.node x).localStore.stored key)
    (fun _ _ _ hle ha hs => hle.trans (stored_le_step hs ha x key)) ha h le_rfl

/-! ### What a get can hear -/

/-- **The gets of a key that start at tag `i0` or later** hear only answers with a property that all
stores have. -/
structure Heard (i0 : ℕ) (key : Bytes) (Q : NodeId → Option VersionedValue → Prop) (w : World) :
    Prop where
  stores : ∀ x, Q x ((w.node x).localStore.get key)
  replies : ∀ req o, (req, Answer.value o) ∈ w.replies → ∀ i, req.tag = some i → i0 ≤ i →
    Job.reads req.job = some key → Q req.dst o
  responses : ∀ (i : ℕ) (g : GetProc), w.procs[i]? = some (.get g) → i0 ≤ i → g.key = key →
    ∀ x o, (x, o) ∈ g.responses → Q x o

theorem heard_step {i0 : ℕ} {key : Bytes} {Q : NodeId → Option VersionedValue → Prop}
    (hw : Heard i0 key Q w) (h : Effect cfg w a w')
    (hs : ∀ x, Q x ((w'.node x).localStore.get key)) : Heard i0 key Q w' := by
  refine ⟨hs, fun req o hr i ht hi hj => ?_, fun i g hg hi hk x o hx => ?_⟩
  · rcases replies_step h hr with hr | ⟨-, -, -, hans, -⟩ | ⟨-, -, -, hans⟩ |
      ⟨-, -, -, hans⟩
    · exact hw.replies req o hr i ht hi hj
    · rcases perform_reads (w.node req.dst) hj with hp | hp
      · rw [hp] at hans
        cases hans
        exact hw.stores req.dst
      · simp [hp] at hans
    · cases hans
    · cases hans
  · obtain ⟨g0, hg0, hk0, hx⟩ := get_response_step h hg hx
    rcases hx with hx | ⟨req, hr, rfl, he⟩
    · exact hw.responses i g0 hg0 hi (hk0.trans hk) x o hx
    · obtain ⟨ht, -, hj⟩ := expects_get he
      exact hw.replies req o hr i ht hi (by rw [hj, hk0, hk])

/-- A get that has not started has heard nothing. -/
theorem heard_start {key : Bytes} {Q : NodeId → Option VersionedValue → Prop} (ht : TagsBelow w)
    (hs : ∀ x, Q x ((w.node x).localStore.get key)) : Heard w.procs.length key Q w := by
  refine ⟨hs, fun req o hr i hti hi => ?_, fun i g hg hi => ?_⟩
  · exact absurd (ht.replies _ hr i hti) (not_lt.mpr hi)
  · exact absurd (List.getElem?_eq_some_iff.mp hg).1 (not_lt.mpr hi)

/-- A lower bound on the stored timestamps holds for all later gets. -/
theorem heard_run {acts : List Act} {key : Bytes} (ht : TagsBelow w) (ha : ∀ a ∈ acts, Atomic a)
    (h : run (step cfg) acts w = some w') :
    Heard w.procs.length key
      (fun x o => (w.node x).localStore.stored key ≤ rank VersionedValue.timestamp o) w' := by
  refine invariant_run (C := Atomic) (fun w1 a w2 hw ha hs => ?_) ha h
    (heard_start ht fun x => le_rfl)
  exact heard_step hw hs fun x => (hw.stores x).trans (stored_le_step hs ha x key)

/-! ### The theorem -/

/-- The nodes a get has heard from, without repetition. -/
def heardFrom (g : GetProc) : Finset NodeId := (g.responses.map Prod.fst).toFinset

theorem card_heardFrom {g : GetProc} (h : GetWF cfg g) :
    (heardFrom g).card = g.responses.length := by
  rw [heardFrom, List.toFinset_card_of_nodup (List.nodup_append.mp h.nodup).1, List.length_map]

/-- Two sets of preferred nodes that together are more than `n` have a node in common. -/
theorem exists_mem_inter {key : Bytes} {A C : Finset NodeId}
    (hA : ∀ x ∈ A, x ∈ cfg.preferred key) (hC : ∀ x ∈ C, x ∈ cfg.preferred key)
    (hcard : cfg.n < A.card + C.card) : ∃ x, x ∈ A ∧ x ∈ C := by
  obtain ⟨hnd, hlen⟩ := preferred_spec cfg key
  have hlt : (cfg.preferred key).toFinset.card < A.card + C.card := by
    rw [List.toFinset_card_of_nodup hnd]; omega
  obtain ⟨x, hx⟩ := Finset.inter_nonempty_of_card_lt_card_add_card
    (fun x hx => List.mem_toFinset.mpr (hA x hx)) (fun x hx => List.mem_toFinset.mpr (hC x hx)) hlt
  exact ⟨x, Finset.mem_inter.mp hx⟩

/-- What a get returns when one of its responses is at least `ts`. -/
theorem readResult_of_response {ts : ℕ} {responses : List (NodeId × Option VersionedValue)}
    (hr : cfg.r ≤ responses.length) {x : NodeId} {o : Option VersionedValue}
    (hx : (x, o) ∈ responses) (ho : WithBot.some ts ≤ rank VersionedValue.timestamp o) :
    ∃ v, readResult cfg responses = .ok (some v) ∧ ts ≤ v.timestamp := by
  have hle := ho.trans (rank_le_winner hx)
  cases hw : winner responses with
  | none => rw [hw] at hle; simp at hle
  | some v =>
    rw [hw, rank_some, WithBot.coe_le_coe] at hle
    exact ⟨v, by rw [readResult, get_of_le hr, hw], hle⟩

/-- A get that waits for nothing returns what its responses give. -/
theorem get_returns {i : ℕ} {g : GetProc} (hg : w.procs[i]? = some (.get g)) (hw : g.waiting = [])
    (hr : g.result = none) : ∃ w' g', step cfg w (.advance i) = some w' ∧
      w'.procs[i]? = some (.get g') ∧ g'.result = some (readResult cfg g.responses) := by
  obtain ⟨hlt, -⟩ := List.getElem?_eq_some_iff.mp hg
  have hadv : Proc.advance cfg (.get g) = some (.get (g.advance cfg)) := by
    simp [Proc.advance, hw, hr]
  have hs : ∃ w', step cfg w (.advance i) = some w' ∧
      w'.procs = w.procs.set i (.get (g.advance cfg)) := by
    refine ⟨{ w.setProc i (.get (g.advance cfg)) with
      net := w.net ++ (Proc.get (g.advance cfg)).expects i ++ (Proc.get g).sends cfg }, ?_, rfl⟩
    simp only [step, hg, hadv]
    rfl
  obtain ⟨w', hs, hprocs⟩ := hs
  exact ⟨w', g.advance cfg, hs, by rw [hprocs, List.getElem?_set_self hlt], rfl⟩

/-- **Quorum intersection**, for atomic conditional writes. Let a put have received `Ok` from the
preferred nodes `A`. Then the nodes of `A` store its timestamp or a larger one in every later state.
And let a get of the key start after that and hear from `c` preferred nodes, with `r ≤ c` and `n <
|A| + c`. Then its responses give a version that is at least as new as the put, and that is what it
returns. -/
theorem quorum_intersection {w0 w1 w2 : World} {acts acts' : List Act} (h0 : Quiet w0)
    (ha : ∀ a ∈ acts ++ acts', Atomic a) (h1 : run (step cfg) acts w0 = some w1)
    (h2 : run (step cfg) acts' w1 = some w2)
    {i : ℕ} {p : PutProc} (hp : w1.procs[i]? = some (.put p)) {A : Finset NodeId}
    (hA : ∀ x ∈ A, (x, .ok) ∈ p.joined) :
    (∀ x ∈ A, x ∈ cfg.preferred p.key ∧
      WithBot.some p.timestamp ≤ (w2.node x).localStore.stored p.key) ∧
    ∀ (j : ℕ) (g : GetProc), w1.procs.length ≤ j → w2.procs[j]? = some (.get g) → g.key = p.key →
      cfg.r ≤ g.responses.length → cfg.n < A.card + g.responses.length →
      ∃ v, readResult cfg g.responses = .ok (some v) ∧ p.timestamp ≤ v.timestamp ∧
        (∀ res, g.result = some res → res = .ok (some v)) ∧
        (g.waiting = [] → g.result = none → ∃ w3 g', step cfg w2 (.advance j) = some w3 ∧
          w3.procs[j]? = some (.get g') ∧ g'.result = some (.ok (some v))) := by
  have ha2 : ∀ a ∈ acts', Atomic a := fun a h => ha a (List.mem_append_right _ h)
  have hi1 := inv_run (fun a h => ha a (List.mem_append_left _ h)) (inv_of_quiet h0) h1
  have hi2 := inv_run ha2 hi1 h2
  have hwfp : PutWF cfg p := hi1.wf i _ hp
  have hpref : ∀ x ∈ A, x ∈ cfg.preferred p.key := fun x hx => by
    rw [preferred_of_ringOrder hwfp.ringOrder]
    exact hwfp.perm.subset (List.mem_append_left _ (List.mem_map_of_mem (hA x hx)))
  have hstored : ∀ x ∈ A, WithBot.some p.timestamp ≤ (w2.node x).localStore.stored p.key :=
    fun x hx => (hi1.acked i p hp x (hA x hx)).trans (stored_le_run ha2 h2 x _)
  refine ⟨fun x hx => ⟨hpref x hx, hstored x hx⟩, ?_⟩
  intro j g hj hg hk hr hcard
  have hwfg : GetWF cfg g := hi2.wf j _ hg
  have hC : ∀ x ∈ heardFrom g, x ∈ cfg.preferred p.key := fun x hx => by
    rw [← hk]
    exact hwfg.preferred (List.mem_append_left _ (List.mem_toFinset.mp hx))
  -- a node that acknowledged the put and answered the get
  obtain ⟨x, hxA, hxC⟩ := exists_mem_inter hpref hC (by rw [card_heardFrom hwfg]; exact hcard)
  obtain ⟨⟨x', o⟩, hxo, rfl⟩ := List.mem_map.mp (List.mem_toFinset.mp hxC)
  have hle := (hi1.acked i p hp _ (hA _ hxA)).trans
    ((heard_run hi1.tags ha2 h2).responses j g hg hj hk _ o hxo)
  obtain ⟨v, hv, hts⟩ := readResult_of_response hr hxo hle
  refine ⟨v, hv, hts, fun res hres => ((hwfg.result res hres).2).trans hv, fun hw hn => ?_⟩
  obtain ⟨w3, g', hs, hg', hres⟩ := get_returns hg hw hn
  exact ⟨w3, g', hs, hg', by rw [hres, hv]⟩

/-- Three nodes that all hold every key, with `w = r = 2`. -/
def threeNodes : Cluster := .onOneMachine 3 2 2 le_rfl

/-- A put that reaches two of three nodes: the third request is lost. -/
def putOnTwo : List Act :=
  [.put "b" [107] [1] 100, .serve 0, .serve 0, .answer 0, .answer 0, .loseRequest 0]

/-- A get that hears from another pair: the read of `c` fails. -/
def getFromTwo : List Act :=
  [.get "a" [107], .serve 0, .serve 1, .answer 0, .answer 0, .fail 1 "c" false]

/-- The pairs meet, and the get finds the write. -/
theorem quorum_intersection_pairs :
    ∃ w2 v, run (step threeNodes) (putOnTwo ++ getFromTwo) World.empty = some w2 ∧
      (∀ x ∈ ({"b", "c"} : Finset NodeId),
        WithBot.some 100 ≤ (w2.node x).localStore.stored [107]) ∧
      readResult threeNodes [("b", some ⟨100, [1]⟩), ("a", none)] = .ok (some v) ∧
      100 ≤ v.timestamp := by
  have h1 : ((run (step threeNodes) putOnTwo World.empty).any fun w =>
      w.procs = [.put ⟨"b", [107], [1], 100, ["b", "c", "a"], ["a"], [("b", .ok), ("c", .ok)], [],
        [], 0, none, none⟩]) = true := by decide
  have h2 : ((run (step threeNodes) (putOnTwo ++ getFromTwo) World.empty).any fun w =>
      w.procs[1]? = some (.get ⟨"a", [107], [], [("b", some ⟨100, [1]⟩), ("a", none)], none⟩)) =
        true := by decide
  obtain ⟨w1, hr1, hp1⟩ := (Option.any_eq_true _ _).mp h1
  obtain ⟨w2, hr2, hp2⟩ := (Option.any_eq_true _ _).mp h2
  have hprocs := of_decide_eq_true hp1
  obtain ⟨w1', hr1', hr2'⟩ := run_append_eq_some.mp hr2
  obtain rfl := Option.some.inj (hr1'.symm.trans hr1)
  have hp0 : w1'.procs[0]? = some (.put ⟨"b", [107], [1], 100, ["b", "c", "a"], ["a"],
      [("b", .ok), ("c", .ok)], [], [], 0, none, none⟩) := by rw [hprocs]; rfl
  obtain ⟨hst, hget⟩ := quorum_intersection ⟨rfl, rfl, rfl, rfl⟩ (by decide) hr1 hr2' hp0
    (A := {"b", "c"}) (by decide)
  obtain ⟨v, hv, hts, -⟩ := hget 1 _ (by rw [hprocs]; decide) (of_decide_eq_true hp2) rfl
    (by decide) (by decide)
  exact ⟨w2, v, hr2, fun x hx => (hst x hx).2, hv, hts⟩

end Diynamo.System.Quorum
