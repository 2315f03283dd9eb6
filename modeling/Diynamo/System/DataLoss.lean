import Diynamo.System.Transport

/-! # Replicas that lose their data

A node that restarts with `--wipe-data` has empty stores, the one for hints too, which lies in the
same directory; `clear_all` empties its local store. `lossStep` adds such losses to a system. They
break the claim of an ack, but only on the nodes that lose data after the put has started: the other
ones that acknowledged it keep it (`Keeping`), and a get that hears from one of them finds it, in
every run of a deployment over keys that a path carries (`quorum_after_loss`). -/

namespace Diynamo.System.DataLoss

open Diynamo.Lib.LastWrite Diynamo.Lib.Run Diynamo.Lib.Utf8 Diynamo.Store.RocksDb
  Diynamo.Store.Hints Diynamo.Server.Router Diynamo.Coordinator.Get Diynamo.Coordinator.Put
  Diynamo.System.Step Diynamo.System.Rules Diynamo.System.WellFormed Diynamo.System.Quorum
  Diynamo.System.Transport

/-- An action of the system, or a loss of data. -/
inductive LossAct where
  | act (a : Act)
  /-- the node restarts with `--wipe-data` -/
  | restartWiped (x : NodeId)
  | clearAll (x : NodeId)

/-- **One step of a system with losses.** What is on the way to the node may still arrive, and its
processes may still go on: they need not, as in every run. -/
def lossStep (step : World → Act → Option World) (w : World) : LossAct → Option World
  | .act a => step w a
  | .restartWiped x => some (w.setNode x Node.empty)
  | .clearAll x =>
    some (w.setNode x { w.node x with localStore := (w.node x).localStore.clearAll })

/-- The node that loses data. -/
def LossAct.loses : LossAct → Option NodeId
  | .act _ => none
  | .restartWiped x | .clearAll x => some x

/-- The conditional writes are atomic. -/
def LossAct.IsAtomic : LossAct → Prop
  | .act a => Atomic a
  | _ => True

instance : ∀ b, Decidable (LossAct.IsAtomic b)
  | .act a => inferInstanceAs (Decidable (Atomic a))
  | .restartWiped _ | .clearAll _ => isTrue trivial

variable {cfg : Cluster} {w w' : World} {b : LossAct}

/-- **What a step does**: a step of the system, or a change of one node. -/
theorem lossStep_cases (h : lossStep (step cfg) w b = some w') :
    (∃ a, b = .act a ∧ Effect cfg w a w') ∨
      ∃ x s, b.loses = some x ∧ w' = w.setNode x s := by
  cases b with
  | act a => exact Or.inl ⟨a, rfl, effect_of_step h⟩
  | restartWiped x => exact Or.inr ⟨x, _, rfl, (Option.some.inj h).symm⟩
  | clearAll x => exact Or.inr ⟨x, _, rfl, (Option.some.inj h).symm⟩

/-- **A node that loses nothing** lowers no timestamp. -/
theorem stored_le_lossStep (h : lossStep (step cfg) w b = some w') (hb : b.IsAtomic) {x : NodeId}
    (hx : b.loses ≠ some x) (key : Bytes) :
    (w.node x).localStore.stored key ≤ (w'.node x).localStore.stored key := by
  rcases lossStep_cases h with ⟨a, rfl, he⟩ | ⟨y, s, hy, rfl⟩
  · exact stored_le_step he hb x key
  · have hne : x ≠ y := fun he => hx (he ▸ hy)
    rw [node_setNode, if_neg hne]

theorem allWF_lossStep (hw : AllWF cfg w) (h : lossStep (step cfg) w b = some w') :
    AllWF cfg w' := by
  rcases lossStep_cases h with ⟨a, -, he⟩ | ⟨y, s, -, rfl⟩
  · exact allWF_step hw he
  · exact hw

theorem tagsBelow_lossStep (hw : TagsBelow w) (h : lossStep (step cfg) w b = some w') :
    TagsBelow w' := by
  rcases lossStep_cases h with ⟨a, -, he⟩ | ⟨y, s, -, rfl⟩
  · exact tagsBelow_step hw he
  · exact ⟨hw.net, hw.checked, hw.replies⟩

/-! ### Acks -/

/-- **What the nodes outside `L` keep** of the puts from tag `i0` on: a write that was answered `Ok`
is in the store, or something newer is. -/
structure Keeping (cfg : Cluster) (i0 : ℕ) (L : Finset NodeId) (w : World) : Prop where
  wf : AllWF cfg w
  tags : TagsBelow w
  answers : ∀ req, (req, Answer.done) ∈ w.replies → req.dst ∉ L → ∀ i, req.tag = some i → i0 ≤ i →
    ∀ key v, Job.writes req.job = some (key, v) →
      WithBot.some v.timestamp ≤ (w.node req.dst).localStore.stored key
  acked : ∀ (i : ℕ) (p : PutProc), i0 ≤ i → w.procs[i]? = some (.put p) → ∀ x, x ∉ L →
    (x, .ok) ∈ p.joined → WithBot.some p.timestamp ≤ (w.node x).localStore.stored p.key

section Step

variable {i0 : ℕ} {L : Finset NodeId} (hw : Keeping cfg i0 L w)

include hw

theorem Keeping.answers_step {a : Act} (h : Effect cfg w a w') (ha : Atomic a) (req : Request)
    (hr : (req, Answer.done) ∈ w'.replies) (hd : req.dst ∉ L) (i : ℕ) (ht : req.tag = some i)
    (hi : i0 ≤ i) (key : Bytes) (v : VersionedValue) (hj : Job.writes req.job = some (key, v)) :
    WithBot.some v.timestamp ≤ (w'.node req.dst).localStore.stored key := by
  rcases replies_step h hr with hr | ⟨k, -, -, hans, hnode⟩ |
    ⟨k, rfl, -⟩ | ⟨-, -, -, hans⟩
  · exact (hw.answers req hr hd i ht hi key v hj).trans (stored_le_step h ha _ _)
  · rcases perform_writes (w.node req.dst) hj with hp | ⟨-, hp⟩
    · rw [hnode, hp]
      exact RocksDbStore.le_stored_putIfNewer _ _ _ _
    · simp [hp] at hans
  · exact absurd ha id
  · cases hans

theorem Keeping.acked_step {a : Act} (h : Effect cfg w a w') (ha : Atomic a) {i : ℕ}
    {p' : PutProc} (hi : i0 ≤ i) (hp : w'.procs[i]? = some (.put p')) {x : NodeId} (hx : x ∉ L)
    (hack : (x, .ok) ∈ p'.joined) :
    WithBot.some p'.timestamp ≤ (w'.node x).localStore.stored p'.key := by
  obtain ⟨p, hq, hk, hts, hack⟩ := put_ack_step h hp hack
  rw [← hk, ← hts]
  refine le_trans ?_ (stored_le_step h ha x p.key)
  rcases hack with hack | ⟨req, hr, rfl, hwait, he⟩
  · exact hw.acked i p hi hq x hx hack
  · obtain ⟨htag, hj⟩ := expects_put he
    rcases hj with ⟨-, hj⟩ | ⟨hasked, -⟩
    · exact hw.answers req hr hx i htag hi _ _ hj
    · -- a candidate is asked only when no preferred write is running
      have hwf : PutWF cfg p := hw.wf i _ hq
      rw [(hwf.asked _ hasked).1] at hwait
      cases hwait

/-- **One step**, in which only nodes of `L` lose data. -/
theorem keeping_step (h : lossStep (step cfg) w b = some w') (hb : b.IsAtomic)
    (hL : ∀ x, b.loses = some x → x ∈ L) : Keeping cfg i0 L w' := by
  refine ⟨allWF_lossStep hw.wf h, tagsBelow_lossStep hw.tags h, ?_, ?_⟩
  · rcases lossStep_cases h with ⟨a, rfl, he⟩ | ⟨y, s, hy, rfl⟩
    · exact hw.answers_step he hb
    · intro req hr hd i ht hi key v hj
      have hne : req.dst ≠ y := fun he => hd (he ▸ hL y hy)
      rw [node_setNode, if_neg hne]
      exact hw.answers req hr hd i ht hi key v hj
  · rcases lossStep_cases h with ⟨a, rfl, he⟩ | ⟨y, s, hy, rfl⟩
    · exact fun i p hi hp x hx hack => hw.acked_step he hb hi hp hx hack
    · intro i p hi hp x hx hack
      have hne : x ≠ y := fun he => hx (he ▸ hL y hy)
      rw [node_setNode, if_neg hne]
      exact hw.acked i p hi hp x hx hack

end Step

/-- A put that has not started has no acks. -/
theorem keeping_start {L : Finset NodeId} (hwf : AllWF cfg w) (ht : TagsBelow w) :
    Keeping cfg w.procs.length L w := by
  refine ⟨hwf, ht, fun req hr _ i hti hi => ?_, fun i p hi hp => ?_⟩
  · exact absurd (ht.replies _ hr i hti) (not_lt.mpr hi)
  · exact absurd (List.getElem?_eq_some_iff.mp hp).1 (not_lt.mpr hi)

/-! ### Runs -/

/-- The steps are atomic, and only nodes of `L` lose data. -/
def Losing (L : Finset NodeId) (b : LossAct) : Prop :=
  b.IsAtomic ∧ ∀ x, b.loses = some x → x ∈ L

instance (L : Finset NodeId) (b : LossAct) : Decidable (Losing L b) :=
  inferInstanceAs (Decidable (b.IsAtomic ∧ ∀ x ∈ b.loses, x ∈ L))

theorem keeping_run {i0 : ℕ} {L : Finset NodeId} {acts : List LossAct} (ha : ∀ b ∈ acts, Losing L b)
    (h : run (lossStep (step cfg)) acts w = some w') (hw : Keeping cfg i0 L w) :
    Keeping cfg i0 L w' :=
  run_invariant_mem (fun _ _ _ hw hb hs => keeping_step hw hs hb.1 hb.2) ha h hw

theorem stored_le_lossRun {L : Finset NodeId} {acts : List LossAct} (ha : ∀ b ∈ acts, Losing L b)
    (h : run (lossStep (step cfg)) acts w = some w') {x : NodeId} (hx : x ∉ L) (key : Bytes) :
    (w.node x).localStore.stored key ≤ (w'.node x).localStore.stored key :=
  run_invariant_mem
    (I := fun w' => (w.node x).localStore.stored key ≤ (w'.node x).localStore.stored key)
    (fun _ _ _ hle hb hs =>
      hle.trans (stored_le_lossStep hs hb.1 (fun he => hx (hb.2 x he)) key)) ha h le_rfl

/-- The gets that start later hear from the nodes outside `L` what these store, or something newer.
-/
theorem heard_lossRun {L : Finset NodeId} {acts : List LossAct} {key : Bytes} (ht : TagsBelow w)
    (ha : ∀ b ∈ acts, Losing L b) (h : run (lossStep (step cfg)) acts w = some w') :
    Heard w.procs.length key (fun x o => x ∉ L →
      (w.node x).localStore.stored key ≤ rank VersionedValue.timestamp o) w' := by
  refine run_invariant_mem (C := Losing L) (fun w1 b w2 hw hb hs => ?_) ha h
    (heard_start ht fun x _ => le_rfl)
  have hstores : ∀ x, x ∉ L → (w.node x).localStore.stored key ≤
      rank VersionedValue.timestamp ((w2.node x).localStore.get key) := fun x hx =>
    (hw.stores x hx).trans (stored_le_lossStep hs hb.1 (fun he => hx (hb.2 x he)) key)
  rcases lossStep_cases hs with ⟨a, -, he⟩ | ⟨y, s, -, rfl⟩
  · exact heard_step hw he hstores
  · exact ⟨hstores, hw.replies, hw.responses⟩

/-- The nodes outside `L` keep what they have acknowledged, and a get that shares one of them with
the put finds it. -/
theorem found_of_acked {w0 w1 w2 : World} {before acts acts' : List LossAct}
    (h0 : run (lossStep (step cfg)) before World.empty = some w0) {L : Finset NodeId}
    (ha : ∀ b ∈ acts ++ acts', Losing L b) (h1 : run (lossStep (step cfg)) acts w0 = some w1)
    (h2 : run (lossStep (step cfg)) acts' w1 = some w2) {i : ℕ} {p : PutProc}
    (hi : w0.procs.length ≤ i) (hp : w1.procs[i]? = some (.put p)) {A : Finset NodeId}
    (hA : ∀ x ∈ A, (x, .ok) ∈ p.joined) :
    (∀ x ∈ A \ L, WithBot.some p.timestamp ≤ (w2.node x).localStore.stored p.key) ∧
    ∀ (j : ℕ) (g : GetProc), w1.procs.length ≤ j → w2.procs[j]? = some (.get g) → g.key = p.key →
      cfg.r ≤ g.responses.length → cfg.n < (A \ L).card + g.responses.length →
      ∃ v, readResult cfg g.responses = .ok (some v) ∧ p.timestamp ≤ v.timestamp ∧
        ∀ res, g.result = some res → res = .ok (some v) := by
  have ha1 : ∀ b ∈ acts, Losing L b := fun b hb => ha b (List.mem_append_left _ hb)
  have ha2 : ∀ b ∈ acts', Losing L b := fun b hb => ha b (List.mem_append_right _ hb)
  obtain ⟨hwf0, htags0⟩ : AllWF cfg w0 ∧ TagsBelow w0 :=
    run_invariant (I := fun w => AllWF cfg w ∧ TagsBelow w)
      (fun _ _ _ hw hs => ⟨allWF_lossStep hw.1 hs, tagsBelow_lossStep hw.2 hs⟩) h0
      ⟨nofun, nofun, nofun, nofun⟩
  have hw1 := keeping_run ha1 h1 (keeping_start (L := L) hwf0 htags0)
  have hw2 := keeping_run ha2 h2 hw1
  have hacked : ∀ x ∈ A \ L, WithBot.some p.timestamp ≤ (w1.node x).localStore.stored p.key :=
    fun x hx => hw1.acked i p hi hp x (Finset.mem_sdiff.mp hx).2 (hA x (Finset.mem_sdiff.mp hx).1)
  refine ⟨fun x hx => (hacked x hx).trans
    (stored_le_lossRun ha2 h2 (Finset.mem_sdiff.mp hx).2 p.key), ?_⟩
  intro j g hj hg hk hr hcard
  have hwfp : PutWF cfg p := hw1.wf i _ hp
  have hwfg : GetWF cfg g := hw2.wf j _ hg
  have hpref : ∀ x ∈ A \ L, x ∈ cfg.preferred p.key := fun x hx => by
    rw [preferred_of_ringOrder hwfp.ringOrder]
    have hj : x ∈ p.joined.map Prod.fst :=
      List.mem_map_of_mem (hA x (Finset.mem_sdiff.mp hx).1)
    exact hwfp.perm.subset (List.mem_append_left _ hj)
  have hC : ∀ x ∈ heardFrom g, x ∈ cfg.preferred p.key := fun x hx => by
    rw [← hk]
    exact hwfg.preferred (List.mem_append_left _ (List.mem_toFinset.mp hx))
  -- a node that acknowledged the put, has lost nothing and answered the get
  obtain ⟨x, hxA, hxC⟩ := exists_mem_inter hpref hC (by rw [card_heardFrom hwfg]; exact hcard)
  obtain ⟨⟨x', o⟩, hxo, rfl⟩ := List.mem_map.mp (List.mem_toFinset.mp hxC)
  have hle := (hacked _ hxA).trans ((heard_lossRun hw1.tags ha2 h2).responses j g hg hj hk _ o hxo
    (Finset.mem_sdiff.mp hxA).2)
  obtain ⟨v, hv, hts⟩ := readResult_of_response hr hxo hle
  exact ⟨v, hv, hts, fun res hres => (hwfg.result res hres).2.trans hv⟩

/-! ### Deployments -/

/-- The condition on an action of a deployment. -/
def LossAct.IsCarried (cfg : Cluster) : LossAct → Prop
  | .act a => CarriedAct cfg a
  | _ => True

instance : ∀ b, Decidable (LossAct.IsCarried cfg b)
  | .act a => inferInstanceAs (Decidable (CarriedAct cfg a))
  | .restartWiped _ | .clearAll _ => isTrue trivial

/-- A loss leaves no other keys. -/
theorem allCarried_loss (hw : AllCarried cfg w) (x : NodeId) {s : Node}
    (hstore : ∀ key, s.localStore.get key = none)
    (hhints : s.hints = HintStore.empty ∨ s.hints = (w.node x).hints) :
    AllCarried cfg (w.setNode x s) := by
  refine ⟨⟨fun y key v hv => ?_, fun y t ht key e he => ?_⟩, hw.wf, hw.procs, hw.net, hw.checked⟩
  · rw [node_setNode] at hv
    split_ifs at hv
    · rw [hstore] at hv
      cases hv
    · exact hw.stores y key v hv
  · rw [node_setNode] at he
    split_ifs at he with hy
    · rcases hhints with hh | hh <;> rw [hh] at he
      · cases he
      · exact hw.hints x t ht key e he
    · exact hw.hints y t ht key e he

/-- A step of a deployment with losses is one of the system. -/
theorem refines_loss (d : Deployment cfg) (w : World) (b : LossAct) (w' : World)
    (hw : AllCarried cfg w) (hb : b.IsCarried cfg) (h : lossStep d.step w b = some w') :
    lossStep (step cfg) w b = some w' ∧ AllCarried cfg w' := by
  cases b with
  | act a => exact d.refines w a w' hw hb h
  | restartWiped x =>
    obtain rfl := Option.some.inj h
    exact ⟨rfl, allCarried_loss hw x (fun _ => rfl) (Or.inl rfl)⟩
  | clearAll x =>
    obtain rfl := Option.some.inj h
    exact ⟨rfl, allCarried_loss hw x (RocksDbStore.get_clearAll _) (Or.inr rfl)⟩

/-- **Quorum intersection with data loss**, for atomic conditional writes, in every run of a
deployment over keys that a path carries. Let a put have received `Ok` from the preferred nodes `A`,
and let only nodes of `L` lose data after it has started. Then the other nodes of `A` store its
timestamp or a larger one in every later state. And a get of the key that starts later and hears
from `c` preferred nodes, with `r ≤ c` and `n < |A \ L| + c`, returns a version that is at least as
new as the put. -/
theorem quorum_after_loss (d : Deployment cfg) {w0 w1 w2 : World}
    {before acts acts' : List LossAct}
    (hc : ∀ b ∈ before ++ (acts ++ acts'), b.IsCarried cfg)
    (h0 : run (lossStep d.step) before World.empty = some w0) {L : Finset NodeId}
    (ha : ∀ b ∈ acts ++ acts', Losing L b) (h1 : run (lossStep d.step) acts w0 = some w1)
    (h2 : run (lossStep d.step) acts' w1 = some w2) {i : ℕ} {p : PutProc}
    (hi : w0.procs.length ≤ i) (hp : w1.procs[i]? = some (.put p)) {A : Finset NodeId}
    (hA : ∀ x ∈ A, (x, .ok) ∈ p.joined) :
    (∀ x ∈ A \ L, WithBot.some p.timestamp ≤ (w2.node x).localStore.stored p.key) ∧
    ∀ (j : ℕ) (g : GetProc), w1.procs.length ≤ j → w2.procs[j]? = some (.get g) → g.key = p.key →
      cfg.r ≤ g.responses.length → cfg.n < (A \ L).card + g.responses.length →
      ∃ v, readResult cfg g.responses = .ok (some v) ∧ p.timestamp ≤ v.timestamp ∧
        ∀ res, g.result = some res → res = .ok (some v) := by
  simp only [List.forall_mem_append] at hc
  obtain ⟨hc0, hc1, hc2⟩ := hc
  obtain ⟨h0, hw0⟩ := run_refines (refines_loss d) hc0 allCarried_empty h0
  obtain ⟨h1, hw1⟩ := run_refines (refines_loss d) hc1 hw0 h1
  obtain ⟨h2, -⟩ := run_refines (refines_loss d) hc2 hw1 h2
  exact found_of_acked h0 ha h1 h2 hi hp hA

/-- All three nodes acknowledge the put, and then `c` restarts without data. -/
def putThenLoss : List LossAct :=
  [.act (.put "b" [107] [1] 100), .act (.serve 0), .act (.serve 0), .act (.serve 0),
    .act (.answer 0), .act (.answer 0), .act (.answer 0), .restartWiped "c"]

/-- A get that hears from `c` and `a`. -/
def getAfterLoss : List LossAct :=
  [.act (.get "c" [107]), .act (.serve 1), .act (.serve 1), .act (.answer 0), .act (.answer 0)]

/-- The get finds the write at `a`. -/
theorem quorum_after_loss_wiped : ∃ w1 w2 v,
    run (lossStep threeOnLoopback.step) putThenLoss World.empty = some w1 ∧
      run (lossStep threeOnLoopback.step) getAfterLoss w1 = some w2 ∧
      (w2.node "c").localStore.get [107] = none ∧
      readResult threeNodes [("c", none), ("a", some ⟨100, [1]⟩)] = .ok (some v) ∧
      100 ≤ v.timestamp := by
  have hc : ((run (lossStep threeOnLoopback.step) putThenLoss World.empty).any fun w1 =>
      decide (w1.procs = [.put ⟨"b", [107], [1], 100, ["b", "c", "a"], [],
        [("b", .ok), ("c", .ok), ("a", .ok)], [], [], 0, none, none⟩]) &&
      (run (lossStep threeOnLoopback.step) getAfterLoss w1).any fun w2 =>
        decide ((w2.node "c").localStore.get [107] = none ∧ w2.procs[1]? = some (.get
          ⟨"c", [107], ["b"], [("c", none), ("a", some ⟨100, [1]⟩)], none⟩))) = true := by
    decide +kernel
  obtain ⟨w1, h1, hc⟩ := (Option.any_eq_true _ _).mp hc
  obtain ⟨hprocs, hc⟩ := Bool.and_eq_true_iff.mp hc
  obtain ⟨w2, h2, hget⟩ := (Option.any_eq_true _ _).mp hc
  obtain ⟨hlost, hg⟩ := of_decide_eq_true hget
  have hprocs := of_decide_eq_true hprocs
  have h0 : run (lossStep threeOnLoopback.step) [] World.empty = some World.empty := rfl
  have hcar : ∀ b ∈ [] ++ (putThenLoss ++ getAfterLoss), b.IsCarried threeNodes := by
    decide +kernel
  obtain ⟨-, hq⟩ := quorum_after_loss threeOnLoopback hcar h0 (L := {"c"}) (by decide) h1 h2
    (i := 0) (Nat.zero_le _) (by rw [hprocs]; rfl) (A := {"b", "c", "a"}) (by decide)
  obtain ⟨v, hv, hts, -⟩ := hq 1 _ (by rw [hprocs]; decide) hg rfl (by decide) (by decide)
  exact ⟨w1, w2, v, h1, h2, hlost, hv, hts⟩

end Diynamo.System.DataLoss
