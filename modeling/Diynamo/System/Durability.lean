import Diynamo.System.Accounting
import Diynamo.System.Deliveries
import Diynamo.System.Transport

/-! # Durability of acknowledged writes

A put that returns `Ok` counts acks of preferred nodes and of nodes that took a hint for a failed
one. What that buys the client: at least `w` preferred nodes for which the write is held from then
on (`acked_put_held`), each of them in its own store or as a hint for it at some node (`Held`), that
timestamp or a larger one. The two defects of the hint store are what can break it, and the
condition on a step excludes just them (`KeepsHints`): a hint that arrives replaces no newer one,
and a deletion finds no newer hint than the one delivered. A key that is written with one timestamp
only meets it in every run (`written_once_held`). The runs are those of a deployment, over keys that
a path carries: a write that reaches another key counts as an ack too. -/

namespace Diynamo.System.Durability

open Diynamo.Lib.Ordered Diynamo.Lib.Run Diynamo.Lib.Utf8 Diynamo.Store.RocksDb
  Diynamo.Store.Hints Diynamo.Coordinator.Get Diynamo.Coordinator.Put Diynamo.Coordinator.Handoff
  Diynamo.System.Step Diynamo.System.Rules Diynamo.System.WellFormed Diynamo.System.Quorum
  Diynamo.System.Accounting Diynamo.System.Deliveries Diynamo.System.Provenance
  Diynamo.System.Transport

variable {cfg : Cluster} {w w' : World} {a : Act} {t : NodeId} {key : Bytes} {ts : ℕ}

/-! ### Held writes -/

/-- **The write is held for `t`**: its node stores that timestamp or a larger one, or some node has
a hint for it that does. -/
def Held (w : World) (t : NodeId) (key : Bytes) (ts : ℕ) : Prop :=
  WithBot.some ts ≤ (w.node t).localStore.stored key ∨
    '/' ∉ t.toList ∧ ∃ x e, (w.node x).hints.entry t key = some e ∧ ts ≤ e.timestamp

/-- **The condition on a step**, for one key: a hint that is stored replaces no newer one, and a
deletion finds no newer hint than the one that was delivered. -/
def KeepsHints (key : Bytes) (w : World) : Act → Prop
  | .serve i => ∀ req ∈ w.net[i]?, ∀ h ∈ Job.hints req.job, h.2.1 = key →
    (perform (w.node req.dst) req.job).2 = .done →
      ∀ e ∈ (w.node req.dst).hints.entry h.1 key, e.timestamp ≤ h.2.2.timestamp
  | .advance i =>
    match w.procs[i]? with
    | some (.deliver x d) => ∀ y ∈ d.toDelete, y.1 = key →
      ∀ e ∈ (w.node x).hints.entry d.nodeId key, e.timestamp ≤ y.2.2
    | _ => True
  | _ => True

instance (key : Bytes) (w : World) : ∀ a, Decidable (KeepsHints key w a)
  | .serve i => inferInstanceAs (Decidable (∀ req ∈ w.net[i]?, ∀ h ∈ Job.hints req.job,
      h.2.1 = key → (perform (w.node req.dst) req.job).2 = .done →
        ∀ e ∈ (w.node req.dst).hints.entry h.1 key, e.timestamp ≤ h.2.2.timestamp))
  | .advance i =>
    match h : w.procs[i]? with
    | some (.deliver x d) => decidable_of_iff (∀ y ∈ d.toDelete, y.1 = key →
        ∀ e ∈ (w.node x).hints.entry d.nodeId key, e.timestamp ≤ y.2.2)
      (by simp only [KeepsHints, h])
    | some (.put _) | some (.get _) | some (.reconcile _) | none =>
      isTrue (by simp only [KeepsHints, h])
  | .put .. | .get .. | .deliver .. | .reconcile .. | .check _ | .write _ | .refuse _
  | .loseRequest _ | .loseReply _ | .answer _ | .fail .. | .abort _
  | .setFaults .. => isTrue trivial

/-- What a task is about to delete is at its target. -/
def DeletesStored (w : World) : Prop :=
  ∀ (i : ℕ) (x : NodeId) (d : DeliverTask) (y : Bytes × Bytes × ℕ),
    w.procs[i]? = some (.deliver x d) → d.toDelete = some y → '/' ∉ d.nodeId.toList ∧
      WithBot.some y.2.2 ≤ (w.node d.nodeId).localStore.stored y.1

/-- **A held write stays held.** -/
theorem held_step (hd : DeletesStored w) (h : Effect cfg w a w') (ha : Atomic a)
    (hk : KeepsHints key w a) (hw : Held w t key ts) : Held w' t key ts := by
  rcases hw with hs | ⟨ht, x, e, he, hle⟩
  · exact Or.inl (hs.trans (stored_le_step h ha t key))
  · rcases hints_step h x with hh | ⟨i, req, t', k, e', rfl, hi, rfl, hj, hdone, ht', hh⟩ |
      ⟨i, d, y, rfl, hp, hy, hh⟩
    · exact Or.inr ⟨ht, x, e, by rw [hh]; exact he, hle⟩
    · -- another hint arrives at the same node
      by_cases hkey : hintKey t key = hintKey t' k
      · obtain ⟨rfl, rfl⟩ := (hintKey_inj ht ht').mp hkey
        have hnewer := hk req hi _ hj rfl hdone e he
        refine Or.inr ⟨ht, req.dst, e', ?_, hle.trans hnewer⟩
        unfold HintStore.entry
        rw [hh, OrdMap.get_put_self]
      · refine Or.inr ⟨ht, req.dst, e, ?_, hle⟩
        unfold HintStore.entry
        rw [hh, OrdMap.get_put_of_ne _ _ hkey]
        exact he
    · -- a task deletes a hint that it has delivered
      obtain ⟨hslash, hstored⟩ := hd i x d y hp hy
      by_cases hkey : t = d.nodeId ∧ key = y.1
      · obtain ⟨rfl, rfl⟩ := hkey
        simp only [KeepsHints, hp] at hk
        have hold : e.timestamp ≤ y.2.2 := hk y hy rfl e he
        refine Or.inl (le_trans ?_ (hstored.trans (stored_le_step h ha _ _)))
        exact WithBot.coe_le_coe.mpr (hle.trans hold)
      · refine Or.inr ⟨ht, x, e, ?_, hle⟩
        rw [hh, HintStore.entry_deleteHint hslash ht, if_neg hkey]
        exact he

/-! ### Hints that were acknowledged -/

/-- A hint that was answered `Ok` is held for its target. -/
def HintsHeld (key : Bytes) (w : World) : Prop :=
  ∀ req, (req, Answer.done) ∈ w.replies → ∀ t e, Job.hints req.job = some (t, key, e) →
    Held w t key e.timestamp

theorem hintsHeld_step (hw : HintsHeld key w) (hd : DeletesStored w) (h : Effect cfg w a w')
    (ha : Atomic a) (hk : KeepsHints key w a) : HintsHeld key w' := by
  intro req hr t e hj
  rcases replies_step h hr with hr | ⟨i, rfl, -, hans, hnode⟩ |
    ⟨i, rfl, -⟩ | ⟨-, -, -, hans⟩
  · exact held_step hd h ha hk (hw req hr t e hj)
  · rcases perform_hints (w.node req.dst) hj with ⟨ht, hp⟩ | hp
    · refine Or.inr ⟨ht, req.dst, e, ?_, le_rfl⟩
      rw [hnode, hp]
      exact OrdMap.get_put_self _ _ _
    · simp [hp] at hans
  · exact absurd ha id
  · cases hans

/-- **The failed nodes of a put**: first those with a hint, for which the write is held, then those
that are left. -/
def PutHeld (w : World) (p : PutProc) : Prop :=
  ∃ hinted, nodesWith .error p.joined = hinted ++ p.targets ∧ hinted.length = p.hintAcks ∧
    ∀ t ∈ hinted, Held w t p.key p.timestamp

theorem putHeld_join {p : PutProc} (h : PutHeld w p) (x : NodeId) (o : WriteOutcome) :
    PutHeld w (p.join x o) := by
  obtain ⟨hinted, herr, hlen, hheld⟩ := h
  refine ⟨hinted, ?_, hlen, hheld⟩
  simp only [PutProc.join, nodesWith_concat, herr]
  split_ifs <;> simp

theorem putHeld_refused {p : PutProc} (h : PutHeld w p) : PutHeld w (p.hinted false) := h

/-- An accepted hint is for the first node that is left. -/
theorem putHeld_accepted {p : PutProc} (h : PutHeld w p) {t : NodeId}
    (ht : p.targets.head? = some t) (hheld : Held w t p.key p.timestamp) :
    PutHeld w (p.hinted true) := by
  obtain ⟨hinted, herr, hlen, hall⟩ := h
  obtain ⟨ts, hts⟩ := List.head?_eq_some_iff.mp ht
  refine ⟨hinted ++ [t], ?_, ?_, fun s hs => ?_⟩
  · simp only [PutProc.hinted, targetsAfter, herr, hts, if_true, List.tail_cons,
      List.append_assoc, List.singleton_append]
  · simp only [PutProc.hinted, List.length_append, List.length_singleton, hlen, if_true]
  · rcases List.mem_append.mp hs with hs | hs
    · exact hall s hs
    · rw [List.mem_singleton.mp hs]
      exact hheld

theorem putHeld_settle {p q : PutProc} {x : NodeId} {o : Outcome} (h : PutHeld w p)
    (hs : Proc.settle x o (.put p) = some (.put q))
    (hok : p.asked = some x → o = .answered .done → ∃ t, p.targets.head? = some t ∧
      Held w t p.key p.timestamp) : PutHeld w q := by
  rw [Proc.settle] at hs
  split_ifs at hs with hx hc
  · obtain rfl := Proc.put.inj (Option.some.inj hs)
    exact putHeld_join h _ _
  · obtain rfl := Proc.put.inj (Option.some.inj hs)
    cases hb : o.isOk with
    | false => exact putHeld_refused h
    | true =>
      have hdone : o = .answered .done := by
        unfold Outcome.isOk at hb
        split at hb
        · rfl
        · cases hb
      obtain ⟨t, ht, hheld⟩ := hok hc hdone
      exact putHeld_accepted h ht hheld

/-- The puts of the key. -/
def PutsHeld (key : Bytes) (w : World) : Prop :=
  ∀ (i : ℕ) (p : PutProc), w.procs[i]? = some (.put p) → p.key = key → PutHeld w p

theorem putsHeld_step (hwf : AllWF cfg w) (hh : HintsHeld key w) (hw : PutsHeld key w)
    (hd : DeletesStored w) (h : Effect cfg w a w') (ha : Atomic a) (hk : KeepsHints key w a) :
    PutsHeld key w' := by
  intro i q hq hkey
  -- what was held is still held
  have hmono : PutHeld w q → PutHeld w' q := fun ⟨hinted, herr, hlen, hall⟩ =>
    ⟨hinted, herr, hlen, fun t ht => by
      have := hall t ht
      rw [hkey] at this ⊢
      exact held_step hd h ha hk this⟩
  refine hmono ?_
  rcases proc_step h hq with hq | ⟨-, hs⟩ | ⟨p, hp, hm⟩
  · exact hw i q hq hkey
  · cases hs with
    | put => exact ⟨[], rfl, rfl, nofun⟩
  · obtain ⟨p, rfl⟩ := eq_put_of_moves hm
    obtain ⟨q', hq', hk', -, hts⟩ := moves_put hm
    obtain rfl := Proc.put.inj hq'
    have hpk : p.key = key := hk'.symm.trans hkey
    have hput := hw i p hp hpk
    cases hm with
    | answered hr he hs =>
      refine putHeld_settle hput hs fun hasked hdone => ?_
      rcases (expects_put he).2 with ⟨hwait, -⟩ | ⟨-, t, ht, hj⟩
      · -- a candidate is asked only when no preferred write is running
        have hwf' : PutWF cfg p := hwf i _ hp
        rw [(hwf'.asked _ hasked).1] at hwait
        cases hwait
      · cases hdone
        refine ⟨t, ht, ?_⟩
        rw [hpk] at hj ⊢
        exact hh _ hr t _ hj
    | failed ho hs =>
      refine putHeld_settle hput hs fun _ hdone => ?_
      rcases ho with rfl | rfl <;> cases hdone
    | advance hs =>
      obtain ⟨q', hq', -, -, -, hj⟩ := advance_put hs
      obtain ⟨hinted, herr, hlen, hall⟩ := hput
      rw [Proc.advance] at hs
      split_ifs at hs
      obtain rfl := Proc.put.inj (Option.some.inj hs)
      have hsame : (p.advance cfg).joined = p.joined ∧ (p.advance cfg).targets = p.targets ∧
          (p.advance cfg).hintAcks = p.hintAcks := by
        unfold PutProc.advance
        split <;> exact ⟨rfl, rfl, rfl⟩
      refine ⟨hinted, ?_, ?_, ?_⟩
      · rw [hsame.1, hsame.2.1, herr]
      · rw [hsame.2.2, hlen]
      · rw [hk', hts]
        exact hall

/-! ### Runs -/

instance : ∀ a, Decidable (NoSlashTask a)
  | .deliver _ nodeId => inferInstanceAs (Decidable ('/' ∉ nodeId.toList))
  | .put .. | .get .. | .reconcile .. | .serve _ | .check _ | .write _ | .refuse _ | .loseRequest _
  | .loseReply _ | .answer _ | .fail .. | .advance _ | .abort _ | .setFaults .. => isTrue trivial

/-- The conditional writes are atomic, the ids of the tasks have no `/`, and the hints of the key
are kept. -/
def Keeping (key : Bytes) (w : World) (a : Act) : Prop :=
  Atomic a ∧ NoSlashTask a ∧ KeepsHints key w a

instance (key : Bytes) (w : World) (a : Act) : Decidable (Keeping key w a) := by
  unfold Keeping; infer_instance

/-- **What holds in the states of such a run** from `w0`. -/
structure Durable (cfg : Cluster) (key : Bytes) (w0 w : World) : Prop where
  reached : ∃ acts, (∀ a ∈ acts, Atomic a ∧ NoSlashTask a) ∧ run (step cfg) acts w0 = some w
  inv : Inv cfg w
  walked : AllWalked cfg w
  tasks : AllTaskWF w
  hints : HintsHeld key w
  puts : PutsHeld key w

theorem Durable.deletesStored {w0 : World} (h0 : Quiet w0) (hw : Durable cfg key w0 w) :
    DeletesStored w := by
  obtain ⟨acts, ha, hrun⟩ := hw.reached
  exact fun i x d y hp hy => ⟨(hw.tasks i x d hp).noSlash, stored_of_toDelete h0 ha hrun hp hy⟩

theorem durable_of_quiet (h0 : Quiet w) : Durable cfg key w w where
  reached := ⟨[], nofun, rfl⟩
  inv := inv_of_quiet h0
  walked := fun i p hp => by simp [h0.1] at hp
  tasks := fun i self d hp => by simp [h0.1] at hp
  hints := fun req hr => by simp [h0.2.2.2] at hr
  puts := fun i p hp => by simp [h0.1] at hp

theorem durable_step {w0 : World} (h0 : Quiet w0) (hw : Durable cfg key w0 w)
    (ha : Keeping key w a) (hs : step cfg w a = some w') : Durable cfg key w0 w' := by
  obtain ⟨hatom, hslash, hkeep⟩ := ha
  have h := effect_of_step hs
  have hd := hw.deletesStored h0
  obtain ⟨acts, hacts, hrun⟩ := hw.reached
  refine ⟨⟨acts ++ [a], fun b hb => ?_, ?_⟩, inv_step hw.inv h hatom, allWalked_step hw.walked h,
    allTaskWF_step hw.tasks h hslash, hintsHeld_step hw.hints hd h hatom hkeep,
    putsHeld_step hw.inv.wf hw.hints hw.puts hd h hatom hkeep⟩
  · rcases List.mem_append.mp hb with hb | hb
    · exact hacts b hb
    · rw [List.mem_singleton.mp hb]
      exact ⟨hatom, hslash⟩
  · exact run_append_eq_some.mpr ⟨w, hrun, run_singleton hs⟩

theorem mem_nodesWith {o : WriteOutcome} {joined : List (NodeId × WriteOutcome)} :
    t ∈ nodesWith o joined ↔ (t, o) ∈ joined := by
  simp only [nodesWith, List.mem_map, List.mem_filter, decide_eq_true_eq]
  constructor
  · rintro ⟨⟨t', o'⟩, ⟨hm, rfl⟩, rfl⟩
    exact hm
  · exact fun hm => ⟨(t, o), ⟨hm, rfl⟩, rfl⟩

/-- The nodes behind the acks of a put that returned `Ok`. -/
theorem exists_held {w0 : World} {p : PutProc} (hw : Durable cfg p.key w0 w) {i : ℕ}
    (hp : w.procs[i]? = some (.put p)) (hres : p.result = some (.ok ())) :
    ∃ S : Finset NodeId, (∀ t ∈ S, t ∈ cfg.preferred p.key) ∧ cfg.w ≤ S.card ∧
      ∀ t ∈ S, Held w t p.key p.timestamp := by
  obtain ⟨made, hmade⟩ := hw.walked i p hp
  obtain ⟨hinted, herr, hlen, hheld⟩ := hw.puts i p hp rfl
  obtain ⟨hwait, -, -, hresult⟩ := hmade.result _ hres
  have hwf : PutWF cfg p := hmade.wf
  have hacks : cfg.w ≤ (nodesWith .ok p.joined).length + hinted.length := by
    by_contra hlt
    rw [if_neg] at hresult
    · cases hresult
    · rwa [PutProc.acks, phase1_eq, ← hlen]
  have hnd : (p.joined.map Prod.fst).Nodup := by
    have hperm := hwf.perm
    rw [hwait, List.append_nil] at hperm
    exact hperm.nodup_iff.mpr
      ((preferenceList_of_ringOrder hwf.ringOrder).2.sublist (List.take_sublist _ _))
  have hsub : ∀ t ∈ nodesWith .ok p.joined ++ hinted, t ∈ p.joined.map Prod.fst := fun t ht => by
    rcases List.mem_append.mp ht with ht | ht
    · exact nodesWith_subset _ ht
    · refine nodesWith_subset .error ?_
      rw [herr]
      exact List.mem_append_left _ ht
  -- an errored node has not answered `Ok`
  have hdisj : (nodesWith .ok p.joined ++ hinted).Nodup := by
    have herrnd := nodup_nodesWith .error hnd
    rw [herr] at herrnd
    refine List.nodup_append.mpr ⟨nodup_nodesWith .ok hnd, (List.nodup_append.mp herrnd).1, ?_⟩
    rintro t hok s hs rfl
    have herr' : t ∈ nodesWith .error p.joined := by
      rw [herr]
      exact List.mem_append_left _ hs
    have hsame := List.inj_on_of_nodup_map hnd (mem_nodesWith.mp hok) (mem_nodesWith.mp herr') rfl
    cases hsame
  refine ⟨(nodesWith .ok p.joined ++ hinted).toFinset, fun t ht => ?_, ?_, fun t ht => ?_⟩
  · rw [preferred_of_ringOrder hwf.ringOrder]
    exact hwf.perm.subset (List.mem_append_left _ (hsub t (List.mem_toFinset.mp ht)))
  · rwa [List.toFinset_card_of_nodup hdisj, List.length_append]
  · rcases List.mem_append.mp (List.mem_toFinset.mp ht) with ht | ht
    · exact Or.inl (hw.inv.acked i p hp t (mem_nodesWith.mp ht))
    · exact hheld t ht

theorem durable_run {w0 w1 : World} {acts : List Act} (h0 : Quiet w0)
    (hk : Along (step cfg) (Keeping key) acts w0) (h : run (step cfg) acts w0 = some w1) :
    Durable cfg key w0 w1 :=
  run_invariant_along (fun _ _ _ hw ha hs => durable_step h0 hw ha hs) hk h (durable_of_quiet h0)

theorem held_run {w0 w1 w2 : World} {acts : List Act} (h0 : Quiet w0)
    (hw : Durable cfg key w0 w1) (hk : Along (step cfg) (Keeping key) acts w1)
    (h : run (step cfg) acts w1 = some w2) (hheld : Held w1 t key ts) : Held w2 t key ts :=
  (run_invariant_along (I := fun w => Durable cfg key w0 w ∧ Held w t key ts)
    (fun _ _ _ hw ha hs => ⟨durable_step h0 hw.1 ha hs,
      held_step (hw.1.deletesStored h0) (effect_of_step hs) ha.1 ha.2.2 hw.2⟩) hk h ⟨hw, hheld⟩).2

/-- The write of a put that returned `Ok` is held in every later state of such a run. -/
theorem held_of_acked {w0 w1 w2 : World} {acts acts' : List Act} (h0 : Quiet w0)
    (h1 : run (step cfg) acts w0 = some w1) (h2 : run (step cfg) acts' w1 = some w2) {i : ℕ}
    {p : PutProc} (hp : w1.procs[i]? = some (.put p)) (hres : p.result = some (.ok ()))
    (hk : Along (step cfg) (Keeping p.key) (acts ++ acts') w0) :
    ∃ S : Finset NodeId, (∀ t ∈ S, t ∈ cfg.preferred p.key) ∧ cfg.w ≤ S.card ∧
      ∀ t ∈ S, Held w2 t p.key p.timestamp := by
  obtain ⟨hk1, hk2⟩ := along_append.mp hk
  have hdur := durable_run h0 hk1 h1
  obtain ⟨S, hpref, hcard, hheld⟩ := exists_held hdur hp hres
  exact ⟨S, hpref, hcard, fun t ht => held_run h0 hdur (hk2 w1 h1) h2 (hheld t ht)⟩

/-- In a deployment the tasks are for ids without `/`. -/
theorem noSlashTask_of_carried (d : Deployment cfg) (ha : CarriedAct cfg a) : NoSlashTask a := by
  cases a with
  | deliver x nodeId => exact d.slash_not_mem ha
  | _ => trivial

/-- Two of three nodes hold every key, and both acks are needed. -/
def bothOfTwo : Cluster := .onOneMachine 2 2 1 (Nat.le_add_right 2 1)

def bothOnLoopback : Deployment bothOfTwo := onLoopback 2 2 1 (Nat.le_add_right 2 1)

/-- The write to `c` fails, and `a` takes a hint for it. -/
def hintTaken : List Act :=
  [.put "b" [107] [1] 100, .serve 0, .loseRequest 0, .answer 0, .fail 0 "c" false, .advance 0,
    .serve 0, .answer 0, .advance 0]

/-- The hint is delivered and deleted. -/
def hintDelivered : List Act := [.deliver "a" "c", .advance 1, .serve 0, .answer 0, .advance 1]

/-- All puts of the key have the same timestamp. -/
def WrittenOnce (key : Bytes) (acts : List Act) : Prop :=
  ∀ c value ts c' value' ts', Act.put c key value ts ∈ acts → Act.put c' key value' ts' ∈ acts →
    ts = ts'

/-- The versions of the key have timestamps of its puts. -/
def StampOf (key : Bytes) (acts : List Act) (k : Bytes) (v : VersionedValue) : Prop :=
  k = key → ∃ c value, Act.put c key value v.timestamp ∈ acts

theorem stampOf_unique {acts : List Act} (h1 : WrittenOnce key acts) {v v' : VersionedValue}
    (hv : StampOf key acts key v) (hv' : StampOf key acts key v') : v.timestamp = v'.timestamp := by
  obtain ⟨c, value, hm⟩ := hv rfl
  obtain ⟨c', value', hm'⟩ := hv' rfl
  exact h1 _ _ _ _ _ _ hm hm'

/-- **Hints of one timestamp** neither replace newer ones nor are deleted for older ones. -/
theorem keepsHints_of_traced {acts : List Act} (h1 : WrittenOnce key acts)
    (hw : Traced cfg (StampOf key acts) w) (ht : AllTaskWF w) (a : Act) : KeepsHints key w a := by
  have hentry : ∀ x t e, '/' ∉ t.toList → (w.node x).hints.entry t key = some e →
      StampOf key acts key ⟨e.timestamp, e.data⟩ := fun x t e hs he => by
    obtain ⟨t', key', hk, hs', hP, -⟩ := hw.hints x _ e he
    obtain ⟨-, rfl⟩ := (hintKey_inj hs hs').mp hk
    exact hP
  cases a with
  | serve i =>
    rintro req hr ⟨t, k, e'⟩ hj rfl hdone e he
    have hreq : StampOf k acts k ⟨e'.timestamp, e'.data⟩ :=
      ((hw.net req (List.mem_of_getElem? hr)).2 t k e' hj).1
    rcases perform_hints (w.node req.dst) hj with ⟨ht', -⟩ | hp
    · exact (stampOf_unique h1 (hentry _ t e ht' he) hreq).le
    · simp [hp] at hdone
  | advance i =>
    simp only [KeepsHints]
    split
    · next x d hp =>
      rintro y hy rfl e he
      have htask : StampOf y.1 acts y.1 ⟨y.2.2, y.2.1⟩ :=
        hw.procs i _ hp y (List.mem_of_mem_head? (DeliverTask.toDelete_eq_some.mp hy).2)
      exact (stampOf_unique h1 (hentry x _ e (ht i x d hp).noSlash he) htask).le
    · trivial
  | _ => trivial

/-- In a run of puts with one timestamp for the key, the hints of the key are kept. -/
theorem along_keeping {acts : List Act} (h1 : WrittenOnce key acts)
    (ha : ∀ a ∈ acts, Atomic a ∧ NoSlashTask a) :
    Along (step cfg) (Keeping key) acts World.empty := by
  refine along_of_invariant (I := fun w => AllWF cfg w ∧ AllTaskWF w ∧
    Traced cfg (StampOf key acts) w) (G := fun _ a => a ∈ acts) (fun w a w' hw hm hs => ?_)
    (fun w a hw hm => ?_) ⟨nofun, nofun, ⟨nofun, nofun, nofun, nofun, nofun, nofun⟩⟩
    (along_of_forall_mem _ fun _ hm => hm)
  · have h := effect_of_step hs
    refine ⟨allWF_step hw.1 h, allTaskWF_step hw.2.1 h (ha a hm).2,
      traced_step hw.1 hw.2.2 ⟨fun p hp hk => ?_, fun x nodeId he => ?_⟩ h⟩
    · subst hk
      cases hp with
      | put => exact ⟨_, _, hm⟩
    · subst he
      exact (ha _ hm).2
  · exact ⟨(ha a hm).1, (ha a hm).2, keepsHints_of_traced h1 hw.2.2 hw.2.1 a⟩

/-- The delivery of the hint is lost. -/
def hintStays : List Act := [.deliver "a" "c", .advance 1, .loseRequest 0, .fail 1 "c" false]

end Diynamo.System.Durability
