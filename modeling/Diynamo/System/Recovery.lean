import Diynamo.System.Provenance
import Diynamo.System.Quorum

/-! # Recovery of a returning node

Node `C` comes back, with anything or nothing in its stores, while no client writes and no delivery
for `C` is under way. Once every online node has finished a `deliver_hints` and a `reconcile_keys`
for `C`, with every request to `C` successful, `C` holds for each key a timestamp at least as large
as the designated sender of the key does, and as every hint for `C` on an online node (`recovery`).
The other online replicas send nothing: what only they hold does not reach `C`; a stale write that
has passed its check can undo a fresh one; and a delivery that is under way when `C` comes back can
delete a hint that it has not scanned (`newest_not_sent`).

The invariant `Recovering` follows each task that starts after the return: what it has not yet sent
is still pending, what it has sent is at `C`. -/

namespace Diynamo.System.Recovery

open Diynamo.Lib.LastWrite Diynamo.Lib.Run Diynamo.Lib.Utf8 Diynamo.Store.RocksDb
  Diynamo.Store.Hints Diynamo.Server.Router Diynamo.Coordinator.Handoff Diynamo.System.Step
  Diynamo.System.Rules Diynamo.System.WellFormed Diynamo.System.Quorum Diynamo.System.Provenance

variable {cfg : Cluster} {C : NodeId} {w0 w w' : World} {a : Act}

/-- **While `C` recovers** no client writes, and no request to `C` fails. -/
def Calm (C : NodeId) (w : World) : Act → Prop
  | .put _ _ _ _ => False
  | .fail _ x _ => x ≠ C
  | .refuse i => ∀ req ∈ w.net[i]?, req.dst ≠ C
  | .setFaults x _ => x ≠ C
  | .deliver _ nodeId => '/' ∉ nodeId.toList
  | _ => True

instance (C : NodeId) (w : World) : ∀ a, Decidable (Calm C w a)
  | .put .. => isFalse id
  | .fail _ x _ => inferInstanceAs (Decidable (x ≠ C))
  | .refuse i => inferInstanceAs (Decidable (∀ req ∈ w.net[i]?, req.dst ≠ C))
  | .setFaults x _ => inferInstanceAs (Decidable (x ≠ C))
  | .deliver _ nodeId => inferInstanceAs (Decidable ('/' ∉ nodeId.toList))
  | .get .. | .reconcile .. | .serve _ | .check _ | .write _ | .loseRequest _ | .loseReply _
  | .answer _ | .advance _ | .abort _ => isTrue trivial

/-- The put has returned, and waits for nothing. -/
def Over (p : PutProc) : Prop := p.waiting = [] ∧ p.asked = none ∧ p.result.isSome = true

instance (p : PutProc) : Decidable (Over p) := by unfold Over; infer_instance

/-- The process is no put that is under way. -/
def PutOver : Proc → Prop
  | .put p => Over p
  | _ => True

/-- It is no delivery for `C` that is under way. -/
def DeliveryOver (C : NodeId) : Proc → Prop
  | .deliver _ d => '/' ∉ d.nodeId.toList ∧ (d.nodeId = C → d.pending = [])
  | _ => True

instance : ∀ p, Decidable (PutOver p)
  | .put p => inferInstanceAs (Decidable (Over p))
  | .get _ | .deliver .. | .reconcile _ => isTrue trivial

instance (C : NodeId) : ∀ p, Decidable (DeliveryOver C p)
  | .deliver _ d =>
    inferInstanceAs (Decidable ('/' ∉ d.nodeId.toList ∧ (d.nodeId = C → d.pending = [])))
  | .put _ | .get _ | .reconcile _ => isTrue trivial

/-- **`C` comes back** where no client write and no delivery for `C` is under way. -/
structure Returned (C : NodeId) (w : World) : Prop where
  tags : TagsBelow w
  puts : ∀ p ∈ w.procs, PutOver p
  hints : ∀ req ∈ w.net, Job.hints req.job = none
  deliveries : ∀ p ∈ w.procs, DeliveryOver C p
  unblocked : (w.node C).faults.blockInternal = false

/-- A reconciliation has sent the key, or still has it to send. -/
def Reconciling (cfg : Cluster) (w0 w : World) (q : ReconcileProc) : Prop :=
  ∀ key, designated (cfg.preferred key) q.nodeId q.onlineIds = some q.self →
    (w0.node q.self).localStore.stored key ≤ (w.node q.nodeId).localStore.stored key ∨
      ∃ v, (key, v) ∈ q.pending ∧ (w0.node q.self).localStore.stored key ≤ WithBot.some v.timestamp

/-- A delivery task of node `x` for `d.nodeId`: the stored hints are those it scanned, each one is
at the target or still pending, and the one to be deleted is at the target. -/
structure Delivering (w : World) (x : NodeId) (d : DeliverTask) : Prop where
  scanned : ∀ y ∈ d.pending, ∀ e, (w.node x).hints.entry d.nodeId y.1 = some e →
    e.timestamp = y.2.2
  covered : ∀ key e, (w.node x).hints.entry d.nodeId key = some e →
    WithBot.some e.timestamp ≤ (w.node d.nodeId).localStore.stored key ∨ ∃ y ∈ d.pending, y.1 = key
  acked : ∀ y, d.toDelete = some y →
    WithBot.some y.2.2 ≤ (w.node d.nodeId).localStore.stored y.1

/-- **The invariant of a recovery** from `w0`; the processes of `w0` are those up to
`w0.procs.length`. -/
structure Recovering (cfg : Cluster) (C : NodeId) (w0 w : World) : Prop where
  tags : TagsBelow w
  length : w0.procs.length ≤ w.procs.length
  mono : ∀ x key, (w0.node x).localStore.stored key ≤ (w.node x).localStore.stored key
  unblocked : (w.node C).faults.blockInternal = false
  done : ∀ req a, (req, a) ∈ w.replies → req.dst = C →
    ∀ i, req.tag = some i → w0.procs.length ≤ i → ∀ key v, Job.writes req.job = some (key, v) →
    a = .done ∧ WithBot.some v.timestamp ≤ (w.node C).localStore.stored key
  putsOver : ∀ (i : ℕ) (p : PutProc), w.procs[i]? = some (.put p) → Over p
  noHint : ∀ req ∈ w.net, Job.hints req.job = none
  reconciling : ∀ (i : ℕ) (q : ReconcileProc), w.procs[i]? = some (.reconcile q) →
    w0.procs.length ≤ i → q.nodeId = C → q.aborted = false → Reconciling cfg w0 w q
  before : ∀ (i : ℕ) (x : NodeId) (d : DeliverTask), w.procs[i]? = some (.deliver x d) →
    '/' ∉ d.nodeId.toList ∧ (i < w0.procs.length → d.nodeId = C → d.pending = [])
  delivering : ∀ (i : ℕ) (x : NodeId) (d : DeliverTask), w.procs[i]? = some (.deliver x d) →
    w0.procs.length ≤ i → d.nodeId = C → Delivering w x d
  kept : ∀ x key e, (w0.node x).hints.entry C key = some e →
    (w.node x).hints.entry C key = some e ∨
      WithBot.some e.timestamp ≤ (w.node C).localStore.stored key

/-! ### Without puts no hint arrives -/

/-- A put that is over stays as it is. -/
theorem not_moves_over {i : ℕ} {p : PutProc} {q : Proc} (ho : Over p) :
    ¬ Moves cfg w a i (.put p) q := by
  obtain ⟨hwait, hasked, hres⟩ := ho
  intro hm
  have hsettle : ∀ x o, Proc.settle x o (.put p) = none := by
    intro x o
    simp [Proc.settle, hwait, hasked]
  cases hm with
  | answered _ _ hs => rw [hsettle] at hs; cases hs
  | failed _ hs => rw [hsettle] at hs; cases hs
  | advance hs =>
    rw [Proc.advance] at hs
    split_ifs at hs with hc
    rw [Option.isNone_iff_eq_none.mp hc.2.2] at hres
    cases hres

theorem over_step (hw : Recovering cfg C w0 w) (ha : Calm C w a) (h : Effect cfg w a w') {i : ℕ}
    {p : PutProc} (hp : w'.procs[i]? = some (.put p)) : Over p := by
  rcases proc_step h hp with hp | ⟨-, hs⟩ | ⟨q, hq, hm⟩
  · exact hw.putsOver i p hp
  · cases hs with
    | put => exact absurd ha id
  · obtain ⟨p0, rfl⟩ := eq_put_of_moves hm
    exact absurd hm (not_moves_over (hw.putsOver i p0 hq))

/-- A put that is over waits for no answer. -/
theorem expects_over {tag : ℕ} {p : PutProc} (ho : Over p) : (Proc.put p).expects tag = [] := by
  obtain ⟨hwait, hasked, -⟩ := ho
  simp [Proc.expects, hwait, hasked]

theorem noHint_step (hw : Recovering cfg C w0 w) (ha : Calm C w a) (h : Effect cfg w a w') :
    ∀ req ∈ w'.net, Job.hints req.job = none := by
  intro req hr
  rcases net_step h hr with hr | ⟨i, p, hp, hr⟩ | ⟨i, g, -, hr⟩
  · exact hw.noHint req hr
  · cases p with
    | put p =>
      rw [expects_over (over_step hw ha h hp)] at hr
      cases hr
    | get g => exact (writes_hints_of_reads (expects_get hr).2.2).2
    | deliver self d =>
      obtain ⟨-, -, -, _, -, hj⟩ := expects_deliver hr
      exact hints_of_writes hj
    | reconcile q =>
      obtain ⟨-, -, -, _, -, hj⟩ := expects_reconcile hr
      exact hints_of_writes hj
  · obtain ⟨-, -, v, -, hj⟩ := mem_sends hr
    exact hints_of_writes hj

/-- So every stored hint was there before. -/
theorem entry_of_entry_step (hw : Recovering cfg C w0 w) (h : Effect cfg w a w') {x t : NodeId}
    {key : Bytes} {e : HintEntry} (he : (w'.node x).hints.entry t key = some e) :
    (w.node x).hints.entry t key = some e := by
  rcases hint_step h he with he | ⟨req, hr, _, _, -, hj, -⟩
  · exact he
  · simp [hw.noHint req hr] at hj

/-- A write of a task that has started after the return is done at `C`. -/
theorem done_step (hw : Recovering cfg C w0 w) (ha : Calm C w a) (hat : Atomic a)
    (h : Effect cfg w a w') : ∀ req ans, (req, ans) ∈ w'.replies → req.dst = C →
    ∀ i, req.tag = some i → w0.procs.length ≤ i → ∀ key v, Job.writes req.job = some (key, v) →
    ans = .done ∧ WithBot.some v.timestamp ≤ (w'.node C).localStore.stored key := by
  intro req ans hr hdst i ht hi key v hj
  rcases replies_step h hr with hr | ⟨-, -, -, hans, hnode⟩ | ⟨k, rfl, -⟩ | ⟨k, rfl, hk, -⟩
  · obtain ⟨hdone, hle⟩ := hw.done req ans hr hdst i ht hi key v hj
    exact ⟨hdone, hle.trans (stored_le_step h hat _ _)⟩
  · subst hdst
    rcases perform_writes (w.node req.dst) hj with hp | ⟨hf, -⟩
    · rw [hp] at hans hnode
      refine ⟨hans, ?_⟩
      rw [hnode]
      exact RocksDbStore.le_stored_putIfNewer _ _ _ _
    · rw [hw.unblocked] at hf
      cases hf
  · exact absurd hat id
  · exact absurd hdst (ha req hk)

/-! ### Reconciliations -/

theorem reconciling_mono {q : ReconcileProc} (hq : Reconciling cfg w0 w q) (h : Effect cfg w a w')
    (hat : Atomic a) : Reconciling cfg w0 w' q := fun key hd =>
  (hq key hd).imp_left fun hle => hle.trans (stored_le_step h hat _ _)

/-- The head of the pending keys is dropped once it is at the returning node, or not for us to send.
-/
theorem reconciling_tail {q : ReconcileProc} {key : Bytes} {v : VersionedValue}
    (hq : Reconciling cfg w0 w q) (hhead : q.pending.head? = some (key, v))
    (hdrop : designated (cfg.preferred key) q.nodeId q.onlineIds = some q.self →
      WithBot.some v.timestamp ≤ (w.node q.nodeId).localStore.stored key) (b : Bool) :
    Reconciling cfg w0 w { q with awaiting := b, pending := q.pending.tail } := by
  intro k hd
  rcases hq k hd with hle | ⟨u, hu, hle⟩
  · exact Or.inl hle
  · obtain ⟨l, hl⟩ := List.head?_eq_some_iff.mp hhead
    rw [hl] at hu
    rcases List.mem_cons.mp hu with he | hu
    · obtain ⟨rfl, rfl⟩ := Prod.mk.inj he
      exact Or.inl (hle.trans (hdrop hd))
    · exact Or.inr ⟨u, by rw [hl]; exact hu, hle⟩

/-- A reconciliation that starts has all keys of its node to send. -/
theorem reconciling_starts (hw : Recovering cfg C w0 w) (x nodeId : NodeId)
    (onlineIds : List NodeId) : Reconciling cfg w0 w
      ⟨x, nodeId, onlineIds, (w.node x).localStore.iterAll, false, false⟩ := by
  intro key _
  have hmono : (w0.node x).localStore.stored key ≤
      rank VersionedValue.timestamp ((w.node x).localStore.get key) := hw.mono x key
  cases hv : (w.node x).localStore.get key with
  | none =>
    rw [hv, rank_none, le_bot_iff] at hmono
    exact Or.inl (hmono.le.trans bot_le)
  | some v =>
    rw [hv, rank_some] at hmono
    exact Or.inr ⟨v, RocksDbStore.mem_iterAll.mpr hv, hmono⟩

theorem reconciling_step (hw : Recovering cfg C w0 w) (ha : Calm C w a) (hat : Atomic a)
    (h : Effect cfg w a w') {i : ℕ} {q' : ReconcileProc}
    (hp : w'.procs[i]? = some (.reconcile q')) (hi : w0.procs.length ≤ i) (hC : q'.nodeId = C)
    (hab : q'.aborted = false) : Reconciling cfg w0 w' q' := by
  rcases proc_step h hp with hp | ⟨-, hs⟩ | ⟨p, hp0, hm⟩
  · exact reconciling_mono (hw.reconciling i q' hp hi hC hab) h hat
  · cases hs with
    | reconcile =>
      next x nodeId onlineIds =>
      exact reconciling_mono (reconciling_starts hw x nodeId onlineIds) h hat
  · obtain ⟨q, rfl⟩ := eq_reconcile_of_moves hm
    cases hm with
    | answered hr he hs =>
      obtain ⟨-, he'⟩ := settle_reconcile hs
      cases he'
      have hq := hw.reconciling i q hp0 hi hC hab
      obtain ⟨htag, -, hdst, ⟨key, v⟩, hhead, hj⟩ := expects_reconcile he
      -- a request to `C` is answered `Ok`, so the key is there
      obtain ⟨-, hthere⟩ := hw.done _ _ hr (hdst.trans hC) i htag hi key v hj
      rw [← hC] at hthere
      exact reconciling_mono (reconciling_tail hq hhead (fun _ => hthere) false) h hat
    | failed ho hs =>
      obtain ⟨hx, he'⟩ := settle_reconcile hs
      cases he'
      exact absurd (hx.symm.trans hC) ha
    | advance hs =>
      rcases advance_reconcile hs with ⟨-, -, -, -, -, he'⟩ | ⟨key, v, rest, hpend, hd, he'⟩
      · cases he'
        exact reconciling_mono (hw.reconciling i q hp0 hi hC hab) h hat
      · cases he'
        have hhead : q.pending.head? = some (key, v) := by rw [hpend]; rfl
        have htail := reconciling_tail (hw.reconciling i q hp0 hi hC hab) hhead
          (fun h => absurd h hd)
          q.awaiting
        rw [hpend] at htail
        exact reconciling_mono htail h hat
    | abort =>
      -- it had nothing left
      obtain ⟨hab, hpend⟩ := Bool.or_eq_false_iff.mp hab
      have hnil : q.pending = [] := by simpa using hpend
      intro key hd
      rcases reconciling_mono (hw.reconciling i q hp0 hi hC hab) h hat key hd with hle | ⟨v, hv, -⟩
      · exact Or.inl hle
      · rw [hnil] at hv
        cases hv

/-! ### Deliveries -/

theorem delivering_mono (hw : Recovering cfg C w0 w) {x : NodeId} {d : DeliverTask}
    (hd : Delivering w x d) (h : Effect cfg w a w') (hat : Atomic a) : Delivering w' x d where
  scanned := fun y hy e he => hd.scanned y hy e (entry_of_entry_step hw h he)
  covered := fun key e he => (hd.covered key e (entry_of_entry_step hw h he)).imp_left fun hle =>
    hle.trans (stored_le_step h hat _ _)
  acked := fun y hy => (hd.acked y hy).trans (stored_le_step h hat _ _)

/-- A task goes on to its next hint once the first one is at the target. -/
theorem delivering_next {x : NodeId} {d : DeliverTask} (hd : Delivering w x d)
    (hdel : d.stage = .deleting) : Delivering w x d.next := by
  refine ⟨fun y hy => hd.scanned y (List.mem_of_mem_tail hy), fun key e he => ?_, nofun⟩
  rcases hd.covered key e he with hle | ⟨y, hy, rfl⟩
  · exact Or.inl hle
  · cases hp : d.pending with
    | nil => simp [hp] at hy
    | cons z rest =>
      rw [hp] at hy
      rcases List.mem_cons.mp hy with rfl | hy
      · left
        have hto : d.toDelete = some y := by
          rw [DeliverTask.toDelete, if_pos hdel, hp]; rfl
        have hts := hd.scanned y (by rw [hp]; exact List.mem_cons_self) e he
        rw [hts]
        exact hd.acked y hto
      · exact Or.inr ⟨y, by rw [DeliverTask.next, hp]; exact hy, rfl⟩

/-- A delivery task that starts has scanned what is stored. -/
theorem delivering_starts (w : World) (x nodeId : NodeId) :
    Delivering w x (.scan (w.node x).hints nodeId) := by
  refine ⟨fun y hy e he => ?_, fun key e he => ?_, fun y hy => ?_⟩
  · have hentry : (w.node x).hints.entry nodeId y.1 = some ⟨y.2.2, y.2.1⟩ :=
      HintStore.mem_hintsForNode.mp hy
    have he' : (w.node x).hints.entry nodeId y.1 = some e := he
    rw [he'] at hentry
    rw [Option.some.inj hentry]
  · exact Or.inr ⟨(key, e.data, e.timestamp), HintStore.mem_hintsForNode.mpr he, rfl⟩
  · rw [DeliverTask.toDelete_of_ne Stage.noConfusion] at hy; cases hy

/-- A delivery task that was there before has nothing left for `C`. -/
theorem before_step (hw : Recovering cfg C w0 w) (ha : Calm C w a) (h : Effect cfg w a w') {i : ℕ}
    {x : NodeId} {d' : DeliverTask} (hp : w'.procs[i]? = some (.deliver x d')) :
    '/' ∉ d'.nodeId.toList ∧ (i < w0.procs.length → d'.nodeId = C → d'.pending = []) := by
  rcases proc_step h hp with hp | ⟨rfl, hs⟩ | ⟨p, hp0, hm⟩
  · exact hw.before i x d' hp
  · cases hs with
    | deliver => exact ⟨ha, fun hi => absurd hw.length (not_le.mpr hi)⟩
  · obtain ⟨self, d, rfl⟩ := eq_deliver_of_moves hm
    obtain ⟨hslash, hnil⟩ := hw.before i self d hp0
    obtain ⟨_, he, hid, hsub⟩ := moves_deliver hm
    cases he
    rw [hid]
    exact ⟨hslash, fun hi hC => List.subset_nil.mp ((hnil hi hC) ▸ hsub)⟩

theorem delivering_step (hw : Recovering cfg C w0 w) (ha : Calm C w a) (hat : Atomic a)
    (h : Effect cfg w a w') {i : ℕ} {x : NodeId} {d' : DeliverTask}
    (hp : w'.procs[i]? = some (.deliver x d')) (hi : w0.procs.length ≤ i) (hC : d'.nodeId = C) :
    Delivering w' x d' := by
  rcases proc_step h hp with hp | ⟨-, hs⟩ | ⟨p, hp0, hm⟩
  · exact delivering_mono hw (hw.delivering i x d' hp hi hC) h hat
  · cases hs with
    | deliver =>
      next nodeId => exact delivering_mono hw (delivering_starts w x nodeId) h hat
  · obtain ⟨self, d, rfl⟩ := eq_deliver_of_moves hm
    obtain ⟨_, he, hid, -⟩ := moves_deliver hm
    cases he
    have hd := hw.delivering i x d hp0 hi (hid.symm.trans hC)
    cases hm with
    | answered hr he hs =>
      obtain ⟨htag, hstage, hdst, y, hhead, hj⟩ := expects_deliver he
      rcases settle_deliver hs with ⟨-, -, he'⟩ | ⟨hdel, -⟩
      · obtain ⟨-, rfl⟩ := Proc.deliver.inj he'
        refine delivering_mono hw ?_ h hat
        -- a request to `C` is answered `Ok`, so the hint is there
        have hdC : d.nodeId = C := hid.symm.trans hC
        obtain ⟨hdone, hthere⟩ := hw.done _ _ hr (hdst.trans hdC) i htag hi _ _ hj
        subst hdone
        refine ⟨hd.scanned, hd.covered, fun z hz => ?_⟩
        have hzy : z = y := Option.some.inj (hz.symm.trans hhead)
        rw [hzy, DeliverTask.nodeId_answered, hdC]
        exact hthere
      · rw [hstage] at hdel
        cases hdel
    | failed ho hs =>
      rcases settle_deliver hs with ⟨-, hx, -⟩ | ⟨hdel, he'⟩
      · exact absurd (hx.symm.trans (hid.symm.trans hC)) ha
      · obtain ⟨-, rfl⟩ := Proc.deliver.inj he'
        exact delivering_mono hw (delivering_next hd hdel) h hat
    | advance hs =>
      rcases advance_deliver hs with ⟨-, -, he'⟩ | ⟨hdel, he'⟩
      · obtain ⟨-, rfl⟩ := Proc.deliver.inj he'
        refine delivering_mono hw ⟨hd.scanned, hd.covered, fun y hy => ?_⟩ h hat
        rw [DeliverTask.toDelete_of_ne Stage.noConfusion] at hy
        cases hy
      · obtain ⟨-, rfl⟩ := Proc.deliver.inj he'
        exact delivering_mono hw (delivering_next hd hdel) h hat

/-- A hint for `C` that is deleted has arrived at `C`. -/
theorem kept_step (hC : '/' ∉ C.toList) (hw : Recovering cfg C w0 w) (h : Effect cfg w a w')
    (hat : Atomic a) {x : NodeId} {key : Bytes} {e : HintEntry}
    (he : (w0.node x).hints.entry C key = some e) :
    (w'.node x).hints.entry C key = some e ∨
      WithBot.some e.timestamp ≤ (w'.node C).localStore.stored key := by
  rcases hw.kept x key e he with hnow | hle
  · rcases hint_stays_step h hnow hw.noHint with hs | ⟨i, d, y, hp, hy, hk⟩
    · exact Or.inl hs
    · obtain ⟨hslash, hnil⟩ := hw.before i x d hp
      obtain ⟨rfl, rfl⟩ := (hintKey_inj hC hslash).mp hk
      have hmem : y ∈ d.pending := List.mem_of_mem_head? (DeliverTask.toDelete_eq_some.mp hy).2
      have hi : w0.procs.length ≤ i := by
        by_contra hlt
        rw [hnil (not_le.mp hlt) rfl] at hmem
        cases hmem
      have hd := hw.delivering i x d hp hi rfl
      rw [hd.scanned y hmem e hnow]
      exact Or.inr ((hd.acked y hy).trans (stored_le_step h hat _ _))
  · exact Or.inr (hle.trans (stored_le_step h hat _ _))

/-! ### The run -/

theorem recovering_step (hC : '/' ∉ C.toList) (hw : Recovering cfg C w0 w) (ha : Calm C w a)
    (hat : Atomic a) (h : Effect cfg w a w') : Recovering cfg C w0 w' where
  tags := tagsBelow_step hw.tags h
  length := hw.length.trans (length_procs_step h)
  mono := fun x key => (hw.mono x key).trans (stored_le_step h hat x key)
  unblocked := by
    rw [faults_step h (x := C) (by rintro f rfl; exact ha rfl)]
    exact hw.unblocked
  done := done_step hw ha hat h
  putsOver := fun _ _ => over_step hw ha h
  noHint := noHint_step hw ha h
  reconciling := fun _ _ hp hi hn hab => reconciling_step hw ha hat h hp hi hn hab
  before := fun _ _ _ hp => before_step hw ha h hp
  delivering := fun _ _ _ hp hi hn => delivering_step hw ha hat h hp hi hn
  kept := fun _ _ _ he => kept_step hC hw h hat he

theorem recovering_start (h0 : Returned C w0) : Recovering cfg C w0 w0 where
  tags := h0.tags
  length := le_rfl
  mono := fun _ _ => le_rfl
  unblocked := h0.unblocked
  done := fun _ _ hr _ i ht hi => absurd (h0.tags.replies _ hr i ht) (not_lt.mpr hi)
  putsOver := fun _ _ hp => h0.puts _ (List.mem_of_getElem? hp)
  noHint := h0.hints
  reconciling := fun _ _ hp hi =>
    absurd (List.getElem?_eq_some_iff.mp hp).1 (not_lt.mpr hi)
  before := fun _ _ _ hp =>
    ⟨(h0.deliveries _ (List.mem_of_getElem? hp)).1, fun _ =>
      (h0.deliveries _ (List.mem_of_getElem? hp)).2⟩
  delivering := fun _ _ _ hp hi => absurd (List.getElem?_eq_some_iff.mp hp).1 (not_lt.mpr hi)
  kept := fun _ _ _ he => Or.inl he

/-- The process is a delivery of `x` to `C` that is finished. -/
def Delivered (x C : NodeId) : Proc → Prop
  | .deliver y d => y = x ∧ d.nodeId = C ∧ d.pending = []
  | _ => False

/-- The process is a reconciliation of `x` for `C` with the given online snapshot that is finished,
and was not aborted. -/
def Reconciled (x C : NodeId) (onlineIds : List NodeId) : Proc → Prop
  | .reconcile q => q.self = x ∧ q.nodeId = C ∧ q.onlineIds = onlineIds ∧ q.pending = [] ∧
      q.aborted = false
  | _ => False

instance (x C : NodeId) : ∀ p, Decidable (Delivered x C p)
  | .deliver y d => inferInstanceAs (Decidable (y = x ∧ d.nodeId = C ∧ d.pending = []))
  | .put _ | .get _ | .reconcile _ => isFalse id

instance (x C : NodeId) (onlineIds : List NodeId) : ∀ p, Decidable (Reconciled x C onlineIds p)
  | .reconcile q => inferInstanceAs (Decidable (q.self = x ∧ q.nodeId = C ∧
      q.onlineIds = onlineIds ∧ q.pending = [] ∧ q.aborted = false))
  | .put _ | .get _ | .deliver .. => isFalse id

/-- A process that has started after `w0` is of the given kind. -/
def StartedSince (w0 w : World) (P : Proc → Prop) : Prop := ∃ p ∈ w.procs.drop w0.procs.length, P p

/-- **All online nodes are finished** with a delivery and a reconciliation for `C` that have started
after `w0`. -/
def Finished (w0 w : World) (C : NodeId) (onlineIds : List NodeId) : Prop :=
  ∀ x ∈ onlineIds, StartedSince w0 w (Delivered x C) ∧
    StartedSince w0 w (Reconciled x C onlineIds)

instance (w0 w : World) (P : Proc → Prop) [DecidablePred P] : Decidable (StartedSince w0 w P) := by
  unfold StartedSince; infer_instance

instance (w0 w : World) (C : NodeId) (onlineIds : List NodeId) :
    Decidable (Finished w0 w C onlineIds) := by
  unfold Finished; infer_instance

theorem StartedSince.exists_index {P : Proc → Prop} (h : StartedSince w0 w P) :
    ∃ i p, w0.procs.length ≤ i ∧ w.procs[i]? = some p ∧ P p := by
  obtain ⟨p, hmem, hp⟩ := h
  obtain ⟨j, hj⟩ := List.getElem?_of_mem hmem
  rw [List.getElem?_drop] at hj
  exact ⟨w0.procs.length + j, p, Nat.le_add_right _ _, hj, hp⟩

/-- **Recovery.** From any state in which `C` comes back, with any contents of the stores, while no
client writes, no request to `C` fails and conditional writes are atomic: once the designated sender
of a key has finished a reconciliation, `C` stores a timestamp of the key at least as large as the
sender had, and once a node has finished a delivery, as every hint for `C` that was parked there. -/
theorem recovery (hC : '/' ∉ C.toList) (h0 : Returned C w0) {acts : List Act}
    (ha : Along (step cfg) (fun w a => Calm C w a ∧ Atomic a) acts w0)
    (h : run (step cfg) acts w0 = some w) (onlineIds : List NodeId) (key : Bytes) :
    (∀ D, designated (cfg.preferred key) C onlineIds = some D →
      StartedSince w0 w (Reconciled D C onlineIds) →
      (w0.node D).localStore.stored key ≤ (w.node C).localStore.stored key) ∧
    ∀ x, StartedSince w0 w (Delivered x C) → ∀ e, (w0.node x).hints.entry C key = some e →
      WithBot.some e.timestamp ≤ (w.node C).localStore.stored key := by
  have hw : Recovering cfg C w0 w :=
    run_invariant_along (fun _ _ _ hw ha hs => recovering_step hC hw ha.1 ha.2 (effect_of_step hs))
      ha h (recovering_start h0)
  constructor
  · intro D hD hfin
    obtain ⟨i, p, hi, hget, hp⟩ := hfin.exists_index
    cases p with
    | reconcile q =>
      obtain ⟨rfl, rfl, rfl, hpend, hab⟩ := hp
      rcases hw.reconciling i q hget hi rfl hab key hD with hle | ⟨v, hv, -⟩
      · exact hle
      · rw [hpend] at hv
        cases hv
    | _ => exact absurd hp id
  · intro x hfin e he
    obtain ⟨i, p, hi, hget, hp⟩ := hfin.exists_index
    cases p with
    | deliver y d =>
      obtain ⟨rfl, rfl, hpend⟩ := hp
      rcases hw.kept y key e he with hnow | hle
      · rcases (hw.delivering i y d hget hi rfl).covered key e hnow with hle | ⟨z, hz, -⟩
        · exact hle
        · rw [hpend] at hz
          cases hz
      · exact hle
    | _ => exact absurd hp id

/-- Node `C` is back with empty stores; what runs on the other nodes goes on. -/
def back (C : NodeId) (w : World) : World := w.setNode C Node.empty

/-- The tasks of the nodes for `C` start, with all of them online. -/
def startTasks (C : NodeId) (onlineIds : List NodeId) : List Act :=
  onlineIds.map (.deliver · C) ++ onlineIds.map (.reconcile · C onlineIds)

/-- A put misses `c`, and `a` takes the hint. -/
def missedByC : List Act :=
  [.put "b" [107] [1] 50, .serve 0, .loseRequest 0, .answer 0, .fail 0 "c" false, .advance 0,
    .serve 0, .answer 0, .advance 0]

/-- `a` delivers its hint to `c`, and `b` sends its key. -/
def recoverC : List Act :=
  startTasks "c" ["b", "c", "a"] ++
    [.advance 3, .serve 0, .answer 0, .advance 3, .advance 4, .serve 0, .answer 0]

/-- `c` has what `b` holds and what `a` had parked. -/
theorem recovery_hint_and_key : ∃ w1 w2, run (step twoOfThree) missedByC World.empty = some w1 ∧
    run (step twoOfThree) recoverC (back "c" w1) = some w2 ∧
    ((back "c" w1).node "b").localStore.stored [107] ≤ (w2.node "c").localStore.stored [107] ∧
    ((back "c" w1).node "a").hints.entry "c" [107] = some ⟨50, [1]⟩ ∧
    WithBot.some 50 ≤ (w2.node "c").localStore.stored [107] := by
  have hc : ((run (step twoOfThree) missedByC World.empty).any fun w1 =>
      (∀ p ∈ w1.procs, PutOver p) ∧ w1.net = [] ∧ (∀ p ∈ w1.procs, DeliveryOver "c" p) ∧
      ((back "c" w1).node "a").hints.entry "c" [107] = some ⟨50, [1]⟩ ∧
      Along (step twoOfThree) (fun w a => Calm "c" w a ∧ Atomic a) recoverC (back "c" w1) ∧
      ((run (step twoOfThree) recoverC (back "c" w1)).any fun w2 =>
        Finished (back "c" w1) w2 "c" ["b", "c", "a"]) = true) = true := by decide
  obtain ⟨w1, h1, hw1⟩ := (Option.any_eq_true _ _).mp hc
  obtain ⟨hputs, hnet, hdel, he, hcalm, hw2⟩ := of_decide_eq_true hw1
  obtain ⟨w2, h2, hfin⟩ := (Option.any_eq_true _ _).mp hw2
  have hinv : Inv twoOfThree w1 := inv_run (by decide) (inv_of_quiet ⟨rfl, rfl, rfl, rfl⟩) h1
  have ht := hinv.tags
  have h0 : Returned "c" (back "c" w1) :=
    ⟨⟨ht.net, ht.checked, ht.replies⟩, hputs, by simp [back, World.setNode, hnet], hdel,
      by simp [back, Node.empty]⟩
  have hfin := of_decide_eq_true hfin
  obtain ⟨hsent, hdelivered⟩ := recovery (by decide) h0 hcalm h2 ["b", "c", "a"] [107]
  exact ⟨w1, w2, h1, h2, hsent "b" (by decide) (hfin "b" (by decide)).2, he,
    hdelivered "a" (hfin "a" (by decide)).1 _ he⟩

/-- A put misses `b`, and no node is left for a hint. -/
def missedByB : List Act :=
  [.put "c" [107] [1] 100, .loseRequest 0, .serve 0, .serve 0, .answer 0, .answer 0,
    .fail 0 "b" false, .advance 0]

/-- `c` leaves its key to the designated sender `b`. -/
def recoverA : List Act := startTasks "a" ["b", "c", "a"] ++ [.advance 5]

/-- A second put misses `c`; the hint for it is lost. -/
def missedAgainByC : List Act :=
  missedByC ++ [.put "b" [107] [2] 100, .serve 0, .loseRequest 0, .answer 0, .fail 1 "c" false,
    .advance 1, .loseRequest 0, .fail 1 "a" false, .advance 1]

/-- The hint of the first put is checked at `c` before the second version arrives and written after
it. -/
def recoverCRacing : List Act :=
  startTasks "c" ["b", "c", "a"] ++ [.advance 4, .check 0, .advance 5, .serve 0, .answer 0,
    .write 0, .answer 0, .advance 4]

/-- A second put misses `c`, and its hint takes the place of the first one, which is being
delivered. -/
def replacedWhileSending : List Act :=
  missedByC ++ [.deliver "a" "c", .advance 1, .put "b" [107] [2] 100, .serve 1, .loseRequest 1,
    .answer 0, .fail 2 "c" false, .advance 2, .serve 1, .answer 0, .advance 2]

/-- The first hint arrives, and the second one is deleted; `b` is offline. -/
def recoverCLate : List Act :=
  [.serve 0, .answer 0, .advance 1] ++ startTasks "c" ["c", "a"] ++ [.advance 5]

/-- **`C` comes back after a run, and recovers**: no client write is under way, no request to `C`
fails, and all online nodes finish their tasks. -/
def RecoversWith (cfg : Cluster) (C : NodeId) (onlineIds : List NodeId) (acts acts' : List Act)
    (w1 w2 : World) : Prop :=
  run (step cfg) acts World.empty = some w1 ∧ (∀ p ∈ w1.procs, PutOver p) ∧
    Along (step cfg) (Calm C) acts' (back C w1) ∧
    run (step cfg) acts' (back C w1) = some w2 ∧ Finished (back C w1) w2 C onlineIds

/-- **What does not reach the returning node.** First, only the designated sender sends: `c` holds
an acknowledged write that `b` missed, all tasks are finished, and `a` does not have the key.
Second, with conditional writes in two steps: `b` holds 100 and sends it, and `c` ends with 50.
Third, with a delivery that was under way: `a` has parked 100 for `c`, and `c` ends with 50. -/
theorem newest_not_sent :
    (∃ w1 w2, RecoversWith threeNodes "a" ["b", "c", "a"] missedByB recoverA w1 w2 ∧
      (∀ a ∈ recoverA, Atomic a) ∧ "c" ∈ threeNodes.preferred [107] ∧
      "a" ∈ threeNodes.preferred [107] ∧
      (w1.node "c").localStore.get [107] = some ⟨100, [1]⟩ ∧
      (w2.node "a").localStore.get [107] = none) ∧
    (∃ w1 w2, RecoversWith twoOfThree "c" ["b", "c", "a"] missedAgainByC recoverCRacing w1 w2 ∧
      "b" ∈ twoOfThree.preferred [107] ∧ "c" ∈ twoOfThree.preferred [107] ∧
      (w1.node "b").localStore.get [107] = some ⟨100, [2]⟩ ∧
      (w2.node "c").localStore.get [107] = some ⟨50, [1]⟩) ∧
    ∃ w1 w2, RecoversWith twoOfThree "c" ["c", "a"] replacedWhileSending recoverCLate w1 w2 ∧
      (∀ a ∈ recoverCLate, Atomic a) ∧ "c" ∈ twoOfThree.preferred [107] ∧
      (w1.node "a").hints.entry "c" [107] = some ⟨100, [2]⟩ ∧
      (w2.node "c").localStore.get [107] = some ⟨50, [1]⟩ := by
  have hc : ∀ (cfg : Cluster) C onlineIds acts acts' (P : World → Prop) o [DecidablePred P],
      ((run (step cfg) acts World.empty).any fun w1 =>
        (∀ p ∈ w1.procs, PutOver p) ∧ P w1 ∧ Along (step cfg) (Calm C) acts' (back C w1) ∧
        ((run (step cfg) acts' (back C w1)).any fun w2 =>
          Finished (back C w1) w2 C onlineIds ∧
            (w2.node C).localStore.get [107] = o) = true) = true →
      ∃ w1 w2, RecoversWith cfg C onlineIds acts acts' w1 w2 ∧ P w1 ∧
        (w2.node C).localStore.get [107] = o := by
    intro cfg C onlineIds acts acts' P o _ h
    obtain ⟨w1, h1, hw1⟩ := (Option.any_eq_true _ _).mp h
    obtain ⟨hputs, hP, hcalm, hw2⟩ := of_decide_eq_true hw1
    obtain ⟨w2, h2, hw2⟩ := (Option.any_eq_true _ _).mp hw2
    obtain ⟨hfin, ho⟩ := of_decide_eq_true hw2
    exact ⟨w1, w2, ⟨h1, hputs, hcalm, h2, hfin⟩, hP, ho⟩
  refine ⟨?_, ?_, ?_⟩
  · obtain ⟨w1, w2, h, hv, ho⟩ := hc threeNodes "a" ["b", "c", "a"] missedByB recoverA
      (fun w1 => (w1.node "c").localStore.get [107] = some ⟨100, [1]⟩) none (by decide)
    exact ⟨w1, w2, h, by decide, by decide, by decide, hv, ho⟩
  · obtain ⟨w1, w2, h, hv, ho⟩ := hc twoOfThree "c" ["b", "c", "a"] missedAgainByC recoverCRacing
      (fun w1 => (w1.node "b").localStore.get [107] = some ⟨100, [2]⟩) (some ⟨50, [1]⟩) (by decide)
    exact ⟨w1, w2, h, by decide, by decide, hv, ho⟩
  · obtain ⟨w1, w2, h, hv, ho⟩ := hc twoOfThree "c" ["c", "a"] replacedWhileSending recoverCLate
      (fun w1 => (w1.node "a").hints.entry "c" [107] = some ⟨100, [2]⟩) (some ⟨50, [1]⟩) (by decide)
    exact ⟨w1, w2, h, by decide, by decide, hv, ho⟩

end Diynamo.System.Recovery
