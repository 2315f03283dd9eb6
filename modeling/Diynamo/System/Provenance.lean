import Diynamo.System.WellFormed

/-! # Where versions come from

Every version in a store, in a hint or in a message carries the key, the timestamp and the value of
one put: no path makes up a timestamp or moves a value to another key. And every stored hint sits
outside the preference list of its key, with its target inside (`no_thin_air`). `Traced P` says so
for a predicate `P` on keys and versions, over all parts of the state at once; a step preserves it
if the puts it starts satisfy `P` (`traced_step`). -/

namespace Diynamo.System.Provenance

open Diynamo.Lib.Run Diynamo.Lib.Utf8 Diynamo.Store.RocksDb Diynamo.Store.Hints
  Diynamo.Coordinator.Get Diynamo.Coordinator.Put Diynamo.Coordinator.Handoff Diynamo.System.Step
  Diynamo.System.Rules Diynamo.System.WellFormed

variable {cfg : Cluster} {P : Bytes → VersionedValue → Prop} {w w' : World} {a : Act}

/-- A request to `dst` carries only versions with the property, and hints to the right node. -/
def JobTraced (cfg : Cluster) (P : Bytes → VersionedValue → Prop) (dst : NodeId) (job : Job) :
    Prop :=
  (∀ key v, Job.writes job = some (key, v) → P key v) ∧
    ∀ t key e, Job.hints job = some (t, key, e) →
      P key ⟨e.timestamp, e.data⟩ ∧ t ∈ cfg.preferred key ∧ dst ∉ cfg.preferred key

/-- A process works only on versions with the property. -/
def ProcTraced (P : Bytes → VersionedValue → Prop) : Proc → Prop
  | .put p => P p.key ⟨p.timestamp, p.value⟩
  | .get g => ∀ x v, (x, some v) ∈ g.responses → P g.key v
  | .deliver _ d => ∀ h ∈ d.pending, P h.1 ⟨h.2.2, h.2.1⟩
  | .reconcile q => ∀ x ∈ q.pending, P x.1 x.2

/-- **All versions in the system have the property.** -/
structure Traced (cfg : Cluster) (P : Bytes → VersionedValue → Prop) (w : World) : Prop where
  stores : ∀ x key v, (w.node x).localStore.get key = some v → P key v
  hints : ∀ x k e, (w.node x).hints.db.get k = some e → ∃ t key, k = hintKey t key ∧
    '/' ∉ t.toList ∧ P key ⟨e.timestamp, e.data⟩ ∧ t ∈ cfg.preferred key ∧ x ∉ cfg.preferred key
  net : ∀ req ∈ w.net, JobTraced cfg P req.dst req.job
  checked : ∀ req ∈ w.checked, JobTraced cfg P req.dst req.job
  replies : ∀ req v, (req, Answer.value (some v)) ∈ w.replies → ∀ key,
    Job.reads req.job = some key → P key v
  procs : ∀ (i : ℕ) (p : Proc), w.procs[i]? = some p → ProcTraced P p

/-- The version that an action brings in has the property; node ids have no `/`. -/
structure Allowed (cfg : Cluster) (P : Bytes → VersionedValue → Prop) (w : World) (a : Act) :
    Prop where
  put : ∀ p : PutProc, Starts cfg w a (.put p) → P p.key ⟨p.timestamp, p.value⟩
  deliver : ∀ x nodeId, a = .deliver x nodeId → '/' ∉ nodeId.toList

/-! ### Messages -/

theorem jobTraced_of_writes {dst : NodeId} {job : Job} {key : Bytes} {v : VersionedValue}
    (hj : Job.writes job = some (key, v)) (hP : P key v) : JobTraced cfg P dst job := by
  constructor
  · intro key' v' hj'
    cases hj.symm.trans hj'
    exact hP
  · intro t key' e hj'
    simp [hints_of_writes hj] at hj'

/-- What a process asks for comes from what it works on. -/
theorem jobTraced_expects {tag : ℕ} {p : Proc} (ht : ProcTraced P p) (hwf : WF cfg p)
    {req : Request} (h : req ∈ p.expects tag) : JobTraced cfg P req.dst req.job := by
  cases p with
  | put p =>
    have hwf' : PutWF cfg p := hwf
    rcases (expects_put h).2 with ⟨-, hj⟩ | ⟨hasked, t, htgt, hj⟩
    · exact jobTraced_of_writes hj ht
    · constructor
      · intro key v hj'
        simp [writes_of_hints hj] at hj'
      · intro t' key e hj'
        cases hj.symm.trans hj'
        rw [preferred_of_ringOrder hwf'.ringOrder]
        refine ⟨ht, hwf'.targets (List.mem_of_mem_head? htgt), fun hm => ?_⟩
        -- the candidate is behind the first `n` of the ring order
        have hcand : req.dst ∈ p.order.drop cfg.n := (hwf'.asked _ hasked).2
        have hnd := (preferenceList_of_ringOrder hwf'.ringOrder).2
        rw [← List.take_append_drop cfg.n p.order] at hnd
        obtain ⟨-, -, hdisj⟩ := List.nodup_append.mp hnd
        exact hdisj _ hm _ hcand rfl
  | get g =>
    obtain ⟨hw, hh⟩ := writes_hints_of_reads (expects_get h).2.2
    refine ⟨fun key v hj => ?_, fun t key e hj => ?_⟩
    · simp [hw] at hj
    · simp [hh] at hj
  | deliver self d =>
    obtain ⟨-, -, -, x, hx, hj⟩ := expects_deliver h
    exact jobTraced_of_writes hj (ht x (List.mem_of_mem_head? hx))
  | reconcile q =>
    obtain ⟨-, -, -, x, hx, hj⟩ := expects_reconcile h
    exact jobTraced_of_writes hj (ht x (List.mem_of_mem_head? hx))

theorem jobTraced_sends {g : GetProc} (ht : ProcTraced P (.get g)) {req : Request}
    (h : req ∈ (Proc.get g).sends cfg) : JobTraced cfg P req.dst req.job := by
  obtain ⟨-, -, v, hw, hj⟩ := mem_sends h
  obtain ⟨x, hx⟩ := winner_mem hw
  exact jobTraced_of_writes hj (ht x v hx)

/-! ### Processes -/

/-- What a starting process works on comes from the stores of its node. -/
theorem procTraced_starts (hw : Traced cfg P w) (ha : Allowed cfg P w a) {p : Proc}
    (h : Starts cfg w a p) : ProcTraced P p := by
  cases h with
  | put ho hn => exact ha.put _ (.put ho hn)
  | get hp => exact nofun
  | deliver =>
    next x nodeId =>
    intro h hh
    have hentry : (w.node x).hints.entry nodeId h.1 = some ⟨h.2.2, h.2.1⟩ :=
      HintStore.mem_hintsForNode.mp hh
    obtain ⟨t, key, hk, ht, hP, -⟩ := hw.hints x _ _ hentry
    obtain ⟨-, hkey⟩ := (hintKey_inj (ha.deliver _ _ rfl) ht).mp hk
    rw [hkey]
    exact hP
  | reconcile =>
    next x nodeId onlineIds =>
    intro kv hkv
    exact hw.stores x kv.1 kv.2 (RocksDbStore.mem_iterAll.mp hkv)

theorem procTraced_settle_deliver {self x : NodeId} {d : DeliverTask} {o : Outcome} {p : Proc}
    (ht : ProcTraced P (.deliver self d)) (h : Proc.settle x o (.deliver self d) = some p) :
    ProcTraced P p := by
  rcases settle_deliver h with ⟨-, -, rfl⟩ | ⟨-, rfl⟩
  · exact fun y hy => ht y (d.pending_answered_subset _ hy)
  · exact fun y hy => ht y (List.mem_of_mem_tail hy)

theorem procTraced_settle_reconcile {x : NodeId} {q : ReconcileProc} {o : Outcome} {p : Proc}
    (ht : ProcTraced P (.reconcile q)) (h : Proc.settle x o (.reconcile q) = some p) :
    ProcTraced P p := by
  obtain ⟨-, rfl⟩ := settle_reconcile h
  exact fun y hy => ht y (List.mem_of_mem_tail hy)

/-- **A process that goes on** works on what it had and what the answer brings. -/
theorem procTraced_moves (hw : Traced cfg P w) {j : ℕ} {p p' : Proc} (hp : ProcTraced P p)
    (h : Moves cfg w a j p p') : ProcTraced P p' := by
  cases p with
  | put p =>
    obtain ⟨p', rfl, hk, hv, hts⟩ := moves_put h
    rw [ProcTraced, hk, hv, hts]
    exact hp
  | get g =>
    cases h with
    | answered hr he hs =>
      obtain ⟨g', rfl, hk, hj⟩ := settle_get hs
      intro x v hx
      rw [hk]
      rcases hj x _ hx with hx | ⟨-, ho⟩
      · exact hp x v hx
      · cases ho
        exact hw.replies _ v hr _ (expects_get he).2.2
    | failed ho hs =>
      obtain ⟨g', rfl, hk, hj⟩ := settle_get hs
      intro x v hx
      rw [hk]
      refine hp x v ((hj x _ hx).resolve_right ?_)
      rintro ⟨-, rfl⟩
      rcases ho with ho | ho <;> cases ho
    | advance hs =>
      obtain ⟨g', rfl, hk, hr⟩ := advance_get hs
      intro x v hx
      rw [hk]
      exact hp x v (hr ▸ hx)
  | deliver self d =>
    cases h with
    | answered _ _ hs => exact procTraced_settle_deliver hp hs
    | failed _ hs => exact procTraced_settle_deliver hp hs
    | advance hs =>
      rcases advance_deliver hs with ⟨-, -, rfl⟩ | ⟨-, rfl⟩
      · exact hp
      · exact fun h hh => hp h (List.mem_of_mem_tail hh)
  | reconcile q =>
    cases h with
    | answered _ _ hs => exact procTraced_settle_reconcile hp hs
    | failed _ hs => exact procTraced_settle_reconcile hp hs
    | advance hs =>
      rcases advance_reconcile hs with ⟨-, -, -, -, -, rfl⟩ | ⟨key, v, rest, hpend, -, rfl⟩
      · exact hp
      · intro x hx
        have hmem : x ∈ q.pending := by rw [hpend]; exact List.mem_cons_of_mem _ hx
        exact hp x hmem
    | abort => exact fun x hx => absurd hx (List.not_mem_nil)

/-! ### Steps -/

/-- **One step** brings in no other versions than those of the puts it starts. -/
theorem traced_step (hwf : AllWF cfg w) (hw : Traced cfg P w) (ha : Allowed cfg P w a)
    (h : Effect cfg w a w') : Traced cfg P w' := by
  have hprocs : ∀ (i : ℕ) (p : Proc), w'.procs[i]? = some p → ProcTraced P p := by
    intro i p hp
    rcases proc_step h hp with hp | ⟨-, hs⟩ | ⟨q, hq, hm⟩
    · exact hw.procs i p hp
    · exact procTraced_starts hw ha hs
    · exact procTraced_moves hw (hw.procs i q hq) hm
  refine ⟨fun x key v hv => ?_, fun x k e he => ?_, fun req hr => ?_,
    fun req hr => (checked_step h hr).elim (hw.checked req) (hw.net req), fun req v hr key hj => ?_,
    hprocs⟩
  · rcases localStore_step h x with hs | ⟨i, req, k, u, -, hi, -, hj, hs⟩ |
      ⟨i, req, k, u, -, hi, -, hj, hs⟩
    · rw [hs] at hv; exact hw.stores x key v hv
    · rw [hs] at hv
      rcases RocksDbStore.get_putIfNewer_cases hv with hv | ⟨rfl, rfl⟩
      · exact hw.stores x key v hv
      · exact (hw.net req (List.mem_of_getElem? hi)).1 _ _ hj
    · rw [hs, RocksDbStore.get_write] at hv
      split_ifs at hv with hk
      · cases hv
        rw [hk]
        exact (hw.checked req hi).1 _ _ hj
      · exact hw.stores x key v hv
  · rcases hint_step h he with he | ⟨req, hm, t, key, rfl, hj, ht, hk⟩
    · exact hw.hints x k e he
    · exact ⟨t, key, hk, ht, (hw.net req hm).2 t key e hj⟩
  · rcases net_step h hr with hr | ⟨i, p, hp, hr⟩ | ⟨i, g, hg, hr⟩
    · exact hw.net req hr
    · exact jobTraced_expects (hprocs i p hp) (allWF_step hwf h i p hp) hr
    · exact jobTraced_sends (hw.procs i _ hg) hr
  · rcases replies_step h hr with hr | ⟨-, -, -, hans, -⟩ | ⟨-, -, -, hans⟩ |
      ⟨-, -, -, hans⟩
    · exact hw.replies req v hr key hj
    · rcases perform_reads (w.node req.dst) hj with hp | hp
      · rw [hp] at hans
        exact hw.stores req.dst key v (Answer.value.inj hans).symm
      · simp [hp] at hans
    · cases hans
    · cases hans

/-! ### The puts of a run -/

/-- The version of some put of the key that has been started. -/
def Issued (w : World) (key : Bytes) (v : VersionedValue) : Prop :=
  ∃ (i : ℕ) (p : PutProc), w.procs[i]? = some (.put p) ∧ p.key = key ∧ v = ⟨p.timestamp, p.value⟩

theorem issued_step (h : Effect cfg w a w') {key : Bytes} {v : VersionedValue}
    (hi : Issued w key v) : Issued w' key v := by
  obtain ⟨i, p, hp, rfl, rfl⟩ := hi
  obtain ⟨q, hq, hmove⟩ := proc_forward h hp
  rcases hmove with rfl | hm
  · exact ⟨i, p, hq, rfl, rfl⟩
  · obtain ⟨p', rfl, hk, hv, hts⟩ := moves_put hm
    exact ⟨i, p', hq, hk, by rw [hv, hts]⟩

theorem Traced.mono (P' : Bytes → VersionedValue → Prop) (h : ∀ key v, P key v → P' key v)
    (hw : Traced cfg P w) : Traced cfg P' w := by
  have hjob : ∀ dst job, JobTraced cfg P dst job → JobTraced cfg P' dst job :=
    fun dst job ⟨h1, h2⟩ => ⟨fun key v hj => h _ _ (h1 key v hj), fun t key e hj =>
      ⟨h _ _ (h2 t key e hj).1, (h2 t key e hj).2⟩⟩
  refine ⟨fun x key v hv => h _ _ (hw.stores x key v hv), fun x k e he => ?_,
    fun req hr => hjob _ _ (hw.net req hr), fun req hr => hjob _ _ (hw.checked req hr),
    fun req v hr key hj => h _ _ (hw.replies req v hr key hj), fun i p hp => ?_⟩
  · obtain ⟨t, key, hk, ht, hP, hpl⟩ := hw.hints x k e he
    exact ⟨t, key, hk, ht, h _ _ hP, hpl⟩
  · have := hw.procs i p hp
    cases p with
    | put p => exact h _ _ this
    | get g => exact fun x v hx => h _ _ (this x v hx)
    | deliver self d => exact fun y hy => h _ _ (this y hy)
    | reconcile q => exact fun y hy => h _ _ (this y hy)

/-- The versions in the system are those of the puts. -/
def AllIssued (cfg : Cluster) (w : World) : Prop := AllWF cfg w ∧ Traced cfg (Issued w) w

theorem issued_of_starts (h : Effect cfg w a w') {p : PutProc} (hs : Starts cfg w a (.put p)) :
    Issued w' p.key ⟨p.timestamp, p.value⟩ := by
  cases h with
  | idle hn => exact absurd hs (hn _)
  | spawn hs' =>
    cases starts_unique hs hs'
    exact ⟨w.procs.length, p, by simp [World.spawn], rfl, rfl⟩
  | _ => cases hs

theorem allIssued_step (hw : AllIssued cfg w) (h : Effect cfg w a w')
    (ha : ∀ x nodeId, a = .deliver x nodeId → '/' ∉ nodeId.toList) : AllIssued cfg w' :=
  ⟨allWF_step hw.1 h, traced_step hw.1 (hw.2.mono _ fun _ _ => issued_step h)
    ⟨fun _ => issued_of_starts h, ha⟩ h⟩

theorem allIssued_empty : AllIssued cfg World.empty :=
  ⟨nofun, ⟨nofun, nofun, nofun, nofun, nofun, nofun⟩⟩

/-- The tasks of a run are for node ids without `/`. -/
def NoSlash (acts : List Act) : Prop :=
  ∀ x nodeId, Act.deliver x nodeId ∈ acts → '/' ∉ nodeId.toList

theorem allIssued_run {acts : List Act} (hw : AllIssued cfg w) (hn : NoSlash acts)
    (h : run (step cfg) acts w = some w') : AllIssued cfg w' :=
  invariant_run (C := fun a => ∀ x nodeId, a = .deliver x nodeId → '/' ∉ nodeId.toList)
    (fun _ _ _ hw ha hs => allIssued_step hw hs ha)
    (fun a hm x nodeId he => hn x nodeId (by rw [← he]; exact hm)) h hw

/-- The put processes are puts of the run. -/
def FromActs (acts : List Act) (w : World) : Prop :=
  ∀ (i : ℕ) (p : PutProc), w.procs[i]? = some (.put p) →
    ∃ c, Act.put c p.key p.value p.timestamp ∈ acts

theorem fromActs_step {acts : List Act} (hw : FromActs acts w) (ha : a ∈ acts)
    (h : Effect cfg w a w') : FromActs acts w' := by
  intro i p' hp
  rcases proc_step h hp with hp | ⟨-, hs⟩ | ⟨q, hq, hm⟩
  · exact hw i p' hp
  · cases hs with
    | put => exact ⟨_, ha⟩
  · obtain ⟨p, rfl⟩ := eq_put_of_moves hm
    obtain ⟨p2, he, hk, hv, hts⟩ := moves_put hm
    cases he
    rw [hk, hv, hts]
    exact hw i p hq

/-- **A version is of a put**: a process of the run has issued it, and so with the key, the value
and the clock reading of one put of the run. -/
def OfPut (acts : List Act) (w : World) (key : Bytes) (v : VersionedValue) : Prop :=
  Issued w key v ∧ ∃ c, Act.put c key v.data v.timestamp ∈ acts

/-- **No version out of thin air.** In every run from the empty system, for node ids without `/`:
every version in a local store, in a hint or in a request is of a put of the run, with its key, its
one timestamp and its value; every key of a hint store is that of one target and key, where the
target is a preferred node of the key and the node with the hint is not. -/
theorem no_thin_air {acts : List Act} (hn : NoSlash acts)
    (h : run (step cfg) acts World.empty = some w) :
    (∀ x key v, (w.node x).localStore.get key = some v → OfPut acts w key v) ∧
    (∀ x t key e, '/' ∉ t.toList → (w.node x).hints.entry t key = some e →
      OfPut acts w key ⟨e.timestamp, e.data⟩ ∧
        t ∈ cfg.preferred key ∧ x ∉ cfg.preferred key) ∧
    (∀ x k e, (w.node x).hints.db.get k = some e →
      ∃ t key, '/' ∉ t.toList ∧ k = hintKey t key) ∧
    (∀ req, req ∈ w.net ∨ req ∈ w.checked → JobTraced cfg (OfPut acts w) req.dst req.job) := by
  have hacts : FromActs acts w :=
    invariant_run (C := (· ∈ acts)) (fun _ _ _ hw ha hs => fromActs_step hw ha hs) (fun _ h => h) h
      (by intro i p hp; cases hp)
  have hw := (allIssued_run allIssued_empty hn h).2.mono (OfPut acts w) fun key v hi => by
    refine ⟨hi, ?_⟩
    obtain ⟨i, p, hp, rfl, rfl⟩ := hi
    exact hacts i p hp
  refine ⟨hw.stores, fun x t key e ht he => ?_, fun x k e he => ?_,
    fun req hr => hr.elim (hw.net req) (hw.checked req)⟩
  · obtain ⟨t', key', hk, ht', hP, hpl⟩ := hw.hints x _ e he
    obtain ⟨rfl, rfl⟩ := (hintKey_inj ht ht').mp hk
    exact ⟨hP, hpl⟩
  · obtain ⟨t, key, hk, ht, -⟩ := hw.hints x k e he
    exact ⟨t, key, ht, hk⟩

/-- Two of three nodes hold every key; `w = r = 1`. -/
def twoOfThree : Cluster := .onOneMachine 2 1 1 (Nat.le_succ 2)

/-- The write to `c` fails, and `a` takes a hint for it, which is sent to `c` later. -/
def hintForC : List Act :=
  [.put "b" [107] [1] 100, .serve 0, .loseRequest 0, .answer 0, .fail 0 "c" false, .advance 0,
    .serve 0, .answer 0, .advance 0, .deliver "a" "c", .advance 1]

/-- The hint at `a` is of the put, and its place is right. -/
theorem no_thin_air_hint :
    ∃ w, run (step twoOfThree) hintForC World.empty = some w ∧
      (w.node "a").hints.entry "c" [107] = some ⟨100, [1]⟩ ∧
      OfPut hintForC w [107] ⟨100, [1]⟩ ∧ "c" ∈ twoOfThree.preferred [107] ∧
        "a" ∉ twoOfThree.preferred [107] := by
  have hc : ((run (step twoOfThree) hintForC World.empty).any fun w =>
      (w.node "a").hints.entry "c" [107] = some ⟨100, [1]⟩) = true := by decide
  obtain ⟨w, hr, he⟩ := (Option.any_eq_true _ _).mp hc
  have hn : NoSlash hintForC := by
    intro x nodeId hm
    simp only [hintForC, List.mem_cons, Act.deliver.injEq, reduceCtorEq, List.not_mem_nil, or_false,
      false_or] at hm
    rw [hm.2]
    decide
  exact ⟨w, hr, of_decide_eq_true he,
    (no_thin_air hn hr).2.1 "a" "c" [107] _ (by decide) (of_decide_eq_true he)⟩

end Diynamo.System.Provenance
