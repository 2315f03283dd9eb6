import Diynamo.System.Rules

/-! # Well-formed processes

What holds of every process in every reachable state, whatever the messages do: a put has contacted
distinct nodes, the preferred ones first, and a get has heard from distinct preferred nodes
(`wf_run`). Tags in flight are of processes that exist (`tagsBelow_run`). -/

namespace Diynamo.System.WellFormed

open Diynamo.Lib.Run Diynamo.Lib.Utf8 Diynamo.Store.RocksDb Diynamo.Store.Hints Diynamo.Cluster.Ring
  Diynamo.Coordinator.Get Diynamo.Coordinator.Put Diynamo.Coordinator.Handoff Diynamo.System.Step
  Diynamo.System.Rules

variable {cfg : Cluster} {w w' : World} {a : Act}

/-! ### The ring -/

theorem ringOrder_eq_some {key : Bytes} {order : List NodeId} : cfg.ringOrder key = some order ↔
    ∃ l, cfg.ring.ringOrderForKey cfg.hashRing key = .ok l ∧ l.map MemberInfo.id = order := by
  unfold Cluster.ringOrder
  cases cfg.ring.ringOrderForKey cfg.hashRing key <;> simp

theorem preferenceList_eq_some {key : Bytes} {pref : List NodeId} :
    cfg.preferenceList key = some pref ↔
      ∃ l, cfg.ring.preferenceListForKey cfg.hashRing key cfg.n = .ok l ∧
        l.map MemberInfo.id = pref := by
  unfold Cluster.preferenceList
  cases cfg.ring.preferenceListForKey cfg.hashRing key cfg.n <;> simp

/-- **The preference list is the first `n` of the ring order**, which has no repetition. -/
theorem preferenceList_of_ringOrder {key : Bytes} {order : List NodeId}
    (h : cfg.ringOrder key = some order) :
    cfg.preferenceList key = some (order.take cfg.n) ∧ order.Nodup := by
  obtain ⟨l, hl, rfl⟩ := ringOrder_eq_some.mp h
  refine ⟨preferenceList_eq_some.mpr ⟨_, CoordinatorRing.preferenceListForKey_eq_take cfg.n hl, ?_⟩,
    CoordinatorRing.nodup_ringOrderForKey hl⟩
  rw [List.map_take]

theorem preferenceList_spec {key : Bytes} {pref : List NodeId}
    (h : cfg.preferenceList key = some pref) : pref.Nodup ∧ pref.length ≤ cfg.n := by
  obtain ⟨l, hl, rfl⟩ := preferenceList_eq_some.mp h
  obtain ⟨order, ho, rfl⟩ := CoordinatorRing.ringOrderForKey_of_preferenceListForKey hl
  have hnd := CoordinatorRing.nodup_ringOrderForKey ho
  rw [List.map_take]
  exact ⟨hnd.sublist (List.take_sublist _ _), by rw [List.length_take]; exact min_le_left _ _⟩

theorem preferred_of_preferenceList {key : Bytes} {pref : List NodeId}
    (h : cfg.preferenceList key = some pref) : cfg.preferred key = pref := by
  rw [Cluster.preferred, h]; rfl

theorem preferred_of_ringOrder {key : Bytes} {order : List NodeId}
    (h : cfg.ringOrder key = some order) : cfg.preferred key = order.take cfg.n :=
  preferred_of_preferenceList (preferenceList_of_ringOrder h).1

/-- A key has at most `n` preferred nodes, all different. -/
theorem preferred_spec (cfg : Cluster) (key : Bytes) :
    (cfg.preferred key).Nodup ∧ (cfg.preferred key).length ≤ cfg.n := by
  rw [Cluster.preferred]
  cases h : cfg.preferenceList key with
  | none => exact ⟨List.nodup_nil, Nat.zero_le _⟩
  | some pref => exact preferenceList_spec h

theorem ringOrder_subset {key : Bytes} {order : List NodeId} (h : cfg.ringOrder key = some order) :
    order ⊆ cfg.ring.nodes := by
  obtain ⟨l, hl, rfl⟩ := ringOrder_eq_some.mp h
  unfold CoordinatorRing.ringOrderForKey at hl
  split at hl
  · cases hl
  · next owners hown =>
    obtain ⟨-, hsub, -⟩ := CoordinatorRing.owners_spec hown
    obtain ⟨l', hl', hids, -⟩ := CoordinatorRing.members_of_subset hsub
    rw [Except.ok.inj (hl.symm.trans hl'), hids]
    exact hsub

theorem preferred_subset (key : Bytes) : cfg.preferred key ⊆ cfg.ring.nodes := by
  rw [Cluster.preferred]
  cases h : cfg.preferenceList key with
  | none => exact List.nil_subset _
  | some pref =>
    obtain ⟨l, hl, rfl⟩ := preferenceList_eq_some.mp h
    obtain ⟨order, ho, rfl⟩ := CoordinatorRing.ringOrderForKey_of_preferenceListForKey hl
    rw [Option.getD_some, List.map_take]
    exact fun x hx => ringOrder_subset (ringOrder_eq_some.mpr ⟨order, ho, rfl⟩)
      (List.mem_of_mem_take hx)

/-! ### Puts and gets -/

variable (cfg)

/-- A put that follows its ring order. -/
structure PutWF (p : PutProc) : Prop where
  ringOrder : cfg.ringOrder p.key = some p.order
  perm : (p.joined.map Prod.fst ++ p.waiting).Perm (p.order.take cfg.n)
  targets : p.targets ⊆ p.order.take cfg.n
  cands : p.cands ⊆ p.order.drop cfg.n
  asked : ∀ c, p.asked = some c → p.waiting = [] ∧ c ∈ p.order.drop cfg.n

/-- What a get returns for its responses. -/
def readResult (responses : List (NodeId × Option VersionedValue)) :
    Except QuorumFailed (Option VersionedValue) :=
  match get cfg.r responses with
  | .ok (o, _) => .ok o
  | .error e => .error e

/-- A get that hears from each preferred node at most once. -/
structure GetWF (g : GetProc) : Prop where
  nodup : (g.responses.map Prod.fst ++ g.waiting).Nodup
  preferred : g.responses.map Prod.fst ++ g.waiting ⊆ cfg.preferred g.key
  result : ∀ res, g.result = some res → g.waiting = [] ∧ res = readResult cfg g.responses

/-- The keys that a reconciliation still has to push. -/
def pushes (q : ReconcileProc) : List (Bytes × VersionedValue) :=
  q.pending.filter fun item =>
    designated (cfg.preferred item.1) q.nodeId q.onlineIds = some q.self

/-- A reconciliation waits for the answer to a key that it pushes. -/
def ReconcileWF (q : ReconcileProc) : Prop :=
  q.awaiting = true → ∀ item ∈ q.pending.head?, item ∈ pushes cfg q

def WF : Proc → Prop
  | .put p => PutWF cfg p
  | .get g => GetWF cfg g
  | .deliver .. => True
  | .reconcile q => ReconcileWF cfg q

variable {cfg}

/-- At its start, a reconciliation has to push the keys of `reconcile_keys`. -/
theorem pushes_start (x nodeId : NodeId) (onlineIds : List NodeId) (s : RocksDbStore) :
    pushes cfg ⟨x, nodeId, onlineIds, s.iterAll, false, false⟩ =
      reconcileKeys cfg.preferred x nodeId onlineIds s :=
  rfl

theorem wf_starts {p : Proc} (h : Starts cfg w a p) : WF cfg p := by
  cases h with
  | put ho hn =>
    exact ⟨ho, List.Perm.refl _, List.nil_subset _, List.Subset.refl _, nofun⟩
  | get hp =>
    refine ⟨(preferenceList_spec hp).1, ?_, nofun⟩
    rw [preferred_of_preferenceList hp]
    exact List.Subset.refl _
  | deliver => trivial
  | reconcile => exact fun h => absurd h Bool.false_ne_true

/-- A reconciliation sends its first key, or drops it if another node is the designated sender. -/
theorem advance_reconcile {q : ReconcileProc} {q' : Proc}
    (h : Proc.advance cfg (.reconcile q) = some q') :
    (∃ key v rest, q.pending = (key, v) :: rest ∧
        designated (cfg.preferred key) q.nodeId q.onlineIds = some q.self ∧
        q' = .reconcile { q with awaiting := true }) ∨
      ∃ key v rest, q.pending = (key, v) :: rest ∧
        designated (cfg.preferred key) q.nodeId q.onlineIds ≠ some q.self ∧
        q' = .reconcile { q with pending := rest } := by
  rw [Proc.advance] at h
  split_ifs at h
  obtain ⟨q1, hq, rfl⟩ := Option.map_eq_some_iff.mp h
  unfold ReconcileProc.advance at hq
  split at hq
  · cases hq
  · next key v rest hpend =>
    split_ifs at hq with hd
    · exact Or.inl ⟨key, v, rest, hpend, hd, congrArg Proc.reconcile (Option.some.inj hq).symm⟩
    · exact Or.inr ⟨key, v, rest, hpend, hd, congrArg Proc.reconcile (Option.some.inj hq).symm⟩

/-- A reconciliation that waits for an answer makes no step of its own. -/
theorem not_awaiting_of_advance {q : ReconcileProc} {q' : Proc}
    (h : Proc.advance cfg (.reconcile q) = some q') : q.awaiting = false := by
  rw [Proc.advance] at h
  split_ifs at h with hawait
  exact Bool.eq_false_iff.mpr hawait

theorem putWF_join {p : PutProc} (h : PutWF cfg p) {x : NodeId} (hx : x ∈ p.waiting)
    (o : WriteOutcome) : PutWF cfg (p.join x o) := by
  refine ⟨h.ringOrder, ?_, ?_, h.cands, fun c hc => ?_⟩
  · refine List.Perm.trans ?_ h.perm
    rw [PutProc.join, List.map_append, List.append_assoc]
    exact (List.perm_cons_erase hx).symm.append_left _
  · have hxp : x ∈ p.order.take cfg.n := h.perm.subset (List.mem_append_right _ hx)
    rw [PutProc.join]
    split_ifs
    · exact List.append_subset.mpr ⟨h.targets, by simpa using hxp⟩
    · exact h.targets
  · simp [(h.asked c hc).1] at hx

theorem putWF_hinted {p : PutProc} (h : PutWF cfg p) (isOk : Bool) : PutWF cfg (p.hinted isOk) := by
  refine ⟨h.ringOrder, h.perm, ?_, h.cands, nofun⟩
  rw [PutProc.hinted]
  unfold targetsAfter
  split_ifs
  · exact fun t ht => h.targets (List.mem_of_mem_tail ht)
  · exact h.targets

theorem putWF_advance {p : PutProc} (h : PutWF cfg p) (hw : p.waiting = []) :
    PutWF cfg (p.advance cfg) := by
  unfold PutProc.advance
  split
  · next t c cs hnext =>
    obtain ⟨-, -, hc, hcs⟩ := nextHint_spec hnext
    refine ⟨h.ringOrder, h.perm, h.targets, fun x hx => h.cands (hcs hx), fun d hd => ⟨hw, ?_⟩⟩
    rw [← Option.some.inj hd]
    exact h.cands hc
  · exact ⟨h.ringOrder, h.perm, h.targets, h.cands, h.asked⟩

theorem getWF_join {g : GetProc} (h : GetWF cfg g) {x : NodeId} (hx : x ∈ g.waiting) (o : Outcome) :
    GetWF cfg (g.join x o) := by
  have hsub : ((g.join x o).responses.map Prod.fst ++ (g.join x o).waiting).Subperm
      (g.responses.map Prod.fst ++ g.waiting) := by
    have hperm := (List.perm_cons_erase hx).symm.append_left (g.responses.map Prod.fst)
    unfold GetProc.join
    dsimp only
    split
    · refine List.Perm.subperm ?_
      rw [List.map_append, List.append_assoc]
      exact hperm
    · exact (List.Sublist.append_left List.erase_sublist _).subperm
  have hw : ∀ res, g.result = some res → g.waiting = [] := fun res hr => (h.result res hr).1
  obtain ⟨l, hl, hs⟩ := hsub
  refine ⟨hl.nodup_iff.mp (h.nodup.sublist hs), fun y hy => h.preferred (hs.subset
    (hl.mem_iff.mpr hy)), fun res hr => ?_⟩
  simp [hw res hr] at hx

theorem wf_settle {p p' : Proc} {x : NodeId} {o : Outcome} (h : WF cfg p)
    (hs : Proc.settle x o p = some p') : WF cfg p' := by
  cases p with
  | put p =>
    rw [Proc.settle] at hs
    split_ifs at hs with hx hc
    · cases hs; exact putWF_join h hx _
    · cases hs; exact putWF_hinted h _
  | get g =>
    rw [Proc.settle] at hs
    split_ifs at hs with hx
    cases hs; exact getWF_join h hx _
  | deliver self d =>
    rw [Proc.settle] at hs
    split_ifs at hs <;> cases hs <;> trivial
  | reconcile q =>
    rw [Proc.settle] at hs
    split_ifs at hs
    cases hs; exact fun h => absurd h Bool.false_ne_true

theorem wf_advance {p p' : Proc} (h : WF cfg p) (hs : p.advance cfg = some p') : WF cfg p' := by
  cases p with
  | put p =>
    rw [Proc.advance] at hs
    split_ifs at hs with hc
    cases hs; exact putWF_advance h hc.1
  | get g =>
    rw [Proc.advance] at hs
    split_ifs at hs with hc
    cases hs
    exact ⟨h.nodup, h.preferred, fun res hr => ⟨hc.1, (Option.some.inj hr).symm⟩⟩
  | deliver self d =>
    rw [Proc.advance] at hs
    split at hs <;> cases hs <;> trivial
  | reconcile q =>
    rcases advance_reconcile hs with ⟨key, v, rest, hpend, hd, rfl⟩ | ⟨key, v, rest, hpend, -, rfl⟩
    · intro _ item hitem
      obtain rfl : (key, v) = item := by
        have hhead : q.pending.head? = some item := hitem
        rw [hpend] at hhead
        exact Option.some.inj hhead
      have hmem : (key, v) ∈ q.pending := by rw [hpend]; exact List.mem_cons_self
      exact List.mem_filter.mpr ⟨hmem, by simpa using hd⟩
    · -- a reconciliation that waits for an answer does not look at the next key
      exact fun h => absurd h (by simp [not_awaiting_of_advance hs])

theorem wf_moves {j : ℕ} {p p' : Proc} (h : WF cfg p) (hm : Moves cfg w a j p p') : WF cfg p' := by
  cases hm with
  | answered _ _ hs => exact wf_settle h hs
  | failed _ hs => exact wf_settle h hs
  | advance hs => exact wf_advance h hs
  | abort => exact nofun

/-- All processes are well-formed. -/
def AllWF (cfg : Cluster) (w : World) : Prop :=
  ∀ (i : ℕ) (p : Proc), w.procs[i]? = some p → WF cfg p

theorem allWF_step (hw : AllWF cfg w) (h : Effect cfg w a w') : AllWF cfg w' := by
  intro i p hp
  rcases proc_step h hp with hp | ⟨-, hs⟩ | ⟨q, hq, hm⟩
  · exact hw i p hp
  · exact wf_starts hs
  · exact wf_moves (hw i q hq) hm

/-! ### What a process keeps -/

/-- The end of a request to a put counts as an ack only if the answer says so. -/
theorem settle_put {p : PutProc} {q : Proc} {x : NodeId} {o : Outcome}
    (h : Proc.settle x o (.put p) = some q) :
    ∃ p' : PutProc, q = .put p' ∧ p'.key = p.key ∧ p'.value = p.value ∧
      p'.timestamp = p.timestamp ∧ ∀ y, (y, .ok) ∈ p'.joined →
        (y, .ok) ∈ p.joined ∨ (y = x ∧ x ∈ p.waiting ∧ o = .answered .done) := by
  rw [Proc.settle] at h
  split_ifs at h with hx hc <;> cases h
  · refine ⟨_, rfl, rfl, rfl, rfl, fun y hy => ?_⟩
    rcases List.mem_append.mp hy with hy | hy
    · exact Or.inl hy
    · obtain ⟨rfl, ho⟩ := Prod.mk.inj (List.mem_singleton.mp hy)
      refine Or.inr ⟨rfl, hx, ?_⟩
      unfold Outcome.toWrite at ho
      split at ho
      · rfl
      all_goals cases ho
  · exact ⟨_, rfl, rfl, rfl, rfl, fun y hy => Or.inl hy⟩

theorem advance_put {p : PutProc} {q : Proc} (h : Proc.advance cfg (.put p) = some q) :
    ∃ p' : PutProc, q = .put p' ∧ p'.key = p.key ∧ p'.value = p.value ∧
      p'.timestamp = p.timestamp ∧ p'.joined = p.joined := by
  rw [Proc.advance] at h
  split_ifs at h
  cases h
  refine ⟨_, rfl, ?_⟩
  unfold PutProc.advance
  split <;> exact ⟨rfl, rfl, rfl, rfl⟩

/-- A get hears what the answers say. -/
theorem settle_get {g : GetProc} {q : Proc} {x : NodeId} {o : Outcome}
    (h : Proc.settle x o (.get g) = some q) :
    ∃ g' : GetProc, q = .get g' ∧ g'.key = g.key ∧ ∀ y v, (y, v) ∈ g'.responses →
      (y, v) ∈ g.responses ∨ (y = x ∧ o = .answered (.value v)) := by
  rw [Proc.settle] at h
  split_ifs at h with hx
  cases h
  refine ⟨_, rfl, rfl, fun y v hv => ?_⟩
  unfold GetProc.join at hv
  dsimp only at hv
  split at hv
  · rcases List.mem_append.mp hv with hv | hv
    · exact Or.inl hv
    · obtain ⟨rfl, rfl⟩ := Prod.mk.inj (List.mem_singleton.mp hv)
      exact Or.inr ⟨rfl, rfl⟩
  · exact Or.inl hv

theorem advance_get {g : GetProc} {q : Proc} (h : Proc.advance cfg (.get g) = some q) :
    ∃ g' : GetProc, q = .get g' ∧ g'.key = g.key ∧ g'.responses = g.responses := by
  rw [Proc.advance] at h
  split_ifs at h
  cases h
  exact ⟨_, rfl, rfl, rfl⟩

/-- The end of a request to a delivery task: an answer that it awaited, or a failed deletion. -/
theorem settle_deliver {self x : NodeId} {d : DeliverTask} {o : Outcome} {q : Proc}
    (h : Proc.settle x o (.deliver self d) = some q) :
    (d.stage = .awaiting ∧ d.nodeId = x ∧ q = .deliver self (d.answered o.isOk)) ∨
      (d.stage = .deleting ∧ q = .deliver self d.next) := by
  rw [Proc.settle] at h
  split_ifs at h with ha hd
  · exact Or.inl ⟨ha.1, ha.2, (Option.some.inj h).symm⟩
  · exact Or.inr ⟨hd.1, (Option.some.inj h).symm⟩

/-- A delivery task sends its first hint, or goes on after the deletion. -/
theorem advance_deliver {self : NodeId} {d : DeliverTask} {q : Proc}
    (h : Proc.advance cfg (.deliver self d) = some q) :
    (d.stage = .sending ∧ d.pending ≠ [] ∧ q = .deliver self { d with stage := .awaiting }) ∨
      (d.stage = .deleting ∧ q = .deliver self d.next) := by
  rw [Proc.advance] at h
  split at h
  · next hstage hpend =>
    exact Or.inl ⟨hstage, by simp [hpend], (Option.some.inj h).symm⟩
  · next hstage => exact Or.inr ⟨hstage, (Option.some.inj h).symm⟩
  · cases h

/-- The end of a request to a reconciliation: its first key is done. -/
theorem settle_reconcile {x : NodeId} {q : ReconcileProc} {o : Outcome} {q' : Proc}
    (h : Proc.settle x o (.reconcile q) = some q') :
    q.nodeId = x ∧ q' = .reconcile { q with awaiting := false, pending := q.pending.tail } := by
  rw [Proc.settle] at h
  split_ifs at h with hc
  exact ⟨hc.2, (Option.some.inj h).symm⟩

/-- The four kinds of processes. -/
inductive Kind where
  | put
  | get
  | deliver
  | reconcile

def kind : Proc → Kind
  | .put _ => .put
  | .get _ => .get
  | .deliver _ _ => .deliver
  | .reconcile _ => .reconcile

theorem kind_settle {p p' : Proc} {x : NodeId} {o : Outcome} (h : Proc.settle x o p = some p') :
    kind p' = kind p := by
  cases p <;> rw [Proc.settle] at h <;> split_ifs at h <;> cases h <;> rfl

theorem kind_advance {p p' : Proc} (h : Proc.advance cfg p = some p') : kind p' = kind p := by
  cases p with
  | deliver self d => rw [Proc.advance] at h; split at h <;> cases h <;> rfl
  | reconcile q =>
    rw [Proc.advance] at h
    split_ifs at h
    obtain ⟨q', -, rfl⟩ := Option.map_eq_some_iff.mp h
    rfl
  | _ => rw [Proc.advance] at h; split_ifs at h; cases h; rfl

/-- **A process keeps its kind.** -/
theorem kind_moves {j : ℕ} {p p' : Proc} (h : Moves cfg w a j p p') : kind p' = kind p := by
  cases h with
  | answered _ _ hs => exact kind_settle hs
  | failed _ hs => exact kind_settle hs
  | advance hs => exact kind_advance hs
  | abort => rfl

theorem eq_put_of_moves {j : ℕ} {q : Proc} {p' : PutProc} (h : Moves cfg w a j q (.put p')) :
    ∃ p, q = .put p := by
  cases q with
  | put p => exact ⟨p, rfl⟩
  | _ => cases kind_moves h

theorem eq_get_of_moves {j : ℕ} {q : Proc} {g' : GetProc} (h : Moves cfg w a j q (.get g')) :
    ∃ g, q = .get g := by
  cases q with
  | get g => exact ⟨g, rfl⟩
  | _ => cases kind_moves h

theorem eq_deliver_of_moves {j : ℕ} {q : Proc} {self : NodeId} {d' : DeliverTask}
    (h : Moves cfg w a j q (.deliver self d')) : ∃ x d, q = .deliver x d := by
  cases q with
  | deliver x d => exact ⟨x, d, rfl⟩
  | _ => cases kind_moves h

theorem eq_reconcile_of_moves {j : ℕ} {q : Proc} {q' : ReconcileProc}
    (h : Moves cfg w a j q (.reconcile q')) : ∃ q0, q = .reconcile q0 := by
  cases q with
  | reconcile q0 => exact ⟨q0, rfl⟩
  | _ => cases kind_moves h

/-- A put stays the put of its key, value and timestamp. -/
theorem moves_put {j : ℕ} {p : PutProc} {q : Proc} (h : Moves cfg w a j (.put p) q) :
    ∃ p' : PutProc, q = .put p' ∧ p'.key = p.key ∧ p'.value = p.value ∧
      p'.timestamp = p.timestamp := by
  cases h with
  | answered _ _ hs => obtain ⟨p', he, h1, h2, h3, -⟩ := settle_put hs; exact ⟨p', he, h1, h2, h3⟩
  | failed _ hs => obtain ⟨p', he, h1, h2, h3, -⟩ := settle_put hs; exact ⟨p', he, h1, h2, h3⟩
  | advance hs => obtain ⟨p', he, h1, h2, h3, -⟩ := advance_put hs; exact ⟨p', he, h1, h2, h3⟩

/-- A get stays a get of its key. -/
theorem moves_get {j : ℕ} {g : GetProc} {q : Proc} (h : Moves cfg w a j (.get g) q) :
    ∃ g' : GetProc, q = .get g' ∧ g'.key = g.key := by
  cases h with
  | answered _ _ hs => obtain ⟨g', he, hk, -⟩ := settle_get hs; exact ⟨g', he, hk⟩
  | failed _ hs => obtain ⟨g', he, hk, -⟩ := settle_get hs; exact ⟨g', he, hk⟩
  | advance hs => obtain ⟨g', he, hk, -⟩ := advance_get hs; exact ⟨g', he, hk⟩

/-- A delivery task stays for its target, and has no more to do than before. -/
theorem moves_deliver {j : ℕ} {self : NodeId} {d : DeliverTask} {q : Proc}
    (h : Moves cfg w a j (.deliver self d) q) :
    ∃ d', q = .deliver self d' ∧ d'.nodeId = d.nodeId ∧ d'.pending ⊆ d.pending := by
  have hsettle : ∀ x o, Proc.settle x o (.deliver self d) = some q →
      ∃ d', q = .deliver self d' ∧ d'.nodeId = d.nodeId ∧ d'.pending ⊆ d.pending := by
    intro x o hs
    rcases settle_deliver hs with ⟨-, -, he⟩ | ⟨-, he⟩
    · exact ⟨_, he, d.nodeId_answered _, d.pending_answered_subset _⟩
    · exact ⟨_, he, rfl, d.pending_next_subset⟩
  cases h with
  | answered _ _ hs => exact hsettle _ _ hs
  | failed _ hs => exact hsettle _ _ hs
  | advance hs =>
    rcases advance_deliver hs with ⟨-, -, he⟩ | ⟨-, he⟩
    · exact ⟨_, he, rfl, List.Subset.refl _⟩
    · exact ⟨_, he, rfl, d.pending_next_subset⟩

/-- A reconciliation stays for its node, and has no more to push than before. -/
theorem moves_reconcile {j : ℕ} {q : ReconcileProc} {p : Proc}
    (h : Moves cfg w a j (.reconcile q) p) : ∃ q' : ReconcileProc, p = .reconcile q' ∧
      q'.nodeId = q.nodeId ∧ pushes cfg q' ⊆ pushes cfg q := by
  have htail : ∀ {b : Bool} {l : List (Bytes × VersionedValue)}, l ⊆ q.pending →
      pushes cfg { q with awaiting := b, pending := l } ⊆ pushes cfg q :=
    fun hsub => List.filter_subset _ hsub
  cases h with
  | answered _ _ hs =>
    obtain ⟨-, he⟩ := settle_reconcile hs
    exact ⟨_, he, rfl, htail fun _ hx => List.mem_of_mem_tail hx⟩
  | failed _ hs =>
    obtain ⟨-, he⟩ := settle_reconcile hs
    exact ⟨_, he, rfl, htail fun _ hx => List.mem_of_mem_tail hx⟩
  | advance hs =>
    rcases advance_reconcile hs with ⟨-, -, -, -, -, he⟩ | ⟨key, v, rest, hpend, -, he⟩
    · exact ⟨_, he, rfl, List.Subset.refl _⟩
    · exact ⟨_, he, rfl, htail (by rw [hpend]; exact List.subset_cons_self _ _)⟩
  | abort => exact ⟨_, rfl, rfl, List.nil_subset _⟩

/-- **No process disappears.** -/
theorem proc_forward (h : Effect cfg w a w') {j : ℕ} {q : Proc} (hq : w.procs[j]? = some q) :
    ∃ q', w'.procs[j]? = some q' ∧ (q' = q ∨ Moves cfg w a j q q') := by
  have hlt := (List.getElem?_eq_some_iff.mp hq).1
  have hq' : w'.procs[j]? = some _ :=
    List.getElem?_eq_getElem (hlt.trans_le (length_procs_step h))
  refine ⟨_, hq', ?_⟩
  rcases proc_step h hq' with h1 | ⟨rfl, -⟩ | ⟨q0, h1, hm⟩
  · exact Or.inl (Option.some.inj (h1.symm.trans hq))
  · exact absurd hlt (lt_irrefl _)
  · rw [Option.some.inj (h1.symm.trans hq)] at hm
    exact Or.inr hm

/-- **An ack of a put** was counted before, or is the answer `Ok` to its write. -/
theorem put_ack_step (h : Effect cfg w a w') {j : ℕ} {p' : PutProc}
    (hp : w'.procs[j]? = some (.put p')) {x : NodeId} (hx : (x, .ok) ∈ p'.joined) :
    ∃ p : PutProc, w.procs[j]? = some (.put p) ∧ p.key = p'.key ∧ p.timestamp = p'.timestamp ∧
      ((x, .ok) ∈ p.joined ∨
        ∃ req, (req, .done) ∈ w.replies ∧ req.dst = x ∧ x ∈ p.waiting ∧
          req ∈ (Proc.put p).expects j) := by
  rcases proc_step h hp with hp | ⟨-, hs⟩ | ⟨q, hq, hm⟩
  · exact ⟨p', hp, rfl, rfl, Or.inl hx⟩
  · cases hs with
    | put => cases hx
  · obtain ⟨p, rfl⟩ := eq_put_of_moves hm
    refine ⟨p, hq, ?_⟩
    cases hm with
    | answered hr he hs =>
      obtain ⟨p2, he2, hk, -, hts, hj⟩ := settle_put hs
      cases he2
      refine ⟨hk.symm, hts.symm, ?_⟩
      rcases hj x hx with hx | ⟨rfl, hw, ho⟩
      · exact Or.inl hx
      · cases ho
        exact Or.inr ⟨_, hr, rfl, hw, he⟩
    | failed ho hs =>
      obtain ⟨p2, he2, hk, -, hts, hj⟩ := settle_put hs
      cases he2
      refine ⟨hk.symm, hts.symm, Or.inl ((hj x hx).resolve_right ?_)⟩
      rintro ⟨-, -, rfl⟩
      rcases ho with ho | ho <;> cases ho
    | advance hs =>
      obtain ⟨p2, he2, hk, -, hts, hj⟩ := advance_put hs
      cases he2
      exact ⟨hk.symm, hts.symm, Or.inl (hj ▸ hx)⟩

/-- **A response of a get** was heard before, or is the answer to its read. -/
theorem get_response_step (h : Effect cfg w a w') {j : ℕ} {g' : GetProc}
    (hg : w'.procs[j]? = some (.get g')) {x : NodeId} {o : Option VersionedValue}
    (hx : (x, o) ∈ g'.responses) :
    ∃ g : GetProc, w.procs[j]? = some (.get g) ∧ g.key = g'.key ∧
      ((x, o) ∈ g.responses ∨
        ∃ req, (req, .value o) ∈ w.replies ∧ req.dst = x ∧ req ∈ (Proc.get g).expects j) := by
  rcases proc_step h hg with hg | ⟨-, hs⟩ | ⟨q, hq, hm⟩
  · exact ⟨g', hg, rfl, Or.inl hx⟩
  · cases hs with
    | get => cases hx
  · obtain ⟨g, rfl⟩ := eq_get_of_moves hm
    refine ⟨g, hq, ?_⟩
    cases hm with
    | answered hr he hs =>
      obtain ⟨g2, he2, hk, hj⟩ := settle_get hs
      cases he2
      refine ⟨hk.symm, ?_⟩
      rcases hj x o hx with hx | ⟨rfl, ho⟩
      · exact Or.inl hx
      · cases ho
        exact Or.inr ⟨_, hr, rfl, he⟩
    | failed ho hs =>
      obtain ⟨g2, he2, hk, hj⟩ := settle_get hs
      cases he2
      refine ⟨hk.symm, Or.inl ((hj x o hx).resolve_right ?_)⟩
      rintro ⟨-, rfl⟩
      rcases ho with ho | ho <;> cases ho
    | advance hs =>
      obtain ⟨g2, he2, hk, hj⟩ := advance_get hs
      cases he2
      exact ⟨hk.symm, Or.inl (hj ▸ hx)⟩

/-! ### Tags -/

/-- Every tag in flight is of a process. -/
structure TagsBelow (w : World) : Prop where
  net : ∀ req ∈ w.net, ∀ i, req.tag = some i → i < w.procs.length
  checked : ∀ req ∈ w.checked, ∀ i, req.tag = some i → i < w.procs.length
  replies : ∀ r ∈ w.replies, ∀ i, r.1.tag = some i → i < w.procs.length

theorem tagsBelow_step (hw : TagsBelow w) (h : Effect cfg w a w') : TagsBelow w' := by
  have hlen := length_procs_step h
  refine ⟨fun req hr i ht => ?_, fun req hr i ht => ?_, fun r hr i ht => ?_⟩
  · rcases net_step h hr with hr | ⟨j, p, hp, hr⟩ | ⟨j, g, -, hr⟩
    · exact (hw.net req hr i ht).trans_le hlen
    · rw [expects_tag hr] at ht
      rw [← Option.some.inj ht]
      exact (List.getElem?_eq_some_iff.mp hp).1
    · simp [(mem_sends hr).1] at ht
  · rcases checked_step h hr with hr | hr
    · exact (hw.checked req hr i ht).trans_le hlen
    · exact (hw.net req hr i ht).trans_le hlen
  · rcases replies_step h hr with hr | ⟨j, -, hj, -⟩ | ⟨-, -, hr, -⟩ | ⟨j, -, hj, -⟩
    · exact (hw.replies r hr i ht).trans_le hlen
    · exact (hw.net r.1 (List.mem_of_getElem? hj) i ht).trans_le hlen
    · exact (hw.checked r.1 hr i ht).trans_le hlen
    · exact (hw.net r.1 (List.mem_of_getElem? hj) i ht).trans_le hlen

end Diynamo.System.WellFormed
