import Diynamo.System.Quorum
import Mathlib.Algebra.GroupWithZero.Nat

/-! # No call hangs

Every request of a process ends, with an answer, an error or a timeout, so every process comes to an
end: there is a measure of the work that is left (`work`), and every step that changes anything, no
matter in which order, lowers it, unless it starts a process or sets fault flags (`work_step`).
Where no such step is left, every put and every get has returned, all tasks are over, and nothing is
on the way (`exists_step`). So without new calls the system comes to rest after a bounded number of
steps, in every order of steps (`comes_to_rest`). -/

namespace Diynamo.System.Progress

open Diynamo.Lib.Run Diynamo.Store.RocksDb Diynamo.Store.Hints Diynamo.Coordinator.Get
  Diynamo.Coordinator.Put Diynamo.Coordinator.Handoff Diynamo.System.Step Diynamo.System.Rules
  Diynamo.System.WellFormed Diynamo.System.Quorum

variable {cfg : Cluster} {w w' : World} {a : Act}

/-- An action of the system itself: neither a call nor an event from outside. -/
def Internal : Act → Prop
  | .put .. | .get .. | .deliver .. | .reconcile .. | .setFaults .. => False
  | _ => True

instance : ∀ a, Decidable (Internal a)
  | .put .. | .get .. | .deliver .. | .reconcile .. | .setFaults .. => isFalse id
  | .serve _ | .check _ | .write _ | .refuse _ | .loseRequest _ | .loseReply _ | .answer _
  | .fail .. | .advance _ | .abort _ => isTrue trivial

/-! ### The work that is left -/

/-- **The work of a process**: a request on the way counts 3, so a step that sends one is worth more
than that. -/
def Proc.work : Proc → ℕ
  | .put p => p.waiting.length + 5 * p.cands.length + p.asked.isSome.toNat + p.result.isNone.toNat
  | .get g =>
    if g.result.isNone then 4 * g.waiting.length + 3 * g.responses.length + 1 else g.waiting.length
  | .deliver _ d => 6 * d.pending.tail.length +
      match d.stage with
      | .sending => if d.pending = [] then 0 else 6
      | .awaiting => 2
      | .deleting => 1
  | .reconcile q => 5 * q.pending.tail.length +
      if q.awaiting then 1 else if q.pending = [] then 0 else 5

/-- **The work of the system**, with that of the messages. -/
def work (w : World) : ℕ :=
  (w.procs.map Proc.work).sum + 3 * w.net.length + 2 * w.checked.length + w.replies.length

/-- The process is over. -/
def Proc.Over : Proc → Prop
  | .put p => p.result.isSome
  | .get g => g.result.isSome
  | .deliver _ d => d.stage = .sending ∧ d.pending = []
  | .reconcile q => q.awaiting = false ∧ q.pending = []

instance : ∀ p, Decidable (Proc.Over p)
  | .put p => inferInstanceAs (Decidable (p.result.isSome = true))
  | .get g => inferInstanceAs (Decidable (g.result.isSome = true))
  | .deliver _ d => inferInstanceAs (Decidable (d.stage = .sending ∧ d.pending = []))
  | .reconcile q => inferInstanceAs (Decidable (q.awaiting = false ∧ q.pending = []))

/-- **Everything is over**, and nothing is on the way. -/
def AtRest (w : World) : Prop :=
  (∀ p ∈ w.procs, Proc.Over p) ∧ w.net = [] ∧ w.checked = [] ∧ w.replies = []

/-! ### Processes -/

theorem length_requests_le (tag : Option ℕ) (dst : NodeId) (job : Option Job) :
    (requests tag dst job).length ≤ 1 := by
  cases job <;> simp [requests]

theorem length_flatMap_le {α β : Type} {l : List α} {f : α → List β}
    (hf : ∀ e, (f e).length ≤ 1) : (l.flatMap f).length ≤ l.length := by
  induction l with
  | nil => exact le_rfl
  | cons e l ih =>
    have := hf e
    rw [List.flatMap_cons, List.length_append, List.length_cons]
    omega

/-- A get repairs no more nodes than have answered. -/
theorem length_repairs_le (responses : List (NodeId × Option VersionedValue)) :
    (repairs responses).length ≤ responses.length := by
  unfold repairs
  cases winner responses with
  | none => exact Nat.zero_le _
  | some v => exact (List.length_map _).trans_le (List.length_filter_le _ _)

/-- The next attempt takes a candidate. -/
theorem length_nextHint {prefIds : List NodeId} {x : NodeId × NodeId × List NodeId} :
    ∀ {targets cands : List NodeId}, nextHint prefIds targets cands = some x →
      x.2.2.length < cands.length
  | [], _, h => by simp [nextHint] at h
  | _ :: _, [], h => by simp [nextHint] at h
  | t :: ts, c :: cs, h => by
    rw [nextHint] at h
    split_ifs at h with hc
    · have := length_nextHint h
      rw [List.length_cons]
      omega
    · cases h
      simp

theorem work_next (self : NodeId) (d : DeliverTask) :
    Proc.work (.deliver self d.next) = 6 * d.pending.tail.length := by
  rw [Proc.work, DeliverTask.next]
  dsimp only
  cases h : d.pending.tail with
  | nil => simp
  | cons y ys => simp [Nat.mul_add]

/-- **The end of a request** lowers the work of its process. -/
theorem work_settle {p p' : Proc} {x : NodeId} {o : Outcome} (h : Proc.settle x o p = some p') :
    Proc.work p' < Proc.work p := by
  cases p with
  | put p =>
    rw [Proc.settle] at h
    split_ifs at h with hx hc
    · cases h
      have hlen := List.length_erase_of_mem hx
      have hpos := List.length_pos_of_mem hx
      simp only [Proc.work, PutProc.join]
      omega
    · cases h
      simp only [Proc.work, PutProc.hinted, hc, Option.isSome_some, Option.isSome_none,
        Bool.toNat_true, Bool.toNat_false]
      omega
  | get g =>
    rw [Proc.settle] at h
    split_ifs at h with hx
    cases h
    have hlen := List.length_erase_of_mem hx
    have hpos := List.length_pos_of_mem hx
    have hresp : (g.join x o).responses.length ≤ g.responses.length + 1 := by
      unfold GetProc.join
      dsimp only
      split <;> simp
    have hwait : (g.join x o).waiting.length = g.waiting.length - 1 := hlen
    have hres : (g.join x o).result = g.result := rfl
    simp only [Proc.work, hres, hwait]
    split_ifs <;> omega
  | deliver self d =>
    rcases settle_deliver h with ⟨hst, -, rfl⟩ | ⟨hst, rfl⟩
    · unfold DeliverTask.answered
      split_ifs
      · simp [Proc.work, hst]
      · rw [work_next]
        simp [Proc.work, hst]
    · rw [work_next]
      simp [Proc.work, hst]
  | reconcile q =>
    rw [Proc.settle] at h
    split_ifs at h with hc
    cases h
    cases ht : q.pending.tail <;> simp [Proc.work, hc.1, ht, Nat.mul_add]

theorem work_advance_put {p : PutProc} {p' : Proc} (h : (Proc.put p).advance cfg = some p')
    (tag : ℕ) : Proc.work p' + 3 * (p'.expects tag).length < Proc.work (.put p) := by
  rw [Proc.advance] at h
  split_ifs at h with hc
  cases h
  obtain ⟨hwait, hasked, hres⟩ := hc
  unfold PutProc.advance
  split
  · next t c cs hnext =>
    have hlen : cs.length < p.cands.length := length_nextHint hnext
    have hone : ((Proc.put { p with asked := some c, cands := cs }).expects tag).length ≤ 1 := by
      simp only [Proc.expects, hwait, List.flatMap_nil, List.nil_append]
      split
      · exact length_requests_le _ _ _
      · exact Nat.zero_le _
    simp only [Proc.work, hasked, Option.isSome_some, Option.isSome_none, Bool.toNat_true,
      Bool.toNat_false]
    omega
  · have hnone : ((Proc.put { p with result := some (if cfg.w ≤ p.acks then .ok ()
        else .error ⟨p.acks, cfg.w⟩) }).expects tag).length = 0 := by
      simp [Proc.expects, hwait, hasked]
    simp only [Proc.work, hres, Option.isNone_some, Bool.toNat_true, Bool.toNat_false]
    omega

/-- A get sends its repairs as it returns. -/
theorem work_advance_get {g : GetProc} {p' : Proc} (h : (Proc.get g).advance cfg = some p')
    (tag : ℕ) : Proc.work p' + 3 * (p'.expects tag ++ (Proc.get g).sends cfg).length <
      Proc.work (.get g) := by
  rw [Proc.advance] at h
  split_ifs at h with hc
  cases h
  obtain ⟨hwait, hres⟩ := hc
  have hexp : (Proc.get (g.advance cfg)).expects tag = [] := by
    simp [Proc.expects, GetProc.advance, hwait]
  have hsends : ((Proc.get g).sends cfg).length ≤ g.responses.length := by
    rw [Proc.sends, GetProc.sends]
    split
    · next o sent hget =>
      obtain ⟨-, hpair⟩ := get_eq_ok.mp hget
      obtain ⟨-, rfl⟩ := Prod.mk.inj hpair
      exact (length_flatMap_le fun _ => length_requests_le _ _ _).trans (length_repairs_le _)
    · exact Nat.zero_le _
  have hwork : Proc.work (.get (g.advance cfg)) = 0 := by
    simp [Proc.work, GetProc.advance, hwait]
  have hwork' : Proc.work (.get g) = 3 * g.responses.length + 1 := by
    simp [Proc.work, hres, hwait]
  rw [hexp, List.nil_append]
  omega

theorem work_advance_deliver {self : NodeId} {d : DeliverTask} {p' : Proc}
    (h : (Proc.deliver self d).advance cfg = some p') (tag : ℕ) :
    Proc.work p' + 3 * (p'.expects tag).length < Proc.work (.deliver self d) := by
  rcases advance_deliver h with ⟨hst, hpend, rfl⟩ | ⟨hst, rfl⟩
  · have hone : ((Proc.deliver self { d with stage := .awaiting }).expects tag).length ≤ 1 := by
      rw [Proc.expects]
      split
      · exact length_requests_le _ _ _
      · exact Nat.zero_le _
    simp only [Proc.work, hst, hpend, if_false]
    omega
  · have hnone : ((Proc.deliver self d.next).expects tag).length = 0 := rfl
    rw [work_next]
    simp only [Proc.work, hst]
    omega

theorem work_advance_reconcile {q : ReconcileProc} {p' : Proc}
    (h : (Proc.reconcile q).advance cfg = some p') (tag : ℕ) :
    Proc.work p' + 3 * (p'.expects tag).length < Proc.work (.reconcile q) := by
  have hawait := not_awaiting_of_advance h
  have hcons : ∀ x rest, q.pending = x :: rest →
      Proc.work (.reconcile q) = 5 * rest.length + 5 := fun x rest hpend => by
    simp [Proc.work, hawait, hpend]
  rcases advance_reconcile h with
    ⟨key, v, rest, hpend, -, rfl⟩ | ⟨key, v, rest, hpend, -, rfl⟩ <;>
    have hwork' := hcons _ _ hpend
  · have hone : ((Proc.reconcile { q with awaiting := true }).expects tag).length ≤ 1 := by
      rw [Proc.expects]
      split
      · exact length_requests_le _ _ _
      · exact Nat.zero_le _
    have hwork : Proc.work (.reconcile { q with awaiting := true }) = 5 * rest.length + 1 := by
      simp [Proc.work, hpend]
    omega
  · have hnone : ((Proc.reconcile { q with pending := rest }).expects tag).length = 0 := by
      simp [Proc.expects, hawait]
    have hwork : Proc.work (.reconcile { q with pending := rest }) = 5 * rest.length := by
      cases rest <;> simp [Proc.work, hawait, Nat.mul_add]
    omega

/-- **A step of a process** lowers its work by more than that of the requests it sends. -/
theorem work_advance {p p' : Proc} (h : p.advance cfg = some p') (tag : ℕ) :
    Proc.work p' + 3 * (p'.expects tag ++ p.sends cfg).length < Proc.work p := by
  cases p with
  | get g => exact work_advance_get h tag
  | put p => simpa only [Proc.sends, List.append_nil] using work_advance_put h tag
  | deliver self d => simpa only [Proc.sends, List.append_nil] using work_advance_deliver h tag
  | reconcile q => simpa only [Proc.sends, List.append_nil] using work_advance_reconcile h tag

/-! ### Steps -/

/-- The work of the processes after one of them has gone on. -/
theorem sum_work_set {p : Proc} (p' : Proc) : ∀ {l : List Proc} {i : ℕ}, l[i]? = some p →
    ((l.set i p').map Proc.work).sum + Proc.work p = (l.map Proc.work).sum + Proc.work p'
  | [], _, hp => by simp at hp
  | q :: l, 0, hp => by
    obtain rfl : q = p := by simpa using hp
    simp only [List.set_cons_zero, List.map_cons, List.sum_cons]
    omega
  | q :: l, i + 1, hp => by
    have ih := sum_work_set p' (l := l) (i := i) (by simpa using hp)
    simp only [List.set_cons_succ, List.map_cons, List.sum_cons]
    omega

theorem sum_work_lt {p p' : Proc} {l : List Proc} {i : ℕ} (hp : l[i]? = some p)
    (hlt : Proc.work p' < Proc.work p) :
    ((l.set i p').map Proc.work).sum < (l.map Proc.work).sum := by
  have := sum_work_set p' hp
  omega

/-- **A process that goes on** lowers the work of the system. -/
theorem work_advanced {i : ℕ} {p p' : Proc} (hp : w.procs[i]? = some p)
    (hs : p.advance cfg = some p') :
    work { (w.deleteHint p.deletes).setProc i p' with
      net := w.net ++ p'.expects i ++ p.sends cfg } < work w := by
  have hset := sum_work_set p' hp
  have hlt := work_advance hs i
  rw [List.length_append] at hlt
  simp only [work, World.setProc, procs_deleteHint, checked_deleteHint, replies_deleteHint,
    List.length_append]
  omega

theorem length_eraseIdx_of_getElem? {α : Type} {l : List α} {i : ℕ} {x : α} (h : l[i]? = some x) :
    (l.eraseIdx i).length + 1 = l.length :=
  List.length_eraseIdx_add_one (List.getElem?_eq_some_iff.mp h).1

/-- An erased message was there, or nothing has changed. -/
theorem eraseIdx_cases {α : Type} (l : List α) (i : ℕ) :
    l.eraseIdx i = l ∨ (l.eraseIdx i).length + 1 = l.length := by
  cases h : l[i]? with
  | none => exact Or.inl (List.eraseIdx_of_length_le (List.getElem?_eq_none_iff.mp h))
  | some x => exact Or.inr (length_eraseIdx_of_getElem? h)

/-- **An internal step changes nothing, or lowers the work.** -/
theorem work_step (ha : Internal a) (h : Effect cfg w a w') : w' = w ∨ work w' < work w := by
  cases h with
  | idle => exact Or.inl rfl
  | spawn hs => cases hs <;> exact absurd ha id
  | serve hi =>
    have hlen := length_eraseIdx_of_getElem? hi
    right
    simp only [work, World.serve, World.setNode, List.length_append, List.length_singleton]
    omega
  | check hi =>
    have hlen := length_eraseIdx_of_getElem? hi
    right
    simp only [work, World.check, List.length_append, List.length_singleton]
    omega
  | write hi =>
    have hlen := length_eraseIdx_of_getElem? hi
    right
    simp only [work, World.write, World.setNode, List.length_append, List.length_singleton]
    omega
  | refuse hi =>
    have hlen := length_eraseIdx_of_getElem? hi
    right
    simp only [work, World.refuse, List.length_append, List.length_singleton]
    omega
  | loseRequest =>
    next i =>
    rcases eraseIdx_cases w.net i with he | hlen
    · exact Or.inl (by rw [he])
    · right
      simp only [work]
      omega
  | loseReply =>
    next i =>
    rcases eraseIdx_cases w.replies i with he | hlen
    · exact Or.inl (by rw [he])
    · right
      simp only [work]
      omega
  | answer hi _ hp _ hs =>
    have hlen := length_eraseIdx_of_getElem? hi
    have hset := sum_work_lt hp (work_settle hs)
    right
    simp only [work, World.setProc]
    omega
  | fail _ hp hs =>
    have hset := sum_work_lt hp (work_settle hs)
    right
    simp only [work, World.setProc]
    omega
  | advance hp hs => exact Or.inr (work_advanced hp hs)
  | abort hp =>
    next i q =>
    by_cases hover : q.awaiting = false ∧ q.pending = []
    · left
      have hsame : Proc.reconcile q.abort = .reconcile q := by
        simp only [ReconcileProc.abort, hover.2, List.isEmpty_nil, Bool.not_true, Bool.or_false]
        rw [← hover.1, ← hover.2]
      obtain ⟨hlt, he⟩ := List.getElem?_eq_some_iff.mp hp
      rw [hsame, World.setProc, ← he, List.set_getElem_self]
    · have hlt : Proc.work (.reconcile q.abort) < Proc.work (.reconcile q) := by
        simp only [ReconcileProc.abort, Proc.work, List.tail_nil, List.length_nil,
          Bool.false_eq_true, if_false, if_true]
        cases hw : q.awaiting with
        | true => simp
        | false =>
          have hne : q.pending ≠ [] := fun h => hover ⟨hw, h⟩
          simp [hne]
      have hset := sum_work_lt hp hlt
      right
      simp only [work, World.setProc]
      omega
  | setFaults => exact absurd ha id

/-! ### Where no step is left -/

/-- A checked request writes. -/
def ChecksWrite (w : World) : Prop := ∀ req ∈ w.checked, (Job.writes req.job).isSome

theorem checksWrite_step (hw : ChecksWrite w) (h : Effect cfg w a w') : ChecksWrite w' := by
  intro req hr
  cases h with
  | check hi hp =>
    rcases List.mem_append.mp hr with hr | hr
    · exact hw req hr
    · obtain ⟨key, v, hj, -⟩ := perform_of_passes hp
      rw [List.mem_singleton.mp hr, hj]
      rfl
  | write => exact hw req (List.mem_of_mem_eraseIdx hr)
  | advance => exact hw req (by rwa [← checked_deleteHint (w := w)])
  | _ => exact hw req hr

/-- A failure of a request that the process waits for. -/
theorem exists_fail {i : ℕ} {p : Proc} (hp : w.procs[i]? = some p) {x : NodeId} {p' : Proc}
    (hs : Proc.settle x .error p = some p') :
    ∃ a w', Internal a ∧ step cfg w a = some w' ∧ work w' < work w := by
  refine ⟨.fail i x false, w.setProc i p', trivial, ?_, ?_⟩
  · simp [step, hp, hs]
  · have hset := sum_work_lt hp (work_settle hs)
    simp only [work, World.setProc]
    omega

theorem exists_advance {i : ℕ} {p p' : Proc} (hp : w.procs[i]? = some p)
    (hs : p.advance cfg = some p') :
    ∃ a w', Internal a ∧ step cfg w a = some w' ∧ work w' < work w := by
  refine ⟨.advance i, _, trivial, ?_, work_advanced hp hs⟩
  simp only [step, hp, hs, Option.map_some]

/-- **A process that is not over** can go on, or fail to get what it waits for. -/
theorem exists_step_of_proc {i : ℕ} {p : Proc} (hp : w.procs[i]? = some p) (hover : ¬ Proc.Over p) :
    ∃ a w', Internal a ∧ step cfg w a = some w' ∧ work w' < work w := by
  cases p with
  | put p =>
    have hres : p.result = none := by simpa [Proc.Over] using hover
    cases hwait : p.waiting with
    | cons x xs =>
      have hx : x ∈ p.waiting := by rw [hwait]; exact List.mem_cons_self
      exact exists_fail hp (x := x) (by rw [Proc.settle, if_pos hx])
    | nil =>
      cases hasked : p.asked with
      | some c =>
        exact exists_fail hp (x := c) (by rw [Proc.settle, if_neg (by simp [hwait]), if_pos hasked])
      | none =>
        exact exists_advance hp (by rw [Proc.advance, if_pos ⟨hwait, hasked, by simp [hres]⟩])
  | get g =>
    have hres : g.result = none := by simpa [Proc.Over] using hover
    cases hwait : g.waiting with
    | cons x xs =>
      have hx : x ∈ g.waiting := by rw [hwait]; exact List.mem_cons_self
      exact exists_fail hp (x := x) (by rw [Proc.settle, if_pos hx])
    | nil => exact exists_advance hp (by rw [Proc.advance, if_pos ⟨hwait, by simp [hres]⟩])
  | deliver self d =>
    cases hst : d.stage with
    | sending =>
      have hpend : d.pending ≠ [] := fun h => hover ⟨hst, h⟩
      obtain ⟨y, ys, hy⟩ := List.exists_cons_of_ne_nil hpend
      exact exists_advance hp (by simp only [Proc.advance, hst, hy]; rfl)
    | awaiting => exact exists_fail hp (by rw [Proc.settle, if_pos ⟨hst, rfl⟩])
    | deleting => exact exists_advance hp (by simp only [Proc.advance, hst]; rfl)
  | reconcile q =>
    cases hawait : q.awaiting with
    | true => exact exists_fail hp (by rw [Proc.settle, if_pos ⟨hawait, rfl⟩])
    | false =>
      have hpend : q.pending ≠ [] := fun h => hover ⟨hawait, h⟩
      obtain ⟨⟨key, v⟩, rest, hy⟩ := List.exists_cons_of_ne_nil hpend
      by_cases hd : designated (cfg.preferred key) q.nodeId q.onlineIds = some q.self
      · exact exists_advance hp (by simp [Proc.advance, ReconcileProc.advance, hawait, hy, hd]; rfl)
      · exact exists_advance hp (by simp [Proc.advance, ReconcileProc.advance, hawait, hy, hd]; rfl)

/-- **As long as anything is left**, some internal step lowers the work. -/
theorem exists_step (hc : ChecksWrite w) :
    AtRest w ∨ ∃ a w', Internal a ∧ step cfg w a = some w' ∧ work w' < work w := by
  by_cases hprocs : ∀ p ∈ w.procs, Proc.Over p
  · by_cases hnet : w.net = []
    · cases hchecked : w.checked with
      | nil =>
        by_cases hreplies : w.replies = []
        · exact Or.inl ⟨hprocs, hnet, hchecked, hreplies⟩
        · right
          have hpos := List.length_pos_iff.mpr hreplies
          refine ⟨.loseReply 0, _, trivial, rfl, ?_⟩
          simp only [work, List.length_eraseIdx_of_lt hpos]
          omega
      | cons req rest =>
        right
        obtain ⟨x, hx⟩ := Option.isSome_iff_exists.mp (hc req (by rw [hchecked]; simp))
        have hfirst : w.checked[0]? = some req := by rw [hchecked]; rfl
        have hlen := length_eraseIdx_of_getElem? hfirst
        refine ⟨.write 0, w.write 0 req x.1 x.2, trivial, by simp [step, hchecked, hx], ?_⟩
        simp only [work, World.write, World.setNode, List.length_append, List.length_singleton]
        omega
    · right
      have hpos := List.length_pos_iff.mpr hnet
      refine ⟨.loseRequest 0, _, trivial, rfl, ?_⟩
      simp only [work, List.length_eraseIdx_of_lt hpos]
      omega
  · right
    push Not at hprocs
    obtain ⟨p, hp, hover⟩ := hprocs
    obtain ⟨i, hi⟩ := List.mem_iff_getElem?.mp hp
    exact exists_step_of_proc hi hover

/-- **Without new calls the system comes to rest.** In every state that a run reaches, for the
internal steps from there: whatever their order, all but `work` many change nothing; where none is
left that changes anything, every process is over and nothing is on the way; and `work` many steps
can lead there. -/
theorem comes_to_rest {w0 w : World} (h0 : Quiet w0) {acts : List Act}
    (h : run (step cfg) acts w0 = some w) :
    (∀ acts' w', (∀ a ∈ acts', Internal a) → run (step cfg) acts' w = some w' →
      (∃ bs, bs.Sublist acts' ∧ bs.length + work w' ≤ work w ∧ run (step cfg) bs w = some w') ∧
        ((∀ a w'', Internal a → step cfg w' a = some w'' → w'' = w') → AtRest w')) ∧
      ∃ acts' w', (∀ a ∈ acts', Internal a) ∧ acts'.length ≤ work w ∧
        run (step cfg) acts' w = some w' ∧ AtRest w' := by
  have hchecks : ∀ {acts w1 w2}, run (step cfg) acts w1 = some w2 → ChecksWrite w1 →
      ChecksWrite w2 := fun hr hw =>
    run_invariant (fun _ _ _ hw hs => checksWrite_step hw (effect_of_step hs)) hr hw
  have hc : ChecksWrite w := hchecks h fun req hr => by simp [h0.2.2.1] at hr
  refine ⟨fun acts' w' ha hr => ⟨run_compress (fun _ _ _ ha hs => work_step ha (effect_of_step hs))
    ha hr, fun hstuck => ?_⟩, ?_⟩
  · have hnext : AtRest w' ∨ ∃ a w'', Internal a ∧ step cfg w' a = some w'' ∧ work w'' < work w' :=
      exists_step (hchecks hr hc)
    rcases hnext with hrest | ⟨a, w'', ha, hs, hlt⟩
    · exact hrest
    · rw [hstuck a w'' ha hs] at hlt
      exact absurd hlt (lt_irrefl _)
  · exact exists_run_of_measure (I := ChecksWrite)
      (fun _ _ _ hw _ hs => checksWrite_step hw (effect_of_step hs)) (fun _ hw => exists_step hw) hc

/-- After a call of `put`, 13 steps are enough. -/
theorem comes_to_rest_put :
    ∃ acts' w', (∀ a ∈ acts', Internal a) ∧ acts'.length ≤ 13 ∧
      run (step threeNodes) (.put "b" [107] [1] 100 :: acts') World.empty = some w' ∧
        AtRest w' := by
  have hc : ((run (step threeNodes) [.put "b" [107] [1] 100] World.empty).any fun w =>
      work w = 13) = true := by decide
  obtain ⟨w, hr, hw⟩ := (Option.any_eq_true _ _).mp hc
  obtain ⟨-, acts', w', ha, hlen, hr', hrest⟩ := comes_to_rest ⟨rfl, rfl, rfl, rfl⟩ hr
  rw [of_decide_eq_true hw] at hlen
  exact ⟨acts', w', ha, hlen, run_append_eq_some.mpr ⟨w, hr, hr'⟩, hrest⟩

end Diynamo.System.Progress
