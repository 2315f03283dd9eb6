import Diynamo.System.Transport

/-! # One write after another

The puts of a key start one after another: when one starts, all preferred nodes have acknowledged
the ones before, and the clock has not gone back. Then, in a deployment over keys that a path
carries, every later get returns the first put with the last clock reading, so the last put if its
reading is larger than those before (`last_write_wins`). Two puts within one clock reading keep the
first value (`second_put_discarded`).

The invariant is that of a register that is offered values one after another
(`Lib.LastWrite.UpToLast`): every preferred store is as after all puts of the key, or as after all
but the last. What else arrives, from repairs, hints and reconciliations, is a duplicate
(`Lib.LastWrite.UpToLast.absorb`). -/

namespace Diynamo.System.Sequential

open Diynamo.Lib.LastWrite Diynamo.Lib.Run Diynamo.Lib.Utf8 Diynamo.Store.RocksDb
  Diynamo.Store.Hints Diynamo.Coordinator.Get Diynamo.Coordinator.Put Diynamo.System.Step
  Diynamo.System.Rules Diynamo.System.WellFormed Diynamo.System.Quorum Diynamo.System.Provenance
  Diynamo.System.Transport

variable {cfg : Cluster} {key : Bytes} {w w' : World} {a : Act}

/-! ### The puts of a key -/

def putOf (key : Bytes) : Proc → Option PutProc
  | .put p => if p.key = key then some p else none
  | _ => none

/-- The puts of the key, in the order in which they were started. -/
def puts (key : Bytes) (w : World) : List PutProc := w.procs.filterMap (putOf key)

def PutProc.version (p : PutProc) : VersionedValue := ⟨p.timestamp, p.value⟩

/-- Their versions. -/
def versions (key : Bytes) (w : World) : List VersionedValue := (puts key w).map PutProc.version

theorem putOf_eq_some {q : Proc} {p : PutProc} :
    putOf key q = some p ↔ q = .put p ∧ p.key = key := by
  unfold putOf
  split
  · split_ifs with h
    · constructor
      · intro he
        cases he
        exact ⟨rfl, h⟩
      · rintro ⟨he, -⟩
        cases he
        rfl
    · simp only [Proc.put.injEq, false_iff]
      rintro ⟨rfl, hk⟩
      exact h hk
  · next hne => simp only [reduceCtorEq, false_iff]; exact fun ⟨he, _⟩ => hne p he

theorem mem_puts {p : PutProc} : p ∈ puts key w ↔ Proc.put p ∈ w.procs ∧ p.key = key := by
  unfold puts
  rw [List.mem_filterMap]
  constructor
  · rintro ⟨q, hq, he⟩
    obtain ⟨rfl, hk⟩ := putOf_eq_some.mp he
    exact ⟨hq, hk⟩
  · rintro ⟨hp, hk⟩
    exact ⟨_, hp, putOf_eq_some.mpr ⟨rfl, hk⟩⟩

/-- What has been issued for the key is one of its versions. -/
theorem issued_iff {v : VersionedValue} : Issued w key v ↔ v ∈ versions key w := by
  unfold versions
  rw [List.mem_map]
  constructor
  · rintro ⟨i, p, hp, hk, rfl⟩
    exact ⟨p, mem_puts.mpr ⟨List.mem_of_getElem? hp, hk⟩, rfl⟩
  · rintro ⟨p, hp, rfl⟩
    obtain ⟨hm, hk⟩ := mem_puts.mp hp
    obtain ⟨i, hi⟩ := List.getElem?_of_mem hm
    exact ⟨i, p, hi, hk, rfl⟩

theorem version_putOf_moves {j : ℕ} {p p' : Proc} (h : Moves cfg w a j p p') :
    (putOf key p').map PutProc.version = (putOf key p).map PutProc.version := by
  cases p with
  | put p =>
    obtain ⟨p', rfl, hk, hv, hts⟩ := moves_put h
    unfold putOf
    dsimp only
    rw [hk]
    split_ifs
    · simp only [Option.map_some, PutProc.version, hv, hts]
    · rfl
  | _ =>
    cases p' with
    | put p' => cases kind_moves h
    | _ => rfl

/-- **The versions of a key** change only when a put of it starts, whose version comes last. -/
theorem versions_step (key : Bytes) (h : Effect cfg w a w') : versions key w' = versions key w ∨
    ∃ p, Starts cfg w a (.put p) ∧ p.key = key ∧
      versions key w' = versions key w ++ [PutProc.version p] := by
  have hv : ∀ w, versions key w = w.procs.filterMap fun p => (putOf key p).map PutProc.version :=
    fun w => List.map_filterMap
  rw [hv, hv]
  rcases procs_step h with he | ⟨p, hs, he⟩ | ⟨i, p, p', hp, hm, he⟩
  · exact Or.inl (by rw [he])
  · rw [he, List.filterMap_append]
    cases hp : putOf key p with
    | none => exact Or.inl (by simp [hp])
    | some q =>
      obtain ⟨rfl, hk⟩ := putOf_eq_some.mp hp
      exact Or.inr ⟨q, hs, hk, by simp [hp]⟩
  · left
    rw [he]
    exact filterMap_set_of_eq (version_putOf_moves hm) hp

/-! ### One after another -/

/-- The put has returned `Ok`, and all preferred nodes have acknowledged it. -/
def Complete (cfg : Cluster) (p : PutProc) : Prop :=
  p.result = some (.ok ()) ∧ ∀ x ∈ cfg.preferred p.key, (x, .ok) ∈ p.joined

instance (cfg : Cluster) (p : PutProc) : Decidable (Complete cfg p) := by
  unfold Complete; infer_instance

/-- **A put of the key starts** only after the others of it are complete, and reads no earlier time.
-/
def OneByOne (cfg : Cluster) (key : Bytes) (w : World) : Act → Prop
  | .put _ k _ now => k = key → ∀ p ∈ puts key w, Complete cfg p ∧ p.timestamp ≤ now
  | _ => True

instance (w : World) : ∀ a, Decidable (OneByOne cfg key w a)
  | .put _ k _ now => inferInstanceAs
    (Decidable (k = key → ∀ p ∈ puts key w, Complete cfg p ∧ p.timestamp ≤ now))
  | .get .. | .deliver .. | .reconcile .. | .serve _ | .check _ | .write _ | .refuse _
  | .loseRequest _ | .loseReply _ | .answer _ | .fail .. | .advance _ | .abort _
  | .setFaults .. => isTrue trivial

/-- **The versions of the key** are those of its puts. -/
def OnlyPuts (cfg : Cluster) (key : Bytes) (w : World) : Prop :=
  Traced cfg (fun k v => k = key → Issued w k v) w

/-- **Nothing of the key** is stored, hinted or under way; every hint is where a put leaves it. -/
def Unwritten (cfg : Cluster) (key : Bytes) (w : World) : Prop := Traced cfg (fun k _ => k ≠ key) w

theorem Unwritten.onlyPuts (h : Unwritten cfg key w) : OnlyPuts cfg key w :=
  h.mono _ fun _ _ hne he => absurd he hne

theorem onlyPuts_step (hwf : AllWF cfg w) (hw : OnlyPuts cfg key w) (h : Effect cfg w a w')
    (ha : ∀ x nodeId, a = .deliver x nodeId → '/' ∉ nodeId.toList) : OnlyPuts cfg key w' :=
  traced_step hwf (hw.mono _ fun _ _ hi hk => issued_step h (hi hk))
    ⟨fun _ hs _ => issued_of_starts h hs, ha⟩ h

/-- The value that puts one after another leave in a store. -/
def newest (key : Bytes) (w : World) : Option VersionedValue :=
  absorbAll VersionedValue.timestamp none (versions key w)

/-- **The invariant**: the versions are sorted, and every preferred store has seen them all, or all
but the last. -/
structure Ordered (cfg : Cluster) (key : Bytes) (w : World) : Prop where
  inv : Inv cfg w
  issued : OnlyPuts cfg key w
  sorted : (versions key w).Pairwise fun a b => a.timestamp ≤ b.timestamp
  stored : ∀ x ∈ cfg.preferred key,
    UpToLast VersionedValue.timestamp (versions key w) ((w.node x).localStore.get key)

/-- Once all puts of the key are complete, every preferred store has seen them all. -/
theorem stored_of_complete (hw : Ordered cfg key w) (hc : ∀ p ∈ puts key w, Complete cfg p)
    {x : NodeId} (hx : x ∈ cfg.preferred key) : (w.node x).localStore.get key = newest key w := by
  refine (hw.stored x hx).eq_of_reached fun v hv => ?_
  obtain ⟨p, hp, rfl⟩ := List.mem_map.mp hv
  obtain ⟨hm, rfl⟩ := mem_puts.mp hp
  obtain ⟨i, hi⟩ := List.getElem?_of_mem hm
  exact hw.inv.acked i p hi x ((hc p hp).2 x hx)

/-- **A store of the key** takes only versions of the key. -/
theorem get_step (hi : OnlyPuts cfg key w) (h : Effect cfg w a w') (ha : Atomic a) (x : NodeId) :
    (w'.node x).localStore.get key = (w.node x).localStore.get key ∨
      ∃ v ∈ versions key w, (w'.node x).localStore.get key =
        absorb VersionedValue.timestamp ((w.node x).localStore.get key) v := by
  rcases localStore_step h x with hs | ⟨i, req, k, v, -, hr, -, hj, hs⟩ | ⟨i, _, _, _, rfl, _⟩
  · exact Or.inl (by rw [hs])
  · rw [hs]
    by_cases hk : k = key
    · subst hk
      exact Or.inr ⟨v, issued_iff.mp ((hi.net req (List.mem_of_getElem? hr)).1 _ _ hj rfl),
        RocksDbStore.get_putIfNewer_self _ _ _ _⟩
    · exact Or.inl (RocksDbStore.get_putIfNewer_of_ne _ _ _ (Ne.symm hk))
  · exact absurd ha id

theorem ordered_step (hw : Ordered cfg key w) (ha : OneByOne cfg key w a) (hat : Atomic a)
    (hslash : ∀ x nodeId, a = .deliver x nodeId → '/' ∉ nodeId.toList) (h : Effect cfg w a w') :
    Ordered cfg key w' := by
  have hstored : ∀ x ∈ cfg.preferred key,
      UpToLast VersionedValue.timestamp (versions key w) ((w'.node x).localStore.get key) := by
    intro x hx
    rcases get_step hw.issued h hat x with he | ⟨v, hv, he⟩
    · rw [he]; exact hw.stored x hx
    · rw [he]; exact (hw.stored x hx).absorb hv
  have hissued := onlyPuts_step hw.inv.wf hw.issued h hslash
  rcases versions_step key h with hv | ⟨p, hs, hk, hv⟩
  · exact ⟨inv_step hw.inv h hat, hissued, by rw [hv]; exact hw.sorted, by rw [hv]; exact hstored⟩
  · cases hs with
    | put =>
      have hdone := ha hk
      refine ⟨inv_step hw.inv h hat, hissued, ?_, fun x hx => ?_⟩
      · rw [hv, List.pairwise_append]
        refine ⟨hw.sorted, List.pairwise_singleton _ _, fun v hm u hu => ?_⟩
        obtain ⟨q, hq, rfl⟩ := List.mem_map.mp hm
        rw [List.mem_singleton.mp hu]
        exact (hdone q hq).2
      · -- all puts before are complete, and a put that starts writes nothing yet
        have hnow := stored_of_complete hw (fun p hp => (hdone p hp).1) hx
        have hsame : (w'.node x).localStore = (w.node x).localStore := by
          rcases localStore_step h x with hs | ⟨i, _, _, _, he, _⟩ | ⟨i, _, _, _, he, _⟩
          · exact hs
          · cases he
          · cases he
        rw [hv, hsame, hnow]
        exact upToLast_concat _ _

theorem ordered_of_unwritten (hq : Quiet w) (hu : Unwritten cfg key w) : Ordered cfg key w := by
  have hnil : versions key w = [] := by simp [versions, puts, hq.1]
  refine ⟨inv_of_quiet hq, hu.onlyPuts, by simp [hnil], fun x _ => ?_⟩
  have hget : (w.node x).localStore.get key = none :=
    Option.eq_none_iff_forall_not_mem.mpr fun v hv => hu.stores x key v hv rfl
  rw [hnil, hget]
  exact Or.inl rfl

theorem ordered_run {acts : List Act} (hn : NoSlash acts)
    (ha : Along (step cfg) (fun w a => OneByOne cfg key w a ∧ Atomic a) acts w)
    (h : run (step cfg) acts w = some w') (hw : Ordered cfg key w) : Ordered cfg key w' := by
  have hslash : ∀ a ∈ acts, ∀ x nodeId, a = .deliver x nodeId → '/' ∉ nodeId.toList :=
    fun a hm x nodeId he => hn x nodeId (he ▸ hm)
  refine run_invariant_along (fun w a w' hw ha hs => ?_)
    (along_and ha (along_of_forall_mem w hslash)) h hw
  exact ordered_step hw ha.1.1 ha.1.2 ha.2 (effect_of_step hs)

/-! ### After the last put -/

/-- No put of the key starts. -/
def NoPut (key : Bytes) : Act → Prop
  | .put _ k _ _ => k ≠ key
  | _ => True

instance : ∀ a, Decidable (NoPut key a)
  | .put _ k _ _ => inferInstanceAs (Decidable (k ≠ key))
  | .get .. | .deliver .. | .reconcile .. | .serve _ | .check _ | .write _ | .refuse _
  | .loseRequest _ | .loseReply _ | .answer _ | .fail .. | .advance _ | .abort _
  | .setFaults .. => isTrue trivial

/-- The preferred stores hold `o` for the key, and the gets from `i0` on hear nothing else. -/
structure Settled (cfg : Cluster) (key : Bytes) (i0 : ℕ) (o : Option VersionedValue) (w : World) :
    Prop where
  inv : Inv cfg w
  issued : OnlyPuts cfg key w
  newest : newest key w = o
  heard : Heard i0 key (fun x u => x ∈ cfg.preferred key → u = o) w

theorem settled_step {i0 : ℕ} {o : Option VersionedValue} (hw : Settled cfg key i0 o w)
    (ha : NoPut key a) (hat : Atomic a)
    (hslash : ∀ x nodeId, a = .deliver x nodeId → '/' ∉ nodeId.toList) (h : Effect cfg w a w') :
    Settled cfg key i0 o w' := by
  refine ⟨inv_step hw.inv h hat, onlyPuts_step hw.inv.wf hw.issued h hslash, ?_,
    heard_step hw.heard h fun x hx => ?_⟩
  · rcases versions_step key h with hv | ⟨p, hs, hk, -⟩
    · rw [Sequential.newest, hv]
      exact hw.newest
    · cases hs with
      | put => exact absurd hk ha
  · have hnow := hw.heard.stores x hx
    rcases get_step hw.issued h hat x with he | ⟨v, hv, he⟩
    · rw [he, hnow]
    · rw [he, hnow, ← hw.newest]
      exact absorb_of_le (rank_absorbAll.2 v hv)

theorem settled_run {i0 : ℕ} {o : Option VersionedValue} {acts : List Act} (hn : NoSlash acts)
    (ha : ∀ a ∈ acts, NoPut key a ∧ Atomic a) (h : run (step cfg) acts w = some w')
    (hw : Settled cfg key i0 o w) : Settled cfg key i0 o w' := by
  refine invariant_run (C := fun a => (NoPut key a ∧ Atomic a) ∧
    ∀ x nodeId, a = .deliver x nodeId → '/' ∉ nodeId.toList) (fun w a w' hw ha hs => ?_)
    (fun a hm => ⟨ha a hm, fun x nodeId he => hn x nodeId (he ▸ hm)⟩) h hw
  exact settled_step hw ha.1.1 ha.1.2 ha.2 hs

/-- What a get returns, once all preferred nodes answer `v`. -/
theorem result_of_settled {i0 : ℕ} {v : VersionedValue} (hw : Settled cfg key i0 (some v) w) {j : ℕ}
    {g : GetProc} (hj : i0 ≤ j) (hg : w.procs[j]? = some (.get g)) (hk : g.key = key)
    {o : Option VersionedValue} (ho : g.result = some (.ok o)) :
    o = some v ∨ (cfg.r = 0 ∧ g.responses = []) := by
  have hwf : GetWF cfg g := hw.inv.wf j _ hg
  have hres := ((hwf.result _ ho).2).symm
  rw [readResult] at hres
  split at hres
  · next o' sent hget =>
    cases hres
    obtain ⟨hle, he⟩ := get_eq_ok.mp hget
    rw [(Prod.mk.inj he).1]
    by_cases hne : g.responses = []
    · rw [hne, List.length_nil, Nat.le_zero] at hle
      exact Or.inr ⟨hle, hne⟩
    · refine Or.inl (winner_eq_of_forall hne fun y hy => ?_)
      refine hw.heard.responses j g hg hj hk y.1 y.2 hy ?_
      rw [← hk]
      exact hwf.preferred (List.mem_append_left _ (List.mem_map_of_mem hy))
  · cases hres

/-- **Last write wins, up to the clock**, in every run of a deployment from a state at rest in which
nothing of the key is stored, where all keys are ones that a path carries. The puts of the key start
one by one, and all of them are complete; no put of the key starts after. Then every preferred node
holds, and every get that starts after returns, the first put with the clock reading of the last
one; and so the last one itself if its reading is larger than all before. A get returns nothing else
unless `r = 0` and nobody has answered. -/
theorem last_write_wins (d : Deployment cfg) {w0 w1 w2 : World} {acts acts' : List Act}
    (hq : Quiet w0) (hst : StoresCarried cfg w0) (hu : Unwritten cfg key w0)
    (hcar : ∀ a ∈ acts ++ acts', CarriedAct cfg a)
    (ha : Along d.step (fun w a => OneByOne cfg key w a ∧ Atomic a) acts w0)
    (h1 : run d.step acts w0 = some w1) (hc : ∀ p ∈ puts key w1, Complete cfg p)
    (ha' : ∀ a ∈ acts', NoPut key a ∧ Atomic a) (h2 : run d.step acts' w1 = some w2)
    {vs : List VersionedValue} {last : VersionedValue} (hv : versions key w1 = vs ++ [last]) :
    ∃ v, (vs ++ [last]).find? (fun u => u.timestamp = last.timestamp) = some v ∧
      ((∀ u ∈ vs, u.timestamp < last.timestamp) → v = last) ∧
      (∀ x ∈ cfg.preferred key, (w2.node x).localStore.get key = some v) ∧
      ∀ (j : ℕ) (g : GetProc), w1.procs.length ≤ j → w2.procs[j]? = some (.get g) → g.key = key →
        ∀ o, g.result = some (.ok o) → o = some v ∨ (cfg.r = 0 ∧ g.responses = []) := by
  obtain ⟨hcar1, hcar2⟩ := List.forall_mem_append.mp hcar
  have hcar0 : AllCarried cfg w0 := allCarried_of_quiet hq hst
  have ha := d.along_step hcar1 hcar0 h1 ha
  obtain ⟨h1, hcar1'⟩ := d.run_step hcar1 hcar0 h1
  obtain ⟨h2, -⟩ := d.run_step hcar2 hcar1' h2
  have hw := ordered_run (d.noSlash hcar1) ha h1 (ordered_of_unwritten hq hu)
  have hfind : newest key w1 = (vs ++ [last]).find? fun u => u.timestamp = last.timestamp := by
    rw [newest, hv]
    exact absorbAll_eq_find? (by rw [← hv]; exact hw.sorted)
  obtain ⟨v, hfv⟩ : ∃ v, (vs ++ [last]).find? (fun u => u.timestamp = last.timestamp) = some v :=
    Option.isSome_iff_exists.mp (List.find?_isSome.mpr ⟨last, by simp, by simp⟩)
  have hstart : Settled cfg key w1.procs.length (some v) w1 := by
    refine ⟨hw.inv, hw.issued, hfind.trans hfv, heard_start hw.inv.tags fun x hx => ?_⟩
    rw [stored_of_complete hw hc hx, hfind, hfv]
  have hs := settled_run (d.noSlash hcar2) ha' h2 hstart
  refine ⟨v, hfv, fun hlt => ?_, hs.heard.stores,
    fun j g hj hg hk o ho => result_of_settled hs hj hg hk ho⟩
  rcases List.mem_append.mp (List.mem_of_find?_eq_some hfv) with hm | hm
  · have hts : v.timestamp = last.timestamp := by simpa using List.find?_some hfv
    exact absurd hts (hlt v hm).ne
  · exact List.mem_singleton.mp hm

theorem unwritten_empty : Unwritten cfg key World.empty :=
  ⟨nofun, nofun, nofun, nofun, nofun, nofun⟩

/-- Two puts of one coordinator, at the clock readings `t` and `t'`. -/
def twoPuts (t t' : ℕ) : List Act :=
  [.put "b" [107] [1] t, .serve 0, .serve 0, .answer 0, .answer 0, .advance 0,
    .put "b" [107] [2] t', .serve 0, .serve 0, .answer 0, .answer 0, .advance 1]

/-- A get that hears from both preferred nodes. -/
def getFromBoth : List Act :=
  [.get "a" [107], .serve 0, .serve 0, .answer 0, .answer 0, .advance 2]

/-- With a larger reading, the get returns the last put. -/
theorem last_write_wins_newer : ∃ w1 w2,
    run twoOnLoopback.step (twoPuts 100 200) World.empty = some w1 ∧
    run twoOnLoopback.step getFromBoth w1 = some w2 ∧
    (∀ x ∈ twoOfThree.preferred [107], (w2.node x).localStore.get [107] = some ⟨200, [2]⟩) ∧
    ∃ g, w2.procs[2]? = some (.get g) ∧
      ∀ o, g.result = some (.ok o) → o = some ⟨200, [2]⟩ ∨ g.responses = [] := by
  have hc : ((run twoOnLoopback.step (twoPuts 100 200) World.empty).any fun w1 =>
      w1.procs.length = 2 ∧ (∀ p ∈ puts [107] w1, Complete twoOfThree p) ∧
      versions [107] w1 = [⟨100, [1]⟩, ⟨200, [2]⟩] ∧
      ((run twoOnLoopback.step getFromBoth w1).any fun w2 =>
        w2.procs[2]? = some (.get ⟨"a", [107], [], [("b", some ⟨200, [2]⟩), ("c", some ⟨200, [2]⟩)],
          some (.ok (some ⟨200, [2]⟩))⟩)) = true) = true := by decide +kernel
  obtain ⟨w1, h1, hw1⟩ := (Option.any_eq_true _ _).mp hc
  obtain ⟨hlen, hdone, hv, hw2⟩ := of_decide_eq_true hw1
  obtain ⟨w2, h2, hg⟩ := (Option.any_eq_true _ _).mp hw2
  have hv' : versions [107] w1 = [⟨100, [1]⟩] ++ [⟨200, [2]⟩] := hv
  have hcar : ∀ a ∈ twoPuts 100 200 ++ getFromBoth, CarriedAct twoOfThree a := by decide +kernel
  have hone : Along twoOnLoopback.step (fun w a => OneByOne twoOfThree [107] w a ∧ Atomic a)
      (twoPuts 100 200) World.empty := by decide +kernel
  obtain ⟨v, -, hlast, hst, hget⟩ := last_write_wins twoOnLoopback ⟨rfl, rfl, rfl, rfl⟩
    storesCarried_empty unwritten_empty hcar hone h1 hdone (by decide) h2 hv'
  obtain rfl := hlast (by decide)
  exact ⟨w1, w2, h1, h2, hst, _, of_decide_eq_true hg, fun o ho =>
    (hget 2 _ hlen.le (of_decide_eq_true hg) rfl o ho).imp_right And.right⟩

/-- While the first put runs, a get reads one node before and one after the write, and the repair
that it sends passes its check. -/
def repairChecked : List Act :=
  [.put "b" [107] [1] 100, .serve 0, .get "b" [107], .serve 1, .serve 1, .answer 1, .answer 1,
    .advance 1, .check 1, .serve 0, .answer 0, .answer 0, .advance 0,
    .put "b" [107] [2] 200, .serve 0, .serve 0, .answer 0, .answer 0, .advance 2]

/-- The repair writes, and a get reads only that node. -/
def getAfterRepair : List Act :=
  [.write 0, .get "c" [107], .serve 1, .answer 1, .fail 3 "b" false, .advance 3]

/-- After the puts of `acts`, one by one and all complete, get `i` of `acts'` returns `o`. -/
def Returns (acts acts' : List Act) (i : ℕ) (o : Option VersionedValue) : Prop :=
  ∃ w1 w2, run twoOnLoopback.step acts World.empty = some w1 ∧
    (∀ p ∈ puts [107] w1, Complete twoOfThree p) ∧ w1.procs.length ≤ i ∧
    run twoOnLoopback.step acts' w1 = some w2 ∧
    ∃ g, w2.procs[i]? = some (.get g) ∧ g.key = [107] ∧ g.result = some (.ok o)

/-- **An acknowledged put is discarded**: with one clock reading for two puts, the first value
stays, and with increasing readings, a repair in two steps puts it back. -/
theorem second_put_discarded :
    (Along twoOnLoopback.step (OneByOne twoOfThree [107]) (twoPuts 100 100) World.empty ∧
      (∀ a ∈ getFromBoth, NoPut [107] a) ∧
      Returns (twoPuts 100 100) getFromBoth 2 (some ⟨100, [1]⟩)) ∧
    Along twoOnLoopback.step (OneByOne twoOfThree [107]) repairChecked World.empty ∧
      (∀ a ∈ getAfterRepair, NoPut [107] a) ∧
      Returns repairChecked getAfterRepair 3 (some ⟨100, [1]⟩) := by
  have hr : ∀ acts acts' i (g : GetProc) o, g.key = [107] → g.result = some (.ok o) →
      ((run twoOnLoopback.step acts World.empty).any fun w1 =>
        (∀ p ∈ puts [107] w1, Complete twoOfThree p) ∧ w1.procs.length ≤ i ∧
        ((run twoOnLoopback.step acts' w1).any fun w2 => w2.procs[i]? = some (.get g)) = true) =
          true → Returns acts acts' i o := by
    intro acts acts' i g o hk ho h
    obtain ⟨w1, h1, hw1⟩ := (Option.any_eq_true _ _).mp h
    obtain ⟨hdone, hlen, hw2⟩ := of_decide_eq_true hw1
    obtain ⟨w2, h2, hg⟩ := (Option.any_eq_true _ _).mp hw2
    exact ⟨w1, w2, h1, hdone, hlen, h2, g, of_decide_eq_true hg, hk, ho⟩
  refine ⟨⟨by decide +kernel, by decide, hr _ _ _ ⟨"a", [107], [], [("b", some ⟨100, [1]⟩),
    ("c", some ⟨100, [1]⟩)], some (.ok (some ⟨100, [1]⟩))⟩ _ rfl rfl (by decide +kernel)⟩,
    by decide +kernel, by decide, hr _ _ _ ⟨"c", [107], [], [("c", some ⟨100, [1]⟩)],
      some (.ok (some ⟨100, [1]⟩))⟩ _ rfl rfl (by decide +kernel)⟩

end Diynamo.System.Sequential
