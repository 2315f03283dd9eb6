import Diynamo.Cluster.Agreement
import Diynamo.Lib.Run
import Diynamo.System.Step

/-! # Every process with its own rings

The system has one ring for all. In the cluster every node reads its own configuration file and
builds two rings from it, the coordinator's and the one of its handoff task (`ownStep`). With
rosters of the same members, in any order, and a hash ring that does not depend on the order of the
nodes, the two systems are the same (`own_rings_run`). -/

namespace Diynamo.System.OwnRings

open Diynamo.Lib.Run Diynamo.Lib.Utf8 Diynamo.Store.Hints Diynamo.Cluster.Ring
  Diynamo.Cluster.Agreement Diynamo.Coordinator.Roster Diynamo.System.Step

/-- **The configuration that an action reads**: the one of the coordinator, or the one of the
handoff task. The other actions read none. -/
def configOf (own handoff : NodeId → Cluster) (w : World) : Act → Cluster
  | .put c _ _ _ => own c
  | .get c _ => own c
  | .advance i =>
    match w.procs[i]? with
    | some (.put p) => own p.coordinator
    | some (.get g) => own g.coordinator
    | some (.deliver x _) => handoff x
    | some (.reconcile q) => handoff q.self
    | none => own ""
  | _ => own ""

/-- **One step**, with the rings of the process that takes it. -/
def ownStep (own handoff : NodeId → Cluster) (w : World) (a : Act) : Option World :=
  step (configOf own handoff w a) w a

/-- The same numbers, and rosters of the same members. -/
structure SameMembers (cfg cfg' : Cluster) : Prop where
  hashRing : cfg'.hashRing = cfg.hashRing
  roster : cfg'.roster.Perm cfg.roster
  n : cfg'.n = cfg.n
  w : cfg'.w = cfg.w
  r : cfg'.r = cfg.r
  vnodes : cfg'.vnodes = cfg.vnodes

variable {cfg cfg' : Cluster}

/-- **The rings of the same members** are the same for the system. -/
theorem rings_eq (hfree : OrderFree cfg.hashRing)
    (hd : (cfg.roster.map ClusterMember.id).Nodup) (hs : SameMembers cfg cfg') :
    cfg'.ringOrder = cfg.ringOrder ∧ cfg'.preferenceList = cfg.preferenceList := by
  have hd' : (cfg'.roster.map ClusterMember.id).Nodup := (hs.roster.map _).nodup_iff.mpr hd
  obtain ⟨hp, hrep, hv, -⟩ := builds_spec (builds_of_fromRoster cfg.built) hd
  obtain ⟨hp', hrep', hv', -⟩ := builds_spec (builds_of_fromRoster cfg'.built) hd'
  have hmem : cfg'.ring.membersById.Perm cfg.ring.membersById :=
    (hp'.trans (hs.roster.map _)).trans hp.symm
  have hlen := hs.roster.length_eq
  have hv : cfg'.ring.vnodes = cfg.ring.vnodes := by rw [hv, hv', hs.vnodes]
  have horder : ∀ key, cfg'.ring.ringOrderForKey cfg'.hashRing key =
      cfg.ring.ringOrderForKey cfg.hashRing key := fun key => by
    rw [hs.hashRing]
    exact ringOrderForKey_congr hfree hmem (by omega) hv key
  constructor
  · funext key
    rw [Cluster.ringOrder, Cluster.ringOrder, horder]
  · funext key
    have hpref : cfg'.ring.preferenceListForKey cfg'.hashRing key cfg'.n =
        cfg.ring.preferenceListForKey cfg.hashRing key cfg.n := by
      rw [hs.hashRing, hs.n]
      exact preferenceListForKey_congr hfree hmem (by omega) hv key cfg.n
    rw [Cluster.preferenceList, Cluster.preferenceList, hpref]

/-- A step reads the two lists of a key and the three numbers, and nothing else. -/
theorem step_congr (hring : cfg'.ringOrder = cfg.ringOrder)
    (hpref : cfg'.preferenceList = cfg.preferenceList) (hn : cfg'.n = cfg.n) (hw : cfg'.w = cfg.w)
    (hr : cfg'.r = cfg.r) (w : World) (a : Act) : step cfg' w a = step cfg w a := by
  cases a with
  | put c key value now => simp only [step, startPut, hring, hn]
  | get c key => simp only [step, hpref]
  | advance i =>
    have hpreferred : cfg'.preferred = cfg.preferred := by
      funext key
      rw [Cluster.preferred, Cluster.preferred, hpref]
    have hadv : ∀ p : Proc, p.advance cfg' = p.advance cfg := by
      intro p
      cases p <;> simp only [Proc.advance, PutProc.advance, GetProc.advance,
        ReconcileProc.advance, hpreferred, hn, hw, hr]
    have hsends : ∀ p : Proc, p.sends cfg' = p.sends cfg := by
      intro p
      cases p <;> simp only [Proc.sends, GetProc.sends, hr]
    simp only [step, hadv, hsends]
  | _ => rfl

theorem step_of_sameMembers (hfree : OrderFree cfg.hashRing)
    (hd : (cfg.roster.map ClusterMember.id).Nodup) (hs : SameMembers cfg cfg') :
    step cfg' = step cfg := by
  obtain ⟨hring, hpref⟩ := rings_eq hfree hd hs
  funext w a
  exact step_congr hring hpref hs.n hs.w hs.r w a

/-- **The cluster in which every process has its own rings** is the one with a shared ring, in every
run, if all rosters have the same members with distinct ids, and all else in the configuration is
the same everywhere. -/
theorem own_rings_run (hfree : OrderFree cfg.hashRing)
    (hd : (cfg.roster.map ClusterMember.id).Nodup) {own handoff : NodeId → Cluster}
    (hown : ∀ x, SameMembers cfg (own x)) (hhandoff : ∀ x, SameMembers cfg (handoff x))
    (acts : List Act) (w : World) :
    run (ownStep own handoff) acts w = run (step cfg) acts w := by
  have hconfig : ∀ w a, SameMembers cfg (configOf own handoff w a) := by
    intro w a
    unfold configOf
    split
    · exact hown _
    · exact hown _
    · split
      · exact hown _
      · exact hown _
      · exact hhandoff _
      · exact hhandoff _
      · exact hown _
    · exact hown _
  have hstep : ownStep own handoff = step cfg := by
    funext w a
    rw [ownStep, step_of_sameMembers hfree hd (hconfig w a)]
  rw [hstep]

/-- Two preferred nodes, with a ring that sorts by id. -/
def sortedCluster (roster : List ClusterMember) (hne : roster ≠ []) (hn : 2 ≤ roster.length) :
    Cluster := .ofRoster hashRingById roster 2 2 1 1 hne hn

/-- Node `c` lists the members in another order than `b`, and so do all handoff tasks. -/
theorem own_rings_run_shuffled :
    let cfg := sortedCluster [.loopback "b" 2, .loopback "c" 3] (by decide) (by decide)
    let cfg' := sortedCluster [.loopback "c" 3, .loopback "b" 2] (by decide) (by decide)
    let acts : List Act := [.put "c" [107] [1] 100, .serve 0, .serve 0, .answer 0, .answer 0,
      .advance 0, .get "b" [107]]
    run (ownStep (fun x => if x = "c" then cfg' else cfg) fun _ => cfg') acts World.empty =
        run (step cfg) acts World.empty ∧
      (run (step cfg) acts World.empty).isSome = true := by
  intro cfg cfg' acts
  have hsame : SameMembers cfg cfg := ⟨rfl, .refl _, rfl, rfl, rfl, rfl⟩
  have hsame' : SameMembers cfg cfg' := by
    refine ⟨rfl, ?_, rfl, rfl, rfl, rfl⟩
    change [ClusterMember.loopback "c" 3, .loopback "b" 2].Perm
      [.loopback "b" 2, .loopback "c" 3]
    decide
  refine ⟨own_rings_run orderFree_hashRingById ?_ (fun x => ?_) (fun _ => hsame') acts World.empty,
    by decide⟩
  · change ([ClusterMember.loopback "b" 2, .loopback "c" 3].map ClusterMember.id).Nodup
    decide
  · split_ifs
    · exact hsame'
    · exact hsame

end Diynamo.System.OwnRings
