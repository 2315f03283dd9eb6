import Mathlib.Data.Nat.Notation
import Mathlib.Logic.Basic

/-! # Runs of a labelled transition system

A system is a partial step function `step : σ → α → Option σ`: the action carries every choice, so a
run is determined by its list of actions. `run` composes the steps, `Along G` says that every action
of the run meets the condition `G` in the state before it.

* `run_invariant`, `run_invariant_along`: what every (allowed) step preserves, a run preserves;
* `along_iff`: a condition along a run, as one on the actions after each prefix of it;
* `along_of_invariant`: with an invariant, a condition on the steps implies another one;
* `run_simulates`: if the steps of one system are answered by runs of another, so are its runs;
* `run_congr`: two systems that step alike on an invariant run alike;
* `run_refines`, `along_refines`: if one of them may lack steps, it has no other runs;
* `run_compress`, `exists_run_of_measure`: if every step that changes the state lowers a measure, a
  run is one of no more steps than the measure, and some run goes on to the end. -/

namespace Diynamo.Lib.Run

variable {σ α : Type} (step : σ → α → Option σ)

/-- **The run** of a list of actions. -/
def run : List α → σ → Option σ
  | [], s => some s
  | a :: as, s => (step s a).bind (run as)

/-- Every action of the run meets `G` in the state before it. -/
def Along (G : σ → α → Prop) : List α → σ → Prop
  | [], _ => True
  | a :: as, s => G s a ∧ ∀ s', step s a = some s' → Along G as s'

instance decidableAlong (G : σ → α → Prop) [∀ s a, Decidable (G s a)] :
    ∀ (as : List α) (s : σ), Decidable (Along step G as s)
  | [], _ => isTrue trivial
  | a :: as, s =>
    match h : step s a with
    | none => decidable_of_iff (G s a) (by simp [Along, h])
    | some s1 =>
      have := decidableAlong G as s1
      decidable_of_iff (G s a ∧ Along step G as s1) (by simp [Along, h])

variable {step}

theorem run_cons_eq_some {a : α} {as : List α} {s s' : σ} :
    run step (a :: as) s = some s' ↔ ∃ s1, step s a = some s1 ∧ run step as s1 = some s' := by
  rw [run, Option.bind_eq_some_iff]

theorem run_singleton {a : α} {s s' : σ} (h : step s a = some s') : run step [a] s = some s' :=
  run_cons_eq_some.mpr ⟨s', h, rfl⟩

theorem run_append : ∀ {as bs : List α} {s : σ},
    run step (as ++ bs) s = (run step as s).bind (run step bs)
  | [], _, _ => rfl
  | a :: as, bs, s => by
    rw [List.cons_append, run, run]
    cases h : step s a with
    | none => rfl
    | some s1 => exact run_append (s := s1)

theorem run_append_eq_some {as bs : List α} {s s' : σ} :
    run step (as ++ bs) s = some s' ↔
      ∃ s1, run step as s = some s1 ∧ run step bs s1 = some s' := by
  rw [run_append, Option.bind_eq_some_iff]

/-- **Invariant rule**, for the runs whose steps all meet `G`. -/
theorem run_invariant_along {I : σ → Prop} {G : σ → α → Prop}
    (hI : ∀ s a s', I s → G s a → step s a = some s' → I s') :
    ∀ {as : List α} {s s' : σ}, Along step G as s → run step as s = some s' → I s → I s'
  | [], _, _, _, hr, h => by rwa [← Option.some.inj hr]
  | a :: _, s, _, hG, hr, h => by
    obtain ⟨s1, h1, hr1⟩ := run_cons_eq_some.mp hr
    exact run_invariant_along hI (hG.2 s1 h1) hr1 (hI s a s1 h hG.1 h1)

theorem along_of_forall {G : σ → α → Prop} (h : ∀ s a, G s a) :
    ∀ (as : List α) (s : σ), Along step G as s
  | [], _ => trivial
  | a :: as, s => ⟨h s a, fun s' _ => along_of_forall h as s'⟩

/-- **Invariant rule.** -/
theorem run_invariant {I : σ → Prop} (hI : ∀ s a s', I s → step s a = some s' → I s')
    {as : List α} {s s' : σ} (hr : run step as s = some s') (h : I s) : I s' :=
  run_invariant_along (G := fun _ _ => True) (fun s a s' hs _ => hI s a s' hs)
    (along_of_forall (fun _ _ => trivial) as s) hr h

theorem along_of_forall_mem {C : α → Prop} : ∀ {as : List α} (s : σ), (∀ a ∈ as, C a) →
    Along step (fun _ a => C a) as s
  | [], _, _ => trivial
  | a :: _, _, h => ⟨h a List.mem_cons_self, fun s' _ =>
      along_of_forall_mem s' fun b hb => h b (List.mem_cons_of_mem _ hb)⟩

/-- **Invariant rule**, for the runs whose actions all meet `C`. -/
theorem run_invariant_mem {I : σ → Prop} {C : α → Prop}
    (hI : ∀ s a s', I s → C a → step s a = some s' → I s') {as : List α} {s s' : σ}
    (hC : ∀ a ∈ as, C a) (hr : run step as s = some s') (h : I s) : I s' :=
  run_invariant_along hI (along_of_forall_mem s hC) hr h

/-- A condition along a run in two parts. -/
theorem along_append {G : σ → α → Prop} : ∀ {as bs : List α} {s : σ},
    Along step G (as ++ bs) s ↔
      Along step G as s ∧ ∀ s1, run step as s = some s1 → Along step G bs s1
  | [], bs, s => by simp [Along, run]
  | a :: as, bs, s => by
    rw [List.cons_append, Along, Along]
    constructor
    · rintro ⟨ha, h⟩
      refine ⟨⟨ha, fun s1 h1 => (along_append.mp (h s1 h1)).1⟩, fun s2 hr => ?_⟩
      obtain ⟨s1, h1, hr⟩ := run_cons_eq_some.mp hr
      exact (along_append.mp (h s1 h1)).2 s2 hr
    · rintro ⟨⟨ha, h⟩, h'⟩
      exact ⟨ha, fun s1 h1 => along_append.mpr
        ⟨h s1 h1, fun s2 hr => h' s2 (run_cons_eq_some.mpr ⟨s1, h1, hr⟩)⟩⟩

theorem along_and {G P : σ → α → Prop} : ∀ {as : List α} {s : σ}, Along step G as s →
    Along step P as s → Along step (fun s a => G s a ∧ P s a) as s
  | [], _, _, _ => trivial
  | _ :: _, _, hG, hP => ⟨⟨hG.1, hP.1⟩, fun s' h => along_and (hG.2 s' h) (hP.2 s' h)⟩

/-- In a run that goes through, a condition that every step taken from an invariant meets. -/
theorem along_of_run {I : σ → Prop} {C : α → Prop} {G : σ → α → Prop}
    (hI : ∀ s a s', I s → C a → step s a = some s' → G s a ∧ I s') :
    ∀ {as : List α} {s s' : σ}, (∀ a ∈ as, C a) → run step as s = some s' → I s → Along step G as s
  | [], _, _, _, _, _ => trivial
  | a :: _, s, _, hC, hr, h => by
    obtain ⟨s1, h1, hr1⟩ := run_cons_eq_some.mp hr
    have hG := hI s a s1 h (hC a List.mem_cons_self) h1
    refine ⟨hG.1, fun s2 h2 => ?_⟩
    rw [← Option.some.inj (h1.symm.trans h2)]
    exact along_of_run hI (fun b hb => hC b (List.mem_cons_of_mem _ hb)) hr1 hG.2

/-- A condition holds along a run if and only if it holds of every action in the state before it. -/
theorem along_iff {G : σ → α → Prop} : ∀ {as : List α} {s : σ}, Along step G as s ↔
    ∀ bs a s', bs ++ [a] <+: as → run step bs s = some s' → G s' a
  | [], s => by simp [Along]
  | b :: as, s => by
    rw [Along]
    constructor
    · rintro ⟨hb, hG⟩ bs a s' hpre hr
      cases bs with
      | nil =>
        rw [List.nil_append, List.cons_prefix_cons] at hpre
        rw [← Option.some.inj hr, hpre.1]
        exact hb
      | cons c bs =>
        rw [List.cons_append, List.cons_prefix_cons] at hpre
        obtain ⟨s1, h1, hr1⟩ := run_cons_eq_some.mp hr
        exact along_iff.mp (hG s1 (hpre.1 ▸ h1)) bs a s' hpre.2 hr1
    · intro h
      refine ⟨h [] b s (List.cons_prefix_cons.mpr ⟨rfl, List.nil_prefix⟩) rfl, fun s1 h1 => ?_⟩
      exact along_iff.mpr fun bs a s' hpre hr => h (b :: bs) a s'
        (List.cons_prefix_cons.mpr ⟨rfl, hpre⟩) (run_cons_eq_some.mpr ⟨s1, h1, hr⟩)

/-- With an invariant, a condition on the steps of a run implies another one. -/
theorem along_of_invariant {I : σ → Prop} {G P : σ → α → Prop}
    (hI : ∀ s a s', I s → G s a → step s a = some s' → I s')
    (hP : ∀ s a, I s → G s a → P s a) :
    ∀ {as : List α} {s : σ}, I s → Along step G as s → Along step P as s
  | [], _, _, _ => trivial
  | a :: _, s, h, hG =>
    ⟨hP s a h hG.1, fun s' hs => along_of_invariant hI hP (hI s a s' h hG.1 hs) (hG.2 s' hs)⟩

/-- **Simulation rule.** A step may be answered by any number of steps of the other system. -/
theorem run_simulates {σ' α' : Type} {step' : σ' → α' → Option σ'} {R : σ → σ' → Prop}
    {C : α → Prop} (hR : ∀ s a s' r, R s r → C a → step s a = some s' →
      ∃ bs r', run step' bs r = some r' ∧ R s' r') :
    ∀ {as : List α} {s s' : σ} {r : σ'}, (∀ a ∈ as, C a) → run step as s = some s' → R s r →
      ∃ bs r', run step' bs r = some r' ∧ R s' r'
  | [], _, _, r, _, hr, h => by
    rw [← Option.some.inj hr]
    exact ⟨[], r, rfl, h⟩
  | a :: as, s, s', r, hC, hr, h => by
    obtain ⟨s1, h1, hr1⟩ := run_cons_eq_some.mp hr
    obtain ⟨bs, r1, hb, hR1⟩ := hR s a s1 r h (hC a List.mem_cons_self) h1
    obtain ⟨bs', r2, hb', hR2⟩ :=
      run_simulates hR (fun b hm => hC b (List.mem_cons_of_mem _ hm)) hr1 hR1
    exact ⟨bs ++ bs', r2, run_append_eq_some.mpr ⟨r1, hb, hb'⟩, hR2⟩

/-- **Congruence rule**, for the runs whose steps all meet `G`. -/
theorem run_congr {step' : σ → α → Option σ} {I : σ → Prop} {G : σ → α → Prop}
    (hI : ∀ s a s', I s → G s a → step s a = some s' → I s')
    (heq : ∀ s a, I s → G s a → step' s a = step s a) :
    ∀ {as : List α} {s : σ}, Along step G as s → I s → run step' as s = run step as s
  | [], _, _, _ => rfl
  | a :: as, s, hG, hs => by
    rw [run, run, heq s a hs hG.1]
    cases h : step s a with
    | none => rfl
    | some s1 => exact run_congr hI heq (hG.2 s1 h) (hI s a s1 hs hG.1 h)

section Refines

variable {step' : σ → α → Option σ} {I : σ → Prop} {C : α → Prop}
  (hI : ∀ s a s', I s → C a → step' s a = some s' → step s a = some s' ∧ I s')

include hI

/-- **Refinement rule**: a system whose steps from an invariant are steps of another one has no
other runs. -/
theorem run_refines : ∀ {as : List α} {s s' : σ}, (∀ a ∈ as, C a) → I s →
    run step' as s = some s' → run step as s = some s' ∧ I s'
  | [], _, _, _, hs, hr => ⟨hr, by rwa [← Option.some.inj hr]⟩
  | a :: as, s, s', hC, hs, hr => by
    obtain ⟨s1, h1, hr1⟩ := run_cons_eq_some.mp hr
    obtain ⟨h1', hs1⟩ := hI s a s1 hs (hC a List.mem_cons_self) h1
    obtain ⟨hrun, hs'⟩ := run_refines (fun b hb => hC b (List.mem_cons_of_mem _ hb)) hs1 hr1
    exact ⟨run_cons_eq_some.mpr ⟨s1, h1', hrun⟩, hs'⟩

/-- A condition along the run of one is a condition along the run of the other. -/
theorem along_refines {G : σ → α → Prop} : ∀ {as : List α} {s s' : σ}, (∀ a ∈ as, C a) → I s →
    run step' as s = some s' → Along step' G as s → Along step G as s
  | [], _, _, _, _, _, _ => trivial
  | a :: as, s, s', hC, hs, hr, hG => by
    obtain ⟨s1, h1, hr1⟩ := run_cons_eq_some.mp hr
    obtain ⟨h1', hs1⟩ := hI s a s1 hs (hC a List.mem_cons_self) h1
    refine ⟨hG.1, fun s2 h2 => ?_⟩
    obtain rfl := Option.some.inj (h1'.symm.trans h2)
    exact along_refines (fun b hb => hC b (List.mem_cons_of_mem _ hb)) hs1 hr1 (hG.2 s1 h1)

end Refines

/-- **Measure rule.** Without the steps that change nothing, a run is not longer than the measure of
the state where it starts. -/
theorem run_compress {μ : σ → ℕ} {C : α → Prop}
    (hμ : ∀ s a s', C a → step s a = some s' → s' = s ∨ μ s' < μ s) :
    ∀ {as : List α} {s s' : σ}, (∀ a ∈ as, C a) → run step as s = some s' →
      ∃ bs, bs.Sublist as ∧ bs.length + μ s' ≤ μ s ∧ run step bs s = some s'
  | [], s, s', _, hr => by
    obtain rfl := Option.some.inj hr
    exact ⟨[], List.Sublist.refl _, by simp, rfl⟩
  | a :: as, s, s', hC, hr => by
    obtain ⟨s1, h1, hr1⟩ := run_cons_eq_some.mp hr
    obtain ⟨bs, hsub, hlen, hb⟩ :=
      run_compress hμ (fun b hb => hC b (List.mem_cons_of_mem _ hb)) hr1
    rcases hμ s a s1 (hC a List.mem_cons_self) h1 with rfl | hlt
    · exact ⟨bs, hsub.cons a, hlen, hb⟩
    · refine ⟨a :: bs, hsub.cons_cons a, ?_, run_cons_eq_some.mpr ⟨s1, h1, hb⟩⟩
      rw [List.length_cons]
      omega

/-- **Progress rule.** If a step that lowers the measure is possible as long as the end is not
reached, some run reaches it. -/
theorem exists_run_of_measure {μ : σ → ℕ} {C : α → Prop} {I Done : σ → Prop}
    (hI : ∀ s a s', I s → C a → step s a = some s' → I s')
    (hstep : ∀ s, I s → Done s ∨ ∃ a s', C a ∧ step s a = some s' ∧ μ s' < μ s) {s : σ} (hs : I s) :
    ∃ as s', (∀ a ∈ as, C a) ∧ as.length ≤ μ s ∧ run step as s = some s' ∧ Done s' := by
  induction hn : μ s using Nat.strongRecOn generalizing s with
  | ind n ih =>
    rcases hstep s hs with hdone | ⟨a, s1, ha, h1, hlt⟩
    · exact ⟨[], s, nofun, Nat.zero_le _, rfl, hdone⟩
    · obtain ⟨as, s', hC, hlen, hr, hdone⟩ := ih (μ s1) (hn ▸ hlt) (hI s a s1 hs ha h1) rfl
      refine ⟨a :: as, s', List.forall_mem_cons.mpr ⟨ha, hC⟩, ?_,
        run_cons_eq_some.mpr ⟨s1, h1, hr⟩, hdone⟩
      rw [List.length_cons]
      omega

end Diynamo.Lib.Run
