import Mathlib.Data.List.Induction
import Mathlib.Order.MinMax
import Mathlib.Order.WithBot
import Mathlib.Tactic.SplitIfs

/-! # Last-write-wins registers

A register holds at most one value, and every value has a stamp in a linear order. `absorb` offers a
value to a register: it is taken only if its stamp is strictly above the stamp held, so among equal
stamps the first arrival stays. `maxByKey` is the choice of a reader: the last value with a maximal
stamp.

* `rank_absorbAll`: the stamp of a register is the maximum of what was offered, in any order and
  with any duplicates; it never decreases (`rank_le_absorbAll`);
* `absorbAll_eq_of_newest`: a value whose stamp nothing else reaches ends in the register;
* `absorbAll_eq_absorb_of_newest`: values that are not above one of them are as good as that one;
* `UpToLast`: values offered one after another, with late duplicates of the earlier ones. -/

namespace Diynamo.Lib.LastWrite

variable {ν τ : Type} (stamp : ν → τ)

/-- The stamp of a register, `⊥` if it is empty. -/
def rank (cur : Option ν) : WithBot τ := cur.elim ⊥ fun v => (stamp v : WithBot τ)

@[simp] theorem rank_none : rank stamp none = ⊥ := rfl

@[simp] theorem rank_some (v : ν) : rank stamp (some v) = (stamp v : WithBot τ) := rfl

variable [LinearOrder τ]

/-- **Offer a value to a register.** -/
def absorb (cur : Option ν) (v : ν) : Option ν :=
  match cur with
  | none => some v
  | some c => if stamp v ≤ stamp c then some c else some v

/-- Offer the values of a list, from the left. -/
def absorbAll (cur : Option ν) (vs : List ν) : Option ν := vs.foldl (absorb stamp) cur

/-- The last value with a maximal stamp. -/
def maxByKey (vs : List ν) : Option ν :=
  vs.foldl (fun acc v =>
    match acc with
    | none => some v
    | some a => if stamp v < stamp a then some a else some v) none

variable {stamp}

theorem absorb_of_le {cur : Option ν} {v : ν} (h : (stamp v : WithBot τ) ≤ rank stamp cur) :
    absorb stamp cur v = cur := by
  cases cur with
  | none => simp at h
  | some c => exact if_pos (WithBot.coe_le_coe.mp h)

theorem absorb_of_lt {cur : Option ν} {v : ν} (h : rank stamp cur < stamp v) :
    absorb stamp cur v = some v := by
  cases cur with
  | none => rfl
  | some c => exact if_neg (not_le.mpr (WithBot.coe_lt_coe.mp h))

variable (stamp) in
theorem absorb_cases (cur : Option ν) (v : ν) :
    ((stamp v : WithBot τ) ≤ rank stamp cur ∧ absorb stamp cur v = cur) ∨
      (rank stamp cur < stamp v ∧ absorb stamp cur v = some v) := by
  rcases le_or_gt (stamp v : WithBot τ) (rank stamp cur) with h | h
  · exact Or.inl ⟨h, absorb_of_le h⟩
  · exact Or.inr ⟨h, absorb_of_lt h⟩

variable (stamp) in
theorem rank_absorb (cur : Option ν) (v : ν) :
    rank stamp (absorb stamp cur v) = max (rank stamp cur) (stamp v) := by
  rcases absorb_cases stamp cur v with ⟨h, e⟩ | ⟨h, e⟩
  · rw [e, max_eq_left h]
  · rw [e, max_eq_right h.le, rank_some]

theorem rank_le_absorb (cur : Option ν) (v : ν) :
    rank stamp cur ≤ rank stamp (absorb stamp cur v) := by
  rw [rank_absorb stamp]; exact le_max_left _ _

variable (stamp) in
theorem le_rank_absorb (cur : Option ν) (v : ν) :
    (stamp v : WithBot τ) ≤ rank stamp (absorb stamp cur v) := by
  rw [rank_absorb]; exact le_max_right _ _

theorem rank_absorbAll_le {r : WithBot τ} : ∀ {vs : List ν} {cur : Option ν},
    rank stamp (absorbAll stamp cur vs) ≤ r ↔
      rank stamp cur ≤ r ∧ ∀ v ∈ vs, (stamp v : WithBot τ) ≤ r
  | [], cur => by simp [absorbAll]
  | v :: vs, cur => by
    rw [absorbAll, List.foldl_cons, ← absorbAll, rank_absorbAll_le, rank_absorb, max_le_iff,
      List.forall_mem_cons, and_assoc]

/-- **The stamp is the maximum of what was offered.** -/
theorem rank_absorbAll {vs : List ν} {cur : Option ν} :
    rank stamp cur ≤ rank stamp (absorbAll stamp cur vs) ∧
      ∀ v ∈ vs, (stamp v : WithBot τ) ≤ rank stamp (absorbAll stamp cur vs) :=
  rank_absorbAll_le.mp le_rfl

theorem absorbAll_mem : ∀ {vs : List ν} {cur : Option ν} {v : ν},
    absorbAll stamp cur vs = some v → cur = some v ∨ v ∈ vs
  | [], _, _, h => Or.inl h
  | w :: vs, cur, v, h => by
    rcases absorbAll_mem (show absorbAll stamp (absorb stamp cur w) vs = some v from h) with h | h
    · rcases absorb_cases stamp cur w with ⟨-, e⟩ | ⟨-, e⟩
      · exact Or.inl (e ▸ h)
      · rw [e] at h
        exact Or.inr (by rw [Option.some.inj h]; exact List.mem_cons_self)
    · exact Or.inr (List.mem_cons_of_mem _ h)

/-- **A value whose stamp nothing else reaches** ends in the register. -/
theorem absorbAll_eq_of_newest {vs : List ν} {cur : Option ν} {v : ν}
    (hv : cur = some v ∨ v ∈ vs)
    (hmax : ∀ w, cur = some w ∨ w ∈ vs → stamp w ≤ stamp v ∧ (stamp w = stamp v → w = v)) :
    absorbAll stamp cur vs = some v := by
  have hle : (stamp v : WithBot τ) ≤ rank stamp (absorbAll stamp cur vs) := by
    rcases hv with rfl | hv
    · rw [← rank_some stamp v]
      exact rank_absorbAll.1
    · exact rank_absorbAll.2 v hv
  cases hw : absorbAll stamp cur vs with
  | none => rw [hw] at hle; simp at hle
  | some w =>
    obtain ⟨h1, h2⟩ := hmax w (absorbAll_mem hw)
    rw [hw, rank_some, WithBot.coe_le_coe] at hle
    rw [h2 (le_antisymm h1 hle)]

theorem absorbAll_of_le : ∀ {vs : List ν} {cur : Option ν},
    (∀ v ∈ vs, (stamp v : WithBot τ) ≤ rank stamp cur) → absorbAll stamp cur vs = cur
  | [], _, _ => rfl
  | v :: vs, cur, h => by
    rw [absorbAll, List.foldl_cons, absorb_of_le (h v List.mem_cons_self)]
    exact absorbAll_of_le fun w hw => h w (List.mem_cons_of_mem _ hw)

/-- **A value that none of the others exceeds** decides for all of them. -/
theorem absorbAll_eq_absorb_of_newest {vs : List ν} {v : ν} (cur : Option ν) (hv : v ∈ vs)
    (hmax : ∀ w ∈ vs, stamp w ≤ stamp v ∧ (stamp w = stamp v → w = v)) :
    absorbAll stamp cur vs = absorb stamp cur v := by
  rcases absorb_cases stamp cur v with ⟨hle, e⟩ | ⟨hlt, e⟩
  · rw [e]
    exact absorbAll_of_le fun w hw => (WithBot.coe_le_coe.mpr (hmax w hw).1).trans hle
  · rw [e]
    refine absorbAll_eq_of_newest (Or.inr hv) fun w hw => ?_
    rcases hw with rfl | hw
    · rw [rank_some, WithBot.coe_lt_coe] at hlt
      exact ⟨hlt.le, fun he => absurd he hlt.ne⟩
    · exact hmax w hw

/-! ### One value after another -/

theorem absorbAll_concat (cur : Option ν) (vs : List ν) (v : ν) :
    absorbAll stamp cur (vs ++ [v]) = absorb stamp (absorbAll stamp cur vs) v := by
  simp only [absorbAll, List.foldl_append, List.foldl_cons, List.foldl_nil]

variable (stamp) in
/-- A register that was offered the values of the list one after another, the last one perhaps not
yet. -/
def UpToLast (vs : List ν) (cur : Option ν) : Prop :=
  cur = absorbAll stamp none vs ∨ cur = absorbAll stamp none vs.dropLast

/-- The next value has not yet arrived. -/
theorem upToLast_concat (vs : List ν) (v : ν) :
    UpToLast stamp (vs ++ [v]) (absorbAll stamp none vs) :=
  Or.inr (by rw [List.dropLast_concat])

/-- **Late duplicates** of earlier values change nothing. -/
theorem UpToLast.absorb {vs : List ν} {cur : Option ν} (h : UpToLast stamp vs cur) {v : ν}
    (hv : v ∈ vs) : UpToLast stamp vs (LastWrite.absorb stamp cur v) := by
  rcases h with rfl | rfl
  · exact Or.inl (absorb_of_le (rank_absorbAll.2 v hv))
  · cases vs using List.reverseRecOn with
    | nil => cases hv
    | append_singleton us u =>
      rw [List.dropLast_concat]
      rcases List.mem_append.mp hv with hv | hv
      · rw [absorb_of_le (rank_absorbAll.2 v hv)]
        exact upToLast_concat us u
      · rw [List.mem_singleton.mp hv, ← absorbAll_concat]
        exact Or.inl rfl

/-- A register that has reached every stamp has seen the last value. -/
theorem UpToLast.eq_of_reached {vs : List ν} {cur : Option ν} (h : UpToLast stamp vs cur)
    (hr : ∀ v ∈ vs, (stamp v : WithBot τ) ≤ rank stamp cur) : cur = absorbAll stamp none vs := by
  rcases h with h | h
  · exact h
  · cases vs using List.reverseRecOn with
    | nil => exact h
    | append_singleton us u =>
      rw [List.dropLast_concat] at h
      subst h
      rw [absorbAll_concat, absorb_of_le (hr u (by simp))]

/-- **Values whose stamps do not decrease**: the register keeps the first one with the last stamp.
-/
theorem absorbAll_eq_find? {vs : List ν} {v : ν}
    (hs : (vs ++ [v]).Pairwise fun a b => stamp a ≤ stamp b) :
    absorbAll stamp none (vs ++ [v]) = (vs ++ [v]).find? fun a => stamp a = stamp v := by
  induction vs using List.reverseRecOn generalizing v with
  | nil => simp [absorbAll, absorb]
  | append_singleton us u ih =>
    obtain ⟨hus, -, huv⟩ := List.pairwise_append.mp hs
    obtain ⟨-, -, husu⟩ := List.pairwise_append.mp hus
    have hle : stamp u ≤ stamp v := huv u (by simp) v (by simp)
    obtain ⟨b, hb⟩ : ∃ b, (us ++ [u]).find? (fun a => stamp a = stamp u) = some b :=
      Option.isSome_iff_exists.mp (List.find?_isSome.mpr ⟨u, by simp, by simp⟩)
    have hbu : stamp b = stamp u := by simpa using List.find?_some hb
    rw [absorbAll_concat, ih hus, hb, List.find?_append]
    rcases hle.eq_or_lt with he | hlt
    · rw [← he, hb, Option.some_or, absorb_of_le (by rw [rank_some, hbu, he])]
    · have hnone : (us ++ [u]).find? (fun a => stamp a = stamp v) = none := by
        rw [List.find?_eq_none]
        intro a ha hav
        have hau : stamp a ≤ stamp u := by
          rcases List.mem_append.mp ha with ha | ha
          · exact husu a ha u (by simp)
          · rw [List.mem_singleton.mp ha]
        exact absurd (of_decide_eq_true hav) (hau.trans_lt hlt).ne
      rw [hnone, absorb_of_lt (by rw [rank_some, hbu]; exact WithBot.coe_lt_coe.mpr hlt)]
      simp

/-! ### The reader's choice -/

theorem maxByKey_concat (vs : List ν) (v : ν) :
    maxByKey stamp (vs ++ [v]) =
      match maxByKey stamp vs with
      | none => some v
      | some a => if stamp v < stamp a then some a else some v := by
  simp only [maxByKey, List.foldl_append, List.foldl_cons, List.foldl_nil]

variable (stamp) in
/-- **The chosen value** is one of the list, and its stamp is maximal; the empty list has none. -/
theorem maxByKey_spec (vs : List ν) :
    (maxByKey stamp vs = none ∧ vs = []) ∨
      ∃ m, maxByKey stamp vs = some m ∧ m ∈ vs ∧ ∀ v ∈ vs, stamp v ≤ stamp m := by
  induction vs using List.reverseRecOn with
  | nil => exact Or.inl ⟨rfl, rfl⟩
  | append_singleton vs v ih =>
    right
    rw [maxByKey_concat]
    rcases ih with ⟨e, rfl⟩ | ⟨m, e, hm, hle⟩
    · exact ⟨v, by rw [e], by simp, by simp⟩
    · rw [e]
      simp only
      split_ifs with h
      · refine ⟨m, rfl, List.mem_append_left _ hm, fun w hw => ?_⟩
        rcases List.mem_append.mp hw with hw | hw
        · exact hle w hw
        · rw [List.mem_singleton.mp hw]; exact h.le
      · refine ⟨v, rfl, by simp, fun w hw => ?_⟩
        rcases List.mem_append.mp hw with hw | hw
        · exact (hle w hw).trans (not_lt.mp h)
        · rw [List.mem_singleton.mp hw]

theorem maxByKey_mem {vs : List ν} {m : ν} (h : maxByKey stamp vs = some m) : m ∈ vs := by
  rcases maxByKey_spec stamp vs with ⟨e, -⟩ | ⟨m', e, hm, -⟩
  · simp [e] at h
  · rw [e] at h; rwa [← Option.some.inj h]

theorem le_maxByKey {vs : List ν} {m v : ν} (h : maxByKey stamp vs = some m) (hv : v ∈ vs) :
    stamp v ≤ stamp m := by
  rcases maxByKey_spec stamp vs with ⟨e, -⟩ | ⟨m', e, -, hle⟩
  · simp [e] at h
  · rw [e] at h; rw [← Option.some.inj h]; exact hle v hv

theorem maxByKey_eq_none {vs : List ν} : maxByKey stamp vs = none ↔ vs = [] := by
  rcases maxByKey_spec stamp vs with ⟨e, rfl⟩ | ⟨m, e, hm, -⟩
  · exact ⟨fun _ => rfl, fun _ => e⟩
  · exact ⟨fun h => (by simp [e] at h), fun h => (by simp [h] at hm)⟩

/-- A list of copies of one value is decided by that value. -/
theorem maxByKey_eq_of_forall {vs : List ν} {v : ν} (hne : vs ≠ []) (h : ∀ w ∈ vs, w = v) :
    maxByKey stamp vs = some v := by
  rcases maxByKey_spec stamp vs with ⟨-, e⟩ | ⟨m, e, hm, -⟩
  · exact absurd e hne
  · rw [e, h m hm]

end Diynamo.Lib.LastWrite
