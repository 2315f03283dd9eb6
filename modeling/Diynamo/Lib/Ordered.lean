import Mathlib.Data.List.Lex
import Mathlib.Data.List.Sort
import Mathlib.Tactic.SplitIfs

/-! # Ordered maps

A finite map as the list of its entries in strictly increasing key order, the interface of an
ordered key-value store: `get`, `put`, `delete`, and forward iteration from a key (`iterFrom`). The
order of the entries is part of the type.

For keys that are lists, `scan p` is the loop that starts at `p` and stops at the first key without
the prefix `p`. It visits exactly the entries with that prefix (`scan_eq_filter`): in the
lexicographic order they form an interval that starts at `p`. -/

namespace Diynamo.Lib.Ordered

variable {κ ν : Type} [LinearOrder κ]

/-- Entries with strictly increasing keys. -/
def Increasing (l : List (κ × ν)) : Prop := l.Pairwise fun a b => a.1 < b.1

/-- The value of the first entry with key `k`. -/
def lookup (k : κ) : List (κ × ν) → Option ν
  | [] => none
  | (k', v') :: l => if k' = k then some v' else lookup k l

/-- Insertion at the place of `k`, replacing an entry with that key. -/
def insert (k : κ) (v : ν) : List (κ × ν) → List (κ × ν)
  | [] => [(k, v)]
  | (k', v') :: l =>
    if k < k' then (k, v) :: (k', v') :: l
    else if k' = k then (k, v) :: l
    else (k', v') :: insert k v l

theorem mem_insert {k : κ} {v : ν} {e : κ × ν} :
    ∀ {l : List (κ × ν)}, e ∈ insert k v l → e = (k, v) ∨ e ∈ l
  | [], h => by simpa [insert] using h
  | (k', v') :: l, h => by
    unfold insert at h
    split_ifs at h with h1 h2
    · rcases List.mem_cons.mp h with h | h
      · exact Or.inl h
      · exact Or.inr h
    · rcases List.mem_cons.mp h with h | h
      · exact Or.inl h
      · exact Or.inr (List.mem_cons_of_mem _ h)
    · rcases List.mem_cons.mp h with h | h
      · exact Or.inr (by rw [h]; exact List.mem_cons_self)
      · rcases mem_insert h with h | h
        · exact Or.inl h
        · exact Or.inr (List.mem_cons_of_mem _ h)

theorem increasing_insert {k : κ} {v : ν} :
    ∀ {l : List (κ × ν)}, Increasing l → Increasing (insert k v l)
  | [], _ => List.pairwise_singleton _ _
  | (k', v') :: l, h => by
    obtain ⟨hk', hl⟩ := List.pairwise_cons.mp h
    unfold insert
    split_ifs with h1 h2
    · refine List.pairwise_cons.mpr ⟨fun e he => ?_, h⟩
      rcases List.mem_cons.mp he with rfl | he
      · exact h1
      · exact lt_trans h1 (hk' e he)
    · subst h2
      exact List.pairwise_cons.mpr ⟨hk', hl⟩
    · refine List.pairwise_cons.mpr ⟨fun e he => ?_, increasing_insert hl⟩
      rcases mem_insert he with rfl | he
      · exact lt_of_le_of_ne (not_lt.mp h1) h2
      · exact hk' e he

theorem lookup_insert_self (k : κ) (v : ν) :
    ∀ l : List (κ × ν), lookup k (insert k v l) = some v
  | [] => by simp [insert, lookup]
  | (k', v') :: l => by
    unfold insert
    split_ifs with h1 h2
    · simp [lookup]
    · simp [lookup]
    · rw [lookup, if_neg h2, lookup_insert_self k v l]

theorem lookup_insert_of_ne {k j : κ} (v : ν) (h : j ≠ k) :
    ∀ l : List (κ × ν), lookup j (insert k v l) = lookup j l
  | [] => by simp [insert, lookup, Ne.symm h]
  | (k', v') :: l => by
    unfold insert
    split_ifs with h1 h2
    · rw [lookup, if_neg (Ne.symm h)]
    · subst h2
      rw [lookup, lookup, if_neg (Ne.symm h), if_neg (Ne.symm h)]
    · rw [lookup, lookup, lookup_insert_of_ne v h l]

theorem lookup_eq_some {k : κ} {v : ν} :
    ∀ {l : List (κ × ν)}, Increasing l → (lookup k l = some v ↔ (k, v) ∈ l)
  | [], _ => by simp [lookup]
  | (k', v') :: l, h => by
    obtain ⟨hk', hl⟩ := List.pairwise_cons.mp h
    rw [lookup]
    split_ifs with h1
    · subst h1
      constructor
      · intro hv
        rw [Option.some.inj hv]
        exact List.mem_cons_self
      · intro hm
        rcases List.mem_cons.mp hm with hm | hm
        · rw [(Prod.mk.inj hm).2]
        · exact absurd (hk' _ hm) (lt_irrefl _)
    · rw [lookup_eq_some hl]
      constructor
      · exact List.mem_cons_of_mem _
      · intro hm
        rcases List.mem_cons.mp hm with hm | hm
        · exact absurd (Prod.mk.inj hm).1.symm h1
        · exact hm

theorem lookup_filter_ne {k j : κ} : ∀ l : List (κ × ν),
    lookup j (l.filter fun e => e.1 ≠ k) = if j = k then none else lookup j l
  | [] => by simp [lookup]
  | (k', v') :: l => by
    have ih := lookup_filter_ne (k := k) (j := j) l
    by_cases h1 : k' = k
    · subst h1
      rw [List.filter_cons_of_neg (by simp), ih, lookup]
      split_ifs with h2 h3
      · rfl
      · exact absurd h3.symm h2
      · rfl
    · rw [List.filter_cons_of_pos (by simpa using h1), lookup, ih, lookup]
      split_ifs with h2 h3 h3
      · subst h2; exact absurd h3 h1
      · rfl
      · rfl
      · rfl

variable (κ ν) in
/-- **An ordered map.** -/
@[ext] structure OrdMap where
  entries : List (κ × ν)
  increasing : Increasing entries

namespace OrdMap

/-- The empty map. -/
def empty : OrdMap κ ν := ⟨[], List.Pairwise.nil⟩

def get (m : OrdMap κ ν) (k : κ) : Option ν := lookup k m.entries

def put (m : OrdMap κ ν) (k : κ) (v : ν) : OrdMap κ ν :=
  ⟨insert k v m.entries, increasing_insert m.increasing⟩

def delete (m : OrdMap κ ν) (k : κ) : OrdMap κ ν :=
  ⟨m.entries.filter fun e => e.1 ≠ k, m.increasing.filter _⟩

/-- Forward iteration from the first key that is not below `k`. -/
def iterFrom (m : OrdMap κ ν) (k : κ) : List (κ × ν) := m.entries.dropWhile fun e => e.1 < k

@[simp] theorem get_empty (k : κ) : (empty : OrdMap κ ν).get k = none := rfl

@[simp] theorem get_put_self (m : OrdMap κ ν) (k : κ) (v : ν) : (m.put k v).get k = some v :=
  lookup_insert_self k v _

theorem get_put_of_ne (m : OrdMap κ ν) {k j : κ} (v : ν) (h : j ≠ k) :
    (m.put k v).get j = m.get j :=
  lookup_insert_of_ne v h _

theorem get_put (m : OrdMap κ ν) (k j : κ) (v : ν) :
    (m.put k v).get j = if j = k then some v else m.get j := by
  split_ifs with h
  · rw [h, get_put_self]
  · exact get_put_of_ne m v h

theorem get_delete (m : OrdMap κ ν) (k j : κ) :
    (m.delete k).get j = if j = k then none else m.get j :=
  lookup_filter_ne _

theorem mem_entries {m : OrdMap κ ν} {k : κ} {v : ν} : (k, v) ∈ m.entries ↔ m.get k = some v :=
  (lookup_eq_some m.increasing).symm

theorem get_foldl_delete (j : κ) : ∀ (keys : List κ) (m : OrdMap κ ν),
    (keys.foldl delete m).get j = if j ∈ keys then none else m.get j
  | [], m => by simp
  | key :: keys, m => by
    rw [List.foldl_cons, get_foldl_delete j keys, get_delete]
    by_cases hk : j ∈ keys
    · rw [if_pos hk, if_pos (List.mem_cons_of_mem _ hk)]
    · by_cases hj : j = key
      · rw [if_neg hk, if_pos hj, if_pos (hj ▸ List.mem_cons_self)]
      · rw [if_neg hk, if_neg hj, if_neg fun hm => (List.mem_cons.mp hm).elim hj hk]

/-- Deleting every key leaves nothing. -/
theorem get_foldl_delete_entries (m : OrdMap κ ν) (j : κ) :
    ((m.entries.map Prod.fst).foldl delete m).get j = none := by
  rw [get_foldl_delete]
  split_ifs with hj
  · rfl
  · refine Option.eq_none_iff_forall_ne_some.mpr fun v hv => hj ?_
    exact List.mem_map_of_mem (mem_entries.mpr hv)

/-- A map is determined by its values. -/
theorem ext_get {m m' : OrdMap κ ν} (h : ∀ k, m.get k = m'.get k) : m = m' := by
  refine OrdMap.ext ?_
  refine List.Perm.eq_of_pairwise ?_ m.increasing m'.increasing ?_
  · intro a b _ _ hab hba
    exact absurd hba hab.asymm
  · refine (List.perm_ext_iff_of_nodup ?_ ?_).mpr fun ⟨k, v⟩ => ?_
    · exact m.increasing.imp fun {a b} hab he => hab.ne (congrArg Prod.fst he)
    · exact m'.increasing.imp fun {a b} hab he => hab.ne (congrArg Prod.fst he)
    · rw [mem_entries, mem_entries, h]

theorem iterFrom_eq_filter (m : OrdMap κ ν) (k : κ) :
    m.iterFrom k = m.entries.filter fun e => k ≤ e.1 := by
  have key : ∀ l : List (κ × ν), Increasing l →
      l.dropWhile (fun e => e.1 < k) = l.filter fun e => k ≤ e.1 := by
    intro l
    induction l with
    | nil => intro _; rfl
    | cons a l ih =>
      intro h
      obtain ⟨ha, hl⟩ := List.pairwise_cons.mp h
      by_cases hk : a.1 < k
      · rw [List.dropWhile_cons_of_pos (by simpa using hk), ih hl,
          List.filter_cons_of_neg (by simpa using hk)]
      · rw [List.dropWhile_cons_of_neg (by simpa using hk), eq_comm, List.filter_eq_self]
        intro e he
        rcases List.mem_cons.mp he with rfl | he
        · simpa using hk
        · simpa using ((not_lt.mp hk).trans (ha e he).le)
  exact key m.entries m.increasing

end OrdMap

/-! ### Prefix scans -/

section Scan

variable {β : Type} [LinearOrder β]

theorem cons_le_cons_iff {a b : β} {l l' : List β} :
    a :: l ≤ b :: l' ↔ a < b ∨ a = b ∧ l ≤ l' := by
  rw [← not_lt, List.cons_lt_cons_iff, ← not_lt]
  constructor
  · intro h
    push Not at h
    rcases lt_or_eq_of_le h.1 with hab | rfl
    · exact Or.inl hab
    · exact Or.inr ⟨rfl, not_lt.mpr (h.2 rfl)⟩
  · rintro (h | ⟨rfl, h⟩) (h' | ⟨h', h''⟩)
    · exact h.asymm h'
    · exact h.ne h'.symm
    · exact lt_irrefl _ h'
    · exact h h''

/-- A common prefix does not change the order. -/
theorem append_lt_append_left : ∀ {p l l' : List β}, p ++ l < p ++ l' ↔ l < l'
  | [], _, _ => Iff.rfl
  | a :: p, l, l' => by
    rw [List.cons_append, List.cons_append, List.cons_lt_cons_iff]
    constructor
    · rintro (h | ⟨-, h⟩)
      · exact absurd h (lt_irrefl _)
      · exact append_lt_append_left.mp h
    · intro h
      exact Or.inr ⟨rfl, append_lt_append_left.mpr h⟩

theorem le_of_isPrefix : ∀ {p l : List β}, p <+: l → p ≤ l
  | [], l, _ => by cases l with
    | nil => exact le_rfl
    | cons b l => exact (List.nil_lt_cons b l).le
  | a :: p, [], h => by simp at h
  | a :: p, b :: l, h => by
    obtain ⟨rfl, hp⟩ := List.cons_prefix_cons.mp h
    exact cons_le_cons_iff.mpr (Or.inr ⟨rfl, le_of_isPrefix hp⟩)

/-- **The keys with a given prefix are contiguous.** -/
theorem isPrefix_of_le_of_le : ∀ {p k l : List β}, p ≤ k → k ≤ l → p <+: l → p <+: k
  | [], _, _, _, _, _ => List.nil_prefix
  | a :: p, k, [], _, _, h => by simp at h
  | a :: p, [], b :: l, h, _, _ => absurd h (not_le.mpr (List.nil_lt_cons a p))
  | a :: p, c :: k, b :: l, h1, h2, h => by
    obtain ⟨rfl, hp⟩ := List.cons_prefix_cons.mp h
    rcases cons_le_cons_iff.mp h1 with hac | ⟨rfl, hpk⟩
    · rcases cons_le_cons_iff.mp h2 with hca | ⟨rfl, -⟩
      · exact absurd hca hac.asymm
      · exact absurd hac (lt_irrefl _)
    · rcases cons_le_cons_iff.mp h2 with hca | ⟨-, hkl⟩
      · exact absurd hca (lt_irrefl _)
      · exact List.cons_prefix_cons.mpr ⟨rfl, isPrefix_of_le_of_le hpk hkl hp⟩

/-- The loop over the entries from `p` on that stops at the first key without the prefix `p`. -/
def OrdMap.scan (m : OrdMap (List β) ν) (p : List β) : List (List β × ν) :=
  (m.iterFrom p).takeWhile fun e => p.isPrefixOf e.1

theorem OrdMap.scan_eq_filter (m : OrdMap (List β) ν) (p : List β) :
    m.scan p = m.entries.filter fun e => p.isPrefixOf e.1 := by
  have key : ∀ l : List (List β × ν), Increasing l → (∀ e ∈ l, p ≤ e.1) →
      l.takeWhile (fun e => p.isPrefixOf e.1) = l.filter fun e => p.isPrefixOf e.1 := by
    intro l
    induction l with
    | nil => intro _ _; rfl
    | cons a l ih =>
      intro h hp
      obtain ⟨ha, hl⟩ := List.pairwise_cons.mp h
      by_cases hk : p <+: a.1
      · rw [List.takeWhile_cons_of_pos (by simpa using hk),
          List.filter_cons_of_pos (by simpa using hk),
          ih hl fun e he => hp e (List.mem_cons_of_mem _ he)]
      · rw [List.takeWhile_cons_of_neg (by simpa using hk), eq_comm, List.filter_eq_nil_iff]
        intro e he
        rcases List.mem_cons.mp he with rfl | he
        · simpa using hk
        · have hpa := hp a List.mem_cons_self
          have : ¬ p <+: e.1 := fun hpe => hk (isPrefix_of_le_of_le hpa (ha e he).le hpe)
          simpa using this
  unfold OrdMap.scan
  rw [OrdMap.iterFrom_eq_filter, key _ (m.increasing.filter _) (by simp), List.filter_filter]
  refine List.filter_congr fun e _ => ?_
  by_cases hk : p <+: e.1
  · simp [le_of_isPrefix hk]
  · simp [hk]

end Scan

end Diynamo.Lib.Ordered
