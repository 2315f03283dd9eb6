import Mathlib.Data.List.DropRight

/-! # Words

The words of a list are its maximal blocks without a separator. They do not change when separators
at the ends are cut off (`words_trim`), and words that are joined by one separator are read back
(`words_intercalate`). -/

namespace Diynamo.Lib.Words

variable {α : Type} (p : α → Bool)

/-- The blocks between separators that are not empty. -/
def words (l : List α) : List (List α) := (l.splitOnP p).filter fun w => !w.isEmpty

/-- The list without the separators at its ends. -/
def trim (l : List α) : List α := (l.dropWhile p).rdropWhile p

/-- A block without separators. -/
def IsWord (w : List α) : Prop := w ≠ [] ∧ ∀ c ∈ w, p c = false

variable {p} {s : α}

@[simp] theorem words_nil : words p [] = [] := by
  rw [words, List.splitOnP_nil]
  rfl

theorem words_append_cons (l m : List α) (hs : p s = true) :
    words p (l ++ s :: m) = words p l ++ words p m := by
  unfold words
  rw [List.splitOnP_append_cons l m hs, List.filter_append]

theorem words_cons (hs : p s = true) (l : List α) : words p (s :: l) = words p l :=
  words_append_cons [] l hs

theorem words_of_isWord {w : List α} (h : IsWord p w) : words p w = [w] := by
  rw [words, List.splitOnP_eq_singleton h.2]
  cases w with
  | nil => exact absurd rfl h.1
  | cons c w => rfl

theorem isWord_of_mem_words {l w : List α} (h : w ∈ words p l) : IsWord p w := by
  obtain ⟨hm, hne⟩ := List.mem_filter.mp h
  refine ⟨by simpa using hne, ?_⟩
  clear h hne
  induction l generalizing w with
  | nil =>
    rw [List.splitOnP_nil, List.mem_singleton] at hm
    simp [hm]
  | cons c l ih =>
    rw [List.splitOnP_cons_eq_if_modifyHead] at hm
    split_ifs at hm with hc
    · rcases List.mem_cons.mp hm with rfl | hm
      · exact nofun
      · exact ih hm
    · -- the first block grows by `c`, which is no separator
      cases hs : l.splitOnP p with
      | nil => exact absurd hs (List.splitOnP_ne_nil p l)
      | cons w0 ws =>
        rw [hs] at hm ih
        rcases List.mem_cons.mp hm with rfl | hm
        · exact List.forall_mem_cons.mpr ⟨by simpa using hc, ih List.mem_cons_self⟩
        · exact ih (List.mem_cons_of_mem _ hm)

theorem words_append_of_forall (l : List α) : ∀ {m : List α}, (∀ c ∈ m, p c = true) →
    words p (l ++ m) = words p l
  | [], _ => by rw [List.append_nil]
  | c :: m, h => by
    have hm := words_append_of_forall [] fun d hd => h d (List.mem_cons_of_mem _ hd)
    rw [words_append_cons l m (h c List.mem_cons_self), ← List.nil_append m, hm, words_nil,
      List.append_nil]

theorem words_dropWhile : ∀ l : List α, words p (l.dropWhile p) = words p l
  | [] => rfl
  | c :: l => by
    rw [List.dropWhile_cons]
    split_ifs with hc
    · rw [words_dropWhile l, words_cons hc]
    · rfl

/-- **The separators at the ends do not matter.** -/
theorem words_trim (l : List α) : words p (trim p l) = words p l := by
  have hr : ∀ l : List α, words p (l.rdropWhile p) = words p l := fun l => by
    conv_rhs => rw [← List.rdropWhile_append_rtakeWhile (p := p) (l := l)]
    exact (words_append_of_forall _ fun c hc => List.mem_rtakeWhile_imp hc).symm
  rw [trim, hr, words_dropWhile]

/-- **Joined words are read back.** -/
theorem words_intercalate (hs : p s = true) : ∀ {ws : List (List α)}, (∀ w ∈ ws, IsWord p w) →
    words p ([s].intercalate ws) = ws
  | [], _ => words_nil
  | [w], h => by
    rw [List.intercalate_singleton]
    exact words_of_isWord (h w List.mem_cons_self)
  | w :: w' :: ws, h => by
    have ih := words_intercalate hs fun v hv => h v (List.mem_cons_of_mem _ hv)
    rw [List.intercalate_cons_cons, List.append_assoc, List.singleton_append,
      words_append_cons _ _ hs, ih, words_of_isWord (h w List.mem_cons_self)]
    rfl

end Diynamo.Lib.Words
