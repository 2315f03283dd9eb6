import Diynamo.Store.Hints
import Mathlib.Data.List.Induction

/-! # Hints for one target and key, in order of arrival

A sequence of `storeHint` requests on one hint store, with no deletion. The entry of a target and
key is the last request for it (`entry_afterCalls`), whatever its timestamp: the hint store has no
counterpart of `putIfNewer`. So the newest version is kept exactly if the requests for the target
and key arrive in the order of their timestamps (`keepsNewest_iff`). -/

namespace Diynamo.Store.HintArrivals

open Diynamo.Lib.Ordered Diynamo.Lib.Utf8 Diynamo.Store.Hints

/-- The arguments of a `storeHint` request. -/
structure Call where
  targetId : NodeId
  key : Bytes
  value : Bytes
  timestamp : ℕ
deriving DecidableEq, Repr

/-- The store after a request: a refused request changes nothing. -/
def handle (s : HintStore) (c : Call) : HintStore :=
  match s.storeHint c.targetId c.key c.value c.timestamp with
  | .ok s' => s'
  | .error _ => s

/-- The store after a sequence of requests, from the empty store. -/
def afterCalls (calls : List Call) : HintStore := calls.foldl handle HintStore.empty

/-- The request is for this target and key. -/
def isFor (t : NodeId) (k : Bytes) (c : Call) : Bool := c.targetId = t ∧ c.key = k

/-- The requests for a target and key, in order of arrival. -/
def arrivals (calls : List Call) (t : NodeId) (k : Bytes) : List Call := calls.filter (isFor t k)

/-- **The newest version is kept**: the scan of the target has exactly one hint of the key, written
at the largest timestamp that arrived, and no request replaced a stored hint by an older one. -/
def KeepsNewest (calls : List Call) (t : NodeId) (k : Bytes) : Prop :=
  (∃ c ∈ arrivals calls t k,
    ((afterCalls calls).hintsForNode t).filter (fun e => e.1 = k) = [(k, c.value, c.timestamp)] ∧
      ∀ c' ∈ arrivals calls t k, c'.timestamp ≤ c.timestamp) ∧
  ∀ pre c post, calls = pre ++ c :: post → isFor t k c →
    ∀ e, (afterCalls pre).entry t k = some e → e.timestamp ≤ c.timestamp

theorem isFor_iff {t : NodeId} {k : Bytes} {c : Call} :
    isFor t k c = true ↔ c.targetId = t ∧ c.key = k := by
  simp [isFor]

theorem entry_handle {s : HintStore} {t : NodeId} {k : Bytes} (ht : '/' ∉ t.toList) (c : Call) :
    (handle s c).entry t k =
      if isFor t k c then some ⟨c.timestamp, c.value⟩ else s.entry t k := by
  by_cases hc : '/' ∈ c.targetId.toList
  · have hne : isFor t k c = false := by
      rw [Bool.eq_false_iff, ne_eq, isFor_iff]
      rintro ⟨rfl, -⟩
      exact ht hc
    simp [handle, HintStore.storeHint, hc, hne]
  · simp only [handle, HintStore.storeHint, hc, if_false]
    unfold HintStore.entry
    rw [OrdMap.get_put]
    by_cases hf : isFor t k c = true
    · obtain ⟨rfl, rfl⟩ := isFor_iff.mp hf
      rw [if_pos rfl, if_pos hf]
    · rw [if_neg hf, if_neg]
      intro h
      obtain ⟨h1, h2⟩ := (hintKey_inj ht hc).mp h
      exact hf (isFor_iff.mpr ⟨h1.symm, h2.symm⟩)

theorem arrivals_concat (calls : List Call) (c : Call) (t : NodeId) (k : Bytes) :
    arrivals (calls ++ [c]) t k = arrivals calls t k ++ if isFor t k c then [c] else [] := by
  unfold arrivals
  rw [List.filter_append]
  split_ifs with hf
  · rw [List.filter_cons_of_pos hf]; rfl
  · rw [List.filter_cons_of_neg hf]; rfl

/-- **The entry of a target and key is the last request for it.** -/
theorem entry_afterCalls {t : NodeId} {k : Bytes} (ht : '/' ∉ t.toList) (calls : List Call) :
    (afterCalls calls).entry t k =
      (arrivals calls t k).getLast?.map fun c => ⟨c.timestamp, c.value⟩ := by
  induction calls using List.reverseRecOn with
  | nil => rfl
  | append_singleton calls c ih =>
    rw [afterCalls, List.foldl_concat, ← afterCalls, entry_handle ht, ih, arrivals_concat]
    split_ifs with hf
    · rw [List.getLast?_concat]; rfl
    · rw [List.append_nil]

/-- In a list in timestamp order the last element is a newest one. -/
theorem le_of_getLast? {l : List Call} {a b : Call}
    (hl : l.Pairwise fun a b => a.timestamp ≤ b.timestamp) (ha : a ∈ l) (hb : l.getLast? = some b) :
    a.timestamp ≤ b.timestamp := by
  obtain ⟨l', rfl⟩ := List.getLast?_eq_some_iff.mp hb
  obtain ⟨-, -, hle⟩ := List.pairwise_append.mp hl
  rcases List.mem_append.mp ha with ha | ha
  · exact hle a ha b List.mem_cons_self
  · rw [List.mem_singleton.mp ha]

/-- If no request replaces a newer hint, the timestamps never decrease. -/
theorem pairwise_of_never_replaced {t : NodeId} {k : Bytes} (ht : '/' ∉ t.toList)
    (calls : List Call) (h : ∀ pre c post, calls = pre ++ c :: post → isFor t k c →
      ∀ e, (afterCalls pre).entry t k = some e → e.timestamp ≤ c.timestamp) :
    (arrivals calls t k).Pairwise fun a b => a.timestamp ≤ b.timestamp := by
  induction calls using List.reverseRecOn with
  | nil => exact List.Pairwise.nil
  | append_singleton calls c ih =>
    have hpw := ih fun pre d post hd => h pre d (post ++ [c]) (by rw [hd]; simp)
    rw [arrivals_concat]
    split_ifs with hf
    · refine List.pairwise_append.mpr ⟨hpw, List.pairwise_singleton _ _, fun a ha b hb => ?_⟩
      rw [List.mem_singleton.mp hb]
      cases hlast : (arrivals calls t k).getLast? with
      | none =>
        rw [List.getLast?_eq_none_iff.mp hlast] at ha
        cases ha
      | some d =>
        -- the last arrival is a newest one so far, and `c` does not replace it by an older one
        have hd := h calls c [] rfl hf ⟨d.timestamp, d.value⟩ (by
          rw [entry_afterCalls ht, hlast]; rfl)
        exact (le_of_getLast? hpw ha hlast).trans hd
    · rwa [List.append_nil]

/-- **The hint store keeps the newest version exactly if the hints for the target and key arrive in
the order of their timestamps.** -/
theorem keepsNewest_iff (calls : List Call) {t : NodeId} {k : Bytes} (ht : '/' ∉ t.toList)
    (hne : arrivals calls t k ≠ []) :
    KeepsNewest calls t k ↔
      (arrivals calls t k).Pairwise fun a b => a.timestamp ≤ b.timestamp := by
  constructor
  · intro h
    exact pairwise_of_never_replaced ht calls h.2
  · intro hpw
    constructor
    · have hlast := List.getLast?_eq_some_getLast hne
      refine ⟨_, List.getLast_mem hne, ?_, fun c hc => le_of_getLast? hpw hc hlast⟩
      rw [HintStore.filter_hintsForNode, entry_afterCalls ht, hlast]
      rfl
    · intro pre c post hcalls hf e he
      rw [entry_afterCalls ht] at he
      obtain ⟨d, hd, rfl⟩ := Option.map_eq_some_iff.mp he
      rw [hcalls, arrivals, List.filter_append, List.filter_cons_of_pos hf] at hpw
      obtain ⟨-, -, hle⟩ := List.pairwise_append.mp hpw
      exact hle d (List.mem_of_getLast? hd) c List.mem_cons_self

/-- Two hints for one key in order. -/
theorem keepsNewest_in_order :
    KeepsNewest [⟨"n2", [107], [1], 100⟩, ⟨"n2", [107], [2], 200⟩] "n2" [107] :=
  (keepsNewest_iff _ (by decide) (by decide)).mpr (by decide)

/-- **A late hint replaces a newer one**: the write at timestamp 200 is lost. -/
theorem late_hint_replaces_newer :
    ¬ KeepsNewest [⟨"n2", [107], [2], 200⟩, ⟨"n2", [107], [1], 100⟩] "n2" [107] := by
  rintro ⟨-, h⟩
  have h200 := h [⟨"n2", [107], [2], 200⟩] ⟨"n2", [107], [1], 100⟩ [] rfl (by decide) ⟨200, [2]⟩
    (by decide)
  exact absurd h200 (by decide)

end Diynamo.Store.HintArrivals
