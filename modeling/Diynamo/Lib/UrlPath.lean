import Diynamo.Lib.Percent
import Mathlib.Data.List.DropRight

/-! # The path of an `http` URL

`pathSegments` is the URL standard's reading of what follows the authority of an `http` URL: spaces
and controls at the end of the string are trimmed, tabs and newlines removed, `?` and `#` end the
path, `/` and `\` separate the segments, dot segments are resolved, and the bytes outside the path
set are percent-encoded. `serializeRest` writes it out again, with the query and the fragment.

A server that splits the path at `/` and percent-decodes the segments gets back the segments that
the URL was formatted from exactly if the formatted path is `Lossless`
(`decoded_pathSegments_joinPath_iff`): every step of the reading can only drop bytes, so a path that
reads back as itself lost none. -/

namespace Diynamo.Lib.UrlPath

open Diynamo.Lib.Utf8 Diynamo.Lib.Percent

/-- A C0 control or a space. -/
def isC0OrSpace (b : UInt8) : Bool := b ≤ 0x20

/-- A tab, line feed or carriage return. -/
def isTabOrNewline (b : UInt8) : Bool := b = 0x09 || b = 0x0A || b = 0x0D

/-- `?` and `#` end the path. -/
def endsPath (b : UInt8) : Bool := b = 0x3F || b = 0x23

/-- `/` and `\` separate segments. -/
def isSeparator (b : UInt8) : Bool := b = 0x2F || b = 0x5C

/-- ASCII letters in lower case. -/
def toLower (b : UInt8) : UInt8 := if 0x41 ≤ b ∧ b ≤ 0x5A then b + 0x20 else b

/-- The segment is `.`, possibly written as `%2e`. -/
def isSingleDot (s : Bytes) : Bool := s.map toLower ∈ ([".", "%2e"].map utf8)

/-- The segment is `..`, possibly written with `%2e`. -/
def isDoubleDot (s : Bytes) : Bool := s.map toLower ∈ (["..", ".%2e", "%2e.", "%2e%2e"].map utf8)

def isDot (s : Bytes) : Bool := isSingleDot s || isDoubleDot s

/-- The empty segment that a dot segment at the end leaves. -/
def emptyAtEnd : List Bytes → List Bytes
  | [] => [[]]
  | _ :: _ => []

/-- **Resolve the dot segments**; `acc` is the path so far. -/
def resolve (acc : List Bytes) : List Bytes → List Bytes
  | [] => acc
  | s :: rest =>
    resolve
      (if isDoubleDot s then acc.dropLast ++ emptyAtEnd rest
        else if isSingleDot s then acc ++ emptyAtEnd rest
        else acc ++ [s]) rest

/-- What is left of the end of a string. -/
def cleanEnd (s : Bytes) : Bytes := (s.rdropWhile isC0OrSpace).filter fun b => !isTabOrNewline b

/-- The bytes of the path: what is left after trimming, up to `?` or `#`. -/
def pathBytes (afterAuthority : Bytes) : Bytes :=
  (cleanEnd afterAuthority).takeWhile fun b => !endsPath b

/-- **The segments of the path**, for the part of the URL that follows the authority. -/
def pathSegments (afterAuthority : Bytes) : List Bytes :=
  (resolve [] ((pathBytes afterAuthority).tail.splitOnP isSeparator)).map percentEncode

/-- A path as it is formatted: every segment after a `/`. -/
def joinPath (segs : List Bytes) : Bytes := segs.flatMap (slash :: ·)

/-- A fragment with its `#`, encoded. -/
def serializeFragment : Bytes → Bytes
  | [] => []
  | b :: s => b :: encodeWith inFragmentSet s

/-- A query with its `?`, up to the fragment, or a fragment alone. -/
def serializeSuffix : Bytes → Bytes
  | [] => []
  | b :: s =>
    if b = 0x23 then serializeFragment (b :: s)
    else b :: encodeWith inQuerySet (s.takeWhile (· ≠ 0x23)) ++
      serializeFragment (s.dropWhile (· ≠ 0x23))

/-- What follows the path in the serialized URL. -/
def suffixOf (afterAuthority : Bytes) : Bytes :=
  serializeSuffix ((cleanEnd afterAuthority).dropWhile fun b => !endsPath b)

/-- **What the serialized URL has after its authority**: the path, the query and the fragment. -/
def serializeRest (afterAuthority : Bytes) : Bytes :=
  joinPath (pathSegments afterAuthority) ++ suffixOf afterAuthority

theorem joinPath_concat (segs : List Bytes) (s : Bytes) :
    joinPath (segs ++ [s]) = joinPath segs ++ slash :: s := by
  simp [joinPath, List.flatMap_append]

/-! ### Size -/

/-- The length of a path with its separators. -/
def size : List Bytes → ℕ
  | [] => 0
  | s :: segs => s.length + 1 + size segs

@[simp] theorem size_nil : size [] = 0 := rfl

@[simp] theorem size_cons (s : Bytes) (segs : List Bytes) :
    size (s :: segs) = s.length + 1 + size segs := rfl

@[simp] theorem size_append (l m : List Bytes) : size (l ++ m) = size l + size m := by
  induction l with
  | nil => simp
  | cons s l ih => rw [List.cons_append, size_cons, size_cons, ih]; omega

theorem length_joinPath (segs : List Bytes) : (joinPath segs).length = size segs := by
  induction segs with
  | nil => rfl
  | cons s segs ih =>
    rw [joinPath, List.flatMap_cons, List.length_append, ← joinPath, ih, size_cons,
      List.length_cons]

theorem size_dropLast_le (l : List Bytes) : size l.dropLast ≤ size l := by
  rcases l.eq_nil_or_concat with rfl | ⟨l', s, rfl⟩
  · exact le_rfl
  · simp

theorem size_splitOnP (p : UInt8 → Bool) (s : Bytes) : size (s.splitOnP p) = s.length + 1 := by
  induction s with
  | nil => rfl
  | cons b s ih =>
    rw [List.splitOnP_cons_eq_if_modifyHead]
    split_ifs
    · rw [size_cons, ih]; simp [Nat.add_comm]
    · cases h : s.splitOnP p with
      | nil => exact absurd h (List.splitOnP_ne_nil p s)
      | cons t ts =>
        rw [h, size_cons] at ih
        rw [List.modifyHead_cons, size_cons, List.length_cons, List.length_cons]
        omega

theorem size_emptyAtEnd_le (rest : List Bytes) : size (emptyAtEnd rest) ≤ 1 := by
  cases rest <;> simp [emptyAtEnd]

theorem length_pos_of_isSingleDot {s : Bytes} (h : isSingleDot s = true) : 0 < s.length := by
  cases s with
  | nil => exact absurd h (by decide)
  | cons => simp

theorem length_pos_of_isDoubleDot {s : Bytes} (h : isDoubleDot s = true) : 0 < s.length := by
  cases s with
  | nil => exact absurd h (by decide)
  | cons => simp

/-- **Resolving drops something, or there is nothing to resolve.** -/
theorem resolve_cases : ∀ (segs acc : List Bytes),
    ((∀ s ∈ segs, isDot s = false) ∧ resolve acc segs = acc ++ segs) ∨
      ((∃ s ∈ segs, isDot s = true) ∧ size (resolve acc segs) < size acc + size segs)
  | [], acc => Or.inl ⟨by simp, by simp [resolve]⟩
  | s :: rest, acc => by
    have hle : ∀ acc, size (resolve acc rest) ≤ size acc + size rest := fun acc => by
      rcases resolve_cases rest acc with ⟨-, h⟩ | ⟨-, h⟩
      · rw [h, size_append]
      · exact h.le
    have hend := size_emptyAtEnd_le rest
    rw [resolve]
    split_ifs with hd hs
    · have := hle (acc.dropLast ++ emptyAtEnd rest)
      have := size_dropLast_le acc
      have := length_pos_of_isDoubleDot hd
      refine Or.inr ⟨⟨s, List.mem_cons_self, by simp [isDot, hd]⟩, ?_⟩
      simp only [size_append, size_cons] at *
      omega
    · have := hle (acc ++ emptyAtEnd rest)
      have := length_pos_of_isSingleDot hs
      refine Or.inr ⟨⟨s, List.mem_cons_self, by simp [isDot, hs]⟩, ?_⟩
      simp only [size_append, size_cons] at *
      omega
    · have hnot : isDot s = false := by simp [isDot, hd, hs]
      rcases resolve_cases rest (acc ++ [s]) with ⟨h1, h2⟩ | ⟨⟨t, ht, htd⟩, h2⟩
      · exact Or.inl ⟨List.forall_mem_cons.mpr ⟨hnot, h1⟩, by rw [h2]; simp⟩
      · refine Or.inr ⟨⟨t, List.mem_cons_of_mem _ ht, htd⟩, ?_⟩
        rw [size_append, size_cons, size_nil] at h2
        rw [size_cons]
        omega

/-! ### What reads back as itself -/

/-- A segment that the reading keeps: none of `/`, `\`, `?`, `#`, tab, newline, no escape, and not a
dot segment. -/
def Plain (s : Bytes) : Prop :=
  (∀ b ∈ s, isSeparator b = false ∧ endsPath b = false ∧ isTabOrNewline b = false) ∧
    hasEscape s = false ∧ isDot s = false

instance (s : Bytes) : Decidable (Plain s) :=
  @instDecidableAnd _ _ (List.decidableBAll _ s) inferInstance

/-- The last byte is not trimmed. -/
def EndsVisibly (s : Bytes) : Prop := ∀ b ∈ s.getLast?, isC0OrSpace b = false

instance (s : Bytes) : Decidable (EndsVisibly s) := Option.decidableForallMem s.getLast?

/-- **No part of the formatted path is lost.** -/
def Lossless (segs : List Bytes) : Prop := (∀ s ∈ segs, Plain s) ∧ EndsVisibly (joinPath segs)

/-- The end of a formatted path is the end of its last segment. -/
theorem endsVisibly_joinPath_concat (segs : List Bytes) {s : Bytes} (hs : s ≠ []) :
    EndsVisibly (joinPath (segs ++ [s])) ↔ EndsVisibly s := by
  have hlast : (joinPath (segs ++ [s])).getLast? = s.getLast? := by
    obtain ⟨b, s, rfl⟩ := List.exists_cons_of_ne_nil hs
    simp [joinPath_concat, List.getLast?_append, List.getLast?_cons]
  unfold EndsVisibly
  rw [hlast]

theorem rdropWhile_eq_self {s : Bytes} : s.rdropWhile isC0OrSpace = s ↔ EndsVisibly s := by
  rw [List.rdropWhile_eq_self_iff]
  unfold EndsVisibly
  cases hs : s.getLast? with
  | none => simp [List.getLast?_eq_none_iff.mp hs]
  | some b =>
    obtain ⟨t, rfl⟩ := List.getLast?_eq_some_iff.mp hs
    simp

theorem pathBytes_sublist (s : Bytes) : (pathBytes s).Sublist s :=
  ((List.takeWhile_prefix _).sublist.trans List.filter_sublist).trans
    (List.rdropWhile_prefix _ _).sublist

/-- The path keeps the whole string exactly if nothing is trimmed, removed or cut off. -/
theorem pathBytes_eq_self {s : Bytes} :
    pathBytes s = s ↔ EndsVisibly s ∧ ∀ b ∈ s, isTabOrNewline b = false ∧ endsPath b = false := by
  constructor
  · intro h
    have hs : s.Sublist ((s.rdropWhile isC0OrSpace).filter fun b => !isTabOrNewline b) := by
      conv_lhs => rw [← h]
      exact (List.takeWhile_prefix _).sublist
    have e1 : s.rdropWhile isC0OrSpace = s :=
      (List.rdropWhile_prefix _ s).sublist.antisymm (hs.trans List.filter_sublist)
    rw [e1] at hs
    have e2 : (s.filter fun b => !isTabOrNewline b) = s := List.filter_sublist.antisymm hs
    unfold pathBytes cleanEnd at h
    rw [e1, e2] at h
    refine ⟨rdropWhile_eq_self.mp e1, fun b hb => ⟨?_, ?_⟩⟩
    · simpa using List.filter_eq_self.mp e2 b hb
    · simpa using List.takeWhile_eq_self_iff.mp h b hb
  · rintro ⟨he, hb⟩
    unfold pathBytes cleanEnd
    rw [rdropWhile_eq_self.mpr he, List.filter_eq_self.mpr fun b h => by simp [(hb b h).1],
      List.takeWhile_eq_self_iff.mpr fun b h => by simp [(hb b h).2]]

theorem mem_joinPath {segs : List Bytes} {b : UInt8} :
    b ∈ joinPath segs ↔ (b = slash ∧ segs ≠ []) ∨ ∃ s ∈ segs, b ∈ s := by
  induction segs with
  | nil => simp [joinPath]
  | cons s segs ih =>
    rw [joinPath, List.flatMap_cons, ← joinPath, List.mem_append, ih]
    simp only [List.mem_cons, ne_eq, reduceCtorEq, not_false_eq_true, and_true,
      exists_eq_or_imp]
    tauto

/-- No segment of a split holds a separator. -/
theorem not_of_mem_splitOnP {p : UInt8 → Bool} : ∀ {s t : Bytes}, t ∈ s.splitOnP p →
    ∀ b ∈ t, p b = false
  | [], t, ht, b, hb => by
    rw [List.splitOnP_nil, List.mem_singleton] at ht
    simp [ht] at hb
  | c :: s, t, ht, b, hb => by
    rw [List.splitOnP_cons_eq_if_modifyHead] at ht
    split_ifs at ht with hc
    · rcases List.mem_cons.mp ht with rfl | ht
      · cases hb
      · exact not_of_mem_splitOnP ht b hb
    · obtain ⟨u, us, hu⟩ := List.exists_cons_of_ne_nil (List.splitOnP_ne_nil p s)
      have hrec : ∀ t ∈ u :: us, ∀ b ∈ t, p b = false := fun t ht =>
        not_of_mem_splitOnP (s := s) (by rw [hu]; exact ht)
      rw [hu, List.modifyHead_cons] at ht
      rcases List.mem_cons.mp ht with rfl | ht
      · rcases List.mem_cons.mp hb with rfl | hb
        · simpa using hc
        · exact hrec u List.mem_cons_self b hb
      · exact hrec t (List.mem_cons_of_mem _ ht) b hb

theorem splitOnP_joinPath {s : Bytes} : ∀ {segs : List Bytes},
    (∀ t ∈ s :: segs, ∀ b ∈ t, isSeparator b = false) →
      (s ++ joinPath segs).splitOnP isSeparator = s :: segs := by
  intro segs
  induction segs generalizing s with
  | nil =>
    intro h
    rw [joinPath, List.flatMap_nil, List.append_nil]
    exact List.splitOnP_eq_singleton (h s List.mem_cons_self)
  | cons t segs ih =>
    intro h
    rw [joinPath, List.flatMap_cons, ← joinPath, List.cons_append,
      List.splitOnP_append_cons_of_forall_mem (h s List.mem_cons_self) slash (by decide),
      ih fun u hu => h u (List.mem_cons_of_mem _ hu)]

/-- Decoding drops something, or there is nothing to decode. -/
theorem size_map_percentDecode : ∀ segs : List Bytes,
    size (segs.map percentDecode) ≤ size segs ∧
      (size segs ≤ size (segs.map percentDecode) → ∀ s ∈ segs, hasEscape s = false)
  | [] => ⟨le_rfl, by simp⟩
  | s :: segs => by
    obtain ⟨h1, h2⟩ := size_map_percentDecode segs
    have hs := length_percentDecode_le s
    rw [List.map_cons, size_cons, size_cons]
    refine ⟨by omega, fun h => List.forall_mem_cons.mpr ⟨?_, h2 (by omega)⟩⟩
    exact hasEscape_of_length (by omega)

theorem map_percentDecode_eq_self {segs : List Bytes} (h : ∀ s ∈ segs, hasEscape s = false) :
    segs.map percentDecode = segs :=
  (List.map_congr_left fun s hs => percentDecode_eq_self (h s hs)).trans (List.map_id segs)

theorem map_decode_map_encode (segs : List Bytes) :
    (segs.map percentEncode).map percentDecode = segs.map percentDecode := by
  rw [List.map_map]
  exact List.map_congr_left fun t _ => percentDecode_percentEncode t

/-- **A lossless path** is read as its segments, encoded. -/
theorem pathSegments_of_lossless {segs : List Bytes} (hne : segs ≠ []) (h : Lossless segs) :
    pathSegments (joinPath segs) = segs.map percentEncode := by
  obtain ⟨hp, hend⟩ := h
  obtain ⟨s, segs, rfl⟩ := List.exists_cons_of_ne_nil hne
  have hbytes : pathBytes (joinPath (s :: segs)) = joinPath (s :: segs) := by
    refine pathBytes_eq_self.mpr ⟨hend, fun b hb => ?_⟩
    rcases mem_joinPath.mp hb with ⟨rfl, -⟩ | ⟨t, ht, hbt⟩
    · decide
    · obtain ⟨-, hquery, hspace⟩ := (hp t ht).1 b hbt
      exact ⟨hspace, hquery⟩
  have htail : (joinPath (s :: segs)).tail = s ++ joinPath segs := rfl
  rw [pathSegments, hbytes, htail, splitOnP_joinPath fun t ht b hb => ((hp t ht).1 b hb).1]
  rcases resolve_cases (s :: segs) [] with ⟨-, h⟩ | ⟨⟨t, ht, hd⟩, -⟩
  · rw [h, List.nil_append]
  · simp [(hp t ht).2.2] at hd

theorem lossless_of_decoded {segs : List Bytes}
    (h : (pathSegments (joinPath segs)).map percentDecode = segs) : Lossless segs := by
  rw [pathSegments, map_decode_map_encode] at h
  set Y := pathBytes (joinPath segs) with hY
  set S := Y.tail.splitOnP isSeparator with hS
  have hYne : Y ≠ [] := by
    intro hnil
    rw [hS, hnil] at h
    rw [← show [[]] = segs from h] at hY
    rw [hnil] at hY
    exact absurd hY (by decide)
  -- every step keeps or shortens the path, and the result is as long as the start
  have h1 : size segs ≤ size (resolve [] S) := by
    rw [← h]
    simpa using (size_map_percentDecode (resolve [] S)).1
  have h2 : size S = Y.length := by
    rw [hS, size_splitOnP, List.length_tail, Nat.sub_add_cancel (List.length_pos_iff.mpr hYne)]
  have h3 : Y.length ≤ size segs := by
    rw [← length_joinPath]
    exact (pathBytes_sublist _).length_le
  rcases resolve_cases S [] with ⟨hdots, hres⟩ | ⟨-, hlt⟩
  · rw [hres, List.nil_append] at h h1
    have hesc := (size_map_percentDecode S).2 (by rw [h]; omega)
    have hseg : S = segs := by
      rw [← h]
      exact (map_percentDecode_eq_self hesc).symm
    have hself : Y = joinPath segs :=
      (pathBytes_sublist _).eq_of_length (by rw [length_joinPath, ← hY]; omega)
    obtain ⟨hend, hbytes⟩ := pathBytes_eq_self.mp hself
    refine ⟨fun s hs => ⟨fun b hb => ?_, hesc s (hseg ▸ hs), hdots s (hseg ▸ hs)⟩, hend⟩
    have hb' := hbytes b (mem_joinPath.mpr (Or.inr ⟨s, hs, hb⟩))
    exact ⟨not_of_mem_splitOnP (show s ∈ S from hseg ▸ hs) b hb, hb'.2, hb'.1⟩
  · rw [size_nil] at hlt
    omega

/-- **A formatted path reads back as itself exactly if it is lossless.** -/
theorem decoded_pathSegments_joinPath_iff {segs : List Bytes} (hne : segs ≠ []) :
    (pathSegments (joinPath segs)).map percentDecode = segs ↔ Lossless segs := by
  refine ⟨lossless_of_decoded, fun h => ?_⟩
  rw [pathSegments_of_lossless hne h, map_decode_map_encode]
  exact map_percentDecode_eq_self fun t ht => (h.1 t ht).2.1

end Diynamo.Lib.UrlPath
