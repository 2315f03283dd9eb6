import Diynamo.Lib.Utf8

/-! # Percent encoding

`percentDecode` replaces every `%` that two hexadecimal digits follow, and leaves a lone `%` as it
is. `encodeWith` writes the bytes of a percent-encode set as escapes, `percentEncode` those of the
path set; as `%` is not one of them, a `%XX` of the input is kept, and decoding undoes the encoding
only up to the escapes that were there before (`percentDecode_percentEncode`). A byte string is its
own decoding exactly if it has no escape (`percentDecode_eq_self`); with one, the decoding is
shorter. -/

namespace Diynamo.Lib.Percent

open Diynamo.Lib.Utf8

/-- The byte `%`. -/
def percent : UInt8 := 0x25

/-- The value of a hexadecimal digit, in upper or lower case. -/
def hexValue (b : UInt8) : Option ℕ :=
  if 0x30 ≤ b ∧ b ≤ 0x39 then some (b.toNat - 0x30)
  else if 0x41 ≤ b ∧ b ≤ 0x46 then some (b.toNat - 0x37)
  else if 0x61 ≤ b ∧ b ≤ 0x66 then some (b.toNat - 0x57)
  else none

/-- The upper-case hexadecimal digit of a value. -/
def hexDigit (n : ℕ) : UInt8 := UInt8.ofNat (if n < 10 then 0x30 + n else 0x37 + n)

/-- The byte that three bytes are an escape of. -/
def escape (a b c : UInt8) : Option UInt8 :=
  if a = percent then
    match hexValue b, hexValue c with
    | some x, some y => some (UInt8.ofNat (16 * x + y))
    | _, _ => none
  else none

/-- **Percent-decode.** -/
def percentDecode : Bytes → Bytes
  | [] => []
  | a :: b :: c :: rest =>
    match escape a b c with
    | some v => v :: percentDecode rest
    | none => a :: percentDecode (b :: c :: rest)
  | a :: rest => a :: percentDecode rest

/-- An escape starts the byte string. -/
def startsEscape : Bytes → Bool
  | a :: b :: c :: _ => (escape a b c).isSome
  | _ => false

/-- Some `%` is followed by two hexadecimal digits. -/
def hasEscape : Bytes → Bool
  | [] => false
  | a :: rest => startsEscape (a :: rest) || hasEscape rest

/-- Controls, the space and the bytes outside ASCII. -/
def isControlOrSpace (b : UInt8) : Bool := b ≤ 0x20 || 0x7E < b

/-- The path percent-encode set: controls, bytes outside ASCII, and the characters listed. -/
def inPathSet (b : UInt8) : Bool :=
  isControlOrSpace b || b ∈ ([0x22, 0x23, 0x3C, 0x3E, 0x3F, 0x5E, 0x60, 0x7B, 0x7D] : Bytes)

/-- The query percent-encode set of an `http` URL. -/
def inQuerySet (b : UInt8) : Bool :=
  isControlOrSpace b || b ∈ ([0x22, 0x23, 0x27, 0x3C, 0x3E] : Bytes)

/-- The fragment percent-encode set. -/
def inFragmentSet (b : UInt8) : Bool :=
  isControlOrSpace b || b ∈ ([0x22, 0x3C, 0x3E, 0x60] : Bytes)

/-- One byte, encoded if it is in the set. -/
def encodeByte (inSet : UInt8 → Bool) (b : UInt8) : Bytes :=
  if inSet b then [percent, hexDigit (b.toNat / 16), hexDigit (b.toNat % 16)] else [b]

/-- Percent-encode with a set. -/
def encodeWith (inSet : UInt8 → Bool) (s : Bytes) : Bytes := s.flatMap (encodeByte inSet)

/-- **Percent-encode** with the path set. -/
def percentEncode (s : Bytes) : Bytes := encodeWith inPathSet s

theorem hexValue_hexDigit : ∀ n < 16, hexValue (hexDigit n) = some n := by decide

theorem escape_encoded (b : UInt8) :
    escape percent (hexDigit (b.toNat / 16)) (hexDigit (b.toNat % 16)) = some b := by
  have hb : b.toNat < 256 := b.toNat_lt
  unfold escape
  rw [if_pos rfl, hexValue_hexDigit _ (by omega), hexValue_hexDigit _ (by omega)]
  dsimp only
  rw [show 16 * (b.toNat / 16) + b.toNat % 16 = b.toNat by omega, UInt8.ofNat_toNat]

/-- Neither `%` nor a hexadecimal digit is encoded. -/
theorem encodeByte_of_hex {b : UInt8} {x : ℕ} (h : hexValue b = some x) :
    encodeByte inPathSet b = [b] := by
  have hset : inPathSet b = false := by
    simp only [inPathSet, isControlOrSpace, hexValue, UInt8.le_iff_toNat_le, UInt8.lt_iff_toNat_lt,
      ← UInt8.toNat_inj, List.mem_cons, List.not_mem_nil, or_false, Bool.or_eq_false_iff,
      decide_eq_false_iff_not] at h ⊢
    simp only [UInt8.reduceToNat] at h ⊢
    split_ifs at h <;> omega
  rw [encodeByte, hset, if_neg (by decide)]

theorem hexValue_percent : hexValue percent = none := by decide

theorem escape_eq_some {a b c v : UInt8} (h : escape a b c = some v) :
    a = percent ∧ (∃ x, hexValue b = some x) ∧ ∃ y, hexValue c = some y := by
  unfold escape at h
  split_ifs at h with ha
  split at h
  · next x y hx hy => exact ⟨ha, ⟨x, hx⟩, y, hy⟩
  · cases h

theorem startsEscape_iff {s : Bytes} : startsEscape s = true ↔
    ∃ b c rest x y, s = percent :: b :: c :: rest ∧ hexValue b = some x ∧ hexValue c = some y := by
  constructor
  · intro h
    match s with
    | [] | [_] | [_, _] => cases h
    | a :: b :: c :: rest =>
      obtain ⟨v, hv⟩ := Option.isSome_iff_exists.mp h
      obtain ⟨rfl, ⟨x, hx⟩, y, hy⟩ := escape_eq_some hv
      exact ⟨b, c, rest, x, y, rfl, hx, hy⟩
  · rintro ⟨b, c, rest, x, y, rfl, hx, hy⟩
    simp [startsEscape, escape, hx, hy]

/-- An escape has two bytes after its sign. -/
theorem startsEscape_of_short {a : UInt8} {rest : Bytes}
    (h : ∀ b c rest', rest = b :: c :: rest' → False) : startsEscape (a :: rest) = false := by
  match rest with
  | [] | [_] => rfl
  | b :: c :: rest => exact absurd rfl (h b c rest)

theorem percentDecode_cons {a : UInt8} {rest : Bytes} (h : startsEscape (a :: rest) = false) :
    percentDecode (a :: rest) = a :: percentDecode rest := by
  match rest with
  | [] | [_] => rfl
  | b :: c :: rest =>
    have hn : escape a b c = none := by simpa [startsEscape] using h
    rw [percentDecode, hn]

theorem percentDecode_escape {a b c v : UInt8} (h : escape a b c = some v) (rest : Bytes) :
    percentDecode (a :: b :: c :: rest) = v :: percentDecode rest := by
  rw [percentDecode, h]

/-- **Without an escape the decoding is the string itself, with one it is shorter.** -/
theorem percentDecode_cases : ∀ s : Bytes,
    (hasEscape s = false ∧ percentDecode s = s) ∨
      (hasEscape s = true ∧ (percentDecode s).length < s.length) := by
  intro s
  fun_induction percentDecode s with
  | case1 => exact Or.inl ⟨rfl, rfl⟩
  | case2 a b c rest v hv ih =>
    refine Or.inr ⟨by simp [hasEscape, startsEscape, hv], ?_⟩
    have : (percentDecode rest).length ≤ rest.length := by
      rcases ih with ⟨-, h⟩ | ⟨-, h⟩
      · rw [h]
      · exact h.le
    simp only [List.length_cons]
    omega
  | case3 a b c rest hn ih =>
    rw [hasEscape, startsEscape, hn, Option.isSome_none, Bool.false_or, List.length_cons,
      List.length_cons, Nat.succ_lt_succ_iff, List.cons_inj_right]
    exact ih
  | case4 a rest hshort ih =>
    have hs := startsEscape_of_short (a := a) hshort
    rw [hasEscape, hs, Bool.false_or, List.length_cons, List.length_cons,
      Nat.succ_lt_succ_iff, List.cons_inj_right]
    exact ih

theorem length_percentDecode_le (s : Bytes) : (percentDecode s).length ≤ s.length := by
  rcases percentDecode_cases s with ⟨-, h⟩ | ⟨-, h⟩
  · rw [h]
  · exact h.le

theorem percentDecode_eq_self {s : Bytes} (h : hasEscape s = false) : percentDecode s = s := by
  rcases percentDecode_cases s with ⟨-, h'⟩ | ⟨h', -⟩
  · exact h'
  · simp [h] at h'

theorem hasEscape_of_not_mem {s : Bytes} (h : percent ∉ s) : hasEscape s = false := by
  induction s with
  | nil => rfl
  | cons a s ih =>
    rw [List.mem_cons, not_or] at h
    rw [hasEscape, ih h.2, Bool.or_false, Bool.eq_false_iff]
    intro hs
    obtain ⟨b, c, rest, x, y, he, -, -⟩ := startsEscape_iff.mp hs
    exact h.1 (List.cons.inj he).1.symm

theorem hasEscape_of_length {s : Bytes} (h : s.length ≤ (percentDecode s).length) :
    hasEscape s = false := by
  rcases percentDecode_cases s with ⟨h', -⟩ | ⟨-, h'⟩
  · exact h'
  · omega

theorem percentEncode_cons (a : UInt8) (s : Bytes) :
    percentEncode (a :: s) = encodeByte inPathSet a ++ percentEncode s := rfl

/-- A hexadecimal digit at the front of an encoding was there before. -/
theorem percentEncode_eq_hex_cons {s : Bytes} {b : UInt8} {x : ℕ} {rest : Bytes}
    (h : percentEncode s = b :: rest) (hb : hexValue b = some x) :
    ∃ s', s = b :: s' ∧ percentEncode s' = rest := by
  cases s with
  | nil => cases h
  | cons d s =>
    rw [percentEncode_cons, encodeByte] at h
    split_ifs at h
    · obtain ⟨rfl, -⟩ := List.cons.inj h
      simp [hexValue_percent] at hb
    · obtain ⟨rfl, rfl⟩ := List.cons.inj h
      exact ⟨s, rfl, rfl⟩

/-- Encoding the rest does not create an escape. -/
theorem startsEscape_cons_percentEncode {a : UInt8} {s : Bytes}
    (h : startsEscape (a :: s) = false) : startsEscape (a :: percentEncode s) = false := by
  rw [Bool.eq_false_iff] at h ⊢
  intro he
  obtain ⟨b, c, rest, x, y, heq, hx, hy⟩ := startsEscape_iff.mp he
  obtain ⟨rfl, hrest⟩ := List.cons.inj heq
  obtain ⟨s1, rfl, h1⟩ := percentEncode_eq_hex_cons hrest hx
  obtain ⟨s2, rfl, -⟩ := percentEncode_eq_hex_cons h1 hy
  exact h (startsEscape_iff.mpr ⟨b, c, s2, x, y, rfl, hx, hy⟩)

/-- One byte of the input, encoded or not, decodes to itself unless it started an escape. -/
theorem percentDecode_encodeByte_append {a : UInt8} {s : Bytes}
    (h : startsEscape (a :: s) = false) :
    percentDecode (encodeByte inPathSet a ++ percentEncode s) =
      a :: percentDecode (percentEncode s) := by
  unfold encodeByte
  split_ifs
  · exact percentDecode_escape (escape_encoded a) _
  · exact percentDecode_cons (startsEscape_cons_percentEncode h)

/-- **Decoding after encoding is decoding.** -/
theorem percentDecode_percentEncode (s : Bytes) :
    percentDecode (percentEncode s) = percentDecode s := by
  fun_induction percentDecode s with
  | case1 => rfl
  | case2 a b c rest v hv ih =>
    obtain ⟨rfl, ⟨x, hx⟩, y, hy⟩ := escape_eq_some hv
    rw [percentEncode_cons, percentEncode_cons, percentEncode_cons, encodeByte_of_hex hx,
      encodeByte_of_hex hy, show encodeByte inPathSet percent = [percent] by decide]
    exact (percentDecode_escape hv _).trans (congrArg (v :: ·) ih)
  | case3 a b c rest hn ih =>
    rw [percentEncode_cons, percentDecode_encodeByte_append (by simp [startsEscape, hn]), ih]
  | case4 a rest hshort ih =>
    have hs := startsEscape_of_short (a := a) hshort
    rw [percentEncode_cons, percentDecode_encodeByte_append hs, ih]

end Diynamo.Lib.Percent
