import Mathlib.Data.List.Lex
import Mathlib.Order.Lattice
import Mathlib.Tactic.SplitIfs

/-! # Byte strings and UTF-8

Byte strings are lists of `UInt8`, ordered lexicographically. `utf8` is the encoding of a string and
`fromUtf8` the checked conversion back; they are inverse (`fromUtf8_eq_some`). An ASCII character
occurs in a string exactly if its byte occurs in the encoding (`mem_utf8_iff`). -/

namespace Diynamo.Lib.Utf8

/-- A byte string. -/
abbrev Bytes : Type := List UInt8

instance instLinearOrderByte : LinearOrder UInt8 where
  le_refl := UInt8.le_refl
  le_trans _ _ _ := UInt8.le_trans
  le_antisymm _ _ := UInt8.le_antisymm
  le_total := UInt8.le_total
  lt_iff_le_not_ge a b := by
    rw [UInt8.lt_iff_toNat_lt, UInt8.le_iff_toNat_le, UInt8.le_iff_toNat_le]; omega
  toDecidableLE := inferInstance
  toDecidableEq := inferInstance
  toDecidableLT := inferInstance

/-- The byte `/`. -/
def slash : UInt8 := 0x2F

/-- The UTF-8 encoding of a string. -/
def utf8 (s : String) : Bytes := s.toByteArray.data.toList

/-- The string with the given encoding, if the bytes are valid UTF-8. -/
def fromUtf8 (bs : Bytes) : Option String := String.fromUTF8? ⟨bs.toArray⟩

theorem utf8_injective {s t : String} (h : utf8 s = utf8 t) : s = t :=
  String.toByteArray_inj.mp (ByteArray.ext (Array.toList_inj.mp h))

theorem utf8_inj {s t : String} : utf8 s = utf8 t ↔ s = t :=
  ⟨utf8_injective, fun h => h ▸ rfl⟩

theorem fromUtf8_eq_some {bs : Bytes} {s : String} : fromUtf8 bs = some s ↔ utf8 s = bs := by
  unfold fromUtf8 utf8 String.fromUTF8?
  constructor
  · intro h
    split_ifs at h with hv
    rw [← Option.some.inj h]
    rfl
  · rintro rfl
    rw [dif_pos s.isValidUTF8]
    rfl

@[simp] theorem fromUtf8_utf8 (s : String) : fromUtf8 (utf8 s) = some s :=
  fromUtf8_eq_some.mpr rfl

theorem utf8_eq_flatMap (s : String) : utf8 s = s.toList.flatMap String.utf8EncodeChar := by
  unfold utf8
  rw [← String.utf8Encode_toList, List.utf8Encode, List.data_toByteArray]

theorem utf8_append (s t : String) : utf8 (s ++ t) = utf8 s ++ utf8 t := by
  rw [utf8_eq_flatMap, utf8_eq_flatMap, utf8_eq_flatMap, String.toList_append, List.flatMap_append]

/-- Bytes come from characters. -/
theorem utf8_subset {s t : String} (h : ∀ c ∈ s.toList, c ∈ t.toList) : utf8 s ⊆ utf8 t := by
  intro b hb
  rw [utf8_eq_flatMap] at hb ⊢
  obtain ⟨c, hc, hbc⟩ := List.mem_flatMap.mp hb
  exact List.mem_flatMap.mpr ⟨c, h c hc, hbc⟩

theorem utf8_eq_nil {s : String} : utf8 s = [] ↔ s = "" := by
  rw [← utf8_inj]
  exact Iff.rfl

/-- The bytes of a character outside ASCII have the high bit set. -/
theorem le_of_mem_utf8EncodeChar {c : Char} (hc : 127 < c.val.toNat) {b : UInt8}
    (hb : b ∈ String.utf8EncodeChar c) : 128 ≤ b.toNat := by
  unfold String.utf8EncodeChar at hb
  simp only [show ¬ c.val.toNat ≤ 127 by omega, if_false] at hb
  split_ifs at hb <;> simp only [List.mem_cons, List.not_mem_nil, or_false] at hb
  · rcases hb with rfl | rfl <;> rw [UInt8.toNat_ofNat'] <;> omega
  · rcases hb with rfl | rfl | rfl <;> rw [UInt8.toNat_ofNat'] <;> omega
  · rcases hb with rfl | rfl | rfl | rfl <;> rw [UInt8.toNat_ofNat'] <;> omega

theorem utf8EncodeChar_ascii {c : Char} (hc : c.val.toNat ≤ 127) :
    String.utf8EncodeChar c = [UInt8.ofNat c.val.toNat] := by
  unfold String.utf8EncodeChar
  exact if_pos hc

theorem head?_utf8 {s : String} {c : Char} (hs : s.toList.head? = some c) (hc : c.val.toNat ≤ 127) :
    (utf8 s).head? = some (UInt8.ofNat c.val.toNat) := by
  obtain ⟨l, hl⟩ := List.head?_eq_some_iff.mp hs
  rw [utf8_eq_flatMap, hl, List.flatMap_cons, utf8EncodeChar_ascii hc]
  rfl

/-- **ASCII characters are their own bytes**: `c` occurs in `s` exactly if its byte does. -/
theorem mem_utf8_iff {s : String} {c : Char} (hc : c.val.toNat ≤ 127) :
    UInt8.ofNat c.val.toNat ∈ utf8 s ↔ c ∈ s.toList := by
  rw [utf8_eq_flatMap, List.mem_flatMap]
  constructor
  · rintro ⟨d, hd, hb⟩
    by_cases hd' : d.val.toNat ≤ 127
    · rw [utf8EncodeChar_ascii hd', List.mem_singleton] at hb
      have h : c.val.toNat = d.val.toNat := by
        have := congrArg UInt8.toNat hb
        rw [UInt8.toNat_ofNat', UInt8.toNat_ofNat'] at this
        omega
      rwa [Char.ext (UInt32.toNat_inj.mp h)]
    · have := le_of_mem_utf8EncodeChar (by omega) hb
      rw [UInt8.toNat_ofNat'] at this
      omega
  · intro h
    exact ⟨c, h, by rw [utf8EncodeChar_ascii hc]; exact List.mem_singleton.mpr rfl⟩

end Diynamo.Lib.Utf8
