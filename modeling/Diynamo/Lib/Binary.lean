import Diynamo.Lib.Ordered
import Diynamo.Lib.Utf8
import Mathlib.Algebra.Order.Ring.Nat
import Mathlib.Tactic.Ring

/-! # Binary formats

A `Codec` writes values as byte strings and reads byte strings back, or fails to. `decoded` is the
ordered map that a map of byte strings stands for: the entries that can be read.

The format of this file is the one of a number and a byte string: eight bytes for the number, eight
for the length, then the bytes, all least significant byte first (`fixedWidth`). The reader takes
what it needs and ignores the rest, so it accepts exactly the encodings with any bytes behind them
(`readTimed_eq_some`). -/

namespace Diynamo.Lib.Binary

open Diynamo.Lib.Ordered Diynamo.Lib.Utf8

/-- **A binary format**: what fits is read back as itself. -/
structure Codec (α : Type) where
  Fits : α → Prop
  serialize : α → Bytes
  deserialize : Bytes → Option α
  deserialize_serialize : ∀ {a}, Fits a → deserialize (serialize a) = some a

/-! ### Maps of encoded values -/

section Decoded

variable {κ ν μ : Type} [LinearOrder κ]

/-- The entries with a value under `f`. -/
def filterMapEntries (f : ν → Option μ) (l : List (κ × ν)) : List (κ × μ) :=
  l.filterMap fun e => (f e.2).map fun v => (e.1, v)

theorem increasing_filterMapEntries (f : ν → Option μ) {l : List (κ × ν)} (h : Increasing l) :
    Increasing (filterMapEntries f l) := by
  refine (List.pairwise_filterMap).mpr (h.imp fun {a b} hab x hx y hy => ?_)
  obtain ⟨v, -, rfl⟩ := Option.map_eq_some_iff.mp hx
  obtain ⟨v', -, rfl⟩ := Option.map_eq_some_iff.mp hy
  exact hab

omit [LinearOrder κ] in
theorem filter_filterMapEntries (f : ν → Option μ) (p : κ → Bool) (l : List (κ × ν)) :
    (filterMapEntries f l).filter (fun e => p e.1) =
      filterMapEntries f (l.filter fun e => p e.1) := by
  unfold filterMapEntries
  rw [List.filter_filterMap, List.filterMap_filter]
  refine List.filterMap_congr fun e _ => ?_
  cases f e.2 with
  | none => simp
  | some v => simp [Option.filter]

variable {α : Type} (c : Codec α)

/-- **What a map of byte strings stands for.** -/
def decoded (m : OrdMap κ Bytes) : OrdMap κ α :=
  ⟨filterMapEntries c.deserialize m.entries, increasing_filterMapEntries _ m.increasing⟩

theorem get_decoded (m : OrdMap κ Bytes) (k : κ) :
    (decoded c m).get k = (m.get k).bind c.deserialize := by
  refine Option.ext fun v => ?_
  rw [← OrdMap.mem_entries, Option.bind_eq_some_iff]
  unfold decoded filterMapEntries
  rw [List.mem_filterMap]
  constructor
  · rintro ⟨⟨j, bs⟩, hm, he⟩
    obtain ⟨v', hv, he⟩ := Option.map_eq_some_iff.mp he
    obtain ⟨rfl, rfl⟩ := Prod.mk.inj he
    exact ⟨bs, OrdMap.mem_entries.mp hm, hv⟩
  · rintro ⟨bs, hg, hv⟩
    exact ⟨(k, bs), OrdMap.mem_entries.mpr hg, by rw [hv]; rfl⟩

/-- Writing an encoded value. -/
theorem decoded_put (m : OrdMap κ Bytes) (k : κ) {a : α} (h : c.Fits a) :
    decoded c (m.put k (c.serialize a)) = (decoded c m).put k a := by
  refine OrdMap.ext_get fun j => ?_
  rw [get_decoded, OrdMap.get_put, OrdMap.get_put]
  split_ifs
  · exact c.deserialize_serialize h
  · rw [get_decoded]

end Decoded

/-! ### Little-endian numbers -/

/-- The last `w` digits of `n` to the base 256, least significant first. -/
def leBytes : ℕ → ℕ → Bytes
  | 0, _ => []
  | w + 1, n => UInt8.ofNat n :: leBytes w (n / 256)

/-- The number with the given digits. -/
def fromLe : Bytes → ℕ
  | [] => 0
  | b :: bs => b.toNat + 256 * fromLe bs

@[simp] theorem length_leBytes : ∀ w n : ℕ, (leBytes w n).length = w
  | 0, _ => rfl
  | w + 1, n => by rw [leBytes, List.length_cons, length_leBytes w]

theorem fromLe_leBytes : ∀ {w n : ℕ}, n < 256 ^ w → fromLe (leBytes w n) = n
  | 0, n, h => by
    obtain rfl : n = 0 := by simpa using h
    rfl
  | w + 1, n, h => by
    have hdiv : n / 256 < 256 ^ w := by
      rw [pow_succ'] at h
      exact Nat.div_lt_of_lt_mul h
    rw [leBytes, fromLe, fromLe_leBytes hdiv, UInt8.toNat_ofNat']
    exact Nat.mod_add_div n 256

theorem fromLe_lt : ∀ bs : Bytes, fromLe bs < 256 ^ bs.length
  | [] => by simp [fromLe]
  | b :: bs => by
    have hb := b.toNat_lt
    have ih := fromLe_lt bs
    rw [fromLe, List.length_cons, pow_succ']
    omega

theorem leBytes_fromLe : ∀ bs : Bytes, leBytes bs.length (fromLe bs) = bs
  | [] => rfl
  | b :: bs => by
    have hb := b.toNat_lt
    have hhead : UInt8.ofNat (b.toNat + 256 * fromLe bs) = b := by
      refine UInt8.toNat_inj.mp ?_
      rw [UInt8.toNat_ofNat']
      omega
    have htail : (b.toNat + 256 * fromLe bs) / 256 = fromLe bs := by omega
    rw [List.length_cons, fromLe, leBytes, hhead, htail, leBytes_fromLe bs]

/-! ### A number and a byte string -/

/-- The number, the length and the bytes. -/
def writeTimed (x : ℕ × Bytes) : Bytes := leBytes 8 x.1 ++ (leBytes 8 x.2.length ++ x.2)

/-- The next `w` bytes and what follows them. -/
def takeExact (w : ℕ) (bs : Bytes) : Option (Bytes × Bytes) :=
  if bs.length < w then none else some (bs.take w, bs.drop w)

/-- The reader, which ignores what follows the encoding. -/
def readTimed (bs : Bytes) : Option (ℕ × Bytes) :=
  (takeExact 8 bs).bind fun (num, bs) =>
    (takeExact 8 bs).bind fun (len, bs) =>
      (takeExact (fromLe len) bs).map fun (data, _) => (fromLe num, data)

/-- The number and the length fit in eight bytes. -/
def FitsTimed (x : ℕ × Bytes) : Prop := x.1 < 2 ^ 64 ∧ x.2.length < 2 ^ 64

instance (x : ℕ × Bytes) : Decidable (FitsTimed x) :=
  inferInstanceAs (Decidable (x.1 < 2 ^ 64 ∧ x.2.length < 2 ^ 64))

theorem takeExact_eq_some {w : ℕ} {bs p r : Bytes} :
    takeExact w bs = some (p, r) ↔ p.length = w ∧ bs = p ++ r := by
  unfold takeExact
  constructor
  · intro h
    split_ifs at h with hlt
    obtain ⟨rfl, rfl⟩ := Prod.mk.inj (Option.some.inj h)
    exact ⟨by rw [List.length_take]; omega, (List.take_append_drop w bs).symm⟩
  · rintro ⟨rfl, rfl⟩
    rw [if_neg (by simp), List.take_left, List.drop_left]

/-- **What is accepted is an encoding, with anything behind it.** -/
theorem readTimed_eq_some {bs : Bytes} {x : ℕ × Bytes} :
    readTimed bs = some x ↔ FitsTimed x ∧ ∃ rest, bs = writeTimed x ++ rest := by
  unfold readTimed
  simp only [Option.bind_eq_some_iff, Option.map_eq_some_iff, Prod.exists, takeExact_eq_some]
  constructor
  · rintro ⟨num, _, ⟨hnum, rfl⟩, len, _, ⟨hlen, rfl⟩, data, rest, ⟨hdata, rfl⟩, rfl⟩
    have h1 := fromLe_lt num
    have h2 := fromLe_lt len
    rw [hnum] at h1
    rw [hlen, ← hdata] at h2
    refine ⟨⟨h1, h2⟩, rest, ?_⟩
    have e1 := leBytes_fromLe num
    have e2 := leBytes_fromLe len
    rw [hnum] at e1
    rw [hlen] at e2
    rw [writeTimed, e1, hdata, e2, List.append_assoc, List.append_assoc]
  · rintro ⟨⟨h1, h2⟩, rest, rfl⟩
    refine ⟨leBytes 8 x.1, _, ⟨length_leBytes _ _, ?_⟩, leBytes 8 x.2.length, _,
      ⟨length_leBytes _ _, List.append_assoc _ _ _⟩, x.2, rest, ⟨?_, rfl⟩, ?_⟩
    · rw [writeTimed, List.append_assoc]
    · exact (fromLe_leBytes h2).symm
    · rw [fromLe_leBytes h1]

/-- **The format of records** that are a number and a byte string. -/
def fixedWidth {α : Type} (e : α ≃ ℕ × Bytes) : Codec α where
  Fits a := FitsTimed (e a)
  serialize a := writeTimed (e a)
  deserialize bs := (readTimed bs).map e.symm
  deserialize_serialize h := by
    rw [readTimed_eq_some.mpr ⟨h, [], (List.append_nil _).symm⟩, Option.map_some,
      Equiv.symm_apply_apply]

end Diynamo.Lib.Binary
