import Diynamo.Lib.Utf8
import Mathlib.Tactic.SplitIfs

/-! # Node metadata

What a node gossips about itself: the UUID of its startup and its HTTP port, as 18 bytes
`uuid ++ port` with the port in big-endian order. Anything shorter is not metadata
(`fromBytes_eq_none`), and what follows the 18 bytes is ignored (`fromBytes_append`). -/

namespace Diynamo.Cluster.Delegate

open Diynamo.Lib.Utf8

/-- The UUID of a process. -/
abbrev Uuid : Type := Vector UInt8 16

structure NodeMeta where
  uuid : Uuid
  httpPort : UInt16
deriving DecidableEq

/-- The two bytes of a number in big-endian order. -/
def toBeBytes (p : UInt16) : Bytes := [UInt8.ofNat (p.toNat / 256), UInt8.ofNat (p.toNat % 256)]

def fromBeBytes (hi lo : UInt8) : UInt16 := UInt16.ofNat (hi.toNat * 256 + lo.toNat)

namespace NodeMeta

def toBytes (m : NodeMeta) : Bytes := m.uuid.toList ++ toBeBytes m.httpPort

/-- **Decode metadata**: `none` for fewer than 18 bytes. -/
def fromBytes (bytes : Bytes) : Option NodeMeta :=
  if h : bytes.length < 18 then none
  else some {
    uuid := ⟨(bytes.take 16).toArray, by simp; omega⟩
    httpPort := fromBeBytes bytes[16] bytes[17] }

theorem fromBytes_eq_none {bytes : Bytes} : fromBytes bytes = none ↔ bytes.length < 18 := by
  unfold fromBytes
  split_ifs with h <;> simp [h]

theorem fromBeBytes_toBeBytes (p : UInt16) :
    fromBeBytes (UInt8.ofNat (p.toNat / 256)) (UInt8.ofNat (p.toNat % 256)) = p := by
  have hp : p.toNat < 65536 := p.toNat_lt
  have hhi : p.toNat / 256 < UInt8.size := by unfold UInt8.size; omega
  have hlo : p.toNat % 256 < UInt8.size := by unfold UInt8.size; omega
  unfold fromBeBytes
  rw [UInt8.toNat_ofNat_of_lt' hhi, UInt8.toNat_ofNat_of_lt' hlo, Nat.div_add_mod']
  exact UInt16.ofNat_toNat

/-- **Metadata reads back as itself**, whatever follows it. -/
theorem fromBytes_append (m : NodeMeta) (rest : Bytes) :
    fromBytes (m.toBytes ++ rest) = some m := by
  have hlen : m.uuid.toList.length = 16 := Vector.length_toList
  have h18 : ¬ (m.toBytes ++ rest).length < 18 := by
    simp only [toBytes, toBeBytes, List.length_append, hlen, List.length_cons, List.length_nil]
    omega
  have htake : (m.toBytes ++ rest).take 16 = m.uuid.toList := by
    rw [toBytes, List.append_assoc, List.take_append_of_le_length hlen.ge, List.take_of_length_le
      hlen.le]
  have h16 : (m.toBytes ++ rest)[16] = UInt8.ofNat (m.httpPort.toNat / 256) := by
    simp [toBytes, toBeBytes, hlen]
  have h17 : (m.toBytes ++ rest)[17] = UInt8.ofNat (m.httpPort.toNat % 256) := by
    simp [toBytes, toBeBytes, hlen]
  unfold fromBytes
  rw [dif_neg h18]
  simp only [htake, h16, h17, fromBeBytes_toBeBytes]
  rfl

theorem fromBytes_toBytes (m : NodeMeta) : fromBytes m.toBytes = some m := by
  rw [← fromBytes_append m [], List.append_nil]

end NodeMeta

end Diynamo.Cluster.Delegate
