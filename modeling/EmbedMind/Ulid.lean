import EmbedMind.Storage.Btree

/-!
# Record ids

A ULID is a 128-bit number. Its byte form is big-endian, so the order of the record
tree's keys is the order of the ids (`key_lt_key`).
-/

namespace EmbedMind

open Lib

abbrev Ulid := Fin (2 ^ 128)

instance Ulid.neZero : NeZero (2 ^ 128) := inferInstance

instance Ulid.lawfulBEq : LawfulBEq Ulid := inferInstance

namespace Ulid

def toBytes (id : Ulid) : Bytes := (leBytes 16 id.val).reverse

/-- `Ulid::from_bytes`, for the bytes of an array of 16. -/
def fromBytes (bs : Bytes) : Ulid := ⟨leNat bs.reverse % 2 ^ 128, Nat.mod_lt _ (by norm_num)⟩

@[simp] theorem toBytes_length (id : Ulid) : (toBytes id).length = 16 := by
  simp [toBytes]

/-- An id is read back. -/
@[simp] theorem fromBytes_toBytes (id : Ulid) : fromBytes (toBytes id) = id := by
  have hlt : id.val < 256 ^ 16 := id.isLt
  apply Fin.ext
  simp only [fromBytes, toBytes, List.reverse_reverse, leNat_leBytes_of_lt hlt]
  exact Nat.mod_eq_of_lt id.isLt

/-- Sixteen bytes are an id. -/
theorem toBytes_fromBytes {bs : Bytes} (h : bs.length = 16) : toBytes (fromBytes bs) = bs := by
  have hlen : bs.reverse.length = 16 := by rw [List.length_reverse, h]
  have hlt : leNat bs.reverse < 2 ^ 128 := by simpa [hlen] using leNat_lt bs.reverse
  have hle : leBytes 16 (leNat bs.reverse) = bs.reverse := by rw [← hlen, leBytes_leNat]
  simp only [toBytes, fromBytes, Nat.mod_eq_of_lt hlt, hle, List.reverse_reverse]

/-- Ids differ in their bytes. -/
theorem toBytes_inj {a b : Ulid} (h : toBytes a = toBytes b) : a = b := by
  rw [← fromBytes_toBytes a, h, fromBytes_toBytes]

/-- The record tree's key of an id. -/
def key (id : Ulid) : Key := ⟨toBytes id, toBytes_length id⟩

/-- Keys are in the order of their ids. -/
@[simp] theorem key_lt_key {a b : Ulid} : key a < key b ↔ a < b := by
  have ha : a.val < 256 ^ 16 := a.isLt
  have hb : b.val < 256 ^ 16 := b.isLt
  have hlen : (toBytes a).length = (toBytes b).length := by simp
  show toBytes a < toBytes b ↔ a < b
  rw [lt_iff_reverse_leNat_lt hlen]
  simp only [toBytes, List.reverse_reverse, leNat_leBytes_of_lt ha, leNat_leBytes_of_lt hb,
    Fin.lt_def]

end Ulid

end EmbedMind
