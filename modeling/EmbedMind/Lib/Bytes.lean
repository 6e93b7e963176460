import Mathlib.Tactic
import Mathlib.Data.List.GetD
import Mathlib.Data.List.Lex

/-!
# Byte strings

Byte buffers as lists of `UInt8`, with the three things a binary format does to
them: little-endian integers (`leBytes`, `leNat`), bounds-checked slices
(`slice`, `readLE`) and writes at an offset (`splice`, which drops a write that
does not fit, and `patch`, which extends the buffer with zeros first).

Two reading rules carry every codec proof: a slice of a buffer is unchanged by a
write that does not touch it (`slice_splice_disjoint`) and is the written value
where it does (`slice_splice_same`). Sequential formats use `HasAt` instead: the
bytes `bs` stand at offset `off`, with `hasAt_append` splitting a concatenation.
-/

namespace Lib

abbrev Bytes := List UInt8

/-- Bytes are ordered by value, and byte strings lexicographically. -/
instance byteOrder : LinearOrder UInt8 where
  le_refl := UInt8.le_refl
  le_trans := fun _ _ _ => UInt8.le_trans
  le_antisymm := fun _ _ => UInt8.le_antisymm
  le_total := UInt8.le_total
  lt_iff_le_not_ge := fun a b => by
    simp only [UInt8.le_iff_toNat_le, UInt8.lt_iff_toNat_lt]
    omega
  toDecidableLE := inferInstance
  toDecidableEq := inferInstance
  toDecidableLT := inferInstance

/-! ## Little-endian integers -/

/-- The low `w` bytes of `n`, least significant first. -/
def leBytes : Nat → Nat → Bytes
  | 0, _ => []
  | w + 1, n => UInt8.ofNat n :: leBytes w (n / 256)

/-- The number a little-endian byte string stands for. -/
def leNat : Bytes → Nat
  | [] => 0
  | b :: bs => b.toNat + 256 * leNat bs

@[simp] theorem leBytes_length (w n : Nat) : (leBytes w n).length = w := by
  induction w generalizing n with
  | zero => rfl
  | succ w ih => simp [leBytes, ih]

/-- Decoding what was written in `w` bytes. -/
theorem leNat_leBytes (w n : Nat) : leNat (leBytes w n) = n % 256 ^ w := by
  induction w generalizing n with
  | zero => simp [leBytes, leNat, Nat.mod_one]
  | succ w ih =>
      simp only [leBytes, leNat, ih]
      have hbyte : (UInt8.ofNat n).toNat = n % 256 := by simp
      rw [hbyte, pow_succ, Nat.mul_comm (256 ^ w) 256, Nat.mod_mul]

theorem leNat_leBytes_of_lt {w n : Nat} (h : n < 256 ^ w) : leNat (leBytes w n) = n := by
  rw [leNat_leBytes, Nat.mod_eq_of_lt h]

/-- A value of `w` bytes is below `256 ^ w`. -/
theorem leNat_lt (bs : Bytes) : leNat bs < 256 ^ bs.length := by
  induction bs with
  | nil => simp [leNat]
  | cons b bs ih =>
      have hb : b.toNat < 256 := b.toNat_lt
      simp only [leNat, List.length_cons, pow_succ]
      omega

/-- Writing what was decoded. -/
theorem leBytes_leNat (bs : Bytes) : leBytes bs.length (leNat bs) = bs := by
  induction bs with
  | nil => rfl
  | cons b bs ih =>
      have hb : b.toNat < 256 := b.toNat_lt
      have hdiv : (b.toNat + 256 * leNat bs) / 256 = leNat bs := by omega
      have hmod : UInt8.ofNat (b.toNat + 256 * leNat bs) = b := by
        apply UInt8.toNat.inj
        simp only [UInt8.toNat_ofNat']
        omega
      simp only [List.length_cons, leBytes, leNat, hdiv, ih, hmod]

/-- A little-endian string of `w` bytes is all the `w`-byte strings there are. -/
theorem eq_leBytes {bs : Bytes} {w : Nat} (h : bs.length = w) : bs = leBytes w (leNat bs) := by
  subst h
  exact (leBytes_leNat bs).symm

/-- Strings of one length with one value are equal. -/
theorem leNat_inj {a b : Bytes} (hlen : a.length = b.length) (h : leNat a = leNat b) : a = b := by
  rw [eq_leBytes (rfl : a.length = a.length), eq_leBytes (rfl : b.length = b.length), hlen, h]

/-- The value of a string in two parts. -/
theorem leNat_append (a b : Bytes) : leNat (a ++ b) = leNat a + 256 ^ a.length * leNat b := by
  induction a with
  | nil => simp [leNat]
  | cons x a ih =>
      simp only [List.cons_append, leNat, ih, List.length_cons, pow_succ]
      ring

/-- Byte strings of one length are ordered as the numbers they are in big-endian form. -/
theorem lt_iff_reverse_leNat_lt {a b : Bytes} (h : a.length = b.length) :
    a < b ↔ leNat a.reverse < leNat b.reverse := by
  induction a generalizing b with
  | nil =>
      obtain rfl := List.length_eq_zero_iff.mp h.symm
      simp
  | cons x a ih =>
      cases b with
      | nil => cases h
      | cons y b =>
          have hlen : a.length = b.length := by simpa using h
          have ha := leNat_lt a.reverse
          have hb := leNat_lt b.reverse
          rw [List.length_reverse] at ha hb
          rw [← hlen] at hb
          rw [List.cons_lt_cons_iff, ih hlen, List.reverse_cons, List.reverse_cons, leNat_append,
            leNat_append, List.length_reverse, List.length_reverse, ← hlen]
          simp only [leNat, Nat.mul_zero, Nat.add_zero]
          -- the leading byte decides, unless it is the same
          rcases lt_trichotomy x y with hxy | rfl | hxy
          · have hmul : 256 ^ a.length * (x.toNat + 1) ≤ 256 ^ a.length * y.toNat :=
              Nat.mul_le_mul_left _ (UInt8.lt_iff_toNat_lt.mp hxy)
            rw [Nat.mul_add] at hmul
            simp only [hxy, true_or, true_iff]
            omega
          · simp
          · have hmul : 256 ^ a.length * (y.toNat + 1) ≤ 256 ^ a.length * x.toNat :=
              Nat.mul_le_mul_left _ (UInt8.lt_iff_toNat_lt.mp hxy)
            rw [Nat.mul_add] at hmul
            have hnot : ¬ (x < y ∨ x = y ∧ leNat a.reverse < leNat b.reverse) := by
              rintro (hlt | ⟨heq, _⟩)
              · exact lt_asymm hlt hxy
              · exact absurd heq (ne_of_gt hxy)
            simp only [hnot, false_iff]
            omega

/-! ## Slices -/

/-- `len` bytes at `off`, or nothing when the buffer ends before. -/
def slice (buf : Bytes) (off len : Nat) : Option Bytes :=
  if off + len ≤ buf.length then some ((buf.drop off).take len) else none

/-- A little-endian integer of `w` bytes at `off`. -/
def readLE (buf : Bytes) (off w : Nat) : Option Nat := (slice buf off w).map leNat

/-- A slice is taken if and only if it ends within the buffer. -/
theorem slice_eq_some {buf bs : Bytes} {off len : Nat} :
    slice buf off len = some bs ↔ off + len ≤ buf.length ∧ (buf.drop off).take len = bs := by
  unfold slice
  split <;> simp_all

theorem slice_of_le {buf : Bytes} {off len : Nat} (h : off + len ≤ buf.length) :
    slice buf off len = some ((buf.drop off).take len) := if_pos h

/-- A slice fails if and only if it would pass the end. -/
theorem slice_eq_none {buf : Bytes} {off len : Nat} :
    slice buf off len = none ↔ buf.length < off + len := by
  unfold slice
  split <;> simp <;> omega

/-- A slice has the length that was asked for. -/
theorem slice_length {buf bs : Bytes} {off len : Nat} (h : slice buf off len = some bs) :
    bs.length = len := by
  obtain ⟨hle, rfl⟩ := slice_eq_some.mp h
  simp
  omega

theorem slice_isSome {buf : Bytes} {off len : Nat} :
    (slice buf off len).isSome = true ↔ off + len ≤ buf.length := by
  unfold slice
  split <;> simp_all

/-- A number that was read fits its width. -/
theorem readLE_lt {buf : Bytes} {off w n : Nat} (h : readLE buf off w = some n) : n < 256 ^ w := by
  unfold readLE at h
  obtain ⟨bs, hbs, rfl⟩ := Option.map_eq_some_iff.mp h
  rw [← slice_length hbs]
  exact leNat_lt bs

/-- Reading a number is decoding the slice. -/
theorem readLE_of_slice {buf bs : Bytes} {off w : Nat} (h : slice buf off w = some bs) :
    readLE buf off w = some (leNat bs) := by
  simp [readLE, h]

theorem readLE_of_le {buf : Bytes} {off w : Nat} (h : off + w ≤ buf.length) :
    readLE buf off w = some (leNat ((buf.drop off).take w)) := by
  rw [readLE, slice_of_le h]
  rfl

/-- Reading back a number that was written. -/
theorem readLE_of_slice_leBytes {buf : Bytes} {off w n : Nat} (hn : n < 256 ^ w)
    (h : slice buf off w = some (leBytes w n)) : readLE buf off w = some n := by
  rw [readLE_of_slice h, leNat_leBytes_of_lt hn]

/-- Slices see a buffer byte by byte. -/
theorem slice_congr {a b : Bytes} {off len : Nat} (hlen : off + len ≤ a.length ↔ off + len ≤ b.length)
    (h : ∀ i, off ≤ i → i < off + len → a[i]? = b[i]?) : slice a off len = slice b off len := by
  unfold slice
  by_cases ha : off + len ≤ a.length
  · rw [if_pos ha, if_pos (hlen.mp ha)]
    congr 1
    apply List.ext_getElem?
    intro i
    by_cases hi : i < len
    · rw [List.getElem?_take_of_lt hi, List.getElem?_take_of_lt hi, List.getElem?_drop,
        List.getElem?_drop]
      exact h (off + i) (by omega) (by omega)
    · rw [List.getElem?_take_eq_none (by omega), List.getElem?_take_eq_none (by omega)]
  · rw [if_neg ha, if_neg (fun hb => ha (hlen.mpr hb))]

/-- A slice of the first part. -/
theorem slice_append_left {a b : Bytes} {off len : Nat} (h : off + len ≤ a.length) :
    slice (a ++ b) off len = slice a off len := by
  apply slice_congr
  · simp
    omega
  · intro i _ hi
    exact List.getElem?_append_left (by omega)

/-- A slice of the second part. -/
theorem slice_append_right {a b : Bytes} {off len : Nat} (h : a.length ≤ off) :
    slice (a ++ b) off len = slice b (off - a.length) len := by
  unfold slice
  have hdrop : (a ++ b).drop off = b.drop (off - a.length) := by
    rw [List.drop_append, List.drop_eq_nil_of_le h, List.nil_append]
  have hcond : off + len ≤ (a ++ b).length ↔ off - a.length + len ≤ b.length := by
    simp
    omega
  simp only [hdrop, hcond]

@[simp] theorem slice_zero_length (a : Bytes) : slice a 0 a.length = some a := by
  simp [slice]

/-- A slice of a slice. -/
theorem slice_take_drop {buf : Bytes} {o n off len : Nat} (ho : o + n ≤ buf.length)
    (h : off + len ≤ n) : slice ((buf.drop o).take n) off len = slice buf (o + off) len := by
  rw [slice_of_le (by simp; omega), slice_of_le (by omega)]
  congr 1
  rw [List.drop_take, List.take_take, List.drop_drop, Nat.min_eq_left (by omega)]

/-! ## Writes -/

/-- Overwrites `val.length` bytes at `off`; a write that does not fit is dropped. -/
def splice (buf : Bytes) (off : Nat) (val : Bytes) : Bytes :=
  if off + val.length ≤ buf.length then buf.take off ++ val ++ buf.drop (off + val.length) else buf

/-- Writes `val` at `off`, extending the buffer with zeros up to the end of the write. -/
def patch (buf : Bytes) (off : Nat) (val : Bytes) : Bytes :=
  splice (buf ++ List.replicate (off + val.length - buf.length) 0) off val

/-- A write in place keeps the length. -/
@[simp] theorem splice_length (buf : Bytes) (off : Nat) (val : Bytes) :
    (splice buf off val).length = buf.length := by
  unfold splice
  split
  · simp
    omega
  · rfl

/-- The bytes of a buffer after a write in place. -/
theorem getElem?_splice_of_le {buf val : Bytes} {off : Nat} (h : off + val.length ≤ buf.length)
    (i : Nat) : (splice buf off val)[i]? =
      if off ≤ i ∧ i < off + val.length then val[i - off]? else buf[i]? := by
  unfold splice
  rw [if_pos h, List.append_assoc]
  by_cases hlo : i < off
  · rw [List.getElem?_append_left (by simp; omega), List.getElem?_take_of_lt hlo,
      if_neg (by omega)]
  · rw [List.getElem?_append_right (by simp; omega)]
    have htake : (buf.take off).length = off := by simp; omega
    rw [htake]
    by_cases hhi : i < off + val.length
    · rw [List.getElem?_append_left (by omega), if_pos (by omega)]
    · rw [List.getElem?_append_right (by omega), if_neg (by omega), List.getElem?_drop]
      congr 1
      omega

/-- Reading the place that was written. -/
theorem slice_splice_same {buf val : Bytes} {off len : Nat} (hlen : val.length = len)
    (h : off + len ≤ buf.length) : slice (splice buf off val) off len = some val := by
  subst hlen
  rw [slice_of_le (by simpa using h)]
  unfold splice
  rw [if_pos h, List.append_assoc, List.drop_append, List.drop_eq_nil_of_le (by simp)]
  have h0 : off - (List.take off buf).length = 0 := by simp; omega
  rw [h0, List.drop_zero, List.nil_append, List.take_left]

/-- Reading a place that was not written. -/
theorem slice_splice_disjoint {buf val : Bytes} {off o n : Nat}
    (h : o + n ≤ off ∨ off + val.length ≤ o) : slice (splice buf off val) o n = slice buf o n := by
  by_cases hfit : off + val.length ≤ buf.length
  · apply slice_congr
    · simp
    · intro i hlo hhi
      rw [getElem?_splice_of_le hfit, if_neg (by omega)]
  · simp [splice, hfit]

/-- Reading a number that was written. -/
theorem readLE_splice_same {buf : Bytes} {off w n : Nat} (hn : n < 256 ^ w)
    (h : off + w ≤ buf.length) : readLE (splice buf off (leBytes w n)) off w = some n :=
  readLE_of_slice_leBytes hn (slice_splice_same (leBytes_length w n) h)

/-- Reading a number beside the write. -/
theorem readLE_splice_disjoint {buf val : Bytes} {off o w : Nat}
    (h : o + w ≤ off ∨ off + val.length ≤ o) : readLE (splice buf off val) o w = readLE buf o w := by
  rw [readLE, readLE, slice_splice_disjoint h]

/-- Writing at the end appends. -/
theorem patch_at_end (buf val : Bytes) : patch buf buf.length val = buf ++ val := by
  unfold patch splice
  rw [if_pos (by simp)]
  simp

/-- Two buffers agree when their lengths and their zero-padded bytes do. -/
theorem ext_getD {a b : Bytes} (hlen : a.length = b.length)
    (h : ∀ i, i < a.length → a.getD i 0 = b.getD i 0) : a = b := by
  apply List.ext_getElem hlen
  intro i hi hi'
  have := h i hi
  rwa [List.getD_eq_getElem _ _ hi, List.getD_eq_getElem _ _ hi'] at this

/-- Slices whose bytes agree are equal. -/
theorem slice_congr_getD {a b : Bytes} {off len : Nat} (ha : off + len ≤ a.length)
    (hb : off + len ≤ b.length) (h : ∀ i, off ≤ i → i < off + len → a.getD i 0 = b.getD i 0) :
    slice a off len = slice b off len := by
  apply slice_congr (by simp [ha, hb])
  intro i hlo hhi
  have := h i hlo hhi
  rw [List.getD_eq_getElem _ _ (by omega), List.getD_eq_getElem _ _ (by omega)] at this
  rw [List.getElem?_eq_getElem (by omega), List.getElem?_eq_getElem (by omega), this]

/-- A byte of a slice is a byte of the buffer. -/
theorem getD_of_slice {buf bs : Bytes} {off len i : Nat} (h : slice buf off len = some bs)
    (hi : i < len) : buf.getD (off + i) 0 = bs.getD i 0 := by
  obtain ⟨hle, rfl⟩ := slice_eq_some.mp h
  rw [List.getD_eq_getElem _ _ (by omega), List.getD_eq_getElem _ _ (by simp; omega)]
  simp

/-- Reading the place that was patched. -/
theorem slice_patch_same {buf val : Bytes} {off len : Nat} (hlen : val.length = len) :
    slice (patch buf off val) off len = some val :=
  slice_splice_same hlen (by simp; omega)

/-- Reading a place that was not patched. -/
theorem slice_patch_disjoint {buf val : Bytes} {off o n : Nat} (hin : o + n ≤ buf.length)
    (h : o + n ≤ off ∨ off + val.length ≤ o) : slice (patch buf off val) o n = slice buf o n := by
  rw [patch, slice_splice_disjoint h, slice_append_left hin]

/-! ## Bytes at an offset -/

/-- The bytes `bs` stand in `buf` at offset `off`. -/
def HasAt (buf : Bytes) (off : Nat) (bs : Bytes) : Prop := slice buf off bs.length = some bs

/-- A string in two parts stands where its parts stand. -/
theorem hasAt_append {buf a b : Bytes} {off : Nat} :
    HasAt buf off (a ++ b) ↔ HasAt buf off a ∧ HasAt buf (off + a.length) b := by
  unfold HasAt
  simp only [slice_eq_some, List.length_append]
  constructor
  · rintro ⟨hle, heq⟩
    refine ⟨⟨by omega, ?_⟩, by omega, ?_⟩
    · have := congrArg (List.take a.length) heq
      rwa [List.take_take, Nat.min_eq_left (by omega), List.take_left] at this
    · have := congrArg (List.drop a.length) heq
      rw [List.drop_left, List.drop_take, List.drop_drop] at this
      rwa [show a.length + b.length - a.length = b.length by omega] at this
  · rintro ⟨⟨h1, e1⟩, h2, e2⟩
    refine ⟨by omega, ?_⟩
    rw [List.take_add, e1, List.drop_drop, e2]

/-- A string stands within the buffer. -/
theorem HasAt.le {buf bs : Bytes} {off : Nat} (h : HasAt buf off bs) :
    off + bs.length ≤ buf.length := (slice_eq_some.mp h).1

theorem HasAt.slice {buf bs : Bytes} {off len : Nat} (h : HasAt buf off bs)
    (hlen : bs.length = len) : slice buf off len = some bs := by
  subst hlen
  exact h

/-- A number that stands there is read. -/
theorem HasAt.readLE {buf : Bytes} {off w n : Nat} (h : HasAt buf off (leBytes w n))
    (hn : n < 256 ^ w) : Lib.readLE buf off w = some n :=
  readLE_of_slice_leBytes hn (h.slice (leBytes_length w n))

/-- The first byte of a string that stands there. -/
theorem HasAt.getElem? {buf : Bytes} {off : Nat} {b : UInt8} {bs : Bytes}
    (h : HasAt buf off (b :: bs)) : buf[off]? = some b := by
  obtain ⟨hle, heq⟩ := slice_eq_some.mp h
  have := congrArg (fun l => l[0]?) heq
  simpa using this

/-- A string stands where its first byte and the rest stand. -/
theorem hasAt_cons {buf : Bytes} {off : Nat} {b : UInt8} {bs : Bytes} :
    HasAt buf off (b :: bs) ↔ HasAt buf off [b] ∧ HasAt buf (off + 1) bs :=
  hasAt_append (a := [b])

/-- The middle part stands behind the first. -/
theorem hasAt_self (a b c : Bytes) : HasAt (a ++ b ++ c) a.length b := by
  unfold HasAt
  rw [slice_append_left (by simp), slice_append_right (Nat.le_refl _), Nat.sub_self,
    slice_zero_length]

theorem hasAt_zero (bs : Bytes) : HasAt bs 0 bs := by
  have h := hasAt_self [] bs []
  simpa using h

/-- A write puts its bytes in place. -/
theorem hasAt_splice {buf bs : Bytes} {off : Nat} (h : off + bs.length ≤ buf.length) :
    HasAt (splice buf off bs) off bs := slice_splice_same rfl h

/-- A write beside a string leaves it. -/
theorem HasAt.splice {buf bs val : Bytes} {off o : Nat} (h : HasAt buf o bs)
    (hd : o + bs.length ≤ off ∨ off + val.length ≤ o) : HasAt (Lib.splice buf off val) o bs := by
  unfold HasAt
  rw [slice_splice_disjoint hd]
  exact h

/-! ## UTF-8 -/

/-- The UTF-8 encoding of a string. -/
def utf8 (s : String) : Bytes := s.toByteArray.data.toList

/-- The string a byte string encodes, if it is valid UTF-8. -/
def ofUtf8? (bs : Bytes) : Option String := String.fromUTF8? ⟨bs.toArray⟩

/-- A string is read from its UTF-8 bytes. -/
@[simp] theorem ofUtf8?_utf8 (s : String) : ofUtf8? (utf8 s) = some s := by
  have hvalid : ByteArray.IsValidUTF8 ⟨(utf8 s).toArray⟩ := s.isValidUTF8
  rw [ofUtf8?, String.fromUTF8?, dif_pos hvalid]
  rfl

/-- The bytes of a string that was read. -/
theorem utf8_of_ofUtf8? {bs : Bytes} {s : String} (h : ofUtf8? bs = some s) : utf8 s = bs := by
  simp only [ofUtf8?, String.fromUTF8?] at h
  split at h
  · cases h
    rfl
  · cases h

/-- UTF-8 tells strings apart. -/
theorem utf8_inj {s t : String} (h : utf8 s = utf8 t) : s = t := by
  have hs := ofUtf8?_utf8 s
  rw [h, ofUtf8?_utf8] at hs
  exact (Option.some.inj hs).symm

@[simp] theorem utf8_empty : utf8 "" = [] := rfl

@[simp] theorem utf8_eq_nil {s : String} : utf8 s = [] ↔ s = "" := by
  constructor
  · intro h
    exact utf8_inj (h.trans utf8_empty.symm)
  · rintro rfl
    rfl

end Lib
