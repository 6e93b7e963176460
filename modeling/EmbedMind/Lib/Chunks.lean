import Mathlib.Tactic

/-!
# Chunks of a list

`chunks cap l` cuts a list into pieces of `cap` elements, the last one possibly
shorter. The pieces concatenate to the list (`chunks_flatten`), and the piece at
an index is the one that starts at that multiple of `cap` (`chunks_getElem?`).
-/

namespace Lib

variable {α : Type}

/-- `slice::chunks`; `fuel` bounds the number of chunks by the number of elements. -/
def chunksUpTo (cap : Nat) : Nat → List α → List (List α)
  | 0, _ => []
  | fuel + 1, value =>
      if value.isEmpty then [] else value.take cap :: chunksUpTo cap fuel (value.drop cap)

def chunks (cap : Nat) (value : List α) : List (List α) := chunksUpTo cap value.length value

/-- The chunks, with fuel enough for the whole value, give it back. -/
theorem chunksUpTo_flatten {cap fuel : Nat} {value : List α} (hcap : 0 < cap)
    (hf : value.length ≤ fuel) : (chunksUpTo cap fuel value).flatten = value := by
  induction fuel generalizing value with
  | zero =>
      obtain rfl := List.length_eq_zero_iff.mp (Nat.le_zero.mp hf)
      rfl
  | succ fuel ih =>
      unfold chunksUpTo
      split
      · rename_i h
        rw [List.isEmpty_iff.mp h]
        rfl
      · rename_i h
        have hpos : 0 < value.length := by
          rw [List.length_pos_iff]
          simpa using h
        rw [List.flatten_cons, ih (by simp; omega), List.take_append_drop]

/-- The chunks give the value back. -/
theorem chunks_flatten {cap : Nat} (hcap : 0 < cap) (value : List α) :
    (chunks cap value).flatten = value :=
  chunksUpTo_flatten hcap (le_refl _)

/-- Every chunk holds at least one element and at most `cap`. -/
theorem mem_chunksUpTo {cap fuel : Nat} {value chunk : List α} (hcap : 0 < cap)
    (h : chunk ∈ chunksUpTo cap fuel value) : 0 < chunk.length ∧ chunk.length ≤ cap := by
  induction fuel generalizing value with
  | zero => cases h
  | succ fuel ih =>
      unfold chunksUpTo at h
      split at h
      · cases h
      · rename_i hne
        have hpos : 0 < value.length := by
          rw [List.length_pos_iff]
          simpa using hne
        rcases List.mem_cons.mp h with rfl | h
        · rw [List.length_take]
          omega
        · exact ih h

/-- The number of chunks is the length over the capacity, rounded up. -/
theorem chunksUpTo_length {cap fuel : Nat} {value : List α} (hcap : 0 < cap)
    (hf : value.length ≤ fuel) :
    (chunksUpTo cap fuel value).length = (value.length + cap - 1) / cap := by
  induction fuel generalizing value with
  | zero =>
      obtain rfl := List.length_eq_zero_iff.mp (Nat.le_zero.mp hf)
      simp only [chunksUpTo, List.length_nil, Nat.zero_add]
      rw [Nat.div_eq_of_lt (by omega)]
  | succ fuel ih =>
      unfold chunksUpTo
      split
      · rename_i h
        rw [List.isEmpty_iff.mp h, List.length_nil, List.length_nil, Nat.zero_add,
          Nat.div_eq_of_lt (by omega)]
      · rename_i h
        have hpos : 0 < value.length := by
          rw [List.length_pos_iff]
          simpa using h
        rw [List.length_cons, ih (by simp; omega), List.length_drop]
        rcases le_total value.length cap with hle | hle
        · have h0 : value.length - cap = 0 := by omega
          rw [h0, Nat.zero_add, Nat.div_eq_of_lt (by omega : cap - 1 < cap)]
          have h1 : value.length + cap - 1 = value.length - 1 + cap := by omega
          rw [h1, Nat.add_div_right _ hcap, Nat.div_eq_of_lt (by omega)]
        · have h1 : value.length + cap - 1 = value.length - cap + cap - 1 + cap := by omega
          rw [h1, Nat.add_div_right _ hcap]

/-- A value that is not empty has a chunk. -/
theorem chunks_ne_nil (cap : Nat) {value : List α} (h : 0 < value.length) :
    chunks cap value ≠ [] := by
  unfold chunks
  obtain ⟨n, hn⟩ : ∃ n, value.length = n + 1 := ⟨value.length - 1, by omega⟩
  have hne : value.isEmpty = false := by
    cases value with
    | nil => simp at h
    | cons _ _ => rfl
  rw [hn, chunksUpTo, hne]
  simp

/-- The chunk at place `b`, with fuel. -/
theorem chunksUpTo_getElem? {cap fuel b : Nat} {value : List α}
    (hb : b < (chunksUpTo cap fuel value).length) :
    (chunksUpTo cap fuel value)[b]? = some ((value.drop (b * cap)).take cap) := by
  induction fuel generalizing value b with
  | zero => simp [chunksUpTo] at hb
  | succ fuel ih =>
      unfold chunksUpTo at hb ⊢
      split
      · rename_i h
        rw [if_pos h] at hb
        simp at hb
      · rename_i h
        rw [if_neg h] at hb
        cases b with
        | zero => simp
        | succ b =>
            have hb' : b < (chunksUpTo cap fuel (value.drop cap)).length := by simpa using hb
            rw [List.getElem?_cons_succ, ih hb', List.drop_drop, Nat.succ_mul, Nat.add_comm cap]

/-- The number of chunks. -/
theorem chunks_length {cap : Nat} (hcap : 0 < cap) (value : List α) :
    (chunks cap value).length = (value.length + cap - 1) / cap :=
  chunksUpTo_length hcap (le_refl _)

/-- The chunks have room for the list. -/
theorem length_le_of_chunks {cap : Nat} (hcap : 0 < cap) (value : List α) :
    value.length ≤ (chunks cap value).length * cap := by
  rw [chunks_length hcap]
  have hdiv := Nat.div_add_mod (value.length + cap - 1) cap
  have hmod := Nat.mod_lt (value.length + cap - 1) hcap
  rw [Nat.mul_comm]
  omega

/-- The chunk at place `b` starts at `b * cap`. -/
theorem chunks_getElem? {cap b : Nat} {value : List α} (hb : b < (chunks cap value).length) :
    (chunks cap value)[b]? = some ((value.drop (b * cap)).take cap) :=
  chunksUpTo_getElem? hb

end Lib
