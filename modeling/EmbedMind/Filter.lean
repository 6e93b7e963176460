import EmbedMind.Lib.Binary64
import EmbedMind.Record

/-!
# Metadata filters (`record.rs`)

A predicate on the value that a memory stores under a key. A memory without the key does not
match; a value of another type than the filter's is an error. Numbers are compared as `f64`.
-/

namespace EmbedMind

open Lib Lib.Assoc

/-- The same variant. -/
def Scalar.sameType : Scalar → Scalar → Bool
  | .null, .null => true
  | .bool _, .bool _ => true
  | .i64 _, .i64 _ => true
  | .f64 _, .f64 _ => true
  | .str _, .str _ => true
  | _, _ => false

/-- The derived `==`: floats are equal as numbers. -/
def Scalar.eq : Scalar → Scalar → Bool
  | .null, .null => true
  | .bool a, .bool b => a == b
  | .i64 a, .i64 b => a == b
  | .f64 a, .f64 b => Binary64.eq a b
  | .str a, .str b => a == b
  | _, _ => false

/-- The scalar as an `f64`, if it is numeric. -/
def Scalar.asOrdered : Scalar → Option F64
  | .i64 v => some (Binary64.ofInt v.toInt)
  | .f64 v => some v
  | _ => none

inductive Filter where
  | eq (want : Scalar)
  | range (min max : Option F64)
deriving DecidableEq

namespace Filter

def matchesStored (filter : Filter) (stored : Option Scalar) : Except Error Bool :=
  match stored with
  | none => .ok false
  | some stored =>
      match filter with
      | .eq want =>
          if !want.sameType stored then
            .error (.invalidArgument "recall filter type mismatch: stored value has a different type")
          else .ok (want.eq stored)
      | .range min max =>
          match stored.asOrdered with
          | none => .error (.invalidArgument "recall range filter requires a numeric stored value")
          | some value => .ok (min.all (fun lo => Binary64.le lo value) && max.all fun hi => Binary64.le value hi)

/-- Integers as bounds of a range: an integer between them is never left out, whatever rounding does to the three,
and up to `2 ^ 53` one that is not between them is. -/
theorem range_of_integers (lo hi v : Int64) :
    ∃ b, (Filter.range (some (Binary64.ofInt lo.toInt)) (some (Binary64.ofInt hi.toInt))).matchesStored (some (.i64 v)) = .ok b ∧
      (lo ≤ v ∧ v ≤ hi → b = true) ∧
      (lo.toInt.natAbs ≤ 2 ^ 53 → hi.toInt.natAbs ≤ 2 ^ 53 → v.toInt.natAbs ≤ 2 ^ 53 → b = true → lo ≤ v ∧ v ≤ hi) := by
  have hsize : ∀ x : Int64, x.toInt.natAbs ≤ 2 ^ 63 := by
    intro x
    have h1 := x.le_toInt
    have h2 := x.toInt_lt
    omega
  refine ⟨_, rfl, ?_, ?_⟩
  · intro h
    rw [Int64.le_iff_toInt_le, Int64.le_iff_toInt_le] at h
    simp only [Option.all_some, Binary64.le_ofInt (hsize _) (hsize _) h.1, Binary64.le_ofInt (hsize _) (hsize _) h.2,
      Bool.and_self]
  · intro hlo hhi hv hb
    simp only [Option.all_some, Bool.and_eq_true, Binary64.le_ofInt_iff hlo hv, Binary64.le_ofInt_iff hv hhi] at hb
    rw [Int64.le_iff_toInt_le, Int64.le_iff_toInt_le]
    exact hb

end Filter

end EmbedMind
