import EmbedMind.Lib.Bytes
import EmbedMind.Lib.Fallible

/-!
# Decoders of untrusted bytes

A decoder run on bytes nobody vouches for ends in a well-formed value or in one of its
errors. `Ends` says both of one run, and its rules follow the decoder step by step: what
a step has established of its result is there for the steps after it.
-/

namespace Lib

variable {ε α β : Type}

/-- A computation ends in a result in `Q` or in an error in `P`. -/
def Ends (Q : α → Prop) (P : ε → Prop) (x : Except ε α) : Prop :=
  (∃ a, x = .ok a ∧ Q a) ∨ ∃ e, x = .error e ∧ P e

namespace Ends

variable {P : ε → Prop} {Q : α → Prop}

theorem ok {a : α} (h : Q a) : Ends Q P (.ok a) := Or.inl ⟨a, rfl, h⟩

theorem error {e : ε} (h : P e) : Ends Q P (.error e) := Or.inr ⟨e, rfl, h⟩

/-- A step with a known result, then the rest. -/
theorem bind {x : Except ε β} {f : β → Except ε α} {R : β → Prop} (hx : Ends R P x)
    (hf : ∀ b, R b → Ends Q P (f b)) : Ends Q P (x >>= f) := by
  rcases hx with ⟨b, rfl, hb⟩ | ⟨e, rfl, he⟩
  · exact hf b hb
  · exact error he

/-- The result of a computation that has ended with one. -/
theorem of_ok {a : α} (h : Ends Q P (.ok a)) : Q a := by
  rcases h with ⟨b, hb, hQ⟩ | ⟨e, he, _⟩
  · cases hb
    exact hQ
  · cases he

/-- Weakening of the result's property. -/
theorem imp {Q' : α → Prop} {x : Except ε α} (h : Ends Q P x) (hQ : ∀ a, Q a → Q' a) : Ends Q' P x := by
  rcases h with ⟨a, hx, ha⟩ | herr
  · exact Or.inl ⟨a, hx, hQ a ha⟩
  · exact Or.inr herr

/-- The two cases of a test. -/
theorem ite {c : Prop} [Decidable c] {x y : Except ε α} (hx : c → Ends Q P x) (hy : ¬ c → Ends Q P y) :
    Ends Q P (if c then x else y) := by
  split
  · rename_i hc
    exact hx hc
  · rename_i hc
    exact hy hc

end Ends

/-! ## Keys that must ascend -/

/-- Strictly ascending by key, and after the key that came before. -/
structure AscendsFrom {κ : Type} [LinearOrder κ] (key : α → κ) (prev : Option κ) (l : List α) : Prop where
  pairwise : l.Pairwise fun a b => key a < key b
  above : ∀ p ∈ prev, ∀ x ∈ l, p < key x

namespace AscendsFrom

variable {κ : Type} [LinearOrder κ] {key : α → κ} {prev : Option κ} {x : α} {l : List α}

theorem nil : AscendsFrom key prev ([] : List α) where
  pairwise := List.Pairwise.nil
  above := by
    intro p _ x hx
    cases hx

/-- A key that is not refused goes before those that are checked against it. -/
theorem cons (hnot : ¬ prev.any (fun p => decide (key x ≤ p)) = true) (h : AscendsFrom key (some (key x)) l) :
    AscendsFrom key prev (x :: l) where
  pairwise := List.pairwise_cons.mpr ⟨h.above (key x) rfl, h.pairwise⟩
  above := by
    intro p hp y hy
    rw [Option.mem_def.mp hp] at hnot
    have hfirst : p < key x := by simpa using hnot
    rcases List.mem_cons.mp hy with rfl | hy
    · exact hfirst
    · exact lt_trans hfirst (h.above (key x) rfl y hy)

end AscendsFrom

/-! ## What has been read stands in the buffer -/

theorem hasAt_nil {buf : Bytes} {off : Nat} (h : off ≤ buf.length) : HasAt buf off [] := by
  rw [HasAt, List.length_nil, slice_of_le (by omega)]
  simp

/-- Writing what is there already changes nothing. -/
theorem splice_hasAt {buf val : Bytes} {off : Nat} (h : HasAt buf off val) : splice buf off val = buf := by
  rcases slice_eq_some.mp h with ⟨hle, heq⟩
  have hrest : val ++ buf.drop (off + val.length) = buf.drop off := by
    rw [← List.drop_drop]
    calc val ++ (buf.drop off).drop val.length
        = (buf.drop off).take val.length ++ (buf.drop off).drop val.length := by rw [heq]
      _ = buf.drop off := List.take_append_drop _ _
  rw [splice, if_pos hle, List.append_assoc, hrest, List.take_append_drop]

/-- A byte that was read stands there. -/
theorem hasAt_of_getElem? {buf : Bytes} {off : Nat} {b : UInt8} (h : buf[off]? = some b) : HasAt buf off [b] := by
  rcases List.getElem?_eq_some_iff.mp h with ⟨hlt, heq⟩
  rw [HasAt, List.length_singleton, slice_of_le (by omega), List.drop_eq_getElem_cons hlt, heq]
  rfl

/-- A slice that was read stands there. -/
theorem hasAt_of_slice {buf bs : Bytes} {off len : Nat} (h : slice buf off len = some bs) : HasAt buf off bs := by
  rw [HasAt, slice_length h]
  exact h

/-- A number that was read stands there. -/
theorem hasAt_of_readLE {buf : Bytes} {off w n : Nat} (h : readLE buf off w = some n) :
    HasAt buf off (leBytes w n) := by
  rcases Option.map_eq_some_iff.mp h with ⟨bs, hbs, rfl⟩
  rw [← eq_leBytes (slice_length hbs)]
  exact hasAt_of_slice hbs

end Lib
