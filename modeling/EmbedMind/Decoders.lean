import EmbedMind.Lib.Decoding
import EmbedMind.Format

/-!
# Decoding pages and values

The steps the decoders share: a field is read or is not there, and a page or a value that
breaks the format is refused as malformed.
-/

namespace EmbedMind

open Lib

variable {α β : Type} {P : Error → Prop} {Q : β → Prop} {e : Error}

/-- A value that must be there, and what follows it. -/
theorem ends_present {o : Option α} {f : α → Except Error β} (he : P e)
    (h : ∀ a, o = some a → Ends Q P (f a)) : Ends Q P (okOr o e >>= f) := by
  cases o with
  | none => exact Ends.error he
  | some a => exact h a rfl

/-- A field is read, and is within its width, or the page ends before it. -/
theorem ends_field {page : Bytes} {off w : Nat} {f : Nat → Except Error β} (he : P e)
    (h : ∀ n, n < 256 ^ w → Ends Q P (f n)) : Ends Q P (okOr (readLE page off w) e >>= f) := by
  refine ends_present he ?_
  intro n hn
  exact h n (readLE_lt hn)

/-- The page is refused as malformed. -/
def Malformed (pageNo : Nat) (e : Error) : Prop := ∃ what, e = .malformedPage pageNo what

theorem ends_malformed (pageNo : Nat) (what : String) : Ends Q (Malformed pageNo) (.error (.malformedPage pageNo what)) :=
  Ends.error ⟨what, rfl⟩

end EmbedMind
