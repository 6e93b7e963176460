import EmbedMind.Lib.Faults
import Mathlib.Data.Set.Basic

/-!
# Programs that stay within what they own

A `Usage` says which operations a program may call with what it owns, and what a
call hands out. `Prog.Within` follows a program through all results its calls can
have, without a state: every call is allowed by what is owned at that point. A
relation between what is owned and the state that allowed operations keep
(`Usage.Keeps`) then holds at the end of a run and wherever it is cut short, which
is the frame rule of a machine: what is apart from the program stays as it is.
-/

namespace Lib

universe u

/-- Which operations may be called with what is owned, and what their results add to it. -/
structure Usage {S : Type u} (M : Machine S) (A : Type) where
  allows : Set A → M.Op → Prop
  grow : Set A → (o : M.Op) → M.Res o → Set A
  subset_grow : ∀ a o r, a ⊆ grow a o r

variable {S : Type u} {M : Machine S} {A : Type} {U : Usage M A} {α β ε : Type} {a : Set A}

namespace Prog

/-- Every call is allowed by what is owned by then, and in the end `Q` holds of the result and of what is owned. -/
def Within (U : Usage M A) : Set A → Prog M α → (α → Set A → Prop) → Prop
  | a, ret x, Q => Q x a
  | a, op o k, Q => U.allows a o ∧ ∀ r, (k r).Within U (U.grow a o r) Q

namespace Within

variable {p : Prog M α} {φ : α → Prop} {Q Q' : α → Set A → Prop}

/-- What is owned stays owned, and the result is one the program returns. -/
theorem mono (h : p.Within U a Q) (he : p.Ends φ) (hQ : ∀ x b, a ⊆ b → φ x → Q x b → Q' x b) : p.Within U a Q' := by
  induction p generalizing a with
  | ret x => exact hQ x a (Set.Subset.refl a) he h
  | op o k ih =>
      rcases h with ⟨hallowed, hk⟩
      refine ⟨hallowed, ?_⟩
      intro r
      exact ih r (hk r) (he r) fun x b hle => hQ x b ((U.subset_grow a o r).trans hle)

/-- The rule of a sequence. -/
theorem bind {f : α → Prog M β} {Q : β → Set A → Prop} (h : p.Within U a fun x b => (f x).Within U b Q) :
    (p.bind f).Within U a Q := by
  induction p generalizing a with
  | ret x => exact h
  | op o k ih => exact ⟨h.1, fun r => ih r (h.2 r)⟩

end Within

end Prog

/-- A relation between what is owned and the state, kept by every allowed operation. -/
structure Usage.Keeps (U : Usage M A) (I : Set A → S → Prop) : Prop where
  exec : ∀ a s o, I a s → U.allows a o → I (U.grow a o (M.exec s o).2) (M.exec s o).1
  torn : ∀ a s s' o, I a s → U.allows a o → M.torn s o s' → I a s'

namespace Prog.Within

variable {p : Prog M α} {Q : α → Set A → Prop} {I : Set A → S → Prop} {s s' : S}

/-- What allowed operations keep holds at the end of a run. -/
theorem run (h : p.Within U a Q) (hI : U.Keeps I) (hs : I a s) : ∃ b, Q (p.run s).2 b ∧ I b (p.run s).1 := by
  induction p generalizing a s with
  | ret x => exact ⟨a, h, hs⟩
  | op o k ih => exact ih _ (h.2 _) (hI.exec a s o hs h.1)

/-- And wherever it is cut short. -/
theorem interrupt (h : p.Within U a Q) (hI : U.Keeps I) (hs : I a s) (hcut : Interrupt p s s') : ∃ b, I b s' := by
  induction hcut generalizing a with
  | here p s => exact ⟨a, hs⟩
  | torn o k s s' ht => exact ⟨a, hI.torn a s s' o hs h.1 ht⟩
  | later o k s s' _ ih => exact ih (h.2 _) (hI.exec a s o hs h.1)

end Prog.Within

/-- What holds of every program. -/
theorem Wpc.any {p : Prog M α} {s : S} : Wpc p s (fun _ _ => True) fun _ => True := ⟨trivial, fun _ _ => trivial⟩

/-- The frame rule: beside what a program does there holds what its operations keep. -/
theorem Wpc.within {p : Prog M α} {s : S} {Q : α → S → Prop} {C : S → Prop} {Q' : α → Set A → Prop} {I : Set A → S → Prop}
    (h : Wpc p s Q C) (hp : p.Within U a Q') (hI : U.Keeps I) (hs : I a s) :
    Wpc p s (fun x s' => Q x s' ∧ ∃ b, Q' x b ∧ I b s') fun s' => C s' ∧ ∃ b, I b s' :=
  ⟨⟨h.1, hp.run hI hs⟩, fun s' hcut => ⟨h.2 s' hcut, hp.interrupt hI hs hcut⟩⟩

end Lib
