import EmbedMind.Lib.Fallible

/-!
# Two programs that run alike

`Agree p q s Q E`: from `s` the program `q` does what `p` does, and `p` meets its
postcondition. Two versions of a program that differ in a branch agree wherever the
invariant rules the branch out.
-/

namespace Lib

variable {σ ε α β : Type}

structure Agree (p q : StateT σ (Except ε) α) (s : σ) (Q : α → σ → Prop) (E : ε → Prop) : Prop where
  wp : Wp p s Q E
  same : q s = p s

namespace Agree

variable {p q : StateT σ (Except ε) α} {s : σ} {Q Q' : α → σ → Prop} {E : ε → Prop}

/-- A computation agrees with itself wherever it meets the specification. -/
theorem of_wp (h : Wp p s Q E) : Agree p p s Q E := ⟨h, rfl⟩

/-- Weakening of the postcondition. -/
theorem imp (h : Agree p q s Q E) (hQ : ∀ a s', Q a s' → Q' a s') : Agree p q s Q' E :=
  ⟨h.wp.imp hQ, h.same⟩

/-- Sequences agree when their first parts do, and their second parts from there on. -/
theorem bind {f g : α → StateT σ (Except ε) β} {Q : β → σ → Prop}
    (h : Agree p q s (fun a s' => Agree (f a) (g a) s' Q E) E) : Agree (p >>= f) (q >>= g) s Q E where
  wp := Wp.bind (h.wp.imp fun _ _ hfg => hfg.wp)
  same := by
    change (q s >>= fun r => g r.1 r.2) = (p s >>= fun r => f r.1 r.2)
    rw [h.same]
    cases hp : p s with
    | error e => rfl
    | ok r => exact (h.wp.ok hp).same

/-- Loops agree when their steps do, along an invariant. -/
theorem foldlM {f g : β → α → StateT σ (Except ε) β} {R : β → σ → Prop} (l : List α)
    (hstep : ∀ x ∈ l, ∀ b s, R b s → Agree (f b x) (g b x) s R E) {b : β} (h : R b s) :
    Agree (l.foldlM f b) (l.foldlM g b) s R E := by
  induction l generalizing b s with
  | nil => exact of_wp (Wp.pure h)
  | cons x l ih =>
      rw [List.foldlM_cons, List.foldlM_cons]
      refine Agree.bind ((hstep x List.mem_cons_self b s h).imp ?_)
      intro b' s' h'
      exact ih (fun y hy => hstep y (List.mem_cons_of_mem _ hy)) h'

end Agree

end Lib
