import Mathlib.Tactic

/-!
# Programs over a state that may fail

Pre- and postconditions for `StateT σ (Except ε)`. `Wp p s Q E` says what a run
of `p` from `s` ends in: a result that satisfies `Q`, or an error that satisfies
`E`. A total-correctness statement picks an `E` that only the admitted errors
satisfy; a partial one picks the trivial `E`.
-/

namespace Lib

variable {σ ε α β : Type}

theorem ok_bind (x : α) (f : α → Except ε β) : ((.ok x : Except ε α) >>= f) = f x := rfl

/-- A sequence succeeds when both parts do. -/
theorem bind_eq_ok {x : Except ε α} {f : α → Except ε β} {b : β} :
    (x >>= f) = .ok b ↔ ∃ a, x = .ok a ∧ f a = .ok b := by
  cases x with
  | error e =>
      constructor
      · intro h
        cases h
      · rintro ⟨a, h, _⟩
        cases h
  | ok a =>
      constructor
      · intro h
        exact ⟨a, rfl, h⟩
      · rintro ⟨a', h, hf⟩
        cases h
        exact hf

theorem toOption_eq_some {x : Except ε α} {a : α} : x.toOption = some a ↔ x = .ok a := by
  cases x <;> simp [Except.toOption]

/-- Every error of a computation satisfies `P`. -/
def Errs (P : ε → Prop) (x : Except ε α) : Prop := ∀ e, x = .error e → P e

theorem Errs.ok {P : ε → Prop} (a : α) : Errs P (.ok a) := by
  intro e h
  cases h

theorem Errs.error {P : ε → Prop} {e : ε} (h : P e) : Errs P (.error e : Except ε α) := by
  intro e' h'
  cases h'
  exact h

/-- The errors of a sequence are those of its parts. -/
theorem Errs.bind {P : ε → Prop} {x : Except ε α} {f : α → Except ε β} (hx : Errs P x)
    (hf : ∀ a, x = .ok a → Errs P (f a)) : Errs P (x >>= f) := by
  cases x with
  | error e => exact Errs.error (hx e rfl)
  | ok a => exact hf a rfl

theorem lift_ok_bind (a : α) (f : α → StateT σ (Except ε) β) :
    ((liftM (Except.ok a : Except ε α) : StateT σ (Except ε) α) >>= f) = f a := rfl

/-- The run of `p` from `s` ends in `Q`, or in an error in `E`. -/
def Wp (p : StateT σ (Except ε) α) (s : σ) (Q : α → σ → Prop) (E : ε → Prop) : Prop :=
  match p s with
  | .ok (a, s') => Q a s'
  | .error e => E e

namespace Wp

variable {s : σ} {E E' : ε → Prop}

/-- A computation that is known to succeed. -/
theorem of_ok {p : StateT σ (Except ε) α} {Q : α → σ → Prop} {a : α} {s' : σ}
    (h : p s = .ok (a, s')) (hQ : Q a s') : Wp p s Q E := by
  unfold Wp
  rw [h]
  exact hQ

/-- A computation that is known to fail. -/
theorem of_error {p : StateT σ (Except ε) α} {Q : α → σ → Prop} {e : ε}
    (h : p s = .error e) (hE : E e) : Wp p s Q E := by
  unfold Wp
  rw [h]
  exact hE

/-- What holds of every result, whatever the errors are. -/
theorem of_results {p : StateT σ (Except ε) α} {Q : α → σ → Prop} (h : ∀ a s', p s = .ok (a, s') → Q a s') :
    Wp p s Q (fun _ => True) := by
  unfold Wp
  split
  · rename_i a s' hp
    exact h a s' hp
  · trivial

/-- A successful run satisfies the postcondition. -/
theorem ok {p : StateT σ (Except ε) α} {Q : α → σ → Prop} (h : Wp p s Q E) {a : α} {s' : σ}
    (hp : p s = .ok (a, s')) : Q a s' := by
  unfold Wp at h
  rwa [hp] at h

/-- A failed run satisfies the error condition. -/
theorem error {p : StateT σ (Except ε) α} {Q : α → σ → Prop} (h : Wp p s Q E) {e : ε}
    (hp : p s = .error e) : E e := by
  unfold Wp at h
  rwa [hp] at h

theorem pure {a : α} {Q : α → σ → Prop} (h : Q a s) :
    Wp (Pure.pure a : StateT σ (Except ε) α) s Q E := h

theorem throw {e : ε} {Q : α → σ → Prop} (h : E e) :
    Wp (MonadExcept.throw e : StateT σ (Except ε) α) s Q E := h

theorem get {Q : σ → σ → Prop} (h : Q s s) :
    Wp (MonadState.get : StateT σ (Except ε) σ) s Q E := h

theorem modify {f : σ → σ} {Q : Unit → σ → Prop} (h : Q () (f s)) :
    Wp (MonadState.modifyGet (fun s => ((), f s)) : StateT σ (Except ε) Unit) s Q E := h

/-- The rule of a sequence. -/
theorem bind {p : StateT σ (Except ε) α} {f : α → StateT σ (Except ε) β} {Q : β → σ → Prop}
    (h : Wp p s (fun a s' => Wp (f a) s' Q E) E) : Wp (p >>= f) s Q E := by
  have hrun : (p >>= f) s = (p s).bind (fun r => f r.1 r.2) := rfl
  unfold Wp at h ⊢
  rw [hrun]
  cases hp : p s with
  | error e =>
      rw [hp] at h
      exact h
  | ok r =>
      rw [hp] at h
      exact h

/-- Weakening. -/
theorem mono {p : StateT σ (Except ε) α} {Q Q' : α → σ → Prop} (h : Wp p s Q E)
    (hQ : ∀ a s', Q a s' → Q' a s') (hE : ∀ e, E e → E' e) : Wp p s Q' E' := by
  unfold Wp at h ⊢
  split
  · rename_i a s' hp
    rw [hp] at h
    exact hQ a s' h
  · rename_i e hp
    rw [hp] at h
    exact hE e h

/-- Strengthening the result of a program that is then continued. -/
theorem imp {p : StateT σ (Except ε) α} {Q Q' : α → σ → Prop} (h : Wp p s Q E)
    (hQ : ∀ a s', Q a s' → Q' a s') : Wp p s Q' E :=
  h.mono hQ fun _ he => he

/-- Two facts about one program. -/
theorem and {p : StateT σ (Except ε) α} {Q Q' : α → σ → Prop} (h : Wp p s Q E) (h' : Wp p s Q' E') :
    Wp p s (fun a s' => Q a s' ∧ Q' a s') E := by
  unfold Wp at h h' ⊢
  split
  · rename_i a s' hp
    rw [hp] at h h'
    exact ⟨h, h'⟩
  · rename_i e hp
    rw [hp] at h
    exact h

/-- A pure computation that may fail, run inside the state. -/
theorem lift {x : Except ε α} {Q : α → σ → Prop}
    (hok : ∀ a, x = .ok a → Q a s) (herr : ∀ e, x = .error e → E e) :
    Wp (liftM x : StateT σ (Except ε) α) s Q E := by
  cases x with
  | ok a => exact hok a rfl
  | error e => exact herr e rfl

/-- A loop over a list, beside a fold that `R` relates it to. -/
theorem foldlM {γ : Type} {f : β → α → StateT σ (Except ε) β} {g : γ → α → γ} {R : γ → β → σ → Prop}
    (l : List α) (hstep : ∀ x ∈ l, ∀ c b s, R c b s → Wp (f b x) s (R (g c x)) E) {c : γ} {b : β}
    (h : R c b s) : Wp (l.foldlM f b) s (R (l.foldl g c)) E := by
  induction l generalizing b s c with
  | nil => exact Wp.pure h
  | cons x l ih =>
      rw [List.foldlM_cons, List.foldl_cons]
      refine Wp.bind ((hstep x List.mem_cons_self c b s h).imp ?_)
      intro b' s' h'
      exact ih (fun y hy => hstep y (List.mem_cons_of_mem _ hy)) h'

end Wp

-- the rules above are the interface: elaboration must not run the program of a goal
attribute [irreducible] Wp

end Lib
