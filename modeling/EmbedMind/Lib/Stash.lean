import EmbedMind.Lib.Fallible

/-!
# A check whose error is put aside

A loop asks a predicate that can only say yes or no, but answering takes a check that may
fail. The first error is put aside, nothing passes from then on, and once the loop has ended
the error is what is reported. `Follows` compares such a loop with the one whose predicate
takes a failing check for a no: they do the same unless some check fails.
-/

namespace Lib

variable {ε ι α β : Type}

/-- Fallible steps with a place for an error put aside. -/
abbrev StashM (ε : Type) := StateT (Option ε) (Except ε)

/-- A check as a predicate. -/
def stashing (check : ι → Except ε Bool) (i : ι) : StashM ε Bool := do
  let stash ← get
  if stash.isSome then pure false
  else
    match check i with
    | .ok b => pure b
    | .error e => do
        set (some e)
        pure false

/-- The result of a loop, or the error that was put aside in it. -/
def settle (p : StashM ε α) : Except ε α := do
  let (a, stash) ← p.run none
  match stash with
  | some e => .error e
  | none => .ok a

/-- The check as a predicate that takes an error for a no. -/
def passes (check : ι → Except ε Bool) (i : ι) : Bool :=
  match check i with
  | .ok b => b
  | .error _ => false

/-- As long as nothing is put aside `p` does what `q` does; what is put aside is the error of a check and
stays. -/
structure Follows (check : ι → Except ε Bool) (p : StashM ε α) (q : Except ε α) : Prop where
  clean : p none = q.map (fun a => (a, none)) ∨
    ∃ i e, check i = .error e ∧ ∀ r, p none = .ok r → r.2 = some e
  kept : ∀ e r, p (some e) = .ok r → r.2 = some e

namespace Follows

variable {check : ι → Except ε Bool}

theorem pure (a : α) : Follows check (Pure.pure a) (.ok a) where
  clean := Or.inl rfl
  kept := by
    intro e r hr
    cases hr
    rfl

theorem lift (x : Except ε α) : Follows check (liftM x) x where
  clean := by
    cases x with
    | error e => exact Or.inl rfl
    | ok a => exact Or.inl rfl
  kept := by
    intro e r hr
    cases x with
    | error e' => cases hr
    | ok a =>
        cases hr
        rfl

/-- The rule of a sequence. -/
theorem bind {p : StashM ε α} {q : Except ε α} {f : α → StashM ε β} {g : α → Except ε β} (hp : Follows check p q)
    (hf : ∀ a, Follows check (f a) (g a)) : Follows check (p >>= f) (q >>= g) where
  clean := by
    change (p none >>= fun r => f r.1 r.2) = _ ∨ ∃ i e, check i = .error e ∧
      ∀ r, (p none >>= fun r => f r.1 r.2) = .ok r → r.2 = some e
    rcases hp.clean with hclean | ⟨i, e, hi, hstash⟩
    · cases q with
      | error e =>
          rw [hclean]
          exact Or.inl rfl
      | ok a =>
          rw [hclean]
          exact (hf a).clean
    · refine Or.inr ⟨i, e, hi, ?_⟩
      intro r hr
      rcases bind_eq_ok.mp hr with ⟨r₁, hr₁, hr₂⟩
      rw [hstash r₁ hr₁] at hr₂
      exact (hf r₁.1).kept e r hr₂
  kept := by
    intro e r hr
    change (p (some e) >>= fun r => f r.1 r.2) = .ok r at hr
    rcases bind_eq_ok.mp hr with ⟨r₁, hr₁, hr₂⟩
    rw [hp.kept e r₁ hr₁] at hr₂
    exact (hf r₁.1).kept e r hr₂

/-- A step that succeeds. -/
theorem lift_ok {a : α} {f : α → StashM ε β} {q : Except ε β} (h : Follows check (f a) q) :
    Follows check ((liftM (.ok a : Except ε α) : StashM ε α) >>= f) q := by
  rw [show ((liftM (.ok a : Except ε α) : StashM ε α) >>= f) = f a from rfl]
  exact h

/-- A single question. -/
theorem stashing (i : ι) : Follows check (Lib.stashing check i) (.ok (passes check i)) where
  clean := by
    cases hi : check i with
    | ok b =>
        left
        unfold Lib.stashing passes
        simp only [hi]
        rfl
    | error e =>
        refine Or.inr ⟨i, e, hi, ?_⟩
        intro r hr
        unfold Lib.stashing at hr
        simp only [hi] at hr
        cases hr
        rfl
  kept := by
    intro e r hr
    cases hr
    rfl

/-- The rule of a loop. -/
theorem foldlM {f : α → β → StashM ε α} {g : α → β → α} (h : ∀ a b, Follows check (f a b) (.ok (g a b))) (l : List β)
    (a : α) : Follows check (l.foldlM f a) (.ok (l.foldl g a)) := by
  induction l generalizing a with
  | nil => exact pure a
  | cons b l ih =>
      rw [List.foldlM_cons, List.foldl_cons]
      exact (h a b).bind (g := fun a => .ok (l.foldl g a)) ih

/-- What a loop comes to: the same as without errors, or it fails and so does some check. -/
theorem settle {p : StashM ε α} {q : Except ε α} (h : Follows check p q) :
    Lib.settle p = q ∨ ((∃ i e, check i = .error e) ∧ ∃ e, Lib.settle p = .error e) := by
  unfold Lib.settle
  rcases h.clean with hclean | ⟨i, e, hi, hstash⟩
  · left
    change (p none >>= _) = q
    rw [hclean]
    cases q <;> rfl
  · right
    refine ⟨⟨i, e, hi⟩, ?_⟩
    change ∃ e, (p none >>= _) = .error e
    cases hp : p none with
    | error e' => exact ⟨e', rfl⟩
    | ok r =>
        rcases r with ⟨a, stash⟩
        have hs := hstash _ hp
        dsimp only at hs
        subst hs
        exact ⟨e, rfl⟩

end Follows

/-! ## With a state of the loop's own -/

/-- Steps that ask nothing. -/
def quiet {σ : Type} (p : StateT σ (Except ε) α) : StateT σ (StashM ε) α := fun s => liftM (p s)

/-- From every state `p` follows `q`. -/
def FollowsIn {σ : Type} (check : ι → Except ε Bool) (p : StateT σ (StashM ε) α) (q : StateT σ (Except ε) α) : Prop :=
  ∀ s, Follows check (p s) (q s)

namespace FollowsIn

variable {σ : Type} {check : ι → Except ε Bool}

theorem pure (a : α) : FollowsIn check (Pure.pure a : StateT σ (StashM ε) α) (Pure.pure a) := fun s => Follows.pure (a, s)

/-- A computation that asks nothing. -/
theorem quiet (p : StateT σ (Except ε) α) : FollowsIn check (Lib.quiet p) p := fun s => Follows.lift (p s)

theorem bind {p : StateT σ (StashM ε) α} {q : StateT σ (Except ε) α} {f : α → StateT σ (StashM ε) β}
    {g : α → StateT σ (Except ε) β} (hp : FollowsIn check p q) (hf : ∀ a, FollowsIn check (f a) (g a)) :
    FollowsIn check (p >>= f) (q >>= g) :=
  fun s => (hp s).bind fun r => hf r.1 r.2

/-- Asking one check. -/
theorem ask (i : ι) {f : Bool → StateT σ (StashM ε) β} {g : Bool → StateT σ (Except ε) β}
    (hf : ∀ b, FollowsIn check (f b) (g b)) :
    FollowsIn check ((liftM (stashing check i) : StateT σ (StashM ε) Bool) >>= f) (g (passes check i)) := by
  intro s
  have hask : Follows check ((stashing check i) >>= fun b => f b s) ((.ok (passes check i) : Except ε Bool) >>= fun b => g b s) :=
    (Follows.stashing i).bind fun b => hf b s
  have hlift : ((liftM (stashing check i) : StateT σ (StashM ε) Bool) >>= f) s = stashing check i >>= fun b => f b s := by
    funext stash
    change ((stashing check i stash >>= fun r => _) >>= fun r => _) = (stashing check i stash >>= fun r => _)
    cases stashing check i stash <;> rfl
  rw [hlift]
  exact hask

end FollowsIn

end Lib
