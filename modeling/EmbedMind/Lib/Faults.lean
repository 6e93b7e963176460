import EmbedMind.Lib.Crash

/-!
# Programs whose operations may go wrong

A `Deviation` of a machine lists what an operation may do instead of completing: fail,
having done part of its work, or report a success it has not had. `Prog.Runs dev` are
the runs of a program under it, with the number of operations that deviated.

Programs that stop at the first failure (`Prog.FailFast`) reduce to the machine without
deviations: such a run is the undisturbed one, or it is undisturbed up to one operation
(`Prog.Faulted`) and ends there. What the crash condition of a `Wpc` says of the states
around that operation then holds of its failure too (`Prog.Faulted.point`).
-/

namespace Lib

universe u

variable {S : Type u} {M : Machine S} {α β ε : Type}

/-- What an operation may do instead of completing. -/
abbrev Deviation (M : Machine S) := S → (o : M.Op) → S → M.Res o → Prop

namespace Prog

variable (dev : Deviation M)

/-- The runs of a program, with the number of operations that deviated. -/
inductive Runs : Prog M α → S → Nat → S → α → Prop where
  | ret (a : α) (s : S) : Runs (.ret a) s 0 s a
  | done {o : M.Op} {k : M.Res o → Prog M α} {s s' : S} {n : Nat} {a : α} :
      Runs (k (M.exec s o).2) (M.exec s o).1 n s' a → Runs (.op o k) s n s' a
  | deviated {o : M.Op} {k : M.Res o → Prog M α} {s s₁ s' : S} {n : Nat} {a : α} (r : M.Res o) :
      dev s o s₁ r → Runs (k r) s₁ n s' a → Runs (.op o k) s (n + 1) s' a

/-- Undisturbed up to one operation, which deviates and leaves `s'`. -/
inductive Faulted : Prog M α → S → S → Prop where
  | here {o : M.Op} {k : M.Res o → Prog M α} {s s' : S} (r : M.Res o) :
      dev s o s' r → Faulted (.op o k) s s'
  | later {o : M.Op} {k : M.Res o → Prog M α} {s s' : S} :
      Faulted (k (M.exec s o).2) (M.exec s o).1 s' → Faulted (.op o k) s s'

variable {dev}

/-- A run in which nothing deviates is the complete run. -/
theorem runs_undisturbed (p : Prog M α) (s : S) : Runs dev p s 0 (p.run s).1 (p.run s).2 := by
  induction p generalizing s with
  | ret a => exact .ret a s
  | op o k ih => exact .done (ih _ _)

/-- A run without deviations is the run. -/
theorem Runs.eq_run {p : Prog M α} {s s' : S} {n : Nat} {a : α} (h : Runs dev p s n s' a) (hn : n = 0) :
    p.run s = (s', a) := by
  induction h with
  | ret a s => rfl
  | done _ ih => exact ih hn
  | deviated _ _ _ _ => cases hn

/-- The run in which the operation behind the first `n` does what `bad` says. -/
def faultAfter (bad : S → (o : M.Op) → Option (S × M.Res o)) : Nat → Prog M α → S → Option (S × α)
  | _, .ret _, _ => none
  | 0, .op o k, s => (bad s o).map fun x => (k x.2).run x.1
  | n + 1, .op o k, s => faultAfter bad n (k (M.exec s o).2) (M.exec s o).1

/-- It is a run with one deviation. -/
theorem Runs.of_faultAfter {bad : S → (o : M.Op) → Option (S × M.Res o)}
    (hbad : ∀ s o x, bad s o = some x → dev s o x.1 x.2) {n : Nat} {p : Prog M α} {s s' : S} {a : α}
    (h : faultAfter bad n p s = some (s', a)) : Runs dev p s 1 s' a := by
  induction n generalizing p s with
  | zero =>
      cases p with
      | ret a => cases h
      | op o k =>
          rcases Option.map_eq_some_iff.mp h with ⟨x, hx, hrun⟩
          have hrest : Runs dev (k x.2) x.1 0 _ _ := runs_undisturbed (k x.2) x.1
          rw [hrun] at hrest
          exact .deviated x.2 (hbad s o x hx) hrest
  | succ n ih =>
      cases p with
      | ret a => cases h
      | op o k => exact .done (ih h)

/-- Runs of the parts make a run of the sequence. -/
theorem Runs.bind {p : Prog M α} {f : α → Prog M β} {s s₁ s' : S} {i j : Nat} {a : α} {b : β}
    (h : Runs dev p s i s₁ a) (hf : Runs dev (f a) s₁ j s' b) : Runs dev (p.bind f) s (i + j) s' b := by
  induction h with
  | ret a s =>
      rw [Nat.zero_add]
      exact hf
  | done _ ih => exact .done (ih hf)
  | deviated r hd _ ih =>
      rw [Nat.add_right_comm]
      exact .deviated r hd (ih hf)

/-- A run of a sequence whose second part makes no call. -/
theorem Runs.bind_ret {p : Prog M α} {f : α → Prog M β} {s s' : S} {n : Nat} {a : α} {b : β}
    (h : Runs dev p s n s' a) (hf : f a = .ret b) : Runs dev (p.bind f) s n s' b := by
  have hret : Runs dev (f a) s' 0 s' b := by
    rw [hf]
    exact .ret b s'
  exact h.bind hret

/-- Behind a step that succeeded. -/
theorem Runs.rightExcept {x : ExceptT ε (Prog M) α} {f : α → ExceptT ε (Prog M) β} {s t s' : S} {n : Nat} {a : α}
    {r : Except ε β} (hx : x.run.run s = (t, .ok a)) (h : Runs dev (f a).run t n s' r) :
    Runs dev (x >>= f).run s n s' r := by
  have hfirst : Runs dev x.run s 0 (x.run.run s).1 (x.run.run s).2 := runs_undisturbed x.run s
  rw [hx] at hfirst
  rw [← Nat.zero_add n]
  exact hfirst.bind h

/-- A run of a sequence is a run of its first part, then one of its second. -/
theorem Runs.of_bind {p : Prog M α} {f : α → Prog M β} {s s' : S} {n : Nat} {b : β}
    (h : Runs dev (p.bind f) s n s' b) :
    ∃ i j s₁ a, n = i + j ∧ Runs dev p s i s₁ a ∧ Runs dev (f a) s₁ j s' b := by
  induction p generalizing s n with
  | ret a => exact ⟨0, n, s, a, (Nat.zero_add n).symm, .ret a s, h⟩
  | op o k ih =>
      cases h with
      | done h =>
          rcases ih _ h with ⟨i, j, s₁, a, rfl, h1, h2⟩
          exact ⟨i, j, s₁, a, rfl, .done h1, h2⟩
      | deviated r hd h =>
          rcases ih _ h with ⟨i, j, s₁, a, rfl, h1, h2⟩
          exact ⟨i + 1, j, s₁, a, Nat.add_right_comm i j 1, .deviated r hd h1, h2⟩

/-- A deviation in the first part of a sequence. -/
theorem Faulted.bind_left {p : Prog M α} {s s' : S} (h : Faulted dev p s s') (f : α → Prog M β) :
    Faulted dev (p.bind f) s s' := by
  induction h with
  | here r hd => exact .here r hd
  | later _ ih => exact .later ih

/-- A deviation in the second part of a sequence. -/
theorem Faulted.bind_right {p : Prog M α} {f : α → Prog M β} {s s' : S}
    (h : Faulted dev (f (p.run s).2) (p.run s).1 s') : Faulted dev (p.bind f) s s' := by
  induction p generalizing s with
  | ret a => exact h
  | op o k ih => exact .later (ih _ h)

/-- The operation that deviated: the program could have been interrupted before it,
inside it and after it. -/
theorem Faulted.point {p : Prog M α} {s s' : S} (h : Faulted dev p s s') :
    ∃ (s₁ : S) (o : M.Op) (r : M.Res o), dev s₁ o s' r ∧ Interrupt p s s₁ ∧
      (∀ t, M.torn s₁ o t → Interrupt p s t) ∧ Interrupt p s (M.exec s₁ o).1 := by
  induction h with
  | @here o k s s' r hd =>
      exact ⟨s, o, r, hd, .here _ _, fun t ht => .torn _ _ _ _ ht, .later _ _ _ _ (.here _ _)⟩
  | later _ ih =>
      rcases ih with ⟨s₁, o, r, hd, hhere, htorn, hdone⟩
      exact ⟨s₁, o, r, hd, .later _ _ _ _ hhere, fun t ht => .later _ _ _ _ (htorn t ht),
        .later _ _ _ _ hdone⟩

variable (dev)

/-- The program ends as soon as an operation deviates, with a result in `bad`. -/
def FailFast (bad : α → Prop) (p : Prog M α) : Prop :=
  ∀ s n s' a, Runs dev p s n s' a → n = 0 ∨ (Faulted dev p s s' ∧ bad a)

/-- The result of a program that may fail is an error. -/
def IsError (r : Except ε α) : Prop := ∃ e, r = .error e

variable {dev}

/-- What makes no call fails fast. -/
theorem failFast_ret {bad : α → Prop} (a : α) : FailFast dev bad (.ret a : Prog M α) := by
  intro s n s' a' h
  cases h
  exact Or.inl rfl

/-- A single call fails fast when each of its deviations is bad. -/
theorem failFast_call {o : M.Op} {bad : M.Res o → Prop} (hbad : ∀ s s' r, dev s o s' r → bad r) :
    FailFast dev bad (call o) := by
  intro s n s' a h
  cases h with
  | done h =>
      cases h
      exact Or.inl rfl
  | deviated r hd h =>
      cases h
      exact Or.inr ⟨.here a hd, hbad _ _ _ hd⟩

/-- A sequence ends early if its second part does nothing after a bad result of the first. -/
theorem FailFast.bind {bad : α → Prop} {bad' : β → Prop} {p : Prog M α} {f : α → Prog M β}
    (hp : FailFast dev bad p) (hf : ∀ a, FailFast dev bad' (f a))
    (hbad : ∀ a, bad a → ∃ b, f a = .ret b ∧ bad' b) : FailFast dev bad' (p.bind f) := by
  intro s n s' b h
  rcases Runs.of_bind h with ⟨i, j, s₁, a, rfl, h1, h2⟩
  rcases hp s i s₁ a h1 with rfl | ⟨hfault, ha⟩
  · -- the first part is undisturbed
    have hrun := h1.eq_run rfl
    rw [Nat.zero_add]
    rcases hf a _ _ _ _ h2 with h0 | ⟨hfault, hb⟩
    · exact Or.inl h0
    · refine Or.inr ⟨Faulted.bind_right ?_, hb⟩
      rw [hrun]
      exact hfault
  · -- the first part failed: nothing follows
    rcases hbad a ha with ⟨b', hret, hb'⟩
    rw [hret] at h2
    cases h2
    exact Or.inr ⟨hfault.bind_left _, hb'⟩

/-- Errors that are passed on fail fast. -/
theorem FailFast.bindExcept {x : ExceptT ε (Prog M) α} {f : α → ExceptT ε (Prog M) β}
    (hx : FailFast dev IsError x.run) (hf : ∀ a, FailFast dev IsError (f a).run) :
    FailFast dev IsError (x >>= f).run := by
  refine FailFast.bind hx ?_ ?_
  · intro r
    cases r with
    | ok a => exact hf a
    | error e => exact failFast_ret _
  · rintro _ ⟨e, rfl⟩
    exact ⟨_, rfl, e, rfl⟩

/-! ## Programs of some operations only -/

/-- Every operation the program may call satisfies `φ`. -/
def All (φ : M.Op → Prop) : Prog M α → Prop
  | ret _ => True
  | op o k => φ o ∧ ∀ r, (k r).All φ

/-- A sequence makes the calls of its parts. -/
theorem All.bind {φ : M.Op → Prop} {p : Prog M α} {f : α → Prog M β} (hp : p.All φ) (hf : ∀ a, (f a).All φ) :
    (p.bind f).All φ := by
  induction p with
  | ret a => exact hf a
  | op o k ih => exact ⟨hp.1, fun r => ih r (hp.2 r)⟩

/-- A sequence makes the calls of its parts, errors passed on. -/
theorem All.bindExcept {φ : M.Op → Prop} {x : ExceptT ε (Prog M) α} {f : α → ExceptT ε (Prog M) β}
    (hx : x.run.All φ) (hf : ∀ a, (f a).run.All φ) : (x >>= f).run.All φ := by
  refine All.bind hx ?_
  intro r
  cases r with
  | ok a => exact hf a
  | error e => trivial

/-- Every result the program can return satisfies `φ`. -/
def Ends (φ : α → Prop) : Prog M α → Prop
  | ret a => φ a
  | op _ k => ∀ r, (k r).Ends φ

/-- What a sequence returns, from what its parts return. -/
theorem Ends.bind {φ : α → Prop} {ψ : β → Prop} {p : Prog M α} {f : α → Prog M β} (hp : p.Ends φ)
    (hf : ∀ a, φ a → (f a).Ends ψ) : (p.bind f).Ends ψ := by
  induction p with
  | ret a => exact hf a hp
  | op o k ih => exact fun r => ih r (hp r)

/-- Weakening. -/
theorem Ends.mono {φ ψ : α → Prop} {p : Prog M α} (hp : p.Ends φ) (h : ∀ a, φ a → ψ a) : p.Ends ψ := by
  induction p with
  | ret a => exact h a hp
  | op o k ih => exact fun r => ih r (hp r)

theorem ends_true (p : Prog M α) : p.Ends fun _ => True := by
  induction p with
  | ret a => trivial
  | op o k ih => exact fun r => ih r

/-- The value of a program that may fail is that of its last part. -/
theorem ends_bindExcept {φ : β → Prop} {x : ExceptT ε (Prog M) α} {f : α → ExceptT ε (Prog M) β}
    (hf : ∀ a, (f a).run.Ends fun r => ∀ b, r = .ok b → φ b) :
    (x >>= f).run.Ends fun r => ∀ b, r = .ok b → φ b := by
  refine (ends_true x.run).bind ?_
  intro r _
  cases r with
  | ok a => exact hf a
  | error e =>
      intro b hb
      cases hb

/-- What every run returns, deviations included. -/
theorem Runs.ends {φ : α → Prop} {p : Prog M α} (hp : p.Ends φ) {s s' : S} {n : Nat} {a : α}
    (h : Runs dev p s n s' a) : φ a := by
  induction h with
  | ret a s => exact hp
  | done _ ih => exact ih (hp _)
  | deviated r _ _ ih => exact ih (hp r)

/-- What every operation of a program keeps, however it goes, a run keeps. -/
theorem Runs.keeps {φ : M.Op → Prop} {R : S → S → Prop} (hrefl : ∀ s, R s s)
    (htrans : ∀ s t v, R s t → R t v → R s v) (hexec : ∀ s o, φ o → R s (M.exec s o).1)
    (hdev : ∀ s o s' r, φ o → dev s o s' r → R s s') {p : Prog M α} (hp : p.All φ) {s s' : S} {n : Nat}
    {a : α} (h : Runs dev p s n s' a) : R s s' := by
  induction h with
  | ret a s => exact hrefl s
  | done _ ih => exact htrans _ _ _ (hexec _ _ hp.1) (ih (hp.2 _))
  | deviated r hd _ ih => exact htrans _ _ _ (hdev _ _ _ _ hp.1 hd) (ih (hp.2 r))

/-! ## States that look alike -/

section Alike

variable {E : S → S → Prop}
  (hexec : ∀ s t o, E s t → (M.exec s o).2 = (M.exec t o).2 ∧ E (M.exec s o).1 (M.exec t o).1)

include hexec

/-- If no operation tells two states apart, no program does. -/
theorem run_alike (p : Prog M α) {s t : S} (h : E s t) :
    (p.run s).2 = (p.run t).2 ∧ E (p.run s).1 (p.run t).1 := by
  induction p generalizing s t with
  | ret a => exact ⟨rfl, h⟩
  | op o k ih =>
      rcases hexec s t o h with ⟨hres, hstate⟩
      unfold run
      rw [hres]
      exact ih _ hstate

/-- Runs from states that are alike stay alike. -/
theorem Runs.alike (hdev : ∀ s t o s' r, E s t → dev s o s' r → ∃ t', dev t o t' r ∧ E s' t')
    {p : Prog M α} {s s' t : S} {n : Nat} {a : α} (hrun : Runs dev p s n s' a) (h : E s t) :
    ∃ t', Runs dev p t n t' a ∧ E s' t' := by
  induction hrun generalizing t with
  | ret a s => exact ⟨t, .ret a t, h⟩
  | @done o k s s' n a _ ih =>
      rcases hexec s t o h with ⟨hres, hstate⟩
      rcases ih hstate with ⟨t', ht, hE⟩
      rw [hres] at ht
      exact ⟨t', .done ht, hE⟩
  | deviated r hd _ ih =>
      rcases hdev _ _ _ _ _ h hd with ⟨t₁, ht₁, hE₁⟩
      rcases ih hE₁ with ⟨t', ht, hE⟩
      exact ⟨t', .deviated r ht₁ ht, hE⟩

end Alike

end Prog

end Lib
