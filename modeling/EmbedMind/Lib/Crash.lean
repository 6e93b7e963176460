import Mathlib.Tactic

/-!
# Programs that may be interrupted

A small crash logic. A `Machine` says what each operation does to the state when
it completes (`exec`) and in which states an interruption in the middle of it can
leave the machine (`torn`). A `Prog` is a program over those operations as a tree
of calls and continuations; `run` executes it to the end and `Interrupt` collects
every state in which it can be cut short: before an operation, inside one, or
after the last.

`Wpc p s Q C` is the weakest precondition with a crash condition: run from `s`,
the program ends in `Q`, and every interruption leaves a state in `C`. The rules
execute a program symbolically, one operation at a time; `Wpc.bindExcept` is the
rule for programs that may fail. `Prog.ReadOnly` disposes of the parts of a program
that change nothing.
-/

namespace Lib

universe u

/-- A machine with interruptible operations: `exec` completes one, `torn` lists
the states an interruption inside it can leave behind. -/
structure Machine (S : Type u) where
  Op : Type
  Res : Op → Type
  exec : S → (o : Op) → S × Res o
  torn : S → Op → S → Prop

/-- A program over the operations of a machine. -/
inductive Prog {S : Type u} (M : Machine S) (α : Type) where
  | ret (a : α)
  | op (o : M.Op) (k : M.Res o → Prog M α)

namespace Prog

variable {S : Type u} {M : Machine S} {α β : Type}

def bind : Prog M α → (α → Prog M β) → Prog M β
  | ret a, f => f a
  | op o k, f => op o (fun r => (k r).bind f)

instance : Monad (Prog M) where
  pure := ret
  bind := bind

theorem bind_ret (p : Prog M α) : p.bind ret = p := by
  induction p with
  | ret a => rfl
  | op o k ih => exact congrArg (op o) (funext ih)

theorem bind_bind {γ : Type} (p : Prog M α) (f : α → Prog M β) (g : β → Prog M γ) :
    (p.bind f).bind g = p.bind fun a => (f a).bind g := by
  induction p with
  | ret a => rfl
  | op o k ih => exact congrArg (op o) (funext ih)

instance : LawfulMonad (Prog M) :=
  LawfulMonad.mk' (Prog M) bind_ret (fun _ _ => rfl) bind_bind

/-- One operation, as a program. -/
def call (o : M.Op) : Prog M (M.Res o) := op o ret

/-- The complete run. -/
def run : Prog M α → S → S × α
  | ret a, s => (s, a)
  | op o k, s => (k (M.exec s o).2).run (M.exec s o).1

/-- The states in which a run can be cut short. -/
inductive Interrupt : Prog M α → S → S → Prop where
  | here (p : Prog M α) (s : S) : Interrupt p s s
  | torn (o : M.Op) (k : M.Res o → Prog M α) (s s' : S) : M.torn s o s' → Interrupt (op o k) s s'
  | later (o : M.Op) (k : M.Res o → Prog M α) (s s' : S) :
      Interrupt (k (M.exec s o).2) (M.exec s o).1 s' → Interrupt (op o k) s s'

@[simp] theorem run_ret (a : α) (s : S) : (ret a : Prog M α).run s = (s, a) := rfl

/-- A run of a sequence is a run of its parts. -/
theorem run_bind (p : Prog M α) (f : α → Prog M β) (s : S) :
    (p.bind f).run s = (f (p.run s).2).run (p.run s).1 := by
  induction p generalizing s with
  | ret a => rfl
  | op o k ih => exact ih _ _

/-- An interruption of a sequence falls into its first or its second part. -/
theorem interrupt_bind {p : Prog M α} {f : α → Prog M β} {s s' : S}
    (h : Interrupt (p.bind f) s s') :
    Interrupt p s s' ∨ Interrupt (f (p.run s).2) (p.run s).1 s' := by
  induction p generalizing s with
  | ret a => exact Or.inr h
  | op o k ih =>
      cases h with
      | here => exact Or.inl (.here _ _)
      | torn _ _ _ _ ht => exact Or.inl (.torn _ _ _ _ ht)
      | later _ _ _ _ hl =>
          rcases ih _ hl with h1 | h2
          · exact Or.inl (.later _ _ _ _ h1)
          · exact Or.inr h2

/-- The state after the first `n` operations of a run. -/
def cutAfter : Nat → Prog M α → S → S
  | 0, _, s => s
  | _ + 1, ret _, s => s
  | n + 1, op o k, s => cutAfter n (k (M.exec s o).2) (M.exec s o).1

/-- A run can be cut short after any number of operations. -/
theorem interrupt_cutAfter (n : Nat) (p : Prog M α) (s : S) : Interrupt p s (p.cutAfter n s) := by
  induction n generalizing p s with
  | zero => exact .here p s
  | succ n ih =>
      cases p with
      | ret a => exact .here _ s
      | op o k => exact .later o k s _ (ih _ _)

/-- An interruption in the first part of a sequence. -/
theorem Interrupt.left {p : Prog M α} {f : α → Prog M β} {s s' : S} (h : Interrupt p s s') :
    Interrupt (p.bind f) s s' := by
  induction h with
  | here p s => exact .here _ s
  | torn o k s s' ht => exact .torn o _ s s' ht
  | later o k s s' _ ih => exact .later o _ s s' ih

/-- An interruption in the second part of a sequence. -/
theorem Interrupt.right {p : Prog M α} {f : α → Prog M β} {s s' : S}
    (h : Interrupt (f (p.run s).2) (p.run s).1 s') : Interrupt (p.bind f) s s' := by
  induction p generalizing s with
  | ret a => exact h
  | op o k ih => exact .later o _ s s' (ih _ h)

/-- Behind a step that succeeded. -/
theorem Interrupt.rightExcept {ε : Type} {x : ExceptT ε (Prog M) α} {f : α → ExceptT ε (Prog M) β} {a : α}
    {s t s' : S} (hx : x.run.run s = (t, .ok a)) (h : Interrupt (f a).run t s') :
    Interrupt (x >>= f).run s s' := by
  refine Interrupt.right (p := x.run) ?_
  rw [hx]
  exact h

/-- A sequence that succeeded: both parts did. -/
theorem run_bindExcept {ε : Type} {x : ExceptT ε (Prog M) α} {f : α → ExceptT ε (Prog M) β} {s t : S} {b : β}
    (h : (x >>= f).run.run s = (t, .ok b)) :
    ∃ s₁ a, x.run.run s = (s₁, .ok a) ∧ (f a).run.run s₁ = (t, .ok b) := by
  rw [ExceptT.run_bind, show ∀ g, (x.run >>= g) = Prog.bind x.run g from fun _ => rfl, run_bind] at h
  rcases hx : x.run.run s with ⟨s₁, r⟩
  rw [hx] at h
  cases r with
  | ok a => exact ⟨s₁, a, rfl, h⟩
  | error e => cases h

/-- The states of a run between two operations, its first and its last state included. -/
inductive Between : Prog M α → S → S → Prop where
  | here (p : Prog M α) (s : S) : Between p s s
  | later (o : M.Op) (k : M.Res o → Prog M α) (s s' : S) :
      Between (k (M.exec s o).2) (M.exec s o).1 s' → Between (op o k) s s'

/-- Between two operations the run can be cut short. -/
theorem Between.interrupt {p : Prog M α} {s s' : S} (h : Between p s s') : Interrupt p s s' := by
  induction h with
  | here p s => exact .here p s
  | later o k s s' _ ih => exact .later o k s s' ih

/-- A program that changes nothing, whatever it returns. -/
def ReadOnly (p : Prog M α) : Prop := ∀ s, (p.run s).1 = s

theorem readOnly_ret (a : α) : ReadOnly (ret a : Prog M α) := fun _ => rfl

/-- A sequence of parts that only read only reads. -/
theorem ReadOnly.bind {p : Prog M α} {f : α → Prog M β} (hp : p.ReadOnly)
    (hf : ∀ a, (f a).ReadOnly) : (p.bind f).ReadOnly := by
  intro s
  rw [run_bind, hf, hp]

/-- The same with errors that are passed on. -/
theorem ReadOnly.bindExcept {ε : Type} {x : ExceptT ε (Prog M) α} {f : α → ExceptT ε (Prog M) β}
    (hx : x.run.ReadOnly) (hf : ∀ a, (f a).run.ReadOnly) : (x >>= f).run.ReadOnly := by
  refine ReadOnly.bind hx ?_
  rintro (e | a)
  · exact readOnly_ret _
  · exact hf a

end Prog

/-- Weakest precondition with a crash condition: from `s`, the complete run ends
in `Q`, and every interrupted one in `C`. -/
def Wpc {S : Type u} {M : Machine S} {α : Type} (p : Prog M α) (s : S)
    (Q : α → S → Prop) (C : S → Prop) : Prop :=
  Q (p.run s).2 (p.run s).1 ∧ ∀ s', Prog.Interrupt p s s' → C s'

namespace Wpc

variable {S : Type u} {M : Machine S} {α β : Type} {s : S} {C C' : S → Prop}

theorem ret {a : α} {Q : α → S → Prop} (hQ : Q a s) (hC : C s) :
    Wpc (M := M) (Prog.ret a) s Q C := by
  refine ⟨hQ, ?_⟩
  intro s' hi
  cases hi
  exact hC

/-- The rule of one operation: the crash condition holds before it, inside it, and behind it. -/
theorem op {o : M.Op} {k : M.Res o → Prog M α} {Q : α → S → Prop} (hC : C s)
    (htorn : ∀ s', M.torn s o s' → C s')
    (hk : Wpc (k (M.exec s o).2) (M.exec s o).1 Q C) : Wpc (Prog.op o k) s Q C := by
  refine ⟨hk.1, ?_⟩
  intro s' hi
  cases hi with
  | here => exact hC
  | torn _ _ _ _ ht => exact htorn s' ht
  | later _ _ _ _ hl => exact hk.2 s' hl

/-- The rule of a sequence. -/
theorem bind {p : Prog M α} {f : α → Prog M β} {Q : β → S → Prop}
    (h : Wpc p s (fun a s' => Wpc (f a) s' Q C) C) : Wpc (p.bind f) s Q C := by
  obtain ⟨hq, hc⟩ := h
  refine ⟨?_, ?_⟩
  · rw [Prog.run_bind]
    exact hq.1
  · intro s' hi
    rcases Prog.interrupt_bind hi with h1 | h2
    · exact hc s' h1
    · exact hq.2 s' h2

/-- Weakening. -/
theorem mono {p : Prog M α} {Q Q' : α → S → Prop} (h : Wpc p s Q C)
    (hQ : ∀ a s', Q a s' → Q' a s') (hC : ∀ s', C s' → C' s') : Wpc p s Q' C' :=
  ⟨hQ _ _ h.1, fun s' hi => hC s' (h.2 s' hi)⟩

/-- Sequencing of programs that may fail: an error ends the program. -/
theorem bindExcept {ε : Type} {x : ExceptT ε (Prog M) α} {f : α → ExceptT ε (Prog M) β}
    {Q : Except ε β → S → Prop}
    (h : Wpc x.run s (fun r s' => match r with
      | .ok a => Wpc (f a).run s' Q C
      | .error e => Q (.error e) s' ∧ C s') C) : Wpc (x >>= f).run s Q C := by
  refine bind (mono h ?_ fun _ hc => hc)
  intro r s' hr
  cases r with
  | ok a => exact hr
  | error e => exact ret hr.1 hr.2

end Wpc

end Lib
