import Mathlib.Tactic

/-!
# A value kept with a counter

A value of a state is kept together with the state's counter, and taken for the value of any
state with that counter. The counter moves with every change and wraps around, so this is
right as long as it has not been all the way round.
-/

namespace Lib

variable {σ β : Type} (counter : σ → Nat) (value : σ → β → Prop) (M : Nat)

/-- What is kept is the value of a state that the counter left at most `n` moves ago. -/
def Stamped (n : Nat) (s : σ) (kept : Option (Nat × β)) : Prop :=
  ∀ stamp b, kept = some (stamp, b) → ∃ s₀ k, k ≤ n ∧ value s₀ b ∧ stamp = counter s₀ ∧
    counter s = (counter s₀ + k) % M ∧ (k = 0 → s₀ = s)

namespace Stamped

variable {counter value M} {n : Nat} {s s' : σ} {kept : Option (Nat × β)} {b : β}

theorem none : Stamped counter value M n s none := by
  intro stamp b h
  cases h

/-- A value that was just computed. -/
theorem fresh (hs : counter s < M) (h : value s b) : Stamped counter value M n s (some (counter s, b)) := by
  intro stamp b' hb
  cases hb
  exact ⟨s, 0, Nat.zero_le n, h, rfl, (Nat.mod_eq_of_lt hs).symm, fun _ => rfl⟩

/-- The state stays, or its counter moves. -/
theorem next (h : Stamped counter value M n s kept) (hs : s' = s ∨ counter s' = (counter s + 1) % M) :
    Stamped counter value M (n + 1) s' kept := by
  intro stamp b hb
  rcases h stamp b hb with ⟨s₀, k, hk, hvalue, hstamp, hcounter, hsame⟩
  rcases hs with rfl | hmove
  · exact ⟨s₀, k, by omega, hvalue, hstamp, hcounter, hsame⟩
  · refine ⟨s₀, k + 1, by omega, hvalue, hstamp, ?_, by omega⟩
    rw [hmove, hcounter, Nat.mod_add_mod, Nat.add_assoc]

/-- A kept value with the counter of the state is the state's, before the counter has come round. -/
theorem current (h : Stamped counter value M n s kept) (hn : n < M) (hs : counter s < M)
    (hb : kept = some (counter s, b)) : value s b := by
  rcases h (counter s) b hb with ⟨s₀, k, hk, hvalue, hstamp, hcounter, hsame⟩
  rw [← hstamp] at hcounter
  have hzero : k = 0 := by
    by_contra hne
    rcases Nat.lt_or_ge (counter s + k) M with hlt | hge
    · rw [Nat.mod_eq_of_lt hlt] at hcounter
      omega
    · rw [Nat.mod_eq_sub_mod hge, Nat.mod_eq_of_lt (by omega)] at hcounter
      omega
  exact hsame hzero ▸ hvalue

end Stamped

end Lib
