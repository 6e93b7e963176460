import EmbedMind.Lib.Fallible

/-!
# Binary search

`partitionPoint test lo hi` halves the interval `[lo, hi)` until it has found where a test
turns from true to false. The test may fail, and then so does the search; on a test that is
true up to some place and false from there on, the search finds the place
(`partitionPoint_spec`).
-/

namespace Lib

variable {ε : Type}

def partitionPoint (test : Nat → Except ε Bool) (lo hi : Nat) : Except ε Nat :=
  if lo < hi then do
    let mid := lo + (hi - lo) / 2
    if ← test mid then partitionPoint test (mid + 1) hi
    else partitionPoint test lo mid
  else .ok lo
termination_by hi - lo

/-- The interval shrinks around the place: the test holds before it and fails after it. -/
theorem partitionPoint_spec {test : Nat → Except ε Bool} {P : Nat → Prop} [DecidablePred P] {lo hi : Nat}
    (hle : lo ≤ hi) (htest : ∀ i, lo ≤ i → i < hi → test i = .ok (decide (P i)))
    (hmono : ∀ i j, i ≤ j → lo ≤ i → j < hi → P j → P i) :
    ∃ n, partitionPoint test lo hi = .ok n ∧ lo ≤ n ∧ n ≤ hi ∧
      (∀ i, lo ≤ i → i < n → P i) ∧ ∀ i, n ≤ i → i < hi → ¬ P i := by
  fun_induction partitionPoint test lo hi with
  | case1 lo hi hlt mid ihTrue ihFalse =>
      have hmid : lo ≤ mid ∧ mid < hi := by
        show lo ≤ lo + (hi - lo) / 2 ∧ lo + (hi - lo) / 2 < hi
        omega
      rw [htest mid hmid.1 hmid.2, ok_bind]
      by_cases hP : P mid
      · -- the place is past the middle
        rcases ihTrue (by omega) (fun i h1 h2 => htest i (by omega) h2)
          (fun i j hij h1 h2 => hmono i j hij (by omega) h2) with ⟨n, hn, hlo, hhi, hbefore, hafter⟩
        refine ⟨n, ?_, by omega, hhi, ?_, hafter⟩
        · rw [if_pos (by simpa using hP)]
          exact hn
        · intro i h1 h2
          by_cases hi : i ≤ mid
          · exact hmono i mid hi h1 hmid.2 hP
          · exact hbefore i (by omega) h2
      · rcases ihFalse hmid.1 (fun i h1 h2 => htest i h1 (by omega))
          (fun i j hij h1 h2 => hmono i j hij h1 (by omega)) with ⟨n, hn, hlo, hhi, hbefore, hafter⟩
        refine ⟨n, ?_, hlo, by omega, hbefore, ?_⟩
        · rw [if_neg (by simpa using hP)]
          exact hn
        · intro i h1 h2 hPi
          by_cases hi : i < mid
          · exact hafter i h1 hi hPi
          · exact hP (hmono mid i (by omega) hmid.1 h2 hPi)
  | case2 lo hi hlt =>
      refine ⟨lo, rfl, le_refl lo, hle, ?_, ?_⟩
      · intro i h1 h2
        omega
      · intro i h1 h2
        omega

end Lib
