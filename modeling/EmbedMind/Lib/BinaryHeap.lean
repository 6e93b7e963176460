import Mathlib.Tactic

/-!
# Binary heaps

The array heap of a standard library, as it moves its elements: `siftUp`, `siftDown`
and `siftDownToBottom` walk one path and swap. The order is given by a comparison that
need not be a total order; what holds for every comparison is that the operations keep
the elements (`push_perm`, `pop_perm`, `ofList_perm`).
-/

namespace Lib.BinaryHeap

variable {α : Type} (cmp : α → α → Ordering)

/-- Moves the element at `pos` up while it is greater than its parent. -/
def siftUp : Nat → Nat → Array α → Array α
  | 0, _, a => a
  | fuel + 1, pos, a =>
      if pos = 0 then a
      else
        match a[pos]?, a[(pos - 1) / 2]? with
        | some x, some parent =>
            if cmp x parent ≠ .gt then a
            else siftUp fuel ((pos - 1) / 2) (a.swapIfInBounds pos ((pos - 1) / 2))
        | _, _ => a

/-- The greater child of `pos`, the right one if they are equal. -/
def greaterChild (pos : Nat) (a : Array α) : Nat :=
  match a[2 * pos + 1]?, a[2 * pos + 2]? with
  | some left, some right => if cmp left right ≠ .gt then 2 * pos + 2 else 2 * pos + 1
  | _, _ => 2 * pos + 1

/-- Moves the element at `pos` down until no child is greater. -/
def siftDown : Nat → Nat → Array α → Array α
  | 0, _, a => a
  | fuel + 1, pos, a =>
      let child := greaterChild cmp pos a
      match a[pos]?, a[child]? with
      | some x, some y =>
          if cmp x y ≠ .lt then a else siftDown fuel child (a.swapIfInBounds pos child)
      | _, _ => a

/-- Moves the element at `pos` down to a leaf along the greater children; the position
it ends at. -/
def toBottom : Nat → Nat → Array α → Array α × Nat
  | 0, pos, a => (a, pos)
  | fuel + 1, pos, a =>
      let child := greaterChild cmp pos a
      if child < a.size then toBottom fuel child (a.swapIfInBounds pos child) else (a, pos)

/-- All the way down, then up again. -/
def siftDownToBottom (a : Array α) : Array α :=
  let down := toBottom cmp a.size 0 a
  siftUp cmp down.2 down.2 down.1

def push (x : α) (a : Array α) : Array α := siftUp cmp a.size a.size (a.push x)

def peek (a : Array α) : Option α := a[0]?

/-- The last element goes to the root, the root out. -/
def pop (a : Array α) : Option (α × Array α) :=
  match a.back? with
  | none => none
  | some last =>
      match a.pop[0]? with
      | none => some (last, a.pop)
      | some top => some (top, siftDownToBottom cmp (a.pop.setIfInBounds 0 last))

/-- Rebuilding a heap from any array, from the last inner position to the root. -/
def rebuild : Nat → Array α → Array α
  | 0, a => a
  | n + 1, a => rebuild n (siftDown cmp a.size n a)

def ofList (l : List α) : Array α := rebuild cmp (l.length / 2) l.toArray

/-- Swapping two places permutes the array. -/
theorem swapIfInBounds_perm (a : Array α) (i j : Nat) : (a.swapIfInBounds i j).toList.Perm a.toList := by
  rw [Array.swapIfInBounds_def]
  split
  · split
    · exact Array.perm_iff_toList_perm.mp (Array.swap_perm _ _)
    · exact List.Perm.refl _
  · exact List.Perm.refl _

/-- Sifting up permutes the heap. -/
theorem siftUp_perm (fuel pos : Nat) (a : Array α) : (siftUp cmp fuel pos a).toList.Perm a.toList := by
  induction fuel generalizing pos a with
  | zero => exact List.Perm.refl _
  | succ fuel ih =>
      unfold siftUp
      split
      · exact List.Perm.refl _
      · split
        · split
          · exact List.Perm.refl _
          · exact (ih _ _).trans (swapIfInBounds_perm a _ _)
        · exact List.Perm.refl _

/-- Sifting down permutes the heap. -/
theorem siftDown_perm (fuel pos : Nat) (a : Array α) : (siftDown cmp fuel pos a).toList.Perm a.toList := by
  induction fuel generalizing pos a with
  | zero => exact List.Perm.refl _
  | succ fuel ih =>
      unfold siftDown
      dsimp only
      split
      · split
        · exact List.Perm.refl _
        · exact (ih _ _).trans (swapIfInBounds_perm a _ _)
      · exact List.Perm.refl _

/-- Moving a hole to the bottom permutes the heap. -/
theorem toBottom_perm (fuel pos : Nat) (a : Array α) : (toBottom cmp fuel pos a).1.toList.Perm a.toList := by
  induction fuel generalizing pos a with
  | zero => exact List.Perm.refl _
  | succ fuel ih =>
      unfold toBottom
      dsimp only
      split
      · exact (ih _ _).trans (swapIfInBounds_perm a _ _)
      · exact List.Perm.refl _

/-- A push adds one element. -/
theorem push_perm (x : α) (a : Array α) : (push cmp x a).toList.Perm (x :: a.toList) := by
  refine (siftUp_perm cmp _ _ _).trans ?_
  rw [Array.toList_push]
  exact List.perm_append_comm

/-- Rebuilding permutes the heap. -/
theorem rebuild_perm (n : Nat) (a : Array α) : (rebuild cmp n a).toList.Perm a.toList := by
  induction n generalizing a with
  | zero => exact List.Perm.refl _
  | succ n ih => exact (ih _).trans (siftDown_perm cmp _ _ _)

/-- The heap of a list has the elements of the list. -/
theorem ofList_perm (l : List α) : (ofList cmp l).toList.Perm l := rebuild_perm cmp _ _

/-- A pop fails on the empty heap only. -/
theorem pop_eq_none {a : Array α} : pop cmp a = none ↔ a.toList = [] := by
  unfold pop
  cases h : a.back? with
  | none =>
      rw [Array.back?_eq_none_iff] at h
      simp [h]
  | some last =>
      have hne : a.toList ≠ [] := by
        intro h0
        have ha : a = #[] := by simpa using h0
        rw [ha] at h
        cases h
      cases a.pop[0]? <;> simpa using hne

/-- A pop takes one element away. -/
theorem pop_perm {a a' : Array α} {x : α} (h : pop cmp a = some (x, a')) :
    a.toList.Perm (x :: a'.toList) := by
  unfold pop at h
  cases hlast : a.back? with
  | none =>
      rw [hlast] at h
      cases h
  | some last =>
      have hsplit : a.toList = a.pop.toList ++ [last] := by
        obtain ⟨b, rfl⟩ := Array.back?_eq_some_iff.mp hlast
        simp
      simp only [hlast] at h
      cases htop : a.pop[0]? with
      | none =>
          simp only [htop, Option.some.injEq, Prod.mk.injEq] at h
          obtain ⟨rfl, rfl⟩ := h
          rw [hsplit]
          exact List.perm_append_comm
      | some top =>
          simp only [htop, Option.some.injEq, Prod.mk.injEq] at h
          obtain ⟨rfl, rfl⟩ := h
          obtain ⟨rest, hrest⟩ : ∃ rest, a.pop.toList = top :: rest := by
            cases hl : a.pop.toList with
            | nil =>
                rw [← Array.getElem?_toList, hl] at htop
                cases htop
            | cons y rest =>
                rw [← Array.getElem?_toList, hl] at htop
                cases htop
                exact ⟨rest, rfl⟩
          -- the last element takes the root's place
          have hset : (a.pop.setIfInBounds 0 last).toList = last :: rest := by
            rw [Array.toList_setIfInBounds, hrest]
            rfl
          -- sifting it down permutes the rest
          have hdown : (siftDownToBottom cmp (a.pop.setIfInBounds 0 last)).toList.Perm (last :: rest) := by
            rw [← hset]
            exact (siftUp_perm cmp _ _ _).trans (toBottom_perm cmp _ _ _)
          rw [hsplit, hrest]
          have hrotate : (top :: rest ++ [last]).Perm (top :: last :: rest) :=
            List.Perm.cons _ List.perm_append_comm
          exact hrotate.trans (List.Perm.cons _ hdown.symm)

end Lib.BinaryHeap
