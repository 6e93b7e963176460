import Mathlib.Tactic
import Mathlib.Data.List.Sort

/-!
# Sets as sorted lists

A set is kept as a list that is strictly ascending by a key. `insertNew` adds an
element at its place unless its key is there, and says which of the two it did, as an
insertion after a binary search does. `distinct` sorts a list and drops repetitions.
-/

namespace Lib.SortedSet

variable {α κ : Type} [LinearOrder κ] (key : α → κ)

/-- Strictly ascending by key. -/
def Ascending (l : List α) : Prop := l.Pairwise fun a b => key a < key b

/-- The list with `x` at its place, and whether `x` was new. -/
def insertNew (x : α) : List α → List α × Bool
  | [] => ([x], true)
  | y :: ys =>
      if key x < key y then (x :: y :: ys, true)
      else if key x = key y then (y :: ys, false)
      else (y :: (insertNew x ys).1, (insertNew x ys).2)

/-- `Vec::dedup`. -/
def dedup [DecidableEq α] : List α → List α
  | a :: b :: rest => if a = b then dedup (b :: rest) else a :: dedup (b :: rest)
  | l => l

/-- `sort`, then `dedup`. -/
def distinct [DecidableEq α] (l : List α) : List α :=
  dedup (l.insertionSort fun a b => key a ≤ key b)

/-- Deduplication keeps every member. -/
theorem mem_dedup [DecidableEq α] {x : α} (l : List α) : x ∈ dedup l ↔ x ∈ l := by
  induction l with
  | nil => simp [dedup]
  | cons a l ih =>
      cases l with
      | nil => simp [dedup]
      | cons b rest =>
          unfold dedup
          split
          · rename_i hab
            rw [ih, hab]
            simp
          · rw [List.mem_cons, ih, List.mem_cons (a := x) (b := a)]

/-- Sorting and deduplicating keeps every member. -/
@[simp] theorem mem_distinct [DecidableEq α] {x : α} {l : List α} : x ∈ distinct key l ↔ x ∈ l := by
  rw [distinct, mem_dedup, List.mem_insertionSort]

variable {key} {x y : α} {l : List α}

/-- An element before all others of a list is not among them. -/
theorem Ascending.not_mem_of_lt (h : Ascending key (y :: l)) (hx : key x < key y) : x ∉ y :: l := by
  intro hin
  rcases List.mem_cons.mp hin with rfl | hin
  · exact lt_irrefl _ hx
  · exact lt_asymm hx ((List.pairwise_cons.mp h).1 x hin)

/-- The two cases of an insertion. -/
theorem insertNew_cases (hkey : Function.Injective key) (h : Ascending key l) (x : α) :
    (x ∈ l ∧ insertNew key x l = (l, false)) ∨
    (x ∉ l ∧ (insertNew key x l).2 = true ∧ Ascending key (insertNew key x l).1 ∧
      (∀ y, y ∈ (insertNew key x l).1 ↔ y = x ∨ y ∈ l)) := by
  induction l with
  | nil =>
      refine Or.inr ⟨by simp, rfl, List.pairwise_singleton _ _, ?_⟩
      simp [insertNew]
  | cons y ys ih =>
      obtain ⟨hy, hys⟩ := List.pairwise_cons.mp h
      unfold insertNew
      -- before the first element, equal to it, or somewhere behind it
      rcases lt_trichotomy (key x) (key y) with hlt | heq | hgt
      · rw [if_pos hlt]
        refine Or.inr ⟨h.not_mem_of_lt hlt, rfl, List.pairwise_cons.mpr ⟨?_, h⟩, ?_⟩
        · intro z hz
          rcases List.mem_cons.mp hz with rfl | hz
          · exact hlt
          · exact lt_trans hlt (hy z hz)
        · simp
      · rw [if_neg (by rw [heq]; exact lt_irrefl _), if_pos heq]
        exact Or.inl ⟨by simp [hkey heq], rfl⟩
      · rw [if_neg (not_lt.mpr (le_of_lt hgt)), if_neg (ne_of_gt hgt)]
        have hne : x ≠ y := fun he => by rw [he] at hgt; exact lt_irrefl _ hgt
        rcases ih hys with ⟨hin, heq⟩ | ⟨hnot, hnew, hasc, hmem⟩
        · exact Or.inl ⟨List.mem_cons_of_mem _ hin, by rw [heq]⟩
        · refine Or.inr ⟨by simp [hne, hnot], hnew, List.pairwise_cons.mpr ⟨?_, hasc⟩, ?_⟩
          · intro z hz
            rcases (hmem z).mp hz with rfl | hz
            · exact hgt
            · exact hy z hz
          · intro z
            rw [List.mem_cons, hmem z, List.mem_cons]
            tauto

section

variable (hkey : Function.Injective key) (h : Ascending key l)

include hkey h

/-- Insertion adds its own element and no other. -/
theorem mem_insertNew : y ∈ (insertNew key x l).1 ↔ y = x ∨ y ∈ l := by
  rcases insertNew_cases hkey h x with ⟨hin, heq⟩ | ⟨_, _, _, hmem⟩
  · rw [heq]
    constructor
    · exact Or.inr
    · rintro (rfl | hy)
      · exact hin
      · exact hy
  · exact hmem y

/-- Insertion keeps the order. -/
theorem ascending_insertNew : Ascending key (insertNew key x l).1 := by
  rcases insertNew_cases hkey h x with ⟨_, heq⟩ | ⟨_, _, hasc, _⟩
  · rw [heq]
    exact h
  · exact hasc

/-- The flag tells whether the element was new. -/
theorem insertNew_snd : (insertNew key x l).2 = true ↔ x ∉ l := by
  rcases insertNew_cases hkey h x with ⟨hin, heq⟩ | ⟨hnot, hnew, _⟩
  · simp [heq, hin]
  · simp [hnew, hnot]

end

/-- In a sorted list equal elements stand together, so that none is left twice. -/
theorem ascending_dedup [DecidableEq α] (hkey : Function.Injective key) (h : l.Pairwise fun a b => key a ≤ key b) :
    Ascending key (dedup l) := by
  induction l with
  | nil => exact List.Pairwise.nil
  | cons a l ih =>
      rcases List.pairwise_cons.mp h with ⟨hle, htail⟩
      cases l with
      | nil => exact List.pairwise_singleton _ _
      | cons b rest =>
          unfold dedup
          split
          · exact ih htail
          · rename_i hab
            refine List.pairwise_cons.mpr ⟨?_, ih htail⟩
            intro c hc
            have hbc : key b ≤ key c := by
              rcases List.mem_cons.mp ((mem_dedup _).mp hc) with heq | hin
              · rw [heq]
              · exact (List.pairwise_cons.mp htail).1 c hin
            exact lt_of_lt_of_le (lt_of_le_of_ne (hle b List.mem_cons_self) fun he => hab (hkey he)) hbc

/-- The distinct members ascend. -/
theorem ascending_distinct [DecidableEq α] (hkey : Function.Injective key) (l : List α) :
    Ascending key (distinct key l) := by
  refine ascending_dedup hkey ?_
  have htotal : Std.Total fun a b : α => key a ≤ key b := ⟨fun a b => le_total (key a) (key b)⟩
  have htrans : IsTrans α fun a b => key a ≤ key b := ⟨fun _ _ _ => le_trans⟩
  exact List.pairwise_insertionSort _ l

/-- Ascending lists have no duplicates. -/
theorem Ascending.nodup (h : Ascending key l) : l.Nodup :=
  h.imp fun hab he => by rw [he] at hab; exact lt_irrefl _ hab

end Lib.SortedSet
