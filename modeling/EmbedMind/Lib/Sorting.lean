import Mathlib.Tactic
import Mathlib.Data.List.Sort

/-!
# Stable sorting by two orders

Insertion sort is stable: it only asks how an element compares with those that stand
behind it. Two orders that agree on every such pair sort the list alike
(`insertionSort_congr`), so a list in order of appearance may be sorted by a preorder or
by the linear order that breaks its ties by appearance.
-/

namespace Lib

variable {α : Type*} {r s : α → α → Prop}

/-- Two lists of the same elements in the same strict order are the same. -/
theorem eq_of_pairwise_of_mem_iff {l m : List α} (hirrefl : ∀ a, ¬ r a a)
    (hasymm : ∀ a b, r a b → ¬ r b a) (hl : l.Pairwise r) (hm : m.Pairwise r) (h : ∀ a, a ∈ l ↔ a ∈ m) : l = m := by
  have hnodup : ∀ {l : List α}, l.Pairwise r → l.Nodup := by
    intro l hl
    refine hl.imp ?_
    rintro a b hab rfl
    exact hirrefl _ hab
  have hperm : l.Perm m := (List.perm_ext_iff_of_nodup (hnodup hl) (hnodup hm)).mpr h
  refine hperm.eq_of_pairwise ?_ hl hm
  intro a b _ _ hab hba
  exact absurd hba (hasymm a b hab)

/-- Of two elements of a list one stands before the other. -/
theorem rel_or_rel_of_pairwise {l : List α} (h : l.Pairwise r) {a b : α} (ha : a ∈ l) (hb : b ∈ l) (hne : a ≠ b) :
    r a b ∨ r b a := by
  induction l with
  | nil => cases ha
  | cons c l ih =>
      rcases List.pairwise_cons.mp h with ⟨hc, hl⟩
      rcases List.mem_cons.mp ha with hac | hal
      · rcases List.mem_cons.mp hb with hbc | hbl
        · exact absurd (hac.trans hbc.symm) hne
        · exact Or.inl (hac ▸ hc b hbl)
      · rcases List.mem_cons.mp hb with hbc | hbl
        · exact Or.inr (hbc ▸ hc a hal)
        · exact ih hl hal hbl

variable [DecidableRel r] [DecidableRel s]

/-- Insertion depends on the order at the inserted element only. -/
theorem orderedInsert_congr {a : α} {l : List α} (h : ∀ b ∈ l, r a b ↔ s a b) :
    l.orderedInsert r a = l.orderedInsert s a := by
  induction l with
  | nil => rfl
  | cons b l ih =>
      have hb := h b List.mem_cons_self
      by_cases hr : r a b
      · rw [List.orderedInsert_cons_of_le r l hr, List.orderedInsert_cons_of_le s l (hb.mp hr)]
      · rw [List.orderedInsert_of_not_le r l hr, List.orderedInsert_of_not_le s l (fun hs => hr (hb.mpr hs)),
          ih fun c hc => h c (List.mem_cons_of_mem _ hc)]

/-- Orders that agree on every element and those behind it sort a list alike. -/
theorem insertionSort_congr {l : List α} (h : l.Pairwise fun a b => r a b ↔ s a b) :
    l.insertionSort r = l.insertionSort s := by
  induction l with
  | nil => rfl
  | cons a l ih =>
      rcases List.pairwise_cons.mp h with ⟨ha, hl⟩
      rw [List.insertionSort_cons, List.insertionSort_cons, ih hl]
      refine orderedInsert_congr ?_
      intro b hb
      exact ha b ((List.mem_insertionSort s).mp hb)

/-- Stability: equal elements keep whatever relation they stood in. -/
theorem pairwise_insertionSort_stable [Std.Total r] [IsTrans α r] {q : α → α → Prop} {l : List α}
    (hq : l.Pairwise q) : (l.insertionSort r).Pairwise fun a b => r a b ∧ (r b a → q a b) := by
  have hinsert : ∀ {a : α} {l : List α}, l.Pairwise (fun a b => r a b ∧ (r b a → q a b)) → (∀ b ∈ l, q a b) →
      (l.orderedInsert r a).Pairwise fun a b => r a b ∧ (r b a → q a b) := by
    intro a l hl ha
    induction l with
    | nil => exact List.pairwise_singleton _ _
    | cons b l ih =>
        rcases List.pairwise_cons.mp hl with ⟨hb, hl⟩
        by_cases hab : r a b
        · rw [List.orderedInsert_cons_of_le _ _ hab]
          refine List.pairwise_cons.mpr ⟨?_, List.pairwise_cons.mpr ⟨hb, hl⟩⟩
          intro c hc
          refine ⟨?_, fun _ => ha c hc⟩
          rcases List.mem_cons.mp hc with rfl | hc
          · exact hab
          · exact IsTrans.trans a b c hab (hb c hc).1
        · rw [List.orderedInsert_of_not_le _ _ hab]
          refine List.pairwise_cons.mpr ⟨?_, ih hl fun c hc => ha c (List.mem_cons_of_mem _ hc)⟩
          intro c hc
          rcases List.mem_cons.mp ((List.perm_orderedInsert _ a l).mem_iff.mp hc) with rfl | hc
          · exact ⟨(Std.Total.total _ _).resolve_left hab, fun h => absurd h hab⟩
          · exact hb c hc
  induction l with
  | nil => exact List.Pairwise.nil
  | cons a l ih =>
      rcases List.pairwise_cons.mp hq with ⟨ha, hl⟩
      rw [List.insertionSort_cons]
      refine hinsert (ih hl) ?_
      intro b hb
      exact ha b ((List.mem_insertionSort r).mp hb)

/-! ## The largest of a list -/

/-- The running maximum is an upper bound. -/
theorem foldl_max_ge (l : List Nat) (a : Nat) : a ≤ l.foldl max a ∧ ∀ x ∈ l, x ≤ l.foldl max a := by
  induction l generalizing a with
  | nil => simp
  | cons y l ih =>
      obtain ⟨h1, h2⟩ := ih (max a y)
      constructor
      · exact le_trans (le_max_left a y) h1
      · intro x hx
        rcases List.mem_cons.mp hx with rfl | hx
        · exact le_trans (le_max_right a x) h1
        · exact h2 x hx

/-- The running maximum stays below what is above every element. -/
theorem foldl_max_lt {l : List Nat} {a b : Nat} (ha : a < b) (h : ∀ x ∈ l, x < b) : l.foldl max a < b := by
  induction l generalizing a with
  | nil => exact ha
  | cons y l ih =>
      exact ih (max_lt ha (h y List.mem_cons_self)) fun x hx => h x (List.mem_cons_of_mem _ hx)

end Lib
