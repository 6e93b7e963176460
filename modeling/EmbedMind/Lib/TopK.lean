import Mathlib.Tactic
import Mathlib.Data.List.Sort
import Mathlib.Data.List.TakeWhile

/-!
# The first `k` elements of a set

`Top k S hits`: the list `hits` holds the `k` least elements of `S` in order, or all
of them if there are fewer. There is at most one such list (`Top.unique`), so two
ways to search a set agree as soon as each keeps this relation to the part of the
set it has dealt with: an element is dealt with by inserting it (`Top.insert`) or,
when `k` better ones are held already, by leaving it out (`Top.skip`).
-/

namespace Lib.TopK

variable {β : Type} [LinearOrder β]

structure Top (k : Nat) (S : β → Prop) (hits : List β) : Prop where
  sorted : hits.Pairwise (· < ·)
  length_le : hits.length ≤ k
  sub : ∀ x ∈ hits, S x
  rest : ∀ x, S x → x ∉ hits → hits.length = k ∧ ∀ h ∈ hits, h < x

/-- Ordered insertion that keeps at most `k` elements. -/
def insert (k : Nat) (x : β) (hits : List β) : List β :=
  let pos := (hits.takeWhile fun h => decide (h < x)).length
  if pos < k then (hits.insertIdx pos x).take k else hits

variable {k : Nat} {S T : β → Prop} {hits : List β} {x : β}

theorem top_nil : Top k (fun _ : β => False) [] where
  sorted := List.Pairwise.nil
  length_le := Nat.zero_le k
  sub := by simp
  rest := by simp

/-- The top depends on the set only. -/
theorem Top.congr (h : Top k S hits) (hST : ∀ x, S x ↔ T x) : Top k T hits where
  sorted := h.sorted
  length_le := h.length_le
  sub := fun x hx => (hST x).mp (h.sub x hx)
  rest := fun x hx => h.rest x ((hST x).mpr hx)

/-- Elements that `k` held ones precede can be left out. -/
theorem Top.skip (h : Top k S hits) (hT : ∀ x, T x → hits.length = k ∧ ∀ h ∈ hits, h < x) :
    Top k (fun x => S x ∨ T x) hits where
  sorted := h.sorted
  length_le := h.length_le
  sub := fun x hx => Or.inl (h.sub x hx)
  rest := by
    rintro x (hx | hx) hnot
    · exact h.rest x hx hnot
    · exact hT x hx

/-- A prefix of an ordered list is the top of every set that the list reaches or dominates. -/
theorem top_take {l : List β} (hl : l.Pairwise (· < ·)) (hsub : ∀ x ∈ l, S x)
    (hrest : ∀ x, S x → x ∉ l → (l.take k).length = k ∧ ∀ h ∈ l.take k, h < x) :
    Top k S (l.take k) where
  sorted := hl.sublist (List.take_sublist k l)
  length_le := by
    rw [List.length_take]
    exact Nat.min_le_left _ _
  sub := fun x hx => hsub x (List.mem_of_mem_take hx)
  rest := by
    intro x hx hnot
    by_cases hin : x ∈ l
    · -- an element of the list past the prefix comes after the whole prefix
      have hdrop : x ∈ l.drop k := by
        rw [← List.take_append_drop k l, List.mem_append] at hin
        exact hin.resolve_left hnot
      constructor
      · rw [List.length_take]
        have hpos := List.length_pos_of_mem hdrop
        rw [List.length_drop] at hpos
        omega
      · intro h hh
        have hsplit := hl
        rw [← List.take_append_drop k l, List.pairwise_append] at hsplit
        exact hsplit.2.2 h hh x hdrop
    · exact hrest x hx hin

/-- Sorting and cutting gives the top of a list. -/
theorem top_sort {l : List β} (hnd : l.Nodup) :
    Top k (· ∈ l) ((l.insertionSort (· ≤ ·)).take k) := by
  refine top_take ?_ ?_ ?_
  · have hle := List.pairwise_insertionSort (· ≤ ·) l
    have hne : (l.insertionSort (· ≤ ·)).Nodup := (List.perm_insertionSort _ l).nodup_iff.mpr hnd
    refine (hle.and hne).imp ?_
    rintro a b ⟨h1, h2⟩
    exact lt_of_le_of_ne h1 h2
  · intro x hx
    exact (List.mem_insertionSort _).mp hx
  · intro x hx hnot
    exact absurd ((List.mem_insertionSort _).mpr hx) hnot

omit [LinearOrder β] in
/-- Insertion between two parts. -/
theorem insertIdx_middle (a b : List β) : (a ++ b).insertIdx a.length x = a ++ x :: b := by
  induction a with
  | nil => rfl
  | cons c a ih => simp [ih]

/-- What `insert` splits the list at. -/
theorem insert_split (h : hits.Pairwise (· < ·)) (hx : x ∉ hits) :
    ∃ a b, hits = a ++ b ∧ (∀ y ∈ a, y < x) ∧ (∀ y ∈ b, x < y) ∧
      insert k x hits = if a.length < k then (a ++ x :: b).take k else hits := by
  refine ⟨hits.takeWhile fun h => decide (h < x), hits.dropWhile fun h => decide (h < x), ?_, ?_, ?_, ?_⟩
  · rw [List.takeWhile_append_dropWhile]
  · intro y hy
    simpa using List.mem_takeWhile_imp hy
  · -- the first element kept is not below `x`, and the later ones are above it
    intro y hy
    have hsub : (hits.dropWhile fun h => decide (h < x)).Pairwise (· < ·) :=
      h.sublist (List.dropWhile_sublist _)
    have hmem : y ∈ hits := (List.dropWhile_sublist _).subset hy
    have hne : y ≠ x := fun he => hx (he ▸ hmem)
    cases hd : hits.dropWhile fun h => decide (h < x) with
    | nil =>
        rw [hd] at hy
        cases hy
    | cons c cs =>
        have hc : ¬ c < x := by
          have := List.head_dropWhile_not (fun h => decide (h < x)) (by simp [hd] : hits.dropWhile _ ≠ [])
          simpa [hd] using this
        rw [hd] at hy hsub
        rcases List.mem_cons.mp hy with rfl | hy
        · exact lt_of_le_of_ne (not_lt.mp hc) (Ne.symm hne)
        · exact lt_of_le_of_lt (not_lt.mp hc) ((List.pairwise_cons.mp hsub).1 y hy)
  · have hidx : hits.insertIdx (hits.takeWhile fun h => decide (h < x)).length x =
        (hits.takeWhile fun h => decide (h < x)) ++ x :: hits.dropWhile fun h => decide (h < x) := by
      nth_rewrite 1 [← List.takeWhile_append_dropWhile (p := fun h => decide (h < x)) (l := hits)]
      exact insertIdx_middle _ _
    unfold insert
    simp only [hidx]

/-- One more candidate. -/
theorem Top.insert (h : Top k S hits) (hx : ¬ S x) :
    Top k (fun y => S y ∨ y = x) (insert k x hits) := by
  have hnot : x ∉ hits := fun hin => hx (h.sub x hin)
  obtain ⟨a, b, hab, ha, hb, heq⟩ := insert_split (k := k) h.sorted hnot
  rw [heq]
  have hsort := h.sorted
  rw [hab, List.pairwise_append] at hsort
  split
  · rename_i hpos
    -- it is among the first `k`: the list stays in order, and may lose its last element
    refine top_take ?_ ?_ ?_
    · rw [List.pairwise_append]
      refine ⟨hsort.1, List.pairwise_cons.mpr ⟨hb, hsort.2.1⟩, ?_⟩
      intro y hy z hz
      rcases List.mem_cons.mp hz with rfl | hz
      · exact ha y hy
      · exact hsort.2.2 y hy z hz
    · intro y hy
      rw [List.mem_append, List.mem_cons] at hy
      rcases hy with hy | rfl | hy
      · exact Or.inl (h.sub y (by simp [hab, hy]))
      · exact Or.inr rfl
      · exact Or.inl (h.sub y (by simp [hab, hy]))
    · intro y hy hnotin
      have hy' : S y := by
        rcases hy with hy | rfl
        · exact hy
        · simp at hnotin
      have hout : y ∉ hits := by
        intro hin
        rw [hab, List.mem_append] at hin
        apply hnotin
        rw [List.mem_append, List.mem_cons]
        tauto
      obtain ⟨hfull, hlt⟩ := h.rest y hy' hout
      have hlen : a.length + b.length = k := by rw [← List.length_append, ← hab, hfull]
      constructor
      · rw [List.length_take, List.length_append, List.length_cons]
        omega
      · intro z hz
        have hz' := List.mem_of_mem_take hz
        rw [List.mem_append, List.mem_cons] at hz'
        rcases hz' with hz' | rfl | hz'
        · exact hlt z (by simp [hab, hz'])
        · -- an element after the inserted one is left, and it precedes `y`
          cases b with
          | nil => simp at hlen; omega
          | cons c cs => exact lt_trans (hb c (by simp)) (hlt c (by simp [hab]))
        · exact hlt z (by simp [hab, hz'])
  · rename_i hpos
    -- it comes behind the `k`th
    have hlen := h.length_le
    rw [hab, List.length_append] at hlen
    have hnil : b = [] := List.length_eq_zero_iff.mp (by omega)
    subst hnil
    rw [List.append_nil] at hab
    subst hab
    refine h.skip ?_
    rintro y rfl
    exact ⟨by simp at hlen; omega, ha⟩

/-- The top of a set that a list contains comes from that list. -/
theorem Top.subset_of {l : List β} (h : Top k S hits) (h' : Top k S l) : ∀ x ∈ hits, x ∈ l := by
  intro x hx
  by_contra hnot
  obtain ⟨hfull, hlt⟩ := h'.rest x (h.sub x hx) hnot
  have hnd : hits.Nodup := h.sorted.imp fun hab => ne_of_lt hab
  have hnd' : l.Nodup := h'.sorted.imp fun hab => ne_of_lt hab
  -- `l` is full and misses `x`, so it holds an element that `hits` misses
  have hex : ∃ y ∈ l, y ∉ hits := by
    by_contra hall
    push Not at hall
    have hsub : l ⊆ hits.erase x := by
      intro y hy
      rw [hnd.mem_erase_iff]
      exact ⟨fun he => hnot (he ▸ hy), hall y hy⟩
    have hle := (hnd'.subperm hsub).length_le
    rw [List.length_erase_of_mem hx, hfull] at hle
    have := h.length_le
    have := List.length_pos_of_mem hx
    omega
  obtain ⟨y, hy, hynot⟩ := hex
  exact lt_asymm (hlt y hy) ((h.rest y (h'.sub y hy) hynot).2 x hx)

/-- The top of a set is unique. -/
theorem Top.unique {l : List β} (h : Top k S hits) (h' : Top k S l) : hits = l := by
  have hnd : hits.Nodup := h.sorted.imp fun hab => ne_of_lt hab
  have hnd' : l.Nodup := h'.sorted.imp fun hab => ne_of_lt hab
  have hperm : hits.Perm l := (List.perm_ext_iff_of_nodup hnd hnd').mpr fun x =>
    ⟨h.subset_of h' x, h'.subset_of h x⟩
  exact hperm.eq_of_pairwise (fun a b _ _ hab hba => absurd hba (lt_asymm hab)) h.sorted h'.sorted

end Lib.TopK
