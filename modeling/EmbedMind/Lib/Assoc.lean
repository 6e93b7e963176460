import Mathlib.Tactic

/-!
# Ordered association lists

The model of an ordered map: a list of key-value pairs that `insertKey` keeps
sorted, with `find` for lookup. The lookup laws hold for every list; sortedness
(`Sorted`) is what makes the list the in-order traversal of the map.
-/

namespace Lib.Assoc

variable {κ β : Type} [LinearOrder κ]

/-- Inserts or replaces, keeping the keys in order. -/
def insertKey (k : κ) (v : β) : List (κ × β) → List (κ × β)
  | [] => [(k, v)]
  | (k', v') :: rest =>
      if k < k' then (k, v) :: (k', v') :: rest
      else if k = k' then (k, v) :: rest
      else (k', v') :: insertKey k v rest

/-- The value stored under a key. -/
def find (k : κ) : List (κ × β) → Option β
  | [] => none
  | (k', v') :: rest => if k = k' then some v' else find k rest

/-- Inserts the pairs of `l` one after the other (later ones win). -/
def extend (m l : List (κ × β)) : List (κ × β) := l.foldl (fun m e => insertKey e.1 e.2 m) m

/-- The keys are strictly ascending. -/
def Sorted (m : List (κ × β)) : Prop := m.Pairwise (fun a b => a.1 < b.1)

@[simp] theorem find_nil (k : κ) : find k ([] : List (κ × β)) = none := rfl

/-- Looking up after an insertion. -/
theorem find_insertKey (k k' : κ) (v : β) (m : List (κ × β)) :
    find k' (insertKey k v m) = if k' = k then some v else find k' m := by
  induction m with
  | nil => simp [insertKey, find]
  | cons e rest ih =>
      obtain ⟨k₀, v₀⟩ := e
      unfold insertKey
      by_cases hlt : k < k₀
      · simp [hlt, find]
      · by_cases heq : k = k₀
        · subst heq
          simp only [lt_irrefl, if_false, if_true, find]
          split <;> rfl
        · simp only [hlt, heq, if_false, find, ih]
          by_cases h0 : k' = k₀
          · have hne : k' ≠ k := fun h => heq (h.symm.trans h0)
            simp [h0, Ne.symm heq]
          · simp [h0]

@[simp] theorem find_insertKey_self (k : κ) (v : β) (m : List (κ × β)) :
    find k (insertKey k v m) = some v := by
  simp [find_insertKey]

theorem find_insertKey_ne {k k' : κ} (h : k' ≠ k) (v : β) (m : List (κ × β)) :
    find k' (insertKey k v m) = find k' m := by
  simp [find_insertKey, h]

@[simp] theorem extend_nil (m : List (κ × β)) : extend m [] = m := rfl

@[simp] theorem extend_cons (m : List (κ × β)) (e : κ × β) (l : List (κ × β)) :
    extend m (e :: l) = extend (insertKey e.1 e.2 m) l := rfl

/-- A later pair wins; a key that is not extended keeps its value. -/
theorem find_extend_of_not_mem {k : κ} {m l : List (κ × β)} (h : ∀ e ∈ l, e.1 ≠ k) :
    find k (extend m l) = find k m := by
  induction l generalizing m with
  | nil => rfl
  | cons e l ih =>
      rw [extend_cons, ih (fun x hx => h x (List.mem_cons_of_mem _ hx)),
        find_insertKey_ne (Ne.symm (h e List.mem_cons_self))]

/-- With distinct keys, every extended pair is found. -/
theorem find_extend_of_mem {k : κ} {v : β} {m l : List (κ × β)} (hnd : (l.map Prod.fst).Nodup)
    (h : (k, v) ∈ l) : find k (extend m l) = some v := by
  induction l generalizing m with
  | nil => cases h
  | cons e l ih =>
      rw [List.map_cons, List.nodup_cons] at hnd
      rcases List.mem_cons.mp h with rfl | hl
      · rw [extend_cons, find_extend_of_not_mem, find_insertKey_self]
        intro x hx hxk
        exact hnd.1 (List.mem_map.mpr ⟨x, hx, hxk⟩)
      · rw [extend_cons]
        exact ih hnd.2 hl

/-- Nothing is found under a key that neither list has. -/
theorem find_extend_eq_none {k : κ} {m l : List (κ × β)} :
    find k (extend m l) = none ↔ find k m = none ∧ ∀ e ∈ l, e.1 ≠ k := by
  induction l generalizing m with
  | nil => simp
  | cons e l ih =>
      rw [extend_cons, ih, find_insertKey]
      by_cases hk : k = e.1
      · simp [hk]
      · simp [hk, Ne.symm hk]

/-- A lookup fails for the keys that are not in the list, and only for these. -/
theorem find_eq_none {k : κ} {m : List (κ × β)} : find k m = none ↔ ∀ e ∈ m, e.1 ≠ k := by
  induction m with
  | nil => simp
  | cons e m ih =>
      obtain ⟨k₀, v₀⟩ := e
      simp only [find]
      by_cases hk : k = k₀
      · simp [hk]
      · simp [hk, ih, Ne.symm hk]

/-- What a lookup finds is in the list. -/
theorem mem_of_find {k : κ} {v : β} {m : List (κ × β)} (h : find k m = some v) : (k, v) ∈ m := by
  induction m with
  | nil => cases h
  | cons e m ih =>
      obtain ⟨k₀, v₀⟩ := e
      simp only [find] at h
      split at h
      · rename_i hk
        cases h
        subst hk
        exact List.mem_cons_self
      · exact List.mem_cons_of_mem _ (ih h)

/-- Keys that are distinct are all found. -/
theorem find_of_mem {k : κ} {v : β} {m : List (κ × β)} (hnd : (m.map Prod.fst).Nodup)
    (h : (k, v) ∈ m) : find k m = some v := by
  induction m with
  | nil => cases h
  | cons e m ih =>
      rw [List.map_cons, List.nodup_cons] at hnd
      obtain ⟨k₀, v₀⟩ := e
      rcases List.mem_cons.mp h with heq | hm
      · cases heq
        simp [find]
      · have hne : k ≠ k₀ := by
          rintro rfl
          exact hnd.1 (List.mem_map.mpr ⟨_, hm, rfl⟩)
        simp [find, hne, ih hnd.2 hm]

/-- An insertion adds nothing but its own pair. -/
theorem mem_insertKey {k : κ} {v : β} {e : κ × β} {m : List (κ × β)} (h : e ∈ insertKey k v m) :
    e = (k, v) ∨ e ∈ m := by
  induction m with
  | nil => exact Or.inl (by simpa [insertKey] using h)
  | cons e₀ m ih =>
      obtain ⟨k₀, v₀⟩ := e₀
      unfold insertKey at h
      split at h
      · simpa using h
      · split at h
        · rcases List.mem_cons.mp h with h1 | h1
          · exact Or.inl h1
          · exact Or.inr (List.mem_cons_of_mem _ h1)
        · rcases List.mem_cons.mp h with h1 | h1
          · exact Or.inr (h1 ▸ List.mem_cons_self)
          · rcases ih h1 with h2 | h2
            · exact Or.inl h2
            · exact Or.inr (List.mem_cons_of_mem _ h2)

/-- An extension adds nothing but its own pairs. -/
theorem mem_extend {e : κ × β} {m l : List (κ × β)} (h : e ∈ extend m l) : e ∈ m ∨ e ∈ l := by
  induction l generalizing m with
  | nil => exact Or.inl h
  | cons e₀ l ih =>
      rcases ih h with h1 | h1
      · rcases mem_insertKey h1 with h2 | h2
        · exact Or.inr (h2 ▸ List.mem_cons_self)
        · exact Or.inl h2
      · exact Or.inr (List.mem_cons_of_mem _ h1)

/-- Insertion keeps the order. -/
theorem sorted_insertKey {k : κ} {v : β} {m : List (κ × β)} (h : Sorted m) :
    Sorted (insertKey k v m) := by
  induction m with
  | nil => simp [insertKey, Sorted]
  | cons e m ih =>
      obtain ⟨k₀, v₀⟩ := e
      have hcons := List.pairwise_cons.mp h
      unfold insertKey
      by_cases hlt : k < k₀
      · rw [if_pos hlt]
        refine List.pairwise_cons.mpr ⟨?_, h⟩
        intro x hx
        rcases List.mem_cons.mp hx with rfl | hx
        · exact hlt
        · exact lt_trans hlt (hcons.1 x hx)
      · rw [if_neg hlt]
        by_cases heq : k = k₀
        · rw [if_pos heq]
          exact List.pairwise_cons.mpr ⟨fun x hx => by subst heq; exact hcons.1 x hx, hcons.2⟩
        · rw [if_neg heq]
          refine List.pairwise_cons.mpr ⟨?_, ih hcons.2⟩
          intro x hx
          rcases mem_insertKey hx with rfl | hx
          · exact lt_of_le_of_ne (not_lt.mp hlt) (Ne.symm heq)
          · exact hcons.1 x hx

/-- Extension keeps the order. -/
theorem sorted_extend {m l : List (κ × β)} (h : Sorted m) : Sorted (extend m l) := by
  induction l generalizing m with
  | nil => exact h
  | cons e l ih => exact ih (sorted_insertKey h)

/-- Ascending keys are distinct. -/
theorem Sorted.nodup_keys {m : List (κ × β)} (h : Sorted m) : (m.map Prod.fst).Nodup := by
  rw [List.Nodup, List.pairwise_map]
  exact h.imp fun hlt => ne_of_lt hlt

/-- Ordered lists with the same lookups are equal. -/
theorem eq_of_find {m m' : List (κ × β)} (h : Sorted m) (h' : Sorted m')
    (hfind : ∀ k, find k m = find k m') : m = m' := by
  refine List.Perm.eq_of_pairwise (fun a b _ _ hab hba => absurd hab (lt_asymm hba)) h h' ?_
  refine (List.perm_ext_iff_of_nodup h.nodup_keys.of_map h'.nodup_keys.of_map).mpr ?_
  rintro ⟨k, v⟩
  constructor
  · intro hm
    exact mem_of_find (hfind k ▸ find_of_mem h.nodup_keys hm)
  · intro hm
    exact mem_of_find ((hfind k).symm ▸ find_of_mem h'.nodup_keys hm)

/-- A new key adds a pair. -/
theorem perm_insertKey {k : κ} {v : β} {m : List (κ × β)} (h : find k m = none) :
    (insertKey k v m).Perm ((k, v) :: m) := by
  induction m with
  | nil => exact List.Perm.refl _
  | cons e m ih =>
      have hne : k ≠ e.1 := fun heq => find_eq_none.mp h e List.mem_cons_self heq.symm
      have hrest : find k m = none := by
        rw [find_eq_none] at h ⊢
        exact fun x hx => h x (List.mem_cons_of_mem _ hx)
      unfold insertKey
      split
      · exact List.Perm.refl _
      · exact ((ih hrest).cons e).trans (List.Perm.swap _ _ _)

/-- Extending by new keys appends, up to order. -/
theorem perm_extend {m l : List (κ × β)} (hnew : ∀ e ∈ l, find e.1 m = none) (hnd : (l.map Prod.fst).Nodup) :
    (extend m l).Perm (m ++ l) := by
  induction l generalizing m with
  | nil => rw [List.append_nil]; exact List.Perm.refl _
  | cons e l ih =>
      obtain ⟨hnot, hnd'⟩ := List.nodup_cons.mp hnd
      have hstep : (extend (insertKey e.1 e.2 m) l).Perm (insertKey e.1 e.2 m ++ l) := by
        refine ih ?_ hnd'
        intro x hx
        have hne : x.1 ≠ e.1 := fun heq => hnot (heq ▸ List.mem_map_of_mem hx)
        rw [find_insertKey_ne hne]
        exact hnew x (List.mem_cons_of_mem _ hx)
      refine hstep.trans (((perm_insertKey (hnew e List.mem_cons_self)).append_right l).trans ?_)
      exact List.perm_middle.symm

/-- Lookup in a segment: the keys around it are other keys. -/
theorem find_segment {k : κ} {l m r : List (κ × β)} (hl : ∀ e ∈ l, e.1 ≠ k)
    (hr : ∀ e ∈ r, e.1 ≠ k) : find k (l ++ m ++ r) = find k m := by
  induction l with
  | nil =>
      induction m with
      | nil => simpa using find_eq_none.mpr hr
      | cons e m ih =>
          simp only [List.nil_append, List.cons_append, find] at ih ⊢
          rw [ih]
  | cons e l ih =>
      have hne : k ≠ e.1 := Ne.symm (hl e List.mem_cons_self)
      simp only [List.cons_append, find, hne, if_false]
      exact ih fun x hx => hl x (List.mem_cons_of_mem _ hx)

/-- Insertion in a segment: the keys before it are smaller, those after it larger. -/
theorem insertKey_segment {k : κ} {v : β} {l m r : List (κ × β)} (hl : ∀ e ∈ l, e.1 < k)
    (hr : ∀ e ∈ r, k < e.1) : insertKey k v (l ++ m ++ r) = l ++ insertKey k v m ++ r := by
  induction l with
  | nil =>
      induction m with
      | nil =>
          cases r with
          | nil => rfl
          | cons e r =>
              have hlt : k < e.1 := hr e List.mem_cons_self
              simp [insertKey, hlt]
      | cons e m ih =>
          simp only [List.nil_append, List.cons_append, insertKey] at ih ⊢
          split
          · rfl
          · split
            · rfl
            · rw [ih]
              rfl
  | cons e l ih =>
      have hlt : e.1 < k := hl e List.mem_cons_self
      simp only [List.cons_append, insertKey, not_lt.mpr hlt.le, (ne_of_gt hlt), if_false]
      rw [ih fun x hx => hl x (List.mem_cons_of_mem _ hx)]

/-- The last key of a sorted list is its largest. -/
theorem Sorted.le_getLast {m : List (κ × β)} (h : Sorted m) {x : κ × β}
    (hx : m.getLast? = some x) : ∀ e ∈ m, e.1 ≤ x.1 := by
  obtain ⟨l, rfl⟩ : ∃ l, m = l ++ [x] := by
    have hne : m ≠ [] := by
      rintro rfl
      cases hx
    refine ⟨m.dropLast, ?_⟩
    have hlast := List.getLast?_eq_some_getLast hne
    rw [hx] at hlast
    cases hlast
    exact (List.dropLast_append_getLast hne).symm
  intro e he
  rcases List.mem_append.mp he with he | he
  · exact ((List.pairwise_append.mp h).2.2 e he x (by simp)).le
  · rw [List.mem_singleton.mp he]

/-- Replacing a value changes the sum of the weights by the difference. -/
theorem sum_insertKey {m : List (κ × β)} (h : Sorted m) (w : β → Nat) (k : κ) (v : β) :
    ((insertKey k v m).map fun e => w e.2).sum + ((find k m).map w).getD 0 =
      (m.map fun e => w e.2).sum + w v := by
  induction m with
  | nil => simp [insertKey]
  | cons e m ih =>
      obtain ⟨k', v'⟩ := e
      obtain ⟨hlt, hm⟩ := List.pairwise_cons.mp h
      rcases lt_trichotomy k k' with hk | rfl | hk
      · have hnone : find k ((k', v') :: m) = none := by
          rw [find_eq_none]
          intro e he heq
          rcases List.mem_cons.mp he with rfl | he
          · exact absurd heq (ne_of_gt hk)
          · exact absurd heq (ne_of_gt (lt_trans hk (hlt e he)))
        rw [hnone]
        simp [insertKey, hk]
        omega
      · simp [insertKey, find]
        omega
      · have hne : k ≠ k' := ne_of_gt hk
        have := ih hm
        simp only [insertKey, not_lt.mpr (le_of_lt hk), hne, if_false, List.map_cons, List.sum_cons, find]
        omega

/-- What does not tell the new value from the old one is the same of every entry. -/
theorem map_insertKey_same {γ : Type} {m : List (κ × β)} (h : Sorted m) {k : κ} {v v' : β} (hfind : find k m = some v)
    {f : κ × β → γ} (hf : f (k, v') = f (k, v)) : (insertKey k v' m).map f = m.map f := by
  induction m with
  | nil => cases hfind
  | cons e m ih =>
      rcases e with ⟨k₀, v₀⟩
      rcases List.pairwise_cons.mp h with ⟨hlt, hm⟩
      unfold find at hfind
      unfold insertKey
      by_cases heq : k = k₀
      · subst heq
        rw [if_pos rfl] at hfind
        cases hfind
        rw [if_neg (lt_irrefl k), if_pos rfl, List.map_cons, List.map_cons, hf]
      · rw [if_neg heq] at hfind
        have hgt : ¬ k < k₀ := not_lt.mpr (hlt _ (mem_of_find hfind)).le
        rw [if_neg hgt, if_neg heq, List.map_cons, List.map_cons, ih hm hfind]

/-! ## Mapping the values -/

/-- The same keys with other values. -/
def mapVal {γ : Type} (f : β → γ) (m : List (κ × β)) : List (κ × γ) := m.map fun e => (e.1, f e.2)

section MapVal

variable {γ : Type} (f : β → γ)

/-- Mapping the values commutes with lookup. -/
theorem find_mapVal (k : κ) (m : List (κ × β)) : find k (mapVal f m) = (find k m).map f := by
  induction m with
  | nil => rfl
  | cons e m ih =>
      by_cases h : k = e.1
      · simp [mapVal, find, h]
      · simpa [mapVal, find, h] using ih

/-- Mapping the values commutes with insertion. -/
theorem insertKey_mapVal (k : κ) (v : β) (m : List (κ × β)) :
    insertKey k (f v) (mapVal f m) = mapVal f (insertKey k v m) := by
  induction m with
  | nil => rfl
  | cons e m ih =>
      obtain ⟨k', v'⟩ := e
      simp only [mapVal, List.map_cons, insertKey] at ih ⊢
      split
      · rfl
      · split
        · rfl
        · rw [List.map_cons, ih]

/-- Mapping the values keeps the keys in order. -/
theorem sorted_mapVal {m : List (κ × β)} : Sorted (mapVal f m) ↔ Sorted m := by
  unfold Sorted mapVal
  rw [List.pairwise_map]

end MapVal

/-! ## Changing values -/

/-- The values under some keys are changed. -/
def adjust (ks : List κ) (f : β → β) (m : List (κ × β)) : List (κ × β) :=
  m.map fun e => (e.1, if e.1 ∈ ks then f e.2 else e.2)

section Adjust

variable {ks : List κ} {f : β → β}

/-- Adjusting keys that are not there changes nothing. -/
theorem adjust_of_forall {m : List (κ × β)} (h : ∀ e ∈ m, e.1 ∉ ks) : adjust ks f m = m := by
  unfold adjust
  calc m.map (fun e => (e.1, if e.1 ∈ ks then f e.2 else e.2)) = m.map id := by
        refine List.map_congr_left ?_
        intro e he
        rw [if_neg (h e he)]
        rfl
    _ = m := List.map_id m

/-- Looking up after an adjustment. -/
theorem find_adjust (k : κ) (m : List (κ × β)) :
    find k (adjust ks f m) = (find k m).map fun v => if k ∈ ks then f v else v := by
  induction m with
  | nil => rfl
  | cons e m ih =>
      by_cases h : k = e.1
      · simp [adjust, find, h]
      · simpa [adjust, find, h] using ih

/-- Adjusting keeps the keys in order. -/
theorem sorted_adjust {m : List (κ × β)} : Sorted (adjust ks f m) ↔ Sorted m := by
  unfold Sorted adjust
  rw [List.pairwise_map]

/-- Replacing a value that is there changes it. -/
theorem insertKey_eq_adjust {k : κ} {v : β} {m : List (κ × β)} (hm : Sorted m) (hfind : find k m = some v) :
    insertKey k (f v) m = adjust [k] f m := by
  induction m with
  | nil => cases hfind
  | cons e m ih =>
      rcases e with ⟨k', v'⟩
      rcases List.pairwise_cons.mp hm with ⟨hlt, htail⟩
      unfold find at hfind
      unfold insertKey
      by_cases h : k = k'
      · subst h
        rw [if_pos rfl] at hfind
        cases hfind
        have hrest : adjust [k] f m = m := adjust_of_forall fun e he => by
          rw [List.mem_singleton]
          exact ne_of_gt (hlt e he)
        rw [if_neg (lt_irrefl k), if_pos rfl]
        conv_lhs => rw [← hrest]
        simp [adjust]
      · rw [if_neg h] at hfind
        have hgt : ¬ k < k' := not_lt.mpr (hlt _ (mem_of_find hfind)).le
        rw [if_neg hgt, if_neg h, ih htail hfind]
        simp [adjust, Ne.symm h]

/-- Changes at one key and at others. -/
theorem adjust_adjust (hf : ∀ v, f (f v) = f v) (ks' : List κ) (m : List (κ × β)) :
    adjust ks' f (adjust ks f m) = adjust (ks ++ ks') f m := by
  unfold adjust
  rw [List.map_map]
  refine List.map_congr_left ?_
  intro e _
  by_cases h : e.1 ∈ ks <;> by_cases h' : e.1 ∈ ks' <;> simp [h, h', hf]

/-- Only which keys there are matters. -/
theorem adjust_congr {ks' : List κ} (h : ∀ k, k ∈ ks ↔ k ∈ ks') (m : List (κ × β)) : adjust ks f m = adjust ks' f m := by
  unfold adjust
  refine List.map_congr_left ?_
  intro e _
  simp only [h]

end Adjust

/-! ## Renaming the keys -/

/-- The same values under other keys. -/
def rekey {κ' : Type} (f : κ → κ') (m : List (κ × β)) : List (κ' × β) := m.map fun e => (f e.1, e.2)

section Rekey

variable {κ' : Type} [LinearOrder κ'] {f : κ → κ'} (hf : StrictMono f)

include hf

/-- A monotone change of keys commutes with lookup. -/
theorem find_rekey (k : κ) (m : List (κ × β)) : find (f k) (rekey f m) = find k m := by
  induction m with
  | nil => rfl
  | cons e m ih =>
      by_cases h : k = e.1
      · simp [rekey, find, h]
      · have hne : f k ≠ f e.1 := fun heq => h (hf.injective heq)
        simpa [rekey, find, h, hne] using ih

/-- A monotone change of keys commutes with insertion. -/
theorem insertKey_rekey (k : κ) (v : β) (m : List (κ × β)) :
    insertKey (f k) v (rekey f m) = rekey f (insertKey k v m) := by
  induction m with
  | nil => rfl
  | cons e m ih =>
      rcases e with ⟨k', v'⟩
      simp only [rekey, List.map_cons, insertKey, hf.lt_iff_lt, hf.injective.eq_iff] at ih ⊢
      split
      · rfl
      · split
        · rfl
        · rw [List.map_cons, ih]

end Rekey

end Lib.Assoc
