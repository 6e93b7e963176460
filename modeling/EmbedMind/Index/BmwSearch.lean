import EmbedMind.Index.Bmw

/-!
# The block-skipping search is exact

Every round of the search deals with all the documents before some id (`Query.Inv`): it has
evaluated them, or the bounds say that the hits it holds precede them. So the rounds end, in
the top of the hits that the exhaustive scan ranks too.
-/

namespace EmbedMind

open Lib Lib.Assoc Lib.TopK

namespace Fts

/-! ## The order of the cursors -/

section Order

variable {α : Type} {cursors : List (BmwCursor α)}

instance : Std.Total (@Placed.le α) := ⟨by
  intro a b
  unfold Placed.le
  rcases lt_trichotomy a.1.curId b.1.curId with h | h | h
  · exact Or.inl (Or.inl h)
  · rcases le_total a.2 b.2 with h' | h'
    · exact Or.inl (Or.inr ⟨h, h'⟩)
    · exact Or.inr (Or.inr ⟨h.symm, h'⟩)
  · exact Or.inr (Or.inl h)⟩

instance : IsTrans (Placed α) Placed.le := ⟨by
  intro a b c hab hbc
  unfold Placed.le at *
  omega⟩

/-- The cursors in order are those that are not exhausted. -/
theorem mem_inOrder {x : Placed α} : x ∈ inOrder cursors ↔ cursors[x.2]? = some x.1 ∧ x.1.exhausted = false := by
  unfold inOrder
  rw [List.mem_insertionSort, List.mem_filter, List.mem_zipIdx_iff_getElem?]
  simp

/-- They are in order. -/
theorem inOrder_sorted (cursors : List (BmwCursor α)) : (inOrder cursors).Pairwise Placed.le :=
  List.pairwise_insertionSort _ _

/-- Their current ids ascend. -/
theorem inOrder_curId (cursors : List (BmwCursor α)) :
    (inOrder cursors).Pairwise fun a b => a.1.curId ≤ b.1.curId := by
  refine (inOrder_sorted cursors).imp ?_
  intro a b hab
  rcases hab with h | ⟨h, _⟩
  · exact le_of_lt h
  · exact le_of_eq h

/-- The first one is the least. -/
theorem inOrder_head_le {x y : Placed α} (hx : (inOrder cursors).head? = some x) (hy : y ∈ inOrder cursors) :
    x.1.curId ≤ y.1.curId := by
  have hpair := inOrder_curId cursors
  cases horder : inOrder cursors with
  | nil =>
      rw [horder] at hx
      cases hx
  | cons z rest =>
      rw [horder] at hx hy hpair
      cases hx
      rcases List.mem_cons.mp hy with heq | hin
      · rw [heq]
      · exact (List.pairwise_cons.mp hpair).1 y hin

/-- Each cursor is there once. -/
theorem inOrder_nodup (cursors : List (BmwCursor α)) : ((inOrder cursors).map Prod.snd).Nodup := by
  have hperm : (inOrder cursors).Perm (cursors.zipIdx.filter fun c => !c.1.exhausted) :=
    List.perm_insertionSort _ _
  rw [(hperm.map Prod.snd).nodup_iff]
  have hall : (cursors.zipIdx.map Prod.snd).Nodup := by
    rw [List.zipIdx_map_snd]
    exact List.nodup_range'
  exact hall.sublist (List.filter_sublist.map Prod.snd)

/-- What is done to the cursors at some places, and to no others. -/
theorem forEach_ok {f : BmwCursor α → Except Error (BmwCursor α)} {P : BmwCursor α → BmwCursor α → Prop}
    (front : List (Placed α)) (hnodup : (front.map Prod.snd).Nodup)
    (hf : ∀ x ∈ front, ∀ c, cursors[x.2]? = some c → ∃ c', f c = .ok c' ∧ P c c')
    (hin : ∀ x ∈ front, x.2 < cursors.length) :
    ∃ cursors', forEach f front cursors = .ok cursors' ∧ cursors'.length = cursors.length ∧
      ∀ (i : Nat) c, cursors[i]? = some c → ∃ c', cursors'[i]? = some c' ∧
        ((i ∈ front.map Prod.snd ∧ P c c') ∨ (i ∉ front.map Prod.snd ∧ c' = c)) := by
  induction front generalizing cursors with
  | nil =>
      refine ⟨cursors, rfl, rfl, ?_⟩
      intro i c hc
      exact ⟨c, hc, Or.inr ⟨List.not_mem_nil, rfl⟩⟩
  | cons x front ih =>
      rw [List.map_cons, List.nodup_cons] at hnodup
      rcases hnodup with ⟨hnot, hnodup⟩
      have hlt := hin x List.mem_cons_self
      have hget : cursors[x.2]? = some cursors[x.2] := List.getElem?_eq_getElem hlt
      rcases hf x List.mem_cons_self _ hget with ⟨c', hc', hP⟩
      have hother : ∀ y ∈ front, ∀ c, (cursors.set x.2 c')[y.2]? = some c → cursors[y.2]? = some c := by
        intro y hy c hc
        have hne : x.2 ≠ y.2 := by
          intro heq
          exact hnot (heq ▸ List.mem_map_of_mem hy)
        rwa [List.getElem?_set_ne hne] at hc
      -- the rest of the front moves other cursors
      rcases @ih (cursors.set x.2 c') hnodup
        (fun y hy c hc => hf y (List.mem_cons_of_mem _ hy) c (hother y hy c hc))
        (by
          intro y hy
          rw [List.length_set]
          exact hin y (List.mem_cons_of_mem _ hy)) with ⟨cursors', hrun, hlen, heach⟩
      refine ⟨cursors', ?_, by rw [hlen, List.length_set], ?_⟩
      · rw [forEach, hget]
        dsimp only
        rw [hc', ok_bind, hrun]
      · intro i c hc
        -- the first cursor of the front, or another
        by_cases hi : i = x.2
        · subst hi
          rw [hget] at hc
          cases hc
          rcases heach x.2 c' (List.getElem?_set_self hlt) with ⟨c'', hc'', hcase⟩
          rcases hcase with ⟨hmem, _⟩ | ⟨_, rfl⟩
          · exact absurd hmem hnot
          · exact ⟨c'', hc'', Or.inl ⟨List.mem_cons_self, hP⟩⟩
        · rcases heach i c (by rw [List.getElem?_set_ne (Ne.symm hi)]; exact hc) with ⟨c'', hc'', hcase⟩
          refine ⟨c'', hc'', ?_⟩
          rw [List.map_cons, List.mem_cons]
          rcases hcase with ⟨hmem, hP'⟩ | ⟨hmem, heq⟩
          · exact Or.inl ⟨Or.inr hmem, hP'⟩
          · exact Or.inr ⟨by rw [not_or]; exact ⟨hi, hmem⟩, heq⟩

/-- A cursor that is not in front is behind. -/
theorem mem_front_or_back {cursors : List (BmwCursor α)} (m : Nat) {x : Placed α} (hx : x ∈ inOrder cursors)
    (hnot : x.2 ∉ ((inOrder cursors).take m).map Prod.snd) : x ∈ (inOrder cursors).drop m := by
  rw [← List.take_append_drop m (inOrder cursors), List.mem_append] at hx
  rcases hx with hx | hx
  · exact absurd (List.mem_map_of_mem hx) hnot
  · exact hx

/-- Each cursor is in front once. -/
theorem front_nodup (cursors : List (BmwCursor α)) (m : Nat) : (((inOrder cursors).take m).map Prod.snd).Nodup :=
  (inOrder_nodup cursors).sublist ((List.take_sublist m _).map Prod.snd)

/-- The cursors in front are cursors. -/
theorem front_lt {cursors : List (BmwCursor α)} {m : Nat} : ∀ x ∈ (inOrder cursors).take m, x.2 < cursors.length := by
  intro x hx
  exact (List.getElem?_eq_some_iff.mp (mem_inOrder.mp (List.mem_of_mem_take hx)).1).1

/-- A cursor that is not in the front is exhausted or in the back. -/
theorem back_of_not_front {cursors : List (BmwCursor α)} {m target : Nat}
    (hback : ∀ x ∈ (inOrder cursors).drop m, target ≤ x.1.curId) (i : Nat) (c : BmwCursor α) (hc : cursors[i]? = some c)
    (hnot : i ∉ ((inOrder cursors).take m).map Prod.snd) : c.exhausted = true ∨ target ≤ c.curId := by
  cases hex : c.exhausted with
  | true => exact Or.inl rfl
  | false => exact Or.inr (hback (c, i) (mem_front_or_back m (mem_inOrder.mpr ⟨hc, hex⟩) hnot))

/-- The running minimum is a lower bound. -/
theorem foldl_min_le (blocks : List (BmwBlock α)) (a : Nat) :
    blocks.foldl (fun m block => min m block.lastId) a ≤ a ∧
      ∀ block ∈ blocks, blocks.foldl (fun m block => min m block.lastId) a ≤ block.lastId := by
  induction blocks generalizing a with
  | nil =>
      refine ⟨le_refl a, ?_⟩
      intro block hblock
      cases hblock
  | cons x blocks ih =>
      rcases ih (min a x.lastId) with ⟨hacc, hall⟩
      refine ⟨le_trans hacc (min_le_left _ _), ?_⟩
      intro block hblock
      rcases List.mem_cons.mp hblock with rfl | hblock
      · exact le_trans hacc (min_le_right _ _)
      · exact hall block hblock

/-- A lower bound stays below the running minimum. -/
theorem le_foldl_min {blocks : List (BmwBlock α)} {a b : Nat} (ha : b ≤ a) (h : ∀ block ∈ blocks, b ≤ block.lastId) :
    b ≤ blocks.foldl (fun m block => min m block.lastId) a := by
  induction blocks generalizing a with
  | nil => exact ha
  | cons x blocks ih =>
      refine ih (le_min ha (h x List.mem_cons_self)) ?_
      intro block hblock
      exact h block (List.mem_cons_of_mem _ hblock)

/-- How the pivot divides the order: what is behind it and on its id belongs to its document. -/
theorem pivot_front {order : List (Placed α)} (hsorted : order.Pairwise fun a b => a.1.curId ≤ b.1.curId) {p : Nat}
    {c : Placed α} (hp : order[p]? = some c) :
    ∃ m, frontOf order p c.1.curId = order.take m ∧ m ≤ order.length ∧ c ∈ order.take m ∧
      (∀ x ∈ order.drop p, c.1.curId ≤ x.1.curId) ∧ (∀ x ∈ order.take m, x.1.curId ≤ c.1.curId) ∧
      (∀ x ∈ order.drop m, c.1.curId < x.1.curId) := by
  rcases List.getElem?_eq_some_iff.mp hp with ⟨hlt, hget⟩
  have hdrop : order.drop p = c :: order.drop (p + 1) := by
    rw [List.drop_eq_getElem_cons hlt, hget]
  refine ⟨p + 1 + ((order.drop (p + 1)).takeWhile fun x => decide (x.1.curId = c.1.curId)).length, rfl, ?_⟩
  have hbound : p + 1 + ((order.drop (p + 1)).takeWhile fun x => decide (x.1.curId = c.1.curId)).length ≤ order.length := by
    have := (List.takeWhile_sublist (fun x : Placed α => decide (x.1.curId = c.1.curId)) (l := order.drop (p + 1))).length_le
    rw [List.length_drop] at this
    omega
  refine ⟨hbound, ?_⟩
  clear hbound
  generalize order.drop (p + 1) = later at hdrop ⊢
  generalize hm : p + 1 + (later.takeWhile fun x => decide (x.1.curId = c.1.curId)).length = m
  have hsplit : order = order.take p ++ c :: later := by
    rw [← hdrop, List.take_append_drop]
  have hlen : (order.take p).length = p := by
    rw [List.length_take]
    omega
  have htake : order.take m = order.take p ++ c :: later.takeWhile fun x => decide (x.1.curId = c.1.curId) := by
    have htw : later.take (later.takeWhile fun x => decide (x.1.curId = c.1.curId)).length =
        later.takeWhile fun x => decide (x.1.curId = c.1.curId) :=
      List.prefix_iff_eq_take.mp (List.takeWhile_prefix _) |>.symm
    nth_rewrite 1 [hsplit]
    rw [show m = p + (1 + (later.takeWhile fun x => decide (x.1.curId = c.1.curId)).length) by omega]
    nth_rewrite 1 [← hlen]
    rw [List.take_length_add_append, Nat.add_comm 1, List.take_succ_cons, htw]
  have hdropm : order.drop m = later.dropWhile fun x => decide (x.1.curId = c.1.curId) := by
    have hdw : later.drop (later.takeWhile fun x => decide (x.1.curId = c.1.curId)).length =
        later.dropWhile fun x => decide (x.1.curId = c.1.curId) := by
      have h := List.takeWhile_append_dropWhile (p := fun x => decide (x.1.curId = c.1.curId)) (l := later)
      nth_rewrite 2 [← h]
      exact List.drop_left
    rw [show m = p + (1 + (later.takeWhile fun x => decide (x.1.curId = c.1.curId)).length) by omega, ← List.drop_drop, hdrop, Nat.add_comm 1, List.drop_succ_cons, hdw]
  rw [hsplit, List.pairwise_append, List.pairwise_cons] at hsorted
  rcases hsorted with ⟨_, ⟨hlater, hpair⟩, hbefore⟩
  refine ⟨?_, ?_, ?_, ?_⟩
  · rw [htake]
    exact List.mem_append_right _ List.mem_cons_self
  · intro x hx
    rw [hdrop] at hx
    rcases List.mem_cons.mp hx with rfl | hx
    · exact le_refl _
    · exact hlater x hx
  · intro x hx
    rw [htake] at hx
    rcases List.mem_append.mp hx with hx | hx
    · exact hbefore x hx c List.mem_cons_self
    · rcases List.mem_cons.mp hx with rfl | hx
      · exact le_refl _
      · have := List.mem_takeWhile_imp hx
        rw [decide_eq_true_eq] at this
        exact le_of_eq this
  · intro x hx
    rw [hdropm] at hx
    -- the first of them is past the pivot, and the order is kept
    cases hdw : later.dropWhile fun x => decide (x.1.curId = c.1.curId) with
    | nil =>
        rw [hdw] at hx
        cases hx
    | cons y rest =>
        have hy : y ∈ later.dropWhile fun x => decide (x.1.curId = c.1.curId) := by
          rw [hdw]
          exact List.mem_cons_self
        have hle := hlater y ((List.dropWhile_sublist _).subset hy)
        have hne : y.1.curId ≠ c.1.curId := by
          have hhead := List.head_dropWhile_not (fun x : Placed α => decide (x.1.curId = c.1.curId))
            (by rw [hdw]; exact List.cons_ne_nil y rest : later.dropWhile _ ≠ [])
          simpa [hdw] using hhead
        have hsub := hpair.sublist (List.dropWhile_sublist fun x => decide (x.1.curId = c.1.curId))
        rw [hdw] at hx hsub
        rcases List.mem_cons.mp hx with rfl | hx
        · omega
        · have := (List.pairwise_cons.mp hsub).1 x hx
          omega

variable [Field α] [LinearOrder α]

/-- The pivot is the first place the bounds reach the score to beat at. -/
theorem pivot_some {slack acc : α} {theta : Option α} {order : List (Placed α)} {p : Nat}
    (h : pivot slack theta acc order = some p) :
    p < order.length ∧ (p = 0 ∨ ∃ t, theta = some t ∧
      (acc + ((order.take p).map fun c => c.1.termUb).sum) * slack ≤ t) := by
  induction order generalizing acc p with
  | nil => cases h
  | cons c rest ih =>
      unfold pivot at h
      dsimp only at h
      split at h
      · cases h
        exact ⟨Nat.zero_lt_succ _, Or.inl rfl⟩
      · rename_i hnot
        rcases Option.map_eq_some_iff.mp h with ⟨n, hn, rfl⟩
        rcases ih hn with ⟨hlt, hsum⟩
        refine ⟨Nat.succ_lt_succ hlt, Or.inr ?_⟩
        cases theta with
        | none => exact absurd rfl hnot
        | some t =>
            refine ⟨t, rfl, ?_⟩
            rw [Option.all_some, decide_eq_true_eq, not_lt] at hnot
            rw [List.take_succ_cons, List.map_cons, List.sum_cons, ← add_assoc]
            rcases hsum with rfl | ⟨t', ht', hle⟩
            · rw [List.take_zero, List.map_nil, List.sum_nil, add_zero]
              exact hnot
            · cases ht'
              exact hle

/-- Without a pivot no document can beat the threshold. -/
theorem pivot_none {slack acc : α} {theta : Option α} {order : List (Placed α)}
    (h : pivot slack theta acc order = none) :
    order = [] ∨ ∃ t, theta = some t ∧ (acc + (order.map fun c => c.1.termUb).sum) * slack ≤ t := by
  induction order generalizing acc with
  | nil => exact Or.inl rfl
  | cons c rest ih =>
      unfold pivot at h
      dsimp only at h
      split at h
      · cases h
      · rename_i hnot
        rw [Option.map_eq_none_iff] at h
        right
        cases theta with
        | none => exact absurd rfl hnot
        | some t =>
            refine ⟨t, rfl, ?_⟩
            rw [Option.all_some, decide_eq_true_eq, not_lt] at hnot
            rw [List.map_cons, List.sum_cons, ← add_assoc]
            rcases ih h with rfl | ⟨t', ht', hle⟩
            · rw [List.map_nil, List.sum_nil, add_zero]
              exact hnot
            · cases ht'
              exact hle

end Order

/-! ## Bounds on a score -/

section Bounds

variable {α : Type} [Field α] [LinearOrder α] {terms : List (α × List Posting)}

/-- What one term adds to the score of a document. -/
def share (avgdl : α) (dl : Nat) (id : Ulid) (term : α × List Posting) : α :=
  match find id term.2 with
  | none => 0
  | some tf => contribution term.1 avgdl tf dl

/-- A score is the sum of its shares. -/
theorem exactScore_eq_sum (terms : List (α × List Posting)) (avgdl : α) (id : Ulid) (dl : Nat) :
    exactScore terms avgdl id dl = (terms.map (share avgdl dl id)).sum := by
  have hfrom : ∀ (ts : List (α × List Posting)) (s : α),
      sumFrom (fun idf tf => contribution idf avgdl tf dl) ts id s = s + (ts.map (share avgdl dl id)).sum := by
    intro ts
    induction ts with
    | nil =>
        intro s
        exact (add_zero s).symm
    | cons term ts ih =>
        intro s
        rw [sumFrom_cons, ih, List.map_cons, List.sum_cons, share]
        cases find id term.2 with
        | none => rw [zero_add]
        | some tf => rw [add_assoc]
  rw [exactScore_eq, hfrom, zero_add]

omit [LinearOrder α] in
/-- The bounds of the blocks in front, added up. -/
theorem sum_filterMap_ub {front : List (Placed α)} (f : Placed α → Option (BmwBlock α)) :
    ((front.filterMap f).map BmwBlock.ub).sum = (front.map fun x => ((f x).map BmwBlock.ub).getD 0).sum := by
  induction front with
  | nil => rfl
  | cons x front ih =>
      rw [List.map_cons, List.sum_cons, ← ih]
      cases hf : f x with
      | none =>
          rw [List.filterMap_cons_none hf]
          exact (zero_add _).symm
      | some block =>
          rw [List.filterMap_cons_some hf, List.map_cons, List.sum_cons]
          rfl

omit [LinearOrder α] in
/-- A sum over a list, by positions. -/
theorem sum_map_eq_range {β : Type} (g : β → α) (l : List β) :
    (l.map g).sum = ∑ i ∈ Finset.range l.length, (l[i]?.map g).getD 0 := by
  induction l with
  | nil => rfl
  | cons x l ih =>
      rw [List.map_cons, List.sum_cons, List.length_cons, Finset.sum_range_succ', ih, add_comm]
      rfl

variable [IsStrictOrderedRing α]

/-- A score is below the bounds of the places that hold the document's terms. -/
theorem exactScore_le_sum {avgdl : α} {dl : Nat} {id : Ulid} (front : List (Placed α)) (bound : Placed α → α)
    (hnodup : (front.map Prod.snd).Nodup) (hin : ∀ x ∈ front, x.2 < terms.length)
    (hbound : ∀ x ∈ front, ∀ term, terms[x.2]? = some term → share avgdl dl id term ≤ bound x)
    (hout : ∀ (i : Nat) term, terms[i]? = some term → i ∉ front.map Prod.snd → share avgdl dl id term = 0) :
    exactScore terms avgdl id dl ≤ (front.map bound).sum := by
  let f : Nat → α := fun i => (terms[i]?.map (share avgdl dl id)).getD 0
  have hall : (terms.map (share avgdl dl id)).sum = ∑ i ∈ Finset.range terms.length, f i :=
    sum_map_eq_range _ _
  have hsub : (front.map Prod.snd).toFinset ⊆ Finset.range terms.length := by
    intro i hi
    rw [List.mem_toFinset] at hi
    rcases List.mem_map.mp hi with ⟨x, hx, rfl⟩
    exact Finset.mem_range.mpr (hin x hx)
  have hzero : ∀ i ∈ Finset.range terms.length, i ∉ (front.map Prod.snd).toFinset → f i = 0 := by
    intro i hi hnot
    rw [List.mem_toFinset] at hnot
    have hlt := Finset.mem_range.mp hi
    have hget : terms[i]? = some terms[i] := List.getElem?_eq_getElem hlt
    show (terms[i]?.map _).getD 0 = 0
    rw [hget]
    exact hout i _ hget hnot
  rw [exactScore_eq_sum, hall, ← Finset.sum_subset hsub hzero, List.sum_toFinset f hnodup, List.map_map]
  refine List.sum_le_sum ?_
  intro x hx
  have hlt := hin x hx
  have hget : terms[x.2]? = some terms[x.2] := List.getElem?_eq_getElem hlt
  show (terms[x.2]?.map _).getD 0 ≤ _
  rw [hget]
  exact hbound x hx _ hget

end Bounds

/-! ## What a cursor has left of its term -/

/-- What is left of an ascending list past the target. -/
theorem mem_dropWhile_before {l : List Posting} (hsorted : Sorted l) {target : Nat} {p : Posting} :
    p ∈ l.dropWhile (before target) ↔ p ∈ l ∧ target ≤ p.1.val := by
  induction l with
  | nil => simp
  | cons x l ih =>
      rcases List.pairwise_cons.mp hsorted with ⟨hlt, hl⟩
      by_cases hx : x.1.val < target
      · rw [List.dropWhile_cons_of_pos (by simpa [before] using hx), ih hl, List.mem_cons]
        constructor
        · rintro ⟨hp, hle⟩
          exact ⟨Or.inr hp, hle⟩
        · rintro ⟨rfl | hp, hle⟩
          · omega
          · exact ⟨hp, hle⟩
      · rw [dropWhile_eq_self (not_lt.mp hx)]
        constructor
        · intro hp
          refine ⟨hp, ?_⟩
          rcases List.mem_cons.mp hp with rfl | hp
          · exact not_lt.mp hx
          · have := Fin.lt_def.mp (hlt p hp)
            omega
        · exact fun hp => hp.1

section Tracks

variable {α : Type} [Field α] [LinearOrder α] {done : Nat} {term : α × List Posting} {c : BmwCursor α}
  {blocks : List Block}

/-- A cursor over the postings of a term that has passed those before `done`. -/
structure Tracks (done : Nat) (term : α × List Posting) (c : BmwCursor α) (blocks : List Block) : Prop where
  idf : c.idf = term.1
  list : postings blocks = term.2
  stands : c.At blocks (term.2.dropWhile (before done))
  termUb : ∀ block ∈ blocks, (BmwBlock.of c.idf block).ub ≤ c.termUb

/-- The postings of a term that is tracked ascend. -/
theorem Tracks.sorted (h : Tracks done term c blocks) : Sorted term.2 := by
  rw [← h.list]
  exact h.stands.list.sorted

/-- A posting that is left keeps the cursor from passing it. -/
theorem Tracks.live (h : Tracks done term c blocks) {p : Posting} (hp : p ∈ term.2) (hle : done ≤ p.1.val) :
    c.exhausted = false ∧ c.curId ≤ p.1.val := by
  have hrest : p ∈ term.2.dropWhile (before done) := (mem_dropWhile_before h.sorted).mpr ⟨hp, hle⟩
  have hlive : c.exhausted = false := by
    cases hex : c.exhausted with
    | false => rfl
    | true =>
        rw [h.stands.ended hex] at hrest
        cases hrest
  refine ⟨hlive, ?_⟩
  rcases h.stands.head hlive with ⟨q, l, heq, hid⟩
  have hsorted : Sorted (term.2.dropWhile (before done)) := h.sorted.sublist (List.dropWhile_sublist _)
  rw [heq] at hrest hsorted
  rcases List.mem_cons.mp hrest with rfl | hin
  · exact le_of_eq hid.symm
  · have := Fin.lt_def.mp ((List.pairwise_cons.mp hsorted).1 p hin)
    omega

/-- The posting a cursor stands on. -/
theorem Tracks.posting (h : Tracks done term c blocks) (hlive : c.exhausted = false) :
    ∃ p ∈ term.2, p.1.val = c.curId ∧ done ≤ p.1.val := by
  rcases h.stands.head hlive with ⟨p, l, heq, hid⟩
  have hin : p ∈ term.2.dropWhile (before done) := by
    rw [heq]
    exact List.mem_cons_self
  rcases (mem_dropWhile_before h.sorted).mp hin with ⟨hp, hle⟩
  exact ⟨p, hp, hid, hle⟩

/-- A cursor is never behind what is done. -/
theorem Tracks.le_curId (h : Tracks done term c blocks) (hlive : c.exhausted = false) :
    done ≤ c.curId ∧ c.curId < 2 ^ 128 := by
  rcases h.posting hlive with ⟨p, _, hid, hle⟩
  have := p.1.isLt
  omega

/-- Moving a cursor on keeps it on its term. -/
theorem Tracks.advance (h : Tracks done term c blocks) {c' : BmwCursor α} {target : Nat} (hle : done ≤ target)
    (hat : c'.At blocks ((term.2.dropWhile (before done)).dropWhile (before target))) (hidf : c'.idf = c.idf)
    (hub : c'.termUb = c.termUb) : Tracks target term c' blocks where
  idf := hidf.trans h.idf
  list := h.list
  stands := by
    rw [dropWhile_dropWhile, max_eq_right hle] at hat
    exact hat
  termUb := by
    rw [hidf, hub]
    exact h.termUb

/-- A cursor that already stands past a target has passed what is before it. -/
theorem Tracks.stay (h : Tracks done term c blocks) {target : Nat} (hle : done ≤ target)
    (hpast : c.exhausted = true ∨ target ≤ c.curId) : Tracks target term c blocks := by
  refine h.advance hle ?_ rfl rfl
  rw [h.stands.stay hpast]
  exact h.stands

variable [IsStrictOrderedRing α] (hterm : 0 < term.1 ∧ Sorted term.2 ∧ ∀ p ∈ term.2, 0 < p.2)

include hterm

/-- What a term adds is below the bound of the block that holds the document. -/
theorem Tracks.share_le_block (h : Tracks done term c blocks) {block : Block} (hblock : block ∈ blocks) {id : Ulid} {tf : Nat}
    (hin : (id, tf) ∈ block.entries) (avgdl : α) (dl : Nat) :
    share avgdl dl id term ≤ (BmwBlock.of c.idf block).ub := by
  have hmem : (id, tf) ∈ term.2 := by
    rw [← h.list]
    exact List.mem_flatMap.mpr ⟨block, hblock, hin⟩
  rw [share, find_of_mem h.sorted.nodup_keys hmem, h.idf]
  exact contribution_le_block hterm.1 hin (hterm.2.2 _ hmem) avgdl dl

/-- The bound of a term is not negative. -/
theorem Tracks.termUb_nonneg (h : Tracks done term c blocks) (hlive : c.exhausted = false) : 0 ≤ c.termUb := by
  rcases h.posting hlive with ⟨p, hp, _, _⟩
  rw [← h.list] at hp
  rcases List.mem_flatMap.mp hp with ⟨block, hblock, hin⟩
  have hmem : p ∈ term.2 := by
    rw [← h.list]
    exact List.mem_flatMap.mpr ⟨block, hblock, hin⟩
  have hpos := contribution_pos hterm.1 0 (hterm.2.2 p hmem) 0
  have hle := contribution_le_block hterm.1 hin (hterm.2.2 p hmem) 0 0
  have hub := h.termUb block hblock
  rw [h.idf] at hub
  exact le_trans (le_of_lt hpos) (le_trans hle hub)

/-- What a term adds is below the bound of the term. -/
theorem Tracks.share_le (h : Tracks done term c blocks) (hlive : c.exhausted = false) (id : Ulid) (avgdl : α) (dl : Nat) :
    share avgdl dl id term ≤ c.termUb := by
  cases hfind : find id term.2 with
  | none =>
      rw [share, hfind]
      exact h.termUb_nonneg hterm hlive
  | some tf =>
      have hmem := mem_of_find hfind
      rw [← h.list] at hmem
      rcases List.mem_flatMap.mp hmem with ⟨block, hblock, hin⟩
      exact le_trans (h.share_le_block hterm hblock hin avgdl dl) (h.termUb block hblock)

/-- From a pivot on, up to the end of the covering block, what a term adds is below the bound of
that block. Where no block covers the pivot, nothing is left from it on. -/
theorem Tracks.share_le_covering (h : Tracks done term c blocks) (hlive : c.exhausted = false) {pivotId : Nat}
    (hcur : c.curId ≤ pivotId) (id : Ulid) (hid : pivotId ≤ id.val) (avgdl : α) (dl : Nat)
    (hlast : ∀ block ∈ c.coveringBlock pivotId, id.val ≤ block.lastId) :
    share avgdl dl id term ≤ ((c.coveringBlock pivotId).map BmwBlock.ub).getD 0 := by
  have hcover := h.stands.coveringBlock hlive hcur
  cases hfind : blocks.find? fun block => decide (pivotId ≤ lastId block.entries) with
  | none =>
      rw [hfind] at hcover
      rw [hcover, share]
      cases hterm' : find id term.2 with
      | none => exact le_refl _
      | some tf =>
          -- its block would end at the pivot or past it
          have hmem := mem_of_find hterm'
          rw [← h.list] at hmem
          rcases List.mem_flatMap.mp hmem with ⟨block, hblock, hin⟩
          have hnot := List.find?_eq_none.mp hfind block hblock
          have hle := le_lastId ((List.pairwise_flatMap.mp h.stands.list.sorted).1 block hblock) _ hin
          simp only [decide_eq_true_eq] at hnot
          dsimp only at hle
          omega
  | some block =>
      rw [hfind] at hcover
      rw [hcover] at hlast ⊢
      have hend : id.val ≤ lastId block.entries := hlast _ rfl
      rcases List.find?_eq_some_iff_append.mp hfind with ⟨hge, before', after, rfl, hbehind⟩
      have hblock : block ∈ before' ++ block :: after := List.mem_append_right _ List.mem_cons_self
      show share avgdl dl id term ≤ (BmwBlock.of c.idf block).ub
      cases hterm' : find id term.2 with
      | none =>
          rw [share, hterm']
          have hne := h.stands.list.nonempty block hblock
          rcases List.exists_mem_of_ne_nil _ hne with ⟨p, hp⟩
          have hmem : p ∈ term.2 := by
            rw [← h.list]
            exact List.mem_flatMap.mpr ⟨block, hblock, hp⟩
          have hpos := contribution_pos hterm.1 0 (hterm.2.2 p hmem) 0
          rw [h.idf]
          exact le_trans (le_of_lt hpos) (contribution_le_block hterm.1 hp (hterm.2.2 p hmem) 0 0)
      | some tf =>
          have hmem := mem_of_find hterm'
          rw [← h.list, postings_append, postings_cons] at hmem
          have hsorted := h.stands.list.sorted
          rw [postings_append, postings_cons] at hsorted
          rcases List.pairwise_append.mp hsorted with ⟨hs1, hs2, _⟩
          rcases List.pairwise_append.mp hs2 with ⟨_, _, hs3⟩
          rcases List.mem_append.mp hmem with hin | hin
          · -- the blocks before end before the pivot
            rcases List.mem_flatMap.mp hin with ⟨x, hx, hin⟩
            have hnot := hbehind x hx
            have hle := le_lastId ((List.pairwise_flatMap.mp hs1).1 x hx) _ hin
            simp only [Bool.not_eq_true', decide_eq_false_iff_not] at hnot
            dsimp only at hle
            omega
          · rcases List.mem_append.mp hin with hin | hin
            · exact h.share_le_block hterm hblock hin avgdl dl
            · rcases lastId_mem (h.stands.list.nonempty block hblock) with ⟨e, he, hlastid⟩
              have hlt := Fin.lt_def.mp (hs3 e he _ hin)
              dsimp only at hlt
              omega

end Tracks

/-! ## The cursors of a search -/

section Cursors

variable {α : Type} [Field α] [LinearOrder α] {terms : List (α × List Posting)} {cursors : List (BmwCursor α)}
  {done : Nat}

/-- One cursor per term, each past what is before `done`. -/
def Cursors (terms : List (α × List Posting)) (done : Nat) (cursors : List (BmwCursor α)) : Prop :=
  List.Forall₂ (fun term c => ∃ blocks, Tracks done term c blocks) terms cursors

/-- There is one cursor for each term. -/
theorem Cursors.length (h : Cursors terms done cursors) : cursors.length = terms.length := h.length_eq.symm

/-- The term of a cursor. -/
theorem Cursors.getElem? (h : Cursors terms done cursors) {i : Nat} {c : BmwCursor α} (hc : cursors[i]? = some c) :
    ∃ term blocks, terms[i]? = some term ∧ Tracks done term c blocks := by
  rcases List.getElem?_eq_some_iff.mp hc with ⟨hlt, rfl⟩
  have hlt' : i < terms.length := by
    rw [← h.length]
    exact hlt
  rcases (List.forall₂_iff_get.mp h).2 i hlt' hlt with ⟨blocks, htracks⟩
  exact ⟨_, blocks, List.getElem?_eq_getElem hlt', htracks⟩

/-- The cursor of a term. -/
theorem Cursors.of_term (h : Cursors terms done cursors) {i : Nat} {term : α × List Posting} (hterm : terms[i]? = some term) :
    ∃ c blocks, cursors[i]? = some c ∧ Tracks done term c blocks := by
  have hlt := (List.getElem?_eq_some_iff.mp hterm).1
  rw [← h.length] at hlt
  rcases h.getElem? (List.getElem?_eq_getElem hlt) with ⟨term', blocks, hterm', htracks⟩
  rw [hterm] at hterm'
  cases hterm'
  exact ⟨_, blocks, List.getElem?_eq_getElem hlt, htracks⟩

/-- Moving the cursors at some places to a target that the others have reached. -/
theorem Cursors.advance (h : Cursors terms done cursors) {target : Nat} (hle : done ≤ target) {front : List (Placed α)}
    (hnodup : (front.map Prod.snd).Nodup) (hin : ∀ x ∈ front, x.2 < cursors.length)
    (hout : ∀ (i : Nat) c, cursors[i]? = some c → i ∉ front.map Prod.snd → c.exhausted = true ∨ target ≤ c.curId)
    {f : BmwCursor α → Except Error (BmwCursor α)}
    (hf : ∀ c blocks rest, BmwCursor.At c blocks rest → ∃ c', f c = .ok c' ∧
      c'.At blocks (rest.dropWhile (before target)) ∧ BmwCursor.Moved c c') :
    ∃ cursors', forEach f front cursors = .ok cursors' ∧ Cursors terms target cursors' := by
  let P : BmwCursor α → BmwCursor α → Prop := fun c c' => ∀ term blocks, Tracks done term c blocks →
    ∃ blocks', Tracks target term c' blocks'
  -- one cursor of the front: moved to the target over the same blocks
  have hstep : ∀ x ∈ front, ∀ c, cursors[x.2]? = some c → ∃ c', f c = .ok c' ∧ P c c' := by
    intro x _ c hc
    rcases h.getElem? hc with ⟨term, blocks, hterm, htracks⟩
    rcases hf c blocks _ htracks.stands with ⟨c', hrun, _, _⟩
    refine ⟨c', hrun, ?_⟩
    intro term' blocks' htracks'
    rcases hf c blocks' _ htracks'.stands with ⟨c'', hrun', hat, hmoved⟩
    rw [hrun] at hrun'
    cases hrun'
    exact ⟨blocks', htracks'.advance hle hat hmoved.idf hmoved.termUb⟩
  rcases forEach_ok front hnodup hstep hin with ⟨cursors', hrun, hlen, heach⟩
  refine ⟨cursors', hrun, List.forall₂_iff_get.mpr ⟨by rw [hlen, h.length], ?_⟩⟩
  intro i h1 h2
  have hlt : i < cursors.length := by
    rw [← hlen]
    exact h2
  have hc : cursors[i]? = some cursors[i] := List.getElem?_eq_getElem hlt
  rcases h.getElem? hc with ⟨term, blocks, hterm, htracks⟩
  rw [List.getElem?_eq_getElem h1] at hterm
  cases hterm
  rcases heach i _ hc with ⟨c', hc', hcase⟩
  rw [List.getElem?_eq_getElem h2] at hc'
  cases hc'
  -- a cursor outside the front stands beyond the target already
  rcases hcase with ⟨_, hP⟩ | ⟨hnot, heq⟩
  · exact hP _ blocks htracks
  · refine ⟨blocks, ?_⟩
    show Tracks target _ cursors'[i] blocks
    rw [heq]
    exact htracks.stay hle (hout i _ hc hnot)

/-- A document that is left is in no term whose cursor stands past it. -/
theorem Cursors.share_eq_zero (h : Cursors terms done cursors) {front : List (Placed α)} {id : Ulid} (hid : done ≤ id.val)
    (hout : ∀ x ∈ inOrder cursors, x.2 ∉ front.map Prod.snd → id.val < x.1.curId) (avgdl : α) (dl : Nat) (i : Nat)
    (term : α × List Posting) (hterm : terms[i]? = some term) (hnot : i ∉ front.map Prod.snd) :
    share avgdl dl id term = 0 := by
  rcases h.of_term hterm with ⟨c, blocks, hc, htracks⟩
  rw [share]
  cases hfind : find id term.2 with
  | none => rfl
  | some tf =>
      rcases htracks.live (mem_of_find hfind) hid with ⟨hlive, hle⟩
      have := hout (c, i) (mem_inOrder.mpr ⟨hc, hlive⟩) hnot
      dsimp only at this hle
      omega

/-- The exact score of the document that the cursors stand on, and of no cursor before it. -/
theorem Cursors.scoreAt (h : Cursors terms done cursors) {id : Ulid} (hid : done ≤ id.val)
    (hmin : ∀ c ∈ cursors, c.exhausted = false → id.val ≤ c.curId) (avgdl : α) (dl : Nat) (score : α) :
    ∃ cursors', scoreAt avgdl dl id.val cursors score =
        .ok (sumFrom (fun idf tf => contribution idf avgdl tf dl) terms id score, cursors') ∧
      Cursors terms done cursors' ∧
      List.Forall₂ (fun c c' : BmwCursor α => c'.exhausted = c.exhausted ∧ c'.curId = c.curId) cursors cursors' := by
  induction h generalizing score with
  | nil => exact ⟨[], rfl, List.Forall₂.nil, List.Forall₂.nil⟩
  | @cons term c terms cursors hhead _ ih =>
      rcases hhead with ⟨blocks, htracks⟩
      have hrest := fun s => ih (fun c hc => hmin c (List.mem_cons_of_mem _ hc)) s
      unfold Fts.scoreAt
      rw [sumFrom_cons]
      by_cases hoff : c.exhausted = true ∨ c.curId ≠ id.val
      · -- the term does not occur in the document
        rw [if_pos hoff]
        have hnone : find id term.2 = none := by
          cases hfind : find id term.2 with
          | none => rfl
          | some tf =>
              exfalso
              rcases htracks.live (mem_of_find hfind) hid with ⟨hlive, hle⟩
              rcases hoff with hex | hne
              · rw [hlive] at hex
                cases hex
              · have := hmin c List.mem_cons_self hlive
                dsimp only at hle
                omega
        rcases hrest score with ⟨cursors', hrun, hcursors, hsame⟩
        rw [hrun, hnone]
        exact ⟨c :: cursors', rfl, List.Forall₂.cons ⟨blocks, htracks⟩ hcursors, List.Forall₂.cons ⟨rfl, rfl⟩ hsame⟩
      · rw [if_neg hoff]
        rw [not_or, Bool.not_eq_true, not_not] at hoff
        rcases hoff with ⟨hlive, hcur⟩
        rcases htracks.stands.currentTf hlive with ⟨p, l, c', heq, hpid, hrun, hat, hmoved, hlive', hcur'⟩
        have hin : p ∈ term.2 := by
          refine (List.dropWhile_sublist (before done)).subset ?_
          rw [heq]
          exact List.mem_cons_self
        have hp : p.1 = id := Fin.ext (by rw [hpid, hcur])
        have hfind : find id term.2 = some p.2 := by
          rw [← hp]
          exact find_of_mem htracks.sorted.nodup_keys hin
        have htracks' : Tracks done term c' blocks := by
          refine ⟨hmoved.idf.trans htracks.idf, htracks.list, hat, ?_⟩
          rw [hmoved.idf, hmoved.termUb]
          exact htracks.termUb
        rcases hrest (score + contribution c'.idf avgdl p.2 dl) with ⟨cursors', hruns, hcursors, hsame⟩
        rw [hrun, ok_bind]
        dsimp only
        rw [hruns, hfind, hmoved.idf, htracks.idf]
        exact ⟨c' :: cursors', rfl, List.Forall₂.cons ⟨blocks, htracks'⟩ hcursors,
          List.Forall₂.cons ⟨hlive'.trans hlive.symm, hcur'⟩ hsame⟩

end Cursors

/-! ## One round -/

section Round

variable {α : Type} [Field α] [LinearOrder α] {q : Query α} {terms : List (α × List Posting)} {s : Scan α} {done : Nat}

/-- The hits a search ranks, before an id. -/
def Query.Ranks (q : Query α) (terms : List (α × List Posting)) (upTo : Nat) (h : Hit α) : Prop :=
  Matches terms q.avgdl q.keep q.docLen h ∧ h.recordId.val < upTo

/-- Every document before `done` is dealt with: the cursors have passed it, and it is in the top or it
is not among the best. -/
structure Query.Inv (q : Query α) (terms : List (α × List Posting)) (done : Nat) (s : Scan α) : Prop where
  le : done ≤ 2 ^ 128
  cursors : Cursors terms done s.cursors
  top : Top q.k (q.Ranks terms done) s.hits

/-- Documents that do not beat the last hit can be passed over: the hits held precede them, by a
higher score or, where the scores are equal, by a smaller id. -/
theorem Query.pass {hits : List (Hit α)} (htop : Top q.k (q.Ranks terms done) hits) (hk : 0 < q.k) {upTo : Nat}
    (hle : done ≤ upTo) (hbound : ∀ h, Matches terms q.avgdl q.keep q.docLen h → done ≤ h.recordId.val →
      h.recordId.val < upTo → ∃ t, q.theta hits = some t ∧ h.score ≤ t) :
    Top q.k (q.Ranks terms upTo) hits := by
  have hskip := htop.skip (T := fun h => Matches terms q.avgdl q.keep q.docLen h ∧
    done ≤ h.recordId.val ∧ h.recordId.val < upTo) (by
      intro h hm
      rcases hm with ⟨hm, hge, hlt⟩
      rcases hbound h hm hge hlt with ⟨t, ht, hscore⟩
      -- a threshold exists only once the list is full, and is its last score
      unfold Query.theta at ht
      split at ht
      case isFalse => cases ht
      rename_i hfull
      refine ⟨hfull, ?_⟩
      intro x hx
      rcases Option.map_eq_some_iff.mp ht with ⟨last, hlast, rfl⟩
      rcases List.getElem?_eq_some_iff.mp hlast with ⟨hj, rfl⟩
      rcases List.mem_iff_getElem.mp hx with ⟨i, hi, rfl⟩
      have hxlast : hits[q.k - 1].score ≤ hits[i].score := by
        rcases lt_or_eq_of_le (show i ≤ q.k - 1 by omega) with hlt | rfl
        · exact Hit.score_le_of_lt (List.pairwise_iff_getElem.mp htop.sorted i (q.k - 1) hi hj hlt)
        · exact le_refl _
      have hid := (htop.sub _ hx).2
      -- a passed document does not beat a hit: a tie goes to the smaller id
      rw [Hit.lt_iff]
      rcases lt_or_eq_of_le (le_trans hscore hxlast) with hlt | heq
      · exact Or.inl hlt
      · refine Or.inr ⟨heq.symm, ?_⟩
        rw [Fin.lt_def]
        omega)
  refine hskip.congr ?_
  intro h
  constructor
  · rintro (hm | ⟨hm, _, hlt⟩)
    · exact ⟨hm.1, lt_of_lt_of_le hm.2 hle⟩
    · exact ⟨hm, hlt⟩
  · intro hm
    by_cases hdone : h.recordId.val < done
    · exact Or.inl ⟨hm.1, hdone⟩
    · exact Or.inr ⟨hm.1, not_lt.mp hdone, hm.2⟩

variable [IsStrictOrderedRing α]

/-- The sum of the bounds of the terms that can hold a document, for one before every other cursor. -/
theorem Query.Inv.score_le_front (h : q.Inv terms done s) (hterms : TermsOk terms) {id : Ulid} (hid : done ≤ id.val) {m : Nat}
    (hback : ∀ x ∈ (inOrder s.cursors).drop m, id.val < x.1.curId) (dl : Nat) :
    exactScore terms q.avgdl id dl ≤ (((inOrder s.cursors).take m).map fun x => x.1.termUb).sum := by
  refine exactScore_le_sum _ (fun x => x.1.termUb) (front_nodup s.cursors m) ?_ ?_ ?_
  · intro x hx
    rw [← h.cursors.length]
    exact front_lt x hx
  · intro x hx term hterm
    rcases mem_inOrder.mp (List.mem_of_mem_take hx) with ⟨hc, hlive⟩
    rcases h.cursors.getElem? hc with ⟨term', blocks, hterm', htracks⟩
    rw [hterm] at hterm'
    cases hterm'
    exact htracks.share_le (hterms term (List.mem_of_getElem? hterm)) hlive id q.avgdl dl
  · exact h.cursors.share_eq_zero hid (fun x hx hnot => hback x (mem_front_or_back m hx hnot)) q.avgdl dl

/-- The sum of the bounds of the covering blocks, for a document from the pivot on that no covering
block ends before. -/
theorem Query.Inv.score_le_blocks (h : q.Inv terms done s) (hterms : TermsOk terms) {pivotId : Nat} {id : Ulid}
    (hpivot : done ≤ pivotId) (hid : pivotId ≤ id.val) {m : Nat}
    (hfront : ∀ x ∈ (inOrder s.cursors).take m, x.1.curId ≤ pivotId)
    (hback : ∀ x ∈ (inOrder s.cursors).drop m, id.val < x.1.curId)
    (hlast : ∀ block ∈ coveringBlocks ((inOrder s.cursors).take m) pivotId, id.val ≤ block.lastId) (dl : Nat) :
    exactScore terms q.avgdl id dl ≤
      ((coveringBlocks ((inOrder s.cursors).take m) pivotId).map BmwBlock.ub).sum := by
  rw [coveringBlocks, sum_filterMap_ub]
  refine exactScore_le_sum _ _ (front_nodup s.cursors m) ?_ ?_ ?_
  · intro x hx
    rw [← h.cursors.length]
    exact front_lt x hx
  · intro x hx term hterm
    rcases mem_inOrder.mp (List.mem_of_mem_take hx) with ⟨hc, hlive⟩
    rcases h.cursors.getElem? hc with ⟨term', blocks, hterm', htracks⟩
    rw [hterm] at hterm'
    cases hterm'
    refine htracks.share_le_covering (hterms term (List.mem_of_getElem? hterm)) hlive (hfront x hx) id hid q.avgdl dl ?_
    intro block hblock
    exact hlast block (List.mem_filterMap.mpr ⟨x, hx, hblock⟩)
  · exact h.cursors.share_eq_zero (le_trans hpivot hid) (fun x hx hnot => hback x (mem_front_or_back m hx hnot)) q.avgdl dl

/-- A score below a sum of bounds that does not beat the last hit does not beat it either. -/
theorem Query.score_le_theta (hslack : 1 ≤ q.slack) {score bounds t : α} (hpos : 0 < score) (hle : score ≤ bounds)
    (ht : bounds * q.slack ≤ t) : score ≤ t := by
  have hnonneg : 0 ≤ bounds := le_trans (le_of_lt hpos) hle
  have hgrow : bounds * 1 ≤ bounds * q.slack := mul_le_mul_of_nonneg_left hslack hnonneg
  rw [mul_one] at hgrow
  exact le_trans hle (le_trans hgrow ht)

/-- Evaluating a document decides whether it is in the top. -/
theorem Query.Inv.evaluate (h : q.Inv terms done s) (hterms : TermsOk terms)
    (hdoc : ∀ id, hasTerm terms id = true → q.keep id = true → ∃ o, q.docLen id = .ok o) {id : Ulid} (hid : done ≤ id.val)
    (hterm : hasTerm terms id = true) (hmin : ∀ c ∈ s.cursors, c.exhausted = false → id.val ≤ c.curId)
    (htop : Top q.k (q.Ranks terms id.val) s.hits) :
    ∃ s', q.evaluate id s = .ok s' ∧ Cursors terms done s'.cursors ∧
      List.Forall₂ (fun c c' : BmwCursor α => c'.exhausted = c.exhausted ∧ c'.curId = c.curId) s.cursors s'.cursors ∧
      Top q.k (q.Ranks terms (id.val + 1)) s'.hits := by
  have hsame : List.Forall₂ (fun c c' : BmwCursor α => c'.exhausted = c.exhausted ∧ c'.curId = c.curId)
      s.cursors s.cursors := List.forall₂_same.mpr fun _ _ => ⟨rfl, rfl⟩
  -- a document that does not match changes nothing
  have hno : (∀ hit, Matches terms q.avgdl q.keep q.docLen hit → hit.recordId ≠ id) →
      Top q.k (q.Ranks terms (id.val + 1)) s.hits := by
    intro hnot
    refine htop.congr ?_
    intro hit
    constructor
    · intro hr
      exact ⟨hr.1, Nat.lt_succ_of_lt hr.2⟩
    · intro hr
      have hne := hnot hit hr.1
      have hlt := hr.2
      refine ⟨hr.1, ?_⟩
      have : hit.recordId.val ≠ id.val := fun heq => hne (Fin.ext heq)
      omega
  unfold Query.evaluate
  by_cases hkeep : q.keep id = true
  · rw [if_pos hkeep]
    rcases hdoc id hterm hkeep with ⟨o, ho⟩
    rw [ho, ok_bind]
    cases o with
    | none =>
        refine ⟨s, rfl, h.cursors, hsame, hno ?_⟩
        intro hit hm heq
        rcases hm with ⟨_, _, dl, hdl, _⟩
        rw [heq, ho] at hdl
        cases hdl
    | some dl =>
        rcases h.cursors.scoreAt hid hmin q.avgdl dl 0 with ⟨cursors', hrun, hcursors, hsame'⟩
        have hpos : 0 < exactScore terms q.avgdl id dl := exactScore_pos hterms q.avgdl hterm dl
        rw [← exactScore_eq] at hrun
        dsimp only
        rw [hrun, ok_bind]
        dsimp only
        rw [if_pos hpos]
        refine ⟨_, rfl, hcursors, hsame', ?_⟩
        have hhit : Matches terms q.avgdl q.keep q.docLen ⟨id, exactScore terms q.avgdl id dl⟩ :=
          ⟨hkeep, hterm, dl, ho, rfl⟩
        have hnew : ¬ q.Ranks terms id.val ⟨id, exactScore terms q.avgdl id dl⟩ := by
          intro hr
          exact lt_irrefl _ hr.2
        dsimp only
        rw [insertHit_eq]
        refine (htop.insert hnew).congr ?_
        intro hit
        constructor
        · rintro (hr | rfl)
          · exact ⟨hr.1, Nat.lt_succ_of_lt hr.2⟩
          · exact ⟨hhit, Nat.lt_succ_self _⟩
        · intro hr
          by_cases heq : hit.recordId = id
          · exact Or.inr (hr.1.score_unique hhit heq)
          · have hlt := hr.2
            have : hit.recordId.val ≠ id.val := fun he => heq (Fin.ext he)
            exact Or.inl ⟨hr.1, by omega⟩
  · rw [if_neg hkeep]
    refine ⟨s, rfl, h.cursors, hsame, hno ?_⟩
    intro hit hm heq
    rw [← heq] at hkeep
    exact hkeep hm.1

/-- Documents before the pivot cannot beat the last hit: the terms that may hold one do not reach it. -/
theorem Query.Inv.below_pivot (h : q.Inv terms done s) (hterms : TermsOk terms) (hslack : 1 ≤ q.slack) {p : Nat}
    (hpivot : p = 0 ∨ ∃ t, q.theta s.hits = some t ∧
      (0 + (((inOrder s.cursors).take p).map fun c => c.1.termUb).sum) * q.slack ≤ t) {hit : Hit α}
    (hm : Matches terms q.avgdl q.keep q.docLen hit) (hge : done ≤ hit.recordId.val)
    (hback : ∀ x ∈ (inOrder s.cursors).drop p, hit.recordId.val < x.1.curId) :
    ∃ t, q.theta s.hits = some t ∧ hit.score ≤ t := by
  rcases hm with ⟨_, hterm, dl, _, hscore⟩
  have hpos := exactScore_pos hterms q.avgdl hterm dl
  have hle := h.score_le_front hterms hge hback dl
  rw [hscore]
  rcases hpivot with rfl | ⟨t, ht, hsum⟩
  · -- no term that is left holds it
    rw [List.take_zero, List.map_nil, List.sum_nil] at hle
    exact absurd hpos (not_lt.mpr hle)
  · rw [zero_add] at hsum
    exact ⟨t, ht, Query.score_le_theta hslack hpos hle hsum⟩

/-- When the bounds of all the terms do not beat the last hit, the top is found. -/
theorem Query.Inv.ended (h : q.Inv terms done s) (hk : 0 < q.k) (hterms : TermsOk terms) (hslack : 1 ≤ q.slack)
    (hpivot : pivot q.slack (q.theta s.hits) 0 (inOrder s.cursors) = none) :
    Top q.k (Matches terms q.avgdl q.keep q.docLen) s.hits := by
  have hall : Top q.k (q.Ranks terms (2 ^ 128)) s.hits := by
    refine Query.pass h.top hk h.le ?_
    intro hit hm hge _
    refine h.below_pivot hterms hslack (p := (inOrder s.cursors).length) ?_ hm hge ?_
    · rw [List.take_length]
      rcases pivot_none hpivot with hnil | hsum
      · left
        rw [hnil]
        rfl
      · exact Or.inr hsum
    · intro x hx
      rw [List.drop_length] at hx
      cases hx
  refine hall.congr ?_
  intro hit
  constructor
  · exact fun hr => hr.1
  · exact fun hm => ⟨hm, hit.recordId.isLt⟩

/-- Passing over the documents up to a target behind the pivot, when the covering blocks do not beat the
last hit. -/
theorem Query.Inv.skipTo (h : q.Inv terms done s) (hk : 0 < q.k) (hterms : TermsOk terms) (hslack : 1 ≤ q.slack)
    {pivotId m target : Nat} {t : α} (hdone : done ≤ pivotId) (hpast : pivotId < target) (hle : target ≤ 2 ^ 128)
    (hbelow : ∀ hit, Matches terms q.avgdl q.keep q.docLen hit → done ≤ hit.recordId.val → hit.recordId.val < pivotId →
      ∃ t, q.theta s.hits = some t ∧ hit.score ≤ t)
    (hfront : ∀ x ∈ (inOrder s.cursors).take m, x.1.curId ≤ pivotId)
    (hback : ∀ x ∈ (inOrder s.cursors).drop m, target ≤ x.1.curId)
    (hlast : ∀ block ∈ coveringBlocks ((inOrder s.cursors).take m) pivotId, target ≤ block.lastId + 1)
    (htheta : q.theta s.hits = some t)
    (hsum : ((coveringBlocks ((inOrder s.cursors).take m) pivotId).map BmwBlock.ub).sum * q.slack ≤ t)
    {f : BmwCursor α → Except Error (BmwCursor α)}
    (hf : ∀ c blocks rest, BmwCursor.At c blocks rest → ∃ c', f c = .ok c' ∧
      c'.At blocks (rest.dropWhile (before target)) ∧ BmwCursor.Moved c c') :
    ∃ cursors', forEach f ((inOrder s.cursors).take m) s.cursors = .ok cursors' ∧
      q.Inv terms target ⟨cursors', s.hits⟩ := by
  rcases h.cursors.advance (by omega : done ≤ target) (front_nodup s.cursors m) front_lt
    (fun i c hc hnot => back_of_not_front hback i c hc hnot) hf with ⟨cursors', hrun, hcursors⟩
  refine ⟨cursors', hrun, hle, hcursors, Query.pass h.top hk (by omega) ?_⟩
  intro hit hm hge hlt
  by_cases hpre : hit.recordId.val < pivotId
  · exact hbelow hit hm hge hpre
  · rcases hm with ⟨_, hterm, dl, _, hscore⟩
    have hpos := exactScore_pos hterms q.avgdl hterm dl
    have hbound := h.score_le_blocks hterms hdone (not_lt.mp hpre) hfront
      (fun x hx => lt_of_lt_of_le hlt (hback x hx))
      (by
        intro block hblock
        have := hlast block hblock
        omega) dl
    rw [hscore]
    exact ⟨t, htheta, Query.score_le_theta hslack hpos hbound hsum⟩

/-- Jumping past the covering blocks that do not beat the last hit. -/
theorem Query.Inv.skipBlocks (h : q.Inv terms done s) (hk : 0 < q.k) (hterms : TermsOk terms) (hslack : 1 ≤ q.slack)
    {pivotId m : Nat} {t : α} (hdone : done ≤ pivotId) (hpivot : pivotId < 2 ^ 128)
    (hbelow : ∀ hit, Matches terms q.avgdl q.keep q.docLen hit → done ≤ hit.recordId.val → hit.recordId.val < pivotId →
      ∃ t, q.theta s.hits = some t ∧ hit.score ≤ t)
    (hfront : ∀ x ∈ (inOrder s.cursors).take m, x.1.curId ≤ pivotId)
    (hback : ∀ x ∈ (inOrder s.cursors).drop m, pivotId < x.1.curId)
    (htheta : q.theta s.hits = some t)
    (hsum : ((coveringBlocks ((inOrder s.cursors).take m) pivotId).map BmwBlock.ub).sum * q.slack ≤ t) :
    ∃ cursors' target, Fts.skipBlocks ((inOrder s.cursors).take m) (inOrder s.cursors)[m]? pivotId s.cursors =
        .ok cursors' ∧ done < target ∧ q.Inv terms target ⟨cursors', s.hits⟩ := by
  have hcover : ∀ block ∈ coveringBlocks ((inOrder s.cursors).take m) pivotId, pivotId ≤ block.lastId := by
    intro block hblock
    rcases List.mem_filterMap.mp hblock with ⟨x, hx, hxblock⟩
    rcases mem_inOrder.mp (List.mem_of_mem_take hx) with ⟨hc, hlive⟩
    rcases h.cursors.getElem? hc with ⟨term, blocks, _, htracks⟩
    rw [htracks.stands.coveringBlock hlive (hfront x hx)] at hxblock
    rcases Option.map_eq_some_iff.mp hxblock with ⟨b, hb, rfl⟩
    have hle := List.find?_some hb
    rw [decide_eq_true_eq] at hle
    exact hle
  rcases foldl_min_le (coveringBlocks ((inOrder s.cursors).take m) pivotId) (2 ^ 128 - 1) with ⟨_, hall⟩
  have hmin : pivotId ≤ (coveringBlocks ((inOrder s.cursors).take m) pivotId).foldl
      (fun m block => min m block.lastId) (2 ^ 128 - 1) := le_foldl_min (by omega) hcover
  unfold Fts.skipBlocks
  dsimp only
  generalize (coveringBlocks ((inOrder s.cursors).take m) pivotId).foldl
    (fun m block => min m block.lastId) (2 ^ 128 - 1) = last at *
  -- the jump, once its target is known
  have hjump : ∀ target, pivotId < target → target ≤ 2 ^ 128 → target ≤ last + 1 →
      (∀ x ∈ (inOrder s.cursors).drop m, target ≤ x.1.curId) → ∀ f : BmwCursor α → Except Error (BmwCursor α),
      (∀ c blocks rest, BmwCursor.At c blocks rest → ∃ c', f c = .ok c' ∧
        c'.At blocks (rest.dropWhile (before target)) ∧ BmwCursor.Moved c c') →
      ∃ cursors' target, forEach f ((inOrder s.cursors).take m) s.cursors = .ok cursors' ∧ done < target ∧
        q.Inv terms target ⟨cursors', s.hits⟩ := by
    intro target hpast hle hlast hbackT f hf
    rcases h.skipTo hk hterms hslack hdone hpast hle hbelow hfront hbackT (by
      intro block hblock
      have := hall block hblock
      omega) htheta hsum hf with ⟨cursors', hrun, hinv⟩
    exact ⟨cursors', target, hrun, by omega, hinv⟩
  cases hafter : (inOrder s.cursors)[m]? with
  | none =>
      have hnil : (inOrder s.cursors).drop m = [] := List.drop_eq_nil_of_le (List.getElem?_eq_none_iff.mp hafter)
      have hnone : ∀ target, ∀ x ∈ (inOrder s.cursors).drop m, target ≤ x.1.curId := by
        intro target x hx
        rw [hnil] at hx
        cases hx
      by_cases hlt : last + 1 < 2 ^ 128
      · rw [show nextTarget last (none : Option (Placed α)) = some (last + 1) by simp only [nextTarget, hlt, if_true]]
        exact hjump (last + 1) (by omega) (by omega) (le_refl _) (hnone _) _
          (fun c blocks rest hat => hat.advanceTo (last + 1))
      · rw [show nextTarget last (none : Option (Placed α)) = none by simp only [nextTarget, hlt, if_false]]
        refine hjump (2 ^ 128) hpivot (le_refl _) (by omega) (hnone _) _ ?_
        intro c blocks rest hat
        have hdropped : rest.dropWhile (before (2 ^ 128)) = [] := by
          rw [List.dropWhile_eq_nil_iff]
          intro e _
          have := e.1.isLt
          simp only [before, decide_eq_true_eq]
          omega
        rw [hdropped]
        exact ⟨_, rfl, hat.exhaust, ⟨rfl, rfl, le_refl _⟩⟩
  | some y =>
      rcases List.getElem?_eq_some_iff.mp hafter with ⟨hmlt, hyget⟩
      have hdrop : (inOrder s.cursors).drop m = y :: (inOrder s.cursors).drop (m + 1) := by
        rw [List.drop_eq_getElem_cons hmlt, hyget]
      have hybehind : ∀ x ∈ (inOrder s.cursors).drop m, y.1.curId ≤ x.1.curId := by
        have hpair := (inOrder_curId s.cursors).sublist (List.drop_sublist m _)
        rw [hdrop] at hpair ⊢
        intro x hx
        rcases List.mem_cons.mp hx with rfl | hx
        · exact le_refl _
        · exact (List.pairwise_cons.mp hpair).1 x hx
      have hy : y ∈ (inOrder s.cursors).drop m := by
        rw [hdrop]
        exact List.mem_cons_self
      have hypast := hback y hy
      have hylt : y.1.curId < 2 ^ 128 := by
        rcases mem_inOrder.mp (List.mem_of_mem_drop hy) with ⟨hc, hlive⟩
        rcases h.cursors.getElem? hc with ⟨term, blocks, _, htracks⟩
        exact (htracks.le_curId hlive).2
      by_cases hlt : last + 1 < 2 ^ 128
      · rw [show nextTarget last (some y) = some (min (last + 1) y.1.curId) by simp only [nextTarget, hlt, if_true]]
        exact hjump (min (last + 1) y.1.curId) (by omega) (by omega) (min_le_left _ _)
          (fun x hx => le_trans (min_le_right _ _) (hybehind x hx)) _
          (fun c blocks rest hat => hat.advanceTo (min (last + 1) y.1.curId))
      · rw [show nextTarget last (some y) = some y.1.curId by simp only [nextTarget, hlt, if_false]]
        exact hjump y.1.curId hypast (by omega) (by omega) hybehind _
          (fun c blocks rest hat => hat.advanceTo y.1.curId)

/-- No live cursor is behind what is done. -/
theorem Query.Inv.done_le (h : q.Inv terms done s) {x : Placed α} (hx : x ∈ inOrder s.cursors) :
    done ≤ x.1.curId ∧ x.1.curId < 2 ^ 128 := by
  rcases mem_inOrder.mp hx with ⟨hc, hlive⟩
  rcases h.cursors.getElem? hc with ⟨_, _, _, htracks⟩
  exact htracks.le_curId hlive

/-- The cursors before the pivot move up to it. -/
theorem Query.Inv.advanceFront (h : q.Inv terms done s) (hk : 0 < q.k) {pivotId p : Nat} (hdone : done ≤ pivotId)
    (hpivot : pivotId < 2 ^ 128)
    (hbelow : ∀ hit, Matches terms q.avgdl q.keep q.docLen hit → done ≤ hit.recordId.val → hit.recordId.val < pivotId →
      ∃ t, q.theta s.hits = some t ∧ hit.score ≤ t)
    (hback : ∀ x ∈ (inOrder s.cursors).drop p, pivotId ≤ x.1.curId) :
    ∃ cursors', forEach (fun c => c.advanceTo pivotId) ((inOrder s.cursors).take p) s.cursors = .ok cursors' ∧
      q.Inv terms pivotId ⟨cursors', s.hits⟩ := by
  rcases h.cursors.advance hdone (front_nodup s.cursors p) front_lt
    (fun i c hc hnot => back_of_not_front hback i c hc hnot)
    (fun c' blocks rest hat => hat.advanceTo pivotId) with ⟨cursors', hrun, hcursors⟩
  exact ⟨cursors', hrun, le_of_lt hpivot, hcursors, Query.pass h.top hk hdone hbelow⟩

/-- The pivot is evaluated, and the cursors that stand on it move past it. -/
theorem Query.Inv.evaluatePivot (h : q.Inv terms done s) (hk : 0 < q.k) (hterms : TermsOk terms)
    (hdoc : ∀ id, hasTerm terms id = true → q.keep id = true → ∃ o, q.docLen id = .ok o) {pivotId m : Nat}
    (hdone : done ≤ pivotId) (hpivot : pivotId < 2 ^ 128) (hhas : hasTerm terms (Fin.ofNat (2 ^ 128) pivotId) = true)
    (hmin : ∀ x ∈ s.cursors, x.exhausted = false → pivotId ≤ x.curId)
    (hbelow : ∀ hit, Matches terms q.avgdl q.keep q.docLen hit → done ≤ hit.recordId.val → hit.recordId.val < pivotId →
      ∃ t, q.theta s.hits = some t ∧ hit.score ≤ t)
    (hback : ∀ x ∈ (inOrder s.cursors).drop m, pivotId < x.1.curId) :
    ∃ s' cursors', q.evaluate (Fin.ofNat (2 ^ 128) pivotId) s = .ok s' ∧
      forEach (fun c => c.advancePast pivotId) ((inOrder s.cursors).take m) s'.cursors = .ok cursors' ∧
      q.Inv terms (pivotId + 1) ⟨cursors', s'.hits⟩ := by
  have hid : (Fin.ofNat (2 ^ 128) pivotId).val = pivotId := Nat.mod_eq_of_lt hpivot
  have htop : Top q.k (q.Ranks terms pivotId) s.hits := Query.pass h.top hk hdone hbelow
  rcases h.evaluate hterms hdoc (by rw [hid]; exact hdone) hhas (by rw [hid]; exact hmin) (by rw [hid]; exact htop)
    with ⟨s', hrun, hcursors, hsame, htop'⟩
  rw [hid] at htop'
  have hlength : s'.cursors.length = s.cursors.length := hsame.length_eq.symm
  have hin : ∀ x ∈ (inOrder s.cursors).take m, x.2 < s'.cursors.length := by
    intro x hx
    rw [hlength]
    exact front_lt x hx
  -- the evaluation has moved no cursor, so the back is still behind the pivot
  have hout : ∀ (j : Nat) x, s'.cursors[j]? = some x → j ∉ ((inOrder s.cursors).take m).map Prod.snd →
      x.exhausted = true ∨ pivotId + 1 ≤ x.curId := by
    intro j x hx hnot
    have hj : j < s.cursors.length := by
      rw [← hlength]
      exact (List.getElem?_eq_some_iff.mp hx).1
    rcases List.getElem?_eq_some_iff.mp hx with ⟨hj', rfl⟩
    rcases (List.forall₂_iff_get.mp hsame).2 j hj hj' with ⟨hex, hcur⟩
    dsimp only [List.get_eq_getElem] at hex hcur
    rw [hex, hcur]
    exact back_of_not_front hback j _ (List.getElem?_eq_getElem hj) hnot
  rcases hcursors.advance (show done ≤ pivotId + 1 by omega) (front_nodup s.cursors m) hin hout
    (fun x blocks rest hat => hat.advancePast pivotId) with ⟨cursors', hrun', hcursors'⟩
  exact ⟨s', cursors', hrun, hrun', by omega, hcursors', htop'⟩

/-- A round ends the search with the top, or deals with more documents. -/
theorem Query.Inv.round (h : q.Inv terms done s) (hk : 0 < q.k) (hterms : TermsOk terms) (hslack : 1 ≤ q.slack)
    (hdoc : ∀ id, hasTerm terms id = true → q.keep id = true → ∃ o, q.docLen id = .ok o) :
    (q.round s = .ok none ∧ Top q.k (Matches terms q.avgdl q.keep q.docLen) s.hits) ∨
      ∃ s' done', q.round s = .ok (some s') ∧ done < done' ∧ q.Inv terms done' s' := by
  unfold Query.round
  dsimp only
  cases hpivot : pivot q.slack (q.theta s.hits) 0 (inOrder s.cursors) with
  | none => exact Or.inl ⟨rfl, h.ended hk hterms hslack hpivot⟩
  | some p =>
      right
      rcases pivot_some hpivot with ⟨hp, hsum⟩
      have hget : (inOrder s.cursors)[p]? = some (inOrder s.cursors)[p] := List.getElem?_eq_getElem hp
      dsimp only
      rw [hget]
      generalize (inOrder s.cursors)[p] = x at hget ⊢
      rcases x with ⟨c, i⟩
      have hcmem : (c, i) ∈ inOrder s.cursors := List.mem_of_getElem? hget
      -- the front are the cursors up to the pivot, and those that stand on it
      rcases pivot_front (inOrder_curId s.cursors) hget with ⟨m, hfrontOf, hm, hmem, hdropp, hfront, hback⟩
      dsimp only at hfrontOf hdropp hfront hback ⊢
      rw [hfrontOf]
      have hlen : ((inOrder s.cursors).take m).length = m := by
        rw [List.length_take]
        omega
      rw [hlen]
      rcases h.done_le hcmem with ⟨hdone, hlt⟩
      dsimp only at hdone hlt
      -- nothing before the pivot beats the last hit
      have hbelow : ∀ hit, Matches terms q.avgdl q.keep q.docLen hit → done ≤ hit.recordId.val →
          hit.recordId.val < c.curId → ∃ t, q.theta s.hits = some t ∧ hit.score ≤ t := by
        intro hit hm hge hpre
        exact h.below_pivot hterms hslack hsum hm hge fun x hx => lt_of_lt_of_le hpre (hdropp x hx)
      split
      · -- the covering blocks do not beat the last hit
        rename_i hskip
        rw [Option.any_eq_true] at hskip
        rcases hskip with ⟨t, ht, hle⟩
        rw [decide_eq_true_eq] at hle
        rcases h.skipBlocks hk hterms hslack hdone hlt hbelow hfront hback ht hle with
          ⟨cursors', target, hrun, hgt, hinv⟩
        rw [hrun, ok_bind]
        exact ⟨_, target, rfl, hgt, hinv⟩
      split
      · -- some cursor is still before the pivot
        rename_i hhead
        rw [Option.any_eq_true] at hhead
        rcases hhead with ⟨x, hx, hne⟩
        rw [decide_eq_true_eq] at hne
        have hle : x.1.curId ≤ c.curId := inOrder_head_le hx hcmem
        have hfirst := (h.done_le (List.mem_of_mem_head? hx)).1
        rcases h.advanceFront hk hdone hlt hbelow hdropp with ⟨cursors', hrun, hinv⟩
        rw [hrun, ok_bind]
        exact ⟨_, c.curId, rfl, by omega, hinv⟩
      · -- aligned: the document is evaluated
        rename_i hhead
        have hmin : ∀ x ∈ s.cursors, x.exhausted = false → c.curId ≤ x.curId := by
          intro x hx hxlive
          rcases List.mem_iff_getElem?.mp hx with ⟨j, hj⟩
          have hxmem : (x, j) ∈ inOrder s.cursors := mem_inOrder.mpr ⟨hj, hxlive⟩
          cases hfirst : (inOrder s.cursors).head? with
          | none =>
              rw [List.head?_eq_none_iff.mp hfirst] at hxmem
              cases hxmem
          | some y =>
              rw [hfirst, Option.any_some, decide_eq_true_eq, not_not] at hhead
              rw [← hhead]
              exact inOrder_head_le hfirst hxmem
        have hhas : hasTerm terms (Fin.ofNat (2 ^ 128) c.curId) = true := by
          rcases mem_inOrder.mp hcmem with ⟨hc, hlive⟩
          rcases h.cursors.getElem? hc with ⟨term, blocks, hterm, htracks⟩
          rcases htracks.posting hlive with ⟨r, hr, hrid, _⟩
          have hreq : r.1 = Fin.ofNat (2 ^ 128) c.curId := Fin.ext (hrid.trans (Nat.mod_eq_of_lt hlt).symm)
          refine List.any_eq_true.mpr ⟨term, List.mem_of_getElem? hterm, ?_⟩
          rw [← hreq, find_of_mem htracks.sorted.nodup_keys hr]
          rfl
        rcases h.evaluatePivot hk hterms hdoc hdone hlt hhas hmin hbelow hback with ⟨s', cursors', hrun, hrun', hinv⟩
        rw [hrun, ok_bind, hrun', ok_bind]
        exact ⟨_, c.curId + 1, rfl, by omega, hinv⟩

/-- The rounds end, in the top. -/
theorem Query.Inv.run (h : q.Inv terms done s) (hk : 0 < q.k) (hterms : TermsOk terms) (hslack : 1 ≤ q.slack)
    (hdoc : ∀ id, hasTerm terms id = true → q.keep id = true → ∃ o, q.docLen id = .ok o) {rounds : Nat}
    (hrounds : 2 ^ 128 - done < rounds) :
    ∃ hits, q.run rounds s = .ok (some hits) ∧ Top q.k (Matches terms q.avgdl q.keep q.docLen) hits := by
  induction rounds generalizing done s with
  | zero => omega
  | succ rounds ih =>
      unfold Query.run
      rcases h.round hk hterms hslack hdoc with ⟨hrun, htop⟩ | ⟨s', done', hrun, hgt, hinv⟩
      · rw [hrun]
        exact ⟨s.hits, rfl, htop⟩
      · have hle := hinv.le
        rw [hrun, ok_bind]
        exact ih hinv (by omega)

end Round

/-! ## The search on a built index -/

section Searches

variable {α : Type} [Field α] [LinearOrder α] {H : Xxh3} {U : Unicode} {src : PageSource} {root : Nat} {docs : Docs}

/-- The skip layout of the versions that have block bounds. -/
theorem skipEntry_forFormatVersion {version : Nat} (h : SKIP_BOUND_MIN_FORMAT_VERSION ≤ version) :
    (PostingsLayout.forFormatVersion version).skipEntryOf = some .v6 := by
  unfold PostingsLayout.forFormatVersion
  split
  · rfl
  · rfl

/-- One cursor is opened for each term that matches. -/
theorem openCursors_eq (hversion : SKIP_BOUND_MIN_FORMAT_VERSION ≤ src.formatVersion) (I : Idf α) {stats : FtsMeta}
    (qs : List Bytes) {terms : List (α × List Posting)} (h : matchTerms H I src stats qs = .ok terms) :
    ∃ cursors, openCursors H I src stats qs = .ok cursors ∧ Cursors terms 0 cursors := by
  have hskip := skipEntry_forFormatVersion hversion
  induction qs generalizing terms with
  | nil =>
      cases h
      exact ⟨[], rfl, List.Forall₂.nil⟩
  | cons term qs ih =>
      unfold matchTerms at h
      unfold openCursors
      rcases bind_eq_ok.mp h with ⟨postings, hpostings, h⟩
      rcases bind_eq_ok.mp h with ⟨found, hfound, h⟩
      rcases ih hfound with ⟨cursors, hopen, hcursors⟩
      -- the two readers look the term up and count its postings alike
      unfold postingsFor at hpostings
      rcases bind_eq_ok.mp hpostings with ⟨value, hvalue, hpostings⟩
      rw [hvalue, ok_bind]
      cases value with
      | none =>
          cases hpostings
          cases h
          exact ⟨cursors, hopen, hcursors⟩
      | some value =>
          rcases value with ⟨body, pageNo⟩
          rcases bind_eq_ok.mp hpostings with ⟨entries, hdecode, hpostings⟩
          cases hpostings
          dsimp only at h ⊢
          rw [decode_count hskip hdecode, ok_bind]
          by_cases hempty : entries.length = 0
          · rw [if_pos hempty] at h ⊢
            cases h
            exact ⟨cursors, hopen, hcursors⟩
          · rw [if_neg hempty] at h ⊢
            cases h
            -- a cursor opened on a term with postings stands on all of them
            rcases openCursor_eq (I.weight stats.docCount entries.length) hskip hdecode with
              ⟨hnil, _⟩ | ⟨c, blocks, hc, hlist, hat, _, hidf, hub⟩
            · rw [hnil] at hempty
              exact absurd rfl hempty
            · rw [hc, ok_bind, hopen, ok_bind]
              refine ⟨c :: cursors, rfl, List.Forall₂.cons ⟨blocks, hidf, hlist, ?_, ?_⟩ hcursors⟩
              · have hall : entries.dropWhile (before 0) = entries := by
                  cases entries with
                  | nil => rfl
                  | cons p l => exact dropWhile_eq_self (Nat.zero_le _)
                dsimp only
                rw [hall]
                exact hat
              · rw [hidf]
                exact hub

variable [IsStrictOrderedRing α]

theorem one_le_boundSlack (terms : Nat) : 1 ≤ (boundSlack terms : α) := by
  unfold boundSlack
  have hnonneg : (0 : α) ≤ (terms : α) * (12 / 10 ^ 8) := by positivity
  linarith

/-- The rounds over the cursors of the matched terms. -/
theorem bmw_top (hversion : SKIP_BOUND_MIN_FORMAT_VERSION ≤ src.formatVersion) {I : Idf α} {stats : FtsMeta}
    {qs : List Bytes} {terms : List (α × List Posting)} (hm : matchTerms H I src stats qs = .ok terms)
    (hterms : TermsOk terms) {k : Nat} (hk : 0 < k) {keep : Ulid → Bool} {docLen : Ulid → Except Error (Option Nat)}
    (hdoc : ∀ id, hasTerm terms id = true → keep id = true → ∃ o, docLen id = .ok o) {rounds : Nat}
    (hrounds : 2 ^ 128 < rounds) :
    ∃ cursors hits, openCursors H I src stats qs = .ok cursors ∧
      Query.run ⟨k, avgdl stats, boundSlack cursors.length, keep, docLen⟩ rounds ⟨cursors, []⟩ = .ok (some hits) ∧
      Top k (Matches terms (avgdl stats) keep docLen) hits := by
  rcases openCursors_eq hversion I qs hm with ⟨cursors, hopen, hcursors⟩
  have hinv : Query.Inv (⟨k, avgdl stats, boundSlack cursors.length, keep, docLen⟩ : Query α) terms 0 ⟨cursors, []⟩ := by
    refine ⟨Nat.zero_le _, hcursors, top_nil.congr ?_⟩
    intro hit
    constructor
    · exact False.elim
    · intro hr
      exact absurd hr.2 (Nat.not_lt_zero _)
  rcases hinv.run hk hterms (one_le_boundSlack _) hdoc (by omega) with ⟨hits, hrun, htop⟩
  exact ⟨cursors, hits, hopen, hrun, htop⟩

/-- The block-skipping search returns what the exhaustive scan returns, on every reader of an index
of format version 6 or later that was built by indexing documents of distinct ids. -/
theorem bmw_eq_exhaustive (h : Sees H U src root docs) (hversion : SKIP_BOUND_MIN_FORMAT_VERSION ≤ src.formatVersion)
    (I : Idf α) (query : String) (k : Nat) (keep : Ulid → KeepOutcome) (docLen : Ulid → Except Error (Option Nat))
    (rounds : Nat) (hrounds : 2 ^ 128 < rounds) :
    (∀ hits, searchProfiled H U I src root query k keep docLen = .ok hits →
      searchBmwCounted H U I src rounds root query k (fun id => decide (keep id = .accepted)) docLen = .ok (some hits)) ∧
    ((∀ id, ∃ o, docLen id = .ok o) → (∀ d ∈ docs, (tokenize U d.2).length < 2 ^ 32) →
      ∃ hits, searchProfiled H U I src root query k keep docLen = .ok hits) := by
  rcases h.index with ⟨stats, ix, own, hat, ho, hcontent⟩
  have hload := hat.loadMeta ho
  have hread : ∀ term entries, postingsFor H src stats.dictRoot term = .ok (some entries) →
      Sorted entries ∧ (∀ p ∈ entries, 0 < p.2) ∧ entries.length ≤ stats.docCount :=
    fun term entries hp => posting_ok hat ho hcontent hp
  -- a search that looks at no posting
  have hnothing : (∀ hits, (.ok [] : Except Error (List (Hit α))) = .ok hits →
        (.ok (some []) : Except Error (Option (List (Hit α)))) = .ok (some hits)) ∧
      ((∀ id, ∃ o, docLen id = .ok o) → (∀ d ∈ docs, (tokenize U d.2).length < 2 ^ 32) →
        ∃ hits, (.ok [] : Except Error (List (Hit α))) = .ok hits) := by
    refine ⟨?_, fun _ _ => ⟨[], rfl⟩⟩
    intro hits hh
    cases hh
    rfl
  unfold searchProfiled searchBmwCounted
  by_cases hk : k = 0
  · rw [if_pos hk, if_pos hk]
    exact hnothing
  rw [if_neg hk, if_neg hk, hload, ok_bind, ok_bind]
  by_cases hroot : root = 0
  · rw [if_pos hroot]
    exact hnothing
  rw [if_neg hroot]
  dsimp only
  by_cases hempty : stats.docCount = 0 ∨ stats.dictRoot = 0
  · rw [if_pos hempty, if_pos hempty]
    exact hnothing
  rw [if_neg hempty, if_neg hempty]
  by_cases hquery : (queryTerms U query).isEmpty = true
  · rw [if_pos hquery, if_pos hquery]
    exact hnothing
  rw [if_neg hquery, if_neg hquery]
  constructor
  · intro hits hh
    rcases bind_eq_ok.mp hh with ⟨scores, hscores, hh⟩
    cases hh
    rcases exhaustive_top (k := k) (fun terms hm => matchTerms_termsOk hread _ hm)
      (fun term entries hp => (hread term entries hp).1) hscores with ⟨terms, hm, hdoc, htop⟩
    rcases bmw_top hversion hm (matchTerms_termsOk hread _ hm) (Nat.pos_of_ne_zero hk) hdoc hrounds with
      ⟨cursors, hits, hopen, hrun, htop'⟩
    rw [hopen, ok_bind, htop.unique htop']
    cases cursors with
    | nil =>
        -- no term matches: the first round would end the search
        rcases Nat.exists_eq_succ_of_ne_zero (show rounds ≠ 0 by omega) with ⟨n, rfl⟩
        cases hrun
        rfl
    | cons c cursors => exact hrun
  · intro hdoc hlen
    rcases scoreTerms_isOk I keep hdoc (queryTerms U query) [] with ⟨terms, scores, _, hscores⟩ | ⟨e, hm, _⟩
    · rw [hscores]
      exact ⟨_, rfl⟩
    · rcases matchTerms_isOk (I := I) (fun term => postingsFor_isOk hat ho hcontent hlen term) (queryTerms U query) with
        ⟨terms, hm'⟩
      rw [hm] at hm'
      cases hm'

omit [IsStrictOrderedRing α] [LinearOrder α] [Field α]

/-- Two documents, committed at format version 8, and a query for the words of both. -/
theorem bmw_eq_exhaustive_two_documents :
    ∃ t, indexAll ⟨fun _ => 0, fun _ _ => 0⟩ .ascii
        [(7, String.ofList ['a', ' ', 'A']), (3, String.ofList ['a', ' ', 'b'])]
        (Txn.begin (Committed.fresh 8 512)) = .ok ((), t) ∧
      ∃ hits, searchProfiled ⟨fun _ => 0, fun _ _ => 0⟩ .ascii Idf.bm25
          (t.commit.source ⟨fun _ => 0, fun _ _ => 0⟩) t.commit.header.ftsRootPage
          (String.ofList ['b', ' ', 'a']) 1 (fun _ => .accepted) (fun _ => .ok (some 2)) = .ok hits ∧
        searchBmwCounted ⟨fun _ => 0, fun _ _ => 0⟩ .ascii Idf.bm25
          (t.commit.source ⟨fun _ => 0, fun _ _ => 0⟩) (2 ^ 128 + 1) t.commit.header.ftsRootPage
          (String.ofList ['b', ' ', 'a']) 1 (fun _ => true) (fun _ => .ok (some 2)) = .ok (some hits) := by
  have hinit : Run ⟨fun _ => 0, fun _ _ => 0⟩ .ascii (Committed.fresh 8 512) [] :=
    Run.init (Committed.wf_fresh _ (by decide) (by decide) (by decide)) rfl
  rcases hinit.of_isOk [(7, String.ofList ['a', ' ', 'A']), (3, String.ofList ['a', ' ', 'b'])] (by simp)
    (by decide +kernel) with ⟨t, hrun, hcommit⟩
  have hversion : ∀ t', indexAll ⟨fun _ => 0, fun _ _ => 0⟩ .ascii
      [(7, String.ofList ['a', ' ', 'A']), (3, String.ofList ['a', ' ', 'b'])]
      (Txn.begin (Committed.fresh 8 512)) = .ok ((), t') → t'.commit.header.formatVersion = 8 := by
    have hcheck : (match indexAll ⟨fun _ => 0, fun _ _ => 0⟩ .ascii
        [(7, String.ofList ['a', ' ', 'A']), (3, String.ofList ['a', ' ', 'b'])] (Txn.begin (Committed.fresh 8 512)) with
      | .ok (_, t') => decide (t'.commit.header.formatVersion = 8)
      | .error _ => true) = true := by decide +kernel
    intro t' ht'
    rw [ht'] at hcheck
    exact of_decide_eq_true hcheck
  have hsource : SKIP_BOUND_MIN_FORMAT_VERSION ≤ (t.commit.source ⟨fun _ => 0, fun _ _ => 0⟩).formatVersion := by
    show SKIP_BOUND_MIN_FORMAT_VERSION ≤ t.commit.header.formatVersion
    rw [hversion t hrun]
    decide
  rcases bmw_eq_exhaustive (Sees.committed hcommit) hsource Idf.bm25 (String.ofList ['b', ' ', 'a']) 1
    (fun _ => .accepted) (fun _ => .ok (some 2)) (2 ^ 128 + 1) (Nat.lt_succ_self _) with ⟨hsame, htotal⟩
  rcases htotal (fun _ => ⟨some 2, rfl⟩) (by
    intro d hd
    simp at hd
    rcases hd with rfl | rfl <;> decide +kernel) with ⟨hits, hhits⟩
  exact ⟨t, hrun, hits, hhits, hsame hits hhits⟩

end Searches

end Fts

end EmbedMind
