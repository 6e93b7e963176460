import EmbedMind.Recall
import EmbedMind.Lib.Sorting

/-!
# What fusion computes

`Tallied lists acc`: the accumulator holds exactly what the lists read so far say.
Reading one more id of the last list keeps it (`Tallied.hit`), so it holds after all
lists (`tallied_accumulate`). The entries stand in the order of appearance and the sort is
stable: the result is the ranking of `rrf`, unless two ranks of one list change places
when they are cut to 32 bits (`fuse_lists_eq_rrf_iff`).
-/

namespace EmbedMind

open Lib

/-! ## Scores and appearances, list by list -/

section Lists

variable {lists : List (List Ulid)} {l : List Ulid} {id x : Ulid}

/-- The rank in a list that has the id. -/
theorem rankOf_of_mem (h : id ∈ l) : rankOf id l = some (l.idxOf id) := if_pos h

/-- No rank in a list that does not have it. -/
theorem rankOf_of_not_mem (h : id ∉ l) : rankOf id l = none := if_neg h

theorem idxOf_concat_of_mem (h : id ∈ l) : (l ++ [x]).idxOf id = l.idxOf id := List.idxOf_append_of_mem h

/-- A new id at the end has the last rank. -/
theorem idxOf_concat_self (h : x ∉ l) : (l ++ [x]).idxOf x = l.length := by
  rw [List.idxOf_append_of_notMem h, List.idxOf_cons_self, Nat.add_zero]

/-- Another id behind a list changes nothing for those that are not it. -/
theorem rankOf_concat_of_ne (h : id ≠ x) : rankOf id (l ++ [x]) = rankOf id l := by
  by_cases hmem : id ∈ l
  · rw [rankOf_of_mem hmem, rankOf_of_mem (List.mem_append_left _ hmem), idxOf_concat_of_mem hmem]
  · rw [rankOf_of_not_mem hmem, rankOf_of_not_mem]
    intro hin
    rcases List.mem_append.mp hin with hin | hin
    · exact hmem hin
    · exact h (List.mem_singleton.mp hin)

/-- Appending keeps the rank of an id that was there. -/
theorem rankOf_concat_of_mem (h : id ∈ l) : rankOf id (l ++ [x]) = rankOf id l := by
  rw [rankOf_of_mem h, rankOf_of_mem (List.mem_append_left _ h), idxOf_concat_of_mem h]

/-- Appending gives a new id the last rank. -/
theorem rankOf_concat_self (h : x ∉ l) : rankOf x (l ++ [x]) = some l.length := by
  rw [rankOf_of_mem (List.mem_append_right _ List.mem_cons_self), idxOf_concat_self h]

/-- One more list adds one more share. -/
theorem rrfScore_concat (lists : List (List Ulid)) (l : List Ulid) (id : Ulid) :
    rrfScore (lists ++ [l]) id = rrfScore lists id + ((rankOf id l).map contribution).getD 0 := by
  simp [rrfScore]

/-- Some list contains the id. -/
def Seen (lists : List (List Ulid)) (id : Ulid) : Prop := ∃ l ∈ lists, id ∈ l

/-- What one more list shows. -/
theorem seen_concat : Seen (lists ++ [l]) id ↔ Seen lists id ∨ id ∈ l := by
  simp [Seen, or_and_right, exists_or]

/-- An id in no list has no score. -/
theorem rrfScore_of_not_seen (h : ¬ Seen lists id) : rrfScore lists id = 0 := by
  induction lists with
  | nil => rfl
  | cons l lists ih =>
      have hl : id ∉ l := fun hin => h ⟨l, List.mem_cons_self, hin⟩
      have hrest : ¬ Seen lists id := fun ⟨m, hm, hin⟩ => h ⟨m, List.mem_cons_of_mem _ hm, hin⟩
      have := ih hrest
      simp only [rrfScore, List.map_cons, List.sum_cons, rankOf_of_not_mem hl, Option.map_none, Option.getD_none,
        zero_add] at this ⊢
      exact this

/-- One more list does not change where an id was first seen. -/
theorem firstSeen_of_seen (h : Seen lists id) : firstSeen id (lists ++ [l]) = firstSeen id lists := by
  induction lists with
  | nil =>
      rcases h with ⟨m, hm, _⟩
      cases hm
  | cons m lists ih =>
      rw [List.cons_append]
      unfold firstSeen
      by_cases hm : id ∈ m
      · rw [if_pos hm, if_pos hm]
      · rw [if_neg hm, if_neg hm, ih]
        rcases h with ⟨m', hm', hin⟩
        rcases List.mem_cons.mp hm' with rfl | hm'
        · exact absurd hin hm
        · exact ⟨m', hm', hin⟩

/-- One more list may be where an id is first seen. -/
theorem firstSeen_of_not_seen (h : ¬ Seen lists id) (hl : id ∈ l) :
    firstSeen id (lists ++ [l]) = (lists.length, l.idxOf id) := by
  induction lists with
  | nil => simp [firstSeen, hl]
  | cons m lists ih =>
      have hm : id ∉ m := fun hin => h ⟨m, List.mem_cons_self, hin⟩
      have hrest : ¬ Seen lists id := fun ⟨m', hm', hin⟩ => h ⟨m', List.mem_cons_of_mem _ hm', hin⟩
      rw [List.cons_append]
      unfold firstSeen
      rw [if_neg hm, ih hrest]
      rfl

/-- An id is first seen in one of the lists. -/
theorem firstSeen_lt (h : Seen lists id) : (firstSeen id lists).1 < lists.length := by
  induction lists with
  | nil =>
      rcases h with ⟨m, hm, _⟩
      cases hm
  | cons m lists ih =>
      unfold firstSeen
      by_cases hm : id ∈ m
      · rw [if_pos hm]
        exact Nat.succ_pos _
      · rw [if_neg hm, List.length_cons]
        refine Nat.succ_lt_succ (ih ?_)
        rcases h with ⟨m', hm', hin⟩
        rcases List.mem_cons.mp hm' with rfl | hm'
        · exact absurd hin hm
        · exact ⟨m', hm', hin⟩

/-- What is known of an id does not change when the last list grows by another id, or by
one it has already. -/
theorem grown_same (h : id ≠ x ∨ id ∈ l) :
    rrfScore (lists ++ [l ++ [x]]) id = rrfScore (lists ++ [l]) id ∧
      (Seen (lists ++ [l ++ [x]]) id ↔ Seen (lists ++ [l]) id) ∧
      (Seen (lists ++ [l]) id → firstSeen id (lists ++ [l ++ [x]]) = firstSeen id (lists ++ [l])) := by
  have hrank : rankOf id (l ++ [x]) = rankOf id l := by
    rcases h with h | h
    · exact rankOf_concat_of_ne h
    · exact rankOf_concat_of_mem h
  have hmem : id ∈ l ++ [x] ↔ id ∈ l := by
    rw [List.mem_append, List.mem_singleton]
    constructor
    · rintro (hin | rfl)
      · exact hin
      · exact h.resolve_left (fun hne => hne rfl)
    · exact Or.inl
  refine ⟨by rw [rrfScore_concat, rrfScore_concat, hrank], by rw [seen_concat, seen_concat, hmem], ?_⟩
  intro hseen
  by_cases hold : Seen lists id
  · rw [firstSeen_of_seen hold, firstSeen_of_seen hold]
  · have hl : id ∈ l := (seen_concat.mp hseen).resolve_left hold
    rw [firstSeen_of_not_seen hold hl, firstSeen_of_not_seen hold (hmem.mpr hl), idxOf_concat_of_mem hl]

end Lists

/-! ## One id -/

section Entries

variable {acc : List FuseEntry} {list rank : Nat} {id : Ulid}

/-- The entry of an id that the list has contributed to. -/
def FuseEntry.credit (list rank : Nat) (e : FuseEntry) : FuseEntry :=
  if e.counted &&& (1 <<< list) = 0 then
    { e with score := e.score + contribution rank, counted := e.counted ||| (1 <<< list) }
  else e

/-- An id that is not in the table gets an entry. -/
theorem addRanked_new (h : ∀ e ∈ acc, e.id ≠ id) :
    addRanked list rank id acc = acc ++ [⟨id, contribution rank, (list, rank % 2 ^ 32), 1 <<< list⟩] := by
  induction acc with
  | nil => rfl
  | cons e acc ih =>
      unfold addRanked
      rw [if_neg (h e List.mem_cons_self), ih fun e he => h e (List.mem_cons_of_mem _ he)]
      rfl

/-- An id that is in the table is credited. -/
theorem addRanked_old (hnd : (acc.map FuseEntry.id).Nodup) (h : ∃ e ∈ acc, e.id = id) :
    addRanked list rank id acc = acc.map fun e => if e.id = id then e.credit list rank else e := by
  induction acc with
  | nil =>
      rcases h with ⟨e, he, _⟩
      cases he
  | cons e acc ih =>
      rw [List.map_cons, List.nodup_cons] at hnd
      unfold addRanked
      rw [List.map_cons]
      by_cases hid : e.id = id
      · rw [if_pos hid, if_pos hid]
        congr 1
        refine (List.map_id acc).symm.trans (List.map_congr_left ?_)
        intro e' he'
        rw [if_neg]
        · rfl
        · intro hid'
          exact hnd.1 (hid ▸ hid' ▸ List.mem_map_of_mem he')
      · rw [if_neg hid, if_neg hid]
        congr 1
        refine ih hnd.2 ?_
        rcases h with ⟨e', he', heq⟩
        rcases List.mem_cons.mp he' with rfl | he'
        · exact absurd heq hid
        · exact ⟨e', he', heq⟩

/-- Testing the bit of a list. -/
theorem and_bit_eq_zero {m n : Nat} : m &&& (1 <<< n) = 0 ↔ m.testBit n = false := by
  rw [Nat.one_shiftLeft]
  constructor
  · intro h
    have hbit := congrArg (fun k => k.testBit n) h
    simpa [Nat.testBit_and, Nat.testBit_two_pow] using hbit
  · intro h
    refine Nat.eq_of_testBit_eq fun i => ?_
    rw [Nat.testBit_and, Nat.testBit_two_pow, Nat.zero_testBit]
    by_cases hi : n = i
    · rw [← hi, h, Bool.false_and]
    · rw [decide_eq_false hi, Bool.and_false]

/-- The bits of one list. -/
theorem testBit_bit {n i : Nat} : (1 <<< n).testBit i = true ↔ i = n := by
  rw [Nat.one_shiftLeft, Nat.testBit_two_pow, decide_eq_true_iff]
  exact eq_comm

theorem credit_id {e : FuseEntry} : (e.credit list rank).id = e.id := by
  unfold FuseEntry.credit
  split <;> rfl

end Entries

/-! ## The accumulator -/

/-- What an entry says of its id. -/
structure FuseEntry.Tells (lists : List (List Ulid)) (e : FuseEntry) : Prop where
  score : e.score = rrfScore lists e.id
  tiebreak : e.tiebreak = ((firstSeen e.id lists).1, (firstSeen e.id lists).2 % 2 ^ 32)
  counted : ∀ i, e.counted.testBit i = true ↔ ∃ l, lists[i]? = some l ∧ e.id ∈ l

/-- The accumulator holds what the lists say, in the order of appearance. -/
structure Tallied (lists : List (List Ulid)) (acc : List FuseEntry) : Prop where
  seen : ∀ id, (∃ e ∈ acc, e.id = id) ↔ Seen lists id
  tells : ∀ e ∈ acc, e.Tells lists
  order : acc.Pairwise fun a b => Earlier (firstSeen a.id lists) (firstSeen b.id lists)

/-- No position is earlier than itself. -/
theorem earlier_irrefl (a : Nat × Nat) : ¬ Earlier a a := by
  unfold Earlier
  omega

section Tally

variable {lists : List (List Ulid)} {l : List Ulid} {acc : List FuseEntry} {x : Ulid}

/-- The table has one entry for each id. -/
theorem Tallied.nodup (h : Tallied lists acc) : (acc.map FuseEntry.id).Nodup := by
  refine List.pairwise_map.mpr (h.order.imp ?_)
  intro a b hab heq
  rw [heq] at hab
  exact earlier_irrefl _ hab

/-- The members of the lists with one more at the end. -/
theorem getElem?_concat_mem {i : Nat} {id : Ulid} :
    (∃ m, (lists ++ [l])[i]? = some m ∧ id ∈ m) ↔ (∃ m, lists[i]? = some m ∧ id ∈ m) ∨ (i = lists.length ∧ id ∈ l) := by
  rcases Nat.lt_trichotomy i lists.length with hi | rfl | hi
  · rw [List.getElem?_append_left hi]
    constructor
    · exact Or.inl
    · rintro (h | ⟨rfl, _⟩)
      · exact h
      · exact absurd hi (Nat.lt_irrefl _)
  · simp
  · have h1 : (lists ++ [l])[i]? = none := List.getElem?_eq_none (by rw [List.length_append, List.length_singleton]; omega)
    have h2 : lists[i]? = none := List.getElem?_eq_none hi.le
    rw [h1, h2]
    constructor
    · rintro ⟨m, hm, _⟩
      cases hm
    · rintro (⟨m, hm, _⟩ | ⟨rfl, _⟩)
      · cases hm
      · exact absurd hi (Nat.lt_irrefl _)

/-- A list without ids says nothing. -/
theorem Tallied.list (h : Tallied lists acc) : Tallied (lists ++ [[]]) acc := by
  have hseen : ∀ id, Seen (lists ++ [[]]) id ↔ Seen lists id := by
    intro id
    rw [seen_concat]
    simp
  have hfirst : ∀ e ∈ acc, firstSeen e.id (lists ++ [[]]) = firstSeen e.id lists :=
    fun e he => firstSeen_of_seen ((h.seen e.id).mp ⟨e, he, rfl⟩)
  refine ⟨fun id => (h.seen id).trans (hseen id).symm, ?_, ?_⟩
  · intro e he
    rcases h.tells e he with ⟨hscore, htie, hcount⟩
    refine ⟨?_, by rw [htie, hfirst e he], ?_⟩
    · rw [hscore, rrfScore_concat, rankOf_of_not_mem List.not_mem_nil, Option.map_none, Option.getD_none, add_zero]
    · intro i
      rw [hcount i, getElem?_concat_mem]
      simp
  · refine h.order.imp_of_mem ?_
    intro a b ha hb hab
    rw [hfirst a ha, hfirst b hb]
    exact hab

/-- An entry says the same when the last list grows by an id that is not its own, or that
the list has already. -/
theorem FuseEntry.Tells.grow {e : FuseEntry} (h : e.Tells (lists ++ [l])) (hseen : Seen (lists ++ [l]) e.id)
    (hother : e.id ≠ x ∨ e.id ∈ l) : e.Tells (lists ++ [l ++ [x]]) := by
  have hsame : rrfScore (lists ++ [l ++ [x]]) e.id = rrfScore (lists ++ [l]) e.id ∧ _ := grown_same hother
  rcases hsame with ⟨hscore, _, hfirst⟩
  refine ⟨by rw [h.score, hscore], by rw [h.tiebreak, hfirst hseen], ?_⟩
  intro i
  rw [h.counted i, getElem?_concat_mem, getElem?_concat_mem, List.mem_append, List.mem_singleton]
  constructor
  · rintro (hin | ⟨hi, hin⟩)
    · exact Or.inl hin
    · exact Or.inr ⟨hi, Or.inl hin⟩
  · rintro (hin | ⟨hi, hin | heq⟩)
    · exact Or.inl hin
    · exact Or.inr ⟨hi, hin⟩
    · exact Or.inr ⟨hi, hother.resolve_left fun hne => hne heq⟩

/-- Growing the last list does not change where an id was first seen. -/
theorem firstSeen_grow {id : Ulid} (hseen : Seen (lists ++ [l]) id) :
    firstSeen id (lists ++ [l ++ [x]]) = firstSeen id (lists ++ [l]) := by
  by_cases hold : Seen lists id
  · rw [firstSeen_of_seen hold, firstSeen_of_seen hold]
  · have hl : id ∈ l := (seen_concat.mp hseen).resolve_left hold
    rw [firstSeen_of_not_seen hold hl, firstSeen_of_not_seen hold (List.mem_append_left _ hl), idxOf_concat_of_mem hl]

/-- Growing the last list shows one more id. -/
theorem seen_grow {id : Ulid} : Seen (lists ++ [l ++ [x]]) id ↔ Seen (lists ++ [l]) id ∨ id = x := by
  rw [seen_concat, seen_concat, List.mem_append, List.mem_singleton, or_assoc]

/-- The entry of an id that the last list has not had yet. -/
theorem FuseEntry.Tells.credit {e : FuseEntry} (h : e.Tells (lists ++ [l])) (hseen : Seen (lists ++ [l]) e.id)
    (hx : e.id = x) (hnew : x ∉ l) : (e.credit lists.length l.length).Tells (lists ++ [l ++ [x]]) := by
  have hbit : e.counted.testBit lists.length = false := by
    rw [Bool.eq_false_iff]
    intro hset
    rcases (h.counted _).mp hset with ⟨m, hm, hin⟩
    rw [List.getElem?_concat_length] at hm
    cases hm
    exact hnew (hx ▸ hin)
  have hcredit : e.credit lists.length l.length =
      { e with score := e.score + contribution l.length, counted := e.counted ||| (1 <<< lists.length) } := by
    unfold FuseEntry.credit
    rw [if_pos (and_bit_eq_zero.mpr hbit)]
  rw [hcredit]
  refine ⟨?_, ?_, ?_⟩
  · show e.score + contribution l.length = rrfScore (lists ++ [l ++ [x]]) e.id
    rw [h.score, rrfScore_concat, rrfScore_concat, hx, rankOf_of_not_mem hnew, rankOf_concat_self hnew]
    simp
  · show e.tiebreak = _
    rw [h.tiebreak, firstSeen_grow hseen]
  · intro i
    show (e.counted ||| (1 <<< lists.length)).testBit i = true ↔ _
    rw [Nat.testBit_or, Bool.or_eq_true, h.counted i, testBit_bit, getElem?_concat_mem, getElem?_concat_mem, hx]
    constructor
    · rintro ((hin | ⟨_, hin⟩) | hi)
      · exact Or.inl hin
      · exact absurd hin hnew
      · exact Or.inr ⟨hi, List.mem_append_right _ List.mem_cons_self⟩
    · rintro (hin | ⟨hi, _⟩)
      · exact Or.inl (Or.inl hin)
      · exact Or.inr hi

/-- The entry of an id that no list has had yet. -/
theorem tells_new (hnew : ¬ Seen (lists ++ [l]) x) :
    FuseEntry.Tells (lists ++ [l ++ [x]])
      ⟨x, contribution l.length, (lists.length, l.length % 2 ^ 32), 1 <<< lists.length⟩ := by
  have hlists : ¬ Seen lists x := fun h => hnew (seen_concat.mpr (Or.inl h))
  have hl : x ∉ l := fun h => hnew (seen_concat.mpr (Or.inr h))
  refine ⟨?_, ?_, ?_⟩
  · show contribution l.length = rrfScore (lists ++ [l ++ [x]]) x
    rw [rrfScore_concat, rrfScore_of_not_seen hlists, rankOf_concat_self hl]
    simp
  · show (lists.length, l.length % 2 ^ 32) = _
    rw [firstSeen_of_not_seen hlists (List.mem_append_right _ List.mem_cons_self), idxOf_concat_self hl]
  · intro i
    show (1 <<< lists.length).testBit i = true ↔ _
    rw [testBit_bit, getElem?_concat_mem]
    constructor
    · intro hi
      exact Or.inr ⟨hi, List.mem_append_right _ List.mem_cons_self⟩
    · rintro (⟨m, hm, hin⟩ | ⟨hi, _⟩)
      · exact absurd ⟨m, List.mem_of_getElem? hm, hin⟩ hlists
      · exact hi

/-- Reading one more id of the last list. -/
theorem Tallied.hit (h : Tallied (lists ++ [l]) acc) (x : Ulid) :
    Tallied (lists ++ [l ++ [x]]) (addRanked lists.length l.length x acc) := by
  have hin : ∀ e ∈ acc, Seen (lists ++ [l]) e.id := fun e he => (h.seen e.id).mp ⟨e, he, rfl⟩
  by_cases hold : Seen (lists ++ [l]) x
  · -- the entry of the id is there
    rw [addRanked_old h.nodup ((h.seen x).mpr hold)]
    have hid : ∀ e : FuseEntry, (if e.id = x then e.credit lists.length l.length else e).id = e.id := by
      intro e
      split
      · exact credit_id
      · rfl
    refine ⟨?_, ?_, ?_⟩
    · intro id
      have hsame : Seen (lists ++ [l ++ [x]]) id ↔ Seen (lists ++ [l]) id := by
        rw [seen_grow]
        constructor
        · rintro (hs | rfl)
          · exact hs
          · exact hold
        · exact Or.inl
      rw [hsame, ← h.seen id]
      constructor
      · rintro ⟨e, he, heq⟩
        rcases List.mem_map.mp he with ⟨e, hmem, rfl⟩
        exact ⟨e, hmem, (hid e).symm.trans heq⟩
      · rintro ⟨e, he, heq⟩
        exact ⟨_, List.mem_map_of_mem he, (hid e).trans heq⟩
    · intro e' he'
      -- only the entry of the id may change, and only if this list has not counted it
      rcases List.mem_map.mp he' with ⟨e, he, rfl⟩
      split
      · rename_i hx
        by_cases hl : x ∈ l
        · -- the list has had the id: its bit is set
          have hbit : e.counted.testBit lists.length = true :=
            ((h.tells e he).counted _).mpr ⟨l, List.getElem?_concat_length, hx ▸ hl⟩
          unfold FuseEntry.credit
          rw [if_neg (by rw [and_bit_eq_zero, hbit]; decide)]
          exact (h.tells e he).grow (hin e he) (Or.inr (hx ▸ hl))
        · exact (h.tells e he).credit (hin e he) hx hl
      · rename_i hx
        exact (h.tells e he).grow (hin e he) (Or.inl hx)
    · refine List.pairwise_map.mpr (h.order.imp_of_mem ?_)
      intro a b ha hb hab
      rw [hid, hid, firstSeen_grow (hin a ha), firstSeen_grow (hin b hb)]
      exact hab
  · -- a new entry, behind all others
    have hne : ∀ e ∈ acc, e.id ≠ x := fun e he heq => hold (heq ▸ hin e he)
    rw [addRanked_new hne]
    refine ⟨?_, ?_, ?_⟩
    · intro id
      rw [seen_grow, ← h.seen id]
      simp only [List.mem_append, List.mem_singleton, or_and_right, exists_or, exists_eq_left]
      rw [eq_comm (a := x)]
    · intro e he
      rcases List.mem_append.mp he with he | he
      · exact (h.tells e he).grow (hin e he) (Or.inl (hne e he))
      · rw [List.mem_singleton.mp he]
        exact tells_new hold
    · refine List.pairwise_append.mpr ⟨?_, List.pairwise_singleton _ _, ?_⟩
      · refine h.order.imp_of_mem ?_
        intro a b ha hb hab
        rw [firstSeen_grow (hin a ha), firstSeen_grow (hin b hb)]
        exact hab
      · intro a ha b hb
        rw [List.mem_singleton.mp hb]
        have hlists : ¬ Seen lists x := fun hs => hold (seen_concat.mpr (Or.inl hs))
        have hl : x ∉ l := fun hs => hold (seen_concat.mpr (Or.inr hs))
        -- the id is seen for the first time at the end of the last list
        show Earlier _ (firstSeen x (lists ++ [l ++ [x]]))
        rw [firstSeen_of_not_seen hlists (List.mem_append_right _ List.mem_cons_self), idxOf_concat_self hl,
          firstSeen_grow (hin a ha)]
        by_cases hseen : Seen lists a.id
        · rw [firstSeen_of_seen hseen]
          exact Or.inl (firstSeen_lt hseen)
        · have hal : a.id ∈ l := (seen_concat.mp (hin a ha)).resolve_left hseen
          rw [firstSeen_of_not_seen hseen hal]
          exact Or.inr ⟨rfl, List.idxOf_lt_length_of_mem hal⟩

/-- The last id of a list is added last. -/
theorem addList_concat (acc : List FuseEntry) (n : Nat) (l : List Ulid) (x : Ulid) :
    addList acc n (l ++ [x]) = addRanked n l.length x (addList acc n l) := by
  simp [addList, List.zipIdx_append]

/-- Reading one more list. -/
theorem Tallied.addList (h : Tallied lists acc) (l : List Ulid) :
    Tallied (lists ++ [l]) (EmbedMind.addList acc lists.length l) := by
  induction l using List.reverseRecOn with
  | nil => exact h.list
  | append_singleton l x ih =>
      rw [addList_concat]
      exact ih.hit x

/-- After all lists. -/
theorem tallied_accumulate (lists : List (List Ulid)) : Tallied lists (accumulate lists) := by
  induction lists using List.reverseRecOn with
  | nil =>
      refine ⟨?_, ?_, List.Pairwise.nil⟩
      · intro id
        simp [Seen, accumulate]
      · intro e he
        cases he
  | append_singleton lists l ih =>
      have hlast : accumulate (lists ++ [l]) = EmbedMind.addList (accumulate lists) lists.length l := by
        simp [accumulate, List.zipIdx_append]
      rw [hlast]
      exact ih.addList l

end Tally

/-! ## The order of the result -/

section Order

variable {lists : List (List Ulid)}

/-- Earlier is transitive. -/
theorem earlier_trans {a b c : Nat × Nat} (h : Earlier a b) (h' : Earlier b c) : Earlier a c := by
  unfold Earlier at *
  omega

/-- No id outranks itself. -/
theorem outranks_irrefl (lists : List (List Ulid)) (a : Ulid) : ¬ Outranks lists a a := by
  rintro (h | ⟨_, h⟩)
  · exact lt_irrefl _ h
  · exact earlier_irrefl _ h

/-- Outranking is transitive. -/
theorem outranks_trans {a b c : Ulid} (h : Outranks lists a b) (h' : Outranks lists b c) : Outranks lists a c := by
  rcases h with h | ⟨h, he⟩
  · rcases h' with h' | ⟨h', _⟩
    · exact Or.inl (h'.trans h)
    · exact Or.inl (h' ▸ h)
  · rcases h' with h' | ⟨h', he'⟩
    · exact Or.inl (h ▸ h')
    · exact Or.inr ⟨h.trans h', earlier_trans he he'⟩

/-- Two ids do not outrank each other. -/
theorem outranks_asymm {a b : Ulid} (h : Outranks lists a b) : ¬ Outranks lists b a :=
  fun h' => outranks_irrefl lists a (outranks_trans h h')

/-- Where an id was first seen tells the id. -/
theorem firstSeen_inj {a b : Ulid} (ha : Seen lists a) (hb : Seen lists b)
    (h : firstSeen a lists = firstSeen b lists) : a = b := by
  induction lists with
  | nil =>
      rcases ha with ⟨m, hm, _⟩
      cases hm
  | cons l lists ih =>
      have hrest : ∀ {c : Ulid}, c ∉ l → Seen (l :: lists) c → Seen lists c := by
        rintro c hc ⟨m, hm, hin⟩
        rcases List.mem_cons.mp hm with rfl | hm
        · exact absurd hin hc
        · exact ⟨m, hm, hin⟩
      unfold firstSeen at h
      by_cases hal : a ∈ l
      · by_cases hbl : b ∈ l
        · rw [if_pos hal, if_pos hbl, Prod.mk.injEq] at h
          exact (List.idxOf_inj hal).mp h.2
        · rw [if_pos hal, if_neg hbl, Prod.mk.injEq] at h
          omega
      · by_cases hbl : b ∈ l
        · rw [if_neg hal, if_pos hbl, Prod.mk.injEq] at h
          omega
        · rw [if_neg hal, if_neg hbl, Prod.mk.injEq] at h
          exact ih (hrest hal ha) (hrest hbl hb) (Prod.ext (Nat.succ_inj.mp h.1) h.2)

/-- Of two ids one is seen earlier. -/
theorem earlier_total {a b : Ulid} (ha : Seen lists a) (hb : Seen lists b) (hne : a ≠ b) :
    Earlier (firstSeen a lists) (firstSeen b lists) ∨ Earlier (firstSeen b lists) (firstSeen a lists) := by
  have hdiff : firstSeen a lists ≠ firstSeen b lists := fun h => hne (firstSeen_inj ha hb h)
  unfold Earlier
  by_contra hno
  refine hdiff (Prod.ext ?_ ?_)
  · omega
  · omega

/-- Of two ids one outranks the other. -/
theorem outranks_total {a b : Ulid} (ha : Seen lists a) (hb : Seen lists b) (hne : a ≠ b) :
    Outranks lists a b ∨ Outranks lists b a := by
  rcases lt_trichotomy (rrfScore lists a) (rrfScore lists b) with h | h | h
  · exact Or.inr (Or.inl h)
  · rcases earlier_total ha hb hne with he | he
    · exact Or.inl (Or.inr ⟨h, he⟩)
    · exact Or.inr (Or.inr ⟨h.symm, he⟩)
  · exact Or.inl (Or.inl h)

/-- Insertion by `Outranks` into a list of other ids in its order. -/
theorem pairwise_outranks_sort {l : List Ulid} (hnd : l.Nodup) (hseen : ∀ id ∈ l, Seen lists id) :
    (l.insertionSort (Outranks lists)).Pairwise (Outranks lists) := by
  -- outranking is total and transitive only on ids seen in a list, so the insertion is done by hand
  have hinsert : ∀ {a : Ulid} {l : List Ulid}, l.Pairwise (Outranks lists) → a ∉ l → Seen lists a →
      (∀ id ∈ l, Seen lists id) → (l.orderedInsert (Outranks lists) a).Pairwise (Outranks lists) := by
    intro a l hl hnot ha hseen
    induction l with
    | nil => exact List.pairwise_singleton _ _
    | cons b l ih =>
        rcases List.pairwise_cons.mp hl with ⟨hb, hl⟩
        by_cases hab : Outranks lists a b
        · rw [List.orderedInsert_cons_of_le _ _ hab]
          refine List.pairwise_cons.mpr ⟨?_, List.pairwise_cons.mpr ⟨hb, hl⟩⟩
          intro c hc
          rcases List.mem_cons.mp hc with rfl | hc
          · exact hab
          · exact outranks_trans hab (hb c hc)
        · rw [List.orderedInsert_of_not_le _ _ hab]
          have hba : Outranks lists b a := by
            rcases outranks_total ha (hseen b List.mem_cons_self) (fun h => hnot (h ▸ List.mem_cons_self)) with h | h
            · exact absurd h hab
            · exact h
          refine List.pairwise_cons.mpr ⟨?_, ih hl (fun h => hnot (List.mem_cons_of_mem _ h))
            fun id hid => hseen id (List.mem_cons_of_mem _ hid)⟩
          intro c hc
          rcases List.mem_cons.mp ((List.perm_orderedInsert _ a l).mem_iff.mp hc) with rfl | hc
          · exact hba
          · exact hb c hc
  induction l with
  | nil => exact List.Pairwise.nil
  | cons a l ih =>
      rcases List.nodup_cons.mp hnd with ⟨hnot, hnd⟩
      rw [List.insertionSort_cons]
      refine hinsert (ih hnd fun id hid => hseen id (List.mem_cons_of_mem _ hid)) ?_ (hseen a List.mem_cons_self) ?_
      · exact fun h => hnot ((List.mem_insertionSort _).mp h)
      · exact fun id hid => hseen id (List.mem_cons_of_mem _ ((List.mem_insertionSort _).mp hid))

/-- The order of the table's entries. -/
theorem before_iff {a b : FuseEntry} : a.Before b ↔
    b.score < a.score ∨ (a.score = b.score ∧
      (a.tiebreak.1 < b.tiebreak.1 ∨ (a.tiebreak.1 = b.tiebreak.1 ∧ a.tiebreak.2 ≤ b.tiebreak.2))) := by
  unfold FuseEntry.Before FuseEntry.cmp
  rw [ne_eq, Ordering.then_eq_gt, Ordering.then_eq_gt, compare_gt_iff_gt, compare_eq_iff_eq, compare_gt_iff_gt,
    compare_eq_iff_eq, compare_gt_iff_gt]
  rcases lt_trichotomy a.score b.score with h | h | h
  · constructor
    · intro hn
      exact absurd (Or.inl h) hn
    · rintro (h' | ⟨h', _⟩)
      · exact absurd (h.trans h') (lt_irrefl _)
      · exact absurd h' h.ne
  · simp only [h, lt_irrefl, false_or, true_and]
    omega
  · constructor
    · exact fun _ => Or.inl h
    · rintro _ (h' | ⟨h', _⟩)
      · exact lt_irrefl _ (h.trans h')
      · exact absurd h' h.ne

instance : Std.Total FuseEntry.Before where
  total a b := by
    rw [before_iff, before_iff]
    rcases lt_trichotomy a.score b.score with h | h | h
    · exact Or.inr (Or.inl h)
    · simp only [h, lt_irrefl, false_or, true_and]
      omega
    · exact Or.inl (Or.inl h)

instance : IsTrans FuseEntry FuseEntry.Before where
  trans a b c hab hbc := by
    rw [before_iff] at hab hbc ⊢
    rcases hab with h | ⟨h, ht⟩
    · rcases hbc with h' | ⟨h', _⟩
      · exact Or.inl (h'.trans h)
      · exact Or.inl (h' ▸ h)
    · rcases hbc with h' | ⟨h', ht'⟩
      · exact Or.inl (h ▸ h')
      · refine Or.inr ⟨h.trans h', ?_⟩
        omega

/-- Cut to 32 bits, the ranks at which two ids of the same score were first seen in the
same list keep their order. -/
def KeepsOrder (lists : List (List Ulid)) : Prop :=
  ∀ a b, Seen lists a → Seen lists b → rrfScore lists a = rrfScore lists b →
    (firstSeen a lists).1 = (firstSeen b lists).1 → (firstSeen a lists).2 < (firstSeen b lists).2 →
    (firstSeen a lists).2 % 2 ^ 32 ≤ (firstSeen b lists).2 % 2 ^ 32

/-- Entries in the order of appearance compare as their ids do. -/
theorem Tallied.before_iff_outranks {acc : List FuseEntry} (h : Tallied lists acc) (hkeep : KeepsOrder lists) :
    acc.Pairwise fun a b => a.Before b ↔ Outranks lists a.id b.id := by
  refine h.order.imp_of_mem ?_
  intro a b ha hb hab
  have hsa : Seen lists a.id := (h.seen _).mp ⟨a, ha, rfl⟩
  have hsb : Seen lists b.id := (h.seen _).mp ⟨b, hb, rfl⟩
  rw [before_iff, (h.tells a ha).score, (h.tells b hb).score, (h.tells a ha).tiebreak, (h.tells b hb).tiebreak]
  unfold Outranks
  constructor
  · rintro (hlt | ⟨heq, _⟩)
    · exact Or.inl hlt
    · exact Or.inr ⟨heq, hab⟩
  · rintro (hlt | ⟨heq, _⟩)
    · exact Or.inl hlt
    · refine Or.inr ⟨heq, ?_⟩
      rcases hab with hl | ⟨hl, hr⟩
      · exact Or.inl hl
      · exact Or.inr ⟨hl, hkeep _ _ hsa hsb heq hl hr⟩

/-- The ranking has the ids that were seen. -/
theorem mem_rrf_ids {id : Ulid} : id ∈ lists.flatten.dedup.insertionSort (Outranks lists) ↔ Seen lists id := by
  rw [List.mem_insertionSort, List.mem_dedup, List.mem_flatten]
  rfl

/-- The ranking is in order. -/
theorem pairwise_rrf_ids (lists : List (List Ulid)) :
    (lists.flatten.dedup.insertionSort (Outranks lists)).Pairwise (Outranks lists) :=
  pairwise_outranks_sort (List.nodup_dedup _) fun _ hid => List.mem_flatten.mp (List.mem_dedup.mp hid)

/-- The entries in the order of their ids are the ranking. -/
theorem map_eq_rrf {entries : List FuseEntry} (hperm : entries.Perm (accumulate lists))
    (h : entries.Pairwise fun a b => Outranks lists a.id b.id) :
    entries.map (fun e => (⟨e.id, e.score⟩ : Fused)) = rrf lists := by
  have htally := tallied_accumulate lists
  have hids : entries.map FuseEntry.id = lists.flatten.dedup.insertionSort (Outranks lists) := by
    refine eq_of_pairwise_of_mem_iff (outranks_irrefl lists) (fun _ _ => outranks_asymm)
      (List.pairwise_map.mpr h) (pairwise_rrf_ids lists) ?_
    intro id
    rw [mem_rrf_ids, ← htally.seen id, List.mem_map]
    simp only [hperm.mem_iff]
  unfold rrf
  rw [← hids, List.map_map]
  refine List.map_congr_left ?_
  intro e he
  show (⟨e.id, e.score⟩ : Fused) = ⟨e.id, rrfScore lists e.id⟩
  rw [(htally.tells e (hperm.subset he)).score]

/-- The sorted entries are the ranking exactly if the ties keep their order. -/
theorem sort_eq_rrf_iff (lists : List (List Ulid)) :
    ((accumulate lists).insertionSort FuseEntry.Before).map (fun e => (⟨e.id, e.score⟩ : Fused)) = rrf lists ↔
      KeepsOrder lists := by
  have htally := tallied_accumulate lists
  have hperm := List.perm_insertionSort FuseEntry.Before (accumulate lists)
  constructor
  · intro h a b ha hb hscore hlist hrank
    -- the two entries, and where they stand in the sorted list
    rcases (htally.seen a).mpr ha with ⟨ea, hea, rfl⟩
    rcases (htally.seen b).mpr hb with ⟨eb, heb, rfl⟩
    have hids : (((accumulate lists).insertionSort FuseEntry.Before).map FuseEntry.id).Pairwise (Outranks lists) := by
      have hmap := congrArg (List.map Fused.recordId) h
      simp only [rrf, List.map_map] at hmap
      have hmap' : ((accumulate lists).insertionSort FuseEntry.Before).map FuseEntry.id =
          lists.flatten.dedup.insertionSort (Outranks lists) := hmap.trans (List.map_id _)
      rw [hmap']
      exact pairwise_rrf_ids lists
    have hboth : ((accumulate lists).insertionSort FuseEntry.Before).Pairwise fun x y =>
        x.Before y ∧ Outranks lists x.id y.id :=
      List.pairwise_and_iff.mpr ⟨List.pairwise_insertionSort _ _, List.pairwise_map.mp hids⟩
    have hne : ea ≠ eb := by
      rintro rfl
      exact lt_irrefl _ hrank
    have hside := rel_or_rel_of_pairwise hboth (hperm.mem_iff.mpr hea) (hperm.mem_iff.mpr heb) hne
    have hout : Outranks lists ea.id eb.id := Or.inr ⟨hscore, Or.inr ⟨hlist, hrank⟩⟩
    rcases hside with ⟨hbefore, _⟩ | ⟨_, hback⟩
    · rw [before_iff, (htally.tells ea hea).score, (htally.tells eb heb).score, (htally.tells ea hea).tiebreak,
        (htally.tells eb heb).tiebreak] at hbefore
      rcases hbefore with hlt | ⟨_, hlt | ⟨_, hle⟩⟩
      · exact absurd hscore hlt.ne'
      · exact absurd hlist hlt.ne
      · exact hle
    · exact absurd hback (outranks_asymm hout)
  · intro hkeep
    have hsame := insertionSort_congr (s := fun a b : FuseEntry => Outranks lists a.id b.id)
      (htally.before_iff_outranks hkeep)
    refine map_eq_rrf hperm ?_
    rw [hsame]
    have hmap := List.map_insertionSort (fun a b : FuseEntry => Outranks lists a.id b.id) (Outranks lists)
      FuseEntry.id (accumulate lists) (fun _ _ _ _ => Iff.rfl)
    refine List.pairwise_map.mp ?_
    rw [hmap]
    refine pairwise_outranks_sort htally.nodup ?_
    intro id hid
    rcases List.mem_map.mp hid with ⟨e, he, rfl⟩
    exact (htally.seen _).mp ⟨e, he, rfl⟩

end Order

/-! ## Fusion -/

section Fusion

variable {lists : List (List Ulid)} {a b : Ulid}

/-- Every rank counts. -/
theorem contribution_pos (rank : Nat) : 0 < contribution rank := by
  unfold contribution RRF_K
  positivity

/-- A later rank counts less. -/
theorem contribution_lt {r r' : Nat} (h : r < r') : contribution r' < contribution r := by
  unfold contribution RRF_K
  have hcast : (r : ℚ) < r' := by exact_mod_cast h
  refine one_div_lt_one_div_of_lt (by positivity) ?_
  linarith

/-- A later rank counts no more. -/
theorem contribution_le {r r' : Nat} (h : r ≤ r') : contribution r' ≤ contribution r := by
  rcases Nat.lt_or_eq_of_le h with hlt | rfl
  · exact (contribution_lt hlt).le
  · exact le_rfl

/-- `a` is ranked at least as well as `b` in every list, and better in one of them. -/
structure Dominates (lists : List (List Ulid)) (a b : Ulid) : Prop where
  everywhere : ∀ l ∈ lists, ∀ rb, rankOf b l = some rb → ∃ ra, rankOf a l = some ra ∧ ra ≤ rb
  somewhere : ∃ l ∈ lists, ∃ ra, rankOf a l = some ra ∧ ∀ rb, rankOf b l = some rb → ra < rb

/-- Who dominates was seen. -/
theorem Dominates.seen (h : Dominates lists a b) : Seen lists a := by
  rcases h.somewhere with ⟨l, hl, ra, hra, _⟩
  refine ⟨l, hl, ?_⟩
  by_contra hnot
  rw [rankOf_of_not_mem hnot] at hra
  cases hra

/-- Who dominates scores more. -/
theorem Dominates.score_lt (h : Dominates lists a b) : rrfScore lists b < rrfScore lists a := by
  have hge : ∀ l ∈ lists, ((rankOf b l).map contribution).getD 0 ≤ ((rankOf a l).map contribution).getD 0 := by
    intro l hl
    cases hb : rankOf b l with
    | none =>
        cases rankOf a l with
        | none => exact le_rfl
        | some ra => exact (contribution_pos ra).le
    | some rb =>
        rcases h.everywhere l hl rb hb with ⟨ra, hra, hle⟩
        rw [hra]
        exact contribution_le hle
  unfold rrfScore
  refine List.sum_lt_sum _ _ hge ?_
  rcases h.somewhere with ⟨l, hl, ra, hra, hlt⟩
  refine ⟨l, hl, ?_⟩
  rw [hra]
  cases hb : rankOf b l with
  | none => exact contribution_pos ra
  | some rb => exact contribution_lt (hlt rb hb)

/-- Wherever `b` stands in the result, `a` stands before it. -/
def Precedes (a b : Ulid) (out : List Fused) : Prop :=
  ∀ (i : Nat) (hit : Fused), out[i]? = some hit → hit.recordId = b →
    ∃ (j : Nat) (hit' : Fused), j < i ∧ out[j]? = some hit' ∧ hit'.recordId = a

/-- A sorted list, by positions. -/
theorem pairwise_getElem? {α : Type*} {r : α → α → Prop} {l : List α} (h : l.Pairwise r) {i j : Nat} (hij : i < j)
    {x y : α} (hx : l[i]? = some x) (hy : l[j]? = some y) : r x y := by
  rcases List.getElem?_eq_some_iff.mp hx with ⟨hi, rfl⟩
  rcases List.getElem?_eq_some_iff.mp hy with ⟨hj, rfl⟩
  exact List.pairwise_iff_getElem.mp h i j hi hj hij

/-- In the ranking, what outranks an id precedes it. -/
theorem precedes_rrf (ha : Seen lists a) (h : Outranks lists a b) (limit : Nat) :
    Precedes a b ((rrf lists).take limit) := by
  intro i hit hi hb
  rw [List.getElem?_take] at hi
  split at hi
  swap
  · cases hi
  rename_i hlt
  rw [rrf, List.getElem?_map, Option.map_eq_some_iff] at hi
  rcases hi with ⟨id, hid, rfl⟩
  obtain rfl : id = b := hb
  rcases List.getElem?_of_mem (mem_rrf_ids.mpr ha) with ⟨j, hj⟩
  have hsort := pairwise_rrf_ids lists
  have hji : j < i := by
    by_contra hge
    rcases Nat.lt_or_eq_of_le (not_lt.mp hge) with hij | rfl
    · have hback := pairwise_getElem? hsort hij hid hj
      exact outranks_asymm h hback
    · rw [hj] at hid
      cases hid
      exact outranks_irrefl _ _ h
  refine ⟨j, ⟨a, rrfScore lists a⟩, hji, ?_, rfl⟩
  rw [List.getElem?_take_of_lt (lt_trans hji hlt), rrf, List.getElem?_map, hj]
  rfl

/-- What fusion is specified to do: the first `limit` of the ranking, for every limit, and
an id that dominates another one precedes it. -/
structure FusesRight (lists : List (List Ulid)) : Prop where
  ranking : ∀ limit, fuseLists lists limit = some ((rrf lists).take limit)
  dominance : ∀ a b limit out, Dominates lists a b → fuseLists lists limit = some out → Precedes a b out

/-- The fusion is the sorted table, cut at the limit. -/
theorem fuseLists_eq (h : lists.length ≤ 8) (limit : Nat) :
    fuseLists lists limit =
      some ((((accumulate lists).insertionSort FuseEntry.Before).map fun e => (⟨e.id, e.score⟩ : Fused)).take limit) := by
  unfold fuseLists
  rw [if_neg (by omega), List.map_take]

/-- When the wrapped ranks keep the order, the fusion is right. -/
theorem fusesRight_of_keepsOrder (h : lists.length ≤ 8) (hkeep : KeepsOrder lists) : FusesRight lists := by
  have hrank : ∀ limit, fuseLists lists limit = some ((rrf lists).take limit) := by
    intro limit
    rw [fuseLists_eq h, (sort_eq_rrf_iff lists).mpr hkeep]
  refine ⟨hrank, ?_⟩
  intro a b limit out hdom hout
  rw [hrank limit] at hout
  cases hout
  exact precedes_rrf hdom.seen (Or.inl hdom.score_lt) limit

/-- A right fusion keeps the order. -/
theorem keepsOrder_of_fusesRight (h : lists.length ≤ 8) (hright : FusesRight lists) : KeepsOrder lists := by
  refine (sort_eq_rrf_iff lists).mp ?_
  -- a limit that cuts nothing off
  have hall := hright.ranking (max (accumulate lists).length (rrf lists).length)
  rw [fuseLists_eq h, Option.some.injEq, List.take_of_length_le, List.take_of_length_le] at hall
  · exact hall
  · exact le_max_right _ _
  · rw [List.length_map, List.length_insertionSort]
    exact le_max_left _ _

/-- Fusion is reciprocal rank fusion for every limit exactly if cutting ranks to 32 bits
keeps the order of all ties. -/
theorem fuse_lists_eq_rrf_iff (h : lists.length ≤ 8) : FusesRight lists ↔ KeepsOrder lists :=
  ⟨keepsOrder_of_fusesRight h, fusesRight_of_keepsOrder h⟩

/-- The rank where an id is first seen is a rank of its list. -/
theorem firstSeen_rank {id : Ulid} (h : Seen lists id) : ∃ l ∈ lists, (firstSeen id lists).2 < l.length := by
  induction lists with
  | nil =>
      rcases h with ⟨m, hm, _⟩
      cases hm
  | cons l lists ih =>
      unfold firstSeen
      by_cases hl : id ∈ l
      · rw [if_pos hl]
        exact ⟨l, List.mem_cons_self, List.idxOf_lt_length_of_mem hl⟩
      · rw [if_neg hl]
        have hrest : Seen lists id := by
          rcases h with ⟨m, hm, hin⟩
          rcases List.mem_cons.mp hm with rfl | hm
          · exact absurd hin hl
          · exact ⟨m, hm, hin⟩
        rcases ih hrest with ⟨m, hm, hlt⟩
        exact ⟨m, List.mem_cons_of_mem _ hm, hlt⟩

/-- Lists of at most `2 ^ 32` ids keep the order. -/
theorem keepsOrder_of_short (h : ∀ l ∈ lists, l.length ≤ 2 ^ 32) : KeepsOrder lists := by
  intro a b ha hb _ _ hlt
  rcases firstSeen_rank ha with ⟨l, hl, hal⟩
  rcases firstSeen_rank hb with ⟨m, hm, hbm⟩
  have h1 := h l hl
  have h2 := h m hm
  rw [Nat.mod_eq_of_lt (by omega), Nat.mod_eq_of_lt (by omega)]
  exact hlt.le

/-- Two short lists are fused right. -/
theorem fuse_lists_eq_rrf_iff_two : FusesRight [[1, 2], [2, 1]] ↔ KeepsOrder [[1, 2], [2, 1]] :=
  fuse_lists_eq_rrf_iff (by decide)

/-- The rank of an id in a list without repetitions. -/
theorem rankOf_of_getElem? {l : List Ulid} (hnd : l.Nodup) {i : Nat} (h : l[i]? = some a) : rankOf a l = some i := by
  rcases List.getElem?_eq_some_iff.mp h with ⟨hi, rfl⟩
  rw [rankOf_of_mem (List.getElem_mem hi), hnd.idxOf_getElem]

/-- The ids `0, ..., n - 1` in an order. -/
def idsBy (n : Nat) (order : Equiv.Perm Nat) : List Ulid := (List.range n).map fun k => Fin.ofNat (2 ^ 128) (order k)

/-- The id at place `k`. -/
theorem getElem?_idsBy {n k : Nat} (order : Equiv.Perm Nat) (hk : k < n) :
    (idsBy n order)[k]? = some (Fin.ofNat (2 ^ 128) (order k)) := by
  unfold idsBy
  rw [List.getElem?_map, List.getElem?_range hk]
  rfl

/-- The ids of a permutation are distinct. -/
theorem nodup_idsBy {n : Nat} {order : Equiv.Perm Nat} (h : ∀ k, k < n → order k < 2 ^ 128) : (idsBy n order).Nodup := by
  refine (List.nodup_map_iff_inj_on List.nodup_range).mpr ?_
  intro x hx y hy hxy
  have hval := congrArg Fin.val hxy
  simp only [Fin.val_ofNat] at hval
  rw [Nat.mod_eq_of_lt (h x (List.mem_range.mp hx)), Nat.mod_eq_of_lt (h y (List.mem_range.mp hy))] at hval
  exact order.injective hval

/-- Two lists of `2 ^ 32 + 1` ids that differ in the places of two of them. The ids tie, the
first list has one of them at rank 1 and the other at rank `2 ^ 32`, and the latter comes
out first. -/
theorem fuse_lists_swaps_tie :
    ¬ FusesRight [idsBy (2 ^ 32 + 1) (Equiv.refl Nat), idsBy (2 ^ 32 + 1) (Equiv.swap 1 (2 ^ 32))] := by
  intro h
  have hkeep := keepsOrder_of_fusesRight (by simp) h
  have hv : (idsBy (2 ^ 32 + 1) (Equiv.refl Nat)).Nodup := by
    refine nodup_idsBy ?_
    intro k hk
    show k < 2 ^ 128
    omega
  have ht : (idsBy (2 ^ 32 + 1) (Equiv.swap 1 (2 ^ 32))).Nodup := by
    refine nodup_idsBy ?_
    intro k hk
    rw [Equiv.swap_apply_def]
    split_ifs <;> omega
  -- the ranks of the two ids
  have hv1 := rankOf_of_getElem? hv (getElem?_idsBy (Equiv.refl Nat) (show 1 < 2 ^ 32 + 1 by omega))
  have hvN := rankOf_of_getElem? hv (getElem?_idsBy (Equiv.refl Nat) (show 2 ^ 32 < 2 ^ 32 + 1 by omega))
  have htN := rankOf_of_getElem? ht (getElem?_idsBy (Equiv.swap 1 (2 ^ 32)) (show 1 < 2 ^ 32 + 1 by omega))
  have ht1 := rankOf_of_getElem? ht (getElem?_idsBy (Equiv.swap 1 (2 ^ 32)) (show 2 ^ 32 < 2 ^ 32 + 1 by omega))
  rw [Equiv.swap_apply_left] at htN
  rw [Equiv.swap_apply_right] at ht1
  rw [Equiv.refl_apply] at hv1 hvN
  generalize idsBy (2 ^ 32 + 1) (Equiv.refl Nat) = vector at *
  generalize idsBy (2 ^ 32 + 1) (Equiv.swap 1 (2 ^ 32)) = text at *
  generalize Fin.ofNat (2 ^ 128) 1 = a at *
  generalize Fin.ofNat (2 ^ 128) (2 ^ 32) = b at *
  have hseen : ∀ {id : Ulid} {r : Nat}, rankOf id vector = some r →
      Seen [vector, text] id ∧ firstSeen id [vector, text] = (0, r) := by
    intro id r hr
    have hmem : id ∈ vector := by
      by_contra hnot
      rw [rankOf_of_not_mem hnot] at hr
      cases hr
    rw [rankOf_of_mem hmem, Option.some.injEq] at hr
    refine ⟨⟨vector, List.mem_cons_self, hmem⟩, ?_⟩
    unfold firstSeen
    rw [if_pos hmem, hr]
  have hscore : rrfScore [vector, text] a = rrfScore [vector, text] b := by
    simp only [rrfScore, List.map_cons, List.map_nil, List.sum_cons, List.sum_nil, hv1, hvN, ht1, htN,
      Option.map_some, Option.getD_some, add_zero]
    exact add_comm _ _
  have hbad := hkeep a b (hseen hv1).1 (hseen hvN).1 hscore (by rw [(hseen hv1).2, (hseen hvN).2])
    (by rw [(hseen hv1).2, (hseen hvN).2]; norm_num)
  rw [(hseen hv1).2, (hseen hvN).2] at hbad
  norm_num at hbad

end Fusion

end EmbedMind
