import EmbedMind.RecallProof

/-!
# Recency against two content lists

With recency, recall fuses the vector list, the text list and the union of the two by
creation time. An id that both content lists have should not fall behind one that a
single list has, at a worse rank. It does when the other content list and the recency
list rank it deep enough: `recency_holds_iff` says exactly for which content lists no
recency list can do that, and `recencyBounded_of_short` that 63 ids are few enough.
-/

namespace EmbedMind

open Lib

section Precede

variable {lists : List (List Ulid)} {a b : Ulid}

/-- An id seen earlier than another one precedes it exactly if it has the higher score, or
the same and its cut rank is no worse. -/
theorem precedes_iff (h : lists.length ≤ 8) (ha : Seen lists a) (hb : Seen lists b)
    (hearlier : Earlier (firstSeen a lists) (firstSeen b lists)) :
    (∀ limit out, fuseLists lists limit = some out → Precedes a b out) ↔
      rrfScore lists b < rrfScore lists a ∨ (rrfScore lists a = rrfScore lists b ∧
        ((firstSeen a lists).1 < (firstSeen b lists).1 ∨ ((firstSeen a lists).1 = (firstSeen b lists).1 ∧
          (firstSeen a lists).2 % 2 ^ 32 ≤ (firstSeen b lists).2 % 2 ^ 32))) := by
  have htally := tallied_accumulate lists
  have hperm := List.perm_insertionSort FuseEntry.Before (accumulate lists)
  have hstable := pairwise_insertionSort_stable (r := FuseEntry.Before) htally.order
  rcases (htally.seen a).mpr ha with ⟨ea, hea, rfl⟩
  rcases (htally.seen b).mpr hb with ⟨eb, heb, rfl⟩
  have hbefore : ea.Before eb ↔ rrfScore lists eb.id < rrfScore lists ea.id ∨
      (rrfScore lists ea.id = rrfScore lists eb.id ∧
        ((firstSeen ea.id lists).1 < (firstSeen eb.id lists).1 ∨
          ((firstSeen ea.id lists).1 = (firstSeen eb.id lists).1 ∧
            (firstSeen ea.id lists).2 % 2 ^ 32 ≤ (firstSeen eb.id lists).2 % 2 ^ 32))) := by
    rw [before_iff, (htally.tells ea hea).score, (htally.tells eb heb).score, (htally.tells ea hea).tiebreak,
      (htally.tells eb heb).tiebreak]
  rw [← hbefore]
  have hback : ¬ Earlier (firstSeen eb.id lists) (firstSeen ea.id lists) :=
    fun hba => earlier_irrefl _ (earlier_trans hearlier hba)
  have hmem : ∀ e : FuseEntry, e ∈ accumulate lists → ∃ i, ((accumulate lists).insertionSort FuseEntry.Before)[i]? = some e :=
    fun e he => List.getElem?_of_mem (hperm.mem_iff.mpr he)
  -- an entry is the only one of its id
  have hunique : ∀ e ∈ accumulate lists, ∀ e' ∈ accumulate lists, e.id = e'.id → e = e' := by
    intro e he e' he' heq
    exact List.inj_on_of_nodup_map htally.nodup he he' heq
  constructor
  · intro hprec
    have hout := hprec (accumulate lists).length _ (fuseLists_eq h _)
    rw [List.take_of_length_le (by rw [List.length_map, List.length_insertionSort])] at hout
    rcases hmem eb heb with ⟨i, hi⟩
    rcases hout i ⟨eb.id, eb.score⟩ (by rw [List.getElem?_map, hi]; rfl) rfl with ⟨j, hit, hji, hj, hid⟩
    rw [List.getElem?_map, Option.map_eq_some_iff] at hj
    rcases hj with ⟨e, hj, rfl⟩
    obtain rfl := hunique e (hperm.subset (List.mem_of_getElem? hj)) ea hea hid
    exact (pairwise_getElem? hstable hji hj hi).1
  · intro hab limit out hout i hit hi hid
    rw [fuseLists_eq h, Option.some.injEq] at hout
    subst hout
    rw [List.getElem?_take] at hi
    split at hi
    swap
    · cases hi
    rename_i hlt
    rw [List.getElem?_map, Option.map_eq_some_iff] at hi
    rcases hi with ⟨e, hi, rfl⟩
    obtain rfl := hunique e (hperm.subset (List.mem_of_getElem? hi)) eb heb hid
    rcases hmem ea hea with ⟨j, hj⟩
    have hji : j < i := by
      by_contra hge
      rcases Nat.lt_or_eq_of_le (not_lt.mp hge) with hij | rfl
      · exact hback ((pairwise_getElem? hstable hij hi hj).2 hab)
      · rw [hj] at hi
        cases hi
        exact earlier_irrefl _ hearlier
    refine ⟨j, ⟨ea.id, ea.score⟩, hji, ?_, rfl⟩
    rw [List.getElem?_take_of_lt (lt_trans hji hlt), List.getElem?_map, hj]
    rfl

end Precede

/-! ## Content matches -/

/-- `x` is in the list `one` alone, at a worse rank than `a`, which `other` has too. -/
structure ContentMatch (one other : List Ulid) (a x : Ulid) : Prop where
  inOne : a ∈ one
  inOther : a ∈ other
  single : x ∈ one
  absent : x ∉ other
  worse : one.idxOf a < one.idxOf x

/-- No recency list can put a hit of one list before a better match of both. -/
def RecencyHolds (vector text : List Ulid) : Prop :=
  ∀ recency, recency.Perm (vector ++ text).dedup → ∀ a x,
    ContentMatch vector text a x ∨ ContentMatch text vector a x →
    ∀ limit out, fuseLists [vector, text, recency] limit = some out → Precedes a x out

/-- The least that an id can score that has the ranks `r` and `r'` in the content lists, if
there are `n` ids in all. -/
def atWorst (r r' n : Nat) : ℚ := contribution r + contribution r' + contribution (n - 1)

/-- The most that an id can score that has the rank `r` in one content list. -/
def atBest (r : Nat) : ℚ := contribution r + contribution 0

/-- The recency list cannot outweigh a second content list: a match of both lists scores
more at worst than a hit of one of them at best, or as much and the tie is decided by
ranks that keep their order when they are cut to 32 bits. -/
structure RecencyBounded (vector text : List Ulid) : Prop where
  ofVector : ∀ a x, ContentMatch vector text a x →
    atBest (vector.idxOf x) < atWorst (vector.idxOf a) (text.idxOf a) (vector ++ text).dedup.length ∨
      (atBest (vector.idxOf x) = atWorst (vector.idxOf a) (text.idxOf a) (vector ++ text).dedup.length ∧
        vector.idxOf a % 2 ^ 32 ≤ vector.idxOf x % 2 ^ 32)
  ofText : ∀ a x, ContentMatch text vector a x →
    atBest (text.idxOf x) ≤ atWorst (text.idxOf a) (vector.idxOf a) (vector ++ text).dedup.length

section Recency

variable {vector text recency : List Ulid} {a x : Ulid}

/-- The score of an id of both content lists. -/
theorem rrfScore_both (hv : a ∈ vector) (ht : a ∈ text) (hr : a ∈ recency) :
    rrfScore [vector, text, recency] a =
      contribution (vector.idxOf a) + contribution (text.idxOf a) + contribution (recency.idxOf a) := by
  simp only [rrfScore, List.map_cons, List.map_nil, List.sum_cons, List.sum_nil, rankOf_of_mem hv, rankOf_of_mem ht,
    rankOf_of_mem hr, Option.map_some, Option.getD_some, add_zero, add_assoc]

/-- The score of an id of the vector list only. -/
theorem rrfScore_vector (hv : x ∈ vector) (ht : x ∉ text) (hr : x ∈ recency) :
    rrfScore [vector, text, recency] x = contribution (vector.idxOf x) + contribution (recency.idxOf x) := by
  simp only [rrfScore, List.map_cons, List.map_nil, List.sum_cons, List.sum_nil, rankOf_of_mem hv,
    rankOf_of_not_mem ht, rankOf_of_mem hr, Option.map_some, Option.map_none, Option.getD_some, Option.getD_none,
    add_zero, zero_add]

/-- The score of an id of the text list only. -/
theorem rrfScore_text (hv : x ∉ vector) (ht : x ∈ text) (hr : x ∈ recency) :
    rrfScore [vector, text, recency] x = contribution (text.idxOf x) + contribution (recency.idxOf x) := by
  simp only [rrfScore, List.map_cons, List.map_nil, List.sum_cons, List.sum_nil, rankOf_of_not_mem hv,
    rankOf_of_mem ht, rankOf_of_mem hr, Option.map_some, Option.map_none, Option.getD_some, Option.getD_none,
    add_zero, zero_add]

/-- An id of the vector list is first seen there. -/
theorem firstSeen_vector (hv : a ∈ vector) : firstSeen a [vector, text, recency] = (0, vector.idxOf a) := by
  unfold firstSeen
  rw [if_pos hv]

/-- An id of the text list only is first seen there. -/
theorem firstSeen_text (hv : x ∉ vector) (ht : x ∈ text) : firstSeen x [vector, text, recency] = (1, text.idxOf x) := by
  unfold firstSeen
  rw [if_neg hv]
  unfold firstSeen
  rw [if_pos ht]

/-- The recency list has the ids of both lists. -/
theorem mem_recency (h : recency.Perm (vector ++ text).dedup) {id : Ulid} : id ∈ recency ↔ id ∈ vector ∨ id ∈ text := by
  rw [h.mem_iff, List.mem_dedup, List.mem_append]

/-- Whatever the recency list, the scores are between the worst and the best case. -/
theorem recency_bounds (h : recency.Perm (vector ++ text).dedup) (ha : a ∈ recency) (r r' : Nat) :
    atWorst r r' (vector ++ text).dedup.length ≤ contribution r + contribution r' + contribution (recency.idxOf a) ∧
      contribution r + contribution (recency.idxOf x) ≤ atBest r := by
  have hlt := List.idxOf_lt_length_of_mem ha
  rw [h.length_eq] at hlt
  unfold atWorst atBest
  have h1 := contribution_le (show recency.idxOf a ≤ (vector ++ text).dedup.length - 1 by omega)
  have h2 := contribution_le (Nat.zero_le (recency.idxOf x))
  constructor
  · linarith
  · linarith

/-- The precedence of a content match, for one recency list. -/
theorem precedes_vector_iff (h : recency.Perm (vector ++ text).dedup) (hm : ContentMatch vector text a x) :
    (∀ limit out, fuseLists [vector, text, recency] limit = some out → Precedes a x out) ↔
      contribution (vector.idxOf x) + contribution (recency.idxOf x) <
          contribution (vector.idxOf a) + contribution (text.idxOf a) + contribution (recency.idxOf a) ∨
        (contribution (vector.idxOf a) + contribution (text.idxOf a) + contribution (recency.idxOf a) =
            contribution (vector.idxOf x) + contribution (recency.idxOf x) ∧
          vector.idxOf a % 2 ^ 32 ≤ vector.idxOf x % 2 ^ 32) := by
  have hra := (mem_recency h).mpr (Or.inl hm.inOne)
  have hrx := (mem_recency h).mpr (Or.inl hm.single)
  rw [precedes_iff (by simp) ⟨vector, by simp, hm.inOne⟩ ⟨vector, by simp, hm.single⟩, rrfScore_both hm.inOne hm.inOther hra,
    rrfScore_vector hm.single hm.absent hrx, firstSeen_vector hm.inOne, firstSeen_vector hm.single]
  · simp
  · rw [firstSeen_vector hm.inOne, firstSeen_vector hm.single]
    exact Or.inr ⟨rfl, hm.worse⟩

/-- When the vector match comes before the text match, by their shares. -/
theorem precedes_text_iff (h : recency.Perm (vector ++ text).dedup) (hm : ContentMatch text vector a x) :
    (∀ limit out, fuseLists [vector, text, recency] limit = some out → Precedes a x out) ↔
      contribution (text.idxOf x) + contribution (recency.idxOf x) ≤
        contribution (text.idxOf a) + contribution (vector.idxOf a) + contribution (recency.idxOf a) := by
  have hra := (mem_recency h).mpr (Or.inl hm.inOther)
  have hrx := (mem_recency h).mpr (Or.inr hm.single)
  rw [precedes_iff (by simp) ⟨vector, by simp, hm.inOther⟩ ⟨text, by simp, hm.single⟩, rrfScore_both hm.inOther hm.inOne hra,
    rrfScore_text hm.absent hm.single hrx, firstSeen_vector hm.inOther, firstSeen_text hm.absent hm.single,
    add_comm (contribution (text.idxOf a))]
  · simp only [zero_lt_one, true_or, and_true]
    rw [le_iff_lt_or_eq, eq_comm (a := contribution (text.idxOf x) + _)]
  · rw [firstSeen_vector hm.inOther, firstSeen_text hm.absent hm.single]
    exact Or.inl zero_lt_one

/-- A recency list with `x` first and `a` last. -/
theorem exists_worst {l : List Ulid} (hnd : l.Nodup) (ha : a ∈ l) (hx : x ∈ l) (hne : a ≠ x) :
    ∃ recency : List Ulid, recency.Perm l ∧ recency.idxOf x = 0 ∧ recency.idxOf a = l.length - 1 := by
  have hperm : (x :: ((l.erase x).erase a ++ [a])).Perm l := by
    have ha' : a ∈ l.erase x := (List.mem_erase_of_ne hne).mpr ha
    refine ((List.perm_append_singleton a _).cons x).trans ?_
    exact ((List.perm_cons_erase ha').symm.cons x).trans (List.perm_cons_erase hx).symm
  refine ⟨_, hperm, List.idxOf_cons_self, ?_⟩
  have hnot : a ∉ (l.erase x).erase a := (hnd.erase x).not_mem_erase
  have hlen := hperm.length_eq
  rw [List.length_cons, List.length_append, List.length_singleton] at hlen
  rw [List.idxOf_cons_ne _ (Ne.symm hne), List.idxOf_append_of_notMem hnot, List.idxOf_cons_self]
  omega

/-- Short lists keep recency from inverting a content match. -/
theorem recencyHolds_of_bounded (h : RecencyBounded vector text) : RecencyHolds vector text := by
  intro recency hperm a x hmatch
  rcases hmatch with hm | hm
  · refine (precedes_vector_iff hperm hm).mpr ?_
    rcases recency_bounds (x := x) hperm ((mem_recency hperm).mpr (Or.inl hm.inOne)) (vector.idxOf a) (text.idxOf a) with
      ⟨hworst, _⟩
    have hbest := (recency_bounds (x := x) hperm ((mem_recency hperm).mpr (Or.inl hm.inOne)) (vector.idxOf x) 0).2
    rcases h.ofVector a x hm with hlt | ⟨heq, htie⟩
    · exact Or.inl (by linarith)
    · rcases lt_or_eq_of_le (show contribution (vector.idxOf x) + contribution (recency.idxOf x) ≤
        contribution (vector.idxOf a) + contribution (text.idxOf a) + contribution (recency.idxOf a) by linarith)
        with hlt | heq'
      · exact Or.inl hlt
      · exact Or.inr ⟨heq'.symm, htie⟩
  · refine (precedes_text_iff hperm hm).mpr ?_
    have hra := (mem_recency hperm).mpr (Or.inl hm.inOther)
    have hworst := (recency_bounds (x := x) hperm hra (text.idxOf a) (vector.idxOf a)).1
    have hbest := (recency_bounds (x := x) hperm hra (text.idxOf x) 0).2
    have := h.ofText a x hm
    linarith

/-- The two ids of a content match differ. -/
theorem ContentMatch.ne {one other : List Ulid} (h : ContentMatch one other a x) : a ≠ x := by
  rintro rfl
  exact h.absent h.inOther

/-- Longer lists do not. -/
theorem bounded_of_recencyHolds (h : RecencyHolds vector text) : RecencyBounded vector text := by
  have hmem : ∀ {id : Ulid}, id ∈ (vector ++ text).dedup ↔ id ∈ vector ∨ id ∈ text := by
    intro id
    rw [List.mem_dedup, List.mem_append]
  refine ⟨?_, ?_⟩
  · intro a x hm
    rcases exists_worst (List.nodup_dedup _) (hmem.mpr (Or.inl hm.inOne)) (hmem.mpr (Or.inl hm.single)) hm.ne with
      ⟨recency, hperm, hx, ha⟩
    have hprec := (precedes_vector_iff hperm hm).mp (h recency hperm a x (Or.inl hm))
    rw [hx, ha] at hprec
    rcases hprec with hlt | ⟨heq, htie⟩
    · exact Or.inl hlt
    · exact Or.inr ⟨heq.symm, htie⟩
  · intro a x hm
    rcases exists_worst (List.nodup_dedup _) (hmem.mpr (Or.inl hm.inOther)) (hmem.mpr (Or.inr hm.single)) hm.ne with
      ⟨recency, hperm, hx, ha⟩
    have hprec := (precedes_text_iff hperm hm).mp (h recency hperm a x (Or.inr hm))
    rw [hx, ha] at hprec
    exact hprec

/-- Recency can invert no content match, whatever the recency list, exactly if the content
lists are short enough for their second ranks to outweigh it. -/
theorem recency_holds_iff (vector text : List Ulid) : RecencyHolds vector text ↔ RecencyBounded vector text :=
  ⟨bounded_of_recencyHolds, recencyHolds_of_bounded⟩

/-- The second rank of a content match is within the union. -/
theorem ContentMatch.other_lt {one other l : List Ulid} (h : ContentMatch one other a x) (hnd : other.Nodup)
    (hl : ∀ id, id ∈ one ∨ id ∈ other → id ∈ l) : other.idxOf a + 2 ≤ l.length := by
  have hlt := List.idxOf_lt_length_of_mem h.inOther
  have hsub : (x :: other).Subperm l := by
    refine (List.nodup_cons.mpr ⟨h.absent, hnd⟩).subperm ?_
    intro id hid
    rcases List.mem_cons.mp hid with rfl | hid
    · exact hl _ (Or.inl h.single)
    · exact hl _ (Or.inr hid)
  have hle := hsub.length_le
  rw [List.length_cons] at hle
  omega

/-- So is the rank of the single match. -/
theorem ContentMatch.one_lt {one other l : List Ulid} (h : ContentMatch one other a x) (hnd : one.Nodup)
    (hl : ∀ id, id ∈ one ∨ id ∈ other → id ∈ l) : one.idxOf x + 1 ≤ l.length := by
  have hlt := List.idxOf_lt_length_of_mem h.single
  have hsub : one.Subperm l := hnd.subperm fun id hid => hl id (Or.inl hid)
  have hle := hsub.length_le
  omega

/-- With at most 63 ids the second content list outweighs the recency list. -/
theorem atBest_le_atWorst {r r' q n : Nat} (hr : r < q) (hq : q + 1 ≤ n) (hr' : r' + 2 ≤ n) (hn : n ≤ 63) :
    atBest q ≤ atWorst r r' n := by
  have h1 := contribution_le (show r' ≤ 61 by omega)
  have h2 := contribution_le (show n - 1 ≤ 62 by omega)
  have h3 := contribution_le (show r + 1 ≤ q by omega)
  -- one rank further down costs at least what it costs at rank 61
  have h4 : contribution 61 - contribution 62 ≤ contribution r - contribution (r + 1) := by
    have hcast : (r : ℚ) ≤ 61 := by exact_mod_cast (show r ≤ 61 by omega)
    have hgap : contribution r - contribution (r + 1) = 1 / ((61 + r) * (62 + r)) := by
      unfold contribution RRF_K
      push_cast
      have hp1 : (60 + (r : ℚ) + 1) ≠ 0 := by positivity
      have hp2 : (60 + ((r : ℚ) + 1) + 1) ≠ 0 := by positivity
      have hp3 : (61 + (r : ℚ)) * (62 + r) ≠ 0 := by positivity
      field_simp
      ring
    have hbase : contribution 61 - contribution 62 = 1 / (122 * 123) := by
      unfold contribution RRF_K
      norm_num
    rw [hgap, hbase]
    refine one_div_le_one_div_of_le (by positivity) ?_
    gcongr
    · linarith
    · linarith
  have hsum : contribution 0 + contribution 62 ≤ contribution 61 + contribution 61 + contribution 62 := by
    unfold contribution RRF_K
    norm_num
  unfold atBest atWorst
  linarith

/-- 63 different ids in the content lists are few enough. -/
theorem recencyBounded_of_short (hv : vector.Nodup) (ht : text.Nodup) (hn : (vector ++ text).dedup.length ≤ 63) :
    RecencyBounded vector text := by
  have hmem : ∀ id, id ∈ vector ∨ id ∈ text → id ∈ (vector ++ text).dedup :=
    fun id hid => List.mem_dedup.mpr (List.mem_append.mpr hid)
  refine ⟨?_, ?_⟩
  · intro a x hm
    have hle := atBest_le_atWorst hm.worse (hm.one_lt hv hmem) (hm.other_lt ht hmem) hn
    rcases lt_or_eq_of_le hle with hlt | heq
    · exact Or.inl hlt
    · have hx := hm.one_lt hv hmem
      have hlt := hm.worse
      refine Or.inr ⟨heq, ?_⟩
      rw [Nat.mod_eq_of_lt (by omega), Nat.mod_eq_of_lt (by omega)]
      exact hlt.le
  · intro a x hm
    have hmem' : ∀ id, id ∈ text ∨ id ∈ vector → id ∈ (vector ++ text).dedup := fun id hid => hmem id hid.symm
    exact atBest_le_atWorst hm.worse (hm.one_lt ht hmem') (hm.other_lt hv hmem') hn

/-- Id 1 is the best of the vector list and the 64th of the text list, id 2 the second of
the vector list alone: a recency list puts id 2 first. -/
theorem recency_inverts_content_match :
    ¬ RecencyHolds [1, 2] ((List.range 63).map (fun k => Fin.ofNat (2 ^ 128) (k + 3)) ++ [1]) := by
  intro h
  have hm : ContentMatch [1, 2] ((List.range 63).map (fun k => Fin.ofNat (2 ^ 128) (k + 3)) ++ [1]) 1 2 :=
    ⟨by decide, by decide +kernel, by decide, by decide +kernel, by decide⟩
  have hranks : ([1, 2] : List Ulid).idxOf 1 = 0 ∧ ([1, 2] : List Ulid).idxOf 2 = 1 ∧
      ((List.range 63).map (fun k => (Fin.ofNat (2 ^ 128) (k + 3) : Ulid)) ++ [1]).idxOf 1 = 63 ∧
      (([1, 2] : List Ulid) ++ ((List.range 63).map (fun k => Fin.ofNat (2 ^ 128) (k + 3)) ++ [1])).dedup.length = 65 := by
    decide +kernel
  have hbound := (bounded_of_recencyHolds h).ofVector 1 2 hm
  rw [hranks.1, hranks.2.1, hranks.2.2.1, hranks.2.2.2] at hbound
  unfold atBest atWorst contribution RRF_K at hbound
  norm_num at hbound

end Recency

end EmbedMind
