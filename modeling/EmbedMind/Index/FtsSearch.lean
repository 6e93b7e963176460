import EmbedMind.Index.FtsRuns

/-!
# The early-terminating scan is exact

Both scans return the top `k` of one set of hits, `Matches`: the documents that are
kept, have a length and hold a matched term, each with its exact score. The
exhaustive scan sorts that set; the linear scan inserts its members by falling bound
and stops when the bound is below the last hit. The top of a set is unique
(`Lib.TopK.Top.unique`), so the two agree.
-/

namespace EmbedMind

open Lib Lib.Assoc Lib.TopK

namespace Fts

/-! ## Contributions -/

section Contribution

variable {α : Type} [Field α] [LinearOrder α] [IsStrictOrderedRing α]

/-- The norm of a score is above one. -/
theorem one_lt_norm {tf : Nat} (htf : 0 < tf) {x : α} (hx : 0 ≤ x) :
    1 < (tf : α) + BM25_K1 * (1 - BM25_B + x) := by
  have h1 : (1 : α) ≤ tf := by exact_mod_cast htf
  have h2 : (0 : α) < BM25_K1 * (1 - BM25_B + x) := by
    unfold BM25_K1 BM25_B
    have : (0 : α) < 1 - 3 / 4 + x := by linarith [show (1 : α) - 3 / 4 = 1 / 4 by norm_num]
    positivity
  linarith

theorem min_positive_le_one : (MIN_POSITIVE : α) ≤ 1 := by
  unfold MIN_POSITIVE
  rw [div_le_one (by positivity)]
  exact one_le_pow₀ (by norm_num)

/-- The length norm, where the floor on it does not matter. -/
theorem max_norm {tf : Nat} (htf : 0 < tf) {x : α} (hx : 0 ≤ x) :
    max ((tf : α) + BM25_K1 * (1 - BM25_B + x)) MIN_POSITIVE = (tf : α) + BM25_K1 * (1 - BM25_B + x) :=
  max_eq_left (le_trans min_positive_le_one (le_of_lt (one_lt_norm htf hx)))

/-- The length term is not negative. -/
theorem lengthTerm_nonneg (avgdl : α) (dl : Nat) : 0 ≤ BM25_B * (dl : α) / max avgdl 1 := by
  have hpos : (0 : α) < max avgdl 1 := lt_of_lt_of_le one_pos (le_max_right _ _)
  unfold BM25_B
  positivity

variable {idf : α} (hidf : 0 < idf)

include hidf

/-- A term that occurs contributes. -/
theorem contribution_pos (avgdl : α) {tf : Nat} (htf : 0 < tf) (dl : Nat) :
    0 < contribution idf avgdl tf dl := by
  have hnorm := one_lt_norm htf (lengthTerm_nonneg avgdl dl)
  unfold contribution
  rw [max_norm htf (lengthTerm_nonneg avgdl dl)]
  have htf' : (0 : α) < tf := by exact_mod_cast htf
  have hk : (0 : α) < BM25_K1 + 1 := by
    unfold BM25_K1
    norm_num
  exact div_pos (by positivity) (lt_trans one_pos hnorm)

/-- The bound of a frequency, over the shortest document. -/
theorem boundContribution_eq {tf : Nat} (htf : 0 < tf) :
    boundContribution idf tf = idf * ((tf : α) * (BM25_K1 + 1)) / ((tf : α) + BM25_K1 * (1 - BM25_B + 0)) := by
  unfold boundContribution
  have h := max_norm htf (le_refl (0 : α))
  rw [add_zero] at h ⊢
  rw [h]

/-- The bound: a longer document scores less. -/
theorem contribution_le_bound (avgdl : α) {tf : Nat} (htf : 0 < tf) (dl : Nat) :
    contribution idf avgdl tf dl ≤ boundContribution idf tf := by
  have h0 := one_lt_norm htf (le_refl (0 : α))
  have hx := lengthTerm_nonneg avgdl dl
  have htf' : (0 : α) < tf := by exact_mod_cast htf
  have hk : (0 : α) < BM25_K1 := by
    unfold BM25_K1
    norm_num
  unfold contribution
  rw [max_norm htf hx, boundContribution_eq hidf htf]
  refine div_le_div_of_nonneg_left (by positivity) (lt_trans one_pos h0) ?_
  have := mul_le_mul_of_nonneg_left hx (le_of_lt hk)
  rw [mul_add, mul_add] at *
  linarith

/-- The bound grows with the frequency. -/
theorem boundContribution_mono {tf tf' : Nat} (htf : 0 < tf) (hle : tf ≤ tf') :
    boundContribution idf tf ≤ boundContribution idf tf' := by
  have h0 := one_lt_norm htf (le_refl (0 : α))
  have h0' := one_lt_norm (lt_of_lt_of_le htf hle) (le_refl (0 : α))
  have hc : (0 : α) ≤ BM25_K1 * (1 - BM25_B + 0) := by
    unfold BM25_K1 BM25_B
    norm_num
  have hk : (0 : α) < BM25_K1 + 1 := by
    unfold BM25_K1
    norm_num
  have hle' : (tf : α) ≤ tf' := by exact_mod_cast hle
  rw [boundContribution_eq hidf htf, boundContribution_eq hidf (lt_of_lt_of_le htf hle)]
  generalize (BM25_K1 : α) * (1 - BM25_B + 0) = c at *
  rw [div_le_div_iff₀ (lt_trans one_pos h0) (lt_trans one_pos h0')]
  have h1 : (tf : α) * c ≤ tf' * c := mul_le_mul_of_nonneg_right hle' hc
  have h2 : (tf : α) * (tf' + c) ≤ tf' * (tf + c) := by linarith
  calc idf * ((tf : α) * (BM25_K1 + 1)) * (tf' + c)
      = idf * (BM25_K1 + 1) * ((tf : α) * (tf' + c)) := by ring
    _ ≤ idf * (BM25_K1 + 1) * ((tf' : α) * (tf + c)) :=
        mul_le_mul_of_nonneg_left h2 (by positivity)
    _ = idf * ((tf' : α) * (BM25_K1 + 1)) * (tf + c) := by ring

end Contribution

/-! ## The order of hits -/

section Order

variable {α : Type} [LinearOrder α]

instance : LinearOrder (Hit α) where
  le := Hit.le
  le_refl := fun a => Or.inr ⟨rfl, le_refl _⟩
  le_trans := by
    rintro a b c (h1 | ⟨h1, h1'⟩) (h2 | ⟨h2, h2'⟩)
    · exact Or.inl (lt_trans h2 h1)
    · exact Or.inl (h2 ▸ h1)
    · exact Or.inl (h1 ▸ h2)
    · exact Or.inr ⟨h1.trans h2, le_trans h1' h2'⟩
  le_antisymm := by
    rintro a b (h1 | ⟨h1, h1'⟩) (h2 | ⟨h2, h2'⟩)
    · exact absurd h1 (lt_asymm h2)
    · rw [h2] at h1
      exact absurd h1 (lt_irrefl _)
    · rw [h1] at h2
      exact absurd h2 (lt_irrefl _)
    · cases a
      cases b
      rw [Hit.mk.injEq]
      exact ⟨le_antisymm h1' h2', h1⟩
  le_total := by
    intro a b
    rcases lt_trichotomy a.score b.score with h | h | h
    · exact Or.inr (Or.inl h)
    · rcases le_total a.recordId b.recordId with h' | h'
      · exact Or.inl (Or.inr ⟨h, h'⟩)
      · exact Or.inr (Or.inr ⟨h.symm, h'⟩)
    · exact Or.inl (Or.inl h)
  toDecidableLE := inferInstanceAs (DecidableRel (@Hit.le α _))

/-- Hits are in the order of score, then id. -/
theorem Hit.lt_iff {a b : Hit α} :
    a < b ↔ b.score < a.score ∨ a.score = b.score ∧ a.recordId < b.recordId := by
  rw [lt_iff_le_not_ge]
  show Hit.le a b ∧ ¬ Hit.le b a ↔ _
  unfold Hit.le
  constructor
  · rintro ⟨h1 | ⟨h1, h1'⟩, h2⟩
    · exact Or.inl h1
    · refine Or.inr ⟨h1, ?_⟩
      rw [not_or] at h2
      by_contra hnot
      exact h2.2 ⟨h1.symm, not_lt.mp hnot⟩
  · rintro (h1 | ⟨h1, h1'⟩)
    · refine ⟨Or.inl h1, ?_⟩
      rintro (h2 | ⟨h2, _⟩)
      · exact lt_asymm h1 h2
      · rw [h2] at h1
        exact lt_irrefl _ h1
    · refine ⟨Or.inr ⟨h1, le_of_lt h1'⟩, ?_⟩
      rintro (h2 | ⟨_, h2⟩)
      · rw [h1] at h2
        exact lt_irrefl _ h2
      · exact absurd h1' (not_lt.mpr h2)

theorem Hit.score_le_of_lt {a b : Hit α} (h : a < b) : b.score ≤ a.score := by
  rcases Hit.lt_iff.mp h with h | ⟨h, _⟩
  · exact le_of_lt h
  · exact le_of_eq h.symm

/-- Keeping the best hits is inserting into the top. -/
theorem insertHit_eq (k : Nat) (hit : Hit α) (hits : List (Hit α)) :
    insertHit k hit hits = TopK.insert k hit hits := by
  have hpred : (fun h : Hit α =>
      decide (hit.score < h.score ∨ h.score = hit.score ∧ h.recordId < hit.recordId)) =
      fun h => decide (h < hit) := by
    funext h
    rw [decide_eq_decide, Hit.lt_iff]
  unfold insertHit TopK.insert
  rw [hpred]

end Order

/-! ## Sums over the matched terms -/

section Sums

variable {α : Type} [Field α] [LinearOrder α] {terms : List (α × List Posting)}

/-- What the searches rely on: positive weights, ascending ids, frequencies from one on. -/
def TermsOk (terms : List (α × List Posting)) : Prop :=
  ∀ term ∈ terms, 0 < term.1 ∧ Sorted term.2 ∧ ∀ p ∈ term.2, 0 < p.2

/-- Some matched term occurs in the document. -/
def hasTerm (terms : List (α × List Posting)) (id : Ulid) : Bool :=
  terms.any fun term => (find id term.2).isSome

/-- The terms of a document added up in order, from `s` on. -/
def sumFrom (f : α → Nat → α) (terms : List (α × List Posting)) (id : Ulid) (s : α) : α :=
  terms.foldl (fun score term =>
    match find id term.2 with
    | none => score
    | some tf => score + f term.1 tf) s

theorem exactScore_eq (avgdl : α) (id : Ulid) (dl : Nat) :
    exactScore terms avgdl id dl = sumFrom (fun idf tf => contribution idf avgdl tf dl) terms id 0 := rfl

theorem sumFrom_cons (f : α → Nat → α) (term : α × List Posting) (id : Ulid) (s : α) :
    sumFrom f (term :: terms) id s = sumFrom f terms id
      (match find id term.2 with
        | none => s
        | some tf => s + f term.1 tf) := rfl

theorem hasTerm_cons (term : α × List Posting) (id : Ulid) :
    hasTerm (term :: terms) id = ((find id term.2).isSome || hasTerm terms id) := rfl

/-- A document without any of the terms scores nothing. -/
theorem sumFrom_eq_self (f : α → Nat → α) {id : Ulid} (h : hasTerm terms id = false) (s : α) :
    sumFrom f terms id s = s := by
  induction terms generalizing s with
  | nil => rfl
  | cons term terms ih =>
      rw [hasTerm_cons, Bool.or_eq_false_iff] at h
      have hnone : find id term.2 = none := by simpa using h.1
      rw [sumFrom_cons, hnone]
      exact ih h.2 s

/-- Accumulating one list adds one contribution to each of its ids. -/
theorem find_accumulate (f : Nat → α) {entries : List Posting} (hnd : (entries.map Prod.fst).Nodup)
    (m : List (Ulid × α)) (id : Ulid) :
    find id (entries.foldl (fun m p => accumulate m p.1 (f p.2)) m) =
      match find id entries with
      | none => find id m
      | some tf => some ((find id m).getD 0 + f tf) := by
  induction entries generalizing m with
  | nil => rfl
  | cons p entries ih =>
      obtain ⟨id', tf⟩ := p
      rw [List.map_cons, List.nodup_cons] at hnd
      rw [List.foldl_cons, ih hnd.2]
      by_cases hid : id = id'
      · subst hid
        have hnone : find id entries = none := by
          rw [find_eq_none]
          intro e he heq
          exact hnd.1 (List.mem_map.mpr ⟨e, he, heq⟩)
        simp [hnone, find, accumulate]
      · have hother : find id (accumulate m id' (f tf)) = find id m := find_insertKey_ne hid _ _
        simp [hother, find, hid]

/-- The bound of a document is the sum of its terms' bounds. -/
theorem find_candidateBounds (h : TermsOk terms) (id : Ulid) :
    find id (candidateBounds terms) =
      if hasTerm terms id then some (sumFrom boundContribution terms id 0) else none := by
  -- from any accumulator, by induction on the terms
  have hgen : ∀ (ts : List (α × List Posting)) (m : List (Ulid × α)), TermsOk ts →
      find id (ts.foldl (fun bounds term => term.2.foldl (fun bounds p =>
        accumulate bounds p.1 (boundContribution term.1 p.2)) bounds) m) =
      if hasTerm ts id then some (sumFrom boundContribution ts id ((find id m).getD 0)) else find id m := by
    intro ts
    induction ts with
    | nil => intro m _; rfl
    | cons term ts ih =>
        intro m hts
        have hnd := (hts term List.mem_cons_self).2.1.nodup_keys
        rw [List.foldl_cons, ih _ fun t ht => hts t (List.mem_cons_of_mem _ ht),
          find_accumulate (boundContribution term.1) hnd, hasTerm_cons, sumFrom_cons]
        cases find id term.2 with
        | none => simp
        | some tf =>
            simp only [Option.isSome_some, Bool.true_or, if_true, Option.getD_some]
            split
            · rfl
            · rename_i hno
              rw [sumFrom_eq_self _ (by simpa using hno)]
  have := hgen terms [] h
  simpa [candidateBounds] using this

theorem sorted_accumulate (m : List (Ulid × α)) (hm : Sorted m) (id : Ulid) (x : α) :
    Sorted (accumulate m id x) := sorted_insertKey hm

/-- The candidates ascend. -/
theorem sorted_candidateBounds (terms : List (α × List Posting)) : Sorted (candidateBounds terms) := by
  have hinner : ∀ (idf : α) (entries : List Posting) (m : List (Ulid × α)), Sorted m →
      Sorted (entries.foldl (fun m p => accumulate m p.1 (boundContribution idf p.2)) m) := by
    intro idf entries
    induction entries with
    | nil => intro m hm; exact hm
    | cons p entries ih => intro m hm; exact ih _ (sorted_accumulate m hm _ _)
  have houter : ∀ (ts : List (α × List Posting)) (m : List (Ulid × α)), Sorted m →
      Sorted (ts.foldl (fun bounds term => term.2.foldl (fun bounds p =>
        accumulate bounds p.1 (boundContribution term.1 p.2)) bounds) m) := by
    intro ts
    induction ts with
    | nil => intro m hm; exact hm
    | cons term ts ih => intro m hm; exact ih _ (hinner term.1 term.2 m hm)
  exact houter terms [] List.Pairwise.nil

variable [IsStrictOrderedRing α]

/-- Larger shares make larger sums. -/
theorem sumFrom_le {f g : α → Nat → α} {id : Ulid} (h : TermsOk terms)
    (hfg : ∀ idf tf, 0 < idf → 0 < tf → f idf tf ≤ g idf tf) {s s' : α} (hs : s ≤ s') :
    sumFrom f terms id s ≤ sumFrom g terms id s' := by
  induction terms generalizing s s' with
  | nil => exact hs
  | cons term terms ih =>
      obtain ⟨hidf, _, htf⟩ := h term List.mem_cons_self
      rw [sumFrom_cons, sumFrom_cons]
      refine ih (fun t ht => h t (List.mem_cons_of_mem _ ht)) ?_
      cases hf : find id term.2 with
      | none => exact hs
      | some tf => exact add_le_add hs (hfg _ _ hidf (htf (id, tf) (mem_of_find hf)))

/-- Sums of positive shares grow. -/
theorem le_sumFrom {f : α → Nat → α} {id : Ulid} (h : TermsOk terms)
    (hf : ∀ idf tf, 0 < idf → 0 < tf → 0 < f idf tf) (s : α) : s ≤ sumFrom f terms id s := by
  induction terms generalizing s with
  | nil => exact le_refl s
  | cons term terms ih =>
      obtain ⟨hidf, _, htf⟩ := h term List.mem_cons_self
      rw [sumFrom_cons]
      refine le_trans ?_ (ih (fun t ht => h t (List.mem_cons_of_mem _ ht)) _)
      cases hfind : find id term.2 with
      | none => exact le_refl s
      | some tf => exact le_add_of_nonneg_right (le_of_lt (hf _ _ hidf (htf (id, tf) (mem_of_find hfind))))

/-- A document with one of the terms scores. -/
theorem sumFrom_pos {f : α → Nat → α} {id : Ulid} (h : TermsOk terms)
    (hf : ∀ idf tf, 0 < idf → 0 < tf → 0 < f idf tf) (hid : hasTerm terms id = true) {s : α}
    (hs : 0 ≤ s) : 0 < sumFrom f terms id s := by
  induction terms generalizing s with
  | nil => cases hid
  | cons term terms ih =>
      obtain ⟨hidf, _, htf⟩ := h term List.mem_cons_self
      have hrest : TermsOk terms := fun t ht => h t (List.mem_cons_of_mem _ ht)
      rw [hasTerm_cons, Bool.or_eq_true] at hid
      rw [sumFrom_cons]
      cases hfind : find id term.2 with
      | none =>
          rw [hfind] at hid
          exact ih hrest (hid.resolve_left (by simp)) hs
      | some tf =>
          have hpos := hf _ _ hidf (htf (id, tf) (mem_of_find hfind))
          exact lt_of_lt_of_le (add_pos_of_nonneg_of_pos hs hpos) (le_sumFrom hrest hf _)

/-- So does its exact score. -/
theorem exactScore_pos (h : TermsOk terms) (avgdl : α) {id : Ulid} (hid : hasTerm terms id = true)
    (dl : Nat) : 0 < exactScore terms avgdl id dl := by
  rw [exactScore_eq]
  exact sumFrom_pos h (fun _ _ hidf htf => contribution_pos hidf avgdl htf dl) hid (le_refl 0)

/-- The exact score is below the bound. -/
theorem exactScore_le_bound (h : TermsOk terms) (avgdl : α) (id : Ulid) (dl : Nat) :
    exactScore terms avgdl id dl ≤ sumFrom boundContribution terms id 0 := by
  rw [exactScore_eq]
  exact sumFrom_le h (fun _ _ hidf htf => contribution_le_bound hidf avgdl htf dl) (le_refl 0)

end Sums

/-! ## The hits of a query -/

section Scans

variable {α : Type} [Field α] [LinearOrder α] {terms : List (α × List Posting)} {avgdl : α}

/-- The hits a search ranks. -/
def Matches (terms : List (α × List Posting)) (avgdl : α) (keep : Ulid → Bool)
    (docLen : Ulid → Except Error (Option Nat)) (h : Hit α) : Prop :=
  keep h.recordId = true ∧ hasTerm terms h.recordId = true ∧
    ∃ dl, docLen h.recordId = .ok (some dl) ∧ h.score = exactScore terms avgdl h.recordId dl

/-- A document matches with one score. -/
theorem Matches.score_unique {keep : Ulid → Bool} {docLen : Ulid → Except Error (Option Nat)}
    {a b : Hit α} (ha : Matches terms avgdl keep docLen a) (hb : Matches terms avgdl keep docLen b)
    (h : a.recordId = b.recordId) : a = b := by
  obtain ⟨_, _, dl, hdl, hscore⟩ := ha
  obtain ⟨_, _, dl', hdl', hscore'⟩ := hb
  rw [h, hdl'] at hdl
  cases hdl
  cases a
  cases b
  simp only at h hscore hscore'
  subst h
  rw [hscore, hscore']

/-! ### The linear scan -/

section Linear

variable [IsStrictOrderedRing α] {keep : Ulid → Bool} {docLen : Ulid → Except Error (Option Nat)} {k : Nat}

/-- The hits of the documents in `done`. -/
def HitsOf (terms : List (α × List Posting)) (avgdl : α) (keep : Ulid → Bool)
    (docLen : Ulid → Except Error (Option Nat)) (done : Ulid → Prop) (h : Hit α) : Prop :=
  Matches terms avgdl keep docLen h ∧ done h.recordId

/-- A document that is no hit leaves the top as it is. -/
theorem top_pass {done : Ulid → Prop} {hits : List (Hit α)} {id : Ulid}
    (htop : Top k (HitsOf terms avgdl keep docLen done) hits)
    (hno : ∀ h, Matches terms avgdl keep docLen h → h.recordId ≠ id) :
    Top k (HitsOf terms avgdl keep docLen fun x => done x ∨ x = id) hits := by
  refine htop.congr ?_
  intro h
  constructor
  · exact fun hm => ⟨hm.1, Or.inl hm.2⟩
  · rintro ⟨hm, h1 | h1⟩
    · exact ⟨hm, h1⟩
    · exact absurd h1 (hno h hm)

/-- A hit is inserted. -/
theorem top_hit {done : Ulid → Prop} {hits : List (Hit α)} {x : Hit α} (hk : 0 < k)
    (htop : Top k (HitsOf terms avgdl keep docLen done) hits) (hm : Matches terms avgdl keep docLen x)
    (hnew : ¬ done x.recordId) :
    Top k (HitsOf terms avgdl keep docLen fun id => done id ∨ id = x.recordId) (insertHit k x hits) := by
  rw [insertHit_eq]
  refine (htop.insert (x := x) ?_).congr ?_
  · rintro ⟨_, h1⟩
    exact hnew h1
  · intro h
    constructor
    · rintro (h1 | rfl)
      · exact ⟨h1.1, Or.inl h1.2⟩
      · exact ⟨hm, Or.inr rfl⟩
    · rintro ⟨h1, h2 | h2⟩
      · exact Or.inl ⟨h1, h2⟩
      · exact Or.inr (h1.score_unique hm h2)

/-- The scan may stop where every document that is left scores less than the last hit. -/
theorem top_stop {done : Ulid → Prop} {hits : List (Hit α)} {last : Hit α}
    (htop : Top k (HitsOf terms avgdl keep docLen done) hits) (hfull : hits.length = k)
    (hget : hits[k - 1]? = some last)
    (hleft : ∀ h, Matches terms avgdl keep docLen h → ¬ done h.recordId → h.score < last.score) :
    Top k (Matches terms avgdl keep docLen) hits := by
  refine (htop.skip (T := fun h => Matches terms avgdl keep docLen h ∧ ¬ done h.recordId) ?_).congr ?_
  · rintro h ⟨hm, hnot⟩
    refine ⟨hfull, ?_⟩
    intro x hx
    have hxlast : last.score ≤ x.score := by
      -- hits are in order and `last` is the last of them
      obtain ⟨i, hi, rfl⟩ := List.mem_iff_getElem.mp hx
      obtain ⟨hj, rfl⟩ := List.getElem?_eq_some_iff.mp hget
      rcases lt_or_eq_of_le (show i ≤ k - 1 by omega) with hlt | rfl
      · exact Hit.score_le_of_lt (List.pairwise_iff_getElem.mp htop.sorted i (k - 1) hi hj hlt)
      · exact le_refl _
    rw [Hit.lt_iff]
    exact Or.inl (lt_of_lt_of_le (hleft h hm hnot) hxlast)
  · intro h
    constructor
    · rintro (h1 | h1)
      · exact h1.1
      · exact h1.1
    · intro hm
      by_cases hd : done h.recordId
      · exact Or.inl ⟨hm, hd⟩
      · exact Or.inr ⟨hm, hd⟩

/-- What a scan knows of the candidates that are left, in order of falling bound: they are the documents with a term that
are not done. -/
structure ScanAt (terms : List (α × List Posting)) (keep : Ulid → Bool) (docLen : Ulid → Except Error (Option Nat))
    (done : Ulid → Prop) (cs : List (Hit α)) : Prop where
  sorted : cs.Pairwise (· < ·)
  nodup : (cs.map Hit.recordId).Nodup
  bound : ∀ c ∈ cs, c.score = sumFrom boundContribution terms c.recordId 0
  length : ∀ c ∈ cs, keep c.recordId = true → ∃ o, docLen c.recordId = .ok o
  term : ∀ c ∈ cs, hasTerm terms c.recordId = true
  part : ∀ id, hasTerm terms id = true → done id ∨ ∃ c ∈ cs, c.recordId = id
  left : ∀ c ∈ cs, ¬ done c.recordId

/-- One candidate is done. -/
theorem ScanAt.tail {done : Ulid → Prop} {c : Hit α} {cs : List (Hit α)}
    (h : ScanAt terms keep docLen done (c :: cs)) : ScanAt terms keep docLen (fun x => done x ∨ x = c.recordId) cs := by
  have hnd := h.nodup
  rw [List.map_cons, List.nodup_cons] at hnd
  constructor
  case sorted => exact (List.pairwise_cons.mp h.sorted).2
  case nodup => exact hnd.2
  case bound => exact fun c hc => h.bound c (List.mem_cons_of_mem _ hc)
  case length => exact fun c hc => h.length c (List.mem_cons_of_mem _ hc)
  case term => exact fun c hc => h.term c (List.mem_cons_of_mem _ hc)
  case part =>
    intro x hx
    rcases h.part x hx with h1 | ⟨c, hc, rfl⟩
    · exact Or.inl (Or.inl h1)
    · rcases List.mem_cons.mp hc with rfl | hc
      · exact Or.inl (Or.inr rfl)
      · exact Or.inr ⟨c, hc, rfl⟩
  case left =>
    rintro c hc (h1 | h1)
    · exact h.left c (List.mem_cons_of_mem _ hc) h1
    · exact hnd.1 (List.mem_map.mpr ⟨c, hc, h1⟩)

/-- No document that is left scores more than the bound of the first candidate. -/
theorem ScanAt.score_le {done : Ulid → Prop} {c : Hit α} {cs : List (Hit α)}
    (h : ScanAt terms keep docLen done (c :: cs)) (hterms : TermsOk terms) {x : Hit α}
    (hm : Matches terms avgdl keep docLen x) (hnot : ¬ done x.recordId) : x.score ≤ c.score := by
  obtain ⟨_, hhas, dl, _, hs⟩ := hm
  have hle := exactScore_le_bound hterms avgdl x.recordId dl
  rcases h.part x.recordId hhas with h1 | ⟨c', hc', hid⟩
  · exact absurd h1 hnot
  · have hfirst : c'.score ≤ c.score := by
      rcases List.mem_cons.mp hc' with rfl | hc'
      · exact le_refl _
      · exact Hit.score_le_of_lt ((List.pairwise_cons.mp h.sorted).1 c' hc')
    rw [h.bound c' hc', hid] at hfirst
    rw [hs]
    exact le_trans hle hfirst

/-- Pass 2 from any point: the hits of the candidates behind are in `hits`, and the
candidates to come are in order of falling bound. -/
theorem scanCandidates_top (hk : 0 < k) (hterms : TermsOk terms) (done : Ulid → Prop) (cs hits : List (Hit α))
    (hscan : ScanAt terms keep docLen done cs) (htop : Top k (HitsOf terms avgdl keep docLen done) hits) :
    ∃ r, scanCandidates terms avgdl k keep docLen cs hits = .ok r ∧
      Top k (Matches terms avgdl keep docLen) r := by
  induction cs generalizing hits done with
  | nil =>
      refine ⟨hits, rfl, htop.congr ?_⟩
      intro h
      constructor
      · exact fun hm => hm.1
      · intro hm
        refine ⟨hm, ?_⟩
        rcases hscan.part h.recordId hm.2.1 with h1 | ⟨c, hc, _⟩
        · exact h1
        · cases hc
  | cons c cs ih =>
      have hrest := fun hits' htop' => ih (fun x => done x ∨ x = c.recordId) hits' hscan.tail htop'
      have hfirst : c ∈ c :: cs := List.mem_cons_self
      unfold scanCandidates
      dsimp only
      split
      · -- the bound is below the last hit, and so is the score of every candidate left
        rename_i hstop
        obtain ⟨hfull, hlast⟩ := hstop
        rw [Option.any_eq_true] at hlast
        obtain ⟨last, hget, hlt⟩ := hlast
        refine ⟨hits, rfl, top_stop htop hfull hget ?_⟩
        intro h hm hnot
        exact lt_of_le_of_lt (hscan.score_le hterms hm hnot) (by simpa using hlt)
      · split
        · -- the filter refuses it
          rename_i hkeep
          refine hrest hits (top_pass htop ?_)
          rintro h hm heq
          simp [← heq, hm.1] at hkeep
        · rename_i hkeep
          have hkeep' : keep c.recordId = true := by simpa using hkeep
          obtain ⟨o, ho⟩ := hscan.length c hfirst hkeep'
          rw [ho, ok_bind]
          cases o with
          | none =>
              -- a document without a length is no hit
              refine hrest hits (top_pass htop ?_)
              rintro h ⟨_, _, dl, hdl, _⟩ heq
              rw [heq, ho] at hdl
              cases hdl
          | some dl =>
              have hhas := hscan.term c hfirst
              have hpos := exactScore_pos hterms avgdl hhas dl
              have hm : Matches terms avgdl keep docLen ⟨c.recordId, exactScore terms avgdl c.recordId dl⟩ :=
                ⟨hkeep', hhas, dl, ho, rfl⟩
              simp only [not_le.mpr hpos, if_false]
              exact hrest _ (top_hit hk htop hm (hscan.left c hfirst))

/-- The candidates are the documents with a term, with their bounds. -/
theorem mem_candidates (hterms : TermsOk terms) (c : Hit α) :
    c ∈ ((candidateBounds terms).map fun c => (⟨c.1, c.2⟩ : Hit α)).insertionSort Hit.le ↔
      hasTerm terms c.recordId = true ∧ c.score = sumFrom boundContribution terms c.recordId 0 := by
  have hmem : c ∈ ((candidateBounds terms).map fun c => (⟨c.1, c.2⟩ : Hit α)) ↔
      find c.recordId (candidateBounds terms) = some c.score := by
    constructor
    · intro h
      obtain ⟨⟨id, x⟩, hx, rfl⟩ := List.mem_map.mp h
      exact find_of_mem (sorted_candidateBounds terms).nodup_keys hx
    · intro h
      exact List.mem_map.mpr ⟨(c.recordId, c.score), mem_of_find h, rfl⟩
  rw [List.mem_insertionSort, hmem, find_candidateBounds hterms]
  split
  · rename_i h
    simp [h, eq_comm]
  · rename_i h
    simp [h]

/-- The linear scan over the matched terms. -/
theorem linear_top (hk : 0 < k) (hterms : TermsOk terms)
    (hdoc : ∀ id, hasTerm terms id = true → keep id = true → ∃ o, docLen id = .ok o) :
    ∃ r, scanCandidates terms avgdl k keep docLen
        (((candidateBounds terms).map fun c => (⟨c.1, c.2⟩ : Hit α)).insertionSort Hit.le) [] = .ok r ∧
      Top k (Matches terms avgdl keep docLen) r := by
  have hids : ((((candidateBounds terms).map fun c => (⟨c.1, c.2⟩ : Hit α)).insertionSort Hit.le).map
      Hit.recordId).Nodup := by
    rw [((List.perm_insertionSort _ _).map Hit.recordId).nodup_iff, List.map_map]
    exact (sorted_candidateBounds terms).nodup_keys
  have hsorted : (((candidateBounds terms).map fun c => (⟨c.1, c.2⟩ : Hit α)).insertionSort
      Hit.le).Pairwise (· < ·) := by
    have hle : (((candidateBounds terms).map fun c => (⟨c.1, c.2⟩ : Hit α)).insertionSort
        Hit.le).Pairwise (· ≤ ·) := List.pairwise_insertionSort _ _
    refine (hle.and hids.of_map).imp ?_
    rintro a b ⟨h1, h2⟩
    exact lt_of_le_of_ne h1 h2
  refine scanCandidates_top hk hterms (fun _ => False) _ [] ?_ (top_nil.congr (by simp [HitsOf]))
  constructor
  case sorted => exact hsorted
  case nodup => exact hids
  case bound => exact fun c hc => ((mem_candidates hterms c).mp hc).2
  case length => exact fun c hc => hdoc c.recordId ((mem_candidates hterms c).mp hc).1
  case term => exact fun c hc => ((mem_candidates hterms c).mp hc).1
  case part =>
    intro id hid
    exact Or.inr ⟨⟨id, sumFrom boundContribution terms id 0⟩, (mem_candidates hterms _).mpr ⟨hid, rfl⟩, rfl⟩
  case left => exact fun _ _ h => h

end Linear

/-! ### The exhaustive scan -/

section Exhaustive

variable {keep : Ulid → KeepOutcome} {docLen : Ulid → Except Error (Option Nat)}

/-- The length of a document that is kept and has one. -/
def live (keep : Ulid → KeepOutcome) (docLen : Ulid → Except Error (Option Nat)) (id : Ulid) : Option Nat :=
  if keep id = .accepted then
    match docLen id with
    | .ok o => o
    | .error _ => none
  else none

/-- When a document counts. -/
theorem live_eq_some {id : Ulid} {dl : Nat} :
    live keep docLen id = some dl ↔ keep id = .accepted ∧ docLen id = .ok (some dl) := by
  unfold live
  by_cases hk : keep id = .accepted
  · rw [if_pos hk]
    cases hd : docLen id with
    | error e => simp
    | ok o => simp [hk]
  · simp [hk]

/-- What scoring one list does to the scores of a document. -/
def addScore (f : Nat → Nat → α) (entries : List Posting) (id : Ulid) (dl : Option Nat) (s : Option α) :
    Option α :=
  match dl, find id entries with
  | some dl, some tf => some (s.getD 0 + f tf dl)
  | _, _ => s

/-- Scoring the postings of one term. -/
theorem scorePostings_ok {idf : α} {entries : List Posting} (hnd : (entries.map Prod.fst).Nodup)
    {scores r : List (Ulid × α)} (h : scorePostings idf avgdl keep docLen entries scores = .ok r) :
    (∀ id, find id r = addScore (contribution idf avgdl) entries id (live keep docLen id) (find id scores)) ∧
    (∀ p ∈ entries, keep p.1 = .accepted → ∃ o, docLen p.1 = .ok o) ∧ (Sorted scores → Sorted r) := by
  induction entries generalizing scores with
  | nil =>
      cases h
      refine ⟨?_, by simp, id⟩
      intro id
      unfold addScore
      cases live keep docLen id <;> rfl
  | cons p entries ih =>
      obtain ⟨id', tf⟩ := p
      rw [List.map_cons, List.nodup_cons] at hnd
      have hnone : find id' entries = none := by
        rw [find_eq_none]
        intro e he heq
        exact hnd.1 (List.mem_map.mpr ⟨e, he, heq⟩)
      -- an entry of a document without a length changes nothing
      have hdead : live keep docLen id' = none →
          (∀ id, find id r = addScore (contribution idf avgdl) entries id (live keep docLen id)
            (find id scores)) →
          ∀ id, find id r = addScore (contribution idf avgdl) ((id', tf) :: entries) id
            (live keep docLen id) (find id scores) := by
        intro hl hr id
        rw [hr id]
        by_cases hid : id = id'
        · subst hid
          rw [hl]
          rfl
        · simp [addScore, find, hid]
      unfold scorePostings at h
      split at h
      · rename_i hk
        obtain ⟨h1, h2, h3⟩ := ih hnd.2 h
        refine ⟨hdead (by simp [live, hk]) h1, ?_, h3⟩
        intro p hp hkp
        rcases List.mem_cons.mp hp with rfl | hp
        · exact absurd hkp hk
        · exact h2 p hp hkp
      · rename_i hk
        have hk' : keep id' = .accepted := by simpa using hk
        cases hd : docLen id' with
        | error e =>
            rw [hd] at h
            cases h
        | ok o =>
            rw [hd, ok_bind] at h
            have hall : (∀ p ∈ entries, keep p.1 = .accepted → ∃ o, docLen p.1 = .ok o) →
                ∀ p ∈ (id', tf) :: entries, keep p.1 = .accepted → ∃ o, docLen p.1 = .ok o := by
              intro h2 p hp hkp
              rcases List.mem_cons.mp hp with rfl | hp
              · exact ⟨o, hd⟩
              · exact h2 p hp hkp
            cases o with
            | none =>
                obtain ⟨h1, h2, h3⟩ := ih hnd.2 h
                exact ⟨hdead (by simp [live, hk', hd]) h1, hall h2, h3⟩
            | some dl =>
                obtain ⟨h1, h2, h3⟩ := ih hnd.2 h
                have hl : live keep docLen id' = some dl := live_eq_some.mpr ⟨hk', hd⟩
                refine ⟨?_, hall h2, fun hs => h3 (sorted_accumulate scores hs _ _)⟩
                intro id
                rw [h1 id]
                by_cases hid : id = id'
                · subst hid
                  simp [addScore, hl, hnone, find, accumulate]
                · have hother : find id (accumulate scores id' (contribution idf avgdl tf dl)) =
                      find id scores := find_insertKey_ne hid _ _
                  simp [addScore, find, hid, hother]

/-- Scoring a list fails only where `doc_len` does. -/
theorem scorePostings_isOk (hdoc : ∀ id, ∃ o, docLen id = .ok o) (idf : α) (entries : List Posting)
    (scores : List (Ulid × α)) : ∃ r, scorePostings idf avgdl keep docLen entries scores = .ok r := by
  induction entries generalizing scores with
  | nil => exact ⟨scores, rfl⟩
  | cons p entries ih =>
      obtain ⟨id, tf⟩ := p
      unfold scorePostings
      split
      · exact ih scores
      · obtain ⟨o, ho⟩ := hdoc id
        rw [ho, ok_bind]
        cases o with
        | none => exact ih scores
        | some dl => exact ih _

end Exhaustive

section Terms

variable {H : Xxh3} {I : Idf α} {src : PageSource} {stats : FtsMeta} {keep : Ulid → KeepOutcome}
  {docLen : Ulid → Except Error (Option Nat)}

/-- The scores after all terms, from the scores before. -/
theorem scoreTerms_ok (hsorted : ∀ term entries, postingsFor H src stats.dictRoot term = .ok (some entries) →
      Sorted entries) (qs : List Bytes) {scores r : List (Ulid × α)}
    (h : scoreTerms H I src stats keep docLen qs scores = .ok r) :
    ∃ terms, matchTerms H I src stats qs = .ok terms ∧
      (∀ id, find id r = match live keep docLen id with
        | none => find id scores
        | some dl => if hasTerm terms id then
            some (sumFrom (fun idf tf => contribution idf (Fts.avgdl stats) tf dl) terms id
              ((find id scores).getD 0)) else find id scores) ∧
      (∀ id, hasTerm terms id = true → keep id = .accepted → ∃ o, docLen id = .ok o) ∧
      (Sorted scores → Sorted r) := by
  induction qs generalizing scores with
  | nil =>
      cases h
      refine ⟨[], rfl, ?_, by simp [hasTerm], id⟩
      intro id
      cases live keep docLen id <;> rfl
  | cons q qs ih =>
      unfold scoreTerms at h
      unfold matchTerms
      cases hp : postingsFor H src stats.dictRoot q with
      | error e =>
          rw [hp] at h
          cases h
      | ok postings =>
          rw [hp, ok_bind] at h
          -- a term without postings, or with too many, is passed over by both
          cases postings with
          | none =>
              obtain ⟨terms, h1, h2⟩ := ih h
              exact ⟨terms, by simp only [ok_bind, h1], h2⟩
          | some entries =>
              simp only at h
              split at h
              · rename_i hlen
                obtain ⟨terms, h1, h2⟩ := ih h
                exact ⟨terms, by simp only [ok_bind, h1, hlen, if_true], h2⟩
              · rename_i hlen
                cases hs : scorePostings (I.weight stats.docCount entries.length) (Fts.avgdl stats) keep docLen
                    entries scores with
                | error e =>
                    rw [hs] at h
                    cases h
                | ok scores' =>
                    rw [hs, ok_bind] at h
                    -- its postings are added to the scores
                    obtain ⟨g1, g2, g3⟩ := scorePostings_ok (hsorted q entries hp).nodup_keys hs
                    obtain ⟨terms, h1, h2, h3, h4⟩ := ih h
                    refine ⟨(I.weight stats.docCount entries.length, entries) :: terms,
                      by simp only [ok_bind, h1, hlen, if_false], ?_, ?_, fun hsc => h4 (g3 hsc)⟩
                    · intro id
                      rw [h2 id, g1 id]
                      cases live keep docLen id with
                      | none => rfl
                      | some dl =>
                          simp only [hasTerm_cons, sumFrom_cons]
                          -- the share of the term is the first of the sum
                          rcases Option.eq_none_or_eq_some (find id entries) with hf | ⟨tf, hf⟩
                          · simp only [addScore, hf, Option.isSome_none, Bool.false_or]
                          · simp only [addScore, hf, Option.getD_some, Option.isSome_some, Bool.true_or,
                              if_true]
                            split
                            · rfl
                            · rename_i hno
                              rw [sumFrom_eq_self _ (by simpa using hno)]
                    · intro id hid hk
                      rw [hasTerm_cons, Bool.or_eq_true] at hid
                      rcases hid with hid | hid
                      · obtain ⟨tf, htf⟩ := Option.isSome_iff_exists.mp hid
                        exact g2 (id, tf) (mem_of_find htf) hk
                      · exact h3 id hid hk

/-- Where `doc_len` does not fail, scoring fails as reading the lists does. -/
theorem scoreTerms_isOk (I : Idf α) (keep : Ulid → KeepOutcome) (hdoc : ∀ id, ∃ o, docLen id = .ok o)
    (qs : List Bytes)
    (scores : List (Ulid × α)) :
    (∃ terms r, matchTerms H I src stats qs = .ok terms ∧
      scoreTerms H I src stats keep docLen qs scores = .ok r) ∨
    ∃ e, matchTerms H I src stats qs = .error e ∧
      scoreTerms H I src stats keep docLen qs scores = .error e := by
  induction qs generalizing scores with
  | nil => exact Or.inl ⟨[], scores, rfl, rfl⟩
  | cons q qs ih =>
      unfold matchTerms scoreTerms
      cases hp : postingsFor H src stats.dictRoot q with
      | error e => exact Or.inr ⟨e, rfl, rfl⟩
      | ok postings =>
          simp only [ok_bind]
          cases postings with
          | none =>
              rcases ih scores with ⟨terms, r, h1, h2⟩ | ⟨e, h1, h2⟩
              · exact Or.inl ⟨terms, r, by rw [h1, ok_bind], h2⟩
              · exact Or.inr ⟨e, by rw [h1]; rfl, h2⟩
          | some entries =>
              simp only
              split
              · rcases ih scores with ⟨terms, r, h1, h2⟩ | ⟨e, h1, h2⟩
                · exact Or.inl ⟨terms, r, by rw [h1, ok_bind], h2⟩
                · exact Or.inr ⟨e, by rw [h1]; rfl, h2⟩
              · obtain ⟨scores', hs⟩ := scorePostings_isOk hdoc
                  (I.weight stats.docCount entries.length) entries scores
                rw [hs, ok_bind]
                rcases ih scores' with ⟨terms, r, h1, h2⟩ | ⟨e, h1, h2⟩
                · exact Or.inl ⟨_, r, by rw [h1, ok_bind], h2⟩
                · exact Or.inr ⟨e, by rw [h1]; rfl, h2⟩

/-- The exhaustive scan sorts the hits. -/
theorem exhaustive_top [IsStrictOrderedRing α] {k : Nat} {qs : List Bytes} {scores : List (Ulid × α)}
    (hok : ∀ terms, matchTerms H I src stats qs = .ok terms → TermsOk terms)
    (hsorted : ∀ term entries, postingsFor H src stats.dictRoot term = .ok (some entries) → Sorted entries)
    (h : scoreTerms H I src stats keep docLen qs [] = .ok scores) :
    ∃ terms, matchTerms H I src stats qs = .ok terms ∧
      (∀ id, hasTerm terms id = true → decide (keep id = .accepted) = true → ∃ o, docLen id = .ok o) ∧
      Top k (Matches terms (Fts.avgdl stats) (fun id => decide (keep id = .accepted)) docLen)
        ((((scores.filter fun s => decide (0 < s.2)).map fun s => (⟨s.1, s.2⟩ : Hit α)).insertionSort
          Hit.le).take k) := by
  obtain ⟨terms, hm, hfind, hdoc, hs⟩ := scoreTerms_ok hsorted qs h
  refine ⟨terms, hm, fun id hid hk => hdoc id hid (by simpa using hk), ?_⟩
  have hnd : ((scores.filter fun s => decide (0 < s.2)).map fun s => (⟨s.1, s.2⟩ : Hit α)).Nodup := by
    have hkeys := (hs List.Pairwise.nil).nodup_keys
    have hsub : ((scores.filter fun s => decide (0 < s.2)).map Prod.fst).Nodup :=
      hkeys.sublist (List.filter_sublist.map _)
    refine List.Nodup.of_map Hit.recordId ?_
    rw [List.map_map]
    exact hsub
  refine (top_sort hnd).congr ?_
  intro x
  -- a score is there for the documents with a length and a matched term
  have hmem : x ∈ (scores.filter fun s => decide (0 < s.2)).map (fun s => (⟨s.1, s.2⟩ : Hit α)) ↔
      0 < x.score ∧ find x.recordId scores = some x.score := by
    constructor
    · intro hx
      obtain ⟨⟨id, v⟩, hv, rfl⟩ := List.mem_map.mp hx
      obtain ⟨hv1, hv2⟩ := List.mem_filter.mp hv
      exact ⟨by simpa using hv2, find_of_mem (hs List.Pairwise.nil).nodup_keys hv1⟩
    · rintro ⟨hpos, hx⟩
      exact List.mem_map.mpr ⟨(x.recordId, x.score),
        List.mem_filter.mpr ⟨mem_of_find hx, by simpa using hpos⟩, rfl⟩
  rw [hmem, hfind x.recordId]
  constructor
  · rintro ⟨_, hx⟩
    cases hl : live keep docLen x.recordId with
    | none =>
        rw [hl] at hx
        cases hx
    | some dl =>
        rw [hl] at hx
        simp only at hx
        split at hx
        · rename_i hhas
          obtain ⟨hk, hd⟩ := live_eq_some.mp hl
          exact ⟨by simpa using hk, hhas, dl, hd, by
            rw [exactScore_eq]
            exact (Option.some.inj hx).symm⟩
        · cases hx
  · rintro ⟨hk, hhas, dl, hd, hscore⟩
    have hl : live keep docLen x.recordId = some dl := live_eq_some.mpr ⟨by simpa using hk, hd⟩
    refine ⟨?_, ?_⟩
    · rw [hscore]
      exact exactScore_pos (hok terms hm) _ hhas dl
    · rw [hl]
      simp only [hhas, if_true, find, Option.getD_none]
      rw [hscore, exactScore_eq]

end Terms

end Scans

/-! ## The two searches on a built index -/

section Searches

variable {α : Type} [Field α] [LinearOrder α] {H : Xxh3} {U : Unicode} {src : PageSource} {root : Nat}
  {docs : Docs}

/-- A list that is read back: ascending, with positive frequencies, and no longer than
the number of documents. -/
theorem posting_ok {stats : FtsMeta} {ix : Index} {own : List Nat}
    (hat : At H src.pageSize src.formatVersion src.view root stats ix own) (ho : src.Owns own)
    (hcontent : Content U docs stats ix) {term : Bytes} {entries : List Posting}
    (h : postingsFor H src stats.dictRoot term = .ok (some entries)) :
    Sorted entries ∧ (∀ p ∈ entries, 0 < p.2) ∧ entries.length ≤ stats.docCount := by
  obtain ⟨ownD, hdict⟩ := hat.dict ho
  rcases postingsFor_of_holds hat.index_ok hdict term with ⟨hread, _⟩ | ⟨entries', page, hfind, hok, hread⟩
  · rw [hread] at h
    cases h
  · rw [hread] at h
    obtain ⟨hpos, heq⟩ := checked_ok page h
    cases heq
    refine ⟨hok.2.1, hpos, ?_⟩
    -- its ids are ids of documents, and its body is below 4 GiB
    have hids : entries.map Prod.fst ⊆ docs.map Prod.fst := by
      intro id hid
      obtain ⟨⟨id, tf⟩, he, rfl⟩ := List.mem_map.mp hid
      have hpost := hcontent.postings term id
      rw [hfind, Option.getD_some, find_of_mem hok.2.1.nodup_keys he] at hpost
      cases hd : find id docs with
      | none =>
          rw [tfOf, hd] at hpost
          cases hpost
      | some content => exact List.mem_map.mpr ⟨_, mem_of_find hd, rfl⟩
    have hdocs : entries.length ≤ docs.length := by
      have := (hok.2.1.nodup_keys.subperm hids).length_le
      simpa using this
    have hsmall : entries.length < 2 ^ 32 := by
      rcases body_of_holds hdict term with ⟨_, hnone⟩ | ⟨entries', _, hfind', _, hlen⟩
      · rw [hfind] at hnone
        cases hnone
      · rw [hfind] at hfind'
        cases hfind'
        exact lt_of_le_of_lt (length_le_encode _ _) hlen
    rw [hcontent.docCount]
    omega

/-- The terms that were matched are fit for scoring. -/
theorem matchTerms_termsOk {I : Idf α} {stats : FtsMeta}
    (hread : ∀ term entries, postingsFor H src stats.dictRoot term = .ok (some entries) →
      Sorted entries ∧ (∀ p ∈ entries, 0 < p.2) ∧ entries.length ≤ stats.docCount)
    (qs : List Bytes) {terms : List (α × List Posting)} (h : matchTerms H I src stats qs = .ok terms) :
    TermsOk terms := by
  induction qs generalizing terms with
  | nil =>
      cases h
      intro t ht
      cases ht
  | cons q qs ih =>
      unfold matchTerms at h
      cases hp : postingsFor H src stats.dictRoot q with
      | error e =>
          rw [hp] at h
          cases h
      | ok postings =>
          rw [hp, ok_bind] at h
          cases hm : matchTerms H I src stats qs with
          | error e =>
              rw [hm] at h
              cases h
          | ok found =>
              rw [hm, ok_bind] at h
              have hfound := ih hm
              cases postings with
              | none =>
                  cases h
                  exact hfound
              | some entries =>
                  simp only at h
                  split at h
                  · cases h
                    exact hfound
                  · rename_i hne
                    cases h
                    obtain ⟨h1, h2, h3⟩ := hread q entries hp
                    intro t ht
                    rcases List.mem_cons.mp ht with rfl | ht
                    · exact ⟨I.pos _ _ (Nat.pos_of_ne_zero hne) h3, h1, h2⟩
                    · exact hfound t ht

/-- With documents of fewer than `2 ^ 32` tokens every list can be read. -/
theorem postingsFor_isOk {stats : FtsMeta} {ix : Index} {own : List Nat}
    (hat : At H src.pageSize src.formatVersion src.view root stats ix own) (ho : src.Owns own)
    (hcontent : Content U docs stats ix) (hlen : ∀ d ∈ docs, (tokenize U d.2).length < 2 ^ 32)
    (term : Bytes) : ∃ o, postingsFor H src stats.dictRoot term = .ok o := by
  obtain ⟨ownD, hdict⟩ := hat.dict ho
  rcases postingsFor_of_holds hat.index_ok hdict term with ⟨hread, _⟩ | ⟨entries, page, hfind, hok, hread⟩
  · exact ⟨none, hread⟩
  · refine ⟨some entries, ?_⟩
    rw [hread]
    refine checked_of_pos page _ ?_
    rintro ⟨id, tf⟩ he
    have hpost := hcontent.postings term id
    rw [hfind, Option.getD_some, find_of_mem hok.2.1.nodup_keys he] at hpost
    exact ((tfOf_eq hlen term id tf).mp hpost.symm).1

/-- Matching succeeds when the postings can be read. -/
theorem matchTerms_isOk {I : Idf α} {stats : FtsMeta}
    (hread : ∀ term, ∃ o, postingsFor H src stats.dictRoot term = .ok o) (qs : List Bytes) :
    ∃ terms, matchTerms H I src stats qs = .ok terms := by
  induction qs with
  | nil => exact ⟨[], rfl⟩
  | cons q qs ih =>
      obtain ⟨o, ho⟩ := hread q
      obtain ⟨found, hfound⟩ := ih
      unfold matchTerms
      rw [ho, ok_bind, hfound, ok_bind]
      cases o with
      | none => exact ⟨found, rfl⟩
      | some entries =>
          simp only
          split
          · exact ⟨found, rfl⟩
          · exact ⟨_, rfl⟩

variable [IsStrictOrderedRing α]

/-- The early-terminating scan returns what the exhaustive scan returns, on every
reader of an index that was built by indexing documents of distinct ids. -/
theorem linear_eq_exhaustive (h : Sees H U src root docs) (I : Idf α) (query : String) (k : Nat)
    (keep : Ulid → KeepOutcome) (docLen : Ulid → Except Error (Option Nat)) :
    (∀ hits, searchProfiled H U I src root query k keep docLen = .ok hits →
      searchLinear H U I src root query k (fun id => decide (keep id = .accepted)) docLen = .ok hits) ∧
    ((∀ id, ∃ o, docLen id = .ok o) →
      searchLinear H U I src root query k (fun id => decide (keep id = .accepted)) docLen =
        searchProfiled H U I src root query k keep docLen ∧
      ((∀ d ∈ docs, (tokenize U d.2).length < 2 ^ 32) →
        ∃ hits, searchProfiled H U I src root query k keep docLen = .ok hits)) := by
  obtain ⟨stats, ix, own, hat, ho, hcontent⟩ := h.index
  have hload := hat.loadMeta ho
  have hread : ∀ term entries, postingsFor H src stats.dictRoot term = .ok (some entries) →
      Sorted entries ∧ (∀ p ∈ entries, 0 < p.2) ∧ entries.length ≤ stats.docCount :=
    fun term entries hp => posting_ok hat ho hcontent hp
  -- where both searches end at once with the same list, everything holds
  have hsame : ∀ {x : Except Error (List (Hit α))} {l : List (Hit α)}, x = .ok l →
      (∀ hits, (.ok l : Except Error (List (Hit α))) = .ok hits → x = .ok hits) ∧
      ((∀ id, ∃ o, docLen id = .ok o) → x = .ok l ∧
        ((∀ d ∈ docs, (tokenize U d.2).length < 2 ^ 32) →
          ∃ hits, (.ok l : Except Error (List (Hit α))) = .ok hits)) := by
    rintro x l rfl
    exact ⟨fun hits hh => hh, fun _ => ⟨rfl, fun _ => ⟨l, rfl⟩⟩⟩
  unfold searchProfiled searchLinear
  split
  · exact hsame rfl
  · rename_i hk
    rw [hload, ok_bind, ok_bind]
    split
    · exact hsame rfl
    · rename_i stats' hs
      split at hs
      · cases hs
      · cases hs
        split
        · exact hsame rfl
        · split
          · exact hsame rfl
          · -- the scan itself, from the exhaustive scan's scores
            have hok : ∀ terms, matchTerms H I src stats (queryTerms U query) = .ok terms → TermsOk terms :=
              fun terms hm => matchTerms_termsOk hread _ hm
            have hscan : ∀ scores : List (Ulid × α), scoreTerms H I src stats keep docLen (queryTerms U query) [] = .ok scores →
                (do
                  let terms ← matchTerms H I src stats (queryTerms U query)
                  scanCandidates terms (avgdl stats) k (fun id => decide (keep id = .accepted)) docLen
                    (((candidateBounds terms).map fun c => (⟨c.1, c.2⟩ : Hit α)).insertionSort Hit.le) [] :
                  Except Error (List (Hit α))) =
                .ok ((((scores.filter fun s => decide (0 < s.2)).map
                  fun s => (⟨s.1, s.2⟩ : Hit α)).insertionSort Hit.le).take k) := by
              intro scores hscores
              obtain ⟨terms, hm, hdoc, htop⟩ := exhaustive_top (k := k) hok
                (fun term entries hp => (hread term entries hp).1) hscores
              obtain ⟨r, hr, htop'⟩ := linear_top (Nat.pos_of_ne_zero hk) (hok terms hm) hdoc
              rw [hm, ok_bind, hr, htop'.unique htop]
            constructor
            · intro hits hh
              cases hscores : scoreTerms H I src stats keep docLen (queryTerms U query) [] with
              | error e =>
                  rw [hscores] at hh
                  cases hh
              | ok scores =>
                  rw [hscores, ok_bind] at hh
                  rw [← hh]
                  exact hscan scores hscores
            · intro hdoc
              -- with lengths for all documents the exhaustive scan ends as the matching of the terms does
              rcases scoreTerms_isOk I keep hdoc (queryTerms U query) [] with
                ⟨terms, scores, _, hscores⟩ | ⟨e, hm, hscores⟩
              · rw [hscores]
                exact ⟨hscan scores hscores, fun _ => ⟨_, rfl⟩⟩
              · rw [hm, hscores]
                refine ⟨rfl, ?_⟩
                intro hlen
                obtain ⟨terms, hm'⟩ := matchTerms_isOk (I := I)
                  (fun term => postingsFor_isOk hat ho hcontent hlen term) (queryTerms U query)
                rw [hm] at hm'
                cases hm'

omit [IsStrictOrderedRing α]

/-- Two documents, committed at format version 8, and a query for a word of both. -/
theorem linear_eq_exhaustive_two_documents :
    ∃ t, indexAll ⟨fun _ => 0, fun _ _ => 0⟩ .ascii
        [(7, String.ofList ['a', ' ', 'A']), (3, String.ofList ['a', ' ', 'b'])]
        (Txn.begin (Committed.fresh 8 512)) = .ok ((), t) ∧
      ∃ hits, searchProfiled ⟨fun _ => 0, fun _ _ => 0⟩ .ascii Idf.bm25
          (t.commit.source ⟨fun _ => 0, fun _ _ => 0⟩) t.commit.header.ftsRootPage
          (String.ofList ['a']) 1 (fun _ => .accepted) (fun _ => .ok (some 2)) = .ok hits ∧
        searchLinear ⟨fun _ => 0, fun _ _ => 0⟩ .ascii Idf.bm25
          (t.commit.source ⟨fun _ => 0, fun _ _ => 0⟩) t.commit.header.ftsRootPage
          (String.ofList ['a']) 1 (fun _ => true) (fun _ => .ok (some 2)) = .ok hits := by
  have hinit : Run ⟨fun _ => 0, fun _ _ => 0⟩ .ascii (Committed.fresh 8 512) [] :=
    Run.init (Committed.wf_fresh _ (by decide) (by decide) (by decide)) rfl
  obtain ⟨t, hrun, hcommit⟩ := hinit.of_isOk
    [(7, String.ofList ['a', ' ', 'A']), (3, String.ofList ['a', ' ', 'b'])] (by simp) (by decide +kernel)
  obtain ⟨_, htotal⟩ := linear_eq_exhaustive (Sees.committed hcommit) Idf.bm25 (String.ofList ['a']) 1
    (fun _ => .accepted) (fun _ => .ok (some 2))
  obtain ⟨heq, hhits⟩ := htotal fun _ => ⟨some 2, rfl⟩
  obtain ⟨hits, hits_eq⟩ := hhits (by
    intro d hd
    simp at hd
    rcases hd with rfl | rfl <;> decide +kernel)
  refine ⟨t, hrun, hits, hits_eq, ?_⟩
  rw [← hits_eq, ← heq]
  rfl

end Searches

end Fts

end EmbedMind
