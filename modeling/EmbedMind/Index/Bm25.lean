import EmbedMind.Index.BmwSearch
import EmbedMind.Index.Checked
import EmbedMind.Lib.SortedSet

/-!
# What a full-text search ranks

BM25 as a function of a corpus, without an index: `bm25` is the score of a text, and `Ranks`
says which hits a search ranks. Both searches return the top of these hits, on every index
with the content of the corpus (`searchPlain_top`).
-/

namespace EmbedMind

open Lib Lib.Assoc Lib.TopK

namespace Fts

section Bm25

variable {α : Type} [Field α] [LinearOrder α] (U : Unicode) (I : Idf α) (docs : Docs)

/-- The number of documents with a term. -/
def docFreq (term : Bytes) : Nat := (docs.filter fun d => decide (0 < occurrences U term d.2)).length

/-- The statistics of a corpus: documents and tokens, as far as 64 bits count. -/
def corpusStats : FtsMeta where
  docCount := min docs.length (2 ^ 64 - 1)
  totalTokens := min (docs.map fun d => (tokenize U d.2).length).sum (2 ^ 64 - 1)
  dictRoot := 0

/-- The score of a text for a query: its distinct words, each by its weight and by how often the text has it. -/
def bm25 (query content : String) : α :=
  ∑ term ∈ (terms U query).toFinset,
    contribution (I.weight (corpusStats U docs).docCount (docFreq U docs term)) (avgdl (corpusStats U docs))
      (occurrences U term content) (docLen U content)

/-- A document that passes and has a word of the query, with its score. -/
structure Ranks (keep : Ulid → Bool) (query : String) (h : Hit α) : Prop where
  kept : keep h.recordId = true
  text : ∃ content, find h.recordId docs = some content ∧ (∃ term ∈ terms U query, 0 < occurrences U term content) ∧
    h.score = bm25 U I docs query content

end Bm25

/-! ## Lengths -/

theorem length_le_utf8 (s : String) : s.toList.length ≤ (utf8 s).length := by
  have hsize : (utf8 s).length = (s.toList.flatMap String.utf8EncodeChar).length := by
    unfold utf8
    rw [← String.utf8Encode_toList, List.utf8Encode, List.data_toByteArray, List.toList_toArray]
  rw [hsize, List.length_flatMap]
  induction s.toList with
  | nil => exact le_refl 0
  | cons c l ih =>
      have hpos := c.utf8Size_pos
      rw [List.map_cons, List.sum_cons, List.length_cons, String.length_utf8EncodeChar]
      omega

/-- A text has no more tokens than bytes. -/
theorem length_tokenize_le (U : Unicode) (text : String) : (tokenize U text).length ≤ (utf8 text).length := by
  have hfrom : ∀ (cs cur : List Char), (tokenizeFrom U cur cs).length ≤ cs.length + if cur.isEmpty then 0 else 1 := by
    intro cs
    induction cs with
    | nil =>
        intro cur
        unfold tokenizeFrom
        split <;> simp
    | cons ch rest ih =>
        intro cur
        unfold tokenizeFrom
        rw [List.length_cons]
        split
        · have hrest := ih (cur ++ U.toLowercase ch)
          have hone : (if (cur ++ U.toLowercase ch).isEmpty then 0 else 1) ≤ 1 := by split <;> omega
          omega
        split
        · rename_i hempty
          have hrest := ih cur
          rw [if_pos hempty] at hrest
          omega
        · have hrest := ih []
          rw [List.length_cons]
          rw [List.isEmpty_nil, if_pos rfl] at hrest
          omega
  have htext := hfrom text.toList []
  rw [List.isEmpty_nil, if_pos rfl] at htext
  exact le_trans htext (length_le_utf8 text)

/-! ## The terms of a query -/

/-- The deduplication of the source is that of the library. -/
theorem dedup_eq (l : List Bytes) : dedup l = SortedSet.dedup l := by
  induction l with
  | nil => rfl
  | cons a l ih =>
      cases l with
      | nil => rfl
      | cons b rest =>
          rw [dedup, SortedSet.dedup, ih]

/-- The terms of a query, sorted and distinct. -/
theorem queryTerms_eq (U : Unicode) (query : String) : queryTerms U query = SortedSet.distinct id (terms U query) :=
  dedup_eq _

/-- The terms of a query are those of its text. -/
theorem mem_queryTerms {U : Unicode} {query : String} {term : Bytes} : term ∈ queryTerms U query ↔ term ∈ terms U query := by
  rw [queryTerms_eq, SortedSet.mem_distinct]

/-- The terms of a query are distinct. -/
theorem nodup_queryTerms (U : Unicode) (query : String) : (queryTerms U query).Nodup := by
  rw [queryTerms_eq]
  exact (SortedSet.ascending_distinct Function.injective_id _).nodup

/-- A sum over the terms of a query. -/
theorem sum_queryTerms {α : Type} [AddCommMonoid α] (U : Unicode) (query : String) (f : Bytes → α) :
    ((queryTerms U query).map f).sum = ∑ term ∈ (terms U query).toFinset, f term := by
  rw [← List.sum_toFinset f (nodup_queryTerms U query)]
  refine Finset.sum_congr ?_ fun _ _ => rfl
  ext term
  rw [List.mem_toFinset, List.mem_toFinset, mem_queryTerms]

/-! ## Postings and documents -/

section Postings

variable {H : Xxh3} {U : Unicode} {src : PageSource} {root : Nat} {docs : Docs} {stats : FtsMeta} {ix : Index}
  {own : List Nat}

/-- The postings of a term, the empty list when it has none. -/
theorem postingsFor_eq (hat : At H src.pageSize src.formatVersion src.view root stats ix own) (ho : src.Owns own)
    (hcontent : Content U docs stats ix) (hlen : ∀ d ∈ docs, (tokenize U d.2).length < 2 ^ 32) (term : Bytes) :
    ∃ o, postingsFor H src stats.dictRoot term = .ok o ∧ Sorted (o.getD []) ∧
      ∀ id, find id (o.getD []) = tfOf U docs term id := by
  rcases hat.dict ho with ⟨ownD, hdict⟩
  rcases postingsFor_isOk hat ho hcontent hlen term with ⟨o, hread⟩
  refine ⟨o, hread, ?_⟩
  rcases postingsFor_of_holds hat.index_ok hdict term with ⟨hnone, hfind⟩ | ⟨entries, page, hfind, hok, hsome⟩
  · rw [hnone] at hread
    cases hread
    refine ⟨List.Pairwise.nil, ?_⟩
    intro id
    rw [← hcontent.postings, hfind]
  · rw [hsome] at hread
    rcases checked_ok page hread with ⟨_, heq⟩
    subst heq
    refine ⟨hok.2.1, ?_⟩
    intro id
    rw [← hcontent.postings, hfind]

/-- A store without an index has no postings. -/
theorem postingsFor_zero (H : Xxh3) (src : PageSource) (term : Bytes) : postingsFor H src 0 term = .ok none := by
  unfold postingsFor Dict.get
  rw [if_pos rfl]
  rfl

/-- A term has a frequency in the documents that have it. -/
theorem tfOf_isSome (hlen : ∀ d ∈ docs, (tokenize U d.2).length < 2 ^ 32) {term : Bytes} {id : Ulid} :
    (tfOf U docs term id).isSome ↔ ∃ content, find id docs = some content ∧ 0 < occurrences U term content := by
  rw [Option.isSome_iff_exists]
  constructor
  · intro h
    rcases h with ⟨tf, htf⟩
    rcases (tfOf_eq hlen term id tf).mp htf with ⟨hpos, content, hfind, heq⟩
    exact ⟨content, hfind, heq ▸ hpos⟩
  · intro h
    rcases h with ⟨content, hfind, hpos⟩
    exact ⟨_, (tfOf_eq hlen term id _).mpr ⟨hpos, content, hfind, rfl⟩⟩

/-- A list of postings is as long as there are documents with the term. -/
theorem postings_length (hnd : (docs.map Prod.fst).Nodup) (hlen : ∀ d ∈ docs, (tokenize U d.2).length < 2 ^ 32)
    {term : Bytes} {entries : List Posting} (hsorted : Sorted entries)
    (hfind : ∀ id, find id entries = tfOf U docs term id) : entries.length = docFreq U docs term := by
  have hperm : (entries.map Prod.fst).Perm
      ((docs.filter fun d => decide (0 < occurrences U term d.2)).map Prod.fst) := by
    refine (List.perm_ext_iff_of_nodup hsorted.nodup_keys (hnd.sublist (List.filter_sublist.map _))).mpr ?_
    intro id
    have hkey : id ∈ entries.map Prod.fst ↔ (find id entries).isSome := by
      rw [← Option.ne_none_iff_isSome, Ne, find_eq_none, List.mem_map]
      push Not
      rfl
    rw [hkey, hfind, tfOf_isSome hlen]
    constructor
    · intro h
      rcases h with ⟨content, hc, hpos⟩
      exact List.mem_map.mpr ⟨(id, content), List.mem_filter.mpr ⟨mem_of_find hc, decide_eq_true hpos⟩, rfl⟩
    · intro h
      rcases List.mem_map.mp h with ⟨d, hd, rfl⟩
      rcases List.mem_filter.mp hd with ⟨hd, hpos⟩
      exact ⟨d.2, find_of_mem hnd hd, of_decide_eq_true hpos⟩
  have hlength := hperm.length_eq
  rwa [List.length_map, List.length_map] at hlength

/-- The statistics of an index, apart from the root of its dictionary, are those of its corpus. -/
theorem Content.stats_eq (hcontent : Content U docs stats ix) (hlen : ∀ d ∈ docs, (tokenize U d.2).length < 2 ^ 32) :
    stats.docCount = (corpusStats U docs).docCount ∧ stats.totalTokens = (corpusStats U docs).totalTokens := by
  refine ⟨hcontent.docCount, ?_⟩
  have hmap : (docs.map fun d => ((termFreqs U d.2).map Prod.snd).sum) = docs.map fun d => (tokenize U d.2).length := by
    refine List.map_congr_left ?_
    intro d hd
    exact sum_termFreqs (hlen d hd)
  rw [hcontent.totalTokens, hmap, corpusStats]

end Postings

/-! ## Scores -/

section Scores

variable {α : Type} [Field α] [LinearOrder α] {H : Xxh3} {U : Unicode} {src : PageSource} {root : Nat} {docs : Docs}
  {stats : FtsMeta} {ix : Index} {own : List Nat}

/-- A term that does not occur contributes nothing. -/
theorem contribution_zero (idf avgdl : α) (dl : Nat) : contribution idf avgdl 0 dl = 0 := by
  unfold contribution
  rw [Nat.cast_zero, zero_mul, mul_zero, zero_div]

/-- Scoring by postings is scoring by occurrences. -/
theorem matchTerms_scores (hat : At H src.pageSize src.formatVersion src.view root stats ix own) (ho : src.Owns own)
    (hcontent : Content U docs stats ix) (hnd : (docs.map Prod.fst).Nodup)
    (hlen : ∀ d ∈ docs, (tokenize U d.2).length < 2 ^ 32) (I : Idf α) (qs : List Bytes)
    {found : List (α × List Posting)} (h : matchTerms H I src stats qs = .ok found) (id : Ulid) :
    (hasTerm found id = true ↔ ∃ term ∈ qs, ∃ content, find id docs = some content ∧ 0 < occurrences U term content) ∧
      ∀ content, find id docs = some content → ∀ avgdl dl s,
        sumFrom (fun idf tf => contribution idf avgdl tf dl) found id s =
          s + (qs.map fun term => contribution (I.weight stats.docCount (docFreq U docs term)) avgdl
            (occurrences U term content) dl).sum := by
  induction qs generalizing found with
  | nil =>
      cases h
      constructor
      · simp [hasTerm]
      · intro content _ avgdl dl s
        rw [List.map_nil, List.sum_nil, add_zero]
        rfl
  | cons term qs ih =>
      unfold matchTerms at h
      rcases bind_eq_ok.mp h with ⟨postings, hpostings, h⟩
      rcases bind_eq_ok.mp h with ⟨rest, hrest, h⟩
      rcases ih hrest with ⟨hterm, hsum⟩
      rcases postingsFor_eq hat ho hcontent hlen term with ⟨o, ho', hsorted, hfind⟩
      rw [hpostings] at ho'
      cases ho'
      -- a term without postings is in no document
      have hskip : postings.getD [] = [] → (hasTerm rest id = true ↔
            ∃ t ∈ term :: qs, ∃ content, find id docs = some content ∧ 0 < occurrences U t content) ∧
          ∀ content, find id docs = some content → ∀ avgdl dl s,
            sumFrom (fun idf tf => contribution idf avgdl tf dl) rest id s =
              s + ((term :: qs).map fun t => contribution (I.weight stats.docCount (docFreq U docs t)) avgdl
                (occurrences U t content) dl).sum := by
        intro hnil
        have hnone : ¬ ∃ content, find id docs = some content ∧ 0 < occurrences U term content := by
          rw [← tfOf_isSome hlen, ← hfind, hnil]
          simp [find]
        constructor
        · rw [hterm]
          simp only [List.mem_cons, exists_eq_or_imp, hnone, false_or]
        · intro content hc avgdl dl s
          have hzero : occurrences U term content = 0 :=
            Nat.eq_zero_of_not_pos fun hpos => hnone ⟨content, hc, hpos⟩
          rw [hsum content hc, List.map_cons, List.sum_cons, hzero, contribution_zero, zero_add]
      cases postings with
      | none =>
          cases h
          exact hskip rfl
      | some entries =>
          dsimp only at h
          split at h
          · rename_i hempty
            cases h
            exact hskip (List.length_eq_zero_iff.mp hempty)
          · cases h
            rw [Option.getD_some] at hfind hsorted
            constructor
            · rw [hasTerm_cons, Bool.or_eq_true, hterm, hfind, tfOf_isSome hlen]
              simp only [List.mem_cons, exists_eq_or_imp]
            · intro content hc avgdl dl s
              rw [sumFrom_cons, hsum content hc, List.map_cons, List.sum_cons, ← add_assoc, hfind,
                postings_length hnd hlen hsorted hfind]
              congr 1
              cases htf : tfOf U docs term id with
              | none =>
                  have hzero : occurrences U term content = 0 := by
                    refine Nat.eq_zero_of_not_pos ?_
                    intro hpos
                    have hsome := (tfOf_isSome hlen).mpr ⟨content, hc, hpos⟩
                    rw [htf] at hsome
                    cases hsome
                  rw [hzero, contribution_zero, add_zero]
              | some tf =>
                  rcases (tfOf_eq hlen term id tf).mp htf with ⟨_, content', hc', heq⟩
                  rw [hc] at hc'
                  cases hc'
                  rw [heq]

end Scores

/-! ## The searches -/

section Searches

variable {α : Type} [Field α] [LinearOrder α] [IsStrictOrderedRing α] {H : Xxh3} {U : Unicode} {src : PageSource}
  {root : Nat} {docs : Docs} {stats : FtsMeta} {ix : Index} {own : List Nat}

/-- Skip entries with bounds came with format version 6. -/
theorem skipEntry_bound {version : Nat} (h : PostingsLayout.forFormatVersion version = .deltaVarintSkip .v6) :
    SKIP_BOUND_MIN_FORMAT_VERSION ≤ version := by
  unfold PostingsLayout.forFormatVersion at h
  split at h
  · cases h
  split at h
  · assumption
  split at h
  · cases h
  split at h
  · cases h
  · cases h

/-- What the terms of a query match is what the corpus ranks. -/
theorem matches_iff_ranks (hat : At H src.pageSize src.formatVersion src.view root stats ix own) (ho : src.Owns own)
    (hcontent : Content U docs stats ix) (hnd : (docs.map Prod.fst).Nodup)
    (hlen : ∀ d ∈ docs, (tokenize U d.2).length < 2 ^ 32) (I : Idf α) {query : String} {keep : Ulid → Bool}
    {length : Ulid → Except Error (Option Nat)} (hlength : ∀ id, length id = .ok ((find id docs).map (docLen U)))
    {found : List (α × List Posting)} (hmatch : matchTerms H I src stats (queryTerms U query) = .ok found) (h : Hit α) :
    Matches found (avgdl stats) keep length h ↔ Ranks U I docs keep query h := by
  have hscores := matchTerms_scores hat ho hcontent hnd hlen I (queryTerms U query) hmatch
  have hscore : ∀ content, find h.recordId docs = some content →
      exactScore found (avgdl stats) h.recordId (docLen U content) = bm25 U I docs query content := by
    intro content hc
    rw [exactScore_eq, (hscores h.recordId).2 content hc, zero_add, sum_queryTerms, bm25, avgdl, avgdl,
      (hcontent.stats_eq hlen).1, (hcontent.stats_eq hlen).2]
  unfold Matches
  rw [(hscores h.recordId).1, hlength]
  constructor
  · intro hm
    rcases hm with ⟨hkeep, ⟨term, hterm, content, hc, hpos⟩, dl, hdl, heq⟩
    rw [hc] at hdl
    cases hdl
    exact ⟨hkeep, content, hc, ⟨term, mem_queryTerms.mp hterm, hpos⟩, heq.trans (hscore content hc)⟩
  · intro hr
    rcases hr.text with ⟨content, hc, ⟨term, hterm, hpos⟩, heq⟩
    refine ⟨hr.kept, ⟨term, mem_queryTerms.mpr hterm, content, hc, hpos⟩, docLen U content, ?_, ?_⟩
    · rw [hc]
      rfl
    · rw [hscore content hc]
      exact heq

/-- Without documents or without a dictionary no document has a term. -/
theorem not_hasTerm_of_empty (hat : At H src.pageSize src.formatVersion src.view root stats ix own) (ho : src.Owns own)
    (hcontent : Content U docs stats ix) (hnd : (docs.map Prod.fst).Nodup)
    (hlen : ∀ d ∈ docs, (tokenize U d.2).length < 2 ^ 32) (I : Idf α) {query : String}
    {found : List (α × List Posting)} (hmatch : matchTerms H I src stats (queryTerms U query) = .ok found)
    (hzero : stats.docCount = 0 ∨ stats.dictRoot = 0) (id : Ulid) : ¬ hasTerm found id = true := by
  intro hhas
  have hscores := matchTerms_scores hat ho hcontent hnd hlen I (queryTerms U query) hmatch
  rcases (hscores id).1.mp hhas with ⟨term, _, content, hc, hpos⟩
  rcases hzero with hcount | hroot
  · have hnil : docs = [] := by
      rw [hcontent.docCount] at hcount
      exact List.length_eq_zero_iff.mp (by omega)
    rw [hnil] at hc
    cases hc
  · rcases postingsFor_eq hat ho hcontent hlen term with ⟨o, hpost, _, hfind⟩
    rw [hroot, postingsFor_zero] at hpost
    cases hpost
    have hsome := (tfOf_isSome hlen).mpr ⟨content, hc, hpos⟩
    rw [← hfind] at hsome
    cases hsome

/-- A search returns the best `k` of the documents that pass. -/
theorem searchPlain_top (hat : At H src.pageSize src.formatVersion src.view root stats ix own) (ho : src.Owns own)
    (hcontent : Content U docs stats ix) (hnd : (docs.map Prod.fst).Nodup)
    (hlen : ∀ d ∈ docs, (tokenize U d.2).length < 2 ^ 32) (I : Idf α) (query : String) (k : Nat) (keep : Ulid → Bool)
    {length : Ulid → Except Error (Option Nat)} (hlength : ∀ id, length id = .ok ((find id docs).map (docLen U))) :
    ∃ hits, searchPlain H U I src root query k keep length = .ok (some hits) ∧ Top k (Ranks U I docs keep query) hits := by
  have hload := hat.loadMeta ho
  have hread : ∀ term entries, postingsFor H src stats.dictRoot term = .ok (some entries) →
      Sorted entries ∧ (∀ p ∈ entries, 0 < p.2) ∧ entries.length ≤ stats.docCount :=
    fun term entries hp => posting_ok hat ho hcontent hp
  rcases matchTerms_isOk (I := I) (fun term => postingsFor_isOk hat ho hcontent hlen term) (queryTerms U query) with
    ⟨found, hmatch⟩
  have hterms := matchTerms_termsOk hread _ hmatch
  have hscores := matchTerms_scores hat ho hcontent hnd hlen I (queryTerms U query) hmatch
  have hranks : ∀ h, Matches found (avgdl stats) keep length h ↔ Ranks U I docs keep query h :=
    matches_iff_ranks hat ho hcontent hnd hlen I hlength hmatch
  have hdoc : ∀ id, hasTerm found id = true → keep id = true → ∃ o, length id = .ok o :=
    fun id _ _ => ⟨_, hlength id⟩
  -- a search that looks at no posting
  have hnothing : (∀ id, ¬ hasTerm found id = true) → Top k (Ranks U I docs keep query) ([] : List (Hit α)) := by
    intro hnone
    refine top_nil.congr ?_
    intro h
    rw [← hranks]
    exact ⟨False.elim, fun hm => hnone _ hm.2.1⟩
  have hempty : stats.docCount = 0 ∨ stats.dictRoot = 0 → ∀ id, ¬ hasTerm found id = true :=
    not_hasTerm_of_empty hat ho hcontent hnd hlen I hmatch
  -- the ways in which both searches end at once
  unfold searchPlain searchBmwCounted searchLinear
  by_cases hk : k = 0
  · subst hk
    exact ⟨[], by split <;> rfl, List.Pairwise.nil, le_refl 0, by simp, by simp⟩
  simp only [if_neg hk, hload]
  by_cases hroot : root = 0
  · simp only [if_pos hroot, ok_bind]
    have hstats : stats = .empty := by
      rcases hat.pages with h0 | ⟨_, hne, _⟩
      · exact h0.2.1
      · exact absurd hroot hne
    refine ⟨[], by split <;> rfl, hnothing (hempty (Or.inl ?_))⟩
    rw [hstats]
    rfl
  simp only [if_neg hroot, ok_bind]
  by_cases hzero : stats.docCount = 0 ∨ stats.dictRoot = 0
  · simp only [if_pos hzero]
    exact ⟨[], by split <;> rfl, hnothing (hempty hzero)⟩
  simp only [if_neg hzero]
  by_cases hquery : (queryTerms U query).isEmpty = true
  · simp only [if_pos hquery]
    refine ⟨[], by split <;> rfl, hnothing ?_⟩
    intro id hhas
    rcases (hscores id).1.mp hhas with ⟨term, hterm, _⟩
    rw [List.isEmpty_iff.mp hquery] at hterm
    cases hterm
  simp only [if_neg hquery]
  -- the layout decides which search runs
  split
  · rename_i hlayout
    rcases bmw_top (skipEntry_bound hlayout) hmatch hterms (Nat.pos_of_ne_zero hk) hdoc (Nat.lt_succ_self _) with
      ⟨cursors, hits, hopen, hrun, htop⟩
    refine ⟨hits, ?_, htop.congr hranks⟩
    rw [hopen, ok_bind]
    cases cursors with
    | nil =>
        cases hrun
        rfl
    | cons c cursors => exact hrun
  · rcases linear_top (Nat.pos_of_ne_zero hk) hterms hdoc with ⟨hits, hrun, htop⟩
    refine ⟨hits, ?_, htop.congr hranks⟩
    rw [hmatch, ok_bind, hrun]
    rfl

end Searches

end Fts

end EmbedMind
