import EmbedMind.Index.FtsProof

/-!
# The full-text index over whole runs

A document list is kept newest first. `Content` relates it to the index: the posting
of a term and an id is the number of occurrences of the term in that document, and
the counters are the number of documents and of tokens. `Run` are the committed states
that indexing reaches, `Sees` the readers of such a state or of a transaction on it.
-/

namespace EmbedMind

open Lib Lib.Assoc

namespace Fts

/-- Documents by id, newest first. -/
abbrev Docs := List (Ulid × String)

variable {H : Xxh3} (U : Unicode)

/-- The frequency the index stores for a term in a document. -/
def tfOf (docs : Docs) (term : Bytes) (id : Ulid) : Option Nat :=
  (find id docs).bind fun content => find term (termFreqs U content)

/-- What the index holds of a list of documents. -/
structure Content (docs : Docs) (stats : FtsMeta) (ix : Index) : Prop where
  postings : ∀ term id, find id ((find term ix).getD []) = tfOf U docs term id
  docCount : stats.docCount = min docs.length (2 ^ 64 - 1)
  totalTokens : stats.totalTokens =
    min (docs.map fun d => ((termFreqs U d.2).map Prod.snd).sum).sum (2 ^ 64 - 1)

/-- The index of no document. -/
theorem content_empty : Content U [] .empty [] where
  postings := fun _ _ => rfl
  docCount := rfl
  totalTokens := rfl

/-- The postings of a term after a document was added. -/
theorem find_addTerms (id : Ulid) {freqs : List (Bytes × Nat)} (hnd : (freqs.map Prod.fst).Nodup)
    (ix : Index) (term : Bytes) :
    find term (addTerms id freqs ix) =
      match find term freqs with
      | none => find term ix
      | some tf => some (insertKey id tf ((find term ix).getD [])) := by
  induction freqs generalizing ix with
  | nil => rfl
  | cons e freqs ih =>
      obtain ⟨t, tf⟩ := e
      rw [List.map_cons, List.nodup_cons] at hnd
      have hstep : addTerms id ((t, tf) :: freqs) ix = addTerms id freqs (addTerm id ix (t, tf)) := rfl
      rw [hstep, ih hnd.2]
      by_cases ht : term = t
      · -- the term of this entry: no later one touches it
        subst ht
        have hnone : find term freqs = none := by
          rw [find_eq_none]
          intro e he heq
          exact hnd.1 (List.mem_map.mpr ⟨e, he, heq⟩)
        simp [hnone, find, addTerm]
      · have hother : find term (addTerm id ix (t, tf)) = find term ix := find_insertKey_ne ht _ _
        rw [hother]
        simp [find, ht]

/-- The index of one more document. -/
theorem Content.add {docs : Docs} {stats : FtsMeta} {ix : Index} (h : Content U docs stats ix)
    {id : Ulid} (hid : find id docs = none) (content : String) (root : Nat) :
    Content U ((id, content) :: docs)
      ⟨saturatingAdd stats.docCount 1,
        saturatingAdd stats.totalTokens ((termFreqs U content).map Prod.snd).sum, root⟩
      (addTerms id (termFreqs U content) ix) where
  postings := by
    intro term id'
    have hold := h.postings term id'
    rw [find_addTerms id (sorted_termFreqs U content).nodup_keys]
    -- the new id's postings are its term counts; every other id keeps its own
    by_cases hid' : id' = id
    · subst hid'
      have hfresh : find id' ((find term ix).getD []) = none := by
        rw [hold, tfOf, hid]
        rfl
      have hnew : tfOf U ((id', content) :: docs) term id' = find term (termFreqs U content) := by
        simp [tfOf, find]
      rw [hnew]
      cases hf : find term (termFreqs U content) with
      | none => exact hfresh
      | some tf => exact find_insertKey_self _ _ _
    · have hnew : tfOf U ((id, content) :: docs) term id' = tfOf U docs term id' := by
        simp [tfOf, find, hid']
      rw [hnew, ← hold]
      cases find term (termFreqs U content) with
      | none => rfl
      | some tf => exact find_insertKey_ne hid' _ _
  docCount := by
    have := h.docCount
    simp only [saturatingAdd, List.length_cons]
    omega
  totalTokens := by
    have := h.totalTokens
    simp only [saturatingAdd, List.map_cons, List.sum_cons]
    omega

/-! ## Runs -/

/-- The documents of one transaction, in order. -/
def indexAll (H : Xxh3) (U : Unicode) : List (Ulid × String) → TxnM Unit
  | [] => pure ()
  | (id, content) :: rest => do
      indexDocument H U id content
      indexAll H U rest

/-- The index of a transaction holds the documents. -/
def HoldsDocs (H : Xxh3) (U : Unicode) (t : Txn) (docs : Docs) : Prop :=
  t.Wf H ∧ ∃ stats ix own, InTxn H t stats ix own ∧ Content U docs stats ix

/-- The documents of a transaction. -/
theorem wp_indexAll (new : List (Ulid × String)) {t : Txn} {docs : Docs} (h : HoldsDocs H U t docs)
    (hids : ((new.reverse ++ docs).map Prod.fst).Nodup) :
    Wp (indexAll H U new) t (fun _ t' => HoldsDocs H U t' (new.reverse ++ docs)) fun _ => True := by
  induction new generalizing t docs with
  | nil => exact Wp.pure h
  | cons d new ih =>
      obtain ⟨id, content⟩ := d
      obtain ⟨ht, stats, ix, own, hin, hcontent⟩ := h
      rw [List.reverse_cons, List.append_assoc, List.singleton_append] at hids ⊢
      have hid : find id docs = none := by
        rw [find_eq_none]
        intro e he heq
        rw [List.map_append, List.map_cons, List.nodup_append] at hids
        exact (List.nodup_cons.mp hids.2.1).1 (List.mem_map.mpr ⟨e, he, heq⟩)
      refine Wp.bind ((wp_indexDocument U ht hin).imp ?_)
      rintro _ t' ⟨root, own', hin', hstep⟩
      exact ih ⟨hstep.wf, _, _, own', hin', hcontent.add U hid content root⟩ hids

/-- The committed states of a store whose full-text index starts empty. A transaction
that is dropped, as one with a failed call is, leaves the state as it was. -/
inductive Run (H : Xxh3) (U : Unicode) : Committed → Docs → Prop where
  | init {c : Committed} (hwf : c.Wf H) (hroot : c.header.ftsRootPage = 0) : Run H U c []
  | commit {c : Committed} {docs : Docs} {t : Txn} (h : Run H U c docs) (new : List (Ulid × String))
      (hids : ((new.reverse ++ docs).map Prod.fst).Nodup)
      (ht : indexAll H U new (Txn.begin c) = .ok ((), t)) : Run H U t.commit (new.reverse ++ docs)

/-- The readers of an index: the committed state, or a transaction that indexes more. -/
inductive Sees (H : Xxh3) (U : Unicode) : PageSource → Nat → Docs → Prop where
  | committed {c : Committed} {docs : Docs} (h : Run H U c docs) :
      Sees H U (c.source H) c.header.ftsRootPage docs
  | inTxn {c : Committed} {docs : Docs} {t : Txn} (h : Run H U c docs) (new : List (Ulid × String))
      (hids : ((new.reverse ++ docs).map Prod.fst).Nodup)
      (ht : indexAll H U new (Txn.begin c) = .ok ((), t)) :
      Sees H U (t.source H) t.ftsRootPage (new.reverse ++ docs)

theorem commit_ftsRootPage (t : Txn) : t.commit.header.ftsRootPage = t.ftsRootPage := by
  cases he : t.isEmpty with
  | false =>
      rw [Txn.commit_header he]
      rfl
  | true =>
      have hp := t.pending_of_isEmpty he
      simp only [PendingHeader.isEmpty, Bool.and_eq_true, Option.isNone_iff_eq_none] at hp
      rw [Txn.commit_of_isEmpty he, Txn.ftsRootPage, hp.1.1.1.1.2]
      rfl

/-- A committed index, as its pages hold it. -/
structure InStore (H : Xxh3) (c : Committed) (stats : FtsMeta) (ix : Index) (own : List Nat) : Prop where
  index : At H c.header.pageSize c.header.formatVersion (c.view H) c.header.ftsRootPage stats ix own
  owns : c.Owns own

/-- A transaction starts on the index of its store. -/
theorem InStore.begin {c : Committed} {stats : FtsMeta} {ix : Index} {own : List Nat}
    (h : InStore H c stats ix own) : InTxn H (Txn.begin c) stats ix own where
  index := h.index.frame fun p _ => Txn.view_begin c p
  owns := h.owns.begin

/-- A commit leaves the index of its transaction. -/
theorem InTxn.commit {t : Txn} {stats : FtsMeta} {ix : Index} {own : List Nat}
    (h : InTxn H t stats ix own) (ht : t.Wf H) : InStore H t.commit stats ix own where
  index := by
    rw [Txn.commit_pageSize, Txn.commit_formatVersion, commit_ftsRootPage]
    exact h.index.frame fun p hp => ht.view_commit (h.owns.pos p hp) (h.owns.lt p hp)
  owns := h.owns.commit

variable {U}

/-- Every run leaves the index of its documents. -/
theorem Run.inStore {c : Committed} {docs : Docs} (h : Run H U c docs) :
    c.Wf H ∧ ∃ stats ix own, InStore H c stats ix own ∧ Content U docs stats ix := by
  induction h with
  | init hwf hroot =>
      refine ⟨hwf, .empty, [], [], ⟨?_, ⟨List.nodup_nil, by simp, by simp⟩⟩, content_empty U⟩
      rw [hroot]
      exact at_empty
  | commit _ new hids ht ih =>
      obtain ⟨hwf, stats, ix, own, hin, hcontent⟩ := ih
      obtain ⟨ht', stats', ix', own', hin', hcontent'⟩ :=
        (wp_indexAll U new ⟨Txn.wf_begin hwf, stats, ix, own, hin.begin, hcontent⟩ hids).ok ht
      exact ⟨ht'.commit, stats', ix', own', hin'.commit ht', hcontent'⟩

/-- The documents have distinct ids. -/
theorem Run.nodup {c : Committed} {docs : Docs} (h : Run H U c docs) : (docs.map Prod.fst).Nodup := by
  cases h with
  | init _ _ => exact List.nodup_nil
  | commit _ _ hids _ => exact hids

/-- A transaction whose calls succeed extends the run. -/
theorem Run.of_isOk {c : Committed} {docs : Docs} (h : Run H U c docs) (new : List (Ulid × String))
    (hids : ((new.reverse ++ docs).map Prod.fst).Nodup)
    (hok : (indexAll H U new (Txn.begin c)).isOk = true) :
    ∃ t, indexAll H U new (Txn.begin c) = .ok ((), t) ∧ Run H U t.commit (new.reverse ++ docs) := by
  cases hrun : indexAll H U new (Txn.begin c) with
  | error e =>
      rw [hrun] at hok
      cases hok
  | ok r => exact ⟨r.2, rfl, h.commit new hids hrun⟩

/-- The documents that are seen have distinct ids. -/
theorem Sees.nodup {src : PageSource} {root : Nat} {docs : Docs} (h : Sees H U src root docs) :
    (docs.map Prod.fst).Nodup := by
  cases h with
  | committed h => exact h.nodup
  | inTxn _ _ hids _ => exact hids

/-- Every reader finds an index with the content of its documents. -/
theorem Sees.index {src : PageSource} {root : Nat} {docs : Docs} (h : Sees H U src root docs) :
    ∃ stats ix own, At H src.pageSize src.formatVersion src.view root stats ix own ∧ src.Owns own ∧
      Content U docs stats ix := by
  cases h with
  | committed h =>
      obtain ⟨hwf, stats, ix, own, hin, hcontent⟩ := h.inStore
      exact ⟨stats, ix, own, hin.index, hin.owns.source hwf, hcontent⟩
  | inTxn h new hids ht =>
      obtain ⟨hwf, stats, ix, own, hin, hcontent⟩ := h.inStore
      obtain ⟨ht', stats', ix', own', hin', hcontent'⟩ :=
        (wp_indexAll U new ⟨Txn.wf_begin hwf, stats, ix, own, hin.begin, hcontent⟩ hids).ok ht
      exact ⟨stats', ix', own', hin'.index, hin'.owns.source ht', hcontent'⟩

/-! ## The content, in the words of the documents -/

/-- Replacing a frequency changes the sum by the difference. -/
theorem sum_snd_insertKey {m : List (Bytes × Nat)} (h : Sorted m) (k : Bytes) (v : Nat) :
    ((insertKey k v m).map Prod.snd).sum + (find k m).getD 0 = (m.map Prod.snd).sum + v := by
  simpa using sum_insertKey h (fun n => n) k v

/-- Counting the terms of a document counts each of them. -/
theorem sum_foldl_countTerm (ts : List Bytes) {freqs : List (Bytes × Nat)} (hs : Sorted freqs)
    (hlt : (freqs.map Prod.snd).sum + ts.length < 2 ^ 32) :
    ((ts.foldl countTerm freqs).map Prod.snd).sum = (freqs.map Prod.snd).sum + ts.length := by
  induction ts generalizing freqs with
  | nil => rfl
  | cons t ts ih =>
      rw [List.length_cons] at hlt
      have hfound : (find t freqs).getD 0 ≤ (freqs.map Prod.snd).sum := by
        have := sum_snd_insertKey hs t 0
        omega
      have hmod : ((find t freqs).getD 0 + 1) % 2 ^ 32 = (find t freqs).getD 0 + 1 :=
        Nat.mod_eq_of_lt (by omega)
      have hsum : ((countTerm freqs t).map Prod.snd).sum = (freqs.map Prod.snd).sum + 1 := by
        have := sum_snd_insertKey hs t (((find t freqs).getD 0 + 1) % 2 ^ 32)
        rw [hmod] at this
        unfold countTerm
        rw [hmod]
        omega
      have hs' : Sorted (countTerm freqs t) := sorted_insertKey hs
      rw [List.foldl_cons, ih hs' (by omega), hsum, List.length_cons]
      omega

/-- The frequencies of a document add up to its number of tokens. -/
theorem sum_termFreqs {content : String} (h : (tokenize U content).length < 2 ^ 32) :
    ((termFreqs U content).map Prod.snd).sum = (tokenize U content).length := by
  have hsum := sum_foldl_countTerm (terms U content) (List.Pairwise.nil : Sorted ([] : List (Bytes × Nat)))
    (by simpa [terms_length] using h)
  simpa [termFreqs, terms_length] using hsum

/-- How often a term occurs in a text: the number of tokens whose clipped form it is. -/
def occurrences (U : Unicode) (term : Bytes) (content : String) : Nat :=
  ((tokenize U content).map fun token => asBytes (clipTerm token)).count term

/-- The frequency of a term is the number of its occurrences. -/
theorem tfOf_eq {docs : Docs} (hlen : ∀ d ∈ docs, (tokenize U d.2).length < 2 ^ 32)
    (term : Bytes) (id : Ulid) (tf : Nat) :
    tfOf U docs term id = some tf ↔
      0 < tf ∧ ∃ content, find id docs = some content ∧ tf = occurrences U term content := by
  have hfreq : ∀ content, find id docs = some content →
      (find term (termFreqs U content) = some tf ↔ 0 < tf ∧ tf = occurrences U term content) := by
    intro content hc
    have hbound : occurrences U term content < 2 ^ 32 := by
      refine lt_of_le_of_lt List.count_le_length ?_
      rw [List.length_map]
      exact hlen (id, content) (mem_of_find hc)
    rw [find_termFreqs, terms_eq]
    change (if occurrences U term content = 0 then _ else some (occurrences U term content % _)) = _ ↔ _
    rw [Nat.mod_eq_of_lt hbound]
    split
    · simp
      omega
    · simp
      omega
  unfold tfOf
  cases hc : find id docs with
  | none => simp
  | some content =>
      rw [Option.bind_some, hfreq content hc]
      simp

/-- A term's postings are the ids that have it, ascending, each with the number of its
occurrences; the statistics count the documents and their tokens. The counters are
machine integers: documents of fewer than `2 ^ 32` tokens are counted exactly. -/
theorem inverted_index_content {src : PageSource} {root : Nat} {docs : Docs}
    (h : Sees H U src root docs) (hlen : ∀ d ∈ docs, (tokenize U d.2).length < 2 ^ 32) :
    ∃ loaded, loadMeta src root = .ok loaded ∧
      (∀ term, (postingsFor H src (loaded.getD .empty).dictRoot term = .ok none ∧
          ∀ d ∈ docs, occurrences U term d.2 = 0) ∨
        ∃ entries, postingsFor H src (loaded.getD .empty).dictRoot term = .ok (some entries) ∧
          Sorted entries ∧ entries ≠ [] ∧ ∀ id tf, (id, tf) ∈ entries ↔
            0 < tf ∧ ∃ content, (id, content) ∈ docs ∧ tf = occurrences U term content) ∧
      (loaded.getD .empty).docCount = min docs.length (2 ^ 64 - 1) ∧
      (loaded.getD .empty).totalTokens =
        min (docs.map fun d => docLen U d.2).sum (2 ^ 64 - 1) ∧
      ∀ text, docLen U text = min (tokenize U text).length (2 ^ 32 - 1) := by
  obtain ⟨stats, ix, own, hat, ho, hcontent⟩ := h.index
  have hnd := h.nodup
  -- the meta page, or its default on an empty index
  have hstats : ((if root = 0 then none else some stats).getD FtsMeta.empty) = stats := by
    rcases hat.pages with ⟨h0, rfl, _⟩ | ⟨_, hne, _⟩
    · rw [if_pos h0]
      rfl
    · rw [if_neg hne]
      rfl
  refine ⟨_, hat.loadMeta ho, ?_⟩
  rw [hstats]
  refine ⟨?_, hcontent.docCount, ?_, docLen_eq U⟩
  · intro term
    have hpost := hcontent.postings term
    obtain ⟨ownD, hdict⟩ := hat.dict ho
    rcases postingsFor_of_holds hat.index_ok hdict term with
      ⟨hread, hfind⟩ | ⟨entries, page, hfind, hok, hread⟩
    · -- no list: no document has the term
      refine Or.inl ⟨hread, ?_⟩
      rintro ⟨id, content⟩ hd
      by_contra hpos
      have htf := (tfOf_eq hlen term id (occurrences U term content)).mpr
        ⟨Nat.pos_of_ne_zero hpos, content, find_of_mem hnd hd, rfl⟩
      rw [← hpost id, hfind] at htf
      cases htf
    -- a list: its entries are the counts in the documents
    · rw [hfind, Option.getD_some] at hpost
      have hmem : ∀ id tf, (id, tf) ∈ entries ↔
          0 < tf ∧ ∃ content, (id, content) ∈ docs ∧ tf = occurrences U term content := by
        intro id tf
        have hiff := tfOf_eq hlen term id tf
        rw [← hpost id] at hiff
        constructor
        · intro hin
          obtain ⟨hpos, content, hc, htf⟩ := hiff.mp (find_of_mem hok.2.1.nodup_keys hin)
          exact ⟨hpos, content, mem_of_find hc, htf⟩
        · rintro ⟨hpos, content, hc, htf⟩
          exact mem_of_find (hiff.mpr ⟨hpos, content, find_of_mem hnd hc, htf⟩)
      refine Or.inr ⟨entries, ?_, hok.2.1, hok.1, hmem⟩
      rw [hread]
      refine checked_of_pos page _ ?_
      rintro ⟨id, tf⟩ hin
      exact ((hmem id tf).mp hin).1
  · rw [hcontent.totalTokens]
    -- the sum of the frequencies of a document is its length
    have hmap : (docs.map fun d => ((termFreqs U d.2).map Prod.snd).sum) =
        docs.map fun d => docLen U d.2 := by
      refine List.map_congr_left ?_
      intro d hd
      have hd' := hlen d hd
      rw [sum_termFreqs hd', docLen_eq]
      omega
    rw [hmap]

/-- Two documents, committed one after the other in the order of their arrival. -/
def twoDocuments : Docs := [(7, String.ofList ['a', ' ', 'A']), (3, String.ofList ['a', ' ', 'b'])]

/-- The word they share is listed with both, by id; the counters count both. -/
theorem inverted_index_content_two_documents :
    ∃ t, indexAll ⟨fun _ => 0, fun _ _ => 0⟩ .ascii twoDocuments (Txn.begin (Committed.fresh 8 512)) = .ok ((), t) ∧
      ∃ loaded, loadMeta (t.commit.source ⟨fun _ => 0, fun _ _ => 0⟩) t.commit.header.ftsRootPage = .ok loaded ∧
        (loaded.getD .empty).docCount = 2 ∧ (loaded.getD .empty).totalTokens = 4 ∧
        postingsFor ⟨fun _ => 0, fun _ _ => 0⟩ (t.commit.source ⟨fun _ => 0, fun _ _ => 0⟩) (loaded.getD .empty).dictRoot
          [99] = .ok none ∧
        ∃ entries, postingsFor ⟨fun _ => 0, fun _ _ => 0⟩ (t.commit.source ⟨fun _ => 0, fun _ _ => 0⟩)
            (loaded.getD .empty).dictRoot [97] = .ok (some entries) ∧
          Sorted entries ∧ (7, 2) ∈ entries ∧ (3, 1) ∈ entries := by
  have hinit : Run ⟨fun _ => 0, fun _ _ => 0⟩ .ascii (Committed.fresh 8 512) [] :=
    Run.init (Committed.wf_fresh _ (by decide) (by decide) (by decide)) rfl
  rcases hinit.of_isOk twoDocuments (by decide +kernel) (by decide +kernel) with ⟨t, hrun, hcommit⟩
  rcases inverted_index_content (Sees.committed hcommit) (by decide +kernel) with
    ⟨loaded, hloaded, hpostings, hcount, htokens, _⟩
  refine ⟨t, hrun, loaded, hloaded, hcount, htokens, ?_, ?_⟩
  · rcases hpostings [99] with ⟨hnone, _⟩ | ⟨entries, _, _, hne, hmem⟩
    · exact hnone
    · have hzero : ∀ d ∈ twoDocuments.reverse ++ [], occurrences .ascii [99] d.2 = 0 := by decide +kernel
      rcases List.exists_mem_of_ne_nil entries hne with ⟨⟨id, tf⟩, hentry⟩
      rcases (hmem id tf).mp hentry with ⟨hpos, content, hdoc, htf⟩
      rw [htf, hzero _ hdoc] at hpos
      exact absurd hpos (lt_irrefl 0)
  · rcases hpostings [97] with ⟨_, hzero⟩ | ⟨entries, hentries, hsorted, _, hmem⟩
    · exact absurd (hzero _ (List.mem_cons_self)) (by decide +kernel)
    · refine ⟨entries, hentries, hsorted, (hmem 7 2).mpr ?_, (hmem 3 1).mpr ?_⟩
      · exact ⟨by decide, String.ofList ['a', ' ', 'A'], by decide +kernel, by decide +kernel⟩
      · exact ⟨by decide, String.ofList ['a', ' ', 'b'], by decide +kernel, by decide +kernel⟩

/-- A text of `n` one-letter words. -/
def oneLetterWords (n : Nat) : List Char := (List.replicate n ['a', ' ']).flatten

/-- A text of `n` words of one letter. -/
theorem tokenizeFrom_oneLetterWords (n : Nat) :
    (tokenizeFrom .ascii [] (oneLetterWords n)).length = n := by
  induction n with
  | zero => rfl
  | succ n ih =>
      have hcons : oneLetterWords (n + 1) = 'a' :: ' ' :: oneLetterWords n := by
        simp [oneLetterWords, List.replicate_succ]
      have ha : Unicode.ascii.isAlphanumeric 'a' = true := by decide
      have hs : Unicode.ascii.isAlphanumeric ' ' = false := by decide
      have hlow : Unicode.ascii.toLowercase 'a' = ['a'] := by decide
      simp [hcons, tokenizeFrom, ha, hs, hlow, ih]

/-- The token counter of a text is capped: it is below the number of tokens from
`2 ^ 32` tokens on. -/
theorem docLen_saturates :
    docLen .ascii (String.ofList (oneLetterWords (2 ^ 32))) ≠
      (tokenize .ascii (String.ofList (oneLetterWords (2 ^ 32)))).length := by
  have hlen : (tokenize .ascii (String.ofList (oneLetterWords (2 ^ 32)))).length = 2 ^ 32 := by
    rw [tokenize, String.toList_ofList, tokenizeFrom_oneLetterWords]
  rw [docLen_eq, hlen]
  norm_num

end Fts

end EmbedMind
