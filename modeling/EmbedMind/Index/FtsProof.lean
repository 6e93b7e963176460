import EmbedMind.Index.DictMap
import EmbedMind.Index.Fts
import EmbedMind.Index.PostingsProof

/-!
# What the full-text index holds

`At`: the pages of a view hold an index, that is statistics and a map from terms to
postings. A reader gets the postings of a term (`At.postingsFor`), `indexDocument`
adds one document (`wp_indexDocument`).
-/

namespace EmbedMind

open Lib Lib.Assoc Lib.PagedTree

namespace Fts

/-- The postings of every term. -/
abbrev Index := List (Bytes × List Posting)

/-- What every stored list satisfies. -/
def PostingsOk (entries : List Posting) : Prop :=
  entries ≠ [] ∧ Sorted entries ∧ ∀ e ∈ entries, e.2 < 2 ^ 32

def IndexOk (ix : Index) : Prop := ∀ e ∈ ix, PostingsOk e.2

/-- The dictionary an index is stored as. -/
def encodeIndex (layout : PostingsLayout) (ix : Index) : List (Bytes × Bytes) :=
  mapVal (fun entries => encode entries layout) ix

/-- The counters are within their type. -/
structure FtsMeta.Wf (stats : FtsMeta) : Prop where
  docCount : stats.docCount < 2 ^ 64
  totalTokens : stats.totalTokens < 2 ^ 64
  dictRoot : stats.dictRoot < 2 ^ 64

/-- The index on the pages of a view. -/
structure At (H : Xxh3) (pageSize version : Nat) (μ : Nat → Option Bytes) (root : Nat)
    (stats : FtsMeta) (ix : Index) (own : List Nat) : Prop where
  stats_wf : stats.Wf
  index_ok : IndexOk ix
  pages : (root = 0 ∧ stats = .empty ∧ ix = [] ∧ own = []) ∨
    ∃ ownD, root ≠ 0 ∧ μ root = some (stats.encode H pageSize) ∧
      Rooted (Dict.pageLayout H FTS_DICT pageSize) μ stats.dictRoot
        (encodeIndex (.forFormatVersion version) ix) ownD ∧ own = root :: ownD

section View

variable {H : Xxh3} {pageSize version : Nat} {μ μ' : Nat → Option Bytes} {root : Nat} {stats : FtsMeta}
  {ix : Index} {own : List Nat}

theorem at_empty : At H pageSize version μ 0 .empty [] [] where
  stats_wf := ⟨by decide, by decide, by decide⟩
  index_ok := by simp [IndexOk]
  pages := Or.inl ⟨rfl, rfl, rfl, rfl⟩

/-- Writes to other pages leave the index. -/
theorem At.frame (h : At H pageSize version μ root stats ix own) (hμ : ∀ p ∈ own, μ' p = μ p) :
    At H pageSize version μ' root stats ix own where
  stats_wf := h.stats_wf
  index_ok := h.index_ok
  pages := by
    rcases h.pages with h0 | ⟨ownD, hne, hpage, htree, rfl⟩
    · exact Or.inl h0
    · refine Or.inr ⟨ownD, hne, ?_, htree.frame ?_, rfl⟩
      · rw [hμ root List.mem_cons_self, hpage]
      · intro p hp
        exact hμ p (List.mem_cons_of_mem _ hp)

/-- The terms ascend. -/
theorem At.sorted (h : At H pageSize version μ root stats ix own) : Sorted ix := by
  rcases h.pages with ⟨_, _, rfl, _⟩ | ⟨_, _, _, htree, _⟩
  · exact List.Pairwise.nil
  · exact (sorted_mapVal _).mp htree.sorted

end View

/-! ## Reading -/

/-- The meta page is read back. -/
theorem FtsMeta.decode_encode (H : Xxh3) {stats : FtsMeta} (h : stats.Wf) {pageSize : Nat}
    (hlo : 512 ≤ pageSize) (pageNo : Nat) : FtsMeta.decode (stats.encode H pageSize) pageNo = .ok stats := by
  have hlen : stats.body.length = 25 := by simp [FtsMeta.body]
  have hfit : PAGE_HEADER_LEN + stats.body.length ≤ pageSize - PAGE_TRAILER_LEN := by
    simp only [hlen, PAGE_HEADER_LEN, PAGE_TRAILER_LEN]
    omega
  have hhead : PageHeader.decode (stats.encode H pageSize) = some ⟨.ftsDict, 0, 0⟩ :=
    Dict.nodePage_header hlo (by norm_num)
  have hbody : HasAt (stats.encode H pageSize) PAGE_HEADER_LEN stats.body := Dict.nodePage_body hfit
  obtain ⟨hkind, hrest⟩ := hasAt_cons.mp hbody
  obtain ⟨hrest, h3⟩ := hasAt_append.mp hrest
  obtain ⟨h1, h2⟩ := hasAt_append.mp hrest
  rw [List.length_append, leBytes_length, leBytes_length] at h3
  rw [leBytes_length] at h2
  have hread1 := Dict.getInt_of_hasAt pageNo h1 h.docCount
  have hread2 := Dict.getInt_of_hasAt pageNo h2 h.totalTokens
  have hread3 := Dict.getInt_of_hasAt pageNo h3 h.dictRoot
  simp only [FtsMeta.decode, hhead, okOr_some, ok_bind, ne_eq, not_true_eq_false, if_false,
    hkind.getElem?, hread1, hread2, hread3]

section Read

variable {H : Xxh3} {src : PageSource} {root : Nat} {stats : FtsMeta} {ix : Index} {own : List Nat}

/-- Loading the meta page. -/
theorem At.loadMeta (h : At H src.pageSize src.formatVersion src.view root stats ix own)
    (ho : src.Owns own) : loadMeta src root = .ok (if root = 0 then none else some stats) := by
  unfold Fts.loadMeta
  rcases h.pages with ⟨rfl, _⟩ | ⟨ownD, hne, hpage, _⟩
  · rfl
  · rw [if_neg hne, if_neg hne, PageSource.page_of_view hpage, ok_bind,
      FtsMeta.decode_encode H h.stats_wf ho.pageSize_ge]
    rfl

/-- The dictionary of an index, wherever it stands. -/
theorem At.dict (h : At H src.pageSize src.formatVersion src.view root stats ix own)
    (ho : src.Owns own) : ∃ ownD, Dict.Holds H FTS_DICT src stats.dictRoot
      (encodeIndex (.forFormatVersion src.formatVersion) ix) ownD := by
  rcases h.pages with ⟨_, rfl, rfl, rfl⟩ | ⟨ownD, _, _, htree, rfl⟩
  · exact ⟨[], rooted_empty, ho.nodup, ho.bound, ho.pageSize_ge, ho.pageSize_le, by decide⟩
  · have ho' := ho.sublist (List.sublist_cons_self root ownD)
    exact ⟨ownD, htree, ho'.nodup, ho'.bound, ho'.pageSize_ge, ho'.pageSize_le, by decide⟩

/-- The body of a term's postings. -/
theorem body_of_holds {root : Nat} {ownD : List Nat}
    (h : Dict.Holds H FTS_DICT src root (encodeIndex (.forFormatVersion src.formatVersion) ix) ownD)
    (term : Bytes) :
    (Dict.get H FTS_DICT src root term = .ok none ∧ find term ix = none) ∨
    ∃ entries page, find term ix = some entries ∧
      Dict.get H FTS_DICT src root term =
        .ok (some (encode entries (.forFormatVersion src.formatVersion), page)) ∧
      (encode entries (.forFormatVersion src.formatVersion)).length < 2 ^ 32 := by
  rcases h.get term with ⟨hget, hfind⟩ | ⟨body, page, hget, hfind⟩
  · rw [encodeIndex, find_mapVal, Option.map_eq_none_iff] at hfind
    exact Or.inl ⟨hget, hfind⟩
  · have hlen := h.length_lt hfind
    rw [encodeIndex, find_mapVal, Option.map_eq_some_iff] at hfind
    obtain ⟨entries, hfind, rfl⟩ := hfind
    exact Or.inr ⟨entries, page, hfind, hget, hlen⟩

/-- A term's postings are read back, or refused for a zero frequency. -/
theorem postingsFor_of_holds {root : Nat} {ownD : List Nat} (hok : IndexOk ix)
    (h : Dict.Holds H FTS_DICT src root (encodeIndex (.forFormatVersion src.formatVersion) ix) ownD)
    (term : Bytes) :
    (postingsFor H src root term = .ok none ∧ find term ix = none) ∨
    ∃ entries page, find term ix = some entries ∧ PostingsOk entries ∧
      postingsFor H src root term = checked entries page (some entries) := by
  unfold postingsFor
  rcases body_of_holds h term with ⟨hget, hfind⟩ | ⟨entries, page, hfind, hget, hlen⟩
  · exact Or.inl ⟨by rw [hget]; rfl, hfind⟩
  · have hentries := hok (term, entries) (mem_of_find hfind)
    refine Or.inr ⟨entries, page, hfind, hentries, ?_⟩
    rw [hget, ok_bind]
    simp only [decode_encode page hentries.2.1 hentries.2.2 _ hlen]
    exact checked_bind page _ _ _ rfl

end Read

/-! ## Adding a document -/

/-- One more posting of a term. -/
def addTerm (id : Ulid) (ix : Index) (e : Bytes × Nat) : Index :=
  insertKey e.1 (insertKey id e.2 ((find e.1 ix).getD [])) ix

/-- The postings of one document. -/
def addTerms (id : Ulid) (freqs : List (Bytes × Nat)) (ix : Index) : Index := freqs.foldl (addTerm id) ix

/-- One more posting. -/
theorem PostingsOk.insert {entries : List Posting} (h : entries = [] ∨ PostingsOk entries) (id : Ulid)
    {tf : Nat} (htf : tf < 2 ^ 32) : PostingsOk (insertKey id tf entries) := by
  have hsorted : Sorted entries := by
    rcases h with rfl | h
    · exact List.Pairwise.nil
    · exact h.2.1
  refine ⟨?_, sorted_insertKey hsorted, ?_⟩
  · intro h0
    have := find_insertKey_self id tf entries
    rw [h0] at this
    cases this
  · intro e he
    rcases mem_insertKey he with rfl | he
    · exact htf
    · rcases h with rfl | h
      · cases he
      · exact h.2.2 e he

/-- One more term of a document. -/
theorem IndexOk.addTerm {ix : Index} (h : IndexOk ix) (id : Ulid) {e : Bytes × Nat}
    (htf : e.2 < 2 ^ 32) : IndexOk (addTerm id ix e) := by
  intro x hx
  rcases mem_insertKey hx with rfl | hx
  · refine PostingsOk.insert ?_ id htf
    cases hf : find e.1 ix with
    | none => exact Or.inl rfl
    | some entries => exact Or.inr (h (e.1, entries) (mem_of_find hf))
  · exact h x hx

section Write

variable {H : Xxh3} {t : Txn} {root : Nat} {ix : Index} {own : List Nat}

/-- Indexing one term. -/
theorem wp_indexTerm {id : Ulid} {term : Bytes} {tf : Nat} (ht : t.Wf H) (hok : IndexOk ix)
    (h : Dict.InTxn H FTS_DICT t root (encodeIndex (.forFormatVersion t.formatVersion) ix) own)
    (htf : tf < 2 ^ 32) :
    Wp (indexTerm H id root term tf) t (fun root' t' => ∃ own', IndexOk (addTerm id ix (term, tf)) ∧
      Dict.InTxn H FTS_DICT t' root'
        (encodeIndex (.forFormatVersion t'.formatVersion) (addTerm id ix (term, tf))) own' ∧
      t.Moved H t' own own') fun _ => True := by
  refine Wp.bind (Txn.wp_current ?_)
  refine Wp.bind (Txn.wp_reading ?_ fun _ _ => trivial)
  intro postings hpostings
  -- whatever the reader returned is the stored list, or nothing is stored
  have hstored : postings.getD [] = (find term ix).getD [] := by
    rcases postingsFor_of_holds hok (h.holds ht) term with ⟨hnone, hfind⟩ | ⟨entries, page, hfind, _, hread⟩
    · rw [hnone] at hpostings
      cases hpostings
      rw [hfind]
    · rw [hread] at hpostings
      unfold checked at hpostings
      split at hpostings
      · cases hpostings
        rw [hfind]
      · cases hpostings
  refine (Dict.wp_upsert h ht term _).imp ?_
  rintro root' t' ⟨own', h', hmoved⟩
  refine ⟨own', hok.addTerm id htf, ?_, hmoved⟩
  have hversion : t'.formatVersion = t.formatVersion := by
    rw [Txn.formatVersion, Txn.formatVersion, hmoved.base]
  rw [hstored] at h'
  rw [hversion, addTerm, encodeIndex, ← insertKey_mapVal]
  exact h'

/-- Indexing the terms of a document. -/
theorem wp_indexTerms {id : Ulid} (freqs : List (Bytes × Nat)) (ht : t.Wf H) (hok : IndexOk ix)
    (h : Dict.InTxn H FTS_DICT t root (encodeIndex (.forFormatVersion t.formatVersion) ix) own)
    (htf : ∀ e ∈ freqs, e.2 < 2 ^ 32) :
    Wp (indexTerms H id root freqs) t (fun root' t' => ∃ own', IndexOk (addTerms id freqs ix) ∧
      Dict.InTxn H FTS_DICT t' root'
        (encodeIndex (.forFormatVersion t'.formatVersion) (addTerms id freqs ix)) own' ∧
      t.Moved H t' own own') fun _ => True := by
  induction freqs generalizing t root ix own with
  | nil => exact Wp.pure ⟨own, hok, h, Txn.Moved.refl ht h.owns.lt⟩
  | cons e freqs ih =>
      obtain ⟨term, tf⟩ := e
      refine Wp.bind ((wp_indexTerm ht hok h (htf (term, tf) List.mem_cons_self)).imp ?_)
      rintro root' t₁ ⟨own₁, hok₁, h₁, hmoved₁⟩
      refine (ih hmoved₁.wf hok₁ h₁ fun e he => htf e (List.mem_cons_of_mem _ he)).imp ?_
      rintro root'' t₂ ⟨own₂, hok₂, h₂, hmoved₂⟩
      exact ⟨own₂, hok₂, h₂, hmoved₁.trans hmoved₂⟩

end Write

/-- The index in a transaction. -/
structure InTxn (H : Xxh3) (t : Txn) (stats : FtsMeta) (ix : Index) (own : List Nat) : Prop where
  index : At H t.pageSize t.formatVersion (t.view H) t.ftsRootPage stats ix own
  owns : t.Owns own

/-- Only the index's own root moves. -/
def RootOnly (p q : PendingHeader) : Prop := ∃ r, q = { p with ftsRoot := r }

theorem RootOnly.refl (p : PendingHeader) : RootOnly p p := ⟨p.ftsRoot, rfl⟩

theorem RootOnly.trans (p q r : PendingHeader) (h : RootOnly p q) (h' : RootOnly q r) : RootOnly p r := by
  obtain ⟨x, rfl⟩ := h
  obtain ⟨y, rfl⟩ := h'
  exact ⟨y, rfl⟩

section Document

variable {H : Xxh3} {t : Txn} {stats : FtsMeta} {ix : Index} {own : List Nat}

@[simp] theorem FtsMeta.encode_length (stats : FtsMeta) (pageSize : Nat) :
    (stats.encode H pageSize).length = pageSize := by
  simp [FtsMeta.encode]

theorem stamp_encode (stats : FtsMeta) (pageSize : Nat) :
    stampPageChecksum H (stats.encode H pageSize) = stats.encode H pageSize :=
  stampPageChecksum_idem H _

/-- Setting the root keeps the transaction well formed. -/
theorem wf_setFtsRootPage (ht : t.Wf H) {n : Nat} (hn : n < 2 ^ 64) : (t.setFtsRootPage n).Wf H := by
  refine ht.withPending { ht.pending with ftsRoot := ?_ }
  intro x hx
  cases hx
  exact hn

/-- The root moves. -/
theorem inTxn_setFtsRootPage {t' : Txn} {own' : List Nat} (hm : t.Moved H t' own own') {n : Nat}
    (h : At H t.pageSize t.formatVersion (t'.view H) n stats ix own') (ho : t'.Owns own') :
    InTxn H (t'.setFtsRootPage n) stats ix own' where
  index := by
    have hsize : (t'.setFtsRootPage n).pageSize = t.pageSize := hm.pageSize
    have hversion : (t'.setFtsRootPage n).formatVersion = t.formatVersion := by
      rw [Txn.formatVersion, Txn.formatVersion, ← hm.base]
      rfl
    rw [hsize, hversion]
    exact h
  owns := ⟨ho.nodup, ho.pos, ho.lt⟩

/-- A step that moves the root. -/
theorem stepped_setFtsRootPage {t' : Txn} {own' : List Nat} (hm : t.Moved H t' own own') {n : Nat}
    (hn : n < 2 ^ 64) : t.Stepped H RootOnly (t'.setFtsRootPage n) own own' where
  wf := wf_setFtsRootPage hm.wf hn
  base := hm.base
  pending := by
    refine ⟨some n, ?_⟩
    rw [← hm.pending]
    rfl
  step := hm.step

/-- The statistics land on the meta page, a fresh one for the first document. -/
theorem wp_saveMeta {ownD : List Nat} (ht : t.Wf H) (hw : stats.Wf) (hok : IndexOk ix)
    (hdict : Rooted (Dict.pageLayout H FTS_DICT t.pageSize) (t.view H) stats.dictRoot
      (encodeIndex (.forFormatVersion t.formatVersion) ix) ownD)
    (hroot : Txn.Headed t.ftsRootPage own ownD) (ho : t.Owns own) :
    Wp (saveMeta H stats) t (fun _ t' => ∃ own', InTxn H t' stats ix own' ∧
      t.Stepped H RootOnly t' own own') fun _ => True := by
  refine Wp.bind (Txn.wp_current ?_)
  refine Txn.wp_saveRoot ht hroot ho (FtsMeta.encode_length _ _) trivial ?_
  intro n t' hpos hn hmoved hview hkeep
  rw [stamp_encode] at hview
  have hindex : At H t.pageSize t.formatVersion (t'.view H) n stats ix (n :: ownD) :=
    ⟨hw, hok, Or.inr ⟨ownD, Nat.ne_of_gt hpos, hview, hdict.frame hkeep, rfl⟩⟩
  exact Wp.of_ok (a := ()) rfl ⟨n :: ownD, inTxn_setFtsRootPage hmoved hindex (hmoved.owns ht ho),
    stepped_setFtsRootPage hmoved hn⟩

/-- Frequencies saturate below `2 ^ 32`. -/
theorem termFreqs_lt (U : Unicode) (content : String) : ∀ e ∈ termFreqs U content, e.2 < 2 ^ 32 := by
  rintro ⟨term, tf⟩ he
  have hfind := find_of_mem (sorted_termFreqs U content).nodup_keys he
  rw [find_termFreqs] at hfind
  split at hfind
  · cases hfind
  · cases hfind
    exact Nat.mod_lt _ (by norm_num)

/-- Indexing a document adds its postings and counts it. -/
theorem wp_indexDocument (U : Unicode) {id : Ulid} {content : String} (ht : t.Wf H)
    (h : InTxn H t stats ix own) :
    Wp (indexDocument H U id content) t (fun _ t' => ∃ root own', InTxn H t'
        ⟨saturatingAdd stats.docCount 1,
          saturatingAdd stats.totalTokens ((termFreqs U content).map Prod.snd).sum, root⟩
        (addTerms id (termFreqs U content) ix) own' ∧
      t.Stepped H RootOnly t' own own') fun _ => True := by
  refine Wp.bind (Txn.wp_current ?_)
  refine Wp.bind (Txn.wp_reading ?_ fun _ _ => trivial)
  intro loaded hloaded
  have hstats : loaded.getD FtsMeta.empty = stats := by
    have hload := h.index.loadMeta (h.owns.source ht)
    rw [show loadMeta (t.source H) t.ftsRootPage = _ from hload] at hloaded
    cases hloaded
    rcases h.index.pages with ⟨h0, rfl, _⟩ | ⟨_, hne, _⟩
    · rw [if_pos h0]
      rfl
    · rw [if_neg hne]
      rfl
  rw [hstats]
  -- the pages of the dictionary, with the meta page apart
  obtain ⟨ownD, hdict, hroot⟩ : ∃ ownD, Dict.InTxn H FTS_DICT t stats.dictRoot
      (encodeIndex (.forFormatVersion t.formatVersion) ix) ownD ∧ Txn.Headed t.ftsRootPage own ownD := by
    rcases h.index.pages with ⟨h0, rfl, rfl, rfl⟩ | ⟨ownD, hne, _, htree, rfl⟩
    · exact ⟨[], ⟨rooted_empty, h.owns, by decide⟩, Or.inl ⟨h0, rfl⟩⟩
    · have hs := List.sublist_cons_self t.ftsRootPage ownD
      exact ⟨ownD, ⟨htree, h.owns.sublist hs, by decide⟩, Or.inr ⟨hne, rfl⟩⟩
  refine Wp.bind ((wp_indexTerms (termFreqs U content) ht h.index.index_ok hdict
    (termFreqs_lt U content)).imp ?_)
  rintro root t₁ ⟨ownD₁, hok₁, h₁, hmoved₁⟩
  obtain ⟨own₁, hroot₁, hstep₁⟩ := hroot.move h.owns hmoved₁
  have hfts : t.ftsRootPage = t₁.ftsRootPage := by
    rw [Txn.ftsRootPage, Txn.ftsRootPage, hmoved₁.pending, hmoved₁.base]
  rw [hfts] at hroot₁
  have hw : FtsMeta.Wf ⟨saturatingAdd stats.docCount 1,
      saturatingAdd stats.totalTokens ((termFreqs U content).map Prod.snd).sum, root⟩ :=
    ⟨saturatingAdd_lt _ _, saturatingAdd_lt _ _, h₁.root_lt hmoved₁.wf⟩
  refine (wp_saveMeta hmoved₁.wf hw hok₁ h₁.rooted hroot₁ (hstep₁.owns ht h.owns)).imp ?_
  rintro _ t₂ ⟨own₂, h₂, hstep₂⟩
  exact ⟨root, own₂, h₂, (hstep₁.stepped RootOnly.refl).trans hstep₂ RootOnly.trans⟩

end Document

end Fts

end EmbedMind
