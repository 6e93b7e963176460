import EmbedMind.Index.Postings
import EmbedMind.Index.Tokenize
import EmbedMind.Lib.TopK
import Mathlib.Analysis.SpecialFunctions.Log.Basic

/-!
# The full-text index (`index/fts.rs`, `docs/FORMAT.md` §11)

A meta page with the corpus statistics and the root of a dictionary from terms to
postings. `indexDocument` adds one document; `searchProfiled` is the exhaustive BM25
scan and `searchLinear` the scan that stops at a bound. The block-skipping search is
in `Index.Bmw`.

Scores are elements of an ordered field, so that they add and compare exactly; the
inverse document frequency, a logarithm in the source, is a positive weight of the
corpus size and the document frequency.
-/

namespace EmbedMind

open Lib Lib.Assoc

namespace Fts

/-! ## The meta page -/

/-- Corpus statistics and the root of the dictionary. -/
structure FtsMeta where
  docCount : Nat
  totalTokens : Nat
  dictRoot : Nat
deriving DecidableEq, Repr

namespace FtsMeta

def empty : FtsMeta := ⟨0, 0, 0⟩

def body (stats : FtsMeta) : Bytes :=
  Dict.NODE_META :: (leBytes 8 stats.docCount ++ leBytes 8 stats.totalTokens ++ leBytes 8 stats.dictRoot)

def encode (H : Xxh3) (stats : FtsMeta) (pageSize : Nat) : Bytes :=
  Dict.nodePage H FTS_DICT pageSize 0 stats.body

def decode (page : Bytes) (pageNo : Nat) : Except Error FtsMeta := do
  let header ← okOr (PageHeader.decode page) (.malformedPage pageNo "fts page header")
  if header.pageType ≠ .ftsDict then malformed pageNo "not an FTS page"
  else if page[PAGE_HEADER_LEN]? ≠ some Dict.NODE_META then malformed pageNo "not an FTS meta page"
  else do
    let (docCount, off) ← Dict.getInt page (PAGE_HEADER_LEN + 1) 8 pageNo
    let (totalTokens, off) ← Dict.getInt page off 8 pageNo
    let (dictRoot, _) ← Dict.getInt page off 8 pageNo
    .ok ⟨docCount, totalTokens, dictRoot⟩

end FtsMeta

/-- The meta page, or none when no index exists yet. -/
def loadMeta (src : PageSource) (root : Nat) : Except Error (Option FtsMeta) :=
  if root = 0 then .ok none
  else do
    let page ← src.page root
    let stats ← FtsMeta.decode page root
    .ok (some stats)

section Index

variable (H : Xxh3) (U : Unicode)

def saveMeta (stats : FtsMeta) : TxnM Unit := do
  let txn ← TxnM.current
  let pageNo ← TxnM.pageOrFresh H txn.ftsRootPage
  TxnM.writePage H pageNo (stats.encode H txn.pageSize)
  TxnM.update fun t => t.setFtsRootPage pageNo

/-- A term's postings, in the layout of the file. -/
def postingsFor (src : PageSource) (root : Nat) (term : Bytes) :
    Except Error (Option (List Posting)) := do
  match ← Dict.get H FTS_DICT src root term with
  | some (body, pageNo) => do
      let entries ← decode body pageNo (PostingsLayout.forFormatVersion src.formatVersion)
      .ok (some entries)
  | none => .ok none

/-- Merges one posting into the dictionary. -/
def indexTerm (recordId : Ulid) (root : Nat) (term : Bytes) (tf : Nat) : TxnM Nat := do
  let txn ← TxnM.current
  let layout := PostingsLayout.forFormatVersion txn.formatVersion
  let postings ← (TxnM.reading H fun src => postingsFor H src root term)
  let entries := insertKey recordId tf (postings.getD [])
  Dict.upsert H FTS_DICT root term (encode entries layout)

/-- The terms of one document, each at the root the previous one returned. -/
def indexTerms (recordId : Ulid) : Nat → List (Bytes × Nat) → TxnM Nat
  | root, [] => pure root
  | root, (term, tf) :: rest => do
      let root ← indexTerm H recordId root term tf
      indexTerms recordId root rest

/-- Indexes one document's content under an id. -/
def indexDocument (recordId : Ulid) (content : String) : TxnM Unit := do
  let freqs := termFreqs U content
  let txn ← TxnM.current
  let stats ← (TxnM.reading H fun src => loadMeta src txn.ftsRootPage)
  let stats := stats.getD FtsMeta.empty
  let docTokens := (freqs.map Prod.snd).sum
  let root ← indexTerms H recordId stats.dictRoot freqs
  saveMeta H ⟨saturatingAdd stats.docCount 1, saturatingAdd stats.totalTokens docTokens, root⟩

end Index

/-! ## Scores -/

section Scores

variable {α : Type} [Field α] [LinearOrder α]

def BM25_K1 : α := 6 / 5
def BM25_B : α := 3 / 4

/-- `f32::MIN_POSITIVE`. -/
def MIN_POSITIVE : α := 1 / 2 ^ 126

/-- One full-text hit. -/
structure Hit (α : Type) where
  recordId : Ulid
  score : α
deriving DecidableEq

/-- A term's contribution to the score of a document. -/
def contribution (idf avgdl : α) (tf dl : Nat) : α :=
  idf * ((tf : α) * (BM25_K1 + 1)) /
    max ((tf : α) + BM25_K1 * (1 - BM25_B + BM25_B * (dl : α) / max avgdl 1)) MIN_POSITIVE

/-- The contribution at document length 0. -/
def boundContribution (idf : α) (tf : Nat) : α :=
  idf * ((tf : α) * (BM25_K1 + 1)) / max ((tf : α) + BM25_K1 * (1 - BM25_B)) MIN_POSITIVE

/-- The slack on sums of bounds. -/
def boundSlack (terms : Nat) : α := 1 + (terms : α) * (12 / 10 ^ 8)

/-- The inverse document frequency as a function of corpus size and document frequency. -/
structure Idf (α : Type) [Field α] [LinearOrder α] where
  weight : Nat → Nat → α
  pos : ∀ n df, 0 < df → df ≤ n → 0 < weight n df

/-- The weight of BM25: a logarithm with smoothing. -/
noncomputable def Idf.bm25 : Idf ℝ where
  weight := fun n df => Real.log (1 + ((n : ℝ) - df + 1 / 2) / (df + 1 / 2))
  pos := by
    intro n df _ hle
    have hle' : (df : ℝ) ≤ n := by exact_mod_cast hle
    have hnum : (0 : ℝ) < (n : ℝ) - df + 1 / 2 := by linarith
    have hden : (0 : ℝ) < (df : ℝ) + 1 / 2 := by positivity
    exact Real.log_pos (by linarith [div_pos hnum hden])

/-- Average document length of a corpus. -/
def avgdl (stats : FtsMeta) : α := (stats.totalTokens : α) / (stats.docCount : α)

/-- Ordered insertion, best score first and smaller id first among equals, keeping `k`. -/
def insertHit (k : Nat) (hit : Hit α) (hits : List (Hit α)) : List (Hit α) :=
  let pos := (hits.takeWhile fun h =>
    decide (hit.score < h.score ∨ h.score = hit.score ∧ h.recordId < hit.recordId)).length
  if pos < k then (hits.insertIdx pos hit).take k else hits

/-- Hits are ordered best first. -/
def Hit.le (a b : Hit α) : Prop :=
  b.score < a.score ∨ a.score = b.score ∧ a.recordId ≤ b.recordId

instance : DecidableRel (@Hit.le α _) := fun a b => by
  unfold Hit.le
  infer_instance

end Scores

/-! ## Searches -/

section Search

variable {α : Type} [Field α] [LinearOrder α] (H : Xxh3) (U : Unicode) (I : Idf α) (src : PageSource)

/-- The postings of the matched terms, each with its weight. -/
def matchTerms (stats : FtsMeta) : List Bytes → Except Error (List (α × List Posting))
  | [] => .ok []
  | term :: rest => do
      let postings ← postingsFor H src stats.dictRoot term
      let found ← matchTerms stats rest
      match postings with
      | none => .ok found
      | some entries =>
          if entries.length = 0 then .ok found
          else .ok ((I.weight stats.docCount entries.length, entries) :: found)

/-- Adds to a candidate's number. -/
def accumulate (scores : List (Ulid × α)) (id : Ulid) (x : α) : List (Ulid × α) :=
  insertKey id ((find id scores).getD 0 + x) scores

/-- Pass 1: an upper bound for every candidate. -/
def candidateBounds (terms : List (α × List Posting)) : List (Ulid × α) :=
  terms.foldl (fun bounds term => term.2.foldl (fun bounds p =>
    accumulate bounds p.1 (boundContribution term.1 p.2)) bounds) []

/-- A document's exact score, over the terms in order. -/
def exactScore (terms : List (α × List Posting)) (avgdl : α) (id : Ulid) (dl : Nat) : α :=
  terms.foldl (fun score term =>
    match find id term.2 with
    | none => score
    | some tf => score + contribution term.1 avgdl tf dl) 0

/-- Pass 2: candidates by falling bound, until the bound is below the last hit. -/
def scanCandidates (terms : List (α × List Posting)) (avgdl : α) (k : Nat) (keep : Ulid → Bool)
    (docLen : Ulid → Except Error (Option Nat)) :
    List (Hit α) → List (Hit α) → Except Error (List (Hit α))
  | [], hits => .ok hits
  | ⟨id, bound⟩ :: rest, hits =>
      if hits.length = k ∧ (hits[k - 1]?).any (fun h => decide (bound < h.score)) then .ok hits
      else if !keep id then scanCandidates terms avgdl k keep docLen rest hits
      else do
        match ← docLen id with
        | none => scanCandidates terms avgdl k keep docLen rest hits
        | some dl =>
            let score := exactScore terms avgdl id dl
            if score ≤ 0 then scanCandidates terms avgdl k keep docLen rest hits
            else scanCandidates terms avgdl k keep docLen rest (insertHit k ⟨id, score⟩ hits)

/-- The early-terminating linear scan. -/
def searchLinear (ftsRootPage : Nat) (query : String) (k : Nat) (keep : Ulid → Bool)
    (docLen : Ulid → Except Error (Option Nat)) : Except Error (List (Hit α)) :=
  if k = 0 then .ok []
  else do
    match ← loadMeta src ftsRootPage with
    | none => .ok []
    | some stats =>
        if stats.docCount = 0 ∨ stats.dictRoot = 0 then .ok []
        else if (queryTerms U query).isEmpty then .ok []
        else do
          let terms ← matchTerms H I src stats (queryTerms U query)
          let candidates := ((candidateBounds terms).map fun c => (⟨c.1, c.2⟩ : Hit α)).insertionSort Hit.le
          scanCandidates terms (avgdl stats) k keep docLen candidates []

/-- What became of a candidate. -/
inductive KeepOutcome where
  | accepted
  | tombstoned
  | outOfScope
  | filteredOut
deriving DecidableEq, Repr

/-- Scores every posting of one term. The source asks `keep` and `doc_len` once per
candidate and remembers the answers; for pure functions that is asking every time. -/
def scorePostings (idf avgdl : α) (keep : Ulid → KeepOutcome)
    (docLen : Ulid → Except Error (Option Nat)) :
    List Posting → List (Ulid × α) → Except Error (List (Ulid × α))
  | [], scores => .ok scores
  | (id, tf) :: rest, scores =>
      if keep id ≠ .accepted then scorePostings idf avgdl keep docLen rest scores
      else do
        match ← docLen id with
        | none => scorePostings idf avgdl keep docLen rest scores
        | some dl =>
            scorePostings idf avgdl keep docLen rest
              (accumulate scores id (contribution idf avgdl tf dl))

def scoreTerms (stats : FtsMeta) (keep : Ulid → KeepOutcome)
    (docLen : Ulid → Except Error (Option Nat)) :
    List Bytes → List (Ulid × α) → Except Error (List (Ulid × α))
  | [], scores => .ok scores
  | term :: rest, scores => do
      match ← postingsFor H src stats.dictRoot term with
      | none => scoreTerms stats keep docLen rest scores
      | some entries =>
          if entries.length = 0 then scoreTerms stats keep docLen rest scores
          else do
            let scores ← scorePostings (I.weight stats.docCount entries.length) (avgdl stats) keep docLen
              entries scores
            scoreTerms stats keep docLen rest scores

/-- The exhaustive scan. -/
def searchProfiled (ftsRootPage : Nat) (query : String) (k : Nat) (keep : Ulid → KeepOutcome)
    (docLen : Ulid → Except Error (Option Nat)) : Except Error (List (Hit α)) :=
  if k = 0 then .ok []
  else do
    match ← loadMeta src ftsRootPage with
    | none => .ok []
    | some stats =>
        if stats.docCount = 0 ∨ stats.dictRoot = 0 then .ok []
        else if (queryTerms U query).isEmpty then .ok []
        else do
          let scores ← scoreTerms H I src stats keep docLen (queryTerms U query) []
          let hits := (scores.filter fun s => decide (0 < s.2)).map fun s => (⟨s.1, s.2⟩ : Hit α)
          .ok ((hits.insertionSort Hit.le).take k)

end Search

end Fts

end EmbedMind
