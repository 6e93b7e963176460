import EmbedMind.Index.FilterMetaUpdate
import EmbedMind.Index.FtsRuns
import EmbedMind.Index.GraphRuns
import EmbedMind.Index.HnswRuns
import EmbedMind.Storage.BtreeMap

/-!
# Five structures in one file

The record tree, the three indexes and the sidecar stand on disjoint pages of one file,
each behind its own header fields. An operation on one of them keeps the other four
(`InTxn.moveBtree` and its siblings); what it does to its own is what its module says.
-/

namespace EmbedMind

open Lib Lib.Assoc Lib.PagedTree

/-- The header fields that the structures stand behind. -/
structure Roots where
  btree : Nat
  fts : Nat
  graph : Nat
  hnsw : Nat
  filterMeta : Nat
  filterSymbols : Nat

def Header.roots (h : Header) : Roots :=
  ⟨h.rootBtreePage, h.ftsRootPage, h.graphRootPage, h.hnswMetaPage, h.filterMetaPage, h.filterSymbolsPage⟩

def Txn.roots (t : Txn) : Roots :=
  ⟨t.rootBtreePage, t.ftsRootPage, t.graphRootPage, t.hnswMetaPage, t.filterMetaPage, t.filterSymbolsPage⟩

namespace Btree

/-- Only the record tree's own root moves. -/
def RootOnly (p q : PendingHeader) : Prop := ∃ r, q = { p with rootBtree := r }

/-- A step of the record tree moves its root only. -/
theorem Step.stepped {H : Xxh3} {t t' : Txn} {own own' : List Nat} (h : Step H t t' own own') :
    t.Stepped H RootOnly t' own own' :=
  ⟨h.wf, h.base, h.pending, h.step⟩

end Btree

namespace FilterMeta

theorem commit_filterMetaPage (t : Txn) : t.commit.header.filterMetaPage = t.filterMetaPage := by
  cases he : t.isEmpty with
  | false =>
      rw [Txn.commit_header he]
      rfl
  | true =>
      have hp := t.pending_of_isEmpty he
      simp only [PendingHeader.isEmpty, Bool.and_eq_true, Option.isNone_iff_eq_none] at hp
      rw [Txn.commit_of_isEmpty he, Txn.filterMetaPage]
      simp [hp]

theorem commit_filterSymbolsPage (t : Txn) : t.commit.header.filterSymbolsPage = t.filterSymbolsPage := by
  cases he : t.isEmpty with
  | false =>
      rw [Txn.commit_header he]
      rfl
  | true =>
      have hp := t.pending_of_isEmpty he
      simp only [PendingHeader.isEmpty, Bool.and_eq_true, Option.isNone_iff_eq_none] at hp
      rw [Txn.commit_of_isEmpty he, Txn.filterSymbolsPage]
      simp [hp]

end FilterMeta

/-- A commit takes the roots over. -/
theorem Txn.commit_roots (t : Txn) : t.commit.header.roots = t.roots := by
  simp only [Header.roots, Txn.roots, Txn.commit_rootBtreePage, Fts.commit_ftsRootPage, Graph.commit_graphRootPage,
    Hnsw.commit_hnswMetaPage, FilterMeta.commit_filterMetaPage, FilterMeta.commit_filterSymbolsPage]

namespace Store

/-- What the five structures hold. -/
structure Structures where
  items : List (Key × Bytes)
  ftsStats : Fts.FtsMeta
  ix : Fts.Index
  graphStats : Graph.GraphMeta
  graph : Graph.Contents
  hnswStats : Hnsw.HnswMeta
  nodes : List Hnsw.Entry
  log : FilterMeta.Entries
  syms : FilterMeta.Symbols

/-- The pages of each. -/
structure Areas where
  btree : List Nat
  fts : List Nat
  graph : List Nat
  hnsw : List Nat
  filterMeta : List Nat

def Areas.all (a : Areas) : List Nat := a.btree ++ a.fts ++ a.graph ++ a.hnsw ++ a.filterMeta

/-- The structures on the pages of a view. -/
structure At (H : Xxh3) (pageSize version dims : Nat) (μ : Nat → Option Bytes) (r : Roots) (x : Structures) (a : Areas) :
    Prop where
  btree : Rooted (Btree.pageLayout H pageSize) μ r.btree x.items a.btree
  fts : Fts.At H pageSize version μ r.fts x.ftsStats x.ix a.fts
  graph : Graph.At H pageSize μ r.graph x.graphStats x.graph a.graph
  hnsw : Hnsw.At H pageSize dims μ r.hnsw x.hnswStats x.nodes a.hnsw
  filterMeta : FilterMeta.At pageSize μ r.filterMeta r.filterSymbols x.log x.syms a.filterMeta

/-- Writes to other pages leave the structures. -/
theorem At.frame {H : Xxh3} {pageSize version dims : Nat} {μ μ' : Nat → Option Bytes} {r : Roots} {x : Structures}
    {a : Areas} (h : At H pageSize version dims μ r x a) (hμ : ∀ p ∈ a.all, μ' p = μ p) :
    At H pageSize version dims μ' r x a where
  btree := h.btree.frame fun p hp => hμ p (by simp [Areas.all, hp])
  fts := h.fts.frame fun p hp => hμ p (by simp [Areas.all, hp])
  graph := h.graph.frame fun p hp => hμ p (by simp [Areas.all, hp])
  hnsw := h.hnsw.frame fun p hp => hμ p (by simp [Areas.all, hp])
  filterMeta := h.filterMeta.frame fun p hp => hμ p (by simp [Areas.all, hp])

/-- The structures in a transaction. -/
structure InTxn (H : Xxh3) (dims : Nat) (t : Txn) (x : Structures) (a : Areas) : Prop where
  wf : t.Wf H
  owns : t.Owns a.all
  at_ : At H t.pageSize t.formatVersion dims (t.view H) t.roots x a

/-- The structures of a committed state. -/
structure InStore (H : Xxh3) (dims : Nat) (c : Committed) (x : Structures) (a : Areas) : Prop where
  wf : c.Wf H
  owns : c.Owns a.all
  at_ : At H c.header.pageSize c.header.formatVersion dims (c.view H) c.header.roots x a

section Transaction

variable {H : Xxh3} {dims : Nat} {c : Committed} {t t' : Txn} {x : Structures} {a : Areas}

/-- A transaction starts on the structures of its store. -/
theorem InStore.begin (h : InStore H dims c x a) : InTxn H dims (Txn.begin c) x a where
  wf := Txn.wf_begin h.wf
  owns := h.owns.begin
  at_ := h.at_.frame fun p _ => Txn.view_begin c p

/-- A commit leaves the structures of its transaction. -/
theorem InTxn.commit (h : InTxn H dims t x a) : InStore H dims t.commit x a where
  wf := h.wf.commit
  owns := h.owns.commit
  at_ := by
    rw [Txn.commit_pageSize, Txn.commit_formatVersion, Txn.commit_roots]
    exact h.at_.frame fun p hp => h.wf.view_commit (h.owns.pos p hp) (h.owns.lt p hp)

/-! ## Steps of one structure -/

/-- From `t` to `t'` with nothing but the structures of the store in view. -/
structure Moved (H : Xxh3) (dims : Nat) (t t' : Txn) (x : Structures) : Prop where
  inTxn : ∃ a, InTxn H dims t' x a
  base : t'.base = t.base
  embedding : t'.pending.embedding = t.pending.embedding
  legacy : t.formatVersion < FilterMeta.MIN_FORMAT_VERSION → t'.filterMetaPage = t.filterMetaPage

/-- One step after another. -/
theorem Moved.trans {t'' : Txn} {x' : Structures} (h : Moved H dims t t' x) (h' : Moved H dims t' t'' x') :
    Moved H dims t t'' x' where
  inTxn := h'.inTxn
  base := h'.base.trans h.base
  embedding := h'.embedding.trans h.embedding
  legacy := by
    intro hlt
    have hversion : t'.formatVersion = t.formatVersion := by rw [Txn.formatVersion, Txn.formatVersion, h.base]
    rw [h'.legacy (by rwa [hversion]), h.legacy hlt]

/-- The record tree among the structures. -/
theorem InTxn.btree (h : InTxn H dims t x a) : Btree.InTxn H t x.items a.btree where
  wf := h.wf
  rooted := h.at_.btree
  owns := h.owns.sublist (by simp [Areas.all])

/-- The text index among the structures. -/
theorem InTxn.fts (h : InTxn H dims t x a) : Fts.InTxn H t x.ftsStats x.ix a.fts where
  index := h.at_.fts
  owns := h.owns.sublist (by simp [Areas.all])

/-- The graph among the structures. -/
theorem InTxn.graph (h : InTxn H dims t x a) : Graph.InTxn H t x.graphStats x.graph a.graph where
  graph := h.at_.graph
  owns := h.owns.sublist <|
    ((List.sublist_append_right (a.btree ++ a.fts) _).trans (List.sublist_append_left _ a.hnsw)).trans
      (List.sublist_append_left _ a.filterMeta)

/-- The vector index among the structures. -/
theorem InTxn.hnsw (h : InTxn H dims t x a) : Hnsw.InTxn H dims t x.hnswStats x.nodes a.hnsw where
  index := h.at_.hnsw
  owns := h.owns.sublist <|
    (List.sublist_append_right (a.btree ++ a.fts ++ a.graph) _).trans (List.sublist_append_left _ a.filterMeta)

/-- The sidecar among the structures. -/
theorem InTxn.filterMeta (h : InTxn H dims t x a) : FilterMeta.InTxn H t x.log x.syms a.filterMeta where
  index := h.at_.filterMeta
  owns := h.owns.sublist (List.sublist_append_right _ _)

/-- A step on some pages of a transaction, between others. -/
theorem stepped_between {R : PendingHeader → PendingHeader → Prop} {l own own' r : List Nat}
    (h : t.Stepped H R t' own own') (hw : t.Wf H) (ho : t.Owns (l ++ own ++ r)) :
    t'.Owns (l ++ own' ++ r) ∧ ∀ p ∈ l ++ r, t'.view H p = t.view H p := by
  have hl : ∀ p ∈ l, p < t.pageCount := fun p hp => ho.lt p (by simp [hp])
  have hr : ∀ p ∈ r, p < t.pageCount := fun p hp => ho.lt p (by simp [hp])
  have hwhole : t.Stepped H R t' (l ++ own ++ r) (l ++ own' ++ r) := ⟨h.wf, h.base, h.pending, h.step.focus hl hr⟩
  have hnd := ho.nodup
  rw [List.nodup_append, List.nodup_append] at hnd
  rcases hnd with ⟨⟨_, _, hlo⟩, _, hor⟩
  refine ⟨hwhole.owns hw ho, h.step.others ?_ ?_⟩
  · intro p hp
    rcases List.mem_append.mp hp with hp | hp
    · exact hl p hp
    · exact hr p hp
  · intro p hp hin
    rcases List.mem_append.mp hp with hp | hp
    · exact hlo p hp p hin rfl
    · exact hor p (List.mem_append_right _ hin) p hp rfl

/-- A step of the record tree. -/
theorem InTxn.moveBtree (h : InTxn H dims t x a) {items : List (Key × Bytes)} {own : List Nat}
    (hin : Btree.InTxn H t' items own) (hstep : t.Stepped H Btree.RootOnly t' a.btree own) :
    Moved H dims t t' { x with items } := by
  have ho : t.Owns ([] ++ a.btree ++ (a.fts ++ a.graph ++ a.hnsw ++ a.filterMeta)) := by
    simpa [Areas.all] using h.owns
  rcases stepped_between hstep h.wf ho with ⟨howns, hkeep⟩
  have hroots : t'.roots = { t.roots with btree := t'.rootBtreePage } := by
    rcases hstep.pending with ⟨r, hr⟩
    simp [Txn.roots, Txn.ftsRootPage, Txn.graphRootPage, Txn.hnswMetaPage, Txn.filterMetaPage,
      Txn.filterSymbolsPage, hr, hstep.base]
  constructor
  case base => exact hstep.base
  case embedding =>
    rcases hstep.pending with ⟨r, hr⟩
    rw [hr]
  case legacy =>
    intro _
    exact congrArg Roots.filterMeta hroots
  case inTxn =>
    refine ⟨{ a with btree := own }, hstep.wf, by simpa [Areas.all] using howns, ?_⟩
    rw [hroots, hstep.pageSize, hstep.formatVersion]
    constructor
    case btree =>
      rw [← hstep.pageSize]
      exact hin.rooted
    case fts => exact h.at_.fts.frame fun p hp => hkeep p (by simp [hp])
    case graph => exact h.at_.graph.frame fun p hp => hkeep p (by simp [hp])
    case hnsw => exact h.at_.hnsw.frame fun p hp => hkeep p (by simp [hp])
    case filterMeta => exact h.at_.filterMeta.frame fun p hp => hkeep p (by simp [hp])

/-- A step of the full-text index. -/
theorem InTxn.moveFts (h : InTxn H dims t x a) {ftsStats : Fts.FtsMeta} {ix : Fts.Index} {own : List Nat}
    (hin : Fts.InTxn H t' ftsStats ix own) (hstep : t.Stepped H Fts.RootOnly t' a.fts own) :
    Moved H dims t t' { x with ftsStats, ix } := by
  have ho : t.Owns (a.btree ++ a.fts ++ (a.graph ++ a.hnsw ++ a.filterMeta)) := by
    simpa [Areas.all] using h.owns
  rcases stepped_between hstep h.wf ho with ⟨howns, hkeep⟩
  have hroots : t'.roots = { t.roots with fts := t'.ftsRootPage } := by
    rcases hstep.pending with ⟨r, hr⟩
    simp [Txn.roots, Txn.rootBtreePage, Txn.graphRootPage, Txn.hnswMetaPage, Txn.filterMetaPage,
      Txn.filterSymbolsPage, hr, hstep.base]
  constructor
  case base => exact hstep.base
  case embedding =>
    rcases hstep.pending with ⟨r, hr⟩
    rw [hr]
  case legacy =>
    intro _
    exact congrArg Roots.filterMeta hroots
  case inTxn =>
    refine ⟨{ a with fts := own }, hstep.wf, by simpa [Areas.all] using howns, ?_⟩
    rw [hroots, hstep.pageSize, hstep.formatVersion]
    constructor
    case btree => exact h.at_.btree.frame fun p hp => hkeep p (by simp [hp])
    case fts =>
      rw [← hstep.pageSize, ← hstep.formatVersion]
      exact hin.index
    case graph => exact h.at_.graph.frame fun p hp => hkeep p (by simp [hp])
    case hnsw => exact h.at_.hnsw.frame fun p hp => hkeep p (by simp [hp])
    case filterMeta => exact h.at_.filterMeta.frame fun p hp => hkeep p (by simp [hp])

/-- A step of the graph. -/
theorem InTxn.moveGraph (h : InTxn H dims t x a) {graphStats : Graph.GraphMeta} {graph : Graph.Contents} {own : List Nat}
    (hin : Graph.InTxn H t' graphStats graph own) (hstep : t.Stepped H Graph.RootOnly t' a.graph own) :
    Moved H dims t t' { x with graphStats, graph } := by
  have ho : t.Owns (a.btree ++ a.fts ++ a.graph ++ (a.hnsw ++ a.filterMeta)) := by
    simpa [Areas.all] using h.owns
  rcases stepped_between hstep h.wf ho with ⟨howns, hkeep⟩
  have hroots : t'.roots = { t.roots with graph := t'.graphRootPage } := by
    rcases hstep.pending with ⟨r, hr⟩
    simp [Txn.roots, Txn.rootBtreePage, Txn.ftsRootPage, Txn.hnswMetaPage, Txn.filterMetaPage,
      Txn.filterSymbolsPage, hr, hstep.base]
  constructor
  case base => exact hstep.base
  case embedding =>
    rcases hstep.pending with ⟨r, hr⟩
    rw [hr]
  case legacy =>
    intro _
    exact congrArg Roots.filterMeta hroots
  case inTxn =>
    refine ⟨{ a with graph := own }, hstep.wf, by simpa [Areas.all] using howns, ?_⟩
    rw [hroots, hstep.pageSize, hstep.formatVersion]
    constructor
    case btree => exact h.at_.btree.frame fun p hp => hkeep p (by simp [hp])
    case fts => exact h.at_.fts.frame fun p hp => hkeep p (by simp [hp])
    case graph =>
      rw [← hstep.pageSize]
      exact hin.graph
    case hnsw => exact h.at_.hnsw.frame fun p hp => hkeep p (by simp [hp])
    case filterMeta => exact h.at_.filterMeta.frame fun p hp => hkeep p (by simp [hp])

/-- A step of the vector index. -/
theorem InTxn.moveHnsw (h : InTxn H dims t x a) {hnswStats : Hnsw.HnswMeta} {nodes : List Hnsw.Entry} {own : List Nat}
    (hin : Hnsw.InTxn H dims t' hnswStats nodes own) (hstep : t.Stepped H Hnsw.RootOnly t' a.hnsw own) :
    Moved H dims t t' { x with hnswStats, nodes } := by
  have ho : t.Owns (a.btree ++ a.fts ++ a.graph ++ a.hnsw ++ a.filterMeta) := h.owns
  rcases stepped_between hstep h.wf ho with ⟨howns, hkeep⟩
  have hroots : t'.roots = { t.roots with hnsw := t'.hnswMetaPage } := by
    rcases hstep.pending with ⟨r, hr⟩
    simp [Txn.roots, Txn.rootBtreePage, Txn.ftsRootPage, Txn.graphRootPage, Txn.filterMetaPage,
      Txn.filterSymbolsPage, hr, hstep.base]
  constructor
  case base => exact hstep.base
  case embedding =>
    rcases hstep.pending with ⟨r, hr⟩
    rw [hr]
  case legacy =>
    intro _
    exact congrArg Roots.filterMeta hroots
  case inTxn =>
    refine ⟨{ a with hnsw := own }, hstep.wf, howns, ?_⟩
    rw [hroots, hstep.pageSize, hstep.formatVersion]
    constructor
    case btree => exact h.at_.btree.frame fun p hp => hkeep p (by simp [hp])
    case fts => exact h.at_.fts.frame fun p hp => hkeep p (by simp [hp])
    case graph => exact h.at_.graph.frame fun p hp => hkeep p (by simp [hp])
    case hnsw =>
      rw [← hstep.pageSize]
      exact hin.index
    case filterMeta => exact h.at_.filterMeta.frame fun p hp => hkeep p (by simp [hp])

/-- A step of the sidecar. -/
theorem InTxn.moveFilterMeta (h : InTxn H dims t x a) {log : FilterMeta.Entries} {syms : FilterMeta.Symbols}
    {own : List Nat} (hin : FilterMeta.InTxn H t' log syms own)
    (hstep : t.Stepped H FilterMeta.RootOnly t' a.filterMeta own)
    (hlegacy : t.formatVersion < FilterMeta.MIN_FORMAT_VERSION → t' = t) : Moved H dims t t' { x with log, syms } := by
  have ho : t.Owns (a.btree ++ a.fts ++ a.graph ++ a.hnsw ++ a.filterMeta ++ []) := by
    simpa [Areas.all] using h.owns
  rcases stepped_between hstep h.wf ho with ⟨howns, hkeep⟩
  have hroots : t'.roots = { t.roots with filterMeta := t'.filterMetaPage, filterSymbols := t'.filterSymbolsPage } := by
    rcases hstep.pending with ⟨r, s, hr⟩
    simp [Txn.roots, Txn.rootBtreePage, Txn.ftsRootPage, Txn.graphRootPage, Txn.hnswMetaPage, hr, hstep.base]
  constructor
  case base => exact hstep.base
  case embedding =>
    rcases hstep.pending with ⟨r, s, hr⟩
    rw [hr]
  case legacy =>
    intro hlt
    rw [hlegacy hlt]
  case inTxn =>
    refine ⟨{ a with filterMeta := own }, hstep.wf, by simpa [Areas.all] using howns, ?_⟩
    rw [hroots, hstep.pageSize, hstep.formatVersion]
    constructor
    case btree => exact h.at_.btree.frame fun p hp => hkeep p (by simp [hp])
    case fts => exact h.at_.fts.frame fun p hp => hkeep p (by simp [hp])
    case graph => exact h.at_.graph.frame fun p hp => hkeep p (by simp [hp])
    case hnsw => exact h.at_.hnsw.frame fun p hp => hkeep p (by simp [hp])
    case filterMeta =>
      rw [← hstep.pageSize]
      exact hin.index

end Transaction

end Store

end EmbedMind
