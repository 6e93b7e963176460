import EmbedMind.Filter
import EmbedMind.Index.Checked
import EmbedMind.Recall
import EmbedMind.Store.Read

/-!
# Searching memories (`api.rs`)

A candidate of a search is asked for again: is it live, not superseded, in scope, and does it
pass the filters. The sidecar answers where it can, else the record is read. A filter that
does not fit the type of a stored value is an error, which is put aside until the search has
ended. `none` stands for a search that panics, or whose rounds do not end.
-/

namespace EmbedMind

open Lib Lib.Assoc

inductive Scope where
  | all
  | project (p : String)
deriving DecidableEq

/-- `BTreeMap<String, Filter>`: the filters in the order of the keys. -/
structure Filters where
  entries : List (Text × Filter) := []
  sorted : Sorted entries := by exact List.Pairwise.nil

def DEFAULT_RECALL_LIMIT : Nat := 8

structure Query where
  text : String
  limit : Nat := DEFAULT_RECALL_LIMIT
  scope : Scope := .all
  filters : Filters := {}
  agent : Option String := none
  efSearch : Option Nat := none
  expandRelated : Bool := false
  recency : Bool := false

/-- One hit, with a score of some kind. -/
structure Recalled (σ : Type) where
  memory : Memory
  score : σ

structure RecallOutcome where
  hits : List (Recalled ℚ)
  degradedToVectorOnly : Bool

namespace Hnsw

def HNSW_DEFAULT_EF_SEARCH : Nat := 64

/-- The wider beams of larger indexes. -/
def EF_LADDER : List (Nat × Nat) := [(0, HNSW_DEFAULT_EF_SEARCH), (25000, 96), (50000, 160), (100000, 256)]

def defaultEfSearch (nodeCount : Nat) : Nat :=
  EF_LADDER.foldl (fun ef step => if step.1 ≤ nodeCount then step.2 else ef) HNSW_DEFAULT_EF_SEARCH

end Hnsw

/-- Every filter in turn, up to the first that does not match. -/
def passesFilters (metadata : Metadata) : List (Text × Filter) → Except Error Bool
  | [] => .ok true
  | (key, filter) :: rest => do
      let matched ← filter.matchesStored (metadata.get key)
      if !matched then .ok false else passesFilters metadata rest

def Query.recordPassesFilters (query : Query) (record : MemoryRecord) : Except Error Bool :=
  passesFilters record.metadata query.filters.entries

def Query.effectiveEfSearch (query : Query) (nodeCount : Nat) : Nat :=
  query.efSearch.getD (Hnsw.defaultEfSearch nodeCount)

namespace Store

def inScope (query : Query) (record : MemoryRecord) : Bool :=
  !record.tombstone && !record.superseded &&
    (match query.scope with
      | .all => true
      | .project p => decide (record.project = some p)) &&
    match query.agent with
    | none => true
    | some agent => decide (record.provenance.agent = agent)

def metaNeeds (table : FilterMeta.Table) (query : Query) : FilterMeta.QueryNeeds where
  project := match query.scope with
    | .all => table.wantProject none
    | .project p => table.wantProject (some p)
  agent := table.wantAgent query.agent
  hasMetadataFilters := !query.filters.entries.isEmpty

/-- The sidecar as it was last loaded, with the transaction counter at that time. -/
abbrev Cache := Option (Nat × FilterMeta.Table)

section Sidecar

variable (H : Xxh3) (c : Committed)

def loadFilterMeta (cache : Cache) : Except Error (Option FilterMeta.Table) × Cache :=
  match FilterMeta.load (c.source H) c.header.filterMetaPage c.header.filterSymbolsPage with
  | .error e => (.error e, cache)
  | .ok table => (.ok (some table), some (c.header.txnCounter, table))

/-- The sidecar, unless the file has none: loaded again when the transaction counter has moved. -/
def filterMeta (cache : Cache) : Except Error (Option FilterMeta.Table) × Cache :=
  if c.header.filterMetaPage = 0 then (.ok none, cache)
  else
    match cache with
    | some (stamp, table) => if stamp = c.header.txnCounter then (.ok (some table), cache) else loadFilterMeta H c cache
    | none => loadFilterMeta H c cache

end Sidecar

section Search

variable (S : Setup) (c : Committed)

/-- The check of a candidate on its record; a record that cannot be read does not pass. -/
def admitsRecord (query : Query) (id : Ulid) : Except Error Bool :=
  match load (c.source S.xxh) c.header.rootBtreePage id with
  | .ok (some record) => if inScope query record then query.recordPassesFilters record else .ok false
  | _ => .ok false

/-- The check of a candidate: the sidecar first, the record where it cannot decide. -/
def admits (table : Option FilterMeta.Table) (query : Query) (id : Ulid) : Except Error Bool :=
  match table with
  | none => admitsRecord S c query id
  | some table =>
      match table.decide id (metaNeeds table query) with
      | .accept => .ok true
      | .reject _ => .ok false
      | .needRecord => admitsRecord S c query id

/-- The length of a document, from the sidecar if it has the id. -/
def docLenOf (table : Option FilterMeta.Table) (id : Ulid) : Except Error (Option Nat) :=
  match table.bind fun table => table.get id with
  | some entry => .ok (some entry.docLen)
  | none => do
      let found ← load (c.source S.xxh) c.header.rootBtreePage id
      .ok (found.map fun record => Fts.docLen S.unicode record.content)

/-- A hit with its memory, if the record is there. -/
def loadHit {σ : Type} (out : List (Recalled σ)) (hit : Ulid × σ) : Except Error (List (Recalled σ)) := do
  match ← load (c.source S.xxh) c.header.rootBtreePage hit.1 with
  | none => .ok out
  | some record => .ok (out ++ [⟨Memory.fromRecord record, hit.2⟩])

/-! ## Full text -/

variable {α : Type} [Field α] [LinearOrder α] (I : Fts.Idf α)

/-- The hits of the full-text index. -/
def textHits (table : Option FilterMeta.Table) (query : Query) : Except Error (Option (List (Fts.Hit α))) :=
  settle (Fts.search (stashing (admits S c table query)) S.xxh S.unicode I (c.source S.xxh) c.header.ftsRootPage
    query.text query.limit (docLenOf S c table))

/-- `search_text`, with what it leaves in the cache. -/
def searchText (cache : Cache) (query : Query) : Except Error (Option (List (Recalled α))) × Cache :=
  let (table, cache) := filterMeta S.xxh c cache
  (do
    let table ← table
    match ← textHits S c I table query with
    | none => .ok none
    | some hits => do
        let out ← (hits.map fun hit => (hit.recordId, hit.score)).foldlM (loadHit S c) []
        .ok (some out), cache)

/-! ## Vectors -/

/-- The ids that the vector index finds for the query. -/
def vectorIds (embedder : Embedder) (table : Option FilterMeta.Table) (query : Query) :
    Except Error (Option (List Ulid)) := do
  let vector ← embedder.embed query.text
  let nodeCount ← Hnsw.nodeCount (c.source S.xxh) c.header.hnswMetaPage
  let outcome ← settle (Hnsw.searchAsking S.floats (c.source S.xxh) embedder.dims (stashing (admits S c table query))
    c.header.hnswMetaPage (S.normalize vector) query.limit ⟨query.effectiveEfSearch nodeCount⟩)
  .ok (outcome.hits.map fun hits => hits.map Hnsw.Hit.recordId)

def noEmbedder : Error := .invalidArgument "this store has no embedder; recall requires one (see StoreOptions::embedder)"

/-- The memories of fused ids. -/
def loadFused (fused : List Fused) : Except Error (List (Recalled ℚ)) :=
  (fused.map fun f => (f.recordId, f.score)).foldlM (loadHit S c) []

def recallVector (cache : Cache) (query : Query) : Except Error (Option (List (Recalled ℚ))) × Cache :=
  match S.embedder with
  | none => (.error noEmbedder, cache)
  | some embedder =>
      let (table, cache) := filterMeta S.xxh c cache
      (do
        let table ← table
        match ← vectorIds S c embedder table query with
        | none => .ok none
        | some ids =>
            match fuse ids [] query.limit with
            | none => .ok none
            | some fused => do
                let hits ← loadFused S c fused
                .ok (some hits), cache)

/-! ## Hybrid recall -/

/-- When a memory was written; one that cannot be read counts as the oldest. -/
def createdAt (id : Ulid) : Int64 :=
  match load (c.source S.xxh) c.header.rootBtreePage id with
  | .ok (some record) => record.provenance.createdAtMicros
  | _ => Int64.minValue

/-- The candidates of both lists, the newest first. -/
def recencyIds (query : Query) (vectorIds textIds : List Ulid) : List Ulid :=
  if query.recency then
    (SortedSet.distinct id (vectorIds ++ textIds)).insertionSort fun a b => createdAt S c b ≤ createdAt S c a
  else []

/-- The neighbour along an edge, if it is new and passes the check. -/
def expandAlong (check : Ulid → Except Error Bool) (s : List Ulid × List (Recalled ℚ)) (edge : Graph.Edge) :
    StashM Error (List Ulid × List (Recalled ℚ)) :=
  if edge.other ∈ s.1 then pure s
  else do
    let kept ← stashing check edge.other
    if kept then do
      let hits ← (liftM (loadHit S c s.2 (edge.other, 0)) : StashM Error (List (Recalled ℚ)))
      pure (edge.other :: s.1, hits)
    else pure (edge.other :: s.1, s.2)

def expandFrom (check : Ulid → Except Error Bool) (s : List Ulid × List (Recalled ℚ)) (id : Ulid) :
    StashM Error (List Ulid × List (Recalled ℚ)) := do
  match ← (liftM (Graph.memoryGraph S.xxh (c.source S.xxh) c.header.graphRootPage id) :
      StashM Error (Option Graph.MemoryGraph)) with
  | none => pure s
  | some adj => adj.edges.foldlM (expandAlong S c check) s

/-- The hits, followed by their neighbours in the graph. -/
def expandHits (table : Option FilterMeta.Table) (query : Query) (hits : List (Recalled ℚ)) :
    Except Error (List (Recalled ℚ)) :=
  if query.expandRelated then do
    let direct := hits.map fun hit => hit.memory.id
    let (_, hits) ← settle (direct.foldlM (expandFrom S c (admits S c table query)) (direct, hits))
    .ok hits
  else .ok hits

/-- The ids of the full-text half; an old file has none. -/
def textIds (table : Option FilterMeta.Table) (query : Query) : Except Error (Option (List Ulid)) :=
  if c.header.ftsRootPage = 0 then .ok (some [])
  else do
    let hits ← textHits S c I table query
    .ok (hits.map fun hits => hits.map Fts.Hit.recordId)

def recallDetailed (cache : Cache) (query : Query) : Except Error (Option RecallOutcome) × Cache :=
  match S.embedder with
  | none => (.error noEmbedder, cache)
  | some embedder =>
      let (table, cache) := filterMeta S.xxh c cache
      (do
        let table ← table
        match ← vectorIds S c embedder table query with
        | none => .ok none
        | some vectorIds => do
            match ← textIds S c I table query with
            | none => .ok none
            | some textIds =>
                match fuseLists [vectorIds, textIds, recencyIds S c query vectorIds textIds] query.limit with
                | none => .ok none
                | some fused => do
                    let hits ← loadFused S c fused
                    let hits ← expandHits S c table query hits
                    .ok (some ⟨hits, decide (c.header.ftsRootPage = 0)⟩), cache)

end Search

end Store

end EmbedMind
