import EmbedMind.Lib.SortedSet
import EmbedMind.Index.Fts
import EmbedMind.Index.Graph
import EmbedMind.Index.Hnsw
import EmbedMind.Record
import EmbedMind.Storage.Btree

/-!
# The store (`api.rs`)

What the store answers from its committed state. Records are read from the record
tree and checked against the key they are stored under; `stats` counts them and adds
the counters that the indexes and the header keep.
-/

namespace EmbedMind

open Lib Lib.Assoc

/-! ## Memories -/

/-- One stored memory, as the API returns it. -/
structure Memory where
  id : Ulid
  content : String
  project : Option String
  metadata : Metadata
  provenance : Provenance
  tombstone : Bool
  superseded : Bool
deriving DecidableEq

namespace Memory

def fromRecord (record : MemoryRecord) : Memory :=
  ⟨record.id, record.content, record.project, record.metadata, record.provenance, record.tombstone,
    record.superseded⟩

/-- One item of `MemoryIter`: the record, which must be stored under its own id. -/
def ofItem (item : Key × Bytes) : Except Error Memory := do
  let record ← MemoryRecord.decode item.2
  if record.id.toBytes ≠ item.1.val then .error (.malformedRecord "key/id mismatch")
  else .ok (fromRecord record)

end Memory

namespace Store

section Reads

variable (H : Xxh3) (c : Committed)

/-- What `iter_all` yields, tombstones included. -/
def iterAll : List (Except Error Memory) :=
  let (items, failed) := Btree.scan (c.source H) c.header.rootBtreePage
  items.map Memory.ofItem ++ failed.toList.map .error

/-- What `iter` yields. -/
def iter : List (Except Error Memory) :=
  (iterAll H c).filter fun
    | .ok memory => !memory.tombstone
    | .error _ => true

end Reads

/-! ## Statistics -/

/-- One agent's slice of the statistics: its live memories and the sessions it wrote in. -/
structure AgentStats where
  liveMemories : Nat := 0
  sessions : List Text := []
deriving DecidableEq

structure StoreStats where
  liveMemories : Nat
  forgottenMemories : Nat
  byAgent : List (Text × AgentStats)
  indexEntries : Nat
  ftsDocuments : Nat
  graphEntities : Nat
  graphRelations : Nat
  pageSize : Nat
  pageCount : Nat
  fileBytes : Nat
  embeddingModelId : Option String
  embeddingDims : Nat
deriving DecidableEq

/-- The variables of the loop of `stats`. -/
structure Tally where
  liveMemories : Nat := 0
  forgottenMemories : Nat := 0
  byAgent : List (Text × AgentStats) := []

/-- One memory more. -/
def Tally.add (s : Tally) (memory : Memory) : Tally :=
  if memory.tombstone then { s with forgottenMemories := s.forgottenMemories + 1 }
  else
    let agent : Text := ⟨memory.provenance.agent⟩
    let bucket := (find agent s.byAgent).getD {}
    let sessions := match memory.provenance.sessionId with
      | some session => (SortedSet.insertNew id ⟨session⟩ bucket.sessions).1
      | none => bucket.sessions
    { s with
      liveMemories := s.liveMemories + 1
      byAgent := insertKey agent ⟨bucket.liveMemories + 1, sessions⟩ s.byAgent }

/-- `u64::from(header.page_size) * header.page_count`. -/
def fileBytes (header : Header) : Nat := header.pageSize * header.pageCount % 2 ^ 64

def stats (H : Xxh3) (c : Committed) : Except Error StoreStats := do
  let memories ← (iterAll H c).mapM id
  let tally := memories.foldl Tally.add {}
  let header := c.header
  let graph ← Graph.loadMeta (c.source H) header.graphRootPage
  let indexEntries ← Hnsw.nodeCount (c.source H) header.hnswMetaPage
  let fts ← Fts.loadMeta (c.source H) header.ftsRootPage
  .ok
    { liveMemories := tally.liveMemories
      forgottenMemories := tally.forgottenMemories
      byAgent := tally.byAgent
      indexEntries
      ftsDocuments := (fts.map Fts.FtsMeta.docCount).getD 0
      graphEntities := (graph.map Graph.GraphMeta.entityCount).getD 0
      graphRelations := (graph.map Graph.GraphMeta.relationCount).getD 0
      pageSize := header.pageSize
      pageCount := header.pageCount
      fileBytes := fileBytes header
      embeddingModelId := if header.embeddingModelId = "" then none else some header.embeddingModelId
      embeddingDims := header.embeddingDims }

end Store

end EmbedMind
