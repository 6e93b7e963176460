import EmbedMind.Index.FilterMeta
import EmbedMind.Store

/-!
# Writing memories (`api.rs`)

Every write is one transaction on the committed state: the record, its vectors, its
full-text postings, its graph data and its sidecar entries. A call that fails drops the
transaction. What the outside decides is passed in: the embedder, the id and the clock
reading of a new memory.
-/

namespace EmbedMind

open Lib Lib.Assoc

/-- An embedding model. -/
structure Embedder where
  id : String
  dims : Nat
  dims_lt : dims < 2 ^ 16
  embed : String → Except Error (List F32)
  embedChunks : String → Except Error (List (List F32))

/-- What a store runs on; `normalize` is the `index::normalize` of its vectors. -/
structure Setup where
  xxh : Xxh3
  floats : Floats
  unicode : Unicode
  normalize : List F32 → List F32
  embedder : Option Embedder

/-- What the caller provides to `remember`. -/
structure MemoryDraft where
  content : String
  project : Option String := none
  metadata : Metadata := .empty
  agent : String := ""
  sessionId : Option String := none
  entities : List String := []
  relations : List (String × Ulid) := []
  supersedes : List Ulid := []

namespace Store

/-- Relation kind of the edge from a memory to one that it supersedes. -/
def SUPERSEDES_RELATION : String := "supersedes"

/-- The record of an id, as it is stored. -/
def load (src : PageSource) (root : Nat) (id : Ulid) : Except Error (Option MemoryRecord) := do
  match ← Btree.get src root id.key with
  | none => .ok none
  | some bytes => do
      let record ← MemoryRecord.decode bytes
      .ok (some record)

/-- One transaction. -/
def transact {α : Type} (c : Committed) (body : TxnM α) : Except Error (α × Committed) := do
  let (a, txn) ← body.run (Txn.begin c)
  .ok (a, txn.commit)

/-! ## Checks before a write -/

/-- A relation points to a memory that exists and is live. -/
def checkRelationTarget (src : PageSource) (root : Nat) (relation : String × Ulid) : Except Error Unit := do
  let found ← load src root relation.2
  let live := match found with
    | some record => !record.tombstone
    | none => false
  if live then .ok () else .error (.invalidArgument "relation target does not exist or was forgotten")

/-- One more supersedes target, with its record; a repeated one is passed over. -/
def supersedesTarget (src : PageSource) (root : Nat) (project : Option String)
    (targets : List (Ulid × MemoryRecord)) (target : Ulid) : Except Error (List (Ulid × MemoryRecord)) :=
  if targets.any (fun t => t.1 == target) then .ok targets
  else do
    match ← load src root target with
    | none => .error (.invalidArgument "supersedes target does not exist or was forgotten")
    | some record =>
        if record.tombstone then .error (.invalidArgument "supersedes target does not exist or was forgotten")
        else if record.project ≠ project then
          .error (.invalidArgument "supersedes target belongs to a different project")
        else .ok (targets ++ [(target, record)])

/-! ## Writing -/

section Write

variable (S : Setup)

/-- The sidecar's mirror of a record. -/
def filterMetaUpdate (record : MemoryRecord) : FilterMeta.Update where
  id := record.id
  tombstone := record.tombstone
  superseded := record.superseded
  hasMetadata := !record.metadata.entries.isEmpty
  project := record.project
  agent := record.provenance.agent
  docLen := Fts.docLen S.unicode record.content

/-- The chunk vectors of a text, normalized; none without an embedder. -/
def embedDraftContent (content : String) : Except Error (List (List F32)) :=
  match S.embedder with
  | none => .ok []
  | some embedder => do
      let chunks ← embedder.embedChunks content
      .ok (chunks.map S.normalize)

/-- One chunk in the vector index; the reference to the first one is kept. -/
def insertChunk (dims : Nat) (id : Ulid) (vecRef : Option VecRef) (vector : List F32) : TxnM (Option VecRef) := do
  let (pageNo, slot) ← Hnsw.insert S.xxh S.floats dims id vector
  pure (vecRef.or (some ⟨UInt64.ofNat pageNo, UInt16.ofNat slot⟩))

def insertChunks (id : Ulid) (chunks : List (List F32)) : TxnM (Option VecRef) :=
  match S.embedder with
  | none => pure none
  | some embedder => chunks.foldlM (insertChunk S embedder.dims id) none

/-- A record under an id. -/
def putRecord (id : Ulid) (record : MemoryRecord) : TxnM Unit := do
  let bytes ← (liftM record.encode : TxnM Bytes)
  Btree.insert S.xxh id.key bytes

/-- The flag of one superseded target; its record as it is now. -/
def flagTarget (target : Ulid × MemoryRecord) : TxnM MemoryRecord := do
  let record := { target.2 with superseded := true }
  putRecord S target.1 record
  pure record

/-- The transaction of `remember`: the checks, then every structure. -/
def writeRemembered (draft : MemoryDraft) (chunks : List (List F32)) (id : Ulid) (now : Int64) : TxnM Memory := do
  let txn ← TxnM.current
  let root := txn.rootBtreePage
  let _ ← (TxnM.reading S.xxh fun src => draft.relations.forM (checkRelationTarget src root))
  let targets ← (TxnM.reading S.xxh fun src =>
    draft.supersedes.foldlM (supersedesTarget src root draft.project) [])
  let vecRef ← insertChunks S id chunks
  let record : MemoryRecord :=
    { id, tombstone := false, superseded := false, content := draft.content, vecRef, project := draft.project
      provenance := ⟨draft.agent, draft.sessionId, now⟩, metadata := draft.metadata }
  Fts.indexDocument S.xxh S.unicode id draft.content
  Graph.addMemory S.xxh id draft.entities
    (draft.relations ++ targets.map fun t => (SUPERSEDES_RELATION, t.1))
  let flagged ← targets.mapM (flagTarget S)
  putRecord S id record
  FilterMeta.recordUpdates S.xxh ((record :: flagged).map (filterMetaUpdate S))
  pure (Memory.fromRecord record)

/-- `remember`, with the id and the clock reading of the new memory. -/
def remember (c : Committed) (draft : MemoryDraft) (id : Ulid) (now : Int64) : Except Error (Memory × Committed) := do
  let chunks ← embedDraftContent S draft.content
  transact c (writeRemembered S draft chunks id now)

/-- The transaction of `forget`: whether there is something to commit. -/
def writeForgotten (id : Ulid) : TxnM Bool := do
  let txn ← TxnM.current
  match ← (TxnM.reading S.xxh fun src => load src txn.rootBtreePage id) with
  | none => pure false
  | some record =>
      if record.tombstone then pure false
      else do
        let record := { record with tombstone := true }
        putRecord S id record
        FilterMeta.recordUpdates S.xxh [filterMetaUpdate S record]
        pure true

/-- `forget`; a transaction without anything to commit is dropped. -/
def forget (c : Committed) (id : Ulid) : Except Error (Bool × Committed) := do
  let (written, txn) ← (writeForgotten S id).run (Txn.begin c)
  .ok (written, if written then txn.commit else c)

/-- The transaction of `insert_record`: a record as it is, its indexes derived again. -/
def writeRecord (record : MemoryRecord) (chunks : List (List F32)) (entities : List String)
    (relations : List (String × Ulid)) : TxnM Memory := do
  let vecRef ← insertChunks S record.id chunks
  let record := { record with vecRef := record.vecRef.or vecRef }
  Fts.indexDocument S.xxh S.unicode record.id record.content
  Graph.addMemory S.xxh record.id entities relations
  putRecord S record.id record
  FilterMeta.recordUpdates S.xxh [filterMetaUpdate S record]
  pure (Memory.fromRecord record)

def insertRecord (c : Committed) (record : MemoryRecord) (entities : List String)
    (relations : List (String × Ulid)) : Except Error (Memory × Committed) := do
  let chunks ← embedDraftContent S record.content
  transact c (writeRecord S record chunks entities relations)

/-- `init_embedding_header`: a fresh file gets the model, any other must have been written with it. -/
def initEmbeddingHeader (c : Committed) : Except Error Committed :=
  match S.embedder with
  | none => .ok c
  | some embedder =>
      if Hnsw.vectorSlotsPerPage c.header.pageSize embedder.dims = 0 then
        .error (.invalidArgument "page size too small for this embedder's dimensionality")
      else if c.header.embeddingDims = 0 ∧ c.header.embeddingModelId = "" then do
        let txn ← (Txn.begin c).setEmbeddingModel embedder.id embedder.dims
        .ok txn.commit
      else if c.header.embeddingModelId ≠ embedder.id ∨ c.header.embeddingDims ≠ embedder.dims then
        .error (.invalidArgument "store's embedding model does not match this Embedder; use \x60embedmind reembed\x60")
      else .ok c

end Write

end Store

end EmbedMind
