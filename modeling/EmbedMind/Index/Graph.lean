import EmbedMind.Index.Dict
import EmbedMind.Lib.SortedSet
import EmbedMind.Ulid

/-!
# The graph of entities and relations (`index/graph.rs`, `docs/FORMAT.md` §12)

A meta page with two counters and the root of a dictionary. The dictionary has two
families of keys: an entity's key leads to its member list, a memory's key to its
adjacency, that is its entities and its edges in both directions. `addMemory` writes
the entities and outgoing relations of one memory and mirrors every relation at its
target.
-/

namespace EmbedMind

open Lib Lib.Assoc Lib.SortedSet

namespace Graph

/-- Longest relation kind, in bytes. -/
def MAX_KIND_LEN : Nat := 64

def KEY_ENTITY : UInt8 := 1
def KEY_MEMORY : UInt8 := 2
def DIR_OUT : UInt8 := 0
def DIR_IN : UInt8 := 1

/-- Direction, kind length and the other id of an edge. -/
def EDGE_FIXED_LEN : Nat := 1 + 2 + 16

def malformed {α : Type} (pageNo : Nat) (what : String) : Except Error α :=
  .error (.malformedPage pageNo what)

def entityKey (name : String) : Bytes := KEY_ENTITY :: utf8 name

def memoryKey (id : Ulid) : Bytes := KEY_MEMORY :: Ulid.toBytes id

/-! ## The meta page -/

/-- Graph counters and the root of the dictionary. -/
structure GraphMeta where
  entityCount : Nat
  relationCount : Nat
  dictRoot : Nat
deriving DecidableEq, Repr

namespace GraphMeta

def empty : GraphMeta := ⟨0, 0, 0⟩

def body (stats : GraphMeta) : Bytes :=
  Dict.NODE_META ::
    (leBytes 8 stats.entityCount ++ leBytes 8 stats.relationCount ++ leBytes 8 stats.dictRoot)

def encode (H : Xxh3) (stats : GraphMeta) (pageSize : Nat) : Bytes :=
  Dict.nodePage H GRAPH_DICT pageSize 0 stats.body

def decode (page : Bytes) (pageNo : Nat) : Except Error GraphMeta := do
  let header ← okOr (PageHeader.decode page) (.malformedPage pageNo "graph page header")
  if header.pageType ≠ .graphDict then malformed pageNo "not a graph page"
  else if page[PAGE_HEADER_LEN]? ≠ some Dict.NODE_META then malformed pageNo "not a graph meta page"
  else do
    let (entityCount, off) ← Dict.getInt page (PAGE_HEADER_LEN + 1) 8 pageNo
    let (relationCount, off) ← Dict.getInt page off 8 pageNo
    let (dictRoot, _) ← Dict.getInt page off 8 pageNo
    .ok ⟨entityCount, relationCount, dictRoot⟩

end GraphMeta

/-- The meta page, or none when no graph exists yet. -/
def loadMeta (src : PageSource) (root : Nat) : Except Error (Option GraphMeta) :=
  if root = 0 then .ok none
  else do
    let page ← src.page root
    let stats ← GraphMeta.decode page root
    .ok (some stats)

/-! ## Member lists -/

namespace Members

/-- Adds an id; the list stays sorted and without repetitions. -/
def insert (id : Ulid) (ids : List Ulid) : List Ulid × Bool := insertNew (fun x : Ulid => x) id ids

def encode (ids : List Ulid) : Bytes := leBytes 4 ids.length ++ ids.flatMap Ulid.toBytes

def decodeIds (body : Bytes) (pageNo : Nat) : Nat → Option Ulid → Nat → Except Error (List Ulid)
  | 0, _, _ => .ok []
  | count + 1, prev, off => do
      let idBytes ← okOr (slice body off 16) (.malformedPage pageNo "graph member id")
      let id := Ulid.fromBytes idBytes
      if prev.any (fun p => decide (id ≤ p)) then malformed pageNo "unsorted graph members"
      else do
        let rest ← decodeIds body pageNo count (some id) (off + 16)
        .ok (id :: rest)

def decode (body : Bytes) (pageNo : Nat) : Except Error (List Ulid) := do
  let count ← Dict.readInt body 0 4 pageNo
  if body.length < 4 + count * 16 then malformed pageNo "graph members truncated"
  else decodeIds body pageNo count none 4

end Members

/-! ## Adjacencies -/

/-- One relation edge as seen from a memory's adjacency. -/
structure Edge where
  outgoing : Bool
  kind : String
  other : Ulid
deriving DecidableEq, Repr

namespace Edge

def dir (e : Edge) : UInt8 := if e.outgoing then DIR_OUT else DIR_IN

/-- Edges are ordered by direction, kind and other end. -/
def sortKey (e : Edge) : UInt8 ×ₗ (Bytes ×ₗ Bytes) :=
  toLex (e.dir, toLex (utf8 e.kind, Ulid.toBytes e.other))

def encode (e : Edge) : Bytes :=
  e.dir :: (leBytes 2 (utf8 e.kind).length ++ utf8 e.kind ++ Ulid.toBytes e.other)

end Edge

/-- A memory's entities and edges, both directions. -/
structure MemoryGraph where
  entities : List String := []
  edges : List Edge := []
deriving DecidableEq, Repr

namespace MemoryGraph

def insertEntity (name : String) (adj : MemoryGraph) : MemoryGraph × Bool :=
  ({ adj with entities := (insertNew utf8 name adj.entities).1 }, (insertNew utf8 name adj.entities).2)

def insertEdge (edge : Edge) (adj : MemoryGraph) : MemoryGraph × Bool :=
  ({ adj with edges := (insertNew Edge.sortKey edge adj.edges).1 },
    (insertNew Edge.sortKey edge adj.edges).2)

def encodeName (name : String) : Bytes := leBytes 2 (utf8 name).length ++ utf8 name

def body (adj : MemoryGraph) : Bytes :=
  leBytes 2 adj.entities.length ++ adj.entities.flatMap encodeName ++ leBytes 4 adj.edges.length ++
    adj.edges.flatMap Edge.encode

def encode (adj : MemoryGraph) : Except Error Bytes :=
  if 2 ^ 16 ≤ adj.entities.length then .error (.invalidArgument "too many entities on one memory")
  else if 2 ^ 32 ≤ adj.edges.length then .error (.invalidArgument "too many edges on one memory")
  else .ok adj.body

/-- `count` names at an offset, and the offset past them. -/
def decodeNames (body : Bytes) (pageNo : Nat) :
    Nat → Option Bytes → Nat → Except Error (List String × Nat)
  | 0, _, off => .ok ([], off)
  | count + 1, prev, off => do
      let (name, off) ← Dict.getBytesU16 body off body.length pageNo "graph entity name"
      if name.isEmpty ∨ MAX_ENTITY_LEN < name.length then malformed pageNo "graph entity name length"
      else if prev.any (fun p => decide (name ≤ p)) then malformed pageNo "unsorted graph entities"
      else do
        let owned ← okOr (ofUtf8? name) (.malformedPage pageNo "graph entity not utf-8")
        let (rest, off) ← decodeNames body pageNo count (some name) off
        .ok (owned :: rest, off)

/-- The edge at an offset, and the offset past it. -/
def decodeEdge (body : Bytes) (pageNo off : Nat) : Except Error (Edge × Nat) := do
  let dir ← okOr body[off]? (.malformedPage pageNo "graph edge direction")
  if dir ≠ DIR_OUT ∧ dir ≠ DIR_IN then malformed pageNo "graph edge direction byte"
  else do
    let (kind, off) ← Dict.getBytesU16 body (off + 1) body.length pageNo "graph edge kind"
    if kind.isEmpty ∨ MAX_KIND_LEN < kind.length then malformed pageNo "graph edge kind length"
    else do
      let kind ← okOr (ofUtf8? kind) (.malformedPage pageNo "graph edge kind not utf-8")
      let idBytes ← okOr (slice body off 16) (.malformedPage pageNo "graph edge other id")
      .ok (⟨decide (dir = DIR_OUT), kind, Ulid.fromBytes idBytes⟩, off + 16)

def decodeEdges (body : Bytes) (pageNo : Nat) : Nat → Option Edge → Nat → Except Error (List Edge)
  | 0, _, _ => .ok []
  | count + 1, prev, off => do
      let (edge, off) ← decodeEdge body pageNo off
      if prev.any (fun p => decide (edge.sortKey ≤ p.sortKey)) then malformed pageNo "unsorted graph edges"
      else do
        let rest ← decodeEdges body pageNo count (some edge) off
        .ok (edge :: rest)

def decode (body : Bytes) (pageNo : Nat) : Except Error MemoryGraph := do
  let (entityCount, off) ← Dict.getInt body 0 2 pageNo
  if body.length - off < entityCount * 3 then malformed pageNo "graph entity count exceeds body"
  else do
    let (entities, off) ← decodeNames body pageNo entityCount none off
    let (edgeCount, off) ← Dict.getInt body off 4 pageNo
    if body.length - off < edgeCount * (EDGE_FIXED_LEN + 1) then
      malformed pageNo "graph edge count exceeds body"
    else do
      let edges ← decodeEdges body pageNo edgeCount none off
      .ok ⟨entities, edges⟩

end MemoryGraph

/-! ## Reading -/

section Read

variable (H : Xxh3) (src : PageSource)

def getMembers (root : Nat) (name : String) : Except Error (Option (List Ulid)) := do
  match ← Dict.get H GRAPH_DICT src root (entityKey name) with
  | some (body, pageNo) => do
      let ids ← Members.decode body pageNo
      .ok (some ids)
  | none => .ok none

def getAdjacency (root : Nat) (id : Ulid) : Except Error (Option MemoryGraph) := do
  match ← Dict.get H GRAPH_DICT src root (memoryKey id) with
  | some (body, pageNo) => do
      let adj ← MemoryGraph.decode body pageNo
      .ok (some adj)
  | none => .ok none

/-- The memories tagged with an entity. -/
def entityMembers (graphRoot : Nat) (entity : String) : Except Error (List Ulid) := do
  match ← loadMeta src graphRoot with
  | none => .ok []
  | some stats => do
      let ids ← getMembers H src stats.dictRoot entity
      .ok (ids.getD [])

/-- The stored adjacency of a memory. -/
def memoryGraph (graphRoot : Nat) (id : Ulid) : Except Error (Option MemoryGraph) := do
  match ← loadMeta src graphRoot with
  | none => .ok none
  | some stats => getAdjacency H src stats.dictRoot id

/-- The number of entities and of relations. -/
def stats (graphRoot : Nat) : Except Error (Nat × Nat) := do
  let loaded ← loadMeta src graphRoot
  .ok ((loaded.map fun m => (m.entityCount, m.relationCount)).getD (0, 0))

end Read

/-! ## Writing -/

section Write

variable (H : Xxh3)

def saveMeta (stats : GraphMeta) : TxnM Unit := do
  let txn ← TxnM.current
  let pageNo ← TxnM.pageOrFresh H txn.graphRootPage
  TxnM.writePage H pageNo (stats.encode H txn.pageSize)
  TxnM.update fun t => t.setGraphRootPage pageNo

/-- The variables of `add_memory`: the counters, the root of the dictionary, and the
adjacency of the memory, which is written last. -/
structure Adding where
  stats : GraphMeta
  root : Nat
  adj : MemoryGraph

/-- One entity of the memory. -/
def tagEntity (id : Ulid) (s : Adding) (name : String) : TxnM Adding :=
  if (s.adj.insertEntity name).2 then do
    let found ← (TxnM.reading H fun src => getMembers H src s.root name)
    let ids := (Members.insert id (found.getD [])).1
    let root ← Dict.upsert H GRAPH_DICT s.root (entityKey name) (Members.encode ids)
    let entityCount := if found.isNone then saturatingAdd s.stats.entityCount 1 else s.stats.entityCount
    pure ⟨{ s.stats with entityCount }, root, (s.adj.insertEntity name).1⟩
  else pure s

/-- One relation of the memory, with the incoming edge at its target. -/
def relate (id : Ulid) (s : Adding) (relation : String × Ulid) : TxnM Adding :=
  if (s.adj.insertEdge ⟨true, relation.1, relation.2⟩).2 then do
    let found ← (TxnM.reading H fun src => getAdjacency H src s.root relation.2)
    let target := ((found.getD {}).insertEdge ⟨false, relation.1, id⟩).1
    let body ← (liftM target.encode : TxnM Bytes)
    let root ← Dict.upsert H GRAPH_DICT s.root (memoryKey relation.2) body
    pure ⟨{ s.stats with relationCount := saturatingAdd s.stats.relationCount 1 }, root,
      (s.adj.insertEdge ⟨true, relation.1, relation.2⟩).1⟩
  else pure s

def checkEntity (name : String) : Except Error Unit :=
  if (utf8 name).isEmpty ∨ MAX_ENTITY_LEN < (utf8 name).length then
    .error (.invalidArgument "entity name must be 1–128 bytes of UTF-8")
  else .ok ()

def checkRelation (id : Ulid) (relation : String × Ulid) : Except Error Unit :=
  if (utf8 relation.1).isEmpty ∨ MAX_KIND_LEN < (utf8 relation.1).length then
    .error (.invalidArgument "relation kind must be 1–64 bytes of UTF-8")
  else if relation.2 = id then .error (.invalidArgument "a memory cannot relate to itself")
  else .ok ()

/-- Relations are sorted by kind, then by target. -/
def relationKey (relation : String × Ulid) : Bytes ×ₗ Ulid := toLex (utf8 relation.1, relation.2)

/-- Writes one memory's entities and outgoing relations. -/
def addMemory (id : Ulid) (entities : List String) (relations : List (String × Ulid)) : TxnM Unit :=
  if entities.isEmpty && relations.isEmpty then pure ()
  else do
    let _ ← (liftM (entities.forM checkEntity) : TxnM Unit)
    let _ ← (liftM (relations.forM (checkRelation id)) : TxnM Unit)
    let txn ← TxnM.current
    let loaded ← (TxnM.reading H fun src => loadMeta src txn.graphRootPage)
    let stats := loaded.getD GraphMeta.empty
    let adj ← (TxnM.reading H fun src => getAdjacency H src stats.dictRoot id)
    let s ← (distinct utf8 entities).foldlM (tagEntity H id) ⟨stats, stats.dictRoot, adj.getD {}⟩
    let s ← (distinct relationKey relations).foldlM (relate H id) s
    let body ← (liftM s.adj.encode : TxnM Bytes)
    let root ← Dict.upsert H GRAPH_DICT s.root (memoryKey id) body
    saveMeta H { s.stats with dictRoot := root }

end Write

end Graph

end EmbedMind
