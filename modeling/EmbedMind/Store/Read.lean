import EmbedMind.Store.Write

/-!
# Reading memories (`api.rs`)

What a store answers by id and through its graph. A forgotten memory is nowhere in an
answer; a superseded one is.
-/

namespace EmbedMind

/-- A memory at the other end of a relation. -/
structure RelatedMemory where
  memory : Memory
  kind : String
  outgoing : Bool
deriving DecidableEq

namespace Store

section Read

variable (H : Xxh3) (c : Committed)

/-- One memory by id; a forgotten one is absent. -/
def get (id : Ulid) : Except Error (Option Memory) := do
  match ← load (c.source H) c.header.rootBtreePage id with
  | none => .ok none
  | some record => .ok (if record.tombstone then none else some (Memory.fromRecord record))

/-- The memory at the end of an edge, if it is live. -/
def relatedAlong (out : List RelatedMemory) (edge : Graph.Edge) : Except Error (List RelatedMemory) := do
  match ← get H c edge.other with
  | none => .ok out
  | some memory => .ok (out ++ [⟨memory, edge.kind, edge.outgoing⟩])

/-- The memories related to one, in both directions. -/
def related (id : Ulid) : Except Error (List RelatedMemory) := do
  match ← Graph.memoryGraph H (c.source H) c.header.graphRootPage id with
  | none => .ok []
  | some adj => adj.edges.foldlM (relatedAlong H c) []

def memberOf (out : List Memory) (id : Ulid) : Except Error (List Memory) := do
  match ← get H c id with
  | none => .ok out
  | some memory => .ok (out ++ [memory])

/-- The live memories with a tag. -/
def entityMembers (entity : String) : Except Error (List Memory) := do
  let ids ← Graph.entityMembers H (c.source H) c.header.graphRootPage entity
  ids.foldlM (memberOf H c) []

/-- The tags of a memory. -/
def entitiesOf (id : Ulid) : Except Error (List String) := do
  let adj ← Graph.memoryGraph H (c.source H) c.header.graphRootPage id
  .ok ((adj.map Graph.MemoryGraph.entities).getD [])

end Read

end Store

end EmbedMind
