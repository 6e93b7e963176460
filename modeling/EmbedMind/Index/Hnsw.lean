import EmbedMind.Lib.BinaryHeap
import EmbedMind.Storage.TypedPage
import EmbedMind.Ulid

/-!
# The vector index (`index.rs`, `format.rs`, `docs/FORMAT.md` §6, §7)

One page for every vector, one page for every node of the graph, and a meta page with
the parameters and the entry point. `insert` stores a vector, searches its neighbours
layer by layer and links it in both directions. The pages read in one operation are
remembered (`Ctx`).

Floating-point arithmetic is a parameter (`Floats`): an `f32` is its bits.
-/

namespace EmbedMind

open Lib

/-- The bits of an `f32`. -/
abbrev F32 := UInt32

/-- The floating-point operations of the index. `lt` is a strict order, as `<` is on
`f32` (a NaN is not below anything and nothing is below it). -/
structure Floats where
  /-- The sum of the products. -/
  dot : List F32 → List F32 → F32
  lt : F32 → F32 → Bool
  /-- `⌊-ln (u / 2 ^ 53) / ln m⌋`, with the guard for `u = 0`. -/
  level : Nat → Nat → Nat
  lt_irrefl : ∀ x, lt x x = false
  lt_trans : ∀ x y z, lt x y = true → lt y z = true → lt x z = true

/-- `partial_cmp(..).unwrap_or(Equal)`. -/
def Floats.cmp (F : Floats) (a b : F32) : Ordering :=
  if F.lt a b then .lt else if F.lt b a then .gt else .eq

namespace Hnsw

def malformed {α : Type} (pageNo : Nat) (what : String) : Except Error α :=
  .error (.malformedPage pageNo what)

/-! ## Vector pages -/

def VECTOR_STRIDE_F32 : Nat := 4

def vectorSlotsPerPage (pageSize dims : Nat) : Nat :=
  if dims * VECTOR_STRIDE_F32 = 0 then 0
  else (pageSize - PAGE_HEADER_LEN - PAGE_TRAILER_LEN) / (dims * VECTOR_STRIDE_F32)

def encodeVector (vector : List F32) : Bytes := vector.flatMap fun v => leBytes 4 v.toNat

/-- `chunks_exact(4)`, each read as an `f32`. -/
def decodeVector : Bytes → List F32
  | a :: b :: c :: d :: rest => UInt32.ofNat (leNat [a, b, c, d]) :: decodeVector rest
  | _ => []

def initVectorPage (page : Bytes) : Bytes := (PageHeader.mk .vector 0 0).encodeInto page

/-- The page with the vector in its next free slot, and the slot; none if it is full. -/
def vectorPagePush (page : Bytes) (dims : Nat) (vector : List F32) : Except Error (Option (Bytes × Nat)) :=
  if vector.length ≠ dims then .error (.invalidArgument "vector length != header dims")
  else do
    let header ← okOr (PageHeader.decode page) (.invalidArgument "not a valid page")
    if header.pageType ≠ .vector then .error (.invalidArgument "not a VECTOR page")
    else if vectorSlotsPerPage page.length dims ≤ header.entryCount then .ok none
    else
      let page := splice page (PAGE_HEADER_LEN + header.entryCount * (dims * VECTOR_STRIDE_F32))
        (encodeVector vector)
      .ok (some ((PageHeader.mk .vector (header.entryCount + 1) header.nextPage).encodeInto page,
        header.entryCount % 2 ^ 16))

/-- The vector in a slot. -/
def vectorPageGet (page : Bytes) (dims slot pageNo : Nat) : Except Error (List F32) := do
  let header ← okOr (PageHeader.decode page) (.malformedPage pageNo "page header")
  if header.pageType ≠ .vector then malformed pageNo "not a VECTOR page"
  else if header.entryCount ≤ slot then malformed pageNo "vector slot out of range"
  else do
    let bytes ← okOr (slice page (PAGE_HEADER_LEN + slot * (dims * VECTOR_STRIDE_F32))
      (dims * VECTOR_STRIDE_F32)) (.malformedPage pageNo "vector slot bounds")
    .ok (decodeVector bytes)

/-! ## The meta page -/

def HNSW_DEFAULT_M : Nat := 16
def HNSW_DEFAULT_EF_CONSTRUCTION : Nat := 200

/-- The parameters of the index and the entry point of the graph. -/
structure HnswMeta where
  m : Nat
  efConstruction : Nat
  maxLayer : Nat
  entryPointPage : Nat
  nodeCount : Nat
deriving DecidableEq, Repr

namespace HnswMeta

def new : HnswMeta := ⟨HNSW_DEFAULT_M, HNSW_DEFAULT_EF_CONSTRUCTION, 0, 0, 0⟩

def body (stats : HnswMeta) : Bytes :=
  leBytes 2 stats.m ++ leBytes 2 stats.efConstruction ++ leBytes 1 stats.maxLayer ++
    leBytes 8 stats.entryPointPage ++ leBytes 8 stats.nodeCount

def encode (H : Xxh3) (stats : HnswMeta) (pageSize : Nat) : Except Error Bytes :=
  if stats.m = 0 then .error (.invalidArgument "hnsw m must be >= 1")
  else if 0 < stats.nodeCount ∧ stats.entryPointPage = 0 then
    .error (.invalidArgument "non-empty hnsw index requires an entry point")
  else .ok (typedPage H ⟨.hnswMeta, 0, 0⟩ pageSize stats.body)

def decode (page : Bytes) (pageNo : Nat) : Except Error HnswMeta := do
  let header ← okOr (PageHeader.decode page) (.malformedPage pageNo "page header")
  if header.pageType ≠ .hnswMeta then malformed pageNo "not an HNSW_META page"
  else do
    let m ← okOr (readLE page PAGE_HEADER_LEN 2) (.malformedPage pageNo "m")
    if m = 0 then malformed pageNo "hnsw m is zero"
    else do
      let efConstruction ← okOr (readLE page (PAGE_HEADER_LEN + 2) 2)
        (.malformedPage pageNo "ef_construction")
      let maxLayer ← okOr (readLE page (PAGE_HEADER_LEN + 4) 1) (.malformedPage pageNo "max_layer")
      let entryPointPage ← okOr (readLE page (PAGE_HEADER_LEN + 5) 8)
        (.malformedPage pageNo "entry_point_page")
      let nodeCount ← okOr (readLE page (PAGE_HEADER_LEN + 13) 8) (.malformedPage pageNo "node_count")
      if 0 < nodeCount ∧ entryPointPage = 0 then malformed pageNo "hnsw entry point missing"
      else .ok ⟨m, efConstruction, maxLayer, entryPointPage, nodeCount⟩

end HnswMeta

/-! ## Node pages -/

/-- Record id, location of the vector and number of layers. -/
def NODE_FIXED_LEN : Nat := 16 + 8 + 2 + 1

/-- The highest level at which a full node fits a page. -/
def maxHnswLevel (pageSize m : Nat) : Option Nat :=
  let usable := pageSize - PAGE_HEADER_LEN - PAGE_TRAILER_LEN
  let layer0 := 2 + m * 2 * 8
  let upper := 2 + m * 8
  if usable < NODE_FIXED_LEN + layer0 then none
  else some (min ((usable - (NODE_FIXED_LEN + layer0)) / upper) 31)

/-- A node: the record it embeds, where its vector is, its neighbours layer by layer. -/
structure HnswNode where
  recordId : Ulid
  vecPage : Nat
  vecSlot : Nat
  layers : List (List Nat)
deriving DecidableEq, Repr

namespace HnswNode

def encodeLayer (layer : List Nat) : Bytes := leBytes 2 layer.length ++ layer.flatMap (leBytes 8)

def body (node : HnswNode) : Bytes :=
  Ulid.toBytes node.recordId ++ leBytes 8 node.vecPage ++ leBytes 2 node.vecSlot ++
    leBytes 1 node.layers.length ++ node.layers.flatMap encodeLayer

/-- None if the node does not fit. -/
def encode (H : Xxh3) (node : HnswNode) (pageSize : Nat) : Option Bytes :=
  if 255 < node.layers.length then none
  else if node.layers.any fun layer => decide (2 ^ 16 ≤ layer.length) then none
  else if pageSize - PAGE_TRAILER_LEN < PAGE_HEADER_LEN + node.body.length then none
  else some (typedPage H ⟨.hnswNode, 0, 0⟩ pageSize node.body)

def decodeNeighbors (page : Bytes) (pageNo : Nat) : Nat → Nat → Except Error (List Nat)
  | 0, _ => .ok []
  | count + 1, off => do
      let n ← okOr (readLE page off 8) (.malformedPage pageNo "hnsw neighbor page")
      if n = 0 then malformed pageNo "hnsw null neighbor page"
      else do
        let rest ← decodeNeighbors page pageNo count (off + 8)
        .ok (n :: rest)

def decodeLayers (page : Bytes) (pageNo : Nat) : Nat → Nat → Except Error (List (List Nat))
  | 0, _ => .ok []
  | layerCount + 1, off => do
      let count ← okOr (readLE page off 2) (.malformedPage pageNo "hnsw neighbor count")
      if page.length - (off + 2) < count * 8 then malformed pageNo "hnsw neighbor count exceeds page"
      else do
        let neighbors ← decodeNeighbors page pageNo count (off + 2)
        let rest ← decodeLayers page pageNo layerCount (off + 2 + count * 8)
        .ok (neighbors :: rest)

def decode (page : Bytes) (pageNo : Nat) : Except Error HnswNode := do
  let header ← okOr (PageHeader.decode page) (.malformedPage pageNo "page header")
  if header.pageType ≠ .hnswNode then malformed pageNo "not an HNSW_NODE page"
  else do
    let recordId ← okOr (slice page PAGE_HEADER_LEN 16) (.malformedPage pageNo "hnsw record_id")
    let vecPage ← okOr (readLE page (PAGE_HEADER_LEN + 16) 8) (.malformedPage pageNo "hnsw vec_page")
    let vecSlot ← okOr (readLE page (PAGE_HEADER_LEN + 24) 2) (.malformedPage pageNo "hnsw vec_slot")
    let layerCount ← okOr (readLE page (PAGE_HEADER_LEN + 26) 1)
      (.malformedPage pageNo "hnsw layer_count")
    let layers ← decodeLayers page pageNo layerCount (PAGE_HEADER_LEN + 27)
    .ok ⟨Ulid.fromBytes recordId, vecPage, vecSlot, layers⟩

end HnswNode

/-! ## The pages of one operation -/

/-- Nodes and vectors read so far; the latest entry of a page counts. -/
structure Ctx where
  nodes : List (Nat × HnswNode) := []
  vectors : List ((Nat × Nat) × List F32) := []

abbrev CtxM := StateT Ctx (Except Error)

section Read

variable (F : Floats) (src : PageSource) (dims : Nat)

def Ctx.node (pageNo : Nat) : CtxM HnswNode := do
  let ctx ← get
  match ctx.nodes.lookup pageNo with
  | some node => pure node
  | none => do
      let page ← (liftM (src.page pageNo) : CtxM Bytes)
      let node ← (liftM (HnswNode.decode page pageNo) : CtxM HnswNode)
      modify fun c => { c with nodes := (pageNo, node) :: c.nodes }
      pure node

def Ctx.vector (pageNo : Nat) : CtxM (List F32) := do
  let node ← Ctx.node src pageNo
  let ctx ← get
  match ctx.vectors.lookup (node.vecPage, node.vecSlot) with
  | some vec => pure vec
  | none => do
      let page ← (liftM (src.page node.vecPage) : CtxM Bytes)
      let vec ← (liftM (vectorPageGet page dims node.vecSlot node.vecPage) : CtxM (List F32))
      modify fun c => { c with vectors := ((node.vecPage, node.vecSlot), vec) :: c.vectors }
      pure vec

/-- The similarity of a node's vector to the query. -/
def Ctx.simTo (query : List F32) (pageNo : Nat) : CtxM F32 := do
  let vec ← Ctx.vector src dims pageNo
  pure (F.dot vec query)

/-! ## Searching a layer -/

/-- The pages of a file have 64-bit numbers: no search visits more of them. -/
def FUEL : Nat := 2 ^ 64

def outOfFuel : Error := .internal "hnsw search did not end"

/-- The best node of a descent so far, and whether this round improved it. -/
structure Best where
  page : Nat
  sim : F32
  improved : Bool

def closer (query : List F32) (best : Best) (cand : Nat) : CtxM Best := do
  let sim ← Ctx.simTo F src dims query cand
  pure (if F.lt best.sim sim then ⟨cand, sim, true⟩ else best)

/-- Moves to closer neighbours until none is closer. -/
def greedyClosest (query : List F32) (layer : Nat) : Nat → Nat → F32 → CtxM (Nat × F32)
  | 0, _, _ => throw outOfFuel
  | fuel + 1, best, bestSim => do
      let node ← Ctx.node src best
      match node.layers[layer]? with
      | none => pure (best, bestSim)
      | some neighbors => do
          let r ← neighbors.foldlM (closer F src dims query) ⟨best, bestSim, false⟩
          if r.improved then greedyClosest query layer fuel r.page r.sim else pure (r.page, r.sim)

/-- The highest similarity on top. -/
def frontierCmp (a b : Nat × F32) : Ordering := F.cmp a.2 b.2

/-- The lowest similarity on top. -/
def worstCmp (a b : Nat × F32) : Ordering := F.cmp b.2 a.2

/-- Candidates, the highest similarity first. -/
def bestFirst (l : List (Nat × F32)) : List (Nat × F32) :=
  l.insertionSort fun a b => F.cmp b.2 a.2 ≠ .gt

/-- The state of a best-first search. -/
structure Beam where
  visited : List Nat
  frontier : Array (Nat × F32)
  results : Array (Nat × F32)

def Beam.shouldAdd (b : Beam) (ef : Nat) (sim : F32) : Bool :=
  decide (b.results.size < ef) || (BinaryHeap.peek b.results).any fun w => F.lt w.2 sim

/-- A candidate enters the frontier and the results; the worst result leaves. -/
def Beam.add (b : Beam) (ef : Nat) (cand : Nat × F32) : Beam :=
  let results := BinaryHeap.push (worstCmp F) cand b.results
  { b with
    frontier := BinaryHeap.push (frontierCmp F) cand b.frontier
    results := if ef < results.size then ((BinaryHeap.pop (worstCmp F) results).map Prod.snd).getD results
      else results }

def Beam.visit (query : List F32) (ef : Nat) (b : Beam) (cand : Nat) : CtxM Beam :=
  if cand ∈ b.visited then pure b
  else do
    let sim ← Ctx.simTo F src dims query cand
    let b := { b with visited := cand :: b.visited }
    pure (if b.shouldAdd F ef sim then b.add F ef (cand, sim) else b)

/-- Expands the best candidate until nothing in the frontier can improve the results. -/
def expand (query : List F32) (layer ef : Nat) : Nat → Beam → CtxM Beam
  | 0, _ => throw outOfFuel
  | fuel + 1, b =>
      match BinaryHeap.pop (frontierCmp F) b.frontier with
      | none => pure b
      | some ((page, sim), frontier) =>
          if ef ≤ b.results.size ∧ (BinaryHeap.peek b.results).any (fun w => F.lt sim w.2) then
            pure { b with frontier }
          else do
            let node ← Ctx.node src page
            match node.layers[layer]? with
            | none => expand query layer ef fuel { b with frontier }
            | some neighbors => do
                let b ← neighbors.foldlM (Beam.visit F src dims query ef) { b with frontier }
                expand query layer ef fuel b

/-- Best-first search at a layer; at most `ef` candidates, the best first. -/
def searchLayer (entryPoints : List (Nat × F32)) (layer : Nat) (query : List F32) (ef : Nat) :
    CtxM (List (Nat × F32)) := do
  let b ← expand F src dims query layer (max ef 1) FUEL
    { visited := entryPoints.map Prod.fst
      frontier := BinaryHeap.ofList (frontierCmp F) entryPoints
      results := BinaryHeap.ofList (worstCmp F) entryPoints }
  pure (bestFirst F b.results.toList)

/-! ## Selecting neighbours -/

/-- No selected neighbour is closer to the candidate than the base is. -/
def diverse (candVec : List F32) (candSim : F32) : List (Nat × F32) → CtxM Bool
  | [] => pure true
  | (sel, _) :: rest => do
      let selVec ← Ctx.vector src dims sel
      if F.lt candSim (F.dot candVec selVec) then pure false else diverse candVec candSim rest

/-- The candidates that are selected and those that are pruned. -/
def selectDiverse (cap : Nat) :
    List (Nat × F32) → List (Nat × F32) → List Nat → CtxM (List (Nat × F32) × List Nat)
  | [], selected, pruned => pure (selected, pruned)
  | (cand, candSim) :: rest, selected, pruned =>
      if cap ≤ selected.length then pure (selected, pruned)
      else do
        let candVec ← Ctx.vector src dims cand
        let keep ← diverse F src dims candVec candSim selected
        if keep then selectDiverse cap rest (selected ++ [(cand, candSim)]) pruned
        else selectDiverse cap rest selected (pruned ++ [cand])

/-- At most `cap` candidates: the diverse ones, then pruned ones in order. -/
def selectNeighbors (candidates : List (Nat × F32)) (cap : Nat) : CtxM (List Nat) := do
  let (selected, pruned) ← selectDiverse F src dims cap candidates [] []
  pure (selected.map Prod.fst ++ pruned.take (cap - selected.length))

def scoreAll (base : List F32) : List Nat → CtxM (List (Nat × F32))
  | [] => pure []
  | page :: rest => do
      let sim ← Ctx.simTo F src dims base page
      let scored ← scoreAll base rest
      pure ((page, sim) :: scored)

/-- Scores neighbours against their node and selects among them. -/
def reselect (nodePage : Nat) (neighbors : List Nat) (cap : Nat) : CtxM (List Nat) := do
  let selfVec ← Ctx.vector src dims nodePage
  let scored ← scoreAll F src dims selfVec neighbors
  selectNeighbors F src dims (bestFirst F scored) cap

/-- The descent from the entry point through the layers above `level`. -/
def descend (query : List F32) (stats : HnswMeta) (level : Nat) : CtxM (Nat × F32) := do
  let entrySim ← Ctx.simTo F src dims query stats.entryPointPage
  (List.range' (level + 1) (stats.maxLayer - level)).reverse.foldlM
    (fun best layer => greedyClosest F src dims query layer FUEL best.1 best.2)
    (stats.entryPointPage, entrySim)

end Read

/-- The meta page, or none when there is no index yet. -/
def loadMeta (src : PageSource) (pageNo : Nat) : Except Error (Option HnswMeta) :=
  if pageNo = 0 then .ok none
  else do
    let page ← src.page pageNo
    let stats ← HnswMeta.decode page pageNo
    .ok (some stats)

/-- The number of nodes. -/
def nodeCount (src : PageSource) (hnswMetaPage : Nat) : Except Error Nat := do
  let loaded ← loadMeta src hnswMetaPage
  .ok ((loaded.map HnswMeta.nodeCount).getD 0)

/-! ## Levels -/

/-- Neighbours a node may hold at a layer. -/
def layerCap (m layer : Nat) : Nat := if layer = 0 then m * 2 else m

/-- The level of a node, from the number of nodes before it. -/
def randomLevel (F : Floats) (seed m : Nat) : Nat :=
  let state := (UInt64.ofNat seed * 0x9E3779B97F4A7C15) ^^^ 0xD1B54A32D192ED03
  let z := state + 0x9E3779B97F4A7C15
  let z := (z ^^^ (z >>> 30)) * 0xBF58476D1CE4E5B9
  let z := (z ^^^ (z >>> 27)) * 0x94D049BB133111EB
  let z := z ^^^ (z >>> 31)
  min (F.level (z >>> 11).toNat (max m 2)) 31

/-! ## Inserting -/

section Write

variable (H : Xxh3) (F : Floats) (dims : Nat)

def doesNotFit : Error := .internal "hnsw node does not fit in one page"

/-- A read of the operation inside a transaction. -/
def within {α : Type} (ctx : Ctx) (f : PageSource → CtxM α) : TxnM (α × Ctx) :=
  TxnM.reading H fun src => (f src).run ctx

def saveMeta (stats : HnswMeta) : TxnM Unit := do
  let txn ← TxnM.current
  let pageNo ← TxnM.pageOrFresh H txn.hnswMetaPage
  let page ← (liftM (stats.encode H txn.pageSize) : TxnM Bytes)
  TxnM.writePage H pageNo page
  TxnM.update fun t => t.setHnswMetaPage pageNo

def allocNodePage (node : HnswNode) : TxnM Nat := do
  let pageNo ← TxnM.allocatePage H
  let txn ← TxnM.current
  let page ← (liftM (okOr (node.encode H txn.pageSize) doesNotFit) : TxnM Bytes)
  TxnM.writePage H pageNo page
  pure pageNo

def writeNodeAt (pageNo : Nat) (node : HnswNode) (ctx : Ctx) : TxnM Ctx := do
  let txn ← TxnM.current
  let page ← (liftM (okOr (node.encode H txn.pageSize) doesNotFit) : TxnM Bytes)
  TxnM.writePage H pageNo page
  pure { ctx with nodes := (pageNo, node) :: ctx.nodes }

/-- A fresh page with one vector. -/
def storeVector (vector : List F32) : TxnM (Nat × Nat) := do
  let pageNo ← TxnM.allocatePage H
  let txn ← TxnM.current
  let pushed ← (liftM (vectorPagePush (initVectorPage (List.replicate txn.pageSize 0)) dims vector) :
    TxnM (Option (Bytes × Nat)))
  let (page, slot) ← (liftM (okOr pushed (.internal "vector does not fit in one page")) :
    TxnM (Bytes × Nat))
  TxnM.writePage H pageNo page
  pure (pageNo, slot)

/-- `Vec::resize` to one more layer than `layer`. -/
def resizeLayers (layers : List (List Nat)) (layer : Nat) : List (List Nat) :=
  layers ++ List.replicate (layer + 1 - layers.length) []

variable (grow : List (List Nat) → Nat → List (List Nat))

/-- Links `newPage` at a node; `grow` stands for the defensive resize of its layers. -/
def connectWith (m : Nat) (newPage layer : Nat) (ctx : Ctx) (nodePage : Nat) : TxnM Ctx := do
  let (node, ctx) ← within H ctx fun src => Ctx.node src nodePage
  let layers := if node.layers.length ≤ layer then grow node.layers layer else node.layers
  let neighbors := layers.getD layer []
  if newPage ∈ neighbors then pure ctx
  else do
    let (kept, ctx) ← within H ctx fun src =>
      if layerCap m layer < (neighbors ++ [newPage]).length then
        reselect F src dims nodePage (neighbors ++ [newPage]) (layerCap m layer)
      else pure (neighbors ++ [newPage])
    writeNodeAt H nodePage { node with layers := layers.set layer kept } ctx

/-- The variables of the linking loop. -/
structure Linking where
  layers : List (List Nat)
  entryPoints : List (Nat × F32)
  ctx : Ctx

/-- Searches one layer, selects neighbours and links them back. -/
def linkLayerWith (stats : HnswMeta) (vector : List F32) (newPage : Nat) (s : Linking) (layer : Nat) :
    TxnM Linking := do
  let (candidates, ctx) ← within H s.ctx fun src =>
    searchLayer F src dims s.entryPoints layer vector (max stats.efConstruction stats.m)
  let (selected, ctx) ← within H ctx fun src => selectNeighbors F src dims candidates stats.m
  let ctx ← selected.foldlM (connectWith H F dims grow stats.m newPage layer) ctx
  pure ⟨s.layers.set layer selected, candidates, ctx⟩

/-- The first node of an index. -/
def insertFirst (stats : HnswMeta) (recordId : Ulid) (vecRef : Nat × Nat) (level : Nat) : TxnM Unit := do
  let nodePage ← allocNodePage H ⟨recordId, vecRef.1, vecRef.2, List.replicate (level + 1) []⟩
  saveMeta H { stats with entryPointPage := nodePage, maxLayer := level % 2 ^ 8, nodeCount := 1 }

/-- A further node: descent, a page for the node, links at every layer from the top. -/
def insertNextWith (stats : HnswMeta) (recordId : Ulid) (vector : List F32) (vecRef : Nat × Nat)
    (level : Nat) : TxnM Unit := do
  let (entry, ctx) ← within H {} fun src => descend F src dims vector stats level
  let newPage ← allocNodePage H ⟨recordId, vecRef.1, vecRef.2, List.replicate (level + 1) []⟩
  let s ← (List.range (min level stats.maxLayer + 1)).reverse.foldlM
    (linkLayerWith H F dims grow stats vector newPage) ⟨List.replicate (level + 1) [], [entry], ctx⟩
  let _ ← writeNodeAt H newPage ⟨recordId, vecRef.1, vecRef.2, s.layers⟩ s.ctx
  saveMeta H { stats with
    maxLayer := if stats.maxLayer < level then level % 2 ^ 8 else stats.maxLayer
    entryPointPage := if stats.maxLayer < level then newPage else stats.entryPointPage
    nodeCount := stats.nodeCount + 1 }

/-- Inserts a vector; its page and slot. -/
def insertWith (recordId : Ulid) (vector : List F32) : TxnM (Nat × Nat) :=
  if vector.length ≠ dims then throw (.invalidArgument "vector length != store dims")
  else do
    let txn ← TxnM.current
    let loaded ← (TxnM.reading H fun src => loadMeta src txn.hnswMetaPage)
    let stats := loaded.getD HnswMeta.new
    let levelCap ← (liftM (okOr (maxHnswLevel txn.pageSize stats.m)
      (.invalidArgument "page size too small for this index's M parameter")) : TxnM Nat)
    let vecRef ← storeVector H dims vector
    let level := min (randomLevel F stats.nodeCount stats.m) levelCap
    let _ ← (if stats.nodeCount = 0 then insertFirst H stats recordId vecRef level
      else insertNextWith H F dims grow stats recordId vector vecRef level)
    pure vecRef

/-- `index::insert`. -/
def insert (recordId : Ulid) (vector : List F32) : TxnM (Nat × Nat) :=
  insertWith H F dims resizeLayers recordId vector

end Write

end Hnsw

end EmbedMind
