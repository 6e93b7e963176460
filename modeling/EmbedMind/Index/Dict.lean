import EmbedMind.Storage.TreeProof

/-!
# The shared dictionary tree (`index/dict.rs`, `docs/FORMAT.md` §11, §12)

A B-tree from byte strings to byte strings, behind the full-text index and the
graph. Nodes are read and written front to back: a node kind, then length-prefixed
keys with their values or children. The algorithm is the one of the record tree
(`Storage.Tree`); a `DictSpec` carries what differs between the two dictionaries.

Separators here have any length up to the key bound, and an inner node is split by
count, so the halves of a split need not fit at the smallest page sizes: an upsert
may fail with an internal error. The laws are therefore stated with the trivial
error condition, and an upsert that succeeds puts its entry into the map.
-/

namespace EmbedMind

open Lib Lib.Assoc Lib.PagedTree

/-- One dictionary's page types and key bound. -/
structure DictSpec where
  dict : PageType
  overflow : PageType
  maxKeyLen : Nat

/-- Longest indexed term, in bytes. -/
def MAX_TERM_LEN : Nat := 128

/-- Longest entity name, in bytes. -/
def MAX_ENTITY_LEN : Nat := 128

/-- The full-text dictionary. -/
def FTS_DICT : DictSpec := ⟨.ftsDict, .ftsPostings, MAX_TERM_LEN⟩

/-- The graph dictionary; a key is a tag and an entity name, or a tag and an id. -/
def GRAPH_DICT : DictSpec := ⟨.graphDict, .graphOverflow, 1 + MAX_ENTITY_LEN⟩

namespace Dict

def NODE_META : UInt8 := 0
def NODE_INNER : UInt8 := 1
def NODE_LEAF : UInt8 := 2
def VALUE_INLINE : UInt8 := 0
def VALUE_OVERFLOW : UInt8 := 1

def malformed {α : Type} (pageNo : Nat) (what : String) : Except Error α :=
  .error (.malformedPage pageNo what)

/-! ## Reading helpers -/

/-- `read_u32` and its like. -/
def readInt (buf : Bytes) (off width pageNo : Nat) : Except Error Nat :=
  okOr (readLE buf off width) (.malformedPage pageNo "dict short read")

/-- `get_u16`, `get_u32`, `get_u64`: the integer and the offset past it. -/
def getInt (buf : Bytes) (off width pageNo : Nat) : Except Error (Nat × Nat) := do
  let v ← readInt buf off width pageNo
  .ok (v, off + width)

/-- The length-checked part of `get_bytes_u16` and `get_bytes_u32`. -/
def getSlice (buf : Bytes) (off len contentEnd pageNo : Nat) (what : String) :
    Except Error (Bytes × Nat) :=
  if off + len ≤ contentEnd then
    match slice buf off len with
    | some out => .ok (out, off + len)
    | none => malformed pageNo what
  else malformed pageNo what

def getBytesU16 (buf : Bytes) (off contentEnd pageNo : Nat) (what : String) :
    Except Error (Bytes × Nat) := do
  let len ← okOr (readLE buf off 2) (.malformedPage pageNo what)
  getSlice buf (off + 2) len contentEnd pageNo what

def getBytesU32 (buf : Bytes) (off contentEnd pageNo : Nat) (what : String) :
    Except Error (Bytes × Nat) := do
  let len ← readInt buf off 4 pageNo
  getSlice buf (off + 4) len contentEnd pageNo what

/-! ## Codec -/

def encodedLen : Cell → Nat
  | .inline b => 1 + 4 + b.length
  | .overflow _ _ => 1 + 4 + 8

def footprint (e : Bytes × Cell) : Nat := 2 + e.1.length + encodedLen e.2

def maxEntryFootprint (pageSize : Nat) : Nat := usable pageSize / 4

/-- Largest value body stored inline. -/
def maxInlineBody (spec : DictSpec) (pageSize : Nat) : Nat :=
  maxEntryFootprint pageSize - (2 + spec.maxKeyLen + 1 + 4)

def encodeValue : Cell → Bytes
  | .inline b => VALUE_INLINE :: (leBytes 4 b.length ++ b)
  | .overflow totalLen firstPage => VALUE_OVERFLOW :: (leBytes 4 totalLen ++ leBytes 8 firstPage)

def leafBytes : List (Bytes × Cell) → Bytes
  | [] => []
  | (key, value) :: rest => leBytes 2 key.length ++ key ++ encodeValue value ++ leafBytes rest

def innerBytes : List (Bytes × Nat) → Bytes
  | [] => []
  | (key, child) :: rest => leBytes 2 key.length ++ key ++ leBytes 8 child ++ innerBytes rest

/-- A dictionary page with `entryCount` entries and the given body. -/
def nodePage (H : Xxh3) (spec : DictSpec) (pageSize entryCount : Nat) (body : Bytes) : Bytes :=
  stampPageChecksum H (splice ((PageHeader.mk spec.dict entryCount 0).encodeInto
    (List.replicate pageSize 0)) PAGE_HEADER_LEN body)

def encodeLeaf (H : Xxh3) (spec : DictSpec) (entries : List (Bytes × Cell)) (pageSize : Nat) :
    Option Bytes :=
  let bodyLen := 1 + (entries.map footprint).sum
  if pageSize - PAGE_TRAILER_LEN < PAGE_HEADER_LEN + bodyLen then none
  else some (nodePage H spec pageSize entries.length (NODE_LEAF :: leafBytes entries))

def encodeInner (H : Xxh3) (spec : DictSpec) (entries : List (Bytes × Nat))
    (rightmost pageSize : Nat) : Option Bytes :=
  let bodyLen := 1 + 8 + (entries.map fun e => 2 + e.1.length + 8).sum
  if entries.isEmpty ∨ pageSize - PAGE_TRAILER_LEN < PAGE_HEADER_LEN + bodyLen then none
  else some (nodePage H spec pageSize entries.length
    (NODE_INNER :: (leBytes 8 rightmost ++ innerBytes entries)))

/-- The value of a leaf entry at an offset. -/
def decodeValue (page : Bytes) (off contentEnd pageNo : Nat) : Except Error (Cell × Nat) := do
  let tag ← okOr page[off]? (.malformedPage pageNo "dict value tag")
  if tag = VALUE_INLINE then do
    let (body, off) ← getBytesU32 page (off + 1) contentEnd pageNo "dict inline value"
    .ok (.inline body, off)
  else if tag = VALUE_OVERFLOW then do
    let (totalLen, off) ← getInt page (off + 1) 4 pageNo
    let (firstPage, off) ← getInt page off 8 pageNo
    if firstPage = 0 then malformed pageNo "dict null overflow page"
    else .ok (.overflow totalLen firstPage, off)
  else malformed pageNo "dict value tag"

def decodeEntries (page : Bytes) (contentEnd pageNo : Nat) :
    Nat → Nat → Option Bytes → Except Error (List (Bytes × Cell))
  | 0, _, _ => .ok []
  | n + 1, off, prev => do
      let (key, off) ← getBytesU16 page off contentEnd pageNo "dict leaf key"
      if prev.any (fun p => decide (key ≤ p)) then malformed pageNo "unsorted dict leaf keys"
      else do
        let (value, off) ← decodeValue page off contentEnd pageNo
        let rest ← decodeEntries page contentEnd pageNo n off (some key)
        .ok ((key, value) :: rest)

def decodeChildren (page : Bytes) (contentEnd pageNo : Nat) :
    Nat → Nat → Option Bytes → Except Error (List (Bytes × Nat))
  | 0, _, _ => .ok []
  | n + 1, off, prev => do
      let (key, off) ← getBytesU16 page off contentEnd pageNo "dict inner key"
      if prev.any (fun p => decide (key ≤ p)) then malformed pageNo "unsorted dict inner keys"
      else do
        let (child, off) ← getInt page off 8 pageNo
        if child = 0 then malformed pageNo "dict null child"
        else do
          let rest ← decodeChildren page contentEnd pageNo n off (some key)
          .ok ((key, child) :: rest)

def decodeNode (spec : DictSpec) (page : Bytes) (pageNo : Nat) : Except Error (Node Bytes) := do
  let header ← okOr (PageHeader.decode page) (.malformedPage pageNo "dict page header")
  if header.pageType ≠ spec.dict then malformed pageNo "not a dict page"
  else do
    let contentEnd := page.length - PAGE_TRAILER_LEN
    let kind ← okOr page[PAGE_HEADER_LEN]? (.malformedPage pageNo "dict node kind")
    let off := PAGE_HEADER_LEN + 1
    let n := header.entryCount
    if kind = NODE_LEAF then do
      let entries ← decodeEntries page contentEnd pageNo n off none
      .ok (.leaf entries)
    else if kind = NODE_INNER then
      if n = 0 then malformed pageNo "empty dict inner node"
      else do
        let (rightmost, off) ← getInt page off 8 pageNo
        if rightmost = 0 then malformed pageNo "dict null rightmost child"
        else do
          let entries ← decodeChildren page contentEnd pageNo n off none
          .ok (.inner entries rightmost)
    else malformed pageNo "unexpected dict node kind"

/-- A dictionary as an instance of the shared algorithm. -/
def tree (H : Xxh3) (spec : DictSpec) : TreeSpec Bytes where
  decodeNode := decodeNode spec
  encodeLeaf := encodeLeaf H spec
  encodeInner := encodeInner H spec
  footprint := footprint
  maxInline := maxInlineBody spec
  chunks := fun cap body => if body.isEmpty then [[]] else chunks cap body
  overflowLen := fun len =>
    if len < 2 ^ 32 then .ok len else .error (.invalidArgument "dict value exceeds u32")
  overflowType := spec.overflow
  finish := stampPageChecksum H
  texts :=
    { tooDeep := "dict tree deeper than MAX_DEPTH"
      chainHeader := "dict overflow header"
      notChain := "not a dict overflow page"
      emptyChain := "empty dict overflow chain"
      emptyHalf := "dict leaf split produced an empty half"
      emptyLeft := "dict leaf split empty left"
      leafUnfit := "dict leaf split does not fit"
      innerUnderflow := "dict inner split underflow"
      innerUnfit := "dict inner split does not fit"
      freshLeaf := "fresh dict leaf does not fit"
      freshRoot := "fresh dict root does not fit" }

/-! ## Lookup and upsert -/

/-- Reads an overflow chain of `remaining` bytes. A page of the chain may be empty,
so a corrupt cycle of empty pages makes the source loop; the model gives up after
`fuel` hops, which a chain with a byte on every page never needs. -/
def readOverflowChain (spec : DictSpec) (src : PageSource) : Nat → Nat → Nat → Except Error Bytes
  | 0, pageNo, _ => malformed pageNo "dict overflow cycle"
  | fuel + 1, pageNo, remaining => do
      let page ← src.page pageNo
      let header ← okOr (PageHeader.decode page) (.malformedPage pageNo "dict overflow header")
      if header.pageType ≠ spec.overflow then malformed pageNo "not a dict overflow page"
      else
        let used := header.entryCount
        if remaining < used ∨ usable src.pageSize < used then
          malformed pageNo "dict overflow payload length"
        else do
          let payload ← okOr (slice page PAGE_HEADER_LEN used)
            (.malformedPage pageNo "dict overflow payload bounds")
          if remaining - used = 0 then .ok payload
          else if header.nextPage = 0 then malformed pageNo "broken dict overflow chain"
          else do
            let rest ← readOverflowChain spec src fuel header.nextPage (remaining - used)
            .ok (payload ++ rest)

/-- A key's value body, with the page that gives its errors their context. -/
def get (H : Xxh3) (spec : DictSpec) (src : PageSource) (root : Nat) (key : Bytes) :
    Except Error (Option (Bytes × Nat)) :=
  if root = 0 then .ok none
  else do
    match ← (tree H spec).lookup src key MAX_DEPTH root with
    | none => .ok none
    | some (.inline body, leaf) => .ok (some (body, leaf))
    | some (.overflow totalLen firstPage, _) => do
        let body ← readOverflowChain spec src (totalLen + 1) firstPage totalLen
        .ok (some (body, firstPage))

/-- Inserts or replaces `key → body`, returning the (possibly moved) root. -/
def upsert (H : Xxh3) (spec : DictSpec) (root : Nat) (key body : Bytes) : TxnM Nat :=
  if spec.maxKeyLen < key.length then throw (.invalidArgument "dict key exceeds its length cap")
  else (tree H spec).upsert H root key body

end Dict

end EmbedMind
