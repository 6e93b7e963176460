import EmbedMind.Storage.Tree

/-!
# The record B-tree (`storage/btree.rs`, `docs/FORMAT.md` §5)

Keys are 16-byte strings in byte order, values are opaque byte strings. A leaf has
a directory of slots after the page header and its cells packed from the tail; an
inner node has its rightmost child and then fixed-size entries.

The tree itself is `TreeSpec.upsert` and `TreeSpec.lookup` on this layout. The scan
is the source's iterator, a stack of frames; `visit` is what it yields, by
recursion on the depth.
-/

namespace EmbedMind

open Lib Lib.Assoc

/-- A B-tree key: 16 bytes, in lexicographic order. -/
def Key : Type := { bs : Bytes // bs.length = 16 }

instance : LinearOrder Key := inferInstanceAs (LinearOrder { bs : Bytes // bs.length = 16 })

/-- The key of sixteen zeros. -/
def zeroKey : Key := ⟨List.replicate 16 0, List.length_replicate⟩

def Key.ofBytes? (bs : Bytes) : Option Key := if h : bs.length = 16 then some ⟨bs, h⟩ else none

/-- Hard cap on the encoded size of one record. -/
def MAX_RECORD_LEN : Nat := 32 * 1024 * 1024

namespace Btree

def SLOT_LEN : Nat := 20
def INNER_ENTRY_LEN : Nat := 24
def CELL_INLINE : UInt8 := 0
def CELL_OVERFLOW : UInt8 := 1
def OVERFLOW_CELL_LEN : Nat := 13

/-- Maximum footprint of one leaf entry: a quarter of the usable space. -/
def maxEntryFootprint (pageSize : Nat) : Nat := usable pageSize / 4

/-- Largest value stored inline in a leaf cell. -/
def maxInlineValue (pageSize : Nat) : Nat := maxEntryFootprint pageSize - SLOT_LEN - 1

def malformed {α : Type} (pageNo : Nat) (what : String) : Except Error α :=
  .error (.malformedPage pageNo what)

/-- The bounds-checked reads of the page codecs. -/
def readInt (buf : Bytes) (off width pageNo : Nat) : Except Error Nat :=
  okOr (readLE buf off width) (.malformedPage pageNo "short read")

/-! ## Codec -/

def encodedLen : Cell → Nat
  | .inline v => 1 + v.length
  | .overflow _ _ => OVERFLOW_CELL_LEN

def footprint (e : Key × Cell) : Nat := SLOT_LEN + encodedLen e.2

def encodeCell : Cell → Bytes
  | .inline v => CELL_INLINE :: v
  | .overflow totalLen firstPage => CELL_OVERFLOW :: (leBytes 4 totalLen ++ leBytes 8 firstPage)

def decodeCell (bytes : Bytes) (pageNo : Nat) : Except Error Cell :=
  match bytes with
  | [] => malformed pageNo "cell tag"
  | tag :: rest =>
      if tag = CELL_INLINE then .ok (.inline rest)
      else if tag = CELL_OVERFLOW ∧ bytes.length = OVERFLOW_CELL_LEN then do
        let totalLen ← readInt bytes 1 4 pageNo
        let firstPage ← readInt bytes 5 8 pageNo
        if firstPage = 0 ∨ MAX_RECORD_LEN < totalLen then malformed pageNo "overflow cell"
        else .ok (.overflow totalLen firstPage)
      else malformed pageNo "cell tag"

/-- The slot directory; each cell ends where the one before it begins, the first
one at `cursor`. -/
def slotBytes : List (Key × Cell) → Nat → Bytes
  | [], _ => []
  | (key, cell) :: rest, cursor =>
      key.1 ++ leBytes 2 (cursor - encodedLen cell) ++ leBytes 2 (encodedLen cell) ++
        slotBytes rest (cursor - encodedLen cell)

/-- The cells, packed from the tail. -/
def cellBytes : List (Key × Cell) → Bytes
  | [] => []
  | (_, cell) :: rest => cellBytes rest ++ encodeCell cell

def cellsLen (entries : List (Key × Cell)) : Nat := (entries.map fun e => encodedLen e.2).sum

/-- Encodes a leaf; `none` when it does not fit at this page size. -/
def encodeLeaf (entries : List (Key × Cell)) (pageSize : Nat) : Option Bytes :=
  let slotsEnd := PAGE_HEADER_LEN + entries.length * SLOT_LEN
  let contentEnd := pageSize - PAGE_TRAILER_LEN
  if contentEnd < slotsEnd + cellsLen entries then none
  else
    let page := (PageHeader.mk .btreeLeaf entries.length 0).encodeInto (List.replicate pageSize 0)
    some (splice (splice page PAGE_HEADER_LEN (slotBytes entries contentEnd))
      (contentEnd - cellsLen entries) (cellBytes entries))

def innerBytes : List (Key × Nat) → Bytes
  | [] => []
  | (key, child) :: rest => key.1 ++ leBytes 8 child ++ innerBytes rest

/-- Encodes an inner node; `none` when it has too many entries for this page size. -/
def encodeInner (entries : List (Key × Nat)) (rightmost pageSize : Nat) : Option Bytes :=
  if entries.isEmpty ∨ pageSize - PAGE_TRAILER_LEN <
      PAGE_HEADER_LEN + 8 + entries.length * INNER_ENTRY_LEN then none
  else
    let page := (PageHeader.mk .btreeInner entries.length 0).encodeInto (List.replicate pageSize 0)
    some (splice page PAGE_HEADER_LEN (leBytes 8 rightmost ++ innerBytes entries))

/-- The entries from slot `i` on; `prev` is the key of the slot before. -/
def decodeSlots (page : Bytes) (pageNo slotsEnd contentEnd : Nat) :
    Nat → Nat → Option Key → Except Error (List (Key × Cell))
  | 0, _, _ => .ok []
  | n + 1, i, prev => do
      let slot := PAGE_HEADER_LEN + i * SLOT_LEN
      let key ← okOr ((slice page slot 16).bind Key.ofBytes?) (.malformedPage pageNo "slot key")
      if prev.any (fun p => decide (key ≤ p)) then malformed pageNo "unsorted leaf keys"
      else do
        let off ← readInt page (slot + 16) 2 pageNo
        let len ← readInt page (slot + 18) 2 pageNo
        if off < slotsEnd ∨ len = 0 ∨ contentEnd < off + len then malformed pageNo "cell bounds"
        else do
          let cellBytes ← okOr (slice page off len) (.malformedPage pageNo "cell bounds")
          let cell ← decodeCell cellBytes pageNo
          let rest ← decodeSlots page pageNo slotsEnd contentEnd n (i + 1) (some key)
          .ok ((key, cell) :: rest)

/-- The entries of an inner node from entry `i` on. -/
def decodeChildren (page : Bytes) (pageNo : Nat) :
    Nat → Nat → Option Key → Except Error (List (Key × Nat))
  | 0, _, _ => .ok []
  | n + 1, i, prev => do
      let base := PAGE_HEADER_LEN + 8 + i * INNER_ENTRY_LEN
      let key ← okOr ((slice page base 16).bind Key.ofBytes?) (.malformedPage pageNo "inner key")
      if prev.any (fun p => decide (key ≤ p)) then malformed pageNo "unsorted inner keys"
      else do
        let child ← readInt page (base + 16) 8 pageNo
        if child = 0 then malformed pageNo "null child"
        else do
          let rest ← decodeChildren page pageNo n (i + 1) (some key)
          .ok ((key, child) :: rest)

/-- Decodes a page as a leaf or an inner node. -/
def decodeNode (page : Bytes) (pageNo : Nat) : Except Error (Node Key) := do
  let header ← okOr (PageHeader.decode page) (.malformedPage pageNo "page header")
  let contentEnd := page.length - PAGE_TRAILER_LEN
  let n := header.entryCount
  match header.pageType with
  | .btreeLeaf =>
      let slotsEnd := PAGE_HEADER_LEN + n * SLOT_LEN
      if contentEnd < slotsEnd then malformed pageNo "slot directory"
      else do
        let entries ← decodeSlots page pageNo slotsEnd contentEnd n 0 none
        .ok (.leaf entries)
  | .btreeInner =>
      if n = 0 then malformed pageNo "empty inner node"
      else if contentEnd < PAGE_HEADER_LEN + 8 + n * INNER_ENTRY_LEN then
        malformed pageNo "inner entries"
      else do
        let rightmost ← readInt page PAGE_HEADER_LEN 8 pageNo
        if rightmost = 0 then malformed pageNo "null rightmost child"
        else do
          let entries ← decodeChildren page pageNo n 0 none
          .ok (.inner entries rightmost)
  | _ => malformed pageNo "unexpected page type in b-tree"

/-- The record tree as an instance of the shared algorithm. -/
def spec : TreeSpec Key where
  decodeNode := decodeNode
  encodeLeaf := encodeLeaf
  encodeInner := encodeInner
  footprint := footprint
  maxInline := maxInlineValue
  chunks := Lib.chunks
  overflowLen := fun len => .ok (len % 2 ^ 32)
  overflowType := .overflow
  finish := id
  texts :=
    { tooDeep := "b-tree deeper than MAX_DEPTH"
      chainHeader := "overflow header"
      notChain := "not an overflow page"
      emptyChain := "empty overflow chain"
      emptyHalf := "leaf split produced an empty half"
      emptyLeft := "leaf split does not fit"
      leafUnfit := "leaf split does not fit"
      innerUnderflow := "inner split underflow"
      innerUnfit := "inner split does not fit"
      freshLeaf := "fresh leaf does not fit"
      freshRoot := "fresh root does not fit" }

/-! ## Lookup and insert -/

/-- Reads an overflow chain back. Every hop consumes a byte, so `remaining` hops
are enough. -/
def readOverflow (src : PageSource) : Nat → Nat → Nat → Except Error Bytes
  | 0, _, _ => .ok []
  | fuel + 1, pageNo, remaining =>
      if remaining = 0 then .ok []
      else do
        let page ← src.page pageNo
        let header ← okOr (PageHeader.decode page) (.malformedPage pageNo "overflow header")
        if header.pageType ≠ .overflow then malformed pageNo "not an overflow page"
        else
          let used := header.entryCount
          if used = 0 ∨ remaining < used ∨ usable src.pageSize < used then
            malformed pageNo "overflow payload length"
          else do
            let payload ← okOr (slice page PAGE_HEADER_LEN used)
              (.malformedPage pageNo "overflow payload length")
            if remaining - used = 0 then .ok payload
            else if header.nextPage = 0 then malformed pageNo "broken overflow chain"
            else do
              let rest ← readOverflow src fuel header.nextPage (remaining - used)
              .ok (payload ++ rest)

def resolveCell (src : PageSource) : Cell → Except Error Bytes
  | .inline v => .ok v
  | .overflow totalLen firstPage => readOverflow src totalLen firstPage totalLen

/-- Point lookup; root 0 is the empty tree. -/
def get (src : PageSource) (root : Nat) (key : Key) : Except Error (Option Bytes) :=
  if root = 0 then .ok none
  else do
    match ← spec.lookup src key MAX_DEPTH root with
    | none => .ok none
    | some (cell, _) => do
        let value ← resolveCell src cell
        .ok (some value)

/-- Inserts or replaces `key → value`; the transaction's root pointer moves when
the root does. -/
def insert (H : Xxh3) (key : Key) (value : Bytes) : TxnM Unit := do
  if MAX_RECORD_LEN < value.length then throw (.invalidArgument "value exceeds MAX_RECORD_LEN")
  else do
    let t ← TxnM.current
    let root := t.rootBtreePage
    let newRoot ← spec.upsert H root key value
    if newRoot = root then pure ()
    else TxnM.update fun t => t.setRootBtreePage newRoot

/-! ## Scan -/

/-- A frame of the iterator's stack: a node and the next child or entry in it. -/
inductive Frame where
  | inner (children : List Nat) (next : Nat)
  | leaf (entries : List (Key × Cell)) (next : Nat)

/-- What one turn of the iterator's loop does. -/
inductive Turn where
  | again (stack : List Frame)
  | item (key : Key) (value : Bytes) (stack : List Frame)
  | done

def pushPage (src : PageSource) (stack : List Frame) (pageNo : Nat) : Except Error (List Frame) :=
  if MAX_DEPTH ≤ stack.length then malformed pageNo "b-tree deeper than MAX_DEPTH"
  else do
    let page ← src.page pageNo
    match ← decodeNode page pageNo with
    | .inner entries rightmost => .ok (.inner (entries.map Prod.snd ++ [rightmost]) 0 :: stack)
    | .leaf entries => .ok (.leaf entries 0 :: stack)

/-- One turn of the loop in `Scan::advance`. -/
def turn (src : PageSource) : List Frame → Except Error Turn
  | [] => .ok .done
  | .leaf entries next :: rest =>
      match entries[next]? with
      | some (key, cell) => do
          let value ← resolveCell src cell
          .ok (.item key value (.leaf entries (next + 1) :: rest))
      | none => .ok (.again rest)
  | .inner children next :: rest =>
      match children[next]? with
      | some child => do
          let stack ← pushPage src (.inner children (next + 1) :: rest) child
          .ok (.again stack)
      | none => .ok (.again rest)

/-- Calling `next` until it returns `None`: the items, and the error that fuses the
iterator if there is one. -/
inductive Drains (src : PageSource) : List Frame → List (Key × Bytes) × Option Error → Prop where
  | done {stack : List Frame} (h : turn src stack = .ok .done) : Drains src stack ([], none)
  | fused {stack : List Frame} {e : Error} (h : turn src stack = .error e) :
      Drains src stack ([], some e)
  | again {stack stack' : List Frame} {r : List (Key × Bytes) × Option Error}
      (h : turn src stack = .ok (.again stack')) (hrest : Drains src stack' r) : Drains src stack r
  | item {stack stack' : List Frame} {key : Key} {value : Bytes}
      {r : List (Key × Bytes) × Option Error} (h : turn src stack = .ok (.item key value stack'))
      (hrest : Drains src stack' r) : Drains src stack ((key, value) :: r.1, r.2)

/-- What `scan` yields from a root. -/
inductive Yields (src : PageSource) (root : Nat) : List (Key × Bytes) × Option Error → Prop where
  | empty (h : root = 0) : Yields src root ([], none)
  | fused (h : root ≠ 0) {e : Error} (hpush : pushPage src [] root = .error e) :
      Yields src root ([], some e)
  | drains (h : root ≠ 0) {stack : List Frame} {r : List (Key × Bytes) × Option Error}
      (hpush : pushPage src [] root = .ok stack) (hr : Drains src stack r) : Yields src root r

/-- Items up to the first error. -/
def andThen (a b : List (Key × Bytes) × Option Error) : List (Key × Bytes) × Option Error :=
  match a.2 with
  | some e => (a.1, some e)
  | none => (a.1 ++ b.1, b.2)

/-- The entries of a leaf, resolved in order. -/
def visitEntries (src : PageSource) : List (Key × Cell) → List (Key × Bytes) × Option Error
  | [] => ([], none)
  | (key, cell) :: rest =>
      match resolveCell src cell with
      | .error e => ([], some e)
      | .ok value => andThen ([(key, value)], none) (visitEntries src rest)

/-- The items below a page, by recursion on the depth that is left. -/
def visit (src : PageSource) : Nat → Nat → List (Key × Bytes) × Option Error
  | 0, pageNo => ([], some (.malformedPage pageNo "b-tree deeper than MAX_DEPTH"))
  | fuel + 1, pageNo =>
      match src.page pageNo >>= fun page => decodeNode page pageNo with
      | .error e => ([], some e)
      | .ok (.leaf entries) => visitEntries src entries
      | .ok (.inner entries rightmost) =>
          ((entries.map Prod.snd ++ [rightmost]).map (visit src fuel)).foldr andThen ([], none)

/-- Every entry in key order. -/
def scan (src : PageSource) (root : Nat) : List (Key × Bytes) × Option Error :=
  if root = 0 then ([], none) else visit src MAX_DEPTH root

end Btree

end EmbedMind
