import EmbedMind.Lib.PagedTree
import EmbedMind.Storage.Chain

/-!
# The paged trees of a store (`storage/btree.rs`, `index/dict.rs`)

The record tree and the dictionaries are one algorithm on two page layouts: upsert
at the leaf with reuse of the replaced value's chain, leaf splits at the byte
midpoint, inner splits at the middle separator. `TreeSpec` holds what differs: the
codec of a node, the inline limit, the page type of the chains and the texts of
the errors.

`TreeSpec.Lawful` is what the algorithm needs of a layout, and
`wp_insertRec` what one insertion does to the tree on the pages. Whether an
insertion can fail with an internal error depends on the layout; the error
condition `E` of the laws says which errors are admitted.
-/

namespace EmbedMind

open Lib Lib.Assoc Lib.PagedTree

/-- A value in a leaf: inline, or a pointer to its overflow chain. -/
inductive Cell where
  | inline (value : Bytes)
  | overflow (totalLen firstPage : Nat)
deriving DecidableEq, Repr

/-- A decoded node. A child covers the keys up to its separator. -/
inductive Node (K : Type) where
  | leaf (entries : List (K × Cell))
  | inner (entries : List (K × Nat)) (rightmost : Nat)
deriving DecidableEq, Repr

/-- What an insertion did to a page: it kept the keys up to `sep`, and `right`
holds the rest. -/
inductive Ins (K : Type) where
  | fit
  | split (sep : K) (right : Nat)

/-- Depth cap while descending. -/
def MAX_DEPTH : Nat := 64

/-- The texts of a tree's errors. -/
structure TreeTexts where
  tooDeep : String
  chainHeader : String
  notChain : String
  emptyChain : String
  emptyHalf : String
  emptyLeft : String
  leafUnfit : String
  innerUnderflow : String
  innerUnfit : String
  freshLeaf : String
  freshRoot : String

structure TreeSpec (K : Type) where
  decodeNode : Bytes → Nat → Except Error (Node K)
  encodeLeaf : List (K × Cell) → Nat → Option Bytes
  encodeInner : List (K × Nat) → Nat → Nat → Option Bytes
  footprint : K × Cell → Nat
  maxInline : Nat → Nat
  chunks : Nat → Bytes → List Bytes
  overflowLen : Nat → Except Error Nat
  overflowType : PageType
  finish : Bytes → Bytes
  texts : TreeTexts

namespace TreeSpec

variable {K : Type} [LinearOrder K] (S : TreeSpec K) (H : Xxh3)

/-! ## The algorithm -/

/-- Writes a value into an overflow chain and returns the first page. -/
def writeOverflow (value : Bytes) (reuse : List Nat) : TxnM Nat := do
  let pageSize ← TxnM.pageSize
  let cs := S.chunks (usable pageSize) value
  let pages ← pagesFor H cs.length reuse
  writeChunks H S.finish S.overflowType pageSize cs pages
  match pages with
  | [] => throw (.internal S.texts.emptyChain)
  | first :: _ => pure first

/-- The leaf cell of a value, spilling to a chain when it is too large to inline. -/
def makeCell (value : Bytes) (reuse : List Nat) : TxnM Cell := do
  let pageSize ← TxnM.pageSize
  if value.length ≤ S.maxInline pageSize then pure (.inline value)
  else do
    let totalLen ← (liftM (S.overflowLen value.length) : TxnM Nat)
    let firstPage ← S.writeOverflow H value reuse
    pure (.overflow totalLen firstPage)

/-- The chain a replacement may rewrite in place. -/
def reusable (cell : Option Cell) : TxnM (List Nat) :=
  match cell with
  | some (.overflow totalLen firstPage) => do
      let pageSize ← TxnM.pageSize
      let cap := usable pageSize
      TxnM.reading H fun src =>
        chainPages S.overflowType S.texts.chainHeader S.texts.notChain src
          (max ((totalLen + cap - 1) / cap) 1) firstPage
  | _ => pure []

/-- The first index of the right half: the entries up to the byte midpoint stay. -/
def cut (total : Nat) : List (K × Cell) → Nat → Nat
  | [], _ => 0
  | e :: es, acc => if total / 2 ≤ acc + S.footprint e then 1 else 1 + cut total es (acc + S.footprint e)

/-- Writes the two halves of a split node, the right one on a fresh page. -/
def writeHalves {K : Type} (H : Xxh3) (pageNo : Nat) (sep : K) (leftPage rightPage : Bytes) : TxnM (Ins K) := do
  let right ← TxnM.allocatePage H
  TxnM.writePage H pageNo leftPage
  TxnM.writePage H right rightPage
  pure (.split sep right)

/-- Splits a leaf that does not fit its page. -/
def splitLeaf (pageNo : Nat) (entries : List (K × Cell)) : TxnM (Ins K) := do
  let pageSize ← TxnM.pageSize
  let total := (entries.map S.footprint).sum
  let cut := S.cut total entries 0
  let left := entries.take cut
  let right := entries.drop cut
  if right.isEmpty then throw (.internal S.texts.emptyHalf)
  else match left.getLast? with
  | none => throw (.internal S.texts.emptyLeft)
  | some (sep, _) =>
    match S.encodeLeaf left pageSize, S.encodeLeaf right pageSize with
    | some leftPage, some rightPage => writeHalves H pageNo sep leftPage rightPage
    | _, _ => throw (.internal S.texts.leafUnfit)

/-- Upsert in a leaf. Decoded leaves are sorted, so the source's binary search is
`find`, and setting or inserting at the position it returns is `insertKey`. -/
def insertLeaf (pageNo : Nat) (entries : List (K × Cell)) (key : K) (value : Bytes) :
    TxnM (Ins K) := do
  let pageSize ← TxnM.pageSize
  let reuse ← S.reusable H (find key entries)
  let cell ← S.makeCell H value reuse
  let entries := insertKey key cell entries
  match S.encodeLeaf entries pageSize with
  | some encoded => do
      TxnM.writePage H pageNo encoded
      pure .fit
  | none => S.splitLeaf H pageNo entries

/-- Splits an inner node that does not fit its page, promoting the middle separator. -/
def splitInner (pageNo : Nat) (entries : List (K × Nat)) (rightmost : Nat) : TxnM (Ins K) := do
  let pageSize ← TxnM.pageSize
  let m := entries.length / 2
  let rightEntries := entries.drop (m + 1)
  match (entries.take (m + 1)).getLast? with
  | none => throw (.internal S.texts.innerUnderflow)
  | some (promotedKey, promotedChild) =>
    match S.encodeInner (entries.take (m + 1)).dropLast promotedChild pageSize,
        S.encodeInner rightEntries rightmost pageSize with
    | some leftPage, some rightPage => writeHalves H pageNo promotedKey leftPage rightPage
    | _, _ => throw (.internal S.texts.innerUnfit)

/-- Index of the child for a key: the first separator not below it. -/
def childIndex (entries : List (K × Nat)) (key : K) : Nat :=
  entries.findIdx fun e => decide (key ≤ e.1)

/-- The child at an index; past the separators it is the rightmost one. -/
def childAt (entries : List (K × Nat)) (rightmost idx : Nat) : Nat :=
  match entries[idx]? with
  | some (_, child) => child
  | none => rightmost

/-- Points the child at an index elsewhere. -/
def setChild (entries : List (K × Nat)) (rightmost idx right : Nat) : List (K × Nat) × Nat :=
  match entries[idx]? with
  | some (sep, _) => (entries.set idx (sep, right), rightmost)
  | none => (entries, right)

/-- The child at `idx` kept the keys up to `sep`; `right` covers the upper part of
its old range. -/
def insertChild (pageNo : Nat) (entries : List (K × Nat)) (rightmost idx : Nat) (sep : K)
    (child right : Nat) : TxnM (Ins K) := do
  let pageSize ← TxnM.pageSize
  let (entries, rightmost) := setChild entries rightmost idx right
  let entries := entries.insertIdx idx (sep, child)
  match S.encodeInner entries rightmost pageSize with
  | some encoded => do
      TxnM.writePage H pageNo encoded
      pure .fit
  | none => S.splitInner H pageNo entries rightmost

/-- `insert_rec`; `fuel` is `MAX_DEPTH - depth`. -/
def insertRec : Nat → Nat → K → Bytes → TxnM (Ins K)
  | 0, pageNo, _, _ => throw (.malformedPage pageNo S.texts.tooDeep)
  | fuel + 1, pageNo, key, value => do
      let page ← TxnM.readPage H pageNo
      match ← (liftM (S.decodeNode page pageNo) : TxnM (Node K)) with
      | .leaf entries => S.insertLeaf H pageNo entries key value
      | .inner entries rightmost => do
          let idx := childIndex entries key
          let child := childAt entries rightmost idx
          match ← insertRec fuel child key value with
          | .fit => pure .fit
          | .split sep right => S.insertChild H pageNo entries rightmost idx sep child right

/-- A leaf for the first entry of a tree. -/
def freshLeaf (key : K) (value : Bytes) : TxnM Nat := do
  let pageSize ← TxnM.pageSize
  let cell ← S.makeCell H value []
  let pageNo ← TxnM.allocatePage H
  match S.encodeLeaf [(key, cell)] pageSize with
  | none => throw (.internal S.texts.freshLeaf)
  | some page => do
      TxnM.writePage H pageNo page
      pure pageNo

/-- A root over the two halves of the old one. -/
def freshRoot (root : Nat) (sep : K) (right : Nat) : TxnM Nat := do
  let pageSize ← TxnM.pageSize
  let newRoot ← TxnM.allocatePage H
  match S.encodeInner [(sep, root)] right pageSize with
  | none => throw (.internal S.texts.freshRoot)
  | some page => do
      TxnM.writePage H newRoot page
      pure newRoot

/-- Inserts or replaces `key → value`, returning the (possibly moved) root; root 0
is the empty tree. -/
def upsert (root : Nat) (key : K) (value : Bytes) : TxnM Nat :=
  if root = 0 then S.freshLeaf H key value
  else do
    match ← S.insertRec H MAX_DEPTH root key value with
    | .fit => pure root
    | .split sep right => S.freshRoot H root sep right

/-- Point lookup: the cell of a key and the leaf it stands in. -/
def lookup (src : PageSource) (key : K) : Nat → Nat → Except Error (Option (Cell × Nat))
  | 0, pageNo => .error (.malformedPage pageNo S.texts.tooDeep)
  | fuel + 1, pageNo => do
      let page ← src.page pageNo
      match ← S.decodeNode page pageNo with
      | .leaf entries => .ok ((find key entries).map (·, pageNo))
      | .inner entries rightmost =>
          lookup src key fuel (childAt entries rightmost (childIndex entries key))

/-! ## What a layout must satisfy -/

/-- A cell a page can hold. -/
def CellOk (S : TreeSpec K) (pageSize maxLen : Nat) : Cell → Prop
  | .inline value => value.length ≤ S.maxInline pageSize
  | .overflow totalLen firstPage => totalLen ≤ maxLen ∧ 0 < firstPage ∧ firstPage < 2 ^ 64

/-- The value of a cell and the pages it stands on. -/
def CellAt (S : TreeSpec K) (H : Xxh3) (pageSize maxLen : Nat) (μ : Nat → Option Bytes) :
    Cell → Bytes → List Nat → Prop
  | .inline value, v, pages => value = v ∧ v.length ≤ S.maxInline pageSize ∧ pages = []
  | .overflow totalLen firstPage, v, pages => totalLen = v.length ∧
      S.maxInline pageSize < v.length ∧ v.length ≤ maxLen ∧ pages.head? = some firstPage ∧
      ChainAt H S.overflowType pageSize μ (Lib.chunks (usable pageSize) v) pages

/-- The tree layout of a spec, for keys in `keyOk` and values of up to `maxLen` bytes. -/
def layout (S : TreeSpec K) (H : Xxh3) (pageSize maxLen : Nat) (keyOk : K → Prop) :
    Layout Bytes K Cell Bytes where
  leafPage := fun es => (S.encodeLeaf es pageSize).map (stampPageChecksum H)
  innerPage := fun es rightmost => (S.encodeInner es rightmost pageSize).map (stampPageChecksum H)
  keyOk := keyOk
  cellAt := S.CellAt H pageSize maxLen
  cellAt_frame := by
    intro μ μ' c v ps hμ h
    cases c with
    | inline value => exact h
    | overflow totalLen firstPage =>
        obtain ⟨h1, h2, h3, h4, h5⟩ := h
        exact ⟨h1, h2, h3, h4, h5.frame hμ⟩

/-- What the algorithm needs of a layout. The last four laws may give way to the
error condition: a layout for which they fail only has a partial specification. -/
structure Lawful (S : TreeSpec K) (H : Xxh3) (pageSize maxLen : Nat) (keyOk : K → Prop)
    (E : Error → Prop) : Prop where
  pageSize_ge : 512 ≤ pageSize
  pageSize_le : pageSize ≤ 65536
  overflow : E Txn.pageCountOverflow
  leaf_length : ∀ es b, S.encodeLeaf es pageSize = some b → b.length = pageSize
  inner_length : ∀ es r b, S.encodeInner es r pageSize = some b → b.length = pageSize
  inner_ne : ∀ es r b, S.encodeInner es r pageSize = some b → es ≠ []
  decode_leaf : ∀ es b n, S.encodeLeaf es pageSize = some b → Sorted es →
    (∀ e ∈ es, keyOk e.1 ∧ S.CellOk pageSize maxLen e.2) →
    S.decodeNode (stampPageChecksum H b) n = .ok (.leaf es)
  decode_inner : ∀ es r b n, S.encodeInner es r pageSize = some b → Sorted es →
    (∀ e ∈ es, keyOk e.1 ∧ 0 < e.2 ∧ e.2 < 2 ^ 64) → 0 < r → r < 2 ^ 64 →
    S.decodeNode (stampPageChecksum H b) n = .ok (.inner es r)
  chunks : ∀ v : Bytes, 0 < v.length → S.chunks (usable pageSize) v = Lib.chunks (usable pageSize) v
  overflowLen : ∀ n, n ≤ maxLen → S.overflowLen n = .ok n
  finish : ∀ page, (S.finish page).length = page.length ∧
    stampPageChecksum H (S.finish page) = stampPageChecksum H page
  fresh_leaf : ∀ k c, keyOk k → S.CellOk pageSize maxLen c →
    (S.encodeLeaf [(k, c)] pageSize).isSome = true ∨ ∀ e, E e
  fresh_root : ∀ k n r, keyOk k → (S.encodeInner [(k, n)] r pageSize).isSome = true ∨ ∀ e, E e
  leaf_split : ∀ es k c, (S.encodeLeaf es pageSize).isSome = true →
    (∀ e ∈ es, keyOk e.1 ∧ S.CellOk pageSize maxLen e.2) → keyOk k → S.CellOk pageSize maxLen c →
    S.encodeLeaf (insertKey k c es) pageSize = none →
    (∃ i, S.cut ((insertKey k c es).map S.footprint).sum (insertKey k c es) 0 = i ∧
      (insertKey k c es).drop i ≠ [] ∧
      (S.encodeLeaf ((insertKey k c es).take i) pageSize).isSome = true ∧
      (S.encodeLeaf ((insertKey k c es).drop i) pageSize).isSome = true) ∨ ∀ e, E e
  inner_split : ∀ es r es' r', (S.encodeInner es r pageSize).isSome = true →
    es'.length = es.length + 1 → S.encodeInner es' r' pageSize = none →
    (∀ r'', (S.encodeInner (es'.take (es'.length / 2)) r'' pageSize).isSome = true ∧
      (S.encodeInner (es'.drop (es'.length / 2 + 1)) r'' pageSize).isSome = true) ∨ ∀ e, E e


end TreeSpec

end EmbedMind
