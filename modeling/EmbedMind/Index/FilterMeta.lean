import EmbedMind.Index.Tokenize
import EmbedMind.Storage.TypedPage
import EmbedMind.Ulid

/-!
# The filter-meta sidecar (`index/filter_meta.rs`, `docs/FORMAT.md` §13)

One small entry per write of a record: its liveness flags, the project and the agent as
numbers of a symbol table, and the length of its text. Entries and symbols stand on two
chains of pages, newest page first. A query reads the whole sidecar into a `Table` and asks
it about every candidate; what the table cannot tell is looked up in the record.
-/

namespace EmbedMind

open Lib Lib.Assoc

namespace FilterMeta

/-- First format version whose files carry the sidecar. -/
def MIN_FORMAT_VERSION : Nat := 7

def FLAG_TOMBSTONE : UInt8 := 1
def FLAG_SUPERSEDED : UInt8 := 2
def FLAG_HAS_METADATA : UInt8 := 4
def FLAG_SCOPE_OVERFLOW : UInt8 := 8

/-- The symbol of the empty string. -/
def SYM_NONE : Nat := 0

/-- Id, flags, project symbol, agent symbol and text length. -/
def ENTRY_LEN : Nat := 16 + 1 + 4 + 4 + 4

/-- The bytes of a symbol in front of its string. -/
def SYMBOL_PREFIX_LEN : Nat := 6

def malformed {α : Type} (pageNo : Nat) (what : String) : Except Error α :=
  .error (.malformedPage pageNo what)

structure Entry where
  flags : UInt8
  projectSym : Nat
  agentSym : Nat
  docLen : Nat
deriving DecidableEq, Repr

/-- A resolved string constraint of a query. -/
inductive Want where
  | any
  | sym (s : Nat)
  | absent
deriving DecidableEq, Repr

/-- What a query needs to decide a candidate. -/
structure QueryNeeds where
  project : Want
  agent : Want
  hasMetadataFilters : Bool
deriving DecidableEq, Repr

inductive RejectReason where
  | dead
  | outOfScope
  | filteredOut
deriving DecidableEq, Repr

inductive Decision where
  | accept
  | reject (reason : RejectReason)
  | needRecord
deriving DecidableEq, Repr

/-- The sidecar in memory. -/
structure Table where
  entries : List (Ulid × Entry) := []
  symbols : List (Bytes × Nat) := []

/-! ## Deciding a candidate -/

namespace Table

def get (table : Table) (id : Ulid) : Option Entry := find id table.entries

def resolve (table : Table) (s : String) : Option Nat := find (utf8 s) table.symbols

/-- The symbol a string must have. -/
def wantSym (table : Table) (s : String) : Want :=
  match table.resolve s with
  | some sym => .sym sym
  | none => .absent

/-- The constraint of a project scope; no record has the empty project. -/
def wantProject (table : Table) : Option String → Want
  | none => .any
  | some p => if p = "" then .absent else table.wantSym p

/-- The constraint of an agent filter; the empty agent is a symbol of its own. -/
def wantAgent (table : Table) : Option String → Want
  | none => .any
  | some a => if a = "" then .sym SYM_NONE else table.wantSym a

/-- The loop over the project and the agent. -/
def decideScope (scopeOverflow : Bool) : List (Want × Nat) → Option Decision
  | [] => none
  | (.any, _) :: rest => decideScope scopeOverflow rest
  | (.absent, _) :: _ => some (if scopeOverflow then .needRecord else .reject .outOfScope)
  | (.sym s, sym) :: rest =>
      if scopeOverflow then some .needRecord
      else if sym ≠ s then some (.reject .outOfScope)
      else decideScope scopeOverflow rest

def decide (table : Table) (id : Ulid) (needs : QueryNeeds) : Decision :=
  match table.get id with
  | none => .needRecord
  | some e =>
      if e.flags &&& (FLAG_TOMBSTONE ||| FLAG_SUPERSEDED) ≠ 0 then .reject .dead
      else
        match decideScope (e.flags &&& FLAG_SCOPE_OVERFLOW != 0)
            [(needs.project, e.projectSym), (needs.agent, e.agentSym)] with
        | some decision => decision
        | none =>
            if needs.hasMetadataFilters then
              if e.flags &&& FLAG_HAS_METADATA = 0 then .reject .filteredOut else .needRecord
            else .accept

end Table

/-! ## Pages -/

namespace Entry

/-- An entry as it is stored, behind its id. -/
def encode (id : Ulid) (e : Entry) : Bytes :=
  id.toBytes ++ e.flags :: (leBytes 4 e.projectSym ++ leBytes 4 e.agentSym ++ leBytes 4 e.docLen)

end Entry

/-- Entries that fit a page. -/
def entryCapacity (pageSize : Nat) : Nat :=
  (pageSize - (PAGE_HEADER_LEN + PAGE_TRAILER_LEN)) / ENTRY_LEN

/-- The bytes of one entry, taken apart. -/
def decodeEntry (bytes : Bytes) (pageNo : Nat) : Except Error (Ulid × Entry) := do
  let idBytes ← okOr (slice bytes 0 16) (.malformedPage pageNo "filter-meta id")
  let flags := bytes.getD 16 0
  let projectSym ← okOr (readLE bytes 17 4) (.malformedPage pageNo "project_sym")
  let agentSym ← okOr (readLE bytes 21 4) (.malformedPage pageNo "agent_sym")
  let docLen ← okOr (readLE bytes 25 4) (.malformedPage pageNo "doc_len")
  .ok (Ulid.fromBytes idBytes, ⟨flags, projectSym, agentSym, docLen⟩)

/-- `count` entries from number `i` on. -/
def decodeEntryRun (page : Bytes) (pageNo : Nat) : Nat → Nat → Except Error (List (Ulid × Entry))
  | 0, _ => .ok []
  | count + 1, i => do
      let bytes ← okOr (slice page (PAGE_HEADER_LEN + i * ENTRY_LEN) ENTRY_LEN)
        (.malformedPage pageNo "filter-meta entry bounds")
      let entry ← decodeEntry bytes pageNo
      let rest ← decodeEntryRun page pageNo count (i + 1)
      .ok (entry :: rest)

/-- The entries of a page, oldest first. -/
def decodeEntries (page : Bytes) (pageNo : Nat) : Except Error (List (Ulid × Entry)) := do
  let header ← okOr (PageHeader.decode page) (.malformedPage pageNo "page header")
  if header.pageType ≠ .filterMeta then malformed pageNo "not a FILTER_META page"
  else if entryCapacity page.length < header.entryCount then
    malformed pageNo "filter-meta entry count exceeds page"
  else decodeEntryRun page pageNo header.entryCount 0

/-- A symbol as it is stored. -/
def encodeSymbol (sym : Nat × String) : Bytes :=
  leBytes 4 sym.1 ++ leBytes 2 (utf8 sym.2).length ++ utf8 sym.2

/-- `count` symbols from an offset on. -/
def decodeSymbolRun (page : Bytes) (pageNo bodyEnd : Nat) :
    Nat → Nat → Except Error (List (Nat × String))
  | 0, _ => .ok []
  | count + 1, off => do
      let sym ← okOr (readLE page off 4) (.malformedPage pageNo "symbol id")
      if sym = SYM_NONE then malformed pageNo "reserved symbol id 0"
      else do
        let len ← okOr (readLE page (off + 4) 2) (.malformedPage pageNo "symbol length")
        let off := off + SYMBOL_PREFIX_LEN
        if bodyEnd - off < len then malformed pageNo "symbol length exceeds page"
        else do
          let s ← okOr ((slice page off len).bind ofUtf8?) (.malformedPage pageNo "symbol utf-8")
          let rest ← decodeSymbolRun page pageNo bodyEnd count (off + len)
          .ok ((sym, s) :: rest)

/-- The symbols of a page. -/
def decodeSymbols (page : Bytes) (pageNo : Nat) : Except Error (List (Nat × String)) := do
  let header ← okOr (PageHeader.decode page) (.malformedPage pageNo "page header")
  if header.pageType ≠ .filterSymbols then malformed pageNo "not a FILTER_SYMBOLS page"
  else
    let bodyEnd := page.length - PAGE_TRAILER_LEN
    if (bodyEnd - PAGE_HEADER_LEN) / SYMBOL_PREFIX_LEN < header.entryCount then
      malformed pageNo "filter-symbol count exceeds page"
    else decodeSymbolRun page pageNo bodyEnd header.entryCount PAGE_HEADER_LEN

/-! ## Loading -/

section Load

variable (src : PageSource)

/-- More page numbers than there are. -/
def WALK_FUEL : Nat := 2 ^ 64 + 1

/-- The pages of a chain from a page on; `seen` are the ones walked before. -/
def walkFrom (expect : PageType) : Nat → List Nat → Nat → Except Error (List Nat)
  | 0, _, pageNo => malformed pageNo "filter-meta chain cycle"
  | fuel + 1, seen, pageNo =>
      if pageNo = 0 then .ok []
      else if pageNo ∈ seen then malformed pageNo "filter-meta chain cycle"
      else do
        let page ← src.page pageNo
        let header ← okOr (PageHeader.decode page) (.malformedPage pageNo "page header")
        if header.pageType ≠ expect then malformed pageNo "wrong page type in filter-meta chain"
        else do
          let rest ← walkFrom expect fuel (pageNo :: seen) header.nextPage
          .ok (pageNo :: rest)

/-- A chain's page numbers, head first. -/
def walkChain (head : Nat) (expect : PageType) : Except Error (List Nat) :=
  walkFrom src expect WALK_FUEL [] head

/-- One more symbol; neither its number nor its string may be there. -/
def addSymbol (symbols : List (Bytes × Nat)) (pageNo : Nat) (sym : Nat × String) :
    Except Error (List (Bytes × Nat)) :=
  if sym.1 ∈ symbols.map Prod.snd ∨ (find (utf8 sym.2) symbols).isSome then
    malformed pageNo "duplicate filter symbol"
  else .ok (insertKey (utf8 sym.2) sym.1 symbols)

def loadSymbols (symbols : List (Bytes × Nat)) (pageNo : Nat) : Except Error (List (Bytes × Nat)) := do
  let page ← src.page pageNo
  let syms ← decodeSymbols page pageNo
  syms.foldlM (fun symbols sym => addSymbol symbols pageNo sym) symbols

/-- `entry(id).or_insert(e)`. -/
def orInsert (entries : List (Ulid × Entry)) (e : Ulid × Entry) : List (Ulid × Entry) :=
  if (find e.1 entries).isSome then entries else insertKey e.1 e.2 entries

/-- The entries of one more page, newest first: the first one seen of an id wins. -/
def loadEntries (entries : List (Ulid × Entry)) (pageNo : Nat) : Except Error (List (Ulid × Entry)) := do
  let page ← src.page pageNo
  let es ← decodeEntries page pageNo
  .ok (es.reverse.foldl orInsert entries)

/-- The whole sidecar. -/
def load (metaRoot symbolsRoot : Nat) : Except Error Table := do
  let symbolPages ← walkChain src symbolsRoot .filterSymbols
  let symbols ← symbolPages.foldlM (loadSymbols src) []
  let metaPages ← walkChain src metaRoot .filterMeta
  let entries ← metaPages.foldlM (loadEntries src) []
  .ok ⟨entries, symbols⟩

end Load

/-! ## Writing -/

/-- One write of the sidecar: what it mirrors of a record. -/
structure Update where
  id : Ulid
  tombstone : Bool
  superseded : Bool
  hasMetadata : Bool
  project : Option String
  agent : String
  docLen : Nat

namespace Update

def flags (u : Update) : UInt8 :=
  (if u.tombstone then FLAG_TOMBSTONE else 0) ||| (if u.superseded then FLAG_SUPERSEDED else 0) |||
    (if u.hasMetadata then FLAG_HAS_METADATA else 0)

/-- The entry of an update, for the symbols of its project and its agent. -/
def entry (u : Update) (projectSym agentSym : Option Nat) : Entry :=
  match projectSym, agentSym with
  | some p, some a => ⟨u.flags, p, a, u.docLen⟩
  | _, _ => ⟨u.flags ||| FLAG_SCOPE_OVERFLOW, SYM_NONE, SYM_NONE, u.docLen⟩

end Update

section Write

variable (H : Xxh3)

/-- A fresh page in front of a chain, with one item. -/
def prependPage (pageType : PageType) (head : Nat) (item : Bytes) : TxnM Nat := do
  let pageNo ← TxnM.allocatePage H
  let pageSize ← TxnM.pageSize
  let page := (PageHeader.mk pageType 1 head).encodeInto (List.replicate pageSize 0)
  TxnM.writePage H pageNo (splice page PAGE_HEADER_LEN item)
  pure pageNo

/-- The largest number in use, and one more. -/
def freshSym (symbols : List (Bytes × Nat)) : Option Nat :=
  let last := (symbols.map Prod.snd).foldl max SYM_NONE
  if last + 1 < 2 ^ 32 then some (last + 1) else none

/-- A symbol at the end of the head page, if it has room, or on a fresh page. -/
def appendSymbol (sym : Nat × String) : TxnM Unit := do
  let encoded := encodeSymbol sym
  let txn ← TxnM.current
  let head := txn.filterSymbolsPage
  let fits ← (do
    if head = 0 then pure none
    else do
      let page ← TxnM.readPage H head
      let existing ← (liftM (decodeSymbols page head) : TxnM (List (Nat × String)))
      let used := (existing.map fun s => SYMBOL_PREFIX_LEN + (utf8 s.2).length).sum
      if PAGE_HEADER_LEN + used + encoded.length ≤ txn.pageSize - PAGE_TRAILER_LEN then
        pure (some (splice page (PAGE_HEADER_LEN + used) encoded, existing.length))
      else pure none : TxnM (Option (Bytes × Nat)))
  match fits with
  | some (page, count) => do
      let header ← (liftM (okOr (PageHeader.decode page) (.malformedPage head "page header")) : TxnM PageHeader)
      TxnM.writePage H head ((PageHeader.mk .filterSymbols (count + 1) header.nextPage).encodeInto page)
  | none => do
      let pageNo ← prependPage H .filterSymbols head encoded
      TxnM.update fun t => t.setFilterSymbolsPage pageNo

/-- The symbol of a string, a new one if it has none yet; none for a string that cannot have one. -/
def intern (symbols : List (Bytes × Nat)) (s : String) : TxnM (Option Nat × List (Bytes × Nat)) := do
  if s = "" then pure (some SYM_NONE, symbols)
  else
    match find (utf8 s) symbols with
    | some sym => pure (some sym, symbols)
    | none => do
        let pageSize ← TxnM.pageSize
        let bodyCap := pageSize - PAGE_HEADER_LEN - PAGE_TRAILER_LEN
        if 2 ^ 16 - 1 < (utf8 s).length ∨ bodyCap < SYMBOL_PREFIX_LEN + (utf8 s).length then
          pure (none, symbols)
        else
          match freshSym symbols with
          | none => pure (none, symbols)
          | some sym => do
              appendSymbol H (sym, s)
              pure (some sym, insertKey (utf8 s) sym symbols)

/-- An entry at the end of the head page, if it has room, or on a fresh page. -/
def appendEntry (bytes : Bytes) : TxnM Unit := do
  let txn ← TxnM.current
  let head := txn.filterMetaPage
  let fits ← (do
    if head = 0 then pure none
    else do
      let page ← TxnM.readPage H head
      let header ← (liftM (okOr (PageHeader.decode page) (.malformedPage head "page header")) : TxnM PageHeader)
      if header.pageType ≠ .filterMeta then (liftM (malformed head "not a FILTER_META page" : Except Error _))
      else if header.entryCount < entryCapacity txn.pageSize then pure (some (page, header))
      else pure none : TxnM (Option (Bytes × PageHeader)))
  match fits with
  | some (page, header) =>
      let page := splice page (PAGE_HEADER_LEN + header.entryCount * ENTRY_LEN) bytes
      TxnM.writePage H head
        ((PageHeader.mk .filterMeta (header.entryCount + 1) header.nextPage).encodeInto page)
  | none => do
      let pageNo ← prependPage H .filterMeta head bytes
      TxnM.update fun t => t.setFilterMetaPage pageNo

/-- The symbols of a page, as a writer reads them. -/
def readSymbols (src : PageSource) (symbols : List (Bytes × Nat)) (pageNo : Nat) :
    Except Error (List (Bytes × Nat)) := do
  let page ← src.page pageNo
  let syms ← decodeSymbols page pageNo
  .ok (syms.foldl (fun symbols sym => insertKey (utf8 sym.2) sym.1 symbols) symbols)

/-- One update; the symbols come back with those it interned. -/
def recordUpdate (symbols : List (Bytes × Nat)) (u : Update) : TxnM (List (Bytes × Nat)) := do
  let (projectSym, symbols) ← intern H symbols (u.project.getD "")
  let (agentSym, symbols) ← intern H symbols u.agent
  appendEntry H ((u.entry projectSym agentSym).encode u.id)
  pure symbols

/-- One entry per update, in the transaction of the records. -/
def recordUpdates (updates : List Update) : TxnM Unit := do
  let txn ← TxnM.current
  if txn.formatVersion < MIN_FORMAT_VERSION ∨ updates.isEmpty then pure ()
  else do
    let symbols ← (TxnM.reading H fun src => do
      let pages ← walkChain src txn.filterSymbolsPage .filterSymbols
      pages.foldlM (readSymbols src) [] : TxnM (List (Bytes × Nat)))
    let _ ← updates.foldlM (recordUpdate H) symbols
    pure ()

end Write

end FilterMeta

end EmbedMind
