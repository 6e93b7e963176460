import EmbedMind.Lib.Chunks
import EmbedMind.Index.Dict
import EmbedMind.Ulid

/-!
# Postings and their five layouts (`index/fts.rs`, `docs/FORMAT.md` §11)

A term's postings are `(record id, term frequency)` pairs, sorted by id. The body of
a postings list is laid out by the file's format version: fixed-width entries, delta
varints, and delta varints or frames of reference under a skip index. A reader checks
everything it reads; the texts of its errors are the source's.

Integers are natural numbers; an id is below `2 ^ 128` and a frequency below `2 ^ 32`.
-/

namespace EmbedMind

open Lib Lib.Assoc

namespace Fts

/-- A posting: a document and how often the term occurs in it. -/
abbrev Posting := Ulid × Nat

def POSTING_LEN : Nat := 20
def DELTA_VARINT_MIN_FORMAT_VERSION : Nat := 4
def SKIP_MIN_FORMAT_VERSION : Nat := 5
def SKIP_BOUND_MIN_FORMAT_VERSION : Nat := 6
def FRAME_OF_REFERENCE_MIN_FORMAT_VERSION : Nat := 8
def SKIP_BLOCK_SIZE : Nat := 128
def SKIP_MIN_DOC_FREQ : Nat := 4 * SKIP_BLOCK_SIZE
def SKIP_ENTRY_LEN_V5 : Nat := 24
def SKIP_ENTRY_LEN_V6 : Nat := 40
def MAX_VARINT_LEN : Nat := 19

/-- The shape of a skip entry. -/
inductive SkipEntry where
  | v5
  | v6
deriving DecidableEq, Repr

def SkipEntry.len : SkipEntry → Nat
  | .v5 => SKIP_ENTRY_LEN_V5
  | .v6 => SKIP_ENTRY_LEN_V6

/-- Offset of the byte offset and the frequency bound within an entry. -/
def SkipEntry.tailOff : SkipEntry → Nat
  | .v5 => 16
  | .v6 => 32

inductive PostingsLayout where
  | fixedWidth
  | deltaVarint
  | deltaVarintSkip (entry : SkipEntry)
  | frameOfReference
deriving DecidableEq, Repr

def PostingsLayout.forFormatVersion (version : Nat) : PostingsLayout :=
  if FRAME_OF_REFERENCE_MIN_FORMAT_VERSION ≤ version then .frameOfReference
  else if SKIP_BOUND_MIN_FORMAT_VERSION ≤ version then .deltaVarintSkip .v6
  else if SKIP_MIN_FORMAT_VERSION ≤ version then .deltaVarintSkip .v5
  else if DELTA_VARINT_MIN_FORMAT_VERSION ≤ version then .deltaVarint
  else .fixedWidth

def malformed {α : Type} (pageNo : Nat) (what : String) : Except Error α :=
  .error (.malformedPage pageNo what)

/-! ## Varints -/

/-- The groups of seven bits of `v`, lowest first; a u128 has at most `MAX_VARINT_LEN`. -/
def putVarintUpTo : Nat → Nat → Bytes
  | 0, _ => []
  | fuel + 1, v =>
      if v / 128 = 0 then [UInt8.ofNat (v % 128)]
      else UInt8.ofNat (v % 128 + 128) :: putVarintUpTo fuel (v / 128)

def putVarint (v : Nat) : Bytes := putVarintUpTo MAX_VARINT_LEN v

/-- Byte `i` of a varint that started at `off`, with `value` read so far; `left` more
bytes are allowed. -/
def readVarintFrom (body : Bytes) (off pageNo : Nat) : Nat → Nat → Nat → Except Error (Nat × Nat)
  | 0, _, _ => malformed pageNo "fts varint too long"
  | left + 1, i, value => do
      let byte ← okOr body[off + i]? (.malformedPage pageNo "fts varint truncated")
      let bits := byte.toNat % 128
      let shift := 7 * i
      let shifted := bits * 2 ^ shift % 2 ^ 128
      if bits ≠ 0 ∧ shifted / 2 ^ shift ≠ bits then malformed pageNo "fts varint overflow"
      else
        let value := value ||| shifted
        if byte.toNat < 128 then .ok (value, off + i + 1)
        else readVarintFrom body off pageNo left (i + 1) value

/-- The varint at an offset and the offset past it. -/
def readVarint (body : Bytes) (off pageNo : Nat) : Except Error (Nat × Nat) :=
  readVarintFrom body off pageNo MAX_VARINT_LEN 0 0

/-- `read_u128_le`. -/
def readU128LE (body : Bytes) (off pageNo : Nat) : Except Error Nat :=
  okOr (readLE body off 16) (.malformedPage pageNo "fts u128 truncated")

/-! ## Runs of entries -/

/-- `u128::wrapping_sub`. -/
def wrappingSub (a b : Nat) : Nat := (a + 2 ^ 128 - b) % 2 ^ 128

/-- The delta varint entries of a run, after an id `prev`. -/
def encodeDeltas : Nat → List Posting → Bytes
  | _, [] => []
  | prev, (id, tf) :: rest =>
      putVarint (wrappingSub id.val prev) ++ putVarint tf ++ encodeDeltas id.val rest

/-- A delta varint run: the first delta is the id itself. -/
def encodeDeltaRun (entries : List Posting) : Bytes := encodeDeltas 0 entries

def rejectHostileDeltaCount (body : Bytes) (count pageNo : Nat) : Except Error Unit :=
  if body.length < 4 + count * 2 then malformed pageNo "fts postings truncated" else .ok ()

/-- The id of an entry, from its delta and the id before it (none for the first entry). -/
def nextId (prev : Option Ulid) (delta pageNo : Nat) : Except Error Ulid :=
  match prev with
  | none =>
      if h : delta < 2 ^ 128 then .ok ⟨delta, h⟩ else malformed pageNo "fts posting id overflow"
  | some p =>
      if delta = 0 then malformed pageNo "unsorted fts postings"
      else if h : p.val + delta < 2 ^ 128 then .ok ⟨p.val + delta, h⟩
      else malformed pageNo "fts posting id overflow"

/-- The frequency of an entry, checked. -/
def termFreq (value pageNo : Nat) : Except Error Nat :=
  if 2 ^ 32 ≤ value then malformed pageNo "fts posting term_freq overflow"
  else if value = 0 then malformed pageNo "fts posting zero term_freq"
  else .ok value

/-- `count` delta varint entries at an offset, and the offset past them. -/
def decodeDeltas (body : Bytes) (pageNo : Nat) :
    Nat → Option Ulid → Nat → Except Error (List Posting × Nat)
  | 0, _, off => .ok ([], off)
  | count + 1, prev, off => do
      let (delta, off) ← readVarint body off pageNo
      let id ← nextId prev delta pageNo
      let (value, off) ← readVarint body off pageNo
      let tf ← termFreq value pageNo
      let (rest, off) ← decodeDeltas body pageNo count (some id) off
      .ok ((id, tf) :: rest, off)

def decodeDeltaRun (body : Bytes) (off count pageNo : Nat) : Except Error (List Posting × Nat) :=
  decodeDeltas body pageNo count none off

/-! ## Frames of reference -/

/-- Bytes needed for `v`, at least one; `fuel` of them at most. -/
def byteWidthUpTo : Nat → Nat → Nat
  | 0, _ => 0
  | fuel + 1, v => if v < 256 then 1 else 1 + byteWidthUpTo fuel (v / 256)

/-- Minimal number of bytes, 1 to 16, that represents `v`. -/
def byteWidth (v : Nat) : Nat := byteWidthUpTo 16 v

/-- The deltas of a run, after an id `prev`. -/
def deltas : Nat → List Posting → List Nat
  | _, [] => []
  | prev, (id, _) :: rest => wrappingSub id.val prev :: deltas id.val rest

def maxOf (l : List Nat) : Nat := l.foldl max 0

/-- `put_fixed` for a stream of values. -/
def putFixed (width : Nat) (values : List Nat) : Bytes := values.flatMap (leBytes width)

def encodeForBlock (entries : List Posting) : Bytes :=
  let deltaWidth := byteWidth (maxOf (deltas 0 entries))
  let tfWidth := byteWidth (maxOf (entries.map Prod.snd))
  UInt8.ofNat deltaWidth :: UInt8.ofNat tfWidth ::
    (putFixed deltaWidth (deltas 0 entries) ++ putFixed tfWidth (entries.map Prod.snd))

def readFixed (body : Bytes) (off width pageNo : Nat) : Except Error Nat :=
  okOr (readLE body off width) (.malformedPage pageNo "fts fixed-width truncated")

/-- The entries of a frame, from the offsets of the two streams. -/
def decodeFrame (body : Bytes) (deltaWidth tfWidth pageNo : Nat) :
    Nat → Option Ulid → Nat → Nat → Except Error (List Posting)
  | 0, _, _, _ => .ok []
  | count + 1, prev, deltaOff, tfOff => do
      let delta ← readFixed body deltaOff deltaWidth pageNo
      let id ← nextId prev delta pageNo
      let value ← readFixed body tfOff tfWidth pageNo
      let tf ← termFreq value pageNo
      let rest ← decodeFrame body deltaWidth tfWidth pageNo count (some id) (deltaOff + deltaWidth)
        (tfOff + tfWidth)
      .ok ((id, tf) :: rest)

def decodeForBlock (body : Bytes) (off count pageNo : Nat) : Except Error (List Posting × Nat) := do
  let deltaWidth ← okOr body[off]? (.malformedPage pageNo "fts for widths truncated")
  let tfWidth ← okOr body[off + 1]? (.malformedPage pageNo "fts for widths truncated")
  let deltaWidth := deltaWidth.toNat
  let tfWidth := tfWidth.toNat
  if ¬ (1 ≤ deltaWidth ∧ deltaWidth ≤ 16) ∨ ¬ (1 ≤ tfWidth ∧ tfWidth ≤ 4) then
    malformed pageNo "fts for width out of range"
  else if body.length < off + 2 + count * (deltaWidth + tfWidth) then
    malformed pageNo "fts for stream truncated"
  else do
    let deltaOff := off + 2
    let tfOff := deltaOff + count * deltaWidth
    let entries ← decodeFrame body deltaWidth tfWidth pageNo count none deltaOff tfOff
    .ok (entries, tfOff + count * tfWidth)

/-- One block of a skip body, in the layout of the file. -/
def decodeBlockRun (layout : PostingsLayout) (body : Bytes) (off count pageNo : Nat) :
    Except Error (List Posting × Nat) :=
  match layout with
  | .frameOfReference => decodeForBlock body off count pageNo
  | _ => decodeDeltaRun body off count pageNo

/-! ## The skip index -/

/-- A block's body. -/
def encodeBlock (frameOfReference : Bool) (block : List Posting) : Bytes :=
  if frameOfReference then encodeForBlock block else encodeDeltaRun block

def firstId (block : List Posting) : Nat := (block.head?.map (·.1.val)).getD 0

def lastId (block : List Posting) : Nat := (block.getLast?.map (·.1.val)).getD 0

def maxTf (block : List Posting) : Nat := maxOf (block.map Prod.snd)

/-- A skip entry; `byteOffset` is where the block starts in the blocks region. -/
def skipEntry (entry : SkipEntry) (byteOffset : Nat) (block : List Posting) : Bytes :=
  leBytes 16 (firstId block) ++ (if entry = .v6 then leBytes 16 (lastId block) else []) ++
    leBytes 4 byteOffset ++ leBytes 4 (maxTf block)

/-- The skip entries of the blocks, the first of which starts at `byteOffset`. -/
def skipIndex (entry : SkipEntry) (frameOfReference : Bool) : Nat → List (List Posting) → Bytes
  | _, [] => []
  | byteOffset, block :: rest =>
      skipEntry entry byteOffset block ++
        skipIndex entry frameOfReference (byteOffset + (encodeBlock frameOfReference block).length) rest

/-- Everything after the document frequency, in the skip layouts. -/
def encodeSkip (entries : List Posting) (entry : SkipEntry) (frameOfReference : Bool) : Bytes :=
  if entries.length < SKIP_MIN_DOC_FREQ then leBytes 4 0 ++ encodeDeltaRun entries
  else
    let blocks := chunks SKIP_BLOCK_SIZE entries
    leBytes 4 blocks.length ++ skipIndex entry frameOfReference 0 blocks ++
      blocks.flatMap (encodeBlock frameOfReference)

def encodeFixedWidth (entries : List Posting) : Bytes :=
  entries.flatMap fun p => Ulid.toBytes p.1 ++ leBytes 4 p.2

/-- `Postings::encode`. -/
def encode (entries : List Posting) (layout : PostingsLayout) : Bytes :=
  leBytes 4 entries.length ++
    match layout with
    | .fixedWidth => encodeFixedWidth entries
    | .deltaVarint => encodeDeltaRun entries
    | .deltaVarintSkip entry => encodeSkip entries entry false
    | .frameOfReference => encodeSkip entries .v6 true

/-! ## Decoding a body -/

def decodeFixedEntries (body : Bytes) (pageNo : Nat) :
    Nat → Option Ulid → Nat → Except Error (List Posting)
  | 0, _, _ => .ok []
  | count + 1, prev, off => do
      let idBytes ← okOr (slice body off 16) (.malformedPage pageNo "fts posting id")
      let id := Ulid.fromBytes idBytes
      if prev.any (fun p => decide (id ≤ p)) then malformed pageNo "unsorted fts postings"
      else do
        let tf ← Dict.readInt body (off + 16) 4 pageNo
        if tf = 0 then malformed pageNo "fts posting zero term_freq"
        else do
          let rest ← decodeFixedEntries body pageNo count (some id) (off + POSTING_LEN)
          .ok ((id, tf) :: rest)

def decodeFixedWidth (body : Bytes) (pageNo : Nat) : Except Error (List Posting) := do
  let count ← Dict.readInt body 0 4 pageNo
  if body.length < 4 + count * POSTING_LEN then malformed pageNo "fts postings truncated"
  else decodeFixedEntries body pageNo count none 4

def decodeDeltaVarint (body : Bytes) (pageNo : Nat) : Except Error (List Posting) := do
  let count ← Dict.readInt body 0 4 pageNo
  rejectHostileDeltaCount body count pageNo
  let (entries, _) ← decodeDeltaRun body 4 count pageNo
  .ok entries

/-- `div_ceil` by the block size. -/
def expectedBlocks (count : Nat) : Nat := (count + SKIP_BLOCK_SIZE - 1) / SKIP_BLOCK_SIZE

def blockLen (count blockCount b : Nat) : Nat :=
  if b + 1 = blockCount then count - b * SKIP_BLOCK_SIZE else SKIP_BLOCK_SIZE

/-- A stored skip entry. -/
structure StoredEntry where
  first : Nat
  last : Option Nat
  offset : Nat
  maxTf : Nat

/-- Reads skip entry `b`. -/
def readSkipEntry (body : Bytes) (pageNo : Nat) (entry : SkipEntry) (b : Nat) :
    Except Error StoredEntry := do
  let idxOff := 8 + b * entry.len
  let first ← readU128LE body idxOff pageNo
  let last ← match entry with
    | .v6 => do
        let last ← readU128LE body (idxOff + 16) pageNo
        .ok (some last)
    | .v5 => .ok none
  let tail := idxOff + entry.tailOff
  let offset ← Dict.readInt body tail 4 pageNo
  let maxTf ← Dict.readInt body (tail + 4) 4 pageNo
  .ok ⟨first, last, offset, maxTf⟩

/-- The checks of a decoded block against its skip entry and the block before it. -/
def checkBlock (stored : StoredEntry) (block : List Posting) (prevLast : Option Nat) (pageNo : Nat) :
    Except Error Unit :=
  if stored.first ≠ firstId block then malformed pageNo "fts skip first_id mismatch"
  else if stored.last.any (fun s => s ≠ lastId block) then malformed pageNo "fts skip last_id mismatch"
  else if stored.maxTf ≠ maxTf block then malformed pageNo "fts skip max_term_freq mismatch"
  else if prevLast.any (fun p => firstId block ≤ p) then malformed pageNo "unsorted fts postings"
  else .ok ()

/-- The blocks from `b` on, `left` of them. -/
def decodeBlocks (body : Bytes) (pageNo : Nat) (entry : SkipEntry) (layout : PostingsLayout)
    (count blockCount : Nat) : Nat → Nat → Nat → Option Nat → Except Error (List Posting)
  | 0, _, _, _ => .ok []
  | left + 1, b, off, prevLast => do
      let stored ← readSkipEntry body pageNo entry b
      if 8 + blockCount * entry.len + stored.offset ≠ off then
        malformed pageNo "fts skip byte_offset mismatch"
      else do
        let (block, off) ← decodeBlockRun layout body off (blockLen count blockCount b) pageNo
        checkBlock stored block prevLast pageNo
        let rest ← decodeBlocks body pageNo entry layout count blockCount left (b + 1) off
          (some (lastId block))
        .ok (block ++ rest)

/-- The header checks of a body with a skip index: the start of the blocks region. -/
def checkSkipIndex (body : Bytes) (count blockCount entryLen pageNo : Nat) : Except Error Nat :=
  if count < SKIP_MIN_DOC_FREQ ∨ blockCount ≠ expectedBlocks count then
    malformed pageNo "fts skip block_count mismatch"
  else
    let blocksStart := 8 + blockCount * entryLen
    if body.length < blocksStart then malformed pageNo "fts skip index truncated"
    else do
      rejectHostileDeltaCount (body.drop (blocksStart - 4)) count pageNo
      .ok blocksStart

def decodeSkip (body : Bytes) (pageNo : Nat) (entry : SkipEntry) (layout : PostingsLayout) :
    Except Error (List Posting) := do
  let count ← Dict.readInt body 0 4 pageNo
  let blockCount ← Dict.readInt body 4 4 pageNo
  if blockCount = 0 then do
    rejectHostileDeltaCount body count pageNo
    let (entries, _) ← decodeDeltaRun body 8 count pageNo
    .ok entries
  else do
    let blocksStart ← checkSkipIndex body count blockCount entry.len pageNo
    decodeBlocks body pageNo entry layout count blockCount blockCount 0 blocksStart none

/-- `Postings::decode`. -/
def decode (body : Bytes) (pageNo : Nat) (layout : PostingsLayout) : Except Error (List Posting) :=
  match layout with
  | .fixedWidth => decodeFixedWidth body pageNo
  | .deltaVarint => decodeDeltaVarint body pageNo
  | .deltaVarintSkip entry => decodeSkip body pageNo entry layout
  | .frameOfReference => decodeSkip body pageNo .v6 layout

end Fts

end EmbedMind
