import EmbedMind.Lib.Assoc
import EmbedMind.Lib.Parser
import EmbedMind.Ulid

/-!
# Memory records (`record.rs`, `docs/FORMAT.md` §5)

A record is a sequence of little-endian numbers and length-prefixed strings, then the
metadata entries in the order of their keys. The decoder checks every length against
the rest of the input, ignores reserved flag bits, takes the entries in any order and
refuses a repeated key and trailing bytes.
-/

namespace EmbedMind

open Lib Lib.Assoc

/-- A `String` in the order of `str`: that of its bytes. -/
structure Text where
  str : String
deriving DecidableEq, Repr

namespace Text

def bytes (t : Text) : Bytes := utf8 t.str

theorem bytes_injective : Function.Injective bytes := by
  rintro ⟨s⟩ ⟨t⟩ h
  exact congrArg Text.mk (utf8_inj h)

instance : LinearOrder Text := LinearOrder.lift' bytes bytes_injective

end Text

/-- The bits of an `f64`. -/
abbrev F64 := UInt64

structure VecRef where
  pageNo : UInt64
  slot : UInt16
deriving DecidableEq, Repr

inductive Scalar where
  | null
  | bool (b : Bool)
  | i64 (v : Int64)
  | f64 (v : F64)
  | str (s : String)
deriving DecidableEq

structure Provenance where
  agent : String
  sessionId : Option String
  createdAtMicros : Int64
deriving DecidableEq

/-- `BTreeMap<String, Scalar>`: the entries in the order of the keys. -/
structure Metadata where
  entries : List (Text × Scalar)
  sorted : Sorted entries
deriving DecidableEq

structure MemoryRecord where
  id : Ulid
  tombstone : Bool
  superseded : Bool
  content : String
  vecRef : Option VecRef
  project : Option String
  provenance : Provenance
  metadata : Metadata
deriving DecidableEq

def MAX_METADATA_ENTRIES : Nat := 65535

def FLAG_TOMBSTONE : UInt8 := 1
def FLAG_SUPERSEDED : UInt8 := 2

def TAG_NULL : UInt8 := 0
def TAG_BOOL : UInt8 := 1
def TAG_I64 : UInt8 := 2
def TAG_F64 : UInt8 := 3
def TAG_STR : UInt8 := 4

/-! ## Encoding -/

namespace Metadata

def empty : Metadata := ⟨[], List.Pairwise.nil⟩

/-- `BTreeMap::insert`; the value that was there. -/
def insert (m : Metadata) (key : Text) (value : Scalar) : Metadata × Option Scalar :=
  (⟨insertKey key value m.entries, sorted_insertKey m.sorted⟩, find key m.entries)

def get (m : Metadata) (key : Text) : Option Scalar := find key m.entries

end Metadata

namespace MemoryRecord

/-- A length-prefixed string. -/
def putStr (out : Bytes) (s : String) : Except Error Bytes :=
  if (utf8 s).length < 2 ^ 32 then .ok (out ++ leBytes 4 (utf8 s).length ++ utf8 s)
  else .error (.invalidArgument "string too long")

def putScalar (out : Bytes) : Scalar → Except Error Bytes
  | .null => .ok (out ++ [TAG_NULL])
  | .bool b => .ok (out ++ [TAG_BOOL] ++ [if b then 1 else 0])
  | .i64 v => .ok (out ++ [TAG_I64] ++ leBytes 8 v.toUInt64.toNat)
  | .f64 v => .ok (out ++ [TAG_F64] ++ leBytes 8 v.toNat)
  | .str s => putStr (out ++ [TAG_STR]) s

def putEntry (out : Bytes) (e : Text × Scalar) : Except Error Bytes := do
  let out ← putStr out e.1.str
  putScalar out e.2

def flags (r : MemoryRecord) : UInt8 :=
  (if r.tombstone then FLAG_TOMBSTONE else 0) ||| (if r.superseded then FLAG_SUPERSEDED else 0)

def encode (r : MemoryRecord) : Except Error Bytes :=
  if MAX_METADATA_ENTRIES < r.metadata.entries.length then
    .error (.invalidArgument "too many metadata entries")
  else do
    let out ← putStr (r.id.toBytes ++ [r.flags]) r.content
    let vecRef := r.vecRef.getD ⟨0, 0⟩
    let out := out ++ leBytes 8 vecRef.pageNo.toNat ++ leBytes 2 vecRef.slot.toNat
    let out ← putStr out (r.project.getD "")
    let out ← putStr out r.provenance.agent
    let out ← putStr out (r.provenance.sessionId.getD "")
    let out := out ++ leBytes 8 r.provenance.createdAtMicros.toUInt64.toNat
    let out := out ++ leBytes 2 r.metadata.entries.length
    let out ← r.metadata.entries.foldlM putEntry out
    if MAX_RECORD_LEN < out.length then .error (.invalidArgument "record exceeds MAX_RECORD_LEN")
    else .ok out

end MemoryRecord

/-! ## Decoding -/

/-- A reader: the bytes that are left. -/
abbrev Reader := StateT Bytes (Except Error)

namespace Reader

def malformed {α : Type} (what : String) : Reader α := throw (.malformedRecord what)

def bytes (n : Nat) : Reader Bytes := fun rest =>
  if n ≤ rest.length then .ok (rest.take n, rest.drop n) else .error (.malformedRecord "truncated")

def u8 : Reader UInt8 := do
  let b ← bytes 1
  pure (b.getD 0 0)

def u16 : Reader UInt16 := do
  let b ← bytes 2
  pure (UInt16.ofNat (leNat b))

def u32 : Reader UInt32 := do
  let b ← bytes 4
  pure (UInt32.ofNat (leNat b))

def u64 : Reader UInt64 := do
  let b ← bytes 8
  pure (UInt64.ofNat (leNat b))

def i64 : Reader Int64 := do
  let v ← u64
  pure v.toInt64

/-- A length-prefixed string; the length is checked before anything is read. -/
def string (what : String) : Reader String := do
  let len ← u32
  let rest ← get
  if rest.length < len.toNat then malformed what
  else do
    let b ← bytes len.toNat
    match ofUtf8? b with
    | some s => pure s
    | none => malformed what

def scalar : Reader Scalar := do
  let tag ← u8
  if tag = TAG_NULL then pure .null
  else if tag = TAG_BOOL then do
    let b ← u8
    if b = 0 then pure (.bool false) else if b = 1 then pure (.bool true) else malformed "bool payload"
  else if tag = TAG_I64 then do
    let v ← i64
    pure (.i64 v)
  else if tag = TAG_F64 then do
    let v ← u64
    pure (.f64 v)
  else if tag = TAG_STR then do
    let s ← string "string payload"
    pure (.str s)
  else malformed "unknown scalar tag"

def entry : Reader (Text × Scalar) := do
  let key ← string "metadata key"
  let value ← scalar
  pure (⟨key⟩, value)

end Reader

/-- The fields in front of the metadata entries, as they are stored. -/
structure Fields where
  id : Ulid
  flags : UInt8
  content : String
  pageNo : UInt64
  slot : UInt16
  project : String
  agent : String
  sessionId : String
  createdAtMicros : Int64
  count : UInt16

namespace MemoryRecord

def nonEmpty (s : String) : Option String := if s = "" then none else some s

def readFields : Reader Fields := do
  let id ← Reader.bytes 16
  let flags ← Reader.u8
  let content ← Reader.string "content"
  let pageNo ← Reader.u64
  let slot ← Reader.u16
  let project ← Reader.string "project"
  let agent ← Reader.string "provenance.agent"
  let sessionId ← Reader.string "provenance.session_id"
  let createdAtMicros ← Reader.i64
  let count ← Reader.u16
  pure ⟨.fromBytes id, flags, content, pageNo, slot, project, agent, sessionId, createdAtMicros, count⟩

/-- The entries go into the map one by one; a key that is there is an error. -/
def readMetadata : Nat → Metadata → Reader Metadata
  | 0, m => pure m
  | n + 1, m => do
      let e ← Reader.entry
      let (m', old) := m.insert e.1 e.2
      if old.isSome then Reader.malformed "duplicate metadata key" else readMetadata n m'

/-- The record of the stored fields. -/
def ofFields (f : Fields) (metadata : Metadata) : MemoryRecord where
  id := f.id
  tombstone := f.flags &&& FLAG_TOMBSTONE != 0
  superseded := f.flags &&& FLAG_SUPERSEDED != 0
  content := f.content
  vecRef := if f.pageNo = 0 ∧ f.slot = 0 then none else some ⟨f.pageNo, f.slot⟩
  project := nonEmpty f.project
  provenance := ⟨f.agent, nonEmpty f.sessionId, f.createdAtMicros⟩
  metadata := metadata

def read : Reader MemoryRecord := do
  let f ← readFields
  let metadata ← readMetadata f.count.toNat .empty
  let rest ← get
  if rest ≠ [] then Reader.malformed "trailing bytes" else pure (ofFields f metadata)

def decode (buf : Bytes) : Except Error MemoryRecord :=
  if MAX_RECORD_LEN < buf.length then .error (.malformedRecord "record exceeds MAX_RECORD_LEN")
  else (read.run buf).map Prod.fst

end MemoryRecord

end EmbedMind
