import EmbedMind.Storage.Txn
import EmbedMind.Storage.Io

/-!
# The write-ahead log (`storage/wal.rs`)

The log is a header and a sequence of frames, each one page image with a
checksummed frame header. `scan` reads the committed transactions back; it is
written over an arbitrary `read`, so that the same definition runs on a file
(`Wal.scan`) and on the bytes of one (`scanBytes`). `appendTxn` writes one
transaction and syncs, `reset` ends the generation.
-/

namespace EmbedMind

open Lib Lib.Assoc

/-- `page_no.checked_mul(page_size)`. -/
def pageOffset (pageNo pageSize : Nat) : Except Error Nat :=
  if pageNo * pageSize < 2 ^ 64 then .ok (pageNo * pageSize)
  else .error (.invalidArgument "page offset overflow")

/-! ## Recovery scan -/

/-- What a scan recovers: the page size of the log, and for every page in its
committed transactions the offset of its latest image. -/
structure RecoveredWal where
  pageSize : Nat
  committed : List (Nat × Nat)
deriving DecidableEq

section Scan

variable (H : Xxh3) {m : Type → Type} [Monad m] (read : Nat → Nat → m Bytes)

/-- The frame loop of `scan`. A frame that does not fit, does not validate or
belongs to another transaction than the frames before it ends the valid prefix.
(The source's `checked_add` cannot overflow before the end of the file.) -/
def scanFrames (fileLen : Nat) (header : WalHeader) :
    Nat → Nat → List (Nat × Nat) → List (Nat × Nat) → Option Nat → m (List (Nat × Nat))
  | 0, _, committed, _, _ => pure committed
  | fuel + 1, offset, committed, pending, pendingTxn =>
      let frameEnd := offset + (WAL_FRAME_HEADER_LEN + header.pageSize)
      if fileLen < frameEnd then pure committed
      else do
        let frameHeader ← read offset WAL_FRAME_HEADER_LEN
        let image ← read (offset + WAL_FRAME_HEADER_LEN) header.pageSize
        match WalFrameHeader.decode H frameHeader image header.salt with
        | none => pure committed
        | some frame =>
            if pendingTxn.any (fun t => t != frame.txnId) then pure committed
            else
              let pending := pending ++ [(frame.pageNo, offset + WAL_FRAME_HEADER_LEN)]
              if frame.commit then
                scanFrames fileLen header fuel frameEnd (extend committed pending) [] none
              else scanFrames fileLen header fuel frameEnd committed pending (some frame.txnId)

/-- `scan`, as a build that supports the format versions up to `maxVersion` runs it. -/
def scanUpTo (maxVersion fileLen : Nat) : m (Option RecoveredWal) :=
  if fileLen < WAL_HEADER_LEN then pure none
  else do
    let headerBuf ← read 0 WAL_HEADER_LEN
    match WalHeader.decodeUpTo maxVersion headerBuf with
    | none => pure none
    | some header => do
        let committed ← scanFrames H read fileLen header fileLen WAL_HEADER_LEN [] [] none
        pure (some { pageSize := header.pageSize, committed })

end Scan

/-- The scan over the bytes of a log. -/
def scanBytes (H : Xxh3) (maxVersion : Nat) (bs : Bytes) : Option RecoveredWal :=
  Id.run (scanUpTo H (fun off len => pure ((bs.drop off).take len)) maxVersion bs.length)

/-! ## The open log -/

/-- An open WAL file: its handle, the salt of the current generation (`none`
until the first append writes a header) and the append offset. -/
structure Wal where
  file : Nat
  pageSize : Nat
  salt : Option Nat := none
  len : Nat := 0

namespace Wal

def scan (H : Xxh3) (file : Nat) : Io (Option RecoveredWal) := do
  let fileLen ← Io.len file
  scanUpTo H (Io.readAt file) FORMAT_VERSION fileLen

/-- One frame, as it is written. -/
def frameBytes (H : Xxh3) (txnId salt : Nat) (commit : Bool) (page : Nat × Bytes) : Bytes :=
  WalFrameHeader.encode H { pageNo := page.1, txnId, commit } page.2 salt ++ page.2

/-- The frame loop of `append_txn`: the last page carries the commit flag. -/
def appendFrames (H : Xxh3) (wal : Wal) (txnId salt : Nat) :
    Nat → List (Nat × Bytes) → Io (List (Nat × Nat) × Nat)
  | len, [] => pure ([], len)
  | len, page :: rest => do
      if page.2.length ≠ wal.pageSize then
        throw (.invalidArgument "WAL image must be one page")
      let frame := frameBytes H txnId salt rest.isEmpty page
      Io.writeAt wal.file len frame
      let (offsets, len') ← appendFrames H wal txnId salt (len + frame.length) rest
      pure ((page.1, len + WAL_FRAME_HEADER_LEN) :: offsets, len')

/-- Appends one transaction and syncs; `newSalt` is what `generate_salt` returns
if this append starts a generation. Gives the image offset of every page. -/
def appendTxn (H : Xxh3) (newSalt : UInt64) (wal : Wal) (txnId : Nat) (pages : List (Nat × Bytes)) :
    Io (List (Nat × Nat) × Wal) := do
  let (salt, len) ← match wal.salt with
    | some salt => pure (salt, wal.len)
    | none => do
        let header : WalHeader :=
          { formatVersion := FORMAT_VERSION, pageSize := wal.pageSize, salt := newSalt.toNat }
        Io.writeAt wal.file 0 header.encode
        pure (newSalt.toNat, WAL_HEADER_LEN)
  let (offsets, len) ← appendFrames H wal txnId salt len pages
  Io.sync wal.file
  pure (offsets, { wal with salt := some salt, len })

def readImage (wal : Wal) (offset len : Nat) : Io Bytes := Io.readAt wal.file offset len

/-- Ends the generation. -/
def reset (wal : Wal) : Io Wal := do
  Io.truncate wal.file 0
  Io.sync wal.file
  pure { wal with salt := none, len := 0 }

end Wal

end EmbedMind
