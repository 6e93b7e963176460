import EmbedMind.Storage.Wal

/-!
# The pager (`storage/pager.rs`)

Creation, opening with recovery, page reads, commit through the log, checkpoint
and close, as programs over the `Vfs` calls the source makes, in its order.
`commitTxn` and `checkpoint` give the pager back also when they fail, since a
failed one is marked broken and refuses every later call.
-/

namespace EmbedMind

open Lib Lib.Assoc

/-- What the code takes from outside the repository: the hash functions, and the
order in which a `HashMap` happens to be iterated. -/
structure Runtime where
  xxh : Xxh3
  hashOrder : List (Nat × Nat) → List (Nat × Nat)
  hashOrder_perm : ∀ l, (hashOrder l).Perm l

def DEFAULT_CHECKPOINT_THRESHOLD : Nat := 4 * 1024 * 1024

structure PagerOptions where
  pageSize : Nat := DEFAULT_PAGE_SIZE
  checkpointThreshold : Nat := DEFAULT_CHECKPOINT_THRESHOLD
  formatVersion : Nat := FORMAT_VERSION

structure Pager where
  main : Nat
  wal : Wal
  walPath : Path
  header : Header
  /-- Committed pages that live in the log: page number and image offset. -/
  walIndex : List (Nat × Nat) := []
  checkpointThreshold : Nat
  broken : Bool := false

def walPathFor (path : Path) : Path := path ++ "-wal"

/-- The recorded page size of the main file, if its first bytes parse. -/
def peekMainPageSize (main : Nat) : Io (Option Nat) := do
  let len ← Io.len main
  if len < HEADER_PEEK_LEN then pure none
  else do
    let pre ← Io.readAt main 0 HEADER_PEEK_LEN
    pure (Header.peekPageSize pre).toOption

/-- Reads and validates the header of the main file. -/
def readHeader (H : Xxh3) (main : Nat) : Io Header := do
  let len ← Io.len main
  if len < HEADER_PEEK_LEN then throw .badHeader
  let pre ← Io.readAt main 0 HEADER_PEEK_LEN
  let pageSize ← Io.ofExcept (Header.peekPageSize pre)
  let len ← Io.len main
  if len < pageSize then throw .badHeader
  let page0 ← Io.readAt main 0 pageSize
  Io.ofExcept (Header.decode H page0)

/-- Copies page images from the log into the main file, in the order given. -/
def applyPages (main wal pageSize : Nat) : List (Nat × Nat) → Io Unit
  | [] => pure ()
  | (pageNo, offset) :: rest => do
      let image ← Io.readAt wal offset pageSize
      let target ← Io.ofExcept (pageOffset pageNo pageSize)
      Io.writeAt main target image
      applyPages main wal pageSize rest

namespace Pager

/-- Creates a new store at `path`, which must not exist, and takes the lock. -/
def create (R : Runtime) (path : Path) (opts : PagerOptions) : Io Pager := do
  if opts.formatVersion = 0 ∨ FORMAT_VERSION < opts.formatVersion then
    throw (.invalidArgument "format_version must be between 1 and FORMAT_VERSION")
  let header ← Io.ofExcept (Header.new opts.pageSize)
  let header := { header with formatVersion := opts.formatVersion }
  let main ← Io.openFile path .createNew
  Io.owning main do
    let locked ← Io.tryLockExclusive main
    if !locked then throw .writeLocked
    let walPath := walPathFor path
    let orphan ← Io.fileExists walPath
    if orphan then Io.delete walPath
    let page0 ← Io.ofExcept (header.encode R.xxh opts.pageSize)
    Io.writeAt main 0 page0
    Io.sync main
    let walFile ← Io.openFile walPath .openOrCreate
    pure { main, wal := { file := walFile, pageSize := opts.pageSize }, walPath, header,
           checkpointThreshold := opts.checkpointThreshold }

/-- Recovery: the committed pages of the log are copied into the main file, unless
the main file records another page size. -/
def recover (R : Runtime) (main walFile : Nat) : Io Unit := do
  let scanned ← Wal.scan R.xxh walFile
  match scanned with
  | none => pure ()
  | some recovered => do
      let expected ← peekMainPageSize main
      if expected.all (fun ps => ps == recovered.pageSize) && !recovered.committed.isEmpty then do
        applyPages main walFile recovered.pageSize recovered.committed
        Io.sync main

/-- Opens an existing store: recovery, then the log is emptied, then the header is
read from the main file. -/
def openStore (R : Runtime) (path : Path) (opts : PagerOptions) : Io Pager := do
  let main ← Io.openFile path .mustExist
  Io.owning main do
    let locked ← Io.tryLockExclusive main
    if !locked then throw .writeLocked
    let walPath := walPathFor path
    let walFile ← Io.openFile walPath .openOrCreate
    Io.owning walFile do
      recover R main walFile
      let walLen ← Io.len walFile
      if 0 < walLen then do
        Io.truncate walFile 0
        Io.sync walFile
      let header ← readHeader R.xxh main
      pure { main, wal := { file := walFile, pageSize := header.pageSize }, walPath, header,
             checkpointThreshold := opts.checkpointThreshold }

def failedState : Error :=
  .io (.other "store is in a failed state after an I/O error; reopen the file")

/-- Reads one page of the committed state and verifies its checksum. -/
def readPage (R : Runtime) (p : Pager) (pageNo : Nat) : Io Bytes := do
  if p.broken then throw failedState
  if p.header.pageCount ≤ pageNo then throw (.pageOutOfBounds pageNo p.header.pageCount)
  let page ← match find pageNo p.walIndex with
    | some offset => p.wal.readImage offset p.header.pageSize
    | none => do
        let offset ← Io.ofExcept (pageOffset pageNo p.header.pageSize)
        Io.readAt p.main offset p.header.pageSize
  if pageChecksumIsValid R.xxh page = false then throw (.corruptPage pageNo)
  pure page

def checkpointInner (R : Runtime) (p : Pager) : Io Pager := do
  applyPages p.main p.wal.file p.header.pageSize (R.hashOrder p.walIndex)
  Io.sync p.main
  let wal ← p.wal.reset
  pure { p with wal, walIndex := [] }

/-- Copies the log into the main file and resets it. -/
def checkpoint (R : Runtime) (p : Pager) : Prog vfs (Pager × Except Error Unit) :=
  if p.broken then .ret (p, .error failedState)
  else if p.walIndex.isEmpty && p.wal.len == 0 then .ret (p, .ok ())
  else (checkpointInner R p).run.bind fun
    | .ok p' => .ret (p', .ok ())
    | .error e => .ret ({ p with broken := true }, .error e)

/-- Dropping a pager: both handles go, and with them the lock. -/
def drop (p : Pager) : Io Unit := do
  Io.close p.main
  Io.close p.wal.file

/-- Closes the store: checkpoint, then the log file is deleted. -/
def close (R : Runtime) (p : Pager) : Io Unit :=
  ExceptT.mk ((checkpoint R p).bind fun (p, result) =>
    match result with
    | .error e => p.drop.run.bind fun _ => .ret (.error e)
    | .ok () => ExceptT.run do
        Io.close p.wal.file
        Io.owning p.main do
          let present ← Io.fileExists p.walPath
          if present then Io.delete p.walPath
        Io.close p.main)

/-- Commits a transaction's buffer: dirty pages, then the header page as the
commit frame. -/
def commitTxn (R : Runtime) (newSalt : UInt64) (p : Pager) (dirty : List (Nat × Bytes))
    (newPageCount : Nat) (pending : PendingHeader) : Prog vfs (Pager × Except Error Nat) :=
  if p.broken then .ret (p, .error failedState)
  else if dirty.isEmpty && newPageCount == p.header.pageCount && pending.isEmpty then
    .ret (p, .ok p.header.txnCounter)
  else
    let newHeader := pending.apply p.header newPageCount
    match newHeader.encode R.xxh p.header.pageSize with
    | .error e => .ret (p, .error e)
    | .ok page0 =>
        (p.wal.appendTxn R.xxh newSalt newHeader.txnCounter (dirty ++ [(0, page0)])).run.bind fun
          | .error e => .ret ({ p with broken := true }, .error e)
          | .ok (offsets, wal) =>
              let p := { p with header := newHeader, wal, walIndex := extend p.walIndex offsets }
              if p.checkpointThreshold ≤ p.wal.len then
                (checkpoint R p).bind fun (p, result) =>
                  .ret (p, result.map fun _ => newHeader.txnCounter)
              else .ret (p, .ok newHeader.txnCounter)

end Pager

end EmbedMind
