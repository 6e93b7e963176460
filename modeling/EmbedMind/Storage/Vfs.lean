import EmbedMind.Lib.Bytes
import EmbedMind.Lib.Crash

/-!
# The file system under the storage layer (`storage/vfs.rs`, `storage/sim.rs`)

`Fs` is a file system with names, files and open handles kept apart, as the
operating system keeps them: `rename` and `delete` act on names, an open handle
keeps its file, and an exclusive lock belongs to the file and lives as long as
the handle that took it. `Fs.exec` is one completed call of the `Vfs`/`VfsFile`
traits.

What a power failure may leave of a file is `File.Survives`: every 512-byte
sector holds its last-synced or its current bytes, independently of the others
(`Mixes`); a truncation that was not synced leaves the file from before it or the
one after it. A write that is cut short stays in flight (`Fs.torn`): it may have
applied any subset of its sectors. Directory operations are atomic and durable,
as in the repository's own simulator.
-/

namespace EmbedMind

open Lib

abbrev Path := String

/-- The kinds of `std::io::Error` the storage layer can meet. -/
inductive IoError where
  | notFound
  | alreadyExists
  | unexpectedEof
  | other (what : String)
deriving DecidableEq, Repr

inductive OpenMode where
  | mustExist
  | createNew
  | openOrCreate
deriving DecidableEq, Repr

/-- One file: what is durable, what the process sees, the contents before and
after a truncation that has not been synced yet, and the write that was in flight
when the process died. -/
structure File where
  synced : Bytes := []
  current : Bytes := []
  cut : Option (Bytes × Bytes) := none
  inFlight : Option (Nat × Bytes) := none
deriving DecidableEq

/-- A file all of whose bytes are durable. -/
def File.clean (bs : Bytes) : File := { synced := bs, current := bs }

structure Fs where
  /-- The directory: which file a path names. -/
  names : Path → Option Nat
  files : Nat → File
  nextFile : Nat
  /-- Open handles and the file each one refers to. -/
  handles : Nat → Option Nat
  nextHandle : Nat
  /-- The handle holding the exclusive lock of a file. -/
  locks : Nat → Option Nat

/-- The calls of `Vfs` and `VfsFile`; `close` is the drop of a handle. -/
inductive VfsOp where
  | openFile (path : Path) (mode : OpenMode)
  | delete (path : Path)
  | fileExists (path : Path)
  | rename (source target : Path)
  | readAt (h off len : Nat)
  | writeAt (h off : Nat) (buf : Bytes)
  | sync (h : Nat)
  | truncate (h len : Nat)
  | len (h : Nat)
  | tryLockExclusive (h : Nat)
  | close (h : Nat)

def VfsOp.Res : VfsOp → Type
  | .openFile _ _ => Except IoError Nat
  | .delete _ => Except IoError Unit
  | .fileExists _ => Bool
  | .rename _ _ => Except IoError Unit
  | .readAt _ _ _ => Except IoError Bytes
  | .writeAt _ _ _ => Except IoError Unit
  | .sync _ => Except IoError Unit
  | .truncate _ _ => Except IoError Unit
  | .len _ => Except IoError Nat
  | .tryLockExclusive _ => Except IoError Bool
  | .close _ => Unit

namespace File

def write (f : File) (off : Nat) (buf : Bytes) : File :=
  { f with current := patch f.current off buf }

def sync (f : File) : File := { f with synced := f.current, cut := none }

/-- `set_len`: cuts the file or extends it with zeros. -/
def resize (bs : Bytes) (len : Nat) : Bytes :=
  bs.take len ++ List.replicate (len - bs.length) 0

def truncate (f : File) (len : Nat) : File :=
  { f with
    current := resize f.current len
    cut := some (match f.cut with
      | some (before, _) => (before, resize f.current len)
      | none => (f.current, resize f.current len)) }

end File

namespace Fs

/-- A file system with no files. -/
def empty : Fs where
  names := fun _ => none
  files := fun _ => {}
  nextFile := 0
  handles := fun _ => none
  nextHandle := 0
  locks := fun _ => none

def setFile (fs : Fs) (f : Nat) (file : File) : Fs :=
  { fs with files := Function.update fs.files f file }

/-- A new handle on file `f`. -/
def addHandle (fs : Fs) (f : Nat) : Fs :=
  { fs with handles := Function.update fs.handles fs.nextHandle (some f)
            nextHandle := fs.nextHandle + 1 }

/-- A new, empty file named `path`. -/
def addFile (fs : Fs) (path : Path) : Fs :=
  { fs with names := Function.update fs.names path (some fs.nextFile)
            files := Function.update fs.files fs.nextFile {}
            nextFile := fs.nextFile + 1 }

/-- The directory without the name `path`; the file lives on for its handles. -/
def unlink (fs : Fs) (path : Path) : Fs :=
  { fs with names := Function.update fs.names path none }

def badHandle : IoError := .other "bad file handle"

/-- One completed call. -/
def exec (fs : Fs) : (o : VfsOp) → Fs × o.Res
  | .openFile path mode =>
      match fs.names path, mode with
      | none, .mustExist => (fs, .error .notFound)
      | some _, .createNew => (fs, .error .alreadyExists)
      | none, _ => ((fs.addFile path).addHandle fs.nextFile, .ok fs.nextHandle)
      | some f, _ => (fs.addHandle f, .ok fs.nextHandle)
  | .delete path =>
      match fs.names path with
      | none => (fs, .error .notFound)
      | some _ => (fs.unlink path, .ok ())
  | .fileExists path => (fs, (fs.names path).isSome)
  | .rename source target =>
      match fs.names source with
      | none => (fs, .error .notFound)
      | some f =>
          ({ fs with names := Function.update (Function.update fs.names source none)
                       target (some f) }, .ok ())
  | .readAt h off len =>
      match fs.handles h with
      | none => (fs, .error badHandle)
      | some f =>
          match slice (fs.files f).current off len with
          | some bs => (fs, .ok bs)
          | none => (fs, .error .unexpectedEof)
  | .writeAt h off buf =>
      match fs.handles h with
      | none => (fs, .error badHandle)
      | some f => (fs.setFile f ((fs.files f).write off buf), .ok ())
  | .sync h =>
      match fs.handles h with
      | none => (fs, .error badHandle)
      | some f => (fs.setFile f (fs.files f).sync, .ok ())
  | .truncate h len =>
      match fs.handles h with
      | none => (fs, .error badHandle)
      | some f => (fs.setFile f ((fs.files f).truncate len), .ok ())
  | .len h =>
      match fs.handles h with
      | none => (fs, .error badHandle)
      | some f => (fs, .ok (fs.files f).current.length)
  | .tryLockExclusive h =>
      match fs.handles h with
      | none => (fs, .error badHandle)
      | some f =>
          match fs.locks f with
          | none => ({ fs with locks := Function.update fs.locks f (some h) }, .ok true)
          | some h' => (fs, .ok (h' == h))
  | .close h =>
      match fs.handles h with
      | none => (fs, ())
      | some f =>
          ({ fs with
             handles := Function.update fs.handles h none
             locks := if fs.locks f = some h then Function.update fs.locks f none else fs.locks },
           ())

end Fs

/-! ## Crashes -/

def sectorSize : Nat := 512

/-- Every sector of `img` holds the bytes of `a` or those of `b` (zero past the
end of a file), and `img` is between the two in length. -/
def Mixes (a b img : Bytes) : Prop :=
  min a.length b.length ≤ img.length ∧ img.length ≤ max a.length b.length ∧
  ∀ s, (∀ i, i / sectorSize = s → i < img.length → img.getD i 0 = a.getD i 0) ∨
       (∀ i, i / sectorSize = s → i < img.length → img.getD i 0 = b.getD i 0)

/-- The contents with the write in flight, if any, completed. -/
def File.written (f : File) : Bytes :=
  match f.inFlight with
  | none => f.current
  | some (off, buf) => patch f.current off buf

/-- What a power failure may leave of a file: a write in flight has applied any
subset of its sectors, and of the result every sector may or may not have reached
the disk. -/
def File.Survives (f : File) (img : Bytes) : Prop :=
  ∃ cache, Mixes f.current f.written cache ∧
    match f.cut with
    | none => Mixes f.synced cache img
    | some (before, after) => Mixes f.synced before img ∨ Mixes after cache img

/-- A power failure: every file keeps one of its surviving images, which is then
durable; handles and locks are gone. -/
def PowerFail (fs fs' : Fs) : Prop :=
  fs'.names = fs.names ∧ fs'.nextFile = fs.nextFile ∧ fs'.nextHandle = fs.nextHandle ∧
  (∀ h, fs'.handles h = none) ∧ (∀ f, fs'.locks f = none) ∧
  ∀ f, ∃ img, (fs.files f).Survives img ∧ fs'.files f = File.clean img

/-- The states an interruption inside a call can leave: an interrupted write is
in flight, every other call is all or nothing. -/
def Fs.torn (fs : Fs) (o : VfsOp) (fs' : Fs) : Prop :=
  match o with
  | .writeAt h off buf =>
      ∃ f, fs.handles h = some f ∧
        fs' = fs.setFile f { fs.files f with inFlight := some (off, buf) }
  | _ => False

/-- The file system as a machine with interruptible operations. -/
def vfs : Machine Fs where
  Op := VfsOp
  Res := VfsOp.Res
  exec := Fs.exec
  torn := Fs.torn

/-! ## Basic facts -/

theorem mixes_left (a b : Bytes) : Mixes a b a :=
  ⟨by omega, by omega, fun _ => Or.inl fun _ _ _ => rfl⟩

theorem mixes_right (a b : Bytes) : Mixes a b b :=
  ⟨by omega, by omega, fun _ => Or.inr fun _ _ _ => rfl⟩

/-- Where both sides agree, so does the mix. -/
theorem Mixes.getD_eq {a b img : Bytes} (h : Mixes a b img) {i : Nat} (hi : i < img.length)
    (hab : a.getD i 0 = b.getD i 0) : img.getD i 0 = a.getD i 0 := by
  rcases h.2.2 (i / sectorSize) with h1 | h2
  · exact h1 i rfl hi
  · rw [h2 i rfl hi, hab]

/-- A string mixes with itself to itself. -/
theorem Mixes.self {a img : Bytes} (h : Mixes a a img) : img = a := by
  have hlen : img.length = a.length := by
    have h1 := h.1
    have h2 := h.2.1
    omega
  exact ext_getD hlen fun i hi => h.getD_eq hi rfl

/-- Of a synced file all survives. -/
theorem File.survives_clean {bs img : Bytes} (h : (File.clean bs).Survives img) : img = bs := by
  obtain ⟨cache, hcache, himg⟩ := h
  have hc : cache = bs := Mixes.self hcache
  subst hc
  exact Mixes.self himg

/-- A synced file survives as it is. -/
theorem File.clean_survives (bs : Bytes) : (File.clean bs).Survives bs :=
  ⟨bs, mixes_left _ _, mixes_left _ _⟩

@[simp] theorem Fs.setFile_names (fs : Fs) (f : Nat) (file : File) :
    (fs.setFile f file).names = fs.names := rfl

@[simp] theorem Fs.setFile_handles (fs : Fs) (f : Nat) (file : File) :
    (fs.setFile f file).handles = fs.handles := rfl

@[simp] theorem Fs.setFile_locks (fs : Fs) (f : Nat) (file : File) :
    (fs.setFile f file).locks = fs.locks := rfl

@[simp] theorem Fs.setFile_files (fs : Fs) (f : Nat) (file : File) :
    (fs.setFile f file).files = Function.update fs.files f file := rfl

/-- The second of two changes of one file counts. -/
@[simp] theorem Fs.setFile_setFile (fs : Fs) (f : Nat) (a b : File) :
    (fs.setFile f a).setFile f b = fs.setFile f b := by
  simp [Fs.setFile]

end EmbedMind
