import EmbedMind.Format

/-!
# Storage code that calls the file system

`Io` is the type of the source's storage functions: programs over `Vfs` calls that
end with a value or a typed error. One rule per call says what it does and what an
interruption of it leaves (`Io.wpc_*`); only a write can be cut in the middle.
-/

namespace EmbedMind

open Lib

/-- Storage code: `Vfs` calls that may fail with a typed error. -/
abbrev Io (α : Type) := ExceptT Error (Prog vfs) α

namespace Io

variable {α : Type}

/-- A failed call is passed on as `Error::Io`. -/
def ofCall (p : Prog vfs (Except IoError α)) : Io α :=
  ExceptT.mk (p.bind fun
    | .ok a => .ret (.ok a)
    | .error e => .ret (.error (.io e)))

def openFile (path : Path) (mode : OpenMode) : Io Nat :=
  ofCall (Prog.call (M := vfs) (.openFile path mode))

def delete (path : Path) : Io Unit := ofCall (Prog.call (M := vfs) (.delete path))

def fileExists (path : Path) : Io Bool :=
  ExceptT.lift (Prog.call (M := vfs) (.fileExists path))

def rename (source target : Path) : Io Unit :=
  ofCall (Prog.call (M := vfs) (.rename source target))

def readAt (h off len : Nat) : Io Bytes := ofCall (Prog.call (M := vfs) (.readAt h off len))

def writeAt (h off : Nat) (buf : Bytes) : Io Unit :=
  ofCall (Prog.call (M := vfs) (.writeAt h off buf))

def sync (h : Nat) : Io Unit := ofCall (Prog.call (M := vfs) (.sync h))

def truncate (h len : Nat) : Io Unit := ofCall (Prog.call (M := vfs) (.truncate h len))

def len (h : Nat) : Io Nat := ofCall (Prog.call (M := vfs) (.len h))

def tryLockExclusive (h : Nat) : Io Bool :=
  ofCall (Prog.call (M := vfs) (.tryLockExclusive h))

/-- Dropping a handle. -/
def close (h : Nat) : Io Unit := ExceptT.lift (Prog.call (M := vfs) (.close h))

/-- Runs `p` while owning the handle `h`: an error drops it. -/
def owning (h : Nat) (p : Io α) : Io α :=
  ExceptT.mk (p.run.bind fun
    | .ok a => .ret (.ok a)
    | .error e => (Prog.call (M := vfs) (.close h)).bind fun _ => .ret (.error e))

/-- A pure step that may fail. -/
def ofExcept (x : Except Error α) : Io α := ExceptT.mk (.ret x)

/-- A call whose error is dropped. -/
def ignoring (p : Io Unit) : Io Unit := ExceptT.mk (p.run.bind fun _ => .ret (.ok ()))

def deleteIfExists (path : Path) : Io Unit := do
  let found ← fileExists path
  if found then ignoring (delete path)

/-! ## One rule per call -/

section Rules

variable {β : Type} {fs : Fs} {C : Fs → Prop} {Q : Except Error β → Fs → Prop}

theorem wpc_pure {a : β} (hQ : Q (.ok a) fs) (hC : C fs) :
    Wpc (pure a : Io β).run fs Q C :=
  Wpc.ret hQ hC

/-- A call whose error is passed on. -/
theorem wpc_ofCall {p : Prog vfs (Except IoError α)} {k : α → Io β}
    (h : Wpc p fs (fun r s => match r with
      | .ok a => Wpc (k a).run s Q C
      | .error e => Q (.error (.io e)) s ∧ C s) C) : Wpc (ofCall p >>= k).run fs Q C := by
  refine Wpc.bindExcept (Wpc.bind (Wpc.mono h ?_ fun _ hc => hc))
  intro r s hr
  cases r with
  | ok a => exact Wpc.ret hr (hr.2 s (.here _ _))
  | error e => exact Wpc.ret hr hr.2

/-- One operation. -/
theorem wpc_call {o : VfsOp} {R : VfsOp.Res o → Fs → Prop} (hC : C fs)
    (htorn : ∀ t, Fs.torn fs o t → C t) (hR : R (Fs.exec fs o).2 (Fs.exec fs o).1)
    (hC' : C (Fs.exec fs o).1) : Wpc (Prog.call (M := vfs) o) fs R C :=
  Wpc.op hC htorn (Wpc.ret hR hC')

/-- A computation without calls. -/
theorem wpc_ofExcept {x : Except Error α} {a : α} {k : α → Io β} (hx : x = .ok a)
    (hk : Wpc (k a).run fs Q C) : Wpc (ofExcept x >>= k).run fs Q C := by
  subst hx
  exact hk

/-- Reading within a file. -/
theorem wpc_readAt {h f off len : Nat} {bs : Bytes} {k : Bytes → Io β}
    (hh : fs.handles h = some f) (hbs : slice (fs.files f).current off len = some bs)
    (hk : Wpc (k bs).run fs Q C) : Wpc (readAt h off len >>= k).run fs Q C := by
  have hC := hk.2 fs (.here _ _)
  have hexec : Fs.exec fs (.readAt h off len) = (fs, .ok bs) := by simp [Fs.exec, hh, hbs]
  refine wpc_ofCall (wpc_call hC (fun _ => False.elim) ?_ ?_) <;> rw [hexec]
  · exact hk
  · exact hC

/-- Reading a length. -/
theorem wpc_len {h f : Nat} {k : Nat → Io β} (hh : fs.handles h = some f)
    (hk : Wpc (k (fs.files f).current.length).run fs Q C) : Wpc (len h >>= k).run fs Q C := by
  have hC := hk.2 fs (.here _ _)
  have hexec : Fs.exec fs (.len h) = (fs, .ok (fs.files f).current.length) := by
    simp [Fs.exec, hh]
  refine wpc_ofCall (wpc_call hC (fun _ => False.elim) ?_ ?_) <;> rw [hexec]
  · exact hk
  · exact hC

/-- A write can be torn. -/
theorem wpc_writeAt {h f off : Nat} {buf : Bytes} {k : Unit → Io β}
    (hh : fs.handles h = some f) (hC : C fs)
    (htorn : C (fs.setFile f { fs.files f with inFlight := some (off, buf) }))
    (hk : Wpc (k ()).run (fs.setFile f ((fs.files f).write off buf)) Q C) :
    Wpc (writeAt h off buf >>= k).run fs Q C := by
  have hexec : Fs.exec fs (.writeAt h off buf) =
      (fs.setFile f ((fs.files f).write off buf), .ok ()) := by simp [Fs.exec, hh]
  have htorn' : ∀ t, Fs.torn fs (.writeAt h off buf) t → C t := by
    rintro t ⟨f', hf', rfl⟩
    rw [hh] at hf'
    cases hf'
    exact htorn
  refine wpc_ofCall (wpc_call hC htorn' ?_ ?_) <;> rw [hexec]
  · exact hk
  · exact hk.2 _ (.here _ _)

/-- After a sync the file survives as it is. -/
theorem wpc_sync {h f : Nat} {k : Unit → Io β} (hh : fs.handles h = some f) (hC : C fs)
    (hk : Wpc (k ()).run (fs.setFile f (fs.files f).sync) Q C) :
    Wpc (sync h >>= k).run fs Q C := by
  have hexec : Fs.exec fs (.sync h) = (fs.setFile f (fs.files f).sync, .ok ()) := by
    simp [Fs.exec, hh]
  refine wpc_ofCall (wpc_call hC (fun _ => False.elim) ?_ ?_) <;> rw [hexec]
  · exact hk
  · exact hk.2 _ (.here _ _)

/-- A truncation is not durable before a sync. -/
theorem wpc_truncate {h f len : Nat} {k : Unit → Io β} (hh : fs.handles h = some f) (hC : C fs)
    (hk : Wpc (k ()).run (fs.setFile f ((fs.files f).truncate len)) Q C) :
    Wpc (truncate h len >>= k).run fs Q C := by
  have hexec : Fs.exec fs (.truncate h len) = (fs.setFile f ((fs.files f).truncate len), .ok ()) := by
    simp [Fs.exec, hh]
  refine wpc_ofCall (wpc_call hC (fun _ => False.elim) ?_ ?_) <;> rw [hexec]
  · exact hk
  · exact hk.2 _ (.here _ _)

/-- Opening a file. -/
theorem wpc_openFile {path : Path} {mode : OpenMode} (fs' : Fs) (h : Nat) {k : Nat → Io β}
    (hexec : Fs.exec fs (.openFile path mode) = (fs', .ok h)) (hC : C fs)
    (hk : Wpc (k h).run fs' Q C) : Wpc (openFile path mode >>= k).run fs Q C := by
  refine wpc_ofCall (wpc_call hC (fun _ => False.elim) ?_ ?_) <;> rw [hexec]
  · exact hk
  · exact hk.2 _ (.here _ _)

/-- Locking a file that nobody has locked. -/
theorem wpc_tryLockExclusive {h f : Nat} {k : Bool → Io β} (hh : fs.handles h = some f)
    (hl : fs.locks f = none) (hC : C fs)
    (hk : Wpc (k true).run { fs with locks := Function.update fs.locks f (some h) } Q C) :
    Wpc (tryLockExclusive h >>= k).run fs Q C := by
  have hexec : Fs.exec fs (.tryLockExclusive h) =
      ({ fs with locks := Function.update fs.locks f (some h) }, .ok true) := by
    simp [Fs.exec, hh, hl]
  refine wpc_ofCall (wpc_call hC (fun _ => False.elim) ?_ ?_) <;> rw [hexec]
  · exact hk
  · exact hk.2 _ (.here _ _)

/-- Removing a name. -/
theorem wpc_delete {path : Path} {f : Nat} {k : Unit → Io β} (hn : fs.names path = some f)
    (hC : C fs) (hk : Wpc (k ()).run (fs.unlink path) Q C) :
    Wpc (delete path >>= k).run fs Q C := by
  have hexec : Fs.exec fs (.delete path) = (fs.unlink path, .ok ()) := by simp [Fs.exec, hn]
  refine wpc_ofCall (wpc_call hC (fun _ => False.elim) ?_ ?_) <;> rw [hexec]
  · exact hk
  · exact hk.2 _ (.here _ _)

/-- Asking for a name. -/
theorem wpc_fileExists {path : Path} {k : Bool → Io β}
    (hk : Wpc (k (fs.names path).isSome).run fs Q C) :
    Wpc (fileExists path >>= k).run fs Q C := by
  have hC := hk.2 fs (.here _ _)
  exact Wpc.bindExcept (Wpc.bind (wpc_call hC (fun _ => False.elim) (Wpc.ret hk hC) hC))

/-- A rename happens at once or not at all. -/
theorem wpc_rename {source target : Path} {f : Nat} (hname : fs.names source = some f)
    (hC : C fs)
    (hC' : C { fs with names := Function.update (Function.update fs.names source none) target (some f) }) :
    Wpc (rename source target).run fs (fun r s => ∃ u, r = .ok u ∧
      s = { fs with names := Function.update (Function.update fs.names source none) target (some f) }) C := by
  have hexec : Fs.exec fs (.rename source target) =
      ({ fs with names := Function.update (Function.update fs.names source none) target (some f) }, .ok ()) := by
    simp [Fs.exec, hname]
  rw [← bind_pure (rename source target)]
  refine wpc_ofCall (wpc_call hC (fun _ => False.elim) ?_ ?_) <;> rw [hexec]
  · exact wpc_pure ⟨(), rfl, rfl⟩ hC'
  · exact hC'

/-- A file that is gone, whether it was there or not. -/
theorem wpc_deleteIfExists {path : Path} (hC : C fs) (hC' : C (fs.unlink path)) :
    Wpc (deleteIfExists path).run fs (fun r s => ∃ u, r = .ok u ∧ s = fs.unlink path) C := by
  refine wpc_fileExists ?_
  cases hname : fs.names path with
  | none =>
      have hsame : fs.unlink path = fs := by
        unfold Fs.unlink
        rw [Function.update_eq_self_iff.mpr hname.symm]
      exact wpc_pure ⟨(), rfl, hsame.symm⟩ hC
  | some f =>
      rw [Option.isSome_some, if_pos rfl]
      unfold ignoring
      refine Wpc.bind ?_
      rw [← bind_pure (delete path)]
      exact wpc_delete hname hC (wpc_pure (Wpc.ret ⟨(), rfl, rfl⟩ hC') hC')

/-- Dropping a handle. -/
theorem wpc_close {h : Nat} {k : Unit → Io β} (hC : C fs)
    (hk : Wpc (k ()).run (Fs.exec fs (.close h)).1 Q C) :
    Wpc (close h >>= k).run fs Q C := by
  have hC' := hk.2 _ (.here _ _)
  exact Wpc.bindExcept (Wpc.bind (wpc_call hC (fun _ => False.elim) (Wpc.ret hk hC') hC'))

/-- A program that succeeds keeps the handle it owns. -/
theorem wpc_owning {h : Nat} {p : Io α} {R : α → Fs → Prop} {k : α → Io β}
    (hp : Wpc p.run fs (fun r s => ∃ a, r = .ok a ∧ R a s) C)
    (hk : ∀ a s, R a s → Wpc (k a).run s Q C) : Wpc (owning h p >>= k).run fs Q C := by
  refine Wpc.bindExcept (Wpc.bind (Wpc.mono hp ?_ fun _ hc => hc))
  rintro r s ⟨a, rfl, hr⟩
  have hk' := hk a s hr
  exact Wpc.ret hk' (hk'.2 s (.here _ _))

/-- Sequencing after a program that succeeds. -/
theorem wpc_seq {p : Io α} {R : α → Fs → Prop} {k : α → Io β}
    (hp : Wpc p.run fs (fun r s => ∃ a, r = .ok a ∧ R a s) C)
    (hk : ∀ a s, R a s → Wpc (k a).run s Q C) : Wpc (p >>= k).run fs Q C := by
  refine Wpc.bindExcept (Wpc.mono hp ?_ fun _ hc => hc)
  rintro r s ⟨a, rfl, hr⟩
  exact hk a s hr

end Rules

end Io

end EmbedMind
