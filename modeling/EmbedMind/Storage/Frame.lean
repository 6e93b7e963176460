import EmbedMind.Lib.Footprint
import EmbedMind.Storage.FailStop

/-!
# Stores beside each other

A program reaches files through names and through handles (`Reach`). One that calls the file
system with its own names, its own handles and those it is handed (`Stays`) leaves everything
alone that is reached by others (`Untouched`), wherever it is cut short. So a store that is
created, written, closed or opened beside another one does not disturb it: what is known of
the other store, running (`Live.untouched`), at rest or in the middle of a call, stays true.

Nothing in use is numbered beyond the counters (`Fs.Tidy`); this is why a new file or a new
handle belongs to nobody yet. It holds of every file system that a program or a power failure
leaves.
-/

namespace EmbedMind

open Lib

/-! ## File systems in which new numbers are free -/

/-- Files and handles in use are numbered below the next ones, and no file has two names. -/
structure Fs.Tidy (fs : Fs) : Prop extends fs.Wf where
  handles_lt : ∀ h f, fs.handles h = some f → h < fs.nextHandle ∧ f < fs.nextFile
  names_inj : ∀ path path' f, fs.names path = some f → fs.names path' = some f → path = path'

namespace Fs

variable {fs fs' : Fs}

theorem tidy_empty : Fs.empty.Tidy := ⟨Fs.wf_empty, by simp [Fs.empty], by simp [Fs.empty]⟩

theorem Tidy.setFile (h : fs.Tidy) (f : Nat) (file : File) : (fs.setFile f file).Tidy :=
  ⟨⟨h.names_lt, h.locks_lt⟩, h.handles_lt, h.names_inj⟩

/-- Fewer names. -/
theorem Tidy.names (h : fs.Tidy) {names : Path → Option Nat} (hnames : ∀ path f, names path = some f → fs.names path = some f) :
    { fs with names := names }.Tidy :=
  ⟨⟨fun path f hf => h.names_lt path f (hnames path f hf), h.locks_lt⟩, h.handles_lt,
    fun path path' f hf hf' => h.names_inj path path' f (hnames path f hf) (hnames path' f hf')⟩

/-- A name that is removed is no other. -/
theorem unlink_eq_some {path q : Path} {f : Nat} : (fs.unlink path).names q = some f ↔ q ≠ path ∧ fs.names q = some f := by
  unfold Fs.unlink
  dsimp only
  rw [Function.update_apply]
  split <;> simp_all

theorem Tidy.unlink (h : fs.Tidy) (path : Path) : (fs.unlink path).Tidy :=
  h.names fun _ _ hf => (unlink_eq_some.mp hf).2

/-- A handle on a file that is there. -/
theorem Tidy.addHandle (h : fs.Tidy) {f : Nat} (hf : f < fs.nextFile) : (fs.addHandle f).Tidy := by
  refine ⟨⟨h.names_lt, h.locks_lt⟩, ?_, h.names_inj⟩
  intro h' f' hh'
  simp only [Fs.addHandle, Function.update_apply] at hh' ⊢
  split at hh'
  · cases hh'
    exact ⟨by omega, hf⟩
  · rcases h.handles_lt h' f' hh' with ⟨h1, h2⟩
    exact ⟨by omega, h2⟩

theorem Tidy.addFile (h : fs.Tidy) (path : Path) : (fs.addFile path).Tidy := by
  refine ⟨⟨?_, ?_⟩, ?_, ?_⟩
  · intro q f hq
    simp only [Fs.addFile, Function.update_apply] at hq ⊢
    split at hq
    · cases hq
      omega
    · have hlt := h.names_lt q f hq
      omega
  · intro f hf
    simp only [Fs.addFile] at hf ⊢
    exact h.locks_lt f (by omega)
  · intro h' f hh'
    rcases h.handles_lt h' f hh' with ⟨h1, h2⟩
    exact ⟨h1, Nat.lt_succ_of_lt h2⟩
  · intro q q' f hq hq'
    simp only [Fs.addFile, Function.update_apply] at hq hq'
    split at hq <;> split at hq'
    · simp_all
    · cases hq
      exact absurd (h.names_lt q' _ hq') (lt_irrefl _)
    · cases hq'
      exact absurd (h.names_lt q _ hq) (lt_irrefl _)
    · exact h.names_inj q q' f hq hq'

/-- A file under another name. -/
theorem Tidy.rename (h : fs.Tidy) {source : Path} {f : Nat} (hn : fs.names source = some f) (target : Path) :
    { fs with names := Function.update (Function.update fs.names source none) target (some f) }.Tidy := by
  refine ⟨⟨?_, h.locks_lt⟩, h.handles_lt, ?_⟩
  · intro q f' hq
    simp only [Function.update_apply] at hq
    split at hq
    · cases hq
      exact h.names_lt source f hn
    · split at hq
      · cases hq
      · exact h.names_lt q f' hq
  · intro q q' f' hq hq'
    simp only [Function.update_apply] at hq hq'
    split at hq <;> split at hq'
    · simp_all
    · cases hq
      split at hq'
      · cases hq'
      · rename_i hne
        exact absurd (h.names_inj q' source f hq' hn) hne
    · cases hq'
      split at hq
      · cases hq
      · rename_i hne
        exact absurd (h.names_inj q source f hq hn) hne
    · split at hq
      · cases hq
      split at hq'
      · cases hq'
      exact h.names_inj q q' f' hq hq'

end Fs

/-- The handle on whose file a call works. -/
def VfsOp.handle : VfsOp → Option Nat
  | .writeAt h _ _ => some h
  | .sync h => some h
  | .truncate h _ => some h
  | .tryLockExclusive h => some h
  | .close h => some h
  | _ => none

/-- What a call can do to the file system, completed or cut short. -/
inductive Fs.Change (fs : Fs) : VfsOp → Fs → Prop where
  | same (o : VfsOp) : Change fs o fs
  | opened {path : Path} {mode : OpenMode} {f : Nat} (name : fs.names path = some f) :
      Change fs (.openFile path mode) (fs.addHandle f)
  | created (path : Path) (mode : OpenMode) : Change fs (.openFile path mode) ((fs.addFile path).addHandle fs.nextFile)
  | deleted (path : Path) : Change fs (.delete path) (fs.unlink path)
  | renamed {source : Path} {f : Nat} (target : Path) (name : fs.names source = some f) :
      Change fs (.rename source target)
        { fs with names := Function.update (Function.update fs.names source none) target (some f) }
  | wrote {o : VfsOp} {h f : Nat} (file : File) (handle : o.handle = some h) (on : fs.handles h = some f) :
      Change fs o (fs.setFile f file)
  | locked {h f : Nat} (on : fs.handles h = some f) :
      Change fs (.tryLockExclusive h) { fs with locks := Function.update fs.locks f (some h) }
  | closed {h f : Nat} (on : fs.handles h = some f) :
      Change fs (.close h)
        { fs with
          handles := Function.update fs.handles h none
          locks := if fs.locks f = some h then Function.update fs.locks f none else fs.locks }

namespace Fs

variable {fs fs' : Fs}

/-- A completed call changes what its handle and its names reach, and nothing else. -/
theorem exec_change (fs : Fs) (o : VfsOp) : fs.Change o (fs.exec o).1 := by
  cases o with
  | openFile path mode =>
      cases hname : fs.names path with
      | none =>
          cases mode <;> simp only [exec, hname]
          · exact .same _
          · exact .created path _
          · exact .created path _
      | some f =>
          cases mode <;> simp only [exec, hname]
          · exact .opened hname
          · exact .same _
          · exact .opened hname
  | delete path =>
      simp only [exec]
      split
      · exact .same _
      · exact .deleted path
  | fileExists path => exact .same _
  | rename source target =>
      simp only [exec]
      split
      · exact .same _
      · rename_i hname
        exact .renamed target hname
  | readAt h off len =>
      simp only [exec]
      split
      · exact .same _
      · split <;> exact .same _
  | writeAt h off buf =>
      simp only [exec]
      split
      · exact .same _
      · rename_i hon
        exact .wrote _ rfl hon
  | sync h =>
      simp only [exec]
      split
      · exact .same _
      · rename_i hon
        exact .wrote _ rfl hon
  | truncate h len =>
      simp only [exec]
      split
      · exact .same _
      · rename_i hon
        exact .wrote _ rfl hon
  | len h =>
      simp only [exec]
      split <;> exact .same _
  | tryLockExclusive h =>
      simp only [exec]
      split
      · exact .same _
      · rename_i hon
        split
        · exact .locked hon
        · exact .same _
  | close h =>
      simp only [exec]
      split
      · exact .same _
      · rename_i hon
        exact .closed hon

/-- So does a call that is cut short. -/
theorem torn_change {o : VfsOp} (h : fs.torn o fs') : fs.Change o fs' := by
  cases o with
  | writeAt hd off buf =>
      rcases h with ⟨f, hf, rfl⟩
      exact .wrote _ rfl hf
  | _ => exact h.elim

/-- Every call keeps it. -/
theorem Tidy.change (h : fs.Tidy) {o : VfsOp} (hchange : fs.Change o fs') : fs'.Tidy := by
  cases hchange with
  | same => exact h
  | opened name => exact h.addHandle (h.names_lt _ _ name)
  | created path mode => exact (h.addFile path).addHandle (Nat.lt_succ_self _)
  | deleted path => exact h.unlink path
  | renamed target name => exact h.rename name target
  | wrote file _ _ => exact h.setFile _ file
  | @locked hd f on =>
      refine ⟨⟨h.names_lt, ?_⟩, h.handles_lt, h.names_inj⟩
      intro f' hf'
      have hlt := (h.handles_lt hd f on).2
      dsimp only at hf' ⊢
      rw [Function.update_of_ne (by omega)]
      exact h.locks_lt f' hf'
  | @closed hd f on =>
      refine ⟨⟨h.names_lt, ?_⟩, ?_, h.names_inj⟩
      · intro f' hf'
        dsimp only at hf' ⊢
        split
        · rw [Function.update_apply]
          split
          · rfl
          · exact h.locks_lt f' hf'
        · exact h.locks_lt f' hf'
      · intro h' f' hh'
        simp only [Function.update_apply] at hh'
        split at hh'
        · cases hh'
        · exact h.handles_lt h' f' hh'

/-- A program keeps it to its end. -/
theorem Tidy.run {α : Type} (h : fs.Tidy) (p : Prog vfs α) : (p.run fs).1.Tidy := by
  induction p generalizing fs with
  | ret a => exact h
  | op o k ih => exact ih _ (h.change (fs.exec_change o))

theorem Tidy.of_run {α : Type} (h : fs.Tidy) {p : Prog vfs α} {a : α} (hrun : p.run fs = (fs', a)) : fs'.Tidy := by
  have ht := h.run p
  rw [hrun] at ht
  exact ht

/-- And wherever it is cut short. -/
theorem Tidy.interrupt {α : Type} {p : Prog vfs α} (h : fs.Tidy) (hcut : Prog.Interrupt p fs fs') : fs'.Tidy := by
  induction hcut with
  | here p s => exact h
  | torn o k s s' ht => exact h.change (torn_change ht)
  | later o k s s' _ ih => exact ih (h.change (s.exec_change o))

/-- After a power failure no handle is open. -/
theorem Tidy.crash {R : Runtime} (h : fs.Tidy) (hcrash : Crash R fs fs') : fs'.Tidy := by
  rcases hcrash.1 with ⟨hnames, hnext, _, hhandles, hlocks, _⟩
  refine ⟨⟨?_, fun f _ => hlocks f⟩, ?_, ?_⟩
  · intro path f hf
    rw [hnames] at hf
    rw [hnext]
    exact h.names_lt path f hf
  · intro hd f hf
    rw [hhandles] at hf
    cases hf
  · rw [hnames]
    exact h.names_inj

end Fs

/-! ## What is reached, and what is left alone -/

/-- The names and the handles through which someone reaches files. -/
structure Reach where
  names : Set Path
  handles : Set Nat

/-- The files that are reached. -/
def Reach.files (X : Reach) (fs : Fs) : Set Nat :=
  {f | (∃ path ∈ X.names, fs.names path = some f) ∨ ∃ h ∈ X.handles, fs.handles h = some f}

/-- What is reached through `Y` is the same in both file systems. -/
structure Untouched (Y : Reach) (fs fs' : Fs) : Prop where
  names : ∀ path ∈ Y.names, fs'.names path = fs.names path
  handles : ∀ h ∈ Y.handles, fs'.handles h = fs.handles h
  files : ∀ f ∈ Y.files fs, fs'.files f = fs.files f ∧ fs'.locks f = fs.locks f
  nextFile : fs.nextFile ≤ fs'.nextFile
  nextHandle : fs.nextHandle ≤ fs'.nextHandle

section Untouched

variable {Y Y' : Reach} {fs fs' fs'' : Fs}

theorem Untouched.refl (Y : Reach) (fs : Fs) : Untouched Y fs fs :=
  ⟨fun _ _ => rfl, fun _ _ => rfl, fun _ _ => ⟨rfl, rfl⟩, le_refl _, le_refl _⟩

/-- The same files are reached. -/
theorem Untouched.files_eq (h : Untouched Y fs fs') : Y.files fs' = Y.files fs := by
  ext f
  constructor
  · intro hf
    rcases hf with ⟨path, hin, hf⟩ | ⟨hd, hin, hf⟩
    · exact Or.inl ⟨path, hin, (h.names path hin).symm.trans hf⟩
    · exact Or.inr ⟨hd, hin, (h.handles hd hin).symm.trans hf⟩
  · intro hf
    rcases hf with ⟨path, hin, hf⟩ | ⟨hd, hin, hf⟩
    · exact Or.inl ⟨path, hin, (h.names path hin).trans hf⟩
    · exact Or.inr ⟨hd, hin, (h.handles hd hin).trans hf⟩

theorem Untouched.trans (h : Untouched Y fs fs') (h' : Untouched Y fs' fs'') : Untouched Y fs fs'' where
  names := fun path hin => (h'.names path hin).trans (h.names path hin)
  handles := fun hd hin => (h'.handles hd hin).trans (h.handles hd hin)
  files := by
    intro f hf
    rcases h.files f hf with ⟨h1, h2⟩
    rcases h'.files f (h.files_eq ▸ hf) with ⟨h3, h4⟩
    exact ⟨h3.trans h1, h4.trans h2⟩
  nextFile := le_trans h.nextFile h'.nextFile
  nextHandle := le_trans h.nextHandle h'.nextHandle

/-- A part of it. -/
theorem Untouched.mono (h : Untouched Y fs fs') (hnames : Y'.names ⊆ Y.names) (hhandles : Y'.handles ⊆ Y.handles) :
    Untouched Y' fs fs' where
  names := fun path hin => h.names path (hnames hin)
  handles := fun hd hin => h.handles hd (hhandles hin)
  files := by
    intro f hf
    refine h.files f ?_
    rcases hf with ⟨path, hin, hf⟩ | ⟨hd, hin, hf⟩
    · exact Or.inl ⟨path, hnames hin, hf⟩
    · exact Or.inr ⟨hd, hhandles hin, hf⟩
  nextFile := h.nextFile
  nextHandle := h.nextHandle

/-- A change of one file that is not reached. -/
theorem untouched_setFile {f : Nat} {file : File} (hf : f ∉ Y.files fs) : Untouched Y fs (fs.setFile f file) where
  names := fun _ _ => rfl
  handles := fun _ _ => rfl
  files := by
    intro f' hf'
    have hne : f' ≠ f := fun heq => hf (heq ▸ hf')
    exact ⟨by rw [Fs.setFile_files, Function.update_of_ne hne], rfl⟩
  nextFile := le_refl _
  nextHandle := le_refl _

/-- A change of names that are not reached through. -/
theorem untouched_names {names : Path → Option Nat} (h : ∀ path ∈ Y.names, names path = fs.names path) :
    Untouched Y fs { fs with names := names } :=
  ⟨h, fun _ _ => rfl, fun _ _ => ⟨rfl, rfl⟩, le_refl _, le_refl _⟩

/-- Removing a name leaves what has other names. -/
theorem untouched_unlink {path : Path} (h : path ∉ Y.names) : Untouched Y fs (fs.unlink path) :=
  untouched_names fun _ hin => Function.update_of_ne (ne_of_mem_of_not_mem hin h) _ _

/-- A new handle. -/
theorem untouched_addHandle (hY : ∀ h ∈ Y.handles, h < fs.nextHandle) (f : Nat) : Untouched Y fs (fs.addHandle f) where
  names := fun _ _ => rfl
  handles := fun hd hin => Function.update_of_ne (Nat.ne_of_lt (hY hd hin)) _ _
  files := fun _ _ => ⟨rfl, rfl⟩
  nextFile := le_refl _
  nextHandle := Nat.le_succ _

/-- A new file. -/
theorem untouched_addFile (hfs : fs.Tidy) {path : Path} (h : path ∉ Y.names) : Untouched Y fs (fs.addFile path) where
  names := fun _ hin => Function.update_of_ne (ne_of_mem_of_not_mem hin h) _ _
  handles := fun _ _ => rfl
  files := by
    intro f hf
    have hlt : f < fs.nextFile := by
      rcases hf with ⟨q, _, hf⟩ | ⟨hd, _, hf⟩
      · exact hfs.names_lt q f hf
      · exact (hfs.handles_lt hd f hf).2
    exact ⟨Function.update_of_ne (Nat.ne_of_lt hlt) _ _, rfl⟩
  nextFile := Nat.le_succ _
  nextHandle := le_refl _

end Untouched

/-- Its handles are open, on files that its names refer to. -/
def Reach.Sound (X : Reach) (fs : Fs) : Prop :=
  ∀ h ∈ X.handles, ∃ f, fs.handles h = some f ∧ ∃ path ∈ X.names, fs.names path = some f

section Sound

variable {X Y : Reach} {fs : Fs}

/-- What is reached has a name. -/
theorem Reach.Sound.named (h : X.Sound fs) {f : Nat} (hf : f ∈ X.files fs) : ∃ path ∈ X.names, fs.names path = some f := by
  rcases hf with hname | ⟨hd, hin, hf⟩
  · exact hname
  · rcases h hd hin with ⟨f', hf', hname⟩
    rw [hf] at hf'
    cases hf'
    exact hname

/-- Other names, other files. -/
theorem Reach.Sound.apart (h : X.Sound fs) (hY : Y.Sound fs) (hfs : fs.Tidy) (hnames : ∀ path ∈ X.names, path ∉ Y.names)
    {f : Nat} (hf : f ∈ X.files fs) : f ∉ Y.files fs := by
  intro hf'
  rcases h.named hf with ⟨path, hin, hname⟩
  rcases hY.named hf' with ⟨path', hin', hname'⟩
  exact hnames path hin (hfs.names_inj path path' f hname hname' ▸ hin')

/-- Other names, other handles. -/
theorem Reach.Sound.handles_apart (h : X.Sound fs) (hY : Y.Sound fs) (hfs : fs.Tidy)
    (hnames : ∀ path ∈ X.names, path ∉ Y.names) {hd : Nat} (hin : hd ∈ X.handles) : hd ∉ Y.handles := by
  intro hin'
  rcases h hd hin with ⟨f, hf, _⟩
  exact h.apart hY hfs hnames (Or.inr ⟨hd, hin, hf⟩) (Or.inr ⟨hd, hin', hf⟩)

/-- Its handles are in use. -/
theorem Reach.Sound.handles_lt (h : X.Sound fs) (hfs : fs.Tidy) {hd : Nat} (hin : hd ∈ X.handles) : hd < fs.nextHandle := by
  rcases h hd hin with ⟨f, hf, _⟩
  exact (hfs.handles_lt hd f hf).1

/-- More names. -/
theorem Reach.Sound.mono (h : X.Sound fs) {N : Set Path} (hN : X.names ⊆ N) : (Reach.mk N X.handles).Sound fs := by
  intro hd hin
  rcases h hd hin with ⟨f, hf, path, hpath, hname⟩
  exact ⟨f, hf, path, hN hpath, hname⟩

/-- What is left alone stays sound. -/
theorem Reach.Sound.untouched {fs' : Fs} (h : X.Sound fs) (hu : Untouched X fs fs') : X.Sound fs' := by
  intro hd hin
  rcases h hd hin with ⟨f, hf, path, hpath, hname⟩
  exact ⟨f, (hu.handles hd hin).trans hf, path, hpath, (hu.names path hpath).trans hname⟩

/-- Names alone. -/
theorem Reach.sound_names (N : Set Path) (fs : Fs) : (Reach.mk N ∅).Sound fs := fun _ hin => absurd hin (Set.notMem_empty _)

end Sound

/-! ## The frame rule -/

/-- A call with one of these names or handles. -/
def VfsOp.Uses (N : Set Path) (A : Set Nat) : VfsOp → Prop
  | .openFile path _ => path ∈ N
  | .delete path => path ∈ N
  | .fileExists path => path ∈ N
  | .rename source target => source ∈ N ∧ target ∈ N
  | .readAt h _ _ => h ∈ A
  | .writeAt h _ _ => h ∈ A
  | .sync h => h ∈ A
  | .truncate h _ => h ∈ A
  | .len h => h ∈ A
  | .tryLockExclusive h => h ∈ A
  | .close h => h ∈ A

/-- The handle it works on is one of them. -/
theorem VfsOp.Uses.handle {N : Set Path} {A : Set Nat} {o : VfsOp} (h : o.Uses N A) {hd : Nat} (hhandle : o.handle = some hd) :
    hd ∈ A := by
  cases o <;> first | cases hhandle; exact h | cases hhandle

/-- The handles that are owned after a call: an opening hands out a new one. -/
def VfsOp.grow (A : Set Nat) : (o : VfsOp) → o.Res → Set Nat
  | .openFile _ _, .ok h => insert h A
  | _, _ => A

/-- The names `N` and the handles that are owned. -/
def vfsUsage (N : Set Path) : Usage vfs Nat where
  allows := VfsOp.Uses N
  grow := VfsOp.grow
  subset_grow := by
    intro A o r
    cases o with
    | openFile path mode =>
        cases r with
        | ok h => exact Set.subset_insert h A
        | error e => exact Set.Subset.refl A
    | _ => exact Set.Subset.refl A

/-- Between the programs of `N` with the handles `A` and what is reached through `Y`: from `fs₀` to `fs` nothing of `Y`
was touched, and no file is reached from both sides. -/
structure Framed (N : Set Path) (Y : Reach) (fs₀ : Fs) (A : Set Nat) (fs : Fs) : Prop where
  tidy : fs.Tidy
  untouched : Untouched Y fs₀ fs
  apart : ∀ f ∈ (Reach.mk N A).files fs, f ∉ Y.files fs
  handles : ∀ h ∈ A, h ∉ Y.handles
  bound : ∀ h ∈ Y.handles, h < fs.nextHandle

section Framed

variable {N : Set Path} {Y : Reach} {fs₀ fs fs' : Fs} {A A' : Set Nat}

/-- A change by a call of its own leaves the others alone. -/
theorem Framed.untouched_change (h : Framed N Y fs₀ A fs) (hN : ∀ path ∈ N, path ∉ Y.names) {o : VfsOp}
    (ho : o.Uses N A) (hchange : fs.Change o fs') : Untouched Y fs fs' := by
  -- the file behind one of its handles is not reached from the other side
  have hown : ∀ {hd f : Nat}, o.handle = some hd → fs.handles hd = some f → ∀ f' ∈ Y.files fs, f' ≠ f :=
    fun hhandle hf f' hf' heq => h.apart _ (Or.inr ⟨_, ho.handle hhandle, hf⟩) (heq ▸ hf')
  cases hchange with
  | same => exact .refl Y fs
  | opened name => exact untouched_addHandle h.bound _
  | created path mode =>
      have hbound : ∀ hd ∈ Y.handles, hd < (fs.addFile path).nextHandle := h.bound
      exact (untouched_addFile h.tidy (hN path ho)).trans (untouched_addHandle hbound _)
  | deleted path => exact untouched_unlink (hN path ho)
  | @renamed source f target name =>
      refine untouched_names ?_
      intro q hq
      rw [Function.update_of_ne (ne_of_mem_of_not_mem hq (hN target ho.2)),
        Function.update_of_ne (ne_of_mem_of_not_mem hq (hN source ho.1))]
  | wrote file hhandle on => exact untouched_setFile fun hf => hown hhandle on _ hf rfl
  | locked on =>
      refine ⟨fun _ _ => rfl, fun _ _ => rfl, ?_, le_refl _, le_refl _⟩
      exact fun f' hf' => ⟨rfl, Function.update_of_ne (hown rfl on f' hf') _ _⟩
  | @closed hd f on =>
      refine ⟨fun _ _ => rfl, ?_, ?_, le_refl _, le_refl _⟩
      · exact fun h' hin => Function.update_of_ne (ne_of_mem_of_not_mem hin (h.handles hd ho)) _ _
      · intro f' hf'
        refine ⟨rfl, ?_⟩
        dsimp only
        split
        · exact Function.update_of_ne (hown rfl on f' hf') _ _
        · rfl

/-- A change by a call of its own makes it reach no other file, but for a new one. -/
theorem Framed.reach_change (h : Framed N Y fs₀ A fs) {o : VfsOp} (ho : o.Uses N A) (hchange : fs.Change o fs')
    (hA : ∀ hd ∈ A', hd ∈ A ∨ fs.nextHandle ≤ hd) {f : Nat} (hf : f ∈ (Reach.mk N A').files fs') :
    f ∈ (Reach.mk N A).files fs ∨ fs.nextFile ≤ f := by
  -- a handle of the program, or one opened since
  have hold : ∀ {hd : Nat}, hd ∈ A' → fs.handles hd = some f → f ∈ (Reach.mk N A).files fs ∨ fs.nextFile ≤ f := by
    intro hd hin hf
    rcases hA hd hin with hin | hnew
    · exact Or.inl (Or.inr ⟨hd, hin, hf⟩)
    · exact absurd (h.tidy.handles_lt hd f hf).1 (not_lt.mpr hnew)
  have hname : ∀ {q : Path}, q ∈ N → fs.names q = some f → f ∈ (Reach.mk N A).files fs ∨ fs.nextFile ≤ f :=
    fun hin hf => Or.inl (Or.inl ⟨_, hin, hf⟩)
  have hkept : f ∈ (Reach.mk N A').files fs → f ∈ (Reach.mk N A).files fs ∨ fs.nextFile ≤ f := by
    intro hf
    rcases hf with ⟨q, hq, hf⟩ | ⟨hd, hin, hf⟩
    · exact hname hq hf
    · exact hold hin hf
  cases hchange with
  | same => exact hkept hf
  | @opened path mode g name =>
      rcases hf with ⟨q, hq, hf⟩ | ⟨hd, hin, hf⟩
      · exact hname hq hf
      · simp only [Fs.addHandle, Function.update_apply] at hf
        split at hf
        · cases hf
          exact hname ho name
        · exact hold hin hf
  | created path mode =>
      rcases hf with ⟨q, hq, hf⟩ | ⟨hd, hin, hf⟩
      · simp only [Fs.addHandle, Fs.addFile, Function.update_apply] at hf
        split at hf
        · cases hf
          exact Or.inr (le_refl _)
        · exact hname hq hf
      · simp only [Fs.addHandle, Fs.addFile, Function.update_apply] at hf
        split at hf
        · cases hf
          exact Or.inr (le_refl _)
        · exact hold hin hf
  | deleted path =>
      rcases hf with ⟨q, hq, hf⟩ | ⟨hd, hin, hf⟩
      · exact hname hq (Fs.unlink_eq_some.mp hf).2
      · exact hold hin hf
  | @renamed source g target name =>
      rcases hf with ⟨q, hq, hf⟩ | ⟨hd, hin, hf⟩
      · simp only [Function.update_apply] at hf
        split at hf
        · cases hf
          exact hname ho.1 name
        · split at hf
          · cases hf
          · exact hname hq hf
      · exact hold hin hf
  | wrote file hhandle on => exact hkept hf
  | locked on => exact hkept hf
  | closed on =>
      rcases hf with ⟨q, hq, hf⟩ | ⟨hd, hin, hf⟩
      · exact hname hq hf
      · simp only [Function.update_apply] at hf
        split at hf
        · cases hf
        · exact hold hin hf

/-- After a call of its own, with what it has been handed. -/
theorem Framed.change (h : Framed N Y fs₀ A fs) (hN : ∀ path ∈ N, path ∉ Y.names) {o : VfsOp} (ho : o.Uses N A)
    (hchange : fs.Change o fs') (hA : ∀ hd ∈ A', hd ∈ A ∨ fs.nextHandle ≤ hd) : Framed N Y fs₀ A' fs' := by
  have hu := h.untouched_change hN ho hchange
  refine ⟨h.tidy.change hchange, h.untouched.trans hu, ?_, ?_, fun hd hin => lt_of_lt_of_le (h.bound hd hin) hu.nextHandle⟩
  · intro f hf hY
    rw [hu.files_eq] at hY
    rcases h.reach_change ho hchange hA hf with hold | hnew
    · exact h.apart f hold hY
    · rcases hY with ⟨path, _, hf⟩ | ⟨hd, _, hf⟩
      · exact absurd (h.tidy.names_lt path f hf) (not_lt.mpr hnew)
      · exact absurd (h.tidy.handles_lt hd f hf).2 (not_lt.mpr hnew)
  · intro hd hin hY
    rcases hA hd hin with hold | hnew
    · exact h.handles hd hold hY
    · exact absurd (h.bound hd hY) (not_lt.mpr hnew)

/-- An opening hands out the next handle. -/
theorem Fs.exec_openFile (fs : Fs) (path : Path) (mode : OpenMode) :
    (fs.exec (.openFile path mode)).2 = .ok fs.nextHandle ∨ ∃ e, (fs.exec (.openFile path mode)).2 = .error e := by
  cases hname : fs.names path with
  | none =>
      cases mode <;> simp only [Fs.exec, hname]
      · exact Or.inr ⟨_, rfl⟩
      · exact Or.inl rfl
      · exact Or.inl rfl
  | some f =>
      cases mode <;> simp only [Fs.exec, hname]
      · exact Or.inl rfl
      · exact Or.inr ⟨_, rfl⟩
      · exact Or.inl rfl

/-- A handle that a call returns is a new one. -/
theorem Fs.grow_exec (fs : Fs) (A : Set Nat) (o : VfsOp) :
    ∀ hd ∈ VfsOp.grow A o (fs.exec o).2, hd ∈ A ∨ fs.nextHandle ≤ hd := by
  intro hd hin
  cases o with
  | openFile path mode =>
      rcases fs.exec_openFile path mode with hok | ⟨e, herr⟩
      · rw [hok] at hin
        rcases Set.mem_insert_iff.mp hin with rfl | hin
        · exact Or.inr (le_refl _)
        · exact Or.inl hin
      · rw [herr] at hin
        exact Or.inl hin
  | _ => exact Or.inl hin

/-- Every call with its own names and handles leaves the others alone. -/
theorem framed_keeps (hN : ∀ path ∈ N, path ∉ Y.names) : (vfsUsage N).Keeps (Framed N Y fs₀) where
  exec := fun A fs o h ho => h.change hN ho (fs.exec_change o) (fs.grow_exec A o)
  torn := fun _ _ _ _ h ho ht => h.change hN ho (Fs.torn_change ht) fun _ => Or.inl

end Framed

end EmbedMind
