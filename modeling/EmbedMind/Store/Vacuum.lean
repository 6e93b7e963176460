import EmbedMind.Storage.Beside
import EmbedMind.Store.Rebuild

/-!
# A vacuum and its files (`api.rs`)

`vacuum` builds the compacted copy beside the store and ends with a swap: while the pager is
parked on a scratch store, the store is closed, its empty log is deleted, the copy is renamed
over it, and the pager is opened on the new file. Up to the renaming the store under the path is
the old one, from then on it is the compacted one (`wpc_vacuumFiles`), so a power failure anywhere
in a vacuum loses no live memory.

What is done beside the store does not disturb it; this is the frame rule of
`Storage/Frame.lean`, used for each phase with what the phase does not touch.
-/

namespace EmbedMind

open Lib Lib.Assoc

/-! ## The files beside a store -/

/-- Where `vacuum` builds the copy. -/
def vacuumTmpPath (path : Path) : Path := path ++ "-vacuum-tmp"

/-- Where the pager is parked during the swap. -/
def vacuumScratchPath (path : Path) : Path := path ++ "-vacuum-scratch"

/-- What a vacuum that was cut short leaves beside the store. -/
def vacuumOrphans (path : Path) : List Path :=
  [vacuumTmpPath path, walPathFor (vacuumTmpPath path), vacuumScratchPath path, walPathFor (vacuumScratchPath path)]

/-- `vacuum` deletes them first; one that stays would stop the creation of the copy. -/
def clearOrphans : List Path → Io Unit
  | [] => pure ()
  | orphan :: rest => do
      let found ← Io.fileExists orphan
      if found then Io.delete orphan
      clearOrphans rest

/-- `open` sweeps them away before it opens the pager; what cannot be deleted stays. -/
def sweepOrphans : List Path → Io Unit
  | [] => pure ()
  | orphan :: rest => do
      Io.deleteIfExists orphan
      sweepOrphans rest

/-! ## The calls of a vacuum -/

/-- A commit of the copy; one that fails drops it. -/
def commitOrDrop (R : Runtime) (p : Pager) (salt : UInt64) (t : Txn) : Io Pager :=
  ExceptT.mk ((p.commitTxn R salt t.dirty t.pageCount t.pending).bind fun (p, committed) =>
    match committed with
    | .ok _ => .ret (.ok p)
    | .error e => p.drop.run.bind fun _ => .ret (.error e))

/-- The commits of the copy, each with the salt of its log if it starts one. -/
def commitAll (R : Runtime) (p : Pager) : List (UInt64 × Txn) → Io Pager
  | [] => pure p
  | (salt, t) :: rest => do
      let p ← commitOrDrop R p salt t
      commitAll R p rest

/-- `build_compacted`: a new store, the transactions of the compaction, and its close. The source is only read, which
leaves the files as they are; `result` is how the copying of the memories ends. -/
def buildFile (R : Runtime) (dest : Path) (opts : PagerOptions) (txns : List (UInt64 × Txn)) (result : Except Error Unit) :
    Io Unit := do
  let dst ← Pager.create R dest opts
  let dst ← commitAll R dst txns
  match result with
  | .ok () => dst.close R
  | .error e => do
      dst.drop
      throw e

/-- What is left of a copy that failed is removed. -/
def removeTmp (path : Path) : Io Unit := do
  Io.ignoring (Io.delete (vacuumTmpPath path))
  Io.deleteIfExists (walPathFor (vacuumTmpPath path))

/-- The swap of `vacuum`, with the store and the copy closed: the empty log goes, the copy takes the store's name. -/
def swapVacuumed (path : Path) : Io Unit := do
  Io.deleteIfExists (walPathFor path)
  Io.rename (vacuumTmpPath path) path
  Io.deleteIfExists (walPathFor (vacuumTmpPath path))

/-- The pager is released and the files are swapped. -/
def replaceStore (path : Path) (p : Pager) : Io Unit := do
  p.drop
  swapVacuumed path

/-- The scratch store goes, whether the calls succeed or not. -/
def dropParked (R : Runtime) (path : Path) (parked : Pager) : Io Unit := do
  Io.ignoring (parked.close R)
  Io.ignoring (Io.delete (vacuumScratchPath path))

/-- What `vacuum` does before the swap, with the transactions of its compaction: the store is flushed, the copy is built,
and a pager is parked. An error comes with the pager of the store. -/
def parkStore (R : Runtime) (path : Path) (txns : List (UInt64 × Txn)) (result : Except Error Unit) (p : Pager) :
    Prog vfs (Except (Pager × Error) (PagerOptions × Pager × Pager)) :=
  (clearOrphans (vacuumOrphans path)).run.bind fun
    | .error e => .ret (.error (p, e))
    | .ok () => (p.checkpoint R).bind fun
      | (p, .error e) => .ret (.error (p, e))
      | (p, .ok ()) =>
          let opts : PagerOptions := { pageSize := p.header.pageSize, checkpointThreshold := p.checkpointThreshold }
          (buildFile R (vacuumTmpPath path) opts txns result).run.bind fun
            | .error e => (removeTmp path).run.bind fun _ => .ret (.error (p, e))
            | .ok () => (Pager.create R (vacuumScratchPath path) opts).run.bind fun
              | .error e => .ret (.error (p, e))
              | .ok parked => .ret (.ok (opts, p, parked))

/-- `vacuum`. The pager that comes back is the one that the store has afterwards: the parked one, if the swap fails. -/
def vacuumFiles (R : Runtime) (path : Path) (txns : List (UInt64 × Txn)) (result : Except Error Unit) (p : Pager) :
    Prog vfs (Pager × Except Error Unit) :=
  (parkStore R path txns result p).bind fun
    | .error (p, e) => .ret (p, .error e)
    | .ok (opts, p, parked) =>
        (do replaceStore path p; Pager.openStore R path opts : Io Pager).run.bind fun
          | .error e => .ret (parked, .error e)
          | .ok reopened => (dropParked R path parked).run.bind fun _ => .ret (reopened, .ok ())

/-! ## Names -/

section Names

/-- The siblings of a path with these endings. -/
def siblings (path : Path) (endings : List String) : Set Path := {q | ∃ s ∈ endings, q = path ++ s}

/-- Paths with different endings are different. -/
theorem siblings_apart {endings others : List String} (h : ∀ s ∈ endings, s ∉ others) (path q : Path)
    (hq : q ∈ siblings path endings) : q ∉ siblings path others := by
  intro hq'
  rcases hq with ⟨s, hs, rfl⟩
  rcases hq' with ⟨s', hs', heq⟩
  exact h s hs ((String.append_right_inj path).mp heq ▸ hs')

/-- The names of a store, by their endings. -/
theorem storeNames_eq (path : Path) : storeNames path = siblings path ["", "-wal"] := by
  ext q
  simp [storeNames, siblings, walPathFor]

/-- The names of a store beside it. -/
theorem storeNames_sibling (path : Path) (s : String) : storeNames (path ++ s) = siblings path [s, s ++ "-wal"] := by
  ext q
  simp [storeNames, siblings, walPathFor, String.append_assoc]

theorem siblings_union (path : Path) (endings others : List String) :
    siblings path endings ∪ siblings path others = siblings path (endings ++ others) := by
  ext q
  simp [siblings, or_and_right, exists_or]

variable (path : Path)

/-- The names of the copy are not those of the store or of the scratch store. -/
theorem tmp_apart : ∀ q ∈ storeNames (vacuumTmpPath path),
    q ∉ storeNames path ∪ storeNames (vacuumScratchPath path) := by
  unfold vacuumTmpPath vacuumScratchPath
  rw [storeNames_eq path, storeNames_sibling, storeNames_sibling, siblings_union]
  exact siblings_apart (by decide) path

/-- Nor are the names of the scratch store those of the other two. -/
theorem scratch_apart : ∀ q ∈ storeNames (vacuumScratchPath path),
    q ∉ storeNames path ∪ storeNames (vacuumTmpPath path) := by
  unfold vacuumTmpPath vacuumScratchPath
  rw [storeNames_eq path, storeNames_sibling, storeNames_sibling, siblings_union]
  exact siblings_apart (by decide) path

/-- Nor those of the store. -/
theorem path_apart : ∀ q ∈ storeNames path,
    q ∉ storeNames (vacuumTmpPath path) ∪ storeNames (vacuumScratchPath path) := by
  unfold vacuumTmpPath vacuumScratchPath
  rw [storeNames_eq path, storeNames_sibling, storeNames_sibling, siblings_union]
  exact siblings_apart (by decide) path

/-- What the swap touches is apart from the scratch store. -/
theorem swapped_apart : ∀ q ∈ storeNames path ∪ storeNames (vacuumTmpPath path),
    q ∉ storeNames (vacuumScratchPath path) := by
  unfold vacuumTmpPath vacuumScratchPath
  rw [storeNames_eq path, storeNames_sibling, storeNames_sibling, siblings_union]
  exact siblings_apart (by decide) path

/-- The orphans are the files of the copy and of the scratch store. -/
theorem mem_vacuumOrphans {path q : Path} :
    q ∈ vacuumOrphans path ↔ q ∈ storeNames (vacuumTmpPath path) ∪ storeNames (vacuumScratchPath path) := by
  simp only [vacuumOrphans, storeNames, List.mem_cons, List.not_mem_nil, or_false, Set.mem_union, Set.mem_insert_iff,
    Set.mem_singleton_iff, or_assoc]

end Names

/-! ## The swap -/

section Swap

variable {H : Xxh3} {c c' : Committed} {path : Path} {fs : Fs} {fm fm' : Nat} {main main' : Bytes}

theorem tmp_ne_wal (path : Path) : vacuumTmpPath path ≠ walPathFor path :=
  fun h => tmp_apart path _ (path_mem_storeNames _) (Or.inl (h ▸ wal_mem_storeNames path))

theorem tmpWal_ne (path : Path) : walPathFor (vacuumTmpPath path) ≠ path :=
  fun h => tmp_apart path _ (wal_mem_storeNames _) (Or.inl (h.symm ▸ path_mem_storeNames path))

theorem wal_ne_tmpWal (path : Path) : walPathFor path ≠ walPathFor (vacuumTmpPath path) :=
  fun h => tmp_apart path _ (wal_mem_storeNames _) (Or.inl (h ▸ wal_mem_storeNames path))

/-- A store without a log file, all of it in the main file. -/
theorem atRest_of_noWal (hname : fs.names path = some fm) (hlt : fm < fs.nextFile)
    (hwal : fs.names (walPathFor path) = none) (hlock : fs.locks fm = none) (hmain : fs.files fm = File.clean main)
    (hr : Recoverable H c main []) : AtRest H c path fs fm main [] where
  name := hname
  name_lt := hlt
  wal_ne := by simp [hwal]
  unlocked := hlock
  main_eq := hmain
  wal_eq := by
    unfold walFile
    rw [hwal]
    rfl
  recoverable := hr

/-- The store is the old one up to the renaming, and the copy from then on. -/
theorem wpc_swapVacuumed {R : Runtime} (h : AtRest R.xxh c path fs fm main [])
    (h' : AtRest R.xxh c' (vacuumTmpPath path) fs fm' main' []) :
    Wpc (swapVacuumed path).run fs (fun r s => ∃ u, r = .ok u ∧ AtRest R.xxh c' path s fm' main' [])
      (CrashOk R.xxh (fun x => x = c ∨ x = c') path) := by
  have hunlogged : AtRest R.xxh c path (fs.unlink (walPathFor path)) fm main [] := by
    refine atRest_of_noWal ?_ h.name_lt ?_ h.unlocked h.main_eq h.recoverable
    · unfold Fs.unlink
      dsimp only
      rw [Function.update_of_ne (walPathFor_ne path).symm, h.name]
    · simp [Fs.unlink]
  have hcopy : (fs.unlink (walPathFor path)).names (vacuumTmpPath path) = some fm' := by
    unfold Fs.unlink
    dsimp only
    rw [Function.update_of_ne (tmp_ne_wal path), h'.name]
  unfold swapVacuumed
  -- without its log the store is still the old one
  refine Io.wpc_seq (Io.wpc_deleteIfExists ?_ ?_) ?_
  · exact h.crashOk.mono fun _ hx => Or.inl hx
  · exact hunlogged.crashOk.mono fun _ hx => Or.inl hx
  intro _ s hs
  subst hs
  -- the copy under the store's name, before and after its own log is deleted
  have hswapped : ∀ names : Path → Option Nat, names path = some fm' → names (walPathFor path) = none →
      AtRest R.xxh c' path { fs.unlink (walPathFor path) with names := names } fm' main' [] :=
    fun names hname hwal => atRest_of_noWal hname h'.name_lt hwal h'.unlocked h'.main_eq h'.recoverable
  have hrenamed := hswapped
    (Function.update (Function.update (fs.unlink (walPathFor path)).names (vacuumTmpPath path) none) path (some fm'))
    (Function.update_self ..)
    (by
      rw [Function.update_of_ne (walPathFor_ne path), Function.update_of_ne (tmp_ne_wal path).symm]
      simp [Fs.unlink])
  -- the renaming is the only step that changes what the path holds
  refine Io.wpc_seq (Io.wpc_rename hcopy ?_ ?_) ?_
  · exact hunlogged.crashOk.mono fun _ hx => Or.inl hx
  · exact hrenamed.crashOk.mono fun _ hx => Or.inr hx
  intro _ s hs
  subst hs
  have hdone := hswapped
    (Function.update (Function.update (Function.update (fs.unlink (walPathFor path)).names (vacuumTmpPath path) none)
      path (some fm')) (walPathFor (vacuumTmpPath path)) none)
    (by rw [Function.update_of_ne (tmpWal_ne path).symm, Function.update_self])
    (by
      rw [Function.update_of_ne (wal_ne_tmpWal path), Function.update_of_ne (walPathFor_ne path),
        Function.update_of_ne (tmp_ne_wal path).symm]
      simp [Fs.unlink])
  refine Wpc.mono (Io.wpc_deleteIfExists ?_ ?_) ?_ fun _ hc => hc
  · exact hrenamed.crashOk.mono fun _ hx => Or.inr hx
  · exact hdone.crashOk.mono fun _ hx => Or.inr hx
  · intro r s hr
    rcases hr with ⟨u, hu, hs⟩
    subst hs
    exact ⟨u, hu, hdone⟩

end Swap

/-! ## The parts of a vacuum -/

section Parts

variable {R : Runtime} {path : Path} {fs : Fs} {c c' : Committed} {p : Pager} {fm fw : Nat} {main log : Bytes}

/-- After the clearing none of the names is left. -/
theorem wpc_clearOrphans (orphans : List Path) (fs : Fs) :
    Wpc (clearOrphans orphans).run fs (fun r s => ∃ u, r = .ok u ∧ (∀ q ∈ orphans, s.names q = none) ∧
      ∀ q, fs.names q = none → s.names q = none) fun _ => True := by
  induction orphans generalizing fs with
  | nil => exact Io.wpc_pure ⟨(), rfl, by simp, fun _ => id⟩ trivial
  | cons orphan rest ih =>
      -- the name is free, before or after the call; and no later call makes a name
      have hrest : ∀ s : Fs, s.names orphan = none → (∀ q, fs.names q = none → s.names q = none) →
          Wpc (clearOrphans rest).run s (fun r t => ∃ u, r = .ok u ∧ (∀ q ∈ orphan :: rest, t.names q = none) ∧
            ∀ q, fs.names q = none → t.names q = none) fun _ => True := by
        intro s hfree hkept
        refine (ih s).mono ?_ fun _ _ => trivial
        intro r t hr
        rcases hr with ⟨u, hu, hall, hkept'⟩
        refine ⟨u, hu, ?_, fun q hq => hkept' q (hkept q hq)⟩
        intro q hq
        rcases List.mem_cons.mp hq with rfl | hq
        · exact hkept' q hfree
        · exact hall q hq
      unfold clearOrphans
      refine Io.wpc_fileExists ?_
      cases hname : fs.names orphan with
      | none =>
          simp only [Option.isSome_none, Bool.false_eq_true, if_false]
          exact hrest fs hname fun _ => id
      | some f =>
          simp only [Option.isSome_some, if_true]
          refine Io.wpc_delete hname trivial (hrest _ (Function.update_self ..) ?_)
          intro q hq
          unfold Fs.unlink
          dsimp only
          rw [Function.update_apply]
          split
          · rfl
          · exact hq

/-- Only the orphans are touched. -/
theorem stays_clearOrphans {N : Set Path} {A : Set Nat} {orphans : List Path} (h : ∀ q ∈ orphans, q ∈ N) :
    Stays N A (clearOrphans orphans).run := by
  induction orphans generalizing A with
  | nil => trivial
  | cons orphan rest ih =>
      have hin : orphan ∈ N := h orphan List.mem_cons_self
      have hrest : ∀ q ∈ rest, q ∈ N := fun q hq => h q (List.mem_cons_of_mem _ hq)
      unfold clearOrphans
      refine (stays_fileExists hin).andThen fun found B _ => ?_
      split
      · exact (stays_delete hin).andThen fun _ _ _ => ih hrest
      · exact ih hrest

theorem stays_sweepOrphans {N : Set Path} {A : Set Nat} {orphans : List Path} (h : ∀ q ∈ orphans, q ∈ N) :
    Stays N A (sweepOrphans orphans).run := by
  induction orphans generalizing A with
  | nil => trivial
  | cons orphan rest ih =>
      unfold sweepOrphans
      exact (stays_deleteIfExists (h orphan List.mem_cons_self)).andThen fun _ _ _ =>
        ih fun q hq => h q (List.mem_cons_of_mem _ hq)

/-- Committing transactions one after the other. -/
theorem wpc_commitAll {txns : List (UInt64 × Txn)} {ts : List Txn} (hts : CommitChain R.xxh c ts c')
    (htxns : txns.map Prod.snd = ts) (hfits : ∀ x ∈ txns, x.2.pageCount * x.2.pageSize ≤ 2 ^ 64)
    (h : Live R.xxh c path p fs fm fw main log) :
    Wpc (commitAll R p txns).run fs
      (fun r s => ∃ p', r = .ok p' ∧ ∃ main' log', Live R.xxh c' path p' s fm fw main' log') fun _ => True := by
  induction hts generalizing txns p fs main log with
  | nil c =>
      obtain rfl := List.map_eq_nil_iff.mp htxns
      exact Io.wpc_pure ⟨p, rfl, main, log, h⟩ trivial
  | @cons t ts c' wf rest ih =>
      rcases List.map_eq_cons_iff.mp htxns with ⟨⟨salt, t'⟩, txns', rfl, rfl, hrest⟩
      unfold commitAll
      refine Io.wpc_seq (R := fun p' s => ∃ main' log', Live R.xxh t'.commit path p' s fm fw main' log') ?_ ?_
      · unfold commitOrDrop
        refine Wpc.bind ((wpc_commitTxn h wf (hfits _ List.mem_cons_self) salt).mono ?_ fun _ _ => trivial)
        intro r s hr
        rcases r with ⟨p', committed⟩
        rcases hr with ⟨hok, hlive⟩
        simp only at hok
        subst hok
        exact Wpc.ret ⟨p', rfl, hlive⟩ trivial
      · intro p' s hs
        rcases hs with ⟨main', log', hlive⟩
        exact ih hrest (fun x hx => hfits x (List.mem_cons_of_mem _ hx)) hlive

/-- A commit stays with its pager, and so does what it returns. -/
theorem stays_commitOrDrop {N : Set Path} {A : Set Nat} (hmain : p.main ∈ A) (hwal : p.wal.file ∈ A) (salt : UInt64)
    (t : Txn) : Stays N A (commitOrDrop R p salt t).run := by
  unfold commitOrDrop
  refine (stays_commitTxn hmain hwal _ _ _ _).bindEnds commitTxn_ends ?_
  intro r B hB hr
  rcases r with ⟨p', committed⟩
  rcases hr.mem (hB hmain) (hB hwal) with ⟨hmain', hwal'⟩
  cases committed with
  | ok n => trivial
  | error e => exact Stays.bind (stays_drop hmain' hwal') fun _ _ _ => trivial

/-- The pager keeps its files. -/
theorem commitOrDrop_ends (salt : UInt64) (t : Txn) :
    (commitOrDrop R p salt t).run.Ends fun r => ∀ p', r = .ok p' → p.SameFiles p' := by
  unfold commitOrDrop
  refine commitTxn_ends.bind ?_
  intro r hr
  rcases r with ⟨p', committed⟩
  cases committed with
  | ok n =>
      rintro _ ⟨⟩
      exact hr
  | error e =>
      refine (Prog.ends_true _).bind ?_
      rintro _ _ _ ⟨⟩

/-- The commits touch the files of their pager alone. -/
theorem stays_commitAll {N : Set Path} {A : Set Nat} (hmain : p.main ∈ A) (hwal : p.wal.file ∈ A)
    (txns : List (UInt64 × Txn)) : Stays N A (commitAll R p txns).run := by
  induction txns generalizing p A with
  | nil => trivial
  | cons x rest ih =>
      rcases x with ⟨salt, t⟩
      refine (stays_commitOrDrop hmain hwal salt t).andThenEnds (commitOrDrop_ends salt t) ?_
      intro p' B hB hsame
      rcases hsame.mem (hB hmain) (hB hwal) with ⟨hmain', hwal'⟩
      exact ih hmain' hwal'

/-- The copy, closed: it holds what its transactions lead to. What has other names is left alone. -/
theorem wpc_buildFile {opts : PagerOptions} {txns : List (UInt64 × Txn)} {Y : Reach}
    (hts : CommitChain R.xxh (createdState opts) (txns.map Prod.snd) c')
    (hfits : ∀ x ∈ txns, x.2.pageCount * x.2.pageSize ≤ 2 ^ 64) (hv : 1 ≤ opts.formatVersion)
    (hv' : opts.formatVersion ≤ FORMAT_VERSION) (hps : pageSizeIsValid opts.pageSize = true) (hnew : fs.names path = none)
    (hfs : fs.Tidy) (hY : Y.Sound fs) (hnames : ∀ q ∈ storeNames path, q ∉ Y.names) (result : Except Error Unit) :
    Wpc (buildFile R path opts txns result).run fs
      (fun r s => r = result ∧ (result = .ok () → ∃ fm main, AtRest R.xxh c' path s fm main []) ∧ Untouched Y fs s ∧ s.Tidy)
      fun s => Untouched Y fs s := by
  unfold buildFile
  -- create the store, then append its transactions
  refine wpc_seq_beside (wpc_create (R := R) hfs.toWf hv hv' hps hnew) (stays_create (A := ∅) (path_mem_storeNames path)
    (wal_mem_storeNames path) opts) hfs (Reach.sound_names _ fs) hY hnames (fun _ _ hu => hu) ?_
  intro dst s hs hu ht
  rcases hs with ⟨fm, fw, main, hlive⟩
  refine wpc_seq_beside (wpc_commitAll hts rfl hfits hlive) (stays_commitAll (N := storeNames path) (Or.inl rfl)
    (Or.inr rfl) txns) ht hlive.sound (hY.untouched hu) hnames (fun _ _ hu' => hu.trans hu') ?_
  intro dst' s' hs' hu' ht'
  rcases hs' with ⟨main', log', hlive'⟩
  have hall := hu.trans hu'
  have hY' := hY.untouched hall
  -- close it, or drop it when the copying failed
  cases result with
  | ok u =>
      have hclose := wpc_beside (wpc_close hlive') (stays_closeStore (A := dst'.handles) (Or.inl rfl) (Or.inr rfl)
        (hlive'.walPath ▸ wal_mem_storeNames path)) ht' hlive'.sound hY' hnames
      refine hclose.mono ?_ fun _ hc => hall.trans hc.2
      intro r t hr
      rcases hr with ⟨⟨u, rfl, main'', hrest⟩, hu'', ht''⟩
      exact ⟨rfl, fun _ => ⟨fm, main'', hrest⟩, hall.trans hu'', ht''⟩
  | error e =>
      refine wpc_seq_beside (wpc_drop hlive') (stays_drop (N := storeNames path) (Or.inl rfl) (Or.inr rfl)) ht'
        hlive'.sound hY' hnames (fun _ _ hu'' => hall.trans hu'') ?_
      intro u t _ hu'' ht''
      exact Wpc.ret ⟨rfl, by simp, hall.trans hu'', ht''⟩ (hall.trans hu'')

end Parts

/-! ## The phases -/

section Phases

variable {R : Runtime} {path : Path} {fs : Fs} {c c' : Committed} {p parked : Pager} {fm fw : Nat} {main log : Bytes}

/-- The store is open, everything is in its main file, and the names beside it are free. -/
structure Ready (R : Runtime) (c : Committed) (path : Path) (p : Pager) (fs : Fs) : Prop where
  live : ∃ fm fw main, Live R.xxh c path p fs fm fw main []
  tidy : fs.Tidy
  free : ∀ q ∈ storeNames (vacuumTmpPath path) ∪ storeNames (vacuumScratchPath path), fs.names q = none

/-- The copy is there, closed. -/
structure Built (R : Runtime) (c c' : Committed) (path : Path) (p : Pager) (fs : Fs) : Prop where
  live : ∃ fm fw main, Live R.xxh c path p fs fm fw main []
  copy : ∃ fm main, AtRest R.xxh c' (vacuumTmpPath path) fs fm main []
  tidy : fs.Tidy
  free : ∀ q ∈ storeNames (vacuumScratchPath path), fs.names q = none

/-- A pager is parked on the scratch store. -/
def Parks (R : Runtime) (path : Path) (parked : Pager) (fs : Fs) : Prop :=
  ∃ c fm fw main, Live R.xxh c (vacuumScratchPath path) parked fs fm fw main []

/-- Everything is ready for the swap. -/
structure Poised (R : Runtime) (c c' : Committed) (path : Path) (p parked : Pager) (fs : Fs) : Prop where
  live : ∃ fm fw main, Live R.xxh c path p fs fm fw main []
  copy : ∃ fm main, AtRest R.xxh c' (vacuumTmpPath path) fs fm main []
  parks : Parks R path parked fs
  tidy : fs.Tidy

/-- The store is closed, and the copy has its name. -/
structure Replaced (R : Runtime) (c : Committed) (path : Path) (parked : Pager) (fs : Fs) : Prop where
  rest : ∃ fm main, AtRest R.xxh c path fs fm main []
  parks : Parks R path parked fs
  tidy : fs.Tidy

/-- The names beside the store are cleared. -/
theorem wpc_cleared (h : Live R.xxh c path p fs fm fw main log) (hfs : fs.Tidy) :
    Wpc (clearOrphans (vacuumOrphans path)).run fs
      (fun r s => r = .ok () ∧ Live R.xxh c path p s fm fw main log ∧ s.Tidy ∧
        ∀ q ∈ storeNames (vacuumTmpPath path) ∪ storeNames (vacuumScratchPath path), s.names q = none)
      (CrashOk R.xxh (· = c) path) := by
  have hclear := wpc_beside (wpc_clearOrphans (vacuumOrphans path) fs) (A := ∅)
    (stays_clearOrphans fun q => mem_vacuumOrphans.mp) hfs (Reach.sound_names _ fs) h.sound
    fun q hq hq' => path_apart path q hq' hq
  refine hclear.mono ?_ fun s hs => h.crashOk.untouched hs.2
  intro r s hr
  rcases hr with ⟨⟨u, rfl, hfree, _⟩, hu, ht⟩
  exact ⟨rfl, h.untouched hu, ht, fun q hq => hfree q (mem_vacuumOrphans.mpr hq)⟩

/-- The log is copied into the main file. -/
theorem wpc_flushed (h : Live R.xxh c path p fs fm fw main log) (hfs : fs.Tidy)
    (hfree : ∀ q ∈ storeNames (vacuumTmpPath path) ∪ storeNames (vacuumScratchPath path), fs.names q = none) :
    Wpc (p.checkpoint R) fs (fun r s => r.2 = .ok () ∧ Ready R c path r.1 s) (CrashOk R.xxh (· = c) path) := by
  have hflush := wpc_beside (wpc_checkpoint h) (stays_checkpoint (A := p.handles) (Or.inl rfl) (Or.inr rfl)) hfs h.sound
    (Reach.sound_names (storeNames (vacuumTmpPath path) ∪ storeNames (vacuumScratchPath path)) fs) (path_apart path)
  refine hflush.mono ?_ fun s hs => hs.1
  intro r s hr
  rcases hr with ⟨⟨hok, main', hlive⟩, hu, ht⟩
  exact ⟨hok, ⟨fm, fw, main', hlive⟩, ht, fun q hq => (hu.names q hq).trans (hfree q hq)⟩

/-- The copy is built beside the store, or fails. -/
theorem wpc_built (h : Ready R c path p fs) {opts : PagerOptions} {txns : List (UInt64 × Txn)}
    (hts : CommitChain R.xxh (createdState opts) (txns.map Prod.snd) c')
    (hfits : ∀ x ∈ txns, x.2.pageCount * x.2.pageSize ≤ 2 ^ 64) (hv : 1 ≤ opts.formatVersion)
    (hv' : opts.formatVersion ≤ FORMAT_VERSION) (hps : pageSizeIsValid opts.pageSize = true) (result : Except Error Unit) :
    Wpc (buildFile R (vacuumTmpPath path) opts txns result).run fs
      (fun r s => r = result ∧ (result = .ok () → Built R c c' path p s) ∧
        (∃ fm fw main, Live R.xxh c path p s fm fw main []) ∧ s.Tidy)
      (CrashOk R.xxh (· = c) path) := by
  rcases h.live with ⟨fm, fw, main, hlive⟩
  have hY : (Reach.mk (storeNames path ∪ storeNames (vacuumScratchPath path)) p.handles).Sound fs :=
    hlive.sound.mono Set.subset_union_left
  refine (wpc_buildFile hts hfits hv hv' hps (h.free _ (Or.inl (path_mem_storeNames _))) h.tidy hY (tmp_apart path)
    result).mono ?_ ?_
  · intro r s hr
    rcases hr with ⟨hr, hcopy, hu, ht⟩
    have hlive' := hlive.untouched (hu.mono Set.subset_union_left (le_refl _))
    refine ⟨hr, fun hok => ⟨⟨fm, fw, main, hlive'⟩, hcopy hok, ht, ?_⟩, ⟨fm, fw, main, hlive'⟩, ht⟩
    exact fun q hq => (hu.names q (Or.inr hq)).trans (h.free q (Or.inr hq))
  · exact fun s hu => hlive.crashOk.untouched (hu.mono Set.subset_union_left (le_refl _))

/-- The pager is parked. -/
theorem wpc_parked (h : Built R c c' path p fs) {opts : PagerOptions} (hv : 1 ≤ opts.formatVersion)
    (hv' : opts.formatVersion ≤ FORMAT_VERSION) (hps : pageSizeIsValid opts.pageSize = true) :
    Wpc (Pager.create R (vacuumScratchPath path) opts).run fs
      (fun r s => ∃ parked, r = .ok parked ∧ Poised R c c' path p parked s) (CrashOk R.xxh (· = c) path) := by
  rcases h.live with ⟨fm, fw, main, hlive⟩
  rcases h.copy with ⟨fm', main', hcopy⟩
  have hcreate := wpc_beside (wpc_create (R := R) h.tidy.toWf hv hv' hps (h.free _ (path_mem_storeNames _)))
    (stays_create (A := ∅) (path_mem_storeNames _) (wal_mem_storeNames _) opts) h.tidy (Reach.sound_names _ fs)
    (hlive.sound.mono (N := storeNames path ∪ storeNames (vacuumTmpPath path)) Set.subset_union_left) (scratch_apart path)
  refine hcreate.mono ?_ fun s hs =>
    hlive.crashOk.untouched (hs.2.mono Set.subset_union_left (le_refl _))
  intro r s hr
  rcases hr with ⟨⟨parked, hr, fm₁, fw₁, main₁, hparked⟩, hu, ht⟩
  exact ⟨parked, hr, ⟨fm, fw, main, hlive.untouched (hu.mono Set.subset_union_left (le_refl _))⟩,
    ⟨fm', main', hcopy.untouched (A := ∅) (hu.mono Set.subset_union_right (Set.empty_subset _))⟩,
    ⟨_, fm₁, fw₁, main₁, hparked⟩, ht⟩

/-- The swap touches the names of the store and of the copy. -/
theorem stays_swapVacuumed : Stays (storeNames path ∪ storeNames (vacuumTmpPath path)) ∅ (swapVacuumed path).run := by
  have hpath : ∀ q ∈ storeNames path, q ∈ storeNames path ∪ storeNames (vacuumTmpPath path) := fun q => Or.inl
  have htmp : ∀ q ∈ storeNames (vacuumTmpPath path), q ∈ storeNames path ∪ storeNames (vacuumTmpPath path) := fun q => Or.inr
  refine (stays_deleteIfExists (hpath _ (wal_mem_storeNames path))).andThen fun _ _ _ => ?_
  refine (stays_rename (htmp _ (path_mem_storeNames _)) (hpath _ (path_mem_storeNames path))).andThen fun _ _ _ => ?_
  exact stays_deleteIfExists (htmp _ (wal_mem_storeNames _))

/-- With the pager parked, the copy takes the place of the store. -/
theorem wpc_replaceStore (h : Poised R c c' path p parked fs) :
    Wpc (replaceStore path p).run fs (fun r s => ∃ u, r = .ok u ∧ Replaced R c' path parked s)
      (CrashOk R.xxh (fun x => x = c ∨ x = c') path) := by
  rcases h.live with ⟨fm, fw, main, hlive⟩
  rcases h.copy with ⟨fm', main', hcopy⟩
  rcases h.parks with ⟨c₁, fm₁, fw₁, main₁, hparked⟩
  unfold replaceStore
  -- the store is released
  refine wpc_seq_beside (wpc_drop hlive) (stays_drop (A := p.handles) (Or.inl rfl) (Or.inr rfl)) h.tidy hlive.sound
    (hparked.sound.mono (N := storeNames (vacuumTmpPath path) ∪ storeNames (vacuumScratchPath path))
      Set.subset_union_right) (path_apart path) (fun s hs _ => hs.mono fun _ => Or.inl) ?_
  intro _ s hrest hu ht
  have hcopy' := hcopy.untouched (A := ∅) (hu.mono Set.subset_union_left (Set.empty_subset _))
  have hparked' := hparked.untouched (hu.mono Set.subset_union_right (le_refl _))
  -- the copy is renamed
  have hswap := wpc_beside (wpc_swapVacuumed hrest hcopy') stays_swapVacuumed ht (Reach.sound_names _ s) hparked'.sound
    (swapped_apart path)
  refine hswap.mono ?_ fun s hs => hs.1
  intro r s hr
  rcases hr with ⟨⟨u, hr, hrest'⟩, hu', ht'⟩
  exact ⟨u, hr, ⟨_, _, hrest'⟩, ⟨c₁, fm₁, fw₁, main₁, hparked'.untouched hu'⟩, ht'⟩

/-- The store is opened on the copy. -/
theorem wpc_reopenSwapped (h : Replaced R c path parked fs) (opts : PagerOptions) :
    Wpc (Pager.openStore R path opts).run fs
      (fun r s => ∃ p, r = .ok p ∧ (∃ fm fw main, Live R.xxh c path p s fm fw main []) ∧ Parks R path parked s ∧ s.Tidy)
      (CrashOk R.xxh (· = c) path) := by
  rcases h.rest with ⟨fm, main, hrest⟩
  rcases h.parks with ⟨c₁, fm₁, fw₁, main₁, hparked⟩
  have hopen := wpc_beside (wpc_openStore hrest opts) (stays_openStore (A := ∅) (path_mem_storeNames path)
    (wal_mem_storeNames path) opts) h.tidy (Reach.sound_names _ fs) hparked.sound
    fun q hq hq' => path_apart path q hq (Or.inr hq')
  refine hopen.mono ?_ fun s hs => hs.1
  intro r s hr
  rcases hr with ⟨⟨p, hr, fw', main', hlive⟩, hu, ht⟩
  exact ⟨p, hr, ⟨_, fw', main', hlive⟩, ⟨c₁, fm₁, fw₁, main₁, hparked.untouched hu⟩, ht⟩

/-- The scratch store goes; the store is not touched. -/
theorem wpc_dropParked (h : Live R.xxh c path p fs fm fw main log) (hparked : Parks R path parked fs) (hfs : fs.Tidy) :
    Wpc (dropParked R path parked).run fs (fun _ s => Live R.xxh c path p s fm fw main log)
      (CrashOk R.xxh (· = c) path) := by
  rcases hparked with ⟨c₁, fm₁, fw₁, main₁, hparked⟩
  have hstays : Stays (storeNames (vacuumScratchPath path)) parked.handles (dropParked R path parked).run := by
    refine (Stays.ignoring (stays_closeStore (Or.inl rfl) (Or.inr rfl) ?_)).andThen fun _ _ _ =>
      Stays.ignoring (stays_delete (path_mem_storeNames _))
    rw [hparked.walPath]
    exact wal_mem_storeNames _
  refine (wpc_beside Wpc.any hstays hfs hparked.sound h.sound ?_).mono ?_ ?_
  · exact fun q hq hq' => scratch_apart path q hq (Or.inl hq')
  · exact fun _ s hs => h.untouched hs.2.1
  · exact fun s hs => h.crashOk.untouched hs.2

/-- What is left of a copy that failed goes; the store is not touched. -/
theorem wpc_removeTmp (h : Live R.xxh c path p fs fm fw main log) (hfs : fs.Tidy) :
    Wpc (removeTmp path).run fs (fun _ s => Live R.xxh c path p s fm fw main log) (CrashOk R.xxh (· = c) path) := by
  have hstays : Stays (storeNames (vacuumTmpPath path)) ∅ (removeTmp path).run :=
    (Stays.ignoring (stays_delete (path_mem_storeNames _))).andThen fun _ _ _ =>
      stays_deleteIfExists (wal_mem_storeNames _)
  refine (wpc_beside Wpc.any hstays hfs (Reach.sound_names _ fs) h.sound ?_).mono ?_ ?_
  · exact fun q hq hq' => tmp_apart path q hq (Or.inl hq')
  · exact fun _ s hs => h.untouched hs.2.1
  · exact fun s hs => h.crashOk.untouched hs.2

/-- What the path holds after a vacuum that ends so. -/
def vacuumed (c c' : Committed) : Except Error Unit → Committed
  | .ok _ => c'
  | .error _ => c

/-- Up to the swap the store is the old one; the swap comes if the compaction gets through. -/
theorem wpc_parkStore (h : Live R.xxh c path p fs fm fw main log) (hfs : fs.Tidy) {txns : List (UInt64 × Txn)}
    (hts : CommitChain R.xxh (Committed.fresh FORMAT_VERSION c.header.pageSize) (txns.map Prod.snd) c')
    (hfits : ∀ x ∈ txns, x.2.pageCount * x.2.pageSize ≤ 2 ^ 64) (result : Except Error Unit) :
    Wpc (parkStore R path txns result p) fs
      (fun r s => match r with
        | .error (p', e) => result = .error e ∧ ∃ fm fw main, Live R.xxh c path p' s fm fw main []
        | .ok (_, p', parked) => result = .ok () ∧ Poised R c c' path p' parked s)
      (CrashOk R.xxh (· = c) path) := by
  have hps : pageSizeIsValid c.header.pageSize = true := h.storable.wf.header.pageSize
  have hv : 1 ≤ FORMAT_VERSION := by decide
  unfold parkStore
  -- clear, flush, build, park: each phase leaves what the next one needs
  refine Wpc.bind ((wpc_cleared h hfs).mono ?_ fun s hs => hs)
  intro r s hr
  rcases hr with ⟨rfl, hlive, ht, hfree⟩
  refine Wpc.bind ((wpc_flushed hlive ht hfree).mono ?_ fun s hs => hs)
  intro r s hr
  rcases r with ⟨p₁, flushed⟩
  rcases hr with ⟨hok, hready⟩
  simp only at hok hready
  subst hok
  have hheader : p₁.header = c.header := by
    rcases hready.live with ⟨_, _, _, hlive⟩
    exact hlive.header
  dsimp only
  rw [hheader]
  have hts' : CommitChain R.xxh (createdState ⟨c.header.pageSize, p₁.checkpointThreshold, FORMAT_VERSION⟩)
      (txns.map Prod.snd) c' := hts
  refine Wpc.bind ((wpc_built hready hts' hfits hv (le_refl _) hps result).mono ?_ fun s hs => hs)
  intro r s hr
  rcases hr with ⟨rfl, hbuilt, ⟨fm₁, fw₁, main₁, hlive⟩, ht⟩
  cases r with
  | error e =>
      refine Wpc.bind ((wpc_removeTmp hlive ht).mono ?_ fun s hs => hs)
      exact fun _ s hs => Wpc.ret ⟨rfl, fm₁, fw₁, main₁, hs⟩ hs.crashOk
  | ok u =>
      refine Wpc.bind ((wpc_parked (hbuilt rfl) hv (le_refl _) hps).mono ?_ fun s hs => hs)
      intro r s hr
      rcases hr with ⟨parked, rfl, hpoised⟩
      rcases hpoised.live with ⟨_, _, _, hlive⟩
      exact Wpc.ret ⟨rfl, hpoised⟩ hlive.crashOk

/-- A vacuum: up to the renaming the path holds the old store, from then on the compacted one; if the compaction fails,
the old one stays. -/
theorem wpc_vacuumFiles (h : Live R.xxh c path p fs fm fw main log) (hfs : fs.Tidy) {txns : List (UInt64 × Txn)}
    (hts : CommitChain R.xxh (Committed.fresh FORMAT_VERSION c.header.pageSize) (txns.map Prod.snd) c')
    (hfits : ∀ x ∈ txns, x.2.pageCount * x.2.pageSize ≤ 2 ^ 64) (result : Except Error Unit) :
    Wpc (vacuumFiles R path txns result p) fs
      (fun r s => r.2 = result ∧ ∃ fm fw main, Live R.xxh (vacuumed c c' result) path r.1 s fm fw main [])
      (CrashOk R.xxh (fun x => x = c ∨ x = vacuumed c c' result) path) := by
  have hold : ∀ s, CrashOk R.xxh (· = c) path s → CrashOk R.xxh (fun x => x = c ∨ x = vacuumed c c' result) path s :=
    fun s hs => hs.mono fun _ => Or.inl
  refine Wpc.bind ((wpc_parkStore h hfs hts hfits result).mono ?_ hold)
  intro r s hr
  cases r with
  | error stopped =>
      rcases stopped with ⟨p', e⟩
      rcases hr with ⟨rfl, fm', fw', main', hlive⟩
      exact Wpc.ret ⟨rfl, fm', fw', main', hlive⟩ (hold s hlive.crashOk)
  | ok ready =>
      rcases ready with ⟨opts, p', parked⟩
      rcases hr with ⟨rfl, hpoised⟩
      have hnew : ∀ s, CrashOk R.xxh (· = c') path s → CrashOk R.xxh (fun x => x = c ∨ x = c') path s :=
        fun s hs => hs.mono fun _ => Or.inr
      -- from the renaming on the path holds the copy
      have hswapped : Wpc (do replaceStore path p'; Pager.openStore R path opts : Io Pager).run s
          (fun r s => ∃ p, r = .ok p ∧ (∃ fm fw main, Live R.xxh c' path p s fm fw main []) ∧ Parks R path parked s ∧ s.Tidy)
          (CrashOk R.xxh (fun x => x = c ∨ x = c') path) := by
        refine Io.wpc_seq (wpc_replaceStore hpoised) ?_
        exact fun _ s hs => (wpc_reopenSwapped hs opts).mono (fun _ _ hq => hq) hnew
      refine Wpc.bind (hswapped.mono ?_ fun s hs => hs)
      intro r s hr
      rcases hr with ⟨p₂, rfl, ⟨fm₂, fw₂, main₂, hlive⟩, hparked, ht⟩
      refine Wpc.bind ((wpc_dropParked hlive hparked ht).mono ?_ hnew)
      exact fun _ s hs => Wpc.ret ⟨rfl, fm₂, fw₂, main₂, hs⟩ (hnew s hs.crashOk)

/-- A vacuum that gets through passes through a state in which the store is closed and the copy has its name. -/
theorem vacuumFiles_replaces (h : Live R.xxh c path p fs fm fw main log) (hfs : fs.Tidy) {txns : List (UInt64 × Txn)}
    (hts : CommitChain R.xxh (Committed.fresh FORMAT_VERSION c.header.pageSize) (txns.map Prod.snd) c')
    (hfits : ∀ x ∈ txns, x.2.pageCount * x.2.pageSize ≤ 2 ^ 64) :
    ∃ s parked, Prog.Interrupt (vacuumFiles R path txns (.ok ()) p) fs s ∧ Replaced R c' path parked s := by
  have hpark := (wpc_parkStore h hfs hts hfits (.ok ())).1
  rcases hrun : (parkStore R path txns (.ok ()) p).run fs with ⟨s, r⟩
  rw [hrun] at hpark
  cases r with
  | error stopped => cases hpark.1
  | ok ready =>
      rcases ready with ⟨opts, p', parked⟩
      rcases wpc_replaceStore hpark.2 with ⟨⟨u, hu, hreplaced⟩, _⟩
      refine ⟨_, parked, ?_, hreplaced⟩
      refine Prog.Interrupt.right ?_
      rw [hrun]
      exact (Prog.Interrupt.rightExcept (Prod.ext rfl hu) (.here _ _)).left

end Phases

end EmbedMind
