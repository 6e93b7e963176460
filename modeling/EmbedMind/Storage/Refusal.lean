import EmbedMind.Storage.History

/-!
# What opening a store does to a log it does not understand

`Pager::open` empties the log file whether or not it has copied its transactions
into the main file. `NonDestructive` is the promise that it does not lose any: a
log is changed only once its committed images are in the main file, and every page
that could be recovered before can be recovered after. It is kept exactly when the
log is one that recovery applies (`WalApplies`), or there is nothing in it to lose.
-/

namespace EmbedMind

open Lib Lib.Assoc

/-- A store at `path`, not open anywhere, with these two files. -/
def diskOf (path : Path) (main wal : Bytes) : Fs where
  names := fun q => if q = path then some 0 else if q = walPathFor path then some 1 else none
  files := fun f => if f = 0 then File.clean main else if f = 1 then File.clean wal else {}
  nextFile := 2
  handles := fun _ => none
  nextHandle := 0
  locks := fun _ => none

/-- The committed transactions of a log, as a build supporting the version it
records (a 32-bit number) reads them. -/
def walCommitted (H : Xxh3) (wal : Bytes) : Option RecoveredWal := scanBytes H (2 ^ 32 - 1) wal

/-- Every committed image of the log is in its place in the main file. -/
def ImagesIn (r : RecoveredWal) (wal main : Bytes) : Prop :=
  ∀ e ∈ r.committed, slice main (e.1 * r.pageSize) r.pageSize = slice wal e.2 r.pageSize

/-- The image of a page that main file and log together give. -/
def recoverPage (H : Xxh3) (pageSize : Nat) (main wal : Bytes) (n : Nat) : Option Bytes :=
  match (walCommitted H wal).bind fun r => find n r.committed with
  | some off => slice wal off pageSize
  | none => slice main (n * pageSize) pageSize

/-- Opening has lost nothing: the log is as it was or its committed images are in
the main file, and what could be recovered still can. -/
structure NonDestructive (H : Xxh3) (main wal main' wal' : Bytes) : Prop where
  log : wal' = wal ∨ ∀ r, walCommitted H wal = some r → ImagesIn r wal main'
  pages : ∀ r n image, walCommitted H wal = some r →
    recoverPage H r.pageSize main wal n = some image →
    recoverPage H r.pageSize main' wal' n = some image

/-- The log has a version this build supports and the page size of the main file,
if that one can be read. -/
def WalApplies (main wal : Bytes) (r : RecoveredWal) : Prop :=
  (WalHeader.decode (wal.take WAL_HEADER_LEN)).isSome = true ∧
    (peekBytes main).all (fun ps => ps == r.pageSize) = true

/-! ## Scans of arbitrary bytes -/

section Scan

variable {H : Xxh3} {img : Bytes}

/-- What every frame has, every entry of the index has. -/
theorem scanFrom_inv {header : WalHeader} {P : Nat × Nat → Prop}
    (hP : ∀ off n, off + (WAL_FRAME_HEADER_LEN + header.pageSize) ≤ img.length →
      P (n, off + WAL_FRAME_HEADER_LEN))
    {fuel off : Nat} {committed pending : List (Nat × Nat)} {pendingTxn : Option Nat}
    (hc : ∀ e ∈ committed, P e) (hp : ∀ e ∈ pending, P e) (hs : Sorted committed) :
    (∀ e ∈ scanFrom H img header fuel off committed pending pendingTxn, P e) ∧
      Sorted (scanFrom H img header fuel off committed pending pendingTxn) := by
  induction fuel generalizing off committed pending pendingTxn with
  | zero => exact ⟨hc, hs⟩
  | succ fuel ih =>
      cases hat : frameAt H img header off with
      | none =>
          rw [scanFrom_stop hat]
          exact ⟨hc, hs⟩
      | some frame =>
          -- the frame lies inside the image, so its entry has the property
          have hin : off + (WAL_FRAME_HEADER_LEN + header.pageSize) ≤ img.length := by
            unfold frameAt at hat
            split_ifs at hat with hlen
            omega
          have hp' : ∀ e ∈ pending ++ [(frame.pageNo, off + WAL_FRAME_HEADER_LEN)], P e := by
            intro e he
            rcases List.mem_append.mp he with h1 | h1
            · exact hp e h1
            · obtain rfl := List.mem_singleton.mp h1
              exact hP off frame.pageNo hin
          by_cases htxn : ∀ t ∈ pendingTxn, t = frame.txnId
          · rw [scanFrom_step hat htxn]
            split
            · refine ih ?_ (by simp) (sorted_extend hs)
              intro e he
              rcases mem_extend he with h1 | h1
              · exact hc e h1
              · exact hp' e h1
            · exact ih hc hp' hs
          · -- a frame of another transaction ends the scan
            have hstop : scanFrom H img header (fuel + 1) off committed pending pendingTxn =
                committed := by
              obtain ⟨t, rfl, hne⟩ : ∃ t, pendingTxn = some t ∧ t ≠ frame.txnId := by
                cases pendingTxn with
                | none => exact absurd (fun t ht => by cases ht) htxn
                | some t => exact ⟨t, rfl, fun h => htxn fun t' ht' => by cases ht'; exact h⟩
              unfold frameAt at hat
              split_ifs at hat with hlen
              unfold scanFrom
              simp only [scanFrames]
              rw [if_neg hlen]
              simp [hat, hne]
            rw [hstop]
            exact ⟨hc, hs⟩

/-- What a scan gives: a map in page order, to images inside the log. -/
theorem scanBytes_bounds {maxVersion : Nat} {bs : Bytes} {r : RecoveredWal}
    (h : scanBytes H maxVersion bs = some r) :
    (∀ e ∈ r.committed, e.2 + r.pageSize ≤ bs.length) ∧ Sorted r.committed := by
  rw [scanBytes_eq_of] at h
  split_ifs at h
  obtain ⟨header, _, rfl⟩ := Option.map_eq_some_iff.mp h
  refine scanFrom_inv (P := fun e => e.2 + header.pageSize ≤ bs.length) ?_ (by simp) (by simp)
    List.Pairwise.nil
  intro off n hin
  simp only
  omega

/-- A build that supports more versions reads what this one reads, and what this
one does not read has a newer version. -/
theorem walCommitted_eq (bs : Bytes) : scanBytes H FORMAT_VERSION bs =
    if (WalHeader.decode (bs.take WAL_HEADER_LEN)).isSome = true then walCommitted H bs
    else none := by
  have hdec : ∀ header, WalHeader.decode (bs.take WAL_HEADER_LEN) = some header →
      WalHeader.decodeUpTo (2 ^ 32 - 1) (bs.take WAL_HEADER_LEN) = some header := by
    intro header hd
    unfold WalHeader.decode WalHeader.decodeUpTo at hd
    unfold WalHeader.decodeUpTo
    split_ifs at hd ⊢
    simp only [Option.bind_eq_bind, Option.bind_eq_some_iff] at hd ⊢
    obtain ⟨v, hv, ps, hps, hd⟩ := hd
    refine ⟨v, hv, ps, hps, ?_⟩
    have hv' := readLE_lt hv
    split_ifs at hd ⊢ with h1 h2
    · exfalso
      rcases h1 with h1 | h1 | h1
      · exact h2 (Or.inl h1)
      · omega
      · exact h2 (Or.inr (Or.inr h1))
    · exact hd
  unfold walCommitted
  rw [scanBytes_eq_of, scanBytes_eq_of, ← WalHeader.decode]
  cases hd : WalHeader.decode (bs.take WAL_HEADER_LEN) with
  | none => simp
  | some header =>
      rw [hdec header hd]
      simp

end Scan

/-! ## The run of `openStore` on arbitrary bytes -/

theorem exec_readAt_fst (fs : Fs) (h off len : Nat) : (Fs.exec fs (.readAt h off len)).1 = fs := by
  simp only [Fs.exec]
  split
  · rfl
  · split <;> rfl

theorem exec_len_fst (fs : Fs) (h : Nat) : (Fs.exec fs (.len h)).1 = fs := by
  simp only [Fs.exec]
  split <;> rfl

/-- A call that only reads. -/
theorem Io.readOnly_ofCall {α : Type} {p : Prog vfs (Except IoError α)} (hp : p.ReadOnly) :
    (Io.ofCall p).run.ReadOnly := by
  refine Prog.ReadOnly.bind hp ?_
  rintro (e | a) <;> exact Prog.readOnly_ret _

/-- Reading the header only reads. -/
theorem readOnly_readHeader (H : Xxh3) (main : Nat) : (readHeader H main).run.ReadOnly := by
  have hlen : (Io.len main).run.ReadOnly := Io.readOnly_ofCall (exec_len_fst · main)
  have hread : ∀ off len, (Io.readAt main off len).run.ReadOnly :=
    fun off len => Io.readOnly_ofCall (exec_readAt_fst · main off len)
  have hpure : ∀ {α : Type} (x : Except Error α), (Io.ofExcept x).run.ReadOnly :=
    fun x => Prog.readOnly_ret x
  unfold readHeader
  refine Prog.ReadOnly.bindExcept hlen fun len => ?_
  split
  · exact Prog.readOnly_ret _
  refine Prog.ReadOnly.bindExcept (hread _ _) fun pre => ?_
  refine Prog.ReadOnly.bindExcept (hpure _) fun ps => ?_
  refine Prog.ReadOnly.bindExcept hlen fun len => ?_
  split
  · exact Prog.readOnly_ret _
  exact Prog.ReadOnly.bindExcept (hread _ _) fun page0 => hpure _

section Run

variable {α : Type} {fs : Fs} {K : (Nat → File) → Prop}

/-- Dropping a handle on the way out touches no file. -/
theorem wpc_owning_files {h : Nat} {p : Io α}
    (hp : Wpc p.run fs (fun _ s => K s.files) (fun _ => True)) :
    Wpc (Io.owning h p).run fs (fun _ s => K s.files) (fun _ => True) := by
  refine Wpc.bind (Wpc.mono hp ?_ fun _ h => h)
  intro r s hK
  cases r with
  | ok a => exact Wpc.ret hK trivial
  | error e =>
      refine Wpc.bind (Io.wpc_call trivial (fun _ => False.elim) (Wpc.ret ?_ trivial) trivial)
      rw [show (Fs.exec s (.close h)).1.files = s.files by simp only [Fs.exec]; split <;> rfl]
      exact hK

/-- What only reads keeps the files. -/
theorem wpc_readOnly {p : Prog vfs α} (hp : p.ReadOnly) (hK : K fs.files) :
    Wpc p fs (fun _ s => K s.files) (fun _ => True) := by
  refine ⟨?_, fun _ _ => trivial⟩
  rw [hp fs]
  exact hK

end Run

section Open

variable {R : Runtime} {hm hw fm fw ps : Nat} {wal : Bytes}

/-- Copying images into an arbitrary main file: other pages stay, and unless an
offset overflows every image arrives. -/
theorem wpc_applyPages_any (hne : fm ≠ fw) {l : List (Nat × Nat)}
    (hl : ∀ e ∈ l, e.2 + ps ≤ wal.length) (hs : Sorted l) {fs : Fs} {b : Bytes}
    (hhm : fs.handles hm = some fm) (hhw : fs.handles hw = some fw)
    (hwal : (fs.files fw).current = wal) (hmain : (fs.files fm).current = b) :
    Wpc (applyPages hm hw ps l).run fs
      (fun r s => s.handles = fs.handles ∧ s.files fw = fs.files fw ∧
        (∀ n image, (∀ e ∈ l, e.1 ≠ n) → slice b (n * ps) ps = some image →
          slice (s.files fm).current (n * ps) ps = some image) ∧
        ((∃ u, r = .ok u) → ∀ e ∈ l,
          slice (s.files fm).current (e.1 * ps) ps = slice wal e.2 ps))
      (fun _ => True) := by
  induction l generalizing fs b with
  | nil =>
      refine Io.wpc_pure ⟨rfl, rfl, ?_, by simp⟩ trivial
      intro n image _ h
      rwa [hmain]
  | cons e rest ih =>
      obtain ⟨n, off⟩ := e
      have hin := hl (n, off) List.mem_cons_self
      have hcons := List.pairwise_cons.mp hs
      have hread : slice wal off ps = some ((wal.drop off).take ps) := slice_of_le hin
      have hlen := slice_length hread
      simp only [applyPages]
      refine Io.wpc_readAt hhw (by rw [hwal]; exact hread) ?_
      by_cases hfits : n * ps < 2 ^ 64
      swap
      · -- the offset overflows: the error ends recovery before the log is touched
        have hoff : pageOffset n ps = .error (.invalidArgument "page offset overflow") := if_neg hfits
        rw [hoff]
        refine Wpc.ret ⟨rfl, rfl, ?_, ?_⟩ trivial
        · intro m image _ h
          rwa [hmain]
        · rintro ⟨u, hu⟩
          cases hu
      refine Io.wpc_ofExcept (if_pos hfits) (Io.wpc_writeAt hhm trivial trivial ?_)
      -- the pages that follow leave this one alone: the list is sorted by page
      have hcur : ((fs.setFile fm ((fs.files fm).write (n * ps) ((wal.drop off).take ps))).files
          fm).current = patch b (n * ps) ((wal.drop off).take ps) := by
        simp [File.write, hmain]
      refine Wpc.mono (ih (fun e he => hl e (List.mem_cons_of_mem _ he)) hcons.2 hhm hhw
        (by simp [hne.symm, hwal]) hcur) ?_ fun _ h => h
      -- what holds of the rest holds of the whole
      rintro r s ⟨hh, hfw, hkeep, hall⟩
      refine ⟨hh, by simpa [hne.symm] using hfw, ?_, ?_⟩
      · intro m image hm hslice
        refine hkeep m image (fun e he => hm e (List.mem_cons_of_mem _ he)) ?_
        rw [slice_patch_disjoint (slice_eq_some.mp hslice).1, hslice]
        rw [hlen]
        exact page_disjoint fun h => hm (n, off) List.mem_cons_self h.symm
      · intro hok e he
        rcases List.mem_cons.mp he with rfl | he
        · rw [hread]
          refine hkeep n _ ?_ (slice_patch_same hlen)
          intro e he heq
          exact absurd (hcons.1 e he) (by simp [heq])
        · exact hall hok e he

/-- The log is one that recovery copies into the main file. -/
def Applied (H : Xxh3) (main wal : Bytes) (r : RecoveredWal) : Prop :=
  scanBytes H FORMAT_VERSION wal = some r ∧
    (peekBytes main).all (fun ps => ps == r.pageSize) = true ∧ r.committed ≠ []

/-- What opening makes of the two files: it drops a log it does not apply, and of
one it applies every image is in the main file before the log is dropped. -/
def Outcome (H : Xxh3) (main wal main' wal' : Bytes) : Prop :=
  ((¬ ∃ r, Applied H main wal r) ∧ main' = main ∧ wal' = []) ∨
    ∃ r, Applied H main wal r ∧
      (∀ n image, find n r.committed = none →
        slice main (n * r.pageSize) r.pageSize = some image →
        slice main' (n * r.pageSize) r.pageSize = some image) ∧
      (wal' = wal ∨ (wal' = [] ∧ ImagesIn r wal main'))

/-- The end of `openStore`: the log is emptied and the header read. -/
theorem wpc_open_tail (fm fw : Nat) (main : Bytes) {fs : Fs} {K : (Nat → File) → Prop} (hne : fm ≠ fw)
    (hhw : fs.handles hw = some fw) (hmain : (fs.files fm).current = main)
    (hK : ∀ files : Nat → File, (files fm).current = main → (files fw).current = [] → K files)
    {opts : PagerOptions} {walPath : Path} :
    Wpc (do
      let walLen ← Io.len hw
      if 0 < walLen then do
        Io.truncate hw 0
        Io.sync hw
      let header ← readHeader R.xxh hm
      pure { main := hm, wal := { file := hw, pageSize := header.pageSize }, walPath, header,
             checkpointThreshold := opts.checkpointThreshold } : Io Pager).run fs
      (fun _ s => K s.files) (fun _ => True) := by
  have hend : ∀ s : Fs, K s.files → Wpc (do
      let header ← readHeader R.xxh hm
      pure { main := hm, wal := { file := hw, pageSize := header.pageSize }, walPath, header,
             checkpointThreshold := opts.checkpointThreshold } : Io Pager).run s
      (fun _ s => K s.files) (fun _ => True) := by
    intro s hs
    exact wpc_readOnly (Prog.ReadOnly.bindExcept (readOnly_readHeader _ _)
      fun _ => Prog.readOnly_ret _) hs
  refine Io.wpc_len hhw ?_
  split
  · refine Io.wpc_truncate hhw trivial (Io.wpc_sync (f := fw) hhw trivial (hend _ (hK _ ?_ ?_)))
    · simp [hne, hmain]
    · simp [File.sync, File.truncate, File.resize]
  · rename_i hlen
    refine hend _ (hK _ hmain ?_)
    simpa using hlen

/-- What an opening does to any two files: nothing, recovery, or the loss of the log. -/
theorem openStore_outcome (R : Runtime) (path : Path) (opts : PagerOptions) (main wal : Bytes) :
    Outcome R.xxh main wal
      ((((Pager.openStore R path opts).run.run (diskOf path main wal)).1.files 0).current)
      ((((Pager.openStore R path opts).run.run (diskOf path main wal)).1.files 1).current) := by
  have hwp := walPathFor_ne path
  have hopen : Wpc (Pager.openStore R path opts).run (diskOf path main wal)
      (fun _ s => Outcome R.xxh main wal (s.files 0).current (s.files 1).current)
      (fun _ => True) := by
    unfold Pager.openStore
    refine Io.wpc_openFile ((diskOf path main wal).addHandle 0) 0 (by simp [Fs.exec, diskOf]) trivial ?_
    refine wpc_owning_files (K := fun files =>
      Outcome R.xxh main wal (files 0).current (files 1).current) ?_
    refine Io.wpc_tryLockExclusive (f := 0) (by simp [Fs.addHandle, diskOf])
      (by simp [Fs.addHandle, diskOf]) trivial ?_
    simp only [Bool.not_true, Bool.false_eq_true, if_false]
    refine Io.wpc_openFile
      (Fs.addHandle { (diskOf path main wal).addHandle 0 with
        locks := Function.update ((diskOf path main wal).addHandle 0).locks 0 (some 0) } 1) 1
      (by simp [Fs.exec, diskOf, Fs.addHandle, hwp]) trivial ?_
    generalize hs : Fs.addHandle { (diskOf path main wal).addHandle 0 with
        locks := Function.update ((diskOf path main wal).addHandle 0).locks 0 (some 0) } 1 = s
    have hhm : s.handles 0 = some 0 := by rw [← hs]; simp [Fs.addHandle, diskOf]
    have hhw : s.handles 1 = some 1 := by rw [← hs]; simp [Fs.addHandle, diskOf]
    have hmain : s.files 0 = File.clean main := by rw [← hs]; simp [Fs.addHandle, diskOf]
    have hwal : s.files 1 = File.clean wal := by rw [← hs]; simp [Fs.addHandle, diskOf]
    have hmcur : (s.files 0).current = main := by rw [hmain]; rfl
    have hwcur : (s.files 1).current = wal := by rw [hwal]; rfl
    refine wpc_owning_files (K := fun files =>
      Outcome R.xxh main wal (files 0).current (files 1).current) ?_
    -- a log that is not applied is dropped
    have hdrop : (¬ ∃ r, Applied R.xxh main wal r) → ∀ files : Nat → File,
        (files 0).current = main → (files 1).current = [] →
        Outcome R.xxh main wal (files 0).current (files 1).current :=
      fun hnot files h0 h1 => Or.inl ⟨hnot, h0, h1⟩
    unfold Pager.recover
    simp only [bind_assoc]
    refine wpc_scan hhw hwcur ?_
    cases hscan : scanBytes R.xxh FORMAT_VERSION wal with
    | none =>
        refine wpc_open_tail (K := fun files =>
          Outcome R.xxh main wal (files 0).current (files 1).current) 0 1 main (by decide) hhw
          hmcur (hdrop ?_)
        rintro ⟨r, hr, _⟩
        rw [hscan] at hr
        cases hr
    | some r =>
        simp only [bind_assoc]
        refine wpc_peekMainPageSize hhm hmcur ?_
        by_cases hcond : ((peekBytes main).all (fun ps => ps == r.pageSize) &&
            !r.committed.isEmpty) = true
        · rw [if_pos hcond]
          have happ : Applied R.xxh main wal r := by
            refine ⟨hscan, (Bool.and_eq_true_iff.mp hcond).1, ?_⟩
            simpa using (Bool.and_eq_true_iff.mp hcond).2
          obtain ⟨hin, hsorted⟩ := scanBytes_bounds hscan
          simp only [bind_assoc]
          refine Wpc.bindExcept (Wpc.mono (wpc_applyPages_any (by decide) hin hsorted hhm hhw hwcur
            hmcur) ?_ fun _ h => h)
          rintro res t ⟨hh, hfw, hkeep, hall⟩
          have hkeep' : ∀ n image, find n r.committed = none →
              slice main (n * r.pageSize) r.pageSize = some image →
              slice (t.files 0).current (n * r.pageSize) r.pageSize = some image :=
            fun n image hf => hkeep n image (find_eq_none.mp hf)
          cases res with
          | error e =>
              refine ⟨Or.inr ⟨r, happ, hkeep', Or.inl ?_⟩, trivial⟩
              rw [hfw, hwcur]
          | ok u =>
              refine Io.wpc_sync (f := 0) (by rw [hh]; exact hhm) trivial ?_
              refine wpc_open_tail (K := fun files =>
                Outcome R.xxh main wal (files 0).current (files 1).current) 0 1
                (t.files 0).current (by decide) ?_ ?_ ?_
              · rw [Fs.setFile_handles, hh]
                exact hhw
              · simp [File.sync]
              · intro files h0 h1
                rw [h0, h1]
                exact Or.inr ⟨r, happ, hkeep', Or.inr ⟨rfl, hall ⟨u, rfl⟩⟩⟩
        · rw [if_neg hcond]
          refine wpc_open_tail (K := fun files =>
            Outcome R.xxh main wal (files 0).current (files 1).current) 0 1 main (by decide) hhw
            hmcur (hdrop ?_)
          rintro ⟨r', hr', hps, hne⟩
          rw [hscan] at hr'
          cases hr'
          exact hcond (by simp [hps, hne])
  exact hopen.1

end Open

/-! ## When nothing is lost -/

section Lost

variable {H : Xxh3} {main wal main' wal' : Bytes} {r : RecoveredWal}

/-- When an opening copies the log into the main file. -/
theorem applied_iff : Applied H main wal r ↔
    walCommitted H wal = some r ∧ r.committed ≠ [] ∧ WalApplies main wal r := by
  unfold Applied WalApplies
  rw [walCommitted_eq]
  split_ifs with hd
  · simp only [hd, true_and]
    tauto
  · simp [hd]

/-- A log with something to lose that recovery does not apply is lost. -/
theorem Outcome.lost (h : Outcome H main wal main' wal') (hr : walCommitted H wal = some r)
    (hnot : ¬ WalApplies main wal r) (hin : ¬ ImagesIn r wal main) :
    ¬ NonDestructive H main wal main' wal' := by
  intro hnd
  rcases h with ⟨_, rfl, rfl⟩ | ⟨r', happ, _⟩
  · rcases hnd.log with hnil | himg
    · subst hnil
      cases hr
    · exact hin (himg r hr)
  · obtain ⟨hr', _, hw⟩ := applied_iff.mp happ
    rw [hr] at hr'
    cases hr'
    exact hnot hw

/-- A page that recovery has shows after it. -/
theorem recoverPage_of_images (hr : walCommitted H wal = some r) (hin : ImagesIn r wal main')
    (hkeep : ∀ n image, find n r.committed = none →
      slice main (n * r.pageSize) r.pageSize = some image →
      slice main' (n * r.pageSize) r.pageSize = some image) {n : Nat} {image : Bytes}
    (h : recoverPage H r.pageSize main wal n = some image) :
    recoverPage H r.pageSize main' [] n = some image := by
  have hnil : recoverPage H r.pageSize main' [] n = slice main' (n * r.pageSize) r.pageSize := rfl
  rw [hnil]
  simp only [recoverPage, hr, Option.bind_some] at h
  cases hf : find n r.committed with
  | none =>
      rw [hf] at h
      exact hkeep n image hf h
  | some off =>
      rw [hf] at h
      rw [hin (n, off) (mem_of_find hf)]
      exact h

/-- A log that recovery applies, or that has nothing to lose, is not lost. -/
theorem Outcome.kept (h : Outcome H main wal main' wal')
    (hok : ∀ r, walCommitted H wal = some r → r.committed ≠ [] →
      WalApplies main wal r ∨ ImagesIn r wal main) : NonDestructive H main wal main' wal' := by
  rcases h with ⟨hnot, rfl, rfl⟩ | ⟨r, happ, hkeep, hw⟩
  -- not applied: what the log commits is in the main file already
  · have hin : ∀ r, walCommitted H wal = some r → ImagesIn r wal main' := by
      intro r hr
      by_cases hne : r.committed = []
      · intro e he
        rw [hne] at he
        cases he
      · rcases hok r hr hne with h1 | h1
        · exact absurd ⟨r, applied_iff.mpr ⟨hr, hne, h1⟩⟩ hnot
        · exact h1
    exact ⟨Or.inr hin, fun r n image hr => recoverPage_of_images hr (hin r hr) fun _ _ _ h => h⟩
  · obtain ⟨hr, _, _⟩ := applied_iff.mp happ
    -- applied: the log is still there, or its images are in the main file
    rcases hw with rfl | ⟨rfl, hin⟩
    · refine ⟨Or.inl rfl, ?_⟩
      intro r' n image hr' hpage
      rw [hr] at hr'
      cases hr'
      simp only [recoverPage, hr, Option.bind_some] at hpage ⊢
      cases hf : find n r.committed with
      | none =>
          rw [hf] at hpage
          exact hkeep n image hf hpage
      | some off =>
          rw [hf] at hpage
          exact hpage
    · refine ⟨Or.inr fun r' hr' => ?_, fun r' n image hr' => ?_⟩
      · rw [hr] at hr'
        cases hr'
        exact hin
      · rw [hr] at hr'
        cases hr'
        exact recoverPage_of_images hr hin hkeep

/-- Opening loses nothing exactly if the log holds no committed transaction, or is
one that recovery applies, or all of its images are in the main file already. -/
theorem open_nonDestructive_iff (R : Runtime) (path : Path) (opts : PagerOptions)
    (main wal : Bytes) :
    NonDestructive R.xxh main wal
      (((Pager.openStore R path opts).run.run (diskOf path main wal)).1.files 0).current
      (((Pager.openStore R path opts).run.run (diskOf path main wal)).1.files 1).current ↔
    ∀ r, walCommitted R.xxh wal = some r → r.committed ≠ [] →
      WalApplies main wal r ∨ ImagesIn r wal main := by
  have hout := openStore_outcome R path opts main wal
  refine ⟨?_, hout.kept⟩
  intro hnd r hr _
  by_contra hcon
  rw [not_or] at hcon
  exact hout.lost hr hcon.1 hcon.2 hnd

/-- A log of the next format version with one committed transaction. -/
def newerWal : Bytes :=
  WalHeader.encode { formatVersion := FORMAT_VERSION + 1, pageSize := 512, salt := 7 } ++
    Wal.frameBytes Runtime.plain.xxh 1 7 true (1, List.replicate 512 1)

/-- The header page of a store of the next format version. -/
def newerMain : Bytes :=
  Header.image Runtime.plain.xxh
    (createdState { pageSize := 512, formatVersion := FORMAT_VERSION + 1 }).header

set_option maxRecDepth 8000 in
/-- The store is refused, and its log with a committed transaction is gone. -/
theorem open_destroys_newer_log :
    ((Pager.openStore Runtime.plain "memory.mind" {}).run.run
      (diskOf "memory.mind" newerMain newerWal)).2.toOption.isNone = true ∧
    ¬ NonDestructive Runtime.plain.xxh newerMain newerWal
      (((Pager.openStore Runtime.plain "memory.mind" {}).run.run
        (diskOf "memory.mind" newerMain newerWal)).1.files 0).current
      (((Pager.openStore Runtime.plain "memory.mind" {}).run.run
        (diskOf "memory.mind" newerMain newerWal)).1.files 1).current := by
  have hr : walCommitted Runtime.plain.xxh newerWal =
      some { pageSize := 512, committed := [(1, 64)] } := by
    decide +kernel
  refine ⟨by decide +kernel, (openStore_outcome _ _ _ _ _).lost hr ?_ ?_⟩
  · intro hw
    have hnone : (WalHeader.decode (newerWal.take WAL_HEADER_LEN)).isSome = false := by
      decide +kernel
    exact absurd (hnone.symm.trans hw.1) (by decide)
  · intro hin
    have himg := hin (1, 64) (by simp)
    revert himg
    decide +kernel

end Lost

end EmbedMind
