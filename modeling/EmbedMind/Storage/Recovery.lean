import EmbedMind.Storage.Pager
import EmbedMind.Storage.Recoverable

/-!
# Crash safety of the pager

One specification per pager operation, each with what its interruption leaves:
`Live c p` is a running pager that shows the committed state `c`, `AtRest c` a
store nobody has open, and `CrashOk P` a file system from which, whatever a power
failure makes of it, a state in `P` can be recovered.

Here are the specifications of the recovery and of the opening (`wpc_recover`,
`wpc_openStore`). Those of the checkpoint and of the commit are in
`Storage/Durability.lean`, and `Storage/History.lean` runs them one after the other.
-/

namespace EmbedMind

open Lib Lib.Assoc

/-! ## The two files of a store -/

/-- The files that the two names of a store refer to. -/
structure Named (path : Path) (fm fw : Nat) (fs : Fs) : Prop where
  main : fs.names path = some fm
  wal : fs.names (walPathFor path) = some fw
  ne : fm ≠ fw
  main_lt : fm < fs.nextFile
  wal_lt : fw < fs.nextFile

/-- A store that is open and locked through the handles `hm` and `hw`. -/
structure Opened (path : Path) (hm hw fm fw : Nat) (fs : Fs) : Prop extends
    Named path fm fw fs where
  mainHandle : fs.handles hm = some fm
  walHandle : fs.handles hw = some fw
  lock : fs.locks fm = some hm
  handles_ne : hm ≠ hw

/-- The log file of a store; a missing one counts as empty. -/
def walFile (path : Path) (fs : Fs) : File :=
  match fs.names (walPathFor path) with
  | some fw => fs.files fw
  | none => {}

/-- The store is in the middle of a call, and what a power failure makes of it is
recoverable, to a state in `P`. -/
def CrashOk (H : Xxh3) (P : Committed → Prop) (path : Path) (fs : Fs) : Prop :=
  ∃ fm, fs.names path = some fm ∧ fm < fs.nextFile ∧
    (∀ fw, fs.names (walPathFor path) = some fw → fw ≠ fm ∧ fw < fs.nextFile) ∧
    Midway H P (fs.files fm) (walFile path fs)

/-- A store that nobody has open, holding the state `c`. -/
structure AtRest (H : Xxh3) (c : Committed) (path : Path) (fs : Fs) (fm : Nat) (main wal : Bytes) :
    Prop where
  name : fs.names path = some fm
  name_lt : fm < fs.nextFile
  wal_ne : ∀ fw, fs.names (walPathFor path) = some fw → fw ≠ fm ∧ fw < fs.nextFile
  unlocked : fs.locks fm = none
  main_eq : fs.files fm = File.clean main
  wal_eq : walFile path fs = File.clean wal
  recoverable : Recoverable H c main wal

/-- A change of one file leaves the names. -/
theorem Named.setFile {path : Path} {fm fw : Nat} {fs : Fs} (h : Named path fm fw fs) (f : Nat)
    (file : File) : Named path fm fw (fs.setFile f file) :=
  ⟨h.main, h.wal, h.ne, h.main_lt, h.wal_lt⟩

/-- A change of one file leaves names, handles and locks. -/
theorem Opened.setFile {path : Path} {hm hw fm fw : Nat} {fs : Fs}
    (h : Opened path hm hw fm fw fs) (f : Nat) (file : File) :
    Opened path hm hw fm fw (fs.setFile f file) :=
  ⟨h.toNamed.setFile f file, h.mainHandle, h.walHandle, h.lock, h.handles_ne⟩

/-- The log of a store whose files are there. -/
theorem Named.walFile_eq {path : Path} {fm fw : Nat} {fs : Fs} (h : Named path fm fw fs) :
    walFile path fs = fs.files fw := by
  simp [walFile, h.wal]

/-- What is recoverable between two calls survives a power failure. -/
theorem Named.crashOk {H : Xxh3} {P : Committed → Prop} {path : Path} {fm fw : Nat} {fs : Fs}
    (h : Named path fm fw fs) (hd : Midway H P (fs.files fm) (fs.files fw)) :
    CrashOk H P path fs := by
  refine ⟨fm, h.main, h.main_lt, ?_, h.walFile_eq ▸ hd⟩
  intro fw' hfw'
  rw [h.wal] at hfw'
  cases hfw'
  exact ⟨h.ne.symm, h.wal_lt⟩

/-- Weakening. -/
theorem CrashOk.mono {H : Xxh3} {P P' : Committed → Prop} {path : Path} {fs : Fs}
    (h : CrashOk H P path fs) (hP : ∀ c, P c → P' c) : CrashOk H P' path fs := by
  obtain ⟨fm, h1, h2, h3, h4⟩ := h
  exact ⟨fm, h1, h2, h3, h4.mono hP⟩

/-! ## Checkpoint and recovery -/

section Apply

variable {H : Xxh3} {path : Path} {hm hw fm fw : Nat} {fs : Fs} {c : Committed} {log b : Bytes}
  {index : List (Nat × Nat)}

/-- Copying images of the log into the main file: whatever is torn on the way is
covered by the log. -/
theorem wpc_applyPages (hc : Storable H c) (hlog : LogView H c log index) {a : Bytes}
    (ha : MainOk H c index a) (l : List (Nat × Nat)) (hl : ∀ e ∈ l, e ∈ index) {b : Bytes}
    (hb : MainOk H c index b) {fs : Fs} (ho : Opened path hm hw fm fw fs)
    (hwal : fs.files fw = File.clean log) (hmain : fs.files fm = { synced := a, current := b }) :
    Wpc (applyPages hm hw c.header.pageSize l).run fs
      (fun r s => ∃ u, r = .ok u ∧ ∃ b', s = fs.setFile fm { synced := a, current := b' } ∧
        MainOk H c index b' ∧
        (∀ n, slice b (n * c.header.pageSize) c.header.pageSize = some (c.image H n) →
          slice b' (n * c.header.pageSize) c.header.pageSize = some (c.image H n)) ∧
        ∀ e ∈ l, slice b' (e.1 * c.header.pageSize) c.header.pageSize = some (c.image H e.1))
      (CrashOk H (· = c) path) := by
  -- wherever the copying is cut, each page of the main file is its old or its committed image
  have hcrash : ∀ {s : Fs} {f : File}, Opened path hm hw fm fw s → s.files fw = File.clean log →
      s.files fm = f → f.cut = none → MainOk H c index f.synced → MainOk H c index f.current →
      MainOk H c index f.written → CrashOk H (· = c) path s := by
    intro s f hs hsw hsm h1 h2 h3 h4
    refine hs.toNamed.crashOk ?_
    rw [hsw, hsm]
    exact .main rfl hc hlog h1 h2 h3 h4
  induction l generalizing fs b with
  | nil =>
      refine Io.wpc_pure ⟨(), rfl, b, ?_, hb, fun _ h => h, by simp⟩
        (hcrash ho hwal hmain rfl ha hb hb)
      rw [← hmain]
      simp [Fs.setFile]
  | cons e rest ih =>
      obtain ⟨n, off⟩ := e
      obtain ⟨hn, himg⟩ := hlog.images (n, off) (hl _ List.mem_cons_self)
      have hpatch := hb.patch hc.wf hn
      have hread : slice (fs.files fw).current off c.header.pageSize = some (c.image H n) := by
        rw [hwal]
        exact himg
      simp only [applyPages]
      -- one page: its image is read from the log and written to its place
      refine Io.wpc_readAt ho.walHandle hread (Io.wpc_ofExcept (hc.pageOffset hn) ?_)
      refine Io.wpc_writeAt ho.mainHandle (hcrash ho hwal hmain rfl ha hb hb) ?_ ?_
      · -- interrupted inside the write
        have hfile : (fs.setFile fm { fs.files fm with
            inFlight := some (n * c.header.pageSize, c.image H n) }).files fm =
            ⟨a, b, none, some (n * c.header.pageSize, c.image H n)⟩ := by
          simp [hmain]
        refine hcrash (ho.setFile _ _) ?_ hfile rfl ha hb hpatch
        simp [ho.ne.symm, hwal]
      · refine Wpc.mono (ih (fun e he => hl e (List.mem_cons_of_mem _ he)) hpatch
          (ho.setFile _ _) ?_ ?_) ?_ fun _ h => h
        · simp [ho.ne.symm, hwal]
        · simp [hmain, File.write]
        · rintro r s ⟨u, rfl, b', rfl, hb', hkeep, hall⟩
          refine ⟨u, rfl, b', by simp, hb', fun m hm => hkeep m (slice_patch_page hc.wf hn hm), ?_⟩
          intro e he
          -- a later page does not touch the bytes of an earlier one
          rcases List.mem_cons.mp he with rfl | he
          · exact hkeep n (slice_patch_same (hc.wf.image_length hn))
          · exact hall e he

/-- Every page of the main file is the committed one. -/
def MainFull (H : Xxh3) (c : Committed) (bs : Bytes) : Prop :=
  ∀ n, n < c.header.pageCount →
    slice bs (n * c.header.pageSize) c.header.pageSize = some (c.image H n)

/-- A main file with all pages of the log has the state without the log. -/
theorem mainFull_of_applied (h : MainOk H c index b)
    (hall : ∀ e ∈ index, slice b (e.1 * c.header.pageSize) c.header.pageSize =
      some (c.image H e.1)) : MainFull H c b := by
  intro n hn
  cases hf : find n index with
  | none => exact h.pages n hn hf
  | some off => exact hall (n, off) (mem_of_find hf)

/-- Emptying the log once the main file is complete. -/
theorem wpc_emptyLog {β : Type} {k : Unit → Io β} {Q : Except Error β → Fs → Prop}
    (hc : Storable H c) (hlog : LogView H c log index) (hfull : MainFull H c b)
    (ho : Opened path hm hw fm fw fs) (hmain : fs.files fm = File.clean b)
    (hwal : fs.files fw = File.clean log)
    (hk : Wpc (k ()).run (fs.setFile fw (File.clean [])) Q (CrashOk H (· = c) path)) :
    Wpc (Io.truncate hw 0 >>= fun _ => Io.sync hw >>= k).run fs Q (CrashOk H (· = c) path) := by
  refine Io.wpc_truncate ho.walHandle ?_ (Io.wpc_sync ho.walHandle ?_ ?_)
  · refine ho.toNamed.crashOk ?_
    rw [hmain, hwal]
    exact .main rfl hc hlog rfl (mainOk_full hc.wf hfull) (mainOk_full hc.wf hfull)
      (mainOk_full hc.wf hfull)
  · refine (ho.setFile _ _).toNamed.crashOk ?_
    simp only [Fs.setFile_files, Function.update_self, Function.update_of_ne ho.ne, hmain, hwal]
    exact .cut rfl hc hlog hfull
  · have hclean : ((fs.setFile fw ((fs.files fw).truncate 0)).files fw).sync = File.clean [] := by
      simp [hwal, File.truncate, File.sync, File.clean, File.resize]
    rw [hclean, Fs.setFile_setFile]
    exact hk

end Apply

/-! ## Reading back -/

section Reads

variable {H : Xxh3} {β : Type} {fs : Fs} {C : Fs → Prop} {Q : Except Error β → Fs → Prop}
  {h f : Nat} {bs : Bytes}

/-- Scanning frames is scanning the bytes of the file. -/
theorem wpc_scanFrames (hh : fs.handles h = some f) (hf : (fs.files f).current = bs)
    {header : WalHeader} {fuel off : Nat} {committed pending : List (Nat × Nat)}
    {pendingTxn : Option Nat} {k : List (Nat × Nat) → Io β}
    (hk : Wpc (k (scanFrom H bs header fuel off committed pending pendingTxn)).run fs Q C) :
    Wpc (scanFrames H (Io.readAt h) bs.length header fuel off committed pending pendingTxn
      >>= k).run fs Q C := by
  induction fuel generalizing off committed pending pendingTxn with
  | zero => exact hk
  | succ fuel ih =>
      unfold scanFrom at hk
      simp only [scanFrames] at hk ⊢
      split_ifs at hk ⊢ with hlen
      · exact hk
      · have hle : off + (WAL_FRAME_HEADER_LEN + header.pageSize) ≤ bs.length := by omega
        simp only [bind_assoc]
        refine Io.wpc_readAt hh (by rw [hf]; exact slice_of_le (by omega)) ?_
        refine Io.wpc_readAt hh (by rw [hf]; exact slice_of_le (by omega)) ?_
        simp only [pure_bind] at hk
        split at hk
        · exact hk
        · split_ifs at hk ⊢ with h1 h2
          · exact hk
          · exact ih hk
          · exact ih hk

/-- Scanning an open log file reads what its bytes say. -/
theorem wpc_scan (hh : fs.handles h = some f) (hf : (fs.files f).current = bs)
    {k : Option RecoveredWal → Io β}
    (hk : Wpc (k (scanBytes H FORMAT_VERSION bs)).run fs Q C) :
    Wpc (Wal.scan H h >>= k).run fs Q C := by
  unfold Wal.scan
  simp only [bind_assoc]
  refine Io.wpc_len hh ?_
  rw [hf]
  rw [scanBytes_eq] at hk
  unfold scanUpTo
  split_ifs at hk ⊢ with hlen
  · exact hk
  · simp only [bind_assoc]
    refine Io.wpc_readAt hh (by rw [hf]; exact slice_of_le (by omega)) ?_
    rw [List.drop_zero, ← WalHeader.decode]
    cases hdec : WalHeader.decode (bs.take WAL_HEADER_LEN) with
    | none =>
        simp only [hdec, Option.map_none] at hk
        exact hk
    | some header =>
        simp only [hdec, Option.map_some] at hk
        simp only [bind_assoc]
        exact wpc_scanFrames hh hf hk

/-- The page size that the first bytes of a main file record. -/
def peekBytes (bs : Bytes) : Option Nat :=
  if bs.length < HEADER_PEEK_LEN then none
  else (Header.peekPageSize (bs.take HEADER_PEEK_LEN)).toOption

theorem peekBytes_eq {ps : Nat} (hpeek : ∃ pre, slice bs 0 HEADER_PEEK_LEN = some pre ∧
    Header.peekPageSize pre = .ok ps) : peekBytes bs = some ps := by
  obtain ⟨pre, hpre, hps⟩ := hpeek
  obtain ⟨hle, rfl⟩ := slice_eq_some.mp hpre
  rw [List.drop_zero] at hps
  rw [peekBytes, if_neg (by omega), hps]
  rfl

/-- Peeking the page size is reading it from the bytes of the file. -/
theorem wpc_peekMainPageSize (hh : fs.handles h = some f) (hf : (fs.files f).current = bs)
    {k : Option Nat → Io β} (hk : Wpc (k (peekBytes bs)).run fs Q C) :
    Wpc (peekMainPageSize h >>= k).run fs Q C := by
  unfold peekBytes at hk
  unfold peekMainPageSize
  simp only [bind_assoc]
  refine Io.wpc_len hh ?_
  rw [hf]
  split_ifs at hk ⊢ with hlen
  · exact hk
  · simp only [bind_assoc, pure_bind]
    exact Io.wpc_readAt hh (by rw [hf]; exact slice_of_le (by omega)) hk

/-- Reading the header of a state. -/
theorem wpc_readHeader {c : Committed} (hc : c.Wf H) (hh : fs.handles h = some f)
    (hf : (fs.files f).current = bs)
    (hpage : slice bs (0 * c.header.pageSize) c.header.pageSize = some (c.image H 0))
    {k : Header → Io β} (hk : Wpc (k c.header).run fs Q C) :
    Wpc (readHeader H h >>= k).run fs Q C := by
  obtain ⟨pre, hpre, hps⟩ := peek_of_page hc hpage
  have hle := (slice_eq_some.mp hpre).1
  rw [Nat.zero_mul, Committed.image_zero] at hpage
  have hle' := (slice_eq_some.mp hpage).1
  unfold readHeader
  simp only [bind_assoc]
  refine Io.wpc_len hh ?_
  rw [hf, if_neg (by omega)]
  simp only [bind_assoc]
  refine Io.wpc_readAt hh (by rw [hf]; exact hpre) (Io.wpc_ofExcept hps (Io.wpc_len hh ?_))
  rw [hf, if_neg (by omega)]
  simp only [bind_assoc]
  exact Io.wpc_readAt hh (by rw [hf]; exact hpage)
    (Io.wpc_ofExcept (Header.decode_image hc.header) hk)

end Reads

/-! ## A running pager -/

/-- What the log file and the pager's view of it agree on: nothing is in the log,
or it is a log of acknowledged transactions. -/
def LogAgrees (H : Xxh3) (p : Pager) (log : Bytes) : Prop :=
  (p.wal.salt = none ∧ p.wal.len = 0 ∧ log = [] ∧ p.walIndex = []) ∨
    ∃ salt, p.wal.salt = some salt ∧ p.wal.len = log.length ∧
      LogOk H p.wal.pageSize salt log p.walIndex

/-- A running pager that shows the committed state `c`, over a main file and a log
that are both durable as they are. -/
structure Live (H : Xxh3) (c : Committed) (path : Path) (p : Pager) (fs : Fs) (fm fw : Nat)
    (main log : Bytes) : Prop where
  opened : Opened path p.main p.wal.file fm fw fs
  storable : Storable H c
  walPath : p.walPath = walPathFor path
  header : p.header = c.header
  pageSize : p.wal.pageSize = c.header.pageSize
  usable : p.broken = false
  main_eq : fs.files fm = File.clean main
  log_eq : fs.files fw = File.clean log
  mainOk : MainOk H c p.walIndex main
  view : LogView H c log p.walIndex
  agrees : LogAgrees H p log

section Live

variable {R : Runtime} {c : Committed} {path : Path} {p : Pager} {fs : Fs} {fm fw : Nat}
  {main log : Bytes}

/-- A power failure leaves what a running pager keeps. -/
theorem Live.crashOk (h : Live R.xxh c path p fs fm fw main log) :
    CrashOk R.xxh (· = c) path fs := by
  refine h.opened.toNamed.crashOk ?_
  rw [h.main_eq, h.log_eq]
  exact .main rfl h.storable h.view rfl h.mainOk h.mainOk h.mainOk

theorem Live.walFile_cut (h : Live R.xxh c path p fs fm fw main log) : (walFile path fs).cut = none := by
  rw [h.opened.toNamed.walFile_eq, h.log_eq]
  rfl

/-- A pager over a complete main file and an empty log. -/
theorem live_of_full {hm hw : Nat} (hc : Storable R.xxh c) (hfull : MainFull R.xxh c main)
    (ho : Opened path hm hw fm fw fs) (hmain : fs.files fm = File.clean main)
    (hwal : fs.files fw = File.clean []) (threshold : Nat) :
    Live R.xxh c path
      { main := hm, wal := { file := hw, pageSize := c.header.pageSize },
        walPath := walPathFor path, header := c.header, checkpointThreshold := threshold }
      fs fm fw main [] where
  opened := ho
  storable := hc
  walPath := rfl
  header := rfl
  pageSize := rfl
  usable := rfl
  main_eq := hmain
  log_eq := hwal
  mainOk := mainOk_full hc.wf hfull
  view := logView_nil _ _
  agrees := Or.inl ⟨rfl, rfl, rfl, rfl⟩

/-- What `readPage` returns is what the committed state says. -/
theorem Live.readPage (h : Live R.xxh c path p fs fm fw main log) (n : Nat) :
    (p.readPage R n).run.run fs = (fs, c.readPage R.xxh n) := by
  have hw : Wpc (p.readPage R n).run fs (fun r s => r = c.readPage R.xxh n ∧ s = fs)
      (fun _ => True) := by
    unfold Pager.readPage Committed.readPage
    rw [h.usable, h.header]
    simp only [Bool.false_eq_true, if_false]
    split_ifs with h1 h2
    · exact Wpc.ret ⟨rfl, rfl⟩ trivial
    · rw [h.storable.wf.image_valid (by omega)] at h2
      cases h2
    · have hn : n < c.header.pageCount := by omega
      have hk : Wpc (do
          if pageChecksumIsValid R.xxh (c.image R.xxh n) = false then throw (.corruptPage n)
          pure (c.image R.xxh n) : Io Bytes).run fs
          (fun r s => r = .ok (c.image R.xxh n) ∧ s = fs) (fun _ => True) := by
        rw [if_neg h2]
        exact Io.wpc_pure ⟨rfl, rfl⟩ trivial
      cases hf : find n p.walIndex with
      | some off =>
          refine Io.wpc_readAt h.opened.walHandle ?_ hk
          rw [h.log_eq]
          exact (h.view.images (n, off) (mem_of_find hf)).2
      | none =>
          have hpage := h.mainOk.pages n hn hf
          refine Io.wpc_ofExcept (h.storable.pageOffset hn) (Io.wpc_readAt h.opened.mainHandle ?_ hk)
          rw [h.main_eq]
          exact hpage
  obtain ⟨hr, hs⟩ := hw.1
  exact Prod.ext hs hr

/-- Recovery leaves a complete main file. -/
theorem wpc_recover {hm hw : Nat} (hr : Recoverable R.xxh c main log)
    (ho : Opened path hm hw fm fw fs) (hmain : fs.files fm = File.clean main)
    (hwal : fs.files fw = File.clean log) :
    Wpc (Pager.recover R hm hw).run fs
      (fun r s => ∃ u, r = .ok u ∧ ∃ b, s = fs.setFile fm (File.clean b) ∧ MainFull R.xxh c b)
      (CrashOk R.xxh (· = c) path) := by
  obtain ⟨hc, index, hlog, hok⟩ := hr
  have hcrash : CrashOk R.xxh (· = c) path fs := by
    refine ho.toNamed.crashOk ?_
    rw [hmain, hwal]
    exact .main rfl hc hlog rfl hok hok hok
  have hcur : (fs.files fw).current = log := by rw [hwal]; rfl
  have hmcur : (fs.files fm).current = main := by rw [hmain]; rfl
  -- without committed pages in the log the main file is complete already
  have hdone : index = [] → Wpc (pure () : Io Unit).run fs
      (fun r s => ∃ u, r = .ok u ∧ ∃ b, s = fs.setFile fm (File.clean b) ∧ MainFull R.xxh c b)
      (CrashOk R.xxh (· = c) path) := by
    rintro rfl
    refine Io.wpc_pure ⟨(), rfl, main, ?_, fun n hn => hok.pages n hn rfl⟩ hcrash
    rw [← hmain]
    simp [Fs.setFile]
  unfold Pager.recover
  refine wpc_scan ho.walHandle hcur ?_
  rcases hlog.scan with hscan | ⟨hscan, hnil⟩
  · rw [hscan]
    refine wpc_peekMainPageSize ho.mainHandle hmcur ?_
    rw [peekBytes_eq hok.peek]
    by_cases hempty : index = []
    · simpa [hempty] using hdone hempty
    · have hcond : ((some c.header.pageSize).all (fun ps => ps == c.header.pageSize) &&
          !index.isEmpty) = true := by
        simp [hempty]
      rw [if_pos hcond]
      refine Io.wpc_seq (wpc_applyPages hc hlog hok index (fun _ he => he) hok ho hwal hmain) ?_
      rintro u s ⟨b, rfl, hb, _, hall⟩
      rw [← bind_pure (Io.sync hm)]
      refine Io.wpc_sync (ho.setFile _ _).mainHandle ?_ (Io.wpc_pure ⟨(), rfl, b, ?_, ?_⟩ ?_)
      · refine (ho.setFile _ _).toNamed.crashOk ?_
        simp only [Fs.setFile_files, Function.update_self, Function.update_of_ne ho.ne.symm, hwal]
        exact .main rfl hc hlog rfl hok hb hb
      · simp [File.sync, File.clean]
      · exact mainFull_of_applied hb hall
      · refine ((ho.setFile _ _).setFile _ _).toNamed.crashOk ?_
        simp only [Fs.setFile_files, Function.update_self, Function.update_of_ne ho.ne.symm, hwal]
        exact .main rfl hc hlog rfl hb hb hb
  · rw [hscan]
    exact hdone hnil

end Live

/-! ## Opening -/

section Open

variable {R : Runtime} {c : Committed} {path : Path} {fs : Fs} {fm : Nat} {main wal : Bytes}
  {β : Type}

/-- A power failure leaves what a store at rest keeps. -/
theorem AtRest.crashOk (h : AtRest R.xxh c path fs fm main wal) :
    CrashOk R.xxh (· = c) path fs := by
  obtain ⟨hc, index, hlog, hok⟩ := h.recoverable
  refine ⟨fm, h.name, h.name_lt, h.wal_ne, ?_⟩
  rw [h.main_eq, h.wal_eq]
  exact .main rfl hc hlog rfl hok hok hok

/-- A crash condition only sees names and files. -/
theorem CrashOk.congr {H : Xxh3} {P : Committed → Prop} {fs fs' : Fs} (h : CrashOk H P path fs)
    (hn : fs'.names = fs.names) (hf : fs'.files = fs.files) (hx : fs'.nextFile = fs.nextFile) :
    CrashOk H P path fs' := by
  have hwal : walFile path fs' = walFile path fs := by simp only [walFile, hn, hf]
  obtain ⟨fm, h1, h2, h3, h4⟩ := h
  exact ⟨fm, hn ▸ h1, hx ▸ h2, by rw [hn, hx]; exact h3, by rw [hf, hwal]; exact h4⟩

/-- The log is another file. -/
theorem walPathFor_ne (path : Path) : walPathFor path ≠ path := by
  intro h
  have := congrArg String.length h
  simp [walPathFor] at this

/-- Opening the log file: the one that is there, or a new one. -/
theorem wpc_openWal (hm : Nat) {k : Nat → Io β} {Q : Except Error β → Fs → Prop}
    (h : AtRest R.xxh c path { fs with locks := fun _ => none } fm main wal)
    (hh : fs.handles hm = some fm) (hlt : hm < fs.nextHandle) (hl : fs.locks fm = some hm)
    (hk : ∀ hw fw s, Opened path hm hw fm fw s → s.files fm = File.clean main →
      s.files fw = File.clean wal → Wpc (k hw).run s Q (CrashOk R.xxh (· = c) path)) :
    Wpc (Io.openFile (walPathFor path) .openOrCreate >>= k).run fs Q
      (CrashOk R.xxh (· = c) path) := by
  have hcrash : CrashOk R.xxh (· = c) path fs := h.crashOk.congr rfl rfl rfl
  -- the log is there, or it is created empty
  cases hn : fs.names (walPathFor path) with
  | some fw =>
      obtain ⟨hne, hfw⟩ := h.wal_ne fw hn
      refine Io.wpc_openFile (fs.addHandle fw) fs.nextHandle (by simp [Fs.exec, hn])
        hcrash (hk _ fw _ ⟨⟨h.name, hn, hne.symm, h.name_lt, hfw⟩, ?_, ?_, hl, by omega⟩ h.main_eq ?_)
      · simp only [Fs.addHandle]
        rw [Function.update_of_ne (by omega), hh]
      · simp [Fs.addHandle]
      · have := h.wal_eq
        simpa [walFile, hn, Fs.addHandle] using this
  | none =>
      have hlt' := h.name_lt
      have hne : fm ≠ fs.nextFile := Nat.ne_of_lt hlt'
      have hwal : wal = [] := by
        have := h.wal_eq
        simp only [walFile, hn] at this
        exact (congrArg File.current this).symm
      refine Io.wpc_openFile ((fs.addFile (walPathFor path)).addHandle fs.nextFile)
        fs.nextHandle (by simp [Fs.exec, hn, Fs.addFile]) hcrash
        (hk _ fs.nextFile _ ⟨⟨?_, ?_, hne, ?_, ?_⟩, ?_, ?_, hl, by omega⟩ ?_ ?_)
      · simp only [Fs.addHandle, Fs.addFile]
        rw [Function.update_of_ne (walPathFor_ne path).symm]
        exact h.name
      · simp [Fs.addHandle, Fs.addFile]
      · simp only [Fs.addHandle, Fs.addFile]
        have : fm < fs.nextFile := hlt'
        omega
      · simp [Fs.addHandle, Fs.addFile]
      · simp only [Fs.addHandle, Fs.addFile]
        rw [Function.update_of_ne (by omega), hh]
      · simp [Fs.addHandle, Fs.addFile]
      · simp only [Fs.addHandle, Fs.addFile]
        rw [Function.update_of_ne hne]
        exact h.main_eq
      · simp [Fs.addHandle, Fs.addFile, hwal, File.clean]

/-- Opening a store at rest succeeds with a pager that shows its state; an
interrupted opening leaves the state recoverable. -/
theorem wpc_openStore (h : AtRest R.xxh c path fs fm main wal) (opts : PagerOptions) :
    Wpc (Pager.openStore R path opts).run fs
      (fun r s => ∃ p, r = .ok p ∧ ∃ fw b, Live R.xxh c path p s fm fw b [])
      (CrashOk R.xxh (· = c) path) := by
  have hcrash := h.crashOk
  unfold Pager.openStore
  refine Io.wpc_openFile (fs.addHandle fm) fs.nextHandle
    (by simp [Fs.exec, h.name]) hcrash ?_
  rw [← bind_pure (Io.owning fs.nextHandle _)]
  refine Io.wpc_owning (R := fun p s => ∃ fw b, Live R.xxh c path p s fm fw b []) ?_
    fun p s hp => Io.wpc_pure ⟨p, rfl, hp⟩ ?_
  swap
  · obtain ⟨fw, b, hlive⟩ := hp
    exact hlive.crashOk
  refine Io.wpc_tryLockExclusive (f := fm) (by simp [Fs.addHandle]) h.unlocked
    (hcrash.congr rfl rfl rfl) ?_
  simp only [Bool.not_true, Bool.false_eq_true, if_false]
  have hopened : AtRest R.xxh c path { fs.addHandle fm with locks := fun _ => none } fm main wal :=
    ⟨h.name, h.name_lt, h.wal_ne, rfl, h.main_eq, h.wal_eq, h.recoverable⟩
  refine wpc_openWal fs.nextHandle hopened (by simp [Fs.addHandle]) (by simp [Fs.addHandle])
    (by simp) ?_
  · intro hw fw s ho hmain hwal
    obtain ⟨hc, index, hlog, hok⟩ := h.recoverable
    rw [← bind_pure (Io.owning hw _)]
    refine Io.wpc_owning (R := fun p s => ∃ fw b, Live R.xxh c path p s fm fw b []) ?_
      fun p s hp => Io.wpc_pure ⟨p, rfl, hp⟩ ?_
    swap
    · obtain ⟨fw, b, hlive⟩ := hp
      exact hlive.crashOk
    refine Io.wpc_seq (wpc_recover h.recoverable ho hmain hwal) ?_
    rintro u s' ⟨b, rfl, hfull⟩
    have ho' := ho.setFile fm (File.clean b)
    have hwal' : (s.setFile fm (File.clean b)).files fw = File.clean wal := by
      simp [ho.ne.symm, hwal]
    have hmain' : (s.setFile fm (File.clean b)).files fm = File.clean b := by simp
    -- from here on the main file is complete and the log empty
    have hend : ∀ t, Opened path fs.nextHandle hw fm fw t → t.files fm = File.clean b →
        t.files fw = File.clean [] →
        Wpc (do
          let header ← readHeader R.xxh fs.nextHandle
          pure { main := fs.nextHandle, wal := { file := hw, pageSize := header.pageSize },
                 walPath := walPathFor path, header,
                 checkpointThreshold := opts.checkpointThreshold } : Io Pager).run t
          (fun r s => ∃ p, r = .ok p ∧ ∃ fw b, Live R.xxh c path p s fm fw b [])
          (CrashOk R.xxh (· = c) path) := by
      intro t ht htm htw
      refine wpc_readHeader hc.wf ht.mainHandle rfl ?_ ?_
      · rw [htm]
        exact hfull 0 hc.wf.header.pageCount_pos
      · have hlive := live_of_full hc hfull ht htm htw opts.checkpointThreshold
        exact Io.wpc_pure ⟨_, rfl, fw, b, hlive⟩ hlive.crashOk
    refine Io.wpc_len ho'.walHandle ?_
    rw [hwal']
    by_cases hlen : 0 < (File.clean wal).current.length
    · rw [if_pos hlen]
      refine wpc_emptyLog hc hlog hfull ho' hmain' hwal' (hend _ (ho'.setFile _ _) ?_ ?_)
      · simp [ho.ne]
      · simp
    · rw [if_neg hlen]
      have hnil : wal = [] := by
        simpa [File.clean] using hlen
      rw [hnil] at hwal'
      exact hend _ ho' hmain' hwal'

end Open

end EmbedMind
