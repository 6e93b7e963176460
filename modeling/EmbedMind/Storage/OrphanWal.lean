import EmbedMind.Storage.Refusal
import EmbedMind.Storage.ResetWindow
import EmbedMind.Lib.Fallible

/-!
# Creating a store beside the log of a deleted one

`Pager::create` makes the new main file before it deletes an orphan log that stands under
the derived name, and recovery takes an empty main file for one that the log repairs. A
process that dies in between leaves both. `recoveredMain` is the main file that recovery
makes of any two files, `wpc_openStore_closed` what opening them ends in, and
`create_stays_empty_iff` says for which orphan logs the store that is opened later is empty
after a death at any call of the creation.
-/

namespace EmbedMind

open Lib Lib.Assoc

/-- The main file with the page images of a log copied into it. -/
def copyPages (wal : Bytes) (pageSize : Nat) : List (Nat × Nat) → Bytes → Bytes
  | [], main => main
  | (pageNo, offset) :: rest, main =>
      copyPages wal pageSize rest (patch main (pageNo * pageSize) ((wal.drop offset).take pageSize))

/-- The main file that recovery makes of a main file and a log. -/
def recoveredMain (H : Xxh3) (main wal : Bytes) : Except Error Bytes :=
  match scanBytes H FORMAT_VERSION wal with
  | none => .ok main
  | some r =>
      if (peekBytes main).all (fun ps => ps == r.pageSize) && !r.committed.isEmpty then
        if r.committed.all (fun e => e.1 * r.pageSize < 2 ^ 64) then
          .ok (copyPages wal r.pageSize r.committed main)
        else .error (.invalidArgument "page offset overflow")
      else .ok main

/-- The header that a main file starts with. -/
def headerOf (H : Xxh3) (main : Bytes) : Except Error Header :=
  if main.length < HEADER_PEEK_LEN then .error .badHeader
  else
    match Header.peekPageSize (main.take HEADER_PEEK_LEN) with
    | .error e => .error e
    | .ok pageSize =>
        if main.length < pageSize then .error .badHeader else Header.decode H (main.take pageSize)

/-- What a run ends in: a result that satisfies `Q`, or an error, and then `E` holds. -/
def EndsIn {α : Type} (Q : α → Fs → Prop) (E : Prop) (r : Except Error α) (fs : Fs) : Prop :=
  match r with
  | .ok a => Q a fs
  | .error _ => E

/-- A pager that has just been opened over a main file. -/
structure OpenedOver (H : Xxh3) (main : Bytes) (p : Pager) (fs : Fs) : Prop where
  header : headerOf H main = .ok p.header
  file : ∃ fm, fs.handles p.main = some fm ∧ (fs.files fm).current = main
  walIndex : p.walIndex = []
  broken : p.broken = false

section Spec

variable {R : Runtime} {β : Type} {fs : Fs} {C : Fs → Prop} {Q : Except Error β → Fs → Prop} {hm hw fm fw : Nat}
  {main wal : Bytes}

/-- Reading the header of any main file. -/
theorem wpc_readHeader_any (hh : fs.handles hm = some fm) (hf : (fs.files fm).current = main) {k : Header → Io β}
    (hk : match headerOf R.xxh main with
      | .ok header => Wpc (k header).run fs Q C
      | .error e => Q (.error e) fs ∧ C fs) : Wpc (readHeader R.xxh hm >>= k).run fs Q C := by
  unfold readHeader
  simp only [bind_assoc]
  refine Io.wpc_len hh ?_
  rw [hf]
  -- the code and headerOf refuse in the same order
  unfold headerOf at hk
  split_ifs at hk ⊢ with hlen
  · exact Wpc.ret hk.1 hk.2
  simp only [bind_assoc]
  refine Io.wpc_readAt hh (by rw [hf]; exact slice_of_le (by omega)) ?_
  rw [List.drop_zero]
  cases hpeek : Header.peekPageSize (main.take HEADER_PEEK_LEN) with
  | error e =>
      rw [hpeek] at hk
      exact Wpc.ret hk.1 hk.2
  | ok pageSize =>
      rw [hpeek] at hk
      dsimp only at hk
      refine Io.wpc_ofExcept rfl (Io.wpc_len hh ?_)
      rw [hf]
      split_ifs at hk ⊢ with hsize
      · exact Wpc.ret hk.1 hk.2
      simp only [bind_assoc]
      refine Io.wpc_readAt hh (by rw [hf]; exact slice_of_le (by omega)) ?_
      rw [List.drop_zero]
      cases hdec : Header.decode R.xxh (main.take pageSize) with
      | error e =>
          rw [hdec] at hk
          exact Wpc.ret hk.1 hk.2
      | ok header =>
          rw [hdec] at hk
          exact Io.wpc_ofExcept rfl hk

/-- Owning a handle passes the outcome on. -/
theorem wpc_owning_ends {α : Type} {G : α → Fs → Prop} {E : Prop} {h : Nat} {p : Io α}
    (hp : Wpc p.run fs (EndsIn G E) (fun _ => True)) :
    Wpc (Io.owning h p).run fs (EndsIn G E) (fun _ => True) := by
  refine Wpc.bind (Wpc.mono hp ?_ fun _ h => h)
  intro r s hr
  cases r with
  | ok a => exact Wpc.ret hr trivial
  | error e => exact Wpc.bind (Io.wpc_call trivial (fun _ => False.elim) (Wpc.ret hr trivial) trivial)

/-- The images that recovery copies, unless a page offset overflows. -/
theorem wpc_copyPages (hne : fm ≠ fw) {ps : Nat} {l : List (Nat × Nat)} (hl : ∀ e ∈ l, e.2 + ps ≤ wal.length)
    (hhm : fs.handles hm = some fm) (hhw : fs.handles hw = some fw) (hwal : (fs.files fw).current = wal)
    (hmain : (fs.files fm).current = main) :
    Wpc (applyPages hm hw ps l).run fs
      (EndsIn (fun _ s => l.all (fun e => e.1 * ps < 2 ^ 64) = true ∧ s.handles = fs.handles ∧
        (s.files fw).current = wal ∧ (s.files fm).current = copyPages wal ps l main)
        (l.all (fun e => e.1 * ps < 2 ^ 64) = false))
      (fun _ => True) := by
  induction l generalizing fs main with
  | nil => exact Io.wpc_pure ⟨rfl, rfl, hwal, hmain⟩ trivial
  | cons e rest ih =>
      rcases e with ⟨n, off⟩
      have hin := hl (n, off) List.mem_cons_self
      simp only [applyPages]
      refine Io.wpc_readAt hhw (by rw [hwal]; exact slice_of_le hin) ?_
      -- a page number too large for an offset is the only error
      by_cases hfits : n * ps < 2 ^ 64
      swap
      · have hoff : pageOffset n ps = .error (.invalidArgument "page offset overflow") := if_neg hfits
        rw [hoff]
        refine Wpc.ret ?_ trivial
        show ((n, off) :: rest).all _ = false
        rw [List.all_cons, decide_eq_false hfits, Bool.false_and]
      refine Io.wpc_ofExcept (if_pos hfits) (Io.wpc_writeAt hhm trivial trivial ?_)
      refine Wpc.mono (ih (fun e he => hl e (List.mem_cons_of_mem _ he)) hhm hhw ?_ rfl) ?_ fun _ h => h
      · simp [hne.symm, hwal]
      · intro r s hr
        cases r with
        | ok a =>
            rcases hr with ⟨hall, hh, hw', hm'⟩
            refine ⟨by rw [List.all_cons, decide_eq_true hfits, hall, Bool.true_and], hh, hw', ?_⟩
            rw [hm']
            simp [copyPages, File.write, hmain]
        | error e =>
            have hrest : rest.all (fun e => e.1 * ps < 2 ^ 64) = false := hr
            show ((n, off) :: rest).all _ = false
            rw [List.all_cons, hrest, Bool.and_false]

/-- The end of an opening: the log is emptied and the header read. -/
theorem wpc_emptyLog_readHeader (hne : fm ≠ fw) (hhm : fs.handles hm = some fm) (hhw : fs.handles hw = some fw)
    (hmain : (fs.files fm).current = main) {opts : PagerOptions} {walPath : Path} :
    Wpc (do
      let walLen ← Io.len hw
      if 0 < walLen then do
        Io.truncate hw 0
        Io.sync hw
      let header ← readHeader R.xxh hm
      pure { main := hm, wal := { file := hw, pageSize := header.pageSize }, walPath, header,
             checkpointThreshold := opts.checkpointThreshold } : Io Pager).run fs
      (EndsIn (OpenedOver R.xxh main) (∀ header, headerOf R.xxh main ≠ .ok header)) (fun _ => True) := by
  have hend : ∀ s : Fs, s.handles hm = some fm → (s.files fm).current = main → Wpc (do
      let header ← readHeader R.xxh hm
      pure { main := hm, wal := { file := hw, pageSize := header.pageSize }, walPath, header,
             checkpointThreshold := opts.checkpointThreshold } : Io Pager).run s
      (EndsIn (OpenedOver R.xxh main) (∀ header, headerOf R.xxh main ≠ .ok header)) (fun _ => True) := by
    intro s hs hms
    refine wpc_readHeader_any hs hms ?_
    cases hhead : headerOf R.xxh main with
    | ok header => exact Io.wpc_pure ⟨hhead, ⟨fm, hs, hms⟩, rfl, rfl⟩ trivial
    | error e =>
        refine ⟨?_, trivial⟩
        intro header h
        cases h
  refine Io.wpc_len hhw ?_
  split
  · refine Io.wpc_truncate hhw trivial (Io.wpc_sync (f := fw) hhw trivial (hend _ hhm ?_))
    simp [hne, hmain]
  · exact hend _ hhm hmain

/-- Recovery and what follows it, on two open files. -/
theorem wpc_recover_readHeader (hne : fm ≠ fw) (hhm : fs.handles hm = some fm) (hhw : fs.handles hw = some fw)
    (hmain : (fs.files fm).current = main) (hwal : (fs.files fw).current = wal) {opts : PagerOptions}
    {walPath : Path} :
    Wpc (do
      Pager.recover R hm hw
      let walLen ← Io.len hw
      if 0 < walLen then do
        Io.truncate hw 0
        Io.sync hw
      let header ← readHeader R.xxh hm
      pure { main := hm, wal := { file := hw, pageSize := header.pageSize }, walPath, header,
             checkpointThreshold := opts.checkpointThreshold } : Io Pager).run fs
      (EndsIn (fun p s => ∃ main', recoveredMain R.xxh main wal = .ok main' ∧ OpenedOver R.xxh main' p s)
        (∀ main' header, recoveredMain R.xxh main wal = .ok main' → headerOf R.xxh main' ≠ .ok header))
      (fun _ => True) := by
  -- once it is known what recovery makes of the main file, only the header is left to read
  have hmap : ∀ main', recoveredMain R.xxh main wal = .ok main' → ∀ r t,
      EndsIn (OpenedOver R.xxh main') (∀ header, headerOf R.xxh main' ≠ .ok header) r t →
      EndsIn (fun p s => ∃ main', recoveredMain R.xxh main wal = .ok main' ∧ OpenedOver R.xxh main' p s)
        (∀ main' header, recoveredMain R.xxh main wal = .ok main' → headerOf R.xxh main' ≠ .ok header) r t := by
    intro main' hmain' r t hr
    cases r with
    | ok p => exact ⟨main', hmain', hr⟩
    | error e =>
        intro m header hm
        rw [hmain'] at hm
        cases hm
        exact hr header
  unfold Pager.recover
  simp only [bind_assoc]
  refine wpc_scan hhw hwal ?_
  unfold recoveredMain at hmap ⊢
  -- a log that is no log is dropped
  cases hscan : scanBytes R.xxh FORMAT_VERSION wal with
  | none =>
      rw [hscan] at hmap
      exact Wpc.mono (wpc_emptyLog_readHeader hne hhm hhw hmain) (hmap main rfl) fun _ h => h
  | some r =>
      rw [hscan] at hmap
      dsimp only at hmap ⊢
      rcases scanBytes_bounds hscan with ⟨hin, _⟩
      simp only [bind_assoc]
      -- its pages are copied if the page sizes agree
      refine wpc_peekMainPageSize hhm hmain ?_
      split_ifs at hmap ⊢ with hcond hfits
      · simp only [bind_assoc]
        refine Wpc.bindExcept (Wpc.mono (wpc_copyPages hne hin hhm hhw hwal hmain) ?_ fun _ h => h)
        intro res t hres
        cases res with
        | error e =>
            have hno : _ = false := hres
            rw [hfits] at hno
            cases hno
        | ok u =>
            rcases hres with ⟨_, hh, _, hm'⟩
            refine Io.wpc_sync (f := fm) (by rw [hh]; exact hhm) trivial ?_
            refine Wpc.mono (wpc_emptyLog_readHeader hne ?_ ?_ ?_) (hmap _ rfl) fun _ h => h
            · rw [Fs.setFile_handles, hh]
              exact hhm
            · rw [Fs.setFile_handles, hh]
              exact hhw
            · simp [File.sync, hm']
      · -- a page offset overflows, and nothing of the log is dropped
        simp only [bind_assoc]
        refine Wpc.bindExcept (Wpc.mono (wpc_copyPages hne hin hhm hhw hwal hmain) ?_ fun _ h => h)
        intro res t hres
        cases res with
        | error e =>
            refine ⟨?_, trivial⟩
            intro m header hm
            cases hm
        | ok u => exact absurd hres.1 hfits
      · exact Wpc.mono (wpc_emptyLog_readHeader hne hhm hhw hmain) (hmap main rfl) fun _ h => h

/-- What opening two closed files ends in. -/
theorem wpc_openStore_closed {path : Path} (h : Closed path fs fm main wal) (opts : PagerOptions) :
    Wpc (Pager.openStore R path opts).run fs
      (EndsIn (fun p s => ∃ main', recoveredMain R.xxh main wal = .ok main' ∧ OpenedOver R.xxh main' p s)
        (∀ main' header, recoveredMain R.xxh main wal = .ok main' → headerOf R.xxh main' ≠ .ok header))
      (fun _ => True) := by
  unfold Pager.openStore
  refine Io.wpc_openFile (fs.addHandle fm) fs.nextHandle (by simp [Fs.exec, h.name]) trivial ?_
  refine wpc_owning_ends ?_
  refine Io.wpc_tryLockExclusive (f := fm) (by simp [Fs.addHandle]) h.unlocked trivial ?_
  simp only [Bool.not_true, Bool.false_eq_true, if_false]
  have hlt := h.name_lt
  -- a log of that name is taken as it is; otherwise an empty one is created
  cases hn : fs.names (walPathFor path) with
  | some fw =>
      refine Io.wpc_openFile (Fs.addHandle { fs.addHandle fm with
        locks := Function.update (fs.addHandle fm).locks fm (some fs.nextHandle) } fw) (fs.nextHandle + 1)
        (by simp [Fs.exec, hn, Fs.addHandle]) trivial ?_
      refine wpc_owning_ends ?_
      refine wpc_recover_readHeader (h.wal_ne fw hn).symm ?_ ?_ ?_ ?_
      · simp [Fs.addHandle]
      · simp [Fs.addHandle]
      · exact h.main_eq
      · have hwal := h.wal_eq
        simp only [walFile, hn] at hwal
        exact hwal
  | none =>
      have hne : fm ≠ fs.nextFile := by omega
      refine Io.wpc_openFile (((Fs.addFile { fs.addHandle fm with
        locks := Function.update (fs.addHandle fm).locks fm (some fs.nextHandle) }
          (walPathFor path))).addHandle fs.nextFile) (fs.nextHandle + 1)
        (by simp [Fs.exec, hn, Fs.addHandle, Fs.addFile]) trivial ?_
      refine wpc_owning_ends ?_
      refine wpc_recover_readHeader hne ?_ ?_ ?_ ?_
      · simp [Fs.addHandle, Fs.addFile]
      · simp [Fs.addHandle, Fs.addFile]
      · simp [Fs.addHandle, Fs.addFile, hne, h.main_eq]
      · have hwal := h.wal_eq
        simp only [walFile, hn] at hwal
        simp [Fs.addHandle, Fs.addFile, ← hwal]

end Spec

/-! ## The header page of a main file -/

/-- A header that was read comes from one valid page. -/
theorem Header.decode_page {H : Xxh3} {page : Bytes} {header : Header} (h : Header.decode H page = .ok header) :
    page.length = header.pageSize ∧ pageChecksumIsValid H page = true ∧ 0 < header.pageCount := by
  unfold Header.decode at h
  split at h
  · cases h
  rcases bind_eq_ok.mp h with ⟨version, _, h⟩
  split at h
  · cases h
  split at h
  · cases h
  rcases bind_eq_ok.mp h with ⟨pageSize, _, h⟩
  split at h
  · cases h
  rename_i hsize
  split at h
  · cases h
  rename_i hsum
  rcases bind_eq_ok.mp h with ⟨flags, _, h⟩
  split at h
  · cases h
  rcases bind_eq_ok.mp h with ⟨idLen, _, h⟩
  split at h
  · cases h
  rcases bind_eq_ok.mp h with ⟨idBytes, _, h⟩
  rcases bind_eq_ok.mp h with ⟨modelId, _, h⟩
  rcases bind_eq_ok.mp h with ⟨pageCount, _, h⟩
  split at h
  · cases h
  rename_i hcount
  rcases bind_eq_ok.mp h with ⟨rootBtree, _, h⟩
  rcases bind_eq_ok.mp h with ⟨freelist, _, h⟩
  rcases bind_eq_ok.mp h with ⟨hnswMeta, _, h⟩
  rcases bind_eq_ok.mp h with ⟨ftsRoot, _, h⟩
  rcases bind_eq_ok.mp h with ⟨graphRoot, _, h⟩
  rcases bind_eq_ok.mp h with ⟨filterMeta, _, h⟩
  rcases bind_eq_ok.mp h with ⟨filterSymbols, _, h⟩
  rcases bind_eq_ok.mp h with ⟨txnCounter, _, h⟩
  rcases bind_eq_ok.mp h with ⟨dims, _, h⟩
  rcases bind_eq_ok.mp h with ⟨quant, _, h⟩
  cases h
  rw [not_or, not_not] at hsize
  refine ⟨hsize.2, ?_, Nat.pos_of_ne_zero hcount⟩
  simpa using hsum

/-- The header page of a main file. -/
theorem headerOf_ok {H : Xxh3} {main : Bytes} {header : Header} (h : headerOf H main = .ok header) :
    header.pageSize ≤ main.length ∧ Header.decode H (main.take header.pageSize) = .ok header := by
  unfold headerOf at h
  split_ifs at h
  cases hpeek : Header.peekPageSize (main.take HEADER_PEEK_LEN) with
  | error e =>
      rw [hpeek] at h
      cases h
  | ok pageSize =>
      rw [hpeek] at h
      dsimp only at h
      split_ifs at h with hlen
      have hsize := (Header.decode_page h).1
      rw [List.length_take, min_eq_left (not_lt.mp hlen)] at hsize
      rw [← hsize]
      exact ⟨not_lt.mp hlen, h⟩

/-- The header page that a creation writes is read as the header it is. -/
theorem headerOf_image {H : Xxh3} {header : Header} (hwf : header.Wf) : headerOf H (header.image H) = .ok header := by
  have hps := (pageSizeIsValid_iff.mp hwf.pageSize).1
  have hlen : (header.image H).length = header.pageSize := Header.image_length H header
  have hpeek : Header.peekPageSize ((header.image H).take HEADER_PEEK_LEN) = .ok header.pageSize := by
    have hpre : slice (header.image H) 0 16 = some ((header.image H).take HEADER_PEEK_LEN) := by
      rw [slice_of_le (by rw [hlen]; omega), List.drop_zero, HEADER_PEEK_LEN]
    exact Header.peekPageSize_of_slice hwf hpre
  unfold headerOf
  rw [if_neg (by rw [hlen, HEADER_PEEK_LEN]; omega), hpeek]
  dsimp only
  rw [if_neg (by rw [hlen]; exact lt_irrefl _), ← hlen, List.take_length]
  exact Header.decode_image hwf

/-! ## A store that stays empty -/

/-- The store that has been opened is the empty one: only the header page that a creation
writes can be read. -/
structure EmptyStore (R : Runtime) (opts : PagerOptions) (p : Pager) (fs : Fs) : Prop where
  pageCount : p.header.pageCount = 1
  txnCounter : p.header.txnCounter = 0
  roots : ∀ root ∈ [p.header.rootBtreePage, p.header.freelistPage, p.header.hnswMetaPage, p.header.ftsRootPage,
    p.header.graphRootPage, p.header.filterMetaPage, p.header.filterSymbolsPage], root = 0
  pages : ∀ n page, ((p.readPage R n).run.run fs).2 = .ok page →
    n = 0 ∧ page = (createdState opts).header.image R.xxh

/-- Whenever the process dies between two calls of a creation, a later opening fails or
gives the empty store. -/
def StaysEmpty (R : Runtime) (path : Path) (opts : PagerOptions) (fs : Fs) : Prop :=
  ∀ s, Prog.Between (Pager.create R path opts).run fs s → ∀ opts' fs' p,
    (Pager.openStore R path opts').run.run s.died = (fs', .ok p) → EmptyStore R opts p fs'

/-- The options that a creation accepts. -/
structure PagerOptions.Valid (opts : PagerOptions) : Prop where
  version_pos : 1 ≤ opts.formatVersion
  version_le : opts.formatVersion ≤ FORMAT_VERSION
  pageSize : pageSizeIsValid opts.pageSize = true

/-- Recovery of an empty main file from the log gives one with a header page, and not the
one that a creation writes. -/
def Revives (H : Xxh3) (page0 wal : Bytes) : Prop :=
  ∃ main header, recoveredMain H [] wal = .ok main ∧ headerOf H main = .ok header ∧
    main.take header.pageSize ≠ page0

section Empty

variable {R : Runtime} {path : Path} {opts : PagerOptions} {fs : Fs} {p : Pager} {main wal : Bytes} {fm : Nat}

/-- Page 0 of a store that has just been opened. -/
theorem OpenedOver.readPage_zero (h : OpenedOver R.xxh main p fs) :
    ((p.readPage R 0).run.run fs).2 = .ok (main.take p.header.pageSize) := by
  rcases headerOf_ok h.header with ⟨hle, hdec⟩
  rcases Header.decode_page hdec with ⟨_, hsum, hcount⟩
  rcases h.file with ⟨fm, hh, hmain⟩
  have hw : Wpc (p.readPage R 0).run fs (fun r _ => r = .ok (main.take p.header.pageSize)) (fun _ => True) := by
    unfold Pager.readPage
    rw [h.broken, h.walIndex]
    simp only [Bool.false_eq_true, if_false]
    rw [if_neg (by omega)]
    have hoff : pageOffset 0 p.header.pageSize = .ok 0 := by
      unfold pageOffset
      rw [Nat.zero_mul]
      rfl
    have hslice : slice (fs.files fm).current 0 p.header.pageSize = some (main.take p.header.pageSize) := by
      rw [hmain, slice_of_le (by omega), List.drop_zero]
    refine Io.wpc_ofExcept hoff (Io.wpc_readAt hh hslice ?_)
    rw [hsum]
    simp only [Bool.true_eq_false, if_false]
    exact Io.wpc_pure rfl trivial
  exact hw.1

/-- Pages past the count are not read. -/
theorem readPage_outOfBounds {n : Nat} {page : Bytes} (h : ((p.readPage R n).run.run fs).2 = .ok page) :
    n < p.header.pageCount := by
  by_contra hn
  unfold Pager.readPage at h
  dsimp only at h
  split at h
  · cases h
  · rw [if_pos (not_lt.mp hn)] at h
    cases h

/-- A store that has just been opened is empty if and only if its first page is the one
that a creation writes. -/
theorem OpenedOver.emptyStore_iff (hopts : opts.Valid) (h : OpenedOver R.xxh main p fs) :
    EmptyStore R opts p fs ↔ main.take p.header.pageSize = (createdState opts).header.image R.xxh := by
  have hstore : Storable R.xxh (createdState opts) := storable_created hopts.version_pos hopts.version_le hopts.pageSize
  constructor
  · intro hempty
    exact (hempty.pages 0 _ h.readPage_zero).2
  · intro hpage
    have hdec := (headerOf_ok h.header).2
    rw [hpage, Header.decode_image hstore.wf.header] at hdec
    have hheader : p.header = (createdState opts).header := (Except.ok.inj hdec).symm
    refine ⟨by rw [hheader]; rfl, by rw [hheader]; rfl, ?_, ?_⟩
    · rw [hheader]
      intro root hroot
      simpa [createdState, Committed.fresh] using hroot
    · intro n page hread
      have hn := readPage_outOfBounds hread
      rw [hheader] at hn
      have hzero : n = 0 := Nat.lt_one_iff.mp hn
      subst hzero
      rw [h.readPage_zero] at hread
      exact ⟨rfl, (Except.ok.inj hread).symm.trans hpage⟩

/-- Opening two closed files gives the empty store or fails, exactly if recovery leaves no
other header page. -/
theorem Closed.opens_empty (hopts : opts.Valid) (h : Closed path fs fm main wal)
    (hpage : ∀ main' header, recoveredMain R.xxh main wal = .ok main' → headerOf R.xxh main' = .ok header →
      main'.take header.pageSize = (createdState opts).header.image R.xxh)
    {opts' : PagerOptions} {fs' : Fs} (hrun : (Pager.openStore R path opts').run.run fs = (fs', .ok p)) :
    EmptyStore R opts p fs' := by
  have hends := (wpc_openStore_closed (R := R) h opts').1
  rw [hrun] at hends
  rcases hends with ⟨main', hmain', hopened⟩
  exact (hopened.emptyStore_iff hopts).mpr (hpage main' p.header hmain' hopened.header)

/-- A creation starts with the call that makes the main file. -/
theorem create_run (R : Runtime) (path : Path) (hopts : opts.Valid) :
    ∃ k, (Pager.create R path opts).run = .op (.openFile path .createNew) k := by
  have hv := hopts.version_pos
  have hv' := hopts.version_le
  have hnew : Header.new opts.pageSize = .ok (createdState { opts with formatVersion := FORMAT_VERSION }).header := by
    simp [Header.new, hopts.pageSize, createdState, Committed.fresh]
  unfold Pager.create
  rw [if_neg (by omega), hnew]
  exact ⟨_, rfl⟩

/-- A creation with options that it does not accept makes no call. -/
theorem create_run_invalid (R : Runtime) (path : Path) (hopts : ¬ opts.Valid) :
    ∃ e, (Pager.create R path opts).run = .ret (.error e) := by
  unfold Pager.create
  by_cases hv : opts.formatVersion = 0 ∨ FORMAT_VERSION < opts.formatVersion
  · rw [if_pos hv]
    exact ⟨_, rfl⟩
  · have hnew : Header.new opts.pageSize = .error (.invalidArgument "unsupported page size") := by
      unfold Header.new
      rw [if_neg]
      intro hps
      exact hopts ⟨by omega, by omega, hps⟩
    rw [if_neg hv, hnew]
    exact ⟨_, rfl⟩

/-- There is nothing to open under a free name. -/
theorem openStore_missing {opts' : PagerOptions} {fs' : Fs} (hnew : fs.names path = none) :
    (Pager.openStore R path opts').run.run fs ≠ (fs', .ok p) := by
  intro hrun
  have hexec : Fs.exec fs (.openFile path .mustExist) = (fs, .error .notFound) := by simp [Fs.exec, hnew]
  have hfail : Wpc (Pager.openStore R path opts').run fs (fun r _ => ∃ e, r = .error e) (fun _ => True) := by
    unfold Pager.openStore
    refine Io.wpc_ofCall (Io.wpc_call trivial (fun _ => False.elim) ?_ trivial)
    rw [hexec]
    exact ⟨⟨_, rfl⟩, trivial⟩
  rcases hfail.1 with ⟨e, he⟩
  rw [hrun] at he
  cases he

/-- Without a log the main file stays. -/
theorem recoveredMain_noLog (H : Xxh3) (main : Bytes) : recoveredMain H main [] = .ok main := rfl

/-- The process that dies once the main file is there leaves the log to recovery. -/
theorem not_staysEmpty_of_revives (hfs : fs.Wf) (hnew : fs.names path = none) (hopts : opts.Valid)
    (hrevives : Revives R.xxh ((createdState opts).header.image R.xxh) (walFile path fs).current) :
    ¬ StaysEmpty R path opts fs := by
  intro hstays
  rcases hrevives with ⟨main, header, hmain, hheader, hne⟩
  have hclosed := closed_addFile path hfs
  have hbetween : Prog.Between (Pager.create R path opts).run fs ((fs.addFile path).addHandle fs.nextFile) := by
    rcases create_run R path hopts with ⟨k, hk⟩
    have hexec : Fs.exec fs (.openFile path .createNew) = ((fs.addFile path).addHandle fs.nextFile, .ok fs.nextHandle) := by
      simp [Fs.exec, hnew, Fs.addFile]
    rw [hk]
    refine .later _ k fs _ ?_
    rw [show (vfs.exec fs (.openFile path .createNew)).1 = (fs.addFile path).addHandle fs.nextFile by
      exact congrArg Prod.fst hexec]
    exact .here _ _
  have hends := (wpc_openStore_closed (R := R) hclosed {}).1
  cases hrun : (Pager.openStore R path {}).run.run ((fs.addFile path).addHandle fs.nextFile).died with
  | mk fs' r =>
      rw [hrun] at hends
      cases r with
      | error e => exact hends main header hmain hheader
      | ok p =>
          rcases hends with ⟨main', hmain', hopened⟩
          rw [hmain] at hmain'
          cases hmain'
          have hempty := (hopened.emptyStore_iff hopts).mp (hstays _ hbetween {} fs' p hrun)
          have hsame := hopened.header
          rw [hheader] at hsame
          cases hsame
          exact hne hempty

/-- A creation leaves the empty store or none, whatever call the process dies before, if
and only if the log beside it does not bring a header page back. -/
theorem create_stays_empty_iff (R : Runtime) (path : Path) (opts : PagerOptions) (hfs : fs.Wf)
    (hnew : fs.names path = none) :
    StaysEmpty R path opts fs ↔
      (opts.Valid → ¬ Revives R.xxh ((createdState opts).header.image R.xxh) (walFile path fs).current) := by
  constructor
  · intro hstays hopts hrevives
    exact not_staysEmpty_of_revives hfs hnew hopts hrevives hstays
  · intro hcond s hbetween opts' fs' p hrun
    -- options that are refused leave no file behind
    by_cases hopts : opts.Valid
    swap
    · rcases create_run_invalid R path hopts with ⟨e, he⟩
      rw [he] at hbetween
      cases hbetween
      exact absurd hrun (openStore_missing (show fs.died.names path = none from hnew))
    have hstore : Storable R.xxh (createdState opts) :=
      storable_created hopts.version_pos hopts.version_le hopts.pageSize
    have hcreating := (wpc_create (R := R) hfs hopts.version_pos hopts.version_le hopts.pageSize hnew).2 s
      hbetween.interrupt
    -- no file yet, the orphan log still there, or the log gone
    cases hcreating with
    | before hnone => exact absurd hrun (openStore_missing (show s.died.names path = none from hnone))
    | opened fm hclosed =>
        refine hclosed.opens_empty hopts ?_ hrun
        intro main header hmain hheader
        by_contra hne
        exact hcond hopts ⟨main, header, hmain, hheader, hne⟩
    | unlogged fm main hclosed hmain =>
        refine hclosed.opens_empty hopts ?_ hrun
        intro main' header hmain' hheader
        rw [recoveredMain_noLog] at hmain'
        cases hmain'
        rcases hmain with hnil | himage
        · rw [hnil] at hheader
          cases hheader
        · rw [himage, headerOf_image hstore.wf.header] at hheader
          cases hheader
          rw [himage, ← Header.image_length R.xxh (createdState opts).header, List.take_length]

end Empty

/-- Nothing but the log of a deleted store. -/
def orphanFs (path : Path) (wal : Bytes) : Fs where
  names := fun q => if q = walPathFor path then some 0 else none
  files := fun f => if f = 0 then File.clean wal else {}
  nextFile := 1
  handles := fun _ => none
  nextHandle := 0
  locks := fun _ => none

theorem orphanFs_wf (path : Path) (wal : Bytes) : (orphanFs path wal).Wf := by
  constructor
  · intro q f hf
    simp only [orphanFs] at hf ⊢
    split_ifs at hf
    cases hf
    exact Nat.one_pos
  · intro f _
    rfl

theorem orphanFs_name (path : Path) (wal : Bytes) : (orphanFs path wal).names path = none :=
  if_neg (walPathFor_ne path).symm

theorem walFile_orphanFs (path : Path) (wal : Bytes) : walFile path (orphanFs path wal) = File.clean wal := by
  simp [walFile, orphanFs]

/-! ## Logs that are harmless -/

/-- A write behind the first byte. -/
theorem getD_zero_patch {buf val : Bytes} {off : Nat} (hoff : off ≠ 0) : (patch buf off val).getD 0 0 = buf.getD 0 0 := by
  unfold patch splice
  rw [if_pos (by simp; omega), List.append_assoc, List.getD_append _ _ _ _ (by simp; omega)]
  cases buf with
  | cons b rest => cases off with
    | zero => exact absurd rfl hoff
    | succ off => rfl
  | nil =>
      simp only [List.getD_eq_getElem?_getD, List.nil_append]
      rw [List.getElem?_take_of_lt (Nat.pos_of_ne_zero hoff), List.getElem?_replicate]
      split <;> rfl

/-- Pages other than page 0 leave the first byte alone. -/
theorem getD_zero_copyPages {wal main : Bytes} {pageSize : Nat} {pages : List (Nat × Nat)} (hps : pageSize ≠ 0)
    (h : ∀ e ∈ pages, e.1 ≠ 0) : (copyPages wal pageSize pages main).getD 0 0 = main.getD 0 0 := by
  induction pages generalizing main with
  | nil => rfl
  | cons e pages ih =>
      rcases e with ⟨pageNo, offset⟩
      have hpage := h (pageNo, offset) List.mem_cons_self
      unfold copyPages
      rw [ih fun e he => h e (List.mem_cons_of_mem _ he), getD_zero_patch (Nat.mul_ne_zero hpage hps)]

/-- No header starts with a zero. -/
theorem headerOf_of_zero {H : Xxh3} {main : Bytes} {header : Header} (hzero : main.getD 0 0 = 0) :
    headerOf H main ≠ .ok header := by
  intro h
  unfold headerOf at h
  split at h
  · cases h
  · rename_i hlen
    cases hpeek : Header.peekPageSize (main.take HEADER_PEEK_LEN) with
    | error e =>
        rw [hpeek] at h
        cases h
    | ok pageSize =>
        have hmagic := (peekPageSize_eq_ok.mp hpeek).1
        rcases slice_eq_some.mp hmagic with ⟨_, heq⟩
        have hfirst := congrArg (fun bs => bs.getD 0 0) heq
        rw [List.drop_zero, List.take_take] at hfirst
        simp only [List.getD_eq_getElem?_getD] at hfirst hzero
        rw [List.getElem?_take_of_lt (by decide), hzero] at hfirst
        exact absurd hfirst (by decide)

/-- An orphan log that commits no image of page 0 is harmless. -/
theorem not_revives_of_no_header {H : Xxh3} {page0 wal : Bytes}
    (h : ∀ r, scanBytes H FORMAT_VERSION wal = some r → ∀ e ∈ r.committed, e.1 ≠ 0) : ¬ Revives H page0 wal := by
  intro hrevives
  rcases hrevives with ⟨main, header, hmain, hheader, _⟩
  have hempty : headerOf H [] ≠ .ok header := headerOf_of_zero rfl
  unfold recoveredMain at hmain
  cases hscan : scanBytes H FORMAT_VERSION wal with
  | none =>
      rw [hscan] at hmain
      cases hmain
      exact hempty hheader
  | some r =>
      rw [hscan] at hmain
      dsimp only at hmain
      have hps : r.pageSize ≠ 0 := by
        rw [scanBytes_eq] at hscan
        split at hscan
        · cases hscan
        · rcases Option.map_eq_some_iff.mp hscan with ⟨walHeader, hdec, hr⟩
          have hvalid := (pageSizeIsValid_iff.mp (WalHeader.pageSize_of_decode hdec).2).1
          rw [← hr]
          dsimp only
          omega
      split at hmain
      · split at hmain
        · cases hmain
          refine headerOf_of_zero ?_ hheader
          rw [getD_zero_copyPages hps (h r hscan)]
          rfl
        · cases hmain
      · cases hmain
        exact hempty hheader

/-- A log of one frame, which commits page 1. -/
def strayLog : Bytes :=
  (WalHeader.mk FORMAT_VERSION 512 7).encode ++ Wal.frameBytes Runtime.counting.xxh 1 7 true (1, List.replicate 512 7)

/-- Beside that log a creation is safe. -/
theorem create_stays_empty_iff_stray_log :
    (scanBytes Runtime.counting.xxh FORMAT_VERSION strayLog).map RecoveredWal.committed = some [(1, 64)] ∧
      StaysEmpty Runtime.counting "memory.mind" {} (orphanFs "memory.mind" strayLog) := by
  have hscan : (scanBytes Runtime.counting.xxh FORMAT_VERSION strayLog).map RecoveredWal.committed = some [(1, 64)] := by
    decide +kernel
  refine ⟨hscan, (create_stays_empty_iff Runtime.counting "memory.mind" {} (orphanFs_wf _ _) (orphanFs_name _ _)).mpr ?_⟩
  intro _
  rw [walFile_orphanFs]
  refine not_revives_of_no_header ?_
  intro r hr e he
  have hpages : r.committed = [(1, 64)] := by
    rw [show (File.clean strayLog).current = strayLog from rfl] at hr
    rw [hr] at hscan
    exact Option.some.inj hscan
  rw [hpages] at he
  rw [List.mem_singleton.mp he]
  decide

set_option maxRecDepth 100000 in
theorem revives_logOf_counting : Revives Runtime.counting.xxh ((createdState {}).header.image Runtime.counting.xxh) (logOf .counting [1]) := by
  have hrun : (recoveredMain Runtime.counting.xxh [] (logOf .counting [1])).toOption.any (fun main =>
      (headerOf Runtime.counting.xxh main).toOption.any fun header =>
        decide (main.take header.pageSize ≠ (createdState {}).header.image Runtime.counting.xxh)) = true := by
    decide +kernel
  unfold Revives
  cases hmain : recoveredMain Runtime.counting.xxh [] (logOf .counting [1]) with
  | error e =>
      rw [hmain] at hrun
      cases hrun
  | ok main =>
      rw [hmain] at hrun
      change (headerOf Runtime.counting.xxh main).toOption.any _ = true at hrun
      cases hheader : headerOf Runtime.counting.xxh main with
      | error e =>
          rw [hheader] at hrun
          cases hrun
      | ok header =>
          rw [hheader] at hrun
          exact ⟨main, header, rfl, hheader, of_decide_eq_true hrun⟩

/-- The log of a deleted store holds one commit. A creation under the same name dies before
it deletes the log, and the next opening gives the deleted store. -/
theorem create_revives_deleted_store :
    ¬ StaysEmpty Runtime.counting "memory.mind" {} (orphanFs "memory.mind" (logOf .counting [1])) := by
  refine not_staysEmpty_of_revives (orphanFs_wf _ _) (orphanFs_name _ _) ⟨by decide, by decide, by decide⟩ ?_
  rw [walFile_orphanFs]
  exact revives_logOf_counting

end EmbedMind
