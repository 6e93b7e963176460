import EmbedMind.Storage.Log

/-!
# Disks a committed state can be recovered from

`Recoverable H c main wal`: the bytes of the two files give the committed state
`c`. A page is taken from the log if the log's committed map has it and from the
main file otherwise, so the pages of the main file that the map covers may hold
anything; this is what makes a torn checkpoint harmless. `DiskOk P main wal` says
that every pair of images a power failure may leave of the two files is
recoverable, to a state in `P`.
-/

namespace EmbedMind

open Lib Lib.Assoc

/-! ## Mixed images -/

theorem Mixes.length_le {a b img : Bytes} (h : Mixes a b img) {n : Nat} (ha : n ≤ a.length)
    (hb : n ≤ b.length) : n ≤ img.length := by
  have := h.1
  omega

/-- Bytes on which both sides agree survive. -/
theorem Mixes.slice_eq {a b img bs : Bytes} (h : Mixes a b img) {off len : Nat}
    (ha : slice a off len = some bs) (hb : slice b off len = some bs) :
    slice img off len = some bs := by
  have hla := (slice_eq_some.mp ha).1
  have hlb := (slice_eq_some.mp hb).1
  have hli := h.length_le hla hlb
  rw [← ha]
  refine slice_congr_getD hli hla ?_
  intro i hlo hhi
  refine h.getD_eq (by omega) ?_
  obtain ⟨j, rfl⟩ := Nat.exists_eq_add_of_le hlo
  rw [getD_of_slice ha (by omega), getD_of_slice hb (by omega)]

/-- Bytes within one sector come from one side. -/
theorem Mixes.slice_sector {a b img : Bytes} (h : Mixes a b img) {off len : Nat}
    (hsec : ∀ i, off ≤ i → i < off + len → i / sectorSize = off / sectorSize)
    (ha : off + len ≤ a.length) (hb : off + len ≤ b.length) :
    slice img off len = slice a off len ∨ slice img off len = slice b off len := by
  have hli := h.length_le ha hb
  rcases h.2.2 (off / sectorSize) with h1 | h1
  · refine Or.inl (slice_congr_getD hli ha ?_)
    intro i hlo hhi
    exact h1 i (hsec i hlo hhi) (by omega)
  · refine Or.inr (slice_congr_getD hli hb ?_)
    intro i hlo hhi
    exact h1 i (hsec i hlo hhi) (by omega)

/-- A file that was not cut survives as a mix of what was synced, what the process
saw and what it was about to write. -/
theorem File.Survives.of_mixes {f : File} {img : Bytes} {P : Bytes → Prop} (h : f.Survives img)
    (hcut : f.cut = none) (hmix : ∀ a b x, P a → P b → Mixes a b x → P x)
    (hs : P f.synced) (hc : P f.current) (hw : P f.written) : P img := by
  obtain ⟨cache, hcache, himg⟩ := h
  rw [hcut] at himg
  exact hmix _ _ _ hs (hmix _ _ _ hc hw hcache) himg

/-! ## Recoverable states -/

/-- A committed state whose page offsets fit the 64-bit offsets of the files. -/
structure Storable (H : Xxh3) (c : Committed) : Prop where
  wf : c.Wf H
  fits : c.header.pageCount * c.header.pageSize ≤ 2 ^ 64

/-- Offsets within a state that can be stored do not overflow. -/
theorem Storable.pageOffset {H : Xxh3} {c : Committed} (h : Storable H c) {n : Nat}
    (hn : n < c.header.pageCount) :
    pageOffset n c.header.pageSize = .ok (n * c.header.pageSize) := by
  refine if_pos ?_
  have hps := (pageSizeIsValid_iff.mp h.wf.header.pageSize).1
  have h1 : (n + 1) * c.header.pageSize ≤ c.header.pageCount * c.header.pageSize :=
    Nat.mul_le_mul_right _ hn
  have := h.fits
  rw [Nat.add_mul] at h1
  omega

/-- The pages of the main file that the log does not cover, and the page size at
its start. -/
structure MainOk (H : Xxh3) (c : Committed) (index : List (Nat × Nat)) (bs : Bytes) : Prop where
  peek : ∃ pre, slice bs 0 HEADER_PEEK_LEN = some pre ∧
    Header.peekPageSize pre = .ok c.header.pageSize
  pages : ∀ n, n < c.header.pageCount → find n index = none →
    slice bs (n * c.header.pageSize) c.header.pageSize = some (c.image H n)

/-- The images that the log holds after some transactions are those of `c`, its header
page among them. -/
structure Holds (H : Xxh3) (log : Bytes) (txns : List (Nat × List (Nat × Nat))) (c : Committed) : Prop where
  wf : c.Wf H
  images : ∀ e ∈ replay [] txns, e.1 < c.header.pageCount ∧
    slice log e.2 c.header.pageSize = some (c.image H e.1)
  header : ∃ e ∈ replay [] txns, e.1 = 0

/-- The transactions of the log lead from state to state, each one id further. -/
inductive Chain (H : Xxh3) (log : Bytes) : List (Nat × List (Nat × Nat)) → Committed → Prop where
  | first {txn : Nat × List (Nat × Nat)} {c : Committed} : Holds H log [txn] c → Chain H log [txn] c
  | next {txns : List (Nat × List (Nat × Nat))} {txn : Nat × List (Nat × Nat)} {c c' : Committed} :
      Chain H log txns c → c'.header.pageSize = c.header.pageSize →
      c.header.pageCount ≤ c'.header.pageCount →
      c'.header.txnCounter = (c.header.txnCounter + 1) % 2 ^ 64 → Holds H log (txns ++ [txn]) c' →
      Chain H log (txns ++ [txn]) c'

/-- A chain of transactions ends in its state. -/
theorem Chain.holds {H : Xxh3} {log : Bytes} {txns : List (Nat × List (Nat × Nat))} {c : Committed}
    (h : Chain H log txns c) : Holds H log txns c := by
  cases h with
  | first h => exact h
  | next _ _ _ _ h => exact h

/-- The last state of a chain may be exchanged for one with the same header. -/
theorem Chain.replace {H : Xxh3} {log : Bytes} {txns : List (Nat × List (Nat × Nat))} {c c' : Committed}
    (h : Chain H log txns c) (hc : c.header = c'.header) (hh : Holds H log txns c') : Chain H log txns c' := by
  cases h with
  | first _ => exact .first hh
  | next hchain h1 h2 h3 _ => exact .next hchain (hc ▸ h1) (hc ▸ h2) (hc ▸ h3) hh

/-- A log in which the images of the transactions are the same. -/
theorem Chain.mono {H : Xxh3} {log w : Bytes} {txns : List (Nat × List (Nat × Nat))} {c : Committed}
    (h : Chain H log txns c) (hw : ∀ txn ∈ txns, ∀ e ∈ txn.2, ∀ bs, slice log e.2 c.header.pageSize = some bs →
      slice w e.2 c.header.pageSize = some bs) : Chain H w txns c := by
  have hholds : ∀ {txns : List (Nat × List (Nat × Nat))} {c : Committed}, Holds H log txns c →
      (∀ txn ∈ txns, ∀ e ∈ txn.2, ∀ bs, slice log e.2 c.header.pageSize = some bs →
        slice w e.2 c.header.pageSize = some bs) → Holds H w txns c := by
    intro txns c h hw
    refine ⟨h.wf, ?_, h.header⟩
    intro e he
    rcases mem_replay he with hnil | ⟨txn, htxn, hin⟩
    · cases hnil
    · exact ⟨(h.images e he).1, hw txn htxn e hin _ (h.images e he).2⟩
  induction h with
  | first h => exact .first (hholds h hw)
  | @next txns txn c c' _ h1 h2 h3 h ih =>
      refine .next (ih ?_) h1 h2 h3 (hholds h hw)
      rw [← h1]
      exact fun t ht => hw t (List.mem_append_left _ ht)

/-- What a scan of the log gives: a map to images of pages of the store, which it has
reached transaction by transaction. -/
structure LogView (H : Xxh3) (c : Committed) (log : Bytes) (index : List (Nat × Nat)) : Prop where
  scan : scanBytes H FORMAT_VERSION log =
      some { pageSize := c.header.pageSize, committed := index } ∨
    (scanBytes H FORMAT_VERSION log = none ∧ index = [])
  sorted : Sorted index
  images : ∀ e ∈ index, e.1 < c.header.pageCount ∧
    slice log e.2 c.header.pageSize = some (c.image H e.1)
  chain : logTxns H log ≠ [] → Chain H log (logTxns H log) c

/-- The two files hold the state `c`. -/
def Recoverable (H : Xxh3) (c : Committed) (main wal : Bytes) : Prop :=
  Storable H c ∧ ∃ index, LogView H c wal index ∧ MainOk H c index main

/-- Ideal checksums: a frame slot of a surviving image validates only if it is
exactly what was written there. -/
def IdealChecksums (H : Xxh3) (f : File) (img : Bytes) : Prop :=
  ∀ header k, WalHeader.decode (img.take WAL_HEADER_LEN) = some header →
    frameAt H img header
      (WAL_HEADER_LEN + k * (WAL_FRAME_HEADER_LEN + header.pageSize)) ≠ none →
    ∃ v, (v = f.synced ∨ v = f.current ∨ v = f.written ∨ ∃ w, f.cut = some (v, w) ∨ f.cut = some (w, v)) ∧
      slice img (WAL_HEADER_LEN + k * (WAL_FRAME_HEADER_LEN + header.pageSize))
          (WAL_FRAME_HEADER_LEN + header.pageSize) =
        slice v (WAL_HEADER_LEN + k * (WAL_FRAME_HEADER_LEN + header.pageSize))
          (WAL_FRAME_HEADER_LEN + header.pageSize)

/-- Whatever a power failure leaves of the two files is recoverable, to a state in `P`. -/
def DiskOk (H : Xxh3) (P : Committed → Prop) (main wal : File) : Prop :=
  ∀ mainImg walImg, main.Survives mainImg → wal.Survives walImg → IdealChecksums H wal walImg →
    ∃ c, P c ∧ Recoverable H c mainImg walImg

/-- Weakening. -/
theorem DiskOk.mono {H : Xxh3} {P P' : Committed → Prop} {main wal : File}
    (h : DiskOk H P main wal) (hP : ∀ c, P c → P' c) : DiskOk H P' main wal := by
  intro m w hm hw hi
  obtain ⟨c, hc, hr⟩ := h m w hm hw hi
  exact ⟨c, hP c hc, hr⟩

section Main

variable {H : Xxh3} {c : Committed} {index : List (Nat × Nat)}

/-- A mix of two main files that carry a state carries it. -/
theorem MainOk.mixes {a b img : Bytes} (ha : MainOk H c index a) (hb : MainOk H c index b)
    (h : Mixes a b img) : MainOk H c index img := by
  refine ⟨?_, ?_⟩
  · obtain ⟨pa, hsa, hpa⟩ := ha.peek
    obtain ⟨pb, hsb, hpb⟩ := hb.peek
    have hsec : ∀ i, 0 ≤ i → i < 0 + HEADER_PEEK_LEN → i / sectorSize = 0 / sectorSize := by
      intro i _ hi
      simp only [HEADER_PEEK_LEN, sectorSize] at *
      omega
    rcases h.slice_sector hsec (slice_eq_some.mp hsa).1 (slice_eq_some.mp hsb).1 with h1 | h1
    · exact ⟨pa, h1.trans hsa, hpa⟩
    · exact ⟨pb, h1.trans hsb, hpb⟩
  · intro n hn hf
    exact h.slice_eq (ha.pages n hn hf) (hb.pages n hn hf)

/-- The page images of a store lie side by side. -/
theorem page_disjoint {m n ps : Nat} (h : m ≠ n) :
    m * ps + ps ≤ n * ps ∨ n * ps + ps ≤ m * ps := by
  rcases Nat.lt_or_gt_of_ne h with hlt | hlt
  · exact Or.inl (by simpa [Nat.succ_mul] using Nat.mul_le_mul_right ps (Nat.succ_le_of_lt hlt))
  · exact Or.inr (by simpa [Nat.succ_mul] using Nat.mul_le_mul_right ps (Nat.succ_le_of_lt hlt))

/-- Writing the image of a page keeps every page image that is already there. -/
theorem slice_patch_page (hc : c.Wf H) {bs : Bytes} {m n : Nat} (hm : m < c.header.pageCount)
    (hs : slice bs (n * c.header.pageSize) c.header.pageSize = some (c.image H n)) :
    slice (patch bs (m * c.header.pageSize) (c.image H m)) (n * c.header.pageSize)
      c.header.pageSize = some (c.image H n) := by
  by_cases h : m = n
  · subst h
    exact slice_patch_same (hc.image_length hm)
  · rw [slice_patch_disjoint (slice_eq_some.mp hs).1, hs]
    rw [hc.image_length hm]
    exact (page_disjoint h).symm

/-- The page size can be peeked from a header page. -/
theorem peek_image (hc : c.Wf H) : ∃ pre, slice (c.image H 0) 0 HEADER_PEEK_LEN = some pre ∧
    Header.peekPageSize pre = .ok c.header.pageSize := by
  have hps := (pageSizeIsValid_iff.mp hc.header.pageSize).1
  rw [Committed.image_zero]
  have hle : 0 + HEADER_PEEK_LEN ≤ (c.header.image H).length := by
    simp only [Header.image_length, HEADER_PEEK_LEN]
    omega
  exact ⟨_, slice_of_le hle, Header.peekPageSize_of_slice hc.header (slice_of_le hle)⟩

/-- The same, where the header page stands in a file. -/
theorem peek_of_page (hc : c.Wf H) {bs : Bytes}
    (h : slice bs (0 * c.header.pageSize) c.header.pageSize = some (c.image H 0)) :
    ∃ pre, slice bs 0 HEADER_PEEK_LEN = some pre ∧
      Header.peekPageSize pre = .ok c.header.pageSize := by
  obtain ⟨pre, hpre, hpeek⟩ := peek_image hc
  have hps := (pageSizeIsValid_iff.mp hc.header.pageSize).1
  rw [Nat.zero_mul] at h
  obtain ⟨hle, heq⟩ := slice_eq_some.mp h
  refine ⟨pre, ?_, hpeek⟩
  rw [← hpre, ← heq, slice_take_drop hle (by simp only [HEADER_PEEK_LEN]; omega)]

/-- Writing the image of any page keeps the main file good. -/
theorem MainOk.patch (hc : c.Wf H) {bs : Bytes} (h : MainOk H c index bs) {m : Nat}
    (hm : m < c.header.pageCount) :
    MainOk H c index (patch bs (m * c.header.pageSize) (c.image H m)) := by
  refine ⟨?_, fun n hn hf => slice_patch_page hc hm (h.pages n hn hf)⟩
  have hps := (pageSizeIsValid_iff.mp hc.header.pageSize).1
  by_cases h0 : m = 0
  · subst h0
    exact peek_of_page hc (slice_patch_same (hc.image_length hm))
  · obtain ⟨pre, hpre, hpeek⟩ := h.peek
    refine ⟨pre, ?_, hpeek⟩
    rw [slice_patch_disjoint (slice_eq_some.mp hpre).1, hpre]
    refine Or.inl ?_
    have : 1 * c.header.pageSize ≤ m * c.header.pageSize := Nat.mul_le_mul_right _ (by omega)
    simp only [HEADER_PEEK_LEN]
    omega

/-- A main file that holds every page needs no log. -/
theorem mainOk_full (hc : c.Wf H) {bs : Bytes} (h : ∀ n, n < c.header.pageCount →
    slice bs (n * c.header.pageSize) c.header.pageSize = some (c.image H n)) :
    MainOk H c index bs :=
  ⟨peek_of_page hc (h 0 hc.header.pageCount_pos), fun n hn _ => h n hn⟩

/-- A main file in the middle of a checkpoint, next to an untouched log. -/
theorem diskOk_main (hc : Storable H c) {f : File} {log : Bytes} (hlog : LogView H c log index)
    (hcut : f.cut = none) (hs : MainOk H c index f.synced) (hcur : MainOk H c index f.current)
    (hw : MainOk H c index f.written) : DiskOk H (· = c) f (File.clean log) := by
  intro m w hm hw' _
  obtain rfl := File.survives_clean hw'
  refine ⟨c, rfl, hc, index, hlog, ?_⟩
  exact hm.of_mixes (P := MainOk H c index) hcut (fun a b x ha hb hx => ha.mixes hb hx) hs hcur hw

/-- A log that is none says nothing. -/
theorem logView_none {log : Bytes} (h : scanBytes H FORMAT_VERSION log = none) : LogView H c log [] where
  scan := Or.inr ⟨h, rfl⟩
  sorted := List.Pairwise.nil
  images := by simp
  chain := fun hne => absurd (logTxns_of_none h) hne

/-- The index is the replay of the log. -/
theorem LogView.index_eq {log : Bytes} (h : LogView H c log index) : index = replay [] (logTxns H log) := by
  rcases h.scan with hscan | ⟨hscan, rfl⟩
  · exact scanBytes_eq_replay hscan
  · rw [logTxns_of_none hscan]
    rfl

theorem logView_nil (H : Xxh3) (c : Committed) : LogView H c [] [] := logView_none rfl

/-- A complete main file, next to a log that is being emptied. -/
theorem diskOk_cut (hc : Storable H c) {bs log : Bytes} (hlog : LogView H c log index)
    (hfull : ∀ n, n < c.header.pageCount →
      slice bs (n * c.header.pageSize) c.header.pageSize = some (c.image H n)) :
    DiskOk H (· = c) (File.clean bs) ((File.clean log).truncate 0) := by
  intro m w hm hw _
  obtain rfl := File.survives_clean hm
  obtain ⟨cache, hcache, himg⟩ := hw
  simp only [File.truncate, File.clean, File.written, File.resize, List.take_zero,
    Nat.zero_sub, List.replicate_zero, List.append_nil] at hcache himg
  rcases himg with h1 | h1
  · rw [h1.self]
    exact ⟨c, rfl, hc, index, hlog, mainOk_full hc.wf hfull⟩
  · rw [hcache.self] at h1
    rw [h1.self]
    exact ⟨c, rfl, hc, [], logView_nil H c, mainOk_full hc.wf hfull⟩

end Main

/-! ## A log that is being appended to -/

theorem slice_of_take_eq {img log bs : Bytes} {off len : Nat} (himg : img.take log.length = log)
    (h : slice log off len = some bs) : slice img off len = some bs := by
  obtain ⟨t, ht⟩ := (himg ▸ List.take_prefix log.length img : log <+: img)
  rw [← ht, slice_append_left (slice_eq_some.mp h).1, h]

/-- What stands in a prefix stands in the whole. -/
theorem slice_of_isPrefix {v w bs : Bytes} {off len : Nat} (hvw : v <+: w)
    (h : slice v off len = some bs) : slice w off len = some bs := by
  obtain ⟨t, rfl⟩ := hvw
  rw [slice_append_left (slice_eq_some.mp h).1, h]

/-- More bytes behind a log from which a scan commits nothing more. -/
theorem LogView.of_take {H : Xxh3} {c : Committed} {log w : Bytes} {index : List (Nat × Nat)}
    (h : LogView H c log index) (hpre : w.take log.length = log) (htxns : logTxns H w = logTxns H log)
    (hscan : scanBytes H FORMAT_VERSION w = some { pageSize := c.header.pageSize, committed := index }) :
    LogView H c w index := by
  refine ⟨Or.inl hscan, h.sorted, ?_, ?_⟩
  · intro e he
    exact ⟨(h.images e he).1, slice_of_take_eq hpre (h.images e he).2⟩
  · rw [htxns]
    intro hne
    exact (h.chain hne).mono fun _ _ _ _ _ hs => slice_of_take_eq hpre hs

/-- The log file while a transaction is appended behind `log`. Nothing of the
generation is synced before its first transaction is; what is written is all of
`log` and a part of the frames. -/
structure Appending (H : Xxh3) (ps salt : Nat) (log : Bytes) (txnId : Nat)
    (pages : List (Nat × Bytes)) (f : File) : Prop where
  cut : f.cut = none
  synced : f.synced = log ∨ (f.synced = [] ∧ log = (generation ps salt).encode)
  current : log <+: f.current ∨ (f.synced = [] ∧ f.current = [] ∧ f.written = log)
  current_le : f.current <+: log ++ txnBytes H txnId salt pages
  written : log <+: f.written
  written_le : f.written <+: log ++ txnBytes H txnId salt pages

section Append

variable {H : Xxh3} {ps salt txnId : Nat} {log : Bytes} {index : List (Nat × Nat)}
  {pages : List (Nat × Bytes)} {f : File} {img : Bytes}

/-- A prefix that both strings have is one of every mix of them. -/
theorem Mixes.take_eq {a b log : Bytes} (h : Mixes a b img) (ha : log <+: a) (hb : log <+: b) :
    log <+: img := by
  have hself : slice log 0 log.length = some log := slice_zero_length log
  have h1 := h.slice_eq (slice_of_isPrefix ha hself) (slice_of_isPrefix hb hself)
  obtain ⟨_, heq⟩ := slice_eq_some.mp h1
  rw [List.drop_zero] at heq
  exact heq ▸ List.take_prefix _ _

/-- The first bytes of a mix of files that each start with `log` or are empty: all
of them or none. -/
theorem Mixes.starts {a b log : Bytes} (hlog : log.length ≤ sectorSize) (h : Mixes a b img)
    (ha : log <+: a ∨ ∀ i, i < log.length → a.getD i 0 = 0)
    (hb : log <+: b ∨ ∀ i, i < log.length → b.getD i 0 = 0) (hlen : log.length ≤ img.length) :
    log <+: img ∨ ∀ i, i < log.length → img.getD i 0 = 0 := by
  have hside : ∀ x : Bytes, (log <+: x ∨ ∀ i, i < log.length → x.getD i 0 = 0) →
      (∀ i, i / sectorSize = 0 → i < img.length → img.getD i 0 = x.getD i 0) →
      log <+: img ∨ ∀ i, i < log.length → img.getD i 0 = 0 := by
    intro x hx himg
    have hsec : ∀ i, i < log.length → i / sectorSize = 0 :=
      fun i hi => Nat.div_eq_of_lt (by omega)
    rcases hx with hx | hx
    · refine Or.inl ?_
      have hxl := hx.length_le
      have h1 : slice img 0 log.length = slice x 0 log.length :=
        slice_congr_getD (by omega) (by omega)
          fun i _ hi => himg i (hsec i (by omega)) (by omega)
      rw [slice_of_isPrefix hx (slice_zero_length log)] at h1
      obtain ⟨_, heq⟩ := slice_eq_some.mp h1
      rw [List.drop_zero] at heq
      exact heq ▸ List.take_prefix _ _
    · refine Or.inr fun i hi => ?_
      rw [himg i (hsec i hi) (by omega), hx i hi]
  rcases h.2.2 0 with h1 | h1
  · exact hside a ha h1
  · exact hside b hb h1

/-- A log whose header is zero has nothing committed. -/
theorem scan_none_of_zero (hz : ∀ i, i < WAL_HEADER_LEN → img.getD i 0 = 0) :
    scanBytes H FORMAT_VERSION img = none := by
  rw [scanBytes_eq]
  split
  · rfl
  · rename_i hlen
    have hlen' : 0 + WAL_HEADER_LEN ≤ img.length := by omega
    have h1 : slice img 0 WAL_HEADER_LEN =
        slice (List.replicate WAL_HEADER_LEN (0 : UInt8)) 0 WAL_HEADER_LEN := by
      refine slice_congr_getD hlen' (by simp) ?_
      intro i _ hi
      rw [hz i (by omega), List.getD_replicate _ (by omega)]
    rw [slice_of_le hlen', slice_of_le (by simp), List.drop_zero] at h1
    rw [Option.some.inj h1]
    rfl

/-- What survives of a log that is being appended to starts with the log, or is
unusable because the generation was just starting. -/
theorem Appending.starts (h : Appending H ps salt log txnId pages f)
    (hlog : LogOk H ps salt log index) (hs : f.Survives img) :
    log <+: img ∨ (f.synced = [] ∧ scanBytes H FORMAT_VERSION img = none) := by
  obtain ⟨cache, hcache, himg⟩ := hs
  rw [h.cut] at himg
  by_cases hne : f.synced = []
  · -- the generation starts with this transaction: its header is within one sector
    have hhdr : log = (generation ps salt).encode := by
      rcases h.synced with h1 | h1
      · have := hlog.header_le
        rw [← h1, hne] at this
        simp [WAL_HEADER_LEN] at this
      · exact h1.2
    have hlen32 : log.length = WAL_HEADER_LEN := by rw [hhdr]; simp
    have hsec : log.length ≤ sectorSize := by rw [hlen32]; decide
    by_cases hshort : img.length < WAL_HEADER_LEN
    · refine Or.inr ⟨hne, ?_⟩
      rw [scanBytes_eq, if_pos hshort]
    · have hcl : img.length ≤ cache.length := by
        have := himg.2.1
        rw [hne] at this
        simpa using this
      have hzero : ∀ bs : Bytes, bs = [] → ∀ i, i < log.length → bs.getD i 0 = 0 := by
        rintro _ rfl i _
        rfl
      have hcache' := hcache.starts hsec
        (h.current.imp id fun hc => hzero _ hc.2.1) (Or.inl h.written) (by omega)
      rcases himg.starts hsec (Or.inr (hzero _ hne)) hcache' (by omega) with h1 | h1
      · exact Or.inl h1
      · exact Or.inr ⟨hne, scan_none_of_zero (by rwa [hlen32] at h1)⟩
  · have hsy : f.synced = log := h.synced.resolve_right fun h1 => hne h1.1
    have hcur : log <+: f.current := h.current.resolve_right fun h1 => hne h1.1
    exact Or.inl (himg.take_eq (hsy ▸ List.prefix_rfl) (hcache.take_eq hcur h.written))

/-- With ideal checksums, a slot behind the log that validates holds exactly the
bytes that were to be written there. -/
theorem Appending.slot (h : Appending H ps salt log txnId pages f)
    (hlog : LogOk H ps salt log index) (hideal : IdealChecksums H f img) (hpre : log <+: img)
    {k : Nat} (hk : frameAt H img (generation ps salt)
      (log.length + k * (WAL_FRAME_HEADER_LEN + ps)) ≠ none) :
    ∃ bs, slice img (log.length + k * (WAL_FRAME_HEADER_LEN + ps))
        (WAL_FRAME_HEADER_LEN + ps) = some bs ∧
      slice (log ++ txnBytes H txnId salt pages) (log.length + k * (WAL_FRAME_HEADER_LEN + ps))
        (WAL_FRAME_HEADER_LEN + ps) = some bs := by
  obtain ⟨j, hj⟩ := hlog.aligned
  have hheader : WalHeader.decode (img.take WAL_HEADER_LEN) = some (generation ps salt) := by
    have h1 : img.take WAL_HEADER_LEN = (generation ps salt).encode := by
      rw [← hlog.header, List.prefix_iff_eq_take.mp hpre, List.take_take,
        Nat.min_eq_left hlog.header_le]
    rw [h1]
    exact decode_generation hlog.pageSize hlog.salt_lt
  -- a slot behind the log is a slot counted from the log's header
  have hoff : log.length + k * (WAL_FRAME_HEADER_LEN + ps) =
      WAL_HEADER_LEN + (j + k) * (WAL_FRAME_HEADER_LEN + ps) := by
    rw [hj]
    ring
  have hin : log.length + k * (WAL_FRAME_HEADER_LEN + ps) + (WAL_FRAME_HEADER_LEN + ps) ≤
      img.length := by
    by_contra hlt
    apply hk
    unfold frameAt
    rw [if_pos]
    simpa [generation] using hlt
  rw [hoff] at hk
  -- a frame with a valid checksum was written by one of the versions of the file
  obtain ⟨v, hv, heq⟩ := hideal (generation ps salt) (j + k) hheader hk
  -- and each of them is a prefix of the whole append
  have hvle : v <+: log ++ txnBytes H txnId salt pages := by
    rcases hv with rfl | rfl | rfl | ⟨w, hw⟩
    · rcases h.synced with h1 | h1
      · rw [h1]
        exact List.prefix_append _ _
      · rw [h1.1]
        exact List.nil_prefix
    · exact h.current_le
    · exact h.written_le
    · simp [h.cut] at hw
  refine ⟨_, slice_of_le hin, slice_of_isPrefix hvle ?_⟩
  rw [← slice_of_le hin, hoff]
  exact heq.symm

/-- What survives behind the log are frames of the transaction, in order. -/
theorem Appending.torn (h : Appending H ps salt log txnId pages f)
    (hlog : LogOk H ps salt log index) (hpages : PagesOk ps pages)
    (hideal : IdealChecksums H f img) (hpre : log <+: img) :
    TornFrom H img (generation ps salt) txnId log.length pages := by
  intro k hk
  obtain ⟨bs, hbs, hfull⟩ := h.slot hlog hideal hpre hk
  have hk' : k < pages.length := by
    have h1 := (slice_eq_some.mp hfull).1
    rw [List.length_append, txnBytes_length hpages] at h1
    by_contra hge
    have h2 : pages.length * (WAL_FRAME_HEADER_LEN + ps) ≤ k * (WAL_FRAME_HEADER_LEN + ps) :=
      Nat.mul_le_mul_right _ (by omega)
    simp only [WAL_FRAME_HEADER_LEN] at h1 h2
    omega
  obtain ⟨page, hpage, hat⟩ := hasAt_txnBytes (generation ps salt) hpages
    (hasAt_self log (txnBytes H txnId salt pages) []) hk'
  rw [List.append_nil] at hat
  refine ⟨page, hpage, ?_⟩
  have hlenp : (Wal.frameBytes H txnId salt (k + 1 == pages.length) page).length =
      WAL_FRAME_HEADER_LEN + ps := by
    rw [frameBytes_length, (hpages page (List.mem_of_getElem? hpage)).2]
  have hframe : some bs = some (Wal.frameBytes H txnId salt (k + 1 == pages.length) page) :=
    hfull.symm.trans (hat.slice hlenp)
  cases hframe
  show slice img _ (Wal.frameBytes H txnId salt (k + 1 == pages.length) page).length = _
  rw [hlenp]
  exact hbs

/-- What is left of a log in the middle of an append, next to an untouched main file:
the state before the transaction, or the one after it. -/
theorem Appending.recoverable {c c' : Committed} {main : Bytes} {index' : List (Nat × Nat)}
    (h : Appending H ps salt log txnId pages f) (hlog : LogOk H ps salt log index)
    (htxn : txnId < 2 ^ 64) (hpages : PagesOk ps pages)
    (hstart : f.synced = [] → index = []) (hps : ps = c.header.pageSize)
    (hps' : ps = c'.header.pageSize) (hc : Storable H c) (hc' : Storable H c')
    (hview : LogView H c log index) (hmain : MainOk H c index main)
    (hindex' : index' = extend index (txnOffsets ps log.length pages))
    (hview' : LogView H c' (log ++ txnBytes H txnId salt pages) index')
    (hmain' : MainOk H c' index' main) {w : Bytes} (hi : IdealChecksums H f w)
    (hw : log <+: w ∨ (f.synced = [] ∧ LogView H c w [])) :
    ∃ x, (x = c ∨ x = c') ∧ Recoverable H x main w := by
  rcases hw with hprefix | ⟨hnil, hnone⟩
  swap
  · exact ⟨c, Or.inl rfl, hc, [], hnone, hstart hnil ▸ hmain⟩
  · have htorn := h.torn hlog hpages hi hprefix
    have hpre : w.take log.length = log := (List.prefix_iff_eq_take.mp hprefix).symm
    have hlen := hprefix.length_le
    have hle := hlog.header_le
    have hscan := scan_of_header (H := H) hlog.pageSize hlog.salt_lt (show WAL_HEADER_LEN ≤ w.length by omega)
      (by rw [← hlog.header, ← hpre, List.take_take, Nat.min_eq_left hle])
    rcases hlog.txns_torn htxn hpages hpre htorn with hold | ⟨hat, hnew⟩
    · refine ⟨c, Or.inl rfl, hc, index, hview.of_take hpre hold ?_, hmain⟩
      rw [hscan, hold, ← hlog.index_eq, hps]
    · have hpre' : w.take (log ++ txnBytes H txnId salt pages).length = log ++ txnBytes H txnId salt pages := by
        obtain ⟨_, hdrop⟩ := slice_eq_some.mp hat
        rw [List.length_append, List.take_add, hpre, hdrop]
      refine ⟨c', Or.inr rfl, hc', index', hview'.of_take hpre' hnew ?_, hmain'⟩
      rw [hscan, hnew, ← hview'.index_eq, hps']

end Append

/-! ## The disk in the middle of an operation -/

/-- What the two files are while a call runs: the main file is written next to a log
that covers it, the log is being emptied, or it is being appended to. -/
inductive Midway (H : Xxh3) (P : Committed → Prop) : File → File → Prop where
  | main {c : Committed} {index : List (Nat × Nat)} {f : File} {log : Bytes} (hP : P c) (hc : Storable H c)
      (hlog : LogView H c log index) (hcut : f.cut = none) (hs : MainOk H c index f.synced)
      (hcur : MainOk H c index f.current) (hw : MainOk H c index f.written) : Midway H P f (File.clean log)
  | cut {c : Committed} {index : List (Nat × Nat)} {bs log : Bytes} (hP : P c) (hc : Storable H c)
      (hlog : LogView H c log index)
      (hfull : ∀ n, n < c.header.pageCount →
        slice bs (n * c.header.pageSize) c.header.pageSize = some (c.image H n)) :
      Midway H P (File.clean bs) ((File.clean log).truncate 0)
  | append {c c' : Committed} {ps salt txnId : Nat} {log main : Bytes} {index index' : List (Nat × Nat)}
      {pages : List (Nat × Bytes)} {f : File} (hP : P c) (hP' : P c')
      (h : Appending H ps salt log txnId pages f) (hlog : LogOk H ps salt log index)
      (htxn : txnId < 2 ^ 64) (hpages : PagesOk ps pages) (hstart : f.synced = [] → index = [])
      (hps : ps = c.header.pageSize) (hps' : ps = c'.header.pageSize) (hc : Storable H c)
      (hc' : Storable H c') (hview : LogView H c log index) (hmain : MainOk H c index main)
      (hindex' : index' = extend index (txnOffsets ps log.length pages))
      (hview' : LogView H c' (log ++ txnBytes H txnId salt pages) index')
      (hmain' : MainOk H c' index' main) : Midway H P (File.clean main) f

/-- Weakening. -/
theorem Midway.mono {H : Xxh3} {P P' : Committed → Prop} {main wal : File} (h : Midway H P main wal)
    (hP : ∀ c, P c → P' c) : Midway H P' main wal := by
  cases h with
  | main hc0 hc hlog hcut hs hcur hw => exact .main (hP _ hc0) hc hlog hcut hs hcur hw
  | cut hc0 hc hlog hfull => exact .cut (hP _ hc0) hc hlog hfull
  | append h0 h0' h hlog htxn hpages hstart hps hps' hc hc' hview hmain hindex' hview' hmain' =>
      exact .append (hP _ h0) (hP _ h0') h hlog htxn hpages hstart hps hps' hc hc' hview hmain hindex' hview'
        hmain'

/-- A power failure in the middle of a call leaves a recoverable disk. -/
theorem Midway.diskOk {H : Xxh3} {P : Committed → Prop} {main wal : File} (h : Midway H P main wal) :
    DiskOk H P main wal := by
  cases h with
  | main hP hc hlog hcut hs hcur hw =>
      exact (diskOk_main hc hlog hcut hs hcur hw).mono fun x hx => hx ▸ hP
  | cut hP hc hlog hfull => exact (diskOk_cut hc hlog hfull).mono fun x hx => hx ▸ hP
  | append hP hP' h hlog htxn hpages hstart hps hps' hc hc' hview hmain hindex' hview' hmain' =>
      intro m w hm hw hi
      obtain rfl := File.survives_clean hm
      rcases h.recoverable hlog htxn hpages hstart hps hps' hc hc' hview hmain hindex' hview' hmain' hi
        ((h.starts hlog hw).imp id fun hn => ⟨hn.1, logView_none hn.2⟩) with ⟨x, rfl | rfl, hr⟩
      · exact ⟨x, hP, hr⟩
      · exact ⟨x, hP', hr⟩

end EmbedMind
