import EmbedMind.Storage.FailStop

/-!
# Between the truncation of the log and its sync

A checkpoint, and an opening after recovery, truncate the log and then sync it. The disk
of `SimVfs::power_fail` may lose the truncation sector by sector: the file keeps its old
length, and every sector its old bytes or zeros (`Tears`). The main file is complete
then, so the question is what the next opening replays over it.

A scan of the torn log commits a prefix of the transactions (`scanTxns_prefix`). None of
them, or all, is harmless; a proper prefix takes the store back to an earlier state.
`Inseparable` says that no sector separates a transaction from the ones before it, and
`reset_window_safe_iff` that the window is safe exactly then.
-/

namespace EmbedMind

open Lib Lib.Assoc

/-! ## Scans of a log with slots missing -/

section Scan

variable {H : Xxh3} {img log : Bytes} {header : WalHeader} {fuel fuel' off : Nat} {pending : List (Nat × Nat)}
  {pendingTxn : Option Nat}

/-- The size of a frame. -/
abbrev WalHeader.slot (header : WalHeader) : Nat := WAL_FRAME_HEADER_LEN + header.pageSize

theorem slot_last (off k slot : Nat) : off + (k + 1) * slot = off + k * slot + slot := by ring

theorem slot_succ (off k slot : Nat) : off + (k + 1) * slot = off + slot + k * slot := by ring

/-- If every valid slot is the one of the log, a scan commits a prefix of its transactions. -/
theorem scanTxns_prefix (hfuel : fuel ≤ fuel')
    (hslots : ∀ k, frameAt H img header (off + k * header.slot) ≠ none →
      frameAt H img header (off + k * header.slot) = frameAt H log header (off + k * header.slot)) :
    scanTxns H img header fuel off pending pendingTxn <+: scanTxns H log header fuel' off pending pendingTxn := by
  induction fuel generalizing fuel' off pending pendingTxn with
  | zero => exact List.nil_prefix
  | succ fuel ih =>
      rcases Nat.exists_eq_add_one.mpr (show 0 < fuel' by omega) with ⟨fuel', rfl⟩
      have hnext : ∀ k, frameAt H img header (off + header.slot + k * header.slot) ≠ none →
          frameAt H img header (off + header.slot + k * header.slot) =
            frameAt H log header (off + header.slot + k * header.slot) := by
        intro k
        rw [← slot_succ]
        exact hslots (k + 1)
      have hat := hslots 0
      rw [Nat.zero_mul, Nat.add_zero] at hat
      unfold scanTxns
      cases hframe : frameAt H img header off with
      | none => exact List.nil_prefix
      | some frame =>
          rw [← hat (by rw [hframe]; exact Option.some_ne_none _), hframe]
          dsimp only
          split
          · exact List.nil_prefix
          · split
            · exact (List.prefix_cons_inj _).mpr (ih (by omega) hnext)
            · exact ih (by omega) hnext

/-- A transaction ends behind a slot, and all slots before its end are valid. -/
theorem scanTxns_end {txn : Nat × List (Nat × Nat)} (h : txn ∈ scanTxns H img header fuel off pending pendingTxn) :
    ∃ n, txn.1 = off + (n + 1) * header.slot ∧
      ∀ k, k ≤ n → frameAt H img header (off + k * header.slot) ≠ none := by
  induction fuel generalizing off pending pendingTxn with
  | zero => cases h
  | succ fuel ih =>
      unfold scanTxns at h
      cases hframe : frameAt H img header off with
      | none =>
          rw [hframe] at h
          cases h
      | some frame =>
          rw [hframe] at h
          dsimp only at h
          have hzero : frameAt H img header (off + 0 * header.slot) ≠ none := by
            rw [Nat.zero_mul, Nat.add_zero, hframe]
            exact Option.some_ne_none _
          -- a transaction found behind this frame starts one slot later
          have hlater : ∀ {p q}, txn ∈ scanTxns H img header fuel (off + header.slot) p q →
              ∃ n, txn.1 = off + (n + 1) * header.slot ∧
                ∀ k, k ≤ n → frameAt H img header (off + k * header.slot) ≠ none := by
            intro p q hin
            rcases ih hin with ⟨n, hend, hvalid⟩
            refine ⟨n + 1, by rw [hend, slot_succ _ (n + 1)], ?_⟩
            intro k hk
            cases k with
            | zero => exact hzero
            | succ k =>
                rw [slot_succ]
                exact hvalid k (by omega)
          split at h
          · cases h
          · split at h
            · rcases List.mem_cons.mp h with rfl | hin
              · refine ⟨0, by simp [WalHeader.slot], ?_⟩
                intro k hk
                obtain rfl : k = 0 := by omega
                exact hzero
              · exact hlater hin
            · exact hlater h

/-- A transaction of the log all of whose slots are there is committed, with those before it. -/
theorem scanTxns_keep (hfuel : fuel ≤ fuel') {j : Nat} {txn : Nat × List (Nat × Nat)}
    (hj : (scanTxns H log header fuel off pending pendingTxn)[j]? = some txn)
    (hslots : ∀ k, off + (k + 1) * header.slot ≤ txn.1 →
      frameAt H img header (off + k * header.slot) = frameAt H log header (off + k * header.slot)) :
    (scanTxns H log header fuel off pending pendingTxn).take (j + 1) <+:
      scanTxns H img header fuel' off pending pendingTxn := by
  induction fuel generalizing fuel' off pending pendingTxn j with
  | zero => cases hj
  | succ fuel ih =>
      rcases Nat.exists_eq_add_one.mpr (show 0 < fuel' by omega) with ⟨fuel', rfl⟩
      have hnext : ∀ k, off + header.slot + (k + 1) * header.slot ≤ txn.1 →
          frameAt H img header (off + header.slot + k * header.slot) =
            frameAt H log header (off + header.slot + k * header.slot) := by
        intro k hk
        rw [← slot_succ] at hk ⊢
        exact hslots (k + 1) hk
      -- the first slot is inside the transaction that is to be kept
      rcases scanTxns_end (List.mem_of_getElem? hj) with ⟨n, hend, _⟩
      have hat := hslots 0 (by rw [hend, slot_succ, slot_succ]; omega)
      rw [Nat.zero_mul, Nat.add_zero] at hat
      unfold scanTxns at hj ⊢
      rw [hat]
      -- so both scans read the same frame there and take the same branch
      cases hframe : frameAt H log header off with
      | none =>
          rw [hframe] at hj
          cases hj
      | some frame =>
          rw [hframe] at hj
          dsimp only at hj ⊢
          split
          · rename_i hother
            rw [if_pos hother] at hj
            cases hj
          · rename_i hsame
            rw [if_neg hsame] at hj
            split
            · rename_i hcommit
              rw [if_pos hcommit] at hj
              rw [List.take_succ_cons]
              refine (List.prefix_cons_inj _).mpr ?_
              cases j with
              | zero => exact List.nil_prefix
              | succ j => exact ih (by omega) hj hnext
            · rename_i hcommit
              rw [if_neg hcommit] at hj
              exact ih (by omega) hj hnext

/-- The images of a transaction lie in its slots, or were pending before. -/
theorem scanTxns_images {txn : Nat × List (Nat × Nat)} (h : txn ∈ scanTxns H img header fuel off pending pendingTxn)
    {e : Nat × Nat} (he : e ∈ txn.2) : e ∈ pending ∨ e.2 + header.pageSize ≤ txn.1 := by
  induction fuel generalizing off pending pendingTxn with
  | zero => cases h
  | succ fuel ih =>
      unfold scanTxns at h
      cases hframe : frameAt H img header off with
      | none =>
          rw [hframe] at h
          cases h
      | some frame =>
          rw [hframe] at h
          dsimp only at h
          split at h
          · cases h
          · split at h
            · rcases List.mem_cons.mp h with rfl | hin
              · rcases List.mem_append.mp he with hp | hp
                · exact Or.inl hp
                · obtain rfl := List.mem_singleton.mp hp
                  refine Or.inr ?_
                  simp only
                  omega
              · rcases ih hin with hp | hp
                · cases hp
                · exact Or.inr hp
            · rcases ih h with hp | hp
              · rcases List.mem_append.mp hp with hp | hp
                · exact Or.inl hp
                · obtain rfl := List.mem_singleton.mp hp
                  rcases scanTxns_end h with ⟨n, hend, _⟩
                  refine Or.inr ?_
                  simp only [hend, slot_succ, WalHeader.slot]
                  omega
              · exact Or.inr hp

end Scan

/-- A scan commits no more transactions than it reads slots. -/
theorem scanTxns_length (H : Xxh3) (img : Bytes) (header : WalHeader) (fuel off : Nat) (pending : List (Nat × Nat))
    (pendingTxn : Option Nat) : (scanTxns H img header fuel off pending pendingTxn).length ≤ fuel := by
  induction fuel generalizing off pending pendingTxn with
  | zero => exact le_rfl
  | succ fuel ih =>
      unfold scanTxns
      split
      · exact Nat.zero_le _
      · dsimp only
        split
        · exact Nat.zero_le _
        · split
          · exact Nat.succ_le_succ (ih _ _ _)
          · exact le_trans (ih _ _ _) (Nat.le_succ _)

/-- A slot with the same bytes. -/
theorem frameAt_of_slice {H : Xxh3} {img log : Bytes} {header : WalHeader} {off : Nat}
    (h : slice img off header.slot = slice log off header.slot) :
    frameAt H img header off = frameAt H log header off := by
  have hparts : ∀ {bs : Bytes}, off + header.slot ≤ bs.length →
      ((bs.drop off).take WAL_FRAME_HEADER_LEN = ((bs.drop off).take header.slot).take WAL_FRAME_HEADER_LEN) ∧
        (bs.drop (off + WAL_FRAME_HEADER_LEN)).take header.pageSize =
          ((bs.drop off).take header.slot).drop WAL_FRAME_HEADER_LEN := by
    intro bs _
    constructor
    · rw [List.take_take, Nat.min_eq_left (Nat.le_add_right _ _)]
    · rw [List.drop_take, List.drop_drop, Nat.add_sub_cancel_left]
  unfold frameAt
  by_cases hlen : off + header.slot ≤ img.length
  · rw [slice_of_le hlen] at h
    have hlog : off + header.slot ≤ log.length := (slice_eq_some.mp h.symm).1
    rw [slice_of_le hlog] at h
    have hsame := Option.some.inj h
    rw [if_neg (not_lt.mpr hlen), if_neg (not_lt.mpr hlog), (hparts hlen).1, (hparts hlen).2, (hparts hlog).1,
      (hparts hlog).2, hsame]
  · have hnone := slice_eq_none.mpr (not_le.mp hlen)
    rw [hnone] at h
    rw [if_pos (not_le.mp hlen), if_pos (slice_eq_none.mp h.symm)]

/-! ## What is left of a truncated log -/

/-- What `power_fail` leaves of a truncated log: nothing, or the old file with the bytes
of any of its sectors gone. -/
def Tears (log img : Bytes) : Prop :=
  (img.length = 0 ∨ img.length = log.length) ∧
  ∀ s, (∀ i, i / sectorSize = s → i < img.length → img.getD i 0 = 0) ∨
       (∀ i, i / sectorSize = s → i < img.length → img.getD i 0 = log.getD i 0)

/-- Ideal checksums: a slot of the image that validates is the one of the log. -/
def Genuine (H : Xxh3) (log img : Bytes) : Prop :=
  ∀ header k, WalHeader.decode (img.take WAL_HEADER_LEN) = some header →
    frameAt H img header (WAL_HEADER_LEN + k * header.slot) ≠ none →
    slice img (WAL_HEADER_LEN + k * header.slot) header.slot = slice log (WAL_HEADER_LEN + k * header.slot) header.slot

/-- Every sector in which a transaction has a byte other than zero holds such a byte of
what is before the transaction in the log. -/
def Inseparable (H : Xxh3) (log : Bytes) : Prop :=
  ∀ (j : Nat) (txn next : Nat × List (Nat × Nat)), (logTxns H log)[j]? = some txn →
    (logTxns H log)[j + 1]? = some next → ∀ i, txn.1 ≤ i → i < next.1 → log.getD i 0 ≠ 0 →
    ∃ i', i' < txn.1 ∧ i' / sectorSize = i / sectorSize ∧ log.getD i' 0 ≠ 0

section Tears

variable {H : Xxh3} {c : Committed} {log img main : Bytes} {index : List (Nat × Nat)}

/-- Strings that agree up to `e` have the same slices there. -/
theorem slice_of_agree {e : Nat} (himg : e ≤ img.length) (hlog : e ≤ log.length)
    (h : ∀ i, i < e → img.getD i 0 = log.getD i 0) {off len : Nat} (hle : off + len ≤ e) :
    slice img off len = slice log off len :=
  slice_congr_getD (by omega) (by omega) fun i _ hi => h i (by omega)

/-- The first sector of a torn log: its header is there, or a scan finds nothing. -/
theorem Tears.header (h : Tears log img) (hlen : WAL_HEADER_LEN ≤ img.length) :
    scanBytes H FORMAT_VERSION img = none ∨ img.length = log.length ∧ img.take WAL_HEADER_LEN = log.take WAL_HEADER_LEN := by
  have hsame : img.length = log.length := by
    rcases h.1 with h0 | h0
    · simp only [WAL_HEADER_LEN] at hlen
      omega
    · exact h0
  have hsector : ∀ i, i < WAL_HEADER_LEN → i / sectorSize = 0 := by
    intro i hi
    simp only [WAL_HEADER_LEN, sectorSize] at hi ⊢
    omega
  rcases h.2 0 with hz | hl
  · exact Or.inl (scan_none_of_zero fun i hi => hz i (hsector i hi) (by omega))
  · refine Or.inr ⟨hsame, ?_⟩
    have h1 := slice_of_agree hlen (hsame ▸ hlen) (fun i hi => hl i (hsector i hi) (by omega))
      (show 0 + WAL_HEADER_LEN ≤ WAL_HEADER_LEN by omega)
    rw [slice_of_le (by omega), slice_of_le (by omega)] at h1
    simpa using h1

/-- The transactions of a log with a readable header. -/
theorem logTxns_of_decode {header : WalHeader} (hlen : WAL_HEADER_LEN ≤ log.length)
    (hdec : WalHeader.decode (log.take WAL_HEADER_LEN) = some header) :
    logTxns H log = scanTxns H log header log.length WAL_HEADER_LEN [] none ∧
      scanBytes H FORMAT_VERSION log = some { pageSize := header.pageSize, committed := replay [] (logTxns H log) } := by
  have htxns : logTxns H log = scanTxns H log header log.length WAL_HEADER_LEN [] none := by
    unfold logTxns
    rw [if_neg (by omega), hdec]
  refine ⟨htxns, ?_⟩
  rw [scanBytes_eq, if_neg (by omega), hdec, Option.map_some, scanFrom_eq_replay, htxns]

/-- Where two logs agree, so do their frames. -/
theorem frameAt_of_agree {header : WalHeader} {e : Nat} (himg : e ≤ img.length) (hlog : e ≤ log.length)
    (h : ∀ i, i < e → img.getD i 0 = log.getD i 0) {off : Nat} (hle : off + header.slot ≤ e) :
    frameAt H img header off = frameAt H log header off :=
  frameAt_of_slice (slice_of_agree himg hlog h hle)

/-- Below the end of a transaction that a scan of the torn log commits, nothing is torn. -/
theorem agree_of_committed {header : WalHeader} (hlen : img.length = log.length)
    (hheader : img.take WAL_HEADER_LEN = log.take WAL_HEADER_LEN)
    (hdec : WalHeader.decode (img.take WAL_HEADER_LEN) = some header) (hg : Genuine H log img) {fuel : Nat}
    {txn : Nat × List (Nat × Nat)} (htxn : txn ∈ scanTxns H img header fuel WAL_HEADER_LEN [] none) :
    txn.1 ≤ img.length ∧ ∀ i, i < txn.1 → img.getD i 0 = log.getD i 0 := by
  rcases scanTxns_end htxn with ⟨n, hend, hvalid⟩
  have hfit : ∀ k, k ≤ n → WAL_HEADER_LEN + k * header.slot + header.slot ≤ img.length := by
    intro k hk
    by_contra hshort
    refine hvalid k hk ?_
    unfold frameAt
    rw [if_pos (not_le.mp hshort)]
  have hlast := hfit n le_rfl
  rw [Nat.add_assoc, ← Nat.succ_mul] at hlast
  refine ⟨hend ▸ hlast, ?_⟩
  intro i hi
  by_cases hsmall : i < WAL_HEADER_LEN
  · have hbyte := congrArg (fun bs => bs.getD i 0) hheader
    have hin : i < img.length := by omega
    have htake : ∀ bs : Bytes, (bs.take WAL_HEADER_LEN).getD i 0 = bs.getD i 0 := by
      intro bs
      rw [List.getD_eq_getElem?_getD, List.getElem?_take_of_lt hsmall, ← List.getD_eq_getElem?_getD]
    simpa only [htake] using hbyte
  · -- the slot that holds the byte
    have hpos : 0 < header.slot := Nat.lt_of_lt_of_le (by decide) (Nat.le_add_right WAL_FRAME_HEADER_LEN _)
    have hdiv := Nat.div_add_mod (i - WAL_HEADER_LEN) header.slot
    have hmod := Nat.mod_lt (i - WAL_HEADER_LEN) hpos
    rw [Nat.mul_comm] at hdiv
    have hk : (i - WAL_HEADER_LEN) / header.slot ≤ n := by
      refine Nat.lt_succ_iff.mp ((Nat.div_lt_iff_lt_mul hpos).mpr ?_)
      rw [hend] at hi
      show i - WAL_HEADER_LEN < (n + 1) * header.slot
      omega
    have hslice := hg header _ hdec (hvalid _ hk)
    rw [slice_of_le (hfit _ hk)] at hslice
    have hi' : i = WAL_HEADER_LEN + (i - WAL_HEADER_LEN) / header.slot * header.slot +
        (i - WAL_HEADER_LEN) % header.slot := by omega
    rw [hi', getD_of_slice (slice_of_le (hfit _ hk)) hmod, getD_of_slice hslice.symm hmod]

/-- A transaction that a scan commits lies within the log. -/
theorem scanTxns_le {header : WalHeader} {fuel off : Nat} {txn : Nat × List (Nat × Nat)}
    (h : txn ∈ scanTxns H img header fuel off [] none) : txn.1 ≤ img.length := by
  rcases scanTxns_end h with ⟨n, hend, hvalid⟩
  by_contra hshort
  refine hvalid n le_rfl ?_
  unfold frameAt
  rw [if_pos]
  have hlast := slot_last off n header.slot
  show img.length < off + n * header.slot + header.slot
  omega

/-- The page size in the header of a log is that of the store. -/
theorem logView_pageSize (hview : LogView H c log index) (hlen : WAL_HEADER_LEN ≤ log.length) {header : WalHeader}
    (hdec : WalHeader.decode (log.take WAL_HEADER_LEN) = some header) : header.pageSize = c.header.pageSize := by
  have hscan := (logTxns_of_decode (H := H) hlen hdec).2
  rcases hview.scan with h | ⟨h, _⟩
  · rw [h] at hscan
    exact (congrArg RecoveredWal.pageSize (Option.some.inj hscan)).symm
  · rw [h] at hscan
    cases hscan

/-- A torn log from which a scan commits nothing. -/
theorem logView_torn_none (hview : LogView H c log index) (hlen : WAL_HEADER_LEN ≤ log.length) {header : WalHeader}
    (hlimg : WAL_HEADER_LEN ≤ img.length) (hheader : img.take WAL_HEADER_LEN = log.take WAL_HEADER_LEN)
    (hdec : WalHeader.decode (log.take WAL_HEADER_LEN) = some header) (hnil : logTxns H img = []) :
    LogView H c img [] := by
  have himg := (logTxns_of_decode (H := H) hlimg (hheader ▸ hdec)).2
  rw [hnil] at himg
  refine ⟨Or.inl ?_, List.Pairwise.nil, by simp, fun hne => absurd hnil hne⟩
  rw [himg, logView_pageSize hview hlen hdec]
  rfl

/-- A torn log from which a scan commits everything. -/
theorem logView_torn_all (hview : LogView H c log index) (hlen : WAL_HEADER_LEN ≤ log.length) {header : WalHeader}
    (hlimg : WAL_HEADER_LEN ≤ img.length) (hheader : img.take WAL_HEADER_LEN = log.take WAL_HEADER_LEN)
    (hdec : WalHeader.decode (log.take WAL_HEADER_LEN) = some header) (hall : logTxns H img = logTxns H log)
    (hsame : ∀ txn ∈ logTxns H log, ∀ e ∈ txn.2, slice img e.2 c.header.pageSize = slice log e.2 c.header.pageSize) :
    LogView H c img index := by
  have himg := (logTxns_of_decode (H := H) hlimg (hheader ▸ hdec)).2
  rw [hall, ← hview.index_eq] at himg
  refine ⟨Or.inl (by rw [himg, logView_pageSize hview hlen hdec]), hview.sorted, ?_, ?_⟩
  · intro e he
    rcases mem_replay (hview.index_eq ▸ he) with hold | ⟨txn, htxn, hin⟩
    · cases hold
    · rw [hsame txn htxn e hin]
      exact hview.images e he
  · rw [hall]
    intro hne
    exact (hview.chain hne).mono fun txn htxn e he bs hbs => by rw [hsame txn htxn e he, hbs]

theorem getElem?_prefix {α : Type} {l m : List α} (h : l <+: m) {i : Nat} (hi : i < l.length) : m[i]? = l[i]? := by
  rcases h with ⟨t, rfl⟩
  exact List.getElem?_append_left hi

theorem exists_getElem? {α : Type} {l : List α} {i : Nat} (hi : i < l.length) : ∃ a, l[i]? = some a :=
  ⟨_, List.getElem?_eq_getElem hi⟩

/-- A transaction of the log whose bytes are all there is committed, with those before it. -/
theorem prefix_of_agree {header : WalHeader} (hlen : img.length = log.length) (hlog : WAL_HEADER_LEN ≤ log.length)
    (hheader : img.take WAL_HEADER_LEN = log.take WAL_HEADER_LEN)
    (hdec : WalHeader.decode (log.take WAL_HEADER_LEN) = some header) {j : Nat} {txn : Nat × List (Nat × Nat)}
    (hj : (logTxns H log)[j]? = some txn) (hagree : ∀ i, i < txn.1 → img.getD i 0 = log.getD i 0) :
    (logTxns H log).take (j + 1) <+: logTxns H img := by
  have hT := (logTxns_of_decode (H := H) hlog hdec).1
  have hX := (logTxns_of_decode (H := H) (hlen ▸ hlog) (hheader ▸ hdec)).1
  rw [hT] at hj ⊢
  rw [hX, hlen]
  have hle := scanTxns_le (List.mem_of_getElem? hj)
  refine scanTxns_keep le_rfl hj ?_
  intro k hk
  refine frameAt_of_agree (hlen ▸ hle) hle hagree ?_
  rw [← slot_last]
  exact hk

/-- Whatever is torn, a log without separable transactions gives all of them or none. -/
theorem txns_torn_cases (hsep : Inseparable H log) (ht : Tears log img) (hg : Genuine H log img)
    (hlen : img.length = log.length) (hlog : WAL_HEADER_LEN ≤ log.length)
    (hheader : img.take WAL_HEADER_LEN = log.take WAL_HEADER_LEN) {header : WalHeader}
    (hdec : WalHeader.decode (log.take WAL_HEADER_LEN) = some header) :
    logTxns H img = [] ∨ logTxns H img = logTxns H log := by
  have hT := (logTxns_of_decode (H := H) hlog hdec).1
  have hX := (logTxns_of_decode (H := H) (hlen ▸ hlog) (hheader ▸ hdec)).1
  have hpre : logTxns H img <+: logTxns H log := by
    rw [hT, hX, hlen]
    exact scanTxns_prefix le_rfl fun k hk => frameAt_of_slice (hg header k (hheader ▸ hdec) hk)
  by_cases hnil : logTxns H img = []
  · exact Or.inl hnil
  refine Or.inr ?_
  by_contra hne
  -- the last transaction that is committed, and the first one that is not
  have hpos := List.length_pos_iff.mpr hnil
  have hshort : (logTxns H img).length < (logTxns H log).length := by
    refine lt_of_le_of_ne hpre.length_le fun heq => hne (hpre.eq_of_length heq)
  rcases Nat.exists_eq_add_one.mpr hpos with ⟨j, hj⟩
  have hlast := getElem?_prefix hpre (show j < (logTxns H img).length by omega)
  rcases exists_getElem? (show j < (logTxns H img).length by omega) with ⟨txn, htxn⟩
  rcases exists_getElem? (show j + 1 < (logTxns H log).length by omega) with ⟨next, hnext⟩
  have hin : txn ∈ scanTxns H img header img.length WAL_HEADER_LEN [] none := hX ▸ List.mem_of_getElem? htxn
  rcases agree_of_committed hlen hheader (hheader ▸ hdec) hg hin with ⟨_, hagree⟩
  have hnextle : next.1 ≤ log.length := scanTxns_le (hT ▸ List.mem_of_getElem? hnext)
  have hall : ∀ i, i < next.1 → img.getD i 0 = log.getD i 0 := by
    intro i hi
    by_cases hold : i < txn.1
    · exact hagree i hold
    have hin : i < img.length := by omega
    by_cases hzero : log.getD i 0 = 0
    · rcases ht.2 (i / sectorSize) with h0 | h0
      · rw [h0 i rfl hin, hzero]
      · exact h0 i rfl hin
    · -- a byte before the next transaction shows that the sector survived
      rcases hsep j txn next (hlast.trans htxn) hnext i (not_lt.mp hold) hi hzero with ⟨i', hi', hsector, hbyte⟩
      rcases ht.2 (i / sectorSize) with h0 | h0
      · refine absurd ?_ hbyte
        rw [← hagree i' hi']
        exact h0 i' hsector (by omega)
      · exact h0 i rfl hin
  have hkeep := (prefix_of_agree hlen hlog hheader hdec hnext hall).length_le
  rw [List.length_take] at hkeep
  omega

/-- With a complete main file, a torn log without separable transactions is harmless. -/
theorem recoverable_torn (hc : Storable H c) (hview : LogView H c log index) (hfull : MainFull H c main)
    (hsep : Inseparable H log) (ht : Tears log img) (hg : Genuine H log img) : Recoverable H c main img := by
  have hmain : ∀ index, MainOk H c index main := fun _ => mainOk_full hc.wf hfull
  have hnone : scanBytes H FORMAT_VERSION img = none → Recoverable H c main img :=
    fun h => ⟨hc, [], logView_none h, hmain _⟩
  by_cases hlimg : img.length < WAL_HEADER_LEN
  · refine hnone ?_
    rw [scanBytes_eq, if_pos hlimg]
  rcases ht.header (H := H) (not_lt.mp hlimg) with h0 | ⟨hlen, hheader⟩
  · exact hnone h0
  have hlog : WAL_HEADER_LEN ≤ log.length := hlen ▸ not_lt.mp hlimg
  cases hdec : WalHeader.decode (log.take WAL_HEADER_LEN) with
  | none =>
      refine hnone ?_
      rw [scanBytes_eq, if_neg hlimg, hheader, hdec]
      rfl
  | some header =>
      rcases txns_torn_cases hsep ht hg hlen hlog hheader hdec with hnil | hall
      · exact ⟨hc, [], logView_torn_none hview hlog (not_lt.mp hlimg) hheader hdec hnil, hmain _⟩
      · refine ⟨hc, index, logView_torn_all hview hlog (not_lt.mp hlimg) hheader hdec hall ?_, hmain _⟩
        intro txn htxn e he
        have hT := (logTxns_of_decode (H := H) hlog hdec).1
        have hX := (logTxns_of_decode (H := H) (hlen ▸ hlog) (hheader ▸ hdec)).1
        rcases agree_of_committed hlen hheader (hheader ▸ hdec) hg (hX ▸ hall ▸ htxn) with ⟨hle, hagree⟩
        rcases scanTxns_images (hT ▸ htxn) he with hold | himg
        · cases hold
        · rw [logView_pageSize hview hlog hdec] at himg
          exact slice_of_agree hle (hlen ▸ hle) hagree himg

end Tears

/-! ## A sector that separates two transactions -/

/-- The bytes from offset `off` on, with those of one sector gone. -/
def clearSector (s : Nat) : Nat → Bytes → Bytes
  | _, [] => []
  | off, b :: bs => (if off / sectorSize = s then 0 else b) :: clearSector s (off + 1) bs

/-- The log with one sector gone. -/
def dropSector (s : Nat) (log : Bytes) : Bytes := clearSector s 0 log

section Separable

variable {H : Xxh3} {c : Committed} {log img main : Bytes} {index : List (Nat × Nat)}

/-- Clearing a sector keeps the length. -/
theorem clearSector_length (s off : Nat) (bs : Bytes) : (clearSector s off bs).length = bs.length := by
  induction bs generalizing off with
  | nil => rfl
  | cons b bs ih => exact congrArg Nat.succ (ih (off + 1))

/-- The bytes after a sector was cleared. -/
theorem clearSector_getD (s off : Nat) (bs : Bytes) (i : Nat) :
    (clearSector s off bs).getD i 0 = if (off + i) / sectorSize = s then 0 else bs.getD i 0 := by
  induction bs generalizing off i with
  | nil => simp [clearSector]
  | cons b bs ih =>
      cases i with
      | zero => rfl
      | succ i =>
          have hoff : off + (i + 1) = off + 1 + i := by omega
          rw [hoff]
          exact ih (off + 1) i

theorem dropSector_length (s : Nat) (log : Bytes) : (dropSector s log).length = log.length :=
  clearSector_length s 0 log

/-- The bytes of a log without one sector. -/
theorem dropSector_getD (s : Nat) (log : Bytes) (i : Nat) :
    (dropSector s log).getD i 0 = if i / sectorSize = s then 0 else log.getD i 0 := by
  have h := clearSector_getD s 0 log i
  rwa [Nat.zero_add] at h

/-- The loss of one sector is one of the tears. -/
theorem tears_dropSector (s : Nat) (log : Bytes) : Tears log (dropSector s log) := by
  refine ⟨Or.inr (dropSector_length s log), ?_⟩
  intro s'
  by_cases h : s' = s
  · refine Or.inl fun i hi _ => ?_
    rw [dropSector_getD, if_pos (hi.trans h)]
  · refine Or.inr fun i hi _ => ?_
    rw [dropSector_getD, if_neg (hi ▸ h)]

/-- The states that a chain has gone through. -/
theorem Chain.take {txns : List (Nat × List (Nat × Nat))} (h : Chain H log txns c) {k : Nat} (hk : 0 < k)
    (hle : k ≤ txns.length) :
    ∃ c', Chain H log (txns.take k) c' ∧ c'.header.pageSize = c.header.pageSize ∧
      c'.header.pageCount ≤ c.header.pageCount ∧
      c.header.txnCounter = (c'.header.txnCounter + (txns.length - k)) % 2 ^ 64 := by
  have hself : ∀ {txns : List (Nat × List (Nat × Nat))} {c : Committed}, Chain H log txns c →
      ∃ c', Chain H log (txns.take txns.length) c' ∧ c'.header.pageSize = c.header.pageSize ∧
        c'.header.pageCount ≤ c.header.pageCount ∧
        c.header.txnCounter = (c'.header.txnCounter + (txns.length - txns.length)) % 2 ^ 64 := by
    intro txns c h
    refine ⟨c, by rwa [List.take_length], rfl, le_rfl, ?_⟩
    rw [Nat.sub_self, Nat.add_zero, Nat.mod_eq_of_lt h.holds.wf.header.txnCounter]
  induction h with
  | @first txn c hholds =>
      obtain rfl : k = 1 := by
        simp only [List.length_singleton] at hle
        omega
      exact hself (.first hholds)
  | @next txns txn c c' hchain hps hcount hid hholds ih =>
      rw [List.length_append, List.length_singleton] at hle
      by_cases hlast : k = txns.length + 1
      · have hlen : k = (txns ++ [txn]).length := by rw [List.length_append, List.length_singleton, hlast]
        rw [hlen]
        exact hself (.next hchain hps hcount hid hholds)
      · rcases ih (by omega) with ⟨c₀, hc₀, hps₀, hcount₀, hid₀⟩
        refine ⟨c₀, ?_, hps₀.trans hps.symm, hcount₀.trans hcount, ?_⟩
        · rwa [List.take_append_of_le_length (by omega)]
        · rw [hid, hid₀, List.length_append, List.length_singleton, Nat.mod_add_mod]
          congr 1
          omega

/-- The state that a scan of the first transactions leads to when the main file is
already ahead: the pages in the log are the old ones, the others the new ones. -/
def mixedState (c' c : Committed) (index : List (Nat × Nat)) : Committed where
  header := c'.header
  pages n := if (find n index).isSome then c'.pages n else c.pages n

theorem find_isSome_of_mem {l : List (Nat × Nat)} {e : Nat × Nat} (he : e ∈ l) : (find e.1 l).isSome := by
  cases hf : find e.1 l with
  | some _ => rfl
  | none => exact absurd rfl (find_eq_none.mp hf e he)

/-- The images of the mixed state. -/
theorem mixedState_image_old {c' : Committed} {e : Nat × Nat} (he : e ∈ index) :
    (mixedState c' c index).image H e.1 = c'.image H e.1 := by
  unfold Committed.image mixedState
  simp only [find_isSome_of_mem he, if_true]

/-- A mixed state has the new page where the log had none. -/
theorem mixedState_image_new {c' : Committed} {n : Nat} (hn : n ≠ 0) (hf : find n index = none) :
    (mixedState c' c index).image H n = c.image H n := by
  unfold Committed.image mixedState
  simp only [hf, hn, Option.isSome_none, Bool.false_eq_true, if_false]

/-- A mixed state is well formed. -/
theorem mixedState_wf {c' : Committed} (hc : c.Wf H) (hc' : c'.Wf H)
    (hps : c'.header.pageSize = c.header.pageSize) (hcount : c'.header.pageCount ≤ c.header.pageCount) :
    (mixedState c' c index).Wf H := by
  refine ⟨hc'.header, ?_⟩
  intro n h0 hn
  have hn' : n < c'.header.pageCount := hn
  unfold mixedState
  dsimp only
  split
  · exact hc'.page n h0 hn'
  · rw [hps]
    exact hc.page n h0 (by omega)

/-- If a scan of a torn log commits some transactions but not all, the store goes back. -/
theorem recoverable_older (hc : Storable H c) (hview : LogView H c log index) (hfull : MainFull H c main)
    (hlen : img.length = log.length) (hlog : WAL_HEADER_LEN ≤ log.length)
    (hheader : img.take WAL_HEADER_LEN = log.take WAL_HEADER_LEN) {header : WalHeader}
    (hdec : WalHeader.decode (log.take WAL_HEADER_LEN) = some header) {k : Nat} (hk : 0 < k)
    (hlt : k < (logTxns H log).length) (htxns : logTxns H img = (logTxns H log).take k)
    (hsame : ∀ txn ∈ logTxns H img, ∀ e ∈ txn.2, slice img e.2 c.header.pageSize = slice log e.2 c.header.pageSize)
    (hcap : log.length < 2 ^ 64) :
    ∃ c', Recoverable H c' main img ∧ c'.header.txnCounter ≠ c.header.txnCounter := by
  have hne : logTxns H log ≠ [] := List.length_pos_iff.mp (by omega)
  rcases (hview.chain hne).take hk hlt.le with ⟨c₀, hchain, hps, hcount, hid⟩
  rw [← htxns] at hchain
  -- the older pages that the image holds, over the newer ones of the main file
  have hwf : (mixedState c₀ c (replay [] (logTxns H img))).Wf H :=
    mixedState_wf hc.wf hchain.holds.wf hps hcount
  have hslice : ∀ e ∈ replay [] (logTxns H img), e.1 < c₀.header.pageCount ∧
      slice img e.2 c₀.header.pageSize = some ((mixedState c₀ c (replay [] (logTxns H img))).image H e.1) := by
    intro e he
    rcases hchain.holds.images e he with ⟨hlt, himg⟩
    refine ⟨hlt, ?_⟩
    rw [mixedState_image_old he, ← himg, hps]
    rcases mem_replay he with hold | ⟨txn, htxn, hin⟩
    · cases hold
    · exact hsame txn htxn e hin
  refine ⟨mixedState c₀ c (replay [] (logTxns H img)), ⟨⟨hwf, ?_⟩, replay [] (logTxns H img), ?_, ?_⟩, ?_⟩
  · -- the older state has no more pages than the store
    refine le_trans ?_ hc.fits
    show c₀.header.pageCount * c₀.header.pageSize ≤ _
    rw [hps]
    exact Nat.mul_le_mul_right _ hcount
  -- recovery replays exactly these
  · have hscan := (logTxns_of_decode (H := H) (hlen ▸ hlog) (hheader ▸ hdec)).2
    refine ⟨Or.inl ?_, sorted_replay List.Pairwise.nil _, hslice, fun _ => ?_⟩
    · rw [hscan, logView_pageSize hview hlog hdec, ← hps]
      rfl
    · refine Chain.replace (c := c₀) (hchain.mono ?_) rfl ⟨hwf, hslice, hchain.holds.header⟩
      intro txn htxn e he bs hbs
      rw [hps] at hbs ⊢
      rw [hsame txn htxn e he, hbs]
  · refine ⟨?_, ?_⟩
    · show ∃ pre, slice main 0 HEADER_PEEK_LEN = some pre ∧ Header.peekPageSize pre = .ok c₀.header.pageSize
      rw [hps]
      exact peek_of_page hc.wf (hfull 0 hc.wf.header.pageCount_pos)
    · intro n hn hf
      have hn' : n < c₀.header.pageCount := hn
      have h0 : n ≠ 0 := by
        rintro rfl
        rcases hchain.holds.header with ⟨e, he, hzero⟩
        exact find_eq_none.mp hf e he hzero
      rw [mixedState_image_new h0 hf]
      show slice main (n * c₀.header.pageSize) c₀.header.pageSize = _
      rw [hps]
      exact hfull n (by omega)
  · -- fewer than 2 ^ 64 transactions lie between the two states
    show c₀.header.txnCounter ≠ c.header.txnCounter
    have hcountT : (logTxns H log).length ≤ log.length := by
      rw [(logTxns_of_decode (H := H) hlog hdec).1]
      exact scanTxns_length _ _ _ _ _ _ _
    have hlt₀ := hchain.holds.wf.header.txnCounter
    rw [hid]
    omega

/-- A sector that separates a transaction from those before it can take the store back. -/
theorem exists_older (hc : Storable H c) (hview : LogView H c log index) (hfull : MainFull H c main)
    (hsep : ¬ Inseparable H log) (hg : ∀ s, Genuine H log (dropSector s log)) (hcap : log.length < 2 ^ 64) :
    ∃ img c', Tears log img ∧ img.length = log.length ∧ Recoverable H c' main img ∧
      c'.header.txnCounter ≠ c.header.txnCounter := by
  unfold Inseparable at hsep
  push Not at hsep
  rcases hsep with ⟨j, txn, next, htxn, hnext, i, hlo, hhi, hbyte, hclear⟩
  have htears := tears_dropSector (i / sectorSize) log
  have hlenI := dropSector_length (i / sectorSize) log
  -- a log with transactions has a readable header
  have hlog : WAL_HEADER_LEN ≤ log.length := by
    by_contra hshort
    unfold logTxns at htxn
    rw [if_pos (not_le.mp hshort)] at htxn
    cases htxn
  cases hdec : WalHeader.decode (log.take WAL_HEADER_LEN) with
  | none =>
      unfold logTxns at htxn
      rw [if_neg (not_lt.mpr hlog), hdec] at htxn
      cases htxn
  | some header =>
      have hT := (logTxns_of_decode (H := H) hlog hdec).1
      rcases scanTxns_end (hT ▸ List.mem_of_getElem? htxn) with ⟨n, hend, _⟩
      have hle : txn.1 ≤ log.length := scanTxns_le (hT ▸ List.mem_of_getElem? htxn)
      have hagree : ∀ i', i' < txn.1 → (dropSector (i / sectorSize) log).getD i' 0 = log.getD i' 0 := by
        intro i' hi'
        rw [dropSector_getD]
        split
        · rename_i hsector
          exact (hclear i' hi' hsector).symm
        · rfl
      have hheader : (dropSector (i / sectorSize) log).take WAL_HEADER_LEN = log.take WAL_HEADER_LEN := by
        have hslice := slice_of_agree (hlenI.symm ▸ hle) hle hagree (show 0 + WAL_HEADER_LEN ≤ txn.1 by omega)
        rw [slice_of_le (by omega), slice_of_le (by omega)] at hslice
        simpa using hslice
      have hX := (logTxns_of_decode (H := H) (hlenI ▸ hlog) (hheader ▸ hdec)).1
      have hgen := hg (i / sectorSize)
      have hpre : logTxns H (dropSector (i / sectorSize) log) <+: logTxns H log := by
        rw [hT, hX, hlenI]
        exact scanTxns_prefix le_rfl fun k hk => frameAt_of_slice (hgen header k (hheader ▸ hdec) hk)
      have hkeep := prefix_of_agree hlenI hlog hheader hdec htxn hagree
      have hin : j + 1 < (logTxns H log).length := (List.getElem?_eq_some_iff.mp hnext).1
      -- the next transaction has lost a byte
      have hshort : (logTxns H (dropSector (i / sectorSize) log)).length ≤ j + 1 := by
        by_contra hlong
        have hget := getElem?_prefix hpre (show j + 1 < _ by omega)
        rw [hnext] at hget
        have hmem := List.mem_of_getElem? hget.symm
        rw [hX] at hmem
        have hlost := (agree_of_committed hlenI hheader (hheader ▸ hdec) hgen hmem).2 i hhi
        rw [dropSector_getD, if_pos rfl] at hlost
        exact hbyte hlost.symm
      have htake : logTxns H (dropSector (i / sectorSize) log) = (logTxns H log).take (j + 1) := by
        have hlen := hkeep.length_le
        rw [List.length_take] at hlen
        rw [List.prefix_iff_eq_take.mp hpre]
        congr 1
        omega
      have hsame : ∀ t ∈ logTxns H (dropSector (i / sectorSize) log), ∀ e ∈ t.2,
          slice (dropSector (i / sectorSize) log) e.2 c.header.pageSize = slice log e.2 c.header.pageSize := by
        intro t ht e he
        have hmem : t ∈ scanTxns H (dropSector (i / sectorSize) log) header
            (dropSector (i / sectorSize) log).length WAL_HEADER_LEN [] none := hX ▸ ht
        rcases agree_of_committed hlenI hheader (hheader ▸ hdec) hgen hmem with ⟨hle', hagree'⟩
        rcases scanTxns_images hmem he with hold | himg
        · cases hold
        · rw [logView_pageSize hview hlog hdec] at himg
          exact slice_of_agree hle' (hlenI ▸ hle') hagree' himg
      rcases recoverable_older hc hview hfull hlenI hlog hheader hdec (Nat.succ_pos j) hin htake hsame hcap with
        ⟨c', hrec, hid⟩
      exact ⟨_, c', htears, hlenI, hrec, hid⟩

end Separable

/-! ## The window -/

/-- What `SimVfs::power_fail` makes of a file: one of the two lengths, and in every sector
the current bytes or the synced ones. -/
def File.SimSurvives (f : File) (img : Bytes) : Prop :=
  (img.length = f.current.length ∨ img.length = f.synced.length) ∧
  ∀ s, (∀ i, i / sectorSize = s → i < img.length → img.getD i 0 = f.current.getD i 0) ∨
       (∀ i, i / sectorSize = s → i < img.length → img.getD i 0 = f.synced.getD i 0)

/-- `SimVfs::power_fail`. -/
def SimPowerFail (fs fs' : Fs) : Prop :=
  fs'.names = fs.names ∧ fs'.nextFile = fs.nextFile ∧ fs'.nextHandle = fs.nextHandle ∧
  (∀ h, fs'.handles h = none) ∧ (∀ f, fs'.locks f = none) ∧
  ∀ f, ∃ img, (fs.files f).SimSurvives img ∧ fs'.files f = File.clean img

/-- The log has been truncated and not been synced since. -/
def Truncated (path : Path) (fs : Fs) : Prop := (walFile path fs).cut.isSome = true

/-- The states between the truncation of the log and its sync, each with the state that
was committed last: in a checkpoint, in the checkpoint of a commit or a close, and in an
opening, whose store shows the state if it is left to finish. -/
inductive ResetWindow (R : Runtime) (path : Path) : Fs → Committed → Prop where
  | checkpoint {fs fs' : Fs} {p : Pager} {e : Expected} : History R path fs (some p) e →
      Prog.Interrupt (p.checkpoint R) fs fs' → Truncated path fs' → ResetWindow R path fs' e.last
  | commit {fs fs' : Fs} {p : Pager} {e : Expected} {t : Txn} (ops : List TxnOp) (salt : UInt64) :
      History R path fs (some p) e → t = p.transact R e ops → t.pageCount * t.pageSize ≤ 2 ^ 64 →
      Prog.Interrupt (p.commitTxn R salt t.dirty t.pageCount t.pending) fs fs' → Truncated path fs' →
      ResetWindow R path fs' t.commit
  | close {fs fs' : Fs} {p : Pager} {e : Expected} : History R path fs (some p) e →
      Prog.Interrupt (p.close R).run fs fs' → Truncated path fs' → ResetWindow R path fs' e.last
  | openStore {fs fs' fs'' : Fs} {opts : PagerOptions} {p : Pager} {e : Expected} {c : Committed} :
      History R path fs none e → Prog.Interrupt (Pager.openStore R path opts).run fs fs' → Truncated path fs' →
      (Pager.openStore R path opts).run.run fs = (fs'', .ok p) → Shows R p fs'' c → ResetWindow R path fs' c

section Window

variable {R : Runtime} {path : Path} {fs fs' : Fs} {c : Committed}

theorem File.SimSurvives.clean {bs img : Bytes} (h : (File.clean bs).SimSurvives img) : img = bs := by
  rcases h with ⟨hlen, hsector⟩
  have hlen : img.length = bs.length := by
    rcases hlen with h | h
    · exact h
    · exact h
  refine ext_getD hlen ?_
  intro i hi
  rcases hsector (i / sectorSize) with h | h
  · exact h i rfl hi
  · exact h i rfl hi

/-- What the simulator leaves of a truncated log is a torn one, and conversely. -/
theorem simSurvives_truncated {log img : Bytes} :
    ((File.clean log).truncate 0).SimSurvives img ↔ Tears log img := by
  have hcur : ((File.clean log).truncate 0).current = [] := by
    simp [File.truncate, File.clean, File.resize]
  unfold File.SimSurvives Tears
  rw [hcur]
  exact Iff.rfl

/-- A slot of a torn log that validates is not one of the empty file. -/
theorem genuine_of_ideal {H : Xxh3} {log img : Bytes} (h : IdealChecksums H ((File.clean log).truncate 0) img) :
    Genuine H log img := by
  intro header k hdec hat
  rcases h header k hdec hat with ⟨v, hv, hslice⟩
  have hsome : slice img (WAL_HEADER_LEN + k * header.slot) header.slot ≠ none := by
    intro hnone
    refine hat ?_
    unfold frameAt
    rw [if_pos]
    exact slice_eq_none.mp hnone
  have hempty : v = [] → slice img (WAL_HEADER_LEN + k * header.slot) header.slot =
      slice log (WAL_HEADER_LEN + k * header.slot) header.slot := by
    rintro rfl
    refine absurd (hslice.trans (slice_eq_none.mpr ?_)) hsome
    simp only [List.length_nil, WAL_HEADER_LEN]
    omega
  have htrunc : (File.clean log).truncate 0 = { synced := log, current := [], cut := some (log, []) } := by
    simp [File.truncate, File.clean, File.resize]
  rw [htrunc] at hv
  rcases hv with rfl | rfl | rfl | ⟨w, hcut | hcut⟩
  · exact hslice
  · exact hempty rfl
  · exact hempty rfl
  · cases hcut
    exact hslice
  · cases hcut
    exact hempty rfl

/-- In the window the main file is complete, and the log is the old one, truncated. -/
theorem CrashOk.window (h : CrashOk R.xxh (· = c) path fs) (hcut : Truncated path fs) :
    ∃ fm bs log index, fs.names path = some fm ∧ fm < fs.nextFile ∧
      (∀ fw, fs.names (walPathFor path) = some fw → fw ≠ fm ∧ fw < fs.nextFile) ∧
      fs.files fm = File.clean bs ∧ walFile path fs = (File.clean log).truncate 0 ∧
      Storable R.xxh c ∧ LogView R.xxh c log index ∧ MainFull R.xxh c bs := by
  rcases h with ⟨fm, hname, hlt, hwal, hmid⟩
  unfold Truncated at hcut
  generalize hmain : fs.files fm = main at hmid
  generalize hlogf : walFile path fs = wal at hmid hcut
  cases hmid with
  | main => cases hcut
  | cut hP hc hlog hfull =>
      subst hP
      exact ⟨fm, _, _, _, hname, hlt, hwal, hmain, rfl, hc, hlog, hfull⟩
  | append _ _ happ =>
      rw [happ.cut] at hcut
      cases hcut

/-- The store after a power failure in the window. -/
theorem atRest_of_tears {fm : Nat} {bs img : Bytes} (hname : fs.names path = some fm) (hlt : fm < fs.nextFile)
    (hwal : ∀ fw, fs.names (walPathFor path) = some fw → fw ≠ fm ∧ fw < fs.nextFile)
    (hmain : fs.files fm = File.clean bs) (hfail : SimPowerFail fs fs') (himg : walFile path fs' = File.clean img)
    (hrec : Recoverable R.xxh c bs img) : AtRest R.xxh c path fs' fm bs img := by
  rcases hfail with ⟨hnames, hnext, _, _, hlocks, hfiles⟩
  rcases hfiles fm with ⟨x, hx, hx'⟩
  rw [hmain] at hx
  refine ⟨hnames ▸ hname, hnext ▸ hlt, ?_, hlocks fm, ?_, himg, hrec⟩
  · rw [hnames, hnext]
    exact hwal
  · rw [hx', hx.clean]

/-- What the simulator leaves of the log. -/
theorem SimPowerFail.walFile (hfail : SimPowerFail fs fs') :
    ∃ img, (EmbedMind.walFile path fs).SimSurvives img ∧ EmbedMind.walFile path fs' = File.clean img := by
  rcases hfail with ⟨hnames, _, _, _, _, hfiles⟩
  unfold EmbedMind.walFile
  rw [hnames]
  cases fs.names (walPathFor path) with
  | some fw => exact hfiles fw
  | none => exact ⟨[], ⟨Or.inl rfl, fun _ => Or.inl fun _ _ _ => rfl⟩, rfl⟩

/-- A power failure that leaves a given image of the log. -/
theorem exists_simPowerFail {fw : Nat} {img : Bytes} (hfw : fs.names (walPathFor path) = some fw)
    (himg : (fs.files fw).SimSurvives img) :
    ∃ fs', SimPowerFail fs fs' ∧ EmbedMind.walFile path fs' = File.clean img := by
  refine ⟨{ fs with
    files := Function.update (fun f => File.clean (fs.files f).synced) fw (File.clean img)
    handles := fun _ => none
    locks := fun _ => none }, ⟨rfl, rfl, rfl, fun _ => rfl, fun _ => rfl, ?_⟩, ?_⟩
  · intro f
    by_cases hf : f = fw
    · subst hf
      exact ⟨img, himg, by simp⟩
    · exact ⟨(fs.files f).synced, ⟨Or.inr rfl, fun _ => Or.inr fun _ _ _ => rfl⟩, by simp [hf]⟩
  · simp [EmbedMind.walFile, hfw]

/-- A pager shows every state that is the same. -/
theorem Shows.of_same {c' : Committed} {p : Pager} (hc : c.Wf R.xxh) (h : Shows R p fs c)
    (hs : c.Same R.xxh c') : Shows R p fs c' := by
  refine ⟨h.1.trans hs.1, ?_⟩
  intro n
  rw [h.2 n]
  have hread : c.readPage R.xxh n = c'.readPage R.xxh n := by
    by_cases hn : n < c.header.pageCount
    · rw [hc.readPage_eq hn, (hc.same hs).readPage_eq (hs.1 ▸ hn), hs.2 n hn]
    · unfold Committed.readPage
      rw [if_pos (not_lt.mp hn), if_pos (hs.1 ▸ not_lt.mp hn), hs.1]
  rw [hread]

/-- In the window of a commit the new state is the committed one. -/
theorem commitTxn_window {p : Pager} {t : Txn} {fm fw : Nat} {main log : Bytes}
    (h : Live R.xxh t.base path p fs fm fw main log) (ht : t.Wf R.xxh)
    (hfits : t.pageCount * t.pageSize ≤ 2 ^ 64) (salt : UInt64)
    (hint : Prog.Interrupt (p.commitTxn R salt t.dirty t.pageCount t.pending) fs fs')
    (hcut : Truncated path fs') : CrashOk R.xxh (· = t.commit) path fs' := by
  have hstart : Truncated path fs → CrashOk R.xxh (· = t.commit) path fs' := by
    intro h0
    unfold Truncated at h0
    rw [h.walFile_cut] at h0
    cases h0
  rcases commitTxn_cases R p salt t.dirty t.pageCount t.pending with ⟨r, heq⟩ | ⟨page0, husable, hne, hpage0⟩
  · rw [heq] at hint
    cases hint
    exact hstart hcut
  · rcases h.encode ht with ⟨hheader, henc⟩
    rw [commitTxn_eq husable hne hpage0] at hint
    rw [hheader] at hpage0 hint
    obtain rfl := Except.ok.inj (henc.symm.trans hpage0)
    rw [h.header] at hne
    rcases Prog.interrupt_bind hint with happ | hafter
    · -- nothing is cut off while the frames are appended
      have hnone := ((wpc_commitAppend h ht hne hfits salt).2 _ happ).2
      unfold Truncated at hcut
      rw [hnone] at hcut
      cases hcut
    · rcases (wpc_commitAppend h ht hne hfits salt).1 with ⟨offsets, wal, hres, _, log', hnew⟩
      unfold Txn.frames at hres hnew
      rw [hres] at hafter
      exact (wpc_afterAppend hnew).2 _ hafter

/-- In the window the disk holds the state that was committed last, and so does what is
left after a power failure that can be recovered. -/
theorem ResetWindow.crashOk (h : ResetWindow R path fs c) :
    ∃ c₀, CrashOk R.xxh (· = c₀) path fs ∧ c₀.Same R.xxh c ∧ Truncated path fs := by
  have hrefl : ∀ c : Committed, c.Same R.xxh c := fun _ => ⟨rfl, fun _ _ => rfl⟩
  cases h with
  | checkpoint hrun hint hcut =>
      rcases hrun.kept with ⟨_, fm, fw, main, log, hlive⟩
      exact ⟨_, (wpc_checkpoint hlive).2 _ hint, hrefl _, hcut⟩
  | commit ops salt hrun ht hfits hint hcut =>
      rcases hrun.kept with ⟨_, fm, fw, main, log, hlive⟩
      rcases hlive.transact ops with ⟨hwf, hbase⟩
      subst ht
      exact ⟨_, commitTxn_window (hbase ▸ hlive) hwf hfits salt hint hcut, hrefl _, hcut⟩
  | close hrun hint hcut =>
      rcases hrun.kept with ⟨_, fm, fw, main, log, hlive⟩
      exact ⟨_, (wpc_close hlive).2 _ hint, hrefl _, hcut⟩
  | @openStore fs _ fs'' opts p e _ hrun hint hcut hopen hshows =>
      rcases hrun.kept with ⟨c₀, fm, main, wal, _, hrest⟩
      rcases (wpc_openStore hrest opts).1 with ⟨p', hp', fw, b, hlive⟩
      rw [hopen] at hp' hlive
      cases hp'
      exact ⟨c₀, (wpc_openStore hrest opts).2 _ hint, same_of_shows hlive.storable.wf hlive.shows hshows, hcut⟩

/-- The next opening shows the committed state, whatever a power failure leaves. -/
def WindowSafe (R : Runtime) (path : Path) (fs : Fs) (c : Committed) : Prop :=
  ∀ fs', SimPowerFail fs fs' → ∀ opts, ∃ fs'' p,
    (Pager.openStore R path opts).run.run fs' = (fs'', .ok p) ∧ Shows R p fs'' c

/-- Any state that what is left of the files can be recovered to is the one the next opening shows. -/
theorem shows_recoverable {c' : Committed} {fm : Nat} {bs img : Bytes} (hname : fs.names path = some fm)
    (hlt : fm < fs.nextFile) (hwal : ∀ fw, fs.names (walPathFor path) = some fw → fw ≠ fm ∧ fw < fs.nextFile)
    (hmain : fs.files fm = File.clean bs) (hfail : SimPowerFail fs fs') (himg : walFile path fs' = File.clean img)
    (hrec : Recoverable R.xxh c' bs img) (opts : PagerOptions) :
    ∃ fs'' p, (Pager.openStore R path opts).run.run fs' = (fs'', .ok p) ∧ Shows R p fs'' c' := by
  rcases (wpc_openStore (atRest_of_tears hname hlt hwal hmain hfail himg hrec) opts).1 with ⟨p, hp, fw, b, hlive⟩
  exact ⟨_, p, Prod.ext rfl hp, hlive.shows⟩

/-- A sector that separates a transaction from those before it makes the window unsafe. -/
theorem ResetWindow.undone (h : ResetWindow R path fs c) {log : Bytes}
    (hlog : walFile path fs = (File.clean log).truncate 0) (hlen : log.length < 2 ^ 64)
    (hgen : ∀ s, Genuine R.xxh log (dropSector s log)) (hsep : ¬ Inseparable R.xxh log) :
    ∃ fs', SimPowerFail fs fs' ∧ ∀ opts, ∃ fs'' p,
      (Pager.openStore R path opts).run.run fs' = (fs'', .ok p) ∧ ¬ Shows R p fs'' c := by
  rcases h.crashOk with ⟨c₀, hcrash, hsame, hcut⟩
  rcases hcrash.window hcut with ⟨fm, bs, log', index, hname, hlt, hwal, hmain, hlog', hc, hview, hfull⟩
  obtain rfl : log = log' := congrArg File.synced (hlog.symm.trans hlog')
  rcases exists_older hc hview hfull hsep hgen hlen with ⟨img, c', htears, _, hrec, hid⟩
  have hfw : ∃ fw, fs.names (walPathFor path) = some fw := by
    unfold walFile at hlog
    cases hn : fs.names (walPathFor path) with
    | some fw => exact ⟨fw, rfl⟩
    | none =>
        rw [hn] at hlog
        cases congrArg File.cut hlog
  rcases hfw with ⟨fw, hfw⟩
  have hfile : fs.files fw = (File.clean log).truncate 0 := by
    rw [← hlog]
    unfold walFile
    rw [hfw]
  rcases exists_simPowerFail hfw (hfile ▸ simSurvives_truncated.mpr htears) with ⟨fs', hfail, himg⟩
  refine ⟨fs', hfail, ?_⟩
  intro opts
  rcases shows_recoverable hname hlt hwal hmain hfail himg hrec opts with ⟨fs'', p, hopen, hshows⟩
  refine ⟨fs'', p, hopen, ?_⟩
  intro hshows'
  refine hid ?_
  rw [← hshows.1, hshows'.1, hsame.1]

/-- A power failure between the truncation of the log and its sync is harmless, whatever
it leaves of the old log, exactly if no sector of the log separates one of its
transactions from the ones before it. -/
theorem reset_window_safe_iff (h : ResetWindow R path fs c) (hlen : (walFile path fs).synced.length < 2 ^ 64)
    (hideal : ∀ img, (walFile path fs).SimSurvives img → IdealChecksums R.xxh (walFile path fs) img) :
    WindowSafe R path fs c ↔ Inseparable R.xxh (walFile path fs).synced := by
  rcases h.crashOk with ⟨c₀, hcrash, hsame, hcut⟩
  rcases hcrash.window hcut with ⟨fm, bs, log, index, hname, hlt, hwal, hmain, hlog, hc, hview, hfull⟩
  have hgen : ∀ img, Tears log img → Genuine R.xxh log img := by
    intro img ht
    rw [hlog] at hideal
    exact genuine_of_ideal (hideal img (simSurvives_truncated.mpr ht))
  rw [hlog] at hlen ⊢
  constructor
  · intro hall
    by_contra hsep
    rcases h.undone hlog hlen (fun s => hgen _ (tears_dropSector s log)) hsep with ⟨fs', hfail, hbad⟩
    rcases hall fs' hfail {} with ⟨fs₁, p₁, hopen, hshows⟩
    rcases hbad {} with ⟨fs₂, p₂, hopen', hnot⟩
    obtain ⟨rfl, hp⟩ := Prod.mk.inj (hopen.symm.trans hopen')
    obtain rfl := Except.ok.inj hp
    exact hnot hshows
  · intro hsep fs' hfail opts
    rcases hfail.walFile with ⟨img, hsurvives, himg⟩
    rw [hlog] at hsurvives
    have htears := simSurvives_truncated.mp hsurvives
    have hrec := recoverable_torn hc hview hfull hsep htears (hgen img htears)
    rcases shows_recoverable hname hlt hwal hmain hfail himg hrec opts with ⟨fs'', p, hopen, hshows⟩
    exact ⟨fs'', p, hopen, hshows.of_same hc.wf hsame⟩

/-- A checkpoint with anything in the log passes through the window. -/
theorem Live.exists_window {p : Pager} {fm fw : Nat} {main log : Bytes}
    (h : Live R.xxh c path p fs fm fw main log) (hlen : p.wal.len ≠ 0) :
    ∃ fs', Prog.Interrupt (p.checkpoint R) fs fs' ∧ Truncated path fs' ∧ walFile path fs' = (File.clean log).truncate 0 := by
  have ho := h.opened
  have hperm := R.hashOrder_perm p.walIndex
  have happly := (wpc_applyPages h.storable h.view h.mainOk _ (fun e he => hperm.subset he) h.mainOk ho h.log_eq
    h.main_eq).1
  -- the checkpoint copies the pages, syncs and truncates the log
  rcases happly with ⟨u, hu, b, hs, _⟩
  have hrun : (applyPages p.main p.wal.file p.header.pageSize (R.hashOrder p.walIndex)).run.run fs =
      (fs.setFile fm { synced := main, current := b }, .ok u) := by
    rw [h.header]
    exact Prod.ext hs hu
  have hlog : ∀ f, (fs.setFile fm f).files fw = File.clean log := by
    intro f
    simp [ho.ne.symm, h.log_eq]
  refine ⟨(fs.setFile fm (File.clean b)).setFile fw ((File.clean log).truncate 0), ?_, ?_, ?_⟩
  · unfold Pager.checkpoint
    rw [if_neg (by simp [h.usable]), if_neg (by simp [hlen])]
    -- and is cut before the next sync
    refine Prog.Interrupt.left ?_
    unfold Pager.checkpointInner
    refine Prog.Interrupt.rightExcept hrun (Prog.Interrupt.rightExcept (t := fs.setFile fm (File.clean b)) (a := ()) ?_ ?_)
    · simp [Io.sync, Io.ofCall, Prog.call, Prog.bind, Prog.run, vfs, Fs.exec, ho.mainHandle, File.sync, File.clean]
    · unfold Wal.reset
      rw [bind_assoc]
      refine Prog.Interrupt.rightExcept (a := ()) ?_ (.here _ _)
      simp [Io.truncate, Io.ofCall, Prog.call, Prog.bind, Prog.run, vfs, Fs.exec, ho.walHandle, ho.ne.symm, h.log_eq]
  · unfold Truncated
    rw [((ho.setFile _ _).setFile _ _).toNamed.walFile_eq]
    simp [File.truncate]
  · rw [((ho.setFile _ _).setFile _ _).toNamed.walFile_eq]
    simp

end Window

/-! ## A store with a few commits -/

/-- A runtime whose hashes count the bytes other than zero. -/
def Runtime.counting : Runtime :=
  { Runtime.plain with
    xxh :=
      { xxh3_64 := fun bs => UInt64.ofNat (1 + bs.countP fun b => b != 0)
        withSeed := fun seed bs => UInt64.ofNat (1 + seed + bs.countP fun b => b != 0) } }

/-- The same, but the checksum of a page with a byte 201 happens to be zero. -/
def Runtime.vanishing : Runtime :=
  { Runtime.counting with
    xxh :=
      { Runtime.counting.xxh with
        xxh3_64 := fun bs => if 201 ∈ bs then 0 else UInt64.ofNat (1 + bs.countP fun b => b != 0) } }

/-- Transactions that set the root of the text index. -/
def rootTxns (roots : List UInt64) : List (List TxnOp) := roots.map fun root => [.setFtsRootPage root]

/-- The store in the window of a checkpoint. -/
theorem window_of_storeAfter {R : Runtime} {path : Path} {txns : List (List TxnOp)} {s : Fs × Pager × Committed}
    (h : storeAfter R path txns = some s) (hlen : s.2.1.wal.len ≠ 0) :
    ∃ fs', ResetWindow R path fs' s.2.2 ∧
      walFile path fs' = (File.clean (walFile path s.1).current).truncate 0 := by
  have hrun := History.storeAfter h
  rcases hrun.kept with ⟨_, fm, fw, main, log, hlive⟩
  rcases hlive.exists_window hlen with ⟨fs', hint, hcut, hlog⟩
  have hcur : (walFile path s.1).current = log := by
    rw [hlive.opened.toNamed.walFile_eq, hlive.log_eq]
    rfl
  exact ⟨fs', .checkpoint hrun hint hcut, hcur ▸ hlog⟩

/-- The log of a store with a few commits. -/
@[irreducible] def logOf (R : Runtime) (roots : List UInt64) : Bytes :=
  ((storeAfter R "memory.mind" (rootTxns roots)).map fun s => (walFile "memory.mind" s.1).current).getD []

/-- A window over the log of such commits. -/
theorem exists_window (R : Runtime) {roots : List UInt64}
    (h : (storeAfter R "memory.mind" (rootTxns roots)).any (fun s => s.2.1.wal.len != 0) = true) :
    ∃ fs c, ResetWindow R "memory.mind" fs c ∧ walFile "memory.mind" fs = (File.clean (logOf R roots)).truncate 0 := by
  unfold logOf
  cases hs : storeAfter R "memory.mind" (rootTxns roots) with
  | none =>
      rw [hs] at h
      cases h
  | some s =>
      rw [hs] at h
      rcases window_of_storeAfter hs (by simpa using h) with ⟨fs, hwin, hlog⟩
      exact ⟨fs, s.2.2, hwin, hlog⟩

/-- Behind the end of the log there is no sector to drop. -/
theorem dropSector_of_le {s : Nat} {log : Bytes} (h : log.length ≤ s * sectorSize) : dropSector s log = log := by
  refine ext_getD (dropSector_length s log) ?_
  intro i hi
  rw [dropSector_length] at hi
  rw [dropSector_getD, if_neg]
  intro hs
  have := Nat.div_mul_le_self i sectorSize
  rw [hs] at this
  omega

theorem getD_of_drop_zero {log : Bytes} {n i : Nat} (h : (log.drop n).all (· == 0) = true) (hi : n ≤ i) :
    log.getD i 0 = 0 := by
  by_cases hlt : i < log.length
  · have hmem : log[i] ∈ log.drop n := by
      rw [List.mem_drop_iff_getElem]
      exact ⟨i - n, by omega, by simp [Nat.add_sub_cancel' hi]⟩
    rw [List.getD_eq_getElem _ _ hlt]
    exact eq_of_beq (List.all_eq_true.mp h _ hmem)
  · rw [List.getD_eq_default _ _ (not_lt.mp hlt)]

/-- Slots that do not fit are no frames. -/
theorem frameAt_of_short {H : Xxh3} {img : Bytes} {header : WalHeader} {off : Nat}
    (h : img.length < off + header.slot) : frameAt H img header off = none := by
  unfold frameAt
  rw [if_pos h]

theorem slot_generation : (generation 512 7).slot = 544 := rfl

/-- A log of two frames, none of which validates in part. -/
theorem genuine_of_two {H : Xxh3} {log : Bytes} (hlen : log.length = 1120)
    (hzero : WalHeader.decode ((dropSector 0 log).take WAL_HEADER_LEN) = none)
    (hone : WalHeader.decode ((dropSector 1 log).take WAL_HEADER_LEN) = some (generation 512 7))
    (hone₀ : frameAt H (dropSector 1 log) (generation 512 7) (WAL_HEADER_LEN + 0 * (generation 512 7).slot) = none)
    (hone₁ : frameAt H (dropSector 1 log) (generation 512 7) (WAL_HEADER_LEN + 1 * (generation 512 7).slot) = none)
    (htwo : WalHeader.decode ((dropSector 2 log).take WAL_HEADER_LEN) = some (generation 512 7))
    (htwo₀ : slice (dropSector 2 log) (WAL_HEADER_LEN + 0 * (generation 512 7).slot) (generation 512 7).slot =
      slice log (WAL_HEADER_LEN + 0 * (generation 512 7).slot) (generation 512 7).slot)
    (htwo₁ : frameAt H (dropSector 2 log) (generation 512 7) (WAL_HEADER_LEN + 1 * (generation 512 7).slot) = none) (s : Nat) :
    Genuine H log (dropSector s log) := by
  have hfar : ∀ k, frameAt H (dropSector s log) (generation 512 7)
      (WAL_HEADER_LEN + (k + 2) * (generation 512 7).slot) = none := by
    intro k
    refine frameAt_of_short ?_
    rw [dropSector_length, hlen, slot_generation, WAL_HEADER_LEN]
    omega
  intro header k hdec hat
  rcases s with _ | _ | _ | s
  · rw [hzero] at hdec
    cases hdec
  · obtain rfl := Option.some.inj (hone.symm.trans hdec)
    rcases k with _ | _ | k
    · exact absurd hone₀ hat
    · exact absurd hone₁ hat
    · exact absurd (hfar k) hat
  · obtain rfl := Option.some.inj (htwo.symm.trans hdec)
    rcases k with _ | _ | k
    · exact htwo₀
    · exact absurd htwo₁ hat
    · exact absurd (hfar k) hat
  · -- the log ends before the fourth sector
    have hle : log.length ≤ (s + 3) * sectorSize := by
      rw [hlen]
      simp only [sectorSize]
      omega
    rw [dropSector_of_le hle]

set_option maxRecDepth 100000 in
theorem genuine_logOf_counting (s : Nat) :
    Genuine Runtime.counting.xxh (logOf .counting [1, 2]) (dropSector s (logOf .counting [1, 2])) := by
  have hall : (logOf .counting [1, 2]).length = 1120 ∧
      WalHeader.decode ((dropSector 0 (logOf .counting [1, 2])).take WAL_HEADER_LEN) = none ∧
      WalHeader.decode ((dropSector 1 (logOf .counting [1, 2])).take WAL_HEADER_LEN) = some (generation 512 7) ∧
      frameAt Runtime.counting.xxh (dropSector 1 (logOf .counting [1, 2])) (generation 512 7)
        (WAL_HEADER_LEN + 0 * (generation 512 7).slot) = none ∧
      frameAt Runtime.counting.xxh (dropSector 1 (logOf .counting [1, 2])) (generation 512 7)
        (WAL_HEADER_LEN + 1 * (generation 512 7).slot) = none ∧
      WalHeader.decode ((dropSector 2 (logOf .counting [1, 2])).take WAL_HEADER_LEN) = some (generation 512 7) ∧
      slice (dropSector 2 (logOf .counting [1, 2])) (WAL_HEADER_LEN + 0 * (generation 512 7).slot) (generation 512 7).slot =
        slice (logOf .counting [1, 2]) (WAL_HEADER_LEN + 0 * (generation 512 7).slot) (generation 512 7).slot ∧
      frameAt Runtime.counting.xxh (dropSector 2 (logOf .counting [1, 2])) (generation 512 7)
        (WAL_HEADER_LEN + 1 * (generation 512 7).slot) = none := by decide +kernel
  rcases hall with ⟨hlen, hzero, hone, hone₀, hone₁, htwo, htwo₀, htwo₁⟩
  exact genuine_of_two hlen hzero hone hone₀ hone₁ htwo htwo₀ htwo₁ s

set_option maxRecDepth 100000 in
/-- Two acknowledged commits are in the log when the power fails between its truncation
and its sync. The sector with the last bytes of the second one is lost, and the next
opening undoes the commit. -/
theorem reset_window_undoes_commit :
    ∃ fs c, ResetWindow Runtime.counting "memory.mind" fs c ∧ ¬ WindowSafe Runtime.counting "memory.mind" fs c := by
  rcases exists_window .counting (show (storeAfter .counting "memory.mind" (rootTxns [1, 2])).any (fun s => s.2.1.wal.len != 0) = true by decide +kernel) with ⟨fs, c, hwin, hlog⟩
  have htxns : logTxns Runtime.counting.xxh (logOf .counting [1, 2]) = [(576, [(0, 64)]), (1120, [(0, 608)])] := by
    decide +kernel
  have hbyte : (logOf .counting [1, 2]).length = 1120 ∧ (logOf .counting [1, 2]).getD 1112 0 ≠ 0 := by decide +kernel
  have hsep : ¬ Inseparable Runtime.counting.xxh (logOf .counting [1, 2]) := by
    intro h
    rcases h 0 (576, [(0, 64)]) (1120, [(0, 608)]) (by rw [htxns]; rfl) (by rw [htxns]; rfl) 1112 (by decide)
      (by decide) hbyte.2 with ⟨i', hlt, hsector, _⟩
    simp only [sectorSize] at hsector hlt
    omega
  rcases hwin.undone hlog (by rw [hbyte.1]; decide) genuine_logOf_counting hsep with ⟨fs', hfail, hbad⟩
  refine ⟨fs, c, hwin, ?_⟩
  intro hsafe
  rcases hsafe fs' hfail {} with ⟨fs₁, p₁, hopen, hshows⟩
  rcases hbad {} with ⟨fs₂, p₂, hopen', hnot⟩
  obtain ⟨rfl, hp⟩ := Prod.mk.inj (hopen.symm.trans hopen')
  obtain rfl := Except.ok.inj hp
  exact hnot hshows

/-- A log of two frames whose second one ends in zeros: what is torn of it does not validate. -/
theorem ideal_of_two {H : Xxh3} {log img : Bytes} (hlen : log.length = 1120) (hlast : (log.drop 1024).all (· == 0) = true)
    (hbyte : log.getD 0 0 ≠ 0) (hheader : WalHeader.decode (log.take WAL_HEADER_LEN) = some (generation 512 7))
    (hdrop₀ : frameAt H (dropSector 1 log) (generation 512 7) (WAL_HEADER_LEN + 0 * (generation 512 7).slot) = none)
    (hdrop₁ : frameAt H (dropSector 1 log) (generation 512 7) (WAL_HEADER_LEN + 1 * (generation 512 7).slot) = none)
    (h : ((File.clean log).truncate 0).SimSurvives img) : IdealChecksums H ((File.clean log).truncate 0) img := by
  have htears := simSurvives_truncated.mp h
  intro header k hdec hat
  have hlong : WAL_HEADER_LEN ≤ img.length := by
    by_contra hshort
    rcases htears.1 with h0 | h0
    · rw [List.length_eq_zero_iff.mp h0] at hdec
      cases hdec
    · rw [h0, hlen] at hshort
      exact hshort (by decide)
  rcases htears.header (H := H) hlong with hnone | ⟨hsame, htake⟩
  · rw [scanBytes_eq, if_neg (not_lt.mpr hlong), hdec] at hnone
    cases hnone
  · refine ⟨log, Or.inl rfl, ?_⟩
    rw [htake, hheader] at hdec
    obtain rfl := Option.some.inj hdec
    -- the first sector is there, and the third one holds zeros either way: the second one decides
    have hfirst : ∀ i, i < 512 → img.getD i 0 = log.getD i 0 := by
      intro i hi
      rcases htears.2 0 with h0 | h0
      · have hhead := congrArg (fun bs => bs.getD 0 0) htake
        simp only [List.getD_eq_getElem?_getD, List.getElem?_take_of_lt (show 0 < WAL_HEADER_LEN by decide)] at hhead
        rw [← List.getD_eq_getElem?_getD, ← List.getD_eq_getElem?_getD, h0 0 rfl (by omega)] at hhead
        exact absurd hhead.symm hbyte
      · exact h0 i (Nat.div_eq_of_lt hi) (by omega)
    have hthird : ∀ i, 1024 ≤ i → i < img.length → img.getD i 0 = log.getD i 0 := by
      intro i hlo hi
      rcases htears.2 2 with h2 | h2
      · rw [h2 i (by simp only [sectorSize]; omega) hi, getD_of_drop_zero hlast hlo]
      · exact h2 i (by simp only [sectorSize]; omega) hi
    rcases htears.2 1 with h1 | h1
    · obtain rfl : img = dropSector 1 log := by
        refine ext_getD (hsame.trans (dropSector_length _ _).symm) ?_
        intro i hi
        rw [dropSector_getD]
        split
        · rename_i hone
          exact h1 i hone hi
        · rename_i hone
          by_cases hlo : i < 512
          · exact hfirst i hlo
          · refine hthird i ?_ hi
            simp only [sectorSize] at hone
            omega
      rcases k with _ | _ | k
      · exact absurd hdrop₀ hat
      · exact absurd hdrop₁ hat
      · refine absurd (frameAt_of_short ?_) hat
        show (dropSector 1 log).length < WAL_HEADER_LEN + (k + 2) * (generation 512 7).slot + (generation 512 7).slot
        rw [hsame, hlen, slot_generation, WAL_HEADER_LEN]
        omega
    · obtain rfl : img = log := by
        refine ext_getD hsame ?_
        intro i hi
        by_cases hlo : i < 512
        · exact hfirst i hlo
        · by_cases hhi : i < 1024
          · exact h1 i (by simp only [sectorSize]; omega) hi
          · exact hthird i (by omega) hi
      rfl

/-- Two commits are inseparable if the second one ends in zeros from its second sector on. -/
theorem inseparable_of_two {H : Xxh3} {log : Bytes} {pages pages' : List (Nat × Nat)}
    (htxns : logTxns H log = [(576, pages), (1120, pages')]) (hlast : (log.drop 1024).all (· == 0) = true)
    (htrailer : log.getD 568 0 ≠ 0) : Inseparable H log := by
  intro j txn next htxn hnext i hlo hhi hbyte
  rw [htxns] at htxn hnext
  rcases j with _ | j
  · cases htxn
    by_cases hi : i < 1024
    · refine ⟨568, by norm_num, ?_, htrailer⟩
      simp only [sectorSize] at hlo ⊢
      omega
    · exact absurd (getD_of_drop_zero hlast (not_lt.mp hi)) hbyte
  · cases hnext

set_option maxRecDepth 100000 in
/-- With two commits in the log the window is safe, if the second one hides in a sector of the first. -/
theorem reset_window_safe_iff_two_commits :
    ∃ fs c, ResetWindow Runtime.vanishing "memory.mind" fs c ∧
      (logTxns Runtime.vanishing.xxh (walFile "memory.mind" fs).synced).length = 2 ∧
      Inseparable Runtime.vanishing.xxh (walFile "memory.mind" fs).synced ∧
      WindowSafe Runtime.vanishing "memory.mind" fs c := by
  rcases exists_window .vanishing (show (storeAfter .vanishing "memory.mind" (rootTxns [1, 201])).any
    (fun s => s.2.1.wal.len != 0) = true by decide +kernel) with ⟨fs, c, hwin, hlog⟩
  have hall : (logOf .vanishing [1, 201]).length = 1120 ∧ ((logOf .vanishing [1, 201]).drop 1024).all (· == 0) = true ∧
      (logOf .vanishing [1, 201]).getD 0 0 ≠ 0 ∧ (logOf .vanishing [1, 201]).getD 568 0 ≠ 0 ∧
      WalHeader.decode ((logOf .vanishing [1, 201]).take WAL_HEADER_LEN) = some (generation 512 7) ∧
      frameAt Runtime.vanishing.xxh (dropSector 1 (logOf .vanishing [1, 201])) (generation 512 7)
        (WAL_HEADER_LEN + 0 * (generation 512 7).slot) = none ∧
      frameAt Runtime.vanishing.xxh (dropSector 1 (logOf .vanishing [1, 201])) (generation 512 7)
        (WAL_HEADER_LEN + 1 * (generation 512 7).slot) = none ∧
      logTxns Runtime.vanishing.xxh (logOf .vanishing [1, 201]) = [(576, [(0, 64)]), (1120, [(0, 608)])] := by
    decide +kernel
  rcases hall with ⟨hlen, hlast, hbyte, htrailer, hheader, hdrop₀, hdrop₁, htxns⟩
  have hsynced : (walFile "memory.mind" fs).synced = logOf .vanishing [1, 201] := by
    rw [hlog]
    rfl
  have hsafe := (reset_window_safe_iff hwin (by rw [hsynced, hlen]; norm_num) fun img himg => by
    rw [hlog] at himg ⊢
    exact ideal_of_two hlen hlast hbyte hheader hdrop₀ hdrop₁ himg).mpr
  rw [hsynced] at hsafe
  have hinseparable := inseparable_of_two htxns hlast htrailer
  exact ⟨fs, c, hwin, by rw [hsynced, htxns]; rfl, hsynced ▸ hinseparable, hsafe hinseparable⟩

end EmbedMind
