import EmbedMind.Storage.Wal

/-!
# What a log says

The scan as a function of the bytes of a log. `LogOk` is the invariant of a log
whose transactions are all acknowledged: whatever is appended to it, a scan gets
through it and resumes behind it with the map of its committed images.
`LogOk.txns_torn` is the recovery argument: behind such a log, slots that hold either a
frame of the transaction in flight or nothing valid give back the old map or, if
the whole transaction is there, the new one.
-/

namespace EmbedMind

open Lib Lib.Assoc

/-- The frame loop over the bytes of a log. -/
def scanFrom (H : Xxh3) (img : Bytes) (header : WalHeader) (fuel offset : Nat)
    (committed pending : List (Nat × Nat)) (pendingTxn : Option Nat) : List (Nat × Nat) :=
  Id.run (scanFrames H (fun off len => pure ((img.drop off).take len)) img.length header fuel
    offset committed pending pendingTxn)

/-- The frame header at `off`, if the slot lies within the log and validates. -/
def frameAt (H : Xxh3) (img : Bytes) (header : WalHeader) (off : Nat) : Option WalFrameHeader :=
  if img.length < off + (WAL_FRAME_HEADER_LEN + header.pageSize) then none
  else WalFrameHeader.decode H ((img.drop off).take WAL_FRAME_HEADER_LEN)
    ((img.drop (off + WAL_FRAME_HEADER_LEN)).take header.pageSize) header.salt

/-- The transactions that a scan of the slots from `off` on commits: for each one the
offset behind its last frame, and the offsets of its images. -/
def scanTxns (H : Xxh3) (img : Bytes) (header : WalHeader) :
    Nat → Nat → List (Nat × Nat) → Option Nat → List (Nat × List (Nat × Nat))
  | 0, _, _, _ => []
  | fuel + 1, off, pending, pendingTxn =>
      match frameAt H img header off with
      | none => []
      | some frame =>
          if pendingTxn.any (fun t => t != frame.txnId) then []
          else
            let frameEnd := off + (WAL_FRAME_HEADER_LEN + header.pageSize)
            let pending := pending ++ [(frame.pageNo, off + WAL_FRAME_HEADER_LEN)]
            if frame.commit then (frameEnd, pending) :: scanTxns H img header fuel frameEnd [] none
            else scanTxns H img header fuel frameEnd pending (some frame.txnId)

/-- The transactions that a log commits. -/
def logTxns (H : Xxh3) (log : Bytes) : List (Nat × List (Nat × Nat)) :=
  if log.length < WAL_HEADER_LEN then []
  else
    match WalHeader.decode (log.take WAL_HEADER_LEN) with
    | none => []
    | some header => scanTxns H log header log.length WAL_HEADER_LEN [] none

/-- The map after some transactions. -/
def replay (index : List (Nat × Nat)) (txns : List (Nat × List (Nat × Nat))) : List (Nat × Nat) :=
  txns.foldl (fun m txn => extend m txn.2) index

/-- The bytes of one transaction's frames. -/
def txnBytes (H : Xxh3) (txnId salt : Nat) : List (Nat × Bytes) → Bytes
  | [] => []
  | page :: rest => Wal.frameBytes H txnId salt rest.isEmpty page ++ txnBytes H txnId salt rest

/-- The image offsets of one transaction's frames, starting at `off`. -/
def txnOffsets (pageSize : Nat) : Nat → List (Nat × Bytes) → List (Nat × Nat)
  | _, [] => []
  | off, page :: rest =>
      (page.1, off + WAL_FRAME_HEADER_LEN) ::
        txnOffsets pageSize (off + (WAL_FRAME_HEADER_LEN + pageSize)) rest

/-- Pages as `append_txn` takes them. -/
def PagesOk (pageSize : Nat) (pages : List (Nat × Bytes)) : Prop :=
  ∀ page ∈ pages, page.1 < 2 ^ 64 ∧ page.2.length = pageSize

section Scan

variable {H : Xxh3} {img : Bytes} {header : WalHeader} {fuel off : Nat}
  {committed pending : List (Nat × Nat)} {pendingTxn : Option Nat}

/-- No valid frame: the scan ends here. -/
theorem scanFrom_stop (h : frameAt H img header off = none) :
    scanFrom H img header fuel off committed pending pendingTxn = committed := by
  unfold scanFrom
  cases fuel with
  | zero => rfl
  | succ fuel =>
      unfold frameAt at h
      simp only [scanFrames]
      split_ifs at h ⊢ with hlen
      · rfl
      · simp only [pure_bind, h]
        rfl

/-- A valid frame of the running transaction: the scan takes it and goes on. -/
theorem scanFrom_step {frame : WalFrameHeader} (h : frameAt H img header off = some frame)
    (htxn : ∀ t ∈ pendingTxn, t = frame.txnId) :
    scanFrom H img header (fuel + 1) off committed pending pendingTxn =
      if frame.commit then
        scanFrom H img header fuel (off + (WAL_FRAME_HEADER_LEN + header.pageSize))
          (extend committed (pending ++ [(frame.pageNo, off + WAL_FRAME_HEADER_LEN)])) [] none
      else
        scanFrom H img header fuel (off + (WAL_FRAME_HEADER_LEN + header.pageSize)) committed
          (pending ++ [(frame.pageNo, off + WAL_FRAME_HEADER_LEN)]) (some frame.txnId) := by
  unfold frameAt at h
  split_ifs at h with hlen
  have hsame : pendingTxn.any (fun t => t != frame.txnId) = false := by
    cases pendingTxn with
    | none => rfl
    | some t => simp [htxn t rfl]
  unfold scanFrom
  simp only [scanFrames]
  rw [if_neg hlen]
  simp only [pure_bind, h, hsame, Bool.false_eq_true, if_false]
  split <;> rfl

/-- A frame of another transaction ends the scan. -/
theorem scanFrom_other {frame : WalFrameHeader} (h : frameAt H img header off = some frame)
    (htxn : ¬ ∀ t ∈ pendingTxn, t = frame.txnId) :
    scanFrom H img header fuel off committed pending pendingTxn = committed := by
  cases pendingTxn with
  | none => exact absurd (fun t ht => by cases ht) htxn
  | some t =>
      have hne : t ≠ frame.txnId := fun h => htxn fun t' ht' => by cases ht'; exact h
      cases fuel with
      | zero => rfl
      | succ fuel =>
          unfold frameAt at h
          split_ifs at h with hlen
          unfold scanFrom
          simp only [scanFrames]
          rw [if_neg hlen]
          simp [h, hne]

/-- A scan is the replay of the transactions it commits. -/
theorem scanFrom_eq_replay : scanFrom H img header fuel off committed pending pendingTxn =
    replay committed (scanTxns H img header fuel off pending pendingTxn) := by
  induction fuel generalizing off committed pending pendingTxn with
  | zero => rfl
  | succ fuel ih =>
      unfold scanTxns
      cases hat : frameAt H img header off with
      | none =>
          rw [scanFrom_stop hat]
          rfl
      | some frame =>
          dsimp only
          by_cases htxn : ∀ t ∈ pendingTxn, t = frame.txnId
          · have hsame : pendingTxn.any (fun t => t != frame.txnId) = false := by
              cases pendingTxn with
              | none => rfl
              | some t => simp [htxn t rfl]
            rw [scanFrom_step hat htxn, hsame, if_neg Bool.false_ne_true]
            split
            · rw [ih]
              rfl
            · exact ih
          · rw [scanFrom_other hat htxn, if_pos]
            · rfl
            · cases pendingTxn with
              | none => exact absurd (fun t ht => by cases ht) htxn
              | some t =>
                  have hne : t ≠ frame.txnId := fun h => htxn fun t' ht' => by cases ht'; exact h
                  simp [hne]

/-- The scan ends where no frame stands. -/
theorem scanTxns_stop (h : frameAt H img header off = none) :
    scanTxns H img header fuel off pending pendingTxn = [] := by
  cases fuel with
  | zero => rfl
  | succ fuel =>
      unfold scanTxns
      rw [h]

/-- A valid frame of the running transaction. -/
theorem scanTxns_step {frame : WalFrameHeader} (h : frameAt H img header off = some frame)
    (htxn : ∀ t ∈ pendingTxn, t = frame.txnId) :
    scanTxns H img header (fuel + 1) off pending pendingTxn =
      if frame.commit then
        (off + (WAL_FRAME_HEADER_LEN + header.pageSize),
          pending ++ [(frame.pageNo, off + WAL_FRAME_HEADER_LEN)]) ::
          scanTxns H img header fuel (off + (WAL_FRAME_HEADER_LEN + header.pageSize)) [] none
      else
        scanTxns H img header fuel (off + (WAL_FRAME_HEADER_LEN + header.pageSize))
          (pending ++ [(frame.pageNo, off + WAL_FRAME_HEADER_LEN)]) (some frame.txnId) := by
  have hsame : pendingTxn.any (fun t => t != frame.txnId) = false := by
    cases pendingTxn with
    | none => rfl
    | some t => simp [htxn t rfl]
  rw [scanTxns, h]
  dsimp only
  rw [hsame, if_neg Bool.false_ne_true]

/-- A frame as it was written validates. -/
theorem frameAt_frameBytes {txnId : Nat} {commit : Bool} {page : Nat × Bytes}
    (hpage : page.1 < 2 ^ 64) (hlen : page.2.length = header.pageSize) (htxn : txnId < 2 ^ 64)
    (h : HasAt img off (Wal.frameBytes H txnId header.salt commit page)) :
    frameAt H img header off = some { pageNo := page.1, txnId, commit } := by
  obtain ⟨h1, h2⟩ := hasAt_append.mp h
  have h1' := (slice_eq_some.mp (h1.slice (WalFrameHeader.encode_length H _ _ _))).2
  rw [WalFrameHeader.encode_length] at h2
  have h2' := slice_eq_some.mp (h2.slice hlen)
  unfold frameAt
  rw [if_neg (by omega), h1', h2'.2]
  exact WalFrameHeader.decode_encode H hpage htxn _ _

end Scan

/-- The bytes of a frame. -/
@[simp] theorem frameBytes_length {H : Xxh3} {txnId salt : Nat} {commit : Bool}
    {page : Nat × Bytes} :
    (Wal.frameBytes H txnId salt commit page).length = WAL_FRAME_HEADER_LEN + page.2.length := by
  simp [Wal.frameBytes]

/-- The bytes of a transaction. -/
theorem txnBytes_length {H : Xxh3} {txnId salt ps : Nat} {pages : List (Nat × Bytes)}
    (h : PagesOk ps pages) :
    (txnBytes H txnId salt pages).length = pages.length * (WAL_FRAME_HEADER_LEN + ps) := by
  induction pages with
  | nil => simp [txnBytes]
  | cons page rest ih =>
      have hrest : PagesOk ps rest := fun q hq => h q (List.mem_cons_of_mem _ hq)
      simp only [txnBytes, List.length_append, frameBytes_length, ih hrest, List.length_cons,
        (h page List.mem_cons_self).2]
      ring

section Txns

variable {H : Xxh3} {img : Bytes} {header : WalHeader} {txnId : Nat}

/-- A whole transaction: the scan takes all of its frames and commits them. -/
theorem scanTxns_txn (header : WalHeader) (htxn : txnId < 2 ^ 64) (hps : 0 < header.pageSize)
    {pages : List (Nat × Bytes)} (hne : pages ≠ [])
    (hpages : PagesOk header.pageSize pages) {off : Nat} (fuel : Nat)
    (pending : List (Nat × Nat)) (pendingTxn : Option Nat) (hrun : ∀ t ∈ pendingTxn, t = txnId)
    (h : HasAt img off (txnBytes H txnId header.salt pages)) (hfuel : img.length ≤ off + fuel) :
    ∃ fuel', img.length ≤ off + (txnBytes H txnId header.salt pages).length + fuel' ∧
      scanTxns H img header fuel off pending pendingTxn =
        (off + (txnBytes H txnId header.salt pages).length,
          pending ++ txnOffsets header.pageSize off pages) ::
          scanTxns H img header fuel' (off + (txnBytes H txnId header.salt pages).length) [] none := by
  induction pages generalizing off fuel pending pendingTxn with
  | nil => exact absurd rfl hne
  | cons page rest ih =>
      have hrest : PagesOk header.pageSize rest := fun q hq => hpages q (List.mem_cons_of_mem _ hq)
      obtain ⟨hno, hlen⟩ := hpages page List.mem_cons_self
      obtain ⟨hframe, htail⟩ := hasAt_append.mp h
      -- the first frame is the one that was written
      have hat := frameAt_frameBytes hno hlen htxn hframe
      rw [frameBytes_length, hlen] at htail
      have hle := htail.le
      obtain ⟨fuel, rfl⟩ : ∃ n, fuel = n + 1 := Nat.exists_eq_add_one.mpr (by omega)
      rw [scanTxns_step hat hrun]
      cases rest with
      | nil =>
          simp only [List.isEmpty_nil, if_true, txnBytes, List.append_nil, frameBytes_length, hlen,
            txnOffsets]
          exact ⟨fuel, by omega, rfl⟩
      | cons q rest =>
          simp only [List.isEmpty_cons, Bool.false_eq_true, if_false]
          -- the rest of the transaction is read behind it
          obtain ⟨fuel', hfuel', heq⟩ := ih (by simp) hrest fuel
            (pending ++ [(page.1, off + WAL_FRAME_HEADER_LEN)]) (some txnId) (by simp) htail
            (by omega)
          have hlenEq : off + (txnBytes H txnId header.salt (page :: q :: rest)).length =
              off + (WAL_FRAME_HEADER_LEN + header.pageSize) +
                (txnBytes H txnId header.salt (q :: rest)).length := by
            rw [txnBytes, List.length_append, frameBytes_length, hlen]
            omega
          refine ⟨fuel', by omega, ?_⟩
          rw [heq, hlenEq, List.append_assoc]
          rfl

/-- The slots from `off` on hold frames of `pages`, in order, as far as they hold
anything valid. -/
def TornFrom (H : Xxh3) (img : Bytes) (header : WalHeader) (txnId off : Nat)
    (pages : List (Nat × Bytes)) : Prop :=
  ∀ k, frameAt H img header (off + k * (WAL_FRAME_HEADER_LEN + header.pageSize)) ≠ none →
    ∃ page ∈ pages[k]?, HasAt img (off + k * (WAL_FRAME_HEADER_LEN + header.pageSize))
      (Wal.frameBytes H txnId header.salt (k + 1 == pages.length) page)

/-- A torn transaction is torn behind its first frame. -/
theorem TornFrom.tail {off : Nat} {page : Nat × Bytes} {rest : List (Nat × Bytes)}
    (h : TornFrom H img header txnId off (page :: rest)) :
    TornFrom H img header txnId (off + (WAL_FRAME_HEADER_LEN + header.pageSize)) rest := by
  intro k hk
  have hoff : off + (WAL_FRAME_HEADER_LEN + header.pageSize) +
      k * (WAL_FRAME_HEADER_LEN + header.pageSize) =
      off + (k + 1) * (WAL_FRAME_HEADER_LEN + header.pageSize) := by ring
  rw [hoff] at hk ⊢
  obtain ⟨q, hq, hat⟩ := h (k + 1) hk
  have hflag : (k + 1 + 1 == (page :: rest).length) = (k + 1 == rest.length) := by
    simp
  rw [hflag] at hat
  exact ⟨q, hq, hat⟩

/-- A torn transaction: the scan commits nothing, or the whole transaction is there. -/
theorem scanTxns_torn (htxn : txnId < 2 ^ 64) {pages : List (Nat × Bytes)}
    (hpages : PagesOk header.pageSize pages) {off : Nat} (fuel : Nat)
    (pending : List (Nat × Nat)) (pendingTxn : Option Nat)
    (hrun : ∀ t ∈ pendingTxn, t = txnId) (h : TornFrom H img header txnId off pages) :
    scanTxns H img header fuel off pending pendingTxn = [] ∨
      (pages ≠ [] ∧ HasAt img off (txnBytes H txnId header.salt pages) ∧
        scanTxns H img header fuel off pending pendingTxn =
          [(off + (txnBytes H txnId header.salt pages).length,
            pending ++ txnOffsets header.pageSize off pages)]) := by
  induction pages generalizing off fuel pending pendingTxn with
  | nil =>
      refine Or.inl (scanTxns_stop ?_)
      by_contra hne
      obtain ⟨q, hq, _⟩ := h 0 (by simpa using hne)
      simp at hq
  | cons page rest ih =>
      -- a frame that did not survive ends the scan
      by_cases hat : frameAt H img header off = none
      · exact Or.inl (scanTxns_stop hat)
      cases fuel with
      | zero => exact Or.inl rfl
      | succ fuel =>
          have hrest : PagesOk header.pageSize rest :=
            fun q hq => hpages q (List.mem_cons_of_mem _ hq)
          obtain ⟨hno, hlen⟩ := hpages page List.mem_cons_self
          -- one that did is the frame the append wrote, and its flag says whether it is the last
          obtain ⟨q, hq, hframe⟩ := h 0 (by simpa using hat)
          obtain rfl : page = q := by simpa using hq
          have hflag : (0 + 1 == (page :: rest).length) = rest.isEmpty := by
            cases rest <;> simp
          rw [hflag, Nat.zero_mul, Nat.add_zero] at hframe
          rw [scanTxns_step (frameAt_frameBytes hno hlen htxn hframe) hrun]
          cases rest with
          | nil =>
              -- the last frame commits the transaction, and nothing follows it
              refine Or.inr ⟨by simp, by simpa [txnBytes] using hframe, ?_⟩
              simp only [List.isEmpty_nil, if_true, txnOffsets, txnBytes, List.append_nil, frameBytes_length, hlen]
              rw [scanTxns_stop]
              by_contra hne
              obtain ⟨q, hq, _⟩ := h 1 (by simpa using hne)
              simp at hq
          | cons q rest =>
              simp only [List.isEmpty_cons, Bool.false_eq_true, if_false]
              -- otherwise the rest of the append decides
              rcases ih hrest fuel (pending ++ [(page.1, off + WAL_FRAME_HEADER_LEN)])
                (some txnId) (by simp) h.tail with hstop | ⟨_, htail, hall⟩
              · exact Or.inl hstop
              · refine Or.inr ⟨by simp, ?_, ?_⟩
                · rw [txnBytes, hasAt_append, frameBytes_length, hlen]
                  exact ⟨hframe, htail⟩
                · have hend : off + (txnBytes H txnId header.salt (page :: q :: rest)).length =
                      off + (WAL_FRAME_HEADER_LEN + header.pageSize) +
                        (txnBytes H txnId header.salt (q :: rest)).length := by
                    rw [txnBytes, List.length_append, frameBytes_length, hlen]
                    omega
                  rw [hall, hend, List.append_assoc]
                  rfl

/-- The slots of a whole transaction. -/
theorem hasAt_txnBytes (header : WalHeader) {off : Nat} {pages : List (Nat × Bytes)}
    (hpages : PagesOk header.pageSize pages) {bs : Bytes}
    (h : HasAt bs off (txnBytes H txnId header.salt pages)) {k : Nat} (hk : k < pages.length) :
    ∃ page ∈ pages[k]?, HasAt bs (off + k * (WAL_FRAME_HEADER_LEN + header.pageSize))
      (Wal.frameBytes H txnId header.salt (k + 1 == pages.length) page) := by
  induction pages generalizing off k with
  | nil => simp at hk
  | cons page rest ih =>
      have hlen := (hpages page List.mem_cons_self).2
      obtain ⟨hframe, htail⟩ := hasAt_append.mp h
      rw [frameBytes_length, hlen] at htail
      cases k with
      | zero =>
          have hflag : (0 + 1 == (page :: rest).length) = rest.isEmpty := by
            cases rest <;> simp
          rw [hflag, Nat.zero_mul, Nat.add_zero]
          exact ⟨page, rfl, hframe⟩
      | succ k =>
          obtain ⟨q, hq, hat⟩ := ih (fun q hq => hpages q (List.mem_cons_of_mem _ hq)) htail
            (k := k) (by simpa using hk)
          have hflag : (k + 1 + 1 == (page :: rest).length) = (k + 1 == rest.length) := by
            simp
          have hoff : off + (k + 1) * (WAL_FRAME_HEADER_LEN + header.pageSize) =
              off + (WAL_FRAME_HEADER_LEN + header.pageSize) +
                k * (WAL_FRAME_HEADER_LEN + header.pageSize) := by ring
          rw [hflag, hoff]
          exact ⟨q, hq, hat⟩

end Txns

/-- The index of a transaction has its page numbers. -/
theorem txnOffsets_keys (ps off : Nat) (pages : List (Nat × Bytes)) :
    (txnOffsets ps off pages).map Prod.fst = pages.map Prod.fst := by
  induction pages generalizing off with
  | nil => rfl
  | cons page rest ih => simp [txnOffsets, ih]

/-- The offsets of a transaction point at its images. -/
theorem slice_txnOffsets {H : Xxh3} {txnId salt ps : Nat} {pages : List (Nat × Bytes)}
    (hpages : PagesOk ps pages) {bs : Bytes} {off : Nat}
    (h : HasAt bs off (txnBytes H txnId salt pages)) {e : Nat × Nat}
    (he : e ∈ txnOffsets ps off pages) :
    ∃ image, (e.1, image) ∈ pages ∧ slice bs e.2 ps = some image := by
  induction pages generalizing off with
  | nil => simp [txnOffsets] at he
  | cons page rest ih =>
      have hlen := (hpages page List.mem_cons_self).2
      obtain ⟨hframe, htail⟩ := hasAt_append.mp h
      rw [frameBytes_length, hlen] at htail
      rcases List.mem_cons.mp he with rfl | he
      · obtain ⟨_, himg⟩ := hasAt_append.mp hframe
        rw [WalFrameHeader.encode_length] at himg
        exact ⟨page.2, List.mem_cons_self, himg.slice hlen⟩
      · obtain ⟨image, hmem, hs⟩ := ih (fun q hq => hpages q (List.mem_cons_of_mem _ hq)) htail he
        exact ⟨image, List.mem_cons_of_mem _ hmem, hs⟩

/-! ## Logs of acknowledged transactions -/

/-- The header of a generation. -/
def generation (pageSize salt : Nat) : WalHeader :=
  { formatVersion := FORMAT_VERSION, pageSize, salt }

/-- A log all of whose transactions are acknowledged, with the map of its committed
images: whatever follows it, a scan commits them and resumes behind it. -/
structure LogOk (H : Xxh3) (ps salt : Nat) (log : Bytes) (index : List (Nat × Nat)) : Prop where
  pageSize : pageSizeIsValid ps = true
  salt_lt : salt < 2 ^ 64
  aligned : ∃ k, log.length = WAL_HEADER_LEN + k * (WAL_FRAME_HEADER_LEN + ps)
  header : log.take WAL_HEADER_LEN = (generation ps salt).encode
  index_eq : index = replay [] (logTxns H log)
  resumes : ∀ img fuel, img.take log.length = log → img.length ≤ WAL_HEADER_LEN + fuel →
    ∃ fuel', img.length ≤ log.length + fuel' ∧
      scanTxns H img (generation ps salt) fuel WAL_HEADER_LEN [] none =
        logTxns H log ++ scanTxns H img (generation ps salt) fuel' log.length [] none

section LogOk

variable {H : Xxh3} {ps salt : Nat} {log : Bytes} {index : List (Nat × Nat)}

theorem scanBytes_eq_of (H : Xxh3) (maxVersion : Nat) (bs : Bytes) : scanBytes H maxVersion bs =
    if bs.length < WAL_HEADER_LEN then none
    else (WalHeader.decodeUpTo maxVersion (bs.take WAL_HEADER_LEN)).map fun header =>
      { pageSize := header.pageSize,
        committed := scanFrom H bs header bs.length WAL_HEADER_LEN [] [] none } := by
  unfold scanBytes scanUpTo
  split
  · rfl
  · simp only [pure_bind, List.drop_zero]
    cases WalHeader.decodeUpTo maxVersion (bs.take WAL_HEADER_LEN) <;> rfl

/-- A scan reads the header, then the frames. -/
theorem scanBytes_eq (H : Xxh3) (bs : Bytes) : scanBytes H FORMAT_VERSION bs =
    if bs.length < WAL_HEADER_LEN then none
    else (WalHeader.decode (bs.take WAL_HEADER_LEN)).map fun header =>
      { pageSize := header.pageSize,
        committed := scanFrom H bs header bs.length WAL_HEADER_LEN [] [] none } :=
  scanBytes_eq_of H FORMAT_VERSION bs

/-- The header of a generation is read back. -/
theorem decode_generation (hps : pageSizeIsValid ps = true) (hs : salt < 2 ^ 64) :
    WalHeader.decode (generation ps salt).encode = some (generation ps salt) :=
  WalHeader.decode_encode (by simp [generation, FORMAT_VERSION]) (le_refl _) hps hs

/-- The transactions of a log that starts a generation. -/
theorem logTxns_eq (hps : pageSizeIsValid ps = true) (hs : salt < 2 ^ 64) (hlen : WAL_HEADER_LEN ≤ log.length)
    (hheader : log.take WAL_HEADER_LEN = (generation ps salt).encode) :
    logTxns H log = scanTxns H log (generation ps salt) log.length WAL_HEADER_LEN [] none := by
  unfold logTxns
  rw [if_neg (by omega), hheader, decode_generation hps hs]

/-- Behind the end of a log there is no frame. -/
theorem frameAt_end (header : WalHeader) : frameAt H log header log.length = none := by
  unfold frameAt
  rw [if_pos (by simp only [WAL_FRAME_HEADER_LEN]; omega)]

/-- The committed index is the replay of the transactions. -/
theorem scanBytes_eq_replay {r : RecoveredWal} (h : scanBytes H FORMAT_VERSION log = some r) :
    r.committed = replay [] (logTxns H log) := by
  rw [scanBytes_eq] at h
  unfold logTxns
  split_ifs at h ⊢
  cases hdec : WalHeader.decode (log.take WAL_HEADER_LEN) with
  | none =>
      rw [hdec] at h
      cases h
  | some header =>
      rw [hdec] at h
      cases h
      exact scanFrom_eq_replay

/-- A log without a header has no transaction. -/
theorem logTxns_of_none (h : scanBytes H FORMAT_VERSION log = none) : logTxns H log = [] := by
  rw [scanBytes_eq] at h
  unfold logTxns
  split_ifs at h ⊢
  · rfl
  · rw [Option.map_eq_none_iff] at h
    rw [h]

/-- Replay keeps the index in order. -/
theorem sorted_replay {index : List (Nat × Nat)} (h : Sorted index) (txns : List (Nat × List (Nat × Nat))) :
    Sorted (replay index txns) := by
  induction txns generalizing index with
  | nil => exact h
  | cons txn rest ih => exact ih (sorted_extend h)

/-- The index comes from the transactions. -/
theorem mem_replay {index : List (Nat × Nat)} {txns : List (Nat × List (Nat × Nat))} {e : Nat × Nat}
    (h : e ∈ replay index txns) : e ∈ index ∨ ∃ txn ∈ txns, e ∈ txn.2 := by
  induction txns generalizing index with
  | nil => exact Or.inl h
  | cons txn rest ih =>
      rcases ih h with hin | ⟨txn', htxn', hin⟩
      · rcases mem_extend hin with hold | hnew
        · exact Or.inl hold
        · exact Or.inr ⟨txn, List.mem_cons_self, hnew⟩
      · exact Or.inr ⟨txn', List.mem_cons_of_mem _ htxn', hin⟩

theorem replay_append (index : List (Nat × Nat)) (a b : List (Nat × List (Nat × Nat))) :
    replay index (a ++ b) = replay (replay index a) b := List.foldl_append

/-- A log of a header only has no transaction. -/
theorem logTxns_header (hps : pageSizeIsValid ps = true) (hs : salt < 2 ^ 64) :
    logTxns H (generation ps salt).encode = [] := by
  rw [logTxns_eq hps hs (by simp) (by rw [List.take_of_length_le (by simp)])]
  refine scanTxns_stop ?_
  have h : frameAt H (generation ps salt).encode (generation ps salt) (generation ps salt).encode.length = none :=
    frameAt_end (generation ps salt)
  rwa [WalHeader.encode_length] at h

/-- A log of one header and no frames. -/
theorem logOk_header (hps : pageSizeIsValid ps = true) (hs : salt < 2 ^ 64) :
    LogOk H ps salt (generation ps salt).encode [] := by
  have hnone := logTxns_header (H := H) hps hs
  refine ⟨hps, hs, ⟨0, by simp⟩, by rw [List.take_of_length_le (by simp)], by rw [hnone]; rfl, ?_⟩
  intro img fuel _ hfuel
  rw [WalHeader.encode_length, hnone]
  exact ⟨fuel, hfuel, rfl⟩

/-- The index of a log ascends. -/
theorem LogOk.sorted (h : LogOk H ps salt log index) : Sorted index :=
  h.index_eq ▸ sorted_replay List.Pairwise.nil _

theorem LogOk.ps_pos (h : LogOk H ps salt log index) : 0 < ps := by
  have := (pageSizeIsValid_iff.mp h.pageSize).1
  omega

/-- A log has its header. -/
theorem LogOk.header_le (h : LogOk H ps salt log index) : WAL_HEADER_LEN ≤ log.length := by
  obtain ⟨k, hk⟩ := h.aligned
  omega

/-- A scan gets through the log and a whole transaction behind it. -/
theorem LogOk.resumes_append (h : LogOk H ps salt log index) {txnId : Nat} (htxn : txnId < 2 ^ 64)
    {pages : List (Nat × Bytes)} (hne : pages ≠ []) (hpages : PagesOk ps pages) {img : Bytes} {fuel : Nat}
    (himg : img.take (log ++ txnBytes H txnId salt pages).length = log ++ txnBytes H txnId salt pages)
    (hfuel : img.length ≤ WAL_HEADER_LEN + fuel) :
    ∃ fuel', img.length ≤ (log ++ txnBytes H txnId salt pages).length + fuel' ∧
      scanTxns H img (generation ps salt) fuel WAL_HEADER_LEN [] none =
        logTxns H log ++
          ((log ++ txnBytes H txnId salt pages).length, txnOffsets ps log.length pages) ::
            scanTxns H img (generation ps salt) fuel' (log ++ txnBytes H txnId salt pages).length [] none := by
  rw [List.length_append] at himg ⊢
  have hlog : img.take log.length = log := by
    have := congrArg (List.take log.length) himg
    simpa [List.take_take] using this
  have hlen : log.length + (txnBytes H txnId salt pages).length ≤ img.length := by
    have := congrArg List.length himg
    simp only [List.length_take, List.length_append] at this
    omega
  have hat : HasAt img log.length (txnBytes H txnId salt pages) := by
    refine slice_eq_some.mpr ⟨hlen, ?_⟩
    have hdrop := congrArg (List.drop log.length) himg
    rw [List.drop_take, List.drop_left] at hdrop
    simpa using hdrop
  obtain ⟨fuel₁, hfuel₁, heq₁⟩ := h.resumes img fuel hlog hfuel
  obtain ⟨fuel₂, hfuel₂, heq₂⟩ := scanTxns_txn (generation ps salt) htxn h.ps_pos hne hpages
    fuel₁ [] none (by simp) hat hfuel₁
  exact ⟨fuel₂, hfuel₂, by rw [heq₁]; exact congrArg _ heq₂⟩

/-- The transactions of the log with one more behind it. -/
theorem LogOk.txns_append (h : LogOk H ps salt log index) {txnId : Nat} (htxn : txnId < 2 ^ 64)
    {pages : List (Nat × Bytes)} (hne : pages ≠ []) (hpages : PagesOk ps pages) :
    logTxns H (log ++ txnBytes H txnId salt pages) =
      logTxns H log ++ [((log ++ txnBytes H txnId salt pages).length, txnOffsets ps log.length pages)] := by
  have hle := h.header_le
  have hself : (log ++ txnBytes H txnId salt pages).take (log ++ txnBytes H txnId salt pages).length =
      log ++ txnBytes H txnId salt pages := List.take_length
  obtain ⟨fuel', _, heq⟩ := h.resumes_append htxn hne hpages hself (Nat.le_add_left _ _)
  rw [logTxns_eq h.pageSize h.salt_lt (by rw [List.length_append]; omega)
    (by rw [List.take_append_of_le_length hle, h.header]), heq, scanTxns_stop (frameAt_end _)]

/-- Appending a whole transaction extends the map by its images. -/
theorem LogOk.append (h : LogOk H ps salt log index) {txnId : Nat} (htxn : txnId < 2 ^ 64)
    {pages : List (Nat × Bytes)} (hne : pages ≠ []) (hpages : PagesOk ps pages) :
    LogOk H ps salt (log ++ txnBytes H txnId salt pages)
      (extend index (txnOffsets ps log.length pages)) where
  pageSize := h.pageSize
  salt_lt := h.salt_lt
  aligned := by
    obtain ⟨k, hk⟩ := h.aligned
    refine ⟨k + pages.length, ?_⟩
    rw [List.length_append, txnBytes_length hpages, hk]
    ring
  header := by
    rw [List.take_append_of_le_length h.header_le]
    exact h.header
  index_eq := by
    rw [h.txns_append htxn hne hpages, replay_append, ← h.index_eq]
    rfl
  resumes := by
    intro img fuel himg hfuel
    obtain ⟨fuel', hfuel', heq⟩ := h.resumes_append htxn hne hpages himg hfuel
    refine ⟨fuel', hfuel', ?_⟩
    rw [heq, h.txns_append htxn hne hpages, List.append_assoc]
    rfl

/-- What a scan commits of a surviving image that starts with the log: its transactions,
or these and the whole one in flight. -/
theorem LogOk.txns_torn (h : LogOk H ps salt log index) {txnId : Nat} (htxn : txnId < 2 ^ 64)
    {pages : List (Nat × Bytes)} (hpages : PagesOk ps pages) {img : Bytes}
    (himg : img.take log.length = log)
    (htorn : TornFrom H img (generation ps salt) txnId log.length pages) :
    logTxns H img = logTxns H log ∨
      (HasAt img log.length (txnBytes H txnId salt pages) ∧
        logTxns H img = logTxns H (log ++ txnBytes H txnId salt pages)) := by
  have hlen : log.length ≤ img.length := by
    have := congrArg List.length himg
    simp only [List.length_take] at this
    omega
  have hle := h.header_le
  have hheader : img.take WAL_HEADER_LEN = (generation ps salt).encode := by
    rw [← h.header, ← himg, List.take_take, Nat.min_eq_left hle]
  obtain ⟨fuel, _, heq⟩ := h.resumes img img.length himg (by omega)
  rw [logTxns_eq h.pageSize h.salt_lt (by omega) hheader, heq]
  rcases scanTxns_torn htxn hpages fuel [] none (by simp) htorn with hstop | ⟨hne, hat, hall⟩
  · exact Or.inl (by rw [hstop, List.append_nil])
  · refine Or.inr ⟨hat, ?_⟩
    rw [h.txns_append htxn hne hpages, List.length_append, hall]
    rfl

/-- A scan of an image that starts with the header of a generation. -/
theorem scan_of_header (hps : pageSizeIsValid ps = true) (hs : salt < 2 ^ 64) {img : Bytes}
    (hlen : WAL_HEADER_LEN ≤ img.length) (hheader : img.take WAL_HEADER_LEN = (generation ps salt).encode) :
    scanBytes H FORMAT_VERSION img = some { pageSize := ps, committed := replay [] (logTxns H img) } := by
  rw [scanBytes_eq, if_neg (by omega), hheader, decode_generation hps hs, Option.map_some, scanFrom_eq_replay,
    logTxns_eq hps hs hlen hheader]
  rfl

/-- Scanning a log gives its index. -/
theorem LogOk.scan (h : LogOk H ps salt log index) :
    scanBytes H FORMAT_VERSION log = some { pageSize := ps, committed := index } := by
  rw [scan_of_header h.pageSize h.salt_lt h.header_le h.header, ← h.index_eq]

end LogOk

end EmbedMind
