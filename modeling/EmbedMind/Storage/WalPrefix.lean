import EmbedMind.Storage.Durability

/-!
# The committed part of a damaged log

A generation is written by a sequence of appends on a fresh log. A scan of what is
left of it, cut anywhere or with its tail replaced by bytes that do not validate,
gives back the transactions that lie wholly before the damage.
-/

namespace EmbedMind

open Lib Lib.Assoc

/-! ## Generations -/

/-- The transactions of a generation, with their ids. -/
abbrev Appends := List (Nat × List (Nat × Bytes))

/-- A sequence of `append_txn` calls; the first one that starts a generation draws `newSalt`. -/
def Wal.appendAll (H : Xxh3) (newSalt : UInt64) : Wal → Appends → Io Wal
  | wal, [] => pure wal
  | wal, call :: rest => do
      let (_, wal) ← wal.appendTxn H newSalt call.1 call.2
      appendAll H newSalt wal rest

/-- Appends as `append_txn` documents them: "`pages` must be non-empty and each image
exactly one page long". -/
def AppendsOk (pageSize : Nat) (calls : Appends) : Prop :=
  ∀ call ∈ calls, call.1 < 2 ^ 64 ∧ call.2 ≠ [] ∧ PagesOk pageSize call.2

/-- The frames of a sequence of transactions. -/
def appendsBytes (H : Xxh3) (salt : Nat) (calls : Appends) : Bytes :=
  calls.flatMap fun call => txnBytes H call.1 salt call.2

/-- A generation of a log, as bytes. -/
def generationBytes (H : Xxh3) (pageSize salt : Nat) : Appends → Bytes
  | [] => []
  | calls => (generation pageSize salt).encode ++ appendsBytes H salt calls

/-- For every transaction the offset behind its last frame, and the offsets of its images. -/
def appendsTxns (pageSize : Nat) : Nat → Appends → List (Nat × List (Nat × Nat))
  | _, [] => []
  | off, call :: rest =>
      let txnEnd := off + call.2.length * (WAL_FRAME_HEADER_LEN + pageSize)
      (txnEnd, txnOffsets pageSize off call.2) :: appendsTxns pageSize txnEnd rest

/-- The later-wins map of the transactions that lie wholly in the first `cut` bytes. -/
def intactMap (pageSize cut : Nat) (calls : Appends) : List (Nat × Nat) :=
  replay [] ((appendsTxns pageSize WAL_HEADER_LEN calls).filter fun txn => decide (txn.1 ≤ cut))

/-- No frame slot that reaches behind `cut` validates. -/
def NothingBehind (H : Xxh3) (img : Bytes) (header : WalHeader) (cut : Nat) : Prop :=
  ∀ k, cut < WAL_HEADER_LEN + (k + 1) * (WAL_FRAME_HEADER_LEN + header.pageSize) →
    frameAt H img header (WAL_HEADER_LEN + k * (WAL_FRAME_HEADER_LEN + header.pageSize)) = none

section Written

variable {H : Xxh3} {fs : Fs} {f : Nat} {wal : Wal} {salt : Nat}

/-- The frames of one append and its sync, behind `log`. -/
theorem wpc_framesSync (salt txnId : Nat) (log : Bytes) {sy : Bytes} (hh : fs.handles wal.file = some f)
    (hsy : sy = log ∨ (sy = [] ∧ log = (generation wal.pageSize salt).encode))
    {pages : List (Nat × Bytes)} (hpages : PagesOk wal.pageSize pages) :
    Wpc (do
        let r ← wal.appendFrames H txnId salt log.length pages
        Io.sync wal.file
        pure (r.1, { wal with salt := some salt, len := r.2 }) : Io (List (Nat × Nat) × Wal)).run
      (fs.setFile f { synced := sy, current := log })
      (fun r s => r = .ok (txnOffsets wal.pageSize log.length pages,
          { wal with salt := some salt, len := (log ++ txnBytes H txnId salt pages).length }) ∧
        s = fs.setFile f (File.clean (log ++ txnBytes H txnId salt pages))) (fun _ => True) := by
  have hframes := wpc_appendFrames (H := H) (C := fun _ => True)
    hh hsy (fun _ _ _ => trivial) pages hpages [] (rfl : txnBytes H txnId salt pages = _)
  rw [List.append_nil] at hframes
  refine Io.wpc_seq hframes ?_
  intro a s hs
  rcases hs with ⟨ha, hs⟩
  subst ha hs
  refine Io.wpc_sync (f := f) hh trivial ?_
  refine Io.wpc_pure ⟨rfl, ?_⟩ trivial
  rw [Fs.setFile_setFile]
  simp [File.sync, File.clean]

/-- One append on a healthy file, behind the log of a running generation or as the first
of a new one. -/
theorem run_appendTxn (newSalt : UInt64) (txnId : Nat) {log base : Bytes} (hh : fs.handles wal.file = some f)
    (hfile : fs.files f = File.clean log)
    (hbase : (wal.salt = some salt ∧ wal.len = log.length ∧ base = log) ∨
      (wal.salt = none ∧ log = [] ∧ salt = newSalt.toNat ∧ base = (generation wal.pageSize salt).encode))
    {pages : List (Nat × Bytes)} (hpages : PagesOk wal.pageSize pages) :
    (wal.appendTxn H newSalt txnId pages).run.run fs =
      (fs.setFile f (File.clean (base ++ txnBytes H txnId salt pages)),
        .ok (txnOffsets wal.pageSize base.length pages,
          { wal with salt := some salt, len := (base ++ txnBytes H txnId salt pages).length })) := by
  suffices hrun : Wpc (wal.appendTxn H newSalt txnId pages).run fs
      (fun r s => r = .ok (txnOffsets wal.pageSize base.length pages,
          { wal with salt := some salt, len := (base ++ txnBytes H txnId salt pages).length }) ∧
        s = fs.setFile f (File.clean (base ++ txnBytes H txnId salt pages))) (fun _ => True) by
    exact Prod.ext hrun.1.2 hrun.1.1
  unfold Wal.appendTxn
  rcases hbase with ⟨hsalt, hlen, hbase⟩ | ⟨hsalt, hlog, hnew, hbase⟩
  · subst hbase
    have hself : fs.setFile f { synced := base, current := base } = fs := by
      have hset : fs.setFile f (fs.files f) = fs := by
        cases fs
        simp [Fs.setFile]
      rw [hfile] at hset
      exact hset
    have hframes := wpc_framesSync (H := H) salt txnId base hh (Or.inl rfl) hpages
    rw [hself] at hframes
    rw [hsalt, hlen]
    exact hframes
  · -- the header is written first, at the start of the empty file
    subst hnew hlog hbase
    rw [hsalt]
    refine Io.wpc_writeAt (f := f) hh trivial trivial ?_
    have hwrite : (fs.files f).write 0 (generation wal.pageSize newSalt.toNat).encode =
        { synced := [], current := (generation wal.pageSize newSalt.toNat).encode } := by
      rw [hfile]
      simp only [File.write, File.clean]
      rw [show (0 : Nat) = ([] : Bytes).length from rfl, patch_at_end, List.nil_append]
    rw [show ({ formatVersion := FORMAT_VERSION, pageSize := wal.pageSize, salt := newSalt.toNat } : WalHeader) =
      generation wal.pageSize newSalt.toNat from rfl, hwrite]
    have hlen : (generation wal.pageSize newSalt.toNat).encode.length = WAL_HEADER_LEN :=
      WalHeader.encode_length _
    have hframes := wpc_framesSync (H := H) newSalt.toNat txnId _ hh (Or.inr ⟨rfl, rfl⟩) hpages
    rw [hlen] at hframes
    rw [hlen]
    exact hframes

/-- The first call of a sequence, and the rest behind it. -/
theorem run_appendAll_cons (newSalt : UInt64) {call : Nat × List (Nat × Bytes)} {rest : Appends} {fs' : Fs}
    {offsets : List (Nat × Nat)} {wal' : Wal}
    (h : (wal.appendTxn H newSalt call.1 call.2).run.run fs = (fs', .ok (offsets, wal'))) :
    (wal.appendAll H newSalt (call :: rest)).run.run fs = (wal'.appendAll H newSalt rest).run.run fs' := by
  rw [Wal.appendAll, ExceptT.run_bind]
  show (Prog.bind _ _).run fs = _
  rw [Prog.run_bind, h]

/-- A sequence of appends behind the log of a running generation. -/
theorem run_appendAll_running (newSalt : UInt64) {calls : Appends} {log : Bytes}
    (hh : fs.handles wal.file = some f) (hfile : fs.files f = File.clean log)
    (hsalt : wal.salt = some salt) (hlen : wal.len = log.length) (hcalls : AppendsOk wal.pageSize calls) :
    ((wal.appendAll H newSalt calls).run.run fs).1.files f = File.clean (log ++ appendsBytes H salt calls) ∧
      ∃ wal', ((wal.appendAll H newSalt calls).run.run fs).2 = .ok wal' := by
  induction calls generalizing wal fs log with
  | nil =>
      have hnone : log ++ appendsBytes H salt [] = log := List.append_nil log
      rw [hnone]
      exact ⟨hfile, wal, rfl⟩
  | cons call rest ih =>
      have hpages := (hcalls call List.mem_cons_self).2.2
      have hone := run_appendTxn (H := H) newSalt call.1 hh hfile (Or.inl ⟨hsalt, hlen, rfl⟩) hpages
      have hbytes : log ++ appendsBytes H salt (call :: rest) =
          log ++ txnBytes H call.1 salt call.2 ++ appendsBytes H salt rest := by
        simp [appendsBytes]
      rw [run_appendAll_cons newSalt hone, hbytes]
      have hrest : AppendsOk wal.pageSize rest := fun c hc => hcalls c (List.mem_cons_of_mem _ hc)
      refine ih ?_ ?_ ?_ ?_ ?_
      · exact hh
      · simp
      · rfl
      · rfl
      · exact hrest

/-- The appends of a generation succeed, and leave its bytes. -/
theorem run_appendAll (newSalt : UInt64) {calls : Appends} (hh : fs.handles wal.file = some f)
    (hfile : fs.files f = File.clean []) (hsalt : wal.salt = none) (hcalls : AppendsOk wal.pageSize calls) :
    ((wal.appendAll H newSalt calls).run.run fs).1.files f =
        File.clean (generationBytes H wal.pageSize newSalt.toNat calls) ∧
      ∃ wal', ((wal.appendAll H newSalt calls).run.run fs).2 = .ok wal' := by
  cases calls with
  | nil => exact ⟨hfile, wal, rfl⟩
  | cons call rest =>
      have hpages := (hcalls call List.mem_cons_self).2.2
      have hone := run_appendTxn (H := H) newSalt call.1 hh hfile (Or.inr ⟨hsalt, rfl, rfl, rfl⟩) hpages
      have hbytes : generationBytes H wal.pageSize newSalt.toNat (call :: rest) =
          (generation wal.pageSize newSalt.toNat).encode ++ txnBytes H call.1 newSalt.toNat call.2 ++
            appendsBytes H newSalt.toNat rest := by
        simp [generationBytes, appendsBytes]
      rw [run_appendAll_cons newSalt hone, hbytes]
      have hrest : AppendsOk wal.pageSize rest := fun c hc => hcalls c (List.mem_cons_of_mem _ hc)
      refine run_appendAll_running newSalt ?_ ?_ ?_ ?_ ?_
      · exact hh
      · simp
      · rfl
      · rfl
      · exact hrest

end Written

/-! ## What a scan finds -/

section Cut

variable {H : Xxh3} {ps salt cut : Nat} {img log : Bytes}

/-- What lies wholly before the damage is still there. -/
theorem hasAt_of_take {bs : Bytes} {off : Nat} (himg : img.take cut = log.take cut) (hcut : cut ≤ log.length)
    (h : HasAt log off bs) (hle : off + bs.length ≤ cut) : HasAt img off bs := by
  have hlen : cut ≤ img.length := by
    have heq := congrArg List.length himg
    simp only [List.length_take] at heq
    omega
  have hdrop := (slice_eq_some.mp h).2
  refine slice_eq_some.mpr ⟨by omega, ?_⟩
  have htake : ∀ l : Bytes, ((l.take cut).drop off).take bs.length = (l.drop off).take bs.length := by
    intro l
    rw [List.drop_take, List.take_take, Nat.min_eq_left (by omega)]
  rw [← htake, himg, htake]
  exact hdrop

/-- A transaction that reaches behind the cut is not committed, nor is a part of it. -/
theorem scanTxns_cut {txnId : Nat} (htxn : txnId < 2 ^ 64) {pages : List (Nat × Bytes)}
    (hne : pages ≠ []) (hpages : PagesOk ps pages) {j : Nat} (fuel : Nat)
    (himg : img.take cut = log.take cut) (hcut : cut ≤ log.length)
    (hbehind : NothingBehind H img (generation ps salt) cut)
    (hlog : HasAt log (WAL_HEADER_LEN + j * (WAL_FRAME_HEADER_LEN + ps)) (txnBytes H txnId salt pages))
    (hend : cut < WAL_HEADER_LEN + (j + pages.length) * (WAL_FRAME_HEADER_LEN + ps)) :
    scanTxns H img (generation ps salt) fuel (WAL_HEADER_LEN + j * (WAL_FRAME_HEADER_LEN + ps)) [] none = [] := by
  have hslot : ∀ k, WAL_HEADER_LEN + j * (WAL_FRAME_HEADER_LEN + ps) + k * (WAL_FRAME_HEADER_LEN + ps) =
      WAL_HEADER_LEN + (j + k) * (WAL_FRAME_HEADER_LEN + ps) := by
    intro k
    ring
  have htorn : TornFrom H img (generation ps salt) txnId (WAL_HEADER_LEN + j * (WAL_FRAME_HEADER_LEN + ps)) pages := by
    intro k hk
    have hfit : WAL_HEADER_LEN + (j + k + 1) * (WAL_FRAME_HEADER_LEN + ps) ≤ cut := by
      by_contra hover
      refine hk ?_
      rw [show (generation ps salt).pageSize = ps from rfl, hslot]
      exact hbehind (j + k) (Nat.lt_of_not_le hover)
    have hlt : k < pages.length := by
      by_contra hge
      have hmul := Nat.mul_le_mul_right (WAL_FRAME_HEADER_LEN + ps) (show j + pages.length ≤ j + k + 1 by omega)
      omega
    rcases hasAt_txnBytes (generation ps salt) hpages hlog hlt with ⟨page, hpage, hat⟩
    refine ⟨page, hpage, hasAt_of_take himg hcut hat ?_⟩
    have hlen := (hpages page (List.mem_of_getElem? hpage)).2
    rw [frameBytes_length, hlen, show (generation ps salt).pageSize = ps from rfl, hslot]
    have hsucc : (j + k + 1) * (WAL_FRAME_HEADER_LEN + ps) =
        (j + k) * (WAL_FRAME_HEADER_LEN + ps) + (WAL_FRAME_HEADER_LEN + ps) := by ring
    omega
  rcases scanTxns_torn htxn hpages fuel [] none (by simp) htorn with hstop | ⟨_, hall, _⟩
  · exact hstop
  · -- the last slot of the transaction reaches behind the cut, so it cannot validate
    exfalso
    have hpos : 0 < pages.length := List.length_pos_iff.mpr hne
    rcases hasAt_txnBytes (generation ps salt) hpages hall (Nat.sub_one_lt_of_lt hpos) with ⟨page, hpage, hat⟩
    have hin := hpages page (List.mem_of_getElem? hpage)
    have hsome : frameAt H img (generation ps salt) _ = some _ := frameAt_frameBytes hin.1 hin.2 htxn hat
    rw [show (generation ps salt).pageSize = ps from rfl, hslot] at hsome
    have hnone := hbehind (j + (pages.length - 1))
      (by rwa [show j + (pages.length - 1) + 1 = j + pages.length by omega])
    rw [show (generation ps salt).pageSize = ps from rfl] at hnone
    rw [hnone] at hsome
    cases hsome

/-- Behind a cut no transaction ends before it. -/
theorem appendsTxns_behind {off : Nat} (calls : Appends) (h : cut < off) :
    (appendsTxns ps off calls).filter (fun txn => decide (txn.1 ≤ cut)) = [] := by
  induction calls generalizing off with
  | nil => rfl
  | cons call rest ih =>
      rw [appendsTxns, List.filter_cons_of_neg (by simp; omega)]
      exact ih (by omega)

/-- The scan of what is left commits the transactions that lie wholly before the cut. -/
theorem scanTxns_intact (hps : 0 < ps) {calls : Appends} (hcalls : AppendsOk ps calls) {j : Nat} (fuel : Nat)
    (himg : img.take cut = log.take cut) (hcut : cut ≤ log.length)
    (hbehind : NothingBehind H img (generation ps salt) cut)
    (hlog : HasAt log (WAL_HEADER_LEN + j * (WAL_FRAME_HEADER_LEN + ps)) (appendsBytes H salt calls))
    (hfuel : img.length ≤ WAL_HEADER_LEN + j * (WAL_FRAME_HEADER_LEN + ps) + fuel)
    (hend : log.length = WAL_HEADER_LEN + j * (WAL_FRAME_HEADER_LEN + ps) + (appendsBytes H salt calls).length) :
    scanTxns H img (generation ps salt) fuel (WAL_HEADER_LEN + j * (WAL_FRAME_HEADER_LEN + ps)) [] none =
      (appendsTxns ps (WAL_HEADER_LEN + j * (WAL_FRAME_HEADER_LEN + ps)) calls).filter
        fun txn => decide (txn.1 ≤ cut) := by
  induction calls generalizing j fuel with
  | nil =>
      -- the slot behind the last transaction reaches behind the cut
      refine scanTxns_stop (hbehind j ?_)
      have hsucc : (j + 1) * (WAL_FRAME_HEADER_LEN + ps) =
          j * (WAL_FRAME_HEADER_LEN + ps) + (WAL_FRAME_HEADER_LEN + ps) := by ring
      simp only [appendsBytes, List.flatMap_nil, List.length_nil] at hend
      rw [show (generation ps salt).pageSize = ps from rfl]
      omega
  | cons call rest ih =>
      rcases hcalls call List.mem_cons_self with ⟨htxn, hne, hpages⟩
      have hrest : AppendsOk ps rest := fun c hc => hcalls c (List.mem_cons_of_mem _ hc)
      have hbytes : appendsBytes H salt (call :: rest) = txnBytes H call.1 salt call.2 ++ appendsBytes H salt rest := rfl
      rw [hbytes] at hlog hend
      rcases hasAt_append.mp hlog with ⟨hhead, htail⟩
      have hlen : (txnBytes H call.1 salt call.2).length = _ := txnBytes_length hpages
      have hnext : WAL_HEADER_LEN + j * (WAL_FRAME_HEADER_LEN + ps) + call.2.length * (WAL_FRAME_HEADER_LEN + ps) =
          WAL_HEADER_LEN + (j + call.2.length) * (WAL_FRAME_HEADER_LEN + ps) := by ring
      rw [hlen, hnext] at htail
      rw [List.length_append, hlen] at hend
      rw [appendsTxns, hnext]
      by_cases hfit : WAL_HEADER_LEN + (j + call.2.length) * (WAL_FRAME_HEADER_LEN + ps) ≤ cut
      · have hat := hasAt_of_take himg hcut hhead (by rw [hlen, hnext]; exact hfit)
        rcases scanTxns_txn (generation ps salt) htxn hps hne hpages fuel [] none (by simp) hat hfuel with
          ⟨fuel', hfuel', heq⟩
        rw [show (generation ps salt).salt = salt from rfl, hlen, hnext] at heq hfuel'
        rw [heq, List.filter_cons_of_pos (by simpa using hfit)]
        rw [ih hrest fuel' htail hfuel' (by omega)]
        rfl
      · rw [scanTxns_cut htxn hne hpages fuel himg hcut hbehind hhead (by omega),
          List.filter_cons_of_neg (by simpa using hfit), appendsTxns_behind rest (by omega)]

/-- A log file with the bytes `img` is scanned as `r`, and is left as it is. -/
def Scanned (H : Xxh3) (img : Bytes) (r : Option RecoveredWal) : Prop :=
  ∀ (fs : Fs) (h f : Nat), fs.handles h = some f → (fs.files f).current = img →
    (Wal.scan H h).run.run fs = (fs, .ok r)

/-- Scanning bytes is a scan. -/
theorem scanned_scanBytes (H : Xxh3) (img : Bytes) : Scanned H img (scanBytes H FORMAT_VERSION img) := by
  intro fs h f hh hf
  have hscan : Wpc (Wal.scan H h >>= pure).run fs
      (fun r s => r = .ok (scanBytes H FORMAT_VERSION img) ∧ s = fs) (fun _ => True) :=
    wpc_scan hh hf (Io.wpc_pure ⟨rfl, rfl⟩ trivial)
  rw [bind_pure] at hscan
  exact Prod.ext hscan.1.2 hscan.1.1

/-- A generation behind its intact header. -/
theorem scanBytes_intact {calls : Appends} (hps : pageSizeIsValid ps = true) (hsalt : salt < 2 ^ 64)
    (hcalls : AppendsOk ps calls) (hcut : cut ≤ (generationBytes H ps salt calls).length)
    (himg : img.take cut = (generationBytes H ps salt calls).take cut) (hheader : WAL_HEADER_LEN ≤ cut)
    (hbehind : NothingBehind H img (generation ps salt) cut) :
    scanBytes H FORMAT_VERSION img = some { pageSize := ps, committed := intactMap ps cut calls } := by
  cases calls with
  | nil =>
      simp only [generationBytes, List.length_nil, WAL_HEADER_LEN] at hcut hheader
      omega
  | cons call rest =>
      have hlog : generationBytes H ps salt (call :: rest) =
          (generation ps salt).encode ++ appendsBytes H salt (call :: rest) := rfl
      have hps0 : 0 < ps := by
        have := (pageSizeIsValid_iff.mp hps).1
        omega
      have hlen : cut ≤ img.length := by
        have heq := congrArg List.length himg
        simp only [List.length_take] at heq
        omega
      have hhead : img.take WAL_HEADER_LEN = (generation ps salt).encode := by
        have htake := congrArg (List.take WAL_HEADER_LEN) himg
        rw [List.take_take, List.take_take, Nat.min_eq_left hheader, hlog] at htake
        rw [htake, List.take_append_of_le_length (by simp), List.take_of_length_le (by simp)]
      have hat : HasAt (generationBytes H ps salt (call :: rest)) WAL_HEADER_LEN
          (appendsBytes H salt (call :: rest)) := by
        have hself := hasAt_self (generation ps salt).encode (appendsBytes H salt (call :: rest)) []
        rwa [List.append_nil, WalHeader.encode_length, ← hlog] at hself
      have hscan := scanTxns_intact (j := 0) hps0 hcalls img.length himg hcut hbehind
        (by simpa using hat) (by omega) (by rw [hlog]; simp)
      rw [Nat.zero_mul, Nat.add_zero] at hscan
      rw [scan_of_header hps hsalt (by omega) hhead, logTxns_eq hps hsalt (by omega) hhead, hscan]
      rfl

/-- Nothing validates behind the end of a file. -/
theorem nothingBehind_truncated (header : WalHeader) : NothingBehind H (log.take cut) header cut := by
  intro k hk
  unfold frameAt
  rw [if_pos]
  have hsucc : (k + 1) * (WAL_FRAME_HEADER_LEN + header.pageSize) =
      k * (WAL_FRAME_HEADER_LEN + header.pageSize) + (WAL_FRAME_HEADER_LEN + header.pageSize) := by ring
  rw [List.length_take]
  omega

end Cut

/-- What a scan finds of a generation that any sequence of appends wrote on a healthy, empty
file. The later-wins map of exactly the transactions that lie wholly before the damage, if
the header does. When the header is cut or is no header any more there is no log; when it
decodes, nothing is committed, unless it now names another salt or page size and the first
slot validates under these. -/
theorem scan_finds_intact (H : Xxh3) {fs : Fs} {f : Nat} {wal : Wal} (newSalt : UInt64) {calls : Appends}
    (hh : fs.handles wal.file = some f) (hempty : fs.files f = File.clean []) (hfresh : wal.salt = none)
    (hps : pageSizeIsValid wal.pageSize = true) (hcalls : AppendsOk wal.pageSize calls) :
    ∃ wal', ((wal.appendAll H newSalt calls).run.run fs).2 = .ok wal' ∧
      ∀ log, log = (((wal.appendAll H newSalt calls).run.run fs).1.files f).current →
        ∀ cut ≤ log.length,
          Scanned H (log.take cut) (if cut < WAL_HEADER_LEN then none
            else some { pageSize := wal.pageSize, committed := intactMap wal.pageSize cut calls }) ∧
          ∀ img : Bytes, img.take cut = log.take cut →
            NothingBehind H img (generation wal.pageSize newSalt.toNat) cut →
            (WAL_HEADER_LEN ≤ cut →
              Scanned H img (some { pageSize := wal.pageSize, committed := intactMap wal.pageSize cut calls })) ∧
            (cut < WAL_HEADER_LEN →
              (img.length < WAL_HEADER_LEN ∨ WalHeader.decode (img.take WAL_HEADER_LEN) = none →
                Scanned H img none) ∧
              ∀ header, WAL_HEADER_LEN ≤ img.length →
                WalHeader.decode (img.take WAL_HEADER_LEN) = some header →
                (header.salt = newSalt.toNat ∧ header.pageSize = wal.pageSize ∨
                  frameAt H img header WAL_HEADER_LEN = none) →
                Scanned H img (some { pageSize := header.pageSize, committed := [] })) := by
  rcases run_appendAll (H := H) newSalt hh hempty hfresh hcalls with ⟨hbytes, wal', hok⟩
  refine ⟨wal', hok, ?_⟩
  intro log hlog cut hcut
  rw [hbytes] at hlog
  have hlog' : log = generationBytes H wal.pageSize newSalt.toNat calls := hlog
  subst hlog'
  -- the prefix itself, as a file
  constructor
  · split
    · rename_i hshort
      have hscan := scanned_scanBytes H ((generationBytes H wal.pageSize newSalt.toNat calls).take cut)
      rwa [scanBytes_eq, if_pos (by rw [List.length_take]; omega)] at hscan
    · rename_i hlong
      have hscan := scanned_scanBytes H ((generationBytes H wal.pageSize newSalt.toNat calls).take cut)
      rwa [scanBytes_intact hps newSalt.toNat_lt hcalls hcut (by rw [List.take_take, Nat.min_self])
        (Nat.le_of_not_lt hlong) (nothingBehind_truncated _)] at hscan
  -- any image behind which no frame follows
  · intro img himg hbehind
    have hscan := scanned_scanBytes H img
    constructor
    · intro hheader
      rwa [scanBytes_intact hps newSalt.toNat_lt hcalls hcut himg hheader hbehind] at hscan
    · intro hheader
      constructor
      · intro hbad
        rw [scanBytes_eq] at hscan
        rcases hbad with hshort | hdec
        · rwa [if_pos hshort] at hscan
        · split at hscan
          · exact hscan
          · rwa [hdec] at hscan
      -- a header of another generation: no frame was written under it
      · intro header hlen hdec hunder
        have hnone : frameAt H img header WAL_HEADER_LEN = none := by
          rcases hunder with ⟨hs, hp⟩ | hnone
          · have hfirst := hbehind 0 (by omega)
            rw [Nat.zero_mul, Nat.add_zero] at hfirst
            unfold frameAt at hfirst ⊢
            rw [hs, hp]
            exact hfirst
          · exact hnone
        rwa [scanBytes_eq, if_neg (by omega), hdec, Option.map_some, scanFrom_stop hnone] at hscan

section Example

/-- A hash that shows nothing but its seed. -/
def seedHash : Xxh3 := { xxh3_64 := fun _ => 0, withSeed := fun salt _ => UInt64.ofNat salt }

/-- A file system with one open, empty file. -/
def emptyLogFile : Fs := { Fs.empty with files := fun _ => File.clean [], handles := fun _ => some 0 }

def newLog : Wal := { file := 0, pageSize := 512 }

def zeroImage : Bytes := List.replicate 512 0

/-- Two transactions, of two pages and of one page. -/
def twoAppends : Appends := [(7, [(1, zeroImage), (0, zeroImage)]), (8, [(0, zeroImage)])]

/-- A log of another generation. -/
def otherGeneration : Bytes :=
  (generation 512 2).encode ++ txnBytes seedHash 9 2 [(5, zeroImage)]

theorem pagesOk_zeroImage {pages : List (Nat × Bytes)} (h : ∀ page ∈ pages, page.1 < 2 ^ 64 ∧ page.2 = zeroImage) :
    PagesOk 512 pages := by
  intro page hpage
  rw [(h page hpage).2]
  exact ⟨(h page hpage).1, List.length_replicate⟩

/-- The two appends of the example can be logged. -/
theorem appendsOk_twoAppends : AppendsOk 512 twoAppends := by
  intro call hcall
  simp only [twoAppends, List.mem_cons, List.not_mem_nil, or_false] at hcall
  rcases hcall with hcall | hcall
  all_goals
    subst hcall
    exact ⟨by norm_num, by simp, pagesOk_zeroImage (by simp)⟩

/-- The log of two transactions is cut within the frame of the second one, and ten bytes
follow that are no frame: the first transaction is found whole. -/
theorem scan_finds_intact_two_transactions :
    ∃ wal', ((newLog.appendAll seedHash 1 twoAppends).run.run emptyLogFile).2 = .ok wal' ∧
      ∀ log, log = (((newLog.appendAll seedHash 1 twoAppends).run.run emptyLogFile).1.files 0).current →
        Scanned seedHash (log.take 1200 ++ List.replicate 10 0)
          (some { pageSize := 512, committed := [(0, 608), (1, 64)] }) := by
  rcases @scan_finds_intact seedHash emptyLogFile 0 newLog 1 twoAppends rfl rfl rfl (by decide)
    appendsOk_twoAppends with ⟨wal', hok, hscan⟩
  refine ⟨wal', hok, ?_⟩
  intro log hlog
  have hbytes := (@run_appendAll seedHash emptyLogFile 0 newLog 1 twoAppends rfl rfl rfl appendsOk_twoAppends).1
  have hlen : log.length = 1664 := by
    rw [hlog, hbytes]
    have hpages := fun call hcall => (appendsOk_twoAppends call hcall).2.2
    simp only [twoAppends, List.mem_cons, List.not_mem_nil, or_false, forall_eq_or_imp, forall_eq] at hpages
    simp only [File.clean, generationBytes, twoAppends, appendsBytes, List.flatMap_cons, List.flatMap_nil,
      List.length_append, WalHeader.encode_length, List.append_nil]
    rw [txnBytes_length hpages.1, txnBytes_length hpages.2]
    rfl
  have hcut : (log.take 1200).length = 1200 := by
    rw [List.length_take, hlen]
    rfl
  have himg : (log.take 1200 ++ List.replicate 10 0).take 1200 = log.take 1200 := by
    rw [List.take_append_of_le_length (by omega), List.take_take, Nat.min_self]
  refine ((hscan log hlog 1200 (by omega)).2 _ himg ?_).1 (by decide)
  intro k hk
  unfold frameAt
  rw [if_pos]
  simp only [generation, newLog, WAL_HEADER_LEN, WAL_FRAME_HEADER_LEN] at hk ⊢
  rw [List.length_append, hcut, List.length_replicate]
  omega

/-- The header of the log is damaged from its salt on, and what stands there now is the rest
of another generation: no frame validates under the salt of the log, and the scan gives back
the transaction of the other one. -/
theorem scan_replaced_header :
    ∃ log, log = (((newLog.appendAll seedHash 1 twoAppends).run.run emptyLogFile).1.files 0).current ∧
      otherGeneration.take 16 = log.take 16 ∧ 16 < WAL_HEADER_LEN ∧
      NothingBehind seedHash otherGeneration (generation 512 1) 16 ∧
      Scanned seedHash otherGeneration (some { pageSize := 512, committed := [(5, 64)] }) := by
  refine ⟨_, rfl, ?_, by decide, ?_, ?_⟩
  case refine_1 =>
    rw [(@run_appendAll seedHash emptyLogFile 0 newLog 1 twoAppends rfl rfl rfl appendsOk_twoAppends).1]
    simp only [File.clean, generationBytes, twoAppends, otherGeneration]
    rw [List.take_append_of_le_length (by simp [WAL_HEADER_LEN]),
      List.take_append_of_le_length (by simp [WAL_HEADER_LEN])]
    decide +kernel
  case refine_2 =>
    intro k _
    have hlen : otherGeneration.length = 576 := by
      have hpages : PagesOk 512 [(5, zeroImage)] := pagesOk_zeroImage (by simp)
      rw [otherGeneration, List.length_append, WalHeader.encode_length, txnBytes_length hpages]
      rfl
    cases k with
    | zero => decide +kernel
    | succ k =>
        unfold frameAt
        rw [if_pos]
        simp only [generation, WAL_HEADER_LEN, WAL_FRAME_HEADER_LEN]
        rw [hlen]
        omega
  case refine_3 =>
    have hpages : PagesOk 512 [(5, zeroImage)] := pagesOk_zeroImage (by simp)
    have hlog := (@logOk_header seedHash 512 2 (by decide) (by norm_num)).append
      (show 9 < 2 ^ 64 by norm_num) (by simp) hpages
    have hscan := scanned_scanBytes seedHash otherGeneration
    rwa [otherGeneration, hlog.scan] at hscan

end Example

end EmbedMind
