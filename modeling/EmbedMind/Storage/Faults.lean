import EmbedMind.Lib.Faults
import EmbedMind.Storage.History

/-!
# Calls that fail

`Fs.fails` is what a `Vfs` call may do instead of completing: it returns an error, and a
write has then applied any part of its bytes, a truncation or a sync all or nothing.
The storage code stops at the first failure (`Prog.FailFast`), so a failed commit or
checkpoint leaves the files in the middle of the call (`Midway`), with one write applied
byte by byte (`Blends`) where a power failure applies it sector by sector.
`Midway.main_blended` and `Midway.wal_blended` say that this is recoverable too.

Without a power failure only what the process sees of a file matters: `Fs.settled`
forgets what is durable, and no program can tell the two file systems apart.
-/

namespace EmbedMind

open Lib Lib.Assoc

/-! ## What a failed call leaves -/

/-- Every byte of `img` is that of `a` or that of `b` (zero past the end of a file), and
`img` is between the two in length. -/
def Blends (a b img : Bytes) : Prop :=
  min a.length b.length ≤ img.length ∧ img.length ≤ max a.length b.length ∧
  ∀ i, i < img.length → img.getD i 0 = a.getD i 0 ∨ img.getD i 0 = b.getD i 0

/-- A write of `buf` at `off` that has applied any part of its bytes, with ideal checksums. -/
def PartlyWritten (H : Xxh3) (current : Bytes) (off : Nat) (buf img : Bytes) : Prop :=
  Blends current (patch current off buf) img ∧
    IdealChecksums H { synced := current, current, inFlight := some (off, buf) } img

namespace Fs

/-- What a call that returns an error may have done. -/
def fails (R : Runtime) (fs : Fs) : (o : VfsOp) → Fs → o.Res → Prop
  | .openFile _ _, fs', r => (∃ e, r = Except.error e) ∧ fs' = fs
  | .delete _, fs', r => (∃ e, r = Except.error e) ∧ fs' = fs
  | .fileExists _, _, _ => False
  | .rename _ _, fs', r => (∃ e, r = Except.error e) ∧ fs' = fs
  | .readAt _ _ _, fs', r => (∃ e, r = Except.error e) ∧ fs' = fs
  | .writeAt h off buf, fs', r => (∃ e, r = Except.error e) ∧
      ∃ f img, fs.handles h = some f ∧ PartlyWritten R.xxh (fs.files f).current off buf img ∧
        fs' = fs.setFile f { fs.files f with current := img }
  | .sync h, fs', r => (∃ e, r = Except.error e) ∧ (fs' = fs ∨ fs' = (fs.exec (.sync h)).1)
  | .truncate h len, fs', r =>
      (∃ e, r = Except.error e) ∧ (fs' = fs ∨ fs' = (fs.exec (.truncate h len)).1)
  | .len _, fs', r => (∃ e, r = Except.error e) ∧ fs' = fs
  | .tryLockExclusive _, fs', r => (∃ e, r = Except.error e) ∧ fs' = fs
  | .close _, _, _ => False

/-- A call that fails and does nothing else. -/
def refuse (fs : Fs) : (o : VfsOp) → Option (Fs × o.Res)
  | .readAt _ _ _ => some (fs, .error (.other "device error"))
  | .sync _ => some (fs, .error (.other "device error"))
  | .truncate _ _ => some (fs, .error (.other "device error"))
  | _ => none

theorem fails_of_refuse (R : Runtime) (fs : Fs) (o : VfsOp) (x : Fs × o.Res) (h : fs.refuse o = some x) :
    fs.fails R o x.1 x.2 := by
  cases o with
  | readAt _ _ _ =>
      cases h
      exact ⟨⟨_, rfl⟩, rfl⟩
  | sync _ =>
      cases h
      exact ⟨⟨_, rfl⟩, Or.inl rfl⟩
  | truncate _ _ =>
      cases h
      exact ⟨⟨_, rfl⟩, Or.inl rfl⟩
  | _ => cases h

/-! ## What the process sees -/

/-- The file system with every file durable as the process sees it. -/
def settled (fs : Fs) : Fs := { fs with files := fun f => File.clean (fs.files f).current }

@[simp] theorem settled_names (fs : Fs) : fs.settled.names = fs.names := rfl

@[simp] theorem settled_handles (fs : Fs) : fs.settled.handles = fs.handles := rfl

@[simp] theorem settled_locks (fs : Fs) : fs.settled.locks = fs.locks := rfl

@[simp] theorem settled_files (fs : Fs) (f : Nat) :
    fs.settled.files f = File.clean (fs.files f).current := rfl

@[simp] theorem settled_settled (fs : Fs) : fs.settled.settled = fs.settled := rfl

/-- Settling after a change of one file. -/
theorem settled_setFile (fs : Fs) (f : Nat) (file : File) :
    (fs.setFile f file).settled = fs.settled.setFile f (File.clean file.current) := by
  unfold settled setFile
  congr 1
  funext g
  by_cases hg : g = f
  · subst hg
    simp
  · simp [hg]

/-- Settling after a new file. -/
theorem settled_addFile (fs : Fs) (path : Path) : (fs.addFile path).settled = fs.settled.addFile path := by
  unfold settled addFile
  congr 1
  funext g
  by_cases hg : g = fs.nextFile
  · subst hg
    simp [File.clean]
  · simp [hg]

/-- The process sees the same. -/
def Alike (fs fs' : Fs) : Prop := fs.settled = fs'.settled

theorem alike_settled (fs : Fs) : fs.Alike fs.settled := rfl

theorem Alike.current {fs fs' : Fs} (h : fs.Alike fs') (f : Nat) :
    (fs.files f).current = (fs'.files f).current := congrArg (fun s => (s.files f).current) h

theorem Alike.handles {fs fs' : Fs} (h : fs.Alike fs') : fs.handles = fs'.handles :=
  congrArg (fun s => s.handles) h

/-- A call goes by what the process sees. -/
theorem exec_settled (fs : Fs) (o : VfsOp) :
    (fs.exec o).2 = (fs.settled.exec o).2 ∧ (fs.exec o).1.settled = (fs.settled.exec o).1.settled := by
  cases o with
  | openFile path mode =>
      simp only [exec, settled_names]
      cases fs.names path <;> cases mode <;> refine ⟨rfl, ?_⟩
      · rfl
      · show (fs.addFile path).settled.addHandle _ = (fs.settled.addFile path).settled.addHandle _
        rw [settled_addFile, settled_addFile, settled_settled]
        rfl
      · show (fs.addFile path).settled.addHandle _ = (fs.settled.addFile path).settled.addHandle _
        rw [settled_addFile, settled_addFile, settled_settled]
        rfl
      · rfl
      · rfl
      · rfl
  | delete path =>
      simp only [exec, settled_names]
      cases fs.names path <;> exact ⟨rfl, rfl⟩
  | fileExists path => exact ⟨rfl, rfl⟩
  | rename source target =>
      simp only [exec, settled_names]
      cases fs.names source <;> exact ⟨rfl, rfl⟩
  | readAt h off len =>
      simp only [exec, settled_handles]
      cases fs.handles h with
      | none => exact ⟨rfl, rfl⟩
      | some f =>
          simp only [settled_files, File.clean]
          cases slice (fs.files f).current off len <;> exact ⟨rfl, rfl⟩
  | writeAt h off buf =>
      simp only [exec, settled_handles]
      cases fs.handles h with
      | none => exact ⟨rfl, rfl⟩
      | some f =>
          refine ⟨rfl, ?_⟩
          simp only [settled_setFile, settled_settled]
          rfl
  | sync h =>
      simp only [exec, settled_handles]
      cases fs.handles h with
      | none => exact ⟨rfl, rfl⟩
      | some f =>
          refine ⟨rfl, ?_⟩
          simp only [settled_setFile, settled_settled]
          rfl
  | truncate h len =>
      simp only [exec, settled_handles]
      cases fs.handles h with
      | none => exact ⟨rfl, rfl⟩
      | some f =>
          refine ⟨rfl, ?_⟩
          simp only [settled_setFile, settled_settled]
          rfl
  | len h =>
      simp only [exec, settled_handles]
      cases fs.handles h <;> exact ⟨rfl, rfl⟩
  | tryLockExclusive h =>
      simp only [exec, settled_handles, settled_locks]
      cases fs.handles h with
      | none => exact ⟨rfl, rfl⟩
      | some f =>
          dsimp only
          cases fs.locks f <;> exact ⟨rfl, rfl⟩
  | close h =>
      simp only [exec, settled_handles, settled_locks]
      cases fs.handles h <;> exact ⟨rfl, rfl⟩

/-- A call has one answer over files that are alike, and keeps them alike. -/
theorem Alike.exec {fs fs' : Fs} (h : fs.Alike fs') (o : VfsOp) :
    (fs.exec o).2 = (fs'.exec o).2 ∧ (fs.exec o).1.Alike (fs'.exec o).1 := by
  rcases exec_settled fs o with ⟨hres, hstate⟩
  rcases exec_settled fs' o with ⟨hres', hstate'⟩
  have hs : fs.settled = fs'.settled := h
  constructor
  · rw [hres, hres', hs]
  · show (fs.exec o).1.settled = (fs'.exec o).1.settled
    rw [hstate, hstate', hs]

/-- So does a program. -/
theorem Alike.run {α : Type} {fs fs' : Fs} (h : fs.Alike fs') (p : Prog vfs α) :
    (p.run fs).2 = (p.run fs').2 ∧ (p.run fs).1.Alike (p.run fs').1 :=
  Prog.run_alike (M := vfs) (fun _ _ o hst => hst.exec o) p h

/-- And so does a failing call. -/
theorem Alike.fails {R : Runtime} {fs fs' t : Fs} {o : VfsOp} {r : o.Res} (h : fs.Alike t)
    (hf : fs.fails R o fs' r) : ∃ t', t.fails R o t' r ∧ fs'.Alike t' := by
  cases o with
  | writeAt hd off buf =>
      rcases hf with ⟨herr, f, img, hh, hpart, rfl⟩
      refine ⟨t.setFile f { t.files f with current := img }, ⟨herr, f, img, ?_, ?_, rfl⟩, ?_⟩
      · rw [← h.handles]
        exact hh
      · rw [← h.current]
        exact hpart
      · show settled _ = settled _
        rw [settled_setFile, settled_setFile, show fs.settled = t.settled from h]
  | sync hd =>
      rcases hf with ⟨herr, rfl | rfl⟩
      · exact ⟨t, ⟨herr, Or.inl rfl⟩, h⟩
      · exact ⟨_, ⟨herr, Or.inr rfl⟩, (h.exec _).2⟩
  | truncate hd len =>
      rcases hf with ⟨herr, rfl | rfl⟩
      · exact ⟨t, ⟨herr, Or.inl rfl⟩, h⟩
      · exact ⟨_, ⟨herr, Or.inr rfl⟩, (h.exec _).2⟩
  | openFile path mode => exact ⟨t, ⟨hf.1, rfl⟩, hf.2 ▸ h⟩
  | delete path => exact ⟨t, ⟨hf.1, rfl⟩, hf.2 ▸ h⟩
  | fileExists path => exact hf.elim
  | rename source target => exact ⟨t, ⟨hf.1, rfl⟩, hf.2 ▸ h⟩
  | readAt hd off len => exact ⟨t, ⟨hf.1, rfl⟩, hf.2 ▸ h⟩
  | len hd => exact ⟨t, ⟨hf.1, rfl⟩, hf.2 ▸ h⟩
  | tryLockExclusive hd => exact ⟨t, ⟨hf.1, rfl⟩, hf.2 ▸ h⟩
  | close hd => exact hf.elim

/-- A run with failures has its like over files that are alike. -/
theorem Alike.runs {α : Type} {R : Runtime} {fs fs' t : Fs} {p : Prog vfs α} {n : Nat} {a : α}
    (h : fs.Alike t) (hr : Prog.Runs (Fs.fails R) p fs n fs' a) :
    ∃ t', Prog.Runs (Fs.fails R) p t n t' a ∧ fs'.Alike t' :=
  Prog.Runs.alike (M := vfs) (fun _ _ o hst => hst.exec o) (fun _ _ _ _ _ hst hd => hst.fails hd) hr h

end Fs

/-! ## Blended images -/

section Blends

variable {a b img : Bytes}

/-- A slice that both strings have is in every blend of them. -/
theorem Blends.slice_eq {bs : Bytes} (h : Blends a b img) {off len : Nat}
    (ha : slice a off len = some bs) (hb : slice b off len = some bs) : slice img off len = some bs := by
  have hla := (slice_eq_some.mp ha).1
  have hlb := (slice_eq_some.mp hb).1
  have hli := h.1
  rw [← ha]
  refine slice_congr_getD (by omega) hla ?_
  intro i hlo hhi
  rcases Nat.exists_eq_add_of_le hlo with ⟨j, rfl⟩
  rcases h.2.2 (off + j) (by omega) with h1 | h1
  · exact h1
  · rw [h1, getD_of_slice ha (by omega), getD_of_slice hb (by omega)]

/-- A prefix that both strings have is one of every blend of them. -/
theorem Blends.isPrefix {log : Bytes} (h : Blends a b img) (ha : log <+: a) (hb : log <+: b) : log <+: img := by
  have hself := slice_zero_length log
  have h1 := h.slice_eq (slice_of_isPrefix ha hself) (slice_of_isPrefix hb hself)
  rcases slice_eq_some.mp h1 with ⟨_, heq⟩
  rw [List.drop_zero] at heq
  exact heq ▸ List.take_prefix _ _

/-- What the first bytes of a main file must be to give its page size. -/
theorem peekPageSize_eq_ok {pre : Bytes} {ps : Nat} : Header.peekPageSize pre = .ok ps ↔
    slice pre 0 8 = some MAGIC ∧ readLE pre 12 4 = some ps ∧ pageSizeIsValid ps = true := by
  unfold Header.peekPageSize
  constructor
  · intro h
    split at h
    · cases h
    · rename_i hmagic
      split at h
      · cases h
      · rename_i n hn
        split at h
        · rename_i hvalid
          cases h
          exact ⟨by simpa using hmagic, hn, hvalid⟩
        · cases h
  · rintro ⟨hmagic, hps, hvalid⟩
    rw [hmagic, hps]
    simp [hvalid]

/-- When the page size can be peeked. -/
theorem peek_iff {bs : Bytes} {ps : Nat} :
    (∃ pre, slice bs 0 HEADER_PEEK_LEN = some pre ∧ Header.peekPageSize pre = .ok ps) ↔
      16 ≤ bs.length ∧ slice bs 0 8 = some MAGIC ∧ readLE bs 12 4 = some ps ∧ pageSizeIsValid ps = true := by
  have hsub : 16 ≤ bs.length → slice bs 0 HEADER_PEEK_LEN = some (bs.take 16) ∧
      slice (bs.take 16) 0 8 = slice bs 0 8 ∧ readLE (bs.take 16) 12 4 = readLE bs 12 4 := by
    intro hlen
    have hslice : ∀ off n, off + n ≤ 16 → slice (bs.take 16) off n = slice bs off n := by
      intro off n hn
      have h := slice_take_drop (show 0 + 16 ≤ bs.length by omega) hn
      rwa [List.drop_zero, Nat.zero_add] at h
    refine ⟨slice_of_le hlen, ?_, ?_⟩
    · exact hslice 0 8 (by omega)
    · rw [readLE, hslice 12 4 (by omega), ← readLE]
  constructor
  · rintro ⟨pre, hpre, hps⟩
    have hlen : 16 ≤ bs.length := (slice_eq_some.mp hpre).1
    rcases hsub hlen with ⟨h1, h2, h3⟩
    rw [h1] at hpre
    cases hpre
    rw [peekPageSize_eq_ok, h2, h3] at hps
    exact ⟨hlen, hps⟩
  · rintro ⟨hlen, h⟩
    rcases hsub hlen with ⟨h1, h2, h3⟩
    refine ⟨_, h1, ?_⟩
    rw [peekPageSize_eq_ok, h2, h3]
    exact h

/-- A blend of two main files that carry a state carries it. -/
theorem MainOk.blends {H : Xxh3} {c : Committed} {index : List (Nat × Nat)} (ha : MainOk H c index a)
    (hb : MainOk H c index b) (h : Blends a b img) : MainOk H c index img := by
  constructor
  · rcases peek_iff.mp ha.peek with ⟨hla, hma, hpa, hvalid⟩
    rcases peek_iff.mp hb.peek with ⟨hlb, hmb, hpb, _⟩
    refine peek_iff.mpr ⟨by have := h.1; omega, h.slice_eq hma hmb, ?_, hvalid⟩
    -- the page size is the same number in both, so it is the same four bytes
    have hsa : slice a 12 4 = some ((a.drop 12).take 4) := slice_of_le (by omega)
    have hsb : slice b 12 4 = some ((b.drop 12).take 4) := slice_of_le (by omega)
    rw [readLE_of_slice hsa] at hpa
    rw [readLE_of_slice hsb] at hpb
    have heq : (a.drop 12).take 4 = (b.drop 12).take 4 := by
      refine leNat_inj ?_ (Option.some.inj (hpa.trans hpb.symm))
      rw [slice_length hsa, slice_length hsb]
    rw [readLE_of_slice (h.slice_eq hsa (heq ▸ hsb)), hpa]
  · intro n hn hf
    exact h.slice_eq (ha.pages n hn hf) (hb.pages n hn hf)

/-- A page size with some of its bytes missing is none. -/
theorem leNat_of_partial {ps : Nat} (hps : pageSizeIsValid ps = true) {bs : Bytes} (hlen : bs.length = 4)
    (hbs : ∀ i, i < 4 → bs.getD i 0 = 0 ∨ bs.getD i 0 = (leBytes 4 ps).getD i 0)
    (hvalid : pageSizeIsValid (leNat bs) = true) : leNat bs = ps := by
  rcases pageSizeIsValid_iff.mp hps with ⟨hlo, hhi, hpow⟩
  have hk1 : 9 ≤ Nat.log2 ps := (Nat.le_log2 (by omega)).mpr hlo
  have hk2 : Nat.log2 ps < 17 := (Nat.log2_lt (by omega)).mpr (by omega)
  rcases bs with _ | ⟨x, _ | ⟨y, _ | ⟨z, _ | ⟨w, _ | _⟩⟩⟩⟩
  case cons.cons.cons.cons.nil =>
    have h0 := hbs 0 (by omega)
    have h1 := hbs 1 (by omega)
    have h2 := hbs 2 (by omega)
    have h3 := hbs 3 (by omega)
    rw [← hpow] at h0 h1 h2 h3 ⊢
    generalize Nat.log2 ps = k at *
    interval_cases k <;> simp [leBytes] at h0 h1 h2 h3 <;> subst_vars <;> revert hvalid <;>
      first
        | decide
        | (rcases h1 with rfl | rfl <;> decide)
        | (rcases h2 with rfl | rfl <;> decide)
  all_goals simp at hlen

theorem WalHeader.slice_encode_pageSize (header : WalHeader) :
    slice header.encode 12 4 = some (leBytes 4 header.pageSize) := by
  unfold encode
  dsimp only
  rw [slice_splice_disjoint (by simp), slice_splice_same (by simp) (by simp [WAL_HEADER_LEN])]

/-- The page size stands in the header bytes. -/
theorem WalHeader.pageSize_of_decode {buf : Bytes} {header : WalHeader} (h : decode buf = some header) :
    readLE buf 12 4 = some header.pageSize ∧ pageSizeIsValid header.pageSize = true := by
  unfold decode decodeUpTo at h
  split at h
  · cases h
  · simp only [Option.bind_eq_bind, Option.bind_eq_some_iff] at h
    rcases h with ⟨version, _, ps, hps, h⟩
    split at h
    · cases h
    · rename_i hvalid
      rcases Option.bind_eq_some_iff.mp h with ⟨salt, _, hsome⟩
      cases hsome
      exact ⟨hps, by simpa using (not_or.mp (not_or.mp hvalid).2).2⟩

/-- A log that holds a part of the bytes of a header says nothing. -/
theorem logView_of_partial {H : Xxh3} {c : Committed} {salt : Nat}
    (hps : pageSizeIsValid c.header.pageSize = true)
    (h : Blends [] (generation c.header.pageSize salt).encode img) : LogView H c img [] := by
  have hmax : img.length ≤ WAL_HEADER_LEN := by simpa using h.2.1
  by_cases hshort : img.length < WAL_HEADER_LEN
  · exact logView_none (by rw [scanBytes_eq, if_pos hshort])
  · have hlen : img.length = WAL_HEADER_LEN := by omega
    cases hdec : WalHeader.decode (img.take WAL_HEADER_LEN) with
    | none => exact logView_none (by rw [scanBytes_eq, if_neg hshort, hdec]; rfl)
    | some header =>
        -- enough bytes are there for a header: they include the page size, and no frame
        rw [List.take_of_length_le (by omega)] at hdec
        rcases WalHeader.pageSize_of_decode hdec with ⟨hread, hvalid⟩
        have hslice : slice img 12 4 = some ((img.drop 12).take 4) := slice_of_le (by rw [hlen]; decide)
        rw [readLE_of_slice hslice] at hread
        have hsize : header.pageSize = c.header.pageSize := by
          rw [← Option.some.inj hread] at hvalid ⊢
          refine leNat_of_partial hps (slice_length hslice) ?_ hvalid
          intro i hi
          rw [← getD_of_slice hslice hi]
          refine (h.2.2 (12 + i) (by rw [hlen, WAL_HEADER_LEN]; omega)).imp (fun h0 => h0.trans rfl) fun h1 => ?_
          rw [h1]
          exact getD_of_slice (WalHeader.slice_encode_pageSize _) hi
        have hframes : frameAt H img header WAL_HEADER_LEN = none := by
          unfold frameAt
          rw [if_pos (by rw [hlen]; simp only [WAL_FRAME_HEADER_LEN]; omega)]
        have htxns : logTxns H img = [] := by
          unfold logTxns
          rw [if_neg hshort, List.take_of_length_le (by omega), hdec]
          exact scanTxns_stop hframes
        refine ⟨Or.inl ?_, List.Pairwise.nil, by simp, ?_⟩
        · rw [scanBytes_eq, if_neg hshort, List.take_of_length_le (by omega), hdec, Option.map_some,
            scanFrom_stop hframes, hsize]
        · exact fun hne => absurd htxns hne

/-- A string blends with itself to itself. -/
theorem Blends.self (h : Blends a a img) : img = a := by
  have h1 := h.1
  have h2 := h.2.1
  refine ext_getD (by omega) ?_
  intro i hi
  exact (h.2.2 i hi).elim id id

end Blends

/-! ## A call that failed midway -/

/-- All that was written may survive. -/
theorem File.survives_current (f : File) : f.Survives f.current := by
  refine ⟨f.current, mixes_left _ _, ?_⟩
  cases f.cut with
  | none => exact mixes_right _ _
  | some cut => exact Or.inr (mixes_right _ _)

/-- What was written has no frame that is valid by accident. -/
theorem idealChecksums_current (H : Xxh3) (f : File) : IdealChecksums H f f.current := by
  intro header k _ _
  exact ⟨f.current, Or.inr (Or.inl rfl), rfl⟩

section Midway

variable {H : Xxh3} {P : Committed → Prop} {main wal : File} {img : Bytes}

/-- What the process sees in the middle of a call is recoverable. -/
theorem Midway.current (h : Midway H P main wal) : ∃ c, P c ∧ Recoverable H c main.current wal.current :=
  h.diskOk _ _ main.survives_current wal.survives_current (idealChecksums_current H wal)

/-- A write to the main file of which any part was applied. -/
theorem Midway.main_blended (h : Midway H P main wal) (hb : Blends main.current main.written img) :
    ∃ c, P c ∧ Recoverable H c img wal.current := by
  have hcurrent := h.current
  cases h with
  | main hP hc hlog hcut hs hcur hw => exact ⟨_, hP, hc, _, hlog, hcur.blends hw hb⟩
  | cut hP hc hlog hfull => exact hb.self ▸ hcurrent
  | append hP hP' h hlog htxn hpages hstart hps hps' hc hc' hview hmain hindex' hview' hmain' =>
      exact hb.self ▸ hcurrent

/-- A write to the log of which any part was applied. -/
theorem Midway.wal_blended (h : Midway H P main wal) (hb : Blends wal.current wal.written img)
    (hi : IdealChecksums H wal img) : ∃ c, P c ∧ Recoverable H c main.current img := by
  have hcurrent := h.current
  cases h with
  | main hP hc hlog hcut hs hcur hw => exact hb.self ▸ hcurrent
  | cut hP hc hlog hfull => exact hb.self ▸ hcurrent
  | @append c c' ps salt txnId log main index index' pages f hP hP' h hlog htxn hpages hstart hps hps' hc hc'
      hview hmain hindex' hview' hmain' =>
      have hstarts : log <+: img ∨ (wal.synced = [] ∧ LogView H c img []) := by
        rcases h.current with hcur | ⟨hsy, hcur, hwr⟩
        · exact Or.inl (hb.isPrefix hcur h.written)
        · -- the header of the generation is what is being written
          have hlogEq : log = (generation ps salt).encode := by
            rcases h.synced with h1 | h1
            · have := hlog.header_le
              rw [← h1, hsy] at this
              simp [WAL_HEADER_LEN] at this
            · exact h1.2
          rw [hcur, hwr, hlogEq, hps] at hb
          exact Or.inr ⟨hsy, logView_of_partial hc.wf.header.pageSize hb⟩
      rcases h.recoverable hlog htxn hpages hstart hps hps' hc hc' hview hmain hindex' hview' hmain' hi hstarts
        with ⟨x, rfl | rfl, hr⟩
      · exact ⟨x, hP, hr⟩
      · exact ⟨x, hP', hr⟩

end Midway

/-- What the process sees of the two files of a store is recoverable, to a state in `P`. -/
def SeenOk (H : Xxh3) (P : Committed → Prop) (path : Path) (fs : Fs) : Prop :=
  ∃ fm, fs.names path = some fm ∧ ∃ c, P c ∧ Recoverable H c (fs.files fm).current (walFile path fs).current

/-- What a power failure can leave is recoverable. -/
theorem CrashOk.seenOk {H : Xxh3} {P : Committed → Prop} {path : Path} {fs : Fs} (h : CrashOk H P path fs) :
    SeenOk H P path fs := by
  rcases h with ⟨fm, hname, _, _, hmid⟩
  exact ⟨fm, hname, hmid.current⟩

/-- The log after a change of one file. -/
theorem walFile_setFile {path : Path} {fs : Fs} {f : Nat} {file : File} :
    walFile path (fs.setFile f file) =
      if fs.names (walPathFor path) = some f then file else walFile path fs := by
  unfold walFile
  rw [Fs.setFile_names]
  cases hn : fs.names (walPathFor path) with
  | none => simp
  | some fw =>
      by_cases hf : fw = f
      · subst hf
        simp
      · simp [hf]

/-- A program every interruption of which is recoverable may also fail at any call. -/
theorem seenOk_of_faulted {α : Type} {R : Runtime} {P : Committed → Prop} {path : Path} {p : Prog vfs α}
    {fs fs' : Fs} (hp : ∀ s, Prog.Interrupt p fs s → CrashOk R.xxh P path s)
    (h : Prog.Faulted (Fs.fails R) p fs fs') : SeenOk R.xxh P path fs' := by
  rcases h.point with ⟨s, o, r, hfail, hbefore, htorn, hafter⟩
  have hsame : fs' = s → SeenOk R.xxh P path fs' := fun h => h ▸ (hp _ hbefore).seenOk
  cases o with
  | openFile path mode => exact hsame hfail.2
  | delete path => exact hsame hfail.2
  | fileExists path => exact hfail.elim
  | rename source target => exact hsame hfail.2
  | readAt hd off len => exact hsame hfail.2
  | len hd => exact hsame hfail.2
  | tryLockExclusive hd => exact hsame hfail.2
  | close hd => exact hfail.elim
  | sync hd =>
      rcases hfail.2 with h | h
      · exact hsame h
      · exact h ▸ (hp _ hafter).seenOk
  | truncate hd len =>
      rcases hfail.2 with h | h
      · exact hsame h
      · exact h ▸ (hp _ hafter).seenOk
  | writeAt hd off buf =>
      rcases hfail.2 with ⟨f, img, hh, ⟨hblend, hideal⟩, rfl⟩
      -- the same write cut short by a power failure
      rcases hp _ (htorn _ ⟨f, hh, rfl⟩) with ⟨fm, hname, _, hwal, hmid⟩
      rw [Fs.setFile_names] at hname hwal
      rw [Fs.setFile_files, walFile_setFile] at hmid
      refine ⟨fm, hname, ?_⟩
      rw [Fs.setFile_files, walFile_setFile]
      by_cases hfm : fm = f
      · subst hfm
        have hne : s.names (walPathFor path) ≠ some fm := fun h => (hwal fm h).1 rfl
        rw [if_neg hne, Function.update_self] at hmid ⊢
        exact hmid.main_blended hblend
      · rw [Function.update_of_ne hfm] at hmid ⊢
        by_cases hfw : s.names (walPathFor path) = some f
        · rw [if_pos hfw] at hmid ⊢
          refine hmid.wal_blended hblend ?_
          intro header k hdec hframe
          rcases hideal header k hdec hframe with ⟨v, hv, heq⟩
          refine ⟨v, ?_, heq⟩
          rcases hv with h | h | h | ⟨w, h | h⟩
          · exact Or.inr (Or.inl h)
          · exact Or.inr (Or.inl h)
          · exact Or.inr (Or.inr (Or.inl h))
          · cases h
          · cases h
        · rw [if_neg hfw] at hmid ⊢
          exact hmid.current

/-! ## Code that stops at the first failure -/

/-- The calls on an open file. -/
def VfsOp.IsData : VfsOp → Prop
  | .readAt _ _ _ => True
  | .writeAt _ _ _ => True
  | .sync _ => True
  | .truncate _ _ => True
  | .len _ => True
  | _ => False

/-- The calls that only read an open file. -/
def VfsOp.IsRead : VfsOp → Prop
  | .readAt _ _ _ => True
  | _ => False

/-- Storage code that makes calls in `φ` only and stops at the first failure. -/
structure Steady (R : Runtime) (φ : VfsOp → Prop) {α : Type} (x : Io α) : Prop where
  ops : x.run.All φ
  stops : Prog.FailFast (Fs.fails R) Prog.IsError x.run

section Steady

variable {R : Runtime} {φ : VfsOp → Prop} {α β : Type}

theorem steady_ofExcept (r : Except Error α) : Steady R φ (Io.ofExcept r) :=
  ⟨trivial, Prog.failFast_ret r⟩

theorem steady_pure (a : α) : Steady R φ (pure a) := steady_ofExcept (.ok a)

theorem steady_throw (e : Error) : Steady R φ (throw e : Io α) := steady_ofExcept (.error e)

/-- Nothing runs after an error. -/
theorem steady_throw_bind (e : Error) (f : α → Io β) : Steady R φ ((throw e : Io α) >>= f) :=
  steady_throw e

/-- A sequence of steady calls is steady. -/
theorem Steady.bind {x : Io α} {f : α → Io β} (hx : Steady R φ x) (hf : ∀ a, Steady R φ (f a)) :
    Steady R φ (x >>= f) :=
  ⟨.bindExcept hx.ops fun a => (hf a).ops, .bindExcept hx.stops fun a => (hf a).stops⟩

/-- A call whose failures are passed on is steady. -/
theorem steady_ofCall {p : Prog vfs (Except IoError α)} (hops : p.All φ)
    (hstops : Prog.FailFast (Fs.fails R) Prog.IsError p) : Steady R φ (Io.ofCall p) := by
  constructor
  · refine hops.bind ?_
    intro r
    cases r <;> trivial
  · refine hstops.bind ?_ ?_
    · intro r
      cases r <;> exact Prog.failFast_ret _
    · rintro _ ⟨e, rfl⟩
      exact ⟨_, rfl, _, rfl⟩

theorem steady_readAt {h off len : Nat} (hφ : φ (.readAt h off len)) : Steady R φ (Io.readAt h off len) :=
  steady_ofCall ⟨hφ, fun _ => trivial⟩
    (Prog.failFast_call (M := vfs) (o := .readAt h off len) fun _ _ _ hf => hf.1)

theorem steady_writeAt (h off : Nat) (buf : Bytes) : Steady R VfsOp.IsData (Io.writeAt h off buf) :=
  steady_ofCall ⟨trivial, fun _ => trivial⟩
    (Prog.failFast_call (M := vfs) (o := .writeAt h off buf) fun _ _ _ hf => hf.1)

theorem steady_sync (h : Nat) : Steady R VfsOp.IsData (Io.sync h) :=
  steady_ofCall ⟨trivial, fun _ => trivial⟩
    (Prog.failFast_call (M := vfs) (o := .sync h) fun _ _ _ hf => hf.1)

theorem steady_truncate (h len : Nat) : Steady R VfsOp.IsData (Io.truncate h len) :=
  steady_ofCall ⟨trivial, fun _ => trivial⟩
    (Prog.failFast_call (M := vfs) (o := .truncate h len) fun _ _ _ hf => hf.1)

/-- Reading a page is steady and only reads. -/
theorem steady_readPage (p : Pager) (n : Nat) : Steady R VfsOp.IsRead (p.readPage R n) := by
  have hcheck : ∀ page : Bytes, Steady R VfsOp.IsRead (do
      if pageChecksumIsValid R.xxh page = false then throw (.corruptPage n)
      pure page : Io Bytes) := by
    intro page
    dsimp only
    split
    · exact steady_throw_bind _ _
    · exact steady_pure _
  unfold Pager.readPage
  dsimp only
  split
  · exact steady_throw_bind _ _
  · split
    · exact steady_throw_bind _ _
    · cases find n p.walIndex with
      | some offset => exact (steady_readAt trivial).bind hcheck
      | none => exact (steady_ofExcept _).bind fun _ => (steady_readAt trivial).bind hcheck

/-- Writing frames is steady. -/
theorem steady_appendFrames (wal : Wal) (txnId salt len : Nat) (pages : List (Nat × Bytes)) :
    Steady R VfsOp.IsData (wal.appendFrames R.xxh txnId salt len pages) := by
  induction pages generalizing len with
  | nil => exact steady_pure _
  | cons page rest ih =>
      simp only [Wal.appendFrames]
      split
      · exact steady_throw_bind _ _
      · exact (steady_writeAt _ _ _).bind fun _ => (ih _).bind fun _ => steady_pure _

/-- An append is steady. -/
theorem steady_appendTxn (wal : Wal) (newSalt : UInt64) (txnId : Nat) (pages : List (Nat × Bytes)) :
    Steady R VfsOp.IsData (wal.appendTxn R.xxh newSalt txnId pages) := by
  have hframes : ∀ salt len, Steady R VfsOp.IsData (do
      let r ← wal.appendFrames R.xxh txnId salt len pages
      Io.sync wal.file
      pure (r.1, { wal with salt := some salt, len := r.2 }) : Io (List (Nat × Nat) × Wal)) := by
    intro salt len
    exact (steady_appendFrames _ _ _ _ _).bind fun _ => (steady_sync _).bind fun _ => steady_pure _
  unfold Wal.appendTxn
  dsimp only
  cases wal.salt with
  | some salt => exact hframes _ _
  | none => exact (steady_writeAt _ _ _).bind fun _ => hframes _ _

/-- Copying pages is steady. -/
theorem steady_applyPages (main wal ps : Nat) (l : List (Nat × Nat)) : Steady R VfsOp.IsData (applyPages main wal ps l) := by
  induction l with
  | nil => exact steady_pure _
  | cons e rest ih =>
      rcases e with ⟨pageNo, offset⟩
      exact (steady_readAt trivial).bind fun _ => (steady_ofExcept _).bind fun _ =>
        (steady_writeAt _ _ _).bind fun _ => ih

/-- A checkpoint is steady. -/
theorem steady_checkpointInner (p : Pager) : Steady R VfsOp.IsData (p.checkpointInner R) := by
  unfold Pager.checkpointInner Wal.reset
  refine (steady_applyPages _ _ _ _).bind fun _ => (steady_sync _).bind fun _ => Steady.bind ?_ fun _ => steady_pure _
  exact (steady_truncate _ _).bind fun _ => (steady_sync _).bind fun _ => steady_pure _

end Steady

end EmbedMind
