import EmbedMind.Storage.Frame

/-!
# The calls of a pager stay with its own files

Every call of a pager uses the two names of its store, its two handles, and the handles it
opens. By the frame rule it leaves every other store alone, also where it is cut short
(`wpc_beside`), and what is known of another store (`Live`, `AtRest`, `CrashOk`) is known of
it afterwards.
-/

namespace EmbedMind

open Lib

/-- The program calls the file system with the names `N`, the handles `A` and those it is handed. -/
def Stays {α : Type} (N : Set Path) (A : Set Nat) (p : Prog vfs α) : Prop := p.Within (vfsUsage N) A fun _ _ => True

/-! ## Rules -/

section Rules

variable {α β : Type} {N : Set Path} {A : Set Nat}

/-- A sequence, where the second part may rely on what the first one returns. -/
theorem Stays.bindEnds {φ : α → Prop} {p : Prog vfs α} {f : α → Prog vfs β} (hp : Stays N A p) (he : p.Ends φ)
    (hf : ∀ a B, A ⊆ B → φ a → Stays N B (f a)) : Stays N A (p.bind f) :=
  Prog.Within.bind (Prog.Within.mono hp he fun a B hB hend _ => hf a B hB hend)

theorem Stays.bind {p : Prog vfs α} {f : α → Prog vfs β} (hp : Stays N A p) (hf : ∀ a B, A ⊆ B → Stays N B (f a)) :
    Stays N A (p.bind f) :=
  hp.bindEnds (Prog.ends_true p) fun a B hB _ => hf a B hB

/-- A sequence that an error ends. -/
theorem Stays.andThenEnds {φ : α → Prop} {x : Io α} {f : α → Io β} (hx : Stays N A x.run)
    (he : x.run.Ends fun r => ∀ a, r = .ok a → φ a) (hf : ∀ a B, A ⊆ B → φ a → Stays N B (f a).run) :
    Stays N A (x >>= f).run := by
  refine Stays.bindEnds hx he ?_
  intro r B hB hr
  cases r with
  | ok a => exact hf a B hB (hr a rfl)
  | error e => trivial

/-- The same without what the first part returns. -/
theorem Stays.andThen {x : Io α} {f : α → Io β} (hx : Stays N A x.run) (hf : ∀ a B, A ⊆ B → Stays N B (f a).run) :
    Stays N A (x >>= f).run := by
  refine Stays.bind hx ?_
  intro r B hB
  cases r with
  | ok a => exact hf a B hB
  | error e => trivial

theorem stays_ofExcept (r : Except Error α) : Stays N A (Io.ofExcept r).run := trivial

theorem stays_throw_bind (e : Error) (f : α → Io β) : Stays N A ((throw e : Io α) >>= f).run := trivial

theorem stays_call {o : VfsOp} (ho : o.Uses N A) : Stays N A (Prog.call (M := vfs) o) := ⟨ho, fun _ => trivial⟩

theorem Stays.ofCall {p : Prog vfs (Except IoError α)} (hp : Stays N A p) : Stays N A (Io.ofCall p).run := by
  refine Stays.bind hp ?_
  intro r B _
  cases r <;> trivial

variable {h : Nat} {path : Path}

theorem stays_readAt (hin : h ∈ A) (off len : Nat) : Stays N A (Io.readAt h off len).run :=
  Stays.ofCall (stays_call (o := .readAt h off len) hin)

theorem stays_writeAt (hin : h ∈ A) (off : Nat) (buf : Bytes) : Stays N A (Io.writeAt h off buf).run :=
  Stays.ofCall (stays_call (o := .writeAt h off buf) hin)

theorem stays_sync (hin : h ∈ A) : Stays N A (Io.sync h).run := Stays.ofCall (stays_call (o := .sync h) hin)

theorem stays_truncate (hin : h ∈ A) (len : Nat) : Stays N A (Io.truncate h len).run :=
  Stays.ofCall (stays_call (o := .truncate h len) hin)

theorem stays_len (hin : h ∈ A) : Stays N A (Io.len h).run := Stays.ofCall (stays_call (o := .len h) hin)

theorem stays_tryLockExclusive (hin : h ∈ A) : Stays N A (Io.tryLockExclusive h).run :=
  Stays.ofCall (stays_call (o := .tryLockExclusive h) hin)

theorem stays_close (hin : h ∈ A) : Stays N A (Io.close h).run :=
  Stays.bind (stays_call (o := .close h) hin) fun _ _ _ => trivial

theorem stays_delete (hin : path ∈ N) : Stays N A (Io.delete path).run :=
  Stays.ofCall (stays_call (o := .delete path) hin)

theorem stays_fileExists (hin : path ∈ N) : Stays N A (Io.fileExists path).run :=
  Stays.bind (stays_call (o := .fileExists path) hin) fun _ _ _ => trivial

theorem stays_rename {source target : Path} (hs : source ∈ N) (ht : target ∈ N) :
    Stays N A (Io.rename source target).run :=
  Stays.ofCall (stays_call (o := .rename source target) ⟨hs, ht⟩)

/-- An opened file is the program's own. -/
theorem stays_openFile {mode : OpenMode} {k : Nat → Io β} (hin : path ∈ N)
    (hk : ∀ h B, A ⊆ B → h ∈ B → Stays N B (k h).run) : Stays N A (Io.openFile path mode >>= k).run := by
  refine ⟨hin, ?_⟩
  intro r
  cases r with
  | ok h => exact hk h _ (Set.subset_insert h A) (Set.mem_insert h A)
  | error e => trivial

/-- The handle that an error drops is the program's own. -/
theorem Stays.owning {x : Io α} (hx : Stays N A x.run) (hin : h ∈ A) : Stays N A (Io.owning h x).run := by
  refine Stays.bind hx ?_
  intro r B hB
  cases r with
  | ok a => trivial
  | error e => exact Stays.bind (stays_call (o := .close h) (hB hin)) fun _ _ _ => trivial

theorem Stays.ignoring {x : Io Unit} (hx : Stays N A x.run) : Stays N A (Io.ignoring x).run :=
  Stays.bind hx fun _ _ _ => trivial

theorem stays_deleteIfExists (hin : path ∈ N) : Stays N A (Io.deleteIfExists path).run := by
  refine Stays.andThen (stays_fileExists hin) ?_
  intro found B _
  cases found with
  | true => exact Stays.ignoring (stays_delete hin)
  | false => trivial

/-- The frame rule for a program that stays: what is reached through other names is left alone, wherever it is cut
short. -/
theorem wpc_beside {p : Prog vfs α} {fs : Fs} {Q : α → Fs → Prop} {C : Fs → Prop} {Y : Reach} (h : Wpc p fs Q C)
    (hp : Stays N A p) (hfs : fs.Tidy) (hX : (Reach.mk N A).Sound fs) (hY : Y.Sound fs)
    (hnames : ∀ path ∈ N, path ∉ Y.names) :
    Wpc p fs (fun a s => Q a s ∧ Untouched Y fs s ∧ s.Tidy) fun s => C s ∧ Untouched Y fs s := by
  have hstart : Framed N Y fs A fs :=
    ⟨hfs, .refl Y fs, fun _ => hX.apart hY hfs hnames, fun _ => hX.handles_apart hY hfs hnames,
      fun _ => hY.handles_lt hfs⟩
  refine (h.within hp (framed_keeps hnames) hstart).mono ?_ ?_
  · intro a s hs
    rcases hs with ⟨hq, B, _, hframed⟩
    exact ⟨hq, hframed.untouched, hframed.tidy⟩
  · intro s hs
    rcases hs with ⟨hc, B, hframed⟩
    exact ⟨hc, hframed.untouched⟩

/-- The same for the first part of a sequence, which succeeds. -/
theorem wpc_seq_beside {x : Io α} {k : α → Io β} {fs : Fs} {P : α → Fs → Prop} {Q : Except Error β → Fs → Prop}
    {C C' : Fs → Prop} {Y : Reach} (h : Wpc x.run fs (fun r s => ∃ a, r = .ok a ∧ P a s) C) (hx : Stays N A x.run)
    (hfs : fs.Tidy) (hX : (Reach.mk N A).Sound fs) (hY : Y.Sound fs) (hnames : ∀ path ∈ N, path ∉ Y.names)
    (hC : ∀ s, C s → Untouched Y fs s → C' s)
    (hk : ∀ a s, P a s → Untouched Y fs s → s.Tidy → Wpc (k a).run s Q C') : Wpc (x >>= k).run fs Q C' := by
  have hbeside := wpc_beside h hx hfs hX hY hnames
  refine Io.wpc_seq (R := fun a s => P a s ∧ Untouched Y fs s ∧ s.Tidy) (hbeside.mono ?_ fun s hs => hC s hs.1 hs.2) ?_
  · intro r s hs
    rcases hs with ⟨⟨a, ha, hp⟩, hu, ht⟩
    exact ⟨a, ha, hp, hu, ht⟩
  · exact fun a s hs => hk a s hs.1 hs.2.1 hs.2.2

end Rules

/-! ## The calls of a pager -/

section Pager

variable {N : Set Path} {A : Set Nat} {R : Runtime} {path : Path}

/-- The two names of a store. -/
def storeNames (path : Path) : Set Path := {path, walPathFor path}

theorem path_mem_storeNames (path : Path) : path ∈ storeNames path := Or.inl rfl

theorem wal_mem_storeNames (path : Path) : walPathFor path ∈ storeNames path := Or.inr rfl

/-- The two handles of a pager. -/
def Pager.handles (p : Pager) : Set Nat := {p.main, p.wal.file}

/-- The calls of a checkpoint, one after the other: each uses the two handles of its pager. -/
theorem stays_applyPages {main wal : Nat} (hmain : main ∈ A) (hwal : wal ∈ A) (pageSize : Nat) (l : List (Nat × Nat)) :
    Stays N A (applyPages main wal pageSize l).run := by
  induction l generalizing A with
  | nil => trivial
  | cons e rest ih =>
      rcases e with ⟨pageNo, offset⟩
      exact (stays_readAt hwal _ _).andThen fun _ B hB => (stays_ofExcept _).andThen fun _ C hC =>
        (stays_writeAt (hC (hB hmain)) _ _).andThen fun _ D hD => ih (hD (hC (hB hmain))) (hD (hC (hB hwal)))

theorem stays_checkpointInner {p : Pager} (hmain : p.main ∈ A) (hwal : p.wal.file ∈ A) :
    Stays N A (p.checkpointInner R).run := by
  unfold Pager.checkpointInner Wal.reset
  refine (stays_applyPages hmain hwal _ _).andThen fun _ B hB => ?_
  refine (stays_sync (hB hmain)).andThen fun _ C hC => ?_
  refine Stays.andThen ?_ fun _ _ _ => trivial
  exact (stays_truncate (hC (hB hwal)) _).andThen fun _ D hD =>
    (stays_sync (hD (hC (hB hwal)))).andThen fun _ _ _ => trivial

theorem stays_checkpoint {p : Pager} (hmain : p.main ∈ A) (hwal : p.wal.file ∈ A) : Stays N A (p.checkpoint R) := by
  unfold Pager.checkpoint
  split
  · trivial
  · split
    · trivial
    · refine Stays.bind (stays_checkpointInner hmain hwal) ?_
      intro r B _
      cases r <;> trivial

theorem stays_appendFrames {wal : Wal} (hwal : wal.file ∈ A) (txnId salt len : Nat) (pages : List (Nat × Bytes)) :
    Stays N A (wal.appendFrames R.xxh txnId salt len pages).run := by
  induction pages generalizing A len with
  | nil => trivial
  | cons page rest ih =>
      simp only [Wal.appendFrames]
      split
      · exact stays_throw_bind _ _
      · exact (stays_writeAt hwal _ _).andThen fun _ B hB => (ih (hB hwal) _).andThen fun _ _ _ => trivial

theorem stays_appendTxn {wal : Wal} (hwal : wal.file ∈ A) (newSalt : UInt64) (txnId : Nat) (pages : List (Nat × Bytes)) :
    Stays N A (wal.appendTxn R.xxh newSalt txnId pages).run := by
  have hframes : ∀ (B : Set Nat) salt len, wal.file ∈ B → Stays N B (do
      let r ← wal.appendFrames R.xxh txnId salt len pages
      Io.sync wal.file
      pure (r.1, { wal with salt := some salt, len := r.2 }) : Io (List (Nat × Nat) × Wal)).run := by
    intro B salt len hB
    exact (stays_appendFrames hB _ _ _ _).andThen fun _ C hC => (stays_sync (hC hB)).andThen fun _ _ _ => trivial
  unfold Wal.appendTxn
  dsimp only
  cases wal.salt with
  | some salt => exact hframes A _ _ hwal
  | none => exact (stays_writeAt hwal _ _).andThen fun _ B hB => hframes B _ _ (hB hwal)

theorem stays_afterAppend {p : Pager} (hmain : p.main ∈ A) (hwal : p.wal.file ∈ A) : Stays N A (p.afterAppend R) := by
  unfold Pager.afterAppend
  split
  · refine Stays.bind (stays_checkpoint hmain hwal) ?_
    intro r B _
    rcases r with ⟨p', result⟩
    trivial
  · trivial

theorem stays_commitTxn {p : Pager} (hmain : p.main ∈ A) (hwal : p.wal.file ∈ A) (salt : UInt64)
    (dirty : List (Nat × Bytes)) (count : Nat) (pending : PendingHeader) :
    Stays N A (p.commitTxn R salt dirty count pending) := by
  rcases commitTxn_cases R p salt dirty count pending with ⟨r, h⟩ | ⟨page0, husable, hne, hpage0⟩
  · rw [h]
    trivial
  · rw [commitTxn_eq husable hne hpage0]
    refine (stays_appendTxn hwal _ _ _).bindEnds (appendTxn_ends _ _ _ _) ?_
    intro r B hB hr
    cases r with
    | error e => trivial
    | ok a =>
        rcases a with ⟨offsets, wal⟩
        have hfile : wal.file = p.wal.file := hr _ rfl
        exact stays_afterAppend (p := p.appended _ offsets wal) (hB hmain) (hfile ▸ hB hwal)

theorem stays_drop {p : Pager} (hmain : p.main ∈ A) (hwal : p.wal.file ∈ A) : Stays N A p.drop.run :=
  (stays_close hmain).andThen fun _ _ hB => stays_close (hB hwal)

/-- A pager that works on the same files has the same handles. -/
theorem Pager.SameFiles.mem {p p' : Pager} (h : p.SameFiles p') {B : Set Nat} (hmain : p.main ∈ B) (hwal : p.wal.file ∈ B) :
    p'.main ∈ B ∧ p'.wal.file ∈ B := by
  rcases h with ⟨h1, h2, _⟩
  rw [h1, h2]
  exact ⟨hmain, hwal⟩

/-- Closing also names the log. -/
theorem stays_closeStore {p : Pager} (hmain : p.main ∈ A) (hwal : p.wal.file ∈ A) (hname : p.walPath ∈ N) :
    Stays N A (p.close R).run := by
  unfold Pager.close
  refine (stays_checkpoint hmain hwal).bindEnds checkpoint_ends ?_
  intro r B hB hr
  rcases r with ⟨p', result⟩
  rcases hr.mem (hB hmain) (hB hwal) with ⟨hmain', hwal'⟩
  have hname' : p'.walPath ∈ N := hr.2.2.symm ▸ hname
  cases result with
  | error e => exact Stays.bind (stays_drop hmain' hwal') fun _ _ _ => trivial
  | ok u =>
      refine (stays_close hwal').andThen fun _ C hC => ?_
      refine Stays.andThen (Stays.owning ?_ (hC hmain')) fun _ D hD => stays_close (hD (hC hmain'))
      refine (stays_fileExists hname').andThen fun present D _ => ?_
      split
      · exact stays_delete hname'
      · trivial

theorem stays_scan {wal : Nat} (hwal : wal ∈ A) : Stays N A (Wal.scan R.xxh wal).run := by
  have hframes : ∀ (B : Set Nat) (fileLen : Nat) (header : WalHeader) (fuel off : Nat) (committed pending : List (Nat × Nat))
      (pendingTxn : Option Nat), wal ∈ B →
      Stays N B (scanFrames R.xxh (Io.readAt wal) fileLen header fuel off committed pending pendingTxn).run := by
    intro B fileLen header fuel
    induction fuel generalizing B with
    | zero => exact fun _ _ _ _ _ => trivial
    | succ fuel ih =>
        intro off committed pending pendingTxn hB
        simp only [scanFrames]
        split
        · trivial
        · refine (stays_readAt hB _ _).andThen fun _ C hC => (stays_readAt (hC hB) _ _).andThen fun _ D hD => ?_
          split
          · trivial
          · split
            · trivial
            · split
              · exact ih D _ _ _ _ (hD (hC hB))
              · exact ih D _ _ _ _ (hD (hC hB))
  unfold Wal.scan scanUpTo
  refine (stays_len hwal).andThen fun fileLen B hB => ?_
  split
  · trivial
  · refine (stays_readAt (hB hwal) _ _).andThen fun _ C hC => ?_
    split
    · trivial
    · exact (hframes C _ _ _ _ _ _ _ (hC (hB hwal))).andThen fun _ _ _ => trivial

theorem stays_recover {main wal : Nat} (hmain : main ∈ A) (hwal : wal ∈ A) : Stays N A (Pager.recover R main wal).run := by
  unfold Pager.recover peekMainPageSize
  refine (stays_scan hwal).andThen fun scanned B hB => ?_
  cases scanned with
  | none => trivial
  | some recovered =>
      refine Stays.andThen ?_ fun expected C hC => ?_
      · refine (stays_len (hB hmain)).andThen fun len C hC => ?_
        split
        · trivial
        · exact (stays_readAt (hC (hB hmain)) _ _).andThen fun _ _ _ => trivial
      · split
        · exact (stays_applyPages (hC (hB hmain)) (hC (hB hwal)) _ _).andThen fun _ D hD =>
            stays_sync (hD (hC (hB hmain)))
        · trivial

theorem stays_readHeader {main : Nat} (hmain : main ∈ A) : Stays N A (readHeader R.xxh main).run := by
  unfold readHeader
  refine (stays_len hmain).andThen fun len B hB => ?_
  split
  · exact stays_throw_bind _ _
  · refine (stays_readAt (hB hmain) _ _).andThen fun pre C hC => (stays_ofExcept _).andThen fun pageSize D hD => ?_
    have hD' := hD (hC (hB hmain))
    refine (stays_len hD').andThen fun len E hE => ?_
    split
    · exact stays_throw_bind _ _
    · exact (stays_readAt (hE hD') _ _).andThen fun _ _ _ => stays_ofExcept _

/-- Opening names the two files and uses the handles that it gets. -/
theorem stays_openStore (hpath : path ∈ N) (hwal : walPathFor path ∈ N) (opts : PagerOptions) :
    Stays N A (Pager.openStore R path opts).run := by
  unfold Pager.openStore
  refine stays_openFile hpath fun main B _ hmain => Stays.owning ?_ hmain
  refine (stays_tryLockExclusive hmain).andThen fun locked C hC => ?_
  split
  · exact stays_throw_bind _ _
  · refine stays_openFile hwal fun walFile D hD hfile => Stays.owning ?_ hfile
    have hmain' := hD (hC hmain)
    refine (stays_recover hmain' hfile).andThen fun _ E hE => ?_
    refine (stays_len (hE hfile)).andThen fun walLen F hF => ?_
    have hend : ∀ G : Set Nat, main ∈ G → Stays N G (do
        let header ← readHeader R.xxh main
        pure { main, wal := { file := walFile, pageSize := header.pageSize }, walPath := walPathFor path, header,
               checkpointThreshold := opts.checkpointThreshold } : Io Pager).run :=
      fun G hG => (stays_readHeader hG).andThen fun _ _ _ => trivial
    split
    · exact (stays_truncate (hF (hE hfile)) _).andThen fun _ G hG => (stays_sync (hG (hF (hE hfile)))).andThen fun _ G' hG' =>
        hend G' (hG' (hG (hF (hE hmain'))))
    · exact hend F (hF (hE hmain'))

/-- So does creating. -/
theorem stays_create (hpath : path ∈ N) (hwal : walPathFor path ∈ N) (opts : PagerOptions) :
    Stays N A (Pager.create R path opts).run := by
  unfold Pager.create
  split
  · exact stays_throw_bind _ _
  · refine (stays_ofExcept _).andThen fun header B _ => ?_
    refine stays_openFile hpath fun main C _ hmain => Stays.owning ?_ hmain
    refine (stays_tryLockExclusive hmain).andThen fun locked D hD => ?_
    split
    · exact stays_throw_bind _ _
    · refine (stays_fileExists hwal).andThen fun orphan E hE => ?_
      have hend : ∀ G : Set Nat, main ∈ G → Stays N G (do
          let page0 ← Io.ofExcept (Header.encode R.xxh { header with formatVersion := opts.formatVersion } opts.pageSize)
          Io.writeAt main 0 page0
          Io.sync main
          let walFile ← Io.openFile (walPathFor path) .openOrCreate
          pure { main, wal := { file := walFile, pageSize := opts.pageSize }, walPath := walPathFor path,
                 header := { header with formatVersion := opts.formatVersion },
                 checkpointThreshold := opts.checkpointThreshold } : Io Pager).run := by
        intro G hG
        refine (stays_ofExcept _).andThen fun page0 G₁ h₁ => (stays_writeAt (h₁ hG) _ _).andThen fun _ G₂ h₂ => ?_
        exact (stays_sync (h₂ (h₁ hG))).andThen fun _ G₃ _ => stays_openFile hwal fun _ _ _ _ => trivial
      split
      · exact (stays_delete hwal).andThen fun _ F hF => hend F (hF (hE (hD hmain)))
      · exact hend E (hE (hD hmain))

end Pager

/-! ## What is known of a store -/

section Known

variable {H : Xxh3} {c : Committed} {path : Path} {fs fs' : Fs} {fm fw : Nat} {main log wal : Bytes} {p : Pager}

/-- A running pager reaches the two files of its store. -/
theorem Live.sound (h : Live H c path p fs fm fw main log) : (Reach.mk (storeNames path) p.handles).Sound fs := by
  intro hd hin
  rcases hin with rfl | rfl
  · exact ⟨fm, h.opened.mainHandle, path, path_mem_storeNames path, h.opened.main⟩
  · exact ⟨fw, h.opened.walHandle, walPathFor path, wal_mem_storeNames path, h.opened.wal⟩

/-- A running pager whose store is left alone runs on. -/
theorem Live.untouched (h : Live H c path p fs fm fw main log)
    (hu : Untouched ⟨storeNames path, p.handles⟩ fs fs') : Live H c path p fs' fm fw main log := by
  have ho := h.opened
  have hm := hu.files fm (Or.inl ⟨path, path_mem_storeNames path, ho.main⟩)
  have hw := hu.files fw (Or.inl ⟨walPathFor path, wal_mem_storeNames path, ho.wal⟩)
  have hopened : Opened path p.main p.wal.file fm fw fs' := by
    refine ⟨⟨?_, ?_, ho.ne, lt_of_lt_of_le ho.main_lt hu.nextFile, lt_of_lt_of_le ho.wal_lt hu.nextFile⟩, ?_, ?_, ?_,
      ho.handles_ne⟩
    · rw [hu.names path (path_mem_storeNames path), ho.main]
    · rw [hu.names _ (wal_mem_storeNames path), ho.wal]
    · rw [hu.handles p.main (Or.inl rfl), ho.mainHandle]
    · rw [hu.handles p.wal.file (Or.inr rfl), ho.walHandle]
    · rw [hm.2, ho.lock]
  exact { h with opened := hopened, main_eq := hm.1.trans h.main_eq, log_eq := hw.1.trans h.log_eq }

/-- The log file of a store that is left alone. -/
theorem Untouched.walFile {A : Set Nat} (hu : Untouched ⟨storeNames path, A⟩ fs fs') : walFile path fs' = EmbedMind.walFile path fs := by
  have hname := hu.names _ (wal_mem_storeNames path)
  unfold EmbedMind.walFile
  rw [hname]
  cases hw : fs.names (walPathFor path) with
  | none => rfl
  | some fw => exact (hu.files fw (Or.inl ⟨walPathFor path, wal_mem_storeNames path, hw⟩)).1

/-- A store at rest that is left alone stays at rest. -/
theorem AtRest.untouched {A : Set Nat} (h : AtRest H c path fs fm main wal) (hu : Untouched ⟨storeNames path, A⟩ fs fs') :
    AtRest H c path fs' fm main wal := by
  have hm := hu.files fm (Or.inl ⟨path, path_mem_storeNames path, h.name⟩)
  refine ⟨?_, lt_of_lt_of_le h.name_lt hu.nextFile, ?_, hm.2.trans h.unlocked, hm.1.trans h.main_eq, ?_, h.recoverable⟩
  · rw [hu.names path (path_mem_storeNames path), h.name]
  · intro fw hfw
    rw [hu.names _ (wal_mem_storeNames path)] at hfw
    rcases h.wal_ne fw hfw with ⟨hne, hlt⟩
    exact ⟨hne, lt_of_lt_of_le hlt hu.nextFile⟩
  · rw [hu.walFile, h.wal_eq]

/-- What a power failure may make of a store that is left alone. -/
theorem CrashOk.untouched {P : Committed → Prop} {A : Set Nat} (h : CrashOk H P path fs)
    (hu : Untouched ⟨storeNames path, A⟩ fs fs') : CrashOk H P path fs' := by
  rcases h with ⟨fm, hname, hlt, hwal, hmid⟩
  have hm := hu.files fm (Or.inl ⟨path, path_mem_storeNames path, hname⟩)
  refine ⟨fm, ?_, lt_of_lt_of_le hlt hu.nextFile, ?_, ?_⟩
  · rw [hu.names path (path_mem_storeNames path), hname]
  · intro fw hfw
    rw [hu.names _ (wal_mem_storeNames path)] at hfw
    rcases hwal fw hfw with ⟨hne, hlt'⟩
    exact ⟨hne, lt_of_lt_of_le hlt' hu.nextFile⟩
  · rw [hm.1, hu.walFile]
    exact hmid

end Known

end EmbedMind
