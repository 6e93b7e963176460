import EmbedMind.Storage.Recovery

/-!
# Crash safety of commit, checkpoint and close

The specifications of the operations of a running pager. A commit leaves, wherever
it is interrupted, the state before it or the whole transaction; a checkpoint and a
close leave the state they found.
-/

namespace EmbedMind

open Lib Lib.Assoc

section Checkpoint

variable {R : Runtime} {c : Committed} {path : Path} {p : Pager} {fs : Fs} {fm fw : Nat}
  {main log : Bytes}

/-- A checkpoint copies the log into the main file and empties it. -/
theorem wpc_checkpointInner (h : Live R.xxh c path p fs fm fw main log) :
    Wpc (Pager.checkpointInner R p).run fs
      (fun r s => ∃ p', r = .ok p' ∧ ∃ main', Live R.xxh c path p' s fm fw main' [])
      (CrashOk R.xxh (· = c) path) := by
  have ho := h.opened
  have hperm := R.hashOrder_perm p.walIndex
  have hps : p.header.pageSize = c.header.pageSize := by rw [h.header]
  unfold Pager.checkpointInner
  rw [hps]
  -- every image of the log is copied to the main file
  refine Io.wpc_seq (wpc_applyPages h.storable h.view h.mainOk _ (fun e he => hperm.subset he)
    h.mainOk ho h.log_eq h.main_eq) ?_
  rintro u s ⟨b, rfl, hb, _, hall⟩
  have hfull : MainFull R.xxh c b :=
    mainFull_of_applied hb fun e he => hall e (hperm.symm.subset he)
  have hlog : (fs.setFile fm { synced := main, current := b }).files fw = File.clean log := by
    simp [ho.ne.symm, h.log_eq]
  -- the main file is synced before the log is emptied
  refine Io.wpc_sync (ho.setFile _ _).mainHandle ?_ ?_
  · refine (ho.setFile _ _).toNamed.crashOk ?_
    rw [hlog]
    simp only [Fs.setFile_files, Function.update_self]
    exact .main rfl h.storable h.view rfl h.mainOk hb hb
  · have hsync : ((fs.setFile fm { synced := main, current := b }).files fm).sync =
        File.clean b := by
      simp [File.sync, File.clean]
    rw [hsync, Fs.setFile_setFile]
    have ho' := ho.setFile fm (File.clean b)
    unfold Wal.reset
    simp only [bind_assoc, pure_bind]
    refine wpc_emptyLog h.storable h.view hfull ho' (by simp) (by simp [ho.ne.symm, h.log_eq]) ?_
    -- what is left is a live pager with an empty log
    have hlive : Live R.xxh c path
        { p with wal := { p.wal with salt := none, len := 0 }, walIndex := [] } ((fs.setFile fm (File.clean b)).setFile fw (File.clean [])) fm fw b [] :=
      { opened := ho'.setFile _ _
        storable := h.storable
        walPath := h.walPath
        header := h.header
        pageSize := h.pageSize
        usable := h.usable
        main_eq := by simp [ho.ne]
        log_eq := by simp
        mainOk := mainOk_full h.storable.wf hfull
        view := logView_nil _ _
        agrees := Or.inl ⟨rfl, rfl, rfl, rfl⟩ }
    exact Io.wpc_pure ⟨_, rfl, b, hlive⟩ hlive.crashOk

/-- A log the pager counts as empty is empty. -/
theorem Live.log_nil (h : Live R.xxh c path p fs fm fw main log) (hlen : p.wal.len = 0) :
    log = [] := by
  rcases h.agrees with ⟨_, _, hlog, _⟩ | ⟨salt, _, hlen', hlog⟩
  · exact hlog
  · have := hlog.header_le
    simp only [WAL_HEADER_LEN] at this
    omega

/-- A checkpoint keeps the state, wherever it is interrupted, and empties the log. -/
theorem wpc_checkpoint (h : Live R.xxh c path p fs fm fw main log) :
    Wpc (Pager.checkpoint R p) fs
      (fun r s => r.2 = .ok () ∧ ∃ main', Live R.xxh c path r.1 s fm fw main' [])
      (CrashOk R.xxh (· = c) path) := by
  unfold Pager.checkpoint
  rw [if_neg (by simp [h.usable])]
  split
  · rename_i hempty
    have hlog := h.log_nil (by simpa using (Bool.and_eq_true_iff.mp hempty).2)
    subst hlog
    exact Wpc.ret ⟨rfl, main, h⟩ h.crashOk
  · refine Wpc.bind (Wpc.mono (wpc_checkpointInner h) ?_ fun _ hc => hc)
    rintro r s ⟨p', rfl, main', hlive⟩
    exact Wpc.ret ⟨rfl, main', hlive⟩ hlive.crashOk

end Checkpoint

/-! ## Commit -/

section Append

variable {H : Xxh3} {C : Fs → Prop} {path : Path} {fs : Fs} {fw : Nat} {wal : Wal}
  {salt txnId : Nat} {log sy : Bytes} {pages : List (Nat × Bytes)}

/-- The frame loop of an append: interrupted anywhere, the log file holds the old
log and a part of the transaction's frames. -/
theorem wpc_appendFrames (hh : fs.handles wal.file = some fw)
    (hsy : sy = log ∨ (sy = [] ∧ log = (generation wal.pageSize salt).encode))
    (hcrash : ∀ f, f.synced = sy → Appending H wal.pageSize salt log txnId pages f →
      C (fs.setFile fw f))
    (rest : List (Nat × Bytes)) (hrest : PagesOk wal.pageSize rest) (done : Bytes)
    (hdone : txnBytes H txnId salt pages = done ++ txnBytes H txnId salt rest) :
    Wpc (wal.appendFrames H txnId salt (log ++ done).length rest).run
      (fs.setFile fw { synced := sy, current := log ++ done })
      (fun r s => ∃ a, r = .ok a ∧
        (a = (txnOffsets wal.pageSize (log ++ done).length rest,
          (log ++ txnBytes H txnId salt pages).length) ∧
          s = fs.setFile fw { synced := sy, current := log ++ txnBytes H txnId salt pages }))
      C := by
  -- at every moment a prefix of the transaction is in the file, and one in flight
  have happ : ∀ x y (f : File), f.cut = none → f.synced = sy → f.current = log ++ x →
      f.written = log ++ y → x <+: txnBytes H txnId salt pages →
      y <+: txnBytes H txnId salt pages → Appending H wal.pageSize salt log txnId pages f := by
    intro x y f h1 h2 h3 h4 h5 h6
    refine ⟨h1, h2 ▸ hsy, Or.inl (h3 ▸ List.prefix_append _ _), ?_, h4 ▸ List.prefix_append _ _, ?_⟩
    · rw [h3]
      exact (List.prefix_append_right_inj _).mpr h5
    · rw [h4]
      exact (List.prefix_append_right_inj _).mpr h6
  induction rest generalizing done with
  | nil =>
      simp only [txnBytes, List.append_nil] at hdone
      subst hdone
      refine Io.wpc_pure ⟨_, rfl, rfl, rfl⟩ (hcrash _ rfl ?_)
      exact happ _ _ _ rfl rfl rfl rfl List.prefix_rfl List.prefix_rfl
  | cons page rest ih =>
      have hlen := (hrest page List.mem_cons_self).2
      -- the next frame continues what is done
      have hframe : txnBytes H txnId salt pages =
          (done ++ Wal.frameBytes H txnId salt rest.isEmpty page) ++
            txnBytes H txnId salt rest := by
        rw [hdone, txnBytes, List.append_assoc]
      have hpre1 : done <+: txnBytes H txnId salt pages := hdone ▸ List.prefix_append _ _
      have hpre2 : done ++ Wal.frameBytes H txnId salt rest.isEmpty page <+:
          txnBytes H txnId salt pages := hframe ▸ List.prefix_append _ _
      have hpatch : patch (log ++ done) (log ++ done).length
          (Wal.frameBytes H txnId salt rest.isEmpty page) =
          log ++ (done ++ Wal.frameBytes H txnId salt rest.isEmpty page) := by
        rw [patch_at_end, List.append_assoc]
      -- before, inside and behind the write of the frame
      simp only [Wal.appendFrames]
      rw [if_neg (by simp [hlen])]
      refine Io.wpc_writeAt (f := fw) hh ?_ ?_ ?_
      · exact hcrash _ rfl (happ _ _ _ rfl rfl rfl rfl hpre1 hpre1)
      · rw [Fs.setFile_setFile]
        refine hcrash _ (by simp) (happ done (done ++ Wal.frameBytes H txnId salt rest.isEmpty page)
          _ (by simp) (by simp) (by simp) ?_ hpre1 hpre2)
        simp only [Fs.setFile_files, Function.update_self, File.written]
        exact hpatch
      -- the frames that are left follow by induction
      · have hwrite : ((fs.setFile fw { synced := sy, current := log ++ done }).files fw).write
            (log ++ done).length (Wal.frameBytes H txnId salt rest.isEmpty page) =
            { synced := sy,
              current := log ++ (done ++ Wal.frameBytes H txnId salt rest.isEmpty page) } := by
          simp only [Fs.setFile_files, Function.update_self, File.write, hpatch]
        rw [hwrite, Fs.setFile_setFile]
        have hnext := ih (fun q hq => hrest q (List.mem_cons_of_mem _ hq)) _ hframe
        have hoff : (log ++ (done ++ Wal.frameBytes H txnId salt rest.isEmpty page)).length =
            (log ++ done).length + (WAL_FRAME_HEADER_LEN + wal.pageSize) := by
          simp only [List.length_append, frameBytes_length, hlen]
          omega
        have hoff' : (log ++ done).length +
            (Wal.frameBytes H txnId salt rest.isEmpty page).length =
            (log ++ (done ++ Wal.frameBytes H txnId salt rest.isEmpty page)).length := by
          simp only [List.length_append]
          omega
        rw [hoff']
        refine Io.wpc_seq hnext ?_
        rintro a s ⟨rfl, rfl⟩
        refine Io.wpc_pure ⟨_, rfl, ?_, rfl⟩ (hcrash _ rfl ?_)
        · rw [hoff]
          rfl
        · exact happ _ _ _ rfl rfl rfl rfl List.prefix_rfl List.prefix_rfl

/-- Where the frames of the next transaction go. -/
def Wal.start (wal : Wal) : Nat :=
  match wal.salt with
  | some _ => wal.len
  | none => WAL_HEADER_LEN

/-- An append behind a log that is durable, or at the start of a generation. -/
theorem wpc_appendTxn (newSalt : UInt64) (txnId : Nat) {c : Committed} {p : Pager} {fm : Nat} {main log : Bytes}
    (h : Live H c path p fs fm fw main log) (hpages : PagesOk p.wal.pageSize pages)
    (hcrash : ∀ base salt f, LogOk H p.wal.pageSize salt base p.walIndex →
      LogView H c base p.walIndex → (f.synced = [] → p.walIndex = []) →
      Appending H p.wal.pageSize salt base txnId pages f → C (fs.setFile fw f))
    (hstart : C fs)
    (hend : ∀ base salt, LogOk H p.wal.pageSize salt base p.walIndex →
      LogView H c base p.walIndex →
      C (fs.setFile fw (File.clean (base ++ txnBytes H txnId salt pages)))) :
    Wpc (p.wal.appendTxn H newSalt txnId pages).run fs
      (fun r s => ∃ a, r = .ok a ∧ ∃ base salt, LogOk H p.wal.pageSize salt base p.walIndex ∧
        LogView H c base p.walIndex ∧ base.length = p.wal.start ∧
        a = (txnOffsets p.wal.pageSize base.length pages,
          { p.wal with salt := some salt, len := (base ++ txnBytes H txnId salt pages).length }) ∧
        s = fs.setFile fw (File.clean (base ++ txnBytes H txnId salt pages)))
      C := by
  have hh := h.opened.walHandle
  -- the frames and the sync, once the log starts with `base`
  have hmain : ∀ base salt sy, LogOk H p.wal.pageSize salt base p.walIndex →
      LogView H c base p.walIndex → base.length = p.wal.start → (sy = [] → p.walIndex = []) →
      (sy = base ∨ (sy = [] ∧ base = (generation p.wal.pageSize salt).encode)) →
      Wpc (do
        let r ← p.wal.appendFrames H txnId salt base.length pages
        Io.sync p.wal.file
        pure (r.1, { p.wal with salt := some salt, len := r.2 }) :
          Io (List (Nat × Nat) × Wal)).run (fs.setFile fw { synced := sy, current := base })
        (fun r s => ∃ a, r = .ok a ∧ ∃ base salt, LogOk H p.wal.pageSize salt base p.walIndex ∧
          LogView H c base p.walIndex ∧ base.length = p.wal.start ∧
          a = (txnOffsets p.wal.pageSize base.length pages,
            { p.wal with salt := some salt, len := (base ++ txnBytes H txnId salt pages).length }) ∧
          s = fs.setFile fw (File.clean (base ++ txnBytes H txnId salt pages)))
        C := by
    intro base salt sy hlog hview hbase hnil hsy
    have hc : ∀ f : File, f.synced = sy → Appending H p.wal.pageSize salt base txnId pages f →
        C (fs.setFile fw f) := by
      intro f hf happ
      exact hcrash base salt f hlog hview (fun h0 => hnil (hf ▸ h0)) happ
    have hframes := wpc_appendFrames hh hsy hc pages hpages [] rfl
    rw [List.append_nil] at hframes
    refine Io.wpc_seq hframes ?_
    rintro a s ⟨rfl, rfl⟩
    refine Io.wpc_sync (f := fw) hh (hc _ rfl ?_) ?_
    · refine ⟨rfl, hsy, Or.inl (List.prefix_append _ _), List.prefix_rfl,
        List.prefix_append _ _, List.prefix_rfl⟩
    · have hsync : ((fs.setFile fw
          { synced := sy, current := base ++ txnBytes H txnId salt pages }).files fw).sync =
          File.clean (base ++ txnBytes H txnId salt pages) := by
        simp [File.sync, File.clean]
      rw [hsync, Fs.setFile_setFile]
      exact Io.wpc_pure ⟨_, rfl, base, salt, hlog, hview, hbase, rfl, rfl⟩ (hend base salt hlog hview)
  unfold Wal.appendTxn
  rcases h.agrees with ⟨hsalt, hlen, hlog, hindex⟩ | ⟨salt, hsalt, hlen, hlog⟩
  · -- a new generation: the header is written first, and is not synced on its own
    have hps : pageSizeIsValid p.wal.pageSize = true := h.pageSize ▸ h.storable.wf.header.pageSize
    have hbase : LogOk H p.wal.pageSize newSalt.toNat
        (generation p.wal.pageSize newSalt.toNat).encode p.walIndex :=
      hindex ▸ logOk_header hps newSalt.toNat_lt
    have hview : LogView H c (generation p.wal.pageSize newSalt.toNat).encode p.walIndex := by
      refine ⟨Or.inl ?_, hbase.sorted, by simp [hindex], ?_⟩
      · rw [hbase.scan, h.pageSize]
      · exact fun hne => absurd (logTxns_header hps newSalt.toNat_lt) hne
    have hfile : fs.files fw = File.clean [] := by rw [h.log_eq, hlog]
    rw [hsalt]
    refine Io.wpc_writeAt (f := fw) hh hstart ?_ ?_
    · refine hcrash _ _ _ hbase hview (fun _ => hindex) ?_
      rw [hfile]
      have hwr : patch [] 0 (generation p.wal.pageSize newSalt.toNat).encode =
          (generation p.wal.pageSize newSalt.toNat).encode := patch_at_end [] _
      refine ⟨rfl, Or.inr ⟨rfl, rfl⟩, Or.inr ⟨rfl, rfl, hwr⟩, List.nil_prefix, ?_, ?_⟩
      · show _ <+: patch [] 0 (generation p.wal.pageSize newSalt.toNat).encode
        rw [hwr]
      · show patch [] 0 (generation p.wal.pageSize newSalt.toNat).encode <+: _
        rw [hwr]
        exact List.prefix_append _ _
    · have hwrite : (fs.files fw).write 0
          (generation p.wal.pageSize newSalt.toNat).encode =
          { synced := [], current := (generation p.wal.pageSize newSalt.toNat).encode } := by
        rw [hfile]
        simp only [File.write, File.clean]
        rw [show (0 : Nat) = ([] : Bytes).length from rfl, patch_at_end, List.nil_append]
      have hat : (generation p.wal.pageSize newSalt.toNat).encode.length = p.wal.start := by
        simp [Wal.start, hsalt]
      have hgo := hmain _ newSalt.toNat [] hbase hview hat (fun _ => hindex) (Or.inr ⟨rfl, rfl⟩)
      rw [WalHeader.encode_length, ← hwrite] at hgo
      exact hgo
  · have hview : LogView H c log p.walIndex := h.view
    rw [hsalt, hlen]
    have hne : log ≠ [] := by
      intro h0
      have := hlog.header_le
      rw [h0] at this
      simp [WAL_HEADER_LEN] at this
    have hat : log.length = p.wal.start := by
      simp [Wal.start, hsalt, hlen]
    have hgo := hmain log salt log hlog hview hat (fun h0 => absurd h0 hne) (Or.inl rfl)
    have hsame : fs.setFile fw { synced := log, current := log } = fs := by
      have : fs.files fw = { synced := log, current := log } := h.log_eq
      rw [← this]
      simp [Fs.setFile]
    rw [hsame] at hgo
    exact hgo

end Append

section Commit

variable {R : Runtime} {c : Committed} {path : Path} {p : Pager} {fs : Fs} {fm fw : Nat}
  {main log : Bytes} {t : Txn}

/-- The frames of a transaction can be logged. -/
theorem Txn.Wf.pagesOk {H : Xxh3} (h : t.Wf H) : PagesOk t.pageSize (t.frames H) := by
  intro page hp
  obtain ⟨h1, h2⟩ := h.frames_ok hp
  exact ⟨lt_trans h1 h.bound, h2⟩

/-- The state a transaction commits to can be stored. -/
theorem storable_commit {H : Xxh3} (ht : t.Wf H) (hne : t.isEmpty = false)
    (hfits : t.pageCount * t.pageSize ≤ 2 ^ 64) : Storable H t.commit := by
  refine ⟨ht.commit, ?_⟩
  rw [Txn.commit_header hne]
  exact hfits

/-- A page without an offset was not logged. -/
theorem not_mem_of_txnOffsets {ps off n : Nat} {pages : List (Nat × Bytes)}
    (h : ∀ o ∈ txnOffsets ps off pages, o.1 ≠ n) : ∀ page ∈ pages, page.1 ≠ n := by
  intro page hp heq
  have hmem : page.1 ∈ (txnOffsets ps off pages).map Prod.fst :=
    txnOffsets_keys ps off pages ▸ List.mem_map_of_mem hp
  obtain ⟨o, ho, h1⟩ := List.mem_map.mp hmem
  exact h o ho (h1.trans heq)

/-- The images that the log holds once the transaction is appended. -/
theorem images_commit {H : Xxh3} (ht : t.Wf H) (hne : t.isEmpty = false) {salt : Nat}
    {base : Bytes} {index : List (Nat × Nat)} (hlog : LogOk H t.pageSize salt base index)
    (hview : LogView H t.base base index) (txnId : Nat) :
    ∀ e ∈ extend index (txnOffsets t.pageSize base.length (t.frames H)), e.1 < t.commit.header.pageCount ∧
      slice (base ++ txnBytes H txnId salt (t.frames H)) e.2 t.commit.header.pageSize =
        some (t.commit.image H e.1) := by
  have hsorted : Sorted (extend index (txnOffsets t.pageSize base.length (t.frames H))) := sorted_extend hlog.sorted
  have hkeys := txnOffsets_keys t.pageSize base.length (t.frames H)
  have hheader : t.commit.header.pageSize = t.pageSize ∧ t.commit.header.pageCount = t.pageCount := by
    rw [Txn.commit_header hne]
    exact ⟨rfl, rfl⟩
  intro e he
  rw [hheader.1, hheader.2]
  have hfind := find_of_mem hsorted.nodup_keys (k := e.1) (v := e.2) he
  by_cases hmem : ∃ o ∈ txnOffsets t.pageSize base.length (t.frames H), o.1 = e.1
  · -- the page was logged by this transaction: its image is the new one
    obtain ⟨o, ho, heq⟩ := hmem
    have hnew := find_extend_of_mem (m := index) (hkeys ▸ ht.frames_nodup)
      (k := o.1) (v := o.2) ho
    rw [heq, hfind] at hnew
    have hoff : o.2 = e.2 := (Option.some.inj hnew).symm
    have hat : HasAt (base ++ txnBytes H txnId salt (t.frames H)) base.length
        (txnBytes H txnId salt (t.frames H)) := by
      simpa using hasAt_self base (txnBytes H txnId salt (t.frames H)) []
    obtain ⟨image, himg, hs⟩ := slice_txnOffsets ht.pagesOk hat ho
    rw [← heq, ← hoff]
    exact ⟨(ht.frames_ok himg).1, by rw [hs, ht.commit_image_of_mem hne himg]⟩
  · -- an older transaction logged it
    have hold : ∀ o ∈ txnOffsets t.pageSize base.length (t.frames H), o.1 ≠ e.1 :=
      fun o ho heq => hmem ⟨o, ho, heq⟩
    rw [find_extend_of_not_mem hold] at hfind
    obtain ⟨hlt, hs⟩ := hview.images e (mem_of_find hfind)
    have hlt' : e.1 < t.pageCount := lt_of_lt_of_le hlt ht.grows
    refine ⟨hlt', ?_⟩
    rw [(ht.commit_image_of_not_mem hne (not_mem_of_txnOffsets hold) hlt').2]
    exact (slice_append_left (slice_eq_some.mp hs).1).trans hs

/-- The log with the transaction appended, as seen from the state it commits to. -/
theorem logView_commit {H : Xxh3} (ht : t.Wf H) (hne : t.isEmpty = false) {salt : Nat}
    {base : Bytes} {index : List (Nat × Nat)} (hlog : LogOk H t.pageSize salt base index)
    (hview : LogView H t.base base index) {txnId : Nat} (htxn : txnId < 2 ^ 64) :
    LogView H t.commit (base ++ txnBytes H txnId salt (t.frames H))
      (extend index (txnOffsets t.pageSize base.length (t.frames H))) := by
  have hps : t.commit.header.pageSize = t.pageSize := by
    rw [Txn.commit_header hne]
    rfl
  have happ := hlog.append htxn (by simp [Txn.frames]) ht.pagesOk
  have himages := images_commit ht hne hlog hview txnId
  refine ⟨Or.inl ?_, happ.sorted, himages, ?_⟩
  · rw [happ.scan, hps]
  · intro _
    rw [hlog.txns_append htxn (by simp [Txn.frames]) ht.pagesOk]
    have hzero : 0 ∈ (txnOffsets t.pageSize base.length (t.frames H)).map Prod.fst := by
      rw [txnOffsets_keys]
      simp [Txn.frames]
    obtain ⟨o, ho, h0⟩ := List.mem_map.mp hzero
    have hfind := find_extend_of_mem (m := index) (txnOffsets_keys t.pageSize base.length _ ▸ ht.frames_nodup)
      (k := o.1) (v := o.2) ho
    -- replaying the whole log gives the pages after the commit
    have hholds : Holds H (base ++ txnBytes H txnId salt (t.frames H)) (logTxns H base ++
        [((base ++ txnBytes H txnId salt (t.frames H)).length, txnOffsets t.pageSize base.length (t.frames H))])
        t.commit := by
      refine ⟨ht.commit, ?_, ?_⟩ <;> rw [replay_append, ← hlog.index_eq]
      · exact himages
      · exact ⟨(o.1, o.2), mem_of_find hfind, h0⟩
    -- it is the first state of the log, or the next one
    by_cases hnil : logTxns H base = []
    · rw [hnil] at hholds ⊢
      exact .first hholds
    · have hold := (hview.chain hnil).mono (w := base ++ txnBytes H txnId salt (t.frames H))
        fun _ _ _ _ _ hs => (slice_append_left (slice_eq_some.mp hs).1).trans hs
      refine .next hold hps ?_ ?_ hholds
      · rw [Txn.commit_header hne]
        exact ht.grows
      · rw [Txn.commit_header hne]
        rfl

/-- The main file, which the commit has not touched, as seen from the new state. -/
theorem mainOk_commit {H : Xxh3} (ht : t.Wf H) (hne : t.isEmpty = false) {off : Nat}
    {index : List (Nat × Nat)} (hmain : MainOk H t.base index main) :
    MainOk H t.commit (extend index (txnOffsets t.pageSize off (t.frames H))) main := by
  have hps : t.commit.header.pageSize = t.base.header.pageSize := by
    rw [Txn.commit_header hne]
    rfl
  refine ⟨hps ▸ hmain.peek, ?_⟩
  intro n hn hf
  rw [Txn.commit_header hne] at hn
  obtain ⟨hindex, hnot⟩ := find_extend_eq_none.mp hf
  obtain ⟨hlt, himg⟩ := ht.commit_image_of_not_mem hne (not_mem_of_txnOffsets hnot) hn
  rw [hps, himg]
  exact hmain.pages n hlt hindex

/-- The pager of `p` once the transaction is in the log. -/
def Pager.appended (p : Pager) (newHeader : Header) (offsets : List (Nat × Nat)) (wal : Wal) : Pager :=
  { p with header := newHeader, wal, walIndex := extend p.walIndex offsets }

/-- The append of a commit: once it is synced, the log shows the new state. No part of
the log is cut off on the way. -/
theorem wpc_commitAppend (h : Live R.xxh t.base path p fs fm fw main log) (ht : t.Wf R.xxh)
    (hne : t.isEmpty = false) (hfits : t.pageCount * t.pageSize ≤ 2 ^ 64) (newSalt : UInt64) :
    Wpc (p.wal.appendTxn R.xxh newSalt t.newHeader.txnCounter (t.frames R.xxh)).run fs
      (fun r s => ∃ offsets wal, r = .ok (offsets, wal) ∧
        wal.len = p.wal.start + (t.frames R.xxh).length * (WAL_FRAME_HEADER_LEN + t.pageSize) ∧
        ∃ log', Live R.xxh t.commit path (p.appended t.newHeader offsets wal) s fm fw main log')
      (fun s => CrashOk R.xxh (fun x => x = t.base ∨ x = t.commit) path s ∧ (walFile path s).cut = none) := by
  have hold : CrashOk R.xxh (fun x => x = t.base ∨ x = t.commit) path fs ∧ (walFile path fs).cut = none :=
    ⟨h.crashOk.mono fun _ hx => Or.inl hx, h.walFile_cut⟩
  have hwf : t.newHeader.Wf := ht.pending.apply ht.base.header ht.pageCount_pos ht.bound
  have hstore := storable_commit ht hne hfits
  have hpages : PagesOk p.wal.pageSize (t.frames R.xxh) := h.pageSize ▸ ht.pagesOk
  have htxn : t.newHeader.txnCounter < 2 ^ 64 := hwf.txnCounter
  -- once the whole transaction is in the log the store is the one after the commit
  have hnew : ∀ base salt, LogOk R.xxh p.wal.pageSize salt base p.walIndex →
      LogView R.xxh t.base base p.walIndex →
      Live R.xxh t.commit path
        (p.appended t.newHeader (txnOffsets p.wal.pageSize base.length (t.frames R.xxh))
          { p.wal with
            salt := some salt
            len := (base ++ txnBytes R.xxh t.newHeader.txnCounter salt (t.frames R.xxh)).length })
        (fs.setFile fw (File.clean
          (base ++ txnBytes R.xxh t.newHeader.txnCounter salt (t.frames R.xxh)))) fm fw main
        (base ++ txnBytes R.xxh t.newHeader.txnCounter salt (t.frames R.xxh)) := by
    intro base salt hlog hview
    exact
      { opened := h.opened.setFile _ _
        storable := hstore
        walPath := h.walPath
        header := (Txn.commit_header hne).symm
        pageSize := by rw [Txn.commit_header hne]; exact h.pageSize
        usable := h.usable
        main_eq := by simp [h.opened.ne, h.main_eq]
        log_eq := by simp
        mainOk := by
          show MainOk _ _ (extend p.walIndex _) _
          rw [h.pageSize]
          exact mainOk_commit ht hne h.mainOk
        view := by
          show LogView _ _ _ (extend p.walIndex _)
          rw [h.pageSize] at hlog ⊢
          exact logView_commit ht hne hlog hview htxn
        agrees := Or.inr ⟨salt, rfl, rfl, hlog.append htxn (by simp [Txn.frames]) hpages⟩ }
  refine Wpc.mono (wpc_appendTxn newSalt t.newHeader.txnCounter h hpages ?_ hold
    fun base salt hlog hview => ⟨(hnew base salt hlog hview).crashOk.mono fun _ hx => Or.inr hx,
      (hnew base salt hlog hview).walFile_cut⟩) ?_ fun _ hc => hc
  -- while it is being appended, recovery takes all of it or nothing
  · intro base salt f hlog hview hnil happ
    refine ⟨(h.opened.setFile _ _).toNamed.crashOk ?_, ?_⟩
    swap
    · rw [(h.opened.setFile _ _).toNamed.walFile_eq, Fs.setFile_files, Function.update_self]
      exact happ.cut
    simp only [Fs.setFile_files, Function.update_self, Function.update_of_ne h.opened.ne, h.main_eq]
    have hlog' := hlog
    rw [h.pageSize] at hlog' happ
    exact .append (Or.inl rfl) (Or.inr rfl) happ hlog' htxn ht.pagesOk hnil rfl
      (by rw [Txn.commit_header hne]; rfl) h.storable hstore hview h.mainOk rfl
      (logView_commit ht hne hlog' hview htxn) (mainOk_commit ht hne h.mainOk)
  · rintro r s ⟨a, rfl, base, salt, hlog, hview, hbase, rfl, rfl⟩
    refine ⟨_, _, rfl, ?_, _, hnew base salt hlog hview⟩
    rw [List.length_append, txnBytes_length hpages, hbase, h.pageSize]
    rfl

/-- The part of a commit behind the append: the pager checkpoints if the log has grown
over the threshold. -/
def Pager.afterAppend (R : Runtime) (p : Pager) : Prog vfs (Pager × Except Error Nat) :=
  if p.checkpointThreshold ≤ p.wal.len then
    (p.checkpoint R).bind fun (p', result) => .ret (p', result.map fun _ => p.header.txnCounter)
  else .ret (p, .ok p.header.txnCounter)

/-- What follows an append keeps the state. -/
theorem wpc_afterAppend (h : Live R.xxh c path p fs fm fw main log) :
    Wpc (p.afterAppend R) fs
      (fun r s => r.2 = .ok c.header.txnCounter ∧ ∃ main' log', Live R.xxh c path r.1 s fm fw main' log')
      (CrashOk R.xxh (· = c) path) := by
  unfold Pager.afterAppend
  rw [h.header]
  split
  · refine Wpc.bind (Wpc.mono (wpc_checkpoint h) ?_ fun _ hc => hc)
    rintro ⟨p', result⟩ s ⟨hres, main', hl⟩
    simp only at hres
    subst hres
    exact Wpc.ret ⟨rfl, main', [], hl⟩ hl.crashOk
  · exact Wpc.ret ⟨rfl, main, log, h⟩ h.crashOk

/-- A commit succeeds and shows the new state; an interrupted one leaves the state
before it or the whole transaction. -/
theorem wpc_commitTxn (h : Live R.xxh t.base path p fs fm fw main log) (ht : t.Wf R.xxh)
    (hfits : t.pageCount * t.pageSize ≤ 2 ^ 64) (newSalt : UInt64) :
    Wpc (p.commitTxn R newSalt t.dirty t.pageCount t.pending) fs
      (fun r s => r.2 = .ok t.commit.header.txnCounter ∧
        ∃ main' log', Live R.xxh t.commit path r.1 s fm fw main' log')
      (CrashOk R.xxh (fun x => x = t.base ∨ x = t.commit) path) := by
  unfold Pager.commitTxn
  rw [if_neg (by simp [h.usable]), h.header]
  by_cases hempty : t.isEmpty = true
  · rw [if_pos (show (t.dirty.isEmpty && t.pageCount == t.base.header.pageCount &&
      t.pending.isEmpty) = true from hempty), Txn.commit_of_isEmpty hempty]
    exact Wpc.ret ⟨rfl, main, log, h⟩ (h.crashOk.mono fun _ hx => Or.inl hx)
  · have hne : t.isEmpty = false := by simpa using hempty
    rw [if_neg (show ¬ (t.dirty.isEmpty && t.pageCount == t.base.header.pageCount &&
      t.pending.isEmpty) = true from hempty)]
    have hwf : t.newHeader.Wf := ht.pending.apply ht.base.header ht.pageCount_pos ht.bound
    have hencode : (t.pending.apply t.base.header t.pageCount).encode R.xxh t.base.header.pageSize =
        .ok (t.newHeader.image R.xxh) := Header.encode_eq_ok hwf
    dsimp only
    rw [hencode]
    refine Wpc.bind (Wpc.mono (wpc_commitAppend h ht hne hfits newSalt) ?_ fun _ hc => hc.1)
    rintro r s ⟨offsets, wal, rfl, _, log', hlive⟩
    exact (wpc_afterAppend hlive).mono (fun _ _ hq => hq) fun _ hc => hc.mono fun _ hx => Or.inr hx

end Commit

/-! ## Close and drop -/

section Close

variable {R : Runtime} {c : Committed} {path : Path} {p : Pager} {fs : Fs} {fm fw : Nat}
  {main log : Bytes}

/-- With an empty log the main file is complete. -/
theorem Live.mainFull (h : Live R.xxh c path p fs fm fw main []) : MainFull R.xxh c main := by
  have hindex : p.walIndex = [] := by
    rcases h.agrees with ⟨_, _, _, hi⟩ | ⟨salt, _, _, hlog⟩
    · exact hi
    · have := hlog.header_le
      simp [WAL_HEADER_LEN] at this
  intro n hn
  exact h.mainOk.pages n hn (by simp [hindex])

/-- Dropping a handle keeps names and files. -/
theorem Fs.exec_close (fs : Fs) (h : Nat) :
    (Fs.exec fs (.close h)).1.names = fs.names ∧ (Fs.exec fs (.close h)).1.files = fs.files ∧
      (Fs.exec fs (.close h)).1.nextFile = fs.nextFile := by
  simp only [Fs.exec]
  split <;> exact ⟨rfl, rfl, rfl⟩

/-- Dropping a handle keeps the files. -/
theorem CrashOk.close {H : Xxh3} {P : Committed → Prop} (hc : CrashOk H P path fs) (h : Nat) :
    CrashOk H P path (Fs.exec fs (.close h)).1 := by
  obtain ⟨h1, h2, h3⟩ := Fs.exec_close fs h
  exact hc.congr h1 h2 h3

/-- Dropping a handle releases its own lock. -/
theorem Fs.exec_close_locks (fs : Fs) {h f : Nat} (hh : fs.handles h = some f) :
    (Fs.exec fs (.close h)).1.locks =
      if fs.locks f = some h then Function.update fs.locks f none else fs.locks := by
  simp [Fs.exec, hh]

/-- Dropping a handle leaves the other handles. -/
theorem Fs.exec_close_handles {h h' f : Nat} (hne : h' ≠ h) (hh : fs.handles h' = some f) :
    (Fs.exec fs (.close h)).1.handles h' = some f := by
  simp only [Fs.exec]
  split
  · exact hh
  · simp [hne, hh]

/-- An open store over two durable files that give the state `c`, once both handles are gone. -/
theorem Opened.atRest {H : Xxh3} {hm hw : Nat} (ho : Opened path hm hw fm fw fs)
    (hmain : fs.files fm = File.clean main) (hwal : fs.files fw = File.clean log)
    (hr : Recoverable H c main log) :
    AtRest H c path (Fs.exec (Fs.exec fs (.close hm)).1 (.close hw)).1 fm main log := by
  have hclose := Fs.exec_close fs hm
  have hclose' := Fs.exec_close (Fs.exec fs (.close hm)).1 hw
  have hwh := Fs.exec_close_handles ho.handles_ne.symm ho.walHandle
  have hlocks : (Fs.exec (Fs.exec fs (.close hm)).1 (.close hw)).1.locks fm = none := by
    rw [Fs.exec_close_locks _ hwh, Fs.exec_close_locks _ ho.mainHandle, if_pos ho.lock]
    split
    · rw [Function.update_of_ne ho.ne, Function.update_self]
    · rw [Function.update_self]
  have hlog : walFile path (Fs.exec (Fs.exec fs (.close hm)).1 (.close hw)).1 = walFile path fs := by
    simp only [walFile, hclose'.1, hclose.1, hclose'.2.1, hclose.2.1]
  refine ⟨?_, ?_, ?_, hlocks, ?_, ?_, hr⟩
  · rw [hclose'.1, hclose.1, ho.main]
  · rw [hclose'.2.2, hclose.2.2]
    exact ho.main_lt
  · rw [hclose'.1, hclose.1, hclose'.2.2, hclose.2.2]
    intro f hf
    rw [ho.wal] at hf
    cases hf
    exact ⟨ho.ne.symm, ho.wal_lt⟩
  · rw [hclose'.2.1, hclose.2.1, hmain]
  · rw [hlog, ho.toNamed.walFile_eq, hwal]

/-- Dropping a pager, with or without a transaction open, leaves the state at rest. -/
theorem wpc_drop (h : Live R.xxh c path p fs fm fw main log) :
    Wpc p.drop.run fs (fun r s => ∃ u, r = .ok u ∧ AtRest R.xxh c path s fm main log)
      (CrashOk R.xxh (· = c) path) := by
  unfold Pager.drop
  rw [← bind_pure (Io.close p.wal.file)]
  exact Io.wpc_close h.crashOk (Io.wpc_close (h.crashOk.close _) (Io.wpc_pure
    ⟨(), rfl, h.opened.atRest h.main_eq h.log_eq ⟨h.storable, p.walIndex, h.view, h.mainOk⟩⟩
    ((h.crashOk.close _).close _)))

/-- Closing keeps the state and leaves it in the main file alone. -/
theorem wpc_close (h : Live R.xxh c path p fs fm fw main log) :
    Wpc (Pager.close R p).run fs
      (fun r s => ∃ u, r = .ok u ∧ ∃ main', AtRest R.xxh c path s fm main' [])
      (CrashOk R.xxh (· = c) path) := by
  unfold Pager.close
  refine Wpc.bind (Wpc.mono (wpc_checkpoint h) ?_ fun _ hc => hc)
  rintro ⟨p, result⟩ s ⟨hres, main', hlive⟩
  simp only at hres
  subst hres
  have ho : Opened path p.main p.wal.file fm fw s := hlive.opened
  have hclose := Fs.exec_close s p.wal.file
  have hcrash := hlive.crashOk.close p.wal.file
  have hmh := Fs.exec_close_handles ho.handles_ne ho.mainHandle
  have hlock : (Fs.exec s (.close p.wal.file)).1.locks fm = some p.main := by
    rw [Fs.exec_close_locks _ ho.walHandle]
    split
    · rw [Function.update_of_ne ho.ne, ho.lock]
    · exact ho.lock
  refine Io.wpc_close hlive.crashOk ?_
  generalize hs1 : (Fs.exec s (.close p.wal.file)).1 = s1 at *
  -- the log's name is gone: the main file is complete
  have hrest : ∀ t, t.names = Function.update s.names (walPathFor path) none →
      t.files = s.files → t.nextFile = s.nextFile → t.locks fm = none →
      AtRest R.xxh c path t fm main' [] := by
    intro t hn hf hx hl
    refine ⟨?_, hx ▸ ho.main_lt, ?_, hl, ?_, ?_, ?_⟩
    · rw [hn, Function.update_of_ne (walPathFor_ne path).symm, ho.main]
    · intro fw' hfw
      rw [hn, Function.update_self] at hfw
      cases hfw
    · rw [hf, hlive.main_eq]
    · simp only [walFile, hn, Function.update_self]
      rfl
    · exact ⟨hlive.storable, [], logView_nil _ _, mainOk_full hlive.storable.wf hlive.mainFull⟩
  have hnames : (s1.unlink (walPathFor path)).names =
      Function.update s.names (walPathFor path) none := by
    simp only [Fs.unlink, hclose.1]
  have hdeleted : CrashOk R.xxh (· = c) path (s1.unlink (walPathFor path)) :=
    CrashOk.congr (hrest { s1.unlink (walPathFor path) with locks := fun _ => none } hnames
      hclose.2.1 hclose.2.2 rfl).crashOk rfl rfl rfl
  refine Io.wpc_owning (R := fun _ t => t = s1.unlink (walPathFor path)) ?_ ?_
  · refine Io.wpc_fileExists ?_
    rw [hlive.walPath, hclose.1, ho.wal]
    simp only [Option.isSome_some, if_true]
    rw [← bind_pure (Io.delete _)]
    exact Io.wpc_delete (f := fw) (by rw [hclose.1]; exact ho.wal) hcrash
      (Io.wpc_pure ⟨(), rfl, rfl⟩ hdeleted)
  · rintro u t rfl
    have hclose2 := Fs.exec_close (s1.unlink (walPathFor path)) p.main
    have hlocks := Fs.exec_close_locks (s1.unlink (walPathFor path)) hmh
    rw [← bind_pure (Io.close p.main)]
    refine Io.wpc_close hdeleted (Io.wpc_pure ⟨(), rfl, main', hrest _ ?_ ?_ ?_ ?_⟩
      (hdeleted.close _))
    · rw [hclose2.1, hnames]
    · rw [hclose2.2.1]
      exact hclose.2.1
    · rw [hclose2.2.2]
      exact hclose.2.2
    · rw [hlocks, if_pos (show (s1.unlink (walPathFor path)).locks fm = some p.main from hlock),
        Function.update_self]

end Close

end EmbedMind
