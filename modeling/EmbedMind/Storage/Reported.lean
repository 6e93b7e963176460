import EmbedMind.Storage.FailStop

/-!
# What a commit reports

A commit can return an error for a transaction that is on disk, at two points. The sync at
the end of the append may fail when every frame is in the log
(`appendTxn_fails_written`), and the checkpoint behind the append may fail
(`Pager.afterAppend`, the part of `Pager.commitTxn` behind the point where the transaction
is durable). `append_reported_iff` says when the second cannot happen, and
`commit_durable_iff_ok` when neither can: what its callers are told is then what has
happened (`Pager.Reports`). The calls of a store that write end with a commit and pass its
error on, see `Store/Retry.lean`.
-/

namespace EmbedMind

open Lib Lib.Assoc

/-- A run of a commit in which the append returned `Ok`, with the number of calls that
failed: the transaction is synced, whatever follows. -/
inductive Pager.Appends (R : Runtime) (p : Pager) (salt : UInt64) (dirty : List (Nat × Bytes)) (count : Nat)
    (pending : PendingHeader) : Fs → Nat → Fs → Pager × Except Error Nat → Prop where
  | mk {fs fs₁ fs' : Fs} {i j : Nat} {page0 : Bytes} {offsets : List (Nat × Nat)} {wal : Wal}
      {r : Pager × Except Error Nat} : p.broken = false →
      (dirty.isEmpty && count == p.header.pageCount && pending.isEmpty) = false →
      (pending.apply p.header count).encode R.xxh p.header.pageSize = .ok page0 →
      Prog.Runs (Fs.fails R) (p.wal.appendTxn R.xxh salt (pending.apply p.header count).txnCounter
        (dirty ++ [(0, page0)])).run fs i fs₁ (.ok (offsets, wal)) →
      Prog.Runs (Fs.fails R) ((p.appended (pending.apply p.header count) offsets wal).afterAppend R) fs₁ j fs' r →
      Appends R p salt dirty count pending fs (i + j) fs' r

section Durable

variable {R : Runtime} {path : Path} {fs fs' : Fs} {e : Expected} {p p' : Pager} {t : Txn} {salt : UInt64}

/-- A commit whose append succeeded is a commit. -/
theorem Pager.Appends.runs {dirty : List (Nat × Bytes)} {count : Nat} {pending : PendingHeader} {k : Nat}
    {r : Pager × Except Error Nat} (h : p.Appends R salt dirty count pending fs k fs' r) :
    Prog.Runs (Fs.fails R) (p.commitTxn R salt dirty count pending) fs k fs' r := by
  cases h with
  | mk husable hne hpage0 happend hafter =>
      rw [commitTxn_eq husable hne hpage0]
      exact happend.bind hafter

/-- A run without failures of the append of a commit. -/
theorem Live.append_run {fm fw : Nat} {main log : Bytes} (hlive : Live R.xxh t.base path p fs.settled fm fw main log)
    (ht : t.Wf R.xxh) (hne : t.isEmpty = false) (hfits : t.pageCount * t.pageSize ≤ 2 ^ 64) (salt : UInt64) :
    ∃ fs₁ offsets wal log', (p.wal.appendTxn R.xxh salt t.newHeader.txnCounter (t.frames R.xxh)).run.run fs =
        (fs₁, .ok (offsets, wal)) ∧
      wal.len = p.wal.start + (t.dirty.length + 1) * (WAL_FRAME_HEADER_LEN + t.pageSize) ∧
      Live R.xxh t.commit path (p.appended t.newHeader offsets wal) fs₁.settled fm fw main log' := by
  rcases (wpc_commitAppend hlive ht hne hfits salt).1 with ⟨offsets, wal, hres, hlen, log', hnew⟩
  rcases (Fs.alike_settled fs).run (p.wal.appendTxn R.xxh salt t.newHeader.txnCounter (t.frames R.xxh)).run
    with ⟨hsame, halike⟩
  refine ⟨_, offsets, wal, log', Prod.ext rfl (hsame.trans hres), ?_, hnew.alike halike.symm⟩
  rw [hlen, Txn.frames, List.length_append]
  rfl

/-- Once the append has returned, the store holds the transaction; the commit says so
unless a call of the checkpoint fails. -/
theorem Pager.Appends.result {fm fw k : Nat} {main log : Bytes} {r : Pager × Except Error Nat}
    (hlive : Live R.xxh t.base path p fs.settled fm fw main log) (ht : t.Wf R.xxh)
    (hfits : t.pageCount * t.pageSize ≤ 2 ^ 64)
    (h : p.Appends R salt t.dirty t.pageCount t.pending fs k fs' r) :
    (k = 0 ∧ r.2 = .ok t.commit.header.txnCounter ∧
        ∃ main' log', Live R.xxh t.commit path r.1 fs'.settled fm fw main' log') ∨
      (0 < k ∧ Prog.IsError r.2 ∧
        p.checkpointThreshold ≤ p.wal.start + (t.dirty.length + 1) * (WAL_FRAME_HEADER_LEN + t.pageSize) ∧
        Stopped R.xxh t.commit path r.1 fs'.settled fm fw) := by
  cases h with
  | @mk fs₁ _ i j page0 offsets wal _ husable hne hpage0 happend hafter =>
      rcases hlive.encode ht with ⟨hheader, henc⟩
      rw [hheader] at hpage0 happend hafter
      obtain rfl := Except.ok.inj (henc.symm.trans hpage0)
      rw [hlive.header] at hne
      have happended : i = 0 := by
        rcases (steady_appendTxn _ _ _ _).stops _ _ _ _ happend with h0 | ⟨_, err, herr⟩
        · exact h0
        · cases herr
      rcases hlive.append_run ht hne hfits salt with ⟨s, offsets', wal', log', hrun, hlen, hnew⟩
      have hsame := (happend.eq_run happended).symm.trans hrun
      cases hsame
      rcases runs_cases hnew.opened (wpc_afterAppend hnew) afterAppend_ops afterAppend_ends afterAppend_stops hafter
        with ⟨hj, s', halike, hres, main', log'', hlast⟩ | ⟨hj, herr, c, rfl, hstop⟩
      · exact Or.inl ⟨by omega, hres, main', log'', hlast.alike halike⟩
      · refine Or.inr ⟨by omega, herr, ?_, hstop⟩
        -- below the threshold nothing is called that could fail
        by_contra hlow
        have hret : (p.appended t.newHeader offsets wal).afterAppend R =
            .ret (p.appended t.newHeader offsets wal, .ok t.newHeader.txnCounter) := by
          unfold Pager.afterAppend
          refine if_neg ?_
          show ¬ p.checkpointThreshold ≤ wal.len
          rw [hlen]
          exact hlow
        rw [hret] at hafter
        cases hafter
        exact absurd hj (lt_irrefl 0)

/-- The first call of a checkpoint fails. -/
theorem checkpoint_fails (R : Runtime) {p : Pager} (husable : p.broken = false) (hlen : 0 < p.wal.len) (fs : Fs) :
    ∃ fs' r, Prog.Runs (Fs.fails R) (p.checkpoint R) fs 1 fs' r := by
  have hfirst : ∃ o k, VfsOp.IsData o ∧ (p.checkpointInner R).run = .op o k ∧
      ∃ r, Fs.fails R fs o fs r := by
    unfold Pager.checkpointInner
    cases R.hashOrder p.walIndex with
    | nil => exact ⟨.sync p.main, _, trivial, rfl, .error (.other "device error"), ⟨_, rfl⟩, Or.inl rfl⟩
    | cons e rest =>
        exact ⟨.readAt p.wal.file e.2 p.header.pageSize, _, trivial, rfl, .error (.other "device error"), ⟨_, rfl⟩, rfl⟩
  rcases hfirst with ⟨o, k, _, hop, r, hfail⟩
  unfold Pager.checkpoint
  rw [if_neg (by simp [husable]), if_neg (by simp; omega), hop]
  exact ⟨_, _, .deviated r hfail (Prog.runs_undisturbed _ _)⟩

/-- Behind the threshold a commit may fail although its append has returned. -/
theorem Live.append_fails {fm fw : Nat} {main log : Bytes} (hlive : Live R.xxh t.base path p fs.settled fm fw main log)
    (ht : t.Wf R.xxh) (hne : t.isEmpty = false) (hfits : t.pageCount * t.pageSize ≤ 2 ^ 64)
    (hhigh : p.checkpointThreshold ≤ p.wal.start + (t.dirty.length + 1) * (WAL_FRAME_HEADER_LEN + t.pageSize)) :
    ∃ fs' r, p.Appends R salt t.dirty t.pageCount t.pending fs 1 fs' r := by
  rcases hlive.append_run ht hne hfits salt with ⟨fs₁, offsets, wal, log', hrun, hlen, hnew⟩
  rcases hlive.encode ht with ⟨hheader, henc⟩
  have hpos : 0 < wal.len := by
    rw [hlen]
    simp [WAL_FRAME_HEADER_LEN]
  rcases checkpoint_fails R hnew.usable hpos fs₁ with ⟨fs', ⟨p', result⟩, hfail⟩
  have happend : Prog.Runs (Fs.fails R)
      (p.wal.appendTxn R.xxh salt t.newHeader.txnCounter (t.frames R.xxh)).run fs 0 _ _ := Prog.runs_undisturbed _ fs
  rw [hrun] at happend
  have hafter : ∃ r', Prog.Runs (Fs.fails R) ((p.appended t.newHeader offsets wal).afterAppend R) fs₁ 1 fs' r' := by
    have hreached : (p.appended t.newHeader offsets wal).checkpointThreshold ≤
        (p.appended t.newHeader offsets wal).wal.len := by
      show p.checkpointThreshold ≤ wal.len
      rw [hlen]
      exact hhigh
    unfold Pager.afterAppend
    rw [if_pos hreached]
    exact ⟨_, hfail.bind_ret rfl⟩
  rcases hafter with ⟨r', hafter⟩
  have hne' : (t.dirty.isEmpty && t.pageCount == p.header.pageCount && t.pending.isEmpty) = false := by
    rw [hlive.header]
    exact hne
  rw [← hheader] at happend hafter
  exact ⟨fs', r', .mk hlive.usable hne' (by rw [hheader]; exact henc) happend hafter⟩

/-- Whatever a commit reports once its append has returned, the store that is opened
next shows its transaction. -/
theorem Pager.Appends.reopens {k : Nat} {r : Pager × Except Error Nat} (h : FaultyRun R path fs (some p) e)
    (ops : List TxnOp) (ht : t = p.transact R e ops) (hfits : t.pageCount * t.pageSize ≤ 2 ^ 64)
    (hrun : p.Appends R salt t.dirty t.pageCount t.pending fs k fs' r) :
    ReopensTo R path r.1 fs' { last := t.commit } := by
  have hstanding : Standing R path fs' { last := t.commit } (some r.1) := by
    rcases h.standing with ⟨_, fm, fw, main, log, hlive⟩ | ⟨c, fm, fw, _, hstop⟩
    · have htransact := hlive.transact ops
      rw [← ht] at htransact
      rcases htransact with ⟨hwf, hbase⟩
      rw [← hbase] at hlive
      rcases hrun.result hlive hwf hfits with ⟨_, _, main', log', hnew⟩ | ⟨_, _, _, hstop⟩
      · exact Or.inl ⟨rfl, fm, fw, main', log', hnew⟩
      · exact Or.inr ⟨_, fm, fw, Or.inl rfl, hstop⟩
    · cases hrun with
      | mk husable _ _ _ _ =>
          rw [hstop.broken] at husable
          cases husable
  exact hstanding.reopens

/-- Owning a handle passes the result on. -/
theorem owning_ends {α : Type} {φ : α → Prop} {h : Nat} {x : Io α} (hx : x.run.Ends fun r => ∀ a, r = .ok a → φ a) :
    (Io.owning h x).run.Ends fun r => ∀ a, r = .ok a → φ a := by
  refine hx.bind ?_
  intro r hr
  cases r with
  | ok a => exact hr
  | error e =>
      intro _ a ha
      cases ha

/-- A new pager has the threshold that was asked for. -/
theorem create_ends (R : Runtime) (path : Path) (opts : PagerOptions) :
    (Pager.create R path opts).run.Ends fun r =>
      ∀ p, r = .ok p → p.checkpointThreshold = opts.checkpointThreshold := by
  -- page 0 is written and synced, then the log is opened
  have hlast : ∀ (main : Nat) (header : Header), (do
      let page0 ← Io.ofExcept (header.encode R.xxh opts.pageSize)
      Io.writeAt main 0 page0
      Io.sync main
      let walFile ← Io.openFile (walPathFor path) .openOrCreate
      pure { main, wal := { file := walFile, pageSize := opts.pageSize }, walPath := walPathFor path, header,
             checkpointThreshold := opts.checkpointThreshold } : Io Pager).run.Ends fun r =>
        ∀ p, r = .ok p → p.checkpointThreshold = opts.checkpointThreshold := by
    intro main header
    refine Prog.ends_bindExcept fun _ => Prog.ends_bindExcept fun _ => Prog.ends_bindExcept fun _ =>
      Prog.ends_bindExcept fun _ => ?_
    rintro _ ⟨⟩
    rfl
  unfold Pager.create
  dsimp only
  split
  · rintro _ ⟨⟩
  · refine Prog.ends_bindExcept fun _ => Prog.ends_bindExcept fun _ => owning_ends (Prog.ends_bindExcept fun locked => ?_)
    cases locked
    · rintro _ ⟨⟩
    · refine Prog.ends_bindExcept fun orphan => ?_
      cases orphan
      · exact hlast _ _
      · exact Prog.ends_bindExcept fun _ => hlast _ _

/-- The first transaction of a new store allocates a page. -/
theorem exists_first_txn (opts : PagerOptions) (hps : opts.pageSize = 4096) (hv : opts.formatVersion = FORMAT_VERSION) :
    ∃ fs p t fm fw main, FaultyRun Runtime.plain "memory.mind" fs (some p) { last := createdState opts } ∧
      t = p.transact Runtime.plain { last := createdState opts } [.allocatePage] ∧ t.dirty.length = 1 ∧
      t.isEmpty = false ∧ t.pageCount = 2 ∧ t.pageSize = 4096 ∧ t.Wf Runtime.plain.xxh ∧
      p.checkpointThreshold = opts.checkpointThreshold ∧
      Live Runtime.plain.xxh t.base "memory.mind" p fs.settled fm fw main [] := by
  rcases exists_create Runtime.plain "memory.mind" opts Fs.wf_empty (by rw [hv]; decide) (by rw [hv])
    (by rw [hps]; decide) rfl with ⟨fs, p, hrun, hheader⟩
  have hcreate : Prog.Runs (Fs.fails Runtime.plain) (Pager.create Runtime.plain "memory.mind" opts).run Fs.empty 0 _ _ :=
    Prog.runs_undisturbed _ _
  rw [hrun] at hcreate
  rcases live_of_create Fs.wf_empty hrun with ⟨fm, fw, main, hlive⟩
  have htransact := Live.transact (e := { last := createdState opts }) hlive [.allocatePage]
  have ht : p.transact Runtime.plain { last := createdState opts } [.allocatePage] =
      (Txn.begin (createdState opts)).performs Runtime.plain.xxh [.allocatePage] := by
    unfold Pager.transact
    rw [hheader]
  refine ⟨fs, p, _, fm, fw, main, .start (History.create Fs.wf_empty hrun), rfl, ?_, ?_, ?_, ?_, htransact.1,
    hcreate.ends (create_ends _ _ _) p rfl, ?_⟩
  · rw [ht]
    rfl
  · rw [ht]
    rfl
  · rw [ht]
    rfl
  · rw [ht, ← hps]
    rfl
  · rw [htransact.2]
    exact hlive.settled

/-- A commit is reported as `Ok` in every run in which its append returned `Ok` and at
most one call failed, if and only if it appends nothing or stays below the threshold
behind which it checkpoints. -/
theorem append_reported_iff (h : FaultyRun R path fs (some p) e) (ops : List TxnOp)
    (ht : t = p.transact R e ops) (hfits : t.pageCount * t.pageSize ≤ 2 ^ 64) :
    (∀ k fs' p' r, p.Appends R salt t.dirty t.pageCount t.pending fs k fs' (p', r) → k ≤ 1 →
        ∃ id, r = .ok id) ↔
      p.broken = true ∨ t.isEmpty = true ∨
        p.wal.start + (t.dirty.length + 1) * (WAL_FRAME_HEADER_LEN + t.pageSize) < p.checkpointThreshold := by
  rcases h.standing with ⟨_, fm, fw, main, log, hlive⟩ | ⟨c, fm, fw, _, hstop⟩
  · have htransact := hlive.transact ops
    rw [← ht] at htransact
    rcases htransact with ⟨hwf, hbase⟩
    rw [← hbase] at hlive
    constructor
    · intro hok
      -- an append that reaches the threshold can lose its checkpoint's first call
      by_contra hcond
      simp only [not_or, not_lt] at hcond
      rcases hcond with ⟨_, hne, hhigh⟩
      rcases hlive.append_fails hwf (by simpa using hne) hfits hhigh with ⟨fs', ⟨p', r⟩, hrun⟩
      rcases hok _ _ _ _ hrun le_rfl with ⟨id, hid⟩
      rcases hrun.result hlive hwf hfits with ⟨h0, _⟩ | ⟨_, ⟨err, herr⟩, _⟩
      · omega
      · rw [show r = .error err from herr] at hid
        cases hid
    · intro hcond k fs' p' r hrun _
      rcases hrun.result hlive hwf hfits with ⟨_, hres, _⟩ | ⟨_, _, hhigh, _⟩
      · exact ⟨_, hres⟩
      -- below it nothing is called after the sync
      · rcases hcond with hb | hempty | hlow
        · rw [hlive.usable] at hb
          cases hb
        · cases hrun with
          | mk _ hne _ _ _ =>
              rw [hlive.header] at hne
              exact absurd (hempty.symm.trans hne) (by decide)
        · omega
  · constructor
    · intro _
      exact Or.inl hstop.broken
    · intro _ k fs' p' r hrun _
      cases hrun with
      | mk husable _ _ _ _ =>
          rw [hstop.broken] at husable
          cases husable

/-- A call that succeeded. -/
theorem ofCall_run {α : Type} {x : Prog vfs (Except IoError α)} {s t : Fs} {a : α}
    (hrun : (Io.ofCall x).run.run s = (t, .ok a)) : x.run s = (t, .ok a) := by
  unfold Io.ofCall at hrun
  rw [ExceptT.run_mk, Prog.run_bind] at hrun
  rcases hx : x.run s with ⟨s₁, r⟩
  rw [hx] at hrun
  cases r with
  | ok b =>
      cases hrun
      rfl
  | error e => cases hrun

/-- The sync at the end of an append fails after it has done its work: the whole transaction is in the log. -/
theorem appendTxn_fails_written {wal : Wal} {txnId : Nat} {pages : List (Nat × Bytes)} {fs₁ : Fs}
    {a : List (Nat × Nat) × Wal} (hrun : (wal.appendTxn R.xxh salt txnId pages).run.run fs = (fs₁, .ok a)) :
    ∃ err, Prog.Runs (Fs.fails R) (wal.appendTxn R.xxh salt txnId pages).run fs 1 fs₁ (.error err) := by
  -- the append without failure ends in a sync; let that call report an error after it was done
  have hsync : ∀ {s t : Fs} {b b' : List (Nat × Nat) × Wal},
      (Io.sync wal.file >>= fun _ => pure b : Io (List (Nat × Nat) × Wal)).run.run s = (t, .ok b') →
      ∃ err, Prog.Runs (Fs.fails R) (Io.sync wal.file >>= fun _ => pure b : Io (List (Nat × Nat) × Wal)).run s 1 t
        (.error err) := by
    intro s t b b' h
    rcases Prog.run_bindExcept h with ⟨s₁, u, hs₁, hpure⟩
    cases hpure
    rw [show t = (s.exec (.sync wal.file)).1 from (congrArg Prod.fst (ofCall_run hs₁)).symm]
    exact ⟨_, .deviated (.error (.other "device error")) ⟨⟨_, rfl⟩, Or.inr rfl⟩ (.ret _ _)⟩
  have hrest : ∀ {σ len : Nat} {s t : Fs} {b : List (Nat × Nat) × Wal}, (do
      let r ← wal.appendFrames R.xxh txnId σ len pages
      Io.sync wal.file
      pure (r.1, { wal with salt := some σ, len := r.2 }) : Io (List (Nat × Nat) × Wal)).run.run s = (t, .ok b) →
      ∃ err, Prog.Runs (Fs.fails R) (do
        let r ← wal.appendFrames R.xxh txnId σ len pages
        Io.sync wal.file
        pure (r.1, { wal with salt := some σ, len := r.2 }) : Io (List (Nat × Nat) × Wal)).run s 1 t (.error err) := by
    intro σ len s t b h
    rcases Prog.run_bindExcept h with ⟨s₁, r, hframes, hlast⟩
    rcases hsync hlast with ⟨err, hfail⟩
    exact ⟨err, .rightExcept hframes hfail⟩
  unfold Wal.appendTxn at hrun ⊢
  -- an open generation is appended to, or a header is written first
  cases hsalt : wal.salt with
  | some σ =>
      rw [hsalt] at hrun
      exact hrest hrun
  | none =>
      rw [hsalt] at hrun
      rcases Prog.run_bindExcept hrun with ⟨s₁, r, hheader, hlast⟩
      rcases hrest hlast with ⟨err, hfail⟩
      exact ⟨err, .rightExcept hheader hfail⟩

/-- A commit returns an error, the one failing call being the sync of the log, over files that hold its transaction. -/
theorem Live.commit_fails_written {fm fw : Nat} {main log : Bytes}
    (hlive : Live R.xxh t.base path p fs.settled fm fw main log) (ht : t.Wf R.xxh) (hne : t.isEmpty = false)
    (hfits : t.pageCount * t.pageSize ≤ 2 ^ 64) (salt : UInt64) :
    ∃ fs' err, Prog.Runs (Fs.fails R) (p.commitTxn R salt t.dirty t.pageCount t.pending) fs 1 fs'
        ({ p with broken := true }, .error err) ∧
      Standing R path fs' { last := t.commit } (some { p with broken := true }) := by
  rcases hlive.append_run ht hne hfits salt with ⟨fs₁, offsets, wal, log', hrun, _, hnew⟩
  rcases hlive.encode ht with ⟨hheader, henc⟩
  rcases appendTxn_fails_written hrun with ⟨err, hfail⟩
  have hne' : (t.dirty.isEmpty && t.pageCount == p.header.pageCount && t.pending.isEmpty) = false := by
    rw [hlive.header]
    exact hne
  refine ⟨fs₁, err, ?_, ?_⟩
  · rw [commitTxn_eq hlive.usable hne' (by rw [hheader]; exact henc), hheader]
    exact hfail.bind_ret rfl
  · -- the pager stops over two files that give the new state
    have happend : Prog.Runs (Fs.fails R)
        (p.wal.appendTxn R.xxh salt t.newHeader.txnCounter (t.frames R.xxh)).run fs 0 _ _ := Prog.runs_undisturbed _ fs
    rw [hrun] at happend
    have hfile : wal.file = p.wal.file := happend.ends (appendTxn_ends _ _ _ _) _ rfl
    have hmain := congrArg File.current hnew.main_eq
    have hlog := congrArg File.current hnew.log_eq
    have hstop : Stopped R.xxh t.commit path { p with broken := true } fs₁.settled fm fw := by
      refine ⟨?_, rfl, ?_⟩
      · change Opened path p.main p.wal.file fm fw fs₁.settled
        rw [← hfile]
        exact hnew.opened
      · rw [hmain, hlog]
        exact ⟨hnew.storable, _, hnew.view, hnew.mainOk⟩
    exact Or.inr ⟨t.commit, fm, fw, Or.inl rfl, hstop⟩

/-- A store that shows one state does not show the next. -/
theorem not_shows_commit {fs₂ : Fs} {p₂ : Pager} (ht : t.Wf R.xxh) (hne : t.isEmpty = false)
    (h : Shows R p₂ fs₂ t.base) : ¬ Shows R p₂ fs₂ t.commit := by
  intro h'
  have hheader := h.1.symm.trans h'.1
  rw [Txn.commit_header hne] at hheader
  have hcounter := congrArg Header.txnCounter hheader
  have hlt := ht.base.header.txnCounter
  change t.base.header.txnCounter = (t.base.header.txnCounter + 1) % 2 ^ 64 at hcounter
  omega

/-- What a caller of `commit`, `remember` or `forget` relies on, whichever single call fails:
a transaction that is durable is reported as `Ok`, and one that is reported as failed has
left no trace, so that a caller who opens the store and tries again stores it once. -/
structure Pager.Reports (R : Runtime) (path : Path) (p : Pager) (salt : UInt64) (t : Txn) (fs : Fs) (e : Expected) :
    Prop where
  durable_ok : ∀ k fs' p' r, p.Appends R salt t.dirty t.pageCount t.pending fs k fs' (p', r) → k ≤ 1 → ∃ id, r = .ok id
  error_undone : ∀ k fs' p' r, Prog.Runs (Fs.fails R) (p.commitTxn R salt t.dirty t.pageCount t.pending) fs k fs' (p', r) →
    k ≤ 1 → Prog.IsError r → ReopensTo R path p' fs' e

/-- A commit reports what has happened to its transaction, in every run in which at most one call fails, if and only if
it has nothing to append. -/
theorem commit_durable_iff_ok (h : FaultyRun R path fs (some p) e) (ops : List TxnOp)
    (ht : t = p.transact R e ops) (hfits : t.pageCount * t.pageSize ≤ 2 ^ 64) :
    p.Reports R path salt t fs e ↔ p.broken = true ∨ t.isEmpty = true := by
  constructor
  · intro hreports
    rcases h.standing with ⟨hnone, fm, fw, main, log, hlive⟩ | ⟨c, fm, fw, _, hstop⟩
    · right
      have htransact := hlive.transact ops
      rw [← ht] at htransact
      rcases htransact with ⟨hwf, hbase⟩
      rw [← hbase] at hlive
      by_contra hempty
      have hne : t.isEmpty = false := by simpa using hempty
      rcases hlive.commit_fails_written hwf hne hfits salt with ⟨fs', err, hrun, hstanding⟩
      -- the same opening would show the state before the transaction and the one after it
      rcases hstanding.reopens {} with ⟨fs₁, fs₂, p₂, c, hdrop, hopen, hc, hshows⟩
      rcases hreports.error_undone _ _ _ _ hrun le_rfl ⟨err, rfl⟩ {} with ⟨fs₁', fs₂', p₂', c', hdrop', hopen', hc', hshows'⟩
      cases hdrop.symm.trans hdrop'
      cases hopen.symm.trans hopen'
      obtain rfl : c = t.commit := hc.resolve_right (by simp)
      obtain rfl : c' = t.base := (hc'.resolve_right (by simp [hnone])).trans hbase.symm
      exact not_shows_commit hwf hne hshows' hshows
    · exact Or.inl hstop.broken
  · intro hcond
    refine ⟨(append_reported_iff h ops ht hfits).mpr ?_, ?_⟩
    · rcases hcond with hbroken | hempty
      · exact Or.inl hbroken
      · exact Or.inr (Or.inl hempty)
    · intro k fs' p' r hrun _ herr
      rcases hcond with hbroken | hempty
      · rw [(refuses_of_broken hbroken).2.2.2] at hrun
        cases hrun
        exact h.standing.reopens
      · -- nothing to append, or the pager refuses: no call is made
        have hret : ∃ r, p.commitTxn R salt t.dirty t.pageCount t.pending = .ret (p, r) := by
          rcases commitTxn_cases R p salt t.dirty t.pageCount t.pending with hret | ⟨_, husable, hne, _⟩
          · exact hret
          · rcases h.standing with ⟨_, fm, fw, main, log, hlive⟩ | ⟨c, fm, fw, _, hstop⟩
            · have hbase := (hlive.transact ops).2
              rw [← ht] at hbase
              rw [hlive.header, ← hbase] at hne
              exact absurd (hempty.symm.trans hne) (by decide)
            · rw [hstop.broken] at husable
              cases husable
        rcases hret with ⟨r', hret⟩
        rw [hret] at hrun
        cases hrun
        exact h.standing.reopens

/-- On a new store the commit of a first page does not report what has happened; once it has
failed, the pager refuses every other commit and reports so. -/
theorem commit_durable_iff_ok_first_commit :
    ∃ fs p t fs' err,
      FaultyRun Runtime.plain "memory.mind" fs (some p) { last := createdState {} } ∧
      t = p.transact Runtime.plain { last := createdState {} } [.allocatePage] ∧
      ¬ p.Reports Runtime.plain "memory.mind" 0 t fs { last := createdState {} } ∧
      Prog.Runs (Fs.fails Runtime.plain) (p.commitTxn Runtime.plain 0 t.dirty t.pageCount t.pending) fs 1 fs'
        ({ p with broken := true }, .error err) ∧
      Pager.Reports Runtime.plain "memory.mind" { p with broken := true } 0 t fs'
        { last := createdState {}, inFlight := some t.commit } := by
  rcases exists_first_txn {} rfl rfl
    with ⟨fs, p, t, fm, fw, main, hrun, ht, _, hne, hcount, hps, hwf, _, hlive⟩
  have hfits : t.pageCount * t.pageSize ≤ 2 ^ 64 := by
    rw [hcount, hps]
    decide
  rcases hlive.commit_fails_written hwf hne hfits 0 with ⟨fs', err, hfail, _⟩
  refine ⟨fs, p, t, fs', err, hrun, ht, ?_, hfail, ?_⟩
  · intro hreports
    rcases (commit_durable_iff_ok hrun _ ht hfits).mp hreports with hbroken | hempty
    · exact absurd (hbroken.symm.trans hlive.usable) (by decide)
    · exact absurd (hempty.symm.trans hne) (by decide)
  · exact (commit_durable_iff_ok (hrun.commit _ 0 hlive.usable ht hfits hfail) _ ht hfits).mpr (Or.inl rfl)

/-- A store that checkpoints at every commit: the first read of the checkpoint fails,
the commit of one allocated page returns an error, and the next opening shows the page. -/
theorem commit_fails_though_durable :
    ∃ fs p t fs' p' err,
      FaultyRun Runtime.plain "memory.mind" fs (some p) { last := createdState { checkpointThreshold := 0 } } ∧
      t = p.transact Runtime.plain { last := createdState { checkpointThreshold := 0 } } [.allocatePage] ∧
      p.Appends Runtime.plain 0 t.dirty t.pageCount t.pending fs 1 fs' (p', .error err) ∧
      ReopensTo Runtime.plain "memory.mind" p' fs' { last := t.commit } := by
  rcases exists_first_txn { checkpointThreshold := 0 } rfl rfl
    with ⟨fs, p, t, fm, fw, main, hrun, ht, _, hne, hcount, hps, hwf, hthreshold, hlive⟩
  have hfits : t.pageCount * t.pageSize ≤ 2 ^ 64 := by
    rw [hcount, hps]
    decide
  rcases hlive.append_fails hwf hne hfits (by rw [hthreshold]; exact Nat.zero_le _) with ⟨fs', ⟨p', r⟩, happends⟩
  rcases happends.result hlive hwf hfits with ⟨h0, _⟩ | ⟨_, ⟨err, herr⟩, _⟩
  · cases h0
  · obtain rfl : r = .error err := herr
    exact ⟨fs, p, t, fs', p', err, hrun, ht, happends, happends.reopens hrun _ ht hfits⟩

end Durable

end EmbedMind
