import EmbedMind.Storage.Faults
import EmbedMind.Storage.Session

/-!
# Failing calls stop the pager

`FaultyRun` continues a history with calls of which any may fail. Its invariant
(`Standing`) is that a pager either shows the promised state (`Live`, over what the
process sees of the files) or has stopped: it refuses every call, and what it left on
disk is recoverable (`Stopped`). `io_errors_fail_stop` reads off what a failure does.
-/

namespace EmbedMind

open Lib Lib.Assoc

/-! ## The calls of a pager stop at the first failure -/

/-- A call that failed and has marked the pager `p` as broken. -/
def Pager.Broke {α : Type} (r : Pager × Except Error α) : Prop := r.1.broken = true ∧ Prog.IsError r.2

/-- The pager still works on the same two files. -/
def Pager.SameFiles (p p' : Pager) : Prop := p'.main = p.main ∧ p'.wal.file = p.wal.file ∧ p'.walPath = p.walPath

section Calls

variable {R : Runtime} {p : Pager}

/-- A checkpoint that succeeds keeps the two files. -/
theorem checkpointInner_ends :
    (p.checkpointInner R).run.Ends fun r => ∀ p', r = .ok p' → p.SameFiles p' := by
  unfold Pager.checkpointInner Wal.reset
  refine Prog.ends_bindExcept fun _ => Prog.ends_bindExcept fun _ => ?_
  simp only [bind_assoc, pure_bind]
  refine Prog.ends_bindExcept fun _ => Prog.ends_bindExcept fun _ => ?_
  rintro _ ⟨⟩
  exact ⟨rfl, rfl, rfl⟩

/-- A checkpoint touches the data of its files only. -/
theorem checkpoint_ops : (p.checkpoint R).All VfsOp.IsData := by
  unfold Pager.checkpoint
  split
  · trivial
  · split
    · trivial
    · refine (steady_checkpointInner p).ops.bind ?_
      intro r
      cases r <;> trivial

/-- A checkpoint keeps the two files, whatever it returns. -/
theorem checkpoint_ends : (p.checkpoint R).Ends fun r => p.SameFiles r.1 := by
  unfold Pager.checkpoint
  split
  · exact ⟨rfl, rfl, rfl⟩
  · split
    · exact ⟨rfl, rfl, rfl⟩
    · refine checkpointInner_ends.bind ?_
      intro r hr
      cases r with
      | ok p' => exact hr p' rfl
      | error e => exact ⟨rfl, rfl, rfl⟩

/-- A call that fails inside a checkpoint breaks the pager. -/
theorem checkpoint_stops : Prog.FailFast (Fs.fails R) Pager.Broke (p.checkpoint R) := by
  unfold Pager.checkpoint
  split
  · exact Prog.failFast_ret _
  · split
    · exact Prog.failFast_ret _
    · refine (steady_checkpointInner p).stops.bind ?_ ?_
      · intro r
        cases r <;> exact Prog.failFast_ret _
      · rintro _ ⟨e, rfl⟩
        exact ⟨_, rfl, rfl, e, rfl⟩

/-- A commit that has anything to do appends, and goes on if that succeeded. -/
theorem commitTxn_eq {salt : UInt64} {dirty : List (Nat × Bytes)} {count : Nat} {pending : PendingHeader}
    {page0 : Bytes} (husable : p.broken = false)
    (hne : (dirty.isEmpty && count == p.header.pageCount && pending.isEmpty) = false)
    (hpage0 : (pending.apply p.header count).encode R.xxh p.header.pageSize = .ok page0) :
    p.commitTxn R salt dirty count pending =
      (p.wal.appendTxn R.xxh salt (pending.apply p.header count).txnCounter (dirty ++ [(0, page0)])).run.bind fun
        | .error e => .ret ({ p with broken := true }, .error e)
        | .ok (offsets, wal) => (p.appended (pending.apply p.header count) offsets wal).afterAppend R := by
  unfold Pager.commitTxn
  rw [if_neg (by simp [husable]), if_neg (by simp [hne])]
  dsimp only
  rw [hpage0]
  rfl

theorem afterAppend_ops : (p.afterAppend R).All VfsOp.IsData := by
  unfold Pager.afterAppend
  split
  · exact checkpoint_ops.bind fun _ => trivial
  · trivial

theorem afterAppend_ends : (p.afterAppend R).Ends fun r => p.SameFiles r.1 := by
  unfold Pager.afterAppend
  split
  · exact checkpoint_ends.bind fun _ hr => hr
  · exact ⟨rfl, rfl, rfl⟩

/-- A call that fails behind the append breaks the pager. -/
theorem afterAppend_stops : Prog.FailFast (Fs.fails R) Pager.Broke (p.afterAppend R) := by
  unfold Pager.afterAppend
  split
  · refine checkpoint_stops.bind (fun _ => Prog.failFast_ret _) ?_
    rintro ⟨p', _⟩ ⟨hbroken, e, rfl⟩
    exact ⟨_, rfl, hbroken, e, rfl⟩
  · exact Prog.failFast_ret _

/-- An append keeps its file. -/
theorem appendTxn_ends (wal : Wal) (salt : UInt64) (txnId : Nat) (pages : List (Nat × Bytes)) :
    (wal.appendTxn R.xxh salt txnId pages).run.Ends fun r => ∀ a, r = .ok a → a.2.file = wal.file := by
  have hrest : ∀ s len, (do
      let r ← wal.appendFrames R.xxh txnId s len pages
      Io.sync wal.file
      pure (r.1, { wal with salt := some s, len := r.2 }) : Io (List (Nat × Nat) × Wal)).run.Ends
        fun r => ∀ a, r = .ok a → a.2.file = wal.file := by
    intro s len
    refine Prog.ends_bindExcept fun _ => Prog.ends_bindExcept fun _ => ?_
    rintro _ ⟨⟩
    rfl
  unfold Wal.appendTxn
  dsimp only
  cases wal.salt with
  | some s => exact hrest _ _
  | none => exact Prog.ends_bindExcept fun _ => hrest _ _

variable {salt : UInt64} {dirty : List (Nat × Bytes)} {count : Nat} {pending : PendingHeader}

/-- A commit does nothing, or it is the append and what follows it. -/
theorem commitTxn_cases (R : Runtime) (p : Pager) (salt : UInt64) (dirty : List (Nat × Bytes)) (count : Nat)
    (pending : PendingHeader) :
    (∃ r, p.commitTxn R salt dirty count pending = .ret (p, r)) ∨
      ∃ page0, p.broken = false ∧
        (dirty.isEmpty && count == p.header.pageCount && pending.isEmpty) = false ∧
        (pending.apply p.header count).encode R.xxh p.header.pageSize = .ok page0 := by
  by_cases hbroken : p.broken = true
  · refine Or.inl ⟨.error Pager.failedState, ?_⟩
    unfold Pager.commitTxn
    rw [if_pos hbroken]
  · by_cases hempty : (dirty.isEmpty && count == p.header.pageCount && pending.isEmpty) = true
    · refine Or.inl ⟨.ok p.header.txnCounter, ?_⟩
      unfold Pager.commitTxn
      rw [if_neg hbroken, if_pos hempty]
    · cases henc : (pending.apply p.header count).encode R.xxh p.header.pageSize with
      | error e =>
          refine Or.inl ⟨.error e, ?_⟩
          unfold Pager.commitTxn
          rw [if_neg hbroken, if_neg hempty]
          dsimp only
          rw [henc]
      | ok page0 => exact Or.inr ⟨page0, by simpa using hbroken, by simpa using hempty, rfl⟩

/-- A commit touches the data of its files only. -/
theorem commitTxn_ops : (p.commitTxn R salt dirty count pending).All VfsOp.IsData := by
  rcases commitTxn_cases R p salt dirty count pending with ⟨r, h⟩ | ⟨page0, husable, hne, hpage0⟩
  · rw [h]
    trivial
  · rw [commitTxn_eq husable hne hpage0]
    refine (steady_appendTxn _ _ _ _).ops.bind ?_
    intro r
    cases r with
    | error e => trivial
    | ok a => exact afterAppend_ops

/-- A commit keeps the two files, whatever it returns. -/
theorem commitTxn_ends : (p.commitTxn R salt dirty count pending).Ends fun r => p.SameFiles r.1 := by
  rcases commitTxn_cases R p salt dirty count pending with ⟨r, h⟩ | ⟨page0, husable, hne, hpage0⟩
  · rw [h]
    exact ⟨rfl, rfl, rfl⟩
  · rw [commitTxn_eq husable hne hpage0]
    refine (appendTxn_ends _ _ _ _).bind ?_
    intro r hr
    cases r with
    | error e => exact ⟨rfl, rfl, rfl⟩
    | ok a =>
        refine afterAppend_ends.mono ?_
        rintro r' ⟨hmain, hwal, hpath⟩
        exact ⟨hmain, hwal.trans (hr a rfl), hpath⟩

/-- A call that fails inside a commit breaks the pager. -/
theorem commitTxn_stops :
    Prog.FailFast (Fs.fails R) Pager.Broke (p.commitTxn R salt dirty count pending) := by
  rcases commitTxn_cases R p salt dirty count pending with ⟨r, h⟩ | ⟨page0, husable, hne, hpage0⟩
  · rw [h]
    exact Prog.failFast_ret _
  · rw [commitTxn_eq husable hne hpage0]
    refine (steady_appendTxn _ _ _ _).stops.bind ?_ ?_
    · intro r
      cases r with
      | error e => exact Prog.failFast_ret _
      | ok a => exact afterAppend_stops
    · rintro _ ⟨e, rfl⟩
      exact ⟨_, rfl, rfl, e, rfl⟩

end Calls

/-! ## What a failure leaves -/

/-- A pager that has failed, over two files that give the state `c`. -/
structure Stopped (H : Xxh3) (c : Committed) (path : Path) (p : Pager) (fs : Fs) (fm fw : Nat) : Prop where
  opened : Opened path p.main p.wal.file fm fw fs
  broken : p.broken = true
  recoverable : Recoverable H c (fs.files fm).current (fs.files fw).current

section Stopped

variable {R : Runtime} {P : Committed → Prop} {path : Path} {p : Pager} {c : Committed} {fs fs' : Fs} {fm fw : Nat}

/-- Reads, writes, syncs and truncations leave names, handles and locks. -/
theorem Fs.exec_data (fs : Fs) {o : VfsOp} (ho : o.IsData) :
    (fs.exec o).1.names = fs.names ∧ (fs.exec o).1.handles = fs.handles ∧ (fs.exec o).1.locks = fs.locks ∧
      (fs.exec o).1.nextFile = fs.nextFile := by
  cases o with
  | readAt h off len =>
      simp only [exec]
      cases fs.handles h with
      | none => exact ⟨rfl, rfl, rfl, rfl⟩
      | some f =>
          dsimp only
          cases slice (fs.files f).current off len <;> exact ⟨rfl, rfl, rfl, rfl⟩
  | writeAt h off buf =>
      simp only [exec]
      cases fs.handles h <;> exact ⟨rfl, rfl, rfl, rfl⟩
  | sync h =>
      simp only [exec]
      cases fs.handles h <;> exact ⟨rfl, rfl, rfl, rfl⟩
  | truncate h len =>
      simp only [exec]
      cases fs.handles h <;> exact ⟨rfl, rfl, rfl, rfl⟩
  | len h =>
      simp only [exec]
      cases fs.handles h <;> exact ⟨rfl, rfl, rfl, rfl⟩
  | _ => exact ho.elim

/-- Calls on open files leave the store open, also when they fail. -/
theorem Opened.runs {α : Type} {hm hw n : Nat} {a : α} {prog : Prog vfs α} (ho : Opened path hm hw fm fw fs)
    (hops : prog.All VfsOp.IsData) (hr : Prog.Runs (Fs.fails R) prog fs n fs' a) : Opened path hm hw fm fw fs' := by
  have hkeep := Prog.Runs.keeps (M := vfs)
    (R := fun s t => t.names = s.names ∧ t.handles = s.handles ∧ t.locks = s.locks ∧ t.nextFile = s.nextFile)
    (fun _ => ⟨rfl, rfl, rfl, rfl⟩)
    (fun _ _ _ h h' => ⟨h'.1.trans h.1, h'.2.1.trans h.2.1, h'.2.2.1.trans h.2.2.1, h'.2.2.2.trans h.2.2.2⟩)
    (fun s o ho => s.exec_data ho) ?_ hops hr
  · rcases hkeep with ⟨hn, hh, hl, hx⟩
    exact ⟨⟨hn ▸ ho.main, hn ▸ ho.wal, ho.ne, hx ▸ ho.main_lt, hx ▸ ho.wal_lt⟩, hh ▸ ho.mainHandle,
      hh ▸ ho.walHandle, hl ▸ ho.lock, ho.handles_ne⟩
  · intro s o s' r hdata hf
    cases o with
    | readAt h off len => exact hf.2 ▸ ⟨rfl, rfl, rfl, rfl⟩
    | len h => exact hf.2 ▸ ⟨rfl, rfl, rfl, rfl⟩
    | writeAt h off buf =>
        rcases hf.2 with ⟨f, img, _, _, rfl⟩
        exact ⟨rfl, rfl, rfl, rfl⟩
    | sync h =>
        rcases hf.2 with rfl | rfl
        · exact ⟨rfl, rfl, rfl, rfl⟩
        · exact s.exec_data hdata
    | truncate h len =>
        rcases hf.2 with rfl | rfl
        · exact ⟨rfl, rfl, rfl, rfl⟩
        · exact s.exec_data hdata
    | _ => exact hdata.elim

/-- A failed commit or checkpoint stops the pager in a recoverable state. -/
theorem stopped_of_faulted {α : Type} {n : Nat} {prog : Prog vfs (Pager × Except Error α)} {r : Pager × Except Error α}
    (ho : Opened path p.main p.wal.file fm fw fs)
    (hcrash : ∀ s, Prog.Interrupt prog fs s → CrashOk R.xxh P path s) (hops : prog.All VfsOp.IsData)
    (hends : prog.Ends fun r => p.SameFiles r.1) (hr : Prog.Runs (Fs.fails R) prog fs n fs' r)
    (hf : Prog.Faulted (Fs.fails R) prog fs fs') (hbroke : Pager.Broke r) :
    ∃ c, P c ∧ Stopped R.xxh c path r.1 fs' fm fw := by
  have ho' := ho.runs hops hr
  rcases seenOk_of_faulted hcrash hf with ⟨fm', hname, c, hP, hrec⟩
  rw [ho'.main] at hname
  cases hname
  rw [ho'.toNamed.walFile_eq] at hrec
  rcases hr.ends hends with ⟨hmain, hwal, _⟩
  refine ⟨c, hP, ?_, hbroke.1, hrec⟩
  rw [hmain, hwal]
  exact ho'

/-- The calls of a stopped pager end before they touch a file. -/
def Pager.Refuses (R : Runtime) (p : Pager) : Prop :=
  (∀ n, (p.readPage R n).run = .ret (.error Pager.failedState)) ∧
  p.begin = .error Pager.failedState ∧
  p.checkpoint R = .ret (p, .error Pager.failedState) ∧
  ∀ salt dirty count pending,
    p.commitTxn R salt dirty count pending = .ret (p, .error Pager.failedState)

/-- A broken pager refuses every call. -/
theorem refuses_of_broken (h : p.broken = true) : p.Refuses R := by
  refine ⟨?_, ?_, ?_, ?_⟩
  · intro n
    unfold Pager.readPage
    rw [if_pos h]
    rfl
  · unfold Pager.begin
    rw [if_pos h]
  · unfold Pager.checkpoint
    rw [if_pos h]
  · intro salt dirty count pending
    unfold Pager.commitTxn
    rw [if_pos h]

end Stopped

/-! ## Runs in which calls fail -/

/-- A history that goes on with calls of which any may fail. -/
inductive FaultyRun (R : Runtime) (path : Path) : Fs → Option Pager → Expected → Prop where
  | start {fs : Fs} {pager : Option Pager} {e : Expected} : History R path fs pager e → FaultyRun R path fs pager e
  | readPage {fs fs' : Fs} {p : Pager} {e : Expected} {k n : Nat} {r : Except Error Bytes} :
      FaultyRun R path fs (some p) e → Prog.Runs (Fs.fails R) (p.readPage R n).run fs k fs' r →
      FaultyRun R path fs' (some p) e
  | commit {fs fs' : Fs} {p p' : Pager} {e : Expected} {t : Txn} {k : Nat} {r : Except Error Nat}
      (ops : List TxnOp) (salt : UInt64) : FaultyRun R path fs (some p) e → p.broken = false →
      t = p.transact R e ops → t.pageCount * t.pageSize ≤ 2 ^ 64 →
      Prog.Runs (Fs.fails R) (p.commitTxn R salt t.dirty t.pageCount t.pending) fs k fs' (p', r) →
      FaultyRun R path fs' (some p') (e.afterCommit t.commit r)
  | checkpoint {fs fs' : Fs} {p p' : Pager} {e : Expected} {k : Nat} {r : Except Error Unit} :
      FaultyRun R path fs (some p) e → Prog.Runs (Fs.fails R) (p.checkpoint R) fs k fs' (p', r) →
      FaultyRun R path fs' (some p') e
  | drop {fs fs' : Fs} {p : Pager} {e : Expected} {r : Except Error Unit} :
      FaultyRun R path fs (some p) e → p.drop.run.run fs = (fs', r) → FaultyRun R path fs' none e
  | reopen {fs fs' : Fs} {opts : PagerOptions} {p : Pager} {e : Expected} {c : Committed} :
      FaultyRun R path fs none e → (Pager.openStore R path opts).run.run fs = (fs', .ok p) →
      e.Allows c → Shows R p fs' c → FaultyRun R path fs' (some p) { last := c }

/-- The invariant of a run, over what the process sees of the files. -/
def Standing (R : Runtime) (path : Path) (fs : Fs) (e : Expected) : Option Pager → Prop
  | some p =>
      (e.inFlight = none ∧ ∃ fm fw main log, Live R.xxh e.last path p fs.settled fm fw main log) ∨
        ∃ c fm fw, e.Allows c ∧ Stopped R.xxh c path p fs.settled fm fw
  | none => ∃ c fm main wal, e.Allows c ∧ AtRest R.xxh c path fs.settled fm main wal

section Standing

variable {R : Runtime} {path : Path} {fs fs' t : Fs} {e : Expected} {p p' : Pager} {c : Committed}

/-- A running pager does not see which bytes are synced. -/
theorem Live.settled {H : Xxh3} {fm fw : Nat} {main log : Bytes} (h : Live H c path p fs fm fw main log) :
    Live H c path p fs.settled fm fw main log :=
  { h with
    opened := ⟨⟨h.opened.main, h.opened.wal, h.opened.ne, h.opened.main_lt, h.opened.wal_lt⟩,
      h.opened.mainHandle, h.opened.walHandle, h.opened.lock, h.opened.handles_ne⟩
    main_eq := by rw [Fs.settled_files, h.main_eq]; rfl
    log_eq := by rw [Fs.settled_files, h.log_eq]; rfl }

/-- Neither does a store at rest. -/
theorem AtRest.settled {H : Xxh3} {fm : Nat} {main wal : Bytes} (h : AtRest H c path fs fm main wal) :
    AtRest H c path fs.settled fm main wal := by
  refine ⟨h.name, h.name_lt, h.wal_ne, h.unlocked, ?_, ?_, h.recoverable⟩
  · rw [Fs.settled_files, h.main_eq]
    rfl
  · have hwal := h.wal_eq
    unfold walFile at hwal ⊢
    rw [Fs.settled_names]
    cases hn : fs.names (walPathFor path) with
    | none =>
        rw [hn] at hwal
        exact hwal
    | some fw =>
        rw [hn] at hwal
        dsimp only at hwal ⊢
        rw [Fs.settled_files, hwal]
        rfl

/-- Neither does a pager that has failed. -/
theorem Stopped.settled {H : Xxh3} {fm fw : Nat} (h : Stopped H c path p fs fm fw) :
    Stopped H c path p fs.settled fm fw :=
  ⟨⟨⟨h.opened.main, h.opened.wal, h.opened.ne, h.opened.main_lt, h.opened.wal_lt⟩,
    h.opened.mainHandle, h.opened.walHandle, h.opened.lock, h.opened.handles_ne⟩, h.broken, h.recoverable⟩

/-- A history without failures stands. -/
theorem Kept.standing {pager : Option Pager} (h : Kept R path fs e pager) : Standing R path fs e pager := by
  cases pager with
  | some p =>
      rcases h with ⟨hnone, fm, fw, main, log, hlive⟩
      exact Or.inl ⟨hnone, fm, fw, main, log, hlive.settled⟩
  | none =>
      rcases h with ⟨c, fm, main, wal, hc, hrest⟩
      exact ⟨c, fm, main, wal, hc, hrest.settled⟩

/-- A read changes nothing, whether it fails or not. -/
theorem readPage_runs {n k : Nat} {r : Except Error Bytes}
    (h : Prog.Runs (Fs.fails R) (p.readPage R n).run fs k fs' r) : fs' = fs := by
  refine Prog.Runs.keeps (M := vfs) (R := fun s t => t = s) (fun _ => rfl) (fun _ _ _ h h' => h'.trans h) ?_ ?_
    (steady_readPage (R := R) p n).ops h
  · intro s o ho
    cases o with
    | readAt hd off len =>
        show (s.exec (.readAt hd off len)).1 = s
        simp only [Fs.exec]
        cases s.handles hd with
        | none => rfl
        | some f =>
            dsimp only
            cases slice (s.files f).current off len <;> rfl
    | _ => exact ho.elim
  · intro s o s' r ho hf
    cases o with
    | readAt hd off len => exact hf.2
    | _ => exact ho.elim

/-- A pager shows the same over files that are alike. -/
theorem Shows.alike (h : Shows R p fs c) (ha : fs.Alike t) : Shows R p t c := by
  refine ⟨h.1, ?_⟩
  intro n
  have hrun : ((p.readPage R n).run.run t).1 = t := readPage_runs (Prog.runs_undisturbed _ t)
  refine Prod.ext hrun ?_
  rw [← (ha.run (p.readPage R n).run).1, h.2 n]

/-- A call of a pager does what it does without failures, or it stops the pager. -/
theorem runs_cases {α : Type} {fm fw k : Nat} {P : Committed → Prop} {prog : Prog vfs (Pager × Except Error α)}
    {Q : Pager × Except Error α → Fs → Prop} {r : Pager × Except Error α}
    (ho : Opened path p.main p.wal.file fm fw fs.settled) (hw : Wpc prog fs.settled Q (CrashOk R.xxh P path))
    (hops : prog.All VfsOp.IsData) (hends : prog.Ends fun r => p.SameFiles r.1)
    (hstops : Prog.FailFast (Fs.fails R) Pager.Broke prog) (hr : Prog.Runs (Fs.fails R) prog fs k fs' r) :
    (k = 0 ∧ ∃ s, s.Alike fs' ∧ Q r s) ∨
      (0 < k ∧ Prog.IsError r.2 ∧ ∃ c, P c ∧ Stopped R.xxh c path r.1 fs'.settled fm fw) := by
  rcases (Fs.alike_settled fs).runs hr with ⟨s, hs, halike⟩
  by_cases hk : k = 0
  · have hrun := hs.eq_run hk
    have hq := hw.1
    rw [hrun] at hq
    exact Or.inl ⟨hk, s, halike.symm, hq⟩
  · rcases hstops _ _ _ _ hs with h0 | ⟨hf, hbroke⟩
    · exact absurd h0 hk
    · rcases stopped_of_faulted ho hw.2 hops hends hs hf hbroke with ⟨c, hP, hstop⟩
      refine Or.inr ⟨Nat.pos_of_ne_zero hk, hbroke.2, c, hP, ?_⟩
      rw [show fs'.settled = s.settled from halike]
      exact hstop.settled

/-- A pager runs over any files that are alike. -/
theorem Live.alike {fm fw : Nat} {main log : Bytes} (h : Live R.xxh c path p fs fm fw main log) (ha : fs.Alike t) :
    Live R.xxh c path p t.settled fm fw main log := by
  rw [← show fs.settled = t.settled from ha]
  exact h.settled

/-- The header page that a transaction on a store in use commits. -/
theorem Live.encode {fm fw : Nat} {main log : Bytes} {t : Txn}
    (h : Live R.xxh t.base path p fs fm fw main log) (ht : t.Wf R.xxh) : t.pending.apply p.header t.pageCount = t.newHeader ∧
      t.newHeader.encode R.xxh p.header.pageSize = .ok (t.newHeader.image R.xxh) := by
  rw [h.header]
  exact ⟨rfl, Header.encode_eq_ok (ht.pending.apply ht.base.header ht.pageCount_pos ht.bound)⟩

/-- A pager that is dropped, whether it has stopped or not, leaves a state at rest. -/
theorem Standing.drop (h : Standing R path fs e (some p)) :
    (p.drop.run.run fs).2 = .ok () ∧ Standing R path (p.drop.run.run fs).1 e none := by
  refine ⟨rfl, ?_⟩
  have hdrop : ∀ {c : Committed} {fm fw : Nat}, e.Allows c → Opened path p.main p.wal.file fm fw fs.settled →
      Recoverable R.xxh c (fs.files fm).current (fs.files fw).current →
      Standing R path (p.drop.run.run fs).1 e none := by
    intro c fm fw hc ho hr
    have hrest := (ho.atRest rfl rfl hr).settled
    have halike := ((Fs.alike_settled fs).run p.drop.run).2
    refine ⟨c, fm, (fs.files fm).current, (fs.files fw).current, hc, ?_⟩
    rw [show (p.drop.run.run fs).1.settled = (p.drop.run.run fs.settled).1.settled from halike]
    exact hrest
  rcases h with ⟨_, fm, fw, main, log, hlive⟩ | ⟨c, fm, fw, hc, hstop⟩
  · have hmain := congrArg File.current hlive.main_eq
    have hlog := congrArg File.current hlive.log_eq
    refine hdrop (Or.inl rfl) hlive.opened ?_
    rw [show (fs.files fm).current = main from hmain, show (fs.files fw).current = log from hlog]
    exact ⟨hlive.storable, p.walIndex, hlive.view, hlive.mainOk⟩
  · exact hdrop hc hstop.opened hstop.recoverable

/-- Opening a store at rest shows one of the states it may be in. -/
theorem Standing.open (h : Standing R path fs e none) (opts : PagerOptions) :
    ∃ p c, ((Pager.openStore R path opts).run.run fs).2 = .ok p ∧ e.Allows c ∧
      ∃ fm fw main, Live R.xxh c path p ((Pager.openStore R path opts).run.run fs).1.settled fm fw main [] := by
  rcases h with ⟨c, fm, main, wal, hc, hrest⟩
  rcases (wpc_openStore hrest opts).1 with ⟨p, hp, fw, b, hlive⟩
  rcases (Fs.alike_settled fs).run (Pager.openStore R path opts).run with ⟨hres, halike⟩
  exact ⟨p, c, hres.trans hp, hc, fm, fw, b, hlive.alike halike.symm⟩

/-- Every run stands, whatever calls have failed in it. -/
theorem FaultyRun.standing {pager : Option Pager} (h : FaultyRun R path fs pager e) :
    Standing R path fs e pager := by
  induction h with
  | start h => exact h.kept.standing
  | readPage _ hr ih => exact readPage_runs hr ▸ ih
  | @commit fs fs' p p' e t k r ops salt _ husable ht hfits hr ih =>
      rcases ih with ⟨hnone, fm, fw, main, log, hlive⟩ | ⟨c, fm, fw, _, hstop⟩
      · rcases hlive.transact ops with ⟨hwf, hbase⟩
        subst ht
        -- no call failed, or one did and the pager is broken
        rcases runs_cases hlive.opened (wpc_commitTxn (hbase ▸ hlive) hwf hfits salt) commitTxn_ops commitTxn_ends
          commitTxn_stops hr with ⟨_, s, halike, hres, main', log', hnew⟩ | ⟨_, ⟨err, herr⟩, c, hc, hstop⟩
        · dsimp only at hres
          subst hres
          exact Or.inl ⟨rfl, fm, fw, main', log', hnew.alike halike⟩
        · dsimp only at herr
          subst herr
          refine Or.inr ⟨c, fm, fw, ?_, hstop⟩
          rcases hc with rfl | rfl
          · exact Or.inl hbase
          · exact Or.inr rfl
      · rw [hstop.broken] at husable
        cases husable
  | @checkpoint fs fs' p p' e k r _ hr ih =>
      rcases ih with ⟨hnone, fm, fw, main, log, hlive⟩ | ⟨c, fm, fw, hc, hstop⟩
      · rcases runs_cases hlive.opened (wpc_checkpoint hlive) checkpoint_ops checkpoint_ends checkpoint_stops hr
          with ⟨_, s, halike, _, main', hnew⟩ | ⟨_, _, c, hc, hstop⟩
        · exact Or.inl ⟨hnone, fm, fw, main', [], hnew.alike halike⟩
        · exact Or.inr ⟨c, fm, fw, Or.inl hc, hstop⟩
      · rw [(refuses_of_broken hstop.broken).2.2.1] at hr
        cases hr
        exact Or.inr ⟨c, fm, fw, hc, hstop⟩
  | drop _ hrun ih =>
      have hrest := ih.drop.2
      rw [hrun] at hrest
      exact hrest
  | @reopen fs fs' opts p e c _ hrun _ hshows ih =>
      rcases ih.open opts with ⟨p', c', hp', _, fm, fw, main, hlive⟩
      rw [hrun] at hp' hlive
      cases hp'
      have hshows' := hshows.alike (Fs.alike_settled fs')
      exact Or.inl ⟨rfl, fm, fw, main, [], hlive.same (same_of_shows hlive.storable.wf hlive.shows hshows')⟩

/-- Dropping the pager and opening the store again, with no further failures, shows a
state that `e` allows. -/
def ReopensTo (R : Runtime) (path : Path) (p : Pager) (fs : Fs) (e : Expected) : Prop :=
  ∀ opts, ∃ fs₁ fs₂ p₂ c, p.drop.run.run fs = (fs₁, .ok ()) ∧
    (Pager.openStore R path opts).run.run fs₁ = (fs₂, .ok p₂) ∧ e.Allows c ∧ Shows R p₂ fs₂ c

/-- What stands can be opened again. -/
theorem Standing.reopens (h : Standing R path fs e (some p)) : ReopensTo R path p fs e := by
  intro opts
  rcases h.drop with ⟨hok, hrest⟩
  rcases hrest.open opts with ⟨p₂, c, hp₂, hc, fm, fw, main, hlive⟩
  exact ⟨_, _, p₂, c, Prod.ext rfl hok, Prod.ext rfl hp₂, hc,
    hlive.shows.alike (Fs.alike_settled _).symm⟩

/-- A pager in use shows the last state that was promised. -/
theorem Standing.shows_of_usable (h : Standing R path fs e (some p)) (hp : p.broken = false) :
    e.inFlight = none ∧ Shows R p fs e.last := by
  rcases h with ⟨hnone, fm, fw, main, log, hlive⟩ | ⟨c, fm, fw, _, hstop⟩
  · exact ⟨hnone, hlive.shows.alike (Fs.alike_settled _).symm⟩
  · rw [hstop.broken] at hp
    cases hp

/-- A call that failed was made by a pager in use. -/
theorem usable_of_runs {α : Type} {k : Nat} {a b : α} {prog : Prog vfs α} (hk : 0 < k)
    (hprog : p.broken = true → prog = .ret b) (hr : Prog.Runs (Fs.fails R) prog fs k fs' a) : p.broken = false := by
  by_contra hbroken
  rw [hprog (by simpa using hbroken)] at hr
  cases hr
  exact absurd hk (lt_irrefl 0)

/-- A failing call during a read, a commit or a checkpoint. After a read the pager goes
on from its last committed state; after a commit or a checkpoint it refuses every call.
Dropped and opened again without further failures, the store shows its last committed
state, or that state plus the whole transaction whose commit failed. -/
theorem io_errors_fail_stop (h : FaultyRun R path fs (some p) e) {k : Nat} (hk : 0 < k) :
    (∀ n fs' r, Prog.Runs (Fs.fails R) (p.readPage R n).run fs k fs' r →
      Prog.IsError r ∧ fs' = fs ∧ Shows R p fs' e.last ∧ ReopensTo R path p fs' { last := e.last }) ∧
    (∀ ops salt t fs' p' r, t = p.transact R e ops → t.pageCount * t.pageSize ≤ 2 ^ 64 →
      Prog.Runs (Fs.fails R) (p.commitTxn R salt t.dirty t.pageCount t.pending) fs k fs' (p', r) →
      Prog.IsError r ∧ p'.Refuses R ∧
        ReopensTo R path p' fs' { last := e.last, inFlight := some t.commit }) ∧
    ∀ fs' p' r, Prog.Runs (Fs.fails R) (p.checkpoint R) fs k fs' (p', r) →
      Prog.IsError r ∧ p'.Refuses R ∧ ReopensTo R path p' fs' { last := e.last } := by
  have hne : k ≠ 0 := Nat.ne_of_gt hk
  have hlast : p.broken = false → e = { last := e.last } := by
    intro husable
    have hnone := (h.standing.shows_of_usable husable).1
    cases e
    exact congrArg _ hnone
  refine ⟨?_, ?_, ?_⟩
  · intro n fs' r hr
    have husable := usable_of_runs hk (fun hb => (refuses_of_broken hb).1 n) hr
    have herr := ((steady_readPage p n).stops _ _ _ _ hr).resolve_left hne
    obtain rfl := readPage_runs hr
    exact ⟨herr.2, rfl, (h.standing.shows_of_usable husable).2, hlast husable ▸ h.standing.reopens⟩
  · intro ops salt t fs' p' r ht hfits hr
    have husable := usable_of_runs hk (fun hb => (refuses_of_broken hb).2.2.2 _ _ _ _) hr
    rcases ((commitTxn_stops _ _ _ _ hr).resolve_left hne).2 with ⟨hbroken, err, rfl⟩
    have hnext := (FaultyRun.commit ops salt h husable ht hfits hr).standing
    exact ⟨⟨err, rfl⟩, refuses_of_broken hbroken, hnext.reopens⟩
  · intro fs' p' r hr
    have husable := usable_of_runs hk (fun hb => (refuses_of_broken hb).2.2.1) hr
    rcases ((checkpoint_stops _ _ _ _ hr).resolve_left hne).2 with ⟨hbroken, err, rfl⟩
    have hnext := (FaultyRun.checkpoint h hr).standing
    exact ⟨⟨err, rfl⟩, refuses_of_broken hbroken, hlast husable ▸ hnext.reopens⟩

/-- A page has been committed; then a read of it fails, or the sync that ends the next commit, or the sync of the main
file in a checkpoint. -/
theorem io_errors_fail_stop_three_failures :
    ∃ s, storeAfter Runtime.plain "memory.mind" [pageOps] = some s ∧
      (∃ fs' r, Prog.Runs (Fs.fails Runtime.plain) (s.2.1.readPage Runtime.plain 1).run s.1 1 fs' r ∧
        Prog.IsError r ∧ fs' = s.1 ∧ Shows Runtime.plain s.2.1 fs' s.2.2) ∧
      (∃ fs' p' r, Prog.Runs (Fs.fails Runtime.plain) (commitNext Runtime.plain s pageOps) s.1 1 fs' (p', r) ∧
        Prog.IsError r ∧ p'.Refuses Runtime.plain ∧ ReopensTo Runtime.plain "memory.mind" p' fs'
          { last := s.2.2, inFlight := some (nextTxn Runtime.plain s pageOps).commit }) ∧
      ∃ fs' p' r, Prog.Runs (Fs.fails Runtime.plain) (s.2.1.checkpoint Runtime.plain) s.1 1 fs' (p', r) ∧
        Prog.IsError r ∧ p'.Refuses Runtime.plain ∧ ReopensTo Runtime.plain "memory.mind" p' fs' { last := s.2.2 } := by
  have hall : ((storeAfter Runtime.plain "memory.mind" [pageOps]).any fun s =>
      (Prog.faultAfter Fs.refuse 0 (s.2.1.readPage Runtime.plain 1).run s.1).isSome &&
        ((Prog.faultAfter Fs.refuse 3 (commitNext Runtime.plain s pageOps) s.1).isSome &&
          ((Prog.faultAfter Fs.refuse 4 (s.2.1.checkpoint Runtime.plain) s.1).isSome &&
            decide ((nextTxn Runtime.plain s pageOps).pageCount * (nextTxn Runtime.plain s pageOps).pageSize ≤ 2 ^ 64)))) =
      true := by decide +kernel
  rcases (Option.any_eq_true _ _).mp hall with ⟨s, hs, hfacts⟩
  rw [Bool.and_eq_true, Bool.and_eq_true, Bool.and_eq_true] at hfacts
  rcases hfacts with ⟨hread, hcommit, hcheckpoint, hfits⟩
  rcases Option.isSome_iff_exists.mp hread with ⟨⟨fs₁, r₁⟩, hread⟩
  rcases Option.isSome_iff_exists.mp hcommit with ⟨⟨fs₂, p₂, r₂⟩, hcommit⟩
  rcases Option.isSome_iff_exists.mp hcheckpoint with ⟨⟨fs₃, p₃, r₃⟩, hcheckpoint⟩
  have hrefuse := Fs.fails_of_refuse Runtime.plain
  rcases io_errors_fail_stop (.start (History.storeAfter hs)) Nat.one_pos with ⟨hreads, hcommits, hcheckpoints⟩
  have hread' := Prog.Runs.of_faultAfter hrefuse hread
  have hcommit' := Prog.Runs.of_faultAfter hrefuse hcommit
  have hcheckpoint' := Prog.Runs.of_faultAfter hrefuse hcheckpoint
  have hafter := hreads _ _ _ hread'
  exact ⟨s, hs, ⟨fs₁, r₁, hread', hafter.1, hafter.2.1, hafter.2.2.1⟩,
    ⟨fs₂, p₂, r₂, hcommit', hcommits pageOps 7 _ _ _ _ rfl (of_decide_eq_true hfits) hcommit'⟩,
    ⟨fs₃, p₃, r₃, hcheckpoint', hcheckpoints _ _ _ hcheckpoint'⟩⟩

end Standing

end EmbedMind
