import EmbedMind.Store.Runs
import EmbedMind.Store.Vacuum

/-!
# The life of a store

A store lives in the two files of its pager. Each operation that writes is one transaction, but
for `vacuum`, which puts a new file in the place of the store; between the operations the pager
checkpoints, closes, and is dropped and opened again. The power may fail inside any of these. A
`Life` carries what is known of the store (`Known`): the operations that have returned, and the
one that was cut short, if any.

The invariant of a life (`Survives`) joins the two levels: the files keep what the pager has
promised (`Kept`), and the promised state is the end of a run of the store (`Run`). Whatever a new
store can carry out is a life (`exists_life`).
-/

namespace EmbedMind

open Lib Lib.Assoc

namespace Store

/-! ## The transactions of operations -/

/-- The transaction of an operation that writes, and the store once it is committed. -/
inductive Writes (s : OpenStore) : Op → Txn → OpenStore → Prop where
  | reopen {embedder : Embedder} {t : Txn}
      (slots : Hnsw.vectorSlotsPerPage s.file.header.pageSize embedder.dims ≠ 0)
      (unset : s.file.header.embeddingDims = 0 ∧ s.file.header.embeddingModelId = "")
      (done : (Txn.begin s.file).setEmbeddingModel embedder.id embedder.dims = .ok t) :
      Writes s (.reopen (some embedder)) t ⟨{ s.setup with embedder := some embedder }, t.commit⟩
  | remember {draft : MemoryDraft} {id : Ulid} {now : Int64} {chunks : List (List F32)} {memory : Memory} {t : Txn}
      (fresh : load (s.file.source s.setup.xxh) s.file.header.rootBtreePage id = .ok none)
      (embedded : embedDraftContent s.setup draft.content = .ok chunks)
      (done : writeRemembered s.setup draft chunks id now (Txn.begin s.file) = .ok (memory, t)) :
      Writes s (.remember draft id now) t ⟨s.setup, t.commit⟩
  | forget {id : Ulid} {t : Txn} (done : writeForgotten s.setup id (Txn.begin s.file) = .ok (true, t)) :
      Writes s (.forget id) t ⟨s.setup, t.commit⟩

section Writes

variable {s s' : OpenStore} {op : Op} {t : Txn}

/-- The transaction of an operation carries it out. -/
theorem Writes.step (h : Writes s op t s') : Step s op s' := by
  cases h with
  | reopen slots unset done =>
      refine .reopen _ ?_
      unfold initEmbeddingHeader
      dsimp only
      rw [if_neg slots, if_pos unset, done]
      rfl
  | @remember draft id now chunks memory t fresh embedded done =>
      refine @Step.remember s draft id now memory t.commit fresh ?_
      unfold Store.remember transact
      rw [embedded, ok_bind]
      change (writeRemembered s.setup _ _ _ _ (Txn.begin s.file) >>= _) = _
      rw [done, ok_bind]
  | @forget id t done =>
      refine @Step.forget s id true t.commit ?_
      unfold Store.forget
      change (writeForgotten s.setup _ (Txn.begin s.file) >>= _) = _
      rw [done, ok_bind]
      rfl

/-- The transaction is one of the state it starts from. -/
theorem Writes.txn {w : World} (h : Writes s op t s') (hs : Holds s.setup s.file w) :
    t.Wf s.setup.xxh ∧ t.base = s.file ∧ s'.file = t.commit := by
  rcases hs.structures with ⟨x, a, hin, hx⟩
  -- the transaction is well formed because the structures of the store hold in it
  cases h with
  | @reopen embedder t slots unset done =>
      rcases setEmbeddingModel_wf hin.wf done with ⟨hwf, hbase⟩
      exact ⟨hwf, hbase, rfl⟩
  | @remember draft id now chunks memory t fresh embedded done =>
      have hid : w.get id = none := by
        rw [hs.load] at fresh
        exact Except.ok.inj fresh
      have hnone : s.setup.embedder = none → chunks = [] := fun hnone => embedDraftContent_none hnone embedded
      rcases (wp_writeRemembered hin.begin hx hs.wf hid (fun e he => (hs.embedder e he).1) hnone).ok done with
        ⟨_, x', hremembered, _⟩
      rcases hremembered.moved.inTxn with ⟨_, hin'⟩
      exact ⟨hin'.wf, hremembered.moved.base, rfl⟩
  | forget done =>
      rcases ((wp_writeForgotten hin.begin hx hs.wf).ok done).1 rfl with ⟨_, x', hmoved, _⟩
      rcases hmoved.inTxn with ⟨_, hin'⟩
      exact ⟨hin'.wf, hmoved.base, rfl⟩

/-- The transaction of an operation, computed. -/
def Op.txn (s : OpenStore) : Op → Option (Txn × OpenStore)
  | .reopen (some embedder) =>
      let setup : Setup := { s.setup with embedder := some embedder }
      (modelTxn setup s.file).toOption.join.map fun t => (t, ⟨setup, t.commit⟩)
  | .remember draft id now =>
      match load (s.file.source s.setup.xxh) s.file.header.rootBtreePage id with
      | .ok none => do
          let chunks ← (embedDraftContent s.setup draft.content).toOption
          let (_, t) ← (writeRemembered s.setup draft chunks id now (Txn.begin s.file)).toOption
          some (t, ⟨s.setup, t.commit⟩)
      | _ => none
  | .forget id =>
      match writeForgotten s.setup id (Txn.begin s.file) with
      | .ok (true, t) => some (t, ⟨s.setup, t.commit⟩)
      | _ => none
  | _ => none

/-- The computed transaction is the one of the operation. -/
theorem Writes.of_txn (h : op.txn s = some (t, s')) : Writes s op t s' := by
  unfold Op.txn at h
  split at h
  · rename_i embedder
    rcases Option.map_eq_some_iff.mp h with ⟨t', ht', heq⟩
    have hmodel := toOption_eq_some.mp (Option.join_eq_some_iff.mp ht')
    cases heq
    unfold modelTxn at hmodel
    dsimp only at hmodel
    split_ifs at hmodel with hslots hunset hother
    · rcases bind_eq_ok.mp hmodel with ⟨t'', hdone, heq⟩
      cases heq
      exact .reopen hslots hunset hdone
    · cases hmodel
  · split at h
    · rename_i hfresh
      rcases Option.bind_eq_some_iff.mp h with ⟨chunks, hchunks, hrest⟩
      rcases Option.bind_eq_some_iff.mp hrest with ⟨⟨memory, t'⟩, hdone, heq⟩
      cases heq
      exact .remember hfresh (toOption_eq_some.mp hchunks) (toOption_eq_some.mp hdone)
    · cases h
  · split at h
    · rename_i hdone
      cases h
      exact .forget hdone
    · cases h
  · cases h

/-- A step that is no vacuum is a transaction, or leaves the file as it is. -/
theorem Step.txn (h : Step s op s') (hop : op ≠ .vacuum) : (∃ t, op.txn s = some (t, s')) ∨ s'.file = s.file := by
  cases h with
  | @reopen c' embedder done =>
      -- reopening writes only when it records the embedding model
      cases embedder with
      | none =>
          cases done
          exact Or.inr rfl
      | some embedder =>
          rw [initEmbeddingHeader_eq] at done
          rcases bind_eq_ok.mp done with ⟨found, hfound, heq⟩
          cases heq
          cases found with
          | none => exact Or.inr rfl
          | some t =>
              refine Or.inl ⟨t, ?_⟩
              unfold Op.txn
              dsimp only
              rw [hfound]
              rfl
  | @remember draft id now memory c' fresh done =>
      unfold Store.remember transact at done
      rcases bind_eq_ok.mp done with ⟨chunks, hchunks, hwritten⟩
      rcases bind_eq_ok.mp hwritten with ⟨⟨memory', t⟩, hbody, heq⟩
      cases heq
      refine Or.inl ⟨t, ?_⟩
      unfold Op.txn
      dsimp only
      rw [fresh, hchunks]
      change (writeRemembered s.setup draft chunks id now (Txn.begin s.file)).toOption.bind _ = _
      rw [show writeRemembered s.setup draft chunks id now (Txn.begin s.file) = .ok (memory, t) from hbody]
      rfl
  | @forget id written c' done =>
      unfold Store.forget at done
      rcases bind_eq_ok.mp done with ⟨⟨written', t⟩, hbody, heq⟩
      cases heq
      cases written with
      | false => exact Or.inr rfl
      | true =>
          refine Or.inl ⟨t, ?_⟩
          unfold Op.txn
          dsimp only
          rw [show writeForgotten s.setup id (Txn.begin s.file) = .ok (true, t) from hbody]
          rfl
  | vacuum done => exact absurd rfl hop

/-- The transactions of an operation. -/
def Op.txns (s : OpenStore) : Op → List Txn
  | .vacuum => (compactTxns s.setup s.file).1
  | op => ((op.txn s).map Prod.fst).toList

/-- An operation, carried out as long as page offsets stay within 64 bits. -/
def Op.execFits (s : OpenStore) (op : Op) : Option OpenStore :=
  if ∀ t ∈ op.txns s, t.pageCount * t.pageSize ≤ 2 ^ 64 then op.exec s else none

/-- No operation changes the hash. -/
theorem Op.setup_xxh (op : Op) (S : Setup) : (op.setup S).xxh = S.xxh := by
  cases op <;> rfl

end Writes

/-! ## A store and its files -/

/-- What is known of a store: its state and the operations that have returned, and what the state becomes if the one
that was cut short took effect. -/
structure Known where
  store : OpenStore
  ops : List Op := []
  inFlight : Option (Op × OpenStore) := none

def Known.expected (k : Known) : Expected := ⟨k.store.file, k.inFlight.map fun x => x.2.file⟩

/-- The store as a pager shows it. -/
def Known.through (k : Known) (p : Pager) : OpenStore :=
  ⟨k.store.setup, { header := p.header, pages := k.store.file.pages }⟩

/-- The transactions of the compaction of a store, with their salts. Page offsets are 64-bit numbers. -/
def Compacts (s : OpenStore) (txns : List (UInt64 × Txn)) : Prop :=
  txns.map Prod.snd = (compactTxns s.setup s.file).1 ∧ ∀ x ∈ txns, x.2.pageCount * x.2.pageSize ≤ 2 ^ 64

/-- `vacuum` on a store and its files. -/
def vacuumOf (R : Runtime) (path : Path) (s : OpenStore) (txns : List (UInt64 × Txn)) (p : Pager) :
    Prog vfs (Pager × Except Error Unit) :=
  vacuumFiles R path txns (compactTxns s.setup s.file).2 p

/-- The life of a store from its creation on, with power failures anywhere. -/
inductive Life (R : Runtime) (path : Path) (s₀ : OpenStore) : Fs → Option Pager → Known → Prop where
  -- the model of an embedder is written by a transaction of its own, after the creation
  | create {fs fs' : Fs} {opts : PagerOptions} {p : Pager} : fs.Tidy →
      (Pager.create R path opts).run.run fs = (fs', .ok p) → s₀.setup.xxh = R.xxh → s₀.setup.embedder = none →
      s₀.file = createdState opts → Life R path s₀ fs' (some p) { store := s₀ }
  -- a call that has nothing to commit
  | idle {fs : Fs} {p : Pager} {k : Known} {op : Op} {s : OpenStore} : Life R path s₀ fs (some p) k →
      Step k.store op s → op ≠ .vacuum → s.file = k.store.file →
      Life R path s₀ fs (some p) { store := s, ops := k.ops ++ [op] }
  | write {fs fs' : Fs} {p p' : Pager} {k : Known} {op : Op} {t : Txn} {s : OpenStore} {n : Nat} (salt : UInt64) :
      Life R path s₀ fs (some p) k → Writes (k.through p) op t s → t.pageCount * t.pageSize ≤ 2 ^ 64 →
      (p.commitTxn R salt t.dirty t.pageCount t.pending).run fs = (fs', p', .ok n) →
      Life R path s₀ fs' (some p') { store := s, ops := k.ops ++ [op] }
  -- the commit is cut short: the next opening tells whether it took effect
  | writeCrash {fs fs' fs'' : Fs} {p : Pager} {k : Known} {op : Op} {t : Txn} {s : OpenStore} (salt : UInt64) :
      Life R path s₀ fs (some p) k → Writes (k.through p) op t s → t.pageCount * t.pageSize ≤ 2 ^ 64 →
      Prog.Interrupt (p.commitTxn R salt t.dirty t.pageCount t.pending) fs fs' → Crash R fs' fs'' →
      Life R path s₀ fs'' none { k with inFlight := some (op, s) }
  | vacuum {fs fs' : Fs} {p p' : Pager} {k : Known} {txns : List (UInt64 × Txn)} {s : OpenStore} :
      Life R path s₀ fs (some p) k → Compacts (k.through p) txns → Step (k.through p) .vacuum s →
      (vacuumOf R path (k.through p) txns p).run fs = (fs', p', .ok ()) →
      Life R path s₀ fs' (some p') { store := s, ops := k.ops ++ [.vacuum] }
  -- a compaction that fails changes nothing
  | vacuumFailed {fs fs' : Fs} {p p' : Pager} {k : Known} {txns : List (UInt64 × Txn)} {e : Error} :
      Life R path s₀ fs (some p) k → Compacts (k.through p) txns →
      (vacuumOf R path (k.through p) txns p).run fs = (fs', p', .error e) → Life R path s₀ fs' (some p') k
  | vacuumCrash {fs fs' fs'' : Fs} {p : Pager} {k : Known} {txns : List (UInt64 × Txn)} :
      Life R path s₀ fs (some p) k → Compacts (k.through p) txns →
      Prog.Interrupt (vacuumOf R path (k.through p) txns p) fs fs' → Crash R fs' fs'' →
      Life R path s₀ fs'' none { k with inFlight := (Op.exec k.store .vacuum).map fun s => (.vacuum, s) }
  -- checkpoints, closes and drops, and power failures in these and in openings
  | quiet {fs fs' : Fs} {pager pager' : Option Pager} {k : Known} : Life R path s₀ fs pager k →
      Quiet R path fs pager fs' pager' → Life R path s₀ fs' pager' k
  -- `open` first removes what a vacuum has left, or a part of it if the process dies
  | sweep {fs fs' : Fs} {k : Known} : Life R path s₀ fs none k →
      Prog.Interrupt (sweepOrphans (vacuumOrphans path)).run fs fs' → Life R path s₀ fs' none k
  -- an opening shows one of the two states
  | reopen {fs fs' : Fs} {opts : PagerOptions} {p : Pager} {k : Known} : Life R path s₀ fs none k →
      (Pager.openStore R path opts).run.run fs = (fs', .ok p) → Shows R p fs' k.store.file →
      Life R path s₀ fs' (some p) { k with inFlight := none }
  | reopenAfter {fs fs' : Fs} {opts : PagerOptions} {p : Pager} {k : Known} {op : Op} {s : OpenStore} :
      Life R path s₀ fs none k → (Pager.openStore R path opts).run.run fs = (fs', .ok p) →
      k.inFlight = some (op, s) → Shows R p fs' s.file →
      Life R path s₀ fs' (some p) { store := s, ops := k.ops ++ [op] }

/-- What a life keeps. -/
structure Survives (R : Runtime) (path : Path) (s₀ : OpenStore) (fs : Fs) (pager : Option Pager) (k : Known) : Prop where
  created : Created s₀
  tidy : fs.Tidy
  kept : Kept R path fs k.expected pager
  run : Run s₀ k.ops k.store
  xxh : k.store.setup.xxh = R.xxh
  cut : ∀ op s, k.inFlight = some (op, s) → Step k.store op s

section Life

variable {R : Runtime} {path : Path} {s₀ : OpenStore} {fs fs' : Fs} {k : Known} {p : Pager}

/-- What `create` makes is a created store. -/
theorem created_of_create {opts : PagerOptions} (hrun : (Pager.create R path opts).run.run fs = (fs', .ok p))
    (hnone : s₀.setup.embedder = none) (hfile : s₀.file = createdState opts) : Created s₀ := by
  rcases valid_of_create hrun with ⟨hv, hv', hps⟩
  refine ⟨opts.formatVersion, opts.pageSize, hv, hv', hps, ?_⟩
  unfold initEmbeddingHeader
  rw [hnone, hfile]
  rfl

/-- A running pager shows the store that is known. -/
theorem Known.through_eq {e : Expected} {fm fw : Nat} {main log : Bytes} (hlast : e.last = k.store.file)
    (h : Live R.xxh e.last path p fs fm fw main log) : k.through p = k.store := by
  unfold Known.through
  rw [h.header, hlast]

/-- What survives holds a world. -/
theorem Survives.holds {pager : Option Pager} (h : Survives R path s₀ fs pager k) :
    ∃ w, World.Run s₀.setup {} k.ops w ∧ Holds k.store.setup k.store.file w ∧ w.Closed :=
  h.run.refines h.created.holds World.closed_empty

/-- The transaction of an operation on a running store. -/
theorem Survives.txn {op : Op} {t : Txn} {s : OpenStore} (h : Survives R path s₀ fs (some p) k)
    (hw : Writes (k.through p) op t s) :
    ∃ fm fw main log, Live R.xxh t.base path p fs fm fw main log ∧ t.Wf R.xxh ∧ t.base = k.store.file ∧
      s.file = t.commit ∧ Step k.store op s := by
  rcases h.kept with ⟨_, fm, fw, main, log, hlive⟩
  rw [Known.through_eq rfl hlive] at hw
  rcases h.holds with ⟨w, _, hholds, _⟩
  rcases hw.txn hholds with ⟨hwf, hbase, hfile⟩
  rw [h.xxh] at hwf
  exact ⟨fm, fw, main, log, hbase ▸ hlive, hwf, hbase, hfile, hw.step⟩

/-- A running store, with what its transactions need. -/
theorem Survives.live (h : Survives R path s₀ fs (some p) k) :
    ∃ fm fw main log, Live R.xxh k.store.file path p fs fm fw main log ∧ k.through p = k.store := by
  rcases h.kept with ⟨_, fm, fw, main, log, hlive⟩
  exact ⟨fm, fw, main, log, hlive, Known.through_eq rfl hlive⟩

/-- A vacuum of a running store ends with the old store or with the compacted one under its path, and so does one that is
cut short. -/
theorem Survives.vacuum {txns : List (UInt64 × Txn)} (h : Survives R path s₀ fs (some p) k)
    (hc : Compacts (k.through p) txns) :
    ∃ c', buildCompacted k.store.setup k.store.file = (compactTxns k.store.setup k.store.file).2 >>= (fun _ => .ok c') ∧
      Wpc (vacuumOf R path (k.through p) txns p) fs
        (fun r s => r.2 = (compactTxns k.store.setup k.store.file).2 ∧
          ∃ fm fw main, Live R.xxh (vacuumed k.store.file c' r.2) path r.1 s fm fw main [])
        (CrashOk R.xxh (fun x => x = k.store.file ∨
          x = vacuumed k.store.file c' (compactTxns k.store.setup k.store.file).2) path) := by
  rcases h.live with ⟨fm, fw, main, log, hlive, hthrough⟩
  rcases h.holds with ⟨w, _, hholds, _⟩
  rcases hholds.compactTxns with ⟨c', hcommits, hbuilt⟩
  rw [hthrough] at hc ⊢
  rw [h.xxh, ← hc.1] at hcommits
  refine ⟨c', hbuilt, (wpc_vacuumFiles hlive h.tidy hcommits hc.2 _).mono ?_ fun _ hs => hs⟩
  intro r s hr
  rcases hr with ⟨hr, hnew⟩
  rw [hr]
  exact ⟨rfl, hnew⟩

/-- Inside a vacuum that gets through, the store is closed and the compacted copy has its name. -/
theorem Survives.vacuum_replaces {txns : List (UInt64 × Txn)} (h : Survives R path s₀ fs (some p) k)
    (hc : Compacts (k.through p) txns) (hok : (compactTxns k.store.setup k.store.file).2 = .ok ()) :
    ∃ fs' c' parked, Prog.Interrupt (vacuumOf R path (k.through p) txns p) fs fs' ∧ Replaced R c' path parked fs' ∧
      buildCompacted k.store.setup k.store.file = .ok c' := by
  rcases h.live with ⟨fm, fw, main, log, hlive, hthrough⟩
  rcases h.holds with ⟨w, _, hholds, _⟩
  rcases hholds.compactTxns with ⟨c', hcommits, hbuilt⟩
  rw [hthrough] at hc ⊢
  rw [h.xxh, ← hc.1] at hcommits
  rw [hok] at hbuilt
  unfold vacuumOf
  rw [hok]
  rcases vacuumFiles_replaces hlive h.tidy hcommits hc.2 with ⟨fs', parked, hint, hreplaced⟩
  exact ⟨fs', c', parked, hint, hreplaced, hbuilt⟩

/-- A call that commits nothing leaves a tidy file system. -/
theorem tidy_quiet {pager pager' : Option Pager} (hfs : fs.Tidy) (h : Quiet R path fs pager fs' pager') : fs'.Tidy := by
  cases h with
  | checkpoint hrun => exact hfs.of_run hrun
  | checkpointCrash hint hcrash => exact (hfs.interrupt hint).crash hcrash
  | close hrun => exact hfs.of_run hrun
  | closeCrash hint hcrash => exact (hfs.interrupt hint).crash hcrash
  | drop hrun => exact hfs.of_run hrun
  | dropCrash hint hcrash => exact (hfs.interrupt hint).crash hcrash
  | reopenCrash hint hcrash => exact (hfs.interrupt hint).crash hcrash

/-- An opening of what survives, which shows `c`. -/
theorem Survives.opened {opts : PagerOptions} {c : Committed} (h : Survives R path s₀ fs none k)
    (hrun : (Pager.openStore R path opts).run.run fs = (fs', .ok p)) (hshows : Shows R p fs' c) :
    Kept R path fs' { last := c } (some p) := by
  rcases h.kept with ⟨c', fm, main, wal, _, hrest⟩
  rcases (wpc_openStore hrest opts).1 with ⟨p', hp', fw, b, hlive⟩
  rw [hrun] at hp' hlive
  cases hp'
  exact ⟨rfl, fm, fw, b, [], hlive.same (same_of_shows hlive.storable.wf hlive.shows hshows)⟩

/-- Every life survives. -/
theorem Life.survives {pager : Option Pager} (h : Life R path s₀ fs pager k) : Survives R path s₀ fs pager k := by
  -- by induction on the life: `Kept` moves with the pager, `Run` grows by each operation that took effect
  induction h with
  | create hfs hrun hxxh hnone hfile =>
      rcases live_of_create hfs.toWf hrun with ⟨fm, fw, main, hlive⟩
      refine ⟨created_of_create hrun hnone hfile, hfs.of_run hrun, ⟨rfl, fm, fw, main, [], ?_⟩, .nil s₀, hxxh, by simp⟩
      change Live R.xxh s₀.file path _ _ fm fw main []
      rw [hfile]
      exact hlive
  | @idle fs p k op s _ hstep _ hfile ih =>
      rcases ih.live with ⟨fm, fw, main, log, hlive, _⟩
      refine ⟨ih.created, ih.tidy, ⟨rfl, fm, fw, main, log, ?_⟩, ih.run.snoc hstep, ?_, by simp⟩
      · change Live R.xxh s.file path p fs fm fw main log
        rw [hfile]
        exact hlive
      · rw [hstep.setup, op.setup_xxh, ih.xxh]
  | @write fs fs' p p' k op t s n salt _ hw hfits hrun ih =>
      rcases ih.txn hw with ⟨fm, fw, main, log, hlive, hwf, hbase, hfile, hstep⟩
      rcases (wpc_commitTxn hlive hwf hfits salt).1 with ⟨_, main', log', hnew⟩
      rw [hrun] at hnew
      refine ⟨ih.created, ih.tidy.of_run hrun, ⟨rfl, fm, fw, main', log', ?_⟩, ih.run.snoc hstep, ?_, by simp⟩
      · change Live R.xxh s.file path p' fs' fm fw main' log'
        rw [hfile]
        exact hnew
      · rw [hstep.setup, op.setup_xxh, ih.xxh]
  | @writeCrash fs fs' fs'' p k op t s salt _ hw hfits hint hcrash ih =>
      rcases ih.txn hw with ⟨fm, fw, main, log, hlive, hwf, hbase, hfile, hstep⟩
      refine ⟨ih.created, (ih.tidy.interrupt hint).crash hcrash,
        kept_of_crashOk ((wpc_commitTxn hlive hwf hfits salt).2 _ hint) hcrash ?_, ih.run, ih.xxh, ?_⟩
      · intro c hc
        rcases hc with rfl | rfl
        · exact Or.inl hbase
        · exact Or.inr (congrArg some hfile)
      · intro op' s' hsome
        cases hsome
        exact hstep
  | @vacuum fs fs' p p' k txns s _ hc hstep hrun ih =>
      rcases ih.vacuum hc with ⟨c', hbuilt, hvacuum, _⟩
      rcases ih.live with ⟨_, _, _, _, _, hthrough⟩
      rw [hrun] at hvacuum
      rcases hvacuum with ⟨hok, fm, fw, main, hnew⟩
      rw [hthrough] at hstep
      -- the compaction got through, so it made the state that the vacuum left
      rw [← hok] at hbuilt
      have hfile : s.file = c' := by
        cases hstep with
        | vacuum done => exact Except.ok.inj (done.symm.trans hbuilt)
      refine ⟨ih.created, ih.tidy.of_run hrun, ⟨rfl, fm, fw, main, [], ?_⟩, ih.run.snoc hstep, ?_, by simp⟩
      · change Live R.xxh s.file path p' fs' fm fw main []
        rw [hfile]
        exact hnew
      · rw [hstep.setup, Op.setup_xxh, ih.xxh]
  | @vacuumFailed fs fs' p p' k txns e _ hc hrun ih =>
      rcases ih.vacuum hc with ⟨c', _, hvacuum, _⟩
      rw [hrun] at hvacuum
      rcases hvacuum with ⟨_, fm, fw, main, hold⟩
      exact ⟨ih.created, ih.tidy.of_run hrun, ⟨ih.kept.1, fm, fw, main, [], hold⟩, ih.run, ih.xxh, ih.cut⟩
  | @vacuumCrash fs fs' fs'' p k txns _ hc hint hcrash ih =>
      rcases ih.vacuum hc with ⟨c', hbuilt, _, hcut⟩
      refine ⟨ih.created, (ih.tidy.interrupt hint).crash hcrash, kept_of_crashOk (hcut _ hint) hcrash ?_, ih.run, ih.xxh, ?_⟩
      · intro c hc
        rcases hc with rfl | rfl
        · exact Or.inl rfl
        · cases hresult : (compactTxns k.store.setup k.store.file).2 with
          | error e => exact Or.inl rfl
          | ok u =>
              rw [hresult] at hbuilt
              refine Or.inr ?_
              unfold Known.expected Op.exec
              dsimp only
              rw [hbuilt]
              rfl
      · intro op s hsome
        rcases Option.map_eq_some_iff.mp hsome with ⟨s', hs', heq⟩
        cases heq
        exact step_iff_exec.mpr hs'
  | quiet _ hquiet ih => exact ⟨ih.created, tidy_quiet ih.tidy hquiet, ih.kept.quiet hquiet, ih.run, ih.xxh, ih.cut⟩
  | sweep _ hint ih =>
      rcases ih.kept with ⟨c, fm, main, wal, hc, hrest⟩
      have hswept := wpc_beside Wpc.any (stays_sweepOrphans (A := ∅) fun q => mem_vacuumOrphans.mp) ih.tidy
        (Reach.sound_names _ _) (Reach.sound_names (storeNames path) _) fun q hq hq' => path_apart path q hq' hq
      refine ⟨ih.created, ih.tidy.interrupt hint, ⟨c, fm, main, wal, hc, ?_⟩, ih.run, ih.xxh, ih.cut⟩
      exact hrest.untouched (hswept.2 _ hint).2
  | reopen _ hrun hshows ih => exact ⟨ih.created, ih.tidy.of_run hrun, ih.opened hrun hshows, ih.run, ih.xxh, by simp⟩
  | @reopenAfter fs fs' opts p k op s _ hrun hcut hshows ih =>
      have hstep := ih.cut op s hcut
      refine ⟨ih.created, ih.tidy.of_run hrun, ih.opened hrun hshows, ih.run.snoc hstep, ?_, by simp⟩
      rw [hstep.setup, op.setup_xxh, ih.xxh]

/-- The compaction of a running store that a vacuum can carry out. -/
theorem Survives.compacts {s : OpenStore} (h : Survives R path s₀ fs (some p) k)
    (hnext : Op.vacuum.execFits k.store = some s) :
    ∃ txns, Compacts (k.through p) txns ∧ Step k.store .vacuum s ∧
      buildCompacted k.store.setup k.store.file = .ok s.file ∧ (compactTxns k.store.setup k.store.file).2 = .ok () := by
  rcases h.live with ⟨fm, fw, main, log, hlive, hthrough⟩
  rcases h.holds with ⟨w, _, hholds, _⟩
  rcases hholds.compactTxns with ⟨c', _, hbuilt⟩
  unfold Op.execFits at hnext
  split at hnext
  · rename_i hfits
    have hstep := step_iff_exec.mpr hnext
    refine ⟨(compactTxns k.store.setup k.store.file).1.map fun t => (0, t), ?_, hstep, ?_⟩
    · rw [hthrough]
      refine ⟨by simp [Function.comp_def], ?_⟩
      intro x hx
      rcases List.mem_map.mp hx with ⟨t, ht, rfl⟩
      exact hfits t ht
    · cases hstep with
      | vacuum done =>
          refine ⟨done, ?_⟩
          rw [hbuilt] at done
          rcases bind_eq_ok.mp done with ⟨u, hu, _⟩
          exact hu
  · cases hnext

/-- A life goes on with every operation that the store can carry out. -/
theorem Life.next {op : Op} {s : OpenStore} (h : Life R path s₀ fs (some p) k) (hnext : op.execFits k.store = some s) :
    ∃ fs' p', Life R path s₀ fs' (some p') { store := s, ops := k.ops ++ [op] } := by
  have hs := h.survives
  rcases hs.live with ⟨fm, fw, main, log, hlive, hthrough⟩
  by_cases hop : op = .vacuum
  · subst hop
    rcases hs.compacts hnext with ⟨txns, hc, hstep, _, hok⟩
    rcases hs.vacuum hc with ⟨c', _, hvacuum, _⟩
    have hresult := hvacuum.1
    rw [hok] at hresult
    exact ⟨_, _, h.vacuum hc (hthrough.symm ▸ hstep) (Prod.ext rfl (Prod.ext rfl hresult))⟩
  · unfold Op.execFits at hnext
    split at hnext
    · rename_i hfits
      have hstep := step_iff_exec.mpr hnext
      rcases hstep.txn hop with htxn | hsame
      · rcases htxn with ⟨t, ht⟩
        have hw : Writes (k.through p) op t s := hthrough.symm ▸ Writes.of_txn ht
        have hsize : t.pageCount * t.pageSize ≤ 2 ^ 64 := by
          refine hfits t ?_
          cases op with
          | vacuum => exact absurd rfl hop
          | _ => simp [Op.txns, ht]
        rcases hs.txn hw with ⟨_, _, _, _, hlive', hwf, _⟩
        rcases (wpc_commitTxn hlive' hwf hsize 0).1 with ⟨hok, _⟩
        exact ⟨_, _, h.write 0 hw hsize (Prod.ext rfl (Prod.ext rfl hok))⟩
      · exact ⟨_, _, h.idle hstep hop hsame⟩
    · cases hnext

/-- Whatever a new store can carry out is the life of one on a file system. -/
theorem exists_life {ops : List Op} {s : OpenStore} (opts : PagerOptions) (hv : 1 ≤ opts.formatVersion)
    (hv' : opts.formatVersion ≤ FORMAT_VERSION) (hps : pageSizeIsValid opts.pageSize = true)
    (hxxh : s₀.setup.xxh = R.xxh) (hnone : s₀.setup.embedder = none) (hfile : s₀.file = createdState opts)
    (hrun : ops.foldlM Op.execFits s₀ = some s) : ∃ fs p, Life R path s₀ fs (some p) { store := s, ops } := by
  induction ops using List.reverseRecOn generalizing s with
  | nil =>
      cases hrun
      rcases exists_create R path opts Fs.wf_empty hv hv' hps rfl with ⟨fs, p, hcreate, _⟩
      exact ⟨fs, p, .create Fs.tidy_empty hcreate hxxh hnone hfile⟩
  | append_singleton ops op ih =>
      rw [List.foldlM_append] at hrun
      rcases Option.bind_eq_some_iff.mp hrun with ⟨s₁, hfirst, hlast⟩
      rcases Option.bind_eq_some_iff.mp hlast with ⟨s₂, hnext, hend⟩
      cases hend
      rcases ih hfirst with ⟨fs, p, hlife⟩
      exact hlife.next hnext

end Life

end Store

end EmbedMind
