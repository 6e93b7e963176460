import EmbedMind.Storage.Reported
import EmbedMind.Store.Crashes

/-!
# Trying again

`remember` and `forget` end with the commit of their transaction and pass its error on, so what a
commit reports is what the caller of the store is told. Neither call reports what has happened to
its transaction (`Life.write_not_reported`): a caller who opens the store after an error and tries
again may store the same memory twice (`retry_stores_twice`).
-/

namespace EmbedMind

open Lib Lib.Assoc

namespace Store

section Writes

variable {s s' : OpenStore} {op : Op} {t : Txn} {w : World}

/-- A file holds one record under an id. -/
theorem Holds.get_inj {S : Setup} {c : Committed} {w w' : World} (h : Holds S c w) (h' : Holds S c w') (id : Ulid) :
    w.get id = w'.get id :=
  Except.ok.inj ((h.load id).symm.trans (h'.load id))

/-- Remembering and forgetting change the file. -/
theorem Writes.not_empty (h : Writes s op t s') (hs : Holds s.setup s.file w) (hop : ∀ embedder, op ≠ .reopen embedder) :
    t.isEmpty = false := by
  by_contra hempty
  rcases h.txn hs with ⟨_, hbase, hfile⟩
  have hsame : s'.file = s.file := by
    rw [hfile, Txn.commit_of_isEmpty (by simpa using hempty), hbase]
  have hsetup := h.step.setup
  rcases h.step.refines hs with ⟨w', hstep, hholds⟩
  rw [hsame, hsetup] at hholds
  -- the same file would hold the world before and the world after
  cases h with
  | reopen _ _ _ => exact hop _ rfl
  | @remember draft id now chunks memory t fresh embedded done =>
      have hget := hs.get_inj hholds id
      cases hstep with
      | remember hid _ _ =>
          rw [hid, World.remember, World.get_add] at hget
          simp [World.recordOf, MemoryRecord.normalize] at hget
  | @forget id t done =>
      have hforget : Store.forget s.setup s.file id = .ok (true, t.commit) := by
        unfold Store.forget
        change (writeForgotten s.setup _ (Txn.begin s.file) >>= _) = _
        rw [done, ok_bind]
        rfl
      rcases (hs.forget hforget).2.1.mp rfl with ⟨r, hr, hlive⟩
      have hget := hs.get_inj hholds id
      cases hstep
      rw [World.get_forget, hr] at hget
      simp only [Option.map_some, if_true, Option.some.injEq] at hget
      rw [hget] at hlive
      cases hlive

end Writes

/-- A memory that was remembered is there with its text. -/
theorem World.get_remembered (w : World) (draft : MemoryDraft) (chunks : List (List F32)) (id : Ulid) (now : Int64)
    (vecRef : Option VecRef) : ∃ r, (w.remember draft chunks id now vecRef).get id = some r ∧ r.content = draft.content :=
  ⟨_, (World.get_add _ _ _ _ id).trans (if_pos rfl), rfl⟩

/-- The text of a memory stays when another one is remembered. -/
theorem World.get_remember_of_ne {w : World} (draft : MemoryDraft) (chunks : List (List F32)) {id id' : Ulid}
    (now : Int64) (vecRef : Option VecRef) (hne : id ≠ id') {r : MemoryRecord} (hr : w.get id = some r) :
    ∃ r', (w.remember draft chunks id' now vecRef).get id = some r' ∧ r'.content = r.content := by
  have hget : (w.remember draft chunks id' now vecRef).get id = (w.supersede draft.supersedes).get id :=
    (World.get_add _ _ _ _ id).trans (if_neg hne)
  rw [hget, World.get_supersede, hr]
  refine ⟨_, rfl, ?_⟩
  dsimp only
  split <;> rfl

section Life

variable {R : Runtime} {path : Path} {s₀ : OpenStore} {fs : Fs} {k : Known} {p : Pager}

/-- What the commit of a memory, or of its removal, reports is not what has happened: some call fails, the operation
returns an error, and the store that is opened next has it done. -/
theorem Life.write_not_reported {op : Op} {t : Txn} {s : OpenStore} (h : Life R path s₀ fs (some p) k)
    (hw : Writes (k.through p) op t s) (hop : ∀ embedder, op ≠ .reopen embedder) (hfits : t.pageCount * t.pageSize ≤ 2 ^ 64)
    (salt : UInt64) :
    ∃ fs' err, Prog.Runs (Fs.fails R) (p.commitTxn R salt t.dirty t.pageCount t.pending) fs 1 fs'
        ({ p with broken := true }, .error err) ∧
      Standing R path fs' { last := s.file } (some { p with broken := true }) := by
  rcases h.survives.kept with ⟨_, fm, fw, main, log, hopen⟩
  rcases h.survives.txn hw with ⟨fm', fw', main', log', hlive, hwf, _, hfile, _⟩
  rcases h.survives.holds with ⟨w, _, hholds, _⟩
  rw [← Known.through_eq rfl hopen] at hholds
  rw [hfile]
  exact hlive.settled.commit_fails_written hwf (hw.not_empty hholds hop) hfits salt

/-- A caller who is told that a memory was not stored, opens the store and tries again, has it stored twice. -/
theorem retry_stores_twice {draft : MemoryDraft} {id : Ulid} {now : Int64} {t : Txn} {s : OpenStore} {salt : UInt64}
    (h : Life R path s₀ fs (some p) k) (hw : Writes (k.through p) (.remember draft id now) t s)
    (hfits : t.pageCount * t.pageSize ≤ 2 ^ 64) :
    ∃ fs' p' err, Prog.Runs (Fs.fails R) (p.commitTxn R salt t.dirty t.pageCount t.pending) fs 1 fs' (p', .error err) ∧
      ∀ opts, ∃ fs₁ fs₂ p₂, p'.drop.run.run fs' = (fs₁, .ok ()) ∧
        (Pager.openStore R path opts).run.run fs₁ = (fs₂, .ok p₂) ∧ Shows R p₂ fs₂ s.file ∧
        ∀ id' now' t' s' salt', Writes s (.remember draft id' now') t' s' → t'.pageCount * t'.pageSize ≤ 2 ^ 64 →
          (∃ fs₃ p₃ n, (p₂.commitTxn R salt' t'.dirty t'.pageCount t'.pending).run fs₂ = (fs₃, p₃, .ok n) ∧
            Shows R p₃ fs₃ s'.file) ∧
          ∃ w, Answers s' w ∧ id ≠ id' ∧ ∃ r r', w.get id = some r ∧ w.get id' = some r' ∧
            r.content = draft.content ∧ r'.content = draft.content := by
  -- the failed call, and the store the next open finds
  rcases h.write_not_reported hw (by simp) hfits salt with ⟨fs', err, hrun, hstanding⟩
  rcases h.survives.txn hw with ⟨_, _, _, _, _, _, _, _, hstep⟩
  rcases h.survives.holds with ⟨w, _, hholds, _⟩
  rcases hstep.refines hholds with ⟨w₁, hfirst, hholds₁⟩
  -- the caller drops the pager and opens the path again
  refine ⟨fs', _, err, hrun, ?_⟩
  intro opts
  rcases hstanding.drop with ⟨hdrop, hrest⟩
  rcases hrest.open opts with ⟨p₂, c, hopen, hc, fm, fw, main, hlive⟩
  obtain rfl : c = s.file := hc.resolve_right (by simp)
  refine ⟨_, _, p₂, Prod.ext rfl hdrop, Prod.ext rfl hopen, hlive.shows.alike (Fs.alike_settled _).symm, ?_⟩
  intro id' now' t' s' salt' hw' hfits'
  constructor
  · -- no call fails this time
    rcases hw'.txn hholds₁ with ⟨hwf, hbase, hfile⟩
    have hxxh : s.setup.xxh = R.xxh := by
      rw [hstep.setup, Op.setup_xxh, h.survives.xxh]
    rw [hxxh] at hwf
    rw [← hbase] at hlive
    rw [hfile]
    rcases (wpc_commitTxn hlive hwf hfits' salt').1 with ⟨hok, main', log', hnew⟩
    rcases (Fs.alike_settled ((Pager.openStore R path opts).run.run ((Pager.drop { p with broken := true }).run.run fs').1).1).run
      (p₂.commitTxn R salt' t'.dirty t'.pageCount t'.pending) with ⟨hsame, halike⟩
    rw [← hsame] at hok hnew
    exact ⟨_, _, _, Prod.ext rfl (Prod.ext rfl hok), (hnew.alike halike.symm).shows.alike (Fs.alike_settled _).symm⟩
  · -- the world has both
    rcases hw'.step.refines hholds₁ with ⟨w₂, hsecond, hholds₂⟩
    refine ⟨w₂, hholds₂.answers, ?_⟩
    cases hfirst with
    | remember fresh accepts placed =>
        cases hsecond with
        | remember fresh' accepts' placed' =>
            rcases World.get_remembered w draft (chunksOf k.store.setup draft.content) id now _ with ⟨r, hr, hcontent⟩
            rcases World.get_remembered _ draft (chunksOf s.setup draft.content) id' now' _ with ⟨r', hr', hcontent'⟩
            have hne : id ≠ id' := by
              rintro rfl
              rw [hr] at fresh'
              cases fresh'
            rcases World.get_remember_of_ne draft (chunksOf s.setup draft.content) now' _ hne hr with ⟨r₁, hr₁, hkept⟩
            exact ⟨hne, r₁, r', hr₁, hr', hkept.trans hcontent, hcontent'⟩

end Life

end Store

end EmbedMind
