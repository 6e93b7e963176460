import EmbedMind.Store.Life

/-!
# The store and power failures

While a store is open it answers as the world after the operations that have returned
(`running_store_answers`). What is opened after a power failure answers as that world, or as the one
that the operation that was cut short leads to (`open_answers_acknowledged`); a vacuum that is cut
short loses no live memory (`vacuum_survives_crash`).
-/

namespace EmbedMind

open Lib Lib.Assoc

namespace Store

/-! ## A small life -/

/-- A store is opened with an embedder, and works. -/
def axisLife : List Op := .reopen (some axisEmbedder) :: plainOps

/-- Its files. -/
theorem axisStore_life {ops : List Op} {s : OpenStore} (hrun : ops.foldlM Op.execFits axisStore = some s) :
    ∃ fs p, Life Runtime.plain "memory.mind" axisStore fs (some p) { store := s, ops } :=
  exists_life { pageSize := 512 } (by decide) (by decide) (by decide) rfl rfl rfl hrun

/-- The next removal has a transaction, and it fits. -/
def Forgets (s : OpenStore) (id : Ulid) : Prop :=
  ∃ t s', (Op.forget id).txn s = some (t, s') ∧ t.pageCount * t.pageSize ≤ 2 ^ 64

/-- The small life succeeds, and so do the removal and the vacuum that may come next. -/
theorem axisLife_run : ∃ s s', axisLife.foldlM Op.execFits axisStore = some s ∧ Op.vacuum.execFits s = some s' ∧
    s'.file.header.pageCount < s.file.header.pageCount ∧ (get s.setup.xxh s.file 2).toOption.join.isSome = true ∧
    Forgets s 2 ∧ Forgets s' 2 := by
  -- both stores are evaluated once, in the kernel
  have hall : ((axisLife.foldlM Op.execFits axisStore).any fun s => (Op.vacuum.execFits s).any fun s' =>
      decide (s'.file.header.pageCount < s.file.header.pageCount) && (get s.setup.xxh s.file 2).toOption.join.isSome &&
        (((Op.forget 2).txn s).any fun r => decide (r.1.pageCount * r.1.pageSize ≤ 2 ^ 64)) &&
        ((Op.forget 2).txn s').any fun r => decide (r.1.pageCount * r.1.pageSize ≤ 2 ^ 64)) = true := by
    decide +kernel
  have hforgets : ∀ s, (((Op.forget 2).txn s).any fun r => decide (r.1.pageCount * r.1.pageSize ≤ 2 ^ 64)) = true →
      Forgets s 2 := by
    intro s h
    rcases (Option.any_eq_true _ _).mp h with ⟨⟨t, s'⟩, ht, hsize⟩
    exact ⟨t, s', ht, of_decide_eq_true hsize⟩
  rcases (Option.any_eq_true _ _).mp hall with ⟨s, hs, hrest⟩
  rcases (Option.any_eq_true _ _).mp hrest with ⟨s', hs', hfacts⟩
  simp only [Bool.and_eq_true] at hfacts
  rcases hfacts with ⟨⟨⟨hsmaller, hlive⟩, hnext⟩, hnext'⟩
  exact ⟨s, s', hs, hs', of_decide_eq_true hsmaller, hlive, hforgets s hnext, hforgets s' hnext'⟩

/-! ## What is opened -/

section Life

variable {R : Runtime} {path : Path} {s₀ : OpenStore} {fs fs' : Fs} {k : Known} {p : Pager}

/-- A store that is open answers as the world after every operation that returned, and what it does next gets through:
the commit of an operation, and a vacuum as far as its compaction does. -/
theorem running_store_answers (h : Life R path s₀ fs (some p) k) :
    ∃ w, World.Run s₀.setup {} k.ops w ∧ Answers k.store w ∧ Shows R p fs k.store.file ∧
      (∀ op t s salt, Writes (k.through p) op t s → t.pageCount * t.pageSize ≤ 2 ^ 64 →
        ∃ fs' p' n, (p.commitTxn R salt t.dirty t.pageCount t.pending).run fs = (fs', p', .ok n)) ∧
      ∀ txns, Compacts (k.through p) txns →
        ∃ fs' p', (vacuumOf R path (k.through p) txns p).run fs =
          (fs', p', (buildCompacted k.store.setup k.store.file).map fun _ => ()) := by
  have hs := h.survives
  rcases hs.live with ⟨fm, fw, main, log, hlive, _⟩
  rcases hs.holds with ⟨w, hworld, hholds, _⟩
  refine ⟨w, hworld, hholds.answers, hlive.shows, ?_, ?_⟩
  · intro op t s salt hw hfits
    rcases hs.txn hw with ⟨fm', fw', main', log', hlive', hwf, _⟩
    rcases (wpc_commitTxn hlive' hwf hfits salt).1 with ⟨hok, _⟩
    exact ⟨_, _, _, Prod.ext rfl (Prod.ext rfl hok)⟩
  · intro txns hc
    rcases hs.vacuum hc with ⟨c', hbuilt, hvacuum, _⟩
    have hresult : (buildCompacted k.store.setup k.store.file).map (fun _ => ()) =
        (compactTxns k.store.setup k.store.file).2 := by
      rw [hbuilt]
      cases (compactTxns k.store.setup k.store.file).2 <;> rfl
    rw [hresult]
    exact ⟨_, _, Prod.ext rfl (Prod.ext rfl hvacuum.1)⟩

/-- The store of the small life answers, and both a removal and a vacuum may come next. -/
theorem axisLife_answers : ∃ fs p s w,
    Life Runtime.plain "memory.mind" axisStore fs (some p) { store := s, ops := axisLife } ∧
    World.Run axisStore.setup {} axisLife w ∧ Answers s w ∧ Shows Runtime.plain p fs s.file ∧
    (∃ t s' fs' p' n, Writes s (.forget 2) t s' ∧
      (p.commitTxn Runtime.plain 7 t.dirty t.pageCount t.pending).run fs = (fs', p', .ok n)) ∧
    ∃ txns fs' p', Compacts s txns ∧ (vacuumOf Runtime.plain "memory.mind" s txns p).run fs = (fs', p', .ok ()) := by
  rcases axisLife_run with ⟨s, s', hs, hvacuum, _, _, ⟨t, s'', ht, hfits⟩, _⟩
  rcases axisStore_life hs with ⟨fs, p, hlife⟩
  have hthrough : ({ store := s, ops := axisLife } : Known).through p = s := by
    rcases hlife.survives.live with ⟨_, _, _, _, _, hthrough⟩
    exact hthrough
  rcases hlife.survives.compacts hvacuum with ⟨txns, hc, _, hbuilt, _⟩
  rcases running_store_answers hlife with ⟨w, hworld, hanswers, hshows, hcommits, hvacuums⟩
  rw [hthrough] at hcommits hvacuums hc
  refine ⟨fs, p, s, w, hlife, hworld, hanswers, hshows, ?_, ?_⟩
  · rcases hcommits (.forget 2) t s'' 7 (Writes.of_txn ht) hfits with ⟨fs', p', n, hrun⟩
    exact ⟨t, s'', fs', p', n, Writes.of_txn ht, hrun⟩
  · rcases hvacuums txns hc with ⟨fs', p', hrun⟩
    rw [hbuilt] at hrun
    exact ⟨txns, fs', p', hc, hrun⟩

/-- After any life, power failures included, opening the files succeeds and shows a store that answers as the world
after every operation that returned, or after these and the one that was cut short. -/
theorem open_answers_acknowledged (h : Life R path s₀ fs none k) (opts : PagerOptions) :
    ∃ fs' p s ops w, (Pager.openStore R path opts).run.run fs = (fs', .ok p) ∧ Shows R p fs' s.file ∧
      (s = k.store ∧ ops = k.ops ∨ ∃ op, k.inFlight = some (op, s) ∧ ops = k.ops ++ [op]) ∧
      Run s₀ ops s ∧ World.Run s₀.setup {} ops w ∧ Answers s w := by
  have hs := h.survives
  rcases hs.kept with ⟨c, fm, main, wal, hc, hrest⟩
  rcases (wpc_openStore hrest opts).1 with ⟨p, hp, fw, b, hlive⟩
  have hopen : (Pager.openStore R path opts).run.run fs = (_, .ok p) := Prod.ext rfl hp
  rcases hc with hlast | hcut
  · -- nothing was cut short, or it left no trace
    rcases hs.holds with ⟨w, hworld, hholds, _⟩
    refine ⟨_, p, k.store, k.ops, w, hopen, ?_, Or.inl ⟨rfl, rfl⟩, hs.run, hworld, hholds.answers⟩
    rw [show k.store.file = c from hlast.symm]
    exact hlive.shows
  · rcases Option.map_eq_some_iff.mp hcut with ⟨⟨op, s⟩, hin, hfile⟩
    have hrun := hs.run.snoc (hs.cut op s hin)
    rcases hrun.refines hs.created.holds World.closed_empty with ⟨w, hworld, hholds, _⟩
    refine ⟨_, p, s, k.ops ++ [op], w, hopen, ?_, Or.inr ⟨op, hin, rfl⟩, hrun, hworld, hholds.answers⟩
    rw [show s.file = c from hfile]
    exact hlive.shows

/-- The small life goes on with a vacuum, and the power fails in the commit of the next removal, behind its first call. -/
theorem axisLife_survives : ∃ fs k, Life Runtime.plain "memory.mind" axisStore fs none k ∧
    k.ops = axisLife ++ [.vacuum] ∧ (∃ s', k.inFlight = some (.forget 2, s')) ∧
    ∃ fs' p s ops w, (Pager.openStore Runtime.plain "memory.mind" {}).run.run fs = (fs', .ok p) ∧
      Shows Runtime.plain p fs' s.file ∧
      (s = k.store ∧ ops = k.ops ∨ ∃ op, k.inFlight = some (op, s) ∧ ops = k.ops ++ [op]) ∧
      Run axisStore ops s ∧ World.Run axisStore.setup {} ops w ∧ Answers s w := by
  rcases axisLife_run with ⟨s, s', hs, hvacuum, _, _, _, ⟨t, s'', ht, hfits⟩⟩
  have hrun : (axisLife ++ [Op.vacuum]).foldlM Op.execFits axisStore = some s' := by
    rw [List.foldlM_append, hs]
    simp [hvacuum]
  rcases axisStore_life hrun with ⟨fs, p, hlife⟩
  rcases hlife.survives.live with ⟨_, _, _, _, _, hthrough⟩
  have hw : Writes (({ store := s', ops := axisLife ++ [.vacuum] } : Known).through p) (.forget 2) t s'' :=
    hthrough.symm ▸ Writes.of_txn ht
  rcases crash_to_synced Runtime.plain
    ((p.commitTxn Runtime.plain 7 t.dirty t.pageCount t.pending).cutAfter 1 fs) with ⟨fs', hcrash⟩
  have hcut := hlife.writeCrash 7 hw hfits (Prog.interrupt_cutAfter 1 _ _) hcrash
  exact ⟨fs', _, hcut, rfl, ⟨s'', rfl⟩, open_answers_acknowledged hcut {}⟩

/-- A power failure anywhere in a vacuum, from the first orphan that is deleted to the end of the scratch store: the
store that is opened next is the old one or the compacted one, and whoever reads live memories finds them all in either. -/
theorem vacuum_survives_crash {fs'' : Fs} {txns : List (UInt64 × Txn)} (h : Life R path s₀ fs (some p) k)
    (hc : Compacts (k.through p) txns) (hcut : Prog.Interrupt (vacuumOf R path (k.through p) txns p) fs fs')
    (hcrash : Crash R fs' fs'') (opts : PagerOptions) :
    ∃ fs₁ p₁ c, (Pager.openStore R path opts).run.run fs'' = (fs₁, .ok p₁) ∧ Shows R p₁ fs₁ c ∧
      (c = k.store.file ∨ buildCompacted k.store.setup k.store.file = .ok c) ∧
      (∀ id, get R.xxh c id = get R.xxh k.store.file id) ∧ iter R.xxh c = iter R.xxh k.store.file ∧
      (∀ entity, entityMembers R.xxh c entity = entityMembers R.xxh k.store.file entity) ∧
      ∀ id memory, get R.xxh k.store.file id = .ok (some memory) →
        related R.xxh c id = related R.xxh k.store.file id ∧ entitiesOf R.xxh c id = entitiesOf R.xxh k.store.file id := by
  have hs := h.survives
  rcases hs.vacuum hc with ⟨c', hbuilt, _, hcrashOk⟩
  rcases (hcrashOk _ hcut).atRest hcrash with ⟨c, f, m, wal, hcases, hrest⟩
  rcases (wpc_openStore hrest opts).1 with ⟨p₁, hp, fw, b, hlive⟩
  refine ⟨_, p₁, c, Prod.ext rfl hp, hlive.shows, ?_⟩
  have hold : c = k.store.file ∨ buildCompacted k.store.setup k.store.file = .ok c := by
    rcases hcases with rfl | rfl
    · exact Or.inl rfl
    · cases hresult : (compactTxns k.store.setup k.store.file).2 with
      | error e => exact Or.inl rfl
      | ok u =>
          rw [hresult] at hbuilt
          exact Or.inr hbuilt
  refine ⟨hold, ?_⟩
  rcases hold with rfl | hdone
  · exact ⟨fun _ => rfl, rfl, fun _ => rfl, fun _ _ _ => ⟨rfl, rfl⟩⟩
  · rcases vacuum_keeps_reads ⟨s₀, k.ops, hs.created, hs.run⟩ hdone with ⟨hget, hiter, _, hmembers, hlinks, _⟩
    rw [hs.xxh] at hget hiter hmembers hlinks
    exact ⟨hget, hiter, hmembers, hlinks⟩

/-- The small life ends inside a vacuum, when the compacted copy, which is smaller, has just taken the store's name. -/
theorem axisLife_vacuum_survives : ∃ fs p, ∃ s s' : OpenStore, ∃ txns fs' fs'' parked,
    Life Runtime.plain "memory.mind" axisStore fs (some p) { store := s, ops := axisLife } ∧
    s'.file.header.pageCount < s.file.header.pageCount ∧ (get Runtime.plain.xxh s.file 2).toOption.join.isSome = true ∧
    Prog.Interrupt (vacuumOf Runtime.plain "memory.mind" s txns p) fs fs' ∧
    Replaced Runtime.plain s'.file "memory.mind" parked fs' ∧ Crash Runtime.plain fs' fs'' ∧
    ∃ fs₁ p₁ c, (Pager.openStore Runtime.plain "memory.mind" {}).run.run fs'' = (fs₁, .ok p₁) ∧
      Shows Runtime.plain p₁ fs₁ c ∧ (c = s.file ∨ c = s'.file) ∧
      get Runtime.plain.xxh c 2 = get Runtime.plain.xxh s.file 2 ∧ iter Runtime.plain.xxh c = iter Runtime.plain.xxh s.file := by
  rcases axisLife_run with ⟨s, s', hs, hvacuum, hsmaller, hlive, _⟩
  rcases axisStore_life hs with ⟨fs, p, hlife⟩
  have hsurvives := hlife.survives
  rcases hsurvives.live with ⟨_, _, _, _, _, hthrough⟩
  rcases hsurvives.compacts hvacuum with ⟨txns, hc, _, hbuilt, hok⟩
  rcases hsurvives.vacuum_replaces hc hok with ⟨fs', c', parked, hint, hreplaced, hbuilt'⟩
  rcases crash_to_synced Runtime.plain fs' with ⟨fs'', hcrash⟩
  rcases vacuum_survives_crash hlife hc hint hcrash {} with ⟨fs₁, p₁, c, hopen, hshows, hcases, hget, hiter, _⟩
  have hsame : c' = s'.file := Except.ok.inj (hbuilt'.symm.trans hbuilt)
  rw [hthrough] at hint
  rw [hsurvives.xxh] at hlive
  refine ⟨fs, p, s, s', txns, fs', fs'', parked, hlife, hsmaller, hlive, hint, hsame ▸ hreplaced, hcrash, fs₁, p₁, c, hopen,
    hshows, ?_, hget 2, hiter⟩
  exact hcases.imp_right fun hc => Except.ok.inj (hc.symm.trans hbuilt)

end Life

end Store

end EmbedMind
