import EmbedMind.Store.Session

/-!
# The invariant of the sidecar

`verify_filter_meta_invariant` walks over every record, the forgotten ones too, and compares
it with its entry in the sidecar: the length of the text, the liveness, and that the scope
symbols neither reject the record's own scope nor accept a project that was never interned.
It finds nothing to report in any session, because each entry mirrors its record.
-/

namespace EmbedMind

open Lib Lib.Assoc

namespace FilterMeta

section Deciding

variable {table : Table} {log : Entries} {syms : Symbols} {id : Ulid} {u : Update} {e : Entry}

/-- Without any condition the table decides on liveness alone. -/
theorem Table.decide_unscoped (h : table.Of log syms) (he : find id log = some e) (hm : Mirrors syms u e) :
    table.decide id ⟨.any, .any, false⟩ = if u.tombstone || u.superseded then .reject .dead else .accept := by
  have hget : table.get id = some e := by rw [h.entries, he]
  unfold Table.decide
  rw [hget]
  dsimp only [Table.decideScope]
  by_cases hdead : e.flags &&& (FLAG_TOMBSTONE ||| FLAG_SUPERSEDED) ≠ 0
  · have hflags : (u.tombstone || u.superseded) = true := by simpa using hm.dead.mp hdead
    rw [if_pos hdead, if_pos hflags]
  · have hflags : (u.tombstone || u.superseded) = false := by simpa using mt hm.dead.mpr hdead
    rw [if_neg hdead, hflags]
    rfl

/-- A string without a symbol is nobody's project. -/
theorem Table.decide_absent (table : Table) (id : Ulid) (agent : Want) (filters : Bool) :
    table.decide id ⟨.absent, agent, filters⟩ ≠ .accept := by
  unfold Table.decide
  cases table.get id with
  | none => simp
  | some e =>
      dsimp only [Table.decideScope]
      split
      · simp
      · split <;> simp

/-- The scope of a record is never held against it. -/
theorem Table.decide_own (h : table.Of log syms) (hok : SymbolsOk syms) (he : find id log = some e)
    (hm : Mirrors syms u e) {project agent : Option String} (hpasses : u.Passes project agent) (reason : RejectReason) :
    table.decide id ⟨table.wantProject project, table.wantAgent agent, false⟩ ≠ .reject reason := by
  rcases Table.decide_cases h hok he hm project agent false with ⟨hneed, _, _⟩ | ⟨hnot, _⟩ | ⟨_, haccept⟩
  · intro hreject
    cases hneed.symm.trans hreject
  · exact absurd hpasses hnot
  · intro hreject
    cases haccept.symm.trans hreject

end Deciding

end FilterMeta

namespace Store

section Verify

variable (S : Setup) (c : Committed)

/-- The checks of one memory against its entry. -/
def verifyMemory (table : FilterMeta.Table) (m : Memory) : Except Error Unit :=
  match table.get m.id with
  | none => .error (.internal "filter-meta entry missing for a record")
  | some entry =>
      let dead := m.tombstone || m.superseded
      let live :=
        match table.decide m.id ⟨.any, .any, false⟩ with
        | .accept => !dead
        | .reject .dead => dead
        | _ => false
      let ownRejected :=
        match table.decide m.id ⟨table.wantProject m.project, table.wantAgent (some m.provenance.agent), false⟩ with
        | .reject _ => true
        | _ => false
      if entry.docLen ≠ Fts.docLen S.unicode m.content then .error (.internal "filter-meta doc_len disagrees")
      else if !live then .error (.internal "filter-meta liveness disagrees")
      -- queries ask for the scope of live entries only
      else if dead then .ok ()
      else if ownRejected then .error (.internal "filter-meta rejects a record's own scope")
      else if table.decide m.id ⟨.absent, .any, false⟩ = .accept then
        .error (.internal "filter-meta accepts an absent project")
      else .ok ()

/-- `verify_filter_meta_invariant`; a file without a sidecar passes. -/
def verifyFilterMetaInvariant (cache : Cache) : Except Error Unit :=
  match (filterMeta S.xxh c cache).1 with
  | .error e => .error e
  | .ok none => .ok ()
  | .ok (some table) =>
      (iterAll S.xxh c).forM fun item => do
        let m ← item
        verifyMemory S table m

end Verify

section Holds

variable {S : Setup} {c : Committed} {w : World}

/-- A live memory passes the filters of its own scope. -/
theorem passes_own_scope {r : MemoryRecord} (hnormal : r.normalize = r) (htomb : r.tombstone = false)
    (hsup : r.superseded = false) : (filterMetaUpdate S r).Passes r.project (some r.provenance.agent) where
  live := htomb
  current := hsup
  project := by
    intro q hq
    constructor
    · intro hempty
      have hfield := congrArg MemoryRecord.project hnormal
      rw [MemoryRecord.normalize, hq, hempty] at hfield
      simp at hfield
    · rw [filterMetaUpdate, hq]
      rfl
  agent := by
    intro a ha
    cases ha
    rfl

/-- The entry of a record passes every check. -/
theorem Sidecar.verifyMemory {table : FilterMeta.Table} (h : Sidecar S w (some table)) (hw : w.Wf) {id : Ulid}
    {r : MemoryRecord} (hget : w.get id = some r) : Store.verifyMemory S table (Memory.fromRecord r) = .ok () := by
  rcases h.mirrors table rfl with ⟨log, syms, hof, hok, hmirrors, _⟩
  rcases hmirrors id r hget with ⟨e, he, hm⟩
  rcases hw.record id r hget with ⟨hid, hstorable⟩
  subst hid
  have hentry : table.get r.id = some e := by rw [hof.entries, he]
  unfold Store.verifyMemory Memory.fromRecord
  dsimp only
  rw [hentry]
  dsimp only
  have hlength : e.docLen = Fts.docLen S.unicode r.content := hm.docLen
  rw [if_neg (not_not.mpr hlength)]
  have hunscoped := FilterMeta.Table.decide_unscoped hof he hm
  -- a dead entry is rejected before its scope is looked at, so the last two checks are about live ones
  cases hdead : r.tombstone || r.superseded with
  | true =>
      rw [show table.decide r.id ⟨.any, .any, false⟩ = .reject .dead from hunscoped.trans (if_pos hdead)]
      rfl
  | false =>
      have halive : ¬ (r.tombstone || r.superseded) = true := by
        rw [hdead]
        exact Bool.false_ne_true
      rcases Bool.or_eq_false_iff.mp hdead with ⟨htomb, hsup⟩
      have hpasses := passes_own_scope (S := S) hstorable.normal htomb hsup
      have hown := FilterMeta.Table.decide_own hof hok he hm hpasses
      rw [show table.decide r.id ⟨.any, .any, false⟩ = .accept from hunscoped.trans (if_neg halive),
        if_neg (FilterMeta.Table.decide_absent table r.id .any false)]
      cases hdecide : table.decide r.id ⟨table.wantProject r.project, table.wantAgent (some r.provenance.agent), false⟩ with
      | accept => rfl
      | needRecord => rfl
      | reject reason => exact absurd hdecide (hown reason)

/-- Checking the memories one after the other. -/
theorem forM_verifyMemory {table : FilterMeta.Table} {records : List (Ulid × MemoryRecord)}
    (hall : ∀ e ∈ records, Store.verifyMemory S table (Memory.fromRecord e.2) = .ok ()) :
    ((records.map fun e => (.ok (Memory.fromRecord e.2) : Except Error Memory)).forM fun item => do
      let m ← item
      Store.verifyMemory S table m) = .ok () := by
  induction records with
  | nil => rfl
  | cons e records ih =>
      change (Store.verifyMemory S table (Memory.fromRecord e.2) >>= fun _ => _) = _
      rw [hall e List.mem_cons_self, ok_bind]
      exact ih fun e' he' => hall e' (List.mem_cons_of_mem _ he')

/-- The check of the sidecar succeeds. -/
theorem Holds.verifyFilterMetaInvariant (h : Holds S c w) {cache : Cache} (hcache : CacheOk S.xxh c cache) :
    Store.verifyFilterMetaInvariant S c cache = .ok () := by
  rcases h.filterMeta hcache with ⟨found, hfound, hside, _⟩
  unfold Store.verifyFilterMetaInvariant
  rw [hfound]
  cases found with
  | none => rfl
  | some table =>
      dsimp only
      rw [h.iterAll]
      have hall : ∀ e ∈ w.records, Store.verifyMemory S table (Memory.fromRecord e.2) = .ok () :=
        fun e he => hside.verifyMemory h.wf (find_of_mem h.wf.sorted.nodup_keys he)
      exact forM_verifyMemory hall

end Holds

section Session

variable {α : Type} [Field α] [LinearOrder α] {I : Fts.Idf α}

/-- Whatever the sidecar decides of a candidate, and whatever length it knows, is what the record says. -/
theorem sidecar_answers_as_records {s₀ : OpenStore} {s : Session} {calls : List Call} (hcreated : Created s₀)
    (hrun : Session.Run I ⟨s₀, none⟩ calls s) (hcalls : calls.length < 2 ^ 64) :
    ∃ table, (filterMeta s.store.setup.xxh s.store.file s.cache).1 = .ok table ∧
      (∀ query, admits s.store.setup s.store.file table query = admitsRecord s.store.setup s.store.file query) ∧
      docLenOf s.store.setup s.store.file table = docLenOf s.store.setup s.store.file none := by
  rcases hrun.holds hcreated hcalls with ⟨w, _, h, hcache⟩
  rcases h.filterMeta hcache with ⟨table, htable, hside, _⟩
  refine ⟨table, htable, ?_, ?_⟩
  · intro query
    funext id
    rw [h.admits hside, h.admitsRecord]
  · funext id
    rw [h.docLenOf hside, h.docLenOf (sidecar_none _ w)]

theorem plainCalls_sidecar : ∃ s, Session.Run Fts.Idf.bm25 ⟨plainStore, none⟩ plainCalls s ∧
    ∃ table, (filterMeta s.store.setup.xxh s.store.file s.cache).1 = .ok table ∧
      ∀ query, admits s.store.setup s.store.file table query = admitsRecord s.store.setup s.store.file query := by
  rcases plainCalls_run Fts.Idf.bm25 with ⟨s, hrun⟩
  rcases sidecar_answers_as_records plainStore_created hrun (by decide) with ⟨table, htable, hadmits, _⟩
  exact ⟨s, hrun, table, htable, hadmits⟩

/-- In no session does the sidecar disagree with a record. -/
theorem filter_meta_mirrors_records {s₀ : OpenStore} {s : Session} {calls : List Call} (hcreated : Created s₀)
    (hrun : Session.Run I ⟨s₀, none⟩ calls s) (hcalls : calls.length < 2 ^ 64) :
    verifyFilterMetaInvariant s.store.setup s.store.file s.cache = .ok () := by
  rcases hrun.holds hcreated hcalls with ⟨w, _, h, hcache⟩
  exact h.verifyFilterMetaInvariant hcache

theorem plainCalls_mirror : ∃ s, Session.Run Fts.Idf.bm25 ⟨plainStore, none⟩ plainCalls s ∧
    verifyFilterMetaInvariant s.store.setup s.store.file s.cache = .ok () := by
  rcases plainCalls_run Fts.Idf.bm25 with ⟨s, hrun⟩
  exact ⟨s, hrun, filter_meta_mirrors_records plainStore_created hrun (by decide)⟩

end Session

end Store

end EmbedMind
