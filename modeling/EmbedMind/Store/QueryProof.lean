import EmbedMind.Index.FilterMetaDecide
import EmbedMind.Store.Query
import EmbedMind.Store.ReadProof

/-!
# What searching asks, and what it is told

The check of a candidate comes to the same whether the sidecar answers or the record does
(`Holds.admits`), and so does the length of a document. What a search then ranks are the
documents of the world that pass.
-/

namespace EmbedMind

open Lib Lib.Assoc

/-- A memory without metadata passes no filter. -/
theorem passesFilters_of_no_metadata {metadata : Metadata} (h : metadata.entries = []) {filters : List (Text × Filter)}
    (hne : filters ≠ []) : passesFilters metadata filters = .ok false := by
  cases filters with
  | nil => exact absurd rfl hne
  | cons f rest =>
      rcases f with ⟨key, filter⟩
      unfold passesFilters Metadata.get
      rw [h]
      rfl

namespace Store

/-- What a candidate is asked, on the world. -/
def World.admits (w : World) (query : Query) (id : Ulid) : Except Error Bool :=
  match w.get id with
  | none => .ok false
  | some record => if inScope query record then query.recordPassesFilters record else .ok false

/-- What a search may return for a query: live, not superseded, in scope, and every filter matches. -/
structure Passes (query : Query) (r : MemoryRecord) : Prop where
  live : r.tombstone = false
  current : r.superseded = false
  project : ∀ p, query.scope = .project p → r.project = some p
  agent : ∀ a, query.agent = some a → r.provenance.agent = a
  filters : ∀ f ∈ query.filters.entries, f.2.matchesStored (r.metadata.get f.1) = .ok true

/-- Passing every filter. -/
theorem passesFilters_eq_true {metadata : Metadata} {filters : List (Text × Filter)} :
    passesFilters metadata filters = .ok true ↔ ∀ f ∈ filters, f.2.matchesStored (metadata.get f.1) = .ok true := by
  induction filters with
  | nil => simp [passesFilters]
  | cons f rest ih =>
      rcases f with ⟨key, filter⟩
      unfold passesFilters
      rw [List.forall_mem_cons]
      cases hmatch : filter.matchesStored (metadata.get key) with
      | error e =>
          constructor
          · intro h
            cases h
          · intro h
            cases h.1
      | ok matched =>
          rw [ok_bind]
          cases matched with
          | false =>
              constructor
              · intro h
                cases h
              · intro h
                cases h.1
          | true =>
              rw [Bool.not_true, if_neg Bool.false_ne_true, ih]
              exact ⟨fun h => ⟨rfl, h⟩, fun h => h.2⟩

/-- Being in scope. -/
theorem inScope_eq_true {query : Query} {r : MemoryRecord} :
    inScope query r = true ↔ r.tombstone = false ∧ r.superseded = false ∧
      (∀ p, query.scope = .project p → r.project = some p) ∧
      ∀ a, query.agent = some a → r.provenance.agent = a := by
  unfold inScope
  cases query.scope <;> cases query.agent <;> simp [and_assoc]

/-- The check of a candidate, a check that fails taken for a no. -/
theorem World.passes_admits {w : World} {query : Query} {id : Ulid} :
    Lib.passes (w.admits query) id = true ↔ ∃ r, w.get id = some r ∧ Passes query r := by
  have hok : Lib.passes (w.admits query) id = true ↔ w.admits query id = .ok true := by
    unfold Lib.passes
    cases w.admits query id <;> simp
  rw [hok]
  unfold World.admits
  cases w.get id with
  | none => simp
  | some r =>
      dsimp only
      constructor
      · intro h
        refine ⟨r, rfl, ?_⟩
        split at h
        · rename_i hscope
          rcases inScope_eq_true.mp hscope with ⟨hlive, hcurrent, hproject, hagent⟩
          exact ⟨hlive, hcurrent, hproject, hagent, passesFilters_eq_true.mp h⟩
        · cases h
      · intro h
        rcases h with ⟨r', hr, hpasses⟩
        cases hr
        rw [if_pos (inScope_eq_true.mpr ⟨hpasses.live, hpasses.current, hpasses.project, hpasses.agent⟩)]
        exact passesFilters_eq_true.mpr hpasses.filters

/-- A table, if there is one, is a sidecar of the world. -/
structure Sidecar (S : Setup) (w : World) (table : Option FilterMeta.Table) : Prop where
  mirrors : ∀ t, table = some t → ∃ log syms, t.Of log syms ∧ FilterMeta.SymbolsOk syms ∧
    (∀ id r, w.get id = some r → ∃ e, find id log = some e ∧ FilterMeta.Mirrors syms (filterMetaUpdate S r) e) ∧
    ∀ id, w.get id = none → find id log = none

/-- A cached table of the current transaction counter is what loading would give. -/
def CacheOk (H : Xxh3) (c : Committed) (cache : Cache) : Prop :=
  ∀ table, cache = some (c.header.txnCounter, table) →
    FilterMeta.load (c.source H) c.header.filterMetaPage c.header.filterSymbolsPage = .ok table

section Sidecar

variable {S : Setup} {c : Committed} {w : World}

/-- The sidecar can be loaded. -/
theorem Holds.sidecar_load (h : Holds S c w) (hpage : c.header.filterMetaPage ≠ 0) :
    ∃ table, FilterMeta.load (c.source S.xxh) c.header.filterMetaPage c.header.filterSymbolsPage = .ok table ∧
      Sidecar S w (some table) := by
  rcases h.readable with ⟨x, a, hr⟩
  have hversion : FilterMeta.MIN_FORMAT_VERSION ≤ c.header.formatVersion := by
    by_contra hlt
    exact hpage (h.legacy (not_le.mp hlt))
  rcases hr.at_.filterMeta.load hr.filterMeta with ⟨table, hload, hof⟩
  refine ⟨table, hload, ⟨?_⟩⟩
  intro t ht
  cases ht
  exact ⟨x.log, x.syms, hof, hr.at_.filterMeta.syms_ok, hr.holds.mirrored hversion, hr.holds.logged⟩

theorem sidecar_none (S : Setup) (w : World) : Sidecar S w none := ⟨by simp⟩

/-- The sidecar that a query gets, from the cache or from the file. -/
theorem Holds.filterMeta (h : Holds S c w) {cache : Cache} (hcache : CacheOk S.xxh c cache) :
    ∃ table, (Store.filterMeta S.xxh c cache).1 = .ok table ∧ Sidecar S w table ∧
      CacheOk S.xxh c (Store.filterMeta S.xxh c cache).2 ∧ (table = none ↔ c.header.filterMetaPage = 0) := by
  unfold Store.filterMeta
  by_cases hpage : c.header.filterMetaPage = 0
  · rw [if_pos hpage]
    exact ⟨none, rfl, sidecar_none S w, hcache, by simp [hpage]⟩
  rw [if_neg hpage]
  rcases h.sidecar_load hpage with ⟨table, hload, hside⟩
  -- a table that is not cached, or was cached under another counter, is loaded
  have hfresh : ∃ table', (loadFilterMeta S.xxh c cache).1 = .ok table' ∧ Sidecar S w table' ∧
      CacheOk S.xxh c (loadFilterMeta S.xxh c cache).2 ∧ (table' = none ↔ c.header.filterMetaPage = 0) := by
    unfold loadFilterMeta
    rw [hload]
    refine ⟨some table, rfl, hside, ?_, by simp [hpage]⟩
    intro table' htable'
    cases htable'
    exact hload
  cases cache with
  | none => exact hfresh
  | some cached =>
      rcases cached with ⟨stamp, cachedTable⟩
      dsimp only
      split
      · rename_i hstamp
        subst hstamp
        -- the counter is the current one: the cached table is the one a load would give
        have hsame := hcache cachedTable rfl
        rw [hload] at hsame
        cases hsame
        exact ⟨some table, rfl, hside, hcache, by simp [hpage]⟩
      · exact hfresh

/-- The conditions of a query that the sidecar knows. -/
def Scope.wanted : Scope → Option String
  | .all => none
  | .project p => some p

/-- What the sidecar can tell about a query. -/
theorem metaNeeds_eq (table : FilterMeta.Table) (query : Query) :
    metaNeeds table query = table.needs (Scope.wanted query.scope) query.agent (!query.filters.entries.isEmpty) := by
  unfold metaNeeds FilterMeta.Table.needs
  cases query.scope <;> rfl

/-- Being in scope, by the sidecar. -/
theorem inScope_iff {query : Query} {r : MemoryRecord} (hnormal : r.normalize = r) :
    inScope query r = true ↔ (filterMetaUpdate S r).Passes (Scope.wanted query.scope) query.agent := by
  -- the sidecar keeps a record without a project under the empty string, which no normal record names
  have hproject : ∀ p, r.project = some p ↔ p ≠ "" ∧ r.project.getD "" = p := by
    intro p
    constructor
    · intro hp
      refine ⟨?_, by rw [hp]; rfl⟩
      intro hempty
      have hfield := congrArg MemoryRecord.project hnormal
      rw [MemoryRecord.normalize, hp, hempty] at hfield
      simp at hfield
    · intro h
      rcases h with ⟨hne, hget⟩
      cases hr : r.project with
      | none =>
          rw [hr] at hget
          exact absurd hget.symm hne
      | some q =>
          rw [hr] at hget
          exact congrArg some hget
  rw [inScope_eq_true]
  constructor
  · intro h
    rcases h with ⟨hlive, hcurrent, hp, ha⟩
    refine ⟨hlive, hcurrent, ?_, ha⟩
    intro q hq
    cases hs : query.scope with
    | all =>
        rw [hs] at hq
        cases hq
    | project p =>
        rw [hs] at hq
        cases hq
        exact (hproject _).mp (hp _ hs)
  · intro h
    refine ⟨h.live, h.current, ?_, h.agent⟩
    intro p hp
    refine (hproject p).mpr (h.project p ?_)
    rw [hp]
    rfl

/-- The check of a record, read from the world. -/
theorem Holds.admitsRecord (h : Holds S c w) (query : Query) (id : Ulid) :
    Store.admitsRecord S c query id = w.admits query id := by
  unfold Store.admitsRecord World.admits
  rw [h.load]
  cases w.get id <;> rfl

/-- The check comes to the same with and without the sidecar. -/
theorem Holds.admits (h : Holds S c w) {table : Option FilterMeta.Table} (hside : Sidecar S w table) (query : Query) :
    Store.admits S c table query = w.admits query := by
  funext id
  unfold Store.admits
  cases table with
  | none => exact h.admitsRecord query id
  | some t =>
      dsimp only
      rcases hside.mirrors t rfl with ⟨log, syms, hof, hok, hmirrors, hlogged⟩
      rw [metaNeeds_eq]
      cases hget : w.get id with
      | none =>
          -- no entry for an id that is not stored: the record is asked for
          have hnone : t.get id = none := by rw [hof.entries, hlogged id hget]
          have hneed : t.decide id (t.needs (Scope.wanted query.scope) query.agent (!query.filters.entries.isEmpty)) =
              .needRecord := by
            unfold FilterMeta.Table.decide
            rw [hnone]
          rw [hneed]
          exact h.admitsRecord query id
      | some r =>
          rcases hmirrors id r hget with ⟨e, he, hm⟩
          have hnormal := (h.wf.record id r hget).2.normal
          have hworld : w.admits query id = if inScope query r then query.recordPassesFilters r else .ok false := by
            unfold World.admits
            rw [hget]
          -- the entry mirrors the record, so the sidecar defers, rejects or passes as the record would
          rcases FilterMeta.Table.decide_cases hof hok he hm (Scope.wanted query.scope) query.agent
              (!query.filters.entries.isEmpty) with ⟨hneed, _, _⟩ | ⟨hnot, reason, hreject⟩ | ⟨hpass, hdecide⟩
          · rw [hneed]
            exact h.admitsRecord query id
          · rw [hreject, hworld, if_neg (mt (inScope_iff hnormal).mp hnot)]
          · rw [hdecide]
            by_cases hfilters : (!query.filters.entries.isEmpty) = true
            · rw [if_pos hfilters]
              by_cases hmeta : (filterMetaUpdate S r).hasMetadata = true
              · rw [if_pos hmeta]
                exact h.admitsRecord query id
              · -- a record without metadata matches no filter
                rw [if_neg hmeta, hworld, if_pos ((inScope_iff hnormal).mpr hpass)]
                have hentries : r.metadata.entries = [] := by
                  rw [filterMetaUpdate, Bool.not_eq_true', Bool.not_eq_false, List.isEmpty_iff] at hmeta
                  exact hmeta
                have hne : query.filters.entries ≠ [] := by
                  intro hnil
                  rw [hnil] at hfilters
                  cases hfilters
                exact (passesFilters_of_no_metadata hentries hne).symm
            · rw [if_neg hfilters, hworld, if_pos ((inScope_iff hnormal).mpr hpass)]
              have hnil : query.filters.entries = [] := by
                rw [Bool.not_eq_true', Bool.not_eq_false, List.isEmpty_iff] at hfilters
                exact hfilters
              unfold Query.recordPassesFilters
              rw [hnil]
              rfl

/-- The length of a document, from the sidecar or the record. -/
theorem Holds.docLenOf (h : Holds S c w) {table : Option FilterMeta.Table} (hside : Sidecar S w table) (id : Ulid) :
    Store.docLenOf S c table id = .ok ((w.get id).map fun r => Fts.docLen S.unicode r.content) := by
  have hrecord : (do
      let found ← Store.load (c.source S.xxh) c.header.rootBtreePage id
      .ok (found.map fun record => Fts.docLen S.unicode record.content) : Except Error (Option Nat)) =
      .ok ((w.get id).map fun r => Fts.docLen S.unicode r.content) := by
    rw [h.load, ok_bind]
  unfold Store.docLenOf
  cases table with
  | none => exact hrecord
  | some t =>
      rcases hside.mirrors t rfl with ⟨log, syms, hof, _, hmirrors, hlogged⟩
      rw [Option.bind_some, hof.entries]
      cases hget : w.get id with
      | none =>
          rw [hlogged id hget]
          rw [hget] at hrecord
          exact hrecord
      | some r =>
          rcases hmirrors id r hget with ⟨e, he, hm⟩
          rw [he]
          exact congrArg (fun n => Except.ok (some n)) hm.docLen

end Sidecar

end Store

end EmbedMind
