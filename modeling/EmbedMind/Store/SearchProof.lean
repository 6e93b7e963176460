import EmbedMind.Index.Bm25
import EmbedMind.Store.QueryProof

/-!
# What a text search answers

The memories that pass, ranked by BM25 over all texts of the store, forgotten and superseded
ones included: they stay in the index, and count in its statistics.
-/

namespace EmbedMind

open Lib Lib.Assoc Lib.TopK

namespace Store

section Search

variable {S : Setup} {c : Committed} {w : World}

/-! ## The texts of a world -/

/-- The documents have distinct ids. -/
theorem World.Wf.nodup_docs (hw : w.Wf) : (w.docs.map Prod.fst).Nodup := by
  have hkeys : w.docs.map Prod.fst = w.records.map Prod.fst := by
    unfold World.docs
    rw [List.map_map]
    rfl
  rw [hkeys]
  exact hw.sorted.nodup_keys

/-- A record holds fewer tokens than the counters of the index can count. -/
theorem World.Wf.tokens_lt (hw : w.Wf) (U : Unicode) : ∀ d ∈ w.docs, (Fts.tokenize U d.2).length < 2 ^ 32 := by
  intro d hd
  rcases List.mem_map.mp hd with ⟨e, he, rfl⟩
  rcases hw.record e.1 e.2 (find_of_mem hw.sorted.nodup_keys he) with ⟨_, hstorable⟩
  have hshort : Short e.2.content := (MemoryRecord.encode_iff.mp hstorable.encode_eq).2.2.short.content
  exact lt_of_le_of_lt (Fts.length_tokenize_le U e.2.content) hshort

/-! ## Hits -/

/-- A hit with its memory. -/
def World.found {σ : Type} (w : World) (hit : Ulid × σ) : Option (Recalled σ) :=
  (w.get hit.1).map fun record => ⟨Memory.fromRecord record, hit.2⟩

/-- Loading one hit. -/
theorem Holds.loadHit {σ : Type} (h : Holds S c w) (out : List (Recalled σ)) (hit : Ulid × σ) :
    Store.loadHit S c out hit = .ok (out ++ (w.found hit).toList) := by
  unfold Store.loadHit World.found
  rw [h.load]
  cases w.get hit.1 with
  | none => exact congrArg Except.ok (List.append_nil out).symm
  | some record => rfl

/-- Loading the hits. -/
theorem Holds.loadHits {σ : Type} (h : Holds S c w) (hits : List (Ulid × σ)) (out : List (Recalled σ)) :
    hits.foldlM (Store.loadHit S c) out = .ok (out ++ hits.filterMap w.found) := by
  induction hits generalizing out with
  | nil =>
      rw [List.filterMap_nil, List.append_nil]
      rfl
  | cons hit hits ih =>
      rw [List.foldlM_cons, h.loadHit, ok_bind, ih, List.append_assoc, List.filterMap_cons]
      cases w.found hit <;> rfl

/-- Memories of stored ids, in the order of the hits. -/
theorem World.map_found {σ : Type} (hw : w.Wf) {hits : List (Ulid × σ)} (hget : ∀ hit ∈ hits, (w.get hit.1).isSome) :
    (hits.filterMap w.found).map (fun r => (r.memory.id, r.score)) = hits := by
  induction hits with
  | nil => rfl
  | cons hit hits ih =>
      rcases Option.isSome_iff_exists.mp (hget hit List.mem_cons_self) with ⟨record, hrecord⟩
      have hfound : w.found hit = some ⟨Memory.fromRecord record, hit.2⟩ := by
        rw [World.found, hrecord]
        rfl
      rw [List.filterMap_cons, hfound, List.map_cons, ih fun x hx => hget x (List.mem_cons_of_mem _ hx)]
      refine congrArg (fun id => (id, hit.2) :: hits) ?_
      exact (hw.record hit.1 record hrecord).1

variable {α : Type} [Field α] [LinearOrder α] [IsStrictOrderedRing α]

/-- What the full-text index finds, or a filter does not fit a stored value. -/
theorem Holds.textHits (h : Holds S c w) {table : Option FilterMeta.Table} (hside : Sidecar S w table) (I : Fts.Idf α)
    (query : Query) :
    (∃ hits, Store.textHits S c I table query = .ok (some hits) ∧
      Top query.limit (Fts.Ranks S.unicode I w.docs (passes (w.admits query)) query.text) hits) ∨
    ((∃ id e, w.admits query id = .error e) ∧ ∃ e, Store.textHits S c I table query = .error e) := by
  rcases h.readable with ⟨x, a, hr⟩
  have hlength : ∀ id, Store.docLenOf S c table id = .ok ((find id w.docs).map (Fts.docLen S.unicode)) := by
    intro id
    rw [h.docLenOf hside, World.find_docs, Option.map_map]
    rfl
  rcases Fts.searchPlain_top hr.at_.fts hr.fts hr.holds.fts h.wf.nodup_docs (h.wf.tokens_lt S.unicode) I query.text
      query.limit (passes (w.admits query)) hlength with ⟨hits, hrun, htop⟩
  have hfollows : Follows (w.admits query) _ _ := Fts.search_follows S.xxh S.unicode I (c.source S.xxh)
    c.header.ftsRootPage query.text query.limit (Store.docLenOf S c table)
  unfold Store.textHits
  rw [h.admits hside]
  -- either no check failed, and the search is the plain one, or one did, and it ends there
  rcases hfollows.settle with hsame | hfailed
  · exact Or.inl ⟨hits, hsame.trans hrun, htop⟩
  · exact Or.inr hfailed

/-- The answer to a text search: the best of the memories that pass, the best first. -/
structure World.TextAnswer (w : World) (U : Unicode) (I : Fts.Idf α) (query : Query) (out : List (Recalled α)) : Prop where
  best : Top query.limit (Fts.Ranks U I w.docs (passes (w.admits query)) query.text)
    (out.map fun r => (⟨r.memory.id, r.score⟩ : Fts.Hit α))
  memory : ∀ r ∈ out, ∃ record, w.get r.memory.id = some record ∧ Passes query record ∧ r.memory = Memory.fromRecord record

/-- Text search over a store that holds a world. -/
theorem Holds.searchText (h : Holds S c w) {cache : Cache} (hcache : CacheOk S.xxh c cache) (I : Fts.Idf α)
    (query : Query) :
    (∃ out, (Store.searchText S c I cache query).1 = .ok (some out) ∧ w.TextAnswer S.unicode I query out) ∨
      ((∃ id e, w.admits query id = .error e) ∧ ∃ e, (Store.searchText S c I cache query).1 = .error e) := by
  rcases h.filterMeta hcache with ⟨table, htable, hside, _, _⟩
  unfold Store.searchText
  dsimp only
  rw [htable, ok_bind]
  rcases h.textHits hside I query with ⟨hits, hrun, htop⟩ | ⟨hmismatch, e, he⟩
  · left
    -- every hit passes, so its id is stored and loading drops none
    have hget : ∀ hit ∈ hits.map fun hit => (hit.recordId, hit.score), (w.get hit.1).isSome := by
      intro hit hhit
      rcases List.mem_map.mp hhit with ⟨hit', hhit', rfl⟩
      rcases World.passes_admits.mp (htop.sub hit' hhit').kept with ⟨record, hrecord, _⟩
      rw [hrecord]
      rfl
    have hmap := World.map_found h.wf hget
    rw [hrun, ok_bind]
    dsimp only
    rw [h.loadHits, ok_bind, List.nil_append]
    refine ⟨_, rfl, ?_, ?_⟩
    -- the ranking of the hits is the ranking of the memories they load to
    · have hback := congrArg (List.map fun x : Ulid × α => (⟨x.1, x.2⟩ : Fts.Hit α)) hmap
      rw [List.map_map, List.map_map] at hback
      have hid : hits.map ((fun x : Ulid × α => (⟨x.1, x.2⟩ : Fts.Hit α)) ∘ fun hit => (hit.recordId, hit.score)) = hits :=
        List.map_id _
      have hlist := hback.trans hid
      rw [← hlist] at htop
      exact htop
    · intro r hr
      rcases List.mem_filterMap.mp hr with ⟨hit, hhit, hfound⟩
      rcases List.mem_map.mp hhit with ⟨hit', hhit', rfl⟩
      rcases Option.map_eq_some_iff.mp hfound with ⟨record, hrecord, rfl⟩
      rcases World.passes_admits.mp (htop.sub hit' hhit').kept with ⟨record', hrecord', hpasses⟩
      rw [hrecord] at hrecord'
      cases hrecord'
      refine ⟨record, ?_, hpasses, rfl⟩
      rw [show (Memory.fromRecord record).id = record.id from rfl, (h.wf.record _ _ hrecord).1]
      exact hrecord
  · right
    rw [he]
    exact ⟨hmismatch, e, rfl⟩

end Search

end Store

end EmbedMind
