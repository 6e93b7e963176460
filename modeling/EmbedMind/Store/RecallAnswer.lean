import EmbedMind.Index.HnswLimits
import EmbedMind.RecallProof
import EmbedMind.Store.SearchProof

/-!
# What recall answers

A hybrid recall fuses what the vector index finds with the best of the full-text index, and
may add the neighbours of its hits in the graph. Every hit, of either kind, is a memory that
passes the query, and none comes twice.
-/

namespace EmbedMind

open Lib Lib.Assoc Lib.TopK

namespace Hnsw

/-- A search of an index fails only by asking for too much room; its hits are distinct accepted records. -/
theorem search_accepts {H : Xxh3} {F : Floats} {src : PageSource} {dims root : Nat} {stats : HnswMeta} {es : List Entry}
    {own : List Nat} (h : At H src.pageSize dims src.view root stats es own) (ho : src.Owns own) {query : List F32}
    (hlen : query.length = dims) (k : Nat) (params : SearchParams) (filter : Ulid → Bool) :
    ∃ o, search F src dims root query k params filter = .ok o ∧
      ((2 ^ 63 - 1 < k * HIT_SIZE ∧ o.hits = none) ∨
        ∃ hits, o.hits = some hits ∧ (0 < k → hits.length ≤ k) ∧ (hits.map Hit.recordId).Nodup ∧
          ∀ hit ∈ hits, filter hit.recordId = true ∧ ∃ e ∈ es, e.node.recordId = hit.recordId) := by
  by_cases hes : es = []
  · -- no node: there is nothing to descend into
    have hcount : stats.nodeCount = 0 := by rw [h.count, hes, List.length_nil]
    refine ⟨.noIndex, ?_, Or.inr ⟨[], rfl, by simp, List.nodup_nil, by simp⟩⟩
    unfold search
    rw [if_neg (by rw [hlen]; exact fun hne => hne rfl), h.loadMeta ho.pageSize_ge, ok_bind]
    by_cases hroot : root = 0
    · rw [if_pos hroot]
    · rw [if_neg hroot]
      dsimp only
      rw [if_pos hcount]
  · rcases search_index h ho hes hlen k params filter with ⟨o, hrun, hended⟩
    refine ⟨o, hrun, ?_⟩
    rcases hended with ⟨hpanic, rfl⟩ | ⟨_, r, rfl, hends⟩
    · exact Or.inl ⟨hpanic, rfl⟩
    right
    rcases hends.hits with ⟨picked, hhits, hpicked⟩
    refine ⟨r.hits, rfl, ?_, ?_, ?_⟩
    · intro hpos
      have hwithin := hpicked.within hpos
      rw [hhits, List.length_map]
      omega
    · rw [hhits, List.map_map]
      exact hpicked.nodup
    · intro hit hhit
      rw [hhits] at hhit
      rcases List.mem_map.mp hhit with ⟨x, hx, rfl⟩
      refine ⟨hpicked.accepted x hx, ?_⟩
      rcases hends.candidates.entries x (hpicked.sub.subset hx) with ⟨e, he, hpage⟩
      refine ⟨e, he, ?_⟩
      rw [hitOf, ← hpage, recordOf_eq (h.searchable ho).distinct he]

end Hnsw

namespace Store

/-! ## The answer -/

/-- When a memory was written; an id that is not stored counts as the oldest. -/
def World.createdAt (w : World) (id : Ulid) : Int64 :=
  match w.get id with
  | some record => record.provenance.createdAtMicros
  | none => Int64.minValue

/-- The candidates of both lists, the newest first. -/
def World.recencyIds (w : World) (query : Query) (vectorIds textIds : List Ulid) : List Ulid :=
  if query.recency then
    (SortedSet.distinct id (vectorIds ++ textIds)).insertionSort fun a b => w.createdAt b ≤ w.createdAt a
  else []

/-- An edge between two memories, in either direction. -/
def World.Linked (w : World) (a b : Ulid) : Prop := ∃ kind, (a, kind, b) ∈ w.edges ∨ (b, kind, a) ∈ w.edges

/-- A memory that passes a query. -/
def World.Matches (w : World) (query : Query) (id : Ulid) : Prop := ∃ record, w.get id = some record ∧ Passes query record

/-- What the vector index may find: memories that pass and have a vector, none twice. -/
structure World.VectorHits (w : World) (query : Query) (ids : List Ulid) : Prop where
  distinct : ids.Nodup
  length : 0 < query.limit → ids.length ≤ query.limit
  passes : ∀ id ∈ ids, w.Matches query id
  vectors : ∀ id ∈ ids, ∃ v ∈ w.vectors, v.1 = id

/-- The hits after the direct ones: with expansion the neighbours that pass and are no hits yet, else none. -/
structure World.Expanded (w : World) (query : Query) (direct context : List (Recalled ℚ)) : Prop where
  off : query.expandRelated = false → context = []
  score : ∀ r ∈ context, r.score = 0
  linked : ∀ r ∈ context, ∃ d ∈ direct, w.Linked d.memory.id r.memory.id
  complete : query.expandRelated = true → ∀ d ∈ direct, ∀ id, w.Linked d.memory.id id → w.Matches query id →
    ∃ r ∈ direct ++ context, r.memory.id = id

section Recall

variable {S : Setup} {c : Committed} {w : World}

/-! ## The vector half -/

/-- Some filter does not fit the type of a stored value. -/
def World.Mismatch (w : World) (query : Query) : Prop := ∃ id e, w.admits query id = .error e

/-- There is no vector for the text, or none of the right length. -/
def CannotEmbed (S : Setup) (text : String) : Prop :=
  ∀ embedder vector, S.embedder = some embedder → embedder.embed text = .ok vector →
    (S.normalize vector).length ≠ embedder.dims

/-- The list of the vector search. -/
theorem Holds.vectorIds (h : Holds S c w) {table : Option FilterMeta.Table} (hside : Sidecar S w table) {embedder : Embedder}
    (hembedder : S.embedder = some embedder) (query : Query) :
    (∃ ids, Store.vectorIds S c embedder table query = .ok (some ids) ∧ w.VectorHits query ids) ∨
    (2 ^ 63 - 1 < query.limit * Hnsw.HIT_SIZE ∧ Store.vectorIds S c embedder table query = .ok none) ∨
    ((CannotEmbed S query.text ∨ w.Mismatch query) ∧ ∃ e, Store.vectorIds S c embedder table query = .error e) := by
  rcases h.readable with ⟨x, a, hr⟩
  -- the store and the embedder agree on the length of a vector
  have hdims := (h.embedder embedder hembedder).1
  have hat : Hnsw.At S.xxh (c.source S.xxh).pageSize embedder.dims (c.source S.xxh).view c.header.hnswMetaPage
      x.hnswStats x.nodes a.hnsw := by
    rw [hdims]
    exact hr.at_.hnsw
  have hcount : Hnsw.nodeCount (c.source S.xxh) c.header.hnswMetaPage = .ok x.nodes.length := by
    have hstructure := (hat.structured (c.source S.xxh) hr.hnsw).count
    rw [hstructure, List.length_map]
  unfold Store.vectorIds
  cases hvector : embedder.embed query.text with
  | error e =>
      refine Or.inr (Or.inr ⟨Or.inl ?_, e, rfl⟩)
      intro embedder' vector hembedder' hvector'
      rw [hembedder] at hembedder'
      cases hembedder'
      rw [hvector] at hvector'
      cases hvector'
  | ok vector =>
      rw [ok_bind, hcount, ok_bind, h.admits hside]
      by_cases hlen : (S.normalize vector).length = embedder.dims
      swap
      · refine Or.inr (Or.inr ⟨Or.inl ?_, .invalidArgument "query length != store dims", ?_⟩)
        · intro embedder' vector' hembedder' hvector'
          rw [hembedder] at hembedder'
          cases hembedder'
          rw [hvector] at hvector'
          cases hvector'
          exact hlen
        · unfold Hnsw.searchAsking
          rw [if_pos hlen]
          rfl
      -- the search with a check that cannot fail; a check that fails ends the real one, see `Follows`
      rcases Hnsw.search_accepts (F := S.floats) hat hr.hnsw hlen query.limit
          ⟨query.effectiveEfSearch x.nodes.length⟩ (passes (w.admits query)) with ⟨o, hrun, hended⟩
      have hfollows : Follows (w.admits query)
          (Hnsw.searchAsking S.floats (c.source S.xxh) embedder.dims (stashing (w.admits query)) c.header.hnswMetaPage
            (S.normalize vector) query.limit ⟨query.effectiveEfSearch x.nodes.length⟩) _ :=
        Hnsw.searchAsking_follows c.header.hnswMetaPage (S.normalize vector) query.limit _
      rcases hfollows.settle with hsame | ⟨hmismatch, e, he⟩
      · rw [hsame, hrun, ok_bind]
        rcases hended with ⟨hpanic, hnone⟩ | ⟨hits, hsome, hlength, hnodup, haccepted⟩
        · right
          left
          rw [hnone]
          exact ⟨hpanic, rfl⟩
        · left
          refine ⟨hits.map Hnsw.Hit.recordId, by rw [hsome]; rfl, hnodup, ?_, ?_, ?_⟩
          · rw [List.length_map]
            exact hlength
          · intro id hid
            rcases List.mem_map.mp hid with ⟨hit, hhit, rfl⟩
            exact World.passes_admits.mp (haccepted hit hhit).1
          · intro id hid
            rcases List.mem_map.mp hid with ⟨hit, hhit, rfl⟩
            rcases (haccepted hit hhit).2 with ⟨e, he, heid⟩
            refine ⟨(e.node.recordId, e.vector), ?_, heid⟩
            rw [← hr.holds.nodes]
            exact List.mem_map_of_mem he
      · right
        right
        rw [he]
        exact ⟨Or.inr hmismatch, e, rfl⟩

/-! ## The newest first -/

/-- The time of a memory. -/
theorem Holds.createdAt (h : Holds S c w) (id : Ulid) : Store.createdAt S c id = w.createdAt id := by
  unfold Store.createdAt World.createdAt
  rw [h.load]
  cases w.get id <;> rfl

/-- The list by time. -/
theorem Holds.recencyIds (h : Holds S c w) (query : Query) (vectorIds textIds : List Ulid) :
    Store.recencyIds S c query vectorIds textIds = w.recencyIds query vectorIds textIds := by
  unfold Store.recencyIds World.recencyIds
  simp only [h.createdAt]

/-- The list by time has no other ids. -/
theorem World.mem_recencyIds {query : Query} {vectorIds textIds : List Ulid} {id : Ulid}
    (h : id ∈ w.recencyIds query vectorIds textIds) : id ∈ vectorIds ∨ id ∈ textIds := by
  unfold World.recencyIds at h
  split at h
  · rw [List.mem_insertionSort, SortedSet.mem_distinct, List.mem_append] at h
    exact h
  · cases h

/-! ## Fusion -/

/-- The fused ids are distinct, and each is in one of the lists. -/
theorem fuseLists_ids {lists : List (List Ulid)} {limit : Nat} {fused : List Fused}
    (h : fuseLists lists limit = some fused) :
    (fused.map Fused.recordId).Nodup ∧ fused.length ≤ limit ∧ ∀ f ∈ fused, ∃ l ∈ lists, f.recordId ∈ l := by
  -- there is an answer, so the assertion on the number of lists holds
  have hle : lists.length ≤ 8 := by
    by_contra hlt
    unfold fuseLists at h
    rw [if_pos (by omega)] at h
    cases h
  rw [fuseLists_eq hle] at h
  cases h
  have hperm := List.perm_insertionSort FuseEntry.Before (accumulate lists)
  have htally := tallied_accumulate lists
  refine ⟨?_, ?_, ?_⟩
  · have hids : (((accumulate lists).insertionSort FuseEntry.Before).map FuseEntry.id).Nodup :=
      (hperm.map FuseEntry.id).nodup_iff.mpr htally.nodup
    rw [List.map_take, List.map_map]
    exact hids.sublist (List.take_sublist _ _)
  · rw [List.length_take]
    exact Nat.min_le_left _ _
  · intro f hf
    rcases List.mem_map.mp (List.mem_of_mem_take hf) with ⟨e, he, rfl⟩
    exact (htally.seen e.id).mp ⟨e, hperm.mem_iff.mp he, rfl⟩

/-! ## Neighbours -/

/-- A neighbour, looked at once. -/
def World.visit (w : World) (keep : Ulid → Bool) (s : List Ulid × List (Recalled ℚ)) (other : Ulid) :
    List Ulid × List (Recalled ℚ) :=
  if other ∈ s.1 then s
  else (other :: s.1, if keep other then s.2 ++ (w.found (other, 0)).toList else s.2)

/-- One edge of the expansion. -/
theorem Holds.expandAlong (h : Holds S c w) (check : Ulid → Except Error Bool) (s : List Ulid × List (Recalled ℚ))
    (edge : Graph.Edge) :
    Follows check (Store.expandAlong S c check s edge) (.ok (w.visit (passes check) s edge.other)) := by
  unfold Store.expandAlong World.visit
  split
  · exact Follows.pure s
  · refine (Follows.stashing edge.other).bind (q := .ok (passes check edge.other)) (g := fun kept =>
      .ok (edge.other :: s.1, if kept then s.2 ++ (w.found (edge.other, 0)).toList else s.2)) ?_
    intro kept
    cases kept with
    | false => exact Follows.pure _
    | true =>
        rw [if_pos rfl, h.loadHit]
        exact Follows.lift_ok (Follows.pure _)

/-- The edges of one hit. -/
theorem Holds.expandFrom (h : Holds S c w) (check : Ulid → Except Error Bool) (id : Ulid) :
    ∃ others : List Ulid, (∀ other, other ∈ others ↔ w.Linked id other) ∧ ∀ s,
      Follows check (Store.expandFrom S c check s id) (.ok (others.foldl (w.visit (passes check)) s)) := by
  rcases h.memoryGraph id with ⟨adj, hadj, hid⟩
  refine ⟨(adj.getD {}).edges.map Graph.Edge.other, ?_, ?_⟩
  · intro other
    rw [List.mem_map]
    constructor
    · intro hex
      rcases hex with ⟨edge, hedge, rfl⟩
      have hrelated := (hid.edges edge).mp hedge
      unfold World.Related at hrelated
      split at hrelated
      · exact ⟨edge.kind, Or.inl hrelated⟩
      · exact ⟨edge.kind, Or.inr hrelated⟩
    · intro hlinked
      rcases hlinked with ⟨kind, hout | hin⟩
      · exact ⟨⟨true, kind, other⟩, (hid.edges _).mpr hout, rfl⟩
      · exact ⟨⟨false, kind, other⟩, (hid.edges _).mpr hin, rfl⟩
  · intro s
    unfold Store.expandFrom
    rw [hadj]
    refine Follows.lift_ok ?_
    cases adj with
    | none => exact Follows.pure s
    | some adj =>
        rw [Option.getD_some, List.foldl_map]
        exact Follows.foldlM (h.expandAlong check) adj.edges s

/-- The neighbours of several memories, one after the other. -/
theorem Holds.expandAll (h : Holds S c w) (check : Ulid → Except Error Bool) (direct : List Ulid) :
    ∃ others : List Ulid, (∀ other, other ∈ others ↔ ∃ id ∈ direct, w.Linked id other) ∧ ∀ s,
      Follows check (direct.foldlM (Store.expandFrom S c check) s) (.ok (others.foldl (w.visit (passes check)) s)) := by
  induction direct with
  | nil => exact ⟨[], by simp, fun s => Follows.pure s⟩
  | cons id direct ih =>
      rcases h.expandFrom check id with ⟨first, hfirst, hfollows⟩
      rcases ih with ⟨others, hothers, hrest⟩
      refine ⟨first ++ others, ?_, ?_⟩
      · intro other
        rw [List.mem_append, hfirst, hothers, List.exists_mem_cons_iff]
      · intro s
        rw [List.foldlM_cons, List.foldl_append]
        exact (hfollows s).bind (g := fun s => .ok (others.foldl (w.visit (passes check)) s)) hrest

/-- What was looked at, and the hits of the new ids that pass. -/
structure World.Visited (w : World) (keep : Ulid → Bool) (seen : List Ulid) (hits : List (Recalled ℚ)) (others : List Ulid)
    (s : List Ulid × List (Recalled ℚ)) : Prop where
  visited : ∀ id, id ∈ s.1 ↔ id ∈ seen ∨ id ∈ others
  added : ∃ ids : List Ulid, s.2 = hits ++ (ids.map fun id => (id, (0 : ℚ))).filterMap w.found ∧ ids.Nodup ∧
    ∀ id, id ∈ ids ↔ id ∈ others ∧ id ∉ seen ∧ keep id = true

/-- The expansion visits each memory once. -/
theorem World.visited_foldl (keep : Ulid → Bool) (seen : List Ulid) (hits : List (Recalled ℚ)) (others : List Ulid) :
    w.Visited keep seen hits others (others.foldl (w.visit keep) (seen, hits)) := by
  induction others using List.reverseRecOn with
  | nil => exact ⟨by simp, [], by simp, List.nodup_nil, by simp⟩
  | append_singleton others other ih =>
      rw [List.foldl_append, List.foldl_cons, List.foldl_nil]
      -- by induction from the right: the last neighbour meets what the others left
      generalize others.foldl (w.visit keep) (seen, hits) = s at ih ⊢
      rcases ih with ⟨hseen, ids, hhits, hnodup, hids⟩
      unfold World.visit
      by_cases hold : other ∈ s.1
      · -- seen before: nothing changes
        rw [if_pos hold]
        have hold' := (hseen other).mp hold
        refine ⟨?_, ids, hhits, hnodup, ?_⟩
        · intro id
          rw [hseen, List.mem_append, List.mem_singleton]
          constructor
          · intro hid
            rcases hid with hid | hid
            · exact Or.inl hid
            · exact Or.inr (Or.inl hid)
          · intro hid
            rcases hid with hid | hid | hid
            · exact Or.inl hid
            · exact Or.inr hid
            · rw [hid]
              exact hold'
        · intro id
          rw [hids, List.mem_append, List.mem_singleton]
          constructor
          · intro hid
            exact ⟨Or.inl hid.1, hid.2⟩
          · intro hid
            rcases hid with ⟨hid | hid, hnot, hkeep⟩
            · exact ⟨hid, hnot, hkeep⟩
            · rw [hid] at hnot ⊢
              exact ⟨hold'.resolve_left hnot, hnot, hid ▸ hkeep⟩
      · rw [if_neg hold]
        have hnew : other ∉ seen ∧ other ∉ others := not_or.mp (mt (hseen other).mpr hold)
        constructor
        case visited =>
          intro id
          rw [List.mem_cons, hseen, List.mem_append, List.mem_singleton]
          tauto
        case added =>
          by_cases hkeep : keep other = true
          · refine ⟨ids ++ [other], ?_, ?_, ?_⟩
            · dsimp only
              rw [if_pos hkeep, hhits, List.map_append, List.filterMap_append, List.append_assoc]
              simp only [List.map_cons, List.map_nil, List.filterMap_cons, List.filterMap_nil]
              cases w.found ((other, 0) : Ulid × ℚ) <;> rfl
            · rw [List.nodup_append]
              refine ⟨hnodup, List.nodup_singleton _, ?_⟩
              intro a ha b hb heq
              rw [List.mem_singleton] at hb
              rw [heq, hb] at ha
              exact hnew.2 ((hids other).mp ha).1
            · intro id
              rw [List.mem_append, List.mem_append, List.mem_singleton, hids]
              constructor
              · intro hid
                rcases hid with ⟨hid, hrest⟩ | hid
                · exact ⟨Or.inl hid, hrest⟩
                · rw [hid]
                  exact ⟨Or.inr rfl, hnew.1, hkeep⟩
              · intro hid
                rcases hid with ⟨hid | hid, hrest⟩
                · exact Or.inl ⟨hid, hrest⟩
                · exact Or.inr hid
          · refine ⟨ids, by rw [if_neg hkeep, hhits], hnodup, ?_⟩
            intro id
            rw [hids, List.mem_append, List.mem_singleton]
            constructor
            · intro hid
              exact ⟨Or.inl hid.1, hid.2⟩
            · intro hid
              rcases hid with ⟨hid | hid, hnot, hk⟩
              · exact ⟨hid, hnot, hk⟩
              · rw [hid] at hk
                exact absurd hk hkeep

/-- Hits with their memories: what a list of recalled memories says about the world. -/
structure World.Sound (w : World) (query : Query) (hits : List (Recalled ℚ)) : Prop where
  distinct : (hits.map fun r => r.memory.id).Nodup
  memory : ∀ r ∈ hits, ∃ record, w.get r.memory.id = some record ∧ Passes query record ∧ r.memory = Memory.fromRecord record

/-- The memories of distinct ids that match. -/
theorem World.sound_found (hw : w.Wf) (query : Query) (found : List (Ulid × ℚ)) (hnodup : (found.map Prod.fst).Nodup)
    (hmatch : ∀ hit ∈ found, w.Matches query hit.1) :
    w.Sound query (found.filterMap w.found) ∧
      (found.filterMap w.found).map (fun r => (r.memory.id, r.score)) = found := by
  -- each id is stored, so no hit is dropped and the memories come in the order of the hits
  have hmap : (found.filterMap w.found).map (fun r => (r.memory.id, r.score)) = found := by
    refine World.map_found hw ?_
    intro hit hhit
    rcases hmatch hit hhit with ⟨record, hrecord, _⟩
    rw [hrecord]
    rfl
  refine ⟨⟨?_, ?_⟩, hmap⟩
  · have hids := congrArg (List.map Prod.fst) hmap
    rw [List.map_map] at hids
    rw [← hids] at hnodup
    exact hnodup
  · intro r hr
    rcases List.mem_filterMap.mp hr with ⟨hit, hhit, hfound⟩
    rcases Option.map_eq_some_iff.mp hfound with ⟨record, hrecord, rfl⟩
    rcases hmatch hit hhit with ⟨record', hrecord', hpasses⟩
    rw [hrecord] at hrecord'
    cases hrecord'
    refine ⟨record, ?_, hpasses, rfl⟩
    rw [show (Memory.fromRecord record).id = record.id from rfl, (hw.record _ _ hrecord).1]
    exact hrecord

/-- Expansion adds the neighbours of the direct hits. -/
theorem Holds.expandHits (h : Holds S c w) {table : Option FilterMeta.Table} (hside : Sidecar S w table) {query : Query}
    {direct : List (Recalled ℚ)} (hdirect : w.Sound query direct) :
    (∃ context, Store.expandHits S c table query direct = .ok (direct ++ context) ∧ w.Expanded query direct context ∧
      w.Sound query (direct ++ context)) ∨
    ((∃ id e, w.admits query id = .error e) ∧ ∃ e, Store.expandHits S c table query direct = .error e) := by
  unfold Store.expandHits
  by_cases hexpand : query.expandRelated = true
  swap
  · left
    rw [if_neg hexpand]
    refine ⟨[], by rw [List.append_nil], ⟨fun _ => rfl, by simp, by simp, fun hon => absurd hon hexpand⟩, ?_⟩
    rw [List.append_nil]
    exact hdirect
  rw [if_pos hexpand, h.admits hside]
  -- the direct hits count as seen before the expansion starts
  rcases h.expandAll (w.admits query) (direct.map fun hit => hit.memory.id) with ⟨others, hothers, hfollows⟩
  rcases (hfollows (direct.map fun hit => hit.memory.id, direct)).settle with hsame | ⟨hmismatch, e, he⟩
  swap
  · right
    dsimp only
    rw [he]
    exact ⟨hmismatch, e, rfl⟩
  left
  dsimp only
  rw [hsame, ok_bind]
  rcases World.visited_foldl (w := w) (passes (w.admits query)) (direct.map fun hit => hit.memory.id) direct others with
    ⟨_, ids, hhits, hnodup, hids⟩
  have hfound := World.sound_found h.wf query (ids.map fun id => (id, (0 : ℚ)))
    (by rw [List.map_map]; exact (List.map_id ids).symm ▸ hnodup)
    (by
      intro hit hhit
      rcases List.mem_map.mp hhit with ⟨id, hid, rfl⟩
      exact World.passes_admits.mp ((hids id).mp hid).2.2)
  rcases hfound with ⟨hsound, hmap⟩
  -- what expansion adds comes from the new ids, with score zero
  have hcontext : ∀ r ∈ (ids.map fun id => (id, (0 : ℚ))).filterMap w.found, r.memory.id ∈ ids ∧ r.score = 0 := by
    intro r hr
    have hmem : (r.memory.id, r.score) ∈ ids.map fun id => (id, (0 : ℚ)) := by
      rw [← hmap]
      exact List.mem_map_of_mem hr
    rcases List.mem_map.mp hmem with ⟨id, hid, heq⟩
    rw [Prod.mk.injEq] at heq
    exact ⟨heq.1 ▸ hid, heq.2.symm⟩
  refine ⟨_, congrArg Except.ok hhits, ?_, ?_⟩
  · constructor
    case off => exact fun hoff => absurd hexpand (by rw [hoff]; exact Bool.false_ne_true)
    case score => exact fun r hr => (hcontext r hr).2
    case linked =>
      intro r hr
      rcases (hothers _).mp ((hids _).mp (hcontext r hr).1).1 with ⟨id, hid, hlinked⟩
      rcases List.mem_map.mp hid with ⟨d, hd, rfl⟩
      exact ⟨d, hd, hlinked⟩
    case complete =>
      intro _ d hd id hlinked hmatch
      by_cases hin : id ∈ direct.map fun hit => hit.memory.id
      · rcases List.mem_map.mp hin with ⟨r, hr, hid⟩
        exact ⟨r, List.mem_append_left _ hr, hid⟩
      · have hnew : id ∈ ids := by
          refine (hids id).mpr ⟨(hothers id).mpr ⟨d.memory.id, List.mem_map_of_mem hd, hlinked⟩, hin, ?_⟩
          exact World.passes_admits.mpr hmatch
        have hmem : (id, (0 : ℚ)) ∈ ids.map fun id => (id, (0 : ℚ)) := List.mem_map_of_mem hnew
        rw [← hmap] at hmem
        rcases List.mem_map.mp hmem with ⟨r, hr, heq⟩
        rw [Prod.mk.injEq] at heq
        exact ⟨r, List.mem_append_right _ hr, heq.1⟩
  · constructor
    case distinct =>
      rw [List.map_append, List.nodup_append]
      refine ⟨hdirect.distinct, hsound.distinct, ?_⟩
      intro a ha b hb heq
      rcases List.mem_map.mp hb with ⟨r, hr, rfl⟩
      rw [heq] at ha
      exact ((hids _).mp (hcontext r hr).1).2.1 ha
    case memory =>
      intro r hr
      rcases List.mem_append.mp hr with hr | hr
      · exact hdirect.memory r hr
      · exact hsound.memory r hr

/-! ## The full-text half -/

variable {α : Type} [Field α] [LinearOrder α] [IsStrictOrderedRing α]

/-- The text half, also of a file that has no full-text index. -/
theorem Holds.textIds (h : Holds S c w) {table : Option FilterMeta.Table} (hside : Sidecar S w table) (I : Fts.Idf α)
    (query : Query) :
    (∃ hits, Store.textIds S c I table query = .ok (some (hits.map Fts.Hit.recordId)) ∧
      Top query.limit (Fts.Ranks S.unicode I w.docs (passes (w.admits query)) query.text) hits) ∨
    (w.Mismatch query ∧ ∃ e, Store.textIds S c I table query = .error e) := by
  unfold Store.textIds
  -- without a text index there is no document
  by_cases hroot : c.header.ftsRootPage = 0
  · left
    rw [if_pos hroot]
    refine ⟨[], rfl, top_nil.congr ?_⟩
    intro hit
    refine ⟨False.elim, ?_⟩
    intro hranks
    rcases h.readable with ⟨x, a, hr⟩
    have hstats : x.ftsStats = .empty := by
      rcases hr.at_.fts.pages with hempty | ⟨_, hne, _⟩
      · exact hempty.2.1
      · exact absurd hroot hne
    have hcount := hr.holds.fts.docCount
    rw [hstats] at hcount
    have hnil : w.docs = [] := List.length_eq_zero_iff.mp (by
      have hzero : min w.docs.length (2 ^ 64 - 1) = 0 := hcount.symm
      omega)
    rcases hranks.text with ⟨content, hcontent, _⟩
    rw [hnil] at hcontent
    cases hcontent
  · rw [if_neg hroot]
    rcases h.textHits hside I query with ⟨hits, hrun, htop⟩ | ⟨hmismatch, e, he⟩
    · left
      rw [hrun]
      exact ⟨hits, rfl, htop⟩
    · right
      rw [he]
      exact ⟨hmismatch, e, rfl⟩

/-! ## Recall -/

/-- Fused ids, each with its memory. -/
theorem Holds.loadFused (h : Holds S c w) {query : Query} {fused : List Fused} (hnodup : (fused.map Fused.recordId).Nodup)
    (hmatch : ∀ f ∈ fused, w.Matches query f.recordId) :
    ∃ direct, Store.loadFused S c fused = .ok direct ∧ w.Sound query direct ∧
      direct.map (fun r => (r.memory.id, r.score)) = fused.map fun f => (f.recordId, f.score) := by
  have hsound := World.sound_found h.wf query (fused.map fun f => (f.recordId, f.score))
    (by rw [List.map_map]; exact hnodup)
    (by
      intro hit hhit
      rcases List.mem_map.mp hhit with ⟨f, hf, rfl⟩
      exact hmatch f hf)
  refine ⟨_, ?_, hsound⟩
  unfold Store.loadFused
  rw [h.loadHits, List.nil_append]

/-- The answer to a hybrid recall: the memories of the fused ids, then their neighbours. -/
structure World.RecallAnswer (w : World) (U : Unicode) (I : Fts.Idf α) (query : Query) (outcome : RecallOutcome) :
    Prop where
  sound : w.Sound query outcome.hits
  ranked : ∃ (vectorIds : List Ulid) (textHits : List (Fts.Hit α)) (fused : List Fused)
    (direct context : List (Recalled ℚ)), w.VectorHits query vectorIds ∧
    Top query.limit (Fts.Ranks U I w.docs (passes (w.admits query)) query.text) textHits ∧
    fuseLists [vectorIds, textHits.map Fts.Hit.recordId, w.recencyIds query vectorIds (textHits.map Fts.Hit.recordId)]
      query.limit = some fused ∧
    direct.map (fun r => (r.memory.id, r.score)) = fused.map (fun f => (f.recordId, f.score)) ∧
    outcome.hits = direct ++ context ∧ w.Expanded query direct context

/-- Recall over a store that holds a world. -/
theorem Holds.recallDetailed (h : Holds S c w) {cache : Cache} (hcache : CacheOk S.xxh c cache) (I : Fts.Idf α)
    (query : Query) :
    (∃ outcome, (Store.recallDetailed S c I cache query).1 = .ok (some outcome) ∧
      w.RecallAnswer S.unicode I query outcome) ∨
    (2 ^ 63 - 1 < query.limit * Hnsw.HIT_SIZE ∧ (Store.recallDetailed S c I cache query).1 = .ok none) ∨
    ((CannotEmbed S query.text ∨ w.Mismatch query) ∧ ∃ e, (Store.recallDetailed S c I cache query).1 = .error e) := by
  unfold Store.recallDetailed
  cases hembedder : S.embedder with
  | none =>
      refine Or.inr (Or.inr ⟨Or.inl ?_, noEmbedder, rfl⟩)
      intro embedder vector hsome
      rw [hembedder] at hsome
      cases hsome
  | some embedder =>
      rcases h.filterMeta hcache with ⟨table, htable, hside, _, _⟩
      dsimp only
      rw [htable, ok_bind]
      rcases h.vectorIds hside hembedder query with ⟨vectorIds, hvector, hhits⟩ | ⟨hpanic, hnone⟩ | ⟨hreason, e, he⟩
      · rw [hvector, ok_bind]
        dsimp only
        rcases h.textIds hside I query with ⟨textHits, htext, htop⟩ | ⟨hmismatch, e, he⟩
        swap
        · right
          right
          rw [he]
          exact ⟨Or.inr hmismatch, e, rfl⟩
        rw [htext, ok_bind]
        dsimp only
        rw [h.recencyIds]
        cases hfused : fuseLists [vectorIds, textHits.map Fts.Hit.recordId,
            w.recencyIds query vectorIds (textHits.map Fts.Hit.recordId)] query.limit with
        | none =>
            unfold fuseLists at hfused
            cases hfused
        | some fused =>
            dsimp only
            rcases fuseLists_ids hfused with ⟨hnodup, _, hin⟩
            -- an id of any of the lists passes
            have htextMatch : ∀ id ∈ textHits.map Fts.Hit.recordId, w.Matches query id := by
              intro id hid
              rcases List.mem_map.mp hid with ⟨hit, hhit, rfl⟩
              exact World.passes_admits.mp (htop.sub hit hhit).kept
            have hmatch : ∀ f ∈ fused, w.Matches query f.recordId := by
              intro f hf
              rcases hin f hf with ⟨l, hl, hid⟩
              simp only [List.mem_cons, List.not_mem_nil, or_false] at hl
              rcases hl with hl | hl | hl
              · exact hhits.passes _ (hl ▸ hid)
              · exact htextMatch _ (hl ▸ hid)
              · rw [hl] at hid
                rcases World.mem_recencyIds hid with hid | hid
                · exact hhits.passes _ hid
                · exact htextMatch _ hid
            rcases h.loadFused hnodup hmatch with ⟨direct, hload, hsound, hmap⟩
            rw [hload, ok_bind]
            rcases h.expandHits hside hsound with ⟨context, hexpand, hexpanded, hall⟩ | ⟨hmismatch, e, he⟩
            · left
              rw [hexpand, ok_bind]
              exact ⟨_, rfl, hall, vectorIds, textHits, fused, direct, context, hhits, htop, hfused, hmap, rfl, hexpanded⟩
            · right
              right
              rw [he]
              exact ⟨Or.inr hmismatch, e, rfl⟩
      · right
        left
        rw [hnone]
        exact ⟨hpanic, rfl⟩
      · right
        right
        rw [he]
        exact ⟨hreason, e, rfl⟩

/-- Vector-only recall: the memories of what the vector index finds. -/
theorem Holds.recallVector (h : Holds S c w) {cache : Cache} (hcache : CacheOk S.xxh c cache) (query : Query) :
    (∃ hits vectorIds fused, (Store.recallVector S c cache query).1 = .ok (some hits) ∧ w.Sound query hits ∧
      w.VectorHits query vectorIds ∧ fuse vectorIds [] query.limit = some fused ∧
      hits.map (fun r => (r.memory.id, r.score)) = fused.map (fun f => (f.recordId, f.score))) ∨
    (2 ^ 63 - 1 < query.limit * Hnsw.HIT_SIZE ∧ (Store.recallVector S c cache query).1 = .ok none) ∨
    ((CannotEmbed S query.text ∨ w.Mismatch query) ∧ ∃ e, (Store.recallVector S c cache query).1 = .error e) := by
  unfold Store.recallVector
  cases hembedder : S.embedder with
  | none =>
      refine Or.inr (Or.inr ⟨Or.inl ?_, noEmbedder, rfl⟩)
      intro embedder vector hsome
      rw [hembedder] at hsome
      cases hsome
  | some embedder =>
      -- the filter table, the vector search, the fusion of its one list, the records
      rcases h.filterMeta hcache with ⟨table, htable, hside, _, _⟩
      dsimp only
      rw [htable, ok_bind]
      rcases h.vectorIds hside hembedder query with ⟨vectorIds, hvector, hhits⟩ | ⟨hpanic, hnone⟩ | ⟨hreason, e, he⟩
      · rw [hvector, ok_bind]
        dsimp only
        cases hfused : fuse vectorIds [] query.limit with
        | none =>
            unfold fuse fuseLists at hfused
            cases hfused
        | some fused =>
            dsimp only
            rcases fuseLists_ids hfused with ⟨hnodup, _, hin⟩
            -- every fused id comes from the vector hits, which pass the filter
            have hmatch : ∀ f ∈ fused, w.Matches query f.recordId := by
              intro f hf
              rcases hin f hf with ⟨l, hl, hid⟩
              simp only [List.mem_cons, List.not_mem_nil, or_false] at hl
              rcases hl with hl | hl
              · exact hhits.passes _ (hl ▸ hid)
              · rw [hl] at hid
                cases hid
            rcases h.loadFused hnodup hmatch with ⟨direct, hload, hsound, hmap⟩
            left
            rw [hload, ok_bind]
            exact ⟨direct, vectorIds, fused, rfl, hsound, hhits, hfused, hmap⟩
      · right
        left
        rw [hnone]
        exact ⟨hpanic, rfl⟩
      · right
        right
        rw [he]
        exact ⟨hreason, e, rfl⟩

end Recall

end Store

end EmbedMind
