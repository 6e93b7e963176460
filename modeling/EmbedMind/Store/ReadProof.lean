import EmbedMind.Store.Operations
import EmbedMind.Store.Read

/-!
# What a store answers

Each read of a state that holds a world is an answer about the world; none fails.
-/

namespace EmbedMind

open Lib Lib.Assoc

namespace Store

/-- A record as `get` returns it. -/
def visible (r : MemoryRecord) : Option Memory := if r.tombstone then none else some (Memory.fromRecord r)

/-- A record is visible when it is live. -/
theorem visible_eq_some {r : MemoryRecord} {m : Memory} :
    visible r = some m ↔ r.tombstone = false ∧ m = Memory.fromRecord r := by
  unfold visible
  cases r.tombstone with
  | true => simp
  | false => simp [eq_comm]

/-- What `get` returns of a world. -/
def World.read (w : World) (id : Ulid) : Option Memory := (w.get id).bind visible

/-- What is read is the memory of a live record. -/
theorem World.read_eq_some {w : World} {id : Ulid} {m : Memory} :
    w.read id = some m ↔ ∃ r, w.get id = some r ∧ r.tombstone = false ∧ m = Memory.fromRecord r := by
  unfold World.read
  rw [Option.bind_eq_some_iff]
  simp only [visible_eq_some]

/-- Live memories are read. -/
theorem World.read_isSome {w : World} {id : Ulid} : (w.read id).isSome ↔ w.Live id := by
  constructor
  · intro h
    rcases Option.isSome_iff_exists.mp h with ⟨m, hm⟩
    rcases World.read_eq_some.mp hm with ⟨r, hget, hlive, _⟩
    exact ⟨r, hget, hlive⟩
  · intro h
    rcases h with ⟨r, hget, hlive⟩
    rw [World.read_eq_some.mpr ⟨r, hget, hlive, rfl⟩]
    rfl

section Read

variable {S : Setup} {c : Committed} {w : World}

/-- The structures of a state that holds a world, as a reader finds them. -/
structure Readable (S : Setup) (c : Committed) (w : World) (x : Structures) (a : Areas) : Prop where
  tree : Btree.Tree S.xxh (c.source S.xxh) c.header.rootBtreePage w.items a.btree
  at_ : At S.xxh (c.source S.xxh).pageSize c.header.formatVersion c.header.embeddingDims (c.source S.xxh).view
    c.header.roots x a
  fts : (c.source S.xxh).Owns a.fts
  graph : (c.source S.xxh).Owns a.graph
  hnsw : (c.source S.xxh).Owns a.hnsw
  filterMeta : (c.source S.xxh).Owns a.filterMeta
  holds : x.Holds S c.header.formatVersion w

/-- A store that holds a world can be read. -/
theorem Holds.readable (h : Holds S c w) : ∃ x a, Readable S c w x a := by
  rcases h.structures with ⟨x, a, hin, hx⟩
  have hbegin := hin.begin
  have hsource : ∀ {own : List Nat}, (Txn.begin c).Owns own → (c.source S.xxh).Owns own := by
    intro own ho
    exact Committed.Owns.source ⟨ho.nodup, ho.pos, ho.lt⟩ hin.wf
  refine ⟨x, a, ?_, hin.at_, hsource hbegin.fts.owns, hsource hbegin.graph.owns, hsource hbegin.hnsw.owns,
    hsource hbegin.filterMeta.owns, hx⟩
  have ho := hbegin.btree.owns
  have hstore : Btree.InStore S.xxh c w.items a.btree := by
    refine ⟨hin.wf, ?_, ho.nodup, fun p hp => ⟨ho.pos p hp, ho.lt p hp⟩⟩
    rw [← hx.items]
    exact hin.at_.btree
  exact hstore.tree

/-- Loading a record. -/
theorem Holds.load (h : Holds S c w) (id : Ulid) :
    Store.load (c.source S.xxh) c.header.rootBtreePage id = .ok (w.get id) := by
  rcases h.readable with ⟨x, a, hr⟩
  exact load_eq hr.tree h.wf id

/-- Reading a memory. -/
theorem Holds.get (h : Holds S c w) (id : Ulid) : Store.get S.xxh c id = .ok (w.read id) := by
  unfold Store.get
  rw [h.load, ok_bind, World.read]
  cases w.get id with
  | none => rfl
  | some r => rfl

/-- A record is read back from the tree. -/
theorem ofItem_record {id : Ulid} {r : MemoryRecord} (hid : r.id = id) (hr : r.Storable) :
    Memory.ofItem (id.key, r.bytes) = .ok (Memory.fromRecord r) := by
  unfold Memory.ofItem
  rw [hr.decode_bytes, ok_bind, if_neg]
  rw [not_not, hid]
  rfl

/-- The timeline: every record, in the order of the ids. -/
theorem Holds.iterAll (h : Holds S c w) :
    Store.iterAll S.xxh c = w.records.map fun e => .ok (Memory.fromRecord e.2) := by
  rcases h.readable with ⟨x, a, hr⟩
  unfold Store.iterAll
  rw [hr.tree.scan]
  dsimp only
  rw [Option.toList_none, List.map_nil, List.append_nil, World.items, rekey, mapVal, List.map_map, List.map_map]
  refine List.map_congr_left ?_
  intro e he
  have hget : w.get e.1 = some e.2 := find_of_mem h.wf.sorted.nodup_keys he
  rcases h.wf.record e.1 e.2 hget with ⟨hid, hstorable⟩
  exact ofItem_record hid hstorable

/-- Reading the live memories in order. -/
theorem Holds.iter (h : Holds S c w) :
    Store.iter S.xxh c = (w.records.filterMap fun e => visible e.2).map .ok := by
  unfold Store.iter
  rw [h.iterAll]
  induction w.records with
  | nil => rfl
  | cons e records ih =>
      rw [List.map_cons, List.filter_cons, List.filterMap_cons, ih, visible]
      cases htomb : e.2.tombstone <;> simp [htomb, Memory.fromRecord]

/-! ## The graph -/

/-- Along a list of ids, the live memories are collected. -/
theorem Holds.foldlM_memberOf (h : Holds S c w) (ids : List Ulid) (out : List Memory) :
    ids.foldlM (memberOf S.xxh c) out = .ok (out ++ ids.filterMap w.read) := by
  induction ids generalizing out with
  | nil =>
      rw [List.foldlM_nil, List.filterMap_nil, List.append_nil]
      rfl
  | cons id ids ih =>
      have hstep : memberOf S.xxh c out id = .ok (out ++ (w.read id).toList) := by
        unfold memberOf
        rw [h.get, ok_bind]
        cases w.read id <;> simp
      rw [List.foldlM_cons, hstep, ok_bind, ih, List.filterMap_cons]
      cases w.read id <;> simp

/-- The other end of an edge, if it is live. -/
def World.along (w : World) (edge : Graph.Edge) : Option RelatedMemory :=
  (w.read edge.other).map fun memory => ⟨memory, edge.kind, edge.outgoing⟩

/-- Following the edges of a memory. -/
theorem Holds.foldlM_relatedAlong (h : Holds S c w) (edges : List Graph.Edge) (out : List RelatedMemory) :
    edges.foldlM (relatedAlong S.xxh c) out = .ok (out ++ edges.filterMap w.along) := by
  induction edges generalizing out with
  | nil =>
      rw [List.foldlM_nil, List.filterMap_nil, List.append_nil]
      rfl
  | cons edge edges ih =>
      have hstep : relatedAlong S.xxh c out edge = .ok (out ++ (w.along edge).toList) := by
        unfold relatedAlong World.along
        rw [h.get, ok_bind]
        cases w.read edge.other <;> simp
      rw [List.foldlM_cons, hstep, ok_bind, ih, List.filterMap_cons]
      cases w.along edge <;> simp

/-- A memory is related to another through an edge between them, in either direction. -/
def World.Related (w : World) (id other : Ulid) (kind : String) (outgoing : Bool) : Prop :=
  if outgoing then (id, kind, other) ∈ w.edges else (other, kind, id) ∈ w.edges

/-- The adjacency of a memory, as its pages hold it. -/
structure Adjacent (w : World) (id : Ulid) (adj : Graph.MemoryGraph) : Prop where
  valid : adj.Valid
  entities : ∀ name, name ∈ adj.entities ↔ (id, name) ∈ w.tags
  edges : ∀ edge : Graph.Edge, edge ∈ adj.edges ↔ w.Related id edge.other edge.kind edge.outgoing

/-- The edges of a memory. -/
theorem Holds.memoryGraph (h : Holds S c w) (id : Ulid) :
    ∃ adj, Graph.memoryGraph S.xxh (c.source S.xxh) c.header.graphRootPage id = .ok adj ∧ Adjacent w id (adj.getD {}) := by
  rcases h.readable with ⟨x, a, hr⟩
  refine ⟨Graph.adjacencyAt x.graph id, hr.at_.graph.memoryGraph hr.graph id, ?_⟩
  constructor
  case valid => exact hr.holds.sound.contents.adjacency_valid (fun _ h => h) id
  case entities => exact hr.holds.denotes.tags id
  case edges =>
    intro edge
    rcases edge with ⟨outgoing, kind, other⟩
    unfold World.Related
    cases outgoing with
    | true => exact hr.holds.denotes.edges id kind other
    | false => exact (hr.holds.sound.symmetric.mirrored other id kind).symm.trans (hr.holds.denotes.edges other kind id)

/-- What `related` answers: the live ends of the edges, in the order of the edges. -/
theorem Holds.related (h : Holds S c w) (id : Ulid) :
    ∃ edges : List Graph.Edge, SortedSet.Ascending Graph.Edge.sortKey edges ∧
      (∀ edge, edge ∈ edges ↔ w.Related id edge.other edge.kind edge.outgoing) ∧
      Store.related S.xxh c id = .ok (edges.filterMap w.along) := by
  rcases h.memoryGraph id with ⟨adj, hadj, hid⟩
  refine ⟨(adj.getD {}).edges, hid.valid.edges, hid.edges, ?_⟩
  unfold Store.related
  rw [hadj, ok_bind]
  cases adj with
  | none => rfl
  | some adj =>
      dsimp only
      rw [h.foldlM_relatedAlong]
      rfl

/-- The tags of a memory. -/
theorem Holds.entitiesOf (h : Holds S c w) (id : Ulid) :
    ∃ names : List String, SortedSet.Ascending utf8 names ∧ (∀ name, name ∈ names ↔ (id, name) ∈ w.tags) ∧
      Store.entitiesOf S.xxh c id = .ok names := by
  rcases h.memoryGraph id with ⟨adj, hadj, hid⟩
  refine ⟨(adj.getD {}).entities, hid.valid.entities, hid.entities, ?_⟩
  unfold Store.entitiesOf
  rw [hadj, ok_bind]
  cases adj with
  | none => rfl
  | some adj => rfl

/-- What `entity_members` answers: the live memories with the tag, in the order of the ids. -/
theorem Holds.entityMembers (h : Holds S c w) (entity : String) :
    ∃ ids : List Ulid, ids.Pairwise (· < ·) ∧ (∀ id, id ∈ ids ↔ (id, entity) ∈ w.tags) ∧
      Store.entityMembers S.xxh c entity = .ok (ids.filterMap w.read) := by
  rcases h.readable with ⟨x, a, hr⟩
  refine ⟨(Graph.membersAt x.graph entity).getD [], hr.holds.sound.contents.members_ascending entity, ?_, ?_⟩
  · intro id
    exact (hr.holds.sound.symmetric.tags id entity).trans (hr.holds.denotes.tags id entity)
  · unfold Store.entityMembers
    rw [show Graph.entityMembers S.xxh (c.source S.xxh) c.header.graphRootPage entity = _ from
      hr.at_.graph.entityMembers hr.graph entity, ok_bind, h.foldlM_memberOf]
    rfl

/-! ## Statistics -/

/-- The live memories of an agent. -/
def writtenBy (agent : Text) (memories : List Memory) : List Memory :=
  memories.filter fun m => !m.tombstone && decide (m.provenance.agent = agent.str)

/-- What the loop of `stats` knows of the memories it has seen. -/
structure Tally.Counts (t : Tally) (memories : List Memory) : Prop where
  live : t.liveMemories = (memories.filter fun m => !m.tombstone).length
  forgotten : t.forgottenMemories = (memories.filter fun m => m.tombstone).length
  agents : ∀ agent, find agent t.byAgent = none ↔ writtenBy agent memories = []
  bucket : ∀ agent b, find agent t.byAgent = some b → b.liveMemories = (writtenBy agent memories).length ∧
    SortedSet.Ascending id b.sessions ∧
    ∀ session, session ∈ b.sessions ↔ ∃ m ∈ writtenBy agent memories, m.provenance.sessionId = some session.str

theorem Tally.counts_empty : Tally.Counts {} [] where
  live := rfl
  forgotten := rfl
  agents := fun _ => ⟨fun _ => rfl, fun _ => rfl⟩
  bucket := by simp

/-- One more memory of an agent. -/
theorem writtenBy_append (agent : Text) (memories : List Memory) (m : Memory) :
    writtenBy agent (memories ++ [m]) = writtenBy agent memories ++ (if m.tombstone = false ∧ m.provenance.agent = agent.str
      then [m] else []) := by
  unfold writtenBy
  rw [List.filter_append, List.filter_singleton]
  congr 1
  cases m.tombstone <;> simp

/-- The sessions of a bucket, with that of one more memory. -/
def withSession (session : Option String) (sessions : List Text) : List Text :=
  match session with
  | some session => (SortedSet.insertNew id ⟨session⟩ sessions).1
  | none => sessions

/-- One more session. -/
theorem withSession_spec {sessions : List Text} (h : SortedSet.Ascending id sessions) (session : Option String) :
    SortedSet.Ascending id (withSession session sessions) ∧
      ∀ x, x ∈ withSession session sessions ↔ session = some x.str ∨ x ∈ sessions := by
  cases session with
  | none => exact ⟨h, by simp [withSession]⟩
  | some session =>
      refine ⟨SortedSet.ascending_insertNew Function.injective_id h, fun x => ?_⟩
      unfold withSession
      rw [SortedSet.mem_insertNew Function.injective_id h, Option.some_inj]
      constructor
      · intro hx
        rcases hx with rfl | hx
        · exact Or.inl rfl
        · exact Or.inr hx
      · intro hx
        rcases hx with hx | hx
        · subst hx
          exact Or.inl rfl
        · exact Or.inr hx

/-- The tally with one more memory. -/
theorem Tally.Counts.add {t : Tally} {memories : List Memory} (h : t.Counts memories) (m : Memory) :
    (t.add m).Counts (memories ++ [m]) := by
  unfold Tally.add
  cases htomb : m.tombstone with
  | true =>
      rw [if_pos rfl]
      have hsame : ∀ agent, writtenBy agent (memories ++ [m]) = writtenBy agent memories := by
        intro agent
        rw [writtenBy_append, if_neg (by simp [htomb]), List.append_nil]
      constructor
      case live => simp [h.live, htomb]
      case forgotten => simp [h.forgotten, htomb]
      case agents =>
        intro agent
        rw [hsame]
        exact h.agents agent
      case bucket =>
        intro agent b hb
        rw [hsame]
        exact h.bucket agent b hb
  | false =>
      rw [if_neg (by simp)]
      have hmine : writtenBy ⟨m.provenance.agent⟩ (memories ++ [m]) = writtenBy ⟨m.provenance.agent⟩ memories ++ [m] := by
        rw [writtenBy_append, if_pos ⟨htomb, rfl⟩]
      have hother : ∀ agent : Text, agent ≠ ⟨m.provenance.agent⟩ →
          writtenBy agent (memories ++ [m]) = writtenBy agent memories := by
        intro agent hne
        rw [writtenBy_append, if_neg, List.append_nil]
        intro hsame
        exact hne (by rw [hsame.2])
      -- the bucket of the agent, empty at first
      have hbucket : ∀ b, b = (find ⟨m.provenance.agent⟩ t.byAgent).getD {} →
          b.liveMemories = (writtenBy ⟨m.provenance.agent⟩ memories).length ∧ SortedSet.Ascending id b.sessions ∧
          ∀ session, session ∈ b.sessions ↔
            ∃ x ∈ writtenBy ⟨m.provenance.agent⟩ memories, x.provenance.sessionId = some session.str := by
        intro b hb
        cases hf : find ⟨m.provenance.agent⟩ t.byAgent with
        | none =>
            rw [hb, hf, (h.agents _).mp hf]
            exact ⟨rfl, List.Pairwise.nil, by simp⟩
        | some b' =>
            rw [hb, hf]
            exact h.bucket _ b' hf
      constructor
      case live => simp [h.live, htomb]
      case forgotten => simp [h.forgotten, htomb]
      case agents =>
        intro agent
        dsimp only
        rw [find_insertKey]
        by_cases ha : agent = ⟨m.provenance.agent⟩
        · rw [if_pos ha, ha, hmine]
          simp
        · rw [if_neg ha, hother agent ha]
          exact h.agents agent
      case bucket =>
        intro agent b hb
        dsimp only at hb
        rw [find_insertKey] at hb
        by_cases ha : agent = ⟨m.provenance.agent⟩
        · rw [if_pos ha] at hb
          cases hb
          rcases hbucket _ rfl with ⟨hlive, hasc, hsessions⟩
          rcases withSession_spec hasc m.provenance.sessionId with ⟨hasc', hmem⟩
          rw [ha, hmine]
          refine ⟨?_, hasc', ?_⟩
          · rw [List.length_append, ← hlive]
            rfl
          · intro session
            refine (hmem session).trans ?_
            rw [hsessions]
            constructor
            · intro hs
              rcases hs with hs | ⟨x, hx, hs⟩
              · exact ⟨m, List.mem_append_right _ List.mem_cons_self, hs⟩
              · exact ⟨x, List.mem_append_left _ hx, hs⟩
            · intro hs
              rcases hs with ⟨x, hx, hs⟩
              rcases List.mem_append.mp hx with hx | hx
              · exact Or.inr ⟨x, hx, hs⟩
              · rw [List.mem_singleton.mp hx] at hs
                exact Or.inl hs
        · rw [if_neg ha] at hb
          rw [hother agent ha]
          exact h.bucket agent b hb

/-- Counting memories. -/
theorem Tally.counts_foldl (memories : List Memory) {t : Tally} {done : List Memory} (h : t.Counts done) :
    (memories.foldl Tally.add t).Counts (done ++ memories) := by
  induction memories generalizing t done with
  | nil =>
      rw [List.append_nil]
      exact h
  | cons m memories ih =>
      have hnext := ih (h.add m)
      rwa [List.append_assoc, List.singleton_append] at hnext

/-- Every memory that was ever stored, in the order of the ids. -/
def World.memories (w : World) : List Memory := w.records.map fun e => Memory.fromRecord e.2

/-- Reading all memories. -/
theorem Holds.memories (h : Holds S c w) : (Store.iterAll S.xxh c).mapM id = .ok w.memories := by
  rw [h.iterAll, World.memories]
  induction w.records with
  | nil => rfl
  | cons e records ih =>
      rw [List.map_cons, List.mapM_cons, ih]
      rfl

/-- What `stats` reports of a world: the tally of its memories, and the counters of its indexes, which stop at
the largest 64-bit number. -/
structure StoreStats.Describes (s : StoreStats) (w : World) : Prop where
  tally : Tally.Counts ⟨s.liveMemories, s.forgottenMemories, s.byAgent⟩ w.memories
  indexEntries : s.indexEntries = w.vectors.length
  ftsDocuments : s.ftsDocuments = min w.records.length (2 ^ 64 - 1)
  graphEntities : s.graphEntities = min {name | ∃ id, (id, name) ∈ w.tags}.ncard Graph.COUNT_MAX
  graphRelations : s.graphRelations = min w.edges.ncard Graph.COUNT_MAX

section Counters

variable {x : Structures} {a : Areas}

/-- The vectors are counted. -/
theorem Readable.indexEntries (h : Readable S c w x a) :
    Hnsw.nodeCount (c.source S.xxh) c.header.hnswMetaPage = .ok w.vectors.length := by
  have hlength : x.hnswStats.nodeCount = w.vectors.length := by
    rw [h.at_.hnsw.count, ← h.holds.nodes, List.length_map]
  unfold Hnsw.nodeCount
  rw [show Hnsw.loadMeta (c.source S.xxh) c.header.hnswMetaPage = _ from h.at_.hnsw.loadMeta h.hnsw.pageSize_ge,
    ok_bind, ← hlength]
  change Except.ok ((Option.map _ (if c.header.hnswMetaPage = 0 then none else some x.hnswStats)).getD 0) = _
  split
  · rename_i hroot
    rcases h.at_.hnsw.pages with ⟨_, hnew, _⟩ | ⟨hne, _⟩
    · rw [hnew]
      rfl
    · exact absurd hroot hne
  · rfl

/-- So are the documents. -/
theorem Readable.ftsDocuments (h : Readable S c w x a) :
    ∃ fts, Fts.loadMeta (c.source S.xxh) c.header.ftsRootPage = .ok fts ∧
      (fts.map Fts.FtsMeta.docCount).getD 0 = min w.records.length (2 ^ 64 - 1) := by
  refine ⟨_, h.at_.fts.loadMeta h.fts, ?_⟩
  have hcount : x.ftsStats.docCount = min w.records.length (2 ^ 64 - 1) := by
    rw [h.holds.fts.docCount, World.docs, List.length_map]
  rw [← hcount]
  change (Option.map _ (if c.header.ftsRootPage = 0 then none else some x.ftsStats)).getD 0 = _
  split
  · rename_i hroot
    rcases h.at_.fts.pages with ⟨_, hnew, _⟩ | ⟨_, hne, _⟩
    · rw [hnew]
      rfl
    · exact absurd hroot hne
  · rfl

/-- So are tags and relations. -/
theorem Readable.graphCounts (h : Readable S c w x a) :
    ∃ graph, Graph.loadMeta (c.source S.xxh) c.header.graphRootPage = .ok graph ∧
      (graph.map Graph.GraphMeta.entityCount).getD 0 =
        min {name | ∃ id, (id, name) ∈ w.tags}.ncard Graph.COUNT_MAX ∧
      (graph.map Graph.GraphMeta.relationCount).getD 0 = min w.edges.ncard Graph.COUNT_MAX := by
  refine ⟨_, h.at_.graph.loadMeta h.graph, ?_⟩
  have hsound := h.holds.sound
  have hentities : {name | ∃ id, (id, name) ∈ w.tags} = {name | Graph.membersOf x.graph name ≠ []} := by
    ext name
    constructor
    · intro htag
      rcases htag with ⟨id, htag⟩
      exact List.ne_nil_of_mem ((hsound.symmetric.tags id name).mpr ((h.holds.denotes.tags id name).mpr htag))
    · intro hne
      rcases List.exists_mem_of_ne_nil _ hne with ⟨id, hmember⟩
      exact ⟨id, (h.holds.denotes.tags id name).mp ((hsound.symmetric.tags id name).mp hmember)⟩
  have hedges : w.edges =
      {r : Ulid × String × Ulid | ⟨true, r.2.1, r.2.2⟩ ∈ (Graph.graphOf x.graph r.1).edges} := by
    ext r
    exact (h.holds.denotes.edges r.1 r.2.1 r.2.2).symm
  rw [hentities, hedges, Graph.ncard_entities hsound.sorted hsound.contents,
    Graph.ncard_relations hsound.sorted hsound.contents, ← hsound.entityCount, ← hsound.relationCount]
  change (Option.map _ (if c.header.graphRootPage = 0 then none else some x.graphStats)).getD 0 = _ ∧
    (Option.map _ (if c.header.graphRootPage = 0 then none else some x.graphStats)).getD 0 = _
  split
  · rename_i hroot
    rcases h.at_.graph.pages with ⟨_, hnew, _⟩ | ⟨_, hne, _⟩
    · rw [hnew]
      exact ⟨rfl, rfl⟩
    · exact absurd hroot hne
  · exact ⟨rfl, rfl⟩

end Counters

/-- The statistics describe the world. -/
theorem Holds.stats (h : Holds S c w) : ∃ s, Store.stats S.xxh c = .ok s ∧ s.Describes w := by
  rcases h.readable with ⟨x, a, hr⟩
  rcases hr.ftsDocuments with ⟨fts, hfts, hdocs⟩
  rcases hr.graphCounts with ⟨graph, hgraph, hentities, hrelations⟩
  have hcounts := Tally.counts_foldl w.memories Tally.counts_empty
  rw [List.nil_append] at hcounts
  unfold Store.stats
  rw [h.memories, ok_bind]
  dsimp only
  rw [hgraph, ok_bind, hr.indexEntries, ok_bind, hfts, ok_bind]
  exact ⟨_, rfl, hcounts, rfl, hdocs, hentities, hrelations⟩

end Read

end Store

end EmbedMind
